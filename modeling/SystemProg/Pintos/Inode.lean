import SystemProg.Pintos.FileSys

/-!
# An inode is a run of bytes

The data of an inode is one extent, so on the device it is one run of bytes. `inode_read_at` reads a
part of it and `inode_write_at` overwrites a part of it, whatever the sectors: the direct path for
whole sectors and the one through the bounce buffer do the same.
-/

namespace SystemProg.Pintos

open Data Text SystemProg.Seq List

/-- The inode in a sector of a device. -/
def Disk.inodeAt (d : Disk) (sector : Nat) : InodeDisk :=
  InodeDisk.decode (slice d.byte (sectorSize * sector) sectorSize)

/-- The data of an inode. -/
def Disk.contents (d : Disk) (x : InodeDisk) : List Byte :=
    slice d.byte (sectorSize * x.start) x.length

/-- The data of an inode is inside a device. -/
def InodeDisk.Fits (x : InodeDisk) (size : Nat) : Prop := x.start + bytesToSectors x.length ≤ size

/-- A device with some bytes overwritten. -/
def Disk.patched (d : Disk) (a : Nat) (bs : List Byte) : Disk :=
    { d with byte := patch d.byte a bs }

/-- Its device with bytes overwritten. -/
def FileSys.patched (fs : FileSys) (a : Nat) (bs : List Byte) : FileSys :=
  { fs with disk := fs.disk.patched a bs }

variable {fs : FileSys} {data : InodeDisk} {turns size offset sector p : Nat} {buffer : List Byte}

theorem FileSys.patched_nil (fs : FileSys) (a : Nat) : fs.patched a [] = fs := by
  rw [FileSys.patched, Disk.patched, patch_nil]

theorem FileSys.patched_patched {l r : List Byte} {a k : Nat} (h : l.length = k) :
    (fs.patched a l).patched (a + k) r = fs.patched a (l ++ r) := by
  simp only [FileSys.patched, Disk.patched, patch_append, h]

theorem InodeDisk.decode_encode (x : InodeDisk) (hs : x.start < 2 ^ 32) (hl : x.length < 2 ^ 32) :
    InodeDisk.decode x.encode = x := by
  have h1 : x.encode.take 4 = toLE 4 x.start := by
    unfold InodeDisk.encode
    rw [append_assoc, append_assoc, take_left' (length_toLE 4 _)]
  have h2 : (x.encode.drop 4).take 4 = toLE 4 x.length := by
    unfold InodeDisk.encode
    rw [append_assoc, append_assoc, drop_left' (length_toLE 4 _), take_left'
      (length_toLE 4 _)]
  rw [InodeDisk.decode, h1, h2, fromLE_toLE (by simpa using hs), fromLE_toLE (by simpa using hl)]

theorem InodeDisk.length_encode (x : InodeDisk) : x.encode.length = sectorSize := by
  unfold InodeDisk.encode
  rw [length_append, length_append, length_append, length_toLE, length_toLE, length_toLE,
    length_replicate]
  rfl

/-! ## One turn -/

theorem blockRead_eq (h : sector < fs.disk.size) :
    blockRead sector fs = some (slice fs.disk.byte (sectorSize * sector) sectorSize, fs) := by
  rw [blockRead, get_bind, bind_eq (assert_eq h), pure_eq]

theorem blockWrite_eq (h : sector < fs.disk.size) :
    blockWrite sector buffer fs = some ((), fs.patched (sectorSize * sector) buffer) := by
  rw [blockWrite, get_bind, bind_eq (assert_eq h), set_eq]
  rfl

theorem chunkSize_le : chunkSize data size offset ≤ size := Nat.min_le_left _ _

/-- A turn that moves nothing is at the end, of the request or of the inode. -/
theorem chunkSize_eq_zero (h : chunkSize data size offset = 0) :
    min size (data.length - offset) = 0 := by
  unfold chunkSize sectorSize at h
  omega

/-- Where a turn moves something, the sector is one of the inode's. -/
theorem byteToSector_lt (hfit : data.Fits size) (h : offset < data.length) :
    byteToSector data offset = data.start + offset / sectorSize ∧
      byteToSector data offset < size := by
  have he : byteToSector data offset = data.start + offset / sectorSize := if_pos h
  refine ⟨he, ?_⟩
  unfold InodeDisk.Fits bytesToSectors sectorSize at hfit
  rw [he, sectorSize]
  omega

theorem lt_length_of_chunkSize (h : chunkSize data size offset ≠ 0) : offset < data.length := by
  unfold chunkSize at h
  omega

theorem address (data : InodeDisk) (offset : Nat) :
    sectorSize * (data.start + offset / sectorSize) + offset % sectorSize =
      sectorSize * data.start + offset := by
  have := Nat.div_add_mod offset sectorSize
  rw [Nat.mul_add]
  omega

theorem chunkSize_fits : offset % sectorSize + chunkSize data size offset ≤ sectorSize := by
  have : offset % sectorSize < sectorSize := Nat.mod_lt _ (by decide)
  unfold chunkSize
  omega

theorem chunkSize_add {chunk : Nat} (h : chunk = chunkSize data size offset) :
    chunk + min (size - chunk) (data.length - (offset + chunk)) =
      min size (data.length - offset) := by
  unfold chunkSize at h
  omega

theorem readChunk_eq {chunk : Nat} (hfit : data.Fits fs.disk.size) (hlt : offset < data.length)
    (hchunk : offset % sectorSize + chunk ≤ sectorSize) :
    readChunk data chunk offset fs =
      some (slice fs.disk.byte (sectorSize * data.start + offset) chunk, fs) := by
  obtain ⟨hidx, hin⟩ := byteToSector_lt hfit hlt
  rw [← address data offset, ← hidx]
  unfold readChunk
  split
  · rename_i hfast
    rw [blockRead_eq hin, hfast.1, hfast.2]
    rfl
  · rw [bind_eq (blockRead_eq hin)]
    refine congrArg (fun l => some (l, fs)) ?_
    rw [drop_slice, take_slice, Nat.min_eq_left (by omega)]

theorem writeChunk_eq {bytes : List Byte} (hfit : data.Fits fs.disk.size)
    (hlt : offset < data.length)
    (hchunk : offset % sectorSize + bytes.length ≤ sectorSize) :
    writeChunk data bytes offset fs =
      some ((), fs.patched (sectorSize * data.start + offset) bytes) := by
  obtain ⟨hidx, hin⟩ := byteToSector_lt hfit hlt
  rw [← address data offset, ← hidx]
  unfold writeChunk
  split
  · rename_i hfast
    rw [blockWrite_eq hin, hfast.1]
    rfl
  · rename_i hslow
    have hbounce : bounceBuffer data bytes.length offset fs = some (_, fs) :=
      (congrFun (if_pos (by omega)) fs).trans (blockRead_eq hin)
    rw [bind_eq hbounce, blockWrite_eq hin]
    refine congrArg (fun b => some ((), { fs with disk := { fs.disk with byte := b } })) ?_
    exact patch_splice_slice _ _ hchunk

/-! ## The loops -/

/-- **`inode_read_at` reads the run.** -/
theorem readLoop_eq (hfit : data.Fits fs.disk.size) (hturns : size ≤ turns) :
    readLoop data turns size offset fs =
      some (slice fs.disk.byte (sectorSize * data.start + offset) (min size (data.length - offset)),
        fs) := by
  induction turns generalizing size offset with
  | zero =>
    rw [Nat.le_zero.mp hturns, Nat.zero_min]
    rfl
  | succ turns ih =>
    obtain ⟨chunk, hchunk⟩ : ∃ chunk, chunk = chunkSize data size offset := ⟨_, rfl⟩
    unfold readLoop
    rw [← hchunk]
    by_cases h0 : chunk = 0
    · rw [if_pos h0, chunkSize_eq_zero (hchunk ▸ h0)]
      rfl
    have hlt := lt_length_of_chunkSize (hchunk ▸ h0)
    have hle : chunk ≤ size := hchunk ▸ chunkSize_le
    rw [if_neg h0, bind_eq (readChunk_eq hfit hlt (hchunk ▸ chunkSize_fits)),
      bind_eq (ih (by omega))]
    refine congrArg (fun l => some (l, fs)) ?_
    rw [← chunkSize_add hchunk, slice_add, Nat.add_assoc]

/-- **`inode_write_at` overwrites a part of the run.** -/
theorem writeLoop_eq (hfit : data.Fits fs.disk.size) (hturns : buffer.length ≤ turns) :
    writeLoop data turns buffer offset fs =
      some (min buffer.length (data.length - offset), fs.patched (sectorSize * data.start + offset)
        (buffer.take (min buffer.length (data.length - offset)))) := by
  induction turns generalizing fs buffer offset with
  | zero =>
    rw [length_eq_zero_iff.mp (Nat.le_zero.mp hturns), length_nil, Nat.zero_min, take_zero,
      FileSys.patched_nil]
    rfl
  | succ turns ih =>
    obtain ⟨chunk, hchunk⟩ : ∃ chunk, chunk = chunkSize data buffer.length offset := ⟨_, rfl⟩
    unfold writeLoop
    rw [← hchunk]
    by_cases h0 : chunk = 0
    · rw [if_pos h0, chunkSize_eq_zero (hchunk ▸ h0), take_zero, FileSys.patched_nil]
      rfl
    have hlt := lt_length_of_chunkSize (hchunk ▸ h0)
    have hle : chunk ≤ buffer.length := hchunk ▸ chunkSize_le
    have hlen : (buffer.take chunk).length = chunk := by rw [length_take, Nat.min_eq_left hle]
    have hwrite : writeChunk data (buffer.take chunk) offset fs = _ := writeChunk_eq hfit hlt
      (by rw [hlen, hchunk]; exact chunkSize_fits)
    have hleft : (buffer.drop chunk).length ≤ turns := by rw [length_drop]; omega
    have hfit' :
      data.Fits (fs.patched (sectorSize * data.start + offset) (buffer.take chunk)).disk.size :=
      hfit
    rw [if_neg h0, bind_eq hwrite, bind_eq (ih hfit' hleft), length_drop, pure_eq, ← Nat.add_assoc,
      FileSys.patched_patched hlen, ← chunkSize_add hchunk, take_add]

/-! ## `inode_read_at` and `inode_write_at` -/

variable {i : Inode} {x : InodeDisk}

theorem inode_eq (hi : lookup Inode.ptr fs.openInodes p = some i) : inode p fs = some (i, fs) := by
  rw [inode, get_bind, hi]
  rfl

/-- **Reading an open inode.** -/
theorem inodeReadAt_eq (hi : lookup Inode.ptr fs.openInodes p = some i)
    (hfit : i.data.Fits fs.disk.size) :
    inodeReadAt p size offset fs =
      some (((fs.disk.contents i.data).drop offset).take size, fs) := by
  rw [inodeReadAt, bind_eq (inode_eq hi), readLoop_eq hfit le_rfl, Disk.contents, drop_slice,
    take_slice]

/-- A device after a write to the data of an inode; what is past the end is not written. -/
def Disk.written (d : Disk) (x : InodeDisk) (offset : Nat) (bs : List Byte) : Disk :=
  d.patched (sectorSize * x.start + offset) (bs.take (x.length - offset))

/-- **Writing an open inode** that no one denies writes to. -/
theorem inodeWriteAt_eq (hi : lookup Inode.ptr fs.openInodes p = some i)
    (hfit : i.data.Fits fs.disk.size)
    (hdeny : i.denyWriteCnt = 0) : inodeWriteAt p buffer offset fs =
      some (min buffer.length (i.data.length - offset),
        { fs with disk := fs.disk.written i.data offset buffer }) := by
  have htake (k : Nat) : buffer.take (min buffer.length k) = buffer.take k := by
    rw [Nat.min_comm, ← take_eq_take_min]
  rw [inodeWriteAt, bind_eq (inode_eq hi), if_neg (not_not.mpr hdeny), writeLoop_eq hfit
    le_rfl, htake]
  rfl

theorem inodeWriteAt_denied (hi : lookup Inode.ptr fs.openInodes p = some i)
    (hdeny : i.denyWriteCnt ≠ 0) :
    inodeWriteAt p buffer offset fs = some (0, fs) := by
  rw [inodeWriteAt, bind_eq (inode_eq hi), if_pos hdeny]
  rfl

theorem contents_written (d : Disk) (x : InodeDisk) (offset : Nat) (buffer : List Byte) :
    (d.written x offset buffer).contents x =
      splice (d.contents x) offset (buffer.take (x.length - offset)) := by
  rw [Disk.contents, Disk.written, Disk.patched]
  rcases Nat.le_total offset x.length with h | h
  · have hlen := length_take_le (x.length - offset) buffer
    rw [slice_patch (by omega) (by omega), Nat.add_sub_cancel_left]
    rfl
  · -- past the end
    rw [Nat.sub_eq_zero_of_le h, take_zero, patch_nil, splice_nil]
    rfl

theorem contents_written_all (d : Disk) (h : buffer.length = x.length) :
    (d.written x 0 buffer).contents x = buffer := by
  have hlen : (d.contents x).length = x.length := length_slice _ _ _
  rw [contents_written, Nat.sub_zero, take_of_length_le (Nat.le_of_eq h), splice,
    take_zero, nil_append, Nat.zero_add, h, drop_eq_nil_of_le (Nat.le_of_eq hlen), append_nil]

end SystemProg.Pintos
