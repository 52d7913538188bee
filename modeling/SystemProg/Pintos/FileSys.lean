import SystemProg.Data.Keyed
import SystemProg.Data.Memory
import SystemProg.Pintos.Bitmap
import SystemProg.Seq.Panic

/-!
# The file system of Pintos

Model of `Project_3/filesys`: `inode.c`, `free-map.c`, `file.c`, `directory.c` and `filesys.c` over
a block device. Each C function is a function of the same name on the state `FileSys` that may
panic.

* The device is one run of bytes; sector `s` is the 512 bytes from `512 * s` on.
* A `struct inode *` is an address. Addresses are never given out twice, and only an inode on
  `open_inodes` can be dereferenced.
* A `struct file` and a `struct dir` are values, held by whoever opened them.
* `malloc` and `calloc` succeed.
* Sizes, lengths and offsets are natural numbers: a negative `initial_size` is an assertion failure,
  and where the C code compares with a negative difference, the difference here is 0. `magic` is
  written to disk and never read.
* The loops have a number of turns that is always enough; `read_at` and `write_at` move at least one
  byte a turn, the directory loops one entry.
-/

namespace SystemProg.Pintos

open Data Text SystemProg.Seq

/-! ## State -/

/-- `BLOCK_SECTOR_SIZE`. -/
def sectorSize : Nat := 512

/-- A block device of `size` sectors. -/
structure Disk where
  size : Nat
  byte : Nat → Byte

/-- `struct inode_disk`. -/
structure InodeDisk where
  start : Nat
  length : Nat
  deriving Repr, DecidableEq

/-- `INODE_MAGIC`. -/
def inodeMagic : Nat := 0x494e4f44

/-- The sector of an inode. -/
def InodeDisk.encode (x : InodeDisk) : List Byte :=
  toLE 4 x.start ++ toLE 4 x.length ++ toLE 4 inodeMagic ++ List.replicate 500 0

/-- The inode in a sector. -/
def InodeDisk.decode (bs : List Byte) : InodeDisk where
  start := fromLE (bs.take 4)
  length := fromLE ((bs.drop 4).take 4)

/-- `struct inode`, at the address `ptr`. -/
structure Inode where
  ptr : Nat
  sector : Nat
  openCnt : Nat
  denyWriteCnt : Nat
  removed : Bool
  data : InodeDisk
  deriving Repr, DecidableEq

/-- `struct file`. -/
structure File where
  inode : Nat
  pos : Nat
  denyWrite : Bool
  deriving Repr, DecidableEq

/-- The state of the file system. -/
structure FileSys where
  disk : Disk
  freeMap : Bitmap
  /-- `free_map_file`; `none` for NULL. -/
  freeMapFile : Option File
  openInodes : List Inode
  /-- The address `malloc` returns next. -/
  nextPtr : Nat

/-- A function of the kernel. -/
abbrev K (α : Type) := Panic FileSys α

/-- A wild pointer is dereferenced. -/
def fault {α : Type} : K α := fun _ => none

/-! ## `block.c` -/

/-- `block_read`. -/
def blockRead (sector : Nat) : K (List Byte) := do
  let fs ← get
  assert (sector < fs.disk.size)
  return slice fs.disk.byte (sectorSize * sector) sectorSize

/-- `block_write`. -/
def blockWrite (sector : Nat) (buffer : List Byte) : K Unit := do
  let fs ← get
  assert (sector < fs.disk.size)
  set { fs with disk.byte := patch fs.disk.byte (sectorSize * sector) buffer }

/-! ## `inode.c`: reading and writing -/

/-- `DIV_ROUND_UP(size, BLOCK_SECTOR_SIZE)`. -/
def bytesToSectors (size : Nat) : Nat := (size + sectorSize - 1) / sectorSize

/-- `byte_to_sector`; -1 is the greatest `block_sector_t`. -/
def byteToSector (data : InodeDisk) (pos : Nat) : Nat :=
  if pos < data.length then data.start + pos / sectorSize else 2 ^ 32 - 1

/-- `*inode`. -/
def inode (p : Nat) : K Inode := do
  let fs ← get
  match lookup Inode.ptr fs.openInodes p with
  | some i => return i
  | none => fault

/-- A write to fields of `*inode`. -/
def modifyInode (p : Nat) (f : Inode → Inode) : K Unit := do
  let _ ← inode p
  modify fun fs => { fs with openInodes := update Inode.ptr fs.openInodes p f }

/-- `chunk_size`: the least of what is asked for, what is left of the inode, what is left of the
sector. -/
def chunkSize (data : InodeDisk) (size offset : Nat) : Nat :=
  min size (min (data.length - offset) (sectorSize - offset % sectorSize))

/-- A turn of `inode_read_at`: a whole sector is read directly, a part through the bounce buffer. -/
def readChunk (data : InodeDisk) (chunk offset : Nat) : K (List Byte) :=
  if offset % sectorSize = 0 ∧ chunk = sectorSize then blockRead (byteToSector data offset)
  else do
    let bounce ← blockRead (byteToSector data offset)
    return (bounce.drop (offset % sectorSize)).take chunk

/-- The loop of `inode_read_at`. -/
def readLoop (data : InodeDisk) : (turns size offset : Nat) → K (List Byte)
  | 0, _, _ => return []
  | turns + 1, size, offset => do
    let chunk := chunkSize data size offset
    if chunk = 0 then return []
    let bytes ← readChunk data chunk offset
    let rest ← readLoop data turns (size - chunk) (offset + chunk)
    return bytes ++ rest

/-- `inode_read_at`; what it returns is the length of the list. -/
def inodeReadAt (p size offset : Nat) : K (List Byte) := do
  let i ← inode p
  readLoop i.data size size offset

/-- The bounce buffer of `inode_write_at` before the chunk is copied into it. -/
def bounceBuffer (data : InodeDisk) (chunk offset : Nat) : K (List Byte) :=
  if 0 < offset % sectorSize ∨ chunk < sectorSize - offset % sectorSize then
    blockRead (byteToSector data offset)
  else return List.replicate sectorSize 0

/-- A turn of `inode_write_at`. -/
def writeChunk (data : InodeDisk) (bytes : List Byte) (offset : Nat) : K Unit :=
  if offset % sectorSize = 0 ∧ bytes.length = sectorSize then
    blockWrite (byteToSector data offset) bytes
  else do
    let bounce ← bounceBuffer data bytes.length offset
    blockWrite (byteToSector data offset) (splice bounce (offset % sectorSize) bytes)

/-- The loop of `inode_write_at`; `buffer` is what is left of it. -/
def writeLoop (data : InodeDisk) : (turns : Nat) → (buffer : List Byte) → (offset : Nat) → K Nat
  | 0, _, _ => return 0
  | turns + 1, buffer, offset => do
    let chunk := chunkSize data buffer.length offset
    if chunk = 0 then return 0
    writeChunk data (buffer.take chunk) offset
    let written ← writeLoop data turns (buffer.drop chunk) (offset + chunk)
    return chunk + written

/-- `inode_write_at`. -/
def inodeWriteAt (p : Nat) (buffer : List Byte) (offset : Nat) : K Nat := do
  let i ← inode p
  if i.denyWriteCnt ≠ 0 then return 0
  writeLoop i.data buffer.length buffer offset

/-! ## `free-map.c` -/

/-- `file_read_at`. -/
def fileReadAt (file : File) (size offset : Nat) : K (List Byte) :=
    inodeReadAt file.inode size offset

/-- `file_write_at`. -/
def fileWriteAt (file : File) (buffer : List Byte) (offset : Nat) : K Nat :=
  inodeWriteAt file.inode buffer offset

/-- `bitmap_write(free_map, file)`. -/
def bitmapWrite (file : File) : K Bool := do
  let fs ← get
  let n ← fileWriteAt file fs.freeMap.bytes 0
  return n = byteCnt fs.freeMap.bitCnt

/-- `bitmap_read(free_map, file)`. -/
def bitmapRead (file : File) : K Bool := do
  let fs ← get
  if fs.freeMap.bitCnt = 0 then return true
  let bs ← fileReadAt file (byteCnt fs.freeMap.bitCnt) 0
  modify fun fs => { fs with freeMap := fs.freeMap.ofBytes bs }
  return bs.length = byteCnt fs.freeMap.bitCnt

/-- `free_map_allocate`; the sector it stores, `none` if it returns false. -/
def freeMapAllocate (cnt : Nat) : K (Option Nat) := do
  let fs ← get
  match fs.freeMap.scan cnt false with
  | some sector =>
    set { fs with freeMap := fs.freeMap.setMultiple sector cnt true }
    match fs.freeMapFile with
    | none => return some sector
    | some file =>
      if ← bitmapWrite file then return some sector
      modify fun fs => { fs with freeMap := fs.freeMap.setMultiple sector cnt false }
      return none
  | none => return none

/-- `free_map_release`. -/
def freeMapRelease (sector cnt : Nat) : K Unit := do
  let fs ← get
  assert (fs.freeMap.InRange sector cnt)
  assert (fs.freeMap.all sector cnt = true)
  set { fs with freeMap := fs.freeMap.setMultiple sector cnt false }
  match fs.freeMapFile with
  | none => fault
  | some file =>
    let _ ← bitmapWrite file

/-! ## `inode.c`: creating, opening, closing -/

/-- The loop of `inode_create` that zeroes the data. -/
def writeZeros (start : Nat) : (cnt : Nat) → K Unit
  | 0 => return ()
  | cnt + 1 => do
    writeZeros start cnt
    blockWrite (start + cnt) (List.replicate sectorSize 0)

/-- `inode_create`. -/
def inodeCreate (sector length : Nat) : K Bool := do
  match ← freeMapAllocate (bytesToSectors length) with
  | some start =>
    blockWrite sector (InodeDisk.encode ⟨start, length⟩)
    writeZeros start (bytesToSectors length)
    return true
  | none => return false

/-- `inode_reopen`. -/
def inodeReopen (p : Nat) : K Unit := modifyInode p fun i => { i with openCnt := i.openCnt + 1 }

/-- `inode_open`; the address of the inode. -/
def inodeOpen (sector : Nat) : K Nat := do
  let fs ← get
  match lookup Inode.sector fs.openInodes sector with
  | some i =>
    inodeReopen i.ptr
    return i.ptr
  | none =>
    let bs ← blockRead sector
    set { fs with
      openInodes := ⟨fs.nextPtr, sector, 1, 0, false, InodeDisk.decode bs⟩ :: fs.openInodes
      nextPtr := fs.nextPtr + 1 }
    return fs.nextPtr

/-- `inode_close`. -/
def inodeClose (p : Nat) : K Unit := do
  let i ← inode p
  if i.openCnt = 1 then
    modify fun fs => { fs with openInodes := remove Inode.ptr fs.openInodes p }
    if i.removed then
      freeMapRelease i.sector 1
      freeMapRelease i.data.start (bytesToSectors i.data.length)
  else modifyInode p fun i => { i with openCnt := i.openCnt - 1 }

/-- `inode_remove`. -/
def inodeRemove (p : Nat) : K Unit := modifyInode p fun i => { i with removed := true }

/-- `inode_deny_write`. -/
def inodeDenyWrite (p : Nat) : K Unit := do
  modifyInode p fun i => { i with denyWriteCnt := i.denyWriteCnt + 1 }
  let i ← inode p
  assert (i.denyWriteCnt ≤ i.openCnt)

/-- `inode_allow_write`. -/
def inodeAllowWrite (p : Nat) : K Unit := do
  let i ← inode p
  assert (0 < i.denyWriteCnt)
  assert (i.denyWriteCnt ≤ i.openCnt)
  modifyInode p fun i => { i with denyWriteCnt := i.denyWriteCnt - 1 }

/-! ## `file.c` -/

/-- `file_open`; `none` for NULL. -/
def fileOpen (inode : Option Nat) : Option File := inode.map fun p => ⟨p, 0, false⟩

/-- `file_reopen`. -/
def fileReopen (file : File) : K (Option File) := do
  inodeReopen file.inode
  return fileOpen (some file.inode)

/-- `file_deny_write`. -/
def fileDenyWrite (file : File) : K File := do
  if file.denyWrite then return file
  inodeDenyWrite file.inode
  return { file with denyWrite := true }

/-- `file_allow_write`. -/
def fileAllowWrite (file : File) : K File := do
  if file.denyWrite then
    inodeAllowWrite file.inode
    return { file with denyWrite := false }
  return file

/-- `file_close`. -/
def fileClose (file : File) : K Unit := do
  let file ← fileAllowWrite file
  inodeClose file.inode

/-- `file_length`. -/
def fileLength (file : File) : K Nat := do
  let i ← inode file.inode
  return i.data.length

/-- `file_read`. -/
def fileRead (file : File) (size : Nat) : K (List Byte × File) := do
  let bs ← inodeReadAt file.inode size file.pos
  return (bs, { file with pos := file.pos + bs.length })

/-- `file_write`. -/
def fileWrite (file : File) (buffer : List Byte) : K (Nat × File) := do
  let n ← inodeWriteAt file.inode buffer file.pos
  return (n, { file with pos := file.pos + n })

/-- `file_seek`. -/
def fileSeek (file : File) (newPos : Nat) : File := { file with pos := newPos }

/-! ## `directory.c` -/

/-- `NAME_MAX`. -/
def nameMax : Nat := 14

/-- `struct dir_entry`; `name` is the array. -/
structure DirEntry where
  inodeSector : Nat
  name : List Byte
  inUse : Bool
  deriving Repr, DecidableEq

/-- `sizeof(struct dir_entry)`. -/
def entrySize : Nat := 20

/-- The bytes of an entry. -/
def DirEntry.encode (e : DirEntry) : List Byte :=
  toLE 4 e.inodeSector ++ e.name ++ [if e.inUse then 1 else 0]

/-- The entry in them. -/
def DirEntry.decode (bs : List Byte) : DirEntry where
  inodeSector := fromLE (bs.take 4)
  name := (bs.drop 4).take (nameMax + 1)
  inUse := bs.getD 19 0 ≠ 0

/-- `e.in_use = false;` -/
def DirEntry.erased (e : DirEntry) : DirEntry := { e with inUse := false }

/-- `struct dir_entry e;` before anything is read into it. -/
def DirEntry.blank : DirEntry := ⟨0, List.replicate (nameMax + 1) 0, false⟩

/-- `struct dir`. -/
structure Dir where
  inode : Nat
  pos : Nat
  deriving Repr, DecidableEq

/-- `dir_create`. -/
def dirCreate (sector entryCnt : Nat) : K Bool := inodeCreate sector (entryCnt * entrySize)

/-- `ROOT_DIR_SECTOR`. -/
def rootDirSector : Nat := 1

/-- `FREE_MAP_SECTOR`. -/
def freeMapSector : Nat := 0

/-- `dir_open`. -/
def dirOpen (p : Nat) : Dir := ⟨p, 0⟩

/-- `dir_open_root`. -/
def dirOpenRoot : K Dir := do
  let p ← inodeOpen rootDirSector
  return dirOpen p

/-- `dir_close`. -/
def dirClose (dir : Dir) : K Unit := inodeClose dir.inode

/-- The loops over a directory: `e` and `ofs` where they end, at the first entry with `p` (`true`)
or at the end of the file. -/
def scanEntries (dir : Dir) (p : DirEntry → Bool) :
    (turns ofs : Nat) → (e : DirEntry) → K (Bool × DirEntry × Nat)
  | 0, ofs, e => return (false, e, ofs)
  | turns + 1, ofs, e => do
    let bs ← inodeReadAt dir.inode entrySize ofs
    if bs.length ≠ entrySize then return (false, e, ofs)
    let e := DirEntry.decode bs
    if p e then return (true, e, ofs)
    scanEntries dir p turns (ofs + entrySize) e

/-- One of those loops from the start. -/
def forEntries (dir : Dir) (p : DirEntry → Bool) : K (Bool × DirEntry × Nat) := do
  let i ← inode dir.inode
  scanEntries dir p (i.data.length / entrySize + 1) 0 DirEntry.blank

/-- `lookup`: the entry and its offset. -/
def dirFind (dir : Dir) (name : List Byte) : K (Option (DirEntry × Nat)) := do
  let (found, e, ofs) ← forEntries dir fun e => e.inUse && cstr e.name = name
  return if found then some (e, ofs) else none

/-- `dir_lookup`. -/
def dirLookup (dir : Dir) (name : List Byte) : K (Option Nat) := do
  match ← dirFind dir name with
  | none => return none
  | some (e, _) =>
    let p ← inodeOpen e.inodeSector
    return some p

/-- `strlcpy(dst, src, size)`. -/
def strlcpy (dst src : List Byte) (size : Nat) : List Byte :=
    splice dst 0 (src.take (size - 1) ++ [0])

/-- `dir_add`. -/
def dirAdd (dir : Dir) (name : List Byte) (inodeSector : Nat) : K Bool := do
  if name = [] ∨ nameMax < name.length then return false
  if (← dirFind dir name).isSome then return false
  let (_, e, ofs) ← forEntries dir fun e => !e.inUse
  let e : DirEntry := ⟨inodeSector, strlcpy e.name name (nameMax + 1), true⟩
  let n ← inodeWriteAt dir.inode e.encode ofs
  return n = entrySize

/-- `dir_remove`. -/
def dirRemove (dir : Dir) (name : List Byte) : K Bool := do
  match ← dirFind dir name with
  | none => return false
  | some (e, ofs) =>
    let p ← inodeOpen e.inodeSector
    let n ← inodeWriteAt dir.inode e.erased.encode ofs
    if n = entrySize then
      inodeRemove p
      inodeClose p
      return true
    else
      inodeClose p
      return false

/-- `dir_readdir`: the name, `none` if it returns false. -/
def dirReaddir (dir : Dir) : K (Option (List Byte) × Dir) := do
  let i ← inode dir.inode
  let (found, e, ofs) ← scanEntries dir (·.inUse) (i.data.length / entrySize + 1)
    dir.pos DirEntry.blank
  return if found then (some ((cstr e.name).take nameMax), { dir with pos := ofs + entrySize })
    else (none, { dir with pos := ofs })

/-! ## `filesys.c` -/

/-- `inode_create(...) && dir_add(...)` in `filesys_create`. -/
def makeFile (dir : Dir) (name : List Byte) (inodeSector initialSize : Nat) : K Bool := do
  if ← inodeCreate inodeSector initialSize then dirAdd dir name inodeSector
  else return false

/-- `filesys_create` but for opening and closing the directory. -/
def createIn (dir : Dir) (name : List Byte) (initialSize : Nat) : K Bool := do
  match ← freeMapAllocate 1 with
  | some inodeSector =>
    let success ← makeFile dir name inodeSector initialSize
    if !success && inodeSector ≠ 0 then freeMapRelease inodeSector 1
    return success
  | none => return false

/-- `filesys_create`. -/
def filesysCreate (name : List Byte) (initialSize : Nat) : K Bool := do
  let dir ← dirOpenRoot
  let success ← createIn dir name initialSize
  dirClose dir
  return success

/-- `filesys_open`. -/
def filesysOpen (name : List Byte) : K (Option File) := do
  let dir ← dirOpenRoot
  let inode ← dirLookup dir name
  dirClose dir
  return fileOpen inode

/-- `filesys_remove`. -/
def filesysRemove (name : List Byte) : K Bool := do
  let dir ← dirOpenRoot
  let success ← dirRemove dir name
  dirClose dir
  return success

/-- `free_map_open` and the end of `free_map_create`: `free_map_file` on the inode of the free map.
-/
def openFreeMapFile : K File := do
  let p ← inodeOpen freeMapSector
  let file : File := ⟨p, 0, false⟩
  modify fun fs => { fs with freeMapFile := some file }
  return file

/-- `free_map_create`. -/
def freeMapCreate : K Unit := do
  let fs ← get
  let ok ← inodeCreate freeMapSector (byteCnt fs.freeMap.bitCnt)
  assert (ok = true)
  let file ← openFreeMapFile
  let ok ← bitmapWrite file
  assert (ok = true)

/-- `free_map_open`. -/
def freeMapOpen : K Unit := do
  let file ← openFreeMapFile
  let ok ← bitmapRead file
  assert (ok = true)

/-- `free_map_close`. The pointer `free_map_file` stays. -/
def freeMapClose : K Unit := do
  let fs ← get
  match fs.freeMapFile with
  | none => return ()
  | some file => fileClose file

/-- `do_format`. -/
def doFormat : K Unit := do
  freeMapCreate
  let ok ← dirCreate rootDirSector 16
  assert (ok = true)
  freeMapClose

/-- The state after `inode_init` and `free_map_init`, on any device; `junk` is what `malloc`
returned for the bits past the end of the bitmap. -/
def FileSys.boot (disk : Disk) (junk : Nat → Bool) : FileSys where
  disk := disk
  freeMap := ((Bitmap.create disk.size junk).set freeMapSector true).set rootDirSector true
  freeMapFile := none
  openInodes := []
  nextPtr := 0

/-- `filesys_init`. -/
def filesysInit (format : Bool) (disk : Disk) (junk : Nat → Bool) : Option FileSys :=
  ((do
    if format then doFormat
    freeMapOpen : K Unit) (FileSys.boot disk junk)).map Prod.snd

end SystemProg.Pintos
