import Mathlib.Algebra.Group.Nat.Defs
import SystemProg.Text.CString

/-!
# Partition tables

`partition_scan`, `read_partition_table` and `found_partition` of `partition.c`, over a block device
whose sectors are arbitrary bytes. `read_partition_table` checks the sector it is given and then
reads sector 0 (`block_read (block, 0, pt)`), so that at every depth it parses the master boot
record.

* `walk` — the tables as they are meant to be read: the partitions with the sector of their table.
* `readPartitionTable_congr` — nothing but sector 0 matters to the scan.
* `partition_scan_iff` — it is right on the devices with a given master boot record iff that has no
  extended entry.

The recursion has a depth; a scan that goes on at every depth does not return. `malloc` is taken to
succeed, and the names under which partitions are registered are left out.
-/

namespace SystemProg.Pintos.Partition

open Text List Option

/-! ## Tables -/

/-- `struct partition_table_entry`, but for the fields that nothing reads. -/
structure Entry where
  type : Nat
  offset : Nat
  size : Nat
  deriving DecidableEq

/-- The little-endian number of the `n` bytes at `i`. -/
def numAt (bs : List Byte) (i n : Nat) : Nat :=
  ((bs.drop i).take n).foldr (fun b acc => b.toNat + 256 * acc) 0

/-- The entry in 16 bytes. -/
def Entry.ofBytes (bs : List Byte) : Entry where
  type := numAt bs 4 1
  offset := numAt bs 8 4
  size := numAt bs 12 4

/-- `pt->partitions`. -/
def partitions (sector : List Byte) : List Entry :=
  (List.range 4).map fun i => Entry.ofBytes (sector.drop (446 + 16 * i))

/-- `pt->signature`. -/
def signature (sector : List Byte) : Nat := numAt sector 510 2

/-- An entry that is ignored. -/
def Entry.Empty (e : Entry) : Prop := e.size = 0 ∨ e.type = 0

/-- The types of extended partitions. -/
def Entry.Extended (e : Entry) : Prop := e.type ∈ [0x05, 0x0f, 0x85, 0xc5]

instance (e : Entry) : Decidable e.Empty := inferInstanceAs (Decidable (_ ∨ _))

instance (e : Entry) : Decidable e.Extended := inferInstanceAs (Decidable (_ ∈ _))

/-- A block device: `block_size`, a 32-bit number, and its sectors. -/
structure Device where
  size : Nat
  sector : Nat → List Byte
  size_lt : size < 2 ^ 32

/-- The sum of two `block_sector_t`. -/
def addSector (a b : Nat) : Nat := (a + b) % 2 ^ 32

/-! ## The scan -/

/-- `enum block_type`. -/
inductive BlockType where
  | kernel
  | filesys
  | scratch
  | swap
  | foreign
  deriving DecidableEq

/-- What is registered by `block_register`. -/
structure Registration where
  partNr : Nat
  type : BlockType
  start : Nat
  size : Nat
  deriving DecidableEq

/-- What is printed. -/
inductive Message where
  | noPartitions
  | tablePastEnd (sector : Nat)
  | invalidSignature
  | invalidExtended (sector : Nat)
  | extended (sector : Nat)
  | startsPastEnd (partNr start : Nat)
  | endPastEnd (partNr stop : Nat)
  deriving DecidableEq

/-- `*part_nr`, and what has been registered and printed, the oldest first. -/
structure Scan where
  partNr : Nat
  registered : List Registration
  messages : List Message
  deriving DecidableEq

/-- `printf`. -/
def Scan.say (S : Scan) (m : Message) : Scan := { S with messages := S.messages ++ [m] }

/-- The type of block device for a partition type. -/
def blockType (partType : Nat) : BlockType :=
  if partType = 0x20 then .kernel
  else if partType = 0x21 then .filesys
  else if partType = 0x22 then .scratch
  else if partType = 0x23 then .swap
  else .foreign

/-- `found_partition`. -/
def foundPartition (D : Device) (partType start size : Nat) (S : Scan) : Scan :=
  if D.size ≤ start then S.say (.startsPastEnd S.partNr start)
  else if addSector start size < start ∨ D.size < addSector start size then
    S.say (.endPastEnd S.partNr (addSector start size))
  else { S with registered := S.registered ++ [⟨S.partNr, blockType partType, start, size⟩] }

/-- The body of the loop of `read_partition_table`, with the function itself for tables below. -/
def parseEntry (D : Device) (read : Nat → Nat → Scan → Option Scan)
    (sector primaryExtendedSector : Nat) (S : Scan) (e : Entry) : Option Scan :=
  if e.Empty then some S
  else if e.Extended then
    if sector = 0 then read e.offset e.offset (S.say (.extended sector))
    else
      read (addSector e.offset primaryExtendedSector) primaryExtendedSector
        (S.say (.extended sector))
  else
    some (foundPartition D e.type (addSector e.offset sector) e.size
      { S with partNr := S.partNr + 1 })

/-- `read_partition_table`, at most `depth` tables deep. -/
def readPartitionTable (D : Device) :
    (depth sector primaryExtendedSector : Nat) → Scan → Option Scan
  | 0, _, _, _ => none
  | depth + 1, sector, primaryExtendedSector, S =>
    if D.size ≤ sector then some (S.say (.tablePastEnd sector))
    else
      let pt := D.sector 0
      if signature pt ≠ 0xaa55 then
        if primaryExtendedSector = 0 then some (S.say .invalidSignature)
        else some (S.say (.invalidExtended sector))
      else
        (partitions pt).foldlM
          (parseEntry D (readPartitionTable D depth) sector primaryExtendedSector) S

/-- `partition_scan`. -/
def partitionScan (D : Device) (depth : Nat) : Option Scan :=
  (readPartitionTable D depth 0 0 ⟨0, [], []⟩).map fun S =>
    if S.partNr = 0 then S.say .noPartitions else S

/-! ## What the tables say -/

/-- A partition, with the sector of the table that it is in. -/
abbrev Found : Type := Nat × Entry

/-- What an entry of the table at `sector` adds to what was found. -/
def walkEntry (sub : Nat → Nat → Option (List Found)) (sector primary : Nat) (found : List Found)
    (e : Entry) : Option (List Found) :=
  if e.Empty then some found
  else if e.Extended then
    if sector = 0 then (sub e.offset e.offset).map (found ++ ·)
    else (sub (e.offset + primary) primary).map (found ++ ·)
  else some (found ++ [(sector, e)])

/-- The partitions of the table at `sector` and of the extended tables below it, in the order in
which they are met. Every table must be on the device and have the signature. An extended entry of
the master boot record is relative to the device, any other one to `primary`, the extended partition
that the master boot record points to. -/
def walk (D : Device) : (depth sector primary : Nat) → Option (List Found)
  | 0, _, _ => none
  | depth + 1, sector, primary =>
    if D.size ≤ sector ∨ signature (D.sector sector) ≠ 0xaa55 then none
    else (partitions (D.sector sector)).foldlM (walkEntry (walk D depth) sector primary) []

/-- The tables are well formed and not cyclic, and `found` are their partitions. -/
def WellFormed (D : Device) (found : List Found) : Prop := ∃ depth, walk D depth 0 0 = some found

/-- The registrations for partitions that start at `start`, numbered from `nr + 1` on; those that go
past the end of the device are skipped. -/
def registrations (start : Found → Nat) (size : Nat) : Nat → List Found → List Registration
  | _, [] => []
  | nr, x :: l =>
    if start x + x.2.size ≤ size then
      ⟨nr + 1, blockType x.2.type, start x, x.2.size⟩ :: registrations start size (nr + 1) l
    else registrations start size (nr + 1) l

/-- Where a partition starts. -/
def Found.start (x : Found) : Nat := x.2.offset + x.1

/-- The master boot record. -/
def Device.mbr (D : Device) : List Entry := partitions (D.sector 0)

/-- The master boot record points to no other table. -/
def Device.NoExtended (D : Device) : Prop := ∀ e ∈ D.mbr, e.Empty ∨ ¬ e.Extended

/-- `partition_scan` returns, and has registered the partitions `found`. -/
def Device.Scanned (D : Device) (found : List Found) : Prop :=
  ∃ depth S, partitionScan D depth = some S ∧
    S.registered = registrations Found.start D.size 0 found

/-! ## Loops over entries -/

section Folds

variable {α β γ : Type} {f g : β → α → Option β} {l : List α} {b b' : β}

/-- A loop with an element that never returns does not return. -/
theorem foldlM_eq_none {x : α} (hx : x ∈ l) (hf : ∀ b, f b x = none) : l.foldlM f b = none := by
  induction l generalizing b with
  | nil => cases hx
  | cons y l ih =>
    rw [foldlM_cons]
    obtain rfl | hx := mem_cons.mp hx
    · rw [hf b]
      rfl
    · cases f b y with
      | none => rfl
      | some b' => exact ih hx

theorem foldlM_mono (hfg : ∀ b x b', f b x = some b' → g b x = some b')
    (h : l.foldlM f b = some b') : l.foldlM g b = some b' := by
  induction l generalizing b with
  | nil => exact h
  | cons x l ih =>
    rw [foldlM_cons] at h ⊢
    obtain ⟨b₁, hb₁, h⟩ := bind_eq_some_iff.mp h
    rw [hfg b x b₁ hb₁]
    exact ih h

/-- A loop that appends something for each element. -/
theorem foldlM_flatMap {f : List γ → α → Option (List γ)} {g : α → List γ} {found : List γ}
    (hf : ∀ found, ∀ x ∈ l, f found x = some (found ++ g x)) :
    l.foldlM f found = some (found ++ l.flatMap g) := by
  induction l generalizing found with
  | nil => exact congrArg some (append_nil found).symm
  | cons x l ih =>
    rw [foldlM_cons, hf found x mem_cons_self, flatMap_cons, ← append_assoc]
    exact ih fun found y hy => hf found y (mem_cons_of_mem x hy)

end Folds

section Scanning

variable {D D' : Device} {depth s p : Nat} {S S' : Scan} {e : Entry} {found : List Found}

/-! ## Without extended entries -/

/-- `S'` is `S` after the partitions `l` were found. -/
structure After (D : Device) (l : List Found) (S S' : Scan) : Prop where
  partNr : S'.partNr = S.partNr + l.length
  registered : S'.registered = S.registered ++ registrations Found.start D.size S.partNr l

theorem registrations_append (start : Found → Nat) (size nr : Nat) (l m : List Found) :
    registrations start size nr (l ++ m) =
      registrations start size nr l ++ registrations start size (nr + l.length) m := by
  induction l generalizing nr with
  | nil => rfl
  | cons x l ih =>
    have hlen : nr + (x :: l).length = nr + 1 + l.length := by
      rw [length_cons]
      omega
    rw [cons_append, registrations, registrations, hlen]
    split
    · rw [ih, cons_append]
    · exact ih (nr + 1)

theorem After.refl (S : Scan) : After D [] S S := ⟨rfl, (append_nil _).symm⟩

theorem After.trans {S'' : Scan} {l m : List Found} (h : After D l S S') (h' : After D m S' S'') :
    After D (l ++ m) S S'' where
  partNr := by rw [h'.partNr, h.partNr, length_append, Nat.add_assoc]
  registered := by
    rw [h'.registered, h.registered, h.partNr, registrations_append, append_assoc]

theorem after_foldlM {f : Scan → Entry → Option Scan} {g : Entry → List Found} {l : List Entry}
    (hf : ∀ S, ∀ e ∈ l, ∃ S', f S e = some S' ∧ After D (g e) S S') :
    ∃ S', l.foldlM f S = some S' ∧ After D (l.flatMap g) S S' := by
  induction l generalizing S with
  | nil => exact ⟨S, rfl, After.refl S⟩
  | cons e l ih =>
    obtain ⟨S₁, h₁, hafter⟩ := hf S e mem_cons_self
    obtain ⟨S', h, hrest⟩ := ih (S := S₁) fun S x hx => hf S x (mem_cons_of_mem e hx)
    refine ⟨S', ?_, flatMap_cons ▸ hafter.trans hrest⟩
    rw [foldlM_cons, h₁]
    exact h

theorem numAt_lt (bs : List Byte) (i n : Nat) : numAt bs i n < 256 ^ n := by
  have hfold : ∀ l : List Byte, l.foldr (fun b acc => b.toNat + 256 * acc) 0 < 256 ^ l.length := by
    intro l
    induction l with
    | nil => decide
    | cons b l ih =>
      have hb := b.toNat_lt
      rw [foldr_cons, length_cons, Nat.pow_succ]
      omega
  refine Nat.lt_of_lt_of_le (hfold _) (Nat.pow_le_pow_right (by decide) ?_)
  rw [length_take]
  exact Nat.min_le_left _ _

theorem mem_mbr (he : e ∈ D.mbr) : e.offset < 2 ^ 32 ∧ e.size < 2 ^ 32 := by
  obtain ⟨i, -, rfl⟩ := mem_map.mp he
  exact ⟨numAt_lt _ 8 4, numAt_lt _ 12 4⟩

/-- `found_partition` registers a partition of the master boot record that fits. -/
theorem after_foundPartition (he : e ∈ D.mbr) (hempty : ¬ e.Empty) :
    After D [(0, e)] S (foundPartition D e.type (addSector e.offset 0) e.size
      { S with partNr := S.partNr + 1 }) := by
  obtain ⟨hoffset, hsize⟩ := mem_mbr he
  have hpos : e.size ≠ 0 := fun h => hempty (.inl h)
  have hD := D.size_lt
  have hstart : Found.start (0, e) = e.offset := rfl
  rw [foundPartition, show addSector e.offset 0 = e.offset from Nat.mod_eq_of_lt hoffset]
  refine ⟨?_, ?_⟩
  · split
    · rfl
    · split <;> rfl
  · rw [registrations, registrations, hstart]
    split
    · rw [if_neg (by dsimp only; omega)]
      exact (append_nil _).symm
    · split
      · rename_i h
        rw [addSector] at h
        rw [if_neg (by dsimp only; omega)]
        exact (append_nil _).symm
      · rename_i h
        rw [addSector] at h
        rw [if_pos (by dsimp only; omega)]

theorem readPartitionTable_eq (hs : s < D.size) (hsig : signature (D.sector 0) = 0xaa55) :
    readPartitionTable D (depth + 1) s p S =
      D.mbr.foldlM (parseEntry D (readPartitionTable D depth) s p) S := by
  rw [readPartitionTable, if_neg (Nat.not_le.mpr hs)]
  exact if_neg (not_not.mpr hsig)

/-- An entry of a table at `s` that is no extended one. -/
def Entry.plain (s : Nat) (e : Entry) : List Found := if e.Empty then [] else [(s, e)]

theorem walkEntry_plain {sub : Nat → Nat → Option (List Found)} (he : e.Empty ∨ ¬ e.Extended) :
    walkEntry sub s p found e = some (found ++ e.plain s) := by
  rw [walkEntry, Entry.plain]
  split
  · rw [append_nil]
  · rw [if_neg (he.resolve_left ‹_›)]

/-- A scan that meets no extended entry registers what it should. -/
theorem scanned_of_noExtended (h : WellFormed D found) (hD : D.NoExtended) : D.Scanned found := by
  obtain ⟨depth, hwalk⟩ := h
  cases depth with
  | zero => cases hwalk
  | succ depth =>
    rw [walk] at hwalk
    split at hwalk
    · cases hwalk
    · rename_i hok
      obtain ⟨hsize, hsig⟩ := not_or.mp hok
      have hfound : found = D.mbr.flatMap (Entry.plain 0) := some.inj
        (hwalk.symm.trans (foldlM_flatMap fun _ e he => walkEntry_plain (hD e he)))
      obtain ⟨S, hS, hafter⟩ := after_foldlM (D := D) (S := ⟨0, [], []⟩) (l := D.mbr)
        (f := parseEntry D (readPartitionTable D 0) 0 0) (g := Entry.plain 0) fun S e he => by
          rw [parseEntry, Entry.plain]
          split
          · exact ⟨S, rfl, After.refl S⟩
          · rw [if_neg ((hD e he).resolve_left ‹_›)]
            exact ⟨_, rfl, after_foundPartition he ‹_›⟩
      have hread : readPartitionTable D 1 0 0 ⟨0, [], []⟩ = some S :=
        (readPartitionTable_eq (Nat.not_le.mp hsize) (not_not.mp hsig)).trans hS
      refine ⟨1, _, congrArg (Option.map _) hread, ?_⟩
      rw [apply_ite Scan.registered, hfound]
      exact (ite_self _).trans hafter.registered

/-! ## With extended entries -/

/-- **Nothing but the master boot record matters** to the scan, and the size of the device. -/
theorem readPartitionTable_congr (hsize : D'.size = D.size) (h0 : D'.sector 0 = D.sector 0) :
    readPartitionTable D' depth s p S = readPartitionTable D depth s p S := by
  induction depth generalizing s p S with
  | zero => rfl
  | succ depth ih =>
    have hentry : parseEntry D' (readPartitionTable D' depth) s p =
        parseEntry D (readPartitionTable D depth) s p := by
      funext S e
      simp only [parseEntry, ih, foundPartition, hsize]
    rw [readPartitionTable, readPartitionTable, hsize, h0, hentry]

/-- A scan that returns does so at every greater depth. -/
theorem readPartitionTable_succ (h : readPartitionTable D depth s p S = some S') :
    readPartitionTable D (depth + 1) s p S = some S' := by
  induction depth generalizing s p S S' with
  | zero => cases h
  | succ depth ih =>
    rw [readPartitionTable] at h ⊢
    split at h
    · rwa [if_pos ‹_›]
    · rw [if_neg ‹_›]
      dsimp only at h ⊢
      split at h
      · rwa [if_pos ‹_›]
      · rw [if_neg ‹_›]
        refine foldlM_mono (fun S e S' hS => ?_) h
        rw [parseEntry] at hS ⊢
        split at hS
        · rwa [if_pos ‹_›]
        · rw [if_neg ‹_›]
          split at hS
          · rw [if_pos ‹_›]
            split at hS
            · rw [if_pos ‹_›]
              exact ih hS
            · rw [if_neg ‹_›]
              exact ih hS
          · rwa [if_neg ‹_›]

theorem readPartitionTable_unique {depth' : Nat} {S₁ S₂ : Scan}
    (h₁ : readPartitionTable D depth s p S = some S₁)
    (h₂ : readPartitionTable D depth' s p S = some S₂) : S₁ = S₂ := by
  have hle : ∀ {d d' T}, d ≤ d' → readPartitionTable D d s p S = some T →
      readPartitionTable D d' s p S = some T := fun hd h => by
    induction hd with
    | refl => exact h
    | step _ ih => exact readPartitionTable_succ ih
  exact some.inj ((hle (Nat.le_max_left depth depth') h₁).symm.trans
    (hle (Nat.le_max_right depth depth') h₂))

/-- What is well formed of the master boot record. -/
structure MbrOk (D : Device) : Prop where
  size : 0 < D.size
  sig : signature (D.sector 0) = 0xaa55
  extended : ∀ e ∈ D.mbr, ¬ e.Empty → e.Extended → 0 < e.offset ∧ e.offset < D.size

theorem walk_eq_none (he : e ∈ D.mbr) (hempty : ¬ e.Empty) (hext : e.Extended)
    (hnone : walk D depth e.offset e.offset = none) : walk D (depth + 1) 0 p = none := by
  rw [walk]
  split
  · rfl
  · refine foldlM_eq_none he fun found => ?_
    rw [walkEntry, if_neg hempty, if_pos hext, if_pos rfl, hnone]
    rfl

theorem WellFormed.mbrOk (h : WellFormed D found) : MbrOk D := by
  obtain ⟨depth, hwalk⟩ := h
  cases depth with
  | zero => cases hwalk
  | succ depth =>
    have hok : ¬ (D.size ≤ 0 ∨ signature (D.sector 0) ≠ 0xaa55) := fun hbad => by
      rw [walk, if_pos hbad] at hwalk
      cases hwalk
    obtain ⟨hsize, hsig⟩ := not_or.mp hok
    refine ⟨Nat.not_le.mp hsize, not_not.mp hsig, fun e he hempty hext => ?_⟩
    have hsome : ¬ ∀ depth, walk D depth e.offset e.offset = none := fun hnone => by
      rw [walk_eq_none he hempty hext (hnone depth)] at hwalk
      cases hwalk
    refine ⟨Nat.pos_of_ne_zero fun hz => hsome fun depth => ?_,
      Nat.lt_of_not_le fun hle => hsome fun depth => ?_⟩
    · -- a table that is its own extended table is never read to the end
      rw [hz]
      induction depth with
      | zero => rfl
      | succ depth ih => exact walk_eq_none he hempty hext (by rw [hz]; exact ih)
    · cases depth with
      | zero => rfl
      | succ depth => exact if_pos (.inl hle)

/-- The device with another table in place of every extended one. -/
def Device.filled (D : Device) (table : List Byte) : Device :=
  { D with sector := fun s => if s = 0 then D.sector 0 else table }

/-- What is found for an entry of its master boot record. -/
def Entry.leads (table : List Byte) (e : Entry) : List Found :=
  if ¬ e.Empty ∧ e.Extended then (partitions table).flatMap (Entry.plain e.offset) else e.plain 0

/-- A device is still well formed with other tables that are. -/
theorem wellFormed_filled (hD : MbrOk D) {table : List Byte} (hsig : signature table = 0xaa55)
    (htable : ∀ e ∈ partitions table, e.Empty ∨ ¬ e.Extended) :
    WellFormed (D.filled table) (D.mbr.flatMap (Entry.leads table)) := by
  refine ⟨2, ?_⟩
  refine (if_neg (not_or.mpr ⟨Nat.not_le.mpr hD.size, not_not.mpr hD.sig⟩)).trans
    (foldlM_flatMap fun found e he => ?_)
  rw [Entry.leads]
  by_cases hx : ¬ e.Empty ∧ e.Extended
  · obtain ⟨hpos, hlt⟩ := hD.extended e he hx.1 hx.2
    have hsector : (D.filled table).sector e.offset = table := if_neg (Nat.ne_of_gt hpos)
    have hwalk : walk (D.filled table) 1 e.offset e.offset =
        some ((partitions table).flatMap (Entry.plain e.offset)) := by
      rw [walk, hsector]
      refine (if_neg (not_or.mpr ⟨Nat.not_le.mpr hlt, not_not.mpr hsig⟩)).trans ?_
      exact foldlM_flatMap fun _ e he => walkEntry_plain (htable e he)
    rw [if_pos hx, walkEntry, if_neg hx.1, if_pos hx.2, if_pos rfl, hwalk]
    rfl
  · rw [if_neg hx]
    exact walkEntry_plain (by tauto)

theorem length_registrations (start : Found → Nat) (size nr : Nat) (l : List Found) :
    (registrations start size nr l).length = l.countP fun x => start x + x.2.size ≤ size := by
  induction l generalizing nr with
  | nil => rfl
  | cons x l ih =>
    rw [registrations, countP_cons]
    split
    · rw [length_cons, ih, if_pos (decide_eq_true ‹_›)]
    · rw [ih, if_neg (by rwa [decide_eq_true_eq]), Nat.add_zero]

end Scanning

/-- A partition table with the given entries, each as its type, its offset and its size. -/
def tableSector (entries : List (Byte × Byte × Byte)) : List Byte :=
  List.replicate 446 0 ++
    entries.flatMap (fun e => [0, 0, 0, 0, e.1, 0, 0, 0, e.2.1, 0, 0, 0, e.2.2, 0, 0, 0]) ++
    List.replicate (16 * (4 - entries.length)) 0 ++ [0x55, 0xaa]

/-- A table with one partition of one sector, and one with none. -/
def someTable : List Byte := tableSector [(0x20, 0, 1)]

@[inherit_doc someTable]
def noTable : List Byte := tableSector []

theorem plain_someTable (s : Nat) :
    (partitions someTable).flatMap (Entry.plain s) = [(s, ⟨0x20, 0, 1⟩)] := by
  rw [show partitions someTable = [⟨0x20, 0, 1⟩, ⟨0, 0, 0⟩, ⟨0, 0, 0⟩, ⟨0, 0, 0⟩] by decide +kernel]
  rfl

theorem plain_noTable (s : Nat) : (partitions noTable).flatMap (Entry.plain s) = [] := by
  rw [show partitions noTable = List.replicate 4 ⟨0, 0, 0⟩ by decide +kernel]
  rfl

/-- Every extended entry leads to one more partition that fits, or to none. -/
theorem countP_found {D : Device} {l : List Entry}
    (hl : ∀ e ∈ l, ¬ e.Empty → e.Extended → e.offset < D.size) :
    (l.flatMap (Entry.leads someTable)).countP (fun x => x.start + x.2.size ≤ D.size) =
      (l.flatMap (Entry.leads noTable)).countP (fun x => x.start + x.2.size ≤ D.size) +
        l.countP fun e => ¬ e.Empty ∧ e.Extended := by
  induction l with
  | nil => rfl
  | cons e l ih =>
    have hrest := ih fun x hx => hl x (mem_cons_of_mem e hx)
    rw [flatMap_cons, flatMap_cons, countP_append, countP_append,
      countP_cons, hrest, Entry.leads, Entry.leads, plain_someTable, plain_noTable]
    by_cases hx : ¬ e.Empty ∧ e.Extended
    · have hfits : e.offset + 1 ≤ D.size := hl e mem_cons_self hx.1 hx.2
      simp only [if_pos hx, countP_singleton, countP_nil, decide_eq_true hx, if_true,
        Found.start, Nat.zero_add, decide_eq_true hfits]
      omega
    · simp only [if_neg hx, decide_eq_false hx, Bool.false_eq_true, if_false]
      omega

/-- **Partition discovery**: on a device whose master boot record has no extended entry the scan
ends and registers the partitions of the tables; and that is the exact condition on a well-formed
master boot record, since the scan does not read the extended tables of a device. -/
theorem partition_scan_iff {D : Device} {found : List Found} (h : WellFormed D found) :
    (∀ D' found', D'.size = D.size → D'.sector 0 = D.sector 0 → WellFormed D' found' →
      D'.Scanned found') ↔ D.NoExtended := by
  constructor
  · intro hall
    have hD := h.mbrOk
    obtain ⟨d₁, S₁, h₁, hreg₁⟩ := hall (D.filled someTable) _ rfl rfl
      (wellFormed_filled hD (by decide +kernel) (by decide +kernel))
    obtain ⟨d₂, S₂, h₂, hreg₂⟩ := hall (D.filled noTable) _ rfl rfl
      (wellFormed_filled hD (by decide +kernel) (by decide +kernel))
    obtain ⟨T₁, hT₁, rfl⟩ := map_eq_some_iff.mp h₁
    obtain ⟨T₂, hT₂, rfl⟩ := map_eq_some_iff.mp h₂
    have hsame (table) {d S T} (hT : readPartitionTable (D.filled table) d 0 0 S = some T) :
        readPartitionTable D d 0 0 S = some T :=
      hT ▸ readPartitionTable_congr (D := D.filled table) rfl rfl
    obtain rfl := readPartitionTable_unique (hsame _ hT₁) (hsame _ hT₂)
    -- the same scan, but one device has a partition more for each extended entry
    have hlen := congrArg List.length (hreg₁.symm.trans hreg₂)
    rw [length_registrations, length_registrations] at hlen
    change List.countP (fun x => decide (Found.start x + x.2.size ≤ D.size)) _ =
      List.countP (fun x => decide (Found.start x + x.2.size ≤ D.size)) _ at hlen
    rw [countP_found fun e he hempty hext => (hD.extended e he hempty hext).2] at hlen
    have hnone := countP_eq_zero.mp (Nat.add_eq_left.mp hlen)
    intro e he
    have := hnone e he
    simp only [decide_eq_true_eq] at this
    tauto
  · intro hno D' found' hsize h0 hwf
    refine scanned_of_noExtended hwf fun e he => hno e ?_
    rwa [Device.mbr, h0] at he

/-- A device of 100 sectors with two file systems, the second of which does not fit, and a swap
partition. -/
def primaryOnly : Device where
  size := 100
  sector _ := tableSector [(0x21, 1, 10), (0x21, 90, 20), (0x23, 20, 30)]
  size_lt := by decide

/-- Without extended entries the scan is right. -/
theorem partition_scan_primary :
    ∃ depth S, partitionScan primaryOnly depth = some S ∧
    S.registered = [⟨1, .filesys, 1, 10⟩, ⟨3, .swap, 20, 30⟩] := by
  have hwf : WellFormed primaryOnly
      [(0, ⟨0x21, 1, 10⟩), (0, ⟨0x21, 90, 20⟩), (0, ⟨0x23, 20, 30⟩)] :=
    ⟨1, by decide +kernel⟩
  exact (partition_scan_iff hwf).mpr (by unfold Device.NoExtended; decide +kernel) _ _ rfl rfl hwf

/-- A device of 100 sectors with an extended partition from sector 10 on, and a file system in it.
-/
def withExtended : Device where
  size := 100
  sector s := if s = 10 then tableSector [(0x21, 1, 10)] else tableSector [(0x05, 10, 20)]
  size_lt := by decide

/-- It is well formed, and the scan of it does not return: from the table in sector 10, and from
then on in sector 20, it reads the master boot record, and the entry there leads to sector 20. -/
theorem partition_scan_forever : WellFormed withExtended [(10, ⟨0x21, 1, 10⟩)] ∧
    ∀ depth, partitionScan withExtended depth = none := by
  have hmem : (⟨0x05, 10, 20⟩ : Entry) ∈ withExtended.mbr := by decide +kernel
  have hsig : signature (withExtended.sector 0) = 0xaa55 := by decide +kernel
  have hbelow : ∀ depth s S, s = 10 ∨ s = 20 →
      readPartitionTable withExtended depth s 10 S = none := by
    intro depth
    induction depth with
    | zero => exact fun _ _ _ => rfl
    | succ depth ih =>
      rintro s S hs
      rw [readPartitionTable_eq (show s < 100 by omega) hsig]
      refine foldlM_eq_none hmem fun S => ?_
      rw [parseEntry, if_neg (by decide), if_pos (by decide), if_neg (by omega)]
      exact ih _ _ (.inr rfl)
  refine ⟨⟨2, by decide +kernel⟩, fun depth => map_eq_none_iff.mpr ?_⟩
  cases depth with
  | zero => rfl
  | succ depth =>
    rw [readPartitionTable_eq (show 0 < 100 by decide) hsig]
    refine foldlM_eq_none hmem fun S => ?_
    rw [parseEntry, if_neg (by decide), if_pos (by decide), if_pos rfl]
    exact hbelow depth 10 _ (.inl rfl)

end SystemProg.Pintos.Partition
