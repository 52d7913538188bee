import Mathlib.Algebra.Group.Nat.Defs
import Mathlib.Data.List.Nodup
import Mathlib.Data.List.Perm.Basic
import Mathlib.Logic.Function.Iterate

/-!
# The hash table

`hash.c`: an array of lists, whose number is a power of two, with rehashing after each change. The
elements are of any type, with a hash function and a comparison that belong together (`Keys`).

* `HashTable.Holds K T S` — the elements of the table `T` are those of the set `S`, each in its
  bucket.
* `lookup` — what the history of the calls says of the class of an element.
* `hash_table_is_set` — after any calls, with any allocations failing, the table is the set that its
  history says, and an iteration visits every element once.

The lists are the lists of their elements; a pointer to an element is the element.
-/

namespace SystemProg.Pintos.Hash

open List Option
open Function (iterate_one iterate_succ_apply update update_eq_self update_of_ne update_self)

/-! ## The functions -/

/-- `hash` and `less`: a strict weak order, and elements that are equal under it have the same
hash. -/
structure Keys (α : Type) where
  hash : α → Nat
  less : α → α → Bool
  irrefl : ∀ a, less a a = false
  trans : ∀ a b c, less a b = true → less b c = true → less a c = true
  incomp : ∀ a b c, less a b = false → less b a = false → less b c = false → less c b = false →
    less a c = false ∧ less c a = false
  hash_eq : ∀ a b, less a b = false → less b a = false → hash a = hash b

/-- `struct hash`. -/
structure HashTable (α : Type) where
  elemCnt : Nat
  bucketCnt : Nat
  buckets : Nat → List α

section Functions

variable {α : Type} (K : Keys α)

/-- Neither is less than the other. -/
def Keys.equal (a b : α) : Bool := !K.less a b && !K.less b a

/-- `find_bucket`. -/
def findBucket (T : HashTable α) (e : α) : Nat := K.hash e &&& (T.bucketCnt - 1)

/-- `find_elem`. -/
def findElem (T : HashTable α) (bucket : Nat) (e : α) : Option α :=
  (T.buckets bucket).find? fun hi => K.equal hi e

/-- `turn_off_least_1bit`. -/
def turnOffLeast1bit (x : Nat) : Nat := x &&& (x - 1)

/-- `is_power_of_2`. -/
def isPowerOf2 (x : Nat) : Bool := x ≠ 0 && turnOffLeast1bit x = 0

/-- The loop of `rehash` that rounds down to a power of two, at most `rounds` times. -/
def roundToPowerOf2 : (rounds x : Nat) → Nat
  | 0, x => x
  | rounds + 1, x =>
    if isPowerOf2 x then x else roundToPowerOf2 rounds (turnOffLeast1bit x)

/-- The number of buckets that `rehash` wants. -/
def newBucketCnt (elemCnt : Nat) : Nat :=
  let cnt := if elemCnt / 2 < 4 then 4 else elemCnt / 2
  roundToPowerOf2 cnt cnt

/-- The elements, bucket by bucket. -/
def HashTable.elements (T : HashTable α) : List α := (List.range T.bucketCnt).flatMap T.buckets

/-- `list_push_front` onto the bucket that the element belongs in. -/
def pushFront (T : HashTable α) (e : α) : HashTable α :=
  let bucket := findBucket K T e
  { T with buckets := update T.buckets bucket (e :: T.buckets bucket) }

/-- `rehash`; `ok` says whether `malloc` returns the new buckets. -/
def rehash (ok : Bool) (T : HashTable α) : HashTable α :=
  let newCnt := newBucketCnt T.elemCnt
  if newCnt = T.bucketCnt then T
  else if ok = false then T
  else T.elements.foldl (pushFront K) { T with bucketCnt := newCnt, buckets := fun _ => [] }

/-- `insert_elem`, into the bucket that `find_bucket` returned. -/
def insertElem (T : HashTable α) (e : α) : HashTable α :=
  { pushFront K T e with elemCnt := T.elemCnt + 1 }

/-- `remove_elem`: `list_remove` takes the element out of the list that it is in. -/
def removeElem [DecidableEq α] (T : HashTable α) (e : α) : HashTable α :=
  { T with elemCnt := T.elemCnt - 1, buckets := fun i => (T.buckets i).erase e }

/-- `hash_clear`, with the elements that the destructor is called for. -/
def hashClear (destructor : Bool) (T : HashTable α) : HashTable α × List α :=
  ({ T with elemCnt := 0, buckets := fun _ => [] }, if destructor then T.elements else [])

/-- `hash_init`, when `malloc` returns the buckets. -/
def hashInit : HashTable α := ⟨0, 4, fun _ => []⟩

/-- `hash_insert`. -/
def hashInsert (ok : Bool) (T : HashTable α) (new : α) : HashTable α × Option α :=
  match findElem K T (findBucket K T new) new with
  | some old => (rehash K ok T, some old)
  | none => (rehash K ok (insertElem K T new), none)

/-- `hash_replace`. -/
def hashReplace [DecidableEq α] (ok : Bool) (T : HashTable α) (new : α) : HashTable α × Option α :=
  match findElem K T (findBucket K T new) new with
  | some old => (rehash K ok (insertElem K (removeElem T old) new), some old)
  | none => (rehash K ok (insertElem K T new), none)

/-- `hash_find`. -/
def hashFind (T : HashTable α) (e : α) : Option α := findElem K T (findBucket K T e) e

/-- `hash_delete`. -/
def hashDelete [DecidableEq α] (ok : Bool) (T : HashTable α) (e : α) : HashTable α × Option α :=
  match findElem K T (findBucket K T e) e with
  | some found => (rehash K ok (removeElem T found), some found)
  | none => (T, none)

end Functions

/-! ### Iterators -/

/-- `struct hash_iterator`: a bucket, and a node of its list: 0 is the head, `i + 1` the element at
`i`, and the tail comes after the last element; `none` is the null pointer. -/
structure Iterator where
  bucket : Nat
  elem : Option Nat

section Iterators

variable {α : Type}

/-- `hash_first`. -/
def hashFirst : Iterator := ⟨0, some 0⟩

/-- The loop of `hash_next`, at most `rounds` times. -/
def skipEmpty (T : HashTable α) : (rounds bucket node : Nat) → Iterator
  | 0, bucket, node => ⟨bucket, some node⟩
  | rounds + 1, bucket, node =>
    if node = (T.buckets bucket).length + 1 then
      if T.bucketCnt ≤ bucket + 1 then ⟨bucket + 1, none⟩ else skipEmpty T rounds (bucket + 1) 1
    else ⟨bucket, some node⟩

/-- `hash_next`; it is not to be called at the end. -/
def hashNext (T : HashTable α) (i : Iterator) : Iterator :=
  match i.elem with
  | some node => skipEmpty T T.bucketCnt i.bucket (node + 1)
  | none => i

/-- `hash_cur`. -/
def hashCur (T : HashTable α) (i : Iterator) : Option α :=
  i.elem.bind fun node => (T.buckets i.bucket)[node - 1]?

end Iterators

/-! ### Calls -/

/-- A call; `ok` says whether the allocation of `rehash` succeeds. -/
inductive HashOp (α : Type) where
  | insert (e : α) (ok : Bool)
  | replace (e : α) (ok : Bool)
  | delete (e : α) (ok : Bool)
  | find (e : α)
  | clear (destructor : Bool)

section Calls

variable {α : Type} (K : Keys α)

/-- The table after a call, and what the call returns. -/
def exec [DecidableEq α] (T : HashTable α) : HashOp α → HashTable α × Option α
  | .insert e ok => hashInsert K ok T e
  | .replace e ok => hashReplace K ok T e
  | .delete e ok => hashDelete K ok T e
  | .find e => (T, hashFind K T e)
  | .clear destructor => ((hashClear destructor T).1, none)

/-- The table after the calls, the newest of which is first. -/
def run [DecidableEq α] : List (HashOp α) → HashTable α
  | [] => hashInit
  | op :: hist => (exec K (run hist) op).1

/-- The element of the class of `e` that was inserted and not removed since, if there is one. -/
def lookup : List (HashOp α) → α → Option α
  | [], _ => none
  | .insert x _ :: hist, e => if K.equal x e then (lookup hist e).or (some x) else lookup hist e
  | .replace x _ :: hist, e => if K.equal x e then some x else lookup hist e
  | .delete x _ :: hist, e => if K.equal x e then none else lookup hist e
  | .find _ :: hist, e => lookup hist e
  | .clear _ :: _, _ => none

/-- What a call should return after the calls `hist`. -/
def result (hist : List (HashOp α)) : HashOp α → Option α
  | .insert e _ => lookup K hist e
  | .replace e _ => lookup K hist e
  | .delete e _ => lookup K hist e
  | .find e => lookup K hist e
  | .clear _ => none

variable (x e : α) (ok : Bool) (hist : List (HashOp α))

theorem lookup_insert : lookup K (.insert x ok :: hist) e =
    if K.equal x e then (lookup K hist e).or (some x) else lookup K hist e := rfl

theorem lookup_replace : lookup K (.replace x ok :: hist) e =
    if K.equal x e then some x else lookup K hist e := rfl

theorem lookup_delete : lookup K (.delete x ok :: hist) e =
    if K.equal x e then none else lookup K hist e := rfl

end Calls

/-! ## Buckets -/

section Buckets

variable {α : Type} {B : Nat → List α} {n b : Nat} {l m : List α}

/-- The lists of an array, one of which is set apart. -/
theorem flatMap_update_perm (B : Nat → List α) (l : List α) (hb : b < n) :
    ((List.range n).flatMap (update B b l)).Perm
      (l ++ (List.range n).flatMap (update B b [])) := by
  induction n with
  | zero => cases hb
  | succ n ih =>
    rw [range_succ, flatMap_append, flatMap_append, flatMap_singleton, flatMap_singleton]
    by_cases hbn : b = n
    · -- the list is the last one, and the others do not change
      subst hbn
      have hrest : (List.range b).flatMap (update B b l) =
          (List.range b).flatMap (update B b []) := by
        refine flatMap_congr fun i hi => ?_
        have hne : i ≠ b := Nat.ne_of_lt (mem_range.mp hi)
        rw [update_of_ne hne, update_of_ne hne]
      rw [hrest, update_self, update_self, append_nil]
      exact perm_append_comm
    · rw [update_of_ne (Ne.symm hbn), update_of_ne (Ne.symm hbn), ← append_assoc]
      exact (ih (by omega)).append_right _

theorem flatMap_update_cons (B : Nat → List α) (e : α) (hb : b < n) :
    ((List.range n).flatMap (update B b (e :: B b))).Perm
      (e :: (List.range n).flatMap B) := by
  have hB := flatMap_update_perm B (B b) hb
  rw [update_eq_self] at hB
  exact (flatMap_update_perm B (e :: B b) hb).trans (hB.symm.cons e)

end Buckets

/-! ## The table and the set -/

section Table

variable {α : Type} {K : Keys α} {T : HashTable α} {S : α → Prop} {a b c e x : α}

/-- The elements of `T` are those of `S`, each in its bucket. -/
structure HashTable.Holds (K : Keys α) (T : HashTable α) (S : α → Prop) : Prop where
  pow : ∃ k, T.bucketCnt = 2 ^ k
  bucket : ∀ i, i < T.bucketCnt → ∀ x ∈ T.buckets i, findBucket K T x = i
  nodup : T.elements.Nodup
  mem : ∀ x, x ∈ T.elements ↔ S x
  cnt : T.elemCnt = T.elements.length

theorem findBucket_lt (h : ∃ k, T.bucketCnt = 2 ^ k) (x : α) : findBucket K T x < T.bucketCnt := by
  obtain ⟨k, hk⟩ := h
  have hpos : 0 < 2 ^ k := Nat.two_pow_pos k
  rw [findBucket, hk]
  have := Nat.and_le_right (n := K.hash x) (m := 2 ^ k - 1)
  omega

theorem HashTable.mem_elements : x ∈ T.elements ↔ ∃ i, i < T.bucketCnt ∧ x ∈ T.buckets i := by
  rw [HashTable.elements, mem_flatMap]
  simp only [mem_range]

theorem elements_eq_nil (h : T.buckets = fun _ => []) : T.elements = [] := by
  rw [HashTable.elements, h]
  simp

namespace HashTable.Holds

/-- An element is in the bucket that it belongs in. -/
theorem mem_bucket (h : T.Holds K S) : x ∈ T.buckets (findBucket K T x) ↔ S x := by
  rw [← h.mem, HashTable.mem_elements]
  constructor
  · intro hx
    exact ⟨_, findBucket_lt h.pow x, hx⟩
  · rintro ⟨i, hi, hx⟩
    rw [h.bucket i hi x hx]
    exact hx

theorem congr {S' : α → Prop} (h : T.Holds K S) (hS : ∀ x, S x ↔ S' x) : T.Holds K S' :=
  ⟨h.pow, h.bucket, h.nodup, fun x => (h.mem x).trans (hS x), h.cnt⟩

end HashTable.Holds

theorem pushFront_perm (h : ∃ k, T.bucketCnt = 2 ^ k) (e : α) :
    (pushFront K T e).elements.Perm (e :: T.elements) :=
  flatMap_update_cons T.buckets e (findBucket_lt h e)

theorem pushFront_bucket (h : ∀ i, i < T.bucketCnt → ∀ x ∈ T.buckets i, findBucket K T x = i) :
    ∀ i, i < T.bucketCnt → ∀ x ∈ (pushFront K T e).buckets i, findBucket K T x = i := by
  intro i hi x hx
  rw [pushFront] at hx
  dsimp only at hx
  by_cases hib : i = findBucket K T e
  · subst hib
    rw [update_self] at hx
    obtain rfl | hx := mem_cons.mp hx
    · rfl
    · exact h _ hi x hx
  · rw [update_of_ne hib] at hx
    exact h i hi x hx

theorem HashTable.Holds.insertElem (h : T.Holds K S) (he : ¬ S e) :
    (insertElem K T e).Holds K fun x => x = e ∨ S x := by
  have hperm : (Hash.insertElem K T e).elements.Perm (e :: T.elements) := pushFront_perm h.pow e
  refine ⟨h.pow, pushFront_bucket h.bucket, ?_, fun x => ?_, ?_⟩
  · rw [hperm.nodup_iff, nodup_cons, h.mem]
    exact ⟨he, h.nodup⟩
  · rw [hperm.mem_iff, mem_cons, h.mem]
  · rw [hperm.length_eq, length_cons, ← h.cnt]
    rfl

theorem removeElem_perm [DecidableEq α] (h : T.Holds K S) (he : S e) :
    (e :: (removeElem T e).elements).Perm T.elements := by
  have hb := findBucket_lt (K := K) h.pow e
  have hmem := h.mem_bucket.mpr he
  -- no other bucket has the element
  have hbuckets : (removeElem T e).elements = (List.range T.bucketCnt).flatMap
      (update T.buckets (findBucket K T e) ((T.buckets (findBucket K T e)).erase e)) := by
    refine flatMap_congr fun i hi => ?_
    by_cases hib : i = findBucket K T e
    · subst hib
      rw [update_self]
      rfl
    · rw [update_of_ne hib]
      refine erase_of_not_mem fun hx => hib ?_
      exact (h.bucket i (mem_range.mp hi) e hx).symm
  have hall := flatMap_update_perm T.buckets (T.buckets (findBucket K T e)) hb
  rw [update_eq_self] at hall
  rw [hbuckets]
  refine ((flatMap_update_perm T.buckets _ hb).cons e).trans (List.Perm.trans ?_ hall.symm)
  exact (perm_cons_erase hmem).symm.append_right _

theorem HashTable.Holds.removeElem [DecidableEq α] (h : T.Holds K S) (he : S e) :
    (removeElem T e).Holds K fun x => x ≠ e ∧ S x := by
  have hperm := removeElem_perm h he
  have hnodup := nodup_cons.mp (hperm.nodup_iff.mpr h.nodup)
  refine ⟨h.pow, fun i hi x hx => h.bucket i hi x (mem_of_mem_erase hx), hnodup.2,
    fun x => ?_, ?_⟩
  · rw [← h.mem, ← hperm.mem_iff, mem_cons]
    constructor
    · intro hx
      exact ⟨fun hxe => hnodup.1 (hxe ▸ hx), .inr hx⟩
    · rintro ⟨hne, rfl | hx⟩
      · exact absurd rfl hne
      · exact hx
  · have hlen := hperm.length_eq
    rw [length_cons, ← h.cnt] at hlen
    show T.elemCnt - 1 = _
    omega

/-! ### Rehashing -/

theorem isPowerOf2_iff {n : Nat} : isPowerOf2 n = true ↔ ∃ k, n = 2 ^ k := by
  rw [isPowerOf2, Bool.and_eq_true, decide_eq_true_eq, decide_eq_true_eq]
  exact Nat.ne_zero_and_sub_one_eq_zero_iff_isPowerOfTwo

theorem roundToPowerOf2_pow {rounds n : Nat} (hn : n ≠ 0) (hle : n ≤ rounds) :
    ∃ k, roundToPowerOf2 rounds n = 2 ^ k := by
  induction rounds generalizing n with
  | zero => omega
  | succ rounds ih =>
    rw [roundToPowerOf2]
    by_cases hpow : isPowerOf2 n = true
    · rw [if_pos hpow]
      exact isPowerOf2_iff.mp hpow
    · rw [if_neg hpow]
      have hlt := Nat.and_le_right (n := n) (m := n - 1)
      refine ih (fun hz => hpow ?_) (by rw [turnOffLeast1bit]; omega)
      rw [isPowerOf2, Bool.and_eq_true, decide_eq_true_eq, decide_eq_true_eq]
      exact ⟨hn, hz⟩

theorem newBucketCnt_pow (elemCnt : Nat) : ∃ k, newBucketCnt elemCnt = 2 ^ k := by
  refine roundToPowerOf2_pow ?_ (Nat.le_refl _)
  split
  · decide
  · omega

/-- What moving the elements `l` into the buckets does. -/
theorem foldl_pushFront {l : List α} (hpow : ∃ k, T.bucketCnt = 2 ^ k)
    (hbucket : ∀ i, i < T.bucketCnt → ∀ x ∈ T.buckets i, findBucket K T x = i) :
    (l.foldl (pushFront K) T).bucketCnt = T.bucketCnt ∧
      (l.foldl (pushFront K) T).elemCnt = T.elemCnt ∧
      (∀ i, i < T.bucketCnt → ∀ x ∈ (l.foldl (pushFront K) T).buckets i, findBucket K T x = i) ∧
      (l.foldl (pushFront K) T).elements.Perm (l ++ T.elements) := by
  induction l generalizing T with
  | nil => exact ⟨rfl, rfl, hbucket, .refl _⟩
  | cons e l ih =>
    obtain ⟨hcnt, helem, hb, hperm⟩ := ih (T := pushFront K T e) hpow (pushFront_bucket hbucket)
    refine ⟨hcnt, helem, hb, ?_⟩
    have hfirst := (pushFront_perm (K := K) hpow e).append_left l
    exact hperm.trans (hfirst.trans perm_middle)

/-- `rehash` moves the elements and changes nothing else. -/
theorem HashTable.Holds.rehash (h : T.Holds K S) (ok : Bool) : (rehash K ok T).Holds K S := by
  rw [Hash.rehash]
  split
  · exact h
  split
  · exact h
  have hempty : ({ T with bucketCnt := newBucketCnt T.elemCnt, buckets := fun _ => [] } :
      HashTable α).elements = [] := elements_eq_nil rfl
  obtain ⟨hcnt, helem, hb, hperm⟩ := foldl_pushFront (K := K) (l := T.elements)
    (T := { T with bucketCnt := newBucketCnt T.elemCnt, buckets := fun _ => [] })
    (newBucketCnt_pow T.elemCnt) fun i _ x hx => by cases hx
  rw [hempty, append_nil] at hperm
  generalize T.elements.foldl (pushFront K) _ = T' at *
  refine ⟨hcnt ▸ newBucketCnt_pow _, fun i hi x hx => ?_, hperm.nodup_iff.mpr h.nodup,
    fun x => (hperm.mem_iff).trans (h.mem x), ?_⟩
  · rw [hcnt] at hi
    have := hb i hi x hx
    rwa [findBucket, hcnt]
  · rw [helem, hperm.length_eq]
    exact h.cnt

/-! ### Classes -/

theorem Keys.equal_iff : K.equal a b = true ↔ K.less a b = false ∧ K.less b a = false := by
  rw [Keys.equal, Bool.and_eq_true, Bool.not_eq_true', Bool.not_eq_true']

theorem Keys.equal_refl (a : α) : K.equal a a = true := Keys.equal_iff.mpr ⟨K.irrefl a, K.irrefl a⟩

theorem Keys.equal_symm (h : K.equal a b = true) : K.equal b a = true :=
  Keys.equal_iff.mpr (Keys.equal_iff.mp h).symm

theorem Keys.equal_trans (hab : K.equal a b = true) (hbc : K.equal b c = true) :
    K.equal a c = true := by
  obtain ⟨h1, h2⟩ := Keys.equal_iff.mp hab
  obtain ⟨h3, h4⟩ := Keys.equal_iff.mp hbc
  exact Keys.equal_iff.mpr (K.incomp a b c h1 h2 h3 h4)

/-- The same elements are equal to two elements of one class. -/
theorem Keys.equal_congr (h : K.equal a b = true) (x : α) : K.equal x a = K.equal x b := by
  rw [Bool.eq_iff_iff]
  exact ⟨fun hx => Keys.equal_trans hx h, fun hx => Keys.equal_trans hx (Keys.equal_symm h)⟩

theorem findBucket_congr (h : K.equal a b = true) : findBucket K T a = findBucket K T b := by
  obtain ⟨h1, h2⟩ := Keys.equal_iff.mp h
  rw [findBucket, findBucket, K.hash_eq a b h1 h2]

variable {hist : List (HashOp α)} {y : α}

/-- `lookup` says the same of all elements of a class. -/
theorem lookup_congr (h : K.equal a b = true) : lookup K hist a = lookup K hist b := by
  induction hist with
  | nil => rfl
  | cons op hist ih =>
    cases op with
    | insert x ok => rw [lookup_insert, lookup_insert, Keys.equal_congr h, ih]
    | replace x ok => rw [lookup_replace, lookup_replace, Keys.equal_congr h, ih]
    | delete x ok => rw [lookup_delete, lookup_delete, Keys.equal_congr h, ih]
    | find x => exact ih
    | clear d => rfl

theorem lookup_equal (h : lookup K hist e = some y) : K.equal y e = true := by
  induction hist with
  | nil => cases h
  | cons op hist ih =>
    cases op with
    | insert x ok =>
      rw [lookup_insert] at h
      split at h
      · rename_i hx
        cases hl : lookup K hist e with
        | none =>
          rw [hl] at h
          cases h
          exact hx
        | some z =>
          rw [hl] at h
          cases h
          exact ih hl
      · exact ih h
    | replace x ok =>
      rw [lookup_replace] at h
      split at h
      · rename_i hx
        cases h
        exact hx
      · exact ih h
    | delete x ok =>
      rw [lookup_delete] at h
      split at h
      · cases h
      · exact ih h
    | find x => exact ih h
    | clear d => cases h

/-- The elements that the history leaves in the table. -/
def Present (K : Keys α) (hist : List (HashOp α)) (x : α) : Prop := lookup K hist x = some x

theorem present_of_lookup (h : lookup K hist e = some y) : Present K hist y :=
  (lookup_congr (lookup_equal h)).trans h

theorem Present.eq (ha : Present K hist a) (hb : Present K hist b) (h : K.equal a b = true) :
    a = b := by
  have hl : lookup K hist a = lookup K hist b := lookup_congr h
  rw [ha, hb] at hl
  exact some.inj hl

theorem findElem_eq (h : T.Holds K (Present K hist)) :
    findElem K T (findBucket K T e) e = lookup K hist e := by
  rw [findElem]
  cases hl : lookup K hist e with
  | none =>
    refine find?_eq_none.mpr fun x hx hxe => ?_
    rw [← findBucket_congr hxe] at hx
    have hpresent : lookup K hist x = some x := h.mem_bucket.mp hx
    rw [lookup_congr hxe, hl] at hpresent
    cases hpresent
  | some y =>
    have hye := lookup_equal hl
    have hy : y ∈ T.buckets (findBucket K T e) := by
      rw [← findBucket_congr hye]
      exact h.mem_bucket.mpr (present_of_lookup hl)
    obtain ⟨x, hx⟩ := isSome_iff_exists.mp
      (find?_isSome (p := fun z => K.equal z e) |>.mpr ⟨y, hy, hye⟩)
    have hxe := find?_some hx
    have hxm := mem_of_find?_eq_some hx
    rw [← findBucket_congr hxe] at hxm
    have hpresent : lookup K hist x = some x := h.mem_bucket.mp hxm
    rw [lookup_congr hxe, hl] at hpresent
    rw [hx, some.inj hpresent]

theorem present_insert_of_none (h : lookup K hist e = none) (ok : Bool) (x : α) :
    x = e ∨ Present K hist x ↔ Present K (.insert e ok :: hist) x := by
  rw [Present, Present, lookup_insert]
  by_cases hex : K.equal e x = true
  · rw [if_pos hex, ← lookup_congr hex, h]
    simp [eq_comm]
  · rw [if_neg hex]
    refine or_iff_right fun hxe => hex ?_
    rw [hxe]
    exact Keys.equal_refl e

theorem present_insert_of_some (h : lookup K hist e = some y) (ok : Bool) (x : α) :
    Present K hist x ↔ Present K (.insert e ok :: hist) x := by
  rw [Present, Present, lookup_insert]
  by_cases hex : K.equal e x = true
  · rw [if_pos hex, ← lookup_congr hex, h]
    rfl
  · rw [if_neg hex]

/-- Without the element of the class of `e`, whatever it is. -/
def Others (K : Keys α) (hist : List (HashOp α)) (e x : α) : Prop :=
  Present K hist x ∧ K.equal e x = false

theorem others_of_none (h : lookup K hist e = none) (x : α) :
    Present K hist x ↔ Others K hist e x := by
  refine ⟨fun hx => ⟨hx, ?_⟩, fun hx => hx.1⟩
  refine Bool.eq_false_iff.mpr fun hex => ?_
  rw [Present, ← lookup_congr hex, h] at hx
  cases hx

theorem others_of_some (h : lookup K hist e = some y) (x : α) :
    x ≠ y ∧ Present K hist x ↔ Others K hist e x := by
  have hye := lookup_equal h
  constructor
  · rintro ⟨hxy, hx⟩
    refine ⟨hx, Bool.eq_false_iff.mpr fun hex => hxy ?_⟩
    exact hx.eq (present_of_lookup h) (Keys.equal_symm (Keys.equal_trans hye hex))
  · rintro ⟨hx, hex⟩
    refine ⟨fun hxy => ?_, hx⟩
    rw [hxy, Keys.equal_symm hye] at hex
    cases hex

theorem present_replace (ok : Bool) (x : α) :
    x = e ∨ Others K hist e x ↔ Present K (.replace e ok :: hist) x := by
  rw [Others, Present, Present, lookup_replace]
  by_cases hex : K.equal e x = true
  · rw [if_pos hex]
    simp [hex, eq_comm]
  · rw [if_neg hex]
    have hne : x ≠ e := fun hxe => hex (by rw [hxe]; exact Keys.equal_refl e)
    simp [hne, hex]

theorem present_delete (ok : Bool) (x : α) :
    Others K hist e x ↔ Present K (.delete e ok :: hist) x := by
  rw [Others, Present, Present, lookup_delete]
  by_cases hex : K.equal e x = true
  · rw [if_pos hex]
    simp [hex]
  · rw [if_neg hex]
    simp [hex]

/-! ### Calls -/

/-- **A call** keeps the table the set of its history, and returns what the history says. -/
theorem exec_spec [DecidableEq α] (h : T.Holds K (Present K hist)) (op : HashOp α) :
    (exec K T op).1.Holds K (Present K (op :: hist)) ∧ (exec K T op).2 = result K hist op := by
  cases op with
  | insert e ok =>
    rw [exec, hashInsert, findElem_eq h, result]
    cases hl : lookup K hist e with
    | some y => exact ⟨(h.rehash ok).congr (present_insert_of_some hl ok), rfl⟩
    | none =>
      have hnew : ¬ Present K hist e := fun he => by rw [Present, hl] at he; cases he
      exact ⟨((h.insertElem hnew).rehash ok).congr (present_insert_of_none hl ok), rfl⟩
  | replace e ok =>
    have hnew : ¬ Others K hist e e := fun he => by
      rw [Others, Keys.equal_refl] at he
      cases he.2
    rw [exec, hashReplace, findElem_eq h, result]
    cases hl : lookup K hist e with
    | some y =>
      have hrest := (h.removeElem (present_of_lookup hl)).congr (others_of_some hl)
      exact ⟨((hrest.insertElem hnew).rehash ok).congr (present_replace ok), rfl⟩
    | none =>
      have hrest := h.congr (others_of_none hl)
      exact ⟨((hrest.insertElem hnew).rehash ok).congr (present_replace ok), rfl⟩
  | delete e ok =>
    rw [exec, hashDelete, findElem_eq h, result]
    cases hl : lookup K hist e with
    | some y =>
      have hrest := (h.removeElem (present_of_lookup hl)).congr (others_of_some hl)
      exact ⟨(hrest.rehash ok).congr (present_delete ok), rfl⟩
    | none => exact ⟨(h.congr (others_of_none hl)).congr (present_delete ok), rfl⟩
  | find e => exact ⟨h, findElem_eq h⟩
  | clear d =>
    have hempty : (hashClear d T).1.elements = [] := elements_eq_nil rfl
    refine ⟨⟨h.pow, fun i _ x hx => (by cases hx), ?_, fun x => ?_, ?_⟩, rfl⟩
    · rw [exec, hempty]
      exact nodup_nil
    · rw [exec, hempty]
      exact ⟨fun hx => (by cases hx), fun hx => (by cases hx)⟩
    · rw [exec, hempty]
      rfl

theorem holds_run [DecidableEq α] (K : Keys α) (hist : List (HashOp α)) :
    (run K hist).Holds K (Present K hist) := by
  induction hist with
  | nil =>
    have hempty : (run K ([] : List (HashOp α))).elements = [] := elements_eq_nil rfl
    refine ⟨⟨2, rfl⟩, fun i _ x hx => (by cases hx), ?_, fun x => ?_, ?_⟩
    · rw [hempty]
      exact nodup_nil
    · rw [hempty]
      exact ⟨fun hx => (by cases hx), fun hx => (by cases hx)⟩
    · rw [hempty]
      rfl
  | cons op hist ih => exact (exec_spec ih op).1

end Table

/-! ## Iteration -/

section Iteration

variable {α : Type} {T : HashTable α} {x : α} {l : List α} {i : Iterator}

/-- The elements of the buckets after `b`. -/
def HashTable.later (T : HashTable α) (b : Nat) : List α :=
  ((List.range T.bucketCnt).drop (b + 1)).flatMap T.buckets

theorem range_drop {n b : Nat} (hb : b < n) :
    (List.range n).drop b = b :: (List.range n).drop (b + 1) := by
  have hlen : b < (List.range n).length := by rwa [length_range]
  rw [drop_eq_getElem_cons hlen, getElem_range]

theorem later_eq {b : Nat} (hb : b + 1 < T.bucketCnt) :
    T.later b = T.buckets (b + 1) ++ T.later (b + 1) := by
  rw [HashTable.later, range_drop hb, flatMap_cons]
  rfl

theorem later_eq_nil {b : Nat} (hb : T.bucketCnt ≤ b + 1) : T.later b = [] := by
  rw [HashTable.later, drop_eq_nil_of_le (by rwa [length_range])]
  rfl

/-- The iterator is before the elements `l`, at an element or at the head of the first bucket. -/
structure Iterator.Before (T : HashTable α) (i : Iterator) (l : List α) : Prop where
  bucket : i.bucket < T.bucketCnt
  node : ∃ node, i.elem = some node ∧ node ≤ (T.buckets i.bucket).length ∧ l =
    (T.buckets i.bucket).drop node ++ T.later i.bucket

/-- The loop of `hash_next`, from a node whose element would be the first of `l`: it ends at that
element, or at the null pointer if there is none. -/
theorem skipEmpty_spec {rounds b node : Nat} (hb : b < T.bucketCnt)
    (hrounds : T.bucketCnt ≤ b + rounds)
    (hnode : node ≤ (T.buckets b).length) :
    (T.buckets b).drop node ++ T.later b = [] ∧ (skipEmpty T rounds b (node + 1)).elem = none ∨
      ∃ x l, (T.buckets b).drop node ++ T.later b = x :: l ∧
        hashCur T (skipEmpty T rounds b (node + 1)) = some x ∧
        (skipEmpty T rounds b (node + 1)).Before T l := by
  induction rounds generalizing b node with
  | zero => omega
  | succ rounds ih =>
    rw [skipEmpty]
    by_cases hend : node = (T.buckets b).length
    · rw [if_pos (by omega), hend, drop_length, nil_append]
      by_cases hlast : T.bucketCnt ≤ b + 1
      · rw [if_pos hlast, later_eq_nil hlast]
        exact .inl ⟨rfl, rfl⟩
      · rw [if_neg hlast, later_eq (by omega)]
        exact ih (by omega) (by omega) (Nat.zero_le _)
    · have hlt : node < (T.buckets b).length := by omega
      rw [if_neg (by omega), drop_eq_getElem_cons hlt]
      refine .inr ⟨_, _, rfl, ?_, hb, node + 1, rfl, hlt, rfl⟩
      rw [hashCur, bind_some, Nat.add_sub_cancel, getElem?_eq_getElem hlt]

/-- `hash_next` goes to the next element, or to the end. -/
theorem hashNext_spec (h : i.Before T l) :
    l = [] ∧ (hashNext T i).elem = none ∨
      ∃ x l', l = x :: l' ∧ hashCur T (hashNext T i) = some x ∧ (hashNext T i).Before T l' := by
  obtain ⟨hb, node, helem, hnode, rfl⟩ := h
  rw [hashNext, helem]
  exact skipEmpty_spec hb (Nat.le_add_left _ _) hnode

theorem before_hashFirst (h : 0 < T.bucketCnt) : hashFirst.Before T T.elements := by
  refine ⟨h, 0, rfl, Nat.zero_le _, ?_⟩
  have hrange := range_drop h
  rw [drop_zero] at hrange
  rw [HashTable.elements, hrange, flatMap_cons]
  rfl

/-- The calls of `hash_next` from an iterator on return the elements before which it is, one after
another, and then the null pointer. -/
theorem iterate_hashNext (h : i.Before T l) {n : Nat} (hn : n ≤ l.length) :
    hashCur T ((hashNext T)^[n + 1] i) = l[n]? ∧
      (((hashNext T)^[n + 1] i).elem = none ↔ n = l.length) := by
  induction n generalizing i l with
  | zero =>
    obtain ⟨rfl, hnone⟩ | ⟨x, l', rfl, hcur, -, node, helem, -⟩ := hashNext_spec h
    · rw [iterate_one, hashCur, hnone]
      exact ⟨rfl, iff_of_true rfl rfl⟩
    · refine ⟨hcur, iff_of_false ?_ (by simp)⟩
      rw [iterate_one, helem]
      exact nofun
  | succ n ih =>
    obtain ⟨rfl, -⟩ | ⟨x, l', rfl, -, hbefore⟩ := hashNext_spec h
    · cases hn
    · rw [iterate_succ_apply, getElem?_cons_succ, length_cons, Nat.add_left_inj]
      exact ih hbefore (Nat.le_of_succ_le_succ hn)

end Iteration

/-! ## The result -/

/-- **The hash table is a set**, after any calls and whatever allocations of `rehash` fail: it holds
at most one element of a class; `hash_find`, and every other call, returns the element of the class
that was inserted and not removed since; `elem_cnt` is the number of elements and `bucket_cnt` a
power of two; every element is in its bucket; and an iteration visits every element once and then
returns the null pointer. -/
theorem hash_table_is_set {α : Type} [DecidableEq α] (K : Keys α) (hist : List (HashOp α)) :
    (∀ a ∈ (run K hist).elements, ∀ b ∈ (run K hist).elements, K.equal a b = true → a = b) ∧
    (∀ e, hashFind K (run K hist) e = lookup K hist e) ∧
    (∀ op, (exec K (run K hist) op).2 = result K hist op) ∧
    (run K hist).elements.Nodup ∧ (∀ x, x ∈ (run K hist).elements ↔ lookup K hist x = some x) ∧
    (run K hist).elemCnt = (run K hist).elements.length ∧
    (∃ k, (run K hist).bucketCnt = 2 ^ k) ∧
    (∀ i, i < (run K hist).bucketCnt → ∀ x ∈ (run K hist).buckets i, K.hash x &&&
      ((run K hist).bucketCnt - 1) = i) ∧
    ∀ n, n ≤ (run K hist).elements.length →
      hashCur (run K hist) ((hashNext (run K hist))^[n + 1] hashFirst) =
        (run K hist).elements[n]? ∧
      (((hashNext (run K hist))^[n + 1] hashFirst).elem = none ↔
        n = (run K hist).elements.length) := by
  have h := holds_run K hist
  refine ⟨fun a ha b hb hab => ?_, fun e => findElem_eq h, fun op => (exec_spec h op).2, h.nodup,
    h.mem, h.cnt, h.pow, h.bucket, fun n hn => iterate_hashNext (before_hashFirst ?_) hn⟩
  · exact Present.eq ((h.mem a).mp ha) ((h.mem b).mp hb) hab
  · obtain ⟨k, hk⟩ := h.pow
    rw [hk]
    exact Nat.two_pow_pos k

/-- Numbers in their order, each its own hash. -/
def natKeys : Keys Nat where
  hash := id
  less a b := a < b
  irrefl := by simp
  trans a b c := by simpa using Nat.lt_trans
  incomp a b c := by simp; omega
  hash_eq a b := by simp; omega

/-- Sixteen elements are inserted, the last of which makes the table grow; two are replaced and
deleted. -/
def sixteen : List (HashOp Nat) :=
  [.delete 7 false, .replace 3 true] ++ (List.range 16).reverse.map fun n => .insert n true

/-- The table has grown to eight buckets, and an iteration visits the fifteen elements. -/
theorem hash_table_is_set_grown : ∃ T, T = run natKeys sixteen ∧ T.bucketCnt = 8 ∧
    T.elemCnt = 15 ∧ hashFind natKeys T 3 = some 3 ∧ hashFind natKeys T 7 = none ∧
    (∀ n < 15, hashCur T ((hashNext T)^[n + 1] hashFirst) = T.elements[n]?) ∧
    ((hashNext T)^[16] hashFirst).elem = none := by
  obtain ⟨-, hfind, -, -, -, hcnt, -, -, hnext⟩ := hash_table_is_set natKeys sixteen
  have hlen : (run natKeys sixteen).elements.length = 15 := by decide +kernel
  refine ⟨_, rfl, by decide +kernel, hcnt.trans hlen, (hfind 3).trans (by decide +kernel),
    (hfind 7).trans (by decide +kernel), fun n hn => (hnext n (by omega)).1, ?_⟩
  exact (hnext 15 (by omega)).2.mpr hlen.symm

end SystemProg.Pintos.Hash
