import Mathlib.Algebra.Group.Int.Defs
import Mathlib.Data.List.Nodup
import SystemProg.Text.CString

/-!
# The kernel command line

`read_command_line` of `threads/init.c`. The loader leaves an area of 128 bytes with the arguments,
one NUL-terminated string after the other, and a word with their number. A pointer into the area is
an offset. What the function does to `argv` is the list of its stores, in order and with their
indices, which need not be inside the array.

* `StartsAt area n p` — the `n`-th NUL-separated string of the area starts at `p`.
* `readCommandLine_iff` — when the function panics or stays in bounds. The array has room for 64
  arguments and the null pointer, one for every two bytes of the area, but an empty argument takes
  one byte.
* `stored_before_panic` — when a call that panics has gone past the array before.
-/

namespace SystemProg.Pintos.CommandLine

open Text

/-- `LOADER_ARGS_LEN`. -/
def argsLen : Nat := 128

/-- The length of `argv`. -/
def argvLen : Nat := argsLen / 2 + 1

/-- `strnlen`. It also reads the byte after the last of `maxlen`, and that byte does not count. -/
def strnlen : (string : List Byte) → (maxlen : Nat) → Nat
  | b :: string, maxlen + 1 => if b ≠ 0 then strnlen string maxlen + 1 else 0
  | _, _ => 0

/-- `argv[index] = value`; `none` for NULL. -/
abbrev Store := Int × Option Nat

/-- A call: its stores, and whether it returned or panicked. -/
structure Call where
  stores : List Store
  returned : Bool
  deriving DecidableEq

/-- The loop, with `count` arguments to go. -/
def fillArgv (area : List Byte) : (count i p : Nat) → Call
  | 0, _, _ => ⟨[], true⟩
  | count + 1, i, p =>
    if argsLen ≤ p then ⟨[], false⟩
    else
      let rest := fillArgv area count (i + 1) (p + strnlen (area.drop p) (argsLen - p) + 1)
      ⟨(i, some p) :: rest.stores, rest.returned⟩

/-- `read_command_line`, where the count is read as an `int`. -/
def readCommandLine (area : Vector Byte argsLen) (argCnt : BitVec 32) : Call :=
  let argc := argCnt.toInt
  let loop := fillArgv area.toList argc.toNat 0 0
  if loop.returned then ⟨loop.stores ++ [(argc, none)], true⟩ else loop

/-! ## Strings of the area -/

/-- The `n`-th string starts at `p`: there are `n` NULs before it, the last of them right before. -/
structure StartsAt (area : List Byte) (n p : Nat) : Prop where
  inside : p < area.length
  count : (area.take p).count 0 = n
  first : p = 0 ∨ area[p - 1]? = some 0

/-- What is asked of a call that returns. -/
structure InBounds (area : List Byte) (argc : Int) (c : Call) : Prop where
  index : ∀ s ∈ c.stores, 0 ≤ s.1 ∧ s.1 < argvLen
  once : (c.stores.map Prod.fst).Nodup
  all : ∀ n : Nat, n < argc → ∃ p, ((n : Int), some p) ∈ c.stores
  args : ∀ i p, (i, some p) ∈ c.stores → ∃ n : Nat, i = n ∧ StartsAt area n p ∧ 0 ∈ area.drop p
  last : (argc, none) ∈ c.stores

section Loop

variable {area s w : List Byte} {count i n p : Nat}

theorem strnlen_append_nul (hw : 0 ∉ w) {m : Nat} (hm : w.length < m) :
    strnlen (w ++ 0 :: s) m = w.length := by
  induction w generalizing m with
  | nil =>
    obtain ⟨m, rfl⟩ := Nat.exists_eq_add_one_of_ne_zero (Nat.ne_of_gt hm)
    rfl
  | cons b w ih =>
    obtain ⟨m, rfl⟩ := Nat.exists_eq_add_one_of_ne_zero (Nat.ne_of_gt (Nat.zero_lt_of_lt hm))
    have hb : b ≠ 0 := fun he => hw (he ▸ List.mem_cons_self)
    rw [List.cons_append, strnlen, if_pos hb,
      ih (fun hm => hw (List.mem_cons_of_mem _ hm)) (Nat.lt_of_succ_lt_succ hm), List.length_cons]

theorem strnlen_of_not_mem (hs : 0 ∉ s) : strnlen s s.length = s.length := by
  induction s with
  | nil => rfl
  | cons b s ih =>
    have hb : b ≠ 0 := fun he => hs (he ▸ List.mem_cons_self)
    rw [List.length_cons, strnlen, if_pos hb, ih fun hm => hs (List.mem_cons_of_mem _ hm)]

/-- The area ends inside a string. -/
def Open (s : List Byte) : Prop := ∃ b, s.getLast? = some b ∧ b ≠ 0

theorem open_append_nul : Open (w ++ 0 :: s) ↔ Open s := by
  cases hs : s with
  | nil => simp [Open]
  | cons b t => simp [Open, List.getLast?_append, List.getLast?_cons_cons]

/-- Where the string at `p` ends: at the NUL before `q`. -/
structure EndsAt (area : List Byte) (p q : Nat) : Prop where
  le : q ≤ area.length
  before : (area.take q).count 0 = (area.take p).count 0 + 1
  nul : area[q - 1]? = some 0
  after : (area.drop p).count 0 = (area.drop q).count 0 + 1
  isOpen : Open (area.drop p) ↔ Open (area.drop q)

theorem cursor_of_mem (harea : area.length = argsLen) (hmem : 0 ∈ area.drop p) :
    EndsAt area p (p + strnlen (area.drop p) (argsLen - p) + 1) := by
  obtain ⟨w, s, hdrop, hw⟩ := List.eq_append_cons_of_mem hmem
  have hlen := congrArg List.length hdrop
  simp only [List.length_drop, List.length_append, List.length_cons] at hlen
  rw [hdrop, strnlen_append_nul hw (by omega)]
  have hnext : area.drop (p + w.length + 1) = s := by
    rw [Nat.add_assoc, ← List.drop_drop, hdrop, List.drop_append]
    simp
  have htake : area.take (p + w.length + 1) = area.take p ++ (w ++ [0]) := by
    rw [Nat.add_assoc, List.take_add, hdrop, List.append_cons, List.take_left' (by simp)]
  have hcount : w.count 0 = 0 := List.count_eq_zero.mpr hw
  refine ⟨by omega, ?_, ?_, ?_, ?_⟩
  · rw [htake, List.count_append, List.count_append, hcount]
    rfl
  · have hget : (area.drop p)[w.length]? = some 0 := by
      rw [hdrop]
      simp
    rw [List.getElem?_drop] at hget
    exact hget
  · rw [hnext, hdrop, List.count_append, hcount, List.count_cons_self, Nat.zero_add]
  · rw [hnext, hdrop]
    exact open_append_nul

theorem cursor_of_not_mem (harea : area.length = argsLen) (hp : p < argsLen)
    (hmem : 0 ∉ area.drop p) : p + strnlen (area.drop p) (argsLen - p) + 1 = argsLen + 1 := by
  have hlen : (area.drop p).length = argsLen - p := by rw [List.length_drop, harea]
  rw [← hlen, strnlen_of_not_mem hmem, hlen]
  omega

/-- **When the loop does not panic**: every string but the last has its NUL. -/
theorem returned_fillArgv (harea : area.length = argsLen) (hp : p ≤ argsLen) :
    (fillArgv area count i p).returned = true ↔ count ≤ (area.drop p).count 0 ∨
      (count = (area.drop p).count 0 + 1 ∧ Open (area.drop p)) := by
  induction count generalizing i p with
  | zero => exact iff_of_true rfl (.inl (Nat.zero_le _))
  | succ count ih =>
    rw [fillArgv]
    by_cases hend : argsLen ≤ p
    · rw [if_pos hend, List.drop_eq_nil_of_le (harea ▸ hend)]
      simp [Open]
    rw [if_neg hend]
    dsimp only
    by_cases hmem : 0 ∈ area.drop p
    · have hcur := cursor_of_mem harea hmem
      rw [ih (harea ▸ hcur.le), hcur.after, hcur.isOpen, Nat.add_le_add_iff_right,
        Nat.add_right_cancel_iff]
    · have hcount : (area.drop p).count 0 = 0 := List.count_eq_zero.mpr hmem
      have hopen : Open (area.drop p) := by
        have hne : area.drop p ≠ [] := by
          rw [Ne, List.drop_eq_nil_iff, harea]
          exact hend
        refine ⟨_, List.getLast?_eq_some_getLast hne, fun he => hmem ?_⟩
        rw [← he]
        exact List.getLast_mem hne
      rw [cursor_of_not_mem harea (Nat.lt_of_not_le hend) hmem, hcount, and_iff_left hopen]
      cases count with
      | zero => simp [fillArgv]
      | succ count =>
        rw [fillArgv, if_pos (Nat.le_succ _)]
        simp

/-- **What the loop stores.** -/
theorem mem_fillArgv (harea : area.length = argsLen) {st : Store}
    (hp : p < argsLen → StartsAt area i p)
    (hst : st ∈ (fillArgv area count i p).stores) :
    ∃ (n : Nat) (q : Nat), st = ((n : Int), some q) ∧ i ≤ n ∧ n < i + count ∧
      StartsAt area n q := by
  induction count generalizing i p with
  | zero => exact absurd hst List.not_mem_nil
  | succ count ih =>
    rw [fillArgv] at hst
    split at hst
    · exact absurd hst List.not_mem_nil
    rename_i hend
    rcases List.mem_cons.mp hst with rfl | hst
    · exact ⟨i, p, rfl, le_rfl, by omega, hp (Nat.lt_of_not_le hend)⟩
    · have hstart := hp (Nat.lt_of_not_le hend)
      obtain ⟨n, q, rfl, hle, hlt, hq⟩ := ih (fun hlt => by
        by_cases hmem : 0 ∈ area.drop p
        · have hcur := cursor_of_mem harea hmem
          exact ⟨harea ▸ hlt, by rw [hcur.before, hstart.count], .inr hcur.nul⟩
        · rw [cursor_of_not_mem harea (Nat.lt_of_not_le hend) hmem] at hlt
          omega) hst
      exact ⟨n, q, rfl, by omega, by omega, hq⟩

theorem nodup_fillArgv (area : List Byte) (count i p : Nat) :
    ((fillArgv area count i p).stores.map Prod.fst).Nodup ∧
      ∀ s ∈ (fillArgv area count i p).stores, (i : Int) ≤ s.1 := by
  induction count generalizing i p with
  | zero => exact ⟨List.nodup_nil, nofun⟩
  | succ count ih =>
    rw [fillArgv]
    split
    · exact ⟨List.nodup_nil, nofun⟩
    obtain ⟨hnodup, hle⟩ := ih (i + 1) (p + strnlen (area.drop p) (argsLen - p) + 1)
    refine ⟨List.nodup_cons.mpr ⟨fun hmem => ?_, hnodup⟩,
      List.forall_mem_cons.mpr ⟨Int.le_refl _, fun s hs => by have := hle s hs; omega⟩⟩
    obtain ⟨s, hs, he⟩ := List.mem_map.mp hmem
    have := hle s hs
    omega

/-- A loop that returns has stored every argument. -/
theorem exists_fillArgv (h : (fillArgv area count i p).returned = true) (hn : i ≤ n)
    (hlt : n < i + count) : ∃ q, ((n : Int), some q) ∈ (fillArgv area count i p).stores := by
  induction count generalizing i p with
  | zero => omega
  | succ count ih =>
    rw [fillArgv] at h ⊢
    split at h
    · cases h
    rename_i hend
    rw [if_neg hend]
    rcases Nat.eq_or_lt_of_le hn with rfl | hn
    · exact ⟨p, List.mem_cons_self⟩
    · obtain ⟨q, hq⟩ := ih h hn (by omega)
      exact ⟨q, List.mem_cons_of_mem _ hq⟩

theorem prefix_fillArgv (area : List Byte) {count count' : Nat} (h : count ≤ count') (i p : Nat) :
    (fillArgv area count i p).stores <+: (fillArgv area count' i p).stores := by
  induction count generalizing count' i p with
  | zero => exact List.nil_prefix
  | succ count ih =>
    obtain ⟨count', rfl⟩ := Nat.exists_eq_add_one_of_ne_zero (Nat.ne_of_gt (Nat.zero_lt_of_lt h))
    rw [fillArgv, fillArgv]
    split
    · exact List.prefix_rfl
    · exact (List.prefix_cons_inj _).mpr (ih (Nat.le_of_succ_le_succ h) _ _)

/-- The `n`-th string has a NUL exactly if the area has more than `n`. -/
theorem StartsAt.terminated_iff (h : StartsAt area n p) : 0 ∈ area.drop p ↔ n < area.count 0 := by
  have hsum : area.count 0 = (area.take p).count 0 + (area.drop p).count 0 := by
    rw [← List.count_append, List.take_append_drop]
  rw [← List.count_pos_iff, hsum, h.count]
  omega

end Loop

/-! ## The function -/

section Call

variable (area : Vector Byte argsLen) (argCnt : BitVec 32)

/-- The number of arguments fits the array and the area. -/
def Fits : Prop := argCnt.toInt < argvLen ∧ argCnt.toInt ≤ area.toList.count 0

/-- There are more arguments than strings. -/
def TooMany : Prop := (area.toList.count 0 : Int) + 1 < argCnt.toInt ∨
  (argCnt.toInt = area.toList.count 0 + 1 ∧ area.toList.getLast? = some 0)

variable {area argCnt}

theorem open_iff_getLast : Open area.toList ↔ area.toList.getLast? ≠ some 0 := by
  have hne : area.toList ≠ [] := by
    rw [Ne, ← List.length_eq_zero_iff, Vector.length_toList]
    decide
  rw [Open, List.getLast?_eq_some_getLast hne]
  simp

theorem returned_eq : (readCommandLine area argCnt).returned =
    (fillArgv area.toList argCnt.toInt.toNat 0 0).returned := by
  rw [readCommandLine]
  split
  · rename_i h
    exact h.symm
  · rfl

/-- **When the call returns.** -/
theorem returned_iff : (readCommandLine area argCnt).returned = true ↔ ¬ TooMany area argCnt := by
  have harea : area.toList.length = argsLen := Vector.length_toList
  have hloop : (fillArgv area.toList argCnt.toInt.toNat 0 0).returned = true ↔ _ :=
    returned_fillArgv harea (Nat.zero_le _)
  rw [List.drop_zero, open_iff_getLast] at hloop
  rw [returned_eq, hloop, TooMany]
  by_cases hlast : area.toList.getLast? = some 0
  · simp only [hlast, ne_eq, not_true, and_false, or_false, and_true]
    omega
  · simp only [hlast, ne_eq, not_false_iff, and_true, and_false, or_false]
    omega

/-- **Arguments that fit**: the stores are those of the loop, and the null pointer. -/
theorem inBounds_of_fits (hpos : 0 ≤ argCnt.toInt) (h : Fits area argCnt) :
    InBounds area.toList argCnt.toInt (readCommandLine area argCnt) := by
  obtain ⟨hlt, hcount⟩ := h
  have harea : area.toList.length = argsLen := Vector.length_toList
  have hreturned : (fillArgv area.toList argCnt.toInt.toNat 0 0).returned = true := by
    rw [← returned_eq, returned_iff, TooMany]
    omega
  have hstart : 0 < argsLen → StartsAt area.toList 0 0 := fun h =>
    ⟨by rwa [harea], rfl, .inl rfl⟩
  have hstores {st : Store} (hst : st ∈ (fillArgv area.toList argCnt.toInt.toNat 0 0).stores) :=
    mem_fillArgv harea hstart hst
  rw [readCommandLine, if_pos hreturned]
  refine ⟨fun st hst => ?_, ?_, fun n hn => ?_, fun i p hst => ?_,
    List.mem_append_right _ List.mem_cons_self⟩
  · rcases List.mem_append.mp hst with hst | hst
    · obtain ⟨n, q, rfl, -, hn, -⟩ := hstores hst
      dsimp only
      omega
    · rw [List.mem_singleton.mp hst]
      exact ⟨hpos, hlt⟩
  · obtain ⟨hnodup, -⟩ := nodup_fillArgv area.toList argCnt.toInt.toNat 0 0
    rw [List.map_append]
    refine hnodup.append (List.nodup_singleton _) fun i hi hi' => ?_
    obtain ⟨st, hst, rfl⟩ := List.mem_map.mp hi
    obtain ⟨n, q, rfl, -, hn, -⟩ := hstores hst
    have : (n : Int) = argCnt.toInt := List.mem_singleton.mp hi'
    omega
  · obtain ⟨q, hq⟩ := exists_fillArgv hreturned (Nat.zero_le n) (by omega)
    exact ⟨q, List.mem_append_left _ hq⟩
  · rcases List.mem_append.mp hst with hst | hst
    · obtain ⟨n, q, he, -, hn, hat⟩ := hstores hst
      obtain ⟨rfl, hpq⟩ := Prod.mk.inj he
      cases hpq
      exact ⟨n, rfl, hat, hat.terminated_iff.mpr (by omega)⟩
    · cases (Prod.mk.inj (List.mem_singleton.mp hst)).2

/-- **When `read_command_line` panics or stays in bounds.** -/
theorem readCommandLine_iff (area : Vector Byte argsLen) (argCnt : BitVec 32) :
    ((readCommandLine area argCnt).returned = false ∨
      InBounds area.toList argCnt.toInt (readCommandLine area argCnt)) ↔
    0 ≤ argCnt.toInt ∧ (Fits area argCnt ∨ TooMany area argCnt) := by
  constructor
  · rintro (hpanic | h)
    · have hmany : TooMany area argCnt := by
        by_contra hmany
        rw [returned_iff.mpr hmany] at hpanic
        cases hpanic
      refine ⟨?_, .inr hmany⟩
      unfold TooMany at hmany
      omega
    · obtain ⟨hpos, hlt⟩ := h.index _ h.last
      refine ⟨hpos, .inl ⟨hlt, ?_⟩⟩
      -- The last argument has a NUL, and so do those before it.
      by_contra hcount
      obtain ⟨p, hp⟩ := h.all (argCnt.toInt.toNat - 1) (by omega)
      obtain ⟨n, hn, hat, hnul⟩ := h.args _ _ hp
      have := hat.terminated_iff.mp hnul
      omega
  · rintro ⟨hpos, hfits | hmany⟩
    · exact .inr (inBounds_of_fits hpos hfits)
    · exact .inl (Bool.eq_false_iff.mpr fun hret => returned_iff.mp hret hmany)

/-- **What a call that panics has stored before**: it has gone past the array exactly if the area
has more strings than the array has places. -/
theorem stored_before_panic (h : (readCommandLine area argCnt).returned = false) :
    (∃ s ∈ (readCommandLine area argCnt).stores, argvLen ≤ s.1) ↔ argvLen < area.toList.count 0 ∨
      area.toList.count 0 = argvLen ∧ area.toList.getLast? ≠ some 0 := by
  have harea : area.toList.length = argsLen := Vector.length_toList
  have hmany : TooMany area argCnt := by
    by_contra hmany
    rw [returned_iff.mpr hmany] at h
    cases h
  rw [readCommandLine, if_neg (Bool.eq_false_iff.mp (returned_eq ▸ h))]
  constructor
  · rintro ⟨s, hs, hle⟩
    obtain ⟨n, q, rfl, -, -, hat⟩ :=
      mem_fillArgv harea (fun h => ⟨by rwa [harea], rfl, .inl rfl⟩) hs
    have hn : argvLen ≤ n := Int.ofNat_le.mp hle
    have hcount : n ≤ area.toList.count 0 := hat.count ▸ (List.take_sublist _ _).count_le 0
    have hend (hlast : area.toList.getLast? = some 0) : n < area.toList.count 0 := by
      refine hat.terminated_iff.mp (List.mem_of_getLast? ?_)
      rw [List.getLast?_drop, if_neg (Nat.not_le.mpr hat.inside), hlast]
    by_cases hlast : area.toList.getLast? = some 0
    · exact .inl (hn.trans_lt (hend hlast))
    · exact (Nat.lt_or_eq_of_le (hn.trans hcount)).imp_right fun he => ⟨he.symm, hlast⟩
  · intro hstrings
    have hle : argvLen ≤ area.toList.count 0 := hstrings.elim Nat.le_of_lt fun h => h.1.ge
    have hloop : (fillArgv area.toList (argvLen + 1) 0 0).returned = true := by
      rw [returned_fillArgv harea (Nat.zero_le _), List.drop_zero, open_iff_getLast]
      exact hstrings.imp_right fun h => ⟨congrArg (· + 1) h.1.symm, h.2⟩
    obtain ⟨q, hq⟩ := exists_fillArgv hloop (Nat.zero_le argvLen) (by omega)
    unfold TooMany at hmany
    exact ⟨_, (prefix_fillArgv _ (by omega) 0 0).subset hq, Int.le_refl _⟩

/-- 65 empty arguments: the null pointer is stored after the array. -/
theorem empty_arguments_overflow :
    (readCommandLine (Vector.replicate argsLen 0) 65#32).returned = true ∧
      ((65 : Int), none) ∈ (readCommandLine (Vector.replicate argsLen 0) 65#32).stores ∧
      ¬ InBounds (Vector.replicate argsLen 0).toList 65
        (readCommandLine (Vector.replicate argsLen 0) 65#32) := by
  have hmem : ((65 : Int), none) ∈
      (readCommandLine (Vector.replicate argsLen 0) 65#32).stores := by decide +kernel
  exact ⟨by decide +kernel, hmem, fun h => absurd (h.index _ hmem).2 (by decide)⟩

end Call

end SystemProg.Pintos.CommandLine
