import Mathlib.Data.BitVec
import Mathlib.Logic.Function.Basic
import SystemProg.Seq.Panic
import SystemProg.Text.CString

/-!
# `memmove`

Model of `memmove` of `lib/string.c`, byte by byte, on a memory of 32-bit addresses. Pointers wrap
around; the ranges of a call do not.

* `copyUp_eq`, `copyDown_eq` — what the two loops leave, where no byte is read after it was
  overwritten.
* `memmove_spec` — the bytes are moved, however the ranges overlap, and what is returned is `dst`
  where the loop has left it.
* `memmove_iff` — so the result is the destination unless the loop went upwards.
-/

namespace SystemProg.Pintos.Memmove

open SystemProg.Seq Text
open Function (update update_of_ne update_self)

/-- A pointer. -/
abbrev Addr := BitVec 32

/-- The memory. -/
abbrev Memory := Addr → Byte

/-- `while (size-- > 0) *dst++ = *src++;` and where `dst` ends. -/
def copyUp : (size : Nat) → (dst src : Addr) → Panic Memory Addr
  | 0, dst, _ => return dst
  | size + 1, dst, src => do
    modify fun mem => update mem dst (mem src)
    copyUp size (dst + 1) (src + 1)

/-- `while (size-- > 0) *--dst = *--src;` and where `dst` ends. -/
def copyDown : (size : Nat) → (dst src : Addr) → Panic Memory Addr
  | 0, dst, _ => return dst
  | size + 1, dst, src => do
    modify fun mem => update mem (dst - 1) (mem (src - 1))
    copyDown size (dst - 1) (src - 1)

/-- `memmove`. -/
def memmove (dst src size : Addr) : Panic Memory Addr := do
  assert (dst ≠ 0 ∨ size = 0)
  assert (src ≠ 0 ∨ size = 0)
  if dst < src then copyUp size.toNat dst src
  else copyDown size.toNat (dst + size) (src + size)

/-! ## The loops -/

/-- The memory with the `n` bytes from `src` on copied to `dst`. -/
def moved (mem : Memory) (dst src : Addr) (n : Nat) : Memory := fun a =>
  if (a - dst).toNat < n then mem (src + (a - dst)) else mem a

section Loops

variable {mem : Memory} {dst src : Addr} {n : Nat}

theorem moved_zero (mem : Memory) (dst src : Addr) : moved mem dst src 0 = mem :=
  funext fun _ => if_neg (Nat.not_lt_zero _)

/-- The first byte and then the others, unless the first one written is one of those to be read. -/
theorem moved_succ_first (hn : n < 2 ^ 32) (h : (dst - src).toNat = 0 ∨ n < (dst - src).toNat) :
    moved (update mem dst (mem src)) (dst + 1) (src + 1) n =
      moved mem dst src (n + 1) := by
  funext a
  unfold moved
  by_cases ha : a = dst
  · rw [ha, if_neg (by bv_omega), if_pos (by bv_omega), update_self]
    congr 1
    bv_omega
  · rw [update_of_ne ha]
    by_cases hk : (a - dst).toNat < n + 1
    · rw [if_pos (by bv_omega), if_pos hk, update_of_ne (by bv_omega)]
      congr 1
      bv_omega
    · rw [if_neg (by bv_omega), if_neg hk]

theorem moved_succ_last (hn : n < 2 ^ 32) (h : (src - dst).toNat = 0 ∨ n < (src - dst).toNat) :
    moved (update mem (dst + BitVec.ofNat 32 n) (mem (src + BitVec.ofNat 32 n))) dst src
      n = moved mem dst src (n + 1) := by
  funext a
  unfold moved
  by_cases ha : a = dst + BitVec.ofNat 32 n
  · have hk : a - dst = BitVec.ofNat 32 n := by bv_omega
    have hn' : (BitVec.ofNat 32 n).toNat = n := by
      rw [BitVec.toNat_ofNat]
      omega
    rw [hk, hn', if_neg (Nat.lt_irrefl n), if_pos (Nat.lt_succ_self n), ha, update_self]
  · rw [update_of_ne ha]
    by_cases hk : (a - dst).toNat < n
    · rw [if_pos hk, if_pos (by omega), update_of_ne (by bv_omega)]
    · rw [if_neg hk, if_neg (by bv_omega)]

/-- **The loop upwards.** -/
theorem copyUp_eq (hn : n ≤ 2 ^ 32) (h : (dst - src).toNat = 0 ∨ n ≤ (dst - src).toNat) :
    copyUp n dst src mem = some (dst + BitVec.ofNat 32 n, moved mem dst src n) := by
  induction n generalizing mem dst src with
  | zero =>
    rw [moved_zero, show dst + BitVec.ofNat 32 0 = dst from BitVec.add_zero dst]
    rfl
  | succ n ih =>
    have hdiff : dst + 1 - (src + 1) = dst - src := by bv_omega
    rw [copyUp, bind_eq modify_eq, ih (by omega) (by rw [hdiff]; omega),
      moved_succ_first (by omega) (by omega)]
    congr 2
    bv_omega

/-- **The loop downwards**, from the ends of the ranges. -/
theorem copyDown_eq (hn : n ≤ 2 ^ 32) (h : (src - dst).toNat = 0 ∨ n ≤ (src - dst).toNat) :
    copyDown n (dst + BitVec.ofNat 32 n) (src + BitVec.ofNat 32 n) mem =
      some (dst, moved mem dst src n) := by
  induction n generalizing mem with
  | zero =>
    rw [moved_zero, show dst + BitVec.ofNat 32 0 = dst from BitVec.add_zero dst]
    rfl
  | succ n ih =>
    have hprev (p : Addr) : p + BitVec.ofNat 32 (n + 1) - 1 = p + BitVec.ofNat 32 n := by bv_omega
    rw [copyDown, bind_eq modify_eq, hprev, hprev, ih (by omega) (by omega),
      moved_succ_last (by omega) (by omega)]

end Loops

/-! ## `memmove` -/

/-- The `size` bytes from `p` on do not wrap around. -/
def Fits (p size : Addr) : Prop := p.toNat + size.toNat ≤ 2 ^ 32

/-- What `memmove` is for: the bytes of the destination are those that the source had, and the
others are as they were. -/
structure Moves (mem : Memory) (dst src size : Addr) (mem' : Memory) : Prop where
  inside : ∀ i, i < size → mem' (dst + i) = mem (src + i)
  outside : ∀ a : Addr, (a.toNat < dst.toNat ∨ dst.toNat + size.toNat ≤ a.toNat) → mem' a = mem a

section Call

variable {mem : Memory} {dst src size : Addr}

theorem moves_moved (hdst : Fits dst size) :
    Moves mem dst src size (moved mem dst src size.toNat) := by
  unfold Fits at hdst
  refine ⟨fun i hi => ?_, fun a ha => if_neg (by bv_omega)⟩
  have hsub : dst + i - dst = i := by bv_omega
  rw [moved, hsub, if_pos (BitVec.lt_def.mp hi)]

/-- **`memmove`** moves the bytes, whichever way it goes. -/
theorem memmove_spec (hdst : Fits dst size) (hsrc : Fits src size)
    (hnull : dst ≠ 0 ∧ src ≠ 0 ∨ size = 0) :
    wp (memmove dst src size) (fun r mem' => Moves mem dst src size mem' ∧
      r = if dst < src then dst + size else dst) mem := by
  have hdst' := hdst
  unfold Fits at hdst' hsrc
  have hsize : BitVec.ofNat 32 size.toNat = size := by bv_omega
  rw [memmove]
  refine wp_assert (hnull.imp_left And.left) (wp_assert (hnull.imp_left And.right) ?_)
  split
  · have hup : copyUp size.toNat dst src mem = _ := copyUp_eq (by omega) (by bv_omega)
    rw [hsize] at hup
    exact wp_of_eq hup ⟨moves_moved hdst, rfl⟩
  · have hdown : copyDown size.toNat (dst + BitVec.ofNat 32 size.toNat)
      (src + BitVec.ofNat 32 size.toNat) mem = _ := copyDown_eq (by omega) (by bv_omega)
    rw [hsize] at hdown
    exact wp_of_eq hdown ⟨moves_moved hdst, rfl⟩

/-- **When `memmove` returns its destination**, as `memcpy` does and as the comment says. -/
theorem memmove_iff (hdst : Fits dst size) (hsrc : Fits src size) :
    wp (memmove dst src size) (fun r mem' => Moves mem dst src size mem' ∧ r = dst) mem ↔
      (dst ≠ 0 ∧ src ≠ 0 ∨ size = 0) ∧ (src ≤ dst ∨ size = 0) := by
  constructor
  · rintro ⟨r, mem', hm, -, hr⟩
    have hm' := hm
    rw [memmove] at hm'
    obtain ⟨h1, hm'⟩ := of_assert_bind hm'
    obtain ⟨h2, -⟩ := of_assert_bind hm'
    have hnull : dst ≠ 0 ∧ src ≠ 0 ∨ size = 0 := by tauto
    refine ⟨hnull, ?_⟩
    have hresult := (of_wp (memmove_spec hdst hsrc hnull) hm).2
    rw [hr] at hresult
    split at hresult
    · exact .inr (by bv_omega)
    · exact .inl (by bv_omega)
  · rintro ⟨hnull, hle⟩
    refine wp_mono (memmove_spec hdst hsrc hnull) ?_
    rintro r mem' ⟨hmoves, rfl⟩
    refine ⟨hmoves, ?_⟩
    split
    · bv_omega
    · rfl

/-- Distinct bytes. -/
def counting : Memory := fun a => a.toNat.toUInt8

/-- Three bytes moved upwards by one. -/
theorem memmove_iff_up : Fits 2#32 3#32 ∧ Fits 1#32 3#32 ∧
    wp (memmove 2#32 1#32 3#32) (fun r mem' => Moves counting 2#32 1#32 3#32 mem' ∧ r = 2#32)
      counting := by
  have h2 : Fits 2#32 3#32 := by unfold Fits; decide
  have h1 : Fits 1#32 3#32 := by unfold Fits; decide
  exact ⟨h2, h1, (memmove_iff h2 h1).mpr (by decide)⟩

/-- Three bytes moved downwards, from 2 to 1: what is returned is 4. -/
theorem memmove_returns_end :
    (memmove 1#32 2#32 3#32 counting).map Prod.fst = some 4#32 := rfl

end Call

end SystemProg.Pintos.Memmove
