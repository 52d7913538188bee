import Mathlib.Data.BitVec
import Mathlib.Tactic.Ring
import Mathlib.Algebra.Order.Ring.Nat

/-!
# 64-bit division on a 32-bit machine

Model of `lib/arithmetic.c`, the routines the compiler calls for 64-bit division. The machine
divides 64 by 32 bits with `divl`, which traps if the quotient has more than 32 bits; `none` is the
trap. A narrower type of the source is a narrower `BitVec`, and a conversion is `setWidth` or
`signExtend`. Signed overflow wraps around, as the instructions do.

* `nlz_spec`: `nlz` normalises.
* `udiv64_eq`, `sdiv64_eq`: neither traps, and both divide.

Headlines: `division_exact`, and `remainder_exact_iff` for the remainders, whose helpers return 32
bits.
-/

namespace SystemProg.Pintos.Arithmetic

/-! ## The source -/

/-- `divl`. -/
def divl (n : BitVec 64) (d : BitVec 32) : Option (BitVec 32) :=
  if d = 0 then none
  else if n.toNat / d.toNat < 2 ^ 32 then some (BitVec.ofNat 32 (n.toNat / d.toNat))
  else none

/-- One step of `nlz`: `n += k; x <<= k` if `x` is at most `limit`. -/
def nlzStep (limit : BitVec 32) (k : Nat) (p : Nat × BitVec 32) : Nat × BitVec 32 :=
  if p.2 ≤ limit then (p.1 + k, p.2 <<< k) else p

/-- `nlz`. -/
def nlz (x : BitVec 32) : Nat :=
  let p := nlzStep 0x0000FFFF 16 (0, x)
  let p := nlzStep 0x00FFFFFF 8 p
  let p := nlzStep 0x0FFFFFFF 4 p
  let p := nlzStep 0x3FFFFFFF 2 p
  if p.2 ≤ 0x7FFFFFFF then p.1 + 1 else p.1

/-- `udiv64`. -/
def udiv64 (n d : BitVec 64) : Option (BitVec 64) :=
  if d >>> 32 = 0 then
    let b := (1 : BitVec 64) <<< 32
    let n1 : BitVec 32 := (n >>> 32).setWidth 32
    let n0 : BitVec 32 := n.setWidth 32
    let d0 : BitVec 32 := d.setWidth 32
    (divl (b * (n1 % d0).setWidth 64 + n0.setWidth 64) d0).map fun q =>
      q.setWidth 64 + b * (n1 / d0).setWidth 64
  else if n < d then some 0
  else
    let d1 : BitVec 32 := (d >>> 32).setWidth 32
    let s := nlz d1
    (divl (n >>> 1) (((d <<< s) >>> 32).setWidth 32)).map fun (q0 : BitVec 32) =>
      let q : BitVec 64 := (q0 >>> (31 - s)).setWidth 64
      if n - (q - 1) * d < d then q - 1 else q

/-- `umod64`; it returns a `uint32_t`. -/
def umod64 (n d : BitVec 64) : Option (BitVec 32) :=
  (udiv64 n d).map fun q => (n - d * q).setWidth 32

/-- `sdiv64`. -/
def sdiv64 (n d : BitVec 64) : Option (BitVec 64) :=
  let nAbs := if n.slt 0 then -n else n
  let dAbs := if d.slt 0 then -d else d
  (udiv64 nAbs dAbs).map fun qAbs => if n.slt 0 = d.slt 0 then qAbs else -qAbs

/-- `smod64`; it returns an `int32_t`. -/
def smod64 (n d : BitVec 64) : Option (BitVec 32) :=
  (sdiv64 n d).map fun q => (n - d * q).setWidth 32

/-- `__divdi3`. -/
def divdi3 (n d : BitVec 64) : Option (BitVec 64) := sdiv64 n d

/-- `__moddi3`. -/
def moddi3 (n d : BitVec 64) : Option (BitVec 64) := (smod64 n d).map (·.signExtend 64)

/-- `__udivdi3`. -/
def udivdi3 (n d : BitVec 64) : Option (BitVec 64) := udiv64 n d

/-- `__umoddi3`. -/
def umoddi3 (n d : BitVec 64) : Option (BitVec 64) := (umod64 n d).map (·.setWidth 64)

/-! ## `nlz` -/

/-- `p` is `x` shifted by a number of bits, and has a bit among the first `m`. -/
structure Shifted (x : BitVec 32) (m : Nat) (p : Nat × BitVec 32) : Prop where
  eq : p.2.toNat = x.toNat * 2 ^ p.1
  high : 2 ^ 32 ≤ p.2.toNat * 2 ^ m

/-- A step halves the number of bits among which the first one is. -/
theorem Shifted.step {x : BitVec 32} {p : Nat × BitVec 32} (k : Nat) (limit : BitVec 32)
    (h : Shifted x (2 * k) p) (hlimit : (limit.toNat + 1) * 2 ^ k = 2 ^ 32) :
    Shifted x k (nlzStep limit k p) := by
  unfold nlzStep
  split
  · rename_i hle
    have hlt : p.2.toNat * 2 ^ k < 2 ^ 32 := by
      rw [← hlimit]
      exact Nat.mul_lt_mul_of_pos_right (Nat.lt_succ_of_le hle) (Nat.two_pow_pos k)
    have hshift : (p.2 <<< k).toNat = p.2.toNat * 2 ^ k := by
      rw [BitVec.toNat_shiftLeft, Nat.shiftLeft_eq, Nat.mod_eq_of_lt hlt]
    refine ⟨?_, ?_⟩
    · rw [hshift, h.eq, pow_add, Nat.mul_assoc]
    · rw [hshift, Nat.mul_assoc, ← pow_add, ← Nat.two_mul]
      exact h.high
  · rename_i hgt
    refine ⟨h.eq, ?_⟩
    rw [← hlimit]
    exact Nat.mul_le_mul_right _ (Nat.succ_le_of_lt (Nat.lt_of_not_le hgt))

/-- **`nlz` normalises**: shifted by it, a word that is not zero starts with a one. -/
theorem nlz_spec {x : BitVec 32} (hx : x ≠ 0) :
    2 ^ 31 ≤ x.toNat * 2 ^ nlz x ∧ x.toNat * 2 ^ nlz x < 2 ^ 32 := by
  have hpos : 1 ≤ x.toNat := Nat.pos_of_ne_zero fun h0 => hx (BitVec.eq_of_toNat_eq h0)
  have h0 : Shifted x (2 * 16) (0, x) := ⟨by simp, Nat.le_mul_of_pos_left (2 ^ 32) hpos⟩
  have h4 := (((h0.step 16 0x0000FFFF rfl).step 8 0x00FFFFFF rfl).step 4 0x0FFFFFFF rfl).step 2
    0x3FFFFFFF rfl
  unfold nlz
  dsimp only
  generalize nlzStep 0x3FFFFFFF 2 _ = p at h4 ⊢
  obtain ⟨heq, hhigh⟩ := h4
  have hlt := p.2.isLt
  split
  · rename_i hle
    have hle : p.2.toNat ≤ 0x7FFFFFFF := hle
    have hone : x.toNat * 2 ^ (p.1 + 1) = p.2.toNat * 2 := by rw [heq, pow_succ, Nat.mul_assoc]
    rw [hone]
    omega
  · rename_i hgt
    have hgt : ¬ p.2.toNat ≤ 0x7FFFFFFF := hgt
    rw [← heq]
    omega

/-! ## Estimating a quotient -/

section Estimate

variable {n d e q : Nat}

/-- Dividing by a little less than `d` gives the quotient or one more. -/
theorem estimate_near (he : 0 < e) (hed : e ≤ d) (h : n / e * (d - e) ≤ d) :
    n / e = n / d ∨ n / e = n / d + 1 := by
  have hd : 0 < d := Nat.lt_of_lt_of_le he hed
  have hge : n / d ≤ n / e := Nat.div_le_div_left hed he
  have hmul : n / e * d ≤ n + d := by
    calc n / e * d = n / e * e + n / e * (d - e) := by rw [← Nat.mul_add, Nat.add_sub_cancel' hed]
      _ ≤ n + d := Nat.add_le_add (Nat.div_mul_le_self n e) h
  have hle : n / e - 1 ≤ n / d := by
    rw [Nat.le_div_iff_mul_le hd, Nat.sub_mul, Nat.one_mul]
    omega
  omega

/-- The last step of `udiv64` tells the two apart. -/
theorem correct_estimate (hd : 0 < d) (hn : d ≤ n) (hq : q = n / d ∨ q = n / d + 1) :
    1 ≤ q ∧ (q - 1) * d ≤ n ∧ (if n - (q - 1) * d < d then q - 1 else q) = n / d := by
  have hpos : 1 ≤ n / d := Nat.div_pos hn hd
  have hdm := Nat.div_add_mod' n d
  have hmod := Nat.mod_lt n hd
  rcases hq with rfl | rfl
  · have hmul : (n / d - 1) * d = n / d * d - d := by rw [Nat.sub_mul, Nat.one_mul]
    have hle : d ≤ n / d * d := Nat.le_mul_of_pos_left d hpos
    refine ⟨hpos, by omega, if_neg (by omega)⟩
  · rw [Nat.add_sub_cancel]
    exact ⟨by omega, by omega, if_pos (by omega)⟩

/-- What is known of the first 32 bits `v` of a divisor shifted by `s` bits: cut off after them, the
divisor is smaller by less than a bit that far to the left. -/
structure Leading (d s v : Nat) : Prop where
  shift : s ≤ 31
  norm : 2 ^ 63 ≤ d * 2 ^ s
  low : v * 2 ^ 32 ≤ d * 2 ^ s
  high : d * 2 ^ s < (v + 1) * 2 ^ 32

theorem Leading.near {s v : Nat} (h : Leading d s v) (hv : 2 ^ 31 ≤ v) (hn : n < 2 ^ 64) :
    n / 2 / v / 2 ^ (31 - s) = n / d ∨ n / 2 / v / 2 ^ (31 - s) = n / d + 1 := by
  obtain ⟨hs, hnorm, hlow, hhigh⟩ := h
  have hpow : 2 ^ (32 - s) * 2 ^ s = 2 ^ 32 := by rw [← pow_add]; congr 1; omega
  have hpow' : 2 * 2 ^ (31 - s) = 2 ^ (32 - s) := by rw [← pow_succ']; congr 1; omega
  have hq : n / 2 / v / 2 ^ (31 - s) = n / (v * 2 ^ (32 - s)) := by
    rw [Nat.div_div_eq_div_mul, Nat.div_div_eq_div_mul, ← hpow']
    congr 1
    ring
  have hed : v * 2 ^ (32 - s) ≤ d := by
    refine Nat.le_of_mul_le_mul_right ?_ (Nat.two_pow_pos s)
    rwa [Nat.mul_assoc, hpow]
  have hgap : d < v * 2 ^ (32 - s) + 2 ^ (32 - s) := by
    refine Nat.lt_of_mul_lt_mul_right (a := 2 ^ s) ?_
    rwa [← Nat.succ_mul, Nat.mul_assoc, hpow]
  rw [hq]
  refine estimate_near (Nat.mul_pos (by omega) (Nat.two_pow_pos _)) hed ?_
  have hsmall : n / (v * 2 ^ (32 - s)) < 2 * 2 ^ s := by
    refine Nat.div_lt_of_lt_mul (hn.trans_le ?_)
    calc 2 ^ 64 ≤ v * (2 ^ 32 * 2) := by omega
      _ = v * 2 ^ (32 - s) * (2 * 2 ^ s) := by rw [← hpow]; ring
  by_cases h31 : s = 31
  · -- the part cut off is a single bit
    subst h31
    calc n / (v * 2 ^ (32 - 31)) * (d - v * 2 ^ (32 - 31))
        ≤ n / (v * 2 ^ (32 - 31)) * 1 := Nat.mul_le_mul_left _ (by omega)
      _ ≤ d := by omega
  · have hbig : 2 ^ 33 ≤ d := by
      have hle : 2 ^ s ≤ 2 ^ 30 := Nat.pow_le_pow_right (by decide) (by omega)
      have := Nat.mul_le_mul_left d hle
      omega
    calc n / (v * 2 ^ (32 - s)) * (d - v * 2 ^ (32 - s))
        ≤ 2 * 2 ^ s * 2 ^ (32 - s) := Nat.mul_le_mul hsmall.le (by omega)
      _ = 2 * (2 ^ (32 - s) * 2 ^ s) := by ring
      _ ≤ d := by rw [hpow]; exact hbig

theorem schoolbook (b : Nat) (hd : 0 < d) :
    (b * (n / b % d) + n % b) / d + b * (n / b / d) = n / d := by
  have hsplit : n = d * (b * (n / b / d)) + (b * (n / b % d) + n % b) := by
    calc n = b * (n / b) + n % b := (Nat.div_add_mod n b).symm
      _ = b * (d * (n / b / d) + n / b % d) + n % b := by rw [Nat.div_add_mod (n / b) d]
      _ = d * (b * (n / b / d)) + (b * (n / b % d) + n % b) := by ring
  conv_rhs => rw [hsplit, Nat.mul_add_div hd]
  rw [Nat.add_comm]

end Estimate

/-! ## `udiv64` -/

variable {n d : BitVec 64}

theorem toNat_pos (hd : d ≠ 0) : 0 < d.toNat :=
  Nat.pos_of_ne_zero fun h0 => hd (BitVec.eq_of_toNat_eq h0)

theorem divl_eq {n : BitVec 64} {d : BitVec 32} (hd : 0 < d.toNat)
    (h : n.toNat < 2 ^ 32 * d.toNat) :
    ∃ q, divl n d = some q ∧ q.toNat = n.toNat / d.toNat := by
  have hq : n.toNat / d.toNat < 2 ^ 32 := Nat.div_lt_of_lt_mul (by rwa [Nat.mul_comm])
  refine ⟨BitVec.ofNat 32 (n.toNat / d.toNat), ?_, ?_⟩
  · have hne : d ≠ 0 := fun h0 => by
      rw [h0] at hd
      exact absurd hd (by decide)
    rw [divl, if_neg hne, if_pos hq]
  · rw [BitVec.toNat_ofNat, Nat.mod_eq_of_lt hq]

/-- A divisor of 32 bits: two steps of schoolbook division. -/
theorem udiv64_narrow (hd : d ≠ 0) (hlt : d.toNat < 2 ^ 32) :
    ∃ q, udiv64 n d = some q ∧ q.toNat = n.toNat / d.toNat := by
  have hpos := toNat_pos hd
  have hn := n.isLt
  have hhigh : d >>> 32 = 0 := BitVec.eq_of_toNat_eq (by
    rw [BitVec.toNat_ushiftRight, Nat.shiftRight_eq_div_pow, Nat.div_eq_of_lt hlt]
    rfl)
  have hd0 : (d.setWidth 32).toNat = d.toNat := by
    rw [BitVec.toNat_setWidth, Nat.mod_eq_of_lt hlt]
  have hn1 : ((n >>> 32).setWidth 32).toNat = n.toNat / 2 ^ 32 := by
    rw [BitVec.toNat_setWidth, BitVec.toNat_ushiftRight, Nat.shiftRight_eq_div_pow]
    omega
  have hb : ((1 : BitVec 64) <<< 32).toNat = 2 ^ 32 := rfl
  have hmod := Nat.mod_lt (n.toNat / 2 ^ 32) hpos
  have hdiv : n.toNat / 2 ^ 32 / d.toNat ≤ n.toNat / 2 ^ 32 := Nat.div_le_self _ _
  have hle : n.toNat / d.toNat ≤ n.toNat := Nat.div_le_self _ _
  have hschool := schoolbook (n := n.toNat) (2 ^ 32) hpos
  rw [udiv64, if_pos hhigh]
  dsimp only
  have hnum : ((1 : BitVec 64) <<< 32 * ((n >>> 32).setWidth 32 % d.setWidth 32).setWidth 64 +
      (n.setWidth 32).setWidth 64).toNat =
      2 ^ 32 * (n.toNat / 2 ^ 32 % d.toNat) + n.toNat % 2 ^ 32 := by
    rw [BitVec.toNat_add, BitVec.toNat_mul, hb, BitVec.toNat_setWidth, BitVec.toNat_umod, hn1, hd0,
      BitVec.toNat_setWidth, BitVec.toNat_setWidth]
    omega
  obtain ⟨q, hq, hqn⟩ := divl_eq (d := d.setWidth 32) (by rwa [hd0]) (hnum.trans_lt (by
    rw [hd0]
    omega))
  rw [hnum, hd0] at hqn
  refine ⟨_, by rw [hq]; rfl, ?_⟩
  rw [BitVec.toNat_add, BitVec.toNat_mul, hb, BitVec.toNat_setWidth, BitVec.toNat_setWidth,
    BitVec.toNat_udiv, hn1, hd0, hqn]
  omega

/-- The leading bits of a divisor of more than 32 bits. -/
theorem leading_nlz (hwide : 2 ^ 32 ≤ d.toNat) :
    Leading d.toNat (nlz ((d >>> 32).setWidth 32))
      (((d <<< nlz ((d >>> 32).setWidth 32)) >>> 32).setWidth 32 : BitVec 32).toNat ∧
    2 ^ 31 ≤ (((d <<< nlz ((d >>> 32).setWidth 32)) >>> 32).setWidth 32 : BitVec 32).toNat := by
  have hd := d.isLt
  have hd1 : ((d >>> 32).setWidth 32 : BitVec 32).toNat = d.toNat / 2 ^ 32 := by
    rw [BitVec.toNat_setWidth, BitVec.toNat_ushiftRight, Nat.shiftRight_eq_div_pow]
    omega
  have hne : ((d >>> 32).setWidth 32 : BitVec 32) ≠ 0 := fun h0 => by
    have := congrArg BitVec.toNat h0
    rw [hd1] at this
    simp at this
    omega
  obtain ⟨hlo, hhi⟩ := nlz_spec hne
  rw [hd1] at hlo hhi
  generalize nlz ((d >>> 32).setWidth 32) = s at hlo hhi ⊢
  have hs : s ≤ 31 := by
    by_contra hs
    have : 2 ^ 32 ≤ 2 ^ s := Nat.pow_le_pow_right (by decide) (by omega)
    have := Nat.mul_le_mul_left (d.toNat / 2 ^ 32) this
    omega
  have hpow : 2 ^ (32 - s) * 2 ^ s = 2 ^ 32 := by rw [← pow_add]; congr 1; omega
  -- the shift loses no bit
  have hfit : d.toNat * 2 ^ s < 2 ^ 64 := by
    have h1 : d.toNat / 2 ^ 32 + 1 ≤ 2 ^ (32 - s) := by
      refine Nat.succ_le_of_lt (Nat.lt_of_mul_lt_mul_right (a := 2 ^ s) ?_)
      rwa [hpow]
    calc d.toNat * 2 ^ s < (d.toNat / 2 ^ 32 + 1) * 2 ^ 32 * 2 ^ s :=
          Nat.mul_lt_mul_of_pos_right (by omega) (Nat.two_pow_pos s)
      _ ≤ 2 ^ (32 - s) * 2 ^ 32 * 2 ^ s :=
          Nat.mul_le_mul_right _ (Nat.mul_le_mul_right _ h1)
      _ = 2 ^ (32 - s) * 2 ^ s * 2 ^ 32 := by ring
      _ = 2 ^ 64 := by rw [hpow, ← pow_add]
  have hv : (((d <<< s) >>> 32).setWidth 32 : BitVec 32).toNat = d.toNat * 2 ^ s / 2 ^ 32 := by
    rw [BitVec.toNat_setWidth, BitVec.toNat_ushiftRight, Nat.shiftRight_eq_div_pow,
      BitVec.toNat_shiftLeft, Nat.shiftLeft_eq, Nat.mod_eq_of_lt hfit]
    omega
  have hnorm : 2 ^ 63 ≤ d.toNat * 2 ^ s := by
    calc 2 ^ 63 ≤ d.toNat / 2 ^ 32 * 2 ^ s * 2 ^ 32 := by omega
      _ = d.toNat / 2 ^ 32 * 2 ^ 32 * 2 ^ s := by ring
      _ ≤ d.toNat * 2 ^ s := Nat.mul_le_mul_right _ (Nat.div_mul_le_self _ _)
  rw [hv]
  exact ⟨⟨hs, hnorm, by omega, by omega⟩, by omega⟩

theorem udiv64_wide (hwide : 2 ^ 32 ≤ d.toNat) :
    ∃ q, udiv64 n d = some q ∧ q.toNat = n.toNat / d.toNat := by
  have hhigh : d >>> 32 ≠ 0 := fun h0 => by
    have := congrArg BitVec.toNat h0
    rw [BitVec.toNat_ushiftRight, Nat.shiftRight_eq_div_pow] at this
    simp at this
    omega
  have hn := n.isLt
  rw [udiv64, if_neg hhigh]
  by_cases hlt : n < d
  · rw [if_pos hlt]
    exact ⟨0, rfl, (Nat.div_eq_of_lt hlt).symm⟩
  rw [if_neg hlt]
  have hle : d.toNat ≤ n.toNat := Nat.le_of_not_lt hlt
  obtain ⟨hlead, hv⟩ := leading_nlz hwide
  have hhalf : (n >>> 1).toNat = n.toNat / 2 := by
    rw [BitVec.toNat_ushiftRight, Nat.shiftRight_eq_div_pow]
  dsimp only
  generalize nlz ((d >>> 32).setWidth 32) = s at hlead hv ⊢
  generalize (((d <<< s) >>> 32).setWidth 32 : BitVec 32) = v at hlead hv ⊢
  obtain ⟨q0, hq0, hq0n⟩ := divl_eq (n := n >>> 1) (d := v) (by omega) (by rw [hhalf]; omega)
  rw [hhalf] at hq0n
  have hnear := hlead.near hv hn
  obtain ⟨hq1, hqle, hres⟩ := correct_estimate (by omega) hle hnear
  have hq : ((q0 >>> (31 - s)).setWidth 64 : BitVec 64).toNat =
      n.toNat / 2 / v.toNat / 2 ^ (31 - s) := by
    rw [BitVec.toNat_setWidth, BitVec.toNat_ushiftRight, Nat.shiftRight_eq_div_pow, hq0n]
    refine Nat.mod_eq_of_lt (Nat.lt_of_le_of_lt (Nat.div_le_self _ _) ?_)
    rw [← hq0n]
    exact q0.isLt.trans (by decide)
  rw [hq0]
  refine ⟨_, rfl, ?_⟩
  dsimp only
  generalize ((q0 >>> (31 - s)).setWidth 64 : BitVec 64) = q at hq ⊢
  rw [← hq] at hq1 hqle hres
  have hqlt := q.isLt
  -- none of the operations wraps around
  have hpred : (q - 1).toNat = q.toNat - 1 := by
    rw [BitVec.toNat_sub]
    show (2 ^ 64 - 1 + q.toNat) % 2 ^ 64 = _
    omega
  have hrest : (n - (q - 1) * d).toNat = n.toNat - (q.toNat - 1) * d.toNat := by
    rw [BitVec.toNat_sub, BitVec.toNat_mul, hpred, Nat.mod_eq_of_lt (hqle.trans_lt hn)]
    omega
  rw [← hres]
  by_cases hc : n.toNat - (q.toNat - 1) * d.toNat < d.toNat
  · rw [if_pos hc, if_pos (show n - (q - 1) * d < d from hrest.trans_lt hc), hpred]
  · rw [if_neg hc, if_neg fun h : n - (q - 1) * d < d => hc (hrest.symm.trans_lt h)]

/-- **`udiv64` does not trap, and divides.** -/
theorem udiv64_eq (hd : d ≠ 0) : udiv64 n d = some (n / d) := by
  have hex : ∃ q, udiv64 n d = some q ∧ q.toNat = n.toNat / d.toNat := by
    by_cases hlt : d.toNat < 2 ^ 32
    · exact udiv64_narrow hd hlt
    · exact udiv64_wide (Nat.le_of_not_lt hlt)
  obtain ⟨q, hq, hqn⟩ := hex
  rw [hq]
  exact congrArg some (BitVec.eq_of_toNat_eq (hqn.trans BitVec.toNat_udiv.symm))

/-! ## Signs and remainders -/

/-- **`sdiv64` does not trap, and divides.** -/
theorem sdiv64_eq (hd : d ≠ 0) : sdiv64 n d = some (n.sdiv d) := by
  have hneg : -d ≠ 0 := fun h => hd (by simpa using h)
  have hsign : ∀ x : BitVec 64, x.slt 0 = x.msb := fun x => BitVec.slt_zero_eq_msb
  rw [sdiv64, hsign, hsign, BitVec.sdiv_eq]
  cases n.msb <;> cases d.msb <;> simp [udiv64_eq hd, udiv64_eq hneg]

theorem umod_eq_sub : n - d * (n / d) = n % d := by
  have hn := n.isLt
  have hmul : d.toNat * (n.toNat / d.toNat) ≤ n.toNat := Nat.mul_div_le _ _
  have hdm := Nat.div_add_mod n.toNat d.toNat
  refine BitVec.eq_of_toNat_eq ?_
  rw [BitVec.toNat_sub, BitVec.toNat_mul, BitVec.toNat_udiv, BitVec.toNat_umod,
    Nat.mod_eq_of_lt (hmul.trans_lt hn)]
  omega

/-- The remainder of `sdiv` is that of the absolute values, with the sign of `n`. -/
theorem srem_eq_sub : n - d * n.sdiv d = n.srem d := by
  rw [BitVec.sdiv_eq, BitVec.srem_eq]
  cases n.msb <;> cases d.msb <;> dsimp only
  · exact umod_eq_sub
  · rw [← umod_eq_sub, BitVec.udiv_eq]
    ring
  · rw [← umod_eq_sub, BitVec.udiv_eq]
    ring
  · rw [← umod_eq_sub, BitVec.udiv_eq]
    ring

theorem umod64_eq (hd : d ≠ 0) : umod64 n d = some ((n % d).setWidth 32) := by
  rw [umod64, udiv64_eq hd, Option.map_some, umod_eq_sub]

theorem smod64_eq (hd : d ≠ 0) : smod64 n d = some ((n.srem d).setWidth 32) := by
  rw [smod64, sdiv64_eq hd, Option.map_some, srem_eq_sub]

/-- **64-bit division is exact.** For a divisor that is not zero no `divl` traps, the unsigned
quotient is the floor of `n / d`, and the signed one is `n / d` truncated toward zero but for the
pair that overflows. -/
theorem division_exact (n d : BitVec 64) (hd : d ≠ 0) :
    (∃ q, udiv64 n d = some q ∧ q.toNat = n.toNat / d.toNat) ∧
    (¬ (n = BitVec.intMin 64 ∧ d = -1) →
      ∃ q, sdiv64 n d = some q ∧ q.toInt = n.toInt.tdiv d.toInt) := by
  refine ⟨⟨n / d, udiv64_eq hd, BitVec.toNat_udiv⟩, fun hpair => ⟨n.sdiv d, sdiv64_eq hd, ?_⟩⟩
  exact BitVec.toInt_sdiv_of_ne_or_ne n d (not_and_or.mp hpair)

/-- The largest dividend and a divisor of 33 bits. -/
theorem division_exact_max :
    ∃ q, udiv64 0xFFFFFFFFFFFFFFFF 0x100000001 = some q ∧
      q.toNat = 0xFFFFFFFFFFFFFFFF / 0x100000001 :=
  (division_exact 0xFFFFFFFFFFFFFFFF 0x100000001 (by decide)).1

/-! ### Remainders of 32 bits -/

/-- What the unsigned routines owe each other. -/
def UnsignedAgree (n d : BitVec 64) : Prop :=
  ∃ q r, udivdi3 n d = some q ∧ umoddi3 n d = some r ∧
    (r.toNat : Int) = n.toNat - d.toNat * q.toNat ∧ r.toNat < d.toNat

/-- What the signed routines owe each other. -/
def SignedAgree (n d : BitVec 64) : Prop :=
  ∃ q r, divdi3 n d = some q ∧ moddi3 n d = some r ∧ r.toInt = n.toInt - d.toInt * q.toInt ∧
    (0 ≤ n.toInt → 0 ≤ r.toInt) ∧ (n.toInt ≤ 0 → r.toInt ≤ 0) ∧ r.toInt.natAbs < d.toInt.natAbs

theorem unsignedAgree_iff (hd : d ≠ 0) : UnsignedAgree n d ↔ n.toNat % d.toNat < 2 ^ 32 := by
  have hmod := Nat.mod_lt n.toNat (toNat_pos hd)
  have hrest : (n.toNat : Int) - d.toNat * (n / d).toNat = (n.toNat % d.toNat : Nat) := by
    rw [BitVec.toNat_udiv, ← Int.natCast_mul]
    have := Nat.div_add_mod n.toNat d.toNat
    omega
  -- the remainder, cut off after 32 bits
  have hr : (((n % d).setWidth 32 : BitVec 32).setWidth 64 : BitVec 64).toNat =
      n.toNat % d.toNat % 2 ^ 32 := by
    rw [BitVec.toNat_setWidth, BitVec.toNat_setWidth, BitVec.toNat_umod]
    omega
  constructor
  · rintro ⟨q, r, hq, hr', heq, -⟩
    rw [udivdi3, udiv64_eq hd] at hq
    rw [umoddi3, umod64_eq hd] at hr'
    cases hq
    cases hr'
    rw [hr, hrest] at heq
    omega
  · intro hlt
    refine ⟨n / d, _, udiv64_eq hd, by rw [umoddi3, umod64_eq hd]; rfl, ?_, ?_⟩
    · rw [hr, hrest, Nat.mod_eq_of_lt hlt]
    · rw [hr, Nat.mod_eq_of_lt hlt]
      exact hmod

theorem signedAgree_iff (hd : d ≠ 0) (hpair : ¬ (n = BitVec.intMin 64 ∧ d = -1)) :
    SignedAgree n d ↔ -2 ^ 31 ≤ n.toInt.tmod d.toInt ∧ n.toInt.tmod d.toInt < 2 ^ 31 := by
  have hq : (n.sdiv d).toInt = n.toInt.tdiv d.toInt :=
    BitVec.toInt_sdiv_of_ne_or_ne n d (not_and_or.mp hpair)
  have hd0 : d.toInt ≠ 0 := fun h => hd (BitVec.eq_of_toInt_eq h)
  have hrest : n.toInt - d.toInt * (n.sdiv d).toInt = n.toInt.tmod d.toInt := by
    rw [hq, Int.tmod_def]
  -- the remainder, cut off after 32 bits and extended by its sign
  have hr : (((n.srem d).setWidth 32 : BitVec 32).signExtend 64 : BitVec 64).toInt =
      (n.toInt.tmod d.toInt).bmod (2 ^ 32) := by
    rw [BitVec.toInt_signExtend_of_le (by decide), ← BitVec.toInt_srem, BitVec.toInt_setWidth,
      BitVec.toInt_eq_toNat_bmod, Int.bmod_bmod_of_dvd (by decide)]
  constructor
  · rintro ⟨q, r, hq', hr', heq, -⟩
    rw [divdi3, sdiv64_eq hd] at hq'
    rw [moddi3, smod64_eq hd] at hr'
    cases hq'
    cases hr'
    rw [hr, hrest] at heq
    have hge := Int.le_bmod (x := n.toInt.tmod d.toInt) (m := 2 ^ 32) (by decide)
    have hle := Int.bmod_le (x := n.toInt.tmod d.toInt) (m := 2 ^ 32) (by decide)
    omega
  · intro hfit
    refine ⟨n.sdiv d, _, sdiv64_eq hd, by rw [moddi3, smod64_eq hd]; rfl, ?_, ?_, ?_, ?_⟩ <;>
      rw [hr, Int.bmod_eq_of_le (by omega) (by omega)]
    · exact hrest.symm
    · exact fun h => Int.tmod_nonneg _ h
    · intro h
      have := Int.tmod_nonneg d.toInt (Int.neg_nonneg_of_nonpos h)
      rw [Int.neg_tmod] at this
      omega
    · rw [Int.natAbs_tmod]
      exact Nat.mod_lt _ (Int.natAbs_pos.mpr hd0)

/-- **64-bit remainders are exact as long as they fit 32 bits**, which is what the helpers return:
the unsigned one below `2 ^ 32`, the signed one from `-2 ^ 31` to `2 ^ 31 - 1`. -/
theorem remainder_exact_iff (n d : BitVec 64) (hd : d ≠ 0) :
    (UnsignedAgree n d ↔ n.toNat % d.toNat < 2 ^ 32) ∧
    (¬ (n = BitVec.intMin 64 ∧ d = -1) →
      (SignedAgree n d ↔ -2 ^ 31 ≤ n.toInt.tmod d.toInt ∧ n.toInt.tmod d.toInt < 2 ^ 31)) :=
  ⟨unsignedAgree_iff hd, signedAgree_iff hd⟩

/-- The divisors of the printing code. -/
theorem remainder_exact_ten : UnsignedAgree 0xFFFFFFFFFFFFFFFF 10 :=
  (remainder_exact_iff 0xFFFFFFFFFFFFFFFF 10 (by decide)).1.mpr (by decide)

/-- `2 ^ 32 % 2 ^ 33` is `0`, and `2 ^ 31 % 2 ^ 32`, signed, is `-2 ^ 31`. -/
theorem remainder_cut :
    udivdi3 0x100000000 0x200000000 = some 0 ∧ umoddi3 0x100000000 0x200000000 = some 0 ∧
    divdi3 0x80000000 0x100000000 = some 0 ∧
    moddi3 0x80000000 0x100000000 = some (-0x80000000) := by
  decide +kernel

end SystemProg.Pintos.Arithmetic
