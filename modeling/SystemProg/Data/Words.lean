import Mathlib.Algebra.Group.Nat.Defs
import Mathlib.Data.List.Basic
import SystemProg.Text.CString

/-!
# Numbers and bits as bytes

Little-endian words, arrays of bits packed eight to a byte, the lowest first, and arrays of bytes
packed in one number, of which `byteAt` and `setByteAt` are the elements.
-/

namespace SystemProg.Data

open Text (Byte)

/-- `n` in `k` bytes, little-endian. -/
def toLE : Nat → Nat → List Byte
  | 0, _ => []
  | k + 1, n => UInt8.ofNat n :: toLE k (n / 256)

/-- The number that little-endian bytes hold. -/
def fromLE : List Byte → Nat
  | [] => 0
  | b :: bs => b.toNat + 256 * fromLE bs

@[simp] theorem length_toLE (k n : Nat) : (toLE k n).length = k := by
  induction k generalizing n with
  | zero => rfl
  | succ k ih => simp [toLE, ih]

theorem fromLE_toLE {k n : Nat} (h : n < 256 ^ k) : fromLE (toLE k n) = n := by
  induction k generalizing n with
  | zero =>
    simp only [Nat.pow_zero, Nat.lt_one_iff] at h
    rw [h]
    rfl
  | succ k ih =>
    have hk : n / 256 < 256 ^ k := Nat.div_lt_of_lt_mul (by rwa [Nat.pow_succ, Nat.mul_comm] at h)
    have hb : (UInt8.ofNat n).toNat = n % 256 := by simp
    rw [toLE, fromLE, ih hk, hb]
    exact Nat.mod_add_div n 256

/-- Eight bits in a byte. -/
def byteOf (a b c d e f g h : Bool) : Byte :=
  UInt8.ofNat ([a, b, c, d, e, f, g, h].foldr (fun x n => x.toNat + 2 * n) 0)

/-- The bits of a byte. -/
def bitsOf (b : Byte) : List Bool := (List.range 8).map b.toNat.testBit

theorem bitsOf_byteOf : ∀ a b c d e f g h : Bool,
    bitsOf (byteOf a b c d e f g h) = [a, b, c, d, e, f, g, h] := by
  decide

/-- An array of bits as bytes. -/
def packBits : List Bool → List Byte
  | a :: b :: c :: d :: e :: f :: g :: h :: rest => byteOf a b c d e f g h :: packBits rest
  | _ => []

/-- Bytes as an array of bits. -/
def unpackBits (bs : List Byte) : List Bool := bs.flatMap bitsOf

theorem packBits_spec (k : Nat) {l : List Bool} (h : l.length = 8 * k) :
    (packBits l).length = k ∧ unpackBits (packBits l) = l := by
  induction k generalizing l with
  | zero =>
    rw [List.length_eq_zero_iff.mp h]
    exact ⟨rfl, rfl⟩
  | succ k ih =>
    match l, h with
    | a :: b :: c :: d :: e :: f :: g :: i :: rest, h =>
      obtain ⟨hlen, hrest⟩ := ih (l := rest) (by simp only [List.length_cons] at h; omega)
      refine ⟨by rw [packBits, List.length_cons, hlen], ?_⟩
      rw [packBits, unpackBits, List.flatMap_cons, bitsOf_byteOf]
      exact congrArg ([a, b, c, d, e, f, g, i] ++ ·) hrest

/-! ## The bytes of a number -/

/-- A byte of a number. -/
def byteAt (n i : Nat) : Nat := n / 256 ^ i % 256

/-- A byte is replaced. -/
def setByteAt (n i v : Nat) : Nat := n / 256 ^ (i + 1) * 256 ^ (i + 1) + v * 256 ^ i + n % 256 ^ i

variable {n i k v : Nat}

theorem byteAt_lt (n i : Nat) : byteAt n i < 256 := Nat.mod_lt _ (by decide)

/-- A byte is decided by what is above it and by what is below it. -/
theorem byteAt_of_mod {m : Nat} (h : m % 256 ^ (k + 1) = n % 256 ^ (k + 1)) :
    byteAt m k = byteAt n k := by
  rw [byteAt, byteAt, ← Nat.mod_mul_right_div_self, ← Nat.mod_mul_right_div_self, ← Nat.pow_succ, h]

theorem byteAt_of_div {m : Nat} (h : m / 256 ^ (i + 1) = n / 256 ^ (i + 1)) (hk : i < k) :
    byteAt m k = byteAt n k := by
  obtain ⟨d, rfl⟩ : ∃ d, k = i + 1 + d := ⟨k - (i + 1), by omega⟩
  rw [byteAt, byteAt, Nat.pow_add, ← Nat.div_div_eq_div_mul, ← Nat.div_div_eq_div_mul, h]

theorem setByteAt_eq (n i v : Nat) :
    setByteAt n i v = n % 256 ^ i + 256 ^ i * (n / 256 ^ (i + 1) * 256 + v) := by
  rw [setByteAt, Nat.mul_add, Nat.add_comm, Nat.mul_comm v]
  congr 2
  rw [Nat.mul_left_comm, ← Nat.pow_succ]

theorem setByteAt_mod (n i v : Nat) : setByteAt n i v % 256 ^ i = n % 256 ^ i := by
  rw [setByteAt_eq, Nat.add_mul_mod_self_left, Nat.mod_mod]

theorem setByteAt_div (n i v : Nat) :
    setByteAt n i v / 256 ^ i = n / 256 ^ (i + 1) * 256 + v := by
  have hpos : 0 < 256 ^ i := Nat.pow_pos (by decide)
  rw [setByteAt_eq, Nat.add_mul_div_left _ _ hpos, Nat.div_eq_of_lt (Nat.mod_lt _ hpos),
    Nat.zero_add]

theorem byteAt_setByteAt (hv : v < 256) :
    byteAt (setByteAt n i v) k = if k = i then v else byteAt n k := by
  split
  · rename_i hk
    rw [hk, byteAt, setByteAt_div]
    omega
  · rename_i hk
    rcases Nat.lt_or_gt_of_ne hk with hlt | hgt
    · apply byteAt_of_mod
      have hdvd : 256 ^ (k + 1) ∣ 256 ^ i := Nat.pow_dvd_pow _ hlt
      rw [← Nat.mod_mod_of_dvd _ hdvd, setByteAt_mod, Nat.mod_mod_of_dvd _ hdvd]
    · refine byteAt_of_div ?_ hgt
      have hsplit : ∀ m, m / 256 ^ (i + 1) = m / 256 ^ i / 256 := fun m => by
        rw [Nat.pow_succ, Nat.div_div_eq_div_mul]
      rw [hsplit, setByteAt_div]
      omega

end SystemProg.Data
