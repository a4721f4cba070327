import Mathlib.Tactic.Common
import Mathlib.Tactic.Linarith
import Mathlib.Tactic.Ring

/-!
# Machine words

Unsigned 64-bit arithmetic on natural numbers, with the wrap-around written out, and signed
64-bit values as the same bit patterns: a pattern from `2 ^ 63` up stands for a negative number.

1. `wrap` and its simplification rules; `isNeg` and `sgt` read a pattern as a signed number.
2. `roundUp`, the macro `roundup(x, y)` computed in wrapping arithmetic, `roundUpSigned`, the same on
   signed numbers, and `ceilTo`, the least multiple at or above a number. `roundUp_eq_ceilTo` and
   `roundUpSigned_eq_ceilTo` say when they agree.
3. `isPow2`, the test `a != 0 && (a & (a - 1)) == 0`, and what it means.
-/

namespace LibElf

/-- The value of an unsigned 64-bit sum or product. -/
def wrap (n : Nat) : Nat := n % 2 ^ 64

theorem wrap_lt (n : Nat) : wrap n < 2 ^ 64 := Nat.mod_lt _ (by decide)

@[simp] theorem wrap_of_lt {n : Nat} (h : n < 2 ^ 64) : wrap n = n := Nat.mod_eq_of_lt h

/-- A sum of two words that wraps drops below both of them. -/
theorem wrap_add_of_le {a b : Nat} (ha : a < 2 ^ 64) (hb : b < 2 ^ 64) (h : 2 ^ 64 ≤ a + b) :
    wrap (a + b) = a + b - 2 ^ 64 := by
  unfold wrap
  omega

/-- The bit pattern of a negative signed number. -/
def isNeg (n : Nat) : Bool := decide (2 ^ 63 ≤ n)

@[simp] theorem isNeg_eq_false {n : Nat} : isNeg n = false ↔ n < 2 ^ 63 := by
  simp [isNeg]

@[simp] theorem isNeg_eq_true {n : Nat} : isNeg n = true ↔ 2 ^ 63 ≤ n := by
  simp [isNeg]

/-- The signed comparison `a > b` of two bit patterns. -/
def sgt (a b : Nat) : Bool :=
  match isNeg a, isNeg b with
  | false, true => true
  | true, false => false
  | _, _ => decide (b < a)

theorem sgt_of_nonneg {a b : Nat} (ha : a < 2 ^ 63) (hb : b < 2 ^ 63) :
    sgt a b = decide (b < a) := by
  have ha' := isNeg_eq_false.mpr ha
  have hb' := isNeg_eq_false.mpr hb
  simp [sgt, ha', hb']

theorem sgt_of_neg {a b : Nat} (ha : 2 ^ 63 ≤ a) (hb : b < 2 ^ 63) : sgt a b = false := by
  have ha' := isNeg_eq_true.mpr ha
  have hb' := isNeg_eq_false.mpr hb
  simp [sgt, ha', hb']

/-! ## Rounding -/

/-- The least multiple of `y` at or above `x`. -/
def ceilTo (x y : Nat) : Nat := (x + (y - 1)) / y * y

theorem le_ceilTo {x y : Nat} (hy : 0 < y) : x ≤ ceilTo x y := by
  unfold ceilTo
  have h := Nat.div_add_mod (x + (y - 1)) y
  have hlt := Nat.mod_lt (x + (y - 1)) hy
  rw [Nat.mul_comm] at h
  omega

theorem ceilTo_lt {x y : Nat} (hy : 0 < y) : ceilTo x y < x + y := by
  unfold ceilTo
  have := Nat.div_mul_le_self (x + (y - 1)) y
  omega

theorem dvd_ceilTo (x y : Nat) : y ∣ ceilTo x y := Dvd.intro_left _ rfl

/-- A multiple of `y` is its own rounding. -/
theorem ceilTo_of_dvd {x y : Nat} (hy : 0 < y) (h : y ∣ x) : ceilTo x y = x := by
  obtain ⟨k, rfl⟩ := h
  have : (y * k + (y - 1)) / y = k := by
    rw [Nat.mul_add_div hy, Nat.div_eq_of_lt (by omega), Nat.add_zero]
  simp [ceilTo, this, Nat.mul_comm]

/-- `roundup(x, y)` on unsigned 64-bit numbers; `y` must not be zero. -/
def roundUp (x y : Nat) : Nat := wrap (wrap (x + wrap (y + (2 ^ 64 - 1))) / y * y)

/-- Without a carry out of the sum, `roundup` is the least multiple. -/
theorem roundUp_eq_ceilTo {x y : Nat} (hy : 0 < y) (hy64 : y < 2 ^ 64)
    (h : x + (y - 1) < 2 ^ 64) : roundUp x y = ceilTo x y := by
  have h1 : wrap (y + (2 ^ 64 - 1)) = y - 1 := by
    unfold wrap
    omega
  have h2 : ceilTo x y ≤ x + (y - 1) := by
    have : ceilTo x y < x + y := ceilTo_lt hy
    omega
  unfold roundUp
  rw [h1, wrap_of_lt h]
  exact wrap_of_lt (Nat.lt_of_le_of_lt h2 h)

/-- A multiple of `y` at or above `x` is at or above the least one. -/
theorem ceilTo_le_of_dvd {x y z : Nat} (hy : 0 < y) (hz : y ∣ z) (h : x ≤ z) : ceilTo x y ≤ z := by
  obtain ⟨k, rfl⟩ := hz
  have hk : (x + (y - 1)) / y ≤ k := by
    rw [Nat.div_le_iff_le_mul hy, Nat.mul_comm k y]
    omega
  rw [ceilTo, Nat.mul_comm y k]
  exact Nat.mul_le_mul_right y hk

theorem le_ceilTo_of_pos {x y : Nat} (hx : 0 < x) : y ≤ ceilTo x y := by
  rcases Nat.eq_zero_or_pos y with rfl | hy
  · exact Nat.zero_le _
  · have hpos : 0 < (x + (y - 1)) / y := Nat.div_pos (by omega) hy
    exact Nat.le_mul_of_pos_left y hpos

/-- When the least multiple is below `2 ^ 63`, `roundup` finds it. -/
theorem roundUp_eq_of_ceilTo_lt {x y : Nat} (hx : 0 < x) (hy : 0 < y) (h : ceilTo x y < 2 ^ 63) :
    roundUp x y = ceilTo x y := by
  have hle : x ≤ ceilTo x y := le_ceilTo hy
  have hle' : y ≤ ceilTo x y := le_ceilTo_of_pos hx
  exact roundUp_eq_ceilTo hy (by omega) (by omega)

/-- `roundup(x, y)` on signed 64-bit numbers, where the sum wraps: the quotient of a negative number is rounded
towards zero. -/
def roundUpSigned (x y : Nat) : Nat :=
  let s := wrap (x + (y - 1))
  if isNeg s then wrap (2 ^ 64 - (2 ^ 64 - s) / y * y) else s / y * y

/-- Without a carry into the sign, `roundup` is the least multiple. -/
theorem roundUpSigned_eq_ceilTo {x y : Nat} (h : x + (y - 1) < 2 ^ 63) : roundUpSigned x y = ceilTo x y := by
  unfold roundUpSigned
  rw [wrap_of_lt (Nat.lt_trans h (by decide))]
  dsimp only
  rw [isNeg_eq_false.mpr h]
  rfl

/-- A carry into the sign gives a negative number. -/
theorem roundUpSigned_neg {x y : Nat} (hx : x < 2 ^ 63) (hy : y ≤ 2 ^ 62) (h : 2 ^ 63 ≤ x + (y - 1)) :
    2 ^ 63 ≤ roundUpSigned x y ∧ roundUpSigned x y < 2 ^ 63 + 2 * y := by
  have hpos : 0 < y := by omega
  have hone : 1 ≤ (2 ^ 64 - (x + (y - 1))) / y := (Nat.one_le_div_iff hpos).mpr (by omega)
  have hle := Nat.div_mul_le_self (2 ^ 64 - (x + (y - 1))) y
  have hlt := @Nat.lt_div_mul_add (2 ^ 64 - (x + (y - 1))) y hpos
  have hmul := Nat.mul_le_mul_right y hone
  unfold roundUpSigned
  rw [wrap_of_lt (by omega)]
  dsimp only
  rw [isNeg_eq_true.mpr h, if_pos rfl]
  generalize (2 ^ 64 - (x + (y - 1))) / y * y = q at hle hlt hmul ⊢
  rw [wrap_of_lt (by omega)]
  omega

/-! ## Powers of two -/

/-- The test for an alignment: not zero, and one bit set. -/
def isPow2 (a : Nat) : Bool := decide (a ≠ 0) && decide (a &&& (a - 1) = 0)

theorem isPow2_iff {a : Nat} : isPow2 a = true ↔ ∃ k, a = 2 ^ k := by
  rw [isPow2, Bool.and_eq_true, decide_eq_true_eq, decide_eq_true_eq]
  exact Nat.ne_zero_and_sub_one_eq_zero_iff_isPowerOfTwo

theorem pos_of_isPow2 {a : Nat} (h : isPow2 a = true) : 0 < a := by
  obtain ⟨k, rfl⟩ := isPow2_iff.mp h
  exact Nat.two_pow_pos k

/-- A power of two in 64 bits divides `2 ^ 63`. -/
theorem dvd_of_isPow2_lt {a : Nat} (ha : isPow2 a = true) (h : a < 2 ^ 64) : a ∣ 2 ^ 63 := by
  obtain ⟨k, rfl⟩ := isPow2_iff.mp ha
  have hk : k < 64 := (Nat.pow_lt_pow_iff_right (by decide)).mp h
  exact Nat.pow_dvd_pow 2 (by omega)

/-- Rounding a number up to `2 ^ 63` to a power of two does not wrap, and stays up to `2 ^ 63`. -/
theorem roundUp_pow2 {x y : Nat} (hx : x ≤ 2 ^ 63) (hy : isPow2 y = true) (hlt : y < 2 ^ 64) :
    roundUp x y = ceilTo x y ∧ ceilTo x y ≤ 2 ^ 63 := by
  have hpos := pos_of_isPow2 hy
  have hdvd := dvd_of_isPow2_lt hy hlt
  have hle : y ≤ 2 ^ 63 := Nat.le_of_dvd (by decide) hdvd
  refine ⟨roundUp_eq_ceilTo hpos hlt (by omega), ceilTo_le_of_dvd hpos hdvd hx⟩

end LibElf
