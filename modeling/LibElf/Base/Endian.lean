import Mathlib.Tactic.Common
import Mathlib.Tactic.Ring

/-!
# Fixed-width integers as bytes

A number as exactly `w` bytes, in either byte order, and back.

1. `toBytes` and `ofBytes`, inverse to each other up to the width: `ofBytes_toBytes`,
   `toBytes_ofBytes`.
2. `reverse_toBytes`: the other byte order is the reversed string.
3. `swapWord`, the shift-and-or loop of a byte-swapping macro, and `toBytes_swapWord`: swapping a
   number reverses its bytes.
-/

namespace LibElf

/-- The order of the bytes of a number in memory or in a file. -/
inductive ByteOrder
  | little
  | big
deriving DecidableEq, Repr

def ByteOrder.flip : ByteOrder → ByteOrder
  | .little => .big
  | .big => .little

/-- The `w` low bytes of `n`, least significant first. -/
def leBytes : Nat → Nat → List UInt8
  | 0, _ => []
  | w + 1, n => UInt8.ofNat n :: leBytes w (n / 256)

/-- The number with the given bytes, least significant first. -/
def ofLeBytes : List UInt8 → Nat
  | [] => 0
  | b :: bs => b.toNat + 256 * ofLeBytes bs

def toBytes : ByteOrder → Nat → Nat → List UInt8
  | .little, w, n => leBytes w n
  | .big, w, n => (leBytes w n).reverse

def ofBytes : ByteOrder → List UInt8 → Nat
  | .little, bs => ofLeBytes bs
  | .big, bs => ofLeBytes bs.reverse

@[simp] theorem length_leBytes (w n : Nat) : (leBytes w n).length = w := by
  induction w generalizing n with
  | zero => rfl
  | succ w ih => simp [leBytes, ih]

@[simp] theorem length_toBytes (o : ByteOrder) (w n : Nat) : (toBytes o w n).length = w := by
  cases o <;> simp [toBytes]

theorem ofLeBytes_lt (bs : List UInt8) : ofLeBytes bs < 256 ^ bs.length := by
  induction bs with
  | nil => simp [ofLeBytes]
  | cons b bs ih =>
    have hb : b.toNat < 256 := b.toNat_lt
    rw [ofLeBytes, List.length_cons, Nat.pow_succ]
    omega

theorem ofBytes_lt (o : ByteOrder) (bs : List UInt8) : ofBytes o bs < 256 ^ bs.length := by
  cases o with
  | little => exact ofLeBytes_lt bs
  | big => simpa [ofBytes] using ofLeBytes_lt bs.reverse

theorem ofLeBytes_leBytes (w n : Nat) : ofLeBytes (leBytes w n) = n % 256 ^ w := by
  induction w generalizing n with
  | zero => simp [leBytes, ofLeBytes, Nat.mod_one]
  | succ w ih =>
    rw [leBytes, ofLeBytes, ih, Nat.pow_succ, Nat.mul_comm (256 ^ w), Nat.mod_mul]
    simp

theorem leBytes_ofLeBytes (bs : List UInt8) : leBytes bs.length (ofLeBytes bs) = bs := by
  induction bs with
  | nil => rfl
  | cons b bs ih =>
    have hb : b.toNat < 256 := b.toNat_lt
    have hdiv : (b.toNat + 256 * ofLeBytes bs) / 256 = ofLeBytes bs := by omega
    have hlow : UInt8.ofNat (b.toNat + 256 * ofLeBytes bs) = b := by
      apply UInt8.toNat_inj.mp
      rw [UInt8.toNat_ofNat']
      omega
    rw [List.length_cons, ofLeBytes, leBytes, hdiv, hlow, ih]

/-- Reading back what was written gives the number, cut to the width. -/
theorem ofBytes_toBytes (o : ByteOrder) (w n : Nat) : ofBytes o (toBytes o w n) = n % 256 ^ w := by
  cases o with
  | little => exact ofLeBytes_leBytes w n
  | big => simp [ofBytes, toBytes, ofLeBytes_leBytes]

theorem ofLeBytes_concat (bs : List UInt8) (b : UInt8) :
    ofLeBytes (bs ++ [b]) = ofLeBytes bs + 256 ^ bs.length * b.toNat := by
  induction bs with
  | nil => simp [ofLeBytes]
  | cons c bs ih =>
    rw [List.cons_append, ofLeBytes, ih, ofLeBytes, List.length_cons, Nat.pow_succ]
    ring

/-- Writing back what was read gives the bytes. -/
theorem toBytes_ofBytes (o : ByteOrder) (bs : List UInt8) :
    toBytes o bs.length (ofBytes o bs) = bs := by
  cases o with
  | little => exact leBytes_ofLeBytes bs
  | big =>
    have h := leBytes_ofLeBytes bs.reverse
    rw [List.length_reverse] at h
    simp [ofBytes, toBytes, h]

/-- The other byte order is the reversed string. -/
theorem reverse_toBytes (o : ByteOrder) (w n : Nat) :
    (toBytes o w n).reverse = toBytes o.flip w n := by
  cases o <;> simp [toBytes, ByteOrder.flip]

theorem ofBytes_reverse (o : ByteOrder) (bs : List UInt8) :
    ofBytes o bs.reverse = ofBytes o.flip bs := by
  cases o <;> simp [ofBytes, ByteOrder.flip]

@[simp] theorem flip_flip (o : ByteOrder) : o.flip.flip = o := by
  cases o <;> rfl

/-! ## Swapping -/

/-- The steps `_t <<= 8; _x >>= 8; _t |= _x & 0xFF` of a swapping macro. -/
def swapSteps : Nat → Nat → Nat → Nat
  | 0, t, _ => t
  | n + 1, t, x => swapSteps n ((t <<< 8) ||| ((x >>> 8) &&& 0xFF)) (x >>> 8)

/-- The byte-swapping macro for a number of `w` bytes. -/
def swapWord (w x : Nat) : Nat := swapSteps (w - 1) (x &&& 0xFF) x

theorem swapSteps_eq (n t x : Nat) :
    swapSteps n t x = t * 256 ^ n + ofLeBytes (leBytes n (x / 256)).reverse := by
  induction n generalizing t x with
  | zero => simp [swapSteps, leBytes, ofLeBytes]
  | succ n ih =>
    have hand : (x >>> 8) &&& 0xFF = x / 256 % 256 := by
      rw [Nat.shiftRight_eq_div_pow]
      exact Nat.and_two_pow_sub_one_eq_mod (x / 2 ^ 8) 8
    have hor : (t <<< 8) ||| (x / 256 % 256) = t * 256 + x / 256 % 256 := by
      rw [← Nat.shiftLeft_add_eq_or_of_lt (Nat.mod_lt _ (by decide)), Nat.shiftLeft_eq]
    have hlow : (UInt8.ofNat (x / 256)).toNat = x / 256 % 256 := by simp
    rw [swapSteps, hand, hor, Nat.shiftRight_eq_div_pow, ih, leBytes, List.reverse_cons, ofLeBytes_concat,
      List.length_reverse, length_leBytes, hlow]
    ring

/-- Swapping a number reverses its bytes. -/
theorem toBytes_swapWord (o : ByteOrder) {w : Nat} (hw : 0 < w) (x : Nat) :
    toBytes o w (swapWord w x) = (toBytes o w x).reverse := by
  obtain ⟨n, rfl⟩ : ∃ n, w = n + 1 := ⟨w - 1, by omega⟩
  have hand : x &&& 0xFF = x % 256 := Nat.and_two_pow_sub_one_eq_mod x 8
  have hval : swapWord (n + 1) x = ofLeBytes (leBytes (n + 1) x).reverse := by
    have hlow : (UInt8.ofNat x).toNat = x % 256 := by simp
    rw [swapWord, Nat.add_sub_cancel, swapSteps_eq, hand, leBytes, List.reverse_cons, ofLeBytes_concat,
      List.length_reverse, length_leBytes, hlow]
    ring
  have hle : leBytes (n + 1) (swapWord (n + 1) x) = (leBytes (n + 1) x).reverse := by
    have h := leBytes_ofLeBytes (leBytes (n + 1) x).reverse
    rw [List.length_reverse, length_leBytes] at h
    rw [hval, h]
  cases o with
  | little => exact hle
  | big => simp [toBytes, hle]

end LibElf
