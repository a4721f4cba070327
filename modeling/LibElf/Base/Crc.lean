import Mathlib.Data.List.GetD
import Mathlib.Tactic.Common

/-!
# Cyclic redundancy checks

A check is what a shift register holds after the bits of a message went through it, the lowest bit
of the register first. `p` says which bits are turned over when a set bit leaves the register.

1. `crcShift` and `crcShifts`, the register moved on. Both are linear, and one to one when the top
   bit of `p` is set (`crcShifts_inj`).
2. `crcBits`, the register after a message. As many bits as the register has may be fed at once
   (`crcBits_eq_shifts`).
3. `crcBits_burst`: messages that differ inside a window no longer than the register leave
   different registers.
4. `crcByte_table`: eight bits at once, with one look in a table.
-/

namespace LibElf

variable {w : Nat} {p x y : BitVec w}

/-! ## The register -/

def crcShift (p x : BitVec w) : BitVec w := if x.getLsbD 0 then x >>> 1 ^^^ p else x >>> 1

def crcShifts (p : BitVec w) : Nat → BitVec w → BitVec w
  | 0, x => x
  | n + 1, x => crcShifts p n (crcShift p x)

theorem crcShift_xor (p x y : BitVec w) : crcShift p (x ^^^ y) = crcShift p x ^^^ crcShift p y := by
  unfold crcShift
  rw [BitVec.getLsbD_xor, BitVec.ushiftRight_xor_distrib]
  cases x.getLsbD 0 <;> cases y.getLsbD 0
  · rfl
  · exact BitVec.xor_assoc ..
  · show x >>> 1 ^^^ y >>> 1 ^^^ p = x >>> 1 ^^^ p ^^^ y >>> 1
    rw [BitVec.xor_assoc, BitVec.xor_comm (y >>> 1) p, ← BitVec.xor_assoc]
  · show x >>> 1 ^^^ y >>> 1 = x >>> 1 ^^^ p ^^^ (y >>> 1 ^^^ p)
    rw [BitVec.xor_comm (y >>> 1) p, BitVec.xor_assoc, ← BitVec.xor_assoc p, BitVec.xor_self,
      BitVec.zero_xor]

theorem crcShifts_xor (n : Nat) (x y : BitVec w) :
    crcShifts p n (x ^^^ y) = crcShifts p n x ^^^ crcShifts p n y := by
  induction n generalizing x y with
  | zero => rfl
  | succ n ih => rw [crcShifts, crcShift_xor, ih]; rfl

/-- A set top bit shows that a set bit has left the register. -/
theorem crcShift_inj (hp : p.getLsbD (w - 1) = true) (h : crcShift p x = crcShift p y) : x = y := by
  have hw : 0 < w := Nat.pos_of_ne_zero fun h0 => by subst h0; simp at hp
  -- The top bit of the register after the step is the bit that left it.
  have htop (z : BitVec w) : (crcShift p z).getLsbD (w - 1) = z.getLsbD 0 := by
    have hz : (z >>> 1).getLsbD (w - 1) = false := by
      rw [BitVec.getLsbD_ushiftRight]
      exact BitVec.getLsbD_of_ge z _ (by omega)
    unfold crcShift
    cases hb : z.getLsbD 0
    · exact hz
    · show (z >>> 1 ^^^ p).getLsbD (w - 1) = true
      rw [BitVec.getLsbD_xor, hz, hp]
      rfl
  have hlow : x.getLsbD 0 = y.getLsbD 0 := by rw [← htop x, h, htop y]
  have hshift : x >>> 1 = y >>> 1 := by
    unfold crcShift at h
    rw [hlow] at h
    cases hb : y.getLsbD 0 <;> rw [hb] at h
    · exact h
    · exact (BitVec.xor_left_inj p).mp h
  apply BitVec.eq_of_getLsbD_eq
  intro i _
  cases i with
  | zero => exact hlow
  | succ i =>
    have := congrArg (fun z => BitVec.getLsbD z i) hshift
    simpa only [BitVec.getLsbD_ushiftRight, Nat.add_comm 1 i] using this

theorem crcShifts_inj (hp : p.getLsbD (w - 1) = true) {n : Nat} (h : crcShifts p n x = crcShifts p n y) :
    x = y := by
  induction n generalizing x y with
  | zero => exact h
  | succ n ih => exact crcShift_inj hp (ih h)

/-- Bits that have not reached the end yet only move. -/
theorem crcShifts_shiftLeft (p : BitVec w) {n : Nat} (h : ∀ i, w ≤ i + n → x.getLsbD i = false) :
    crcShifts p n (x <<< n) = x := by
  induction n with
  | zero => exact BitVec.shiftLeft_zero x
  | succ n ih =>
    have hlow : (x <<< (n + 1)).getLsbD 0 = false := by simp
    have hone : crcShift p (x <<< (n + 1)) = x <<< n := by
      rw [crcShift, hlow, if_neg Bool.false_ne_true]
      apply BitVec.eq_of_getLsbD_eq
      intro i hi
      rw [BitVec.getLsbD_ushiftRight, BitVec.getLsbD_shiftLeft, BitVec.getLsbD_shiftLeft]
      by_cases hlast : 1 + i < w
      · have hcmp : (1 + i < n + 1) = (i < n) := by rw [Nat.add_comm 1 i, Nat.add_lt_add_iff_right]
        have hsub : 1 + i - (n + 1) = i - n := by omega
        simp only [hlast, hi, hcmp, hsub]
      · by_cases hin : i < n
        · simp [hlast, hin]
        · simp [hlast, hin, h (i - n) (by omega)]
    rw [crcShifts, hone]
    exact ih fun i hi => h i (by omega)

/-! ## Messages -/

/-- The register with the message `bs` in it, first bit lowest. -/
def ofBits (w : Nat) (bs : List Bool) : BitVec w := (BitVec.ofBoolListLE bs).setWidth w

theorem getLsbD_ofBits {bs : List Bool} {i : Nat} (hi : i < w) : (ofBits w bs).getLsbD i = bs.getD i false := by
  rw [ofBits, BitVec.getLsbD_setWidth, BitVec.getLsbD_ofBoolListLE]
  simp [hi]

theorem ofBits_inj {as bs : List Bool} (hlen : as.length = bs.length) (hw : as.length ≤ w)
    (h : ofBits w as = ofBits w bs) : as = bs := by
  apply List.ext_getElem hlen
  intro i ha hb
  have hbit : (ofBits w as).getLsbD i = (ofBits w bs).getLsbD i := by rw [h]
  rw [getLsbD_ofBits (by omega), getLsbD_ofBits (by omega)] at hbit
  simpa [List.getD_eq_getElem, ha, hb] using hbit

def crcBits (p : BitVec w) : BitVec w → List Bool → BitVec w
  | x, [] => x
  | x, b :: bs => crcBits p (crcShift p (x ^^^ ofBits w [b])) bs

theorem crcBits_append (as bs : List Bool) : crcBits p x (as ++ bs) = crcBits p (crcBits p x as) bs := by
  induction as generalizing x with
  | nil => rfl
  | cons a as ih => exact ih

theorem crcBits_inj (hp : p.getLsbD (w - 1) = true) {bs : List Bool} (h : crcBits p x bs = crcBits p y bs) :
    x = y := by
  induction bs generalizing x y with
  | nil => exact h
  | cons b bs ih => exact (BitVec.xor_left_inj _).mp (crcShift_inj hp (ih h))

theorem ofBits_cons (b : Bool) (bs : List Bool) :
    ofBits w (b :: bs) = ofBits w [b] ^^^ ofBits w bs <<< 1 := by
  apply BitVec.eq_of_getLsbD_eq
  intro i hi
  rw [BitVec.getLsbD_xor, BitVec.getLsbD_shiftLeft, getLsbD_ofBits hi, getLsbD_ofBits hi]
  cases i with
  | zero => simp
  | succ i => simp [getLsbD_ofBits (Nat.lt_of_succ_lt hi), hi]

/-- The bits of a message that fits in the register, fed at once. -/
theorem crcBits_eq_shifts {bs : List Bool} (hw : bs.length ≤ w) :
    crcBits p x bs = crcShifts p bs.length (x ^^^ ofBits w bs) := by
  induction bs generalizing x with
  | nil =>
    have : ofBits w [] = 0#w := BitVec.eq_of_getLsbD_eq fun i hi => by simp [getLsbD_ofBits hi]
    rw [this, BitVec.xor_zero]
    rfl
  | cons b bs ih =>
    have hlt : bs.length < w := hw
    have hrest : crcShifts p 1 (ofBits w bs <<< 1) = ofBits w bs :=
      crcShifts_shiftLeft p fun i hi => by
        by_cases hiw : i < w
        · rw [getLsbD_ofBits hiw, List.getD_eq_default _ _ (by omega)]
        · exact BitVec.getLsbD_of_ge _ _ (by omega)
    have hfeed : x ^^^ ofBits w (b :: bs) = x ^^^ ofBits w [b] ^^^ ofBits w bs <<< 1 := by
      rw [ofBits_cons, BitVec.xor_assoc]
    rw [crcBits, ih (Nat.le_of_lt hlt), List.length_cons, crcShifts, hfeed, crcShift_xor p (x ^^^ ofBits w [b])]
    exact congrArg (fun z => crcShifts p bs.length (crcShift p (x ^^^ ofBits w [b]) ^^^ z)) hrest.symm

/-- Whatever stands before and after it, a change inside a window no longer than the register shows. -/
theorem crcBits_burst (hp : p.getLsbD (w - 1) = true) {front mid mid' back : List Bool}
    (hlen : mid.length = mid'.length) (hw : mid.length ≤ w)
    (h : crcBits p x (front ++ mid ++ back) = crcBits p x (front ++ mid' ++ back)) : mid = mid' := by
  rw [crcBits_append, crcBits_append, crcBits_append, crcBits_append] at h
  have hmid := crcBits_inj hp h
  rw [crcBits_eq_shifts hw, @crcBits_eq_shifts _ _ _ mid' (hlen ▸ hw), hlen] at hmid
  exact ofBits_inj hlen hw ((BitVec.xor_right_inj _).mp (crcShifts_inj hp hmid))

/-! ## Bytes -/

def byteBits (b : UInt8) : List Bool := List.ofFn fun i : Fin 8 => b.toBitVec.getLsbD i

theorem length_byteBits (b : UInt8) : (byteBits b).length = 8 := List.length_ofFn

theorem ofBits_byteBits (b : UInt8) : ofBits w (byteBits b) = b.toBitVec.setWidth w := by
  apply BitVec.eq_of_getLsbD_eq
  intro i hi
  rw [getLsbD_ofBits hi, BitVec.getLsbD_setWidth, byteBits]
  by_cases h8 : i < 8
  · rw [List.getD_eq_getElem _ _ (by rw [List.length_ofFn]; exact h8), List.getElem_ofFn, decide_eq_true hi,
      Bool.true_and]
  · rw [List.getD_eq_default _ _ (by rw [List.length_ofFn]; omega), BitVec.getLsbD_of_ge _ _ (by omega),
      Bool.and_false]

theorem byteBits_inj {a b : UInt8} (h : byteBits a = byteBits b) : a = b := by
  have := congrArg (ofBits 8) h
  rw [ofBits_byteBits, ofBits_byteBits, BitVec.setWidth_eq, BitVec.setWidth_eq] at this
  exact UInt8.toBitVec_inj.mp this

def bytesBits (bs : List UInt8) : List Bool := bs.flatMap byteBits

theorem length_bytesBits (bs : List UInt8) : (bytesBits bs).length = 8 * bs.length := by
  induction bs with
  | nil => rfl
  | cons b bs ih =>
    show (byteBits b ++ bytesBits bs).length = _
    rw [List.length_append, length_byteBits, ih, List.length_cons, Nat.mul_succ, Nat.add_comm]

theorem bytesBits_inj {as bs : List UInt8} (h : bytesBits as = bytesBits bs) : as = bs := by
  induction as generalizing bs with
  | nil =>
    have := congrArg List.length h
    rw [length_bytesBits, length_bytesBits, List.length_nil] at this
    exact (List.length_eq_zero_iff.mp (by omega)).symm
  | cons a as ih =>
    cases bs with
    | nil =>
      have := congrArg List.length h
      rw [length_bytesBits, length_bytesBits, List.length_cons, List.length_nil] at this
      omega
    | cons b bs =>
      obtain ⟨hab, hrest⟩ := List.append_inj h ((length_byteBits a).trans (length_byteBits b).symm)
      rw [byteBits_inj hab, ih hrest]

/-- A byte at a time: the low byte of the register is looked up, the others move down. -/
theorem crcByte_table (hw : 8 ≤ w) (b : UInt8) : crcBits p x (byteBits b) =
    crcShifts p 8 ((x ^^^ b.toBitVec.setWidth w) &&& 255#w) ^^^ x >>> 8 := by
  have hsplit : x ^^^ b.toBitVec.setWidth w = ((x ^^^ b.toBitVec.setWidth w) &&& 255#w) ^^^ (x >>> 8) <<< 8 := by
    apply BitVec.eq_of_getLsbD_eq
    intro i hi
    have h255 : (255#w).getLsbD i = decide (i < 8) := by
      have h : Nat.testBit 255 i = decide (i < 8) := Nat.testBit_two_pow_sub_one 8 i
      rw [BitVec.getLsbD_ofNat, h, decide_eq_true hi, Bool.true_and]
    rw [@BitVec.getLsbD_xor _ i ((x ^^^ b.toBitVec.setWidth w) &&& 255#w), BitVec.getLsbD_and, h255,
      BitVec.getLsbD_shiftLeft, BitVec.getLsbD_ushiftRight]
    by_cases h8 : i < 8
    · simp [h8]
    · have hb : b.toBitVec.getLsbD i = false := BitVec.getLsbD_of_ge _ _ (by omega)
      simp [h8, hi, hb, show 8 + (i - 8) = i by omega]
  have hhigh : crcShifts p 8 ((x >>> 8) <<< 8) = x >>> 8 := crcShifts_shiftLeft p fun i hi => by
    rw [BitVec.getLsbD_ushiftRight]
    exact BitVec.getLsbD_of_ge x _ (by omega)
  rw [crcBits_eq_shifts (by rw [length_byteBits]; exact hw), length_byteBits, ofBits_byteBits]
  conv_lhs => rw [hsplit]
  rw [crcShifts_xor, hhigh]

end LibElf
