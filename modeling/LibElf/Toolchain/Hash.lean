import Mathlib.Tactic.Common
import Mathlib.Algebra.Group.Nat.Defs

/-!
# The hash of a symbol name

`elf_hash` of `elf_hash.c` is the function of the System V ABI, which was written for an `unsigned long`
of 32 bits. With 64 bits the sum of a step may carry into bit 32, and nothing takes that bit away again: it
moves up by four bits in each step, until it leaves the word.

1. `hashStep`, one step with an `unsigned long` of any width, `elfHash` and `abiHash`.
2. `hashStep_low` and `hashStep_high`: the low half takes the step of the ABI, and the high half takes the
   carry.
3. `elfHash_eq_abi_iff`: the two agree exactly when none of the last eight steps carries.
-/

namespace LibElf.Toolchain

/-- One step of the loop, with an `unsigned long` of `w` bits. -/
def hashStep (w : Nat) (h : BitVec w) (c : UInt8) : BitVec w :=
  let h := (h <<< 4) + BitVec.ofNat w c.toNat
  let t := h &&& BitVec.ofNat w 0xF0000000
  let h := if t ≠ 0 then h ^^^ (t >>> 24) else h
  h &&& ~~~t

/-- The loop, over the bytes from `name` to the end of the object that it points into. There is no result
when the bytes run out before a NUL. -/
def elfHashLoop : List UInt8 → BitVec 64 → Option (BitVec 64)
  | [], _ => none
  | c :: s, h => if c = 0 then some h else elfHashLoop s (hashStep 64 h c)

/-- `elf_hash`, with an `unsigned long` of 64 bits. -/
def elfHash (mem : List UInt8) : Option (BitVec 64) := elfHashLoop mem 0

/-- The value of `elf_hash` for a name. -/
def hashName (w : Nat) (name : List UInt8) : BitVec w := name.foldl (hashStep w) 0

/-- The function of the ABI, in 32-bit arithmetic. -/
def abiHash (name : List UInt8) : BitVec 32 := hashName 32 name

theorem hashName_append (w : Nat) (name : List UInt8) (c : UInt8) :
    hashName w (name ++ [c]) = hashStep w (hashName w name) c := by
  simp [hashName]

/-- The loop stops at the NUL, and what follows does not count. -/
theorem elfHash_of_nul {name : List UInt8} (h : 0 ∉ name) (rest : List UInt8) :
    elfHash (name ++ 0 :: rest) = some (hashName 64 name) := by
  have hloop : ∀ (s : List UInt8) (v : BitVec 64), 0 ∉ s →
      elfHashLoop (s ++ 0 :: rest) v = some (s.foldl (hashStep 64) v) := by
    intro s
    induction s with
    | nil => exact fun _ _ => rfl
    | cons c s ih =>
      intro v hs
      have hc : c ≠ 0 := fun hc => hs (hc ▸ List.mem_cons_self)
      rw [List.cons_append, elfHashLoop, if_neg hc, ih _ fun hmem => hs (List.mem_cons_of_mem _ hmem)]
      rfl
  exact hloop name 0 h

section Step

variable {w : Nat}

/-- The sum that a step starts with. -/
def hashSum (w : Nat) (h : BitVec w) (c : UInt8) : BitVec w := (h <<< 4) + BitVec.ofNat w c.toNat

theorem getLsbD_mask (hw : 32 ≤ w) (i : Nat) :
    (BitVec.ofNat w 0xF0000000).getLsbD i = decide (28 ≤ i ∧ i < 32) := by
  rw [BitVec.getLsbD_ofNat]
  by_cases hi : i < 32
  · have hbit : ∀ i < 32, (0xF0000000 : Nat).testBit i = decide (28 ≤ i ∧ i < 32) := by decide
    have hiw : i < w := by omega
    rw [hbit i hi, decide_eq_true hiw, Bool.true_and]
  · have hbig : (0xF0000000 : Nat).testBit i = false := by
      refine Nat.testBit_lt_two_pow (Nat.lt_of_lt_of_le (by decide : 0xF0000000 < 2 ^ 32) ?_)
      exact Nat.pow_le_pow_right (by decide) (by omega)
    rw [hbig, Bool.and_false, decide_eq_false (by omega)]

/-- The bits of a step: bits 28 to 31 of the sum are cleared, and folded into bits 4 to 7. -/
theorem getLsbD_hashStep (hw : 32 ≤ w) (h : BitVec w) (c : UInt8) {i : Nat} (hi : i < w) :
    (hashStep w h c).getLsbD i =
      (((hashSum w h c).getLsbD i ^^ ((hashSum w h c).getLsbD (24 + i) && decide (28 ≤ 24 + i ∧ 24 + i < 32))) &&
        !((hashSum w h c).getLsbD i && decide (28 ≤ i ∧ i < 32))) := by
  have hfold : hashStep w h c =
      (hashSum w h c ^^^ ((hashSum w h c &&& BitVec.ofNat w 0xF0000000) >>> 24)) &&&
        ~~~(hashSum w h c &&& BitVec.ofNat w 0xF0000000) := by
    show (if hashSum w h c &&& BitVec.ofNat w 0xF0000000 ≠ 0
        then hashSum w h c ^^^ ((hashSum w h c &&& BitVec.ofNat w 0xF0000000) >>> 24) else hashSum w h c) &&&
        ~~~(hashSum w h c &&& BitVec.ofNat w 0xF0000000) = _
    split
    · rfl
    · next ht =>
      rw [not_not.mp ht]
      simp
  rw [hfold]
  simp only [BitVec.getLsbD_and, BitVec.getLsbD_xor, BitVec.getLsbD_not, BitVec.getLsbD_ushiftRight, getLsbD_mask hw,
    decide_eq_true hi, Bool.true_and]

/-- The low half of a step is the step of the ABI. -/
theorem hashStep_low (h : BitVec 64) (c : UInt8) :
    (hashStep 64 h c).setWidth 32 = hashStep 32 (h.setWidth 32) c := by
  have hsum : (hashSum 64 h c).setWidth 32 = hashSum 32 (h.setWidth 32) c := by
    apply BitVec.eq_of_toNat_eq
    have hc := c.toNat_lt
    simp only [hashSum, BitVec.toNat_setWidth, BitVec.toNat_add, BitVec.toNat_shiftLeft, BitVec.toNat_ofNat,
      Nat.shiftLeft_eq]
    omega
  apply BitVec.eq_of_getLsbD_eq
  intro i hi
  have hbit : ∀ j, (hashSum 32 (h.setWidth 32) c).getLsbD j = (decide (j < 32) && (hashSum 64 h c).getLsbD j) := by
    intro j
    rw [← hsum, BitVec.getLsbD_setWidth]
  rw [BitVec.getLsbD_setWidth, decide_eq_true hi, Bool.true_and, getLsbD_hashStep (by decide) h c (by omega),
    getLsbD_hashStep (by decide) (h.setWidth 32) c hi, hbit, hbit, decide_eq_true hi, Bool.true_and]
  by_cases hj : 24 + i < 32
  · rw [decide_eq_true hj, Bool.true_and]
  · rw [decide_eq_false (by omega : ¬ (28 ≤ 24 + i ∧ 24 + i < 32)), Bool.and_false, Bool.and_false]

/-- A step leaves the high half of its sum. -/
theorem hashStep_high (h : BitVec 64) (c : UInt8) :
    (hashStep 64 h c).toNat / 2 ^ 32 = (hashSum 64 h c).toNat / 2 ^ 32 := by
  have hshift : hashStep 64 h c >>> 32 = hashSum 64 h c >>> 32 := by
    apply BitVec.eq_of_getLsbD_eq
    intro i hi
    rw [BitVec.getLsbD_ushiftRight, BitVec.getLsbD_ushiftRight]
    by_cases hin : 32 + i < 64
    · rw [getLsbD_hashStep (by decide) h c hin, decide_eq_false (by omega : ¬ (28 ≤ 24 + (32 + i) ∧ 24 + (32 + i) < 32)),
        decide_eq_false (by omega : ¬ (28 ≤ 32 + i ∧ 32 + i < 32)), Bool.and_false, Bool.and_false, Bool.xor_false,
        Bool.not_false, Bool.and_true]
    · rw [BitVec.getLsbD_of_ge _ _ (by omega), BitVec.getLsbD_of_ge _ _ (by omega)]
  have hnat := congrArg BitVec.toNat hshift
  rwa [BitVec.toNat_ushiftRight, BitVec.toNat_ushiftRight, Nat.shiftRight_eq_div_pow, Nat.shiftRight_eq_div_pow] at hnat

/-- The ABI's function clears the top four bits in every step. -/
theorem hashStep_lt (h : BitVec 32) (c : UInt8) : (hashStep 32 h c).toNat < 2 ^ 28 := by
  apply Nat.lt_pow_two_of_testBit
  intro i hi
  by_cases hin : i < 32
  · have hbit := getLsbD_hashStep (Nat.le_refl 32) h c hin
    rw [decide_eq_false (by omega : ¬ (28 ≤ 24 + i ∧ 24 + i < 32)), decide_eq_true (⟨hi, hin⟩ : 28 ≤ i ∧ i < 32),
      Bool.and_false, Bool.and_true, Bool.xor_false, Bool.and_not_self] at hbit
    exact hbit
  · exact BitVec.getLsbD_of_ge _ _ (by omega)

end Step

section Carry

theorem abiHash_lt (name : List UInt8) : (abiHash name).toNat < 2 ^ 28 := by
  rcases List.eq_nil_or_concat name with rfl | ⟨pre, c, rfl⟩
  · decide
  · rw [List.concat_eq_append, abiHash, hashName_append]
    exact hashStep_lt _ c

/-- The low half of the hash is that of the ABI. -/
theorem hashName_low (name : List UInt8) : (hashName 64 name).setWidth 32 = abiHash name := by
  have hfold : ∀ (s : List UInt8) (h : BitVec 64),
      (s.foldl (hashStep 64) h).setWidth 32 = s.foldl (hashStep 32) (h.setWidth 32) := by
    intro s
    induction s with
    | nil => exact fun _ => rfl
    | cons c s ih =>
      intro h
      rw [List.foldl_cons, List.foldl_cons, ih, hashStep_low]
  exact hfold name 0

/-- The part of the hash beyond 32 bits. -/
def excess (name : List UInt8) : Nat := (hashName 64 name).toNat / 2 ^ 32

theorem toNat_hashName (name : List UInt8) :
    (hashName 64 name).toNat = excess name * 2 ^ 32 + (abiHash name).toNat := by
  have hlow := congrArg BitVec.toNat (hashName_low name)
  rw [BitVec.toNat_setWidth] at hlow
  rw [excess, ← hlow]
  exact (Nat.div_add_mod' _ _).symm

/-- The sum of the ABI's step does not fit 32 bits. -/
def Carries (pre : List UInt8) (c : UInt8) : Prop := 2 ^ 32 ≤ 16 * (abiHash pre).toNat + c.toNat

instance (pre : List UInt8) (c : UInt8) : Decidable (Carries pre c) := Nat.decLe _ _

/-- One step moves the excess up by four bits and adds the carry. -/
theorem excess_append (pre : List UInt8) (c : UInt8) :
    excess (pre ++ [c]) = (16 * excess pre + if Carries pre c then 1 else 0) % 2 ^ 32 := by
  have hlt := abiHash_lt pre
  have hc := c.toNat_lt
  have hsum : (hashSum 64 (hashName 64 pre) c).toNat =
      (16 * (excess pre * 2 ^ 32 + (abiHash pre).toNat) + c.toNat) % 2 ^ 64 := by
    rw [hashSum, BitVec.toNat_add, BitVec.toNat_shiftLeft, BitVec.toNat_ofNat, Nat.shiftLeft_eq, toNat_hashName]
    omega
  rw [excess, hashName_append, hashStep_high, hsum]
  by_cases hcarry : Carries pre c
  · rw [if_pos hcarry]
    unfold Carries at hcarry
    omega
  · rw [if_neg hcarry]
    unfold Carries at hcarry
    omega

/-- No step among the last `k` carries. -/
def CarryFree (k : Nat) (name : List UInt8) : Prop :=
  ∀ pre c post, name = pre ++ c :: post → post.length < k → ¬ Carries pre c

theorem carryFree_append {k : Nat} {pre : List UInt8} {c : UInt8} :
    CarryFree (k + 1) (pre ++ [c]) ↔ ¬ Carries pre c ∧ CarryFree k pre := by
  constructor
  · intro h
    refine ⟨h pre c [] rfl (Nat.succ_pos k), ?_⟩
    rintro pre' c' post rfl hpost
    exact h pre' c' (post ++ [c]) (by simp) (by simpa using hpost)
  · rintro ⟨hlast, h⟩ pre' c' post heq hpost
    rcases List.eq_nil_or_concat post with rfl | ⟨post, b, rfl⟩
    · obtain ⟨rfl, hc⟩ := List.append_inj' heq rfl
      cases hc
      exact hlast
    · rw [List.concat_eq_append] at heq hpost
      have hsplit : pre ++ [c] = (pre' ++ c' :: post) ++ [b] := by simpa using heq
      obtain ⟨rfl, -⟩ := List.append_inj' hsplit rfl
      exact h pre' c' post rfl (by simpa using hpost)

/-- The low `k` digits of the excess hold the carries of the last `k` steps. -/
theorem excess_mod_iff (k : Nat) : ∀ name : List UInt8, k ≤ 8 → (excess name % 16 ^ k = 0 ↔ CarryFree k name) := by
  induction k with
  | zero =>
    intro name _
    rw [Nat.pow_zero, Nat.mod_one]
    exact ⟨fun _ _ _ _ _ h => absurd h (Nat.not_lt_zero _), fun _ => rfl⟩
  | succ k ih =>
    intro name hk
    rcases List.eq_nil_or_concat name with rfl | ⟨pre, c, rfl⟩
    · have hzero : excess [] = 0 := by decide
      rw [hzero, Nat.zero_mod]
      exact ⟨fun _ pre c post h => absurd h (by simp), fun _ => rfl⟩
    · rw [List.concat_eq_append, carryFree_append, ← ih pre (by omega), excess_append]
      have hdvd : 16 ^ (k + 1) ∣ 2 ^ 32 := by
        have hpow : (2 : Nat) ^ 32 = 16 ^ 8 := by decide
        rw [hpow]
        exact Nat.pow_dvd_pow 16 hk
      rw [Nat.mod_mod_of_dvd _ hdvd, Nat.pow_succ, Nat.mul_comm (16 ^ k)]
      have hpos : 0 < 16 ^ k := Nat.pow_pos (by decide)
      split
      · next hcarry =>
        have hodd : (16 * excess pre + 1) % (16 * 16 ^ k) % 16 = 1 := by
          rw [Nat.mod_mod_of_dvd _ (Nat.dvd_mul_right 16 _)]
          omega
        refine ⟨fun h => ?_, fun h => absurd hcarry h.1⟩
        rw [h] at hodd
        cases hodd
      · next hcarry =>
        rw [Nat.add_zero, Nat.mul_mod_mul_left]
        exact ⟨fun h => ⟨hcarry, by omega⟩, fun h => by rw [h.2]⟩

end Carry

/-- `elf_hash` returns the value of the ABI's function, a value below `2 ^ 28`, exactly when none of the last
eight steps of that function carries out of bit 31. -/
theorem elfHash_eq_abi_iff {name : List UInt8} (h : 0 ∉ name) (rest : List UInt8) :
    (∃ v, elfHash (name ++ 0 :: rest) = some v ∧ v.toNat = (abiHash name).toNat ∧ v.toNat < 2 ^ 28) ↔
      CarryFree 8 name := by
  have hexcess : excess name < 16 ^ 8 := by
    have := (hashName 64 name).isLt
    rw [excess]
    omega
  have hval := toNat_hashName name
  rw [elfHash_of_nul h, ← excess_mod_iff 8 name (Nat.le_refl 8), Nat.mod_eq_of_lt hexcess]
  constructor
  · rintro ⟨v, hv, habi, -⟩
    obtain rfl := Option.some.inj hv
    omega
  · intro hzero
    have hlt := abiHash_lt name
    exact ⟨_, rfl, by omega, by omega⟩

/-- A short name. -/
theorem elfHash_eq_abi_main :
    (∃ v, elfHash ([109, 97, 105, 110] ++ 0 :: []) = some v ∧ v.toNat = (abiHash [109, 97, 105, 110]).toNat ∧
      v.toNat < 2 ^ 28) ↔ CarryFree 8 [109, 97, 105, 110] :=
  elfHash_eq_abi_iff (by decide) []

/-- A name whose last step carries. -/
theorem elfHash_ne_abi : ¬ ∃ v, elfHash ([0xFF, 0x0F, 0x0F, 0x0F, 0x0F, 0x0F, 0x12] ++ 0 :: []) = some v ∧
    v.toNat = (abiHash [0xFF, 0x0F, 0x0F, 0x0F, 0x0F, 0x0F, 0x12]).toNat ∧ v.toNat < 2 ^ 28 := by
  rintro ⟨v, hv, -, hlt⟩
  have hbig : elfHash ([0xFF, 0x0F, 0x0F, 0x0F, 0x0F, 0x0F, 0x12] ++ 0 :: []) = some 0x100000002 := by decide
  rw [hbig] at hv
  obtain rfl := Option.some.inj hv
  exact absurd hlt (by decide)

end LibElf.Toolchain
