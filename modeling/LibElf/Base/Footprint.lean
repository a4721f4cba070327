import LibElf.Base.Memory

/-!
# What a call stores, and what it leaves

A call that fills a buffer may leave bytes of it as they were. Then its result depends on what the
buffer held before, which for fresh memory is anything.

1. `Fills f W V`: whatever was there, the call `f` stores values that do not depend on it at the
   positions `W`, and leaves the others. The values satisfy `V`.
2. The rules: `Fills.skip`, `Fills.write`, `Fills.bind`, and `Fills.of_window` for a call whose result
   is known.
3. `Fills.agree` and `Fills.leaks`: at a set of positions the result does not depend on what was there
   exactly when these are filled.
4. `Wrote m m' off bs`: one run stored the bytes `bs` at `off` and nothing else. `Wrote.append` is the rule
   for a run that stores piece after piece.
-/

namespace LibElf

open Outcome Mem

section Footprint

variable {n : Nat} {ε : Type} {f g : Mem n → Outcome ε (Mem n) Unit} {W W' : Nat → Prop}
  {V : Nat → UInt8 → Prop}

/-- The call stores at the positions `W`, values that satisfy `V` and do not depend on the memory, and
leaves the other positions alone. -/
def Fills (f : Mem n → Outcome ε (Mem n) Unit) (W : Nat → Prop) (V : Nat → UInt8 → Prop) : Prop :=
  ∃ val : Nat → UInt8, (∀ i, W i → i < n ∧ V i (val i)) ∧
    ∀ m, ∃ m', f m = .ok () m' ∧
      ∀ i, (W i → m'.bytes[i]? = some (val i)) ∧ (¬ W i → m'.bytes[i]? = m.bytes[i]?)

/-- Byte strings of one length with the same bytes at the positions `P`. -/
def AgreeOn (P : Nat → Prop) (bs bs' : List UInt8) : Prop :=
  bs.length = bs'.length ∧ ∀ i, P i → bs[i]? = bs'[i]?

theorem AgreeOn.symm {P : Nat → Prop} {bs bs' : List UInt8} (h : AgreeOn P bs bs') : AgreeOn P bs' bs :=
  ⟨h.1.symm, fun i hi => (h.2 i hi).symm⟩

/-- The positions of a list of ranges, each a start and a length. -/
def InRanges (rs : List (Nat × Nat)) (i : Nat) : Prop := ∃ r ∈ rs, r.1 ≤ i ∧ i < r.1 + r.2

instance (rs : List (Nat × Nat)) (i : Nat) : Decidable (InRanges rs i) := List.decidableBEx _ rs

theorem inRanges_cons {r : Nat × Nat} {rs : List (Nat × Nat)} {i : Nat} :
    InRanges (r :: rs) i ↔ (r.1 ≤ i ∧ i < r.1 + r.2) ∨ InRanges rs i := by
  simp [InRanges]

theorem inRanges_append {rs rs' : List (Nat × Nat)} {i : Nat} :
    InRanges (rs ++ rs') i ↔ InRanges rs i ∨ InRanges rs' i := by
  simp only [InRanges, List.mem_append]
  constructor
  · rintro ⟨r, hr | hr, hi⟩
    · exact .inl ⟨r, hr, hi⟩
    · exact .inr ⟨r, hr, hi⟩
  · rintro (⟨r, hr, hi⟩ | ⟨r, hr, hi⟩)
    · exact ⟨r, .inl hr, hi⟩
    · exact ⟨r, .inr hr, hi⟩

namespace Fills

theorem congr (h : Fills f W V) (hf : ∀ m, g m = f m) (hW : ∀ i, W' i ↔ W i) : Fills g W' V := by
  obtain ⟨val, hval, hrun⟩ := h
  refine ⟨val, fun i hi => hval i ((hW i).mp hi), fun m => ?_⟩
  obtain ⟨m', hm', hbytes⟩ := hrun m
  exact ⟨m', (hf m).trans hm', fun i => ⟨fun hi => (hbytes i).1 ((hW i).mp hi),
    fun hi => (hbytes i).2 fun h => hi ((hW i).mpr h)⟩⟩

theorem mono {V' : Nat → UInt8 → Prop} (h : Fills f W V) (hV : ∀ i b, V i b → V' i b) : Fills f W V' := by
  obtain ⟨val, hval, hrun⟩ := h
  exact ⟨val, fun i hi => ⟨(hval i hi).1, hV i _ (hval i hi).2⟩, hrun⟩

theorem skip : Fills (fun m : Mem n => (.ok () m : Outcome ε (Mem n) Unit)) (fun _ => False) V :=
  ⟨fun _ => 0, fun _ h => h.elim, fun m => ⟨m, rfl, fun _ => ⟨fun h => h.elim, fun _ => rfl⟩⟩⟩

/-- A call whose result is known: the same bytes in a range, whatever was there, and nothing else. -/
theorem of_window {off : Nat} {bs : List UInt8} (hin : off + bs.length ≤ n)
    (hrun : ∀ m, ∃ m', f m = .ok () m' ∧ Frame m m' off bs.length ∧ window m'.bytes off bs.length = bs)
    (hV : ∀ k b, bs[k]? = some b → V (off + k) b) :
    Fills f (fun i => off ≤ i ∧ i < off + bs.length) V := by
  have hval : ∀ i, off ≤ i → i < off + bs.length → bs[i - off]? = some (bs.getD (i - off) 0) := by
    intro i hlo hhi
    rw [List.getD_eq_getElem?_getD, List.getElem?_eq_getElem (by omega)]
    rfl
  refine ⟨fun i => bs.getD (i - off) 0, ?_, fun m => ?_⟩
  · rintro i ⟨hlo, hhi⟩
    have hv := hV (i - off) _ (hval i hlo hhi)
    rw [Nat.add_sub_cancel' hlo] at hv
    exact ⟨Nat.lt_of_lt_of_le hhi hin, hv⟩
  · obtain ⟨m', hm', hframe, hwin⟩ := hrun m
    refine ⟨m', hm', fun i => ⟨?_, fun hi => hframe i (by omega)⟩⟩
    rintro ⟨hlo, hhi⟩
    rw [← hval i hlo hhi]
    have hget : (window m'.bytes off bs.length)[i - off]? = bs[i - off]? := by rw [hwin]
    rw [getElem?_window, if_pos (by omega), Nat.add_sub_cancel' hlo] at hget
    exact hget

theorem write {off : Nat} {bs : List UInt8} (hin : off + bs.length ≤ n)
    (hV : ∀ k b, bs[k]? = some b → V (off + k) b) :
    Fills (fun m : Mem n => (m.write off bs : Outcome ε (Mem n) Unit))
      (fun i => off ≤ i ∧ i < off + bs.length) V :=
  of_window hin (fun m => ⟨m.splice off bs hin, write_of_le m hin, frame_splice m hin,
    window_splice_self (by rw [m.length_eq]; exact hin)⟩) hV

open Classical in
/-- A call after another one: the later value counts. -/
theorem bind (hf : Fills f W V) (hg : Fills g W' V) :
    Fills (fun m => (f m).bind fun _ m => g m) (fun i => W i ∨ W' i) V := by
  obtain ⟨val, hval, hrun⟩ := hf
  obtain ⟨val', hval', hrun'⟩ := hg
  refine ⟨fun i => if W' i then val' i else val i, ?_, fun m => ?_⟩
  · intro i hi
    dsimp only
    by_cases h : W' i
    · rw [if_pos h]
      exact hval' i h
    · rw [if_neg h]
      exact hval i (hi.resolve_right h)
  · obtain ⟨m₁, hm₁, hbytes₁⟩ := hrun m
    obtain ⟨m₂, hm₂, hbytes₂⟩ := hrun' m₁
    refine ⟨m₂, ?_, fun i => ⟨fun hi => ?_, fun hi => ?_⟩⟩
    · dsimp only
      rw [hm₁, bind_ok, hm₂]
    · dsimp only
      by_cases h : W' i
      · rw [if_pos h]
        exact (hbytes₂ i).1 h
      · rw [if_neg h]
        exact ((hbytes₂ i).2 h).trans ((hbytes₁ i).1 (hi.resolve_right h))
    · exact ((hbytes₂ i).2 fun h => hi (.inr h)).trans ((hbytes₁ i).2 fun h => hi (.inl h))

/-- At positions that are filled, the memory does not matter. -/
theorem agree (hf : Fills f W V) {P : Nat → Prop} (hP : ∀ i < n, P i → W i) (m m' : Mem n) :
    ∃ m₁ m₂, f m = .ok () m₁ ∧ f m' = .ok () m₂ ∧ AgreeOn P m₁.bytes m₂.bytes := by
  obtain ⟨val, -, hrun⟩ := hf
  obtain ⟨m₁, hm₁, hbytes₁⟩ := hrun m
  obtain ⟨m₂, hm₂, hbytes₂⟩ := hrun m'
  refine ⟨m₁, m₂, hm₁, hm₂, m₁.length_eq.trans m₂.length_eq.symm, fun i hi => ?_⟩
  by_cases hin : i < n
  · rw [(hbytes₁ i).1 (hP i hin hi), (hbytes₂ i).1 (hP i hin hi)]
  · rw [List.getElem?_eq_none (by rw [m₁.length_eq]; omega), List.getElem?_eq_none (by rw [m₂.length_eq]; omega)]

/-- A position that is not filled shows what was there. -/
theorem leaks (hf : Fills f W V) {i : Nat} (hi : i < n) (hW : ¬ W i) {heap : Nat → UInt8} {m₁ m₂ : Mem n}
    (h₁ : f (.fresh (fun j => heap j + 1) n) = .ok () m₁) (h₂ : f (.fresh heap n) = .ok () m₂) :
    m₁.bytes[i]? ≠ m₂.bytes[i]? := by
  obtain ⟨val, -, hrun⟩ := hf
  obtain ⟨m₁', hm₁, hbytes₁⟩ := hrun (.fresh (fun j => heap j + 1) n)
  obtain ⟨m₂', hm₂, hbytes₂⟩ := hrun (.fresh heap n)
  obtain ⟨-, rfl⟩ := Outcome.ok.inj (h₁.symm.trans hm₁)
  obtain ⟨-, rfl⟩ := Outcome.ok.inj (h₂.symm.trans hm₂)
  rw [(hbytes₁ i).2 hW, (hbytes₂ i).2 hW]
  simp [fresh, hi]

/-- The values of the positions that are filled. -/
theorem values (hf : Fills f W V) {m m' : Mem n} (h : f m = .ok () m') {i : Nat} (hi : W i) :
    ∃ b, m'.bytes[i]? = some b ∧ V i b := by
  obtain ⟨val, hval, hrun⟩ := hf
  obtain ⟨m₁, hm₁, hbytes₁⟩ := hrun m
  rw [h] at hm₁
  obtain ⟨-, rfl⟩ := Outcome.ok.inj hm₁
  exact ⟨val i, (hbytes₁ i).1 hi, (hval i hi).2⟩

end Fills

end Footprint

/-! ## Pieces one after the other -/

section Pieces

variable {n off : Nat} {m m' m'' : Mem n} {bs bs' : List UInt8}

/-- The bytes `bs` were stored at `off`, and nothing else. -/
def Wrote (m m' : Mem n) (off : Nat) (bs : List UInt8) : Prop :=
  Frame m m' off bs.length ∧ window m'.bytes off bs.length = bs

theorem wrote_nil : Wrote m m off [] := ⟨Frame.refl _ _ _, window_zero _ _⟩

theorem wrote_splice (m : Mem n) (h : off + bs.length ≤ n) : Wrote m (m.splice off bs h) off bs :=
  ⟨frame_splice m h, window_splice_self (by rw [m.length_eq]; exact h)⟩

/-- A piece, and another one right after it. -/
theorem Wrote.append (h : Wrote m m' off bs) (h' : Wrote m' m'' (off + bs.length) bs') :
    Wrote m m'' off (bs ++ bs') := by
  obtain ⟨hframe, hwin⟩ := h
  obtain ⟨hframe', hwin'⟩ := h'
  rw [Wrote, List.length_append]
  refine ⟨(hframe.mono (Nat.le_refl _) (by omega)).trans (hframe'.mono (by omega) (by omega)), ?_⟩
  rw [← window_append_window, hwin', hframe'.window_eq (.inl (Nat.le_refl _)), hwin]

/-- The bytes that fill an object. -/
theorem Wrote.bytes_eq (h : Wrote m m' 0 bs) (hlen : bs.length = n) : m'.bytes = bs := by
  have hfull := window_full m'.bytes
  rw [m'.length_eq] at hfull
  have hwin := h.2
  rw [hlen, hfull] at hwin
  exact hwin

end Pieces

end LibElf
