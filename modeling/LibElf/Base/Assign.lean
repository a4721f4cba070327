import LibElf.Base.Outcome

/-!
# Assignments behind checks

A C function that copies a structure field by field, and checks each field before it is stored,
leaves the fields stored so far when a check fails.

1. `Assign` is one such statement, and `Assign.run` runs a list of them.
2. `Independent`: a store does not undo another one.
3. `run_ok`: after a run that succeeds every field holds its value.
4. `run_same_iff`: a run changes nothing exactly when the fields stored before the first check that fails
   held their values already.
-/

namespace LibElf

open Outcome

/-- A statement that stores a part of a value `ν` in a state `σ`, unless the check fails. -/
structure Assign (ε σ ν : Type) where
  fits : ν → Bool
  store : ν → σ → Outcome ε σ Unit

namespace Assign

variable {ε σ ν : Type}

/-- The state holds what the statement would store. -/
def Holds (a : Assign ε σ ν) (v : ν) (s : σ) : Prop := a.store v s = .ok () s

/-- Run the statements in order. A check that fails ends the run with the error `e`. -/
def run (e : ε) : List (Assign ε σ ν) → ν → σ → Outcome ε σ Unit
  | [], _, s => .ok () s
  | a :: as, v, s => if a.fits v then (a.store v s).bind fun _ s => run e as v s else .err e s

/-- Stores do not report errors, what was stored is there, and later stores leave it. -/
structure Independent (as : List (Assign ε σ ν)) : Prop where
  no_err : ∀ a ∈ as, ∀ v s e s', a.store v s ≠ .err e s'
  stored : ∀ a ∈ as, ∀ v s s', a.store v s = .ok () s' → a.Holds v s'
  kept : as.Pairwise fun a b => ∀ v s s', a.Holds v s → b.store v s = .ok () s' → a.Holds v s'

variable {e : ε} {a : Assign ε σ ν} {as : List (Assign ε σ ν)} {v : ν} {s s' : σ}

theorem Independent.tail (h : Independent (a :: as)) : Independent as :=
  ⟨fun b hb => h.no_err b (List.mem_cons_of_mem a hb), fun b hb => h.stored b (List.mem_cons_of_mem a hb),
    (List.pairwise_cons.mp h.kept).2⟩

/-- What every store preserves, a run preserves, whether it succeeds or not. -/
theorem run_inv {Inv : σ → Prop} (hinv : ∀ a ∈ as, ∀ s s', Inv s → a.store v s = .ok () s' → Inv s')
    (herr : ∀ a ∈ as, ∀ s e s', a.store v s ≠ .err e s') (hs : Inv s) :
    (run e as v s).Ensures (fun _ => Inv) Inv (fun _ => True) := by
  induction as generalizing s with
  | nil => exact hs
  | cons a as ih =>
    unfold run
    by_cases hfit : a.fits v = true
    · rw [if_pos hfit]
      cases hstore : a.store v s with
      | ok u s₁ =>
        have hs₁ := hinv a List.mem_cons_self s s₁ hs hstore
        exact ih (fun b hb => hinv b (List.mem_cons_of_mem a hb)) (fun b hb => herr b (List.mem_cons_of_mem a hb)) hs₁
      | err e₁ s₁ => exact absurd hstore (herr a List.mem_cons_self s e₁ s₁)
      | stop f => trivial
    · rw [if_neg hfit]
      exact hs

/-- What holds before a run of other statements holds after it. -/
theorem run_holds (h : Independent (a :: as)) (hs : a.Holds v s) :
    (run e as v s).Ensures (fun _ => a.Holds v) (a.Holds v) (fun _ => True) :=
  run_inv (fun b hb s s' => (List.pairwise_cons.mp h.kept).1 b hb v s s')
    (fun b hb => h.no_err b (List.mem_cons_of_mem a hb) v) hs

/-- A run that succeeds passed all checks and stored all values. -/
theorem run_ok (h : Independent as) (hrun : run e as v s = .ok () s') :
    ∀ a ∈ as, a.fits v = true ∧ a.Holds v s' := by
  induction as generalizing s with
  | nil => exact fun _ ha => nomatch ha
  | cons a as ih =>
    unfold run at hrun
    by_cases hfit : a.fits v = true
    · rw [if_pos hfit] at hrun
      obtain ⟨u, s₁, hstore, hrest⟩ := bind_eq_ok.mp hrun
      intro b hb
      rcases List.mem_cons.mp hb with rfl | hb
      · have hholds := @run_holds _ _ _ e b as v s₁ h (h.stored b List.mem_cons_self v s s₁ hstore)
        rw [hrest] at hholds
        exact ⟨hfit, hholds⟩
      · exact ih h.tail hrest b hb
    · rw [if_neg hfit] at hrun
      cases hrun

/-- The statements before the first check that fails. -/
def reached (as : List (Assign ε σ ν)) (v : ν) : List (Assign ε σ ν) := as.takeWhile fun a => a.fits v

/-- A run leaves the state as it was exactly when the statements before the first check that fails store
what is there. -/
theorem run_same_iff (h : Independent as) (hrun : (run e as v s).next = .ok s') :
    s' = s ↔ ∀ a ∈ reached as v, a.Holds v s := by
  induction as generalizing s with
  | nil =>
    cases hrun
    exact iff_of_true rfl fun _ ha => nomatch ha
  | cons a as ih =>
    unfold run at hrun
    by_cases hfit : a.fits v = true
    · rw [if_pos hfit] at hrun
      have hreached : reached (a :: as) v = a :: reached as v := List.takeWhile_cons_of_pos hfit
      cases hstore : a.store v s with
      | ok u s₁ =>
        rw [hstore, bind_ok] at hrun
        rw [hreached, List.forall_mem_cons]
        constructor
        · rintro rfl
          have hrest := @run_holds _ _ _ e a as v s₁ h (h.stored a List.mem_cons_self v s' s₁ hstore)
          have hholds : a.Holds v s' := (ensures_next hrest).1 s' hrun
          obtain rfl : s₁ = s' := (Outcome.ok.inj (hstore.symm.trans hholds)).2
          exact ⟨hholds, (ih h.tail hrun).mp rfl⟩
        · rintro ⟨hholds, hrest⟩
          obtain rfl : s₁ = s := (Outcome.ok.inj (hstore.symm.trans hholds)).2
          exact (ih h.tail hrun).mpr hrest
      | err e₁ s₁ => exact absurd hstore (h.no_err a List.mem_cons_self v s e₁ s₁)
      | stop f =>
        rw [hstore] at hrun
        cases hrun
    · rw [if_neg hfit] at hrun
      have hreached : reached (a :: as) v = [] := List.takeWhile_cons_of_neg hfit
      cases hrun
      rw [hreached]
      exact iff_of_true rfl fun _ ha => nomatch ha

/-- A run on states where every store succeeds ends, with the error exactly when a check fails. -/
theorem run_returns {Inv : σ → Prop} (hinv : ∀ a ∈ as, ∀ s, Inv s → ∃ s', a.store v s = .ok () s' ∧ Inv s')
    (hs : Inv s) : ∃ s', Inv s' ∧
      run e as v s = if ∀ a ∈ as, a.fits v = true then .ok () s' else .err e s' := by
  induction as generalizing s with
  | nil => exact ⟨s, hs, by simp [run]⟩
  | cons a as ih =>
    unfold run
    by_cases hfit : a.fits v = true
    · obtain ⟨s₁, hstore, hs₁⟩ := hinv a List.mem_cons_self s hs
      obtain ⟨s', hs', hrest⟩ := ih (fun b hb => hinv b (List.mem_cons_of_mem a hb)) hs₁
      refine ⟨s', hs', ?_⟩
      rw [if_pos hfit, hstore, bind_ok, hrest]
      simp [hfit]
    · refine ⟨s, hs, ?_⟩
      rw [if_neg hfit]
      simp [hfit]

end Assign

end LibElf
