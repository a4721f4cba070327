import LibElf.Base.Outcome

/-!
# Loops over a list

A loop over a list of places carries a value and a state. What every round keeps holds at the end of the loop.

1. `Outcome.Exactly`, a call with the exact condition of its success.
2. `each`, the loop.
3. `each_inv`, what every round keeps.
-/

namespace LibElf

open Outcome

variable {ε σ ι α β : Type}

/-! ## When a call succeeds -/

namespace Outcome

/-- `x.Exactly P Q`: the call succeeds where `P` holds and nowhere else, with a value and a state that satisfy `Q`. -/
structure Exactly (x : Outcome ε σ α) (P : Prop) (Q : α → σ → Prop) : Prop where
  only : ∀ a s, x = .ok a s → P ∧ Q a s
  succeeds : P → ∃ a s, x = .ok a s

variable {x : Outcome ε σ α} {f : α → σ → Outcome ε σ β} {P P' : Prop} {Q Q' : α → σ → Prop} {R : β → σ → Prop}

theorem exactly_ok {a : α} {s : σ} (hP : P) (hQ : Q a s) : (ok a s : Outcome ε σ α).Exactly P Q :=
  ⟨fun b t hb => by cases hb; exact ⟨hP, hQ⟩, fun _ => ⟨a, s, rfl⟩⟩

theorem exactly_err {c : ε} {s : σ} (hP : ¬ P) : (err c s : Outcome ε σ α).Exactly P Q := ⟨nofun, fun h => absurd h hP⟩

theorem exactly_stop {t : Fault} (hP : ¬ P) : (stop t : Outcome ε σ α).Exactly P Q := ⟨nofun, fun h => absurd h hP⟩

/-- The rule of sequencing. -/
theorem exactly_bind (hx : x.Exactly P Q) (hf : ∀ a s, Q a s → (f a s).Exactly P' R) : (x.bind f).Exactly (P ∧ P') R := by
  constructor
  · intro b t hrun
    obtain ⟨a, s, hfirst, hrest⟩ := bind_eq_ok.mp hrun
    obtain ⟨hP, hQ⟩ := hx.only a s hfirst
    obtain ⟨hP', hR⟩ := (hf a s hQ).only b t hrest
    exact ⟨⟨hP, hP'⟩, hR⟩
  · rintro ⟨hP, hP'⟩
    obtain ⟨a, s, hfirst⟩ := hx.succeeds hP
    rw [hfirst, bind_ok]
    exact (hf a s (hx.only a s hfirst).2).succeeds hP'

/-- The rule of consequence. -/
theorem exactly_mono (hx : x.Exactly P Q) (hP : P ↔ P') (hQ : ∀ a s, P → Q a s → Q' a s) : x.Exactly P' Q' := by
  constructor
  · intro a s hrun
    obtain ⟨h, hq⟩ := hx.only a s hrun
    exact ⟨hP.mp h, hQ a s h hq⟩
  · exact fun h => hx.succeeds (hP.mpr h)

end Outcome

/-! ## The loop -/

def each (f : ι → α → σ → Outcome ε σ α) : List ι → α → σ → Outcome ε σ α
  | [], a, s => .ok a s
  | i :: is, a, s => (f i a s).bind fun a s => each f is a s

variable {f : ι → α → σ → Outcome ε σ α}

/-- What every round keeps, with the places that are left, holds at the end. -/
theorem each_inv {P : List ι → α → σ → Prop}
    (hround : ∀ i is a s a' s', P (i :: is) a s → f i a s = .ok a' s' → P is a' s') :
    ∀ {is a s a' s'}, P is a s → each f is a s = .ok a' s' → P [] a' s' := by
  intro is
  induction is with
  | nil =>
    intro a s a' s' hP hrun
    cases hrun
    exact hP
  | cons i is ih =>
    intro a s a' s' hP hrun
    obtain ⟨a₁, s₁, hfirst, hrest⟩ := bind_eq_ok.mp hrun
    exact ih (hround i is a s a₁ s₁ hP hfirst) hrest

end LibElf
