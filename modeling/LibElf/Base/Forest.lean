import Mathlib.Tactic.Common

/-!
# Cells below cells

Objects that are allocated one after the other and freed in any order. Each has at most one parent, an object
allocated before it.

1. `Forest γ` says how a cell names its parent and whether it is alive; `children` counts the live cells below
   a cell, and `children_append` and `children_set` say what an allocation and an assignment do to the count.
2. `Rooted`: no live cell has a dead parent. `Rooted.append` and `Rooted.set` are its rules; the second covers
   an assignment, a change of parent, and the end of a cell that has no children left.
-/

namespace LibElf

/-- How a cell names its parent, and whether it is alive. -/
structure Forest (γ : Type) where
  parent : γ → Option Nat
  alive : γ → Bool

namespace Forest

variable {γ : Type} (F : Forest γ)

/-- The cell is alive and has the parent `p`. -/
def child (p : Nat) (c : γ) : Bool := F.alive c && decide (F.parent c = some p)

/-- The number of live cells below `p`. -/
def children (l : List γ) (p : Nat) : Nat := l.countP (F.child p)

variable {F} {l : List γ} {i p : Nat} {c c' : γ}

@[simp] theorem child_iff : F.child p c = true ↔ F.alive c = true ∧ F.parent c = some p := by
  simp [child]

theorem child_eq_false (h : F.alive c = false) : F.child p c = false := by
  simp [child, h]

theorem children_append : F.children (l ++ [c]) p = F.children l p + (F.child p c).toNat := by
  unfold children
  rw [List.countP_append, List.countP_singleton]
  cases F.child p c <;> rfl

theorem children_set (h : l[i]? = some c) :
    F.children (l.set i c') p + (F.child p c).toNat = F.children l p + (F.child p c').toNat := by
  obtain ⟨hi, rfl⟩ := List.getElem?_eq_some_iff.mp h
  -- the cell that goes away has been counted, if it was a child
  have hcounted : (F.child p l[i]).toNat ≤ F.children l p := by
    cases hc : F.child p l[i] with
    | false => exact Nat.zero_le _
    | true => exact List.countP_pos_iff.mpr ⟨l[i], List.getElem_mem hi, hc⟩
  unfold children at hcounted ⊢
  rw [List.countP_set hi]
  cases hc : F.child p l[i] <;> cases F.child p c' <;> rw [hc] at hcounted <;>
    simp only [Bool.toNat_true, Bool.toNat_false, if_true, Bool.false_eq_true, if_false] at hcounted ⊢ <;>
    omega

/-- An assignment that keeps the parent keeps the counts. -/
theorem children_set_same (h : l[i]? = some c) (halive : F.alive c' = F.alive c)
    (hparent : F.parent c' = F.parent c) : F.children (l.set i c') p = F.children l p := by
  have hchild : F.child p c' = F.child p c := by
    unfold child
    rw [halive, hparent]
  have := @children_set _ F l i p c c' h
  rw [hchild] at this
  exact Nat.add_right_cancel this

theorem children_eq_zero_iff :
    F.children l p = 0 ↔ ∀ (i : Nat) (c : γ), l[i]? = some c → F.alive c = true → F.parent c ≠ some p := by
  unfold children
  rw [List.countP_eq_zero]
  constructor
  · intro h i c hc halive hparent
    exact h c (List.mem_of_getElem? hc) (child_iff.mpr ⟨halive, hparent⟩)
  · intro h c hmem hchild
    obtain ⟨halive, hparent⟩ := child_iff.mp hchild
    obtain ⟨i, hi⟩ := List.mem_iff_getElem?.mp hmem
    exact h i c hi halive hparent

/-! ## No live cell has a dead parent -/

variable (F) in
/-- The parent of a live cell is a live cell that was allocated before it. -/
def Rooted (l : List γ) : Prop :=
  ∀ (i : Nat) (c : γ) (p : Nat), l[i]? = some c → F.alive c = true → F.parent c = some p →
    p < i ∧ ∃ d, l[p]? = some d ∧ F.alive d = true

theorem Rooted.nil : F.Rooted ([] : List γ) := by
  intro i c p h
  cases h

/-- A cell that no live cell names as its parent has no children. -/
theorem Rooted.children_eq_zero (hr : F.Rooted l) (hdead : ∀ d, l[p]? = some d → F.alive d = false) :
    F.children l p = 0 := by
  rw [children_eq_zero_iff]
  intro i c hc halive hparent
  obtain ⟨-, d, hd, hlive⟩ := hr i c p hc halive hparent
  rw [hdead d hd] at hlive
  cases hlive

/-- The cell to be allocated next has no children yet. -/
theorem Rooted.children_length (hr : F.Rooted l) : F.children l l.length = 0 :=
  hr.children_eq_zero fun d hd => by simp at hd

theorem Rooted.append (hr : F.Rooted l) (hnew : F.parent c = none) : F.Rooted (l ++ [c]) := by
  intro i x p hx halive hparent
  rcases Nat.lt_or_ge i l.length with hi | hi
  · rw [List.getElem?_append_left hi] at hx
    obtain ⟨hlt, d, hd, hlive⟩ := hr i x p hx halive hparent
    exact ⟨hlt, d, by rw [List.getElem?_append_left (Nat.lt_trans hlt hi), hd], hlive⟩
  · rw [List.getElem?_append_right hi] at hx
    obtain rfl : c = x := by
      have hx := List.mem_of_getElem? hx
      exact (List.mem_singleton.mp hx).symm
    rw [hnew] at hparent
    cases hparent

theorem Rooted.set (hr : F.Rooted l)
    (hnew : ∀ p, F.alive c' = true → F.parent c' = some p →
      p < i ∧ ∃ d, l[p]? = some d ∧ F.alive d = true)
    (hold : F.alive c' = true ∨ F.children l i = 0) : F.Rooted (l.set i c') := by
  -- a cell that was the parent of a live one still is alive
  have hkeep : ∀ (p : Nat) (d : γ), (∃ (j : Nat) (x : γ), l[j]? = some x ∧ F.alive x = true ∧ F.parent x = some p) → l[p]? = some d →
      F.alive d = true → ∃ d', (l.set i c')[p]? = some d' ∧ F.alive d' = true := by
    rintro p d ⟨j, x, hx, halive, hparent⟩ hd hlive
    by_cases hpi : i = p
    · subst hpi
      obtain ⟨hi, -⟩ := List.getElem?_eq_some_iff.mp hd
      refine ⟨c', List.getElem?_set_self hi, hold.resolve_right fun hzero => ?_⟩
      exact children_eq_zero_iff.mp hzero j x hx halive hparent
    · exact ⟨d, by rw [List.getElem?_set_ne hpi, hd], hlive⟩
  intro j x p hx halive hparent
  by_cases hji : i = j
  · subst hji
    have hi : i < l.length := by
      obtain ⟨hi, -⟩ := List.getElem?_eq_some_iff.mp hx
      rwa [List.length_set] at hi
    rw [List.getElem?_set_self hi] at hx
    obtain rfl := Option.some.inj hx
    obtain ⟨hlt, d, hd, hlive⟩ := hnew p halive hparent
    exact ⟨hlt, d, by rw [List.getElem?_set_ne (Nat.ne_of_gt hlt), hd], hlive⟩
  · rw [List.getElem?_set_ne hji] at hx
    obtain ⟨hlt, d, hd, hlive⟩ := hr j x p hx halive hparent
    exact ⟨hlt, hkeep p d ⟨j, x, hx, halive, hparent⟩ hd hlive⟩

end Forest

end LibElf
