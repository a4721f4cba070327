import LibElf.Toolchain.Resync

/-!
# The list of extents

A sequence of calls of `_libelf_insert_extent`, with the sums taken as true integers. Where no sum reaches
`2 ^ 64` the list is a set of disjoint ranges in ascending order.

1. `Extent.Disjoint` and `Ranges`, what the list should be.
2. `insertExtent_isSome_iff`: on a sorted list the scan that stops early misses no overlap.
3. `extent_list_run`, for every sequence of insertions.
-/

namespace LibElf.Toolchain

/-- The ranges of two extents have no byte in common. -/
def Extent.Disjoint (a b : Extent) : Prop := a.stop ≤ b.exStart ∨ b.stop ≤ a.exStart

instance (a b : Extent) : Decidable (a.Disjoint b) := inferInstanceAs (Decidable (_ ∨ _))

/-- A set of disjoint ranges in ascending order. -/
structure Ranges (exs : List Extent) : Prop where
  ordered : exs.Pairwise fun a b => a.exStart ≤ b.exStart
  disjoint : exs.Pairwise Extent.Disjoint

/-- A range that is not empty and does not wrap around. -/
def Extent.Fits (ex : Extent) : Prop := 0 < ex.exSize ∧ ex.stop < 2 ^ 64

instance (ex : Extent) : Decidable ex.Fits := inferInstanceAs (Decidable (_ ∧ _))

/-- One call of `_libelf_insert_extent`. In an error it leaves the list as it is. -/
def insertStep (exs : List Extent) (ex : Extent) : List Extent := (insertExtent ex exs).getD exs

theorem Sorted.ranges {exs : List Extent} (h : Sorted exs) : Ranges exs :=
  ⟨h.imp fun {a _} hab => le_trans (Nat.le_add_right a.exStart a.exSize) hab, h.imp fun hab => .inl hab⟩

/-- On a sorted list the extent is accepted exactly where it overlaps nothing. -/
theorem insertExtent_isSome_iff {ex : Extent} {l : List Extent} (hs : Sorted l) (hl : ∀ x ∈ l, x.Fits)
    (hex : ex.Fits) : (insertExtent ex l).isSome ↔ ∀ x ∈ l, ex.Disjoint x := by
  induction l with
  | nil => exact ⟨nofun, fun _ => rfl⟩
  | cons t ts ih =>
    obtain ⟨hhead, htail⟩ := List.pairwise_cons.mp hs
    have ht := hl t List.mem_cons_self
    have hrest : ∀ x ∈ ts, x.Fits := fun x hx => hl x (.tail _ hx)
    rw [insertExtent, Extent.tmax_eq ht.2, Extent.tmax_eq hex.2, List.forall_mem_cons]
    split
    · next hbefore =>
      rw [Option.isSome_map, ih htail hrest]
      exact ⟨fun h => ⟨.inr hbefore, h⟩, fun h => h.2⟩
    · next hbefore =>
      split
      · next hafter =>
        -- all that follows starts behind the extent as well
        refine ⟨fun _ => ⟨.inl hafter, fun x hx => .inl ?_⟩, fun _ => rfl⟩
        have hx : t.stop ≤ x.exStart := hhead x hx
        exact le_trans hafter (le_trans (Nat.le_add_right t.exStart t.exSize) hx)
      · next hafter =>
        refine ⟨nofun, fun h => absurd h.1 ?_⟩
        rintro (h | h)
        · exact hafter h
        · exact hbefore h

/-- An insertion keeps the list sorted. -/
theorem insertStep_sorted {ex : Extent} {l : List Extent} (hs : Sorted l) (hl : ∀ x ∈ l, x.Fits)
    (hex : ex.Fits) : Sorted (insertStep l ex) ∧ ∀ x ∈ insertStep l ex, x.Fits := by
  unfold insertStep
  cases hins : insertExtent ex l with
  | none => exact ⟨hs, hl⟩
  | some l' =>
    refine ⟨insertExtent_sorted hins hs (fun x hx => (hl x hx).2) hex.2, fun x hx => ?_⟩
    rcases (mem_insertExtent hins).mp hx with rfl | hx
    · exact hex
    · exact hl x hx

theorem foldl_insertStep_sorted (exs : List Extent) : ∀ {l : List Extent}, Sorted l → (∀ x ∈ l, x.Fits) →
    (∀ x ∈ exs, x.Fits) → Sorted (exs.foldl insertStep l) ∧ ∀ x ∈ exs.foldl insertStep l, x.Fits := by
  induction exs with
  | nil => exact fun hs hl _ => ⟨hs, hl⟩
  | cons ex exs ih =>
    intro l hs hl hexs
    obtain ⟨hex, hrest⟩ := List.forall_mem_cons.mp hexs
    obtain ⟨hs', hl'⟩ := insertStep_sorted hs hl hex
    exact ih hs' hl' hrest

/-- After any insertions of ranges that do not wrap around, the list is a set of disjoint ranges in order. The next
such insertion succeeds exactly where its range is free; it then adds the range, and leaves the list as it is
otherwise. -/
theorem extent_list_run (exs : List Extent) (hexs : ∀ ex ∈ exs, ex.Fits) :
    Ranges (exs.foldl insertStep []) ∧ ∀ ex : Extent, ex.Fits →
      ((insertExtent ex (exs.foldl insertStep [])).isSome ↔
        ∀ x ∈ exs.foldl insertStep [], ex.Disjoint x) ∧
      ((∀ x ∈ exs.foldl insertStep [], ex.Disjoint x) →
        (insertStep (exs.foldl insertStep []) ex).Perm (ex :: exs.foldl insertStep [])) ∧
      (¬ (∀ x ∈ exs.foldl insertStep [], ex.Disjoint x) →
        insertStep (exs.foldl insertStep []) ex = exs.foldl insertStep []) := by
  obtain ⟨hs, hl⟩ := foldl_insertStep_sorted exs List.Pairwise.nil (by simp) hexs
  generalize exs.foldl insertStep [] = l at hs hl
  refine ⟨hs.ranges, fun ex hex => ?_⟩
  have hiff := insertExtent_isSome_iff hs hl hex
  refine ⟨hiff, fun hfree => ?_, fun hused => ?_⟩
  · obtain ⟨l', hins⟩ := Option.isSome_iff_exists.mp (hiff.mpr hfree)
    unfold insertStep
    rw [hins]
    exact insertExtent_perm hins
  · have hnone : insertExtent ex l = none := Option.not_isSome_iff_eq_none.mp (mt hiff.mp hused)
    unfold insertStep
    rw [hnone]
    rfl

/-- Two extents side by side, and one that overlaps them. -/
theorem extent_list_three :
    Ranges ([⟨64, 8, .scn, 1⟩, ⟨0, 64, .ehdr, 0⟩, ⟨60, 8, .scn, 2⟩].foldl insertStep []) :=
  (extent_list_run [⟨64, 8, .scn, 1⟩, ⟨0, 64, .ehdr, 0⟩, ⟨60, 8, .scn, 2⟩] (by decide)).1

/-- A sum that reaches `2 ^ 64` is taken for a small one: the second range is accepted although it covers the first. -/
theorem wrapped_extent_accepted : ∃ a b : Extent, a.exStart < 2 ^ 64 ∧ b.exStart < 2 ^ 64 ∧ 0 < a.exSize ∧
    0 < b.exSize ∧ b.exSize < 2 ^ 64 ∧ insertExtent b (insertStep [] a) = some [b, a] ∧ ¬ b.Disjoint a :=
  ⟨⟨64, 8, .scn, 1⟩, ⟨16, 2 ^ 64 - 16, .scn, 2⟩, by decide⟩

end LibElf.Toolchain
