import LibElf.Base.Word

/-!
# Packing aligned pieces

Pieces with an alignment and a size are laid out one after the other, each at the next multiple of
its alignment. The arithmetic is that of natural numbers.

1. `packEnd` is the end of the last piece, and `packAt` the offset of one piece.
2. `le_packEnd` and `packAt_add_le`: the pieces lie between the start and the end.
3. `EmptyIgnored`, that the empty pieces do not move the others.
-/

namespace LibElf

structure Demand where
  align : Nat
  size : Nat
deriving DecidableEq

/-- The end of the pieces `ds`, placed from `rc` on. -/
def packEnd : Nat → List Demand → Nat
  | rc, [] => rc
  | rc, d :: ds => packEnd (ceilTo rc d.align + d.size) ds

/-- The offset of the piece `d` placed after the pieces `before`, from `rc` on. -/
def packAt (rc : Nat) (before : List Demand) (d : Demand) : Nat := ceilTo (packEnd rc before) d.align

theorem packEnd_append (rc : Nat) (ds ds' : List Demand) :
    packEnd rc (ds ++ ds') = packEnd (packEnd rc ds) ds' := by
  induction ds generalizing rc with
  | nil => rfl
  | cons d ds ih => exact ih _

theorem packEnd_concat (rc : Nat) (ds : List Demand) (d : Demand) :
    packEnd rc (ds ++ [d]) = packAt rc ds d + d.size := packEnd_append rc ds [d]

section Aligned

variable {rc : Nat} {ds : List Demand}

def Aligned (ds : List Demand) : Prop := ∀ d ∈ ds, 0 < d.align

theorem le_packEnd (h : Aligned ds) : rc ≤ packEnd rc ds := by
  induction ds generalizing rc with
  | nil => exact Nat.le_refl rc
  | cons d ds ih =>
    have hd : rc ≤ ceilTo rc d.align := le_ceilTo (h d List.mem_cons_self)
    have htail : Aligned ds := fun x hx => h x (List.mem_cons_of_mem d hx)
    have hrest : ceilTo rc d.align + d.size ≤ packEnd (ceilTo rc d.align + d.size) ds := ih htail
    rw [packEnd]
    omega

theorem packEnd_le_append {ds' : List Demand} (h : Aligned ds') :
    packEnd rc ds ≤ packEnd rc (ds ++ ds') := by
  rw [packEnd_append]
  exact le_packEnd h

/-- A piece ends at or before the end of all pieces. -/
theorem packAt_add_le {d : Demand} {after : List Demand} (h : Aligned after) :
    packAt rc ds d + d.size ≤ packEnd rc (ds ++ d :: after) := by
  rw [← packEnd_concat, show ds ++ d :: after = ds ++ [d] ++ after by simp]
  exact packEnd_le_append h

theorem size_le_packEnd {d : Demand} (h : Aligned ds) (hd : d ∈ ds) : d.size ≤ packEnd rc ds := by
  obtain ⟨before, after, rfl⟩ := List.append_of_mem hd
  have hafter : Aligned after := fun x hx => h x (List.mem_append_right _ (List.mem_cons_of_mem d hx))
  exact Nat.le_trans (Nat.le_add_left _ _) (packAt_add_le hafter)

end Aligned

/-- Every piece that is not empty has the place that it would have without the empty ones: `rc` is the end of the
pieces before, and `rc'` the end without the empty ones of them. -/
def EmptyIgnored : Nat → Nat → List Demand → Prop
  | _, _, [] => True
  | rc, rc', d :: ds =>
    if d.size = 0 then EmptyIgnored (ceilTo rc d.align) rc' ds
    else ceilTo rc d.align = ceilTo rc' d.align ∧
      EmptyIgnored (ceilTo rc d.align + d.size) (ceilTo rc' d.align + d.size) ds

instance decidableEmptyIgnored : ∀ rc rc' ds, Decidable (EmptyIgnored rc rc' ds)
  | _, _, [] => isTrue trivial
  | rc, rc', d :: ds =>
    have := decidableEmptyIgnored (ceilTo rc d.align) rc' ds
    have := decidableEmptyIgnored (ceilTo rc d.align + d.size) (ceilTo rc' d.align + d.size) ds
    inferInstanceAs (Decidable (if d.size = 0 then EmptyIgnored (ceilTo rc d.align) rc' ds
      else ceilTo rc d.align = ceilTo rc' d.align ∧
        EmptyIgnored (ceilTo rc d.align + d.size) (ceilTo rc' d.align + d.size) ds))

end LibElf
