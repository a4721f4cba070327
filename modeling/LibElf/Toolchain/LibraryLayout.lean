import LibElf.Toolchain.NewImage

/-!
# The layout that the library makes

Without `ELF_F_LAYOUT` the library places the headers and the sections itself. This module compares
the headers it leaves with the exact places, those that natural numbers give.

1. `exactEnd` and `exactStart`, the exact places, and `LayoutRun.stored`: what the section headers say.
2. `Part` and `partRange`, the ranges of the file that the headers describe, and `exactRange`.
3. `SoundLayout`, `ExactLayout`, and `library_layout_sound_iff`: the first holds after a layout exactly
   when the second holds before it.
-/

namespace LibElf.Toolchain

open Outcome

/-! ## Exact places -/

section Exact

variable (e : Elf) (ec : ElfClass)

/-- The exact end of what comes before section `i`. -/
def exactEnd (i : Nat) : Nat := packEnd (headersEnd ec e.eNphdr) (scnDemands e ec (e.eScn.take i))

/-- The exact start of section `i`. -/
def exactStart (i : Nat) (s : Scn) : Nat := ceilTo (exactEnd e ec i) (scnAlign ec s)

/-- The exact end of all sections. -/
def sectionsEnd : Nat := packEnd (headersEnd ec e.eNphdr) (scnDemands e ec e.eScn)

/-- The size that the layout returns when the sections end at their exact end. -/
def layoutSize : Nat :=
  if e.eNscn = 0 then sectionsEnd e ec
  else
    let tableEnd := wrap (tableOffset e ec + libelfFsize .shdr ec e.eNscn)
    if sgt tableEnd (sectionsEnd e ec) then tableEnd else sectionsEnd e ec

variable {e ec}

theorem exactEnd_length : exactEnd e ec e.eScn.length = sectionsEnd e ec := by
  rw [exactEnd, List.take_length, sectionsEnd]

theorem exactEnd_succ {i : Nat} {s : Scn} (hs : e.eScn[i]? = some s) :
    exactEnd e ec (i + 1) = if s.isSkipped = false ∧ exactSize e ec s ≠ 0 then
      exactStart e ec i s + exactSize e ec s else exactEnd e ec i := by
  have happend : scnDemands e ec (e.eScn.take (i + 1)) = scnDemands e ec (e.eScn.take i) ++
      scnDemands e ec [s] := by
    rw [List.take_add_one, hs]
    simp [scnDemands]
  rw [exactEnd, happend, packEnd_append]
  split
  · next h => simp [scnDemands, h.1, h.2, packEnd, exactStart, exactEnd]
  · next h =>
    have hnone : scnDemands e ec [s] = [] := by simpa [scnDemands] using h
    rw [hnone]
    rfl

section Placed

variable (hplace : ∀ s ∈ e.eScn, s.isSkipped = false → Placeable e ec s)
include hplace

theorem exactEnd_le (i k : Nat) : exactEnd e ec i ≤ exactEnd e ec (i + k) := by
  have htake : e.eScn.take (i + k) = e.eScn.take i ++ (e.eScn.drop i).take k := List.take_add
  have halign : Aligned (scnDemands e ec ((e.eScn.drop i).take k)) :=
    aligned_scnDemands fun s hs => hplace s (List.mem_of_mem_drop (List.mem_of_mem_take hs))
  have happend : scnDemands e ec (e.eScn.take (i + k)) =
      scnDemands e ec (e.eScn.take i) ++ scnDemands e ec ((e.eScn.drop i).take k) := by
    rw [htake]
    simp [scnDemands]
  rw [exactEnd, exactEnd, happend]
  exact packEnd_le_append halign

theorem exactEnd_mono {i j : Nat} (h : i ≤ j) : exactEnd e ec i ≤ exactEnd e ec j := by
  obtain ⟨k, rfl⟩ := Nat.exists_eq_add_of_le h
  exact exactEnd_le hplace i k

theorem exactEnd_le_start {i : Nat} {s : Scn} (hs : e.eScn[i]? = some s) (hkeep : s.isSkipped = false) :
    exactEnd e ec i ≤ exactStart e ec i s :=
  le_ceilTo (hplace s (List.mem_of_getElem? hs) hkeep).align

theorem headersEnd_le_start {i : Nat} {s : Scn} (hs : e.eScn[i]? = some s) (hkeep : s.isSkipped = false) :
    headersEnd ec e.eNphdr ≤ exactStart e ec i s :=
  Nat.le_trans (exactEnd_mono hplace (Nat.zero_le i)) (exactEnd_le_start hplace hs hkeep)

/-- A section with contents ends before the next ones start. -/
theorem exactStart_add_le {i j : Nat} {s : Scn} (hs : e.eScn[i]? = some s) (hkeep : s.isSkipped = false)
    (hne : exactSize e ec s ≠ 0) (hij : i < j) :
    exactStart e ec i s + exactSize e ec s ≤ exactEnd e ec j := by
  have h := exactEnd_mono hplace (Nat.succ_le_of_lt hij)
  rwa [exactEnd_succ hs, if_pos ⟨hkeep, hne⟩] at h

end Placed

/-- The sections end below a bound when the headers and every section with contents do. -/
theorem sectionsEnd_lt {bound : Nat} (hhdr : headersEnd ec e.eNphdr < bound)
    (hscn : ∀ i s, e.eScn[i]? = some s → s.isSkipped = false →
      exactStart e ec i s + exactSize e ec s < bound) : sectionsEnd e ec < bound := by
  have hall : ∀ i, i ≤ e.eScn.length → exactEnd e ec i < bound := by
    intro i
    induction i with
    | zero => exact fun _ => hhdr
    | succ i ih =>
      intro hi
      have hs : e.eScn[i]? = some e.eScn[i] := List.getElem?_eq_getElem hi
      rw [exactEnd_succ hs]
      split
      · next h => exact hscn i _ hs h.1
      · exact ih (Nat.le_of_succ_le hi)
  rw [← exactEnd_length]
  exact hall _ (Nat.le_refl _)

end Exact

/-! ## What the headers say -/

section Stored

variable {env : Env} {ec : ElfClass} {e e' : Elf} {rc : Nat} {exs : List Extent}
variable (r : LayoutRun env ec e rc exs e')

/-- The header of a section after a layout whose sections end below `2 ^ 63`. -/
theorem LayoutRun.stored (hlay : r.start.eFlags.layout = false) (hend : sectionsEnd r.start ec < 2 ^ 63)
    (hp : r.start.eNphdr * msize .phdr ec < 2 ^ 64) {i : Nat} {s : Scn} (hs : r.start.eScn[i]? = some s)
    (hkeep : s.isSkipped = false) : ∃ t, e'.eScn[i]? = some t ∧ t.isSkipped = false ∧
      ec.get t.shdr.shSize = storedSize r.start ec i s ∧
      ec.get t.shdr.shAddralign = scnAlign ec s % 2 ^ ec.width ∧
      (exactStart r.start ec i s < 2 ^ 63 →
        ec.get t.shdr.shOffset = exactStart r.start ec i s % 2 ^ ec.width) := by
  have hplace := r.placeable hlay
  obtain ⟨u, hu, ⟨hskip, _⟩ | ⟨_, hlaid⟩⟩ := r.sections.spec.2.2 i s hs
  · rw [hkeep] at hskip
    cases hskip
  obtain ⟨t, ht, hnum⟩ := @numberScns_of_getElem? ec r.start.eNphdr
    r.start.eNscn _ _ _ hu
  have hset := hlaid.settled
  obtain ⟨hsize, htype⟩ := hlaid.stored hnum
  have hshdr := hset.shdr
  rw [hlay, if_neg Bool.false_ne_true] at hshdr
  refine ⟨t, by rw [r.eScn]; exact ht, by rw [Scn.isSkipped, htype, ← Scn.isSkipped, hkeep], hsize, ?_, ?_⟩
  · rw [hnum.shAddralign, hshdr, ElfClass.get_put]
  · intro hlt
    -- the code's running end is the exact one
    have hrc₁ := (r.packed hlay hend hp).1
    have hprefix : packEnd (headersEnd ec r.start.eNphdr)
        (scnDemands r.start ec (r.start.eScn.take i)) < 2 ^ 63 :=
      Nat.lt_of_le_of_lt (exactEnd_le_start hplace hs hkeep) hlt
    have hrun := (rcAt_fit hlay (headersEnd_pos _)
      (fun s hs => hplace s (List.mem_of_mem_take hs)) hprefix).1
    have hpos : 0 < packEnd (headersEnd ec r.start.eNphdr)
        (scnDemands r.start ec (r.start.eScn.take i)) :=
      Nat.lt_of_lt_of_le (headersEnd_pos _) (exactEnd_mono hplace (Nat.zero_le i))
    have halign := (hplace s (List.mem_of_getElem? hs) hkeep).align
    have hoff : scnOffset r.start ec (rcAt r.start ec r.rc₁ (r.start.eScn.take i)) s =
        exactStart r.start ec i s := by
      rw [scnOffset, hlay, if_neg Bool.false_ne_true, hrc₁, hrun]
      exact roundUp_eq_of_ceilTo_lt hpos halign hlt
    rw [hnum.shOffset, hshdr, ElfClass.get_put, hoff]

theorem fsize_ehdr_le (ec : ElfClass) : fsize .ehdr ec ≤ 64 := by
  cases ec <;> decide

/-- What the executable header says, and the size returned. -/
theorem LayoutRun.storedHeader (hlay : r.start.eFlags.layout = false) : ∃ h, e'.eEhdr = some h ∧
    (r.start.eNphdr ≠ 0 → ec.get h.ePhoff = fsize .ehdr ec) ∧
    (sectionsEnd r.start ec < 2 ^ 63 → r.start.eNphdr * msize .phdr ec < 2 ^ 64 →
      rc = layoutSize r.start ec ∧
      (r.start.eNscn ≠ 0 → ec.get h.eShoff = tableOffset r.start ec % 2 ^ ec.width)) := by
  refine ⟨_, r.eEhdr, fun hne => ?_, fun hend hp => ?_⟩
  · have hphdr := r.phdr
    rw [hlay] at hphdr
    rw [hlay, placeEhdr, if_neg Bool.false_ne_true, ElfClass.get_put, (hphdr.off_library hne).1,
      Nat.mod_eq_of_lt (fsize_ehdr_lt ec)]
  · have hrc₂ : r.rc₂ = sectionsEnd r.start ec := (r.packed hlay hend hp).2.1
    have hround : roundUpSigned r.rc₂ (falign (some .shdr) ec) = tableOffset r.start ec := by
      rw [hrc₂, tableOffset, sectionsEnd]
    have hoff : r.start.eNscn ≠ 0 → r.shoff = tableOffset r.start ec := by
      intro hn
      rw [(r.shdr.off_eq hn).1, hlay, if_neg Bool.false_ne_true, hround]
    constructor
    · refine r.shdr.end_eq.trans ?_
      rw [layoutSize, hrc₂]
      split
      · rfl
      · next hn => rw [hoff hn]
    · intro hn
      rw [hlay, placeEhdr, if_neg Bool.false_ne_true, ElfClass.get_put, hoff hn]

end Stored

/-! ## Ranges -/

inductive Part
  | ehdr
  | phdr
  | shdr
  | scn (i : Nat)

section Ranges

variable (e : Elf) (ec : ElfClass)

/-- The start and the length of a part as the headers describe it; an empty part has none. -/
def partRange (h : Ehdr) : Part → Option (Nat × Nat)
  | .ehdr => some (0, fsize .ehdr ec)
  | .phdr => if e.eNphdr = 0 then none else some (ec.get h.ePhoff, e.eNphdr * fsize .phdr ec)
  | .shdr => if e.eNscn = 0 then none else some (ec.get h.eShoff, e.eNscn * fsize .shdr ec)
  | .scn i =>
    match e.eScn[i]? with
    | none => none
    | some s =>
      if s.isSkipped ∨ ec.get s.shdr.shSize = 0 then none
      else some (ec.get s.shdr.shOffset, ec.get s.shdr.shSize)

/-- The same before a layout, from the exact places. The offset of the section header table is what
its field can hold. -/
def exactRange : Part → Option (Nat × Nat)
  | .ehdr => some (0, fsize .ehdr ec)
  | .phdr => if e.eNphdr = 0 then none else some (fsize .ehdr ec, e.eNphdr * fsize .phdr ec)
  | .shdr => if e.eNscn = 0 then none else some (tableOffset e ec % 2 ^ ec.width, e.eNscn * fsize .shdr ec)
  | .scn i =>
    match e.eScn[i]? with
    | none => none
    | some s =>
      if s.isSkipped ∨ exactSize e ec s = 0 then none
      else some (exactStart e ec i s, exactSize e ec s)

/-- Two ranges do not meet. -/
def Apart (x y : Nat × Nat) : Prop := x.1 + x.2 ≤ y.1 ∨ y.1 + y.2 ≤ x.1

/-- What a sound library layout leaves: `start` is the state it started from, `e` the one it leaves
with the executable header `h`, and `n` the size it returned. -/
structure SoundLayout (n : Nat) (start : Elf) (h : Ehdr) : Prop where
  exact : ∀ i s t, start.eScn[i]? = some s → e.eScn[i]? = some t → t.isSkipped = false →
    ec.get t.shdr.shOffset = exactStart start ec i s ∧ ec.get t.shdr.shSize = exactSize start ec s
  aligned : ∀ t ∈ e.eScn, t.isSkipped = false → ec.get t.shdr.shAddralign ∣ ec.get t.shdr.shOffset
  inside : ∀ t ∈ e.eScn, t.isSkipped = false → ec.get t.shdr.shOffset + ec.get t.shdr.shSize ≤ n
  apart : ∀ a b x y, a ≠ b → partRange e ec h a = some x → partRange e ec h b = some y → Apart x y

/-- A state with a sound library layout: the exact places can be stored, no section starts beyond the
size returned, and the section header table is found where it is, or at least apart from the rest. -/
structure ExactLayout : Prop where
  small : e.eNscn ≠ 0 ∨ (∃ s ∈ e.eScn, s.isSkipped = false) → sectionsEnd e ec < 2 ^ 63
  scns : ∀ i s, e.eScn[i]? = some s → s.isSkipped = false → exactStart e ec i s < 2 ^ ec.width ∧
    storedSize e ec i s = exactSize e ec s ∧ exactStart e ec i s + exactSize e ec s ≤ layoutSize e ec
  table : ∀ a x y, a ≠ .shdr → exactRange e ec a = some x → exactRange e ec .shdr = some y → Apart x y

variable {e ec}

theorem Apart.symm {x y : Nat × Nat} (h : Apart x y) : Apart y x := Or.symm h

theorem layoutSize_lt (h : sectionsEnd e ec < 2 ^ 63) : layoutSize e ec < 2 ^ 63 := by
  unfold layoutSize
  split
  · exact h
  · dsimp only
    split
    · next hgt =>
      by_contra hge
      have hneg : sgt (wrap (tableOffset e ec + libelfFsize .shdr ec e.eNscn)) (sectionsEnd e ec) = false :=
        sgt_of_neg (by omega) h
      rw [hneg] at hgt
      cases hgt
    · exact h

/-- The exact ranges, but for that of the section header table, come one after the other. -/
theorem exactRange_apart (hplace : ∀ s ∈ e.eScn, s.isSkipped = false → Placeable e ec s) {a b : Part}
    {x y : Nat × Nat} (hne : a ≠ b) (ha : a ≠ .shdr) (hb : b ≠ .shdr) (hx : exactRange e ec a = some x)
    (hy : exactRange e ec b = some y) : Apart x y := by
  -- a section comes after the headers, and after the sections with a smaller index
  have hscn : ∀ {i : Nat} {z : Nat × Nat}, exactRange e ec (.scn i) = some z → ∃ s, e.eScn[i]? = some s ∧
      s.isSkipped = false ∧ exactSize e ec s ≠ 0 ∧ z = (exactStart e ec i s, exactSize e ec s) := by
    intro i z hz
    unfold exactRange at hz
    dsimp only at hz
    split at hz
    · cases hz
    next s hs =>
    split at hz
    · cases hz
    next h =>
    cases hz
    rw [not_or] at h
    exact ⟨s, hs, by simpa using h.1, h.2, rfl⟩
  have hafter : ∀ {i : Nat} {z : Nat × Nat}, exactRange e ec (.scn i) = some z →
      headersEnd ec e.eNphdr ≤ z.1 := by
    intro i z hz
    obtain ⟨s, hs, hkeep, _, rfl⟩ := hscn hz
    exact headersEnd_le_start hplace hs hkeep
  have horder : ∀ {i j : Nat} {z z' : Nat × Nat}, i < j → exactRange e ec (.scn i) = some z →
      exactRange e ec (.scn j) = some z' → z.1 + z.2 ≤ z'.1 := by
    intro i j z z' hij hz hz'
    obtain ⟨s, hs, hkeep, hne, rfl⟩ := hscn hz
    obtain ⟨s', hs', hkeep', _, rfl⟩ := hscn hz'
    exact Nat.le_trans (exactStart_add_le hplace hs hkeep hne hij) (exactEnd_le_start hplace hs' hkeep')
  have hehdr : ∀ {z : Nat × Nat}, exactRange e ec .ehdr = some z → z.1 + z.2 = fsize .ehdr ec := by
    intro z hz
    obtain rfl := Option.some.inj hz
    exact Nat.zero_add _
  have hphdr : ∀ {z : Nat × Nat}, exactRange e ec .phdr = some z →
      z.1 = fsize .ehdr ec ∧ z.1 + z.2 = headersEnd ec e.eNphdr := by
    intro z hz
    unfold exactRange at hz
    dsimp only at hz
    split at hz
    · cases hz
    · obtain rfl := Option.some.inj hz
      exact ⟨rfl, rfl⟩
  have hle : fsize .ehdr ec ≤ headersEnd ec e.eNphdr := Nat.le_add_right _ _
  have hhead : ∀ {i : Nat} {z z' : Nat × Nat}, exactRange e ec .ehdr = some z →
      exactRange e ec (.scn i) = some z' → z.1 + z.2 ≤ z'.1 := by
    intro i z z' hz hz'
    have := hehdr hz
    have := hafter hz'
    omega
  have htable : ∀ {i : Nat} {z z' : Nat × Nat}, exactRange e ec .phdr = some z →
      exactRange e ec (.scn i) = some z' → z.1 + z.2 ≤ z'.1 := by
    intro i z z' hz hz'
    have := hphdr hz
    have := hafter hz'
    omega
  have hheads : ∀ {z z' : Nat × Nat}, exactRange e ec .ehdr = some z →
      exactRange e ec .phdr = some z' → z.1 + z.2 ≤ z'.1 := by
    intro z z' hz hz'
    have := hehdr hz
    have := hphdr hz'
    omega
  cases a with
  | shdr => exact absurd rfl ha
  | ehdr =>
    cases b with
    | shdr => exact absurd rfl hb
    | ehdr => exact absurd rfl hne
    | phdr => exact .inl (hheads hx hy)
    | scn j => exact .inl (hhead hx hy)
  | phdr =>
    cases b with
    | shdr => exact absurd rfl hb
    | ehdr => exact .inr (hheads hy hx)
    | phdr => exact absurd rfl hne
    | scn j => exact .inl (htable hx hy)
  | scn i =>
    cases b with
    | shdr => exact absurd rfl hb
    | ehdr => exact .inr (hhead hy hx)
    | phdr => exact .inr (htable hy hx)
    | scn j =>
      rcases Nat.lt_trichotomy i j with h | rfl | h
      · exact .inl (horder h hx hy)
      · exact absurd rfl hne
      · exact .inr (horder h hy hx)

end Ranges

/-! ## Soundness -/

section Sound

variable {env : Env} {ec : ElfClass} {e e' : Elf} {rc : Nat} {exs : List Extent}
variable (r : LayoutRun env ec e rc exs e')

/-- A section that the layout leaves, and that is not empty by its type, was there before. -/
theorem LayoutRun.origin {i : Nat} {t : Scn} (ht : e'.eScn[i]? = some t) (hkeep : t.isSkipped = false) :
    ∃ s, r.start.eScn[i]? = some s ∧ s.isSkipped = false := by
  rw [r.eScn] at ht
  obtain ⟨u, hu, hnum⟩ := numberScns_getElem? ht hkeep
  obtain ⟨s, hs, hskip, _⟩ := r.source hu (hnum.isSkipped.symm.trans hkeep)
  exact ⟨s, hs, hskip⟩

/-- Where the headers give the exact places, they describe the exact ranges. -/
theorem LayoutRun.partRange_eq (hlay : r.start.eFlags.layout = false) {h : Ehdr} (hh : e'.eEhdr = some h)
    (hexact : ∀ i s t, r.start.eScn[i]? = some s → e'.eScn[i]? = some t → t.isSkipped = false →
      ec.get t.shdr.shOffset = exactStart r.start ec i s ∧ ec.get t.shdr.shSize = exactSize r.start ec s)
    (hshoff : r.start.eNscn ≠ 0 → ec.get h.eShoff = tableOffset r.start ec % 2 ^ ec.width) (a : Part) :
    partRange e' ec h a = exactRange r.start ec a := by
  obtain ⟨h', hh', hphoff, _⟩ := r.storedHeader hlay
  rw [hh] at hh'
  cases hh'
  unfold partRange exactRange
  cases a with
  | ehdr => rfl
  | phdr =>
    dsimp only
    rw [r.eNphdr]
    split
    · rfl
    · next hne => rw [hphoff hne]
  | shdr =>
    dsimp only
    rw [r.eNscn]
    split
    · rfl
    · next hne => rw [hshoff hne]
  | scn i =>
    dsimp only
    cases ht : e'.eScn[i]? with
    | none =>
      cases hs : r.start.eScn[i]? with
      | none => rfl
      | some s =>
        obtain ⟨u, hu, _⟩ := r.sections.spec.2.2 i s hs
        obtain ⟨t, ht', _⟩ := @numberScns_of_getElem? ec r.start.eNphdr
          r.start.eNscn _ _ _ hu
        rw [r.eScn, ht'] at ht
        cases ht
    | some t =>
      dsimp only
      cases hskip : t.isSkipped with
      | true =>
        rw [if_pos (.inl rfl)]
        cases hs : r.start.eScn[i]? with
        | none => rfl
        | some s =>
          cases hkeep : s.isSkipped with
          | true => exact (if_pos (.inl hkeep)).symm
          | false =>
            obtain ⟨u, hu, hspec⟩ := r.sections.spec.2.2 i s hs
            obtain ⟨t', ht', hnum⟩ := @numberScns_of_getElem? ec r.start.eNphdr
              r.start.eNscn _ _ _ hu
            rw [r.eScn, ht'] at ht
            cases ht
            have hu' : u.isSkipped = true := hnum.isSkipped.symm.trans hskip
            rcases hspec with ⟨h1, _⟩ | ⟨_, hlaid⟩
            · rw [hkeep] at h1
              cases h1
            · rw [hlaid.settled.isSkipped, hkeep] at hu'
              cases hu'
      | false =>
        obtain ⟨s, hs, hkeep⟩ := r.origin ht hskip
        obtain ⟨hoff, hsize⟩ := hexact i s t hs ht hskip
        rw [hs, hoff, hsize]
        dsimp only
        rw [hkeep]

/-- A sound layout was that of sections which end below `2 ^ 63`. -/
theorem LayoutRun.small_of_sound (hlay : r.start.eFlags.layout = false) (hrc : rc < 2 ^ 63)
    (hp : r.start.eNphdr * msize .phdr ec < 2 ^ 64) {h : Ehdr} (hh : e'.eEhdr = some h)
    (hs : SoundLayout e' ec rc r.start h)
    (hsome : r.start.eNscn ≠ 0 ∨ ∃ s ∈ r.start.eScn, s.isSkipped = false) :
    sectionsEnd r.start ec < 2 ^ 63 := by
  have hplace := r.placeable hlay
  have hbound : ∀ i s, r.start.eScn[i]? = some s → s.isSkipped = false →
      exactStart r.start ec i s + exactSize r.start ec s < 2 ^ 63 := by
    intro i s hsi hkeep
    obtain ⟨u, hu, hspec⟩ := r.sections.spec.2.2 i s hsi
    obtain ⟨t, ht, hnum⟩ := @numberScns_of_getElem? ec r.start.eNphdr
      r.start.eNscn _ _ _ hu
    have ht' : e'.eScn[i]? = some t := by
      rw [r.eScn]
      exact ht
    have hskip : t.isSkipped = false := by
      rw [hnum.isSkipped]
      rcases hspec with ⟨h1, _⟩ | ⟨_, hlaid⟩
      · rw [hkeep] at h1
        cases h1
      · rw [hlaid.settled.isSkipped, hkeep]
    obtain ⟨hoff, hsize⟩ := hs.exact i s t hsi ht' hskip
    have hin := hs.inside t (List.mem_of_getElem? ht') hskip
    rw [hoff, hsize] at hin
    omega
  refine sectionsEnd_lt ?_ hbound
  rcases Classical.em (∃ s ∈ r.start.eScn, s.isSkipped = false) with ⟨s, hmem, hkeep⟩ | hnone
  · obtain ⟨i, hi⟩ := List.mem_iff_getElem?.mp hmem
    have h1 := headersEnd_le_start hplace hi hkeep
    have h2 := hbound i s hi hkeep
    omega
  · -- only the tables are left: their ranges would meet if the program header table wrapped around
    have hn : r.start.eNscn ≠ 0 := hsome.resolve_right hnone
    by_contra hge
    have hne : r.start.eNphdr ≠ 0 := by
      intro h0
      rw [h0, headersEnd, Nat.zero_mul, Nat.add_zero] at hge
      have := fsize_ehdr_le ec
      omega
    rcases Nat.lt_or_ge (headersEnd ec r.start.eNphdr) (2 ^ 64) with hlt | hwrap
    · have hle : r.rc₁ ≤ r.rc₂ := r.sections.spec.1 ▸ le_rcAt _ _
      have := r.nonneg
      rw [r.rc₁_eq hlay hlt hp] at hle
      omega
    · obtain ⟨h', hh', hphoff, _⟩ := r.storedHeader hlay
      rw [hh] at hh'
      cases hh'
      have hphdr : partRange e' ec h .phdr = some (fsize .ehdr ec, r.start.eNphdr * fsize .phdr ec) := by
        rw [partRange, r.eNphdr, if_neg hne, hphoff hne]
      have hshdr : partRange e' ec h .shdr = some (ec.get h.eShoff, r.start.eNscn * fsize .shdr ec) := by
        rw [partRange, r.eNscn, if_neg hn]
      have hpos : 0 < r.start.eNscn * fsize .shdr ec :=
        Nat.mul_pos (Nat.pos_of_ne_zero hn) (fsize_shdr_pos ec)
      have hget := ec.get_lt h.eShoff
      have hend : headersEnd ec r.start.eNphdr = fsize .ehdr ec + r.start.eNphdr * fsize .phdr ec := rfl
      have h1 := hs.apart .ehdr .shdr _ _ (by rintro ⟨⟩) rfl hshdr
      have h2 := hs.apart .phdr .shdr _ _ (by rintro ⟨⟩) hphdr hshdr
      rcases h1 with h1 | h1 <;> rcases h2 with h2 | h2 <;> dsimp only at h1 h2 <;> omega

/-- A library layout is sound exactly when the state it starts from has exact places. -/
theorem LayoutRun.sound_iff (hw' : Wf e') (hlay : r.start.eFlags.layout = false) (hrc : rc < 2 ^ 63)
    {h : Ehdr} (hh : e'.eEhdr = some h) :
    SoundLayout e' ec rc r.start h ↔ ExactLayout r.start ec := by
  have hp : r.start.eNphdr * msize .phdr ec < 2 ^ 64 := by
    rw [← r.eNphdr]
    exact hw'.nphdr ec r.eClass
  have hplace := r.placeable hlay
  have hheader : sectionsEnd r.start ec < 2 ^ 63 → rc = layoutSize r.start ec ∧
      (r.start.eNscn ≠ 0 → ec.get h.eShoff = tableOffset r.start ec % 2 ^ ec.width) := by
    intro hend
    obtain ⟨h', hh', _, hrest⟩ := r.storedHeader hlay
    rw [hh] at hh'
    cases hh'
    exact hrest hend hp
  constructor
  · intro hs
    have hsmall := r.small_of_sound hlay hrc hp hh hs
    have hstored : ∀ i s, r.start.eScn[i]? = some s → s.isSkipped = false →
        exactStart r.start ec i s < 2 ^ ec.width ∧
        storedSize r.start ec i s = exactSize r.start ec s ∧
        exactStart r.start ec i s + exactSize r.start ec s ≤ rc := by
      intro i s hsi hkeep
      have hend := hsmall (.inr ⟨s, List.mem_of_getElem? hsi, hkeep⟩)
      obtain ⟨t, ht, hskip, hsize, _⟩ := r.stored hlay hend hp hsi hkeep
      obtain ⟨hoff', hsize'⟩ := hs.exact i s t hsi ht hskip
      have hin := hs.inside t (List.mem_of_getElem? ht) hskip
      rw [hoff', hsize'] at hin
      exact ⟨hoff' ▸ ec.get_lt_width _, hsize ▸ hsize', hin⟩
    refine ⟨hsmall, fun i s hsi hkeep => ?_, fun a x y ha hx hy => ?_⟩
    · rw [← (hheader (hsmall (.inr ⟨s, List.mem_of_getElem? hsi, hkeep⟩))).1]
      exact hstored i s hsi hkeep
    · have hn : r.start.eNscn ≠ 0 := by
        intro h0
        rw [exactRange, if_pos h0] at hy
        cases hy
      have hrange := r.partRange_eq hlay hh hs.exact (hheader (hsmall (.inl hn))).2
      exact hs.apart a .shdr x y ha (by rw [hrange, hx]) (by rw [hrange, hy])
  · intro hx
    have hexact : ∀ i s t, r.start.eScn[i]? = some s → e'.eScn[i]? = some t → t.isSkipped = false →
        ec.get t.shdr.shOffset = exactStart r.start ec i s ∧
          ec.get t.shdr.shSize = exactSize r.start ec s ∧
          ec.get t.shdr.shAddralign = scnAlign ec s % 2 ^ ec.width ∧ s.isSkipped = false := by
      intro i s t hsi ht hskip
      obtain ⟨s', hs', hkeep⟩ := r.origin ht hskip
      rw [hsi] at hs'
      cases hs'
      obtain ⟨hlt, hsize, hle⟩ := hx.scns i s hsi hkeep
      have hend := hx.small (.inr ⟨s, List.mem_of_getElem? hsi, hkeep⟩)
      obtain ⟨t', ht', _, hsize', halign, hoff⟩ := r.stored hlay hend hp hsi hkeep
      rw [ht] at ht'
      cases ht'
      have hbound := layoutSize_lt hend
      refine ⟨?_, hsize'.trans hsize, halign, hkeep⟩
      rw [hoff (by omega), Nat.mod_eq_of_lt hlt]
    have hshoff : r.start.eNscn ≠ 0 → ec.get h.eShoff = tableOffset r.start ec % 2 ^ ec.width :=
      fun hn => (hheader (hx.small (.inl hn))).2 hn
    have hrange := r.partRange_eq hlay hh (fun i s t h1 h2 h3 => ⟨(hexact i s t h1 h2 h3).1,
      (hexact i s t h1 h2 h3).2.1⟩) hshoff
    have hmem : ∀ t ∈ e'.eScn, t.isSkipped = false → ∃ (i : Nat) (s : Scn), r.start.eScn[i]? = some s ∧
        e'.eScn[i]? = some t := by
      intro t ht hskip
      obtain ⟨i, hi⟩ := List.mem_iff_getElem?.mp ht
      obtain ⟨s, hsi, _⟩ := r.origin hi hskip
      exact ⟨i, s, hsi, hi⟩
    refine ⟨fun i s t h1 h2 h3 => ⟨(hexact i s t h1 h2 h3).1, (hexact i s t h1 h2 h3).2.1⟩, ?_, ?_, ?_⟩
    · intro t ht hskip
      obtain ⟨i, s, hsi, hti⟩ := hmem t ht hskip
      obtain ⟨hoff, _, halign, hkeep⟩ := hexact i s t hsi hti hskip
      -- the alignment is at most the offset, which fits the field
      have hend := exactEnd_le_start hplace hsi hkeep
      have hpos := Nat.lt_of_lt_of_le (@headersEnd_pos ec r.start.eNphdr)
        (headersEnd_le_start hplace hsi hkeep)
      have hdvd : scnAlign ec s ∣ exactStart r.start ec i s := dvd_ceilTo _ _
      have hlt := (hx.scns i s hsi hkeep).1
      rw [hoff, halign, Nat.mod_eq_of_lt (Nat.lt_of_le_of_lt (Nat.le_of_dvd hpos hdvd) hlt)]
      exact hdvd
    · intro t ht hskip
      obtain ⟨i, s, hsi, hti⟩ := hmem t ht hskip
      obtain ⟨hoff, hsize, _, hkeep⟩ := hexact i s t hsi hti hskip
      have hend := hx.small (.inr ⟨s, List.mem_of_getElem? hsi, hkeep⟩)
      rw [hoff, hsize]
      exact Nat.le_trans (hx.scns i s hsi hkeep).2.2 (Nat.le_of_eq (hheader hend).1.symm)
    · intro a b x y hne ha hb
      rw [hrange] at ha hb
      by_cases h1 : a = .shdr
      · subst h1
        exact (hx.table b y x (fun h => hne h.symm) hb ha).symm
      · by_cases h2 : b = .shdr
        · subst h2
          exact hx.table a x y h1 ha hb
        · exact exactRange_apart hplace hne h1 h2 ha hb

end Sound

/-! ## Runs -/

section Runs

variable {env : Env} {ec : ElfClass} {c : Cmd} {im : Image} {e₀ e e' : Elf} {ops : List Op} {n : Nat}

/-- `elf_update(e, ELF_C_NULL)` is the layout. -/
theorem elfUpdate_null_ok (hc : e.eClass = some ec) (h : elfUpdate env .null e = .ok n e') :
    ∃ exs, resyncElf env ec (currentVersion e) = .ok (n, exs) e' ∧ n < 2 ^ 63 := by
  unfold elfUpdate at h
  rw [hc] at h
  dsimp only at h
  rw [if_neg nofun] at h
  obtain ⟨⟨rc, exs⟩, e₁, hx, h⟩ := bind_eq_ok.mp h
  dsimp only at h
  split at h
  · cases h
  next hneg =>
  rw [if_pos rfl] at h
  cases h
  exact ⟨exs, hx, by simpa [isNeg] using hneg⟩

/-- In every run, a library layout leaves sound headers exactly when the state it starts from, with the
headers read in, has exact places. -/
theorem library_layout_sound_iff (hopen : openObject env c im = .ok (some e₀))
    (hrun : runOps (Op.step env) e₀ ops = .ok e) (hc : e.eClass = some ec)
    (hlay : e.eFlags.layout = false) (hx : elfUpdate env .null e = .ok n e') :
    ∃ h start h', readIn env ec (currentVersion e) = .ok h start ∧ e'.eEhdr = some h' ∧
      (SoundLayout e' ec n start h' ↔ ExactLayout start ec) := by
  obtain ⟨exs, hx, hn⟩ := elfUpdate_null_ok hc hx
  have hw' : Wf e' := by
    have := @wf_resyncElf env ec _ (wf_currentVersion (wf_run hopen hrun))
    rw [hx] at this
    exact this
  obtain ⟨r⟩ := resyncElf_ok hx
  obtain ⟨_, _, _, hsame, _⟩ := readIn_ok r.read
  have hstart : r.start.eFlags.layout = false := by
    rw [hsame.layout, currentVersion]
    split <;> exact hlay
  exact ⟨r.ehdr, r.start, _, r.read, r.eEhdr, r.sound_iff hw' hstart hn r.eEhdr⟩

theorem library_layout_sound_iff_progbits : ∃ e₀ e n e', openObject plainEnv .write noImage = .ok (some e₀) ∧
    runOps (Op.step plainEnv) e₀ (sectionOps 1) = .ok e ∧ elfUpdate plainEnv .null e = .ok n e' ∧
    ∃ h start h', readIn plainEnv .elfclass64 (currentVersion e) = .ok h start ∧ e'.eEhdr = some h' ∧
      (SoundLayout e' .elfclass64 n start h' ↔ ExactLayout start .elfclass64) := by
  have hall : ∃ e₀ e, openObject plainEnv .write noImage = .ok (some e₀) ∧
      runOps (Op.step plainEnv) e₀ (sectionOps 1) = .ok e ∧ e.eClass = some .elfclass64 ∧
      e.eFlags.layout = false ∧ (elfUpdate plainEnv .null e).returns (fun _ _ => true) = true :=
    ⟨_, _, rfl, rfl, rfl, rfl, by decide +kernel⟩
  obtain ⟨e₀, e, hopen, hrun, hc, hlay, hx⟩ := hall
  obtain ⟨n, e', hx, _⟩ := exists_of_returns hx
  exact ⟨e₀, e, n, e', hopen, hrun, hx, library_layout_sound_iff hopen hrun hc hlay hx⟩

/-- Two class 32 sections of four bytes that must start at multiples of `2 ^ 31`. -/
def farSections : List Op :=
  let shdr : Shdr := { Shdr.zero with shType := 1, shAddralign := 0x80000000 }
  let data : ElfData := ⟨1, 0, 4, some ⟨4096, [1, 2, 3, 4]⟩, some .byte, 1, fourBytes_size⟩
  [.newehdr .elfclass32, .newscn, .setShdr 1 shdr, .newdata 1, .setData 1 0 data,
   .newscn, .setShdr 2 shdr, .newdata 2, .setData 2 0 data]

/-- The second one starts at `2 ^ 32`, and its header says that it starts at 0. -/
theorem farSections_truncated : ∃ e₀ e n e', openObject plainEnv .write noImage = .ok (some e₀) ∧
    runOps (Op.step plainEnv) e₀ farSections = .ok e ∧ e.eClass = some .elfclass32 ∧
    e.eFlags.layout = false ∧ elfUpdate plainEnv .null e = .ok n e' ∧
    ∃ h start, readIn plainEnv .elfclass32 (currentVersion e) = .ok h start ∧
      ∀ h', ¬ SoundLayout e' .elfclass32 n start h' := by
  have hall : ∃ e₀ e, openObject plainEnv .write noImage = .ok (some e₀) ∧
      runOps (Op.step plainEnv) e₀ farSections = .ok e ∧ e.eClass = some .elfclass32 ∧
      e.eFlags.layout = false ∧
      (elfUpdate plainEnv .null e).returns (fun _ e' => e'.eScn[2]?.any fun t =>
        decide (t.isSkipped = false ∧ ElfClass.elfclass32.get t.shdr.shOffset = 0)) = true ∧
      (readIn plainEnv .elfclass32 (currentVersion e)).returns (fun _ start =>
        start.eScn[2]?.any fun s => decide (exactStart start .elfclass32 2 s = 2 ^ 32)) = true :=
    ⟨_, _, rfl, rfl, rfl, rfl, by decide +kernel, by decide +kernel⟩
  obtain ⟨e₀, e, hopen, hrun, hc, hlay, hx, hread⟩ := hall
  obtain ⟨n, e', hx, ht⟩ := exists_of_returns hx
  obtain ⟨h, start, hread, hs⟩ := exists_of_returns hread
  obtain ⟨t, ht, htest⟩ := (Option.any_eq_true _ _).mp ht
  obtain ⟨s, hs, hstart⟩ := (Option.any_eq_true _ _).mp hs
  obtain ⟨hskip, hzero⟩ := of_decide_eq_true htest
  have hstart := of_decide_eq_true hstart
  refine ⟨e₀, e, n, e', hopen, hrun, hc, hlay, hx, h, start, hread, fun h' hsound => ?_⟩
  have heq := (hsound.exact 2 s t hs ht hskip).1
  rw [hzero, hstart] at heq
  cases heq

end Runs

end LibElf.Toolchain
