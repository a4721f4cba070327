import LibElf.Toolchain.Placement

/-!
# Layouts without overflow

The layout computes in 64-bit arithmetic. `Fits` says that no sum it makes overflows; the extents are
then pieces of the file as natural numbers describe them.

1. `scnDemands`, the pieces that library layout packs, and `rcAt_fit`: the code's running end is that
   of packing them.
2. `LibraryFits`, `LayoutFits` and `Fits`.
3. `Tiled`, what the writers rely on, and `LayoutRun.tiled`.
-/

namespace LibElf.Toolchain

open Outcome

/-! ## Packing the sections -/

section Pack

variable (e : Elf) (ec : ElfClass)

/-- The size of a section under library layout, as a natural number. -/
def exactSize (s : Scn) : Nat :=
  if s.sData = [] then if s.sDirty = true ∧ e.eCmd = .write then 0 else ec.get s.shdr.shSize
  else packEnd 0 (s.sData.map (dataDemand ec))

/-- The pieces of the sections that have contents in the file. -/
def scnDemands (ss : List Scn) : List Demand :=
  (ss.filter fun s => !s.isSkipped && decide (exactSize e ec s ≠ 0)).map fun s =>
    ⟨scnAlign ec s, exactSize e ec s⟩

def tableDemand (n : Nat) : List Demand :=
  if n = 0 then [] else [⟨falign (some .shdr) ec, n * fsize .shdr ec⟩]

/-- The end of the executable header and the program header table. -/
def headersEnd (p : Nat) : Nat := fsize .ehdr ec + p * fsize .phdr ec

variable {e ec}

/-- A section whose layout can succeed. -/
structure Placeable (e : Elf) (ec : ElfClass) (s : Scn) : Prop where
  align : 0 < scnAlign ec s
  data : ∀ d ∈ s.sData, DataOk e ec d

theorem LaidOut.placeable {env : Env} {rc : Nat} {s t : Scn} (h : LaidOut env e ec rc s t)
    (hlay : e.eFlags.layout = false) : Placeable e ec s := by
  cases h with
  | keep _ _ hlay' =>
    rw [hlay] at hlay'
    cases hlay'
  | move hdata _ _ hpos =>
    refine ⟨Nat.lt_of_lt_of_le hpos (Nat.le_max_left _ _), ?_⟩
    rw [hdata]
    exact nofun
  | check _ _ hlay' =>
    rw [hlay] at hlay'
    cases hlay'
  | pack hread hloaded _ hdata hpos =>
    obtain ⟨hok, _, hr⟩ := checkData_library hlay hdata
    obtain ⟨rfl, rfl⟩ := Prod.mk.inj hr
    refine ⟨(hloaded.packed hread hok).2 ▸ hpos, ?_⟩
    rcases hloaded with ⟨_, rfl⟩ | ⟨hnil, _⟩
    · exact hok
    · rw [hnil]
      exact nofun

theorem librarySize_eq {s : Scn} (hs : Placeable e ec s) (hfit : exactSize e ec s < 2 ^ 63) :
    librarySize e ec s = exactSize e ec s := by
  unfold librarySize exactSize at *
  split
  · rfl
  · next hne =>
    rw [if_neg hne] at hfit
    exact assignedEnd_eq hs.data hfit

/-- Descriptors that are there, or read in, pack to the size of their section. -/
theorem Loaded.exactSize_eq {env : Env} {s t : Scn} (h : Loaded env e ec s t)
    (hread : s.sData ≠ [] ∨ s.sDirty = true) (hok : ∀ d ∈ t.sData, DataOk e ec d) :
    packEnd 0 (t.sData.map (dataDemand ec)) = exactSize e ec s := by
  rcases h.eq_or_fresh with ⟨hold, rfl⟩ | ⟨hnil, hcmd, d, rfl, hfresh⟩
  · unfold exactSize
    split
    · next hnil =>
      have hdirty : t.sDirty = true ∧ e.eCmd = .write :=
        ⟨hread.resolve_left (not_not.mpr hnil), hold.resolve_left (not_not.mpr hnil)⟩
      rw [if_pos hdirty, hnil]
      rfl
    · rfl
  · have hpos := pos_of_isPow2 (hok d List.mem_cons_self).pow2
    rw [exactSize, if_pos hnil, if_neg (fun h => hcmd h.2)]
    simp [packEnd, dataDemand, hfresh.fsz, ceilTo_of_dvd hpos (Nat.dvd_zero _)]

/-- The sections of `ss` are placed one after the other, as packing places them. -/
theorem rcAt_fit (hlay : e.eFlags.layout = false) {ss : List Scn} :
    ∀ {rc : Nat}, 0 < rc → (∀ s ∈ ss, s.isSkipped = false → Placeable e ec s) →
    packEnd rc (scnDemands e ec ss) < 2 ^ 63 →
    rcAt e ec rc ss = packEnd rc (scnDemands e ec ss) ∧
      ∀ i s, ss[i]? = some s → s.isSkipped = false → scnSize e ec s ≠ 0 →
        scnSize e ec s = exactSize e ec s ∧
        scnOffset e ec (rcAt e ec rc (ss.take i)) s =
          ceilTo (rcAt e ec rc (ss.take i)) (scnAlign ec s) ∧
        scnOffset e ec (rcAt e ec rc (ss.take i)) s + scnSize e ec s ≤
          packEnd rc (scnDemands e ec ss) := by
  induction ss with
  | nil => exact fun _ _ _ => ⟨rfl, nofun⟩
  | cons s ss ih =>
    intro rc hrc hss hfit
    have htail : ∀ t ∈ ss, t.isSkipped = false → Placeable e ec t := fun t ht => hss t (.tail _ ht)
    have halign : Aligned (scnDemands e ec ss) := by
      intro d hd
      obtain ⟨t, ht, rfl⟩ := List.mem_map.mp hd
      rw [List.mem_filter, Bool.and_eq_true] at ht
      exact (htail t ht.1 (by simpa using ht.2.1)).align
    -- what the section does to the running end
    have hstep : ∃ rc', nextRc e ec rc s = rc' ∧ rc ≤ rc' ∧
        packEnd rc (scnDemands e ec (s :: ss)) = packEnd rc' (scnDemands e ec ss) ∧
        (s.isSkipped = false → scnSize e ec s ≠ 0 → scnSize e ec s = exactSize e ec s ∧
          scnOffset e ec rc s = ceilTo rc (scnAlign ec s) ∧
          scnOffset e ec rc s + scnSize e ec s = rc') := by
      by_cases hskip : s.isSkipped = true
      · refine ⟨rc, by simp [nextRc, hasExtent, hskip], Nat.le_refl _, ?_, fun h => ?_⟩
        · simp [scnDemands, hskip]
        · rw [hskip] at h
          cases h
      have hkeep : s.isSkipped = false := by simpa using hskip
      have hs := hss s List.mem_cons_self hkeep
      have hsize : scnSize e ec s = librarySize e ec s := by simp [scnSize, hlay]
      by_cases hzero : exactSize e ec s = 0
      · have hlib := librarySize_eq hs (by rw [hzero]; decide)
        rw [hzero, ← hsize] at hlib
        refine ⟨rc, by simp [nextRc, hasExtent, hlib], Nat.le_refl _, ?_, fun _ h => absurd hlib h⟩
        simp [scnDemands, hzero]
      · have hpack : packEnd rc (scnDemands e ec (s :: ss)) =
            packEnd (ceilTo rc (scnAlign ec s) + exactSize e ec s) (scnDemands e ec ss) := by
          simp [scnDemands, hkeep, hzero, packEnd]
        rw [hpack] at hfit
        have hle : ceilTo rc (scnAlign ec s) + exactSize e ec s ≤
            packEnd (ceilTo rc (scnAlign ec s) + exactSize e ec s) (scnDemands e ec ss) :=
          le_packEnd halign
        have hlib := librarySize_eq hs (by omega)
        have hround : roundUp rc (scnAlign ec s) = ceilTo rc (scnAlign ec s) :=
          roundUp_eq_of_ceilTo_lt hrc hs.align (by omega)
        have hoff : scnOffset e ec rc s = ceilTo rc (scnAlign ec s) := by simp [scnOffset, hlay, hround]
        have hge : rc ≤ ceilTo rc (scnAlign ec s) := le_ceilTo hs.align
        have hlt : ceilTo rc (scnAlign ec s) + exactSize e ec s < 2 ^ 64 := by omega
        refine ⟨ceilTo rc (scnAlign ec s) + exactSize e ec s, ?_, by omega, hpack, fun _ _ => ?_⟩
        · rw [nextRc, if_pos (by simp [hasExtent, hkeep, hsize, hlib, hzero]), hoff, hsize, hlib,
            wrap_of_lt hlt]
          omega
        · exact ⟨hsize.trans hlib, hoff, by rw [hoff, hsize, hlib]⟩
    obtain ⟨rc', hnext, hle, hpack, hplace⟩ := hstep
    rw [hpack] at hfit ⊢
    obtain ⟨hrec, hrest⟩ := ih (Nat.lt_of_lt_of_le hrc hle) htail hfit
    rw [rcAt_cons, hnext]
    refine ⟨hrec, fun i t ht hkeep hne => ?_⟩
    cases i with
    | zero =>
      cases ht
      obtain ⟨hsize, hoff, hend⟩ := hplace hkeep hne
      refine ⟨hsize, hoff, ?_⟩
      rw [List.take_zero, rcAt_nil, hend]
      exact le_packEnd halign
    | succ i => simpa [hnext] using hrest i t ht hkeep hne

end Pack

/-! ## The conditions -/

section Fits

variable (e : Elf) (ec : ElfClass) (h : Ehdr)

/-- Under library layout: the packed file ends below `2 ^ 63`. -/
def LibraryFits : Prop :=
  packEnd (headersEnd ec e.eNphdr) (scnDemands e ec e.eScn ++ tableDemand ec e.eNscn) < 2 ^ 63

/-- When the application places everything: no end of what it placed overflows. The end of the
section header table is compared as a signed number. -/
structure LayoutFits : Prop where
  phdr : e.eNphdr ≠ 0 → ec.get h.ePhoff + e.eNphdr * fsize .phdr ec < 2 ^ 64
  scns : ∀ s ∈ e.eScn, s.isSkipped = false → ec.get s.shdr.shSize ≠ 0 →
    ec.get s.shdr.shOffset + ec.get s.shdr.shSize < 2 ^ 64 ∧
      ∀ d ∈ s.sData, d.dOff.toNat + d.dSize.toNat < 2 ^ 64
  shdr : e.eNscn ≠ 0 → ec.get h.eShoff + e.eNscn * fsize .shdr ec < 2 ^ 63

/-- No sum of the layout overflows; `e` is the state with everything read in, `h` its header. -/
def Fits : Prop := if e.eFlags.layout then LayoutFits e ec h else LibraryFits e ec

end Fits

/-! ## What the writers rely on -/

section Tiled

variable {env : Env} {ec : ElfClass} {e e' : Elf} {rc : Nat} {exs : List Extent}

def phdrExtent (ec : ElfClass) (phoff p : Nat) : Extent := ⟨phoff, p * fsize .phdr ec, .phdr, 0⟩

def shdrExtent (ec : ElfClass) (shoff n : Nat) : Extent := ⟨shoff, n * fsize .shdr ec, .shdr, 0⟩

/-- The extents of a layout lie one after the other in a file of `rc` bytes, the last one up to its
end, and are those of the headers and of the sections with contents. -/
structure Tiled (r : LayoutRun env ec e rc exs e') : Prop where
  small : rc < 2 ^ 63
  sorted : Sorted exs
  endBy : EndBy rc exs
  top : ∃ x ∈ exs, x.stop = rc
  mem : ∀ x, x ∈ exs ↔ x = ehdrExtent ec ∨
    r.start.eNphdr ≠ 0 ∧ x = phdrExtent ec r.phoff r.start.eNphdr ∨
    (∃ i t, r.scns[i]? = some t ∧ t.isSkipped = false ∧ t.sSize ≠ 0 ∧ x = scnExtent i t) ∨
    r.start.eNscn ≠ 0 ∧ x = shdrExtent ec r.shoff r.start.eNscn

theorem falign_phdr (ec : ElfClass) : 0 < falign (some .phdr) ec ∧ falign (some .phdr) ec ∣ fsize .ehdr ec := by
  cases ec <;> decide

theorem falign_shdr (ec : ElfClass) : 0 < falign (some .shdr) ec := by
  cases ec <;> decide

theorem fsize_ehdr_lt (ec : ElfClass) : fsize .ehdr ec < 2 ^ ec.width := by
  cases ec <;> decide

/-- A program header table that the application places comes after the header, aligned. -/
theorem PhdrPlaced.layout_ok {layout : Bool} {phoff p off rc : Nat} {exs : List Extent}
    (h : PhdrPlaced ec layout phoff p off rc exs) (hp : p ≠ 0) (hlay : layout = true) :
    fsize .ehdr ec ≤ phoff ∧ falign (some .phdr) ec ∣ phoff := by
  cases h with
  | absent hp0 => exact absurd hp0 hp
  | present _ _ hplace => exact hplace hlay

/-- Under library layout the program header table follows the header. -/
theorem PhdrPlaced.off_library {phoff p off rc : Nat} {exs : List Extent}
    (h : PhdrPlaced ec false phoff p off rc exs) (hp : p ≠ 0) :
    off = fsize .ehdr ec ∧ rc = wrap (fsize .ehdr ec + libelfFsize .phdr ec p) := by
  have hround : roundUp (fsize .ehdr ec) (falign (some .phdr) ec) = fsize .ehdr ec := by
    cases ec <;> decide
  cases h with
  | absent hp0 => exact absurd hp0 hp
  | present _ hoff =>
    rw [if_neg Bool.false_ne_true, hround] at hoff
    exact ⟨hoff, by rw [hoff]⟩

/-- The end of the extents after the section header table. -/
theorem ShdrPlaced.end_eq {layout : Bool} {shoff n rc off rc' : Nat} {exs exs' : List Extent}
    (h : ShdrPlaced ec layout shoff n rc exs off rc' exs') :
    rc' = if n = 0 then rc
      else if sgt (wrap (off + libelfFsize .shdr ec n)) rc then wrap (off + libelfFsize .shdr ec n) else rc := by
  cases h with
  | absent hn => rw [if_pos hn]
  | present hn => rw [if_neg hn]

/-- Where the section header table is placed. -/
theorem ShdrPlaced.off_eq {layout : Bool} {shoff n rc off rc' : Nat} {exs exs' : List Extent}
    (h : ShdrPlaced ec layout shoff n rc exs off rc' exs') (hn : n ≠ 0) :
    (off = if layout then shoff else roundUpSigned rc (falign (some .shdr) ec)) ∧
      (layout = true → falign (some .shdr) ec ∣ shoff) := by
  cases h with
  | absent hn0 => exact absurd hn0 hn
  | present _ hoff hlay => exact ⟨hoff, hlay⟩

/-- The place of the program header table. -/
theorem PhdrPlaced.tiled {layout : Bool} {phoff p off rc : Nat} {exs : List Extent}
    (h : PhdrPlaced ec layout phoff p off rc exs) (hp : p * msize .phdr ec < 2 ^ 64)
    (hfit : p ≠ 0 → (if layout then phoff else fsize .ehdr ec) + p * fsize .phdr ec < 2 ^ 64) :
    (off = if p = 0 then 0 else if layout then phoff else fsize .ehdr ec) ∧
    (rc = if p = 0 then fsize .ehdr ec else off + p * fsize .phdr ec) ∧
    Sorted exs ∧ EndBy rc exs ∧ (∀ x ∈ exs, x.stop < 2 ^ 64) ∧ (∃ x ∈ exs, x.stop = rc) ∧
    ∀ x, x ∈ exs ↔ x = ehdrExtent ec ∨ p ≠ 0 ∧ x = phdrExtent ec off p := by
  have hstop : (ehdrExtent ec).stop = fsize .ehdr ec := Nat.zero_add _
  have hsmall : fsize .ehdr ec < 2 ^ 64 := by cases ec <;> decide
  have hone : Sorted [ehdrExtent ec] := List.pairwise_singleton _ _
  have hlt : ∀ x ∈ [ehdrExtent ec], x.stop < 2 ^ 64 := by
    intro x hx
    rw [List.mem_singleton.mp hx, hstop]
    exact hsmall
  cases h with
  | absent hp0 =>
    refine ⟨by rw [if_pos hp0], by rw [if_pos hp0], hone, ?_, hlt, ⟨_, List.mem_singleton_self _, hstop⟩, ?_⟩
    · simp [EndBy, hstop]
    · simp [hp0]
  | @present off exs hp0 hoff hlay hins =>
    have hfit := hfit hp0
    have hle : p * fsize .phdr ec ≤ p * msize .phdr ec := Nat.mul_le_mul_left _ (fsize_le_msize _ _)
    have hfsz : libelfFsize .phdr ec p = p * fsize .phdr ec := by
      rw [libelfFsize, Nat.mul_comm, wrap_of_lt (by omega)]
    have hoff' : off = if layout then phoff else fsize .ehdr ec := by
      obtain ⟨hpos, hdvd⟩ := falign_phdr ec
      rw [hoff]
      split
      · rfl
      · have hround := ceilTo_of_dvd hpos hdvd
        have hepos := fsize_ehdr_pos ec
        rw [roundUp_eq_of_ceilTo_lt hepos hpos (by rw [hround]; cases ec <;> decide), hround]
    rw [← hoff'] at hfit
    rw [hfsz] at hins ⊢
    have hafter : fsize .ehdr ec ≤ off := by
      rw [hoff']
      split
      · next hl => exact (hlay hl).1
      · exact Nat.le_refl _
    rw [wrap_of_lt hfit]
    have hmem : ∀ x, x ∈ exs ↔ x = ehdrExtent ec ∨ p ≠ 0 ∧ x = phdrExtent ec off p := by
      intro x
      rw [mem_insertExtent hins, List.mem_singleton, or_comm]
      simp [hp0, phdrExtent]
    have hends : ∀ x ∈ exs, x.stop ≤ off + p * fsize .phdr ec := by
      intro x hx
      rcases (hmem x).mp hx with rfl | ⟨_, rfl⟩
      · rw [hstop]
        omega
      · exact Nat.le_refl _
    refine ⟨by rw [if_neg hp0]; exact hoff', by rw [if_neg hp0], ?_, hends, ?_, ?_, hmem⟩
    · exact insertExtent_sorted hins hone hlt hfit
    · exact fun x hx => Nat.lt_of_le_of_lt (hends x hx) hfit
    · exact ⟨phdrExtent ec off p, (hmem _).mpr (.inr ⟨hp0, rfl⟩), rfl⟩

/-- Rounding the start of a section header table does not reach the sign when the table ends below it: one entry is
longer than the padding. -/
theorem roundUpSigned_table {rc n : Nat} (hn : n ≠ 0)
    (h : ceilTo rc (falign (some .shdr) ec) + n * fsize .shdr ec < 2 ^ 63) :
    roundUpSigned rc (falign (some .shdr) ec) = ceilTo rc (falign (some .shdr) ec) := by
  have hle : rc ≤ ceilTo rc (falign (some .shdr) ec) := le_ceilTo (falign_shdr ec)
  have hentry : fsize .shdr ec ≤ n * fsize .shdr ec := Nat.le_mul_of_pos_left _ (Nat.pos_of_ne_zero hn)
  have halign : falign (some .shdr) ec ≤ fsize .shdr ec := by cases ec <;> decide
  exact roundUpSigned_eq_ceilTo (by omega)

/-- The place of the section header table. -/
theorem ShdrPlaced.tiled {layout : Bool} {shoff n rc : Nat} {exs : List Extent} {off rc' : Nat}
    {exs' : List Extent} (h : ShdrPlaced ec layout shoff n rc exs off rc' exs') (hrc : rc < 2 ^ 63)
    (hpos : 0 < rc) (hs : Sorted exs) (hend : EndBy rc exs) (htop : ∃ x ∈ exs, x.stop = rc)
    (hfit : n ≠ 0 → (if layout then shoff else ceilTo rc (falign (some .shdr) ec)) +
      n * fsize .shdr ec < 2 ^ 63) :
    (off = if n = 0 then 0 else if layout then shoff else ceilTo rc (falign (some .shdr) ec)) ∧
    rc' < 2 ^ 63 ∧ Sorted exs' ∧ EndBy rc' exs' ∧ (∃ x ∈ exs', x.stop = rc') ∧
    ∀ x, x ∈ exs' ↔ x ∈ exs ∨ n ≠ 0 ∧ x = shdrExtent ec off n := by
  cases h with
  | absent hn => exact ⟨by rw [if_pos hn], hrc, hs, hend, htop, by simp [hn]⟩
  | @present off exs' hn hoff hlay hins =>
    have hfit := hfit hn
    have hfsz : libelfFsize .shdr ec n = n * fsize .shdr ec := by
      rw [libelfFsize, Nat.mul_comm, wrap_of_lt (by omega)]
    have hoff' : off = if layout then shoff else ceilTo rc (falign (some .shdr) ec) := by
      rw [hoff]
      split
      · rfl
      · next hl =>
        rw [if_neg hl] at hfit
        exact roundUpSigned_table hn hfit
    rw [← hoff'] at hfit
    rw [hfsz] at hins ⊢
    have hmem : ∀ x, x ∈ exs' ↔ x ∈ exs ∨ n ≠ 0 ∧ x = shdrExtent ec off n := by
      intro x
      rw [mem_insertExtent hins, or_comm]
      simp [hn, shdrExtent]
    have hrc' : (if sgt (wrap (off + n * fsize .shdr ec)) rc then wrap (off + n * fsize .shdr ec)
        else rc) = max rc (off + n * fsize .shdr ec) := by
      rw [wrap_of_lt (by omega), sgt_of_nonneg hfit hrc]
      simp only [decide_eq_true_eq]
      split <;> omega
    rw [hrc']
    refine ⟨by rw [if_neg hn]; exact hoff', by omega, ?_, ?_, ?_, hmem⟩
    · exact insertExtent_sorted hins hs (fun x hx => by have := hend x hx; omega)
        (Nat.lt_trans hfit (by decide))
    · intro x hx
      rcases (hmem x).mp hx with hx | ⟨_, rfl⟩
      · exact Nat.le_trans (hend x hx) (Nat.le_max_left _ _)
      · exact Nat.le_max_right _ _
    · rcases Nat.le_total rc (off + n * fsize .shdr ec) with hle | hle
      · refine ⟨shdrExtent ec off n, (hmem _).mpr (.inr ⟨hn, rfl⟩), ?_⟩
        rw [Nat.max_eq_right hle]
        rfl
      · obtain ⟨x, hx, hxrc⟩ := htop
        exact ⟨x, (hmem x).mpr (.inl hx), by rw [Nat.max_eq_left hle, hxrc]⟩

theorem isSkipped_of_spec {s t : Scn} {rc : Nat} {start : Elf}
    (h : s.isSkipped = true ∧ t = s ∨ s.isSkipped = false ∧ LaidOut env start ec rc s t)
    (ht : t.isSkipped = false) : s.isSkipped = false ∧ LaidOut env start ec rc s t := by
  rcases h with ⟨hskip, rfl⟩ | h
  · rw [ht] at hskip
    cases hskip
  · exact h

variable (r : LayoutRun env ec e rc exs e')

/-- The section that a laid out section came from. -/
theorem LayoutRun.source {i : Nat} {t : Scn} (ht : r.scns[i]? = some t) (hkeep : t.isSkipped = false) :
    ∃ s, r.start.eScn[i]? = some s ∧ s.isSkipped = false ∧
      LaidOut env r.start ec (rcAt r.start ec r.rc₁ (r.start.eScn.take i)) s t := by
  obtain ⟨_, hlen, hss⟩ := r.sections.spec
  have hi : i < r.start.eScn.length := by
    rw [← hlen]
    exact (List.getElem?_eq_some_iff.mp ht).1
  obtain ⟨u, hu, hspec⟩ := hss i _ (List.getElem?_eq_getElem hi)
  rw [ht] at hu
  cases hu
  exact ⟨_, List.getElem?_eq_getElem hi, isSkipped_of_spec hspec hkeep⟩

/-- The sections of a layout that succeeds could be placed. -/
theorem LayoutRun.placeable (hlay : r.start.eFlags.layout = false) :
    ∀ s ∈ r.start.eScn, s.isSkipped = false → Placeable r.start ec s := by
  intro s hs hkeep
  obtain ⟨i, hi⟩ := List.mem_iff_getElem?.mp hs
  obtain ⟨t, _, ⟨hskip, _⟩ | ⟨_, hlaid⟩⟩ := r.sections.spec.2.2 i s hi
  · rw [hkeep] at hskip
    cases hskip
  · exact hlaid.placeable hlay

theorem aligned_scnDemands {e : Elf} {ss : List Scn}
    (h : ∀ s ∈ ss, s.isSkipped = false → Placeable e ec s) : Aligned (scnDemands e ec ss) := by
  intro d hd
  obtain ⟨s, hs, rfl⟩ := List.mem_map.mp hd
  rw [List.mem_filter, Bool.and_eq_true] at hs
  exact (h s hs.1 (by simpa using hs.2.1)).align

theorem aligned_tableDemand (n : Nat) : Aligned (tableDemand ec n) := by
  unfold tableDemand
  split
  · exact nofun
  · intro d hd
    rw [List.mem_singleton.mp hd]
    exact falign_shdr ec

/-- The sections end below `2 ^ 63` too. -/
theorem LibraryFits.scns {e : Elf} (hfit : LibraryFits e ec) :
    packEnd (headersEnd ec e.eNphdr) (scnDemands e ec e.eScn) < 2 ^ 63 := by
  unfold LibraryFits at hfit
  rw [packEnd_append] at hfit
  exact Nat.lt_of_le_of_lt (le_packEnd (@aligned_tableDemand ec e.eNscn)) hfit

/-- Under library layout the headers are packed first, unless their sum overflows. -/
theorem LayoutRun.rc₁_eq (hlay : r.start.eFlags.layout = false) (hfit : headersEnd ec r.start.eNphdr < 2 ^ 64)
    (hp : r.start.eNphdr * msize .phdr ec < 2 ^ 64) : r.rc₁ = headersEnd ec r.start.eNphdr := by
  have hfit₁ : r.start.eNphdr ≠ 0 → (if r.start.eFlags.layout = true then ec.get r.ehdr.ePhoff
      else fsize .ehdr ec) + r.start.eNphdr * fsize .phdr ec < 2 ^ 64 := by
    intro _
    rw [hlay, if_neg Bool.false_ne_true]
    exact hfit
  obtain ⟨hoff, hrc, _⟩ := r.phdr.tiled hp hfit₁
  rw [hrc, headersEnd]
  split
  · next h0 => rw [h0, Nat.zero_mul, Nat.add_zero]
  · next h0 => rw [hoff, if_neg h0, hlay, if_neg Bool.false_ne_true]

theorem headersEnd_pos (p : Nat) : 0 < headersEnd ec p :=
  Nat.lt_of_lt_of_le (fsize_ehdr_pos ec) (Nat.le_add_right _ _)

/-- Under library layout the sections are packed after the headers, if they end below `2 ^ 63`. -/
theorem LayoutRun.packed (hlay : r.start.eFlags.layout = false)
    (hfit : packEnd (headersEnd ec r.start.eNphdr) (scnDemands r.start ec r.start.eScn) < 2 ^ 63)
    (hp : r.start.eNphdr * msize .phdr ec < 2 ^ 64) :
    r.rc₁ = headersEnd ec r.start.eNphdr ∧
    r.rc₂ = packEnd (headersEnd ec r.start.eNphdr) (scnDemands r.start ec r.start.eScn) ∧
    ∀ i t, r.scns[i]? = some t → t.isSkipped = false → t.sSize ≠ 0 → ∃ s, r.start.eScn[i]? = some s ∧
      LaidOut env r.start ec (rcAt r.start ec r.rc₁ (r.start.eScn.take i)) s t ∧
      t.sSize = exactSize r.start ec s ∧
      t.sOffset = ceilTo (rcAt r.start ec r.rc₁ (r.start.eScn.take i)) (scnAlign ec s) ∧
      t.sOffset + t.sSize ≤ r.rc₂ := by
  have hplace := r.placeable hlay
  have hstart := @le_packEnd (headersEnd ec r.start.eNphdr) _ (aligned_scnDemands hplace)
  have hrc₁ := r.rc₁_eq hlay (by omega) hp
  have hpos : 0 < r.rc₁ := by
    rw [hrc₁]
    exact headersEnd_pos _
  rw [← hrc₁] at hfit ⊢
  obtain ⟨hrun, hscns⟩ := rcAt_fit hlay hpos hplace hfit
  rw [← r.sections.spec.1] at hrun
  refine ⟨rfl, hrun, fun i t ht hkeep hne => ?_⟩
  obtain ⟨s, hs, hskeep, hlaid⟩ := r.source ht hkeep
  have hset := hlaid.settled
  rw [hset.size] at hne
  obtain ⟨hsize, hoff, hle⟩ := hscns i s hs hskeep hne
  refine ⟨s, hs, hlaid, hset.size.trans hsize, hset.offset.trans hoff, ?_⟩
  rw [hset.offset, hset.size, hrun]
  exact hle

/-- Under library layout without overflow, all parts are packed. -/
theorem LayoutRun.library (hlay : r.start.eFlags.layout = false) (hfit : LibraryFits r.start ec)
    (hp : r.start.eNphdr * msize .phdr ec < 2 ^ 64) :
    r.rc₁ = headersEnd ec r.start.eNphdr ∧
    r.rc₂ = packEnd (headersEnd ec r.start.eNphdr) (scnDemands r.start ec r.start.eScn) ∧
    (∀ i t, r.scns[i]? = some t → t.isSkipped = false → t.sSize ≠ 0 → ∃ s, r.start.eScn[i]? = some s ∧
      LaidOut env r.start ec (rcAt r.start ec r.rc₁ (r.start.eScn.take i)) s t ∧
      t.sSize = exactSize r.start ec s ∧
      t.sOffset = ceilTo (rcAt r.start ec r.rc₁ (r.start.eScn.take i)) (scnAlign ec s) ∧
      t.sOffset + t.sSize ≤ r.rc₂) ∧
    (r.start.eNscn ≠ 0 → ceilTo r.rc₂ (falign (some .shdr) ec) + r.start.eNscn * fsize .shdr ec < 2 ^ 63) := by
  obtain ⟨hrc₁, hrc₂, hscns⟩ := r.packed hlay hfit.scns hp
  refine ⟨hrc₁, hrc₂, hscns, fun hn => ?_⟩
  unfold LibraryFits at hfit
  rw [packEnd_append, ← hrc₂, tableDemand, if_neg hn] at hfit
  exact hfit

/-- Without overflow the sections end where they should. -/
theorem LayoutRun.scns_fit (hfit : Fits r.start ec r.ehdr) (hp : r.start.eNphdr * msize .phdr ec < 2 ^ 64)
    (t : Scn) (ht : t ∈ r.scns) (hkeep : t.isSkipped = false) (hne : t.sSize ≠ 0) :
    t.sOffset + t.sSize < 2 ^ 64 := by
  obtain ⟨i, hi⟩ := List.mem_iff_getElem?.mp ht
  unfold Fits at hfit
  split at hfit
  · next hlay =>
    obtain ⟨s, hs, hskeep, hlaid⟩ := r.source hi hkeep
    have hset := hlaid.settled
    rw [hset.offset, hset.size, scnOffset, if_pos hlay, scnSize, if_pos hlay]
    rw [hset.size, scnSize, if_pos hlay] at hne
    exact (hfit.scns s (List.mem_of_getElem? hs) hskeep hne).1
  · next hlay =>
    obtain ⟨_, _, hscns, _⟩ := r.library (by simpa using hlay) hfit hp
    obtain ⟨_, _, _, _, _, hle⟩ := hscns i t hi hkeep hne
    have := r.nonneg
    omega

/-- Without overflow the program header table ends where it should. -/
theorem LayoutRun.phdr_fit (hfit : Fits r.start ec r.ehdr) (hp : r.start.eNphdr * msize .phdr ec < 2 ^ 64)
    (h0 : r.start.eNphdr ≠ 0) : (if r.start.eFlags.layout = true then ec.get r.ehdr.ePhoff
      else fsize .ehdr ec) + r.start.eNphdr * fsize .phdr ec < 2 ^ 64 := by
  unfold Fits at hfit
  split at hfit
  · next hlay =>
    rw [if_pos hlay]
    exact hfit.phdr h0
  · next hlay =>
    obtain ⟨hrc₁, hrc₂, _⟩ := r.library (by simpa using hlay) hfit hp
    rw [if_neg hlay]
    have hle : r.rc₁ ≤ r.rc₂ := r.sections.spec.1 ▸ le_rcAt _ _
    have := r.nonneg
    unfold headersEnd at hrc₁
    omega

/-- Under library layout the section header table goes to the next multiple of its alignment. -/
theorem LayoutRun.shoff_library (hlay : r.start.eFlags.layout = false) (hfit : Fits r.start ec r.ehdr)
    (hp : r.start.eNphdr * msize .phdr ec < 2 ^ 64) (hn : r.start.eNscn ≠ 0) :
    roundUpSigned r.rc₂ (falign (some .shdr) ec) = ceilTo r.rc₂ (falign (some .shdr) ec) ∧
      falign (some .shdr) ec ∣ roundUpSigned r.rc₂ (falign (some .shdr) ec) := by
  unfold Fits at hfit
  rw [hlay, if_neg Bool.false_ne_true] at hfit
  obtain ⟨_, _, _, htable⟩ := r.library hlay hfit hp
  have hround := roundUpSigned_table hn (htable hn)
  exact ⟨hround, hround ▸ dvd_ceilTo _ _⟩

/-- A layout without overflow tiles the file. -/
theorem LayoutRun.tiled (hfit : Fits r.start ec r.ehdr) (hp : r.start.eNphdr * msize .phdr ec < 2 ^ 64) :
    Tiled r := by
  have hscns := r.scns_fit hfit hp
  have hfit₁ : r.start.eNphdr ≠ 0 → (if r.start.eFlags.layout = true then ec.get r.ehdr.ePhoff
      else fsize .ehdr ec) + r.start.eNphdr * fsize .phdr ec < 2 ^ 64 := r.phdr_fit hfit hp
  obtain ⟨_, hrc₁, hs₁, hend₁, hlt₁, htop₁, hmem₁⟩ := r.phdr.tiled hp hfit₁
  have hpos : 0 < r.rc₁ := by
    obtain ⟨x, hx, hstop⟩ := htop₁
    have := hend₁ (ehdrExtent ec) ((hmem₁ _).mpr (.inl rfl))
    have hehdr : 0 < (ehdrExtent ec).stop := Nat.lt_of_lt_of_le (fsize_ehdr_pos ec) (Nat.le_add_left _ _)
    omega
  have hs₂ := r.sections.sorted hs₁ hlt₁ hscns
  obtain ⟨hend₂, htop₂⟩ := r.sections.endBy hend₁ htop₁ hscns
  have hle : r.rc₁ ≤ r.rc₂ := r.sections.spec.1 ▸ le_rcAt _ _
  have hfit₂ : r.start.eNscn ≠ 0 → (if r.start.eFlags.layout = true then ec.get r.ehdr.eShoff
      else ceilTo r.rc₂ (falign (some .shdr) ec)) + r.start.eNscn * fsize .shdr ec < 2 ^ 63 := by
    intro hn
    unfold Fits at hfit
    split at hfit
    · next hlay =>
      rw [if_pos hlay]
      exact hfit.shdr hn
    · next hlay =>
      obtain ⟨_, _, _, htable⟩ := r.library (by simpa using hlay) hfit hp
      rw [if_neg hlay]
      exact htable hn
  obtain ⟨_, hsmall, hs₃, hend₃, htop₃, hmem₃⟩ :=
    r.shdr.tiled r.nonneg (by omega) hs₂ hend₂ htop₂ hfit₂
  refine ⟨hsmall, hs₃, hend₃, htop₃, fun x => ?_⟩
  rw [hmem₃, r.sections.mem_iff, hmem₁]
  simp only [Nat.zero_add, or_assoc]

/-- Without overflow every data descriptor lies inside its section. -/
theorem LayoutRun.data_fit (hfit : Fits r.start ec r.ehdr)
    (hp : r.start.eNphdr * msize .phdr ec < 2 ^ 64) {i : Nat} {t : Scn} (ht : r.scns[i]? = some t)
    (hkeep : t.isSkipped = false) (hne : t.sSize ≠ 0) {d : ElfData} (hd : d ∈ t.sData) :
    DataOk r.start ec d ∧ d.dOff.toNat + dataFsz ec d ≤ t.sSize := by
  unfold Fits at hfit
  split at hfit
  · next hlay =>
    obtain ⟨s, hs, hskeep, hlaid⟩ := r.source ht hkeep
    cases hlaid with
    | keep hdata =>
      rw [hdata] at hd
      cases hd
    | move _ _ hlay' =>
      rw [hlay] at hlay'
      cases hlay'
    | pack _ _ hlay' =>
      rw [hlay] at hlay'
      cases hlay'
    | @check u size align hread hloaded _ hdata halign hpos hdvd hsize =>
      obtain ⟨hok, _, hr⟩ := checkData_layout hlay hdata
      obtain ⟨rfl, rfl⟩ := Prod.mk.inj hr
      refine ⟨hok d hd, ?_⟩
      obtain ⟨v, hv, _⟩ := (hok d hd).known
      have hfsz := (@dataFsz_eq ec _ _ hv).2
      have hwrap := Nat.le_trans (wrap_le_placedEnd d hd) hsize
      have hexact : d.dOff.toNat + d.dSize.toNat < 2 ^ 64 := by
        rcases hloaded.eq_or_fresh with ⟨_, rfl⟩ | ⟨_, _, d', rfl, hfresh⟩
        · exact (hfit.scns u (List.mem_of_getElem? hs) hskeep hne).2 d hd
        · rw [List.mem_singleton.mp hd, hfresh.off, Nat.zero_add]
          exact d'.dSize.toNat_lt
      rw [wrap_of_lt hexact] at hwrap
      exact Nat.le_trans (Nat.add_le_add_left hfsz _) hwrap
  · next hlay =>
    have hlay : r.start.eFlags.layout = false := by simpa using hlay
    obtain ⟨_, _, hscns, _⟩ := r.library hlay hfit hp
    obtain ⟨s, hs, hlaid, hsize, _, hle⟩ := hscns i t ht hkeep hne
    have hnonneg := r.nonneg
    cases hlaid with
    | keep _ _ hlay' =>
      rw [hlay] at hlay'
      cases hlay'
    | check _ _ hlay' =>
      rw [hlay] at hlay'
      cases hlay'
    | move hdata =>
      rw [placed_sData, hdata] at hd
      cases hd
    | @pack u size align ds hread hloaded _ hdata hpos =>
      obtain ⟨hok, rfl, hr⟩ := checkData_library hlay hdata
      rw [placed_sData] at hd
      rw [placed_sSize] at hsize hle ⊢
      have hend : packEnd 0 (u.sData.map (dataDemand ec)) = size :=
        (hloaded.exactSize_eq hread hok).trans hsize.symm
      refine ⟨assignOffsets_ok hok d hd, ?_⟩
      rw [← hend]
      exact (assignOffsets_fit hok (by omega) d hd).2

end Tiled

end LibElf.Toolchain
