import LibElf.Toolchain.Resync

/-!
# Where the layout puts the sections

The layout of a run of `_libelf_resync_elf` as functions of the state it starts from.

1. `scnOffset` and `scnSize`, the place and the size of a section, and `rcAt`, the end of the sections
   laid out so far; `LaidOut.spec` and `Resynced.spec` say that the code computes them.
2. `Resynced.mem_iff`, the extents of the sections.
3. `scnDemands`, the pieces that library layout packs, and `rcAt_eq_packEnd`: without an overflow the
   end of the sections is that of packing them.
-/

namespace LibElf.Toolchain

open Outcome

section Place

variable (e : Elf) (ec : ElfClass)

/-- The alignment of a section: that of its header, or of the descriptor that asks for most. -/
def scnAlign (s : Scn) : Nat := max (shAlign ec s.shdr) (dataAlign 0 s.sData)

/-- The size that library layout gives a section. A section without data descriptors keeps the size
of its header, unless the application asks for an update of a section that has no contents. -/
def librarySize (s : Scn) : Nat :=
  if s.sData = [] then if s.sDirty = true ∧ e.eCmd = .write then 0 else ec.get s.shdr.shSize
  else assignedEnd ec 0 s.sData

def scnSize (s : Scn) : Nat :=
  if e.eFlags.layout then ec.get s.shdr.shSize else librarySize e ec s

/-- The offset of a section when the extents laid out so far end at `rc`. -/
def scnOffset (rc : Nat) (s : Scn) : Nat :=
  if e.eFlags.layout then ec.get s.shdr.shOffset else roundUp rc (scnAlign ec s)

/-- The entry size that library layout gives a section; it is computed with the size. -/
def scnEntsize (s : Scn) : Nat :=
  if s.sData = [] ∧ s.sDirty = false then ec.get s.shdr.shEntsize else shEntsize ec s.shdr

/-- A section has an extent. -/
def hasExtent (s : Scn) : Bool := !s.isSkipped && decide (scnSize e ec s ≠ 0)

/-- The end of the extents after one more section. -/
def nextRc (rc : Nat) (s : Scn) : Nat :=
  if hasExtent e ec s then max rc (wrap (scnOffset e ec rc s + scnSize e ec s)) else rc

def rcAt (rc : Nat) (ss : List Scn) : Nat := ss.foldl (nextRc e ec) rc

variable {e ec}

@[simp] theorem rcAt_nil (rc : Nat) : rcAt e ec rc [] = rc := rfl

@[simp] theorem rcAt_cons (rc : Nat) (s : Scn) (ss : List Scn) :
    rcAt e ec rc (s :: ss) = rcAt e ec (nextRc e ec rc s) ss := rfl

theorem le_nextRc (rc : Nat) (s : Scn) : rc ≤ nextRc e ec rc s := by
  unfold nextRc
  split
  · exact Nat.le_max_left _ _
  · exact Nat.le_refl _

theorem le_rcAt (ss : List Scn) : ∀ rc, rc ≤ rcAt e ec rc ss := by
  induction ss with
  | nil => exact fun rc => Nat.le_refl rc
  | cons s ss ih => exact fun rc => Nat.le_trans (le_nextRc rc s) (ih _)

end Place

/-! ## One section -/

section Section

variable {env : Env} {e : Elf} {ec : ElfClass} {rc : Nat} {s t : Scn}

@[simp] theorem roundUp_zero (y : Nat) (hy : 0 < y) (hlt : y < 2 ^ 64) : roundUp 0 y = 0 := by
  rw [roundUp_eq_ceilTo hy hlt (by omega), ceilTo_of_dvd hy (Nat.dvd_zero y)]

/-- What reading in the contents keeps of a section. -/
structure SameScn (s t : Scn) : Prop where
  shdr : t.shdr = s.shdr
  rawdata : t.sRawdata = s.sRawdata
  dirty : t.sDirty = s.sDirty
  ndx : t.sNdx = s.sNdx
  rawoff : t.sRawoff = s.sRawoff

theorem Loaded.same (h : Loaded env e ec s t) : SameScn s t := by
  rcases h with ⟨_, rfl⟩ | ⟨hdata, _, d, hget⟩
  · exact ⟨rfl, rfl, rfl, rfl, rfl⟩
  · obtain ⟨rfl, _⟩ := getdata_ok hget hdata
    exact ⟨rfl, rfl, rfl, rfl, rfl⟩

/-- A descriptor that is read in stands at the start of its section, with the size and the alignment
of the section header. -/
structure FreshData (ec : ElfClass) (h : Shdr) (d : ElfData) : Prop where
  fsz : dataFsz ec d = ec.get h.shSize
  align : d.dAlign.toNat = ec.get h.shAddralign
  off : d.dOff.toNat = 0
  buf : d.dBuf = none ↔ h.shType = shtNobits ∨ ec.get h.shSize = 0

theorem Loaded.eq_or_fresh (h : Loaded env e ec s t) : (s.sData ≠ [] ∨ e.eCmd = .write) ∧ t = s ∨
    s.sData = [] ∧ e.eCmd ≠ .write ∧ ∃ d, t = { s with sData := [d] } ∧ FreshData ec s.shdr d := by
  rcases h with hold | ⟨hdata, hcmd, d, hget⟩
  · exact .inl hold
  · obtain ⟨rfl, u, count, hc, halign, hoff, htype, hsize, _, hbuf⟩ := getdata_ok hget hdata
    obtain ⟨_, hfpos, hshsize, hlt⟩ := contentsOf_ok hc
    have hmpos : 0 < msize u ec := Nat.lt_of_lt_of_le hfpos (fsize_le_msize u ec)
    refine .inr ⟨hdata, hcmd, d, rfl, ?_, ?_, ?_, hbuf⟩
    · rw [(dataFsz_eq htype).1, hsize, UInt64.toNat_ofNat', Nat.mod_eq_of_lt hlt,
        Nat.mul_div_cancel_left _ hmpos, hshsize]
    · rw [halign, UInt64.toNat_ofNat', Nat.mod_eq_of_lt (ec.get_lt _)]
    · rw [hoff]
      rfl

/-- Descriptors that are read in take the size and the alignment of the section header. -/
theorem Loaded.packed (h : Loaded env e ec s t) (hread : s.sData ≠ [] ∨ s.sDirty = true)
    (hok : ∀ d ∈ t.sData, DataOk e ec d) :
    assignedEnd ec 0 t.sData = librarySize e ec s ∧
      max (shAlign ec s.shdr) (dataAlign 0 t.sData) = scnAlign ec s := by
  rcases h.eq_or_fresh with ⟨hold, rfl⟩ | ⟨hdata, hcmd, d, rfl, hd⟩
  · refine ⟨?_, rfl⟩
    unfold librarySize
    split
    · next hnil =>
      have hdirty : t.sDirty = true ∧ e.eCmd = .write :=
        ⟨hread.resolve_left (not_not.mpr hnil), hold.resolve_left (not_not.mpr hnil)⟩
      rw [if_pos hdirty, hnil]
      rfl
    · rfl
  · have hpos := pos_of_isPow2 (hok d List.mem_cons_self).pow2
    constructor
    · rw [librarySize, if_pos hdata, if_neg (fun h => hcmd h.2), assignedEnd,
        roundUp_zero _ hpos d.dAlign.toNat_lt, Nat.zero_add, hd.fsz]
      exact wrap_of_lt (ec.get_lt _)
    · have hne : ec.get s.shdr.shAddralign ≠ 0 := by
        rw [← hd.align]
        exact Nat.ne_of_gt hpos
      simp [scnAlign, hdata, dataAlign, hd.align, shAlign, hne]

/-- The place, the size and the rest of a section after its layout. -/
structure Settled (e : Elf) (ec : ElfClass) (rc : Nat) (s t : Scn) : Prop where
  offset : t.sOffset = scnOffset e ec rc s
  size : t.sSize = scnSize e ec s
  rawdata : t.sRawdata = s.sRawdata
  dirty : t.sDirty = s.sDirty
  ndx : t.sNdx = s.sNdx
  rawoff : t.sRawoff = s.sRawoff
  shdr : if e.eFlags.layout then t.shdr = s.shdr
    else t.shdr = { s.shdr with
      shAddralign := ec.put (scnAlign ec s)
      shEntsize := ec.put (scnEntsize ec s)
      shOffset := ec.put (scnOffset e ec rc s)
      shSize := ec.put (scnSize e ec s) }

theorem LaidOut.settled (h : LaidOut env e ec rc s t) : Settled e ec rc s t := by
  cases h with
  | keep hdata hclean hlay =>
    refine ⟨?_, ?_, rfl, rfl, rfl, rfl, ?_⟩
    · rw [scnOffset, if_pos hlay]
    · rw [scnSize, if_pos hlay]
    · rw [if_pos hlay]
  | move hdata hclean hlay hpos =>
    have hsize : scnSize e ec s = ec.get s.shdr.shSize := by
      simp [scnSize, hlay, librarySize, hdata, hclean]
    have halign : scnAlign ec s = shAlign ec s.shdr := by simp [scnAlign, hdata, dataAlign]
    have hoffset : scnOffset e ec rc s = roundUp rc (shAlign ec s.shdr) := by
      simp [scnOffset, hlay, halign]
    refine ⟨?_, ?_, placed_sRawdata .., placed_sDirty .., placed_sNdx .., placed_sRawoff .., ?_⟩
    · rw [placed_sOffset, hoffset]
    · rw [placed_sSize, hsize]
    · rw [hlay, if_neg Bool.false_ne_true, halign, hoffset, hsize, scnEntsize, if_pos ⟨hdata, hclean⟩]
      exact placed_shdr ec _ _ _ _ _
  | check hread hloaded hlay =>
    have hsame := hloaded.same
    refine ⟨?_, ?_, hsame.rawdata, hsame.dirty, hsame.ndx, hsame.rawoff, ?_⟩
    · rw [scnOffset, if_pos hlay]
    · rw [scnSize, if_pos hlay]
    · rw [if_pos hlay]
      exact hsame.shdr
  | @pack u size align ds hread hloaded hlay hdata hpos =>
    have hsame := hloaded.same
    obtain ⟨hok, _, hr⟩ := checkData_library hlay hdata
    obtain ⟨hsize', halign'⟩ := Prod.mk.inj hr
    obtain ⟨hend, hmax⟩ := hloaded.packed hread hok
    rw [← halign'] at hmax
    have hsize : scnSize e ec s = size := by simp [scnSize, hlay, hsize', hend]
    have hoffset : scnOffset e ec rc s = roundUp rc (scnAlign ec s) := by simp [scnOffset, hlay]
    refine ⟨?_, ?_, (placed_sRawdata ..).trans hsame.rawdata, (placed_sDirty ..).trans hsame.dirty,
      (placed_sNdx ..).trans hsame.ndx, (placed_sRawoff ..).trans hsame.rawoff, ?_⟩
    · rw [placed_sOffset, hoffset, hmax]
    · rw [placed_sSize, hsize]
    · have hent : scnEntsize ec s = shEntsize ec s.shdr := by
        refine if_neg fun h => ?_
        rcases hread with hne | hdirty
        · exact hne h.1
        · rw [h.2] at hdirty
          cases hdirty
      rw [hlay, if_neg Bool.false_ne_true, hoffset, hsize, hmax, hent, placed_shdr]
      dsimp only
      rw [hsame.shdr]

theorem Settled.shType (h : Settled e ec rc s t) : t.shdr.shType = s.shdr.shType := by
  have := h.shdr
  split at this <;> rw [this]

theorem Settled.isSkipped (h : Settled e ec rc s t) : t.isSkipped = s.isSkipped := by
  unfold Scn.isSkipped
  rw [h.shType]

end Section

/-! ## All sections -/

section Sections

variable {env : Env} {e : Elf} {ec : ElfClass}

/-- The loop over the sections lays out each of them after those before it. -/
theorem Resynced.spec {ndx rc rc' : Nat} {exs exs' : List Extent} {ss ss' : List Scn}
    (h : Resynced env e ec ndx rc exs ss rc' exs' ss') :
    rc' = rcAt e ec rc ss ∧ ss'.length = ss.length ∧ ∀ i s, ss[i]? = some s → ∃ t, ss'[i]? = some t ∧
      (s.isSkipped = true ∧ t = s ∨
        s.isSkipped = false ∧ LaidOut env e ec (rcAt e ec rc (ss.take i)) s t) := by
  induction h with
  | nil => exact ⟨rfl, rfl, nofun⟩
  | @skip ndx rc rc' exs exs' s ss ss' hskip rest ih =>
    obtain ⟨hrc, hlen, hss⟩ := ih
    have hnext : nextRc e ec rc s = rc := by simp [nextRc, hasExtent, hskip]
    refine ⟨by rw [rcAt_cons, hnext, hrc], by rw [List.length_cons, hlen, List.length_cons], ?_⟩
    intro i u hu
    cases i with
    | zero =>
      cases hu
      exact ⟨_, rfl, .inl ⟨hskip, rfl⟩⟩
    | succ i => simpa [hnext] using hss i u hu
  | @empty ndx rc rc' exs exs' s t ss ss' hkeep hlaid hsize rest ih =>
    obtain ⟨hrc, hlen, hss⟩ := ih
    have hnext : nextRc e ec rc s = rc := by
      have := hlaid.settled.size
      rw [hsize] at this
      simp [nextRc, hasExtent, ← this]
    refine ⟨by rw [rcAt_cons, hnext, hrc], by rw [List.length_cons, hlen, List.length_cons], ?_⟩
    intro i u hu
    cases i with
    | zero =>
      cases hu
      exact ⟨_, rfl, .inr ⟨hkeep, hlaid⟩⟩
    | succ i => simpa [hnext] using hss i u hu
  | @put ndx rc rc' exs exs₁ exs' s t ss ss' hkeep hlaid hsize hins rest ih =>
    obtain ⟨hrc, hlen, hss⟩ := ih
    have hnext : nextRc e ec rc s = max rc (wrap (t.sOffset + t.sSize)) := by
      have hs := hlaid.settled
      rw [hs.size] at hsize
      rw [nextRc, if_pos (by simp [hasExtent, hkeep, hsize]), hs.offset, hs.size]
    refine ⟨by rw [rcAt_cons, hnext, hrc], by rw [List.length_cons, hlen, List.length_cons], ?_⟩
    intro i u hu
    cases i with
    | zero =>
      cases hu
      exact ⟨_, rfl, .inr ⟨hkeep, hlaid⟩⟩
    | succ i => simpa [hnext] using hss i u hu

/-- The extent of the section `t` with index `i`. -/
def scnExtent (i : Nat) (t : Scn) : Extent := ⟨t.sOffset, t.sSize, .scn, i⟩

/-- The extents are those there were before, and one for each section with contents. -/
theorem Resynced.mem_iff {ndx rc rc' : Nat} {exs exs' : List Extent} {ss ss' : List Scn}
    (h : Resynced env e ec ndx rc exs ss rc' exs' ss') (x : Extent) :
    x ∈ exs' ↔ x ∈ exs ∨ ∃ i t, ss'[i]? = some t ∧ t.isSkipped = false ∧ t.sSize ≠ 0 ∧
      x = scnExtent (ndx + i) t := by
  induction h with
  | nil => simp
  | @skip ndx rc rc' exs exs' s ss ss' hskip rest ih =>
    rw [ih]
    refine or_congr_right ⟨?_, ?_⟩
    · rintro ⟨i, t, ht, hrest⟩
      exact ⟨i + 1, t, ht, by rwa [Nat.add_right_comm] at hrest⟩
    · rintro ⟨i, t, ht, hkeep, hrest⟩
      cases i with
      | zero =>
        cases ht
        rw [hskip] at hkeep
        cases hkeep
      | succ i => exact ⟨i, t, ht, hkeep, by rwa [Nat.add_right_comm]⟩
  | @empty ndx rc rc' exs exs' s t ss ss' hkeep hlaid hsize rest ih =>
    rw [ih]
    refine or_congr_right ⟨?_, ?_⟩
    · rintro ⟨i, u, hu, hrest⟩
      exact ⟨i + 1, u, hu, by rwa [Nat.add_right_comm] at hrest⟩
    · rintro ⟨i, u, hu, hkeep', hsize', hrest⟩
      cases i with
      | zero =>
        cases hu
        exact absurd hsize hsize'
      | succ i => exact ⟨i, u, hu, hkeep', hsize', by rwa [Nat.add_right_comm]⟩
  | @put ndx rc rc' exs exs₁ exs' s t ss ss' hkeep hlaid hsize hins rest ih =>
    rw [ih, mem_insertExtent hins]
    have hkeep' : t.isSkipped = false := hlaid.settled.isSkipped.trans hkeep
    constructor
    · rintro ((rfl | hx) | ⟨i, u, hu, hrest⟩)
      · exact .inr ⟨0, t, rfl, hkeep', hsize, rfl⟩
      · exact .inl hx
      · exact .inr ⟨i + 1, u, hu, by rwa [Nat.add_right_comm] at hrest⟩
    · rintro (hx | ⟨i, u, hu, hkeep'', hsize', hrest⟩)
      · exact .inl (.inr hx)
      · cases i with
        | zero =>
          cases hu
          exact .inl (.inl hrest)
        | succ i => exact .inr ⟨i, u, hu, hkeep'', hsize', by rwa [Nat.add_right_comm]⟩

/-- The extents stay sorted as long as no section wraps around. -/
theorem Resynced.sorted {ndx rc rc' : Nat} {exs exs' : List Extent} {ss ss' : List Scn}
    (h : Resynced env e ec ndx rc exs ss rc' exs' ss') (hs : Sorted exs)
    (hexs : ∀ x ∈ exs, x.stop < 2 ^ 64)
    (hfit : ∀ t ∈ ss', t.isSkipped = false → t.sSize ≠ 0 → t.sOffset + t.sSize < 2 ^ 64) :
    Sorted exs' := by
  induction h with
  | nil => exact hs
  | skip hskip rest ih => exact ih hs hexs fun t ht => hfit t (.tail _ ht)
  | empty hkeep hlaid hsize rest ih => exact ih hs hexs fun t ht => hfit t (.tail _ ht)
  | @put ndx rc rc' exs exs₁ exs' s t ss ss' hkeep hlaid hsize hins rest ih =>
    have ht : t.sOffset + t.sSize < 2 ^ 64 :=
      hfit t List.mem_cons_self (hlaid.settled.isSkipped.trans hkeep) hsize
    refine ih (insertExtent_sorted hins hs hexs ht) (fun x hx => ?_) fun t ht => hfit t (.tail _ ht)
    rcases (mem_insertExtent hins).mp hx with rfl | hx
    · exact ht
    · exact hexs x hx

/-- The running end bounds the extents, and one of them reaches it. -/
theorem Resynced.endBy {ndx rc rc' : Nat} {exs exs' : List Extent} {ss ss' : List Scn}
    (h : Resynced env e ec ndx rc exs ss rc' exs' ss') (hexs : EndBy rc exs) (htop : ∃ x ∈ exs, x.stop = rc)
    (hfit : ∀ t ∈ ss', t.isSkipped = false → t.sSize ≠ 0 → t.sOffset + t.sSize < 2 ^ 64) :
    EndBy rc' exs' ∧ ∃ x ∈ exs', x.stop = rc' := by
  induction h with
  | nil => exact ⟨hexs, htop⟩
  | skip hskip rest ih => exact ih hexs htop fun t ht => hfit t (.tail _ ht)
  | empty hkeep hlaid hsize rest ih => exact ih hexs htop fun t ht => hfit t (.tail _ ht)
  | @put ndx rc rc' exs exs₁ exs' s t ss ss' hkeep hlaid hsize hins rest ih =>
    have ht : t.sOffset + t.sSize < 2 ^ 64 :=
      hfit t List.mem_cons_self (hlaid.settled.isSkipped.trans hkeep) hsize
    have hstop : (⟨t.sOffset, t.sSize, .scn, ndx⟩ : Extent).stop = t.sOffset + t.sSize := rfl
    rw [wrap_of_lt ht] at ih
    refine ih (fun x hx => ?_) ?_ fun u hu => hfit u (.tail _ hu)
    · rcases (mem_insertExtent hins).mp hx with rfl | hx
      · rw [hstop]
        exact Nat.le_max_right _ _
      · exact Nat.le_trans (hexs x hx) (Nat.le_max_left _ _)
    · rcases Nat.le_total rc (t.sOffset + t.sSize) with hle | hle
      · refine ⟨_, (mem_insertExtent hins).mpr (.inl rfl), ?_⟩
        rw [hstop, Nat.max_eq_right hle]
      · obtain ⟨x, hx, hxrc⟩ := htop
        refine ⟨x, (mem_insertExtent hins).mpr (.inr hx), ?_⟩
        rw [hxrc, Nat.max_eq_left hle]

end Sections

end LibElf.Toolchain
