import LibElf.Toolchain.LibraryLayout

/-!
# A second layout

`elf_update(e, ELF_C_NULL)` stores the layout in the headers it is computed from. Here each of the rules is applied to
what it has stored.

1. `checkData_again` and `LaidOut.again`, one section.
2. `Resynced.again`, the list of the sections.
3. `TakesCount`, a section 0 with contents whose header takes a count, and `LaidOut.counted_again`.
4. `HeadersIn`, the headers, and `LayoutRun.again`, the whole object.
5. `LaysOutAgain` and `layout_idempotent_iff`.
-/

namespace LibElf.Toolchain

open Outcome

attribute [local irreducible] fsize msize

/-! ## One section -/

section Section

/-- What the rules for a section take from the descriptor. -/
structure SameRules (e e₂ : Elf) : Prop where
  cmd : e₂.eCmd = e.eCmd
  version : e₂.eVersion = e.eVersion
  layout : e₂.eFlags.layout = e.eFlags.layout

variable {env : Env} {e e₂ : Elf} {ec : ElfClass}

theorem checkData_congr (h : SameRules e e₂) (ds : List ElfData) : ∀ size align,
    checkData e₂ ec size align ds = checkData e ec size align ds := by
  induction ds with
  | nil => exact fun _ _ => rfl
  | cons d ds ih =>
    intro size align
    unfold checkData
    rw [h.version, h.layout]
    simp only [ih]

/-- The loop over the descriptors, applied to the descriptors that it leaves. -/
theorem checkData_again (ds : List ElfData) : ∀ {size align : Nat} {r : Nat × Nat} {ds' : List ElfData},
    checkData e ec size align ds = .ok r ds' → checkData e ec size align ds' = .ok r ds' := by
  induction ds with
  | nil =>
    intro size align r ds' h
    cases h
    rfl
  | cons d ds ih =>
    intro size align r ds' h
    have hds := h
    obtain ⟨⟨⟨t, ht, hpos, hmod⟩, hver, hpow⟩, l, hrest⟩ := checkData_cons_ok h
    cases hlay : e.eFlags.layout with
    | true =>
      obtain ⟨-, rfl, -⟩ := checkData_layout hlay hds
      exact hds
    | false =>
      rw [hlay, if_neg Bool.false_ne_true] at hrest
      obtain ⟨hrec, rfl⟩ := hrest
      have hfsz : libelfFsize t ec (d.dSize.toNat / msize t ec) = dataFsz ec d := by rw [dataFsz, ht]
      have hnext := ih hrec
      unfold checkData
      simp only [ht, hver, hpow, hmod, hlay, Nat.ne_of_gt hpos, hfsz, hnext, ne_eq, not_true_eq_false, if_false,
        Bool.true_eq_false, Bool.false_eq_true, within_ok]

/-- The place of a section and the fields of its header that the layout stores. -/
def storePlace (s : Scn) (align entsize offset size : UInt64) (sOffset sSize : Nat) : Scn :=
  { s with
    shdr := { s.shdr with shAddralign := align, shEntsize := entsize, shOffset := offset, shSize := size }
    sSize := sSize
    sOffset := sOffset }

theorem storePlace_storePlace (s : Scn) (a b c d a' b' c' d' : UInt64) (o o' z z' : Nat) :
    storePlace (storePlace s a' b' c' d' o' z') a b c d o z = storePlace s a b c d o z := rfl

theorem placed_eq (rc align entsize size : Nat) (s : Scn) : placed ec rc align entsize size s =
    storePlace s (ec.put align) (ec.put entsize) (ec.put (roundUp rc align)) (ec.put size) (roundUp rc align) size := by
  cases s
  unfold placed storePlace
  dsimp only

theorem placed_placed (rc align entsize size align' entsize' size' rc' : Nat) (s : Scn) :
    placed ec rc align entsize size (placed ec rc' align' entsize' size' s) = placed ec rc align entsize size s := by
  rw [placed_eq, placed_eq, placed_eq, storePlace_storePlace]

/-- A value of the class's width is read back. -/
theorem get_put_get (x : UInt64) : ec.get (ec.put (ec.get x)) = ec.get x := by
  rw [ElfClass.get_put, Nat.mod_eq_of_lt (ec.get_lt_width x)]

theorem falign_le (t : Option ElfType) (ec : ElfClass) : falign t ec ≤ 8 := by
  cases t with
  | none => exact Nat.zero_le 8
  | some t => cases t <;> cases ec <;> decide

theorem shAlign_lt (h : Shdr) : shAlign ec h < 2 ^ ec.width := by
  unfold shAlign
  split
  · exact Nat.lt_of_le_of_lt (falign_le _ _) (by cases ec <;> decide)
  · exact ec.get_lt_width _

/-- The alignment that is stored, taken for the alignment of the header. -/
theorem max_shAlign_placed {rc align entsize size : Nat} {s : Scn} {a : Nat} (ha : a = max (shAlign ec s.shdr) align)
    (hpos : 0 < a) : max (shAlign ec (placed ec rc a entsize size s).shdr) align = a := by
  have hlt := @shAlign_lt ec s.shdr
  have hget : ec.get (placed ec rc a entsize size s).shdr.shAddralign = a % 2 ^ ec.width := by
    rw [placed_shdr, ElfClass.get_put]
  have hle : 8 < 2 ^ ec.width := by cases ec <;> decide
  rcases Nat.lt_or_ge a (2 ^ ec.width) with hfit | hbig
  · rw [Nat.mod_eq_of_lt hfit] at hget
    rw [shAlign, hget, if_neg (Nat.ne_of_gt hpos)]
    omega
  · -- only the alignment of a descriptor is too large for the header
    have halign : align = a := by omega
    have hshort : shAlign ec (placed ec rc a entsize size s).shdr ≤ a := by
      unfold shAlign
      split
      · exact Nat.le_trans (falign_le _ _) (by omega)
      · rw [hget]
        exact Nat.mod_le _ _
    rw [halign]
    exact Nat.max_eq_right hshort

theorem shEntsize_lt (h : Shdr) : shEntsize ec h < 2 ^ ec.width := by
  have hsmall : ∀ t, fsize t ec < 2 ^ ec.width := by
    intro t
    have hle := Nat.le_trans (fsize_le_msize t ec) (msize_lt t ec)
    refine Nat.lt_of_le_of_lt hle ?_
    cases ec <;> decide
  have hpos : 0 < 2 ^ ec.width := Nat.two_pow_pos _
  unfold shEntsize
  split
  · cases xlateShtype h.shType with
    | none => exact hpos
    | some t =>
      dsimp only
      split
      · exact hpos
      · exact hsmall t
  · exact ec.get_lt_width _

theorem shEntsize_congr {h h' : Shdr} (hsize : ec.get h.shEntsize = ec.get h'.shEntsize) (htype : h.shType = h'.shType) :
    shEntsize ec h = shEntsize ec h' := by
  unfold shEntsize
  rw [hsize, htype]

/-- The entry size that is stored, taken for the entry size of the header. -/
theorem shEntsize_placed {rc align size : Nat} {s : Scn} :
    shEntsize ec (placed ec rc align (shEntsize ec s.shdr) size s).shdr = shEntsize ec s.shdr := by
  have hget : ec.get (placed ec rc align (shEntsize ec s.shdr) size s).shdr.shEntsize = shEntsize ec s.shdr := by
    rw [placed_shdr, ElfClass.get_put, Nat.mod_eq_of_lt (shEntsize_lt s.shdr)]
  by_cases hzero : shEntsize ec s.shdr = 0
  · -- nothing was stored, and the rule has not changed
    have hold : ec.get s.shdr.shEntsize = 0 := by
      by_contra hne
      rw [shEntsize, if_neg hne] at hzero
      exact hne hzero
    exact shEntsize_congr (hget.trans (hzero.trans hold.symm)) (by rw [placed_shdr])
  · rw [shEntsize, hget, if_neg hzero]

theorem isSkipped_placed {rc align entsize size : Nat} {s : Scn} :
    (placed ec rc align entsize size s).isSkipped = s.isSkipped := by
  rw [Scn.isSkipped, Scn.isSkipped, placed_shdr]

theorem kept_of_isSkipped {s : Scn} (h : s.isSkipped = false) :
    ¬ (s.shdr.shType = shtNull ∨ s.shdr.shType = shtNobits) :=
  fun hor => of_decide_eq_false h hor.symm

/-- The layout of a section whose contents were not read in. -/
theorem computeSectionExtents_unread {rc : Nat} {s : Scn} (hkeep : s.isSkipped = false) (hdata : s.sData = [])
    (hclean : s.sDirty = false) : computeSectionExtents env e ec rc s =
      if e.eFlags.layout then updateDescriptor (ec.get s.shdr.shSize) (ec.get s.shdr.shOffset) s
      else computeOffset ec rc (shAlign ec s.shdr) (ec.get s.shdr.shEntsize) (ec.get s.shdr.shSize) s := by
  unfold computeSectionExtents
  dsimp only
  rw [if_neg (kept_of_isSkipped hkeep), if_pos ⟨hdata, hclean⟩]

/-- The layout of a section whose descriptors are there and stay as they are. -/
theorem computeSectionExtents_read {rc size align : Nat} {s : Scn} (hkeep : s.isSkipped = false)
    (hread : s.sData ≠ [] ∨ s.sDirty = true) (hthere : s.sData ≠ [] ∨ e.eCmd = .write)
    (hdata : checkData e ec 0 0 s.sData = .ok (size, align) s.sData) :
    computeSectionExtents env e ec rc s =
      if e.eFlags.layout then
        if shAlign ec s.shdr < align then .err .LAYOUT s
        else if shAlign ec s.shdr = 0 then .stop .division
        else if ec.get s.shdr.shOffset % shAlign ec s.shdr ≠ 0 ∨ ec.get s.shdr.shSize < size then .err .LAYOUT s
        else if falign (xlateShtype s.shdr.shType) ec = 0 then .stop .division
        else if ec.get s.shdr.shOffset % falign (xlateShtype s.shdr.shType) ec ≠ 0 then .err .LAYOUT s
        else updateDescriptor (ec.get s.shdr.shSize) (ec.get s.shdr.shOffset) s
      else computeOffset ec rc (max (shAlign ec s.shdr) align) (shEntsize ec s.shdr) size s := by
  have hloaded : ¬ (s.sData = [] ∧ e.eCmd ≠ .write) := fun h => hthere.elim (fun hne => hne h.1) h.2
  have hnew : ¬ (s.sData = [] ∧ s.sDirty = false) := by
    rintro ⟨hnil, hclean⟩
    rcases hread with hne | hdirty
    · exact hne hnil
    · rw [hclean] at hdirty
      cases hdirty
  unfold computeSectionExtents
  dsimp only
  rw [if_neg (kept_of_isSkipped hkeep), if_neg hnew, if_neg hloaded, bind_ok, hdata, within_ok, bind_ok]

/-- A section without contents, moved again. -/
theorem move_again (hrules : SameRules e e₂) {rc : Nat} {s : Scn} (hkeep : s.isSkipped = false) (hnil : s.sData = [])
    (hclean : s.sDirty = false) (hlay : e.eFlags.layout = false) (hpos : 0 < shAlign ec s.shdr) :
    computeSectionExtents env e₂ ec rc
        (placed ec rc (shAlign ec s.shdr) (ec.get s.shdr.shEntsize) (ec.get s.shdr.shSize) s) =
      .ok () (placed ec rc (shAlign ec s.shdr) (ec.get s.shdr.shEntsize) (ec.get s.shdr.shSize) s) := by
  have halign := @max_shAlign_placed ec rc 0 (ec.get s.shdr.shEntsize) (ec.get s.shdr.shSize) s
    (shAlign ec s.shdr) (Nat.max_zero _).symm hpos
  rw [Nat.max_zero] at halign
  have hrule := @computeSectionExtents_unread env e₂ ec rc
    (placed ec rc (shAlign ec s.shdr) (ec.get s.shdr.shEntsize) (ec.get s.shdr.shSize) s) (isSkipped_placed.trans hkeep)
    ((placed_sData ..).trans hnil) ((placed_sDirty ..).trans hclean)
  rw [hrule, hrules.layout, hlay, if_neg Bool.false_ne_true, halign, computeOffset_eq, if_neg (Nat.ne_of_gt hpos),
    placed_placed, placed_shdr, get_put_get, get_put_get]

/-- The section with its descriptors, checked again. -/
theorem check_again (hrules : SameRules e e₂) {rc size align : Nat} {u : Scn} (hkeep : u.isSkipped = false)
    (hread : u.sData ≠ [] ∨ u.sDirty = true) (hthere : u.sData ≠ [] ∨ e.eCmd = .write)
    (hlay : e.eFlags.layout = true) (hdata : checkData e ec 0 0 u.sData = .ok (size, align) u.sData)
    (halign : align ≤ shAlign ec u.shdr) (hpos : 0 < shAlign ec u.shdr)
    (hdvd : shAlign ec u.shdr ∣ ec.get u.shdr.shOffset) (hsize : size ≤ ec.get u.shdr.shSize)
    (hfpos : 0 < falign (xlateShtype u.shdr.shType) ec)
    (hfdvd : falign (xlateShtype u.shdr.shType) ec ∣ ec.get u.shdr.shOffset) :
    computeSectionExtents env e₂ ec rc { u with sSize := ec.get u.shdr.shSize, sOffset := ec.get u.shdr.shOffset } =
      .ok () { u with sSize := ec.get u.shdr.shSize, sOffset := ec.get u.shdr.shOffset } := by
  have hrule := @computeSectionExtents_read env e₂ ec rc size align
    { u with sSize := ec.get u.shdr.shSize, sOffset := ec.get u.shdr.shOffset } hkeep hread
    (by rwa [hrules.cmd]) ((checkData_congr hrules _ _ _).trans hdata)
  dsimp only at hrule
  rw [hrules.layout, hlay, if_pos rfl, if_neg (Nat.not_lt.mpr halign), if_neg (Nat.ne_of_gt hpos),
    if_neg (not_or.mpr ⟨not_not.mpr (Nat.mod_eq_zero_of_dvd hdvd), Nat.not_lt.mpr hsize⟩),
    if_neg (Nat.ne_of_gt hfpos), if_neg (not_not.mpr (Nat.mod_eq_zero_of_dvd hfdvd))] at hrule
  exact hrule

/-- The section with its descriptors, packed again. -/
theorem pack_again (hrules : SameRules e e₂) {rc size align : Nat} {u : Scn} (hkeep : u.isSkipped = false)
    (hread : u.sData ≠ [] ∨ u.sDirty = true) (hthere : u.sData ≠ [] ∨ e.eCmd = .write)
    (hlay : e.eFlags.layout = false) (hdata : checkData e ec 0 0 u.sData = .ok (size, align) u.sData)
    (hpos : 0 < max (shAlign ec u.shdr) align) :
    computeSectionExtents env e₂ ec rc (placed ec rc (max (shAlign ec u.shdr) align) (shEntsize ec u.shdr) size u) =
      .ok () (placed ec rc (max (shAlign ec u.shdr) align) (shEntsize ec u.shdr) size u) := by
  have hmax := @max_shAlign_placed ec rc align (shEntsize ec u.shdr) size u (max (shAlign ec u.shdr) align) rfl hpos
  have hent := @shEntsize_placed ec rc (max (shAlign ec u.shdr) align) size u
  have hrule := @computeSectionExtents_read env e₂ ec rc size align
    (placed ec rc (max (shAlign ec u.shdr) align) (shEntsize ec u.shdr) size u)
  rw [isSkipped_placed, placed_sData, placed_sDirty, hrules.cmd, hrules.layout, hlay, checkData_congr hrules, hmax,
    hent, if_neg Bool.false_ne_true, computeOffset_eq, if_neg (Nat.ne_of_gt hpos), placed_placed] at hrule
  exact hrule hkeep hread hthere hdata

/-- What was read in is there for the next layout. -/
theorem Loaded.there {s u : Scn} (h : Loaded env e ec s u) : (u.sData ≠ [] ∨ e.eCmd = .write) ∧ u.shdr = s.shdr := by
  rcases h with ⟨hthere, rfl⟩ | ⟨hnil, -, d, hg⟩
  · exact ⟨hthere, rfl⟩
  · obtain ⟨rfl, -⟩ := getdata_ok hg hnil
    exact ⟨.inl (List.cons_ne_nil _ _), rfl⟩

/-- A section that was laid out stays as it is. -/
theorem LaidOut.again (hrules : SameRules e e₂) {rc : Nat} {s t : Scn} (h : LaidOut env e ec rc s t)
    (hkeep : s.isSkipped = false) : computeSectionExtents env e₂ ec rc t = .ok () t := by
  -- what was read in is there for the second layout
  have hloaded : ∀ {u : Scn}, Loaded env e ec s u → (u.sData ≠ [] ∨ e.eCmd = .write) ∧ u.shdr = s.shdr ∧
      (s.sData ≠ [] ∨ s.sDirty = true → u.sData ≠ [] ∨ u.sDirty = true) ∧ u.isSkipped = false := by
    rintro u (⟨hthere, rfl⟩ | ⟨hnil, -, d, hg⟩)
    · exact ⟨hthere, rfl, id, hkeep⟩
    · obtain ⟨rfl, -⟩ := getdata_ok hg hnil
      exact ⟨.inl (List.cons_ne_nil _ _), rfl, fun _ => .inl (List.cons_ne_nil _ _), hkeep⟩
  cases h with
  | keep hnil hclean hlay =>
    have hrule := @computeSectionExtents_unread env e₂ ec rc
      { s with sSize := ec.get s.shdr.shSize, sOffset := ec.get s.shdr.shOffset } hkeep hnil hclean
    rw [hrule, hrules.layout, hlay]
    rfl
  | move hnil hclean hlay hpos => exact move_again hrules hkeep hnil hclean hlay hpos
  | @check u size align hread hl hlay hcheck halign hpos hdvd hsize hfpos hfdvd =>
    obtain ⟨hthere, hshdr, hread', hkeep'⟩ := hloaded hl
    rw [← hshdr] at halign hpos hdvd hsize hfpos hfdvd ⊢
    exact check_again hrules hkeep' (hread' hread) hthere hlay hcheck halign hpos hdvd hsize hfpos hfdvd
  | @pack u size align ds hread hl hlay hcheck hpos =>
    obtain ⟨hthere, hshdr, hread', hkeep'⟩ := hloaded hl
    have hne : u.sData ≠ [] → ds ≠ [] := by
      obtain ⟨-, rfl, -⟩ := checkData_library hlay hcheck
      cases u.sData with
      | nil => exact id
      | cons d l => exact fun _ => List.cons_ne_nil _ _
    rw [← hshdr] at hpos ⊢
    exact @pack_again env e e₂ ec hrules rc size align { u with sData := ds } hkeep' ((hread' hread).imp hne id)
      (hthere.imp hne id) hlay (checkData_again _ hcheck) hpos

end Section

/-! ## The list of the sections -/

section Sections

variable {env : Env} {e e₂ : Elf} {ec : ElfClass}

/-- The loop, over the sections that a first run of it has left. -/
theorem Resynced.again (hrules : SameRules e e₂) {ndx rc rc' : Nat} {exs exs' : List Extent} {ss ss' : List Scn}
    (h : Resynced env e ec ndx rc exs ss rc' exs' ss') :
    resyncSections env e₂ ec ndx rc exs ss' = .ok (rc', exs') ss' := by
  induction h with
  | nil => rfl
  | skip hskip rest ih => rw [resyncSections, if_pos hskip, ih, within_ok]
  | @empty ndx rc rc' exs exs' s t ss ss' hkeep hlaid hsize rest ih =>
    have ht := hlaid.settled.isSkipped.trans hkeep
    rw [resyncSections, ht, if_neg Bool.false_ne_true, hlaid.again hrules hkeep]
    dsimp only
    rw [if_pos hsize, ih, within_ok]
  | @put ndx rc rc' exs exs₁ exs' s t ss ss' hkeep hlaid hsize hins rest ih =>
    have ht := hlaid.settled.isSkipped.trans hkeep
    have hmax : (if rc < wrap (t.sOffset + t.sSize) then wrap (t.sOffset + t.sSize) else rc) =
        max rc (wrap (t.sOffset + t.sSize)) := by
      split <;> omega
    rw [resyncSections, ht, if_neg Bool.false_ne_true, hlaid.again hrules hkeep]
    dsimp only
    rw [if_neg hsize, hins]
    dsimp only
    rw [hmax, ih, within_ok]

/-- No count is stored in the header of a section with contents. -/
def CountsApart (p n : Nat) (ss : List Scn) : Prop :=
  p < pnXnum ∧ n < shnLoreserve ∨ ∀ s, ss.head? = some s → s.isSkipped = true

/-- A list that the loop leaves as it is stays so with a new header for section 0, if the section is skipped. -/
theorem resyncSections_putScn0 {upd : Shdr → Shdr} (hupd : ∀ h, (upd h).shType = h.shType) {ndx rc : Nat}
    {exs : List Extent} {r : Nat × List Extent} {ss : List Scn} (hhead : ∀ s, ss.head? = some s → s.isSkipped = true)
    (h : resyncSections env e ec ndx rc exs ss = .ok r ss) :
    resyncSections env e ec ndx rc exs (putScn0 upd ss) = .ok r (putScn0 upd ss) ∧
      ∀ s, (putScn0 upd ss).head? = some s → s.isSkipped = true := by
  cases ss with
  | nil =>
    have hnew : ({ allocateScn 0 with shdr := upd Shdr.zero, sDirty := true } : Scn).isSkipped = true := by
      rw [Scn.isSkipped, hupd]
      rfl
    cases h
    refine ⟨?_, ?_⟩
    · rw [putScn0, resyncSections, if_pos hnew, resyncSections, within_ok]
    · rintro s ⟨⟩
      exact hnew
  | cons s ss =>
    have hskip : s.isSkipped = true := hhead s rfl
    have hnew : ({ s with shdr := upd s.shdr, sDirty := true } : Scn).isSkipped = true := by
      rw [Scn.isSkipped, hupd]
      exact hskip
    rw [resyncSections, if_pos hskip] at h
    obtain ⟨l, hrest, hl⟩ := within_eq_ok.mp h
    cases hl
    refine ⟨?_, ?_⟩
    · rw [putScn0, resyncSections, if_pos hnew, hrest, within_ok]
    · rintro s ⟨⟩
      exact hnew

/-- The loop over the list with the counts. -/
theorem resyncSections_numberScns {p n ndx rc : Nat} {exs : List Extent} {r : Nat × List Extent} {ss : List Scn}
    (hcounts : CountsApart p n ss) (h : resyncSections env e ec ndx rc exs ss = .ok r ss) :
    resyncSections env e ec ndx rc exs (numberScns ec p n ss) = .ok r (numberScns ec p n ss) := by
  unfold numberScns
  rcases hcounts with ⟨hp, hn⟩ | hhead
  · dsimp only
    rw [if_neg (Nat.not_le.mpr hp), if_neg (Nat.not_le.mpr hn)]
    exact h
  · -- the number of program headers first
    have hphdr : ∀ l, (if pnXnum ≤ p then putScn0 (fun s => { s with shInfo := UInt32.ofNat p }) ss else ss) = l →
        resyncSections env e ec ndx rc exs l = .ok r l ∧ ∀ s, l.head? = some s → s.isSkipped = true := by
      rintro l rfl
      split
      · refine resyncSections_putScn0 ?_ hhead h
        exact fun _ => rfl
      · exact ⟨h, hhead⟩
    obtain ⟨hl, hhead'⟩ := hphdr _ rfl
    dsimp only
    split
    · refine (resyncSections_putScn0 ?_ hhead' hl).1
      exact fun _ => rfl
    · exact hl

theorem Resynced.countsApart {ndx rc rc' p n : Nat} {exs exs' : List Extent} {ss ss' : List Scn}
    (h : Resynced env e ec ndx rc exs ss rc' exs' ss') (hcounts : CountsApart p n ss) : CountsApart p n ss' := by
  refine hcounts.imp_right fun hhead t ht => ?_
  cases h with
  | nil => cases ht
  | skip hskip =>
    cases ht
    exact hskip
  | empty hkeep hlaid =>
    cases ht
    exact hlaid.settled.isSkipped.trans (hhead _ rfl)
  | put hkeep hlaid =>
    cases ht
    exact hlaid.settled.isSkipped.trans (hhead _ rfl)

theorem numberScns_numberScns (p n : Nat) (ss : List Scn) :
    numberScns ec p n (numberScns ec p n ss) = numberScns ec p n ss := by
  unfold numberScns
  by_cases hp : pnXnum ≤ p <;> by_cases hn : shnLoreserve ≤ n <;> cases ss <;> simp [hp, hn, putScn0]

end Sections

/-! ## Section 0 with contents -/

section Counted

variable {env : Env} {e e₂ : Elf} {ec : ElfClass} {p n : Nat}

/-- Section 0 once a count is stored in its header, which marks it. -/
def Scn.counted (ec : ElfClass) (p n : Nat) (s : Scn) : Scn :=
  { s with
    shdr := { s.shdr with
      shInfo := if pnXnum ≤ p then UInt32.ofNat p else s.shdr.shInfo
      shSize := if shnLoreserve ≤ n then ec.put n else s.shdr.shSize }
    sDirty := true }

theorem numberScns_cons (h : pnXnum ≤ p ∨ shnLoreserve ≤ n) (s : Scn) (ss : List Scn) :
    numberScns ec p n (s :: ss) = s.counted ec p n :: ss := by
  unfold numberScns Scn.counted
  by_cases hp : pnXnum ≤ p <;> by_cases hn : shnLoreserve ≤ n
  · simp [hp, hn, putScn0]
  · simp [hp, hn, putScn0]
  · simp [hp, hn, putScn0]
  · exact absurd h (not_or.mpr ⟨hp, hn⟩)

theorem counted_counted (s : Scn) : (s.counted ec p n).counted ec p n = s.counted ec p n := by
  unfold Scn.counted
  split_ifs <;> rfl

theorem counted_storePlace (s : Scn) (a b c d a' b' c' d' : UInt64) (o o' z z' : Nat) :
    (storePlace ((storePlace s a' b' c' d' o' z').counted ec p n) a b c d o z).counted ec p n =
      (storePlace s a b c d o z).counted ec p n := by
  unfold Scn.counted storePlace
  split_ifs <;> rfl

/-- Storing the counts takes back what the layout stores over them. -/
theorem counted_placed (rc align entsize size align' entsize' size' rc' : Nat) (s : Scn) :
    (placed ec rc align entsize size ((placed ec rc' align' entsize' size' s).counted ec p n)).counted ec p n =
      (placed ec rc align entsize size s).counted ec p n := by
  rw [placed_eq, placed_eq, placed_eq, counted_storePlace]

/-- What section 0 must be to come out of the next layout as it is, when a count is stored in its header. The store
marks the section, so that a section without descriptors is laid out by other rules than before. -/
structure TakesCount (e : Elf) (ec : ElfClass) (n : Nat) (s : Scn) : Prop where
  unread : s.sData = [] → s.sDirty = false → e.eCmd = .write
  aligned : s.sData = [] → s.sDirty = false → e.eFlags.layout = true →
    (0 < shAlign ec s.shdr ∧ shAlign ec s.shdr ∣ ec.get s.shdr.shOffset) ∧
      0 < falign (xlateShtype s.shdr.shType) ec ∧ falign (xlateShtype s.shdr.shType) ec ∣ ec.get s.shdr.shOffset
  empty : s.sData = [] → s.sDirty = false → e.eFlags.layout = false →
    ec.get s.shdr.shSize = 0 ∧ shEntsize ec s.shdr = ec.get s.shdr.shEntsize
  size : e.eFlags.layout = true → shnLoreserve ≤ n → ec.get s.shdr.shSize = n % 2 ^ ec.width

/-- The size in the header of section 0 once the counts are stored. -/
theorem get_counted (s : Scn) (hsize : shnLoreserve ≤ n → ec.get s.shdr.shSize = n % 2 ^ ec.width) :
    ec.get (s.counted ec p n).shdr.shSize = ec.get s.shdr.shSize := by
  unfold Scn.counted
  dsimp only
  split
  · next hn => rw [ElfClass.get_put, hsize hn]
  · rfl

/-- Section 0 is laid out to what it was. -/
theorem LaidOut.counted_again (hrules : SameRules e e₂) {rc : Nat} {s t : Scn} (h : LaidOut env e ec rc s t)
    (hkeep : s.isSkipped = false) (hs : TakesCount e ec n s) :
    ∃ u, computeSectionExtents env e₂ ec rc (t.counted ec p n) = .ok () u ∧ u.counted ec p n = t.counted ec p n := by
  have hskip : (t.counted ec p n).isSkipped = false := h.settled.isSkipped.trans hkeep
  -- under `ELF_F_LAYOUT` a section in its place is checked, and stays
  have hcheck : ∀ {size align : Nat}, e.eFlags.layout = true → t.shdr = s.shdr →
      t.sSize = ec.get s.shdr.shSize → t.sOffset = ec.get s.shdr.shOffset → (t.sData ≠ [] ∨ e.eCmd = .write) →
      checkData e ec 0 0 t.sData = .ok (size, align) t.sData → align ≤ shAlign ec s.shdr → 0 < shAlign ec s.shdr →
      shAlign ec s.shdr ∣ ec.get s.shdr.shOffset → size ≤ ec.get s.shdr.shSize →
      0 < falign (xlateShtype s.shdr.shType) ec → falign (xlateShtype s.shdr.shType) ec ∣ ec.get s.shdr.shOffset →
      ∃ u, computeSectionExtents env e₂ ec rc (t.counted ec p n) = .ok () u ∧ u.counted ec p n = t.counted ec p n := by
    intro size align hlay hshdr hsz hoff hthere hdata halign hpos hdvd hsize hfpos hfdvd
    have hget := @get_counted ec p n t (by rw [hshdr]; exact hs.size hlay)
    have halign' : shAlign ec (t.counted ec p n).shdr = shAlign ec s.shdr := by rw [← hshdr]; rfl
    have hoff' : (t.counted ec p n).shdr.shOffset = s.shdr.shOffset := by rw [← hshdr]; rfl
    have htype : (t.counted ec p n).shdr.shType = s.shdr.shType := by rw [← hshdr]; rfl
    have hrun := @check_again env e e₂ ec hrules rc size align (t.counted ec p n) hskip (.inr rfl) hthere hlay hdata
    rw [hget, halign', hoff', htype, hshdr] at hrun
    have hsame : { t.counted ec p n with sSize := ec.get s.shdr.shSize, sOffset := ec.get s.shdr.shOffset } =
        t.counted ec p n := by
      rw [← hsz, ← hoff]
      rfl
    rw [hsame] at hrun
    exact ⟨_, hrun halign hpos hdvd hsize hfpos hfdvd, counted_counted t⟩
  -- without it, a section is packed to the same place
  have hpack : ∀ {u : Scn} {size align align' entsize' size' : Nat}, t = placed ec rc align' entsize' size' u →
      e.eFlags.layout = false → (u.sData ≠ [] ∨ e.eCmd = .write) →
      checkData e ec 0 0 u.sData = .ok (size, align) u.sData → max (shAlign ec t.shdr) align = align' →
      0 < align' → (placed ec rc align' (shEntsize ec t.shdr) size u).counted ec p n = t.counted ec p n →
      ∃ u, computeSectionExtents env e₂ ec rc (t.counted ec p n) = .ok () u ∧ u.counted ec p n = t.counted ec p n := by
    intro u size align align' entsize' size' ht hlay hthere hdata hmax hpos heq
    have hcontents : (t.counted ec p n).sData = u.sData := by
      show t.sData = u.sData
      rw [ht, placed_sData]
    have hrule := @computeSectionExtents_read env e₂ ec rc size align (t.counted ec p n) hskip (.inr rfl)
      (by rw [hcontents, hrules.cmd]; exact hthere) (by rw [hcontents, checkData_congr hrules]; exact hdata)
    have halign : max (shAlign ec (t.counted ec p n).shdr) align = align' := hmax
    rw [hrules.layout, hlay, if_neg Bool.false_ne_true, halign, computeOffset_eq, if_neg (Nat.ne_of_gt hpos)] at hrule
    refine ⟨_, hrule, ?_⟩
    have hent : shEntsize ec (t.counted ec p n).shdr = shEntsize ec t.shdr := rfl
    rw [hent, ht, counted_placed, ← ht]
    exact heq
  cases h with
  | keep hnil hclean hlay =>
    obtain ⟨⟨hpos, hdvd⟩, hfpos, hfdvd⟩ := hs.aligned hnil hclean hlay
    have hdata : checkData e ec 0 0 s.sData = .ok (0, 0) s.sData := by rw [hnil]; rfl
    exact hcheck hlay rfl rfl rfl (.inr (hs.unread hnil hclean)) hdata (Nat.zero_le _) hpos hdvd (Nat.zero_le _)
      hfpos hfdvd
  | move hnil hclean hlay hpos =>
    obtain ⟨hzero, hent⟩ := hs.empty hnil hclean hlay
    have hdata : checkData e ec 0 0 s.sData = .ok (0, 0) s.sData := by rw [hnil]; rfl
    have hmax := @max_shAlign_placed ec rc 0 (ec.get s.shdr.shEntsize) (ec.get s.shdr.shSize) s
      (shAlign ec s.shdr) (Nat.max_zero _).symm hpos
    have hsame := @shEntsize_placed ec rc (shAlign ec s.shdr) (ec.get s.shdr.shSize) s
    rw [hent] at hsame
    refine hpack rfl hlay (.inr (hs.unread hnil hclean)) hdata hmax hpos ?_
    rw [hsame, hzero]
  | @check u size align hread hl hlay hdata halign hpos hdvd hsize hfpos hfdvd =>
    obtain ⟨hthere, hshdr⟩ := hl.there
    exact hcheck hlay hshdr rfl rfl hthere hdata halign hpos hdvd hsize hfpos hfdvd
  | @pack u size align ds hread hl hlay hdata hpos =>
    obtain ⟨hthere, hshdr⟩ := hl.there
    have hne : u.sData ≠ [] → ds ≠ [] := by
      obtain ⟨-, rfl, -⟩ := checkData_library hlay hdata
      cases u.sData with
      | nil => exact id
      | cons d l => exact fun _ => List.cons_ne_nil _ _
    have hagain := checkData_again _ hdata
    obtain ⟨v, hv, hvdata⟩ : ∃ v : Scn, v = { u with sData := ds } ∧ v.sData = ds := ⟨_, rfl, rfl⟩
    have hvshdr : v.shdr = s.shdr := by rw [hv, ← hshdr]
    rw [← hv] at hcheck hpack ⊢
    rw [← hvdata] at hagain
    have hmax := @max_shAlign_placed ec rc align (shEntsize ec s.shdr) size v (max (shAlign ec s.shdr) align)
      (by rw [hvshdr]) hpos
    have hent := @shEntsize_placed ec rc (max (shAlign ec s.shdr) align) size v
    rw [hvshdr] at hent
    refine hpack rfl hlay (hthere.imp (fun hu => by rw [hvdata]; exact hne hu) id) hagain hmax hpos ?_
    rw [hent]

/-- The layout of a section that was neither read nor modified. -/
theorem LaidOut.of_unread {rc : Nat} {s t : Scn} (h : LaidOut env e ec rc s t) (hnil : s.sData = [])
    (hclean : s.sDirty = false) :
    t = (if e.eFlags.layout then { s with sSize := ec.get s.shdr.shSize, sOffset := ec.get s.shdr.shOffset }
      else placed ec rc (shAlign ec s.shdr) (ec.get s.shdr.shEntsize) (ec.get s.shdr.shSize) s) ∧ t.sData = [] := by
  have hnot : ¬ (s.sData ≠ [] ∨ s.sDirty = true) := by simp [hnil, hclean]
  cases h with
  | keep _ _ hlay => exact ⟨(if_pos hlay).symm, hnil⟩
  | move _ _ hlay => exact ⟨(if_neg (by simp [hlay])).symm, by rwa [placed_sData]⟩
  | check hread => exact absurd hread hnot
  | pack hread => exact absurd hread hnot

/-- Only such a section 0 is laid out to what it was. -/
theorem LaidOut.takesCount (hrules : SameRules e e₂) {rc rc' : Nat} {s t u : Scn} (h : LaidOut env e ec rc s t)
    (hagain : LaidOut env e₂ ec rc' (t.counted ec p n) u) (heq : u.counted ec p n = t.counted ec p n) :
    TakesCount e ec n s := by
  have hdata : u.sData = t.sData := (Scn.mk.inj heq).2.1
  have hsize : u.sSize = t.sSize := (Scn.mk.inj heq).2.2.2.2.2.2.2
  have hentry : u.shdr.shEntsize = t.shdr.shEntsize := by
    have hshdr := (Scn.mk.inj heq).1
    rw [Shdr.mk.injEq] at hshdr
    exact hshdr.2.2.2.2.2.2.2.2.2
  -- descriptors that are read in by the second layout are still there after it
  have hwrite : t.sData = [] → ∀ {v : Scn}, Loaded env e₂ ec (t.counted ec p n) v → (v.sData ≠ [] → u.sData ≠ []) →
      v.sData = [] ∧ e.eCmd = .write := by
    intro hnil v hl hv
    rw [← hrules.cmd]
    by_contra hnot
    refine hv ?_ (hdata.trans hnil)
    rcases hl with ⟨hthere, rfl⟩ | ⟨-, -, d, hg⟩
    · exact fun hnil' => hnot ⟨hnil', hthere.resolve_left fun hne => hne hnil'⟩
    · rw [(getdata_ok hg hnil).1]
      exact List.cons_ne_nil _ _
  cases hagain with
  | keep _ hclean => cases hclean
  | move _ hclean => cases hclean
  | @check v size align _ hl hlay _ _ hpos hdvd _ hfpos hfdvd =>
    rw [hrules.layout] at hlay
    refine ⟨fun hnil hclean => (hwrite (h.of_unread hnil hclean).2 hl id).2, fun hnil hclean _ => ?_,
      fun _ _ hno => ?_, fun _ hn => ?_⟩
    · have ht := (h.of_unread hnil hclean).1
      rw [if_pos hlay] at ht
      rw [ht] at hpos hdvd hfpos hfdvd
      exact ⟨⟨hpos, hdvd⟩, hfpos, hfdvd⟩
    · rw [hlay] at hno
      cases hno
    · have hput : ec.get (t.counted ec p n).shdr.shSize = n % 2 ^ ec.width := by
        unfold Scn.counted
        dsimp only
        rw [if_pos hn, ElfClass.get_put]
      have hold : t.sSize = ec.get s.shdr.shSize := by rw [h.settled.size, scnSize, if_pos hlay]
      exact hold.symm.trans (hsize.symm.trans hput)
  | @pack v size align ds _ hl hlay hcheck hpos =>
    have hds : ds = assignOffsets ec 0 v.sData := (checkData_library hlay hcheck).2.1
    have hne : v.sData ≠ [] → ds ≠ [] := by
      rw [hds]
      cases v.sData with
      | nil => exact id
      | cons d l => exact fun _ => List.cons_ne_nil _ _
    rw [hrules.layout] at hlay
    rw [placed_sData] at hdata hwrite
    refine ⟨fun hnil hclean => (hwrite (h.of_unread hnil hclean).2 hl hne).2, fun _ _ hyes => ?_,
      fun hnil hclean _ => ?_, fun hyes => ?_⟩
    · rw [hlay] at hyes
      cases hyes
    · obtain ⟨ht, hnil'⟩ := h.of_unread hnil hclean
      rw [if_neg (by simp [hlay])] at ht
      rw [(hwrite hnil' hl hne).1] at hcheck
      cases hcheck
      rw [placed_sSize, ht, placed_sSize] at hsize
      rw [placed_shdr] at hentry
      have hrule : shEntsize ec (t.counted ec p n).shdr = shEntsize ec s.shdr := by
        refine shEntsize_congr ?_ ?_
        · show ec.get t.shdr.shEntsize = _
          rw [ht, placed_shdr, get_put_get]
        · show t.shdr.shType = _
          rw [ht, placed_shdr]
      have hget := congrArg ec.get hentry
      rw [hrule, ElfClass.get_put, Nat.mod_eq_of_lt (shEntsize_lt s.shdr), ht, placed_shdr, get_put_get] at hget
      exact ⟨hsize.symm, hget⟩
    · rw [hlay] at hyes
      cases hyes

/-- The loop, over a list whose section 0 took a count. -/
theorem Resynced.counted_again (hrules : SameRules e e₂) (hcount : pnXnum ≤ p ∨ shnLoreserve ≤ n)
    {ndx rc rc' : Nat} {exs exs' : List Extent} {s : Scn} {ss l : List Scn}
    (h : Resynced env e ec ndx rc exs (s :: ss) rc' exs' l) (hkeep : s.isSkipped = false) (hs : TakesCount e ec n s) :
    ∃ l', resyncSections env e₂ ec ndx rc exs (numberScns ec p n l) = .ok (rc', exs') l' ∧
      numberScns ec p n l' = numberScns ec p n l := by
  have hplaced : ∀ {t u : Scn}, u.counted ec p n = t.counted ec p n → u.sOffset = t.sOffset ∧ u.sSize = t.sSize := by
    intro t u heq
    obtain ⟨-, -, -, -, -, hoff, -, hsize⟩ := Scn.mk.inj heq
    exact ⟨hoff, hsize⟩
  cases h with
  | skip hskip =>
    rw [hkeep] at hskip
    cases hskip
  | @empty _ _ _ _ _ _ t _ ss' _ hlaid hsize rest =>
    have ht : (t.counted ec p n).isSkipped = false := hlaid.settled.isSkipped.trans hkeep
    obtain ⟨u, hrun, heq⟩ := hlaid.counted_again hrules hkeep hs
    refine ⟨u :: ss', ?_, by rw [numberScns_cons hcount, numberScns_cons hcount, heq]⟩
    rw [numberScns_cons hcount, resyncSections, ht, if_neg Bool.false_ne_true, hrun]
    dsimp only
    rw [if_pos ((hplaced heq).2.trans hsize), rest.again hrules, within_ok]
  | @put _ _ _ _ exs₁ _ _ t _ ss' _ hlaid hsize hins rest =>
    have ht : (t.counted ec p n).isSkipped = false := hlaid.settled.isSkipped.trans hkeep
    obtain ⟨u, hrun, heq⟩ := hlaid.counted_again hrules hkeep hs
    obtain ⟨hoff, hsz⟩ := hplaced heq
    have hmax : (if rc < wrap (t.sOffset + t.sSize) then wrap (t.sOffset + t.sSize) else rc) =
        max rc (wrap (t.sOffset + t.sSize)) := by
      split <;> omega
    refine ⟨u :: ss', ?_, by rw [numberScns_cons hcount, numberScns_cons hcount, heq]⟩
    rw [numberScns_cons hcount, resyncSections, ht, if_neg Bool.false_ne_true, hrun]
    dsimp only
    rw [hsz, hoff, if_neg hsize, hins]
    dsimp only
    rw [hmax, rest.again hrules, within_ok]

theorem Resynced.head {ndx rc rc' : Nat} {exs exs' : List Extent} {s : Scn} {ss l : List Scn}
    (h : Resynced env e ec ndx rc exs (s :: ss) rc' exs' l) (hkeep : s.isSkipped = false) :
    ∃ t ts, l = t :: ts ∧ LaidOut env e ec rc s t := by
  cases h with
  | skip hskip =>
    rw [hkeep] at hskip
    cases hskip
  | empty _ hlaid => exact ⟨_, _, rfl, hlaid⟩
  | put _ hlaid => exact ⟨_, _, rfl, hlaid⟩

/-- Such a run over such a list leaves it only if section 0 may take the count. -/
theorem Resynced.takesCount (hrules : SameRules e e₂) (hcount : pnXnum ≤ p ∨ shnLoreserve ≤ n)
    {ndx rc rc' ndx₂ rc₂ rc₂' : Nat} {exs exs' exs₂ exs₂' : List Extent} {s : Scn} {ss l l' : List Scn}
    (h : Resynced env e ec ndx rc exs (s :: ss) rc' exs' l)
    (hagain : Resynced env e₂ ec ndx₂ rc₂ exs₂ (numberScns ec p n l) rc₂' exs₂' l') (hkeep : s.isSkipped = false)
    (heq : numberScns ec p n l' = numberScns ec p n l) : TakesCount e ec n s := by
  obtain ⟨t, ts, rfl, hlaid⟩ := h.head hkeep
  rw [numberScns_cons hcount] at hagain heq
  obtain ⟨u, us, rfl, hlaid'⟩ := hagain.head (hlaid.settled.isSkipped.trans hkeep)
  rw [numberScns_cons hcount] at heq
  exact hlaid.takesCount hrules hlaid' (List.cons.inj heq).1

end Counted

/-! ## The headers -/

section Headers

variable {env : Env} {e e' : Elf} {ec : ElfClass}

/-- What the layout takes from the program header table is a pointer, and it does not mind a table out of the file. -/
def PhdrIgnored (ec : ElfClass) (phoff : Nat) (e : Elf) : Prop :=
  e.eNphdr ≠ 0 → e.ePhdr = none → libelfFsize .phdr ec e.eNphdr ≠ 0 ∧
    (e.rawsize < wrap (phoff + libelfFsize .phdr ec e.eNphdr) ∨ phoff + e.eNphdr * fsize .phdr ec ≤ e.rawsize)

/-- The headers are read in and were made ready for a layout. -/
structure HeadersIn (ec : ElfClass) (h : Ehdr) (e : Elf) : Prop where
  eClass : e.eClass = some ec
  eVersion : e.eVersion = evCurrent
  eEhdr : e.eEhdr = some h
  dirty : e.eFlags.dirty = true
  byteorder : e.eByteorder = h.eIdent[5]
  version : (if h.eVersion.toNat = 0 then evCurrent else h.eVersion.toNat) = evCurrent
  fixed : initializeEhdr ec e.eNphdr h = h
  loaded : e.eCmd ≠ .write → e.eFlags.shdrsLoaded = true

theorem initializeEhdr_again (p : Nat) (h : Ehdr) :
    initializeEhdr ec p (initializeEhdr ec p h) = initializeEhdr ec p h := by
  unfold initializeEhdr
  dsimp only
  congr 1
  ext i hi
  simp only [Vector.getElem_set]
  split_ifs <;> rfl

theorem getphdr_ignored {h : Ehdr} (hc : e.eClass = some ec) (hv : e.eVersion = evCurrent) (hh : e.eEhdr = some h)
    (hp : e.eNphdr ≠ 0) (hfit : PhdrIgnored ec (ec.get h.ePhoff) e) :
    ∃ ps, (getphdr env ec e).ignore = .ok () (e.setPhdr ps) := by
  have hnone : ∀ {e : Elf}, e.ePhdr = none → e = e.setPhdr none := by
    rintro e hnil
    cases e
    cases hnil
    rfl
  unfold getphdr
  split
  · next ps hps =>
    refine ⟨some ps, ?_⟩
    cases e
    cases hps
    rfl
  · next hps =>
    obtain ⟨hne, hcase⟩ := hfit hp hps
    rw [libelfEhdr_cached hc hv hh, bind_ok]
    dsimp only
    rw [if_neg hne]
    split
    · exact ⟨none, congrArg (ok ()) (hnone hps)⟩
    · next hle =>
      have hread := hcase.resolve_left hle
      have hlen : e.rawbytes.length = e.rawsize := by
        unfold Elf.rawbytes Elf.rawsize
        cases e.eRawfile <;> rfl
      rw [Elf.read, readAt_of_le _ (hlen ▸ hread), bind_ok]
      exact ⟨_, rfl⟩

theorem prepareEhdr_version {h h' : Ehdr} (hv : e.eVersion = evCurrent) (hx : prepareEhdr ec h e = .ok h' e') :
    (if h.eVersion.toNat = 0 then evCurrent else h.eVersion.toNat) = evCurrent := by
  unfold prepareEhdr at hx
  generalize (if h.eVersion.toNat = 0 then evCurrent else h.eVersion.toNat) = version at hx ⊢
  dsimp only at hx
  split at hx
  · cases hx
  split at hx
  · cases hx
  next hver => exact (Decidable.not_not.mp hver).trans hv

theorem needSectionHeaders_loaded {h : Ehdr} (hx : needSectionHeaders env ec h e = .ok () e') :
    e'.eCmd ≠ .write → e'.eFlags.shdrsLoaded = true := by
  intro hcmd
  obtain ⟨l, f, hshape, -⟩ := needSectionHeaders_ok hx
  unfold needSectionHeaders at hx
  split at hx
  · unfold loadSectionHeaders at hx
    split at hx
    · cases hx
    dsimp only at hx
    split at hx
    · cases hx
    obtain ⟨_, e₁, -, hrest⟩ := bind_eq_ok.mp hx
    cases hrest
    rfl
  · next hnot =>
    cases hx
    by_contra hfalse
    exact hnot ⟨hcmd, by simpa using hfalse⟩

/-- A table that could not be read in is out of the file. -/
theorem getphdr_refused {h : Ehdr} (hc : e.eClass = some ec) (hv : e.eVersion = evCurrent) (hh : e.eEhdr = some h)
    (hx : (getphdr env ec e).ignore = .ok () e') (hnone : e'.ePhdr = none) : e' = e ∧
      libelfFsize .phdr ec e.eNphdr ≠ 0 ∧ e.rawsize < wrap (ec.get h.ePhoff + libelfFsize .phdr ec e.eNphdr) := by
  unfold getphdr at hx
  split at hx
  · next ps hps =>
    cases hx
    rw [hps] at hnone
    cases hnone
  · rw [libelfEhdr_cached hc hv hh, bind_ok] at hx
    dsimp only at hx
    split at hx
    · cases hx
    next hne =>
    split at hx
    · next hlt =>
      cases hx
      exact ⟨rfl, hne, hlt⟩
    · unfold Elf.read readAt at hx
      split at hx
      · cases hx
        cases hnone
      · cases hx

/-- The state in which the sections are laid out, and why its program header table is missing if it is. -/
theorem readIn_headers {h : Ehdr} (hx : readIn env ec e = .ok h e') : HeadersIn ec h e' ∧
    (e'.eNphdr ≠ 0 → e'.ePhdr = none → libelfFsize .phdr ec e'.eNphdr ≠ 0 ∧
      e'.rawsize < wrap (ec.get h.ePhoff + libelfFsize .phdr ec e'.eNphdr)) := by
  obtain ⟨hc, hv, hh, -⟩ := readIn_ok hx
  obtain ⟨h₀, e₁, hehdr, hx⟩ := bind_eq_ok.mp hx
  obtain ⟨hc₁, hv₁, -⟩ := libelfEhdr_ok hehdr
  obtain ⟨h₁, e₂, hprep, hx⟩ := bind_eq_ok.mp hx
  have hver := prepareEhdr_version hv₁ hprep
  obtain ⟨-, -, rfl, rfl⟩ := prepareEhdr_ok hprep
  obtain ⟨_, e₃, hphdr, hx⟩ := bind_eq_ok.mp hx
  obtain ⟨_, e₄, hscn, hx⟩ := bind_eq_ok.mp hx
  cases hx
  have hloaded := needSectionHeaders_loaded hscn
  obtain ⟨l, f, rfl, -, hdirty, -⟩ := needSectionHeaders_ok hscn
  have hrefused : e₃.eNphdr ≠ 0 → e₃.ePhdr = none → libelfFsize .phdr ec e₃.eNphdr ≠ 0 ∧
      e₃.rawsize < wrap (ec.get (initializeEhdr ec e₁.eNphdr h₀).ePhoff + libelfFsize .phdr ec e₃.eNphdr) := by
    intro hp hnone
    obtain ⟨ps, hps⟩ := readPhdr_ok (by exact hc₁) (by exact hv₁) (by rfl) hphdr
    rw [if_neg (by rw [hps] at hp; exact hp)] at hphdr
    obtain ⟨rfl, hne, hlt⟩ := getphdr_refused (by exact hc₁) (by exact hv₁) (by rfl) hphdr hnone
    exact ⟨hne, hlt⟩
  obtain ⟨ps, rfl⟩ := readPhdr_ok (by exact hc₁) (by exact hv₁) (by rfl) hphdr
  refine ⟨⟨hc, hv, hh, hdirty, ?_, hver, initializeEhdr_again _ _, hloaded⟩, hrefused⟩
  change h₀.eIdent[5] = (initializeEhdr ec e₁.eNphdr h₀).eIdent[5]
  simp only [initializeEhdr, Vector.getElem_set]
  rfl

end Headers

/-! ## The whole object -/

section Object

variable {env : Env} {e e' : Elf} {ec : ElfClass}

theorem HeadersIn.prepareEhdr {h : Ehdr} (hin : HeadersIn ec h e) (hph : ec.get h.ePhoff < 2 ^ 63)
    (hsh : ec.get h.eShoff < 2 ^ 63) : prepareEhdr ec h e = .ok h e := by
  have hident : h.eIdent[4] = ec.toByte := by
    rw [← hin.fixed]
    simp only [initializeEhdr, Vector.getElem_set]
    rfl
  have hneg : ¬ (isNeg (ec.get h.ePhoff) = true ∨ isNeg (ec.get h.eShoff) = true) := by
    rw [isNeg_eq_true, isNeg_eq_true, not_or]
    exact ⟨Nat.not_le.mpr hph, Nat.not_le.mpr hsh⟩
  unfold Toolchain.prepareEhdr
  dsimp only
  rw [if_neg hneg, hin.version, hin.eVersion, if_neg (not_not.mpr rfl), if_neg (not_not.mpr hident),
    if_neg fun hx => hx.2 hin.byteorder.symm]
  -- nothing is left to store
  have hstore : ((e.setByteorder h.eIdent[5]).setEhdr (initializeEhdr ec e.eNphdr h)).setFlags
      { e.eFlags with dirty := true } = e := by
    rw [hin.fixed, ← hin.byteorder]
    have hdirty := hin.dirty
    have hehdr := hin.eEhdr
    cases e with
    | mk byteorder cls cmd fd flags rawfile version ehdr phdr scn nphdr nscn strndx =>
      cases flags
      cases hdirty
      cases hehdr
      rfl
  exact congrArg₂ ok hin.fixed hstore

/-- Section headers that are there are not loaded. -/
theorem needSectionHeaders_again {h : Ehdr} (hloaded : e.eCmd ≠ .write → e.eFlags.shdrsLoaded = true) :
    needSectionHeaders env ec h e = .ok () e := by
  refine if_neg fun hload => ?_
  rw [hloaded hload.1] at hload
  exact Bool.noConfusion hload.2

/-- Nothing but the program header table is read in again. -/
theorem HeadersIn.readIn_eq {h h' : Ehdr} {start : Elf} (hin : HeadersIn ec h e)
    (hx : readIn env ec e = .ok h' start) : h' = h ∧ ∃ ps, start = e.setPhdr ps := by
  obtain ⟨h₀, e₁, hehdr, hx⟩ := bind_eq_ok.mp hx
  rw [libelfEhdr_cached hin.eClass hin.eVersion hin.eEhdr] at hehdr
  cases hehdr
  obtain ⟨h₁, e₂, hprep, hx⟩ := bind_eq_ok.mp hx
  obtain ⟨hph, hsh, -, -⟩ := prepareEhdr_ok hprep
  rw [hin.prepareEhdr hph hsh] at hprep
  cases hprep
  obtain ⟨_, e₃, hphdr, hx⟩ := bind_eq_ok.mp hx
  obtain ⟨_, e₄, hneed, hx⟩ := bind_eq_ok.mp hx
  cases hx
  obtain ⟨ps, rfl⟩ := readPhdr_ok hin.eClass hin.eVersion hin.eEhdr hphdr
  rw [needSectionHeaders_again (by exact hin.loaded)] at hneed
  cases hneed
  exact ⟨rfl, ps, rfl⟩

/-- The table of the program headers, placed again. -/
theorem PhdrPlaced.layoutPhdr {layout : Bool} {phoff phoff' p off rc₁ : Nat} {exs₁ : List Extent}
    (hp : PhdrPlaced ec layout phoff p off rc₁ exs₁) (hlay : e.eFlags.layout = layout)
    (hoff : layout = true → phoff' = phoff) {ps : Option (List Phdr)}
    (hget : (if p = 0 then .ok () e else (getphdr env ec e).ignore) = .ok () (e.setPhdr ps)) :
    layoutPhdr env ec phoff' (fsize .ehdr ec) p [ehdrExtent ec] e = .ok (off, rc₁, exs₁) (e.setPhdr ps) := by
  unfold Toolchain.layoutPhdr
  cases hp with
  | absent hzero =>
    rw [if_pos hzero] at hget ⊢
    exact congrArg (ok _) (by injection hget)
  | @present off exs hne heq hok hins =>
    rw [if_neg hne] at hget ⊢
    have hcheck : ¬ (e.eFlags.layout = true ∧ (phoff' < fsize .ehdr ec ∨ phoff' % falign (some .phdr) ec ≠ 0)) := by
      rintro ⟨htrue, hor⟩
      rw [hlay] at htrue
      rw [hoff htrue] at hor
      obtain ⟨hle, hdvd⟩ := hok htrue
      rcases hor with hlt | hmod
      · exact Nat.not_lt.mpr hle hlt
      · exact hmod (Nat.mod_eq_zero_of_dvd hdvd)
    have hplace : (if e.eFlags.layout then phoff' else roundUp (fsize .ehdr ec) (falign (some .phdr) ec)) = off := by
      rw [hlay, heq]
      cases layout with
      | true => exact hoff rfl
      | false => rfl
    dsimp only
    rw [if_neg hcheck, hplace, hget, bind_ok, hins]

/-- The table of the section headers, placed again. -/
theorem ShdrPlaced.layoutShdr {layout : Bool} {shoff shoff' n rc off rc₁ : Nat} {exs exs₁ : List Extent}
    (hp : ShdrPlaced ec layout shoff n rc exs off rc₁ exs₁) (hlay : e.eFlags.layout = layout)
    (hoff : layout = true → shoff' = shoff) :
    layoutShdr ec shoff' rc n exs e = .ok (off, rc₁, exs₁) e := by
  unfold Toolchain.layoutShdr
  cases hp with
  | absent hzero => rw [if_pos hzero]
  | @present off exs' hne heq hok hins =>
    have hcheck : ¬ (e.eFlags.layout = true ∧ shoff' % falign (some .shdr) ec ≠ 0) := by
      rintro ⟨htrue, hmod⟩
      rw [hlay] at htrue
      rw [hoff htrue] at hmod
      exact hmod (Nat.mod_eq_zero_of_dvd (hok htrue))
    have hplace : (if e.eFlags.layout then shoff' else roundUpSigned rc (falign (some .shdr) ec)) = off := by
      rw [hlay, heq]
      cases layout with
      | true => exact hoff rfl
      | false => rfl
    dsimp only
    rw [if_neg hne, if_neg hcheck, hplace, hins]

theorem setScn0_eq {upd : Shdr → Shdr} (hndx : ∀ s, e.eScn.head? = some s → s.sNdx = 0) :
    setScn0 upd e = .ok () (e.setScn (putScn0 upd e.eScn)) := by
  unfold setScn0 getscn0
  cases hscn : e.eScn with
  | nil => rfl
  | cons s ss =>
    dsimp only
    rw [hscn]
    dsimp only
    rw [if_neg (not_not.mpr (hndx s (by rw [hscn]; rfl)))]
    rfl

theorem setphnum_eq {p : Nat} {h : Ehdr} (hh : e.eEhdr = some h)
    (hndx : pnXnum ≤ p → ∀ s, e.eScn.head? = some s → s.sNdx = 0) :
    setphnum p e = .ok () ((e.setScn (if pnXnum ≤ p then putScn0 (fun s => { s with shInfo := UInt32.ofNat p }) e.eScn
      else e.eScn)).setEhdr { h with ePhnum := UInt16.ofNat (if pnXnum ≤ p then pnXnum else p) }) := by
  unfold setphnum
  split
  · next hle => rw [setScn0_eq (hndx hle), bind_ok, updEhdr, Elf.setScn_eEhdr, hh]
  · rw [updEhdr, hh]
    rfl

theorem setshnum_eq {n : Nat} {h : Ehdr} (hh : e.eEhdr = some h)
    (hndx : shnLoreserve ≤ n → ∀ s, e.eScn.head? = some s → s.sNdx = 0) :
    setshnum ec n e = .ok () ((e.setScn (if shnLoreserve ≤ n then putScn0 (fun s => { s with shSize := ec.put n }) e.eScn
      else e.eScn)).setEhdr { h with eShnum := if shnLoreserve ≤ n then 0 else UInt16.ofNat n }) := by
  unfold setshnum
  split
  · next hle => rw [setScn0_eq (hndx hle), bind_ok, updEhdr, Elf.setScn_eEhdr, hh]
  · rw [updEhdr, hh]
    rfl

theorem setEhdr_self {h : Ehdr} (hh : e.eEhdr = some h) : e.setEhdr h = e := by
  cases e
  cases hh
  rfl

/-- The counts are stored if the first section is section 0. -/
theorem setcounts_eq {p n : Nat} {h : Ehdr} (hh : e.eEhdr = some h)
    (hndx : pnXnum ≤ p ∨ shnLoreserve ≤ n → ∀ s, e.eScn.head? = some s → s.sNdx = 0) :
    ∃ e₁, setphnum p e = .ok () e₁ ∧
      setshnum ec n e₁ = .ok () ((e.setScn (numberScns ec p n e.eScn)).setEhdr (numberEhdr p n h)) := by
  have hput : ∀ {l : List Scn} (upd : Shdr → Shdr), (∀ s, l.head? = some s → s.sNdx = 0) →
      ∀ s, (putScn0 upd l).head? = some s → s.sNdx = 0 := by
    intro l upd hl s hs
    cases l with
    | nil =>
      cases hs
      rfl
    | cons t ts =>
      cases hs
      exact hl t rfl
  have hsnd : ∀ {l : List Scn}, (if pnXnum ≤ p then putScn0 (fun s => { s with shInfo := UInt32.ofNat p }) e.eScn
      else e.eScn) = l → shnLoreserve ≤ n → ∀ s, l.head? = some s → s.sNdx = 0 := by
    rintro l rfl hle
    split
    · exact hput _ (hndx (.inr hle))
    · exact hndx (.inr hle)
  refine ⟨_, setphnum_eq hh fun hle => hndx (.inl hle), ?_⟩
  rw [setshnum_eq (by rfl) (hsnd (by rfl))]
  rfl

section Run

variable {rc : Nat} {exs : List Extent} (r : LayoutRun env ec e rc exs e')

def LayoutRun.ehdr' (r : LayoutRun env ec e rc exs e') : Ehdr :=
  placeEhdr ec r.start.eFlags.layout r.phoff r.shoff (numberEhdr r.start.eNphdr r.start.eNscn r.ehdr)

/-- The header is ready for the next layout. -/
theorem LayoutRun.headersIn : HeadersIn ec r.ehdr' e' := by
  have hin := (readIn_headers r.read).1
  have hfixed : initializeEhdr ec r.start.eNphdr r.ehdr' = r.ehdr' := by
    unfold LayoutRun.ehdr'
    cases r.start.eFlags.layout with
    | true => exact congrArg (numberEhdr r.start.eNphdr r.start.eNscn) hin.fixed
    | false =>
      exact congrArg (fun h => placeEhdr ec false r.phoff r.shoff (numberEhdr r.start.eNphdr r.start.eNscn h)) hin.fixed
  have hkept : r.ehdr'.eIdent = r.ehdr.eIdent ∧ r.ehdr'.eVersion = r.ehdr.eVersion := by
    unfold LayoutRun.ehdr'
    cases r.start.eFlags.layout with
    | true => exact ⟨rfl, rfl⟩
    | false => exact ⟨rfl, rfl⟩
  have hready : ∀ x, x = (r.start.setScn (numberScns ec r.start.eNphdr r.start.eNscn r.scns)).setEhdr r.ehdr' →
      HeadersIn ec r.ehdr' x := by
    rintro x rfl
    refine ⟨hin.eClass, hin.eVersion, rfl, hin.dirty, ?_, ?_, hfixed, hin.loaded⟩
    · rw [hkept.1]
      exact hin.byteorder
    · rw [hkept.2]
      exact hin.version
  exact hready e' r.final

theorem LayoutRun.offsets_layout (hlay : r.start.eFlags.layout = true) :
    r.ehdr'.ePhoff = r.ehdr.ePhoff ∧ r.ehdr'.eShoff = r.ehdr.eShoff := by
  unfold LayoutRun.ehdr'
  rw [hlay]
  exact ⟨rfl, rfl⟩

theorem LayoutRun.offsets_library (hlay : r.start.eFlags.layout = false) :
    r.ehdr'.ePhoff = ec.put r.phoff ∧ r.ehdr'.eShoff = ec.put r.shoff := by
  unfold LayoutRun.ehdr'
  rw [hlay]
  exact ⟨rfl, rfl⟩

theorem PhdrPlaced.off_le {phoff p off rc : Nat} {exs : List Extent} (h : PhdrPlaced ec false phoff p off rc exs) :
    off ≤ fsize .ehdr ec := by
  by_cases hp : p = 0
  · cases h with
    | absent => exact Nat.zero_le _
    | present hne => exact absurd hp hne
  · exact Nat.le_of_eq (h.off_library hp).1

theorem LayoutRun.ePhoff_library (hlay : r.start.eFlags.layout = false) (hp : r.start.eNphdr ≠ 0) :
    ec.get r.ehdr'.ePhoff = fsize .ehdr ec := by
  have hphdr : PhdrPlaced ec false (ec.get r.ehdr.ePhoff) r.start.eNphdr r.phoff r.rc₁ r.exs₁ := hlay ▸ r.phdr
  rw [(r.offsets_library hlay).1, ElfClass.get_put, (hphdr.off_library hp).1, Nat.mod_eq_of_lt (fsize_ehdr_lt ec)]

/-- The program header table is at a place that is not negative. -/
theorem LayoutRun.ePhoff_lt : ec.get r.ehdr'.ePhoff < 2 ^ 63 := by
  cases hlay : r.start.eFlags.layout with
  | true =>
    obtain ⟨-, -, -, -, hph, -⟩ := readIn_ok r.read
    rw [(r.offsets_layout hlay).1]
    exact hph
  | false =>
    have hle : r.phoff ≤ fsize .ehdr ec := PhdrPlaced.off_le (hlay ▸ r.phdr)
    have hsmall : fsize .ehdr ec ≤ 64 := fsize_ehdr_le ec
    rw [(r.offsets_library hlay).1, ElfClass.get_put]
    exact Nat.lt_of_le_of_lt (Nat.mod_le _ _) (by omega)

/-- If the next layout reads the headers in, it did not mind where it found the program header table. -/
theorem HeadersIn.phdrIgnored {h h' : Ehdr} {start : Elf} (hin : HeadersIn ec h e) (hx : readIn env ec e = .ok h' start) :
    PhdrIgnored ec (ec.get h.ePhoff) e := by
  intro hp hnone
  obtain ⟨h₀, e₁, hehdr, hx⟩ := bind_eq_ok.mp hx
  rw [libelfEhdr_cached hin.eClass hin.eVersion hin.eEhdr] at hehdr
  cases hehdr
  obtain ⟨h₁, e₂, hprep, hx⟩ := bind_eq_ok.mp hx
  obtain ⟨hph, hsh, -, -⟩ := prepareEhdr_ok hprep
  rw [hin.prepareEhdr hph hsh] at hprep
  cases hprep
  obtain ⟨_, e₃, hphdr, -⟩ := bind_eq_ok.mp hx
  rw [if_neg hp] at hphdr
  unfold getphdr at hphdr
  split at hphdr
  · next ps hps =>
    rw [hnone] at hps
    cases hps
  rw [libelfEhdr_cached hin.eClass hin.eVersion hin.eEhdr, bind_ok] at hphdr
  dsimp only at hphdr
  split at hphdr
  · cases hphdr
  next hne =>
  refine ⟨hne, ?_⟩
  split at hphdr
  · next hlt => exact .inl hlt
  unfold Elf.read readAt at hphdr
  split at hphdr
  · next hin =>
    have hlen : e.rawbytes.length = e.rawsize := by
      unfold Elf.rawbytes Elf.rawsize
      cases e.eRawfile <;> rfl
    rw [hlen] at hin
    exact .inr (hin.resolve_left (Nat.mul_ne_zero hp (Nat.ne_of_gt (fsize_phdr_pos ec))))
  · cases hphdr

/-- What the state that a layout starts from, with the headers read in, must be for the next layout to come to the
same. -/
structure LaysOutAgain (start : Elf) (ec : ElfClass) : Prop where
  scn0 : pnXnum ≤ start.eNphdr ∨ shnLoreserve ≤ start.eNscn → ∀ s, start.eScn.head? = some s → s.isSkipped = false →
    TakesCount start ec start.eNscn s
  phdr : start.eFlags.layout = false → start.eNphdr ≠ 0 → start.ePhdr = none →
    start.rawsize < wrap (headersEnd ec start.eNphdr) ∨ headersEnd ec start.eNphdr ≤ start.rawsize
  shdr : ec = .elfclass64 → start.eFlags.layout = false → start.eNscn ≠ 0 →
    rcAt start ec (wrap (headersEnd ec start.eNphdr)) start.eScn ≤ 2 ^ 63 - 8

theorem wrap_headersEnd (p : Nat) : wrap (fsize .ehdr ec + libelfFsize .phdr ec p) = wrap (headersEnd ec p) := by
  rw [libelfFsize, headersEnd, wrap, wrap, wrap, Nat.add_mod_mod, Nat.mul_comm]

/-- The end of the headers under library layout. -/
theorem PhdrPlaced.rc_library {phoff p off rc : Nat} {exs : List Extent} (h : PhdrPlaced ec false phoff p off rc exs) :
    rc = wrap (headersEnd ec p) := by
  by_cases hp : p = 0
  · subst hp
    cases h with
    | absent =>
      rw [headersEnd, Nat.zero_mul, Nat.add_zero]
      exact (wrap_of_lt (Nat.lt_of_le_of_lt (fsize_ehdr_le ec) (by decide))).symm
    | present hne => exact absurd rfl hne
  · rw [(h.off_library hp).2, wrap_headersEnd]

theorem ShdrPlaced.off_zero {layout : Bool} {shoff n rc off rc' : Nat} {exs exs' : List Extent}
    (h : ShdrPlaced ec layout shoff n rc exs off rc' exs') (hn : n = 0) : off = 0 := by
  cases h with
  | absent => rfl
  | present hne => exact absurd hn hne

/-- The next layout does not mind either where it finds the program header table. -/
theorem LayoutRun.phdrIgnored (hfit : r.start.eFlags.layout = false → r.start.eNphdr ≠ 0 → r.start.ePhdr = none →
      r.start.rawsize < wrap (headersEnd ec r.start.eNphdr) ∨ headersEnd ec r.start.eNphdr ≤ r.start.rawsize) :
    PhdrIgnored ec (ec.get r.ehdr'.ePhoff) r.start := by
  intro hp hnone
  obtain ⟨hne, hlt⟩ := (readIn_headers r.read).2 hp hnone
  refine ⟨hne, ?_⟩
  cases hlay : r.start.eFlags.layout with
  | true =>
    rw [(r.offsets_layout hlay).1]
    exact .inl hlt
  | false =>
    rw [r.ePhoff_library hlay hp, wrap_headersEnd]
    exact hfit hlay hp hnone

/-- The sections that a layout leaves are laid out to what they are. -/
theorem LayoutRun.resync_again (hcounts : CountsApart r.start.eNphdr r.start.eNscn r.start.eScn) {e₂ : Elf}
    (hrules : SameRules r.start e₂) :
    resyncSections env e₂ ec 0 r.rc₁ r.exs₁ e'.eScn = .ok (r.rc₂, r.exs₂) e'.eScn := by
  have hall := resyncSections_numberScns (r.sections.countsApart hcounts) (r.sections.again hrules)
  rwa [← r.eScn] at hall

/-- The sections that a layout leaves, laid out again, are the same once the counts are stored. -/
theorem LayoutRun.resync_numbered (hkeep : LaysOutAgain r.start ec) {e₂ : Elf} (hrules : SameRules r.start e₂) :
    ∃ l, resyncSections env e₂ ec 0 r.rc₁ r.exs₁ e'.eScn = .ok (r.rc₂, r.exs₂) l ∧
      numberScns ec r.start.eNphdr r.start.eNscn l = e'.eScn := by
  by_cases hcounts : CountsApart r.start.eNphdr r.start.eNscn r.start.eScn
  · refine ⟨_, r.resync_again hcounts hrules, ?_⟩
    rw [r.eScn, numberScns_numberScns]
  · rw [CountsApart, not_or] at hcounts
    obtain ⟨hsmall, hhead⟩ := hcounts
    push Not at hhead
    obtain ⟨s, hs, hskip⟩ := hhead
    have hcount : pnXnum ≤ r.start.eNphdr ∨ shnLoreserve ≤ r.start.eNscn := by omega
    have hsections := r.sections
    obtain ⟨ss, hscn⟩ := List.head?_eq_some_iff.mp hs
    rw [hscn] at hsections
    have hkept : s.isSkipped = false := by simpa using hskip
    rw [r.eScn]
    exact hsections.counted_again hrules hcount hkept (hkeep.scn0 hcount s hs hkept)

/-- A layout of what a layout has left. -/
theorem LayoutRun.again (hkeep : LaysOutAgain r.start ec) (hsh : ec.get r.ehdr'.eShoff < 2 ^ 63)
    (hndx : pnXnum ≤ r.start.eNphdr ∨ shnLoreserve ≤ r.start.eNscn → ∀ s, e'.eScn.head? = some s → s.sNdx = 0) :
    ∃ ps, resyncElf env ec e' = .ok (rc, exs) (e'.setPhdr ps) := by
  have hin := r.headersIn
  have hp : e'.eNphdr = r.start.eNphdr := r.eNphdr
  have hn : e'.eNscn = r.start.eNscn := r.eNscn
  have hlay : e'.eFlags.layout = r.start.eFlags.layout := congrArg (fun x => x.eFlags.layout) r.final
  have hL : e'.eScn = numberScns ec r.start.eNphdr r.start.eNscn r.scns := r.eScn
  have hrules : ∀ ps, SameRules r.start (e'.setPhdr ps) := fun ps => ⟨r.eCmd, r.eVersion, hlay⟩
  -- the program headers
  have hign : PhdrIgnored ec (ec.get r.ehdr'.ePhoff) e' := by
    have hkept : e'.ePhdr = r.start.ePhdr ∧ e'.rawsize = r.start.rawsize :=
      ⟨(congrArg Elf.ePhdr r.final).trans rfl, (congrArg Elf.rawsize r.final).trans rfl⟩
    intro hne hnone
    rw [hp] at hne ⊢
    rw [hkept.1] at hnone
    rw [hkept.2]
    exact r.phdrIgnored hkeep.phdr hne hnone
  obtain ⟨ps, hget⟩ : ∃ ps, (if r.start.eNphdr = 0 then .ok () e' else (getphdr env ec e').ignore) =
      .ok () (e'.setPhdr ps) := by
    split
    · exact ⟨e'.ePhdr, rfl⟩
    · next hne => exact getphdr_ignored hin.eClass hin.eVersion hin.eEhdr (hp ▸ hne) hign
  have hphdr : layoutPhdr env ec (ec.get r.ehdr'.ePhoff) (fsize .ehdr ec) r.start.eNphdr [ehdrExtent ec] e' =
      .ok (r.phoff, r.rc₁, r.exs₁) (e'.setPhdr ps) :=
    r.phdr.layoutPhdr hlay (fun h => by rw [(r.offsets_layout h).1]) hget
  -- the sections
  have hneed : needSectionHeaders env ec r.ehdr' (e'.setPhdr ps) = .ok () (e'.setPhdr ps) :=
    needSectionHeaders_again (by exact hin.loaded)
  obtain ⟨l, hsections, hl⟩ := r.resync_numbered hkeep (hrules ps)
  have hshdr : layoutShdr ec (ec.get r.ehdr'.eShoff) r.rc₂ r.start.eNscn r.exs₂ ((e'.setPhdr ps).setScn l) =
      .ok (r.shoff, rc, exs) ((e'.setPhdr ps).setScn l) :=
    r.shdr.layoutShdr hlay fun h => by rw [(r.offsets_layout h).2]
  -- the counts
  have hnumbered : numberEhdr r.start.eNphdr r.start.eNscn r.ehdr' = r.ehdr' := by
    unfold LayoutRun.ehdr'
    cases r.start.eFlags.layout with
    | true => rfl
    | false => rfl
  have hfirst : pnXnum ≤ r.start.eNphdr ∨ shnLoreserve ≤ r.start.eNscn → ∀ s, l.head? = some s → s.sNdx = 0 := by
    intro hcount s hs
    obtain ⟨ss, rfl⟩ := List.head?_eq_some_iff.mp hs
    rw [numberScns_cons hcount] at hl
    have hcounted := hndx hcount (s.counted ec r.start.eNphdr r.start.eNscn) (by rw [← hl, List.head?_cons])
    cases hs
    exact hcounted
  obtain ⟨e₁, hpn, hsn⟩ := @setcounts_eq ((e'.setPhdr ps).setScn l) ec r.start.eNphdr r.start.eNscn r.ehdr' hin.eEhdr
    hfirst
  have hstored : (((e'.setPhdr ps).setScn l).setScn (numberScns ec r.start.eNphdr r.start.eNscn
      ((e'.setPhdr ps).setScn l).eScn)).setEhdr (numberEhdr r.start.eNphdr r.start.eNscn r.ehdr') = e'.setPhdr ps := by
    rw [Elf.setScn_eScn, hl, hnumbered]
    exact setEhdr_self (by exact hin.eEhdr)
  rw [hstored] at hsn
  refine ⟨ps, ?_⟩
  unfold resyncElf
  rw [libelfEhdr_cached hin.eClass hin.eVersion hin.eEhdr, bind_ok, hin.prepareEhdr r.ePhoff_lt hsh, bind_ok]
  dsimp only
  rw [hp, hn]
  rw [show [(⟨0, fsize .ehdr ec, .ehdr, 0⟩ : Extent)] = [ehdrExtent ec] from rfl, hphdr, bind_ok]
  dsimp only
  rw [hneed, bind_ok, Elf.setPhdr_eScn, hsections, within_ok, bind_ok]
  dsimp only
  rw [if_neg (by rw [isNeg_eq_true]; exact Nat.not_le.mpr r.nonneg), hshdr, bind_ok]
  dsimp only
  rw [hpn, bind_ok, hsn, bind_ok]
  split
  · rfl
  · next hlib =>
    have hlib : r.start.eFlags.layout = false := by
      rw [← hlay]
      exact Bool.eq_false_iff.mpr hlib
    obtain ⟨hph, hsh⟩ := r.offsets_library hlib
    rw [updEhdr, show (e'.setPhdr ps).eEhdr = some r.ehdr' from hin.eEhdr]
    dsimp only
    rw [← hph, ← hsh]
    exact congrArg (ok _) (setEhdr_self (by exact hin.eEhdr))

/-- The section header table of a first layout is at a place that a second one takes. -/
theorem LayoutRun.eShoff_lt_iff : ec.get r.ehdr'.eShoff < 2 ^ 63 ↔
    (ec = .elfclass64 → r.start.eFlags.layout = false → r.start.eNscn ≠ 0 →
      rcAt r.start ec (wrap (headersEnd ec r.start.eNphdr)) r.start.eScn ≤ 2 ^ 63 - 8) := by
  cases hlay : r.start.eFlags.layout with
  | true =>
    obtain ⟨-, -, -, -, -, hsh⟩ := readIn_ok r.read
    rw [(r.offsets_layout hlay).2]
    exact iff_of_true hsh nofun
  | false =>
    have hnonneg := r.nonneg
    have hphdr : PhdrPlaced ec false (ec.get r.ehdr.ePhoff) r.start.eNphdr r.phoff r.rc₁ r.exs₁ := hlay ▸ r.phdr
    rw [← hphdr.rc_library, ← r.sections.spec.1, (r.offsets_library hlay).2, ElfClass.get_put]
    cases ec with
    | elfclass32 => exact iff_of_true (Nat.lt_of_lt_of_le (Nat.mod_lt _ (by decide)) (by decide)) nofun
    | elfclass64 =>
      have hwidth : ElfClass.elfclass64.width = 64 := rfl
      rw [hwidth]
      by_cases hn : r.start.eNscn = 0
      · rw [r.shdr.off_zero hn]
        exact iff_of_true (by decide) fun _ _ hne => absurd hn hne
      · have hoff : r.shoff = roundUpSigned r.rc₂ 8 := by
          rw [(r.shdr.off_eq hn).1, hlay, if_neg Bool.false_ne_true]
          rfl
        rw [hoff]
        constructor
        · intro hlt _ _ _
          by_contra hbig
          have hneg := @roundUpSigned_neg r.rc₂ 8 hnonneg (by decide) (by omega)
          omega
        · intro hle
          have hle := hle rfl rfl hn
          rw [roundUpSigned_eq_ceilTo (by omega), ceilTo]
          omega

end Run

/-- A layout of a descriptor whose header offers a table at a negative place is refused. -/
theorem prepareEhdr_negative {h : Ehdr} (hneg : 2 ^ 63 ≤ ec.get h.eShoff) : prepareEhdr ec h e = .err .HEADER e :=
  if_pos (.inr (isNeg_eq_true.mpr hneg))

theorem elfUpdate_null_eq {n : Nat} {exs : List Extent} (hc : e.eClass = some ec) (hv : e.eVersion = evCurrent)
    (hn : n < 2 ^ 63) (hx : resyncElf env ec e = .ok (n, exs) e') : elfUpdate env .null e = .ok n e' := by
  have hneg : ¬ isNeg n = true := by
    rw [isNeg_eq_true]
    exact Nat.not_le.mpr hn
  unfold elfUpdate
  rw [hc]
  dsimp only
  rw [hv, if_neg nofun, if_neg nofun, hx, bind_ok]
  dsimp only
  rw [if_neg hneg, if_pos rfl]

/-- A second layout gives the size of the first and leaves the executable header and the list of the sections as
they are, exactly when the state that the first one starts from lays out again. -/
theorem layout_idempotent_iff {n : Nat} (hc : e.eClass = some ec) (h : elfUpdate env .null e = .ok n e') {ehdr : Ehdr}
    {start : Elf} (hread : readIn env ec (currentVersion e) = .ok ehdr start) :
    (∃ e'', elfUpdate env .null e' = .ok n e'' ∧ e''.eEhdr = e'.eEhdr ∧ e''.eScn = e'.eScn) ↔
      LaysOutAgain start ec := by
  obtain ⟨exs, hx, hn⟩ := elfUpdate_null_ok hc h
  obtain ⟨r, hndx⟩ := resyncElf_counted hx
  have hstart : r.ehdr = ehdr ∧ r.start = start := by
    have heq := r.read.symm.trans hread
    injection heq with hh hs
    exact ⟨hh, hs⟩
  obtain ⟨-, rfl⟩ := hstart
  have hin := r.headersIn
  constructor
  · rintro ⟨e'', hagain, -, hscn⟩
    obtain ⟨exs', hx', -⟩ := elfUpdate_null_ok hin.eClass hagain
    have hcur : currentVersion e' = e' := if_neg (by rw [hin.eVersion]; nofun)
    rw [hcur] at hx'
    obtain ⟨r'⟩ := resyncElf_ok hx'
    obtain ⟨-, ps, hstart'⟩ := hin.readIn_eq r'.read
    have hlay : e'.eFlags.layout = r.start.eFlags.layout := congrArg (fun x => x.eFlags.layout) r.final
    have hkept : e'.ePhdr = r.start.ePhdr ∧ e'.rawsize = r.start.rawsize :=
      ⟨(congrArg Elf.ePhdr r.final).trans rfl, (congrArg Elf.rawsize r.final).trans rfl⟩
    refine ⟨fun hcount s hs hkeep => ?_, fun hlib hp hnone => ?_, r.eShoff_lt_iff.mp ?_⟩
    · -- section 0
      have hrules : SameRules r.start r'.start := by
        rw [hstart']
        exact ⟨r.eCmd, r.eVersion, hlay⟩
      obtain ⟨ss, hss⟩ := List.head?_eq_some_iff.mp hs
      have hsections := r.sections
      rw [hss] at hsections
      have hsections' := r'.sections
      have hlist : r'.start.eScn = e'.eScn := by rw [hstart', Elf.setPhdr_eScn]
      have hcounts : r'.start.eNphdr = r.start.eNphdr ∧ r'.start.eNscn = r.start.eNscn := by
        rw [hstart']
        exact ⟨r.eNphdr, r.eNscn⟩
      rw [hlist, r.eScn] at hsections'
      refine hsections.takesCount hrules hcount hsections' hkeep ?_
      rw [← r.eScn, ← hscn, r'.eScn, hcounts.1, hcounts.2]
    · -- the program headers
      have hign := hin.phdrIgnored r'.read
      rw [PhdrIgnored, r.eNphdr, hkept.1, hkept.2, r.ePhoff_library hlib hp, wrap_headersEnd] at hign
      exact (hign hp hnone).2
    · by_contra hneg
      rw [resyncElf, libelfEhdr_cached hin.eClass hin.eVersion hin.eEhdr, bind_ok,
        prepareEhdr_negative (Nat.le_of_not_lt hneg), bind_err] at hx'
      cases hx'
  · intro hkeep
    obtain ⟨ps, hagain⟩ := r.again hkeep (r.eShoff_lt_iff.mpr hkeep.shdr) hndx
    exact ⟨_, elfUpdate_null_eq hin.eClass hin.eVersion hn hagain, rfl, rfl⟩

/-- After two layouts of a file with one section. -/
theorem sectionOps_idempotent : ∃ e₀ e e' e'' n, openObject plainEnv .write noImage = .ok (some e₀) ∧
    runOps (Op.step plainEnv) e₀ (sectionOps 1) = .ok e ∧ elfUpdate plainEnv .null e = .ok n e' ∧
    elfUpdate plainEnv .null e' = .ok n e'' ∧ e''.eEhdr = e'.eEhdr ∧ e''.eScn = e'.eScn := by
  have hall : ∃ e₀ e, openObject plainEnv .write noImage = .ok (some e₀) ∧
      runOps (Op.step plainEnv) e₀ (sectionOps 1) = .ok e ∧ e.eClass = some .elfclass64 ∧
      (elfUpdate plainEnv .null e).returns (fun _ _ => true) = true ∧
      (readIn plainEnv .elfclass64 (currentVersion e)).returns (fun _ start =>
        decide (start.eNphdr = 0 ∧ start.eNscn < shnLoreserve ∧
          rcAt start .elfclass64 (wrap (headersEnd .elfclass64 start.eNphdr)) start.eScn ≤ 2 ^ 63 - 8)) = true :=
    ⟨_, _, rfl, rfl, rfl, by decide +kernel, by decide +kernel⟩
  obtain ⟨e₀, e, hopen, hrun, hc, hupd, hread⟩ := hall
  obtain ⟨n, e', hupd, -⟩ := exists_of_returns hupd
  obtain ⟨h, start, hread, hstart⟩ := exists_of_returns hread
  obtain ⟨hp, hn, hend⟩ := of_decide_eq_true hstart
  obtain ⟨e'', hagain, hkept⟩ := (layout_idempotent_iff hc hupd hread).mpr
    ⟨fun hcount => absurd hcount (by rw [hp]; exact not_or.mpr ⟨by decide, Nat.not_le.mpr hn⟩),
      fun _ hne => absurd hp hne, fun _ _ _ => hend⟩
  exact ⟨e₀, e, e', e'', n, hopen, hrun, hupd, hagain, hkept⟩

def longSection : List Op :=
  [.newehdr .elfclass64, .newscn, .setShdr 1 { Shdr.zero with shType := 1, shAddralign := 1 }, .newdata 1,
   .setData 1 0 ⟨1, 0, 0x7FFFFFFFFFFFFFBF, none, some .byte, 1, by decide⟩]

/-- The first layout succeeds and the second is refused. -/
theorem longSection_refused : ∃ e₀ e e' e'' n, openObject plainEnv .write noImage = .ok (some e₀) ∧
    runOps (Op.step plainEnv) e₀ longSection = .ok e ∧ elfUpdate plainEnv .null e = .ok n e' ∧
    elfUpdate plainEnv .null e' = .err .HEADER e'' := by
  have hall : ∃ e₀ e, openObject plainEnv .write noImage = .ok (some e₀) ∧
      runOps (Op.step plainEnv) e₀ longSection = .ok e ∧
      (elfUpdate plainEnv .null e).returns (fun _ e' =>
        (elfUpdate plainEnv .null e').fails fun x _ => decide (x = .HEADER)) = true :=
    ⟨_, _, rfl, rfl, by decide +kernel⟩
  obtain ⟨e₀, e, hopen, hrun, hupd⟩ := hall
  obtain ⟨n, e', hupd, hfails⟩ := exists_of_returns hupd
  obtain ⟨x, e'', hagain, hx⟩ := exists_of_fails hfails
  cases of_decide_eq_true hx
  exact ⟨e₀, e, e', e'', n, hopen, hrun, hupd, hagain⟩

end Object

end LibElf.Toolchain
