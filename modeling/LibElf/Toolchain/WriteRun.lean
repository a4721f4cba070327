import LibElf.Toolchain.WriterSafe

/-!
# Writing what was laid out

The layout hands a size and a list of extents to the writers. This module connects the two passes.

1. `Renumbered`, what storing the counts does to the sections, and `wf_readIn`.
2. `LayoutRun.ready` and `LayoutRun.extents`: after a layout without overflow the writers find what
   they rely on.
3. `ensures_writeElf`: the new image is written completely, or the writers stop for a reason of `Bad`.
-/

namespace LibElf.Toolchain

open Outcome Mem

attribute [local irreducible] fsize msize

/-! ## The state the layout leaves -/

section Final

variable {env : Env} {ec : ElfClass} {e e' : Elf} {rc : Nat} {exs : List Extent}
variable (r : LayoutRun env ec e rc exs e')

theorem LayoutRun.eScn : e'.eScn = numberScns ec r.start.eNphdr r.start.eNscn r.scns :=
  congrArg Elf.eScn r.final

theorem LayoutRun.eEhdr : e'.eEhdr = some (placeEhdr ec r.start.eFlags.layout r.phoff r.shoff
    (numberEhdr r.start.eNphdr r.start.eNscn r.ehdr)) :=
  congrArg Elf.eEhdr r.final

include r in
theorem LayoutRun.eClass : e'.eClass = some ec :=
  (congrArg Elf.eClass r.final).trans (readIn_ok r.read).1

theorem LayoutRun.eVersion : e'.eVersion = r.start.eVersion := (congrArg Elf.eVersion r.final).trans rfl
theorem LayoutRun.eNphdr : e'.eNphdr = r.start.eNphdr := (congrArg Elf.eNphdr r.final).trans rfl
theorem LayoutRun.eNscn : e'.eNscn = r.start.eNscn := (congrArg Elf.eNscn r.final).trans rfl
theorem LayoutRun.eRawfile : e'.eRawfile = r.start.eRawfile := (congrArg Elf.eRawfile r.final).trans rfl
theorem LayoutRun.eCmd : e'.eCmd = r.start.eCmd := (congrArg Elf.eCmd r.final).trans rfl

/-- What storing the counts keeps of a section; the number of sections may replace the size of
section 0. -/
structure Renumbered (ec : ElfClass) (n i : Nat) (s s' : Scn) : Prop where
  data : s'.sData = s.sData
  rawdata : s'.sRawdata = s.sRawdata
  offset : s'.sOffset = s.sOffset
  rawoff : s'.sRawoff = s.sRawoff
  size : s'.sSize = s.sSize
  ndx : s'.sNdx = s.sNdx
  shType : s'.shdr.shType = s.shdr.shType
  shOffset : s'.shdr.shOffset = s.shdr.shOffset
  shAddralign : s'.shdr.shAddralign = s.shdr.shAddralign
  shSize : ec.get s'.shdr.shSize = if i = 0 ∧ shnLoreserve ≤ n then n % 2 ^ ec.width
    else ec.get s.shdr.shSize

theorem Renumbered.isSkipped {n i : Nat} {s s' : Scn} (h : Renumbered ec n i s s') :
    s'.isSkipped = s.isSkipped := by
  rw [Scn.isSkipped, Scn.isSkipped, h.shType]

/-- A store in section header 0 that keeps its type. -/
theorem getElem?_putScn0 {upd : Shdr → Shdr} {l : List Scn} {i : Nat} {s' : Scn}
    (hs : (putScn0 upd l)[i]? = some s') (hupd : ∀ h, (upd h).shType = h.shType) :
    s'.isSkipped = true ∨ ∃ s, l[i]? = some s ∧
      s' = if i = 0 then { s with shdr := upd s.shdr, sDirty := true } else s := by
  cases l with
  | nil =>
    cases i with
    | zero =>
      cases hs
      left
      simp [Scn.isSkipped, hupd, Shdr.zero, shtNull]
    | succ i => cases hs
  | cons t ts =>
    right
    cases i with
    | zero =>
      cases hs
      exact ⟨t, rfl, rfl⟩
    | succ i => exact ⟨s', hs, rfl⟩

theorem numberScns_getElem? {p n : Nat} {l : List Scn} {i : Nat} {s' : Scn}
    (hs : (numberScns ec p n l)[i]? = some s') (hkeep : s'.isSkipped = false) :
    ∃ s, l[i]? = some s ∧ Renumbered ec n i s s' := by
  -- the two stores, one after the other
  have hphdr : ∀ t, (if pnXnum ≤ p then putScn0 (fun s => { s with shInfo := UInt32.ofNat p }) l
      else l)[i]? = some t → t.isSkipped = false → ∃ s, l[i]? = some s ∧ t.sData = s.sData ∧
      t.sRawdata = s.sRawdata ∧ t.sOffset = s.sOffset ∧ t.sRawoff = s.sRawoff ∧ t.sSize = s.sSize ∧
      t.sNdx = s.sNdx ∧ t.shdr.shType = s.shdr.shType ∧ t.shdr.shOffset = s.shdr.shOffset ∧
      t.shdr.shAddralign = s.shdr.shAddralign ∧ t.shdr.shSize = s.shdr.shSize := by
    intro t ht hkeep
    split at ht
    · rcases getElem?_putScn0 ht (fun _ => rfl) with hskip | ⟨s, hs, rfl⟩
      · rw [hkeep] at hskip
        cases hskip
      · refine ⟨s, hs, ?_⟩
        split <;> exact ⟨rfl, rfl, rfl, rfl, rfl, rfl, rfl, rfl, rfl, rfl⟩
    · exact ⟨t, ht, rfl, rfl, rfl, rfl, rfl, rfl, rfl, rfl, rfl, rfl⟩
  unfold numberScns at hs
  dsimp only at hs
  split at hs
  · next hn =>
    rcases getElem?_putScn0 hs (fun _ => rfl) with hskip | ⟨t, ht, rfl⟩
    · rw [hkeep] at hskip
      cases hskip
    · have hkeep' : t.isSkipped = false := by
        revert hkeep
        split <;> exact id
      obtain ⟨s, hs, h1, h2, h3, h4, h5, h6, h7, h8, h9, h10⟩ := hphdr t ht hkeep'
      refine ⟨s, hs, ?_⟩
      split
      · next hi => exact ⟨h1, h2, h3, h4, h5, h6, h7, h8, h9, by simp [hi, hn]⟩
      · next hi => exact ⟨h1, h2, h3, h4, h5, h6, h7, h8, h9, by rw [if_neg (fun h => hi h.1), h10]⟩
  · next hn =>
    obtain ⟨s, hs, h1, h2, h3, h4, h5, h6, h7, h8, h9, h10⟩ := hphdr s' hs hkeep
    exact ⟨s, hs, h1, h2, h3, h4, h5, h6, h7, h8, h9, by rw [if_neg (fun h => hn h.2), h10]⟩

/-- A section that storing the counts does not skip is still there. -/
theorem numberScns_of_getElem? {p n : Nat} {l : List Scn} {i : Nat} {s : Scn} (hs : l[i]? = some s) :
    ∃ s', (numberScns ec p n l)[i]? = some s' ∧ Renumbered ec n i s s' := by
  have hput : ∀ (upd : Shdr → Shdr) (l : List Scn) (s : Scn), l[i]? = some s →
      (putScn0 upd l)[i]? = some (if i = 0 then { s with shdr := upd s.shdr, sDirty := true } else s) := by
    intro upd l s hs
    cases l with
    | nil => cases hs
    | cons t ts =>
      cases i with
      | zero =>
        cases hs
        rfl
      | succ i => exact hs
  have hphdr : ∃ t, (if pnXnum ≤ p then putScn0 (fun s => { s with shInfo := UInt32.ofNat p }) l
      else l)[i]? = some t ∧ t.sData = s.sData ∧
      t.sRawdata = s.sRawdata ∧ t.sOffset = s.sOffset ∧ t.sRawoff = s.sRawoff ∧ t.sSize = s.sSize ∧
      t.sNdx = s.sNdx ∧ t.shdr.shType = s.shdr.shType ∧ t.shdr.shOffset = s.shdr.shOffset ∧
      t.shdr.shAddralign = s.shdr.shAddralign ∧ t.shdr.shSize = s.shdr.shSize := by
    split
    · refine ⟨_, hput _ l s hs, ?_⟩
      split <;> exact ⟨rfl, rfl, rfl, rfl, rfl, rfl, rfl, rfl, rfl, rfl⟩
    · exact ⟨s, hs, rfl, rfl, rfl, rfl, rfl, rfl, rfl, rfl, rfl, rfl⟩
  obtain ⟨t, ht, h1, h2, h3, h4, h5, h6, h7, h8, h9, h10⟩ := hphdr
  unfold numberScns
  dsimp only
  split
  · next hn =>
    refine ⟨_, hput _ _ t ht, ?_⟩
    split
    · next hi => exact ⟨h1, h2, h3, h4, h5, h6, h7, h8, h9, by simp [hi, hn]⟩
    · next hi => exact ⟨h1, h2, h3, h4, h5, h6, h7, h8, h9, by rw [if_neg (fun h => hi h.1), h10]⟩
  · next hn => exact ⟨t, ht, h1, h2, h3, h4, h5, h6, h7, h8, h9, by rw [if_neg (fun h => hn h.2), h10]⟩

end Final

/-! ## Ready to write -/

section Ready

variable {env : Env} {ec : ElfClass} {e e' : Elf} {rc : Nat} {exs : List Extent}

/-- Reading in the headers keeps the invariant. -/
theorem wf_readIn (hw : Wf e) : (readIn env ec e).Ensures (fun _ => Wf) Wf (fun _ => True) := by
  unfold readIn
  refine ensures_bind (wf_ehdr hw false) ?_
  rintro h₀ e₁ ⟨hw₁, hh₁, hc₁⟩
  refine ensures_bind (Q := fun _ e' => Wf e' ∧ e'.eEhdr ≠ none ∧ e'.eClass = some ec) ?_ ?_
  · exact wf_prepareEhdr hw₁ hh₁ hc₁ h₀
  rintro h e₂ ⟨hw₂, hh₂, hc₂⟩
  refine ensures_bind (Q := fun _ e' => Wf e' ∧ e'.eEhdr ≠ none) ?_ ?_
  · split
    · exact ⟨hw₂, hh₂⟩
    · exact ensures_mono (wf_getphdr_ignore hw₂ hh₂ hc₂) (fun _ _ h => ⟨h.1, h.2.1⟩) (fun _ h => h)
        fun _ h => h
  rintro _ e₃ ⟨hw₃, hh₃⟩
  exact ensures_bind (wf_needSectionHeaders hw₃ hh₃ h) fun _ _ h => h.1

/-- When the number of sections is stored in section header 0, that section has no contents in the
file that would have to be copied, or contents of just this size. -/
def CountFits (e : Elf) (ec : ElfClass) : Prop :=
  shnLoreserve ≤ e.eNscn → e.eRawfile ≠ none → ∀ s, e.eScn[0]? = some s → s.isSkipped = false →
    s.sData = [] → s.sDirty = false → ec.get s.shdr.shSize = e.eNscn % 2 ^ ec.width

/-- A section of a file that the layout does not read in was not modified, and keeps its size. -/
theorem LaidOut.unread {s t : Scn} {rc : Nat} (h : LaidOut env e ec rc s t) (hdata : t.sData = [])
    (hcmd : e.eCmd ≠ .write) :
    s.sData = [] ∧ s.sDirty = false ∧ t.sRawdata = s.sRawdata ∧ t.shdr.shType = s.shdr.shType ∧
      ec.get t.shdr.shSize = ec.get s.shdr.shSize ∧ t.sSize = ec.get s.shdr.shSize := by
  have hread : ∀ {u : Scn}, s.sData ≠ [] ∨ s.sDirty = true → Loaded env e ec s u → u.sData ≠ [] := by
    rintro u _ (⟨hold, rfl⟩ | ⟨hnil, _, d, hget⟩)
    · exact hold.resolve_right hcmd
    · rw [(getdata_ok hget hnil).1]
      exact List.cons_ne_nil _ _
  cases h with
  | keep hnil hclean _ => exact ⟨hnil, hclean, rfl, rfl, rfl, rfl⟩
  | move hnil hclean _ _ =>
    refine ⟨hnil, hclean, placed_sRawdata .., ?_, ?_, placed_sSize ..⟩
    · rw [placed_shdr]
    · rw [placed_shdr, ElfClass.get_put, Nat.mod_eq_of_lt (ec.get_lt_width _)]
  | @check u _ _ hlive hloaded => exact absurd (show u.sData = [] from hdata) (hread hlive hloaded)
  | @pack u size align ds hlive hloaded hlay hcheck =>
    rw [placed_sData] at hdata
    obtain ⟨_, rfl, _⟩ := checkData_library hlay hcheck
    refine absurd ?_ (hread hlive hloaded)
    cases hu : u.sData with
    | nil => rfl
    | cons d ds =>
      rw [show ({ u with sData := assignOffsets ec 0 u.sData } : Scn).sData =
        assignOffsets ec 0 u.sData from rfl, hu] at hdata
      cases hdata

variable (r : LayoutRun env ec e rc exs e')

/-- Where the header says the program header table is, and where its extent is. -/
theorem LayoutRun.phoff_eq (hfit : Fits r.start ec r.ehdr) (hp : r.start.eNphdr * msize .phdr ec < 2 ^ 64)
    (hne : r.start.eNphdr ≠ 0) {h : Ehdr} (hh : e'.eEhdr = some h) :
    ec.get h.ePhoff = r.phoff ∧ 0 < r.phoff ∧ falign (some .phdr) ec ∣ r.phoff := by
  have hfit₁ : r.start.eNphdr ≠ 0 → (if r.start.eFlags.layout = true then ec.get r.ehdr.ePhoff
      else fsize .ehdr ec) + r.start.eNphdr * fsize .phdr ec < 2 ^ 64 := r.phdr_fit hfit hp
  obtain ⟨hoff, _⟩ := r.phdr.tiled hp hfit₁
  rw [if_neg hne] at hoff
  rw [r.eEhdr] at hh
  cases hh
  have hepos := fsize_ehdr_pos ec
  unfold placeEhdr
  split
  · next hlay =>
    rw [if_pos hlay] at hoff
    obtain ⟨hle, hdvd⟩ := r.phdr.layout_ok hne hlay
    rw [hoff]
    exact ⟨rfl, by omega, hdvd⟩
  · next hlay =>
    rw [if_neg hlay] at hoff
    refine ⟨?_, by omega, ?_⟩
    · rw [ElfClass.get_put, hoff, Nat.mod_eq_of_lt (fsize_ehdr_lt ec)]
    · rw [hoff]
      exact (falign_phdr ec).2

/-- After a layout that fits, the writers find what they rely on. -/
theorem LayoutRun.ready (hw : Wf e) (hw' : Wf e') (hfit : Fits r.start ec r.ehdr)
    (hcount : CountFits r.start ec) : WriterReady ec rc e' := by
  have hp : r.start.eNphdr * msize .phdr ec < 2 ^ 64 := by
    rw [← r.eNphdr]
    exact hw'.nphdr ec r.eClass
  have htiled := r.tiled hfit hp
  have hstart : Wf r.start := by
    have := @wf_readIn env ec _ hw
    rw [r.read] at this
    exact this
  refine ⟨hw', r.eClass, htiled.small, by simp [r.eEhdr], ?_, ?_⟩
  · intro h hh hne
    rw [r.eNphdr] at hne
    obtain ⟨heq, hpos, hdvd⟩ := r.phoff_eq hfit hp hne hh
    rw [heq]
    exact ⟨hpos, hdvd⟩
  · intro i s' hs' hkeep hne
    rw [r.eScn] at hs'
    obtain ⟨t, ht, hnum⟩ := numberScns_getElem? hs' hkeep
    have hkeep : t.isSkipped = false := by rw [← hnum.isSkipped, hkeep]
    rw [hnum.size] at hne
    have hmem := (htiled.mem (scnExtent i t)).mpr (.inr (.inr (.inl ⟨i, t, ht, hkeep, hne, rfl⟩)))
    have hunread : s'.sData = [] → e'.eRawfile ≠ none → ∃ s, r.start.eScn[i]? = some s ∧
        s.isSkipped = false ∧ s.sData = [] ∧ s.sDirty = false ∧ t.sRawdata = s.sRawdata ∧
        t.shdr.shType = s.shdr.shType ∧ ec.get t.shdr.shSize = ec.get s.shdr.shSize ∧
        t.sSize = ec.get s.shdr.shSize := by
      intro hdata hfile
      obtain ⟨s, hs, hskeep, hlaid⟩ := r.source ht hkeep
      rw [hnum.data] at hdata
      rw [r.eRawfile] at hfile
      obtain ⟨hnil, hclean, hrest⟩ := hlaid.unread hdata fun h => hfile (hstart.write h)
      exact ⟨s, hs, hskeep, hnil, hclean, hrest⟩
    -- storing the counts leaves the size of a section that has to be copied
    have hsize : s'.sData = [] → e'.eRawfile ≠ none → ec.get s'.shdr.shSize = ec.get t.shdr.shSize := by
      intro hdata hfile
      obtain ⟨s, hs, hskeep, hnil, hclean, _, _, hsize, _⟩ := hunread hdata hfile
      rw [hnum.shSize]
      split
      · next hcond =>
        rw [hcond.1] at hs
        rw [hsize, hcount hcond.2 (r.eRawfile ▸ hfile) s hs hskeep hnil hclean]
      · rfl
    refine ⟨?_, ?_, ?_⟩
    · rw [hnum.offset, hnum.size]
      exact htiled.endBy _ hmem
    · intro d hd
      rw [hnum.data] at hd
      obtain ⟨⟨hknown, hver, hpow⟩, hin⟩ := r.data_fit hfit hp ht hkeep hne hd
      exact ⟨⟨hknown, hver.trans r.eVersion.symm, hpow⟩, by rw [hnum.size]; exact hin⟩
    · intro hdata hfile
      obtain ⟨s, _, _, _, _, _, _, hts, hss⟩ := hunread hdata hfile
      rw [hsize hdata hfile, hnum.size, hts, hss]

/-- The extents of the layout are those the writers know. -/
theorem LayoutRun.extents (hw' : Wf e') (hfit : Fits r.start ec r.ehdr) : ∀ x ∈ exs, ExtentOf ec e' x := by
  have hp : r.start.eNphdr * msize .phdr ec < 2 ^ 64 := by
    rw [← r.eNphdr]
    exact hw'.nphdr ec r.eClass
  have htiled := r.tiled hfit hp
  intro x hx
  rcases (htiled.mem x).mp hx with rfl | ⟨hne, rfl⟩ | ⟨i, t, ht, hkeep, hne, rfl⟩ | ⟨hne, rfl⟩
  · exact .ehdr
  · obtain ⟨h, hh⟩ : ∃ h, e'.eEhdr = some h := ⟨_, r.eEhdr⟩
    obtain ⟨heq, _⟩ := r.phoff_eq hfit hp hne hh
    rw [← heq, ← r.eNphdr]
    exact .phdr h (by rwa [r.eNphdr]) hh
  · obtain ⟨s', hs', hnum⟩ := @numberScns_of_getElem? ec r.start.eNphdr
      r.start.eNscn _ _ _ ht
    have heq : scnExtent i t = scnExtent i s' := by rw [scnExtent, scnExtent, hnum.offset, hnum.size]
    rw [heq]
    exact .scn i s' (by rw [r.eScn]; exact hs') (hnum.isSkipped.trans hkeep) (by rwa [hnum.size])
  · rw [← r.eNscn] at hne ⊢
    refine .shdr _ hne ?_
    rw [r.eNscn] at hne
    obtain ⟨hoff, hlay⟩ := r.shdr.off_eq hne
    rw [hoff]
    split
    · next h => exact hlay h
    · next h => exact (r.shoff_library (by simpa using h) hfit hp hne).2

/-- The writers, after a layout that fits: they make the whole image, or stop for a reason of `Bad` or `Long`
or by a load outside the old image. -/
theorem ensures_writeElf (hw : Wf e) (hw' : Wf e') (hfit : Fits r.start ec r.ehdr)
    (hcount : CountFits r.start ec) (hcmd : e'.eCmd ≠ .read) :
    (writeElf env ec rc exs e').Ensures
      (fun rc' e'' => rc' = rc ∧ ∃ w' : Writing rc, ∃ hsize,
        Wrote env ec 0 exs ⟨e', Mem.fresh env.heap rc⟩ rc w' ∧
        e'' = finishWrite w'.elf ⟨env.heapAddr, w'.nf.bytes, hsize⟩)
      (fun _ => True) (fun f => f = .load ∨ f = .assertion ∧ (∃ ex ∈ exs, Bad ec e' ex) ∨
        f = .store ∧ ∃ ex ∈ exs, Long e' ex) := by
  have hp : r.start.eNphdr * msize .phdr ec < 2 ^ 64 := by
    rw [← r.eNphdr]
    exact hw'.nphdr ec r.eClass
  have htiled := r.tiled hfit hp
  have hsmall := htiled.small
  have hloop := @ensures_writeLoop env _ _ exs 0 ⟨e', Mem.fresh env.heap rc⟩ (r.ready hw hw' hfit hcount)
    htiled.sorted htiled.endBy fun x hx => ⟨r.extents hw' hfit x hx, Nat.zero_le _⟩
  unfold writeElf
  rw [if_neg hcmd]
  split
  swap
  · next hsize => exact absurd (Nat.lt_trans hsmall (by decide)) hsize
  split
  · next f hx =>
    rw [hx] at hloop
    exact hloop
  · trivial
  · next rc' w' hx =>
    rw [hx] at hloop
    have hdone : Wrote env ec 0 exs ⟨e', Mem.fresh env.heap rc⟩ rc' w' := hloop
    -- some extent reaches the end, and none goes beyond
    have hend : rc' = rc := by
      obtain ⟨x, hx, hstop⟩ := htiled.top
      have h₁ := hdone.le.2 x hx
      rcases hdone.top with h0 | ⟨y, hy, rfl⟩
      · omega
      · have h₂ := htiled.endBy y hy
        omega
    subst hend
    have hcmd' := hdone.kept.2.eCmd
    split
    · next hne => exact absurd rfl hne
    split
    · next hbad =>
      obtain ⟨hfile, hown⟩ := hdone.kept.1.rdwr hbad.1
      rcases hbad.2 with h | h
      · exact absurd h hfile
      · rw [hown] at h
        cases h
    split
    · next hbad => exact absurd (hdone.kept.1.write hbad.1) hbad.2
    · exact ⟨rfl, w', _, hdone, rfl⟩

end Ready

end LibElf.Toolchain
