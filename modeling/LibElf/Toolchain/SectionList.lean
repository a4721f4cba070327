import LibElf.Toolchain.SessionRun

/-!
# The list of sections

Section 0 is made by four functions: the one that loads the section headers, the one that reads
extended numbering, `elf_newscn`, and the setters that store a large count in it. The list and the
count `e_nscn` have to agree once the list is whole, that is when the object is new or its section
headers are loaded. Before that the list is empty, or holds section 0 alone.

1. `indices`, `Whole` and `Listed`, the list, when it has all sections, and what it is like.
2. `SameList`, what most calls keep, and the triples of the calls that make sections.
3. `ListStep`, the condition on a step, and `listed_step`, what a step that meets it keeps.
4. `SectionList`, what an application sees, and `section_list_run`.
-/

namespace LibElf.Toolchain

open Outcome

/-- The indices of the sections, in the order of the list. -/
def indices (e : Elf) : List Nat := e.eScn.map Scn.sNdx

/-- The list has all the sections: the object is new, or its section headers are loaded. -/
def Whole (e : Elf) : Prop := e.eCmd = .write ∨ e.eFlags.shdrsLoaded = true

instance (e : Elf) : Decidable (Whole e) := inferInstanceAs (Decidable (_ ∨ _))

/-- The list of sections goes with the count. -/
structure Listed (e : Elf) : Prop where
  whole : Whole e → indices e = List.range e.eNscn
  part : ¬ Whole e → indices e = [] ∨ indices e = [0] ∧ e.eNscn ≠ 0
  loaded : e.eFlags.shdrsLoaded = true → e.eEhdr ≠ none
  readable : e.eCmd ≠ .write → e.eClass ≠ none

/-- The two descriptors have the same list of sections, as far as its indices go. -/
structure SameList (e e' : Elf) : Prop where
  indices : indices e' = indices e
  nscn : e'.eNscn = e.eNscn
  cmd : e'.eCmd = e.eCmd
  loaded : e'.eFlags.shdrsLoaded = e.eFlags.shdrsLoaded
  ehdr : e.eEhdr ≠ none → e'.eEhdr ≠ none
  eClass : e.eClass ≠ none → e'.eClass ≠ none

theorem SameList.refl (e : Elf) : SameList e e := ⟨rfl, rfl, rfl, rfl, id, id⟩

theorem SameList.trans {e e' e'' : Elf} (h : SameList e e') (h' : SameList e' e'') : SameList e e'' :=
  ⟨h'.indices.trans h.indices, h'.nscn.trans h.nscn, h'.cmd.trans h.cmd, h'.loaded.trans h.loaded,
    fun hh => h'.ehdr (h.ehdr hh), fun hc => h'.eClass (h.eClass hc)⟩

theorem SameList.whole {e e' : Elf} (h : SameList e e') : Whole e' ↔ Whole e := by
  unfold Whole
  rw [h.cmd, h.loaded]

namespace Listed

variable {e e' : Elf}

theorem of_same (hl : Listed e) (h : SameList e e') : Listed e' := by
  refine ⟨fun hw => ?_, fun hp => ?_, fun hload => ?_, fun hcmd => ?_⟩
  · rw [h.indices, h.nscn]
    exact hl.whole (h.whole.mp hw)
  · rw [h.indices, h.nscn]
    exact hl.part fun hw => hp (h.whole.mpr hw)
  · exact h.ehdr (hl.loaded (h.loaded.symm.trans hload))
  · rw [h.cmd] at hcmd
    exact h.eClass (hl.readable hcmd)

/-- An empty list that is not whole goes with any count. -/
theorem of_nil (hcmd : e.eCmd ≠ .write) (hload : e.eFlags.shdrsLoaded = false) (hc : e.eClass ≠ none)
    (hnil : e.eScn = []) : Listed e := by
  refine ⟨fun hw => ?_, fun _ => .inl ?_, fun h => ?_, fun _ => hc⟩
  · rcases hw with hw | hw
    · exact absurd hw hcmd
    · rw [hload] at hw
      cases hw
  · rw [indices, hnil]
    rfl
  · rw [hload] at h
    cases h

/-- Section 0 alone goes with any count but zero. -/
theorem of_single (hcmd : e.eCmd ≠ .write) (hload : e.eFlags.shdrsLoaded = false) (hc : e.eClass ≠ none)
    (hone : indices e = [0]) (hn : e.eNscn ≠ 0) : Listed e := by
  refine ⟨fun hw => ?_, fun _ => .inr ⟨hone, hn⟩, fun h => ?_, fun _ => hc⟩
  · rcases hw with hw | hw
    · exact absurd hw hcmd
    · rw [hload] at hw
      cases hw
  · rw [hload] at h
    cases h

/-- The count is zero exactly when a whole list is empty. -/
theorem nil_iff (hl : Listed e) (hw : Whole e) : e.eScn = [] ↔ e.eNscn = 0 := by
  have h := hl.whole hw
  constructor
  · intro hnil
    rw [indices, hnil, List.map_nil] at h
    exact List.range_eq_nil.mp h.symm
  · intro hn
    rw [hn, List.range_zero] at h
    exact List.map_eq_nil_iff.mp h

/-- A list with a count has section 0 first, or is empty and not whole. -/
theorem first (hl : Listed e) : e.eScn = [] ∨ ∃ s ss, e.eScn = s :: ss ∧ s.sNdx = 0 := by
  cases hscn : e.eScn with
  | nil => exact .inl rfl
  | cons s ss =>
    refine .inr ⟨s, ss, rfl, ?_⟩
    have hind : indices e = s.sNdx :: ss.map Scn.sNdx := by rw [indices, hscn, List.map_cons]
    by_cases hw : Whole e
    · have h := hl.whole hw
      rw [hind] at h
      cases hn : e.eNscn with
      | zero =>
        rw [hn] at h
        cases h
      | succ n =>
        rw [hn, List.range_succ_eq_map] at h
        exact (List.cons.inj h).1
    · rcases hl.part hw with h | ⟨h, -⟩
      · rw [hind] at h
        cases h
      · rw [hind] at h
        exact (List.cons.inj h).1

/-- A whole list without a header is empty. -/
theorem nscn_of_header (hl : Listed e) (hwf : Wf e) (hw : Whole e) (hh : e.eEhdr = none) :
    e.eNscn = 0 :=
  (hl.nil_iff hw).mp (hwf.fresh hh).1

end Listed

/-! ## Calls that make sections -/

section Calls

-- the sizes are sums over member lists, which must not be evaluated
attribute [local irreducible] fsize msize

variable {env : Env} {ec : ElfClass} {e : Elf}

/-- Where the file keeps its counts in section header 0, that header is of type `SHT_NULL` and its
count of sections is not zero. -/
def Scn0Counts (env : Env) (e : Elf) : Prop :=
  ∀ ec ∈ e.eClass, e.eEhdr = none → e.eCmd ≠ .write →
    ¬ badCounts ec (fileEhdr env ec e) → isExtended ec (fileEhdr env ec e) →
    wrap (ec.get (fileEhdr env ec e).eShoff + fsize .shdr ec) ≤ e.rawsize →
    (fileShdr0 env ec e).shType = shtNull ∧ ec.get (fileShdr0 env ec e).shSize ≠ 0

instance (env : Env) (e : Elf) : Decidable (Scn0Counts env e) :=
  inferInstanceAs (Decidable (∀ ec ∈ e.eClass, _))

/-- The executable header, read in with the counts. -/
theorem listed_libelfEhdr (hwf : Wf e) (hl : Listed e) (hcounts : Scn0Counts env e) (allocate : Bool) :
    (libelfEhdr env ec allocate e).Ensures (fun _ e' => Listed e' ∧ (e.eEhdr ≠ none → SameList e e'))
      Listed (· ≠ .assertion) := by
  unfold libelfEhdr
  split
  · exact hl
  next hclass =>
  split
  · exact hl
  have hsame : SameList e (e.setClass ec) := ⟨rfl, rfl, rfl, rfl, id, fun _ => Option.some_ne_none ec⟩
  dsimp only
  split
  · exact ⟨hl.of_same hsame, fun _ => hsame⟩
  next hnone =>
  have hnone : e.eEhdr = none := hnone
  have hnew : e.eEhdr ≠ none → ∀ e', SameList e e' := fun h => absurd hnone h
  have hscn := (hwf.fresh hnone).1
  split
  · exact hl.of_same hsame
  split
  · exact ⟨hl.of_same ⟨rfl, rfl, rfl, rfl, fun _ => Option.some_ne_none _, fun _ => Option.some_ne_none _⟩,
      fun h => hnew h _⟩
  next hcmd =>
  -- a header that is read comes with an empty list that is not loaded
  have hcmd : e.eCmd ≠ .write := hcmd
  have hload : e.eFlags.shdrsLoaded = false := by
    cases h : e.eFlags.shdrsLoaded with
    | false => rfl
    | true => exact absurd hnone (hl.loaded h)
  have hec : e.eClass = some ec := Decidable.not_not.mp fun h => hclass ⟨hl.readable hcmd, h⟩
  have hnil : ∀ e', e'.eCmd = e.eCmd → e'.eFlags.shdrsLoaded = false → e'.eClass = some ec → e'.eScn = [] →
      Listed e' := fun e' h₁ h₂ h₃ h₄ => .of_nil (h₁ ▸ hcmd) h₂ (by rw [h₃]; exact Option.some_ne_none ec) h₄
  unfold Elf.read
  refine ensures_bind (ensures_readAt (F := (· ≠ .assertion)) nofun) ?_
  rintro bs _ ⟨rfl, rfl⟩
  have hcounts := hcounts ec hec hnone hcmd
  generalize hofFile : Ehdr.ofFile env.host _ ec _ = h
  have hh : fileEhdr env ec e = h := hofFile
  rw [hh] at hcounts
  split
  · exact hnil _ rfl hload rfl hscn
  next hbad =>
  split
  · next hext =>
    refine ensures_bind (Q := fun _ e' => Listed e') ?_ fun _ e' h => ⟨h, fun h => hnew h _⟩
    unfold loadExtended
    split
    · next h => exact absurd hscn h
    split
    · exact hnil _ rfl hload rfl hscn
    next hroom =>
    refine ensures_bind (ensures_readAt (F := (· ≠ .assertion)) nofun) ?_
    rintro bs _ ⟨rfl, rfl⟩
    obtain ⟨htype, hsize⟩ := hcounts hbad hext (Nat.le_of_not_lt hroom)
    generalize hofFile₀ : Shdr.ofFile env.host _ ec _ = shdr
    have hshdr : fileShdr0 env ec e = shdr := by
      rw [fileShdr0, hh]
      exact hofFile₀
    rw [hshdr] at htype hsize
    dsimp only
    rw [if_neg (not_not_intro htype)]
    exact .of_single hcmd hload (Option.some_ne_none ec) rfl hsize
  · exact ⟨hnil _ rfl hload rfl hscn, fun h => hnew h _⟩

/-- The loop over the section header table appends the indices it counts. -/
theorem indices_loadLoop (n : Nat) : ∀ (src ndx : Nat) (e : Elf),
    (loadLoop env ec n src ndx e).Ensures
      (fun _ e' => indices e' = indices e ++ List.range' ndx n ∧ e'.eNscn = e.eNscn ∧ e'.eEhdr = e.eEhdr ∧
        e'.eClass = e.eClass)
      (fun _ => False) (· ≠ .assertion) := by
  induction n with
  | zero => exact fun _ _ e => ⟨(List.append_nil _).symm, rfl, rfl, rfl⟩
  | succ n ih =>
    intro src ndx e
    unfold loadLoop Elf.read
    refine ensures_bind (ensures_readAt (F := (· ≠ .assertion)) (by rintro ⟨⟩)) ?_
    rintro bs e₁ ⟨-, he⟩
    rw [he]
    refine ensures_mono (ih _ _ _) ?_ (fun _ h => h) fun _ h => h
    rintro _ e' ⟨hind, hn, hh, hc⟩
    refine ⟨?_, hn, hh, hc⟩
    have hone : indices (e.setScn (e.eScn ++ [loadScn env e ec ndx bs])) = indices e ++ [ndx] := by
      rw [indices, Elf.setScn_eScn, List.map_append]
      rfl
    rw [hind, hone, List.append_assoc, List.range'_succ]
    rfl

/-- Once the section headers are there, the list is whole. -/
theorem listed_needSectionHeaders (hl : Listed e) (hh : e.eEhdr ≠ none) (h : Ehdr) :
    (needSectionHeaders env ec h e).Ensures
      (fun _ e' => Listed e' ∧ Whole e' ∧ e'.eNscn = e.eNscn ∧ e'.eEhdr ≠ none ∧ e'.eClass = e.eClass)
      Listed (· ≠ .assertion) := by
  unfold needSectionHeaders
  split
  swap
  · next hneed =>
    refine ⟨hl, ?_, rfl, hh, rfl⟩
    by_contra hw
    exact hneed ⟨fun h => hw (.inl h), Bool.eq_false_iff.mpr fun h => hw (.inr h)⟩
  next hneed =>
  obtain ⟨hcmd, hload⟩ := hneed
  have hpart : ¬ Whole e := by
    rintro (hw | hw)
    · exact hcmd hw
    · rw [hload] at hw
      cases hw
  unfold loadSectionHeaders
  split
  · next hw => exact absurd (.inr hw) hpart
  dsimp only
  split
  · exact hl
  -- the loop completes the list from what is there to all the indices below the count
  refine ensures_bind (Q := fun _ e' => indices e' = List.range e.eNscn ∧ e'.eNscn = e.eNscn ∧
    e'.eEhdr = e.eEhdr ∧ e'.eClass = e.eClass) ?_ ?_
  · split
    · next hnil =>
      refine ensures_mono (indices_loadLoop _ _ _ e) ?_ (fun _ h => h.elim) fun _ h => h
      rintro _ e' ⟨hind, hrest⟩
      refine ⟨?_, hrest⟩
      rw [hind, indices, hnil, List.range_eq_range']
      rfl
    · next s hone =>
      refine ensures_mono (indices_loadLoop _ _ _ e) ?_ (fun _ h => h.elim) fun _ h => h
      rintro _ e' ⟨hind, hrest⟩
      refine ⟨?_, hrest⟩
      rcases hl.part hpart with h | ⟨h, hn⟩
      · rw [indices, hone] at h
        cases h
      · obtain ⟨m, hm⟩ := Nat.exists_eq_succ_of_ne_zero hn
        rw [hind, h, hm, List.range_eq_range', List.range'_succ]
        rfl
    · next hnil hone =>
      rcases hl.part hpart with h | ⟨h, -⟩
      · exact absurd (List.map_eq_nil_iff.mp h) hnil
      · obtain ⟨s, hs, -⟩ := List.map_eq_singleton_iff.mp h
        exact absurd hs (hone s)
  · rintro _ e₁ ⟨hind, hn, hh₁, hc₁⟩
    have hh₁' : e₁.eEhdr ≠ none := hh₁ ▸ hh
    refine ⟨⟨fun _ => ?_, fun hp => absurd (.inr rfl) hp, fun _ => hh₁', fun _ => ?_⟩, .inr rfl, hn, hh₁', hc₁⟩
    · rw [← hn] at hind
      exact hind
    · rw [Elf.setFlags_eClass, hc₁]
      exact hl.readable hcmd

/-- A store in section header 0 makes it only where it is counted. -/
theorem sameList_setScn0 (hl : Listed e) (upd : Shdr → Shdr) (hne : e.eScn ≠ []) :
    (setScn0 upd e).Ensures (fun _ => SameList e) (fun _ => False) (fun _ => True) := by
  obtain hnil | ⟨s, ss, hscn, -⟩ := hl.first
  · exact absurd hnil hne
  have hget : getscn0 e = e := by
    unfold getscn0
    rw [hscn]
  unfold setScn0
  rw [hget, hscn]
  dsimp only
  split
  · trivial
  · refine ⟨?_, rfl, rfl, rfl, id, id⟩
    rw [indices, indices, hscn]
    rfl

theorem listed_setScn0 (hl : Listed e) (upd : Shdr → Shdr) (hn : e.eNscn ≠ 0) :
    (setScn0 upd e).Ensures (fun _ e' => Listed e' ∧ e'.eNscn = e.eNscn) (fun _ => False)
      (fun _ => True) := by
  by_cases hnil : e.eScn = []
  · have hpart : ¬ Whole e := fun hw => hn ((hl.nil_iff hw).mp hnil)
    have hcmd : e.eCmd ≠ .write := fun h => hpart (.inl h)
    have hload : e.eFlags.shdrsLoaded = false := Bool.eq_false_iff.mpr fun h => hpart (.inr h)
    unfold setScn0 getscn0
    rw [hnil]
    simp only [Elf.setScn_eScn]
    rw [if_neg (by decide)]
    exact ⟨.of_single hcmd hload (hl.readable hcmd) rfl hn, rfl⟩
  · exact ensures_mono (sameList_setScn0 hl upd hnil) (fun _ _ h => ⟨hl.of_same h, h.nscn⟩)
      (fun _ h => h) fun _ h => h

theorem sameList_updEhdr (upd : Ehdr → Ehdr) : SameList e (updEhdr upd e) := by
  unfold updEhdr
  split
  · exact SameList.refl e
  · exact ⟨rfl, rfl, rfl, rfl, fun _ => Option.some_ne_none _, id⟩

/-- A count that goes to section header 0 is stored only where that section is counted. -/
theorem listed_setshstrndx (hl : Listed e) {n : Nat} (hn : shnLoreserve ≤ n → e.eNscn ≠ 0) :
    (setshstrndx n e).Ensures (fun _ => Listed) Listed (fun _ => True) := by
  unfold setshstrndx
  split
  · next hlarge =>
    refine ensures_bind (ensures_mono (listed_setScn0 hl _ (hn hlarge)) (fun _ _ h => h)
      (fun _ h => h.elim) fun _ h => h) ?_
    exact fun _ e' h => h.1.of_same (sameList_updEhdr _)
  · exact hl.of_same (sameList_updEhdr _)

theorem listed_setphnum (hl : Listed e) {n : Nat} (hn : pnXnum ≤ n → e.eNscn ≠ 0) :
    (setphnum n e).Ensures (fun _ e' => Listed e' ∧ e'.eNscn = e.eNscn) Listed (fun _ => True) := by
  unfold setphnum
  split
  · next hlarge =>
    refine ensures_bind (ensures_mono (listed_setScn0 hl _ (hn hlarge)) (fun _ _ h => h)
      (fun _ h => h.elim) fun _ h => h) ?_
    exact fun _ e' h => ⟨h.1.of_same (sameList_updEhdr _), (sameList_updEhdr _).nscn.trans h.2⟩
  · exact ⟨hl.of_same (sameList_updEhdr _), (sameList_updEhdr _).nscn⟩

theorem listed_setshnum (hl : Listed e) : (setshnum ec e.eNscn e).Ensures (fun _ => Listed) Listed
    (fun _ => True) := by
  unfold setshnum
  split
  · next hlarge =>
    have hn : e.eNscn ≠ 0 := Nat.ne_of_gt (Nat.lt_of_lt_of_le (by decide) hlarge)
    refine ensures_bind (ensures_mono (listed_setScn0 hl _ hn) (fun _ _ h => h) (fun _ h => h.elim) fun _ h => h) ?_
    exact fun _ e' h => h.1.of_same (sameList_updEhdr _)
  · exact hl.of_same (sameList_updEhdr _)

/-- The header call, with both invariants. -/
theorem listed_ehdr (hwf : Wf e) (hl : Listed e) (hcounts : Scn0Counts env e) (allocate : Bool) :
    (libelfEhdr env ec allocate e).Ensures
      (fun _ e' => Listed e' ∧ Wf e' ∧ e'.eEhdr ≠ none ∧ e'.eClass = some ec) Listed
      (· ≠ .assertion) :=
  ensures_mono (ensures_and (listed_libelfEhdr hwf hl hcounts allocate) (wf_ehdr hwf allocate))
    (fun _ _ h => ⟨h.1.1, h.2⟩) (fun _ h => h.1) fun _ h => h.1

/-- The descriptor once its executable header is there, which most calls see to first. -/
def withHeader (env : Env) (e : Elf) : Elf :=
  match e.eClass with
  | none => e
  | some ec =>
    match libelfEhdr env ec false e with
    | .ok _ e' => e'
    | _ => e

theorem withHeader_of_ok {e' : Elf} {h : Ehdr} (hc : e.eClass = some ec)
    (hx : libelfEhdr env ec false e = .ok h e') : withHeader env e = e' := by
  unfold withHeader
  rw [hc]
  dsimp only
  rw [hx]

/-- A new section gets the count as its index. -/
theorem listed_elfNewscn (hwf : Wf e) (hl : Listed e) (hcounts : Scn0Counts env e)
    (hroom : (withHeader env e).eNscn + 1 < 2 ^ 64) :
    (elfNewscn env e).Ensures (fun _ => Listed) Listed (· ≠ .assertion) := by
  unfold elfNewscn
  split
  · exact hl
  next ec hec =>
  refine ensures_bind (ensures_and_ok (listed_ehdr hwf hl hcounts false)
    (P := fun _ e' => withHeader env e = e') fun _ _ hx => withHeader_of_ok hec hx) ?_
  rintro h e₁ ⟨⟨hl₁, hwf₁, hh₁, hc₁⟩, hwith⟩
  rw [hwith] at hroom
  refine ensures_bind (listed_needSectionHeaders hl₁ hh₁ h) ?_
  rintro _ e₂ ⟨hl₂, hw₂, hn₂, hh₂, hc₂⟩
  rw [← hn₂] at hroom
  have hind := hl₂.whole hw₂
  have hcls : e₂.eClass ≠ none := by
    rw [hc₂, hc₁]
    exact Option.some_ne_none ec
  split
  · next hbad => exact absurd ((hl₂.nil_iff hw₂).mp hbad.1) hbad.2
  dsimp only
  -- with section 0, the list has the indices below the count
  generalize hfirst : (if e₂.eScn = [] then (e₂.setScn [allocateScn 0]).setCounts e₂.eNphdr 1 e₂.eStrndx
    else e₂) = e₃
  have he₃ : indices e₃ = List.range e₃.eNscn ∧ e₃.eNscn ≠ 0 ∧ e₃.eNscn + 1 < 2 ^ 64 ∧
      e₃.eEhdr ≠ none ∧ e₃.eClass ≠ none ∧ (Whole e₃ ↔ Whole e₂) := by
    subst hfirst
    split
    · have hone : 1 + 1 < 2 ^ 64 := by decide
      exact ⟨rfl, Nat.one_ne_zero, hone, hh₂, hcls, Iff.rfl⟩
    · next hne => exact ⟨hind, fun hn => hne ((hl₂.nil_iff hw₂).mpr hn), hroom, hh₂, hcls, Iff.rfl⟩
  obtain ⟨hind₃, hn₃, hroom₃, hh₃, hc₃, hwhole₃⟩ := he₃
  rw [if_neg hn₃]
  refine ⟨fun _ => ?_, fun hp => absurd (hwhole₃.mpr hw₂) hp, fun _ => hh₃, fun _ => hc₃⟩
  have happ : indices ((e₃.setScn (e₃.eScn ++ [{ allocateScn e₃.eNscn with sDirty := true }])).setCounts
      e₃.eNphdr (wrap (e₃.eNscn + 1)) e₃.eStrndx) = indices e₃ ++ [e₃.eNscn] := by
    rw [indices, Elf.setCounts_eScn, Elf.setScn_eScn, List.map_append]
    rfl
  rw [happ, hind₃, Elf.setCounts_eNscn, wrap_of_lt hroom₃, List.range_succ]

/-! ### The layout -/

theorem map_sNdx_resyncSections (ss : List Scn) : ∀ (ndx rc : Nat) (exs : List Extent),
    (resyncSections env e ec ndx rc exs ss).Ensures
      (fun _ ss' => ss'.map Scn.sNdx = ss.map Scn.sNdx) (fun ss' => ss'.map Scn.sNdx = ss.map Scn.sNdx)
      (fun _ => True) := by
  induction ss with
  | nil => exact fun _ _ _ => rfl
  | cons s ss ih =>
    intro ndx rc exs
    have hrest : ∀ ndx rc exs t, t.sNdx = s.sNdx →
        ((resyncSections env e ec ndx rc exs ss).within (t :: ·)).Ensures
          (fun _ ss' => ss'.map Scn.sNdx = (s :: ss).map Scn.sNdx)
          (fun ss' => ss'.map Scn.sNdx = (s :: ss).map Scn.sNdx) (fun _ => True) := by
      intro ndx rc exs t ht
      refine ensures_within (ensures_mono (ih ndx rc exs) ?_ ?_ fun _ h => h)
      · intro _ ss' h
        rw [List.map_cons, List.map_cons, ht, h]
      · intro ss' h
        rw [List.map_cons, List.map_cons, ht, h]
    unfold resyncSections
    split
    · exact hrest _ _ _ s rfl
    have hscn := @keepsScn_computeSectionExtents env ec e rc s
    split
    · trivial
    · next t hx =>
      rw [hx] at hscn
      exact congrArg (· :: ss.map Scn.sNdx) hscn.1
    · next t hx =>
      rw [hx] at hscn
      split
      · exact hrest _ _ _ t hscn.1
      split
      · exact congrArg (· :: ss.map Scn.sNdx) hscn.1
      · exact hrest _ _ _ t hscn.1

theorem sameList_prepareEhdr (h : Ehdr) :
    (prepareEhdr ec h e).Ensures (fun _ e' => SameList e e' ∧ e'.eNphdr = e.eNphdr ∧ e'.eEhdr ≠ none ∧
      e'.eClass = e.eClass ∧ e'.eVersion = e.eVersion) (SameList e) (fun _ => True) := by
  unfold prepareEhdr
  generalize (if h.eVersion.toNat = 0 then evCurrent else h.eVersion.toNat) = version
  dsimp only
  split
  · exact SameList.refl e
  split
  · exact SameList.refl e
  split
  · exact SameList.refl e
  split
  · exact SameList.refl e
  · exact ⟨⟨rfl, rfl, rfl, rfl, fun _ => Option.some_ne_none _, id⟩, rfl, Option.some_ne_none _, rfl, rfl⟩

theorem sameList_layoutPhdr (hc : e.eClass = some ec) (hv : e.eVersion = evCurrent) (hh : e.eEhdr ≠ none)
    (phoff rc p : Nat) (exs : List Extent) :
    (layoutPhdr env ec phoff rc p exs e).Ensures (fun _ e' => SameList e e' ∧ e'.eEhdr = e.eEhdr) (SameList e)
      (fun _ => True) := by
  have hself := SameList.refl e
  obtain ⟨h, hh⟩ := Option.ne_none_iff_exists'.mp hh
  unfold layoutPhdr
  split
  · exact ⟨hself, rfl⟩
  dsimp only
  split
  · exact hself
  have hframe := @getphdr_frame env _ _ hc hv _ hh
  refine ensures_bind (Q := fun _ e' => SameList e e' ∧ e'.eEhdr = e.eEhdr) ?_ ?_
  · cases hx : getphdr env ec e with
    | ok ps t =>
      rw [hx] at hframe
      obtain ⟨rfl, -⟩ := hframe
      exact ⟨⟨rfl, rfl, rfl, rfl, id, id⟩, rfl⟩
    | err err t =>
      rw [hx] at hframe
      cases hframe
      exact ⟨hself, rfl⟩
    | stop f => trivial
  · rintro _ e₁ ⟨hs₁, hh₁⟩
    split
    · exact hs₁
    · exact ⟨hs₁, hh₁⟩

theorem sameList_layoutShdr (shoff rc n : Nat) (exs : List Extent) :
    (layoutShdr ec shoff rc n exs e).Ensures (fun _ e' => e' = e) (fun e' => e' = e) (fun _ => True) := by
  unfold layoutShdr
  split
  · rfl
  dsimp only
  split
  · rfl
  split <;> rfl

/-- The layout keeps the list: it stores a large count in section header 0 only where that section
is counted. -/
theorem listed_resyncElf (hwf : Wf e) (hl : Listed e) (hc : e.eClass = some ec)
    (hcounts : Scn0Counts env e) (hphnum : pnXnum ≤ (withHeader env e).eNphdr → (withHeader env e).eNscn ≠ 0) :
    (resyncElf env ec e).Ensures (fun _ => Listed) Listed (fun _ => True) := by
  unfold resyncElf
  refine ensures_bind (ensures_mono (ensures_and_ok (listed_ehdr hwf hl hcounts false)
    (P := fun _ e' => withHeader env e = e') fun _ _ hx => withHeader_of_ok hc hx) (fun _ _ h => h)
    (fun _ h => h) fun _ _ => trivial) ?_
  rintro h₀ e₁ ⟨⟨hl₁, hwf₁, hh₁, hc₁⟩, hwith⟩
  rw [hwith] at hphnum
  refine ensures_bind (ensures_mono (sameList_prepareEhdr h₀) (fun _ _ h => h)
    (fun _ h => hl₁.of_same h) fun _ h => h) ?_
  rintro h e₂ ⟨hs₂, hp₂, hh₂, hc₂, hv₂⟩
  have hl₂ := hl₁.of_same hs₂
  dsimp only
  refine ensures_bind (ensures_mono (sameList_layoutPhdr (hc₂.trans hc₁) (hv₂.trans (hwf₁.opened hh₁)) hh₂ _ _ _ _)
    (fun _ _ h => h) (fun _ h => hl₂.of_same h) fun _ h => h) ?_
  rintro ⟨phoff, rc₁, exs₁⟩ e₃ ⟨hs₃, hh₃⟩
  have hl₃ := hl₂.of_same hs₃
  refine ensures_bind (ensures_mono (listed_needSectionHeaders hl₃ (hh₃ ▸ hh₂) h) (fun _ _ h => h)
    (fun _ h => h) fun _ _ => trivial) ?_
  rintro _ e₄ ⟨hl₄, hw₄, hn₄, hh₄, hc₄⟩
  have hn : e₄.eNscn = e₂.eNscn := hn₄.trans hs₃.nscn
  have hset : ∀ ss' : List Scn, ss'.map Scn.sNdx = e₄.eScn.map Scn.sNdx → SameList e₄ (e₄.setScn ss') :=
    fun ss' hss => ⟨hss, rfl, rfl, rfl, id, id⟩
  refine ensures_bind (Q := fun _ => SameList e₄) ?_ ?_
  · exact ensures_within (ensures_mono (map_sNdx_resyncSections e₄.eScn 0 rc₁ exs₁)
      (fun _ ss' hss => hset ss' hss) (fun ss' hss => hl₄.of_same (hset ss' hss)) fun _ h => h)
  rintro ⟨rc₂, exs₂⟩ e₅ hs₅
  have hl₅ := hl₄.of_same hs₅
  dsimp only
  split
  · exact hl₅
  refine ensures_bind (ensures_mono (sameList_layoutShdr _ rc₂ _ exs₂) (fun _ _ h => h)
    (fun e' h => h ▸ hl₅) fun _ h => h) ?_
  rintro ⟨shoff, rc₃, exs₃⟩ e₆ rfl
  have hcount : pnXnum ≤ e₂.eNphdr → e₆.eNscn ≠ 0 := by
    intro hp
    rw [hs₅.nscn, hn, hs₂.nscn]
    exact hphnum (hp₂ ▸ hp)
  refine ensures_bind (listed_setphnum hl₅ hcount) ?_
  rintro _ e₇ ⟨hl₇, hn₇⟩
  rw [show e₂.eNscn = e₇.eNscn from hn.symm.trans (hs₅.nscn.symm.trans hn₇.symm)]
  refine ensures_bind (listed_setshnum hl₇) ?_
  intro _ e₈ hl₈
  rw [ensures_ok]
  split
  · exact hl₈
  · exact hl₈.of_same (sameList_updEhdr _)

end Calls

/-! ## Runs -/

section Runs

attribute [local irreducible] fsize msize

variable {env : Env} {e : Elf}

/-- The calls that read or make sections, and those that only count. -/
def Op.onSections : Op → Bool
  | .newehdr _ | .getscn _ | .newscn | .setshstrndx _ | .newphdr _ | .getphdrnum | .update .null => true
  | _ => false

/-- What a step has to meet: section header 0 of the file counts; a section table or a program header
table that is too large for the executable header belongs to an object with sections; and the count
does not wrap. -/
def ListStep (env : Env) (e : Elf) (op : Op) : Prop :=
  Scn0Counts env e ∧
  match op with
  | .setshstrndx n => shnLoreserve ≤ n → (withHeader env e).eNscn ≠ 0
  | .newscn => (withHeader env e).eNscn + 1 < 2 ^ 64
  | .update _ => pnXnum ≤ (withHeader env (currentVersion e)).eNphdr →
      (withHeader env (currentVersion e)).eNscn ≠ 0
  | _ => True

instance (env : Env) (e : Elf) (op : Op) : Decidable (ListStep env e op) := by
  unfold ListStep
  cases op <;> infer_instance

theorem sameList_currentVersion (e : Elf) : SameList e (currentVersion e) := by
  unfold currentVersion
  split
  · exact ⟨rfl, rfl, rfl, rfl, id, id⟩
  · exact SameList.refl e

theorem scn0Counts_currentVersion (h : Scn0Counts env e) : Scn0Counts env (currentVersion e) := by
  unfold currentVersion
  split
  · exact h
  · exact h

theorem listed_elfUpdate_null (hwf : Wf e) (hl : Listed e) (hstep : ListStep env e (.update .null)) :
    (elfUpdate env .null e).Ensures (fun _ => Listed) Listed (fun _ => True) := by
  obtain ⟨hcounts, hphnum⟩ := hstep
  unfold elfUpdate
  split
  · exact hl
  next ec hc =>
  have hwf₁ := wf_currentVersion hwf
  have hl₁ := hl.of_same (sameList_currentVersion e)
  have hcounts₁ := scn0Counts_currentVersion hcounts
  have hc₁ : (currentVersion e).eClass = some ec := (currentVersion_eClass e).trans hc
  dsimp only at hphnum ⊢
  rw [show (if e.eVersion = 0 then e.setVersion evCurrent else e) = currentVersion e from rfl]
  split
  · exact hl₁
  refine ensures_bind (listed_resyncElf hwf₁ hl₁ hc₁ hcounts₁ hphnum) ?_
  rintro ⟨rc, exs⟩ e₂ hl₂
  dsimp only
  split
  · exact hl₂
  split
  · exact hl₂
  · next h => exact absurd rfl h

/-- A step that meets the condition keeps the list. -/
theorem listed_step (hwf : Wf e) (hl : Listed e) {op : Op} (hop : op.onSections = true)
    (hstep : ListStep env e op) {e' : Elf} (h : op.step env e = .ok e') : Listed e' := by
  have hnext : ∀ {α : Type} {x : Call α} {F : Fault → Prop}, x.Ensures (fun _ => Listed) Listed F →
      x.next = .ok e' → Listed e' := fun hx => (ensures_next hx).1 e'
  have hehdr : ∀ ec a, (libelfEhdr env ec a e).Ensures (fun _ => Listed) Listed (· ≠ .assertion) :=
    fun ec a => ensures_mono (listed_ehdr hwf hl hstep.1 a) (fun _ _ h => h.1) (fun _ h => h) fun _ h => h
  have hclass : ∀ {α : Type} {f : ElfClass → Elf → Call α} {F : Fault → Prop},
      (∀ ec, e.eClass = some ec → (f ec e).Ensures (fun _ => Listed) Listed F) →
      (withClass f e).Ensures (fun _ => Listed) Listed F := by
    intro α f F hf
    unfold withClass
    split
    · exact hl
    · next ec hec => exact hf ec hec
  cases op with
  | newehdr ec => exact hnext (hehdr ec true) h
  | getscn index =>
    refine hnext (x := elfGetscn env index e) (F := (· ≠ .assertion)) (hclass fun ec _ => ?_) h
    refine ensures_bind (listed_ehdr hwf hl hstep.1 false) ?_
    rintro hdr e₁ ⟨hl₁, -, hh₁, -⟩
    refine ensures_bind (listed_needSectionHeaders hl₁ hh₁ hdr) ?_
    rintro _ e₂ ⟨hl₂, -⟩
    split <;> exact hl₂
  | newscn => exact hnext (listed_elfNewscn hwf hl hstep.1 hstep.2) h
  | setshstrndx n =>
    refine hnext (x := elfSetshstrndx env n e) (F := fun _ => True) (hclass fun ec hec => ?_) h
    have hx := @listed_ehdr env ec _ hwf hl hstep.1 false
    split
    · trivial
    · next hcall =>
      rw [hcall] at hx
      exact hx
    · next hcall =>
      rw [hcall] at hx
      refine listed_setshstrndx hx.1 fun hn => ?_
      have hne := hstep.2 hn
      rwa [withHeader_of_ok hec hcall] at hne
  | newphdr count =>
    refine hnext (x := gelfNewphdr env count e) (F := fun _ => True) ?_ h
    unfold gelfNewphdr newphdr
    split
    · trivial
    next ec hec =>
    have hx := @listed_ehdr env ec _ hwf hl hstep.1 false
    split
    · trivial
    · next hcall =>
      rw [hcall] at hx
      exact hx
    · next hcall =>
      rw [hcall] at hx
      obtain ⟨hl₁, -, hh₁, -⟩ := hx
      split
      · exact hl₁
      split
      · exact hl₁.of_same ⟨rfl, rfl, rfl, rfl, id, id⟩
      · exact hl₁.of_same ⟨rfl, rfl, rfl, rfl, id, id⟩
  | getphdrnum =>
    refine hnext (x := elfGetphdrnum env e) (F := (· ≠ .assertion)) (hclass fun ec _ => ?_) h
    exact ensures_bind (hehdr ec false) fun _ _ h => h
  | update c =>
    cases c with
    | null => exact hnext (listed_elfUpdate_null hwf hl hstep) h
    | write => cases hop
  | getehdr => cases hop
  | setEhdr hdr => cases hop
  | getphdr => cases hop
  | setPhdr i p => cases hop
  | getshdrnum => cases hop
  | setShdr scn hdr => cases hop
  | putShdr scn hdr => cases hop
  | flagScn scn set => cases hop
  | getdata scn => cases hop
  | rawdata scn => cases hop
  | newdata scn => cases hop
  | setData scn j d => cases hop
  | flagLayout set => cases hop

/-- A new descriptor has an empty list. -/
theorem listed_openObject {c : Cmd} {im : Image} (hopen : openObject env c im = .ok (some e)) : Listed e := by
  unfold openObject at hopen
  split at hopen
  · cases hopen
    exact ⟨fun _ => rfl, fun hp => absurd (.inl rfl) hp, nofun, fun h => absurd rfl h⟩
  next hc =>
  split at hopen
  · cases hopen
  cases hm : libelfMemory im with
  | error err =>
    rw [hm] at hopen
    cases hopen
  | ok o =>
    rw [hm] at hopen
    cases o with
    | none => cases hopen
    | some e₀ =>
      obtain ⟨-, ec, -, -, rfl⟩ := libelfMemory_eq_some hm
      cases hopen
      exact .of_nil hc rfl (Option.some_ne_none ec) rfl

/-- What an application sees of the list: once it is whole, its entries have the indices below the
count, and `elf_getscn` finds a section exactly for these; and `elf_newscn` never asserts. -/
structure SectionList (env : Env) (e : Elf) : Prop where
  ndx : Whole e → e.eScn.map Scn.sNdx = List.range e.eNscn
  getscn : Whole e → ∀ i, (∃ k e', elfGetscn env i e = .ok k e') ↔ i < e.eNscn
  newscn : ListStep env e .newscn → elfNewscn env e ≠ .stop .assertion

theorem needSectionHeaders_whole {ec : ElfClass} (hw : Whole e) (h : Ehdr) :
    needSectionHeaders env ec h e = .ok () e := by
  unfold needSectionHeaders
  rw [if_neg]
  rintro ⟨hcmd, hload⟩
  rcases hw with hw | hw
  · exact hcmd hw
  · rw [hload] at hw
    cases hw

/-- A whole list has a section for each index below the count. -/
theorem Listed.findIdx?_isSome (hl : Listed e) (hw : Whole e) (i : Nat) :
    (e.eScn.findIdx? fun s => s.sNdx = i).isSome ↔ i < e.eNscn := by
  rw [List.findIdx?_isSome, List.any_eq_true, ← List.mem_range, ← hl.whole hw, indices, List.mem_map]
  simp only [decide_eq_true_eq]

/-- In a whole list the sections are found by the indices below the count. -/
theorem Listed.elfGetscn_iff (hwf : Wf e) (hl : Listed e) (hw : Whole e) (i : Nat) :
    (∃ k e', elfGetscn env i e = .ok k e') ↔ i < e.eNscn := by
  unfold elfGetscn withClass
  cases hc : e.eClass with
  | none =>
    have hn := hl.nscn_of_header hwf hw (hwf.unset hc).1
    simp [hn]
  | some ec =>
    dsimp only
    cases hh : e.eEhdr with
    | none =>
      -- a new object, whose header is made here
      have hcmd : e.eCmd = .write := hw.resolve_right fun h => hl.loaded h hh
      rw [hl.nscn_of_header hwf hw hh]
      refine ⟨?_, fun h => absurd h (Nat.not_lt_zero i)⟩
      rintro ⟨k, e', hx⟩
      obtain ⟨h, e₁, hehdr, hrest⟩ := bind_eq_ok.mp hx
      have hv : e.eVersion = evCurrent := by
        obtain ⟨-, hv, -, hfile⟩ := libelfEhdr_ok hehdr
        exact hfile.version.symm.trans hv
      rw [libelfEhdr_write (.inr hc) hv hh hcmd] at hehdr
      cases hehdr
      have hneed := @needSectionHeaders_whole env (((e.setClass ec).setEhdr
        (ehdrInit ec)).setFlags { e.eFlags with dirty := e.eFlags.dirty || false }) ec (.inl hcmd) (ehdrInit ec)
      rw [hneed, bind_ok] at hrest
      simp [(hwf.fresh hh).1] at hrest
    | some h =>
      rw [libelfEhdr_cached hc (hwf.opened (by simp [hh])) hh, bind_ok, needSectionHeaders_whole hw, bind_ok]
      rw [← hl.findIdx?_isSome hw]
      cases e.eScn.findIdx? fun s => s.sNdx = i with
      | none => simp
      | some k => simp

theorem Listed.sectionList (hwf : Wf e) (hl : Listed e) : SectionList env e := by
  refine ⟨hl.whole, fun hw i => hl.elfGetscn_iff hwf hw i, fun hstep hstop => ?_⟩
  have hx := listed_elfNewscn hwf hl hstep.1 hstep.2
  rw [hstop] at hx
  exact hx rfl

/-- In every run whose steps meet the condition, the list of sections goes with the count. -/
theorem section_list_run {c : Cmd} {im : Image} {e₀ : Elf} (hopen : openObject env c im = .ok (some e₀))
    {ops : List Op} (hops : ∀ op ∈ ops, op.onSections = true) (hsteps : Along (Op.step env) (ListStep env) e₀ ops)
    (hrun : runOps (Op.step env) e₀ ops = .ok e) : SectionList env e := by
  have hinv : Wf e ∧ Listed e :=
    @runOps_inv_along _ _ _ (fun e => Wf e ∧ Listed e) _ ops
      (fun op hop _ _ hinv hstep h => ⟨wf_step hinv.1 op h, listed_step hinv.1 hinv.2 (hops op hop) hstep h⟩)
      e₀ e ⟨wf_openObject hopen, listed_openObject hopen⟩ hsteps hrun
  exact hinv.2.sectionList hinv.1

end Runs

/-- An object that is written, with three sections and their numbers in the executable header. -/
def threeSections : List Op :=
  [.newehdr .elfclass64, .newscn, .newscn, .setshstrndx 2, .newphdr 1, .getphdrnum, .update .null, .getscn 2]

theorem threeSections_list : ∃ e₀ e, openObject plainEnv .write noImage = .ok (some e₀) ∧
    runOps (Op.step plainEnv) e₀ threeSections = .ok e ∧ e.eNscn = 3 ∧ SectionList plainEnv e := by
  have hall : ∃ e₀ e, openObject plainEnv .write noImage = .ok (some e₀) ∧
      runOps (Op.step plainEnv) e₀ threeSections = .ok e ∧
      (Along (Op.step plainEnv) (ListStep plainEnv) e₀ threeSections ∧ e.eNscn = 3) :=
    ⟨_, _, rfl, rfl, by decide +kernel⟩
  obtain ⟨e₀, e, hopen, hrun, hsteps, hn⟩ := hall
  exact ⟨e₀, e, hopen, hrun, hn, section_list_run hopen (by decide) hsteps hrun⟩

/-- A section table index that does not fit the executable header is stored in section header 0, which
is made for it but not counted. -/
theorem uncounted_section0 : ∃ e₀ e, openObject plainEnv .write noImage = .ok (some e₀) ∧
    runOps (Op.step plainEnv) e₀ [.newehdr .elfclass64, .setshstrndx 0xFF00] = .ok e ∧
    Whole e ∧ e.eScn.map Scn.sNdx ≠ List.range e.eNscn ∧ elfNewscn plainEnv e = .stop .assertion := by
  have hall : ∃ e₀ e, openObject plainEnv .write noImage = .ok (some e₀) ∧
      runOps (Op.step plainEnv) e₀ [.newehdr .elfclass64, .setshstrndx 0xFF00] = .ok e ∧
      (Whole e ∧ e.eScn.map Scn.sNdx ≠ List.range e.eNscn ∧ elfNewscn plainEnv e = .stop .assertion) :=
    ⟨_, _, rfl, rfl, by decide +kernel⟩
  exact hall

end LibElf.Toolchain
