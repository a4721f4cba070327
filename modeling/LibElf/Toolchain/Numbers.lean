import LibElf.Toolchain.SectionList

/-!
# The extended numbers of an object

The number of sections, the number of program headers and the index of the section name table have a
cache in the descriptor, which is all that their getters look at. `gelf_newphdr` and `elf_newscn` store
in it. `elf_setshstrndx` stores in the executable header and in section header 0, and not in the cache.

1. `TableIn` and `FileTable`, the section header table that `elf_getscn` reads in.
2. `Numbered`, the invariant, and `SameNumbers`, what most calls keep.
3. `KeepsNumbers`, and what each call of the API keeps.
-/

namespace LibElf.Toolchain

open Outcome

/-! ## The section header table of a file -/

/-- The section header table that the header announces is in the image, with `n` entries of the right size. -/
def TableIn (e : Elf) (ec : ElfClass) (h : Ehdr) (n : Nat) : Prop :=
  ec.get h.eShoff ≤ e.rawsize ∧ h.eShentsize.toNat = fsize .shdr ec ∧ fsize .shdr ec * n ≤ e.rawsize - ec.get h.eShoff

instance (e : Elf) (ec : ElfClass) (h : Ehdr) (n : Nat) : Decidable (TableIn e ec h n) :=
  inferInstanceAs (Decidable (_ ∧ _))

/-- The number of sections that the image announces. -/
def fileNscn (env : Env) (ec : ElfClass) (e : Elf) : Nat :=
  if isExtended ec (fileEhdr env ec e) then ec.get (fileShdr0 env ec e).shSize
  else (fileEhdr env ec e).eShnum.toNat

/-- The header of a file that is read announces no sections, or a table in the image. -/
def FileTable (env : Env) (e : Elf) : Prop :=
  ∀ ec ∈ e.eClass, e.eCmd ≠ .write → fsize .ehdr ec ≤ e.rawsize → ¬ badCounts ec (fileEhdr env ec e) →
    (isExtended ec (fileEhdr env ec e) →
      wrap (ec.get (fileEhdr env ec e).eShoff + fsize .shdr ec) ≤ e.rawsize) →
    fileNscn env ec e = 0 ∨ TableIn e ec (fileEhdr env ec e) (fileNscn env ec e)

instance (env : Env) (e : Elf) : Decidable (FileTable env e) :=
  inferInstanceAs (Decidable (∀ ec ∈ e.eClass, _))

/-- Where the section headers are not loaded yet, they can be. -/
def Loadable (e : Elf) : Prop :=
  ¬ Whole e → ∀ ec ∈ e.eClass, ∀ h ∈ e.eEhdr, e.eNscn = 0 ∨ TableIn e ec h e.eNscn

/-- The number of sections is that of a table, also before the header is read. -/
structure Numbered (env : Env) (e : Elf) : Prop where
  blank : e.eEhdr = none → e.eNscn = 0
  file : e.eEhdr = none → FileTable env e
  counts : Scn0Counts env e
  loadable : Loadable e

/-- The two numbers of the cache are the same, and the section headers are as good as before. -/
structure SameNumbers (e e' : Elf) : Prop where
  nphdr : e'.eNphdr = e.eNphdr
  strndx : e'.eStrndx = e.eStrndx
  ehdr : e.eEhdr ≠ none → e'.eEhdr ≠ none
  whole : Whole e → Whole e'
  loadable : Loadable e → Loadable e'

namespace SameNumbers

variable {e e' e'' : Elf}

theorem refl (e : Elf) : SameNumbers e e := ⟨rfl, rfl, id, id, id⟩

theorem trans (h : SameNumbers e e') (h' : SameNumbers e' e'') : SameNumbers e e'' :=
  ⟨h'.nphdr.trans h.nphdr, h'.strndx.trans h.strndx, fun hh => h'.ehdr (h.ehdr hh),
    fun hw => h'.whole (h.whole hw), fun hl => h'.loadable (h.loadable hl)⟩

/-- Once the section headers are there, nothing is left to load. -/
theorem of_whole (hw : Whole e') (hp : e'.eNphdr = e.eNphdr) (hx : e'.eStrndx = e.eStrndx)
    (hh : e.eEhdr ≠ none → e'.eEhdr ≠ none) : SameNumbers e e' :=
  ⟨hp, hx, hh, fun _ => hw, fun _ hn => absurd hw hn⟩

theorem numbered {env : Env} (h : SameNumbers e e') (hh : e.eEhdr ≠ none) (hn : Numbered env e) :
    Numbered env e' :=
  ⟨fun hnone => absurd hnone (h.ehdr hh), fun hnone => absurd hnone (h.ehdr hh),
    fun _ _ hnone => absurd hnone (h.ehdr hh), h.loadable hn.loadable⟩

end SameNumbers

/-- What a call keeps that may read in the executable header first. -/
def KeepsNumbers (env : Env) (e e' : Elf) : Prop := Numbered env e' ∧ (e.eEhdr ≠ none → SameNumbers e e')

theorem KeepsNumbers.refl {env : Env} {e : Elf} (hn : Numbered env e) : KeepsNumbers env e e := ⟨hn, fun _ => SameNumbers.refl e⟩

theorem KeepsNumbers.andThen {env : Env} {e e₁ e' : Elf} (h : KeepsNumbers env e e₁) (hh : e₁.eEhdr ≠ none)
    (hs : SameNumbers e₁ e') : KeepsNumbers env e e' :=
  ⟨hs.numbered hh h.1, fun hne => (h.2 hne).trans hs⟩

/-! ## What the calls keep -/

theorem shentsize_toNat (ec : ElfClass) : (UInt16.ofNat (fsize .shdr ec)).toNat = fsize .shdr ec := by
  cases ec <;> decide

section Calls

-- the sizes are sums over member lists, which must not be evaluated
attribute [local irreducible] fsize msize

variable {env : Env} {ec : ElfClass} {e e' : Elf}

theorem numbered_fresh (hnone : e.eEhdr = none) (hnone' : e'.eEhdr = none) (hn : e'.eNscn = e.eNscn)
    (hc : e'.eClass = e.eClass ∨ e.eCmd = .write) (hcmd : e'.eCmd = e.eCmd) (hraw : e'.eRawfile = e.eRawfile)
    (horder : e'.eByteorder = e.eByteorder) (h : Numbered env e) : Numbered env e' := by
  have hsize : e'.rawsize = e.rawsize := by rw [Elf.rawsize, Elf.rawsize, hraw]
  have hbytes : e'.rawbytes = e.rawbytes := by rw [Elf.rawbytes, Elf.rawbytes, hraw]
  have hswaps : e'.swaps env = e.swaps env := by rw [Elf.swaps, Elf.swaps, horder]
  have hhdr : ∀ ec, fileEhdr env ec e' = fileEhdr env ec e := fun ec => by rw [fileEhdr, fileEhdr, hbytes, hswaps]
  have hshdr : ∀ ec, fileShdr0 env ec e' = fileShdr0 env ec e := fun ec => by
    rw [fileShdr0, fileShdr0, hhdr, hbytes, hswaps]
  have hec : ∀ {ec}, ec ∈ e'.eClass → e'.eCmd ≠ .write → ec ∈ e.eClass := fun hec hw =>
    hc.elim (fun hc => hc ▸ hec) fun hc => absurd (hcmd.trans hc) hw
  refine ⟨fun _ => hn.trans (h.blank hnone), fun _ ec hmem hw => ?_, fun ec hmem _ hw => ?_, fun _ ec _ hdr hh => ?_⟩
  · have hfile := h.file hnone ec (hec hmem hw) (hcmd ▸ hw)
    rw [fileNscn, hhdr, hshdr, TableIn, hsize]
    exact hfile
  · have hcounts := h.counts ec (hec hmem hw) hnone (hcmd ▸ hw)
    rw [hhdr, hshdr, hsize]
    exact hcounts
  · rw [hnone'] at hh
    cases hh

/-- The executable header is read in with the number of sections that the file announces. -/
theorem numbered_libelfEhdr (hwf : Wf e) (hl : Listed e) (hn : Numbered env e) (allocate : Bool) :
    (libelfEhdr env ec allocate e).Ensures (fun _ e' => Numbered env e' ∧ (e.eEhdr ≠ none → e' = e))
      (fun e' => Numbered env e' ∧ (e.eEhdr ≠ none → e' = e)) (fun _ => True) := by
  cases hh : e.eEhdr with
  | some h =>
    by_cases hc : e.eClass = some ec
    · rw [libelfEhdr_cached hc (hwf.opened (by simp [hh])) hh]
      exact ⟨hn, fun _ => rfl⟩
    · have hset : e.eClass ≠ none := fun hnone => by
        rw [(hwf.unset hnone).1] at hh
        cases hh
      unfold libelfEhdr
      rw [if_pos ⟨hset, hc⟩]
      exact ⟨hn, fun _ => rfl⟩
  | none =>
  have hnew : ∀ {e'}, Numbered env e' → Numbered env e' ∧ ((none : Option Ehdr) ≠ none → e' = e) :=
    fun h => ⟨h, fun h => absurd rfl h⟩
  unfold libelfEhdr
  split
  · exact hnew hn
  next hclass =>
  split
  · exact hnew hn
  dsimp only
  split
  · next h hsome => cases hsome.symm.trans (hh : (e.setClass ec).eEhdr = none)
  split
  · next hshort =>
    refine hnew (numbered_fresh hh hh rfl (.inl ?_) rfl rfl rfl hn)
    have hcmd : e.eCmd ≠ .write := hshort.1
    exact (Decidable.not_not.mp fun h => hclass ⟨hl.readable hcmd, fun h' => h h'.symm⟩)
  next hlong =>
  -- with a header but no sections there is nothing to load
  have hzero : ∀ {e' : Elf}, e'.eEhdr ≠ none → e'.eNscn = 0 → Numbered env e' := fun h₁ h₂ =>
    ⟨fun _ => h₂, fun h => absurd h h₁, fun _ _ h => absurd h h₁, fun _ _ _ _ _ => .inl h₂⟩
  have hblank : e.eNscn = 0 := hn.blank hh
  split
  · exact hnew (hzero (Option.some_ne_none _) hblank)
  next hcmd =>
  have hcmd : e.eCmd ≠ .write := hcmd
  have hec : e.eClass = some ec := Decidable.not_not.mp fun h => hclass ⟨hl.readable hcmd, h⟩
  have hfile := hn.file hh ec hec hcmd (Nat.le_of_not_lt fun h => hlong ⟨hcmd, h⟩)
  unfold Elf.read
  refine ensures_bind (ensures_readAt (F := fun _ => True) trivial) ?_
  rintro bs _ ⟨rfl, rfl⟩
  generalize hofFile : Ehdr.ofFile env.host _ ec _ = h
  have hhdr : fileEhdr env ec e = h := hofFile
  unfold fileNscn at hfile
  rw [hhdr] at hfile
  split
  · exact hnew (hzero (Option.some_ne_none _) hblank)
  next hbad =>
  have hfile := hfile hbad
  split
  · next hext =>
    refine ensures_bind (Q := fun _ e' => Numbered env e' ∧ ((none : Option Ehdr) ≠ none → e' = e)) ?_ fun _ _ h => h
    unfold loadExtended
    split
    · trivial
    split
    · exact hnew (hzero (Option.some_ne_none _) hblank)
    next hroom =>
    refine ensures_bind (ensures_readAt (F := fun _ => True) trivial) ?_
    rintro bs _ ⟨rfl, rfl⟩
    have hfile := hfile fun _ => Nat.le_of_not_lt hroom
    rw [if_pos hext] at hfile
    generalize hofFile₀ : Shdr.ofFile env.host _ ec _ = shdr
    have hshdr : fileShdr0 env ec e = shdr := by
      rw [fileShdr0, hhdr]
      exact hofFile₀
    rw [hshdr] at hfile
    dsimp only
    split
    · exact hnew (hzero (Option.some_ne_none _) hblank)
    · refine hnew ⟨(by rintro ⟨⟩), (by rintro ⟨⟩), fun _ _ => (by rintro ⟨⟩), fun _ ec' hc' h' hh' => ?_⟩
      cases hc'
      cases hh'
      exact hfile
  · next hext =>
    have hfile := hfile fun h => absurd h hext
    rw [if_neg hext] at hfile
    refine hnew ⟨(by rintro ⟨⟩), (by rintro ⟨⟩), fun _ _ => (by rintro ⟨⟩), fun _ ec' hc' h' hh' => ?_⟩
    cases hc'
    cases hh'
    exact hfile

/-! ### Calls on an object with a header -/

/-- A store in the executable header leaves the place and the entry size of the section header table. -/
theorem sameNumbers_updEhdr {upd : Ehdr → Ehdr}
    (hupd : ∀ h, (upd h).eShoff = h.eShoff ∧ (upd h).eShentsize = h.eShentsize) : SameNumbers e (updEhdr upd e) := by
  unfold updEhdr
  split
  · exact SameNumbers.refl e
  next h hh =>
  refine ⟨rfl, rfl, fun _ => Option.some_ne_none _, id, fun hl hw ec hec h' hh' => ?_⟩
  cases hh'
  rw [TableIn, (hupd h).1, (hupd h).2]
  exact hl hw ec hec h hh

theorem sameNumbers_setScn0 (upd : Shdr → Shdr) :
    (setScn0 upd e).Ensures (fun _ => SameNumbers e) (fun _ => False) (fun _ => True) := by
  have hfirst : ∃ l, getscn0 e = e.setScn l := by
    unfold getscn0
    split
    · exact ⟨_, rfl⟩
    · exact ⟨e.eScn, rfl⟩
  obtain ⟨l, hl⟩ := hfirst
  unfold setScn0
  rw [hl]
  split
  · exact SameNumbers.refl e
  split
  · trivial
  · exact ⟨rfl, rfl, id, id, id⟩

/-- The setters of extended numbers store in section header 0 and in the executable header. -/
theorem sameNumbers_extended {upd : Shdr → Shdr} {large : Prop} [Decidable large] {set set' : Ehdr → Ehdr}
    (hset : ∀ h, (set h).eShoff = h.eShoff ∧ (set h).eShentsize = h.eShentsize)
    (hset' : ∀ h, (set' h).eShoff = h.eShoff ∧ (set' h).eShentsize = h.eShentsize) :
    (if large then (setScn0 upd e).bind fun _ e => (.ok () (updEhdr set e) : Call Unit)
      else .ok () (updEhdr set' e)).Ensures (fun _ => SameNumbers e) (SameNumbers e) (fun _ => True) := by
  split
  · refine ensures_bind (ensures_mono (sameNumbers_setScn0 upd) (fun _ _ h => h) (fun _ h => h.elim)
      fun _ h => h) ?_
    exact fun _ e₁ h => h.trans (sameNumbers_updEhdr hset)
  · exact sameNumbers_updEhdr hset'

theorem sameNumbers_setshstrndx (n : Nat) :
    (setshstrndx n e).Ensures (fun _ => SameNumbers e) (SameNumbers e) (fun _ => True) :=
  sameNumbers_extended (fun _ => ⟨rfl, rfl⟩) fun _ => ⟨rfl, rfl⟩

theorem sameNumbers_setphnum (n : Nat) :
    (setphnum n e).Ensures (fun _ => SameNumbers e) (SameNumbers e) (fun _ => True) :=
  sameNumbers_extended (fun _ => ⟨rfl, rfl⟩) fun _ => ⟨rfl, rfl⟩

theorem sameNumbers_setshnum (n : Nat) :
    (setshnum ec n e).Ensures (fun _ => SameNumbers e) (SameNumbers e) (fun _ => True) :=
  sameNumbers_extended (fun _ => ⟨rfl, rfl⟩) fun _ => ⟨rfl, rfl⟩

/-- The layout gives section headers the size that the loader wants. -/
theorem sameNumbers_prepareEhdr (hc : e.eClass = some ec) {h : Ehdr} (hh : e.eEhdr = some h) :
    (prepareEhdr ec h e).Ensures (fun _ => SameNumbers e) (SameNumbers e) (fun _ => True) := by
  have hself := SameNumbers.refl e
  unfold prepareEhdr
  generalize (if h.eVersion.toNat = 0 then evCurrent else h.eVersion.toNat) = version
  dsimp only
  split
  · exact hself
  split
  · exact hself
  split
  · exact hself
  split
  · exact hself
  refine ⟨rfl, rfl, fun _ => Option.some_ne_none _, id, fun hl hw ec' hc' h' hh' => ?_⟩
  cases hc.symm.trans hc'
  cases hh'
  rcases hl hw ec hc h hh with hzero | ⟨hoff, -, hroom⟩
  · exact .inl hzero
  · exact .inr ⟨hoff, shentsize_toNat ec, hroom⟩

theorem sameNumbers_layoutPhdr (hc : e.eClass = some ec) (hv : e.eVersion = evCurrent) (hh : e.eEhdr ≠ none)
    (phoff rc p : Nat) (exs : List Extent) :
    (layoutPhdr env ec phoff rc p exs e).Ensures (fun _ => SameNumbers e) (SameNumbers e) (fun _ => True) := by
  have hself := SameNumbers.refl e
  obtain ⟨h, hh⟩ := Option.ne_none_iff_exists'.mp hh
  unfold layoutPhdr
  split
  · exact hself
  dsimp only
  split
  · exact hself
  refine ensures_bind (Q := fun _ => SameNumbers e) (ensures_ignore ?_) ?_
  · refine ensures_mono (getphdr_frame hc hv hh) ?_ (fun e' h => h ▸ hself) fun _ h => h
    rintro ps _ ⟨rfl, -⟩
    exact ⟨rfl, rfl, id, id, id⟩
  · rintro _ e₁ hs
    split <;> exact hs

theorem sameNumbers_loadLoop (n : Nat) : ∀ (src ndx : Nat) (e : Elf),
    (loadLoop env ec n src ndx e).Ensures
      (fun _ e' => e'.eNphdr = e.eNphdr ∧ e'.eStrndx = e.eStrndx ∧ e'.eEhdr = e.eEhdr)
      (fun _ => False) (fun _ => True) := by
  induction n with
  | zero => exact fun _ _ _ => ⟨rfl, rfl, rfl⟩
  | succ n ih =>
    intro src ndx e
    unfold loadLoop Elf.read
    refine ensures_bind (ensures_readAt (F := fun _ => True) trivial) ?_
    rintro bs _ ⟨-, rfl⟩
    exact ih _ _ _

theorem sameNumbers_needSectionHeaders (h : Ehdr) :
    (needSectionHeaders env ec h e).Ensures (fun _ e' => SameNumbers e e' ∧ Whole e') (fun e' => e' = e)
      (fun _ => True) := by
  unfold needSectionHeaders
  split
  swap
  · next hneed =>
    refine ⟨SameNumbers.refl e, ?_⟩
    by_contra hw
    exact hneed ⟨fun h => hw (.inl h), Bool.eq_false_iff.mpr fun h => hw (.inr h)⟩
  unfold loadSectionHeaders
  split
  · trivial
  dsimp only
  split
  · exact rfl
  refine ensures_bind (Q := fun _ e' => e'.eNphdr = e.eNphdr ∧ e'.eStrndx = e.eStrndx ∧ e'.eEhdr = e.eEhdr) ?_ ?_
  · have hloop := fun n src ndx => ensures_mono (@sameNumbers_loadLoop env ec n src ndx e)
      (fun _ _ h => h) (fun e' (h : False) => (h.elim : e' = e)) fun _ h => h
    split
    · exact hloop _ _ _
    · exact hloop _ _ _
    · trivial
  · rintro _ e₁ ⟨hp, hx, hh⟩
    have hw : Whole (e₁.setFlags { e₁.eFlags with shdrsLoaded := true }) := .inr rfl
    exact ⟨.of_whole hw hp hx fun hne => by rw [Elf.setFlags_eEhdr, hh]; exact hne, hw⟩

/-- The header call, with what it keeps. -/
theorem keepsNumbers_ehdr (hwf : Wf e) (hl : Listed e) (hn : Numbered env e) (allocate : Bool) :
    (libelfEhdr env ec allocate e).Ensures
      (fun h e' => KeepsNumbers env e e' ∧ e'.eEhdr = some h ∧ e'.eClass = some ec ∧ e'.eVersion = evCurrent) (KeepsNumbers env e)
      (fun _ => True) := by
  have hkept : ∀ {e' : Elf}, Numbered env e' ∧ (e.eEhdr ≠ none → e' = e) → KeepsNumbers env e e' := by
    rintro e' ⟨hn', heq⟩
    refine ⟨hn', fun hh => ?_⟩
    rw [heq hh]
    exact SameNumbers.refl e
  refine ensures_mono (ensures_and_ok (P := fun h e' => e'.eEhdr = some h ∧ e'.eClass = some ec ∧
    e'.eVersion = evCurrent) (numbered_libelfEhdr hwf hl hn allocate) fun h e' hx => ?_)
    (fun _ _ h => ⟨hkept h.1, h.2⟩) (fun _ h => hkept h) fun _ h => h
  obtain ⟨hc, hv, hh, -⟩ := libelfEhdr_ok hx
  exact ⟨hh, hc, hv⟩

/-- The layout keeps the two numbers, and where it fails before the section headers are there, they can be
loaded as before. -/
theorem keepsNumbers_resyncElf (hwf : Wf e) (hl : Listed e) (hn : Numbered env e) :
    (resyncElf env ec e).Ensures (fun _ => KeepsNumbers env e) (KeepsNumbers env e) (fun _ => True) := by
  unfold resyncElf
  refine ensures_bind (keepsNumbers_ehdr hwf hl hn false) ?_
  rintro h₀ e₁ ⟨hk₁, hh₁, hc₁, hv₁⟩
  have hne₁ : e₁.eEhdr ≠ none := by
    rw [hh₁]
    exact Option.some_ne_none h₀
  -- from here on the header is there
  refine ensures_mono (Q := fun _ => SameNumbers e₁) (E := SameNumbers e₁) ?_ (fun _ _ h => hk₁.andThen hne₁ h)
    (fun _ h => hk₁.andThen hne₁ h) fun _ h => h
  refine ensures_bind (ensures_mono (ensures_and (sameNumbers_prepareEhdr hc₁ hh₁) (sameList_prepareEhdr h₀))
    (fun _ _ h => h) (fun _ h => h.1) fun _ h => h.1) ?_
  rintro h e₂ ⟨hs₂, -, -, hh₂, hc₂, hv₂⟩
  dsimp only
  refine ensures_bind (ensures_mono (sameNumbers_layoutPhdr (hc₂.trans hc₁) (hv₂.trans hv₁) hh₂ _ _ _ _)
    (fun _ _ h => hs₂.trans h) (fun _ h => hs₂.trans h) fun _ h => h) ?_
  rintro ⟨phoff, rc₁, exs₁⟩ e₃ hs₃
  refine ensures_bind (Q := fun _ e' => SameNumbers e₁ e' ∧ Whole e') (ensures_mono (sameNumbers_needSectionHeaders h)
    (fun _ _ h => ⟨hs₃.trans h.1, h.2⟩) (fun _ h => h ▸ hs₃) fun _ h => h) ?_
  rintro _ e₄ ⟨hs₄, hw₄⟩
  have hput₄ : ∀ ss, SameNumbers e₁ (e₄.setScn ss) := fun ss => hs₄.trans ⟨rfl, rfl, id, id, id⟩
  refine ensures_bind (Q := fun _ e' => SameNumbers e₁ e' ∧ Whole e') ?_ ?_
  · refine ensures_within ?_
    cases resyncSections env e₄ ec 0 rc₁ exs₁ e₄.eScn with
    | ok p ss => exact ⟨hput₄ ss, hw₄⟩
    | err er ss => exact hput₄ ss
    | stop f => trivial
  rintro ⟨rc₂, exs₂⟩ e₅ ⟨hs₅, hw₅⟩
  dsimp only
  split
  · exact hs₅
  refine ensures_bind (ensures_mono (sameList_layoutShdr _ rc₂ _ exs₂) (fun _ _ h => h)
    (fun e' h => h ▸ hs₅) fun _ h => h) ?_
  rintro ⟨shoff, rc₃, exs₃⟩ e₆ rfl
  refine ensures_bind (ensures_mono (sameNumbers_setphnum _) (fun _ _ h => h) (fun _ h => hs₅.trans h) fun _ h => h) ?_
  rintro _ e₇ hs₇
  refine ensures_bind (ensures_mono (sameNumbers_setshnum _) (fun _ _ h => h)
    (fun _ h => (hs₅.trans hs₇).trans h) fun _ h => h) ?_
  rintro _ e₈ hs₈
  have hs := (hs₅.trans hs₇).trans hs₈
  have hw₈ := hs₈.whole (hs₇.whole hw₅)
  rw [ensures_ok]
  split
  · exact hs
  · refine hs.trans ?_
    unfold updEhdr
    split
    · exact SameNumbers.refl e₈
    · exact .of_whole hw₈ rfl rfl fun _ => Option.some_ne_none _

/-! ### Calls of the API -/

theorem keepsNumbers_elfUpdate_null (hwf : Wf e) (hl : Listed e) (hn : Numbered env e) :
    (elfUpdate env .null e).Ensures (fun _ => KeepsNumbers env e) (KeepsNumbers env e) (fun _ => True) := by
  have hcur : KeepsNumbers env e (currentVersion e) := by
    unfold currentVersion
    split
    · next hzero =>
      have hnone : e.eEhdr = none := by
        by_contra hh
        exact absurd (hwf.opened hh) (by rw [hzero]; decide)
      exact ⟨numbered_fresh hnone hnone rfl (.inl rfl) rfl rfl rfl hn, fun hh => absurd hnone hh⟩
    · exact KeepsNumbers.refl hn
  have hput : ∀ {e'}, KeepsNumbers env (currentVersion e) e' → KeepsNumbers env e e' := by
    rintro e' ⟨hn', hs⟩
    refine ⟨hn', fun hh => (hcur.2 hh).trans (hs ((hcur.2 hh).ehdr hh))⟩
  unfold elfUpdate
  split
  · exact KeepsNumbers.refl hn
  next ec hc =>
  dsimp only
  rw [show (if e.eVersion = 0 then e.setVersion evCurrent else e) = currentVersion e from rfl]
  split
  · exact hcur
  refine ensures_bind (ensures_mono (keepsNumbers_resyncElf (wf_currentVersion hwf) (hl.of_same (sameList_currentVersion e))
    hcur.1) (fun _ _ h => hput h) (fun _ h => hput h) fun _ h => h) ?_
  rintro ⟨rc, exs⟩ e₂ hk
  dsimp only
  split
  · exact hk
  split
  · exact hk
  · next h => exact absurd rfl h

theorem keepsNumbers_elfNewscn (hwf : Wf e) (hl : Listed e) (hn : Numbered env e) :
    (elfNewscn env e).Ensures (fun _ => KeepsNumbers env e) (KeepsNumbers env e) (fun _ => True) := by
  unfold elfNewscn
  split
  · exact KeepsNumbers.refl hn
  refine ensures_bind (keepsNumbers_ehdr hwf hl hn false) ?_
  rintro h e₁ ⟨hk₁, hh₁, -, -⟩
  have hne₁ : e₁.eEhdr ≠ none := by
    rw [hh₁]
    exact Option.some_ne_none h
  refine ensures_bind (ensures_mono (sameNumbers_needSectionHeaders h) (fun _ _ h => h)
    (fun _ h => h ▸ hk₁) fun _ h => h) ?_
  rintro _ e₂ ⟨hs₂, hw₂⟩
  split
  · trivial
  dsimp only
  generalize hfirst : (if e₂.eScn = [] then (e₂.setScn [allocateScn 0]).setCounts e₂.eNphdr 1 e₂.eStrndx
    else e₂) = e₃
  have hs₃ : SameNumbers e₂ e₃ ∧ Whole e₃ := by
    subst hfirst
    split
    · exact ⟨.of_whole hw₂ rfl rfl id, hw₂⟩
    · exact ⟨SameNumbers.refl e₂, hw₂⟩
  split
  · trivial
  · exact hk₁.andThen hne₁ ((hs₂.trans hs₃.1).trans (.of_whole hs₃.2 rfl rfl id))

/-- The setter of the index leaves the cache as it is. -/
theorem keepsNumbers_elfSetshstrndx (hwf : Wf e) (hl : Listed e) (hn : Numbered env e) (n : Nat) :
    (elfSetshstrndx env n e).Ensures
      (fun _ e' => KeepsNumbers env e e' ∧ e'.eEhdr ≠ none ∧ (withHeader env e).eEhdr ≠ none ∧
        e'.eStrndx = (withHeader env e).eStrndx) (KeepsNumbers env e) (fun _ => True) := by
  unfold elfSetshstrndx withClass
  split
  · exact KeepsNumbers.refl hn
  next ec hec =>
  have hx := @keepsNumbers_ehdr env ec e hwf hl hn false
  dsimp only
  split
  · trivial
  · next hcall =>
    rw [hcall] at hx
    exact hx
  · next h e₁ hcall =>
    rw [hcall] at hx
    obtain ⟨hk₁, hh₁, -, -⟩ := hx
    have hne₁ : e₁.eEhdr ≠ none := by
      rw [hh₁]
      exact Option.some_ne_none h
    rw [withHeader_of_ok hec hcall]
    exact ensures_mono (sameNumbers_setshstrndx n)
      (fun _ _ hs => ⟨hk₁.andThen hne₁ hs, hs.ehdr hne₁, hne₁, hs.strndx⟩) (fun _ hs => hk₁.andThen hne₁ hs)
      fun _ h => h

/-- A new program header table is counted. -/
theorem numbered_gelfNewphdr (hwf : Wf e) (hl : Listed e) (hn : Numbered env e) (count : Nat) :
    (gelfNewphdr env count e).Ensures
      (fun _ e' => Numbered env e' ∧ e'.eEhdr ≠ none ∧ e'.eNphdr = count ∧
        (e.eEhdr ≠ none → e'.eStrndx = e.eStrndx)) (KeepsNumbers env e) (fun _ => True) := by
  unfold gelfNewphdr newphdr
  split
  · trivial
  next ec hec =>
  have hx := @keepsNumbers_ehdr env ec e hwf hl hn false
  split
  · trivial
  · next hcall =>
    rw [hcall] at hx
    exact hx
  · next h e₁ hcall =>
    rw [hcall] at hx
    obtain ⟨hk₁, hh₁, -, -⟩ := hx
    have hne₁ : e₁.eEhdr ≠ none := by
      rw [hh₁]
      exact Option.some_ne_none h
    have hnum : ∀ {e' : Elf}, e'.eEhdr = e₁.eEhdr → Loadable e' → Numbered env e' := fun {e'} hh hl =>
      have hnone : ∀ {p : Prop}, e'.eEhdr = none → p := fun hnone => absurd (hh.symm.trans hnone) hne₁
      ⟨hnone, hnone, fun _ _ => hnone, hl⟩
    split
    · exact hk₁
    split
    · next hzero =>
      exact ⟨hnum rfl hk₁.1.loadable, hne₁, hzero.symm, fun hh => (hk₁.2 hh).strndx⟩
    · exact ⟨hnum rfl hk₁.1.loadable, hne₁, rfl, fun hh => (hk₁.2 hh).strndx⟩

end Calls

end LibElf.Toolchain
