import LibElf.Toolchain.FailedUpdate
import LibElf.Toolchain.ReadSafety

/-!
# The divisors of the layout

`_libelf_compute_section_extents` divides by the alignment of a section, by the alignment of the type of its
contents and by the memory size of the type of each descriptor. Each of them is looked up in a table that has
zeros.

1. `Sized`, descriptors whose types have a size as far as they are looked at, and `checkData_division_iff`.
2. `SoundDivisors`, what the layout promises of one section, and `soundDivisors_iff`.
3. `UpdateReaches`, the sections that `elf_update` gets to, and `update_divisors_iff`.
-/

namespace LibElf.Toolchain

open Outcome

/-! ## The descriptors -/

section Data

variable (e : Elf) (ec : ElfClass)

/-- A descriptor whose size is divided by zero. -/
def unsized (d : ElfData) : Bool :=
  match d.dType with
  | none => false
  | some t => decide (d.dVersion = e.eVersion ∧ isPow2 d.dAlign.toNat = true ∧ msize t ec = 0)

/-- The first descriptor that is not accepted, if there is one, is not of a type without a size. -/
def Sized (ds : List ElfData) : Prop := ∀ d ∈ ds.find? fun d => !dataPasses e ec d, unsized e ec d = false

instance (ds : List ElfData) : Decidable (Sized e ec ds) :=
  match h : ds.find? fun d => !dataPasses e ec d with
  | none => isTrue fun d hd => by rw [h] at hd; cases hd
  | some d => decidable_of_iff (unsized e ec d = false) (by unfold Sized; rw [h]; simp)

variable {e ec}

theorem sized_cons {d : ElfData} {ds : List ElfData} :
    Sized e ec (d :: ds) ↔ if dataPasses e ec d then Sized e ec ds else unsized e ec d = false := by
  unfold Sized
  rw [List.find?_cons]
  cases dataPasses e ec d with
  | true => rfl
  | false => simp

/-- The loop over the descriptors divides by zero where one of a type without a size is looked at. -/
theorem checkData_division_iff (ds : List ElfData) : ∀ size align,
    checkData e ec size align ds = .stop .division ↔ ¬ Sized e ec ds := by
  induction ds with
  | nil => exact fun _ _ => iff_of_false (by rintro ⟨⟩) (not_not.mpr (by rintro _ ⟨⟩))
  | cons d ds ih =>
    intro size align
    rw [sized_cons, checkData]
    cases ht : d.dType with
    | none =>
      have hrefused : dataPasses e ec d = false := by simp [dataPasses, dataOk, ht]
      have hsized : unsized e ec d = false := by simp [unsized, ht]
      rw [hrefused, if_neg Bool.false_ne_true]
      exact iff_of_false (by rintro ⟨⟩) (not_not.mpr hsized)
    | some t =>
      have hok : dataOk e ec d = decide (d.dVersion = e.eVersion ∧ isPow2 d.dAlign.toNat = true ∧
          0 < msize t ec ∧ d.dSize.toNat % msize t ec = 0) := by simp only [dataOk, ht]
      have huns : unsized e ec d = decide (d.dVersion = e.eVersion ∧ isPow2 d.dAlign.toNat = true ∧
          msize t ec = 0) := by simp only [unsized, ht]
      dsimp only
      -- the checks of the loop, one after the other
      by_cases hver : d.dVersion = e.eVersion
      swap
      · simp [hver, hok, huns, dataPasses]
      rw [if_neg (not_not.mpr hver)]
      by_cases hpow : isPow2 d.dAlign.toNat = true
      swap
      · simp [hpow, hok, huns, dataPasses]
      rw [if_neg (by rw [hpow]; exact Bool.noConfusion)]
      by_cases hzero : msize t ec = 0
      · simp [hver, hpow, hzero, hok, huns, dataPasses]
      rw [if_neg hzero]
      have hsized : unsized e ec d = false := by simp [huns, hzero]
      by_cases hsize : d.dSize.toNat % msize t ec = 0
      swap
      · simp [hsize, hok, hsized, dataPasses]
      rw [if_neg (not_not.mpr hsize)]
      have hdata : dataOk e ec d = true := by simp [hok, hver, hpow, hsize, Nat.pos_of_ne_zero hzero]
      cases hlay : e.eFlags.layout with
      | true =>
        rw [if_pos rfl]
        by_cases hoff : d.dOff.toNat &&& (d.dAlign.toNat - 1) = 0
        · have hpass : dataPasses e ec d = true := by simp [dataPasses, hdata, hoff]
          rw [if_neg (not_not.mpr hoff), within_eq_stop, hpass, if_pos rfl]
          exact ih _ _
        · have hpass : dataPasses e ec d = false := by simp [dataPasses, hlay, hoff]
          rw [if_pos hoff, hpass, if_neg Bool.false_ne_true]
          exact iff_of_false (by rintro ⟨⟩) (not_not.mpr hsized)
      | false =>
        have hpass : dataPasses e ec d = true := by simp [dataPasses, hdata, hlay]
        rw [if_neg Bool.false_ne_true, within_eq_stop, hpass, if_pos rfl]
        exact ih _ _

/-- No descriptor is refused for the type of its section. -/
theorem checkData_err_ne_section (ds : List ElfData) : ∀ {size align : Nat} {err : ElfError} {ds' : List ElfData},
    checkData e ec size align ds = .err err ds' → err ≠ .SECTION := by
  induction ds with
  | nil => exact nofun
  | cons d ds ih =>
    intro size align err ds' h
    unfold checkData at h
    split at h
    · cases h
      exact nofun
    split at h
    · cases h
      exact nofun
    split at h
    · cases h
      exact nofun
    split at h
    · cases h
    split at h
    · cases h
      exact nofun
    split at h
    · split at h
      · cases h
        exact nofun
      · obtain ⟨_, hrest, _⟩ := within_eq_err.mp h
        exact ih hrest
    · obtain ⟨_, hrest, _⟩ := within_eq_err.mp h
      exact ih hrest

end Data

/-! ## One section -/

section Section

variable (env : Env) (e : Elf) (ec : ElfClass)

/-- The layout of a section divides by no zero, and refuses the section when its type is not known. -/
structure SoundDivisors (rc : Nat) (s : Scn) : Prop where
  divisors : computeSectionExtents env e ec rc s ≠ .stop .division
  unknown : xlateShtype s.shdr.shType = none → ∃ s', computeSectionExtents env e ec rc s = .err .SECTION s'

/-- Sections whose type is known, and whose descriptors are of types with a size. A section of any other type is
noticed only where its contents are read in. -/
def Divisible (s : Scn) : Prop :=
  if xlateShtype s.shdr.shType = none then
    s.sData = [] ∧ s.sDirty = true ∧ e.eCmd ≠ .write ∧ e.eRawfile ≠ none
  else Sized e ec s.sData

instance (s : Scn) : Decidable (Divisible e ec s) := inferInstanceAs (Decidable (ite _ _ _))

variable {env e ec}

theorem falign_pos_of_known {sht : UInt32} {t : ElfType} (h : xlateShtype sht = some t) :
    0 < falign (some t) ec := by
  have hcases : ∀ p ∈ shtypeCases, 0 < falign (some p.2) ec := by
    cases ec <;> decide
  unfold xlateShtype at h
  split at h
  · next p hfind =>
    obtain rfl := Option.some.inj h
    exact hcases p (List.mem_of_find?_eq_some hfind)
  · split at h
    · obtain rfl := Option.some.inj h
      cases ec <;> decide
    · cases h

theorem shAlign_pos_of_known {h : Shdr} (hknown : xlateShtype h.shType ≠ none) : 0 < shAlign ec h := by
  obtain ⟨t, ht⟩ := Option.ne_none_iff_exists'.mp hknown
  unfold shAlign
  split
  · rw [ht]
    exact falign_pos_of_known ht
  · next hne => exact Nat.pos_of_ne_zero hne

/-- What `elf_getdata` reads in is of a type with a size. -/
theorem sized_getdata {s s' : Scn} {d : ElfData} (hdata : s.sData = []) (hg : getdata env e ec s = .ok d s') :
    s'.sData = [d] ∧ Sized e ec [d] := by
  obtain ⟨rfl, t, count, hc, -, -, ht, -⟩ := getdata_ok hg hdata
  obtain ⟨-, hpos, -⟩ := contentsOf_ok hc
  have hne : msize t ec ≠ 0 := fun hzero => Nat.ne_of_gt hpos ((fsize_eq_zero_iff t ec).mpr hzero)
  refine ⟨rfl, sized_cons.mpr ?_⟩
  split
  · exact nofun
  · simp [unsized, ht, hne]

/-- A section of a known type is laid out without a division by zero where its descriptors have sizes. -/
theorem computeSectionExtents_divides {rc : Nat} {s : Scn} (hknown : xlateShtype s.shdr.shType ≠ none)
    (hsized : Sized e ec s.sData) :
    (computeSectionExtents env e ec rc s).Ensures (fun _ _ => True) (fun _ => True) (· ≠ .division) := by
  have halign : 0 < shAlign ec s.shdr := shAlign_pos_of_known hknown
  have hoffset : ∀ align entsize size : Nat, ∀ t : Scn, 0 < align →
      (computeOffset ec rc align entsize size t).Ensures (fun _ _ => True) (fun _ => True) (· ≠ .division) := by
    intro align entsize size t hpos
    rw [computeOffset_eq, if_neg (Nat.ne_of_gt hpos)]
    trivial
  unfold computeSectionExtents
  dsimp only
  split
  · exact Fault.noConfusion
  split
  · split
    · trivial
    · exact hoffset _ _ _ _ halign
  refine ensures_bind (Q := fun _ t => Sized e ec t.sData) ?_ fun _ t ht => ?_
  · split
    · next hnew =>
      have hget : (getdata env e ec s).Ensures (fun _ _ => True) (fun _ => True) (· ≠ .division) :=
        ensures_mono (getdata_returns e ec s) (fun _ _ h => h) (fun _ h => h) fun _ h => h.elim
      refine ensures_bind (ensures_and_ok hget fun _ _ h => h) ?_
      rintro d t ⟨-, hg⟩
      obtain ⟨hdata, hd⟩ := sized_getdata hnew.1 hg
      show Sized e ec t.sData
      rw [hdata]
      exact hd
    · exact hsized
  · refine ensures_bind (Q := fun _ _ => True) ?_ ?_
    · cases hx : checkData e ec 0 0 t.sData with
      | ok _ _ => trivial
      | err _ _ => trivial
      | stop f =>
        rintro rfl
        exact (checkData_division_iff _ _ _).mp hx ht
    · rintro ⟨size, align⟩ t -
      dsimp only
      split
      · split
        · trivial
        rw [if_neg (Nat.ne_of_gt halign)]
        split
        · trivial
        obtain ⟨t', ht'⟩ := Option.ne_none_iff_exists'.mp hknown
        have hfalign : falign (xlateShtype s.shdr.shType) ec ≠ 0 := by
          rw [ht']
          exact Nat.ne_of_gt (falign_pos_of_known ht')
        rw [if_neg hfalign]
        split <;> trivial
      · exact hoffset _ _ _ _ (Nat.lt_of_lt_of_le halign (Nat.le_max_left _ _))

/-- A section is refused for its type where `elf_getdata` refuses it. -/
theorem computeSectionExtents_section {rc : Nat} {s s' : Scn}
    (h : computeSectionExtents env e ec rc s = .err .SECTION s') :
    s.sData = [] ∧ s.sDirty = true ∧ e.eCmd ≠ .write ∧ e.eRawfile ≠ none := by
  have hoffset : ∀ align entsize size : Nat, ∀ t : Scn,
      computeOffset ec rc align entsize size t ≠ .err .SECTION s' := by
    intro align entsize size t
    rw [computeOffset_eq]
    split <;> exact nofun
  unfold computeSectionExtents at h
  dsimp only at h
  split at h
  · cases h
  split at h
  · split at h
    · cases h
    · exact absurd h (hoffset _ _ _ _)
  next hread =>
  rcases bind_eq_err.mp h with hload | ⟨_, t, -, h⟩
  · split at hload
    · next hnew =>
      have hdirty : s.sDirty = true := Bool.eq_true_of_not_eq_false fun hclean => hread ⟨hnew.1, hclean⟩
      refine ⟨hnew.1, hdirty, hnew.2, fun hnone => ?_⟩
      rcases bind_eq_err.mp hload with hg | ⟨_, _, _, hok⟩
      · rw [getdata, hnew.1, if_pos hnone] at hg
        cases hg
      · cases hok
    · cases hload
  rcases bind_eq_err.mp h with hdata | ⟨⟨size, align⟩, t', -, h⟩
  · obtain ⟨_, hcheck, -⟩ := within_eq_err.mp hdata
    exact absurd rfl (checkData_err_ne_section _ hcheck)
  dsimp only at h
  split at h
  · split at h
    · cases h
    split at h
    · cases h
    split at h
    · cases h
    split at h
    · cases h
    split at h
    · cases h
    · cases h
  · exact absurd h (hoffset _ _ _ _)

/-- The layout of a section is sound exactly where its type is known and its descriptors have sizes, or where its
contents are read in and `elf_getdata` finds out that the type is not known. -/
theorem soundDivisors_iff {rc : Nat} {s : Scn} (hs : s.isSkipped = false) :
    SoundDivisors env e ec rc s ↔ Divisible e ec s := by
  obtain ⟨hbits, hnull⟩ := not_or.mp (of_decide_eq_false hs)
  have hkept : ¬ (s.shdr.shType = shtNull ∨ s.shdr.shType = shtNobits) := fun h => h.elim hnull hbits
  unfold Divisible
  split
  · next hunknown =>
    refine ⟨fun h => ?_, fun ⟨hdata, hdirty, hcmd, hraw⟩ => ?_⟩
    · obtain ⟨s', hs'⟩ := h.unknown hunknown
      exact computeSectionExtents_section hs'
    · have hget : getdata env e ec s = .err .SECTION s := by
        rw [getdata, hdata, if_neg hraw, contentsOf, if_neg hnull, hunknown]
      have hrefused : computeSectionExtents env e ec rc s = .err .SECTION s := by
        unfold computeSectionExtents
        dsimp only
        rw [if_neg hkept, if_neg (by simp [hdirty]), if_pos ⟨hdata, hcmd⟩, hget]
        rfl
      exact ⟨by rw [hrefused]; nofun, fun _ => ⟨s, hrefused⟩⟩
  · next hknown =>
    refine ⟨fun h => not_not.mp fun hsized => h.divisors ?_, fun hsized => ⟨fun hstop => ?_, fun h => absurd h hknown⟩⟩
    · -- there is a descriptor, so nothing is read in
      have hdata : s.sData ≠ [] := by
        intro hnil
        rw [hnil] at hsized
        exact hsized nofun
      have hcheck := (checkData_division_iff s.sData 0 0).mpr hsized
      unfold computeSectionExtents
      dsimp only
      rw [if_neg hkept, if_neg fun h => hdata h.1, if_neg fun h => hdata h.1, bind_ok, hcheck]
      rfl
    · have hdiv := @computeSectionExtents_divides env e ec rc s hknown hsized
      rw [hstop] at hdiv
      exact hdiv rfl

end Section

/-! ## The sections of an object -/

section Object

variable (env : Env) (c : UpdateCmd) (ec : ElfClass)

/-- The loop of `_libelf_resync_sections` gets to a section, with `rc` as the end of the last extent. -/
inductive Reaches (e : Elf) : Nat → Nat → List Extent → List Scn → Nat → Scn → Prop
  | here {ndx rc : Nat} {exs : List Extent} {s : Scn} {ss : List Scn} (hs : s.isSkipped = false) :
    Reaches e ndx rc exs (s :: ss) rc s
  | skip {ndx rc rc' : Nat} {exs : List Extent} {s s' : Scn} {ss : List Scn} (hs : s.isSkipped = true)
      (hrest : Reaches e (ndx + 1) rc exs ss rc' s') :
    Reaches e ndx rc exs (s :: ss) rc' s'
  | empty {ndx rc rc' : Nat} {exs : List Extent} {s t s' : Scn} {ss : List Scn} (hs : s.isSkipped = false)
      (ht : computeSectionExtents env e ec rc s = .ok () t) (hsize : t.sSize = 0)
      (hrest : Reaches e (ndx + 1) rc exs ss rc' s') :
    Reaches e ndx rc exs (s :: ss) rc' s'
  | next {ndx rc rc' : Nat} {exs exs' : List Extent} {s t s' : Scn} {ss : List Scn} (hs : s.isSkipped = false)
      (ht : computeSectionExtents env e ec rc s = .ok () t) (hsize : t.sSize ≠ 0)
      (hins : insertExtent ⟨t.sOffset, t.sSize, .scn, ndx⟩ exs = some exs')
      (hrest : Reaches e (ndx + 1) (if rc < wrap (t.sOffset + t.sSize) then wrap (t.sOffset + t.sSize) else rc)
        exs' ss rc' s') :
    Reaches e ndx rc exs (s :: ss) rc' s'

/-- `elf_update(e₀, c)` gets to a section; `e` is the descriptor then. -/
structure UpdateReaches (e₀ e : Elf) (rc : Nat) (s : Scn) : Prop where
  elfClass : e₀.eClass = some ec
  mode : ¬ (c = .write ∧ e₀.eCmd = .read)
  before : ∃ h rc₀ exs, beforeSections env ec (currentVersion e₀) = .ok (h, rc₀, exs) e ∧
    Reaches env ec e 0 rc₀ exs e.eScn rc s

/-- No division by zero at a section, and a section of an unknown type fails the update. -/
structure UpdateDivides (e₀ e : Elf) (rc : Nat) (s : Scn) : Prop where
  sound : SoundDivisors env e ec rc s
  unknown : xlateShtype s.shdr.shType = none → ∃ e', elfUpdate env c e₀ = .err .SECTION e'

variable {env c ec} {e₀ e : Elf}

theorem Reaches.isSkipped {ndx rc rc' : Nat} {exs : List Extent} {ss : List Scn} {s : Scn}
    (h : Reaches env ec e ndx rc exs ss rc' s) : s.isSkipped = false := by
  induction h with
  | here hs => exact hs
  | skip _ _ ih => exact ih
  | empty _ _ _ _ ih => exact ih
  | next _ _ _ _ _ ih => exact ih

/-- The loop ends at the first section that is refused. -/
theorem Reaches.resyncSections_err {ndx rc rc' : Nat} {exs : List Extent} {ss : List Scn} {s t : Scn}
    {err : ElfError} (h : Reaches env ec e ndx rc exs ss rc' s)
    (ht : computeSectionExtents env e ec rc' s = .err err t) :
    ∃ ss', resyncSections env e ec ndx rc exs ss = .err err ss' := by
  induction h with
  | here hs =>
    rw [resyncSections, hs, if_neg Bool.false_ne_true, ht]
    exact ⟨_, rfl⟩
  | skip hs _ ih =>
    obtain ⟨ss', hrest⟩ := ih ht
    rw [resyncSections, if_pos hs, hrest]
    exact ⟨_, rfl⟩
  | empty hs hcall hsize _ ih =>
    obtain ⟨ss', hrest⟩ := ih ht
    rw [resyncSections, hs, if_neg Bool.false_ne_true, hcall]
    dsimp only
    rw [if_pos hsize, hrest]
    exact ⟨_, rfl⟩
  | next hs hcall hsize hins _ ih =>
    obtain ⟨ss', hrest⟩ := ih ht
    rw [resyncSections, hs, if_neg Bool.false_ne_true, hcall]
    dsimp only
    rw [if_neg hsize, hins]
    dsimp only
    rw [hrest]
    exact ⟨_, rfl⟩

theorem resyncElf_sections_err {e' : Elf} {hdr : Ehdr} {rc : Nat} {exs : List Extent} {err : ElfError} {ss : List Scn}
    (hbefore : beforeSections env ec e = .ok (hdr, rc, exs) e')
    (hsecs : resyncSections env e' ec 0 rc exs e'.eScn = .err err ss) :
    resyncElf env ec e = .err err (e'.setScn ss) := by
  obtain ⟨h₀, e₁, hehdr, hbefore⟩ := bind_eq_ok.mp hbefore
  obtain ⟨h₁, e₂, hprep, hbefore⟩ := bind_eq_ok.mp hbefore
  obtain ⟨⟨phoff, rc₁, exs₁⟩, e₃, hphdr, hbefore⟩ := bind_eq_ok.mp hbefore
  obtain ⟨_, e₄, hneed, hbefore⟩ := bind_eq_ok.mp hbefore
  cases hbefore
  have hphdr : layoutPhdr env ec (ec.get hdr.ePhoff) (fsize .ehdr ec) e₂.eNphdr [⟨0, fsize .ehdr ec, .ehdr, 0⟩] e₂ =
    .ok (phoff, rc, exs) e₃ := hphdr
  unfold resyncElf
  rw [hehdr, bind_ok, hprep, bind_ok]
  dsimp only
  rw [hphdr, bind_ok]
  dsimp only
  rw [hneed, bind_ok, hsecs]
  rfl

/-- Where the layout refuses a section, `elf_update` fails with its error. -/
theorem UpdateReaches.elfUpdate_err {rc : Nat} {s t : Scn} {err : ElfError} (h : UpdateReaches env c ec e₀ e rc s)
    (ht : computeSectionExtents env e ec rc s = .err err t) : ∃ e', elfUpdate env c e₀ = .err err e' := by
  obtain ⟨hdr, rc₀, exs, hbefore, hreach⟩ := h.before
  obtain ⟨ss, hsecs⟩ := hreach.resyncSections_err ht
  have hmode : ¬ (c = .write ∧ (currentVersion e₀).eCmd = .read) := by
    unfold currentVersion
    split
    · exact h.mode
    · exact h.mode
  refine ⟨e.setScn ss, ?_⟩
  rw [elfUpdate, h.elfClass]
  show (if c = .write ∧ (currentVersion e₀).eCmd = .read then _ else
    (resyncElf env ec (currentVersion e₀)).bind _) = _
  rw [if_neg hmode, resyncElf_sections_err hbefore hsecs]
  rfl

/-- At a section that `elf_update` gets to, no divisor is zero and a type that is not known fails the update, exactly
where the section is `Divisible`. -/
theorem update_divisors_iff {rc : Nat} {s : Scn} (h : UpdateReaches env c ec e₀ e rc s) :
    UpdateDivides env c ec e₀ e rc s ↔ Divisible e ec s := by
  have hsound : SoundDivisors env e ec rc s ↔ Divisible e ec s := by
    obtain ⟨_, _, _, _, hreach⟩ := h.before
    exact soundDivisors_iff hreach.isSkipped
  refine ⟨fun hd => hsound.mp hd.sound, fun hd => ⟨hsound.mpr hd, fun hunknown => ?_⟩⟩
  obtain ⟨t, ht⟩ := (hsound.mpr hd).unknown hunknown
  exact h.elfUpdate_err ht

end Object

/-- A section of type `SHT_PROGBITS` is reached, and divides by no zero. -/
theorem progbits_divides : ∃ e₀ e e' rc s, openObject plainEnv .write noImage = .ok (some e₀) ∧
    runOps (Op.step plainEnv) e₀ (sectionOps 1) = .ok e ∧ UpdateReaches plainEnv .null .elfclass64 e e' rc s ∧
    UpdateDivides plainEnv .null .elfclass64 e e' rc s := by
  have hrun : ∃ e₀ e e' h rc exs s₀ s, openObject plainEnv .write noImage = .ok (some e₀) ∧
      runOps (Op.step plainEnv) e₀ (sectionOps 1) = .ok e ∧ e.eClass = some .elfclass64 ∧
      beforeSections plainEnv .elfclass64 (currentVersion e) = .ok (h, rc, exs) e' ∧ e'.eScn = [s₀, s] ∧
      s₀.isSkipped = true ∧ s.isSkipped = false ∧ decide (Divisible e' .elfclass64 s) = true :=
    ⟨_, _, _, _, _, _, _, _, rfl, rfl, rfl, rfl, rfl, rfl, rfl, rfl⟩
  obtain ⟨e₀, e, e', h, rc, exs, s₀, s, hopen, hops, hc, hbefore, hscn, hs₀, hs, hdiv⟩ := hrun
  have hreach : UpdateReaches plainEnv .null .elfclass64 e e' rc s := by
    refine ⟨hc, nofun, h, rc, exs, hbefore, ?_⟩
    rw [hscn]
    exact .skip hs₀ (.here hs)
  exact ⟨e₀, e, e', rc, s, hopen, hops, hreach, (update_divisors_iff hreach).mpr (of_decide_eq_true hdiv)⟩

def unknownSection : List Op :=
  [.newehdr .elfclass64, .newscn, .setShdr 1 { Shdr.zero with shType := 12 }]

/-- The end of the headers is rounded up to a multiple of zero. -/
theorem unknownSection_division : ∃ e₀ e e' rc s, openObject plainEnv .write noImage = .ok (some e₀) ∧
    runOps (Op.step plainEnv) e₀ unknownSection = .ok e ∧ UpdateReaches plainEnv .null .elfclass64 e e' rc s ∧
    elfUpdate plainEnv .null e = .stop .division ∧ ¬ UpdateDivides plainEnv .null .elfclass64 e e' rc s := by
  have hrun : ∃ e₀ e e' h rc exs s₀ s, openObject plainEnv .write noImage = .ok (some e₀) ∧
      runOps (Op.step plainEnv) e₀ unknownSection = .ok e ∧ e.eClass = some .elfclass64 ∧
      beforeSections plainEnv .elfclass64 (currentVersion e) = .ok (h, rc, exs) e' ∧ e'.eScn = [s₀, s] ∧
      s₀.isSkipped = true ∧ s.isSkipped = false ∧ elfUpdate plainEnv .null e = .stop .division ∧
      computeSectionExtents plainEnv e' .elfclass64 rc s = .stop .division :=
    ⟨_, _, _, _, _, _, _, _, rfl, rfl, rfl, rfl, rfl, rfl, rfl, rfl, rfl⟩
  obtain ⟨e₀, e, e', h, rc, exs, s₀, s, hopen, hops, hc, hbefore, hscn, hs₀, hs, hupd, hcall⟩ := hrun
  have hreach : UpdateReaches plainEnv .null .elfclass64 e e' rc s := by
    refine ⟨hc, nofun, h, rc, exs, hbefore, ?_⟩
    rw [hscn]
    exact .skip hs₀ (.here hs)
  exact ⟨e₀, e, e', rc, s, hopen, hops, hreach, hupd, fun hd => hd.sound.divisors hcall⟩

end LibElf.Toolchain
