import LibElf.Elfutils.UpdateRound

/-!
# Two updates side by side

The loop over the sections, on a descriptor that nothing was read of and on one over the same object with the data of
some sections.

1. `Ready`, sections that the loop can go over, and `each_frame`, that it leaves the others alone.
2. `Twin` and `Beside`, the two descriptors; `Calm`, a section whose blocks ask for no other alignment than its header.
3. `each_calm` and `calm_of_each`: the two runs give the same size and the same headers where the sections are calm, and
   nowhere else.
-/

namespace LibElf.Elfutils

open Outcome
open Toolchain (ElfClass Ehdr Shdr)

variable {env : Env} {ec : ElfClass} {fl : UpdateFlags} {hdr hdr' : Ehdr} {a b e e' a' b' : Elf} {p q : ScnHandle}
  {ps : List ScnHandle} {s s' : Scn} {h : Shdr} {r : Data} {st st' : UInt64 × Bool}

/-! ## One run -/

/-- What the loop goes on with: an object with an ELF header of its own, and sections that are either unread or hold
nothing but what the file has. -/
structure Ready (env : Env) (ec : ElfClass) (ps : List ScnHandle) (e : Elf) : Prop where
  kind : e.kind = .elf
  hasHdr : HasHdr e
  elfClass : e.elfClass.getD .elfclass64 = ec
  version : (e.hdr env ec).eIdent.toList.getD eiVersion 0 = 1
  nodup : ps.Nodup
  scns : ∀ p ∈ ps, ∃ s, Chain.entry e.scns p = some s ∧
    (s.Unread ∨ ∃ h r, IsRaw env e h r ∧ Loaded env e p s h r)

namespace Ready

theorem version_raw (hr : Ready env ec ps e) (hraw : IsRaw env e h r) : r.dVersion = 1 := by
  rw [hraw.version, hr.elfClass, hr.version]
  rfl

/-- A section may be set that the loop does not go to any more. -/
theorem put (hr : Ready env ec (p :: ps) e) (s : Scn) : Ready env ec ps (e.put p s) := by
  have hsame := SameBut.put e p s
  obtain ⟨hnot, hnodup⟩ := List.nodup_cons.mp hr.nodup
  refine ⟨hr.kind, hr.hasHdr, hr.elfClass, hr.version, hnodup, fun q hq => ?_⟩
  obtain ⟨s', hs', hdata⟩ := hr.scns q (List.mem_cons_of_mem _ hq)
  have hne : q ≠ p := fun h => hnot (h ▸ hq)
  refine ⟨s', (entry_put_ne hne).trans hs', hdata.imp id ?_⟩
  rintro ⟨h, r, hraw, hl⟩
  exact ⟨h, r, hsame.symm.isRaw hraw, hl.frame hsame (entry_put_ne hne)⟩

end Ready

/-- A round sets its section. -/
theorem updateScn_put (hlayout : fl.layout = false) (hr : Ready env ec (p :: ps) e)
    (hrun : updateScn env fl ec hdr p st e = .ok st' e') : ∃ s', e' = e.put p s' := by
  obtain ⟨s, hs, hdata⟩ := hr.scns p List.mem_cons_self
  obtain ⟨h, n, r, hread, hraw, hpow, hn⟩ : ∃ h n r, Readable env e p s h r ∧ IsRaw env e h r ∧
      powerof2 (scnAlign ec h) ∧ scnEntsize ec hdr h = .ok n := by
    rcases hdata with hunread | ⟨h, r, hraw, hl⟩
    · exact updateScn_ok hr.hasHdr hs hunread hrun
    · obtain ⟨h', n, hshdr, hpow, hn⟩ := updateScn_header hs hrun
      obtain rfl := Option.some.inj (hl.shdr.symm.trans hshdr)
      exact ⟨h, n, r, ⟨hs, hl.shdr, .inr hl⟩, hraw, hpow, hn⟩
  obtain ⟨-, -, s', rfl, -⟩ :=
    (updateScn_readable hlayout hr.kind hr.hasHdr hread (hr.version_raw hraw) hpow hn).only _ _ hrun
  exact ⟨s', rfl⟩

/-- The loop leaves the other sections alone. -/
theorem each_frame (hlayout : fl.layout = false) (hr : Ready env ec ps e)
    (hrun : each (updateScn env fl ec hdr) ps st e = .ok st' e') :
    SameBut e e' ∧ ∀ q ∉ ps, e'.shdrAt q = e.shdrAt q := by
  have hinv := each_inv (f := updateScn env fl ec hdr)
    (P := fun is _ t => Ready env ec is t ∧ SameBut e t ∧ is ⊆ ps ∧ ∀ q ∉ ps, t.shdrAt q = e.shdrAt q)
    (fun p is st t st' t' hP hround => by
      obtain ⟨hready, hsame, hsub, hrest⟩ := hP
      obtain ⟨s, rfl⟩ := updateScn_put hlayout hready hround
      refine ⟨hready.put s, hsame.trans (.put _ _ _), fun q hq => hsub (List.mem_cons_of_mem _ hq), fun q hq => ?_⟩
      have hne : q ≠ p := by
        rintro rfl
        exact hq (hsub List.mem_cons_self)
      rw [shdrAt_put_ne hne, hrest q hq])
    ⟨hr, .refl e, List.Subset.refl _, fun _ _ => rfl⟩ hrun
  exact ⟨hinv.2.1, hinv.2.2.2⟩

/-! ## Two runs -/

/-- One section of two descriptors: nothing was read of it through the first, and nothing or its data through the
second. -/
structure Twin (env : Env) (a b : Elf) (p : ScnHandle) (s s' : Scn) (h : Shdr) : Prop where
  entry : Chain.entry a.scns p = some s
  entry' : Chain.entry b.scns p = some s'
  shdr : s.shdr = some h
  shdr' : s'.shdr = some h
  unread : s.Unread
  data : s'.Unread ∨ ∃ r, IsRaw env a h r ∧ Loaded env b p s' h r

/-- Two descriptors that the loop goes over. The second one has at least the headers of the first. -/
structure Beside (env : Env) (ec : ElfClass) (ps : List ScnHandle) (a b : Elf) : Prop where
  alike : Alike env a b
  first : Ready env ec ps a
  second : Ready env ec ps b
  headers : ∀ q h, a.shdrAt q = some h → b.shdrAt q = some h
  twins : ∀ p ∈ ps, ∃ s s' h, Twin env a b p s s' h

/-- The blocks of a section ask for no other alignment than its header. -/
def Calm (ec : ElfClass) (e : Elf) (p : ScnHandle) : Prop :=
  ∀ s h, Chain.entry e.scns p = some s → s.shdr = some h →
    Lays s ∧ blockAlign s (scnAlign ec h) = scnAlign ec h

/-- The two types of sections look the same to both descriptors. -/
def SameTypes (ec : ElfClass) (hdr hdr' : Ehdr) : Prop := ∀ h, scnEntsize ec hdr' h = scnEntsize ec hdr h

/-- A place in the file is a word. -/
theorem alignSize_word (x : UInt64) (align : UInt32) : (alignSize x align).toUInt32.toUInt64 = alignSize x align := by
  have hlt : (alignSize x align).toNat < 2 ^ 32 := by
    rw [alignSize, UInt64.toNat_and]
    exact Nat.lt_of_le_of_lt Nat.and_le_right (UInt32.toNat_lt _)
  apply UInt64.toNat_inj.mp
  rw [UInt32.toNat_toUInt64, UInt64.toNat_toUInt32, Nat.mod_eq_of_lt hlt]

/-- The place, the size and the needs of a section depend on what is in front of it up to its alignment only. -/
theorem placed_congr {x y offset : UInt64} {align : UInt32} (hxy : alignSize y align = alignSize x align) :
    placedShdr y offset align h = placedShdr x offset align h ∧
      (∀ c, roundResult ec h r align (y, c) = roundResult ec h r align (x, c)) ∧
      (LaidOut env fl ec e h r y align ↔ LaidOut env fl ec e h r x align) := by
  have hmoves : Moves ec h y align ↔ Moves ec h x align := by rw [Moves, Moves, hxy]
  have hplaced : ∀ offset, placedShdr y offset align h = placedShdr x offset align h := fun _ => by
    rw [placedShdr, placedShdr, hxy]
  refine ⟨hplaced _, fun c => ?_, ?_⟩
  · simp only [roundResult, hplaced, hmoves, placedSize, hxy]
  · constructor
    · rintro ⟨hblock, hpass⟩
      exact ⟨fun hm => hblock (hmoves.mpr hm), by rw [← hplaced]; exact hpass⟩
    · rintro ⟨hblock, hpass⟩
      exact ⟨fun hm => hblock (hmoves.mp hm), by rw [hplaced]; exact hpass⟩

/-- Going on behind a section that has the same header in both descriptors. -/
theorem Beside.put (hab : Beside env ec (p :: ps) a b) (hheader : s'.shdr = s.shdr) :
    Beside env ec ps (a.put p s) (b.put p s') := by
  have hsame := SameBut.put a p s
  have hsame' := SameBut.put b p s'
  obtain ⟨hnot, -⟩ := List.nodup_cons.mp hab.first.nodup
  obtain ⟨s₁, s₂, h, ht⟩ := hab.twins p List.mem_cons_self
  refine ⟨hsame.alike.symm.trans (hab.alike.trans hsame'.alike), hab.first.put s, hab.second.put s', ?_, ?_⟩
  · intro q h hq
    by_cases hqp : q = p
    · subst hqp
      rw [shdrAt_of_entry (entry_put ht.entry)] at hq
      rw [shdrAt_of_entry (entry_put ht.entry'), hheader, hq]
    · rw [shdrAt_put_ne hqp] at hq ⊢
      exact hab.headers q h hq
  · intro q hq
    have hne : q ≠ p := by
      rintro rfl
      exact hnot hq
    obtain ⟨s₁, s₂, h, ht⟩ := hab.twins q (List.mem_cons_of_mem _ hq)
    refine ⟨s₁, s₂, h, (entry_put_ne hne).trans ht.entry, (entry_put_ne hne).trans ht.entry', ht.shdr, ht.shdr',
      ht.unread, ht.data.imp id ?_⟩
    rintro ⟨r, hraw, hl⟩
    exact ⟨r, hsame.symm.isRaw hraw, hl.frame hsame' (entry_put_ne hne)⟩

/-- A round on both descriptors, behind `x` and `y` bytes: the one that succeeds on the first says what the second needs
and gives. -/
theorem updateScn_twin {x y : UInt64} {c : Bool} (hlayout : fl.layout = false) (hab : Beside env ec (p :: ps) a b)
    (htypes : SameTypes ec hdr hdr') (ht : Twin env a b p s s' h)
    (hrun : updateScn env fl ec hdr p (x, c) a = .ok st a') :
    ∃ (n : UInt32) (r : Data) (s₁ : Scn), let h' : Shdr := { h with shEntsize := n.toUInt64 }
      LaidOut env fl ec b h' r x (scnAlign ec h) ∧ st = roundResult ec h' r (scnAlign ec h) (x, c) ∧ a' = a.put p s₁ ∧
      s₁.shdr = some (placedShdr x (.ofNat r.dSize) (scnAlign ec h) h') ∧
      (updateScn env fl ec hdr' p (y, c) b).Exactly
        (Lays s' ∧ LaidOut env fl ec b h' r y (blockAlign s' (scnAlign ec h)))
        fun st' b' => st' = roundResult ec h' r (blockAlign s' (scnAlign ec h)) (y, c) ∧
          ∃ s₂, b' = b.put p s₂ ∧
            s₂.shdr = some (placedShdr y (.ofNat r.dSize) (blockAlign s' (scnAlign ec h)) h') := by
  obtain ⟨h₁, n, r, hread, hraw, hpow, hn⟩ := updateScn_ok hab.first.hasHdr ht.entry ht.unread hrun
  obtain rfl : h₁ = h := Option.some.inj (hread.shdr.symm.trans ht.shdr)
  have halign : blockAlign s (scnAlign ec h₁) = scnAlign ec h₁ := by rw [blockAlign, ht.unread.2.2]
  have hfirst := (updateScn_readable hlayout hab.first.kind hab.first.hasHdr hread (hab.first.version_raw hraw) hpow
    hn).only _ _ hrun
  rw [halign] at hfirst
  obtain ⟨⟨-, hlaid⟩, hst, s₁, rfl, hs₁⟩ := hfirst
  have hraw' := hab.alike.isRaw hraw
  have hread' : Readable env b p s' h₁ r := by
    refine ⟨ht.entry', ht.shdr', ?_⟩
    rcases ht.data with hunread | ⟨r', hr', hl⟩
    · rcases hread.data with ⟨-, hsec⟩ | hl
      · exact .inl ⟨hunread, sectionRaw_alike hab.alike hab.second.hasHdr hsec⟩
      · exact absurd (ht.unread.2.1.symm.trans hl.read) (by rintro ⟨⟩)
    · obtain rfl := hraw.unique hr'
      exact .inr hl
  refine ⟨n, r, s₁, hlaid.alike hab.alike hab.second.hasHdr, hst, rfl, hs₁, ?_⟩
  exact updateScn_readable hlayout hab.second.kind hab.second.hasHdr hread' (hab.second.version_raw hraw') hpow
    ((htypes h₁).trans hn)

section Round

variable {x y : UInt64} {c : Bool}

/-- A section that is calm is given the same place. -/
theorem updateScn_calm (hlayout : fl.layout = false) (hab : Beside env ec (p :: ps) a b)
    (htypes : SameTypes ec hdr hdr') (ht : Twin env a b p s s' h) (hcalm : Calm ec b p)
    (hxy : alignSize y (scnAlign ec h) = alignSize x (scnAlign ec h))
    (hrun : updateScn env fl ec hdr p (x, c) a = .ok st a') :
    ∃ s₁ s₂, a' = a.put p s₁ ∧ updateScn env fl ec hdr' p (y, c) b = .ok st (b.put p s₂) ∧ s₂.shdr = s₁.shdr := by
  obtain ⟨n, r, s₁, hlaid, rfl, rfl, hs₁, hround⟩ := updateScn_twin (y := y) hlayout hab htypes ht hrun
  obtain ⟨hlays, halign⟩ := hcalm s' h ht.entry' ht.shdr'
  rw [halign] at hround
  obtain ⟨hplaced, hresult, hneeds⟩ := @placed_congr env ec fl b { h with shEntsize := n.toUInt64 } r x y
    (.ofNat r.dSize) _ hxy
  obtain ⟨st', b', hok⟩ := hround.succeeds ⟨hlays, hneeds.mpr hlaid⟩
  obtain ⟨-, hst, s₂, rfl, hs₂⟩ := hround.only _ _ hok
  exact ⟨s₁, s₂, rfl, by rw [hok, hst, hresult], by rw [hs₂, hplaced, hs₁]⟩

/-- A section that is given the same place is calm. -/
theorem calm_of_updateScn {st' : UInt64 × Bool} (hlayout : fl.layout = false) (hab : Beside env ec (p :: ps) a b)
    (htypes : SameTypes ec hdr hdr') (ht : Twin env a b p s s' h)
    (hrun : updateScn env fl ec hdr p (x, c) a = .ok st a')
    (hrun' : updateScn env fl ec hdr' p (y, c) b = .ok st' b')
    (hsame : ∀ h, a'.shdrAt p = some h → b'.shdrAt p = some h) :
    Calm ec b p ∧ alignSize y (scnAlign ec h) = alignSize x (scnAlign ec h) ∧ st' = st ∧
      ∃ s₁ s₂, a' = a.put p s₁ ∧ b' = b.put p s₂ ∧ s₂.shdr = s₁.shdr := by
  obtain ⟨n, r, s₁, hlaid, rfl, rfl, hs₁, hround⟩ := updateScn_twin (y := y) hlayout hab htypes ht hrun
  obtain ⟨⟨hlays, -⟩, hst, s₂, rfl, hs₂⟩ := hround.only _ _ hrun'
  have hheader := hsame _ ((shdrAt_of_entry (entry_put ht.entry)).trans hs₁)
  rw [shdrAt_of_entry (entry_put ht.entry'), hs₂] at hheader
  have hheader := Option.some.inj hheader
  have halign : blockAlign s' (scnAlign ec h) = scnAlign ec h :=
    UInt32.toUInt64_inj.mp (congrArg Shdr.shAddralign hheader)
  rw [halign] at hheader hst hs₂
  have hxy : alignSize y (scnAlign ec h) = alignSize x (scnAlign ec h) := by
    have hoffset : (alignSize y (scnAlign ec h)).toUInt32.toUInt64 = (alignSize x (scnAlign ec h)).toUInt32.toUInt64 :=
      congrArg Shdr.shOffset hheader
    rwa [alignSize_word, alignSize_word] at hoffset
  obtain ⟨hplaced, hresult, -⟩ := @placed_congr env ec fl b { h with shEntsize := n.toUInt64 } r x y
    (.ofNat r.dSize) _ hxy
  refine ⟨fun s h₁ hs hh => ?_, hxy, by rw [hst, hresult], s₁, s₂, rfl, rfl, by rw [hs₂, hs₁, hplaced]⟩
  obtain rfl := Option.some.inj (ht.entry'.symm.trans hs)
  obtain rfl := Option.some.inj (ht.shdr'.symm.trans hh)
  exact ⟨hlays, halign⟩

end Round

/-! ## The two loops -/

theorem Calm.put (hne : q ≠ p) : Calm ec (e.put p s) q ↔ Calm ec e q := by
  rw [Calm, Calm, entry_put_ne hne]

/-- The first section is aligned to the same place behind `x` and behind `y` bytes. -/
def SameStart (ec : ElfClass) (e : Elf) (ps : List ScnHandle) (x y : UInt64) : Prop :=
  match ps with
  | [] => y = x
  | p :: _ => ∀ h, e.shdrAt p = some h → alignSize y (scnAlign ec h) = alignSize x (scnAlign ec h)

theorem SameStart.refl (ps : List ScnHandle) (x : UInt64) : SameStart ec e ps x x := by
  cases ps with
  | nil => rfl
  | cons p ps => exact fun _ _ => rfl

/-- Calm sections are given the same places and headers. -/
theorem each_calm (hlayout : fl.layout = false) (htypes : SameTypes ec hdr hdr') {x y : UInt64} {c : Bool}
    (hab : Beside env ec ps a b) (hcalm : ∀ p ∈ ps, Calm ec b p) (hstart : SameStart ec b ps x y)
    (hrun : each (updateScn env fl ec hdr) ps (x, c) a = .ok st a') :
    ∃ b', each (updateScn env fl ec hdr') ps (y, c) b = .ok st b' ∧
      ∀ q h, a'.shdrAt q = some h → b'.shdrAt q = some h := by
  induction ps generalizing x y c a b with
  | nil =>
    obtain rfl : y = x := hstart
    obtain ⟨rfl, rfl⟩ := Outcome.ok.inj hrun
    exact ⟨b, rfl, hab.headers⟩
  | cons p ps ih =>
    obtain ⟨st₁, a₁, hfirst, hrest⟩ := bind_eq_ok.mp hrun
    obtain ⟨s, s', h, ht⟩ := hab.twins p List.mem_cons_self
    have hxy := hstart h ((shdrAt_of_entry ht.entry').trans ht.shdr')
    obtain ⟨s₁, s₂, rfl, hok, hheader⟩ :=
      updateScn_calm hlayout hab htypes ht (hcalm p List.mem_cons_self) hxy hfirst
    have hnot := (List.nodup_cons.mp hab.first.nodup).1
    have hcalm₁ : ∀ q ∈ ps, Calm ec (b.put p s₂) q := by
      intro q hq
      have hne : q ≠ p := by
        rintro rfl
        exact hnot hq
      exact (Calm.put hne).mpr (hcalm q (List.mem_cons_of_mem _ hq))
    obtain ⟨b', hrest', hheaders⟩ := ih (hab.put hheader) hcalm₁ (.refl ps st₁.1) hrest
    exact ⟨b', by rw [each, hok, bind_ok]; exact hrest', hheaders⟩

/-- Sections that are given the same headers are calm. -/
theorem calm_of_each (hlayout : fl.layout = false) (htypes : SameTypes ec hdr hdr') {x y : UInt64} {c : Bool}
    (hab : Beside env ec ps a b) (hempty : ps = [] → y = x)
    (hrun : each (updateScn env fl ec hdr) ps (x, c) a = .ok st a')
    (hrun' : each (updateScn env fl ec hdr') ps (y, c) b = .ok st' b')
    (hsame : ∀ q h, a'.shdrAt q = some h → b'.shdrAt q = some h) :
    (∀ p ∈ ps, Calm ec b p) ∧ SameStart ec b ps x y ∧ st' = st := by
  induction ps generalizing x y c a b with
  | nil =>
    obtain rfl := hempty rfl
    obtain ⟨rfl, rfl⟩ := Outcome.ok.inj hrun
    obtain ⟨rfl, rfl⟩ := Outcome.ok.inj hrun'
    exact ⟨nofun, rfl, rfl⟩
  | cons p ps ih =>
    obtain ⟨st₁, a₁, hfirst, hrest⟩ := bind_eq_ok.mp hrun
    obtain ⟨st₂, b₁, hfirst', hrest'⟩ := bind_eq_ok.mp hrun'
    obtain ⟨s, s', h, ht⟩ := hab.twins p List.mem_cons_self
    have hnot := (List.nodup_cons.mp hab.first.nodup).1
    -- the header of this section is not touched any more
    have hheader : ∀ h, a₁.shdrAt p = some h → b₁.shdrAt p = some h := by
      intro h hh
      obtain ⟨s₁, rfl⟩ := updateScn_put hlayout hab.first hfirst
      obtain ⟨s₂, rfl⟩ := updateScn_put hlayout hab.second hfirst'
      rw [← (each_frame hlayout (hab.first.put s₁) hrest).2 p hnot] at hh
      rw [← (each_frame hlayout (hab.second.put s₂) hrest').2 p hnot]
      exact hsame p h hh
    obtain ⟨hcalm, hxy, rfl, s₁, s₂, rfl, rfl, hs⟩ :=
      calm_of_updateScn hlayout hab htypes ht hfirst hfirst' hheader
    obtain ⟨hcalms, -, hst⟩ := ih (hab.put hs) (fun _ => rfl) hrest hrest'
    refine ⟨fun q hq => ?_, fun h₁ hh => ?_, hst⟩
    · rcases List.mem_cons.mp hq with rfl | hin
      · exact hcalm
      · have hne : q ≠ p := by
          rintro rfl
          exact hnot hin
        exact (Calm.put hne).mp (hcalms q hin)
    · obtain rfl := Option.some.inj (hh.symm.trans ((shdrAt_of_entry ht.entry').trans ht.shdr'))
      exact hxy

end LibElf.Elfutils
