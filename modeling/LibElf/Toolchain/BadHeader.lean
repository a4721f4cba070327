import LibElf.Toolchain.SessionRun

/-!
# A header that was refused

`_libelf_ehdr` stores the pointer to the executable header in the descriptor before it looks at the counts. A
header that is refused for its counts is there afterwards, and the next call returns it.

1. `HeaderCall`, the calls that need the header, and `StaysBad`.
2. `Refused`, a header in the image whose counts are refused.
3. `Cached`, a descriptor with a header, which every call keeps.
4. `stays_bad_iff`.
-/

namespace LibElf.Toolchain

open Outcome

inductive HeaderCall
  | getehdr
  | getshdrnum
  | getphdrnum
  | getshdrstrndx
  | getscn (index : Nat)
deriving DecidableEq

section Calls

variable (env : Env)

/-- Make the call. The getter of the file's own class is `gelf_getehdr`. -/
def HeaderCall.call : HeaderCall → Elf → Call Unit
  | getehdr, e => (gelfGetehdr env e).bind fun _ => .ok ()
  | getshdrnum, e => (elfGetshdrnum env e).bind fun _ => .ok ()
  | getphdrnum, e => (elfGetphdrnum env e).bind fun _ => .ok ()
  | getshdrstrndx, e => (elfGetshdrstrndx env e).bind fun _ => .ok ()
  | getscn index, e => (elfGetscn env index e).bind fun _ => .ok ()

/-- One call of a run, which goes on after an error. -/
def HeaderCall.step (e : Elf) (q : HeaderCall) : Except Fault Elf := (q.call env e).next

/-- Once the header was refused, every later call fails. -/
def StaysBad (e₀ : Elf) : Prop :=
  ∀ before after : List HeaderCall, ∀ q : HeaderCall, ∀ e e' e'' : Elf, ∀ err : ElfError,
    runOps (HeaderCall.step env) e₀ before = .ok e → gelfGetehdr env e = .err err e' →
    runOps (HeaderCall.step env) e' after = .ok e'' → ∃ err' e₃, q.call env e'' = .err err' e₃

/-- The header is refused for its counts: they are reserved or contradict one another, or section header 0, which
should have them, is not in the image or is that of a section. -/
def Refused (ec : ElfClass) (e : Elf) : Prop :=
  badCounts ec (fileEhdr env ec e) ∨
    isExtended ec (fileEhdr env ec e) ∧
      (e.rawsize < wrap (ec.get (fileEhdr env ec e).eShoff + fsize .shdr ec) ∨
        ec.get (fileEhdr env ec e).eShoff + fsize .shdr ec ≤ e.rawsize ∧ (fileShdr0 env ec e).shType ≠ shtNull)

end Calls

variable {env : Env} {ec : ElfClass} {e e' e₀ : Elf}

/-! ## A header that is there -/

/-- A descriptor with a header. -/
structure Cached (ec : ElfClass) (e : Elf) : Prop where
  elfClass : e.eClass = some ec
  version : e.eVersion = evCurrent
  ehdr : e.eEhdr.isSome

theorem Cached.libelfEhdr (hc : Cached ec e) : ∃ h, Toolchain.libelfEhdr env ec false e = .ok h e := by
  obtain ⟨h, hh⟩ := Option.isSome_iff_exists.mp hc.ehdr
  exact ⟨h, libelfEhdr_cached hc.elfClass hc.version hh false⟩

theorem Cached.gelfGetehdr (hc : Cached ec e) : ∃ h, Toolchain.gelfGetehdr env e = .ok h e := by
  unfold Toolchain.gelfGetehdr withClass
  rw [hc.elfClass]
  exact hc.libelfEhdr

theorem cached_of_ok {h : Ehdr} (hx : libelfEhdr env ec false e = .ok h e') : Cached ec e' := by
  obtain ⟨hc, hv, hh, -⟩ := libelfEhdr_ok hx
  exact ⟨hc, hv, by rw [hh]; rfl⟩

theorem cached_loadLoop (n : Nat) : ∀ (src ndx : Nat) (e : Elf), Cached ec e →
    (loadLoop env ec n src ndx e).Ensures (fun _ => Cached ec) (Cached ec) (fun _ => True) := by
  induction n with
  | zero => exact fun _ _ _ hc => hc
  | succ n ih =>
    intro src ndx e hc
    unfold loadLoop Elf.read
    refine ensures_bind (ensures_readAt (F := fun _ => True) trivial) ?_
    rintro bs e₁ ⟨-, rfl⟩
    exact ih _ _ _ ⟨hc.elfClass, hc.version, hc.ehdr⟩

theorem cached_needSectionHeaders (hc : Cached ec e) (h : Ehdr) :
    (needSectionHeaders env ec h e).Ensures (fun _ => Cached ec) (Cached ec) (fun _ => True) := by
  unfold needSectionHeaders loadSectionHeaders
  split
  swap
  · exact hc
  split
  · trivial
  dsimp only
  split
  · exact hc
  refine ensures_bind (Q := fun _ => Cached ec) ?_ fun _ _ hc' => ⟨hc'.elfClass, hc'.version, hc'.ehdr⟩
  split
  · exact cached_loadLoop _ _ _ _ hc
  · exact cached_loadLoop _ _ _ _ hc
  · trivial

/-- A call after the header was looked for: it has the header, or it could not be found. -/
theorem call_ensures {P : Elf → Prop} (hcls : e.eClass = some ec)
    (hx : (libelfEhdr env ec false e).Ensures (fun _ => Cached ec) P (fun _ => True)) (q : HeaderCall) :
    (q.call env e).Ensures (fun _ => Cached ec) (fun e' => Cached ec e' ∨ P e') (fun _ => True) := by
  have hx' : (libelfEhdr env ec false e).Ensures (fun _ => Cached ec) (fun e' => Cached ec e' ∨ P e')
      (fun _ => True) := ensures_mono hx (fun _ _ h => h) (fun _ h => .inr h) fun _ h => h
  have hcount : ∀ {α : Type} (f : Elf → α), (((libelfEhdr env ec false e).bind fun _ e => .ok (f e) e).bind
      fun _ => .ok ()).Ensures (fun _ => Cached ec) (fun e' => Cached ec e' ∨ P e') (fun _ => True) :=
    fun f => ensures_bind (ensures_bind hx' (R := fun _ => Cached ec) fun _ _ h => h) fun _ _ h => h
  cases q with
  | getehdr =>
    show ((gelfGetehdr env e).bind _).Ensures _ _ _
    rw [gelfGetehdr, withClass_of_class _ hcls]
    exact ensures_bind hx' fun _ _ h => h
  | getshdrnum =>
    show ((elfGetshdrnum env e).bind _).Ensures _ _ _
    rw [elfGetshdrnum, withClass_of_class _ hcls]
    exact hcount _
  | getphdrnum =>
    show ((elfGetphdrnum env e).bind _).Ensures _ _ _
    rw [elfGetphdrnum, withClass_of_class _ hcls]
    exact hcount _
  | getshdrstrndx =>
    show ((elfGetshdrstrndx env e).bind _).Ensures _ _ _
    rw [elfGetshdrstrndx, withClass_of_class _ hcls]
    exact hcount _
  | getscn index =>
    show ((elfGetscn env index e).bind _).Ensures _ _ _
    rw [elfGetscn, withClass_of_class _ hcls]
    refine ensures_bind (ensures_bind hx' (R := fun _ => Cached ec) fun h e₁ hc => ?_) fun _ _ h => h
    refine ensures_bind (ensures_mono (cached_needSectionHeaders hc h) (fun _ _ h => h) (fun _ h => .inl h)
      fun _ h => h) fun _ e₂ hc' => ?_
    split
    · exact hc'
    · exact .inl hc'

/-- A descriptor that was just opened, or one with a header. -/
theorem run_cached {P : Elf → Prop} (hP : ∀ e, P e → e.eClass = some ec ∧
      (libelfEhdr env ec false e).Ensures (fun _ => Cached ec) P (fun _ => True)) (qs : List HeaderCall) :
    ∀ e e', Cached ec e ∨ P e → runOps (HeaderCall.step env) e qs = .ok e' → Cached ec e' ∨ P e' := by
  have hstep : ∀ e q e', Cached ec e ∨ P e → HeaderCall.step env e q = .ok e' → Cached ec e' ∨ P e' := by
    intro e q e' hcase h
    have hx : e.eClass = some ec ∧ (libelfEhdr env ec false e).Ensures (fun _ => Cached ec) P (fun _ => True) := by
      rcases hcase with hc | hp
      · obtain ⟨hdr, hehdr⟩ := @Cached.libelfEhdr env ec e hc
        rw [hehdr]
        exact ⟨hc.elfClass, hc⟩
      · exact hP e hp
    exact (ensures_next (ensures_mono (call_ensures hx.1 hx.2 q) (fun _ _ h => .inl h) (fun _ h => h)
      fun _ h => h)).1 e' h
  intro e e' hcase hrun
  exact (runOps_inv (F := fun _ => True) hstep (fun _ _ _ _ _ => trivial) qs e hcase).1 e' hrun

/-! ## A header that is refused -/

/-- The image is too short for a header, or of no known version: every call fails, and changes nothing. -/
theorem call_fails {err : ElfError} (hcls : e.eClass = some ec) (hx : libelfEhdr env ec false e = .err err e)
    (q : HeaderCall) : q.call env e = .err err e := by
  cases q with
  | getehdr =>
    show (gelfGetehdr env e).bind _ = _
    rw [gelfGetehdr, withClass_of_class _ hcls, hx]
    rfl
  | getshdrnum =>
    show (elfGetshdrnum env e).bind _ = _
    rw [elfGetshdrnum, withClass_of_class _ hcls, hx]
    rfl
  | getphdrnum =>
    show (elfGetphdrnum env e).bind _ = _
    rw [elfGetphdrnum, withClass_of_class _ hcls, hx]
    rfl
  | getshdrstrndx =>
    show (elfGetshdrstrndx env e).bind _ = _
    rw [elfGetshdrstrndx, withClass_of_class _ hcls, hx]
    rfl
  | getscn index =>
    show (elfGetscn env index e).bind _ = _
    rw [elfGetscn, withClass_of_class _ hcls, hx]
    rfl

theorem run_fails {err : ElfError} (hcls : e.eClass = some ec) (hx : libelfEhdr env ec false e = .err err e)
    (qs : List HeaderCall) : runOps (HeaderCall.step env) e qs = .ok e := by
  induction qs with
  | nil => rfl
  | cons q qs ih =>
    have hstep : HeaderCall.step env e q = .ok e := by
      rw [HeaderCall.step, call_fails hcls hx]
      rfl
    rw [runOps, hstep]
    exact ih

theorem staysBad_of_fails {err : ElfError} (hcls : e₀.eClass = some ec)
    (hx : libelfEhdr env ec false e₀ = .err err e₀) : StaysBad env e₀ := by
  intro before after q e e' e'' err' hbefore hfail hafter
  obtain rfl := Except.ok.inj ((run_fails hcls hx before).symm.trans hbefore)
  rw [gelfGetehdr, withClass_of_class _ hcls, hx] at hfail
  obtain ⟨-, rfl⟩ := Outcome.err.inj hfail
  obtain rfl := Except.ok.inj ((run_fails hcls hx after).symm.trans hafter)
  exact ⟨err, e₀, call_fails hcls hx q⟩

/-- A descriptor of an object that was not looked at. -/
structure Unread (ec : ElfClass) (e : Elf) : Prop where
  elfClass : e.eClass = some ec
  version : e.eVersion = evCurrent
  ehdr : e.eEhdr = none
  scn : e.eScn = []
  cmd : e.eCmd ≠ .write
  long : fsize .ehdr ec ≤ e.rawsize

/-- Where the counts are refused the header is there nevertheless. -/
theorem libelfEhdr_refused (hu : Unread ec e) (hr : Refused env ec e) :
    ∃ err e', libelfEhdr env ec false e = .err err e' ∧ Cached ec e' := by
  have hrefused : Cached ec (e.setEhdr (fileEhdr env ec e)) := ⟨hu.elfClass, hu.version, rfl⟩
  have hempty : (e.setEhdr (fileEhdr env ec e)).eScn = [] := hu.scn
  by_cases hbad : badCounts ec (fileEhdr env ec e)
  · refine ⟨.HEADER, _, ?_, hrefused⟩
    rw [libelfEhdr_file hu.elfClass hu.version hu.ehdr hu.cmd hu.long, if_pos hbad]
  · obtain ⟨hext, hshdr⟩ := hr.resolve_left hbad
    rcases hshdr with hshort | ⟨hin, htype⟩
    · refine ⟨.HEADER, _, ?_, hrefused⟩
      rw [libelfEhdr_file hu.elfClass hu.version hu.ehdr hu.cmd hu.long, if_neg hbad, if_pos hext, loadExtended,
        if_neg (not_not.mpr hempty), Elf.rawsize_setEhdr, if_pos hshort, bind_err]
    · refine ⟨.SECTION, ?_, ?_, ?_⟩
      rotate_left
      · rw [libelfEhdr_extended hu.elfClass hu.version hu.ehdr hu.cmd hu.long hu.scn hbad hext
          (lt_of_le_of_lt hin e.rawsize_lt)]
        dsimp only
        rw [if_neg (Nat.not_lt.mpr hin), if_pos htype]
      · exact ⟨hu.elfClass, hu.version, rfl⟩

/-- Where the counts are not refused the call finds the header or never returns. -/
theorem libelfEhdr_accepted (hu : Unread ec e) (hr : ¬ Refused env ec e) :
    (libelfEhdr env ec false e).Ensures (fun _ => Cached ec) (fun _ => False) (fun _ => True) := by
  have hempty : (e.setEhdr (fileEhdr env ec e)).eScn = [] := hu.scn
  obtain ⟨hbad, hext⟩ := not_or.mp hr
  have hok : (libelfEhdr env ec false e).Ensures (fun _ _ => True) (fun _ => False) (fun _ => True) := by
    rw [libelfEhdr_file hu.elfClass hu.version hu.ehdr hu.cmd hu.long, if_neg hbad]
    split
    · next hex =>
      obtain ⟨hroom, htype⟩ := not_or.mp fun h => hext ⟨hex, h⟩
      refine ensures_bind (Q := fun _ _ => True) ?_ fun _ _ _ => trivial
      rw [loadExtended, if_neg (not_not.mpr hempty), Elf.rawsize_setEhdr, if_neg hroom, Elf.read]
      -- the sum in the check may wrap around, and then the load is outside of the image
      cases hread : (readAt ((e.setEhdr (fileEhdr env ec e)).rawbytes) (ec.get (fileEhdr env ec e).eShoff)
          (fsize .shdr ec) ((e.setEhdr (fileEhdr env ec e)).setScn [allocateScn 0]) : Call (List UInt8)) with
      | err _ _ => exact absurd hread readAt_ne_err
      | stop _ => trivial
      | ok bs t =>
        obtain ⟨hin, rfl, rfl⟩ := readAt_eq_ok.mp hread
        rw [Elf.rawbytes_setEhdr, e.length_rawbytes] at hin
        have hin := hin.resolve_left (Nat.ne_of_gt (fsize_shdr_pos ec))
        rw [bind_ok]
        dsimp only
        rw [if_neg]
        · trivial
        · exact fun h => htype ⟨hin, h⟩
    · trivial
  refine ensures_mono (ensures_and_ok hok fun _ _ hx => cached_of_ok hx) (fun _ _ h => h.2) (fun _ h => h) fun _ h => h

/-- A descriptor opened to be read has no header yet. -/
theorem opened_fields {c : Cmd} {im : Image} (hopen : openObject env c im = .ok (some e₀)) (hc : c ≠ .write) :
    e₀.eEhdr = none ∧ e₀.eScn = [] ∧ e₀.eCmd ≠ .write := by
  unfold openObject at hopen
  split at hopen
  · exact absurd rfl hc
  · split at hopen
    · cases hopen
    · cases hmem : libelfMemory im with
      | error err =>
        rw [hmem] at hopen
        cases hopen
      | ok o =>
        cases o with
        | none =>
          rw [hmem] at hopen
          cases hopen
        | some e =>
          obtain ⟨-, ec, -, -, rfl⟩ := libelfMemory_eq_some hmem
          rw [hmem] at hopen
          cases hopen
          exact ⟨rfl, rfl, hc⟩

/-- A bad header stays bad exactly where the image has no known version, is too short for a header, or has a header
whose counts are not refused. -/
theorem stays_bad_iff {c : Cmd} {im : Image} (hopen : openObject env c im = .ok (some e₀)) (hc : c ≠ .write)
    (hcls : e₀.eClass = some ec) :
    StaysBad env e₀ ↔ e₀.eVersion ≠ evCurrent ∨ e₀.rawsize < fsize .ehdr ec ∨ ¬ Refused env ec e₀ := by
  obtain ⟨hh, hscn, hcmd⟩ := opened_fields hopen hc
  by_cases hver : e₀.eVersion = evCurrent
  · by_cases hshort : e₀.rawsize < fsize .ehdr ec
    · exact iff_of_true (staysBad_of_fails hcls (libelfEhdr_short hcls hver hh hcmd hshort)) (.inr (.inl hshort))
    · have hu : Unread ec e₀ := ⟨hcls, hver, hh, hscn, hcmd, Nat.le_of_not_lt hshort⟩
      by_cases hr : Refused env ec e₀
      · -- the second call returns the header that the first one refused
        refine iff_of_false (fun hbad => ?_) ?_
        · obtain ⟨err, e', hfail, hcached⟩ := libelfEhdr_refused hu hr
          have hfirst : gelfGetehdr env e₀ = .err err e' := by
            rw [gelfGetehdr, withClass_of_class _ hcls]
            exact hfail
          obtain ⟨err', e₃, hsecond⟩ := hbad [] [] .getehdr e₀ e' e' err rfl hfirst rfl
          obtain ⟨h, hget⟩ := @Cached.gelfGetehdr env ec _ hcached
          have hsecond : (gelfGetehdr env e').bind (fun _ => .ok ()) = .err err' e₃ := hsecond
          rw [hget] at hsecond
          cases hsecond
        · rintro (h | h | h)
          · exact h hver
          · exact hshort h
          · exact h hr
      · refine iff_of_true (fun before after q e e' e'' err hbefore hfail => ?_) (.inr (.inr hr))
        -- no call of the header fails in any run
        have hx := libelfEhdr_accepted hu hr
        have hacc : ∀ e, e = e₀ → e.eClass = some ec ∧
            (libelfEhdr env ec false e).Ensures (fun _ => Cached ec) (· = e₀) (fun _ => True) := by
          rintro e rfl
          exact ⟨hcls, ensures_mono hx (fun _ _ h => h) (fun _ h => h.elim) fun _ h => h⟩
        rcases run_cached hacc before e₀ e (.inr rfl) hbefore with hcached | rfl
        · obtain ⟨h, hget⟩ := @Cached.gelfGetehdr env ec _ hcached
          rw [hget] at hfail
          cases hfail
        · rw [gelfGetehdr, withClass_of_class _ hcls] at hfail
          have hfail : libelfEhdr env ec false e = .err err e' := hfail
          rw [hfail] at hx
          exact hx.elim
  · refine iff_of_true ?_ (.inl hver)
    have hfail : libelfEhdr env ec false e₀ = .err .VERSION e₀ := by
      unfold libelfEhdr
      rw [if_neg (by simp [hcls]), if_pos hver]
    exact staysBad_of_fails hcls hfail

/-- A file that ends in the middle of its header. -/
def cutImage : Image where
  addr := 4096
  bytes := [0x7F, 0x45, 0x4C, 0x46, 1, 1, 1, 0, 0, 0, 0, 0, 0, 0, 0, 0, 1]
  size_lt := by decide

theorem cutImage_stays_bad : ∃ e₀, openObject plainEnv .read cutImage = .ok (some e₀) ∧
    gelfGetehdr plainEnv e₀ = .err .HEADER e₀ ∧ StaysBad plainEnv e₀ := by
  have hopen : ∃ e₀, openObject plainEnv .read cutImage = .ok (some e₀) ∧ gelfGetehdr plainEnv e₀ = .err .HEADER e₀ ∧
      e₀.eClass = some .elfclass32 ∧ e₀.rawbytes.length = 17 := ⟨_, rfl, rfl, rfl, rfl⟩
  obtain ⟨e₀, he₀, hget, hcls, hsize⟩ := hopen
  refine ⟨e₀, he₀, hget, (stays_bad_iff he₀ nofun hcls).mpr (.inr (.inl ?_))⟩
  rw [← e₀.length_rawbytes, hsize]
  decide

/-- A header that counts one section header, with no section header table. -/
def noTableImage : Image where
  addr := 4096
  bytes := [0x7F, 0x45, 0x4C, 0x46, 1, 1, 1, 0, 0, 0, 0, 0, 0, 0, 0, 0,
    1, 0, 0, 0, 1, 0, 0, 0, 0, 0, 0, 0, 0, 0, 0, 0, 0, 0, 0, 0, 0, 0, 0, 0, 52, 0, 0, 0, 0, 0, 40, 0, 1, 0, 0, 0]
  size_lt := by decide

/-- The first call refuses the header, and the second one returns it. -/
theorem noTableImage_forgotten : ∃ e₀ e h, openObject plainEnv .read noTableImage = .ok (some e₀) ∧
    gelfGetehdr plainEnv e₀ = .err .HEADER e ∧ gelfGetehdr plainEnv e = .ok h e ∧ ¬ StaysBad plainEnv e₀ := by
  have hopen : ∃ e₀ e h, openObject plainEnv .read noTableImage = .ok (some e₀) ∧
      gelfGetehdr plainEnv e₀ = .err .HEADER e ∧ gelfGetehdr plainEnv e = .ok h e := ⟨_, _, _, rfl, rfl, rfl⟩
  obtain ⟨e₀, e, h, he₀, hfail, hget⟩ := hopen
  refine ⟨e₀, e, h, he₀, hfail, hget, fun hbad => ?_⟩
  obtain ⟨err, e₃, hagain⟩ := hbad [] [] .getehdr e₀ e e .HEADER rfl hfail rfl
  have hagain : (gelfGetehdr plainEnv e).bind (fun _ => .ok ()) = .err err e₃ := hagain
  rw [hget] at hagain
  cases hagain

end LibElf.Toolchain
