import LibElf.Toolchain.GElfHeader
import LibElf.Toolchain.SessionRun
import Mathlib.Data.UInt

/-!
# Updates that are refused

A `gelf_update_*` call that fails should leave the header or record as it was. The checks come one by one,
each just before the store that it guards.

1. `headerOf`, the executable header of a descriptor, whether or not it has been read in.
2. `Untouched`: a call left what it names. `StoredAlready`: the fields before the first check that fails have
   the new values already.
3. `refused_update_iff`, and an update of a section header that is refused halfway.
-/

namespace LibElf.Toolchain

open Outcome

section Header

variable {env : Env} {ec : ElfClass} {e e' : Elf}

variable (env ec e) in
/-- The executable header: the cached one, else the one that a call would read in. -/
def headerOf : Ehdr :=
  match e.eEhdr with
  | some h => h
  | none => if e.eCmd = .write then ehdrInit ec else fileEhdr env ec e

theorem headerOf_cached {h : Ehdr} (hh : e.eEhdr = some h) : headerOf env ec e = h := by
  unfold headerOf
  rw [hh]

/-- Reading the header in does not change it, also when the call fails on the way. -/
theorem libelfEhdr_keeps (hclass : e.eClass = some ec) :
    (libelfEhdr env ec false e).Ensures
      (fun h e' => h = headerOf env ec e ∧ e'.eEhdr = some h ∧ e'.ePhdr = e.ePhdr)
      (fun e' => headerOf env ec e' = headerOf env ec e ∧ e'.ePhdr = e.ePhdr) (fun _ => True) := by
  by_cases hver : e.eVersion = evCurrent
  swap
  · unfold libelfEhdr
    rw [if_neg (by simp [hclass]), if_pos hver]
    exact ⟨rfl, rfl⟩
  cases hh : e.eEhdr with
  | some h =>
    rw [libelfEhdr_cached hclass hver hh]
    exact ⟨(headerOf_cached hh).symm, hh, rfl⟩
  | none =>
    by_cases hcmd : e.eCmd = .write
    · rw [libelfEhdr_write (.inr hclass) hver hh hcmd]
      refine ⟨?_, rfl, rfl⟩
      rw [headerOf, hh]
      exact (if_pos hcmd).symm
    have hfile : headerOf env ec e = fileEhdr env ec e := by
      rw [headerOf, hh]
      exact if_neg hcmd
    by_cases hlen : e.rawsize < fsize .ehdr ec
    · rw [libelfEhdr_short hclass hver hh hcmd hlen]
      exact ⟨rfl, rfl⟩
    rw [libelfEhdr_file hclass hver hh hcmd (Nat.le_of_not_lt hlen), hfile]
    split
    · exact ⟨rfl, rfl⟩
    split
    · -- section header 0 is read after the header has been cached
      generalize hload : loadExtended env ec _ _ _ (e.setEhdr (fileEhdr env ec e)) = x
      unfold loadExtended at hload
      split at hload
      · subst hload
        trivial
      split at hload
      · subst hload
        exact ⟨rfl, rfl⟩
      · subst hload
        unfold Elf.read readAt
        split
        · rw [bind_ok]
          dsimp only
          split
          · exact ⟨rfl, rfl⟩
          · exact ⟨rfl, rfl, rfl⟩
        · trivial
    · exact ⟨rfl, rfl, rfl⟩

end Header

/-! ## What a call names -/

section Named

variable {env : Env} {e e' : Elf}

def bufferAt (e : Elf) (i j : Nat) : Option ElfData := (dataAt e i j).map Prod.snd

/-- The call left the header, or the records and the index table, that it names. -/
def Untouched (env : Env) : GElfOp → Elf → Elf → Prop
  | .ehdr _, e, e' => ∀ ec, e.eClass = some ec → headerOf env ec e' = headerOf env ec e
  | .phdr _ _, e, e' => e'.ePhdr = e.ePhdr
  | .shdr i _, e, e' => (e'.eScn[i]?).map Scn.shdr = (e.eScn[i]?).map Scn.shdr
  | .record _ i j _ _, e, e' => bufferAt e' i j = bufferAt e i j
  | .symshndx i j idx _ _ _, e, e' =>
    bufferAt e' i j = bufferAt e i j ∧ ∀ p ∈ idx, bufferAt e' p.1 p.2 = bufferAt e p.1 p.2

/-- The record has the new values already, in the fields before the first check that fails. -/
def RecordStored (env : Env) (k : RecordKind) (i j : Nat) (ndx : Int32) (v : GElfRecord k) (e : Elf) : Prop :=
  ∀ s d p, dataAt e i j = some (s, d) → locate k e s ndx d () = .ok p () →
    ∀ a ∈ Assign.reached (k.assigns env.host v.padding p.1 p.2) v.vals, a.Holds v.vals d

/-- What the call names has the new values already, in the fields before the first check that fails, if the
call gets as far as that. -/
def StoredAlready (env : Env) : GElfOp → Elf → Prop
  | .ehdr s, e => ∀ ec h e₁, e.eClass = some ec → e.eCmd ≠ .read → libelfEhdr env ec false e = .ok h e₁ →
      ∀ a ∈ Assign.reached (ehdrAssigns ec) s, a.Holds s (headerOf env ec e)
  | .phdr ndx s, e => ∀ ec n e₁ ps p, e.eClass = some ec → e.eCmd ≠ .read → elfGetphdrnum env e = .ok n e₁ →
      0 ≤ ndx.toInt → ndx.toInt.toNat ≤ n → e.ePhdr = some ps → ps[ndx.toInt.toNat]? = some p →
      ∀ a ∈ Assign.reached (phdrAssigns ec) s, a.Holds s p
  | .shdr i s, e => ∀ ec scn, e.eClass = some ec → e.eCmd ≠ .read → e.eScn[i]? = some scn →
      ∀ a ∈ Assign.reached (shdrAssigns ec) s, a.Holds s scn.shdr
  | .record k i j ndx v, e => RecordStored env k i j ndx v e
  | .symshndx i j _ ndx v _, e => RecordStored env .sym i j ndx v e

end Named

/-! ## Headers -/

section Headers

variable {env : Env} {e e' : Elf} {er : ElfError}

/-- A call that has to do with the class, on a descriptor that has one. -/
theorem withClass_err {α : Type} {f : ElfClass → Elf → Call α} (h : withClass f e = .err er e') :
    (e.eClass = none ∧ e' = e) ∨ ∃ ec, e.eClass = some ec ∧ f ec e = .err er e' := by
  unfold withClass at h
  cases hclass : e.eClass with
  | none =>
    rw [hclass] at h
    cases h
    exact .inl ⟨rfl, rfl⟩
  | some ec =>
    rw [hclass] at h
    exact .inr ⟨ec, rfl, h⟩

theorem refused_ehdr_iff {s : Ehdr} (h : gelfUpdateEhdr env s e = .err er e') :
    Untouched env (.ehdr s) e e' ↔ StoredAlready env (.ehdr s) e := by
  obtain ⟨hnone, rfl⟩ | ⟨ec, hclass, h⟩ := withClass_err h
  · refine iff_of_true (fun _ _ => rfl) fun ec _ _ hclass => ?_
    rw [hnone] at hclass
    cases hclass
  by_cases hcmd : e.eCmd = .read
  · rw [if_pos hcmd] at h
    cases h
    exact iff_of_true (fun _ _ => rfl) fun _ _ _ _ hne => absurd hcmd hne
  rw [if_neg hcmd] at h
  have hkeeps := @libelfEhdr_keeps env ec e hclass
  cases hread : libelfEhdr env ec false e with
  | stop f =>
    rw [hread] at h
    cases h
  | err er₁ e₁ =>
    rw [hread] at h hkeeps
    cases h
    refine iff_of_true ?_ ?_
    · intro ec' hclass'
      obtain rfl := Option.some.inj (hclass'.symm.trans hclass)
      exact hkeeps.1
    · intro ec' h' e₁ hclass' _ hok
      obtain rfl := Option.some.inj (hclass'.symm.trans hclass)
      rw [hread] at hok
      cases hok
  | ok h₀ e₁ =>
    rw [hread, bind_ok] at h
    rw [hread] at hkeeps
    obtain ⟨rfl, -⟩ := hkeeps
    obtain ⟨r, hrun, rfl⟩ := within_eq_err.mp h
    have hsame := @Assign.run_same_iff _ _ _ .RANGE _ s (headerOf env ec e) r (independent_ehdrAssigns ec)
      (by rw [hrun]; rfl)
    constructor
    · intro hunt ec' _ _ hclass' _ _
      obtain rfl := Option.some.inj (hclass'.symm.trans hclass)
      exact hsame.mp (hunt ec' hclass)
    · intro hstored ec' hclass'
      obtain rfl := Option.some.inj (hclass'.symm.trans hclass)
      exact hsame.mpr (hstored ec' _ _ hclass hcmd hread)

theorem refused_phdr_iff {ndx : Int32} {s : Phdr} (h : gelfUpdatePhdr env ndx s e = .err er e') :
    Untouched env (.phdr ndx s) e e' ↔ StoredAlready env (.phdr ndx s) e := by
  obtain ⟨hnone, rfl⟩ | ⟨ec, hclass, h⟩ := withClass_err h
  · refine iff_of_true rfl fun ec _ _ _ _ hclass => ?_
    rw [hnone] at hclass
    cases hclass
  have hkeeps := @libelfEhdr_keeps env ec e hclass
  have hcount : elfGetphdrnum env e = (libelfEhdr env ec false e).bind fun _ e => .ok e.eNphdr e := by
    unfold elfGetphdrnum withClass
    rw [hclass]
  cases hread : libelfEhdr env ec false e with
  | stop f =>
    rw [hcount, hread] at h
    cases h
  | err er₁ e₁ =>
    rw [hcount, hread] at h
    rw [hread] at hkeeps
    cases h
    refine iff_of_true hkeeps.2 fun ec' n e₂ ps p _ _ hok => ?_
    rw [hcount, hread] at hok
    cases hok
  | ok h₀ e₁ =>
    rw [hread, bind_ok] at hcount
    rw [hread] at hkeeps
    obtain ⟨hclass₁, hver₁, hh₁, hfile⟩ := libelfEhdr_ok hread
    obtain ⟨-, -, hphdr⟩ := hkeeps
    rw [hcount] at h
    dsimp only at h
    by_cases hcmd : e₁.eCmd = .read
    · rw [if_pos hcmd] at h
      cases h
      refine iff_of_true hphdr fun _ _ _ _ _ _ hne => ?_
      rw [hfile.cmd] at hcmd
      exact absurd hcmd hne
    rw [if_neg hcmd, libelfEhdr_cached hclass₁ hver₁ hh₁, bind_ok] at h
    by_cases hndx : ndx.toInt < 0 ∨ e₁.eNphdr < ndx.toInt.toNat
    · rw [if_pos hndx] at h
      cases h
      refine iff_of_true hphdr fun _ n e₂ _ _ _ _ hok hpos hle => ?_
      rw [hcount] at hok
      obtain ⟨rfl, -⟩ := Outcome.ok.inj hok
      omega
    rw [if_neg hndx, hphdr] at h
    cases hps : e.ePhdr with
    | none =>
      rw [hps] at h
      cases h
    | some ps =>
      rw [hps] at h
      dsimp only at h
      cases hp : ps[ndx.toInt.toNat]? with
      | none =>
        rw [hp] at h
        cases h
      | some p =>
        rw [hp] at h
        obtain ⟨r, hrun, rfl⟩ := within_eq_err.mp h
        have hsame := @Assign.run_same_iff _ _ _ .RANGE _ s p r (independent_phdrAssigns ec) (by rw [hrun]; rfl)
        have hset : some (ps.set ndx.toInt.toNat r) = e.ePhdr ↔ r = p := by
          obtain ⟨hlt, hget⟩ := List.getElem?_eq_some_iff.mp hp
          rw [hps, Option.some.injEq]
          constructor
          · intro heq
            have hval := congrArg (·[ndx.toInt.toNat]?) heq
            simp only [List.getElem?_set_self hlt, hp] at hval
            exact Option.some.inj hval
          · rintro rfl
            rw [← hget]
            exact List.set_getElem_self hlt
        refine hset.trans (hsame.trans ⟨?_, ?_⟩)
        · intro hall ec' n e₂ ps' p' hclass' _ _ _ _ hps' hp'
          obtain rfl := Option.some.inj (hclass'.symm.trans hclass)
          obtain rfl := Option.some.inj (hps'.symm.trans hps)
          obtain rfl := Option.some.inj (hp'.symm.trans hp)
          exact hall
        · intro hstored
          exact hstored ec _ _ ps p hclass (fun hc => hcmd (hfile.cmd.trans hc)) hcount (by omega) (by omega) hps hp

theorem refused_shdr_iff {i : Nat} {s : Shdr} (h : gelfUpdateShdr i s e = .err er e') :
    Untouched env (.shdr i s) e e' ↔ StoredAlready env (.shdr i s) e := by
  obtain ⟨hnone, rfl⟩ | ⟨ec, hclass, h⟩ := withClass_err h
  · refine iff_of_true rfl fun ec _ hclass => ?_
    rw [hnone] at hclass
    cases hclass
  cases hs : e.eScn[i]? with
  | none =>
    rw [hs] at h
    cases h
    refine iff_of_true rfl fun _ _ _ _ hsome => ?_
    rw [hs] at hsome
    cases hsome
  | some scn =>
    rw [hs] at h
    dsimp only at h
    by_cases hcmd : e.eCmd = .read
    · rw [if_pos hcmd] at h
      cases h
      exact iff_of_true rfl fun _ _ _ hne => absurd hcmd hne
    rw [if_neg hcmd] at h
    obtain ⟨r, hrun, rfl⟩ := within_eq_err.mp h
    have hsame := @Assign.run_same_iff _ _ _ .RANGE _ s scn.shdr r (independent_shdrAssigns ec) (by rw [hrun]; rfl)
    obtain ⟨hlt, -⟩ := List.getElem?_eq_some_iff.mp hs
    have hunt : Untouched env (.shdr i s) e (e.setScn (e.eScn.set i { scn with shdr := r, sDirty := true })) ↔
        r = scn.shdr := by
      simp [Untouched, Elf.setScn, List.getElem?_set_self hlt, hs]
    refine hunt.trans (hsame.trans ⟨?_, ?_⟩)
    · intro hall ec' scn' hclass' _ hs'
      obtain rfl := Option.some.inj (hclass'.symm.trans hclass)
      obtain rfl := Option.some.inj (hs'.symm.trans hs)
      exact hall
    · intro hstored
      exact hstored ec scn hclass hcmd hs

end Headers

/-! ## Records -/

section Records

variable {env : Env} {e e' : Elf} {er : ElfError} {i j : Nat} {s : Scn} {d d' : ElfData}

/-- Replace data descriptor `j` of section `i`. -/
def putData (e : Elf) (i j : Nat) (s : Scn) (d : ElfData) : Elf :=
  e.setScn (e.eScn.set i { s with sData := s.sData.set j d })

theorem bufferAt_putData_self (h : dataAt e i j = some (s, d)) : bufferAt (putData e i j s d') i j = some d' := by
  obtain ⟨hs, hd⟩ := dataAt_eq_some.mp h
  obtain ⟨hi, -⟩ := List.getElem?_eq_some_iff.mp hs
  obtain ⟨hj, -⟩ := List.getElem?_eq_some_iff.mp hd
  have hat : dataAt (putData e i j s d') i j = some ({ s with sData := s.sData.set j d' }, d') :=
    dataAt_eq_some.mpr ⟨List.getElem?_set_self hi, List.getElem?_set_self hj⟩
  rw [bufferAt, hat]
  rfl

theorem bufferAt_putData_other (h : dataAt e i j = some (s, d)) {i' j' : Nat} (hne : (i', j') ≠ (i, j)) :
    bufferAt (putData e i j s d') i' j' = bufferAt e i' j' := by
  obtain ⟨hs, hd⟩ := dataAt_eq_some.mp h
  obtain ⟨hi, -⟩ := List.getElem?_eq_some_iff.mp hs
  unfold bufferAt dataAt putData
  simp only [Elf.setScn_eScn]
  by_cases heq : i' = i
  · subst heq
    have hj : j' ≠ j := fun hj => hne (by rw [hj])
    rw [List.getElem?_set_self hi, hs]
    simp [List.getElem?_set_ne (Ne.symm hj)]
  · rw [List.getElem?_set_ne (Ne.symm heq)]

/-- A call on a data descriptor puts back what it left. -/
theorem onData_next {f : Elf → Scn → ElfData → DataCall Unit} (h : (onData f i j e).next = .ok e') :
    (dataAt e i j = none ∧ e' = e) ∨ ∃ s d d', dataAt e i j = some (s, d) ∧ (f e s d).next = .ok d' ∧
      e' = putData e i j s d' := by
  unfold onData at h
  cases hat : dataAt e i j with
  | none =>
    rw [hat] at h
    cases h
    exact .inl ⟨rfl, rfl⟩
  | some p =>
    rw [hat] at h
    obtain ⟨s, d⟩ := p
    refine .inr ⟨s, d, ?_⟩
    cases hf : f e s d with
    | ok u d' =>
      simp only [hf, within_ok] at h
      cases h
      exact ⟨d', rfl, rfl, rfl⟩
    | err er' d' =>
      simp only [hf, within_err] at h
      cases h
      exact ⟨d', rfl, rfl, rfl⟩
    | stop t =>
      simp only [hf, within_stop] at h
      cases h

/-- An update changes nothing exactly when the fields before the first check that fails have their values. -/
theorem gelfUpdate_same_iff {k : RecordKind} {ndx : Int32} {v : GElfRecord k}
    (h : (gelfUpdate env.host k e s ndx v d).next = .ok d') :
    d' = d ↔ ∀ p, locate k e s ndx d () = .ok p () →
      ∀ a ∈ Assign.reached (k.assigns env.host v.padding p.1 p.2) v.vals, a.Holds v.vals d := by
  unfold gelfUpdate at h
  cases hloc : locate k e s ndx d d with
  | ok p d₁ =>
    obtain ⟨rfl, -⟩ := locate_ok hloc
    rw [hloc, bind_ok] at h
    rw [Assign.run_same_iff (independent_assigns env.host k p.1 p.2 v.padding) h]
    constructor
    · intro hall p' hp'
      have hsame := locate_state hp' d₁
      rw [hloc] at hsame
      obtain ⟨rfl, -⟩ := Outcome.ok.inj hsame
      exact hall
    · intro hall
      exact hall p (locate_state hloc ())
  | err er d₁ =>
    rw [hloc] at h
    have hd : d₁ = d := locate_err hloc
    cases h
    refine iff_of_true hd fun p hp => ?_
    have hsame := locate_state hp d
    rw [hloc] at hsame
    cases hsame
  | stop f =>
    rw [hloc] at h
    cases h

/-- What a call on a record leaves of it. -/
theorem record_same_iff {k : RecordKind} {ndx : Int32} {v : GElfRecord k}
    (h : (onData (fun e s d => gelfUpdate env.host k e s ndx v d) i j e).next = .ok e') :
    (bufferAt e' i j = bufferAt e i j ↔ RecordStored env k i j ndx v e) ∧
      ∀ i' j', (i', j') ≠ (i, j) → bufferAt e' i' j' = bufferAt e i' j' := by
  obtain ⟨hnone, rfl⟩ | ⟨s, d, d', hat, hf, rfl⟩ := onData_next h
  · refine ⟨iff_of_true rfl fun s d p hat => ?_, fun _ _ _ => rfl⟩
    rw [hnone] at hat
    cases hat
  refine ⟨?_, fun i' j' hne => bufferAt_putData_other hat hne⟩
  have hbefore : bufferAt e i j = some d := by
    rw [bufferAt, hat]
    rfl
  rw [bufferAt_putData_self hat, hbefore, Option.some.injEq, gelfUpdate_same_iff hf]
  constructor
  · intro hall s' d₁ p hat'
    obtain ⟨rfl, rfl⟩ := Prod.mk.inj (Option.some.inj (hat.symm.trans hat'))
    exact hall p
  · intro hstored p hp
    exact hstored s d p hat hp

/-- After the symbol has been updated, a failure changes nothing more. -/
theorem refused_symshndx_iff {idx : Option (Nat × Nat)} {ndx : Int32} {v : GElfRecord .sym} {xindex : UInt32}
    (h : gelfUpdateSymshndx env i j idx ndx v xindex e = .err er e') :
    Untouched env (.symshndx i j idx ndx v xindex) e e' ↔ StoredAlready env (.symshndx i j idx ndx v xindex) e := by
  have hnext : (onData (fun e s d => gelfUpdate env.host .sym e s ndx v d) i j e).next = .ok e' := by
    unfold gelfUpdateSymshndx at h
    obtain hupd | ⟨u, e₁, hupd, hrest⟩ := bind_eq_err.mp h
    · rw [hupd]
      rfl
    rw [hupd]
    have hsame : e' = e₁ := by
      cases hat : idx.bind fun p => dataAt e₁ p.1 p.2 with
      | none =>
        rw [hat] at hrest
        cases hrest
        rfl
      | some q =>
        rw [hat] at hrest
        dsimp only at hrest
        split at hrest
        · cases hrest
        split at hrest
        · cases hrest
          rfl
        split at hrest
        · cases hrest
        split at hrest
        · cases hrest
          rfl
        -- a store in the index table does not report an error
        unfold onData at hrest
        split at hrest
        · cases hrest
          rfl
        · obtain ⟨d₁, hstore, -⟩ := within_eq_err.mp hrest
          exact absurd hstore ElfData.store_ne_err
    rw [hsame]
    rfl
  obtain ⟨hiff, hother⟩ := record_same_iff hnext
  refine Iff.trans ⟨And.left, fun hsame => ⟨hsame, fun p _ => ?_⟩⟩ hiff
  by_cases hp : p = (i, j)
  · rw [hp]
    exact hsame
  · exact hother p.1 p.2 hp

end Records

/-- A call that fails leaves what it names exactly when the fields before the first check that fails have the
new values already. -/
theorem refused_update_iff {env : Env} {op : GElfOp} {e e' : Elf} {er : ElfError}
    (h : op.step env e = .err er e') : Untouched env op e e' ↔ StoredAlready env op e := by
  cases op with
  | ehdr s => exact refused_ehdr_iff h
  | phdr ndx s => exact refused_phdr_iff h
  | shdr i s => exact refused_shdr_iff h
  | record k i j ndx v =>
    have hnext : (onData (fun e s d => gelfUpdate env.host k e s ndx v d) i j e).next = .ok e' := by
      change onData (fun e s d => gelfUpdate env.host k e s ndx v d) i j e = .err er e' at h
      rw [h]
      rfl
    exact (record_same_iff hnext).1
  | symshndx i j idx ndx v xindex => exact refused_symshndx_iff h

/-- A class 32 section header whose `sh_flags` fit and whose `sh_addr` does not. -/
def farShdr : Shdr := { Shdr.zero with shType := 1, shFlags := 2, shAddr := 2 ^ 32 }

theorem refused_update_iff_farShdr : ∃ e₀ e e', openObject plainEnv .write noImage = .ok (some e₀) ∧
    runOps (Op.step plainEnv) e₀ [.newehdr .elfclass32, .newscn] = .ok e ∧
    (GElfOp.shdr 1 farShdr).step plainEnv e = .err .RANGE e' ∧
    (Untouched plainEnv (.shdr 1 farShdr) e e' ↔ StoredAlready plainEnv (.shdr 1 farShdr) e) := by
  have hrun : ∃ e₀ e e', openObject plainEnv .write noImage = .ok (some e₀) ∧
      runOps (Op.step plainEnv) e₀ [.newehdr .elfclass32, .newscn] = .ok e ∧
      (GElfOp.shdr 1 farShdr).step plainEnv e = .err .RANGE e' := ⟨_, _, _, rfl, rfl, rfl⟩
  obtain ⟨e₀, e, e', hopen, hops, hstep⟩ := hrun
  exact ⟨e₀, e, e', hopen, hops, hstep, refused_update_iff hstep⟩

/-- The call is refused, and the section has another type and other flags. -/
theorem farShdr_touched : ∃ e₀ e e', openObject plainEnv .write noImage = .ok (some e₀) ∧
    runOps (Op.step plainEnv) e₀ [.newehdr .elfclass32, .newscn] = .ok e ∧
    (GElfOp.shdr 1 farShdr).step plainEnv e = .err .RANGE e' ∧ ¬ Untouched plainEnv (.shdr 1 farShdr) e e' :=
  ⟨_, _, _, rfl, rfl, rfl, by unfold Untouched; decide +kernel⟩

end LibElf.Toolchain
