import Mathlib.Data.Set.Card
import LibElf.Toolchain.Numbers

/-!
# Setters and getters of the extended numbers

A getter should return what was set last, and the number of sections should be that of the sections that
are found. The index of the section name table is returned as it was in the file, or as 0.

1. `reached` and `elfGetshdrnum_counts`: the count of sections is the number of sections that are found.
2. `Given`, what the application has set, and `NumberStep`, the condition on a step.
3. `CacheHolds` and what a step keeps of it, `numbers_run`, and an index that is not returned.
-/

namespace LibElf.Toolchain

open Outcome

/-! ## The sections that are found -/

section Found

attribute [local irreducible] fsize msize

variable {env : Env} {ec : ElfClass} {e e' : Elf}

theorem loadLoop_returns (n : Nat) : ∀ (src ndx : Nat) (e : Elf), src + fsize .shdr ec * n ≤ e.rawsize →
    ∃ e', loadLoop env ec n src ndx e = .ok () e' := by
  induction n with
  | zero => exact fun _ _ e _ => ⟨e, rfl⟩
  | succ n ih =>
    intro src ndx e hin
    rw [Nat.mul_succ] at hin
    have hread : src + fsize .shdr ec ≤ e.rawbytes.length := by
      rw [e.length_rawbytes]
      omega
    rw [loadLoop, Elf.read, readAt_of_le _ hread, bind_ok]
    refine ih _ _ _ ?_
    rw [Elf.rawsize_setScn]
    omega

/-- A table in the image is read in. -/
theorem needSectionHeaders_returns (hl : Listed e) (hpart : ¬ Whole e) {h : Ehdr} (htable : TableIn e ec h e.eNscn) :
    ∃ e', needSectionHeaders env ec h e = .ok () e' := by
  obtain ⟨hoff, hsize, hroom⟩ := htable
  have hcmd : e.eCmd ≠ .write := fun h => hpart (.inl h)
  have hload : e.eFlags.shdrsLoaded = false := Bool.eq_false_iff.mpr fun h => hpart (.inr h)
  have hpos : 0 < fsize .shdr ec := fsize_shdr_pos ec
  have hcheck : ¬ (e.rawsize < ec.get h.eShoff ∨ fsize .shdr ec ≠ h.eShentsize.toNat ∨
      (2 ^ 64 - 1) / fsize .shdr ec < e.eNscn ∨ e.rawsize - ec.get h.eShoff < fsize .shdr ec * e.eNscn) := by
    rintro (hlt | hne | hmany | hlt)
    · omega
    · exact hne hsize.symm
    · have hlt := e.rawsize_lt
      have hle : e.eNscn ≤ (2 ^ 64 - 1) / fsize .shdr ec := by
        rw [Nat.le_div_iff_mul_le hpos, Nat.mul_comm]
        omega
      omega
    · omega
  unfold needSectionHeaders loadSectionHeaders
  rw [if_pos ⟨hcmd, hload⟩, hload, if_neg Bool.false_ne_true]
  dsimp only
  rw [if_neg hcheck]
  rcases hl.part hpart with hnil | ⟨hone, hn⟩
  · rw [List.map_eq_nil_iff.mp hnil]
    obtain ⟨e', hloop⟩ := @loadLoop_returns env ec e.eNscn (ec.get h.eShoff) 0 e (by omega)
    dsimp only
    rw [hloop, bind_ok]
    exact ⟨_, rfl⟩
  · obtain ⟨s, hs, -⟩ := List.map_eq_singleton_iff.mp hone
    obtain ⟨m, hm⟩ := Nat.exists_eq_succ_of_ne_zero hn
    rw [hm, Nat.mul_succ] at hroom
    obtain ⟨e', hloop⟩ := @loadLoop_returns env ec (e.eNscn - 1) (ec.get h.eShoff + fsize .shdr ec) 1 e (by
      rw [hm, Nat.succ_sub_one]
      omega)
    rw [hs]
    dsimp only
    rw [hloop, bind_ok]
    exact ⟨_, rfl⟩

/-- The indices of the sections that `elf_getscn` finds. -/
def reached (env : Env) (e : Elf) : Set Nat := { i | ∃ k e', elfGetscn env i e = .ok k e' }

/-- Also where the section headers have to be read in first, they are found by the indices below the count. -/
theorem reached_eq (hwf : Wf e) (hl : Listed e) (hload : Loadable e) (hh : e.eEhdr ≠ none) :
    reached env e = { i | i < e.eNscn } := by
  ext i
  show (∃ k e', elfGetscn env i e = .ok k e') ↔ i < e.eNscn
  by_cases hw : Whole e
  · exact hl.elfGetscn_iff hwf hw i
  obtain ⟨h, hh'⟩ := Option.ne_none_iff_exists'.mp hh
  obtain ⟨ec, hc⟩ : ∃ ec, e.eClass = some ec :=
    Option.ne_none_iff_exists'.mp fun hnone => hh (hwf.unset hnone).1
  have hneed := @listed_needSectionHeaders env ec e hl hh h
  rw [elfGetscn, withClass_of_class _ hc, libelfEhdr_cached hc (hwf.opened hh) hh', bind_ok]
  cases hx : needSectionHeaders env ec h e with
  | ok u e₂ =>
    rw [hx] at hneed
    obtain ⟨hl₂, hw₂, hn₂, -⟩ := hneed
    rw [bind_ok, ← hn₂, ← hl₂.findIdx?_isSome hw₂]
    cases e₂.eScn.findIdx? fun s => s.sNdx = i with
    | none => simp
    | some k => simp
  | err er e₂ =>
    rcases hload hw ec hc h hh' with hzero | htable
    · rw [hzero]
      simp
    · obtain ⟨e', hok⟩ := @needSectionHeaders_returns env ec e hl hw h htable
      rw [hx] at hok
      cases hok
  | stop f =>
    rcases hload hw ec hc h hh' with hzero | htable
    · rw [hzero]
      simp
    · obtain ⟨e', hok⟩ := @needSectionHeaders_returns env ec e hl hw h htable
      rw [hx] at hok
      cases hok

/-- The getter returns the number of sections that are found. -/
theorem elfGetshdrnum_counts (hwf : Wf e) (hl : Listed e) (hn : Numbered env e) {n : Nat}
    (hx : elfGetshdrnum env e = .ok n e') : (reached env e).ncard = n := by
  unfold elfGetshdrnum withClass at hx
  split at hx
  · cases hx
  next ec hc =>
  obtain ⟨h, e₁, hcall, hret⟩ := bind_eq_ok.mp hx
  obtain ⟨rfl, -⟩ := Outcome.ok.inj hret
  have hk := @keepsNumbers_ehdr env ec e hwf hl hn false
  have hlist := @listed_ehdr env ec e hwf hl hn.counts false
  rw [hcall] at hk hlist
  obtain ⟨⟨hn₁, -⟩, hh₁, hc₁, hv₁⟩ := hk
  obtain ⟨hl₁, hwf₁, hne₁, -⟩ := hlist
  -- the executable header is read in by either call
  have hsame : reached env e = reached env e₁ := by
    ext i
    have hget : elfGetscn env i e = elfGetscn env i e₁ := by
      unfold elfGetscn withClass
      rw [hc, hc₁]
      dsimp only
      rw [hcall, libelfEhdr_cached hc₁ hv₁ hh₁]
    show (∃ k e', elfGetscn env i e = .ok k e') ↔ _
    rw [hget]
    rfl
  rw [hsame, reached_eq hwf₁ hl₁ hn₁.loadable hne₁]
  have hrange : { i | i < e₁.eNscn } = ((Finset.range e₁.eNscn : Finset Nat) : Set Nat) := by
    ext i
    simp
  rw [hrange, Set.ncard_coe_finset, Finset.card_range]

end Found

/-! ## Runs -/

/-- What the application has set last: the index of the section name table, and the number of program headers. -/
structure Given where
  strndx : Option Nat
  phnum : Option Nat

/-- A setter that succeeds sets. -/
def Given.after (env : Env) (e : Elf) (g : Given) : Op → Given
  | .setshstrndx n => if (elfSetshstrndx env n e).value?.isSome then ⟨some n, g.phnum⟩ else g
  | .newphdr n => if (gelfNewphdr env n e).value?.isSome then ⟨g.strndx, some n⟩ else g
  | _ => g

/-- A step of an application that remembers what it has set. -/
def Given.step (env : Env) (s : Elf × Given) (op : Op) : Except Fault (Elf × Given) :=
  (op.step env s.1).map fun e => (e, s.2.after env s.1 op)

/-- The calls that make an object and set its numbers. -/
def Op.setsNumbers : Op → Bool
  | .newehdr _ | .setshstrndx _ | .newphdr _ | .newscn | .update .null => true
  | _ => false

/-- The index of the section name table is set to what the cache holds already; a number goes to section
header 0 only where that section is counted; and the count does not wrap. -/
def NumberStep (env : Env) (e : Elf) : Op → Prop
  | .setshstrndx n => (withHeader env e).eEhdr ≠ none →
      (withHeader env e).eStrndx = n ∧ (shnLoreserve ≤ n → (withHeader env e).eNscn ≠ 0)
  | .newscn => (withHeader env e).eNscn + 1 < 2 ^ 64
  | .update _ => pnXnum ≤ (withHeader env (currentVersion e)).eNphdr →
      (withHeader env (currentVersion e)).eNscn ≠ 0
  | _ => True

instance (env : Env) (e : Elf) (op : Op) : Decidable (NumberStep env e op) := by
  unfold NumberStep
  exact match op with
    | .setshstrndx _ => inferInstanceAs (Decidable (_ → _))
    | .newscn => inferInstanceAs (Decidable (_ < _))
    | .update _ => inferInstanceAs (Decidable (_ → _))
    | .newehdr _ | .getehdr | .setEhdr _ | .getphdr | .newphdr _ | .setPhdr .. | .getshdrnum | .getphdrnum | .getscn _
    | .setShdr .. | .putShdr .. | .flagScn .. | .getdata _ | .rawdata _ | .newdata _ | .setData .. | .flagLayout _ =>
      inferInstanceAs (Decidable True)

/-- The getters return what was set last, and the number of the sections that are found. -/
structure NumbersAgree (env : Env) (e : Elf) (g : Given) : Prop where
  shdrstrndx : ∀ n, g.strndx = some n → ∃ e', elfGetshdrstrndx env e = .ok n e'
  phdrnum : ∀ n, g.phnum = some n → ∃ e', elfGetphdrnum env e = .ok n e'
  shdrnum : ∀ n e', elfGetshdrnum env e = .ok n e' → (reached env e).ncard = n
  answered : e.eEhdr ≠ none → ∃ n e', elfGetshdrnum env e = .ok n e'

/-- The cache holds what was set. -/
structure CacheHolds (e : Elf) (g : Given) : Prop where
  strndx : ∀ n, g.strndx = some n → e.eEhdr ≠ none ∧ e.eStrndx = n
  phnum : ∀ n, g.phnum = some n → e.eEhdr ≠ none ∧ e.eNphdr = n

section Runs

attribute [local irreducible] fsize msize

variable {env : Env} {e e' : Elf} {g : Given}

theorem KeepsNumbers.cacheHolds (h : KeepsNumbers env e e') (hg : CacheHolds e g) : CacheHolds e' g := by
  refine ⟨fun n hn => ?_, fun n hn => ?_⟩
  · obtain ⟨hh, hx⟩ := hg.strndx n hn
    exact ⟨(h.2 hh).ehdr hh, (h.2 hh).strndx.trans hx⟩
  · obtain ⟨hh, hp⟩ := hg.phnum n hn
    exact ⟨(h.2 hh).ehdr hh, (h.2 hh).nphdr.trans hp⟩

/-- A setter of the index that is given what the cache holds. -/
theorem cacheHolds_setshstrndx (hwf : Wf e) (hl : Listed e) (hn : Numbered env e) (hg : CacheHolds e g) {n : Nat}
    (hstep : (withHeader env e).eEhdr ≠ none → (withHeader env e).eStrndx = n)
    (h : (Op.setshstrndx n).step env e = .ok e') :
    Numbered env e' ∧ CacheHolds e' (g.after env e (.setshstrndx n)) := by
  have hx := keepsNumbers_elfSetshstrndx hwf hl hn n
  rw [Op.step] at h
  cases hcall : elfSetshstrndx env n e with
  | ok u e₁ =>
    have hafter : g.after env e (.setshstrndx n) = ⟨some n, g.phnum⟩ := by
      rw [Given.after, hcall]
      rfl
    rw [hcall] at hx h
    cases h
    obtain ⟨hk, hh, hwith, hcache⟩ := hx
    rw [hafter]
    refine ⟨hk.1, fun m hm => ?_, (hk.cacheHolds hg).phnum⟩
    cases hm
    exact ⟨hh, hcache.trans (hstep hwith)⟩
  | err er e₁ =>
    have hafter : g.after env e (.setshstrndx n) = g := by
      rw [Given.after, hcall]
      rfl
    rw [hcall] at hx h
    cases h
    rw [hafter]
    exact ⟨hx.1, KeepsNumbers.cacheHolds hx hg⟩
  | stop f =>
    rw [hcall] at h
    cases h

/-- The setter of the number of program headers stores it in the cache. -/
theorem cacheHolds_newphdr (hwf : Wf e) (hl : Listed e) (hn : Numbered env e) (hg : CacheHolds e g) {n : Nat}
    (h : (Op.newphdr n).step env e = .ok e') : Numbered env e' ∧ CacheHolds e' (g.after env e (.newphdr n)) := by
  have hx := numbered_gelfNewphdr hwf hl hn n
  rw [Op.step] at h
  cases hcall : gelfNewphdr env n e with
  | ok u e₁ =>
    have hafter : g.after env e (.newphdr n) = ⟨g.strndx, some n⟩ := by
      rw [Given.after, hcall]
      rfl
    rw [hcall] at hx h
    cases h
    obtain ⟨hn', hh, hp, hkeep⟩ := hx
    rw [hafter]
    refine ⟨hn', fun m hm => ?_, fun m hm => ?_⟩
    · obtain ⟨hold, hx⟩ := hg.strndx m hm
      exact ⟨hh, (hkeep hold).trans hx⟩
    · cases hm
      exact ⟨hh, hp⟩
  | err er e₁ =>
    have hafter : g.after env e (.newphdr n) = g := by
      rw [Given.after, hcall]
      rfl
    rw [hcall] at hx h
    cases h
    rw [hafter]
    exact ⟨hx.1, KeepsNumbers.cacheHolds hx hg⟩
  | stop f =>
    rw [hcall] at h
    cases h

/-- A step that meets the condition keeps the list of sections. -/
theorem listed_numberStep (hwf : Wf e) (hl : Listed e) (hcounts : Scn0Counts env e) {op : Op} (hop : op.setsNumbers = true)
    (hstep : NumberStep env e op) (h : op.step env e = .ok e') : Listed e' := by
  cases op with
  | setshstrndx n =>
    by_cases hwith : (withHeader env e).eEhdr = none
    · -- without a header the setter fails as the header call does
      rw [Op.step] at h
      unfold elfSetshstrndx withClass at h
      split at h
      · cases h
        exact hl
      next ec hec =>
      have hx := @listed_ehdr env ec e hwf hl hcounts false
      dsimp only at h
      split at h
      · cases h
      · next hcall =>
        rw [hcall] at hx
        cases h
        exact hx
      · next hcall =>
        rw [hcall] at hx
        rw [withHeader_of_ok hec hcall] at hwith
        exact absurd hwith hx.2.2.1
    · exact listed_step hwf hl rfl ⟨hcounts, (hstep hwith).2⟩ h
  | newehdr ec => exact listed_step hwf hl rfl ⟨hcounts, trivial⟩ h
  | newphdr n => exact listed_step hwf hl rfl ⟨hcounts, trivial⟩ h
  | newscn => exact listed_step hwf hl rfl ⟨hcounts, hstep⟩ h
  | update c =>
    cases c with
    | null => exact listed_step hwf hl rfl ⟨hcounts, hstep⟩ h
    | write => cases hop
  | getscn index => cases hop
  | getphdrnum => cases hop
  | getehdr => cases hop
  | setEhdr hdr => cases hop
  | getphdr => cases hop
  | setPhdr i p => cases hop
  | getshdrnum => cases hop
  | setShdr scn hdr => cases hop
  | putShdr scn hdr => cases hop
  | flagScn scn set => cases hop
  | getdata scn => cases hop
  | rawdata scn => cases hop
  | newdata scn => cases hop
  | setData scn j d => cases hop
  | flagLayout set => cases hop

/-- What a step keeps of the numbers. -/
theorem cacheHolds_step (hwf : Wf e) (hl : Listed e) (hn : Numbered env e) (hg : CacheHolds e g) {op : Op}
    (hop : op.setsNumbers = true) (hstep : NumberStep env e op) (h : op.step env e = .ok e') :
    Numbered env e' ∧ CacheHolds e' (g.after env e op) := by
  have hkeep : ∀ {α : Type} {x : Call α}, x.Ensures (fun _ => KeepsNumbers env e) (KeepsNumbers env e) (fun _ => True) →
      x.next = .ok e' → Numbered env e' ∧ CacheHolds e' g := fun hx hnext =>
    have hk := (ensures_next hx).1 e' hnext
    ⟨hk.1, hk.cacheHolds hg⟩
  cases op with
  | setshstrndx n => exact cacheHolds_setshstrndx hwf hl hn hg (fun hwith => (hstep hwith).1) h
  | newphdr n => exact cacheHolds_newphdr hwf hl hn hg h
  | newehdr ec =>
    exact hkeep (ensures_mono (@keepsNumbers_ehdr env ec e hwf hl hn true) (fun _ _ h => h.1) (fun _ h => h)
      fun _ h => h) h
  | newscn => exact hkeep (keepsNumbers_elfNewscn hwf hl hn) h
  | update c =>
    cases c with
    | null => exact hkeep (keepsNumbers_elfUpdate_null hwf hl hn) h
    | write => cases hop
  | getscn index => cases hop
  | getphdrnum => cases hop
  | getehdr => cases hop
  | setEhdr hdr => cases hop
  | getphdr => cases hop
  | setPhdr i p => cases hop
  | getshdrnum => cases hop
  | setShdr scn hdr => cases hop
  | putShdr scn hdr => cases hop
  | flagScn scn set => cases hop
  | getdata scn => cases hop
  | rawdata scn => cases hop
  | newdata scn => cases hop
  | setData scn j d => cases hop
  | flagLayout set => cases hop

theorem numbered_openObject {c : Cmd} {im : Image} (hopen : openObject env c im = .ok (some e))
    (hfile : FileTable env e) (hcounts : Scn0Counts env e) : Numbered env e := by
  have hblank : e.eEhdr = none ∧ e.eNscn = 0 := by
    unfold openObject at hopen
    split at hopen
    · cases hopen
      exact ⟨rfl, rfl⟩
    split at hopen
    · cases hopen
    cases hm : libelfMemory im with
    | error err =>
      rw [hm] at hopen
      cases hopen
    | ok o =>
      rw [hm] at hopen
      cases o with
      | none => cases hopen
      | some e₀ =>
        obtain ⟨-, ec, -, -, rfl⟩ := libelfMemory_eq_some hm
        cases hopen
        exact ⟨rfl, rfl⟩
  refine ⟨fun _ => hblank.2, fun _ => hfile, hcounts, fun _ _ _ h hh => ?_⟩
  rw [hblank.1] at hh
  cases hh

/-- A cache that holds what was set is what the getters return. -/
theorem CacheHolds.agree (hwf : Wf e) (hl : Listed e) (hn : Numbered env e)
    (hg : CacheHolds e g) : NumbersAgree env e g := by
  have hclass : e.eEhdr ≠ none → ∃ ec h, e.eClass = some ec ∧ libelfEhdr env ec false e = .ok h e := by
    intro hh
    obtain ⟨h, hh'⟩ := Option.ne_none_iff_exists'.mp hh
    obtain ⟨ec, hc⟩ : ∃ ec, e.eClass = some ec :=
      Option.ne_none_iff_exists'.mp fun hnone => hh (hwf.unset hnone).1
    exact ⟨ec, h, hc, libelfEhdr_cached hc (hwf.opened hh) hh' false⟩
  refine ⟨fun n hset => ?_, fun n hset => ?_, fun n e' hx => elfGetshdrnum_counts hwf hl hn hx, fun hh => ?_⟩
  · obtain ⟨hh, rfl⟩ := hg.strndx n hset
    obtain ⟨ec, h, hc, hcall⟩ := hclass hh
    refine ⟨e, ?_⟩
    unfold elfGetshdrstrndx withClass
    rw [hc]
    dsimp only
    rw [hcall, bind_ok]
  · obtain ⟨hh, rfl⟩ := hg.phnum n hset
    obtain ⟨ec, h, hc, hcall⟩ := hclass hh
    refine ⟨e, ?_⟩
    unfold elfGetphdrnum withClass
    rw [hc]
    dsimp only
    rw [hcall, bind_ok]
  · obtain ⟨ec, h, hc, hcall⟩ := hclass hh
    refine ⟨e.eNscn, e, ?_⟩
    unfold elfGetshdrnum withClass
    rw [hc]
    dsimp only
    rw [hcall, bind_ok]

/-- In every run whose steps meet the condition, on a new object or on a file whose section headers can be
read in, the getters agree with the setters at every point. -/
theorem numbers_run {c : Cmd} {im : Image} {e₀ : Elf} (hopen : openObject env c im = .ok (some e₀))
    (hfile : FileTable env e₀) (hcounts : Scn0Counts env e₀) {ops : List Op}
    (hops : ∀ op ∈ ops, op.setsNumbers = true)
    (hsteps : Along (Given.step env) (fun s => NumberStep env s.1) (e₀, ⟨none, none⟩) ops)
    (hrun : runOps (Given.step env) (e₀, ⟨none, none⟩) ops = .ok (e, g)) : NumbersAgree env e g := by
  have hinv : Wf e ∧ Listed e ∧ Numbered env e ∧ CacheHolds e g := by
    refine @runOps_inv_along _ _ _ (fun s : Elf × Given => Wf s.1 ∧ Listed s.1 ∧ Numbered env s.1 ∧ CacheHolds s.1 s.2) _
      ops (fun op hop s s' hinv hstep h => ?_) (e₀, ⟨none, none⟩) (e, g)
      ⟨wf_openObject hopen, listed_openObject hopen, numbered_openObject hopen hfile hcounts, nofun, nofun⟩ hsteps hrun
    obtain ⟨hwf, hl, hn, hg⟩ := hinv
    unfold Given.step at h
    cases hx : op.step env s.1 with
    | error f =>
      rw [hx] at h
      cases h
    | ok e₁ =>
      rw [hx] at h
      cases h
      exact ⟨wf_step hwf op hx, listed_numberStep hwf hl hn.counts (hops op hop) hstep hx,
        cacheHolds_step hwf hl hn hg (hops op hop) hstep hx⟩
  obtain ⟨hwf, hl, hn, hg⟩ := hinv
  exact hg.agree hwf hl hn

end Runs

/-- The index of the name table is set to the number that a new object has, and the other numbers to any. -/
def numberedSections : List Op :=
  [.newehdr .elfclass64, .newscn, .newscn, .setshstrndx 0, .newphdr 2, .update .null]

theorem numberedSections_agree : ∃ e₀ e, openObject plainEnv .write noImage = .ok (some e₀) ∧
    runOps (Given.step plainEnv) (e₀, ⟨none, none⟩) numberedSections = .ok (e, ⟨some 0, some 2⟩) ∧
    e.eNscn = 3 ∧ NumbersAgree plainEnv e ⟨some 0, some 2⟩ := by
  have hall : ∃ e₀ e, openObject plainEnv .write noImage = .ok (some e₀) ∧
      runOps (Given.step plainEnv) (e₀, ⟨none, none⟩) numberedSections = .ok (e, ⟨some 0, some 2⟩) ∧
      (FileTable plainEnv e₀ ∧ Scn0Counts plainEnv e₀ ∧ e.eNscn = 3 ∧
        Along (Given.step plainEnv) (fun s => NumberStep plainEnv s.1) (e₀, ⟨none, none⟩) numberedSections) :=
    ⟨_, _, rfl, rfl, by decide +kernel⟩
  obtain ⟨e₀, e, hopen, hrun, hfile, hcounts, hn, hsteps⟩ := hall
  exact ⟨e₀, e, hopen, hrun, hn, numbers_run hopen hfile hcounts (by decide) hsteps hrun⟩

/-- The index 2 of a name table is set, and 0 is returned. -/
theorem stale_strndx : ∃ e₀ e, openObject plainEnv .write noImage = .ok (some e₀) ∧
    runOps (Given.step plainEnv) (e₀, ⟨none, none⟩) [.newehdr .elfclass64, .newscn, .newscn, .setshstrndx 2] =
      .ok (e, ⟨some 2, none⟩) ∧
    elfGetshdrstrndx plainEnv e = .ok 0 e ∧ ¬ NumbersAgree plainEnv e ⟨some 2, none⟩ := by
  have hall : ∃ e₀ e, openObject plainEnv .write noImage = .ok (some e₀) ∧
      runOps (Given.step plainEnv) (e₀, ⟨none, none⟩) [.newehdr .elfclass64, .newscn, .newscn, .setshstrndx 2] =
        .ok (e, ⟨some 2, none⟩) ∧ elfGetshdrstrndx plainEnv e = .ok 0 e :=
    ⟨_, _, rfl, rfl, rfl⟩
  obtain ⟨e₀, e, hopen, hrun, hget⟩ := hall
  refine ⟨e₀, e, hopen, hrun, hget, fun h => ?_⟩
  obtain ⟨e', hset⟩ := h.shdrstrndx 2 rfl
  rw [hget] at hset
  cases hset

end LibElf.Toolchain
