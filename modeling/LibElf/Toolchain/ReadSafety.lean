import LibElf.Toolchain.ConvertSafe
import LibElf.Toolchain.HeaderFacts
import LibElf.Toolchain.Section

/-!
# Loads from the input image

A descriptor read from a byte string, and any sequence of queries on it. Every load from the image
goes through a bound check of the function that makes it; this module says which checks are
enough.

1. `ReadInv`, what queries keep of a descriptor: the image and what was read of its headers.
2. One triple for each query. Section headers and section contents are checked with a subtraction,
   which cannot wrap.
3. `SumsFit`, the condition on the two checks that add instead, and `reads_in_image_iff`: the
   queries stay inside the image exactly when it holds.
-/

namespace LibElf.Toolchain

open Outcome

inductive Query
  | getehdr
  | getphdr
  | getscn (index : Nat)
  | getdata (scn : Nat)
  | rawdata (scn : Nat)

/-- One query; the run goes on after an error. -/
def Query.step (env : Env) (e : Elf) : Query → Except Fault Elf
  | getehdr => (gelfGetehdr env e).next
  | getphdr => (elfGetphdr env e).next
  | getscn index => (elfGetscn env index e).next
  | getdata scn => (elfGetdata env scn e).next
  | rawdata scn => (elfRawdata scn e).next

/-! ## The condition -/

section Condition

variable (env : Env) (ec : ElfClass) (e : Elf)

/-- The executable header is read without an error. -/
def headerAccepted : Prop :=
  e.eVersion = evCurrent ∧ fsize .ehdr ec ≤ e.rawsize ∧ ¬ badCounts ec (fileEhdr env ec e)

/-- The number of program headers, when the counts can be read. -/
def filePhnum : Option Nat :=
  let h := fileEhdr env ec e
  if isExtended ec h then
    if e.rawsize < ec.get h.eShoff + fsize .shdr ec then none
    else if (fileShdr0 env ec e).shType ≠ shtNull then none
    else some (if h.ePhnum.toNat ≠ pnXnum then h.ePhnum.toNat else (fileShdr0 env ec e).shInfo.toNat)
  else some h.ePhnum.toNat

/-- The sums that two bound checks compare with the size of the image do not wrap, or the check
refuses the wrapped sum too. -/
def SumsFit : Prop :=
  headerAccepted env ec e →
    (isExtended ec (fileEhdr env ec e) →
      ec.get (fileEhdr env ec e).eShoff + fsize .shdr ec < 2 ^ 64) ∧
    ∀ p, filePhnum env ec e = some p → 0 < p →
      ec.get (fileEhdr env ec e).ePhoff + p * fsize .phdr ec < 2 ^ 64 ∨
        e.rawsize < wrap (ec.get (fileEhdr env ec e).ePhoff + p * fsize .phdr ec)

end Condition

/-! ## The invariant -/

section Invariant

variable {env : Env} {ec : ElfClass} {e₀ e : Elf}

/-- What queries keep of the descriptor `e₀` that was opened. -/
structure ReadInv (env : Env) (ec : ElfClass) (e₀ e : Elf) : Prop where
  rawfile : e.eRawfile = e₀.eRawfile
  byteorder : e.eByteorder = e₀.eByteorder
  version : e.eVersion = e₀.eVersion
  elfClass : e.eClass = some ec
  cmd : e.eCmd ≠ .write
  ehdr : ∀ h, e.eEhdr = some h → h = fileEhdr env ec e₀
  scn : e.eEhdr = none → e.eScn = []
  nphdr : e.eNphdr = 0 ∨ headerAccepted env ec e₀ ∧ filePhnum env ec e₀ = some e.eNphdr

namespace ReadInv

theorem rawsize (h : ReadInv env ec e₀ e) : e.rawsize = e₀.rawsize := by
  simp [Elf.rawsize, h.rawfile]

theorem rawbytes (h : ReadInv env ec e₀ e) : e.rawbytes = e₀.rawbytes := by
  simp [Elf.rawbytes, h.rawfile]

theorem swaps (h : ReadInv env ec e₀ e) : e.swaps env = e₀.swaps env := by
  simp [Elf.swaps, h.byteorder]

theorem fileEhdr_eq (h : ReadInv env ec e₀ e) : fileEhdr env ec e = fileEhdr env ec e₀ := by
  simp [fileEhdr, h.rawbytes, h.swaps]

/-- Sections may come and change once the header is there. -/
theorem setScn (h : ReadInv env ec e₀ e) {l : List Scn} (hl : e.eEhdr = none → l = []) :
    ReadInv env ec e₀ (e.setScn l) :=
  ⟨h.rawfile, h.byteorder, h.version, h.elfClass, h.cmd, h.ehdr, hl, h.nphdr⟩

theorem setFlags (h : ReadInv env ec e₀ e) (f : Flags) : ReadInv env ec e₀ (e.setFlags f) :=
  ⟨h.rawfile, h.byteorder, h.version, h.elfClass, h.cmd, h.ehdr, h.scn, h.nphdr⟩

theorem setPhdr (h : ReadInv env ec e₀ e) (ps : Option (List Phdr)) :
    ReadInv env ec e₀ (e.setPhdr ps) :=
  ⟨h.rawfile, h.byteorder, h.version, h.elfClass, h.cmd, h.ehdr, h.scn, h.nphdr⟩

theorem setEhdr (h : ReadInv env ec e₀ e) : ReadInv env ec e₀ (e.setEhdr (fileEhdr env ec e₀)) :=
  ⟨h.rawfile, h.byteorder, h.version, h.elfClass, h.cmd, fun _ hh => (Option.some.inj hh).symm,
    nofun, h.nphdr⟩

theorem setCounts (h : ReadInv env ec e₀ e) {p : Nat} (n x : Nat) (hacc : headerAccepted env ec e₀)
    (hp : filePhnum env ec e₀ = some p) : ReadInv env ec e₀ (e.setCounts p n x) :=
  ⟨h.rawfile, h.byteorder, h.version, h.elfClass, h.cmd, h.ehdr, h.scn, .inr ⟨hacc, hp⟩⟩

end ReadInv

/-- A fresh descriptor satisfies the invariant. -/
theorem readInv_of_libelfMemory {im : Image} (h : libelfMemory im = .ok (some e)) (hc : e.eClass = some ec) :
    ReadInv env ec e e := by
  obtain ⟨_, ec', _, _, rfl⟩ := libelfMemory_eq_some h
  exact ⟨rfl, rfl, rfl, hc, nofun, nofun, fun _ => rfl, .inl rfl⟩

theorem filePhnum_lt {p : Nat} (h : filePhnum env ec e = some p) : p < 2 ^ 32 := by
  have h16 : ∀ x : UInt16, x.toNat < 2 ^ 32 := fun x =>
    Nat.lt_trans x.toNat_lt (by decide)
  unfold filePhnum at h
  dsimp only at h
  split at h
  · split at h
    · cases h
    · split at h
      · cases h
      · cases h
        split
        · exact h16 _
        · exact UInt32.toNat_lt _
  · cases h
    exact h16 _

theorem fsize_phdr_le (ec : ElfClass) : fsize .phdr ec ≤ 56 := by cases ec <;> decide

/-- A table of at most `2 ^ 32` program headers has a size in 64 bits. -/
theorem libelfFsize_phdr {p : Nat} (hp : p < 2 ^ 32) : libelfFsize .phdr ec p = p * fsize .phdr ec := by
  have hle : fsize .phdr ec * p ≤ 56 * 2 ^ 32 :=
    Nat.mul_le_mul (fsize_phdr_le ec) (Nat.le_of_lt hp)
  rw [libelfFsize, wrap_of_lt (Nat.lt_of_le_of_lt hle (by decide)), Nat.mul_comm]

/-! ## The queries -/

theorem ensures_libelfEhdr (hinv : ReadInv env ec e₀ e) (hfit : SumsFit env ec e₀) :
    (libelfEhdr env ec false e).Ensures
      (fun h e' => ReadInv env ec e₀ e' ∧ e'.eEhdr = some h) (ReadInv env ec e₀) (· ≠ .load) := by
  by_cases hv : e.eVersion = evCurrent
  · cases hh : e.eEhdr with
    | some h =>
      rw [libelfEhdr_cached hinv.elfClass hv hh]
      exact ⟨hinv, hh⟩
    | none =>
      by_cases hlen : fsize .ehdr ec ≤ e.rawsize
      · have hset := hinv.setEhdr
        rw [libelfEhdr_file hinv.elfClass hv hh hinv.cmd hlen, hinv.fileEhdr_eq]
        split
        · exact hset
        · next hbad =>
          have hacc : headerAccepted env ec e₀ :=
            ⟨hinv.version.symm.trans hv, hinv.rawsize ▸ hlen, hbad⟩
          split
          · next hext =>
            have hsum := (hfit hacc).1 hext
            have hempty : (e.setEhdr (fileEhdr env ec e₀)).eScn = [] := hinv.scn hh
            have hshdr : Shdr.ofFile env.host ((e.setEhdr (fileEhdr env ec e₀)).swaps env) ec
                (window (e.setEhdr (fileEhdr env ec e₀)).rawbytes
                  (ec.get (fileEhdr env ec e₀).eShoff) (fsize .shdr ec)) = fileShdr0 env ec e₀ := by
              rw [Elf.swaps_setEhdr, Elf.rawbytes_setEhdr, hinv.swaps, hinv.rawbytes]
              rfl
            rw [loadExtended_file hempty _ _ hsum, hshdr, Elf.rawsize_setEhdr, hinv.rawsize]
            split
            · exact hset
            · next hroom =>
              dsimp only
              split
              · exact hset.setScn nofun
              · next htype =>
                refine ⟨(hset.setScn nofun).setCounts _ _ hacc ?_, rfl⟩
                simp only [filePhnum, if_pos hext, if_neg hroom, if_neg htype]
          · next hext =>
            refine ⟨hset.setCounts _ _ hacc ?_, rfl⟩
            simp only [filePhnum, if_neg hext]
      · rw [libelfEhdr_short hinv.elfClass hv hh hinv.cmd (Nat.lt_of_not_le hlen)]
        exact hinv
  · unfold libelfEhdr
    rw [if_neg (by simp [hinv.elfClass]), if_pos hv]
    exact hinv

/-- The program header table is inside the image when the sum in its check does not wrap. -/
theorem ensures_getphdr (hinv : ReadInv env ec e₀ e) (hfit : SumsFit env ec e₀) :
    (getphdr env ec e).Ensures (fun _ => ReadInv env ec e₀) (ReadInv env ec e₀) (· ≠ .load) := by
  unfold getphdr
  split
  · exact hinv
  · refine ensures_bind (ensures_libelfEhdr hinv hfit) ?_
    rintro h e' ⟨hinv', hh⟩
    have hehdr := hinv'.ehdr h hh
    subst hehdr
    dsimp only
    split
    · exact Fault.noConfusion
    · next hfsz =>
      have hpos : 0 < e'.eNphdr := by
        refine Nat.pos_of_ne_zero fun h0 => hfsz ?_
        simp [h0, libelfFsize, wrap]
      obtain ⟨hacc, hp⟩ := hinv'.nphdr.resolve_left (Nat.ne_of_gt hpos)
      rw [libelfFsize_phdr (filePhnum_lt hp)]
      split
      · exact hinv'
      · next hroom =>
        rw [hinv'.rawsize] at hroom
        have hsum := ((hfit hacc).2 _ hp hpos).resolve_right hroom
        rw [wrap_of_lt hsum] at hroom
        have hin : ec.get (fileEhdr env ec e₀).ePhoff + e'.eNphdr * fsize .phdr ec ≤
            e'.rawbytes.length := by
          rw [e'.length_rawbytes, hinv'.rawsize]
          omega
        rw [Elf.read, readAt_of_le _ hin, bind_ok]
        exact hinv'.setPhdr _

/-- The loop over a table inside the image. -/
theorem ensures_loadLoop (n : Nat) : ∀ (src ndx : Nat) (e : Elf), ReadInv env ec e₀ e →
    e.eEhdr ≠ none → src + n * fsize .shdr ec ≤ e₀.rawsize →
    (loadLoop env ec n src ndx e).Ensures (fun _ => ReadInv env ec e₀) (ReadInv env ec e₀)
      (· ≠ .load) := by
  induction n with
  | zero => intro src ndx e hinv _ _; exact hinv
  | succ n ih =>
    intro src ndx e hinv hh hroom
    rw [Nat.add_mul, Nat.one_mul] at hroom
    have hin : src + fsize .shdr ec ≤ e.rawbytes.length := by
      rw [e.length_rawbytes, hinv.rawsize]
      omega
    rw [loadLoop, Elf.read, readAt_of_le _ hin, bind_ok]
    exact ih _ _ _ (hinv.setScn fun h => absurd h hh) hh (by omega)

/-- The section header table is checked with a subtraction. -/
theorem ensures_loadSectionHeaders (hinv : ReadInv env ec e₀ e) (hh : e.eEhdr ≠ none) (h : Ehdr) :
    (loadSectionHeaders env ec h e).Ensures (fun _ => ReadInv env ec e₀) (ReadInv env ec e₀)
      (· ≠ .load) := by
  unfold loadSectionHeaders
  split
  · exact Fault.noConfusion
  · dsimp only
    split
    · exact hinv
    · next hroom =>
      rw [hinv.rawsize, Nat.mul_comm] at hroom
      refine ensures_bind (Q := fun _ => ReadInv env ec e₀) ?_ fun _ _ hinv' => hinv'.setFlags _
      split
      · exact ensures_loadLoop _ _ _ _ hinv hh (by omega)
      · rcases Nat.eq_zero_or_pos e.eNscn with h0 | hpos
        · rw [h0]
          exact hinv
        · refine ensures_loadLoop _ _ _ _ hinv hh ?_
          have : (e.eNscn - 1) * fsize .shdr ec + fsize .shdr ec = e.eNscn * fsize .shdr ec := by
            rw [← Nat.succ_mul, Nat.succ_eq_add_one, Nat.sub_add_cancel hpos]
          omega
      · exact Fault.noConfusion

theorem ensures_elfGetscn (hinv : ReadInv env ec e₀ e) (hfit : SumsFit env ec e₀) (index : Nat) :
    (elfGetscn env index e).Ensures (fun _ => ReadInv env ec e₀) (ReadInv env ec e₀)
      (· ≠ .load) := by
  unfold elfGetscn withClass
  rw [hinv.elfClass]
  refine ensures_bind (ensures_libelfEhdr hinv hfit) ?_
  rintro h e' ⟨hinv', hh⟩
  refine ensures_bind (Q := fun _ => ReadInv env ec e₀) ?_ fun _ e'' hinv'' => ?_
  · unfold needSectionHeaders
    split
    · exact ensures_loadSectionHeaders hinv' (by simp [hh]) h
    · exact hinv'
  · split
    · exact hinv''
    · exact hinv''

/-- Contents that pass the checks of `elf_getdata` are inside the image. -/
theorem contentsOf_room {h : Shdr} {t : ElfType} {count : Nat} (hc : contentsOf e ec h = .ok (t, count))
    (hbits : h.shType ≠ shtNobits) :
    ec.get h.shOffset + count * fsize t ec ≤ e.rawsize ∧ 0 < fsize t ec := by
  obtain ⟨hout, hfsz, hsize, _⟩ := contentsOf_ok hc
  have hin : ¬(e.rawsize < ec.get h.shOffset ∨ e.rawsize - ec.get h.shOffset < ec.get h.shSize) :=
    fun ho => hout ⟨hbits, ho⟩
  rw [hsize, Nat.mul_comm] at hin
  exact ⟨by omega, hfsz⟩

/-- Translating the contents of a section never faults: the translator stays inside the section
and inside the new buffer. -/
theorem getdata_returns (e : Elf) (ec : ElfClass) (s : Scn) :
    (getdata env e ec s).Ensures (fun _ _ => True) (fun _ => True) (fun _ => False) := by
  unfold getdata
  split
  · trivial
  · split
    · trivial
    · split
      · trivial
      · next t count hc =>
        dsimp only
        split
        · trivial
        · next hne =>
          rw [not_or] at hne
          obtain ⟨hroom, hfsz⟩ := contentsOf_room hc hne.1
          split
          · next hnone =>
            have := getTranslator_isSome env.host hfsz false
            rw [hnone] at this
            cases this
          · next xlate hx =>
            have hsrc : count * (if false = true then msize t ec else fsize t ec) ≤
                (e.rawbytes.drop (ec.get s.shdr.shOffset)).length := by
              rw [if_neg Bool.false_ne_true, List.length_drop, e.length_rawbytes]
              omega
            have htame : Tame (.fresh env.heap (msize t ec * count)) 0 (msize t ec * count)
                (xlate _ (.fresh env.heap (msize t ec * count)) 0 (msize t ec * count)
                  (e.rawbytes.drop (ec.get s.shdr.shOffset)) count (e.swaps env)) :=
              getTranslator_tame env.host hx _ (by omega) hsrc (by rintro ⟨⟩)
            split
            · next f hstop =>
              rw [hstop] at htame
              exact htame.elim
            · trivial
            · split
              · trivial
              · next hsize => exact hsize (contentsOf_ok hc).2.2.2

theorem ensures_getdata (e : Elf) (ec : ElfClass) (s : Scn) :
    (getdata env e ec s).Ensures (fun _ _ => True) (fun _ => True) (· ≠ .load) :=
  ensures_mono (getdata_returns e ec s) (fun _ _ h => h) (fun _ h => h) fun _ h => h.elim

theorem ensures_rawdata (e : Elf) (ec : ElfClass) (s : Scn) :
    (rawdata e ec s).Ensures (fun _ _ => True) (fun _ => True) (· ≠ .load) := by
  unfold rawdata
  split
  · trivial
  · split
    · trivial
    · split
      · trivial
      · split <;> trivial

/-- A call on a section changes that section only. -/
theorem ensures_onScn {α : Type} {f : Elf → ElfClass → Scn → ScnCall α}
    (hf : ∀ e ec s, (f e ec s).Ensures (fun _ _ => True) (fun _ => True) (· ≠ .load))
    (hinv : ReadInv env ec e₀ e) (i : Nat) :
    (onScn f i e).Ensures (fun _ => ReadInv env ec e₀) (ReadInv env ec e₀) (· ≠ .load) := by
  unfold onScn withClass
  rw [hinv.elfClass]
  dsimp only
  split
  · exact hinv
  · next s hs =>
    have hset : ∀ s', ReadInv env ec e₀ (e.setScn (e.eScn.set i s')) := by
      intro s'
      refine hinv.setScn fun hnone => ?_
      rw [hinv.scn hnone, List.set_nil]
    exact ensures_within (ensures_mono (hf e ec s) (fun _ s' _ => hset s') (fun s' _ => hset s')
      fun _ h => h)

/-- One query keeps the invariant and stays inside the image. -/
theorem query_step (hfit : SumsFit env ec e₀) (hinv : ReadInv env ec e₀ e) (q : Query) :
    (∀ e', q.step env e = .ok e' → ReadInv env ec e₀ e') ∧
      ∀ f, q.step env e = .error f → f ≠ .load := by
  cases q with
  | getehdr =>
    refine ensures_next (x := gelfGetehdr env e) ?_
    unfold gelfGetehdr withClass
    rw [hinv.elfClass]
    exact ensures_mono (ensures_libelfEhdr hinv hfit) (fun _ _ h => h.1) (fun _ h => h) fun _ h => h
  | getphdr =>
    refine ensures_next (x := elfGetphdr env e) ?_
    unfold elfGetphdr withClass
    rw [hinv.elfClass]
    exact ensures_getphdr hinv hfit
  | getscn index => exact ensures_next (ensures_elfGetscn hinv hfit index)
  | getdata scn => exact ensures_next (ensures_onScn ensures_getdata hinv scn)
  | rawdata scn => exact ensures_next (ensures_onScn ensures_rawdata hinv scn)

/-- No sequence of queries reads outside the image when the sums fit. -/
theorem queries_in_image (hfit : SumsFit env ec e₀) (hinv : ReadInv env ec e₀ e) (qs : List Query) :
    runOps (Query.step env) e qs ≠ .error .load := by
  have hok : ∀ e q e', ReadInv env ec e₀ e → Query.step env e q = .ok e' → ReadInv env ec e₀ e' :=
    fun e q e' hi => (query_step hfit hi q).1 e'
  have herr : ∀ e q f, ReadInv env ec e₀ e → Query.step env e q = .error f → f ≠ .load :=
    fun e q f hi => (query_step hfit hi q).2 f
  exact fun h => (runOps_inv hok herr qs e hinv).2 _ h rfl

end Invariant

/-! ## Sums that wrap -/

section Wrap

variable {env : Env} {ec : ElfClass} {im : Image} {e : Elf}

theorem fsize_shdr_le_ehdr (ec : ElfClass) : fsize .shdr ec ≤ fsize .ehdr ec := by
  cases ec <;> decide

/-- The check of section header 0 lets a sum through that has wrapped, and the load misses. -/
theorem loadExtended_wrap (hempty : e.eScn = []) (hlen : fsize .ehdr ec ≤ e.rawsize) {shoff : Nat}
    (hoff : shoff < 2 ^ 64) (phnum strndx : UInt16) (hsum : 2 ^ 64 ≤ shoff + fsize .shdr ec) :
    loadExtended env ec shoff phnum strndx e = .stop .load := by
  have hle := fsize_shdr_le_ehdr ec
  have hpos := fsize_shdr_pos ec
  have hlt := e.rawsize_lt
  have hwrap : wrap (shoff + fsize .shdr ec) = shoff + fsize .shdr ec - 2 ^ 64 :=
    wrap_add_of_le hoff (by cases ec <;> decide) hsum
  have hmiss : ¬(fsize .shdr ec = 0 ∨ shoff + fsize .shdr ec ≤ e.rawbytes.length) := by
    rw [e.length_rawbytes]
    omega
  unfold loadExtended
  rw [if_neg (by simp [hempty]), if_neg (by omega), Elf.read, readAt, if_neg hmiss]
  rfl

/-- The header call of a fresh descriptor, when the counts can be read. -/
theorem libelfEhdr_of_filePhnum (hc : e.eClass = some ec) (hcmd : e.eCmd ≠ .write)
    (hnone : e.eEhdr = none) (hempty : e.eScn = []) (hacc : headerAccepted env ec e)
    (hext : isExtended ec (fileEhdr env ec e) →
      ec.get (fileEhdr env ec e).eShoff + fsize .shdr ec < 2 ^ 64)
    {p : Nat} (hp : filePhnum env ec e = some p) :
    ∃ e', libelfEhdr env ec false e = .ok (fileEhdr env ec e) e' ∧ e'.eNphdr = p ∧
      e'.eRawfile = e.eRawfile := by
  obtain ⟨hver, hlen, hbad⟩ := hacc
  unfold filePhnum at hp
  dsimp only at hp
  split at hp
  · next hx =>
    split at hp
    · cases hp
    · next hroom =>
      split at hp
      · cases hp
      · next htype =>
        cases hp
        rw [libelfEhdr_extended hc hver hnone hcmd hlen hempty hbad hx (hext hx)]
        simp only [if_neg hroom, if_neg htype]
        exact ⟨_, rfl, rfl, rfl⟩
  · next hx =>
    cases hp
    rw [libelfEhdr_file hc hver hnone hcmd hlen, if_neg hbad, if_neg hx]
    exact ⟨_, rfl, rfl, rfl⟩

/-- When the sums do not fit, one of two queries reads outside the image at once. -/
theorem query_load (h : libelfMemory im = .ok (some e)) (hc : e.eClass = some ec)
    (hfit : ¬ SumsFit env ec e) :
    Query.step env e .getehdr = .error .load ∨ Query.step env e .getphdr = .error .load := by
  obtain ⟨_, ec', _, _, he⟩ := libelfMemory_eq_some h
  have hcmd : e.eCmd ≠ .write := by simp [he, allocateElf]
  have hnone : e.eEhdr = none := by rw [he]; rfl
  have hempty : e.eScn = [] := by rw [he]; rfl
  have hphdr : e.ePhdr = none := by rw [he]; rfl
  unfold SumsFit at hfit
  rw [Classical.not_imp] at hfit
  obtain ⟨hacc, hfit⟩ := hfit
  by_cases hext : isExtended ec (fileEhdr env ec e) →
      ec.get (fileEhdr env ec e).eShoff + fsize .shdr ec < 2 ^ 64
  · right
    have hp : ¬∀ p, filePhnum env ec e = some p → 0 < p →
        ec.get (fileEhdr env ec e).ePhoff + p * fsize .phdr ec < 2 ^ 64 ∨
          e.rawsize < wrap (ec.get (fileEhdr env ec e).ePhoff + p * fsize .phdr ec) :=
      fun hall => hfit ⟨hext, hall⟩
    simp only [not_forall, not_or, Nat.not_lt] at hp
    obtain ⟨p, hp, hpos, hsum, hroom⟩ := hp
    obtain ⟨e', hcall, hp', hraw⟩ :=
      libelfEhdr_of_filePhnum hc hcmd hnone hempty hacc hext hp
    have hsize : e'.rawsize = e.rawsize := by simp [Elf.rawsize, hraw]
    have hlt := e.rawsize_lt
    have hpf : 0 < p * fsize .phdr ec := Nat.mul_pos hpos (fsize_phdr_pos ec)
    have hmiss : ¬(p * fsize .phdr ec = 0 ∨
        ec.get (fileEhdr env ec e).ePhoff + p * fsize .phdr ec ≤ e'.rawbytes.length) := by
      rw [e'.length_rawbytes, hsize]
      omega
    show (elfGetphdr env e).next = _
    unfold elfGetphdr withClass getphdr
    rw [hc]
    dsimp only
    rw [hphdr]
    dsimp only
    rw [hcall, bind_ok, hp', libelfFsize_phdr (filePhnum_lt hp), if_neg (by omega),
      if_neg (by rw [hsize]; omega), Elf.read, readAt, if_neg hmiss]
    rfl
  · left
    rw [Classical.not_imp, Nat.not_lt] at hext
    obtain ⟨hver, hlen, hbad⟩ := hacc
    have hempty' : (e.setEhdr (fileEhdr env ec e)).eScn = [] := hempty
    show (gelfGetehdr env e).next = _
    unfold gelfGetehdr withClass
    rw [hc]
    dsimp only
    rw [libelfEhdr_file hc hver hnone hcmd hlen, if_neg hbad, if_pos hext.1,
      loadExtended_wrap hempty' hlen (ec.get_lt _) _ _ hext.2]
    rfl

/-- Every sequence of queries on a descriptor stays inside its image, exactly when the sums in
the checks of section header 0 and of the program header table do not wrap to a small number. -/
theorem reads_in_image_iff (h : libelfMemory im = .ok (some e)) (hc : e.eClass = some ec) :
    (∀ qs, runOps (Query.step env) e qs ≠ .error .load) ↔ SumsFit env ec e := by
  refine ⟨fun hall => ?_, fun hfit => queries_in_image hfit (readInv_of_libelfMemory h hc)⟩
  refine Classical.byContradiction fun hfit => ?_
  rcases query_load h hc hfit with hq | hq
  · exact hall [.getehdr] (by simp [runOps, hq])
  · exact hall [.getphdr] (by simp [runOps, hq])

end Wrap

/-- A class 64 header alone, without sections, whose `e_shoff` is the largest number there is: the
file seems to use extended numbering. -/
def wrapImage : Image where
  addr := 4096
  bytes := [0x7F, 0x45, 0x4C, 0x46, 2, 1, 1, 0, 0, 0, 0, 0, 0, 0, 0, 0,
    0, 0, 0, 0, 1, 0, 0, 0, 0, 0, 0, 0, 0, 0, 0, 0,
    0, 0, 0, 0, 0, 0, 0, 0, 0xFF, 0xFF, 0xFF, 0xFF, 0xFF, 0xFF, 0xFF, 0xFF,
    0, 0, 0, 0, 0, 0, 0, 0, 0, 0, 0, 0, 0, 0, 0, 0]
  size_lt := by decide

/-- Reading its header loads 64 bytes from the byte before the image. -/
theorem wrapImage_load : ∃ e, libelfMemory wrapImage = .ok (some e) ∧
    runOps (Query.step plainEnv) e [.getehdr] = .error .load :=
  ⟨_, rfl, rfl⟩

theorem reads_in_image_iff_wrapImage : ∃ e, libelfMemory wrapImage = .ok (some e) ∧
    ((∀ qs, runOps (Query.step plainEnv) e qs ≠ .error .load) ↔
      SumsFit plainEnv .elfclass64 e) := by
  have hopen : ∃ e, libelfMemory wrapImage = .ok (some e) ∧ e.eClass = some .elfclass64 :=
    ⟨_, rfl, rfl⟩
  obtain ⟨e, he, hc⟩ := hopen
  exact ⟨e, he, reads_in_image_iff he hc⟩

end LibElf.Toolchain
