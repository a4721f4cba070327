import LibElf.Toolchain.Resync
import LibElf.Toolchain.Write

/-!
# Runs of the library

A program that uses the library opens a descriptor and makes any sequence of calls on it, some of
which hand out pointers through which it stores. This module says what such runs keep.

1. `Op`, the calls and the stores of an application, and `Op.step`.
2. `Wf`, the invariant: how the cached headers, the counts, the sections and the mode fit together.
3. One triple for each call on the headers and the sections.
-/

namespace LibElf.Toolchain

open Outcome

-- the sizes are sums over member lists, which must not be evaluated
attribute [local irreducible] fsize msize

inductive Op
  | newehdr (ec : ElfClass)
  | getehdr
  | setEhdr (h : Ehdr)
  | getphdr
  | newphdr (count : Nat)
  | setPhdr (i : Nat) (p : Phdr)
  | getshdrnum
  | getphdrnum
  | setshstrndx (ndx : Nat)
  | getscn (index : Nat)
  | newscn
  | setShdr (scn : Nat) (h : Shdr)
  | putShdr (scn : Nat) (h : Shdr)
  | flagScn (scn : Nat) (set : Bool)
  | getdata (scn : Nat)
  | rawdata (scn : Nat)
  | newdata (scn : Nat)
  | setData (scn j : Nat) (d : ElfData)
  | flagLayout (set : Bool)
  | update (c : UpdateCmd)

/-- A store through the pointer that `elf64_getphdr` returned. -/
def storePhdr (i : Nat) (p : Phdr) (e : Elf) : Elf := e.setPhdr (e.ePhdr.map fun ps => ps.set i p)

/-- One call or store; the run goes on after an error. -/
def Op.step (env : Env) (e : Elf) : Op → Except Fault Elf
  | newehdr ec => (libelfEhdr env ec true e).next
  | getehdr => (gelfGetehdr env e).next
  | setEhdr h => .ok (updEhdr (fun _ => h) e)
  | getphdr => (elfGetphdr env e).next
  | newphdr count => (gelfNewphdr env count e).next
  | setPhdr i p => .ok (storePhdr i p e)
  | getshdrnum => (elfGetshdrnum env e).next
  | getphdrnum => (elfGetphdrnum env e).next
  | setshstrndx ndx => (elfSetshstrndx env ndx e).next
  | getscn index => (elfGetscn env index e).next
  | newscn => (elfNewscn env e).next
  | setShdr scn h => (updateShdr scn h e).next
  | putShdr scn h => (storeShdr scn h e).next
  | flagScn scn set => (elfFlagscn scn set e).next
  | getdata scn => (elfGetdata env scn e).next
  | rawdata scn => (elfRawdata scn e).next
  | newdata scn => (elfNewdata env scn e).next
  | setData scn j d => (updateData scn j d e).next
  | flagLayout set => .ok (elfFlagLayout set e)
  | update c => (elfUpdate env c e).next

/-! ## The invariant -/

/-- What a raw descriptor is, whatever became of the header that it was made for. -/
structure RawShape (d : ElfData) : Prop where
  off : d.dOff.toNat = 0
  type : d.dType = some .byte
  version : d.dVersion = evCurrent

/-- The descriptor that `elf_rawdata` makes for a header. -/
structure RawData (ec : ElfClass) (h : Shdr) (d : ElfData) : Prop extends RawShape d where
  size : d.dSize.toNat = ec.get h.shSize
  buf : d.dBuf = none ↔ h.shType = shtNobits ∨ ec.get h.shSize = 0

/-- A section has at most one raw descriptor, and only in a file that was opened for reading. -/
def RawOk (file : Option Image) (s : Scn) : Prop :=
  ∀ d ∈ s.sRawdata, s.sRawdata = [d] ∧ RawShape d ∧ file ≠ none

/-- What every run of the library keeps. -/
structure Wf (e : Elf) : Prop where
  unset : e.eClass = none → e.eEhdr = none ∧ e.eNphdr = 0
  fresh : e.eEhdr = none → e.eScn = [] ∧ e.ePhdr = none
  opened : e.eEhdr ≠ none → e.eVersion = evCurrent
  nscn : e.eNscn < 2 ^ 64
  ndx : ∀ s ∈ e.eScn, e.eNscn ≠ 0 → s.sNdx < e.eNscn
  raw : ∀ s ∈ e.eScn, RawOk e.eRawfile s
  phdr : ∀ ps, e.ePhdr = some ps → ps.length = e.eNphdr
  nphdr : ∀ ec, e.eClass = some ec → e.eNphdr * msize .phdr ec < 2 ^ 64
  write : e.eCmd = .write → e.eRawfile = none
  rdwr : e.eCmd = .rdwr → e.eRawfile ≠ none ∧ e.eFlags.rawfileOwned = true

/-- A new descriptor satisfies the invariant. -/
theorem wf_openObject {env : Env} {c : Cmd} {im : Image} {e : Elf}
    (h : openObject env c im = .ok (some e)) : Wf e := by
  have hread : ∀ (c : Cmd) (e₀ : Elf), c ≠ .write → libelfMemory im = .ok (some e₀) →
      Wf { e₀ with eFlags := { e₀.eFlags with rawfileOwned := true }, eFd := some im.bytes, eCmd := c } := by
    intro c e₀ hc h
    obtain ⟨_, ec, _, _, rfl⟩ := libelfMemory_eq_some h
    exact ⟨nofun, fun _ => ⟨rfl, rfl⟩, fun h => absurd rfl h, Nat.two_pow_pos 64, nofun, nofun, nofun,
      fun _ _ => by simp [allocateElf], fun h => absurd h hc, fun _ => ⟨nofun, rfl⟩⟩
  unfold openObject at h
  split at h
  · cases h
    exact ⟨fun _ => ⟨rfl, rfl⟩, fun _ => ⟨rfl, rfl⟩, fun h => absurd rfl h, Nat.two_pow_pos 64, nofun, nofun, nofun,
      nofun, fun _ => rfl, nofun⟩
  · next hc =>
    split at h
    · cases h
    · cases hm : libelfMemory im with
      | error err =>
        rw [hm] at h
        cases h
      | ok o =>
        rw [hm] at h
        cases o with
        | none => cases h
        | some e₀ =>
          cases h
          exact hread c e₀ hc hm

namespace Wf

variable {e : Elf}

theorem setFlags (hw : Wf e) {f : Flags} (hf : f.rawfileOwned = e.eFlags.rawfileOwned) :
    Wf (e.setFlags f) :=
  ⟨hw.unset, hw.fresh, hw.opened, hw.nscn, hw.ndx, hw.raw, hw.phdr, hw.nphdr, hw.write,
    fun h => ⟨(hw.rdwr h).1, hf.trans (hw.rdwr h).2⟩⟩

theorem setByteorder (hw : Wf e) (b : UInt8) : Wf (e.setByteorder b) :=
  ⟨hw.unset, hw.fresh, hw.opened, hw.nscn, hw.ndx, hw.raw, hw.phdr, hw.nphdr, hw.write, hw.rdwr⟩

/-- The header may come once the class and the version are known, and may change after that. -/
theorem setEhdr (hw : Wf e) (h : Ehdr) (hc : e.eClass ≠ none) (hv : e.eVersion = evCurrent) :
    Wf (e.setEhdr h) :=
  ⟨fun h => absurd h hc, nofun, fun _ => hv, hw.nscn, hw.ndx, hw.raw, hw.phdr, hw.nphdr, hw.write, hw.rdwr⟩

theorem setPhdr (hw : Wf e) {ps : Option (List Phdr)} (hh : e.eEhdr ≠ none)
    (hps : ∀ l, ps = some l → l.length = e.eNphdr) : Wf (e.setPhdr ps) :=
  ⟨hw.unset, fun h => absurd h hh, hw.opened, hw.nscn, hw.ndx, hw.raw, hps, hw.nphdr, hw.write, hw.rdwr⟩

theorem setScn (hw : Wf e) {l : List Scn} (hh : e.eEhdr ≠ none)
    (hndx : ∀ s ∈ l, e.eNscn ≠ 0 → s.sNdx < e.eNscn) (hraw : ∀ s ∈ l, RawOk e.eRawfile s) : Wf (e.setScn l) :=
  ⟨hw.unset, fun h => absurd h hh, hw.opened, hw.nscn, hndx, hraw, hw.phdr, hw.nphdr, hw.write, hw.rdwr⟩

theorem setCounts (hw : Wf e) {p n x : Nat} (hc : e.eClass ≠ none) (hn : n < 2 ^ 64)
    (hndx : ∀ s ∈ e.eScn, n ≠ 0 → s.sNdx < n) (hphdr : ∀ ps, e.ePhdr = some ps → ps.length = p)
    (hp : ∀ ec, e.eClass = some ec → p * msize .phdr ec < 2 ^ 64) : Wf (e.setCounts p n x) :=
  ⟨fun h => absurd h hc, hw.fresh, hw.opened, hn, hndx, hw.raw, hphdr, hp, hw.write, hw.rdwr⟩

theorem ehdr_ne (hw : Wf e) {s : Scn} (hs : s ∈ e.eScn) : e.eEhdr ≠ none := by
  intro h
  rw [(hw.fresh h).1] at hs
  cases hs

end Wf

theorem msize_phdr_mul {p : Nat} (ec : ElfClass) (h : p < 2 ^ 32) : p * msize .phdr ec < 2 ^ 64 := by
  have hle : p * msize .phdr ec ≤ p * 64 := Nat.mul_le_mul_left _ (msize_lt _ _)
  omega

theorem rawOk_of_nil {file : Option Image} {s : Scn} (h : s.sRawdata = []) : RawOk file s := by
  intro d hd
  rw [h] at hd
  cases hd

/-! ## The executable header and the program headers -/

section Header

variable {env : Env} {ec : ElfClass} {e : Elf}

theorem wf_loadExtended (hw : Wf e) (hc : e.eClass ≠ none) (hh : e.eEhdr ≠ none) (hphdr : e.ePhdr = none)
    (shoff : Nat) (phnum strndx : UInt16) :
    (loadExtended env ec shoff phnum strndx e).Ensures (fun _ => Wf) Wf (fun _ => True) := by
  unfold loadExtended
  split
  · trivial
  split
  · exact hw
  unfold Elf.read
  refine ensures_bind (ensures_readAt (F := fun _ => True) trivial) ?_
  rintro bs _ ⟨_, rfl⟩
  dsimp only
  generalize Shdr.ofFile _ _ _ _ = shdr
  have hscn : Wf (e.setScn [{ allocateScn 0 with shdr := shdr }]) := by
    refine hw.setScn hh ?_ ?_
    · intro s hs hn
      rw [List.mem_singleton.mp hs]
      exact Nat.pos_of_ne_zero hn
    · intro s hs
      rw [List.mem_singleton.mp hs]
      exact rawOk_of_nil rfl
  have hset : ∀ l l' : List Scn, (e.setScn l).setScn l' = e.setScn l' := fun _ _ => rfl
  rw [hset]
  split
  · exact hscn
  · refine hscn.setCounts hc (ElfClass.get_lt _ _) ?_ ?_ ?_
    · intro s hs hn
      rw [List.mem_singleton.mp hs]
      exact Nat.pos_of_ne_zero hn
    · intro ps hps
      rw [show (e.setScn [{ allocateScn 0 with shdr := shdr }]).ePhdr = e.ePhdr from rfl, hphdr] at hps
      cases hps
    · intro ec _
      refine msize_phdr_mul ec ?_
      have h16 := phnum.toNat_lt
      have h32 := shdr.shInfo.toNat_lt
      split <;> omega

theorem wf_libelfEhdr (hw : Wf e) (allocate : Bool) :
    (libelfEhdr env ec allocate e).Ensures (fun _ => Wf) Wf (fun _ => True) := by
  unfold libelfEhdr
  split
  · exact hw
  next hclass =>
  split
  · exact hw
  next hver =>
  have hver : e.eVersion = evCurrent := Decidable.not_not.mp hver
  have hclass : e.eClass = none ∨ e.eClass = some ec := by
    by_cases h : e.eClass = none
    · exact .inl h
    · exact .inr (Decidable.not_not.mp fun h' => hclass ⟨h, h'⟩)
  have hset : Wf (e.setClass ec) := by
    rcases hclass with hnone | hsome
    · obtain ⟨hh, hp⟩ := hw.unset hnone
      obtain ⟨hscn, hphdr⟩ := hw.fresh hh
      refine ⟨nofun, hw.fresh, hw.opened, hw.nscn, hw.ndx, hw.raw, hw.phdr, ?_, hw.write, hw.rdwr⟩
      intro _ _
      simp [hp]
    · rwa [Elf.setClass_self hsome]
  dsimp only
  split
  · exact hset
  next hnone =>
  have hnone : e.eEhdr = none := hnone
  obtain ⟨hscn, hphdr⟩ := hw.fresh hnone
  split
  · exact hset
  have hehdr : ∀ h f, f.rawfileOwned = e.eFlags.rawfileOwned →
      Wf (((e.setClass ec).setEhdr h).setFlags f) :=
    fun h f hf => (hset.setEhdr h (Option.some_ne_none ec) hver).setFlags hf
  split
  · exact hehdr _ _ rfl
  unfold Elf.read
  refine ensures_bind (ensures_readAt (F := fun _ => True) trivial) ?_
  rintro bs _ ⟨_, rfl⟩
  generalize Ehdr.ofFile _ _ _ _ = h
  have hread : ∀ h' f, f.rawfileOwned = e.eFlags.rawfileOwned →
      Wf ((((e.setClass ec).setEhdr h').setFlags f).setEhdr h) :=
    fun h' f hf => (hehdr h' f hf).setEhdr h (Option.some_ne_none ec) hver
  split
  · exact hread _ _ rfl
  split
  · refine ensures_bind (wf_loadExtended (hread _ _ (by rfl)) (Option.some_ne_none ec) (Option.some_ne_none h) hphdr _ _ _) ?_
    exact fun _ _ h => h
  · rw [ensures_ok]
    refine (hread _ _ (by rfl)).setCounts (Option.some_ne_none ec)
      (Nat.lt_trans h.eShnum.toNat_lt (by decide)) ?_ ?_ ?_
    · intro s hs
      simp only [Elf.setEhdr_eScn, Elf.setFlags_eScn, Elf.setClass_eScn, hscn] at hs
      cases hs
    · intro ps hps
      simp only [Elf.setEhdr_ePhdr, Elf.setFlags_ePhdr, Elf.setClass_ePhdr, hphdr] at hps
      cases hps
    · exact fun ec _ => msize_phdr_mul ec (Nat.lt_trans h.ePhnum.toNat_lt (by decide))

/-- The same, with what is known of the header. -/
theorem wf_ehdr (hw : Wf e) (allocate : Bool) : (libelfEhdr env ec allocate e).Ensures
    (fun _ e' => Wf e' ∧ e'.eEhdr ≠ none ∧ e'.eClass = some ec) Wf (fun _ => True) := by
  refine ensures_and_ok (wf_libelfEhdr hw allocate) fun h e' hx => ?_
  obtain ⟨hc, _, hh, _⟩ := libelfEhdr_ok hx
  exact ⟨by rw [hh]; exact Option.some_ne_none h, hc⟩

theorem wf_getphdr (hw : Wf e) : (getphdr env ec e).Ensures (fun _ => Wf) Wf (fun _ => True) := by
  unfold getphdr
  split
  · exact hw
  refine ensures_bind (wf_ehdr hw false) ?_
  rintro h e₁ ⟨hw₁, hh, hc⟩
  dsimp only
  split
  · trivial
  split
  · exact hw₁
  unfold Elf.read
  refine ensures_bind (ensures_readAt (F := fun _ => True) trivial) ?_
  rintro bs _ ⟨_, rfl⟩
  refine hw₁.setPhdr hh fun l hl => ?_
  cases hl
  exact length_records _ _ _ _

theorem wf_newphdr (hw : Wf e) (count : Nat) :
    (newphdr env ec count e).Ensures (fun _ => Wf) Wf (fun _ => True) := by
  have hehdr := @wf_ehdr env ec _ hw false
  unfold newphdr
  split
  · trivial
  · next hx =>
    rw [hx] at hehdr
    exact hehdr
  · next h e₁ hx =>
    rw [hx] at hehdr
    obtain ⟨hw₁, hh, hc⟩ := hehdr
    have hne : e₁.eClass ≠ none := by simp [hc]
    split
    · exact hw₁
    next hroom =>
    split
    · exact ⟨fun h => absurd h hne, fun h => absurd h hh, hw₁.opened, hw₁.nscn, hw₁.ndx, hw₁.raw, nofun,
        fun _ _ => by simp, hw₁.write, hw₁.rdwr⟩
    · refine ⟨fun h => absurd h hne, fun h => absurd h hh, hw₁.opened, hw₁.nscn, hw₁.ndx, hw₁.raw, ?_, ?_,
        hw₁.write, hw₁.rdwr⟩
      · intro ps hps
        cases hps
        exact List.length_replicate
      · intro ec' hec
        rw [show ec' = ec from Option.some.inj (hec.symm.trans hc)]
        exact Nat.lt_of_not_le hroom

theorem wf_updEhdr (hw : Wf e) (upd : Ehdr → Ehdr) : Wf (updEhdr upd e) := by
  unfold updEhdr
  split
  · exact hw
  · next h hh =>
    have hne : e.eEhdr ≠ none := by simp [hh]
    exact hw.setEhdr _ (fun hc => hne (hw.unset hc).1) (hw.opened hne)

theorem wf_storePhdr (hw : Wf e) (i : Nat) (p : Phdr) : Wf (storePhdr i p e) := by
  unfold storePhdr
  cases hps : e.ePhdr with
  | none =>
    rw [Option.map_none, ← hps]
    exact hw
  | some ps =>
    refine hw.setPhdr (fun h => ?_) fun l hl => ?_
    · rw [(hw.fresh h).2] at hps
      cases hps
    · cases hl
      rw [List.length_set]
      exact hw.phdr ps hps

theorem wf_setScn0 (hw : Wf e) (hh : e.eEhdr ≠ none) (upd : Shdr → Shdr) :
    (setScn0 upd e).Ensures (fun _ e' => Wf e' ∧ e'.eEhdr ≠ none) Wf (fun _ => True) := by
  have hall : ∀ l : List Scn, (∀ s ∈ l, e.eNscn ≠ 0 → s.sNdx < e.eNscn) →
      (∀ s ∈ l, RawOk e.eRawfile s) → Wf (e.setScn l) :=
    fun l => hw.setScn hh
  unfold setScn0 getscn0
  cases hscn : e.eScn with
  | nil =>
    simp only [Elf.setScn_eScn]
    split
    · trivial
    · refine ⟨hall _ ?_ ?_, hh⟩
      · intro s hs hn
        rw [List.mem_singleton.mp hs]
        exact Nat.pos_of_ne_zero hn
      · intro s hs
        rw [List.mem_singleton.mp hs]
        exact rawOk_of_nil rfl
  | cons s ss =>
    dsimp only
    rw [hscn]
    dsimp only
    split
    · trivial
    · refine ⟨hall _ ?_ ?_, hh⟩
      · intro t ht hn
        rcases List.mem_cons.mp ht with rfl | ht
        · exact hw.ndx s (hscn ▸ List.mem_cons_self) hn
        · exact hw.ndx t (hscn ▸ List.mem_cons_of_mem s ht) hn
      · intro t ht
        rcases List.mem_cons.mp ht with rfl | ht
        · exact hw.raw s (hscn ▸ List.mem_cons_self)
        · exact hw.raw t (hscn ▸ List.mem_cons_of_mem s ht)

theorem wf_setshnum (hw : Wf e) (hh : e.eEhdr ≠ none) (n : Nat) :
    (setshnum ec n e).Ensures (fun _ => Wf) Wf (fun _ => True) := by
  unfold setshnum
  split
  · exact ensures_bind (wf_setScn0 hw hh _) fun _ _ h => wf_updEhdr h.1 _
  · exact wf_updEhdr hw _

theorem wf_setshstrndx (hw : Wf e) (hh : e.eEhdr ≠ none) (n : Nat) :
    (setshstrndx n e).Ensures (fun _ => Wf) Wf (fun _ => True) := by
  unfold setshstrndx
  split
  · exact ensures_bind (wf_setScn0 hw hh _) fun _ _ h => wf_updEhdr h.1 _
  · exact wf_updEhdr hw _

theorem updEhdr_eEhdr_ne {upd : Ehdr → Ehdr} (hh : e.eEhdr ≠ none) : (updEhdr upd e).eEhdr ≠ none := by
  unfold updEhdr
  split
  · exact hh
  · exact Option.some_ne_none _

theorem wf_setphnum (hw : Wf e) (hh : e.eEhdr ≠ none) (n : Nat) :
    (setphnum n e).Ensures (fun _ e' => Wf e' ∧ e'.eEhdr ≠ none) Wf (fun _ => True) := by
  unfold setphnum
  split
  · exact ensures_bind (wf_setScn0 hw hh _) fun _ _ h => ⟨wf_updEhdr h.1 _, updEhdr_eEhdr_ne h.2⟩
  · exact ⟨wf_updEhdr hw _, updEhdr_eEhdr_ne hh⟩

end Header

/-! ## Sections -/

section Sections

variable {env : Env} {ec : ElfClass} {e : Elf}

/-- The sections that the loop over the table appends have indices below the count. -/
theorem wf_loadLoop (n : Nat) : ∀ (src ndx : Nat) (e : Elf), Wf e → e.eEhdr ≠ none →
    ndx + n ≤ e.eNscn ∨ n = 0 →
    (loadLoop env ec n src ndx e).Ensures
      (fun _ e' => Wf e' ∧ e'.eEhdr ≠ none ∧ e'.eFlags = e.eFlags) Wf (fun _ => True) := by
  induction n with
  | zero => exact fun _ _ e hw hh _ => ⟨hw, hh, rfl⟩
  | succ n ih =>
    intro src ndx e hw hh hn
    unfold loadLoop Elf.read
    refine ensures_bind (ensures_readAt (F := fun _ => True) trivial) ?_
    rintro bs _ ⟨_, rfl⟩
    refine ih _ _ _ ?_ hh (.inl ?_)
    · refine hw.setScn hh ?_ ?_
      · intro s hs hn0
        rcases List.mem_append.mp hs with hs | hs
        · exact hw.ndx s hs hn0
        · rw [List.mem_singleton.mp hs]
          simp only [loadScn, allocateScn]
          omega
      · intro s hs
        rcases List.mem_append.mp hs with hs | hs
        · exact hw.raw s hs
        · rw [List.mem_singleton.mp hs]
          exact rawOk_of_nil rfl
    · simp only [Elf.setScn_eNscn]
      omega

theorem wf_needSectionHeaders (hw : Wf e) (hh : e.eEhdr ≠ none) (h : Ehdr) :
    (needSectionHeaders env ec h e).Ensures (fun _ e' => Wf e' ∧ e'.eEhdr ≠ none) Wf (fun _ => True) := by
  unfold needSectionHeaders
  split
  swap
  · exact ⟨hw, hh⟩
  unfold loadSectionHeaders
  split
  · trivial
  dsimp only
  split
  · exact hw
  refine ensures_bind (Q := fun _ e' => Wf e' ∧ e'.eEhdr ≠ none ∧ e'.eFlags = e.eFlags) ?_ ?_
  · split
    · exact wf_loadLoop _ _ _ _ hw hh (.inl (by omega))
    · exact wf_loadLoop _ _ _ _ hw hh (by omega)
    · trivial
  · rintro _ e₁ ⟨hw₁, hh₁, hf⟩
    exact ⟨hw₁.setFlags rfl, hh₁⟩

theorem wf_elfGetscn (hw : Wf e) (index : Nat) :
    (elfGetscn env index e).Ensures (fun _ => Wf) Wf (fun _ => True) := by
  unfold elfGetscn withClass
  split
  · exact hw
  refine ensures_bind (wf_ehdr hw false) ?_
  rintro h e₁ ⟨hw₁, hh₁, _⟩
  refine ensures_bind (wf_needSectionHeaders hw₁ hh₁ h) ?_
  rintro _ e₂ ⟨hw₂, _⟩
  split <;> exact hw₂

theorem wf_elfNewscn (hw : Wf e) : (elfNewscn env e).Ensures (fun _ => Wf) Wf (fun _ => True) := by
  unfold elfNewscn
  split
  · exact hw
  next ec hec =>
  refine ensures_bind (wf_ehdr hw false) ?_
  rintro h e₁ ⟨hw₁, hh₁, hc₁⟩
  refine ensures_bind (wf_needSectionHeaders hw₁ hh₁ h) ?_
  rintro _ e₂ ⟨hw₂, hh₂⟩
  have hc₂ : e₂.eClass ≠ none := fun hc => hh₂ (hw₂.unset hc).1
  split
  · trivial
  next hcount =>
  -- the list with section 0, and the count that goes with it
  have hfirst : ∀ e₃, e₃ = (if e₂.eScn = [] then
      (e₂.setScn [allocateScn 0]).setCounts e₂.eNphdr 1 e₂.eStrndx else e₂) →
      Wf e₃ ∧ e₃.eEhdr ≠ none ∧ e₃.eClass ≠ none := by
    rintro e₃ rfl
    split
    · next hnil =>
      refine ⟨?_, hh₂, hc₂⟩
      refine ⟨fun h => absurd h hc₂, fun h => absurd h hh₂, hw₂.opened, Nat.one_lt_two_pow (by decide), ?_, ?_,
        hw₂.phdr, hw₂.nphdr,
        hw₂.write, hw₂.rdwr⟩
      · intro s hs _
        rw [List.mem_singleton.mp hs]
        exact Nat.one_pos
      · intro s hs
        rw [List.mem_singleton.mp hs]
        exact rawOk_of_nil rfl
    · exact ⟨hw₂, hh₂, hc₂⟩
  dsimp only
  generalize hfirst' : (if e₂.eScn = [] then (e₂.setScn [allocateScn 0]).setCounts e₂.eNphdr 1 e₂.eStrndx
    else e₂) = e₃
  obtain ⟨hw₃, hh₃, hc₃⟩ := hfirst e₃ hfirst'.symm
  split
  · trivial
  next hn =>
  -- an index below the count stays below the next one, unless the count wraps to zero
  have hlt : ∀ k, k ≤ e₃.eNscn → wrap (e₃.eNscn + 1) ≠ 0 → k < wrap (e₃.eNscn + 1) := by
    intro k hk hne
    have := hw₃.nscn
    unfold wrap at *
    omega
  refine ⟨fun h => absurd h hc₃, fun h => absurd h hh₃, hw₃.opened, wrap_lt _, ?_, ?_, hw₃.phdr,
    hw₃.nphdr, hw₃.write, hw₃.rdwr⟩
  · intro s hs hne
    rcases List.mem_append.mp hs with hs | hs
    · exact hlt _ (Nat.le_of_lt (hw₃.ndx s hs hn)) hne
    · rw [List.mem_singleton.mp hs]
      exact hlt _ (Nat.le_refl _) hne
  · intro s hs
    rcases List.mem_append.mp hs with hs | hs
    · exact hw₃.raw s hs
    · rw [List.mem_singleton.mp hs]
      exact rawOk_of_nil rfl

/-- A call on a section keeps its index and leaves at most a raw descriptor of the file. -/
theorem wf_onScn {α : Type} {f : Elf → ElfClass → Scn → ScnCall α} (hw : Wf e)
    (hf : ∀ (e : Elf) ec s, e.eVersion = evCurrent → RawOk e.eRawfile s →
      (f e ec s).Ensures (fun _ s' => s'.sNdx = s.sNdx ∧ RawOk e.eRawfile s')
        (fun s' => s'.sNdx = s.sNdx ∧ RawOk e.eRawfile s') (fun _ => True)) (i : Nat) :
    (onScn f i e).Ensures (fun _ => Wf) Wf (fun _ => True) := by
  unfold onScn withClass
  split
  · exact hw
  next ec hec =>
  dsimp only
  split
  · exact hw
  next s hs =>
  have hmem : s ∈ e.eScn := List.mem_of_getElem? hs
  have hh := hw.ehdr_ne hmem
  have hset : ∀ s', s'.sNdx = s.sNdx ∧ RawOk e.eRawfile s' → Wf (e.setScn (e.eScn.set i s')) := by
    rintro s' ⟨hndx, hraw⟩
    refine hw.setScn hh ?_ ?_
    · intro t ht hn
      rcases List.mem_or_eq_of_mem_set ht with ht | rfl
      · exact hw.ndx t ht hn
      · rw [hndx]
        exact hw.ndx s hmem hn
    · intro t ht
      rcases List.mem_or_eq_of_mem_set ht with ht | rfl
      · exact hw.raw t ht
      · exact hraw
  exact ensures_within (ensures_mono (hf e ec s (hw.opened hh) (hw.raw s hmem))
    (fun _ s' h => hset s' h) (fun s' h => hset s' h) fun _ h => h)

theorem rawOk_getdata (e : Elf) (ec : ElfClass) (s : Scn) (hr : RawOk e.eRawfile s) :
    (getdata env e ec s).Ensures (fun _ s' => s'.sNdx = s.sNdx ∧ RawOk e.eRawfile s')
      (fun s' => s'.sNdx = s.sNdx ∧ RawOk e.eRawfile s') (fun _ => True) := by
  unfold getdata
  split
  · exact ⟨rfl, hr⟩
  split
  · exact ⟨rfl, hr⟩
  split
  · exact ⟨rfl, hr⟩
  dsimp only
  split
  · exact ⟨rfl, hr⟩
  split
  · trivial
  split
  · trivial
  · exact ⟨rfl, hr⟩
  split
  · exact ⟨rfl, hr⟩
  · trivial

theorem rawData_rawDescriptor {e : Elf} (hv : e.eVersion = evCurrent) (h : Shdr)
    (hin : ¬ outOfImage e ec h) : RawData ec h (rawDescriptor e ec h hin) := by
  refine ⟨⟨rfl, rfl, hv⟩, ?_, ?_⟩
  · rw [rawDescriptor, UInt64.toNat_ofNat', Nat.mod_eq_of_lt (ec.get_lt _)]
  · rw [rawDescriptor]
    split
    · next hempty => simp [hempty]
    · next hfull => simp [hfull]

theorem rawOk_rawdata (e : Elf) (ec : ElfClass) (s : Scn) (hv : e.eVersion = evCurrent) (hr : RawOk e.eRawfile s) :
    (rawdata e ec s).Ensures (fun _ s' => s'.sNdx = s.sNdx ∧ RawOk e.eRawfile s')
      (fun s' => s'.sNdx = s.sNdx ∧ RawOk e.eRawfile s') (fun _ => True) := by
  unfold rawdata
  split
  · exact ⟨rfl, hr⟩
  next hfile =>
  split
  · exact ⟨rfl, hr⟩
  split
  · exact ⟨rfl, hr⟩
  split
  · exact ⟨rfl, hr⟩
  · refine ⟨rfl, fun d hd => ?_⟩
    rw [List.mem_singleton.mp hd]
    exact ⟨rfl, (rawData_rawDescriptor hv _ _).toRawShape, hfile⟩

theorem rawOk_newdata (e : Elf) (ec : ElfClass) (s : Scn) (hr : RawOk e.eRawfile s) :
    (newdata env e ec s).Ensures (fun _ s' => s'.sNdx = s.sNdx ∧ RawOk e.eRawfile s')
      (fun s' => s'.sNdx = s.sNdx ∧ RawOk e.eRawfile s') (fun _ => True) := by
  unfold newdata
  refine ensures_bind (Q := fun _ s' => s'.sNdx = s.sNdx ∧ RawOk e.eRawfile s') ?_ ?_
  · split
    · exact ensures_bind (rawOk_getdata e ec s hr) fun _ _ h => h
    · exact ⟨rfl, hr⟩
  · exact fun _ _ h => h

/-- What an application stores in a section is not its index and not its raw descriptor. -/
theorem wf_storeScn {f : ElfClass → Scn → Scn} (hw : Wf e)
    (hf : ∀ ec s, (f ec s).sNdx = s.sNdx ∧ (f ec s).sRawdata = s.sRawdata) (i : Nat) :
    (onScn (fun _ ec s => .ok () (f ec s)) i e).Ensures (fun _ => Wf) Wf (fun _ => True) := by
  refine wf_onScn hw (fun e ec s _ hr => ?_) i
  obtain ⟨hndx, hraw⟩ := hf ec s
  exact ⟨hndx, by rwa [RawOk, hraw]⟩

end Sections

end LibElf.Toolchain
