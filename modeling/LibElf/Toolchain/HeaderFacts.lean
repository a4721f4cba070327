import LibElf.Toolchain.Header

/-!
# What the header calls return

The executable header of a file that is read, and what extended numbering adds to it.

1. `fileEhdr` and `fileShdr0`, the two headers in the image of a descriptor.
2. `libelfEhdr_cached`, `libelfEhdr_write` and `libelfEhdr_file`: the call on a descriptor with a
   header, on one that is written, and on one that is read.
3. `loadExtended_file`: the counts from section header 0.
4. `SameFile`, what the calls that read never change, and `libelfEhdr_ok`, `getphdr_frame`.
-/

namespace LibElf.Toolchain

open Outcome

section Header

variable (env : Env) (ec : ElfClass) (e : Elf)

def fileEhdr : Ehdr :=
  Ehdr.ofFile env.host (e.swaps env) ec (window e.rawbytes 0 (fsize .ehdr ec))

/-- The section header at the start of the section header table. -/
def fileShdr0 : Shdr :=
  Shdr.ofFile env.host (e.swaps env) ec
    (window e.rawbytes (ec.get (fileEhdr env ec e).eShoff) (fsize .shdr ec))

variable {env ec e}

/-- A header that is there is returned. -/
theorem libelfEhdr_cached (hc : e.eClass = some ec) (hv : e.eVersion = evCurrent) {h : Ehdr}
    (hh : e.eEhdr = some h) (allocate : Bool) : libelfEhdr env ec allocate e = .ok h e := by
  unfold libelfEhdr
  rw [if_neg (by simp [hc]), if_neg (by simp [hv]), Elf.setClass_self hc]
  simp only [hh]

/-- A file that is written starts with an initial header. -/
theorem libelfEhdr_write (hc : e.eClass = none ∨ e.eClass = some ec) (hv : e.eVersion = evCurrent)
    (hh : e.eEhdr = none) (hw : e.eCmd = .write) (allocate : Bool) :
    libelfEhdr env ec allocate e =
      .ok (ehdrInit ec) (((e.setClass ec).setEhdr (ehdrInit ec)).setFlags
        { e.eFlags with dirty := e.eFlags.dirty || allocate }) := by
  have hclass : ¬(e.eClass ≠ none ∧ e.eClass ≠ some ec) := by
    rintro ⟨h1, h2⟩
    exact hc.elim h1 h2
  unfold libelfEhdr
  rw [if_neg hclass, if_neg (by simp [hv])]
  simp [hh, hw]

/-- A file that is too short for a header is refused. -/
theorem libelfEhdr_short (hc : e.eClass = some ec) (hv : e.eVersion = evCurrent) (hh : e.eEhdr = none)
    (hw : e.eCmd ≠ .write) (hlen : e.rawsize < fsize .ehdr ec) :
    libelfEhdr env ec false e = .err .HEADER e := by
  unfold libelfEhdr
  rw [if_neg (by simp [hc]), if_neg (by simp [hv]), Elf.setClass_self hc]
  simp [hh, hw, hlen]

/-- The header of a file that is read: its counts are refused, or looked up in section header 0,
or taken as they are. -/
theorem libelfEhdr_file (hc : e.eClass = some ec) (hv : e.eVersion = evCurrent) (hh : e.eEhdr = none)
    (hw : e.eCmd ≠ .write) (hlen : fsize .ehdr ec ≤ e.rawsize) :
    libelfEhdr env ec false e =
      if badCounts ec (fileEhdr env ec e) then
        .err .HEADER (e.setEhdr (fileEhdr env ec e))
      else if isExtended ec (fileEhdr env ec e) then
        (loadExtended env ec (ec.get (fileEhdr env ec e).eShoff) (fileEhdr env ec e).ePhnum
          (fileEhdr env ec e).eShstrndx (e.setEhdr (fileEhdr env ec e))).bind fun _ e' =>
            .ok (fileEhdr env ec e) e'
      else
        .ok (fileEhdr env ec e) ((e.setEhdr (fileEhdr env ec e)).setCounts
          (fileEhdr env ec e).ePhnum.toNat (fileEhdr env ec e).eShnum.toNat
          (fileEhdr env ec e).eShstrndx.toNat) := by
  have hin : 0 + fsize .ehdr ec ≤ e.rawbytes.length := by
    rw [e.length_rawbytes, Nat.zero_add]
    exact hlen
  have hset : ∀ h h' : Ehdr, ((e.setEhdr h).setFlags
      { e.eFlags with dirty := e.eFlags.dirty || false }).setEhdr h' = e.setEhdr h' := by
    intro h h'
    simp [Elf.setEhdr, Elf.setFlags]
  unfold libelfEhdr
  rw [if_neg (by simp [hc]), if_neg (by simp [hv]), Elf.setClass_self hc]
  simp only [hh]
  rw [if_neg (fun h => Nat.not_lt_of_le hlen h.2), if_neg (by simpa using hw), Elf.read,
    Elf.rawbytes_setFlags, Elf.rawbytes_setEhdr, readAt_of_le _ hin, bind_ok]
  simp only [hset, Elf.swaps_setFlags, Elf.swaps_setEhdr]
  rfl

/-- The counts from section header 0, when the sum in the bound check does not wrap. -/
theorem loadExtended_file (hempty : e.eScn = []) {shoff : Nat} (phnum strndx : UInt16)
    (hsum : shoff + fsize .shdr ec < 2 ^ 64) :
    loadExtended env ec shoff phnum strndx e =
      if e.rawsize < shoff + fsize .shdr ec then .err .HEADER e
      else
        let s := Shdr.ofFile env.host (e.swaps env) ec (window e.rawbytes shoff (fsize .shdr ec))
        let e' := e.setScn [{ allocateScn 0 with shdr := s }]
        if s.shType ≠ shtNull then .err .SECTION e'
        else
          .ok () (e'.setCounts (if phnum.toNat ≠ pnXnum then phnum.toNat else s.shInfo.toNat)
            (ec.get s.shSize) (if strndx.toNat ≠ shnXindex then strndx.toNat else s.shLink.toNat)) := by
  unfold loadExtended
  rw [if_neg (by simp [hempty]), wrap_of_lt hsum]
  split
  · rfl
  · next hroom =>
    have hin : shoff + fsize .shdr ec ≤ e.rawbytes.length := by
      rw [e.length_rawbytes]
      omega
    rw [Elf.read, readAt_of_le _ hin, bind_ok]
    rfl

/-- The header of a file with extended numbering, when section header 0 is in the image. The three
outcomes are those of `loadExtended_file`. -/
theorem libelfEhdr_extended (hc : e.eClass = some ec) (hv : e.eVersion = evCurrent) (hh : e.eEhdr = none)
    (hw : e.eCmd ≠ .write) (hlen : fsize .ehdr ec ≤ e.rawsize) (hempty : e.eScn = [])
    (hbad : ¬ badCounts ec (fileEhdr env ec e)) (hext : isExtended ec (fileEhdr env ec e))
    (hsum : ec.get (fileEhdr env ec e).eShoff + fsize .shdr ec < 2 ^ 64) :
    libelfEhdr env ec false e =
      let h := fileEhdr env ec e
      let s := fileShdr0 env ec e
      let e' := (e.setEhdr h).setScn [{ allocateScn 0 with shdr := s }]
      if e.rawsize < ec.get h.eShoff + fsize .shdr ec then .err .HEADER (e.setEhdr h)
      else if s.shType ≠ shtNull then .err .SECTION e'
      else
        .ok h (e'.setCounts (if h.ePhnum.toNat ≠ pnXnum then h.ePhnum.toNat else s.shInfo.toNat)
          (ec.get s.shSize)
          (if h.eShstrndx.toNat ≠ shnXindex then h.eShstrndx.toNat else s.shLink.toNat)) := by
  have hempty' : (e.setEhdr (fileEhdr env ec e)).eScn = [] := hempty
  rw [libelfEhdr_file hc hv hh hw hlen, if_neg hbad, if_pos hext, loadExtended_file hempty' _ _ hsum,
    Elf.rawsize_setEhdr]
  dsimp only
  split
  · rfl
  · rw [show Shdr.ofFile env.host ((e.setEhdr (fileEhdr env ec e)).swaps env) ec
      (window (e.setEhdr (fileEhdr env ec e)).rawbytes (ec.get (fileEhdr env ec e).eShoff)
        (fsize .shdr ec)) = fileShdr0 env ec e from rfl]
    split <;> rfl

end Header

/-! ## What reading never changes -/

/-- The two descriptors have the same file, mode and layout policy. -/
structure SameFile (e e' : Elf) : Prop where
  cmd : e'.eCmd = e.eCmd
  fd : e'.eFd = e.eFd
  rawfile : e'.eRawfile = e.eRawfile
  version : e'.eVersion = e.eVersion
  layout : e'.eFlags.layout = e.eFlags.layout
  owned : e'.eFlags.rawfileOwned = e.eFlags.rawfileOwned

namespace SameFile

variable {e e' e'' : Elf}

theorem refl (e : Elf) : SameFile e e := ⟨rfl, rfl, rfl, rfl, rfl, rfl⟩

theorem trans (h : SameFile e e') (h' : SameFile e' e'') : SameFile e e'' :=
  ⟨h'.cmd.trans h.cmd, h'.fd.trans h.fd, h'.rawfile.trans h.rawfile, h'.version.trans h.version,
    h'.layout.trans h.layout, h'.owned.trans h.owned⟩

theorem rawbytes (h : SameFile e e') : e'.rawbytes = e.rawbytes := by
  simp [Elf.rawbytes, h.rawfile]

theorem rawsize (h : SameFile e e') : e'.rawsize = e.rawsize := by
  simp [Elf.rawsize, h.rawfile]

end SameFile

section Frames

variable {env : Env} {ec : ElfClass} {e e' : Elf}

/-- Bringing in the counts touches the list of sections and the counts. -/
theorem loadExtended_ok {shoff : Nat} {phnum strndx : UInt16}
    (hx : loadExtended env ec shoff phnum strndx e = .ok () e') :
    e.eScn = [] ∧ ∃ s p n x, s.sNdx = 0 ∧ s.shdr.shType = shtNull ∧ p < 2 ^ 32 ∧
      n = ec.get s.shdr.shSize ∧ s = { allocateScn 0 with shdr := s.shdr } ∧
      e' = (e.setScn [s]).setCounts p n x := by
  unfold loadExtended at hx
  split at hx
  · cases hx
  next hempty =>
  split at hx
  · cases hx
  obtain ⟨bs, e₁, hread, hrest⟩ := bind_eq_ok.mp hx
  obtain ⟨_, _, rfl⟩ := readAt_eq_ok.mp hread
  dsimp only at hrest
  split at hrest
  · cases hrest
  next htype =>
  cases hrest
  have hp : (if phnum.toNat ≠ pnXnum then phnum.toNat else
      (Shdr.ofFile env.host ((e.setScn [allocateScn 0]).swaps env) ec bs).shInfo.toNat) < 2 ^ 32 := by
    have h16 := phnum.toNat_lt
    have h32 := (Shdr.ofFile env.host ((e.setScn [allocateScn 0]).swaps env) ec bs).shInfo.toNat_lt
    split <;> omega
  exact ⟨Decidable.not_not.mp hempty, _, _, _, _, rfl, Decidable.not_not.mp htype, hp, rfl, rfl, rfl⟩

theorem libelfEhdr_ok {allocate : Bool} {h : Ehdr} (hx : libelfEhdr env ec allocate e = .ok h e') :
    e'.eClass = some ec ∧ e'.eVersion = evCurrent ∧ e'.eEhdr = some h ∧ SameFile e e' := by
  unfold libelfEhdr at hx
  split at hx
  · cases hx
  split at hx
  · cases hx
  next hver =>
  have hver : e.eVersion = evCurrent := Decidable.not_not.mp hver
  dsimp only at hx
  split at hx
  · next h' hh =>
    cases hx
    exact ⟨rfl, hver, hh, ⟨rfl, rfl, rfl, rfl, rfl, rfl⟩⟩
  split at hx
  · cases hx
  split at hx
  · cases hx
    exact ⟨rfl, hver, rfl, ⟨rfl, rfl, rfl, rfl, rfl, rfl⟩⟩
  obtain ⟨bs, e₁, hread, hrest⟩ := bind_eq_ok.mp hx
  obtain ⟨_, _, rfl⟩ := readAt_eq_ok.mp hread
  split at hrest
  · cases hrest
  split at hrest
  · obtain ⟨_, e₂, hload, heq⟩ := bind_eq_ok.mp hrest
    cases heq
    obtain ⟨_, s, p, n, x, _, _, _, _, _, rfl⟩ := loadExtended_ok hload
    exact ⟨rfl, hver, rfl, ⟨rfl, rfl, rfl, rfl, rfl, rfl⟩⟩
  · cases hrest
    exact ⟨rfl, hver, rfl, ⟨rfl, rfl, rfl, rfl, rfl, rfl⟩⟩

/-- Once the header is there, the program header table is all that `_libelf_getphdr` brings in. -/
theorem getphdr_frame (hc : e.eClass = some ec) (hv : e.eVersion = evCurrent) {h : Ehdr}
    (hh : e.eEhdr = some h) :
    (getphdr env ec e).Ensures (fun ps e' => e' = e.setPhdr (some ps) ∧
      (e.ePhdr = none → ps.length = e.eNphdr)) (· = e) (fun _ => True) := by
  unfold getphdr
  split
  · next ps hps =>
    refine ⟨?_, fun hnone => by rw [hps] at hnone; cases hnone⟩
    cases e
    cases hps
    rfl
  rw [libelfEhdr_cached hc hv hh, bind_ok]
  dsimp only
  split
  · trivial
  split
  · exact rfl
  unfold Elf.read readAt
  split
  · exact ⟨rfl, fun _ => length_records _ _ _ _⟩
  · trivial

end Frames

end LibElf.Toolchain
