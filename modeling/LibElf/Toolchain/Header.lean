import LibElf.Toolchain.Descriptor

/-!
# The executable header and the program header table

`libelf_ehdr.c`, `libelf_phdr.c`, `libelf_extended.c` and the calls of the API that only wrap them.
A function that takes the class gets the class of the descriptor from its caller.

1. `loadExtended` and `libelfEhdr`, the executable header, read on the first call.
2. `getphdr` and `newphdr`, the program header table.
3. `setshnum`, `setshstrndx` and `setphnum`, the writers of extended numbering.
4. `getphdrnum`, `getshdrnum`, `getshdrstrndx`, `updateEhdr`, `updatePhdr`, `flagelf`.
-/

namespace LibElf.Toolchain

section Header

variable (env : Env) (ec : ElfClass)

/-! ## The executable header -/

/-- `EHDR_INIT` on a header that `calloc` has cleared. -/
def ehdrInit : Ehdr :=
  { Ehdr.zero with
    eIdent := #v[0x7F, 0x45, 0x4C, 0x46, ec.toByte, 0, UInt8.ofNat evCurrent, 0, 0, 0, 0, 0, 0, 0, 0, 0]
    eVersion := UInt32.ofNat evCurrent }

def loadExtended (shoff : Nat) (phnum strndx : UInt16) (e : Elf) : Call Unit :=
  if e.eScn ≠ [] then .stop .assertion
  else if e.rawsize < wrap (shoff + fsize .shdr ec) then .err .HEADER e
  else
    (e.read shoff (fsize .shdr ec) (e.setScn [allocateScn 0])).bind fun bs e =>
    let shdr := Shdr.ofFile env.host (e.swaps env) ec bs
    let e := e.setScn [{ allocateScn 0 with shdr := shdr }]
    if shdr.shType ≠ shtNull then .err .SECTION e
    else
      .ok () (e.setCounts
        (if phnum.toNat ≠ pnXnum then phnum.toNat else shdr.shInfo.toNat)
        (ec.get shdr.shSize)
        (if strndx.toNat ≠ shnXindex then strndx.toNat else shdr.shLink.toNat))

/-- The counts in the header contradict a section header table offset of zero, or are reserved. -/
def badCounts (h : Ehdr) : Prop :=
  shnLoreserve ≤ h.eShnum.toNat ∨ ec.get h.eShoff = 0 ∧
    (h.eShnum.toNat ≠ 0 ∨ h.ePhnum.toNat = pnXnum ∨ h.eShstrndx.toNat = shnXindex)

/-- The header uses extended numbering. -/
def isExtended (h : Ehdr) : Prop :=
  h.eShnum.toNat = 0 ∧ ec.get h.eShoff ≠ 0 ∨ h.ePhnum.toNat = pnXnum ∨ h.eShstrndx.toNat = shnXindex

instance (h : Ehdr) : Decidable (badCounts ec h) := inferInstanceAs (Decidable (_ ∨ _))

instance (h : Ehdr) : Decidable (isExtended ec h) := inferInstanceAs (Decidable (_ ∨ _))

/-- `_libelf_ehdr(e, ec, allocate)`. The header stays cached when its counts are refused. -/
def libelfEhdr (allocate : Bool) (e : Elf) : Call Ehdr :=
  if e.eClass ≠ none ∧ e.eClass ≠ some ec then .err .CLASS e
  else if e.eVersion ≠ evCurrent then .err .VERSION e
  else
    let e := e.setClass ec
    match e.eEhdr with
    | some h => .ok h e
    | none =>
      if e.eCmd ≠ .write ∧ e.rawsize < fsize .ehdr ec then .err .HEADER e
      else
        let e := (e.setEhdr (ehdrInit ec)).setFlags
          { e.eFlags with dirty := e.eFlags.dirty || allocate }
        if e.eCmd = .write then .ok (ehdrInit ec) e
        else
          (e.read 0 (fsize .ehdr ec) e).bind fun bs e =>
          let h := Ehdr.ofFile env.host (e.swaps env) ec bs
          let e := e.setEhdr h
          if badCounts ec h then .err .HEADER e
          else if isExtended ec h then
            (loadExtended env ec (ec.get h.eShoff) h.ePhnum h.eShstrndx e).bind fun _ e => .ok h e
          else .ok h (e.setCounts h.ePhnum.toNat h.eShnum.toNat h.eShstrndx.toNat)

/-! ## Program headers -/

def getphdr (e : Elf) : Call (List Phdr) :=
  match e.ePhdr with
  | some ps => .ok ps e
  | none =>
    (libelfEhdr env ec false e).bind fun h e =>
    let phnum := e.eNphdr
    let fsz := libelfFsize .phdr ec phnum
    if fsz = 0 then .stop .assertion
    else if e.rawsize < wrap (ec.get h.ePhoff + fsz) then .err .HEADER e
    else
      (e.read (ec.get h.ePhoff) (phnum * fsize .phdr ec) e).bind fun bs e =>
      let ps := records (Phdr.ofFile env.host (e.swaps env) ec) (fsize .phdr ec) phnum bs
      .ok ps (e.setPhdr (some ps))

/-- `_libelf_newphdr(e, ec, count)`; a table without entries is a null pointer. -/
def newphdr (count : Nat) (e : Elf) : Call Unit :=
  match libelfEhdr env ec false e with
  | .stop f => .stop f
  | .err _ e => .err .SEQUENCE e
  | .ok _ e =>
    -- `calloc` checks the product
    if 2 ^ 64 ≤ count * msize .phdr ec then .err .RESOURCE e
    else if count = 0 then .ok () ((e.setCounts 0 e.eNscn e.eStrndx).setPhdr none)
    else
      let e := e.setCounts count e.eNscn e.eStrndx
      .ok () ((e.setPhdr (some (List.replicate count Phdr.zero))).setFlags
        { e.eFlags with dirty := true })

/-! ## Extended numbering -/

/-- `_libelf_getscn0`: allocate section 0 unless the list has a first section. -/
def getscn0 (e : Elf) : Elf :=
  match e.eScn with
  | [] => e.setScn [allocateScn 0]
  | _ :: _ => e

/-- Store a value in section header 0, allocated if needed, and mark the section dirty. -/
def setScn0 (upd : Shdr → Shdr) (e : Elf) : Call Unit :=
  match (getscn0 e).eScn with
  | [] => .ok () e
  | s :: ss =>
    if s.sNdx ≠ 0 then .stop .assertion
    else .ok () ((getscn0 e).setScn ({ s with shdr := upd s.shdr, sDirty := true } :: ss))

def updEhdr (upd : Ehdr → Ehdr) (e : Elf) : Elf :=
  match e.eEhdr with
  | none => e
  | some h => e.setEhdr (upd h)

def setshnum (shnum : Nat) (e : Elf) : Call Unit :=
  if shnLoreserve ≤ shnum then
    (setScn0 (fun s => { s with shSize := ec.put shnum }) e).bind fun _ e =>
    .ok () (updEhdr (fun h => { h with eShnum := 0 }) e)
  else .ok () (updEhdr (fun h => { h with eShnum := UInt16.ofNat shnum }) e)

def setshstrndx (shstrndx : Nat) (e : Elf) : Call Unit :=
  if shnLoreserve ≤ shstrndx then
    (setScn0 (fun s => { s with shLink := UInt32.ofNat shstrndx }) e).bind fun _ e =>
    .ok () (updEhdr (fun h => { h with eShstrndx := UInt16.ofNat shnXindex }) e)
  else .ok () (updEhdr (fun h => { h with eShstrndx := UInt16.ofNat shstrndx }) e)

def setphnum (phnum : Nat) (e : Elf) : Call Unit :=
  if pnXnum ≤ phnum then
    (setScn0 (fun s => { s with shInfo := UInt32.ofNat phnum }) e).bind fun _ e =>
    .ok () (updEhdr (fun h => { h with ePhnum := UInt16.ofNat pnXnum }) e)
  else .ok () (updEhdr (fun h => { h with ePhnum := UInt16.ofNat phnum }) e)

end Header

/-! ## Calls of the API -/

section Api

variable (env : Env)

def withClass {α : Type} (f : ElfClass → Elf → Call α) (e : Elf) : Call α :=
  match e.eClass with
  | none => .err .ARGUMENT e
  | some ec => f ec e

theorem withClass_of_class {e : Elf} {ec : ElfClass} {α : Type} (f : ElfClass → Elf → Call α)
    (hc : e.eClass = some ec) : withClass f e = f ec e := by
  unfold withClass
  rw [hc]

def elfGetphdrnum (e : Elf) : Call Nat :=
  withClass (fun ec e => (libelfEhdr env ec false e).bind fun _ e => .ok e.eNphdr e) e

def elfGetshdrnum (e : Elf) : Call Nat :=
  withClass (fun ec e => (libelfEhdr env ec false e).bind fun _ e => .ok e.eNscn e) e

def elfGetshdrstrndx (e : Elf) : Call Nat :=
  withClass (fun ec e => (libelfEhdr env ec false e).bind fun _ e => .ok e.eStrndx e) e

def elfSetshstrndx (ndx : Nat) (e : Elf) : Call Unit :=
  withClass (fun ec e =>
    match libelfEhdr env ec false e with
    | .stop f => .stop f
    | .err _ e => .err .ARGUMENT e
    | .ok _ e => setshstrndx ndx e) e

def gelfGetehdr (e : Elf) : Call Ehdr :=
  withClass (fun ec e => libelfEhdr env ec false e) e

def elfGetphdr (e : Elf) : Call (List Phdr) := withClass (fun ec e => getphdr env ec e) e

/-- `gelf_newphdr`; the class of the descriptor is the one passed on, so without a class the call
stops in `_libelf_ehdr`. -/
def gelfNewphdr (count : Nat) (e : Elf) : Call Unit :=
  match e.eClass with
  | none => .stop .assertion
  | some ec => newphdr env ec count e

/-- `elf_flagelf(e, c, ELF_F_LAYOUT)`. -/
def elfFlagLayout (set : Bool) (e : Elf) : Elf := e.setFlags { e.eFlags with layout := set }

end Api

end LibElf.Toolchain
