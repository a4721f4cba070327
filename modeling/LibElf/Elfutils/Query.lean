import LibElf.Elfutils.SectionBlocks

/-!
# Headers on demand

What an application asks of an open object besides its sections: `elf_getshdrnum.c`,
`elf32_getshdr.c`, `elf_getphdrnum.c`, `elf32_getphdr.c`, `elf_getshdrstrndx.c`, `elf_scnshndx.c` and
their `gelf_*` counterparts. Section headers that were not found in place when the object was opened,
and the program header table, are read when they are first asked for and kept in the descriptor.

1. `Elf.scn`, the section behind a handle, and `foreign`, whether the file has the other byte order.
2. `getShdrnum`, `loadShdr`, `gelfGetshdr` and `elfScnshndx`.
3. `elfGetphdrnum`, `getPhdr` and `gelfGetphdr`.
4. `elfGetshdrstrndx`.
-/

namespace LibElf.Elfutils

open Toolchain (ElfClass Ehdr Phdr Shdr)

/-! ## Sections -/

namespace Elf

def scn (p : ScnHandle) (e : Elf) : Call Scn :=
  match Chain.entry e.scns p with
  | some s => .ok s e
  | none => .stop .load

def setScn (e : Elf) (p : ScnHandle) (f : Scn → Scn) : Elf :=
  e.setScns (e.scns.modify p.1 fun b => ⟨b.cnt, b.data.modify p.2 f⟩)

/-- The entries of the first block, `scns.data`. -/
def firstData (e : Elf) : List Scn := (e.scns.head?.map Block.data).getD []

def setFirstData (e : Elf) (data : List Scn) : Elf := e.setScns (e.scns.modify 0 fun b => ⟨b.cnt, data⟩)

end Elf

section Query

variable (env : Env)

/-- The byte order of the object is not that of the host. -/
def foreign (ec : ElfClass) (e : Elf) : Call Bool :=
  (e.header env ec .ident).bind fun h e =>
  .ok (decide (dataOrder (h.eIdent.toList.getD eiData 0) ≠ some env.host)) e

/-- `__elf_getshdrnum_rdlock`: one more than the index of the last section. -/
def getShdrnum (e : Elf) : Call Nat :=
  if e.kind ≠ .elf then .err .INVALID_HANDLE e
  else
    match e.scns.getLast? with
    | none => .stop .null
    | some last =>
      if last.cnt = 0 ∧ e.scns.length = 1 then .ok 0 e
      else if last.cnt = 0 then .stop .load
      else
        match last.data[last.cnt - 1]? with
        | none => .stop .load
        | some s => .ok (1 + s.index) e

/-- The bytes of the section header table, from the image or from the file. -/
def shdrBytes (ec : ElfClass) (shnum : Nat) (e : Elf) : Call (List UInt8) :=
  (e.header env ec .shoff).bind fun h e =>
  let shoff := ec.get h.eShoff
  let size := shnum * shdrSize ec
  if e.mapAddress.isSome then
    if e.maximumSize ≤ shoff ∨ e.maximumSize - shoff < size then .err .INVALID_SECTION_HEADER e
    else
      (foreign env ec e).bind fun swap e =>
      -- headers that could be used in place were found when the object was opened
      if e.malloced = false ∧ swap = false ∧ e.cmd ≠ .readMmap then .stop .assertion
      else e.mapRead (e.startOffset + shoff) size
  else if e.fildes ≠ -1 then
    match preadRetry env e.fildes size (wrap (e.startOffset + shoff)) with
    | none => .err .READ_ERROR e
    | some bs => if bs.length ≠ size then .err .READ_ERROR e else .ok bs e
  else .err .FD_DISABLED e

/-- Set the pointers in the sections. Extended indices are set where the image is mapped and swapped. -/
def storeShdrs (shndx : Bool) (shdrs : List Shdr) (e : Elf) : Call Unit :=
  if e.firstData.length < shdrs.length then .stop .store
  else
    let data := if shndx then (List.range shdrs.length).foldl (setShndx shdrs) e.firstData else e.firstData
    .ok () (e.setFirstData (data.mapIdx fun i s => if i < shdrs.length then { s with shdr := shdrs[i]? } else s))

def loadShdr (p : ScnHandle) (ec : ElfClass) (e : Elf) : Call Shdr :=
  (e.scn p).bind fun s e =>
  match s.shdr with
  | some h => .ok h e
  | none =>
    (getShdrnum e).bind fun shnum e =>
    if (2 ^ 64 - 1) / shdrSize ec < shnum then .err .NOERROR e
    else
      (shdrBytes env ec shnum e).bind fun bs e =>
      (foreign env ec e).bind fun swap e =>
      (storeShdrs (e.mapAddress.isSome && swap) (shdrTable env ec swap shnum bs) e).bind fun _ e =>
      (e.scn p).bind fun s e =>
      match s.shdr with
      | some h => .ok h e
      | none => .stop .assertion

/-- `__elf32_getshdr_wrlock` and `__elf64_getshdr_wrlock`. -/
def getShdr (p : ScnHandle) (e : Elf) : Call Shdr :=
  (e.scn p).bind fun s e =>
  match s.shdr with
  | some h => .ok h e
  | none =>
    match e.ehdr, e.elfClass with
    | some _, some ec => loadShdr env p ec e
    | some _, none => .err .INVALID_CLASS e
    | none, _ => .err .WRONG_ORDER_EHDR e

def gelfGetshdr (p : ScnHandle) (e : Elf) : Call Shdr :=
  match getShdr env p e with
  | .err _ e => .err .INVALID_OPERAND e
  | r => r

/-- `elf_scnshndx`: the value comes as a side effect of reading the section headers. -/
def elfScnshndx (p : ScnHandle) (e : Elf) : Call Int :=
  (e.scn p).bind fun s e =>
  (if s.shndxIndex = 0 then (gelfGetshdr env p e).ignore else .ok () e).bind fun _ e =>
  (e.scn p).bind fun s e =>
  .ok s.shndxIndex e

/-! ## Program headers -/

/-- `__elf_getphdrnum_rdlock`. -/
def getPhdrnum (ec : ElfClass) (e : Elf) : Call Nat :=
  (e.header env ec .phnum).bind fun h e =>
  let num := h.ePhnum.toNat
  if num = pnXnum then
    match e.scns.head? with
    | none => .stop .null
    | some b =>
      if b.cnt = 0 then .ok num e
      else
        match b.data[0]? with
        | none => .stop .load
        | some s => .ok ((s.shdr.map fun h => h.shInfo.toNat).getD num) e
  else .ok num e

/-- `__elf_getphdrnum_chk_rdlock`. -/
def getPhdrnumChk (e : Elf) : Call Nat :=
  match e.ehdr, e.elfClass with
  | some _, some ec =>
    (getPhdrnum env ec e).bind fun num e =>
    if e.phdr.isSome then .ok num e
    else
      (e.header env ec .phoff).bind fun h e =>
      let off := ec.get h.ePhoff
      if off = 0 then .ok 0 e
      else if e.maximumSize ≤ off then .err .INVALID_DATA e
      else if (2 ^ 64 - 1) / phdrSize ec < num then .err .INVALID_DATA e
      -- do not return more than can be indexed
      else .ok (if e.maximumSize - off < num * phdrSize ec then (e.maximumSize - off) / phdrSize ec else num) e
  | _, _ => if e.phdr.isSome then .err .WRONG_ORDER_EHDR e else .stop .null

def elfGetphdrnum (e : Elf) : Call Nat :=
  if e.kind ≠ .elf then .err .INVALID_HANDLE e else getPhdrnumChk env e

def phdrTable (ec : ElfClass) (swap : Bool) (n : Nat) (bs : List UInt8) : List Phdr :=
  (List.range n).map fun i => Phdr.ofFile env.host swap ec (window bs (i * phdrSize ec) (phdrSize ec))

/-- The end of `__elfNN_getphdr_wrlock`: the table has `num` entries at `off`. -/
def loadPhdr (ec : ElfClass) (num off : Nat) (e : Elf) : Call Phdrs :=
  let size := num * phdrSize ec
  if (2 ^ 64 - 1) / phdrSize ec < num ∨ e.maximumSize < off ∨ e.maximumSize - off < size then
    .err .INVALID_DATA e
  else if e.mapAddress.isSome then
    if e.maximumSize ≤ off ∨ e.maximumSize - off < size then .err .INVALID_PHDR e
    else
      (foreign env ec e).bind fun swap e =>
      if swap then
        (e.mapRead (e.startOffset + off) size).bind fun bs e =>
        .ok (.copied (phdrTable env ec swap num bs)) (e.setPhdr (.copied (phdrTable env ec swap num bs)))
      else .ok (.mapped off num) (e.setPhdr (.mapped off num))
  else if e.fildes ≠ -1 then
    match preadRetry env e.fildes size (wrap (e.startOffset + off)) with
    | none => .err .READ_ERROR e
    | some bs =>
      if bs.length ≠ size then .err .READ_ERROR e
      else
        (foreign env ec e).bind fun swap e =>
        .ok (.copied (phdrTable env ec swap num bs)) (e.setPhdr (.copied (phdrTable env ec swap num bs)))
  else .err .FD_DISABLED e

/-- `elf32_getphdr` and `elf64_getphdr`. -/
def getPhdr (e : Elf) : Call Phdrs :=
  match e.phdr with
  | some ps => .ok ps e
  | none =>
    match e.ehdr, e.elfClass with
    | some _, some ec =>
      (getPhdrnum env ec e).bind fun num e =>
      if num = 0 then .err .NO_PHDR e
      else
        (e.header env ec .phoff).bind fun h e =>
        if ec.get h.ePhoff = 0 then .err .NO_PHDR e else loadPhdr env ec num (ec.get h.ePhoff) e
    | _, ec => .err .WRONG_ORDER_EHDR { e with elfClass := some (ec.getD .elfclass64) }

def gelfGetphdr (ndx : Int) (e : Elf) : Call Phdr :=
  if e.kind ≠ .elf then .err .INVALID_HANDLE e
  else
    (getPhdr env e).bind fun ps e =>
    match getPhdrnumChk env e with
    | .stop f => .stop f
    | .err _ e => .err .INVALID_INDEX e
    | .ok phnum e =>
      if ndx < 0 ∨ (phnum : Int) ≤ ndx then .err .INVALID_INDEX e
      else
        let i := ndx.toNat
        let ec := e.elfClass.getD .elfclass64
        match ps with
        | .mapped off _ =>
          (e.mapRead (e.startOffset + off + i * phdrSize ec) (phdrSize ec)).bind fun bs e =>
          .ok (Phdr.ofFile env.host false ec bs) e
        | .copied ps =>
          match ps[i]? with
          | some p => .ok p e
          | none => .stop .load

/-! ## The section name string table -/

/-- The offset of `sh_link` in a section header. -/
def shLinkOff : ElfClass → Nat
  | .elfclass32 => 24
  | .elfclass64 => 40

/-- `sh_link` of section header 0, for an object whose section headers were not read yet. -/
def shLink0 (ec : ElfClass) (e : Elf) : Call Nat :=
  (e.header env ec .shoff).bind fun h e =>
  let off := ec.get h.eShoff
  (foreign env ec e).bind fun swap e =>
  if e.mapAddress.isSome ∧ swap = false then
    if wrap (e.maximumSize + (2 ^ 64 - off)) < shdrSize ec then .err .INVALID_SECTION_HEADER e
    else
      (e.mapRead (e.startOffset + off + shLinkOff ec) 4).bind fun bs e =>
      .ok (ofBytes env.host bs) e
  else
    -- `start_offset` is not added here
    match preadRetry env e.fildes (shdrSize ec) off with
    | none => .err .INVALID_FILE e
    | some bs =>
      if bs.length ≠ shdrSize ec then .err .INVALID_ELF e
      else .ok (Shdr.ofFile env.host swap ec bs).shLink.toNat e

def elfGetshdrstrndx (e : Elf) : Call Nat :=
  if e.kind ≠ .elf then .err .INVALID_HANDLE e
  else
    match e.ehdr, e.elfClass with
    | some _, some ec =>
      (e.header env ec .shstrndx).bind fun h e =>
      let num := h.eShstrndx.toNat
      if num ≠ shnXindex then .ok num e
      else
        match e.scns.head? with
        | none => .stop .null
        | some b =>
          if b.cnt = 0 then .err .INVALID_SECTION_HEADER e
          else
            match b.data[0]? with
            | none => .stop .load
            | some s =>
              match s.shdr with
              | some h => .ok h.shLink.toNat e
              | none => shLink0 env ec e
    | _, _ => .err .WRONG_ORDER_EHDR e

end Query

end LibElf.Elfutils
