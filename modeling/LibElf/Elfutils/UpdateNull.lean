import LibElf.Base.Each
import LibElf.Elfutils.SectionFrame
import LibElf.Elfutils.StrPtr

/-!
# The layout of an update

`elf32_updatenull.c`, for both classes, and the part of `elf_update.c` in front of it: what `elf_update` does before it
writes, and all that it does for `ELF_C_NULL`. Headers are filled in, every section is given a place, and the size of the
file is the result.

1. `UpdateFlags`, and the arithmetic: sizes are an `off_t`, but the mask of an alignment has 32 bits.
2. `defaultEhdr` and `placePhdrs`, the two headers in front of the sections.
3. `layoutData`, over the blocks of a section; `updateScn`, one section; `updateBlocks`, all of them.
4. `updatenull` and `elfUpdateNull`.

The header that a mapped image has in place is kept as a copy from then on, as section headers are. Of the flags only
those of sections are here.
-/

namespace LibElf.Elfutils

open Outcome
open Toolchain (ElfClass Ehdr Shdr)

/-! ## Flags and arithmetic -/

/-- `ELF_F_LAYOUT` and `ELF_F_PERMISSIVE`. -/
structure UpdateFlags where
  layout : Bool
  permissive : Bool

/-- `powerof2`, of a word. -/
def powerof2 (x : UInt32) : Prop := x &&& (x - 1) = 0

instance (x : UInt32) : Decidable (powerof2 x) := inferInstanceAs (Decidable (_ = _))

/-- `powerof2`, of a long word. -/
def powerof2Long (x : UInt64) : Prop := x &&& (x - 1) = 0

instance (x : UInt64) : Decidable (powerof2Long x) := inferInstanceAs (Decidable (_ = _))

/-- `(size + align - 1) & ~(align - 1)`, where `align` is a word: the mask has no bits above its own. -/
def alignSize (size : UInt64) (align : UInt32) : UInt64 := (size + align.toUInt64 - 1) &&& (~~~(align - 1)).toUInt64

/-- The same where `align` is a long word. -/
def alignOffset (offset align : UInt64) : UInt64 := (offset + align - 1) &&& ~~~(align - 1)

/-- `sizeof (ElfXX_Off)`. -/
def offSize : ElfClass → UInt64
  | .elfclass32 => 4
  | .elfclass64 => 8

def shtSymtab : UInt32 := 2
def shtRela : UInt32 := 4
def shtDynamic : UInt32 := 6
def shtRel : UInt32 := 9
def shtDynsym : UInt32 := 11
def shtGroup : UInt32 := 17
def shtSunwMove : UInt32 := 0x6FFFFFFA
def shtSunwSyminfo : UInt32 := 0x6FFFFFFC
def etRel : UInt16 := 1
def shnLoreserve : Nat := 0xFF00

/-! ## The headers -/

section Headers

variable (env : Env)

/-- `ELFDATA2LSB` or `ELFDATA2MSB`, as the host has it. -/
def nativeByte : ByteOrder → UInt8
  | .little => 1
  | .big => 2

/-- `default_ehdr`, the part about `e_ident`. -/
def defaultIdent (ec : ElfClass) (id : Toolchain.Ident) : Except ElfError Toolchain.Ident :=
  let data := id.toList.getD eiData 0
  if 3 ≤ data then .error .DATA_ENCODING
  else
    .ok (Toolchain.Ident.ofBytes (elfmag ++ [ec.toByte, if data = 0 then nativeByte env.host else data, evCurrent] ++
      id.toList.drop 7))

def defaultEhdr (ec : ElfClass) (shnum : Nat) (h : Ehdr) : Except ElfError Ehdr :=
  match defaultIdent env ec h.eIdent with
  | .error c => .error c
  | .ok id =>
    if 2 ≤ h.eVersion then .error .UNKNOWN_VERSION
    else
      .ok { h with
        eIdent := id
        eVersion := 1
        eShnum := if shnLoreserve ≤ shnum then 0 else UInt16.ofNat shnum
        eEhsize := UInt16.ofNat (ehdrSize ec)
        ePhoff := if h.ePhnum = 0 then 0 else h.ePhoff }

def Elf.setHdr (e : Elf) (h : Ehdr) : Elf := { e with ehdr := some (.copied h) }

/-- The program header table: the size of the file up to its end. A table that cannot be read is left out. -/
def placePhdrs (fl : UpdateFlags) (ec : ElfClass) (h : Ehdr) (e : Elf) : Call UInt64 :=
  let size : UInt64 := .ofNat (ehdrSize ec)
  (if e.phdr.isSome then .ok () e else (getPhdr env e).ignore).bind fun _ e =>
  if e.phdr.isSome then
    (getPhdrnum env ec e).bind fun phnum e =>
    if fl.layout then .ok (max size (.ofNat (ec.get h.ePhoff + phnum * phdrSize ec))) e
    else .ok (size + .ofNat (phnum * phdrSize ec)) (e.setHdr { h with ePhoff := .ofNat (ehdrSize ec) })
  else .ok size e

end Headers

/-! ## One section -/

section Section

/-- `sh_addralign ?: 1`, cut to a word. -/
def scnAlign (ec : ElfClass) (h : Shdr) : UInt32 :=
  if ec.get h.shAddralign = 0 then 1 else UInt32.ofNat (ec.get h.shAddralign)

/-- The size of the entries, where the type of the section gives it. -/
def scnEntsize (ec : ElfClass) (hdr : Ehdr) (h : Shdr) : Except ElfError UInt32 :=
  let size (t : ElfType) : UInt32 := .ofNat (typeSize ec t)
  if h.shType = shtSymtab then .ok (size .sym)
  else if h.shType = shtRela then .ok (size .rela)
  else if h.shType = shtGroup ∧ hdr.eType ≠ etRel then .error .GROUP_NOT_REL
  else if h.shType = shtGroup ∨ h.shType = shtSymtabShndx then .ok 4
  else if h.shType = shtHash then .ok (.ofNat (shEntsizeHash hdr))
  else if h.shType = shtDynamic then .ok (size .dyn)
  else if h.shType = shtRel then .ok (size .rel)
  else if h.shType = shtDynsym then .ok (size .sym)
  else if h.shType = shtSunwMove then .ok (size .move)
  else if h.shType = shtSunwSyminfo then .ok (size .syminfo)
  else .ok (UInt32.ofNat (ec.get h.shEntsize))

/-- The loop over the blocks: the blocks with their offsets, the end of the last one and the alignment. The flag says
that an offset has changed. -/
def layoutData (layout : Bool) (size : Nat) : List Data → UInt64 → UInt32 →
    Except ElfError (List Data × UInt64 × UInt32 × Bool)
  | [], offset, align => .ok ([], offset, align, false)
  | d :: ds, offset, align =>
    if d.dVersion = 0 ∨ 2 ≤ d.dVersion then .error .UNKNOWN_VERSION
    else if ¬ powerof2Long (.ofNat d.dAlign) then .error .INVALID_ALIGN
    else
      let align := (max align.toUInt64 (.ofNat d.dAlign)).toUInt32
      if layout then
        if size < (d.dOff + d.dSize) % 2 ^ 32 then .error .SECTION_TOO_SMALL
        else (layoutData layout size ds offset align).map fun r => (d :: r.1, r.2)
      else
        let offset := alignOffset offset (.ofNat d.dAlign)
        (layoutData layout size ds (offset + .ofNat d.dSize) align).map fun r =>
          ({ d with dOff := offset.toNat } :: r.1, r.2.1, r.2.2.1, decide (d.dOff ≠ offset.toNat) || r.2.2.2)

/-- The raw data stand in for a first block without a buffer. -/
def usesRaw (s : Scn) : Bool :=
  (s.dataList.head?.map fun d => d.dBuf.isNone).getD false && (s.rawdata.bind Data.dBuf).isSome

def layoutBlocks (s : Scn) : List Data :=
  if usesRaw s then s.rawdata.getD Data.zero :: s.dataList.tail else s.dataList

def storeBlocks (s : Scn) (ds : List Data) : Scn :=
  if usesRaw s then { s with rawdata := ds.head?, dataList := s.dataList.take 1 ++ ds.tail } else { s with dataList := ds }

/-- The data of a section: its blocks, or else the size of the raw data. -/
def layoutScn (layout : Bool) (size : Nat) (s : Scn) (align : UInt32) : Except ElfError (Scn × UInt64 × UInt32 × Bool) :=
  if s.dataList = [] then .ok (s, .ofNat (s.rawdata.getD Data.zero).dSize, align, false)
  else (layoutData layout size (layoutBlocks s) 0 align).map fun r => (storeBlocks s r.1, r.2)

/-- The end of a section where its header puts it. -/
def scnEnd (ec : ElfClass) (h : Shdr) : UInt64 :=
  if h.shType = shtNobits then 0
  else
    match ec with
    | .elfclass32 => (h.shOffset + h.shSize).toUInt32.toUInt64
    | .elfclass64 => h.shOffset + h.shSize

/-- The header that a section is given behind `size` bytes; the places in the file are cut to words. -/
def placedShdr (size offset : UInt64) (align : UInt32) (h : Shdr) : Shdr :=
  { h with
    shAddralign := align.toUInt64
    shOffset := (alignSize size align).toUInt32.toUInt64
    shSize := offset.toUInt32.toUInt64 }

def placedSize (size offset : UInt64) (align : UInt32) (h : Shdr) : UInt64 :=
  if h.shType = shtNobits then alignSize size align else alignSize size align + offset

variable (env : Env)

def Elf.setShdr (e : Elf) (p : ScnHandle) (h : Shdr) : Elf :=
  e.setScn p fun s => { s with shdr := some h, shdrDirty := s.shdrDirty || decide (s.shdr ≠ some h) }

/-- The size of the section has to be a multiple of the size of its entries, unless it has none or any file will do. -/
def checkEntsize (fl : UpdateFlags) (ec : ElfClass) (p : ScnHandle) (h : Shdr) (e : Elf) : Call Unit :=
  let entsize := ec.get h.shEntsize
  if entsize ≠ 0 ∧ entsize ≠ 1 ∧ fl.permissive = false then
    (if h.shFlags &&& shfCompressed = 0 then .ok (ec.get h.shSize) e
      else (gelfGetchdr env p e).bind fun c => .ok c.chSize).bind fun size e =>
    if size % 2 ^ 32 % entsize ≠ 0 then .err .INVALID_SHENTSIZE e else .ok () e
  else .ok () e

/-- The place of a section: the size of the file with it, and whether something has changed. A section that moves is
given its data. -/
def placeScn (fl : UpdateFlags) (ec : ElfClass) (p : ScnHandle) (h : Shdr) (offset : UInt64) (align : UInt32)
    (size : UInt64) (changed : Bool) (e : Elf) : Call (UInt64 × Bool) :=
  if fl.layout then
    if ¬ powerof2Long h.shAddralign ∨ (if ec.get h.shAddralign = 0 then 1 else h.shAddralign) < align.toUInt64 then
      .err .INVALID_ALIGN e
    else .ok (max size.toUInt32.toUInt64 (scnEnd ec h), changed) e
  else
    let h' := placedShdr size offset align h
    let moved := decide (ec.narrow h.shOffset ≠ h'.shOffset)
    (e.scn p).bind fun s e =>
    let e := e.setShdr p h'
    (if moved ∧ s.dataList = [] then (elfGetdata env p none e).bind fun _ => .ok () else .ok () e).bind fun _ e =>
    let changed := changed || moved || decide (ec.narrow h.shSize ≠ h'.shSize)
    .ok (placedSize size offset align h, changed) (e.setScn p fun s => { s with dirty := s.dirty || changed })

/-- The blocks are laid out, and the section is given its place. -/
def laidScn (fl : UpdateFlags) (ec : ElfClass) (p : ScnHandle) (h : Shdr) (align : UInt32) (st : UInt64 × Bool)
    (e : Elf) : Call (UInt64 × Bool) :=
  (e.scn p).bind fun s e =>
  match layoutScn fl.layout (ec.get h.shSize) s align with
  | .error c => .err c e
  | .ok (s', offset, align, changed) =>
    (placeScn env fl ec p h offset align st.1 (st.2 || changed) (e.setScn p fun _ => s')).bind fun st e =>
    (e.scn p).bind fun s e =>
    (checkEntsize env fl ec p (s.shdr.getD h) e).bind fun _ e => .ok st e

def updateScn (fl : UpdateFlags) (ec : ElfClass) (hdr : Ehdr) (p : ScnHandle) (st : UInt64 × Bool) (e : Elf) :
    Call (UInt64 × Bool) :=
  (e.scn p).bind fun s e =>
  match s.shdr with
  | none => .stop .assertion
  | some h =>
    if ¬ powerof2 (scnAlign ec h) then .err .INVALID_ALIGN e
    else
      match scnEntsize ec hdr h with
      | .error c => .err c e
      | .ok entsize =>
        let h' := { h with shEntsize := entsize.toUInt64 }
        let e := e.setShdr p h'
        (if s.dataRead then .ok () e else setRawdata env p e).bind fun _ e =>
        laidScn env fl ec p h' (scnAlign ec h) st e

end Section

/-! ## All sections -/

section Update

variable (env : Env)

def blockHandles (k : Nat) (b : ScnList) : List ScnHandle :=
  ((List.range b.cnt).drop (if k = 0 then 1 else 0)).map fun i => (k, i)

def updateBlocks (fl : UpdateFlags) (ec : ElfClass) (hdr : Ehdr) : Nat → List ScnList → UInt64 × Bool → Elf →
    Call (UInt64 × Bool)
  | _, [], st, e => .ok st e
  | k, b :: bs, st, e =>
    (each (updateScn env fl ec hdr) (blockHandles k b) st e).bind fun st e =>
    if bs ≠ [] ∧ b.cnt ≠ b.max then .stop .assertion else updateBlocks fl ec hdr (k + 1) bs st e

def scn1 (e : Elf) : Option ScnHandle :=
  match e.scns with
  | [] => none
  | b :: bs => if 1 < b.cnt then some (0, 1) else if bs = [] then none else some (1, 0)

def placeScns (fl : UpdateFlags) (ec : ElfClass) (hdr : Ehdr) (shnum : Nat) (size : UInt64) (e : Elf) : Call UInt64 :=
  if (e.scns.head?.map Block.cnt).getD 0 = 0 then .stop .assertion
  else
    (if shnum < shnLoreserve then .ok () e
      else (e.scn (0, 0)).bind fun s e =>
        match s.shdr with
        | none => .stop .null
        | some h => .ok () (e.setShdr (0, 0) { h with shSize := .ofNat shnum }) : Call Unit).bind fun _ e =>
    (match scn1 e with
      | none => .ok () e
      | some p => (e.scn p).bind fun s e => if s.shdr.isSome then .ok () e else (getShdr env p e).ignore :
      Call Unit).bind fun _ e =>
    (updateBlocks env fl ec hdr 0 e.scns (size, false) e).bind fun st e =>
    let size := st.1
    let table : UInt64 := .ofNat (shnum * shdrSize ec)
    if fl.layout then
      .ok (max size.toUInt32.toUInt64 (.ofNat (ec.get hdr.eShoff) + table))
        (e.setHdr { hdr with eShentsize := .ofNat (shdrSize ec) })
    else
      let size := alignOffset size (offSize ec)
      .ok (size + table)
        (e.setHdr { hdr with eShentsize := .ofNat (shdrSize ec), eShoff := size.toUInt32.toUInt64 })

def updatenull (fl : UpdateFlags) (ec : ElfClass) (shnum : Nat) (e : Elf) : Call UInt64 :=
  (e.header env ec .all).bind fun h e =>
  match defaultEhdr env ec shnum h with
  | .error c => .err c e
  | .ok h =>
    (placePhdrs env fl ec h (e.setHdr h)).bind fun size e =>
    if shnum = 0 then .ok size e
    else (e.header env ec .all).bind fun h e => placeScns env fl ec h shnum size e

def updateShnum (e : Elf) : Call Nat :=
  match e.scns.getLast? with
  | none => .stop .null
  | some last =>
    if last.cnt = 0 then .ok 0 e
    else
      match last.data[last.cnt - 1]? with
      | none => .stop .load
      | some s => .ok (1 + s.index) e

/-- `elf_update` with `ELF_C_NULL`. -/
def elfUpdateNull (fl : UpdateFlags) (e : Elf) : Call UInt64 :=
  if e.kind ≠ .elf then .err .INVALID_HANDLE e
  else if e.ehdr = none then .err .WRONG_ORDER_EHDR e
  else (updateShnum e).bind fun shnum e => updatenull env fl (e.elfClass.getD .elfclass64) shnum e

end Update

end LibElf.Elfutils
