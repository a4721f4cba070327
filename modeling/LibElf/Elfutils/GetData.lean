import LibElf.Elfutils.Convert
import LibElf.Elfutils.Query

/-!
# The data of a section

`elf_getdata.c` and `elf_rawdata.c`. The raw data of a section is found when it is first asked for: a
range of the mapped image, or a copy of a range of the file. Where the byte order of the file is not
that of the host, the data is converted into fresh memory as what the type of the section says it is.

1. `shtypeMap`, `dataType` and `entsize`: the type of the data, and the size of an entry that the
   section must be a multiple of.
2. `setRawdata` and `convertData`, and from them `elfGetdata` and `elfRawdata`.

A copy that is made for the sake of alignment has the bytes of its original, and is left out.
-/

namespace LibElf.Elfutils

open Outcome
open Toolchain (ElfClass Ehdr Shdr)

/-! ## Types -/

def shtHash : UInt32 := 5
def shtNobits : UInt32 := 8
def shfCompressed : UInt64 := 0x800

/-- `shtype_map`, with 0 for the types that are not in it. -/
def shtypeMap (type : UInt32) : ElfType :=
  if type = 2 then .sym
  else if type = 4 then .rela
  else if type = 5 then .word
  else if type = 6 then .dyn
  else if type = 7 then .nhdr
  else if type = 9 then .rel
  else if type = 11 then .sym
  else if type = 14 ∨ type = 15 ∨ type = 16 then .addr
  else if type = 17 ∨ type = 18 then .word
  else if type = 0x6FFFFFF6 then .gnuhash
  else if type = 0x6FFFFFF7 then .lib
  else if type = 0x6FFFFFFA then .move
  else if type = 0x6FFFFFFC then .syminfo
  else if type = 0x6FFFFFFD then .vdef
  else if type = 0x6FFFFFFE then .vneed
  else if type = 0x6FFFFFFF then .half
  else .byte

/-- The type of notes depends on their alignment. -/
def noteType (t : ElfType) (align : Nat) : ElfType := if t = .nhdr ∧ align = 8 then .nhdr8 else t

/-- `SH_ENTSIZE_HASH`: 8 for Alpha and for 64-bit S/390. -/
def shEntsizeHash (h : Ehdr) : Nat :=
  if h.eMachine = 0x9026 ∨ h.eMachine = 22 ∧ h.eIdent.toList.getD eiClass 0 = 2 then 8 else 4

/-- `__alignof__ (ElfXX_Chdr)`. -/
def chdrAlign : ElfClass → Nat
  | .elfclass32 => 4
  | .elfclass64 => 8

/-- The number of bytes that the size of a section must be a multiple of, unless it is a hash table. -/
def entsize (ec : ElfClass) (t : ElfType) : Nat :=
  if t = .vdef ∨ t = .nhdr ∨ t = .nhdr8 ∨ t = .gnuhash ∧ ec = .elfclass64 then 1 else typeSize ec t

section GetData

variable (env : Env)

/-- The whole ELF header, as `__gelf_getehdr_rdlock` copies it. -/
def gelfEhdr (ec : ElfClass) (e : Elf) : Call Ehdr := e.header env ec .all

def dataType (ec : ElfClass) (type : UInt32) (align : Nat) (e : Elf) : Call ElfType :=
  if type = shtHash ∧ ec = .elfclass64 then
    (gelfEhdr env ec e).bind fun h e => .ok (if shEntsizeHash h = 4 then .word else .xword) e
  else .ok (noteType (shtypeMap type) align) e

def sectionEntsize (ec : ElfClass) (h : Shdr) (e : Elf) : Call Nat :=
  if h.shFlags &&& shfCompressed ≠ 0 then .ok 1 e
  else if h.shType = shtHash then (gelfEhdr env ec e).bind fun h e => .ok (shEntsizeHash h) e
  else .ok (entsize ec (noteType (shtypeMap h.shType) (ec.get h.shAddralign))) e

/-- The raw data of a section with this offset and size, or null. -/
def rawBytes (ec : ElfClass) (h : Shdr) (e : Elf) : Call (Option (List UInt8)) :=
  let offset := ec.get h.shOffset
  let size := ec.get h.shSize
  if size = 0 ∨ h.shType = shtNobits then .ok none e
  else
    (sectionEntsize env ec h e).bind fun entsize e =>
    if size % entsize ≠ 0 then .err .INVALID_DATA e
    else if e.mapAddress.isSome then
      if e.maximumSize < offset ∨ e.maximumSize - offset < size then .err .INVALID_SECTION_HEADER e
      else (e.mapRead (e.startOffset + offset) size).bind fun bs e => .ok (some bs) e
    else if e.fildes ≠ -1 then
      if e.maximumSize < offset ∨ e.maximumSize - offset < size then .err .INVALID_SECTION_HEADER e
      else
        match preadRetry env e.fildes size (wrap (e.startOffset + offset)) with
        | none => .err .READ_ERROR e
        | some bs => if bs.length ≠ size then .err .READ_ERROR e else .ok (some bs) e
    else .err .FD_DISABLED e

def setRawdata (p : ScnHandle) (e : Elf) : Call Unit :=
  (getShdr env p e).bind fun h e =>
  let ec := e.elfClass.getD .elfclass64
  (rawBytes env ec h e).bind fun buf e =>
  let compressed := decide (h.shFlags &&& shfCompressed ≠ 0)
  let align := if compressed ∧ buf.isSome then chdrAlign ec else ec.get h.shAddralign
  (if compressed then .ok .chdr e else dataType env ec h.shType align e).bind fun type e =>
  let offset := ec.get h.shOffset
  let align := if align = 0 then 1 else align
  let align := if h.shType ≠ shtNobits ∧ offset < align then offset else align
  (e.header env ec .ident).bind fun hdr e =>
  let data : Data :=
    { dBuf := buf, dType := type, dVersion := (hdr.eIdent.toList.getD eiVersion 0).toNat,
      dSize := ec.get h.shSize, dOff := 0, dAlign := align }
  .ok () (e.setScn p fun s => { s with rawdata := some data, dataRead := true, filedata := true })

/-- Memory fresh from the allocator and the raw data, so that a load behind the raw data is a fault. -/
def convertMemory (heap : Nat → UInt8) (raw : List UInt8) : Mem (raw.length + raw.length) :=
  ⟨(Mem.fresh heap raw.length).bytes ++ raw, by simp⟩

def convertData (ec : ElfClass) (type : ElfType) (raw : List UInt8) (e : Elf) : Call (List UInt8) :=
  (foreign env ec e).bind fun swap e =>
  if swap = false ∨ type = .byte then .ok raw e
  else
    match xfct env.host ec type false 0 raw.length raw.length (convertMemory env.heap raw) with
    | .ok _ m => .ok (window m.bytes 0 raw.length) e
    | .err c _ => .err c e
    | .stop f => .stop f

/-- What `calloc` leaves for an `Elf_Data`. -/
def Data.zero : Data := ⟨none, .byte, 0, 0, 0, 0⟩

def setDataList (p : ScnHandle) (e : Elf) : Call Unit :=
  (e.scn p).bind fun s e =>
  let raw := s.rawdata.getD Data.zero
  match raw.dBuf with
  | none => .ok () (e.setScn p fun s => { s with dataList := [raw] })
  | some bs =>
    if raw.dSize = 0 then .ok () (e.setScn p fun s => { s with dataList := [raw] })
    else
      (convertData env (e.elfClass.getD .elfclass64) raw.dType bs e).bind fun bs e =>
      .ok () (e.setScn p fun s => { s with dataList := [{ raw with dBuf := some bs }] })

/-- `elf_getdata`. The data it is called with, if any, is named by its place in the list; the data after the
last one is a null pointer without an error. -/
def elfGetdata (p : ScnHandle) (data : Option Nat) (e : Elf) : Call (Option Data) :=
  if e.kind ≠ .elf then .err .INVALID_HANDLE e
  else
    (e.scn p).bind fun s e =>
    match data with
    | some k =>
      if s.dataList.length ≤ k then .err .DATA_MISMATCH e else .ok s.dataList[k + 1]? e
    | none =>
      (if s.dataRead then .ok () e else setRawdata env p e).bind fun _ e =>
      (e.scn p).bind fun s e =>
      (if s.dataList.isEmpty then setDataList env p e else .ok () e).bind fun _ e =>
      (e.scn p).bind fun s e =>
      .ok s.dataList.head? e

/-- `elf_rawdata`. Only what was read from the file is raw. -/
def elfRawdata (p : ScnHandle) (data : Option Nat) (e : Elf) : Call Data :=
  if e.kind ≠ .elf then .err .INVALID_HANDLE e
  else
    (e.scn p).bind fun s e =>
    if data.isSome ∨ s.dataRead = true ∧ s.filedata = false then .err .DATA_MISMATCH e
    else
      (if s.dataRead then .ok () e else setRawdata env p e).bind fun _ e =>
      (e.scn p).bind fun s e =>
      .ok (s.rawdata.getD Data.zero) e

end GetData

end LibElf.Elfutils
