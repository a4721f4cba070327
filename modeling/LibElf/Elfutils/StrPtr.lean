import LibElf.Base.Reads
import LibElf.Elfutils.GetData

/-!
# Pointers into a string table

`elf_strptr.c`, and what it takes from `elf_getchdr.c`, `elf_compress.c` and `elf_newdata.c`. A string comes from one of
three places: the decompressed data of the section, its raw data, or one of its data blocks.

1. `Buffered`, a descriptor with the buffers that `rawdata_base` and `zdata_base` point to.
2. `Zlib`, the library that inflates, and `decompressElf`.
3. `validateStr`, `elfStrptr` and `elfNewdata`.
-/

namespace LibElf.Elfutils

open Outcome
open Toolchain (ElfClass Ehdr Shdr)

def shtNull : UInt32 := 0
def shtStrtab : UInt32 := 3
def shfAlloc : UInt64 := 2
def elfcompressZlib : Nat := 1

/-! ## Buffers -/

/-- Of a section, besides what `Scn` has: the bytes at `rawdata_base`, and the `zdata_size` bytes at `zdata_base`. -/
structure Bufs where
  rawdataBase : Option (List UInt8)
  zdata : Option (List UInt8)
deriving DecidableEq

structure Buffered where
  elf : Elf
  bufs : ScnHandle → Bufs

/-- Which buffer of a section a pointer points into: `zdata_base`, `rawdata_base` or the `d_buf` of a data block. -/
inductive StrBuf
  | zdata
  | raw
  | data (k : Nat)
deriving DecidableEq

/-- A pointer to a byte of a buffer of a section. -/
structure StrPtr where
  scn : ScnHandle
  buf : StrBuf
  pos : Nat
deriving DecidableEq

namespace Buffered

def isRead (e : Elf) (p : ScnHandle) : Bool := ((Chain.entry e.scns p).map Scn.dataRead).getD false

/-- `rawdata.d.d_buf`. -/
def rawBuf (e : Elf) (p : ScnHandle) : Option (List UInt8) :=
  (Chain.entry e.scns p).bind fun s => s.rawdata.bind Data.dBuf

def setBufs (t : Buffered) (p : ScnHandle) (f : Bufs → Bufs) : Buffered :=
  { t with bufs := Function.update t.bufs p (f (t.bufs p)) }

/-- After a call in the course of which the data of the section may be read. Where they are, `rawdata_base` is set
with `rawdata.d.d_buf`; an empty section has neither. -/
def after (t : Buffered) (p : ScnHandle) (e : Elf) : Buffered :=
  let t' : Buffered := { t with elf := e }
  if isRead t.elf p = false ∧ isRead e p = true then
    t'.setBufs p fun b => { b with rawdataBase := (rawBuf e p).or b.rawdataBase }
  else t'

def buffer (t : Buffered) (p : ScnHandle) : StrBuf → Option (List UInt8)
  | .zdata => (t.bufs p).zdata
  | .raw => (t.bufs p).rawdataBase
  | .data k => (Chain.entry t.elf.scns p).bind fun s => s.dataList[k]?.bind Data.dBuf

/-- A descriptor that was opened. In an image that is mapped `rawdata_base` is set at once where the section headers
are used in place. -/
def opened (e : Elf) : Buffered where
  elf := e
  bufs p :=
    { rawdataBase :=
        match e.mapAddress, (Chain.entry e.scns p).bind Scn.shdr with
        | some image, some h =>
          let ec := e.elfClass.getD .elfclass64
          let offset := ec.get h.shOffset
          if offset < e.maximumSize ∧ ec.get h.shSize ≤ e.maximumSize - offset then
            some (window image.bytes (e.startOffset + offset) (ec.get h.shSize))
          else none
        | _, _ => none
      zdata := none }

end Buffered

abbrev StrCall := Outcome ElfError Buffered

/-! ## Compressed sections -/

/-- What the library relies on in zlib. `inflate` is called with input that is not empty, and with the room left in the
output; at the end of a stream it has used some of the input and given no more bytes than there was room for. -/
structure Zlib where
  inflate : List UInt8 → Nat → Option (Nat × List UInt8)
  consumes : ∀ {bs room n out}, inflate bs room = some (n, out) → 0 < n
  room : ∀ {bs room n out}, inflate bs room = some (n, out) → out.length ≤ room

structure Chdr where
  chType : Nat
  chSize : Nat
  chAddralign : Nat
deriving DecidableEq

/-- `sizeof (ElfXX_Chdr)`. -/
def chdrSize : ElfClass → Nat
  | .elfclass32 => 12
  | .elfclass64 => 24

def Chdr.ofBytes (o : ByteOrder) (ec : ElfClass) (bs : List UInt8) : Chdr :=
  match ec with
  | .elfclass32 =>
    ⟨LibElf.ofBytes o (window bs 0 4), LibElf.ofBytes o (window bs 4 4), LibElf.ofBytes o (window bs 8 4)⟩
  | .elfclass64 =>
    ⟨LibElf.ofBytes o (window bs 0 4), LibElf.ofBytes o (window bs 8 8), LibElf.ofBytes o (window bs 16 8)⟩

section Decompress

variable (env : Env) (z : Zlib)

/-- The loop of `__libelf_decompress`: stream after stream, until the input is used up and there is no room left. -/
def inflateAll : Nat → List UInt8 → Nat → Option (List UInt8)
  | 0, _, _ => none
  | fuel + 1, input, room =>
    if input = [] then if room = 0 then some [] else none
    else
      (z.inflate input room).bind fun r =>
      (inflateAll fuel (input.drop r.1) (room - r.2.length)).map (r.2 ++ ·)

/-- `__libelf_decompress`, on `size` bytes at `off` of a buffer. The counters of zlib have 32 bits; what is in front of
the bytes that are counted stays as `malloc` left it. -/
def libelfDecompress (buf : List UInt8) (off size sizeOut : Nat) (e : Elf) : Call (List UInt8) :=
  if size < sizeOut / 1032 then .err .INVALID_DATA e
  else
    (readAt buf off (size % 2 ^ 32) e).bind fun input e =>
    match inflateAll z (input.length + 1) input (sizeOut % 2 ^ 32) with
    | none => .err .DECOMPRESS_ERROR e
    | some out => .ok ((Mem.fresh env.heap (sizeOut - sizeOut % 2 ^ 32)).bytes ++ out) e

def gelfGetchdr (p : ScnHandle) (e : Elf) : Call Chdr :=
  (getShdr env p e).bind fun h e =>
  if h.shFlags &&& shfAlloc ≠ 0 then .err .INVALID_SECTION_FLAGS e
  else if h.shType = shtNull ∨ h.shType = shtNobits then .err .INVALID_SECTION_TYPE e
  else if h.shFlags &&& shfCompressed = 0 then .err .NOT_COMPRESSED e
  else
    (elfGetdata env p none e).bind fun d e =>
    let ec := e.elfClass.getD .elfclass64
    match d with
    | none => .err .NOERROR e
    | some d =>
      if d.dSize < chdrSize ec then .err .INVALID_DATA e
      else
        match d.dBuf with
        | none => .err .INVALID_DATA e
        | some buf => (readAt buf 0 (chdrSize ec) e).bind fun bs e => .ok (Chdr.ofBytes env.host ec bs) e

/-- `__libelf_decompress_elf`. The test for a power of two lets 0 pass. -/
def decompressElf (p : ScnHandle) (e : Elf) : Call (List UInt8) :=
  (gelfGetchdr env p e).bind fun c e =>
  if c.chType ≠ elfcompressZlib then .err .UNKNOWN_COMPRESSION_TYPE e
  else if c.chAddralign &&& (c.chAddralign - 1) ≠ 0 then .err .INVALID_ALIGN e
  else
    (elfGetdata env p none e).bind fun d e =>
    let hsize := chdrSize (e.elfClass.getD .elfclass64)
    match d with
    | none => .err .NOERROR e
    | some d =>
      match d.dBuf with
      | none => .stop .null
      | some buf => libelfDecompress env z buf hsize (d.dSize - hsize) c.chSize e

end Decompress

/-! ## Strings -/

/-- The first block that has a byte at `offset`, with its place in the list from `k` on. -/
def findBlock (offset : Nat) : Nat → List Data → Option (Nat × Data)
  | _, [] => none
  | k, d :: ds =>
    if wrap d.dOff ≤ offset ∧ offset < wrap (d.dOff + d.dSize) then some (k, d) else findBlock offset (k + 1) ds

section StrPtr

variable (env : Env) (z : Zlib)

/-- Neither raw data nor data are there. -/
def Bufs.Unread (b : Bufs) (s : Scn) : Prop := b.rawdataBase = none ∧ s.dataRead = false

instance (b : Bufs) (s : Scn) : Decidable (b.Unread s) := inferInstanceAs (Decidable (_ ∧ _))

/-- What `elf_newdata` leaves in a new block. -/
def Data.new : Data := { Data.zero with dVersion := 1 }

/-- Make the list of blocks in front of a new one, where there is data that it has to come after. -/
def newdataList (p : ScnHandle) (s : Scn) (t : Buffered) : StrCall Unit :=
  if s.dataRead = false then ((setRawdata env p t.elf).bind fun _ e => setDataList env p e).within (t.after p)
  else if (t.bufs p).rawdataBase.isSome ∧ s.dataList = [] then
    (setDataList env p t.elf).within fun e => { t with elf := e }
  else .ok () t

/-- `elf_newdata`: the place of the new block in the list. The raw data become the first block if they are there. -/
def elfNewdata (p : ScnHandle) (t : Buffered) : StrCall Nat :=
  match Chain.entry t.elf.scns p with
  | none => .stop .load
  | some s =>
    if s.index = 0 then .err .NOT_NUL_SECTION t
    else if t.elf.ehdr = none then .err .WRONG_ORDER_EHDR t
    else
      (newdataList env p s t).bind fun _ t =>
      let k := ((Chain.entry t.elf.scns p).map fun s => s.dataList.length).getD 0
      .ok k { t with elf := t.elf.setScn p fun s => { s with dataList := s.dataList ++ [Data.new] } }

end StrPtr

end LibElf.Elfutils
