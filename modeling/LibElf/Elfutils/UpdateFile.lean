import Mathlib.Data.List.Sort
import LibElf.Base.Writes
import LibElf.Elfutils.UpdateNull

/-!
# Writing an update

`elf32_updatefile.c`, for both classes, as far as the file is written with `pwrite`, and `write_file` in `elf_update.c`
around it. The descriptor has no mapped image. Only what is marked `ELF_F_DIRTY` is written.

1. `Marks` and `Output`: the flags that neither `Elf` nor `Scn` keeps, and the descriptor with the file behind it.
2. `pwriteRetry` and `fill`.
3. `writeEhdr` and `writePhdrs`; `writeBlock`, `writeScn` and `writeScns`; `tableBytes`, the table of section headers.
4. `updatefile` and `updateWriteFile`.

The buffers that a conversion works on and those behind the sections are apart, and a header that is not there is a
fault wherever the source uses it without a test.
-/

namespace LibElf.Elfutils

open Outcome
open Toolchain (ElfClass Ehdr Phdr Shdr)

/-! ## The file behind a descriptor -/

inductive WriteError
  | WRITE_ERROR
  /-- Every other error of the library. -/
  | other (c : ElfError)
deriving DecidableEq

/-- `ELF_F_DIRTY` where neither `Elf` nor `Scn` keeps it: in `flags` of the descriptor, in the flags of its two headers
and in those of the data blocks, which are named by a section and a place in its list. -/
structure Marks where
  elf : Bool
  ehdr : Bool
  phdr : Bool
  data : ScnHandle → Nat → Bool

/-- A descriptor with its marks and the file behind it. `shdrs` is the number of headers in the array at `state.shdr`,
if there is one. -/
structure Output where
  elf : Elf
  marks : Marks
  shdrs : Option Nat
  file : List UInt8

abbrev WriteCall := Outcome WriteError Output

namespace Output

def setMarks (t : Output) (m : Marks) : Output := { t with marks := m }

def clearData (t : Output) (p : ScnHandle) (k : Nat) : Output :=
  t.setMarks { t.marks with data := Function.update t.marks.data p (Function.update (t.marks.data p) k false) }

def clearShdr (t : Output) (p : ScnHandle) : Output :=
  { t with elf := t.elf.setScn p fun s => { s with shdrDirty := false } }

end Output

def reading {α : Type} (x : Call α) (t : Output) : WriteCall α :=
  match x with
  | .ok a e => .ok a { t with elf := e }
  | .err c e => .err (.other c) { t with elf := e }
  | .stop f => .stop f

/-- `pwrite_retry`. The file takes all that an `off_t` can count. -/
def pwriteRetry (bs : List UInt8) (off : Nat) (t : Output) : WriteCall Unit :=
  if t.elf.fildes = -1 ∨ 2 ^ 63 ≤ off + bs.length then .err .WRITE_ERROR t
  else .ok () { t with file := store t.file off bs }

def fillbufsize : Nat := 4096

section Fill

variable (fillByte : UInt8)

/-- The loop of `fill`, `filled` bytes at most at once. -/
def fillLoop (filled : Nat) : Nat → Nat → Nat → Output → WriteCall Unit
  | 0, _, _, _ => .stop .divergence
  | fuel + 1, pos, len, t =>
    let n := min filled len
    (pwriteRetry (List.replicate n fillByte) pos t).bind fun _ t =>
    if len - n = 0 then .ok () t else fillLoop filled fuel (pos + n) (len - n) t

/-- `fill`: as many bytes of `fillbuf` as are set afterwards. -/
def fill (pos len filled : Nat) (t : Output) : WriteCall Nat :=
  let fillLen := min len fillbufsize
  let filled := if filled < fillLen ∧ filled < fillbufsize then fillLen else filled
  (fillLoop fillByte filled (len + 1) pos len t).bind fun _ t => .ok filled t

end Fill

/-! ## The headers in front -/

section Write

variable (env : Env) (fillByte : UInt8) (ec : ElfClass) (swap : Bool)

/-- The ELF header. The result is `previous_scn_changed`. -/
def writeEhdr (h : Ehdr) (t : Output) : WriteCall Bool :=
  if t.marks.ehdr || t.marks.elf then
    (pwriteRetry (h.toFile env.host swap ec) 0 t).bind fun _ t =>
    .ok t.elf.phdr.isNone (t.setMarks { t.marks with ehdr := false })
  else .ok false t

/-- The first `phnum` program headers, as they go into the file. -/
def phdrsBytes (ps : Phdrs) (phnum : Nat) : Outcome WriteError Unit (List UInt8) :=
  match ps with
  | .mapped _ _ => .stop .null
  | .copied ps =>
    if ps.length < phnum then .stop .load
    else .ok ((ps.take phnum).flatMap fun p => p.toFile env.host swap ec) ()

/-- The program header table, and the gap in front of it. The results are `previous_scn_changed` and the number of bytes
of `fillbuf` that are set. -/
def writePhdrs (h : Ehdr) (phnum : Nat) (changed : Bool) (t : Output) : WriteCall (Bool × Nat) :=
  match t.elf.phdr with
  | none => .ok (changed, 0) t
  | some ps =>
    if t.marks.phdr || t.marks.elf then
      let ehsize := h.eEhsize.toNat
      let phoff := ec.get h.ePhoff
      (if ehsize < phoff then fill fillByte ehsize (phoff - ehsize) 0 t else .ok 0 t).bind fun filled t =>
      ((phdrsBytes env ec swap ps phnum).within fun _ => t).bind fun bs t =>
      (pwriteRetry bs phoff t).bind fun _ t =>
      .ok (true, filled) (t.setMarks { t.marks with phdr := false })
    else .ok (changed, 0) t

/-- Where the headers end: the first value of `last_offset`. -/
def headersEnd (h : Ehdr) (phnum : Nat) (e : Elf) : Nat :=
  if e.phdr.isNone then ehdrSize ec else wrap (ec.get h.ePhoff + phdrSize ec * phnum)

/-! ## The sections -/

abbrev ScnAt := ScnHandle × Scn

def scnsAt : Nat → List ScnList → List ScnAt
  | _, [] => []
  | k, b :: bs => (b.used.mapIdx fun i s => ((k, i), s)) ++ scnsAt (k + 1) bs

/-- A field of the header of a section; a header that is not there is no matter here. -/
def Scn.field (f : Shdr → UInt64) (s : Scn) : Nat := ec.get (f (s.shdr.getD Shdr.zero))

def compareSections (a b : ScnAt) : Prop :=
  a.2.field ec Shdr.shOffset < b.2.field ec Shdr.shOffset ∨
  a.2.field ec Shdr.shOffset = b.2.field ec Shdr.shOffset ∧
    (a.2.field ec Shdr.shSize < b.2.field ec Shdr.shSize ∨
      a.2.field ec Shdr.shSize = b.2.field ec Shdr.shSize ∧ a.2.index ≤ b.2.index)

instance (a b : ScnAt) : Decidable (compareSections ec a b) := inferInstanceAs (Decidable (_ ∨ _))

def sortSections (e : Elf) : List ScnAt := (scnsAt 0 e.scns).insertionSort (compareSections ec)

/-- What the loop over the sections keeps: `last_offset`, `previous_scn_changed`, `shdr_flags`, and the number of bytes of
`fillbuf` that are set. -/
structure Cursor where
  last : Nat
  changed : Bool
  shdrDirty : Bool
  filled : Nat

/-- A block as it goes into the file. A write from a null pointer fails. -/
def writtenBytes (d : Data) : Outcome WriteError Unit (List UInt8) :=
  if swap then
    if d.dBuf = none ∧ d.dSize ≠ 0 then .stop .null
    else
      (readAt (d.dBuf.getD []) 0 d.dSize ()).bind fun src _ =>
      match xfct env.host ec d.dType true 0 src.length src.length (convertMemory env.heap src) with
      | .ok _ m => .ok (window m.bytes 0 src.length) ()
      | .err c _ => .err (.other c) ()
      | .stop f => .stop f
  else if d.dBuf = none ∧ d.dSize ≠ 0 then .err .WRITE_ERROR ()
  else readAt (d.dBuf.getD []) 0 d.dSize ()

/-- The block is written: the section, the block or the descriptor is marked. -/
def blockDirty (m : Marks) (q : ScnAt) (k : Nat) : Bool := q.2.dirty || m.data q.1 k || m.elf

def writeBlock (q : ScnAt) (start k : Nat) (d : Data) (c : Cursor) (t : Output) : WriteCall Cursor :=
  let pos := wrap (start + d.dOff)
  let dirty := blockDirty t.marks q k
  (if sgt pos c.last ∧ (c.changed = true ∧ d.dOff = 0 ∨ dirty = true) then
      fill fillByte c.last (wrap (pos + (2 ^ 64 - c.last))) c.filled t
    else .ok c.filled t).bind fun filled t =>
  (if dirty then
      ((writtenBytes env ec swap d).within fun _ => t).bind fun bs t => pwriteRetry bs pos t
    else .ok () t).bind fun _ t =>
  .ok { c with last := wrap (pos + d.dSize), filled := filled } (t.clearData q.1 k)

/-- The blocks of a section. The first result is `scn_changed`. -/
def writeBlocks (q : ScnAt) (start : Nat) : Nat → List Data → Bool → Cursor → Output → WriteCall (Bool × Cursor)
  | _, [], changed, c, t => .ok (changed, c) t
  | k, d :: ds, changed, c, t =>
    let changed := changed || blockDirty t.marks q k
    (writeBlock env fillByte ec swap q start k d c t).bind fun c t => writeBlocks q start (k + 1) ds changed c t

/-- The data of a section. Where there is no list, the range that the header gives is left as it is. -/
def writeData (q : ScnAt) (h : Shdr) (c : Cursor) (t : Output) : WriteCall Cursor :=
  let start := wrap (t.elf.startOffset + ec.get h.shOffset)
  if q.2.dataList = [] then
    (if sgt start c.last ∧ c.changed = true then
        fill fillByte c.last (wrap (start + (2 ^ 64 - c.last))) c.filled t
      else .ok c.filled t).bind fun filled t =>
    .ok { c with last := wrap (start + ec.get h.shSize), changed := false, filled := filled } t
  else
    (writeBlocks env fillByte ec swap q start 0 q.2.dataList false c t).bind fun r t =>
    .ok { r.2 with changed := r.1 } t

def writeScn (q : ScnAt) (c : Cursor) (t : Output) : WriteCall Cursor :=
  match q.2.shdr with
  | none => .stop .null
  | some h =>
    (if q.2.index = 0 then (if q.2.dirty then .stop .assertion else .ok c t)
      else if h.shType = shtNobits then .ok c t
      else writeData env fillByte ec swap q h c t).bind fun c t =>
    .ok { c with shdrDirty := c.shdrDirty || q.2.shdrDirty } (t.clearShdr q.1)

def writeScns : List ScnAt → Cursor → Output → WriteCall Cursor
  | [], c, t => .ok c t
  | q :: qs, c, t => (writeScn env fillByte ec swap q c t).bind fun c t => writeScns qs c t

def shdrOf (qs : List ScnAt) (i : Nat) : Option Shdr := (qs.find? fun q => q.2.index = i).bind fun q => q.2.shdr

/-- `shdr_data`: the headers of all sections, copied or in the array at `state.shdr`. -/
def tableBytes (shnum : Nat) (qs : List ScnAt) : Outcome WriteError Unit (List UInt8) :=
  match (List.range shnum).mapM (shdrOf qs) with
  | none => .stop .load
  | some hs => .ok (hs.flatMap fun h => h.toFile env.host swap ec) ()

/-- The array at `state.shdr` is written as it is, and is shorter than the table. -/
def shortArray (shnum : Nat) (t : Output) : Prop :=
  swap = false ∧ t.marks.elf = false ∧ t.shdrs.getD shnum < shnum

instance (shnum : Nat) (t : Output) : Decidable (shortArray swap shnum t) := inferInstanceAs (Decidable (_ ∧ _))

def writeSections (h : Ehdr) (shnum : Nat) (c : Cursor) (t : Output) : WriteCall Unit :=
  let qs := sortSections ec t.elf
  let shdrOffset := wrap (t.elf.startOffset + ec.get h.eShoff)
  if qs.length ≠ shnum then .stop .load
  else
    ((tableBytes env ec swap shnum qs).within fun _ => t).bind fun table t =>
    (writeScns env fillByte ec swap qs c t).bind fun c t =>
    (if t.marks.elf = true ∧ sgt shdrOffset c.last then
        (fill fillByte c.last (wrap (shdrOffset + (2 ^ 64 - c.last))) c.filled t).bind fun _ t => .ok () t
      else .ok () t).bind fun _ t =>
    if c.shdrDirty = false then .ok () t
    else if shortArray swap shnum t then .stop .load
    else pwriteRetry table shdrOffset t

def updatefile (shnum : Nat) (t : Output) : WriteCall Unit :=
  (reading (t.elf.header env ec .all) t).bind fun h t =>
  (writeEhdr env ec swap h t).bind fun changed t =>
  (reading (getPhdrnum env ec t.elf) t).bind fun phnum t =>
  (writePhdrs env fillByte ec swap h phnum changed t).bind fun r t =>
  (if shnum = 0 then .ok () t
    else
      let c : Cursor := ⟨headersEnd ec h phnum t.elf, r.1, t.marks.elf, r.2⟩
      writeSections env fillByte ec swap h shnum c t).bind fun _ t =>
  .ok () (t.setMarks { t.marks with elf := false })

end Write

end LibElf.Elfutils
