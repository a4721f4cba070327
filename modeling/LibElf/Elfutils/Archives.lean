import LibElf.Elfutils.Begin

/-!
# Archives of elfutils

The calls that create, move and release descriptors: `elf_begin` with and without a reference, `elf_memory`,
`elf_next`, `elf_rand`, `elf_getarhdr` and `elf_end`, for archives in archives to any depth.

1. `atol` and `intField`, the numbers in a header.
2. `readLongNames` and `nextArhdr`, on a `Walk`: an archive with the offsets of the headers that were read for it.
3. `Lib`, all descriptors, and the calls on them.

`elf_version` has been called. A header is read as a whole, and a call that hands back no descriptor or no header
ends in an error.
-/

namespace LibElf.Elfutils

open Outcome

/-! ## Numbers -/

/-- `isspace` in the C locale. -/
def isSpace (c : UInt8) : Bool := decide (c = 0x20 ∨ (0x09 ≤ c ∧ c ≤ 0x0D))

def isDigit (c : UInt8) : Bool := decide (0x30 ≤ c ∧ c ≤ 0x39)

def decimal (ds : List UInt8) : Nat := ds.foldl (fun n c => 10 * n + (c.toNat - 0x30)) 0

/-- The sign of a number, and what follows it. -/
def signOf : List UInt8 → Bool × List UInt8
  | c :: cs => if c = 0x2D then (true, cs) else if c = 0x2B then (false, cs) else (false, c :: cs)
  | [] => (false, [])

/-- `atol` of the string that `s` begins with. There is no number where `s` ends before the string does. -/
def atol (s : List UInt8) : Option Int :=
  let signed := signOf (s.dropWhile isSpace)
  let digits := signed.2.takeWhile isDigit
  if digits.length = signed.2.length then none
  else if signed.1 then some (-(min (decimal digits) (2 ^ 63) : Nat))
  else some (min (decimal digits) (2 ^ 63 - 1) : Nat)

/-- A `long` as a `size_t`. -/
def sizeT (n : Int) : Nat := (n % 2 ^ 64).toNat

/-- `INT_FIELD`: the number in the `len` bytes at `off`. Where the field is full it is read from a copy with
a NUL behind it, and else in place. -/
def intField (hdr : List UInt8) (off len : Nat) : Option Int :=
  if hdr.getD (off + len - 1) 0 ≠ 0x20 then atol (window hdr off len ++ [0]) else atol (hdr.drop off)

/-! ## Headers -/

/-- `sizeof (struct ar_hdr)`. -/
def arHdrSize : Nat := 60

/-- `ARFMAG`, a backquote and a newline. -/
def arfmag : List UInt8 := [0x60, 0x0A]

/-- A name padded with blanks. -/
def padName (name : List UInt8) : List UInt8 := name ++ List.replicate (16 - name.length) 0x20

/-- The name `/` of the index. -/
def indexName : List UInt8 := [0x2F]

/-- The name `/SYM64/` of the 64-bit index. -/
def sym64Name : List UInt8 := [0x2F, 0x53, 0x59, 0x4D, 0x36, 0x34, 0x2F]

/-- The name `//` of the table of long names. -/
def namesName : List UInt8 := [0x2F, 0x2F]

/-- A C string: the bytes before the first NUL. -/
def cString (s : List UInt8) : List UInt8 := s.takeWhile (· ≠ 0)

/-- The name in the field of a normal entry. In the BSD style there is no slash behind it but blanks, and the
last byte of the field is lost. -/
def memberName (field : List UInt8) : List UInt8 :=
  if 0x2F ∈ field then cString (field.takeWhile (· ≠ 0x2F))
  else cString ((field.take 15).reverse.dropWhile (· = 0x20)).reverse

/-- The NUL-terminated strings of a table of names that end in slashes; what follows the last slash is cleared. -/
def nulTerminate : List UInt8 → List UInt8
  | [] => []
  | c :: cs => (if c = 0x2F then 0 else if 0x2F ∈ cs then c else 0) :: nulTerminate cs

/-- An archive, and the offsets of the headers that were read for it. -/
structure Walk where
  elf : Elf
  used : List Nat

abbrev ArCall := Outcome ElfError Walk

/-- Remember that the header at `pos` was read. -/
def Walk.use (w : Walk) (pos : Nat) : Walk := ⟨w.elf, w.used ++ [pos]⟩

/-- The header at `pos` of a mapped image. Nothing but the end of the image stops a load of the bytes around the
archive, so that it is no fault here. -/
def mapHeader (image : Image) (pos : Nat) (w : Walk) : ArCall (List UInt8) :=
  readAt image.bytes pos arHdrSize (w.use pos)

def Walk.setAr (w : Walk) (a : Ar) : Walk := ⟨w.elf.setAr a, w.used⟩

def Walk.setHdr (w : Walk) (h : Arhdr) : Walk := w.setAr { w.elf.ar with elfArHdr := h }

section Walks

variable (env : Env)

/-! ## The table of long names -/

/-- The place of the header at `offset` from the start of the archive. In a mapped archive it is counted from
`map_address` on. -/
def Elf.namesPos (e : Elf) (offset : Nat) : Nat :=
  if e.mapAddress.isSome then offset else wrap (e.startOffset + offset)

/-- The header at `offset`, with what can be read behind it; nothing where there is no header. -/
def namesHeader (offset : Nat) (w : Walk) : ArCall (Option (List UInt8)) :=
  let e := w.elf
  let pos := e.namesPos offset
  match e.mapAddress with
  | some image =>
    if e.maximumSize < offset ∨ e.maximumSize - offset < arHdrSize then .ok none w
    else
      (mapHeader image pos w).bind fun _ w =>
      .ok (some (window image.bytes pos (e.startOffset + e.maximumSize - pos))) w
  | none =>
    match preadRetry env e.fildes arHdrSize pos with
    | some hdr => if hdr.length = arHdrSize then .ok (some hdr) (w.use pos) else .ok none w
    | none => .ok none w

/-- The end of a member of size `len` whose header is at `offset`. -/
def entryEnd (offset len : Nat) : Nat := wrap (offset + arHdrSize + (wrap (len + 1) / 2) * 2)

/-- Walk over the headers to that of the table of long names, whose offset and size are returned. -/
def findNames : Nat → Nat → Walk → ArCall (Nat × Nat)
  | 0, _, _ => .stop .divergence
  | fuel + 1, offset, w =>
    (namesHeader env offset w).bind fun hdr w =>
    match hdr with
    | none => .err .INVALID_ARCHIVE w
    | some hdr =>
      match intField hdr 48 10 with
      | none => .stop .load
      | some n =>
        if window hdr 0 16 = padName namesName then .ok (offset, sizeT n) w
        else findNames fuel (entryEnd offset (sizeT n)) w

/-- The `len` bytes of the table behind the header at `offset`. -/
def namesBytes (offset len : Nat) (w : Walk) : ArCall (List UInt8) :=
  let e := w.elf
  let pos := e.namesPos (wrap (offset + arHdrSize))
  match e.mapAddress with
  | some _ =>
    if e.maximumSize - offset - arHdrSize < len then .err .INVALID_ARCHIVE w
    else (e.mapRead pos len).within (Walk.mk · w.used)
  | none =>
    match preadRetry env e.fildes len pos with
    | some bs => if bs.length = len then .ok bs w else .err .INVALID_ARCHIVE w
    | none => .err .INVALID_ARCHIVE w

/-- `read_long_names`. The walk depends on nothing but its offset, so after more steps than there are offsets
it would go on for ever. -/
def readLongNames (w : Walk) : ArCall (List UInt8) :=
  (findNames env (2 ^ 64 + 1) sarmag w).bind fun entry w =>
  (namesBytes env entry.1 entry.2 w).bind fun bs w =>
  let names := nulTerminate bs
  .ok names (w.setAr { w.elf.ar with longNames := some names })

/-! ## The next header -/

/-- The header at the position of the archive. Only in a mapped archive it is tested against the end. -/
def arHeader (w : Walk) : ArCall (List UInt8) :=
  let e := w.elf
  let pos := e.ar.offset
  match e.mapAddress with
  | some image =>
    let stop := wrap (e.startOffset + e.maximumSize)
    if stop < pos ∨ stop - pos < arHdrSize then .err .RANGE w else mapHeader image pos w
  | none =>
    match preadRetry env e.fildes arHdrSize pos with
    | some hdr => if hdr.length = arHdrSize then .ok hdr (w.use pos) else .err .RANGE w
    | none => .err .RANGE w

/-- The table of long names, which is read when it is first needed. -/
def longNames (w : Walk) : ArCall (List UInt8) :=
  match w.elf.ar.longNames with
  | some names => .ok names w
  | none => readLongNames env w

def longName (hdr : List UInt8) (w : Walk) : ArCall (List UInt8) :=
  (longNames env w).bind fun names w =>
  match atol (hdr.drop 1) with
  | none => .stop .load
  | some n =>
    if names.length ≤ sizeT n then .err .INVALID_ARCHIVE w else .ok (cString (names.drop (sizeT n))) w

/-- `ar_name` of the header. -/
def arNameOf (hdr : List UInt8) (w : Walk) : ArCall (List UInt8) :=
  let field := window hdr 0 16
  if hdr.getD 0 0 = 0x2F then
    if field = padName indexName then .ok indexName w
    else if field = padName sym64Name then .ok sym64Name w
    else if field = padName namesName then .ok namesName w
    else if isDigit (hdr.getD 1 0) then longName env hdr w
    else .err .INVALID_ARCHIVE w
  else .ok (memberName field) w

def arNumber (hdr : List UInt8) (off len : Nat) (w : Walk) : ArCall Int :=
  match intField hdr off len with
  | none => .stop .load
  | some n => .ok n w

/-- What is left of the archive behind the header at its position. -/
def Elf.arRest (e : Elf) : Nat :=
  wrap (wrap (e.startOffset + e.maximumSize) + (2 ^ 64 - e.ar.offset) + (2 ^ 64 - arHdrSize))

/-- The numbers of the header. A member that is larger than the rest of the archive is cut. -/
def arFields (hdr : List UInt8) (w : Walk) : ArCall Unit :=
  -- without a size the next member cannot be found
  if hdr.getD 48 0 = 0x20 then .err .INVALID_ARCHIVE w
  else
    (arNumber hdr 16 12 w).bind fun date w =>
    (arNumber hdr 28 6 w).bind fun uid w =>
    (arNumber hdr 34 6 w).bind fun gid w =>
    (arNumber hdr 40 8 w).bind fun mode w =>
    (arNumber hdr 48 10 w).bind fun size w =>
    let h := { w.elf.ar.elfArHdr with
      arDate := date, arUid := sizeT uid % 2 ^ 32, arGid := sizeT gid % 2 ^ 32, arMode := sizeT mode % 2 ^ 32,
      arSize := size }
    if size < 0 then .err .INVALID_ARCHIVE (w.setHdr h)
    else .ok () (w.setHdr { h with arSize := min size w.elf.arRest })

def nextArhdr (w : Walk) : ArCall Unit :=
  (arHeader env w).bind fun hdr w =>
  if window hdr 58 2 ≠ arfmag then .err .ARCHIVE_FMAG w
  else
    (arNameOf env hdr (w.setHdr { w.elf.ar.elfArHdr with arRawname := window hdr 0 16 })).bind fun name w =>
    arFields hdr (w.setHdr { w.elf.ar.elfArHdr with arName := some name })

/-- Go to the header at `pos`. Where there is none the current header is marked as unusable. -/
def moveTo (pos : Nat) (w : Walk) : ArCall Unit :=
  match nextArhdr env (w.setAr { w.elf.ar with offset := pos }) with
  | .ok () w => .ok () w
  | .err c w => .err c (w.setHdr { w.elf.ar.elfArHdr with arName := none })
  | .stop f => .stop f

end Walks

/-! ## All descriptors -/

abbrev Handle := Nat

/-- All descriptors that were ever made, those still in use with their state, and the headers that were read
for them. -/
structure Lib where
  elfs : List (Option Elf)
  headers : List (Handle × Nat)

abbrev LibCall := Outcome ElfError Lib

namespace Lib

def empty : Lib := ⟨[], []⟩

def get? (l : Lib) (h : Handle) : Option Elf := (l.elfs[h]?).join

def set (l : Lib) (h : Handle) (e : Option Elf) : Lib := ⟨l.elfs.set h e, l.headers⟩

def new (l : Lib) : Handle := l.elfs.length

def add (l : Lib) (e : Elf) : Lib := ⟨l.elfs ++ [some e], l.headers⟩

def on {α : Type} (h : Handle) (f : Walk → ArCall α) (l : Lib) : LibCall α :=
  match l.get? h with
  | none => .stop .null
  | some e => (f ⟨e, []⟩).within fun w =>
    ⟨l.elfs.set h (some w.elf), l.headers ++ w.used.map (Prod.mk h)⟩

def keep (l : Lib) : Call Unit → LibCall Handle
  | .ok () e => .ok l.new (l.add e)
  | .err c _ => .err c l
  | .stop f => .stop f

end Lib

section Calls

variable (env : Env)

/-- A descriptor for the member at the position of the archive `h`, which becomes its first child. -/
def childOf (fildes : Int) (cmd : Cmd) (h : Handle) (l : Lib) : LibCall Handle :=
  match l.get? h with
  | none => .stop .null
  | some ref =>
    let size := sizeT ref.ar.elfArHdr.arSize
    if size = 2 ^ 64 - 1 then .stop .assertion
    else
      (l.keep (readMember env fildes (wrap (ref.ar.offset + arHdrSize)) size cmd h ref)).bind fun c l =>
      .ok c (l.set h (some (ref.setAr { ref.ar with children := c :: ref.ar.children })))

def dupElf (fildes : Int) (cmd : Cmd) (h : Handle) (l : Lib) : LibCall Handle :=
  match l.get? h with
  | none => .stop .null
  | some ref =>
    if fildes ≠ -1 ∧ ref.fildes ≠ -1 ∧ fildes ≠ ref.fildes then .err .FD_MISMATCH l
    else if ref.cmd = .null then .err .INVALID_OP l
    else if ref.kind ≠ .ar then .ok h (l.set h (some { ref with refCount := ref.refCount + 1 }))
    else
      let fildes := if fildes = -1 then ref.fildes else fildes
      (if ref.ar.elfArHdr.arName = none then l.on h (nextArhdr env) else .ok () l).bind fun _ l =>
      childOf env fildes cmd h l

def elfBegin (fildes : Int) (cmd : Cmd) (ref : Option Handle) (l : Lib) : LibCall (Option Handle) :=
  match ref with
  | none =>
    -- `fcntl` fails on a negative file descriptor, and every other one is that of the file
    if fildes < 0 then .err .INVALID_FILE l
    else
      match cmd with
      | .null => .ok none l
      | .write | .writeMmap => .ok (some l.new) (l.add (writeFile fildes cmd))
      | _ => (l.keep (readFile env fildes cmd)).bind fun h => .ok (some h)
  | some h =>
    match l.get? h with
    | none => .stop .null
    | some e =>
      match cmd with
      | .null => .ok none l
      | .write | .writeMmap => .ok (some l.new) (l.add (writeFile fildes cmd))
      | .readMmapPrivate =>
        if e.cmd ≠ .readMmapPrivate then .err .INVALID_CMD l
        else (dupElf env fildes cmd h l).bind fun h => .ok (some h)
      | .read | .readMmap => (dupElf env fildes cmd h l).bind fun h => .ok (some h)
      | .rdwr | .rdwrMmap =>
        if e.cmd ≠ .rdwr ∧ e.cmd ≠ .rdwrMmap ∧ e.cmd ≠ .write ∧ e.cmd ≠ .writeMmap then .err .INVALID_CMD l
        else (dupElf env fildes cmd h l).bind fun h => .ok (some h)

def openMemory (image : Image) (l : Lib) : LibCall Handle := l.keep (elfMemory env image)

/-- `elf_next`. A descriptor of its own is not in an archive. -/
def elfNext (h : Handle) (l : Lib) : LibCall Cmd :=
  match l.get? h with
  | none => .stop .null
  | some e =>
    match e.parent with
    | none => .ok .null l
    | some p =>
      match l.get? p with
      | none => .stop .null
      | some parent =>
        let size := parent.ar.elfArHdr.arSize
        if parent.kind ≠ .ar then .stop .assertion
        else if size = 2 ^ 63 - 1 then .stop .overflow
        else
          (l.on p (moveTo env (wrap (parent.ar.offset + arHdrSize + sizeT ((size + 1) / 2 * 2))))).bind
            fun _ l => .ok e.cmd l

def elfRand (h : Handle) (offset : Nat) (l : Lib) : LibCall Nat :=
  match l.get? h with
  | none => .stop .null
  | some e =>
    if e.kind ≠ .ar then .ok 0 l
    else (l.on h (moveTo env (wrap (e.startOffset + offset)))).bind fun _ l => .ok offset l

/-- `elf_getarhdr`. A header that cannot be read is tried twice. -/
def elfGetarhdr (h : Handle) (l : Lib) : LibCall Arhdr :=
  match l.get? h with
  | none => .stop .null
  | some e =>
    match e.parent with
    | none => .err .INVALID_OP l
    | some p =>
      match l.get? p with
      | none => .stop .null
      | some parent =>
        if parent.kind ≠ .ar then .stop .assertion
        else if parent.ar.elfArHdr.arName ≠ none then .ok parent.ar.elfArHdr l
        else
          (l.on p fun w =>
            match nextArhdr env w with
            | .ok () w => .ok w.elf.ar.elfArHdr w
            | .err _ w => (nextArhdr env w).bind fun _ w => .ok w.elf.ar.elfArHdr w
            | .stop f => .stop f)

/-- Remove a descriptor from the children of its archive and free it. -/
def free (h : Handle) (e : Elf) (l : Lib) : Lib :=
  match e.parent with
  | none => l.set h none
  | some p =>
    match l.get? p with
    | none => l.set h none
    | some parent =>
      (l.set p (some (parent.setAr { parent.ar with children := parent.ar.children.erase h }))).set h none

/-- `elf_end` of a descriptor at most `depth` levels below a file. -/
def endAt : Nat → Handle → Lib → LibCall Nat
  | 0, _, _ => .stop .divergence
  | depth + 1, h, l =>
    match l.get? h with
    | none => .stop .null
    | some e =>
      if 1 < e.refCount then .ok (e.refCount - 1) (l.set h (some { e with refCount := e.refCount - 1 }))
      -- an archive that still has descriptors below it stays
      else if e.kind = .ar ∧ e.ar.children ≠ [] then .ok 0 (l.set h (some { e with refCount := 0 }))
      else
        let l' := free h e l
        match e.parent with
        | none => .ok 0 l'
        | some p =>
          match l'.get? p with
          | none => .stop .null
          | some parent => if parent.refCount = 0 then endAt depth p l' else .ok 0 l'

/-- `elf_end`. A parent is older than its children. -/
def elfEnd (h : Handle) (l : Lib) : LibCall Nat := endAt (h + 1) h l

inductive ArOp
  | begin (fildes : Int) (cmd : Cmd) (ref : Option Handle)
  | memory (image : Image)
  | next (h : Handle)
  | rand (h : Handle) (offset : Nat)
  | getarhdr (h : Handle)
  | end (h : Handle)

/-- One call of a run; an application goes on after an error. -/
def ArOp.step (l : Lib) : ArOp → Except Fault Lib
  | .begin fildes cmd ref => (elfBegin env fildes cmd ref l).next
  | .memory image => (openMemory env image l).next
  | .next h => (elfNext env h l).next
  | .rand h offset => (elfRand env h offset l).next
  | .getarhdr h => (elfGetarhdr env h l).next
  | .end h => (elfEnd h l).next

end Calls

end LibElf.Elfutils
