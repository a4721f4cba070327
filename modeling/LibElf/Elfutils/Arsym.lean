import LibElf.Base.Reads
import LibElf.Toolchain.Hash
import LibElf.Elfutils.Archives

/-!
# The archive symbol index

`elf_getarsym`. The index is the first member of an archive: a count, that many offsets and that many names,
with words of 4 or 8 bytes in the big byte order. What is read of the file is on record.

1. `dlElfHash`, the hash of a name.
2. `Index`, the state of an archive that belongs to its index.
3. `readNumberEntries`, `arsymLoop` and `elfGetarsym`.
-/

namespace LibElf.Elfutils

open Outcome

/-! ## The hash -/

/-- One round of the loop of `_dl_elf_hash`. The bits that are folded are not cleared. -/
def dlHashStep (hash : BitVec 64) (c : UInt8) : BitVec 64 :=
  let hash := (hash <<< 4) + BitVec.ofNat 64 c.toNat
  let hi := hash &&& BitVec.ofNat 64 0xF0000000
  hash ^^^ (hi >>> 24)

/-- The sum of one of the first characters. -/
def dlHashSum (hash : BitVec 64) (c : UInt8) : BitVec 64 := (hash <<< 4) + BitVec.ofNat 64 c.toNat

/-- `_dl_elf_hash`. The first five characters cannot overflow. -/
def dlElfHash : List UInt8 → BitVec 64
  | a :: b :: c :: d :: e :: name =>
    name.foldl dlHashStep ([a, b, c, d, e].foldl dlHashSum 0) &&& BitVec.ofNat 64 0x0FFFFFFF
  | name => name.foldl dlHashSum 0

/-! ## The index -/

/-- An `Elf_Arsym`; a name is the string that the pointer points to. -/
structure Arsym where
  asName : Option (List UInt8)
  asOff : Nat
  asHash : BitVec 64
deriving DecidableEq

def Arsym.last : Arsym := ⟨none, 0, BitVec.allOnes 64⟩

/-- `ar_sym`: a null pointer, -1 or a table. -/
inductive ArSym
  | unread
  | missing
  | table (t : List Arsym)
deriving DecidableEq

/-- `ar_sym` and `ar_sym_num` of an archive, and what was read of its file. -/
structure Index where
  arSym : ArSym
  arSymNum : Nat
  log : Reads
deriving DecidableEq

abbrev IndexCall := Outcome ElfError Index

def Index.fresh : Index := ⟨.unread, 0, []⟩

def Index.read (s : Index) (pos len : Nat) : Index := { s with log := s.log ++ [(pos, len)] }

def Index.setSym (s : Index) (a : ArSym) : Index := { s with arSym := a }

section Calls

variable (env : Env)

/-- A number in the big byte order: it is loaded and, on a little-endian host, swapped. -/
def beNumber (bs : List UInt8) : Nat :=
  match env.host with
  | .little => ofBytes .little bs.reverse
  | .big => ofBytes .big bs

def mapBytes (image : Image) (pos len : Nat) (s : Index) : IndexCall (List UInt8) :=
  (readLogged image.bytes pos len s.log).within fun log => { s with log := log }

/-- `pread_retry`, with what it returns on record. -/
def preadLogged (fildes : Int) (len pos : Nat) (s : Index) : IndexCall (Option (List UInt8)) :=
  match preadRetry env fildes len pos with
  | some bs => .ok (some bs) (s.read pos bs.length)
  | none => .ok none s

/-- `pread_retry` that has to return all `len` bytes. -/
def preadExact (fildes : Int) (len pos : Nat) (err : ElfError) (s : Index) : IndexCall (List UInt8) :=
  (preadLogged env fildes len pos s).bind fun bs s =>
  match bs with
  | some bs => if bs.length = len then .ok bs s else .err err s
  | none => .err err s

/-- `read_number_entries`. In a mapped image all of the union is copied. -/
def readNumberEntries (e : Elf) (off w : Nat) (s : Index) : IndexCall Nat :=
  match e.mapAddress with
  | some image => (mapBytes image off 8 s).bind fun bs s => .ok (beNumber env (bs.take w)) s
  | none => (preadExact env e.fildes w off .NO_INDEX s).bind fun bs s => .ok (beNumber env bs) s

/-- The entries: `words` holds the offsets from `p` on and `strs` the names from `t` on. -/
def arsymLoop (w : Nat) (words strs : List UInt8) : Nat → Nat → Nat → Reads → Outcome ElfError Reads (List Arsym)
  | 0, _, _, log => .ok [] log
  | cnt + 1, p, t, log =>
    (readLogged words p w log).bind fun bs log =>
    -- the end of the name is looked for without a bound
    (readString strs t log).bind fun name log =>
    (arsymLoop w words strs cnt (p + w) (t + name.length + 1) log).bind fun rest log =>
    .ok (⟨some name, beNumber env bs, dlElfHash name⟩ :: rest) log

def indexHeader (e : Elf) (s : Index) : IndexCall (List UInt8) :=
  match e.mapAddress with
  | none =>
    if e.fildes = -1 then .stop .assertion
    else preadExact env e.fildes arHdrSize (wrap (e.startOffset + sarmag)) .READ_ERROR s
  | some image =>
    if e.maximumSize < sarmag + arHdrSize then .err .NO_INDEX s
    else mapBytes image (e.startOffset + sarmag) arHdrSize s

/-- The width of a word, by the name of the member. -/
def indexWidth (hdr : List UInt8) : Option Nat :=
  if window hdr 0 16 = padName indexName then some 4
  else if window hdr 0 16 = padName sym64Name then some 8
  else none

/-- The size in the header of the index, as a `size_t`. There is a NUL behind the copy. -/
def indexSize (hdr : List UInt8) : Option Nat := (atol (window hdr 48 10 ++ [0])).map sizeT

/-- The `n` entries behind the count, of an index of `size` bytes. -/
def readEntries (e : Elf) (off w n size : Nat) (s : Index) : IndexCall (List Arsym) :=
  let sz := n * w
  match e.mapAddress with
  | none =>
    -- after an error the index may be asked for again
    match (preadExact env e.fildes sz off .NO_INDEX s).bind fun words s =>
        (preadExact env e.fildes (size - sz) (wrap (off + sz)) .NO_INDEX s).bind fun strs s => .ok (words, strs) s with
    | .ok (words, strs) s =>
      -- the loads from the two copies are no reads of the file
      (arsymLoop env w words strs n 0 0 []).within fun _ => s
    | .err c s => .err c (s.setSym .unread)
    | .stop f => .stop f
  | some image =>
    (arsymLoop env w image.bytes image.bytes n off (off + sz) s.log).within fun log => { s with log := log }

/-- The part of `elf_getarsym` that reads the index. -/
def readIndex (e : Elf) (s : Index) : IndexCall (List Arsym) :=
  -- an index that is not found is not looked for again
  (indexHeader env e (s.setSym .missing)).bind fun hdr s =>
  if window hdr 58 2 ≠ arfmag then .err .ARCHIVE_FMAG s
  else
    match indexWidth hdr with
    | none => .err .NO_INDEX s
    | some w =>
      let off := wrap (e.startOffset + sarmag + arHdrSize)
      (readNumberEntries env e off w s).bind fun n s =>
      match indexSize hdr with
      | none => .stop .load
      | some size =>
        if e.maximumSize < size ∨ e.maximumSize - size < sarmag + arHdrSize ∨ size / w < n then .err .NO_INDEX s
        else
          (readEntries env e (off + w) w n size s).bind fun entries s =>
          let t := entries ++ [Arsym.last]
          .ok t { s with arSym := .table t, arSymNum := n + 1 }

/-- `elf_getarsym`, with the number of entries that it stores at `ptr`. -/
def elfGetarsym (e : Elf) (s : Index) : IndexCall (List Arsym × Nat) :=
  if e.kind ≠ .ar then .err .NO_ARCHIVE s
  else
    match s.arSym with
    | .missing => .err .NO_INDEX s
    | .table t => .ok (t, s.arSymNum) s
    | .unread => (readIndex env e s).bind fun t s => .ok (t, s.arSymNum) s

end Calls

end LibElf.Elfutils
