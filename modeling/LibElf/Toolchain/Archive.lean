import LibElf.Base.Forest
import LibElf.Toolchain.Descriptor

/-!
# Archives and the life of a descriptor

Every descriptor the library hands out, for an ELF object, an `ar(1)` archive, a member of one, or anything else,
and the five functions that create, count, move and release descriptors.

1. `Block`, the bytes that an image lies in; an address outside of them is a fault. `ar_hdr` and its numbers.
2. `Desc` is `struct _Elf` as far as these functions look at it, and `Heap` holds every descriptor ever allocated
   with the number of times it has been freed.
3. `arOpen`, `memory`, `elfEnd`, `openMember`, `elfBegin`, `elfNext`, `elfRand`, and `LifeOp.step`.

`elf_version` has been called and allocations and system calls succeed. Addresses, `size_t` and `off_t` have
64 bits; a header is read as a whole.
-/

namespace LibElf.Toolchain

open Outcome

/-! ## Memory -/

/-- An object in memory: a mapped file or a buffer of the application. -/
structure Block where
  addr : Nat
  bytes : List UInt8
  addr_pos : 0 < addr
  fits : addr + bytes.length < 2 ^ 64

theorem Block.eq_iff {a b : Block} : a.addr = b.addr ∧ a.bytes = b.bytes ↔ a = b := by
  constructor
  · rintro ⟨haddr, hbytes⟩
    cases a
    cases b
    cases haddr
    cases hbytes
    rfl
  · rintro rfl
    exact ⟨rfl, rfl⟩

instance : DecidableEq Block := fun _ _ => decidable_of_iff _ Block.eq_iff

def noBlock : Block := ⟨1, [], Nat.one_pos, by decide⟩

/-- The first page is not mapped. -/
theorem page_pos : 0 < 4096 := by decide

def Block.load {σ : Type} (b : Block) (p len : Nat) (s : σ) : Outcome ElfError σ (List UInt8) :=
  if p < b.addr then .stop .load else readAt b.bytes (p - b.addr) len s

/-- `strncmp(p, pat, strlen(pat)) == 0`: the comparison ends at the first byte that differs. -/
def Block.startsWith {σ : Type} (b : Block) (p : Nat) : List UInt8 → σ → Outcome ElfError σ Bool
  | [], s => .ok true s
  | c :: cs, s => (b.load p 1 s).bind fun x s => if x = [c] then b.startsWith (p + 1) cs s else .ok false s

/-- A number as an `off_t`. -/
def offT (n : Int) : Int := Int.bmod n (2 ^ 64)

def ptrAdd (p : Nat) (k : Int) : Nat := ((p + k) % 2 ^ 64).toNat

/-! ## Headers of members -/

/-- `sizeof(struct ar_hdr)`. -/
def arHdrSize : Nat := 60

def sarmag : Nat := 8

/-- `ARMAG`, the text `!<arch>` and a newline. -/
def armag : List UInt8 := [0x21, 0x3C, 0x61, 0x72, 0x63, 0x68, 0x3E, 0x0A]

def arName (arh : List UInt8) : List UInt8 := window arh 0 16
def arSize (arh : List UInt8) : List UInt8 := window arh 48 10
def arFmag (arh : List UInt8) : List UInt8 := window arh 58 2

def arDigits (base : Nat) : List UInt8 → Nat → Option Nat
  | [], r => some r
  | c :: cs, r =>
    if c = 0x20 then some r
    else if c < 0x30 ∨ 0x39 < c then none
    else
      let v := (c - 0x30).toNat
      if base ≤ v then some r -- an illegal digit ends the number
      else arDigits base cs (wrap (wrap (r * base) + v))

def arGetNumber (src : List UInt8) (base : Nat) : Option Nat :=
  arDigits base (src.dropWhile (fun c => c = 0x20)) 0

/-- `IS_EXTENDED_BSD_NAME`: the name starts with `#1/`. -/
def isExtendedBsdName (arh : List UInt8) : Bool := decide (window arh 0 3 = [0x23, 0x31, 0x2F])

/-- `LIBELF_ADJUST_AR_SIZE`; the mask `~1U` has 32 bits. -/
def adjustArSize (sz : Nat) : Nat := wrap (sz + 1) &&& 0xFFFFFFFE

/-! ## Descriptors -/

abbrev Handle := Nat

/-- An `Elf_Cmd`; `other` stands for the ones `elf_begin` does not know. -/
inductive ElfCmd
  | null
  | read
  | write
  | rdwr
  | other
deriving DecidableEq, Repr

/-- `e_u.e_ar`; a null pointer is 0. -/
structure Ar where
  eNext : Int
  eNchildren : Int
  eRawstrtab : Nat
  eRawstrtabsz : Nat
  eRawsymtab : Nat
  eRawsymtabsz : Nat
deriving DecidableEq

inductive Kind
  | none
  | elf
  | ar (a : Ar)
deriving DecidableEq

/-- A `struct _Elf`; `eFd` is -1 where there is no file. `eBlock` is the object that `eRawfile` points into. -/
structure Desc where
  eActivations : Nat
  eRawhdr : Nat
  eByteorder : UInt8
  eClass : Option ElfClass
  eCmd : ElfCmd
  eFd : Int
  eVariantSvr4 : Bool
  eKind : Kind
  eParent : Option Handle
  eRawfile : Nat
  eRawsize : Nat
  eVersion : Nat
  eBlock : Block
deriving DecidableEq

/-- `_libelf_allocate_elf`: a descriptor of no kind that is active once. -/
def Desc.fresh : Desc :=
  { eActivations := 1
    eRawhdr := 0
    eByteorder := 0
    eClass := none
    eCmd := .null
    eFd := -1
    eVariantSvr4 := false
    eKind := .none
    eParent := none
    eRawfile := 0
    eRawsize := 0
    eVersion := evCurrent
    eBlock := noBlock }

/-- The archive part of a descriptor of kind `ELF_K_AR`. -/
def Desc.ar? (d : Desc) : Option Ar :=
  match d.eKind with
  | .ar a => some a
  | .elf => none
  | .none => none

/-- Store into `e_u.e_ar`. -/
@[simps] def Desc.setAr (d : Desc) (a : Ar) : Desc := { d with eKind := .ar a }

/-! ## The heap -/

/-- A descriptor, and how often it has been freed; a freed one has the contents it had last. -/
structure Cell where
  desc : Desc
  frees : Nat
deriving DecidableEq

/-- Every descriptor ever allocated, in order, and the ones that a call has returned. -/
structure Heap where
  cells : List Cell
  returned : List Handle
deriving DecidableEq

def Heap.empty : Heap := ⟨[], []⟩

abbrev Lib (α : Type) := Outcome ElfError Heap α

/-- The descriptors: a parent is `e_parent`, and a descriptor is alive until it is freed. -/
def kin : Forest Cell := ⟨fun c => c.desc.eParent, fun c => decide (c.frees = 0)⟩

namespace Heap

/-- Load a descriptor; one that has been freed must not be touched any more. -/
def deref (s : Heap) (h : Handle) : Lib Desc :=
  match s.cells[h]? with
  | some c => if c.frees = 0 then .ok c.desc s else .stop .load
  | none => .stop .load

def put (s : Heap) (h : Handle) (d : Desc) : Heap :=
  match s.cells[h]? with
  | some c => { s with cells := s.cells.set h { c with desc := d } }
  | none => s

/-- `malloc` of a descriptor with the contents `d`; its handle is the length of the heap. -/
def allocate (s : Heap) (d : Desc) : Heap := { s with cells := s.cells ++ [⟨d, 0⟩] }

/-- `_libelf_release_elf`. -/
def release (s : Heap) (h : Handle) : Heap :=
  match s.cells[h]? with
  | some c => { s with cells := s.cells.set h { c with frees := c.frees + 1 } }
  | none => s

/-- A call returned a descriptor. -/
def give (s : Heap) (h : Handle) : Heap := { s with returned := h :: s.returned }

/-- The number of live descriptors whose `e_parent` is `h`. -/
def children (s : Heap) (h : Handle) : Nat := kin.children s.cells h

/-- The descriptor `h` has been allocated and not been freed, and `d` is in it. -/
def Live (s : Heap) (h : Handle) (d : Desc) : Prop := s.cells[h]? = some ⟨d, 0⟩

/-- The descriptor `h` has been freed, and `d` was in it then. -/
def Released (s : Heap) (h : Handle) (d : Desc) : Prop :=
  ∃ n, s.cells[h]? = some ⟨d, n⟩ ∧ 0 < n

end Heap

/-! ## Opening an archive -/

/-- `READ_AR_HEADER`: the header at `p` and its size field, if the header ends before `fin`. -/
def readArHeader {σ : Type} (b : Block) (p fin : Nat) (s : σ) : Outcome ElfError σ (List UInt8 × Nat) :=
  if fin < wrap (p + arHdrSize) then .err .ARCHIVE s
  else
    (b.load p arHdrSize s).bind fun arh s =>
      if arFmag arh ≠ [0x60, 0x0A] then .err .ARCHIVE s
      else
        match arGetNumber (arSize arh) 10 with
        | none => .err .ARCHIVE s
        | some sz => .ok (arh, sz) s

/-- The special members at the start of an archive: what `_libelf_ar_open` finds there, and the pointer to the
first member after them. -/
structure Special where
  svr4 : Bool
  rawsymtab : Nat
  rawsymtabsz : Nat
  rawstrtab : Nat
  rawstrtabsz : Nat
  next : Nat
deriving DecidableEq

/-- Look for the special members, from the first header at `p`. -/
def arSpecial {σ : Type} (b : Block) (p fin : Nat) (s : σ) : Outcome ElfError σ Special :=
  (readArHeader b p fin s).bind fun (arh, sz) s =>
    let member := wrap (p + arHdrSize)
    let next := wrap (member + adjustArSize sz)
    if window arh 0 1 = [0x2F] then
      if sz = 0 then .err .ARCHIVE s
      else if window arh 1 1 = [0x20] then
        -- the symbol table; the string table may follow
        (readArHeader b next fin s).bind fun (arh', sz') s =>
          if window arh' 0 3 = [0x2F, 0x2F, 0x20] then
            let member' := wrap (next + arHdrSize)
            .ok ⟨true, member, sz, member', sz', wrap (member' + adjustArSize sz')⟩ s
          else .ok ⟨true, member, sz, 0, 0, next⟩ s
      else if window arh 1 2 = [0x2F, 0x20] then .ok ⟨true, 0, 0, member, sz, next⟩ s
      else .ok ⟨true, 0, 0, 0, 0, p⟩ s
    else if window arh 0 9 = [0x5F, 0x5F, 0x2E, 0x53, 0x59, 0x4D, 0x44, 0x45, 0x46] then
      .ok ⟨false, member, sz, 0, 0, next⟩ s
    else .ok ⟨false, 0, 0, 0, 0, p⟩ s

/-- `_libelf_ar_open(e, 1)`. An archive that is refused stays allocated. -/
def arOpen (e : Handle) (d : Desc) (s : Heap) : Lib Handle :=
  let s := s.put e (d.setAr ⟨-1, 0, 0, 0, 0, 0⟩)
  let fin := wrap (d.eRawfile + d.eRawsize)
  (arSpecial d.eBlock (wrap (d.eRawfile + sarmag)) fin s).bind fun m s =>
    .ok e (s.put e { d with
      eVariantSvr4 := m.svr4
      eKind := .ar ⟨offT (m.next - d.eRawfile), 0, m.rawstrtab, m.rawstrtabsz, m.rawsymtab, m.rawsymtabsz⟩ })

/-! ## Opening an image -/

/-- What is wrong with the version, class and byte order in `e_ident`. -/
def identError (ident : List UInt8) : Option ElfError :=
  if evCurrent < (ident.getD 2 0).toNat then some .VERSION
  else if (ident.getD 1 0 ≠ 1 ∧ ident.getD 1 0 ≠ 2) ∨ ElfClass.ofByte (ident.getD 0 0) = none then some .HEADER
  else none

/-- `_libelf_memory(image, sz, 1)`. -/
def libelfMemoryAt (b : Block) (image sz : Nat) (s : Heap) : Lib Handle :=
  if sz = 0 then .stop .assertion
  else
    let e := s.cells.length
    let d := { Desc.fresh with eCmd := .read, eRawfile := image, eRawsize := sz, eBlock := b }
    let s := s.allocate d
    (if eiNident < sz then b.startsWith image [0x7F, 0x45, 0x4C, 0x46] s else .ok false s).bind fun iself s =>
      if iself then
        (b.load (image + 4) 3 s).bind fun ident s =>
          match identError ident with
          | some error => .err error (s.release e)
          | none =>
            .ok e (s.put e { d with
              eKind := .elf
              eByteorder := ident.getD 1 0
              eClass := ElfClass.ofByte (ident.getD 0 0)
              eVersion := (ident.getD 2 0).toNat })
      else
        (if sarmag ≤ sz then b.startsWith image armag s else .ok false s).bind fun isar s =>
          if isar then arOpen e d s else .ok e s

def elfMemory (b : Block) (image sz : Nat) (s : Heap) : Lib Handle :=
  if image = 0 ∨ sz = 0 then .err .ARGUMENT s else libelfMemoryAt b image sz s

/-! ## Releasing descriptors -/

/-- The loop of `elf_end`: release a descriptor that is not active, and go on with its parent. -/
def endLoop : Nat → Handle → Heap → Lib Int
  | 0, _, _ => .stop .divergence
  | fuel + 1, e, s =>
    (s.deref e).bind fun d s =>
      if d.eActivations ≠ 0 then .ok 0 s
      -- open children put the release of an archive off
      else if d.ar?.any (fun a => 0 < a.eNchildren) then .ok 0 s
      else
        match d.eParent with
        | none => .ok 0 (s.release e)
        | some p =>
          (s.deref p).bind fun dp s =>
            match dp.eKind with
            | .ar a => endLoop fuel p ((s.put p (dp.setAr { a with eNchildren := a.eNchildren - 1 })).release e)
            | .elf => .stop .store
            | .none => .stop .store

def elfEnd (e : Option Handle) (s : Heap) : Lib Int :=
  match e with
  | none => .ok 0 s
  | some e =>
    (s.deref e).bind fun d s =>
      if d.eActivations = 0 then .ok 0 s
      else
        let n := d.eActivations - 1
        let s := s.put e { d with eActivations := n }
        if 0 < n then .ok n s else endLoop (s.cells.length + 1) e s

/-! ## Opening a descriptor -/

/-- The address and the size of the contents behind the header at `arh`, if the header has numbers. -/
def memberRange (arh : Nat) (hdr : List UInt8) : Option (Nat × Nat) :=
  match arGetNumber (arSize hdr) 10 with
  | none => none
  | some sz =>
    if isExtendedBsdName hdr then
      -- the name comes before the contents
      match arGetNumber (window hdr 3 13) 10 with
      | none => none
      | some nsz => some (wrap (arh + arHdrSize + nsz), wrap (sz + (2 ^ 64 - nsz)))
    else some (wrap (arh + arHdrSize), sz)

/-- `_libelf_ar_open_member`; the result is `none` at the end of the archive. -/
def openMember (fd : Int) (c : ElfCmd) (elf : Handle) (d : Desc) (a : Ar) (s : Heap) : Lib (Option Handle) :=
  if a.eNext = 0 then .ok none s
  else if a.eNext % 2 ≠ 0 then .stop .assertion
  else
    let arh := ptrAdd d.eRawfile a.eNext
    (d.eBlock.load arh arHdrSize s).bind fun hdr s =>
      match memberRange arh hdr with
      | none => .err .ARCHIVE s
      | some (member, sz) =>
        (elfMemory d.eBlock member sz s).bind fun e s =>
          (s.deref e).bind fun de s =>
            if a.eNchildren + 1 = 2 ^ 31 then .stop .overflow
            else
              let s := s.put elf (d.setAr { a with eNchildren := a.eNchildren + 1 })
              .ok (some e) (s.put e { de with eFd := fd, eCmd := c, eRawhdr := arh, eParent := some elf })

/-- `_libelf_open_object(fd, c, 1)`; the file is `none` where its type is not supported. -/
def openObjectAt (env : Env) (fd : Int) (c : ElfCmd) (file : Option Block) (s : Heap) : Lib (Option Handle) :=
  match file with
  | none => .err .ARGUMENT s
  | some b =>
    match c with
    | .write =>
      .ok (some s.cells.length) (s.allocate { Desc.fresh with
        eKind := .elf
        eByteorder := env.byteorder
        eFd := fd
        eCmd := .write })
    | c =>
      if b.bytes = [] then .err .ARGUMENT s
      else
        (libelfMemoryAt b b.addr b.bytes.length s).bind fun e s =>
          (s.deref e).bind fun d s =>
            -- archives are not supported in RDWR mode
            if c = .rdwr ∧ d.ar?.isSome then (elfEnd (some e) s).bind fun _ s => .err .ARGUMENT s
            else .ok (some e) (s.put e { d with eFd := fd, eCmd := c })

def elfBegin (env : Env) (fd : Int) (c : ElfCmd) (a : Option Handle) (file : Option Block) (s : Heap) :
    Lib (Option Handle) :=
  match c, a with
  | .null, _ => .ok none s
  | .other, _ => .err .ARGUMENT s
  | .write, _ => openObjectAt env fd .write file s
  | .rdwr, some _ => .err .ARGUMENT s
  | .rdwr, none => openObjectAt env fd .rdwr file s
  | .read, none => openObjectAt env fd .read file s
  | .read, some a =>
    (s.deref a).bind fun d s =>
      if (d.eFd ≠ -1 ∧ d.eFd ≠ fd) ∨ d.eCmd ≠ .read then .err .ARGUMENT s
      else
        match d.eKind with
        | .ar r => openMember d.eFd .read a d r s
        | _ =>
          if d.eActivations + 1 = 2 ^ 31 then .stop .overflow
          else .ok (some a) (s.put a { d with eActivations := d.eActivations + 1 })

/-! ## Moving in an archive -/

def elfNext (e : Option Handle) (s : Heap) : Lib ElfCmd :=
  match e with
  | none => .ok .null s
  | some e =>
    (s.deref e).bind fun d s =>
      match d.eParent with
      | none => .err .ARGUMENT s
      | some p =>
        (s.deref p).bind fun dp s =>
          match dp.eKind with
          | .ar a =>
            if dp.eCmd ≠ .read ∨ d.eRawfile ≤ dp.eRawfile then .stop .assertion
            else
              let next := offT (d.eRawfile - dp.eRawfile + offT d.eRawsize)
              let next := (next + 1) / 2 * 2
              let next := if offT dp.eRawsize ≤ next then 0 else next
              .ok .read (s.put p (dp.setAr { a with eNext := next }))
          | _ => .stop .assertion

def elfRand (ar : Option Handle) (offset : Int) (s : Heap) : Lib Int :=
  match ar with
  | none => .err .ARGUMENT s
  | some h =>
    (s.deref h).bind fun d s =>
      match d.eKind with
      | .ar a =>
        if offset % 2 ≠ 0 ∨ offset < sarmag ∨ d.eRawsize ≤ wrap (offset.toNat + arHdrSize) then .err .ARGUMENT s
        else
          (d.eBlock.load (ptrAdd d.eRawfile offset) arHdrSize s).bind fun arh s =>
            if arFmag arh ≠ [0x60, 0x0A] then .err .ARCHIVE s
            else .ok offset (s.put h (d.setAr { a with eNext := offset }))
      | _ => .err .ARGUMENT s

/-! ## Calls -/

inductive LifeOp
  | elfBegin (fd : Int) (c : ElfCmd) (a : Option Handle) (file : Option Block)
  | elfMemory (b : Block) (image sz : Nat)
  | elfNext (e : Option Handle)
  | elfRand (ar : Option Handle) (offset : Int)
  | elfEnd (e : Option Handle)
deriving DecidableEq

/-- The heap knows what a call returned. -/
def giving (x : Lib (Option Handle)) : Lib (Option Handle) :=
  x.bind fun h s =>
    match h with
    | some e => .ok h (s.give e)
    | none => .ok h s

def LifeOp.step (env : Env) (s : Heap) : LifeOp → Except Fault Heap
  | .elfBegin fd c a file => (giving (Toolchain.elfBegin env fd c a file s)).next
  | .elfMemory b image sz => (giving ((Toolchain.elfMemory b image sz s).bind fun e s => .ok (some e) s)).next
  | .elfNext e => (Toolchain.elfNext e s).next
  | .elfRand ar offset => (Toolchain.elfRand ar offset s).next
  | .elfEnd e => (Toolchain.elfEnd e s).next

end LibElf.Toolchain
