import LibElf.Base.Chain
import LibElf.Elfutils.Types

/-!
# ELF descriptors of elfutils

The state behind an `Elf *`: what is common to all kinds, the state of an ELF object and that of
an archive. Of an image that is mapped a descriptor keeps no copy: it reads through `map_address`
whenever it needs a byte.

1. `Data`, `Scn`, `ScnList`, `Ar` and `Elf`, the structures of `libelfP.h`.
2. `Elf.mapRead`, every load through `map_address`. The object such a load is meant for is the range
   `[start_offset, start_offset + maximum_size)` of the descriptor, so that a load outside of it is a
   fault also where the memory behind it belongs to the archive around.
3. `preadRetry` and `Elf.header`, the other two ways to the bytes of the image.

Allocations succeed. The library is built for x86-64, as the `config.h` beside it is, so that
`ALLOW_UNALIGNED` is set and the tests on alignment are never decisive.
-/

namespace LibElf.Elfutils

open Toolchain (ElfClass Ehdr Phdr Shdr)

/-- The bytes of a file or of a memory image; an `off_t` counts them. -/
structure Image where
  bytes : List UInt8
  small : bytes.length < 2 ^ 63
deriving DecidableEq

/-- What the library finds around it: the byte order of the host, the file behind each file
descriptor, and the bytes of fresh memory. -/
structure Env where
  host : ByteOrder
  file : Int → Image
  heap : Nat → UInt8

/-- A little-endian host, and a file with the given bytes behind every file descriptor. -/
def plainEnv (file : Image) : Env := ⟨.little, fun _ => file, fun _ => 0⟩

def Image.ofBytes (bs : List UInt8) (h : bs.length < 2 ^ 63 := by decide) : Image := ⟨bs, h⟩

structure Data where
  dBuf : Option (List UInt8)
  dType : ElfType
  dVersion : Nat
  dSize : Nat
  dOff : Nat
  dAlign : Nat
deriving DecidableEq

/-- An `Elf_Scn`. `list` is the place of its block in the chain of blocks, `shdrDirty` and `dirty`
are `ELF_F_DIRTY` in `shdr_flags` and `flags`, and `dataList` is empty where `data_list_rear` is a null
pointer. -/
structure Scn where
  index : Nat
  list : Nat
  shdr : Option Shdr
  shdrDirty : Bool
  dirty : Bool
  filedata : Bool
  dataRead : Bool
  shndxIndex : Int
  rawdata : Option Data
  dataList : List Data
deriving DecidableEq

/-- A section that `calloc` has cleared. -/
def Scn.zero : Scn := ⟨0, 0, none, false, false, false, false, 0, none, []⟩

/-- An `Elf_ScnList`: of the `max` entries of `data` the first `cnt` are used. -/
abbrev ScnList := Block Scn

def ScnList.alloc (max : Nat) : ScnList := ⟨0, List.replicate max Scn.zero⟩

structure Arhdr where
  arName : Option (List UInt8)
  arDate : Int
  arUid : Nat
  arGid : Nat
  arMode : Nat
  arSize : Int
  arRawname : List UInt8
deriving DecidableEq

structure Ar where
  children : List Nat
  longNames : Option (List UInt8)
  offset : Nat
  elfArHdr : Arhdr
deriving DecidableEq

/-- Where the ELF header is: in the mapped image, or in the descriptor itself. -/
inductive Header
  | mapped
  | copied (h : Ehdr)
deriving DecidableEq

/-- Where the program header table is: in the mapped image at an offset from `start_offset`, or in
memory of its own. `cnt` is the number of entries it had when the pointer was set. -/
inductive Phdrs
  | mapped (off cnt : Nat)
  | copied (ps : List Phdr)
deriving DecidableEq

/-- The number of entries a program header table had when it was found. -/
def Phdrs.count : Phdrs → Nat
  | .mapped _ cnt => cnt
  | .copied ps => ps.length

/-- An `Elf`. `scns` is the chain of blocks from `state.elf.scns` on, whose last one `scns_last`
points to; an empty chain stands for the null pointer of a descriptor that is no ELF object. -/
structure Elf where
  mapAddress : Option Image
  parent : Option Nat
  kind : Kind
  cmd : Cmd
  elfClass : Option ElfClass
  fildes : Int
  startOffset : Nat
  maximumSize : Nat
  malloced : Bool
  refCount : Nat
  ehdr : Option Header
  phdr : Option Phdrs
  scns : List ScnList
  scnincr : Nat
  ar : Ar
deriving DecidableEq

abbrev Call := Outcome ElfError Elf

/-- The archive header that `calloc` leaves. -/
def Arhdr.zero : Arhdr := ⟨none, 0, 0, 0, 0, 0, []⟩

def allocateElf (fildes : Int) (mapAddress : Option Image) (offset maxsize : Nat) (cmd : Cmd)
    (parent : Option Nat) (kind : Kind) : Elf :=
  { mapAddress := mapAddress, parent := parent, kind := kind, cmd := cmd, elfClass := none,
    fildes := fildes, startOffset := offset, maximumSize := maxsize, malloced := false,
    refCount := 1, ehdr := none, phdr := none, scns := [], scnincr := 0,
    ar := ⟨[], none, 0, Arhdr.zero⟩ }

/-! ## Setters -/

namespace Elf

def setScns (e : Elf) (bs : List ScnList) : Elf := { e with scns := bs }

def setScnincr (e : Elf) (n : Nat) : Elf := { e with scnincr := n }

def setEhdr (e : Elf) (ec : ElfClass) (h : Header) : Elf := { e with elfClass := some ec, ehdr := some h }

def setPhdr (e : Elf) (ps : Phdrs) : Elf := { e with phdr := some ps }

def setKind (e : Elf) (k : Kind) : Elf := { e with kind := k }

def setAr (e : Elf) (a : Ar) : Elf := { e with ar := a }

@[simp] theorem scns_setScns (e : Elf) (bs : List ScnList) : (e.setScns bs).scns = bs := rfl
@[simp] theorem kind_setScns (e : Elf) (bs : List ScnList) : (e.setScns bs).kind = e.kind := rfl
@[simp] theorem scnincr_setScns (e : Elf) (bs : List ScnList) : (e.setScns bs).scnincr = e.scnincr := rfl
@[simp] theorem scns_setScnincr (e : Elf) (n : Nat) : (e.setScnincr n).scns = e.scns := rfl
@[simp] theorem kind_setScnincr (e : Elf) (n : Nat) : (e.setScnincr n).kind = e.kind := rfl
@[simp] theorem scnincr_setScnincr (e : Elf) (n : Nat) : (e.setScnincr n).scnincr = n := rfl

/-! ## Reading the image -/

/-- Load `len` bytes at `map_address + off`. -/
def mapRead (e : Elf) (off len : Nat) : Call (List UInt8) :=
  match e.mapAddress with
  | none => .stop .null
  | some image =>
    if len ≠ 0 ∧ (off < e.startOffset ∨ e.startOffset + e.maximumSize < off + len) then .stop .load
    else readAt image.bytes off len e

/-- The header at the start of the mapped image, as far as its bytes are there. -/
def mapEhdr (env : Env) (e : Elf) (ec : ElfClass) (swap : Bool) : Ehdr :=
  Ehdr.ofFile env.host swap ec
    (window ((e.mapAddress.map Image.bytes).getD []) e.startOffset (ehdrSize ec))

/-- The ELF header, to read field `f` of it. In the mapped image the field is loaded there. -/
def header (env : Env) (e : Elf) (ec : ElfClass) (f : EhdrField) : Call Ehdr :=
  match e.ehdr with
  | none => .stop .null
  | some (.copied h) => .ok h e
  | some .mapped =>
    (e.mapRead (e.startOffset + (f.extent ec).1) (f.extent ec).2).bind fun _ e =>
    .ok (e.mapEhdr env ec false) e

/-- A load leaves the descriptor as it is. -/
theorem mapRead_ok {e e' : Elf} {off len : Nat} {bs : List UInt8} (h : e.mapRead off len = .ok bs e') :
    e' = e := by
  unfold mapRead at h
  split at h
  · cases h
  · split at h
    · cases h
    · exact (readAt_eq_ok.mp h).2.2

theorem mapRead_ne_err {e e' : Elf} {off len : Nat} {c : ElfError} : e.mapRead off len ≠ .err c e' := by
  unfold mapRead
  split
  · exact nofun
  · split
    · exact nofun
    · exact readAt_ne_err

theorem header_ok {env : Env} {e e' : Elf} {ec : ElfClass} {f : EhdrField} {h : Ehdr}
    (hh : e.header env ec f = .ok h e') : e' = e := by
  unfold header at hh
  split at hh
  · cases hh
  · cases hh
    rfl
  · obtain ⟨bs, t, hread, hrest⟩ := Outcome.bind_eq_ok.mp hh
    obtain rfl := mapRead_ok hread
    cases hrest
    rfl

end Elf

/-- `pread_retry`: `none` stands for -1. A read at the end of the file returns fewer bytes. -/
def preadRetry (env : Env) (fildes : Int) (len off : Nat) : Option (List UInt8) :=
  if fildes = -1 ∨ 2 ^ 63 ≤ off then none else some (window (env.file fildes).bytes off len)

end LibElf.Elfutils
