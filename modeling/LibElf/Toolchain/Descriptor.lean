import Mathlib.Tactic.Simps.Basic
import LibElf.Toolchain.Convert

/-!
# ELF descriptors

The state behind an `Elf *` for an ELF object, its sections and their data descriptors, and how a
descriptor comes into being.

1. `ElfData`, `Scn` and `Elf`, the structures of `_libelf.h`. A data descriptor carries the proof
   that its buffer has `d_size` bytes.
2. `Elf.read`, every load from the image `e_rawfile`; a load outside of it is a fault.
3. `libelfMemory` and `openObject`, the descriptors the library hands out.

Allocations succeed. Fields that a class 32 structure keeps in 32 bits are read and assigned
through `ElfClass.get` and `ElfClass.put`; counts, sizes and offsets the library keeps in 64-bit
variables are natural numbers that every assignment cuts with `wrap` where it may overflow.
-/

namespace LibElf.Toolchain

/-- What the library finds around it: the byte order of the host, the fill character of
`elf_fill`, the bytes of fresh memory, and an address the allocator hands out. -/
structure Env where
  host : ByteOrder
  fillchar : UInt8
  heap : Nat → UInt8
  heapAddr : Nat
  heapAligned : 16 ∣ heapAddr

def plainEnv : Env := ⟨.little, 0, fun _ => 0, 4096, by decide⟩

/-- `LIBELF_PRIVATE(byteorder)`. -/
def Env.byteorder (env : Env) : UInt8 :=
  match env.host with
  | .little => 1
  | .big => 2

inductive Cmd
  | read
  | write
  | rdwr
deriving DecidableEq, Repr

structure Buf where
  addr : Nat
  bytes : List UInt8
deriving DecidableEq

/-- An `Elf_Data`; `dType` is `none` for a value that is no `ELF_T_*`. -/
structure ElfData where
  dAlign : UInt64
  dOff : UInt64
  dSize : UInt64
  dBuf : Option Buf
  dType : Option ElfType
  dVersion : Nat
  size_buf : ∀ b ∈ dBuf, b.bytes.length = dSize.toNat
deriving DecidableEq

/-- An `Elf_Scn`. `sOffset`, `sRawoff` and `sSize` are 64-bit values. -/
structure Scn where
  shdr : Shdr
  sData : List ElfData
  sRawdata : List ElfData
  sDirty : Bool
  sNdx : Nat
  sOffset : Nat
  sRawoff : Nat
  sSize : Nat
deriving DecidableEq

/-- The flags of `e_flags` the layout and the loaders look at. -/
structure Flags where
  dirty : Bool
  layout : Bool
  shdrsLoaded : Bool
  rawfileOwned : Bool
deriving DecidableEq

/-- The bytes of `e_rawfile`, at most `e_rawsize : size_t` of them. -/
structure Image where
  addr : Nat
  bytes : List UInt8
  size_lt : bytes.length < 2 ^ 64
deriving DecidableEq

def noImage : Image := ⟨0, [], by decide⟩

/-- The descriptor of an ELF object. `eFd` is the file behind the descriptor, when there is one;
sections have the position in `eScn` as their handle. -/
structure Elf where
  eByteorder : UInt8
  eClass : Option ElfClass
  eCmd : Cmd
  eFd : Option (List UInt8)
  eFlags : Flags
  eRawfile : Option Image
  eVersion : Nat
  eEhdr : Option Ehdr
  ePhdr : Option (List Phdr)
  eScn : List Scn
  eNphdr : Nat
  eNscn : Nat
  eStrndx : Nat
deriving DecidableEq

abbrev Call (α : Type) := Outcome ElfError Elf α

namespace Elf

def rawsize (e : Elf) : Nat :=
  match e.eRawfile with
  | some im => im.bytes.length
  | none => 0

def rawbytes (e : Elf) : List UInt8 :=
  match e.eRawfile with
  | some im => im.bytes
  | none => []

/-- Load `len` bytes at `e_rawfile + off`, in a call with state `s`. -/
def read {σ : Type} (e : Elf) (off len : Nat) (s : σ) : Outcome ElfError σ (List UInt8) :=
  readAt e.rawbytes off len s

/-- Whether the file has the other byte order than the host. -/
def swaps (env : Env) (e : Elf) : Bool := decide (e.eByteorder ≠ env.byteorder)

/-! ### Assignments -/

@[simps] def setClass (e : Elf) (ec : ElfClass) : Elf := { e with eClass := some ec }

@[simps] def setVersion (e : Elf) (v : Nat) : Elf := { e with eVersion := v }

@[simps] def setByteorder (e : Elf) (b : UInt8) : Elf := { e with eByteorder := b }

@[simps] def setEhdr (e : Elf) (h : Ehdr) : Elf := { e with eEhdr := some h }

@[simps] def setPhdr (e : Elf) (ps : Option (List Phdr)) : Elf := { e with ePhdr := ps }

@[simps] def setScn (e : Elf) (l : List Scn) : Elf := { e with eScn := l }

@[simps] def setCounts (e : Elf) (nphdr nscn strndx : Nat) : Elf :=
  { e with eNphdr := nphdr, eNscn := nscn, eStrndx := strndx }

@[simps] def setFlags (e : Elf) (flags : Flags) : Elf := { e with eFlags := flags }

section Frame

variable (e : Elf)

@[simp] theorem rawbytes_setClass (ec : ElfClass) : (e.setClass ec).rawbytes = e.rawbytes := rfl
@[simp] theorem rawbytes_setByteorder (b : UInt8) : (e.setByteorder b).rawbytes = e.rawbytes := rfl
@[simp] theorem rawbytes_setEhdr (h : Ehdr) : (e.setEhdr h).rawbytes = e.rawbytes := rfl
@[simp] theorem rawbytes_setPhdr (ps : Option (List Phdr)) : (e.setPhdr ps).rawbytes = e.rawbytes := rfl
@[simp] theorem rawbytes_setScn (l : List Scn) : (e.setScn l).rawbytes = e.rawbytes := rfl
@[simp] theorem rawbytes_setCounts (a b c : Nat) : (e.setCounts a b c).rawbytes = e.rawbytes := rfl
@[simp] theorem rawbytes_setFlags (f : Flags) : (e.setFlags f).rawbytes = e.rawbytes := rfl

@[simp] theorem rawsize_setClass (ec : ElfClass) : (e.setClass ec).rawsize = e.rawsize := rfl
@[simp] theorem rawsize_setByteorder (b : UInt8) : (e.setByteorder b).rawsize = e.rawsize := rfl
@[simp] theorem rawsize_setEhdr (h : Ehdr) : (e.setEhdr h).rawsize = e.rawsize := rfl
@[simp] theorem rawsize_setPhdr (ps : Option (List Phdr)) : (e.setPhdr ps).rawsize = e.rawsize := rfl
@[simp] theorem rawsize_setScn (l : List Scn) : (e.setScn l).rawsize = e.rawsize := rfl
@[simp] theorem rawsize_setCounts (a b c : Nat) : (e.setCounts a b c).rawsize = e.rawsize := rfl
@[simp] theorem rawsize_setFlags (f : Flags) : (e.setFlags f).rawsize = e.rawsize := rfl

variable (env : Env)

@[simp] theorem swaps_setClass (ec : ElfClass) : (e.setClass ec).swaps env = e.swaps env := rfl
@[simp] theorem swaps_setEhdr (h : Ehdr) : (e.setEhdr h).swaps env = e.swaps env := rfl
@[simp] theorem swaps_setPhdr (ps : Option (List Phdr)) : (e.setPhdr ps).swaps env = e.swaps env := rfl
@[simp] theorem swaps_setScn (l : List Scn) : (e.setScn l).swaps env = e.swaps env := rfl
@[simp] theorem swaps_setCounts (a b c : Nat) : (e.setCounts a b c).swaps env = e.swaps env := rfl
@[simp] theorem swaps_setFlags (f : Flags) : (e.setFlags f).swaps env = e.swaps env := rfl

/-- Storing the class again changes nothing. -/
theorem setClass_self {e : Elf} {ec : ElfClass} (h : e.eClass = some ec) : e.setClass ec = e := by
  cases e
  cases h
  rfl

end Frame

theorem length_rawbytes (e : Elf) : e.rawbytes.length = e.rawsize := by
  unfold rawbytes rawsize
  cases e.eRawfile <;> rfl

theorem rawsize_lt (e : Elf) : e.rawsize < 2 ^ 64 := by
  unfold rawsize
  cases e.eRawfile with
  | none => decide
  | some im => exact im.size_lt

end Elf

/-- `_libelf_allocate_scn`: a zero section with the given index. -/
def allocateScn (ndx : Nat) : Scn :=
  ⟨Shdr.zero, [], [], false, ndx, 0, 0, 0⟩

def allocateElf : Elf :=
  { eByteorder := 0
    eClass := none
    eCmd := .read
    eFd := none
    eFlags := ⟨false, false, false, false⟩
    eRawfile := none
    eVersion := evCurrent
    eEhdr := none
    ePhdr := none
    eScn := []
    eNphdr := 0
    eNscn := 0
    eStrndx := 0 }

def isElf (bytes : List UInt8) : Bool :=
  decide (window bytes 0 4 = [0x7F, 0x45, 0x4C, 0x46])

/-- `_libelf_memory(image, sz, 1)` on an image that is no archive: the descriptor of an ELF object,
an error, or `none` for a descriptor of kind `ELF_K_NONE`. -/
def libelfMemory (im : Image) : Except ElfError (Option Elf) :=
  if eiNident < im.bytes.length ∧ isElf im.bytes then
    let byteorder := im.bytes.getD 5 0
    let version := im.bytes.getD 6 0
    if version.toNat > evCurrent then .error .VERSION
    else
      match ElfClass.ofByte (im.bytes.getD 4 0) with
      | none => .error .HEADER
      | some ec =>
        if byteorder ≠ 1 ∧ byteorder ≠ 2 then .error .HEADER
        else
          .ok (some { allocateElf with
            eRawfile := some im
            eByteorder := byteorder
            eClass := some ec
            eVersion := version.toNat })
  else .ok none

/-- `_libelf_open_object(fd, c, 1)` on a regular file with the given contents; `addr` is where the
contents are mapped. -/
def openObject (env : Env) (c : Cmd) (im : Image) : Except ElfError (Option Elf) :=
  match c with
  | .write =>
    .ok (some { allocateElf with
      eByteorder := env.byteorder
      eFd := some im.bytes
      eCmd := .write })
  | c =>
    if im.bytes = [] then .error .ARGUMENT
    else
      (libelfMemory im).map fun e => e.map fun e =>
        { e with
          eFlags := { e.eFlags with rawfileOwned := true }
          eFd := some im.bytes
          eCmd := c }

/-! ## What a new descriptor is like -/

/-- A descriptor read from an image has nothing loaded yet. -/
theorem libelfMemory_eq_some {im : Image} {e : Elf} (h : libelfMemory im = .ok (some e)) :
    eiNident < im.bytes.length ∧ ∃ ec,
      ElfClass.ofByte (im.bytes.getD 4 0) = some ec ∧
      (im.bytes.getD 6 0).toNat ≤ evCurrent ∧
      e = { allocateElf with
        eRawfile := some im
        eByteorder := im.bytes.getD 5 0
        eClass := some ec
        eVersion := (im.bytes.getD 6 0).toNat } := by
  unfold libelfMemory at h
  split at h
  · next hin =>
    dsimp only at h
    split at h
    · cases h
    · next hver =>
      split at h
      · cases h
      · next ec hec =>
        split at h
        · cases h
        · cases h
          exact ⟨hin.1, ec, hec, Nat.le_of_not_lt hver, rfl⟩
  · cases h

end LibElf.Toolchain
