import LibElf.Base.Table
import LibElf.Toolchain.Types

/-!
# The header records

The executable header, the program header and the section header, in memory and in a file. One
record type serves both classes, with fields as wide as those of the class-independent API; a
class 32 structure holds the low 32 bits of the fields that are narrower there.

1. `Ehdr`, `Phdr`, `Shdr`, and `toMem` and `ofMem`, their memory representation.
2. `Ehdr.ofValues_values` and its siblings: a record is its field values, cut to the class by
   `narrow`.
3. `Ehdr.toFile` and `Ehdr.ofFile`, what the translators make of the header and of its file
   representation, with `Ehdr.ofFile_toFile` and its siblings.
-/

namespace LibElf.Toolchain

/-- `unsigned char e_ident[EI_NIDENT]`. -/
abbrev Ident := Vector UInt8 16

/-- The bytes of `e_ident` as one number. -/
def Ident.value (id : Ident) : Nat := ofLeBytes id.toList

/-- `e_ident` from its bytes. -/
def Ident.ofBytes (bs : List UInt8) : Ident := Vector.ofFn fun i => bs.getD i 0

structure Ehdr where
  eIdent : Ident
  eType : UInt16
  eMachine : UInt16
  eVersion : UInt32
  eEntry : UInt64
  ePhoff : UInt64
  eShoff : UInt64
  eFlags : UInt32
  eEhsize : UInt16
  ePhentsize : UInt16
  ePhnum : UInt16
  eShentsize : UInt16
  eShnum : UInt16
  eShstrndx : UInt16
deriving DecidableEq

structure Phdr where
  pType : UInt32
  pFlags : UInt32
  pOffset : UInt64
  pVaddr : UInt64
  pPaddr : UInt64
  pFilesz : UInt64
  pMemsz : UInt64
  pAlign : UInt64
deriving DecidableEq

structure Shdr where
  shName : UInt32
  shType : UInt32
  shFlags : UInt64
  shAddr : UInt64
  shOffset : UInt64
  shSize : UInt64
  shLink : UInt32
  shInfo : UInt32
  shAddralign : UInt64
  shEntsize : UInt64
deriving DecidableEq

/-- The fields that `calloc` leaves in a header. -/
def Ehdr.zero : Ehdr := ⟨Vector.replicate 16 0, 0, 0, 0, 0, 0, 0, 0, 0, 0, 0, 0, 0, 0⟩

def Phdr.zero : Phdr := ⟨0, 0, 0, 0, 0, 0, 0, 0⟩

def Shdr.zero : Shdr := ⟨0, 0, 0, 0, 0, 0, 0, 0, 0, 0⟩

def ElfClass.narrow (ec : ElfClass) (x : UInt64) : UInt64 := ec.put (ec.get x)

@[simp] theorem ElfClass.narrow_elfclass64 (x : UInt64) : ElfClass.elfclass64.narrow x = x := by
  have hlt : x.toNat % 2 ^ 64 = x.toNat := Nat.mod_eq_of_lt x.toNat_lt
  show UInt64.ofNat (x.toNat % 2 ^ 64 % 2 ^ 64) = x
  rw [hlt, hlt, UInt64.ofNat_toNat]

@[simp] theorem ElfClass.get_narrow (ec : ElfClass) (x : UInt64) : ec.get (ec.narrow x) = ec.get x := by
  rw [ElfClass.narrow, ElfClass.get_put, Nat.mod_eq_of_lt (ec.get_lt_width x)]

/-! ## Field values -/

/-- The fields of a header, those of a fixed-size type. -/
def fieldsOf (t : ElfType) (ec : ElfClass) : List Field := (structDef ec t).getD []

namespace Ehdr

/-- The values of the fields, in the order of the file. -/
def values (ec : ElfClass) (h : Ehdr) : List Nat :=
  [Ident.value h.eIdent, h.eType.toNat, h.eMachine.toNat, h.eVersion.toNat, ec.get h.eEntry,
    ec.get h.ePhoff, ec.get h.eShoff, h.eFlags.toNat, h.eEhsize.toNat, h.ePhentsize.toNat,
    h.ePhnum.toNat, h.eShentsize.toNat, h.eShnum.toNat, h.eShstrndx.toNat]

def ofValues (ec : ElfClass) : List Nat → Ehdr
  | [ident, type, machine, version, entry, phoff, shoff, flags, ehsize, phentsize, phnum, shentsize,
      shnum, shstrndx] =>
    ⟨Ident.ofBytes (leBytes 16 ident), .ofNat type, .ofNat machine, .ofNat version, ec.put entry,
      ec.put phoff, ec.put shoff, .ofNat flags, .ofNat ehsize, .ofNat phentsize, .ofNat phnum,
      .ofNat shentsize, .ofNat shnum, .ofNat shstrndx⟩
  | _ => zero

/-- The header as a structure of the class holds it. -/
def narrow (ec : ElfClass) (h : Ehdr) : Ehdr :=
  { h with eEntry := ec.narrow h.eEntry, ePhoff := ec.narrow h.ePhoff, eShoff := ec.narrow h.eShoff }

end Ehdr

namespace Phdr

/-- The values of the fields, in the order of the file; `p_flags` moves with the class. -/
def values : ElfClass → Phdr → List Nat
  | .elfclass32, p =>
    let get := ElfClass.elfclass32.get
    [p.pType.toNat, get p.pOffset, get p.pVaddr, get p.pPaddr, get p.pFilesz, get p.pMemsz,
      p.pFlags.toNat, get p.pAlign]
  | .elfclass64, p =>
    let get := ElfClass.elfclass64.get
    [p.pType.toNat, p.pFlags.toNat, get p.pOffset, get p.pVaddr, get p.pPaddr, get p.pFilesz,
      get p.pMemsz, get p.pAlign]

def ofValues : ElfClass → List Nat → Phdr
  | .elfclass32, [type, offset, vaddr, paddr, filesz, memsz, flags, align] =>
    let put := ElfClass.elfclass32.put
    ⟨.ofNat type, .ofNat flags, put offset, put vaddr, put paddr, put filesz, put memsz, put align⟩
  | .elfclass64, [type, flags, offset, vaddr, paddr, filesz, memsz, align] =>
    let put := ElfClass.elfclass64.put
    ⟨.ofNat type, .ofNat flags, put offset, put vaddr, put paddr, put filesz, put memsz, put align⟩
  | _, _ => zero

/-- The program header as a structure of the class holds it. -/
def narrow (ec : ElfClass) (p : Phdr) : Phdr :=
  ⟨p.pType, p.pFlags, ec.narrow p.pOffset, ec.narrow p.pVaddr, ec.narrow p.pPaddr,
    ec.narrow p.pFilesz, ec.narrow p.pMemsz, ec.narrow p.pAlign⟩

end Phdr

namespace Shdr

/-- The values of the fields, in the order of the file. -/
def values (ec : ElfClass) (s : Shdr) : List Nat :=
  [s.shName.toNat, s.shType.toNat, ec.get s.shFlags, ec.get s.shAddr, ec.get s.shOffset,
    ec.get s.shSize, s.shLink.toNat, s.shInfo.toNat, ec.get s.shAddralign, ec.get s.shEntsize]

def ofValues (ec : ElfClass) : List Nat → Shdr
  | [name, type, flags, addr, offset, size, link, info, addralign, entsize] =>
    ⟨.ofNat name, .ofNat type, ec.put flags, ec.put addr, ec.put offset, ec.put size, .ofNat link,
      .ofNat info, ec.put addralign, ec.put entsize⟩
  | _ => zero

/-- The section header as a structure of the class holds it. -/
def narrow (ec : ElfClass) (s : Shdr) : Shdr :=
  { s with
    shFlags := ec.narrow s.shFlags, shAddr := ec.narrow s.shAddr, shOffset := ec.narrow s.shOffset,
    shSize := ec.narrow s.shSize, shAddralign := ec.narrow s.shAddralign,
    shEntsize := ec.narrow s.shEntsize }

end Shdr

/-! ## Values and records -/

@[simp] theorem Ident.ofBytes_leBytes_value (id : Ident) :
    Ident.ofBytes (leBytes 16 (Ident.value id)) = id := by
  have hlen : id.toList.length = 16 := by simp
  have hbytes : leBytes 16 (Ident.value id) = id.toList := by
    have := leBytes_ofLeBytes id.toList
    rwa [hlen] at this
  rw [hbytes]
  ext i hi
  simp [Ident.ofBytes]

theorem Ident.value_lt (id : Ident) : Ident.value id < 256 ^ 16 := by
  have := ofLeBytes_lt id.toList
  rwa [show id.toList.length = 16 by simp] at this

theorem Ehdr.ofValues_values (ec : ElfClass) (h : Ehdr) : ofValues ec (h.values ec) = h.narrow ec := by
  simp [values, ofValues, narrow, ElfClass.narrow]

theorem Phdr.ofValues_values (ec : ElfClass) (p : Phdr) : ofValues ec (p.values ec) = p.narrow ec := by
  cases ec <;> simp [values, ofValues, narrow, ElfClass.narrow]

theorem Shdr.ofValues_values (ec : ElfClass) (s : Shdr) : ofValues ec (s.values ec) = s.narrow ec := by
  simp [values, ofValues, narrow, ElfClass.narrow]

@[simp] theorem Ehdr.narrow_elfclass64 (h : Ehdr) : h.narrow .elfclass64 = h := by simp [narrow]

@[simp] theorem Phdr.narrow_elfclass64 (p : Phdr) : p.narrow .elfclass64 = p := by simp [narrow]

@[simp] theorem Shdr.narrow_elfclass64 (s : Shdr) : s.narrow .elfclass64 = s := by simp [narrow]

theorem Ehdr.fits_values (ec : ElfClass) (h : Ehdr) : fits (fieldsOf .ehdr ec) (h.values ec) = true := by
  have hid := Ident.value_lt h.eIdent
  have hget := fun x => ec.get_lt_width x
  cases ec <;>
    simp_all [values, fits, fieldsOf, structDef, structMembers, Basic.field, ElfClass.width,
      h.eType.toNat_lt, h.eMachine.toNat_lt, h.eVersion.toNat_lt, h.eFlags.toNat_lt,
      h.eEhsize.toNat_lt, h.ePhentsize.toNat_lt, h.ePhnum.toNat_lt, h.eShentsize.toNat_lt,
      h.eShnum.toNat_lt, h.eShstrndx.toNat_lt]

theorem Phdr.fits_values (ec : ElfClass) (p : Phdr) : fits (fieldsOf .phdr ec) (p.values ec) = true := by
  have hget := fun x => ec.get_lt_width x
  cases ec <;>
    simp_all [values, fits, fieldsOf, structDef, structMembers, Basic.field, ElfClass.width,
      p.pType.toNat_lt, p.pFlags.toNat_lt]

theorem Shdr.fits_values (ec : ElfClass) (s : Shdr) : fits (fieldsOf .shdr ec) (s.values ec) = true := by
  have hget := fun x => ec.get_lt_width x
  cases ec <;>
    simp_all [values, fits, fieldsOf, structDef, structMembers, Basic.field, ElfClass.width,
      s.shName.toNat_lt, s.shType.toNat_lt, s.shLink.toNat_lt, s.shInfo.toNat_lt]

/-! ## Memory and file representations -/

section Representation

variable (host : ByteOrder) (swap : Bool) (ec : ElfClass)

def Ehdr.toMem (h : Ehdr) : List UInt8 := encode host (fieldsOf .ehdr ec) (h.values ec)

def Ehdr.ofMem (bs : List UInt8) : Ehdr := ofValues ec (decode host (fieldsOf .ehdr ec) bs)

def Phdr.toMem (p : Phdr) : List UInt8 := encode host (fieldsOf .phdr ec) (p.values ec)

def Phdr.ofMem (bs : List UInt8) : Phdr := ofValues ec (decode host (fieldsOf .phdr ec) bs)

def Shdr.toMem (s : Shdr) : List UInt8 := encode host (fieldsOf .shdr ec) (s.values ec)

def Shdr.ofMem (bs : List UInt8) : Shdr := ofValues ec (decode host (fieldsOf .shdr ec) bs)

/-- The executable header that the translator makes of its file representation. -/
def Ehdr.ofFile (bs : List UInt8) : Ehdr :=
  ofMem host ec (tomObject host swap (fieldsOf .ehdr ec) (zeroObject (fieldsOf .ehdr ec)) bs)

/-- The program header that the translator makes of its file representation. -/
def Phdr.ofFile (bs : List UInt8) : Phdr :=
  ofMem host ec (tomObject host swap (fieldsOf .phdr ec) (zeroObject (fieldsOf .phdr ec)) bs)

/-- The section header that the translator makes of its file representation. -/
def Shdr.ofFile (bs : List UInt8) : Shdr :=
  ofMem host ec (tomObject host swap (fieldsOf .shdr ec) (zeroObject (fieldsOf .shdr ec)) bs)

def Ehdr.toFile (h : Ehdr) : List UInt8 :=
  tofObject host swap (fieldsOf .ehdr ec) (h.toMem host ec)

def Phdr.toFile (p : Phdr) : List UInt8 :=
  tofObject host swap (fieldsOf .phdr ec) (p.toMem host ec)

def Shdr.toFile (s : Shdr) : List UInt8 :=
  tofObject host swap (fieldsOf .shdr ec) (s.toMem host ec)

/-- A record without padding, written to a file and read back, keeps its values. -/
theorem decode_tomObject_tofObject {fs : List Field} {vs : List Nat} (hp : isPacked 0 fs = true)
    (hfit : fits fs vs = true) (hlen : vs.length = fs.length) :
    decode host fs (tomObject host swap fs (zeroObject fs) (tofObject host swap fs (encode host fs vs))) = vs := by
  have henc := length_encode (fileOrder host swap) hlen
  have hdec : decode (fileOrder host swap) fs (encode (fileOrder host swap) fs vs ++ []) = vs :=
    decode_encode _ hfit
  rw [List.append_nil] at hdec
  rw [tofObject_encode host swap hp hlen, decode_tomObject host swap hp henc, hdec]

theorem isPacked_ehdr : isPacked 0 (fieldsOf .ehdr ec) = true := by cases ec <;> decide

theorem isPacked_phdr : isPacked 0 (fieldsOf .phdr ec) = true := by cases ec <;> decide

theorem isPacked_shdr : isPacked 0 (fieldsOf .shdr ec) = true := by cases ec <;> decide

theorem Ehdr.length_values (h : Ehdr) : (h.values ec).length = (fieldsOf .ehdr ec).length := by
  cases ec <;> rfl

theorem Phdr.length_values (p : Phdr) : (p.values ec).length = (fieldsOf .phdr ec).length := by
  cases ec <;> rfl

theorem Shdr.length_values (s : Shdr) : (s.values ec).length = (fieldsOf .shdr ec).length := by
  cases ec <;> rfl

theorem Ehdr.ofFile_toFile (h : Ehdr) : ofFile host swap ec (h.toFile host swap ec) = h.narrow ec := by
  unfold ofFile toFile ofMem toMem
  rw [decode_tomObject_tofObject host swap (isPacked_ehdr ec) (fits_values ec h) (length_values ec h),
    ofValues_values]

theorem Phdr.ofFile_toFile (p : Phdr) : ofFile host swap ec (p.toFile host swap ec) = p.narrow ec := by
  unfold ofFile toFile ofMem toMem
  rw [decode_tomObject_tofObject host swap (isPacked_phdr ec) (fits_values ec p) (length_values ec p),
    ofValues_values]

theorem Shdr.ofFile_toFile (s : Shdr) : ofFile host swap ec (s.toFile host swap ec) = s.narrow ec := by
  unfold ofFile toFile ofMem toMem
  rw [decode_tomObject_tofObject host swap (isPacked_shdr ec) (fits_values ec s) (length_values ec s),
    ofValues_values]

/-- The file representation of a record has the size of the type. -/
theorem Ehdr.length_toMem (h : Ehdr) : (h.toMem host ec).length = msize .ehdr ec := by
  rw [toMem, length_encode host (h.length_values ec)]
  cases ec <;> decide

theorem Phdr.length_toMem (p : Phdr) : (p.toMem host ec).length = msize .phdr ec := by
  rw [toMem, length_encode host (p.length_values ec)]
  cases ec <;> decide

theorem Shdr.length_toMem (s : Shdr) : (s.toMem host ec).length = msize .shdr ec := by
  rw [toMem, length_encode host (s.length_values ec)]
  cases ec <;> decide

theorem length_tofObject_encode {fs : List Field} {vs : List Nat} (hp : isPacked 0 fs = true)
    (hlen : vs.length = fs.length) :
    (tofObject host swap fs (encode host fs vs)).length = packedSize fs := by
  rw [tofObject_encode host swap hp hlen, length_encode _ hlen]

theorem Ehdr.length_toFile (h : Ehdr) : (h.toFile host swap ec).length = fsize .ehdr ec := by
  have := length_tofObject_encode host swap (isPacked_ehdr ec) (length_values ec h)
  cases ec <;> exact this

theorem Phdr.length_toFile (p : Phdr) : (p.toFile host swap ec).length = fsize .phdr ec := by
  have := length_tofObject_encode host swap (isPacked_phdr ec) (length_values ec p)
  cases ec <;> exact this

theorem Shdr.length_toFile (s : Shdr) : (s.toFile host swap ec).length = fsize .shdr ec := by
  have := length_tofObject_encode host swap (isPacked_shdr ec) (length_values ec s)
  cases ec <;> exact this

end Representation

end LibElf.Toolchain
