import LibElf.Toolchain.Records

/-!
# ELF types of elfutils

The enumerations of `libelf.h` and `libelfP.h`, as far as the modelled functions test or set them.
Classes and header records are those of the ELF format and shared with the other library.

1. `Cmd`, `Kind`, `ElfError` and `ElfType`.
2. `ehdrSize`, `phdrSize` and `shdrSize`, the sizes of the three headers, which are the same in
   memory and in a file.
3. `EhdrField`, where the fields of an executable header stand that are read in place.
-/

namespace LibElf.Elfutils

open Toolchain (ElfClass Ehdr Phdr Shdr)

/-- The commands `ELF_C_*` that open a descriptor, and `ELF_C_NULL`. -/
inductive Cmd
  | null | read | rdwr | write | readMmap | rdwrMmap | writeMmap | readMmapPrivate
deriving DecidableEq, Repr

/-- The kinds `ELF_K_*` the library tells apart. -/
inductive Kind
  | none | ar | elf
deriving DecidableEq, Repr

/-- The error codes `ELF_E_*`; `NOERROR` stands for a failure that sets no error. -/
inductive ElfError
  | NOERROR | UNKNOWN_TYPE | INVALID_HANDLE | DEST_SIZE | INVALID_ENCODING | INVALID_FILE
  | INVALID_ELF | INVALID_OP | INVALID_CMD | RANGE | ARCHIVE_FMAG | INVALID_ARCHIVE | READ_ERROR
  | INVALID_CLASS | INVALID_INDEX | INVALID_OPERAND | INVALID_SECTION | WRONG_ORDER_EHDR
  | FD_DISABLED | FD_MISMATCH | DATA_MISMATCH | INVALID_SECTION_HEADER | INVALID_DATA
  | INVALID_PHDR | NO_PHDR | OFFSET_RANGE | NO_ARCHIVE | NO_INDEX | UNKNOWN_COMPRESSION_TYPE
  | INVALID_ALIGN | DECOMPRESS_ERROR | INVALID_SECTION_FLAGS | INVALID_SECTION_TYPE
  | NOT_COMPRESSED | NOT_NUL_SECTION | UNKNOWN_VERSION | SECTION_TOO_SMALL | GROUP_NOT_REL
  | INVALID_SHENTSIZE | DATA_ENCODING
deriving DecidableEq, Repr

/-- The data types `ELF_T_*`, in the order of `libelf.h`. -/
inductive ElfType
  | byte | addr | dyn | ehdr | half | off | phdr | rela | rel | shdr | sword | sym | word | xword
  | sxword | vdef | vdaux | vneed | vnaux | nhdr | syminfo | move | lib | gnuhash | auxv | chdr
  | nhdr8
deriving DecidableEq, Repr

/-! ## Constants -/

def evCurrent : UInt8 := 1
def eiClass : Nat := 4
def eiData : Nat := 5
def eiVersion : Nat := 6
def eiNident : Nat := 16
def sarmag : Nat := 8
def shnXindex : Nat := 0xFFFF
def pnXnum : Nat := 0xFFFF

/-- `ARMAG`, the string `!<arch>` and a newline. -/
def armag : List UInt8 := [0x21, 0x3C, 0x61, 0x72, 0x63, 0x68, 0x3E, 0x0A]

def elfmag : List UInt8 := [0x7F, 0x45, 0x4C, 0x46]

/-- The byte order that a byte of `e_ident[EI_DATA]` stands for. -/
def dataOrder (b : UInt8) : Option ByteOrder :=
  if b = 1 then some .little else if b = 2 then some .big else none

/-! ## Header sizes -/

/-- `sizeof (ElfXX_Ehdr)`. -/
def ehdrSize : ElfClass → Nat
  | .elfclass32 => 52
  | .elfclass64 => 64

/-- `sizeof (ElfXX_Phdr)`. -/
def phdrSize : ElfClass → Nat
  | .elfclass32 => 32
  | .elfclass64 => 56

/-- `sizeof (ElfXX_Shdr)`. -/
def shdrSize : ElfClass → Nat
  | .elfclass32 => 40
  | .elfclass64 => 64

/-- The fields of the executable header that the library reads one at a time. -/
inductive EhdrField
  | ident | machine | phoff | shoff | phnum | shnum | shstrndx
  /-- The whole header. -/
  | all
deriving DecidableEq

def EhdrField.extent : ElfClass → EhdrField → Nat × Nat
  | _, .ident => (0, 16)
  | _, .machine => (18, 2)
  | .elfclass32, .phoff => (28, 4)
  | .elfclass64, .phoff => (32, 8)
  | .elfclass32, .shoff => (32, 4)
  | .elfclass64, .shoff => (40, 8)
  | .elfclass32, .phnum => (44, 2)
  | .elfclass64, .phnum => (56, 2)
  | .elfclass32, .shnum => (48, 2)
  | .elfclass64, .shnum => (60, 2)
  | .elfclass32, .shstrndx => (50, 2)
  | .elfclass64, .shstrndx => (62, 2)
  | ec, .all => (0, ehdrSize ec)

/-- Every field lies in the header. -/
theorem EhdrField.extent_le (ec : ElfClass) (f : EhdrField) :
    (f.extent ec).1 + (f.extent ec).2 ≤ ehdrSize ec := by
  cases ec <;> cases f <;> decide

/-- The offset of `sh_size` in a section header, and its width. -/
def shSizeExtent : ElfClass → Nat × Nat
  | .elfclass32 => (20, 4)
  | .elfclass64 => (32, 8)

end LibElf.Elfutils
