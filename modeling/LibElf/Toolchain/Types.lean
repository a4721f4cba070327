import LibElf.Base.Record

/-!
# ELF types and their sizes

The enumerations of `libelf.h`, the structure definitions of `elf_types.m4`, and the four tables
that follow from them or stand beside them: the file size, the memory size and the two alignments
of each type.

1. `ElfClass`, `ElfError`, `ElfType`, and the constants of `elfdefinitions.h` the library tests.
2. `structDef`, the fields of each fixed-size type; `fsize` and `msize` are computed from it.
3. `malign` and `falign`, the tables of `libelf_align.c`.
4. `xlateShtype`, the type of the contents of a section.
-/

namespace LibElf.Toolchain

inductive ElfClass
  | elfclass32
  | elfclass64
deriving DecidableEq, Repr

/-- The bits of an address, an offset or a size of the class. -/
def ElfClass.width : ElfClass → Nat
  | .elfclass32 => 32
  | .elfclass64 => 64

/-- The value of `e_ident[EI_CLASS]`. -/
def ElfClass.toByte : ElfClass → UInt8
  | .elfclass32 => 1
  | .elfclass64 => 2

def ElfClass.ofByte (b : UInt8) : Option ElfClass :=
  if b = 1 then some .elfclass32 else if b = 2 then some .elfclass64 else none

@[simp] theorem ElfClass.ofByte_toByte (ec : ElfClass) : ElfClass.ofByte ec.toByte = some ec := by
  cases ec <;> rfl

/-- Read a header field: the fields of class 32 structures have 32 bits. -/
def ElfClass.get (ec : ElfClass) (x : UInt64) : Nat := x.toNat % 2 ^ ec.width

def ElfClass.put (ec : ElfClass) (n : Nat) : UInt64 := UInt64.ofNat (n % 2 ^ ec.width)

theorem ElfClass.width_le (ec : ElfClass) : ec.width ≤ 64 := by
  cases ec <;> decide

theorem ElfClass.get_lt_width (ec : ElfClass) (x : UInt64) : ec.get x < 2 ^ ec.width :=
  Nat.mod_lt _ (Nat.two_pow_pos _)

theorem ElfClass.get_lt (ec : ElfClass) (x : UInt64) : ec.get x < 2 ^ 64 :=
  Nat.lt_of_lt_of_le (ec.get_lt_width x) (Nat.pow_le_pow_right (by decide) ec.width_le)

@[simp] theorem ElfClass.get_put (ec : ElfClass) (n : Nat) : ec.get (ec.put n) = n % 2 ^ ec.width := by
  have hle : 2 ^ ec.width ≤ 2 ^ 64 := Nat.pow_le_pow_right (by decide) ec.width_le
  have hlt : n % 2 ^ ec.width < 2 ^ 64 :=
    Nat.lt_of_lt_of_le (Nat.mod_lt _ (Nat.two_pow_pos _)) hle
  unfold ElfClass.get ElfClass.put
  rw [UInt64.toNat_ofNat', Nat.mod_eq_of_lt hlt, Nat.mod_mod]

@[simp] theorem ElfClass.get_elfclass64 (x : UInt64) : ElfClass.elfclass64.get x = x.toNat :=
  Nat.mod_eq_of_lt x.toNat_lt

/-- The error codes `ELF_E_*`; `NONE` stands for a failure that sets no error. -/
inductive ElfError
  | NONE | ARCHIVE | ARGUMENT | CLASS | DATA | HEADER | LAYOUT | MODE | RANGE | RESOURCE
  | SECTION | SEQUENCE | UNIMPL | VERSION
deriving DecidableEq, Repr

inductive ElfType
  | addr | byte | cap | dyn | ehdr | half | lword | move | movep | note | off | phdr | rel | rela
  | shdr | sword | sxword | syminfo | sym | vdef | vneed | word | xword | gnuhash
deriving DecidableEq, Repr

/-! ## Constants -/

def evCurrent : Nat := 1
def shnLoreserve : Nat := 0xFF00
def shnXindex : Nat := 0xFFFF
def pnXnum : Nat := 0xFFFF
def eiNident : Nat := 16
def shtNull : UInt32 := 0
def shtNobits : UInt32 := 8
def shtLoos : UInt32 := 0x60000000

/-! ## Structure definitions -/

theorem eiMag0_lt : 0 < 16 := by decide
theorem eiData_lt : 5 < 16 := by decide

inductive Basic
  | IDENT | BYTE | HALF | WORD | SWORD | LWORD | XWORD | SXWORD | ADDR | OFF

/-- The size of a basic type; `IDENT` is a string of bytes. -/
def Basic.field : ElfClass → Basic → Field
  | _, .IDENT => ⟨16, false, by decide⟩
  | _, .BYTE => ⟨1, true, by decide⟩
  | _, .HALF => ⟨2, true, by decide⟩
  | _, .WORD => ⟨4, true, by decide⟩
  | _, .SWORD => ⟨4, true, by decide⟩
  | _, .LWORD => ⟨8, true, by decide⟩
  | _, .XWORD => ⟨8, true, by decide⟩
  | _, .SXWORD => ⟨8, true, by decide⟩
  | .elfclass32, .ADDR => ⟨4, true, by decide⟩
  | .elfclass32, .OFF => ⟨4, true, by decide⟩
  | .elfclass64, .ADDR => ⟨8, true, by decide⟩
  | .elfclass64, .OFF => ⟨8, true, by decide⟩

/-- The members of a fixed-size type, in the order of its file representation. A primitive type
has one member. Types of variable size and types the class does not have are `none`. -/
def structMembers : ElfClass → ElfType → Option (List Basic)
  | _, .addr => some [.ADDR]
  | .elfclass32, .cap => some [.WORD, .WORD]
  | .elfclass64, .cap => some [.XWORD, .XWORD]
  | .elfclass32, .dyn => some [.SWORD, .WORD]
  | .elfclass64, .dyn => some [.SXWORD, .XWORD]
  | _, .ehdr => some [.IDENT, .HALF, .HALF, .WORD, .ADDR, .OFF, .OFF, .WORD, .HALF, .HALF, .HALF,
      .HALF, .HALF, .HALF]
  | _, .half => some [.HALF]
  | _, .lword => some [.LWORD]
  | .elfclass32, .move => some [.LWORD, .WORD, .WORD, .HALF, .HALF]
  | .elfclass64, .move => some [.LWORD, .XWORD, .XWORD, .HALF, .HALF]
  | _, .off => some [.OFF]
  | .elfclass32, .phdr => some [.WORD, .OFF, .ADDR, .ADDR, .WORD, .WORD, .WORD, .WORD]
  | .elfclass64, .phdr => some [.WORD, .WORD, .OFF, .ADDR, .ADDR, .XWORD, .XWORD, .XWORD]
  | .elfclass32, .rel => some [.ADDR, .WORD]
  | .elfclass64, .rel => some [.ADDR, .XWORD]
  | .elfclass32, .rela => some [.ADDR, .WORD, .SWORD]
  | .elfclass64, .rela => some [.ADDR, .XWORD, .SXWORD]
  | .elfclass32, .shdr => some [.WORD, .WORD, .WORD, .ADDR, .OFF, .WORD, .WORD, .WORD, .WORD, .WORD]
  | .elfclass64, .shdr => some [.WORD, .WORD, .XWORD, .ADDR, .OFF, .XWORD, .WORD, .WORD, .XWORD,
      .XWORD]
  | _, .sword => some [.SWORD]
  | .elfclass64, .sxword => some [.SXWORD]
  | .elfclass32, .sym => some [.WORD, .ADDR, .WORD, .BYTE, .BYTE, .HALF]
  | .elfclass64, .sym => some [.WORD, .BYTE, .BYTE, .HALF, .ADDR, .XWORD]
  | _, .syminfo => some [.HALF, .HALF]
  | _, .word => some [.WORD]
  | .elfclass64, .xword => some [.XWORD]
  | _, .byte => some [.BYTE]
  | _, .gnuhash => none
  | _, .movep => none
  | _, .note => none
  | _, .vdef => none
  | _, .vneed => none
  | .elfclass32, .sxword => none
  | .elfclass32, .xword => none

def structDef (ec : ElfClass) (t : ElfType) : Option (List Field) :=
  (structMembers ec t).map fun ms => ms.map (Basic.field ec)

/-- The types whose representation has a variable size: their tables count bytes. -/
def ElfType.isVariable : ElfType → Bool
  | .gnuhash => true
  | .note => true
  | .vdef => true
  | .vneed => true
  | _ => false

/-- The file size of one object of a type, 0 for a type that is not implemented. -/
def fsize (t : ElfType) (ec : ElfClass) : Nat :=
  if t.isVariable then 1
  else match structDef ec t with
    | some fs => packedSize fs
    | none => 0

def msize (t : ElfType) (ec : ElfClass) : Nat :=
  if t.isVariable then 1
  else match structDef ec t with
    | some fs => naturalSize fs
    | none => 0

def libelfFsize (t : ElfType) (ec : ElfClass) (count : Nat) : Nat := wrap (fsize t ec * count)

/-! ## Alignments -/

/-- The table of memory alignments, for a host with natural alignments. -/
def malign : ElfType → ElfClass → Nat
  | .addr, .elfclass32 => 4 | .addr, .elfclass64 => 8
  | .byte, _ => 1
  | .cap, .elfclass32 => 4 | .cap, .elfclass64 => 8
  | .dyn, .elfclass32 => 4 | .dyn, .elfclass64 => 8
  | .ehdr, .elfclass32 => 4 | .ehdr, .elfclass64 => 8
  | .half, _ => 2
  | .lword, _ => 8
  | .move, _ => 8
  | .movep, _ => 0
  | .note, _ => 4
  | .off, .elfclass32 => 4 | .off, .elfclass64 => 8
  | .phdr, .elfclass32 => 4 | .phdr, .elfclass64 => 8
  | .rel, .elfclass32 => 4 | .rel, .elfclass64 => 8
  | .rela, .elfclass32 => 4 | .rela, .elfclass64 => 8
  | .shdr, .elfclass32 => 4 | .shdr, .elfclass64 => 8
  | .sword, _ => 4
  | .sxword, .elfclass32 => 0 | .sxword, .elfclass64 => 8
  | .sym, .elfclass32 => 4 | .sym, .elfclass64 => 8
  | .syminfo, _ => 2
  | .vdef, _ => 4
  | .vneed, _ => 4
  | .word, _ => 4
  | .xword, .elfclass32 => 0 | .xword, .elfclass64 => 8
  | .gnuhash, .elfclass32 => 4 | .gnuhash, .elfclass64 => 8

/-- The table of file alignments; `none` is a type outside the table. -/
def falign : Option ElfType → ElfClass → Nat
  | none, _ => 0
  | some .addr, .elfclass32 => 4 | some .addr, .elfclass64 => 8
  | some .byte, _ => 1
  | some .cap, .elfclass32 => 4 | some .cap, .elfclass64 => 8
  | some .dyn, .elfclass32 => 4 | some .dyn, .elfclass64 => 8
  | some .ehdr, .elfclass32 => 4 | some .ehdr, .elfclass64 => 8
  | some .half, _ => 2
  | some .lword, _ => 8
  | some .move, _ => 8
  | some .movep, _ => 0
  | some .note, _ => 4
  | some .off, .elfclass32 => 4 | some .off, .elfclass64 => 8
  | some .phdr, .elfclass32 => 4 | some .phdr, .elfclass64 => 8
  | some .rel, .elfclass32 => 4 | some .rel, .elfclass64 => 8
  | some .rela, .elfclass32 => 4 | some .rela, .elfclass64 => 8
  | some .shdr, .elfclass32 => 4 | some .shdr, .elfclass64 => 8
  | some .sword, _ => 4
  | some .sxword, .elfclass32 => 0 | some .sxword, .elfclass64 => 8
  | some .sym, .elfclass32 => 4 | some .sym, .elfclass64 => 8
  | some .syminfo, _ => 2
  | some .vdef, _ => 4
  | some .vneed, _ => 4
  | some .word, _ => 4
  | some .xword, .elfclass32 => 0 | some .xword, .elfclass64 => 8
  | some .gnuhash, .elfclass32 => 4 | some .gnuhash, .elfclass64 => 8

/-! ## Section types -/

/-- The cases of the switch in `_libelf_xlate_shtype`. -/
def shtypeCases : List (UInt32 × ElfType) :=
  [(6, .dyn), -- SHT_DYNAMIC
   (11, .sym), -- SHT_DYNSYM
   (15, .addr), -- SHT_FINI_ARRAY
   (0x6FFFFFF6, .gnuhash), -- SHT_GNU_HASH
   (0x6FFFFFF7, .word), -- SHT_GNU_LIBLIST
   (17, .word), -- SHT_GROUP
   (5, .word), -- SHT_HASH
   (14, .addr), -- SHT_INIT_ARRAY
   (8, .byte), -- SHT_NOBITS
   (7, .note), -- SHT_NOTE
   (16, .addr), -- SHT_PREINIT_ARRAY
   (1, .byte), -- SHT_PROGBITS
   (9, .rel), -- SHT_REL
   (4, .rela), -- SHT_RELA
   (3, .byte), -- SHT_STRTAB
   (2, .sym), -- SHT_SYMTAB
   (18, .word), -- SHT_SYMTAB_SHNDX
   (0x6FFFFFF4, .byte), -- SHT_SUNW_dof
   (0x6FFFFFFA, .move), -- SHT_SUNW_move
   (0x6FFFFFFC, .syminfo), -- SHT_SUNW_syminfo
   (0x6FFFFFFD, .vdef), -- SHT_SUNW_verdef
   (0x6FFFFFFE, .vneed), -- SHT_SUNW_verneed
   (0x6FFFFFFF, .half)] -- SHT_SUNW_versym

/-- `_libelf_xlate_shtype`; `none` is the value -1 of an unsupported type. -/
def xlateShtype (sht : UInt32) : Option ElfType :=
  match shtypeCases.find? fun p => p.1 = sht with
  | some p => some p.2
  | none => if shtLoos ≤ sht then some .byte else none

/-! ## Facts about the tables -/

/-- The translators and the two size tables know the same types. -/
theorem fsize_eq_zero_iff (t : ElfType) (ec : ElfClass) : fsize t ec = 0 ↔ msize t ec = 0 := by
  cases t <;> cases ec <;> decide

theorem msize_lt (t : ElfType) (ec : ElfClass) : msize t ec ≤ 64 := by
  cases t <;> cases ec <;> decide

theorem fsize_le_msize (t : ElfType) (ec : ElfClass) : fsize t ec ≤ msize t ec := by
  cases t <;> cases ec <;> decide

theorem malign_pos {t : ElfType} {ec : ElfClass} (h : 0 < fsize t ec) : 0 < malign t ec := by
  cases t <;> cases ec <;> first
    | decide
    | exact absurd h (by decide)

@[simp] theorem fsize_byte (ec : ElfClass) : fsize .byte ec = 1 := by
  cases ec <;> decide

@[simp] theorem msize_byte (ec : ElfClass) : msize .byte ec = 1 := by
  cases ec <;> decide

theorem fsize_ehdr_pos (ec : ElfClass) : 0 < fsize .ehdr ec := by
  cases ec <;> decide

theorem fsize_phdr_pos (ec : ElfClass) : 0 < fsize .phdr ec := by
  cases ec <;> decide

theorem fsize_shdr_pos (ec : ElfClass) : 0 < fsize .shdr ec := by
  cases ec <;> decide

/-- The type of the contents of a section is one of the cases, or plain bytes. -/
theorem xlateShtype_mem {sht : UInt32} {t : ElfType} (h : xlateShtype sht = some t) :
    t ∈ shtypeCases.map Prod.snd := by
  unfold xlateShtype at h
  split at h
  · next p hp =>
    cases h
    exact List.mem_map_of_mem (List.mem_of_find?_eq_some hp)
  · split at h
    · cases h
      decide
    · cases h

/-- The contents of a section have an alignment. -/
theorem falign_pos {sht : UInt32} {t : ElfType} (h : xlateShtype sht = some t) (ec : ElfClass) :
    0 < falign (some t) ec := by
  have hall : ∀ t ∈ shtypeCases.map Prod.snd, 0 < falign (some t) .elfclass32 ∧
      0 < falign (some t) .elfclass64 := by
    decide
  have := hall t (xlateShtype_mem h)
  cases ec with
  | elfclass32 => exact this.1
  | elfclass64 => exact this.2

end LibElf.Toolchain
