import LibElf.Base.InPlace
import LibElf.Elfutils.Types

/-!
# The conversion functions

`gelf_xlate.c` and the headers it includes. A conversion function gets a destination, a source and a
number of bytes, and may be called with ranges that overlap, so that both are ranges of one memory
here, at the offsets `d` and `s`. What a function returns is the memory it leaves.

1. `cvtFundamental`, `cvtRecords` and `cvtMove`, the macros `FUNDAMENTAL` and `START` and the record
   whose fields are not those of its structure.
2. `cvtNote`, `cvtVersion` (for `elf_cvt_Verdef` and `elf_cvt_Verneed`), `cvtGnuhash` and `cvtChdr`.
3. `xfct`, the table of conversion functions, and `typeSize`, the sizes of the types.

Conversion is from and to the byte order that the host does not have. Two of the functions walk links
that the section contains and may never come to an end. Their loops get as many passes as there are
offsets and memories: a loop that is still going then has come back to where it was before.
-/

namespace LibElf.Elfutils

open Outcome
open Toolchain (ElfClass Basic)

/-- A conversion of a memory of `n` bytes. -/
abbrev Conv (n : Nat) := Mem n → Outcome ElfError (Mem n) Unit

variable {n : Nat}

/-! ## Fixed-size types -/

/-- `FUNDAMENTAL`: numbers of `w` bytes, upwards or downwards. -/
def cvtFundamental (w d s len : Nat) : Conv n :=
  let count := len / w
  if d < s then forward List.reverse w w count d s
  else backward List.reverse w w (d + len - count * w) (s + len - count * w) count

/-- A number is swapped, `e_ident` is copied. -/
def swapField (f : Field) (bs : List UInt8) : List UInt8 := if f.numeric then bs.reverse else bs

def cvtFields : List Field → Nat → Nat → Conv n
  | [], _, _, m => .ok () m
  | f :: fs, d, s, m =>
    (m.read s f.width).bind fun bs m =>
    (m.write d (swapField f bs)).bind fun _ m =>
    cvtFields fs (d + f.width) (s + f.width) m

/-- `START` to `END`: `count` records. -/
def cvtRecords (fs : List Field) : Nat → Nat → Nat → Conv n
  | 0, _, _, m => .ok () m
  | count + 1, d, s, m =>
    (cvtFields fs d s m).bind fun _ m =>
    cvtRecords fs count (d + packedSize fs) (s + packedSize fs) m

/-- The fields at given offsets and widths of a record. -/
def cvtAt : List (Nat × Nat) → Nat → Nat → Conv n
  | [], _, _, m => .ok () m
  | (off, width) :: fs, d, s, m =>
    (m.read (s + off) width).bind fun bs m =>
    (m.write (d + off) bs.reverse).bind fun _ m =>
    cvtAt fs d s m

/-- The members of an `ElfXX_Move` as they are swapped. `abstract.h` calls `m_info` and `m_poffset`
`Xword`, so that eight bytes are swapped at the offset of a four-byte member of `Elf32_Move`. -/
def moveFields : ElfClass → List (Nat × Nat)
  | .elfclass32 => [(0, 8), (8, 8), (12, 8), (16, 2), (18, 2)]
  | .elfclass64 => [(0, 8), (8, 8), (16, 8), (24, 2), (26, 2)]

/-- `sizeof (ElfXX_Move)`. -/
def moveSize : ElfClass → Nat
  | .elfclass32 => 24
  | .elfclass64 => 32

/-- `ElfXX_cvt_Move`, for `count` records. -/
def cvtMove (ec : ElfClass) : Nat → Nat → Nat → Conv n
  | 0, _, _, m => .ok () m
  | count + 1, d, s, m =>
    (cvtAt (moveFields ec) d s m).bind fun _ m =>
    cvtMove ec count (d + moveSize ec) (s + moveSize ec) m

/-! ## Copies -/

def memmove (d s len : Nat) : Conv n := fun m => (m.read s len).bind fun bs m => m.write d bs

/-- `memcpy`, which may not be used on ranges that overlap. -/
def memcpy (d s len : Nat) : Conv n := fun m =>
  if len ≠ 0 ∧ d < s + len ∧ s < d + len then .stop .overlap else memmove d s len m

/-! ## Notes -/

section Notes

variable (host : ByteOrder)

/-- A 32-bit number in the byte order of the host. -/
def readWord (off : Nat) (m : Mem n) : Outcome ElfError (Mem n) Nat :=
  (m.read off 4).bind fun bs m => .ok (ofBytes host bs) m

/-- The members of an `Elf32_Nhdr`. -/
def nhdrFields : List Field := [⟨4, true, wordWidth_pos⟩, ⟨4, true, wordWidth_pos⟩, ⟨4, true, wordWidth_pos⟩]

/-- `NOTE_ALIGN4` and `NOTE_ALIGN8`. Their masks have 32 bits. -/
def noteAlign (align len : Nat) : Nat := (len + (align - 1)) % 2 ^ 32 / align * align

/-- What is left over is copied as it is. -/
def cvtRest (d s len : Nat) : Conv n := fun m => if 0 < len ∧ s ≠ d then memcpy d s len m else .ok () m

/-- The loop of `elf_cvt_note`. -/
def cvtNotes (align : Nat) (encode : Bool) : Nat → Nat → Nat → Nat → Conv n
  | 0, _, _, _, _ => .stop .divergence
  | fuel + 1, d, s, len, m =>
    if len < 12 then cvtRest d s len m
    else
      (cvtFields nhdrFields d s m).bind fun _ m =>
      let nhdr := if encode then s else d
      (readWord host nhdr m).bind fun namesz m =>
      let nameEnd := noteAlign align (12 + namesz)
      if len < nameEnd ∨ nameEnd < 12 then cvtRest d s len m
      else
        (readWord host (nhdr + 4) m).bind fun descsz m =>
        let noteLen := noteAlign align (nameEnd + descsz)
        if len < noteLen ∨ noteLen < 12 then cvtRest d s len m
        else
          (if s ≠ d then memcpy (d + 12) (s + 12) (noteLen - 12) m else .ok () m).bind fun _ m =>
          cvtNotes align encode fuel (d + noteLen) (s + noteLen) (len - noteLen) m

/-- `elf_cvt_note`. Every pass takes twelve bytes at least. -/
def cvtNote (align : Nat) (encode : Bool) (d s len : Nat) : Conv n :=
  cvtNotes host align encode (len + 1) d s len

end Notes

/-! ## Version definitions and requirements -/

/-- What distinguishes the two sections: the members of the records, and where their links are. -/
structure VersionType where
  defFields : List Field
  defAux : Nat
  defNext : Nat
  auxFields : List Field
  auxNext : Nat

def members (ec : ElfClass) (bs : List Basic) : List Field := bs.map (Basic.field ec)

/-- `GElf_Verdef` and `GElf_Verdaux`. -/
def verdef : VersionType :=
  ⟨members .elfclass64 [.HALF, .HALF, .HALF, .HALF, .WORD, .WORD, .WORD], 12, 16,
    members .elfclass64 [.WORD, .WORD], 4⟩

/-- `GElf_Verneed` and `GElf_Vernaux`. -/
def verneed : VersionType :=
  ⟨members .elfclass64 [.HALF, .HALF, .WORD, .WORD, .WORD], 8, 12,
    members .elfclass64 [.WORD, .HALF, .HALF, .WORD, .WORD], 12⟩

section Versions

variable (host : ByteOrder) (v : VersionType) (encode : Bool)

/-- The loop over the auxiliary records; `true` stands for a return from the whole function. -/
def cvtAux (d s len : Nat) : Nat → Nat → Mem n → Outcome ElfError (Mem n) Bool
  | 0, _, _ => .stop .divergence
  | fuel + 1, off, m =>
    if len < off ∨ len - off < packedSize v.auxFields then .ok true m
    else
      (readWord host (s + off + v.auxNext) m).bind fun next m =>
      (cvtFields v.auxFields (d + off) (s + off) m).bind fun _ m =>
      (readWord host (d + off + v.auxNext) m).bind fun decoded m =>
      -- the condition of the loop looks at the source once more
      (readWord host (s + off + v.auxNext) m).bind fun more m =>
      if more = 0 then .ok false m
      else cvtAux d s len fuel (off + if encode then next else decoded) m

def cvtDefs (d s len : Nat) : Nat → Nat → Conv n
  | 0, _, _ => .stop .divergence
  | fuel + 1, off, m =>
    if len < off ∨ len - off < packedSize v.defFields then .ok () m
    else
      -- decode first if necessary
      (if encode then .ok () m else cvtFields v.defFields (d + off) (s + off) m).bind fun _ m =>
      (readWord host ((if encode then s else d) + off + v.defAux) m).bind fun aux m =>
      (cvtAux host v encode d s len ((len + 1) * 256 ^ n + 1) (off + aux) m).bind fun returned m =>
      if returned then .ok () m
      else
        (readWord host ((if encode then s else d) + off + v.defNext) m).bind fun next m =>
        -- encode now if necessary
        (if encode then cvtFields v.defFields (d + off) (s + off) m else .ok () m).bind fun _ m =>
        (readWord host (s + off + v.defNext) m).bind fun more m =>
        if more = 0 then .ok () m else cvtDefs d s len fuel (off + next) m

/-- `elf_cvt_Verdef` and `elf_cvt_Verneed`. -/
def cvtVersion (d s len : Nat) : Conv n := fun m =>
  if len = 0 then .ok () m
  else
    (memmove d s len m).bind fun _ m =>
    cvtDefs host v encode d s len ((len + 1) * 256 ^ n + 1) 0 m

end Versions

/-! ## GNU hash tables of class 64 -/

/-- Up to `count` words of `w` bytes, as long as `len` bytes have one; what is left of `len`, and `true`
for a return because there was none. -/
def cvtWords (w : Nat) : Nat → Nat → Nat → Nat → Mem n → Outcome ElfError (Mem n) (Bool × Nat)
  | 0, _, _, len, m => .ok (false, len) m
  | count + 1, d, s, len, m =>
    if len < w then .ok (true, len) m
    else
      (m.read s w).bind fun bs m =>
      (m.write d bs.reverse).bind fun _ m =>
      cvtWords w count (d + w) (s + w) (len - w) m

/-- `elf_cvt_gnuhash`. -/
def cvtGnuhash (host : ByteOrder) (encode : Bool) (d s len : Nat) : Conv n := fun m =>
  (cvtWords 4 4 d s len m).bind fun r m =>
  if r.1 then .ok () m
  else
    (readWord host ((if encode then s else d) + 8) m).bind fun bitmaskWords m =>
    (cvtWords 8 bitmaskWords (d + 16) (s + 16) r.2 m).bind fun r' m =>
    if r'.1 then .ok () m
    else
      (cvtWords 4 (r'.2 / 4) (d + 16 + 8 * bitmaskWords) (s + 16 + 8 * bitmaskWords) r'.2 m).bind fun _ m =>
      .ok () m

/-! ## Compressed sections -/

/-- The members of an `ElfXX_Chdr`. -/
def chdrFields : ElfClass → List Field
  | .elfclass32 => members .elfclass32 [.WORD, .WORD, .WORD]
  | .elfclass64 => members .elfclass64 [.WORD, .WORD, .XWORD, .XWORD]

/-- `Elf32_cvt_chdr` and `Elf64_cvt_chdr`. -/
def cvtChdr (ec : ElfClass) (d s len : Nat) : Conv n := fun m =>
  if len = 0 then .ok () m
  else
    (if d ≠ s then memmove d s len m else .ok () m).bind fun _ m =>
    if packedSize (chdrFields ec) ≤ len then cvtFields (chdrFields ec) d s m else .ok () m

/-! ## The table -/

/-- The members of the fixed-size types, in the order of `abstract.h`. -/
def recordFields (ec : ElfClass) : ElfType → Option (List Field)
  | .ehdr => some (members ec [.IDENT, .HALF, .HALF, .WORD, .ADDR, .OFF, .OFF, .WORD, .HALF, .HALF,
      .HALF, .HALF, .HALF, .HALF])
  | .phdr => some (members ec (match ec with
      | .elfclass32 => [.WORD, .OFF, .ADDR, .ADDR, .WORD, .WORD, .WORD, .WORD]
      | .elfclass64 => [.WORD, .WORD, .OFF, .ADDR, .ADDR, .XWORD, .XWORD, .XWORD]))
  | .shdr => some (members ec (match ec with
      | .elfclass32 => [.WORD, .WORD, .WORD, .ADDR, .OFF, .WORD, .WORD, .WORD, .WORD, .WORD]
      | .elfclass64 => [.WORD, .WORD, .XWORD, .ADDR, .OFF, .XWORD, .WORD, .WORD, .XWORD, .XWORD]))
  | .sym => some (members ec (match ec with
      | .elfclass32 => [.WORD, .ADDR, .WORD, .BYTE, .BYTE, .HALF]
      | .elfclass64 => [.WORD, .BYTE, .BYTE, .HALF, .ADDR, .XWORD]))
  | .rel => some (members ec (match ec with
      | .elfclass32 => [.ADDR, .WORD]
      | .elfclass64 => [.ADDR, .XWORD]))
  | .rela => some (members ec (match ec with
      | .elfclass32 => [.ADDR, .WORD, .SWORD]
      | .elfclass64 => [.ADDR, .XWORD, .SXWORD]))
  | .dyn => some (members ec (match ec with
      | .elfclass32 => [.SWORD, .ADDR]
      | .elfclass64 => [.XWORD, .ADDR]))
  | .syminfo => some (members ec [.HALF, .HALF])
  | .lib => some (members ec [.WORD, .WORD, .WORD, .WORD, .WORD])
  | .auxv => some (members ec (match ec with
      | .elfclass32 => [.WORD, .ADDR]
      | .elfclass64 => [.XWORD, .ADDR]))
  | _ => none

def fundamentalSize (ec : ElfClass) : ElfType → Option Nat
  | .addr => some (Basic.field ec .ADDR).width
  | .off => some (Basic.field ec .OFF).width
  | .half => some 2
  | .word => some 4
  | .sword => some 4
  | .xword => some 8
  | .sxword => some 8
  | _ => none

/-- `__libelf_type_sizes`. The size of a move record is that of its external structure. -/
def typeSize (ec : ElfClass) (t : ElfType) : Nat :=
  match fundamentalSize ec t, recordFields ec t with
  | some w, _ => w
  | none, some fs => packedSize fs
  | none, none =>
    match t with
    | .vdef => packedSize verdef.defFields
    | .vdaux => packedSize verdef.auxFields
    | .vneed => packedSize verneed.defFields
    | .vnaux => packedSize verneed.auxFields
    | .nhdr => 12
    | .nhdr8 => 12
    | .move => 28
    | .chdr => packedSize (chdrFields ec)
    | .gnuhash => 4
    | _ => 1

/-- `__elf_xfctstom` and `__elf_xfctstof`. -/
def xfct (host : ByteOrder) (ec : ElfClass) (t : ElfType) (encode : Bool) (d s len : Nat) : Conv n :=
  match fundamentalSize ec t, recordFields ec t with
  | some w, _ => cvtFundamental w d s len
  | none, some fs => cvtRecords fs (len / packedSize fs) d s
  | none, none =>
    match t with
    | .vdef => cvtVersion host verdef encode d s len
    | .vdaux => cvtVersion host verdef encode d s len
    | .vneed => cvtVersion host verneed encode d s len
    | .vnaux => cvtVersion host verneed encode d s len
    | .nhdr => cvtNote host 4 encode d s len
    | .nhdr8 => cvtNote host 8 encode d s len
    | .move => cvtMove ec (len / moveSize ec) d s
    | .chdr => cvtChdr ec d s len
    | .gnuhash =>
      match ec with
      | .elfclass32 => cvtFundamental 4 d s len
      | .elfclass64 => cvtGnuhash host encode d s len
    | _ => fun m => if len = 0 then .ok () m else memmove d s len m

end LibElf.Elfutils
