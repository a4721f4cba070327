import LibElf.Base.Reads
import LibElf.Toolchain.Archive
import LibElf.Toolchain.Hash

/-!
# Archive symbol tables

The two parsers of `libelf_ar.c` for the symbol table of an archive, on the member that `_libelf_ar_open`
found. A pointer is an offset from the start of the image; every range that is read goes on record, and a
load beyond the image is a fault.

1. `rawSymtab`, where the symbol table of an archive is.
2. `processSvr4Symtab`, `_libelf_ar_process_svr4_symtab`.
3. `processBsdSymtab`, `_libelf_ar_process_bsd_symtab`.

Allocations succeed, and a `long` has 64 bits in the byte order of the host.
-/

namespace LibElf.Toolchain

open Outcome

/-- The kind of the symbol table of the archive with this image (SVR4 or BSD), its offset and its size, as
`_libelf_ar_open` records them. -/
def rawSymtab (b : Block) : Option (Bool × Nat × Nat) :=
  match arSpecial b (b.addr + sarmag) (b.addr + b.bytes.length) () with
  | .ok m _ => if m.rawsymtab = 0 then none else some (m.svr4, m.rawsymtab - b.addr, m.rawsymtabsz)
  | .err _ _ => none
  | .stop _ => none

/-- An `Elf_Arsym`. The name is a pointer into the image. -/
structure ElfArsym where
  asName : Option Nat
  asOff : Nat
  asHash : BitVec 64
deriving DecidableEq

/-- The sentinel entry, with the hash `~0UL`. -/
def sentinel : ElfArsym := ⟨none, 0, BitVec.allOnes 64⟩

abbrev Parse (α : Type) := Outcome ElfError Reads α

/-- `elf_hash` of the string at `s`: the loop loads its bytes up to the NUL. -/
def hashAt (img : List UInt8) (s : Nat) (log : Reads) : Parse (BitVec 64) :=
  (readString img s log).bind fun name log => .ok (hashName 64 name) log

/-! ## SVR4 -/

/-- The word at `p`, most significant byte first. -/
def word (img : List UInt8) (p : Nat) : Nat := ofBytes .big (window img p 4)

def getWord (img : List UInt8) (p : Nat) (log : Reads) : Parse Nat :=
  (readLogged img p 4 log).bind fun bs log => .ok (ofBytes .big bs) log

/-- The loop over the `n` entries left: `p` is at the next offset and `s` at the next name. -/
def svr4Loop (img : List UInt8) (fin : Nat) : Nat → Nat → Nat → List ElfArsym → Reads → Parse (List ElfArsym)
  | 0, _, _, sym, log => .ok (sym ++ [sentinel]) log
  | n + 1, p, s, sym, log =>
    if fin ≤ s then .err .ARCHIVE log
    else
      (getWord img p log).bind fun off log =>
      if img.length ≤ off then .err .ARCHIVE log
      else
        (hashAt img s log).bind fun h log =>
        -- skip to the next string
        (skipString img (fin - s) s log).bind fun s' log =>
        svr4Loop img fin n (p + 4) s' (sym ++ [⟨some s, off, h⟩]) log

/-- `_libelf_ar_process_svr4_symtab`, on the `z` bytes at `m`. -/
def processSvr4Symtab (img : List UInt8) (m z : Nat) : Parse (List ElfArsym) :=
  if z < 4 then .err .ARCHIVE []
  else
    (getWord img m []).bind fun nentries log =>
    if nentries = 0 ∨ m + z ≤ m + 4 + nentries * 4 then .err .ARCHIVE log
    else svr4Loop img (m + z) nentries (m + 4) (m + 4 + nentries * 4) [] log

/-! ## BSD -/

section Bsd

variable (host : ByteOrder)

/-- The `long` at `p`. -/
def long (img : List UInt8) (p : Nat) : Int := offT (ofBytes host (window img p 8))

def getLong (img : List UInt8) (p : Nat) (log : Reads) : Parse Int :=
  (readLogged img p 8 log).bind fun bs log => .ok (offT (ofBytes host bs)) log

/-- The loop over the `n` entries left, the next one at `p`; `s0` is the start of the string table. -/
def bsdLoop (img : List UInt8) (fin s0 : Nat) : Nat → Nat → List ElfArsym → Reads → Parse (List ElfArsym)
  | 0, _, sym, log => .ok (sym ++ [sentinel]) log
  | n + 1, p, sym, log =>
    (getLong host img p log).bind fun stroffset log =>
    (getLong host img (p + 8) log).bind fun fileoffset log =>
    if stroffset < 0 ∨ fileoffset < 0 ∨ img.length ≤ fileoffset.toNat then .err .ARCHIVE log
    else
      let s := s0 + stroffset.toNat
      if fin ≤ s then .err .ARCHIVE log
      else
        (hashAt img s log).bind fun h log =>
        bsdLoop img fin s0 n (p + 16) (sym ++ [⟨some s, fileoffset.toNat, h⟩]) log

/-- `_libelf_ar_process_bsd_symtab`, on the `z` bytes at `m`. -/
def processBsdSymtab (img : List UInt8) (m z : Nat) : Parse (List ElfArsym) :=
  if z < 16 then .err .ARCHIVE []
  else
    (getLong host img m []).bind fun arraysize log =>
    if arraysize < 0 ∨ m + z ≤ m + arraysize.toNat ∨ arraysize.toNat % 16 ≠ 0 then .err .ARCHIVE log
    else
      let s := m + 8 + arraysize.toNat
      (getLong host img s log).bind fun strtabsize log =>
      if strtabsize < 0 ∨ m + z < s + 8 + strtabsize.toNat then .err .ARCHIVE log
      else
        -- the number of entries is an `unsigned int`
        bsdLoop host img (m + z) (s + 8) (arraysize.toNat / 16 % 2 ^ 32) (m + 8) [] log

end Bsd

section Facts

variable {img : List UInt8} {p s : Nat}

theorem getWord_of_le (log : Reads) (h : p + 4 ≤ img.length) :
    getWord img p log = .ok (word img p) (log ++ [(p, 4)]) := by
  rw [getWord, readLogged_of_le log h]
  rfl

theorem getWord_of_lt (log : Reads) (h : img.length < p + 4) : getWord img p log = .stop .load := by
  rw [getWord, readLogged_of_lt log (by decide) h]
  rfl

theorem grows_getWord (img : List UInt8) (p : Nat) (log : Reads) : Grows log (getWord img p log) :=
  (grows_readLogged img p 4).bind fun _ _ => grows_ok _

theorem getLong_of_le (host : ByteOrder) (log : Reads) (h : p + 8 ≤ img.length) :
    getLong host img p log = .ok (long host img p) (log ++ [(p, 8)]) := by
  rw [getLong, readLogged_of_le log h]
  rfl

theorem getLong_of_lt (host : ByteOrder) (log : Reads) (h : img.length < p + 8) :
    getLong host img p log = .stop .load := by
  rw [getLong, readLogged_of_lt log (by decide) h]
  rfl

theorem grows_getLong (host : ByteOrder) (img : List UInt8) (p : Nat) (log : Reads) :
    Grows log (getLong host img p log) :=
  (grows_readLogged img p 8).bind fun _ _ => grows_ok _

theorem hashAt_of_isString {name : List UInt8} (log : Reads) (h : IsString img s name) :
    hashAt img s log = .ok (hashName 64 name) (log ++ [(s, name.length + 1)]) := by
  rw [hashAt, readString_of_isString h]
  rfl

theorem hashAt_of_none (log : Reads) (h : strlen (img.drop s) = none) : hashAt img s log = .stop .load := by
  rw [hashAt, readString, h]
  rfl

theorem grows_hashAt (img : List UInt8) (s : Nat) (log : Reads) : Grows log (hashAt img s log) :=
  (grows_readString img s log).bind fun _ _ => grows_ok _

theorem grows_svr4Loop (img : List UInt8) (fin n : Nat) : ∀ (p s : Nat) (sym : List ElfArsym) (log : Reads),
    Grows log (svr4Loop img fin n p s sym log) := by
  induction n with
  | zero => exact fun _ _ _ _ => grows_ok _
  | succ n ih =>
    intro p s sym log
    unfold svr4Loop
    split
    · exact grows_err _
    · refine (grows_getWord img p log).bind fun off t => ?_
      split
      · exact grows_err _
      · refine (grows_hashAt img s t).bind fun h t => ?_
        exact (grows_skipString img _ s t).bind fun s' t => ih _ _ _ _

theorem grows_bsdLoop (host : ByteOrder) (img : List UInt8) (fin s0 n : Nat) :
    ∀ (p : Nat) (sym : List ElfArsym) (log : Reads), Grows log (bsdLoop host img fin s0 n p sym log) := by
  induction n with
  | zero => exact fun _ _ _ => grows_ok _
  | succ n ih =>
    intro p sym log
    unfold bsdLoop
    refine (grows_getLong host img p log).bind fun stroffset t => ?_
    refine (grows_getLong host img (p + 8) t).bind fun fileoffset t => ?_
    split
    · exact grows_err _
    · dsimp only
      split
      · exact grows_err _
      · exact (grows_hashAt img _ t).bind fun h t => ih _ _ _

end Facts

/-- The header of a member, with the name and the size as text. -/
def memberHeader (name size : List UInt8) : List UInt8 :=
  name ++ List.replicate (48 - name.length) 0x20 ++ size ++ List.replicate (10 - size.length) 0x20 ++ [0x60, 0x0A]

end LibElf.Toolchain
