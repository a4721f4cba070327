import LibElf.Toolchain.ArchiveLoop
import Mathlib.Data.List.DropRight

/-!
# The header of a member

`elf_getarhdr`: the name of a member, as one of four formats keeps it, the numbers of its header, and the size of its
contents.

1. `Block.strncpy` and `Block.toSlash`, the two loops over the bytes of a name; `translatedName`.
2. `readArhdr`, what an `Elf_Arhdr` is made of, and `elfGetarhdr`. The parsed header replaces the raw one, and the
   error path puts that back.
3. `HdrOp`, calls for headers among the calls on descriptors.
-/

namespace LibElf.Toolchain

open Outcome

/-! ## Names -/

/-- `strncpy` of `n` bytes at `p` behind which a NUL is stored: the copy ends at the first NUL. -/
def Block.strncpy {σ : Type} (b : Block) : Nat → Nat → σ → Outcome ElfError σ (List UInt8)
  | _, 0, s => .ok [] s
  | p, n + 1, s =>
    (b.load p 1 s).bind fun c s =>
      if c = [0] then .ok [] s else (b.strncpy (p + 1) n s).bind fun rest s => .ok (c ++ rest) s

/-- The number of bytes before the first `/`, of the `n` bytes at `p`. -/
def Block.toSlash {σ : Type} (b : Block) : Nat → Nat → σ → Outcome ElfError σ Nat
  | _, 0, s => .ok 0 s
  | p, n + 1, s =>
    (b.load p 1 s).bind fun c s =>
      if c = [0x2F] then .ok 0 s else (b.toSlash (p + 1) n s).bind fun k s => .ok (k + 1) s

/-- The name is a `/` with a digit: a reference to the string table. -/
def isReference (name : List UInt8) : Bool :=
  match name with
  | c :: d :: _ => decide (c = 0x2F ∧ 0x30 ≤ d ∧ d ≤ 0x39)
  | _ => false

/-- A normal name: the blanks at the end are dropped, and the `/` at its end unless it is one of the special names. -/
def normalName (name : List UInt8) : List UInt8 :=
  let kept := name.rdropWhile (fun c => c = 0x20)
  let kept :=
    if kept.getLast? = some 0x2F ∧ (2 < kept.length ∨ kept.length = 2 ∧ kept.head? ≠ some 0x2F) then kept.dropLast
    else kept
  -- the copy ends at a NUL
  kept.takeWhile (· ≠ 0)

/-- `_libelf_ar_get_translated_name` for the header `hdr` at `arh`. -/
def translatedName {σ : Type} (b : Block) (a : Ar) (arh : Nat) (hdr : List UInt8) (s : σ) :
    Outcome ElfError σ (List UInt8) :=
  if isReference (arName hdr) then
    match arGetNumber (window hdr 1 15) 10 with
    | none => .err .ARCHIVE s
    | some offset =>
      if a.eRawstrtabsz < offset then .err .ARCHIVE s
      else
        let q := a.eRawstrtab + offset
        (b.toSlash q (a.eRawstrtabsz - offset) s).bind fun len s => b.strncpy q len s
  else if isExtendedBsdName hdr then
    match arGetNumber (window hdr 3 13) 10 with
    | none => .err .ARCHIVE s
    -- the file name follows the archive header
    | some len => b.strncpy (arh + arHdrSize) len s
  else .ok (normalName (arName hdr)) s

/-- `_libelf_ar_get_raw_name`. -/
def rawName (hdr : List UInt8) : List UInt8 := (arName hdr).takeWhile (· ≠ 0)

/-! ## Headers -/

/-- An `Elf_Arhdr`; `ar_date` is never set. -/
structure Arhdr where
  arName : List UInt8
  arUid : Nat
  arGid : Nat
  arMode : Nat
  arSize : Nat
  arRawname : List UInt8
  arFlags : Nat
deriving DecidableEq

def arUid (arh : List UInt8) : List UInt8 := window arh 28 6
def arGid (arh : List UInt8) : List UInt8 := window arh 34 6
def arMode (arh : List UInt8) : List UInt8 := window arh 40 8

/-- The size of the contents, without the name in front of them. -/
def arTrueSize (hdr : List UInt8) : Option Nat :=
  match arGetNumber (arSize hdr) 10 with
  | none => none
  | some n =>
    if isExtendedBsdName hdr then
      match arGetNumber (window hdr 3 13) 10 with
      | none => none
      | some nlen => some (wrap (n + (2 ^ 64 - nlen)))
    else some n

/-- The numbers of a header; the types of `ar_uid`, `ar_gid` and `ar_mode` have 32 bits. -/
def arNumbers (hdr : List UInt8) : Option (Nat × Nat × Nat × Nat) :=
  match arGetNumber (arUid hdr) 10, arGetNumber (arGid hdr) 10, arGetNumber (arMode hdr) 8, arTrueSize hdr with
  | some uid, some gid, some mode, some size => some (uid % 2 ^ 32, gid % 2 ^ 32, mode % 2 ^ 32, size)
  | _, _, _, _ => none

/-- What `_libelf_ar_gethdr` reads for the member with the header at `arh` of an archive. The result is `none`
where it fails without an error number. -/
def readArhdr (b : Block) (a : Ar) (arh : Nat) : Outcome ElfError Unit (Option Arhdr) :=
  (b.load arh arHdrSize ()).bind fun hdr s =>
    (translatedName b a arh hdr s).bind fun name s =>
      match arNumbers hdr with
      | none => .ok none s
      | some (uid, gid, mode, size) => .ok (some ⟨name, uid, gid, mode, size, rawName hdr, 0⟩) s

/-- The descriptors, and the parsed header of each that has one: `LIBELF_F_AR_HEADER` is set. For the others
`e_hdr` is the raw header. -/
structure Shelf where
  heap : Heap
  arhdrs : Handle → Option Arhdr

def Shelf.empty : Shelf := ⟨Heap.empty, fun _ => none⟩

/-- Store into `e_hdr`, with its flag. -/
def Shelf.setArhdr (s : Shelf) (e : Handle) (h : Option Arhdr) : Shelf :=
  { s with arhdrs := fun q => if q = e then h else s.arhdrs q }

abbrev ShelfCall (α : Type) := Outcome ElfError Shelf α

def Shelf.deref (s : Shelf) (e : Handle) : ShelfCall Desc := (s.heap.deref e).within fun t => { s with heap := t }

/-- An `Elf_Arhdr` before it is filled in. -/
def Arhdr.blank : Arhdr := ⟨[], 0, 0, 0, 0, [], 0⟩

/-- The header at `arh` lies in the archive, behind the magic string. -/
def headerInside (d : Desc) (arh : Nat) : Bool :=
  decide (wrap (d.eRawfile + sarmag) ≤ arh ∧ arh ≤ wrap (d.eRawfile + d.eRawsize + (2 ^ 64 - arHdrSize)) ∧
    d.eRawfile ≤ arh ∧ arh < wrap (d.eRawfile + d.eRawsize))

def arGethdr (e : Handle) (s : Shelf) : ShelfCall (Option Arhdr) :=
  (s.deref e).bind fun d s =>
    match d.eParent with
    | none => .err .ARGUMENT s
    | some p =>
      (s.deref p).bind fun parent s =>
        if s.arhdrs e ≠ none then .stop .assertion
        else
          let arh := d.eRawhdr
          match headerInside parent arh, parent.eKind with
          | true, .ar a =>
            let s := s.setArhdr e (some .blank)
            match readArhdr parent.eBlock a arh with
            | .ok (some h) _ => .ok (some h) (s.setArhdr e (some h))
            | .ok none _ => .ok none { s.setArhdr e none with heap := s.heap.put e { d with eRawhdr := arh } }
            | .err c _ => .err c { s.setArhdr e none with heap := s.heap.put e { d with eRawhdr := arh } }
            | .stop f => .stop f
          | _, _ => .stop .assertion

def elfGetarhdr (e : Option Handle) (s : Shelf) : ShelfCall (Option Arhdr) :=
  match e with
  | none => .err .ARGUMENT s
  | some e =>
    -- the flag is in the descriptor
    (s.deref e).bind fun _ s =>
      match s.arhdrs e with
      | some h => .ok (some h) s
      | none => arGethdr e s

/-! ## Calls -/

inductive HdrOp
  | life (op : LifeOp)
  | getarhdr (e : Option Handle)

def HdrOp.step (env : Env) (s : Shelf) : HdrOp → Except Fault Shelf
  | .life op => (op.step env s.heap).map fun t => { s with heap := t }
  | .getarhdr e => (elfGetarhdr e s).next

end LibElf.Toolchain
