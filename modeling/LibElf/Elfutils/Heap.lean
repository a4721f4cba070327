import LibElf.Base.Family
import LibElf.Elfutils.ArchiveRuns

/-!
# Descriptors and the mappings behind them

The calls of `Archives.lean` once more, with the books of the resources: which mapping of a file is behind the
`map_address` of a descriptor, when it is undone, and in which state a descriptor is freed.

1. `Heap`, the descriptors with the mappings, and the store of a descriptor, `mmap` and `munmap`.
2. `Heap.openFile`, `Heap.childOf`, `Heap.dupElf` and `Heap.elfBegin`.
3. `Heap.endAt`, with the search in the list of children, and `ArOp.heapStep`.

A descriptor without a parent that has a mapping is one with `ELF_F_MMAPPED` in its flags; `elf_memory` sets no flag.
-/

namespace LibElf.Elfutils

open Outcome

/-- A file that was mapped: its length, and the length of every `munmap` of it. -/
structure Mapping where
  length : Nat
  undone : List Nat
deriving DecidableEq

/-- All descriptors, for each of them the mapping that its `map_address` points into, all mappings that were ever
made, and the descriptors that were freed, as they were then. -/
structure Heap where
  lib : Lib
  maps : List (Option Nat)
  mapped : List Mapping
  freed : List (Handle × Elf)

abbrev HeapCall := Outcome ElfError Heap

namespace Heap

def empty : Heap := ⟨Lib.empty, [], [], []⟩

/-- The mapping behind the `map_address` of a descriptor. -/
def mapOf (H : Heap) (h : Handle) : Option Nat := (H.maps[h]?).join

def add (H : Heap) (m : Option Nat) (e : Elf) : Heap := ⟨H.lib.add e, H.maps ++ [m], H.mapped, H.freed⟩

def mmap (H : Heap) (size : Nat) : Heap := ⟨H.lib, H.maps, H.mapped ++ [⟨size, []⟩], H.freed⟩

def munmap (H : Heap) (m size : Nat) : Heap :=
  ⟨H.lib, H.maps, H.mapped.modify m fun k => ⟨k.length, k.undone ++ [size]⟩, H.freed⟩

def release (H : Heap) (h : Handle) (e : Elf) : Heap := ⟨H.lib.set h none, H.maps, H.mapped, H.freed ++ [(h, e)]⟩

def keep (H : Heap) (m : Option Nat) : Call Unit → HeapCall Handle
  | .ok () e => .ok H.lib.new (H.add m e)
  | .err c _ => .err c H
  | .stop f => .stop f

/-- Change descriptors, but for the books. -/
def withLib (H : Heap) (l : Lib) : Heap := ⟨l, H.maps, H.mapped, H.freed⟩

def put (H : Heap) (h : Handle) (e : Elf) : Heap := H.withLib (H.lib.set h (some e))

/-- A call that neither opens nor releases a descriptor. -/
def inLib {α : Type} (H : Heap) (x : LibCall α) : HeapCall α := x.within H.withLib

end Heap

/-- One activation less; a counter that is 0 already stays. -/
def Elf.deactivate (e : Elf) : Elf := { e with refCount := e.refCount - 1 }

/-! ## Calls -/

section Calls

variable (env : Env)

namespace Heap

/-- `read_file` of a file that is no member of an archive. A mapping that no descriptor comes of is undone. -/
def openFile (fildes : Int) (cmd : Cmd) (H : Heap) : HeapCall Handle :=
  let size := (env.file fildes).bytes.length
  if useMmap cmd ∧ size ≠ 0 then
    let m := H.mapped.length
    match (H.mmap size).keep (some m) (readMmapedFile env fildes (env.file fildes) 0 size cmd none) with
    | .err c H => .err c (H.munmap m size)
    | r => r
  else H.keep none (readUnmmapedFile env fildes 0 size cmd none)

/-- The mapping behind a member of the archive `h`. -/
def memberMap (H : Heap) (cmd : Cmd) (h : Handle) (ref : Elf) : Option Nat :=
  if ref.mapAddress.isSome ∧ useMmap cmd then H.mapOf h else none

/-- A descriptor for the member at the position of the archive `h`, which becomes its first child. -/
def childOf (fildes : Int) (cmd : Cmd) (h : Handle) (H : Heap) : HeapCall Handle :=
  match H.lib.get? h with
  | none => .stop .null
  | some ref =>
    let size := sizeT ref.ar.elfArHdr.arSize
    if size = 2 ^ 64 - 1 then .stop .assertion
    else
      (H.keep (H.memberMap cmd h ref)
        (readMember env fildes (wrap (ref.ar.offset + arHdrSize)) size cmd h ref)).bind fun c H =>
      .ok c (H.put h (ref.setAr { ref.ar with children := c :: ref.ar.children }))

def dupElf (fildes : Int) (cmd : Cmd) (h : Handle) (H : Heap) : HeapCall Handle :=
  match H.lib.get? h with
  | none => .stop .null
  | some ref =>
    if fildes ≠ -1 ∧ ref.fildes ≠ -1 ∧ fildes ≠ ref.fildes then .err .FD_MISMATCH H
    else if ref.cmd = .null then .err .INVALID_OP H
    else if ref.kind ≠ .ar then .ok h (H.put h { ref with refCount := ref.refCount + 1 })
    else
      let fildes := if fildes = -1 then ref.fildes else fildes
      (if ref.ar.elfArHdr.arName = none then H.inLib (H.lib.on h (nextArhdr env)) else .ok () H).bind fun _ H =>
      childOf env fildes cmd h H

def elfBegin (fildes : Int) (cmd : Cmd) (ref : Option Handle) (H : Heap) : HeapCall (Option Handle) :=
  match ref with
  | none =>
    if fildes < 0 then .err .INVALID_FILE H
    else
      match cmd with
      | .null => .ok none H
      | .write | .writeMmap => .ok (some H.lib.new) (H.add none (writeFile fildes cmd))
      | _ => (openFile env fildes cmd H).bind fun h => .ok (some h)
  | some h =>
    match H.lib.get? h with
    | none => .stop .null
    | some e =>
      match cmd with
      | .null => .ok none H
      | .write | .writeMmap => .ok (some H.lib.new) (H.add none (writeFile fildes cmd))
      | .readMmapPrivate =>
        if e.cmd ≠ .readMmapPrivate then .err .INVALID_CMD H
        else (dupElf env fildes cmd h H).bind fun h => .ok (some h)
      | .read | .readMmap => (dupElf env fildes cmd h H).bind fun h => .ok (some h)
      | .rdwr | .rdwrMmap =>
        if e.cmd ≠ .rdwr ∧ e.cmd ≠ .rdwrMmap ∧ e.cmd ≠ .write ∧ e.cmd ≠ .writeMmap then .err .INVALID_CMD H
        else (dupElf env fildes cmd h H).bind fun h => .ok (some h)

def unlinkFrom (h : Handle) (e : Elf) (H : Heap) : HeapCall Unit :=
  match e.parent with
  | none => .ok () H
  | some p =>
    match H.lib.get? p with
    | none => .stop .null
    | some parent =>
      match unlink h parent.ar.children with
      | none => .stop .null
      | some cs => .ok () (H.put p (parent.setAr { parent.ar with children := cs }))

/-- Undo the mapping that was made for a descriptor, which is that of one without a parent. -/
def unmapFile (h : Handle) (e : Elf) (H : Heap) : Heap :=
  if e.mapAddress.isSome ∧ e.parent = none then
    match H.mapOf h with
    | some m => H.munmap m e.maximumSize
    | none => H
  else H

/-- `elf_end` of a descriptor at most `depth` levels below a file. -/
def endAt : Nat → Handle → Heap → HeapCall Nat
  | 0, _, _ => .stop .divergence
  | depth + 1, h, H =>
    match H.lib.get? h with
    | none => .stop .null
    | some ref =>
      let e := ref.deactivate
      let H := H.put h e
      if e.refCount ≠ 0 then .ok e.refCount H
      -- an archive that still has descriptors below it stays
      else if e.kind = .ar ∧ e.ar.children ≠ [] then .ok 0 H
      else
        (unlinkFrom h e H).bind fun _ H =>
        let H := (unmapFile h e H).release h e
        match e.parent with
        | none => .ok 0 H
        | some p =>
          match H.lib.get? p with
          | none => .stop .null
          | some parent => if parent.refCount = 0 then endAt depth p H else .ok 0 H

/-- `elf_end`. A parent is older than its children. -/
def elfEnd (h : Handle) (H : Heap) : HeapCall Nat := endAt (h + 1) h H

end Heap

def ArOp.heapStep (H : Heap) : ArOp → Except Fault Heap
  | .begin fildes cmd ref => (Heap.elfBegin env fildes cmd ref H).next
  | .memory image => (H.keep none (elfMemory env image)).next
  | .next h => (H.inLib (elfNext env h H.lib)).next
  | .rand h offset => (H.inLib (elfRand env h offset H.lib)).next
  | .getarhdr h => (H.inLib (elfGetarhdr env h H.lib)).next
  | .end h => (Heap.elfEnd h H).next

end Calls

end LibElf.Elfutils
