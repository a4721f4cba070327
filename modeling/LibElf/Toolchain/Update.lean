import LibElf.Toolchain.Section

/-!
# The layout of an ELF object

The first half of `elf_update.c`: `_libelf_resync_elf` computes or checks where the headers and the
sections go, and collects the result in a list of extents.

1. `checkData` and `computeSectionExtents`, one section.
2. `insertExtent`, the sorted list of extents.
3. `resyncSections` and `resyncElf`, the whole object.
-/

namespace LibElf.Toolchain

inductive ExtentType
  | ehdr
  | phdr
  | scn
  | shdr
deriving DecidableEq

/-- An extent; `exDesc` is the handle of the section of an extent of type `scn`. -/
structure Extent where
  exStart : Nat
  exSize : Nat
  exType : ExtentType
  exDesc : Nat
deriving DecidableEq

/-- The end of an extent, as the code computes it. -/
def Extent.tmax (ex : Extent) : Nat := wrap (ex.exStart + ex.exSize)

section Sections

variable (env : Env) (e : Elf) (ec : ElfClass)

/-! ## One section -/

/-- The loop of `_libelf_compute_section_extents` over the data descriptors: the size and the
alignment of the section. Under library layout it assigns `d_off`. -/
def checkData : Nat → Nat → List ElfData → Outcome ElfError (List ElfData) (Nat × Nat)
  | scnSize, scnAlignment, [] => .ok (scnSize, scnAlignment) []
  | scnSize, scnAlignment, d :: ds =>
    match d.dType with
    | none => .err .DATA (d :: ds)
    | some t =>
      if d.dVersion ≠ e.eVersion then .err .VERSION (d :: ds)
      else if isPow2 d.dAlign.toNat = false then .err .DATA (d :: ds)
      else if msize t ec = 0 then .stop .division
      else if d.dSize.toNat % msize t ec ≠ 0 then .err .DATA (d :: ds)
      else if e.eFlags.layout then
        if d.dOff.toNat &&& (d.dAlign.toNat - 1) ≠ 0 then .err .LAYOUT (d :: ds)
        else
          (checkData (max scnSize (wrap (d.dOff.toNat + d.dSize.toNat)))
            (max scnAlignment d.dAlign.toNat) ds).within (d :: ·)
      else
        let off := roundUp scnSize d.dAlign.toNat
        let fsz := libelfFsize t ec (d.dSize.toNat / msize t ec)
        (checkData (wrap (off + fsz)) (max scnAlignment d.dAlign.toNat) ds).within
          ({ d with dOff := UInt64.ofNat off } :: ·)

def updateDescriptor (shSize shOffset : Nat) (s : Scn) : ScnCall Unit :=
  .ok () { s with sSize := shSize, sOffset := shOffset }

/-- The label `computeoffset`: the section goes to the next multiple of its alignment. -/
def computeOffset (rc shAlign shEntsize shSize : Nat) (s : Scn) : ScnCall Unit :=
  if shAlign = 0 then .stop .division
  else
    let shOffset := roundUp rc shAlign
    updateDescriptor shSize shOffset { s with shdr := { s.shdr with
      shAddralign := ec.put shAlign
      shEntsize := ec.put shEntsize
      shOffset := ec.put shOffset
      shSize := ec.put shSize } }

/-- The alignment of a section: `sh_addralign`, or that of the type of its contents. -/
def shAlign (h : Shdr) : Nat :=
  if ec.get h.shAddralign = 0 then falign (xlateShtype h.shType) ec else ec.get h.shAddralign

/-- The entry size of a section: `sh_entsize`, or the file size of the type of its contents when
that is not a single byte. -/
def shEntsize (h : Shdr) : Nat :=
  if ec.get h.shEntsize = 0 then
    let fsz := match xlateShtype h.shType with
      | none => 0
      | some t => fsize t ec
    if fsz = 1 then 0 else fsz
  else ec.get h.shEntsize

def computeSectionExtents (rc : Nat) (s : Scn) : ScnCall Unit :=
  let h := s.shdr
  let shOffset := ec.get h.shOffset
  let shSize := ec.get h.shSize
  if h.shType = shtNull ∨ h.shType = shtNobits then .stop .assertion
  else if s.sData = [] ∧ s.sDirty = false then
    -- the contents have not been read in and stay as they are
    if e.eFlags.layout then updateDescriptor shSize shOffset s
    else computeOffset ec rc (shAlign ec h) (ec.get h.shEntsize) shSize s
  else
    (if s.sData = [] ∧ e.eCmd ≠ .write then (getdata env e ec s).bind fun _ s => .ok () s
      else .ok () s).bind fun _ s =>
    ((checkData e ec 0 0 s.sData).within fun ds => { s with sData := ds }).bind fun (scnSize, scnAlignment) s =>
    if e.eFlags.layout then
      if shAlign ec h < scnAlignment then .err .LAYOUT s
      else if shAlign ec h = 0 then .stop .division
      else if shOffset % shAlign ec h ≠ 0 ∨ shSize < scnSize then .err .LAYOUT s
      else if falign (xlateShtype h.shType) ec = 0 then .stop .division
      else if shOffset % falign (xlateShtype h.shType) ec ≠ 0 then .err .LAYOUT s
      else updateDescriptor shSize shOffset s
    else computeOffset ec rc (max (shAlign ec h) scnAlignment) (shEntsize ec h) scnSize s

/-! ## Extents -/

/-- `_libelf_insert_extent`, with `_libelf_extent_is_unused`: `none` when the extent overlaps one of
the list. -/
def insertExtent (ex : Extent) : List Extent → Option (List Extent)
  | [] => some [ex]
  | t :: ts =>
    if t.tmax ≤ ex.exStart then (insertExtent ex ts).map (t :: ·)
    else if ex.tmax ≤ t.exStart then some (ex :: t :: ts)
    else none

/-- Sections without contents in the file. -/
def Scn.isSkipped (s : Scn) : Bool := decide (s.shdr.shType = shtNobits ∨ s.shdr.shType = shtNull)

/-- The loop of `_libelf_resync_sections` over the sections from index `ndx` on. It returns the end
of the last extent and the extents, and leaves the sections updated. -/
def resyncSections : Nat → Nat → List Extent → List Scn → Outcome ElfError (List Scn) (Nat × List Extent)
  | _, rc, extents, [] => .ok (rc, extents) []
  | ndx, rc, extents, s :: ss =>
    if s.isSkipped then (resyncSections (ndx + 1) rc extents ss).within (s :: ·)
    else
      match computeSectionExtents env e ec rc s with
      | .stop f => .stop f
      | .err err s => .err err (s :: ss)
      | .ok _ s =>
        if s.sSize = 0 then (resyncSections (ndx + 1) rc extents ss).within (s :: ·)
        else
          match insertExtent ⟨s.sOffset, s.sSize, .scn, ndx⟩ extents with
          | none => .err .LAYOUT (s :: ss)
          | some extents =>
            let scnEnd := wrap (s.sOffset + s.sSize)
            (resyncSections (ndx + 1) (if rc < scnEnd then scnEnd else rc) extents ss).within (s :: ·)

end Sections

/-! ## The whole object -/

section Object

variable (env : Env) (ec : ElfClass)

def initializeEhdr (phnum : Nat) (h : Ehdr) : Ehdr :=
  { h with
    eIdent := ((((((h.eIdent.set 0 0x7F eiMag0_lt).set 1 0x45).set 2 0x4C).set 3 0x46).set 4 ec.toByte).set 6
      (UInt8.ofNat evCurrent))
    eEhsize := UInt16.ofNat (fsize .ehdr ec)
    ePhentsize := UInt16.ofNat (if phnum = 0 then 0 else fsize .phdr ec)
    eShentsize := UInt16.ofNat (fsize .shdr ec) }

/-- The checks of the executable header, which then gets its fixed fields. -/
def prepareEhdr (h : Ehdr) (e : Elf) : Call Ehdr :=
  let version := if h.eVersion.toNat = 0 then evCurrent else h.eVersion.toNat
  if isNeg (ec.get h.ePhoff) ∨ isNeg (ec.get h.eShoff) then .err .HEADER e
  else if version ≠ e.eVersion then .err .VERSION e
  else if h.eIdent[4] ≠ ec.toByte then .err .CLASS e
  else if e.eCmd ≠ .write ∧ getElem h.eIdent 5 eiData_lt ≠ e.eByteorder then .err .HEADER e
  else
    let e := e.setByteorder (getElem h.eIdent 5 eiData_lt)
    let h := initializeEhdr ec e.eNphdr h
    .ok h ((e.setEhdr h).setFlags { e.eFlags with dirty := true })

/-- The place of the program header table; `rc` is the end of the executable header. The pointer to
the table is stored in its extent, so it is read in, but a failure to do so is not noticed. -/
def layoutPhdr (phoff rc phnum : Nat) (extents : List Extent) (e : Elf) :
    Call (Nat × Nat × List Extent) :=
  if phnum = 0 then .ok (0, rc, extents) e
  else
    let fsz := libelfFsize .phdr ec phnum
    let align := falign (some .phdr) ec
    if e.eFlags.layout ∧ (phoff < rc ∨ phoff % align ≠ 0) then .err .LAYOUT e
    else
      let phoff := if e.eFlags.layout then phoff else roundUp rc align
      let rc := wrap (phoff + fsz)
      (getphdr env ec e).ignore.bind fun _ e =>
      match insertExtent ⟨phoff, fsz, .phdr, 0⟩ extents with
      | none => .err .LAYOUT e
      | some extents => .ok (phoff, rc, extents) e

/-- The place of the section header table; `rc` is the end of the last extent so far, an `off_t`. -/
def layoutShdr (shoff rc shnum : Nat) (extents : List Extent) (e : Elf) :
    Call (Nat × Nat × List Extent) :=
  if shnum = 0 then .ok (0, rc, extents) e
  else
    let fsz := libelfFsize .shdr ec shnum
    let align := falign (some .shdr) ec
    if e.eFlags.layout ∧ shoff % align ≠ 0 then .err .LAYOUT e
    else
      let shoff := if e.eFlags.layout then shoff else roundUpSigned rc align
      let tableEnd := wrap (shoff + fsz)
      let rc := if sgt tableEnd rc then tableEnd else rc
      match insertExtent ⟨shoff, fsz, .shdr, 0⟩ extents with
      | none => .err .LAYOUT e
      | some extents => .ok (shoff, rc, extents) e

def resyncElf (e : Elf) : Call (Nat × List Extent) :=
  (libelfEhdr env ec false e).bind fun h e =>
  (prepareEhdr ec h e).bind fun h e =>
  let shnum := e.eNscn
  let phnum := e.eNphdr
  let ehdrEnd := fsize .ehdr ec
  (layoutPhdr env ec (ec.get h.ePhoff) ehdrEnd phnum [⟨0, ehdrEnd, .ehdr, 0⟩] e).bind
    fun (phoff, rc, extents) e =>
  (needSectionHeaders env ec h e).bind fun _ e =>
  ((resyncSections env e ec 0 rc extents e.eScn).within e.setScn).bind fun (rc, extents) e =>
  if isNeg rc then .err .NONE e
  else
    (layoutShdr ec (ec.get h.eShoff) rc shnum extents e).bind fun (shoff, rc, extents) e =>
    (setphnum phnum e).bind fun _ e =>
    (setshnum ec shnum e).bind fun _ e =>
    let e :=
      if e.eFlags.layout then e
      else updEhdr (fun h => { h with ePhoff := ec.put phoff, eShoff := ec.put shoff }) e
    .ok (rc, extents) e

end Object

end LibElf.Toolchain
