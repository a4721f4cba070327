import LibElf.Toolchain.Header

/-!
# Sections and their data

`elf_scn.c` and `elf_data.c`. A call on a section works on the section and reads the descriptor it
belongs to; `onScn` runs it on a section of a descriptor.

1. `loadSectionHeaders`, `elfGetscn` and `elfNewscn`, the list of sections.
2. `getdata`, `rawdata` and `newdata`, the data descriptors of a section.
3. `updateShdr`, `storeShdr` and `updateData`, what the application may change.
4. `contentsOf_ok` and `getdata_ok`, what a successful read of the contents says of them.
-/

namespace LibElf.Toolchain

section Sections

variable (env : Env)

/-! ## The list of sections -/

def loadScn (e : Elf) (ec : ElfClass) (ndx : Nat) (bs : List UInt8) : Scn :=
  let shdr := Shdr.ofFile env.host (e.swaps env) ec bs
  { allocateScn ndx with
    shdr := shdr
    sOffset := ec.get shdr.shOffset
    sRawoff := ec.get shdr.shOffset
    sSize := ec.get shdr.shSize }

/-- The loop over the section header table: `n` entries at `src`, the first with index `ndx`. -/
def loadLoop (ec : ElfClass) : Nat → Nat → Nat → Elf → Call Unit
  | 0, _, _, e => .ok () e
  | n + 1, src, ndx, e =>
    (e.read src (fsize .shdr ec) e).bind fun bs e =>
    loadLoop ec n (src + fsize .shdr ec) (ndx + 1) (e.setScn (e.eScn ++ [loadScn env e ec ndx bs]))

/-- `_libelf_load_section_headers`. With extended numbering section 0 is there already. -/
def loadSectionHeaders (ec : ElfClass) (ehdr : Ehdr) (e : Elf) : Call Unit :=
  if e.eFlags.shdrsLoaded then .stop .assertion
  else
    let shoff := ec.get ehdr.eShoff
    let fsz := fsize .shdr ec
    let shnum := e.eNscn
    if e.rawsize < shoff ∨ fsz ≠ ehdr.eShentsize.toNat ∨ (2 ^ 64 - 1) / fsz < shnum ∨
        e.rawsize - shoff < fsz * shnum then .err .HEADER e
    else
      (match e.eScn with
        | [] => loadLoop env ec shnum shoff 0 e
        | [_] => loadLoop env ec (shnum - 1) (shoff + fsz) 1 e
        | _ => .stop .assertion).bind fun _ e =>
      .ok () (e.setFlags { e.eFlags with shdrsLoaded := true })

/-- Bring in the section headers of a file that is read, unless they are there. -/
def needSectionHeaders (ec : ElfClass) (ehdr : Ehdr) (e : Elf) : Call Unit :=
  if e.eCmd ≠ .write ∧ e.eFlags.shdrsLoaded = false then loadSectionHeaders env ec ehdr e
  else .ok () e

def elfGetscn (index : Nat) (e : Elf) : Call Nat :=
  withClass (fun ec e =>
    (libelfEhdr env ec false e).bind fun h e =>
    (needSectionHeaders env ec h e).bind fun _ e =>
    match e.eScn.findIdx? fun s => s.sNdx = index with
    | some i => .ok i e
    | none => .err .ARGUMENT e) e

/-- `elf_newscn`: append a section, and section 0 before it to an empty list. -/
def elfNewscn (e : Elf) : Call Nat :=
  match e.eClass with
  | none => .err .CLASS e
  | some ec =>
    (libelfEhdr env ec false e).bind fun h e =>
    (needSectionHeaders env ec h e).bind fun _ e =>
    if e.eScn = [] ∧ e.eNscn ≠ 0 then .stop .assertion
    else
      let e := if e.eScn = [] then (e.setScn [allocateScn 0]).setCounts e.eNphdr 1 e.eStrndx else e
      if e.eNscn = 0 then .stop .assertion
      else
        let scn := { allocateScn e.eNscn with sDirty := true }
        .ok e.eScn.length
          ((e.setScn (e.eScn ++ [scn])).setCounts e.eNphdr (wrap (e.eNscn + 1)) e.eStrndx)

/-! ## Data -/

/-- A call on one section of a descriptor that is read only. -/
abbrev ScnCall (α : Type) := Outcome ElfError Scn α

/-- The section's contents lie outside the image. `SHT_NOBITS` sections have none. -/
def outOfImage (e : Elf) (ec : ElfClass) (h : Shdr) : Prop :=
  h.shType ≠ shtNobits ∧
    (e.rawsize < ec.get h.shOffset ∨ e.rawsize - ec.get h.shOffset < ec.get h.shSize)

instance (e : Elf) (ec : ElfClass) (h : Shdr) : Decidable (outOfImage e ec h) :=
  inferInstanceAs (Decidable (_ ∧ _))

/-- The type and the count of the objects in a section, or why they cannot be read. -/
def contentsOf (e : Elf) (ec : ElfClass) (h : Shdr) : Except ElfError (ElfType × Nat) :=
  if h.shType = shtNull then .error .SECTION
  else
    match xlateShtype h.shType with
    | none => .error .SECTION
    | some t =>
      if outOfImage e ec h then .error .SECTION
      else if fsize t ec = 0 then .error .UNIMPL
      else if ec.get h.shSize % fsize t ec ≠ 0 then .error .SECTION
      else
        let count := ec.get h.shSize / fsize t ec
        if 0 < count ∧ (2 ^ 64 - 1) / count < msize t ec then .error .RANGE
        else .ok (t, count)

def translated (e : Elf) (ec : ElfClass) (h : Shdr) (t : ElfType) {size : Nat} (m : Mem size)
    (hsize : size < 2 ^ 64) : ElfData where
  dAlign := UInt64.ofNat (ec.get h.shAddralign)
  dOff := 0
  dSize := UInt64.ofNat size
  dBuf := some ⟨env.heapAddr, m.bytes⟩
  dType := some t
  dVersion := e.eVersion
  size_buf := by
    intro b hb
    cases hb
    rw [m.length_eq, UInt64.toNat_ofNat', Nat.mod_eq_of_lt hsize]

def unallocated (e : Elf) (ec : ElfClass) (h : Shdr) (t : ElfType) (size : Nat) : ElfData where
  dAlign := UInt64.ofNat (ec.get h.shAddralign)
  dOff := 0
  dSize := UInt64.ofNat size
  dBuf := none
  dType := some t
  dVersion := e.eVersion
  size_buf := by intro b hb; cases hb

/-- `elf_getdata(s, NULL)`. -/
def getdata (e : Elf) (ec : ElfClass) (s : Scn) : ScnCall ElfData :=
  match s.sData with
  | d :: _ => .ok d s
  | [] =>
    if e.eRawfile = none then .err .ARGUMENT s
    else
      match contentsOf e ec s.shdr with
      | .error err => .err err s
      | .ok (t, count) =>
        let size := msize t ec * count
        if s.shdr.shType = shtNobits ∨ ec.get s.shdr.shSize = 0 then
          let d := unallocated e ec s.shdr t size
          .ok d { s with sData := [d] }
        else
          match getTranslator env.host t false ec with
          | none => .stop .null
          | some xlate =>
            match xlate size (.fresh env.heap size) 0 size
                (e.rawbytes.drop (ec.get s.shdr.shOffset)) count (e.swaps env) with
            | .stop f => .stop f
            | .err _ _ => .err .DATA s
            | .ok _ m =>
              if h : size < 2 ^ 64 then
                let d := translated env e ec s.shdr t m h
                .ok d { s with sData := [d] }
              else .stop .assertion

/-- The descriptor `elf_rawdata` makes: the bytes of the image at `sh_offset`. -/
def rawDescriptor (e : Elf) (ec : ElfClass) (h : Shdr) (hin : ¬ outOfImage e ec h) : ElfData where
  dAlign := UInt64.ofNat (ec.get h.shAddralign)
  dOff := 0
  dSize := UInt64.ofNat (ec.get h.shSize)
  dBuf :=
    if h.shType = shtNobits ∨ ec.get h.shSize = 0 then none
    else some ⟨(e.eRawfile.map Image.addr).getD 0 + ec.get h.shOffset,
      window e.rawbytes (ec.get h.shOffset) (ec.get h.shSize)⟩
  dType := some .byte
  dVersion := e.eVersion
  size_buf := by
    intro b hb
    split at hb
    · cases hb
    · next hne =>
      cases hb
      have hsize := ec.get_lt h.shSize
      have hlen := e.length_rawbytes
      rw [UInt64.toNat_ofNat', Nat.mod_eq_of_lt hsize]
      refine length_window ?_
      have : ¬ (e.rawsize < ec.get h.shOffset ∨ e.rawsize - ec.get h.shOffset < ec.get h.shSize) :=
        fun hr => hin ⟨fun hn => hne (.inl hn), hr⟩
      omega

/-- `elf_rawdata(s, NULL)`. -/
def rawdata (e : Elf) (ec : ElfClass) (s : Scn) : ScnCall ElfData :=
  if e.eRawfile = none then .err .ARGUMENT s
  else
    match s.sRawdata with
    | d :: _ => .ok d s
    | [] =>
      if s.shdr.shType = shtNull then .err .SECTION s
      else if h : outOfImage e ec s.shdr then .err .SECTION s
      else
        let d := rawDescriptor e ec s.shdr h
        .ok d { s with sRawdata := [d] }

/-- The descriptor `elf_newdata` appends. -/
def freshData : ElfData where
  dAlign := 1
  dOff := UInt64.ofNat (2 ^ 64 - 1)
  dSize := 0
  dBuf := none
  dType := some .byte
  dVersion := evCurrent
  size_buf := by intro b hb; cases hb

/-- `elf_newdata`. -/
def newdata (e : Elf) (ec : ElfClass) (s : Scn) : ScnCall ElfData :=
  (if e.eRawfile ≠ none ∧ 0 < s.sSize ∧ s.sData = [] then
      (getdata env e ec s).bind fun _ s => .ok () s
    else .ok () s).bind fun _ s =>
  .ok freshData { s with sData := s.sData ++ [freshData], sDirty := true }

/-! ## Calls on a descriptor -/

def onScn {α : Type} (f : Elf → ElfClass → Scn → ScnCall α) (i : Nat) (e : Elf) : Call α :=
  withClass (fun ec e =>
    match e.eScn[i]? with
    | none => .err .ARGUMENT e
    | some s => (f e ec s).within fun s => e.setScn (e.eScn.set i s)) e

/-- A call on a section that is there. -/
theorem onScn_of_some {e : Elf} {ec : ElfClass} {i : Nat} {s : Scn} {α : Type} {f : Elf → ElfClass → Scn → ScnCall α}
    (hclass : e.eClass = some ec) (hs : e.eScn[i]? = some s) :
    onScn f i e = (f e ec s).within fun s => e.setScn (e.eScn.set i s) := by
  rw [onScn, withClass_of_class _ hclass, hs]

/-- `elf_getdata(s, NULL)` on the section with handle `i`. -/
def elfGetdata (i : Nat) (e : Elf) : Call ElfData := onScn (getdata env) i e

/-- `elf_rawdata(s, NULL)` on the section with handle `i`. -/
def elfRawdata (i : Nat) (e : Elf) : Call ElfData := onScn rawdata i e

/-- `elf_newdata` on the section with handle `i`. -/
def elfNewdata (i : Nat) (e : Elf) : Call ElfData := onScn (newdata env) i e

/-- The application stores a section header with `gelf_update_shdr`. -/
def updateShdr (i : Nat) (h : Shdr) (e : Elf) : Call Unit :=
  onScn (fun _ ec s => .ok () { s with shdr := h.narrow ec, sDirty := true }) i e

/-- The application stores through the pointer of `elf32_getshdr` or `elf64_getshdr`. The library does not notice. -/
def storeShdr (i : Nat) (h : Shdr) (e : Elf) : Call Unit :=
  onScn (fun _ ec s => .ok () { s with shdr := h.narrow ec }) i e

/-- `elf_flagscn` and `elf_flagshdr` with `ELF_F_DIRTY`. -/
def elfFlagscn (i : Nat) (set : Bool) (e : Elf) : Call Unit :=
  onScn (fun _ _ s => .ok () { s with sDirty := set }) i e

/-- The application stores through the pointer to data descriptor `j` of a section. -/
def updateData (i j : Nat) (d : ElfData) (e : Elf) : Call Unit :=
  onScn (fun _ _ s => .ok () { s with sData := s.sData.set j d }) i e

/-! ## Contents that are read -/

variable {env} {e : Elf} {ec : ElfClass}

/-- Contents that pass the checks of `elf_getdata`: they are inside the image, and made of whole
objects whose memory representation has a size. -/
theorem contentsOf_ok {h : Shdr} {t : ElfType} {count : Nat} (hc : contentsOf e ec h = .ok (t, count)) :
    ¬ outOfImage e ec h ∧ 0 < fsize t ec ∧ ec.get h.shSize = fsize t ec * count ∧
      msize t ec * count < 2 ^ 64 := by
  unfold contentsOf at hc
  split at hc
  · cases hc
  split at hc
  · cases hc
  split at hc
  · cases hc
  next hout =>
  split at hc
  · cases hc
  next hfsz =>
  split at hc
  · cases hc
  next hmod =>
  dsimp only at hc
  split at hc
  · cases hc
  next hrange =>
  cases hc
  have hsize := Nat.mul_div_cancel' (Nat.dvd_of_mod_eq_zero (Decidable.not_not.mp hmod))
  refine ⟨hout, Nat.pos_of_ne_zero hfsz, hsize.symm, ?_⟩
  rcases Nat.eq_zero_or_pos (ec.get h.shSize / fsize t ec) with hzero | hpos
  · rw [hzero, Nat.mul_zero]
    decide
  · have hle : msize t ec ≤ (2 ^ 64 - 1) / (ec.get h.shSize / fsize t ec) := by
      by_contra hlt
      exact hrange ⟨hpos, Nat.lt_of_not_le hlt⟩
    have := (Nat.le_div_iff_mul_le hpos).mp hle
    omega

/-- The first descriptor that `elf_getdata` makes of a section. -/
theorem getdata_ok {s s' : Scn} {d : ElfData} (hg : getdata env e ec s = .ok d s') (hdata : s.sData = []) :
    s' = { s with sData := [d] } ∧ ∃ t count, contentsOf e ec s.shdr = .ok (t, count) ∧
      d.dAlign = UInt64.ofNat (ec.get s.shdr.shAddralign) ∧ d.dOff = 0 ∧ d.dType = some t ∧
      d.dSize = UInt64.ofNat (msize t ec * count) ∧ d.dVersion = e.eVersion ∧
      (d.dBuf = none ↔ s.shdr.shType = shtNobits ∨ ec.get s.shdr.shSize = 0) := by
  unfold getdata at hg
  split at hg
  · next hcons => exact absurd (hdata.symm.trans hcons) (List.cons_ne_nil _ _).symm
  split at hg
  · cases hg
  split at hg
  · cases hg
  next t count hc =>
  dsimp only at hg
  split at hg
  · next hempty =>
    cases hg
    exact ⟨rfl, t, count, hc, rfl, rfl, rfl, rfl, rfl, by simp [unallocated, hempty]⟩
  next hfull =>
  split at hg
  · cases hg
  split at hg
  · cases hg
  · cases hg
  split at hg
  · cases hg
    exact ⟨rfl, t, count, hc, rfl, rfl, rfl, rfl, rfl, by simp [translated, hfull]⟩
  · cases hg

end Sections

end LibElf.Toolchain
