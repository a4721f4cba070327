import LibElf.Elfutils.Descriptor

/-!
# Opening a descriptor

The part of `elf_begin.c` that makes a descriptor of a range of a file, and `elf_memory`. A function
that allocates the descriptor last gets it here first, so that it can read through it; a descriptor
in an error is one that the source has freed, or never allocated.

1. `determineKind`.
2. `getShnum`, the number of section headers, from the ELF header or from section header 0.
3. `fileReadElf`, the descriptor of an ELF object, with the block of sections found in the image.
4. `readMmapedFile`, `readUnmmapedFile` and `readFile`, for any kind of file, and `writeFile`.
-/

namespace LibElf.Elfutils

open Toolchain (ElfClass Ehdr Phdr Shdr)

/-- The 32 low bits as an `int`. -/
def toInt (n : Nat) : Int := if n % 2 ^ 32 < 2 ^ 31 then (n % 2 ^ 32 : Nat) else (n % 2 ^ 32 : Nat) - 2 ^ 32

/-- `determine_kind` of a buffer with as many bytes as there are. -/
def determineKind (buf : List UInt8) : Kind :=
  if sarmag ≤ buf.length ∧ buf.take sarmag = armag then .ar
  else if eiNident ≤ buf.length ∧ buf.take 4 = elfmag ∧
      (ElfClass.ofByte (buf.getD eiClass 0)).isSome ∧ (dataOrder (buf.getD eiData 0)).isSome ∧
      buf.getD eiVersion 0 = evCurrent then .elf
  else .none

section Begin

variable (env : Env)

/-! ## The number of sections -/

/-- A field of the header at `e_ident`, which is a buffer or the start of the mapped image. -/
def identField (buf : Option (List UInt8)) (ec : ElfClass) (swap : Bool) (f : EhdrField) (e : Elf) :
    Call Ehdr :=
  match buf with
  | some bs => .ok (Ehdr.ofFile env.host swap ec (bs.take (ehdrSize ec))) e
  | none =>
    (e.mapRead (e.startOffset + (f.extent ec).1) (f.extent ec).2).bind fun _ e =>
    .ok (e.mapEhdr env ec swap) e

/-- `sh_size` of section header 0 is not in the file. -/
def noShdr0 (ec : ElfClass) (shoff maxsize : Nat) : Prop :=
  match ec with
  | .elfclass32 => maxsize ≤ shoff ∨ maxsize - shoff < shdrSize .elfclass32
  | .elfclass64 => maxsize ≤ shoff ∨ maxsize < wrap (shoff + shdrSize .elfclass64)

instance (ec : ElfClass) (shoff maxsize : Nat) : Decidable (noShdr0 ec shoff maxsize) := by
  unfold noShdr0
  cases ec <;> exact inferInstance

/-- `sh_size` of section header 0, read from the mapped image or from the file. -/
def shSize0 (ec : ElfClass) (swap : Bool) (shoff : Nat) (e : Elf) : Call Nat :=
  let off := e.startOffset + shoff + (shSizeExtent ec).1
  let width := (shSizeExtent ec).2
  let size := ofBytes (fileOrder env.host swap)
  match e.mapAddress with
  | some _ => (e.mapRead off width).bind fun bs e => .ok (size bs) e
  | none =>
    match preadRetry env e.fildes width off with
    | none => .err .INVALID_FILE e
    | some bs => if bs.length ≠ width then .err .INVALID_ELF e else .ok (size bs) e

def truncated (ec : ElfClass) (shoff maxsize n : Nat) : Prop :=
  maxsize < shoff ∨ maxsize - shoff < shdrSize ec * n

instance (ec : ElfClass) (shoff maxsize n : Nat) : Decidable (truncated ec shoff maxsize n) :=
  inferInstanceAs (Decidable (_ ∨ _))

def getShnum (buf : Option (List UInt8)) (ec : ElfClass) (swap : Bool) (e : Elf) : Call Nat :=
  (identField env buf ec swap .shnum e).bind fun h e =>
  (identField env buf ec swap .shoff e).bind fun h' e =>
  let shnum := h.eShnum.toNat
  let shoff := ec.get h'.eShoff
  if shnum = 0 ∧ shoff ≠ 0 then
    if noShdr0 ec shoff e.maximumSize then .ok 0 e
    else
      (shSize0 env ec swap shoff e).bind fun size e =>
      -- only the 64-bit branch tests the value, which a 32-bit one always passes
      if 2 ^ 32 ≤ size then .err .INVALID_ELF e
      else .ok (if truncated ec shoff e.maximumSize size then 0 else size) e
  else .ok (if truncated ec shoff e.maximumSize shnum then 0 else shnum) e

/-! ## ELF objects -/

def shtSymtabShndx : UInt32 := 18

/-- `sizeof (Elf_Scn)`. -/
def scnSize : Nat := 208

/-- What section header `cnt` says of extended section indices. -/
def setShndx (shdrs : List Shdr) (data : List Scn) (cnt : Nat) : List Scn :=
  let s := shdrs.getD cnt Shdr.zero
  let data :=
    if s.shType = shtSymtabShndx ∧ s.shLink.toNat < shdrs.length then
      data.modify s.shLink.toNat fun scn => { scn with shndxIndex := toInt cnt }
    else data
  -- the own index, in case it has not been set yet
  data.modify cnt fun scn => if scn.shndxIndex = 0 then { scn with shndxIndex := -1 } else scn

/-- The sections of an object with `n` section headers that are not looked at yet. -/
def freshSections (n : Nat) : List Scn := (List.range n).map fun i => { Scn.zero with index := i }

/-- The sections of an object whose section headers are used in place. -/
def sectionsInPlace (shdrs : List Shdr) : List Scn :=
  (List.range shdrs.length).foldl (setShndx shdrs)
    ((List.range shdrs.length).map fun i => { Scn.zero with index := i, shdr := shdrs[i]? })

/-- The section headers in the bytes of the table. -/
def shdrTable (ec : ElfClass) (swap : Bool) (n : Nat) (bs : List UInt8) : List Shdr :=
  (List.range n).map fun i => Shdr.ofFile env.host swap ec (window bs (i * shdrSize ec) (shdrSize ec))

/-- The capacity of the first block. An object for update has room for section 0 at least. -/
def scnMax (cmd : Cmd) (scncnt : Nat) : Nat :=
  if scncnt ≠ 0 then scncnt else if cmd = .rdwr ∨ cmd = .rdwrMmap then 1 else 0

def firstBlock (cmd : Cmd) (scns : List Scn) : ScnList :=
  ⟨scns.length, scns ++ List.replicate (scnMax cmd scns.length - scns.length) Scn.zero⟩

/-- The end of `file_read_elf`: the header is found, the sections are not. -/
def readSections (ec : ElfClass) (swap : Bool) (scncnt : Nat) (e : Elf) : Call Unit :=
  (e.header env ec .shoff).bind fun h e =>
  let shoff := ec.get h.eShoff
  if e.mapAddress.isSome ∧ swap = false ∧ e.cmd ≠ .readMmap then
    if 0 < scncnt ∧ e.maximumSize ≤ shoff ∨
        wrap (e.maximumSize + (2 ^ 64 - shoff)) < scncnt * shdrSize ec then .err .INVALID_ELF e
    else
      (e.mapRead (e.startOffset + shoff) (scncnt * shdrSize ec)).bind fun bs e =>
      let scns := sectionsInPlace (shdrTable env ec swap scncnt bs)
      .ok () ((e.setScns [firstBlock e.cmd scns]).setScnincr 10)
  else .ok () ((e.setScns [firstBlock e.cmd (freshSections scncnt)]).setScnincr 10)

def fileReadElf (buf : Option (List UInt8)) (ident : List UInt8) (e : Elf) : Call Unit :=
  match ElfClass.ofByte (ident.getD eiClass 0), dataOrder (ident.getD eiData 0) with
  | some ec, some order =>
    let swap := decide (order ≠ env.host)
    (getShnum env buf ec swap e).bind fun scncnt e =>
    if (2 ^ 64 - 1) / (scnSize + shdrSize ec) < scncnt then .err .INVALID_ELF e
    else if e.mapAddress.isSome ∧ swap = false then
      readSections env ec swap scncnt (e.setEhdr ec .mapped)
    else
      (identField env buf ec swap .all e).bind fun h e =>
      readSections env ec swap scncnt (e.setEhdr ec (.copied h))
  | _, _ => .err .INVALID_ELF e

def fileReadAr (e : Elf) : Elf :=
  (e.setKind .ar).setAr { e.ar with offset := e.startOffset + sarmag }

/-! ## Files -/

def readMmapedFile (fildes : Int) (image : Image) (offset maxsize : Nat) (cmd : Cmd)
    (parent : Option Nat) : Call Unit :=
  let e := allocateElf fildes (some image) offset maxsize cmd parent .none
  (e.mapRead offset (min eiNident maxsize)).bind fun ident e =>
  match determineKind ident with
  | .elf => fileReadElf env none ident (e.setKind .elf)
  | .ar => .ok () (fileReadAr e)
  | .none => .ok () e

def readUnmmapedFile (fildes : Int) (offset maxsize : Nat) (cmd : Cmd) (parent : Option Nat) :
    Call Unit :=
  let e := allocateElf fildes none offset maxsize cmd parent .none
  match preadRetry env fildes (min (max (ehdrSize .elfclass64) sarmag) maxsize) offset with
  | none => .err .INVALID_FILE e
  | some bs =>
    match determineKind bs with
    | .ar => .ok () (fileReadAr e)
    | .elf =>
      let size := if bs.getD eiClass 0 = 1 then ehdrSize .elfclass32 else ehdrSize .elfclass64
      if size ≤ bs.length then fileReadElf env (some bs) bs (e.setKind .elf) else .ok () e
    | .none => .ok () e

def useMmap (cmd : Cmd) : Bool :=
  cmd = .readMmap ∨ cmd = .rdwrMmap ∨ cmd = .writeMmap ∨ cmd = .readMmapPrivate

/-- `read_file` of a file that is no member of an archive. A file without bytes cannot be mapped. -/
def readFile (fildes : Int) (cmd : Cmd) : Call Unit :=
  let maxsize := (env.file fildes).bytes.length
  if useMmap cmd ∧ maxsize ≠ 0 then readMmapedFile env fildes (env.file fildes) 0 maxsize cmd none
  else readUnmmapedFile env fildes 0 maxsize cmd none

/-- `read_file` of the range of a member, below the descriptor `ref` with handle `parent`. -/
def readMember (fildes : Int) (offset maxsize : Nat) (cmd : Cmd) (parent : Nat) (ref : Elf) :
    Call Unit :=
  match ref.mapAddress with
  | some image =>
    if useMmap cmd then readMmapedFile env fildes image offset maxsize cmd (some parent)
    else readUnmmapedFile env fildes offset maxsize cmd (some parent)
  | none => readUnmmapedFile env fildes offset maxsize cmd (some parent)

def elfMemory (image : Image) : Call Unit :=
  readMmapedFile env (-1) image 0 image.bytes.length .read none

def nscnsalloc : Nat := 10

def writeFile (fd : Int) (cmd : Cmd) : Elf :=
  ((allocateElf fd none 0 0 cmd none .elf).setScns [ScnList.alloc nscnsalloc]).setScnincr nscnsalloc

/-! ## What opening leaves -/

variable {env}

theorem identField_ok {buf : Option (List UInt8)} {ec : ElfClass} {swap : Bool} {f : EhdrField}
    {e e' : Elf} {h : Ehdr} (hh : identField env buf ec swap f e = .ok h e') : e' = e := by
  unfold identField at hh
  split at hh
  · cases hh
    rfl
  · obtain ⟨bs, t, hread, hrest⟩ := Outcome.bind_eq_ok.mp hh
    obtain rfl := Elf.mapRead_ok hread
    cases hrest
    rfl

theorem shSize0_ok {ec : ElfClass} {swap : Bool} {shoff n : Nat} {e e' : Elf}
    (h : shSize0 env ec swap shoff e = .ok n e') : e' = e := by
  unfold shSize0 at h
  split at h
  · obtain ⟨bs, t, hread, hrest⟩ := Outcome.bind_eq_ok.mp h
    obtain rfl := Elf.mapRead_ok hread
    cases hrest
    rfl
  · extract_lets at h
    split at h
    · cases h
    · split at h
      · cases h
      · cases h
        rfl

theorem getShnum_ok {buf : Option (List UInt8)} {ec : ElfClass} {swap : Bool} {n : Nat} {e e' : Elf}
    (h : getShnum env buf ec swap e = .ok n e') : e' = e := by
  unfold getShnum at h
  obtain ⟨h₁, t, hfield, hrest⟩ := Outcome.bind_eq_ok.mp h
  obtain rfl := identField_ok hfield
  obtain ⟨h₂, t', hfield', hrest'⟩ := Outcome.bind_eq_ok.mp hrest
  obtain rfl := identField_ok hfield'
  extract_lets at hrest'
  split at hrest'
  · split at hrest'
    · cases hrest'
      rfl
    · obtain ⟨size, t, hsize, hlast⟩ := Outcome.bind_eq_ok.mp hrest'
      obtain rfl := shSize0_ok hsize
      split at hlast
      · cases hlast
      · cases hlast
        rfl
  · cases hrest'
    rfl

/-- The sections that opening finds carry their indices, and are all in the first block. -/
structure Found (n : Nat) (scns : List Scn) : Prop where
  index : scns.map Scn.index = List.range n
  list : scns.map Scn.list = List.replicate n 0

theorem Found.fresh (n : Nat) : Found n (freshSections n) := by
  constructor <;> simp [freshSections, Function.comp_def, Scn.zero, List.map_const']

/-- A member that extended indices do not change keeps its values. -/
theorem map_setShndx {β : Type} (g : Scn → β) (hg : ∀ s i, g { s with shndxIndex := i } = g s)
    (shdrs : List Shdr) (data : List Scn) (cnt : Nat) : (setShndx shdrs data cnt).map g = data.map g := by
  have hmod : ∀ (l : List Scn) (k : Nat) (f : Scn → Scn), (∀ s, g (f s) = g s) →
      (l.modify k f).map g = l.map g := by
    intro l k f hf
    apply List.ext_getElem?
    intro i
    rw [List.getElem?_map, List.getElem?_map, List.getElem?_modify]
    cases l[i]? with
    | none => rfl
    | some s =>
      by_cases hk : k = i
      · simp [hk, hf]
      · simp [hk]
  unfold setShndx
  simp only
  rw [hmod]
  · split
    · exact hmod _ _ _ fun s => hg s _
    · rfl
  · intro s
    split
    · exact hg s _
    · rfl

theorem map_sectionsInPlace {β : Type} (g : Scn → β) (hg : ∀ s i, g { s with shndxIndex := i } = g s)
    (shdrs : List Shdr) : (sectionsInPlace shdrs).map g =
      (List.range shdrs.length).map fun i => g { Scn.zero with index := i, shdr := shdrs[i]? } := by
  have hfold : ∀ (l : List Nat) (data : List Scn),
      (l.foldl (setShndx shdrs) data).map g = data.map g := by
    intro l
    induction l with
    | nil => intro data; rfl
    | cons i l ih =>
      intro data
      rw [List.foldl_cons, ih, map_setShndx g hg]
  rw [sectionsInPlace, hfold, List.map_map]
  rfl

theorem Found.inPlace (shdrs : List Shdr) : Found shdrs.length (sectionsInPlace shdrs) := by
  constructor
  · rw [map_sectionsInPlace Scn.index fun _ _ => rfl]
    simp
  · rw [map_sectionsInPlace Scn.list fun _ _ => rfl]
    simp [Scn.zero, List.map_const']

theorem readSections_ok {ec : ElfClass} {swap : Bool} {n : Nat} {e e' : Elf}
    (h : readSections env ec swap n e = .ok () e') :
    ∃ scns, Found n scns ∧ e' = (e.setScns [firstBlock e.cmd scns]).setScnincr 10 := by
  unfold readSections at h
  obtain ⟨hdr, t, hread, hrest⟩ := Outcome.bind_eq_ok.mp h
  obtain rfl := Elf.header_ok hread
  extract_lets at hrest
  split at hrest
  · split at hrest
    · cases hrest
    · obtain ⟨bs, t', hmap, hlast⟩ := Outcome.bind_eq_ok.mp hrest
      obtain rfl := Elf.mapRead_ok hmap
      cases hlast
      have hfound := Found.inPlace (shdrTable env ec swap n bs)
      rw [show (shdrTable env ec swap n bs).length = n by simp [shdrTable]] at hfound
      exact ⟨_, hfound, rfl⟩
  · cases hrest
    exact ⟨_, Found.fresh n, rfl⟩

/-- An ELF object is opened with one block, that of the sections found. -/
theorem fileReadElf_ok {buf : Option (List UInt8)} {ident : List UInt8} {e e' : Elf}
    (h : fileReadElf env buf ident e = .ok () e') :
    ∃ n ec hdr scns, Found n scns ∧
      e' = ((e.setEhdr ec hdr).setScns [firstBlock e.cmd scns]).setScnincr 10 := by
  unfold fileReadElf at h
  split at h
  · next ec order _ _ =>
    extract_lets swap at h
    obtain ⟨n, t, hshnum, hrest⟩ := Outcome.bind_eq_ok.mp h
    obtain rfl := getShnum_ok hshnum
    split at hrest
    · cases hrest
    · split at hrest
      · obtain ⟨scns, hfound, rfl⟩ := readSections_ok hrest
        exact ⟨n, ec, .mapped, scns, hfound, rfl⟩
      · obtain ⟨hdr, t, hfield, hlast⟩ := Outcome.bind_eq_ok.mp hrest
        obtain rfl := identField_ok hfield
        obtain ⟨scns, hfound, rfl⟩ := readSections_ok hlast
        exact ⟨n, ec, .copied hdr, scns, hfound, rfl⟩
  · cases h

end Begin

end LibElf.Elfutils
