import LibElf.Elfutils.OpenImage

/-!
# One image, opened in different ways

An image can be read, mapped, mapped privately or mapped for update, and be a file of its own or a member of an
archive. What an application is answered is the same for an image without section headers. Where there is one,
`elf_scnshndx` tells an image that was read from one that was mapped.

1. `Over`, a descriptor of the image, and what it loads and reads: `mapRead_over`, `pread_over`.
2. `shnumOf`, the number of sections of an image, `getShnum_over` and `fileReadElf_over`.
3. `Opening` and `Opening.result`, `Empty` and `ask_empty`, the answers without sections.
4. `shndx_read` and `shndx_mapped`, the two answers for section 0, and `answers_agree_iff`.
-/

namespace LibElf.Elfutils

open Outcome
open Toolchain (ElfClass Ehdr Phdr Shdr)

variable {env : Env} {img : List UInt8} {ec : ElfClass} {swap : Bool} {e : Elf}

/-! ## Descriptors of an image -/

/-- The range of the descriptor has the bytes of the image, in the file and where it is mapped. -/
structure Over (env : Env) (img : List UInt8) (e : Elf) : Prop where
  range : window (env.file e.fildes).bytes e.startOffset img.length = img
  inside : e.startOffset + img.length ≤ (env.file e.fildes).bytes.length
  mapped : ∀ image, e.mapAddress = some image → image = env.file e.fildes
  size : e.maximumSize = img.length
  fildes : e.fildes ≠ -1

theorem Over.window (h : Over env img e) {off len : Nat} (hin : off + len ≤ img.length) :
    LibElf.window (env.file e.fildes).bytes (e.startOffset + off) len = LibElf.window img off len := by
  conv_rhs => rw [← h.range]
  rw [window_window hin]

theorem mapRead_over (h : Over env img e) (hm : e.mapAddress.isSome) {off len : Nat}
    (hin : off + len ≤ img.length) :
    e.mapRead (e.startOffset + off) len = .ok (window img off len) e := by
  obtain ⟨image, himage⟩ := Option.isSome_iff_exists.mp hm
  have hlen := h.inside
  rw [Elf.mapRead, himage]
  simp only
  rw [if_neg (by rw [h.size]; omega), h.mapped image himage, readAt_of_le _ (by omega), h.window hin]

theorem pread_over (h : Over env img e) {off len : Nat} (hin : off + len ≤ img.length) :
    preadRetry env e.fildes len (e.startOffset + off) = some (window img off len) ∧
      preadRetry env e.fildes len (wrap (e.startOffset + off)) = some (window img off len) := by
  have hlen := h.inside
  have hsmall := (env.file e.fildes).small
  have hfd := h.fildes
  have hwrap : wrap (e.startOffset + off) = e.startOffset + off := wrap_of_lt (by omega)
  rw [hwrap, preadRetry, if_neg (by simp only [hfd, false_or]; omega), h.window hin]
  exact ⟨rfl, rfl⟩

def imageHdr (host : ByteOrder) (ec : ElfClass) (swap : Bool) (img : List UInt8) : Ehdr :=
  Ehdr.ofFile host swap ec (window img 0 (ehdrSize ec))

theorem mapEhdr_over (h : Over env img e) (hm : e.mapAddress.isSome) (hlong : ehdrSize ec ≤ img.length) :
    e.mapEhdr env ec swap = imageHdr env.host ec swap img := by
  obtain ⟨image, himage⟩ := Option.isSome_iff_exists.mp hm
  have hw := @Over.window env img e h 0 (ehdrSize ec) (by omega)
  rw [Nat.add_zero] at hw
  rw [Elf.mapEhdr, himage, h.mapped image himage, Option.map_some, Option.getD_some, hw, imageHdr]

/-! ## The number of sections -/

/-- The number of sections of an image, or none where opening fails. -/
def shnumOf (host : ByteOrder) (ec : ElfClass) (swap : Bool) (img : List UInt8) : Option Nat :=
  let shnum := (imageHdr host ec swap img).eShnum.toNat
  let shoff := ec.get (imageHdr host ec swap img).eShoff
  if shnum = 0 ∧ shoff ≠ 0 then
    if noShdr0 ec shoff img.length then some 0
    else
      let size := ofBytes (fileOrder host swap) (window img (shoff + (shSizeExtent ec).1) (shSizeExtent ec).2)
      if 2 ^ 32 ≤ size then none
      else some (if truncated ec shoff img.length size then 0 else size)
  else some (if truncated ec shoff img.length shnum then 0 else shnum)

/-- Where the header of the image is found: in the mapping, or in what was read of the file. -/
def HeaderAt (ec : ElfClass) (img : List UInt8) (buf : Option (List UInt8)) (e : Elf) : Prop :=
  match buf with
  | none => e.mapAddress.isSome
  | some bs => e.mapAddress = none ∧ bs.take (ehdrSize ec) = window img 0 (ehdrSize ec)

theorem identField_over {buf : Option (List UInt8)} (h : Over env img e) (hb : HeaderAt ec img buf e)
    (hlong : ehdrSize ec ≤ img.length) (f : EhdrField) :
    identField env buf ec swap f e = .ok (imageHdr env.host ec swap img) e := by
  have hle := f.extent_le ec
  cases buf with
  | none => rw [identField, mapRead_over h hb (by omega), bind_ok, mapEhdr_over h hb hlong]
  | some bs => rw [identField, hb.2, imageHdr]

theorem shSize0_over (h : Over env img e) {shoff : Nat} (hin : ¬ noShdr0 ec shoff img.length) :
    shSize0 env ec swap shoff e =
      .ok (ofBytes (fileOrder env.host swap) (window img (shoff + (shSizeExtent ec).1) (shSizeExtent ec).2)) e := by
  have hlen := h.inside
  have hsmall := (env.file e.fildes).small
  have hfits : shoff + (shSizeExtent ec).1 + (shSizeExtent ec).2 ≤ img.length := by
    cases ec with
    | elfclass32 =>
      have hin' : ¬ (img.length ≤ shoff ∨ img.length - shoff < 40) := hin
      show shoff + 20 + 4 ≤ _
      omega
    | elfclass64 =>
      have hin' : ¬ (img.length ≤ shoff ∨ img.length < wrap (shoff + 64)) := hin
      rw [wrap_of_lt (by omega)] at hin'
      show shoff + 32 + 8 ≤ _
      omega
  have hwidth : (window img (shoff + (shSizeExtent ec).1) (shSizeExtent ec).2).length = (shSizeExtent ec).2 :=
    length_window hfits
  unfold shSize0
  rw [Nat.add_assoc]
  cases hm : e.mapAddress with
  | some image =>
    simp only
    rw [mapRead_over h (by rw [hm]; rfl) hfits, bind_ok]
  | none =>
    simp only
    rw [(pread_over h hfits).1]
    simp only
    rw [if_neg (not_not.mpr hwidth)]

theorem getShnum_over {buf : Option (List UInt8)} (h : Over env img e) (hb : HeaderAt ec img buf e)
    (hlong : ehdrSize ec ≤ img.length) :
    getShnum env buf ec swap e = match shnumOf env.host ec swap img with
      | none => .err .INVALID_ELF e
      | some n => .ok n e := by
  unfold getShnum shnumOf
  rw [identField_over h hb hlong, bind_ok, identField_over h hb hlong, bind_ok, h.size]
  extract_lets shnum shoff size
  by_cases hzero : shnum = 0 ∧ shoff ≠ 0
  · rw [if_pos hzero, if_pos hzero]
    by_cases hno : noShdr0 ec shoff img.length
    · rw [if_pos hno, if_pos hno]
    · rw [if_neg hno, if_neg hno, shSize0_over h hno, bind_ok]
      by_cases hbig : 2 ^ 32 ≤ size
      · rw [if_pos hbig, if_pos hbig]
      · rw [if_neg hbig, if_neg hbig, h.size]
  · rw [if_neg hzero, if_neg hzero]

/-- There are fewer sections than 32 bits count, and their headers are in the image. -/
theorem shnumOf_bounds {n : Nat} {host : ByteOrder} (h : shnumOf host ec swap img = some n) :
    n < 2 ^ 32 ∧ (n = 0 ∨ ec.get (imageHdr host ec swap img).eShoff + n * shdrSize ec ≤ img.length) := by
  have hfit : ∀ {k shoff : Nat}, k < 2 ^ 32 → (if truncated ec shoff img.length k then 0 else k) < 2 ^ 32 ∧
      ((if truncated ec shoff img.length k then 0 else k) = 0 ∨
        shoff + (if truncated ec shoff img.length k then 0 else k) * shdrSize ec ≤ img.length) := by
    intro k shoff hk
    split
    · exact ⟨by omega, .inl rfl⟩
    · next hin =>
      refine ⟨hk, .inr ?_⟩
      rw [truncated, Nat.mul_comm] at hin
      omega
  unfold shnumOf at h
  extract_lets shnum shoff size at h
  split at h
  · split at h
    · obtain rfl := Option.some.inj h
      exact ⟨by omega, .inl rfl⟩
    · split at h
      · cases h
      · next hbig =>
        obtain rfl := Option.some.inj h
        exact hfit (by omega)
  · obtain rfl := Option.some.inj h
    have hsmall : shnum < 2 ^ 16 := (imageHdr host ec swap img).eShnum.toNat_lt
    exact hfit (by omega)

/-! ## Opening -/

/-- The image is one of a kind and class that the library knows. -/
structure IsElf (host : ByteOrder) (ec : ElfClass) (swap : Bool) (img : List UInt8) : Prop where
  long : ehdrSize ec ≤ img.length
  kind : determineKind (img.take eiNident) = .elf
  elfClass : ElfClass.ofByte (img.getD eiClass 0) = some ec
  order : ∃ o, dataOrder (img.getD eiData 0) = some o ∧ swap = decide (o ≠ host)

def openedSections (host : ByteOrder) (ec : ElfClass) (swap : Bool) (img : List UInt8) (e : Elf) (n : Nat) : List Scn :=
  if e.mapAddress.isSome ∧ swap = false ∧ e.cmd ≠ .readMmap then
    sectionsInPlace ((List.range n).map fun i => Shdr.ofFile host swap ec
      (window (window img (ec.get (imageHdr host ec swap img).eShoff) (n * shdrSize ec)) (i * shdrSize ec)
        (shdrSize ec)))
  else freshSections n

def openedHeader (host : ByteOrder) (ec : ElfClass) (swap : Bool) (img : List UInt8) (e : Elf) : Header :=
  if e.mapAddress.isSome ∧ swap = false then .mapped else .copied (imageHdr host ec swap img)

theorem header_opened {hdr : Header} (h : Over env img e) (hlong : ehdrSize ec ≤ img.length)
    (hhdr : e.ehdr = some hdr) (hdr_eq : hdr = openedHeader env.host ec swap img e) (f : EhdrField) :
    e.header env ec f = .ok (imageHdr env.host ec swap img) e := by
  have hle := f.extent_le ec
  unfold openedHeader at hdr_eq
  rw [Elf.header, hhdr]
  split at hdr_eq
  · next hm =>
    subst hdr_eq
    simp only
    rw [mapRead_over h hm.1 (by omega), bind_ok, mapEhdr_over h hm.1 hlong, hm.2]
  · subst hdr_eq
    rfl

theorem readSections_over {n : Nat} (h : Over env img e) (hlong : ehdrSize ec ≤ img.length)
    (hhdr : e.ehdr = some (openedHeader env.host ec swap img e))
    (hn : shnumOf env.host ec swap img = some n) :
    readSections env ec swap n e = .ok ()
      ((e.setScns [firstBlock e.cmd (openedSections env.host ec swap img e n)]).setScnincr 10) := by
  obtain ⟨hbig, hfit⟩ := shnumOf_bounds hn
  have hlen := h.inside
  have hsmall := (env.file e.fildes).small
  unfold readSections openedSections
  rw [header_opened h hlong hhdr rfl, bind_ok]
  extract_lets shoff
  by_cases hplace : e.mapAddress.isSome ∧ swap = false ∧ e.cmd ≠ .readMmap
  · rw [if_pos hplace, if_pos hplace]
    have hread : e.mapRead (e.startOffset + shoff) (n * shdrSize ec) =
        .ok (window img shoff (n * shdrSize ec)) e := by
      by_cases hz : n = 0
      · obtain ⟨image, himage⟩ := Option.isSome_iff_exists.mp hplace.1
        rw [hz, Nat.zero_mul, Elf.mapRead, himage]
        simp [readAt]
      · exact mapRead_over h hplace.1 (hfit.resolve_left hz)
    have hin : ¬ (0 < n ∧ e.maximumSize ≤ shoff ∨
        wrap (e.maximumSize + (2 ^ 64 - shoff)) < n * shdrSize ec) := by
      rw [h.size]
      have hpos : 0 < shdrSize ec := by cases ec <;> decide
      have hmul : n ≠ 0 → 0 < n * shdrSize ec := fun hz => Nat.mul_pos (by omega) hpos
      by_cases hz : n = 0
      · simp [hz]
      · have hfit' := hfit.resolve_left hz
        have hfit'' : shoff + n * shdrSize ec ≤ img.length := hfit'
        have hwrap : wrap (img.length + (2 ^ 64 - shoff)) = img.length - shoff := by
          rw [show img.length + (2 ^ 64 - shoff) = img.length - shoff + 2 ^ 64 by omega, wrap, Nat.add_mod_right]
          exact Nat.mod_eq_of_lt (by omega)
        rw [hwrap]
        have := hmul hz
        omega
    rw [if_neg hin, hread, bind_ok]
    rfl
  · rw [if_neg hplace, if_neg hplace]

/-- Opening an image as an ELF object. -/
theorem fileReadElf_over {buf : Option (List UInt8)} {ident : List UInt8} (h : Over env img e)
    (hb : HeaderAt ec img buf e) (hi : IsElf env.host ec swap img)
    (hident : ident.getD eiClass 0 = img.getD eiClass 0 ∧ ident.getD eiData 0 = img.getD eiData 0) :
    fileReadElf env buf ident e = match shnumOf env.host ec swap img with
      | none => .err .INVALID_ELF e
      | some n => .ok ()
        (((e.setEhdr ec (openedHeader env.host ec swap img e)).setScns
          [firstBlock e.cmd (openedSections env.host ec swap img e n)]).setScnincr 10) := by
  obtain ⟨o, ho, hswap⟩ := hi.order
  rw [fileReadElf, hident.1, hident.2, hi.elfClass, ho]
  simp only
  rw [← hswap, getShnum_over h hb hi.long]
  cases hn : shnumOf env.host ec swap img with
  | none => rfl
  | some n =>
    obtain ⟨hbig, -⟩ := shnumOf_bounds hn
    have hover : ∀ hdr, Over env img (e.setEhdr ec hdr) := fun hdr => ⟨h.range, h.inside, h.mapped, h.size, h.fildes⟩
    have hsize : ¬ (2 ^ 64 - 1) / (scnSize + shdrSize ec) < n := by
      cases ec
      · show ¬ (2 ^ 64 - 1) / (208 + 40) < n
        omega
      · show ¬ (2 ^ 64 - 1) / (208 + 64) < n
        omega
    simp only [bind_ok]
    rw [if_neg hsize]
    by_cases hm : e.mapAddress.isSome ∧ swap = false
    · rw [if_pos hm]
      have hhdr : openedHeader env.host ec swap img e = .mapped := if_pos hm
      rw [hhdr, readSections_over (hover _) hi.long (by rw [← hhdr]; rfl) hn]
      rfl
    · rw [if_neg hm, identField_over h hb hi.long, bind_ok]
      have hhdr : openedHeader env.host ec swap img e = .copied (imageHdr env.host ec swap img) := if_neg hm
      rw [hhdr, readSections_over (hover _) hi.long (by rw [← hhdr]; rfl) hn]
      rfl

/-- The kind is decided by the identification. -/
theorem determineKind_take {bs : List UInt8} (h : eiNident ≤ bs.length) :
    determineKind (bs.take eiNident) = determineKind bs := by
  have hget : ∀ i < eiNident, (bs.take eiNident).getD i 0 = bs.getD i 0 := by
    intro i hi
    rw [List.getD_eq_getElem?_getD, List.getD_eq_getElem?_getD, List.getElem?_take, if_pos hi]
  have hlen : (bs.take eiNident).length = eiNident := by
    rw [List.length_take]
    exact Nat.min_eq_left h
  have h8 : sarmag ≤ bs.length := Nat.le_trans (by decide) h
  have h8' : sarmag ≤ eiNident := by decide
  unfold determineKind
  rw [hlen, hget _ (by decide), hget _ (by decide), hget _ (by decide), List.take_take, List.take_take,
    Nat.min_eq_left h8', Nat.min_eq_left (by decide : 4 ≤ eiNident)]
  simp only [h, h8, h8', Nat.le_refl, true_and]

theorem readMmapedFile_over (hi : IsElf env.host ec swap img) (fildes : Int) (offset : Nat) (cmd : Cmd)
    (parent : Option Nat) :
    let e := (allocateElf fildes (some (env.file fildes)) offset img.length cmd parent .none).setKind .elf
    Over env img e →
    readMmapedFile env fildes (env.file fildes) offset img.length cmd parent =
      match shnumOf env.host ec swap img with
      | none => .err .INVALID_ELF e
      | some n => .ok ()
        (((e.setEhdr ec (openedHeader env.host ec swap img e)).setScns
          [firstBlock e.cmd (openedSections env.host ec swap img e n)]).setScnincr 10) := by
  intro e h
  have hlong : eiNident ≤ img.length := by
    have := hi.long
    have hle : eiNident ≤ ehdrSize ec := by cases ec <;> decide
    omega
  have h' : Over env img (allocateElf fildes (some (env.file fildes)) offset img.length cmd parent .none) :=
    ⟨h.range, h.inside, h.mapped, h.size, h.fildes⟩
  have hread : (allocateElf fildes (some (env.file fildes)) offset img.length cmd parent .none).mapRead offset
      (min eiNident img.length) = .ok (img.take eiNident)
        (allocateElf fildes (some (env.file fildes)) offset img.length cmd parent .none) := by
    have hfirst := @mapRead_over env img _ h' rfl 0 eiNident (by omega)
    rw [Nat.min_eq_left hlong]
    rw [Nat.add_zero] at hfirst
    exact hfirst
  unfold readMmapedFile
  extract_lets e₀
  rw [show e₀ = allocateElf fildes (some (env.file fildes)) offset img.length cmd parent .none from rfl, hread, bind_ok,
    hi.kind]
  have hident : ∀ i < eiNident, (img.take eiNident).getD i 0 = img.getD i 0 := by
    intro i hi
    rw [List.getD_eq_getElem?_getD, List.getD_eq_getElem?_getD, List.getElem?_take, if_pos hi]
  exact @fileReadElf_over env img ec swap e none _ h rfl hi ⟨hident _ (by decide), hident _ (by decide)⟩

theorem readUnmmapedFile_over (hi : IsElf env.host ec swap img) (fildes : Int) (offset : Nat) (cmd : Cmd)
    (parent : Option Nat) :
    let e := (allocateElf fildes none offset img.length cmd parent .none).setKind .elf
    Over env img e →
    readUnmmapedFile env fildes offset img.length cmd parent =
      match shnumOf env.host ec swap img with
      | none => .err .INVALID_ELF e
      | some n => .ok ()
        (((e.setEhdr ec (openedHeader env.host ec swap img e)).setScns
          [firstBlock e.cmd (openedSections env.host ec swap img e n)]).setScnincr 10) := by
  intro e h
  have hlong := hi.long
  have hle : eiNident ≤ ehdrSize ec ∧ ehdrSize ec ≤ 64 := by cases ec <;> decide
  have h' : Over env img (allocateElf fildes none offset img.length cmd parent .none) :=
    ⟨h.range, h.inside, h.mapped, h.size, h.fildes⟩
  generalize hk : min 64 img.length = k
  have hread : preadRetry env fildes k offset = some (img.take k) := by
    have hfirst := (@pread_over env img _ h' 0 k (by omega)).1
    rw [Nat.add_zero] at hfirst
    exact hfirst
  have hget : ∀ i < k, (img.take k).getD i 0 = img.getD i 0 := by
    intro i hi
    rw [List.getD_eq_getElem?_getD, List.getD_eq_getElem?_getD, List.getElem?_take, if_pos hi]
  have hlen : (img.take k).length = k := by
    rw [List.length_take]
    omega
  have hkind : determineKind (img.take k) = .elf := by
    rw [← determineKind_take (by omega), List.take_take, Nat.min_eq_left (by omega)]
    exact hi.kind
  have hsize : (if (img.take k).getD eiClass 0 = 1 then ehdrSize .elfclass32 else ehdrSize .elfclass64) =
      ehdrSize ec := by
    rw [hget _ (Nat.lt_of_lt_of_le (by decide : eiClass < eiNident) (by omega))]
    have hclass := hi.elfClass
    unfold ElfClass.ofByte at hclass
    split at hclass
    · next hone =>
      obtain rfl := Option.some.inj hclass
      exact if_pos hone
    · next hone =>
      split at hclass
      · obtain rfl := Option.some.inj hclass
        exact if_neg hone
      · cases hclass
  unfold readUnmmapedFile
  extract_lets e₀
  rw [show min (max (ehdrSize .elfclass64) sarmag) img.length = k from hk, hread]
  simp only
  rw [hkind]
  simp only
  rw [hsize, if_pos (by rw [hlen]; omega)]
  have hident : (img.take k).take (ehdrSize ec) = LibElf.window img 0 (ehdrSize ec) := by
    rw [List.take_take, Nat.min_eq_left (by omega), LibElf.window, List.drop_zero]
  exact @fileReadElf_over env img ec swap e (some (img.take k)) _ h ⟨rfl, hident⟩ hi
    ⟨hget _ (Nat.lt_of_lt_of_le (by decide : eiClass < eiNident) (by omega)),
      hget _ (Nat.lt_of_lt_of_le (by decide : eiData < eiNident) (by omega))⟩

/-- A way to open an image: a command, and the file that it is or is a member of. The archive around a member is
named by a handle, and is mapped or not. -/
structure Opening (img : List UInt8) where
  cmd : Cmd
  reads : cmd = .read ∨ cmd = .readMmap ∨ cmd = .readMmapPrivate ∨ cmd = .rdwrMmap
  fildes : Int
  valid : fildes ≠ -1
  before : List UInt8
  after : List UInt8
  small : (before ++ img ++ after).length < 2 ^ 63
  archive : Option (Nat × Bool)
  alone : archive = none → before = [] ∧ after = []

namespace Opening

variable {host : ByteOrder} {heap : Nat → UInt8}

def file (o : Opening img) : Image := ⟨o.before ++ img ++ o.after, o.small⟩

def world (host : ByteOrder) (heap : Nat → UInt8) (o : Opening img) : Env := ⟨host, fun _ => o.file, heap⟩

theorem world_file (o : Opening img) (fildes : Int) : (o.world host heap).file fildes = o.file := rfl

def ref (o : Opening img) (mapped : Bool) : Elf :=
  allocateElf o.fildes (if mapped then some o.file else none) 0 o.file.bytes.length .read none .ar

def begin (host : ByteOrder) (heap : Nat → UInt8) (o : Opening img) : Call Unit :=
  match o.archive with
  | none => readFile (o.world host heap) o.fildes o.cmd
  | some (parent, mapped) =>
    readMember (o.world host heap) o.fildes o.before.length img.length o.cmd parent (o.ref mapped)

def result (host : ByteOrder) (heap : Nat → UInt8) (o : Opening img) (qs : List Query) (q : Query) :
    Except Fault (Option Answer) :=
  match o.begin host heap with
  | .stop f => .error f
  | .err _ _ => .ok none
  | .ok _ e =>
    match runOps (Query.step (o.world host heap)) e qs with
    | .error f => .error f
    | .ok e =>
      match q.ask (o.world host heap) e with
      | .ok a _ => .ok (some a)
      | .err _ _ => .ok none
      | .stop f => .error f

def mapped (o : Opening img) : Bool := useMmap o.cmd && (o.archive.map Prod.snd).getD true

def allocated (o : Opening img) : Elf :=
  (allocateElf o.fildes (if o.mapped then some o.file else none) o.before.length img.length o.cmd
    (o.archive.map Prod.fst) .none).setKind .elf

theorem allocated_over (o : Opening img) : Over (o.world host heap) img o.allocated := by
  refine ⟨?_, ?_, ?_, rfl, o.valid⟩
  · show window (o.before ++ img ++ o.after) o.before.length img.length = img
    have h := window_append_right o.before (img ++ o.after) 0 img.length
    rw [Nat.add_zero, ← List.append_assoc] at h
    rw [h, window_append_left (by omega), window_full]
  · show o.before.length + img.length ≤ (o.before ++ img ++ o.after).length
    simp
  · intro image h
    have h' : (if o.mapped then some o.file else none) = some image := h
    cases hm : o.mapped with
    | true =>
      rw [hm] at h'
      exact (Option.some.inj h').symm
    | false =>
      rw [hm] at h'
      cases h'

def opened (host : ByteOrder) (ec : ElfClass) (swap : Bool) (o : Opening img) (n : Nat) : Elf :=
  let e := o.allocated
  ((e.setEhdr ec (openedHeader host ec swap img e)).setScns
    [firstBlock e.cmd (openedSections host ec swap img e n)]).setScnincr 10

/-- Both ways to open come to one of the two ways to read. -/
theorem begin_cases (hpos : 0 < img.length) (o : Opening img) : o.begin host heap =
    if o.mapped then readMmapedFile (o.world host heap) o.fildes o.file o.before.length img.length
      o.cmd (o.archive.map Prod.fst)
    else readUnmmapedFile (o.world host heap) o.fildes o.before.length img.length o.cmd (o.archive.map Prod.fst) := by
  unfold begin mapped
  cases harch : o.archive with
  | none =>
    obtain ⟨hb, ha⟩ := o.alone harch
    have hlen : o.file.bytes.length = img.length := by
      show (o.before ++ img ++ o.after).length = _
      simp [hb, ha]
    simp only [Option.map_none, Option.getD_none, Bool.and_true]
    rw [readFile, world_file, hlen, hb, List.length_nil]
    by_cases hm : useMmap o.cmd
    · rw [if_pos ⟨hm, by omega⟩, if_pos hm]
    · rw [if_neg fun h => hm h.1, if_neg hm]
  | some a =>
    obtain ⟨parent, m⟩ := a
    simp only [Option.map_some, Option.getD_some]
    cases m with
    | true =>
      show (if useMmap o.cmd then _ else _ : Call Unit) = _
      rw [Bool.and_true]
    | false =>
      show readUnmmapedFile _ _ _ _ _ _ = _
      rw [Bool.and_false, if_neg nofun]

theorem begin_eq (hi : IsElf host ec swap img) (o : Opening img) :
    o.begin host heap = match shnumOf host ec swap img with
      | none => .err .INVALID_ELF (o.allocated)
      | some n => .ok () (o.opened host ec swap n) := by
  have hover := @allocated_over img host heap o
  have hpos : 0 < img.length := by
    have := hi.long
    have hpos : 0 < ehdrSize ec := by cases ec <;> decide
    omega
  rw [begin_cases hpos]
  by_cases hm : o.mapped
  · have heq : o.allocated = (allocateElf o.fildes (some o.file) o.before.length img.length
        o.cmd (o.archive.map Prod.fst) .none).setKind .elf := by rw [allocated, if_pos hm]
    have hstep := @readMmapedFile_over (o.world host heap) img ec swap hi o.fildes o.before.length o.cmd
      (o.archive.map Prod.fst) (by rw [world_file, ← heq]; exact hover)
    rw [if_pos hm, ← o.world_file o.fildes, hstep, world_file, ← heq]
    rfl
  · have heq : o.allocated = (allocateElf o.fildes none o.before.length img.length
        o.cmd (o.archive.map Prod.fst) .none).setKind .elf := by rw [allocated, if_neg hm]
    have hstep := @readUnmmapedFile_over (o.world host heap) img ec swap hi o.fildes o.before.length o.cmd
      (o.archive.map Prod.fst) (by rw [← heq]; exact hover)
    rw [if_neg hm, hstep, ← heq]
    rfl

end Opening

/-! ## Images without sections -/

/-- The questions of the claim's kind about an image with `n` sections. -/
def Query.About (n : Nat) : Query → Prop
  | .shdrnum | .phdrnum | .shdrstrndx => True
  | .shdr idx | .shndx idx | .data idx _ => idx < n
  | _ => False

/-- An object without sections that was asked nothing about program headers. -/
structure Empty (env : Env) (ec : ElfClass) (hdr : Ehdr) (size : Nat) (e : Elf) : Prop where
  kind : e.kind = .elf
  elfClass : e.elfClass = some ec
  ehdr : e.ehdr.isSome
  header : ∀ f, e.header env ec f = .ok hdr e
  phdr : e.phdr = none
  size : e.maximumSize = size
  scns : ∃ b, e.scns = [b] ∧ b.cnt = 0

def emptyAnswer (ec : ElfClass) (hdr : Ehdr) (size : Nat) : Query → Except ElfError Answer
  | .shdrnum => .ok (.number 0)
  | .phdrnum =>
    let num := hdr.ePhnum.toNat
    let off := ec.get hdr.ePhoff
    if off = 0 then .ok (.number 0)
    else if size ≤ off then .error .INVALID_DATA
    else if (2 ^ 64 - 1) / phdrSize ec < num then .error .INVALID_DATA
    else .ok (.number (if size - off < num * phdrSize ec then (size - off) / phdrSize ec else num))
  | .shdrstrndx =>
    if hdr.eShstrndx.toNat ≠ shnXindex then .ok (.number hdr.eShstrndx.toNat) else .error .INVALID_SECTION_HEADER
  | _ => .error .NOERROR

/-- An answer or an error, and the descriptor as it was. -/
def answered (e : Elf) : Except ElfError Answer → Call Answer
  | .ok a => .ok a e
  | .error c => .err c e

theorem ask_empty {hdr : Ehdr} {size : Nat} (h : Empty env ec hdr size e) {q : Query} (hq : q.About 0) :
    q.ask env e = answered e (emptyAnswer ec hdr size q) := by
  obtain ⟨b, hb, hz⟩ := h.scns
  obtain ⟨place, hplace⟩ := Option.isSome_iff_exists.mp h.ehdr
  have hphdrnum : getPhdrnum env ec e = .ok hdr.ePhnum.toNat e := by
    rw [getPhdrnum, h.header, bind_ok, hb, List.head?_cons]
    simp only
    rw [if_pos hz]
    split <;> rfl
  cases q with
  | shdrnum =>
    show (if e.kind ≠ .elf then _ else _ : Call Answer) = _
    rw [if_neg (not_not.mpr h.kind), getShdrnum, if_neg (not_not.mpr h.kind), hb, List.getLast?_singleton]
    simp only
    rw [if_pos ⟨hz, rfl⟩]
    rfl
  | phdrnum =>
    show (elfGetphdrnum env e).bind _ = _
    rw [elfGetphdrnum, if_neg (not_not.mpr h.kind), getPhdrnumChk, hplace, h.elfClass]
    simp only
    rw [hphdrnum, bind_ok, h.phdr, if_neg (by rintro ⟨⟩), h.header, bind_ok, emptyAnswer, h.size]
    split
    · rfl
    · split
      · rfl
      · split <;> rfl
  | shdrstrndx =>
    show (elfGetshdrstrndx env e).bind _ = _
    rw [elfGetshdrstrndx, if_neg (not_not.mpr h.kind), hplace, h.elfClass]
    simp only
    rw [h.header, bind_ok, emptyAnswer, hb, List.head?_cons]
    simp only
    rw [if_pos hz]
    split <;> rfl
  | scn idx => cases hq
  | shdr idx => exact absurd hq (Nat.not_lt_zero _)
  | shndx idx => exact absurd hq (Nat.not_lt_zero _)
  | phdr ndx => cases hq
  | data idx k => exact absurd hq (Nat.not_lt_zero _)
  | rawdata idx k => cases hq

/-- Questions do not change an object without sections. -/
theorem run_empty {hdr : Ehdr} {size : Nat} (h : Empty env ec hdr size e) (qs : List Query)
    (hqs : ∀ q ∈ qs, q.About 0) : runOps (Query.step env) e qs = .ok e := by
  induction qs with
  | nil => rfl
  | cons q qs ih =>
    have hstep : Query.step env e q = .ok e := by
      rw [Query.step, ask_empty h (hqs q List.mem_cons_self)]
      cases emptyAnswer ec hdr size q <;> rfl
    rw [runOps, hstep]
    exact ih fun q hq => hqs q (List.mem_cons_of_mem _ hq)

namespace Opening

variable {host : ByteOrder} {heap : Nat → UInt8}

theorem opened_over (o : Opening img) (n : Nat) : Over (o.world host heap) img (o.opened host ec swap n) := by
  obtain ⟨h₁, h₂, h₃, h₄, h₅⟩ := @allocated_over img host heap o
  exact ⟨h₁, h₂, h₃, h₄, h₅⟩

theorem opened_header (hlong : ehdrSize ec ≤ img.length) (o : Opening img) (n : Nat) (f : EhdrField) :
    (o.opened host ec swap n).header (o.world host heap) ec f =
      .ok (imageHdr host ec swap img) (o.opened host ec swap n) :=
  @header_opened (o.world host heap) img ec swap _ _ (opened_over o n) hlong rfl rfl f

theorem opened_foreign (hlong : ehdrSize ec ≤ img.length) (o : Opening img) (n : Nat) :
    ∃ sw, foreign (o.world host heap) ec (o.opened host ec swap n) = .ok sw (o.opened host ec swap n) := by
  refine ⟨decide (dataOrder ((imageHdr host ec swap img).eIdent.toList.getD eiData 0) ≠ some host), ?_⟩
  rw [foreign, opened_header hlong, bind_ok]
  rfl

theorem opened_empty (hlong : ehdrSize ec ≤ img.length) (o : Opening img) :
    Empty (o.world host heap) ec (imageHdr host ec swap img) img.length (o.opened host ec swap 0) := by
  refine ⟨rfl, rfl, rfl, opened_header hlong o 0, rfl, rfl, _, rfl, ?_⟩
  show (openedSections host ec swap img o.allocated 0).length = 0
  unfold openedSections
  split <;> rfl

/-- Without sections the answer is that of the image. -/
theorem result_empty (hi : IsElf host ec swap img) (hz : shnumOf host ec swap img = some 0) (o : Opening img)
    {qs : List Query} {q : Query} (hqs : ∀ q' ∈ qs, q'.About 0) (hq : q.About 0) :
    o.result host heap qs q = .ok (emptyAnswer ec (imageHdr host ec swap img) img.length q).toOption := by
  have hempty := @opened_empty img ec swap host heap hi.long o
  rw [result, begin_eq hi, hz]
  simp only
  rw [run_empty hempty qs hqs]
  simp only
  rw [ask_empty hempty hq]
  cases emptyAnswer ec (imageHdr host ec swap img) img.length q <;> rfl

end Opening

/-! ## Section 0 -/

theorem toInt_ne_zero {n : Nat} (hpos : 0 < n) (hn : n < 2 ^ 32) : toInt n ≠ 0 := by
  unfold toInt
  rw [Nat.mod_eq_of_lt hn]
  split <;> omega

/-- Section headers that set extended indices leave none for section 0 unset. -/
theorem setShndx_fold (shdrs : List Shdr) (data : List Scn) (k : Nat) (hk : k < 2 ^ 32) :
    ((List.range (k + 1)).foldl (setShndx shdrs) data).length = data.length ∧
      ∀ s, ((List.range (k + 1)).foldl (setShndx shdrs) data)[0]? = some s → s.shndxIndex ≠ 0 := by
  have hlength : ∀ (l : List Scn) (cnt : Nat), (setShndx shdrs l cnt).length = l.length := by
    intro l cnt
    simpa using congrArg List.length (map_setShndx Scn.index (fun _ _ => rfl) shdrs l cnt)
  -- the entry after one section header: its own value, that of the header, or the old one
  have hstep : ∀ (l : List Scn) (cnt : Nat) (s : Scn), (setShndx shdrs l cnt)[0]? = some s →
      ∃ s₁, (s₁.shndxIndex = toInt cnt ∨ l[0]? = some s₁) ∧
        s.shndxIndex = if cnt = 0 ∧ s₁.shndxIndex = 0 then -1 else s₁.shndxIndex := by
    intro l cnt s hs
    unfold setShndx at hs
    extract_lets h l₁ at hs
    rw [List.getElem?_modify] at hs
    obtain ⟨s₁, hs₁, rfl⟩ := Option.map_eq_some_iff.mp hs
    refine ⟨s₁, ?_, ?_⟩
    · show s₁.shndxIndex = toInt cnt ∨ l[0]? = some s₁
      have hs₁' : l₁[0]? = some s₁ := hs₁
      unfold l₁ at hs₁'
      split at hs₁'
      · rw [List.getElem?_modify] at hs₁'
        obtain ⟨s₂, hs₂, rfl⟩ := Option.map_eq_some_iff.mp hs₁'
        split
        · exact .inl rfl
        · exact .inr hs₂
      · exact .inr hs₁'
    · by_cases hc : cnt = 0
      · subst hc
        simp only [if_true, true_and]
        split <;> simp [*]
      · simp [hc]
  induction k with
  | zero =>
    refine ⟨by simpa using hlength data 0, fun s hs => ?_⟩
    obtain ⟨s₁, -, heq⟩ := hstep data 0 s (by simpa using hs)
    rw [heq]
    split
    · decide
    · next h => exact fun hz => h ⟨rfl, hz⟩
  | succ k ih =>
    obtain ⟨hlen, hne⟩ := ih (by omega)
    rw [List.range_succ, List.foldl_append, List.foldl_cons, List.foldl_nil]
    refine ⟨by rw [hlength, hlen], fun s hs => ?_⟩
    obtain ⟨s₁, hs₁, heq⟩ := hstep _ _ s hs
    rw [heq, if_neg (by omega)]
    rcases hs₁ with hs₁ | hs₁
    · rw [hs₁]
      exact toInt_ne_zero (by omega) hk
    · exact hne s₁ hs₁

/-- An object with sections whose headers are not read yet. -/
structure Unread (env : Env) (ec : ElfClass) (n : Nat) (e : Elf) : Prop where
  kind : e.kind = .elf
  elfClass : e.elfClass = some ec
  ehdr : e.ehdr.isSome
  scns : e.scns = [firstBlock e.cmd (freshSections n)]
  pos : 0 < n
  small : n < 2 ^ 32

namespace Unread

variable {n : Nat}

theorem length_fresh (n : Nat) : (freshSections n).length = n := by simp [freshSections]

theorem data_eq : (firstBlock e.cmd (freshSections n)).data =
    freshSections n ++ List.replicate (scnMax e.cmd n - n) Scn.zero := by rw [firstBlock, length_fresh]

theorem get (i : Nat) (hi : i < n) :
    (firstBlock e.cmd (freshSections n)).data[i]? = some { Scn.zero with index := i } := by
  rw [data_eq, List.getElem?_append_left (by rw [length_fresh]; exact hi), freshSections, List.getElem?_map,
    List.getElem?_range hi]
  rfl

/-- The first entry of the only block. -/
theorem scn_zero {b : ScnList} {s : Scn} (hb : e.scns = [b]) (hs : b.data[0]? = some s) :
    e.scn (0, 0) = .ok s e := by
  have hentry : Chain.entry e.scns (0, 0) = some s := by
    rw [hb]
    exact hs
  rw [Elf.scn, hentry]

theorem getShdrnum (h : Unread env ec n e) : Elfutils.getShdrnum e = .ok n e := by
  have hpos := h.pos
  have hcnt : (firstBlock e.cmd (freshSections n)).cnt = n := length_fresh n
  rw [Elfutils.getShdrnum, if_neg (not_not.mpr h.kind), h.scns, List.getLast?_singleton]
  simp only
  rw [if_neg (by omega), if_neg (by omega), hcnt, get (n - 1) (by omega)]
  simp only
  congr 1
  omega

/-- The section headers are read for the first of them. -/
theorem getShdr (h : Unread env ec n e) : Elfutils.getShdr env (0, 0) e =
    (shdrBytes env ec n e).bind fun bs e => (foreign env ec e).bind fun swap e =>
      (storeShdrs (e.mapAddress.isSome && swap) (shdrTable env ec swap n bs) e).bind fun _ e =>
      (e.scn (0, 0)).bind fun s e => match s.shdr with | some h => .ok h e | none => .stop .assertion := by
  obtain ⟨place, hplace⟩ := Option.isSome_iff_exists.mp h.ehdr
  have hroom : ¬ (2 ^ 64 - 1) / shdrSize ec < n := by
    have := h.small
    cases ec
    · show ¬ (2 ^ 64 - 1) / 40 < n
      omega
    · show ¬ (2 ^ 64 - 1) / 64 < n
      omega
  have hscn := scn_zero h.scns (get 0 h.pos)
  rw [Elfutils.getShdr, hscn, bind_ok]
  simp only [Scn.zero]
  rw [hplace, h.elfClass]
  simp only
  rw [loadShdr, hscn, bind_ok]
  simp only [Scn.zero]
  rw [h.getShdrnum, bind_ok]
  exact if_neg hroom

/-- The answer is what reading the headers leaves behind. -/
theorem scnshndx (h : Unread env ec n e) : elfScnshndx env (0, 0) e =
    (Elfutils.gelfGetshdr env (0, 0) e).ignore.bind fun _ e =>
      (e.scn (0, 0)).bind fun s e => .ok s.shndxIndex e := by
  rw [elfScnshndx, scn_zero h.scns (get 0 h.pos), bind_ok]
  simp only [Scn.zero]
  rw [if_pos trivial]

end Unread

/-- Reading the section headers sets extended indices when they are mapped and swapped. -/
theorem scnshndx_load {n : Nat} {bs : List UInt8} {sw : Bool} (h : Unread env ec n e)
    (hf : foreign env ec e = .ok sw e) (hbytes : shdrBytes env ec n e = .ok bs e) :
    ∃ i e', elfScnshndx env (0, 0) e = .ok i e' ∧ (i = 0 ↔ (e.mapAddress.isSome && sw) = false) := by
  have hpos := h.pos
  generalize htable : shdrTable env ec sw n bs = table
  have hlen : table.length = n := by rw [← htable]; simp [shdrTable]
  generalize hshndx : (e.mapAddress.isSome && sw) = shndx
  -- the entries, with their extended indices, and then with their headers
  obtain ⟨data, hdata'⟩ : ∃ data, data = if shndx then (List.range table.length).foldl (setShndx table)
    (firstBlock e.cmd (freshSections n)).data else (firstBlock e.cmd (freshSections n)).data := ⟨_, rfl⟩
  obtain ⟨s, hs, hindex⟩ : ∃ s, data[0]? = some s ∧ (s.shndxIndex = 0 ↔ shndx = false) := by
    cases shndx with
    | false => exact ⟨{ Scn.zero with index := 0 }, by rw [hdata']; exact Unread.get 0 hpos, by simp [Scn.zero]⟩
    | true =>
      obtain ⟨hlen', hne⟩ := setShndx_fold table (firstBlock e.cmd (freshSections n)).data (n - 1)
        (by have := h.small; omega)
      rw [show n - 1 + 1 = table.length by omega] at hlen' hne
      rw [if_pos rfl] at hdata'
      rw [← hdata'] at hlen' hne
      have hlt : 0 < data.length := by
        rw [hlen', Unread.data_eq, List.length_append, Unread.length_fresh]
        omega
      have hs : data[0]? = some data[0] := List.getElem?_eq_getElem hlt
      exact ⟨_, hs, iff_of_false (hne _ hs) (by rintro ⟨⟩)⟩
  obtain ⟨e', he'⟩ : ∃ e', e' = e.setFirstData (data.mapIdx fun i s =>
    if i < table.length then { s with shdr := table[i]? } else s) := ⟨_, rfl⟩
  have hhead : table[0]? = some table[0] := List.getElem?_eq_getElem (by omega)
  have hscn' : e'.scn (0, 0) = .ok { s with shdr := table[0]? } e' := by
    have hb : e'.scns = [⟨(firstBlock e.cmd (freshSections n)).cnt, data.mapIdx fun i s =>
        if i < table.length then { s with shdr := table[i]? } else s⟩] := by
      rw [he', Elf.setFirstData, h.scns]
      rfl
    refine Unread.scn_zero hb ?_
    show (data.mapIdx _)[0]? = _
    rw [List.getElem?_mapIdx, hs, Option.map_some, if_pos (by omega)]
  have hstore : storeShdrs shndx table e = .ok () e' := by
    have hfirst : e.firstData = (firstBlock e.cmd (freshSections n)).data := by rw [Elf.firstData, h.scns]; rfl
    rw [storeShdrs, hfirst, if_neg (by rw [Unread.data_eq, List.length_append, Unread.length_fresh]; omega),
      ← hdata', he']
  have hload : gelfGetshdr env (0, 0) e = .ok table[0] e' := by
    rw [gelfGetshdr, h.getShdr, hbytes, bind_ok, hf, bind_ok, htable, hshndx, hstore, bind_ok, hscn', bind_ok, hhead]
  refine ⟨s.shndxIndex, e', ?_, hindex⟩
  rw [h.scnshndx, hload, ignore_ok, bind_ok, hscn', bind_ok]

/-- The first section is there. -/
theorem getscn_zero {b : ScnList} {e : Elf} (hk : e.kind = .elf) (hb : e.scns = [b]) (hpos : 0 < b.cnt)
    (hle : b.cnt ≤ b.max) : elfGetscn 0 e = .ok (0, 0) e := by
  have hsame : makeZeroth e = e := by
    rw [makeZeroth, hb]
    simp only
    rw [if_neg fun h => by omega]
  rw [elfGetscn, if_neg (not_not.mpr hk), if_pos rfl, hsame]
  simp only
  rw [hb, Chain.find, if_pos (by omega), if_pos hpos]

namespace Opening

variable {host : ByteOrder} {heap : Nat → UInt8}

/-- The image as a file of its own, opened with the given command. -/
def standalone (img : List UInt8) (hsmall : img.length < 2 ^ 63) (cmd : Cmd)
    (hcmd : cmd = .read ∨ cmd = .readMmap ∨ cmd = .readMmapPrivate ∨ cmd = .rdwrMmap) : Opening img :=
  ⟨cmd, hcmd, 3, by decide, [], [], by simpa using hsmall, none, fun _ => ⟨rfl, rfl⟩⟩

theorem result_nil (hi : IsElf host ec swap img) {n : Nat} (hn : shnumOf host ec swap img = some n)
    (o : Opening img) (q : Query) : o.result host heap [] q =
      match q.ask (o.world host heap) (o.opened host ec swap n) with
      | .ok a _ => .ok (some a)
      | .err _ _ => .ok none
      | .stop f => .error f := by
  rw [result, begin_eq hi, hn]
  rfl

/-- An object that was read tells 0 for its section 0. -/
theorem shndx_read (hi : IsElf host ec swap img) (hsmall : img.length < 2 ^ 63) {n : Nat} (hpos : 0 < n)
    (hn : shnumOf host ec swap img = some n) :
    (standalone img hsmall .read (.inl rfl)).result host heap [] (.shndx 0) = .ok (some (.index 0)) := by
  generalize ho : standalone img hsmall .read (.inl rfl) = o
  have hover := @opened_over img ec swap host heap o n
  have hhdr := @opened_header img ec swap host heap hi.long o n
  obtain ⟨hbig, hfit⟩ := shnumOf_bounds hn
  have hfit := hfit.resolve_left (by omega)
  have hmap : (o.opened host ec swap n).mapAddress = none := by rw [← ho]; rfl
  have hcnt : (firstBlock o.cmd (freshSections n)).cnt = n := by simp [firstBlock, freshSections]
  have hscns : (o.opened host ec swap n).scns = [firstBlock o.cmd (freshSections n)] := by
    have hsections : openedSections host ec swap img o.allocated n = freshSections n :=
      if_neg fun h => by rw [← ho] at h; cases h.1
    show [firstBlock o.cmd (openedSections host ec swap img o.allocated n)] = _
    rw [hsections]
  have hunread : Unread (o.world host heap) ec n (o.opened host ec swap n) :=
    ⟨rfl, rfl, rfl, hscns, hpos, hbig⟩
  obtain ⟨sw, hf⟩ := @opened_foreign img ec swap host heap hi.long o n
  have hbytes : shdrBytes (o.world host heap) ec n (o.opened host ec swap n) =
      .ok (window img (ec.get (imageHdr host ec swap img).eShoff) (n * shdrSize ec)) (o.opened host ec swap n) := by
    rw [shdrBytes, hhdr, bind_ok, hmap]
    simp only
    rw [if_neg (by rintro ⟨⟩), if_pos hover.fildes, (pread_over hover hfit).2]
    simp only
    rw [if_neg (not_not.mpr (length_window hfit))]
  obtain ⟨i, e', hcall, hi0⟩ := scnshndx_load hunread hf hbytes
  rw [hmap] at hi0
  have hzero : i = 0 := hi0.mpr rfl
  rw [result_nil hi hn, Query.ask, getscn_zero rfl hscns (by omega) (by rw [hcnt]; simp [firstBlock, Block.max, freshSections]), bind_ok,
    hcall, hzero]
  rfl

/-- An object that is mapped tells another number, if any. -/
theorem shndx_mapped (hi : IsElf host ec swap img) (hsmall : img.length < 2 ^ 63) {n : Nat} (hpos : 0 < n)
    (hn : shnumOf host ec swap img = some n) :
    (standalone img hsmall .readMmapPrivate (.inr (.inr (.inl rfl)))).result host heap [] (.shndx 0) ≠
      .ok (some (.index 0)) := by
  generalize ho : standalone img hsmall .readMmapPrivate (.inr (.inr (.inl rfl))) = o
  have hover := @opened_over img ec swap host heap o n
  have hhdr := @opened_header img ec swap host heap hi.long o n
  obtain ⟨hbig, hfit⟩ := shnumOf_bounds hn
  have hfit := hfit.resolve_left (by omega)
  have hmap : (o.opened host ec swap n).mapAddress.isSome := by rw [← ho]; rfl
  rw [result_nil hi hn, Query.ask]
  cases hswap : swap with
  | false =>
    -- the headers are used in place, and the value is there
    have hblock : (o.opened host ec swap n).scns = [firstBlock o.cmd (openedSections host ec swap img
        (o.allocated) n)] := rfl
    have hplace : (o.allocated).mapAddress.isSome ∧ swap = false ∧ (o.allocated).cmd ≠ .readMmap :=
      ⟨by rw [← ho]; rfl, hswap, by rw [← ho]; rintro ⟨⟩⟩
    rw [openedSections, if_pos hplace] at hblock
    generalize htable : (List.range n).map (fun i => Shdr.ofFile host swap ec (window (window img
      (ec.get (imageHdr host ec swap img).eShoff) (n * shdrSize ec)) (i * shdrSize ec) (shdrSize ec))) = table at hblock
    have hlen : table.length = n := by rw [← htable]; simp
    have hcount : (sectionsInPlace table).length = n := by
      simpa [hlen] using congrArg List.length (Found.inPlace table).index
    obtain ⟨-, hne⟩ := setShndx_fold table
      ((List.range table.length).map fun i => { Scn.zero with index := i, shdr := table[i]? }) (n - 1) (by omega)
    rw [show n - 1 + 1 = table.length by omega] at hne
    have hs : (sectionsInPlace table)[0]? = some (sectionsInPlace table)[0] := List.getElem?_eq_getElem (by omega)
    have hne := hne _ hs
    have hdata : (firstBlock o.cmd (sectionsInPlace table)).data[0]? = some (sectionsInPlace table)[0] := by
      rw [firstBlock, List.getElem?_append_left (by omega)]
      exact hs
    have hscn : (o.opened host ec swap n).scn (0, 0) =
        .ok (sectionsInPlace table)[0] (o.opened host ec swap n) := Unread.scn_zero hblock hdata
    have hcnt : (firstBlock o.cmd (sectionsInPlace table)).cnt = n := hcount
    rw [← hswap, getscn_zero rfl hblock (by omega)
      (by rw [hcnt]; simp [firstBlock, Block.max, hcount]), bind_ok, elfScnshndx, hscn, bind_ok, if_neg hne,
      bind_ok, hscn, bind_ok, bind_ok]
    intro h
    exact hne (Answer.index.inj (Option.some.inj (Except.ok.inj h)))
  | true =>
    have hblock : (o.opened host ec swap n).scns = [firstBlock o.cmd (freshSections n)] := by
      have hsections : openedSections host ec swap img o.allocated n = freshSections n :=
        if_neg fun h => by rw [hswap] at h; cases h.2.1
      show [firstBlock o.cmd (openedSections host ec swap img o.allocated n)] = _
      rw [hsections]
    have hcnt : (firstBlock o.cmd (freshSections n)).cnt = n := by simp [firstBlock, freshSections]
    have hunread : Unread (o.world host heap) ec n (o.opened host ec swap n) :=
      ⟨rfl, rfl, rfl, hblock, hpos, hbig⟩
    obtain ⟨sw, hf⟩ := @opened_foreign img ec swap host heap hi.long o n
    have hbytes : shdrBytes (o.world host heap) ec n (o.opened host ec swap n) =
        if sw = false then .stop .assertion
        else .ok (window img (ec.get (imageHdr host ec swap img).eShoff) (n * shdrSize ec))
          (o.opened host ec swap n) := by
      have hpos' : 0 < n * shdrSize ec := Nat.mul_pos hpos (by cases ec <;> decide)
      rw [shdrBytes, hhdr, bind_ok, if_pos hmap, if_neg (by rw [hover.size]; omega), hf, bind_ok]
      have hflags : (o.opened host ec swap n).malloced = false ∧
          (o.opened host ec swap n).cmd ≠ .readMmap := ⟨rfl, by rw [← ho]; rintro ⟨⟩⟩
      by_cases hsw : sw = false
      · rw [if_pos hsw, if_pos ⟨hflags.1, hsw, hflags.2⟩]
      · rw [if_neg hsw, if_neg fun h => hsw h.2.1, mapRead_over hover hmap hfit]
    rw [← hswap, getscn_zero rfl hblock (by omega) (by rw [hcnt]; simp [firstBlock, Block.max, freshSections]), bind_ok]
    cases sw with
    | false =>
      rw [if_pos rfl] at hbytes
      rw [hunread.scnshndx, gelfGetshdr, hunread.getShdr, hbytes]
      rintro ⟨⟩
    | true =>
      rw [if_neg (by rintro ⟨⟩)] at hbytes
      obtain ⟨i, e', hcall, hi0⟩ := scnshndx_load hunread hf hbytes
      rw [hmap] at hi0
      rw [hcall, bind_ok]
      intro h
      have hzero : i = 0 := Answer.index.inj (Option.some.inj (Except.ok.inj h))
      cases hi0.mp hzero

end Opening

/-- The image has no section headers, or one that opening fails on. -/
def NoSections (host : ByteOrder) (ec : ElfClass) (swap : Bool) (img : List UInt8) : Prop :=
  shnumOf host ec swap img = none ∨ shnumOf host ec swap img = some 0

/-- The answers are the same for every way to open the image and every order of the questions, if and only if the
image has no sections. -/
theorem answers_agree_iff {host : ByteOrder} {heap : Nat → UInt8} (hi : IsElf host ec swap img)
    (hsmall : img.length < 2 ^ 63) :
    (∀ (o₁ o₂ : Opening img) (qs₁ qs₂ : List Query) (q : Query),
      (∀ q' ∈ q :: (qs₁ ++ qs₂), q'.About ((shnumOf host ec swap img).getD 0)) →
      o₁.result host heap qs₁ q = o₂.result host heap qs₂ q) ↔ NoSections host ec swap img := by
  constructor
  · intro h
    cases hn : shnumOf host ec swap img with
    | none => exact .inl hn
    | some n =>
      right
      by_contra hne
      have hpos : 0 < n := Nat.pos_of_ne_zero fun hz => hne (by rw [hn, hz])
      have hsame := h (Opening.standalone img hsmall .read (.inl rfl))
        (Opening.standalone img hsmall .readMmapPrivate (.inr (.inr (.inl rfl)))) [] [] (.shndx 0)
        (by
          intro q hq
          obtain rfl := List.mem_singleton.mp hq
          rw [hn]
          exact hpos)
      rw [Opening.shndx_read hi hsmall hpos hn] at hsame
      exact Opening.shndx_mapped hi hsmall hpos hn hsame.symm
  · rintro (hnone | hzero) o₁ o₂ qs₁ qs₂ q hq
    · rw [Opening.result, Opening.result, Opening.begin_eq hi, Opening.begin_eq hi, hnone]
    · rw [hzero] at hq
      rw [Opening.result_empty hi hzero o₁ (fun q' hq' => hq q' (by simp [hq'])) (hq q List.mem_cons_self),
        Opening.result_empty hi hzero o₂ (fun q' hq' => hq q' (by simp [hq'])) (hq q List.mem_cons_self)]

/-- The image as a member of a mapped archive, between the bytes of other members. -/
def memberOpening : Opening headerImage.bytes :=
  ⟨.readMmap, .inr (.inl rfl), 5, by decide, armag ++ List.replicate 60 32, [10], by decide +kernel, some (1, true), nofun⟩

/-- An image that is an ELF header alone, read from a file or mapped as a member of an archive. -/
theorem header_answers_agree :
    (Opening.standalone headerImage.bytes headerImage.small .read (.inl rfl)).result .little (fun _ => 0)
      [] .phdrnum = memberOpening.result .little (fun _ => 0) [.shdrstrndx, .shdrnum] .phdrnum :=
  (@answers_agree_iff headerImage.bytes .elfclass64 false .little (fun _ => 0)
    ⟨by decide, by decide, by decide, .little, by decide, by decide⟩ headerImage.small).mpr (.inr (by decide +kernel))
    _ _ _ _ _ (by simp [Query.About])

/-- A little-endian image of class 32 with one section header, for no section. -/
def nullSectionBytes : List UInt8 :=
  [0x7F, 0x45, 0x4C, 0x46, 1, 1, 1, 0, 0, 0, 0, 0, 0, 0, 0, 0, 1, 0, 3, 0, 1, 0, 0, 0, 0, 0, 0, 0, 0, 0, 0, 0,
    52, 0, 0, 0, 0, 0, 0, 0, 52, 0, 0, 0, 0, 0, 40, 0, 1, 0, 0, 0] ++ List.replicate 40 0

/-- Its section tells 0 when the image is read and -1 when it is mapped. -/
theorem null_section_answers :
    (Opening.standalone nullSectionBytes (by decide +kernel) .read (.inl rfl)).result .little (fun _ => 0) []
      (.shndx 0) = .ok (some (.index 0)) ∧
    (Opening.standalone nullSectionBytes (by decide +kernel) .readMmapPrivate (.inr (.inr (.inl rfl)))).result .little
      (fun _ => 0) [] (.shndx 0) = .ok (some (.index (-1))) := by
  decide +kernel

end LibElf.Elfutils
