import LibElf.Elfutils.Answers
import LibElf.Elfutils.Fetched
import LibElf.Elfutils.SectionRoundTrip

/-!
# Sections that are asked for

The header of a section, its raw data and its data are functions of the image alone: of an object that was opened over
it, in whatever way, they are the same after every run of questions.

1. `imageShdr`, `imageRaw` and `imageData`, what the image says.
2. `ImageHeld`, the invariant: what the descriptor has read is what the image says. `ImageHeld.getShdr`, `ImageHeld.setRawdata` and
   `ImageHeld.setDataList`, the steps that read something.
3. `ImageHeld.ask` and `ImageHeld.run`: every question keeps it. `section_from_image`: the answers.
-/

namespace LibElf.Elfutils

open Outcome
open Toolchain (ElfClass Ehdr Shdr)

/-! ## What the image says -/

section Image

variable (host : ByteOrder) (ec : ElfClass) (swap : Bool) (img : List UInt8)

/-- Section header `i`. -/
def imageShdr (i : Nat) : Shdr :=
  Shdr.ofFile host swap ec (window img (ec.get (imageHdr host ec swap img).eShoff + i * shdrSize ec) (shdrSize ec))

/-- The bytes of a section with this header, if it has any. -/
def imageBytes (h : Shdr) : Except ElfError (Option (List UInt8)) :=
  let offset := ec.get h.shOffset
  let size := ec.get h.shSize
  if size = 0 ∨ h.shType = shtNobits then .ok none
  else if size % entsizeOf ec (imageHdr host ec swap img) h ≠ 0 then .error .INVALID_DATA
  else if img.length < offset ∨ img.length - offset < size then .error .INVALID_SECTION_HEADER
  else .ok (some (window img offset size))

def imageRaw (h : Shdr) : Except ElfError Data :=
  match imageBytes host ec swap img h with
  | .error c => .error c
  | .ok buf =>
    let hdr := imageHdr host ec swap img
    let compressed := decide (h.shFlags &&& shfCompressed ≠ 0)
    let align := if compressed ∧ buf.isSome then chdrAlign ec else ec.get h.shAddralign
    let type := if compressed then .chdr else dataTypeOf ec hdr h.shType align
    let offset := ec.get h.shOffset
    let align := if align = 0 then 1 else align
    let align := if h.shType ≠ shtNobits ∧ offset < align then offset else align
    .ok ⟨buf, type, (hdr.eIdent.toList.getD eiVersion 0).toNat, ec.get h.shSize, 0, align⟩

def imageConvert (heap : Nat → UInt8) (type : ElfType) (raw : List UInt8) : Outcome ElfError Unit (List UInt8) :=
  if swap = false ∨ type = .byte then .ok raw ()
  else
    match xfct host ec type false 0 raw.length raw.length (convertMemory heap raw) with
    | .ok _ m => .ok (window m.bytes 0 raw.length) ()
    | .err c _ => .err c ()
    | .stop f => .stop f

def imageBlock (heap : Nat → UInt8) (r : Data) : Outcome ElfError Unit Data :=
  match r.dBuf with
  | none => .ok r ()
  | some bs =>
    if r.dSize = 0 then .ok r ()
    else (imageConvert host ec swap heap r.dType bs).bind fun ds _ => .ok { r with dBuf := some ds } ()

def imageData (heap : Nat → UInt8) (h : Shdr) : Outcome ElfError Unit Data :=
  match imageRaw host ec swap img h with
  | .error c => .err c ()
  | .ok r => imageBlock host ec swap heap r

end Image

/-! ## The invariant -/

/-- The section header is used where it is mapped. -/
def InPlace (swap : Bool) (e : Elf) : Prop := e.mapAddress.isSome ∧ swap = false ∧ e.cmd ≠ .readMmap

instance (swap : Bool) (e : Elf) : Decidable (InPlace swap e) :=
  inferInstanceAs (Decidable (e.mapAddress.isSome ∧ swap = false ∧ e.cmd ≠ .readMmap))

/-- What was read of a section with this header. -/
def Scn.Filled (env : Env) (img : List UInt8) (ec : ElfClass) (swap : Bool) (h : Shdr) (s : Scn) : Prop :=
  s.Unread ∨ s.dataRead = true ∧ s.filedata = true ∧ ∃ r, s.rawdata = some r ∧ imageRaw env.host ec swap img h = .ok r ∧
    (s.dataList = [] ∨ ∃ d, s.dataList = [d] ∧ imageBlock env.host ec swap env.heap r = .ok d ())

/-- An object with `n` sections over the image, of which some was read. -/
structure ImageHeld (env : Env) (img : List UInt8) (ec : ElfClass) (swap : Bool) (n : Nat) (e : Elf) : Prop where
  image : Over env img e
  kind : e.kind = .elf
  elfClass : e.elfClass = some ec
  ehdr : e.ehdr = some (openedHeader env.host ec swap img e)
  block : ∃ b, e.scns = [b] ∧ b.cnt = n ∧ n ≤ b.max
  index : ∀ i < n, ∃ s, Chain.entry e.scns (0, i) = some s ∧ s.index = i
  shdrs : (¬ InPlace swap e ∧ ∀ i < n, e.shdrAt (0, i) = none) ∨
    ∀ i < n, e.shdrAt (0, i) = some (imageShdr env.host ec swap img i)
  data : ∀ i < n, ∀ s, Chain.entry e.scns (0, i) = some s → s.Filled env img ec swap (imageShdr env.host ec swap img i)

variable {env : Env} {img : List UInt8} {ec : ElfClass} {swap : Bool} {n i : Nat} {e e' : Elf}

namespace ImageHeld

/-- The header, read field by field. -/
theorem header (hh : ImageHeld env img ec swap n e) (hi : IsElf env.host ec swap img) (f : EhdrField) :
    e.header env ec f = .ok (imageHdr env.host ec swap img) e :=
  header_opened hh.image hi.long hh.ehdr rfl f

theorem hdr (hh : ImageHeld env img ec swap n e) (hi : IsElf env.host ec swap img) :
    e.hdr env ec = imageHdr env.host ec swap img :=
  (header_value (hh.header hi .all)).2.symm

end ImageHeld

/-- The identification of the image. -/
theorem imageHdr_ident (hi : IsElf env.host ec swap img) : (imageHdr env.host ec swap img).eIdent.toList = img.take 16 := by
  have hlong := hi.long
  have h16 : 16 ≤ ehdrSize ec := by cases ec <;> decide
  unfold imageHdr
  rw [eIdent_ofFile (by rw [length_window (by omega)]; exact h16), window, List.drop_zero, List.take_take,
    Nat.min_eq_left h16]

namespace ImageHeld

theorem foreign (hh : ImageHeld env img ec swap n e) (hi : IsElf env.host ec swap img) :
    Elfutils.foreign env ec e = .ok swap e := by
  have hlong := hi.long
  have h16 : 16 ≤ ehdrSize ec := by cases ec <;> decide
  obtain ⟨o, horder, rfl⟩ := hi.order
  rw [Elfutils.foreign, hh.header hi, bind_ok, imageHdr_ident hi, List.getD_eq_getElem?_getD, List.getElem?_take_of_lt (by decide),
    ← List.getD_eq_getElem?_getD, horder]
  simp only [ne_eq, Option.some.injEq]

/-- The number of sections. -/
theorem getShdrnum (hh : ImageHeld env img ec swap n e) (hpos : 0 < n) : Elfutils.getShdrnum e = .ok n e := by
  obtain ⟨b, hb, hcnt, hle⟩ := hh.block
  obtain ⟨s, hs, hindex⟩ := hh.index (n - 1) (by omega)
  have hs' : b.data[b.cnt - 1]? = some s := by
    rw [hcnt, ← hs, hb]
    rfl
  rw [Elfutils.getShdrnum, if_neg (not_not.mpr hh.kind), hb, List.getLast?_singleton]
  simp only
  rw [if_neg (by omega), if_neg (by omega), hs']
  simp only
  rw [hindex]
  congr 1
  omega

/-- The bytes of the table of section headers, where the headers are not in place. -/
theorem shdrBytes (hh : ImageHeld env img ec swap n e) (hi : IsElf env.host ec swap img) (hplace : ¬ InPlace swap e)
    (hpos : 0 < n) (hfit : ec.get (imageHdr env.host ec swap img).eShoff + n * shdrSize ec ≤ img.length) :
    Elfutils.shdrBytes env ec n e =
      .ok (window img (ec.get (imageHdr env.host ec swap img).eShoff) (n * shdrSize ec)) e := by
  have hsize : 0 < n * shdrSize ec := Nat.mul_pos hpos (by cases ec <;> decide)
  rw [Elfutils.shdrBytes, hh.header hi, bind_ok]
  dsimp only
  by_cases hm : e.mapAddress.isSome
  · rw [if_pos hm, if_neg (by rw [hh.image.size]; omega), hh.foreign hi, bind_ok, if_neg fun h => hplace ⟨hm, h.2⟩,
      mapRead_over hh.image hm hfit]
  · rw [if_neg hm, if_pos hh.image.fildes, (pread_over hh.image hfit).2]
    dsimp only
    rw [if_neg (not_not.mpr (length_window hfit))]

end ImageHeld

/-! ## Reading the section headers -/

theorem Scn.Filled.congr {h : Shdr} {s s' : Scn} (hs : s.Filled env img ec swap h) (hcore : s'.core = s.core) :
    s'.Filled env img ec swap h := by
  have hraw : s'.rawdata = s.rawdata := (congrArg Scn.rawdata hcore : s'.core.rawdata = s.core.rawdata)
  have hread : s'.dataRead = s.dataRead := (congrArg Scn.dataRead hcore : s'.core.dataRead = s.core.dataRead)
  have hfile : s'.filedata = s.filedata := (congrArg Scn.filedata hcore : s'.core.filedata = s.core.filedata)
  have hlist : s'.dataList = s.dataList := (congrArg Scn.dataList hcore : s'.core.dataList = s.core.dataList)
  unfold Scn.Filled Scn.Unread at *
  rw [hraw, hread, hfile, hlist]
  exact hs

/-- The pointers to the headers are set, and nothing else that matters. -/
theorem storeShdrs_exact {b : ScnList} {shdrs : List Shdr} (shndx : Bool) (hb : e.scns = [b]) (hlen : shdrs.length ≤ b.max) :
    ∃ e', storeShdrs shndx shdrs e = .ok () e' ∧ SameBut e e' ∧ (∃ b', e'.scns = [b'] ∧ b'.cnt = b.cnt ∧ b'.max = b.max) ∧
      (∀ i < shdrs.length, e'.shdrAt (0, i) = shdrs[i]?) ∧
      ∀ q, (Chain.entry e'.scns q).map Scn.core = (Chain.entry e.scns q).map Scn.core := by
  have hfirst : e.firstData = b.data := by
    rw [Elf.firstData, hb]
    rfl
  obtain ⟨data, hdata⟩ : ∃ data, data = if shndx then (List.range shdrs.length).foldl (setShndx shdrs) b.data else b.data :=
    ⟨_, rfl⟩
  have hmap := fun {β : Type} (g : Scn → β) h h' => @map_storeShdrs β g h h' shndx shdrs b.data
  rw [← hdata] at hmap
  obtain ⟨data', hdata'⟩ : ∃ data', data' = data.mapIdx fun i s => if i < shdrs.length then { s with shdr := shdrs[i]? } else s :=
    ⟨_, rfl⟩
  rw [← hdata'] at hmap
  have hscns : (e.setFirstData data').scns = [⟨b.cnt, data'⟩] := by
    rw [Elf.setFirstData, Elf.scns_setScns, hb]
    rfl
  have hlength : data'.length = b.data.length := by
    simpa using congrArg List.length (hmap Scn.index (fun _ _ => rfl) fun _ _ => rfl)
  refine ⟨e.setFirstData data', ?_, rfl, ⟨_, hscns, rfl, hlength⟩, fun i hi => ?_, fun q => ?_⟩
  · have hroom : ¬ b.data.length < shdrs.length := Nat.not_lt.mpr hlen
    rw [storeShdrs, hfirst, if_neg hroom, ← hdata]
    dsimp only
    rw [← hdata']
  · have hlt : i < data.length := by
      have hlen : shdrs.length ≤ b.data.length := hlen
      rw [← hlength, hdata', List.length_mapIdx] at hlen
      omega
    rw [Elf.shdrAt, hscns]
    show (data'[i]?).bind Scn.shdr = _
    rw [hdata', List.getElem?_mapIdx, List.getElem?_eq_getElem hlt, Option.map_some, Option.bind_some, if_pos hi]
  · refine entry_setFirstData ?_
    rw [hfirst]
    exact hmap Scn.core (fun _ _ => rfl) fun _ _ => rfl

namespace ImageHeld

/-- The descriptor with the section headers. -/
theorem withShdrs (hh : ImageHeld env img ec swap n e) (hsame : SameBut e e') (hblock : ∃ b, e'.scns = [b] ∧ b.cnt = n ∧ n ≤ b.max)
    (hcore : ∀ q, (Chain.entry e'.scns q).map Scn.core = (Chain.entry e.scns q).map Scn.core)
    (hshdrs : ∀ i < n, e'.shdrAt (0, i) = some (imageShdr env.host ec swap img i)) : ImageHeld env img ec swap n e' := by
  have hback : ∀ q s', Chain.entry e'.scns q = some s' → ∃ s, Chain.entry e.scns q = some s ∧ s'.core = s.core := by
    intro q s' hs'
    have hq := hcore q
    rw [hs', Option.map_some] at hq
    obtain ⟨s, hs, heq⟩ := Option.map_eq_some_iff.mp hq.symm
    exact ⟨s, hs, heq.symm⟩
  refine ⟨?_, hsame.kind.trans hh.kind, hsame.elfClass.trans hh.elfClass, ?_, hblock, fun i hi => ?_, .inr hshdrs,
    fun i hi s' hs' => ?_⟩
  · obtain ⟨h₁, h₂, h₃, h₄, h₅⟩ := hh.image
    rw [hsame]
    exact ⟨h₁, h₂, h₃, h₄, h₅⟩
  · rw [hsame]
    exact hh.ehdr
  · obtain ⟨s, hs, hindex⟩ := hh.index i hi
    have hq := hcore (0, i)
    rw [hs, Option.map_some] at hq
    obtain ⟨s', hs', heq⟩ := Option.map_eq_some_iff.mp hq
    exact ⟨s', hs', (congrArg Scn.index heq : s'.core.index = s.core.index).trans hindex⟩
  · obtain ⟨s, hs, heq⟩ := hback _ _ hs'
    exact (hh.data i hi s hs).congr heq

/-- **The header of a section is that of the image**, whether the table was read before or is read now. -/
theorem getShdr (hh : ImageHeld env img ec swap n e) (hi : IsElf env.host ec swap img)
    (hn : shnumOf env.host ec swap img = some n) (hlt : i < n) :
    ∃ e', Elfutils.getShdr env (0, i) e = .ok (imageShdr env.host ec swap img i) e' ∧ ImageHeld env img ec swap n e' ∧
      e'.shdrAt (0, i) = some (imageShdr env.host ec swap img i) ∧
      ∀ q, (Chain.entry e'.scns q).map Scn.core = (Chain.entry e.scns q).map Scn.core := by
  obtain ⟨s, hs, -⟩ := hh.index i hlt
  have hat : e.shdrAt (0, i) = s.shdr := shdrAt_of_entry hs
  rcases hh.shdrs with ⟨hplace, hnone⟩ | hall
  · obtain ⟨hbig, hfit⟩ := shnumOf_bounds hn
    obtain ⟨b, hb, hcnt, hle⟩ := hh.block
    have hroom : ¬ (2 ^ 64 - 1) / shdrSize ec < n := by
      cases ec
      · show ¬ (2 ^ 64 - 1) / 40 < n
        omega
      · show ¬ (2 ^ 64 - 1) / 64 < n
        omega
    obtain ⟨table, htable⟩ : ∃ table, table = shdrTable env ec swap n
      (window img (ec.get (imageHdr env.host ec swap img).eShoff) (n * shdrSize ec)) := ⟨_, rfl⟩
    have hlen : table.length = n := by rw [htable]; simp [shdrTable]
    have hget : ∀ j < n, table[j]? = some (imageShdr env.host ec swap img j) := by
      intro j hj
      rw [htable, shdrTable, List.getElem?_map, List.getElem?_range hj, Option.map_some, window_window, imageShdr]
      calc j * shdrSize ec + shdrSize ec = (j + 1) * shdrSize ec := (Nat.succ_mul ..).symm
        _ ≤ n * shdrSize ec := Nat.mul_le_mul_right _ hj
    obtain ⟨e', hstore, hsame, hblock, hshdrs, hcore⟩ := storeShdrs_exact (e.mapAddress.isSome && swap) hb
      (by rw [hlen]; exact hle)
    have hshdrs : ∀ j < n, e'.shdrAt (0, j) = some (imageShdr env.host ec swap img j) := fun j hj =>
      (hshdrs j (by omega)).trans (hget j hj)
    obtain ⟨b', hb', hcnt', hmax'⟩ := hblock
    refine ⟨e', ?_, hh.withShdrs hsame ⟨b', hb', by omega, by omega⟩ hcore hshdrs, hshdrs i hlt, hcore⟩
    rw [getShdr_absent (by rw [hh.ehdr]; rfl) hh.elfClass hs (hat.symm.trans (hnone i hlt)), loadTable,
      hh.getShdrnum (by omega), bind_ok, if_neg hroom, hh.shdrBytes hi hplace (by omega) (hfit.resolve_left (by omega)),
      bind_ok, hh.foreign hi, bind_ok, ← htable, hstore, bind_ok]
    have hfound := hshdrs i hlt
    obtain ⟨s', hs', hshdr⟩ := Option.bind_eq_some_iff.mp hfound
    rw [scn_of_entry hs', bind_ok, hshdr]
  · have hshdr := hat.symm.trans (hall i hlt)
    exact ⟨e, getShdr_present hs hshdr, hh, hall i hlt, fun _ => rfl⟩

end ImageHeld

/-! ## Reading the data of a section -/

/-- An answer of the image, as a call. -/
def told {α : Type} (e : Elf) : Except ElfError α → Call α
  | .ok a => .ok a e
  | .error c => .err c e

namespace ImageHeld

theorem class_getD (hh : ImageHeld env img ec swap n e) : e.elfClass.getD .elfclass64 = ec := by rw [hh.elfClass]; rfl

theorem sectionEntsize (hh : ImageHeld env img ec swap n e) (hi : IsElf env.host ec swap img) (h : Shdr) :
    Elfutils.sectionEntsize env ec h e = .ok (entsizeOf ec (imageHdr env.host ec swap img) h) e := by
  unfold Elfutils.sectionEntsize entsizeOf
  split
  · rfl
  · split
    · rw [gelfEhdr, hh.header hi, bind_ok]
    · rfl

theorem dataType (hh : ImageHeld env img ec swap n e) (hi : IsElf env.host ec swap img) (type : UInt32) (align : Nat) :
    Elfutils.dataType env ec type align e = .ok (dataTypeOf ec (imageHdr env.host ec swap img) type align) e := by
  unfold Elfutils.dataType dataTypeOf
  split
  · rw [gelfEhdr, hh.header hi, bind_ok]
  · rfl

theorem rawBytes (hh : ImageHeld env img ec swap n e) (hi : IsElf env.host ec swap img) (h : Shdr) :
    Elfutils.rawBytes env ec h e = told e (imageBytes env.host ec swap img h) := by
  unfold Elfutils.rawBytes imageBytes
  extract_lets offset size
  by_cases hempty : size = 0 ∨ h.shType = shtNobits
  · rw [if_pos hempty, if_pos hempty, told]
  rw [if_neg hempty, if_neg hempty, hh.sectionEntsize hi, bind_ok, hh.image.size]
  by_cases hentries : size % entsizeOf ec (imageHdr env.host ec swap img) h ≠ 0
  · rw [if_pos hentries, if_pos hentries, told]
  rw [if_neg hentries, if_neg hentries]
  by_cases hout : img.length < offset ∨ img.length - offset < size
  · rw [if_pos hout, if_pos hout, if_pos hout, told, if_pos hh.image.fildes, ite_self]
  rw [if_neg hout, if_neg hout, if_neg hout, told, if_pos hh.image.fildes]
  have hin : offset + size ≤ img.length := by omega
  by_cases hm : e.mapAddress.isSome
  · rw [if_pos hm, mapRead_over hh.image hm hin, bind_ok]
  · rw [if_neg hm, (pread_over hh.image hin).2]
    dsimp only
    rw [if_neg (not_not.mpr (length_window hin))]

theorem sectionRaw (hh : ImageHeld env img ec swap n e) (hi : IsElf env.host ec swap img) (h : Shdr) :
    Elfutils.sectionRaw env e h = told e (imageRaw env.host ec swap img h) := by
  unfold Elfutils.sectionRaw imageRaw
  rw [hh.class_getD]
  dsimp only
  rw [hh.rawBytes hi]
  cases imageBytes env.host ec swap img h with
  | error c => rfl
  | ok buf =>
    rw [told, bind_ok]
    generalize decide (h.shFlags &&& shfCompressed ≠ 0) = compressed
    cases compressed with
    | true =>
      rw [if_pos rfl, bind_ok, hh.header hi, bind_ok]
      rfl
    | false =>
      rw [if_neg Bool.false_ne_true, hh.dataType hi, bind_ok, hh.header hi, bind_ok]
      rfl

theorem convertData (hh : ImageHeld env img ec swap n e) (hi : IsElf env.host ec swap img) (t : ElfType) (raw : List UInt8) :
    Elfutils.convertData env ec t raw e = (imageConvert env.host ec swap env.heap t raw).within fun _ => e := by
  unfold Elfutils.convertData imageConvert
  rw [hh.foreign hi, bind_ok]
  split
  · rfl
  · cases xfct env.host ec t false 0 raw.length raw.length (convertMemory env.heap raw) <;> rfl

/-- One section may change, but for its header and its index. -/
theorem setScn {f : Scn → Scn} {s : Scn} (hh : ImageHeld env img ec swap n e) (hs : Chain.entry e.scns (0, i) = some s)
    (hindex : (f s).index = s.index) (hshdr : (f s).shdr = s.shdr)
    (hdata : (f s).Filled env img ec swap (imageShdr env.host ec swap img i)) :
    ImageHeld env img ec swap n (e.setScn (0, i) f) := by
  have hput : e.setScn (0, i) f = e.put (0, i) (f s) := setScn_eq_put hs
  have hat : ∀ j, (e.put (0, i) (f s)).shdrAt (0, j) = e.shdrAt (0, j) := by
    intro j
    by_cases hj : j = i
    · subst hj
      rw [shdrAt_of_entry (entry_put hs), hshdr, shdrAt_of_entry hs]
    · exact shdrAt_put_ne fun h => hj (congrArg Prod.snd h)
  rw [hput]
  refine ⟨?_, hh.kind, hh.elfClass, hh.ehdr, ?_, fun j hj => ?_, ?_, fun j hj s' hs' => ?_⟩
  · obtain ⟨h₁, h₂, h₃, h₄, h₅⟩ := hh.image
    exact ⟨h₁, h₂, h₃, h₄, h₅⟩
  · obtain ⟨b, hb, hcnt, hle⟩ := hh.block
    refine ⟨⟨b.cnt, b.data.modify i fun _ => f s⟩, ?_, hcnt, ?_⟩
    · rw [Elf.put, Elf.setScn, Elf.scns_setScns, hb]
      rfl
    · rw [Block.max, List.length_modify]
      exact hle
  · by_cases hji : j = i
    · subst hji
      obtain ⟨s', hs', hidx⟩ := hh.index j hj
      rw [hs] at hs'
      cases hs'
      exact ⟨f s, entry_put hs, hindex.trans hidx⟩
    · rw [entry_put_ne fun h => hji (congrArg Prod.snd h)]
      exact hh.index j hj
  · simp only [hat]
    exact hh.shdrs
  · by_cases hji : j = i
    · subst hji
      rw [entry_put hs] at hs'
      cases hs'
      exact hdata
    · rw [entry_put_ne fun h => hji (congrArg Prod.snd h)] at hs'
      exact hh.data j hj s' hs'

/-- Reading the raw data of a section of which nothing was read. -/
theorem setRawdata {s : Scn} (hh : ImageHeld env img ec swap n e) (hi : IsElf env.host ec swap img)
    (hn : shnumOf env.host ec swap img = some n) (hlt : i < n) (hs : Chain.entry e.scns (0, i) = some s) (hunread : s.Unread) :
    match imageRaw env.host ec swap img (imageShdr env.host ec swap img i) with
    | .error c => ∃ e', Elfutils.setRawdata env (0, i) e = .err c e' ∧ ImageHeld env img ec swap n e'
    | .ok r => ∃ e' s', Elfutils.setRawdata env (0, i) e = .ok () e' ∧ ImageHeld env img ec swap n e' ∧
        Chain.entry e'.scns (0, i) = some s' ∧ s'.rawdata = some r ∧ s'.dataList = [] := by
  obtain ⟨e₁, hget, hh₁, -, hcore⟩ := hh.getShdr hi hn hlt
  have hq := hcore (0, i)
  rw [hs, Option.map_some] at hq
  obtain ⟨s₁, hs₁, heq⟩ := Option.map_eq_some_iff.mp hq
  have hunread₁ : s₁.Unread := unread_of_core heq hunread
  rw [setRawdata_eq, hget, bind_ok, hh₁.sectionRaw hi]
  cases hraw : imageRaw env.host ec swap img (imageShdr env.host ec swap img i) with
  | error c => exact ⟨e₁, rfl, hh₁⟩
  | ok r =>
    refine ⟨_, { s₁ with rawdata := some r, dataRead := true, filedata := true }, rfl, ?_, ?_, rfl, hunread₁.2.2⟩
    · exact hh₁.setScn hs₁ rfl rfl (.inr ⟨rfl, rfl, r, rfl, hraw, .inl hunread₁.2.2⟩)
    · rw [entry_setScn, hs₁]
      rfl

/-- The block that a section is given is that of its raw data. -/
theorem setDataList_eq {s : Scn} {r : Data} (hh : ImageHeld env img ec swap n e) (hi : IsElf env.host ec swap img)
    (hs : Chain.entry e.scns (0, i) = some s) (hr : s.rawdata = some r) :
    Elfutils.setDataList env (0, i) e = ((imageBlock env.host ec swap env.heap r).within fun _ => e).bind fun d e =>
      .ok () (e.setScn (0, i) fun s => { s with dataList := [d] }) := by
  unfold Elfutils.setDataList imageBlock
  rw [scn_of_entry hs, bind_ok, hr, Option.getD_some]
  dsimp only
  cases r.dBuf with
  | none => rfl
  | some bs =>
    dsimp only
    by_cases hz : r.dSize = 0
    · rw [if_pos hz, if_pos hz]
      rfl
    · rw [if_neg hz, if_neg hz, hh.class_getD, hh.convertData hi]
      cases imageConvert env.host ec swap env.heap r.dType bs <;> rfl

/-- Making the block of a section whose raw data were read. -/
theorem setDataList {s : Scn} {r : Data} (hh : ImageHeld env img ec swap n e) (hi : IsElf env.host ec swap img) (hlt : i < n)
    (hs : Chain.entry e.scns (0, i) = some s) (hr : s.rawdata = some r) :
    match imageBlock env.host ec swap env.heap r with
    | .stop f => Elfutils.setDataList env (0, i) e = .stop f
    | .err c _ => Elfutils.setDataList env (0, i) e = .err c e
    | .ok d _ => ∃ e' s', Elfutils.setDataList env (0, i) e = .ok () e' ∧ ImageHeld env img ec swap n e' ∧
        Chain.entry e'.scns (0, i) = some s' ∧ s'.dataList = [d] := by
  rw [hh.setDataList_eq hi hs hr]
  cases hd : imageBlock env.host ec swap env.heap r with
  | stop f => rfl
  | err c u => rfl
  | ok d u =>
    refine ⟨_, { s with dataList := [d] }, rfl, ?_, ?_, rfl⟩
    · rcases hh.data i hlt s hs with hunread | ⟨hread, hfile, r', hr', hraw, -⟩
      · rw [hunread.1] at hr
        cases hr
      · rw [hr] at hr'
        cases hr'
        exact hh.setScn hs rfl rfl (.inr ⟨hread, hfile, r, hr, hraw, .inr ⟨d, rfl, hd⟩⟩)
    · rw [entry_setScn, hs]
      rfl

/-- `elf_getdata` for the first block. -/
theorem getdata (hh : ImageHeld env img ec swap n e) (hi : IsElf env.host ec swap img)
    (hn : shnumOf env.host ec swap img = some n) (hlt : i < n) :
    match imageData env.host ec swap img env.heap (imageShdr env.host ec swap img i) with
    | .stop f => Elfutils.elfGetdata env (0, i) none e = .stop f
    | .err c _ => ∃ e', Elfutils.elfGetdata env (0, i) none e = .err c e' ∧ ImageHeld env img ec swap n e'
    | .ok d _ => ∃ e', Elfutils.elfGetdata env (0, i) none e = .ok (some d) e' ∧ ImageHeld env img ec swap n e' := by
  -- the second half, where the raw data are there
  have hblock : ∀ {e : Elf} {s : Scn} {r : Data}, ImageHeld env img ec swap n e → Chain.entry e.scns (0, i) = some s →
      s.rawdata = some r → s.dataList = [] →
      let call := (e.scn (0, i)).bind fun s e => (if s.dataList.isEmpty then Elfutils.setDataList env (0, i) e else
        .ok () e).bind fun _ e => (e.scn (0, i)).bind fun s e => .ok s.dataList.head? e
      match imageBlock env.host ec swap env.heap r with
      | .stop f => call = .stop f
      | .err c _ => ∃ e', call = .err c e' ∧ ImageHeld env img ec swap n e'
      | .ok d _ => ∃ e', call = .ok (some d) e' ∧ ImageHeld env img ec swap n e' := by
    intro e s r hh hs hr hnil call
    have hcall : call = (Elfutils.setDataList env (0, i) e).bind fun _ e => (e.scn (0, i)).bind fun s e =>
        .ok s.dataList.head? e := by
      show (e.scn (0, i)).bind _ = _
      rw [scn_of_entry hs, bind_ok, hnil]
      rfl
    have hset := hh.setDataList hi hlt hs hr
    rw [hcall]
    cases hd : imageBlock env.host ec swap env.heap r with
    | stop f =>
      rw [hd] at hset
      dsimp only at hset ⊢
      rw [hset, bind_stop]
    | err c u =>
      rw [hd] at hset
      dsimp only at hset ⊢
      exact ⟨e, by rw [hset, bind_err], hh⟩
    | ok d u =>
      rw [hd] at hset
      obtain ⟨e', s', hset, hh', hs', hlist⟩ := hset
      exact ⟨e', by rw [hset, bind_ok, scn_of_entry hs', bind_ok, hlist]; rfl, hh'⟩
  obtain ⟨s, hs, -⟩ := hh.index i hlt
  unfold Elfutils.elfGetdata imageData
  rw [if_neg (not_not.mpr hh.kind), scn_of_entry hs, bind_ok]
  dsimp only
  rcases hh.data i hlt s hs with hunread | ⟨hread, hfile, r, hr, hraw, hlist⟩
  · have hset := hh.setRawdata hi hn hlt hs hunread
    rw [if_neg (by rw [hunread.2.1]; exact Bool.false_ne_true)]
    cases hraw : imageRaw env.host ec swap img (imageShdr env.host ec swap img i) with
    | error c =>
      rw [hraw] at hset
      obtain ⟨e', hcall, hh'⟩ := hset
      exact ⟨e', by rw [hcall, bind_err], hh'⟩
    | ok r =>
      rw [hraw] at hset
      obtain ⟨e', s', hcall, hh', hs', hr', hnil⟩ := hset
      rw [hcall, bind_ok]
      exact hblock hh' hs' hr' hnil
  · rw [if_pos hread, bind_ok, hraw]
    rcases hlist with hnil | ⟨d, hd, hblk⟩
    · exact hblock hh hs hr hnil
    · dsimp only
      rw [hblk, scn_of_entry hs, bind_ok, hd]
      exact ⟨e, by rw [if_neg (by simp), bind_ok, scn_of_entry hs, bind_ok, hd]; rfl, hh⟩

/-- `elf_rawdata`. -/
theorem rawdata (hh : ImageHeld env img ec swap n e) (hi : IsElf env.host ec swap img)
    (hn : shnumOf env.host ec swap img = some n) (hlt : i < n) :
    match imageRaw env.host ec swap img (imageShdr env.host ec swap img i) with
    | .error c => ∃ e', Elfutils.elfRawdata env (0, i) none e = .err c e' ∧ ImageHeld env img ec swap n e'
    | .ok r => ∃ e', Elfutils.elfRawdata env (0, i) none e = .ok r e' ∧ ImageHeld env img ec swap n e' := by
  obtain ⟨s, hs, -⟩ := hh.index i hlt
  unfold Elfutils.elfRawdata
  rw [if_neg (not_not.mpr hh.kind), scn_of_entry hs, bind_ok]
  rcases hh.data i hlt s hs with hunread | ⟨hread, hfile, r, hr, hraw, -⟩
  · have hset := hh.setRawdata hi hn hlt hs hunread
    rw [if_neg (by simp [hunread.2.1]), if_neg (by rw [hunread.2.1]; exact Bool.false_ne_true)]
    cases hraw : imageRaw env.host ec swap img (imageShdr env.host ec swap img i) with
    | error c =>
      rw [hraw] at hset
      obtain ⟨e', hcall, hh'⟩ := hset
      exact ⟨e', by rw [hcall]; rfl, hh'⟩
    | ok r =>
      rw [hraw] at hset
      obtain ⟨e', s', hcall, hh', hs', hr', -⟩ := hset
      exact ⟨e', by rw [hcall, bind_ok, scn_of_entry hs', bind_ok, hr']; rfl, hh'⟩
  · rw [if_neg (by simp [hfile]), if_pos hread, bind_ok, scn_of_entry hs, bind_ok, hr, hraw]
    exact ⟨e, rfl, hh⟩

end ImageHeld

/-! ## Questions -/

/-- A call that leaves the descriptor as it is. -/
def Stays {α : Type} (e : Elf) (x : Call α) : Prop :=
  x.Ensures (fun _ e' => e' = e) (fun e' => e' = e) fun _ => True

namespace Stays

variable {α β : Type}

theorem bind {x : Call α} {f : α → Elf → Call β} (hx : Stays e x) (hf : ∀ a, Stays e (f a e)) : Stays e (x.bind f) :=
  ensures_bind hx fun a _ h => h ▸ hf a

theorem mapRead (e : Elf) (off len : Nat) : Stays e (e.mapRead off len) := by
  cases hx : e.mapRead off len with
  | ok bs e' => exact Elf.mapRead_ok hx
  | err c e' => exact absurd hx Elf.mapRead_ne_err
  | stop f => trivial

theorem header (env : Env) (e : Elf) (ec : ElfClass) (f : EhdrField) : Stays e (e.header env ec f) := by
  unfold Elf.header
  split
  · trivial
  · exact rfl
  · exact (mapRead e _ _).bind fun _ => rfl

theorem foreign (env : Env) (e : Elf) (ec : ElfClass) : Stays e (Elfutils.foreign env ec e) :=
  (header env e ec _).bind fun _ => rfl

theorem getPhdrnum (env : Env) (e : Elf) (ec : ElfClass) : Stays e (Elfutils.getPhdrnum env ec e) := by
  refine (header env e ec _).bind fun h => ?_
  dsimp only
  split
  · split
    · trivial
    · split
      · exact rfl
      · split
        · trivial
        · exact rfl
  · exact rfl

theorem getPhdrnumChk (env : Env) (e : Elf) : Stays e (Elfutils.getPhdrnumChk env e) := by
  unfold Elfutils.getPhdrnumChk
  split
  · refine (getPhdrnum env e _).bind fun num => ?_
    split
    · exact rfl
    · refine (header env e _ _).bind fun h => ?_
      dsimp only
      split
      · exact rfl
      · split
        · exact rfl
        · split <;> exact rfl
  · split
    · exact rfl
    · trivial

theorem shLink0 (env : Env) (e : Elf) (ec : ElfClass) : Stays e (Elfutils.shLink0 env ec e) := by
  refine (header env e ec _).bind fun h => (foreign env e ec).bind fun swap => ?_
  split
  · split
    · exact rfl
    · exact (mapRead e _ _).bind fun _ => rfl
  · split
    · exact rfl
    · split <;> exact rfl

theorem elfGetshdrstrndx (env : Env) (e : Elf) : Stays e (Elfutils.elfGetshdrstrndx env e) := by
  unfold Elfutils.elfGetshdrstrndx
  split
  · exact rfl
  · split
    · refine (header env e _ _).bind fun h => ?_
      extract_lets num
      split
      · exact rfl
      · split
        · trivial
        · split
          · exact rfl
          · split
            · trivial
            · split
              · exact rfl
              · exact shLink0 env e _
    · exact rfl

end Stays

/-- A call on an object that goes on as it was held. -/
def GoesOn {α : Type} (env : Env) (img : List UInt8) (ec : ElfClass) (swap : Bool) (n : Nat) (x : Call α) : Prop :=
  x.Ensures (fun _ => ImageHeld env img ec swap n) (ImageHeld env img ec swap n) fun _ => True

theorem Stays.goes {α : Type} {x : Call α} (hx : Stays e x) (hh : ImageHeld env img ec swap n e) : GoesOn env img ec swap n x :=
  ensures_mono hx (fun _ _ h => h ▸ hh) (fun _ h => h ▸ hh) fun _ => id

namespace ImageHeld

theorem setPhdr (hh : ImageHeld env img ec swap n e) (ps : Phdrs) : ImageHeld env img ec swap n (e.setPhdr ps) := by
  obtain ⟨h₁, h₂, h₃, h₄, h₅⟩ := hh.image
  exact ⟨⟨h₁, h₂, h₃, h₄, h₅⟩, hh.kind, hh.elfClass, hh.ehdr, hh.block, hh.index, hh.shdrs, hh.data⟩

theorem loadPhdr (hh : ImageHeld env img ec swap n e) (num off : Nat) : GoesOn env img ec swap n (Elfutils.loadPhdr env ec num off e) := by
  unfold Elfutils.loadPhdr
  dsimp only
  split
  · exact hh
  split
  · split
    · exact hh
    · refine ensures_bind ((Stays.foreign env e ec).goes hh) fun swap' e₁ hh₁ => ?_
      split
      · exact ensures_bind ((Stays.mapRead e₁ _ _).goes hh₁) fun bs e₂ hh₂ => hh₂.setPhdr _
      · exact hh₁.setPhdr _
  · split
    · split
      · exact hh
      · split
        · exact hh
        · exact ensures_bind ((Stays.foreign env e ec).goes hh) fun swap' e₁ hh₁ => hh₁.setPhdr _
    · exact hh

theorem getPhdr (hh : ImageHeld env img ec swap n e) : GoesOn env img ec swap n (Elfutils.getPhdr env e) := by
  unfold Elfutils.getPhdr
  split
  · exact hh
  · rw [hh.ehdr, hh.elfClass]
    refine ensures_bind ((Stays.getPhdrnum env e ec).goes hh) fun num e₁ hh₁ => ?_
    split
    · exact hh₁
    · refine ensures_bind ((Stays.header env e₁ ec _).goes hh₁) fun h e₂ hh₂ => ?_
      split
      · exact hh₂
      · exact hh₂.loadPhdr _ _

theorem gelfGetphdr (hh : ImageHeld env img ec swap n e) (ndx : Int) : GoesOn env img ec swap n (Elfutils.gelfGetphdr env ndx e) := by
  unfold Elfutils.gelfGetphdr
  rw [if_neg (not_not.mpr hh.kind)]
  refine ensures_bind hh.getPhdr fun ps e' hh' => ?_
  have hchk := (Stays.getPhdrnumChk env e').goes hh'
  split
  · trivial
  · next heq =>
    rw [heq] at hchk
    exact hchk
  · next heq =>
    rw [heq] at hchk
    split
    · exact hchk
    · dsimp only
      split
      · refine ensures_bind ((Stays.mapRead _ _ _).goes hchk) fun bs e'' hh'' => ?_
        exact hh''
      · split
        · exact hchk
        · trivial

/-- A section is found at its index. -/
theorem getscn (hh : ImageHeld env img ec swap n e) (hpos : 0 < n) (idx : Nat) :
    elfGetscn idx e = if idx < n then .ok (0, idx) e else .err .INVALID_INDEX e := by
  obtain ⟨b, hb, hcnt, hle⟩ := hh.block
  have hzeroth : makeZeroth e = e := by
    rw [makeZeroth, hb]
    exact if_neg fun h => by omega
  rw [elfGetscn, if_neg (not_not.mpr hh.kind), hzeroth, ite_self]
  dsimp only
  rw [hb, Chain.find, hcnt]
  by_cases hlt : idx < n
  · rw [if_pos (by omega), if_pos hlt, if_pos hlt]
  · rw [if_neg hlt, if_neg hlt]
    have hnone : (if idx < b.max then none else
        (Chain.find ([] : List ScnList) (idx - b.max)).map fun p => (p.1 + 1, p.2)) = none := by
      rw [Chain.find, Option.map_none, ite_self]
    rw [hnone]

/-- Data of a section. -/
theorem askData (hh : ImageHeld env img ec swap n e) (hi : IsElf env.host ec swap img)
    (hn : shnumOf env.host ec swap img = some n) (hlt : i < n) (k : Option Nat) :
    GoesOn env img ec swap n (Elfutils.elfGetdata env (0, i) k e) := by
  cases k with
  | none =>
    have hget := hh.getdata hi hn hlt
    cases hd : imageData env.host ec swap img env.heap (imageShdr env.host ec swap img i) with
    | stop f =>
      rw [hd] at hget
      rw [show Elfutils.elfGetdata env (0, i) none e = .stop f from hget]
      trivial
    | err c u =>
      rw [hd] at hget
      obtain ⟨e', hcall, hh'⟩ := hget
      rw [hcall]
      exact hh'
    | ok d u =>
      rw [hd] at hget
      obtain ⟨e', hcall, hh'⟩ := hget
      rw [hcall]
      exact hh'
  | some k =>
    obtain ⟨s, hs, -⟩ := hh.index i hlt
    rw [Elfutils.elfGetdata, if_neg (not_not.mpr hh.kind), scn_of_entry hs, bind_ok]
    dsimp only
    split <;> exact hh

/-- Raw data of a section. -/
theorem askRawdata (hh : ImageHeld env img ec swap n e) (hi : IsElf env.host ec swap img)
    (hn : shnumOf env.host ec swap img = some n) (hlt : i < n) (k : Option Nat) :
    GoesOn env img ec swap n (Elfutils.elfRawdata env (0, i) k e) := by
  cases k with
  | none =>
    have hget := hh.rawdata hi hn hlt
    cases hd : imageRaw env.host ec swap img (imageShdr env.host ec swap img i) with
    | error c =>
      rw [hd] at hget
      obtain ⟨e', hcall, hh'⟩ := hget
      rw [hcall]
      exact hh'
    | ok r =>
      rw [hd] at hget
      obtain ⟨e', hcall, hh'⟩ := hget
      rw [hcall]
      exact hh'
  | some k =>
    obtain ⟨s, hs, -⟩ := hh.index i hlt
    rw [Elfutils.elfRawdata, if_neg (not_not.mpr hh.kind), scn_of_entry hs, bind_ok, if_pos (.inl rfl)]
    exact hh

/-- `gelf_getshdr` with the header of the image. -/
theorem gelfGetshdr (hh : ImageHeld env img ec swap n e) (hi : IsElf env.host ec swap img)
    (hn : shnumOf env.host ec swap img = some n) (hlt : i < n) :
    ∃ e', Elfutils.gelfGetshdr env (0, i) e = .ok (imageShdr env.host ec swap img i) e' ∧ ImageHeld env img ec swap n e' := by
  obtain ⟨e', hget, hh', -⟩ := hh.getShdr hi hn hlt
  exact ⟨e', by rw [Elfutils.gelfGetshdr, hget], hh'⟩

/-- **Every question goes on with an object that holds what the image says.** -/
theorem ask (hh : ImageHeld env img ec swap n e) (hi : IsElf env.host ec swap img)
    (hn : shnumOf env.host ec swap img = some n) (hpos : 0 < n) (q : Query) : GoesOn env img ec swap n (q.ask env e) := by
  -- a question about a section that is not there is refused
  have hscn : ∀ idx, (f : ScnHandle → Elf → Call Answer) → (idx < n → GoesOn env img ec swap n (f (0, idx) e)) →
      GoesOn env img ec swap n ((elfGetscn idx e).bind f) := by
    intro idx f hf
    rw [hh.getscn hpos]
    by_cases hlt : idx < n
    · rw [if_pos hlt, bind_ok]
      exact hf hlt
    · rw [if_neg hlt, bind_err]
      exact hh
  cases q with
  | shdrnum =>
    show GoesOn env img ec swap n (if e.kind ≠ .elf then _ else _)
    rw [if_neg (not_not.mpr hh.kind), hh.getShdrnum hpos, bind_ok]
    exact hh
  | phdrnum =>
    refine ensures_bind ?_ fun num e' hh' => hh'
    rw [elfGetphdrnum, if_neg (not_not.mpr hh.kind)]
    exact (Stays.getPhdrnumChk env e).goes hh
  | shdrstrndx => exact ensures_bind ((Stays.elfGetshdrstrndx env e).goes hh) fun num e' hh' => hh'
  | scn idx => exact hscn idx _ fun _ => hh
  | shdr idx =>
    refine hscn idx _ fun hlt => ?_
    obtain ⟨e', hget, hh'⟩ := hh.gelfGetshdr hi hn hlt
    rw [hget]
    exact hh'
  | shndx idx =>
    refine hscn idx _ fun hlt => ensures_bind ?_ fun num e' hh' => hh'
    obtain ⟨s, hs, -⟩ := hh.index idx hlt
    rw [elfScnshndx, scn_of_entry hs, bind_ok]
    obtain ⟨e', hget, hh'⟩ := hh.gelfGetshdr hi hn hlt
    have hstep : GoesOn env img ec swap n (if s.shndxIndex = 0 then (Elfutils.gelfGetshdr env (0, idx) e).ignore else
        .ok () e) := by
      split
      · rw [hget]
        exact hh'
      · exact hh
    refine ensures_bind hstep fun _ e₁ hh₁ => ?_
    obtain ⟨s₁, hs₁, -⟩ := hh₁.index idx hlt
    rw [scn_of_entry hs₁, bind_ok]
    exact hh₁
  | phdr ndx => exact ensures_bind (hh.gelfGetphdr ndx) fun p e' hh' => hh'
  | data idx k => exact hscn idx _ fun hlt => ensures_bind (hh.askData hi hn hlt k) fun d e' hh' => hh'
  | rawdata idx k => exact hscn idx _ fun hlt => ensures_bind (hh.askRawdata hi hn hlt k) fun d e' hh' => hh'

/-- **So after every run.** -/
theorem run (hh : ImageHeld env img ec swap n e) (hi : IsElf env.host ec swap img)
    (hn : shnumOf env.host ec swap img = some n) (hpos : 0 < n) (qs : List Query)
    (hrun : runOps (Query.step env) e qs = .ok e') : ImageHeld env img ec swap n e' := by
  refine (runOps_inv (F := fun _ => True) (fun s q s' hs hstep => ?_) (fun _ _ _ _ _ => trivial) qs e hh).1 e' hrun
  have hask := hs.ask hi hn hpos q
  rw [Query.step] at hstep
  cases hcall : q.ask env s with
  | ok a s₁ =>
    rw [hcall] at hask hstep
    cases hstep
    exact hask
  | err c s₁ =>
    rw [hcall] at hask hstep
    cases hstep
    exact hask
  | stop f =>
    rw [hcall] at hstep
    cases hstep

end ImageHeld

/-! ## The answers -/

/-- A section of an object just opened, but for what is known of extended section indices. -/
def openedScn (host : ByteOrder) (ec : ElfClass) (swap : Bool) (img : List UInt8) (e : Elf) (i : Nat) : Scn :=
  { Scn.zero with
    index := i
    shdr := if InPlace swap e then some (imageShdr host ec swap img i) else none }

theorem map_openedSections {β : Type} (g : Scn → β) (hg : ∀ s j, g { s with shndxIndex := j } = g s) (host : ByteOrder)
    (ec : ElfClass) (swap : Bool) (img : List UInt8) (e : Elf) (n : Nat) :
    (openedSections host ec swap img e n).map g = (List.range n).map fun i => g (openedScn host ec swap img e i) := by
  unfold openedSections openedScn
  by_cases hplace : InPlace swap e
  · rw [if_pos (show _ ∧ _ from hplace), map_sectionsInPlace g hg, List.length_map, List.length_range]
    refine List.map_congr_left fun i hi => ?_
    have hlt := List.mem_range.mp hi
    rw [if_pos hplace, List.getElem?_map, List.getElem?_range hlt, Option.map_some, window_window, imageShdr]
    calc i * shdrSize ec + shdrSize ec = (i + 1) * shdrSize ec := (Nat.succ_mul ..).symm
      _ ≤ n * shdrSize ec := Nat.mul_le_mul_right _ hlt
  · rw [if_neg (show ¬ (_ ∧ _) from hplace), freshSections, List.map_map]
    exact List.map_congr_left fun i _ => by rw [if_neg hplace, Function.comp_apply]; rfl

/-- An object just opened holds what the image says. -/
theorem Opening.held {host : ByteOrder} {heap : Nat → UInt8} (o : Opening img) (n : Nat) :
    ImageHeld (o.world host heap) img ec swap n (o.opened host ec swap n) := by
  obtain ⟨e, he⟩ : ∃ e, e = o.allocated := ⟨_, rfl⟩
  obtain ⟨scns, hscns⟩ : ∃ scns, scns = openedSections host ec swap img e n := ⟨_, rfl⟩
  have hmap := fun {β : Type} (g : Scn → β) hg => @map_openedSections β g hg host ec swap img e n
  rw [← hscns] at hmap
  have hlen : scns.length = n := by simpa using congrArg List.length (hmap Scn.index fun _ _ => rfl)
  have hblock : (o.opened host ec swap n).scns = [firstBlock o.cmd scns] := by rw [hscns, he]; rfl
  have hplace : InPlace swap (o.opened host ec swap n) ↔ InPlace swap e := by rw [he]; rfl
  have hentry : ∀ i < n, ∃ s, Chain.entry (o.opened host ec swap n).scns (0, i) = some s ∧ s.index = i ∧ s.Unread ∧
      s.shdr = (openedScn host ec swap img e i).shdr := by
    intro i hi
    obtain ⟨s, hs⟩ : ∃ s, scns[i]? = some s := ⟨_, List.getElem?_eq_getElem (hlen ▸ hi)⟩
    have hat : ∀ {β : Type} (g : Scn → β), (∀ s j, g { s with shndxIndex := j } = g s) →
        g s = g (openedScn host ec swap img e i) := by
      intro β g hg
      have h := congrArg (·[i]?) (hmap g hg)
      simp only [List.getElem?_map, hs, List.getElem?_range hi, Option.map_some] at h
      exact Option.some.inj h
    refine ⟨s, ?_, hat Scn.index fun _ _ => rfl, ⟨hat Scn.rawdata fun _ _ => rfl, hat Scn.dataRead fun _ _ => rfl,
      hat Scn.dataList fun _ _ => rfl⟩, hat Scn.shdr fun _ _ => rfl⟩
    rw [hblock]
    show (firstBlock o.cmd scns).data[i]? = _
    rw [firstBlock, List.getElem?_append_left (by omega), hs]
  refine ⟨opened_over o n, rfl, rfl, rfl, ⟨_, hblock, hlen, ?_⟩, fun i hi => ?_, ?_, fun i hi s hs => ?_⟩
  · rw [Block.max, firstBlock, List.length_append]
    omega
  · obtain ⟨s, hs, hindex, -⟩ := hentry i hi
    exact ⟨s, hs, hindex⟩
  · by_cases hin : InPlace swap e
    · refine .inr fun i hi => ?_
      obtain ⟨s, hs, -, -, hshdr⟩ := hentry i hi
      rw [shdrAt_of_entry hs, hshdr, openedScn, if_pos hin]
      rfl
    · refine .inl ⟨fun h => hin (hplace.mp h), fun i hi => ?_⟩
      obtain ⟨s, hs, -, -, hshdr⟩ := hentry i hi
      rw [shdrAt_of_entry hs, hshdr, openedScn, if_neg hin]
  · obtain ⟨s', hs', -, hunread, -⟩ := hentry i hi
    rw [hs] at hs'
    cases hs'
    exact .inl hunread

/-- What an image with `n` sections says to a question about them. Other questions ask for what may have been read or
not. -/
def imageAnswer (host : ByteOrder) (ec : ElfClass) (swap : Bool) (img : List UInt8) (n : Nat) (heap : Nat → UInt8) :
    Query → Option (Except Fault (Option Answer))
  | .shdrnum => some (.ok (some (.number n)))
  | .scn i => some (.ok (if i < n then some (.section (0, i)) else none))
  | .shdr i => some (.ok (if i < n then some (.shdr (imageShdr host ec swap img i)) else none))
  | .rawdata i none => some (.ok (if i < n then
      (imageRaw host ec swap img (imageShdr host ec swap img i)).toOption.map fun r => .data (some r) else none))
  | .data i none => some (if i < n then
      match imageData host ec swap img heap (imageShdr host ec swap img i) with
      | .ok d _ => .ok (some (.data (some d)))
      | .err _ _ => .ok none
      | .stop f => .error f
    else .ok none)
  | _ => none

/-- An object that holds what the image says answers it. -/
theorem ImageHeld.answer (hh : ImageHeld env img ec swap n e) (hi : IsElf env.host ec swap img)
    (hn : shnumOf env.host ec swap img = some n) (hpos : 0 < n) {q : Query} {a : Except Fault (Option Answer)}
    (ha : imageAnswer env.host ec swap img n env.heap q = some a) :
    (match q.ask env e with
    | .ok a _ => .ok (some a)
    | .err _ _ => .ok none
    | .stop f => .error f) = a := by
  -- a section that is not there
  have hscn : ∀ i, ¬ i < n → ∀ f : ScnHandle → Elf → Call Answer, (elfGetscn i e).bind f = .err .INVALID_INDEX e := by
    intro i hni f
    rw [hh.getscn hpos, if_neg hni, bind_err]
  cases q with
  | shdrnum =>
    cases ha
    rw [Query.ask, if_neg (not_not.mpr hh.kind), hh.getShdrnum hpos, bind_ok]
  | scn i =>
    cases ha
    rw [Query.ask, hh.getscn hpos]
    by_cases hlt : i < n
    · rw [if_pos hlt, if_pos hlt, bind_ok]
    · rw [if_neg hlt, if_neg hlt, bind_err]
  | shdr i =>
    cases ha
    rw [Query.ask]
    by_cases hlt : i < n
    · obtain ⟨e', hget, -⟩ := hh.gelfGetshdr hi hn hlt
      rw [if_pos hlt, hh.getscn hpos, if_pos hlt, bind_ok, hget, bind_ok]
    · rw [if_neg hlt, hscn i hlt]
  | rawdata i k =>
    cases k with
    | some k => cases ha
    | none =>
      cases ha
      rw [Query.ask]
      by_cases hlt : i < n
      · have hget := hh.rawdata hi hn hlt
        rw [if_pos hlt, hh.getscn hpos, if_pos hlt, bind_ok]
        cases hr : imageRaw env.host ec swap img (imageShdr env.host ec swap img i) with
        | error c =>
          rw [hr] at hget
          obtain ⟨e', hcall, -⟩ := hget
          rw [hcall]
          rfl
        | ok r =>
          rw [hr] at hget
          obtain ⟨e', hcall, -⟩ := hget
          rw [hcall]
          rfl
      · rw [if_neg hlt, hscn i hlt]
  | data i k =>
    cases k with
    | some k => cases ha
    | none =>
      cases ha
      rw [Query.ask]
      by_cases hlt : i < n
      · have hget := hh.getdata hi hn hlt
        rw [if_pos hlt, hh.getscn hpos, if_pos hlt, bind_ok]
        cases hd : imageData env.host ec swap img env.heap (imageShdr env.host ec swap img i) with
        | stop f =>
          rw [hd] at hget
          dsimp only at hget
          rw [hget]
          rfl
        | err c u =>
          rw [hd] at hget
          obtain ⟨e', hcall, -⟩ := hget
          rw [hcall]
          rfl
        | ok d u =>
          rw [hd] at hget
          obtain ⟨e', hcall, -⟩ := hget
          rw [hcall]
          rfl
      · rw [if_neg hlt, hscn i hlt]
  | shndx i => cases ha
  | phdr i => cases ha
  | phdrnum => cases ha
  | shdrstrndx => cases ha

/-- **The sections of an object are those of the image**, however it was opened and whatever was asked before: their
number, their headers, their raw data and their data. Unless it is a question asked before that stops the program. -/
theorem section_from_image {host : ByteOrder} (hi : IsElf host ec swap img) (hn : shnumOf host ec swap img = some n)
    (hpos : 0 < n) (heap : Nat → UInt8) (o : Opening img) (qs : List Query) {q : Query}
    {a : Except Fault (Option Answer)} (ha : imageAnswer host ec swap img n heap q = some a) :
    (∃ f, runOps (Query.step (o.world host heap)) (o.opened host ec swap n) qs = .error f) ∨
      o.result host heap qs q = a := by
  rw [Opening.result, Opening.begin_eq hi, hn]
  dsimp only
  cases hrun : runOps (Query.step (o.world host heap)) (o.opened host ec swap n) qs with
  | error f => exact .inl ⟨f, rfl⟩
  | ok e =>
    have hh : ImageHeld (o.world host heap) img ec swap n e := (o.held n).run hi hn hpos qs hrun
    exact .inr (hh.answer hi hn hpos ha)

/-- The symbol table of a big-endian image, after its raw data was asked for. -/
theorem section_from_image_symbol :
    (Opening.standalone symbolImage.bytes symbolImage.small .read (.inl rfl)).result .little (fun _ => 0)
      [.rawdata 1 none, .shdr 0] (.data 1 none) = .ok (some (.data (some (sectionData .sym symbolDecoded)))) := by
  refine (@section_from_image symbolImage.bytes .elfclass32 true 2 .little ⟨by decide +kernel, by decide +kernel,
    by decide +kernel, .big, by decide +kernel, rfl⟩ (by decide +kernel) (by decide) _ _ _ (.data 1 none) _
    (congrArg some (by decide +kernel))).resolve_left ?_
  rintro ⟨f, hf⟩
  have hgoes : (runOps (Query.step ((Opening.standalone symbolImage.bytes symbolImage.small .read (.inl rfl)).world .little
      fun _ => 0)) ((Opening.standalone symbolImage.bytes symbolImage.small .read (.inl rfl)).opened .little
      .elfclass32 true 2) [.rawdata 1 none, .shdr 0]).isOk = true := by decide +kernel
  rw [hf] at hgoes
  exact Bool.false_ne_true hgoes

end LibElf.Elfutils
