import LibElf.Elfutils.ReadRuns

/-!
# What a call on a section changes

A call that looks for the data of one section may read the table of section headers on the way. Of the descriptor it
changes the chain of blocks only, and of the section its header, its extended index and what the call is about.

1. `Scn.core`, a section but for its header; `getShdr_frame`.
2. `SameBut`, a descriptor with other sections, and what it has in common.
3. `IsRaw` and `BlockOf`, the raw data and the block that is made of them; `setRawdata_frame` and
   `setDataList_frame`, and with them the ways through `elf_getdata` and `elf_rawdata`.
-/

namespace LibElf.Elfutils

open Outcome
open Toolchain (ElfClass Ehdr Shdr)

/-! ## One entry -/

/-- A section but for what reading the headers sets. -/
def Scn.core (s : Scn) : Scn := { s with shdr := none, shndxIndex := 0 }

section Entry

variable {e : Elf} {p : ScnHandle} {s : Scn}

theorem entry_setScn (e : Elf) (p : ScnHandle) (f : Scn → Scn) :
    Chain.entry (e.setScn p f).scns p = (Chain.entry e.scns p).map f := by
  rw [Chain.entry, Chain.entry, Elf.setScn, Elf.scns_setScns, List.getElem?_modify_eq]
  cases e.scns[p.1]? with
  | none => rfl
  | some b => exact List.getElem?_modify_eq ..

theorem scn_ok {e' : Elf} (h : e.scn p = .ok s e') : Chain.entry e.scns p = some s ∧ e' = e := by
  unfold Elf.scn at h
  split at h
  · next s' hs =>
    cases h
    exact ⟨hs, rfl⟩
  · cases h

theorem scn_of_entry (h : Chain.entry e.scns p = some s) : e.scn p = .ok s e := by
  rw [Elf.scn, h]

/-- Where the entries of the first block keep a value, so does every entry of the chain. -/
theorem entry_setFirstData {β : Type} {g : Scn → β} {data : List Scn} (hmap : data.map g = e.firstData.map g) :
    (Chain.entry (e.setFirstData data).scns p).map g = (Chain.entry e.scns p).map g := by
  rw [Chain.entry, Chain.entry, Elf.setFirstData, Elf.scns_setScns, List.getElem?_modify]
  cases hb : e.scns[p.1]? with
  | none => rfl
  | some b =>
    by_cases hp : 0 = p.1
    · have hfirst : e.firstData = b.data := by
        rw [Elf.firstData, List.head?_eq_getElem?, hp, hb]
        rfl
      simp only [Option.map_eq_map, Option.map_some, Option.bind_some, if_pos hp]
      rw [← List.getElem?_map, ← List.getElem?_map, hmap, hfirst]
    · simp only [Option.map_eq_map, Option.map_some, Option.bind_some, if_neg hp]

end Entry

/-! ## The descriptor -/

/-- The same descriptor with other sections. -/
def SameBut (e e' : Elf) : Prop := e' = e.setScns e'.scns

namespace SameBut

variable {env : Env} {ec : ElfClass} {e e' e'' : Elf} {p : ScnHandle}

theorem refl (e : Elf) : SameBut e e := rfl

theorem trans (h : SameBut e e') (h' : SameBut e' e'') : SameBut e e'' := by
  unfold SameBut at h h' ⊢
  rw [h', h]
  rfl

theorem setScns (e : Elf) (bs : List ScnList) : SameBut e (e.setScns bs) := rfl

theorem setScn (e : Elf) (p : ScnHandle) (f : Scn → Scn) : SameBut e (e.setScn p f) := rfl

theorem kind (h : SameBut e e') : e'.kind = e.kind := by rw [h]; rfl
theorem ehdr (h : SameBut e e') : e'.ehdr = e.ehdr := by rw [h]; rfl
theorem elfClass (h : SameBut e e') : e'.elfClass = e.elfClass := by rw [h]; rfl
theorem hdr (h : SameBut e e') : e'.hdr env ec = e.hdr env ec := by rw [h]; rfl

theorem symm (h : SameBut e e') : SameBut e' e := by
  unfold SameBut at h ⊢
  rw [h]
  rfl

end SameBut

section Header

variable {env : Env} {ec : ElfClass} {e e' : Elf}

theorem mapRead_setScns (e : Elf) (bs : List ScnList) (off len : Nat) :
    (e.setScns bs).mapRead off len = (e.mapRead off len).within (·.setScns bs) := by
  have hmap : (e.setScns bs).mapAddress = e.mapAddress := rfl
  unfold Elf.mapRead
  rw [hmap]
  cases e.mapAddress with
  | none => rfl
  | some image =>
    show (if len ≠ 0 ∧ (off < e.startOffset ∨ e.startOffset + e.maximumSize < off + len) then .stop .load
      else readAt image.bytes off len (e.setScns bs) : Call (List UInt8)) = _
    simp only
    split
    · rfl
    · unfold readAt
      split <;> rfl

theorem header_setScns (e : Elf) (bs : List ScnList) (f : EhdrField) :
    (e.setScns bs).header env ec f = (e.header env ec f).within (·.setScns bs) := by
  have hehdr : (e.setScns bs).ehdr = e.ehdr := rfl
  unfold Elf.header
  rw [hehdr]
  cases e.ehdr with
  | none => rfl
  | some h =>
    cases h with
    | copied h => rfl
    | mapped =>
      show ((e.setScns bs).mapRead (e.startOffset + (f.extent ec).1) (f.extent ec).2).bind _ = _
      simp only
      rw [mapRead_setScns]
      cases e.mapRead (e.startOffset + (f.extent ec).1) (f.extent ec).2 <;> rfl

/-- The header that is read is the header of the object. -/
theorem header_value {f : EhdrField} {h : Ehdr} (hh : e.header env ec f = .ok h e') :
    e' = e ∧ h = e.hdr env ec := by
  obtain rfl := Elf.header_ok hh
  refine ⟨rfl, ?_⟩
  unfold Elf.header at hh
  unfold Elf.hdr
  cases hhdr : e'.ehdr with
  | none =>
    rw [hhdr] at hh
    cases hh
  | some hdr =>
    rw [hhdr] at hh
    cases hdr with
    | copied h' =>
      cases hh
      rfl
    | mapped =>
      obtain ⟨bs, t, hread, hrest⟩ := bind_eq_ok.mp hh
      obtain rfl := Elf.mapRead_ok hread
      cases hrest
      rfl

theorem foreign_value {b : Bool} (h : foreign env ec e = .ok b e') : e' = e ∧ b = e.swapped env ec := by
  obtain ⟨hdr, t, hread, hrest⟩ := bind_eq_ok.mp h
  obtain ⟨rfl, rfl⟩ := header_value hread
  cases hrest
  exact ⟨rfl, rfl⟩

theorem convertData_setScns (e : Elf) (bs : List ScnList) (t : ElfType) (raw : List UInt8) :
    convertData env ec t raw (e.setScns bs) = (convertData env ec t raw e).within (·.setScns bs) := by
  unfold convertData foreign
  rw [header_setScns]
  cases e.header env ec .ident with
  | err c e' => rfl
  | stop f => rfl
  | ok h e' =>
    simp only [within_ok, bind_ok]
    split
    · rfl
    · split <;> rfl

theorem dataType_value {type : UInt32} {align : Nat} {t : ElfType} (h : dataType env ec type align e = .ok t e') :
    e' = e ∧ t = dataTypeOf ec (e.hdr env ec) type align := by
  unfold dataType at h
  unfold dataTypeOf
  split at h
  · next hhash =>
    rw [if_pos hhash]
    obtain ⟨hdr, t', hread, hrest⟩ := bind_eq_ok.mp h
    obtain ⟨rfl, rfl⟩ := header_value hread
    cases hrest
    exact ⟨rfl, rfl⟩
  · next hhash =>
    rw [if_neg hhash]
    cases h
    exact ⟨rfl, rfl⟩

theorem sectionEntsize_ok {h : Shdr} {n : Nat} (hn : sectionEntsize env ec h e = .ok n e') : e' = e := by
  unfold sectionEntsize at hn
  split at hn
  · cases hn
    rfl
  · split at hn
    · obtain ⟨hdr, t, hread, hrest⟩ := bind_eq_ok.mp hn
      obtain rfl := Elf.header_ok hread
      cases hrest
      rfl
    · cases hn
      rfl

end Header

/-! ## The header of a section -/

section Shdr

variable {env : Env} {ec : ElfClass} {e e' : Elf} {p : ScnHandle} {h : Shdr}

theorem shdrBytes_ok {n : Nat} {bs : List UInt8} (hb : shdrBytes env ec n e = .ok bs e') : e' = e := by
  obtain ⟨hdr, t, hread, hrest⟩ := bind_eq_ok.mp hb
  obtain rfl := Elf.header_ok hread
  extract_lets shoff size at hrest
  split at hrest
  · split at hrest
    · cases hrest
    · obtain ⟨swap, t', hf, hlast⟩ := bind_eq_ok.mp hrest
      obtain ⟨rfl, -⟩ := foreign_value hf
      split at hlast
      · cases hlast
      · exact Elf.mapRead_ok hlast
  · split at hrest
    · split at hrest
      · cases hrest
      · split at hrest
        · cases hrest
        · exact (Outcome.ok.inj hrest).2.symm
    · cases hrest

theorem getShdrnum_ok {n : Nat} (hn : getShdrnum e = .ok n e') : e' = e := by
  unfold getShdrnum at hn
  split at hn
  · cases hn
  · split at hn
    · cases hn
    · split at hn
      · exact (Outcome.ok.inj hn).2.symm
      · split at hn
        · cases hn
        · split at hn
          · cases hn
          · exact (Outcome.ok.inj hn).2.symm

/-- The pointers to the headers are set in the first block, and nothing else is. -/
theorem storeShdrs_frame {shndx : Bool} {shdrs : List Shdr} {s : Scn}
    (hst : storeShdrs shndx shdrs e = .ok () e') (hs : Chain.entry e.scns p = some s) :
    SameBut e e' ∧ ∃ s', Chain.entry e'.scns p = some s' ∧ s'.core = s.core := by
  unfold storeShdrs at hst
  split at hst
  · cases hst
  · obtain rfl := (Outcome.ok.inj hst).2
    refine ⟨rfl, ?_⟩
    have hmap := entry_setFirstData (p := p)
      (map_storeShdrs Scn.core (fun _ _ => rfl) (fun _ _ => rfl) shndx shdrs e.firstData)
    rw [hs] at hmap
    obtain ⟨s', hs', hcore⟩ := Option.map_eq_some_iff.mp hmap
    exact ⟨s', hs', hcore⟩

theorem loadShdr_frame {s : Scn} (hh : loadShdr env p ec e = .ok h e') (hs : Chain.entry e.scns p = some s) :
    SameBut e e' ∧ ∃ s', Chain.entry e'.scns p = some s' ∧ s'.core = s.core ∧ s'.shdr = some h := by
  unfold loadShdr at hh
  rw [scn_of_entry hs, bind_ok] at hh
  split at hh
  · next h' hshdr =>
    cases hh
    exact ⟨rfl, s, hs, rfl, hshdr⟩
  · obtain ⟨n, t, hnum, hrest⟩ := bind_eq_ok.mp hh
    obtain rfl := getShdrnum_ok hnum
    split at hrest
    · cases hrest
    · obtain ⟨bs, t₁, hbytes, hswap⟩ := bind_eq_ok.mp hrest
      obtain rfl := shdrBytes_ok hbytes
      obtain ⟨swap, t₂, hf, hset⟩ := bind_eq_ok.mp hswap
      obtain ⟨rfl, -⟩ := foreign_value hf
      obtain ⟨u, t₃, hstore, hlast⟩ := bind_eq_ok.mp hset
      obtain ⟨hsame, s₁, hs₁, hcore⟩ := storeShdrs_frame hstore hs
      rw [scn_of_entry hs₁, bind_ok] at hlast
      split at hlast
      · next h' hshdr =>
        cases hlast
        exact ⟨hsame, s₁, hs₁, hcore, hshdr⟩
      · cases hlast

/-- Asking for the header of a section leaves it with that header. -/
theorem getShdr_frame (hh : getShdr env p e = .ok h e') :
    SameBut e e' ∧ ∃ s s', Chain.entry e.scns p = some s ∧ Chain.entry e'.scns p = some s' ∧ s'.core = s.core ∧
      s'.shdr = some h := by
  obtain ⟨s, t, hscn, hrest⟩ := bind_eq_ok.mp hh
  obtain ⟨hs, rfl⟩ := scn_ok hscn
  split at hrest
  · next h' hshdr =>
    cases hrest
    exact ⟨rfl, s, s, hs, hs, rfl, hshdr⟩
  · split at hrest
    · obtain ⟨hsame, s', hs', hcore, hshdr⟩ := loadShdr_frame hrest hs
      exact ⟨hsame, s, s', hs, hs', hcore, hshdr⟩
    · cases hrest
    · cases hrest

end Shdr

/-! ## Raw data and blocks -/

section RawData

variable (env : Env) (e : Elf)

/-- The `size` bytes at `off` of an object, in its image or in its file. -/
def objectBytes (off size : Nat) : List UInt8 :=
  match e.mapAddress with
  | some image => window image.bytes (e.startOffset + off) size
  | none => window (env.file e.fildes).bytes (wrap (e.startOffset + off)) size

/-- The bytes that a section with this header has in the file. -/
def fileBytes (h : Shdr) : List UInt8 :=
  let ec := e.elfClass.getD .elfclass64
  objectBytes env e (ec.get h.shOffset) (ec.get h.shSize)

/-- The type of the data of a section with this header. -/
def sectionType (h : Shdr) : ElfType :=
  let ec := e.elfClass.getD .elfclass64
  if h.shFlags &&& shfCompressed ≠ 0 then .chdr else dataTypeOf ec (e.hdr env ec) h.shType (ec.get h.shAddralign)

/-- The section has bytes in the file. -/
def HasBytes (h : Shdr) : Prop := (e.elfClass.getD .elfclass64).get h.shSize ≠ 0 ∧ h.shType ≠ shtNobits

instance (h : Shdr) : Decidable (HasBytes e h) := inferInstanceAs (Decidable (_ ∧ _))

/-- The alignment of the data of a section with this header: not above its place in the file. -/
def dataAlign (h : Shdr) : Nat :=
  let ec := e.elfClass.getD .elfclass64
  let align := if h.shFlags &&& shfCompressed ≠ 0 ∧ HasBytes e h then chdrAlign ec else ec.get h.shAddralign
  let align := if align = 0 then 1 else align
  if h.shType ≠ shtNobits ∧ ec.get h.shOffset < align then ec.get h.shOffset else align

structure IsRaw (h : Shdr) (r : Data) : Prop where
  size : r.dSize = (e.elfClass.getD .elfclass64).get h.shSize
  type : r.dType = sectionType env e h
  buf : r.dBuf = if HasBytes e h then some (fileBytes env e h) else none
  length : HasBytes e h → (fileBytes env e h).length = r.dSize
  off : r.dOff = 0
  align : r.dAlign = dataAlign e h
  version : r.dVersion = ((e.hdr env (e.elfClass.getD .elfclass64)).eIdent.toList.getD eiVersion 0).toNat

/-- The part of `__libelf_set_rawdata_wrlock` behind the section header: the raw data. -/
def sectionRaw (h : Shdr) : Call Data :=
  let ec := e.elfClass.getD .elfclass64
  (rawBytes env ec h e).bind fun buf e =>
  let compressed := decide (h.shFlags &&& shfCompressed ≠ 0)
  let align := if compressed ∧ buf.isSome then chdrAlign ec else ec.get h.shAddralign
  (if compressed then .ok .chdr e else dataType env ec h.shType align e).bind fun type e =>
  let offset := ec.get h.shOffset
  let align := if align = 0 then 1 else align
  let align := if h.shType ≠ shtNobits ∧ offset < align then offset else align
  (e.header env ec .ident).bind fun hdr e =>
  .ok { dBuf := buf, dType := type, dVersion := (hdr.eIdent.toList.getD eiVersion 0).toNat,
        dSize := ec.get h.shSize, dOff := 0, dAlign := align } e

def BlockOf (r d : Data) : Prop :=
  match r.dBuf with
  | none => d = r
  | some bs => ∃ ds e', convertData env (e.elfClass.getD .elfclass64) r.dType bs e = .ok ds e' ∧
      d = { r with dBuf := some ds }

end RawData

section Frame

variable {env : Env} {ec : ElfClass} {e e' : Elf} {p : ScnHandle} {h : Shdr}

namespace SameBut

theorem fileBytes (hs : SameBut e e') (h : Shdr) : fileBytes env e' h = fileBytes env e h := by
  rw [hs]
  rfl

theorem isRaw (hs : SameBut e e') {r : Data} (hr : IsRaw env e' h r) : IsRaw env e h r := by
  rw [hs] at hr
  exact ⟨hr.size, hr.type, hr.buf, hr.length, hr.off, hr.align, hr.version⟩

theorem blockOf (hs : SameBut e e') {r d : Data} (hd : BlockOf env e' r d) : BlockOf env e r d := by
  unfold BlockOf at hd ⊢
  cases hbuf : r.dBuf with
  | none =>
    rw [hbuf] at hd
    exact hd
  | some bs =>
    rw [hbuf] at hd
    obtain ⟨ds, t, hds, rfl⟩ := hd
    rw [hs, convertData_setScns] at hds
    obtain ⟨t', ht', -⟩ := within_eq_ok.mp hds
    exact ⟨ds, t', ht', rfl⟩

end SameBut

theorem rawBytes_value {buf : Option (List UInt8)} (hec : e.elfClass.getD .elfclass64 = ec)
    (hb : rawBytes env ec h e = .ok buf e') :
    e' = e ∧ buf = (if HasBytes e h then some (fileBytes env e h) else none) ∧
      (HasBytes e h → (fileBytes env e h).length = ec.get h.shSize) := by
  unfold rawBytes at hb
  extract_lets offset size at hb
  split at hb
  · next hempty =>
    obtain ⟨rfl, rfl⟩ := Outcome.ok.inj hb
    have hnone : ¬ HasBytes e h := by
      rintro ⟨hsize, htype⟩
      rw [hec] at hsize
      exact hempty.elim hsize htype
    exact ⟨rfl, (if_neg hnone).symm, fun hh => absurd hh hnone⟩
  · next hsome =>
    have hhas : HasBytes e h := by
      constructor
      · rw [hec]
        exact fun hz => hsome (.inl hz)
      · exact fun hz => hsome (.inr hz)
    obtain ⟨n, t, hn, hrest⟩ := bind_eq_ok.mp hb
    obtain rfl := sectionEntsize_ok hn
    have hfile : fileBytes env t h = objectBytes env t offset size := by
      rw [fileBytes, hec]
    rw [if_pos hhas, hfile]
    split at hrest
    · cases hrest
    · split at hrest
      · next hmapped =>
        split at hrest
        · cases hrest
        · obtain ⟨bs, t', hread, hlast⟩ := bind_eq_ok.mp hrest
          obtain rfl := Elf.mapRead_ok hread
          cases hlast
          obtain ⟨image, himage⟩ := Option.isSome_iff_exists.mp hmapped
          unfold Elf.mapRead at hread
          rw [himage] at hread
          simp only at hread
          split at hread
          · cases hread
          · obtain ⟨hle, hbs, -⟩ := readAt_eq_ok.mp hread
            rw [objectBytes, himage]
            refine ⟨rfl, by rw [hbs], fun _ => ?_⟩
            exact length_window (hle.resolve_left fun hz => hsome (.inl hz))
      · next hmapped =>
        have hnone : t.mapAddress = none := by simpa using hmapped
        split at hrest
        · split at hrest
          · cases hrest
          · split at hrest
            · cases hrest
            · next bs hread =>
              split at hrest
              · cases hrest
              · next hlen =>
                cases hrest
                unfold preadRetry at hread
                split at hread
                · cases hread
                · obtain rfl := Option.some.inj hread
                  rw [objectBytes, hnone]
                  exact ⟨rfl, rfl, fun _ => not_not.mp hlen⟩
        · cases hrest

theorem sectionRaw_ok {r : Data} (hraw : sectionRaw env e h = .ok r e') : e' = e ∧ IsRaw env e h r := by
  unfold sectionRaw at hraw
  extract_lets ec compressed offset at hraw
  obtain ⟨buf, e₂, hbuf, htype⟩ := bind_eq_ok.mp hraw
  obtain ⟨rfl, hbuf, hlen⟩ := rawBytes_value rfl hbuf
  extract_lets align align₁ align₂ at htype
  obtain ⟨type, e₃, hty, hhdr⟩ := bind_eq_ok.mp htype
  have hty : e₃ = e₂ ∧ type = sectionType env e₂ h := by
    unfold sectionType
    by_cases hc : h.shFlags &&& shfCompressed ≠ 0
    · rw [if_pos (decide_eq_true hc)] at hty
      rw [if_pos hc]
      cases hty
      exact ⟨rfl, rfl⟩
    · rw [if_neg (by simpa [compressed] using hc), show align = ec.get h.shAddralign from
        if_neg fun hb => hc (of_decide_eq_true hb.1)] at hty
      rw [if_neg hc]
      exact dataType_value hty
  obtain ⟨rfl, rfl⟩ := hty
  obtain ⟨hdr, e₄, hident, hlast⟩ := bind_eq_ok.mp hhdr
  obtain ⟨rfl, rfl⟩ := header_value hident
  obtain ⟨rfl, rfl⟩ := Outcome.ok.inj hlast
  refine ⟨rfl, rfl, rfl, hbuf, hlen, rfl, ?_, rfl⟩
  have halign : align = if h.shFlags &&& shfCompressed ≠ 0 ∧ HasBytes e₄ h then chdrAlign ec
      else ec.get h.shAddralign := by
    show (if compressed = true ∧ buf.isSome = true then chdrAlign ec else ec.get h.shAddralign) = _
    have hsome : buf.isSome = decide (HasBytes e₄ h) := by
      rw [hbuf]
      by_cases hhas : HasBytes e₄ h
      · rw [if_pos hhas, decide_eq_true hhas]
        rfl
      · rw [if_neg hhas, decide_eq_false hhas]
        rfl
    simp only [hsome, decide_eq_true_eq, compressed]
  show align₂ = dataAlign e₄ h
  unfold dataAlign
  rw [show align₂ = if h.shType ≠ shtNobits ∧ offset < align₁ then offset else align₁ from rfl,
    show align₁ = if align = 0 then 1 else align from rfl, halign]

theorem setRawdata_eq : setRawdata env p e = (getShdr env p e).bind fun h e => (sectionRaw env e h).bind fun r e =>
    .ok () (e.setScn p fun s => { s with rawdata := some r, dataRead := true, filedata := true }) := by
  unfold setRawdata sectionRaw
  simp only [bind_assoc]
  rfl

/-- What reading the raw data of a section does. -/
theorem setRawdata_frame (hset : setRawdata env p e = .ok () e') :
    ∃ h e₁ s r s', getShdr env p e = .ok h e₁ ∧ Chain.entry e.scns p = some s ∧ IsRaw env e h r ∧ SameBut e e' ∧
      Chain.entry e'.scns p = some s' ∧
      s'.core = { s.core with rawdata := some r, dataRead := true, filedata := true } := by
  rw [setRawdata_eq] at hset
  obtain ⟨h, e₁, hshdr, hrest⟩ := bind_eq_ok.mp hset
  obtain ⟨hsame, s, s₁, hs, hs₁, hcore, -⟩ := getShdr_frame hshdr
  obtain ⟨r, e₂, hsec, hlast⟩ := bind_eq_ok.mp hrest
  obtain ⟨rfl, hraw⟩ := sectionRaw_ok hsec
  obtain rfl := (Outcome.ok.inj hlast).2
  refine ⟨h, e₂, s, r, { s₁ with rawdata := some r, dataRead := true, filedata := true }, hshdr, hs,
    hsame.isRaw hraw, hsame.trans (.setScn _ _ _), ?_, ?_⟩
  · rw [entry_setScn, hs₁]
    rfl
  · rw [← hcore]
    rfl

theorem convertData_ok {t : ElfType} {raw ds : List UInt8} (hc : convertData env ec t raw e = .ok ds e') :
    e' = e ∧ ds.length = raw.length := by
  obtain ⟨swap, t', hf, hrest⟩ := bind_eq_ok.mp hc
  obtain ⟨rfl, -⟩ := foreign_value hf
  split at hrest
  · cases hrest
    exact ⟨rfl, rfl⟩
  · split at hrest
    · cases hrest
      refine ⟨rfl, length_window ?_⟩
      simp
    · cases hrest
    · cases hrest

/-- What making the list of blocks does. -/
theorem setDataList_frame {s : Scn} (hset : setDataList env p e = .ok () e') (hs : Chain.entry e.scns p = some s) :
    SameBut e e' ∧ ∃ d s', Chain.entry e'.scns p = some s' ∧ s'.core = { s.core with dataList := [d] } ∧
      ((s.rawdata.getD Data.zero).dSize = 0 ∧ d = s.rawdata.getD Data.zero ∨
        BlockOf env e (s.rawdata.getD Data.zero) d) := by
  obtain ⟨s₁, t, hscn, hrest⟩ := bind_eq_ok.mp hset
  obtain ⟨hs₁, rfl⟩ := scn_ok hscn
  obtain rfl := Option.some.inj (hs.symm.trans hs₁)
  have hentry : ∀ d, Chain.entry (t.setScn p fun s => { s with dataList := [d] }).scns p =
      some { s with dataList := [d] } := by
    intro d
    rw [entry_setScn, hs]
    rfl
  extract_lets raw at hrest
  split at hrest
  · next hnone =>
    cases hrest
    refine ⟨rfl, raw, _, hentry raw, rfl, .inr ?_⟩
    unfold BlockOf
    rw [show s.rawdata.getD Data.zero = raw from rfl, hnone]
  · next bs hbs =>
    split at hrest
    · next hz =>
      cases hrest
      exact ⟨rfl, raw, _, hentry raw, rfl, .inl ⟨hz, rfl⟩⟩
    · obtain ⟨ds, t', hconv, hlast⟩ := bind_eq_ok.mp hrest
      obtain ⟨rfl, -⟩ := convertData_ok hconv
      cases hlast
      refine ⟨rfl, _, _, hentry { raw with dBuf := some ds }, rfl, .inr ?_⟩
      unfold BlockOf
      rw [show s.rawdata.getD Data.zero = raw from rfl, hbs]
      exact ⟨ds, t', hconv, rfl⟩

/-- The ways of a call of `elf_getdata` for the first block. -/
theorem elfGetdata_none_ok {r : Option Data} (hget : elfGetdata env p none e = .ok r e') :
    ∃ s e₁ s₁ s', Chain.entry e.scns p = some s ∧
      (s.dataRead = true ∧ e₁ = e ∨ s.dataRead = false ∧ setRawdata env p e = .ok () e₁) ∧
      Chain.entry e₁.scns p = some s₁ ∧
      (s₁.dataList ≠ [] ∧ e' = e₁ ∨ s₁.dataList = [] ∧ setDataList env p e₁ = .ok () e') ∧
      Chain.entry e'.scns p = some s' ∧ r = s'.dataList.head? := by
  unfold elfGetdata at hget
  split at hget
  · cases hget
  · obtain ⟨s, t, hscn, hread⟩ := bind_eq_ok.mp hget
    obtain ⟨hs, rfl⟩ := scn_ok hscn
    obtain ⟨u, e₁, hraw, hrest⟩ := bind_eq_ok.mp hread
    obtain ⟨s₁, t₁, hscn₁, hlist⟩ := bind_eq_ok.mp hrest
    obtain ⟨hs₁, rfl⟩ := scn_ok hscn₁
    obtain ⟨u', e₂, hblocks, hlast⟩ := bind_eq_ok.mp hlist
    obtain ⟨s', t₂, hscn', hret⟩ := bind_eq_ok.mp hlast
    obtain ⟨hs', rfl⟩ := scn_ok hscn'
    obtain ⟨rfl, rfl⟩ := Outcome.ok.inj hret
    refine ⟨s, t₁, s₁, s', hs, ?_, hs₁, ?_, hs', rfl⟩
    · split at hraw
      · next hd =>
        cases hraw
        exact .inl ⟨hd, rfl⟩
      · next hd => exact .inr ⟨by simpa using hd, hraw⟩
    · split at hblocks
      · next hd => exact .inr ⟨List.isEmpty_iff.mp hd, hblocks⟩
      · next hd =>
        cases hblocks
        exact .inl ⟨fun hnil => hd (List.isEmpty_iff.mpr hnil), rfl⟩

/-- A block that is there is given at once. -/
theorem elfGetdata_head {s : Scn} (hk : e.kind = .elf) (hs : Chain.entry e.scns p = some s) (hread : s.dataRead = true)
    (hne : s.dataList ≠ []) : elfGetdata env p none e = .ok s.dataList.head? e := by
  have hempty : ¬ s.dataList.isEmpty = true := fun h => hne (List.isEmpty_iff.mp h)
  rw [elfGetdata, if_neg (not_not.mpr hk), scn_of_entry hs, bind_ok]
  simp only
  rw [if_pos hread, bind_ok, scn_of_entry hs, bind_ok, if_neg hempty, bind_ok, scn_of_entry hs, bind_ok]

/-- A block behind another. -/
theorem elfGetdata_next {s : Scn} {k : Nat} (hk : e.kind = .elf) (hs : Chain.entry e.scns p = some s)
    (hlt : k < s.dataList.length) : elfGetdata env p (some k) e = .ok s.dataList[k + 1]? e := by
  rw [elfGetdata, if_neg (not_not.mpr hk), scn_of_entry hs, bind_ok]
  exact if_neg (Nat.not_le.mpr hlt)

theorem elfGetdata_some_ok {k : Nat} {r : Option Data} (hget : elfGetdata env p (some k) e = .ok r e') :
    e' = e ∧ ∃ s, Chain.entry e.scns p = some s ∧ k < s.dataList.length := by
  unfold elfGetdata at hget
  split at hget
  · cases hget
  · obtain ⟨s, t, hscn, hrest⟩ := bind_eq_ok.mp hget
    obtain ⟨hs, rfl⟩ := scn_ok hscn
    simp only at hrest
    split at hrest
    · cases hrest
    · next hlt => exact ⟨(Outcome.ok.inj hrest).2.symm, s, hs, Nat.lt_of_not_le hlt⟩

/-- The ways of a call of `elf_rawdata`. -/
theorem elfRawdata_ok {data : Option Nat} {r : Data} (hget : elfRawdata env p data e = .ok r e') :
    ∃ s s', Chain.entry e.scns p = some s ∧ ¬ (s.dataRead = true ∧ s.filedata = false) ∧
      (s.dataRead = true ∧ e' = e ∨ s.dataRead = false ∧ setRawdata env p e = .ok () e') ∧
      Chain.entry e'.scns p = some s' ∧ r = s'.rawdata.getD Data.zero := by
  unfold elfRawdata at hget
  split at hget
  · cases hget
  · obtain ⟨s, t, hscn, hrest⟩ := bind_eq_ok.mp hget
    obtain ⟨hs, rfl⟩ := scn_ok hscn
    split at hrest
    · cases hrest
    · next hfile =>
      obtain ⟨u, e₁, hraw, hlast⟩ := bind_eq_ok.mp hrest
      obtain ⟨s', t₁, hscn', hret⟩ := bind_eq_ok.mp hlast
      obtain ⟨hs', rfl⟩ := scn_ok hscn'
      obtain ⟨rfl, rfl⟩ := Outcome.ok.inj hret
      refine ⟨s, s', hs, fun h => hfile (.inr h), ?_, hs', rfl⟩
      split at hraw
      · next hd =>
        cases hraw
        exact .inl ⟨hd, rfl⟩
      · next hd => exact .inr ⟨by simpa using hd, hraw⟩

/-- The raw data that are there are given at once. -/
theorem elfRawdata_head {s : Scn} (hk : e.kind = .elf) (hs : Chain.entry e.scns p = some s) (hread : s.dataRead = true)
    (hfile : s.filedata = true) : elfRawdata env p none e = .ok (s.rawdata.getD Data.zero) e := by
  have hmatch : ¬ ((none : Option Nat).isSome = true ∨ s.dataRead = true ∧ s.filedata = false) := by simp [hfile]
  rw [elfRawdata, if_neg (not_not.mpr hk), scn_of_entry hs, bind_ok, if_neg hmatch, if_pos hread, bind_ok,
    scn_of_entry hs, bind_ok]

end Frame

end LibElf.Elfutils
