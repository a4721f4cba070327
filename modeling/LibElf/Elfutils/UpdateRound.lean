import LibElf.Elfutils.OpenImage
import LibElf.Elfutils.UpdateNull

/-!
# One section in the layout of an update

What a round of `updatenull` does to its section, without `ELF_F_LAYOUT`. It needs the section header and the raw data or
the one block that was made of them, and leaves every other section alone.

1. `Elf.put`, a descriptor with one section set.
2. `Alike`, two descriptors over one object that may differ in their sections; what is read through one can be read
   through the other.
3. `Loaded`, a section whose raw data were read, and `placeLoaded_iff`: where the rest of its round succeeds.
-/

namespace LibElf.Elfutils

open Outcome
open Toolchain (ElfClass Ehdr Shdr)

/-! ## One section set -/

def Elf.put (e : Elf) (p : ScnHandle) (s : Scn) : Elf := e.setScn p fun _ => s

section Put

variable {e : Elf} {p q : ScnHandle} {s s' : Scn} {f : Scn → Scn}

theorem entry_put (h : Chain.entry e.scns p = some s) : Chain.entry (e.put p s').scns p = some s' := by
  rw [Elf.put, entry_setScn, h]
  rfl

theorem entry_put_ne (hne : q ≠ p) : Chain.entry (e.put p s).scns q = Chain.entry e.scns q := by
  rw [Chain.entry, Chain.entry, Elf.put, Elf.setScn, Elf.scns_setScns, List.getElem?_modify]
  cases e.scns[q.1]? with
  | none => rfl
  | some b =>
    by_cases hq : p.1 = q.1
    · have hq2 : ¬ p.2 = q.2 := fun h => hne (Prod.ext hq.symm h.symm)
      simp only [Option.map_eq_map, Option.map_some, Option.bind_some, if_pos hq]
      rw [List.getElem?_modify]
      simp only [if_neg hq2, Option.map_eq_map, Option.map_id']
    · simp only [Option.map_eq_map, Option.map_some, Option.bind_some, if_neg hq]

/-- Changing an entry depends on what becomes of that entry only. -/
theorem modify_congr_getElem? {α : Type} {l : List α} {i : Nat} {x : α} {f g : α → α} (h : l[i]? = some x)
    (hfg : f x = g x) : l.modify i f = l.modify i g := by
  apply List.ext_getElem?
  intro j
  rw [List.getElem?_modify, List.getElem?_modify]
  by_cases hj : i = j
  · subst hj
    simp [h, hfg]
  · simp [hj]

/-- A change of a section whose value is known. -/
theorem setScn_congr {g : Scn → Scn} (h : Chain.entry e.scns p = some s) (hfg : f s = g s) :
    e.setScn p f = e.setScn p g := by
  obtain ⟨b, hb, hdata⟩ := Option.bind_eq_some_iff.mp h
  have hinner : (⟨b.cnt, b.data.modify p.2 f⟩ : ScnList) = ⟨b.cnt, b.data.modify p.2 g⟩ := by
    rw [modify_congr_getElem? hdata hfg]
  rw [Elf.setScn, Elf.setScn, @modify_congr_getElem? _ e.scns p.1 b (fun b => ⟨b.cnt, b.data.modify p.2 f⟩)
    (fun b => ⟨b.cnt, b.data.modify p.2 g⟩) hb hinner]

theorem setScn_eq_put (h : Chain.entry e.scns p = some s) : e.setScn p f = e.put p (f s) := setScn_congr h rfl

@[simp] theorem put_put : (e.put p s).put p s' = e.put p s' := by
  have hmod : ∀ b : ScnList, (⟨b.cnt, (b.data.modify p.2 fun _ => s).modify p.2 fun _ => s'⟩ : ScnList) =
      ⟨b.cnt, b.data.modify p.2 fun _ => s'⟩ := by
    intro b
    rw [List.modify_modify_eq]
    rfl
  rw [Elf.put, Elf.put, Elf.put, Elf.setScn, Elf.setScn, Elf.setScn, Elf.scns_setScns, List.modify_modify_eq]
  show (e.setScns _).setScns _ = _
  have hfun : ((fun b : ScnList => (⟨b.cnt, b.data.modify p.2 fun _ => s'⟩ : ScnList)) ∘
      fun b : ScnList => (⟨b.cnt, b.data.modify p.2 fun _ => s⟩ : ScnList)) =
      fun b => ⟨b.cnt, b.data.modify p.2 fun _ => s'⟩ := funext hmod
  rw [hfun]
  rfl

theorem put_self (h : Chain.entry e.scns p = some s) : e.put p s = e := by
  have hid : e.put p s = e.setScn p id := setScn_congr h rfl
  have hb : ∀ b : ScnList, (⟨b.cnt, b.data.modify p.2 id⟩ : ScnList) = b := by
    intro b
    rw [List.modify_id]
  rw [hid, Elf.setScn, funext hb]
  exact congrArg e.setScns (List.modify_id _ _)

theorem SameBut.put (e : Elf) (p : ScnHandle) (s : Scn) : SameBut e (e.put p s) := rfl

def Elf.shdrAt (e : Elf) (p : ScnHandle) : Option Shdr := (Chain.entry e.scns p).bind Scn.shdr

theorem shdrAt_of_entry (hs : Chain.entry e.scns p = some s) : e.shdrAt p = s.shdr := by
  rw [Elf.shdrAt, hs]
  rfl

theorem shdrAt_put_ne (hne : q ≠ p) : (e.put p s).shdrAt q = e.shdrAt q := by
  rw [Elf.shdrAt, Elf.shdrAt, entry_put_ne hne]

end Put

/-! ## One object -/

/-- Two descriptors over one object, with the same identification and machine. -/
structure Alike (env : Env) (a b : Elf) : Prop where
  kind : b.kind = a.kind
  elfClass : b.elfClass = a.elfClass
  mapAddress : b.mapAddress = a.mapAddress
  fildes : b.fildes = a.fildes
  startOffset : b.startOffset = a.startOffset
  maximumSize : b.maximumSize = a.maximumSize
  ident : (b.hdr env (a.elfClass.getD .elfclass64)).eIdent = (a.hdr env (a.elfClass.getD .elfclass64)).eIdent
  machine : (b.hdr env (a.elfClass.getD .elfclass64)).eMachine = (a.hdr env (a.elfClass.getD .elfclass64)).eMachine

/-- The ELF header is not read through the map. -/
def HasHdr (e : Elf) : Prop := ∃ h, e.ehdr = some (.copied h)

section Alike

variable {env : Env} {ec : ElfClass} {a b c a' : Elf} {h : Shdr} {r d : Data}

theorem SameBut.alike (h : SameBut a b) : Alike env a b := by
  rw [h]
  exact ⟨rfl, rfl, rfl, rfl, rfl, rfl, rfl, rfl⟩

namespace Alike

theorem symm (h : Alike env a b) : Alike env b a :=
  ⟨h.kind.symm, h.elfClass.symm, h.mapAddress.symm, h.fildes.symm, h.startOffset.symm, h.maximumSize.symm,
    by rw [h.elfClass, h.ident], by rw [h.elfClass, h.machine]⟩

theorem trans (h : Alike env a b) (h' : Alike env b c) : Alike env a c :=
  ⟨h'.kind.trans h.kind, h'.elfClass.trans h.elfClass, h'.mapAddress.trans h.mapAddress, h'.fildes.trans h.fildes,
    h'.startOffset.trans h.startOffset, h'.maximumSize.trans h.maximumSize,
    by rw [← h.ident, ← h.elfClass, h'.ident], by rw [← h.machine, ← h.elfClass, h'.machine]⟩

theorem shEntsizeHash (hab : Alike env a b) (hec : a.elfClass.getD .elfclass64 = ec) :
    shEntsizeHash (b.hdr env ec) = shEntsizeHash (a.hdr env ec) := by
  unfold Elfutils.shEntsizeHash
  rw [← hec, hab.ident, hab.machine]

theorem swapped (hab : Alike env a b) (hec : a.elfClass.getD .elfclass64 = ec) : b.swapped env ec = a.swapped env ec := by
  unfold Elf.swapped
  rw [← hec, hab.ident]

theorem sectionType (hab : Alike env a b) (h : Shdr) : sectionType env b h = sectionType env a h := by
  unfold Elfutils.sectionType dataTypeOf
  simp only [hab.elfClass, hab.shEntsizeHash rfl]

theorem hasBytes (hab : Alike env a b) (h : Shdr) : HasBytes b h ↔ HasBytes a h := by
  unfold HasBytes
  rw [hab.elfClass]

theorem dataAlign (hab : Alike env a b) (h : Shdr) : dataAlign b h = dataAlign a h := by
  unfold Elfutils.dataAlign
  simp only [hab.elfClass, hab.hasBytes]

theorem fileBytes (hab : Alike env a b) (h : Shdr) : fileBytes env b h = fileBytes env a h := by
  unfold Elfutils.fileBytes objectBytes
  rw [hab.elfClass, hab.mapAddress, hab.startOffset, hab.fildes]

/-- The raw data of a section do not depend on the descriptor. -/
theorem isRaw (hab : Alike env a b) (hr : IsRaw env a h r) : IsRaw env b h r := by
  have hhas := hab.hasBytes h
  refine ⟨?_, ?_, ?_, ?_, hr.off, ?_, ?_⟩
  · rw [hab.elfClass]
    exact hr.size
  · rw [hab.sectionType]
    exact hr.type
  · rw [hr.buf, hab.fileBytes]
    by_cases hb : HasBytes a h
    · rw [if_pos hb, if_pos (hhas.mpr hb)]
    · rw [if_neg hb, if_neg fun h => hb (hhas.mp h)]
  · rw [hab.fileBytes]
    exact fun hb => hr.length (hhas.mp hb)
  · rw [hab.dataAlign]
    exact hr.align
  · rw [hab.elfClass, hab.ident]
    exact hr.version

end Alike

theorem IsRaw.nonempty (hr : IsRaw env a h r) (hbuf : r.dBuf ≠ none) : r.dSize ≠ 0 := by
  have hhas : HasBytes a h := by
    by_contra hno
    exact hbuf (by rw [hr.buf, if_neg hno])
  rw [hr.size]
  exact hhas.1

theorem IsRaw.unique {r' : Data} (hr : IsRaw env a h r) (hr' : IsRaw env a h r') : r' = r := by
  obtain ⟨buf, type, version, size, off, align⟩ := r
  obtain ⟨buf', type', version', size', off', align'⟩ := r'
  have h₁ : buf' = buf := hr'.buf.trans hr.buf.symm
  have h₂ : type' = type := hr'.type.trans hr.type.symm
  have h₃ : version' = version := hr'.version.trans hr.version.symm
  have h₄ : size' = size := hr'.size.trans hr.size.symm
  have h₅ : off' = off := hr'.off.trans hr.off.symm
  have h₆ : align' = align := hr'.align.trans hr.align.symm
  rw [h₁, h₂, h₃, h₄, h₅, h₆]

theorem HasHdr.header (hb : HasHdr b) (f : EhdrField) : b.header env ec f = .ok (b.hdr env ec) b := by
  obtain ⟨h, hh⟩ := hb
  rw [Elf.header, hh, Elf.hdr, hh]

theorem HasHdr.foreign (hb : HasHdr b) : foreign env ec b = .ok (b.swapped env ec) b := by
  rw [Elfutils.foreign, hb.header, bind_ok]
  rfl

theorem mapRead_alike {off len : Nat} {bs : List UInt8} (hab : Alike env a b) (hread : a.mapRead off len = .ok bs a') :
    b.mapRead off len = .ok bs b := by
  unfold Elf.mapRead at hread ⊢
  rw [hab.mapAddress, hab.startOffset, hab.maximumSize]
  split at hread
  · cases hread
  · next image =>
    split at hread
    · cases hread
    · next hin =>
      rw [if_neg hin]
      obtain ⟨hle, hbs, -⟩ := readAt_eq_ok.mp hread
      exact readAt_eq_ok.mpr ⟨hle, hbs, rfl⟩

theorem sectionEntsize_alike {n : Nat} (hab : Alike env a b) (hec : a.elfClass.getD .elfclass64 = ec) (hb : HasHdr b)
    (hn : sectionEntsize env ec h a = .ok n a') : sectionEntsize env ec h b = .ok n b := by
  unfold sectionEntsize at hn ⊢
  split at hn
  · next hc =>
    rw [if_pos hc]
    rw [(Outcome.ok.inj hn).1]
  · next hc =>
    rw [if_neg hc]
    split at hn
    · next hh =>
      rw [if_pos hh, gelfEhdr, hb.header, bind_ok, hab.shEntsizeHash hec]
      obtain ⟨hdr, t, hread, hlast⟩ := bind_eq_ok.mp hn
      obtain ⟨-, rfl⟩ := header_value hread
      rw [(Outcome.ok.inj hlast).1]
    · next hh =>
      rw [if_neg hh]
      rw [(Outcome.ok.inj hn).1]

theorem dataType_alike {type : UInt32} {align : Nat} {t : ElfType} (hab : Alike env a b) (hec : a.elfClass.getD .elfclass64 = ec) (hb : HasHdr b)
    (ht : dataType env ec type align a = .ok t a') : dataType env ec type align b = .ok t b := by
  unfold dataType at ht ⊢
  split at ht
  · next hh =>
    rw [if_pos hh, gelfEhdr, hb.header, bind_ok, hab.shEntsizeHash hec]
    obtain ⟨hdr, t, hread, hlast⟩ := bind_eq_ok.mp ht
    obtain ⟨-, rfl⟩ := header_value hread
    rw [(Outcome.ok.inj hlast).1]
  · next hh =>
    rw [if_neg hh]
    rw [(Outcome.ok.inj ht).1]

theorem rawBytes_alike {buf : Option (List UInt8)} (hab : Alike env a b) (hec : a.elfClass.getD .elfclass64 = ec)
    (hb : HasHdr b)
    (hraw : rawBytes env ec h a = .ok buf a') : rawBytes env ec h b = .ok buf b := by
  unfold rawBytes at hraw ⊢
  extract_lets at hraw ⊢
  split at hraw
  · next hz =>
    rw [if_pos hz, (Outcome.ok.inj hraw).1]
  · next hz =>
    obtain ⟨n, t, hn, hrest⟩ := bind_eq_ok.mp hraw
    obtain rfl := sectionEntsize_ok hn
    rw [if_neg hz, sectionEntsize_alike hab hec hb hn, bind_ok, hab.mapAddress, hab.fildes, hab.maximumSize, hab.startOffset]
    split at hrest
    · cases hrest
    · next hmod =>
      rw [if_neg hmod]
      split at hrest
      · next hm =>
        rw [if_pos hm]
        split at hrest
        · cases hrest
        · next hin =>
          rw [if_neg hin]
          obtain ⟨bs, t', hread, hlast⟩ := bind_eq_ok.mp hrest
          rw [mapRead_alike hab hread, bind_ok, (Outcome.ok.inj hlast).1]
      · next hm =>
        rw [if_neg hm]
        split at hrest
        · next hf =>
          rw [if_pos hf]
          split at hrest
          · cases hrest
          · next hin =>
            rw [if_neg hin]
            split at hrest
            · cases hrest
            · next bs _ =>
              split at hrest
              · cases hrest
              · next hlen =>
                rw [if_neg hlen, (Outcome.ok.inj hrest).1]
        · cases hrest

/-- Raw data that can be read through one descriptor can be read through the other. -/
theorem sectionRaw_alike (hab : Alike env a b) (hb : HasHdr b) (hraw : sectionRaw env a h = .ok r a') :
    sectionRaw env b h = .ok r b := by
  have hr := (sectionRaw_ok hraw).2
  have hexists : ∃ r', sectionRaw env b h = .ok r' b := by
    unfold sectionRaw at hraw ⊢
    obtain ⟨ec, hec⟩ : ∃ ec, a.elfClass.getD .elfclass64 = ec := ⟨_, rfl⟩
    simp only [hab.elfClass, hec] at hraw ⊢
    obtain ⟨buf, a₁, hbuf, hrest⟩ := bind_eq_ok.mp hraw
    rw [rawBytes_alike hab hec hb hbuf, bind_ok]
    obtain rfl := (rawBytes_value hec hbuf).1
    obtain ⟨type, a₂, htype, -⟩ := bind_eq_ok.mp hrest
    split at htype
    · next hc =>
      simp only [if_pos hc, bind_ok, hb.header]
      exact ⟨_, rfl⟩
    · next hc =>
      simp only [if_neg hc, dataType_alike hab hec hb htype, bind_ok, hb.header]
      exact ⟨_, rfl⟩
  obtain ⟨r', hr'⟩ := hexists
  rw [hr', (hab.isRaw hr).unique (sectionRaw_ok hr').2]

theorem convertData_alike {t : ElfType} {raw ds : List UInt8} (hab : Alike env a b)
    (hec : a.elfClass.getD .elfclass64 = ec) (hb : HasHdr b) (hconv : convertData env ec t raw a = .ok ds a') : convertData env ec t raw b = .ok ds b := by
  unfold convertData at hconv ⊢
  rw [hb.foreign, bind_ok, hab.swapped hec]
  obtain ⟨swap, t', hf, hrest⟩ := bind_eq_ok.mp hconv
  obtain ⟨rfl, rfl⟩ := foreign_value hf
  split at hrest
  · next hs =>
    rw [if_pos hs, (Outcome.ok.inj hrest).1]
  · next hs =>
    rw [if_neg hs]
    split at hrest
    · rw [(Outcome.ok.inj hrest).1]
    · cases hrest
    · cases hrest

theorem blockOf_alike (hab : Alike env a b) (hb : HasHdr b) (hd : BlockOf env a r d) : BlockOf env b r d := by
  unfold BlockOf at hd ⊢
  cases hbuf : r.dBuf with
  | none =>
    rw [hbuf] at hd
    exact hd
  | some bs =>
    rw [hbuf] at hd
    obtain ⟨ds, t, hds, rfl⟩ := hd
    rw [hab.elfClass]
    exact ⟨ds, b, convertData_alike hab rfl hb hds, rfl⟩

theorem BlockOf.unique {d' : Data} (hd : BlockOf env a r d) (hd' : BlockOf env a r d') : d' = d := by
  unfold BlockOf at hd hd'
  cases hbuf : r.dBuf with
  | none =>
    rw [hbuf] at hd hd'
    exact (hd' : d' = r).trans (hd : d = r).symm
  | some bs =>
    rw [hbuf] at hd hd'
    obtain ⟨ds, t, hds, rfl⟩ := hd
    obtain ⟨ds', t', hds', rfl⟩ := hd'
    rw [(Outcome.ok.inj (hds.symm.trans hds')).1]

/-- A block differs from the raw data in its bytes only. -/
theorem BlockOf.fields (hd : BlockOf env a r d) :
    d.dVersion = r.dVersion ∧ d.dSize = r.dSize ∧ d.dOff = r.dOff ∧ d.dAlign = r.dAlign := by
  unfold BlockOf at hd
  cases hbuf : r.dBuf with
  | none =>
    rw [hbuf] at hd
    obtain rfl : d = r := hd
    exact ⟨rfl, rfl, rfl, rfl⟩
  | some bs =>
    rw [hbuf] at hd
    obtain ⟨ds, t, -, rfl⟩ := hd
    exact ⟨rfl, rfl, rfl, rfl⟩

end Alike

/-! ## A section that is read -/

section Loaded

variable {env : Env} {ec : ElfClass} {fl : UpdateFlags} {e e' : Elf} {p : ScnHandle} {s : Scn} {h : Shdr} {r d : Data}

/-- The raw data `r` of a section with header `h` were read, and there is at most the one block that is made of them. -/
structure Loaded (env : Env) (e : Elf) (p : ScnHandle) (s : Scn) (h : Shdr) (r : Data) : Prop where
  entry : Chain.entry e.scns p = some s
  shdr : s.shdr = some h
  read : s.dataRead = true
  rawdata : s.rawdata = some r
  nonempty : r.dBuf ≠ none → r.dSize ≠ 0
  off : r.dOff = 0
  list : s.dataList = [] ∨ ∃ d, s.dataList = [d] ∧ BlockOf env e r d

theorem getShdr_present (hs : Chain.entry e.scns p = some s) (hh : s.shdr = some h) : getShdr env p e = .ok h e := by
  rw [getShdr, scn_of_entry hs, bind_ok, hh]

/-- The raw data of a section whose header is there. -/
theorem setRawdata_present (hs : Chain.entry e.scns p = some s) (hh : s.shdr = some h) (hr : sectionRaw env e h = .ok r e) :
    setRawdata env p e = .ok () (e.put p { s with rawdata := some r, dataRead := true, filedata := true }) := by
  rw [setRawdata_eq, getShdr_present hs hh, bind_ok, hr, bind_ok, setScn_eq_put hs]

theorem setRawdata_present_ok (hs : Chain.entry e.scns p = some s) (hh : s.shdr = some h)
    (hset : setRawdata env p e = .ok () e') : ∃ r, sectionRaw env e h = .ok r e := by
  rw [setRawdata_eq, getShdr_present hs hh, bind_ok] at hset
  obtain ⟨r, e₁, hr, -⟩ := bind_eq_ok.mp hset
  obtain rfl := (sectionRaw_ok hr).1
  exact ⟨r, hr⟩

namespace Loaded

/-- The section is still so after what left it alone. -/
theorem frame (hl : Loaded env e p s h r) (hsame : SameBut e e')
    (hentry : Chain.entry e'.scns p = Chain.entry e.scns p) : Loaded env e' p s h r :=
  ⟨hentry.trans hl.entry, hl.shdr, hl.read, hl.rawdata, hl.nonempty, hl.off,
    hl.list.imp id fun ⟨d, hd, hblock⟩ => ⟨d, hd, hsame.symm.blockOf hblock⟩⟩

/-- So it is in another descriptor over the object. -/
theorem alike (hl : Loaded env e p s h r) (hab : Alike env e e') (hb : HasHdr e')
    (hentry : Chain.entry e'.scns p = Chain.entry e.scns p) : Loaded env e' p s h r :=
  ⟨hentry.trans hl.entry, hl.shdr, hl.read, hl.rawdata, hl.nonempty, hl.off,
    hl.list.imp id fun ⟨d, hd, hblock⟩ => ⟨d, hd, blockOf_alike hab hb hblock⟩⟩

/-- A block without a buffer is made of raw data without one. -/
theorem usesRaw (hl : Loaded env e p s h r) : usesRaw s = false := by
  unfold Elfutils.usesRaw
  rcases hl.list with hnil | ⟨d, hd, hblock⟩
  · rw [hnil]
    rfl
  · rw [hd, hl.rawdata]
    unfold BlockOf at hblock
    cases hbuf : r.dBuf with
    | none =>
      show (_ && r.dBuf.isSome) = false
      rw [hbuf]
      exact Bool.and_false _
    | some bs =>
      rw [hbuf] at hblock
      obtain ⟨ds, t, -, rfl⟩ := hblock
      rfl

/-- The section with its block. -/
theorem setList (hl : Loaded env e p s h r) (hd : BlockOf env e r d) :
    Loaded env (e.put p { s with dataList := [d] }) p { s with dataList := [d] } h r := by
  have hsame := SameBut.put e p { s with dataList := [d] }
  exact ⟨entry_put hl.entry, hl.shdr, hl.read, hl.rawdata, hl.nonempty, hl.off, .inr ⟨d, rfl, hsame.symm.blockOf hd⟩⟩

/-- The section with another header. -/
theorem setHeader (hl : Loaded env e p s h r) (h' : Shdr) (dirty : Bool) :
    let s' : Scn := { s with shdr := some h', shdrDirty := dirty }
    Loaded env (e.put p s') p s' h' r := by
  intro s'
  have hsame := SameBut.put e p s'
  exact ⟨entry_put hl.entry, rfl, hl.read, hl.rawdata, hl.nonempty, hl.off,
    hl.list.imp id fun ⟨d, hd, hblock⟩ => ⟨d, hd, hsame.symm.blockOf hblock⟩⟩

/-- What `elf_getdata` gives and leaves. -/
theorem getdata_ok {x : Option Data} (hl : Loaded env e p s h r) (hget : elfGetdata env p none e = .ok x e') :
    ∃ d, x = some d ∧ BlockOf env e r d ∧ e' = e.put p { s with dataList := [d] } := by
  obtain ⟨s₀, e₁, s₁, s', hs₀, hread, hs₁, hlist, hs', rfl⟩ := elfGetdata_none_ok hget
  obtain rfl := Option.some.inj (hl.entry.symm.trans hs₀)
  obtain rfl : e₁ = e := hread.elim And.right fun hn => by
    rw [hl.read] at hn
    cases hn.1
  obtain rfl := Option.some.inj (hl.entry.symm.trans hs₁)
  rcases hlist with ⟨hne, rfl⟩ | ⟨hnil, hset⟩
  · obtain ⟨d, hd, hblock⟩ := hl.list.resolve_left hne
    obtain rfl := Option.some.inj (hl.entry.symm.trans hs')
    refine ⟨d, by rw [hd]; rfl, hblock, ?_⟩
    rw [← hd]
    exact (put_self hl.entry).symm
  · unfold setDataList at hset
    rw [scn_of_entry hl.entry, bind_ok, hl.rawdata] at hset
    simp only [Option.getD_some] at hset
    have hput : ∀ d, (e₁.setScn p fun s => { s with dataList := [d] }) = e₁.put p { s with dataList := [d] } :=
      fun d => setScn_eq_put hl.entry
    have hres : ∀ d, e' = e₁.put p { s with dataList := [d] } → s'.dataList.head? = some d := by
      rintro d rfl
      rw [entry_put hl.entry] at hs'
      rw [← Option.some.inj hs']
      rfl
    split at hset
    · next hnone =>
      obtain rfl := (Outcome.ok.inj hset).2
      refine ⟨r, hres r (hput r), ?_, hput r⟩
      unfold BlockOf
      rw [hnone]
    · next bs hbs =>
      split at hset
      · next hz =>
        exact absurd hz (hl.nonempty (by rw [hbs]; exact nofun))
      · obtain ⟨ds, t, hconv, hlast⟩ := bind_eq_ok.mp hset
        obtain rfl := (convertData_ok hconv).1
        obtain rfl := (Outcome.ok.inj hlast).2
        refine ⟨{ r with dBuf := some ds }, hres _ (hput _), ?_, hput _⟩
        unfold BlockOf
        rw [hbs]
        exact ⟨ds, t, hconv, rfl⟩

/-- The block is given where there is one. -/
theorem getdata_of (hk : e.kind = .elf) (hl : Loaded env e p s h r) (hd : BlockOf env e r d) :
    elfGetdata env p none e = .ok (some d) (e.put p { s with dataList := [d] }) := by
  rcases hl.list with hnil | ⟨d', hd', hblock⟩
  · have hput : ∀ d, (e.setScn p fun s => { s with dataList := [d] }) = e.put p { s with dataList := [d] } :=
      fun d => setScn_eq_put hl.entry
    have hraw : s.rawdata.getD Data.zero = r := by
      rw [hl.rawdata]
      rfl
    have hset : setDataList env p e = .ok () (e.put p { s with dataList := [d] }) := by
      unfold setDataList
      rw [scn_of_entry hl.entry, bind_ok]
      simp only [hraw]
      unfold BlockOf at hd
      cases hbuf : r.dBuf with
      | none =>
        rw [hbuf] at hd
        obtain rfl : d = r := hd
        exact congrArg (Outcome.ok ()) (hput d)
      | some bs =>
        rw [hbuf] at hd
        obtain ⟨ds, t, hconv, rfl⟩ := hd
        have hne : ¬ r.dSize = 0 := hl.nonempty (by rw [hbuf]; exact nofun)
        obtain rfl := (convertData_ok hconv).1
        simp only [if_neg hne, hconv, bind_ok, hput]
    rw [elfGetdata, if_neg (not_not.mpr hk), scn_of_entry hl.entry, bind_ok]
    simp only
    rw [if_pos hl.read, bind_ok, scn_of_entry hl.entry, bind_ok, if_pos (List.isEmpty_iff.mpr hnil), hset, bind_ok,
      scn_of_entry (entry_put hl.entry), bind_ok]
    rfl
  · obtain rfl := hblock.unique hd
    have hne : s.dataList ≠ [] := by rw [hd']; exact List.cons_ne_nil _ _
    rw [elfGetdata_head hk hl.entry hl.read hne, ← hd', put_self hl.entry, hd']
    rfl

end Loaded

/-! ## The round -/

/-- The alignment with that of the block, if there is one. -/
def blockAlign (s : Scn) (align : UInt32) : UInt32 :=
  match s.dataList with
  | [] => align
  | d :: _ => (max align.toUInt64 (.ofNat d.dAlign)).toUInt32

/-- The alignments of the blocks are powers of two. -/
def Lays (s : Scn) : Prop := ∀ d ∈ s.dataList, powerof2Long (.ofNat d.dAlign)

theorem alignOffset_zero (a : UInt64) : alignOffset 0 a = 0 := by
  have h : (0 : UInt64) + a - 1 = a - 1 := by rw [UInt64.zero_add]
  rw [alignOffset, h]
  apply UInt64.toBitVec_inj.mp
  simp

/-- The one block is at the start, where it was before. -/
theorem layoutScn_loaded {n : Nat} {align : UInt32} (hl : Loaded env e p s h r) (hversion : r.dVersion = 1) :
    (Lays s → layoutScn false n s align = .ok (s, .ofNat r.dSize, blockAlign s align, false)) ∧
      (¬ Lays s → layoutScn false n s align = .error .INVALID_ALIGN) := by
  have hraw : s.rawdata.getD Data.zero = r := by
    rw [hl.rawdata]
    rfl
  rcases hl.list with hnil | ⟨d, hd, hblock⟩
  · have hlays : Lays s := by
      intro d hd
      rw [hnil] at hd
      cases hd
    refine ⟨fun _ => ?_, fun hno => absurd hlays hno⟩
    rw [layoutScn, if_pos hnil, hraw, blockAlign, hnil]
  · obtain ⟨hver, hsize, hoff, -⟩ := hblock.fields
    have hlays : Lays s ↔ powerof2Long (.ofNat d.dAlign) := by
      rw [Lays, hd, List.forall_mem_singleton]
    have hne : ¬ s.dataList = [] := by
      rw [hd]
      exact List.cons_ne_nil _ _
    have hgood : ¬ (d.dVersion = 0 ∨ 2 ≤ d.dVersion) := by
      rw [hver, hversion]
      decide
    have hone : layoutScn false n s align = if ¬ powerof2Long (.ofNat d.dAlign) then .error .INVALID_ALIGN
        else .ok (s, .ofNat r.dSize, blockAlign s align, false) := by
      rw [layoutScn, if_neg hne, layoutBlocks, hl.usesRaw]
      simp only [Bool.false_eq_true, if_false, hd, layoutData, if_neg hgood, alignOffset_zero]
      split
      · rfl
      · -- the offset of the block is zero already
        have hzero : d.dOff = 0 := hoff.trans hl.off
        have hself : ({ d with dOff := (0 : UInt64).toNat } : Data) = d := by
          rw [show (0 : UInt64).toNat = d.dOff from hzero.symm]
        have hblocks : ({ s with dataList := [d] } : Scn) = s := by rw [← hd]
        have halign : blockAlign s align = (max align.toUInt64 (.ofNat d.dAlign)).toUInt32 := by rw [blockAlign, hd]
        simp only [Except.map, storeBlocks, hl.usesRaw, Bool.false_eq_true, if_false, hself, hblocks]
        rw [halign, hsize, UInt64.zero_add, hzero]
        rfl
    rw [hone, hlays]
    exact ⟨fun h => if_neg (not_not.mpr h), fun h => if_pos h⟩

def HasChdr (env : Env) (e : Elf) (h : Shdr) (r : Data) (c : Chdr) : Prop :=
  let ec := e.elfClass.getD .elfclass64
  h.shFlags &&& shfAlloc = 0 ∧ h.shType ≠ shtNull ∧ h.shType ≠ shtNobits ∧ h.shFlags &&& shfCompressed ≠ 0 ∧
    ∃ d buf, BlockOf env e r d ∧ chdrSize ec ≤ d.dSize ∧ d.dBuf = some buf ∧ chdrSize ec ≤ buf.length ∧
      c = Chdr.ofBytes env.host ec (window buf 0 (chdrSize ec))

namespace Loaded

theorem getchdr_ok {c : Chdr} (hl : Loaded env e p s h r) (hget : gelfGetchdr env p e = .ok c e') :
    HasChdr env e h r c ∧ ∃ d, BlockOf env e r d ∧ e' = e.put p { s with dataList := [d] } := by
  unfold gelfGetchdr at hget
  rw [getShdr_present hl.entry hl.shdr, bind_ok] at hget
  split at hget
  · cases hget
  · next halloc =>
    split at hget
    · cases hget
    · next htype =>
      split at hget
      · cases hget
      · next hflag =>
        obtain ⟨x, e₁, hdata, hrest⟩ := bind_eq_ok.mp hget
        obtain ⟨d, rfl, hblock, rfl⟩ := hl.getdata_ok hdata
        extract_lets ec at hrest
        simp only at hrest
        split at hrest
        · cases hrest
        · next hsize =>
          split at hrest
          · cases hrest
          · next buf hbuf =>
            obtain ⟨bs, e₂, hread, hlast⟩ := bind_eq_ok.mp hrest
            obtain ⟨hle, rfl, rfl⟩ := readAt_eq_ok.mp hread
            obtain ⟨rfl, rfl⟩ := Outcome.ok.inj hlast
            have hlen : chdrSize ec ≤ buf.length := by
              rcases hle with hz | hle
              · rw [hz]
                exact Nat.zero_le _
              · omega
            exact ⟨⟨not_not.mp halloc, fun h => htype (.inl h), fun h => htype (.inr h), hflag, d, buf, hblock,
              Nat.le_of_not_lt hsize, hbuf, hlen, rfl⟩, d, hblock, rfl⟩

theorem getchdr_of {c : Chdr} (hk : e.kind = .elf) (hl : Loaded env e p s h r) (hc : HasChdr env e h r c) :
    ∃ d, BlockOf env e r d ∧ gelfGetchdr env p e = .ok c (e.put p { s with dataList := [d] }) := by
  obtain ⟨halloc, hnull, hbits, hflag, d, buf, hblock, hsize, hbuf, hlen, rfl⟩ := hc
  refine ⟨d, hblock, ?_⟩
  unfold gelfGetchdr
  rw [getShdr_present hl.entry hl.shdr, bind_ok, if_neg (not_not.mpr halloc), if_neg fun h => h.elim hnull hbits,
    if_neg hflag, hl.getdata_of hk hblock, bind_ok]
  have hclass : (e.put p { s with dataList := [d] }).elfClass = e.elfClass := rfl
  simp only [hclass, if_neg (Nat.not_lt.mpr hsize), hbuf]
  rw [readAt_of_le _ (by omega), bind_ok]

end Loaded

/-- The size of a section with this header is a multiple of the size of its entries, as far as that is looked at. -/
def Passes (env : Env) (fl : UpdateFlags) (ec : ElfClass) (e : Elf) (h : Shdr) (r : Data) : Prop :=
  ec.get h.shEntsize ≠ 0 ∧ ec.get h.shEntsize ≠ 1 ∧ fl.permissive = false →
    if h.shFlags &&& shfCompressed = 0 then ec.get h.shSize % 2 ^ 32 % ec.get h.shEntsize = 0
    else ∃ c, HasChdr env e h r c ∧ c.chSize % 2 ^ 32 % ec.get h.shEntsize = 0

/-- The size of a section is checked through one descriptor as through another of the class that makes the same blocks. -/
theorem Passes.congr (hpass : Passes env fl ec e' h r) (hclass : e'.elfClass = e.elfClass)
    (hblocks : ∀ d, BlockOf env e' r d → BlockOf env e r d) : Passes env fl ec e h r := by
  intro hlook
  have hsize := hpass hlook
  split at hsize
  · next hflag =>
    rw [if_pos hflag]
    exact hsize
  · next hflag =>
    rw [if_neg hflag]
    obtain ⟨c, ⟨halloc, hnull, hbits, hc, d, buf, hblock, hrest⟩, hmod⟩ := hsize
    rw [hclass] at hrest
    exact ⟨c, ⟨halloc, hnull, hbits, hc, d, buf, hblocks d hblock, hrest⟩, hmod⟩

theorem SameBut.passes (hs : SameBut e e') (hpass : Passes env fl ec e' h r) : Passes env fl ec e h r :=
  hpass.congr hs.elfClass fun _ => hs.blockOf

/-- The check of the size looks at the header and the raw data only. -/
theorem checkEntsize_loaded (hk : e.kind = .elf) (hl : Loaded env e p s h r) :
    (checkEntsize env fl ec p h e).Exactly (Passes env fl ec e h r) fun _ e' => ∃ s', e' = e.put p s' ∧ s'.shdr = some h := by
  have hself : e = e.put p s := (put_self hl.entry).symm
  unfold checkEntsize Passes
  by_cases hlook : ec.get h.shEntsize ≠ 0 ∧ ec.get h.shEntsize ≠ 1 ∧ fl.permissive = false
  · simp only [if_pos hlook]
    by_cases hflag : h.shFlags &&& shfCompressed = 0
    · simp only [if_pos hflag, bind_ok]
      by_cases hmod : ec.get h.shSize % 2 ^ 32 % ec.get h.shEntsize = 0
      · rw [if_neg (not_not.mpr hmod)]
        exact exactly_ok (fun _ => hmod) ⟨s, hself, hl.shdr⟩
      · rw [if_pos hmod]
        exact exactly_err fun hpass => hmod (hpass hlook)
    · simp only [if_neg hflag, Outcome.bind_assoc, bind_ok]
      constructor
      · intro u e' hcheck
        obtain ⟨c, e₁, hget, hrest⟩ := bind_eq_ok.mp hcheck
        obtain ⟨hc, d, -, rfl⟩ := hl.getchdr_ok hget
        split at hrest
        · cases hrest
        · next hmod =>
          obtain rfl := (Outcome.ok.inj hrest).2
          exact ⟨fun _ => ⟨c, hc, not_not.mp hmod⟩, _, rfl, hl.shdr⟩
      · intro hpass
        obtain ⟨c, hc, hmod⟩ := hpass hlook
        obtain ⟨d, -, hget⟩ := hl.getchdr_of hk hc
        rw [hget, bind_ok, if_neg (not_not.mpr hmod)]
        exact ⟨_, _, rfl⟩
  · simp only [if_neg hlook]
    exact exactly_ok (fun h => absurd h hlook) ⟨s, hself, hl.shdr⟩

namespace Loaded

/-- `elf_getdata` succeeds where a block can be made of the raw data. -/
theorem getdata (hk : e.kind = .elf) (hl : Loaded env e p s h r) :
    (elfGetdata env p none e).Exactly (∃ d, BlockOf env e r d) fun _ e' =>
      ∃ d, BlockOf env e r d ∧ e' = e.put p { s with dataList := [d] } := by
  constructor
  · intro x e' hget
    obtain ⟨d, -, hd, rfl⟩ := hl.getdata_ok hget
    exact ⟨⟨d, hd⟩, d, hd, rfl⟩
  · rintro ⟨d, hd⟩
    exact ⟨_, _, hl.getdata_of hk hd⟩

/-- The flags of a section do not matter. -/
theorem setDirty (hl : Loaded env e p s h r) (dirty : Bool) :
    Loaded env (e.put p { s with dirty := dirty }) p { s with dirty := dirty } h r := by
  have hsame := SameBut.put e p { s with dirty := dirty }
  exact ⟨entry_put hl.entry, hl.shdr, hl.read, hl.rawdata, hl.nonempty, hl.off,
    hl.list.imp id fun ⟨d, hd, hblock⟩ => ⟨d, hd, hsame.symm.blockOf hblock⟩⟩

end Loaded

/-- A section that moves is given its block. -/
theorem Loaded.getMoved {moved : Prop} [Decidable moved] (hk : e.kind = .elf) (hl : Loaded env e p s h r) :
    (if moved ∧ s.dataList = [] then (elfGetdata env p none e).bind fun _ => .ok () else .ok () e).Exactly
      (moved → ∃ d, BlockOf env e r d) fun _ e' => ∃ s', e' = e.put p s' ∧ Loaded env e' p s' h r := by
  by_cases hm : moved ∧ s.dataList = []
  · rw [if_pos hm]
    refine exactly_mono (@exactly_bind _ _ _ _ _ _ _ True _ _ (hl.getdata hk) fun x e' hQ => exactly_ok trivial ?_)
      ⟨fun h _ => h.1, fun h => ⟨h hm.1, trivial⟩⟩ fun _ _ _ hQ => hQ
    obtain ⟨d, hd, rfl⟩ := hQ
    exact ⟨_, rfl, hl.setList hd⟩
  · rw [if_neg hm]
    refine exactly_ok (fun hmoved => ?_) ⟨s, (put_self hl.entry).symm, hl⟩
    obtain ⟨d, -, hd⟩ := hl.list.resolve_left fun hnil => hm ⟨hmoved, hnil⟩
    exact ⟨d, hd⟩

/-- The section gets another place. -/
def Moves (ec : ElfClass) (h : Shdr) (size : UInt64) (align : UInt32) : Prop :=
  ec.narrow h.shOffset ≠ (alignSize size align).toUInt32.toUInt64

instance (ec : ElfClass) (h : Shdr) (size : UInt64) (align : UInt32) : Decidable (Moves ec h size align) :=
  inferInstanceAs (Decidable (_ ≠ _))

/-- The place of a section is found from the size of the file and of the section; a section that moves has to have a
block. -/
theorem placeScn_loaded {offset size : UInt64} {align : UInt32} {changed : Bool} (hlayout : fl.layout = false)
    (hk : e.kind = .elf) (hl : Loaded env e p s h r) :
    (placeScn env fl ec p h offset align size changed e).Exactly
      (Moves ec h size align → ∃ d, BlockOf env e r d)
      fun st e' => st = (placedSize size offset align h, changed || decide (Moves ec h size align) ||
          decide (ec.narrow h.shSize ≠ (placedShdr size offset align h).shSize)) ∧
        ∃ s', e' = e.put p s' ∧ Loaded env e' p s' (placedShdr size offset align h) r := by
  have hset := hl.setHeader (placedShdr size offset align h)
    (s.shdrDirty || decide (s.shdr ≠ some (placedShdr size offset align h)))
  extract_lets s₁ at hset
  have hsame := SameBut.put e p s₁
  have hmoved : (decide (ec.narrow h.shOffset ≠ (placedShdr size offset align h).shOffset) = true) ↔
      Moves ec h size align := decide_eq_true_iff
  unfold placeScn
  simp only [hlayout, Bool.false_eq_true, if_false, scn_of_entry hl.entry, bind_ok, Elf.setShdr, setScn_eq_put hl.entry]
  have hget := @Loaded.getMoved env (e.put p s₁) p s₁ _ r
    (decide (ec.narrow h.shOffset ≠ (placedShdr size offset align h).shOffset) = true) _ hk hset
  refine exactly_mono (@exactly_bind _ _ _ _ _ _ _ True _ _ hget fun x e₁ hQ => exactly_ok trivial ?_) ?_ fun _ _ _ hQ => hQ
  · obtain ⟨s₂, rfl, hl₂⟩ := hQ
    rw [put_put] at hl₂
    let c := changed || decide (ec.narrow h.shOffset ≠ (placedShdr size offset align h).shOffset) ||
      decide (ec.narrow h.shSize ≠ (placedShdr size offset align h).shSize)
    have hl₃ := hl₂.setDirty (s₂.dirty || c)
    have hput : (((e.put p s₁).put p s₂).setScn p fun s => { s with dirty := s.dirty || c }) =
        e.put p { s₂ with dirty := s₂.dirty || c } := by
      rw [put_put, setScn_eq_put hl₂.entry, put_put]
    rw [put_put, ← hput] at hl₃
    exact ⟨rfl, _, hput, hl₃⟩
  · rw [hmoved]
    exact ⟨fun h hm => (h.1 hm).imp fun _ hd => hsame.blockOf hd,
      fun h => ⟨fun hm => (h hm).imp fun _ hd => hsame.symm.blockOf hd, trivial⟩⟩

/-- What a round needs of a section with header `h` and raw data `r` that is aligned to `align` behind `size` bytes. -/
structure LaidOut (env : Env) (fl : UpdateFlags) (ec : ElfClass) (e : Elf) (h : Shdr) (r : Data) (size : UInt64)
    (align : UInt32) : Prop where
  block : Moves ec h size align → ∃ d, BlockOf env e r d
  passes : Passes env fl ec e (placedShdr size (.ofNat r.dSize) align h) r

def roundResult (ec : ElfClass) (h : Shdr) (r : Data) (align : UInt32) (st : UInt64 × Bool) : UInt64 × Bool :=
  (placedSize st.1 (.ofNat r.dSize) align h, st.2 || decide (Moves ec h st.1 align) ||
    decide (ec.narrow h.shSize ≠ (placedShdr st.1 (.ofNat r.dSize) align h).shSize))

theorem laidScn_loaded {st : UInt64 × Bool} {align : UInt32} (hlayout : fl.layout = false) (hk : e.kind = .elf)
    (hl : Loaded env e p s h r) (hversion : r.dVersion = 1) :
    (laidScn env fl ec p h align st e).Exactly (Lays s ∧ LaidOut env fl ec e h r st.1 (blockAlign s align))
      fun st' e' => st' = roundResult ec h r (blockAlign s align) st ∧
        ∃ s', e' = e.put p s' ∧ s'.shdr = some (placedShdr st.1 (.ofNat r.dSize) (blockAlign s align) h) := by
  unfold laidScn
  rw [scn_of_entry hl.entry, bind_ok]
  simp only [hlayout]
  by_cases hlays : Lays s
  · rw [(layoutScn_loaded hl hversion).1 hlays]
    have hself : (e.setScn p fun _ => s) = e := put_self hl.entry
    simp only [hself]
    refine exactly_mono (@exactly_bind _ _ _ _ _ _ _
      (Passes env fl ec e (placedShdr st.1 (.ofNat r.dSize) (blockAlign s align) h) r) _
      (fun st' e' => st' = roundResult ec h r (blockAlign s align) st ∧
        ∃ s', e' = e.put p s' ∧ s'.shdr = some (placedShdr st.1 (.ofNat r.dSize) (blockAlign s align) h))
      (placeScn_loaded hlayout hk hl) ?_)
      ⟨fun h => ⟨hlays, h.1, h.2⟩, fun h => ⟨h.2.block, h.2.passes⟩⟩ fun _ _ _ hQ => hQ
    rintro st' e' ⟨hst, s', rfl, hl'⟩
    have hsame := SameBut.put e p s'
    rw [scn_of_entry hl'.entry, bind_ok, hl'.shdr, Option.getD_some]
    refine exactly_mono (@exactly_bind _ _ _ _ _ _ _ True _ _ (checkEntsize_loaded hk hl')
      fun u e₁ hQ => exactly_ok trivial ?_)
      ⟨fun h => hsame.passes h.1, fun h => ⟨hsame.symm.passes h, trivial⟩⟩ fun _ _ _ hQ => hQ
    obtain ⟨s'', rfl, hshdr⟩ := hQ
    exact ⟨by rw [hst, Bool.or_false]; rfl, s'', put_put, hshdr⟩
  · rw [(layoutScn_loaded hl hversion).2 hlays]
    exact exactly_err fun h => hlays h.1

theorem SameBut.laidOut {size : UInt64} {align : UInt32} (hs : SameBut e e')
    (h' : LaidOut env fl ec e' h r size align) : LaidOut env fl ec e h r size align :=
  ⟨fun hm => (h'.block hm).imp fun _ hd => hs.blockOf hd, hs.passes h'.passes⟩

theorem LaidOut.alike {size : UInt64} {align : UInt32} (hab : Alike env e e') (hb : HasHdr e')
    (h' : LaidOut env fl ec e h r size align) : LaidOut env fl ec e' h r size align :=
  ⟨fun hm => (h'.block hm).imp fun _ hd => blockOf_alike hab hb hd,
    h'.passes.congr hab.elfClass.symm fun _ => blockOf_alike hab hb⟩

/-- A section with header `h` and raw data `r`: they were read, or nothing was and they can be. -/
structure Readable (env : Env) (e : Elf) (p : ScnHandle) (s : Scn) (h : Shdr) (r : Data) : Prop where
  entry : Chain.entry e.scns p = some s
  shdr : s.shdr = some h
  data : s.Unread ∧ sectionRaw env e h = .ok r e ∨ Loaded env e p s h r

/-- The first part of a round: the header is set, and the raw data are there. -/
theorem Readable.load {h' : Shdr} (hhdr : HasHdr e) (hr : Readable env e p s h r)
    (hsec : sectionRaw env e h' = sectionRaw env e h) :
    ∃ s', (if s.dataRead then .ok () (e.setShdr p h') else setRawdata env p (e.setShdr p h')) = .ok () (e.put p s') ∧
      Loaded env (e.put p s') p s' h' r ∧ s'.dataList = s.dataList := by
  let s₁ : Scn := { s with shdr := some h', shdrDirty := s.shdrDirty || decide (s.shdr ≠ some h') }
  have hput : e.setShdr p h' = e.put p s₁ := setScn_eq_put hr.entry
  have hs₁ : Chain.entry (e.put p s₁).scns p = some s₁ := entry_put hr.entry
  have hsame := SameBut.put e p s₁
  rw [hput]
  rcases hr.data with ⟨⟨hraw, hread, hlist⟩, hok⟩ | hl
  · have hok₁ := sectionRaw_alike (SameBut.alike hsame) (b := e.put p s₁) hhdr (hsec.trans hok)
    rw [if_neg (by rw [hread]; exact nofun), setRawdata_present hs₁ rfl hok₁, put_put]
    refine ⟨_, rfl, ?_, rfl⟩
    have hisRaw := (sectionRaw_ok hok).2
    exact ⟨entry_put hr.entry, rfl, rfl, rfl, hisRaw.nonempty, hisRaw.off, .inl hlist⟩
  · rw [if_pos hl.read]
    exact ⟨s₁, rfl, hl.setHeader h' _, rfl⟩

variable {hdr : Ehdr} {n : UInt32} {st : UInt64 × Bool}

/-- A round of the loop: what it needs, what it gives, and the header that it leaves. Of the other sections it reads
nothing, and it leaves them alone. -/
theorem updateScn_readable (hlayout : fl.layout = false) (hk : e.kind = .elf) (hhdr : HasHdr e)
    (hr : Readable env e p s h r) (hversion : r.dVersion = 1) (hpow : powerof2 (scnAlign ec h))
    (hn : scnEntsize ec hdr h = .ok n) :
    let h' : Shdr := { h with shEntsize := n.toUInt64 }
    let align := blockAlign s (scnAlign ec h)
    (updateScn env fl ec hdr p st e).Exactly (Lays s ∧ LaidOut env fl ec e h' r st.1 align)
      fun st' e' => st' = roundResult ec h' r align st ∧
        ∃ s', e' = e.put p s' ∧ s'.shdr = some (placedShdr st.1 (.ofNat r.dSize) align h') := by
  intro h' align
  obtain ⟨s', hload, hl, hlist⟩ := @Readable.load env _ _ _ _ _ h' hhdr hr rfl
  have hsame := SameBut.put e p s'
  have hlays : Lays s' ↔ Lays s := by rw [Lays, Lays, hlist]
  have halign : blockAlign s' (scnAlign ec h) = align := by
    show blockAlign s' (scnAlign ec h) = blockAlign s (scnAlign ec h)
    rw [blockAlign, blockAlign, hlist]
  unfold updateScn
  rw [scn_of_entry hr.entry, bind_ok, hr.shdr]
  simp only [if_neg (not_not.mpr hpow), hn]
  rw [hload, bind_ok]
  refine exactly_mono (laidScn_loaded hlayout hk hl hversion) ?_ ?_
  · rw [hlays, halign]
    exact and_congr_right fun _ => ⟨hsame.laidOut, hsame.symm.laidOut⟩
  · rintro st' e' - ⟨hst, s'', rfl, hshdr⟩
    rw [halign] at hst hshdr
    exact ⟨hst, s'', put_put, hshdr⟩

/-- What a round that succeeds has found of the header. -/
theorem updateScn_header {st' : UInt64 × Bool} (hs : Chain.entry e.scns p = some s)
    (hrun : updateScn env fl ec hdr p st e = .ok st' e') : ∃ h n, s.shdr = some h ∧ powerof2 (scnAlign ec h) ∧
      scnEntsize ec hdr h = .ok n := by
  unfold updateScn at hrun
  rw [scn_of_entry hs, bind_ok] at hrun
  split at hrun
  · cases hrun
  · next h hshdr =>
    split at hrun
    · cases hrun
    · next hpow =>
      split at hrun
      · cases hrun
      · next n hn => exact ⟨h, n, hshdr, not_not.mp hpow, hn⟩

/-- What it has found of a section that nothing was read of. -/
theorem updateScn_ok {st' : UInt64 × Bool} (hhdr : HasHdr e) (hs : Chain.entry e.scns p = some s) (hunread : s.Unread)
    (hrun : updateScn env fl ec hdr p st e = .ok st' e') : ∃ h n r, Readable env e p s h r ∧ IsRaw env e h r ∧
      powerof2 (scnAlign ec h) ∧ scnEntsize ec hdr h = .ok n := by
  obtain ⟨h, n, hshdr, hpow, hn⟩ := updateScn_header hs hrun
  unfold updateScn at hrun
  rw [scn_of_entry hs, bind_ok, hshdr] at hrun
  simp only [if_neg (not_not.mpr hpow), hn] at hrun
  obtain ⟨u, e₁, hload, -⟩ := bind_eq_ok.mp hrun
  rw [if_neg (by rw [hunread.2.1]; exact nofun)] at hload
  let h' : Shdr := { h with shEntsize := n.toUInt64 }
  let s₁ : Scn := { s with shdr := some h', shdrDirty := s.shdrDirty || decide (s.shdr ≠ some h') }
  have hput : e.setShdr p h' = e.put p s₁ := setScn_eq_put hs
  rw [show e.setShdr p { h with shEntsize := n.toUInt64 } = e.put p s₁ from hput] at hload
  obtain ⟨r, hr⟩ := setRawdata_present_ok (entry_put hs) rfl hload
  have hback : sectionRaw env e h' = .ok r e :=
    sectionRaw_alike (SameBut.alike (SameBut.put e p s₁).symm) hhdr hr
  exact ⟨h, n, r, ⟨hs, hshdr, .inl ⟨hunread, hback⟩⟩, (sectionRaw_ok (h := h) hback).2, hpow, hn⟩

end Loaded

end LibElf.Elfutils
