import LibElf.Elfutils.Fetched
import LibElf.Elfutils.SectionRoundTrip
import LibElf.Elfutils.UpdateLoop

/-!
# An update after reads

Calls of `elf_getdata` and a following `elf_update` with `ELF_C_NULL`, without `ELF_F_LAYOUT`, next to the same update of
the object that nothing was read of.

1. `phdrEnd`, the end of the program headers, which depends on whether section header 0 is there.
2. `KeepsAlign`, a section whose data ask for no other alignment than its header.
3. `update_fetched_iff`: the update gives the same size and the same section headers where the end of the program headers
   is rounded to the same place and the sections that were read keep their alignment, and nowhere else.
-/

namespace LibElf.Elfutils

open Outcome
open Toolchain (ElfClass Ehdr Shdr)

/-! ## Program headers -/

section Phdrs

variable {env : Env} {ec : ElfClass} {fl : UpdateFlags} {e e' : Elf} {h : Ehdr} {b : ScnList}

/-- The program header table is in the range of the object, and can be read. -/
def HasPhdrs (env : Env) (ec : ElfClass) (e : Elf) : Prop :=
  let num := e.phnum env ec
  let off := ec.get (e.hdr env ec).ePhoff
  num ≠ 0 ∧ off ≠ 0 ∧ off + num * phdrSize ec ≤ e.maximumSize ∧
    (e.mapAddress.isSome ∨ (preadRetry env e.fildes (num * phdrSize ec) (wrap (e.startOffset + off))).map List.length =
      some (num * phdrSize ec))

instance : Decidable (HasPhdrs env ec e) := inferInstanceAs (Decidable (_ ∧ _))

/-- The table can be loaded without a fault: where its entries have to be swapped, they are in the image. -/
def LoadsPhdrs (env : Env) (ec : ElfClass) (e : Elf) : Prop :=
  HasPhdrs env ec e → e.swapped env ec = true → ∀ image, e.mapAddress = some image →
    e.startOffset + ec.get (e.hdr env ec).ePhoff + e.phnum env ec * phdrSize ec ≤ image.bytes.length

/-- The end of the program headers, for an object without a program header table in memory. -/
def phdrEnd (env : Env) (ec : ElfClass) (e : Elf) : UInt64 :=
  if HasPhdrs env ec e then .ofNat (ehdrSize ec) + .ofNat (e.phnum env ec * phdrSize ec) else .ofNat (ehdrSize ec)

theorem phnum_lt : e.phnum env ec < 2 ^ 32 := by
  unfold Elf.phnum
  extract_lets num
  have hnum : num < 2 ^ 16 := UInt16.toNat_lt _
  split
  · cases e.sections[0]?.bind Scn.shdr with
    | none => exact Nat.lt_trans hnum (by decide)
    | some h => exact UInt32.toNat_lt _
  · exact Nat.lt_trans hnum (by decide)

theorem getPhdrnum_value (hhdr : HasHdr e) (hb : e.scns = [b]) (hle : b.cnt ≤ b.max) :
    getPhdrnum env ec e = .ok (e.phnum env ec) e := by
  unfold getPhdrnum Elf.phnum
  rw [hhdr.header, bind_ok, hb]
  extract_lets num
  by_cases hx : num = pnXnum
  · rw [if_pos hx, if_pos hx, List.head?_cons]
    simp only
    have hsections : e.sections = b.used := by
      rw [Elf.sections, hb, Chain.entries_cons, Chain.entries_nil, List.append_nil]
    by_cases hz : b.cnt = 0
    · rw [if_pos hz]
      have hnil : b.used = [] := by rw [Block.used, hz, List.take_zero]
      rw [hsections, hnil]
      rfl
    · rw [if_neg hz]
      have hlt : 0 < b.data.length := Nat.lt_of_lt_of_le (Nat.pos_of_ne_zero hz) hle
      have hget : e.sections[0]? = b.data[0]? := by rw [hsections, Block.getElem?_used (Nat.pos_of_ne_zero hz)]
      rw [hget, List.getElem?_eq_getElem hlt]
      rfl
  · rw [if_neg hx, if_neg hx]

/-- What looking for the table leaves. -/
def PhdrsLeft (env : Env) (ec : ElfClass) (e e' : Elf) : Prop :=
  (HasPhdrs env ec e → ∃ ps, e' = e.setPhdr ps) ∧ (¬ HasPhdrs env ec e → e' = e)

theorem exactly_noPhdrs {c : ElfError} (hno : ¬ HasPhdrs env ec e) :
    (.err c e : Call Phdrs).ignore.Exactly (LoadsPhdrs env ec e) fun _ => PhdrsLeft env ec e :=
  exactly_ok (fun h => absurd h hno) ⟨fun h => absurd h hno, fun _ => rfl⟩

theorem exactly_phdrs {ps ps' : Phdrs} (hhas : HasPhdrs env ec e) (hloads : LoadsPhdrs env ec e) :
    (.ok ps' (e.setPhdr ps) : Call Phdrs).ignore.Exactly (LoadsPhdrs env ec e) fun _ => PhdrsLeft env ec e :=
  exactly_ok hloads ⟨fun _ => ⟨ps, rfl⟩, fun h => absurd hhas h⟩

theorem loadPhdr_ignore (hhdr : HasHdr e) (hz : e.phnum env ec ≠ 0) (hoff : ec.get (e.hdr env ec).ePhoff ≠ 0) :
    (loadPhdr env ec (e.phnum env ec) (ec.get (e.hdr env ec).ePhoff) e).ignore.Exactly (LoadsPhdrs env ec e)
      fun _ => PhdrsLeft env ec e := by
  have hsize : 0 < e.phnum env ec * phdrSize ec :=
    Nat.mul_pos (Nat.pos_of_ne_zero hz) (by cases ec <;> decide)
  have hmax : ¬ (2 ^ 64 - 1) / phdrSize ec < e.phnum env ec := by
    have hnum := @phnum_lt env ec e
    have hdiv : 2 ^ 32 ≤ (2 ^ 64 - 1) / phdrSize ec := by cases ec <;> decide
    omega
  unfold loadPhdr
  extract_lets size
  by_cases hin : ec.get (e.hdr env ec).ePhoff + size ≤ e.maximumSize
  · have hfit : ¬ ((2 ^ 64 - 1) / phdrSize ec < e.phnum env ec ∨ e.maximumSize < ec.get (e.hdr env ec).ePhoff ∨
        e.maximumSize - ec.get (e.hdr env ec).ePhoff < size) := by omega
    have hfit' : ¬ (e.maximumSize ≤ ec.get (e.hdr env ec).ePhoff ∨
        e.maximumSize - ec.get (e.hdr env ec).ePhoff < size) := by
      have hpos : 0 < size := hsize
      omega
    rw [if_neg hfit]
    by_cases hm : e.mapAddress.isSome = true
    · have hhas : HasPhdrs env ec e := ⟨hz, hoff, hin, .inl hm⟩
      rw [if_pos hm, if_neg hfit', hhdr.foreign, bind_ok]
      cases hswap : e.swapped env ec with
      | false => exact exactly_phdrs hhas fun _ h => absurd (hswap.symm.trans h) nofun
      | true =>
        obtain ⟨image, himage⟩ := Option.isSome_iff_exists.mp hm
        have hread : e.mapRead (e.startOffset + ec.get (e.hdr env ec).ePhoff) size =
            readAt image.bytes (e.startOffset + ec.get (e.hdr env ec).ePhoff) size e := by
          unfold Elf.mapRead
          rw [himage]
          exact if_neg (by omega)
        rw [if_pos rfl, hread]
        by_cases hlen : e.startOffset + ec.get (e.hdr env ec).ePhoff + size ≤ image.bytes.length
        · rw [readAt_of_le _ hlen, bind_ok]
          refine exactly_phdrs hhas fun _ _ image' himage' => ?_
          obtain rfl := Option.some.inj (himage.symm.trans himage')
          exact hlen
        · have hpos : 0 < size := hsize
          rw [readAt, if_neg (by omega), bind_stop]
          exact exactly_stop fun hloads => hlen (hloads hhas hswap image himage)
    · have hnone : ∀ image, e.mapAddress = some image → False := fun image himage => hm (by rw [himage]; rfl)
      rw [if_neg hm]
      by_cases hfd : e.fildes = -1
      · rw [if_neg (not_not.mpr hfd)]
        refine exactly_noPhdrs fun h => ?_
        have hread := h.2.2.2.resolve_left hm
        rw [preadRetry, if_pos (.inl hfd)] at hread
        cases hread
      · rw [if_pos hfd]
        cases hread : preadRetry env e.fildes size (wrap (e.startOffset + ec.get (e.hdr env ec).ePhoff)) with
        | none =>
          refine exactly_noPhdrs fun h => ?_
          have hlen := h.2.2.2.resolve_left hm
          rw [show e.phnum env ec * phdrSize ec = size from rfl, hread] at hlen
          cases hlen
        | some bs =>
          simp only
          by_cases hlen : bs.length = size
          · have hhas : HasPhdrs env ec e := by
              refine ⟨hz, hoff, hin, .inr ?_⟩
              rw [show e.phnum env ec * phdrSize ec = size from rfl, hread, Option.map_some, hlen]
            rw [if_neg (not_not.mpr hlen), hhdr.foreign, bind_ok]
            exact exactly_phdrs hhas fun _ _ image himage => (hnone image himage).elim
          · rw [if_pos hlen]
            refine exactly_noPhdrs fun h => ?_
            have hlen' := h.2.2.2.resolve_left hm
            rw [show e.phnum env ec * phdrSize ec = size from rfl, hread, Option.map_some] at hlen'
            exact hlen (Option.some.inj hlen')
  · have hfit : (2 ^ 64 - 1) / phdrSize ec < e.phnum env ec ∨ e.maximumSize < ec.get (e.hdr env ec).ePhoff ∨
        e.maximumSize - ec.get (e.hdr env ec).ePhoff < size := by omega
    rw [if_pos hfit]
    exact exactly_noPhdrs fun h => hin h.2.2.1

/-- The table is loaded where it can be; a table that cannot be read is passed over. -/
theorem getPhdr_ignore (hhdr : HasHdr e) (hb : e.scns = [b]) (hle : b.cnt ≤ b.max) (hphdr : e.phdr = none)
    (hclass : e.elfClass = some ec) :
    (getPhdr env e).ignore.Exactly (LoadsPhdrs env ec e) fun _ => PhdrsLeft env ec e := by
  obtain ⟨hdr, hcopied⟩ := id hhdr
  unfold getPhdr
  rw [hphdr, hcopied, hclass]
  simp only
  rw [getPhdrnum_value hhdr hb hle, bind_ok]
  by_cases hz : e.phnum env ec = 0
  · rw [if_pos hz]
    exact exactly_noPhdrs fun h => h.1 hz
  · rw [if_neg hz, hhdr.header, bind_ok]
    by_cases hoff : ec.get (e.hdr env ec).ePhoff = 0
    · rw [if_pos hoff]
      exact exactly_noPhdrs fun h => h.2.1 hoff
    · rw [if_neg hoff]
      exact loadPhdr_ignore hhdr hz hoff

/-- The same object with other headers of the file in memory. -/
def Elf.withHdrs (e : Elf) (h : Ehdr) (ps : Option Phdrs) : Elf := { e with ehdr := some (.copied h), phdr := ps }

theorem placePhdrs_exactly (hlayout : fl.layout = false) (hh : e.ehdr = some (.copied h)) (hb : e.scns = [b])
    (hle : b.cnt ≤ b.max) (hphdr : e.phdr = none) (hclass : e.elfClass = some ec) :
    (placePhdrs env fl ec h e).Exactly (LoadsPhdrs env ec e) fun size e' => size = phdrEnd env ec e ∧
      ∃ off ps, e' = e.withHdrs { h with ePhoff := off } ps := by
  have hhdr : HasHdr e := ⟨h, hh⟩
  unfold placePhdrs
  extract_lets size
  rw [if_neg (by rw [hphdr]; exact nofun)]
  refine exactly_mono (@exactly_bind _ _ _ _ _ _ _ True _ _ (getPhdr_ignore hhdr hb hle hphdr hclass)
    fun u e' hleft => ?_)
    (and_iff_left trivial) fun _ _ _ hQ => hQ
  by_cases hhas : HasPhdrs env ec e
  · obtain ⟨ps, rfl⟩ := hleft.1 hhas
    have hsome : (e.setPhdr ps).phdr.isSome = true := rfl
    have hnum : getPhdrnum env ec (e.setPhdr ps) = .ok (e.phnum env ec) (e.setPhdr ps) :=
      getPhdrnum_value (e := e.setPhdr ps) hhdr hb hle
    rw [if_pos hsome, hnum, bind_ok, if_neg (by rw [hlayout]; exact nofun)]
    refine exactly_ok trivial ⟨?_, _, some ps, rfl⟩
    rw [phdrEnd, if_pos hhas]
  · obtain rfl := hleft.2 hhas
    rw [if_neg (by rw [hphdr]; exact nofun)]
    refine exactly_ok trivial ⟨?_, h.ePhoff, none, ?_⟩
    · rw [phdrEnd, if_neg hhas]
    · rw [Elf.withHdrs, ← hh, ← hphdr]

end Phdrs

/-! ## In front of the sections -/

section Front

variable {env : Env} {ec : ElfClass} {fl : UpdateFlags} {e e' : Elf} {b : ScnList} {shnum : Nat}

/-- The part of `updatenull` in front of the sections. -/
def frontPart (env : Env) (fl : UpdateFlags) (ec : ElfClass) (shnum : Nat) (e : Elf) : Call UInt64 :=
  (e.header env ec .all).bind fun h e =>
  match defaultEhdr env ec shnum h with
  | .error c => .err c e
  | .ok h => placePhdrs env fl ec h (e.setHdr h)

theorem updatenull_eq : updatenull env fl ec shnum e = (frontPart env fl ec shnum e).bind fun size e =>
    if shnum = 0 then .ok size e else (e.header env ec .all).bind fun h e => placeScns env fl ec h shnum size e := by
  unfold updatenull frontPart
  rw [Outcome.bind_assoc]
  congr
  funext h e
  cases defaultEhdr env ec shnum h <;> rfl

/-- Headers that agree in what the sections are found and laid out by. -/
structure SameKind (h h' : Ehdr) : Prop where
  ident : h'.eIdent = h.eIdent
  type : h'.eType = h.eType
  machine : h'.eMachine = h.eMachine
  shoff : h'.eShoff = h.eShoff

/-- The program headers are placed as before the defaults were set. -/
theorem phdrs_default {h : Ehdr} (hhdr : e'.hdr env ec = h) (hnum : h.ePhnum = (e.hdr env ec).ePhnum)
    (hoff : h.ePhoff = if (e.hdr env ec).ePhnum = 0 then 0 else (e.hdr env ec).ePhoff)
    (hident : h.eIdent = (e.hdr env ec).eIdent) (hsame : e' = { e with ehdr := e'.ehdr }) :
    phdrEnd env ec e' = phdrEnd env ec e ∧ (LoadsPhdrs env ec e' ↔ LoadsPhdrs env ec e) := by
  have hsections : e'.sections = e.sections := by rw [hsame]; rfl
  have hphnum : e'.phnum env ec = e.phnum env ec := by rw [Elf.phnum, Elf.phnum, hhdr, hnum, hsections]
  by_cases hz : (e.hdr env ec).ePhnum = 0
  · have hnone : e.phnum env ec = 0 := by
      rw [Elf.phnum, hz]
      rfl
    have hno : ¬ HasPhdrs env ec e := fun h => h.1 hnone
    have hno' : ¬ HasPhdrs env ec e' := fun h => h.1 (hphnum.trans hnone)
    refine ⟨?_, fun _ h => absurd h hno, fun _ h => absurd h hno'⟩
    rw [phdrEnd, phdrEnd, if_neg hno, if_neg hno']
  · rw [if_neg hz] at hoff
    have hhas : HasPhdrs env ec e' ↔ HasPhdrs env ec e := by
      unfold HasPhdrs
      rw [hphnum, hhdr, hoff, hsame]
    have hswap : e'.swapped env ec = e.swapped env ec := by rw [Elf.swapped, Elf.swapped, hhdr, hident]
    constructor
    · unfold phdrEnd
      simp only [hhas, hphnum]
    · unfold LoadsPhdrs
      rw [hhas, hswap, hphnum, hhdr, hoff, hsame]

theorem frontPart_exactly (hlayout : fl.layout = false) (hgood : GoodIdent ec (e.hdr env ec).eIdent)
    (hb : e.scns = [b]) (hle : b.cnt ≤ b.max) (hphdr : e.phdr = none) (hclass : e.elfClass = some ec) :
    (frontPart env fl ec shnum e).Exactly
      ((∃ h, e.header env ec .all = .ok h e) ∧ (e.hdr env ec).eVersion < 2 ∧ LoadsPhdrs env ec e)
      fun size e' => size = phdrEnd env ec e ∧ ∃ h ps, e' = e.withHdrs h ps ∧ SameKind (e.hdr env ec) h := by
  have hread : (e.header env ec .all).Exactly (∃ h, e.header env ec .all = .ok h e) fun h e' =>
      e' = e ∧ h = e.hdr env ec := by
    constructor
    · intro h e' hh
      obtain ⟨rfl, rfl⟩ := header_value hh
      exact ⟨⟨_, hh⟩, rfl, rfl⟩
    · rintro ⟨h, hh⟩
      exact ⟨h, e, hh⟩
  unfold frontPart
  refine exactly_bind hread ?_
  rintro h e' ⟨rfl, rfl⟩
  unfold defaultEhdr
  rw [defaultIdent_good hgood]
  simp only
  by_cases hversion : 2 ≤ (e'.hdr env ec).eVersion
  · rw [if_pos hversion]
    exact exactly_err fun h => absurd h.1 (UInt32.not_lt.mpr hversion)
  · rw [if_neg hversion]
    generalize hdef : ({ e'.hdr env ec with
        eIdent := (e'.hdr env ec).eIdent
        eVersion := 1
        eShnum := if shnLoreserve ≤ shnum then 0 else UInt16.ofNat shnum
        eEhsize := UInt16.ofNat (ehdrSize ec)
        ePhoff := if (e'.hdr env ec).ePhnum = 0 then 0 else (e'.hdr env ec).ePhoff } : Ehdr) = h
    obtain ⟨hend, hloads⟩ := @phdrs_default env ec e' (e'.setHdr h) h rfl (by rw [← hdef]) (by rw [← hdef])
      (by rw [← hdef]) rfl
    refine exactly_mono (placePhdrs_exactly (e := e'.setHdr h) hlayout rfl hb hle hphdr hclass) ?_ ?_
    · rw [hloads]
      exact ⟨fun h => ⟨UInt32.not_le.mp hversion, h⟩, And.right⟩
    · rintro size t - ⟨hsize, off, ps, rfl⟩
      refine ⟨hsize.trans hend, { h with ePhoff := off }, ps, rfl, ?_⟩
      rw [← hdef]
      exact ⟨rfl, rfl, rfl, rfl⟩

end Front

/-! ## The section headers -/

section Headers

variable {env : Env} {ec : ElfClass} {fl : UpdateFlags} {e e' e₀ e₁ a a₁ b : Elf} {c : ScnList} {shnum : Nat} {hdr : Ehdr}
  {size : UInt64} {p q : ScnHandle} {ps : List ScnHandle}

/-- The number of sections, where it has to be in section header 0. -/
def storeShnum (shnum : Nat) (e : Elf) : Call Unit :=
  if shnum < shnLoreserve then .ok () e
  else (e.scn (0, 0)).bind fun s e =>
    match s.shdr with
    | none => .stop .null
    | some h => .ok () (e.setShdr (0, 0) { h with shSize := .ofNat shnum })

/-- The table of the section headers, where it is not there. -/
def loadHeaders (env : Env) (e : Elf) : Call Unit :=
  match scn1 e with
  | none => .ok () e
  | some p => (e.scn p).bind fun s e => if s.shdr.isSome then .ok () e else (getShdr env p e).ignore

/-- The sections that the loop goes over, of `n` in one block. -/
def handles (n : Nat) : List ScnHandle := ((List.range n).drop 1).map fun i => (0, i)

theorem mem_handles {n : Nat} : p ∈ handles n ↔ p.1 = 0 ∧ 1 ≤ p.2 ∧ p.2 < n := by
  rw [handles, List.range_eq_range', List.drop_range', List.mem_map]
  constructor
  · rintro ⟨i, hi, rfl⟩
    rw [List.mem_range'_1] at hi
    exact ⟨rfl, by omega, by omega⟩
  · rintro ⟨h₁, h₂, h₃⟩
    refine ⟨p.2, ?_, Prod.ext h₁.symm rfl⟩
    rw [List.mem_range'_1]
    omega

theorem nodup_handles (n : Nat) : (handles n).Nodup := by
  rw [handles, List.range_eq_range', List.drop_range']
  exact List.Pairwise.map _ (fun i j hij h => hij (congrArg Prod.snd h)) List.nodup_range'

theorem placeScns_eq (hlayout : fl.layout = false) (hc : e.scns = [c]) (hpos : c.cnt ≠ 0) :
    placeScns env fl ec hdr shnum size e = ((storeShnum shnum e).bind fun _ e => loadHeaders env e).bind fun _ e =>
      (updateBlocks env fl ec hdr 0 e.scns (size, false) e).bind fun st e =>
      .ok (alignOffset st.1 (offSize ec) + .ofNat (shnum * shdrSize ec))
        (e.setHdr { hdr with
          eShentsize := .ofNat (shdrSize ec)
          eShoff := (alignOffset st.1 (offSize ec)).toUInt32.toUInt64 }) := by
  unfold placeScns
  rw [hc, Outcome.bind_assoc]
  simp only [List.head?_cons, Option.map_some, Option.getD_some, if_neg hpos, hlayout, Bool.false_eq_true, if_false]
  rfl

/-- The loop over one block. -/
theorem updateBlocks_single {st : UInt64 × Bool} : updateBlocks env fl ec hdr 0 [c] st e =
    each (updateScn env fl ec hdr) (handles c.cnt) st e := by
  unfold updateBlocks
  have hlast : ∀ st e, (if ([] : List ScnList) ≠ [] ∧ c.cnt ≠ c.max then .stop .assertion
      else updateBlocks env fl ec hdr (0 + 1) [] st e : Call (UInt64 × Bool)) = .ok st e := fun st e =>
    if_neg fun h => h.1 rfl
  simp only [hlast]
  cases hrun : each (updateScn env fl ec hdr) (handles c.cnt) st e <;>
    exact congrArg (fun x => Outcome.bind x fun st e => .ok st e) hrun

/-- All headers that are looked for are there. -/
theorem loadHeaders_present (hc : e.scns = [c]) (h : 1 < c.cnt → (e.shdrAt (0, 1)).isSome) :
    loadHeaders env e = .ok () e := by
  unfold loadHeaders scn1
  rw [hc]
  by_cases hlt : 1 < c.cnt
  · obtain ⟨h', hh⟩ := Option.isSome_iff_exists.mp (h hlt)
    obtain ⟨s, hs, hshdr⟩ := Option.bind_eq_some_iff.mp hh
    simp only [if_pos hlt]
    rw [scn_of_entry hs, bind_ok, hshdr]
    rfl
  · simp only [if_neg hlt]
    rfl

structure Steps (n : Nat) (e₁ e a b a₁ b₁ : Elf) : Prop where
  same : SameBut a a₁
  same' : SameBut b b₁
  shape : shape a₁.scns = shape a.scns
  shape' : Elfutils.shape b₁.scns = Elfutils.shape b.scns
  headers : ∀ q h, a₁.shdrAt q = some h → b₁.shdrAt q = some h
  entries : ∀ p ∈ handles n, Chain.entry a₁.scns p = Chain.entry e₁.scns p ∧ Chain.entry b₁.scns p = Chain.entry e.scns p

theorem withHdrs_sameTable {h : Ehdr} {phdrs : Option Phdrs} (hclass : e.elfClass = some ec)
    (hk : SameKind (e.hdr env ec) h) : SameTable env ec e (e.withHdrs h phdrs) := by
  have hec : e.elfClass.getD .elfclass64 = ec := by rw [hclass]; rfl
  have halike : Alike env e (e.withHdrs h phdrs) := by
    refine ⟨rfl, rfl, rfl, rfl, rfl, rfl, ?_, ?_⟩
    · rw [hec]
      exact hk.ident
    · rw [hec]
      exact hk.machine
  exact ⟨halike, hclass, rfl, rfl, rfl, hk.shoff, h, rfl⟩

/-- The number of sections is stored in the header of section 0, if it is there. -/
theorem storeShnum_ok (hrun : storeShnum shnum e = .ok () e') : shnum < shnLoreserve ∧ e' = e ∨
    shnLoreserve ≤ shnum ∧ ∃ s h, Chain.entry e.scns (0, 0) = some s ∧ s.shdr = some h := by
  unfold storeShnum at hrun
  split at hrun
  · next hlt => exact .inl ⟨hlt, (Outcome.ok.inj hrun).2.symm⟩
  · next hge =>
    obtain ⟨s, t, hscn, hrest⟩ := bind_eq_ok.mp hrun
    obtain ⟨hs, rfl⟩ := scn_ok hscn
    split at hrest
    · cases hrest
    · next h hh => exact .inr ⟨Nat.le_of_not_lt hge, s, h, hs, hh⟩

theorem storeShnum_of {s : Scn} {h : Shdr} (hge : shnLoreserve ≤ shnum) (hs : Chain.entry e.scns (0, 0) = some s)
    (hh : s.shdr = some h) : ∃ s', storeShnum shnum e = .ok () (e.put (0, 0) s') ∧
      s'.shdr = some { h with shSize := .ofNat shnum } ∧ s'.index = s.index := by
  rw [storeShnum, if_neg (Nat.not_lt.mpr hge), scn_of_entry hs, bind_ok, hh]
  exact ⟨_, congrArg (Outcome.ok ()) (setScn_eq_put hs), rfl, rfl⟩

/-- The table that is read behind the defaults is the one that was read in front of them. -/
theorem loadHeaders_absent (hc : a.scns = [c]) (hlt : 1 < c.cnt) (hclass : a.elfClass = some ec) (hhdr : HasHdr a)
    {s : Scn} (hs : Chain.entry a.scns (0, 1) = some s) (hh : s.shdr = none)
    (hload : loadTable env ec a = .ok () e') (hsome : (e'.shdrAt (0, 1)).isSome) : loadHeaders env a = .ok () e' := by
  obtain ⟨h, hcopied⟩ := hhdr
  obtain ⟨h', hh'⟩ := Option.isSome_iff_exists.mp hsome
  obtain ⟨s', hs', hshdr'⟩ := Option.bind_eq_some_iff.mp hh'
  unfold loadHeaders scn1
  rw [hc]
  simp only [if_pos hlt]
  rw [scn_of_entry hs, bind_ok, if_neg (by rw [hh]; exact nofun),
    getShdr_absent (by rw [hcopied]; rfl) hclass hs hh, hload, bind_ok, scn_of_entry hs', bind_ok, hshdr']
  rfl

theorem shape_single {bs : List ScnList} (h : shape bs = shape [c]) :
    ∃ c', bs = [c'] ∧ c'.cnt = c.cnt ∧ c'.data.map Scn.index = c.data.map Scn.index := by
  have hlen : bs.length = 1 := by simpa [shape] using congrArg List.length h
  obtain ⟨c', rfl⟩ := List.length_eq_one_iff.mp hlen
  have hpair := List.singleton_inj.mp h
  exact ⟨c', rfl, congrArg Prod.fst hpair, congrArg Prod.snd hpair⟩

theorem Holds.shdrAt {h : Shdr} (hh : Holds env ps e₁ e) (hq : e₁.shdrAt q = some h) : e.shdrAt q = some h := by
  obtain ⟨s, hs, hshdr⟩ := Option.bind_eq_some_iff.mp hq
  obtain ⟨s', hs', hsame, -⟩ := hh.entries q s hs
  rw [shdrAt_of_entry hs', hsame, hshdr]

variable {hA hB : Ehdr} {pA pB : Option Phdrs}

/-- In place, the headers stay as they are but for the number of sections. -/
theorem steps_inPlace (hu : Untouched env ec e₁) (hw : WithHeaders env ec e₁ e₁) (hh : Holds env ps e₁ e)
    (hrun : ((storeShnum e₁.sections.length (e₁.withHdrs hA pA)).bind fun _ e => loadHeaders env e) = .ok () a₁) :
    ∃ b₁, ((storeShnum e₁.sections.length (e.withHdrs hB pB)).bind fun _ e => loadHeaders env e) = .ok () b₁ ∧
      Steps e₁.sections.length e₁ e (e₁.withHdrs hA pA) (e.withHdrs hB pB) a₁ b₁ := by
  obtain ⟨c, hc, -, hle, hcnt⟩ := hu.session.block
  obtain ⟨c', hc', hcnt', -⟩ := shape_single (hc ▸ hh.shape)
  have hall : ∀ i < c.cnt, (e₁.shdrAt (0, i)).isSome := fun i hi => hw.all i (by omega)
  have hall' : ∀ i < c.cnt, (e.shdrAt (0, i)).isSome := by
    intro i hi
    obtain ⟨h, hh'⟩ := Option.isSome_iff_exists.mp (hall i hi)
    rw [hh.shdrAt hh']
    rfl
  obtain ⟨u, t, hstore, hload⟩ := bind_eq_ok.mp hrun
  rcases storeShnum_ok hstore with ⟨hlt, rfl⟩ | ⟨hge, s, h, hs, hsh⟩
  · rw [loadHeaders_present (e := e₁.withHdrs hA pA) hc fun h => hall 1 h] at hload
    obtain ⟨-, rfl⟩ := Outcome.ok.inj hload
    refine ⟨e.withHdrs hB pB, ?_, .refl _, .refl _, rfl, rfl, fun q h hq => hh.shdrAt hq, fun _ _ => ⟨rfl, rfl⟩⟩
    rw [storeShnum, if_pos hlt, bind_ok]
    exact loadHeaders_present (e := e.withHdrs hB pB) hc' fun h => hall' 1 (hcnt' ▸ h)
  · obtain ⟨s₁, hok, hs₁, hindex⟩ := storeShnum_of hge hs hsh
    obtain ⟨sb, hsb, hshb, -⟩ := hh.entries (0, 0) s hs
    obtain ⟨s₂, hok', hs₂, hindex'⟩ := @storeShnum_of (e.withHdrs hB pB) _ sb h hge hsb (hshb.trans hsh)
    rw [hok] at hstore
    obtain ⟨-, rfl⟩ := Outcome.ok.inj hstore
    have hshape : shape ((e₁.withHdrs hA pA).put (0, 0) s₁).scns = shape e₁.scns := shape_put hs hindex
    have hshape' : shape ((e.withHdrs hB pB).put (0, 0) s₂).scns = shape e.scns := shape_put hsb hindex'
    obtain ⟨d, hd, hdcnt, -⟩ := shape_single (hc ▸ hshape)
    obtain ⟨d', hd', hdcnt', -⟩ := shape_single (hc' ▸ hshape')
    have hone : ((0, 1) : ScnHandle) ≠ (0, 0) := by decide
    rw [loadHeaders_present hd fun h => by rw [shdrAt_put_ne hone]; exact hall 1 (hdcnt ▸ h)] at hload
    obtain ⟨-, rfl⟩ := Outcome.ok.inj hload
    refine ⟨(e.withHdrs hB pB).put (0, 0) s₂, ?_, .put _ _ _, .put _ _ _, hshape, hshape', fun q h' hq => ?_,
      fun p hp => ?_⟩
    · rw [hok', bind_ok]
      exact loadHeaders_present hd' fun h => by
        rw [shdrAt_put_ne hone]
        exact hall' 1 (by omega)
    · by_cases hq0 : q = (0, 0)
      · subst hq0
        rw [shdrAt_of_entry (entry_put hs), hs₁] at hq
        rw [shdrAt_of_entry (entry_put (e := e.withHdrs hB pB) hsb), hs₂, hq]
      · rw [shdrAt_put_ne hq0] at hq ⊢
        exact hh.shdrAt hq
    · have hne : p ≠ (0, 0) := by
        rintro rfl
        exact absurd (mem_handles.mp hp).2.1 (by decide)
      exact ⟨entry_put_ne hne, entry_put_ne hne⟩

/-- Not in place, the headers are read now, or they were for the data. -/
theorem steps_loaded (hu : Untouched env ec e₀) (hw : WithHeaders env ec e₀ e₁) (hh : Holds env ps e₁ e)
    (hnone : ∀ q s, Chain.entry e₀.scns q = some s → s.shdr = none) (htable : loadTable env ec e₀ = .ok () e₁)
    (hkind : SameKind (e₀.hdr env ec) hA)
    (hrun : ((storeShnum e₀.sections.length (e₀.withHdrs hA pA)).bind fun _ e => loadHeaders env e) = .ok () a₁) :
    ∃ b₁, ((storeShnum e₀.sections.length (e.withHdrs hB pB)).bind fun _ e => loadHeaders env e) = .ok () b₁ ∧
      Steps e₀.sections.length e₁ e (e₀.withHdrs hA pA) (e.withHdrs hB pB) a₁ b₁ := by
  obtain ⟨c, hc, -, hle, hcnt⟩ := hu.session.block
  obtain ⟨c', hc', hcnt', -⟩ := shape_single (hc ▸ (hh.shape.trans hw.shape))
  obtain ⟨u, t, hstore, hload⟩ := bind_eq_ok.mp hrun
  rcases storeShnum_ok hstore with ⟨hlt, rfl⟩ | ⟨-, s, h, hs, hsh⟩
  · have hload' : loadHeaders env (e.withHdrs hB pB) = .ok () (e.withHdrs hB pB) := by
      refine loadHeaders_present (e := e.withHdrs hB pB) hc' fun hone => ?_
      obtain ⟨h, hh'⟩ := Option.isSome_iff_exists.mp (hw.all 1 (by omega))
      exact Option.isSome_iff_exists.mpr ⟨h, hh.shdrAt hh'⟩
    refine ⟨e.withHdrs hB pB, by rw [storeShnum, if_pos hlt, bind_ok, hload'], ?_⟩
    by_cases hone : 1 < c.cnt
    · obtain ⟨s, hs, -⟩ := hu.entry (p := (0, 1)) ⟨rfl, by omega⟩
      have htable' := (@withHdrs_sameTable env _ _ _ pA hu.opened.elfClass hkind).loadTable htable
      rw [loadHeaders_absent (a := e₀.withHdrs hA pA) hc hone hu.opened.elfClass ⟨hA, rfl⟩ hs (hnone _ s hs) htable'
        (hw.all 1 (by omega))] at hload
      obtain ⟨-, rfl⟩ := Outcome.ok.inj hload
      exact ⟨rfl, .refl _, hw.shape, rfl, fun q h hq => hh.shdrAt hq, fun _ _ => ⟨rfl, rfl⟩⟩
    · -- there is nothing to read the table for
      rw [loadHeaders_present (e := e₀.withHdrs hA pA) hc fun h => absurd h hone] at hload
      obtain ⟨-, rfl⟩ := Outcome.ok.inj hload
      refine ⟨.refl _, .refl _, rfl, rfl, fun q h hq => ?_, fun p hp => ?_⟩
      · obtain ⟨s, hs, hshdr⟩ := Option.bind_eq_some_iff.mp hq
        rw [hnone q s hs] at hshdr
        cases hshdr
      · have hin := mem_handles.mp hp
        omega
  · rw [hnone _ s hs] at hsh
    cases hsh

/-- Both updates come to the loop with the same headers. -/
theorem steps_of (hu : Untouched env ec e₀) (hw : WithHeaders env ec e₀ e₁) (hh : Holds env ps e₁ e)
    (hkind : SameKind (e₀.hdr env ec) hA)
    (hrun : ((storeShnum e₀.sections.length (e₀.withHdrs hA pA)).bind fun _ e => loadHeaders env e) = .ok () a₁) :
    ∃ b₁, ((storeShnum e₀.sections.length (e.withHdrs hB pB)).bind fun _ e => loadHeaders env e) = .ok () b₁ ∧
      Steps e₀.sections.length e₁ e (e₀.withHdrs hA pA) (e.withHdrs hB pB) a₁ b₁ := by
  rcases hw.source with rfl | ⟨hnone, htable⟩
  · exact steps_inPlace hu hw hh hrun
  · exact steps_loaded hu hw hh hnone htable hkind hrun

/-- The two objects are as the loop needs them. -/
theorem Steps.beside {b₁ : Elf} (hu : Untouched env ec e₀) (hw : WithHeaders env ec e₀ e₁) (hh : Holds env ps e₁ e)
    (hkA : SameKind (e₀.hdr env ec) hA) (hkB : SameKind (e.hdr env ec) hB)
    (hs : Steps e₀.sections.length e₁ e (e₀.withHdrs hA pA) (e.withHdrs hB pB) a₁ b₁) :
    Beside env ec (handles e₀.sections.length) a₁ b₁ := by
  have hclass : e.elfClass = some ec := hh.same.elfClass.trans (hw.same.elfClass.trans hu.opened.elfClass)
  have hsameA := @withHdrs_sameTable env _ _ _ pA hu.opened.elfClass hkA
  have hsameB := @withHdrs_sameTable env _ _ _ pB hclass hkB
  have halikeA : Alike env e₀ a₁ := hsameA.alike.trans hs.same.alike
  have halikeB : Alike env e b₁ := hsameB.alike.trans hs.same'.alike
  have hread : Alike env e₀ e := hw.same.alike.trans hh.same.alike
  have hhdrA : HasHdr a₁ := ⟨hA, hs.same.ehdr⟩
  have hhdrB : HasHdr b₁ := ⟨hB, hs.same'.ehdr⟩
  have hident : (e.hdr env ec).eIdent = (e₀.hdr env ec).eIdent := by
    rw [hh.same.hdr, hw.same.hdr]
  have hversion : ∀ {t : Elf} {h : Ehdr}, t.ehdr = some (.copied h) → h.eIdent = (e₀.hdr env ec).eIdent →
      (t.hdr env ec).eIdent.toList.getD eiVersion 0 = 1 := by
    intro t h ht hi
    rw [Elf.hdr, ht]
    exact (congrArg (fun id : Toolchain.Ident => id.toList.getD eiVersion 0) hi).trans hu.ident.version
  have hboth : ∀ p ∈ handles e₀.sections.length, ∃ s s' h, Twin env a₁ b₁ p s s' h := by
    intro p hp
    obtain ⟨hentry, hentry'⟩ := hs.entries p hp
    obtain ⟨hp₁, -, hp₂⟩ := mem_handles.mp hp
    obtain ⟨h, hh'⟩ := Option.isSome_iff_exists.mp (hw.all p.2 hp₂)
    rw [show ((0, p.2) : ScnHandle) = p from Prod.ext hp₁.symm rfl] at hh'
    obtain ⟨s, hss, hshdr⟩ := Option.bind_eq_some_iff.mp hh'
    obtain ⟨s', hss', hshdr', hcase⟩ := hh.entries p s hss
    refine ⟨s, s', h, hentry.trans hss, hentry'.trans hss', hshdr, hshdr'.trans hshdr, hw.unread p s hss, ?_⟩
    rcases hcase with ⟨-, rfl⟩ | ⟨-, h', r, d, hraw, hl, -⟩
    · exact .inl (hw.unread p s' hss)
    · obtain rfl : h' = h := Option.some.inj (hl.shdr.symm.trans (hshdr'.trans hshdr))
      exact .inr ⟨r, (hw.same.alike.symm.trans halikeA).isRaw hraw, hl.alike halikeB hhdrB hentry'⟩
  refine ⟨halikeA.symm.trans (hread.trans halikeB), ?_, ?_, hs.headers, hboth⟩
  · refine ⟨hs.same.kind.trans hu.opened.kind, hhdrA, ?_, hversion hs.same.ehdr hkA.ident, nodup_handles _, ?_⟩
    · rw [hs.same.elfClass]
      exact hsameA.class_getD
    · intro p hp
      obtain ⟨s, s', h, ht⟩ := hboth p hp
      exact ⟨s, ht.entry, .inl ht.unread⟩
  · refine ⟨?_, hhdrB, ?_, hversion hs.same'.ehdr (hkB.ident.trans hident), nodup_handles _, ?_⟩
    · exact hs.same'.kind.trans (hh.same.kind.trans (hw.same.kind.trans hu.opened.kind))
    · rw [hs.same'.elfClass]
      exact hsameB.class_getD
    · intro p hp
      obtain ⟨s, s', h, ht⟩ := hboth p hp
      refine ⟨s', ht.entry', ht.data.imp id ?_⟩
      rintro ⟨r, hraw, hl⟩
      exact ⟨h, r, (halikeA.symm.trans (hread.trans halikeB)).isRaw hraw, hl⟩

end Headers

/-! ## The number of sections -/

section Number

variable {env : Env} {ec : ElfClass} {fl : UpdateFlags} {e e₀ : Elf} {c c' : ScnList} {n : Nat}

theorem updateShnum_single (hc : e.scns = [c]) (hindex : ∀ i < c.cnt, (c.data.map Scn.index)[i]? = some i) :
    updateShnum e = .ok c.cnt e := by
  unfold updateShnum
  rw [hc]
  simp only [List.getLast?_singleton]
  by_cases hz : c.cnt = 0
  · rw [if_pos hz, hz]
  · rw [if_neg hz]
    have hlast := hindex (c.cnt - 1) (by omega)
    rw [List.getElem?_map] at hlast
    obtain ⟨s, hs, hi⟩ := Option.map_eq_some_iff.mp hlast
    rw [hs]
    show Outcome.ok (1 + s.index) e = _
    rw [hi, Nat.add_sub_cancel' (Nat.pos_of_ne_zero hz)]

theorem Untouched.index (hu : Untouched env ec e) (hc : e.scns = [c]) :
    ∀ i < c.cnt, (c.data.map Scn.index)[i]? = some i := by
  obtain ⟨c₁, hc₁, hused, hle, hcnt⟩ := hu.session.block
  obtain rfl := List.singleton_inj.mp (hc.symm.trans hc₁)
  intro i hi
  have hmap := congrArg (·[i]?) hu.session.blocks.index
  rw [List.getElem?_map, List.getElem?_range (by omega), hused, Block.getElem?_used hi, ← List.getElem?_map] at hmap
  exact hmap

theorem elfUpdateNull_eq (hk : e.kind = .elf) (he : e.ehdr.isSome) (hclass : e.elfClass = some ec)
    (hn : updateShnum e = .ok n e) : elfUpdateNull env fl e = updatenull env fl ec n e := by
  have hne : ¬ e.ehdr = none := fun h => by
    rw [h] at he
    cases he
  rw [elfUpdateNull, if_neg (not_not.mpr hk), if_neg hne, hn, bind_ok, hclass]
  rfl

end Number

/-! ## The update -/

/-- The headers of `e` are those of `e'`. -/
def SameHeaders (e e' : Elf) : Prop := ∀ q h, e.shdrAt q = some h → e'.shdrAt q = some h

/-- The alignment of the data of a section, that of its header cut to its place in the file, is a power of two and not
above that of its header. -/
def KeepsAlign (ec : ElfClass) (e : Elf) (h : Shdr) : Prop :=
  powerof2Long (.ofNat (dataAlign e h)) ∧
    (max (scnAlign ec h).toUInt64 (.ofNat (dataAlign e h))).toUInt32 = scnAlign ec h

instance (ec : ElfClass) (e : Elf) (h : Shdr) : Decidable (KeepsAlign ec e h) := inferInstanceAs (Decidable (_ ∧ _))

/-- What comes behind the program headers, section 1 of `n` sections or the table of section headers, is put at the same
place whether they end at `x` or at `y`. -/
def SamePlace (ec : ElfClass) (n : Nat) (e : Elf) (x y : UInt64) : Prop :=
  if 1 < n then ∀ h, e.shdrAt (0, 1) = some h → alignSize y (scnAlign ec h) = alignSize x (scnAlign ec h)
  else alignOffset y (offSize ec) = alignOffset x (offSize ec)

theorem SamePlace.refl (ec : ElfClass) (n : Nat) (e : Elf) (x : UInt64) : SamePlace ec n e x x := by
  unfold SamePlace
  split
  · exact fun _ _ => rfl
  · rfl

section Update

variable {env : Env} {ec : ElfClass} {fl : UpdateFlags} {e e' e₀ e₁ a b a₁ b₁ a₂ b₂ eA : Elf} {c : ScnList} {n : Nat}
  {p q : ScnHandle} {ps : List ScnHandle} {hA hB : Ehdr} {pA pB : Option Phdrs} {size x y : UInt64}
  {st st' : UInt64 × Bool}

theorem sameTypes_of {h : Ehdr} (hkA : SameKind h hA) (hkB : SameKind h hB) : SameTypes ec hA hB := by
  intro s
  have hhash : shEntsizeHash hB = shEntsizeHash hA := by
    rw [shEntsizeHash, shEntsizeHash, hkA.machine, hkB.machine, hkA.ident, hkB.ident]
  unfold scnEntsize
  rw [hhash, hkA.type, hkB.type]

/-- A section is calm for the loop where its data keep the alignment. -/
theorem Steps.calm_iff (hw : WithHeaders env ec e₀ e₁) (hh : Holds env ps e₁ e) (hs : Steps n e₁ e a b a₁ b₁)
    (hp : p ∈ handles n) (hall : (e₁.shdrAt p).isSome) :
    Calm ec b₁ p ↔ (p ∈ ps → ∀ h, e.shdrAt p = some h → KeepsAlign ec e h) := by
  obtain ⟨h, hh'⟩ := Option.isSome_iff_exists.mp hall
  obtain ⟨s, hss, hshdr⟩ := Option.bind_eq_some_iff.mp hh'
  obtain ⟨s', hss', hshdr', hcase⟩ := hh.entries p s hss
  have hentry := (hs.entries p hp).2.trans hss'
  have hheader : s'.shdr = some h := hshdr'.trans hshdr
  have hat : e.shdrAt p = some h := (shdrAt_of_entry hss').trans hheader
  have hcalm : Calm ec b₁ p ↔ Lays s' ∧ blockAlign s' (scnAlign ec h) = scnAlign ec h := by
    constructor
    · exact fun hc => hc s' h hentry hheader
    · intro hc s₁ h₁ hs₁ hh₁
      obtain rfl := Option.some.inj (hentry.symm.trans hs₁)
      obtain rfl := Option.some.inj (hheader.symm.trans hh₁)
      exact hc
  rw [hcalm]
  rcases hcase with ⟨hnot, rfl⟩ | ⟨hmem, h', r, d, hraw, hl, hlist⟩
  · have hunread := hw.unread p s' hss
    refine ⟨fun _ h => absurd h hnot, fun _ => ⟨?_, ?_⟩⟩
    · rw [Lays, hunread.2.2]
      rintro _ ⟨⟩
    · rw [blockAlign, hunread.2.2]
  · obtain rfl : h' = h := Option.some.inj (hl.shdr.symm.trans hheader)
    obtain ⟨d', hd', hblock⟩ := hl.list.resolve_left (by rw [hlist]; exact List.cons_ne_nil _ _)
    obtain rfl : d' = d := List.singleton_inj.mp (hd'.symm.trans hlist)
    have halign : d'.dAlign = dataAlign e h' := by
      rw [hblock.fields.2.2.2, hraw.align, @Alike.dataAlign env _ _ hh.same.alike]
    have hkeeps : Lays s' ∧ blockAlign s' (scnAlign ec h') = scnAlign ec h' ↔ KeepsAlign ec e h' := by
      rw [Lays, blockAlign, hlist, List.forall_mem_singleton, KeepsAlign, ← halign]
    rw [hkeeps]
    constructor
    · intro hk _ h₁ hh₁
      obtain rfl := Option.some.inj (hat.symm.trans hh₁)
      exact hk
    · exact fun hk => hk hmem h' hat

/-- The last part of the update: the loop, and the place of the table of section headers. -/
theorem sections_iff (hlayout : fl.layout = false) (hbeside : Beside env ec (handles n) a₁ b₁)
    (htypes : SameTypes ec hA hB) (hfirst : ∀ h, 1 < n → (b₁.shdrAt (0, 1) = some h ↔ e.shdrAt (0, 1) = some h))
    (hrunA : each (updateScn env fl ec hA) (handles n) (x, false) a₁ = .ok st a₂) :
    (∃ st' b₂, each (updateScn env fl ec hB) (handles n) (y, false) b₁ = .ok st' b₂ ∧
        alignOffset st'.1 (offSize ec) = alignOffset st.1 (offSize ec) ∧ SameHeaders a₂ b₂) ↔
      (∀ p ∈ handles n, Calm ec b₁ p) ∧ SamePlace ec n e x y := by
  by_cases hone : 1 < n
  · obtain ⟨rest, hcons⟩ : ∃ rest, handles n = (0, 1) :: rest := by
      obtain ⟨m, rfl⟩ : ∃ m, n = m + 2 := ⟨n - 2, by omega⟩
      exact ⟨(List.range' 2 m).map fun i => (0, i), by
        rw [handles, List.range_eq_range', List.drop_range']
        rfl⟩
    have hstart : SameStart ec b₁ (handles n) x y ↔ SamePlace ec n e x y := by
      rw [hcons, SamePlace, if_pos hone]
      exact forall_congr' fun h => imp_congr_left (hfirst h hone)
    constructor
    · rintro ⟨st', b₂, hrunB, -, hsame⟩
      obtain ⟨hcalm, hplace, -⟩ := calm_of_each hlayout htypes hbeside
        (fun hnil => by rw [hcons] at hnil; cases hnil) hrunA hrunB hsame
      exact ⟨hcalm, hstart.mp hplace⟩
    · rintro ⟨hcalm, hplace⟩
      obtain ⟨b₂, hrunB, hsame⟩ := each_calm hlayout htypes hbeside hcalm (hstart.mpr hplace) hrunA
      exact ⟨st, b₂, hrunB, rfl, hsame⟩
  · have hnil : handles n = [] := by
      refine List.eq_nil_iff_forall_not_mem.mpr fun p hp => ?_
      have hin := mem_handles.mp hp
      omega
    rw [hnil] at hrunA ⊢
    obtain ⟨rfl, rfl⟩ := Outcome.ok.inj hrunA
    rw [SamePlace, if_neg hone]
    constructor
    · rintro ⟨st', b₂, hrunB, hend, -⟩
      obtain ⟨rfl, rfl⟩ := Outcome.ok.inj hrunB
      exact ⟨nofun, hend⟩
    · rintro ⟨-, hend⟩
      exact ⟨(y, false), b₁, rfl, hend, hbeside.headers⟩

/-- An object that an update can start on, with `n` sections in one block. -/
structure Updatable (env : Env) (ec : ElfClass) (n : Nat) (e : Elf) : Prop where
  kind : e.kind = .elf
  ehdr : e.ehdr.isSome
  elfClass : e.elfClass = some ec
  phdr : e.phdr = none
  ident : GoodIdent ec (e.hdr env ec).eIdent
  scns : ∃ c, e.scns = [c] ∧ c.cnt = n ∧ c.cnt ≤ c.max ∧ ∀ i < c.cnt, (c.data.map Scn.index)[i]? = some i

theorem Untouched.updatable (hu : Untouched env ec e) : Updatable env ec e.sections.length e := by
  obtain ⟨c, hc, -, hle, hcnt⟩ := hu.session.block
  exact ⟨hu.opened.kind, hu.opened.ehdr, hu.opened.elfClass, hu.opened.phdr, hu.ident, c, hc, hcnt, hle, hu.index hc⟩

theorem Holds.updatable (hu : Untouched env ec e₀) (hw : WithHeaders env ec e₀ e₁) (hh : Holds env ps e₁ e) :
    Updatable env ec e₀.sections.length e := by
  have hsame := hw.same.trans hh.same
  have hphdr : e.phdr = e₀.phdr := by rw [hsame]; rfl
  obtain ⟨c, hc, hcnt, hle, hindex⟩ := hu.updatable.scns
  obtain ⟨c', hc', hcnt', hdata⟩ := shape_single (hc ▸ hh.shape.trans hw.shape)
  have hmax : c'.max = c.max := by simpa [Block.max] using congrArg List.length hdata
  refine ⟨hsame.kind.trans hu.opened.kind, by rw [hsame.ehdr]; exact hu.opened.ehdr,
    hsame.elfClass.trans hu.opened.elfClass, hphdr.trans hu.opened.phdr, by rw [hsame.hdr]; exact hu.ident,
    c', hc', hcnt'.trans hcnt, by rw [hcnt', hmax]; exact hle, ?_⟩
  rw [hcnt', hdata]
  exact hindex

namespace Updatable

/-- The part in front of the sections. -/
theorem front (hlayout : fl.layout = false) (hu : Updatable env ec n e) :
    (frontPart env fl ec n e).Exactly
      ((∃ h, e.header env ec .all = .ok h e) ∧ (e.hdr env ec).eVersion < 2 ∧ LoadsPhdrs env ec e)
      fun size e' => size = phdrEnd env ec e ∧ ∃ h ps, e' = e.withHdrs h ps ∧ SameKind (e.hdr env ec) h := by
  obtain ⟨c, hc, -, hle, -⟩ := hu.scns
  exact frontPart_exactly hlayout hu.ident hc hle hu.phdr hu.elfClass

/-- The update, part by part. -/
theorem update_eq (hu : Updatable env ec n e) (hpos : n ≠ 0) :
    elfUpdateNull env fl e = (frontPart env fl ec n e).bind fun size e =>
      (e.header env ec .all).bind fun h e => placeScns env fl ec h n size e := by
  obtain ⟨c, hc, rfl, -, hindex⟩ := hu.scns
  rw [elfUpdateNull_eq hu.kind hu.ehdr hu.elfClass (updateShnum_single hc hindex), updatenull_eq]
  simp only [if_neg hpos]

end Updatable

/-- What comes behind the part in front of the sections. -/
theorem placeScns_withHdrs (hlayout : fl.layout = false) (hu : Updatable env ec n e) (hpos : n ≠ 0) :
    (((e.withHdrs hA pA).header env ec .all).bind fun h e => placeScns env fl ec h n size e) =
      ((storeShnum n (e.withHdrs hA pA)).bind fun _ e => loadHeaders env e).bind fun _ e =>
        (updateBlocks env fl ec hA 0 e.scns (size, false) e).bind fun st e =>
        .ok (alignOffset st.1 (offSize ec) + .ofNat (n * shdrSize ec))
          (e.setHdr { hA with
            eShentsize := .ofNat (shdrSize ec)
            eShoff := (alignOffset st.1 (offSize ec)).toUInt32.toUInt64 }) := by
  obtain ⟨c, hc, hcnt, -, -⟩ := hu.scns
  exact placeScns_eq (e := e.withHdrs hA pA) hlayout hc (by omega)

/-- Behind the program headers, the update gives the same where the sections are put to the same place and keep their
alignment. -/
theorem placeScns_holds_iff (hlayout : fl.layout = false) (hu : Untouched env ec e₀) (hw : WithHeaders env ec e₀ e₁)
    (hh : Holds env ps e₁ e) (hmem : ∀ p ∈ ps, p.1 = 0 ∧ p.2 < e₀.sections.length) (hpos : e₀.sections.length ≠ 0)
    (hkA : SameKind (e₀.hdr env ec) hA) (hkB : SameKind (e.hdr env ec) hB)
    (hrun : (((e₀.withHdrs hA pA).header env ec .all).bind fun h e => placeScns env fl ec h e₀.sections.length x e) =
      .ok size eA) :
    (∃ eB, (((e.withHdrs hB pB).header env ec .all).bind fun h e =>
        placeScns env fl ec h e₀.sections.length y e) = .ok size eB ∧ SameHeaders eA eB) ↔
      SamePlace ec e₀.sections.length e x y ∧
        ∀ p ∈ ps, p.2 ≠ 0 → ∀ h, e.shdrAt p = some h → KeepsAlign ec e h := by
  have hua := hu.updatable
  have hub := hh.updatable hu hw
  have hkB' : SameKind (e₀.hdr env ec) hB := by
    rw [hh.same.hdr, hw.same.hdr] at hkB
    exact hkB
  rw [placeScns_withHdrs hlayout hua hpos] at hrun
  rw [placeScns_withHdrs hlayout hub hpos]
  obtain ⟨u, a₁, hsteps, hloop⟩ := bind_eq_ok.mp hrun
  obtain ⟨st, a₂, hblocks, hlast⟩ := bind_eq_ok.mp hloop
  obtain ⟨rfl, rfl⟩ := Outcome.ok.inj hlast
  obtain ⟨b₁, hstepsB, hst⟩ : ∃ b₁, ((storeShnum e₀.sections.length (e.withHdrs hB pB)).bind fun _ e => loadHeaders env e) =
      .ok () b₁ ∧ Steps e₀.sections.length e₁ e (e₀.withHdrs hA pA) (e.withHdrs hB pB) a₁ b₁ :=
    steps_of hu hw hh hkA hsteps
  have hbeside := hst.beside hu hw hh hkA hkB
  obtain ⟨c, hc, hcnt, -⟩ := hua.scns
  obtain ⟨c', hc', hcnt', -⟩ := hub.scns
  obtain ⟨d, hd, hdcnt, -⟩ := shape_single (c := c) (hst.shape.trans (by rw [← hc]; rfl))
  obtain ⟨d', hd', hdcnt', -⟩ := shape_single (c := c') (hst.shape'.trans (by rw [← hc']; rfl))
  rw [hd, updateBlocks_single, hdcnt, hcnt] at hblocks
  rw [hstepsB, bind_ok, hd', updateBlocks_single, hdcnt', hcnt']
  have hfirst : ∀ h, 1 < e₀.sections.length → (b₁.shdrAt (0, 1) = some h ↔ e.shdrAt (0, 1) = some h) := by
    intro h hone
    rw [Elf.shdrAt, Elf.shdrAt, (hst.entries (0, 1) (mem_handles.mpr ⟨rfl, Nat.le_refl 1, hone⟩)).2]
  have hiff := sections_iff (e := e) (y := y) hlayout hbeside (sameTypes_of hkA hkB') hfirst hblocks
  have hcalm : (∀ p ∈ handles e₀.sections.length, Calm ec b₁ p) ↔
      ∀ p ∈ ps, p.2 ≠ 0 → ∀ h, e.shdrAt p = some h → KeepsAlign ec e h := by
    have hall : ∀ p ∈ handles e₀.sections.length, (e₁.shdrAt p).isSome := by
      intro p hp
      obtain ⟨hp₁, -, hp₂⟩ := mem_handles.mp hp
      rw [← show ((0, p.2) : ScnHandle) = p from Prod.ext hp₁.symm rfl]
      exact hw.all p.2 hp₂
    constructor
    · intro hcalm p hp hne
      have hin : p ∈ handles e₀.sections.length :=
        mem_handles.mpr ⟨(hmem p hp).1, Nat.pos_of_ne_zero hne, (hmem p hp).2⟩
      exact (hst.calm_iff hw hh hin (hall p hin)).mp (hcalm p hin) hp
    · intro hkeeps p hin
      exact (hst.calm_iff hw hh hin (hall p hin)).mpr fun hp =>
        hkeeps p hp (Nat.ne_of_gt (mem_handles.mp hin).2.1)
  rw [hcalm] at hiff
  rw [and_comm, ← hiff]
  constructor
  · rintro ⟨eB, hrunB, hsame⟩
    obtain ⟨st', b₂, heach, hlastB⟩ := bind_eq_ok.mp hrunB
    obtain ⟨hend, rfl⟩ := Outcome.ok.inj hlastB
    exact ⟨st', b₂, heach, (UInt64.add_left_inj _).mp hend, hsame⟩
  · rintro ⟨st', b₂, heach, hend, hsame⟩
    rw [heach, bind_ok, hend]
    exact ⟨_, rfl, hsame⟩

/-- An update behind calls of `elf_getdata` gives the same size and the same headers where the program headers do not
push the sections to another place, and the sections that were read keep their alignment. -/
theorem update_holds_iff (hlayout : fl.layout = false) (hu : Untouched env ec e₀) (hw : WithHeaders env ec e₀ e₁)
    (hh : Holds env ps e₁ e) (hmem : ∀ p ∈ ps, p.1 = 0 ∧ p.2 < e₀.sections.length) (hpos : e₀.sections.length ≠ 0)
    (hrun : elfUpdateNull env fl e₀ = .ok size eA) :
    (∃ eB, elfUpdateNull env fl e = .ok size eB ∧ SameHeaders eA eB) ↔
      LoadsPhdrs env ec e ∧ SamePlace ec e₀.sections.length e (phdrEnd env ec e₀) (phdrEnd env ec e) ∧
        ∀ p ∈ ps, p.2 ≠ 0 → ∀ h, e.shdrAt p = some h → KeepsAlign ec e h := by
  have hua := hu.updatable
  have hub := hh.updatable hu hw
  have hsame := hw.same.trans hh.same
  rw [hua.update_eq hpos] at hrun
  rw [hub.update_eq hpos]
  obtain ⟨x, a, hfront, hrest⟩ := bind_eq_ok.mp hrun
  obtain ⟨⟨⟨h, hread⟩, hversion, -⟩, rfl, hA, pA, rfl, hkA⟩ := (hua.front hlayout).only _ _ hfront
  constructor
  · rintro ⟨eB, hrunB, hheaders⟩
    obtain ⟨y, b, hfrontB, hrestB⟩ := bind_eq_ok.mp hrunB
    obtain ⟨⟨-, -, hloads⟩, rfl, hB, pB, rfl, hkB⟩ := (hub.front hlayout).only _ _ hfrontB
    exact ⟨hloads, (placeScns_holds_iff hlayout hu hw hh hmem hpos hkA hkB hrest).mp ⟨eB, hrestB, hheaders⟩⟩
  · rintro ⟨hloads, hkeeps⟩
    have hreadB : ∃ h, e.header env ec .all = .ok h e := by
      refine ⟨h, ?_⟩
      rw [hsame, header_setScns, hread]
      rfl
    have hversionB : (e.hdr env ec).eVersion < 2 := by
      rw [hsame.hdr]
      exact hversion
    obtain ⟨y, b, hfrontB⟩ := (@Updatable.front env _ fl _ _ hlayout hub).succeeds ⟨hreadB, hversionB, hloads⟩
    obtain ⟨-, rfl, hB, pB, rfl, hkB⟩ := (hub.front hlayout).only _ _ hfrontB
    obtain ⟨eB, hrestB, hheaders⟩ := (placeScns_holds_iff hlayout hu hw hh hmem hpos hkA hkB hrest).mpr hkeeps
    exact ⟨eB, by rw [hfrontB, bind_ok]; exact hrestB, hheaders⟩

/-- Of an image that can be updated, an update behind calls of `elf_getdata` that all succeed gives the same size and the
same section headers exactly where the program headers can be loaded and do not push the sections to another place, and
the sections that were asked for keep their alignment. -/
theorem update_fetched_iff {permissive : Bool} (ho : Opened env e₀) (hf : Fetched env e₀ ps e)
    (hclass : e₀.elfClass = some ec) (hrun : elfUpdateNull env ⟨false, permissive⟩ e₀ = .ok size eA) :
    (∃ eB, elfUpdateNull env ⟨false, permissive⟩ e = .ok size eB ∧ SameHeaders eA eB) ↔
      LoadsPhdrs env ec e ∧ SamePlace ec e₀.sections.length e (phdrEnd env ec e₀) (phdrEnd env ec e) ∧
        ∀ p ∈ ps, p.2 ≠ 0 → ∀ h, e.shdrAt p = some h → KeepsAlign ec e h := by
  obtain ⟨hk, hehdr⟩ : e₀.kind = .elf ∧ e₀.ehdr.isSome := by
    unfold elfUpdateNull at hrun
    split at hrun
    · cases hrun
    · next hk =>
      split at hrun
      · cases hrun
      · next hne => exact ⟨not_not.mp hk, Option.isSome_iff_ne_none.mpr hne⟩
  obtain ⟨ec', hu⟩ := opened_untouched ho hk hehdr
  obtain rfl := Option.some.inj (hu.opened.elfClass.symm.trans hclass)
  rcases fetched_holds hu hf with ⟨rfl, rfl⟩ | ⟨hpos, e₁, hw, hh⟩
  · -- nothing was asked for
    have hloads : LoadsPhdrs env ec' e := by
      obtain ⟨c, hc, -, -, hindex⟩ := hu.updatable.scns
      rw [elfUpdateNull_eq hk hehdr hclass (updateShnum_single hc hindex), updatenull_eq] at hrun
      obtain ⟨x, a, hfront, -⟩ := bind_eq_ok.mp hrun
      obtain ⟨c', hc', -, hle, -⟩ := hu.updatable.scns
      exact ((frontPart_exactly rfl hu.ident hc' hle hu.opened.phdr hclass).only _ _ hfront).1.2.2
    exact ⟨fun _ => ⟨hloads, .refl _ _ _ _, nofun⟩, fun _ => ⟨eA, hrun, fun _ _ h => h⟩⟩
  · exact update_holds_iff rfl hu hw hh hf.mem (Nat.ne_of_gt hpos) hrun

end Update

/-! ## Two images -/

/-- What the two updates are about: section 1 is asked for, and the image can be updated before. -/
def OneFetched (image : Image) (align : UInt64) (e₀ e eA : Elf) (size : UInt64) : Prop :=
  readFile (plainEnv image) 3 .rdwr = .ok () e₀ ∧ (∃ x, elfGetdata (plainEnv image) (0, 1) none e₀ = .ok x e) ∧
    (e.shdrAt (0, 0)).map Shdr.shAddralign = some 0 ∧ (e.shdrAt (0, 1)).map Shdr.shAddralign = some align ∧
    elfUpdateNull (plainEnv image) ⟨false, false⟩ e₀ = .ok size eA

set_option maxRecDepth 8000 in
/-- The symbol table has the alignment that its place allows. -/
theorem symbol_fetched : ∃ e₀ e eA size h, OneFetched symbolImage 4 e₀ e eA size ∧ e₀.elfClass = some .elfclass32 ∧
    (phdrEnd (plainEnv symbolImage) .elfclass32 e = phdrEnd (plainEnv symbolImage) .elfclass32 e₀ ∧
      e.phnum (plainEnv symbolImage) .elfclass32 = 0) ∧ e.shdrAt (0, 1) = some h ∧ KeepsAlign .elfclass32 e h ∧
      1 < e₀.sections.length :=
  ⟨_, _, _, _, _, ⟨rfl, ⟨_, rfl⟩, rfl, rfl, rfl⟩, rfl, ⟨rfl, rfl⟩, rfl, by decide +kernel, by decide +kernel⟩

/-- An object with the symbol table is updated as before. -/
theorem update_fetched_symbol : ∃ e₀ e eA size eB, OneFetched symbolImage 4 e₀ e eA size ∧
    elfUpdateNull (plainEnv symbolImage) ⟨false, false⟩ e = .ok size eB ∧ SameHeaders eA eB := by
  obtain ⟨e₀, e, eA, size, h, hone, hclass, ⟨hend, hnum⟩, hshdr, hkeeps, hlt⟩ := symbol_fetched
  obtain ⟨hopen, ⟨x, hget⟩, hzero, halign, hrun⟩ := id hone
  have hf : Fetched (plainEnv symbolImage) e₀ ([] ++ [(0, 1)]) e := .getdata .start ⟨rfl, hlt⟩ hget
  obtain ⟨eB, hrunB, hsame⟩ := (update_fetched_iff (.read hopen) hf hclass hrun).mpr
    ⟨fun hhas => absurd hnum hhas.1, by rw [hend]; exact .refl _ _ _ _, fun p hp _ h' hh' => by
      obtain rfl := List.mem_singleton.mp hp
      obtain rfl := Option.some.inj (hshdr.symm.trans hh')
      exact hkeeps⟩
  exact ⟨e₀, e, eA, size, eB, hone, hrunB, hsame⟩

def alignImage : Image :=
  Image.ofBytes
    ([0x7F, 0x45, 0x4C, 0x46, 1, 2, 1, 0, 0, 0, 0, 0, 0, 0, 0, 0, 0, 1, 0, 2, 0, 0, 0, 1, 0, 0, 0, 0, 0, 0, 0, 0,
      0, 0, 0, 52, 0, 0, 0, 0, 0, 52, 0, 0, 0, 0, 0, 40, 0, 2, 0, 0] ++
    List.replicate 40 0 ++
    [0, 0, 0, 0, 0, 0, 0, 1, 0, 0, 0, 0, 0, 0, 0, 0, 0, 0, 0, 132, 0, 0, 0, 3,
      0, 0, 0, 0, 0, 0, 0, 0, 0, 0, 1, 0, 0, 0, 0, 0] ++ [1, 2, 3]) (by decide +kernel)

set_option maxRecDepth 8000 in
/-- Its data are aligned to 132, and the update is refused. -/
theorem align_not_updated : ∃ e₀ e eA size, OneFetched alignImage 256 e₀ e eA size ∧
    ¬ ∃ eB, elfUpdateNull (plainEnv alignImage) ⟨false, false⟩ e = .ok size eB ∧ SameHeaders eA eB := by
  have hruns : ∃ e₀ e eA size, OneFetched alignImage 256 e₀ e eA size ∧
      ∃ t, elfUpdateNull (plainEnv alignImage) ⟨false, false⟩ e = .err .INVALID_ALIGN t :=
    ⟨_, _, _, _, ⟨rfl, ⟨_, rfl⟩, rfl, rfl, rfl⟩, _, rfl⟩
  obtain ⟨e₀, e, eA, size, hone, t, herr⟩ := hruns
  refine ⟨e₀, e, eA, size, hone, ?_⟩
  rintro ⟨eB, hok, -⟩
  cases herr.symm.trans hok

end LibElf.Elfutils
