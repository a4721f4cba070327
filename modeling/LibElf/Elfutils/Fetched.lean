import LibElf.Elfutils.UpdateRound

/-!
# Objects whose data were asked for

What an object is after `elf_getdata` was called for some of its sections: the section headers are there, and those
sections have their raw data and one block each.

1. `GoodIdent`, the identification that an object is opened with, and `Untouched`, the object.
2. `loadTable`, the part of `load_shdr_wrlock` that does not depend on the section; `WithHeaders`, the object with its
   section headers.
3. `Fetched`, the calls, and `Holds`, what they leave: `fetched_holds`.
-/

namespace LibElf.Elfutils

open Outcome
open Toolchain (ElfClass Ehdr Shdr)

/-! ## The identification -/

/-- `e_ident` has the magic bytes, the byte of the class, one of the two byte orders, and the current version. -/
structure GoodIdent (ec : ElfClass) (id : Toolchain.Ident) : Prop where
  magic : id.toList.take 4 = elfmag
  byteClass : id.toList.getD eiClass 0 = ec.toByte
  data : id.toList.getD eiData 0 = 1 ∨ id.toList.getD eiData 0 = 2
  version : id.toList.getD eiVersion 0 = evCurrent

theorem Ident.ofBytes_toList (id : Toolchain.Ident) : Toolchain.Ident.ofBytes id.toList = id := by
  ext i hi
  simp [Toolchain.Ident.ofBytes]

theorem Ident.toList_ofBytes {bs : List UInt8} (h : bs.length = 16) : (Toolchain.Ident.ofBytes bs).toList = bs := by
  apply List.ext_getElem
  · simp [h]
  · intro i hi hi'
    simp [Toolchain.Ident.ofBytes, List.getD_eq_getElem?_getD, List.getElem?_eq_getElem hi']

/-- The defaults leave a good identification as it is. -/
theorem defaultIdent_good {env : Env} {ec : ElfClass} {id : Toolchain.Ident} (h : GoodIdent ec id) :
    defaultIdent env ec id = .ok id := by
  have hsplit : elfmag ++ [ec.toByte, id.toList.getD eiData 0, evCurrent] ++ id.toList.drop 7 = id.toList := by
    rw [← h.magic, ← h.byteClass, ← h.version]
    have hlen : id.toList.length = 16 := by simp
    generalize id.toList = l at *
    match l, hlen with
    | [_, _, _, _, _, _, _, _, _, _, _, _, _, _, _, _], _ => rfl
  unfold defaultIdent
  extract_lets data
  have hlow : ¬ 3 ≤ data := by
    rcases h.data with hd | hd <;> rw [show data = _ from hd] <;> decide
  have hpos : data ≠ 0 := by
    rcases h.data with hd | hd <;> rw [show data = _ from hd] <;> decide
  rw [if_neg hlow, if_neg hpos, hsplit, Ident.ofBytes_toList]

theorem length_decode (o : ByteOrder) (fs : List Field) (bs : List UInt8) : (decode o fs bs).length = fs.length := by
  induction fs generalizing bs with
  | nil => rfl
  | cons f fs ih => rw [decode, List.length_cons, ih, List.length_cons]

theorem eIdent_ofValues (ec : ElfClass) (v : Nat) (vs : List Nat) (h : vs.length = 13) :
    (Ehdr.ofValues ec (v :: vs)).eIdent = Toolchain.Ident.ofBytes (leBytes 16 v) := by
  match vs, h with
  | [_, _, _, _, _, _, _, _, _, _, _, _, _], _ => rfl

/-- The identification of a header is its first 16 bytes, in any byte order. -/
theorem eIdent_ofFile {host : ByteOrder} {swap : Bool} {ec : ElfClass} {bs : List UInt8} (h : 16 ≤ bs.length) :
    (Ehdr.ofFile host swap ec bs).eIdent.toList = bs.take 16 := by
  have h16 : (bs.take 16).length = 16 := by
    rw [List.length_take]
    exact Nat.min_eq_left h
  obtain ⟨f, fs, hfs, hw, hnum, hpad, hlen⟩ : ∃ f fs, Toolchain.fieldsOf .ehdr ec = f :: fs ∧ f.width = 16 ∧
      f.numeric = false ∧ f.pad 0 = 0 ∧ fs.length = 13 := by
    cases ec <;> exact ⟨_, _, rfl, rfl, rfl, rfl, rfl⟩
  have hcvt : cvtField host swap f (bs.take 16) = bs.take 16 := by
    rw [cvtField, hnum, Bool.and_false]
    rfl
  have hfirst : ∀ m, (tomObject host swap (f :: fs) m bs).take 16 = bs.take 16 := by
    intro m
    rw [tomObject, tomFields, hpad, List.take_zero, List.nil_append, hw, hcvt, List.take_left' h16]
  have hback : leBytes 16 (ofLeBytes (bs.take 16)) = bs.take 16 := by
    have hbytes := leBytes_ofLeBytes (bs.take 16)
    rw [h16] at hbytes
    exact hbytes
  unfold Ehdr.ofFile Ehdr.ofMem
  rw [hfs, decode, eIdent_ofValues _ _ _ (by rw [length_decode, hlen]), hw, hfirst, decodeField, hnum]
  simp only [Bool.false_eq_true, if_false]
  rw [hback, Ident.toList_ofBytes h16]

/-! ## Opening -/

/-- An object that was opened, and of which nothing was read since. Section headers are in place for all sections or for
none. -/
structure Untouched (env : Env) (ec : ElfClass) (e : Elf) : Prop where
  opened : OpenedElf env ec e
  ident : GoodIdent ec (e.hdr env ec).eIdent
  uniform : (∀ q s, Chain.entry e.scns q = some s → s.shdr = none) ∨ ∀ s ∈ e.sections, s.shdr.isSome

section Opening

variable {env : Env} {ec : ElfClass} {e e' : Elf} {buf : Option (List UInt8)} {ident : List UInt8}

theorem goodIdent_of {id : Toolchain.Ident} (hkind : determineKind ident = .elf)
    (hec : ElfClass.ofByte (ident.getD eiClass 0) = some ec) (hid : id.toList = ident.take 16) : GoodIdent ec id := by
  have hget : ∀ i < 16, id.toList.getD i 0 = ident.getD i 0 := by
    intro i hi
    rw [hid, List.getD_eq_getElem?_getD, List.getD_eq_getElem?_getD, List.getElem?_take, if_pos hi]
  unfold determineKind at hkind
  split at hkind
  · cases hkind
  · split at hkind
    · next hmatch =>
      obtain ⟨-, hmagic, -, hdata, hversion⟩ := hmatch
      refine ⟨?_, ?_, ?_, ?_⟩
      · rw [hid, List.take_take]
        exact hmagic
      · rw [hget _ (by decide)]
        unfold ElfClass.ofByte at hec
        split at hec
        · next hb =>
          obtain rfl := Option.some.inj hec
          exact hb
        · split at hec
          · next hb =>
            obtain rfl := Option.some.inj hec
            exact hb
          · cases hec
      · rw [hget _ (by decide)]
        unfold dataOrder at hdata
        split at hdata
        · next hb => exact .inl hb
        · split at hdata
          · next hb => exact .inr hb
          · cases hdata
      · rw [hget _ (by decide)]
        exact hversion
    · cases hkind

theorem sections_firstBlock {cmd : Cmd} {scns : List Scn} (h : e.scns = [firstBlock cmd scns]) : e.sections = scns := by
  rw [Elf.sections, h, Chain.entries_cons, Chain.entries_nil, List.append_nil]
  exact List.take_left' rfl

theorem entry_firstBlock {cmd : Cmd} {scns : List Scn} {q : ScnHandle} {s : Scn} (h : e.scns = [firstBlock cmd scns])
    (hs : Chain.entry e.scns q = some s) : s ∈ scns ∨ s = Scn.zero := by
  rw [h] at hs
  obtain ⟨b, hb, hdata⟩ := Option.bind_eq_some_iff.mp hs
  obtain rfl := List.mem_singleton.mp (List.mem_of_getElem? hb)
  exact (List.mem_append.mp (List.mem_of_getElem? hdata)).imp id fun hmem => (List.mem_replicate.mp hmem).2

theorem isSome_inPlace (shdrs : List Shdr) : ∀ s ∈ sectionsInPlace shdrs, s.shdr.isSome := by
  intro s hs
  have hmem : s.shdr.isSome ∈ (sectionsInPlace shdrs).map fun s => s.shdr.isSome := List.mem_map_of_mem hs
  rw [map_sectionsInPlace (fun s => s.shdr.isSome) fun _ _ => rfl] at hmem
  obtain ⟨i, hi, hsome⟩ := List.mem_map.mp hmem
  rw [← hsome]
  show shdrs[i]?.isSome = true
  rw [List.getElem?_eq_getElem (List.mem_range.mp hi)]
  rfl

/-- Opening finds all section headers in place, or none. -/
theorem readSections_uniform {swap : Bool} {n : Nat} (h : readSections env ec swap n e = .ok () e') :
    (∀ q s, Chain.entry e'.scns q = some s → s.shdr = none) ∨ ∀ s ∈ e'.sections, s.shdr.isSome := by
  unfold readSections at h
  obtain ⟨hdr, t, hread, hrest⟩ := bind_eq_ok.mp h
  obtain rfl := Elf.header_ok hread
  extract_lets shoff at hrest
  split at hrest
  · split at hrest
    · cases hrest
    · obtain ⟨bs, t', hmap, hlast⟩ := bind_eq_ok.mp hrest
      obtain rfl := (Outcome.ok.inj hlast).2
      right
      rw [@sections_firstBlock _ t'.cmd _ rfl]
      exact isSome_inPlace _
  · obtain rfl := (Outcome.ok.inj hrest).2
    left
    intro q s hs
    rcases @entry_firstBlock _ t.cmd _ _ _ rfl hs with hmem | rfl
    · obtain ⟨i, -, rfl⟩ := List.mem_map.mp hmem
      rfl
    · rfl

/-- The identification and the section headers that an ELF object is opened with. -/
theorem fileReadElf_untouched (hk : e.kind = .elf) (hphdr : e.phdr = none) (hbuf : e.mapAddress.isSome → buf = none)
    (hkind : determineKind ident = .elf)
    (hid : ∀ ec swap, (identHdr env buf ec swap e).eIdent.toList = ident.take 16)
    (h : fileReadElf env buf ident e = .ok () e') : ∃ ec, Untouched env ec e' := by
  obtain ⟨ec', hopened⟩ := fileReadElf_opened hk hphdr hbuf h
  unfold fileReadElf at h
  split at h
  · next ec order hec _ =>
    extract_lets swap at h
    obtain ⟨n, t, hshnum, hrest⟩ := bind_eq_ok.mp h
    obtain rfl := getShnum_ok hshnum
    split at hrest
    · cases hrest
    · split at hrest
      · next hmapped =>
        have hclass := hopened.elfClass
        obtain ⟨scns, -, rfl⟩ := readSections_ok hrest
        obtain rfl := Option.some.inj hclass
        refine ⟨ec, hopened, goodIdent_of hkind hec ?_, readSections_uniform hrest⟩
        rw [← hid ec false, hbuf hmapped.1]
        rfl
      · obtain ⟨hdr, t', hfield, hlast⟩ := bind_eq_ok.mp hrest
        obtain rfl := identField_ok hfield
        obtain rfl := identField_value hfield
        have hclass := hopened.elfClass
        obtain ⟨scns, -, rfl⟩ := readSections_ok hlast
        obtain rfl := Option.some.inj hclass
        refine ⟨ec, hopened, goodIdent_of hkind hec ?_, readSections_uniform hlast⟩
        rw [← hid ec swap]
        rfl
  · cases h

theorem length_of_elf (hkind : determineKind ident = .elf) : 16 ≤ ident.length := by
  unfold determineKind at hkind
  split at hkind
  · cases hkind
  · split at hkind
    · next hmatch => exact hmatch.1
    · cases hkind

theorem readMmapedFile_untouched {fildes : Int} {image : Image} {offset maxsize : Nat} {cmd : Cmd}
    {parent : Option Nat} (h : readMmapedFile env fildes image offset maxsize cmd parent = .ok () e)
    (hk : e.kind = .elf) : ∃ ec, Untouched env ec e := by
  unfold readMmapedFile at h
  extract_lets e₀ at h
  obtain ⟨ident, t, hread, hrest⟩ := bind_eq_ok.mp h
  obtain rfl := Elf.mapRead_ok hread
  split at hrest
  · next hkind =>
    have hlen := length_of_elf hkind
    have hident : 16 ≤ image.bytes.length - offset ∧ ident = window image.bytes offset 16 := by
      have hmap : e₀.mapAddress = some image := rfl
      unfold Elf.mapRead at hread
      rw [hmap] at hread
      simp only at hread
      split at hread
      · cases hread
      · obtain ⟨-, rfl, -⟩ := readAt_eq_ok.mp hread
        have hmin : 16 ≤ min eiNident maxsize ∧ 16 ≤ image.bytes.length - offset := by
          rw [window, List.length_take, List.length_drop] at hlen
          omega
        have heq : min eiNident maxsize = 16 := Nat.le_antisymm (Nat.min_le_left _ _) hmin.1
        exact ⟨hmin.2, by rw [heq]⟩
    obtain ⟨hin, rfl⟩ := hident
    refine fileReadElf_untouched rfl rfl (fun _ => rfl) hkind (fun ec swap => ?_) hrest
    have hsize : 16 ≤ ehdrSize ec := by cases ec <;> decide
    show (Ehdr.ofFile env.host swap ec (window image.bytes offset (ehdrSize ec))).eIdent.toList = _
    rw [eIdent_ofFile, window, window, List.take_take, List.take_take, Nat.min_eq_left hsize, Nat.min_self]
    rw [window, List.length_take, List.length_drop]
    omega
  · cases hrest
    cases hk
  · rw [← (Outcome.ok.inj hrest).2] at hk
    cases hk

theorem readUnmmapedFile_untouched {fildes : Int} {offset maxsize : Nat} {cmd : Cmd} {parent : Option Nat}
    (h : readUnmmapedFile env fildes offset maxsize cmd parent = .ok () e) (hk : e.kind = .elf) :
    ∃ ec, Untouched env ec e := by
  unfold readUnmmapedFile at h
  extract_lets e₀ at h
  split at h
  · cases h
  · next bs _ =>
    split at h
    · cases h
      cases hk
    · next hkind =>
      have hlen := length_of_elf hkind
      extract_lets size at h
      split at h
      · refine fileReadElf_untouched rfl rfl (fun hm => by cases hm) hkind (fun ec swap => ?_) h
        have hsize : 16 ≤ ehdrSize ec := by cases ec <;> decide
        show (Ehdr.ofFile env.host swap ec (bs.take (ehdrSize ec))).eIdent.toList = _
        rw [eIdent_ofFile, List.take_take, Nat.min_eq_left hsize]
        rw [List.length_take]
        omega
      · rw [← (Outcome.ok.inj h).2] at hk
        cases hk
    · rw [← (Outcome.ok.inj h).2] at hk
      cases hk

/-- An object that is not a new file. -/
theorem opened_untouched (ho : Opened env e) (hk : e.kind = .elf) (himage : e.ehdr.isSome) : ∃ ec, Untouched env ec e := by
  cases ho with
  | read h =>
    unfold readFile at h
    extract_lets maxsize at h
    split at h
    · exact readMmapedFile_untouched h hk
    · exact readUnmmapedFile_untouched h hk
  | member h =>
    unfold readMember at h
    split at h
    · split at h
      · exact readMmapedFile_untouched h hk
      · exact readUnmmapedFile_untouched h hk
    · exact readUnmmapedFile_untouched h hk
  | memory h => exact readMmapedFile_untouched h hk
  | write => cases himage

end Opening

/-! ## The section headers -/

section Table

variable {env : Env} {ec : ElfClass} {a b e e' e₀ e₁ : Elf} {p q : ScnHandle} {s : Scn} {h : Shdr}

/-- The part of `load_shdr_wrlock` that reads the table and sets the pointers to the headers. -/
def loadTable (env : Env) (ec : ElfClass) (e : Elf) : Call Unit :=
  (getShdrnum e).bind fun shnum e =>
  if (2 ^ 64 - 1) / shdrSize ec < shnum then .err .NOERROR e
  else
    (shdrBytes env ec shnum e).bind fun bs e =>
    (foreign env ec e).bind fun swap e =>
    storeShdrs (e.mapAddress.isSome && swap) (shdrTable env ec swap shnum bs) e

theorem getShdr_absent (hehdr : e.ehdr.isSome) (hclass : e.elfClass = some ec) (hs : Chain.entry e.scns p = some s)
    (hh : s.shdr = none) : getShdr env p e = (loadTable env ec e).bind fun _ e => (e.scn p).bind fun s e =>
      match s.shdr with
      | some h => .ok h e
      | none => .stop .assertion := by
  obtain ⟨hdr, hhdr⟩ := Option.isSome_iff_exists.mp hehdr
  unfold getShdr loadShdr loadTable
  rw [scn_of_entry hs, bind_ok, hh, hhdr, hclass]
  simp only
  rw [scn_of_entry hs, bind_ok, hh]
  simp only [Outcome.bind_assoc]
  congr
  funext n e
  split
  · rfl
  · exact ((Outcome.bind_assoc _ _ _).trans (congrArg _ (funext fun _ => funext fun _ => Outcome.bind_assoc _ _ _))).symm

/-- The blocks of a chain, with the indices of the sections. -/
def shape (bs : List ScnList) : List (Nat × List Nat) := bs.map fun b => (b.cnt, b.data.map Scn.index)

/-- The same object, with an ELF header of its own that puts the table in the same place. -/
structure SameTable (env : Env) (ec : ElfClass) (a b : Elf) : Prop where
  alike : Alike env a b
  elfClass : a.elfClass = some ec
  cmd : b.cmd = a.cmd
  malloced : b.malloced = a.malloced
  scns : b.scns = a.scns
  shoff : (b.hdr env ec).eShoff = (a.hdr env ec).eShoff
  hasHdr : HasHdr b

namespace SameTable

theorem class_getD (hab : SameTable env ec a b) : a.elfClass.getD .elfclass64 = ec := by rw [hab.elfClass]; rfl

theorem getShdrnum {n : Nat} (hab : SameTable env ec a b) (hn : Elfutils.getShdrnum a = .ok n e) :
    Elfutils.getShdrnum b = .ok n b := by
  unfold Elfutils.getShdrnum at hn ⊢
  rw [hab.alike.kind, hab.scns]
  split at hn
  · cases hn
  · next hk =>
    rw [if_neg hk]
    split at hn
    · cases hn
    · next last _ =>
      split at hn
      · next hz =>
        rw [if_pos hz, (Outcome.ok.inj hn).1]
      · next hz =>
        rw [if_neg hz]
        split at hn
        · cases hn
        · next hz' =>
          rw [if_neg hz']
          split at hn
          · cases hn
          · rw [(Outcome.ok.inj hn).1]

theorem shdrBytes {n : Nat} {bs : List UInt8} (hab : SameTable env ec a b)
    (hbs : Elfutils.shdrBytes env ec n a = .ok bs e) : Elfutils.shdrBytes env ec n b = .ok bs b := by
  unfold Elfutils.shdrBytes at hbs ⊢
  obtain ⟨hdr, t, hhdr, hrest⟩ := bind_eq_ok.mp hbs
  obtain ⟨rfl, rfl⟩ := header_value hhdr
  rw [hab.hasHdr.header, bind_ok, hab.alike.mapAddress, hab.alike.maximumSize, hab.alike.fildes, hab.alike.startOffset,
    hab.shoff]
  extract_lets at hrest ⊢
  split at hrest
  · next hm =>
    rw [if_pos hm]
    split at hrest
    · cases hrest
    · next hin =>
      obtain ⟨swap, t', hf, hread⟩ := bind_eq_ok.mp hrest
      obtain ⟨rfl, rfl⟩ := foreign_value hf
      rw [if_neg hin, hab.hasHdr.foreign, bind_ok, hab.alike.swapped hab.class_getD, hab.malloced, hab.cmd]
      split at hread
      · cases hread
      · next hplace =>
        rw [if_neg hplace, hab.alike.startOffset]
        obtain rfl := Elf.mapRead_ok hread
        exact mapRead_alike hab.alike hread
  · next hm =>
    rw [if_neg hm]
    split at hrest
    · next hfd =>
      rw [if_pos hfd]
      split at hrest
      · cases hrest
      · split at hrest
        · cases hrest
        · next hlen => rw [if_neg hlen, (Outcome.ok.inj hrest).1]
    · cases hrest

/-- The same table is read. -/
theorem loadTable (hab : SameTable env ec a b) (hload : Elfutils.loadTable env ec a = .ok () e) :
    Elfutils.loadTable env ec b = .ok () (b.setScns e.scns) := by
  unfold Elfutils.loadTable at hload ⊢
  obtain ⟨n, t, hn, hrest⟩ := bind_eq_ok.mp hload
  obtain rfl := getShdrnum_ok hn
  rw [hab.getShdrnum hn, bind_ok]
  split at hrest
  · cases hrest
  · next hmax =>
    obtain ⟨bs, t, hbs, hswap⟩ := bind_eq_ok.mp hrest
    obtain rfl := shdrBytes_ok hbs
    obtain ⟨swap, t', hf, hstore⟩ := bind_eq_ok.mp hswap
    obtain ⟨rfl, rfl⟩ := foreign_value hf
    rw [if_neg hmax, hab.shdrBytes hbs, bind_ok, hab.hasHdr.foreign, bind_ok, hab.alike.swapped hab.class_getD,
      hab.alike.mapAddress]
    unfold storeShdrs at hstore ⊢
    have hfirst : b.firstData = t'.firstData := by rw [Elf.firstData, Elf.firstData, hab.scns]
    rw [hfirst]
    split at hstore
    · cases hstore
    · next hroom =>
      rw [if_neg hroom, ← (Outcome.ok.inj hstore).2]
      simp only [Elf.setFirstData, Elf.scns_setScns, hab.scns]

end SameTable

theorem unread_of_core {s' : Scn} (hcore : s'.core = s.core) (hs : s.Unread) : s'.Unread :=
  ⟨(congrArg Scn.rawdata hcore).trans hs.1, (congrArg Scn.dataRead hcore).trans hs.2.1,
    (congrArg Scn.dataList hcore).trans hs.2.2⟩

theorem shape_setFirstData {data : List Scn} (h : data.map Scn.index = e.firstData.map Scn.index) :
    shape (e.setFirstData data).scns = shape e.scns := by
  unfold Elf.setFirstData Elf.firstData at *
  rw [Elf.scns_setScns]
  cases hb : e.scns with
  | nil => rfl
  | cons b bs =>
    rw [hb] at h
    simp only [List.modify_zero_cons, shape, List.map_cons]
    exact congrArg (fun l => (b.cnt, l) :: _) h

/-- What reading the table leaves of an object with one block. -/
theorem loadTable_ok {b : ScnList} (hb : e.scns = [b]) (hn : ∀ n t, getShdrnum e = .ok n t → b.cnt ≤ n)
    (hcnt : b.cnt ≤ b.max) (hload : loadTable env ec e = .ok () e') :
    SameBut e e' ∧ shape e'.scns = shape e.scns ∧
      (∀ q, (Chain.entry e'.scns q).map Scn.core = (Chain.entry e.scns q).map Scn.core) ∧
      ∀ i < b.cnt, (e'.shdrAt (0, i)).isSome := by
  unfold loadTable at hload
  obtain ⟨n, t, hnum, hrest⟩ := bind_eq_ok.mp hload
  obtain rfl := getShdrnum_ok hnum
  have hle := hn n _ hnum
  split at hrest
  · cases hrest
  · obtain ⟨bs, t, hbs, hswap⟩ := bind_eq_ok.mp hrest
    obtain rfl := shdrBytes_ok hbs
    obtain ⟨swap, t', hf, hstore⟩ := bind_eq_ok.mp hswap
    obtain ⟨rfl, rfl⟩ := foreign_value hf
    unfold storeShdrs at hstore
    split at hstore
    · cases hstore
    · obtain rfl := (Outcome.ok.inj hstore).2
      have hmap := @map_storeShdrs _ Scn.core (fun _ _ => rfl) (fun _ _ => rfl)
        (t'.mapAddress.isSome && t'.swapped env ec) (shdrTable env ec (t'.swapped env ec) n bs) t'.firstData
      refine ⟨rfl, shape_setFirstData (map_storeShdrs Scn.index (fun _ _ => rfl) (fun _ _ => rfl) _ _ _),
        fun q => entry_setFirstData hmap, fun i hi => ?_⟩
      have hfirst : t'.firstData = b.data := by
        rw [Elf.firstData, hb]
        rfl
      generalize (t'.mapAddress.isSome && t'.swapped env ec) = shndx at hmap ⊢
      generalize hshdrs : shdrTable env ec (t'.swapped env ec) n bs = shdrs at hmap ⊢
      have hlen : i < shdrs.length := by
        rw [← hshdrs]
        simp only [shdrTable, List.length_map, List.length_range]
        omega
      generalize (if shndx then (List.range shdrs.length).foldl (setShndx shdrs) t'.firstData else t'.firstData) = data at hmap ⊢
      have hentry : ∀ l, Chain.entry (t'.setFirstData l).scns (0, i) = l[i]? := by
        intro l
        rw [Elf.setFirstData, Elf.scns_setScns, hb]
        rfl
      have hdata : i < data.length := by
        have hlength : (data.mapIdx fun i s => if i < shdrs.length then { s with shdr := shdrs[i]? } else s).length =
            t'.firstData.length := by simpa using congrArg List.length hmap
        have hroom : b.cnt ≤ b.data.length := hcnt
        rw [List.length_mapIdx, hfirst] at hlength
        omega
      rw [Elf.shdrAt, hentry, List.getElem?_mapIdx, List.getElem?_eq_getElem hdata]
      simp only [Option.map_some, Option.bind_some, if_pos hlen, List.getElem?_eq_getElem hlen, Option.isSome_some]

/-- The object with its section headers: they are in place, or the table was read. -/
structure WithHeaders (env : Env) (ec : ElfClass) (e₀ e₁ : Elf) : Prop where
  source : e₁ = e₀ ∨ (∀ q s, Chain.entry e₀.scns q = some s → s.shdr = none) ∧ loadTable env ec e₀ = .ok () e₁
  same : SameBut e₀ e₁
  shape : shape e₁.scns = shape e₀.scns
  unread : ∀ q s, Chain.entry e₁.scns q = some s → s.Unread
  all : ∀ i < e₀.sections.length, (e₁.shdrAt (0, i)).isSome

namespace Untouched

theorem session (hu : Untouched env ec e) : Session env ec e e := hu.opened.session

theorem unread (hu : Untouched env ec e) (hs : Chain.entry e.scns q = some s) : s.Unread := by
  obtain ⟨n, scns, -, hunread, hscns, -⟩ := hu.opened.block
  rcases entry_firstBlock hscns hs with hmem | rfl
  · exact hunread s hmem
  · exact Scn.unread_zero

theorem entry (hu : Untouched env ec e) (hp : p.1 = 0 ∧ p.2 < e.sections.length) :
    ∃ s, Chain.entry e.scns p = some s ∧ s ∈ e.sections := by
  rw [hu.session.entry_eq hp, List.getElem?_eq_getElem hp.2]
  exact ⟨_, rfl, List.getElem_mem hp.2⟩

/-- Asking for the header of a section gives the object its section headers. -/
theorem withHeaders (hu : Untouched env ec e₀) (hp : p.1 = 0 ∧ p.2 < e₀.sections.length)
    (hget : getShdr env p e₀ = .ok h e₁) : WithHeaders env ec e₀ e₁ := by
  obtain ⟨s, hs, hmem⟩ := hu.entry hp
  rcases hu.uniform with hnone | hsome
  · rw [getShdr_absent hu.opened.ehdr hu.opened.elfClass hs (hnone p s hs)] at hget
    obtain ⟨u, t, hload, hrest⟩ := bind_eq_ok.mp hget
    obtain ⟨s', t', hscn, hlast⟩ := bind_eq_ok.mp hrest
    obtain ⟨-, rfl⟩ := scn_ok hscn
    obtain rfl : t' = e₁ := by
      split at hlast
      · exact (Outcome.ok.inj hlast).2
      · cases hlast
    obtain ⟨b, hb, -, hle, hcnt⟩ := hu.session.block
    have hnum : ∀ n t, getShdrnum e₀ = .ok n t → b.cnt ≤ n := by
      intro n t hn
      have hkeeps := hu.session.getShdrnum rfl
      rw [hn] at hkeeps
      rw [hkeeps.2.2, hcnt]
    obtain ⟨hsame, hshape, hcore, hall⟩ := loadTable_ok hb hnum hle hload
    refine ⟨.inr ⟨hnone, hload⟩, hsame, hshape, fun q s' hq => ?_, fun i hi => hall i (by omega)⟩
    have hq' := hcore q
    rw [hq] at hq'
    obtain ⟨s, hs, hs'⟩ := Option.map_eq_some_iff.mp hq'.symm
    exact unread_of_core hs'.symm (hu.unread hs)
  · obtain ⟨h', hh'⟩ := Option.isSome_iff_exists.mp (hsome s hmem)
    rw [getShdr_present hs hh'] at hget
    obtain ⟨-, rfl⟩ := Outcome.ok.inj hget
    refine ⟨.inl rfl, .refl _, rfl, fun q s' hq => hu.unread hq, fun i hi => ?_⟩
    obtain ⟨s', hs', hmem'⟩ := hu.entry (p := (0, i)) ⟨rfl, hi⟩
    rw [shdrAt_of_entry hs']
    exact hsome s' hmem'

end Untouched

end Table

/-! ## The calls -/

section Calls

variable {env : Env} {ec : ElfClass} {a e e' e₀ e₁ : Elf} {p q : ScnHandle} {ps : List ScnHandle} {s : Scn} {h : Shdr}
  {data : Option Nat} {x : Option Data}

/-- After calls of `elf_getdata` for the sections behind `ps` that all succeed. -/
inductive Fetched (env : Env) (e₀ : Elf) : List ScnHandle → Elf → Prop
  | start : Fetched env e₀ [] e₀
  | getdata {ps : List ScnHandle} {p : ScnHandle} {data : Option Nat} {x : Option Data} {e e' : Elf} :
    Fetched env e₀ ps e → p.1 = 0 ∧ p.2 < e₀.sections.length → elfGetdata env p data e = .ok x e' →
    Fetched env e₀ (ps ++ [p]) e'

/-- The object `a` with the data of the sections behind `ps`. -/
structure Holds (env : Env) (ps : List ScnHandle) (a e : Elf) : Prop where
  same : SameBut a e
  shape : shape e.scns = shape a.scns
  entries : ∀ q s, Chain.entry a.scns q = some s → ∃ s', Chain.entry e.scns q = some s' ∧ s'.shdr = s.shdr ∧
    (q ∉ ps ∧ s' = s ∨ q ∈ ps ∧ ∃ h r d, IsRaw env a h r ∧ Loaded env e q s' h r ∧ s'.dataList = [d])

theorem Holds.start (a : Elf) : Holds env [] a a :=
  ⟨.refl a, rfl, fun _ s hs => ⟨s, hs, rfl, .inl ⟨List.not_mem_nil, rfl⟩⟩⟩

/-- The data of a section may be asked for again. -/
theorem Holds.again (hh : Holds env ps a e) (hp : p ∈ ps) : Holds env (ps ++ [p]) a e := by
  have hmem : ∀ q, q ∈ ps ++ [p] ↔ q ∈ ps := by
    intro q
    rw [List.mem_append, List.mem_singleton]
    exact ⟨fun h => h.elim id fun h => h ▸ hp, .inl⟩
  refine ⟨hh.same, hh.shape, fun q s hs => ?_⟩
  rw [hmem]
  exact hh.entries q s hs

theorem shape_put {s' : Scn} (hs : Chain.entry e.scns p = some s) (hindex : s'.index = s.index) :
    shape (e.put p s').scns = shape e.scns := by
  obtain ⟨b, hb, hdata⟩ := Option.bind_eq_some_iff.mp hs
  apply List.ext_getElem?
  intro k
  rw [shape, shape, List.getElem?_map, List.getElem?_map, Elf.put, Elf.setScn, Elf.scns_setScns, List.getElem?_modify]
  by_cases hk : p.1 = k
  · subst hk
    have hmap : (b.data.modify p.2 fun _ => s').map Scn.index = b.data.map Scn.index := by
      apply List.ext_getElem?
      intro i
      rw [List.getElem?_map, List.getElem?_map, List.getElem?_modify]
      by_cases hi : p.2 = i
      · subst hi
        simp [hdata, hindex]
      · simp [hi]
    simp [hb, hmap]
  · simp [hk]

/-- The call goes on as it does where the raw data are there. -/
theorem getdata_raw {s₁ : Scn} (hk : e.kind = .elf) (hk₁ : e₁.kind = .elf) (hs : Chain.entry e.scns p = some s)
    (hread : s.dataRead = false) (hset : setRawdata env p e = .ok () e₁) (hs₁ : Chain.entry e₁.scns p = some s₁)
    (hread₁ : s₁.dataRead = true) : elfGetdata env p none e = elfGetdata env p none e₁ := by
  rw [elfGetdata, elfGetdata, if_neg (not_not.mpr hk), if_neg (not_not.mpr hk₁), scn_of_entry hs, bind_ok,
    scn_of_entry hs₁, bind_ok]
  simp only
  rw [if_neg (by rw [hread]; rintro ⟨⟩), if_pos hread₁, hset]

/-- The call goes on as it does where the section headers are there. -/
theorem getdata_headers {s₁ : Scn} (hk : e.kind = .elf) (hk₁ : e₁.kind = .elf) (hs : Chain.entry e.scns p = some s)
    (hread : s.dataRead = false) (hs₁ : Chain.entry e₁.scns p = some s₁) (hread₁ : s₁.dataRead = false)
    (hset : setRawdata env p e = setRawdata env p e₁) : elfGetdata env p none e = elfGetdata env p none e₁ := by
  rw [elfGetdata, elfGetdata, if_neg (not_not.mpr hk), if_neg (not_not.mpr hk₁), scn_of_entry hs, bind_ok,
    scn_of_entry hs₁, bind_ok]
  simp only
  rw [if_neg (by rw [hread]; rintro ⟨⟩), if_neg (by rw [hread₁]; rintro ⟨⟩), hset]

/-- A call for the data of one more section. -/
theorem Holds.getdata (hh : Holds env ps a e) (hk : a.kind = .elf) (hs : Chain.entry a.scns p = some s)
    (hunread : s.Unread) (hshdr : s.shdr = some h) (hget : elfGetdata env p data e = .ok x e') :
    Holds env (ps ++ [p]) a e' := by
  have hk' : e.kind = .elf := hh.same.kind.trans hk
  obtain ⟨s', hs', hshdr', hcase⟩ := hh.entries p s hs
  rcases hcase with ⟨hnew, rfl⟩ | ⟨hold, h', r, d, hraw, hl, hlist⟩
  · cases data with
    | some k =>
      obtain ⟨rfl, s₁, hs₁, hlt⟩ := elfGetdata_some_ok hget
      obtain rfl := Option.some.inj (hs'.symm.trans hs₁)
      rw [hunread.2.2] at hlt
      exact absurd hlt (Nat.not_lt_zero k)
    | none =>
      obtain ⟨s₀, e₁, -, -, hs₀, hset, -⟩ := elfGetdata_none_ok hget
      obtain rfl := Option.some.inj (hs'.symm.trans hs₀)
      obtain ⟨-, hset⟩ := hset.resolve_left fun h => absurd (hunread.2.1.symm.trans h.1) nofun
      obtain ⟨r, hr⟩ := setRawdata_present_ok hs' hshdr hset
      have hraw := (sectionRaw_ok hr).2
      rw [setRawdata_present hs' hshdr hr] at hset
      let s₂ : Scn := { s' with rawdata := some r, dataRead := true, filedata := true }
      have hl : Loaded env (e.put p s₂) p s₂ h r :=
        ⟨entry_put hs', hshdr, rfl, rfl, hraw.nonempty, hraw.off, .inl hunread.2.2⟩
      rw [@getdata_raw env _ (e.put p s₂) _ _ _ hk' hk' hs' hunread.2.1
        (setRawdata_present hs' hshdr hr) hl.entry rfl] at hget
      obtain ⟨d, -, hd, rfl⟩ := hl.getdata_ok hget
      have hl' := hl.setList hd
      rw [put_put] at hl' ⊢
      have hshape := @shape_put e p s' { s₂ with dataList := [d] } hs' rfl
      refine ⟨hh.same.trans (.put _ _ _), hshape.trans hh.shape, fun q s hq => ?_⟩
      by_cases hqp : q = p
      · subst hqp
        obtain rfl := Option.some.inj (hs.symm.trans hq)
        exact ⟨_, hl'.entry, rfl, .inr ⟨List.mem_append_right _ List.mem_cons_self, h, r, d, hh.same.isRaw hraw, hl', rfl⟩⟩
      · obtain ⟨sq, hsq, hshdrq, hcaseq⟩ := hh.entries q s hq
        refine ⟨sq, (entry_put_ne hqp).trans hsq, hshdrq, hcaseq.imp ?_ ?_⟩
        · rintro ⟨hnot, rfl⟩
          refine ⟨fun hmem => ?_, rfl⟩
          rcases List.mem_append.mp hmem with hmem | hmem
          · exact hnot hmem
          · exact hqp (List.mem_singleton.mp hmem)
        · rintro ⟨hmem, h₁, r₁, d₁, hraw₁, hl₁, hlist₁⟩
          exact ⟨List.mem_append_left _ hmem, h₁, r₁, d₁, hraw₁, hl₁.frame (.put _ _ _) (entry_put_ne hqp), hlist₁⟩
  · -- the block is there, and the call gives it
    have hsame : e' = e := by
      cases data with
      | some k => exact (elfGetdata_some_ok hget).1
      | none =>
        obtain ⟨d', -, hd', rfl⟩ := hl.getdata_ok hget
        obtain ⟨d₁, hd₁, hblock⟩ := hl.list.resolve_left (by rw [hlist]; exact List.cons_ne_nil _ _)
        obtain rfl := hblock.unique hd'
        rw [← hd₁]
        exact put_self hl.entry
    rw [hsame]
    exact hh.again hold

theorem Fetched.mem (hf : Fetched env e₀ ps e) : ∀ p ∈ ps, p.1 = 0 ∧ p.2 < e₀.sections.length := by
  induction hf with
  | start => exact nofun
  | getdata _ hp _ ih =>
    intro q hq
    rcases List.mem_append.mp hq with hq | hq
    · exact ih q hq
    · obtain rfl := List.mem_singleton.mp hq
      exact hp

/-- What calls of `elf_getdata` leave of an object that was opened: nothing was asked for, or it has its section headers
and the data that was asked for. -/
theorem fetched_holds (hu : Untouched env ec e₀) (hf : Fetched env e₀ ps e) :
    ps = [] ∧ e = e₀ ∨ 0 < e₀.sections.length ∧ ∃ e₁, WithHeaders env ec e₀ e₁ ∧ Holds env ps e₁ e := by
  induction hf with
  | start => exact .inl ⟨rfl, rfl⟩
  | @getdata ps p data x e e' hf hp hget ih =>
    refine .inr ⟨Nat.lt_of_le_of_lt (Nat.zero_le _) hp.2, ?_⟩
    rcases ih with ⟨rfl, rfl⟩ | ⟨-, e₁, hw, hh⟩
    · obtain ⟨s, hs, -⟩ := hu.entry hp
      have hunread := hu.unread hs
      cases data with
      | some k =>
        obtain ⟨-, s₁, hs₁, hlt⟩ := elfGetdata_some_ok hget
        obtain rfl := Option.some.inj (hs.symm.trans hs₁)
        rw [hunread.2.2] at hlt
        exact absurd hlt (Nat.not_lt_zero k)
      | none =>
        obtain ⟨s₀, t, -, -, hs₀, hset, -⟩ := elfGetdata_none_ok hget
        obtain rfl := Option.some.inj (hs.symm.trans hs₀)
        obtain ⟨-, hset⟩ := hset.resolve_left fun h => absurd (hunread.2.1.symm.trans h.1) nofun
        rw [setRawdata_eq] at hset
        obtain ⟨h, e₁, hshdr, -⟩ := bind_eq_ok.mp hset
        have hw := hu.withHeaders hp hshdr
        obtain ⟨-, -, s₁, -, hs₁, -, hh₁⟩ := getShdr_frame hshdr
        have hunread₁ := hw.unread p s₁ hs₁
        have hk₁ : e₁.kind = .elf := hw.same.kind.trans hu.opened.kind
        have hsame : setRawdata env p e = setRawdata env p e₁ := by
          rw [setRawdata_eq, setRawdata_eq, hshdr, getShdr_present hs₁ hh₁]
        rw [getdata_headers hu.opened.kind hk₁ hs hunread.2.1 hs₁ hunread₁.2.1 hsame] at hget
        exact ⟨e₁, hw, (Holds.start e₁).getdata hk₁ hs₁ hunread₁ hh₁ hget⟩
    · obtain ⟨h, hh'⟩ := Option.isSome_iff_exists.mp (hw.all p.2 hp.2)
      obtain ⟨s, hs, hshdr⟩ := Option.bind_eq_some_iff.mp hh'
      rw [show ((0, p.2) : ScnHandle) = p from Prod.ext hp.1.symm rfl] at hs
      exact ⟨e₁, hw, hh.getdata (hw.same.kind.trans hu.opened.kind) hs (hw.unread p s hs) hshdr hget⟩

end Calls

end LibElf.Elfutils
