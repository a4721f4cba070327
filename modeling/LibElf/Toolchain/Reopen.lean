import LibElf.Toolchain.StoredImage
import LibElf.Toolchain.NumberRuns
import LibElf.Toolchain.LayoutAgain
import LibElf.Toolchain.LibraryLayout

/-!
# The new file, opened again

What a reader finds in the file that `elf_update` has written.

1. `openedElf` and `openObject_read_iff`: the descriptor of the new file, and when there is one.
2. `loadLoop_scns`, the section headers as they are read in.
3. `Reopenable`, the condition on the object that is written, and `SameObject`, what the reader sees.
4. `Written`, a file and its object, and `reopened_iff`: the two are equivalent.
-/

namespace LibElf.Toolchain

open Outcome

/-- The executable header is longer than its identification. -/
theorem eiNident_lt_fsize (ec : ElfClass) : eiNident < fsize .ehdr ec := by cases ec <;> decide

theorem fsize_shdr_small (ec : ElfClass) : fsize .shdr ec < UInt16.size := by cases ec <;> decide

/-! ## The descriptor -/

section Opened

attribute [local irreducible] fsize msize

variable {env : Env} {ec : ElfClass}

def openedElf (ec : ElfClass) (im : Image) : Elf :=
  { allocateElf with
    eByteorder := im.bytes.getD 5 0
    eClass := some ec
    eFd := some im.bytes
    eFlags := ⟨false, false, false, true⟩
    eRawfile := some im }

/-- The identification is at the start of the file. -/
theorem Ehdr.take_toFile (host : ByteOrder) (swap : Bool) (ec : ElfClass) (h : Ehdr) :
    (h.toFile host swap ec).take 16 = h.eIdent.toList := by
  have hident : leBytes 16 (Ident.value h.eIdent) = h.eIdent.toList := by
    have hbytes := leBytes_ofLeBytes h.eIdent.toList
    rwa [show h.eIdent.toList.length = 16 by simp] at hbytes
  have hfirst : ∃ rest, h.toFile host swap ec = leBytes 16 (Ident.value h.eIdent) ++ rest := by
    rw [toFile, toMem, tofObject_encode host swap (isPacked_ehdr ec) (length_values ec h)]
    cases ec <;> exact ⟨_, rfl⟩
  obtain ⟨rest, hfirst⟩ := hfirst
  rw [hfirst, List.take_left' (length_leBytes 16 _), hident]

/-- A byte of the identification in a file with the header. -/
theorem ident_of_window {swap : Bool} {h : Ehdr} {bs : List UInt8}
    (hwin : window bs 0 (fsize .ehdr ec) = h.toFile env.host swap ec) (k : Nat) (hk : k < 16) :
    bs.getD k 0 = h.eIdent[k] := by
  have h16 : 16 ≤ fsize .ehdr ec := Nat.le_of_lt (eiNident_lt_fsize ec)
  have htake : bs.take 16 = h.eIdent.toList := by
    rw [← h.take_toFile env.host swap ec, ← hwin, window, List.drop_zero, List.take_take, Nat.min_eq_left h16]
  have hget : bs[k]? = some h.eIdent[k] := by
    rw [← List.getElem?_take_of_lt hk, htake, List.getElem?_eq_getElem (by simpa using hk)]
    simp
  rw [List.getD_eq_getElem?_getD, hget, Option.getD_some]

/-- A file with a header of the library is opened exactly when its byte order is one of the two. -/
theorem openObject_read_iff {swap : Bool} {h : Ehdr} {im : Image} {p : Nat} (hroom : fsize .ehdr ec ≤ im.bytes.length)
    (hwin : window im.bytes 0 (fsize .ehdr ec) = h.toFile env.host swap ec) (hfixed : initializeEhdr ec p h = h)
    (r : Elf) : openObject env .read im = .ok (some r) ↔
      (h.eIdent[5] = 1 ∨ h.eIdent[5] = 2) ∧ r = openedElf ec im := by
  have hbyte := ident_of_window hwin
  have hident : ∀ k (hk : k < 16), h.eIdent[k] = (initializeEhdr ec p h).eIdent[k] := fun k hk => by rw [hfixed]
  have hclass : ElfClass.ofByte (im.bytes.getD 4 0) = some ec := by
    rw [hbyte 4 (by decide), hident 4 (by decide)]
    cases ec <;> simp [initializeEhdr, ElfClass.toByte, ElfClass.ofByte]
  have hversion : im.bytes.getD 6 0 = 1 := by
    rw [hbyte 6 (by decide), hident 6 (by decide)]
    simp [initializeEhdr, evCurrent]
  have hlen : eiNident < im.bytes.length := Nat.lt_of_lt_of_le (eiNident_lt_fsize ec) hroom
  have hmagic : window im.bytes 0 4 = [0x7F, 0x45, 0x4C, 0x46] := by
    have hfour : window im.bytes 0 4 =
        [im.bytes.getD 0 0, im.bytes.getD 1 0, im.bytes.getD 2 0, im.bytes.getD 3 0] := by
      rw [window, List.drop_zero]
      have hthird : 3 < im.bytes.length := Nat.lt_trans (by decide) hlen
      generalize im.bytes = bs at hthird ⊢
      rcases bs with _ | ⟨a, _ | ⟨b, _ | ⟨c, _ | ⟨d, l⟩⟩⟩⟩
      · simp at hthird
      · simp at hthird
      · simp at hthird
      · simp at hthird
      · rfl
    rw [hfour, hbyte 0 (by decide), hbyte 1 (by decide), hbyte 2 (by decide), hbyte 3 (by decide), hident 0 (by decide),
      hident 1 (by decide), hident 2 (by decide), hident 3 (by decide)]
    simp [initializeEhdr]
  have hne : im.bytes ≠ [] := by
    intro hnil
    rw [hnil] at hlen
    exact Nat.not_lt_zero _ hlen
  have hgetD := hbyte 5 (by decide)
  unfold openObject libelfMemory
  dsimp only
  rw [if_neg hne, if_pos ⟨hlen, decide_eq_true hmagic⟩, hversion, hclass, hgetD]
  dsimp only
  rw [if_neg (show ¬ (1 : UInt8).toNat > evCurrent by decide)]
  by_cases horder : h.eIdent[5] = 1 ∨ h.eIdent[5] = 2
  · have hgood : ¬ (h.eIdent[5] ≠ 1 ∧ h.eIdent[5] ≠ 2) := fun hno => horder.elim hno.1 hno.2
    rw [if_neg hgood, openedElf, hgetD]
    constructor
    · intro hr
      cases hr
      exact ⟨horder, rfl⟩
    · rintro ⟨-, rfl⟩
      rfl
  · rw [if_pos (not_or.mp horder)]
    exact ⟨(by rintro ⟨⟩), fun hr => absurd hr.1 horder⟩

end Opened

/-! ## The section headers -/

section Sections

attribute [local irreducible] fsize msize

variable {env : Env} {ec : ElfClass}

/-- In a list with all the indices every section is at its index. -/
theorem sNdx_of_indices {e : Elf} (hind : indices e = List.range e.eNscn) :
    e.eScn.length = e.eNscn ∧ ∀ i (hi : i < e.eScn.length), e.eScn[i].sNdx = i := by
  rw [indices] at hind
  have hlen := congrArg List.length hind
  rw [List.length_map, List.length_range] at hlen
  refine ⟨hlen, fun i hi => ?_⟩
  have hget := List.getElem_of_eq hind (by rw [List.length_map]; exact hi : i < (e.eScn.map Scn.sNdx).length)
  rwa [List.getElem_map, List.getElem_range] at hget

/-- The section headers that the loop reads in. -/
theorem loadLoop_scns (n : Nat) : ∀ (src ndx : Nat) (e : Elf), src + n * fsize .shdr ec ≤ e.rawsize →
    loadLoop env ec n src ndx e = .ok () (e.setScn (e.eScn ++ (List.range n).map fun i =>
      loadScn env e ec (ndx + i) (window e.rawbytes (src + i * fsize .shdr ec) (fsize .shdr ec)))) := by
  induction n with
  | zero =>
    intro src ndx e _
    rw [List.range_zero, List.map_nil, List.append_nil]
    rfl
  | succ n ih =>
    intro src ndx e hin
    rw [Nat.succ_mul] at hin
    have hread : src + fsize .shdr ec ≤ e.rawbytes.length := by
      rw [e.length_rawbytes]
      omega
    rw [loadLoop, Elf.read, readAt_of_le _ hread, bind_ok, ih _ _ _ (by rw [Elf.rawsize_setScn]; omega)]
    have hnext : ∀ i, loadScn env (e.setScn (e.eScn ++ [loadScn env e ec ndx (window e.rawbytes src (fsize .shdr ec))])) ec
        (ndx + 1 + i) (window e.rawbytes (src + fsize .shdr ec + i * fsize .shdr ec) (fsize .shdr ec)) =
        loadScn env e ec (ndx + (i + 1)) (window e.rawbytes (src + (i + 1) * fsize .shdr ec) (fsize .shdr ec)) := by
      intro i
      rw [Nat.succ_mul, Nat.add_assoc, Nat.add_comm 1 i, Nat.add_assoc src, Nat.add_comm (fsize .shdr ec)]
      rfl
    rw [List.range_succ_eq_map, List.map_cons, List.map_map, Elf.rawbytes_setScn, Elf.setScn_eScn, List.append_assoc,
      List.singleton_append, Nat.add_zero, Nat.zero_mul, Nat.add_zero]
    exact congrArg (fun l => Outcome.ok () (e.setScn (e.eScn ++ loadScn env e ec ndx (window e.rawbytes src (fsize .shdr ec)) ::
      l))) (List.map_congr_left fun i _ => hnext i)

def fileShdrs (env : Env) (ec : ElfClass) (e : Elf) (shoff n : Nat) : List (Nat × Shdr) :=
  (List.range n).map fun i => (i, Shdr.ofFile env.host (e.swaps env) ec
    (window e.rawbytes (shoff + i * fsize .shdr ec) (fsize .shdr ec)))

/-- The section that was loaded from the entry with the index `x.1` and the header `x.2`; nothing of it was read. -/
structure LoadedScn (x : Nat × Shdr) (s : Scn) : Prop where
  sNdx : s.sNdx = x.1
  shdr : s.shdr = x.2
  sData : s.sData = []
  sRawdata : s.sRawdata = []

/-- With the header there, and section 0 if its header holds counts, the section headers of the file are read in. -/
theorem needSectionHeaders_file {e : Elf} {h : Ehdr} (hcmd : e.eCmd ≠ .write) (hload : e.eFlags.shdrsLoaded = false)
    (hentry : h.eShentsize.toNat = fsize .shdr ec) (hin : ec.get h.eShoff + e.eNscn * fsize .shdr ec ≤ e.rawsize)
    (hscn : e.eScn = [] ∨ e.eNscn ≠ 0 ∧ List.Forall₂ LoadedScn (fileShdrs env ec e (ec.get h.eShoff) 1) e.eScn) :
    ∃ l, needSectionHeaders env ec h e = .ok () ((e.setScn l).setFlags { e.eFlags with shdrsLoaded := true }) ∧
      List.Forall₂ LoadedScn (fileShdrs env ec e (ec.get h.eShoff) e.eNscn) l := by
  have hpos := fsize_shdr_pos ec
  have hlt := e.rawsize_lt
  have hcheck : ¬ (e.rawsize < ec.get h.eShoff ∨ fsize .shdr ec ≠ h.eShentsize.toNat ∨
      (2 ^ 64 - 1) / fsize .shdr ec < e.eNscn ∨ e.rawsize - ec.get h.eShoff < fsize .shdr ec * e.eNscn) := by
    rw [Nat.mul_comm (fsize .shdr ec)]
    rintro (hlow | hne | hmany | hlow)
    · omega
    · exact hne hentry.symm
    · refine Nat.not_le_of_lt hmany ((Nat.le_div_iff_mul_le hpos).mpr ?_)
      omega
    · omega
  have hloaded : ∀ (ndx src k : Nat), List.Forall₂ LoadedScn
      ((List.range k).map fun i => (ndx + i, Shdr.ofFile env.host (e.swaps env) ec
        (window e.rawbytes (src + i * fsize .shdr ec) (fsize .shdr ec))))
      ((List.range k).map fun i => loadScn env e ec (ndx + i)
        (window e.rawbytes (src + i * fsize .shdr ec) (fsize .shdr ec))) := by
    intro ndx src k
    rw [List.forall₂_map_left_iff, List.forall₂_map_right_iff]
    exact List.forall₂_same.mpr fun i _ => ⟨rfl, rfl, rfl, rfl⟩
  unfold needSectionHeaders loadSectionHeaders
  rw [if_pos ⟨hcmd, hload⟩, hload, if_neg Bool.false_ne_true]
  dsimp only
  rw [if_neg hcheck]
  rcases hscn with hnil | ⟨hn, hone⟩
  · rw [hnil]
    dsimp only
    rw [loadLoop_scns _ _ _ _ hin, bind_ok, hnil, List.nil_append]
    refine ⟨_, rfl, ?_⟩
    have hall := hloaded 0 (ec.get h.eShoff) e.eNscn
    simp only [Nat.zero_add] at hall ⊢
    exact hall
  · obtain ⟨m, hm⟩ := Nat.exists_eq_succ_of_ne_zero hn
    rw [hm, Nat.succ_mul] at hin
    rw [fileShdrs, List.range_one, List.map_singleton] at hone
    obtain ⟨s, rest, hfirst, hrest, hs⟩ := List.forall₂_cons_left_iff.mp hone
    obtain rfl := List.forall₂_nil_left_iff.mp hrest
    rw [hs]
    dsimp only
    rw [hm, Nat.succ_sub_one, loadLoop_scns _ _ _ _ (by omega), bind_ok, hs]
    refine ⟨_, rfl, ?_⟩
    rw [fileShdrs, List.range_succ_eq_map, List.map_cons, List.map_map]
    refine List.Forall₂.cons hfirst ?_
    have hnext : ∀ i, (Nat.succ i, Shdr.ofFile env.host (e.swaps env) ec
        (window e.rawbytes (ec.get h.eShoff + Nat.succ i * fsize .shdr ec) (fsize .shdr ec))) =
        (1 + i, Shdr.ofFile env.host (e.swaps env) ec
          (window e.rawbytes (ec.get h.eShoff + fsize .shdr ec + i * fsize .shdr ec) (fsize .shdr ec))) := by
      intro i
      rw [Nat.succ_mul, Nat.succ_eq_add_one, Nat.add_comm 1 i, Nat.add_assoc, Nat.add_comm (fsize .shdr ec)]
    have hrest := hloaded 1 (ec.get h.eShoff + fsize .shdr ec) m
    rw [← List.map_congr_left fun i _ => hnext i] at hrest
    exact hrest

end Sections

/-! ## The executable header -/

section Header

attribute [local irreducible] fsize msize

/-- The file that is written for `e`, with the header `h`, can be read again: its byte order is one of the two, its
counts are not refused, and where the reader looks them up in section header 0, that is of type `SHT_NULL` and has
both counts that it is asked for. -/
structure Reopenable (ec : ElfClass) (e : Elf) (h : Ehdr) : Prop where
  encoding : h.eIdent[5] = 1 ∨ h.eIdent[5] = 2
  counts : ¬ badCounts ec h
  scn0 : isExtended ec h → ∃ s ss, e.eScn = s :: ss ∧ s.shdr.shType = shtNull ∧ ec.get s.shdr.shSize = e.eNscn ∧
    (pnXnum ≤ e.eNphdr → s.shdr.shInfo.toNat = e.eNphdr)

/-- The counts and the entry size that a layout leaves in the executable header. -/
structure HeaderNumbers (ec : ElfClass) (e : Elf) (h : Ehdr) : Prop where
  phnum : h.ePhnum.toNat = min e.eNphdr pnXnum
  shnum : h.eShnum.toNat = if shnLoreserve ≤ e.eNscn then 0 else e.eNscn
  shentsize : h.eShentsize.toNat = fsize .shdr ec

variable {env : Env} {ec : ElfClass} {e : Elf} {h : Ehdr} {im : Image}

theorem badCounts_narrow : badCounts ec (h.narrow ec) ↔ badCounts ec h := by
  simp only [badCounts, Ehdr.narrow, ElfClass.get_narrow]

theorem isExtended_narrow : isExtended ec (h.narrow ec) ↔ isExtended ec h := by
  simp only [isExtended, Ehdr.narrow, ElfClass.get_narrow]

variable (hst : StoredHeaders env ec ((openedElf ec im).swaps env) e h im.bytes)
include hst

theorem fileEhdr_opened : fileEhdr env ec (openedElf ec im) = h.narrow ec := by
  have hwin : window (openedElf ec im).rawbytes 0 (fsize .ehdr ec) = h.toFile env.host ((openedElf ec im).swaps env) ec :=
    hst.ehdr
  rw [fileEhdr, hwin, Ehdr.ofFile_toFile]

/-- The section headers of the file are those of the object. -/
theorem fileShdrs_opened (hind : indices e = List.range e.eNscn) {k : Nat} (hk : k ≤ e.eNscn) :
    fileShdrs env ec (openedElf ec im) (ec.get h.eShoff) k =
      (e.eScn.take k).map fun s => (s.sNdx, s.shdr.narrow ec) := by
  obtain ⟨hlen, hndx⟩ := sNdx_of_indices hind
  refine List.ext_getElem (by rw [fileShdrs, List.length_map, List.length_range, List.length_map, List.length_take, hlen,
    Nat.min_eq_left hk]) fun i hi hi' => ?_
  rw [fileShdrs, List.length_map, List.length_range] at hi
  have hin : i < e.eScn.length := by omega
  have hwin : window (openedElf ec im).rawbytes (ec.get h.eShoff + i * fsize .shdr ec) (fsize .shdr ec) =
      e.eScn[i].shdr.toFile env.host ((openedElf ec im).swaps env) ec := by
    have hwin := hst.shdrs (by omega) _ (List.getElem_mem hin)
    rwa [hndx i hin] at hwin
  simp only [fileShdrs, List.getElem_map, List.getElem_range, List.getElem_take]
  rw [hwin, Shdr.ofFile_toFile, hndx i hin]

/-- A header whose counts are as they are. -/
theorem libelfEhdr_plain (hbad : ¬ badCounts ec h) (hext : ¬ isExtended ec h) :
    libelfEhdr env ec false (openedElf ec im) = .ok (h.narrow ec) (((openedElf ec im).setEhdr (h.narrow ec)).setCounts
      h.ePhnum.toNat h.eShnum.toNat h.eShstrndx.toNat) := by
  rw [libelfEhdr_file rfl rfl rfl (show Cmd.read ≠ .write from nofun) hst.room, fileEhdr_opened hst, if_neg (badCounts_narrow.not.mpr hbad),
    if_neg (isExtended_narrow.not.mpr hext)]
  rfl

/-- A header whose counts are in section header 0. -/
theorem libelfEhdr_looked (hind : indices e = List.range e.eNscn) (hbad : ¬ badCounts ec h) (hext : isExtended ec h)
    (hn : e.eNscn ≠ 0) {s : Scn} {ss : List Scn} (hs : e.eScn = s :: ss) :
    libelfEhdr env ec false (openedElf ec im) =
      if s.shdr.shType ≠ shtNull then .err .SECTION
        (((openedElf ec im).setEhdr (h.narrow ec)).setScn [{ allocateScn 0 with shdr := s.shdr.narrow ec }])
      else .ok (h.narrow ec)
        ((((openedElf ec im).setEhdr (h.narrow ec)).setScn [{ allocateScn 0 with shdr := s.shdr.narrow ec }]).setCounts
          (if h.ePhnum.toNat ≠ pnXnum then h.ePhnum.toNat else s.shdr.shInfo.toNat) (ec.get s.shdr.shSize)
          (if h.eShstrndx.toNat ≠ shnXindex then h.eShstrndx.toNat else s.shdr.shLink.toNat)) := by
  have hroom := hst.shdrRoom hn
  have hpos : fsize .shdr ec ≤ e.eNscn * fsize .shdr ec := Nat.le_mul_of_pos_left _ (Nat.pos_of_ne_zero hn)
  have hlt := im.size_lt
  have hshoff : ec.get (h.narrow ec).eShoff = ec.get h.eShoff := ec.get_narrow _
  have hscn0 : fileShdr0 env ec (openedElf ec im) = s.shdr.narrow ec := by
    have hone := fileShdrs_opened hst hind (Nat.one_le_iff_ne_zero.mpr hn)
    rw [hs, fileShdrs, List.range_one, List.map_singleton, List.take_succ_cons, List.take_zero, List.map_singleton,
      Nat.zero_mul, Nat.add_zero] at hone
    rw [fileShdr0, fileEhdr_opened hst, hshoff]
    exact (Prod.mk.inj (List.singleton_inj.mp hone)).2
  have hsize : (openedElf ec im).rawsize = im.bytes.length := rfl
  rw [libelfEhdr_extended rfl rfl rfl (show Cmd.read ≠ .write by rintro ⟨⟩) hst.room rfl]
  rotate_left
  · rwa [fileEhdr_opened hst, badCounts_narrow]
  · rwa [fileEhdr_opened hst, isExtended_narrow]
  · rw [fileEhdr_opened hst, hshoff]
    omega
  dsimp only
  rw [fileEhdr_opened hst, hscn0, hshoff, hsize, if_neg (by omega)]
  have hget : ec.get (s.shdr.narrow ec).shSize = ec.get s.shdr.shSize := ec.get_narrow _
  rw [hget]
  rfl

variable (hnum : HeaderNumbers ec e h) (hshoff : ec.get h.eShoff = 0 ↔ e.eNscn = 0)
  (hind : indices e = List.range e.eNscn)

omit hst in
include hnum in
/-- The number of program headers, as the reader finds it. -/
theorem phnum_eq (info : Nat) : (if h.ePhnum.toNat ≠ pnXnum then h.ePhnum.toNat else info) = e.eNphdr ↔
    (pnXnum ≤ e.eNphdr → info = e.eNphdr) := by
  have hmin := hnum.phnum
  split
  · next hne => exact iff_of_true (by omega) fun hle => absurd (hmin.trans (Nat.min_eq_right hle)) hne
  · next heq =>
    have hle : pnXnum ≤ e.eNphdr := by omega
    exact ⟨fun heq _ => heq, fun h => h hle⟩

include hnum hshoff hind

/-- The counts of a file that can be read again are those of the object. -/
theorem libelfEhdr_reopened (hre : Reopenable ec e h) : ∃ l x, libelfEhdr env ec false (openedElf ec im) =
      .ok (h.narrow ec) ((((openedElf ec im).setEhdr (h.narrow ec)).setScn l).setCounts e.eNphdr e.eNscn x) ∧
    (l = [] ∨ e.eNscn ≠ 0 ∧ List.Forall₂ LoadedScn (fileShdrs env ec (openedElf ec im) (ec.get h.eShoff) 1) l) := by
  by_cases hext : isExtended ec h
  · obtain ⟨s, ss, hs, htype, hsize, hinfo⟩ := hre.scn0 hext
    have hn : e.eNscn ≠ 0 := by
      intro hn
      rw [hn, indices, hs] at hind
      cases hind
    have hfirst := fileShdrs_opened hst hind (Nat.one_le_iff_ne_zero.mpr hn)
    have hndx : s.sNdx = 0 := by
      obtain ⟨m, hm⟩ := Nat.exists_eq_succ_of_ne_zero hn
      rw [indices, hs, hm, List.range_succ_eq_map] at hind
      exact (List.cons.inj hind).1
    refine ⟨[{ allocateScn 0 with shdr := s.shdr.narrow ec }],
      if h.eShstrndx.toNat ≠ shnXindex then h.eShstrndx.toNat else s.shdr.shLink.toNat, ?_, .inr ⟨hn, ?_⟩⟩
    · rw [libelfEhdr_looked hst hind hre.counts hext hn hs, if_neg (not_not.mpr htype), hsize, (phnum_eq hnum _).mpr hinfo]
    · rw [hfirst, hs, List.take_succ_cons, List.take_zero, List.map_singleton, hndx]
      exact .cons ⟨rfl, rfl, rfl, rfl⟩ .nil
  · obtain ⟨hmany, hrest⟩ := not_or.mp hext
    obtain ⟨hphnum, -⟩ := not_or.mp hrest
    have hp := (phnum_eq hnum 0).mpr fun hle => absurd (hnum.phnum.trans (Nat.min_eq_right hle)) hphnum
    rw [if_pos hphnum] at hp
    have hn : h.eShnum.toNat = e.eNscn := by
      have hshnum := hnum.shnum
      split at hshnum
      · next hle =>
        exact absurd ⟨hshnum, fun hoff => by rw [hshoff.mp hoff] at hle; exact absurd hle (by decide)⟩ hmany
      · exact hshnum
    refine ⟨[], h.eShstrndx.toNat, ?_, .inl rfl⟩
    rw [libelfEhdr_plain hst hre.counts hext, hp, hn]
    rfl

/-- A file whose counts are found is one that can be read again. -/
theorem reopenable_of_counts (hencoding : h.eIdent[5] = 1 ∨ h.eIdent[5] = 2) {h' : Ehdr} {r₁ : Elf}
    (hx : libelfEhdr env ec false (openedElf ec im) = .ok h' r₁) (hp : r₁.eNphdr = e.eNphdr) (hn : r₁.eNscn = e.eNscn) :
    Reopenable ec e h := by
  have hcounts : ¬ badCounts ec h := by
    intro hbad
    rw [libelfEhdr_file rfl rfl rfl (show Cmd.read ≠ .write from nofun) hst.room, fileEhdr_opened hst,
      if_pos (badCounts_narrow.mpr hbad)] at hx
    cases hx
  refine ⟨hencoding, hcounts, fun hext => ?_⟩
  have hne : e.eNscn ≠ 0 := by
    intro hzero
    have hoff := hshoff.mpr hzero
    rcases hext with hext | hext
    · exact hext.2 hoff
    · exact hcounts (.inr ⟨hoff, .inr hext⟩)
  obtain ⟨s, ss, hs⟩ : ∃ s ss, e.eScn = s :: ss := by
    refine List.exists_cons_of_ne_nil fun hnil => ?_
    rw [indices, hnil] at hind
    exact hne (List.range_eq_nil.mp hind.symm)
  rw [libelfEhdr_looked hst hind hcounts hext hne hs] at hx
  split at hx
  · cases hx
  · next htype =>
    cases hx
    exact ⟨s, ss, hs, not_not.mp htype, hn, (phnum_eq hnum _).mp hp⟩

end Header

/-! ## The whole object -/

section Object

attribute [local irreducible] fsize msize

/-- A program header table in the file is read in. -/
theorem getphdr_file {env : Env} {ec : ElfClass} {e e₁ : Elf} {h : Ehdr} (hnone : e.ePhdr = none)
    (hx : libelfEhdr env ec false e = .ok h e₁) (hne : e₁.eNphdr ≠ 0)
    (hin : ec.get h.ePhoff + e₁.eNphdr * fsize .phdr ec ≤ e₁.rawsize) : ∃ e', getphdr env ec e =
      .ok (records (Phdr.ofFile env.host (e₁.swaps env) ec) (fsize .phdr ec) e₁.eNphdr
        (window e₁.rawbytes (ec.get h.ePhoff) (e₁.eNphdr * fsize .phdr ec))) e' := by
  have hlt := e₁.rawsize_lt
  have hsize : libelfFsize .phdr ec e₁.eNphdr = e₁.eNphdr * fsize .phdr ec := by
    rw [libelfFsize, Nat.mul_comm, wrap_of_lt (by omega)]
  have hpos : e₁.eNphdr * fsize .phdr ec ≠ 0 := Nat.mul_ne_zero hne (Nat.ne_of_gt (fsize_phdr_pos ec))
  have hread : ec.get h.ePhoff + e₁.eNphdr * fsize .phdr ec ≤ e₁.rawbytes.length := by
    rw [e₁.length_rawbytes]
    exact hin
  rw [getphdr, hnone]
  dsimp only
  rw [hx, bind_ok, hsize, if_neg hpos, wrap_of_lt (by omega), if_neg (Nat.not_lt.mpr hin), Elf.read, readAt_of_le _ hread,
    bind_ok]
  exact ⟨_, rfl⟩

/-- A reader sees in the descriptor `r` the object `e`: its headers, as the class holds them, its counts and its
sections. -/
structure SameObject (env : Env) (ec : ElfClass) (e r : Elf) : Prop where
  ehdr : ∀ h, e.eEhdr = some h → ∃ r₁, gelfGetehdr env r = .ok (h.narrow ec) r₁
  phdrnum : ∃ r₁, elfGetphdrnum env r = .ok e.eNphdr r₁
  shdrnum : ∃ r₁, elfGetshdrnum env r = .ok e.eNscn r₁
  phdrs : e.eNphdr ≠ 0 → ∀ ps, e.ePhdr = some ps → ∃ r₁, elfGetphdr env r = .ok (ps.map (Phdr.narrow ec)) r₁
  scns : ∀ t ∈ e.eScn, ∃ k r₁ s, elfGetscn env t.sNdx r = .ok k r₁ ∧ r₁.eScn[k]? = some s ∧
    s.shdr = t.shdr.narrow ec ∧ s.sNdx = t.sNdx

/-- In the descriptor `r` of the file `im` the section `s` is the section `t` of the object, and nothing of it was read. -/
structure FreshScn (ec : ElfClass) (im : Image) (t s : Scn) (r : Elf) : Prop where
  loaded : LoadedScn (t.sNdx, t.shdr.narrow ec) s
  eClass : r.eClass = some ec
  eVersion : r.eVersion = evCurrent
  eRawfile : r.eRawfile = some im
  eByteorder : r.eByteorder = im.bytes.getD 5 0

variable {env : Env} {ec : ElfClass} {e : Elf} {h : Ehdr} {im : Image}

/-- The reader finds every section of the object. -/
theorem elfGetscn_reopened (hst : StoredHeaders env ec ((openedElf ec im).swaps env) e h im.bytes)
    (hnum : HeaderNumbers ec e h) (hshoff : ec.get h.eShoff = 0 ↔ e.eNscn = 0) (hind : indices e = List.range e.eNscn)
    (hre : Reopenable ec e h) {t : Scn} (ht : t ∈ e.eScn) : ∃ k r₁ s, elfGetscn env t.sNdx (openedElf ec im) = .ok k r₁ ∧
      r₁.eScn[k]? = some s ∧ FreshScn ec im t s r₁ := by
  obtain ⟨l, x, hx, hl⟩ := libelfEhdr_reopened hst hnum hshoff hind hre
  obtain ⟨hlen, hndx⟩ := sNdx_of_indices hind
  have hn : e.eNscn ≠ 0 := by
    rw [← hlen]
    exact Nat.ne_of_gt (List.length_pos_of_mem ht)
  have hshoff' : ec.get (h.narrow ec).eShoff = ec.get h.eShoff := ec.get_narrow _
  obtain ⟨l', hneed, hloaded⟩ := @needSectionHeaders_file env ec
    ((((openedElf ec im).setEhdr (h.narrow ec)).setScn l).setCounts e.eNphdr e.eNscn x) (h.narrow ec)
    (show Cmd.read ≠ .write from nofun) rfl hnum.shentsize (by rw [hshoff']; exact hst.shdrRoom hn)
    (by rw [hshoff']; exact hl)
  have hscns : List.Forall₂ LoadedScn (e.eScn.map fun s => (s.sNdx, s.shdr.narrow ec)) l' := by
    rw [hshoff'] at hloaded
    have hall := fileShdrs_opened hst hind (Nat.le_refl _)
    rw [← hlen, List.take_length, hlen] at hall
    rw [← hall]
    exact hloaded
  obtain ⟨hlen', hget⟩ := List.forall₂_iff_get.mp hscns
  rw [List.length_map] at hlen'
  have hget : ∀ i (hi : i < e.eScn.length) (hi' : i < l'.length),
      LoadedScn (e.eScn[i].sNdx, e.eScn[i].shdr.narrow ec) l'[i] := by
    intro i hi hi'
    have hone := hget i (by rw [List.length_map]; exact hi) hi'
    rwa [List.get_eq_getElem, List.getElem_map] at hone
  obtain ⟨j, hj, rfl⟩ := List.mem_iff_getElem.mp ht
  -- the section that is found has the index, and no other section has it
  have hfound : (l'.findIdx? fun s => s.sNdx = e.eScn[j].sNdx).isSome := by
    rw [List.findIdx?_isSome, List.any_eq_true]
    exact ⟨l'[j], List.getElem_mem (by omega), decide_eq_true (hget j hj (by omega)).sNdx⟩
  obtain ⟨k, hk⟩ := Option.isSome_iff_exists.mp hfound
  obtain ⟨hlt, hsame, -⟩ := List.findIdx?_eq_some_iff_getElem.mp hk
  have hkj : k = j := by
    have hsame := of_decide_eq_true hsame
    rwa [(hget k (by omega) hlt).sNdx, hndx k (by omega), hndx j hj] at hsame
  subst hkj
  refine ⟨k, ((((((openedElf ec im).setEhdr (h.narrow ec)).setScn l).setCounts e.eNphdr e.eNscn x).setScn l').setFlags
    ⟨false, false, true, true⟩), l'[k], ?_, List.getElem?_eq_getElem hlt, hget k hj hlt, rfl, rfl, rfl, rfl⟩
  rw [elfGetscn, withClass_of_class _ rfl, hx, bind_ok, hneed, bind_ok, Elf.setFlags_eScn, Elf.setScn_eScn, hk]
  rfl

/-- The object is seen in the file exactly when the file can be read again. -/
theorem sameObject_iff (hst : StoredHeaders env ec ((openedElf ec im).swaps env) e h im.bytes) (hh : e.eEhdr = some h)
    (hnum : HeaderNumbers ec e h) (hshoff : ec.get h.eShoff = 0 ↔ e.eNscn = 0) (hind : indices e = List.range e.eNscn)
    (hphdr : ∀ ps, e.ePhdr = some ps → ps.length = e.eNphdr) (hencoding : h.eIdent[5] = 1 ∨ h.eIdent[5] = 2) :
    SameObject env ec e (openedElf ec im) ↔ Reopenable ec e h := by
  have hclass : ∀ {α : Type} (f : ElfClass → Elf → Call α), withClass f (openedElf ec im) = f ec (openedElf ec im) :=
    fun f => withClass_of_class f rfl
  constructor
  · rintro ⟨-, ⟨r₁, hp⟩, ⟨r₂, hn⟩, -, -⟩
    rw [elfGetphdrnum, hclass] at hp
    rw [elfGetshdrnum, hclass] at hn
    obtain ⟨h', r₃, hx, hp⟩ := bind_eq_ok.mp hp
    obtain ⟨h'', r₄, hx', hn⟩ := bind_eq_ok.mp hn
    obtain ⟨rfl, rfl⟩ := Outcome.ok.inj (hx.symm.trans hx')
    exact reopenable_of_counts hst hnum hshoff hind hencoding hx (Outcome.ok.inj hp).1 (Outcome.ok.inj hn).1
  · intro hre
    obtain ⟨l, x, hx, hl⟩ := libelfEhdr_reopened hst hnum hshoff hind hre
    refine ⟨fun h' hh' => ?_, ?_, ?_, fun hne ps hps => ?_, fun t ht => ?_⟩
    · obtain rfl := Option.some.inj (hh.symm.trans hh')
      rw [gelfGetehdr, hclass, hx]
      exact ⟨_, rfl⟩
    · rw [elfGetphdrnum, hclass, hx]
      exact ⟨_, rfl⟩
    · rw [elfGetshdrnum, hclass, hx]
      exact ⟨_, rfl⟩
    · have hphoff : ec.get (h.narrow ec).ePhoff = ec.get h.ePhoff := ec.get_narrow _
      obtain ⟨r₁, hget⟩ := getphdr_file rfl hx hne (by rw [hphoff]; exact hst.phdrRoom hne)
      have hwin : window im.bytes (ec.get (h.narrow ec).ePhoff) (e.eNphdr * fsize .phdr ec) =
          ps.flatMap fun p => p.toFile env.host ((openedElf ec im).swaps env) ec := by
        rw [hphoff]
        exact hst.phdrs hne ps hps
      have hrecords : records (Phdr.ofFile env.host ((openedElf ec im).swaps env) ec) (fsize .phdr ec) e.eNphdr
          (window im.bytes (ec.get (h.narrow ec).ePhoff) (e.eNphdr * fsize .phdr ec)) = ps.map (Phdr.narrow ec) := by
        rw [hwin, ← hphdr ps hps, records_flatMap fun p => p.length_toFile _ _ _]
        exact List.map_congr_left fun p _ => p.ofFile_toFile _ _ _
      refine ⟨r₁, ?_⟩
      rw [elfGetphdr, hclass, ← hrecords]
      exact hget
    · obtain ⟨k, r₁, s, hget, hs, hfresh⟩ := elfGetscn_reopened hst hnum hshoff hind hre ht
      exact ⟨k, r₁, s, hget, hs, hfresh.loaded.shdr, hfresh.loaded.sNdx⟩

end Object

/-! ## Runs -/

section Runs

attribute [local irreducible] fsize msize

variable {env : Env} {ec : ElfClass} {e e₁ : Elf} {rc : Nat} {exs : List Extent}

/-- What a layout leaves in the executable header goes with the counts. -/
theorem LayoutRun.headerNumbers (r : LayoutRun env ec e rc exs e₁) : HeaderNumbers ec e₁ r.ehdr' := by
  have hcounts : r.ehdr'.ePhnum = UInt16.ofNat (if pnXnum ≤ r.start.eNphdr then pnXnum else r.start.eNphdr) ∧
      r.ehdr'.eShnum = if shnLoreserve ≤ r.start.eNscn then 0 else UInt16.ofNat r.start.eNscn := by
    unfold LayoutRun.ehdr'
    cases r.start.eFlags.layout with
    | true => exact ⟨rfl, rfl⟩
    | false => exact ⟨rfl, rfl⟩
  refine ⟨?_, ?_, ?_⟩
  · rw [hcounts.1, r.eNphdr]
    split
    · next hle =>
      rw [Nat.min_eq_right hle]
      rfl
    · next hlt =>
      have hlt : r.start.eNphdr < pnXnum := Nat.lt_of_not_le hlt
      rw [Nat.min_eq_left (Nat.le_of_lt hlt), UInt16.toNat_ofNat_of_lt' (Nat.lt_trans hlt (by decide))]
  · rw [hcounts.2, r.eNscn]
    split
    · rfl
    · next hlt =>
      have hlt : r.start.eNscn < shnLoreserve := Nat.lt_of_not_le hlt
      rw [UInt16.toNat_ofNat_of_lt' (Nat.lt_trans hlt (by decide))]
  · have hfixed := congrArg Ehdr.eShentsize r.headersIn.fixed
    rw [← hfixed]
    exact UInt16.toNat_ofNat_of_lt' (fsize_shdr_small ec)

theorem ShdrPlaced.off_absent {layout : Bool} {shoff n rc off rc' : Nat} {exs exs' : List Extent}
    (h : ShdrPlaced ec layout shoff n rc exs off rc' exs') (hn : n = 0) : off = 0 := by
  cases h with
  | absent => rfl
  | present hne => exact absurd hn hne

/-- Without sections the library places no section header table. -/
theorem LayoutRun.eShoff_library (r : LayoutRun env ec e rc exs e₁) (hlay : r.start.eFlags.layout = false)
    (hn : e₁.eNscn = 0) : ec.get r.ehdr'.eShoff = 0 := by
  rw [r.eNscn] at hn
  have hoff : r.shoff = 0 := r.shdr.off_absent hn
  rw [(r.offsets_library hlay).2, ElfClass.get_put, hoff, Nat.zero_mod]

/-- The file is what the library writes for an object after its layout; `h` is the header of the object. -/
structure Written (env : Env) (ec : ElfClass) (e : Elf) (h : Ehdr) (im : Image) : Prop where
  eEhdr : e.eEhdr = some h
  fixed : initializeEhdr ec e.eNphdr h = h
  numbers : HeaderNumbers ec e h
  shoff : ec.get h.eShoff = 0 ↔ e.eNscn = 0
  listed : indices e = List.range e.eNscn
  phdr : ∀ ps, e.ePhdr = some ps → ps.length = e.eNphdr
  stored : ∃ order, encodingOf env h.eIdent[5] = some order ∧
    StoredHeaders env ec (decide (order ≠ env.host)) e h im.bytes

/-- The reader and the writer agree about the byte order. -/
theorem Written.opened {h : Ehdr} {im : Image} (hwr : Written env ec e h im) (hencoding : h.eIdent[5] = 1 ∨ h.eIdent[5] = 2) :
    StoredHeaders env ec ((openedElf ec im).swaps env) e h im.bytes ∧
      encodingOf env h.eIdent[5] = some (fileOrder env.host ((openedElf ec im).swaps env)) := by
  obtain ⟨order, horder, hst⟩ := hwr.stored
  have hbyte : (openedElf ec im).eByteorder = h.eIdent[5] := ident_of_window hst.ehdr 5 (by decide)
  have hswaps : (openedElf ec im).swaps env = decide (order ≠ env.host) := by
    rw [Elf.swaps, hbyte, Env.byteorder]
    rcases hencoding with h | h
    · rw [h] at horder ⊢
      cases horder
      cases env.host <;> decide
    · rw [h] at horder ⊢
      cases horder
      cases env.host <;> decide
  rw [hswaps]
  refine ⟨hst, horder.trans (congrArg some ?_)⟩
  cases order <;> cases env.host <;> rfl

/-- The file is opened and shows the object exactly when it can be read again. -/
theorem Written.reopened {h : Ehdr} {im : Image} (hwr : Written env ec e h im) :
    (∃ r, openObject env .read im = .ok (some r) ∧ SameObject env ec e r) ↔ Reopenable ec e h := by
  obtain ⟨order, -, hst⟩ := hwr.stored
  have hread := openObject_read_iff hst.room hst.ehdr hwr.fixed
  constructor
  · rintro ⟨x, hopened, hsame⟩
    obtain ⟨hencoding, rfl⟩ := (hread x).mp hopened
    exact (sameObject_iff (hwr.opened hencoding).1 hwr.eEhdr hwr.numbers hwr.shoff hwr.listed hwr.phdr hencoding).mp hsame
  · intro hre
    exact ⟨_, (hread _).mpr ⟨hre.encoding, rfl⟩, (sameObject_iff (hwr.opened hre.encoding).1 hwr.eEhdr hwr.numbers
      hwr.shoff hwr.listed hwr.phdr hre.encoding).mpr hre⟩

variable {c : Cmd} {im₀ im : Image} {e₀ e' : Elf} {ops : List Op} {n₀ n : Nat}

/-- What a layout and the writers do for an object in a run. -/
theorem written_of_run (hopen : openObject env c im₀ = .ok (some e₀)) (hrun : runOps (Op.step env) e₀ ops = .ok e)
    (hc : e.eClass = some ec)
    (hfit : ∀ h start, readIn env ec (currentVersion e) = .ok h start → Fits start ec h ∧ CountFits start ec)
    (hnull : elfUpdate env .null e = .ok n₀ e₁) (hind : indices e₁ = List.range e₁.eNscn)
    (hshoff : e₁.eFlags.layout = true → e₁.eNscn = 0 → ∀ h, e₁.eEhdr = some h → ec.get h.eShoff = 0)
    (hupd : elfUpdate env .write e = .ok n e') (him : e'.eFd = some im.bytes) :
    ∃ exs h, ∃ r : LayoutRun env ec (currentVersion e) n exs e₁, Wf (currentVersion e) ∧ Wf e₁ ∧
      Fits r.start ec r.ehdr ∧ CountFits r.start ec ∧ writeElf env ec n exs e₁ = .ok n e' ∧ im.bytes.length = n ∧
      Written env ec e₁ h im := by
  obtain ⟨exs, hx, -⟩ := elfUpdate_null_ok hc hnull
  obtain ⟨rc, exs', e₂, hx', hwrite⟩ := elfUpdate_write_ok hc hupd
  obtain ⟨heq, rfl⟩ := Outcome.ok.inj (hx.symm.trans hx')
  obtain ⟨rfl, rfl⟩ := Prod.mk.inj heq
  have hw := wf_currentVersion (wf_run hopen hrun)
  have hw₁ : Wf e₁ := by
    have hall := @wf_resyncElf env ec _ hw
    rw [hx] at hall
    exact hall
  obtain ⟨r⟩ := resyncElf_ok hx
  obtain ⟨hfits, hcount⟩ := hfit _ _ r.read
  obtain ⟨rfl, -⟩ := r.wrote hw hw₁ hfits hcount hwrite him
  obtain ⟨hlen, order, h, horder, hh, hst⟩ := r.storedHeaders hw hw₁ hfits hcount (hind ▸ List.nodup_range) hwrite him
  have hin := r.headersIn
  obtain rfl : r.ehdr' = h := Option.some.inj (hin.eEhdr.symm.trans hh)
  refine ⟨exs, _, r, hw, hw₁, hfits, hcount, hwrite, hlen, hh, hin.fixed, r.headerNumbers, ⟨fun hzero => ?_, fun hzero => ?_⟩,
    hind, hw₁.phdr, order, hin.byteorder ▸ horder, hst⟩
  · by_contra hn
    exact hst.shoff hn hzero
  · cases hlay : e₁.eFlags.layout with
    | true => exact hshoff hlay hzero _ hh
    | false => exact r.eShoff_library ((congrArg (fun x => x.eFlags.layout) r.final).symm.trans hlay) hzero

/-- What `elf_update` writes for a state is read again exactly when the layout of that state is one that can be read
again. Without sections the application must not place a section header table. -/
theorem reopened_iff (hopen : openObject env c im₀ = .ok (some e₀)) (hrun : runOps (Op.step env) e₀ ops = .ok e)
    (hc : e.eClass = some ec)
    (hfit : ∀ h start, readIn env ec (currentVersion e) = .ok h start → Fits start ec h ∧ CountFits start ec)
    (hnull : elfUpdate env .null e = .ok n₀ e₁) (hind : indices e₁ = List.range e₁.eNscn)
    (hshoff : e₁.eFlags.layout = true → e₁.eNscn = 0 → ∀ h, e₁.eEhdr = some h → ec.get h.eShoff = 0)
    (hupd : elfUpdate env .write e = .ok n e') (him : e'.eFd = some im.bytes) :
    (∃ r, openObject env .read im = .ok (some r) ∧ SameObject env ec e₁ r) ↔
      ∃ h, e₁.eEhdr = some h ∧ Reopenable ec e₁ h := by
  obtain ⟨exs, h, r, -, -, -, -, -, -, hwr⟩ := written_of_run hopen hrun hc hfit hnull hind hshoff hupd him
  rw [hwr.reopened]
  refine ⟨fun hre => ⟨h, hwr.eEhdr, hre⟩, ?_⟩
  rintro ⟨h', hh', hre⟩
  obtain rfl := Option.some.inj (hwr.eEhdr.symm.trans hh')
  exact hre

end Runs

/-- The conditions on a state, as far as they can be evaluated under library layout, and `p` of the layout and the file. -/
def checked (env : Env) (ec : ElfClass) (e : Elf) (p : Elf → List UInt8 → Bool) : Bool :=
  (readIn env ec (currentVersion e)).returns (fun _ start =>
    decide (start.eFlags.layout = false ∧ ¬ shnLoreserve ≤ start.eNscn ∧
      packEnd (headersEnd ec start.eNphdr) (scnDemands start ec start.eScn ++ tableDemand ec start.eNscn) < 2 ^ 63)) &&
  (elfUpdate env .null e).returns (fun _ e₁ =>
    decide (indices e₁ = List.range e₁.eNscn ∧ e₁.eFlags.layout = false) && (e₁.eEhdr.any fun h =>
      decide ((h.eIdent[5] = 1 ∨ h.eIdent[5] = 2) ∧ ¬ badCounts ec h ∧ ¬ isExtended ec h)) &&
    (elfUpdate env .write e).returns (fun n e' => decide (n < 2 ^ ec.width) &&
      e'.eFd.any fun im => decide (im.length < 2 ^ 64) && p e₁ im))

theorem of_checked {env : Env} {ec : ElfClass} {e : Elf} {p : Elf → List UInt8 → Bool} (h : checked env ec e p = true) :
    ∃ e₁ e' n₀ n h, ∃ im : Image,
      (∀ h start, readIn env ec (currentVersion e) = .ok h start → Fits start ec h ∧ CountFits start ec) ∧
      elfUpdate env .null e = .ok n₀ e₁ ∧ indices e₁ = List.range e₁.eNscn ∧ e₁.eFlags.layout = false ∧
      elfUpdate env .write e = .ok n e' ∧ n < 2 ^ ec.width ∧ e'.eFd = some im.bytes ∧ e₁.eEhdr = some h ∧
      Reopenable ec e₁ h ∧ p e₁ im.bytes = true := by
  unfold checked at h
  rw [Bool.and_eq_true] at h
  obtain ⟨hread, hrest⟩ := h
  obtain ⟨hdr, start, hread, hstart⟩ := exists_of_returns hread
  obtain ⟨hlay, hn, hfit⟩ := of_decide_eq_true hstart
  obtain ⟨n₀, e₁, hnull, hrest⟩ := exists_of_returns hrest
  rw [Bool.and_eq_true, Bool.and_eq_true] at hrest
  obtain ⟨⟨hgood, hre⟩, hupd⟩ := hrest
  obtain ⟨hind, hlay₁⟩ := of_decide_eq_true hgood
  obtain ⟨h', hh, hre⟩ := (Option.any_eq_true _ _).mp hre
  obtain ⟨hencoding, hbad, hext⟩ := of_decide_eq_true hre
  obtain ⟨n, e', hupd, hfile⟩ := exists_of_returns hupd
  rw [Bool.and_eq_true] at hfile
  obtain ⟨bs, hbs, hlt⟩ := (Option.any_eq_true _ _).mp hfile.2
  rw [Bool.and_eq_true] at hlt
  refine ⟨e₁, e', n₀, n, h', ⟨4096, bs, of_decide_eq_true hlt.1⟩, fun hdr' start' hread' => ?_, hnull, hind, hlay₁, hupd,
    of_decide_eq_true hfile.1, hbs, hh, ⟨hencoding, hbad, fun h => absurd h hext⟩, hlt.2⟩
  rw [hread] at hread'
  cases hread'
  refine ⟨?_, fun hle => absurd hle hn⟩
  rw [Fits, hlay]
  exact hfit

/-- The identification of a class 64 file in the other byte order. -/
def swappedIdent : Vector UInt8 16 := #v[0x7F, 0x45, 0x4C, 0x46, 2, 2, 1, 0, 0, 0, 0, 0, 0, 0, 0, 0]

/-- An object with a program header and a section of four bytes, for the other byte order. -/
def swappedOps : List Op :=
  [.newehdr .elfclass64, .setEhdr { Ehdr.zero with eIdent := swappedIdent }, .newphdr 1,
   .newscn, .setShdr 1 { Shdr.zero with shType := 1, shAddralign := 1 }, .newdata 1,
   .setData 1 0 ⟨1, 0, 4, some ⟨4096, [1, 2, 3, 4]⟩, some .byte, 1, fourBytes_size⟩]

theorem reopened_iff_swapped : ∃ e₀ e e₁ e' n₀ n r, ∃ im : Image, openObject plainEnv .write noImage = .ok (some e₀) ∧
    runOps (Op.step plainEnv) e₀ swappedOps = .ok e ∧ elfUpdate plainEnv .null e = .ok n₀ e₁ ∧
    elfUpdate plainEnv .write e = .ok n e' ∧ e'.eFd = some im.bytes ∧ openObject plainEnv .read im = .ok (some r) ∧
    SameObject plainEnv .elfclass64 e₁ r := by
  have hall : ∃ e₀ e, openObject plainEnv .write noImage = .ok (some e₀) ∧
      runOps (Op.step plainEnv) e₀ swappedOps = .ok e ∧ e.eClass = some .elfclass64 ∧
      checked plainEnv .elfclass64 e (fun _ _ => true) = true :=
    ⟨_, _, rfl, rfl, rfl, by decide +kernel⟩
  obtain ⟨e₀, e, hopen, hrun, hc, hcheck⟩ := hall
  obtain ⟨e₁, e', n₀, n, h, im, hfit, hnull, hind, hlay, hupd, -, him, hh, hre, -⟩ := of_checked hcheck
  obtain ⟨r, hread, hsame⟩ := (reopened_iff hopen hrun hc hfit hnull hind (fun h => by rw [hlay] at h; cases h) hupd
    him).mpr ⟨h, hh, hre⟩
  exact ⟨e₀, e, e₁, e', n₀, n, r, im, hopen, hrun, hnull, hupd, him, hread, hsame⟩

end LibElf.Toolchain
