import LibElf.Base.Sweep
import LibElf.Toolchain.Codec
import LibElf.Toolchain.FailedUpdate

/-!
# The contents of a section that the application lays out

Under `ELF_F_LAYOUT` the writer goes through the data descriptors of a section in the order in which they were added,
with one cursor. It fills the file from the cursor up to the next descriptor.

1. `fileBytes`, the translation of a descriptor.
2. `dataLoop_bytes`: the writer of a section is the sweep of a cursor over its descriptors.
3. `ContentsPlaced` and `layout_contents_iff`.
-/

namespace LibElf.Toolchain

open Outcome Mem

attribute [local irreducible] fsize msize

/-! ## Descriptors -/

section Data

variable (env : Env) (encoding : UInt8) (ec : ElfClass)

/-- Types of fixed size that are as large in memory as in the file. -/
def SameSize (d : ElfData) : Prop :=
  d.dType = some .byte ∨ ∃ t, d.dType = some t ∧ t.isVariable = false ∧ fsize t ec = msize t ec

/-- The contents of a descriptor in the file: its bytes, or its objects one by one. -/
def fileBytes (d : ElfData) : List UInt8 :=
  match d.dBuf, d.dType, encodingOf env encoding with
  | some b, some .byte, _ => b.bytes
  | some b, some t, some order =>
    match structDef ec t with
    | none => []
    | some fs => (records (tofObject env.host (decide (order ≠ env.host)) fs) (naturalSize fs)
        (d.dSize.toNat / naturalSize fs) b.bytes).flatten
  | _, _, _ => []

def piece (d : ElfData) : Piece := ⟨d.dOff.toNat, fileBytes env encoding ec d⟩

variable {env encoding ec} {n : Nat} {nf nf' : Mem n} {d : ElfData}

theorem fileBytes_byte {b : Buf} (hb : d.dBuf = some b) (ht : d.dType = some .byte) :
    fileBytes env encoding ec d = b.bytes := by
  unfold fileBytes
  rw [hb, ht]

theorem fileBytes_fixed {b : Buf} {t : ElfType} {fs : List Field} {order : ByteOrder} (hb : d.dBuf = some b)
    (ht : d.dType = some t) (hvar : t.isVariable = false) (hfs : structDef ec t = some fs)
    (horder : encodingOf env encoding = some order) :
    fileBytes env encoding ec d = (records (tofObject env.host (decide (order ≠ env.host)) fs) (naturalSize fs)
      (d.dSize.toNat / naturalSize fs) b.bytes).flatten := by
  by_cases hbyte : t = .byte
  · subst hbyte
    obtain ⟨-, hm, hsame, -⟩ := byteField_same hfs env.host (decide (order ≠ env.host))
    have hlen := d.size_buf b hb
    rw [fileBytes_byte hb ht, hm, flatten_records_of_id hsame _ (by omega), Nat.div_one, Nat.mul_one, ← hlen, window_full]
  · unfold fileBytes
    rw [hb, ht, horder]
    cases t with
    | byte => exact absurd rfl hbyte
    | _ => simp only [hfs]

/-- Bytes that were stored, and what was there before around them. -/
theorem bytes_of_window {off : Nat} {bs : List UInt8} (hframe : Frame nf nf' off bs.length)
    (hwin : window nf'.bytes off bs.length = bs) (a : Nat) :
    nf'.bytes[a]? = if off ≤ a ∧ a < off + bs.length then bs[a - off]? else nf.bytes[a]? := by
  split
  · next hin =>
    have hget := getElem?_window nf'.bytes off bs.length (a - off)
    rw [hwin, if_pos (by omega), Nat.add_sub_cancel' hin.1] at hget
    exact hget.symm
  · next hout => exact hframe a (by omega)

theorem copyBytes_bytes {off len : Nat} {src : List UInt8} (hlen : src.length = len) (hin : off + len ≤ n)
    (hx : copyBytes nf off src 0 len = .ok () nf') : Frame nf nf' off src.length ∧ window nf'.bytes off src.length = src := by
  subst hlen
  unfold copyBytes at hx
  rw [readAt_of_le nf (Nat.le_of_eq (Nat.zero_add _)), bind_ok, window_full, write_of_le nf hin] at hx
  cases hx
  exact ⟨frame_splice nf hin, window_splice_self (by rw [nf.length_eq]; exact hin)⟩

theorem dataFsz_same {e : Elf} (hok : DataOk e ec d) (hsame : SameSize ec d) : dataFsz ec d = d.dSize.toNat := by
  obtain ⟨t, ht, -, hmod⟩ := hok.known
  have heq : fsize t ec = msize t ec := by
    rcases hsame with hbyte | ⟨u, hu, -, hsize⟩
    · obtain rfl : t = .byte := Option.some.inj (ht.symm.trans hbyte)
      rw [fsize_byte, msize_byte]
    · obtain rfl : t = u := Option.some.inj (ht.symm.trans hu)
      exact hsize
  rw [(dataFsz_eq ht).1, heq]
  exact Nat.mul_div_cancel' (Nat.dvd_of_mod_eq_zero hmod)

/-- What the translation of a descriptor stores, and where. -/
theorem xlateTof_bytes {e : Elf} {off v v' : Nat} (hok : DataOk e ec d) (hsame : SameSize ec d)
    (hin : off + d.dSize.toNat ≤ n)
    (hx : xlateTof env encoding ec off (dataFsz ec d) v d.dBuf d.dSize.toNat d.dType v' nf = .ok () nf') :
    (fileBytes env encoding ec d).length = d.dSize.toNat ∧ ∀ a, nf'.bytes[a]? =
      if off ≤ a ∧ a < off + d.dSize.toNat then (fileBytes env encoding ec d)[a - off]? else nf.bytes[a]? := by
  obtain ⟨t, ht, hpos, hmod⟩ := hok.known
  unfold xlateTof at hx
  split at hx
  · cases hx
  next order horder =>
  split at hx
  · cases hx
  split at hx
  · cases hx
  · cases hx
  next b u hb hu =>
  obtain rfl : t = u := Option.some.inj (ht.symm.trans hu)
  have hlen := d.size_buf b hb
  split at hx
  · cases hx
  split at hx
  · cases hx
  dsimp only at hx
  split at hx
  · cases hx
  split at hx
  · cases hx
  split at hx
  · cases hx
  -- the bytes of the translation
  have hbytes : (fileBytes env encoding ec d).length = d.dSize.toNat ∧ (d.dSize.toNat ≠ 0 →
      Frame nf nf' off (fileBytes env encoding ec d).length ∧
        window nf'.bytes off (fileBytes env encoding ec d).length = fileBytes env encoding ec d) := by
    rcases hsame with hbyte | ⟨u, hu', hvar, hsize⟩
    · obtain rfl : t = .byte := Option.some.inj (ht.symm.trans hbyte)
      rw [fileBytes_byte hb hbyte]
      refine ⟨hlen, fun hne => ?_⟩
      have htr : getTranslator env.host .byte true ec = some cvtByte := rfl
      rw [if_neg hne, htr, msize_byte, fsize_byte, Nat.div_one, Nat.mul_one] at hx
      dsimp only at hx
      rw [cvtByte, if_neg (Nat.lt_irrefl _)] at hx
      refine copyBytes_bytes hlen hin ?_
      split at hx
      · cases hx
      · cases hx
      · next hcopy =>
        cases hx
        exact hcopy
    · obtain rfl : t = u := Option.some.inj (ht.symm.trans hu')
      cases hfs : structDef ec t with
      | none =>
        exfalso
        unfold msize at hpos
        rw [hvar, hfs] at hpos
        exact Nat.lt_irrefl _ hpos
      | some fs =>
        have hmsz := msize_of_structDef hvar hfs
        have hfsz := fsize_of_structDef hvar hfs
        have hpacked : packedSize fs = naturalSize fs := hfsz.symm.trans (hsize.trans hmsz)
        have hcount : d.dSize.toNat / naturalSize fs * naturalSize fs = d.dSize.toNat := by
          rw [← hmsz]
          exact Nat.div_mul_cancel (Nat.dvd_of_mod_eq_zero hmod)
        have hflat : (fileBytes env encoding ec d).length = d.dSize.toNat := by
          rw [fileBytes_fixed hb ht hvar hfs horder]
          rw [length_flatten_records (fun r hr => length_tofObject env.host _ hr) _ _ (by rw [hcount, hlen]), hpacked]
          exact hcount
        refine ⟨hflat, fun hne => ?_⟩
        rw [if_neg hne, getTranslator_fixed hvar true, hfs, Option.map_some, hmsz, hfsz, hpacked] at hx
        dsimp only at hx
        obtain ⟨m, hm, hframe, hwin⟩ := @fixedConverter_tof env.host _ _ _ (decide (order ≠ env.host)) n off
          (d.dSize.toNat / naturalSize fs * naturalSize fs) (d.dSize.toNat / naturalSize fs) nf b.bytes hfs
          (by rw [hcount, hlen]) (by rw [hpacked, hcount]; exact hin) fun _ => by rw [hpacked]
        rw [hm] at hx
        cases hx
        rw [hpacked, hcount] at hframe hwin
        rw [hflat, fileBytes_fixed hb ht hvar hfs horder]
        exact ⟨hframe, hwin⟩
  obtain ⟨hsize, hstored⟩ := hbytes
  refine ⟨hsize, fun a => ?_⟩
  split at hx
  · next hzero =>
    cases hx
    rw [if_neg (by omega)]
  · next hne =>
    obtain ⟨hframe, hwin⟩ := hstored hne
    have hget := bytes_of_window hframe hwin a
    rw [hsize] at hget
    exact hget

/-- The writer of a section is the sweep of a cursor over its descriptors. -/
theorem dataLoop_bytes {e : Elf} {s : Scn} (hn : s.sOffset + s.sSize ≤ n) (hsmall : n < 2 ^ 64) (ds : List ElfData) :
    ∀ {c nrc : Nat} {nf nf' : Mem n},
    (∀ d ∈ ds, DataOk e ec d ∧ SameSize ec d ∧ d.dOff.toNat + d.dSize.toNat ≤ s.sSize) →
    dataLoop env ec e s (s.sOffset + c) ds nf = .ok nrc nf' →
    nrc = s.sOffset + sweepEnd c (ds.map (piece env e.eByteorder ec)) ∧
      (∀ d ∈ ds, (fileBytes env e.eByteorder ec d).length = d.dSize.toNat) ∧
      ∀ a, nf'.bytes[s.sOffset + a]? =
        swept env.fillchar c (ds.map (piece env e.eByteorder ec)) a nf.bytes[s.sOffset + a]? := by
  induction ds with
  | nil =>
    intro c nrc nf nf' _ hx
    cases hx
    exact ⟨rfl, nofun, fun _ => rfl⟩
  | cons d ds ih =>
    intro c nrc nf nf' hds hx
    obtain ⟨hok, hsame, hfit⟩ := hds d List.mem_cons_self
    obtain ⟨t, ht, -, -⟩ := hok.known
    have htarget : wrap (s.sOffset + d.dOff.toNat) = s.sOffset + d.dOff.toNat := wrap_of_lt (by omega)
    have hfsz : libelfFsize t ec (d.dSize.toNat / msize t ec) = d.dSize.toNat := by
      have hsize := dataFsz_same hok hsame
      rwa [dataFsz, ht] at hsize
    unfold dataLoop at hx
    rw [ht] at hx
    dsimp only at hx
    rw [htarget, hfsz] at hx
    obtain ⟨_, nf₁, hfill, hx⟩ := bind_eq_ok.mp hx
    have hgap := @ensures_fillGap env n nf (s.sOffset + c) (s.sOffset + d.dOff.toNat) (by omega)
    rw [hfill] at hgap
    obtain ⟨hframe, hfilled⟩ := hgap
    split at hx
    · cases hx
    split at hx
    · cases hx
    split at hx
    · cases hx
    obtain ⟨_, nf₂, hxlate, hx⟩ := bind_eq_ok.mp hx
    have hxlate : xlateTof env e.eByteorder ec (s.sOffset + d.dOff.toNat) (dataFsz ec d) e.eVersion d.dBuf
        d.dSize.toNat d.dType d.dVersion nf₁ = .ok () nf₂ := by
      rw [dataFsz_same hok hsame, ht]
      exact hxlate
    obtain ⟨hlen, hstored⟩ := xlateTof_bytes hok hsame (by omega) hxlate
    have hstop : (piece env e.eByteorder ec d).stop = d.dOff.toNat + d.dSize.toNat := by
      rw [Piece.stop, piece, hlen]
    have hend : wrap (s.sOffset + d.dOff.toNat + d.dSize.toNat) =
        s.sOffset + (piece env e.eByteorder ec d).stop := by
      rw [hstop, ← Nat.add_assoc]
      exact wrap_of_lt (by omega)
    rw [hend] at hx
    obtain ⟨hnrc, hlens, hrest⟩ := ih (fun x hx => hds x (List.mem_cons_of_mem d hx)) hx
    refine ⟨hnrc, List.forall_mem_cons.mpr ⟨hlen, hlens⟩, fun a => ?_⟩
    rw [hrest a, List.map_cons, swept]
    have hoff : (piece env e.eByteorder ec d).off = d.dOff.toNat := rfl
    -- the byte before the rest of the descriptors
    have hbyte : nf₂.bytes[s.sOffset + a]? = if (piece env e.eByteorder ec d).Covers a then
        (piece env e.eByteorder ec d).bytes[a - (piece env e.eByteorder ec d).off]?
        else if c ≤ a ∧ a < (piece env e.eByteorder ec d).off then some env.fillchar else nf.bytes[s.sOffset + a]? := by
      rw [hstored]
      refine if_congr ?_ ?_ ?_
      · rw [Piece.Covers, hstop, hoff]
        omega
      · rw [Nat.add_sub_add_left]
        rfl
      · rw [hoff]
        split
        · next hin => exact hfilled _ (by omega) (by omega)
        · next hout => exact hframe _ (by omega)
    rw [hbyte]

theorem fileBytes_empty (hd : d.dSize.toNat = 0) : fileBytes env encoding ec d = [] := by
  unfold fileBytes
  split
  · next b hb _ =>
    exact List.eq_nil_of_length_eq_zero ((d.size_buf b hb).trans hd)
  · split
    · rfl
    · rw [hd, Nat.zero_div, records, List.flatten_nil]
  · rfl

end Data

theorem window_eq_iff {l bs : List UInt8} {off : Nat} :
    window l off bs.length = bs ↔ ∀ i < bs.length, l[off + i]? = bs[i]? := by
  refine ⟨fun h i hi => ?_, fun h => List.ext_getElem? fun i => ?_⟩
  · have hget := getElem?_window l off bs.length i
    rw [h, if_pos hi] at hget
    exact hget.symm
  · rw [getElem?_window]
    by_cases hi : i < bs.length
    · rw [if_pos hi, h i hi]
    · rw [if_neg hi, List.getElem?_eq_none (Nat.not_lt.mp hi)]

/-! ## Sections -/

section Contents

variable (env : Env) (ec : ElfClass)

/-- A section whose contents the application laid out: the descriptors are inside of it, and apart from one
another. -/
structure AppContents (s : Scn) : Prop where
  filled : s.sData ≠ []
  kept : s.isSkipped = false
  same : ∀ d ∈ s.sData, SameSize ec d
  inside : ∀ d ∈ s.sData, d.dOff.toNat + d.dSize.toNat ≤ ec.get s.shdr.shSize
  apart : s.sData.Pairwise fun d d' => ∀ a, d.dOff.toNat ≤ a ∧ a < d.dOff.toNat + d.dSize.toNat →
    ¬ (d'.dOff.toNat ≤ a ∧ a < d'.dOff.toNat + d'.dSize.toNat)

/-- In the file `im` of the descriptor `e` every data descriptor of the section is where it should be, and every
other byte of the section is the fill character. -/
structure ContentsPlaced (e : Elf) (im : List UInt8) (s : Scn) : Prop where
  data : ∀ d ∈ s.sData, window im (ec.get s.shdr.shOffset + d.dOff.toNat) d.dSize.toNat =
    fileBytes env e.eByteorder ec d
  fill : ∀ a < ec.get s.shdr.shSize,
    (∀ d ∈ s.sData, ¬ (d.dOff.toNat ≤ a ∧ a < d.dOff.toNat + d.dSize.toNat)) →
    im[ec.get s.shdr.shOffset + a]? = some env.fillchar

variable {env ec} {e e' : Elf} {s : Scn} {im : List UInt8}

/-- The contents are in their places where the file has what the cursor leaves. -/
theorem contentsPlaced_iff {m : Nat → Option UInt8} (happ : AppContents ec s)
    (hlen : ∀ d ∈ s.sData, (fileBytes env e.eByteorder ec d).length = d.dSize.toNat)
    (hend : sweepEnd 0 (s.sData.map (piece env e.eByteorder ec)) = ec.get s.shdr.shSize)
    (him : ∀ a < ec.get s.shdr.shSize, im[ec.get s.shdr.shOffset + a]? =
      swept env.fillchar 0 (s.sData.map (piece env e.eByteorder ec)) a (m a)) :
    ContentsPlaced env ec e im s ↔ Unspoiled env.fillchar (s.sData.map (piece env e.eByteorder ec)) := by
  have hcovers : ∀ d ∈ s.sData, ∀ a, (piece env e.eByteorder ec d).Covers a ↔
      d.dOff.toNat ≤ a ∧ a < d.dOff.toNat + d.dSize.toNat := by
    intro d hd a
    rw [Piece.Covers, Piece.stop, piece, hlen d hd]
  have hapart : (s.sData.map (piece env e.eByteorder ec)).Pairwise Piece.Apart := by
    rw [List.pairwise_map]
    refine happ.apart.imp_of_mem fun {d d'} hd hd' h a ha ha' => h a ?_ ?_
    · exact (hcovers d hd a).mp ha
    · exact (hcovers d' hd' a).mp ha'
  rw [← swept_iff hapart 0 m]
  -- a descriptor, byte by byte
  have hdata : ∀ d ∈ s.sData, window im (ec.get s.shdr.shOffset + d.dOff.toNat) d.dSize.toNat =
      fileBytes env e.eByteorder ec d ↔ ∀ a, (piece env e.eByteorder ec d).Covers a →
        swept env.fillchar 0 (s.sData.map (piece env e.eByteorder ec)) a (m a) =
          (fileBytes env e.eByteorder ec d)[a - d.dOff.toNat]? := by
    intro d hd
    have hin := happ.inside d hd
    rw [← hlen d hd, window_eq_iff, hlen d hd]
    constructor
    · intro h a ha
      obtain ⟨hlo, hhi⟩ := (hcovers d hd a).mp ha
      have hbyte := h (a - d.dOff.toNat) (by omega)
      rw [Nat.add_assoc, Nat.add_sub_cancel' hlo, him a (by omega)] at hbyte
      exact hbyte
    · intro h i hi
      have hbyte := h (d.dOff.toNat + i) ((hcovers d hd _).mpr ⟨Nat.le_add_right _ _, by omega⟩)
      rw [← him _ (by omega), Nat.add_sub_cancel_left, ← Nat.add_assoc] at hbyte
      exact hbyte
  constructor
  · intro h p hp
    obtain ⟨d, hd, rfl⟩ := List.mem_map.mp hp
    exact (hdata d hd).mp (h.data d hd)
  · intro h
    refine ⟨fun d hd => (hdata d hd).mpr (h _ (List.mem_map_of_mem hd)), fun a ha hout => ?_⟩
    rw [him a ha]
    refine swept_of_between ?_ (Nat.zero_le a) (by rw [hend]; exact ha) _
    intro p hp
    obtain ⟨d, hd, rfl⟩ := List.mem_map.mp hp
    exact fun hin => hout d hd ((hcovers d hd a).mp hin)

theorem unspoiled_of_empty {fill : UInt8} (ps : List Piece) (h : ∀ p ∈ ps, p.bytes = []) : Unspoiled fill ps := by
  induction ps with
  | nil => trivial
  | cons p ps ih =>
    refine ⟨fun a ha => ?_, ih fun q hq => h q (List.mem_cons_of_mem p hq)⟩
    obtain ⟨hlo, hhi⟩ := ha
    rw [Piece.stop, h p List.mem_cons_self] at hhi
    exact absurd hlo (Nat.not_le.mpr hhi)

/-- A section without contents. -/
theorem contentsPlaced_empty (happ : AppContents ec s) (hsize : ec.get s.shdr.shSize = 0) :
    ContentsPlaced env ec e im s ∧ Unspoiled env.fillchar (s.sData.map (piece env e.eByteorder ec)) := by
  have hnil : ∀ d ∈ s.sData, d.dSize.toNat = 0 := by
    intro d hd
    have hin := happ.inside d hd
    omega
  refine ⟨⟨fun d hd => ?_, fun a ha => ?_⟩, unspoiled_of_empty _ fun p hp => ?_⟩
  · rw [fileBytes_empty (hnil d hd), hnil d hd]
    rfl
  · rw [hsize] at ha
    exact absurd ha (Nat.not_lt_zero a)
  · obtain ⟨d, hd, rfl⟩ := List.mem_map.mp hp
    exact fileBytes_empty (hnil d hd)

/-- The writer of a section with descriptors. -/
theorem writeScn_data {n i nrc : Nat} {ex : Extent} {w w' : Writing n} {t : Scn} (hex : ex.exDesc = i)
    (ht : w.elf.eScn[i]? = some t) (hdata : t.sData ≠ [])
    (h : writeScn env ec ex w = .ok nrc w') :
    nrc = ex.exStart ∨ dataLoop env ec w.elf t ex.exStart t.sData w.nf = .ok nrc w'.nf := by
  unfold writeScn at h
  rw [hex, ht] at h
  dsimp only at h
  split at h
  · cases h
    exact .inl rfl
  split at h
  · cases h
  split at h
  · cases h
  split at h
  · cases h
  obtain ⟨nf, hloop, rfl⟩ := within_eq_ok.mp h
  exact .inr hloop

theorem elfUpdate_write_ok {n : Nat} (hc : e.eClass = some ec) (h : elfUpdate env .write e = .ok n e') :
    ∃ rc exs e₁, resyncElf env ec (currentVersion e) = .ok (rc, exs) e₁ ∧ writeElf env ec rc exs e₁ = .ok n e' := by
  rw [elfUpdate, hc] at h
  have h : (if UpdateCmd.write = .write ∧ (currentVersion e).eCmd = .read then .err .MODE (currentVersion e)
      else (resyncElf env ec (currentVersion e)).bind fun r e =>
        if isNeg r.1 then .err .NONE e
        else if UpdateCmd.write = .null then .ok r.1 e
        else if e.eFd = none then .err .SEQUENCE e
        else writeElf env ec r.1 r.2 e) = .ok n e' := h
  split at h
  · cases h
  obtain ⟨⟨rc, exs⟩, e₁, hx, h⟩ := bind_eq_ok.mp h
  dsimp only at h
  split at h
  · cases h
  rw [if_neg (by rintro ⟨⟩)] at h
  split at h
  · cases h
  exact ⟨rc, exs, e₁, hx, h⟩

/-- Reading in the headers keeps the sections that are there. -/
theorem keeps_readIn {h : Ehdr} {start : Elf} (hw : Wf e) (hx : readIn env ec e = .ok h start) : Keeps e start := by
  have hok : ∀ {α : Type} {a b : Elf} {v : α} {x : Call α}, x.Ensures (fun _ => Keeps a) (Keeps a) (fun _ => True) →
      x = .ok v b → Keeps a b := by
    intro α a b v x hens hrun
    rw [hrun] at hens
    exact hens
  obtain ⟨h₀, e₁, hehdr, hx⟩ := bind_eq_ok.mp hx
  obtain ⟨hc, hv, hh, -⟩ := libelfEhdr_ok hehdr
  obtain ⟨h₁, e₂, hprep, hx⟩ := bind_eq_ok.mp hx
  have hk₂ := (hok (keeps_libelfEhdr hw) hehdr).trans (hok (keeps_prepareEhdr hh) hprep)
  obtain ⟨-, -, rfl, rfl⟩ := prepareEhdr_ok hprep
  obtain ⟨_, e₃, hphdr, hx⟩ := bind_eq_ok.mp hx
  obtain ⟨_, e₄, hneed, hx⟩ := bind_eq_ok.mp hx
  cases hx
  obtain ⟨ps, rfl⟩ := readPhdr_ok (by exact hc) (by exact hv) (by rfl) hphdr
  refine (hk₂.trans ?_).trans (hok (keeps_needSectionHeaders _) hneed)
  exact Keeps.of_eq rfl rfl

/-- A section with descriptors after the layout. -/
theorem LaidOut.of_layout {rc : Nat} {t : Scn} (h : LaidOut env e ec rc s t) (hlay : e.eFlags.layout = true)
    (hdata : s.sData ≠ []) :
    (∀ d ∈ s.sData, DataOk e ec d) ∧ t = { s with sSize := ec.get s.shdr.shSize, sOffset := ec.get s.shdr.shOffset } := by
  cases h with
  | keep hnil => exact absurd hnil hdata
  | move hnil => exact absurd hnil hdata
  | pack _ _ hlib =>
    rw [hlay] at hlib
    cases hlib
  | @check u size align _ hloaded _ hcheck =>
    rcases hloaded with ⟨-, rfl⟩ | ⟨hnil, -⟩
    · exact ⟨(checkData_layout hlay hcheck).1, rfl⟩
    · exact absurd hnil hdata

variable {c : Cmd} {file : Image} {e₀ : Elf} {ops : List Op} {n i : Nat}

/-- After a successful write the file has in a section what the cursor leaves there. -/
theorem LayoutRun.section_bytes {rc i n : Nat} {exs : List Extent} {e₁ : Elf} {t : Scn}
    (r : LayoutRun env ec e rc exs e₁) (hw : Wf e) (hw₁ : Wf e₁) (hfit : Fits r.start ec r.ehdr)
    (hcount : CountFits r.start ec) (ht : r.scns[i]? = some t) (hkeep : t.isSkipped = false) (hzero : t.sSize ≠ 0)
    (hfilled : t.sData ≠ [])
    (hds : ∀ d ∈ t.sData, DataOk r.start ec d ∧ SameSize ec d ∧ d.dOff.toNat + d.dSize.toNat ≤ t.sSize)
    (hwrite : writeElf env ec rc exs e₁ = .ok n e') (him : e'.eFd = some im) :
    (∀ d ∈ t.sData, (fileBytes env e'.eByteorder ec d).length = d.dSize.toNat) ∧
      sweepEnd 0 (t.sData.map (piece env e'.eByteorder ec)) = t.sSize ∧
      ∃ m : Nat → Option UInt8, ∀ a < t.sSize, im[t.sOffset + a]? =
        swept env.fillchar 0 (t.sData.map (piece env e'.eByteorder ec)) a (m a) := by
  have hcmd : e₁.eCmd ≠ .read := by
    intro hread
    rw [writeElf, if_pos hread] at hwrite
    cases hwrite
  have hp : r.start.eNphdr * msize .phdr ec < 2 ^ 64 := by
    rw [← r.eNphdr]
    exact hw₁.nphdr ec r.eClass
  have htiled := r.tiled hfit hp
  have hens := ensures_writeElf r hw hw₁ hfit hcount hcmd
  rw [hwrite] at hens
  obtain ⟨rfl, w', hlength, hwrote, rfl⟩ := hens
  obtain rfl := Option.some.inj him
  obtain ⟨s', hs', hnum⟩ := @numberScns_of_getElem? ec r.start.eNphdr r.start.eNscn _ _ _ ht
  rw [← r.eScn] at hs'
  -- its extent is written, and left alone after that
  have hmem := (htiled.mem _).mpr (.inr (.inr (.inl ⟨i, _, ht, hkeep, hzero, rfl⟩)))
  obtain ⟨w₁, w₂, hkept, hwriter, hwindow⟩ := hwrote.extent _ hmem
  obtain ⟨u, hu, hforget⟩ := hkept.2.getElem? hs'
  obtain ⟨-, hdata, -, -, hoff, -, hsz⟩ := forget_eq hforget
  rw [hnum.data] at hdata
  rw [hnum.offset] at hoff
  rw [hnum.size] at hsz
  have hend := htiled.endBy _ hmem
  have hloop := (writeScn_data rfl hu (by rw [hdata]; exact hfilled) hwriter).resolve_left fun hstop =>
    hzero (Nat.add_left_cancel hstop)
  rw [hdata] at hloop
  have hds' : ∀ d ∈ t.sData, DataOk w₁.elf ec d ∧ SameSize ec d ∧ d.dOff.toNat + d.dSize.toNat ≤ u.sSize := by
    intro d hd
    obtain ⟨⟨hknown, hver, hpow⟩, hsame, hinside⟩ := hds d hd
    refine ⟨⟨hknown, ?_, hpow⟩, hsame, by rw [hsz]; exact hinside⟩
    rw [hver, hkept.2.eVersion]
    exact r.eVersion.symm
  have hroom : u.sOffset + u.sSize ≤ n := by
    rw [hoff, hsz]
    exact hend
  have hstart : dataLoop env ec w₁.elf u (u.sOffset + 0) t.sData w₁.nf = .ok (scnExtent i t).stop w₂.nf := by
    rw [hoff]
    exact hloop
  have hsmall := htiled.small
  obtain ⟨hstop, hlen, hbytes⟩ := dataLoop_bytes hroom (by omega) t.sData hds' hstart
  have horder : w₁.elf.eByteorder = (finishWrite w'.elf ⟨env.heapAddr, w'.nf.bytes, hlength⟩).eByteorder :=
    hkept.2.eByteorder.trans hwrote.kept.2.eByteorder.symm
  rw [horder] at hstop hlen hbytes
  rw [hoff] at hstop hbytes
  refine ⟨hlen, (Nat.add_left_cancel hstop).symm, fun a => w₁.nf.bytes[t.sOffset + a]?, fun a ha => ?_⟩
  rw [← hbytes a]
  have hwin := hwindow t.sOffset t.sSize (Nat.le_refl _) (Nat.le_refl _)
  have hbyte := congrArg (fun l => l[a]?) hwin
  rw [getElem?_window, getElem?_window, if_pos ha, if_pos ha] at hbyte
  exact hbyte

/-- The same for a section that the application laid out, in a run. -/
theorem layout_section_bytes (hopen : openObject env c file = .ok (some e₀))
    (hrun : runOps (Op.step env) e₀ ops = .ok e) (hc : e.eClass = some ec) (hlay : e.eFlags.layout = true)
    (hs : e.eScn[i]? = some s) (happ : AppContents ec s) (hzero : ec.get s.shdr.shSize ≠ 0)
    (hfit : ∀ h start, readIn env ec (currentVersion e) = .ok h start → Fits start ec h ∧ CountFits start ec)
    (hupd : elfUpdate env .write e = .ok n e') (him : e'.eFd = some im) :
    (∀ d ∈ s.sData, (fileBytes env e'.eByteorder ec d).length = d.dSize.toNat) ∧
      sweepEnd 0 (s.sData.map (piece env e'.eByteorder ec)) = ec.get s.shdr.shSize ∧
      ∃ m : Nat → Option UInt8, ∀ a < ec.get s.shdr.shSize, im[ec.get s.shdr.shOffset + a]? =
        swept env.fillchar 0 (s.sData.map (piece env e'.eByteorder ec)) a (m a) := by
  obtain ⟨rc, exs, e₁, hx, hwrite⟩ := elfUpdate_write_ok hc hupd
  have hw := wf_currentVersion (wf_run hopen hrun)
  have hw₁ : Wf e₁ := by
    have hall := @wf_resyncElf env ec _ hw
    rw [hx] at hall
    exact hall
  obtain ⟨r⟩ := resyncElf_ok hx
  obtain ⟨hfits, hcount⟩ := hfit _ _ r.read
  -- the section after the layout
  have hlay' : r.start.eFlags.layout = true := by
    rw [(readIn_ok r.read).2.2.2.1.layout]
    unfold currentVersion
    split
    · exact hlay
    · exact hlay
  have hscn : (currentVersion e).eScn[i]? = some s := by
    unfold currentVersion
    split
    · exact hs
    · exact hs
  have hstart : r.start.eScn[i]? = some s := by
    obtain ⟨l, hl⟩ := (keeps_readIn hw r.read).scns
    rw [← hl, List.getElem?_append_left (List.getElem?_eq_some_iff.mp hscn).1, hscn]
  obtain ⟨t, ht, hlaid⟩ := r.sections.spec.2.2 i s hstart
  have hlaid := hlaid.resolve_left fun hskip => by
    rw [happ.kept] at hskip
    cases hskip.1
  obtain ⟨hok, rfl⟩ := hlaid.2.of_layout hlay' happ.filled
  exact r.section_bytes hw hw₁ hfits hcount ht happ.kept hzero happ.filled
    (fun d hd => ⟨hok d hd, happ.same d hd, happ.inside d hd⟩) hwrite him

/-- After a successful update the descriptors of a section are in their places, and the fill character is around them,
exactly when no gap that the writer fills falls on a descriptor that it wrote before. -/
theorem layout_contents_iff (hopen : openObject env c file = .ok (some e₀)) (hrun : runOps (Op.step env) e₀ ops = .ok e)
    (hc : e.eClass = some ec) (hlay : e.eFlags.layout = true) (hs : e.eScn[i]? = some s) (happ : AppContents ec s)
    (hfit : ∀ h start, readIn env ec (currentVersion e) = .ok h start → Fits start ec h ∧ CountFits start ec)
    (hupd : elfUpdate env .write e = .ok n e') (him : e'.eFd = some im) :
    ContentsPlaced env ec e' im s ↔ Unspoiled env.fillchar (s.sData.map (piece env e'.eByteorder ec)) := by
  by_cases hzero : ec.get s.shdr.shSize = 0
  · obtain ⟨hplaced, hclear⟩ := contentsPlaced_empty happ hzero
    exact iff_of_true hplaced hclear
  · obtain ⟨hlen, hend, m, hbytes⟩ := layout_section_bytes hopen hrun hc hlay hs happ hzero hfit hupd him
    exact contentsPlaced_iff happ hlen hend hbytes

end Contents

def fourBytes (off : UInt64) : ElfData :=
  ⟨1, off, 4, some ⟨4096, [7, 7, 7, 7]⟩, some .byte, 1, by intro b hb; cases hb; rfl⟩

/-- An application that places a section of twelve bytes behind the header, and gives it contents. -/
def placedSection (contents : List Op) : List Op :=
  [.newehdr .elfclass64, .newscn, .flagLayout true,
   .setEhdr { Ehdr.zero with
    eIdent := hostIdent
    eShoff := 80 },
   .setShdr 1 { Shdr.zero with shType := 1, shAddralign := 1, shOffset := 64, shSize := 12 }] ++ contents

def inOrder : List Op :=
  placedSection [.newdata 1, .setData 1 0 (fourBytes 0), .newdata 1, .setData 1 1 (fourBytes 8)]

theorem inOrder_placed : ∃ e₀ e e' s n im, openObject plainEnv .write noImage = .ok (some e₀) ∧
    runOps (Op.step plainEnv) e₀ inOrder = .ok e ∧ e.eScn[1]? = some s ∧ s.sData = [fourBytes 0, fourBytes 8] ∧
    elfUpdate plainEnv .write e = .ok n e' ∧ e'.eFd = some im ∧ ContentsPlaced plainEnv .elfclass64 e' im s := by
  have hall : ∃ e₀ e s, openObject plainEnv .write noImage = .ok (some e₀) ∧
      runOps (Op.step plainEnv) e₀ inOrder = .ok e ∧ e.eScn[1]? = some s ∧ s.sData = [fourBytes 0, fourBytes 8] ∧
      s.isSkipped = false ∧ s.shdr.shSize = 12 ∧ e.eFlags.layout = true ∧ e.eClass = some .elfclass64 ∧
      (elfUpdate plainEnv .write e).returns (fun _ e' => e'.eFd.isSome) = true ∧
      (readIn plainEnv .elfclass64 (currentVersion e)).returns (fun h start =>
        decide (start.eFlags.layout = true ∧ start.eNphdr = 0 ∧ start.eNscn = 2 ∧ h.eShoff = 80 ∧
          ∀ s ∈ start.eScn, ElfClass.elfclass64.get s.shdr.shOffset + ElfClass.elfclass64.get s.shdr.shSize < 2 ^ 64 ∧
            ∀ d ∈ s.sData, d.dOff.toNat + d.dSize.toNat < 2 ^ 64)) = true :=
    ⟨_, _, _, rfl, rfl, rfl, rfl, rfl, rfl, rfl, rfl, by decide +kernel, by decide +kernel⟩
  obtain ⟨e₀, e, s, hopen, hrun, hs, hdata, hkeep, hsize, hlay, hc, hupd, hread⟩ := hall
  obtain ⟨n, e', hupd, hfd⟩ := exists_of_returns hupd
  obtain ⟨im, him⟩ := Option.isSome_iff_exists.mp hfd
  obtain ⟨h, start, hread, hstart⟩ := exists_of_returns hread
  obtain ⟨hlay', hp, hn, hshoff, hscns⟩ := of_decide_eq_true hstart
  have hget : ElfClass.elfclass64.get s.shdr.shSize = 12 := by
    rw [hsize]
    rfl
  have happ : AppContents .elfclass64 s := by
    refine ⟨by rw [hdata]; nofun, hkeep, ?_, ?_, ?_⟩
    · rw [hdata]
      exact List.forall_mem_cons.mpr ⟨.inl rfl, List.forall_mem_cons.mpr ⟨.inl rfl, nofun⟩⟩
    · rw [hdata, hget]
      decide
    · rw [hdata]
      refine List.pairwise_pair.mpr fun a ha hb => ?_
      exact absurd (Nat.lt_of_le_of_lt hb.1 ha.2) (by decide)
  have hfit : ∀ h start, readIn plainEnv .elfclass64 (currentVersion e) = .ok h start →
      Fits start .elfclass64 h ∧ CountFits start .elfclass64 := by
    intro h' start' hread'
    rw [hread] at hread'
    cases hread'
    refine ⟨?_, fun hle => absurd (hn ▸ hle) (by decide)⟩
    rw [Fits, hlay', if_pos rfl]
    refine ⟨fun hne => absurd hp hne, fun s hs _ _ => hscns s hs, fun _ => ?_⟩
    have hoff : ElfClass.elfclass64.get 80 = 80 := rfl
    have hentry := Nat.le_trans (fsize_le_msize .shdr .elfclass64) (msize_lt .shdr .elfclass64)
    rw [hshoff, hn, hoff]
    omega
  refine ⟨e₀, e, e', s, n, im, hopen, hrun, hs, hdata, hupd, him, ?_⟩
  refine (layout_contents_iff hopen hrun hc hlay hs happ hfit hupd him).mpr ?_
  -- nothing is filled after the second descriptor, and the first one ends before the gap
  rw [hdata]
  refine ⟨fun a ha hgap => ?_, fun a _ hgap => hgap.elim, trivial⟩
  rcases hgap with ⟨hle, -⟩ | hgap
  · exact absurd ha.2 (Nat.not_lt.mpr hle)
  · exact hgap.elim

/-- Three descriptors that fill the section, the second one below the first. -/
def outOfOrder : List Op :=
  placedSection [.newdata 1, .setData 1 0 (fourBytes 4), .newdata 1, .setData 1 1 (fourBytes 0),
    .newdata 1, .setData 1 2 (fourBytes 8)]

/-- The gap before the third descriptor is filled over the first. -/
theorem outOfOrder_overwritten : ∃ e₀ e e' s n im, openObject plainEnv .write noImage = .ok (some e₀) ∧
    runOps (Op.step plainEnv) e₀ outOfOrder = .ok e ∧ e.eFlags.layout = true ∧ e.eScn[1]? = some s ∧
    AppContents .elfclass64 s ∧ elfUpdate plainEnv .write e = .ok n e' ∧ e'.eFd = some im ∧
    ¬ ContentsPlaced plainEnv .elfclass64 e' im s := by
  have hall : ∃ e₀ e s, openObject plainEnv .write noImage = .ok (some e₀) ∧
      runOps (Op.step plainEnv) e₀ outOfOrder = .ok e ∧ e.eFlags.layout = true ∧ e.eScn[1]? = some s ∧
      s.sData = [fourBytes 4, fourBytes 0, fourBytes 8] ∧ s.isSkipped = false ∧ s.shdr.shSize = 12 ∧
      s.shdr.shOffset = 64 ∧ (elfUpdate plainEnv .write e).returns (fun _ e' =>
        decide (e'.eFd.map (fun im => window im 68 4) = some [0, 0, 0, 0])) = true :=
    ⟨_, _, _, rfl, rfl, rfl, rfl, rfl, rfl, rfl, rfl, by decide +kernel⟩
  obtain ⟨e₀, e, s, hopen, hrun, hlay, hs, hdata, hkeep, hsize, hoff, hupd⟩ := hall
  obtain ⟨n, e', hupd, hfd⟩ := exists_of_returns hupd
  obtain ⟨im, him, hwin⟩ := Option.map_eq_some_iff.mp (of_decide_eq_true hfd)
  have hget : ElfClass.elfclass64.get s.shdr.shSize = 12 := by
    rw [hsize]
    rfl
  refine ⟨e₀, e, e', s, n, im, hopen, hrun, hlay, hs, ⟨by rw [hdata]; nofun, hkeep, ?_, ?_, ?_⟩, hupd, him,
    fun hplaced => ?_⟩
  · rw [hdata]
    exact List.forall_mem_cons.mpr ⟨.inl rfl, List.forall_mem_cons.mpr ⟨.inl rfl,
      List.forall_mem_cons.mpr ⟨.inl rfl, nofun⟩⟩⟩
  · rw [hdata, hget]
    decide
  · rw [hdata]
    refine List.pairwise_cons.mpr ⟨List.forall_mem_cons.mpr ⟨fun a ha hb => ?_,
      List.forall_mem_cons.mpr ⟨fun a ha hb => ?_, nofun⟩⟩, List.pairwise_pair.mpr fun a ha hb => ?_⟩
    · exact absurd (Nat.lt_of_le_of_lt ha.1 hb.2) (by decide)
    · exact absurd (Nat.lt_of_le_of_lt hb.1 ha.2) (by decide)
    · exact absurd (Nat.lt_of_le_of_lt hb.1 ha.2) (by decide)
  · have hfirst := hplaced.data (fourBytes 4) (by rw [hdata]; exact List.mem_cons_self)
    rw [hoff] at hfirst
    have hlost : [0, 0, 0, 0] = fileBytes plainEnv e'.eByteorder .elfclass64 (fourBytes 4) := hwin.symm.trans hfirst
    rw [fileBytes_byte rfl rfl] at hlost
    exact absurd hlost (by decide)

end LibElf.Toolchain
