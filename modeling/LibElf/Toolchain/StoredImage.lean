import LibElf.Toolchain.SectionImage
import LibElf.Toolchain.SectionList

/-!
# The headers in the new file

What the writers leave of the headers, and of the sections that they copy from the old file.

1. `xlateTof_records`: an array of objects of fixed size goes to the file object by object.
2. `shdrLoop_entries`, the section header table.
3. `StoredHeaders` and `LayoutRun.storedHeaders`, the three headers; `LayoutRun.copied`, a section that was not read.
-/

namespace LibElf.Toolchain

open Outcome Mem

attribute [local irreducible] fsize msize

/-! ## Objects of fixed size -/

section Objects

variable {env : Env} {encoding : UInt8} {ec : ElfClass} {n : Nat} {nf nf' : Mem n}

/-- Whoever has translated something knows the byte order of the file. -/
theorem xlateTof_order {off dsz v v' size : Nat} {buf : Option Buf} {t : Option ElfType}
    (hx : xlateTof env encoding ec off dsz v buf size t v' nf = .ok () nf') : ∃ order, encodingOf env encoding = some order := by
  unfold xlateTof at hx
  split at hx
  · cases hx
  · next order horder => exact ⟨order, horder⟩

/-- An array of objects in the file, object by object. -/
theorem xlateTof_records {t : ElfType} {fs : List Field} {b : Buf} {cnt off dsz v v' : Nat} {order : ByteOrder}
    (hvar : t.isVariable = false) (hfs : structDef ec t = some fs) (hpos : 0 < naturalSize fs)
    (horder : encodingOf env encoding = some order) (hlen : b.bytes.length = cnt * naturalSize fs)
    (hin : off + cnt * packedSize fs ≤ n)
    (hx : xlateTof env encoding ec off dsz v (some b) (cnt * naturalSize fs) (some t) v' nf = .ok () nf') :
    Frame nf nf' off (cnt * packedSize fs) ∧ window nf'.bytes off (cnt * packedSize fs) =
      (records (tofObject env.host (decide (order ≠ env.host)) fs) (naturalSize fs) cnt b.bytes).flatten := by
  have hmsz := msize_of_structDef hvar hfs
  have hfsz := fsize_of_structDef hvar hfs
  unfold xlateTof at hx
  rw [horder] at hx
  dsimp only at hx
  split at hx
  · cases hx
  rw [hmsz, hfsz, Nat.mul_div_cancel cnt hpos] at hx
  split at hx
  · cases hx
  split at hx
  · cases hx
  split at hx
  · cases hx
  split at hx
  · cases hx
  split at hx
  · cases hx
  split at hx
  · next hzero =>
    cases hx
    obtain rfl : cnt = 0 := (Nat.mul_eq_zero.mp hzero).resolve_right (Nat.ne_of_gt hpos)
    rw [Nat.zero_mul, window_zero]
    exact ⟨Frame.refl _ _ _, rfl⟩
  · rw [getTranslator_fixed hvar true, hfs, Option.map_some] at hx
    dsimp only at hx
    obtain ⟨m, hm, hframe, hwin⟩ := @fixedConverter_tof env.host _ _ _ (decide (order ≠ env.host)) n off
      (cnt * packedSize fs) cnt nf b.bytes hfs (Nat.le_of_eq hlen.symm) hin fun _ => Nat.le_refl _
    rw [hm] at hx
    cases hx
    exact ⟨hframe, hwin⟩

/-- The fields of the three headers. -/
theorem structDef_fieldsOf (t : ElfType) (ec : ElfClass) (ht : t = .ehdr ∨ t = .phdr ∨ t = .shdr) :
    structDef ec t = some (fieldsOf t ec) ∧ t.isVariable = false ∧ 0 < naturalSize (fieldsOf t ec) ∧
      packedSize (fieldsOf t ec) = fsize t ec ∧ naturalSize (fieldsOf t ec) = msize t ec := by
  have hdef : structDef ec t = some (fieldsOf t ec) ∧ t.isVariable = false ∧ 0 < naturalSize (fieldsOf t ec) := by
    rcases ht with rfl | rfl | rfl <;> cases ec <;> exact ⟨rfl, rfl, by decide⟩
  exact ⟨hdef.1, hdef.2.1, hdef.2.2, (fsize_of_structDef hdef.2.1 hdef.1).symm, (msize_of_structDef hdef.2.1 hdef.1).symm⟩

/-- One header. -/
theorem xlateTof_header {t : ElfType} {bs : List UInt8} {addr off dsz v v' : Nat} {order : ByteOrder}
    (ht : t = .ehdr ∨ t = .phdr ∨ t = .shdr) (horder : encodingOf env encoding = some order)
    (hlen : bs.length = msize t ec) (hin : off + fsize t ec ≤ n)
    (hx : xlateTof env encoding ec off dsz v (some ⟨addr, bs⟩) (msize t ec) (some t) v' nf = .ok () nf') :
    Frame nf nf' off (fsize t ec) ∧
      window nf'.bytes off (fsize t ec) = tofObject env.host (decide (order ≠ env.host)) (fieldsOf t ec) bs := by
  obtain ⟨hdef, hvar, hpos, hfsz, hmsz⟩ := structDef_fieldsOf t ec ht
  rw [← hmsz] at hx hlen
  rw [← hfsz] at hin ⊢
  rw [← Nat.one_mul (naturalSize _)] at hx
  obtain ⟨hframe, hwin⟩ := @xlateTof_records _ _ _ _ _ _ _ _ _ 1 _ _ _ _ _ hvar hdef hpos horder
    (by rw [Nat.one_mul]; exact hlen) (by rw [Nat.one_mul]; exact hin) hx
  rw [Nat.one_mul] at hframe hwin
  refine ⟨hframe, ?_⟩
  rw [hwin, records, records, List.flatten_singleton, List.take_of_length_le (Nat.le_of_eq hlen)]

/-- The section header table: every header is at its index. -/
theorem shdrLoop_entries {e : Elf} {start : Nat} {order : ByteOrder} (horder : encodingOf env e.eByteorder = some order)
    (ss : List Scn) : ∀ {nf nf' : Mem n}, (ss.map Scn.sNdx).Nodup →
      (∀ s ∈ ss, start + (s.sNdx + 1) * fsize .shdr ec ≤ n) → shdrLoop env ec e start ss nf = .ok () nf' →
      (∀ s ∈ ss, window nf'.bytes (start + s.sNdx * fsize .shdr ec) (fsize .shdr ec) =
        s.shdr.toFile env.host (decide (order ≠ env.host)) ec) ∧
      ∀ k ∉ ss.map Scn.sNdx, window nf'.bytes (start + k * fsize .shdr ec) (fsize .shdr ec) =
        window nf.bytes (start + k * fsize .shdr ec) (fsize .shdr ec) := by
  induction ss with
  | nil =>
    intro nf nf' _ _ hx
    cases hx
    exact ⟨nofun, fun _ _ => rfl⟩
  | cons s ss ih =>
    intro nf nf' hnodup hin hx
    obtain ⟨hnot, hrest⟩ := List.nodup_cons.mp hnodup
    unfold shdrLoop at hx
    obtain ⟨_, nf₁, hhead, htail⟩ := bind_eq_ok.mp hx
    have hroom := hin s List.mem_cons_self
    rw [Nat.add_mul, Nat.one_mul, ← Nat.add_assoc] at hroom
    obtain ⟨hframe, hwin⟩ := xlateTof_header (.inr (.inr rfl)) horder (s.shdr.length_toMem env.host ec) hroom hhead
    obtain ⟨hall, hothers⟩ := ih hrest (fun t ht => hin t (List.mem_cons_of_mem s ht)) htail
    refine ⟨List.forall_mem_cons.mpr ⟨?_, hall⟩, fun k hk => ?_⟩
    · rw [hothers _ hnot, hwin]
      rfl
    · obtain ⟨hne, hk⟩ := not_or.mp (List.mem_cons.not.mp hk)
      rw [hothers k hk]
      refine hframe.window_eq ?_
      have hmul := fun {a b : Nat} (h : a < b) => Nat.mul_le_mul_right (fsize .shdr ec) (Nat.succ_le_of_lt h)
      rcases Nat.lt_or_gt_of_ne hne with hlt | hgt
      · have := hmul hlt
        rw [Nat.succ_mul] at this
        left
        omega
      · have := hmul hgt
        rw [Nat.succ_mul] at this
        right
        omega

end Objects

/-! ## The three headers -/

section Stored

structure StoredHeaders (env : Env) (ec : ElfClass) (swap : Bool) (e : Elf) (h : Ehdr) (im : List UInt8) : Prop where
  room : fsize .ehdr ec ≤ im.length
  ehdr : window im 0 (fsize .ehdr ec) = h.toFile env.host swap ec
  phdrRoom : e.eNphdr ≠ 0 → ec.get h.ePhoff + e.eNphdr * fsize .phdr ec ≤ im.length
  phdrs : e.eNphdr ≠ 0 → ∀ ps, e.ePhdr = some ps →
    window im (ec.get h.ePhoff) (e.eNphdr * fsize .phdr ec) = ps.flatMap fun p => p.toFile env.host swap ec
  shoff : e.eNscn ≠ 0 → ec.get h.eShoff ≠ 0
  shdrRoom : e.eNscn ≠ 0 → ec.get h.eShoff + e.eNscn * fsize .shdr ec ≤ im.length
  shdrs : e.eNscn ≠ 0 → ∀ s ∈ e.eScn, window im (ec.get h.eShoff + s.sNdx * fsize .shdr ec) (fsize .shdr ec) =
    s.shdr.toFile env.host swap ec

variable {env : Env} {ec : ElfClass} {n : Nat} {w w' : Writing n} {order : ByteOrder} {h : Ehdr} {nrc : Nat}

theorem writeEhdr_window (hh : w.elf.eEhdr = some h) (horder : encodingOf env w.elf.eByteorder = some order)
    (hin : fsize .ehdr ec ≤ n) (hx : writeEhdr env ec (ehdrExtent ec) w = .ok nrc w') :
    window w'.nf.bytes 0 (fsize .ehdr ec) = h.toFile env.host (decide (order ≠ env.host)) ec := by
  unfold writeEhdr at hx
  rw [if_neg (fun hne => hne rfl), hh] at hx
  dsimp only at hx
  obtain ⟨_, w₁, hxlate, hlast⟩ := bind_eq_ok.mp hx
  cases hlast
  obtain ⟨nf, hrun, rfl⟩ := within_eq_ok.mp hxlate
  exact (xlateTof_header (.inl rfl) horder (h.length_toMem env.host ec) (by omega) hrun).2

theorem writePhdr_window {ps : List Phdr} (hw : Wf w.elf) (hc : w.elf.eClass = some ec) (hh : w.elf.eEhdr = some h)
    (hps : w.elf.ePhdr = some ps) (horder : encodingOf env w.elf.eByteorder = some order)
    (hin : ec.get h.ePhoff + w.elf.eNphdr * fsize .phdr ec ≤ n)
    (hx : writePhdr env ec (phdrExtent ec (ec.get h.ePhoff) w.elf.eNphdr) w = .ok nrc w') :
    window w'.nf.bytes (ec.get h.ePhoff) (w.elf.eNphdr * fsize .phdr ec) =
      ps.flatMap fun p => p.toFile env.host (decide (order ≠ env.host)) ec := by
  have hcount := hw.phdr ps hps
  unfold writePhdr at hx
  rw [hh] at hx
  dsimp only at hx
  split at hx
  · cases hx
  have hget : getphdr env ec w.elf = .ok ps w.elf := by
    unfold getphdr
    rw [hps]
  rw [hget] at hx
  obtain ⟨buf, w₁, htable, hx⟩ := bind_eq_ok.mp hx
  cases htable
  obtain ⟨_, w₂, hxlate, hlast⟩ := bind_eq_ok.mp hx
  cases hlast
  obtain ⟨nf, hrun, rfl⟩ := within_eq_ok.mp hxlate
  obtain ⟨hdef, hvar, hpos, hfsz, hmsz⟩ := structDef_fieldsOf .phdr ec (.inr (.inl rfl))
  have hbytes : (phdrTable env ec ps).length = w.elf.eNphdr * naturalSize (fieldsOf .phdr ec) := by
    rw [length_phdrTable, hcount, hmsz]
  rw [wrap_of_lt (hw.nphdr ec hc), ← hmsz] at hrun
  rw [← hfsz] at hin ⊢
  rw [(xlateTof_records hvar hdef hpos horder hbytes hin hrun).2, ← hcount, phdrTable,
    records_flatMap fun p => by rw [p.length_toMem, hmsz], List.flatMap_def]
  rfl

theorem writeShdr_windows (hh : w.elf.eEhdr = some h) (horder : encodingOf env w.elf.eByteorder = some order) {off : Nat}
    (hnodup : (indices w.elf).Nodup) (hndx : ∀ s ∈ w.elf.eScn, s.sNdx < w.elf.eNscn)
    (hin : off + w.elf.eNscn * fsize .shdr ec ≤ n)
    (hx : writeShdr env ec (shdrExtent ec off w.elf.eNscn) w = .ok nrc w') :
    ec.get h.eShoff = off ∧ ∀ s ∈ w.elf.eScn, window w'.nf.bytes (off + s.sNdx * fsize .shdr ec) (fsize .shdr ec) =
      s.shdr.toFile env.host (decide (order ≠ env.host)) ec := by
  unfold writeShdr at hx
  rw [hh] at hx
  dsimp only at hx
  split at hx
  · cases hx
  · next hgood =>
    rw [not_or, not_or] at hgood
    obtain ⟨_, w₁, hloop, hlast⟩ := bind_eq_ok.mp hx
    cases hlast
    obtain ⟨nf, hrun, rfl⟩ := within_eq_ok.mp hloop
    refine ⟨(not_not.mp hgood.2.2).symm, (shdrLoop_entries horder _ hnodup (fun s hs => ?_) hrun).1⟩
    exact Nat.le_trans (Nat.add_le_add_left (Nat.mul_le_mul_right _ (hndx s hs)) off) hin

/-- Every file that is written has the executable header. -/
theorem writeEhdr_order (hx : writeEhdr env ec (ehdrExtent ec) w = .ok nrc w') :
    ∃ order, encodingOf env w.elf.eByteorder = some order := by
  unfold writeEhdr at hx
  split at hx
  · cases hx
  split at hx
  · cases hx
  · dsimp only at hx
    obtain ⟨_, w₁, hxlate, -⟩ := bind_eq_ok.mp hx
    obtain ⟨nf, hrun, -⟩ := within_eq_ok.mp hxlate
    exact xlateTof_order hrun

/-- A section that was not read is copied from the old file. -/
theorem writeScn_copied {i : Nat} {s : Scn} (hw : Wf w.elf) (hh : w.elf.eEhdr = some h)
    (hs : w.elf.eScn[i]? = some s) (hkeep : s.isSkipped = false) (hnil : s.sData = [])
    (hfit : s.sOffset + s.sSize ≤ n) (hn : n < 2 ^ 64)
    (hne : s.sSize ≠ 0) (hx : writeScn env ec (scnExtent i s) w = .ok (scnExtent i s).stop w') :
    window w'.nf.bytes s.sOffset s.sSize = window w.elf.rawbytes (wrap s.sRawoff) s.sSize := by
  have hv := hw.opened (by rw [hh]; exact Option.some_ne_none h)
  unfold writeScn at hx
  simp only [scnExtent, hs, hkeep, Bool.false_eq_true, false_or] at hx
  split at hx
  · have hend : s.sOffset = s.sOffset + s.sSize := (Outcome.ok.inj hx).1
    omega
  split at hx
  · cases hx
  split at hx
  · cases hx
  split at hx
  · cases hx
  obtain ⟨d, w₁, hread, hx⟩ := bind_eq_ok.mp hx
  obtain ⟨t, hraw, rfl⟩ := within_eq_ok.mp hread
  have hens := @ensures_rawdata_shape ec _ _ hv (hw.raw s (List.mem_of_getElem? hs))
  rw [hraw] at hens
  obtain ⟨rfl, hd, -⟩ := hens
  simp only [Elf.setScn_eScn, List.getElem?_set_self (List.getElem?_eq_some_iff.mp hs).1] at hx
  obtain ⟨nf, hloop, rfl⟩ := within_eq_ok.mp hx
  have hrun := @ensures_rawLoop env n (w.elf.setScn (w.elf.eScn.set i { s with sRawdata := [d] }))
    { s with sRawdata := [d] } d hn (by dsimp only; omega) hv hd w.nf
  rw [hloop] at hrun
  -- the writer has come to the end of the section, so that the raw descriptor is as long
  obtain ⟨-, hend, -, hwin⟩ := hrun
  rwa [← show s.sSize = d.dSize.toNat from Nat.add_left_cancel hend] at hwin

end Stored

/-- Two extents of a sorted list lie one after the other. -/
theorem Sorted.apart {exs : List Extent} (h : Sorted exs) {a b : Extent} (ha : a ∈ exs) (hb : b ∈ exs) (hne : a ≠ b) :
    a.stop ≤ b.exStart ∨ b.stop ≤ a.exStart := by
  unfold Sorted at h
  induction h with
  | nil => cases ha
  | cons hhead _ ih =>
    rcases List.mem_cons.mp ha with rfl | ha'
    · exact .inl (hhead _ ((List.mem_cons.mp hb).resolve_left hne.symm))
    · rcases List.mem_cons.mp hb with rfl | hb'
      · exact .inr (hhead _ ha')
      · exact ih ha' hb'

section Written

variable {env : Env} {ec : ElfClass} {e e₁ e' : Elf} {rc n : Nat} {exs : List Extent} {im : List UInt8}

/-- How the new file came about. -/
theorem LayoutRun.wrote (r : LayoutRun env ec e rc exs e₁) (hw : Wf e) (hw₁ : Wf e₁) (hfit : Fits r.start ec r.ehdr)
    (hcount : CountFits r.start ec) (hwrite : writeElf env ec rc exs e₁ = .ok n e') (him : e'.eFd = some im) :
    n = rc ∧ ∃ w' : Writing rc, Wrote env ec 0 exs ⟨e₁, Mem.fresh env.heap rc⟩ rc w' ∧ im = w'.nf.bytes ∧
      e'.eByteorder = e₁.eByteorder := by
  have hcmd : e₁.eCmd ≠ .read := by
    intro hread
    rw [writeElf, if_pos hread] at hwrite
    cases hwrite
  have hens := ensures_writeElf r hw hw₁ hfit hcount hcmd
  rw [hwrite] at hens
  obtain ⟨rfl, w', hlength, hwrote, rfl⟩ := hens
  exact ⟨rfl, w', hwrote, (Option.some.inj him).symm, hwrote.kept.2.eByteorder⟩

/-- After a successful write the file has the three headers. -/
theorem LayoutRun.storedHeaders (r : LayoutRun env ec e rc exs e₁) (hw : Wf e) (hw₁ : Wf e₁)
    (hfit : Fits r.start ec r.ehdr) (hcount : CountFits r.start ec) (hnodup : (indices e₁).Nodup)
    (hwrite : writeElf env ec rc exs e₁ = .ok n e') (him : e'.eFd = some im) :
    im.length = n ∧ ∃ order h, encodingOf env e₁.eByteorder = some order ∧ e₁.eEhdr = some h ∧
      StoredHeaders env ec (decide (order ≠ env.host)) e₁ h im := by
  have hp : r.start.eNphdr * msize .phdr ec < 2 ^ 64 := by
    rw [← r.eNphdr]
    exact hw₁.nphdr ec r.eClass
  have htiled := r.tiled hfit hp
  obtain ⟨rfl, w', hwrote, rfl, -⟩ := r.wrote hw hw₁ hfit hcount hwrite him
  obtain ⟨h, hh⟩ : ∃ h, e₁.eEhdr = some h := ⟨_, r.eEhdr⟩
  have hlen := w'.nf.length_eq
  refine ⟨hlen, ?_⟩
  -- the executable header, and the byte order
  have hmem := (htiled.mem _).mpr (.inl rfl)
  have hroom := htiled.endBy _ hmem
  rw [show (ehdrExtent ec).stop = fsize .ehdr ec from Nat.zero_add _] at hroom
  obtain ⟨w₁, w₂, hkept, hrun, hwin⟩ := hwrote.extent _ hmem
  obtain ⟨order, horder⟩ := writeEhdr_order hrun
  have hkeep : ∀ {w₁ : Writing n}, Kept ⟨e₁, Mem.fresh env.heap n⟩ w₁ → Wf w₁.elf ∧ w₁.elf.eClass = some ec ∧
      w₁.elf.eEhdr = some h ∧ encodingOf env w₁.elf.eByteorder = encodingOf env e₁.eByteorder ∧
      w₁.elf.eNphdr = e₁.eNphdr ∧ w₁.elf.eNscn = e₁.eNscn ∧ Unchanged e₁ w₁.elf := by
    intro w₁ hk
    have hu : Unchanged e₁ w₁.elf := hk.2
    exact ⟨hk.1, hu.eClass.trans r.eClass, hu.eEhdr.trans hh, by rw [hu.eByteorder], hu.eNphdr, hu.eNscn, hu⟩
  rw [(hkeep hkept).2.2.2.1] at horder
  refine ⟨order, h, horder, hh, ?_, ?_, ?_, ?_, ?_, ?_, ?_⟩
  · rw [hlen]
    exact hroom
  · have hbytes := writeEhdr_window (hkeep hkept).2.2.1 ((hkeep hkept).2.2.2.1.trans horder) hroom hrun
    exact (hwin 0 _ (Nat.le_refl 0) (Nat.le_of_eq rfl)).trans hbytes
  all_goals intro hne
  · rw [r.eNphdr] at hne ⊢
    obtain ⟨heq, -, -⟩ := r.phoff_eq hfit hp hne hh
    rw [heq, hlen]
    exact htiled.endBy _ ((htiled.mem _).mpr (.inr (.inl ⟨hne, rfl⟩)))
  · intro ps hps
    rw [r.eNphdr] at hne
    obtain ⟨heq, -, -⟩ := r.phoff_eq hfit hp hne hh
    have hmem := (htiled.mem _).mpr (.inr (.inl ⟨hne, rfl⟩))
    have hend := htiled.endBy _ hmem
    obtain ⟨w₁, w₂, hkept, hrun, hwin⟩ := hwrote.extent _ hmem
    obtain ⟨hwf, hc, hh₁, hbyte, hnum, -, hu⟩ := hkeep hkept
    rw [← heq, ← r.eNphdr, ← hnum] at hrun hend hwin
    rw [← hnum]
    have hbytes := writePhdr_window hwf hc hh₁ (hu.phdr ps hps) (hbyte.trans horder) hend hrun
    exact (hwin _ _ (Nat.le_refl _) (Nat.le_refl _)).trans hbytes
  all_goals
    rw [r.eNscn] at hne
    have hnum' := hne
    have hmem := (htiled.mem _).mpr (.inr (.inr (.inr ⟨hne, rfl⟩)))
    have hend := htiled.endBy _ hmem
    obtain ⟨w₁, w₂, hkept, hrun, hwin⟩ := hwrote.extent _ hmem
    obtain ⟨hwf, hc, hh₁, hbyte, -, hnum, hu⟩ := hkeep hkept
    rw [← r.eNscn, ← hnum] at hrun hend hwin
    have hmap : indices w₁.elf = indices e₁ := by
      have hforget := congrArg (List.map Scn.sNdx) hu.scn
      rw [List.map_map, List.map_map] at hforget
      exact hforget
    obtain ⟨heq, hbytes⟩ : ec.get h.eShoff = r.shoff ∧ ∀ s ∈ w₁.elf.eScn,
        window w₂.nf.bytes (r.shoff + s.sNdx * fsize .shdr ec) (fsize .shdr ec) =
          s.shdr.toFile env.host (decide (order ≠ env.host)) ec :=
      writeShdr_windows hh₁ (hbyte.trans horder) (by rw [hmap]; exact hnodup)
        (fun s hs => hwf.ndx s hs (by rw [hnum, r.eNscn]; exact hne)) hend hrun
    rw [heq]
  · -- the table is not where the executable header is
    intro hzero
    rcases htiled.sorted.apart ((htiled.mem _).mpr (.inl rfl)) hmem (fun heq => nomatch congrArg Extent.exType heq)
      with hle | hle
    · have hzero' : (ehdrExtent ec).stop ≤ 0 := Nat.le_trans hle (Nat.le_of_eq hzero)
      exact Nat.not_succ_le_zero _ (Nat.lt_of_lt_of_le (fsize_ehdr_pos ec) (Nat.le_trans (Nat.le_add_left _ 0) hzero'))
    · have hzero' : r.start.eNscn * fsize .shdr ec ≤ 0 := Nat.le_trans (Nat.le_add_left _ _) hle
      have hpos := fsize_shdr_pos ec
      exact Nat.mul_ne_zero hnum' (Nat.ne_of_gt hpos) (Nat.le_zero.mp hzero')
  · rw [hlen, ← hnum]
    exact hend
  · intro s hs
    obtain ⟨i, hi⟩ := List.mem_iff_getElem?.mp hs
    obtain ⟨t, ht, hforget⟩ := hu.getElem? hi
    obtain ⟨hshdr, -, -, hndx, -⟩ := forget_eq hforget
    have hlt := hwf.ndx t (List.mem_of_getElem? ht) (by rw [hnum, r.eNscn]; exact hne)
    have hentry := hbytes t (List.mem_of_getElem? ht)
    rw [hndx, hshdr] at hentry
    rw [hndx] at hlt
    have hmul := Nat.mul_le_mul_right (fsize .shdr ec) (Nat.succ_le_of_lt hlt)
    rw [Nat.succ_mul] at hmul
    refine (hwin _ _ (Nat.le_add_right _ _) ?_).trans hentry
    rw [Nat.add_assoc]
    exact Nat.add_le_add_left hmul _

/-- A section that was neither read nor modified has in the new file the bytes that it had in the old one. -/
theorem LayoutRun.copied (r : LayoutRun env ec e rc exs e₁) (hw : Wf e) (hw₁ : Wf e₁) (hfit : Fits r.start ec r.ehdr)
    (hcount : CountFits r.start ec) {i : Nat} {s : Scn} (hs : e₁.eScn[i]? = some s) (hkeep : s.isSkipped = false)
    (hnil : s.sData = []) (hne : s.sSize ≠ 0) (hwrite : writeElf env ec rc exs e₁ = .ok n e')
    (him : e'.eFd = some im) :
    window im s.sOffset s.sSize = window e₁.rawbytes (wrap s.sRawoff) s.sSize := by
  have hp : r.start.eNphdr * msize .phdr ec < 2 ^ 64 := by
    rw [← r.eNphdr]
    exact hw₁.nphdr ec r.eClass
  have htiled := r.tiled hfit hp
  have hready := (r.ready hw hw₁ hfit hcount).scns i s hs hkeep hne
  obtain ⟨rfl, w', hwrote, rfl, -⟩ := r.wrote hw hw₁ hfit hcount hwrite him
  have hsmall := htiled.small
  obtain ⟨h, hh⟩ : ∃ h, e₁.eEhdr = some h := ⟨_, r.eEhdr⟩
  have hs' := hs
  rw [r.eScn] at hs'
  obtain ⟨t, ht, hnum⟩ := numberScns_getElem? hs' hkeep
  have hext : scnExtent i t = scnExtent i s := by rw [scnExtent, scnExtent, hnum.offset, hnum.size]
  have hmem : scnExtent i s ∈ exs := by
    rw [← hext]
    refine (htiled.mem _).mpr (.inr (.inr (.inl ⟨i, t, ht, ?_, ?_, rfl⟩)))
    · rw [← hnum.isSkipped]
      exact hkeep
    · rw [← hnum.size]
      exact hne
  obtain ⟨w₁, w₂, hkept, hrun, hwin⟩ := hwrote.extent _ hmem
  have hu : Unchanged e₁ w₁.elf := hkept.2
  obtain ⟨u, hus, hforget⟩ := hu.getElem? hs
  obtain ⟨hshdr, hdata, hdirty, -, hoff, hrawoff, hsize⟩ := forget_eq hforget
  have hextu : scnExtent i s = scnExtent i u := by rw [scnExtent, scnExtent, hoff, hsize]
  rw [hextu] at hrun
  have hcopy := writeScn_copied hkept.1 (hu.eEhdr.trans hh) hus
    (by rw [Scn.isSkipped, hshdr]; exact hkeep) (hdata.trans hnil) (by rw [hoff, hsize]; exact hready.fit) (by omega) (by rw [hsize]; exact hne) hrun
  rw [hoff, hrawoff, hsize] at hcopy
  refine (hwin _ _ (Nat.le_refl _) (Nat.le_refl _)).trans (hcopy.trans ?_)
  rw [Elf.rawbytes, Elf.rawbytes, hu.eRawfile]

end Written

end LibElf.Toolchain
