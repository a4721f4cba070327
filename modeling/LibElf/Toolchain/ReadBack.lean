import LibElf.Toolchain.Reopen
import LibElf.Toolchain.ReadData

/-!
# The contents of the new file

What a reader finds in the sections of a file that `elf_update` has written.

1. `rawdata_fresh` and `getdata_fresh`, the first read of a section.
2. `LayoutRun.section_header`: where the headers say that the sections are.
3. `untouched_kept`: a section that was not read survives the update.
4. `data_read_back`: the data descriptor of an application is read back.
-/

namespace LibElf.Toolchain

open Outcome

/-! ## The first read -/

section Fresh

attribute [local irreducible] fsize msize

variable {env : Env} {ec : ElfClass} {im : Image} {t s : Scn} {r : Elf} {k : Nat} {u : ElfType}

/-- The contents of a section in the file, as far as its header says. -/
def headerBytes (ec : ElfClass) (im : List UInt8) (h : Shdr) : List UInt8 := window im (ec.get h.shOffset) (ec.get h.shSize)

theorem FreshScn.inside (hf : FreshScn ec im t s r)
    (hin : ec.get t.shdr.shOffset + ec.get t.shdr.shSize ≤ im.bytes.length) : ¬ outOfImage r ec s.shdr := by
  have hsize : r.rawsize = im.bytes.length := by rw [Elf.rawsize, hf.eRawfile]
  rintro ⟨-, hout⟩
  have hoff : ec.get s.shdr.shOffset = ec.get t.shdr.shOffset := by rw [hf.loaded.shdr]; exact ec.get_narrow _
  have hsz : ec.get s.shdr.shSize = ec.get t.shdr.shSize := by rw [hf.loaded.shdr]; exact ec.get_narrow _
  rw [hsize, hoff, hsz] at hout
  omega

/-- `elf_rawdata` on a section that was just found gives the bytes of the file. -/
theorem rawdata_fresh (hs : r.eScn[k]? = some s) (hf : FreshScn ec im t s r) (hkeep : t.isSkipped = false)
    (hin : ec.get t.shdr.shOffset + ec.get t.shdr.shSize ≤ im.bytes.length) (hne : ec.get t.shdr.shSize ≠ 0) :
    ∃ d r' b, elfRawdata k r = .ok d r' ∧ d.dBuf = some b ∧ b.bytes = headerBytes ec im.bytes t.shdr := by
  have htype : s.shdr.shType ≠ shtNull ∧ s.shdr.shType ≠ shtNobits := by
    rw [hf.loaded.shdr]
    have hskip := of_decide_eq_false hkeep
    exact ⟨fun h => hskip (.inr h), fun h => hskip (.inl h)⟩
  have hoff : ec.get s.shdr.shOffset = ec.get t.shdr.shOffset := by rw [hf.loaded.shdr]; exact ec.get_narrow _
  have hsz : ec.get s.shdr.shSize = ec.get t.shdr.shSize := by rw [hf.loaded.shdr]; exact ec.get_narrow _
  have hbuf : ¬ (s.shdr.shType = shtNobits ∨ ec.get s.shdr.shSize = 0) := by
    rw [hsz]
    exact fun h => h.elim htype.2 hne
  rw [elfRawdata, onScn_of_some hf.eClass hs, rawdata, if_neg (by rw [hf.eRawfile]; nofun), hf.loaded.sRawdata]
  dsimp only
  rw [if_neg htype.1, dif_neg (hf.inside hin)]
  refine ⟨_, _, _, rfl, if_neg hbuf, ?_⟩
  rw [Elf.rawbytes, hf.eRawfile, hoff, hsz, headerBytes]

/-- Objects that take as much room in memory as in the file. -/
def SameRoom (ec : ElfClass) (t : ElfType) : Prop :=
  t.isVariable = false ∧ ∃ fs, structDef ec t = some fs ∧ 0 < packedSize fs ∧ packedSize fs = naturalSize fs

def memoryBytes (host : ByteOrder) (swap : Bool) (ec : ElfClass) (t : ElfType) (bs : List UInt8) : List UInt8 :=
  match structDef ec t with
  | none => bs
  | some fs => (records (tomObject host swap fs (zeroObject fs)) (packedSize fs) (bs.length / packedSize fs) bs).flatten

theorem SameRoom.sizes (h : SameRoom ec u) : fsize u ec = msize u ec ∧ 0 < fsize u ec := by
  obtain ⟨hvar, fs, hfs, hpos, hsame⟩ := h
  rw [fsize_of_structDef hvar hfs, msize_of_structDef hvar hfs]
  exact ⟨hsame, hpos⟩

/-- The translator to memory, on a whole number of objects. -/
theorem SameRoom.translate (h : SameRoom ec u) (host : ByteOrder) (swap : Bool) (heap : Nat → UInt8) {src : List UInt8}
    {count : Nat} (hlen : count * fsize u ec ≤ src.length) : ∃ xlate m, getTranslator host u false ec = some xlate ∧
      xlate (msize u ec * count) (.fresh heap (msize u ec * count)) 0 (msize u ec * count) src count swap = .ok () m ∧
      m.bytes = memoryBytes host swap ec u (window src 0 (count * fsize u ec)) := by
  obtain ⟨hvar, fs, hfs, hpos, hsame⟩ := h
  rw [fsize_of_structDef hvar hfs] at hlen ⊢
  rw [msize_of_structDef hvar hfs, Nat.mul_comm]
  obtain ⟨m, hm, -, hwin⟩ := @fixedConverter_tom host _ _ _ swap (count * naturalSize fs) 0 (count * naturalSize fs) count
    (.fresh heap (count * naturalSize fs)) src hfs hlen (Nat.le_refl _) (Nat.le_of_eq (Nat.zero_add _))
  refine ⟨_, m, by rw [getTranslator_fixed hvar, hfs]; rfl, hm, ?_⟩
  have hfull : window m.bytes 0 (count * naturalSize fs) = m.bytes := by
    have hfull := window_full m.bytes
    rwa [m.length_eq] at hfull
  have hold : (window (Mem.fresh heap (count * naturalSize fs)).bytes 0 (count * naturalSize fs)).length =
      count * naturalSize fs := length_window (by rw [Mem.length_eq, Nat.zero_add])
  rw [hfull, recordsInto_eq (fun o r ho _ => tomObject_fresh host swap hsame ho (length_zeroObject fs) r) count
    (Nat.le_of_eq hold.symm) hlen] at hwin
  rw [hwin, memoryBytes, hfs]
  dsimp only
  rw [length_window (by omega), Nat.mul_div_cancel count hpos, records_window count hlen]

/-- `elf_getdata` on a section that was just found gives the objects of the file. -/
theorem getdata_fresh (hs : r.eScn[k]? = some s) (hf : FreshScn ec im t s r) (hkeep : t.isSkipped = false)
    (hin : ec.get t.shdr.shOffset + ec.get t.shdr.shSize ≤ im.bytes.length) (hne : ec.get t.shdr.shSize ≠ 0)
    (htype : xlateShtype t.shdr.shType = some u) (hroom : SameRoom ec u) (hdvd : fsize u ec ∣ ec.get t.shdr.shSize) :
    ∃ d r' b, elfGetdata env k r = .ok d r' ∧ d.dType = some u ∧ d.dBuf = some b ∧
      b.bytes = memoryBytes env.host (r.swaps env) ec u (headerBytes ec im.bytes t.shdr) := by
  have hshtype : s.shdr.shType = t.shdr.shType := by rw [hf.loaded.shdr]; rfl
  have hskip := of_decide_eq_false hkeep
  have hoff : ec.get s.shdr.shOffset = ec.get t.shdr.shOffset := by rw [hf.loaded.shdr]; exact ec.get_narrow _
  have hsz : ec.get s.shdr.shSize = ec.get t.shdr.shSize := by rw [hf.loaded.shdr]; exact ec.get_narrow _
  obtain ⟨hsame, hpos⟩ := hroom.sizes
  obtain ⟨count, hcount⟩ := hdvd
  have hdiv : ec.get t.shdr.shSize / fsize u ec = count := by rw [hcount, Nat.mul_div_cancel_left count hpos]
  have hlt := ec.get_lt t.shdr.shSize
  have hfits : ¬ (0 < count ∧ (2 ^ 64 - 1) / count < msize u ec) := by
    rintro ⟨hcpos, hlow⟩
    refine Nat.not_le_of_lt hlow ((Nat.le_div_iff_mul_le hcpos).mpr ?_)
    rw [← hsame]
    omega
  have hcontents : contentsOf r ec s.shdr = .ok (u, count) := by
    unfold contentsOf
    rw [hshtype, if_neg fun h => hskip (.inr h), htype]
    dsimp only
    rw [if_neg (hf.inside hin), if_neg (Nat.ne_of_gt hpos), hsz, if_neg (not_not.mpr (Nat.mod_eq_zero_of_dvd ⟨count, hcount⟩)),
      hdiv, if_neg hfits]
  have hraw : r.rawbytes = im.bytes := by rw [Elf.rawbytes, hf.eRawfile]
  have hlen : count * fsize u ec ≤ (im.bytes.drop (ec.get t.shdr.shOffset)).length := by
    rw [List.length_drop, Nat.mul_comm, ← hcount]
    omega
  obtain ⟨xlate, m, htrans, hm, hbytes⟩ := hroom.translate env.host (r.swaps env) env.heap hlen
  have hsize : msize u ec * count < 2 ^ 64 := by
    rw [← hsame, ← hcount]
    exact hlt
  rw [elfGetdata, onScn_of_some hf.eClass hs, getdata, hf.loaded.sData]
  dsimp only
  rw [if_neg (by rw [hf.eRawfile]; rintro ⟨⟩), hcontents]
  dsimp only
  rw [if_neg (by rw [hshtype, hsz]; exact fun h => h.elim (fun h => hskip (.inl h)) hne), htrans]
  dsimp only
  rw [hoff, hraw, hm]
  dsimp only
  rw [dif_pos hsize]
  refine ⟨_, _, _, rfl, rfl, rfl, ?_⟩
  rw [hbytes, window_drop, Nat.add_zero, Nat.mul_comm, ← hcount, headerBytes]

end Fresh

/-! ## Where the headers say that the sections are -/

section Placed

attribute [local irreducible] fsize msize

variable {env : Env} {ec : ElfClass} {e e₁ e' : Elf} {rc n : Nat} {exs : List Extent} {im : List UInt8}

/-- The header of a section that was laid out has its place and its size, as far as the class holds them. -/
theorem LaidOut.fields {s t : Scn} (h : LaidOut env e ec rc s t) :
    ec.get t.shdr.shOffset = t.sOffset % 2 ^ ec.width ∧ ec.get t.shdr.shSize = t.sSize % 2 ^ ec.width := by
  have hsame : ∀ x, ec.get x = ec.get x % 2 ^ ec.width := fun x => (Nat.mod_eq_of_lt (ec.get_lt_width x)).symm
  have hplaced : ∀ (align entsize size : Nat) (u : Scn),
      ec.get (placed ec rc align entsize size u).shdr.shOffset = (placed ec rc align entsize size u).sOffset % 2 ^ ec.width ∧
      ec.get (placed ec rc align entsize size u).shdr.shSize = (placed ec rc align entsize size u).sSize % 2 ^ ec.width := by
    intro align entsize size u
    rw [placed_shdr, ElfClass.get_put, ElfClass.get_put]
    exact ⟨rfl, rfl⟩
  cases h with
  | keep => exact ⟨hsame _, hsame _⟩
  | move => exact hplaced _ _ _ _
  | pack => exact hplaced _ _ _ _
  | check _ hloaded =>
    rcases hloaded with ⟨-, rfl⟩ | ⟨hnil, -, d, hget⟩
    · exact ⟨hsame _, hsame _⟩
    · obtain ⟨rfl, -⟩ := getdata_ok hget hnil
      exact ⟨hsame _, hsame _⟩

/-- The header of a section but the first one. -/
theorem LayoutRun.section_header (r : LayoutRun env ec e rc exs e₁) {i : Nat} {t : Scn} (ht : e₁.eScn[i]? = some t)
    (hkeep : t.isSkipped = false) (hi : i ≠ 0) :
    ec.get t.shdr.shOffset = t.sOffset % 2 ^ ec.width ∧ ec.get t.shdr.shSize = t.sSize % 2 ^ ec.width := by
  rw [r.eScn] at ht
  obtain ⟨u, hu, hnum⟩ := numberScns_getElem? ht hkeep
  obtain ⟨s, -, -, hlaid⟩ := r.source hu (hnum.isSkipped.symm.trans hkeep)
  rw [hnum.shOffset, hnum.shSize, if_neg (fun h => hi h.1), hnum.offset, hnum.size]
  exact hlaid.fields

/-- In a file that the class can address, the header of a section says where its contents are. -/
theorem LayoutRun.headerBytes_eq (r : LayoutRun env ec e rc exs e₁) (hw : Wf e) (hw₁ : Wf e₁)
    (hfit : Fits r.start ec r.ehdr) (hcount : CountFits r.start ec) {i : Nat} {t : Scn} (ht : e₁.eScn[i]? = some t)
    (hkeep : t.isSkipped = false) (hne : t.sSize ≠ 0) (hi : i ≠ 0) (hlen : im.length = rc) (hsmall : rc < 2 ^ ec.width) :
    ec.get t.shdr.shSize = t.sSize ∧ ec.get t.shdr.shOffset + ec.get t.shdr.shSize ≤ im.length ∧
      headerBytes ec im t.shdr = window im t.sOffset t.sSize := by
  have hready := (r.ready hw hw₁ hfit hcount).scns i t ht hkeep hne
  have hend := hready.fit
  obtain ⟨hoff, hsize⟩ := r.section_header ht hkeep hi
  rw [Nat.mod_eq_of_lt (by omega)] at hoff hsize
  rw [headerBytes, hoff, hsize, hlen]
  exact ⟨rfl, hend, rfl⟩

end Placed

/-! ## Sections that were not read -/

section Runs

attribute [local irreducible] fsize msize

variable {env : Env} {ec : ElfClass} {e e₁ e₀ e' : Elf} {c : Cmd} {im₀ im : Image} {ops : List Op} {n₀ n : Nat}

/-- The reader of a file finds a section by its index, and its bytes. -/
def SeesBytes (env : Env) (im : Image) (index : Nat) (bs : List UInt8) : Prop :=
  ∃ r k r₁ d r₂ b, openObject env .read im = .ok (some r) ∧ elfGetscn env index r = .ok k r₁ ∧
    elfRawdata k r₁ = .ok d r₂ ∧ d.dBuf = some b ∧ b.bytes = bs

/-- A section of a file that can be read again. -/
theorem Written.sees {h : Ehdr} (hwr : Written env ec e h im) (hre : Reopenable ec e h) {t : Scn} (ht : t ∈ e.eScn)
    (hkeep : t.isSkipped = false) (hin : ec.get t.shdr.shOffset + ec.get t.shdr.shSize ≤ im.bytes.length)
    (hne : ec.get t.shdr.shSize ≠ 0) : SeesBytes env im t.sNdx (headerBytes ec im.bytes t.shdr) := by
  obtain ⟨order, -, hst⟩ := hwr.stored
  obtain ⟨k, r₁, s, hget, hs, hfresh⟩ := elfGetscn_reopened (hwr.opened hre.encoding).1 hwr.numbers hwr.shoff hwr.listed hre ht
  obtain ⟨d, r₂, b, hraw, hb, hbytes⟩ := rawdata_fresh hs hfresh hkeep hin hne
  exact ⟨_, k, r₁, d, r₂, b, (openObject_read_iff hst.room hst.ehdr hwr.fixed _).mpr ⟨hre.encoding, rfl⟩, hget, hraw, hb,
    hbytes⟩

/-- A section whose data nothing has read has in the new file the bytes that it had in the old one, wherever the
layout puts it. -/
theorem untouched_kept (hopen : openObject env c im₀ = .ok (some e₀)) (hrun : runOps (Op.step env) e₀ ops = .ok e)
    (hc : e.eClass = some ec)
    (hfit : ∀ h start, readIn env ec (currentVersion e) = .ok h start → Fits start ec h ∧ CountFits start ec)
    (hnull : elfUpdate env .null e = .ok n₀ e₁) (hind : indices e₁ = List.range e₁.eNscn)
    (hupd : elfUpdate env .write e = .ok n e') (him : e'.eFd = some im.bytes) (hsmall : n < 2 ^ ec.width) {h : Ehdr}
    (hh : e₁.eEhdr = some h) (hre : Reopenable ec e₁ h) {t : Scn} (ht : t ∈ e₁.eScn) (hndx : t.sNdx ≠ 0)
    (hkeep : t.isSkipped = false) (hne : t.sSize ≠ 0) (hnil : t.sData = []) :
    SeesBytes env im t.sNdx (window e₁.rawbytes (wrap t.sRawoff) t.sSize) := by
  have hn : e₁.eNscn ≠ 0 := by
    intro hn
    rw [indices, hn, List.range_zero, List.map_eq_nil_iff] at hind
    rw [hind] at ht
    exact List.not_mem_nil ht
  obtain ⟨exs, h', r, hw, hw₁, hfits, hcount, hwrite, hlen, hwr⟩ :=
    written_of_run hopen hrun hc hfit hnull hind (fun _ hzero => absurd hzero hn) hupd him
  obtain rfl := Option.some.inj (hwr.eEhdr.symm.trans hh)
  obtain ⟨i, hi, rfl⟩ := List.mem_iff_getElem.mp ht
  have hget := List.getElem?_eq_getElem hi
  rw [(sNdx_of_indices hind).2 i hi] at hndx
  obtain ⟨hsize, hin, hbytes⟩ := r.headerBytes_eq hw hw₁ hfits hcount hget hkeep hne hndx hlen hsmall
  rw [← r.copied hw hw₁ hfits hcount hget hkeep hnil hne hwrite him, ← hbytes]
  exact hwr.sees hre ht hkeep hin (by rw [hsize]; exact hne)

end Runs

/-- A section is added to the file; the one that is there is not looked at. -/
def addedSection : List Op :=
  [.newscn, .setShdr 2 { Shdr.zero with shType := 1, shAddralign := 1 }, .newdata 2, .setData 2 0 (fourBytes 0)]

set_option maxRecDepth 8000 in
/-- The old section moves to the end of the executable header. -/
theorem untouched_kept_moved : ∃ e₀ e e₁ e' n₀ n t, ∃ im : Image, openObject plainEnv .rdwr (bytesImage 4) = .ok (some e₀) ∧
    runOps (Op.step plainEnv) e₀ addedSection = .ok e ∧ elfUpdate plainEnv .null e = .ok n₀ e₁ ∧
    e₁.eScn[1]? = some t ∧ t.sRawoff = 132 ∧ t.sOffset = 52 ∧ elfUpdate plainEnv .write e = .ok n e' ∧
    e'.eFd = some im.bytes ∧ SeesBytes plainEnv im 1 [1, 2, 3, 4] := by
  have hall : ∃ e₀ e, openObject plainEnv .rdwr (bytesImage 4) = .ok (some e₀) ∧
      runOps (Op.step plainEnv) e₀ addedSection = .ok e ∧ e.eClass = some .elfclass32 ∧
      checked plainEnv .elfclass32 e (fun e₁ _ => e₁.eScn[1]?.any fun t => decide (t.sNdx = 1 ∧ t.isSkipped = false ∧
        t.sSize = 4 ∧ t.sData = [] ∧ t.sRawoff = 132 ∧ t.sOffset = 52 ∧
        window e₁.rawbytes 132 4 = [1, 2, 3, 4])) = true :=
    ⟨_, _, rfl, rfl, rfl, by decide +kernel⟩
  obtain ⟨e₀, e, hopen, hrun, hc, hcheck⟩ := hall
  obtain ⟨e₁, e', n₀, n, h, im, hfit, hnull, hind, -, hupd, hsmall, him, hh, hre, hp⟩ := of_checked hcheck
  obtain ⟨t, ht, hp⟩ := (Option.any_eq_true _ _).mp hp
  obtain ⟨hndx, hkeep, hsize, hnil, hraw, hoff, hwin⟩ := of_decide_eq_true hp
  have hsees := untouched_kept hopen hrun hc hfit hnull hind hupd him hsmall hh hre (List.mem_of_getElem? ht)
    (by rw [hndx]; decide) hkeep (by rw [hsize]; decide) hnil
  rw [hndx, hraw, hsize, wrap_of_lt (by decide), hwin] at hsees
  exact ⟨e₀, e, e₁, e', n₀, n, t, im, hopen, hrun, hnull, ht, hraw, hoff, hupd, him, hsees⟩

/-! ## Sections with data -/

section Filled

attribute [local irreducible] fsize msize

variable {env : Env} {ec : ElfClass} {e e₁ e₀ e' : Elf} {c : Cmd} {im₀ im : Image} {ops : List Op} {n₀ n : Nat}

def ElfData.contents (d : ElfData) : List UInt8 := (d.dBuf.map Buf.bytes).getD []

theorem memoryBytes_nil (host : ByteOrder) (swap : Bool) (ec : ElfClass) (u : ElfType) :
    memoryBytes host swap ec u [] = [] := by
  unfold memoryBytes
  split
  · rfl
  · rw [List.length_nil, Nat.zero_div]
    rfl

/-- Every descriptor starts where the one before it ends. -/
def Adjacent : Nat → List ElfData → Prop
  | _, [] => True
  | off, d :: ds => d.dOff.toNat = off ∧ Adjacent (off + d.dSize.toNat) ds

section Data

variable {u : ElfType} {swap : Bool} {encoding : UInt8}

/-- Whole objects go to memory one after the other. -/
theorem memoryBytes_append (hroom : SameRoom ec u) (host : ByteOrder) {a b : List UInt8} (hdvd : fsize u ec ∣ a.length) :
    memoryBytes host swap ec u (a ++ b) = memoryBytes host swap ec u a ++ memoryBytes host swap ec u b := by
  unfold memoryBytes
  obtain ⟨hvar, fs, hfs, hpos, -⟩ := hroom
  obtain ⟨m, hm⟩ := hdvd
  rw [fsize_of_structDef hvar hfs] at hm
  rw [hfs]
  dsimp only
  rw [List.length_append, hm, Nat.mul_add_div hpos, Nat.mul_div_cancel_left m hpos,
    records_add _ m (by rw [hm, Nat.mul_comm]), List.flatten_append]

/-- What a descriptor has in the file goes back to what its buffer has. -/
theorem memoryBytes_fileBytes (hroom : SameRoom ec u) {d : ElfData} (hd : d.dType = some u)
    (hdvd : fsize u ec ∣ d.dSize.toNat) (horder : encodingOf env encoding = some (fileOrder env.host swap)) :
    memoryBytes env.host swap ec u (fileBytes env encoding ec d) = d.contents := by
  cases hb : d.dBuf with
  | none =>
    rw [show fileBytes env encoding ec d = [] by unfold fileBytes; rw [hb], memoryBytes_nil, ElfData.contents, hb]
    rfl
  | some b =>
    have hlen := d.size_buf b hb
    rw [ElfData.contents, hb, Option.map_some, Option.getD_some]
    obtain ⟨hvar, fs, hfs, hpos, hsame⟩ := hroom
    have hswap : decide (fileOrder env.host swap ≠ env.host) = swap := by
      cases env.host <;> cases swap <;> rfl
    obtain ⟨m, hm⟩ := hdvd
    rw [fsize_of_structDef hvar hfs, hsame, Nat.mul_comm] at hm
    rw [hsame] at hpos
    have hcount : d.dSize.toNat / naturalSize fs = m := by rw [hm, Nat.mul_div_cancel m hpos]
    have hbytes : b.bytes.length = m * naturalSize fs := hlen.trans hm
    have htof : ∀ r : List UInt8, r.length = naturalSize fs →
        (tofObject env.host swap fs r).length = packedSize fs := fun r hr => length_tofObject env.host swap hr
    have hback : ∀ r : List UInt8, r.length = naturalSize fs →
        tomObject env.host swap fs (zeroObject fs) (tofObject env.host swap fs r) = r :=
      fun r hr => tomObject_tofObject env.host swap hsame (length_zeroObject fs) hr
    rw [fileBytes_fixed hb hd hvar hfs horder, hcount, hswap, memoryBytes, hfs]
    dsimp only
    rw [length_flatten_records htof m b.bytes (Nat.le_of_eq hbytes.symm), Nat.mul_div_cancel m (hsame ▸ hpos),
      records_flatten _ htof m b.bytes (Nat.le_of_eq hbytes.symm),
      flatten_records_of_id hback m (Nat.le_of_eq hbytes.symm), ← hbytes, window_full]

theorem memoryBytes_flatMap (hroom : SameRoom ec u) (horder : encodingOf env encoding = some (fileOrder env.host swap))
    {ds : List ElfData} (hds : ∀ d ∈ ds, d.dType = some u ∧ fsize u ec ∣ d.dSize.toNat ∧
      (fileBytes env encoding ec d).length = d.dSize.toNat) :
    fsize u ec ∣ (ds.flatMap (fileBytes env encoding ec)).length ∧
      memoryBytes env.host swap ec u (ds.flatMap (fileBytes env encoding ec)) = ds.flatMap ElfData.contents := by
  induction ds with
  | nil => exact ⟨dvd_zero _, memoryBytes_nil _ _ _ _⟩
  | cons d ds ih =>
    obtain ⟨hd, hdvd, hlen⟩ := hds d List.mem_cons_self
    obtain ⟨hrest, hbytes⟩ := ih fun d' hd' => hds d' (List.mem_cons_of_mem d hd')
    rw [List.flatMap_cons, List.flatMap_cons, List.length_append, memoryBytes_append hroom env.host (hlen.symm ▸ hdvd),
      memoryBytes_fileBytes hroom hd hdvd horder, hbytes]
    exact ⟨Nat.dvd_add (hlen.symm ▸ hdvd) hrest, rfl⟩

theorem joined_of_adjacent (ds : List ElfData) (hlen : ∀ d ∈ ds, (fileBytes env encoding ec d).length = d.dSize.toNat) :
    ∀ off, Adjacent off ds → Joined off (ds.map (piece env encoding ec)) := by
  induction ds with
  | nil => exact fun _ _ => trivial
  | cons d ds ih =>
    rintro off ⟨hoff, hrest⟩
    refine ⟨hoff, ?_⟩
    have hstop : (piece env encoding ec d).stop = off + d.dSize.toNat := by
      rw [Piece.stop, piece, hlen d List.mem_cons_self, hoff]
    rw [hstop]
    exact ih (fun d' hd' => hlen d' (List.mem_cons_of_mem d hd')) _ hrest

end Data

/-- The contents of a section whose descriptors lie one after the other. -/
theorem LayoutRun.joined_bytes {rc : Nat} {exs : List Extent} (r : LayoutRun env ec e rc exs e₁) (hw : Wf e) (hw₁ : Wf e₁)
    (hfit : Fits r.start ec r.ehdr) (hcount : CountFits r.start ec) {i : Nat} {t : Scn} (ht : e₁.eScn[i]? = some t)
    (hkeep : t.isSkipped = false) (hne : t.sSize ≠ 0) (hfilled : t.sData ≠ []) (hsame : ∀ d ∈ t.sData, SameSize ec d)
    (hadj : Adjacent 0 t.sData)
    (hwrite : writeElf env ec rc exs e₁ = .ok n e') (him : e'.eFd = some im.bytes) :
    (∀ d ∈ t.sData, (fileBytes env e₁.eByteorder ec d).length = d.dSize.toNat) ∧
      window im.bytes t.sOffset t.sSize = t.sData.flatMap (fileBytes env e₁.eByteorder ec) := by
  have hready := (r.ready hw hw₁ hfit hcount).scns i t ht hkeep hne
  have hscn := ht
  rw [r.eScn] at hscn
  obtain ⟨u, hu, hnum⟩ := numberScns_getElem? hscn hkeep
  obtain ⟨-, -, -, -, horder⟩ := r.wrote hw hw₁ hfit hcount hwrite him
  obtain ⟨hlens, hend, m, hbytes⟩ := r.section_bytes hw hw₁ hfit hcount hu (hnum.isSkipped.symm.trans hkeep)
    (hnum.size ▸ hne) (hnum.data ▸ hfilled) (fun d hd => by
      rw [← hnum.data] at hd
      obtain ⟨⟨hknown, hver, hpow⟩, hin⟩ := hready.data d hd
      have hok : DataOk r.start ec d := ⟨hknown, hver.trans r.eVersion, hpow⟩
      rw [← hnum.size]
      rw [dataFsz_same hok (hsame d hd)] at hin
      exact ⟨hok, hsame d hd, hin⟩) hwrite him
  rw [horder, ← hnum.data] at hlens hend hbytes
  rw [← hnum.size, ← hnum.offset] at hbytes
  rw [← hnum.size] at hend
  have hpieces := joined_of_adjacent t.sData hlens 0 hadj
  refine ⟨hlens, ?_⟩
  have hflat : (t.sData.map (piece env e₁.eByteorder ec)).flatMap Piece.bytes =
      t.sData.flatMap (fileBytes env e₁.eByteorder ec) := by
    rw [List.flatMap_map]
    rfl
  have htotal := sweepEnd_joined hpieces
  rw [hend, Nat.zero_add, hflat] at htotal
  refine List.ext_getElem? fun a => ?_
  rw [getElem?_window]
  split
  · next ha =>
    rw [hbytes a ha, swept_joined hpieces (Nat.zero_le a) (hend ▸ ha), hflat, Nat.sub_zero]
  · next ha => rw [List.getElem?_eq_none (by omega)]

/-- What an application puts into a section, in objects of the type of the section, `elf_getdata` gives back when the
new file is opened. -/
theorem data_read_back (hopen : openObject env c im₀ = .ok (some e₀)) (hrun : runOps (Op.step env) e₀ ops = .ok e)
    (hc : e.eClass = some ec)
    (hfit : ∀ h start, readIn env ec (currentVersion e) = .ok h start → Fits start ec h ∧ CountFits start ec)
    (hnull : elfUpdate env .null e = .ok n₀ e₁) (hind : indices e₁ = List.range e₁.eNscn)
    (hupd : elfUpdate env .write e = .ok n e') (him : e'.eFd = some im.bytes) (hsmall : n < 2 ^ ec.width) {h : Ehdr}
    (hh : e₁.eEhdr = some h) (hre : Reopenable ec e₁ h) {t : Scn} (ht : t ∈ e₁.eScn) (hndx : t.sNdx ≠ 0)
    (hkeep : t.isSkipped = false) (hne : t.sSize ≠ 0) (hfilled : t.sData ≠ []) {u : ElfType}
    (htype : xlateShtype t.shdr.shType = some u) (hroom : SameRoom ec u) (hdata : ∀ d ∈ t.sData, d.dType = some u)
    (hadj : Adjacent 0 t.sData) :
    ∃ r k r₁ d r₂ b, openObject env .read im = .ok (some r) ∧ elfGetscn env t.sNdx r = .ok k r₁ ∧
      elfGetdata env k r₁ = .ok d r₂ ∧ d.dType = some u ∧ d.dBuf = some b ∧
      b.bytes = t.sData.flatMap ElfData.contents := by
  have hn : e₁.eNscn ≠ 0 := by
    intro hn
    rw [indices, hn, List.range_zero, List.map_eq_nil_iff] at hind
    rw [hind] at ht
    exact List.not_mem_nil ht
  obtain ⟨exs, h', r, hw, hw₁, hfits, hcount, hwrite, hlen, hwr⟩ :=
    written_of_run hopen hrun hc hfit hnull hind (fun _ hzero => absurd hzero hn) hupd him
  obtain rfl := Option.some.inj (hwr.eEhdr.symm.trans hh)
  obtain ⟨i, hi, rfl⟩ := List.mem_iff_getElem.mp ht
  have hget := List.getElem?_eq_getElem hi
  rw [(sNdx_of_indices hind).2 i hi] at hndx
  obtain ⟨hsize, hin, hbytes⟩ := r.headerBytes_eq hw hw₁ hfits hcount hget hkeep hne hndx hlen hsmall
  obtain ⟨heq, hpos⟩ := hroom.sizes
  have hsame : ∀ d ∈ e₁.eScn[i].sData, SameSize ec d := fun d hd => .inr ⟨u, hdata d hd, hroom.1, heq⟩
  obtain ⟨hlens, hwin⟩ := r.joined_bytes hw hw₁ hfits hcount hget hkeep hne hfilled hsame hadj hwrite him
  obtain ⟨order, -, hst⟩ := hwr.stored
  obtain ⟨hopened, horder⟩ := hwr.opened hre.encoding
  have hready := (r.ready hw hw₁ hfits hcount).scns i _ hget hkeep hne
  have hbyte : e₁.eByteorder = h'.eIdent[5] := by
    have hin := r.headersIn
    obtain rfl : r.ehdr' = h' := Option.some.inj (hin.eEhdr.symm.trans hh)
    exact hin.byteorder
  rw [← hbyte] at horder
  obtain ⟨hdvd, hback⟩ := memoryBytes_flatMap hroom horder fun d hd => by
    obtain ⟨⟨⟨v, hv, -, hmod⟩, -, -⟩, -⟩ := hready.data d hd
    obtain rfl := Option.some.inj ((hdata d hd).symm.trans hv)
    exact ⟨hdata d hd, heq ▸ Nat.dvd_of_mod_eq_zero hmod, hlens d hd⟩
  obtain ⟨k, r₁, s, hgetscn, hs, hfresh⟩ := elfGetscn_reopened hopened hwr.numbers hwr.shoff hwr.listed hre ht
  have hlength : fsize u ec ∣ ec.get e₁.eScn[i].shdr.shSize := by
    have hlength := congrArg List.length hwin
    rw [length_window (by rw [hlen]; exact hready.fit)] at hlength
    rw [hsize, hlength]
    exact hdvd
  obtain ⟨d, r₂, b, hgetdata, hd, hb, hmem⟩ := @getdata_fresh env _ _ _ _ _ _ _ hs hfresh hkeep hin (by rw [hsize]; exact hne)
    htype hroom hlength
  have hswaps : r₁.swaps env = (openedElf ec im).swaps env := by
    rw [Elf.swaps, Elf.swaps, hfresh.eByteorder]
    rfl
  refine ⟨_, k, r₁, d, r₂, b, (openObject_read_iff hst.room hst.ehdr hwr.fixed _).mpr ⟨hre.encoding, rfl⟩, hgetscn, hgetdata,
    hd, hb, ?_⟩
  rw [hmem, hbytes, hwin, hswaps, hback]

end Filled

/-- An array of two addresses in two descriptors, for the other byte order. -/
def addressOps : List Op :=
  [.newehdr .elfclass64, .setEhdr { Ehdr.zero with eIdent := swappedIdent },
   .newscn, .setShdr 1 { Shdr.zero with shType := 14, shAddralign := 8 }, .newdata 1,
   .setData 1 0 ⟨8, 0, 8, some ⟨4096, [1, 2, 3, 4, 5, 6, 7, 8]⟩, some .addr, 1, by decide⟩, .newdata 1,
   .setData 1 1 ⟨8, 0, 8, some ⟨4096, [9, 10, 11, 12, 13, 14, 15, 16]⟩, some .addr, 1, by decide⟩]

theorem data_read_back_addresses : ∃ e₀ e e' n, ∃ im : Image, openObject plainEnv .write noImage = .ok (some e₀) ∧
    runOps (Op.step plainEnv) e₀ addressOps = .ok e ∧ elfUpdate plainEnv .write e = .ok n e' ∧ e'.eFd = some im.bytes ∧
    window im.bytes 64 16 = [8, 7, 6, 5, 4, 3, 2, 1, 16, 15, 14, 13, 12, 11, 10, 9] ∧
    ∃ r k r₁ d r₂ b, openObject plainEnv .read im = .ok (some r) ∧ elfGetscn plainEnv 1 r = .ok k r₁ ∧
      elfGetdata plainEnv k r₁ = .ok d r₂ ∧ d.dType = some .addr ∧ d.dBuf = some b ∧
      b.bytes = [1, 2, 3, 4, 5, 6, 7, 8, 9, 10, 11, 12, 13, 14, 15, 16] := by
  have hall : ∃ e₀ e, openObject plainEnv .write noImage = .ok (some e₀) ∧
      runOps (Op.step plainEnv) e₀ addressOps = .ok e ∧ e.eClass = some .elfclass64 ∧
      checked plainEnv .elfclass64 e (fun e₁ im => (e₁.eScn[1]?.any fun t => decide (t.sNdx = 1 ∧ t.isSkipped = false ∧
        t.sSize = 16 ∧ t.shdr.shType = 14 ∧ t.sData.map (fun d => (d.dOff, d.dSize, d.dType)) =
          [(0, 8, some .addr), (8, 8, some .addr)] ∧ t.sData.flatMap ElfData.contents =
            [1, 2, 3, 4, 5, 6, 7, 8, 9, 10, 11, 12, 13, 14, 15, 16])) &&
        decide (window im 64 16 = [8, 7, 6, 5, 4, 3, 2, 1, 16, 15, 14, 13, 12, 11, 10, 9])) = true :=
    ⟨_, _, rfl, rfl, rfl, by decide +kernel⟩
  obtain ⟨e₀, e, hopen, hrun, hc, hcheck⟩ := hall
  obtain ⟨e₁, e', n₀, n, h, im, hfit, hnull, hind, -, hupd, hsmall, him, hh, hre, hp⟩ := of_checked hcheck
  rw [Bool.and_eq_true] at hp
  obtain ⟨t, ht, hscn⟩ := (Option.any_eq_true _ _).mp hp.1
  obtain ⟨hndx, hkeep, hsize, hshtype, hds, hcontents⟩ := of_decide_eq_true hscn
  obtain ⟨d₁, rest, hdata, hd₁, hrest⟩ := List.map_eq_cons_iff.mp hds
  obtain ⟨d₂, rest', hdata', hd₂, hnil⟩ := List.map_eq_cons_iff.mp hrest
  obtain rfl := List.map_eq_nil_iff.mp hnil
  subst hdata'
  simp only [Prod.mk.injEq] at hd₁ hd₂
  obtain ⟨hoff₁, hsize₁, hty₁⟩ := hd₁
  obtain ⟨hoff₂, hsize₂, hty₂⟩ := hd₂
  have hback := data_read_back hopen hrun hc hfit hnull hind hupd him hsmall hh hre (List.mem_of_getElem? ht)
    (by rw [hndx]; decide) hkeep (by rw [hsize]; decide) (by rw [hdata]; nofun) (by rw [hshtype]; rfl)
    ⟨rfl, _, rfl, by decide, by decide⟩
    (by rw [hdata]; exact List.forall_mem_cons.mpr ⟨hty₁, List.forall_mem_cons.mpr ⟨hty₂, nofun⟩⟩)
    (by rw [hdata]; exact ⟨by rw [hoff₁]; rfl, by rw [hoff₂, hsize₁]; rfl, trivial⟩)
  rw [hndx, hcontents] at hback
  exact ⟨e₀, e, e', n, im, hopen, hrun, hupd, him, of_decide_eq_true hp.2, hback⟩

end LibElf.Toolchain
