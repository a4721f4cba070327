import LibElf.Toolchain.ConvertSafe
import LibElf.Toolchain.Fits
import LibElf.Toolchain.SessionRun

/-!
# What the writers store, and when they stop

A writer that ends where its extent does has stored inside the extent. It stops by a load outside the old
image, by an assertion for one of the reasons that `Bad` lists, or by a store outside the new image where a
raw descriptor is `Long`.

1. `ensures_xlateTof`, `ensures_fillGap`, `ensures_dataLoop` and `ensures_rawLoop`, the parts.
2. `WriterReady`, what the layout leaves, and `ensures_writeExtent`, one triple for all writers.
3. `ensures_writeLoop`: the whole file.
-/

namespace LibElf.Toolchain

open Outcome Mem

attribute [local irreducible] fsize msize

/-! ## The parts of a writer -/

section Parts

variable {env : Env} {ec : ElfClass} {n : Nat} {nf : Mem n}

/-- Translating to the file stays in the destination and never stops. -/
theorem ensures_xlateTof (encoding : UInt8) {off dsz : Nat} (hn : off + dsz ≤ n) (v : Nat)
    {buf : Option Buf} {size : Nat} (hbuf : ∀ b ∈ buf, b.bytes.length = size) (t : Option ElfType)
    (v' : Nat) :
    (xlateTof env encoding ec off dsz v buf size t v' nf).Ensures (fun _ nf' => Frame nf nf' off dsz)
      (fun _ => True) (fun _ => False) := by
  unfold xlateTof
  split
  · trivial
  next order _ =>
  split
  · trivial
  split
  · trivial
  · trivial
  next b t =>
  split
  · trivial
  next hfsz =>
  have hfpos : 0 < fsize t ec := Nat.pos_of_ne_zero hfsz
  split
  · trivial
  dsimp only
  split
  · trivial
  next hroom =>
  split
  · next h0 => exact absurd h0 (Nat.ne_of_gt (malign_pos hfpos))
  split
  · trivial
  split
  · exact Frame.refl _ _ _
  split
  · next hnone =>
    have := getTranslator_isSome env.host hfpos true
    rw [hnone] at this
    cases this
  · next xlate hx =>
    have hsrc : size / msize t ec * (if true = true then msize t ec else fsize t ec) ≤ b.bytes.length := by
      rw [if_pos rfl, hbuf b rfl]
      exact Nat.div_mul_le_self _ _
    have htame : Tame nf off (size / msize t ec * fsize t ec) (xlate n nf off
        (size / msize t ec * fsize t ec) b.bytes (size / msize t ec) (decide (order ≠ env.host))) :=
      getTranslator_tame env.host hx nf (by omega) hsrc fun _ => Nat.le_refl _
    split
    · next hstop =>
      rw [hstop] at htame
      exact htame
    · trivial
    · next hok =>
      rw [hok] at htame
      exact htame.mono (Nat.le_refl _) (by omega)

/-- Filling a gap inside the image. -/
theorem ensures_fillGap {rc target : Nat} (h : target ≤ n) :
    (fillGap env rc target nf).Ensures (fun _ nf' => Frame nf nf' rc (target - rc) ∧
      ∀ i, rc ≤ i → i < target → nf'.bytes[i]? = some env.fillchar) (fun _ => False)
      (fun _ => False) := by
  unfold fillGap
  split
  · next hlt =>
    have hin : rc + (List.replicate (target - rc) env.fillchar).length ≤ n := by
      rw [List.length_replicate]
      omega
    rw [fill_eq, write_of_le nf hin]
    have hframe := frame_splice nf hin
    rw [List.length_replicate] at hframe
    refine ⟨hframe, fun i hlo hhi => ?_⟩
    rw [Mem.splice, getElem?_splice (by rw [nf.length_eq]; exact hin), if_neg (Nat.not_lt.mpr hlo),
      List.length_replicate, if_pos (by omega), List.getElem?_replicate, if_pos (by omega)]
  · refine ⟨Frame.refl _ _ _, ?_⟩
    intro i
    omega

/-- The end of the last of the descriptors of a section at `off`. -/
def dataEnd (ec : ElfClass) (off : Nat) : Nat → List ElfData → Nat
  | rc, [] => rc
  | _, d :: ds => dataEnd ec off (off + d.dOff.toNat + dataFsz ec d) ds

/-- The loop over the data descriptors stays inside the section, and stops only at a descriptor
without a buffer. -/
theorem ensures_dataLoop {e : Elf} {s : Scn} (hn : s.sOffset + s.sSize ≤ n) (hsmall : n < 2 ^ 64)
    (ds : List ElfData) : ∀ (rc : Nat) (nf : Mem n),
    (∀ d ∈ ds, DataOk e ec d ∧ d.dOff.toNat + dataFsz ec d ≤ s.sSize) → s.sOffset ≤ rc →
    (dataLoop env ec e s rc ds nf).Ensures
      (fun nrc nf' => Frame nf nf' s.sOffset s.sSize ∧ nrc = dataEnd ec s.sOffset rc ds ∧
        ∀ d ∈ ds, d.dBuf ≠ none)
      (fun _ => True) (fun f => f = .assertion ∧ ∃ d ∈ ds, d.dBuf = none) := by
  induction ds with
  | nil => exact fun rc nf _ _ => ⟨Frame.refl _ _ _, rfl, nofun⟩
  | cons d ds ih =>
    intro rc nf hds hrc
    obtain ⟨hd, hfit⟩ := hds d List.mem_cons_self
    obtain ⟨t, ht, hmpos, hmod⟩ := hd.known
    have hfsz : libelfFsize t ec (d.dSize.toNat / msize t ec) = dataFsz ec d := by rw [dataFsz, ht]
    have htarget : wrap (s.sOffset + d.dOff.toNat) = s.sOffset + d.dOff.toNat := wrap_of_lt (by omega)
    have hend : wrap (s.sOffset + d.dOff.toNat + dataFsz ec d) = s.sOffset + d.dOff.toNat + dataFsz ec d :=
      wrap_of_lt (by omega)
    unfold dataLoop
    split
    · next hnone =>
      rw [ht] at hnone
      cases hnone
    next t' ht' =>
    obtain rfl : t' = t := Option.some.inj (ht'.symm.trans ht)
    dsimp only
    rw [hfsz, htarget, hend]
    refine ensures_bind (ensures_mono (@ensures_fillGap env _ nf rc
      (s.sOffset + d.dOff.toNat) (by omega)) (fun _ _ h => h)
      (fun _ h => h.elim) (fun _ h => h.elim)) ?_
    rintro _ nf₁ ⟨hfill, _⟩
    have hfill' : Frame nf nf₁ s.sOffset s.sSize := by
      rcases Nat.lt_or_ge rc (s.sOffset + d.dOff.toNat) with hlt | hge
      · exact hfill.mono hrc (by omega)
      · intro i hi
        apply hfill
        omega
    split
    · next hbuf =>
      refine ⟨rfl, d, List.mem_cons_self, ?_⟩
      exact hbuf.resolve_right (not_not.mpr hd.version)
    next hbuf =>
    rw [not_or] at hbuf
    split
    · next h0 => exact absurd h0 (Nat.ne_of_gt hmpos)
    split
    · next h0 => exact absurd hmod h0
    refine ensures_bind (ensures_mono (@ensures_xlateTof _ _ _ nf₁ e.eByteorder
      (s.sOffset + d.dOff.toNat) (dataFsz ec d) (by omega) e.eVersion _ _ d.size_buf (some t')
      d.dVersion) (fun _ _ h => h) (fun _ h => h) (fun _ h => h.elim)) ?_
    intro _ nf₂ hxlate
    have hrest := ih (s.sOffset + d.dOff.toNat + dataFsz ec d) nf₂
      (fun d' hd' => hds d' (List.mem_cons_of_mem d hd')) (by omega)
    refine ensures_mono hrest ?_ (fun _ h => h) ?_
    · rintro nrc nf₃ ⟨hframe, hnrc, hbufs⟩
      refine ⟨(hfill'.trans (hxlate.mono (by omega) (by omega))).trans hframe, hnrc, fun d' hd' => ?_⟩
      rcases List.mem_cons.mp hd' with rfl | hd'
      · exact hbuf.1
      · exact hbufs d' hd'
    · rintro f ⟨hf, d', hd', hnone⟩
      exact ⟨hf, d', List.mem_cons_of_mem d hd', hnone⟩

/-- Copying the bytes of a raw descriptor from the old image. It takes all of them, however long the section is. -/
theorem ensures_rawLoop {e : Elf} {s : Scn} {d : ElfData} (hn : n < 2 ^ 64) (hoff : s.sOffset ≤ n)
    (hv : e.eVersion = evCurrent) (hd : RawShape d) (nf : Mem n) :
    (rawLoop env e s s.sOffset [d] nf).Ensures
      (fun nrc nf' => Frame nf nf' s.sOffset d.dSize.toNat ∧ nrc = s.sOffset + d.dSize.toNat ∧ d.dBuf ≠ none ∧
        window nf'.bytes s.sOffset d.dSize.toNat = window e.rawbytes (wrap s.sRawoff) d.dSize.toNat)
      (fun _ => True)
      (fun f => f = .load ∨ f = .assertion ∧ d.dBuf = none ∨ f = .store ∧ n < s.sOffset + d.dSize.toNat) := by
  have htarget : wrap s.sOffset = s.sOffset := wrap_of_lt (by omega)
  unfold rawLoop
  dsimp only
  rw [hd.off, Nat.add_zero, Nat.add_zero, htarget]
  have hfill : fillGap env s.sOffset s.sOffset nf = .ok () nf := if_neg (Nat.lt_irrefl _)
  rw [hfill, bind_ok]
  split
  · next hbad =>
    rcases hbad with hnone | htype | hver
    · exact .inr (.inl ⟨rfl, hnone⟩)
    · exact absurd hd.type htype
    · exact absurd (hd.version.trans hv.symm) hver
  next hgood =>
  rw [not_or] at hgood
  unfold Elf.read
  refine ensures_bind (Q := fun bs t => (bs = window e.rawbytes (wrap s.sRawoff) d.dSize.toNat ∧ t = nf) ∧
    bs.length = d.dSize.toNat) ?_ ?_
  · unfold readAt
    split
    · next hin =>
      refine ⟨⟨rfl, rfl⟩, ?_⟩
      rcases hin with hzero | hle
      · rw [hzero, window_zero]
        rfl
      · exact length_window hle
    · exact .inl rfl
  rintro bs t ⟨⟨rfl, ht⟩, hlen⟩
  rw [ht]
  generalize window e.rawbytes (wrap s.sRawoff) d.dSize.toNat = bs at hlen ⊢
  rcases Nat.lt_or_ge n (s.sOffset + d.dSize.toNat) with hlong | hin
  · -- the descriptor does not fit the new image
    have hne : bs ≠ [] := by
      rintro rfl
      rw [List.length_nil] at hlen
      omega
    have hstop : nf.write s.sOffset bs = (.stop .store : Outcome ElfError (Mem n) Unit) := by
      rw [Mem.write, if_neg hne, dif_neg (by omega)]
    rw [hstop]
    exact .inr (.inr ⟨rfl, hlong⟩)
  have hin' : s.sOffset + bs.length ≤ n := by rwa [hlen]
  rw [write_of_le nf hin', bind_ok]
  have hframe := frame_splice nf hin'
  have hself := @window_splice_self nf.bytes bs s.sOffset (by rw [nf.length_eq]; exact hin')
  rw [hlen] at hframe hself
  exact ⟨hframe, wrap_of_lt (by omega), hgood.1, hself⟩

end Parts

/-! ## The writers -/

section Writers

variable (ec : ElfClass) (n : Nat) (e : Elf)

/-- A section with an extent, as the layout leaves it: the extent is in the file, the descriptors are
in the section, and a section that was not read has the size of its header. -/
structure ScnReady (s : Scn) : Prop where
  fit : s.sOffset + s.sSize ≤ n
  data : ∀ d ∈ s.sData, DataOk e ec d ∧ d.dOff.toNat + dataFsz ec d ≤ s.sSize
  size : s.sData = [] → e.eRawfile ≠ none → ec.get s.shdr.shSize = s.sSize

/-- A descriptor that can be written. -/
structure WriterReady : Prop where
  wf : Wf e
  cls : e.eClass = some ec
  small : n < 2 ^ 63
  ehdr : e.eEhdr ≠ none
  phdr : ∀ h, e.eEhdr = some h → e.eNphdr ≠ 0 →
    0 < ec.get h.ePhoff ∧ falign (some .phdr) ec ∣ ec.get h.ePhoff
  scns : ∀ (i : Nat) (s : Scn), e.eScn[i]? = some s → s.isSkipped = false → s.sSize ≠ 0 → ScnReady ec n e s

inductive ExtentOf : Extent → Prop
  | ehdr : ExtentOf (ehdrExtent ec)
  | phdr (h : Ehdr) (hp : e.eNphdr ≠ 0) (hh : e.eEhdr = some h) :
    ExtentOf (phdrExtent ec (ec.get h.ePhoff) e.eNphdr)
  | scn (i : Nat) (s : Scn) (hs : e.eScn[i]? = some s) (hkeep : s.isSkipped = false)
    (hne : s.sSize ≠ 0) : ExtentOf (scnExtent i s)
  | shdr (off : Nat) (hn : e.eNscn ≠ 0) (hdvd : falign (some .shdr) ec ∣ off) :
    ExtentOf (shdrExtent ec off e.eNscn)

/-- A section that was not read has a raw descriptor that was made for another header. -/
def StaleRaw (s : Scn) : Prop :=
  s.sData = [] ∧ ∃ d ∈ s.sRawdata, d.dBuf = none ∨ d.dSize.toNat ≠ s.sSize

/-- Such a descriptor, and it is longer than the section. -/
def LongRaw (s : Scn) : Prop := s.sData = [] ∧ ∃ d ∈ s.sRawdata, s.sSize < d.dSize.toNat

/-- Why the writer of a section fails an assertion: its type is unknown, it is not aligned for its
type, the size in its header was cut to zero, a descriptor has no buffer, the last descriptor
does not end where the section does, or the bytes to copy are not those of the section. -/
def ScnBad (s : Scn) : Prop :=
  ec.get s.shdr.shSize = 0 ∨ xlateShtype s.shdr.shType = none ∨
    ¬ falign (xlateShtype s.shdr.shType) ec ∣ s.sOffset ∨
    (∃ d ∈ s.sData, d.dBuf = none) ∨
    (s.sData ≠ [] ∧ dataEnd ec s.sOffset s.sOffset s.sData ≠ s.sOffset + s.sSize) ∨ StaleRaw s

/-- Why the writer of an extent fails an assertion. The offset of the section header table may have
been cut in the header. -/
def Bad (ex : Extent) : Prop :=
  match ex.exType with
  | .ehdr => False
  | .phdr => False
  | .scn => ∀ s, e.eScn[ex.exDesc]? = some s → ScnBad ec s
  | .shdr => ∀ h, e.eEhdr = some h → ec.get h.eShoff ≠ ex.exStart

/-- Why the writer of an extent may store beyond it. -/
def Long (ex : Extent) : Prop :=
  ex.exType = .scn ∧ ∀ s, e.eScn[ex.exDesc]? = some s → LongRaw s

variable {ec n e} {e' : Elf}

theorem LongRaw.stale {s : Scn} (h : LongRaw s) : StaleRaw s := by
  obtain ⟨hnil, d, hd, hlt⟩ := h
  exact ⟨hnil, d, hd, .inr (Nat.ne_of_gt hlt)⟩

theorem forget_eq {s s' : Scn} (h : s'.forget = s.forget) :
    s'.shdr = s.shdr ∧ s'.sData = s.sData ∧ s'.sDirty = s.sDirty ∧ s'.sNdx = s.sNdx ∧
      s'.sOffset = s.sOffset ∧ s'.sRawoff = s.sRawoff ∧ s'.sSize = s.sSize := by
  cases s
  cases s'
  unfold Scn.forget at h
  simp only [Scn.mk.injEq] at h
  obtain ⟨h1, h2, _, h3, h4, h5, h6, h7⟩ := h
  exact ⟨h1, h2, h3, h4, h5, h6, h7⟩

theorem Unchanged.symm_scn (h : Unchanged e e') {i : Nat} {s' : Scn} (hs : e'.eScn[i]? = some s') :
    ∃ s, e.eScn[i]? = some s ∧ s'.forget = s.forget := by
  have hmap := congrArg (fun l => l[i]?) h.scn
  rw [List.getElem?_map, List.getElem?_map, hs, Option.map_some] at hmap
  obtain ⟨s, hs, hf⟩ := Option.map_eq_some_iff.mp hmap.symm
  exact ⟨s, hs, hf.symm⟩

/-- Raw descriptors are left alone, or made for the header of their section. -/
def RawKept (ec : ElfClass) (e e' : Elf) : Prop :=
  ∀ (i : Nat) (s s' : Scn), e.eScn[i]? = some s → e'.eScn[i]? = some s' →
    s'.sRawdata = s.sRawdata ∨
      s.sRawdata = [] ∧ e.eRawfile ≠ none ∧ ∃ d, s'.sRawdata = [d] ∧ RawData ec s.shdr d

theorem RawKept.of_eq (h : e'.eScn = e.eScn) : RawKept ec e e' := by
  intro i s s' hs hs'
  rw [h, hs] at hs'
  cases hs'
  exact .inl rfl

/-- The writers change nothing that they rely on. -/
theorem WriterReady.unchanged (hr : WriterReady ec n e) (hw : Wf e') (h : Unchanged e e') : WriterReady ec n e' := by
  refine ⟨hw, h.eClass.trans hr.cls, hr.small, by rw [h.eEhdr]; exact hr.ehdr, ?_, ?_⟩
  · intro hdr hh hp
    rw [h.eEhdr] at hh
    rw [h.eNphdr] at hp
    exact hr.phdr hdr hh hp
  · intro i s' hs' hkeep hne
    obtain ⟨s, hs, hf⟩ := h.symm_scn hs'
    obtain ⟨hshdr, hdata, _, _, hoff, _, hsize⟩ := forget_eq hf
    have hkeep' : s.isSkipped = false := by rwa [Scn.isSkipped, ← hshdr, ← Scn.isSkipped]
    have hs := hr.scns i s hs hkeep' (by rwa [← hsize])
    refine ⟨by rw [hoff, hsize]; exact hs.fit, ?_, ?_⟩
    · intro d hd
      rw [hdata] at hd
      obtain ⟨⟨hknown, hver, hpow⟩, hfit⟩ := hs.data d hd
      exact ⟨⟨hknown, hver.trans h.eVersion.symm, hpow⟩, by rw [hsize]; exact hfit⟩
    · rw [hdata, h.eRawfile, hshdr, hsize]
      exact hs.size

theorem ExtentOf.pos {ex : Extent} (h : ExtentOf ec e ex) : 0 < ex.exSize := by
  cases h with
  | ehdr => exact fsize_ehdr_pos ec
  | phdr h hp _ => exact Nat.mul_pos (Nat.pos_of_ne_zero hp) (fsize_phdr_pos ec)
  | scn i s _ _ hne => exact Nat.pos_of_ne_zero hne
  | shdr off hn _ => exact Nat.mul_pos (Nat.pos_of_ne_zero hn) (fsize_shdr_pos ec)

theorem ExtentOf.unchanged (h : Unchanged e e') {ex : Extent} (hex : ExtentOf ec e ex) :
    ExtentOf ec e' ex := by
  cases hex with
  | ehdr => exact .ehdr
  | phdr hdr hp hh =>
    rw [← h.eNphdr] at hp ⊢
    exact .phdr hdr hp (h.eEhdr.trans hh)
  | scn i s hs hkeep hne =>
    obtain ⟨s', hs', hf⟩ := h.getElem? hs
    obtain ⟨hshdr, _, _, _, hoff, _, hsize⟩ := forget_eq hf
    have hkeep' : s'.isSkipped = false := by rwa [Scn.isSkipped, hshdr, ← Scn.isSkipped]
    have heq : scnExtent i s = scnExtent i s' := by rw [scnExtent, scnExtent, hoff, hsize]
    rw [heq]
    exact .scn i s' hs' hkeep' (by rwa [hsize])
  | shdr off hn hdvd =>
    rw [← h.eNscn] at hn ⊢
    exact .shdr off hn hdvd

/-- A raw descriptor that a writer makes is not stale. -/
theorem stale_congr {s s' : Scn} (hr : ScnReady ec n e s) (hkeep : s.isSkipped = false) (hne : s.sSize ≠ 0)
    (h : s'.forget = s.forget) (hraw : s'.sRawdata = s.sRawdata ∨
      s.sRawdata = [] ∧ e.eRawfile ≠ none ∧ ∃ d, s'.sRawdata = [d] ∧ RawData ec s.shdr d) :
    (StaleRaw s' ↔ StaleRaw s) ∧ (LongRaw s' ↔ LongRaw s) := by
  obtain ⟨-, hdata, _, _, -, _, hsize⟩ := forget_eq h
  rw [StaleRaw, StaleRaw, LongRaw, LongRaw, hdata, hsize]
  rcases hraw with hraw | ⟨hnil, hfile, d, hraw, hd⟩
  · rw [hraw]
    exact ⟨Iff.rfl, Iff.rfl⟩
  · rw [hraw, hnil]
    have hfits : s.sData = [] → d.dSize.toNat = s.sSize := fun hdata => hd.size.trans (hr.size hdata hfile)
    have hbuf : s.sData = [] → d.dBuf ≠ none := by
      intro hdata hnone
      rcases hd.buf.mp hnone with hbits | hzero
      · simp [Scn.isSkipped, hbits] at hkeep
      · exact hne ((hr.size hdata hfile).symm.trans hzero)
    constructor
    · refine iff_of_false ?_ (by rintro ⟨_, _, ⟨⟩, _⟩)
      rintro ⟨hdata, x, hx, hor⟩
      cases List.mem_singleton.mp hx
      exact hor.elim (hbuf hdata) fun h => h (hfits hdata)
    · refine iff_of_false ?_ (by rintro ⟨_, _, ⟨⟩, _⟩)
      rintro ⟨hdata, x, hx, hlt⟩
      cases List.mem_singleton.mp hx
      rw [hfits hdata] at hlt
      exact Nat.lt_irrefl _ hlt

/-- The writer of an extent, after other extents were written. -/
theorem Bad.unchanged (hr : WriterReady ec n e) (h : Unchanged e e') (hraw : RawKept ec e e') {ex : Extent}
    (hex : ExtentOf ec e ex) : (Bad ec e' ex ↔ Bad ec e ex) ∧ (Long e' ex ↔ Long e ex) := by
  cases hex with
  | ehdr => exact ⟨Iff.rfl, iff_of_false nofun nofun⟩
  | phdr hdr hp hh => exact ⟨Iff.rfl, iff_of_false nofun nofun⟩
  | scn i s hs hkeep hne =>
    obtain ⟨s', hs', hf⟩ := h.getElem? hs
    obtain ⟨hshdr, hdata, _, _, hoff, _, hsize⟩ := forget_eq hf
    obtain ⟨hstale, hlong⟩ := stale_congr (hr.scns i s hs hkeep hne) hkeep hne hf (hraw i s s' hs hs')
    have hbad : ScnBad ec s' ↔ ScnBad ec s := by rw [ScnBad, ScnBad, hstale, hshdr, hdata, hoff, hsize]
    have hall : ∀ {P : Scn → Prop}, (∀ t, e.eScn[i]? = some t → P t) ↔ P s := fun {P} =>
      ⟨fun hP => hP s hs, fun hP t ht => by rw [hs] at ht; cases ht; exact hP⟩
    have hall' : ∀ {P : Scn → Prop}, (∀ t, e'.eScn[i]? = some t → P t) ↔ P s' := fun {P} =>
      ⟨fun hP => hP s' hs', fun hP t ht => by rw [hs'] at ht; cases ht; exact hP⟩
    refine ⟨hall'.trans (hbad.trans hall.symm), ?_⟩
    exact and_congr Iff.rfl (hall'.trans (hlong.trans hall.symm))
  | shdr off hn hdvd =>
    refine ⟨?_, iff_of_false nofun nofun⟩
    show (∀ hdr, e'.eEhdr = some hdr → _) ↔ _
    rw [h.eEhdr]
    exact Iff.rfl

end Writers

section Triples

variable {env : Env} {ec : ElfClass} {n : Nat} {w : Writing n}

/-- The executable header. -/
theorem ensures_writeEhdr (hr : WriterReady ec n w.elf) (hn : (ehdrExtent ec).stop ≤ n) :
    (writeEhdr env ec (ehdrExtent ec) w).Ensures
      (fun nrc w' => Frame w.nf w'.nf 0 (fsize .ehdr ec) ∧ nrc = (ehdrExtent ec).stop)
      (fun _ => True) (fun _ => False) := by
  obtain ⟨h, hh⟩ := Option.ne_none_iff_exists'.mp hr.ehdr
  unfold writeEhdr
  rw [if_neg (fun hne => hne rfl), hh]
  have hstop : (ehdrExtent ec).stop = fsize .ehdr ec := Nat.zero_add _
  rw [hstop] at hn ⊢
  dsimp only
  refine ensures_bind (Q := fun _ w' => Frame w.nf w'.nf 0 (fsize .ehdr ec)) ?_ fun _ _ h => ⟨h, rfl⟩
  refine ensures_within (ensures_xlateTof _ (by omega) _ ?_ _ _)
  rintro b ⟨rfl⟩
  exact h.length_toMem env.host ec

theorem length_phdrTable (ps : List Phdr) : (phdrTable env ec ps).length = ps.length * msize .phdr ec := by
  induction ps with
  | nil => simp [phdrTable]
  | cons p ps ih =>
    rw [phdrTable, List.flatMap_cons, List.length_append, p.length_toMem, ← phdrTable, ih, List.length_cons,
      Nat.succ_mul, Nat.add_comm]

/-- The program header table. Reading in a table that is not there may load outside the image. -/
theorem ensures_writePhdr (hr : WriterReady ec n w.elf) {h : Ehdr} (hh : w.elf.eEhdr = some h)
    (hp : w.elf.eNphdr ≠ 0) (hn : (phdrExtent ec (ec.get h.ePhoff) w.elf.eNphdr).stop ≤ n) :
    (writePhdr env ec (phdrExtent ec (ec.get h.ePhoff) w.elf.eNphdr) w).Ensures
      (fun nrc w' => Frame w.nf w'.nf (ec.get h.ePhoff) (w.elf.eNphdr * fsize .phdr ec) ∧
        nrc = (phdrExtent ec (ec.get h.ePhoff) w.elf.eNphdr).stop)
      (fun _ => True) (· = .load) := by
  have hstop : (phdrExtent ec (ec.get h.ePhoff) w.elf.eNphdr).stop =
      ec.get h.ePhoff + w.elf.eNphdr * fsize .phdr ec := rfl
  have hsmall := hr.small
  have hbound := hr.wf.nphdr ec hr.cls
  have hv := hr.wf.opened hr.ehdr
  obtain ⟨hpos, hdvd⟩ := hr.phdr h hh hp
  have hfpos := fsize_phdr_pos ec
  have hfsz : libelfFsize .phdr ec w.elf.eNphdr = w.elf.eNphdr * fsize .phdr ec := by
    rw [libelfFsize, Nat.mul_comm]
    exact wrap_of_lt (by omega)
  have hne : w.elf.eNphdr * fsize .phdr ec ≠ 0 := Nat.mul_ne_zero hp (Nat.ne_of_gt hfpos)
  rw [hstop] at hn ⊢
  unfold writePhdr
  rw [hh]
  dsimp only
  rw [hfsz]
  split
  · next hbad =>
    exfalso
    rcases hbad with h0 | h0 | h0 | h0 | h0
    · exact hp h0
    · omega
    · exact h0 rfl
    · exact h0 (Nat.mod_eq_zero_of_dvd hdvd)
    · exact hne h0
  have hget := @kept_getphdr env _ _ _ hr.wf hr.cls _ hh
  have hframe := @getphdr_frame env _ _ hr.cls hv _ hh
  -- the buffer is the whole table, or missing
  refine ensures_bind (Q := fun buf w' => w'.nf = w.nf ∧
    ∀ b ∈ buf, b.bytes.length = wrap (w.elf.eNphdr * msize .phdr ec)) ?_ ?_
  · cases hx : getphdr env ec w.elf with
    | ok ps e =>
      rw [hx] at hget
      obtain ⟨hwf, hu, hps⟩ := hget
      refine ⟨rfl, ?_⟩
      rintro b ⟨rfl⟩
      rw [length_phdrTable, hwf.phdr ps hps, hu.eNphdr, wrap_of_lt hbound]
    | err err e =>
      rw [hx] at hframe
      cases hframe
      exact ⟨rfl, by rintro _ ⟨⟩⟩
    | stop f =>
      unfold getphdr at hx
      split at hx
      · cases hx
      rw [libelfEhdr_cached hr.cls hv hh, bind_ok] at hx
      dsimp only at hx
      rw [hfsz, if_neg hne] at hx
      split at hx
      · cases hx
      rcases bind_eq_stop.mp hx with hx | ⟨bs, e, _, hx⟩
      · exact (readAt_eq_stop.mp hx).1
      · cases hx
  · rintro buf w' ⟨hnf, hbuf⟩
    refine ensures_bind (Q := fun _ w'' => Frame w.nf w''.nf (ec.get h.ePhoff)
      (w.elf.eNphdr * fsize .phdr ec)) ?_ fun _ _ h => ⟨h, wrap_of_lt (by omega)⟩
    rw [← hnf]
    refine ensures_within (ensures_mono (ensures_xlateTof _ (by exact hn) _ ?_ _ _) (fun _ _ h => h)
      (fun _ h => h) fun _ h => h.elim)
    exact hbuf

/-- The section header table stays inside its extent. -/
theorem ensures_shdrLoop {e : Elf} {off count : Nat} (hn : off + count * fsize .shdr ec ≤ n) (ss : List Scn) :
    ∀ nf : Mem n, (∀ s ∈ ss, s.sNdx < count) →
    (shdrLoop env ec e off ss nf).Ensures (fun _ nf' => Frame nf nf' off (count * fsize .shdr ec))
      (fun _ => True) (fun _ => False) := by
  induction ss with
  | nil => exact fun nf _ => Frame.refl _ _ _
  | cons s ss ih =>
    intro nf hss
    have hs := hss s List.mem_cons_self
    have hmul : s.sNdx * fsize .shdr ec + fsize .shdr ec ≤ count * fsize .shdr ec := by
      rw [← Nat.succ_mul]
      exact Nat.mul_le_mul_right _ hs
    unfold shdrLoop
    refine ensures_bind (ensures_xlateTof _ (by omega) _ ?_ _ _) ?_
    · rintro b ⟨rfl⟩
      exact s.shdr.length_toMem env.host ec
    · intro _ nf₁ hframe
      exact ensures_mono (ih nf₁ fun t ht => hss t (List.mem_cons_of_mem s ht))
        (fun _ nf₂ h => (hframe.mono (by omega) (by omega)).trans h) (fun _ h => h) fun _ h => h

theorem ensures_writeShdr (hr : WriterReady ec n w.elf) {off : Nat} (hnscn : w.elf.eNscn ≠ 0)
    (hdvd : falign (some .shdr) ec ∣ off) (hn : (shdrExtent ec off w.elf.eNscn).stop ≤ n) :
    (writeShdr env ec (shdrExtent ec off w.elf.eNscn) w).Ensures
      (fun nrc w' => Frame w.nf w'.nf off (w.elf.eNscn * fsize .shdr ec) ∧
        nrc = (shdrExtent ec off w.elf.eNscn).stop ∧ ¬ Bad ec w.elf (shdrExtent ec off w.elf.eNscn))
      (fun _ => True) (fun f => f = .assertion ∧ Bad ec w.elf (shdrExtent ec off w.elf.eNscn)) := by
  obtain ⟨h, hh⟩ := Option.ne_none_iff_exists'.mp hr.ehdr
  have hbad : Bad ec w.elf (shdrExtent ec off w.elf.eNscn) ↔ ec.get h.eShoff ≠ off := by
    refine ⟨fun hb => hb h hh, fun hne h' hh' => ?_⟩
    rw [hh] at hh'
    cases hh'
    exact hne
  have hstop : (shdrExtent ec off w.elf.eNscn).stop = off + w.elf.eNscn * fsize .shdr ec := rfl
  have hsmall := hr.small
  have hend : off + w.elf.eNscn * fsize .shdr ec < 2 ^ 64 := by
    rw [← hstop]
    omega
  rw [hbad]
  rw [hstop] at hn ⊢
  unfold writeShdr
  rw [hh]
  dsimp only
  split
  · next hcond =>
    refine ⟨rfl, ?_⟩
    rcases hcond with h0 | h0 | h0
    · exact absurd h0 hnscn
    · rintro heq
      rw [heq] at h0
      exact h0 (Nat.mod_eq_zero_of_dvd hdvd)
    · exact fun heq => h0 heq.symm
  next hgood =>
  rw [not_or, not_or] at hgood
  refine ensures_bind (Q := fun _ w' => Frame w.nf w'.nf off (w.elf.eNscn * fsize .shdr ec)) ?_ ?_
  · refine ensures_within (ensures_mono (ensures_shdrLoop (by exact hn) w.elf.eScn w.nf fun s hs => ?_)
      (fun _ _ h => h) (fun _ h => h) fun _ h => h.elim)
    exact hr.wf.ndx s hs hnscn
  · intro _ w' hframe
    exact ⟨hframe, wrap_of_lt hend, fun hne => hgood.2.2 (fun heq => hne heq.symm)⟩

/-- The raw descriptor of a section: the one that is there, or a new one. -/
theorem ensures_rawdata_shape {e : Elf} {s : Scn} (hv : e.eVersion = evCurrent) (hold : RawOk e.eRawfile s) :
    (rawdata e ec s).Ensures
      (fun d t => t = { s with sRawdata := [d] } ∧ RawShape d ∧ (s.sRawdata = [d] ∨
        s.sRawdata = [] ∧ e.eRawfile ≠ none ∧ RawData ec s.shdr d))
      (fun _ => True) (fun _ => False) := by
  unfold rawdata
  split
  · trivial
  next hfile =>
  split
  · next d ds hcons =>
    obtain ⟨hone, hd, -⟩ := hold d (hcons ▸ List.mem_cons_self)
    refine ⟨?_, hd, .inl hone⟩
    rw [← hone]
  next hnil =>
  split
  · trivial
  split
  · trivial
  · have hd := rawData_rawDescriptor hv s.shdr ‹_›
    exact ⟨rfl, hd.toRawShape, .inr ⟨hnil, hfile, hd⟩⟩

/-- The contents of a section: those of its descriptors, or the bytes it had in the old image. -/
theorem ensures_writeScn (hr : WriterReady ec n w.elf) {i : Nat} {s : Scn}
    (hs : w.elf.eScn[i]? = some s) (hkeep : s.isSkipped = false) (hne : s.sSize ≠ 0) :
    (writeScn env ec (scnExtent i s) w).Ensures
      (fun nrc w' => (nrc = s.sOffset + s.sSize ↔ ¬ ScnBad ec s) ∧
        (nrc = s.sOffset + s.sSize → Frame w.nf w'.nf s.sOffset s.sSize ∧ (s.sData = [] →
          window w'.nf.bytes s.sOffset s.sSize = window w.elf.rawbytes (wrap s.sRawoff) s.sSize)))
      (fun _ => True) (fun f => f = .load ∨ f = .assertion ∧ ScnBad ec s ∨ f = .store ∧ LongRaw s) := by
  have hready := hr.scns i s hs hkeep hne
  have hfit := hready.fit
  have hsmall := hr.small
  have hend : s.sOffset ≠ s.sOffset + s.sSize := by omega
  unfold writeScn
  simp only [scnExtent, hs, hkeep, Bool.false_eq_true, false_or]
  split
  · next hzero => exact ⟨⟨fun h => absurd h hend, fun h => absurd (.inl hzero) h⟩, fun h => absurd h hend⟩
  next hfull =>
  split
  · next hunknown => exact .inr (.inl ⟨rfl, .inr (.inl hunknown)⟩)
  next t ht =>
  have hpos : 0 < falign (some t) ec := falign_pos ht ec
  rw [if_neg (Nat.ne_of_gt hpos)]
  split
  · next hmod =>
    refine .inr (.inl ⟨rfl, .inr (.inr (.inl ?_))⟩)
    rw [ht]
    exact fun hdvd => hmod (Nat.mod_eq_zero_of_dvd hdvd)
  next hmod =>
  have hdvd : falign (xlateShtype s.shdr.shType) ec ∣ s.sOffset := by
    rw [ht]
    exact Nat.dvd_of_mod_eq_zero (Decidable.not_not.mp hmod)
  -- what is left of `ScnBad` is about the descriptors
  have hbad : ScnBad ec s ↔ (∃ d ∈ s.sData, d.dBuf = none) ∨
      (s.sData ≠ [] ∧ dataEnd ec s.sOffset s.sOffset s.sData ≠ s.sOffset + s.sSize) ∨ StaleRaw s := by
    have hknown : xlateShtype s.shdr.shType ≠ none := by simp [ht]
    exact ⟨fun h => ((h.resolve_left hfull).resolve_left hknown).resolve_left (not_not.mpr hdvd),
      fun h => .inr (.inr (.inr h))⟩
  split
  · next hdata =>
    have hv := hr.wf.opened hr.ehdr
    have hold := hr.wf.raw s (List.mem_of_getElem? hs)
    refine ensures_bind (Q := fun d w₁ => w₁ = ⟨w.elf.setScn (w.elf.eScn.set i { s with sRawdata := [d] }), w.nf⟩ ∧
      RawShape d ∧ (s.sRawdata = [d] ∨ s.sRawdata = [] ∧ w.elf.eRawfile ≠ none ∧ RawData ec s.shdr d)) ?_ ?_
    · refine ensures_within (ensures_mono (ensures_rawdata_shape hv hold) ?_ (fun _ h => h) fun _ h => h.elim)
      rintro d t ⟨rfl, hd⟩
      exact ⟨rfl, hd⟩
    rintro d w₁ ⟨rfl, hd, hraw⟩
    -- the descriptor that is copied decides
    obtain ⟨hstale, hlong⟩ := @stale_congr ec n w.elf s { s with sRawdata := [d] } hready hkeep hne rfl <|
      hraw.imp Eq.symm fun ⟨hnil, hfile, hd⟩ => ⟨hnil, hfile, d, rfl, hd⟩
    have hcopy : StaleRaw s ↔ d.dBuf = none ∨ d.dSize.toNat ≠ s.sSize := by
      rw [← hstale, StaleRaw]
      simp [hdata]
    have hover : LongRaw s ↔ s.sSize < d.dSize.toNat := by
      rw [← hlong, LongRaw]
      simp [hdata]
    rw [hbad, hover, hcopy]
    simp only [Elf.setScn_eScn, List.getElem?_set_self (List.getElem?_eq_some_iff.mp hs).1]
    have hloop := @ensures_rawLoop env n (w.elf.setScn (w.elf.eScn.set i { s with sRawdata := [d] }))
      { s with sRawdata := [d] } d (by omega) (by dsimp only; omega) hv hd w.nf
    refine ensures_within (ensures_mono hloop ?_ (fun _ h => h) ?_)
    · rintro nrc nf ⟨hframe, rfl, hbuf, hwin⟩
      refine ⟨?_, fun heq => ?_⟩
      · simp only [hdata, hbuf, List.not_mem_nil, false_and, exists_false, ne_eq, not_true_eq_false, false_or, not_not]
        exact Nat.add_left_cancel_iff
      · rw [Nat.add_left_cancel heq] at hframe hwin
        exact ⟨hframe, fun _ => hwin⟩
    · rintro f (h | ⟨h, hnone⟩ | ⟨h, hlt⟩)
      · exact .inl h
      · exact .inr (.inl ⟨h, .inr (.inr (.inl hnone))⟩)
      · exact .inr (.inr ⟨h, by dsimp only at hlt; omega⟩)
  · next hdata =>
    have hfresh : ¬ StaleRaw s := fun h => hdata h.1
    refine ensures_within (ensures_mono (ensures_dataLoop (by exact hfit) (by omega) s.sData s.sOffset w.nf
      hready.data (Nat.le_refl _)) ?_ (fun _ h => h) ?_)
    · rintro nrc nf ⟨hframe, rfl, hbufs⟩
      refine ⟨?_, fun _ => ⟨hframe, fun h => absurd h hdata⟩⟩
      rw [hbad]
      constructor
      · rintro heq (⟨d, hd, hnone⟩ | ⟨_, hneq⟩ | hstale)
        · exact hbufs d hd hnone
        · exact hneq heq
        · exact hfresh hstale
      · intro h
        by_contra hneq
        exact h (.inr (.inl ⟨hdata, hneq⟩))
    · rintro f ⟨hf, hnone⟩
      exact .inr (.inl ⟨hf, hbad.mpr (.inl hnone)⟩)

/-- Every writer ends at the end of its extent unless the extent is bad, and has then stored inside it. -/
theorem ensures_writeExtent (hr : WriterReady ec n w.elf) {ex : Extent} (hex : ExtentOf ec w.elf ex)
    (hn : ex.stop ≤ n) :
    (writeExtent env ec ex w).Ensures
      (fun nrc w' => (nrc = ex.stop ↔ ¬ Bad ec w.elf ex) ∧ (nrc = ex.stop → Frame w.nf w'.nf ex.exStart ex.exSize))
      (fun _ => True) (fun f => f = .load ∨ f = .assertion ∧ Bad ec w.elf ex ∨ f = .store ∧ Long w.elf ex) := by
  unfold writeExtent
  cases hex with
  | ehdr =>
    refine ensures_mono (ensures_writeEhdr hr hn) ?_ (fun _ h => h) fun _ h => h.elim
    rintro nrc w' ⟨hframe, rfl⟩
    exact ⟨⟨fun _ h => h.elim, fun _ => rfl⟩, fun _ => hframe⟩
  | phdr h hp hh =>
    refine ensures_mono (ensures_writePhdr hr hh hp hn) ?_ (fun _ h => h) fun _ h => .inl h
    rintro nrc w' ⟨hframe, rfl⟩
    exact ⟨⟨fun _ h => h.elim, fun _ => rfl⟩, fun _ => hframe⟩
  | scn i s hs hkeep hne =>
    have hall : ∀ {P : Scn → Prop}, (∀ t, w.elf.eScn[i]? = some t → P t) ↔ P s := fun {P} =>
      ⟨fun hP => hP s hs, fun hP t ht => by rw [hs] at ht; cases ht; exact hP⟩
    have hbad : Bad ec w.elf (scnExtent i s) ↔ ScnBad ec s := hall
    have hlong : Long w.elf (scnExtent i s) ↔ LongRaw s := (and_iff_right rfl).trans hall
    rw [hbad, hlong]
    refine ensures_mono (ensures_writeScn hr hs hkeep hne) ?_ (fun _ h => h) fun _ h => h
    rintro nrc w' ⟨hend, hframe⟩
    exact ⟨hend, fun heq => (hframe heq).1⟩
  | shdr off hnscn hdvd =>
    refine ensures_mono (ensures_writeShdr hr hnscn hdvd hn) ?_ (fun _ h => h) fun _ h => .inr (.inl h)
    rintro nrc w' ⟨hframe, rfl, hgood⟩
    exact ⟨⟨fun _ => hgood, fun _ => rfl⟩, fun _ => hframe⟩

/-- A writer makes at most the raw descriptor of the section it copies. -/
theorem rawKept_writeExtent (hr : WriterReady ec n w.elf) (ex : Extent) :
    (writeExtent env ec ex w).Ensures (fun _ w' => RawKept ec w.elf w'.elf) (fun _ => True)
      (fun _ => True) := by
  have hstore : ∀ {α : Type} (e : Elf), e.eScn = w.elf.eScn → ∀ x : Outcome ElfError (Mem n) α,
      (x.within fun nf => (⟨e, nf⟩ : Writing n)).Ensures (fun _ w' => RawKept ec w.elf w'.elf)
        (fun _ => True) (fun _ => True) := by
    intro α e he x
    cases x with
    | ok a t => exact RawKept.of_eq he
    | err a t => trivial
    | stop f => trivial
  unfold writeExtent
  split
  · unfold writeEhdr
    split
    · trivial
    split
    · trivial
    · exact ensures_bind (hstore _ rfl _) fun _ _ h => h
  · unfold writePhdr
    split
    · trivial
    next h hh =>
    dsimp only
    split
    · trivial
    have hframe := @getphdr_frame env _ _ hr.cls (hr.wf.opened hr.ehdr) _ hh
    refine ensures_bind (Q := fun _ w' => w'.elf.eScn = w.elf.eScn) ?_ ?_
    · cases hx : getphdr env ec w.elf with
      | ok ps e =>
        rw [hx] at hframe
        obtain ⟨rfl, _⟩ := hframe
        rfl
      | err err e =>
        rw [hx] at hframe
        cases hframe
        rfl
      | stop f => trivial
    · intro buf w₁ hw₁
      exact ensures_bind (hstore _ hw₁ _) fun _ _ h => h
  · unfold writeScn
    split
    · trivial
    next s hs =>
    split
    · exact RawKept.of_eq rfl
    split
    · trivial
    split
    · trivial
    split
    · trivial
    dsimp only
    split
    · have hraw := @ensures_rawdata_shape ec _ s (hr.wf.opened hr.ehdr) (hr.wf.raw s (List.mem_of_getElem? hs))
      refine ensures_bind (Q := fun _ w' => RawKept ec w.elf w'.elf) ?_ ?_
      · refine ensures_within (ensures_mono hraw ?_ (fun _ h => h) fun _ h => trivial)
        rintro d t ⟨rfl, -, ht⟩ i u u' hu hu'
        rw [Elf.setScn_eScn, List.getElem?_set] at hu'
        split at hu'
        · next hi =>
          subst hi
          rw [hs] at hu
          cases hu
          split at hu'
          · cases hu'
            exact ht.imp Eq.symm fun ⟨hnil, hfile, hd⟩ => ⟨hnil, hfile, d, rfl, hd⟩
          · cases hu'
        · rw [hu] at hu'
          cases hu'
          exact .inl rfl
      · intro _ w₁ hw₁
        split
        · trivial
        next t ht =>
        cases hx : rawLoop env w₁.elf t ex.exStart t.sRawdata w₁.nf with
        | ok a nf => exact hw₁
        | err a nf => trivial
        | stop f => trivial
    · exact hstore _ rfl _
  · unfold writeShdr
    split
    · trivial
    dsimp only
    split
    · trivial
    · exact ensures_bind (hstore _ rfl _) fun _ _ h => h

/-- How a loop over the extents came to its end: each extent was written by its writer, to its end,
and nothing was stored in it after that; what lies between the extents was filled. -/
structure Wrote (env : Env) (ec : ElfClass) (rc : Nat) (exs : List Extent) (w : Writing n) (rc' : Nat)
    (w' : Writing n) : Prop where
  kept : Kept w w'
  below : Frame w.nf w'.nf rc (n - rc)
  le : rc ≤ rc' ∧ EndBy rc' exs
  top : rc' = rc ∨ ∃ ex ∈ exs, ex.stop = rc'
  good : ∀ ex ∈ exs, ¬ Bad ec w.elf ex
  extent : ∀ ex ∈ exs, ∃ w₁ w₂ : Writing n, Kept w w₁ ∧ writeExtent env ec ex w₁ = .ok ex.stop w₂ ∧
    ∀ a len, ex.exStart ≤ a → a + len ≤ ex.stop → window w'.nf.bytes a len = window w₂.nf.bytes a len
  gap : ∀ i, rc ≤ i → i < rc' → (∀ ex ∈ exs, i < ex.exStart ∨ ex.stop ≤ i) →
    w'.nf.bytes[i]? = some env.fillchar

/-- The loop over the extents of a layout. -/
theorem ensures_writeLoop (exs : List Extent) : ∀ (rc : Nat) (w : Writing n), WriterReady ec n w.elf →
    Sorted exs → EndBy n exs → (∀ ex ∈ exs, ExtentOf ec w.elf ex ∧ rc ≤ ex.exStart) →
    (writeLoop env ec rc exs w).Ensures (fun rc' w' => Wrote env ec rc exs w rc' w') (fun _ => True)
      (fun f => f = .load ∨ f = .assertion ∧ (∃ ex ∈ exs, Bad ec w.elf ex) ∨
        f = .store ∧ ∃ ex ∈ exs, Long w.elf ex) := by
  induction exs with
  | nil =>
    intro rc w hr _ _ _
    refine ⟨Kept.refl hr.wf, Frame.refl _ _ _, ⟨Nat.le_refl _, nofun⟩, .inl rfl, nofun, nofun, ?_⟩
    intro i hle hlt
    omega
  | cons ex exs ih =>
    intro rc w hr hsorted hend hexs
    obtain ⟨hex, hrc⟩ := hexs ex List.mem_cons_self
    obtain ⟨hhead, htail⟩ := List.pairwise_cons.mp hsorted
    have hstop : ex.stop ≤ n := hend ex List.mem_cons_self
    have hpos := hex.pos
    have hsmall := hr.small
    have hdef : ex.stop = ex.exStart + ex.exSize := rfl
    have htmax : ex.tmax = ex.stop := Extent.tmax_eq (by omega)
    unfold writeLoop
    -- the gap before the extent
    refine ensures_bind (Q := fun _ w₁ => w₁.elf = w.elf ∧ Frame w.nf w₁.nf rc (ex.exStart - rc) ∧
      ∀ i, rc ≤ i → i < ex.exStart → w₁.nf.bytes[i]? = some env.fillchar) ?_ ?_
    · refine ensures_within (ensures_mono (ensures_fillGap (by omega)) ?_ (fun _ h => h.elim) fun _ h => h.elim)
      exact fun _ nf h => ⟨rfl, h⟩
    rintro _ ⟨_, nf₁⟩ ⟨rfl, hfill, hgap⟩
    dsimp only at hfill hgap
    -- the extent
    have hwrite := @ensures_writeExtent env _ _ ⟨w.elf, nf₁⟩ hr _ hex hstop
    have hkept := @kept_writeExtent env _ _ ⟨w.elf, nf₁⟩ hr.wf hr.cls ex
    have hraw := @rawKept_writeExtent env _ _ ⟨w.elf, nf₁⟩ hr ex
    have hsame := ensures_and_ok (P := fun nrc w₂ => writeExtent env ec ex ⟨w.elf, nf₁⟩ = .ok nrc w₂)
      (ensures_and hwrite (ensures_and hkept hraw)) fun _ _ h => h
    refine ensures_bind (ensures_mono hsame (fun _ _ h => h) (fun _ h => h.1) fun f h => ?_) ?_
    · rcases h.1 with h | ⟨h, hbad⟩ | ⟨h, hlong⟩
      · exact .inl h
      · exact .inr (.inl ⟨h, ex, List.mem_cons_self, hbad⟩)
      · exact .inr (.inr ⟨h, ex, List.mem_cons_self, hlong⟩)
    rintro nrc w₂ ⟨⟨⟨hnrc, hframe⟩, hkept₂, hraw₂⟩, hrun⟩
    split
    · trivial
    split
    · next hshort =>
      refine .inr (.inl ⟨rfl, ex, List.mem_cons_self, ?_⟩)
      by_contra hgood
      have := hnrc.mpr hgood
      rw [htmax] at hshort
      omega
    next hfull =>
    rw [htmax, not_or, not_not] at hfull
    obtain ⟨rfl, _⟩ := hfull
    have hgood := hnrc.mp rfl
    replace hframe := hframe rfl
    -- the other extents
    have hr₂ : WriterReady ec n w₂.elf := hr.unchanged hkept₂.1 hkept₂.2
    have hsame : ∀ x ∈ exs, (Bad ec w₂.elf x ↔ Bad ec w.elf x) ∧ (Long w₂.elf x ↔ Long w.elf x) :=
      fun x hx => Bad.unchanged hr hkept₂.2 hraw₂ (hexs x (List.mem_cons_of_mem ex hx)).1
    have hrest := ih ex.stop w₂ hr₂ htail (fun x hx => hend x (List.mem_cons_of_mem ex hx)) fun x hx =>
      ⟨(hexs x (List.mem_cons_of_mem ex hx)).1.unchanged hkept₂.2, hhead x hx⟩
    refine ensures_mono hrest ?_ (fun _ h => h) ?_
    · intro rc' w' hdone
      obtain ⟨hle, hends⟩ := hdone.le
      refine ⟨⟨hdone.kept.1, hkept₂.2.trans hdone.kept.2⟩, ?_, ⟨by omega, ?_⟩, ?_, ?_, ?_, ?_⟩
      · refine ((hfill.mono (Nat.le_refl _) (by omega)).trans (hframe.mono hrc (by omega))).trans
          (hdone.below.mono (by omega) (by omega))
      · exact List.forall_mem_cons.mpr ⟨hle, hends⟩
      · rcases hdone.top with rfl | ⟨x, hx, rfl⟩
        · exact .inr ⟨ex, List.mem_cons_self, rfl⟩
        · exact .inr ⟨x, List.mem_cons_of_mem ex hx, rfl⟩
      · refine List.forall_mem_cons.mpr ⟨hgood, fun x hx hbad => hdone.good x hx ?_⟩
        exact (hsame x hx).1.mpr hbad
      · refine List.forall_mem_cons.mpr ⟨?_, fun x hx => ?_⟩
        · refine ⟨⟨w.elf, nf₁⟩, w₂, Kept.refl hr.wf, hrun, fun a len _ hhi => ?_⟩
          exact hdone.below.window_eq (.inl hhi)
        · obtain ⟨u₁, u₂, hu, hrest⟩ := hdone.extent x hx
          exact ⟨u₁, u₂, ⟨hu.1, hkept₂.2.trans hu.2⟩, hrest⟩
      · intro i hlo hhi hout
        rcases hout ex List.mem_cons_self with hbefore | hafter
        · rw [hdone.below i (.inl (by omega)), hframe i (.inl hbefore)]
          exact hgap i hlo hbefore
        · exact hdone.gap i hafter hhi fun x hx => hout x (List.mem_cons_of_mem ex hx)
    · rintro f (h | ⟨h, x, hx, hbad⟩ | ⟨h, x, hx, hlong⟩)
      · exact .inl h
      · exact .inr (.inl ⟨h, x, List.mem_cons_of_mem ex hx, (hsame x hx).1.mp hbad⟩)
      · exact .inr (.inr ⟨h, x, List.mem_cons_of_mem ex hx, (hsame x hx).2.mp hlong⟩)

end Triples

end LibElf.Toolchain
