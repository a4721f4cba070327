import Mathlib.Data.List.Forall2
import LibElf.Toolchain.LayoutAgain

/-!
# Reading data before a layout

`elf_getdata` makes a descriptor of a section from its header, and a section with a descriptor is laid out by other
rules than one without. Here an object whose sections were read is compared with the object as it was opened.

1. `DataRead`, some sections were read, and `HeadersLoaded`, the state it starts from.
2. `Accepts`, what the rules for a descriptor ask of the header it was made from, and `laidOut_read_iff`.
3. `Resynced.read`, the sections, and `read_layout_iff`, the whole object.
-/

namespace LibElf.Toolchain

open Outcome

/-! ## Reading sections -/

section Read

variable {env : Env} {e e₁ e₂ : Elf} {ec : ElfClass}

/-- The sections with the given handles were read with `elf_getdata`, one after the other. -/
inductive DataRead (env : Env) (e : Elf) : List Nat → Elf → Prop
  | nil : DataRead env e [] e
  | read {is : List Nat} {e₁ e₂ : Elf} {i : Nat} {d : ElfData} (rest : DataRead env e is e₁)
    (hget : elfGetdata env i e₁ = .ok d e₂) : DataRead env e (i :: is) e₂

/-- The headers of an object opened for reading and writing are in memory. -/
structure HeadersLoaded (ec : ElfClass) (e : Elf) : Prop where
  cmd : e.eCmd = .rdwr
  eClass : e.eClass = some ec
  eVersion : e.eVersion = evCurrent
  ehdr : e.eEhdr ≠ none
  shdrs : e.eFlags.shdrsLoaded = true

theorem getdata_setScn (l : List Scn) (s : Scn) : getdata env (e.setScn l) ec s = getdata env e ec s := rfl

/-- A section that is read once more gives what it gave. -/
theorem getdata_again {s t : Scn} {d : ElfData} (h : getdata env e ec s = .ok d t) :
    getdata env e ec t = .ok d t := by
  cases hdata : s.sData with
  | nil =>
    obtain ⟨rfl, -⟩ := getdata_ok h hdata
    rfl
  | cons d' ds =>
    unfold getdata at h
    rw [hdata] at h
    cases h
    unfold getdata
    rw [hdata]

theorem getdata_unread {s t : Scn} {d : ElfData} (h : getdata env e ec s = .ok d t) (hne : s.sData ≠ []) : t = s := by
  cases hdata : s.sData with
  | nil => exact absurd hdata hne
  | cons d' ds =>
    unfold getdata at h
    rw [hdata] at h
    cases h
    rfl

/-- Reading changes the sections that were read, and nothing else. -/
theorem DataRead.spec {is : List Nat} (hc : e.eClass = some ec) (h : DataRead env e is e₂) :
    e₂ = e.setScn e₂.eScn ∧ e₂.eScn.length = e.eScn.length ∧
      ∀ i s, e.eScn[i]? = some s → ∃ t, e₂.eScn[i]? = some t ∧
        if i ∈ is then ∃ d, getdata env e ec s = .ok d t else t = s := by
  induction h with
  | nil => exact ⟨rfl, rfl, fun i s hs => ⟨s, hs, by rw [if_neg List.not_mem_nil]⟩⟩
  | @read is e₁ e₂ j d rest hget ih =>
    obtain ⟨heq, hlen, hscn⟩ := ih
    have hc₁ : e₁.eClass = some ec := by rw [heq]; exact hc
    unfold elfGetdata onScn withClass at hget
    rw [hc₁] at hget
    dsimp only at hget
    split at hget
    · cases hget
    next s₁ hs₁ =>
    obtain ⟨t, hg, rfl⟩ := within_eq_ok.mp hget
    have hg' : getdata env e ec s₁ = .ok d t := by
      rw [heq] at hg
      exact hg
    refine ⟨by rw [heq]; rfl, by rw [Elf.setScn_eScn, List.length_set, hlen], fun i s hs => ?_⟩
    obtain ⟨u, hu, hrel⟩ := hscn i s hs
    rw [Elf.setScn_eScn]
    by_cases hij : j = i
    · subst hij
      have hs₁u : s₁ = u := Option.some.inj (hs₁.symm.trans hu)
      subst hs₁u
      refine ⟨t, by rw [List.getElem?_set_self (List.getElem?_eq_some_iff.mp hu).1], ?_⟩
      rw [if_pos List.mem_cons_self]
      split at hrel
      · obtain ⟨d', hd'⟩ := hrel
        have hsame := (getdata_again hd').symm.trans hg'
        injection hsame with hdd htt
        exact ⟨d', by rw [hd', htt]⟩
      · rw [← hrel]
        exact ⟨d, hg'⟩
    · refine ⟨u, by rw [List.getElem?_set_ne hij]; exact hu, ?_⟩
      have hmem : i ∈ j :: is ↔ i ∈ is := by
        rw [List.mem_cons]
        exact or_iff_right fun hi => hij hi.symm
      simp only [hmem]
      exact hrel

end Read

/-! ## One section -/

section Section

attribute [local irreducible] fsize msize

variable {env : Env} {e e₂ : Elf} {ec : ElfClass}

/-- The size in memory of what a section header describes. -/
def memSize (ec : ElfClass) (h : Shdr) : Nat :=
  match xlateShtype h.shType with
  | none => 0
  | some t => msize t ec * (ec.get h.shSize / fsize t ec)

/-- The rules for a descriptor accept what `elf_getdata` takes from a section header. -/
structure Accepts (e : Elf) (ec : ElfClass) (h : Shdr) : Prop where
  pow2 : isPow2 (ec.get h.shAddralign) = true
  aligned : e.eFlags.layout = true → ec.get h.shAddralign ∣ ec.get h.shOffset
  fits : e.eFlags.layout = true → memSize ec h ≤ ec.get h.shSize
  natural : e.eFlags.layout = true →
    0 < falign (xlateShtype h.shType) ec ∧ falign (xlateShtype h.shType) ec ∣ ec.get h.shOffset

/-- What `elf_getdata` makes of a section without descriptors. -/
structure ReadFrom (e : Elf) (ec : ElfClass) (h : Shdr) (d : ElfData) : Prop where
  fresh : FreshData ec h d
  type : ∃ t, d.dType = some t ∧ 0 < msize t ec ∧ d.dSize.toNat % msize t ec = 0
  version : d.dVersion = e.eVersion
  size : d.dSize.toNat = memSize ec h

theorem contentsOf_count {h : Shdr} {t : ElfType} {count : Nat} (hc : contentsOf e ec h = .ok (t, count)) :
    xlateShtype h.shType = some t ∧ count = ec.get h.shSize / fsize t ec := by
  unfold contentsOf at hc
  split at hc
  · cases hc
  split at hc
  · cases hc
  next u hu =>
  split at hc
  · cases hc
  split at hc
  · cases hc
  split at hc
  · cases hc
  dsimp only at hc
  split at hc
  · cases hc
  cases hc
  exact ⟨hu, rfl⟩

theorem getdata_readFrom {s t : Scn} {d : ElfData} (hcmd : e.eCmd ≠ .write) (hg : getdata env e ec s = .ok d t)
    (hdata : s.sData = []) : t = { s with sData := [d] } ∧ ReadFrom e ec s.shdr d := by
  have hloaded : Loaded env e ec s t := .inr ⟨hdata, hcmd, d, hg⟩
  obtain ⟨rfl, u, count, hcont, -, -, htype, hsize, hver, -⟩ := getdata_ok hg hdata
  obtain ⟨-, hfpos, -, hlt⟩ := contentsOf_ok hcont
  obtain ⟨hu, hcount⟩ := contentsOf_count hcont
  have hnat : d.dSize.toNat = msize u ec * count := by
    rw [hsize, UInt64.toNat_ofNat', Nat.mod_eq_of_lt hlt]
  refine ⟨rfl, ?_, ⟨u, htype, Nat.lt_of_lt_of_le hfpos (fsize_le_msize u ec), ?_⟩, hver, ?_⟩
  · rcases hloaded.eq_or_fresh with ⟨hor, -⟩ | ⟨-, -, d', heq, hfresh⟩
    · rcases hor with hne | hw
      · exact absurd hdata hne
      · exact absurd hw hcmd
    · have hdd : [d] = [d'] := congrArg Scn.sData heq
      cases hdd
      exact hfresh
  · rw [hnat]
    exact Nat.mul_mod_right _ _
  · rw [hnat, memSize, hu, hcount]

/-- The loop over the descriptors, for the one that was read. -/
theorem ReadFrom.checkData {h : Shdr} {d : ElfData} (hd : ReadFrom e ec h d)
    (hpow : isPow2 (ec.get h.shAddralign) = true) : checkData e ec 0 0 [d] =
      .ok (if e.eFlags.layout then memSize ec h else ec.get h.shSize, ec.get h.shAddralign) [d] := by
  obtain ⟨t, htype, hmpos, hmod⟩ := hd.type
  have halign := hd.fresh.align
  have hoff := hd.fresh.off
  have hlt : ec.get h.shAddralign < 2 ^ 64 := ec.get_lt _
  have hround : roundUp 0 (ec.get h.shAddralign) = 0 := roundUp_zero _ (pos_of_isPow2 hpow) hlt
  have hfsz : libelfFsize t ec (d.dSize.toNat / msize t ec) = ec.get h.shSize := by
    rw [← hd.fresh.fsz, dataFsz, htype]
  -- its offset is 0 already
  have hself : ∀ h', (⟨d.dAlign, UInt64.ofNat 0, d.dSize, d.dBuf, some t, e.eVersion, h'⟩ : ElfData) = d := by
    intro h'
    have hzero : d.dOff = UInt64.ofNat 0 := UInt64.toNat_inj.mp (by rw [hoff]; rfl)
    have hver := hd.version
    cases d
    cases hzero
    cases htype
    cases hver
    rfl
  unfold Toolchain.checkData
  simp only [htype, hd.version, halign, hpow, hoff, hmod, Nat.ne_of_gt hmpos, ne_eq, not_true_eq_false, if_false,
    Bool.true_eq_false, Nat.zero_and, Nat.zero_add, hround, hfsz, hself, wrap_of_lt d.dSize.toNat_lt, Nat.zero_max,
    wrap_of_lt (ec.get_lt h.shSize), Toolchain.checkData, within_ok]
  cases e.eFlags.layout with
  | true => rw [if_pos rfl, if_pos rfl, hd.size]
  | false => rw [if_neg Bool.false_ne_true, if_neg Bool.false_ne_true]

theorem shAlign_of_pow2 {h : Shdr} (hpow : isPow2 (ec.get h.shAddralign) = true) :
    shAlign ec h = ec.get h.shAddralign := if_neg (Nat.ne_of_gt (pos_of_isPow2 hpow))

/-- A section that was read takes the place and the size that it has without descriptors. -/
theorem Accepts.extents {rc : Nat} {s : Scn} {d : ElfData} (hd : ReadFrom e ec s.shdr d) (hacc : Accepts e ec s.shdr)
    (hkeep : s.isSkipped = false) : ∃ t, computeSectionExtents env e ec rc { s with sData := [d] } = .ok () t ∧
      t.sSize = ec.get s.shdr.shSize ∧ t.sOffset =
        if e.eFlags.layout then ec.get s.shdr.shOffset else roundUp rc (shAlign ec s.shdr) := by
  have hpos : 0 < ec.get s.shdr.shAddralign := pos_of_isPow2 hacc.pow2
  have halign : shAlign ec s.shdr = ec.get s.shdr.shAddralign := shAlign_of_pow2 hacc.pow2
  have hrule := @computeSectionExtents_read env e ec rc _ _ { s with sData := [d] } hkeep (.inl (List.cons_ne_nil _ _))
    (.inl (List.cons_ne_nil _ _)) (hd.checkData hacc.pow2)
  dsimp only at hrule
  rw [hrule, halign]
  cases hlay : e.eFlags.layout with
  | true =>
    obtain ⟨hfpos, hfdvd⟩ := hacc.natural hlay
    rw [if_pos rfl, if_pos rfl, if_pos rfl, if_neg (Nat.lt_irrefl _), if_neg (Nat.ne_of_gt hpos),
      if_neg (not_or.mpr ⟨not_not.mpr (Nat.mod_eq_zero_of_dvd (hacc.aligned hlay)), Nat.not_lt.mpr (hacc.fits hlay)⟩),
      if_neg (Nat.ne_of_gt hfpos), if_neg (not_not.mpr (Nat.mod_eq_zero_of_dvd hfdvd))]
    exact ⟨_, rfl, rfl, rfl⟩
  | false =>
    rw [if_neg Bool.false_ne_true, if_neg Bool.false_ne_true, if_neg Bool.false_ne_true, Nat.max_self, computeOffset_eq,
      if_neg (Nat.ne_of_gt hpos)]
    exact ⟨_, rfl, placed_sSize .., placed_sOffset ..⟩

/-- The rules accept a section that was read and laid out. -/
theorem LaidOut.accepts {rc : Nat} {s t : Scn} {d : ElfData} (hd : ReadFrom e ec s.shdr d)
    (h : LaidOut env e ec rc { s with sData := [d] } t) : Accepts e ec s.shdr := by
  have hne : ({ s with sData := [d] } : Scn).sData ≠ [] := List.cons_ne_nil _ _
  have hsame : ∀ {u : Scn}, Loaded env e ec { s with sData := [d] } u → u.sData = [d] := by
    rintro u (⟨-, rfl⟩ | ⟨hnil, -⟩)
    · rfl
    · exact absurd hnil hne
  have hpow : DataOk e ec d → isPow2 (ec.get s.shdr.shAddralign) = true := by
    intro hok
    rw [← hd.fresh.align]
    exact hok.pow2
  cases h with
  | keep hnil => exact absurd hnil hne
  | move hnil => exact absurd hnil hne
  | @check u size align hread hl hlay hcheck halign hpos hdvd hsize hfpos hfdvd =>
    rw [hsame hl] at hcheck
    obtain ⟨hok, -, hr⟩ := checkData_layout hlay hcheck
    have hpow' := hpow (hok d List.mem_cons_self)
    rw [hd.checkData hpow', hlay, if_pos rfl] at hcheck
    cases hcheck
    rw [shAlign_of_pow2 hpow'] at hdvd
    exact ⟨hpow', fun _ => hdvd, fun _ => hsize, fun _ => ⟨hfpos, hfdvd⟩⟩
  | @pack u size align ds hread hl hlay hcheck hpos =>
    rw [hsame hl] at hcheck
    obtain ⟨hok, -, -⟩ := checkData_library hlay hcheck
    refine ⟨hpow (hok d List.mem_cons_self), fun htrue => ?_, fun htrue => ?_, fun htrue => ?_⟩
    all_goals
      rw [hlay] at htrue
      cases htrue

/-- The contents of a section that the application asks to update are read in by the layout itself. -/
theorem computeSectionExtents_dirty {rc : Nat} {s : Scn} {d : ElfData} (hcmd : e.eCmd ≠ .write)
    (hg : getdata env e ec s = .ok d { s with sData := [d] }) (hdata : s.sData = []) (hdirty : s.sDirty = true) :
    computeSectionExtents env e ec rc { s with sData := [d] } = computeSectionExtents env e ec rc s := by
  have hne : ¬ ([d] = [] ∧ s.sDirty = false) := fun h => List.cons_ne_nil _ _ h.1
  have hthere : ¬ ([d] = [] ∧ e.eCmd ≠ .write) := fun h => List.cons_ne_nil _ _ h.1
  have hread : ¬ (s.sData = [] ∧ s.sDirty = false) := by
    rw [hdirty]
    exact fun h => Bool.noConfusion h.2
  have hload : s.sData = [] ∧ e.eCmd ≠ .write := ⟨hdata, hcmd⟩
  unfold computeSectionExtents
  dsimp only
  rw [if_neg hne, if_neg hthere, if_neg hread, if_pos hload, hg, bind_ok]
  rfl

end Section

/-! ## All sections -/

section Sections

variable {env : Env} {e e₂ : Elf} {ec : ElfClass}

/-- A section as it was, or read in. -/
def AsRead (env : Env) (e : Elf) (ec : ElfClass) (s t : Scn) : Prop := t = s ∨ ∃ d, getdata env e ec s = .ok d t

/-- If the section was read and the library would have let it alone, the rules for its descriptor accept it. -/
def ReadAccepted (e : Elf) (ec : ElfClass) (s t : Scn) : Prop :=
  s.sData = [] → t.sData ≠ [] → s.sDirty = false → s.isSkipped = false → Accepts e ec s.shdr

theorem AsRead.same (hcmd : e.eCmd ≠ .write) {s t : Scn} (h : AsRead env e ec s t) :
    t.sNdx = s.sNdx ∧ t.isSkipped = s.isSkipped := by
  rcases h with rfl | ⟨d, hg⟩
  · exact ⟨rfl, rfl⟩
  · by_cases hdata : s.sData = []
    · obtain ⟨rfl, -⟩ := getdata_readFrom hcmd hg hdata
      exact ⟨rfl, rfl⟩
    · rw [getdata_unread hg hdata]
      exact ⟨rfl, rfl⟩

/-- One section, read or not. -/
theorem AsRead.extents (hcmd : e.eCmd ≠ .write) {rc : Nat} {s s₂ t : Scn} (h : AsRead env e ec s s₂)
    (hacc : ReadAccepted e ec s s₂) (hkeep : s.isSkipped = false)
    (hlaid : computeSectionExtents env e ec rc s = .ok () t) :
    ∃ t₂, computeSectionExtents env e ec rc s₂ = .ok () t₂ ∧ t₂.sOffset = t.sOffset ∧ t₂.sSize = t.sSize := by
  rcases h with rfl | ⟨d, hg⟩
  · exact ⟨t, hlaid, rfl, rfl⟩
  by_cases hdata : s.sData = []
  swap
  · rw [getdata_unread hg hdata]
    exact ⟨t, hlaid, rfl, rfl⟩
  obtain ⟨rfl, hd⟩ := getdata_readFrom hcmd hg hdata
  by_cases hdirty : s.sDirty = true
  · exact ⟨t, (computeSectionExtents_dirty hcmd hg hdata hdirty).trans hlaid, rfl, rfl⟩
  · have hclean : s.sDirty = false := Bool.eq_false_iff.mpr hdirty
    obtain ⟨t₂, ht₂, hsize, hoff⟩ := Accepts.extents hd (hacc hdata (List.cons_ne_nil _ _) hclean hkeep) hkeep
    have hset := (computeSectionExtents_ok hlaid).settled
    have hnew : ¬ (s.sDirty = true ∧ e.eCmd = .write) := fun h => hcmd h.2
    refine ⟨t₂, ht₂, ?_, ?_⟩
    · rw [hoff, hset.offset, scnOffset, scnAlign, hdata, dataAlign, Nat.max_zero]
    · rw [hsize, hset.size, scnSize, librarySize, if_pos hdata, if_neg hnew, ite_self]

/-- The loop over the sections, some of them read. -/
theorem resyncSections_read (hcmd : e.eCmd ≠ .write) {ss ss₂ : List Scn}
    (hrel : List.Forall₂ (fun s t => AsRead env e ec s t ∧ ReadAccepted e ec s t) ss ss₂) :
    ∀ {ndx rc : Nat} {exs : List Extent} {r : Nat × List Extent} {ss' : List Scn},
    resyncSections env e ec ndx rc exs ss = .ok r ss' → ∃ ss₂', resyncSections env e ec ndx rc exs ss₂ = .ok r ss₂' := by
  induction hrel with
  | nil =>
    intro ndx rc exs r ss' h
    exact ⟨ss', h⟩
  | @cons s s₂ ss ss₂ hs hss ih =>
    intro ndx rc exs r ss' h
    obtain ⟨hread, hacc⟩ := hs
    unfold resyncSections at h ⊢
    rw [(hread.same hcmd).2]
    split
    · next hskip =>
      rw [if_pos hskip] at h
      obtain ⟨l, hrest, -⟩ := within_eq_ok.mp h
      obtain ⟨l₂, hrest₂⟩ := ih hrest
      exact ⟨s₂ :: l₂, by rw [hrest₂, within_ok]⟩
    · next hskip =>
      rw [if_neg hskip] at h
      cases hlaid : computeSectionExtents env e ec rc s with
      | stop f =>
        rw [hlaid] at h
        cases h
      | err x t =>
        rw [hlaid] at h
        cases h
      | ok u t =>
        rw [hlaid] at h
        obtain ⟨t₂, hlaid₂, hoff, hsize⟩ := hread.extents hcmd hacc (Bool.eq_false_iff.mpr hskip) hlaid
        rw [hlaid₂]
        dsimp only at h ⊢
        rw [hoff, hsize]
        split
        · next hzero =>
          rw [if_pos hzero] at h
          obtain ⟨l, hrest, -⟩ := within_eq_ok.mp h
          obtain ⟨l₂, hrest₂⟩ := ih hrest
          exact ⟨t₂ :: l₂, by rw [hrest₂, within_ok]⟩
        · next hne =>
          rw [if_neg hne] at h
          cases hins : insertExtent ⟨t.sOffset, t.sSize, .scn, ndx⟩ exs with
          | none =>
            rw [hins] at h
            cases h
          | some exs₁ =>
            rw [hins] at h
            obtain ⟨l, hrest, -⟩ := within_eq_ok.mp h
            obtain ⟨l₂, hrest₂⟩ := ih hrest
            exact ⟨t₂ :: l₂, by dsimp only; rw [hrest₂, within_ok]⟩

end Sections

/-! ## The whole object -/

section Object

attribute [local irreducible] fsize msize

variable {env : Env} {e e' e₂ : Elf} {ec : ElfClass}

theorem prepareEhdr_setScn {h : Ehdr} (l : List Scn) :
    prepareEhdr ec h (e.setScn l) = (prepareEhdr ec h e).within fun x => x.setScn l := by
  unfold prepareEhdr
  rw [Elf.setScn_eVersion, Elf.setScn_eCmd, Elf.setScn_eByteorder]
  generalize (if h.eVersion.toNat = 0 then evCurrent else h.eVersion.toNat) = version
  dsimp only
  split
  · rfl
  split
  · rfl
  split
  · rfl
  split
  · rfl
  · rfl

theorem getphdr_setScn {h : Ehdr} (hc : e.eClass = some ec) (hv : e.eVersion = evCurrent) (hh : e.eEhdr = some h)
    (l : List Scn) : getphdr env ec (e.setScn l) = (getphdr env ec e).within fun x => x.setScn l := by
  have hcached : libelfEhdr env ec false (e.setScn l) = .ok h (e.setScn l) :=
    libelfEhdr_cached (by exact hc) (by exact hv) (by exact hh) false
  unfold getphdr
  rw [Elf.setScn_ePhdr, libelfEhdr_cached hc hv hh, hcached, bind_ok, bind_ok]
  split
  · rfl
  · dsimp only
    rw [Elf.setScn_eNphdr, Elf.rawsize_setScn]
    split
    · rfl
    split
    · rfl
    unfold Elf.read readAt
    rw [Elf.rawbytes_setScn]
    split
    · rfl
    · rfl

/-- What comes before the sections does not look at them. -/
theorem layoutPhdr_setScn {h : Ehdr} {phoff rc p : Nat} {exs : List Extent} (hc : e.eClass = some ec)
    (hv : e.eVersion = evCurrent) (hh : e.eEhdr = some h) (l : List Scn) :
    layoutPhdr env ec phoff rc p exs (e.setScn l) = (layoutPhdr env ec phoff rc p exs e).within fun x => x.setScn l := by
  unfold layoutPhdr
  rw [Elf.setScn_eFlags, getphdr_setScn hc hv hh]
  dsimp only
  split
  · rfl
  split
  · rfl
  cases getphdr env ec e with
  | ok ps t =>
    dsimp only [within_ok, ignore_ok, bind_ok]
    split
    · rfl
    · rfl
  | err x t =>
    dsimp only [within_err, ignore_err, bind_ok]
    split
    · rfl
    · rfl
  | stop f => rfl

theorem computeSectionExtents_setScn (l : List Scn) (rc : Nat) (s : Scn) :
    computeSectionExtents env (e.setScn l) ec rc s = computeSectionExtents env e ec rc s := by
  have hrules : SameRules e (e.setScn l) := ⟨rfl, rfl, rfl⟩
  unfold computeSectionExtents
  simp only [checkData_congr hrules, getdata_setScn, Elf.setScn_eFlags, Elf.setScn_eCmd]

theorem resyncSections_setScn (l ss : List Scn) : ∀ (ndx rc : Nat) (exs : List Extent),
    resyncSections env (e.setScn l) ec ndx rc exs ss = resyncSections env e ec ndx rc exs ss := by
  induction ss with
  | nil => exact fun _ _ _ => rfl
  | cons s ss ih =>
    intro ndx rc exs
    unfold resyncSections
    simp only [ih, computeSectionExtents_setScn]

theorem prepareEhdr_byteorder {h h' : Ehdr} (hcmd : e.eCmd ≠ .write) (hx : prepareEhdr ec h e = .ok h' e') :
    getElem h.eIdent 5 eiData_lt = e.eByteorder := by
  unfold prepareEhdr at hx
  generalize (if h.eVersion.toNat = 0 then evCurrent else h.eVersion.toNat) = version at hx
  dsimp only at hx
  split at hx
  · cases hx
  split at hx
  · cases hx
  split at hx
  · cases hx
  split at hx
  · cases hx
  next hnot =>
  by_contra hne
  exact hnot ⟨hcmd, hne⟩

/-- The section that the counts were stored in is section 0. -/
theorem setcounts_head {p n : Nat} {e₁ : Elf} (hpn : setphnum p e = .ok () e₁) (hsn : setshnum ec n e₁ = .ok () e')
    (hbig : pnXnum ≤ p ∨ shnLoreserve ≤ n) : ∀ s, e.eScn.head? = some s → s.sNdx = 0 := by
  have hstore : ∀ {upd : Shdr → Shdr} {e e' : Elf}, setScn0 upd e = .ok () e' →
      ∀ s, e.eScn.head? = some s → s.sNdx = 0 := by
    intro upd e e' hx s hs
    cases hscn : e.eScn with
    | nil =>
      rw [hscn] at hs
      cases hs
    | cons t ts =>
      rw [hscn] at hs
      cases hs
      have he' := setScn0_ok hx
      rw [hscn] at he'
      exact setScn0_ndx hx { s with shdr := upd s.shdr, sDirty := true } (by rw [he']; rfl)
  unfold setphnum at hpn
  split at hpn
  · obtain ⟨_, e₂, hput, -⟩ := bind_eq_ok.mp hpn
    exact hstore hput
  · next hlt =>
    cases hpn
    have hsame : (updEhdr (fun h => { h with ePhnum := UInt16.ofNat p }) e).eScn = e.eScn := by
      unfold updEhdr
      split <;> rfl
    rw [setshnum, if_pos (hbig.resolve_left hlt)] at hsn
    obtain ⟨_, e₂, hput, -⟩ := bind_eq_ok.mp hsn
    rw [← hsame]
    exact hstore hput

theorem Resynced.head_ndx {ndx rc rc' : Nat} {exs exs' : List Extent} {ss ss' : List Scn}
    (h : Resynced env e ec ndx rc exs ss rc' exs' ss') :
    (∀ t, ss'.head? = some t → t.sNdx = 0) ↔ ∀ s, ss.head? = some s → s.sNdx = 0 := by
  have hcons : ∀ {s t : Scn} {ss ss' : List Scn}, t.sNdx = s.sNdx →
      ((∀ u, (t :: ss').head? = some u → u.sNdx = 0) ↔ ∀ u, (s :: ss).head? = some u → u.sNdx = 0) := by
    intro s t ss ss' hst
    simp only [List.head?_cons, Option.some.injEq, forall_eq', hst]
  cases h with
  | nil => exact Iff.rfl
  | skip => exact hcons rfl
  | empty hkeep hlaid => exact hcons hlaid.settled.ndx
  | put hkeep hlaid => exact hcons hlaid.settled.ndx

theorem AsRead.head_ndx (hcmd : e.eCmd ≠ .write) {ss l : List Scn}
    (hrel : List.Forall₂ (fun s t => AsRead env e ec s t ∧ ReadAccepted e ec s t) ss l)
    (hfirst : ∀ s, ss.head? = some s → s.sNdx = 0) : ∀ t, l.head? = some t → t.sNdx = 0 := by
  intro t ht
  cases hrel with
  | nil => cases ht
  | cons hst =>
    cases ht
    exact (hst.1.same hcmd).1.trans (hfirst _ rfl)

/-- The layout of an object some of whose sections were read. -/
theorem resyncElf_read (hl : HeadersLoaded ec e) {n : Nat} {exs : List Extent} (hx : resyncElf env ec e = .ok (n, exs) e')
    {l : List Scn} (hrel : List.Forall₂ (fun s t => AsRead env e ec s t ∧ ReadAccepted e ec s t) e.eScn l) :
    ∃ e₂', resyncElf env ec (e.setScn l) = .ok (n, exs) e₂' := by
  obtain ⟨h₀, hh₀⟩ := Option.ne_none_iff_exists'.mp hl.ehdr
  have hcmd : e.eCmd ≠ .write := by
    rw [hl.cmd]
    nofun
  have hcached : libelfEhdr env ec false (e.setScn l) = .ok h₀ (e.setScn l) :=
    libelfEhdr_cached (by exact hl.eClass) (by exact hl.eVersion) (by exact hh₀) false
  unfold resyncElf at hx
  rw [libelfEhdr_cached hl.eClass hl.eVersion hh₀, bind_ok] at hx
  obtain ⟨h, e₂, hprep, hx⟩ := bind_eq_ok.mp hx
  dsimp only at hx
  obtain ⟨⟨phoff, rc₁, exs₁⟩, e₃, hphdr, hx⟩ := bind_eq_ok.mp hx
  obtain ⟨_, start, hneed, hx⟩ := bind_eq_ok.mp hx
  obtain ⟨⟨rc₂, exs₂⟩, e₅, hsecs, hx⟩ := bind_eq_ok.mp hx
  obtain ⟨scns, hrun, rfl⟩ := within_eq_ok.mp hsecs
  split at hx
  · cases hx
  next hneg =>
  obtain ⟨⟨shoff, rc₃, exs₃⟩, e₆, hshdr, hx⟩ := bind_eq_ok.mp hx
  obtain ⟨_, e₇, hpn, hx⟩ := bind_eq_ok.mp hx
  obtain ⟨_, e₈, hsn, hend⟩ := bind_eq_ok.mp hx
  have hbyte := prepareEhdr_byteorder hcmd hprep
  have hprep₂ : prepareEhdr ec h₀ (e.setScn l) = .ok h (e₂.setScn l) := by
    rw [prepareEhdr_setScn, hprep, within_ok]
  obtain ⟨-, -, -, he₂⟩ := prepareEhdr_ok hprep
  have hc₂ : e₂.eClass = some ec := by rw [he₂]; exact hl.eClass
  have hv₂ : e₂.eVersion = evCurrent := by rw [he₂]; exact hl.eVersion
  have hh₂ : e₂.eEhdr = some h := by rw [he₂]; rfl
  have hphdr₂ := @layoutPhdr_setScn env _ ec h (ec.get h.ePhoff) (fsize .ehdr ec) e₂.eNphdr [ehdrExtent ec] hc₂ hv₂ hh₂ l
  rw [show layoutPhdr env ec (ec.get h.ePhoff) (fsize .ehdr ec) e₂.eNphdr [ehdrExtent ec] e₂ = _ from hphdr,
    within_ok] at hphdr₂
  obtain ⟨ps, rfl⟩ : ∃ ps, e₃ = e₂.setPhdr ps := readPhdr_ok hc₂ hv₂ hh₂ (layoutPhdr_ok hphdr).1
  -- the section headers are there
  have hshdrs : ∀ x : Elf, x.eFlags.shdrsLoaded = true → needSectionHeaders env ec h x = .ok () x := by
    intro x hx
    refine if_neg fun hor => ?_
    rw [hx] at hor
    exact Bool.noConfusion hor.2
  have hloaded : (e₂.setPhdr ps).eFlags.shdrsLoaded = true := by
    rw [he₂]
    exact hl.shdrs
  rw [hshdrs _ hloaded] at hneed
  cases hneed
  -- the sections are laid out by the same rules
  have hscn : (e₂.setPhdr ps).eScn = e.eScn := by rw [he₂]; rfl
  have hget : ∀ s, getdata env (e₂.setPhdr ps) ec s = getdata env e ec s := by
    intro s
    rw [he₂, hbyte]
    rfl
  have hlay : (e₂.setPhdr ps).eFlags.layout = e.eFlags.layout := by rw [he₂]; rfl
  have hcmd₂ : (e₂.setPhdr ps).eCmd ≠ .write := by rw [he₂]; exact hcmd
  have hrel₂ : List.Forall₂ (fun s t => AsRead env (e₂.setPhdr ps) ec s t ∧ ReadAccepted (e₂.setPhdr ps) ec s t)
      e.eScn l := by
    refine hrel.imp fun s t hst => ⟨hst.1.imp_right fun ⟨d, hd⟩ => ⟨d, (hget s).trans hd⟩, ?_⟩
    intro hnil hne hclean hkeep
    obtain ⟨hpow, hal, hfits, hnat⟩ := hst.2 hnil hne hclean hkeep
    rw [← hlay] at hal hfits hnat
    exact ⟨hpow, hal, hfits, hnat⟩
  rw [hscn] at hrun
  obtain ⟨scns₂, hrun₂⟩ := resyncSections_read hcmd₂ hrel₂ hrun
  -- what comes after them does not look at the sections but for the first
  obtain ⟨rfl, hplaced⟩ := layoutShdr_ok hshdr
  have hshdr₂ := @ShdrPlaced.layoutShdr ((e₂.setPhdr ps).setScn scns₂) ec _ (ec.get h.eShoff) (ec.get h.eShoff) _ _ _ _ _
    _ hplaced rfl fun _ => rfl
  have hhead : pnXnum ≤ e₂.eNphdr ∨ shnLoreserve ≤ e₂.eNscn → ∀ s, scns₂.head? = some s → s.sNdx = 0 := by
    intro hbig
    have hfirst := (resyncSections_ok hrun).head_ndx.mp (setcounts_head hpn hsn hbig)
    exact (resyncSections_ok hrun₂).head_ndx.mpr (AsRead.head_ndx hcmd hrel hfirst)
  obtain ⟨e₁₀, hpn₂, hsn₂⟩ := @setcounts_eq ((e₂.setPhdr ps).setScn scns₂) ec e₂.eNphdr e₂.eNscn h hh₂ hhead
  have hrc : rc₃ = n ∧ exs₃ = exs := by
    injection hend with hpair
    exact Prod.mk.inj hpair
  obtain ⟨rfl, rfl⟩ := hrc
  unfold resyncElf
  rw [hcached, bind_ok, hprep₂, bind_ok]
  dsimp only
  rw [show layoutPhdr env ec (ec.get h.ePhoff) (fsize .ehdr ec) (e₂.setScn l).eNphdr [⟨0, fsize .ehdr ec, .ehdr, 0⟩]
    (e₂.setScn l) = _ from hphdr₂, bind_ok]
  dsimp only
  rw [hshdrs _ (by exact hloaded), bind_ok, resyncSections_setScn, Elf.setScn_eScn, hrun₂, within_ok, bind_ok]
  dsimp only
  rw [if_neg hneg, show layoutShdr ec (ec.get h.eShoff) rc₂ (e₂.setScn l).eNscn exs₂
    (((e₂.setPhdr ps).setScn l).setScn scns₂) = _ from hshdr₂, bind_ok]
  dsimp only
  rw [show setphnum (e₂.setScn l).eNphdr ((e₂.setPhdr ps).setScn scns₂) = _ from hpn₂, bind_ok]
  rw [show setshnum ec (e₂.setScn l).eNscn e₁₀ = _ from hsn₂, bind_ok]
  exact ⟨_, rfl⟩

theorem HeadersLoaded.readIn_eScn (hl : HeadersLoaded ec e) {h : Ehdr} (hx : readIn env ec e = .ok h e') :
    e'.eScn = e.eScn := by
  obtain ⟨h₀, hh₀⟩ := Option.ne_none_iff_exists'.mp hl.ehdr
  unfold readIn at hx
  rw [libelfEhdr_cached hl.eClass hl.eVersion hh₀, bind_ok] at hx
  obtain ⟨h₁, e₂, hprep, hx⟩ := bind_eq_ok.mp hx
  obtain ⟨-, -, -, rfl⟩ := prepareEhdr_ok hprep
  obtain ⟨_, e₃, hphdr, hx⟩ := bind_eq_ok.mp hx
  obtain ⟨_, e₄, hneed, hx⟩ := bind_eq_ok.mp hx
  cases hx
  obtain ⟨ps, rfl⟩ := readPhdr_ok (by exact hl.eClass) (by exact hl.eVersion) (by rfl) hphdr
  unfold needSectionHeaders at hneed
  split at hneed
  · next hor => exact absurd (hl.shdrs.symm.trans (show e.eFlags.shdrsLoaded = false from hor.2)) Bool.noConfusion
  · cases hneed
    rfl

theorem HeadersLoaded.currentVersion (hl : HeadersLoaded ec e) : currentVersion e = e :=
  if_neg (by rw [hl.eVersion]; nofun)

/-- Some sections of an object are read. It is still laid out, with the same size, if and only if the rules for
descriptors accept the header of every section that was read and had no descriptors. -/
theorem read_layout_iff {n : Nat} {is : List Nat} (hl : HeadersLoaded ec e) (h : elfUpdate env .null e = .ok n e')
    (hread : DataRead env e is e₂) : (∃ e₂', elfUpdate env .null e₂ = .ok n e₂') ↔
      ∀ i ∈ is, ∀ s, e.eScn[i]? = some s → s.sData = [] → s.sDirty = false → s.isSkipped = false →
        Accepts e ec s.shdr := by
  have hcmd : e.eCmd ≠ .write := by
    rw [hl.cmd]
    nofun
  obtain ⟨heq, hlen, hspec⟩ := hread.spec hl.eClass
  have hl₂ : HeadersLoaded ec e₂ := by
    rw [heq]
    exact ⟨hl.cmd, hl.eClass, hl.eVersion, hl.ehdr, hl.shdrs⟩
  constructor
  · rintro ⟨e₂', h₂⟩ i hi s hs hdata hclean hkeep
    obtain ⟨exs₂, hx₂, -⟩ := elfUpdate_null_ok hl₂.eClass h₂
    rw [hl₂.currentVersion] at hx₂
    obtain ⟨r⟩ := resyncElf_ok hx₂
    obtain ⟨-, -, -, hsame, -⟩ := readIn_ok r.read
    obtain ⟨t, ht, hrel⟩ := hspec i s hs
    rw [if_pos hi] at hrel
    obtain ⟨d, hg⟩ := hrel
    obtain ⟨rfl, hd⟩ := getdata_readFrom hcmd hg hdata
    rw [← hl₂.readIn_eScn r.read] at ht
    have hd' : ReadFrom r.start ec s.shdr d := by
      refine ⟨hd.fresh, hd.type, hd.version.trans ?_, hd.size⟩
      rw [hsame.version, heq]
      rfl
    have hlay : r.start.eFlags.layout = e.eFlags.layout := by
      rw [hsame.layout, heq]
      rfl
    obtain ⟨u, -, ⟨hskip, -⟩ | ⟨-, hlaid⟩⟩ := r.sections.spec.2.2 i _ ht
    · exact absurd (hskip.symm.trans hkeep) Bool.noConfusion
    · obtain ⟨hpow, hal, hfits, hnat⟩ := LaidOut.accepts hd' hlaid
      rw [hlay] at hal hfits hnat
      exact ⟨hpow, hal, hfits, hnat⟩
  · intro hacc
    obtain ⟨exs, hx, hn⟩ := elfUpdate_null_ok hl.eClass h
    rw [hl.currentVersion] at hx
    have hrel : List.Forall₂ (fun s t => AsRead env e ec s t ∧ ReadAccepted e ec s t) e.eScn e₂.eScn := by
      refine List.forall₂_iff_get.mpr ⟨hlen.symm, fun i hi hi₂ => ?_⟩
      obtain ⟨t, ht, hst⟩ := hspec i _ (List.getElem?_eq_getElem hi)
      have hget : e₂.eScn.get ⟨i, hi₂⟩ = t := Option.some.inj ((List.getElem?_eq_getElem hi₂).symm.trans ht)
      rw [hget]
      split at hst
      · next hmem => exact ⟨.inr hst, fun hnil _ hclean hkeep => hacc i hmem _ (List.getElem?_eq_getElem hi) hnil hclean hkeep⟩
      · rw [hst]
        exact ⟨.inl rfl, fun hnil hne => absurd hnil hne⟩
    obtain ⟨e₂', hx₂⟩ := resyncElf_read hl hx hrel
    rw [← heq] at hx₂
    exact ⟨e₂', elfUpdate_null_eq hl₂.eClass hl₂.eVersion hn hx₂⟩

end Object

/-! ## A section without an alignment -/

set_option maxRecDepth 2000 in
/-- A section aligned to four bytes is read, and the object keeps its layout. -/
theorem bytesImage_writable : ∃ e₀ e e' e₂ e₂' n d, openObject plainEnv .rdwr (bytesImage 4) = .ok (some e₀) ∧
    elfGetscn plainEnv 1 e₀ = .ok 1 e ∧ elfUpdate plainEnv .null e = .ok n e' ∧
    elfGetdata plainEnv 1 e = .ok d e₂ ∧ elfUpdate plainEnv .null e₂ = .ok n e₂' := by
  have hopen : ∃ e₀ e s, openObject plainEnv .rdwr (bytesImage 4) = .ok (some e₀) ∧
      elfGetscn plainEnv 1 e₀ = .ok 1 e ∧ e.eCmd = .rdwr ∧ e.eClass = some .elfclass32 ∧ e.eVersion = evCurrent ∧ e.eEhdr.isSome = true ∧
      e.eFlags.shdrsLoaded = true ∧ e.eFlags.layout = false ∧
      e.eScn[1]? = some s ∧ s.shdr.shAddralign = 4 ∧
      (elfGetdata plainEnv 1 e).returns (fun _ _ => true) = true ∧
      (elfUpdate plainEnv .null e).returns (fun _ _ => true) = true :=
    ⟨_, _, _, rfl, rfl, rfl, rfl, rfl, rfl, rfl, rfl, rfl, rfl, rfl, by decide +kernel⟩
  obtain ⟨e₀, e, s, he₀, he, hcmd, hc, hv, hh, hshdrs, hlay, hs, halign, hget, hupd⟩ := hopen
  have hl : HeadersLoaded .elfclass32 e := by
    refine ⟨hcmd, hc, hv, fun hnone => ?_, hshdrs⟩
    rw [hnone] at hh
    cases hh
  obtain ⟨d, e₂, hget, -⟩ := exists_of_returns hget
  obtain ⟨n, e', hupd, -⟩ := exists_of_returns hupd
  have hacc : ∀ i ∈ [1], ∀ t, e.eScn[i]? = some t → t.sData = [] → t.sDirty = false → t.isSkipped = false →
      Accepts e .elfclass32 t.shdr := by
    intro i hi t ht _ _ _
    cases List.mem_singleton.mp hi
    cases hs.symm.trans ht
    rw [← Bool.not_eq_true] at hlay
    exact ⟨by rw [halign]; decide, fun h => absurd h hlay, fun h => absurd h hlay, fun h => absurd h hlay⟩
  obtain ⟨e₂', h₂⟩ := (read_layout_iff hl hupd (.read .nil hget)).mpr hacc
  exact ⟨e₀, e, e', e₂, e₂', n, d, he₀, he, hupd, hget, h₂⟩

set_option maxRecDepth 2000 in
/-- A section without an alignment is laid out until it is read. -/
theorem bytesImage_unwritable : ∃ e₀ e e' e₂ e₂' n d, openObject plainEnv .rdwr (bytesImage 0) = .ok (some e₀) ∧
    elfGetscn plainEnv 1 e₀ = .ok 1 e ∧ elfUpdate plainEnv .null e = .ok n e' ∧
    elfGetdata plainEnv 1 e = .ok d e₂ ∧ elfUpdate plainEnv .null e₂ = .err .DATA e₂' := by
  have hopen : ∃ e₀ e, openObject plainEnv .rdwr (bytesImage 0) = .ok (some e₀) ∧
      elfGetscn plainEnv 1 e₀ = .ok 1 e ∧ (elfUpdate plainEnv .null e).returns (fun _ _ => true) = true ∧
      (elfGetdata plainEnv 1 e).returns (fun _ e₂ =>
        (elfUpdate plainEnv .null e₂).fails fun x _ => decide (x = .DATA)) = true :=
    ⟨_, _, rfl, rfl, by decide +kernel, by decide +kernel⟩
  obtain ⟨e₀, e, he₀, he, hupd, hget⟩ := hopen
  obtain ⟨n, e', hupd, -⟩ := exists_of_returns hupd
  obtain ⟨d, e₂, hget, hfails⟩ := exists_of_returns hget
  obtain ⟨x, e₂', h₂, hx⟩ := exists_of_fails hfails
  cases of_decide_eq_true hx
  exact ⟨e₀, e, e', e₂, e₂', n, d, he₀, he, hupd, hget, h₂⟩

end LibElf.Toolchain
