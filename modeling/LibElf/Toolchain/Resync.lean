import LibElf.Toolchain.HeaderFacts
import LibElf.Toolchain.SectionLayout

/-!
# The layout of an object

What `_libelf_resync_elf` does when it succeeds: it reads in what it needs, places the program header
table, the sections and the section header table one after the other, and stores the counts.

1. `insertExtent_perm` and `insertExtent_sorted`, the list of extents.
2. `Resynced`, the run of the loop over the sections, and `resyncSections_ok`.
3. `readIn`, the part that reads, and `resyncElf_ok`, the parts put together.
-/

namespace LibElf.Toolchain

open Outcome

/-! ## Extents -/

/-- The end of an extent, when it does not wrap. -/
def Extent.stop (ex : Extent) : Nat := ex.exStart + ex.exSize

/-- The extents lie one after the other. -/
def Sorted (exs : List Extent) : Prop := exs.Pairwise fun a b => a.stop ≤ b.exStart

/-- No extent ends beyond `bound`. -/
def EndBy (bound : Nat) (exs : List Extent) : Prop := ∀ ex ∈ exs, ex.stop ≤ bound

theorem Extent.tmax_eq {ex : Extent} (h : ex.stop < 2 ^ 64) : ex.tmax = ex.stop := wrap_of_lt h

theorem insertExtent_perm {ex : Extent} {l l' : List Extent} (h : insertExtent ex l = some l') :
    l'.Perm (ex :: l) := by
  induction l generalizing l' with
  | nil =>
    cases h
    exact List.Perm.refl _
  | cons t ts ih =>
    unfold insertExtent at h
    split at h
    · obtain ⟨ts', hts, rfl⟩ := Option.map_eq_some_iff.mp h
      exact ((ih hts).cons t).trans (List.Perm.swap ex t ts)
    · split at h
      · cases h
        exact List.Perm.refl _
      · cases h

theorem mem_insertExtent {ex x : Extent} {l l' : List Extent} (h : insertExtent ex l = some l') :
    x ∈ l' ↔ x = ex ∨ x ∈ l := by
  rw [(insertExtent_perm h).mem_iff, List.mem_cons]

/-- A list of extents whose ends do not wrap stays sorted. -/
theorem insertExtent_sorted {ex : Extent} {l l' : List Extent} (h : insertExtent ex l = some l')
    (hs : Sorted l) (hl : ∀ x ∈ l, x.stop < 2 ^ 64) (hex : ex.stop < 2 ^ 64) : Sorted l' := by
  induction l generalizing l' with
  | nil =>
    cases h
    exact List.pairwise_singleton _ _
  | cons t ts ih =>
    obtain ⟨hhead, htail⟩ := List.pairwise_cons.mp hs
    have ht : t.tmax = t.stop := Extent.tmax_eq (hl t List.mem_cons_self)
    have hx : ex.tmax = ex.stop := Extent.tmax_eq hex
    unfold insertExtent at h
    rw [ht, hx] at h
    split at h
    · next hbefore =>
      obtain ⟨ts', hts, rfl⟩ := Option.map_eq_some_iff.mp h
      refine List.pairwise_cons.mpr ⟨fun y hy => ?_, ih hts htail fun x hmem => hl x (.tail _ hmem)⟩
      rcases (mem_insertExtent hts).mp hy with rfl | hy
      · exact hbefore
      · exact hhead y hy
    · split at h
      · next hafter =>
        cases h
        refine List.pairwise_cons.mpr ⟨fun y hy => ?_, hs⟩
        rcases List.mem_cons.mp hy with rfl | hy
        · exact hafter
        · have h1 : t.stop ≤ y.exStart := hhead y hy
          have h2 : t.exStart ≤ t.stop := Nat.le_add_right _ _
          omega
      · cases h

/-! ## The loop over the sections -/

section Sections

variable (env : Env) (e : Elf) (ec : ElfClass)

/-- A run of the loop of `_libelf_resync_sections` from section `ndx`, the end `rc` and the given
extents: the last end, the extents and the sections it leaves. -/
inductive Resynced : Nat → Nat → List Extent → List Scn → Nat → List Extent → List Scn → Prop
  | nil (ndx rc : Nat) (exs : List Extent) : Resynced ndx rc exs [] rc exs []
  | skip {ndx rc rc' : Nat} {exs exs' : List Extent} {s : Scn} {ss ss' : List Scn}
      (hskip : s.isSkipped = true) (rest : Resynced (ndx + 1) rc exs ss rc' exs' ss') :
      Resynced ndx rc exs (s :: ss) rc' exs' (s :: ss')
  | empty {ndx rc rc' : Nat} {exs exs' : List Extent} {s t : Scn} {ss ss' : List Scn}
      (hkeep : s.isSkipped = false) (hlaid : LaidOut env e ec rc s t) (hsize : t.sSize = 0)
      (rest : Resynced (ndx + 1) rc exs ss rc' exs' ss') :
      Resynced ndx rc exs (s :: ss) rc' exs' (t :: ss')
  | put {ndx rc rc' : Nat} {exs exs₁ exs' : List Extent} {s t : Scn} {ss ss' : List Scn}
      (hkeep : s.isSkipped = false) (hlaid : LaidOut env e ec rc s t) (hsize : t.sSize ≠ 0)
      (hins : insertExtent ⟨t.sOffset, t.sSize, .scn, ndx⟩ exs = some exs₁)
      (rest : Resynced (ndx + 1) (max rc (wrap (t.sOffset + t.sSize))) exs₁ ss rc' exs' ss') :
      Resynced ndx rc exs (s :: ss) rc' exs' (t :: ss')

variable {env e ec}

theorem resyncSections_ok {ss : List Scn} : ∀ {ndx rc : Nat} {exs : List Extent} {rc' : Nat}
    {exs' : List Extent} {ss' : List Scn},
    resyncSections env e ec ndx rc exs ss = .ok (rc', exs') ss' →
    Resynced env e ec ndx rc exs ss rc' exs' ss' := by
  induction ss with
  | nil =>
    intro ndx rc exs rc' exs' ss' h
    cases h
    exact .nil _ _ _
  | cons s ss ih =>
    intro ndx rc exs rc' exs' ss' h
    unfold resyncSections at h
    split at h
    · next hskip =>
      obtain ⟨l, hrest, rfl⟩ := within_eq_ok.mp h
      exact .skip hskip (ih hrest)
    · next hskip =>
      have hkeep : s.isSkipped = false := by simpa using hskip
      split at h
      · cases h
      · cases h
      · next t hext =>
        have hlaid := computeSectionExtents_ok hext
        split at h
        · next hsize =>
          obtain ⟨l, hrest, rfl⟩ := within_eq_ok.mp h
          exact .empty hkeep hlaid hsize (ih hrest)
        · next hsize =>
          split at h
          · cases h
          · next exs₁ hins =>
            obtain ⟨l, hrest, rfl⟩ := within_eq_ok.mp h
            have hmax : (if rc < wrap (t.sOffset + t.sSize) then wrap (t.sOffset + t.sSize) else rc) =
                max rc (wrap (t.sOffset + t.sSize)) := by
              split <;> omega
            rw [hmax] at hrest
            exact .put hkeep hlaid hsize hins (ih hrest)

end Sections

/-! ## The whole object -/

section Object

variable (env : Env) (ec : ElfClass)

/-- What the layout reads in before it places anything: the headers and the section headers. -/
def readIn (e : Elf) : Call Ehdr :=
  (libelfEhdr env ec false e).bind fun h e =>
  (prepareEhdr ec h e).bind fun h e =>
  (if e.eNphdr = 0 then .ok () e else (getphdr env ec e).ignore).bind fun _ e =>
  (needSectionHeaders env ec h e).bind fun _ e => .ok h e

def ehdrExtent : Extent := ⟨0, fsize .ehdr ec, .ehdr, 0⟩

/-- Where the program header table goes: its offset, the end of the headers, and their extents. -/
inductive PhdrPlaced (layout : Bool) (phoff p : Nat) : Nat → Nat → List Extent → Prop
  | absent (hp : p = 0) : PhdrPlaced layout phoff p 0 (fsize .ehdr ec) [ehdrExtent ec]
  | present {off : Nat} {exs : List Extent} (hp : p ≠ 0)
      (hoff : off = if layout then phoff else roundUp (fsize .ehdr ec) (falign (some .phdr) ec))
      (hlay : layout = true → fsize .ehdr ec ≤ phoff ∧ falign (some .phdr) ec ∣ phoff)
      (hins : insertExtent ⟨off, libelfFsize .phdr ec p, .phdr, 0⟩ [ehdrExtent ec] = some exs) :
      PhdrPlaced layout phoff p off (wrap (off + libelfFsize .phdr ec p)) exs

/-- Where the section header table goes, after the end `rc` and the given extents. -/
inductive ShdrPlaced (layout : Bool) (shoff n rc : Nat) (exs : List Extent) :
    Nat → Nat → List Extent → Prop
  | absent (hn : n = 0) : ShdrPlaced layout shoff n rc exs 0 rc exs
  | present {off : Nat} {exs' : List Extent} (hn : n ≠ 0)
      (hoff : off = if layout then shoff else roundUpSigned rc (falign (some .shdr) ec))
      (hlay : layout = true → falign (some .shdr) ec ∣ shoff)
      (hins : insertExtent ⟨off, libelfFsize .shdr ec n, .shdr, 0⟩ exs = some exs') :
      ShdrPlaced layout shoff n rc exs off
        (if sgt (wrap (off + libelfFsize .shdr ec n)) rc then wrap (off + libelfFsize .shdr ec n)
          else rc) exs'

/-- The list of sections after a store in section header 0. -/
def putScn0 (upd : Shdr → Shdr) : List Scn → List Scn
  | [] => [{ allocateScn 0 with shdr := upd Shdr.zero, sDirty := true }]
  | s :: ss => { s with shdr := upd s.shdr, sDirty := true } :: ss

/-- The list of sections once the counts are stored. -/
def numberScns (p n : Nat) (ss : List Scn) : List Scn :=
  let ss := if pnXnum ≤ p then putScn0 (fun s => { s with shInfo := UInt32.ofNat p }) ss else ss
  if shnLoreserve ≤ n then putScn0 (fun s => { s with shSize := ec.put n }) ss else ss

def numberEhdr (p n : Nat) (h : Ehdr) : Ehdr :=
  { h with
    ePhnum := UInt16.ofNat (if pnXnum ≤ p then pnXnum else p)
    eShnum := if shnLoreserve ≤ n then 0 else UInt16.ofNat n }

/-- The executable header once the two tables are placed. -/
def placeEhdr (layout : Bool) (phoff shoff : Nat) (h : Ehdr) : Ehdr :=
  if layout then h else { h with ePhoff := ec.put phoff, eShoff := ec.put shoff }

/-- A successful run of `_libelf_resync_elf`, step by step. -/
structure LayoutRun (e : Elf) (rc : Nat) (exs : List Extent) (e' : Elf) where
  ehdr : Ehdr
  start : Elf
  read : readIn env ec e = .ok ehdr start
  phoff : Nat
  rc₁ : Nat
  exs₁ : List Extent
  phdr : PhdrPlaced ec start.eFlags.layout (ec.get ehdr.ePhoff) start.eNphdr phoff rc₁ exs₁
  rc₂ : Nat
  exs₂ : List Extent
  scns : List Scn
  sections : Resynced env start ec 0 rc₁ exs₁ start.eScn rc₂ exs₂ scns
  nonneg : rc₂ < 2 ^ 63
  shoff : Nat
  shdr : ShdrPlaced ec start.eFlags.layout (ec.get ehdr.eShoff) start.eNscn rc₂ exs₂ shoff rc exs
  final : e' = (start.setScn (numberScns ec start.eNphdr start.eNscn scns)).setEhdr
    (placeEhdr ec start.eFlags.layout phoff shoff (numberEhdr start.eNphdr start.eNscn ehdr))

variable {env ec} {e e' : Elf}

/-! ### The parts -/

theorem prepareEhdr_ok {h h' : Ehdr} (hx : prepareEhdr ec h e = .ok h' e') :
    ec.get h.ePhoff < 2 ^ 63 ∧ ec.get h.eShoff < 2 ^ 63 ∧
      h' = initializeEhdr ec e.eNphdr h ∧ e' = ((e.setByteorder (getElem h.eIdent 5 eiData_lt)).setEhdr h').setFlags
        { e.eFlags with dirty := true } := by
  unfold prepareEhdr at hx
  generalize (if h.eVersion.toNat = 0 then evCurrent else h.eVersion.toNat) = version at hx
  dsimp only at hx
  split at hx
  · cases hx
  next hneg =>
  split at hx
  · cases hx
  split at hx
  · cases hx
  split at hx
  · cases hx
  cases hx
  simp only [isNeg_eq_true, not_or, Nat.not_le] at hneg
  exact ⟨hneg.1, hneg.2, rfl, rfl⟩

theorem needSectionHeaders_ok {h : Ehdr} (hx : needSectionHeaders env ec h e = .ok () e') :
    ∃ l f, e' = (e.setScn l).setFlags f ∧ f.layout = e.eFlags.layout ∧ f.dirty = e.eFlags.dirty ∧
      f.rawfileOwned = e.eFlags.rawfileOwned := by
  have hloop : ∀ (n src ndx : Nat) (e e' : Elf), loadLoop env ec n src ndx e = .ok () e' →
      ∃ l, e' = e.setScn l := by
    intro n
    induction n with
    | zero =>
      intro src ndx e e' h
      cases h
      exact ⟨e.eScn, rfl⟩
    | succ n ih =>
      intro src ndx e e' h
      obtain ⟨bs, e₁, hread, hrest⟩ := bind_eq_ok.mp h
      obtain ⟨_, _, rfl⟩ := readAt_eq_ok.mp hread
      obtain ⟨l, rfl⟩ := ih _ _ _ _ hrest
      exact ⟨l, rfl⟩
  unfold needSectionHeaders at hx
  split at hx
  · unfold loadSectionHeaders at hx
    split at hx
    · cases hx
    dsimp only at hx
    split at hx
    · cases hx
    obtain ⟨_, e₁, hload, hrest⟩ := bind_eq_ok.mp hx
    cases hrest
    split at hload
    · obtain ⟨l, rfl⟩ := hloop _ _ _ _ _ hload
      exact ⟨l, _, rfl, rfl, rfl, rfl⟩
    · obtain ⟨l, rfl⟩ := hloop _ _ _ _ _ hload
      exact ⟨l, _, rfl, rfl, rfl, rfl⟩
    · cases hload
  · cases hx
    exact ⟨e.eScn, e.eFlags, rfl, rfl, rfl, rfl⟩

/-- Reading the program header table, for a table that is not empty, brings in nothing else. -/
theorem readPhdr_ok {h : Ehdr} (hc : e.eClass = some ec) (hv : e.eVersion = evCurrent)
    (hh : e.eEhdr = some h)
    (hx : (if e.eNphdr = 0 then .ok () e else (getphdr env ec e).ignore) = .ok () e') :
    ∃ ps, e' = e.setPhdr ps := by
  split at hx
  · cases hx
    exact ⟨e.ePhdr, rfl⟩
  · have hframe := @getphdr_frame env _ _ hc hv _ hh
    cases hget : getphdr env ec e with
    | ok ps t =>
      rw [hget] at hx hframe
      cases hx
      exact ⟨_, hframe.1⟩
    | err err t =>
      rw [hget] at hx hframe
      cases hx
      exact ⟨e.ePhdr, hframe⟩
    | stop t =>
      rw [hget] at hx
      cases hx

/-- The state in which the sections are laid out. -/
theorem readIn_ok {h : Ehdr} (hx : readIn env ec e = .ok h e') :
    e'.eClass = some ec ∧ e'.eVersion = evCurrent ∧ e'.eEhdr = some h ∧ SameFile e e' ∧
      ec.get h.ePhoff < 2 ^ 63 ∧ ec.get h.eShoff < 2 ^ 63 := by
  obtain ⟨h₀, e₁, hehdr, hx⟩ := bind_eq_ok.mp hx
  obtain ⟨hc, hv, hh, hsame⟩ := libelfEhdr_ok hehdr
  obtain ⟨h₁, e₂, hprep, hx⟩ := bind_eq_ok.mp hx
  obtain ⟨hph, hsh, rfl, rfl⟩ := prepareEhdr_ok hprep
  obtain ⟨_, e₃, hphdr, hx⟩ := bind_eq_ok.mp hx
  obtain ⟨_, e₄, hscn, hx⟩ := bind_eq_ok.mp hx
  cases hx
  obtain ⟨l, f, rfl, hlay, hdirty, hown⟩ := needSectionHeaders_ok hscn
  obtain ⟨ps, rfl⟩ := readPhdr_ok (by exact hc) (by exact hv) (by rfl) hphdr
  exact ⟨hc, hv, rfl, ⟨hsame.cmd, hsame.fd, hsame.rawfile, hsame.version, hlay.trans hsame.layout,
    hown.trans hsame.owned⟩, hph, hsh⟩

theorem layoutPhdr_ok {phoff : Nat} {r : Nat × Nat × List Extent}
    (hx : layoutPhdr env ec phoff (fsize .ehdr ec) e.eNphdr [ehdrExtent ec] e = .ok r e') :
    (if e.eNphdr = 0 then .ok () e else (getphdr env ec e).ignore) = .ok () e' ∧
      PhdrPlaced ec e.eFlags.layout phoff e.eNphdr r.1 r.2.1 r.2.2 := by
  unfold layoutPhdr at hx
  split at hx
  · next hp =>
    cases hx
    exact ⟨if_pos hp, .absent hp⟩
  · next hp =>
    dsimp only at hx
    split at hx
    · cases hx
    next hlay =>
    obtain ⟨_, e₁, hget, hx⟩ := bind_eq_ok.mp hx
    split at hx
    · cases hx
    next exs hins =>
    cases hx
    refine ⟨by rw [if_neg hp]; exact hget, .present hp rfl (fun h => ?_) hins⟩
    rw [not_and, not_or] at hlay
    exact ⟨Nat.le_of_not_lt (hlay h).1, Nat.dvd_of_mod_eq_zero (Decidable.not_not.mp (hlay h).2)⟩

theorem layoutShdr_ok {shoff rc : Nat} {exs : List Extent} {r : Nat × Nat × List Extent} {n : Nat}
    (hx : layoutShdr ec shoff rc n exs e = .ok r e') :
    e' = e ∧ ShdrPlaced ec e.eFlags.layout shoff n rc exs r.1 r.2.1 r.2.2 := by
  unfold layoutShdr at hx
  split at hx
  · next hn =>
    cases hx
    exact ⟨rfl, .absent hn⟩
  · next hn =>
    dsimp only at hx
    split at hx
    · cases hx
    next hlay =>
    split at hx
    · cases hx
    next exs' hins =>
    cases hx
    refine ⟨rfl, .present hn rfl (fun h => ?_) hins⟩
    rw [not_and] at hlay
    exact Nat.dvd_of_mod_eq_zero (Decidable.not_not.mp (hlay h))

theorem setScn0_ok {upd : Shdr → Shdr} (hx : setScn0 upd e = .ok () e') :
    e' = e.setScn (putScn0 upd e.eScn) := by
  unfold setScn0 getscn0 at hx
  cases hscn : e.eScn with
  | nil =>
    simp only [hscn] at hx
    cases hx
    rfl
  | cons s ss =>
    simp only [hscn] at hx
    split at hx
    · cases hx
    · cases hx
      rfl

/-- A section header that a value was stored in is that of section 0. -/
theorem setScn0_ndx {upd : Shdr → Shdr} (hx : setScn0 upd e = .ok () e') :
    ∀ s, e'.eScn.head? = some s → s.sNdx = 0 := by
  unfold setScn0 getscn0 at hx
  intro s hs
  cases hscn : e.eScn with
  | nil =>
    simp only [hscn] at hx
    cases hx
    cases hs
    rfl
  | cons t ts =>
    simp only [hscn] at hx
    split at hx
    · cases hx
    · next hndx =>
      cases hx
      cases hs
      exact Decidable.not_not.mp hndx

theorem setphnum_ok {p : Nat} {h : Ehdr} (hh : e.eEhdr = some h) (hx : setphnum p e = .ok () e') :
    e' = (e.setScn (if pnXnum ≤ p then putScn0 (fun s => { s with shInfo := UInt32.ofNat p }) e.eScn
      else e.eScn)).setEhdr { h with ePhnum := UInt16.ofNat (if pnXnum ≤ p then pnXnum else p) } := by
  unfold setphnum at hx
  split at hx
  · next hle =>
    obtain ⟨_, e₁, hput, hx⟩ := bind_eq_ok.mp hx
    cases hx
    rw [setScn0_ok hput, if_pos hle, if_pos hle, updEhdr, Elf.setScn_eEhdr, hh]
  · next hlt =>
    cases hx
    rw [if_neg hlt, if_neg hlt, updEhdr, hh]
    rfl

theorem setshnum_ok {n : Nat} {h : Ehdr} (hh : e.eEhdr = some h) (hx : setshnum ec n e = .ok () e') :
    e' = (e.setScn (if shnLoreserve ≤ n then putScn0 (fun s => { s with shSize := ec.put n }) e.eScn
      else e.eScn)).setEhdr { h with eShnum := if shnLoreserve ≤ n then 0 else UInt16.ofNat n } := by
  unfold setshnum at hx
  split at hx
  · next hle =>
    obtain ⟨_, e₁, hput, hx⟩ := bind_eq_ok.mp hx
    cases hx
    rw [setScn0_ok hput, if_pos hle, if_pos hle, updEhdr, Elf.setScn_eEhdr, hh]
  · next hlt =>
    cases hx
    rw [if_neg hlt, if_neg hlt, updEhdr, hh]
    rfl

/-- The counts are stored in section 0 and nowhere else. -/
theorem setcounts_ndx {p n : Nat} {e₁ : Elf} (hpn : setphnum p e = .ok () e₁) (hsn : setshnum ec n e₁ = .ok () e')
    (hbig : pnXnum ≤ p ∨ shnLoreserve ≤ n) : ∀ s, e'.eScn.head? = some s → s.sNdx = 0 := by
  have hupd : ∀ (e : Elf) (upd : Ehdr → Ehdr), (updEhdr upd e).eScn = e.eScn := by
    intro e upd
    unfold updEhdr
    split <;> rfl
  have hphdr : pnXnum ≤ p → ∀ s, e₁.eScn.head? = some s → s.sNdx = 0 := by
    intro hle
    rw [setphnum, if_pos hle] at hpn
    obtain ⟨_, e₀, hput, hx⟩ := bind_eq_ok.mp hpn
    cases hx
    rw [hupd]
    exact setScn0_ndx hput
  unfold setshnum at hsn
  split at hsn
  · obtain ⟨_, e₂, hput, hx⟩ := bind_eq_ok.mp hsn
    cases hx
    rw [hupd]
    exact setScn0_ndx hput
  · next hlt =>
    cases hsn
    rw [hupd]
    exact hphdr (hbig.resolve_right hlt)

/-- A layout that succeeds is a run of its parts, and stores counts in section 0 only. -/
theorem resyncElf_counted {rc : Nat} {exs : List Extent} (hx : resyncElf env ec e = .ok (rc, exs) e') :
    ∃ r : LayoutRun env ec e rc exs e', pnXnum ≤ r.start.eNphdr ∨ shnLoreserve ≤ r.start.eNscn →
      ∀ s, e'.eScn.head? = some s → s.sNdx = 0 := by
  obtain ⟨h₀, e₁, hehdr, hx⟩ := bind_eq_ok.mp hx
  obtain ⟨h, e₂, hprep, hx⟩ := bind_eq_ok.mp hx
  dsimp only at hx
  obtain ⟨⟨phoff, rc₁, exs₁⟩, e₃, hphdr, hx⟩ := bind_eq_ok.mp hx
  obtain ⟨_, start, hneed, hx⟩ := bind_eq_ok.mp hx
  obtain ⟨⟨rc₂, exs₂⟩, e₅, hsecs, hx⟩ := bind_eq_ok.mp hx
  obtain ⟨scns, hrun, rfl⟩ := within_eq_ok.mp hsecs
  split at hx
  · cases hx
  next hneg =>
  obtain ⟨⟨shoff, rc₃, exs₃⟩, e₆, hshdr, hx⟩ := bind_eq_ok.mp hx
  obtain ⟨_, e₇, hpn, hx⟩ := bind_eq_ok.mp hx
  obtain ⟨_, e₈, hsn, hend⟩ := bind_eq_ok.mp hx
  obtain ⟨hget, hpplaced⟩ := layoutPhdr_ok hphdr
  obtain ⟨rfl, hsplaced⟩ := layoutShdr_ok hshdr
  obtain ⟨hc, hv, _, _⟩ := libelfEhdr_ok hehdr
  have hread : readIn env ec e = .ok h start := by
    unfold readIn
    rw [hehdr, bind_ok, hprep, bind_ok, hget, bind_ok, hneed, bind_ok]
  have hkeep : start.eNphdr = e₂.eNphdr ∧ start.eNscn = e₂.eNscn ∧
      start.eFlags.layout = e₂.eFlags.layout := by
    obtain ⟨_, _, rfl, rfl⟩ := prepareEhdr_ok hprep
    obtain ⟨ps, rfl⟩ := readPhdr_ok (by exact hc) (by exact hv) (by rfl) hget
    obtain ⟨l, f, rfl, hlay, _⟩ := needSectionHeaders_ok hneed
    exact ⟨rfl, rfl, hlay⟩
  obtain ⟨hp, hn, hlay⟩ := hkeep
  obtain ⟨_, _, hh, _⟩ := readIn_ok hread
  rw [← hp, ← hlay] at hpplaced
  rw [← hp] at hpn
  rw [← hn] at hsn hsplaced
  have h₇ := setphnum_ok (by exact hh) hpn
  have h₈ := setshnum_ok (by rw [h₇]; rfl) hsn
  cases hend
  refine ⟨⟨h, start, hread, phoff, rc₁, exs₁, hpplaced, rc₂, exs₂, scns, resyncSections_ok hrun,
    by simpa using hneg, shoff, hsplaced, ?_⟩, fun hbig s hs => setcounts_ndx hpn hsn hbig s ?_⟩
  · have hlay₈ : e₈.eFlags.layout = start.eFlags.layout := by
      rw [h₈, h₇]
      rfl
    rw [hlay₈, h₈, h₇]
    unfold placeEhdr
    cases start.eFlags.layout with
    | true => rfl
    | false => rfl
  · rw [← hs]
    split
    · rfl
    · unfold updEhdr
      split <;> rfl

/-- A layout that succeeds is a run of its parts. -/
theorem resyncElf_ok {rc : Nat} {exs : List Extent} (hx : resyncElf env ec e = .ok (rc, exs) e') :
    Nonempty (LayoutRun env ec e rc exs e') :=
  let ⟨r, _⟩ := resyncElf_counted hx
  ⟨r⟩

end Object

end LibElf.Toolchain
