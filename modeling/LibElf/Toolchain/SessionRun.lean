import LibElf.Toolchain.Session

/-!
# The invariant in every run

What the layout and the writers keep of a descriptor, and from it what a whole run keeps.

1. `KeepsScn` and `wf_resyncElf`, the layout.
2. `Unchanged`, what the writers leave alone.
3. `wf_step` and `wf_run`: the invariant holds in every state of every run.
-/

namespace LibElf.Toolchain

open Outcome

-- the sizes are sums over member lists, which must not be evaluated
attribute [local irreducible] fsize msize

/-! ## The layout -/

section Layout

variable {env : Env} {ec : ElfClass} {e : Elf}

/-- The section `t` is the section `s` with another place and other contents. -/
def KeepsScn (s t : Scn) : Prop := t.sNdx = s.sNdx ∧ t.sRawdata = s.sRawdata

theorem KeepsScn.refl (s : Scn) : KeepsScn s s := ⟨rfl, rfl⟩

theorem KeepsScn.rawOk {file : Option Image} {s t : Scn} (h : KeepsScn s t) (hr : RawOk file s) : RawOk file t := by
  rwa [RawOk, h.2]

theorem keepsScn_computeOffset {s t : Scn} (h : KeepsScn s t) (rc align entsize size : Nat) :
    (computeOffset ec rc align entsize size t).Ensures (fun _ t => KeepsScn s t) (fun t => KeepsScn s t)
      (fun _ => True) := by
  rw [computeOffset_eq]
  split
  · trivial
  · exact ⟨(placed_sNdx ..).trans h.1, (placed_sRawdata ..).trans h.2⟩

theorem keepsScn_getdata (s : Scn) :
    (getdata env e ec s).Ensures (fun _ t => KeepsScn s t) (fun t => KeepsScn s t) (fun _ => True) := by
  have hsame : KeepsScn s s := KeepsScn.refl s
  unfold getdata
  split
  · exact hsame
  split
  · exact hsame
  split
  · exact hsame
  dsimp only
  split
  · exact ⟨rfl, rfl⟩
  split
  · trivial
  split
  · trivial
  · exact hsame
  split
  · exact ⟨rfl, rfl⟩
  · trivial

/-- Laying out a section keeps its index and its raw descriptor. -/
theorem keepsScn_computeSectionExtents (rc : Nat) (s : Scn) :
    (computeSectionExtents env e ec rc s).Ensures (fun _ t => KeepsScn s t) (fun t => KeepsScn s t)
      (fun _ => True) := by
  have hsame : KeepsScn s s := KeepsScn.refl s
  unfold computeSectionExtents
  dsimp only
  split
  · trivial
  split
  · split
    · exact hsame
    · exact keepsScn_computeOffset hsame _ _ _ _
  refine ensures_bind (Q := fun _ t => KeepsScn s t) ?_ ?_
  · split
    · exact ensures_bind (keepsScn_getdata s) fun _ _ h => h
    · exact hsame
  · intro _ t ht
    refine ensures_bind (Q := fun _ u => KeepsScn s u) ?_ ?_
    · cases checkData e ec 0 0 t.sData with
      | ok r ds => exact ht
      | err err ds => exact ht
      | stop f => trivial
    · rintro ⟨size, align⟩ u hu
      dsimp only
      split
      · split
        · exact hu
        split
        · trivial
        split
        · exact hu
        split
        · trivial
        split
        · exact hu
        · exact hu
      · exact keepsScn_computeOffset hu _ _ _ _

/-- Every section that the layout leaves is one of those it found. -/
def KeepsScns (ss ss' : List Scn) : Prop := ∀ t ∈ ss', ∃ s ∈ ss, KeepsScn s t

theorem keepsScns_cons {s t : Scn} {ss ss' : List Scn} (h : KeepsScn s t) (hs : KeepsScns ss ss') :
    KeepsScns (s :: ss) (t :: ss') := by
  intro u hu
  rcases List.mem_cons.mp hu with rfl | hu
  · exact ⟨s, List.mem_cons_self, h⟩
  · obtain ⟨v, hv, hkeep⟩ := hs u hu
    exact ⟨v, List.mem_cons_of_mem s hv, hkeep⟩

theorem keepsScns_refl (ss : List Scn) : KeepsScns ss ss := fun t ht => ⟨t, ht, KeepsScn.refl t⟩

theorem keepsScns_resyncSections (ss : List Scn) : ∀ (ndx rc : Nat) (exs : List Extent),
    (resyncSections env e ec ndx rc exs ss).Ensures (fun _ ss' => KeepsScns ss ss')
      (fun ss' => KeepsScns ss ss') (fun _ => True) := by
  induction ss with
  | nil => exact fun _ _ _ => keepsScns_refl []
  | cons s ss ih =>
    intro ndx rc exs
    have hrest : ∀ ndx rc exs t, KeepsScn s t →
        ((resyncSections env e ec ndx rc exs ss).within (t :: ·)).Ensures
          (fun _ ss' => KeepsScns (s :: ss) ss') (fun ss' => KeepsScns (s :: ss) ss')
          (fun _ => True) :=
      fun ndx rc exs t ht => ensures_within (ensures_mono (ih ndx rc exs)
        (fun _ _ h => keepsScns_cons ht h) (fun _ h => keepsScns_cons ht h) fun _ h => h)
    unfold resyncSections
    split
    · exact hrest _ _ _ s (KeepsScn.refl s)
    have hscn := @keepsScn_computeSectionExtents env ec e rc s
    split
    · trivial
    · next hx =>
      rw [hx] at hscn
      exact keepsScns_cons hscn (keepsScns_refl ss)
    · next t hx =>
      rw [hx] at hscn
      split
      · exact hrest _ _ _ t hscn
      split
      · exact keepsScns_cons hscn (keepsScns_refl ss)
      · exact hrest _ _ _ t hscn

theorem wf_keepsScns (hw : Wf e) {l : List Scn} (hl : KeepsScns e.eScn l)
    (hh : e.eEhdr ≠ none) : Wf (e.setScn l) := by
  refine hw.setScn hh ?_ ?_
  · intro t ht hn
    obtain ⟨s, hs, hndx, _⟩ := hl t ht
    rw [hndx]
    exact hw.ndx s hs hn
  · intro t ht
    obtain ⟨s, hs, hkeep⟩ := hl t ht
    exact hkeep.rawOk (hw.raw s hs)

theorem wf_prepareEhdr (hw : Wf e) (hh : e.eEhdr ≠ none) (hc : e.eClass = some ec) (h : Ehdr) :
    (prepareEhdr ec h e).Ensures (fun _ e' => Wf e' ∧ e'.eEhdr ≠ none ∧ e'.eClass = some ec) Wf
      (fun _ => True) := by
  unfold prepareEhdr
  generalize (if h.eVersion.toNat = 0 then evCurrent else h.eVersion.toNat) = version
  dsimp only
  split
  · exact hw
  split
  · exact hw
  split
  · exact hw
  split
  · exact hw
  · refine ⟨?_, Option.some_ne_none _, hc⟩
    have hne : e.eClass ≠ none := by simp [hc]
    exact ((hw.setByteorder h.eIdent[5]).setEhdr _ hne (hw.opened hh)).setFlags (by rfl)

/-- The program header table, read in if it can be. -/
theorem wf_getphdr_ignore (hw : Wf e) (hh : e.eEhdr ≠ none) (hc : e.eClass = some ec) :
    (getphdr env ec e).ignore.Ensures (fun _ e' => Wf e' ∧ e'.eEhdr ≠ none ∧ e'.eClass = some ec) Wf
      (fun _ => True) := by
  obtain ⟨h, hh'⟩ := Option.ne_none_iff_exists'.mp hh
  have hget := @wf_getphdr env ec _ hw
  have hframe := @getphdr_frame env _ _ hc (hw.opened hh) _ hh'
  cases hx : getphdr env ec e with
  | ok ps t =>
    rw [hx] at hget hframe
    obtain ⟨rfl, _⟩ := hframe
    exact ⟨hget, hh, hc⟩
  | err err t =>
    rw [hx] at hget hframe
    cases hframe
    exact ⟨hget, hh, hc⟩
  | stop f => trivial

/-- The layout keeps the invariant, also when it fails half-way. -/
theorem wf_resyncElf (hw : Wf e) : (resyncElf env ec e).Ensures (fun _ => Wf) Wf (fun _ => True) := by
  unfold resyncElf
  refine ensures_bind (wf_ehdr hw false) ?_
  rintro h₀ e₁ ⟨hw₁, hh₁, hc₁⟩
  refine ensures_bind (wf_prepareEhdr hw₁ hh₁ hc₁ h₀) ?_
  rintro h e₂ ⟨hw₂, hh₂, hc₂⟩
  dsimp only
  refine ensures_bind (Q := fun _ e' => Wf e' ∧ e'.eEhdr ≠ none ∧ e'.eClass = some ec) ?_ ?_
  · unfold layoutPhdr
    split
    · exact ⟨hw₂, hh₂, hc₂⟩
    dsimp only
    split
    · exact hw₂
    refine ensures_bind (wf_getphdr_ignore hw₂ hh₂ hc₂) ?_
    rintro _ e₃ ⟨hw₃, hh₃, hc₃⟩
    split
    · exact hw₃
    · exact ⟨hw₃, hh₃, hc₃⟩
  rintro ⟨phoff, rc₁, exs₁⟩ e₃ ⟨hw₃, hh₃, hc₃⟩
  refine ensures_bind (ensures_and_ok (wf_needSectionHeaders hw₃ hh₃ h)
    (P := fun _ e' => e'.eClass = some ec) ?_) ?_
  · intro _ e' hx
    obtain ⟨l, f, rfl, _⟩ := needSectionHeaders_ok hx
    exact hc₃
  rintro _ e₄ ⟨⟨hw₄, hh₄⟩, hc₄⟩
  have hkeeps : ∀ ss', KeepsScns e₄.eScn ss' → Wf (e₄.setScn ss') :=
    fun ss' hss => wf_keepsScns hw₄ hss hh₄
  refine ensures_bind (Q := fun _ e' => Wf e' ∧ e'.eEhdr ≠ none) ?_ ?_
  · exact ensures_within (ensures_mono (keepsScns_resyncSections e₄.eScn 0 rc₁ exs₁)
      (fun _ ss' hss => ⟨hkeeps ss' hss, hh₄⟩) (fun ss' hss => hkeeps ss' hss) fun _ h => h)
  rintro ⟨rc₂, exs₂⟩ e₅ ⟨hw₅, hh₅⟩
  dsimp only
  split
  · exact hw₅
  refine ensures_bind (Q := fun _ e' => Wf e' ∧ e'.eEhdr ≠ none) ?_ ?_
  · unfold layoutShdr
    split
    · exact ⟨hw₅, hh₅⟩
    dsimp only
    split
    · exact hw₅
    split
    · exact hw₅
    · exact ⟨hw₅, hh₅⟩
  rintro ⟨shoff, rc₃, exs₃⟩ e₆ ⟨hw₆, hh₆⟩
  refine ensures_bind (wf_setphnum hw₆ hh₆ _) ?_
  rintro _ e₇ ⟨hw₇, hh₇⟩
  refine ensures_bind (wf_setshnum hw₇ hh₇ _) ?_
  intro _ e₈ hw₈
  rw [ensures_ok]
  split
  · exact hw₈
  · exact wf_updEhdr hw₈ _

end Layout

/-! ## The writers -/

/-- A section without its raw descriptors. -/
def Scn.forget (s : Scn) : Scn := { s with sRawdata := [] }

/-- What the writers never change: all of a descriptor but the raw descriptors of its sections and a
program header table that was not there. -/
structure Unchanged (e e' : Elf) : Prop where
  eq : e' = (e.setScn e'.eScn).setPhdr e'.ePhdr
  scn : e'.eScn.map Scn.forget = e.eScn.map Scn.forget
  phdr : ∀ ps, e.ePhdr = some ps → e'.ePhdr = some ps

namespace Unchanged

variable {e e' e'' : Elf}

theorem refl (e : Elf) : Unchanged e e := ⟨rfl, rfl, fun _ h => h⟩

theorem trans (h : Unchanged e e') (h' : Unchanged e' e'') : Unchanged e e'' := by
  refine ⟨?_, h'.scn.trans h.scn, fun ps hps => h'.phdr ps (h.phdr ps hps)⟩
  have h₁ := h.eq
  have h₂ := h'.eq
  rw [h₂, h₁]
  rfl

theorem eClass (h : Unchanged e e') : e'.eClass = e.eClass := by rw [h.eq]; rfl
theorem eCmd (h : Unchanged e e') : e'.eCmd = e.eCmd := by rw [h.eq]; rfl
theorem eFlags (h : Unchanged e e') : e'.eFlags = e.eFlags := by rw [h.eq]; rfl
theorem eRawfile (h : Unchanged e e') : e'.eRawfile = e.eRawfile := by rw [h.eq]; rfl
theorem eVersion (h : Unchanged e e') : e'.eVersion = e.eVersion := by rw [h.eq]; rfl
theorem eByteorder (h : Unchanged e e') : e'.eByteorder = e.eByteorder := by rw [h.eq]; rfl
theorem eEhdr (h : Unchanged e e') : e'.eEhdr = e.eEhdr := by rw [h.eq]; rfl
theorem eNphdr (h : Unchanged e e') : e'.eNphdr = e.eNphdr := by rw [h.eq]; rfl
theorem eNscn (h : Unchanged e e') : e'.eNscn = e.eNscn := by rw [h.eq]; rfl

/-- A section is still there, up to its raw descriptors. -/
theorem getElem? (h : Unchanged e e') {i : Nat} {s : Scn} (hs : e.eScn[i]? = some s) :
    ∃ s', e'.eScn[i]? = some s' ∧ s'.forget = s.forget := by
  have hmap := congrArg (fun l => l[i]?) h.scn
  rw [List.getElem?_map, List.getElem?_map, hs, Option.map_some] at hmap
  exact Option.map_eq_some_iff.mp hmap

/-- Only the raw descriptors of one section change. -/
theorem setScn {i : Nat} {s s' : Scn} (hs : e.eScn[i]? = some s) (hf : s'.forget = s.forget) :
    Unchanged e (e.setScn (e.eScn.set i s')) := by
  refine ⟨rfl, ?_, fun _ h => h⟩
  rw [Elf.setScn_eScn, List.map_set, hf]
  refine List.ext_getElem? fun j => ?_
  rw [List.getElem?_set]
  split
  · next hj =>
    subst hj
    rw [List.getElem?_map, hs]
    simp [(List.getElem?_eq_some_iff.mp hs).1]
  · rfl

end Unchanged

section Writers

variable {env : Env} {ec : ElfClass} {n : Nat} {w : Writing n}

/-- What a writer keeps of the descriptor. -/
def Kept (w w' : Writing n) : Prop := Wf w'.elf ∧ Unchanged w.elf w'.elf

theorem Kept.refl (hw : Wf w.elf) : Kept w w := ⟨hw, Unchanged.refl _⟩

/-- A part of a writer that only stores into the new image. -/
theorem kept_store {α : Type} {e : Elf} (hw : Wf e) (hu : Unchanged w.elf e) (x : Outcome ElfError (Mem n) α) :
    (x.within fun nf => (⟨e, nf⟩ : Writing n)).Ensures (fun _ => Kept w) (fun w => Wf w.elf)
      (fun _ => True) := by
  cases x with
  | ok a s => exact ⟨hw, hu⟩
  | err e s => exact hw
  | stop f => trivial

theorem kept_writeEhdr (hw : Wf w.elf) (ex : Extent) :
    (writeEhdr env ec ex w).Ensures (fun _ => Kept w) (fun w => Wf w.elf) (fun _ => True) := by
  unfold writeEhdr
  split
  · trivial
  split
  · trivial
  · exact ensures_bind (kept_store hw (Unchanged.refl _) _) fun _ _ h => h

/-- The program header table, read in if it was not there. -/
theorem kept_getphdr (hw : Wf w.elf) (hc : w.elf.eClass = some ec) {h : Ehdr} (hh : w.elf.eEhdr = some h) :
    (getphdr env ec w.elf).Ensures (fun ps e => Wf e ∧ Unchanged w.elf e ∧ e.ePhdr = some ps)
      Wf (fun _ => True) := by
  have hget := @wf_getphdr env ec _ hw
  have hframe := @getphdr_frame env _ _ hc (hw.opened (by simp [hh])) _ hh
  cases hx : getphdr env ec w.elf with
  | ok ps e =>
    rw [hx] at hget hframe
    obtain ⟨rfl, _⟩ := hframe
    refine ⟨hget, ⟨rfl, rfl, fun ps' hps' => ?_⟩, rfl⟩
    unfold getphdr at hx
    rw [hps'] at hx
    rw [(Outcome.ok.inj hx).1]
    rfl
  | err err e =>
    rw [hx] at hget
    exact hget
  | stop f => trivial

theorem kept_writePhdr (hw : Wf w.elf) (hc : w.elf.eClass = some ec) (ex : Extent) :
    (writePhdr env ec ex w).Ensures (fun _ => Kept w) (fun w => Wf w.elf) (fun _ => True) := by
  unfold writePhdr
  split
  · trivial
  next h hh =>
  dsimp only
  split
  · trivial
  have hget := @kept_getphdr env _ _ _ hw hc _ hh
  have hframe := @getphdr_frame env _ _ hc (hw.opened (by simp [hh])) _ hh
  refine ensures_bind (Q := fun _ => Kept w) ?_ ?_
  · cases hx : getphdr env ec w.elf with
    | ok ps e =>
      rw [hx] at hget
      exact ⟨hget.1, hget.2.1⟩
    | err err e =>
      rw [hx] at hframe
      cases hframe
      exact Kept.refl hw
    | stop f => trivial
  · intro buf w₁ hw₁
    exact ensures_bind (kept_store hw₁.1 hw₁.2 _) fun _ _ h => h

theorem kept_writeShdr (hw : Wf w.elf) (ex : Extent) :
    (writeShdr env ec ex w).Ensures (fun _ => Kept w) (fun w => Wf w.elf) (fun _ => True) := by
  unfold writeShdr
  split
  · trivial
  dsimp only
  split
  · trivial
  · exact ensures_bind (kept_store hw (Unchanged.refl _) _) fun _ _ h => h

theorem rawdata_forget (e : Elf) (ec : ElfClass) (s : Scn) :
    (rawdata e ec s).Ensures (fun _ t => t.forget = s.forget) (· = s) (fun _ => True) := by
  unfold rawdata
  split
  · rfl
  split
  · rfl
  split
  · rfl
  split <;> rfl

/-- Reading the raw descriptor of a section before its bytes are copied. -/
theorem kept_rawdata (hw : Wf w.elf) (hc : w.elf.eClass = some ec) {i : Nat} {s : Scn}
    (hs : w.elf.eScn[i]? = some s) : ((rawdata w.elf ec s).within fun s =>
      (⟨w.elf.setScn (w.elf.eScn.set i s), w.nf⟩ : Writing n)).Ensures (fun _ => Kept w)
      (fun w => Wf w.elf) (fun _ => True) := by
  have hon := wf_onScn hw (f := rawdata) (fun e ec s hv hr => rawOk_rawdata e ec s hv hr) i
  have hforget := rawdata_forget w.elf ec s
  unfold onScn withClass at hon
  rw [hc] at hon
  dsimp only at hon
  rw [hs] at hon
  dsimp only at hon
  cases hx : rawdata w.elf ec s with
  | ok d t =>
    rw [hx] at hon hforget
    exact ⟨hon, Unchanged.setScn hs hforget⟩
  | err err t =>
    rw [hx] at hon
    exact hon
  | stop f => trivial

theorem kept_writeScn (hw : Wf w.elf) (hc : w.elf.eClass = some ec) (ex : Extent) :
    (writeScn env ec ex w).Ensures (fun _ => Kept w) (fun w => Wf w.elf) (fun _ => True) := by
  unfold writeScn
  split
  · trivial
  next s hs =>
  split
  · exact Kept.refl hw
  split
  · trivial
  split
  · trivial
  split
  · trivial
  dsimp only
  split
  · refine ensures_bind (kept_rawdata hw hc hs) ?_
    intro _ w₁ hw₁
    split
    · trivial
    · exact kept_store hw₁.1 hw₁.2 _
  · exact kept_store hw (Unchanged.refl _) _

theorem kept_writeExtent (hw : Wf w.elf) (hc : w.elf.eClass = some ec) (ex : Extent) :
    (writeExtent env ec ex w).Ensures (fun _ => Kept w) (fun w => Wf w.elf) (fun _ => True) := by
  unfold writeExtent
  split
  · exact kept_writeEhdr hw ex
  · exact kept_writePhdr hw hc ex
  · exact kept_writeScn hw hc ex
  · exact kept_writeShdr hw ex

theorem kept_writeLoop (exs : List Extent) : ∀ (rc : Nat) (w : Writing n), Wf w.elf →
    w.elf.eClass = some ec →
    (writeLoop env ec rc exs w).Ensures (fun _ => Kept w) (fun w => Wf w.elf) (fun _ => True) := by
  induction exs with
  | nil => exact fun _ _ hw _ => Kept.refl hw
  | cons ex exs ih =>
    intro rc w hw hc
    unfold writeLoop
    refine ensures_bind (kept_store hw (Unchanged.refl _) _) ?_
    rintro _ w₁ ⟨hw₁, hu₁⟩
    refine ensures_bind (kept_writeExtent hw₁ (hu₁.eClass.trans hc) ex) ?_
    rintro nrc w₂ ⟨hw₂, hu₂⟩
    have hu := hu₁.trans hu₂
    split
    · exact hw₂
    split
    · trivial
    · exact ensures_mono (ih nrc w₂ hw₂ (hu.eClass.trans hc)) (fun _ w₃ h => ⟨h.1, hu.trans h.2⟩)
        (fun _ h => h) fun _ h => h

end Writers

/-! ## Whole runs -/

section Runs

variable {env : Env} {e : Elf}

theorem wf_writeElf {ec : ElfClass} (hw : Wf e) (hc : e.eClass = some ec) (size : Nat) (exs : List Extent) :
    (writeElf env ec size exs e).Ensures (fun _ => Wf) Wf (fun _ => True) := by
  unfold writeElf
  split
  · trivial
  split
  swap
  · trivial
  next hsize =>
  have hloop := @kept_writeLoop env ec _ exs 0 ⟨e, Mem.fresh env.heap size⟩ hw hc
  split
  · trivial
  · next hx =>
    rw [hx] at hloop
    exact hloop
  · next rc w hx =>
    rw [hx] at hloop
    have hw' : Wf w.elf := hloop.1
    split
    · trivial
    split
    · trivial
    next hrdwr =>
    split
    · trivial
    refine ⟨fun h => ⟨rfl, (hw'.unset h).2⟩, fun _ => ⟨rfl, rfl⟩, fun h => absurd rfl h, hw'.nscn, nofun,
      nofun, nofun, hw'.nphdr, fun h => ?_, fun h => ⟨?_, (hw'.rdwr h).2⟩⟩
    · have h' : w.elf.eCmd = .write := h
      simp [finishWrite, h', hw'.write h']
    · have h' : w.elf.eCmd = .rdwr := h
      simp [finishWrite, h']

/-- `elf_update` takes a version that was not set for the current one. -/
def currentVersion (e : Elf) : Elf := if e.eVersion = 0 then e.setVersion evCurrent else e

theorem currentVersion_eClass (e : Elf) : (currentVersion e).eClass = e.eClass := by
  unfold currentVersion
  split <;> rfl

theorem wf_currentVersion (hw : Wf e) : Wf (currentVersion e) := by
  unfold currentVersion
  split
  · exact ⟨hw.unset, hw.fresh, fun _ => rfl, hw.nscn, hw.ndx, hw.raw, hw.phdr, hw.nphdr, hw.write, hw.rdwr⟩
  · exact hw

theorem wf_elfUpdate (hw : Wf e) (c : UpdateCmd) :
    (elfUpdate env c e).Ensures (fun _ => Wf) Wf (fun _ => True) := by
  unfold elfUpdate
  split
  · exact hw
  next ec hc =>
  have hw₁ := wf_currentVersion hw
  have hc₁ : (currentVersion e).eClass = some ec := (currentVersion_eClass e).trans hc
  unfold currentVersion at hw₁ hc₁
  dsimp only
  generalize (if e.eVersion = 0 then e.setVersion evCurrent else e) = e₁ at hw₁ hc₁ ⊢
  split
  · exact hw₁
  refine ensures_bind (ensures_and_ok (wf_resyncElf hw₁) (P := fun _ e' => e'.eClass = some ec) ?_) ?_
  · rintro ⟨rc, exs⟩ e₂ hx
    obtain ⟨r⟩ := resyncElf_ok hx
    rw [r.final]
    exact (readIn_ok r.read).1
  rintro ⟨rc, exs⟩ e₂ ⟨hw₂, hc₂⟩
  dsimp only
  split
  · exact hw₂
  split
  · exact hw₂
  split
  · exact hw₂
  · exact wf_writeElf hw₂ hc₂ rc exs

/-- Every call and every store keeps the invariant. -/
theorem wf_step (hw : Wf e) (op : Op) {e' : Elf} (h : op.step env e = .ok e') : Wf e' := by
  have hclass : ∀ {α : Type} {f : ElfClass → Elf → Call α},
      (∀ ec, (f ec e).Ensures (fun _ => Wf) Wf (fun _ => True)) →
      (withClass f e).Ensures (fun _ => Wf) Wf (fun _ => True) := by
    intro α f hf
    unfold withClass
    split
    · exact hw
    · exact hf _
  have hnext : ∀ {α : Type} {x : Call α}, x.Ensures (fun _ => Wf) Wf (fun _ => True) →
      x.next = .ok e' → Wf e' := fun hx => (ensures_next hx).1 e'
  cases op with
  | newehdr ec => exact hnext (wf_libelfEhdr hw true) h
  | getehdr => exact hnext (hclass fun _ => wf_libelfEhdr hw false) h
  | setEhdr hdr =>
    cases h
    exact wf_updEhdr hw _
  | getphdr => exact hnext (hclass fun _ => wf_getphdr hw) h
  | newphdr count =>
    refine hnext (x := gelfNewphdr env count e) ?_ h
    unfold gelfNewphdr
    split
    · trivial
    · exact wf_newphdr hw count
  | setPhdr i p =>
    cases h
    exact wf_storePhdr hw i p
  | getshdrnum =>
    refine hnext (hclass fun ec => ?_) h
    exact ensures_bind (wf_libelfEhdr hw false) fun _ _ h => h
  | getphdrnum =>
    refine hnext (hclass fun ec => ?_) h
    exact ensures_bind (wf_libelfEhdr hw false) fun _ _ h => h
  | setshstrndx ndx =>
    refine hnext (hclass fun ec => ?_) h
    have hehdr := @wf_ehdr env ec _ hw false
    split
    · trivial
    · next hx =>
      rw [hx] at hehdr
      exact hehdr
    · next hx =>
      rw [hx] at hehdr
      exact wf_setshstrndx hehdr.1 hehdr.2.1 ndx
  | getscn index => exact hnext (wf_elfGetscn hw index) h
  | newscn => exact hnext (wf_elfNewscn hw) h
  | setShdr scn hdr => exact hnext (wf_storeScn hw (by exact fun _ _ => ⟨rfl, rfl⟩) scn) h
  | putShdr scn hdr => exact hnext (wf_storeScn hw (by exact fun _ _ => ⟨rfl, rfl⟩) scn) h
  | flagScn scn set => exact hnext (wf_storeScn hw (by exact fun _ _ => ⟨rfl, rfl⟩) scn) h
  | getdata scn => exact hnext (wf_onScn hw (fun e ec s _ hr => rawOk_getdata e ec s hr) scn) h
  | rawdata scn => exact hnext (wf_onScn hw (fun e ec s hv hr => rawOk_rawdata e ec s hv hr) scn) h
  | newdata scn => exact hnext (wf_onScn hw (fun e ec s _ hr => rawOk_newdata e ec s hr) scn) h
  | setData scn j d => exact hnext (wf_storeScn hw (by exact fun _ _ => ⟨rfl, rfl⟩) scn) h
  | flagLayout set =>
    cases h
    exact hw.setFlags rfl
  | update c => exact hnext (wf_elfUpdate hw c) h

/-- The invariant holds in every state of every run. -/
theorem wf_run {c : Cmd} {im : Image} {e₀ : Elf} (hopen : openObject env c im = .ok (some e₀))
    {ops : List Op} (hrun : runOps (Op.step env) e₀ ops = .ok e) : Wf e :=
  (@runOps_inv _ _ _ Wf (fun _ => True) (fun _ op _ hw h => wf_step hw op h)
    (fun _ _ _ _ _ => trivial) ops e₀ (wf_openObject hopen)).1 e hrun

end Runs

end LibElf.Toolchain
