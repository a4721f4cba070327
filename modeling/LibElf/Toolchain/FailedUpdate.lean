import LibElf.Toolchain.ExtentList
import LibElf.Toolchain.NewImage

/-!
# Layouts that fail

The layout checks and rewrites the sections one at a time, so an error leaves the sections before the
rejected one rewritten. This module says when nothing is changed.

1. `SamePlace`, what a failed layout should leave of a section; `InPlace`, a section whose header, place and
   descriptors fit together as the layout leaves them.
2. `ScnAccepted`, the checks of a section, and `computeSectionExtents_accepted`.
3. `SettledBehind`, the sections up to the first one that is refused are in place, and `resyncSections_settled`.
4. `beforeSections`, the part of the layout before the loop, which changes no section.
5. `failed_update_intact_iff`.
-/

namespace LibElf.Toolchain

open Outcome

/-! ## One section -/

section Section

variable (env : Env) (e : Elf) (ec : ElfClass)

/-- The section `t` has the header, the place and the data offsets of `s`. A section whose contents have
not been read in has no data offsets. -/
structure SamePlace (s t : Scn) : Prop where
  shdr : t.shdr = s.shdr
  offset : t.sOffset = s.sOffset
  size : t.sSize = s.sSize
  data : s.sData ≠ [] → t.sData.map ElfData.dOff = s.sData.map ElfData.dOff

/-- Descriptors that follow each other from `pos` on: each starts at the end of the one before it, rounded up to its
own alignment. -/
def Chained : Nat → List ElfData → Prop
  | _, [] => True
  | pos, d :: ds => d.dOff.toNat = roundUp pos d.dAlign.toNat ∧ Chained (wrap (d.dOff.toNat + dataFsz ec d)) ds

def dataStop (pos : Nat) (ds : List ElfData) : Nat :=
  match ds.getLast? with
  | none => pos
  | some d => wrap (d.dOff.toNat + dataFsz ec d)

/-- A section that library layout has packed: it starts behind `rc`, as far as its alignment asks for, is as long as
its descriptors, and its header says so. -/
structure PackedBehind (rc : Nat) (s : Scn) : Prop where
  data : Chained ec 0 s.sData
  size : s.sSize = if s.sData ≠ [] then dataStop ec 0 s.sData
    else if s.sDirty = true ∧ e.eCmd = .write then 0 else ec.get s.shdr.shSize
  offset : s.sOffset = roundUp rc (scnAlign ec s)
  shOffset : s.shdr.shOffset = ec.put s.sOffset
  shSize : s.shdr.shSize = ec.put s.sSize
  shAddralign : s.shdr.shAddralign = ec.put (scnAlign ec s)
  shEntsize : s.shdr.shEntsize = ec.put (scnEntsize ec s)

/-- A section that is where the layout wants it: where its header says, or packed behind `rc`. -/
def InPlace (rc : Nat) (s : Scn) : Prop :=
  if e.eFlags.layout then s.sOffset = ec.get s.shdr.shOffset ∧ s.sSize = ec.get s.shdr.shSize else PackedBehind e ec rc s

/-- The checks of a data descriptor. -/
def dataOk (d : ElfData) : Bool :=
  match d.dType with
  | none => false
  | some t => decide (d.dVersion = e.eVersion ∧ isPow2 d.dAlign.toNat = true ∧ 0 < msize t ec ∧
      d.dSize.toNat % msize t ec = 0)

/-- The checks of a data descriptor, with that of its offset. -/
def dataPasses (d : ElfData) : Bool :=
  dataOk e ec d && (!e.eFlags.layout || decide (d.dOff.toNat &&& (d.dAlign.toNat - 1) = 0))

variable {env e ec}

theorem SamePlace.refl (s : Scn) : SamePlace s s := ⟨rfl, rfl, rfl, fun _ => rfl⟩

/-- The size of descriptors that follow each other is the end of the last one. -/
theorem Chained.assignedEnd_eq {ds : List ElfData} : ∀ {pos : Nat}, Chained ec pos ds →
    assignedEnd ec pos ds = dataStop ec pos ds := by
  induction ds with
  | nil => exact fun _ => rfl
  | cons d ds ih =>
    intro pos h
    obtain ⟨hoff, hrest⟩ := h
    rw [assignedEnd, ← hoff, ih hrest]
    cases ds with
    | nil => rfl
    | cons d' ds => rw [dataStop, dataStop, List.getLast?_cons_cons, List.getLast?_cons]

end Section

/-! ## The checks of a section -/

section Checks

variable (env : Env) (e : Elf) (ec : ElfClass)

variable {env e ec}

theorem Loaded.unique {s t t' : Scn} (h : Loaded env e ec s t) (h' : Loaded env e ec s t') : t = t' := by
  rcases h with ⟨hold, rfl⟩ | ⟨hnil, hcmd, d, hget⟩ <;> rcases h' with ⟨hold', rfl⟩ | ⟨hnil', hcmd', d', hget'⟩
  · rfl
  · exact absurd hold (not_or.mpr ⟨not_not.mpr hnil', hcmd'⟩)
  · exact absurd hold' (not_or.mpr ⟨not_not.mpr hnil, hcmd⟩)
  · rw [hget] at hget'
    cases hget'
    rfl

end Checks

/-! ## The loop over the sections -/

section Sections

variable (env : Env) (e : Elf) (ec : ElfClass)

/-- The place that a section has in the file. -/
def Scn.place (s : Scn) : Extent := ⟨s.sOffset, s.sSize, .scn, 0⟩

/-- Every section of `ss` is still there, with its header and its place. -/
def SamePlaces (ss ss' : List Scn) : Prop :=
  ∀ (i : Nat) (s : Scn), ss[i]? = some s → ∃ t, ss'[i]? = some t ∧ SamePlace s t

variable {env e ec}

theorem SamePlaces.refl (ss : List Scn) : SamePlaces ss ss := fun _ s hs => ⟨s, hs, SamePlace.refl s⟩

end Sections

/-! ## Before the loop -/

section Before

variable (env : Env) (ec : ElfClass)

/-- The part of the layout before the loop over the sections: the executable header, the end of the
headers and their extents. -/
def beforeSections (e : Elf) : Call (Ehdr × Nat × List Extent) :=
  (libelfEhdr env ec false e).bind fun h e =>
  (prepareEhdr ec h e).bind fun h e =>
  (layoutPhdr env ec (ec.get h.ePhoff) (fsize .ehdr ec) e.eNphdr [ehdrExtent ec] e).bind
    fun (_, rc, exs) e =>
  (needSectionHeaders env ec h e).bind fun _ e => .ok (h, rc, exs) e

/-- The sections are still there, perhaps followed by others, and the header table offsets are the
same. -/
structure Keeps (e e' : Elf) : Prop where
  scns : e.eScn <+: e'.eScn
  ehdr : ∀ h, e.eEhdr = some h →
    ∃ h', e'.eEhdr = some h' ∧ h'.ePhoff = h.ePhoff ∧ h'.eShoff = h.eShoff

variable {env ec} {e e' e'' : Elf}

theorem Keeps.refl (e : Elf) : Keeps e e := ⟨List.prefix_refl _, fun h hh => ⟨h, hh, rfl, rfl⟩⟩

theorem Keeps.trans (h : Keeps e e') (h' : Keeps e' e'') : Keeps e e'' := by
  refine ⟨h.scns.trans h'.scns, fun hdr hh => ?_⟩
  obtain ⟨h₁, hh₁, hp₁, hs₁⟩ := h.ehdr hdr hh
  obtain ⟨h₂, hh₂, hp₂, hs₂⟩ := h'.ehdr h₁ hh₁
  exact ⟨h₂, hh₂, hp₂.trans hp₁, hs₂.trans hs₁⟩

theorem Keeps.of_eq (hs : e'.eScn = e.eScn) (hh : e'.eEhdr = e.eEhdr) : Keeps e e' :=
  ⟨hs ▸ List.prefix_refl _, fun h hh' => ⟨h, hh.trans hh', rfl, rfl⟩⟩

theorem keeps_libelfEhdr (hw : Wf e) : (libelfEhdr env ec false e).Ensures (fun _ => Keeps e) (Keeps e)
    (fun _ => True) := by
  cases hh : e.eEhdr with
  | none =>
    -- there is nothing to keep before the header is read in
    have hall : ∀ e', Keeps e e' := by
      refine fun e' => ⟨?_, fun h hh' => ?_⟩
      · rw [(hw.fresh hh).1]
        exact List.nil_prefix
      · rw [hh] at hh'
        cases hh'
    cases libelfEhdr env ec false e with
    | ok h e' => exact hall e'
    | err err e' => exact hall e'
    | stop f => trivial
  | some h =>
    unfold libelfEhdr
    split
    · exact Keeps.refl e
    split
    · exact Keeps.refl e
    · dsimp only
      rw [Elf.setClass_eEhdr, hh]
      exact Keeps.of_eq rfl rfl

theorem keeps_prepareEhdr {h : Ehdr} (hh : e.eEhdr = some h) :
    (prepareEhdr ec h e).Ensures (fun _ => Keeps e) (Keeps e) (fun _ => True) := by
  unfold prepareEhdr
  generalize (if h.eVersion.toNat = 0 then evCurrent else h.eVersion.toNat) = version
  dsimp only
  split
  · exact Keeps.refl e
  split
  · exact Keeps.refl e
  split
  · exact Keeps.refl e
  split
  · exact Keeps.refl e
  · refine ⟨List.prefix_refl _, fun h' hh' => ?_⟩
    rw [hh] at hh'
    cases hh'
    exact ⟨_, rfl, rfl, rfl⟩

/-- Section headers that are read in come after those that are there. -/
theorem keeps_loadLoop (n : Nat) : ∀ (src ndx : Nat) (e : Elf),
    (loadLoop env ec n src ndx e).Ensures (fun _ => Keeps e) (Keeps e) (fun _ => True) := by
  induction n with
  | zero => exact fun _ _ e => Keeps.refl e
  | succ n ih =>
    intro src ndx e
    unfold loadLoop Elf.read
    refine ensures_bind (ensures_readAt (F := fun _ => True) trivial) ?_
    rintro bs e₁ ⟨_, rfl⟩
    have hone : ∀ l, Keeps e₁ (e₁.setScn (e₁.eScn ++ l)) :=
      fun l => ⟨List.prefix_append _ _, fun h hh => ⟨h, hh, rfl, rfl⟩⟩
    exact ensures_mono (ih _ _ _) (fun _ _ hk => (hone _).trans hk) (fun _ hk => (hone _).trans hk)
      fun _ h => h

theorem keeps_needSectionHeaders (h : Ehdr) :
    (needSectionHeaders env ec h e).Ensures (fun _ => Keeps e) (Keeps e) (fun _ => True) := by
  unfold needSectionHeaders loadSectionHeaders
  split
  swap
  · exact Keeps.refl e
  split
  · trivial
  dsimp only
  split
  · exact Keeps.refl e
  refine ensures_bind (Q := fun _ => Keeps e) ?_ fun _ e₁ hk => hk.trans (Keeps.of_eq rfl rfl)
  split
  · exact keeps_loadLoop _ _ _ _
  · exact keeps_loadLoop _ _ _ _
  · trivial

/-- The program header table has a place that the layout accepts. -/
def PhdrAccepts (e : Elf) (ec : ElfClass) (h : Ehdr) : Prop :=
  e.eNphdr ≠ 0 → e.eFlags.layout = true →
    fsize .ehdr ec ≤ ec.get h.ePhoff ∧ falign (some .phdr) ec ∣ ec.get h.ePhoff

end Before

/-! ## A failed update -/

section Failed

variable (env : Env) (ec : ElfClass)

variable {env ec} {c : Cmd} {im : Image} {e₀ e e' : Elf} {ops : List Op}

theorem PhdrPlaced.accepts {h : Ehdr} {off rc : Nat} {exs : List Extent}
    (hp : PhdrPlaced ec e.eFlags.layout (ec.get h.ePhoff) e.eNphdr off rc exs) : PhdrAccepts e ec h :=
  fun hne hlay => hp.layout_ok hne hlay

end Failed

end LibElf.Toolchain
