import LibElf.Toolchain.LifeCycle
import LibElf.Toolchain.MemberNames

/-!
# Headers in a run

What a header is made of does not change for as long as its member is open, so `elf_getarhdr` always answers the same.

1. `Core`, the fields of a descriptor that are set when it is opened. `Extends`: a call keeps the cores, and the
   descriptors that it makes are `Entered`.
2. `answer`, what is read from the header of a member, and `Shelved`, the invariant of a run with headers.
3. `elfGetarhdr_answer`: the call returns the answer, whether the header was parsed before or not.
-/

namespace LibElf.Toolchain

open Outcome

/-! ## Cores -/

/-- What stays as it was when the descriptor was opened. -/
structure Core where
  block : Block
  file : Nat
  size : Nat
  rawhdr : Nat
  parent : Option Handle
  strtab : Option (Nat × Nat)

def Desc.strtab (d : Desc) : Option (Nat × Nat) := d.ar?.map fun a => (a.eRawstrtab, a.eRawstrtabsz)

def Desc.core (d : Desc) : Core := ⟨d.eBlock, d.eRawfile, d.eRawsize, d.eRawhdr, d.eParent, d.strtab⟩

/-- The string table is the one that the library finds in the archive. -/
def Recorded (k : Core) : Prop :=
  ∀ tab m, k.strtab = some tab → arSpecial k.block (wrap (k.file + sarmag)) (wrap (k.file + k.size)) () = .ok m () →
    tab = (m.rawstrtab, m.rawstrtabsz)

/-- A descriptor as the library makes it: its string table is the one in the archive, and a member is the range that
its header gives, in the block of its archive. -/
structure Entered (s : Heap) (k : Core) : Prop where
  recorded : Recorded k
  member : ∀ p, k.parent = some p → ∃ c hdr, s.cells[p]? = some c ∧ c.desc.eBlock = k.block ∧
    k.block.load k.rawhdr arHdrSize () = (.ok hdr () : Outcome ElfError Unit _) ∧
    memberRange k.rawhdr hdr = some (k.file, k.size)

/-- The descriptors that were there keep their cores, and none of them is alive again. -/
def Persist (s t : Heap) : Prop :=
  ∀ (h : Handle) c, s.cells[h]? = some c → ∃ c', t.cells[h]? = some c' ∧ c'.desc.core = c.desc.core ∧
    (c'.frees = 0 → c.frees = 0)

/-- What a call makes of the heap. -/
structure Extends (s t : Heap) : Prop where
  persist : Persist s t
  entered : ∀ (e : Handle) c, s.cells.length ≤ e → t.cells[e]? = some c → Entered t c.desc.core

/-- All descriptors are as the library makes them. -/
def Sourced (s : Heap) : Prop := ∀ (e : Handle) c, s.cells[e]? = some c → Entered s c.desc.core

section Cores

variable {s t u : Heap} {h : Handle} {d d' : Desc} {k : Core}

theorem Persist.refl : Persist s s := fun _ c hc => ⟨c, hc, rfl, id⟩

theorem Persist.trans (h₁ : Persist s t) (h₂ : Persist t u) : Persist s u := by
  intro h c hc
  obtain ⟨c₁, hc₁, hcore₁, hlive₁⟩ := h₁ h c hc
  obtain ⟨c₂, hc₂, hcore₂, hlive₂⟩ := h₂ h c₁ hc₁
  exact ⟨c₂, hc₂, hcore₂.trans hcore₁, fun hz => hlive₁ (hlive₂ hz)⟩

theorem Persist.length_le (hp : Persist s t) : s.cells.length ≤ t.cells.length := by
  by_contra hlt
  obtain ⟨c, hc⟩ : ∃ c, s.cells[t.cells.length]? = some c :=
    ⟨_, List.getElem?_eq_getElem (Nat.lt_of_not_le hlt)⟩
  obtain ⟨c', hc', -⟩ := hp _ c hc
  rw [List.getElem?_eq_none (Nat.le_refl _)] at hc'
  cases hc'

theorem Entered.mono (he : Entered s k) (hp : Persist s t) : Entered t k where
  recorded := he.recorded
  member p hparent := by
    obtain ⟨c, hdr, hc, hblock, hload, hrange⟩ := he.member p hparent
    obtain ⟨c', hc', hcore, -⟩ := hp p c hc
    exact ⟨c', hdr, hc', (congrArg Core.block hcore).trans hblock, hload, hrange⟩

theorem Extends.refl : Extends s s where
  persist := .refl
  entered e c hlen hc := by
    rw [List.getElem?_eq_none hlen] at hc
    cases hc

theorem Extends.trans (h₁ : Extends s t) (h₂ : Extends t u) : Extends s u where
  persist := h₁.persist.trans h₂.persist
  entered e c hlen hc := by
    rcases Nat.lt_or_ge e t.cells.length with hlt | hge
    · obtain ⟨c', hc'⟩ : ∃ c', t.cells[e]? = some c' := ⟨_, List.getElem?_eq_getElem hlt⟩
      obtain ⟨c'', hc'', hcore, -⟩ := h₂.persist e c' hc'
      obtain rfl := Option.some.inj (hc.symm.trans hc'')
      rw [hcore]
      exact (h₁.entered e c' hlen hc').mono h₂.persist
    · exact h₂.entered e c hge hc

theorem Sourced.extends (hs : Sourced s) (h : Extends s t) : Sourced t := by
  intro e c hc
  rcases Nat.lt_or_ge e s.cells.length with hlt | hge
  · obtain ⟨c', hc'⟩ : ∃ c', s.cells[e]? = some c' := ⟨_, List.getElem?_eq_getElem hlt⟩
    obtain ⟨c'', hc'', hcore, -⟩ := h.persist e c' hc'
    obtain rfl := Option.some.inj (hc.symm.trans hc'')
    rw [hcore]
    exact (hs e c' hc').mono h.persist
  · exact h.entered e c hge hc

/-- A call that changes one descriptor. -/
theorem extends_set {c c' : Cell} {cells : List Cell} (hc : s.cells[h]? = some c) (hcells : cells = s.cells.set h c')
    (hcore : c'.desc.core = c.desc.core) (hlive : c'.frees = 0 → c.frees = 0) (r : List Handle) :
    Extends s ⟨cells, r⟩ := by
  subst hcells
  obtain ⟨hlt, -⟩ := List.getElem?_eq_some_iff.mp hc
  refine ⟨fun q x hx => ?_, fun e x hlen hx => ?_⟩
  · by_cases hq : h = q
    · subst hq
      obtain rfl := Option.some.inj (hc.symm.trans hx)
      exact ⟨c', List.getElem?_set_self hlt, hcore, hlive⟩
    · exact ⟨x, (List.getElem?_set_ne hq).trans hx, rfl, id⟩
  · rw [List.getElem?_eq_none (by rw [List.length_set]; exact hlen)] at hx
    cases hx

theorem extends_put (hl : s.Live h d) (hcore : d'.core = d.core) : Extends s (s.put h d') := by
  have hput : s.put h d' = ⟨s.cells.set h ⟨d', 0⟩, s.returned⟩ := by
    unfold Heap.put
    rw [hl]
  rw [hput]
  exact @extends_set s h ⟨d, 0⟩ ⟨d', 0⟩ _ hl rfl hcore id _

theorem extends_release : Extends s (s.release h) := by
  unfold Heap.release
  split
  · next c hc => exact @extends_set s h c ⟨c.desc, c.frees + 1⟩ _ hc rfl rfl (fun hz => absurd hz (Nat.succ_ne_zero _)) _
  · exact .refl

theorem extends_allocate (hd : Entered (s.allocate d) d.core) : Extends s (s.allocate d) := by
  refine ⟨fun q x hx => ?_, fun e x hlen hx => ?_⟩
  · obtain ⟨hlt, -⟩ := List.getElem?_eq_some_iff.mp hx
    refine ⟨x, ?_, rfl, id⟩
    rw [Heap.allocate, List.getElem?_append_left hlt]
    exact hx
  · rcases Heap.getElem?_allocate hx with ⟨hlt, -⟩ | ⟨-, rfl⟩
    · exact absurd hlt (Nat.not_lt.mpr hlen)
    · exact hd

end Cores

/-! ## Calls on descriptors -/

/-- A call that keeps the cores, whether it fails or not. -/
abbrev Extending {α : Type} (s : Heap) (x : Lib α) : Prop :=
  x.Ensures (fun _ t => Extends s t) (Extends s) (fun _ => True)

section Calls

variable {s t : Heap} {h e : Handle} {d de : Desc} {a : Ar}

/-- The rule for a load of a descriptor. -/
theorem extending_deref {α : Type} {f : Desc → Heap → Lib α} (hf : ∀ d, s.Live h d → Extending s (f d s)) :
    Extending s ((s.deref h).bind f) :=
  Heap.ensures_deref hf

/-- The rule of sequencing. -/
theorem Extending.bind {α β : Type} {x : Lib α} {f : α → Heap → Lib β} (hx : Extending s x)
    (hf : ∀ a t, Extends s t → Extending t (f a t)) : Extending s (x.bind f) :=
  ensures_bind hx fun a t ht => ensures_mono (hf a t ht) (fun _ _ h => ht.trans h) (fun _ h => ht.trans h) fun _ h => h

/-- A store that moves an archive or counts a child. -/
theorem extends_setAr (hl : s.Live h d) (ha : d.eKind = .ar a) {a' : Ar} (htab : a'.eRawstrtab = a.eRawstrtab)
    (hsize : a'.eRawstrtabsz = a.eRawstrtabsz) : Extends s (s.put h (d.setAr a')) := by
  refine extends_put hl ?_
  simp only [Desc.core, Desc.strtab, Desc.ar?, ha, Desc.setAr_eKind, Desc.setAr_eBlock, Desc.setAr_eRawfile,
    Desc.setAr_eRawsize, Desc.setAr_eRawhdr, Desc.setAr_eParent, Option.map_some, htab, hsize]

theorem extending_endLoop (fuel : Nat) : ∀ (e : Handle) (s : Heap), Extending s (endLoop fuel e s) := by
  induction fuel with
  | zero => exact fun _ _ => trivial
  | succ fuel ih =>
    intro e s
    rw [endLoop]
    refine extending_deref fun d hl => ?_
    split
    · exact .refl
    split
    · exact .refl
    split
    · exact extends_release
    · next p _ =>
      refine extending_deref fun dp hlp => ?_
      split
      · next a ha =>
        have hput : Extends s (s.put p (dp.setAr { a with eNchildren := a.eNchildren - 1 })) :=
          extends_setAr hlp ha rfl rfl
        have hreap := hput.trans (@extends_release _ e)
        exact ensures_mono (ih p _) (fun _ _ h => hreap.trans h) (fun _ h => hreap.trans h) fun _ h => h
      · trivial
      · trivial

theorem extending_elfEnd (e : Option Handle) (s : Heap) : Extending s (elfEnd e s) := by
  cases e with
  | none => exact .refl
  | some e =>
    refine extending_deref fun d hl => ?_
    split
    · exact .refl
    extract_lets n s₁
    have hput : Extends s s₁ := extends_put hl rfl
    split
    · exact hput
    · exact ensures_mono (extending_endLoop _ e s₁) (fun _ _ h => hput.trans h) (fun _ h => hput.trans h) fun _ h => h

/-- A descriptor as it is made for the `sz` bytes at `image`. -/
structure Made (b : Block) (image sz : Nat) (d : Desc) : Prop where
  block : d.eBlock = b
  file : d.eRawfile = image
  size : d.eRawsize = sz
  parent : d.eParent = none
  recorded : Recorded d.core

theorem Made.entered {b : Block} {image sz : Nat} (hd : Made b image sz d) : Entered s d.core where
  recorded := hd.recorded
  member p hp := by
    have hnone : d.eParent = some p := hp
    rw [hd.parent] at hnone
    cases hnone

theorem Made.extends {b : Block} {image sz : Nat} (hd : Made b image sz d) : Extends s (s.allocate d) :=
  extends_allocate hd.entered

/-- Only archives have a string table. -/
theorem recorded_of_none (hd : d.ar? = none) : Recorded d.core := by
  intro tab m htab
  have hnone : d.strtab = some tab := htab
  rw [Desc.strtab, hd] at hnone
  cases hnone

abbrev Making (b : Block) (image sz : Nat) (s : Heap) (x : Lib Handle) : Prop :=
  x.Ensures (fun e t => e = s.cells.length ∧ ∃ d, Made b image sz d ∧ t = s.allocate d) (Extends s) (fun _ => True)

theorem making_arOpen {b : Block} {image sz : Nat} (hd : Made b image sz d) :
    Making b image sz s (arOpen s.cells.length d (s.allocate d)) := by
  unfold arOpen
  dsimp only
  rw [Heap.put_allocate, ← within_arSpecial]
  cases hspecial : (arSpecial d.eBlock (wrap (d.eRawfile + sarmag)) (wrap (d.eRawfile + d.eRawsize)) () :
      Outcome ElfError Unit Special) with
  | ok m u =>
    rw [within_ok, bind_ok, Heap.put_allocate]
    refine ⟨rfl, _, ?_, rfl⟩
    refine ⟨hd.block, hd.file, hd.size, hd.parent, fun tab m' htab hm' => ?_⟩
    obtain rfl : m = m' := by
      have hrun := hspecial.symm.trans hm'
      cases hrun
      rfl
    exact (Option.some.inj htab).symm
  | err c u =>
    rw [within_err, bind_err]
    refine (Made.extends ⟨hd.block, hd.file, hd.size, hd.parent, fun tab m' _ hm' => ?_⟩ :
      Extends s (s.allocate (d.setAr ⟨-1, 0, 0, 0, 0, 0⟩)))
    have hrun := hspecial.symm.trans hm'
    cases hrun
  | stop f => trivial

theorem making_libelfMemoryAt (b : Block) (image sz : Nat) (s : Heap) :
    Making b image sz s (libelfMemoryAt b image sz s) := by
  unfold libelfMemoryAt
  split
  · trivial
  extract_lets e d₀ d s₁
  have hmade : Made b image sz d := ⟨rfl, rfl, rfl, rfl, recorded_of_none rfl⟩
  have hmagic : ∀ (pat : List UInt8) (c : Prop) [Decidable c],
      (if c then b.startsWith image pat s₁ else .ok false s₁ : Lib Bool).Ensures (fun _ t => t = s₁) (Extends s)
        (fun _ => True) := by
    intro pat c _
    split
    · exact Block.ensures_startsWith pat image
    · exact rfl
  refine ensures_bind (hmagic _ _) fun iself t ht => ?_
  subst ht
  split
  · refine ensures_bind Block.ensures_load fun ident t ht => ?_
    subst ht
    split
    · exact hmade.extends.trans extends_release
    · exact ⟨rfl, _, ⟨rfl, rfl, rfl, rfl, recorded_of_none rfl⟩, Heap.put_allocate⟩
  · refine ensures_bind (hmagic _ _) fun isar t ht => ?_
    subst ht
    split
    · exact making_arOpen hmade
    · exact ⟨rfl, d, hmade, rfl⟩

theorem making_elfMemory (b : Block) (image sz : Nat) (s : Heap) : Making b image sz s (elfMemory b image sz s) := by
  unfold elfMemory
  split
  · exact .refl
  · exact making_libelfMemoryAt b image sz s

/-- A store into an old descriptor, and one into the newest. -/
theorem put_put_allocate {d' d₁ : Desc} (hl : s.Live h d) :
    ((s.allocate de).put h d').put s.cells.length d₁ = (s.put h d').allocate d₁ := by
  have hput : s.put h d' = ⟨s.cells.set h ⟨d', 0⟩, s.returned⟩ := by
    unfold Heap.put
    rw [hl]
  have hcomm : (s.allocate de).put h d' = (s.put h d').allocate de := by
    have hlive : (s.allocate de).Live h d := Heap.live_allocate.mpr (.inl hl)
    rw [hput]
    unfold Heap.put
    rw [hlive]
    simp only [Heap.allocate, List.set_append_left _ _ hl.lt]
  rw [hcomm]
  have hlast := @Heap.put_allocate (s.put h d') de d₁
  rwa [Heap.length_put] at hlast

theorem extending_openMember {fd : Int} {c : ElfCmd} {elf : Handle} (hl : s.Live elf d) (ha : d.eKind = .ar a) :
    Extending s (openMember fd c elf d a s) := by
  unfold openMember
  split
  · exact .refl
  split
  · trivial
  dsimp only
  rw [← Block.within_load]
  cases hload : (d.eBlock.load (ptrAdd d.eRawfile a.eNext) arHdrSize () : Outcome ElfError Unit (List UInt8)) with
  | err c u => exact .refl
  | stop f => trivial
  | ok hdr u =>
    rw [within_ok, bind_ok]
    split
    · exact .refl
    · next member sz hrange =>
      refine ensures_bind (making_elfMemory d.eBlock member sz s) fun e t ht => ?_
      obtain ⟨rfl, de, hmade, rfl⟩ := ht
      rw [Heap.deref_live Heap.live_allocate_self, bind_ok]
      split
      · trivial
      show Extends s _
      rw [put_put_allocate hl]
      have hput : Extends s (s.put elf (d.setAr { a with eNchildren := a.eNchildren + 1 })) :=
        extends_setAr hl ha rfl rfl
      refine hput.trans (extends_allocate ⟨hmade.recorded, fun p hp => ?_⟩)
      obtain rfl := Option.some.inj hp
      refine ⟨_, hdr, Heap.live_allocate.mpr (.inl (Heap.live_put hl)), hmade.block.symm, ?_, ?_⟩
      · show de.eBlock.load _ _ _ = _
        rw [hmade.block]
        exact hload
      · show memberRange _ hdr = some (de.eRawfile, de.eRawsize)
        rw [hmade.file, hmade.size]
        exact hrange

theorem extending_openObjectAt {env : Env} {fd : Int} {c : ElfCmd} {file : Option Block} :
    Extending s (openObjectAt env fd c file s) := by
  unfold openObjectAt
  split
  · exact .refl
  split
  · exact extends_allocate ⟨recorded_of_none rfl, nofun⟩
  split
  · exact .refl
  refine ensures_bind (making_libelfMemoryAt _ _ _ _) fun e t ht => ?_
  obtain ⟨rfl, d, hmade, rfl⟩ := ht
  have hlive : (s.allocate d).Live s.cells.length d := Heap.live_allocate_self
  rw [Heap.deref_live hlive, bind_ok]
  split
  · exact Extending.bind (ensures_mono (extending_elfEnd _ _) (fun _ _ h => hmade.extends.trans h)
      (fun _ h => hmade.extends.trans h) fun _ h => h) fun _ _ _ => .refl
  · exact hmade.extends.trans (extends_put hlive rfl)

theorem extending_elfBegin {env : Env} {fd : Int} {c : ElfCmd} {a : Option Handle} {file : Option Block} :
    Extending s (elfBegin env fd c a file s) := by
  unfold elfBegin
  split
  · exact .refl
  · exact .refl
  · exact extending_openObjectAt
  · exact .refl
  · exact extending_openObjectAt
  · exact extending_openObjectAt
  · refine extending_deref fun d hl => ?_
    split
    · exact .refl
    split
    · next r hr => exact extending_openMember hl hr
    split
    · trivial
    · exact extends_put hl rfl

theorem extending_elfNext (e : Option Handle) : Extending s (elfNext e s) := by
  cases e with
  | none => exact .refl
  | some e =>
    refine extending_deref fun d hl => ?_
    split
    · exact .refl
    refine extending_deref fun dp hlp => ?_
    split
    · next a ha =>
      split
      · trivial
      · exact extends_setAr hlp ha rfl rfl
    · trivial

theorem extending_elfRand {offset : Int} (ar : Option Handle) : Extending s (elfRand ar offset s) := by
  cases ar with
  | none => exact .refl
  | some h =>
    refine extending_deref fun d hl => ?_
    split
    · next a ha =>
      split
      · exact .refl
      refine ensures_bind Block.ensures_load fun arh t ht => ?_
      subst ht
      split
      · exact .refl
      · exact extends_setAr hl ha rfl rfl
    · exact .refl

/-- What a call returned is on record. -/
theorem extending_giving {x : Lib (Option Handle)} (hx : Extending s x) : Extending s (giving x) := by
  refine Extending.bind hx fun r t _ => ?_
  cases r with
  | none => exact .refl
  | some e =>
    have hgive : t.give e = ⟨t.cells, e :: t.returned⟩ := rfl
    refine ⟨fun q c hc => ⟨c, hc, rfl, id⟩, fun q c hlen hc => ?_⟩
    rw [hgive, List.getElem?_eq_none hlen] at hc
    cases hc

/-- Every call keeps the cores. -/
theorem LifeOp.extends {env : Env} (op : LifeOp) (h : op.step env s = .ok t) : Extends s t := by
  cases op with
  | elfBegin fd c a file => exact (ensures_next (extending_giving extending_elfBegin)).1 t h
  | elfMemory b image sz =>
    have hmem : Extending s ((Toolchain.elfMemory b image sz s).bind fun e s => .ok (some e) s) := by
      refine ensures_bind (making_elfMemory b image sz s) fun e u hu => ?_
      obtain ⟨-, d, hmade, rfl⟩ := hu
      exact hmade.extends
    exact (ensures_next (extending_giving hmem)).1 t h
  | elfNext e => exact (ensures_next (extending_elfNext e)).1 t h
  | elfRand ar offset => exact (ensures_next (extending_elfRand ar)).1 t h
  | elfEnd e => exact (ensures_next (extending_elfEnd e s)).1 t h

end Calls

/-! ## Answers -/

/-- What there is to read for the member `e`. -/
def answer (s : Heap) (e : Handle) : Outcome ElfError Unit (Option Arhdr) :=
  match s.cells[e]? with
  | none => .stop .load
  | some c =>
    match c.desc.eParent with
    | none => .err .ARGUMENT ()
    | some p =>
      match s.cells[p]? with
      | none => .stop .load
      | some cp =>
        match headerInside cp.desc c.desc.eRawhdr, cp.desc.eKind with
        | true, .ar a => readArhdr cp.desc.eBlock a c.desc.eRawhdr
        | _, _ => .stop .assertion

/-- The invariant of a run with headers: a parsed header is the answer for its member. -/
structure Shelved (s : Shelf) : Prop where
  balanced : Balanced s.heap
  sourced : Sourced s.heap
  old : ∀ e h, s.arhdrs e = some h → e < s.heap.cells.length
  parsed : ∀ e h d, s.arhdrs e = some h → s.heap.Live e d → answer s.heap e = .ok (some h) ()

section Answers

variable {s t : Heap} {e p : Handle} {d dp : Desc} {a : Ar}

/-- Of an archive only the string table is looked at. -/
theorem readArhdr_congr {b : Block} {a' : Ar} {arh : Nat} (htab : a.eRawstrtab = a'.eRawstrtab)
    (hsize : a.eRawstrtabsz = a'.eRawstrtabsz) : readArhdr b a arh = readArhdr b a' arh := by
  unfold readArhdr translatedName
  rw [htab, hsize]

theorem answer_of_parent (hl : s.Live e d) (hparent : d.eParent = some p) (hlp : s.Live p dp) (ha : dp.eKind = .ar a) :
    answer s e = if headerInside dp d.eRawhdr then readArhdr dp.eBlock a d.eRawhdr else .stop .assertion := by
  unfold answer
  rw [hl]
  simp only
  rw [hparent]
  simp only
  rw [hlp]
  simp only
  rw [ha]
  cases headerInside dp d.eRawhdr <;> rfl

theorem answer_of_orphan (hl : s.Live e d) (hparent : d.eParent = none) : answer s e = .err .ARGUMENT () := by
  unfold answer
  rw [hl]
  simp only
  rw [hparent]

/-- The answer for a member that stays open does not change. -/
theorem answer_persist {d' : Desc} (hb : Balanced s) (hp : Persist s t) (hl : s.Live e d) (hl' : t.Live e d')
    (ht : Balanced t) : answer t e = answer s e := by
  obtain ⟨c', hc', hcore, -⟩ := hp e ⟨d, 0⟩ hl
  obtain rfl : c' = ⟨d', 0⟩ := Option.some.inj (hc'.symm.trans hl')
  have hparent : d'.eParent = d.eParent := congrArg Core.parent hcore
  cases hd : d.eParent with
  | none => rw [answer_of_orphan hl hd, answer_of_orphan hl' (hparent.trans hd)]
  | some p =>
    obtain ⟨dp, a, hlp, ha⟩ := hb.parent_ar e d p hl hd
    obtain ⟨dp', a', hlp', ha'⟩ := ht.parent_ar e d' p hl' (hparent.trans hd)
    obtain ⟨cp', hcp', hcorep, -⟩ := hp p ⟨dp, 0⟩ hlp
    obtain rfl : cp' = ⟨dp', 0⟩ := Option.some.inj (hcp'.symm.trans hlp')
    have hstrtab : dp'.strtab = dp.strtab := congrArg Core.strtab hcorep
    rw [Desc.strtab, Desc.strtab, Desc.ar?, Desc.ar?, ha, ha'] at hstrtab
    have htab := Option.some.inj hstrtab
    have hblock : dp'.eBlock = dp.eBlock := congrArg Core.block hcorep
    have hraw : d'.eRawhdr = d.eRawhdr := congrArg Core.rawhdr hcore
    have hfile : dp'.eRawfile = dp.eRawfile := congrArg Core.file hcorep
    have hsize : dp'.eRawsize = dp.eRawsize := congrArg Core.size hcorep
    have hinside : headerInside dp' d'.eRawhdr = headerInside dp d.eRawhdr := by
      unfold headerInside
      rw [hfile, hsize, hraw]
    rw [answer_of_parent hl hd hlp ha, answer_of_parent hl' (hparent.trans hd) hlp' ha', hinside, hblock, hraw,
      readArhdr_congr (congrArg Prod.fst htab) (congrArg Prod.snd htab)]

/-- A store of what is there already. -/
theorem Heap.put_self (hl : s.Live e d) : s.put e d = s := by
  obtain ⟨hlt, hget⟩ := List.getElem?_eq_some_iff.mp hl
  have hset : s.cells.set e ⟨d, 0⟩ = s.cells := by
    rw [← hget]
    exact List.set_getElem_self hlt
  unfold Heap.put
  rw [hl]
  simp only [hset]

end Answers

section Calls

variable {s t : Shelf} {e : Handle} {d : Desc}

theorem Shelf.deref_live (hl : s.heap.Live e d) : s.deref e = .ok d s := by
  rw [Shelf.deref, Heap.deref_live hl]
  rfl

/-- A store of what is there already. -/
theorem Shelf.setArhdr_self {h : Option Arhdr} (hh : s.arhdrs e = h) : s.setArhdr e h = s := by
  have hfun : (fun q => if q = e then h else s.arhdrs q) = s.arhdrs := by
    funext q
    split
    · next hq => rw [hq, hh]
    · rfl
  rw [Shelf.setArhdr, hfun]

theorem Shelf.setArhdr_setArhdr (h h' : Option Arhdr) : (s.setArhdr e h).setArhdr e h' = s.setArhdr e h' := by
  have hfun : (fun q => if q = e then h' else (s.setArhdr e h).arhdrs q) = fun q => if q = e then h' else s.arhdrs q := by
    funext q
    rw [Shelf.setArhdr]
    split
    · rfl
    · next hq => exact if_neg hq
  unfold Shelf.setArhdr at hfun ⊢
  rw [hfun]

/-- The error path puts the raw header back. -/
theorem restore_eq {d' : Desc} (hl : s.heap.Live e d) (hd' : d' = d) (hnone : s.arhdrs e = none) :
    (⟨s.heap.put e d', ((s.setArhdr e (some .blank)).setArhdr e none).arhdrs⟩ : Shelf) = s := by
  rw [Shelf.setArhdr_setArhdr, Shelf.setArhdr_self hnone, hd', Heap.put_self hl]

/-- The call returns the answer. Where it fails, it leaves everything as it was. -/
theorem elfGetarhdr_answer (hs : Shelved s) (hl : s.heap.Live e d) : elfGetarhdr (some e) s =
    match answer s.heap e with
    | .ok (some h) _ => .ok (some h) (s.setArhdr e (some h))
    | .ok none _ => .ok none s
    | .err c _ => .err c s
    | .stop f => .stop f := by
  rw [elfGetarhdr, Shelf.deref_live hl, bind_ok]
  cases hh : s.arhdrs e with
  | some h =>
    rw [hs.parsed e h d hh hl]
    simp only
    rw [Shelf.setArhdr_self hh]
  | none =>
    simp only
    rw [arGethdr, Shelf.deref_live hl, bind_ok]
    cases hd : d.eParent with
    | none => rw [answer_of_orphan hl hd]
    | some p =>
      obtain ⟨dp, a, hlp, ha⟩ := hs.balanced.parent_ar e d p hl hd
      rw [answer_of_parent hl hd hlp ha]
      simp only
      rw [Shelf.deref_live hlp, bind_ok, if_neg (not_not.mpr hh)]
      simp only [ha]
      cases headerInside dp d.eRawhdr with
      | false => rfl
      | true =>
        simp only [if_true]
        cases hread : readArhdr dp.eBlock a d.eRawhdr with
        | ok r u =>
          cases r with
          | none => exact congrArg (Outcome.ok none) (restore_eq hl (by rw [← hd]) hh)
          | some h => exact congrArg (Outcome.ok (some h)) (Shelf.setArhdr_setArhdr _ _)
        | err c u => exact congrArg (Outcome.err c) (restore_eq hl (by rw [← hd]) hh)
        | stop f => rfl

theorem Shelved.empty : Shelved .empty where
  balanced := Balanced.empty
  sourced := nofun
  old := nofun
  parsed := nofun

/-- A call for a header parses that header, or leaves everything as it was. -/
theorem getarhdr_step (hs : Shelved s) {e : Option Handle} (h : (elfGetarhdr e s).next = .ok t) :
    t = s ∨ ∃ q d r, e = some q ∧ s.heap.Live q d ∧ answer s.heap q = .ok (some r) () ∧ t = s.setArhdr q (some r) := by
  cases e with
  | none => exact .inl (Except.ok.inj h).symm
  | some q =>
    cases hderef : s.heap.deref q with
    | err c u => exact (Heap.deref_ne_err hderef).elim
    | stop f =>
      rw [elfGetarhdr, Shelf.deref, hderef] at h
      cases h
    | ok d u =>
      obtain ⟨hl, -⟩ := Heap.deref_eq_ok hderef
      rw [elfGetarhdr_answer hs hl] at h
      cases hans : answer s.heap q with
      | ok r v =>
        rw [hans] at h
        cases r with
        | none => exact .inl (Except.ok.inj h).symm
        | some r => exact .inr ⟨q, d, r, rfl, hl, hans, (Except.ok.inj h).symm⟩
      | err c v =>
        rw [hans] at h
        exact .inl (Except.ok.inj h).symm
      | stop f =>
        rw [hans] at h
        cases h

/-- A call keeps the invariant and the cores. -/
theorem HdrOp.shelved {env : Env} (op : HdrOp) (hs : Shelved s) (h : op.step env s = .ok t) :
    Shelved t ∧ Persist s.heap t.heap := by
  cases op with
  | life op =>
    rw [HdrOp.step] at h
    cases hrun : op.step env s.heap with
    | error f =>
      rw [hrun] at h
      cases h
    | ok u =>
      rw [hrun] at h
      obtain rfl := Except.ok.inj h
      have hext := op.extends hrun
      have hb := op.balanced hs.balanced hrun
      refine ⟨⟨hb, hs.sourced.extends hext, fun e r he => ?_, fun e r d he hl => ?_⟩, hext.persist⟩
      · exact Nat.lt_of_lt_of_le (hs.old e r he) hext.persist.length_le
      · -- the member was alive before the call
        obtain ⟨c, hc⟩ : ∃ c, s.heap.cells[e]? = some c := ⟨_, List.getElem?_eq_getElem (hs.old e r he)⟩
        obtain ⟨c', hc', -, hlive⟩ := hext.persist e c hc
        obtain rfl := Option.some.inj (hl.symm.trans hc')
        have hl₀ : s.heap.Live e c.desc := by
          have hzero := hlive rfl
          obtain ⟨d₀, n⟩ := c
          obtain rfl : n = 0 := hzero
          exact hc
        show answer u e = _
        rw [answer_persist hs.balanced hext.persist hl₀ hl hb]
        exact hs.parsed e r _ he hl₀
  | getarhdr e =>
    rcases getarhdr_step hs h with rfl | ⟨q, d, r, rfl, hl, hans, rfl⟩
    · exact ⟨hs, .refl⟩
    · refine ⟨⟨hs.balanced, hs.sourced, fun e' r' he => ?_, fun e' r' d' he hl' => ?_⟩, .refl⟩
      · unfold Shelf.setArhdr at he
        simp only at he
        split at he
        · next heq => exact heq ▸ hl.lt
        · exact hs.old e' r' he
      · unfold Shelf.setArhdr at he
        simp only at he
        split at he
        · next heq =>
          obtain rfl := Option.some.inj he
          rw [heq]
          exact hans
        · exact hs.parsed e' r' d' he hl'

/-- A run keeps the invariant and the cores. -/
theorem shelved_run {env : Env} {ops : List HdrOp} (hs : Shelved s) (hrun : runOps (HdrOp.step env) s ops = .ok t) :
    Shelved t ∧ Persist s.heap t.heap := by
  have hinv := @runOps_inv _ _ (HdrOp.step env) (fun u => Shelved u ∧ Persist s.heap u.heap) (fun _ => True)
    (fun u op v hu hv => ?_) (fun _ _ _ _ _ => trivial) ops s ⟨hs, .refl⟩
  · exact hinv.1 t hrun
  · obtain ⟨hv', hp⟩ := op.shelved hu.1 hv
    exact ⟨hv', hu.2.trans hp⟩

/-- What there is to read for a member that stays open through a run does not change. -/
theorem answer_run {env : Env} {ops : List HdrOp} {d' : Desc} (hs : Shelved s)
    (hrun : runOps (HdrOp.step env) s ops = .ok t) (hl : s.heap.Live e d) (hl' : t.heap.Live e d') :
    answer t.heap e = answer s.heap e := by
  obtain ⟨ht, hp⟩ := shelved_run hs hrun
  exact answer_persist hs.balanced hp hl hl' ht.balanced

end Calls

end LibElf.Toolchain
