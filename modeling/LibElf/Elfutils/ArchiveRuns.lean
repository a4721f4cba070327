import LibElf.Elfutils.ArchiveRange

/-!
# Runs over archives

The descriptors that a run of `elf_begin`, `elf_next`, `elf_rand`, `elf_getarhdr` and `elf_end` leaves: every
member lies in its archive, and so do the headers.

1. `Elf.Place`, what a descriptor is opened with.
2. `Lib.Nested`, the invariant, and what a change of one descriptor keeps of it.
3. `ArOp.Sound`, the calls that look for headers where they should, and `step_nested`.
-/

namespace LibElf.Elfutils

open Outcome

variable {env : Env} {e e' : Elf} {w : Walk} {l : Lib} {h p : Handle}

/-! ## What a descriptor is opened with -/

/-- A descriptor for a range of an image or of the file; an archive is at its first header. -/
structure Elf.Place (map : Option Image) (fildes : Int) (offset maxsize : Nat) (cmd : Cmd) (parent : Option Handle)
    (e : Elf) : Prop where
  mapAddress : e.mapAddress = map
  fildes : e.fildes = fildes
  startOffset : e.startOffset = offset
  maximumSize : e.maximumSize = maxsize
  cmd : e.cmd = cmd
  parent : e.parent = parent
  refCount : e.refCount = 1
  ar : e.ar = ⟨[], none, if e.kind = .ar then offset + sarmag else 0, Arhdr.zero⟩

section Place

variable {map : Option Image} {fildes : Int} {image : Image} {offset maxsize : Nat} {cmd : Cmd}
  {parent : Option Handle}

theorem allocateElf_place {kind : Kind} (hk : kind ≠ .ar) :
    (allocateElf fildes map offset maxsize cmd parent kind).Place map fildes offset maxsize cmd parent := by
  refine ⟨rfl, rfl, rfl, rfl, rfl, rfl, rfl, ?_⟩
  show _ = Ar.mk [] none (if kind = .ar then offset + sarmag else 0) Arhdr.zero
  rw [if_neg hk]
  rfl

theorem fileReadAr_place {kind : Kind} :
    (fileReadAr (allocateElf fildes map offset maxsize cmd parent kind)).Place map fildes offset maxsize cmd parent :=
  ⟨rfl, rfl, rfl, rfl, rfl, rfl, rfl, rfl⟩

theorem fileReadElf_place {buf : Option (List UInt8)} {ident : List UInt8}
    (h : fileReadElf env buf ident ((allocateElf fildes map offset maxsize cmd parent .none).setKind .elf) =
      .ok () e) : e.Place map fildes offset maxsize cmd parent := by
  obtain ⟨n, ec, hdr, scns, -, rfl⟩ := fileReadElf_ok h
  exact ⟨rfl, rfl, rfl, rfl, rfl, rfl, rfl, rfl⟩

theorem readMmapedFile_place (h : readMmapedFile env fildes image offset maxsize cmd parent = .ok () e) :
    e.Place (some image) fildes offset maxsize cmd parent := by
  unfold readMmapedFile at h
  extract_lets e₀ at h
  obtain ⟨ident, t, hread, hrest⟩ := bind_eq_ok.mp h
  obtain rfl := Elf.mapRead_ok hread
  split at hrest
  · exact fileReadElf_place hrest
  · cases hrest
    exact fileReadAr_place
  · obtain rfl := (Outcome.ok.inj hrest).2
    exact allocateElf_place (by decide)

theorem readUnmmapedFile_place (h : readUnmmapedFile env fildes offset maxsize cmd parent = .ok () e) :
    e.Place none fildes offset maxsize cmd parent := by
  unfold readUnmmapedFile at h
  extract_lets e₀ at h
  split at h
  · cases h
  · split at h
    · cases h
      exact fileReadAr_place
    · extract_lets size at h
      split at h
      · exact fileReadElf_place h
      · obtain rfl := (Outcome.ok.inj h).2
        exact allocateElf_place (by decide)
    · obtain rfl := (Outcome.ok.inj h).2
      exact allocateElf_place (by decide)

/-- The file, mapped or not. -/
theorem readFile_place (h : readFile env fildes cmd = .ok () e) :
    e.Place (if useMmap cmd ∧ (env.file fildes).bytes.length ≠ 0 then some (env.file fildes) else none) fildes 0
      (env.file fildes).bytes.length cmd none := by
  unfold readFile at h
  extract_lets size at h
  split at h
  · next hmap =>
    rw [if_pos hmap]
    exact readMmapedFile_place h
  · next hmap =>
    rw [if_neg hmap]
    exact readUnmmapedFile_place h

/-- A member, mapped where its archive is. -/
theorem readMember_place {parent : Handle} {ref : Elf}
    (h : readMember env fildes offset maxsize cmd parent ref = .ok () e) :
    e.Place (if useMmap cmd then ref.mapAddress else none) fildes offset maxsize cmd (some parent) := by
  unfold readMember at h
  split at h
  · next image himage =>
    rw [himage]
    split at h
    · next hmap =>
      rw [if_pos hmap]
      exact readMmapedFile_place h
    · next hmap =>
      rw [if_neg hmap]
      exact readUnmmapedFile_place h
  · next himage =>
    rw [himage, ite_self]
    exact readUnmmapedFile_place h

end Place

/-! ## Descriptors -/

namespace Lib

theorem get?_eq_some : l.get? h = some e ↔ l.elfs[h]? = some (some e) := by
  unfold get?
  cases l.elfs[h]? with
  | none => simp
  | some o => simp

theorem lt_of_get? (hget : l.get? h = some e) : h < l.elfs.length :=
  (List.getElem?_eq_some_iff.mp (get?_eq_some.mp hget)).1

theorem get?_set {o : Option Elf} {hs : List (Handle × Nat)} {k : Handle} (hlt : h < l.elfs.length) :
    (Lib.mk (l.elfs.set h o) hs).get? k = if k = h then o else l.get? k := by
  unfold get?
  rw [List.getElem?_set]
  by_cases hk : k = h
  · subst hk
    rw [if_pos rfl, if_pos rfl, if_pos hlt]
    rfl
  · rw [if_neg hk, if_neg (Ne.symm hk)]

theorem get?_add {k : Handle} : (l.add e).get? k = if k = l.new then some e else l.get? k := by
  unfold get? add new
  by_cases hk : k = l.elfs.length
  · rw [if_pos hk, hk]
    simp
  · rw [if_neg hk]
    rcases Nat.lt_or_ge k l.elfs.length with hlt | hge
    · rw [List.getElem?_append_left hlt]
    · have hlen : (l.elfs ++ [some e]).length ≤ k := by
        rw [List.length_append, List.length_singleton]
        exact Nat.lt_of_le_of_ne hge (Ne.symm hk)
      rw [List.getElem?_eq_none hlen, List.getElem?_eq_none hge]

/-! ## The invariant -/

/-- Every member lies in its archive, and so do the headers that were read; a current header describes a range
inside. -/
structure Nested (l : Lib) : Prop where
  placed : ∀ h e, l.get? h = some e → e.Placed
  parent : ∀ h e p, l.get? h = some e → e.parent = some p → p < l.elfs.length
  child : ∀ h e p a, l.get? h = some e → e.parent = some p → l.get? p = some a →
    a.InRange e.startOffset e.maximumSize
  handle : ∀ x ∈ l.headers, x.1 < l.elfs.length
  header : ∀ x ∈ l.headers, ∀ a, l.get? x.1 = some a → a.InRange x.2 arHdrSize
  current : ∀ h e, l.get? h = some e → e.kind = .ar → e.ar.elfArHdr.arName ≠ none → e.Current

theorem nested_empty : Nested empty := by
  have hnone : ∀ {h : Handle} {e : Elf}, empty.get? h ≠ some e := by simp [get?, empty]
  exact ⟨fun _ _ h => absurd h hnone, fun _ _ _ h => absurd h hnone, fun _ _ _ _ h => absurd h hnone, nofun, nofun,
    fun _ _ h => absurd h hnone⟩

/-- The same range of the same image. -/
structure SamePlace (e e' : Elf) : Prop where
  mapAddress : e'.mapAddress = e.mapAddress
  startOffset : e'.startOffset = e.startOffset
  maximumSize : e'.maximumSize = e.maximumSize
  parent : e'.parent = e.parent
  kind : e'.kind = e.kind

theorem SamePlace.inRange (hs : SamePlace e e') {pos len : Nat} : e'.InRange pos len ↔ e.InRange pos len := by
  unfold Elf.InRange
  rw [hs.startOffset, hs.maximumSize]

theorem SamePlace.placed (hs : SamePlace e e') (hp : e.Placed) : e'.Placed := by
  refine ⟨?_, ?_⟩
  · rw [hs.startOffset, hs.maximumSize]
    exact hp.small
  · rw [hs.startOffset, hs.maximumSize, hs.mapAddress]
    exact hp.mapped

/-- One descriptor changes, but for its range, after some headers were read for it. -/
theorem Nested.put (hl : Nested l) (hget : l.get? h = some e) (hs : SamePlace e e') {us : List Nat}
    (hused : ∀ pos ∈ us, e.InRange pos arHdrSize)
    (hcur : e'.kind = .ar → e'.ar.elfArHdr.arName ≠ none → e'.Current) :
    Nested ⟨l.elfs.set h (some e'), l.headers ++ us.map (Prod.mk h)⟩ := by
  have hlt := lt_of_get? hget
  -- what the new state has of a descriptor, the old one had of one at the same place
  have hold : ∀ k a, (Lib.mk (l.elfs.set h (some e')) (l.headers ++ us.map (Prod.mk h))).get? k = some a →
      ∃ b, l.get? k = some b ∧ SamePlace b a ∧ (k = h ∧ a = e' ∨ k ≠ h ∧ a = b) := by
    intro k a ha
    rw [get?_set hlt] at ha
    split at ha
    · next hk =>
      obtain rfl := Option.some.inj ha
      exact ⟨e, by rw [hk]; exact hget, hs, .inl ⟨hk, rfl⟩⟩
    · next hk => exact ⟨a, ha, ⟨rfl, rfl, rfl, rfl, rfl⟩, .inr ⟨hk, rfl⟩⟩
  refine ⟨fun k a ha => ?_, fun k a q ha hq => ?_, fun k a q b ha hq hb => ?_, fun x hx => ?_, fun x hx a ha => ?_,
    fun k a ha hk hname => ?_⟩
  · obtain ⟨b, hb, hsb, -⟩ := hold k a ha
    exact hsb.placed (hl.placed k b hb)
  · obtain ⟨b, hb, hsb, -⟩ := hold k a ha
    rw [List.length_set]
    exact hl.parent k b q hb (hsb.parent ▸ hq)
  · obtain ⟨a', ha', hsa, -⟩ := hold k a ha
    obtain ⟨b', hb', hsb, -⟩ := hold q b hb
    rw [hsb.inRange, hsa.startOffset, hsa.maximumSize]
    exact hl.child k a' q b' ha' (hsa.parent ▸ hq) hb'
  · rw [List.length_set]
    rcases List.mem_append.mp hx with hx | hx
    · exact hl.handle x hx
    · obtain ⟨pos, -, rfl⟩ := List.mem_map.mp hx
      exact hlt
  · obtain ⟨b, hb, hsb, -⟩ := hold _ a ha
    rw [hsb.inRange]
    rcases List.mem_append.mp hx with hx | hx
    · exact hl.header x hx b hb
    · obtain ⟨pos, hpos, rfl⟩ := List.mem_map.mp hx
      obtain rfl := Option.some.inj (hget.symm.trans hb)
      exact hused pos hpos
  · obtain ⟨b, hb, -, ⟨-, rfl⟩ | ⟨-, rfl⟩⟩ := hold k a ha
    · exact hcur hk hname
    · exact hl.current k a hb hk hname

/-- A descriptor changes with no header read. -/
theorem Nested.set (hl : Nested l) (hget : l.get? h = some e) (hs : SamePlace e e')
    (hcur : e'.kind = .ar → e'.ar.elfArHdr.arName ≠ none → e'.Current) : Nested (l.set h (some e')) := by
  have hnone : ∀ pos ∈ ([] : List Nat), e.InRange pos arHdrSize := nofun
  have hput := hl.put hget hs hnone hcur
  rwa [List.map_nil, List.append_nil] at hput

/-- A descriptor is freed. -/
theorem Nested.drop (hl : Nested l) (h : Handle) : Nested (l.set h none) := by
  have hold : ∀ k a, (l.set h none).get? k = some a → l.get? k = some a := by
    intro k a ha
    rcases Nat.lt_or_ge h l.elfs.length with hlt | hge
    · rw [Lib.set, get?_set hlt] at ha
      split at ha
      · cases ha
      · exact ha
    · rw [Lib.set, List.set_eq_of_length_le hge] at ha
      exact ha
  refine ⟨fun k a ha => hl.placed k a (hold k a ha), fun k a q ha hq => ?_,
    fun k a q b ha hq hb => hl.child k a q b (hold k a ha) hq (hold q b hb), fun x hx => ?_,
    fun x hx a ha => hl.header x hx a (hold _ a ha), fun k a ha => hl.current k a (hold k a ha)⟩
  · rw [Lib.set, List.length_set]
    exact hl.parent k a q (hold k a ha) hq
  · rw [Lib.set, List.length_set]
    exact hl.handle x hx

/-- A new descriptor with no current header. -/
theorem Nested.add (hl : Nested l) (hp : e.Placed) (hname : e.ar.elfArHdr.arName = none)
    (hparent : ∀ p, e.parent = some p → ∃ a, l.get? p = some a ∧ a.InRange e.startOffset e.maximumSize) :
    Nested (l.add e) := by
  have hnew : ∀ k a, (l.add e).get? k = some a → k = l.new ∧ a = e ∨ k ≠ l.new ∧ l.get? k = some a := by
    intro k a ha
    rw [get?_add] at ha
    split at ha
    · next hk => exact .inl ⟨hk, (Option.some.inj ha).symm⟩
    · next hk => exact .inr ⟨hk, ha⟩
  have hlen : (l.add e).elfs.length = l.elfs.length + 1 := by simp [Lib.add]
  refine ⟨fun k a ha => ?_, fun k a q ha hq => ?_, fun k a q b ha hq hb => ?_, fun x hx => ?_, fun x hx a ha => ?_,
    fun k a ha hk => ?_⟩
  · rcases hnew k a ha with ⟨-, rfl⟩ | ⟨-, ha⟩
    · exact hp
    · exact hl.placed k a ha
  · rw [hlen]
    rcases hnew k a ha with ⟨-, rfl⟩ | ⟨-, ha⟩
    · obtain ⟨b, hb, -⟩ := hparent q hq
      exact Nat.lt_succ_of_lt (lt_of_get? hb)
    · exact Nat.lt_succ_of_lt (hl.parent k a q ha hq)
  · -- the parent is older than the new descriptor
    have hqlt : q < l.elfs.length := by
      rcases hnew k a ha with ⟨-, rfl⟩ | ⟨-, ha⟩
      · obtain ⟨b, hb, -⟩ := hparent q hq
        exact lt_of_get? hb
      · exact hl.parent k a q ha hq
    have hbold : l.get? q = some b := by
      rcases hnew q b hb with ⟨rfl, -⟩ | ⟨-, hb⟩
      · exact absurd hqlt (lt_irrefl _)
      · exact hb
    rcases hnew k a ha with ⟨-, rfl⟩ | ⟨-, ha⟩
    · obtain ⟨b', hb', hin⟩ := hparent q hq
      obtain rfl := Option.some.inj (hbold.symm.trans hb')
      exact hin
    · exact hl.child k a q b ha hq hbold
  · rw [hlen]
    exact Nat.lt_succ_of_lt (hl.handle x hx)
  · rcases hnew _ a ha with ⟨hk, -⟩ | ⟨-, ha⟩
    · exact absurd (hl.handle x hx) (by rw [hk]; exact lt_irrefl _)
    · exact hl.header x hx a ha
  · rcases hnew k a ha with ⟨-, rfl⟩ | ⟨-, ha⟩
    · exact fun hn => absurd hname hn
    · exact hl.current k a ha hk

end Lib

open Lib (Nested SamePlace)

/-! ## Calls -/

theorem Walked.samePlace (hw : Walked e w) : SamePlace e w.elf := by
  rw [hw.elf]
  exact ⟨rfl, rfl, rfl, rfl, rfl⟩

/-- The rule for a call on an archive. -/
theorem ensures_on {α : Type} {f : Walk → ArCall α} {Q : α → Lib → Prop} {E : Lib → Prop} {F : Fault → Prop}
    (hget : l.get? h = some e)
    (hf : (f ⟨e, []⟩).Ensures
      (fun a w => Q a ⟨l.elfs.set h (some w.elf), l.headers ++ w.used.map (Prod.mk h)⟩)
      (fun w => E ⟨l.elfs.set h (some w.elf), l.headers ++ w.used.map (Prod.mk h)⟩) F) :
    (l.on h f).Ensures Q E F := by
  unfold Lib.on
  rw [hget]
  exact ensures_within hf

/-- The invariant after a call on an archive. -/
theorem Lib.Nested.after (hl : Nested l) (hget : l.get? h = some e) (hw : Walked e w)
    (hcur : w.elf.ar.elfArHdr.arName ≠ none → w.elf.Current) :
    Nested ⟨l.elfs.set h (some w.elf), l.headers ++ w.used.map (Prod.mk h)⟩ :=
  hl.put hget hw.samePlace hw.used fun _ => hcur

/-- The commands with which a reference opened by `ref` is followed. -/
def Cmd.dups (cmd ref : Cmd) : Bool :=
  match cmd with
  | .read | .readMmap => true
  | .readMmapPrivate => ref = .readMmapPrivate
  | .rdwr | .rdwrMmap => ref = .rdwr ∨ ref = .rdwrMmap ∨ ref = .write ∨ ref = .writeMmap
  | .null | .write | .writeMmap => false

/-- The archive in which a call looks for a header, at its position. -/
def ArOp.reads (l : Lib) : ArOp → Option Elf
  | .begin fildes cmd (some h) => (l.get? h).bind fun e =>
    if e.kind = .ar ∧ e.ar.elfArHdr.arName = none ∧ cmd.dups e.cmd ∧
      ¬ (fildes ≠ -1 ∧ e.fildes ≠ -1 ∧ fildes ≠ e.fildes) then some e else none
  | .next h => (l.get? h).bind fun e => e.parent.bind fun p => (l.get? p).map fun a =>
    a.setAr { a.ar with
      offset := wrap (a.ar.offset + arHdrSize + sizeT ((a.ar.elfArHdr.arSize + 1) / 2 * 2)) }
  | .rand h offset => (l.get? h).bind fun e =>
    if e.kind = .ar then some (e.setAr { e.ar with offset := wrap (e.startOffset + offset) }) else none
  | .getarhdr h => (l.get? h).bind fun e => e.parent.bind fun p => (l.get? p).bind fun a =>
    if a.ar.elfArHdr.arName = none then some a else none
  | _ => none

/-- A call after which a header that could not be read stays the current one. -/
def ArOp.peeks : ArOp → Bool
  | .begin .. | .getarhdr _ => true
  | _ => false

/-- A call that looks for headers in the range of the archive; and where it leaves a header that it cannot read, the
size is not to blame. -/
structure ArOp.Sound (env : Env) (l : Lib) (op : ArOp) : Prop where
  guarded : ∀ e, op.reads l = some e → e.Guarded env
  sized : ∀ e, op.reads l = some e → op.peeks → e.HasHeader env e.ar.offset →
    ¬ BadSize (e.headerAt env e.ar.offset)

/-- A header is read at the position of an archive with no current one. -/
theorem nextArhdr_sized (hp : e.Placed) {us : List Nat} (hus : ∀ pos ∈ us, e.InRange pos arHdrSize)
    (hg : e.Guarded env) (hname : e.ar.elfArHdr.arName = none)
    (hsized : e.HasHeader env e.ar.offset → ¬ BadSize (e.headerAt env e.ar.offset)) :
    (nextArhdr env ⟨e, us⟩).Ensures
      (fun _ w => Walked e w ∧ w.elf.Current ∧ w.elf.ar.elfArHdr.arName ≠ none)
      (fun w => Walked e w ∧ w.elf.ar.elfArHdr.arName = none) (fun _ => True) := by
  refine ensures_mono (nextArhdr_current hp hus hg) (fun _ _ h => h) ?_ fun _ _ => trivial
  rintro w ⟨hw, hs | ⟨hhas, hbad⟩⟩
  · exact ⟨hw, hs.name.trans hname⟩
  · exact absurd hbad (hsized hhas)

/-- The rule for a move. -/
theorem moveTo_ensures {pos : Nat} {Q : Unit → Walk → Prop} {E : Walk → Prop} {F : Fault → Prop}
    (hx : (nextArhdr env (w.setAr { w.elf.ar with offset := pos })).Ensures Q
      (fun w => E (w.setHdr { w.elf.ar.elfArHdr with arName := none })) F) :
    (moveTo env pos w).Ensures Q E F := by
  unfold moveTo
  cases hcall : nextArhdr env (w.setAr { w.elf.ar with offset := pos }) with
  | ok _ w' =>
    rw [hcall] at hx
    exact hx
  | err _ w' =>
    rw [hcall] at hx
    exact hx
  | stop f =>
    rw [hcall] at hx
    exact hx

/-- The position moves to another header, or there is no current one. -/
theorem moveTo_nested (hl : Nested l) (hget : l.get? h = some e) {pos : Nat}
    (hg : (e.setAr { e.ar with offset := pos }).Guarded env) :
    (l.on h (moveTo env pos)).Ensures (fun _ => Nested) Nested (fun _ => True) := by
  have hs : SamePlace e (e.setAr { e.ar with offset := pos }) := ⟨rfl, rfl, rfl, rfl, rfl⟩
  -- the moved archive stands for the one before
  have hput : ∀ {w : Walk}, Walked (e.setAr { e.ar with offset := pos }) w →
      (w.elf.ar.elfArHdr.arName ≠ none → w.elf.Current) →
      Nested ⟨l.elfs.set h (some w.elf), l.headers ++ w.used.map (Prod.mk h)⟩ := by
    intro w hw hcur
    have hsame := hw.samePlace
    exact hl.put hget ⟨hsame.mapAddress, hsame.startOffset, hsame.maximumSize, hsame.parent, hsame.kind⟩
      (fun p hp => hs.inRange.mp (hw.used p hp)) fun _ => hcur
  refine ensures_on hget (moveTo_ensures (ensures_mono
    (nextArhdr_current (hs.placed (hl.placed h e hget)) nofun hg) ?_ ?_ fun _ _ => trivial))
  · exact fun _ w hw => hput hw.1 fun _ => hw.2.1
  · exact fun w hw => hput (hw.1.setHdr _) fun hname => absurd rfl hname

/-- A call that returns, with the invariant. -/
theorem ensures_nested {α : Type} {a : α} (hl : Nested l) :
    (.ok a l : LibCall α).Ensures (fun _ => Nested) Nested (fun _ => True) := hl

/-- A descriptor is opened. -/
theorem keep_nested (hl : Nested l) {x : Call Unit}
    (hx : ∀ e, x = .ok () e → e.Placed ∧ e.ar.elfArHdr.arName = none ∧
      ∀ p, e.parent = some p → ∃ a, l.get? p = some a ∧ a.InRange e.startOffset e.maximumSize) :
    (l.keep x).Ensures (fun c l' => Nested l' ∧ ∃ e, x = .ok () e ∧ c = l.new ∧ l' = l.add e) Nested
      (fun _ => True) := by
  cases x with
  | ok _ e =>
    obtain ⟨hp, hname, hparent⟩ := hx e rfl
    exact ⟨hl.add hp hname hparent, e, rfl, rfl, rfl⟩
  | err _ _ => exact hl
  | stop _ => trivial

/-- A member that the current header describes. -/
theorem childOf_nested (hl : Nested l) {fildes : Int} {cmd : Cmd} (hget : l.get? h = some e) (hk : e.kind = .ar)
    (hname : e.ar.elfArHdr.arName ≠ none) :
    (childOf env fildes cmd h l).Ensures (fun _ => Nested) Nested (fun _ => True) := by
  obtain ⟨-, -, hbelow⟩ := hl.current h e hget hk hname
  have hplaced := hl.placed h e hget
  have hpos : wrap (e.ar.offset + arHdrSize) = e.ar.offset + arHdrSize :=
    wrap_of_lt (lt_of_le_of_lt (Nat.le_add_right _ _) (lt_of_le_of_lt hbelow.2
      (lt_trans hplaced.small (by decide))))
  unfold childOf
  rw [hget]
  simp only
  split
  · trivial
  · refine ensures_bind (keep_nested hl ?_) ?_
    · intro e' hopen
      have hplace := readMember_place hopen
      have hstart : e'.startOffset = e.ar.offset + arHdrSize := hplace.startOffset.trans hpos
      have hin : e.InRange e'.startOffset e'.maximumSize := by
        rw [hstart, hplace.maximumSize]
        exact hbelow
      refine ⟨⟨lt_of_le_of_lt hin.2 hplaced.small, fun image himage => ?_⟩, by rw [hplace.ar]; rfl, fun p hp => ?_⟩
      · rw [hplace.mapAddress] at himage
        split at himage
        · exact le_trans hin.2 (hplaced.mapped image himage)
        · cases himage
      · obtain rfl := Option.some.inj (hplace.parent.symm.trans hp)
        exact ⟨e, hget, hin⟩
    · rintro c l' ⟨hl', e', -, -, rfl⟩
      have hget' : (l.add e').get? h = some e := by
        have hne : h ≠ l.new := Nat.ne_of_lt (Lib.lt_of_get? hget)
        rw [Lib.get?_add, if_neg hne]
        exact hget
      exact ensures_nested (hl'.set hget' ⟨rfl, rfl, rfl, rfl, rfl⟩ fun _ hn =>
        hl.current h e hget hk hn)

/-- A reference is followed. -/
theorem dupElf_nested (hl : Nested l) {fildes : Int} {cmd : Cmd} (hget : l.get? h = some e)
    (hdups : cmd.dups e.cmd) (hs : ArOp.Sound env l (.begin fildes cmd (some h))) :
    (dupElf env fildes cmd h l).Ensures (fun _ => Nested) Nested (fun _ => True) := by
  unfold dupElf
  rw [hget]
  simp only
  split
  · exact hl
  · next hfd =>
    split
    · exact hl
    · split
      · exact ensures_nested (hl.set hget ⟨rfl, rfl, rfl, rfl, rfl⟩ fun hk hn => hl.current h e hget hk hn)
      · next hk =>
        rw [not_not] at hk
        refine ensures_bind (Q := fun _ l' => Nested l' ∧ ∃ e', l'.get? h = some e' ∧ e'.kind = .ar ∧
          e'.ar.elfArHdr.arName ≠ none) ?_ fun _ l' ⟨hl', e', hget', hk', hname'⟩ =>
            childOf_nested hl' hget' hk' hname'
        split
        · next hname =>
          have hreads : ArOp.reads l (.begin fildes cmd (some h)) = some e := by
            show (l.get? h).bind _ = _
            rw [hget]
            exact if_pos ⟨hk, hname, hdups, hfd⟩
          refine ensures_on hget (ensures_mono (nextArhdr_sized (hl.placed h e hget) nofun (hs.guarded e hreads) hname
            (hs.sized e hreads rfl)) ?_ ?_ fun _ h => h)
          · rintro _ w ⟨hw, hcur, hn⟩
            refine ⟨hl.after hget hw fun _ => hcur, w.elf, ?_, by rw [hw.samePlace.kind, hk], hn⟩
            rw [Lib.get?_set (Lib.lt_of_get? hget), if_pos rfl]
          · rintro w ⟨hw, hn⟩
            exact hl.after hget hw fun hn' => absurd hn hn'
        · next hname => exact ⟨hl, e, hget, hk, hname⟩

theorem elfBegin_nested (hl : Nested l) {fildes : Int} {cmd : Cmd} {ref : Option Handle}
    (hs : ArOp.Sound env l (.begin fildes cmd ref)) :
    (elfBegin env fildes cmd ref l).Ensures (fun _ => Nested) Nested (fun _ => True) := by
  have hwrite : Nested (l.add (writeFile fildes cmd)) :=
    hl.add ⟨by show 0 + 0 < 2 ^ 63; decide, nofun⟩ rfl nofun
  unfold elfBegin
  cases ref with
  | none =>
    simp only
    split
    · exact hl
    · have hfile : ((l.keep (readFile env fildes cmd)).bind fun h => .ok (some h)).Ensures (fun _ => Nested) Nested
          (fun _ => True) := by
        refine ensures_bind (keep_nested hl fun e hopen => ?_) fun c l' h => ensures_nested h.1
        have hplace := readFile_place hopen
        refine ⟨⟨?_, fun image himage => ?_⟩, by rw [hplace.ar]; rfl, fun p hp => ?_⟩
        · rw [hplace.startOffset, hplace.maximumSize, Nat.zero_add]
          exact (env.file fildes).small
        · rw [hplace.mapAddress] at himage
          rw [hplace.startOffset, hplace.maximumSize, Nat.zero_add]
          split at himage
          · rw [Option.some.inj himage]
          · cases himage
        · rw [hplace.parent] at hp
          cases hp
      cases cmd with
      | null => exact hl
      | write => exact hwrite
      | writeMmap => exact hwrite
      | read => exact hfile
      | rdwr => exact hfile
      | readMmap => exact hfile
      | rdwrMmap => exact hfile
      | readMmapPrivate => exact hfile
  | some h =>
    simp only
    cases hget : l.get? h with
    | none => trivial
    | some e =>
      have hdup (hd : cmd.dups e.cmd) : ((dupElf env fildes cmd h l).bind fun h => .ok (some h)).Ensures
          (fun _ => Nested) Nested (fun _ => True) :=
        ensures_bind (dupElf_nested hl hget hd hs) fun _ _ h => h
      cases cmd with
      | null => exact hl
      | write => exact hwrite
      | writeMmap => exact hwrite
      | read => exact hdup rfl
      | readMmap => exact hdup rfl
      | readMmapPrivate =>
        simp only
        split
        · exact hl
        · next hc => exact hdup (decide_eq_true (not_not.mp hc))
      | rdwr =>
        simp only
        split
        · exact hl
        · next hc => exact hdup (decide_eq_true (by simpa only [not_and_or, not_not] using hc))
      | rdwrMmap =>
        simp only
        split
        · exact hl
        · next hc => exact hdup (decide_eq_true (by simpa only [not_and_or, not_not] using hc))

theorem openMemory_nested (hl : Nested l) (image : Image) :
    (openMemory env image l).Ensures (fun _ => Nested) Nested (fun _ => True) := by
  refine ensures_mono (keep_nested hl fun e hopen => ?_) (fun _ _ h => h.1) (fun _ h => h) fun _ h => h
  have hplace := readMmapedFile_place hopen
  refine ⟨⟨?_, fun image' himage => ?_⟩, by rw [hplace.ar]; rfl, fun p hp => ?_⟩
  · rw [hplace.startOffset, hplace.maximumSize, Nat.zero_add]
    exact image.small
  · rw [hplace.mapAddress] at himage
    rw [hplace.startOffset, hplace.maximumSize, Nat.zero_add, Option.some.inj himage]
  · rw [hplace.parent] at hp
    cases hp

theorem elfNext_nested (hl : Nested l) (hs : ArOp.Sound env l (.next h)) :
    (elfNext env h l).Ensures (fun _ => Nested) Nested (fun _ => True) := by
  unfold elfNext
  cases hget : l.get? h with
  | none => trivial
  | some e =>
    simp only
    cases hparent : e.parent with
    | none => exact hl
    | some p =>
      simp only
      cases hgetp : l.get? p with
      | none => trivial
      | some a =>
        simp only
        split
        · trivial
        · split
          · trivial
          · refine ensures_bind (moveTo_nested hl hgetp (hs.guarded _ ?_)) fun _ _ h => h
            show (l.get? h).bind _ = _
            rw [hget, Option.bind_some, hparent, Option.bind_some, hgetp, Option.map_some]

theorem elfRand_nested (hl : Nested l) {offset : Nat} (hs : ArOp.Sound env l (.rand h offset)) :
    (elfRand env h offset l).Ensures (fun _ => Nested) Nested (fun _ => True) := by
  unfold elfRand
  cases hget : l.get? h with
  | none => trivial
  | some e =>
    simp only
    split
    · exact hl
    · next hk =>
      refine ensures_bind (moveTo_nested hl hget (hs.guarded _ ?_)) fun _ _ h => h
      show (l.get? h).bind _ = _
      rw [hget, Option.bind_some, if_pos (not_not.mp hk)]

theorem elfGetarhdr_nested (hl : Nested l) (hs : ArOp.Sound env l (.getarhdr h)) :
    (elfGetarhdr env h l).Ensures (fun _ => Nested) Nested (fun _ => True) := by
  unfold elfGetarhdr
  cases hget : l.get? h with
  | none => trivial
  | some e =>
    simp only
    cases hparent : e.parent with
    | none => exact hl
    | some p =>
      simp only
      cases hgetp : l.get? p with
      | none => trivial
      | some a =>
        simp only
        split
        · trivial
        · split
          · exact hl
          · next hname =>
            rw [not_not] at hname
            have hreads : ArOp.reads l (.getarhdr h) = some a := by
              show (l.get? h).bind _ = _
              rw [hget, Option.bind_some, hparent, Option.bind_some, hgetp, Option.bind_some, if_pos hname]
            have hplaced := hl.placed p a hgetp
            have hguard := hs.guarded a hreads
            have hsized := hs.sized a hreads rfl
            have hnone : ∀ pos ∈ ([] : List Nat), a.InRange pos arHdrSize := nofun
            have hfirst := nextArhdr_sized hplaced hnone hguard hname hsized
            refine ensures_on hgetp ?_
            cases hcall : nextArhdr env ⟨a, []⟩ with
            | ok _ w =>
              rw [hcall] at hfirst
              exact hl.after hgetp hfirst.1 fun _ => hfirst.2.1
            | err _ w =>
              rw [hcall] at hfirst
              obtain ⟨hw, hn⟩ := hfirst
              -- the second attempt starts where the first one did
              have hlook := hw.samePlace
              have hused : ∀ pos ∈ w.used, w.elf.InRange pos arHdrSize :=
                fun pos hpos => hlook.inRange.mpr (hw.used pos hpos)
              have hagain : w.elf.HasHeader env w.elf.ar.offset →
                  ¬ BadSize (w.elf.headerAt env w.elf.ar.offset) := by
                rw [hw.offset]
                rw [hw.elf]
                exact hsized
              refine ensures_bind (ensures_mono (nextArhdr_sized (hlook.placed hplaced) hused (hguard.after hw) hn
                hagain) (fun _ _ h => h) (fun w' h => ?_) fun _ h => h) fun _ w' h => ?_
              · exact hl.after hgetp (hw.trans h.1) fun hn' => absurd h.2 hn'
              · exact hl.after hgetp (hw.trans h.1) fun _ => h.2.1
            | stop f => trivial

/-- A descriptor is freed, and unlinked from its archive. -/
theorem free_nested (hl : Nested l) (h : Handle) (e : Elf) : Nested (free h e l) := by
  unfold free
  cases e.parent with
  | none => exact hl.drop h
  | some p =>
    simp only
    cases hgetp : l.get? p with
    | none => exact hl.drop h
    | some a =>
      have hunlinked : Nested (l.set p (some (a.setAr { a.ar with children := a.ar.children.erase h }))) :=
        hl.set hgetp ⟨rfl, rfl, rfl, rfl, rfl⟩ fun hk hn => hl.current p a hgetp hk hn
      exact hunlinked.drop h

theorem endAt_nested (depth : Nat) : ∀ {h : Handle} {l : Lib}, Nested l →
    (endAt depth h l).Ensures (fun _ => Nested) Nested (fun _ => True) := by
  induction depth with
  | zero => exact fun _ => trivial
  | succ depth ih =>
    intro h l hl
    unfold endAt
    cases hget : l.get? h with
    | none => trivial
    | some e =>
      simp only
      split
      · exact ensures_nested (hl.set hget ⟨rfl, rfl, rfl, rfl, rfl⟩ fun hk hn => hl.current h e hget hk hn)
      · split
        · exact ensures_nested (hl.set hget ⟨rfl, rfl, rfl, rfl, rfl⟩ fun hk hn => hl.current h e hget hk hn)
        · have hfree := free_nested hl h e
          cases e.parent with
          | none => exact hfree
          | some p =>
            simp only
            cases (free h e l).get? p with
            | none => trivial
            | some a =>
              simp only
              split
              · exact ih hfree
              · exact hfree

/-- A call that looks for headers where it should keeps every member and every header inside its archive. -/
theorem step_nested {op : ArOp} {l' : Lib} (hl : Nested l) (hs : op.Sound env l) (hstep : op.step env l = .ok l') :
    Nested l' := by
  have hnext : ∀ {α : Type} {x : LibCall α}, x.Ensures (fun _ => Nested) Nested (fun _ => True) →
      x.next = .ok l' → Nested l' := fun hx h => (ensures_next hx).1 l' h
  cases op with
  | begin fildes cmd ref => exact hnext (elfBegin_nested hl hs) hstep
  | memory image => exact hnext (openMemory_nested hl image) hstep
  | next h => exact hnext (elfNext_nested hl hs) hstep
  | rand h offset => exact hnext (elfRand_nested hl hs) hstep
  | getarhdr h => exact hnext (elfGetarhdr_nested hl hs) hstep
  | «end» h => exact hnext (endAt_nested _ hl) hstep

/-- **In a run of such calls** every member and every header that was read lie inside their archive. -/
theorem run_nested (ops : List ArOp) {l' : Lib} (hs : Along (ArOp.step env) (fun l op => op.Sound env l) Lib.empty ops)
    (hrun : runOps (ArOp.step env) Lib.empty ops = .ok l') : Nested l' :=
  runOps_inv_along ops (fun _ _ _ _ hl hop hstep => step_nested hl hop hstep) Lib.empty l' Lib.nested_empty hs hrun

/-- The header that a call looks for is inside of the archive, has a size, and no name in the table of long names. -/
def ArOp.Plain (env : Env) (l : Lib) (op : ArOp) : Prop :=
  ∀ e ∈ op.reads l, e.HasHeader env e.ar.offset → e.InRange e.ar.offset arHdrSize ∧
    ¬ ((e.headerAt env e.ar.offset).getD 0 0 = 0x2F ∧ isDigit ((e.headerAt env e.ar.offset).getD 1 0) = true) ∧
    (e.headerAt env e.ar.offset).getD 48 0 ≠ 0x20 ∧ ∀ n ∈ intField (e.headerAt env e.ar.offset) 48 10, 0 ≤ n

instance (env : Env) (l : Lib) (op : ArOp) : Decidable (op.Plain env l) := by
  unfold ArOp.Plain
  infer_instance

theorem ArOp.Plain.sound {op : ArOp} (h : op.Plain env l) : op.Sound env l := by
  refine ⟨fun e he => ⟨fun hhas => (h e he hhas).1, fun hhas hlong => absurd hlong (h e he hhas).2.1⟩, ?_⟩
  rintro e he - hhas ⟨-, hblank | ⟨n, hn, hneg⟩⟩
  · exact (h e he hhas).2.2.1 hblank
  · exact absurd ((h e he hhas).2.2.2 n hn) (Int.not_le.mpr hneg)

/-- A member with an archive in it, and one behind it. -/
def archiveInside : Image :=
  let hdr (name size : List UInt8) : List UInt8 :=
    padName name ++ List.replicate 32 0x20 ++ size ++ List.replicate (10 - size.length) 0x20 ++ arfmag
  .ofBytes (armag ++ hdr [0x61, 0x2F] [0x37, 0x30] ++ (armag ++ hdr [0x62, 0x2F] [0x32] ++ [1, 2]) ++
    hdr [0x63, 0x2F] [0x31] ++ [3]) (by decide +kernel)

/-- The archive in memory, its first member and the member of that, and the next one. -/
def insideOps : List ArOp :=
  [.memory archiveInside, .begin (-1) .readMmap (some 0), .begin (-1) .readMmap (some 1), .getarhdr 2, .end 2, .next 1, .end 1,
    .begin (-1) .readMmap (some 0)]

set_option maxRecDepth 4000 in
theorem run_nested_inside : ∃ l, runOps (ArOp.step (plainEnv archiveInside)) Lib.empty insideOps = .ok l ∧
    (l.get? 3).map (fun e => (e.startOffset, e.maximumSize)) = some (198, 1) ∧
    l.headers = [(0, 8), (1, 76), (0, 138)] ∧ Nested l := by
  have hplain : Along (ArOp.step (plainEnv archiveInside)) (fun l op => op.Plain (plainEnv archiveInside) l) Lib.empty
      insideOps := by decide +kernel
  have hrun : ∃ l, runOps (ArOp.step (plainEnv archiveInside)) Lib.empty insideOps = .ok l ∧
      (l.get? 3).map (fun e => (e.startOffset, e.maximumSize)) = some (198, 1) ∧
      l.headers = [(0, 8), (1, 76), (0, 138)] := ⟨_, rfl, by decide +kernel, by decide +kernel⟩
  obtain ⟨l, hops, hplace, hheaders⟩ := hrun
  exact ⟨l, hops, hplace, hheaders, run_nested _ (Along.mono (fun _ _ h => h.sound) _ _ hplain) hops⟩

end LibElf.Elfutils
