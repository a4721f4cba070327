import LibElf.Elfutils.Books

/-!
# The life cycle of a descriptor

In whatever order descriptors are opened and closed, an archive lists its members, a descriptor is freed when it is
no longer needed, and the mapping of a file goes with the last descriptor that reads from it.

1. One lemma for each call, with `Heap.endAt_books` for the walk along the parents.
2. `Heap.run_lib`, which says that the calls without the books are those of `Archives.lean`, and
   `descriptor_life_cycle` for every run.
-/

namespace LibElf.Elfutils

open Outcome
open Lib (SamePlace)

variable {env : Env} {e e' a a' c ref : Elf} {w w' : Walk} {l : Lib} {h n p : Handle}

namespace Heap

variable {H : Heap} {x x' : Option Handle} {hs : List (Handle × Nat)}

/-! ## Calls -/

/-- The rule for a call on an archive. -/
theorem Books.on {α : Type} (hb : Books x H) {f : Walk → ArCall α} (hget : H.lib.get? p = some a)
    (hf : Walks a (f ⟨a, []⟩)) :
    (H.lib.on p f).Ensures (fun _ l => Books x (H.withLib l) ∧ ∃ a', l.get? p = some a' ∧ a.Moved a')
      (fun l => Books x (H.withLib l)) fun _ => True := by
  have hafter : ∀ w : Walk, a.Moved w.elf →
      Books x (H.withLib ⟨H.lib.elfs.set p (some w.elf), H.lib.headers ++ w.used.map (Prod.mk p)⟩) := by
    intro w hm
    refine hb.assign hget hm.samePlace hm.children (fun _ _ h => h) fun hx hzero => ?_
    rw [hm.samePlace.kind, hm.children]
    exact hb.counted p a hx hget (hm.refCount.symm.trans hzero)
  refine ensures_on hget (ensures_mono hf (fun _ w hm => ?_) (fun w hm => hafter w hm) fun _ h => h)
  refine ⟨hafter w hm, w.elf, ?_, hm⟩
  rw [Lib.get?_set (Lib.lt_of_get? hget), if_pos rfl]

theorem Books.moveTo (hb : Books x H) (hget : H.lib.get? p = some a) {pos : Nat} :
    (H.lib.on p (moveTo env pos)).Ensures (fun _ l => Books x (H.withLib l)) (fun l => Books x (H.withLib l))
      fun _ => True :=
  ensures_mono (hb.on hget (walks_moveTo .refl)) (fun _ _ h => h.1) (fun _ h => h) fun _ h => h

theorem elfNext_books (hb : Books x H) :
    (elfNext env h H.lib).Ensures (fun _ l => Books x (H.withLib l)) (fun l => Books x (H.withLib l)) fun _ => True := by
  unfold elfNext
  cases H.lib.get? h with
  | none => trivial
  | some e =>
    simp only
    cases e.parent with
    | none => exact hb
    | some p =>
      simp only
      cases hgetp : H.lib.get? p with
      | none => trivial
      | some a =>
        simp only
        split
        · trivial
        · split
          · trivial
          · exact ensures_bind (hb.moveTo hgetp) fun _ _ h => h

theorem elfRand_books (hb : Books x H) {offset : Nat} :
    (elfRand env h offset H.lib).Ensures (fun _ l => Books x (H.withLib l)) (fun l => Books x (H.withLib l))
      fun _ => True := by
  unfold elfRand
  cases hget : H.lib.get? h with
  | none => trivial
  | some e =>
    simp only
    split
    · exact hb
    · exact ensures_bind (hb.moveTo hget) fun _ _ h => h

theorem elfGetarhdr_books (hb : Books x H) :
    (elfGetarhdr env h H.lib).Ensures (fun _ l => Books x (H.withLib l)) (fun l => Books x (H.withLib l))
      fun _ => True := by
  unfold elfGetarhdr
  cases H.lib.get? h with
  | none => trivial
  | some e =>
    simp only
    cases e.parent with
    | none => exact hb
    | some p =>
      simp only
      cases hgetp : H.lib.get? p with
      | none => trivial
      | some a =>
        simp only
        split
        · trivial
        · split
          · exact hb
          · refine ensures_mono (hb.on hgetp ?_) (fun _ _ h => h.1) (fun _ h => h) fun _ h => h
            have hfirst := @walks_nextArhdr env a ⟨a, []⟩ .refl
            unfold Walks at hfirst
            cases hcall : nextArhdr env ⟨a, []⟩ with
            | ok _ w =>
              rw [hcall] at hfirst
              exact hfirst
            | err _ w =>
              -- it is tried once more from where the first attempt came to
              rw [hcall] at hfirst
              exact walks_bind (walks_nextArhdr hfirst) fun _ _ hm => hm
            | stop f => trivial

theorem children_of_place {map : Option Image} {fildes : Int} {offset maxsize : Nat} {cmd : Cmd} {parent : Option Handle}
    (hp : e.Place map fildes offset maxsize cmd parent) : e.ar.children = [] := by
  rw [hp.ar]

theorem refCount_of_place {map : Option Image} {fildes : Int} {offset maxsize : Nat} {cmd : Cmd} {parent : Option Handle}
    (hp : e.Place map fildes offset maxsize cmd parent) : e.refCount ≠ 0 := by
  rw [hp.refCount]
  exact one_ne_zero

/-- A descriptor without a parent and without a mapping is opened. -/
theorem keep_books (hb : Books x H) {y : Call Unit}
    (hy : ∀ e, y = .ok () e → e.parent = none ∧ e.ar.children = [] ∧ e.refCount ≠ 0) :
    (H.keep none y).Ensures (fun _ => Books x) (Books x) fun _ => True := by
  cases y with
  | ok _ e =>
    obtain ⟨hparent, hnil, hcount⟩ := hy e rfl
    exact hb.root hparent hnil hcount (.inl ⟨rfl, rfl⟩)
  | err _ _ => exact hb
  | stop _ => trivial

theorem openFile_books (hb : Books x H) {fildes : Int} {cmd : Cmd} :
    (openFile env fildes cmd H).Ensures (fun _ => Books x) (Books x) fun _ => True := by
  unfold openFile
  extract_lets size m
  split
  · cases hopen : readMmapedFile env fildes (env.file fildes) 0 size cmd none with
    | ok _ e =>
      have hplace := readMmapedFile_place hopen
      refine hb.root hplace.parent (children_of_place hplace) (refCount_of_place hplace) (.inr ⟨rfl, ?_, ?_⟩)
      · rw [hplace.maximumSize]
        rfl
      · rw [hplace.mapAddress]
        rfl
    | err _ _ => exact hb.undo size
    | stop _ => trivial
  · refine keep_books hb fun e hopen => ?_
    have hplace := readUnmmapedFile_place hopen
    exact ⟨hplace.parent, children_of_place hplace, refCount_of_place hplace⟩

theorem childOf_books (hb : Books x H) {fildes : Int} {cmd : Cmd} (hget : H.lib.get? p = some a) (hk : a.kind = .ar) :
    (childOf env fildes cmd p H).Ensures (fun _ => Books x) (Books x) fun _ => True := by
  unfold childOf
  rw [hget]
  simp only
  split
  · trivial
  · cases hopen : readMember env fildes (wrap (a.ar.offset + arHdrSize)) (sizeT a.ar.elfArHdr.arSize) cmd p a with
    | ok _ e =>
      have hplace := readMember_place hopen
      refine hb.child hget hk hplace.parent (children_of_place hplace) (refCount_of_place hplace) fun j hj => ?_
      unfold memberMap at hj
      split at hj
      · exact hj
      · cases hj
    | err _ _ => exact hb
    | stop _ => trivial

theorem dupElf_books (hb : Books x H) {fildes : Int} {cmd : Cmd} :
    (dupElf env fildes cmd h H).Ensures (fun _ => Books x) (Books x) fun _ => True := by
  unfold dupElf
  cases hget : H.lib.get? h with
  | none => trivial
  | some ref =>
    simp only
    split
    · exact hb
    · split
      · exact hb
      · split
        · exact hb.assign hget ⟨rfl, rfl, rfl, rfl, rfl⟩ rfl (fun _ _ h => h) fun _ hzero =>
            absurd hzero (Nat.succ_ne_zero _)
        · next hk =>
          rw [not_not] at hk
          refine ensures_bind (Q := fun _ H' => Books x H' ∧ ∃ a, H'.lib.get? h = some a ∧ a.kind = .ar) ?_
            fun _ H' ⟨hb', a, hget', hk'⟩ => childOf_books hb' hget' hk'
          split
          · refine ensures_within (ensures_mono (hb.on hget (walks_nextArhdr .refl)) ?_ (fun _ h => h) fun _ h => h)
            rintro _ l ⟨hb', a, hget', hm⟩
            exact ⟨hb', a, hget', hm.samePlace.kind.trans hk⟩
          · exact ⟨hb, ref, hget, hk⟩

theorem elfBegin_books (hb : Books x H) {fildes : Int} {cmd : Cmd} {r : Option Handle} :
    (elfBegin env fildes cmd r H).Ensures (fun _ => Books x) (Books x) fun _ => True := by
  have hwrite : Books x (H.add none (writeFile fildes cmd)) := hb.root rfl rfl one_ne_zero (.inl ⟨rfl, rfl⟩)
  unfold elfBegin
  cases r with
  | none =>
    have hfile : ((openFile env fildes cmd H).bind fun h => .ok (some h)).Ensures (fun _ => Books x) (Books x)
        fun _ => True := ensures_bind (openFile_books hb) fun _ _ h => h
    simp only
    split
    · exact hb
    · cases cmd with
      | null => exact hb
      | write => exact hwrite
      | writeMmap => exact hwrite
      | read => exact hfile
      | rdwr => exact hfile
      | readMmap => exact hfile
      | rdwrMmap => exact hfile
      | readMmapPrivate => exact hfile
  | some h =>
    have hdup : ((dupElf env fildes cmd h H).bind fun h => .ok (some h)).Ensures (fun _ => Books x) (Books x)
        fun _ => True := ensures_bind (dupElf_books hb) fun _ _ h => h
    simp only
    cases H.lib.get? h with
    | none => trivial
    | some e =>
      cases cmd with
      | null => exact hb
      | write => exact hwrite
      | writeMmap => exact hwrite
      | read => exact hdup
      | readMmap => exact hdup
      | readMmapPrivate | rdwr | rdwrMmap =>
        simp only
        split
        · exact hb
        · exact hdup

/-! ## The end of a descriptor -/

/-- What a descriptor leaves over that was found without users and without members: its parent, perhaps. -/
theorem Books.settle (hb : Books (some p) H) (hcount : ∀ a, H.lib.get? p = some a → a.refCount = 0 →
    a.kind = .ar ∧ a.ar.children ≠ []) : Books none H := by
  refine ⟨hb.linked, hb.ar, fun k d _ hd hzero => ?_, hb.maps, hb.ledger, hb.released⟩
  by_cases hk : k = p
  · subst hk
    exact hcount d hd hzero
  · exact hb.counted k d (fun heq => hk (Option.some.inj heq).symm) hd hzero

/-- Only an archive has children. -/
theorem Books.children_eq_nil (hb : Books x H) (hget : H.lib.get? h = some e) (hk : ¬ (e.kind = .ar ∧ e.ar.children ≠ [])) :
    e.ar.children = [] := by
  by_contra hne
  obtain ⟨k, hk'⟩ := List.exists_mem_of_ne_nil _ hne
  obtain ⟨c, hc, hp⟩ := (hb.linked.mem h e hget k).mp hk'
  exact hk ⟨hb.ar k c h e hc hp hget, hne⟩

theorem unmapFile_lib : (unmapFile h e H).lib = H.lib := by
  unfold unmapFile
  split
  · split
    · rfl
    · rfl
  · rfl

/-- Without the books the counter need not be stored before the descriptor is freed. -/
theorem free_set (hlt : h < l.elfs.length) (hne : e.parent ≠ some h) {o : Option Elf} :
    free h e (l.set h o) = free h e l := by
  have hset : (l.set h o).set h none = l.set h none := by
    unfold Lib.set
    rw [List.set_set]
  unfold free
  cases hparent : e.parent with
  | none => exact hset
  | some p =>
    have hp : p ≠ h := by
      rintro rfl
      exact hne hparent
    have hget : (l.set h o).get? p = l.get? p := by
      rw [Lib.set, Lib.get?_set hlt, if_neg hp]
    simp only
    rw [hget]
    cases l.get? p with
    | none => exact hset
    | some a =>
      simp only [Lib.set]
      rw [List.set_comm _ _ (Ne.symm hp), List.set_set]

/-- `elf_end` without the books, by the counter that it leaves. -/
theorem lib_endAt (depth : Nat) (hget : l.get? h = some ref) (hne : ref.parent ≠ some h) :
    Elfutils.endAt (depth + 1) h l =
      if ref.deactivate.refCount ≠ 0 then .ok ref.deactivate.refCount (l.set h (some ref.deactivate))
      else if ref.deactivate.kind = .ar ∧ ref.deactivate.ar.children ≠ [] then .ok 0 (l.set h (some ref.deactivate))
      else
        match ref.deactivate.parent with
        | none => .ok 0 (free h ref.deactivate (l.set h (some ref.deactivate)))
        | some p =>
          match (free h ref.deactivate (l.set h (some ref.deactivate))).get? p with
          | none => .stop .null
          | some parent =>
            if parent.refCount = 0 then
              Elfutils.endAt depth p (free h ref.deactivate (l.set h (some ref.deactivate)))
            else .ok 0 (free h ref.deactivate (l.set h (some ref.deactivate))) := by
  have hfree : free h ref.deactivate (l.set h (some ref.deactivate)) = free h ref l :=
    free_set (Lib.lt_of_get? hget) hne
  have hcount : (1 < ref.refCount) = (ref.deactivate.refCount ≠ 0) := by
    rw [← Nat.pos_iff_ne_zero, Elf.deactivate, Nat.sub_pos_iff_lt]
  rw [hfree, Elfutils.endAt, hget]
  simp only [hcount]
  split
  · rfl
  · next hzero =>
    have hset : ({ ref with refCount := 0 } : Elf) = ref.deactivate := by
      rw [not_not] at hzero
      rw [← hzero]
      rfl
    rw [hset]
    rfl

/-- `elf_end` of a descriptor that is there returns, as it does without the books. -/
theorem endAt_books (depth : Nat) : ∀ {h : Handle} {e : Elf} {H : Heap}, Books (some h) H → H.lib.get? h = some e →
    h < depth → ∃ n H', endAt depth h H = .ok n H' ∧ Books none H' ∧ Elfutils.endAt depth h H.lib = .ok n H'.lib := by
  induction depth with
  | zero => exact fun _ _ hlt => absurd hlt (Nat.not_lt_zero _)
  | succ depth ih =>
    intro h ref H hb hget hlt
    have hplace : SamePlace ref ref.deactivate := ⟨rfl, rfl, rfl, rfl, rfl⟩
    have hself : ref.parent ≠ some h := fun hp => lt_irrefl h (hb.linked.parent h ref h hget hp).1
    have hb' : Books (some h) (H.put h ref.deactivate) :=
      hb.assign hget hplace rfl (fun _ _ h => h) fun hne => absurd rfl hne
    have hget' : (H.put h ref.deactivate).lib.get? h = some ref.deactivate := by
      show (Lib.mk _ _).get? h = _
      rw [Lib.get?_set (Lib.lt_of_get? hget), if_pos rfl]
    rw [lib_endAt depth hget hself, endAt, hget]
    simp only
    have hlib : H.lib.set h (some ref.deactivate) = (H.put h ref.deactivate).lib := rfl
    rw [hlib]
    generalize ref.deactivate = e at hb' hget' ⊢
    generalize H.put h e = H₁ at hb' hget' ⊢
    split
    · next hcount =>
      refine ⟨_, _, rfl, hb'.settle fun a ha hzero => ?_, rfl⟩
      cases hget'.symm.trans ha
      exact absurd hzero hcount
    · next hcount =>
      rw [not_not] at hcount
      split
      · next hstay =>
        refine ⟨_, _, rfl, hb'.settle fun a ha _ => ?_, rfl⟩
        cases hget'.symm.trans ha
        exact hstay
      · next hstay =>
        have hnil := hb'.children_eq_nil hget' hstay
        unfold unlinkFrom free
        cases hparent : e.parent with
        | none =>
          refine ⟨_, _, rfl, hb'.dropRoot hget' hparent ⟨hcount, hnil⟩, ?_⟩
          show Outcome.ok 0 (H₁.lib.set h none) = .ok 0 ((unmapFile h e H₁).lib.set h none)
          rw [unmapFile_lib]
        | some p =>
          obtain ⟨hplt, a, ha⟩ := hb'.linked.parent h e p hget' hparent
          have hmem : h ∈ a.ar.children := hb'.linked.mem_children hget' hparent ha
          have hdrop := hb'.dropChild hget' hparent ⟨hcount, hnil⟩ ha
          have hlib : ((unmapFile h e (H₁.put p (a.setAr { a.ar with children := a.ar.children.erase h }))).release h
              e).lib = (H₁.lib.set p (some (a.setAr { a.ar with children := a.ar.children.erase h }))).set h none := by
            show (unmapFile h e _).lib.set h none = _
            rw [unmapFile_lib]
            rfl
          -- the parent is found again
          have hgetp : ((H₁.lib.set p (some (a.setAr { a.ar with children := a.ar.children.erase h }))).set h
              none).get? p = some (a.setAr { a.ar with children := a.ar.children.erase h }) := by
            rw [Lib.set, Lib.get?_set, if_neg (Nat.ne_of_lt hplt)]
            · rw [Lib.set, Lib.get?_set (Lib.lt_of_get? ha), if_pos rfl]
            · rw [Lib.set, List.length_set]
              exact Lib.lt_of_get? hget'
          simp only [ha, unlink_eq_erase hmem, bind_ok, hlib, hgetp]
          split
          · rw [← hlib]
            exact ih hdrop (hlib ▸ hgetp) (Nat.lt_of_lt_of_le hplt (Nat.le_of_lt_succ hlt))
          · next hne =>
            refine ⟨_, _, rfl, hdrop.settle fun b hb hzero => ?_, by rw [hlib]⟩
            rw [hlib, hgetp] at hb
            cases hb
            exact absurd hzero hne

theorem elfEnd_null (hget : H.lib.get? h = none) : elfEnd h H = .stop .null := by
  unfold elfEnd endAt
  rw [hget]

theorem elfEnd_books (hb : Books none H) (hget : H.lib.get? h = some e) :
    ∃ n H', elfEnd h H = .ok n H' ∧ Books none H' ∧ Elfutils.elfEnd h H.lib = .ok n H'.lib := by
  have hb' : Books (some h) H := ⟨hb.linked, hb.ar, fun k d _ => hb.counted k d nofun, hb.maps, hb.ledger, hb.released⟩
  exact endAt_books (h + 1) hb' hget (Nat.lt_succ_self h)

/-- One call keeps the books. -/
theorem step_books (hb : Books none H) {op : ArOp} {H' : Heap} (hstep : op.heapStep env H = .ok H') :
    Books none H' := by
  have hnext : ∀ {α : Type} {y : HeapCall α}, y.Ensures (fun _ => Books none) (Books none) (fun _ => True) →
      y.next = .ok H' → Books none H' := fun hy h => (ensures_next hy).1 H' h
  have hlib : ∀ {α : Type} {y : LibCall α}, y.Ensures (fun _ l => Books none (H.withLib l))
      (fun l => Books none (H.withLib l)) (fun _ => True) → (H.inLib y).next = .ok H' → Books none H' :=
    fun hy h => hnext (ensures_within hy) h
  cases op with
  | begin fildes cmd ref => exact hnext (elfBegin_books hb) hstep
  | memory image =>
    refine hnext (keep_books hb fun e hopen => ?_) hstep
    have hplace := readMmapedFile_place hopen
    exact ⟨hplace.parent, children_of_place hplace, refCount_of_place hplace⟩
  | next h => exact hlib (elfNext_books hb) hstep
  | rand h offset => exact hlib (elfRand_books hb) hstep
  | getarhdr h => exact hlib (elfGetarhdr_books hb) hstep
  | «end» h =>
    have hend : (elfEnd h H).next = .ok H' := hstep
    cases hget : H.lib.get? h with
    | none =>
      rw [elfEnd_null hget] at hend
      cases hend
    | some e =>
      obtain ⟨n, H'', hrun, hb', -⟩ := elfEnd_books hb hget
      rw [hrun] at hend
      cases hend
      exact hb'

/-! ## Without the books -/

theorem inLib_lib {α : Type} {y : LibCall α} : (H.inLib y).within lib = y := by
  cases y <;> rfl

theorem keep_lib {m : Option Nat} {y : Call Unit} : (H.keep m y).within lib = H.lib.keep y := by
  cases y <;> rfl

theorem openFile_lib {fildes : Int} {cmd : Cmd} :
    (openFile env fildes cmd H).within lib = H.lib.keep (readFile env fildes cmd) := by
  unfold openFile readFile
  extract_lets size m
  split
  · cases readMmapedFile env fildes (env.file fildes) 0 size cmd none <;> rfl
  · exact keep_lib

theorem childOf_lib {fildes : Int} {cmd : Cmd} :
    (childOf env fildes cmd h H).within lib = Elfutils.childOf env fildes cmd h H.lib := by
  unfold childOf Elfutils.childOf
  cases H.lib.get? h with
  | none => rfl
  | some ref =>
    simp only
    split
    · rfl
    · rw [← @keep_lib H (H.memberMap cmd h ref)]
      exact within_bind fun _ _ => rfl

theorem dupElf_lib {fildes : Int} {cmd : Cmd} :
    (dupElf env fildes cmd h H).within lib = Elfutils.dupElf env fildes cmd h H.lib := by
  unfold dupElf Elfutils.dupElf
  cases H.lib.get? h with
  | none => rfl
  | some ref =>
    simp only
    split
    · rfl
    · split
      · rfl
      · split
        · rfl
        · rw [within_bind fun _ _ => childOf_lib]
          congr 1
          split
          · exact inLib_lib
          · rfl

theorem elfBegin_lib {fildes : Int} {cmd : Cmd} {r : Option Handle} :
    (elfBegin env fildes cmd r H).within lib = Elfutils.elfBegin env fildes cmd r H.lib := by
  unfold elfBegin Elfutils.elfBegin
  cases r with
  | none =>
    have hfile : ((openFile env fildes cmd H).bind fun h => .ok (some h)).within lib =
        (H.lib.keep (readFile env fildes cmd)).bind fun h => .ok (some h) := by
      rw [← openFile_lib]
      exact within_bind fun _ _ => rfl
    simp only
    split
    · rfl
    · cases cmd with
      | null | write | writeMmap => rfl
      | read | rdwr | readMmap | rdwrMmap | readMmapPrivate => exact hfile
  | some h =>
    have hdup : ((dupElf env fildes cmd h H).bind fun h => .ok (some h)).within lib =
        (Elfutils.dupElf env fildes cmd h H.lib).bind fun h => .ok (some h) := by
      rw [← dupElf_lib]
      exact within_bind fun _ _ => rfl
    simp only
    cases H.lib.get? h with
    | none => rfl
    | some e =>
      cases cmd with
      | null | write | writeMmap => rfl
      | read | readMmap => exact hdup
      | readMmapPrivate | rdwr | rdwrMmap =>
        simp only
        split
        · rfl
        · exact hdup

/-- A call with books is the call without them. -/
theorem step_lib (hb : Books none H) (op : ArOp) : op.step env H.lib = (op.heapStep env H).map lib := by
  cases op with
  | begin fildes cmd ref =>
    show (Elfutils.elfBegin env fildes cmd ref H.lib).next = (elfBegin env fildes cmd ref H).next.map lib
    rw [← next_within, elfBegin_lib]
  | memory image =>
    show (H.lib.keep (elfMemory env image)).next = (H.keep none (elfMemory env image)).next.map lib
    rw [← next_within, keep_lib]
  | next h => exact (by rw [← next_within, inLib_lib] : _ = (H.inLib (elfNext env h H.lib)).next.map lib)
  | rand h offset => exact (by rw [← next_within, inLib_lib] : _ = (H.inLib (elfRand env h offset H.lib)).next.map lib)
  | getarhdr h => exact (by rw [← next_within, inLib_lib] : _ = (H.inLib (elfGetarhdr env h H.lib)).next.map lib)
  | «end» h =>
    show (Elfutils.elfEnd h H.lib).next = (elfEnd h H).next.map lib
    cases hget : H.lib.get? h with
    | none =>
      rw [elfEnd_null hget, Elfutils.elfEnd, Elfutils.endAt, hget]
      rfl
    | some e =>
      obtain ⟨n, H', hend, -, hlib⟩ := elfEnd_books hb hget
      rw [hend, hlib]
      rfl

/-- A run with books is the run without them. -/
theorem run_lib (ops : List ArOp) : runOps (ArOp.step env) Lib.empty ops =
    (runOps (ArOp.heapStep env) Heap.empty ops).map lib :=
  runOps_part (fun _ _ _ hb h => step_books hb h) (fun _ op hb => step_lib hb op) ops Heap.empty Books.empty

end Heap

/-! ## Every run -/

/-- What is true of the descriptors and the mappings at any time. -/
structure Heap.LifeCycle (H : Heap) : Prop where
  children : ∀ p a, H.lib.get? p = some a → a.ar.children.Nodup ∧
    ∀ h, h ∈ a.ar.children ↔ ∃ c, H.lib.get? h = some c ∧ c.parent = some p
  freed : (H.freed.map Prod.fst).Nodup ∧ ∀ h, h ∈ H.freed.map Prod.fst ↔ h < H.lib.elfs.length ∧ H.lib.get? h = none
  idle : ∀ f ∈ H.freed, f.2.refCount = 0 ∧ f.2.ar.children = []
  needed : ∀ h e, H.lib.get? h = some e → e.refCount = 0 → e.kind = .ar ∧ e.ar.children ≠ []
  parent : ∀ h e p, H.lib.get? h = some e → e.parent = some p → ∃ a, H.lib.get? p = some a
  mapped : ∀ m k, H.mapped[m]? = some k →
    (k.undone = [] ∧ ∃ h e, H.lib.get? h = some e ∧ H.mapOf h = some m) ∨
    (k.undone = [k.length] ∧ ∀ h e, H.lib.get? h = some e → H.mapOf h ≠ some m)
  ends : ∀ h e, H.lib.get? h = some e → ∃ n H', Heap.elfEnd h H = .ok n H'

theorem Heap.Books.lifeCycle {H : Heap} (hb : Books none H) : LifeCycle H where
  children p a ha := ⟨hb.linked.nodup p a ha, hb.linked.mem p a ha⟩
  freed := ⟨hb.released.nodup, hb.released.mem⟩
  idle := hb.released.idle
  needed h e := hb.counted h e nofun
  parent h e p he hp := (hb.linked.parent h e p he hp).2
  mapped m k hk := by
    rcases hb.ledger.settled m k hk with ⟨hopen, h, e, he, -, hm⟩ | hundone
    · exact .inl ⟨hopen, h, e, he, hm⟩
    · refine .inr ⟨hundone, fun h e he hm => ?_⟩
      -- a user has an owner, whose mapping is still there
      obtain ⟨r, b, hget, hroot, hr⟩ := hb.linked.owner hb.ledger.shared h e he hm
      obtain ⟨hmade, -⟩ := hb.ledger.made r b m hget hroot hr
      rw [Option.some.inj (hk.symm.trans hmade)] at hundone
      cases hundone
  ends h e he := by
    obtain ⟨n, H', hend, -⟩ := elfEnd_books hb he
    exact ⟨n, H', hend⟩

/-- In every state that calls lead to, in whatever order descriptors are opened, duplicated and closed, an archive
lists its members, whoever is needed is there, and nothing is given back twice. -/
theorem descriptor_life_cycle {ops : List ArOp} {H : Heap}
    (hrun : runOps (ArOp.heapStep env) Heap.empty ops = .ok H) : H.LifeCycle :=
  (@runOps_inv _ _ _ (Heap.Books none) (fun _ => True) (fun _ _ _ hb h => Heap.step_books hb h)
    (fun _ _ _ _ _ => trivial) ops _ Heap.Books.empty).1 H hrun |>.lifeCycle

/-- The header of a member `b`; the two digits are its size. -/
def memberHeader (tens ones : UInt8) : List UInt8 :=
  [0x62, 0x2F] ++ List.replicate 46 0x20 ++ [tens, ones] ++ List.replicate 8 0x20 ++ arfmag

/-- An archive whose only member is an archive with one member of two bytes. -/
def nestedArchive : List UInt8 :=
  armag ++ memberHeader 0x37 0x30 ++ (armag ++ memberHeader 0x30 0x32 ++ [1, 2])

/-- A little-endian host with that archive as its file. -/
def nestedEnv : Env := plainEnv (.ofBytes nestedArchive (by decide +kernel))

/-- Map the archive, open its member and the member of that, and close them from the outside in. -/
def outsideIn (n : Nat) : List ArOp :=
  [.begin 3 .readMmap none, .begin (-1) .readMmap (some 0), .begin (-1) .readMmap (some 1),
    .end 0, .end 1, .end 2].take n

set_option maxRecDepth 4000 in
theorem outsideIn_life_cycle : ∃ H H',
    runOps (ArOp.heapStep nestedEnv) Heap.empty (outsideIn 5) = .ok H ∧
    runOps (ArOp.heapStep nestedEnv) Heap.empty (outsideIn 6) = .ok H' ∧
    H.freed.map Prod.fst = [] ∧ H.mapped = [⟨138, []⟩] ∧ H'.freed.map Prod.fst = [2, 1, 0] ∧
    H'.mapped = [⟨138, [138]⟩] ∧ H.LifeCycle ∧ H'.LifeCycle := by
  have hrun : ∃ H H',
      runOps (ArOp.heapStep nestedEnv) Heap.empty (outsideIn 5) = .ok H ∧
      runOps (ArOp.heapStep nestedEnv) Heap.empty (outsideIn 6) = .ok H' ∧
      H.freed.map Prod.fst = [] ∧ H.mapped = [⟨138, []⟩] ∧ H'.freed.map Prod.fst = [2, 1, 0] ∧
      H'.mapped = [⟨138, [138]⟩] :=
    ⟨_, _, rfl, rfl, by decide +kernel, by decide +kernel, by decide +kernel, by decide +kernel⟩
  obtain ⟨H, H', h, h', hfreed, hmapped, hfreed', hmapped'⟩ := hrun
  exact ⟨H, H', h, h', hfreed, hmapped, hfreed', hmapped', descriptor_life_cycle h, descriptor_life_cycle h'⟩

end LibElf.Elfutils
