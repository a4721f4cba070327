import LibElf.Toolchain.Archive

/-!
# The life cycle of a descriptor

`elf_end` gives a descriptor up; what it leaves allocated depends on who else still needs it. An archive has to
stay for as long as one of its members is open, and is released by the call that closes the last of them.

1. What a store, an allocation and a release do to the live descriptors and to the number of children.
2. `Kept`, the books that the library keeps: the parents, the counters and the reasons to stay alive. A step of
   `elf_end` or of `_libelf_ar_open_member` puts one counter or one reason out of order for a moment; the two
   parameters say which.
3. One lemma per function, `endLoop_ok` for the walk along the parents, and `life_cycle` for every run.
-/

namespace LibElf.Toolchain

open Outcome

namespace Heap

variable {s : Heap} {h e p q : Handle} {d d' x : Desc}

/-! ## Live descriptors -/

theorem Live.lt (hl : s.Live h d) : h < s.cells.length := by
  obtain ⟨hlt, -⟩ := List.getElem?_eq_some_iff.mp hl
  exact hlt

theorem Live.unique (hl : s.Live h d) (hl' : s.Live h d') : d = d' := by
  have := hl.symm.trans hl'
  cases this
  rfl

theorem deref_live (hl : s.Live h d) : s.deref h = .ok d s := by
  unfold deref
  rw [hl]
  rfl

theorem deref_eq_ok {t : Heap} (hd : s.deref h = .ok d t) : s.Live h d ∧ t = s := by
  unfold deref at hd
  cases hc : s.cells[h]? with
  | none => simp [hc] at hd
  | some c =>
    obtain ⟨x, n⟩ := c
    by_cases hn : n = 0
    · subst hn
      simp only [hc, if_true, Outcome.ok.injEq] at hd
      obtain ⟨rfl, rfl⟩ := hd
      exact ⟨hc, rfl⟩
    · simp [hc, hn] at hd

theorem deref_ne_err {t : Heap} {err : ElfError} (hd : s.deref h = .err err t) : False := by
  unfold deref at hd
  split at hd
  · split at hd <;> cases hd
  · cases hd

/-- The rule for a load of a descriptor. -/
theorem ensures_deref {α : Type} {f : Desc → Heap → Lib α} {Q : α → Heap → Prop} {E : Heap → Prop}
    (hf : ∀ d, s.Live h d → (f d s).Ensures Q E fun _ => True) :
    ((s.deref h).bind f).Ensures Q E fun _ => True := by
  cases hd : s.deref h with
  | ok d t =>
    obtain ⟨hl, rfl⟩ := deref_eq_ok hd
    exact hf d hl
  | err err t => exact (deref_ne_err hd).elim
  | stop f => trivial

theorem cells_put (hl : s.Live h d) : (s.put h d').cells = s.cells.set h ⟨d', 0⟩ := by
  unfold put
  rw [hl]

theorem cells_release (hl : s.Live h d) : (s.release h).cells = s.cells.set h ⟨d, 1⟩ := by
  unfold release
  rw [hl]

@[simp] theorem returned_put : (s.put h d).returned = s.returned := by
  unfold put
  split <;> rfl

@[simp] theorem returned_release : (s.release h).returned = s.returned := by
  unfold release
  split <;> rfl

@[simp] theorem length_put : (s.put h d).cells.length = s.cells.length := by
  unfold put
  split
  · exact List.length_set
  · rfl

@[simp] theorem length_release : (s.release h).cells.length = s.cells.length := by
  unfold release
  split
  · exact List.length_set
  · rfl

theorem live_put (hl : s.Live h d) : (s.put h d').Live h d' := by
  unfold Live
  rw [cells_put hl, List.getElem?_set_self hl.lt]

theorem live_put_ne (hne : h ≠ q) : (s.put h d').Live q x ↔ s.Live q x := by
  unfold put
  split
  · unfold Live
    rw [List.getElem?_set_ne hne]
  · exact Iff.rfl

theorem live_release_ne (hne : h ≠ q) : (s.release h).Live q x ↔ s.Live q x := by
  unfold release
  split
  · unfold Live
    rw [List.getElem?_set_ne hne]
  · exact Iff.rfl

theorem not_live_release (hl : s.Live h d) : ¬ (s.release h).Live h x := by
  unfold Live
  rw [cells_release hl, List.getElem?_set_self hl.lt]
  simp

theorem released_put_ne (hne : h ≠ q) : (s.put h d').Released q x ↔ s.Released q x := by
  unfold put
  split
  · unfold Released
    rw [List.getElem?_set_ne hne]
  · exact Iff.rfl

theorem not_released_put (hl : s.Live h d) : ¬ (s.put h d').Released h x := by
  rintro ⟨n, hn, hpos⟩
  rw [live_put hl] at hn
  cases hn
  exact Nat.lt_irrefl _ hpos

theorem released_release_ne (hne : h ≠ q) : (s.release h).Released q x ↔ s.Released q x := by
  unfold release
  split
  · unfold Released
    rw [List.getElem?_set_ne hne]
  · exact Iff.rfl

theorem released_release (hl : s.Live h d) : (s.release h).Released h x ↔ x = d := by
  unfold Released
  rw [cells_release hl, List.getElem?_set_self hl.lt]
  constructor
  · rintro ⟨n, hn, -⟩
    cases hn
    rfl
  · rintro rfl
    exact ⟨1, rfl, Nat.one_pos⟩

/-! ## Allocation -/

theorem getElem?_allocate {c : Cell} (hc : (s.allocate d).cells[h]? = some c) :
    (h < s.cells.length ∧ s.cells[h]? = some c) ∨ (h = s.cells.length ∧ c = ⟨d, 0⟩) := by
  unfold allocate at hc
  rw [List.getElem?_append] at hc
  split at hc
  · next hlt => exact .inl ⟨hlt, hc⟩
  · next hge =>
    have hmem := List.mem_of_getElem? hc
    obtain ⟨hlt, -⟩ := List.getElem?_eq_some_iff.mp hc
    rw [List.length_singleton] at hlt
    have hle := Nat.sub_eq_zero_iff_le.mp (Nat.lt_one_iff.mp hlt)
    exact .inr ⟨Nat.le_antisymm hle (Nat.le_of_not_lt hge), List.mem_singleton.mp hmem⟩

theorem live_allocate_self : (s.allocate d).Live s.cells.length d := by
  unfold Live allocate
  simp

theorem live_allocate : (s.allocate d).Live h x ↔ s.Live h x ∨ (h = s.cells.length ∧ x = d) := by
  constructor
  · intro hl
    rcases getElem?_allocate hl with ⟨-, hl⟩ | ⟨rfl, hcell⟩
    · exact .inl hl
    · cases hcell
      exact .inr ⟨rfl, rfl⟩
  · rintro (hl | ⟨rfl, rfl⟩)
    · unfold Live allocate
      rw [List.getElem?_append_left hl.lt]
      exact hl
    · exact live_allocate_self

theorem length_lt_allocate : s.cells.length < (s.allocate d).cells.length := by
  unfold allocate
  simp

/-- A store into the descriptor allocated last. -/
theorem put_allocate : (s.allocate d).put s.cells.length d' = s.allocate d' := by
  unfold put
  rw [live_allocate_self]
  unfold allocate
  simp

/-! ## Counting children -/

/-- A store that leaves `e_parent` alone. -/
theorem children_put (hl : s.Live h d) (hp : d'.eParent = d.eParent) : (s.put h d').children q = s.children q := by
  unfold children
  rw [cells_put hl]
  exact Forest.children_set_same hl rfl hp

theorem children_allocate (hd : d.eParent = none) : (s.allocate d).children q = s.children q := by
  unfold children allocate
  have hno : kin.child q ⟨d, 0⟩ = false := by simp [Forest.child, kin, hd]
  rw [Forest.children_append, hno]
  rfl

theorem toNat_child : (kin.child q ⟨d, 0⟩).toNat = if d.eParent = some q then 1 else 0 := by
  by_cases hq : d.eParent = some q <;> simp [Forest.child, kin, hq]

/-- A descriptor gets a parent. -/
theorem children_adopt (hl : s.Live e d) (hd : d.eParent = none) (hd' : d'.eParent = some p) :
    (s.put e d').children q = s.children q + if p = q then 1 else 0 := by
  unfold children
  rw [cells_put hl]
  have hset := @Forest.children_set _ kin s.cells e q ⟨d, 0⟩ ⟨d', 0⟩ hl
  rw [toNat_child, toNat_child, hd, hd'] at hset
  simpa using hset

/-- A descriptor is released. -/
theorem children_release (hl : s.Live e d) :
    (s.release e).children q + (if d.eParent = some q then 1 else 0) = s.children q := by
  unfold children
  rw [cells_release hl]
  have hset := @Forest.children_set _ kin s.cells e q ⟨d, 0⟩ ⟨d, 1⟩ hl
  rwa [toNat_child, Forest.child_eq_false rfl] at hset

end Heap

/-! ## The books -/

/-- The books of the library: `x` is the one descriptor that may stay alive without a reason, and the counter of
`h` is `off h` ahead of the number of its children. -/
structure Books (x : Option Handle) (off : Handle → Int) (s : Heap) : Prop where
  once : ∀ (h : Nat) (c : Cell), s.cells[h]? = some c → c.frees ≤ 1
  rooted : kin.Rooted s.cells
  parent_ar : ∀ h d p, s.Live h d → d.eParent = some p → ∃ dp a, s.Live p dp ∧ dp.eKind = .ar a
  nchildren : ∀ h d a, s.Live h d → d.eKind = .ar a → a.eNchildren = s.children h + off h
  held : ∀ h d, s.Live h d → some h ≠ x → d.eActivations ≠ 0 ∨ s.children h ≠ 0
  allocated : ∀ h ∈ s.returned, h < s.cells.length
  idle : ∀ h ∈ s.returned, ∀ d, s.Released h d → d.eActivations = 0

/-- The books between two calls. -/
abbrev Balanced (s : Heap) : Prop := Books none (fun _ => 0) s

/-- A descriptor that has just been built: active, without a parent, and without children. -/
structure New (d : Desc) : Prop where
  active : d.eActivations ≠ 0
  alone : d.eParent = none
  childless : ∀ a, d.eKind = .ar a → a.eNchildren = 0

theorem not_live_empty {h : Handle} {d : Desc} : ¬ Heap.empty.Live h d := by
  simp [Heap.Live, Heap.empty]

theorem Balanced.empty : Balanced Heap.empty where
  once := by simp [Heap.empty]
  rooted := Forest.Rooted.nil
  parent_ar _ _ _ hl := (not_live_empty hl).elim
  nchildren _ _ _ hl := (not_live_empty hl).elim
  held _ _ hl := (not_live_empty hl).elim
  allocated := by simp [Heap.empty]
  idle := by simp [Heap.empty]

namespace Books

variable {x x' : Option Handle} {off off' : Handle → Int} {s : Heap} {h e p : Handle} {d d' : Desc}

theorem parent_lt (hb : Books x off s) (hl : s.Live e d) (hp : d.eParent = some p) : p < e :=
  (hb.rooted e ⟨d, 0⟩ p hl rfl hp).1

/-- A released descriptor has no children. -/
theorem children_released (hb : Books x off s) (hr : s.Released h d) : s.children h = 0 := by
  refine hb.rooted.children_eq_zero fun c hc => ?_
  obtain ⟨n, hn, hpos⟩ := hr
  rw [hn] at hc
  cases hc
  exact decide_eq_false (Nat.ne_of_gt hpos)

/-- The rule for a store: `more q` children come below `q` by it. -/
theorem store {more : Handle → Nat} (hb : Books x off s) (hl : s.Live h d)
    (hpar : ∀ p, d'.eParent = some p → p < h ∧ ∃ dp a, s.Live p dp ∧ dp.eKind = .ar a)
    (hcount : ∀ q, (s.put h d').children q = s.children q + more q)
    (har : ∀ a, d.eKind = .ar a → ∃ a', d'.eKind = .ar a')
    (hn : ∀ a', d'.eKind = .ar a' → a'.eNchildren = s.children h + more h + off' h)
    (hoff : ∀ q, q ≠ h → off' q + more q = off q)
    (hheld : some h ≠ x' → d'.eActivations ≠ 0 ∨ s.children h ≠ 0)
    (hx : ∀ q, q ≠ h → some q ≠ x' → some q ≠ x) : Books x' off' (s.put h d') where
  once := by
    intro q c hc
    rw [Heap.cells_put hl] at hc
    by_cases hq : h = q
    · subst hq
      rw [List.getElem?_set_self hl.lt] at hc
      cases hc
      exact Nat.zero_le 1
    · rw [List.getElem?_set_ne hq] at hc
      exact hb.once q c hc
  rooted := by
    rw [Heap.cells_put hl]
    refine hb.rooted.set (fun p _ hparent => ?_) (.inl rfl)
    obtain ⟨hlt, dp, a, hlp, -⟩ := hpar p hparent
    exact ⟨hlt, ⟨dp, 0⟩, hlp, rfl⟩
  parent_ar := by
    -- the parent may be the descriptor stored to; it still is an archive
    have hkeep : ∀ p dp a, s.Live p dp → dp.eKind = .ar a →
        ∃ dp a, (s.put h d').Live p dp ∧ dp.eKind = .ar a := by
      intro p dp a hlp ha
      by_cases hq : h = p
      · subst hq
        obtain rfl := hl.unique hlp
        obtain ⟨a', ha'⟩ := har a ha
        exact ⟨d', a', Heap.live_put hl, ha'⟩
      · exact ⟨dp, a, (Heap.live_put_ne hq).mpr hlp, ha⟩
    intro q y p hy hparent
    by_cases hq : h = q
    · subst hq
      obtain rfl := hy.unique (Heap.live_put hl)
      obtain ⟨-, dp, a, hlp, ha⟩ := hpar p hparent
      exact hkeep p dp a hlp ha
    · obtain ⟨dp, a, hlp, ha⟩ := hb.parent_ar q y p ((Heap.live_put_ne hq).mp hy) hparent
      exact hkeep p dp a hlp ha
  nchildren := by
    intro q y a hy ha
    rw [hcount]
    push_cast
    by_cases hq : h = q
    · subst hq
      obtain rfl := hy.unique (Heap.live_put hl)
      exact hn a ha
    · have hold := hb.nchildren q y a ((Heap.live_put_ne hq).mp hy) ha
      have hq := hoff q (Ne.symm hq)
      omega
  held := by
    intro q y hy hne
    have hold : y.eActivations ≠ 0 ∨ s.children q ≠ 0 := by
      by_cases hq : h = q
      · subst hq
        obtain rfl := hy.unique (Heap.live_put hl)
        exact hheld hne
      · exact hb.held q y ((Heap.live_put_ne hq).mp hy) (hx q (Ne.symm hq) hne)
    rw [hcount]
    exact hold.imp_right fun hpos hzero => hpos (Nat.eq_zero_of_add_eq_zero_right hzero)
  allocated := by
    intro q hq
    rw [Heap.returned_put] at hq
    rw [Heap.length_put]
    exact hb.allocated q hq
  idle := by
    intro q hq y hy
    rw [Heap.returned_put] at hq
    by_cases hhq : h = q
    · subst hhq
      exact absurd hy (Heap.not_released_put hl)
    · exact hb.idle q hq y ((Heap.released_put_ne hhq).mp hy)

/-- The rule for a store that leaves `e_parent` alone. -/
theorem put (hb : Books x off s) (hl : s.Live h d) (hp : d'.eParent = d.eParent)
    (har : ∀ a, d.eKind = .ar a → ∃ a', d'.eKind = .ar a')
    (hn : ∀ a', d'.eKind = .ar a' → a'.eNchildren = s.children h + off' h)
    (hoff : ∀ q, q ≠ h → off' q = off q)
    (hheld : some h ≠ x' → d'.eActivations ≠ 0 ∨ s.children h ≠ 0)
    (hx : ∀ q, q ≠ h → some q ≠ x' → some q ≠ x) : Books x' off' (s.put h d') := by
  refine @store x x' off off' s h d d' (fun _ => 0) hb hl (fun p hparent => ?_)
    (fun q => Heap.children_put hl hp) har (fun a' ha' => ?_) (fun q hq => ?_) hheld hx
  · have hparent := hp.symm.trans hparent
    exact ⟨hb.parent_lt hl hparent, hb.parent_ar h d p hl hparent⟩
  · simpa using hn a' ha'
  · simpa using hoff q hq

/-- The rule for a descriptor that gets a parent. -/
theorem adopt (hb : Books x off s) (hl : s.Live e d) (hd : d.eParent = none) (hd' : d'.eParent = some p)
    (hlt : p < e) (hpar : ∃ dp a, s.Live p dp ∧ dp.eKind = .ar a) (hkind : d'.eKind = d.eKind)
    (hact : d'.eActivations = d.eActivations) :
    Books x (fun q => off q - if p = q then 1 else 0) (s.put e d') := by
  refine @store x x off _ s e d d' (fun q => if p = q then 1 else 0) hb hl (fun p' hparent => ?_)
    (fun q => Heap.children_adopt hl hd hd') (fun a ha => ⟨a, hkind.trans ha⟩) (fun a ha => ?_)
    (fun q _ => ?_) (fun hne => ?_) (fun _ _ => id)
  · obtain rfl := Option.some.inj (hd'.symm.trans hparent)
    exact ⟨hlt, hpar⟩
  · have hold := hb.nchildren e d a hl (hkind.symm.trans ha)
    simpa [Nat.ne_of_lt hlt] using hold
  · push_cast
    omega
  · rw [hact]
    exact hb.held e d hl hne

/-- The rule for a release: the counter of the parent and its reason to stay are open afterwards. -/
theorem release (hb : Books (some e) off s) (hl : s.Live e d) (hzero : s.children e = 0)
    (hidle : d.eActivations = 0 ∨ e ∉ s.returned) :
    Books d.eParent (fun q => off q + if d.eParent = some q then 1 else 0) (s.release e) where
  once := by
    intro q c hc
    rw [Heap.cells_release hl] at hc
    by_cases hq : e = q
    · subst hq
      rw [List.getElem?_set_self hl.lt] at hc
      cases hc
      exact Nat.le_refl 1
    · rw [List.getElem?_set_ne hq] at hc
      exact hb.once q c hc
  rooted := by
    rw [Heap.cells_release hl]
    refine hb.rooted.set (fun p halive _ => ?_) (.inr hzero)
    cases halive
  parent_ar := by
    intro q y p hy hparent
    by_cases hq : e = q
    · subst hq
      exact absurd hy (Heap.not_live_release hl)
    have hy := (Heap.live_release_ne hq).mp hy
    obtain ⟨dp, a, hlp, ha⟩ := hb.parent_ar q y p hy hparent
    -- the parent is not the released one, which has no children
    have hne : e ≠ p := by
      rintro rfl
      exact Forest.children_eq_zero_iff.mp hzero q ⟨y, 0⟩ hy rfl hparent
    exact ⟨dp, a, (Heap.live_release_ne hne).mpr hlp, ha⟩
  nchildren := by
    intro q y a hy ha
    by_cases hq : e = q
    · subst hq
      exact absurd hy (Heap.not_live_release hl)
    have hold := hb.nchildren q y a ((Heap.live_release_ne hq).mp hy) ha
    have hcount := @Heap.children_release s e q d hl
    rw [hold, ← hcount]
    push_cast
    omega
  held := by
    intro q y hy hne
    by_cases hq : e = q
    · subst hq
      exact absurd hy (Heap.not_live_release hl)
    have hold := hb.held q y ((Heap.live_release_ne hq).mp hy) fun heq => hq (Option.some.inj heq).symm
    have hcount := @Heap.children_release s e q d hl
    rw [if_neg (Ne.symm hne)] at hcount
    rwa [← hcount] at hold
  allocated := by
    intro q hq
    rw [Heap.returned_release] at hq
    rw [Heap.length_release]
    exact hb.allocated q hq
  idle := by
    intro q hq y hy
    rw [Heap.returned_release] at hq
    by_cases hhq : e = q
    · subst hhq
      obtain rfl := (Heap.released_release hl).mp hy
      exact hidle.resolve_right (not_not_intro hq)
    · exact hb.idle q hq y ((Heap.released_release_ne hhq).mp hy)

/-- The rule for an allocation. -/
theorem allocate (hb : Books x off s) (hnew : New d) (hoff : off s.cells.length = 0) :
    Books x off (s.allocate d) where
  once := by
    intro q c hc
    rcases Heap.getElem?_allocate hc with ⟨-, hc⟩ | ⟨-, rfl⟩
    · exact hb.once q c hc
    · exact Nat.zero_le 1
  rooted := hb.rooted.append hnew.alone
  parent_ar := by
    intro q y p hy hparent
    rcases Heap.live_allocate.mp hy with hy | ⟨-, rfl⟩
    · obtain ⟨dp, a, hlp, ha⟩ := hb.parent_ar q y p hy hparent
      exact ⟨dp, a, Heap.live_allocate.mpr (.inl hlp), ha⟩
    · rw [hnew.alone] at hparent
      cases hparent
  nchildren := by
    intro q y a hy ha
    rw [Heap.children_allocate hnew.alone]
    rcases Heap.live_allocate.mp hy with hy | ⟨rfl, rfl⟩
    · exact hb.nchildren q y a hy ha
    · have hzero : s.children s.cells.length = 0 := hb.rooted.children_length
      rw [hnew.childless a ha, hoff, hzero]
      rfl
  held := by
    intro q y hy hne
    rw [Heap.children_allocate hnew.alone]
    rcases Heap.live_allocate.mp hy with hy | ⟨-, rfl⟩
    · exact hb.held q y hy hne
    · exact .inl hnew.active
  allocated := by
    intro q hq
    exact Nat.lt_trans (hb.allocated q hq) Heap.length_lt_allocate
  idle := by
    intro q hq y hy
    obtain ⟨n, hn, hpos⟩ := hy
    rcases Heap.getElem?_allocate hn with ⟨-, hn⟩ | ⟨-, hcell⟩
    · exact hb.idle q hq y ⟨n, hn, hpos⟩
    · cases hcell
      exact absurd hpos (Nat.lt_irrefl 0)

/-- The exception may be dropped once the descriptor has a reason to stay. -/
theorem settle (hb : Books (some e) off s) (hheld : ∀ d, s.Live e d → d.eActivations ≠ 0 ∨ s.children e ≠ 0) :
    Books none off s where
  __ := hb
  held := by
    rintro q y hy -
    by_cases hq : q = e
    · subst hq
      exact hheld y hy
    · exact hb.held q y hy fun heq => hq (Option.some.inj heq)

theorem weaken (hb : Books none off s) : Books (some e) off s where
  __ := hb
  held q y hy _ := hb.held q y hy nofun

/-- Only archives have children. -/
theorem children_eq_zero (hb : Books x off s) (hl : s.Live h d) (hno : d.ar? = none) : s.children h = 0 := by
  refine Forest.children_eq_zero_iff.mpr fun q c hc halive hparent => ?_
  obtain ⟨y, n⟩ := c
  obtain rfl : n = 0 := of_decide_eq_true halive
  obtain ⟨dp, a, hlp, ha⟩ := hb.parent_ar q y h hc hparent
  obtain rfl := hl.unique hlp
  simp [Desc.ar?, ha] at hno

/-- The rule for a call that returns a live descriptor. -/
theorem give (hb : Books x off s) (hl : s.Live h d) : Books x off (s.give h) where
  once := hb.once
  rooted := hb.rooted
  parent_ar := hb.parent_ar
  nchildren := hb.nchildren
  held := hb.held
  allocated := by
    intro q hq
    rcases List.mem_cons.mp hq with rfl | hq
    · exact hl.lt
    · exact hb.allocated q hq
  idle := by
    intro q hq y hy
    rcases List.mem_cons.mp hq with rfl | hq
    · obtain ⟨n, hn, hpos⟩ := hy
      have := hl.symm.trans hn
      cases this
      exact absurd hpos (Nat.lt_irrefl 0)
    · exact hb.idle q hq y hy

end Books

/-! ## Closing -/

section Closing

variable {s : Heap} {e p : Handle} {d dp : Desc} {a : Ar}

/-- One round of the loop: an archive loses the child that is released. -/
theorem Books.reap (hb : Books (some e) (fun _ => 0) s) (hl : s.Live e d) (hact : d.eActivations = 0)
    (hzero : s.children e = 0) (hparent : d.eParent = some p) (hlp : s.Live p dp) (ha : dp.eKind = .ar a) :
    Books (some p) (fun _ => 0)
      ((s.put p (dp.setAr { a with eNchildren := a.eNchildren - 1 })).release e) := by
  have hlt := hb.parent_lt hl hparent
  have hput : Books (some e) (fun q => if p = q then -1 else 0)
      (s.put p (dp.setAr { a with eNchildren := a.eNchildren - 1 })) := by
    refine hb.put hlp rfl (fun _ _ => ⟨_, rfl⟩) (fun a' ha' => ?_) (fun q hq => if_neg (Ne.symm hq))
      (fun hne => hb.held p dp hlp hne) (fun _ _ => id)
    cases ha'
    have := hb.nchildren p dp a hlp ha
    simp only [this, if_pos]
    omega
  have hl' : (s.put p (dp.setAr { a with eNchildren := a.eNchildren - 1 })).Live e d :=
    (Heap.live_put_ne (Nat.ne_of_lt hlt)).mpr hl
  have hrel := hput.release hl' (by rw [Heap.children_put hlp (Desc.setAr_eParent _ _), hzero]) (.inl hact)
  rw [hparent] at hrel
  convert hrel using 2 with q
  by_cases hq : p = q <;> simp [hq]

/-- The loop of `elf_end` ends, and the books are in order again. -/
theorem endLoop_ok (fuel : Nat) : ∀ {e s d}, Books (some e) (fun _ => 0) s → s.Live e d → e < fuel →
    ∃ s', endLoop fuel e s = .ok 0 s' ∧ Balanced s' := by
  -- the parent has a smaller handle
  induction fuel with
  | zero => exact fun _ _ hlt => absurd hlt (Nat.not_lt_zero _)
  | succ fuel ih =>
    intro e s d hb hl hlt
    unfold endLoop
    rw [Heap.deref_live hl, bind_ok]
    by_cases hact : d.eActivations ≠ 0
    · rw [if_pos hact]
      refine ⟨s, rfl, hb.settle fun y hy => ?_⟩
      obtain rfl := hl.unique hy
      exact .inl hact
    rw [if_neg hact]
    by_cases hopen : d.ar?.any (fun a => 0 < a.eNchildren)
    · rw [if_pos hopen]
      refine ⟨s, rfl, hb.settle fun y hy => .inr fun hzero => ?_⟩
      cases hk : d.eKind with
      | ar a =>
        have hn := hb.nchildren e d a hl hk
        simp [Desc.ar?, hk, hn, hzero] at hopen
      | elf => simp [Desc.ar?, hk] at hopen
      | none => simp [Desc.ar?, hk] at hopen
    rw [if_neg hopen]
    have hact := not_not.mp hact
    have hzero : s.children e = 0 := by
      cases hk : d.eKind with
      | ar a =>
        have hn := hb.nchildren e d a hl hk
        simp [Desc.ar?, hk, hn] at hopen
        exact hopen
      | elf => exact hb.children_eq_zero hl (by simp [Desc.ar?, hk])
      | none => exact hb.children_eq_zero hl (by simp [Desc.ar?, hk])
    cases hparent : d.eParent with
    | none =>
      refine ⟨_, rfl, ?_⟩
      have hrel := hb.release hl hzero (.inl hact)
      rw [hparent] at hrel
      simpa using hrel
    | some p =>
      obtain ⟨dp, a, hlp, ha⟩ := hb.parent_ar e d p hl hparent
      have hlt' := hb.parent_lt hl hparent
      have hreap := hb.reap hl hact hzero hparent hlp ha
      have hlive := (@Heap.live_release_ne _ e p (dp.setAr { a with eNchildren := a.eNchildren - 1 })
        (Nat.ne_of_gt hlt')).mpr (Heap.live_put hlp)
      obtain ⟨s', hrun, hs'⟩ := ih hreap hlive (Nat.lt_of_lt_of_le hlt' (Nat.le_of_lt_succ hlt))
      refine ⟨s', ?_, hs'⟩
      dsimp only
      rw [Heap.deref_live hlp, bind_ok, ha]
      exact hrun

/-- Closing a live descriptor returns, and keeps the books in order. -/
theorem elfEnd_ok (hb : Balanced s) (hl : s.Live e d) : ∃ n s', elfEnd (some e) s = .ok n s' ∧ Balanced s' := by
  unfold elfEnd
  dsimp only
  rw [Heap.deref_live hl, bind_ok]
  by_cases hact : d.eActivations = 0
  · rw [if_pos hact]
    exact ⟨0, s, rfl, hb⟩
  rw [if_neg hact]
  have hput : ∀ x : Option Handle, (some e ≠ x → d.eActivations - 1 ≠ 0) →
      Books x (fun _ => 0) (s.put e { d with eActivations := d.eActivations - 1 }) := by
    intro x hx
    refine hb.put hl rfl (fun a ha => ⟨a, ha⟩) (fun a ha => hb.nchildren e d a hl ha) (fun _ _ => rfl)
      (fun hne => .inl (hx hne)) (fun _ _ _ => nofun)
  by_cases hpos : 0 < d.eActivations - 1
  · rw [if_pos hpos]
    exact ⟨_, _, rfl, hput none fun _ => Nat.ne_of_gt hpos⟩
  · rw [if_neg hpos]
    have hlt : e < (s.put e { d with eActivations := d.eActivations - 1 }).cells.length + 1 := by
      rw [Heap.length_put]
      exact Nat.lt_succ_of_lt hl.lt
    obtain ⟨s', hrun, hs'⟩ := endLoop_ok _ (hput (some e) fun h => absurd rfl h) (Heap.live_put hl) hlt
    exact ⟨0, s', hrun, hs'⟩

theorem ensures_elfEnd (hb : Balanced s) (e : Option Handle) :
    (elfEnd e s).Ensures (fun _ => Balanced) Balanced (fun _ => True) := by
  cases e with
  | none => exact hb
  | some e =>
    cases hd : s.deref e with
    | ok d t =>
      obtain ⟨hl, -⟩ := Heap.deref_eq_ok hd
      obtain ⟨n, s', hrun, hs'⟩ := elfEnd_ok hb hl
      rw [hrun]
      exact hs'
    | err err t => exact (Heap.deref_ne_err hd).elim
    | stop f =>
      unfold elfEnd
      dsimp only
      rw [hd]
      trivial

end Closing

/-! ## Opening -/

section Opening

variable {s s' : Heap} {e : Handle} {d : Desc} {a : Ar} {σ α : Type}

/-- A load changes nothing. -/
theorem Block.ensures_load {b : Block} {p len : Nat} {s : σ} {E : σ → Prop} :
    (b.load p len s).Ensures (fun _ t => t = s) E (fun _ => True) := by
  unfold Block.load
  split
  · trivial
  · unfold readAt
    split
    · exact rfl
    · trivial

theorem Block.ensures_startsWith {b : Block} {s : σ} {E : σ → Prop} (pat : List UInt8) :
    ∀ p, (b.startsWith p pat s).Ensures (fun _ t => t = s) E (fun _ => True) := by
  induction pat with
  | nil => exact fun _ => rfl
  | cons c cs ih =>
    intro p
    refine ensures_bind Block.ensures_load fun x t ht => ?_
    subst ht
    split
    · exact ih (p + 1)
    · exact rfl

theorem ensures_readArHeader {b : Block} {p fin : Nat} {s : σ} :
    (readArHeader b p fin s).Ensures (fun _ t => t = s) (fun t => t = s) (fun _ => True) := by
  unfold readArHeader
  split
  · exact rfl
  refine ensures_bind Block.ensures_load fun arh t ht => ?_
  subst ht
  split
  · exact rfl
  · split
    · exact rfl
    · exact rfl

theorem ensures_arSpecial {b : Block} {p fin : Nat} {s : σ} :
    (arSpecial b p fin s).Ensures (fun _ t => t = s) (fun t => t = s) (fun _ => True) := by
  refine ensures_bind ensures_readArHeader fun r t ht => ?_
  subst ht
  obtain ⟨arh, sz⟩ := r
  dsimp only
  split
  · split
    · exact rfl
    split
    · refine ensures_bind ensures_readArHeader fun r t ht => ?_
      subst ht
      obtain ⟨arh', sz'⟩ := r
      dsimp only
      split <;> exact rfl
    · split <;> exact rfl
  · split <;> exact rfl

/-- What a call that could not open an image may leave behind: nothing, a descriptor that nobody has, or one that
it has released again. -/
def Leftover (s s' : Heap) : Prop :=
  s' = s ∨ ∃ d, New d ∧ (s' = s.allocate d ∨ s' = (s.allocate d).release s.cells.length)

theorem Balanced.allocate (hb : Balanced s) (hnew : New d) : Balanced (s.allocate d) :=
  Books.allocate hb hnew rfl

theorem Balanced.leftover (hb : Balanced s) (hs : Leftover s s') : Balanced s' := by
  obtain rfl | ⟨d, hnew, rfl | rfl⟩ := hs
  · exact hb
  · exact hb.allocate hnew
  · -- no call has returned the descriptor
    have hfresh : s.cells.length ∉ (s.allocate d).returned :=
      fun hmem => Nat.lt_irrefl _ (hb.allocated _ hmem)
    have hzero : (s.allocate d).children s.cells.length = 0 := by
      rw [Heap.children_allocate hnew.alone]
      exact hb.rooted.children_length
    have hrel := (Books.weaken (hb.allocate hnew)).release Heap.live_allocate_self hzero (.inr hfresh)
    rw [hnew.alone] at hrel
    simpa using hrel

/-- A call that hands out a new descriptor, or fails. -/
abbrev Creates (s : Heap) (x : Lib Handle) : Prop :=
  x.Ensures (fun e s' => e = s.cells.length ∧ ∃ d, New d ∧ s' = s.allocate d) (Leftover s) (fun _ => True)

theorem ensures_arOpen (hnew : New d) : Creates s (arOpen s.cells.length d (s.allocate d)) := by
  have hopen : ∀ a : Ar, a.eNchildren = 0 → New (d.setAr a) := by
    intro a ha
    refine ⟨hnew.active, hnew.alone, fun a' ha' => ?_⟩
    cases ha'
    exact ha
  unfold arOpen
  dsimp only
  rw [Heap.put_allocate]
  refine ensures_bind (ensures_mono ensures_arSpecial (fun _ _ h => h) (fun t ht => ?_) fun _ h => h)
    fun m t ht => ?_
  · exact .inr ⟨_, hopen _ rfl, .inl ht⟩
  · subst ht
    rw [Heap.put_allocate]
    refine ⟨rfl, _, ?_, rfl⟩
    refine ⟨hnew.active, hnew.alone, fun a' ha' => ?_⟩
    cases ha'
    rfl

theorem ensures_libelfMemoryAt (b : Block) (image sz : Nat) (s : Heap) :
    Creates s (libelfMemoryAt b image sz s) := by
  unfold libelfMemoryAt
  split
  · trivial
  extract_lets e d₀ d s₁
  have hnew : New d := ⟨Nat.one_ne_zero, rfl, nofun⟩
  have hmagic : ∀ (pat : List UInt8) (c : Prop) [Decidable c],
      (if c then b.startsWith image pat s₁ else .ok false s₁ : Lib Bool).Ensures (fun _ t => t = s₁) (Leftover s)
        (fun _ => True) := by
    intro pat c _
    split
    · exact Block.ensures_startsWith pat image
    · exact rfl
  refine ensures_bind (hmagic _ _) fun iself t ht => ?_
  subst ht
  split
  · refine ensures_bind Block.ensures_load fun ident t ht => ?_
    subst ht
    split
    · exact .inr ⟨d, hnew, .inr rfl⟩
    · refine ⟨rfl, _, ?_, Heap.put_allocate⟩
      exact ⟨Nat.one_ne_zero, rfl, nofun⟩
  · refine ensures_bind (hmagic _ _) fun isar t ht => ?_
    subst ht
    split
    · exact ensures_arOpen hnew
    · exact ⟨rfl, d, hnew, rfl⟩

theorem ensures_elfMemory (b : Block) (image sz : Nat) (s : Heap) : Creates s (elfMemory b image sz s) := by
  unfold elfMemory
  split
  · exact .inl rfl
  · exact ensures_libelfMemoryAt b image sz s

/-- A call that keeps the books and returns a live descriptor, if it returns one. -/
abbrev Opens (x : Lib (Option Handle)) : Prop :=
  x.Ensures (fun r s' => Balanced s' ∧ ∀ e ∈ r, ∃ d, s'.Live e d) Balanced (fun _ => True)

/-- The new member counts as a child, and knows its parent. -/
theorem Balanced.member {de de' : Desc} {elf : Handle} (hb : Balanced s) (hnew : New de) (hl : s.Live elf d)
    (ha : d.eKind = .ar a) (hkind : de'.eKind = de.eKind) (hact : de'.eActivations = de.eActivations)
    (hparent : de'.eParent = some elf) :
    Balanced (((s.allocate de).put elf (d.setAr { a with eNchildren := a.eNchildren + 1 })).put
      s.cells.length de') := by
  have hbooks := hb.allocate hnew
  have hlive : (s.allocate de).Live elf d := Heap.live_allocate.mpr (.inl hl)
  have hput : Books none (fun q => if elf = q then 1 else 0)
      ((s.allocate de).put elf (d.setAr { a with eNchildren := a.eNchildren + 1 })) := by
    refine hbooks.put hlive rfl (fun _ _ => ⟨_, rfl⟩) (fun a' ha' => ?_) (fun q hq => if_neg (Ne.symm hq))
      (fun hne => hbooks.held elf d hlive hne) (fun _ _ => id)
    cases ha'
    have := hbooks.nchildren elf d a hlive ha
    simp only [this, if_pos]
    omega
  have hself := (@Heap.live_put_ne _ elf s.cells.length (d.setAr { a with eNchildren := a.eNchildren + 1 }) de
    (Nat.ne_of_lt hl.lt)).mpr Heap.live_allocate_self
  have hadopt := hput.adopt hself hnew.alone hparent hl.lt
    ⟨_, _, Heap.live_put hlive, rfl⟩ hkind hact
  simpa using hadopt

theorem ensures_openMember {fd : Int} {c : ElfCmd} {elf : Handle} (hb : Balanced s) (hl : s.Live elf d)
    (ha : d.eKind = .ar a) : Opens (openMember fd c elf d a s) := by
  unfold openMember
  split
  · exact ⟨hb, nofun⟩
  split
  · trivial
  dsimp only
  refine ensures_bind Block.ensures_load fun hdr t ht => ?_
  subst ht
  split
  · exact hb
  refine ensures_bind (ensures_mono (ensures_elfMemory _ _ _ _) (fun _ _ h => h)
    (fun t ht => hb.leftover ht) fun _ h => h) fun e t ht => ?_
  obtain ⟨rfl, de, hnew, rfl⟩ := ht
  rw [Heap.deref_live Heap.live_allocate_self, bind_ok]
  split
  · trivial
  refine ⟨hb.member hnew hl ha rfl rfl rfl, fun e he => ?_⟩
  obtain rfl := Option.some.inj he
  have hself := (@Heap.live_put_ne _ elf _ (d.setAr { a with eNchildren := a.eNchildren + 1 }) de
    (Nat.ne_of_lt hl.lt)).mpr Heap.live_allocate_self
  exact ⟨_, Heap.live_put hself⟩

/-- A store that does not touch the kind, the parent or the activation count. -/
theorem Balanced.put_same {d' : Desc} (hb : Balanced s) (hl : s.Live e d) (hp : d'.eParent = d.eParent)
    (hkind : d'.eKind = d.eKind) (hact : d'.eActivations = 0 → d.eActivations = 0) : Balanced (s.put e d') := by
  refine Books.put hb hl hp (fun a ha => ⟨a, hkind.trans ha⟩)
    (fun a ha => hb.nchildren e d a hl (hkind.symm.trans ha)) (fun _ _ => rfl) (fun hne => ?_) (fun _ _ => id)
  exact (hb.held e d hl hne).imp_left fun hpos hzero => hpos (hact hzero)

theorem ensures_openObjectAt {env : Env} {fd : Int} {c : ElfCmd} {file : Option Block} (hb : Balanced s) :
    Opens (openObjectAt env fd c file s) := by
  unfold openObjectAt
  split
  · exact hb
  split
  · refine ⟨hb.allocate ⟨Nat.one_ne_zero, rfl, nofun⟩, fun e he => ?_⟩
    obtain rfl := Option.some.inj he
    exact ⟨_, Heap.live_allocate_self⟩
  split
  · exact hb
  refine ensures_bind (ensures_mono (ensures_libelfMemoryAt _ _ _ _) (fun _ _ h => h)
    (fun t ht => hb.leftover ht) fun _ h => h) fun e t ht => ?_
  obtain ⟨rfl, d, hnew, rfl⟩ := ht
  have hlive : (s.allocate d).Live s.cells.length d := Heap.live_allocate_self
  rw [Heap.deref_live hlive, bind_ok]
  split
  · exact ensures_bind (ensures_elfEnd (hb.allocate hnew) _) fun _ _ h => h
  · refine ⟨(hb.allocate hnew).put_same hlive rfl rfl id, fun e he => ?_⟩
    obtain rfl := Option.some.inj he
    exact ⟨_, Heap.live_put hlive⟩

theorem ensures_elfBegin {env : Env} {fd : Int} {c : ElfCmd} {a : Option Handle} {file : Option Block}
    (hb : Balanced s) : Opens (elfBegin env fd c a file s) := by
  unfold elfBegin
  split
  · exact ⟨hb, nofun⟩
  · exact hb
  · exact ensures_openObjectAt hb
  · exact hb
  · exact ensures_openObjectAt hb
  · exact ensures_openObjectAt hb
  · refine Heap.ensures_deref fun d hl => ?_
    split
    · exact hb
    split
    · next r hr => exact ensures_openMember hb hl hr
    split
    · trivial
    · refine ⟨hb.put_same hl rfl rfl fun h => absurd h (Nat.succ_ne_zero _), fun e he => ?_⟩
      obtain rfl := Option.some.inj he
      exact ⟨_, Heap.live_put hl⟩

/-- Moving in an archive does not touch its counter. -/
theorem Balanced.setNext {next : Int} (hb : Balanced s) (hl : s.Live e d) (ha : d.eKind = .ar a) :
    Balanced (s.put e (d.setAr { a with eNext := next })) := by
  refine Books.put hb hl rfl (fun _ _ => ⟨_, rfl⟩) (fun a' ha' => ?_) (fun _ _ => rfl)
    (fun hne => hb.held e d hl hne) (fun _ _ => id)
  cases ha'
  exact hb.nchildren e d a hl ha

theorem ensures_elfNext (hb : Balanced s) (e : Option Handle) :
    (elfNext e s).Ensures (fun _ => Balanced) Balanced (fun _ => True) := by
  cases e with
  | none => exact hb
  | some e =>
    refine Heap.ensures_deref fun d hl => ?_
    split
    · exact hb
    refine Heap.ensures_deref fun dp hlp => ?_
    split
    · next a ha =>
      split
      · trivial
      · exact hb.setNext hlp ha
    · trivial

theorem ensures_elfRand {offset : Int} (hb : Balanced s) (ar : Option Handle) :
    (elfRand ar offset s).Ensures (fun _ => Balanced) Balanced (fun _ => True) := by
  cases ar with
  | none => exact hb
  | some h =>
    refine Heap.ensures_deref fun d hl => ?_
    split
    · next a ha =>
      split
      · exact hb
      refine ensures_bind Block.ensures_load fun arh t ht => ?_
      subst ht
      split
      · exact hb
      · exact hb.setNext hl ha
    · exact hb

/-- The rule for a call that may return a descriptor. -/
theorem ensures_giving {x : Lib (Option Handle)} (hx : Opens x) :
    (giving x).Ensures (fun _ => Balanced) Balanced (fun _ => True) := by
  refine ensures_bind hx fun r t ht => ?_
  obtain ⟨hb, hlive⟩ := ht
  cases r with
  | none => exact hb
  | some e =>
    obtain ⟨d, hl⟩ := hlive e rfl
    exact hb.give hl

end Opening

/-! ## Runs -/

/-- Every call keeps the books. -/
theorem LifeOp.balanced {env : Env} {s s' : Heap} (op : LifeOp) (hb : Balanced s) (h : op.step env s = .ok s') :
    Balanced s' := by
  cases op with
  | elfBegin fd c a file => exact (ensures_next (ensures_giving (ensures_elfBegin hb))).1 s' h
  | elfMemory b image sz =>
    have hmem : Opens ((Toolchain.elfMemory b image sz s).bind fun e s => .ok (some e) s) := by
      refine ensures_bind (ensures_mono (ensures_elfMemory b image sz s) (fun _ _ h => h)
        (fun t ht => hb.leftover ht) fun _ h => h) fun e t ht => ?_
      obtain ⟨rfl, d, hnew, rfl⟩ := ht
      refine ⟨hb.allocate hnew, fun e he => ?_⟩
      obtain rfl := Option.some.inj he
      exact ⟨d, Heap.live_allocate_self⟩
    exact (ensures_next (ensures_giving hmem)).1 s' h
  | elfNext e => exact (ensures_next (ensures_elfNext hb e)).1 s' h
  | elfRand ar offset => exact (ensures_next (ensures_elfRand hb ar)).1 s' h
  | elfEnd e => exact (ensures_next (ensures_elfEnd hb e)).1 s' h

/-- What an application may rely on between two calls. -/
structure LifeCycle (s : Heap) : Prop where
  nchildren : ∀ h d a, s.Live h d → d.eKind = .ar a → a.eNchildren = s.children h
  released_iff : ∀ h ∈ s.returned, ∃ d n, s.cells[h]? = some ⟨d, n⟩ ∧
    (0 < n ↔ d.eActivations = 0 ∧ s.children h = 0)
  once : ∀ (h : Nat) (c : Cell), s.cells[h]? = some c → c.frees ≤ 1
  parent_live : ∀ h d p, s.Live h d → d.eParent = some p → ∃ dp, s.Live p dp
  end_returns : ∀ h d, s.Live h d → ∃ n s', elfEnd (some h) s = .ok n s'

theorem Balanced.lifeCycle {s : Heap} (hb : Balanced s) : LifeCycle s where
  nchildren h d a hl ha := by simpa using hb.nchildren h d a hl ha
  released_iff := by
    intro h hmem
    obtain ⟨⟨d, n⟩, hc⟩ : ∃ c, s.cells[h]? = some c :=
      ⟨_, List.getElem?_eq_getElem (hb.allocated h hmem)⟩
    refine ⟨d, n, hc, fun hpos => ?_, fun hidle => ?_⟩
    · exact ⟨hb.idle h hmem d ⟨n, hc, hpos⟩, hb.children_released ⟨n, hc, hpos⟩⟩
    · -- a live descriptor has a reason to stay
      refine Nat.pos_of_ne_zero fun hzero => ?_
      subst hzero
      rcases hb.held h d hc nofun with hact | hchildren
      · exact hact hidle.1
      · exact hchildren hidle.2
  once := hb.once
  parent_live h d p hl hp := by
    obtain ⟨dp, a, hlp, -⟩ := hb.parent_ar h d p hl hp
    exact ⟨dp, hlp⟩
  end_returns h d hl := by
    obtain ⟨n, s', hrun, -⟩ := elfEnd_ok hb hl
    exact ⟨n, s', hrun⟩

/-- In every state that calls lead to, in whatever order descriptors are opened and closed, the counters are right,
and a descriptor is released once, when it is neither active nor the parent of a live one. -/
theorem life_cycle {env : Env} {ops : List LifeOp} {s : Heap}
    (hrun : runOps (LifeOp.step env) Heap.empty ops = .ok s) : LifeCycle s :=
  (@runOps_inv _ _ _ Balanced (fun _ => True) (fun _ op _ hb h => op.balanced hb h)
    (fun _ _ _ _ _ => trivial) ops _ Balanced.empty).1 s hrun |>.lifeCycle

/-- The header of a member; the two digits are its size. -/
def memberHdr (tens ones : UInt8) : List UInt8 :=
  [0x62, 0x2F] ++ List.replicate 46 0x20 ++ [tens, ones] ++ List.replicate 8 0x20 ++ [0x60, 0x0A]

/-- An archive whose only member is an archive with one member of two bytes. -/
def nestedArchive : List UInt8 :=
  armag ++ memberHdr 0x37 0x30 ++ (armag ++ memberHdr 0x30 0x32 ++ [1, 2])

/-- Open the archive, its member and the member of that, and close them from the outside in. -/
def outsideIn (n : Nat) : List LifeOp :=
  [.elfMemory ⟨4096, nestedArchive, page_pos, by simp [nestedArchive, memberHdr, armag]⟩ 4096 138, .elfBegin (-1) .read (some 0) none,
    .elfBegin (-1) .read (some 1) none, .elfEnd (some 0), .elfEnd (some 1), .elfEnd (some 2)].take n

set_option maxRecDepth 4000 in
theorem life_cycle_outsideIn : ∃ s s',
    runOps (LifeOp.step plainEnv) Heap.empty (outsideIn 5) = .ok s ∧
    runOps (LifeOp.step plainEnv) Heap.empty (outsideIn 6) = .ok s' ∧
    s.cells.map (fun c => (c.frees, c.desc.eActivations)) = [(0, 0), (0, 0), (0, 1)] ∧
    s'.cells.map (fun c => (c.frees, c.desc.eActivations)) = [(1, 0), (1, 0), (1, 0)] ∧
    LifeCycle s ∧ LifeCycle s' := by
  have hrun : ∃ s s', runOps (LifeOp.step plainEnv) Heap.empty (outsideIn 5) = .ok s ∧
      runOps (LifeOp.step plainEnv) Heap.empty (outsideIn 6) = .ok s' ∧
      s.cells.map (fun c => (c.frees, c.desc.eActivations)) = [(0, 0), (0, 0), (0, 1)] ∧
      s'.cells.map (fun c => (c.frees, c.desc.eActivations)) = [(1, 0), (1, 0), (1, 0)] :=
    ⟨_, _, rfl, rfl, by decide +kernel, by decide +kernel⟩
  obtain ⟨s, s', h, h', hs, hs'⟩ := hrun
  exact ⟨s, s', h, h', hs, hs', life_cycle h, life_cycle h'⟩

end LibElf.Toolchain
