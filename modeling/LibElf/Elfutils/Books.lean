import LibElf.Elfutils.Heap

/-!
# The books of an archive and its members

Which descriptors an archive lists, which of them were freed, and which mappings are still there.

1. `Elf.Moved`, what the calls that look for a header keep of an archive.
2. `Ledger`, the mappings, and `Released`, the descriptors that were freed.
3. `Heap.Books`, the invariant, with one rule for each change: `assign`, `root`, `child`, `dropRoot` and `dropChild`.
   For a moment a descriptor without users and without members is still there; the parameter says which.
-/

namespace LibElf.Elfutils

open Outcome
open Lib (SamePlace)

variable {env : Env} {e e' a a' c ref : Elf} {w w' : Walk} {l : Lib} {h n p : Handle}

/-! ## What a walk keeps -/

/-- The state of an archive has changed, but for its children. -/
def Elf.Moved (e e' : Elf) : Prop := ∃ ar : Ar, ar.children = e.ar.children ∧ e' = e.setAr ar

namespace Elf.Moved

theorem refl : e.Moved e := ⟨e.ar, rfl, rfl⟩

theorem setAr (hm : e.Moved w.elf) {ar : Ar} (hchildren : ar.children = w.elf.ar.children) : e.Moved (w.setAr ar).elf := by
  obtain ⟨b, hb, heq⟩ := hm
  refine ⟨ar, ?_, ?_⟩
  · rw [hchildren, heq]
    exact hb
  · show w.elf.setAr ar = e.setAr ar
    rw [heq]
    rfl

theorem setHdr (hm : e.Moved w.elf) (hdr : Arhdr) : e.Moved (w.setHdr hdr).elf := hm.setAr rfl

theorem parent (hm : e.Moved e') : e'.parent = e.parent := by
  obtain ⟨ar, -, rfl⟩ := hm
  rfl

theorem children (hm : e.Moved e') : e'.ar.children = e.ar.children := by
  obtain ⟨ar, har, rfl⟩ := hm
  exact har

theorem refCount (hm : e.Moved e') : e'.refCount = e.refCount := by
  obtain ⟨ar, -, rfl⟩ := hm
  rfl

theorem samePlace (hm : e.Moved e') : SamePlace e e' := by
  obtain ⟨ar, -, rfl⟩ := hm
  exact ⟨rfl, rfl, rfl, rfl, rfl⟩

end Elf.Moved

def Walks {α : Type} (e : Elf) (x : ArCall α) : Prop :=
  x.Ensures (fun _ w => e.Moved w.elf) (fun w => e.Moved w.elf) fun _ => True

section Walks

variable {hdr : List UInt8} {offset len : Nat}

theorem walks_bind {α β : Type} {x : ArCall α} {f : α → Walk → ArCall β} (hx : Walks e x)
    (hf : ∀ a w, e.Moved w.elf → Walks e (f a w)) : Walks e (x.bind f) :=
  ensures_bind hx hf

theorem walks_mapHeader (hm : e.Moved w.elf) {image : Image} {pos : Nat} : Walks e (mapHeader image pos w) := by
  unfold mapHeader readAt
  split
  · exact hm
  · trivial

theorem walks_namesHeader (hm : e.Moved w.elf) : Walks e (namesHeader env offset w) := by
  unfold namesHeader
  extract_lets e₁ pos
  split
  · split
    · exact hm
    · exact walks_bind (walks_mapHeader hm) fun _ _ h => h
  · split
    · split
      · exact hm
      · exact hm
    · exact hm

theorem walks_findNames (fuel : Nat) : ∀ {offset : Nat} {w : Walk}, e.Moved w.elf →
    Walks e (findNames env fuel offset w) := by
  induction fuel with
  | zero => exact fun _ => trivial
  | succ fuel ih =>
    intro offset w hm
    refine walks_bind (walks_namesHeader hm) fun hdr w hm => ?_
    cases hdr with
    | none => exact hm
    | some bs =>
      simp only
      split
      · trivial
      · split
        · exact hm
        · exact ih hm

theorem walks_namesBytes (hm : e.Moved w.elf) : Walks e (namesBytes env offset len w) := by
  unfold namesBytes
  extract_lets e₁ pos
  split
  · split
    · exact hm
    · cases hread : e₁.mapRead pos len with
      | ok bs t =>
        obtain rfl := Elf.mapRead_ok hread
        exact hm
      | err _ _ => exact absurd hread Elf.mapRead_ne_err
      | stop _ => trivial
  · split
    · split
      · exact hm
      · exact hm
    · exact hm

theorem walks_readLongNames (hm : e.Moved w.elf) : Walks e (readLongNames env w) :=
  walks_bind (walks_findNames _ hm) fun _ _ hm => walks_bind (walks_namesBytes hm) fun _ _ hm => hm.setAr rfl

theorem walks_arHeader (hm : e.Moved w.elf) : Walks e (arHeader env w) := by
  unfold arHeader
  extract_lets e₁ pos
  split
  · split
    · exact hm
    · exact walks_mapHeader hm
  · split
    · split
      · exact hm
      · exact hm
    · exact hm

theorem walks_longName (hm : e.Moved w.elf) : Walks e (longName env hdr w) := by
  have hnames : Walks e (longNames env w) := by
    unfold longNames
    split
    · exact hm
    · exact walks_readLongNames hm
  refine walks_bind hnames fun names w hm => ?_
  split
  · trivial
  · split
    · exact hm
    · exact hm

theorem walks_arNameOf (hm : e.Moved w.elf) : Walks e (arNameOf env hdr w) := by
  unfold arNameOf
  extract_lets field
  split
  · split
    · exact hm
    · split
      · exact hm
      · split
        · exact hm
        · split
          · exact walks_longName hm
          · exact hm
  · exact hm

theorem walks_arNumber (hm : e.Moved w.elf) : Walks e (arNumber hdr offset len w) := by
  unfold arNumber
  split
  · trivial
  · exact hm

theorem walks_arFields (hm : e.Moved w.elf) : Walks e (arFields hdr w) := by
  unfold arFields
  split
  · exact hm
  · refine walks_bind (walks_arNumber hm) fun date w hm => ?_
    refine walks_bind (walks_arNumber hm) fun uid w hm => ?_
    refine walks_bind (walks_arNumber hm) fun gid w hm => ?_
    refine walks_bind (walks_arNumber hm) fun mode w hm => ?_
    refine walks_bind (walks_arNumber hm) fun size w hm => ?_
    extract_lets hdr'
    split
    · exact hm.setHdr _
    · exact hm.setHdr _

theorem walks_nextArhdr (hm : e.Moved w.elf) : Walks e (nextArhdr env w) := by
  refine walks_bind (walks_arHeader hm) fun hdr w hm => ?_
  split
  · exact hm
  · exact walks_bind (walks_arNameOf (hm.setHdr _)) fun _ _ hm => walks_arFields (hm.setHdr _)

theorem walks_moveTo (hm : e.Moved w.elf) {pos : Nat} : Walks e (moveTo env pos w) :=
  moveTo_ensures (ensures_mono (walks_nextArhdr (hm.setAr rfl)) (fun _ _ h => h) (fun _ h => h.setHdr _)
    fun _ h => h)

end Walks

/-! ## The books -/

def elfFamily : Family Elf := ⟨Elf.parent, fun e => e.ar.children⟩

/-- A mapping belongs to the descriptor that it was made for, and is undone when that one is gone. -/
structure Ledger (v : Handle → Option Elf) (res : Handle → Option Nat) (ms : List Mapping) : Prop where
  shared : elfFamily.Shared v res
  made : ∀ h e m, v h = some e → e.parent = none → res h = some m →
    ms[m]? = some ⟨e.maximumSize, []⟩ ∧ e.mapAddress.isSome
  settled : ∀ m k, ms[m]? = some k →
    (k.undone = [] ∧ ∃ h e, v h = some e ∧ e.parent = none ∧ res h = some m) ∨ k.undone = [k.length]

/-- The descriptors that were freed are those that are not there, and each was freed once, without users and without
members. -/
structure Released (v : Handle → Option Elf) (n : Nat) (freed : List (Handle × Elf)) : Prop where
  nodup : (freed.map Prod.fst).Nodup
  mem : ∀ h, h ∈ freed.map Prod.fst ↔ h < n ∧ v h = none
  idle : ∀ f ∈ freed, f.2.refCount = 0 ∧ f.2.ar.children = []

structure Heap.Books (x : Option Handle) (H : Heap) : Prop where
  linked : elfFamily.Linked H.lib.get?
  ar : ∀ h e p a, H.lib.get? h = some e → e.parent = some p → H.lib.get? p = some a → a.kind = .ar
  counted : ∀ h e, x ≠ some h → H.lib.get? h = some e → e.refCount = 0 → e.kind = .ar ∧ e.ar.children ≠ []
  maps : H.maps.length = H.lib.elfs.length
  ledger : Ledger H.lib.get? H.mapOf H.mapped
  released : Released H.lib.get? H.lib.elfs.length H.freed

section Update

variable {o : Option Elf} {hs : List (Handle × Nat)}

theorem get?_set_eq (hlt : h < l.elfs.length) :
    (Lib.mk (l.elfs.set h o) hs).get? = Function.update l.get? h o := by
  funext k
  rw [Lib.get?_set hlt, Function.update_apply]

theorem get?_add_eq : (l.add e).get? = Function.update l.get? l.new (some e) := by
  funext k
  rw [Lib.get?_add, Function.update_apply]

theorem get?_new : l.get? l.new = none := by
  unfold Lib.get? Lib.new
  rw [List.getElem?_eq_none le_rfl]
  rfl

end Update

namespace Ledger

variable {v v' : Handle → Option Elf} {res res' : Handle → Option Nat} {ms : List Mapping} {m : Option Nat}

/-- Descriptors change, but for their place, and members go away. -/
theorem sub (hl : Ledger v res ms) (hold : ∀ h c', v' h = some c' → ∃ c, v h = some c ∧ SamePlace c c')
    (hroot : ∀ h c, v h = some c → c.parent = none → ∃ c', v' h = some c' ∧ c'.parent = none) :
    Ledger v' res ms := by
  refine ⟨hl.shared.sub fun h c' hc' => ?_, fun h c' m hc' hp hm => ?_, fun m k hk => ?_⟩
  · obtain ⟨c, hc, hs⟩ := hold h c' hc'
    exact ⟨c, hc, hs.parent⟩
  · obtain ⟨c, hc, hs⟩ := hold h c' hc'
    rw [hs.maximumSize, hs.mapAddress]
    exact hl.made h c m hc (hs.parent.symm.trans hp) hm
  · refine (hl.settled m k hk).imp_left ?_
    rintro ⟨hopen, h, c, hc, hp, hm⟩
    obtain ⟨c', hc', hp'⟩ := hroot h c hc hp
    exact ⟨hopen, h, c', hc', hp', hm⟩

theorem getElem?_concat {x k : Mapping} {j : Nat} (hk : (ms ++ [x])[j]? = some k) :
    ms[j]? = some k ∨ j = ms.length ∧ k = x := by
  rcases Nat.lt_trichotomy j ms.length with hlt | rfl | hgt
  · rw [List.getElem?_append_left hlt] at hk
    exact .inl hk
  · rw [List.getElem?_concat_length] at hk
    exact .inr ⟨rfl, (Option.some.inj hk).symm⟩
  · have hlen : (ms ++ [x]).length ≤ j := by
      rw [List.length_append]
      exact hgt
    rw [List.getElem?_eq_none hlen] at hk
    cases hk

theorem lt (hl : Ledger v res ms) {j : Nat} (hc : v h = some c) (hp : c.parent = none) (hm : res h = some j) :
    j < ms.length := by
  obtain ⟨hget, -⟩ := hl.made h c j hc hp hm
  obtain ⟨hlt, -⟩ := List.getElem?_eq_some_iff.mp hget
  exact hlt

/-- A mapping that no descriptor came of. -/
theorem undo (hl : Ledger v res ms) (size : Nat) : Ledger v res (ms ++ [⟨size, [size]⟩]) := by
  refine ⟨hl.shared, fun h c j hc hp hm => ?_, fun j k hk => ?_⟩
  · rw [List.getElem?_append_left (hl.lt hc hp hm)]
    exact hl.made h c j hc hp hm
  · rcases getElem?_concat hk with hk | ⟨-, rfl⟩
    · exact hl.settled j k hk
    · exact .inr rfl

/-- A new descriptor that uses what its parent uses. -/
theorem use (hl : Ledger v res ms) (hlinked : elfFamily.Linked v) (hn : v n = none)
    (hold : ∀ h c', v' h = some c' → h = n ∧ c' = c ∨ h ≠ n ∧ ∃ b, v h = some b ∧ SamePlace b c')
    (hkeep : ∀ h b, v h = some b → ∃ c', v' h = some c' ∧ c'.parent = b.parent) (hres : ∀ h, h ≠ n → res' h = res h)
    (hroot : c.parent = none → res' n = none)
    (hinherit : ∀ p m, c.parent = some p → res' n = some m → res p = some m) : Ledger v' res' ms := by
  have hne : ∀ {h b}, v h = some b → h ≠ n := by
    rintro h b hb rfl
    rw [hn] at hb
    cases hb
  refine ⟨hl.shared.new hlinked hn (fun h c' hc' => (hold h c' hc').imp_right ?_) hres hinherit
    fun k d m hp hm => ?_, fun h c' m hc' hp hm => ?_, fun m k hk => ?_⟩
  · rintro ⟨hne, b, hb, hs⟩
    exact ⟨hne, b, hb, hs.parent⟩
  · rw [hroot hp] at hm
    cases hm
  · rcases hold h c' hc' with ⟨rfl, rfl⟩ | ⟨hne, b, hb, hs⟩
    · rw [hroot hp] at hm
      cases hm
    · rw [hres h hne] at hm
      rw [hs.maximumSize, hs.mapAddress]
      exact hl.made h b m hb (hs.parent.symm.trans hp) hm
  · refine (hl.settled m k hk).imp_left ?_
    rintro ⟨hopen, h, b, hb, hp, hm⟩
    obtain ⟨c', hc', hp'⟩ := hkeep h b hb
    exact ⟨hopen, h, c', hc', hp'.trans hp, (hres h (hne hb)).trans hm⟩

/-- A new descriptor with a mapping of its own. -/
theorem own (hl : Ledger v res ms) (hlinked : elfFamily.Linked v) (hn : v n = none) (hparent : c.parent = none)
    (hmap : c.mapAddress.isSome) (hres : ∀ h, h ≠ n → res' h = res h) (hnew : res' n = some ms.length) :
    Ledger (Function.update v n (some c)) res' (ms ++ [⟨c.maximumSize, []⟩]) := by
  have hold : ∀ h c', Function.update v n (some c) h = some c' → h = n ∧ c' = c ∨ h ≠ n ∧ v h = some c' := by
    intro h c' hc'
    by_cases hh : h = n
    · subst hh
      rw [Function.update_self] at hc'
      exact .inl ⟨rfl, (Option.some.inj hc').symm⟩
    · rw [Function.update_of_ne hh] at hc'
      exact .inr ⟨hh, hc'⟩
  refine ⟨hl.shared.new hlinked hn (fun h c' hc' => (hold h c' hc').imp_right ?_) hres ?_ ?_,
    fun h c' m hc' hp hm => ?_, fun m k hk => ?_⟩
  · rintro ⟨hne, hc'⟩
    exact ⟨hne, c', hc', rfl⟩
  · intro p m hp
    cases hparent.symm.trans hp
  · intro k d m _ hm hd hp hk
    cases hnew.symm.trans hm
    exact lt_irrefl _ (hl.lt hd hp hk)
  · rcases hold h c' hc' with ⟨rfl, rfl⟩ | ⟨hne, hc'⟩
    · cases hnew.symm.trans hm
      rw [List.getElem?_concat_length]
      exact ⟨rfl, hmap⟩
    · rw [hres h hne] at hm
      rw [List.getElem?_append_left (hl.lt hc' hp hm)]
      exact hl.made h c' m hc' hp hm
  · rcases getElem?_concat hk with hk | ⟨rfl, rfl⟩
    · refine (hl.settled m k hk).imp_left ?_
      rintro ⟨hopen, h, b, hb, hp, hm⟩
      have hne : h ≠ n := by
        rintro rfl
        rw [hn] at hb
        cases hb
      exact ⟨hopen, h, b, by rw [Function.update_of_ne hne, hb], hp, (hres h hne).trans hm⟩
    · exact .inl ⟨rfl, n, c, Function.update_self .., hparent, hnew⟩

/-- The end of a descriptor without a parent and without a mapping. -/
theorem drop (hl : Ledger v res ms) (hnone : res h = none) : Ledger (Function.update v h none) res ms := by
  have hold : ∀ k x, Function.update v h none k = some x → v k = some x := by
    intro k x hx
    rw [Function.update_apply] at hx
    split at hx
    · cases hx
    · exact hx
  refine ⟨hl.shared.sub fun k x hx => ⟨x, hold k x hx, rfl⟩, fun k x m hx => hl.made k x m (hold k x hx),
    fun m k hk => (hl.settled m k hk).imp_left ?_⟩
  rintro ⟨hopen, r, b, hb, hp, hm⟩
  have hne : r ≠ h := by
    rintro rfl
    rw [hnone] at hm
    cases hm
  exact ⟨hopen, r, b, by rw [Function.update_of_ne hne, hb], hp, hm⟩

/-- The end of a descriptor without a parent, and of its mapping. -/
theorem unmap (hl : Ledger v res ms) (hc : v h = some c) (hparent : c.parent = none) {j : Nat} (hj : res h = some j) :
    Ledger (Function.update v h none) res (ms.modify j fun k => ⟨k.length, k.undone ++ [c.maximumSize]⟩) := by
  have hold : ∀ k x, Function.update v h none k = some x → k ≠ h ∧ v k = some x := by
    intro k x hx
    rw [Function.update_apply] at hx
    split at hx
    · cases hx
    · next hne => exact ⟨hne, hx⟩
  obtain ⟨hopen, -⟩ := hl.made h c j hc hparent hj
  refine ⟨hl.shared.sub fun k x hx => ⟨x, (hold k x hx).2, rfl⟩, fun k x m hx hp hm => ?_, fun m k hk => ?_⟩
  · obtain ⟨hne, hx⟩ := hold k x hx
    -- two descriptors without a parent have different mappings
    have hmj : j ≠ m := by
      rintro rfl
      exact hne (hl.shared.owner k x h c j hx hp hc hparent hm hj)
    rw [List.getElem?_modify_ne _ _ hmj]
    exact hl.made k x m hx hp hm
  · by_cases hmj : j = m
    · subst hmj
      rw [List.getElem?_modify_eq, hopen] at hk
      cases hk
      exact .inr rfl
    · rw [List.getElem?_modify_ne _ _ hmj] at hk
      refine (hl.settled m k hk).imp_left ?_
      rintro ⟨hopen', r, b, hb, hp, hm⟩
      have hne : r ≠ h := by
        rintro rfl
        exact hmj (Option.some.inj (hj.symm.trans hm))
      exact ⟨hopen', r, b, by rw [Function.update_of_ne hne, hb], hp, hm⟩

end Ledger

namespace Released

variable {v v' : Handle → Option Elf} {k : Nat} {freed : List (Handle × Elf)}

theorem assign (hr : Released v k freed) (hnone : ∀ h, v' h = none ↔ v h = none) : Released v' k freed := by
  refine ⟨hr.nodup, fun h => ?_, hr.idle⟩
  rw [hr.mem, hnone]

/-- A new descriptor. -/
theorem new (hr : Released v k freed) (hnone : ∀ h, v' h = none ↔ h ≠ k ∧ v h = none) : Released v' (k + 1) freed := by
  refine ⟨hr.nodup, fun h => ?_, hr.idle⟩
  rw [hr.mem, hnone, Nat.lt_succ_iff_lt_or_eq]
  constructor
  · rintro ⟨hlt, hnone⟩
    exact ⟨.inl hlt, Nat.ne_of_lt hlt, hnone⟩
  · rintro ⟨hlt, hne, hnone⟩
    exact ⟨hlt.resolve_right hne, hnone⟩

/-- The end of a descriptor. -/
theorem drop (hr : Released v k freed) (hlt : h < k) (hc : v h = some c) (hidle : e.refCount = 0 ∧ e.ar.children = [])
    (hnone : ∀ j, v' j = none ↔ j = h ∨ v j = none) : Released v' k (freed ++ [(h, e)]) := by
  refine ⟨?_, fun j => ?_, fun f hf => ?_⟩
  · rw [List.map_append, List.map_singleton, List.nodup_append]
    refine ⟨hr.nodup, List.nodup_singleton h, ?_⟩
    rintro j hj i hi rfl
    -- it was still there
    cases List.mem_singleton.mp hi
    have hgone := ((hr.mem h).mp hj).2
    rw [hc] at hgone
    cases hgone
  · rw [List.map_append, List.map_singleton, List.mem_append, List.mem_singleton, hr.mem, hnone]
    constructor
    · rintro (⟨hlt, hnone⟩ | rfl)
      · exact ⟨hlt, .inr hnone⟩
      · exact ⟨hlt, .inl rfl⟩
    · rintro ⟨hlt, rfl | hnone⟩
      · exact .inr rfl
      · exact .inl ⟨hlt, hnone⟩
  · rcases List.mem_append.mp hf with hf | hf
    · exact hr.idle f hf
    · rw [List.mem_singleton.mp hf]
      exact hidle

end Released

/-! ## Changes -/

namespace Heap

variable {H : Heap} {x x' : Option Handle} {hs : List (Handle × Nat)}

theorem Books.empty : Books none Heap.empty := by
  have hnone : ∀ (h : Handle), Heap.empty.lib.get? h = none := fun h => rfl
  have hsome : ∀ {h : Handle} {e : Elf}, Heap.empty.lib.get? h ≠ some e := by
    intro h e he
    rw [hnone] at he
    cases he
  refine ⟨⟨fun _ _ hc => absurd hc hsome, fun _ _ hc => absurd hc hsome, fun _ _ _ hc => absurd hc hsome⟩,
    fun _ _ _ _ hc => absurd hc hsome, fun _ _ _ hc => absurd hc hsome, rfl,
    ⟨⟨fun _ _ _ _ hc => absurd hc hsome, fun _ _ _ _ _ hc => absurd hc hsome⟩, fun _ _ _ hc => absurd hc hsome, ?_⟩,
    ⟨List.nodup_nil, ?_, ?_⟩⟩
  · intro m k hk
    have hget : ([] : List Mapping)[m]? = some k := hk
    rw [List.getElem?_nil] at hget
    cases hget
  · exact fun h => iff_of_false List.not_mem_nil fun hlt => Nat.not_lt_zero h hlt.1
  · exact fun f hf => absurd hf List.not_mem_nil

/-- A descriptor changes, but for its links and its place. -/
theorem Books.assign (hb : Books x H) (hget : H.lib.get? h = some e) (hplace : SamePlace e e')
    (hchildren : e'.ar.children = e.ar.children) (hx : ∀ k, k ≠ h → x' ≠ some k → x ≠ some k)
    (hcount : x' ≠ some h → e'.refCount = 0 → e'.kind = .ar ∧ e'.ar.children ≠ []) :
    Books x' ⟨⟨H.lib.elfs.set h (some e'), hs⟩, H.maps, H.mapped, H.freed⟩ := by
  have hv : (Lib.mk (H.lib.elfs.set h (some e')) hs).get? = Function.update H.lib.get? h (some e') :=
    get?_set_eq (Lib.lt_of_get? hget)
  have hold : ∀ k d, Function.update H.lib.get? h (some e') k = some d →
      k = h ∧ d = e' ∨ k ≠ h ∧ H.lib.get? k = some d := by
    intro k d hd
    rw [Function.update_apply] at hd
    split at hd
    · next hk => exact .inl ⟨hk, (Option.some.inj hd).symm⟩
    · next hk => exact .inr ⟨hk, hd⟩
  -- every descriptor has a forerunner at the same place
  have hfore : ∀ k d, Function.update H.lib.get? h (some e') k = some d → ∃ b, H.lib.get? k = some b ∧ SamePlace b d := by
    intro k d hd
    rcases hold k d hd with ⟨rfl, rfl⟩ | ⟨-, hd⟩
    · exact ⟨e, hget, hplace⟩
    · exact ⟨d, hd, rfl, rfl, rfl, rfl, rfl⟩
  refine ⟨?_, fun k d p a hd hp ha => ?_, fun k d hk hd hzero => ?_, ?_, ?_, ?_⟩
  · rw [hv]
    exact hb.linked.assign hget hplace.parent hchildren
  · rw [hv] at hd ha
    obtain ⟨d', hd', hsd⟩ := hfore k d hd
    obtain ⟨a', ha', hsa⟩ := hfore p a ha
    rw [hsa.kind]
    exact hb.ar k d' p a' hd' (hsd.parent.symm.trans hp) ha'
  · rw [hv] at hd
    rcases hold k d hd with ⟨rfl, rfl⟩ | ⟨hne, hd⟩
    · exact hcount hk hzero
    · exact hb.counted k d (hx k hne hk) hd hzero
  · rw [hb.maps, List.length_set]
  · show Ledger (Lib.mk _ _).get? _ _
    rw [hv]
    refine hb.ledger.sub hfore fun k d hd hp => ?_
    by_cases hk : k = h
    · subst hk
      cases hget.symm.trans hd
      exact ⟨e', Function.update_self .., hplace.parent.trans hp⟩
    · exact ⟨d, by rw [Function.update_of_ne hk, hd], hp⟩
  · show Released (Lib.mk _ _).get? (H.lib.elfs.set h (some e')).length _
    rw [hv, List.length_set]
    refine hb.released.assign fun k => ?_
    rw [Function.update_apply]
    split
    · next hk =>
      rw [hk, hget]
      exact iff_of_false nofun nofun
    · rfl

theorem Books.mapOf_new (hb : Books x H) {G : Heap} {m : Option Nat} (hG : G.maps = H.maps ++ [m]) (k : Handle) :
    G.mapOf k = if k = H.lib.new then m else H.mapOf k := by
  unfold mapOf Lib.new
  rw [hG, ← hb.maps]
  by_cases hk : k = H.maps.length
  · rw [if_pos hk, hk, List.getElem?_concat_length]
    rfl
  · rw [if_neg hk]
    rcases Nat.lt_or_ge k H.maps.length with hlt | hge
    · rw [List.getElem?_append_left hlt]
    · have hlen : (H.maps ++ [m]).length ≤ k := by
        rw [List.length_append, List.length_singleton]
        exact Nat.lt_of_le_of_ne hge (Ne.symm hk)
      rw [List.getElem?_eq_none hlen, List.getElem?_eq_none hge]

theorem length_add : (l.add e).elfs.length = l.elfs.length + 1 := by
  show (l.elfs ++ [some e]).length = _
  rw [List.length_append, List.length_singleton]

/-- What is found after a new descriptor. -/
theorem get?_add_cases {d : Elf} {k : Handle} (hd : (l.add e).get? k = some d) :
    k = l.new ∧ d = e ∨ k ≠ l.new ∧ l.get? k = some d := by
  rw [Lib.get?_add] at hd
  split at hd
  · next hk => exact .inl ⟨hk, (Option.some.inj hd).symm⟩
  · next hk => exact .inr ⟨hk, hd⟩

/-- A new descriptor without a parent. The mapping behind it, if there is one, has just been made. -/
theorem Books.root (hb : Books x H) (hparent : e.parent = none) (hnil : e.ar.children = []) (hcount : e.refCount ≠ 0)
    {m : Option Nat} {ms : List Mapping} (hms : m = none ∧ ms = H.mapped ∨
      m = some H.mapped.length ∧ ms = H.mapped ++ [⟨e.maximumSize, []⟩] ∧ e.mapAddress.isSome) :
    Books x ⟨H.lib.add e, H.maps ++ [m], ms, H.freed⟩ := by
  have hnew : H.lib.get? H.lib.new = none := get?_new
  have hmap : ∀ k, (Heap.mk (H.lib.add e) (H.maps ++ [m]) ms H.freed).mapOf k =
      if k = H.lib.new then m else H.mapOf k := hb.mapOf_new rfl
  have hother : ∀ k, k ≠ H.lib.new → (Heap.mk (H.lib.add e) (H.maps ++ [m]) ms H.freed).mapOf k = H.mapOf k := by
    intro k hk
    rw [hmap, if_neg hk]
  refine ⟨?_, fun k d p a hd hp ha => ?_, fun k d hk hd hzero => ?_, ?_, ?_, ?_⟩
  · rw [get?_add_eq]
    exact hb.linked.root hnew hparent hnil
  · rcases get?_add_cases hd with ⟨-, rfl⟩ | ⟨-, hd⟩
    · cases hparent.symm.trans hp
    · rcases get?_add_cases ha with ⟨rfl, -⟩ | ⟨-, ha⟩
      · exact absurd hp (hb.linked.not_parent hnew hd)
      · exact hb.ar k d p a hd hp ha
  · rcases get?_add_cases hd with ⟨-, rfl⟩ | ⟨-, hd⟩
    · exact absurd hzero hcount
    · exact hb.counted k d hk hd hzero
  · rw [length_add, List.length_append, List.length_singleton, hb.maps]
  · rcases hms with ⟨rfl, rfl⟩ | ⟨rfl, rfl, hmapped⟩
    · refine hb.ledger.use hb.linked hnew (fun k d hd => (get?_add_cases hd).imp_right ?_) (fun k d hd => ?_) hother
        (fun _ => by rw [hmap, if_pos rfl]) fun q m hq => ?_
      · rintro ⟨hne, hd⟩
        exact ⟨hne, d, hd, rfl, rfl, rfl, rfl, rfl⟩
      · have hne : k ≠ H.lib.new := by
          rintro rfl
          rw [hnew] at hd
          cases hd
        exact ⟨d, by rw [Lib.get?_add, if_neg hne, hd], rfl⟩
      · cases hparent.symm.trans hq
    · rw [get?_add_eq]
      exact hb.ledger.own hb.linked hnew hparent hmapped hother (by rw [hmap, if_pos rfl])
  · rw [length_add]
    refine hb.released.new fun k => ?_
    rw [Lib.get?_add]
    split
    · next hk => exact iff_of_false nofun fun hor => hor.1 hk
    · next hk => exact (and_iff_right hk).symm

/-- A new descriptor below the archive `p`, which becomes its first child. -/
theorem Books.child (hb : Books x H) (hget : H.lib.get? p = some a) (hk : a.kind = .ar) (hparent : e.parent = some p)
    (hnil : e.ar.children = []) (hcount : e.refCount ≠ 0) {m : Option Nat}
    (hmap : ∀ j, m = some j → H.mapOf p = some j) :
    Books x ((H.add m e).put p (a.setAr { a.ar with children := H.lib.new :: a.ar.children })) := by
  generalize ha' : a.setAr { a.ar with children := H.lib.new :: a.ar.children } = a'
  have hplace : SamePlace a a' := by
    rw [← ha']
    exact ⟨rfl, rfl, rfl, rfl, rfl⟩
  have hnew : H.lib.get? H.lib.new = none := get?_new
  have hplt : p < H.lib.new := Lib.lt_of_get? hget
  have hpne : p ≠ H.lib.new := Nat.ne_of_lt hplt
  have hv : ((H.add m e).put p a').lib.get? =
      Function.update (Function.update H.lib.get? H.lib.new (some e)) p (some a') := by
    have hlt : p < (H.lib.add e).elfs.length := by
      rw [length_add]
      exact Nat.lt_succ_of_lt hplt
    show (Lib.mk ((H.lib.add e).elfs.set p (some a')) (H.lib.add e).headers).get? = _
    rw [get?_set_eq hlt, get?_add_eq]
  have hfind : ∀ k d, ((H.add m e).put p a').lib.get? k = some d →
      k = H.lib.new ∧ d = e ∨ k ≠ H.lib.new ∧ ∃ b, H.lib.get? k = some b ∧ SamePlace b d ∧
        (k = p ∧ d = a' ∨ k ≠ p ∧ d = b) := by
    intro k d hd
    rw [hv] at hd
    by_cases hkp : k = p
    · subst hkp
      rw [Function.update_self] at hd
      obtain rfl := Option.some.inj hd
      exact .inr ⟨hpne, a, hget, hplace, .inl ⟨rfl, rfl⟩⟩
    · rw [Function.update_of_ne hkp, Function.update_apply] at hd
      split at hd
      · next hk => exact .inl ⟨hk, (Option.some.inj hd).symm⟩
      · next hk => exact .inr ⟨hk, d, hd, ⟨rfl, rfl, rfl, rfl, rfl⟩, .inr ⟨hkp, rfl⟩⟩
  have hmapOf : ∀ k, ((H.add m e).put p a').mapOf k = if k = H.lib.new then m else H.mapOf k := hb.mapOf_new rfl
  refine ⟨?_, fun k d q b hd hq hbq => ?_, fun k d hkx hd hzero => ?_, ?_, ?_, ?_⟩
  · rw [hv]
    refine hb.linked.child hnew hplt hget hparent hnil ?_ ?_
    · exact hplace.parent
    · rw [← ha']
      rfl
  · rcases hfind q b hbq with ⟨rfl, -⟩ | ⟨-, b', hb', hsb, -⟩
    · -- nothing is below the new descriptor
      rcases hfind k d hd with ⟨rfl, rfl⟩ | ⟨-, d', hd', hsd, -⟩
      · exact absurd (Option.some.inj (hparent.symm.trans hq)) hpne
      · exact absurd (hsd.parent.symm.trans hq) (hb.linked.not_parent hnew hd')
    · rw [hsb.kind]
      rcases hfind k d hd with ⟨rfl, rfl⟩ | ⟨-, d', hd', hsd, -⟩
      · obtain rfl := Option.some.inj (hparent.symm.trans hq)
        cases hget.symm.trans hb'
        exact hk
      · exact hb.ar k d' q b' hd' (hsd.parent.symm.trans hq) hb'
  · rcases hfind k d hd with ⟨-, rfl⟩ | ⟨-, d', hd', hsd, ⟨rfl, rfl⟩ | ⟨-, rfl⟩⟩
    · exact absurd hzero hcount
    · refine ⟨hsd.kind.trans (by cases hget.symm.trans hd'; exact hk), ?_⟩
      rw [← ha']
      exact List.cons_ne_nil _ _
    · exact hb.counted k d hkx hd' hzero
  · show (H.maps ++ [m]).length = ((H.lib.add e).elfs.set p (some a')).length
    rw [List.length_set, length_add, List.length_append, List.length_singleton, hb.maps]
  · refine hb.ledger.use hb.linked hnew (fun k d hd => (hfind k d hd).imp_right ?_) (fun k d hd => ?_)
      (fun k hkn => by rw [hmapOf, if_neg hkn]) (fun hroot => ?_) fun q j hq hj => ?_
    · rintro ⟨hne, b, hget', hs, -⟩
      exact ⟨hne, b, hget', hs⟩
    · by_cases hkp : k = p
      · subst hkp
        cases hget.symm.trans hd
        exact ⟨a', by rw [hv, Function.update_self], hplace.parent⟩
      · have hne : k ≠ H.lib.new := by
          rintro rfl
          rw [hnew] at hd
          cases hd
        exact ⟨d, by rw [hv, Function.update_of_ne hkp, Function.update_of_ne hne, hd], rfl⟩
    · cases hparent.symm.trans hroot
    · rw [hmapOf, if_pos rfl] at hj
      obtain rfl := Option.some.inj (hparent.symm.trans hq)
      exact hmap j hj
  · show Released _ ((H.lib.add e).elfs.set p (some a')).length _
    rw [List.length_set, length_add]
    refine hb.released.new fun k => ?_
    rw [hv, Function.update_apply]
    split
    · next hkp =>
      refine iff_of_false nofun ?_
      rintro ⟨-, hnone⟩
      rw [hkp, hget] at hnone
      cases hnone
    · rw [Function.update_apply]
      split
      · next hkn => exact iff_of_false nofun fun hor => hor.1 hkn
      · next hkn => exact (and_iff_right hkn).symm

theorem modify_concat (ms : List Mapping) (k : Mapping) (f : Mapping → Mapping) :
    (ms ++ [k]).modify ms.length f = ms ++ [f k] := by
  induction ms with
  | nil => rfl
  | cons j ms ih =>
    rw [List.cons_append, List.length_cons, List.modify_succ_cons, ih]
    rfl

/-- A mapping that no descriptor came of. -/
theorem Books.undo (hb : Books x H) (size : Nat) : Books x ((H.mmap size).munmap H.mapped.length size) := by
  refine ⟨hb.linked, hb.ar, hb.counted, hb.maps, ?_, hb.released⟩
  have hms : ((H.mmap size).munmap H.mapped.length size).mapped = H.mapped ++ [⟨size, [size]⟩] := modify_concat ..
  rw [hms]
  exact hb.ledger.undo size

/-- The end of a descriptor without a parent, and of its mapping. -/
theorem Books.dropRoot (hb : Books (some h) H) (hget : H.lib.get? h = some e) (hparent : e.parent = none)
    (hidle : e.refCount = 0 ∧ e.ar.children = []) : Books none ((H.unmapFile h e).release h e) := by
  have hlt := Lib.lt_of_get? hget
  obtain ⟨ms, heq, hledger⟩ : ∃ ms, H.unmapFile h e = ⟨H.lib, H.maps, ms, H.freed⟩ ∧
      Ledger (Function.update H.lib.get? h none) H.mapOf ms := by
    unfold unmapFile
    cases hmap : H.mapOf h with
    | none =>
      refine ⟨H.mapped, ?_, hb.ledger.drop hmap⟩
      simp only
      exact ite_self _
    | some m =>
      obtain ⟨-, hmapped⟩ := hb.ledger.made h e m hget hparent hmap
      rw [if_pos ⟨hmapped, hparent⟩]
      exact ⟨_, rfl, hb.ledger.unmap hget hparent hmap⟩
  rw [heq]
  have hv : ((Heap.mk H.lib H.maps ms H.freed).release h e).lib.get? = Function.update H.lib.get? h none :=
    get?_set_eq hlt
  have hold : ∀ k d, Function.update H.lib.get? h none k = some d → k ≠ h ∧ H.lib.get? k = some d := by
    intro k d hd
    rw [Function.update_apply] at hd
    split at hd
    · cases hd
    · next hk => exact ⟨hk, hd⟩
  refine ⟨?_, fun k d p a hd hp ha => ?_, fun k d _ hd hzero => ?_, ?_, ?_, ?_⟩
  · rw [hv]
    exact hb.linked.drop hget hparent hidle.2
  · rw [hv] at hd ha
    exact hb.ar k d p a (hold k d hd).2 hp (hold p a ha).2
  · rw [hv] at hd
    obtain ⟨hne, hd⟩ := hold k d hd
    exact hb.counted k d (fun heq => hne (Option.some.inj heq).symm) hd hzero
  · show H.maps.length = (H.lib.elfs.set h none).length
    rw [List.length_set, hb.maps]
  · rw [hv]
    exact hledger
  · show Released _ (H.lib.elfs.set h none).length _
    rw [hv, List.length_set]
    refine hb.released.drop hlt hget hidle fun j => ?_
    rw [Function.update_apply]
    split
    · next hj => exact iff_of_true rfl (.inl hj)
    · next hj => exact (or_iff_right hj).symm

/-- The end of a descriptor that was taken out of the list of its parent, which may be left over now. -/
theorem Books.dropChild (hb : Books (some h) H) (hget : H.lib.get? h = some e) (hparent : e.parent = some p)
    (hidle : e.refCount = 0 ∧ e.ar.children = []) (ha : H.lib.get? p = some a) :
    Books (some p) (((H.put p (a.setAr { a.ar with children := a.ar.children.erase h })).unmapFile h e).release h e) := by
  generalize ha' : a.setAr { a.ar with children := a.ar.children.erase h } = a'
  have hplace : SamePlace a a' := by
    rw [← ha']
    exact ⟨rfl, rfl, rfl, rfl, rfl⟩
  have hlt := Lib.lt_of_get? hget
  have hpne : p ≠ h := Nat.ne_of_lt (hb.linked.parent h e p hget hparent).1
  have hno : ¬ (e.mapAddress.isSome ∧ e.parent = none) := by
    rw [hparent]
    exact fun hor => nomatch hor.2
  rw [unmapFile, if_neg hno]
  have hv : (((H.put p a').release h e).lib).get? =
      Function.update (Function.update H.lib.get? p (some a')) h none := by
    have hlt' : h < (H.lib.elfs.set p (some a')).length := by
      rw [List.length_set]
      exact hlt
    show (Lib.mk ((H.lib.elfs.set p (some a')).set h none) H.lib.headers).get? = _
    rw [@get?_set_eq ⟨H.lib.elfs.set p (some a'), H.lib.headers⟩ h none _ hlt', get?_set_eq (Lib.lt_of_get? ha)]
  have hfind : ∀ k d, ((H.put p a').release h e).lib.get? k = some d →
      k ≠ h ∧ ∃ b, H.lib.get? k = some b ∧ SamePlace b d ∧ (k = p ∧ d = a' ∨ k ≠ p ∧ d = b) := by
    intro k d hd
    rw [hv, Function.update_apply] at hd
    split at hd
    · cases hd
    · next hkh =>
      refine ⟨hkh, ?_⟩
      rw [Function.update_apply] at hd
      split at hd
      · next hkp =>
        obtain rfl := Option.some.inj hd
        subst hkp
        exact ⟨a, ha, hplace, .inl ⟨rfl, rfl⟩⟩
      · next hkp => exact ⟨d, hd, ⟨rfl, rfl, rfl, rfl, rfl⟩, .inr ⟨hkp, rfl⟩⟩
  refine ⟨?_, fun k d q b hd hq hbq => ?_, fun k d hk hd hzero => ?_, ?_, ?_, ?_⟩
  · rw [hv]
    refine hb.linked.dropChild hget hparent hidle.2 ha hplace.parent ?_
    rw [← ha']
    rfl
  · obtain ⟨-, d', hd', hsd, -⟩ := hfind k d hd
    obtain ⟨-, b', hb', hsb, -⟩ := hfind q b hbq
    rw [hsb.kind]
    exact hb.ar k d' q b' hd' (hsd.parent.symm.trans hq) hb'
  · obtain ⟨hkh, d', hd', -, ⟨rfl, -⟩ | ⟨-, rfl⟩⟩ := hfind k d hd
    · exact absurd rfl hk
    · exact hb.counted k d (fun heq => hkh (Option.some.inj heq).symm) hd' hzero
  · show H.maps.length = ((H.lib.elfs.set p (some a')).set h none).length
    rw [List.length_set, List.length_set, hb.maps]
  · refine hb.ledger.sub (fun k d hd => ?_) fun k d hd hroot => ?_
    · obtain ⟨-, b, hbk, hs, -⟩ := hfind k d hd
      exact ⟨b, hbk, hs⟩
    · have hkh : k ≠ h := by
        rintro rfl
        cases hget.symm.trans hd
        cases hparent.symm.trans hroot
      by_cases hkp : k = p
      · subst hkp
        cases ha.symm.trans hd
        exact ⟨a', by rw [hv, Function.update_of_ne hkh, Function.update_self], hplace.parent.trans hroot⟩
      · exact ⟨d, by rw [hv, Function.update_of_ne hkh, Function.update_of_ne hkp, hd], hroot⟩
  · show Released _ ((H.lib.elfs.set p (some a')).set h none).length _
    rw [List.length_set, List.length_set]
    refine hb.released.drop hlt hget hidle fun j => ?_
    rw [hv, Function.update_apply]
    split
    · next hj => exact iff_of_true rfl (.inl hj)
    · next hj =>
      rw [Function.update_apply, or_iff_right hj]
      split
      · next hjp =>
        rw [hjp, ha]
        exact iff_of_false nofun nofun
      · rfl

end Heap

end LibElf.Elfutils
