import Mathlib.Logic.Function.Basic
import Mathlib.Data.List.Nodup
import Mathlib.Tactic.Common

/-!
# Families of cells

Cells that know their parent and keep a list of their children. A cell is older than its children, and a cell that
goes away has none. Cells may use something that belongs to the oldest of them.

1. `Family γ`, the two links of a cell, and `unlink`, the search for a child in the list of its parent.
2. `Linked`: the lists hold the living children, each once. Its rules are a new cell with and without a parent, an
   assignment that keeps the links, and the end of a cell with and without a parent.
3. `Shared`: what a cell uses, its parent uses too, and belongs to one cell without a parent. `Linked.owner` says that
   whatever is in use belongs to a cell that is still there.
-/

namespace LibElf

structure Family (γ : Type) where
  parent : γ → Option Nat
  children : γ → List Nat

/-- Take `h` out of a list: a test of its head and a walk along the rest. There is nothing behind the last element. -/
def unlink (h : Nat) : List Nat → Option (List Nat)
  | [] => none
  | c :: cs => if c = h then some cs else (unlink h cs).map (c :: ·)

theorem unlink_eq_erase {h : Nat} {l : List Nat} (hmem : h ∈ l) : unlink h l = some (l.erase h) := by
  induction l with
  | nil => cases hmem
  | cons c cs ih =>
    rw [unlink, List.erase_cons]
    by_cases hc : c = h
    · rw [if_pos hc, if_pos (beq_iff_eq.mpr hc)]
    · have hrest : h ∈ cs := (List.mem_cons.mp hmem).resolve_left (Ne.symm hc)
      rw [if_neg hc, if_neg (by rwa [beq_iff_eq]), ih hrest, Option.map_some]

namespace Family

variable {γ : Type} (F : Family γ)

/-- The links between the cells that are there, as `v` finds them. -/
structure Linked (v : Nat → Option γ) : Prop where
  nodup : ∀ p a, v p = some a → (F.children a).Nodup
  mem : ∀ p a, v p = some a → ∀ h, h ∈ F.children a ↔ ∃ c, v h = some c ∧ F.parent c = some p
  parent : ∀ h c p, v h = some c → F.parent c = some p → p < h ∧ ∃ a, v p = some a

variable {F} {v : Nat → Option γ} {h n p : Nat} {a a' c c' : γ}

theorem Linked.nil : F.Linked fun _ => none := ⟨nofun, nofun, nofun⟩

/-- A cell whose place is empty has no children. -/
theorem Linked.not_parent (hl : F.Linked v) (hn : v n = none) (hc : v h = some c) : F.parent c ≠ some n := by
  intro hp
  obtain ⟨-, a, ha⟩ := hl.parent h c n hc hp
  rw [hn] at ha
  cases ha

/-- A cell without children is no parent. -/
theorem Linked.not_parent_of_nil (hl : F.Linked v) (ha : v p = some a) (hnil : F.children a = []) (hc : v h = some c) :
    F.parent c ≠ some p := by
  intro hp
  have hmem := (hl.mem p a ha h).mpr ⟨c, hc, hp⟩
  rw [hnil] at hmem
  cases hmem

theorem Linked.mem_children (hl : F.Linked v) (hc : v h = some c) (hp : F.parent c = some p) (ha : v p = some a) :
    h ∈ F.children a :=
  (hl.mem p a ha h).mpr ⟨c, hc, hp⟩

/-- An assignment that keeps the links. -/
theorem Linked.assign (hl : F.Linked v) (hc : v h = some c) (hparent : F.parent c' = F.parent c)
    (hchildren : F.children c' = F.children c) : F.Linked (Function.update v h (some c')) := by
  -- every cell has a forerunner with the same links
  have hold : ∀ k x, Function.update v h (some c') k = some x → ∃ y, v k = some y ∧ F.parent x = F.parent y ∧
      F.children x = F.children y := by
    intro k x hx
    by_cases hk : k = h
    · subst hk
      rw [Function.update_self] at hx
      cases hx
      exact ⟨c, hc, hparent, hchildren⟩
    · rw [Function.update_of_ne hk] at hx
      exact ⟨x, hx, rfl, rfl⟩
  have hnew : ∀ k y, v k = some y → ∃ x, Function.update v h (some c') k = some x ∧ F.parent x = F.parent y := by
    intro k y hy
    by_cases hk : k = h
    · subst hk
      cases hc.symm.trans hy
      exact ⟨c', Function.update_self .., hparent⟩
    · exact ⟨y, by rw [Function.update_of_ne hk, hy], rfl⟩
  refine ⟨fun p x hx => ?_, fun p x hx k => ?_, fun k x p hx hp => ?_⟩
  · obtain ⟨y, hy, -, hyc⟩ := hold p x hx
    rw [hyc]
    exact hl.nodup p y hy
  · obtain ⟨y, hy, -, hyc⟩ := hold p x hx
    rw [hyc, hl.mem p y hy k]
    constructor
    · rintro ⟨z, hz, hzp⟩
      obtain ⟨z', hz', hzp'⟩ := hnew k z hz
      exact ⟨z', hz', hzp'.trans hzp⟩
    · rintro ⟨z, hz, hzp⟩
      obtain ⟨z', hz', hzp', -⟩ := hold k z hz
      exact ⟨z', hz', hzp'.symm.trans hzp⟩
  · obtain ⟨y, hy, hyp, -⟩ := hold k x hx
    obtain ⟨hlt, b, hb⟩ := hl.parent k y p hy (hyp.symm.trans hp)
    obtain ⟨b', hb', -⟩ := hnew p b hb
    exact ⟨hlt, b', hb'⟩

/-- A new cell without a parent. -/
theorem Linked.root (hl : F.Linked v) (hn : v n = none) (hparent : F.parent c = none) (hnil : F.children c = []) :
    F.Linked (Function.update v n (some c)) := by
  have hnew : ∀ k x, Function.update v n (some c) k = some x → k = n ∧ x = c ∨ k ≠ n ∧ v k = some x := by
    intro k x hx
    by_cases hk : k = n
    · subst hk
      rw [Function.update_self] at hx
      exact .inl ⟨rfl, (Option.some.inj hx).symm⟩
    · rw [Function.update_of_ne hk] at hx
      exact .inr ⟨hk, hx⟩
  have hold : ∀ k x, v k = some x → Function.update v n (some c) k = some x := by
    intro k x hx
    have hk : k ≠ n := by
      rintro rfl
      rw [hn] at hx
      cases hx
    rw [Function.update_of_ne hk, hx]
  refine ⟨fun p x hx => ?_, fun p x hx k => ?_, fun k x p hx hp => ?_⟩
  · rcases hnew p x hx with ⟨-, rfl⟩ | ⟨-, hx⟩
    · rw [hnil]
      exact List.nodup_nil
    · exact hl.nodup p x hx
  · have hchild : (∃ y, Function.update v n (some c) k = some y ∧ F.parent y = some p) ↔
        ∃ y, v k = some y ∧ F.parent y = some p := by
      constructor
      · rintro ⟨y, hy, hyp⟩
        rcases hnew k y hy with ⟨-, rfl⟩ | ⟨-, hy⟩
        · rw [hparent] at hyp
          cases hyp
        · exact ⟨y, hy, hyp⟩
      · rintro ⟨y, hy, hyp⟩
        exact ⟨y, hold k y hy, hyp⟩
    rw [hchild]
    rcases hnew p x hx with ⟨rfl, rfl⟩ | ⟨-, hx⟩
    · rw [hnil]
      refine iff_of_false List.not_mem_nil ?_
      rintro ⟨y, hy, hyp⟩
      exact hl.not_parent hn hy hyp
    · exact hl.mem p x hx k
  · rcases hnew k x hx with ⟨-, rfl⟩ | ⟨-, hx⟩
    · rw [hparent] at hp
      cases hp
    · obtain ⟨hlt, b, hb⟩ := hl.parent k x p hx hp
      exact ⟨hlt, b, hold p b hb⟩

/-- A new cell below `p`, which becomes the first child. -/
theorem Linked.child (hl : F.Linked v) (hn : v n = none) (hpn : p < n) (ha : v p = some a) (hparent : F.parent c = some p)
    (hnil : F.children c = []) (hpa : F.parent a' = F.parent a) (hca : F.children a' = n :: F.children a) :
    F.Linked (Function.update (Function.update v n (some c)) p (some a')) := by
  have hne : p ≠ n := Nat.ne_of_lt hpn
  have hnew : ∀ k x, Function.update (Function.update v n (some c)) p (some a') k = some x →
      k = p ∧ x = a' ∨ k = n ∧ x = c ∨ k ≠ p ∧ k ≠ n ∧ v k = some x := by
    intro k x hx
    by_cases hkp : k = p
    · subst hkp
      rw [Function.update_self] at hx
      exact .inl ⟨rfl, (Option.some.inj hx).symm⟩
    · rw [Function.update_of_ne hkp] at hx
      by_cases hkn : k = n
      · subst hkn
        rw [Function.update_self] at hx
        exact .inr (.inl ⟨rfl, (Option.some.inj hx).symm⟩)
      · rw [Function.update_of_ne hkn] at hx
        exact .inr (.inr ⟨hkp, hkn, hx⟩)
  have hold : ∀ k x, v k = some x → ∃ y, Function.update (Function.update v n (some c)) p (some a') k = some y ∧
      F.parent y = F.parent x := by
    intro k x hx
    by_cases hkp : k = p
    · subst hkp
      cases ha.symm.trans hx
      exact ⟨a', Function.update_self .., hpa⟩
    · have hkn : k ≠ n := by
        rintro rfl
        rw [hn] at hx
        cases hx
      exact ⟨x, by rw [Function.update_of_ne hkp, Function.update_of_ne hkn, hx], rfl⟩
  have hcell : Function.update (Function.update v n (some c)) p (some a') n = some c := by
    rw [Function.update_of_ne (Ne.symm hne), Function.update_self]
  -- the children of a cell are those from before, and the new one below `p`
  have hchild : ∀ q k, (∃ y, Function.update (Function.update v n (some c)) p (some a') k = some y ∧
      F.parent y = some q) ↔ k = n ∧ q = p ∨ ∃ y, v k = some y ∧ F.parent y = some q := by
    intro q k
    constructor
    · rintro ⟨y, hy, hyq⟩
      rcases hnew k y hy with ⟨rfl, rfl⟩ | ⟨rfl, rfl⟩ | ⟨-, -, hy⟩
      · exact .inr ⟨a, ha, hpa.symm.trans hyq⟩
      · exact .inl ⟨rfl, Option.some.inj (hyq.symm.trans hparent)⟩
      · exact .inr ⟨y, hy, hyq⟩
    · rintro (⟨rfl, rfl⟩ | ⟨y, hy, hyq⟩)
      · exact ⟨c, hcell, hparent⟩
      · obtain ⟨z, hz, hzp⟩ := hold k y hy
        exact ⟨z, hz, hzp.trans hyq⟩
  refine ⟨fun q x hx => ?_, fun q x hx k => ?_, fun k x q hx hq => ?_⟩
  · rcases hnew q x hx with ⟨rfl, rfl⟩ | ⟨-, rfl⟩ | ⟨-, -, hx⟩
    · rw [hca, List.nodup_cons]
      refine ⟨fun hmem => ?_, hl.nodup q a ha⟩
      obtain ⟨y, hy, -⟩ := (hl.mem q a ha n).mp hmem
      rw [hn] at hy
      cases hy
    · rw [hnil]
      exact List.nodup_nil
    · exact hl.nodup q x hx
  · rw [hchild q k]
    rcases hnew q x hx with ⟨rfl, rfl⟩ | ⟨rfl, rfl⟩ | ⟨hqp, -, hx⟩
    · rw [hca, List.mem_cons, hl.mem q a ha k]
      exact or_congr_left (iff_self_and.mpr fun _ => rfl)
    · rw [hnil]
      refine iff_of_false List.not_mem_nil ?_
      rintro (⟨-, heq⟩ | ⟨y, hy, hyq⟩)
      · exact hne heq.symm
      · exact hl.not_parent hn hy hyq
    · rw [hl.mem q x hx k]
      exact (or_iff_right fun hor => hqp hor.2).symm
  · rcases hnew k x hx with ⟨rfl, rfl⟩ | ⟨rfl, rfl⟩ | ⟨-, -, hx⟩
    · obtain ⟨hlt, b, hb⟩ := hl.parent k a q ha (hpa.symm.trans hq)
      obtain ⟨b', hb', -⟩ := hold q b hb
      exact ⟨hlt, b', hb'⟩
    · cases hparent.symm.trans hq
      exact ⟨hpn, a', Function.update_self ..⟩
    · obtain ⟨hlt, b, hb⟩ := hl.parent k x q hx hq
      obtain ⟨b', hb', -⟩ := hold q b hb
      exact ⟨hlt, b', hb'⟩

/-- The end of a cell without children. Whoever is left has no link to it. -/
theorem Linked.drop (hl : F.Linked v) (hc : v h = some c) (hparent : F.parent c = none) (hnil : F.children c = []) :
    F.Linked (Function.update v h none) := by
  have hold : ∀ k x, Function.update v h none k = some x ↔ k ≠ h ∧ v k = some x := by
    intro k x
    by_cases hk : k = h
    · subst hk
      rw [Function.update_self]
      exact iff_of_false nofun fun hor => hor.1 rfl
    · rw [Function.update_of_ne hk]
      exact (and_iff_right hk).symm
  refine ⟨fun p x hx => hl.nodup p x ((hold p x).mp hx).2, fun p x hx k => ?_, fun k x p hx hp => ?_⟩
  · rw [hl.mem p x ((hold p x).mp hx).2 k]
    refine exists_congr fun y => ?_
    rw [hold k y, and_assoc]
    refine (and_iff_right_of_imp ?_).symm
    rintro ⟨hy, hyp⟩ rfl
    cases hc.symm.trans hy
    rw [hparent] at hyp
    cases hyp
  · obtain ⟨-, hk⟩ := (hold k x).mp hx
    obtain ⟨hlt, b, hb⟩ := hl.parent k x p hk hp
    have hph : p ≠ h := by
      rintro rfl
      exact hl.not_parent_of_nil hc hnil hk hp
    exact ⟨hlt, b, (hold p b).mpr ⟨hph, hb⟩⟩

/-- The end of a cell without children that was taken out of the list of its parent. -/
theorem Linked.dropChild (hl : F.Linked v) (hc : v h = some c) (hparent : F.parent c = some p) (hnil : F.children c = [])
    (ha : v p = some a) (hpa : F.parent a' = F.parent a) (hca : F.children a' = (F.children a).erase h) :
    F.Linked (Function.update (Function.update v p (some a')) h none) := by
  have hph : p ≠ h := Nat.ne_of_lt (hl.parent h c p hc hparent).1
  have hnew : ∀ k x, Function.update (Function.update v p (some a')) h none k = some x →
      k ≠ h ∧ (k = p ∧ x = a' ∨ k ≠ p ∧ v k = some x) := by
    intro k x hx
    by_cases hk : k = h
    · subst hk
      rw [Function.update_self] at hx
      cases hx
    · rw [Function.update_of_ne hk] at hx
      refine ⟨hk, ?_⟩
      by_cases hkp : k = p
      · subst hkp
        rw [Function.update_self] at hx
        exact .inl ⟨rfl, (Option.some.inj hx).symm⟩
      · rw [Function.update_of_ne hkp] at hx
        exact .inr ⟨hkp, hx⟩
  have hold : ∀ k x, k ≠ h → v k = some x → ∃ y, Function.update (Function.update v p (some a')) h none k = some y ∧
      F.parent y = F.parent x := by
    intro k x hk hx
    by_cases hkp : k = p
    · subst hkp
      cases ha.symm.trans hx
      exact ⟨a', by rw [Function.update_of_ne hk, Function.update_self], hpa⟩
    · exact ⟨x, by rw [Function.update_of_ne hk, Function.update_of_ne hkp, hx], rfl⟩
  have hchild : ∀ q k, (∃ y, Function.update (Function.update v p (some a')) h none k = some y ∧
      F.parent y = some q) ↔ k ≠ h ∧ ∃ y, v k = some y ∧ F.parent y = some q := by
    intro q k
    constructor
    · rintro ⟨y, hy, hyq⟩
      obtain ⟨hk, ⟨rfl, rfl⟩ | ⟨-, hy⟩⟩ := hnew k y hy
      · exact ⟨hk, a, ha, hpa.symm.trans hyq⟩
      · exact ⟨hk, y, hy, hyq⟩
    · rintro ⟨hk, y, hy, hyq⟩
      obtain ⟨z, hz, hzp⟩ := hold k y hk hy
      exact ⟨z, hz, hzp.trans hyq⟩
  refine ⟨fun q x hx => ?_, fun q x hx k => ?_, fun k x q hx hq => ?_⟩
  · obtain ⟨-, ⟨rfl, rfl⟩ | ⟨-, hx⟩⟩ := hnew q x hx
    · rw [hca]
      exact (hl.nodup q a ha).erase h
    · exact hl.nodup q x hx
  · rw [hchild q k]
    obtain ⟨-, ⟨rfl, rfl⟩ | ⟨hqp, hx⟩⟩ := hnew q x hx
    · rw [hca, (hl.nodup q a ha).mem_erase_iff, hl.mem q a ha k]
    · rw [hl.mem q x hx k]
      refine (and_iff_right_of_imp ?_).symm
      rintro ⟨y, hy, hyq⟩ rfl
      cases hc.symm.trans hy
      exact hqp (Option.some.inj (hyq.symm.trans hparent))
  · obtain ⟨-, hor⟩ := hnew k x hx
    obtain ⟨y, hy, hyp⟩ : ∃ y, v k = some y ∧ F.parent x = F.parent y := by
      rcases hor with ⟨rfl, rfl⟩ | ⟨-, hx⟩
      · exact ⟨a, ha, hpa⟩
      · exact ⟨x, hx, rfl⟩
    obtain ⟨hlt, b, hb⟩ := hl.parent k y q hy (hyp.symm.trans hq)
    have hqh : q ≠ h := by
      rintro rfl
      exact hl.not_parent_of_nil hc hnil hy (hyp.symm.trans hq)
    obtain ⟨b', hb', -⟩ := hold q b hqh hb
    exact ⟨hlt, b', hb'⟩

/-! ## What belongs to a cell -/

variable (F) in
/-- What a cell uses is used by its parent, and belongs to one cell without a parent. -/
structure Shared (v : Nat → Option γ) (res : Nat → Option Nat) : Prop where
  inherit : ∀ h c p m, v h = some c → F.parent c = some p → res h = some m → res p = some m
  owner : ∀ h c k d m, v h = some c → F.parent c = none → v k = some d → F.parent d = none →
    res h = some m → res k = some m → h = k

variable {v' : Nat → Option γ} {res res' : Nat → Option Nat} {m : Nat}

/-- Every user has an owner. -/
theorem Linked.owner (hl : F.Linked v) (hs : F.Shared v res) : ∀ (h : Nat) (c : γ), v h = some c → res h = some m →
    ∃ r b, v r = some b ∧ F.parent b = none ∧ res r = some m := by
  intro h
  -- along the parents, which are older
  induction h using Nat.strongRecOn with
  | ind h ih =>
    intro c hc hm
    cases hparent : F.parent c with
    | none => exact ⟨h, c, hc, hparent, hm⟩
    | some p =>
      obtain ⟨hlt, a, ha⟩ := hl.parent h c p hc hparent
      exact ih p hlt a ha (hs.inherit h c p m hc hparent hm)

/-- Cells that have forerunners with the same parent. -/
theorem Shared.sub (hs : F.Shared v res)
    (hold : ∀ h c', v' h = some c' → ∃ c, v h = some c ∧ F.parent c' = F.parent c) : F.Shared v' res := by
  refine ⟨fun h c p m hc hp hm => ?_, fun h c k d m hc hp hd hq hm hm' => ?_⟩
  · obtain ⟨b, hb, hbp⟩ := hold h c hc
    exact hs.inherit h b p m hb (hbp.symm.trans hp) hm
  · obtain ⟨b, hb, hbp⟩ := hold h c hc
    obtain ⟨b', hb', hbp'⟩ := hold k d hd
    exact hs.owner h b k b' m hb (hbp.symm.trans hp) hb' (hbp'.symm.trans hq) hm hm'

/-- A new cell. What it uses is what its parent uses, or nobody else's. -/
theorem Shared.new (hl : F.Linked v) (hs : F.Shared v res) (hn : v n = none)
    (hold : ∀ h c', v' h = some c' → h = n ∧ c' = c ∨ h ≠ n ∧ ∃ b, v h = some b ∧ F.parent c' = F.parent b)
    (hres : ∀ h, h ≠ n → res' h = res h)
    (hinherit : ∀ p m, F.parent c = some p → res' n = some m → res p = some m)
    (howner : ∀ k d m, F.parent c = none → res' n = some m → v k = some d → F.parent d = none → res k ≠ some m) :
    F.Shared v' res' := by
  have hparent : ∀ h b p, v h = some b → F.parent b = some p → p ≠ n := by
    rintro h b p hb hp rfl
    exact hl.not_parent hn hb hp
  refine ⟨fun h d p m hd hp hm => ?_, fun h d k d' m hd hp hd' hq hm hm' => ?_⟩
  · rcases hold h d hd with ⟨rfl, rfl⟩ | ⟨hne, b, hb, hbp⟩
    · have hm' := hinherit p m hp hm
      by_cases hpn : p = h
      · rw [hpn]
        exact hm
      · rw [hres p hpn]
        exact hm'
    · rw [hres p (hparent h b p hb (hbp.symm.trans hp))]
      rw [hres h hne] at hm
      exact hs.inherit h b p m hb (hbp.symm.trans hp) hm
  · rcases hold h d hd with ⟨rfl, rfl⟩ | ⟨hne, b, hb, hbp⟩
    · rcases hold k d' hd' with ⟨rfl, -⟩ | ⟨hne', b', hb', hbp'⟩
      · rfl
      · rw [hres k hne'] at hm'
        exact absurd hm' (howner k b' m hp hm hb' (hbp'.symm.trans hq))
    · rw [hres h hne] at hm
      rcases hold k d' hd' with ⟨rfl, rfl⟩ | ⟨hne', b', hb', hbp'⟩
      · exact absurd hm (howner h b m hq hm' hb (hbp.symm.trans hp))
      · rw [hres k hne'] at hm'
        exact hs.owner h b k b' m hb (hbp.symm.trans hp) hb' (hbp'.symm.trans hq) hm hm'

end Family

end LibElf
