import Mathlib.Data.Fintype.EquivFin
import Mathlib.Order.Interval.Finset.Nat
import Mathlib.Data.Nat.ModEq
import Mathlib.Logic.Function.Iterate

/-!
# Open addressing

A table of slots in which the entry of a key is looked for along a sequence of slots that belongs to the key. The search
stops at the first slot that is empty or has the key, and a new entry is put where the search stops.

1. `stepDown`, a step of a fixed length back in a ring of slots, and `exists_iterate_stepDown`: where the length is
   coprime to the number of slots, the steps come to all of them.
2. `Stops`, where a search ends; `Held`, every entry is where the search for its key ends; and `put`.
3. `held_put` and `holds_put`, the two rules about `put`.
4. `exists_stops`: while there are fewer keys than slots every search ends.
-/

namespace LibElf

/-! ## Rings of slots -/

/-- `d` slots back from `x`, among the slots from 1 to `m`. -/
def stepDown (m d x : Nat) : Nat := if x ≤ d then m + x - d else x - d

section StepDown

variable {m d x : Nat}

theorem stepDown_mem (hd : 0 < d) (hdm : d ≤ m) (hx : 1 ≤ x ∧ x ≤ m) : 1 ≤ stepDown m d x ∧ stepDown m d x ≤ m := by
  unfold stepDown
  split <;> omega

theorem iterate_stepDown_mem (hd : 0 < d) (hdm : d ≤ m) (hx : 1 ≤ x ∧ x ≤ m) (k : Nat) :
    1 ≤ (stepDown m d)^[k] x ∧ (stepDown m d)^[k] x ≤ m := by
  induction k with
  | zero => exact hx
  | succ k ih =>
    rw [Function.iterate_succ_apply']
    exact stepDown_mem hd hdm ih

/-- After `k` steps back, `k` steps forward lead to the start. -/
theorem iterate_stepDown_modEq (hd : 0 < d) (hdm : d ≤ m) (hx : 1 ≤ x ∧ x ≤ m) (k : Nat) :
    (stepDown m d)^[k] x + k * d ≡ x [MOD m] := by
  induction k with
  | zero => rw [Nat.zero_mul, Nat.add_zero, Function.iterate_zero_apply]
  | succ k ih =>
    obtain ⟨hpos, hle⟩ := iterate_stepDown_mem hd hdm hx k
    rw [Function.iterate_succ_apply', Nat.succ_mul, stepDown]
    split
    · have hsum : m + (stepDown m d)^[k] x - d + (k * d + d) = m + ((stepDown m d)^[k] x + k * d) := by omega
      rw [hsum]
      exact (Nat.ModEq.add_right_cancel' 0 (by simp [Nat.ModEq])).trans ih
    · have hsum : (stepDown m d)^[k] x - d + (k * d + d) = (stepDown m d)^[k] x + k * d := by omega
      rw [hsum]
      exact ih

/-- No slot comes twice among the first `m`. -/
theorem iterate_stepDown_injective (hd : 0 < d) (hdm : d ≤ m) (hx : 1 ≤ x ∧ x ≤ m) (hcop : Nat.Coprime m d) {i j : Nat}
    (hi : i < m) (hj : j < m) (h : (stepDown m d)^[i] x = (stepDown m d)^[j] x) : i = j := by
  have hij : i * d ≡ j * d [MOD m] := by
    have hi' := iterate_stepDown_modEq hd hdm hx i
    have hj' := iterate_stepDown_modEq hd hdm hx j
    rw [← h] at hj'
    exact Nat.ModEq.add_left_cancel' _ (hi'.trans hj'.symm)
  exact (Nat.ModEq.cancel_right_of_coprime hcop hij).eq_of_lt_of_lt hi hj

/-- The steps come to every slot. -/
theorem exists_iterate_stepDown (hd : 0 < d) (hdm : d ≤ m) (hx : 1 ≤ x ∧ x ≤ m) (hcop : Nat.Coprime m d) {s : Nat}
    (hs : 1 ≤ s ∧ s ≤ m) : ∃ k < m, (stepDown m d)^[k] x = s := by
  have hmem := iterate_stepDown_mem hd hdm hx
  let f : Fin m → Fin m := fun k => ⟨(stepDown m d)^[k.val] x - 1, by have := hmem k.val; omega⟩
  have hinj : Function.Injective f := by
    intro i j h
    have hval : (stepDown m d)^[i.val] x - 1 = (stepDown m d)^[j.val] x - 1 := congrArg Fin.val h
    have hi := hmem i.val
    have hj := hmem j.val
    exact Fin.ext (iterate_stepDown_injective hd hdm hx hcop i.isLt j.isLt (by omega))
  obtain ⟨k, hk⟩ := Finite.surjective_of_injective hinj ⟨s - 1, by omega⟩
  have hval : (stepDown m d)^[k.val] x - 1 = s - 1 := congrArg Fin.val hk
  have hk' := hmem k.val
  exact ⟨k.val, k.isLt, by omega⟩

end StepDown

/-! ## Searches -/

section Search

variable {K V : Type} {slots : Nat → Option (K × V)} {probe : K → Nat → Nat} {key key' : K} {v v' : V} {s k k' : Nat}

/-- The search for the key ends at its `k`-th slot: the slots before it have other keys. -/
structure Stops (slots : Nat → Option (K × V)) (probe : K → Nat → Nat) (key : K) (k : Nat) : Prop where
  before : ∀ j < k, ∃ e, slots (probe key j) = some e ∧ e.1 ≠ key
  here : ∀ e, slots (probe key k) = some e → e.1 = key

/-- Every entry is where the search for its key ends. -/
def Held (slots : Nat → Option (K × V)) (probe : K → Nat → Nat) : Prop :=
  ∀ s key v, slots s = some (key, v) → ∃ k, Stops slots probe key k ∧ probe key k = s

def put (slots : Nat → Option (K × V)) (s : Nat) (e : K × V) : Nat → Option (K × V) := Function.update slots s (some e)

theorem Stops.unique (h : Stops slots probe key k) (h' : Stops slots probe key k') : k = k' := by
  have hlt : ∀ {i j : Nat}, Stops slots probe key i → Stops slots probe key j → ¬ i < j := by
    intro i j hi hj hij
    obtain ⟨e, he, hne⟩ := hj.before i hij
    exact hne (hi.here e he)
  exact Nat.le_antisymm (Nat.le_of_not_lt (hlt h' h)) (Nat.le_of_not_lt (hlt h h'))

/-- The slots before the end of a search are not the one at the end. -/
theorem Stops.ne (h : Stops slots probe key k) {j : Nat} (hj : j < k) : probe key j ≠ probe key k := by
  intro heq
  obtain ⟨e, he, hne⟩ := h.before j hj
  exact hne (h.here e (heq ▸ he))

/-- A key has one slot at most. -/
theorem Held.unique (h : Held slots probe) {s' : Nat} (hs : slots s = some (key, v)) (hs' : slots s' = some (key, v')) :
    s = s' := by
  obtain ⟨k, hk, rfl⟩ := h s key v hs
  obtain ⟨k', hk', rfl⟩ := h s' key v' hs'
  rw [hk.unique hk']

/-- The end of a search for another key stays, where it is an entry. -/
theorem Stops.put_of_ne (h : Stops slots probe key k) (hne : key' ≠ key) (h' : Stops slots probe key' k')
    (hsome : slots (probe key' k') = some (key', v')) : Stops (put slots (probe key k) (key, v)) probe key' k' := by
  have hapart : probe key' k' ≠ probe key k := fun heq => hne (h.here _ (heq ▸ hsome))
  refine ⟨fun j hj => ?_, fun e he => ?_⟩
  · by_cases heq : probe key' j = probe key k
    · exact ⟨(key, v), by rw [heq, put, Function.update_self], hne.symm⟩
    · obtain ⟨e, he, hother⟩ := h'.before j hj
      exact ⟨e, by rw [put, Function.update_of_ne heq]; exact he, hother⟩
  · rw [put, Function.update_of_ne hapart] at he
    exact h'.here e he

theorem Stops.put_self (h : Stops slots probe key k) : Stops (put slots (probe key k) (key, v)) probe key k := by
  refine ⟨fun j hj => ?_, fun e he => ?_⟩
  · obtain ⟨e, he, hother⟩ := h.before j hj
    exact ⟨e, by rw [put, Function.update_of_ne (h.ne hj)]; exact he, hother⟩
  · rw [put, Function.update_self] at he
    cases he
    rfl

/-- An entry put where the search for its key ends keeps the others where theirs do. -/
theorem held_put (hheld : Held slots probe) (h : Stops slots probe key k) :
    Held (put slots (probe key k) (key, v)) probe := by
  intro s key' v' hs
  by_cases hhere : s = probe key k
  · rw [hhere, put, Function.update_self] at hs
    cases hs
    exact ⟨k, h.put_self, hhere.symm⟩
  · rw [put, Function.update_of_ne hhere] at hs
    obtain ⟨k', hk', rfl⟩ := hheld s key' v' hs
    refine ⟨k', h.put_of_ne ?_ hk' hs, rfl⟩
    rintro rfl
    exact hhere (by rw [hk'.unique h])

/-- What the table has under a key after an entry was put: the entry, or what it had before. -/
theorem holds_put (hheld : Held slots probe) (h : Stops slots probe key k) :
    (∃ s, put slots (probe key k) (key, v) s = some (key', v')) ↔
      key' = key ∧ v' = v ∨ key' ≠ key ∧ ∃ s, slots s = some (key', v') := by
  constructor
  · rintro ⟨s, hs⟩
    by_cases hhere : s = probe key k
    · rw [hhere, put, Function.update_self] at hs
      cases hs
      exact .inl ⟨rfl, rfl⟩
    · rw [put, Function.update_of_ne hhere] at hs
      refine .inr ⟨?_, s, hs⟩
      rintro rfl
      obtain ⟨k', hk', hs'⟩ := hheld s key' v' hs
      exact hhere (by rw [← hs', hk'.unique h])
  · rintro (⟨rfl, rfl⟩ | ⟨hne, s, hs⟩)
    · exact ⟨_, Function.update_self ..⟩
    · refine ⟨s, ?_⟩
      rw [put, Function.update_of_ne ?_]
      · exact hs
      · rintro rfl
        exact hne (h.here _ hs)

/-! ## Searches end -/

/-- A search that comes to an empty slot ends. -/
theorem exists_stops_of_empty (hempty : slots (probe key k) = none) : ∃ k, Stops slots probe key k := by
  classical
  have hex : ∃ k, ∀ e, slots (probe key k) = some e → e.1 = key :=
    ⟨k, fun e he => by rw [hempty] at he; cases he⟩
  refine ⟨Nat.find hex, fun j hj => ?_, Nat.find_spec hex⟩
  have hnot := Nat.find_min hex hj
  push Not at hnot
  exact hnot

/-- Where a key is in the table the search for it ends there. -/
theorem Held.stops (h : Held slots probe) (hs : slots s = some (key, v)) : ∃ k, Stops slots probe key k :=
  (h s key v hs).imp fun _ hk => hk.1

variable [DecidableEq K] {m : Nat} {keys : Finset K}

/-- A table with as many slots as keys or more has room. -/
theorem exists_empty (h : Held slots probe) (hkeys : ∀ s e, slots s = some e → e.1 ∈ keys) (hcard : keys.card < m) :
    ∃ s, 1 ≤ s ∧ s ≤ m ∧ slots s = none := by
  by_contra hfull
  push Not at hfull
  have hentry : ∀ i ∈ Finset.Icc 1 m, ∃ e, slots i = some e := fun i hi =>
    Option.ne_none_iff_exists'.mp (hfull i (Finset.mem_Icc.mp hi).1 (Finset.mem_Icc.mp hi).2)
  have hmap : ∀ i ∈ Finset.Icc 1 m, (slots i).map Prod.fst ∈ keys.image some := by
    intro i hi
    obtain ⟨e, he⟩ := hentry i hi
    rw [he]
    exact Finset.mem_image_of_mem some (hkeys i e he)
  have hinj : Set.InjOn (fun i => (slots i).map Prod.fst) (Finset.Icc 1 m : Finset Nat) := by
    intro i hi j hj heq
    obtain ⟨⟨key, v⟩, he⟩ := hentry i hi
    obtain ⟨⟨key', v'⟩, he'⟩ := hentry j hj
    simp only [he, he', Option.map_some] at heq
    obtain rfl := Option.some.inj heq
    exact h.unique he he'
  have hle := Finset.card_le_card_of_injOn _ hmap hinj
  rw [Nat.card_Icc, Finset.card_image_of_injective _ (Option.some_injective K)] at hle
  omega

/-- As long as there are fewer keys than slots every search ends. -/
theorem exists_stops (h : Held slots probe) (hkeys : ∀ s e, slots s = some e → e.1 ∈ keys) (hcard : keys.card < m)
    (hprobe : ∀ s, 1 ≤ s → s ≤ m → ∃ k, probe key k = s) : ∃ k, Stops slots probe key k := by
  obtain ⟨s, hpos, hle, hnone⟩ := exists_empty h hkeys hcard
  obtain ⟨k, rfl⟩ := hprobe s hpos hle
  exact exists_stops_of_empty hnone

omit [DecidableEq K] in
/-- Keys that are all in the table are at most as many as its slots, and fewer where one slot is empty. -/
theorem card_le_slots (hall : ∀ key ∈ keys, ∃ s v, s ∈ Finset.Icc 1 m ∧ slots s = some (key, v)) :
    keys.card ≤ m ∧ ((∃ s ∈ Finset.Icc 1 m, slots s = none) → keys.card < m) := by
  choose! slot val hslot using hall
  have hinj : Set.InjOn slot keys := by
    intro a ha b hb heq
    have hb' := (hslot b hb).2
    rw [← heq, (hslot a ha).2] at hb'
    exact (Prod.mk.inj (Option.some.inj hb')).1
  have himage : keys.image slot ⊆ Finset.Icc 1 m := fun i hi => by
    obtain ⟨a, ha, rfl⟩ := Finset.mem_image.mp hi
    exact (hslot a ha).1
  have hcard : (keys.image slot).card = keys.card := Finset.card_image_of_injOn hinj
  have hm : (Finset.Icc 1 m).card = m := by simp
  refine ⟨hcard ▸ hm ▸ Finset.card_le_card himage, ?_⟩
  rintro ⟨s, hs, hnone⟩
  rw [← hcard, ← hm]
  refine Finset.card_lt_card ⟨himage, fun hsub => ?_⟩
  obtain ⟨a, ha, rfl⟩ := Finset.mem_image.mp (hsub hs)
  rw [(hslot a ha).2] at hnone
  cases hnone

end Search

end LibElf
