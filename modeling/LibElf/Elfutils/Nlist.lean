import LibElf.Base.OpenAddressing
import LibElf.Elfutils.Arsym
import LibElf.Elfutils.NextPrime
import Mathlib.NumberTheory.Bertrand

/-!
# The symbol table of nlist

`fixedsizehash.h` as `nlist.c` includes it: a table of a fixed size with double hashing. A slot is free where its hash
value is 0. A pointer to an entry is the number of its slot, and what is behind the memory of the table is not accessed
without a fault.

1. `Fshash`, `fshashInit`, `fshashLookup`, `fshashOverwrite` and `fshashFind`.
2. `fshashInit_prime`: the number of slots is a prime.
3. `Tidy`, the invariant of a table in which no name has the hash value 0, and `fshashLookup_ok_iff`.
4. `Records`, that the table has the entries stored last, `records_run` and `run_ends`.
-/

namespace LibElf.Elfutils

/-! ## The table -/

/-- A `struct nlist_fshashent`. The entry is a name and its symbol; in a slot that is cleared the name is a null
pointer. -/
structure Fshashent (σ : Type) where
  hval : Nat
  entry : Option (List UInt8 × σ)
deriving DecidableEq

/-- A `struct nlist_fshash`, with as many slots as the memory of the table has room for. -/
structure Fshash (σ : Type) where
  nslots : Nat
  table : List (Fshashent σ)

variable {σ : Type}

/-- `HASHFCT`. -/
def strHash (name : List UInt8) : Nat := (dlElfHash name).toNat

/-- The bytes asked for: the header and `nslots + 1` slots of 40 bytes. -/
def fshashSize (nslots : Nat) : Nat := wrap (8 + wrap (wrap (nslots + 1) * 40))

/-- `nlist_fshash_init`, where `calloc` succeeds. -/
def fshashInit (σ : Type) (nelems : Nat) : Option (Fshash σ) :=
  if (2 ^ 64 - 1) / 3 * 2 ≤ nelems then none
  else
    (nextPrime (2 ^ 64) (max (wrap (nelems * 3) / 2) 10)).map fun nslots =>
      ⟨nslots, List.replicate ((fshashSize nslots - 8) / 40) ⟨0, none⟩⟩

/-- The test whether a slot has the name. Names are compared where the hash values are the same. -/
def sameEntry (hval : Nat) (name : List UInt8) (s : Fshashent σ) : Except Fault Bool :=
  if s.hval = hval then
    match s.entry with
    | none => .error .null
    | some e => .ok (decide (e.1 = name))
  else .ok false

def probeLoop (t : Fshash σ) (hval : Nat) (name : List UInt8) (hash : Nat) : Nat → Nat → Except Fault Nat
  | 0, _ => .error .divergence
  | rounds + 1, idx =>
    let idx := stepDown t.nslots hash idx
    match t.table[idx]? with
    | none => .error .load
    | some s =>
      match sameEntry hval name s with
      | .error f => .error f
      | .ok true => .ok idx
      | .ok false => if s.hval ≠ 0 then probeLoop t hval name hash rounds idx else .ok idx

/-- `nlist_fshash_lookup`. -/
def fshashLookup (rounds : Nat) (t : Fshash σ) (hval : Nat) (name : List UInt8) : Except Fault Nat :=
  let idx := 1 + hval % t.nslots
  match t.table[idx]? with
  | none => .error .load
  | some s =>
    if s.hval = 0 then .ok idx
    else
      match sameEntry hval name s with
      | .error f => .error f
      | .ok true => .ok idx
      | .ok false => probeLoop t hval name (1 + hval % (t.nslots - 2)) rounds idx

/-- `nlist_fshash_overwrite`. -/
def fshashOverwrite (rounds : Nat) (t : Fshash σ) (e : List UInt8 × σ) : Except Fault (Fshash σ) :=
  match fshashLookup rounds t (strHash e.1) e.1 with
  | .error f => .error f
  | .ok idx => .ok { t with table := t.table.set idx ⟨strHash e.1, some e⟩ }

/-- `nlist_fshash_find`. -/
def fshashFind (rounds : Nat) (t : Fshash σ) (name : List UInt8) : Except Fault (Option (List UInt8 × σ)) :=
  match fshashLookup rounds t (strHash name) name with
  | .error f => .error f
  | .ok idx =>
    match t.table[idx]? with
    | none => .error .load
    | some s => .ok (if s.hval = 0 then none else s.entry)

/-! ## The number of slots -/

/-- The size of the table in bytes has 64 bits. -/
def Fshash.Whole (t : Fshash σ) : Prop := 8 + (t.nslots + 1) * 40 < 2 ^ 64

instance (t : Fshash σ) : Decidable t.Whole := inferInstanceAs (Decidable (_ < _))

/-- There is a first prime, and it is not far. -/
theorem exists_least_prime {seed : Nat} (h : seed ≠ 0) : ∃ p, IsLeast {q | q.Prime ∧ seed ≤ q} p ∧ p ≤ 2 * seed := by
  obtain ⟨p, hp, hlt, hle⟩ := Nat.exists_prime_lt_and_le_two_mul seed h
  have hex : ∃ q, q.Prime ∧ seed ≤ q := ⟨p, hp, Nat.le_of_lt hlt⟩
  refine ⟨Nat.find hex, ⟨Nat.find_spec hex, fun q hq => Nat.find_min' hex hq⟩, ?_⟩
  exact Nat.le_trans (Nat.find_min' hex ⟨hp, Nat.le_of_lt hlt⟩) hle

/-- What `nlist_fshash_init` returns: a table of free slots, with a prime number of slots. -/
structure Fresh (n : Nat) (t : Fshash σ) : Prop where
  prime : t.nslots.Prime
  eleven : 11 ≤ t.nslots
  ge : wrap (n * 3) / 2 ≤ t.nslots
  le : t.nslots ≤ 2 * max (wrap (n * 3) / 2) 10
  table : t.table = List.replicate ((fshashSize t.nslots - 8) / 40) ⟨0, none⟩

theorem fshashInit_prime {n : Nat} {t : Fshash σ} (h : fshashInit σ n = some t) : Fresh n t := by
  have hseed : max (wrap (n * 3) / 2) 10 < 2 ^ 63 := by
    have := wrap_lt (n * 3)
    omega
  obtain ⟨p, hp, hle⟩ := @exists_least_prime (max (wrap (n * 3) / 2) 10) (by omega)
  rw [fshashInit] at h
  split at h
  · cases h
  rw [nextPrime_eq (Nat.le_max_right _ _) hp (by omega) (by omega)] at h
  obtain rfl := Option.some.inj h
  obtain ⟨⟨hprime, hge⟩, -⟩ := hp
  refine ⟨hprime, ?_, Nat.le_trans (Nat.le_max_left _ _) hge, hle, rfl⟩
  -- 10 is no prime
  have hten : 10 ≤ p := Nat.le_trans (Nat.le_max_right _ _) hge
  rcases Nat.eq_or_lt_of_le hten with rfl | hlt
  · exact absurd hprime (by decide)
  · exact hlt

namespace Fresh

variable {n : Nat} {t : Fshash σ}

theorem length_of_whole (h : Fresh n t) (hw : t.Whole) : t.table.length = t.nslots + 1 := by
  unfold Fshash.Whole at hw
  have hslots : wrap (wrap (t.nslots + 1) * 40) = (t.nslots + 1) * 40 := by
    rw [wrap_of_lt (n := t.nslots + 1) (by omega), wrap_of_lt (by omega)]
  rw [h.table, List.length_replicate, fshashSize, hslots, wrap_of_lt hw, Nat.add_sub_cancel_left,
    Nat.mul_div_cancel _ (by decide)]

/-- Where the size wraps there is not enough memory. -/
theorem length_of_not_whole (h : Fresh n t) (hw : ¬ t.Whole) : t.table.length ≤ t.nslots := by
  unfold Fshash.Whole at hw
  have := wrap_lt (8 + wrap (wrap (t.nslots + 1) * 40))
  rw [h.table, List.length_replicate, fshashSize]
  omega

end Fresh

/-! ## Looking up -/

namespace Fshash

def slots (t : Fshash σ) (i : Nat) : Option (List UInt8 × σ) := t.table[i]?.bind Fshashent.entry

/-- The slots that a search for the name comes to, one after the other. -/
def probe (t : Fshash σ) (name : List UInt8) (k : Nat) : Nat :=
  (stepDown t.nslots (1 + strHash name % (t.nslots - 2)))^[k] (1 + strHash name % t.nslots)

/-- A table in which the names have hash values other than 0. -/
structure Tidy (t : Fshash σ) : Prop where
  prime : t.nslots.Prime
  eleven : 11 ≤ t.nslots
  length : t.table.length = t.nslots + 1
  used : ∀ s ∈ t.table, s.hval ≠ 0 → ∃ name sym, s.entry = some (name, sym) ∧ s.hval = strHash name
  free : ∀ s ∈ t.table, s.hval = 0 → s.entry = none
  held : Held t.slots t.probe

end Fshash

section Tidy

open Fshash

variable {t : Fshash σ} {name : List UInt8} {sym : σ}

theorem Fresh.tidy {n : Nat} (h : Fresh n t) (hw : t.Whole) : Tidy t := by
  have hzero : ∀ s ∈ t.table, s = ⟨0, none⟩ := fun s hs => List.eq_of_mem_replicate (h.table ▸ hs)
  refine ⟨h.prime, h.eleven, h.length_of_whole hw, fun s hs hne => ?_, fun s hs _ => ?_, fun i name sym hi => ?_⟩
  · rw [hzero s hs] at hne
    exact absurd rfl hne
  · rw [hzero s hs]
  · obtain ⟨s, hs, hentry⟩ := Option.bind_eq_some_iff.mp hi
    rw [hzero s (List.mem_of_getElem? hs)] at hentry
    cases hentry

namespace Fshash.Tidy

theorem probe_mem (h : Tidy t) (name : List UInt8) (k : Nat) : 1 ≤ t.probe name k ∧ t.probe name k ≤ t.nslots := by
  have h11 := h.eleven
  have hd := Nat.mod_lt (strHash name) (show 0 < t.nslots - 2 by omega)
  have hx := Nat.mod_lt (strHash name) (show 0 < t.nslots by omega)
  exact iterate_stepDown_mem (by omega) (by omega) ⟨by omega, by omega⟩ k

/-- A search comes to every slot: the step is smaller than the prime number of slots. -/
theorem exists_probe (h : Tidy t) (name : List UInt8) {i : Nat} (hi : 1 ≤ i) (hle : i ≤ t.nslots) :
    ∃ k < t.nslots, t.probe name k = i := by
  have h11 := h.eleven
  have hd := Nat.mod_lt (strHash name) (show 0 < t.nslots - 2 by omega)
  have hx := Nat.mod_lt (strHash name) (show 0 < t.nslots by omega)
  have hcop : Nat.Coprime t.nslots (1 + strHash name % (t.nslots - 2)) := by
    refine (Nat.Prime.coprime_iff_not_dvd h.prime).mpr fun hdvd => ?_
    have := Nat.le_of_dvd (by omega) hdvd
    omega
  exact exists_iterate_stepDown (by omega) (by omega) ⟨by omega, by omega⟩ hcop ⟨hi, hle⟩

/-- A search ends before it comes to a slot again. -/
theorem stops_lt (h : Tidy t) {k : Nat} (hstop : Stops t.slots t.probe name k) : k < t.nslots := by
  obtain ⟨hpos, hle⟩ := h.probe_mem name k
  obtain ⟨j, hj, heq⟩ := h.exists_probe name hpos hle
  by_contra hge
  exact hstop.ne (by omega) heq

theorem slot (h : Tidy t) (name : List UInt8) (k : Nat) :
    ∃ s ∈ t.table, t.table[t.probe name k]? = some s ∧ t.slots (t.probe name k) = s.entry := by
  have hlt : t.probe name k < t.table.length := by
    rw [h.length]
    exact Nat.lt_succ_of_le (h.probe_mem name k).2
  have hs := List.getElem?_eq_getElem hlt
  exact ⟨_, List.mem_of_getElem? hs, hs, by rw [slots, hs, Option.bind_some]⟩

/-- A slot is free exactly where it has no entry. -/
theorem hval_eq_zero_iff (h : Tidy t) {s : Fshashent σ} (hs : s ∈ t.table) : s.hval = 0 ↔ s.entry = none := by
  refine ⟨h.free s hs, fun hnone => ?_⟩
  by_contra hne
  obtain ⟨name, sym, hentry, -⟩ := h.used s hs hne
  rw [hnone] at hentry
  cases hentry

theorem sameEntry_eq (h : Tidy t) (hhash : strHash name ≠ 0) {s : Fshashent σ} (hs : s ∈ t.table) :
    sameEntry (strHash name) name s = .ok (decide (s.entry.map Prod.fst = some name)) := by
  rw [sameEntry]
  split
  · next heq =>
    obtain ⟨name', sym, hentry, -⟩ := h.used s hs (heq ▸ hhash)
    simp [hentry]
  · next hne =>
    refine congrArg Except.ok (decide_eq_false fun hmap => hne ?_).symm
    obtain ⟨⟨name', sym⟩, hentry, rfl⟩ := Option.map_eq_some_iff.mp hmap
    have hval : s.hval ≠ 0 := by
      rw [Ne, h.hval_eq_zero_iff hs, hentry]
      exact nofun
    obtain ⟨name'', sym', hentry', heq⟩ := h.used s hs hval
    rw [hentry] at hentry'
    cases hentry'
    exact heq

theorem probe_succ (t : Fshash σ) (name : List UInt8) (k : Nat) :
    stepDown t.nslots (1 + strHash name % (t.nslots - 2)) (t.probe name k) = t.probe name (k + 1) :=
  (Function.iterate_succ_apply' ..).symm

/-- A slot with another name is passed. -/
theorem stops_succ {k k' : Nat} (hk : ∀ j ≤ k, ∃ e, t.slots (t.probe name j) = some e ∧ e.1 ≠ name)
    (hstop : Stops t.slots t.probe name k') : k < k' := by
  by_contra hle
  obtain ⟨e, he, hne⟩ := hk k' (Nat.le_of_not_lt hle)
  exact hne (hstop.here e he)

/-- The loop goes from slot to slot up to the one where the search stops. -/
theorem probeLoop_ok_iff (h : Tidy t) (hhash : strHash name ≠ 0) (rounds : Nat) : ∀ {k idx : Nat},
    (∀ j ≤ k, ∃ e, t.slots (t.probe name j) = some e ∧ e.1 ≠ name) →
    (probeLoop t (strHash name) name (1 + strHash name % (t.nslots - 2)) rounds (t.probe name k) = .ok idx ↔
      ∃ k', k' ≤ k + rounds ∧ Stops t.slots t.probe name k' ∧ t.probe name k' = idx) := by
  induction rounds with
  | zero =>
    intro k idx hk
    refine iff_of_false nofun ?_
    rintro ⟨k', hle, hstop, -⟩
    have := stops_succ hk hstop
    omega
  | succ rounds ih =>
    intro k idx hk
    obtain ⟨s, hs, hget, hslot⟩ := h.slot name (k + 1)
    rw [probeLoop]
    simp only [probe_succ, hget, h.sameEntry_eq hhash hs]
    have hhere : (∀ e, t.slots (t.probe name (k + 1)) = some e → e.1 = name) →
        Stops t.slots t.probe name (k + 1) := fun hend => ⟨fun j hj => hk j (Nat.lt_succ_iff.mp hj), hend⟩
    -- the search stops here
    have hdone : Stops t.slots t.probe name (k + 1) → (Except.ok (t.probe name (k + 1)) = (.ok idx : Except Fault Nat) ↔
        ∃ k', k' ≤ k + (rounds + 1) ∧ Stops t.slots t.probe name k' ∧ t.probe name k' = idx) := by
      intro hstop
      constructor
      · intro heq
        cases heq
        exact ⟨k + 1, by omega, hstop, rfl⟩
      · rintro ⟨k', -, hstop', rfl⟩
        rw [hstop.unique hstop']
    cases hentry : s.entry with
    | none =>
      rw [hentry] at hslot
      rw [decide_eq_false (by simp)]
      simp only [(h.hval_eq_zero_iff hs).mpr hentry, ne_eq, not_true_eq_false, if_false]
      exact hdone (hhere fun e he => by rw [hslot] at he; cases he)
    | some e =>
      rw [hentry] at hslot
      have hval : s.hval ≠ 0 := fun hz => by
        rw [(h.hval_eq_zero_iff hs).mp hz] at hentry
        cases hentry
      by_cases heq : e.1 = name
      · rw [decide_eq_true (by rw [Option.map_some, heq])]
        exact hdone (hhere fun e' he' => by rw [hslot] at he'; cases he'; exact heq)
      · rw [decide_eq_false (by simpa using heq)]
        simp only [if_pos hval]
        rw [ih fun j hj => ?_]
        · rw [show k + 1 + rounds = k + (rounds + 1) by omega]
        · rcases Nat.lt_or_eq_of_le hj with hlt | rfl
          · exact hk j (Nat.lt_succ_iff.mp hlt)
          · exact ⟨e, hslot, heq⟩

/-- A lookup ends at the slot where the search for the name stops. -/
theorem fshashLookup_ok_iff (h : Tidy t) (hhash : strHash name ≠ 0) {rounds idx : Nat} :
    fshashLookup rounds t (strHash name) name = .ok idx ↔
      ∃ k ≤ rounds, Stops t.slots t.probe name k ∧ t.probe name k = idx := by
  obtain ⟨s, hs, hget, hslot⟩ := h.slot name 0
  have hstart : t.probe name 0 = 1 + strHash name % t.nslots := rfl
  rw [hstart] at hget
  rw [fshashLookup]
  simp only [hget, h.sameEntry_eq hhash hs]
  have hdone : (∀ e, t.slots (t.probe name 0) = some e → e.1 = name) →
      (Except.ok (1 + strHash name % t.nslots) = (.ok idx : Except Fault Nat) ↔
        ∃ k ≤ rounds, Stops t.slots t.probe name k ∧ t.probe name k = idx) := by
    intro hend
    have hstop : Stops t.slots t.probe name 0 := ⟨fun j hj => absurd hj (Nat.not_lt_zero j), hend⟩
    constructor
    · intro heq
      cases heq
      exact ⟨0, Nat.zero_le _, hstop, rfl⟩
    · rintro ⟨k, -, hstop', rfl⟩
      rw [← hstop.unique hstop', hstart]
  cases hentry : s.entry with
  | none =>
    rw [hentry] at hslot
    rw [if_pos ((h.hval_eq_zero_iff hs).mpr hentry)]
    exact hdone fun e he => by rw [hslot] at he; cases he
  | some e =>
    rw [hentry] at hslot
    have hval : s.hval ≠ 0 := fun hz => by
      rw [(h.hval_eq_zero_iff hs).mp hz] at hentry
      cases hentry
    rw [if_neg hval]
    by_cases heq : e.1 = name
    · rw [decide_eq_true (by rw [Option.map_some, heq])]
      exact hdone fun e' he' => by rw [hslot] at he'; cases he'; exact heq
    · rw [decide_eq_false (by simpa using heq)]
      simp only [← hstart]
      rw [h.probeLoop_ok_iff hhash rounds fun j hj => ⟨e, by rw [Nat.le_zero.mp hj]; exact hslot, heq⟩, Nat.zero_add]

/-- The table after an entry was put where the search for its name stops. -/
theorem set (h : Tidy t) {e : List UInt8 × σ} (hhash : strHash e.1 ≠ 0) {k : Nat} (hstop : Stops t.slots t.probe e.1 k) :
    Tidy { t with table := t.table.set (t.probe e.1 k) ⟨strHash e.1, some e⟩ } ∧
      Fshash.slots { t with table := t.table.set (t.probe e.1 k) ⟨strHash e.1, some e⟩ } =
        put t.slots (t.probe e.1 k) e := by
  have hlt : t.probe e.1 k < t.table.length := by
    rw [h.length]
    exact Nat.lt_succ_of_le (h.probe_mem e.1 k).2
  have hslots : Fshash.slots { t with table := t.table.set (t.probe e.1 k) ⟨strHash e.1, some e⟩ } =
      put t.slots (t.probe e.1 k) e := by
    funext i
    by_cases heq : i = t.probe e.1 k
    · subst heq
      rw [put, Function.update_self, slots, List.getElem?_set_self hlt, Option.bind_some]
    · rw [put, Function.update_of_ne heq, slots, slots, List.getElem?_set_ne (Ne.symm heq)]
  refine ⟨⟨h.prime, h.eleven, by rw [List.length_set]; exact h.length, fun s hs hne => ?_, fun s hs hz => ?_, ?_⟩, hslots⟩
  · rcases List.mem_or_eq_of_mem_set hs with hs | rfl
    · exact h.used s hs hne
    · exact ⟨e.1, e.2, rfl, rfl⟩
  · rcases List.mem_or_eq_of_mem_set hs with hs | rfl
    · exact h.free s hs hz
    · exact absurd hz hhash
  · rw [hslots]
    exact held_put h.held hstop

end Fshash.Tidy

end Tidy

/-! ## Runs -/

section Runs

open Fshash

variable {t t' : Fshash σ} {ops done : List (List UInt8 × σ)} {name : List UInt8} {rounds : Nat}

/-- The entry stored last under a name. -/
def lastStored (ops : List (List UInt8 × σ)) (name : List UInt8) : Option (List UInt8 × σ) :=
  ops.reverse.find? fun e => e.1 = name

theorem lastStored_concat (e : List UInt8 × σ) :
    lastStored (ops ++ [e]) name = if e.1 = name then some e else lastStored ops name := by
  rw [lastStored, List.reverse_concat, List.find?_cons]
  split
  · next h => rw [if_pos (of_decide_eq_true h)]
  · next h => rw [if_neg (of_decide_eq_false h), lastStored]

theorem name_of_lastStored {e : List UInt8 × σ} (h : lastStored ops name = some e) :
    e.1 = name ∧ name ∈ ops.map Prod.fst := by
  have heq : e.1 = name := by simpa using List.find?_some h
  refine ⟨heq, heq ▸ List.mem_map_of_mem ?_⟩
  exact List.mem_reverse.mp (List.mem_of_find?_eq_some h)

theorem lastStored_isSome (h : name ∈ ops.map Prod.fst) : ∃ e, lastStored ops name = some e := by
  obtain ⟨e, he, rfl⟩ := List.mem_map.mp h
  refine Option.isSome_iff_exists.mp (List.find?_isSome.mpr ⟨e, List.mem_reverse.mpr he, by simp⟩)

/-- The table has the entries stored last. -/
structure Records (t : Fshash σ) (ops : List (List UInt8 × σ)) : Prop where
  tidy : Tidy t
  holds : ∀ name sym, (∃ i, t.slots i = some (name, sym)) ↔ lastStored ops name = some (name, sym)

namespace Records

/-- The names in the table were stored. -/
theorem name_mem (h : Records t ops) {i : Nat} {e : List UInt8 × σ} (hi : t.slots i = some e) :
    e.1 ∈ ops.map Prod.fst :=
  (name_of_lastStored ((h.holds e.1 e.2).mp ⟨i, hi⟩)).2

/-- A name that was stored is in the table. -/
theorem exists_slot (h : Records t ops) (hname : name ∈ ops.map Prod.fst) : ∃ i sym, t.slots i = some (name, sym) := by
  obtain ⟨⟨name', sym⟩, he⟩ := lastStored_isSome hname
  obtain ⟨rfl, -⟩ := name_of_lastStored he
  obtain ⟨i, hi⟩ := (h.holds name' sym).mpr he
  exact ⟨i, sym, hi⟩

theorem set (h : Records t ops) {e : List UInt8 × σ} (hhash : strHash e.1 ≠ 0) {k : Nat}
    (hstop : Stops t.slots t.probe e.1 k) :
    Records { t with table := t.table.set (t.probe e.1 k) ⟨strHash e.1, some e⟩ } (ops ++ [e]) := by
  obtain ⟨htidy, hslots⟩ := h.tidy.set hhash hstop
  refine ⟨htidy, fun name sym => ?_⟩
  rw [hslots, holds_put h.tidy.held hstop, lastStored_concat, h.holds]
  constructor
  · rintro (⟨rfl, rfl⟩ | ⟨hne, hold⟩)
    · rw [if_pos rfl]
    · rw [if_neg (Ne.symm hne), hold]
  · split
    · next heq =>
      intro hsome
      cases hsome
      exact .inl ⟨rfl, rfl⟩
    · next hne => exact fun hold => .inr ⟨Ne.symm hne, hold⟩

/-- What a search that ends finds. -/
theorem find_eq (h : Records t ops) (hhash : strHash name ≠ 0) {k : Nat} (hstop : Stops t.slots t.probe name k)
    (hk : k ≤ rounds) : fshashFind rounds t name = .ok (lastStored ops name) := by
  obtain ⟨s, hs, hget, hslot⟩ := h.tidy.slot name k
  rw [fshashFind, (h.tidy.fshashLookup_ok_iff hhash).mpr ⟨k, hk, hstop, rfl⟩]
  simp only [hget]
  cases hentry : s.entry with
  | none =>
    rw [if_pos ((h.tidy.hval_eq_zero_iff hs).mpr hentry)]
    cases hlast : lastStored ops name with
    | none => rfl
    | some e =>
      -- an entry of the name would be where the search stops
      obtain ⟨rfl, -⟩ := name_of_lastStored hlast
      obtain ⟨i, hi⟩ := (h.holds e.1 e.2).mpr hlast
      obtain ⟨k', hk', rfl⟩ := h.tidy.held i e.1 e.2 hi
      rw [hk'.unique hstop, hslot, hentry] at hi
      cases hi
  | some e =>
    have hval : s.hval ≠ 0 := fun hz => by
      rw [(h.tidy.hval_eq_zero_iff hs).mp hz] at hentry
      cases hentry
    rw [hentry] at hslot
    obtain rfl := hstop.here e hslot
    rw [if_neg hval, (h.holds e.1 e.2).mp ⟨_, hslot⟩]

/-- While there are no more names than slots every search ends. -/
theorem exists_stops (h : Records t ops) {names : Finset (List UInt8)} (hops : ∀ a ∈ ops.map Prod.fst, a ∈ names)
    (hname : name ∈ names) (hcard : names.card ≤ t.nslots) : ∃ k, Stops t.slots t.probe name k := by
  by_cases hstored : name ∈ ops.map Prod.fst
  · obtain ⟨i, sym, hi⟩ := h.exists_slot hstored
    exact h.tidy.held.stops hi
  · refine @LibElf.exists_stops _ _ _ _ _ _ t.nslots (names.erase name) h.tidy.held (fun i e hi => ?_) ?_ ?_
    · have hmem := h.name_mem hi
      exact Finset.mem_erase.mpr ⟨fun heq => hstored (heq ▸ hmem), hops _ hmem⟩
    · rw [Finset.card_erase_of_mem hname]
      have := Finset.card_pos.mpr ⟨name, hname⟩
      omega
    · exact fun i hi hle => (h.tidy.exists_probe name hi hle).imp fun _ hk => hk.2

end Records

/-- A run that ends leaves a table with the entries stored last. -/
theorem records_run : ∀ {t : Fshash σ} {done : List (List UInt8 × σ)}, Records t done →
    (∀ e ∈ ops, strHash e.1 ≠ 0) → runOps (fshashOverwrite rounds) t ops = .ok t' → Records t' (done ++ ops) := by
  induction ops with
  | nil =>
    intro t done h _ hrun
    cases hrun
    rwa [List.append_nil]
  | cons e ops ih =>
    intro t done h hhash hrun
    have hhead := hhash e List.mem_cons_self
    rw [runOps, fshashOverwrite] at hrun
    cases hlook : fshashLookup rounds t (strHash e.1) e.1 with
    | error f =>
      rw [hlook] at hrun
      cases hrun
    | ok idx =>
      obtain ⟨k, -, hstop, rfl⟩ := (h.tidy.fshashLookup_ok_iff hhead).mp hlook
      rw [hlook] at hrun
      have := ih (h.set hhead hstop) (fun e he => hhash e (List.mem_cons_of_mem _ he)) hrun
      rwa [List.append_assoc] at this

/-- A run over no more names than slots ends. -/
theorem run_ends {names : Finset (List UInt8)} : ∀ {t : Fshash σ} {done : List (List UInt8 × σ)}, Records t done →
    (∀ a ∈ done.map Prod.fst, a ∈ names) → (∀ e ∈ ops, strHash e.1 ≠ 0 ∧ e.1 ∈ names) → names.card ≤ t.nslots →
    t.nslots ≤ rounds → ∃ t', runOps (fshashOverwrite rounds) t ops = .ok t' := by
  induction ops with
  | nil => exact fun _ _ _ _ _ => ⟨_, rfl⟩
  | cons e ops ih =>
    intro t done h hdone hops hcard hrounds
    obtain ⟨hhash, hmem⟩ := hops e List.mem_cons_self
    obtain ⟨k, hstop⟩ := h.exists_stops hdone hmem hcard
    have hlook := (h.tidy.fshashLookup_ok_iff hhash).mpr
      ⟨k, Nat.le_trans (Nat.le_of_lt (h.tidy.stops_lt hstop)) hrounds, hstop, rfl⟩
    rw [runOps, fshashOverwrite, hlook]
    refine ih (h.set hhash hstop) (fun a ha => ?_) (fun e he => hops e (List.mem_cons_of_mem _ he)) hcard hrounds
    rw [List.map_append, List.mem_append] at ha
    rcases ha with ha | ha
    · exact hdone a ha
    · obtain rfl := List.mem_singleton.mp ha
      exact hmem

end Runs

end LibElf.Elfutils
