import LibElf.Elfutils.Nlist

/-!
# The symbol table of nlist as a map

A name whose hash value is 0 is stored in a slot that still counts as free, and a search for such a name compares it
with the null pointer in a free slot. The number of slots is counted without regard to what `nelems * 3` and the size in
bytes do in 64 bits.

1. `IsMap`: the names stored are found with the entries stored last, and a name is found if it was stored.
2. `NamesFit`, and `isMap_iff` for a table that has its memory.
3. `fshash_map_iff`: the tables that have it.
-/

namespace LibElf.Elfutils

open Fshash

variable {σ : Type}

/-- After the entries were stored, the names stored and the name `q` are found as a map would find them: all searches
end. -/
def IsMap (t : Fshash σ) (ops : List (List UInt8 × σ)) (q : List UInt8) : Prop :=
  ∃ rounds t', runOps (fshashOverwrite rounds) t ops = .ok t' ∧
    ∀ name ∈ q :: ops.map Prod.fst, ∃ rounds, fshashFind rounds t' name = .ok (lastStored ops name)

/-- The entries can be stored, and the first slot stays free. -/
def FirstFree (t : Fshash σ) (ops : List (List UInt8 × σ)) : Prop :=
  ∃ rounds t' s, runOps (fshashOverwrite rounds) t ops = .ok t' ∧ t'.table[1]? = some s ∧ s.hval = 0

/-- The names that are stored have hash values other than 0, and so has the name that is looked for unless the slot that
the search begins with is free. There are no more names than slots. -/
structure NamesFit (t : Fshash σ) (ops : List (List UInt8 × σ)) (q : List UInt8) : Prop where
  hashes : ∀ e ∈ ops, strHash e.1 ≠ 0
  query : strHash q ≠ 0 ∨ FirstFree t ops
  room : (insert q (ops.map Prod.fst).toFinset).card ≤ t.nslots

/-! ## Names with the hash value 0 -/

section Zero

variable {t : Fshash σ} {name : List UInt8} {rounds idx : Nat}

theorem hval_of_sameEntry {s : Fshashent σ} (h : sameEntry 0 name s = .ok true) : s.hval = 0 := by
  rw [sameEntry] at h
  split at h
  · next hz => exact hz
  · cases h

theorem hval_of_probeLoop {hash : Nat} (rounds : Nat) : ∀ {i : Nat}, probeLoop t 0 name hash rounds i = .ok idx →
    ∀ s, t.table[idx]? = some s → s.hval = 0 := by
  induction rounds with
  | zero => exact fun h => nomatch h
  | succ rounds ih =>
    intro i h s hs
    rw [probeLoop] at h
    split at h
    · cases h
    next s' hs' =>
    split at h
    · cases h
    · next hsame =>
      cases h
      rw [hs] at hs'
      cases hs'
      exact hval_of_sameEntry hsame
    · split at h
      · exact ih h s hs
      · next hz =>
        cases h
        rw [hs] at hs'
        cases hs'
        exact not_not.mp hz

/-- A lookup with the hash value 0 that ends is at a slot that counts as free. -/
theorem hval_of_lookup (h : fshashLookup rounds t 0 name = .ok idx) : ∀ s, t.table[idx]? = some s → s.hval = 0 := by
  intro s hs
  rw [fshashLookup] at h
  split at h
  · cases h
  next s' hs' =>
  split at h
  · next hz =>
    cases h
    rw [hs] at hs'
    cases hs'
    exact hz
  · split at h
    · cases h
    · next hsame =>
      cases h
      rw [hs] at hs'
      cases hs'
      exact hval_of_sameEntry hsame
    · exact hval_of_probeLoop rounds h s hs

/-- A name with the hash value 0 is never found. -/
theorem find_zero (hz : strHash name = 0) {r : Option (List UInt8 × σ)} (h : fshashFind rounds t name = .ok r) :
    r = none := by
  rw [fshashFind, hz] at h
  split at h
  · cases h
  next idx hlook =>
  split at h
  · cases h
  next s hs =>
  rw [if_pos (hval_of_lookup hlook s hs)] at h
  cases h
  rfl

/-- A name with the hash value 0 is compared with a null pointer, unless the search begins at a free slot. -/
theorem lookup_zero (htidy : Tidy t) (h : fshashLookup rounds t 0 name = .ok idx) :
    ∃ s, t.table[1]? = some s ∧ s.hval = 0 := by
  have hsame : ∀ s ∈ t.table, s.hval = 0 → sameEntry 0 name s = .error .null := by
    intro s hs hz
    rw [sameEntry, if_pos hz, htidy.free s hs hz]
  have hother : ∀ s : Fshashent σ, s.hval ≠ 0 → sameEntry 0 name s = .ok false := fun s hz => if_neg hz
  have hloop : ∀ (rounds : Nat) {hash i : Nat}, probeLoop t 0 name hash rounds i ≠ .ok idx := by
    intro rounds
    induction rounds with
    | zero =>
      intro _ _ h
      cases h
    | succ rounds ih =>
      intro hash i h
      rw [probeLoop] at h
      split at h
      · cases h
      next s hs =>
      by_cases hz : s.hval = 0
      · rw [hsame s (List.mem_of_getElem? hs) hz] at h
        cases h
      · rw [hother s hz] at h
        simp only [if_pos hz] at h
        exact ih h
  have h11 := htidy.eleven
  have hlt : 1 < t.table.length := by
    rw [htidy.length]
    omega
  refine ⟨_, List.getElem?_eq_getElem hlt, ?_⟩
  by_contra hne
  rw [fshashLookup, Nat.zero_mod, Nat.add_zero] at h
  simp only [List.getElem?_eq_getElem hlt, if_neg hne, hother _ hne] at h
  exact hloop rounds h

/-- Where the first slot is free the search for a name with the hash value 0 ends there. -/
theorem find_zero_of_free (hz : strHash name = 0) {s : Fshashent σ} (hs : t.table[1]? = some s) (hfree : s.hval = 0) :
    fshashFind rounds t name = .ok none := by
  have hlook : fshashLookup rounds t 0 name = .ok 1 := by
    rw [fshashLookup, Nat.zero_mod, Nat.add_zero]
    simp only [hs, if_pos hfree]
  rw [fshashFind, hz, hlook]
  simp only [hs, if_pos hfree]

end Zero

/-! ## Tables with their memory -/

section Whole

variable {t t' : Fshash σ} {ops : List (List UInt8 × σ)} {q : List UInt8} {rounds : Nat}

theorem Fresh.records {n : Nat} (h : Fresh n t) (hw : t.Whole) : Records t [] := by
  refine ⟨h.tidy hw, fun name sym => iff_of_false ?_ nofun⟩
  rintro ⟨i, hi⟩
  obtain ⟨s, hs, hentry⟩ := Option.bind_eq_some_iff.mp hi
  have hzero : s = ⟨0, none⟩ := List.eq_of_mem_replicate (h.table ▸ List.mem_of_getElem? hs)
  rw [hzero] at hentry
  cases hentry

theorem nslots_run : ∀ {t : Fshash σ}, runOps (fshashOverwrite rounds) t ops = .ok t' → t'.nslots = t.nslots := by
  induction ops with
  | nil =>
    intro t h
    cases h
    rfl
  | cons e ops ih =>
    intro t h
    rw [runOps, fshashOverwrite] at h
    split at h
    · next t₁ hstep =>
      split at hstep
      · cases hstep
      · cases hstep
        exact @ih { t with table := t.table.set _ ⟨strHash e.1, some e⟩ } h
    · cases h

/-- The names stored all have a slot of their own. -/
theorem Records.card_le (h : Records t ops) : (ops.map Prod.fst).toFinset.card ≤ t.nslots ∧
    ((∃ s ∈ Finset.Icc 1 t.nslots, t.slots s = none) → (ops.map Prod.fst).toFinset.card < t.nslots) := by
  refine card_le_slots fun name hname => ?_
  obtain ⟨i, sym, hi⟩ := h.exists_slot (List.mem_toFinset.mp hname)
  obtain ⟨k, -, rfl⟩ := h.tidy.held i name sym hi
  exact ⟨_, sym, Finset.mem_Icc.mpr (h.tidy.probe_mem name k), hi⟩

/-- A search for a name that was not stored ends at a free slot. -/
theorem Records.card_insert_le (h : Records t ops) (hempty : q ∉ ops.map Prod.fst → ∃ s ∈ Finset.Icc 1 t.nslots,
    t.slots s = none) : (insert q (ops.map Prod.fst).toFinset).card ≤ t.nslots := by
  by_cases hq : q ∈ ops.map Prod.fst
  · rw [Finset.insert_eq_of_mem (List.mem_toFinset.mpr hq)]
    exact h.card_le.1
  · rw [Finset.card_insert_of_notMem (fun hmem => hq (List.mem_toFinset.mp hmem))]
    exact h.card_le.2 (hempty hq)

/-- A free slot has no entry. -/
theorem Records.slot_of_free (h : Records t ops) {i : Nat} {s : Fshashent σ} (hs : t.table[i]? = some s)
    (hfree : s.hval = 0) : t.slots i = none := by
  rw [slots, hs, Option.bind_some, h.tidy.free s (List.mem_of_getElem? hs) hfree]

theorem namesFit_of_isMap (hr : Records t []) (h : IsMap t ops q) : NamesFit t ops q := by
  obtain ⟨rounds, t', hrun, hfind⟩ := h
  have hhash : ∀ e ∈ ops, strHash e.1 ≠ 0 := by
    intro e he hz
    have hmem : e.1 ∈ ops.map Prod.fst := List.mem_map_of_mem he
    obtain ⟨rounds', hfound⟩ := hfind e.1 (List.mem_cons_of_mem _ hmem)
    obtain ⟨e', he'⟩ := lastStored_isSome hmem
    rw [he'] at hfound
    cases find_zero hz hfound
  have hr' : Records t' ops := records_run hr hhash hrun
  have hn : t'.nslots = t.nslots := nslots_run hrun
  obtain ⟨rounds', hfound⟩ := hfind q List.mem_cons_self
  rw [fshashFind] at hfound
  split at hfound
  · cases hfound
  next idx hlook =>
  by_cases hz : strHash q = 0
  · rw [hz] at hlook
    obtain ⟨s, hs, hfree⟩ := lookup_zero hr'.tidy hlook
    refine ⟨hhash, .inr ⟨rounds, t', s, hrun, hs, hfree⟩, hn ▸ hr'.card_insert_le fun _ => ?_⟩
    have h11 := hr'.tidy.eleven
    exact ⟨1, Finset.mem_Icc.mpr ⟨Nat.le_refl 1, by omega⟩, hr'.slot_of_free hs hfree⟩
  · obtain ⟨k, -, hstop, -⟩ := (hr'.tidy.fshashLookup_ok_iff hz).mp hlook
    refine ⟨hhash, .inl hz, hn ▸ hr'.card_insert_le fun hq => ?_⟩
    refine ⟨_, Finset.mem_Icc.mpr (hr'.tidy.probe_mem q k), ?_⟩
    by_contra hsome
    obtain ⟨e, he⟩ := Option.ne_none_iff_exists'.mp hsome
    exact hq (hstop.here e he ▸ hr'.name_mem he)

theorem isMap_of_namesFit (hr : Records t []) (h : NamesFit t ops q) : IsMap t ops q := by
  have hops : ∀ e ∈ ops, strHash e.1 ≠ 0 ∧ e.1 ∈ insert q (ops.map Prod.fst).toFinset := fun e he =>
    ⟨h.hashes e he, Finset.mem_insert_of_mem (List.mem_toFinset.mpr (List.mem_map_of_mem he))⟩
  -- a name with another hash value is found in every table that has the entries
  have hfind : ∀ {t' : Fshash σ}, Records t' ops → t'.nslots = t.nslots → ∀ name ∈ insert q (ops.map Prod.fst).toFinset,
      strHash name ≠ 0 → ∃ rounds, fshashFind rounds t' name = .ok (lastStored ops name) := by
    intro t' hr' hn name hname hhash
    obtain ⟨k, hstop⟩ := hr'.exists_stops
      (fun a ha => Finset.mem_insert_of_mem (List.mem_toFinset.mpr ha)) hname (hn ▸ h.room)
    exact ⟨k, hr'.find_eq hhash hstop (Nat.le_refl k)⟩
  have hstored : ∀ {t' : Fshash σ}, Records t' ops → t'.nslots = t.nslots → ∀ name ∈ ops.map Prod.fst,
      ∃ rounds, fshashFind rounds t' name = .ok (lastStored ops name) := by
    intro t' hr' hn name hname
    obtain ⟨e, he, rfl⟩ := List.mem_map.mp hname
    exact hfind hr' hn e.1 (hops e he).2 (hops e he).1
  by_cases hz : strHash q = 0
  · obtain ⟨rounds, t', s, hrun, hs, hfree⟩ := h.query.resolve_left (not_not.mpr hz)
    have hr' : Records t' ops := records_run hr h.hashes hrun
    have hlast : lastStored ops q = none := by
      by_contra hsome
      obtain ⟨e, he⟩ := Option.ne_none_iff_exists'.mp hsome
      obtain ⟨e', he', heq⟩ := List.mem_map.mp (name_of_lastStored he).2
      exact h.hashes e' he' (heq ▸ hz)
    refine ⟨rounds, t', hrun, List.forall_mem_cons.mpr ⟨⟨0, ?_⟩, hstored hr' (nslots_run hrun)⟩⟩
    rw [hlast]
    exact find_zero_of_free hz hs hfree
  · obtain ⟨t', hrun⟩ := run_ends hr (fun a ha => nomatch ha) hops h.room (Nat.le_refl _)
    have hr' : Records t' ops := records_run hr h.hashes hrun
    have hn := nslots_run hrun
    exact ⟨_, t', hrun, List.forall_mem_cons.mpr ⟨hfind hr' hn q (Finset.mem_insert_self _ _) hz, hstored hr' hn⟩⟩

theorem isMap_iff (hr : Records t []) : IsMap t ops q ↔ NamesFit t ops q :=
  ⟨namesFit_of_isMap hr, isMap_of_namesFit hr⟩

end Whole

/-! ## Tables without -/

/-- Two names with the same hash value. -/
def nameA : List UInt8 := [1, 17]
def nameB : List UInt8 := [2, 1]

theorem strHash_nameA : strHash nameA = 33 := by decide
theorem strHash_nameB : strHash nameB = 33 := by decide

/-- The second slot of the search is the last one, for which there is no memory. -/
theorem not_isMap_of_not_whole {n : Nat} {t : Fshash σ} (h : Fresh n t) (hw : ¬ t.Whole) (sym : σ) :
    NamesFit t [(nameA, sym)] nameB ∧ ¬ IsMap t [(nameA, sym)] nameB := by
  have hbig : 2 ^ 58 < t.nslots := by
    unfold Fshash.Whole at hw
    omega
  constructor
  · refine ⟨fun e he => ?_, .inl (by rw [strHash_nameB]; decide), ?_⟩
    · rw [List.mem_singleton.mp he, strHash_nameA]
      decide
    · have := Finset.card_insert_le nameB ([(nameA, sym)].map Prod.fst).toFinset
      have hone := List.toFinset_card_le ([(nameA, sym)].map Prod.fst)
      rw [List.length_map, List.length_singleton] at hone
      omega
  · rintro ⟨rounds, t', hrun, hfind⟩
    have hidx : 1 + 33 % t.nslots = 34 := by rw [Nat.mod_eq_of_lt (by omega)]
    have hstep : stepDown t.nslots (1 + 33 % (t.nslots - 2)) 34 = t.nslots := by
      rw [Nat.mod_eq_of_lt (by omega), stepDown, if_pos (Nat.le_refl 34)]
      omega
    have hlast : t.table[t.nslots]? = none := List.getElem?_eq_none (h.length_of_not_whole hw)
    -- the first name is stored in slot 34
    have hstored : t' = { t with table := t.table.set 34 ⟨33, some (nameA, sym)⟩ } := by
      rw [runOps, fshashOverwrite, strHash_nameA, fshashLookup] at hrun
      simp only [hidx] at hrun
      cases hslot : t.table[34]? with
      | none =>
        rw [hslot] at hrun
        cases hrun
      | some s =>
        have hs : s = ⟨0, none⟩ := List.eq_of_mem_replicate (h.table ▸ List.mem_of_getElem? hslot)
        subst hs
        simp only [hslot, if_pos] at hrun
        cases hrun
        rfl
    obtain ⟨rounds', hfound⟩ := hfind nameB List.mem_cons_self
    have hother : sameEntry 33 nameB ⟨33, some (nameA, sym)⟩ = .ok false := by
      rw [sameEntry, if_pos rfl]
      exact congrArg Except.ok (decide_eq_false (show nameA ≠ nameB by decide))
    rw [hstored, fshashFind, strHash_nameB, fshashLookup] at hfound
    simp only [hidx] at hfound
    rcases Nat.lt_or_ge 34 t.table.length with hlt | hge
    · simp only [List.getElem?_set_self hlt, hother] at hfound
      rw [if_neg (by decide)] at hfound
      cases rounds' with
      | zero => cases hfound
      | succ rounds' =>
        rw [probeLoop] at hfound
        simp only [hstep, List.getElem?_set_ne (show 34 ≠ t.nslots by omega), hlast] at hfound
        cases hfound
    · rw [List.getElem?_eq_none (by rw [List.length_set]; exact hge)] at hfound
      cases hfound

/-! ## The theorem -/

/-- The tables that have the memory they need are those in which the symbols are found exactly where the names fit. -/
theorem fshash_map_iff [Inhabited σ] {n : Nat} {t : Fshash σ} (h : fshashInit σ n = some t) :
    t.Whole ↔ ∀ ops q, ops.length ≤ n → (IsMap t ops q ↔ NamesFit t ops q) := by
  have hfresh := fshashInit_prime h
  constructor
  · exact fun hw ops q _ => isMap_iff (hfresh.records hw)
  · intro hall
    by_contra hw
    obtain ⟨hfit, hno⟩ := not_isMap_of_not_whole hfresh hw default
    refine hno ((hall _ _ ?_).mpr hfit)
    -- a table for no symbols is small
    have hle := hfresh.le
    unfold Fshash.Whole at hw
    rw [List.length_singleton]
    by_contra hzero
    obtain rfl : n = 0 := by omega
    rw [Nat.zero_mul, show wrap 0 = 0 from rfl] at hle
    omega

theorem exists_fshashInit {n : Nat} (hn : n < (2 ^ 64 - 1) / 3 * 2) : ∃ t, fshashInit σ n = some t := by
  have hseed : max (wrap (n * 3) / 2) 10 < 2 ^ 63 := by
    have := wrap_lt (n * 3)
    omega
  obtain ⟨p, hp, hle⟩ := @exists_least_prime (max (wrap (n * 3) / 2) 10) (by omega)
  rw [fshashInit, if_neg (Nat.not_le.mpr hn), nextPrime_eq (Nat.le_max_right _ _) hp (by omega) (by omega)]
  exact ⟨_, rfl⟩

/-- The table for one symbol. -/
theorem exists_fshashInit_one : ∃ t : Fshash Nat, fshashInit Nat 1 = some t ∧ t.Whole ∧ Fresh 1 t := by
  obtain ⟨t, ht⟩ := @exists_fshashInit Nat 1 (by decide)
  have hfresh := fshashInit_prime ht
  refine ⟨t, ht, ?_, hfresh⟩
  have hle := hfresh.le
  rw [show wrap (1 * 3) = 3 from rfl] at hle
  unfold Fshash.Whole
  omega

/-- The symbol `a` is found. -/
theorem fshash_map_iff_a : ∃ t : Fshash Nat, fshashInit Nat 1 = some t ∧ t.Whole ∧ IsMap t [([0x61], 5)] [0x61] := by
  obtain ⟨t, ht, hw, hfresh⟩ := exists_fshashInit_one
  have h11 := hfresh.eleven
  refine ⟨t, ht, hw, ((fshash_map_iff ht).mp hw [([0x61], 5)] [0x61] (by decide)).mpr ⟨?_, .inl (by decide), ?_⟩⟩
  · intro e he
    rw [List.mem_singleton.mp he]
    decide
  · have hcard : (insert [0x61] ([([0x61], 5)].map (Prod.fst : List UInt8 × Nat → _)).toFinset).card = 1 := by decide
    omega

/-- The symbol `icihyoxsp` has the hash value 0. It is stored and not found. -/
theorem icihyoxsp_not_found : ∃ (t : Fshash Nat) (name : List UInt8),
    name = [0x69, 0x63, 0x69, 0x68, 0x79, 0x6F, 0x78, 0x73, 0x70] ∧ fshashInit Nat 1 = some t ∧
      ¬ IsMap t [(name, 5)] name := by
  obtain ⟨t, ht, hw, hfresh⟩ := exists_fshashInit_one
  refine ⟨t, _, rfl, ht, fun h => ?_⟩
  exact ((isMap_iff (hfresh.records hw)).mp h).hashes _ List.mem_cons_self (by decide)

end LibElf.Elfutils
