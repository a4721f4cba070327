import Mathlib.Tactic.Common

/-!
# Chains of blocks

A growing table that never moves its entries is a chain of blocks: each block has an array of a
capacity of its own, of which the first `cnt` entries are used, and a new block is appended when the
last one is full.

1. `Block`, `entries` and `Full`, the blocks that are full except possibly the last.
2. `find`, the position of the entry with a flat index, and `entry_find`: it is the entry that the
   table has at the index.
3. `next`, the position after a position, and `next_find`: it is that of the next index.
4. `entries_append`, `Full.append` and `Full.setLast`, for the two ways to add an entry.
-/

namespace LibElf

variable {α : Type}

/-- A block: of the entries of `data` the first `cnt` are used. -/
structure Block (α : Type) where
  cnt : Nat
  data : List α
deriving DecidableEq

namespace Block

def max (b : Block α) : Nat := b.data.length

def used (b : Block α) : List α := b.data.take b.cnt

theorem length_used {b : Block α} (h : b.cnt ≤ b.max) : b.used.length = b.cnt := by
  rw [used, List.length_take]
  exact Nat.min_eq_left h

def push (b : Block α) (f : α → α) : Block α := ⟨b.cnt + 1, b.data.modify b.cnt f⟩

@[simp] theorem max_push (b : Block α) (f : α → α) : (b.push f).max = b.max := by
  simp [push, max]

theorem used_push {b : Block α} {f : α → α} {x : α} (h : b.data[b.cnt]? = some x) :
    (b.push f).used = b.used ++ [f x] := by
  have hold : (b.data.modify b.cnt f).take b.cnt = b.data.take b.cnt := by
    rw [List.take_modify]
    exact List.modify_eq_self (List.length_take_le _ _)
  have hnew : (b.data.modify b.cnt f)[b.cnt]? = some (f x) := by
    rw [List.getElem?_modify_eq, h]
    rfl
  show (b.data.modify b.cnt f).take (b.cnt + 1) = _
  rw [List.take_add_one, hold, hnew]
  rfl

theorem getElem?_used {b : Block α} {i : Nat} (h : i < b.cnt) : b.used[i]? = b.data[i]? := by
  rw [used, List.getElem?_take, if_pos h]

end Block

namespace Chain

def entries (bs : List (Block α)) : List α := bs.flatMap Block.used

/-- The blocks are full except possibly the last, and only the first may be unused. -/
structure Full (bs : List (Block α)) : Prop where
  full : ∀ b ∈ bs.dropLast, b.cnt = b.max
  le : ∀ b ∈ bs, b.cnt ≤ b.max
  pos : ∀ b ∈ bs.tail, 0 < b.cnt

/-- The position, block and place, of the entry with a flat index. -/
def find : List (Block α) → Nat → Option (Nat × Nat)
  | [], _ => none
  | b :: bs, i =>
    if i < b.max then if i < b.cnt then some (0, i) else none
    else (find bs (i - b.max)).map fun p => (p.1 + 1, p.2)

def entry (bs : List (Block α)) (p : Nat × Nat) : Option α := bs[p.1]?.bind fun b => b.data[p.2]?

def next (bs : List (Block α)) (p : Nat × Nat) : Option (Nat × Nat) :=
  match bs[p.1]? with
  | none => none
  | some b =>
    if p.2 + 1 < b.cnt then some (p.1, p.2 + 1)
    else if p.2 + 1 = b.max ∧ p.1 + 1 < bs.length then some (p.1 + 1, 0) else none

@[simp] theorem entries_nil : entries ([] : List (Block α)) = [] := rfl

@[simp] theorem entries_cons (b : Block α) (bs : List (Block α)) :
    entries (b :: bs) = b.used ++ entries bs := rfl

@[simp] theorem entries_append (bs bs' : List (Block α)) :
    entries (bs ++ bs') = entries bs ++ entries bs' := by
  simp [entries]

namespace Full

variable {b c : Block α} {bs : List (Block α)}

theorem single (h : b.cnt ≤ b.max) : Full [b] := ⟨by simp, by simpa using h, by simp⟩

theorem tail (h : Full (b :: bs)) : Full bs := by
  refine ⟨fun c hc => h.full c ?_, fun c hc => h.le c (List.mem_cons_of_mem _ hc), fun c hc => ?_⟩
  · cases bs with
    | nil => cases hc
    | cons d ds => exact List.mem_cons_of_mem _ hc
  · exact h.pos c (List.mem_of_mem_tail hc)

theorem head (h : Full (b :: c :: bs)) : b.cnt = b.max := h.full b (by simp)

/-- A chain goes on with a new block where its last one is full. -/
theorem append (h : Full (bs ++ [b])) (hb : b.cnt = b.max) (hc : c.cnt ≤ c.max) (hpos : 0 < c.cnt) :
    Full (bs ++ [b] ++ [c]) := by
  refine ⟨fun d hd => ?_, fun d hd => ?_, fun d hd => ?_⟩
  · rw [List.dropLast_concat] at hd
    rcases List.mem_append.mp hd with hd | hd
    · exact h.full d (by rwa [List.dropLast_concat])
    · obtain rfl := List.mem_singleton.mp hd
      exact hb
  · rcases List.mem_append.mp hd with hd | hd
    · exact h.le d hd
    · obtain rfl := List.mem_singleton.mp hd
      exact hc
  · rw [List.tail_append_of_ne_nil (by simp)] at hd
    rcases List.mem_append.mp hd with hd | hd
    · exact h.pos d hd
    · obtain rfl := List.mem_singleton.mp hd
      exact hpos

/-- The last block of a chain may be replaced by another that is used. -/
theorem setLast (h : Full (bs ++ [b])) (hc : c.cnt ≤ c.max) (hpos : 0 < c.cnt) : Full (bs ++ [c]) := by
  refine ⟨fun d hd => ?_, fun d hd => ?_, fun d hd => ?_⟩
  · rw [List.dropLast_concat] at hd
    exact h.full d (by rwa [List.dropLast_concat])
  · rcases List.mem_append.mp hd with hd | hd
    · exact h.le d (List.mem_append_left _ hd)
    · obtain rfl := List.mem_singleton.mp hd
      exact hc
  · cases bs with
    | nil => cases hd
    | cons d' ds =>
      rcases List.mem_append.mp hd with hd | hd
      · exact h.pos d (List.mem_append_left _ hd)
      · obtain rfl := List.mem_singleton.mp hd
        exact hpos

end Full

/-! ## Looking up -/

/-- A position found has a used entry. -/
theorem find_some {bs : List (Block α)} : ∀ {i : Nat} {p : Nat × Nat}, find bs i = some p →
    ∃ b, bs[p.1]? = some b ∧ p.2 < b.cnt ∧ p.2 < b.max := by
  induction bs with
  | nil => intro i p h; cases h
  | cons b bs ih =>
    intro i p h
    rw [find] at h
    split at h
    · next hlt =>
      split at h
      · next hcnt =>
        obtain rfl := Option.some.inj h
        exact ⟨b, rfl, hcnt, hlt⟩
      · cases h
    · obtain ⟨q, hq, rfl⟩ := Option.map_eq_some_iff.mp h
      obtain ⟨c, hc, hlt⟩ := ih hq
      exact ⟨c, by simpa using hc, hlt⟩

/-- The lookup is the table's. -/
theorem entry_find {bs : List (Block α)} (h : Full bs) :
    ∀ i, (find bs i).bind (entry bs) = (entries bs)[i]? := by
  induction bs with
  | nil => intro i; rfl
  | cons b bs ih =>
    intro i
    have hlen := Block.length_used (h.le b List.mem_cons_self)
    have hle := h.le b List.mem_cons_self
    rw [find, entries_cons]
    by_cases hmax : i < b.max
    · rw [if_pos hmax]
      by_cases hcnt : i < b.cnt
      · rw [if_pos hcnt, List.getElem?_append_left (by omega), Block.getElem?_used hcnt]
        rfl
      · -- the block is not full, so it is the last one
        rw [if_neg hcnt, List.getElem?_append_right (by omega)]
        cases bs with
        | nil => rfl
        | cons c bs =>
          have := h.head
          omega
    · rw [if_neg hmax, List.getElem?_append_right (by omega), Option.bind_map]
      cases bs with
      | nil => rfl
      | cons c bs =>
        have hfull := h.head
        rw [hlen, hfull, ← ih h.tail]
        rfl

/-- The indices that are found are those of the table. -/
theorem isSome_find {bs : List (Block α)} (h : Full bs) (i : Nat) :
    (find bs i).isSome ↔ i < (entries bs).length := by
  have hlook := entry_find h i
  cases hf : find bs i with
  | none =>
    rw [hf, Option.bind_none] at hlook
    have := List.getElem?_eq_none_iff.mp hlook.symm
    simpa using this
  | some p =>
    obtain ⟨b, hb, -, hmax⟩ := find_some hf
    have hdata : b.data[p.2]? = some b.data[p.2] := List.getElem?_eq_getElem hmax
    rw [hf, Option.bind_some, entry, hb, Option.bind_some, hdata] at hlook
    have := (List.getElem?_eq_some_iff.mp hlook.symm).1
    simpa using this

/-- Going on from a position goes on in the table. -/
theorem next_find {bs : List (Block α)} (h : Full bs) : ∀ {i : Nat} {p : Nat × Nat},
    find bs i = some p → next bs p = find bs (i + 1) := by
  induction bs with
  | nil => intro i p hf; cases hf
  | cons b bs ih =>
    intro i p hf
    rw [find] at hf
    by_cases hmax : i < b.max
    · rw [if_pos hmax] at hf
      by_cases hcnt : i < b.cnt
      · rw [if_pos hcnt] at hf
        obtain rfl := Option.some.inj hf
        simp only [next, List.getElem?_cons_zero, find]
        by_cases hnext : i + 1 < b.cnt
        · have hle := h.le b List.mem_cons_self
          rw [if_pos hnext, if_pos (by omega), if_pos hnext]
        · rw [if_neg hnext]
          by_cases hend : i + 1 = b.max
          · have hge : ¬ b.max < b.max := Nat.lt_irrefl _
            rw [hend, if_neg hge, Nat.sub_self]
            cases bs with
            | nil => simp [find]
            | cons c bs =>
              -- the first entry of the next block, which is used
              have hpos := h.pos c (by simp)
              have hle := h.le c (by simp)
              have hlast : 0 + 1 < (b :: c :: bs).length := by simp
              rw [if_pos ⟨rfl, hlast⟩, find, if_pos (Nat.lt_of_lt_of_le hpos hle), if_pos hpos]
              rfl
          · rw [if_neg fun hc => hend hc.1, if_pos (by omega), if_neg hnext]
      · rw [if_neg hcnt] at hf
        cases hf
    · rw [if_neg hmax] at hf
      obtain ⟨q, hq, rfl⟩ := Option.map_eq_some_iff.mp hf
      have hrest := ih h.tail hq
      rw [find, if_neg (by omega), show i + 1 - b.max = i - b.max + 1 by omega, ← hrest]
      simp only [next, List.getElem?_cons_succ, List.length_cons]
      cases bs[q.1]? with
      | none => rfl
      | some c =>
        simp only [Nat.add_lt_add_iff_right]
        split
        · rfl
        · split <;> rfl

end Chain

end LibElf
