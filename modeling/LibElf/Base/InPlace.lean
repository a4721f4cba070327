import LibElf.Base.Table

/-!
# Translating a table inside one memory

A loop reads records at one cursor of a memory and writes their translations at another. When the
two ranges are apart nothing can go wrong. When they start at the same place, a record may only be
overwritten after it was read: the loop has to run forwards when records shrink, and backwards when
they grow.

1. `forward` and `backward`, the two loops, and `backwardInto`, which stores each record over another
   one and may keep bytes of it.
2. `forward_exact`, `backwardInto_exact` and `backward_exact`: the translated table of the source as it
   was before the loop, in all cases.
-/

namespace LibElf

open Outcome

namespace Mem

variable {n : Nat} {ε : Type}

def read (m : Mem n) (off len : Nat) : Outcome ε (Mem n) (List UInt8) := readAt m.bytes off len m

theorem read_of_le (m : Mem n) {off len : Nat} (h : off + len ≤ n) :
    (m.read off len : Outcome ε (Mem n) (List UInt8)) = .ok (window m.bytes off len) m :=
  readAt_of_le m (by rw [m.length_eq]; exact h)

/-- What was just stored. -/
theorem window_splice (m : Mem n) {off : Nat} {bs : List UInt8} (h : off + bs.length ≤ n) :
    window (m.splice off bs h).bytes off bs.length = bs :=
  window_splice_self (by rw [m.length_eq]; exact h)

end Mem

open Mem

section Loops

variable {ε : Type} (f : List UInt8 → List UInt8) (g : List UInt8 → List UInt8 → List UInt8) (a b : Nat) {n : Nat}

/-- Translate `count` records of `a` bytes at `s` into records of `b` bytes at `d`, from the first one
on. -/
def forward : Nat → Nat → Nat → Mem n → Outcome ε (Mem n) Unit
  | 0, _, _, m => .ok () m
  | count + 1, d, s, m =>
    (m.read s a).bind fun bs m =>
    (m.write d (f bs)).bind fun _ m =>
    forward count (d + b) (s + a) m

/-- Store `count` records of `a` bytes at `s` over the records of `b` bytes at `d`, from the last one
down. -/
def backwardInto (d s : Nat) : Nat → Mem n → Outcome ε (Mem n) Unit
  | 0, m => .ok () m
  | count + 1, m =>
    (m.read (s + count * a) a).bind fun bs m =>
    (m.write (d + count * b) (g (window m.bytes (d + count * b) b) bs)).bind fun _ m =>
    backwardInto d s count m

/-- Translate `count` records of `a` bytes at `s` into records of `b` bytes at `d`, from the last one
down. -/
def backward (d s count : Nat) (m : Mem n) : Outcome ε (Mem n) Unit := backwardInto (fun _ => f) a b d s count m

/-- The `len` bytes at `d` and the `len'` bytes at `s` have none in common. -/
def Separate (d len s len' : Nat) : Prop := d + len ≤ s ∨ s + len' ≤ d

instance (d len s len' : Nat) : Decidable (Separate d len s len') := inferInstanceAs (Decidable (_ ∨ _))

variable {f g a b}

/-- The forward loop leaves the translated table when the ranges are apart, or when the write cursor
starts no later than the read cursor and records do not grow. -/
theorem forward_exact (hf : ∀ r, r.length = a → (f r).length = b) (count : Nat) : ∀ (d s : Nat) (m : Mem n),
    Separate d (count * b) s (count * a) ∨ d ≤ s ∧ b ≤ a → s + count * a ≤ n → d + count * b ≤ n →
    ∃ m', (forward f a b count d s m : Outcome ε (Mem n) Unit) = .ok () m' ∧ Frame m m' d (count * b) ∧
      window m'.bytes d (count * b) = (records f a count (window m.bytes s (count * a))).flatten := by
  induction count with
  | zero =>
    intro d s m _ _ _
    refine ⟨m, rfl, Frame.refl _ _ _, ?_⟩
    rw [Nat.zero_mul, window_zero]
    rfl
  | succ count ih =>
    intro d s m hsafe hs hd
    rw [Nat.add_mul, Nat.add_mul, Nat.one_mul, Nat.one_mul] at *
    have hlen := hf _ (length_window (l := m.bytes) (by rw [m.length_eq]; omega : s + a ≤ m.bytes.length))
    have hin : d + (f (window m.bytes s a)).length ≤ n := by
      rw [hlen]
      omega
    have hfirst := frame_splice m hin
    rw [hlen] at hfirst
    have hself := window_splice m hin
    rw [hlen] at hself
    -- the record is read before its place is written, and the rest of the table is not there
    have hrest : window (m.splice d _ hin).bytes (s + a) (count * a) = window m.bytes (s + a) (count * a) := by
      rcases Nat.eq_zero_or_pos count with rfl | hcount
      · rw [Nat.zero_mul, window_zero, window_zero]
      · refine hfirst.window_eq ?_
        rcases hsafe with (h | h) | h
        · exact .inr (by omega)
        · exact .inl (by omega)
        · exact .inr (by omega)
    have hsafe' : Separate (d + b) (count * b) (s + a) (count * a) ∨ d + b ≤ s + a ∧ b ≤ a := by
      rcases hsafe with (h | h) | h
      · exact .inl (.inl (by omega))
      · exact .inl (.inr (by omega))
      · exact .inr (by omega)
    obtain ⟨m', hm', hframe, hwin⟩ := ih (d + b) (s + a) (m.splice d _ hin) hsafe' (by omega) (by omega)
    refine ⟨m', ?_, ?_, ?_⟩
    · rw [forward, read_of_le m (by omega), bind_ok, write_of_le m hin, bind_ok]
      exact hm'
    · exact (hfirst.mono (Nat.le_refl d) (by omega)).trans (hframe.mono (by omega) (by omega))
    · have hhead : window m'.bytes d b = f (window m.bytes s a) := by
        rw [hframe.window_eq (.inl (Nat.le_refl _))]
        exact hself
      have hsrc : window m.bytes s (count * a + a) = window m.bytes s a ++ window m.bytes (s + a) (count * a) := by
        rw [window_append_window, Nat.add_comm]
      rw [hsrc, records_append (length_window (by rw [m.length_eq]; omega)), List.flatten_cons, Nat.add_comm,
        ← window_append_window, hhead, hwin, hrest]

/-- The backward loop leaves the translated table when the ranges are apart, or when the write cursor
starts no earlier than the read cursor and records do not shrink. -/
theorem backwardInto_exact (hg : ∀ o r, o.length = b → r.length = a → (g o r).length = b) {d s : Nat} (count : Nat) :
    ∀ m : Mem n,
    Separate d (count * b) s (count * a) ∨ s ≤ d ∧ a ≤ b → s + count * a ≤ n → d + count * b ≤ n →
    ∃ m', (backwardInto g a b d s count m : Outcome ε (Mem n) Unit) = .ok () m' ∧ Frame m m' d (count * b) ∧
      window m'.bytes d (count * b) =
        recordsInto g a b count (window m.bytes d (count * b)) (window m.bytes s (count * a)) := by
  induction count with
  | zero =>
    intro m _ _ _
    refine ⟨m, rfl, Frame.refl _ _ _, ?_⟩
    rw [Nat.zero_mul, window_zero]
    rfl
  | succ count ih =>
    intro m hsafe hs hd
    rw [Nat.add_mul, Nat.add_mul, Nat.one_mul, Nat.one_mul] at *
    have hlen := hg _ _ (length_window (l := m.bytes) (by rw [m.length_eq]; omega : d + count * b + b ≤ m.bytes.length))
      (length_window (l := m.bytes) (by rw [m.length_eq]; omega : s + count * a + a ≤ m.bytes.length))
    have hin : d + count * b +
        (g (window m.bytes (d + count * b) b) (window m.bytes (s + count * a) a)).length ≤ n := by
      rw [hlen]
      omega
    have hlast := frame_splice m hin
    rw [hlen] at hlast
    have hself := window_splice m hin
    rw [hlen] at hself
    -- the records that are left end before the place that is written
    have hrest : window (m.splice (d + count * b) _ hin).bytes s (count * a) = window m.bytes s (count * a) := by
      refine hlast.window_eq ?_
      rcases hsafe with (h | h) | ⟨h, hab⟩
      · exact .inr (by omega)
      · exact .inl (by omega)
      · exact .inl (Nat.add_le_add h (Nat.mul_le_mul_left count hab))
    have hold : window (m.splice (d + count * b) _ hin).bytes d (count * b) = window m.bytes d (count * b) :=
      hlast.window_eq (.inl (Nat.le_refl _))
    have hsafe' : Separate d (count * b) s (count * a) ∨ s ≤ d ∧ a ≤ b := by
      rcases hsafe with (h | h) | h
      · exact .inl (.inl (by omega))
      · exact .inl (.inr (by omega))
      · exact .inr h
    obtain ⟨m', hm', hframe, hwin⟩ := ih (m.splice (d + count * b) _ hin) hsafe' (by omega) (by omega)
    refine ⟨m', ?_, ?_, ?_⟩
    · rw [backwardInto, read_of_le m (by omega), bind_ok, write_of_le m hin, bind_ok]
      exact hm'
    · exact (hlast.mono (by omega) (by omega)).trans (hframe.mono (Nat.le_refl d) (by omega))
    · have htail : window m'.bytes (d + count * b) b =
          g (window m.bytes (d + count * b) b) (window m.bytes (s + count * a) a) := by
        rw [hframe.window_eq (.inr (Nat.le_refl _))]
        exact hself
      have hfront : ∀ p k : Nat, window (window m.bytes p (count * k + k)) 0 (count * k) =
          window (window m.bytes p (count * k)) 0 (count * k) := by
        intro p k
        rw [window_window (by omega), window_window (by omega)]
      rw [recordsInto_succ_last, recordsInto_congr count (hfront d b) (hfront s a), window_window (by omega),
        window_window (by omega), ← window_append_window, htail, hwin, hrest, hold]

theorem backward_exact (hf : ∀ r, r.length = a → (f r).length = b) {d s : Nat} (count : Nat) (m : Mem n)
    (hsafe : Separate d (count * b) s (count * a) ∨ s ≤ d ∧ a ≤ b) (hs : s + count * a ≤ n)
    (hd : d + count * b ≤ n) :
    ∃ m', (backward f a b d s count m : Outcome ε (Mem n) Unit) = .ok () m' ∧ Frame m m' d (count * b) ∧
      window m'.bytes d (count * b) = (records f a count (window m.bytes s (count * a))).flatten := by
  obtain ⟨m', hm', hframe, hwin⟩ := backwardInto_exact (ε := ε) (fun _ r _ hr => hf r hr) count m hsafe hs hd
  refine ⟨m', hm', hframe, hwin.trans (recordsInto_eq (h := f) (fun _ _ _ _ => rfl) count ?_ ?_)⟩
  · rw [length_window (by rw [m.length_eq]; exact hd)]
  · rw [length_window (by rw [m.length_eq]; exact hs)]

end Loops

end LibElf
