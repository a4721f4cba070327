import LibElf.Base.Outcome

/-!
# Byte strings and memory objects

1. `window l off len` is the part of a byte string from `off` on, and `splice l off bs` the string
   with the bytes from `off` on replaced. A window of a spliced string is the new bytes
   (`window_splice_self`) or the old ones (`window_splice_of_le`, `window_splice_of_ge`).
2. `readAt` loads from an object that is only read, and `Mem.write` and `Mem.fill` store into a
   memory object of a fixed size. An access outside the object is a fault; an access of no bytes
   is never outside.
3. `Mem.Frame`: only a given range of bytes may have changed.
-/

namespace LibElf

/-! ## Windows -/

/-- The `len` bytes of `l` from `off` on. -/
def window (l : List UInt8) (off len : Nat) : List UInt8 := (l.drop off).take len

/-- `l` with the bytes from `off` on replaced by `bs`. -/
def splice (l : List UInt8) (off : Nat) (bs : List UInt8) : List UInt8 :=
  l.take off ++ bs ++ l.drop (off + bs.length)

theorem length_window {l : List UInt8} {off len : Nat} (h : off + len ≤ l.length) :
    (window l off len).length = len := by
  simp only [window, List.length_take, List.length_drop]
  omega

theorem length_window_le (l : List UInt8) (off len : Nat) : (window l off len).length ≤ len := by
  simp only [window, List.length_take]
  omega

@[simp] theorem window_zero (l : List UInt8) (off : Nat) : window l off 0 = [] := by
  simp [window]

@[simp] theorem window_nil (off len : Nat) : window [] off len = [] := by
  simp [window]

theorem window_full (l : List UInt8) : window l 0 l.length = l := by
  simp [window]

theorem getElem?_window (l : List UInt8) (off len i : Nat) :
    (window l off len)[i]? = if i < len then l[off + i]? else none := by
  simp only [window, List.getElem?_take, List.getElem?_drop]

/-- A window of a window. -/
theorem window_window {l : List UInt8} {off len off' len' : Nat} (h : off' + len' ≤ len) :
    window (window l off len) off' len' = window l (off + off') len' := by
  apply List.ext_getElem?
  intro i
  simp only [getElem?_window]
  by_cases hi : i < len'
  · have : off' + i < len := by omega
    simp [hi, this, Nat.add_assoc]
  · simp [hi]

/-- A window of what follows `n` bytes. -/
theorem window_drop (l : List UInt8) (n off len : Nat) : window (l.drop n) off len = window l (n + off) len := by
  rw [window, window, List.drop_drop]

/-- Two windows side by side. -/
theorem window_append_window (l : List UInt8) (off a b : Nat) :
    window l off a ++ window l (off + a) b = window l off (a + b) := by
  simp only [window]
  rw [List.take_add, List.drop_drop]

theorem window_append_left {l r : List UInt8} {off len : Nat} (h : off + len ≤ l.length) :
    window (l ++ r) off len = window l off len := by
  apply List.ext_getElem?
  intro i
  simp only [getElem?_window]
  by_cases hi : i < len
  · rw [if_pos hi, if_pos hi, List.getElem?_append_left (by omega)]
  · rw [if_neg hi, if_neg hi]

theorem window_append_right (l r : List UInt8) (off len : Nat) :
    window (l ++ r) (l.length + off) len = window r off len := by
  apply List.ext_getElem?
  intro i
  simp only [getElem?_window]
  by_cases hi : i < len
  · rw [if_pos hi, if_pos hi, List.getElem?_append_right (by omega)]
    congr 1
    omega
  · rw [if_neg hi, if_neg hi]

/-- What stands between two parts. -/
theorem window_between (l bs r : List UInt8) : window (l ++ (bs ++ r)) l.length bs.length = bs := by
  have h := window_append_right l (bs ++ r) 0 bs.length
  have hleft := @window_append_left bs r 0 bs.length (by omega)
  rwa [Nat.add_zero, hleft, window_full] at h

/-! ## Splices -/

theorem length_splice {l bs : List UInt8} {off : Nat} (h : off + bs.length ≤ l.length) :
    (splice l off bs).length = l.length := by
  simp only [splice, List.length_append, List.length_take, List.length_drop]
  omega

theorem getElem?_splice {l bs : List UInt8} {off : Nat} (h : off + bs.length ≤ l.length)
    (i : Nat) :
    (splice l off bs)[i]? =
      if i < off then l[i]? else if i < off + bs.length then bs[i - off]? else l[i]? := by
  have htake : (l.take off).length = off := by
    rw [List.length_take]
    omega
  unfold splice
  rw [List.append_assoc]
  by_cases h1 : i < off
  · rw [if_pos h1, List.getElem?_append_left (by omega), List.getElem?_take, if_pos h1]
  · rw [if_neg h1, List.getElem?_append_right (by omega), htake]
    by_cases h2 : i < off + bs.length
    · rw [if_pos h2, List.getElem?_append_left (by omega)]
    · rw [if_neg h2, List.getElem?_append_right (by omega), List.getElem?_drop]
      congr 1
      omega

/-- The window that was written holds the new bytes. -/
theorem window_splice_self {l bs : List UInt8} {off : Nat} (h : off + bs.length ≤ l.length) :
    window (splice l off bs) off bs.length = bs := by
  apply List.ext_getElem?
  intro i
  rw [getElem?_window, getElem?_splice h]
  by_cases hi : i < bs.length
  · rw [if_pos hi, if_neg (by omega), if_pos (by omega), Nat.add_sub_cancel_left]
  · rw [if_neg hi, List.getElem?_eq_none (by omega)]

/-- A window below the written bytes is untouched. -/
theorem window_splice_of_le {l bs : List UInt8} {off off' len : Nat}
    (h : off + bs.length ≤ l.length) (hle : off' + len ≤ off) :
    window (splice l off bs) off' len = window l off' len := by
  apply List.ext_getElem?
  intro i
  rw [getElem?_window, getElem?_window, getElem?_splice h]
  by_cases hi : i < len
  · rw [if_pos hi, if_pos hi, if_pos (by omega)]
  · rw [if_neg hi, if_neg hi]

/-- A window above the written bytes is untouched. -/
theorem window_splice_of_ge {l bs : List UInt8} {off off' len : Nat}
    (h : off + bs.length ≤ l.length) (hge : off + bs.length ≤ off') :
    window (splice l off bs) off' len = window l off' len := by
  apply List.ext_getElem?
  intro i
  rw [getElem?_window, getElem?_window, getElem?_splice h]
  by_cases hi : i < len
  · rw [if_pos hi, if_pos hi, if_neg (by omega), if_neg (by omega)]
  · rw [if_neg hi, if_neg hi]

/-! ## Memory objects -/

/-- A memory object of `size` bytes. -/
structure Mem (size : Nat) where
  bytes : List UInt8
  length_eq : bytes.length = size
deriving DecidableEq

/-- Load the `len` bytes at `off` of an object that is only read. -/
def readAt {ε σ : Type} (src : List UInt8) (off len : Nat) (s : σ) : Outcome ε σ (List UInt8) :=
  if len = 0 ∨ off + len ≤ src.length then .ok (window src off len) s else .stop .load

theorem readAt_of_le {ε σ : Type} {src : List UInt8} {off len : Nat} (s : σ)
    (h : off + len ≤ src.length) :
    (readAt src off len s : Outcome ε σ (List UInt8)) = .ok (window src off len) s :=
  if_pos (Or.inr h)

theorem readAt_eq_ok {ε σ : Type} {src bs : List UInt8} {off len : Nat} {s t : σ} :
    (readAt src off len s : Outcome ε σ (List UInt8)) = .ok bs t ↔
      (len = 0 ∨ off + len ≤ src.length) ∧ bs = window src off len ∧ t = s := by
  unfold readAt
  split
  · next h => simp [h, eq_comm]
  · next h => simp [h]

theorem readAt_eq_stop {ε σ : Type} {src : List UInt8} {off len : Nat} {s : σ} {f : Fault} :
    (readAt src off len s : Outcome ε σ (List UInt8)) = .stop f ↔
      f = .load ∧ 0 < len ∧ src.length < off + len := by
  unfold readAt
  split
  · next h => simp only [reduceCtorEq, false_iff]; omega
  · next h =>
    have : 0 < len ∧ src.length < off + len := by omega
    simp [this, eq_comm]

theorem readAt_ne_err {ε σ : Type} {src : List UInt8} {off len : Nat} {s t : σ} {e : ε} :
    (readAt src off len s : Outcome ε σ (List UInt8)) ≠ .err e t := by
  unfold readAt
  split <;> simp

/-- A load leaves the state as it is. -/
theorem ensures_readAt {ε σ : Type} {src : List UInt8} {off len : Nat} {s : σ} {E : σ → Prop}
    {F : Fault → Prop} (hF : F .load) :
    (readAt src off len s : Outcome ε σ (List UInt8)).Ensures
      (fun bs t => bs = window src off len ∧ t = s) E F := by
  unfold readAt
  split
  · exact ⟨rfl, rfl⟩
  · exact hF

namespace Mem

variable {size : Nat} {ε : Type}

@[ext] theorem ext {m m' : Mem size} (h : m.bytes = m'.bytes) : m = m' := by
  cases m
  cases m'
  cases h
  rfl

@[simp] theorem length_bytes (m : Mem size) : m.bytes.length = size := m.length_eq

/-- The object fresh from the allocator, with whatever bytes the heap holds. -/
def fresh (heap : Nat → UInt8) (size : Nat) : Mem size :=
  ⟨(List.range size).map heap, by simp⟩

def splice (m : Mem size) (off : Nat) (bs : List UInt8) (h : off + bs.length ≤ size) : Mem size :=
  ⟨LibElf.splice m.bytes off bs, by rw [length_splice (by rw [m.length_eq]; exact h), m.length_eq]⟩

def write (m : Mem size) (off : Nat) (bs : List UInt8) : Outcome ε (Mem size) Unit :=
  if bs = [] then .ok () m
  else if h : off + bs.length ≤ size then .ok () (m.splice off bs h)
  else .stop .store

/-- `memset`: store `len` times the byte `b` at `off`. The bounds are tested before the bytes are
built, so that a length near the top of the word range is no trouble to evaluate. -/
def fill (m : Mem size) (off len : Nat) (b : UInt8) : Outcome ε (Mem size) Unit :=
  if len = 0 then .ok () m
  else if off + len ≤ size then m.write off (List.replicate len b)
  else .stop .store

theorem splice_nil (m : Mem size) (off : Nat) (h : off + ([] : List UInt8).length ≤ size) :
    m.splice off [] h = m := by
  ext1
  simp [splice, LibElf.splice]

theorem write_of_le (m : Mem size) {off : Nat} {bs : List UInt8} (h : off + bs.length ≤ size) :
    (m.write off bs : Outcome ε (Mem size) Unit) = .ok () (m.splice off bs h) := by
  unfold write
  split
  · next hnil =>
    subst hnil
    rw [splice_nil]
  · rfl

theorem write_eq_stop {m : Mem size} {off : Nat} {bs : List UInt8} {f : Fault} :
    (m.write off bs : Outcome ε (Mem size) Unit) = .stop f ↔
      f = .store ∧ bs ≠ [] ∧ size < off + bs.length := by
  unfold write
  split
  · next h => simp [h]
  · next h =>
    split
    · next hin => simp only [reduceCtorEq, false_iff]; omega
    · next hin =>
      have : size < off + bs.length := by omega
      simp [this, h, eq_comm]

/-- Filling is storing a constant string. -/
theorem fill_eq (m : Mem size) (off len : Nat) (b : UInt8) :
    (m.fill off len b : Outcome ε (Mem size) Unit) = m.write off (List.replicate len b) := by
  unfold fill
  split
  · next h => simp [h, write]
  · next h =>
    split
    · rfl
    · next hout =>
      symm
      rw [write_eq_stop]
      simp [h]
      omega

/-! ### Frames -/

/-- Only the `len` bytes from `off` on may have changed. -/
def Frame (m m' : Mem size) (off len : Nat) : Prop :=
  ∀ i, i < off ∨ off + len ≤ i → m'.bytes[i]? = m.bytes[i]?

theorem Frame.refl (m : Mem size) (off len : Nat) : Frame m m off len := fun _ _ => rfl

theorem Frame.trans {m₁ m₂ m₃ : Mem size} {off len : Nat} (h : Frame m₁ m₂ off len)
    (h' : Frame m₂ m₃ off len) : Frame m₁ m₃ off len :=
  fun i hi => (h' i hi).trans (h i hi)

theorem Frame.mono {m m' : Mem size} {off len off' len' : Nat} (h : Frame m m' off len)
    (hlo : off' ≤ off) (hhi : off + len ≤ off' + len') : Frame m m' off' len' := by
  intro i hi
  apply h
  omega

theorem frame_splice (m : Mem size) {off : Nat} {bs : List UInt8} (h : off + bs.length ≤ size) :
    Frame m (m.splice off bs h) off bs.length := by
  intro i hi
  have hle : off + bs.length ≤ m.bytes.length := by
    rw [m.length_eq]
    exact h
  rw [splice, getElem?_splice hle]
  rcases hi with hi | hi
  · rw [if_pos hi]
  · rw [if_neg (by omega), if_neg (by omega)]

/-- A window outside the changed bytes is the same. -/
theorem Frame.window_eq {m m' : Mem size} {off len a n : Nat} (h : Frame m m' off len)
    (ha : a + n ≤ off ∨ off + len ≤ a) : window m'.bytes a n = window m.bytes a n := by
  apply List.ext_getElem?
  intro i
  rw [getElem?_window, getElem?_window]
  by_cases hi : i < n
  · rw [if_pos hi, if_pos hi]
    apply h
    omega
  · rw [if_neg hi, if_neg hi]

/-- A range in which a part was changed. -/
theorem Frame.window_splice {m m' : Mem size} {a off len n : Nat} (h : Frame m m' (a + off) n) (hin : off + n ≤ len)
    (ha : a + len ≤ size) :
    window m'.bytes a len = LibElf.splice (window m.bytes a len) off (window m'.bytes (a + off) n) := by
  have hlen : (window m'.bytes (a + off) n).length = n := length_window (by rw [m'.length_eq]; omega)
  have hl : (window m.bytes a len).length = len := length_window (by rw [m.length_eq]; exact ha)
  apply List.ext_getElem?
  intro i
  rw [getElem?_splice (by rw [hlen, hl]; exact hin), hlen]
  simp only [getElem?_window]
  by_cases hlo : i < off
  · rw [if_pos hlo, h _ (.inl (by omega))]
  · by_cases hhi : i < off + n
    · rw [if_neg hlo, if_pos hhi, if_pos (by omega), if_pos (by omega)]
      congr 1
      omega
    · rw [if_neg hlo, if_neg hhi, h _ (.inr (by omega))]

end Mem

end LibElf
