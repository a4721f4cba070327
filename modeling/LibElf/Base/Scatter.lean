import LibElf.Base.Footprint
import LibElf.Base.InPlace

/-!
# Records scattered over a byte string

A pass over records that are linked by offsets reads each one where it is in the source and writes its
translation to the same offset of the destination. The bytes between the records are not touched.

1. `Slot`, where a record is and its members, and `Slot.Apart`. `Slot.parts`, the members, and `Agree`.
2. `pasted f src dst ps`: `dst` with the records `ps` of the source translated one after the other, where some may
   overlap.
3. `Scattered f off src dst dst' ps`: the destination `dst'` is `dst` with the records `ps` of the source
   translated, at `off`. The rules `scattered_splice` and `Scattered.append`.
-/

namespace LibElf

open Mem

abbrev Slot := Nat × List Field

def Slot.size (p : Slot) : Nat := packedSize p.2

def Slot.bytes (p : Slot) (bs : List UInt8) : List UInt8 := window bs p.1 p.size

/-- The two records have no bytes in common. -/
def Slot.Apart (p q : Slot) : Prop := Separate p.1 p.size q.1 q.size

instance : DecidableRel Slot.Apart := fun p q => inferInstanceAs (Decidable (Separate p.1 p.size q.1 q.size))

theorem Slot.Apart.symm {p q : Slot} (h : p.Apart q) : q.Apart p := Or.symm h

/-! ## Members -/

/-- The members of a record that starts at `off`, each as a record of its own. -/
def partsFrom : Nat → List Field → List Slot
  | _, [] => []
  | off, f :: fs => (off, [f]) :: partsFrom (off + f.width) fs

def Slot.parts (p : Slot) : List Slot := partsFrom p.1 p.2

/-- Any two members of the records are the same bytes or have none in common. -/
def Agree (p q : Slot) : Prop := ∀ a ∈ p.parts, ∀ b ∈ q.parts, a = b ∨ Slot.Apart a b

instance (p q : Slot) : Decidable (Agree p q) := by
  unfold Agree
  infer_instance

@[simp] theorem size_part (off : Nat) (f : Field) : Slot.size (off, [f]) = f.width := Nat.add_zero _

theorem mem_partsFrom {q : Slot} {fs : List Field} : ∀ {off : Nat}, q ∈ partsFrom off fs →
    ∃ pre f post, fs = pre ++ f :: post ∧ q = (off + packedSize pre, [f]) := by
  induction fs with
  | nil => intro off h; cases h
  | cons f fs ih =>
    intro off h
    rcases List.mem_cons.mp h with rfl | h
    · exact ⟨[], f, fs, rfl, rfl⟩
    · obtain ⟨pre, g, post, rfl, rfl⟩ := ih h
      exact ⟨f :: pre, g, post, rfl, by rw [packedSize_cons, Nat.add_assoc]⟩

theorem part_mem (pre : List Field) (f : Field) (post : List Field) : ∀ off : Nat,
    (off + packedSize pre, [f]) ∈ partsFrom off (pre ++ f :: post) := by
  induction pre with
  | nil => exact fun off => List.mem_cons_self
  | cons g pre ih =>
    intro off
    rw [packedSize_cons, ← Nat.add_assoc]
    exact List.mem_cons_of_mem _ (ih _)

theorem part_bounds {p q : Slot} (h : q ∈ p.parts) : p.1 ≤ q.1 ∧ q.1 + q.size ≤ p.1 + p.size := by
  obtain ⟨off, fs⟩ := p
  obtain ⟨pre, f, post, hfs, rfl⟩ := mem_partsFrom h
  have hsize : Slot.size (off, fs) = packedSize pre + (f.width + packedSize post) := by
    rw [Slot.size, show fs = _ from hfs, packedSize_append, packedSize_cons]
  rw [hsize, size_part]
  omega

/-- Every byte of a record is in a member. -/
theorem exists_part (fs : List Field) : ∀ {off i : Nat}, off ≤ i → i < off + packedSize fs →
    ∃ q ∈ partsFrom off fs, q.1 ≤ i ∧ i < q.1 + q.size := by
  induction fs with
  | nil => intro off i hlo hhi; rw [packedSize_nil] at hhi; omega
  | cons f fs ih =>
    intro off i hlo hhi
    rw [packedSize_cons] at hhi
    by_cases hfirst : i < off + f.width
    · exact ⟨(off, [f]), List.mem_cons_self, hlo, by rw [size_part]; exact hfirst⟩
    · obtain ⟨q, hq, hin⟩ := @ih (off + f.width) i (by omega) (by omega)
      exact ⟨q, List.mem_cons_of_mem _ hq, hin⟩

theorem Agree.self (p : Slot) : Agree p p := by
  obtain ⟨off, fs⟩ := p
  show ∀ a ∈ partsFrom off fs, ∀ b ∈ partsFrom off fs, a = b ∨ Slot.Apart a b
  induction fs generalizing off with
  | nil => intro a ha; cases ha
  | cons f fs ih =>
    have hrest : ∀ b ∈ partsFrom (off + f.width) fs, Slot.Apart (off, [f]) b := by
      intro b hb
      have hlo := (@part_bounds (off + f.width, fs) b hb).1
      exact .inl (by rw [size_part]; exact hlo)
    intro a ha b hb
    rcases List.mem_cons.mp ha with rfl | ha <;> rcases List.mem_cons.mp hb with rfl | hb
    · exact .inl rfl
    · exact .inr (hrest b hb)
    · exact .inr (hrest a ha).symm
    · exact ih _ a ha b hb

theorem Slot.Apart.agree {p q : Slot} (h : Slot.Apart p q) : Agree p q := by
  intro a ha b hb
  have hp := part_bounds ha
  have hq := part_bounds hb
  exact .inr (by rcases h with h | h <;> [left; right] <;> omega)

theorem Agree.symm {p q : Slot} (h : Agree p q) : Agree q p := by
  intro a ha b hb
  rcases h b hb a ha with h | h
  · exact .inl h.symm
  · exact .inr h.symm

theorem agree_of_pairwise {ps : List Slot} (h : ps.Pairwise Slot.Apart) : ∀ p ∈ ps, ∀ q ∈ ps, Agree p q :=
  fun _ hp _ hq => List.Pairwise.forall_of_forall_of_flip (fun p _ => Agree.self p) (h.imp Slot.Apart.agree)
    (h.imp fun h => h.agree.symm) hp hq

/-! ## Records pasted into a copy -/

/-- A translation of records that keeps their size. -/
def KeepsSize (f : List Field → List UInt8 → List UInt8) : Prop :=
  ∀ fs bs, bs.length = packedSize fs → (f fs bs).length = packedSize fs

section Pasting

variable (f : List Field → List UInt8 → List UInt8) (src dst : List UInt8)

/-- A record of the source translated into `dst`. -/
def pasteOne (p : Slot) : List UInt8 := splice dst p.1 (f p.2 (window src p.1 p.size))

/-- Records of the source translated into `dst`, one after the other. -/
def pasted (ps : List Slot) : List UInt8 := ps.foldl (pasteOne f src) dst

end Pasting

section Pasted

variable {f : List Field → List UInt8 → List UInt8} (hf : KeepsSize f) {src dst : List UInt8} {p q : Slot}

include hf

theorem length_record (h : p.1 + p.size ≤ src.length) : (f p.2 (window src p.1 p.size)).length = p.size :=
  hf _ _ (length_window h)

theorem length_pasteOne (hsrc : p.1 + p.size ≤ src.length) (hdst : dst.length = src.length) :
    (pasteOne f src dst p).length = src.length := by
  rw [pasteOne, length_splice (by rw [length_record hf hsrc, hdst]; exact hsrc), hdst]

theorem window_pasteOne_self (hsrc : p.1 + p.size ≤ src.length) (hdst : dst.length = src.length) :
    window (pasteOne f src dst p) p.1 p.size = f p.2 (window src p.1 p.size) := by
  have hlen := length_record hf hsrc
  have hself := @window_splice_self dst (f p.2 (window src p.1 p.size)) p.1 (by rw [hlen, hdst]; exact hsrc)
  rwa [hlen] at hself

/-- Bytes outside of the record stay. -/
theorem getElem?_pasteOne (hsrc : p.1 + p.size ≤ src.length) (hdst : dst.length = src.length) {i : Nat}
    (hi : i < p.1 ∨ p.1 + p.size ≤ i) : (pasteOne f src dst p)[i]? = dst[i]? := by
  have hlen := length_record hf hsrc
  rw [pasteOne, getElem?_splice (by rw [hlen, hdst]; exact hsrc), hlen]
  rcases hi with hi | hi
  · rw [if_pos hi]
  · rw [if_neg (by omega), if_neg (by omega)]

theorem length_pasted (ps : List Slot) : ∀ {dst : List UInt8}, dst.length = src.length →
    (∀ p ∈ ps, p.1 + p.size ≤ src.length) → (pasted f src dst ps).length = src.length := by
  induction ps with
  | nil => intro dst hdst _; exact hdst
  | cons p ps ih =>
    intro dst hdst h
    exact ih (length_pasteOne hf (h p List.mem_cons_self) hdst) fun q hq => h q (List.mem_cons_of_mem _ hq)

omit hf in
theorem pasted_append (ps qs : List Slot) : pasted f src dst (ps ++ qs) = pasted f src (pasted f src dst ps) qs :=
  List.foldl_append

/-- Bytes outside of all the records stay. -/
theorem getElem?_pasted_outside (ps : List Slot) : ∀ {dst : List UInt8}, dst.length = src.length →
    (∀ p ∈ ps, p.1 + p.size ≤ src.length) → ∀ {i : Nat}, (∀ p ∈ ps, i < p.1 ∨ p.1 + p.size ≤ i) →
    (pasted f src dst ps)[i]? = dst[i]? := by
  induction ps with
  | nil => intro dst _ _ i _; rfl
  | cons p ps ih =>
    intro dst hdst h i hi
    have hp := h p List.mem_cons_self
    exact (ih (length_pasteOne hf hp hdst) (fun q hq => h q (List.mem_cons_of_mem _ hq))
      fun q hq => hi q (List.mem_cons_of_mem _ hq)).trans (getElem?_pasteOne hf hp hdst (hi p List.mem_cons_self))

theorem window_pasted {ps : List Slot} {off len : Nat} (hdst : dst.length = src.length)
    (h : ∀ p ∈ ps, p.1 + p.size ≤ src.length) (hsep : ∀ p ∈ ps, Separate p.1 p.size off len) :
    window (pasted f src dst ps) off len = window dst off len := by
  apply List.ext_getElem?
  intro i
  rw [getElem?_window, getElem?_window]
  by_cases hi : i < len
  · rw [if_pos hi, if_pos hi]
    exact getElem?_pasted_outside hf ps hdst h fun p hp => by rcases hsep p hp with hs | hs <;> [right; left] <;> omega
  · rw [if_neg hi, if_neg hi]

/-- A byte that is the same in two copies stays the same. -/
theorem getElem?_pasted (ps : List Slot) : ∀ {dst dst' : List UInt8}, dst.length = src.length →
    dst'.length = src.length → (∀ p ∈ ps, p.1 + p.size ≤ src.length) → ∀ {i : Nat}, dst[i]? = dst'[i]? →
    (pasted f src dst ps)[i]? = (pasted f src dst' ps)[i]? := by
  induction ps with
  | nil => intro dst dst' _ _ _ i h; exact h
  | cons p ps ih =>
    intro dst dst' hdst hdst' hps i h
    have hp := hps p List.mem_cons_self
    have hsize := length_record hf hp
    refine ih (length_pasteOne hf hp hdst) (length_pasteOne hf hp hdst')
      (fun q hq => hps q (List.mem_cons_of_mem _ hq)) ?_
    rw [pasteOne, pasteOne, getElem?_splice (by omega), getElem?_splice (by omega), h]

/-- What is pasted into a record does not depend on what was there before. -/
theorem window_pasted_cons {dst' : List UInt8} {ps : List Slot} (hdst : dst.length = src.length)
    (hdst' : dst'.length = src.length) (hps : ∀ q ∈ p :: ps, q.1 + q.size ≤ src.length) :
    window (pasted f src dst (p :: ps)) p.1 p.size = window (pasted f src dst' (p :: ps)) p.1 p.size := by
  have hp := hps p List.mem_cons_self
  have hsize := length_record hf hp
  apply List.ext_getElem?
  intro i
  rw [getElem?_window, getElem?_window]
  by_cases hi : i < p.size
  · rw [if_pos hi, if_pos hi]
    refine getElem?_pasted hf ps (length_pasteOne hf hp hdst) (length_pasteOne hf hp hdst')
      (fun q hq => hps q (List.mem_cons_of_mem _ hq)) ?_
    rw [pasteOne, pasteOne, getElem?_splice (by omega), getElem?_splice (by omega), if_neg (by omega), if_pos (by omega),
      if_neg (by omega), if_pos (by omega)]
  · rw [if_neg hi, if_neg hi]

/-- A record that none of the later ones overlaps. -/
theorem window_pasted_head {ps : List Slot} (hdst : dst.length = src.length)
    (hps : ∀ q ∈ p :: ps, q.1 + q.size ≤ src.length) (hsep : ∀ q ∈ ps, p.Apart q) :
    window (pasted f src dst (p :: ps)) p.1 p.size = f p.2 (window src p.1 p.size) := by
  have hp := hps p List.mem_cons_self
  rw [← window_pasteOne_self hf hp hdst]
  exact window_pasted hf (length_pasteOne hf hp hdst) (fun q hq => hps q (List.mem_cons_of_mem _ hq))
    fun q hq => (hsep q hq).symm

omit hf in
/-- The bytes of a member that is apart from those of a record are outside of it. -/
theorem outside_of_parts (h : ∀ b ∈ p.parts, q.Apart b) {i : Nat} (hlo : q.1 ≤ i) (hhi : i < q.1 + q.size) :
    i < p.1 ∨ p.1 + p.size ≤ i := by
  by_contra hin
  obtain ⟨b, hb, hblo, hbhi⟩ := @exists_part p.2 p.1 i (by omega)
    (by have : p.size = packedSize p.2 := rfl; omega)
  rcases h b hb with h | h <;> omega

/-- A member that is apart from those of the records stays. -/
theorem window_pasted_part {ps : List Slot} (hdst : dst.length = src.length)
    (hps : ∀ p ∈ ps, p.1 + p.size ≤ src.length) (h : ∀ p ∈ ps, ∀ b ∈ p.parts, q.Apart b) :
    window (pasted f src dst ps) q.1 q.size = window dst q.1 q.size := by
  apply List.ext_getElem?
  intro i
  rw [getElem?_window, getElem?_window]
  by_cases hi : i < q.size
  · rw [if_pos hi, if_pos hi]
    exact getElem?_pasted_outside hf ps hdst hps fun p hp => outside_of_parts (h p hp) (by omega) (by omega)
  · rw [if_neg hi, if_neg hi]

end Pasted

/-! ## One pass -/

section Scatter

variable {n : Nat} {f : List Field → List UInt8 → List UInt8} {off : Nat} {src : List UInt8}
  {dst d d' : Mem n} {ps qs : List Slot}

/-- The records of the source, translated, at `off` in the destination; the other bytes are as they
were. -/
structure Scattered (f : List Field → List UInt8 → List UInt8) (off : Nat) (src : List UInt8)
    (dst d : Mem n) (ps : List Slot) : Prop where
  record : ∀ p ∈ ps, window d.bytes (off + p.1) p.size = f p.2 (p.bytes src)
  rest : ∀ i, (∀ p ∈ ps, i < off + p.1 ∨ off + p.1 + p.size ≤ i) → d.bytes[i]? = dst.bytes[i]?

/-- One record is written. -/
theorem scattered_splice {p : Slot} (hlen : (f p.2 (p.bytes src)).length = p.size)
    (hin : off + p.1 + (f p.2 (p.bytes src)).length ≤ n) :
    Scattered f off src dst (dst.splice (off + p.1) (f p.2 (p.bytes src)) hin) [p] := by
  refine ⟨?_, fun i hi => ?_⟩
  · rintro q hq
    obtain rfl := List.mem_singleton.mp hq
    have hself := Mem.window_splice dst hin
    rwa [hlen] at hself
  · have hout := hi p List.mem_cons_self
    rw [← hlen] at hout
    exact frame_splice dst hin i hout

/-- A record that is apart from those written later stays. -/
theorem Scattered.window_apart (h : Scattered f off src d d' qs) {p : Slot} (hp : ∀ q ∈ qs, p.Apart q) :
    window d'.bytes (off + p.1) p.size = window d.bytes (off + p.1) p.size := by
  apply List.ext_getElem?
  intro i
  rw [getElem?_window, getElem?_window]
  split
  · next hi =>
    refine h.rest _ fun q hq => ?_
    rcases hp q hq with hle | hle
    · left
      omega
    · right
      omega
  · rfl

/-- More records are written, apart from the earlier ones. -/
theorem Scattered.append (h : Scattered f off src dst d ps) (h' : Scattered f off src d d' qs)
    (hapart : ∀ p ∈ ps, ∀ q ∈ qs, p.Apart q) : Scattered f off src dst d' (ps ++ qs) := by
  refine ⟨fun p hp => ?_, fun i hi => ?_⟩
  · rcases List.mem_append.mp hp with hp | hp
    · rw [h'.window_apart (hapart p hp)]
      exact h.record p hp
    · exact h'.record p hp
  · rw [h'.rest i fun q hq => hi q (List.mem_append_right _ hq)]
    exact h.rest i fun p hp => hi p (List.mem_append_left _ hp)

end Scatter

end LibElf
