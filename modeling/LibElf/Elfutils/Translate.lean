import LibElf.Elfutils.Convert

/-!
# What the conversion functions compute

The value of a conversion as a function of the source bytes, and that the loops compute it: into a
separate range, in place, and to some extent into a range that overlaps the source.

1. `swapFields`, the bytes of a list of fields with the numbers swapped; `swapFields_swapFields`.
2. `cvtFields_exact`, and from it `cvtRecords_exact`, `cvtFundamental_exact` and `cvtWords_exact`.
3. `gnuhashFields` and `cvtGnuhash_exact`, `swapHead` and `cvtChdr_exact`.
-/

namespace LibElf.Elfutils

open Outcome Mem
open Toolchain (ElfClass Basic)

/-! ## Swapping fields -/

/-- The fields of `bs` with the numbers swapped. -/
def swapFields : List Field → List UInt8 → List UInt8
  | [], _ => []
  | f :: fs, bs => swapField f (bs.take f.width) ++ swapFields fs (bs.drop f.width)

@[simp] theorem length_swapField (f : Field) (bs : List UInt8) : (swapField f bs).length = bs.length := by
  unfold swapField
  split <;> simp

@[simp] theorem swapField_swapField (f : Field) (bs : List UInt8) : swapField f (swapField f bs) = bs := by
  unfold swapField
  split <;> simp

attribute [simp] packedSize_nil packedSize_cons packedSize_append

@[simp] theorem packedSize_replicate (count : Nat) (f : Field) :
    packedSize (List.replicate count f) = count * f.width := by
  simp [packedSize]

theorem length_swapFields (fs : List Field) : ∀ {bs : List UInt8}, packedSize fs ≤ bs.length →
    (swapFields fs bs).length = packedSize fs := by
  induction fs with
  | nil => intro bs _; rfl
  | cons f fs ih =>
    intro bs h
    rw [packedSize_cons] at h
    rw [swapFields, List.length_append, length_swapField, List.length_take,
      ih (by rw [List.length_drop]; omega), packedSize_cons]
    omega

theorem swapFields_append (fs gs : List Field) : ∀ bs : List UInt8,
    swapFields (fs ++ gs) bs = swapFields fs bs ++ swapFields gs (bs.drop (packedSize fs)) := by
  induction fs with
  | nil => intro bs; rfl
  | cons f fs ih =>
    intro bs
    rw [List.cons_append, swapFields, ih, swapFields, List.append_assoc, List.drop_drop, packedSize_cons]

/-- Swapping twice gives the bytes back. -/
theorem swapFields_swapFields (fs : List Field) : ∀ {bs : List UInt8}, bs.length = packedSize fs →
    swapFields fs (swapFields fs bs) = bs := by
  induction fs with
  | nil =>
    intro bs h
    exact (List.length_eq_zero_iff.mp h).symm
  | cons f fs ih =>
    intro bs h
    rw [packedSize_cons] at h
    have hlen : (swapField f (bs.take f.width)).length = f.width := by
      rw [length_swapField, List.length_take]
      omega
    rw [swapFields, swapFields, List.take_left' hlen, List.drop_left' hlen, swapField_swapField,
      ih (by rw [List.length_drop]; omega), List.take_append_drop]

/-- Bytes after the fields do not matter. -/
theorem swapFields_take (fs : List Field) : ∀ (bs : List UInt8) {k : Nat}, packedSize fs ≤ k →
    swapFields fs (bs.take k) = swapFields fs bs := by
  induction fs with
  | nil => intro bs k _; rfl
  | cons f fs ih =>
    intro bs k h
    rw [packedSize_cons] at h
    rw [swapFields, swapFields, List.take_take, Nat.min_eq_left (by omega), List.drop_take, ih _ (by omega)]

/-! ## The loops -/

section Loops

variable {n : Nat}

/-- The ranges are apart, or the destination starts no later than the source. -/
def Behind (d s len : Nat) : Prop := Separate d len s len ∨ d ≤ s

theorem Behind.mono {d s a b : Nat} (h : Behind d s (a + b)) : Behind (d + a) (s + a) b := by
  rcases h with (h | h) | h
  · exact .inl (.inl (by omega))
  · exact .inl (.inr (by omega))
  · exact .inr (by omega)

theorem Behind.head {d s a b : Nat} (h : Behind d s (a + b)) : Behind d s a := by
  rcases h with (h | h) | h
  · exact .inl (.inl (by omega))
  · exact .inl (.inr (by omega))
  · exact .inr h

/-- What is read later is not where something was written. -/
theorem Behind.rest {d s a b : Nat} (h : Behind d s (a + b)) (hb : 0 < b) :
    s + a + b ≤ d ∨ d + a ≤ s + a := by
  rcases h with (h | h) | h
  · exact .inr (by omega)
  · exact .inl (by omega)
  · exact .inr (by omega)

theorem Behind.window_eq {m m' : Mem n} {d s a b : Nat} (h : Behind d s (a + b)) (hf : Frame m m' d a) :
    window m'.bytes (s + a) b = window m.bytes (s + a) b := by
  rcases Nat.eq_zero_or_pos b with rfl | hb
  · rw [window_zero, window_zero]
  · exact hf.window_eq (by rcases h.rest hb with h | h <;> omega)

theorem cvtFields_append (fs gs : List Field) : ∀ (d s : Nat) (m : Mem n),
    cvtFields (fs ++ gs) d s m = (cvtFields fs d s m).bind fun _ m =>
      cvtFields gs (d + packedSize fs) (s + packedSize fs) m := by
  induction fs with
  | nil => intro d s m; rfl
  | cons f fs ih =>
    intro d s m
    rw [List.cons_append, cvtFields, cvtFields]
    cases m.read s f.width with
    | err e t => rfl
    | stop t => rfl
    | ok bs m =>
      simp only [bind_ok]
      cases m.write d (swapField f bs) with
      | err e t => rfl
      | stop t => rfl
      | ok u m => simp only [bind_ok, ih, packedSize_cons, Nat.add_assoc]

theorem cvtRecords_eq (fs : List Field) (count : Nat) : ∀ (d s : Nat) (m : Mem n),
    cvtRecords fs count d s m = cvtFields (List.replicate count fs).flatten d s m := by
  induction count with
  | zero => intro d s m; rfl
  | succ count ih =>
    intro d s m
    rw [cvtRecords, List.replicate_succ, List.flatten_cons, cvtFields_append]
    simp only [ih]

/-- The loop over fields leaves the swapped fields, when no field is read after it was written to. -/
theorem cvtFields_exact (fs : List Field) : ∀ {d s : Nat} {m : Mem n}, Behind d s (packedSize fs) →
    s + packedSize fs ≤ n → d + packedSize fs ≤ n →
    ∃ m', cvtFields fs d s m = .ok () m' ∧ Frame m m' d (packedSize fs) ∧
      window m'.bytes d (packedSize fs) = swapFields fs (window m.bytes s (packedSize fs)) := by
  induction fs with
  | nil =>
    intro d s m _ _ _
    exact ⟨m, rfl, Frame.refl _ _ _, by rw [packedSize_nil, window_zero]; rfl⟩
  | cons f fs ih =>
    intro d s m hsafe hs hd
    rw [packedSize_cons] at *
    have hlen : (swapField f (window m.bytes s f.width)).length = f.width := by
      rw [length_swapField, length_window (by rw [m.length_eq]; omega)]
    have hin : d + (swapField f (window m.bytes s f.width)).length ≤ n := by
      rw [hlen]
      omega
    have hfirst := frame_splice m hin
    rw [hlen] at hfirst
    have hself := window_splice m hin
    rw [hlen] at hself
    obtain ⟨m', hm', hframe, hwin⟩ := ih (m := m.splice d _ hin) hsafe.mono (by omega) (by omega)
    refine ⟨m', ?_, ?_, ?_⟩
    · rw [cvtFields, read_of_le m (by omega), bind_ok, write_of_le m hin, bind_ok]
      exact hm'
    · exact (hfirst.mono (Nat.le_refl d) (by omega)).trans (hframe.mono (by omega) (by omega))
    · have hhead : window m'.bytes d f.width = swapField f (window m.bytes s f.width) := by
        rw [hframe.window_eq (.inl (Nat.le_refl _))]
        exact hself
      have htake : (window m.bytes s (f.width + packedSize fs)).take f.width = window m.bytes s f.width := by
        rw [window, window, List.take_take, Nat.min_eq_left (Nat.le_add_right _ _)]
      have hdrop : (window m.bytes s (f.width + packedSize fs)).drop f.width =
          window m.bytes (s + f.width) (packedSize fs) := by
        rw [window, window, List.drop_take, List.drop_drop, Nat.add_sub_cancel_left]
      rw [swapFields, htake, hdrop, ← window_append_window, hhead, hwin, hsafe.window_eq hfirst]

theorem packedSize_flatten_replicate (count : Nat) (fs : List Field) :
    packedSize (List.replicate count fs).flatten = count * packedSize fs := by
  induction count with
  | zero => simp
  | succ count ih =>
    rw [List.replicate_succ, List.flatten_cons, packedSize_append, ih, Nat.succ_mul]
    omega

def tableFields (fs : List Field) (count : Nat) : List Field := (List.replicate count fs).flatten

theorem packedSize_tableFields (fs : List Field) (count : Nat) :
    packedSize (tableFields fs count) = count * packedSize fs := packedSize_flatten_replicate count fs

theorem cvtRecords_exact (fs : List Field) (count : Nat) {d s : Nat} {m : Mem n}
    (hsafe : Behind d s (count * packedSize fs)) (hs : s + count * packedSize fs ≤ n)
    (hd : d + count * packedSize fs ≤ n) :
    ∃ m', cvtRecords fs count d s m = .ok () m' ∧ Frame m m' d (count * packedSize fs) ∧
      window m'.bytes d (count * packedSize fs) =
        swapFields (tableFields fs count) (window m.bytes s (count * packedSize fs)) := by
  rw [← packedSize_tableFields] at *
  rw [cvtRecords_eq]
  exact cvtFields_exact _ hsafe hs hd

/-! ## Numbers -/

/-- A number of `w + 1` bytes. -/
def number (w : Nat) : Field := ⟨w + 1, true, Nat.succ_pos w⟩

theorem swapFields_numbers (w count : Nat) : ∀ bs : List UInt8,
    swapFields (List.replicate count (number w)) bs = (records List.reverse (w + 1) count bs).flatten := by
  induction count with
  | zero => intro bs; rfl
  | succ count ih =>
    intro bs
    rw [List.replicate_succ, swapFields, ih, records, List.flatten_cons]
    rfl

/-- Numbers are translated whatever the two ranges are. -/
theorem cvtFundamental_exact (w count : Nat) {d s : Nat} {m : Mem n} (hs : s + count * (w + 1) ≤ n)
    (hd : d + count * (w + 1) ≤ n) :
    ∃ m', cvtFundamental (w + 1) d s (count * (w + 1)) m = .ok () m' ∧ Frame m m' d (count * (w + 1)) ∧
      window m'.bytes d (count * (w + 1)) =
        swapFields (List.replicate count (number w)) (window m.bytes s (count * (w + 1))) := by
  have hrev : ∀ r : List UInt8, r.length = w + 1 → r.reverse.length = w + 1 := fun r h => by
    rw [List.length_reverse, h]
  have hcount : count * (w + 1) / (w + 1) = count := Nat.mul_div_cancel _ (Nat.succ_pos w)
  rw [swapFields_numbers, cvtFundamental, hcount]
  by_cases h : d < s
  · rw [if_pos h]
    exact forward_exact hrev count d s m (.inr ⟨Nat.le_of_lt h, Nat.le_refl _⟩) hs hd
  · rw [if_neg h, Nat.add_sub_cancel, Nat.add_sub_cancel]
    exact backward_exact hrev count m (.inr ⟨Nat.le_of_not_lt h, Nat.le_refl _⟩) hs hd

/-! ## GNU hash tables -/

/-- A member of a list of fields, after the swap. -/
theorem window_swapFields (fs : List Field) (f : Field) (gs : List Field) {bs : List UInt8}
    (h : packedSize (fs ++ f :: gs) ≤ bs.length) :
    window (swapFields (fs ++ f :: gs) bs) (packedSize fs) f.width =
      swapField f (window bs (packedSize fs) f.width) := by
  rw [packedSize_append, packedSize_cons] at h
  have hlen : (swapFields fs bs).length = packedSize fs := length_swapFields fs (by omega)
  have hmid : (swapField f ((bs.drop (packedSize fs)).take f.width)).length = f.width := by
    rw [length_swapField, List.length_take, List.length_drop]
    omega
  rw [swapFields_append, swapFields, window, List.drop_left' hlen, List.take_left' hmid]
  rfl

theorem ofBytes_swapField {f : Field} (hf : f.numeric = true) (host : ByteOrder) (bs : List UInt8) :
    ofBytes host (swapField f bs) = ofBytes host.flip bs := by
  rw [swapField, if_pos hf, ofBytes_reverse]

theorem readWord_of_le (host : ByteOrder) {m : Mem n} {off : Nat} (h : off + 4 ≤ n) :
    readWord host off m = .ok (ofBytes host (window m.bytes off 4)) m := by
  rw [readWord, read_of_le m h]
  rfl

/-- The loop over words stops where the bytes do. -/
theorem cvtWords_eq (w count : Nat) : ∀ (d s len : Nat) (m : Mem n),
    cvtWords (w + 1) count d s len m =
      (cvtFields (List.replicate (min count (len / (w + 1))) (number w)) d s m).bind fun _ m =>
        .ok (decide (len / (w + 1) < count), len - min count (len / (w + 1)) * (w + 1)) m := by
  induction count with
  | zero =>
    intro d s len m
    simp [cvtWords, cvtFields]
  | succ count ih =>
    intro d s len m
    rw [cvtWords]
    by_cases hlen : len < w + 1
    · rw [if_pos hlen, Nat.div_eq_of_lt hlen]
      simp [cvtFields]
    · have hdiv : len / (w + 1) = (len - (w + 1)) / (w + 1) + 1 := by
        rw [Nat.div_eq_sub_div (Nat.succ_pos w) (Nat.le_of_not_lt hlen)]
      have hmin : min (count + 1) (len / (w + 1)) = min count ((len - (w + 1)) / (w + 1)) + 1 := by
        rw [hdiv, Nat.add_min_add_right]
      rw [if_neg hlen, hmin, List.replicate_succ, cvtFields]
      show (m.read s (w + 1)).bind _ = ((m.read s (w + 1)).bind _).bind _
      cases m.read s (w + 1) with
      | err e t => rfl
      | stop t => rfl
      | ok bs m =>
        simp only [bind_ok]
        show (m.write d bs.reverse).bind _ = ((m.write d bs.reverse).bind _).bind _
        cases m.write d bs.reverse with
        | err e t => rfl
        | stop t => rfl
        | ok u m =>
          simp only [bind_ok, ih]
          show (cvtFields _ (d + (w + 1)) (s + (w + 1)) m).bind _ =
            (cvtFields _ (d + (w + 1)) (s + (w + 1)) m).bind _
          congr 1
          funext u m
          rw [hdiv]
          have hsub : len - (w + 1) - min count ((len - (w + 1)) / (w + 1)) * (w + 1) =
              len - (min count ((len - (w + 1)) / (w + 1)) + 1) * (w + 1) := by
            rw [Nat.sub_sub, Nat.succ_mul, Nat.add_comm (w + 1)]
          rw [hsub]
          simp

/-- The words of a table of `len` bytes with `bw` words in its bit mask, as far as there are any. -/
def gnuhashFields (bw len : Nat) : List Field :=
  List.replicate (min 4 (len / 4)) (number 3) ++
    if len / 4 < 4 then []
    else List.replicate (min bw ((len - 16) / 8)) (number 7) ++
      if (len - 16) / 8 < bw then [] else List.replicate ((len - 16 - bw * 8) / 4) (number 3)

/-- The byte order that the number of words of the bit mask is read in. -/
def gnuhashOrder (host : ByteOrder) (encode inPlace : Bool) : ByteOrder :=
  if encode = true ∧ inPlace = false then host else host.flip

/-- The number of words in the bit mask, in a given byte order. -/
def bitmaskWords (o : ByteOrder) (bs : List UInt8) : Nat := ofBytes o (window bs 8 4)

/-- The conversion of a table is one loop over its words, with their number found on the way. -/
theorem cvtGnuhash_eq {host : ByteOrder} {encode inPlace : Bool} {d s len : Nat} {m : Mem n}
    (hsafe : Behind d s len) (hs : s + len ≤ n) (hd : d + len ≤ n)
    (hplace : len < 16 ∨ inPlace = true ∧ d = s ∨
      inPlace = false ∧ (encode = true → Separate d len s len ∨ d + 8 ≤ s)) :
    cvtGnuhash host encode d s len m =
      cvtFields (gnuhashFields (bitmaskWords (gnuhashOrder host encode inPlace) (window m.bytes s len)) len)
        d s m := by
  rw [cvtGnuhash, gnuhashFields, cvtFields_append, cvtWords_eq 3]
  by_cases hshort : len / 4 < 4
  · rw [if_pos hshort, decide_eq_true hshort]
    cases cvtFields (List.replicate (min 4 (len / 4)) (number 3)) d s m with
    | err e t => rfl
    | stop t => rfl
    | ok u m => rfl
  · rw [if_neg hshort, decide_eq_false hshort, show min 4 (len / 4) = 4 by omega]
    have hsize : packedSize (List.replicate 4 (number 3)) = 16 := rfl
    have hsafe16 : Behind d s (16 + (len - 16)) := by rwa [show 16 + (len - 16) = len by omega]
    obtain ⟨m₁, hm₁, hframe, hwin⟩ :=
      cvtFields_exact (List.replicate 4 (number 3)) (d := d) (s := s) (m := m) (by rw [hsize]; exact hsafe16.head)
        (by rw [hsize]; omega) (by rw [hsize]; omega)
    rw [hsize] at hframe hwin
    rw [hm₁]
    simp only [bind_ok]
    -- what the destination holds is the third word swapped
    have hdest : window m₁.bytes (d + 8) 4 = (window m.bytes (s + 8) 4).reverse := by
      have h := @window_swapFields [number 3, number 3] (number 3) [number 3] (window m.bytes s 16)
        (by rw [length_window (by rw [m.length_eq]; omega)]; decide)
      rw [show ([number 3, number 3] ++ number 3 :: [number 3] : List Field) = List.replicate 4 (number 3) from rfl,
        ← hwin, window_window (by decide), window_window (by decide)] at h
      exact h
    have hsrc : Separate d len s len ∨ d + 8 ≤ s → window m₁.bytes (s + 8) 4 = window m.bytes (s + 8) 4 := by
      intro h
      refine hframe.window_eq ?_
      rcases h with (h | h) | h
      · exact .inr (by omega)
      · exact .inl (by omega)
      · exact .inr (by omega)
    have hread : readWord host ((if encode = true then s else d) + 8) m₁ =
        .ok (bitmaskWords (gnuhashOrder host encode inPlace) (window m.bytes s len)) m₁ := by
      have hwords : bitmaskWords (gnuhashOrder host encode inPlace) (window m.bytes s len) =
          ofBytes (gnuhashOrder host encode inPlace) (window m.bytes (s + 8) 4) := by
        rw [bitmaskWords, window_window (by omega)]
      rw [readWord_of_le host (by split <;> omega), hwords]
      congr 1
      rcases hplace with hlen | ⟨rfl, rfl⟩ | ⟨rfl, hplace⟩
      · omega
      · rw [show (if encode = true then d else d) = d by split <;> rfl, hdest, ofBytes_reverse, gnuhashOrder,
          if_neg (by simp)]
      · cases encode with
        | false => rw [if_neg (by decide), hdest, ofBytes_reverse, gnuhashOrder, if_neg (by decide)]
        | true => rw [if_pos rfl, hsrc (hplace rfl), gnuhashOrder, if_pos ⟨rfl, rfl⟩]
    rw [hread]
    simp only [bind_ok, hsize]
    generalize bitmaskWords (gnuhashOrder host encode inPlace) (window m.bytes s len) = bw
    rw [show len - 4 * (3 + 1) = len - 16 by omega, cvtWords_eq 7, cvtFields_append]
    cases cvtFields (List.replicate (min bw ((len - 16) / 8)) (number 7)) (d + 16) (s + 16) m₁ with
    | err e t => rfl
    | stop t => rfl
    | ok u m₂ =>
      simp only [bind_ok]
      by_cases hearly : (len - 16) / (7 + 1) < bw
      · rw [if_pos hearly, decide_eq_true hearly]
        rfl
      · have hmin : min bw ((len - 16) / 8) = bw := by omega
        rw [if_neg hearly, decide_eq_false hearly, hmin, cvtWords_eq 3, Nat.min_self]
        simp only [packedSize_replicate, Bool.false_eq_true, if_false]
        show ((cvtFields _ (d + 16 + 8 * bw) (s + 16 + 8 * bw) m₂).bind _).bind _ =
          cvtFields _ (d + 16 + bw * 8) (s + 16 + bw * 8) m₂
        rw [Nat.mul_comm 8 bw]
        cases cvtFields (List.replicate ((len - 16 - bw * 8) / 4) (number 3)) (d + 16 + bw * 8)
          (s + 16 + bw * 8) m₂ with
        | err e t => rfl
        | stop t => rfl
        | ok u m => rfl

/-! ## Compressed sections -/

/-- `memmove` copies whatever the ranges are. -/
theorem memmove_exact {d s len : Nat} {m : Mem n} (hs : s + len ≤ n) (hd : d + len ≤ n) :
    ∃ m', memmove d s len m = .ok () m' ∧ Frame m m' d len ∧
      window m'.bytes d len = window m.bytes s len := by
  have hlen : (window m.bytes s len).length = len := length_window (by rw [m.length_eq]; exact hs)
  have hin : d + (window m.bytes s len).length ≤ n := by rw [hlen]; exact hd
  have hframe := frame_splice m hin
  have hself := window_splice m hin
  rw [hlen] at hframe hself
  refine ⟨m.splice d _ hin, ?_, hframe, hself⟩
  rw [memmove, read_of_le m hs, bind_ok, write_of_le m hin]

/-- `memcpy` copies where the ranges are apart. -/
theorem memcpy_exact {d s len : Nat} {m : Mem n} (hsep : Separate d len s len) (hs : s + len ≤ n)
    (hd : d + len ≤ n) :
    ∃ m', memcpy d s len m = .ok () m' ∧ Frame m m' d len ∧
      window m'.bytes d len = window m.bytes s len := by
  rw [memcpy, if_neg (by rcases hsep with h | h <;> omega)]
  exact memmove_exact hs hd

/-- The fields at the start swapped, and the rest as it is. -/
def swapHead (fs : List Field) (bs : List UInt8) : List UInt8 :=
  swapFields fs bs ++ bs.drop (packedSize fs)

/-- A compressed section has a header when it is long enough for one. -/
def chdrValue (ec : ElfClass) (bs : List UInt8) : List UInt8 :=
  if packedSize (chdrFields ec) ≤ bs.length then swapHead (chdrFields ec) bs else bs

/-- Where the header survives the copy, the section is copied with its header swapped. -/
theorem cvtChdr_exact (ec : ElfClass) {d s len : Nat} {m : Mem n} (hs : s + len ≤ n) (hd : d + len ≤ n)
    (hplace : d = s ∨ Separate d len s len ∨ s + packedSize (chdrFields ec) ≤ d ∨
      len < packedSize (chdrFields ec)) :
    ∃ m', cvtChdr ec d s len m = .ok () m' ∧ Frame m m' d len ∧
      window m'.bytes d len = chdrValue ec (window m.bytes s len) := by
  have hlen : (window m.bytes s len).length = len := length_window (by rw [m.length_eq]; exact hs)
  generalize hfs : chdrFields ec = fs at hplace
  rw [cvtChdr, chdrValue, hlen, hfs]
  by_cases hzero : len = 0
  · subst hzero
    refine ⟨m, if_pos rfl, Frame.refl _ _ _, ?_⟩
    rw [window_zero, window_zero, if_neg (by rw [← hfs]; cases ec <;> decide)]
  · rw [if_neg hzero]
    obtain ⟨m₁, hm₁, hframe₁, hwin₁⟩ : ∃ m₁, (if d ≠ s then memmove d s len m else .ok () m) = .ok () m₁ ∧
        Frame m m₁ d len ∧ window m₁.bytes d len = window m.bytes s len := by
      by_cases hds : d = s
      · subst hds
        exact ⟨m, if_neg (by simp), Frame.refl _ _ _, rfl⟩
      · rw [if_pos hds]
        exact memmove_exact hs hd
    rw [hm₁, bind_ok]
    by_cases hshort : packedSize fs ≤ len
    · rw [if_pos hshort, if_pos hshort]
      -- the header is still there after the copy
      have hsrc : window m₁.bytes s (packedSize fs) = window m.bytes s (packedSize fs) := by
        rcases hplace with rfl | (h | h) | h | h
        · have := congrArg (window · 0 (packedSize fs)) hwin₁
          rwa [window_window (by omega), window_window (by omega), Nat.add_zero] at this
        · exact hframe₁.window_eq (.inr (by omega))
        · exact hframe₁.window_eq (.inl (by omega))
        · exact hframe₁.window_eq (.inl (by omega))
        · omega
      have hbehind : Behind d s (packedSize fs) := by
        rcases hplace with rfl | (h | h) | h | h
        · exact .inr (Nat.le_refl _)
        · exact .inl (.inl (by omega))
        · exact .inl (.inr (by omega))
        · exact .inl (.inr h)
        · omega
      obtain ⟨m₂, hm₂, hframe₂, hwin₂⟩ := cvtFields_exact fs (m := m₁) hbehind (by omega) (by omega)
      refine ⟨m₂, hm₂, hframe₁.trans (hframe₂.mono (Nat.le_refl d) (by omega)), ?_⟩
      have hrest : window m₂.bytes (d + packedSize fs) (len - packedSize fs) =
          (window m.bytes s len).drop (packedSize fs) := by
        rw [hframe₂.window_eq (.inr (Nat.le_refl _)), ← hwin₁, window, window, List.drop_take, List.drop_drop]
      have hhead : window m.bytes s (packedSize fs) = (window m.bytes s len).take (packedSize fs) := by
        rw [window, window, List.take_take, Nat.min_eq_left hshort]
      have hsplit : window m₂.bytes d len =
          window m₂.bytes d (packedSize fs) ++ window m₂.bytes (d + packedSize fs) (len - packedSize fs) := by
        rw [window_append_window]
        congr 1
        omega
      rw [hsplit, hwin₂, hrest, hsrc, hhead, swapFields_take fs _ (Nat.le_refl _)]
      rfl
    · rw [if_neg hshort, if_neg hshort]
      exact ⟨m₁, rfl, hframe₁, hwin₁⟩

end Loops

end LibElf.Elfutils
