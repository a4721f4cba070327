import LibElf.Elfutils.Translate

/-!
# Notes

A note section is a sequence of notes, each a header and two strings, and the lengths in the header
say where the next one starts. The converter swaps the headers and copies the rest. Into a separate
range it leaves a note that does not fit as it is; in place it has then swapped its header already.

1. `noteSpan`, the length of a note, and `swapNotes`, the section with the headers of all whole notes
   swapped. `cvtNotes_exact`: the converter computes it where no piece is copied within itself.
2. `swapNotesInPlace` and `cvtNotes_inPlace`, what it computes in place, where it always follows the
   lengths of the byte order that the host does not have.
3. `noteSpans`, the lengths of the notes, and `swapNotesInPlace_eq`, when the two are the same.
-/

namespace LibElf.Elfutils

open Outcome Mem

/-! ## Notes as bytes -/

/-- The length of the note at the start of `bs`, when there is a whole one. -/
def noteSpan (o : ByteOrder) (align : Nat) (bs : List UInt8) : Option Nat :=
  let nameEnd := noteAlign align (12 + ofBytes o (window bs 0 4))
  if bs.length < nameEnd ∨ nameEnd < 12 then none
  else
    let noteLen := noteAlign align (nameEnd + ofBytes o (window bs 4 4))
    if bs.length < noteLen ∨ noteLen < 12 then none else some noteLen

def swapNotes (o : ByteOrder) (align : Nat) : Nat → List UInt8 → List UInt8
  | 0, bs => bs
  | fuel + 1, bs =>
    if bs.length < 12 then bs
    else
      match noteSpan o align bs with
      | none => bs
      | some k => swapHead nhdrFields (bs.take k) ++ swapNotes o align fuel (bs.drop k)

/-- The section with the headers of all whole notes, and that of a note which does not fit, swapped. -/
def swapNotesInPlace (o : ByteOrder) (align : Nat) : Nat → List UInt8 → List UInt8
  | 0, bs => bs
  | fuel + 1, bs =>
    if bs.length < 12 then bs
    else
      match noteSpan o align bs with
      | none => swapHead nhdrFields bs
      | some k => swapHead nhdrFields (bs.take k) ++ swapNotesInPlace o align fuel (bs.drop k)

theorem packedSize_nhdr : packedSize nhdrFields = 12 := rfl

/-- A whole note has a header and fits. -/
theorem noteSpan_bounds {o : ByteOrder} {align k : Nat} {bs : List UInt8} (h : noteSpan o align bs = some k) :
    12 ≤ k ∧ k ≤ bs.length := by
  unfold noteSpan at h
  extract_lets nameEnd at h
  split at h
  · cases h
  · split at h
    · cases h
    · next hfit =>
      obtain rfl := Option.some.inj h
      omega

/-- The lengths of the whole notes. -/
def noteSpans (o : ByteOrder) (align : Nat) : Nat → List UInt8 → List Nat
  | 0, _ => []
  | fuel + 1, bs =>
    if bs.length < 12 then []
    else
      match noteSpan o align bs with
      | none => []
      | some k => k :: noteSpans o align fuel (bs.drop k)

/-- The strings of the notes, and what is left after the notes, are no longer than `gap`. -/
def Clear (gap : Nat) (ks : List Nat) (len : Nat) : Prop := (∀ k ∈ ks, k - 12 ≤ gap) ∧ len - ks.sum ≤ gap

theorem noteSpans_le (o : ByteOrder) (align fuel : Nat) : ∀ {bs : List UInt8},
    ∀ k ∈ noteSpans o align fuel bs, k ≤ bs.length := by
  induction fuel with
  | zero => intro bs k hk; cases hk
  | succ fuel ih =>
    intro bs k hk
    rw [noteSpans] at hk
    split at hk
    · cases hk
    · cases hspan : noteSpan o align bs with
      | none =>
        rw [hspan] at hk
        cases hk
      | some first =>
        rw [hspan] at hk
        rcases List.mem_cons.mp hk with rfl | hk
        · exact (noteSpan_bounds hspan).2
        · have hrest := ih k hk
          rw [List.length_drop] at hrest
          omega

theorem length_swapHead {fs : List Field} {bs : List UInt8} (h : packedSize fs ≤ bs.length) :
    (swapHead fs bs).length = bs.length := by
  rw [swapHead, List.length_append, length_swapFields fs h, List.length_drop]
  omega

/-- A header and the bytes after it. -/
theorem swapHead_nhdr {l : List UInt8} {s k : Nat} (hk : 12 ≤ k) :
    swapHead nhdrFields (window l s k) = swapFields nhdrFields (window l s 12) ++ window l (s + 12) (k - 12) := by
  rw [swapHead, packedSize_nhdr, ← swapFields_take nhdrFields (window l s k) (Nat.le_refl _), packedSize_nhdr]
  congr 1
  · rw [window, window, List.take_take, Nat.min_eq_left hk]
  · rw [window, window, List.drop_take, List.drop_drop]

/-! ## The converter -/

section Converter

variable {n : Nat} {host : ByteOrder} {align : Nat} {encode : Bool}

/-- The two lengths, read after the header was converted. -/
theorem read_nhdr {o : ByteOrder} {d s len : Nat} {m m₁ : Mem n} (hlen : 12 ≤ len) (hs : s + len ≤ n)
    (hd : d + len ≤ n) (hwin : window m₁.bytes d 12 = swapFields nhdrFields (window m.bytes s 12))
    (ho : o = host.flip ∧ (encode = true → d = s) ∨
      o = host ∧ encode = true ∧ window m₁.bytes s 12 = window m.bytes s 12) {off : Nat}
    (hoff : off = 0 ∨ off = 4) :
    readWord host ((if encode = true then s else d) + off) m₁ =
      .ok (ofBytes o (window (window m.bytes s len) off 4)) m₁ := by
  rw [readWord_of_le host (by split <;> omega), window_window (by omega)]
  congr 1
  rcases ho with ⟨rfl, hds⟩ | ⟨rfl, rfl, hsrc⟩
  · have hplace : (if encode = true then s else d) = d := by
      cases encode with
      | false => rfl
      | true => exact (hds rfl).symm
    have hlen' : packedSize nhdrFields ≤ (window m.bytes s 12).length := by
      rw [length_window (by rw [m.length_eq]; omega)]
      decide
    rw [hplace]
    rcases hoff with rfl | rfl
    · have h := window_swapFields [] (number 3) [number 3, number 3] hlen'
      rw [show ([] ++ number 3 :: [number 3, number 3] : List Field) = nhdrFields from rfl, ← hwin,
        window_window (by decide), window_window (by decide)] at h
      have h' : window m₁.bytes (d + 0) 4 = swapField (number 3) (window m.bytes (s + 0) 4) := h
      rw [h', ofBytes_swapField rfl]
    · have h := window_swapFields [number 3] (number 3) [number 3] hlen'
      rw [show ([number 3] ++ number 3 :: [number 3] : List Field) = nhdrFields from rfl, ← hwin,
        window_window (by decide), window_window (by decide)] at h
      have h' : window m₁.bytes (d + 4) 4 = swapField (number 3) (window m.bytes (s + 4) 4) := h
      rw [h', ofBytes_swapField rfl]
  · rw [if_pos rfl]
    have h := congrArg (window · off 4) hsrc
    rw [window_window (by omega), window_window (by omega)] at h
    rw [h]

/-- The step of the loop in terms of the note at the source. -/
theorem cvtNotes_step {o : ByteOrder} {fuel d s len : Nat} {m m₁ : Mem n} (hlen : 12 ≤ len)
    (hs : s + len ≤ n) (hd : d + len ≤ n) (hm₁ : cvtFields nhdrFields d s m = .ok () m₁)
    (hwin : window m₁.bytes d 12 = swapFields nhdrFields (window m.bytes s 12))
    (ho : o = host.flip ∧ (encode = true → d = s) ∨
      o = host ∧ encode = true ∧ window m₁.bytes s 12 = window m.bytes s 12) :
    cvtNotes host align encode (fuel + 1) d s len m =
      match noteSpan o align (window m.bytes s len) with
      | none => cvtRest d s len m₁
      | some k =>
        (if s ≠ d then memcpy (d + 12) (s + 12) (k - 12) m₁ else .ok () m₁).bind fun _ m =>
          cvtNotes host align encode fuel (d + k) (s + k) (len - k) m := by
  have hl : (window m.bytes s len).length = len := length_window (by rw [m.length_eq]; exact hs)
  have hname := read_nhdr (o := o) hlen hs hd hwin ho (.inl rfl)
  have hdesc := read_nhdr (o := o) hlen hs hd hwin ho (.inr rfl)
  rw [Nat.add_zero] at hname
  rw [cvtNotes, if_neg (by omega), hm₁, bind_ok]
  simp only [hname, bind_ok, noteSpan, hl]
  split
  · rfl
  · simp only [hdesc, bind_ok]
    split <;> rfl

/-- Into a range that no piece is copied within: it starts after the end of the section, or so far before
the section that the pieces of a note fit in between. -/
theorem cvtNotes_exact (fuel : Nat) : ∀ {d s len : Nat} {m : Mem n}, s + len ≤ n → d + len ≤ n → len < fuel →
    s + len ≤ d ∨ d < s ∧ (encode = true → len < 12 ∨ d + 12 ≤ s) ∧
      Clear (s - d) (noteSpans (if encode then host else host.flip) align fuel (window m.bytes s len)) len →
    ∃ m', cvtNotes host align encode fuel d s len m = .ok () m' ∧ Frame m m' d len ∧
      window m'.bytes d len = swapNotes (if encode then host else host.flip) align fuel (window m.bytes s len) := by
  induction fuel with
  | zero => intro d s len m _ _ h; omega
  | succ fuel ih =>
    intro d s len m hs hd hfuel hgap
    generalize ho : (if encode = true then host else host.flip) = o at *
    have hl : (window m.bytes s len).length = len := length_window (by rw [m.length_eq]; exact hs)
    -- what is left is copied, unless there is nothing left
    have hrest : ∀ m₁ : Mem n, Separate d len s len → Frame m m₁ d len →
        ∃ m', cvtRest d s len m₁ = .ok () m' ∧ Frame m m' d len ∧
        window m'.bytes d len = window m.bytes s len := by
      intro m₁ hsep hframe
      have hsrc : window m₁.bytes s len = window m.bytes s len := hframe.window_eq (by
        rcases hsep with h | h
        · exact .inr h
        · exact .inl h)
      by_cases hz : 0 < len ∧ s ≠ d
      · obtain ⟨m', hm', hframe', hwin'⟩ := memcpy_exact (m := m₁) hsep hs hd
        exact ⟨m', by rw [cvtRest, if_pos hz, hm'], hframe.trans hframe', hwin'.trans hsrc⟩
      · obtain rfl : len = 0 := by rcases hsep with h | h <;> omega
        exact ⟨m₁, by rw [cvtRest, if_neg (by omega)], hframe, by rw [window_zero, window_zero]⟩
    by_cases hshort : len < 12
    · rw [cvtNotes, if_pos hshort, swapNotes, hl, if_pos hshort]
      refine hrest m ?_ (Frame.refl _ _ _)
      rcases hgap with h | ⟨_, _, _, h⟩
      · exact .inr h
      · rw [noteSpans, hl, if_pos hshort, List.sum_nil] at h
        exact .inl (by omega)
    · have hsd : s ≠ d := by rcases hgap with h | h <;> omega
      have hbehind : Behind d s 12 := by
        rcases hgap with h | h
        · exact .inl (.inr (by omega))
        · exact .inr (Nat.le_of_lt h.1)
      obtain ⟨m₁, hm₁, hframe₁, hwin₁⟩ :=
        cvtFields_exact nhdrFields (m := m) hbehind (by rw [packedSize_nhdr]; omega) (by rw [packedSize_nhdr]; omega)
      rw [packedSize_nhdr] at hframe₁ hwin₁
      rw [cvtNotes_step (o := o) (by omega) hs hd hm₁ hwin₁ (by
        subst ho
        cases encode with
        | false => exact .inl ⟨rfl, nofun⟩
        | true =>
          refine .inr ⟨rfl, rfl, hframe₁.window_eq ?_⟩
          rcases hgap with h | ⟨_, h, _⟩
          · exact .inl (by omega)
          · exact .inr ((h rfl).resolve_left hshort)), swapNotes, hl, if_neg hshort]
      rw [noteSpans, hl, if_neg hshort] at hgap
      cases hspan : noteSpan o align (window m.bytes s len) with
      | none =>
        refine hrest m₁ ?_ (hframe₁.mono (Nat.le_refl d) (by omega))
        rcases hgap with h | ⟨_, _, _, h⟩
        · exact .inr h
        · rw [hspan, List.sum_nil] at h
          exact .inl (by omega)
      | some k =>
        obtain ⟨hk, hkl⟩ := noteSpan_bounds hspan
        rw [hl] at hkl
        rw [hspan] at hgap
        have hpiece : Separate (d + 12) (k - 12) (s + 12) (k - 12) := by
          rcases hgap with h | ⟨hds, _, hgap, _⟩
          · exact .inr (by omega)
          · have := hgap k (List.mem_cons_self)
            exact .inl (by omega)
        obtain ⟨m₂, hm₂, hframe₂, hwin₂⟩ := memcpy_exact (m := m₁) hpiece (by omega) (by omega)
        have hframe : Frame m m₂ d k :=
          (hframe₁.mono (Nat.le_refl d) (by omega)).trans (hframe₂.mono (by omega) (by omega))
        have hlater : window m₂.bytes (s + k) (len - k) = window m.bytes (s + k) (len - k) :=
          hframe.window_eq (by rcases hgap with h | h <;> omega)
        have hdrop : (window m.bytes s len).drop k = window m.bytes (s + k) (len - k) := by
          rw [window, window, List.drop_take, List.drop_drop]
        obtain ⟨m₃, hm₃, hframe₃, hwin₃⟩ := @ih (d + k) (s + k) (len - k) m₂
          (by omega) (by omega) (by omega) (by
            rcases hgap with h | ⟨hds, henc, hpieces, hleft⟩
            · exact .inl (by omega)
            · refine .inr ⟨by omega, fun h => by rcases henc h with h | h <;> omega, ?_⟩
              rw [hlater, ← hdrop, show s + k - (d + k) = s - d by omega]
              rw [List.sum_cons] at hleft
              exact ⟨fun j hj => hpieces j (List.mem_cons_of_mem _ hj), by omega⟩)
        refine ⟨m₃, ?_, ?_, ?_⟩
        · simp only [if_pos hsd, hm₂, bind_ok]
          exact hm₃
        · exact (hframe.mono (Nat.le_refl d) (by omega)).trans (hframe₃.mono (by omega) (by omega))
        · have hhead : window m₃.bytes d 12 = swapFields nhdrFields (window m.bytes s 12) := by
            rw [hframe₃.window_eq (.inl (by omega)), hframe₂.window_eq (.inl (by omega)), hwin₁]
          have hdata : window m₃.bytes (d + 12) (k - 12) = window m.bytes (s + 12) (k - 12) := by
            rw [hframe₃.window_eq (.inl (by omega)), hwin₂]
            exact hframe₁.window_eq (by rcases hgap with h | h <;> omega)
          have hparts : window m₃.bytes d len = window m₃.bytes d 12 ++ window m₃.bytes (d + 12) (k - 12) ++
              window m₃.bytes (d + k) (len - k) := by
            rw [window_append_window, show 12 + (k - 12) = k by omega, window_append_window]
            congr 1
            omega
          have htake : (window m.bytes s len).take k = window m.bytes s k := by
            rw [window, window, List.take_take, Nat.min_eq_left hkl]
          simp only [htake, hdrop]
          rw [hparts, hhead, hdata, hwin₃, hlater, swapHead_nhdr hk]

/-- In place the lengths are always read in the byte order that the host does not have: they were swapped
before they were read. -/
theorem cvtNotes_inPlace (fuel : Nat) : ∀ {s len : Nat} {m : Mem n}, s + len ≤ n → len < fuel →
    ∃ m', cvtNotes host align encode fuel s s len m = .ok () m' ∧ Frame m m' s len ∧
      window m'.bytes s len = swapNotesInPlace host.flip align fuel (window m.bytes s len) := by
  induction fuel with
  | zero => intro s len m _ h; omega
  | succ fuel ih =>
    intro s len m hs hfuel
    have hl : (window m.bytes s len).length = len := length_window (by rw [m.length_eq]; exact hs)
    have hrest : ∀ m₁ : Mem n, cvtRest s s len m₁ = .ok () m₁ := fun m₁ => by
      rw [cvtRest, if_neg (fun h => h.2 rfl)]
    rw [swapNotesInPlace, hl]
    by_cases hshort : len < 12
    · rw [cvtNotes, if_pos hshort, if_pos hshort, hrest]
      exact ⟨m, rfl, Frame.refl _ _ _, rfl⟩
    · rw [if_neg hshort]
      obtain ⟨m₁, hm₁, hframe₁, hwin₁⟩ :=
        cvtFields_exact nhdrFields (m := m) (.inr (Nat.le_refl s)) (by rw [packedSize_nhdr]; omega)
          (by rw [packedSize_nhdr]; omega)
      rw [packedSize_nhdr] at hframe₁ hwin₁
      rw [cvtNotes_step (o := host.flip) (by omega) hs hs hm₁ hwin₁ (.inl ⟨rfl, fun _ => rfl⟩)]
      have hafter : ∀ off k, 12 ≤ off → window m₁.bytes (s + off) k = window m.bytes (s + off) k :=
        fun off k h => hframe₁.window_eq (.inr (by omega))
      cases hspan : noteSpan host.flip align (window m.bytes s len) with
      | none =>
        refine ⟨m₁, hrest m₁, hframe₁.mono (Nat.le_refl s) (by omega), ?_⟩
        have hparts : window m₁.bytes s len = window m₁.bytes s 12 ++ window m₁.bytes (s + 12) (len - 12) := by
          rw [window_append_window]
          congr 1
          omega
        rw [hparts, hwin₁, hafter 12 (len - 12) (Nat.le_refl _)]
        exact (swapHead_nhdr (by omega)).symm
      | some k =>
        obtain ⟨hk, hkl⟩ := noteSpan_bounds hspan
        rw [hl] at hkl
        obtain ⟨m₂, hm₂, hframe₂, hwin₂⟩ := @ih (s + k) (len - k) m₁ (by omega) (by omega)
        refine ⟨m₂, ?_, ?_, ?_⟩
        · simp only [ne_eq, not_true_eq_false, if_false, bind_ok]
          exact hm₂
        · exact (hframe₁.mono (Nat.le_refl s) (by omega)).trans (hframe₂.mono (by omega) (by omega))
        · have hparts : window m₂.bytes s len = window m₂.bytes s 12 ++ window m₂.bytes (s + 12) (k - 12) ++
              window m₂.bytes (s + k) (len - k) := by
            rw [window_append_window, show 12 + (k - 12) = k by omega, window_append_window]
            congr 1
            omega
          have htake : (window m.bytes s len).take k = window m.bytes s k := by
            rw [window, window, List.take_take, Nat.min_eq_left hkl]
          have hdrop : (window m.bytes s len).drop k = window m.bytes (s + k) (len - k) := by
            rw [window, window, List.drop_take, List.drop_drop]
          simp only [htake, hdrop]
          rw [hparts, hframe₂.window_eq (.inl (by omega)), hwin₁, hframe₂.window_eq (.inl (by omega)),
            hafter 12 _ (Nat.le_refl _), hwin₂, hafter k _ hk, swapHead_nhdr hk]

end Converter

/-! ## When it makes no difference -/

/-- Where every note is whole, in place the same headers are swapped. -/
theorem swapNotesInPlace_eq {o : ByteOrder} {align : Nat} (fuel : Nat) : ∀ {o' : ByteOrder} {bs : List UInt8},
    noteSpans o' align fuel bs = noteSpans o align fuel bs → bs.length - (noteSpans o align fuel bs).sum < 12 →
    swapNotesInPlace o' align fuel bs = swapNotes o align fuel bs := by
  induction fuel with
  | zero => intro o' bs _ _; rfl
  | succ fuel ih =>
    intro o' bs hsame hwhole
    rw [swapNotesInPlace, swapNotes]
    rw [noteSpans, noteSpans] at hsame
    rw [noteSpans] at hwhole
    by_cases hshort : bs.length < 12
    · rw [if_pos hshort, if_pos hshort]
    · rw [if_neg hshort, if_neg hshort] at *
      cases hspan : noteSpan o align bs with
      | none =>
        rw [hspan, List.sum_nil] at hwhole
        omega
      | some k =>
        rw [hspan] at hsame hwhole
        rw [List.sum_cons] at hwhole
        cases hspan' : noteSpan o' align bs with
        | none =>
          rw [hspan'] at hsame
          cases hsame
        | some k' =>
          rw [hspan'] at hsame
          obtain ⟨rfl, htail⟩ := List.cons.inj hsame
          simp only
          rw [ih htail (by rw [List.length_drop]; omega)]

end LibElf.Elfutils
