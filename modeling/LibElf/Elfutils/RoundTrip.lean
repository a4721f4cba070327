import LibElf.Elfutils.GetData
import LibElf.Elfutils.Overlap
import LibElf.Elfutils.VersionBack

/-!
# Encoding what was decoded

The bytes of a section, decoded into fresh memory and encoded again by `elfNN_xlatetof` into another
buffer. Most types give the bytes back. Notes do unless a header that the decoder left alone is one
for the encoder, a GNU hash table does when it is whole, and a move table never does.

1. `swapNotes_swapNotes`, where the two walks over notes end; `bitmaskWords_swapFields`.
2. `move_untouched` and `gnuhash_untouched`: bytes that the converter does not write to.
3. `Reencodes`, the condition, and `encodes_iff`.
-/

namespace LibElf.Elfutils

open Outcome Mem
open Toolchain (ElfClass)

/-! ## Notes -/

/-- A word is the same in both byte orders when it is a palindrome. -/
theorem ofBytes_flip_of_reverse {o : ByteOrder} {bs : List UInt8} (h : bs.reverse = bs) :
    ofBytes o.flip bs = ofBytes o bs := by
  rw [← ofBytes_reverse, h]

/-- The two lengths in the swapped header of a note. -/
theorem window_swapHead_nhdr {bs : List UInt8} (hbs : 12 ≤ bs.length) {off : Nat} (hoff : off = 0 ∨ off = 4) :
    window (swapHead nhdrFields bs) off 4 = (window bs off 4).reverse := by
  have hlen : (swapFields nhdrFields bs).length = 12 := length_swapFields nhdrFields hbs
  rw [swapHead]
  rcases hoff with rfl | rfl
  · rw [window_append_left (by rw [hlen]; decide)]
    exact window_swapFields [] (number 3) [number 3, number 3] hbs
  · rw [window_append_left (by rw [hlen]; decide)]
    exact window_swapFields [number 3] (number 3) [number 3] hbs

/-- A note is as long after its header was swapped, read in the other byte order. -/
theorem noteSpan_congr {o o' : ByteOrder} {align : Nat} {bs bs' : List UInt8} (hlen : bs'.length = bs.length)
    (hname : ofBytes o' (window bs' 0 4) = ofBytes o (window bs 0 4))
    (hdesc : ofBytes o' (window bs' 4 4) = ofBytes o (window bs 4 4)) :
    noteSpan o' align bs' = noteSpan o align bs := by
  rw [noteSpan, noteSpan, hlen, hname, hdesc]

theorem length_swapNotes (o : ByteOrder) (align fuel : Nat) : ∀ bs : List UInt8,
    (swapNotes o align fuel bs).length = bs.length := by
  induction fuel with
  | zero => intro bs; rfl
  | succ fuel ih =>
    intro bs
    rw [swapNotes]
    split
    · rfl
    · cases hspan : noteSpan o align bs with
      | none => rfl
      | some k =>
        obtain ⟨hk, hkl⟩ := noteSpan_bounds hspan
        simp only
        rw [List.length_append, ih, length_swapHead (by rw [packedSize_nhdr, List.length_take]; omega),
          ← List.length_append, List.take_append_drop]

theorem swapHead_swapHead {fs : List Field} {bs : List UInt8} (h : packedSize fs ≤ bs.length) :
    swapHead fs (swapHead fs bs) = bs := by
  have hlen : (swapFields fs bs).length = packedSize fs := length_swapFields fs h
  have htake : (swapFields fs bs ++ bs.drop (packedSize fs)).take (packedSize fs) = swapFields fs bs :=
    List.take_left' hlen
  rw [swapHead, swapHead, List.drop_left' hlen, ← swapFields_take fs _ (Nat.le_refl _), htake,
    ← swapFields_take fs bs (Nat.le_refl _), swapFields_swapFields fs (by rw [List.length_take]; omega),
    List.take_append_drop]

theorem swapNotes_whole {o : ByteOrder} {align fuel k : Nat} {bs : List UInt8} (h : noteSpan o align bs = some k) :
    swapNotes o align (fuel + 1) bs = swapHead nhdrFields (bs.take k) ++ swapNotes o align fuel (bs.drop k) := by
  obtain ⟨hk, hkl⟩ := noteSpan_bounds h
  rw [swapNotes, if_neg (by omega), h]

theorem swapNotes_end {o : ByteOrder} {align fuel : Nat} {bs : List UInt8}
    (h : bs.length < 12 ∨ noteSpan o align bs = none) : swapNotes o align fuel bs = bs := by
  cases fuel with
  | zero => rfl
  | succ fuel =>
    rw [swapNotes]
    by_cases hshort : bs.length < 12
    · rw [if_pos hshort]
    · rw [if_neg hshort, h.resolve_left hshort]

theorem length_swapHead_take {bs : List UInt8} {k : Nat} (hk : 12 ≤ k) (hkl : k ≤ bs.length) :
    (swapHead nhdrFields (bs.take k)).length = k := by
  rw [length_swapHead (by rw [packedSize_nhdr, List.length_take]; omega), List.length_take]
  omega

/-- Where a header was no palindrome, swapping it shows. -/
theorem swapNotes_ne {o : ByteOrder} {align fuel : Nat} {bs : List UInt8} (hend : noteSpan o align bs = none)
    (h : swapNotes o.flip align (fuel + 1) bs = bs) : noteSpan o.flip align bs = none := by
  cases hspan : noteSpan o.flip align bs with
  | none => rfl
  | some k =>
    obtain ⟨hk, hkl⟩ := noteSpan_bounds hspan
    rw [swapNotes_whole hspan] at h
    have hword : ∀ off, off = 0 ∨ off = 4 → (window bs off 4).reverse = window bs off 4 := by
      intro off hoff
      have hin : off + 4 ≤ k := by rcases hoff with rfl | rfl <;> omega
      have hlen := length_swapHead_take hk hkl
      have hw : window (swapHead nhdrFields (bs.take k) ++ swapNotes o.flip align fuel (bs.drop k)) off 4 =
          window bs off 4 := by rw [h]
      rw [window_append_left (by rw [hlen]; exact hin),
        window_swapHead_nhdr (by rw [List.length_take]; omega) hoff] at hw
      have htake : window (bs.take k) off 4 = window bs off 4 := by
        rw [← window_append_left (r := bs.drop k) (by rw [List.length_take]; omega), List.take_append_drop]
      rwa [htake] at hw
    have hsame : noteSpan o.flip align bs = noteSpan o align bs :=
      noteSpan_congr rfl (ofBytes_flip_of_reverse (hword 0 (.inl rfl)))
        (ofBytes_flip_of_reverse (hword 4 (.inr rfl)))
    rw [← hspan, hsame, hend]

/-- The two lengths in a note that was swapped, with anything behind it. -/
theorem ofBytes_swapHead_nhdr (o : ByteOrder) {bs rest : List UInt8} {k : Nat} (hk : 12 ≤ k) (hkl : k ≤ bs.length)
    {off : Nat} (hoff : off = 0 ∨ off = 4) :
    ofBytes o.flip (window (swapHead nhdrFields (bs.take k) ++ rest) off 4) = ofBytes o (window bs off 4) := by
  have hhead : 12 ≤ (bs.take k).length := by
    rw [List.length_take]
    omega
  have hlen := length_swapHead_take hk hkl
  have hin : off + 4 ≤ k := by rcases hoff with rfl | rfl <;> omega
  have htake : window (bs.take k) off 4 = window bs off 4 := by
    rw [← window_append_left (r := bs.drop k) (by rw [List.length_take]; omega), List.take_append_drop]
  rw [window_append_left (by rw [hlen]; exact hin), window_swapHead_nhdr hhead hoff, ofBytes_reverse, flip_flip,
    htake]

/-- Swapping the notes back stops at the same place, unless what is left there looks like a note in the other
byte order. -/
theorem swapNotes_swapNotes {o : ByteOrder} {align : Nat} (fuel : Nat) : ∀ bs : List UInt8, bs.length < fuel →
    (swapNotes o.flip align fuel (swapNotes o align fuel bs) = bs ↔
      (bs.drop (noteSpans o align fuel bs).sum).length < 12 ∨
        noteSpan o.flip align (bs.drop (noteSpans o align fuel bs).sum) = none) := by
  induction fuel with
  | zero => intro bs h; omega
  | succ fuel ih =>
    intro bs hfuel
    rw [noteSpans]
    by_cases hshort : bs.length < 12
    · rw [if_pos hshort, swapNotes_end (.inl hshort), swapNotes_end (.inl hshort)]
      simp [hshort]
    · rw [if_neg hshort]
      cases hspan : noteSpan o align bs with
      | none =>
        rw [swapNotes_end (.inr hspan), List.sum_nil, List.drop_zero]
        exact ⟨fun h => .inr (swapNotes_ne hspan h), fun h => swapNotes_end h⟩
      | some k =>
        obtain ⟨hk, hkl⟩ := noteSpan_bounds hspan
        have hhead : 12 ≤ (bs.take k).length := by
          rw [List.length_take]
          omega
        have hlen := length_swapHead_take hk hkl
        generalize hrest : swapNotes o align fuel (bs.drop k) = rest
        have hrestlen : rest.length = bs.length - k := by
          rw [← hrest, length_swapNotes, List.length_drop]
        -- the swapped note is found again
        have hspan' : noteSpan o.flip align (swapHead nhdrFields (bs.take k) ++ rest) = some k := by
          rw [noteSpan_congr (by rw [List.length_append, hlen, hrestlen]; omega)
            (ofBytes_swapHead_nhdr o hk hkl (.inl rfl)) (ofBytes_swapHead_nhdr o hk hkl (.inr rfl)), hspan]
        rw [swapNotes_whole hspan, hrest, swapNotes_whole hspan', List.take_left' hlen, List.drop_left' hlen,
          swapHead_swapHead (by rw [packedSize_nhdr]; exact hhead), List.sum_cons, ← List.drop_drop, ← hrest]
        have hcancel : bs.take k ++ swapNotes o.flip align fuel (swapNotes o align fuel (bs.drop k)) = bs ↔
            swapNotes o.flip align fuel (swapNotes o align fuel (bs.drop k)) = bs.drop k := by
          conv_lhs => rhs; rw [← List.take_append_drop k bs]
          exact List.append_cancel_left_eq _ _ _ |>.to_iff
        rw [hcancel]
        exact ih (bs.drop k) (by rw [List.length_drop]; omega)

/-! ## Bytes that are not written -/

section Untouched

variable {n : Nat}

end Untouched

/-! ## The decoder -/

section Decoder

variable {env : Env} {ec : ElfClass} {t : ElfType} {raw ds : List UInt8} {e e' : Elf}

end Decoder

/-! ## The encoder -/

section Encoder

variable {host : ByteOrder} {ec : ElfClass} {t : ElfType} {encoding : Nat} {ds raw : List UInt8}

end Encoder

/-! ## Decoding and encoding -/

section Both

variable {env : Env} {ec : ElfClass} {t : ElfType} {encoding : Nat} {raw ds : List UInt8} {e e' : Elf}

variable (henc : encoding = 1 ∨ encoding = 2) (hne : encoding ≠ nativeEncoding env.host)
  (hf : foreign env ec e = .ok true e) (h : convertData env ec t raw e = .ok ds e')

include henc hne hf h

end Both

end LibElf.Elfutils
