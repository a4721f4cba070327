import LibElf.Toolchain.Codec
import LibElf.Base.Footprint

/-!
# GNU hash tables

The 64-bit GNU hash table has a header of four words, a Bloom filter of 64-bit words and then 32-bit words
again. The number of filter words is in the header, so each direction has to see the header on the side
where it is native.

1. `swapped`, a table of units of one width, each swapped or not, and `swapped_swapped`.
2. `gnuhash64Image`, the translated table, and `cvtGnuhash64_run`, which both directions compute.
3. `cvtGnuhash64_exact`: to memory unit by unit, and back to the bytes of the file.
-/

namespace LibElf.Toolchain

open Outcome Mem

/-! ## Tables of units -/

section Units

variable (swap : Bool) (width : Nat)

/-- The bytes of one unit, reversed by a swap. -/
def swapUnit (r : List UInt8) : List UInt8 := if swap then r.reverse else r

/-- The first `count` units of a byte string, each swapped or not. -/
def swapped (count : Nat) (bs : List UInt8) : List UInt8 := (records (swapUnit swap) width count bs).flatten

theorem length_swapUnit (r : List UInt8) : (swapUnit swap r).length = r.length := by
  unfold swapUnit
  split
  · exact List.length_reverse
  · rfl

theorem swapUnit_swapUnit (r : List UInt8) : swapUnit swap (swapUnit swap r) = r := by
  cases swap
  · rfl
  · exact List.reverse_reverse r

variable {width} {count : Nat} {bs : List UInt8}

theorem length_swapped (h : count * width ≤ bs.length) : (swapped swap width count bs).length = count * width :=
  length_flatten_records (fun r hr => (length_swapUnit swap r).trans hr) count bs h

/-- Two swaps of the same units undo each other. -/
theorem swapped_swapped (h : count * width ≤ bs.length) :
    swapped swap width count (swapped swap width count bs) = window bs 0 (count * width) := by
  rw [swapped, swapped, records_flatten _ (fun r hr => (length_swapUnit swap r).trans hr) count bs h]
  exact flatten_records_of_id (fun r _ => swapUnit_swapUnit swap r) count h

/-- Only the first `count` units count. -/
theorem swapped_append {pre rest : List UInt8} (h : pre.length = count * width) :
    swapped swap width count (pre ++ rest) = swapped swap width count pre := by
  have hle : count * width ≤ (pre ++ rest).length := by
    rw [List.length_append]
    omega
  rw [swapped, swapped, ← records_window count hle, window_append_left (by omega), records_window count (by omega)]

/-- Units one after the other. -/
theorem swapped_add (a b : Nat) (bs : List UInt8) :
    swapped swap width (a + b) bs = swapped swap width a bs ++ swapped swap width b (bs.drop (a * width)) := by
  induction a generalizing bs with
  | zero => simp [swapped, records]
  | succ a ih =>
    have hdrop : bs.drop ((a + 1) * width) = (bs.drop width).drop (a * width) := by
      rw [List.drop_drop, Nat.add_mul, Nat.one_mul, Nat.add_comm]
    have hstep : ∀ k, swapped swap width (k + 1) bs = swapUnit swap (bs.take width) ++ swapped swap width k (bs.drop width) :=
      fun _ => rfl
    rw [Nat.add_right_comm, hstep, hstep, ih, hdrop, List.append_assoc]

/-- One of the units. -/
theorem window_swapped {k : Nat} (hk : k < count) (h : count * width ≤ bs.length) :
    window (swapped swap width count bs) (k * width) width = swapUnit swap (window bs (k * width) width) := by
  obtain ⟨j, rfl⟩ : ∃ j, count = k + (j + 1) := ⟨count - k - 1, by omega⟩
  have hle : (k + (j + 1)) * width = k * width + (j * width + width) := by
    rw [Nat.add_mul, Nat.add_mul, Nat.one_mul]
  rw [hle] at h
  have hpre : (swapped swap width k bs).length = k * width := length_swapped swap (by omega)
  have hunit : (swapUnit swap (window bs (k * width) width)).length = width := by
    rw [length_swapUnit, length_window (by omega)]
  have hstep : swapped swap width (j + 1) (bs.drop (k * width)) =
      swapUnit swap (window bs (k * width) width) ++ swapped swap width j ((bs.drop (k * width)).drop width) := rfl
  have hright := window_append_right (swapped swap width k bs) (swapped swap width (j + 1) (bs.drop (k * width))) 0 width
  rw [hpre, Nat.add_zero (k * width)] at hright
  have hfull := window_full (swapUnit swap (window bs (k * width) width))
  rw [hunit] at hfull
  rw [swapped_add, hright, hstep, window_append_left (by omega), hfull]

end Units

/-! ## The table -/

section Table

variable (host : ByteOrder) (swap : Bool)

/-- The two directions do the same with a number that fills its structure. -/
theorem tofObject_unit {f : Field} (hf : f.numeric = true) (hpad : f.pad 0 = 0) {r : List UInt8}
    (hr : r.length = f.width) : tofObject host swap [f] r = swapUnit swap r := by
  have htake : r.take f.width = r := List.take_of_length_le (Nat.le_of_eq hr)
  rw [tofObject, tofFields, tofFields, hpad, List.drop_zero, htake, List.append_nil, cvtField_eq host swap f hr, hf,
    Bool.and_true]
  rfl

/-- The loop over units, as a piece of what is stored. -/
theorem tofLoop_units {f : Field} (hf : f.numeric = true) (hpad : f.pad 0 = 0)
    (hsize : packedSize [f] = f.width ∧ naturalSize [f] = f.width) {n : Nat} (count : Nat) (dst : Mem n) {off : Nat}
    {src : List UInt8} (hsrc : count * f.width ≤ src.length) (hn : off + count * f.width ≤ n) :
    ∃ d, tofLoop host [f] swap count dst off src = .ok () d ∧ Wrote dst d off (swapped swap f.width count src) := by
  rw [← hsize.2] at hsrc
  rw [← hsize.1] at hn
  obtain ⟨d, hd, hframe, hwin⟩ := tofLoop_exact host swap [f] count dst off src hsrc hn
  rw [hsize.2] at hsrc
  have hrec : (records (tofObject host swap [f]) (naturalSize [f]) count src).flatten = swapped swap f.width count src := by
    rw [hsize.2, records_congr (fun r hr => tofObject_unit host swap hf hpad hr) count src hsrc]
    rfl
  rw [hrec, hsize.1] at hwin
  rw [hsize.1] at hframe
  refine ⟨d, hd, ?_, ?_⟩
  · rwa [length_swapped swap hsrc]
  · rwa [length_swapped swap hsrc]

/-- The translated table: four words, `maskwords` 64-bit words, and words up to the end. -/
def gnuhash64Image (maskwords : Nat) (bs : List UInt8) : List UInt8 :=
  swapped swap 4 4 bs ++ swapped swap 8 maskwords (bs.drop 16) ++
    swapped swap 4 ((bs.length - 16 - maskwords * 8) / 4) (bs.drop (16 + maskwords * 8))

variable {maskwords : Nat} {bs : List UInt8}

theorem length_gnuhash64Image (hmul : bs.length % 4 = 0) (hin : 16 + maskwords * 8 ≤ bs.length) :
    (gnuhash64Image swap maskwords bs).length = bs.length := by
  have hhdr : (swapped swap 4 4 bs).length = 4 * 4 := length_swapped swap (by omega)
  have hbloom : (swapped swap 8 maskwords (bs.drop 16)).length = maskwords * 8 :=
    length_swapped swap (by rw [List.length_drop]; omega)
  have hwords : (swapped swap 4 ((bs.length - 16 - maskwords * 8) / 4) (bs.drop (16 + maskwords * 8))).length =
      (bs.length - 16 - maskwords * 8) / 4 * 4 := length_swapped swap (by rw [List.length_drop]; omega)
  rw [gnuhash64Image, List.length_append, List.length_append, hhdr, hbloom, hwords]
  omega

/-- Translating the translated table gives the table. -/
theorem gnuhash64Image_gnuhash64Image (hmul : bs.length % 4 = 0) (hin : 16 + maskwords * 8 ≤ bs.length) :
    gnuhash64Image swap maskwords (gnuhash64Image swap maskwords bs) = bs := by
  have hlen := length_gnuhash64Image swap hmul hin
  have hhdr : (swapped swap 4 4 bs).length = 4 * 4 := length_swapped swap (by omega)
  have hbloom : (swapped swap 8 maskwords (bs.drop 16)).length = maskwords * 8 :=
    length_swapped swap (by rw [List.length_drop]; omega)
  have hwords : (swapped swap 4 ((bs.length - 16 - maskwords * 8) / 4) (bs.drop (16 + maskwords * 8))).length =
      (bs.length - 16 - maskwords * 8) / 4 * 4 := length_swapped swap (by rw [List.length_drop]; omega)
  conv_lhs => rw [gnuhash64Image, hlen]
  rw [gnuhash64Image]
  generalize hA : swapped swap 4 4 bs = A at hhdr ⊢
  generalize hB : swapped swap 8 maskwords (bs.drop 16) = B at hbloom ⊢
  generalize hC : swapped swap 4 ((bs.length - 16 - maskwords * 8) / 4) (bs.drop (16 + maskwords * 8)) = C at hwords ⊢
  have hdropA : (A ++ B ++ C).drop 16 = B ++ C := by
    rw [List.append_assoc]
    exact List.drop_left' hhdr
  have hdropB : (A ++ B ++ C).drop (16 + maskwords * 8) = C := by
    refine List.drop_left' ?_
    rw [List.length_append, hhdr, hbloom]
  rw [hdropA, hdropB, List.append_assoc A B C, swapped_append swap hhdr, swapped_append swap hbloom, ← hA, ← hB, ← hC,
    swapped_swapped swap (by omega), swapped_swapped swap (by rw [List.length_drop]; omega),
    swapped_swapped swap (by rw [List.length_drop]; omega)]
  have hwin : window (bs.drop 16) 0 (maskwords * 8) = window bs (0 + 4 * 4) (maskwords * 8) := by
    rw [window, window, List.drop_zero]
  have htail : (bs.drop (16 + maskwords * 8)).take ((bs.length - 16 - maskwords * 8) / 4 * 4) =
      bs.drop (16 + maskwords * 8) := by
    refine List.take_of_length_le ?_
    rw [List.length_drop]
    omega
  rw [hwin, window_append_window, window, List.drop_zero, window, List.drop_zero, htail]
  exact List.take_append_drop (16 + maskwords * 8) bs

/-! ## The two directions -/

theorem pad_word : wordField.pad 0 = 0 := by decide

theorem pad_xword : xwordField.pad 0 = 0 := by decide

/-- What the host sees in a header word of the source. -/
theorem nativeField_eq (toFile : Bool) {r : List UInt8} (hr : r.length = 4) :
    nativeField host toFile swap wordField r = ofBytes host (if toFile then r else swapUnit swap r) := by
  cases toFile with
  | true => rfl
  | false =>
    have hcvt : cvtField host swap wordField r = swapUnit swap r := by
      rw [cvtField_eq host swap wordField hr]
      cases swap <;> rfl
    exact congrArg (ofBytes host) hcvt

variable {n : Nat}

/-- A table whose counts fit is translated unit by unit, in either direction. -/
theorem cvtGnuhash64_run (toFile : Bool) (hmul : bs.length % 4 = 0) (hlt : bs.length < 2 ^ 34)
    (h16 : 16 ≤ bs.length) {nbuckets : Nat}
    (hnb : nativeField host toFile swap wordField (window bs 0 4) = nbuckets)
    (hmw : nativeField host toFile swap wordField (window bs 8 4) = maskwords)
    (hsz : nbuckets * 4 + maskwords * 8 ≤ bs.length - 16) (dst : Mem n) {off dsz : Nat} (hdsz : bs.length ≤ dsz)
    (hn : off + dsz ≤ n) :
    ∃ d, cvtGnuhash64 host toFile n dst off dsz bs bs.length swap = .ok () d ∧
      Wrote dst d off (gnuhash64Image swap maskwords bs) := by
  have hread : 0 + 16 ≤ bs.length := by omega
  have hhdr : (window bs 0 16).length = 16 := length_window hread
  obtain ⟨d₁, hrun₁, hw₁⟩ := @tofLoop_units host swap wordField rfl pad_word sizes_word n 4 dst off (window bs 0 16)
    (by rw [hhdr]; decide) (by simp only [wordField]; omega)
  obtain ⟨d₂, hrun₂, hw₂⟩ := @tofLoop_units host swap xwordField rfl pad_xword sizes_xword n maskwords d₁ (off + 16)
    (bs.drop 16) (by simp only [xwordField, List.length_drop]; omega) (by simp only [xwordField]; omega)
  obtain ⟨d₃, hrun₃, hw₃⟩ := @tofLoop_units host swap wordField rfl pad_word sizes_word n nbuckets d₂
    (off + 16 + maskwords * 8) (bs.drop (16 + maskwords * 8))
    (by simp only [wordField, List.length_drop]; omega) (by simp only [wordField]; omega)
  obtain ⟨d₄, hrun₄, hw₄⟩ := @tofLoop_units host swap wordField rfl pad_word sizes_word n
    ((bs.length - 16 - (nbuckets * 4 + maskwords * 8)) / 4) d₃ (off + 16 + maskwords * 8 + nbuckets * 4)
    (bs.drop (16 + maskwords * 8 + nbuckets * 4))
    (by simp only [wordField, List.length_drop]; omega) (by simp only [wordField]; omega)
  -- the number of chains fits its 32 bits
  have hchains : (bs.length - 16 - (nbuckets * 4 + maskwords * 8)) / 4 % 2 ^ 32 =
      (bs.length - 16 - (nbuckets * 4 + maskwords * 8)) / 4 := Nat.mod_eq_of_lt (by omega)
  refine ⟨d₄, ?_, ?_⟩
  · rw [cvtGnuhash64, if_neg (by omega), readAt_of_le dst hread, bind_ok]
    dsimp only
    rw [window_window (by decide), window_window (by decide), Nat.zero_add, Nat.zero_add, hnb, hmw,
      if_neg (by omega), hrun₁, bind_ok, hrun₂, bind_ok, hrun₃, bind_ok, if_neg (by omega), hchains]
    exact hrun₄
  · have hl₁ : (swapped swap wordField.width 4 (window bs 0 16)).length = 16 :=
      length_swapped swap (by simp only [wordField]; omega)
    have hl₂ : (swapped swap xwordField.width maskwords (bs.drop 16)).length = maskwords * 8 :=
      length_swapped swap (by simp only [xwordField, List.length_drop]; omega)
    have hl₃ : (swapped swap wordField.width nbuckets (bs.drop (16 + maskwords * 8))).length = nbuckets * 4 :=
      length_swapped swap (by simp only [wordField, List.length_drop]; omega)
    have h₁₂ := hw₁.append (by rw [hl₁]; exact hw₂)
    have h₁₃ := h₁₂.append (by rw [List.length_append, hl₁, hl₂, ← Nat.add_assoc]; exact hw₃)
    have h₁₄ := h₁₃.append (by
      rw [List.length_append, List.length_append, hl₁, hl₂, hl₃, ← Nat.add_assoc, ← Nat.add_assoc]
      exact hw₄)
    have hfirst : swapped swap wordField.width 4 (window bs 0 16) = swapped swap 4 4 bs :=
      congrArg List.flatten (records_window 4 (by simp only [wordField]; omega))
    have hdrop : bs.drop (16 + maskwords * 8 + nbuckets * 4) = (bs.drop (16 + maskwords * 8)).drop (nbuckets * 4) := by
      rw [List.drop_drop]
    have hwords := @swapped_add swap 4 nbuckets ((bs.length - 16 - (nbuckets * 4 + maskwords * 8)) / 4)
      (bs.drop (16 + maskwords * 8))
    have hcount : nbuckets + (bs.length - 16 - (nbuckets * 4 + maskwords * 8)) / 4 =
        (bs.length - 16 - maskwords * 8) / 4 := by omega
    rw [hcount] at hwords
    rw [gnuhash64Image, hwords, ← hdrop, ← hfirst, ← List.append_assoc]
    exact h₁₄

/-- The checks that a translated table passed. -/
theorem cvtGnuhash64_checks {toFile : Bool} {dst d : Mem n} {off dsz : Nat}
    (h : cvtGnuhash64 host toFile n dst off dsz bs bs.length swap = .ok () d) :
    16 ≤ bs.length ∧ bs.length ≤ dsz ∧
      nativeField host toFile swap wordField (window bs 0 4) * 4 +
        nativeField host toFile swap wordField (window bs 8 4) * 8 ≤ bs.length - 16 := by
  rw [cvtGnuhash64] at h
  split at h
  · cases h
  next h16 =>
  rw [readAt_of_le dst (by omega), bind_ok] at h
  dsimp only at h
  rw [window_window (by decide), window_window (by decide), Nat.zero_add, Nat.zero_add] at h
  split at h
  · cases h
  next hsz =>
  obtain ⟨_, d₁, _, h⟩ := bind_eq_ok.mp h
  obtain ⟨_, d₂, _, h⟩ := bind_eq_ok.mp h
  obtain ⟨_, d₃, _, h⟩ := bind_eq_ok.mp h
  split at h
  · cases h
  next hroom =>
  exact ⟨by omega, by omega, by omega⟩

end Table

section Exact

variable (host : ByteOrder) (swap : Bool) {n n' : Nat}

/-- A 64-bit GNU hash table that is translated to memory is translated exactly. Its size fits a section: a
number of chains that fits 32 bits. Both directions stay in their buffers, the four header words, the filter
words and the other words are swapped unit by unit, and the way back gives the bytes of the file. -/
theorem cvtGnuhash64_exact {bs : List UInt8} (hmul : bs.length % 4 = 0) (hlt : bs.length < 2 ^ 34) {dst d : Mem n}
    {off dsz : Nat} (hn : off + dsz ≤ n)
    (h : cvtGnuhash64 host false n dst off dsz bs bs.length swap = .ok () d) (dst' : Mem n') {off' dsz' : Nat}
    (hdsz' : bs.length ≤ dsz') (hn' : off' + dsz' ≤ n') :
    Wrote dst d off (gnuhash64Image swap (ofBytes host (swapUnit swap (window bs 8 4))) bs) ∧
      (gnuhash64Image swap (ofBytes host (swapUnit swap (window bs 8 4))) bs).length = bs.length ∧
      ∃ d', cvtGnuhash64 host true n' dst' off' dsz' (window d.bytes off bs.length) bs.length swap = .ok () d' ∧
        Wrote dst' d' off' bs := by
  obtain ⟨h16, hdsz, hsz⟩ := cvtGnuhash64_checks host swap h
  have hword : ∀ s, s + 4 ≤ 16 → nativeField host false swap wordField (window bs s 4) =
      ofBytes host (swapUnit swap (window bs s 4)) := fun s hs => nativeField_eq host swap false (length_window (by omega))
  rw [hword 0 (by decide), hword 8 (by decide)] at hsz
  obtain ⟨d₁, hrun, hwrote⟩ := cvtGnuhash64_run host swap false hmul hlt h16 (hword 0 (by decide))
    (hword 8 (by decide)) hsz dst hdsz hn
  rw [h] at hrun
  obtain ⟨-, rfl⟩ := Outcome.ok.inj hrun
  generalize hmw : ofBytes host (swapUnit swap (window bs 8 4)) = maskwords at hsz hwrote ⊢
  have hin : 16 + maskwords * 8 ≤ bs.length := by omega
  have hlen := length_gnuhash64Image swap hmul hin
  refine ⟨hwrote, hlen, ?_⟩
  have himage : window d.bytes off bs.length = gnuhash64Image swap maskwords bs := by
    rw [← hwrote.2, hlen]
  -- the header words of the translated table are those that the host saw
  have hback : ∀ k, k < 4 → nativeField host true swap wordField (window (gnuhash64Image swap maskwords bs) (k * 4) 4) =
      ofBytes host (swapUnit swap (window bs (k * 4) 4)) := by
    intro k hk
    have hhdr : (swapped swap 4 4 bs).length = 4 * 4 := length_swapped swap (by omega)
    rw [gnuhash64Image, List.append_assoc, window_append_left (by omega), window_swapped swap hk (by omega)]
    rfl
  obtain ⟨d', hrun', hwrote'⟩ := cvtGnuhash64_run host swap true (by rw [hlen]; exact hmul) (by rw [hlen]; exact hlt)
    (by rw [hlen]; exact h16) (hback 0 (by decide)) ((hback 2 (by decide)).trans hmw) (by rw [hlen]; exact hsz)
    dst' (by rw [hlen]; exact hdsz') hn'
  rw [gnuhash64Image_gnuhash64Image swap hmul hin] at hwrote'
  rw [hlen] at hrun'
  rw [himage]
  exact ⟨d', hrun', hwrote'⟩

/-- A table with one filter word, one bucket and one chain, in the other byte order. -/
theorem cvtGnuhash64_exact_small :
    ∃ (bs : List UInt8) (d : Mem 32),
      cvtGnuhash64 .little false 32 (.fresh (fun _ => 0) 32) 0 32 bs bs.length true = .ok () d ∧
      Wrote (.fresh (fun _ => 0) 32) d 0 (gnuhash64Image true (ofBytes .little (swapUnit true (window bs 8 4))) bs) ∧
      (gnuhash64Image true (ofBytes .little (swapUnit true (window bs 8 4))) bs).length = bs.length ∧
      ∃ d', cvtGnuhash64 .little true 32 (.fresh (fun _ => 7) 32) 0 32 (window d.bytes 0 bs.length) bs.length true =
          .ok () d' ∧ Wrote (.fresh (fun _ => 7) 32) d' 0 bs := by
  have hrun : ∃ d : Mem 32, cvtGnuhash64 .little false 32 (.fresh (fun _ => 0) 32) 0 32
      ([0, 0, 0, 1, 0, 0, 0, 1, 0, 0, 0, 1, 0, 0, 0, 5, 1, 2, 3, 4, 5, 6, 7, 8, 0, 0, 0, 1, 9, 9, 9, 8] : List UInt8) 32
      true = .ok () d := ⟨_, rfl⟩
  obtain ⟨d, hd⟩ := hrun
  exact ⟨_, d, hd, cvtGnuhash64_exact .little true (by decide) (by decide) (by decide) hd
    (.fresh (fun _ => 7) 32) (by decide) (by decide)⟩

end Exact

end LibElf.Toolchain
