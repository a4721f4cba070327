import LibElf.Elfutils.VersionBack

/-!
# Chains of version records

A section in which every link leads to a record and every chain ends with a link that is zero. The
decoder swaps the records of the chains. It follows links that it has just swapped, and the encoder
links that it is about to swap, and both find the same records.

1. `AuxChain` and `DefChain`, the records of the chains. `DefChain.walk`: they are the visited ones.
2. `version_roundTrip`: decoding swaps these records, and encoding the result, in place or not, gives
   the section back.
-/

namespace LibElf.Elfutils

open Outcome Mem

/-! ## Chains -/

section Chains

variable (o : ByteOrder) (v : VersionType) (bs : List UInt8)

/-- A chain of auxiliary records from an offset on, and its records. -/
inductive AuxChain : Nat → List Slot → Prop
  | last {off : Nat} : off + packedSize v.auxFields ≤ bs.length → link o bs (off + v.auxNext) = 0 →
      AuxChain off [(off, v.auxFields)]
  | next {off : Nat} {ps : List Slot} : off + packedSize v.auxFields ≤ bs.length →
      link o bs (off + v.auxNext) ≠ 0 → AuxChain (off + link o bs (off + v.auxNext)) ps →
      AuxChain off ((off, v.auxFields) :: ps)

/-- A chain of definitions or requirements, each with a chain of auxiliary records. -/
inductive DefChain : Nat → List Slot → Prop
  | last {off : Nat} {aux : List Slot} : off + packedSize v.defFields ≤ bs.length →
      AuxChain o v bs (off + link o bs (off + v.defAux)) aux → link o bs (off + v.defNext) = 0 →
      DefChain off ((off, v.defFields) :: aux)
  | next {off : Nat} {aux ps : List Slot} : off + packedSize v.defFields ≤ bs.length →
      AuxChain o v bs (off + link o bs (off + v.defAux)) aux → link o bs (off + v.defNext) ≠ 0 →
      DefChain (off + link o bs (off + v.defNext)) ps → DefChain off ((off, v.defFields) :: aux ++ ps)

variable {o v bs}

theorem not_short {size off : Nat} (h : off + size ≤ bs.length) : ¬ Short bs size off := by
  rw [Short]
  omega

/-- The walk meets the records of the chain and does not leave the section. -/
theorem AuxChain.walk {off : Nat} {ps : List Slot} (h : AuxChain o v bs off ps) :
    ∀ {fuel : Nat}, bs.length < off + fuel → auxPlaces o v bs fuel off = ps ∧ auxLeaves o v bs fuel off = false := by
  induction h with
  | @last off hin hzero =>
    intro fuel hfuel
    obtain ⟨fuel, rfl⟩ : ∃ k, fuel = k + 1 := ⟨fuel - 1, by omega⟩
    rw [auxPlaces, auxLeaves, if_neg (not_short hin), if_neg (not_short hin), if_pos hzero, if_pos hzero]
    exact ⟨rfl, rfl⟩
  | @next off ps hin hlink _ ih =>
    intro fuel hfuel
    obtain ⟨fuel, rfl⟩ : ∃ k, fuel = k + 1 := ⟨fuel - 1, by omega⟩
    obtain ⟨hplaces, hleaves⟩ := @ih fuel (by omega)
    rw [auxPlaces, auxLeaves, if_neg (not_short hin), if_neg (not_short hin), if_neg hlink, if_neg hlink, hplaces]
    exact ⟨rfl, hleaves⟩

theorem DefChain.walk {off : Nat} {ps : List Slot} (h : DefChain o v bs off ps) :
    ∀ {fuel : Nat}, bs.length < off + fuel → visited o v bs fuel off = ps ∧ encoded o v bs fuel off = ps := by
  induction h with
  | @last off aux hin haux hzero =>
    intro fuel hfuel
    obtain ⟨fuel, rfl⟩ : ∃ k, fuel = k + 1 := ⟨fuel - 1, by omega⟩
    obtain ⟨hplaces, hstay⟩ := @AuxChain.walk _ _ _ _ _ haux (bs.length + 1) (by omega)
    have hends : ¬ Goes o v bs off := fun h => h.more hzero
    rw [visited, encoded, if_neg (not_short hin), if_neg (not_short hin), if_neg hends, if_neg hends, auxsLeave, hstay,
      auxsOf, hplaces]
    simp only [Bool.false_eq_true, if_false, List.append_nil, and_self]
  | @next off aux ps hin haux hlink _ ih =>
    intro fuel hfuel
    obtain ⟨fuel, rfl⟩ : ∃ k, fuel = k + 1 := ⟨fuel - 1, by omega⟩
    obtain ⟨hplaces, hstay⟩ := @AuxChain.walk _ _ _ _ _ haux (bs.length + 1) (by omega)
    obtain ⟨hvisited, hencoded⟩ := @ih fuel (by omega)
    have hgoes : Goes o v bs off := ⟨not_short hin, hstay, hlink⟩
    rw [visited, encoded, if_neg (not_short hin), if_neg (not_short hin), if_pos hgoes, if_pos hgoes, auxsLeave, hstay,
      auxsOf, hplaces, hvisited, hencoded]
    simp only [Bool.false_eq_true, if_false, and_self]

theorem DefChain.nonempty (hv : v.Linked) {off : Nat} {ps : List Slot} (h : DefChain o v bs off ps) :
    0 < bs.length := by
  have hsize := hv.defAux.le
  cases h <;> omega

end Chains

/-! ## There and back -/

section RoundTrip

variable {n : Nat} {host : ByteOrder} {v : VersionType} {d s len : Nat} {ps : List Slot} {m : Mem n}

/-- The decoder swaps the records of the chains. -/
theorem chains_decode (hv : v.Linked) (hs : s + len ≤ n) (hd : d + len ≤ n) (hsep : Separate d len s len)
    (hchain : DefChain host.flip v (window m.bytes s len) 0 ps) (hapart : ps.Pairwise Slot.Apart) :
    ∃ m', cvtVersion host v false d s len m = .ok () m' ∧ Frame m m' d len ∧
      window m'.bytes d len = pasted swapFields (window m.bytes s len) (window m.bytes s len) ps := by
  have hl : (window m.bytes s len).length = len := length_window (by rw [m.length_eq]; exact hs)
  have hpos := hchain.nonempty hv
  obtain ⟨hvisited, -⟩ := @DefChain.walk _ _ _ _ _ hchain (len + 1) (by omega)
  obtain ⟨hwrites, hon⟩ := @decoder_visits host.flip v (window m.bytes s len) hv (len + 1) 0
    (by rw [hvisited]; exact agree_of_pairwise hapart)
  obtain ⟨m', hm', hframe, hwin⟩ := @cvtVersion_exact n d s len host v false hv host.flip rfl m hs hd
    (clean_walk hv hl (by rcases hsep with h | h <;> omega) hsep _ _) hon
  exact ⟨m', hm', hframe, by rw [hwin, hwrites, hvisited]⟩

/-- The encoder finds the records again, in the place of the decoded section or in another. -/
theorem chains_encode (hv : v.Linked) {bs : List UInt8} (hchain : DefChain host.flip v bs 0 ps)
    (hapart : ps.Pairwise Slot.Apart) (hd : d + bs.length ≤ n)
    (hwin : window m.bytes d bs.length = pasted swapFields bs bs ps) {d' : Nat}
    (hd' : d' + bs.length ≤ n) (hplace : d' = d ∨ Separate d' bs.length d bs.length) :
    ∃ m', cvtVersion host v true d' d bs.length m = .ok () m' ∧ Frame m m' d' bs.length ∧
      window m'.bytes d' bs.length = bs := by
  obtain ⟨hvisited, hencoded⟩ := @DefChain.walk _ _ _ _ _ hchain (bs.length + 1) (by omega)
  have hbounds : ∀ p : Slot, p ∈ ps → p.1 + p.size ≤ bs.length := by
    rw [← hvisited]
    exact visited_bounds _
  obtain ⟨hagain, hback⟩ := @version_reencodes host.flip v bs hv (by
    rw [Agreeing, hvisited]
    exact agree_of_pairwise hapart)
  rw [hvisited, ← hwin, flip_flip, length_window (by rw [m.length_eq]; exact hd)] at hagain hback
  have hclean : Clean d' d bs.length [] (touched host v (window m.bytes d bs.length) true (bs.length + 1) 0) := by
    by_cases hds : d' = d
    · subst hds
      exact clean_encoder hv _ (by rw [hagain]; exact hapart) (List.forall_mem_nil _)
    · exact clean_walk hv (length_window (by rw [m.length_eq]; exact hd)) hds (hplace.resolve_left hds) _ _
  obtain ⟨m', hm', hframe, hwin'⟩ := @cvtVersion_exact n d' d bs.length host v true hv host rfl m hd hd' hclean
    (advances_encode _ _)
  refine ⟨m', hm', hframe, hwin'.trans (hback.mpr fun p hp q hq => .inl ⟨p, ?_, hq⟩)⟩
  rw [hencoded, ← hvisited]
  exact hp

/-- Decoding swaps the fields of the records in the chains and copies every other byte, and encoding the result
gives the section back, in place or into another place. -/
theorem version_roundTrip (hv : v = verdef ∨ v = verneed) (hs : s + len ≤ n) (hd : d + len ≤ n)
    (hsep : Separate d len s len) (hchain : DefChain host.flip v (window m.bytes s len) 0 ps)
    (hapart : ps.Pairwise Slot.Apart) :
    ∃ m', cvtVersion host v false d s len m = .ok () m' ∧ Frame m m' d len ∧
      (∀ q ∈ ps, window m'.bytes (d + q.1) q.size = swapFields q.2 (window m.bytes (s + q.1) q.size)) ∧
      (∀ i < len, (∀ q ∈ ps, i < q.1 ∨ q.1 + q.size ≤ i) → m'.bytes[d + i]? = m.bytes[s + i]?) ∧
      ∀ d', d' + len ≤ n → d' = d ∨ Separate d' len d len →
        ∃ m'', cvtVersion host v true d' d len m' = .ok () m'' ∧ Frame m' m'' d' len ∧
          window m''.bytes d' len = window m.bytes s len := by
  have hv : v.Linked := by
    rcases hv with rfl | rfl
    · exact linked_verdef
    · exact linked_verneed
  have hl : (window m.bytes s len).length = len := length_window (by rw [m.length_eq]; exact hs)
  obtain ⟨hvisited, -⟩ := @DefChain.walk _ _ _ _ _ hchain (len + 1) (by omega)
  have hbounds : ∀ p ∈ ps, p.1 + p.size ≤ (window m.bytes s len).length := by
    rw [← hvisited]
    exact visited_bounds _
  obtain ⟨m', hm', hframe, hwin⟩ := chains_decode hv hs hd hsep hchain hapart
  refine ⟨m', hm', hframe, fun q hq => ?_, fun i hi hout => ?_, fun d' hd' hplace => ?_⟩
  · have hq' := hbounds q hq
    rw [hl] at hq'
    obtain ⟨before, after, rfl⟩ := List.append_of_mem hq
    obtain ⟨-, htail, -⟩ := List.pairwise_append.mp hapart
    rw [← window_window hq', ← window_window hq', hwin, pasted_append]
    have hlen := length_pasted keeps_swap before rfl fun p hp => hbounds p (List.mem_append_left _ hp)
    exact window_pasted_head keeps_swap hlen
      (fun p hp => hbounds p (List.mem_append_right _ hp)) (List.pairwise_cons.mp htail).1
  · have hbyte := getElem?_pasted_outside keeps_swap ps rfl hbounds hout
    rw [← hwin, getElem?_window, getElem?_window, if_pos hi, if_pos hi] at hbyte
    exact hbyte
  · have hback := @chains_encode n host v d ps m' hv _ hchain hapart
    rw [hl] at hback
    exact hback hd hwin hd' hplace

/-- Two definitions with two auxiliary records each, in the byte order that a little-endian host does not have, and as
many zeros behind them. Four bytes behind the first auxiliary record and behind the first definition are unused. -/
def twoVerdefs : Mem 160 :=
  ⟨[0, 1, 0, 0, 0, 1, 0, 2, 0, 0, 0, 9, 0, 0, 0, 20, 0, 0, 0, 44] ++
    [0, 0, 0, 5, 0, 0, 0, 12] ++ [1, 2, 3, 4] ++ [0, 0, 0, 6, 0, 0, 0, 0] ++ [5, 6, 7, 8] ++
    [0, 1, 0, 0, 0, 2, 0, 2, 0, 0, 0, 7, 0, 0, 0, 20, 0, 0, 0, 0] ++
    [0, 0, 0, 8, 0, 0, 0, 8] ++ [0, 0, 0, 3, 0, 0, 0, 0] ++ List.replicate 80 0,
    by decide +kernel⟩

theorem defChain_twoVerdefs : DefChain .big verdef (window twoVerdefs.bytes 0 80) 0
    [(0, verdef.defFields), (20, verdef.auxFields), (32, verdef.auxFields), (44, verdef.defFields),
      (64, verdef.auxFields), (72, verdef.auxFields)] := by
  have hfirst : AuxChain .big verdef (window twoVerdefs.bytes 0 80) 20 [(20, verdef.auxFields), (32, verdef.auxFields)] :=
    .next (by decide +kernel) (by decide +kernel)
      (@AuxChain.last _ _ _ 32 (by decide +kernel) (by decide +kernel))
  have hsecond : AuxChain .big verdef (window twoVerdefs.bytes 0 80) 64 [(64, verdef.auxFields), (72, verdef.auxFields)] :=
    .next (by decide +kernel) (by decide +kernel)
      (@AuxChain.last _ _ _ 72 (by decide +kernel) (by decide +kernel))
  have haux : 0 + link .big (window twoVerdefs.bytes 0 80) (0 + verdef.defAux) = 20 := by decide +kernel
  have haux' : 44 + link .big (window twoVerdefs.bytes 0 80) (44 + verdef.defAux) = 64 := by decide +kernel
  have hnext : 0 + link .big (window twoVerdefs.bytes 0 80) (0 + verdef.defNext) = 44 := by decide +kernel
  refine @DefChain.next _ _ _ 0 [(20, verdef.auxFields), (32, verdef.auxFields)] _ (by decide +kernel)
    (by rw [haux]; exact hfirst) (by decide +kernel) ?_
  rw [hnext]
  exact .last (by decide +kernel) (by rw [haux']; exact hsecond) (by decide +kernel)

theorem version_roundTrip_twoVerdefs : ∃ m' m'', cvtVersion .little verdef false 80 0 80 twoVerdefs = .ok () m' ∧
    cvtVersion .little verdef true 80 80 80 m' = .ok () m'' ∧
    window m''.bytes 80 80 = window twoVerdefs.bytes 0 80 := by
  obtain ⟨m', hm', -, -, -, hback⟩ := @version_roundTrip 160 .little verdef 80 0 80 _ twoVerdefs (.inl rfl) (by decide)
    (by decide) (.inr (by decide)) defChain_twoVerdefs (by decide)
  obtain ⟨m'', hm'', -, hsame⟩ := hback 80 (by decide) (.inl rfl)
  exact ⟨m', m'', hm', hm'', hsame⟩

end RoundTrip

end LibElf.Elfutils
