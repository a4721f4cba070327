import LibElf.Elfutils.VersionXlate

/-!
# Encoding what was decoded of a version section

A decoder with a destination of its own takes every record from the source, however often it comes to one.
Where two members of the records are the same bytes or have none in common, every member is swapped in the
end, and the encoder finds the same links. It does not come back to a definition whose auxiliary records lead
out of the section.

1. `SwappedIn`, and `swapped_pasted`: what becomes of a member.
2. `visited` and `encoded`, the records that the links lead to and those that an encoder converts.
   `visited_again`: on the decoded section these are the same.
3. `version_reencodes`: when encoding gives the section back.
-/

namespace LibElf.Elfutils

open Mem

/-! ## Members in a copy -/

/-- A link is a member. -/
theorem WordAt.part {fs : List Field} {off : Nat} (h : WordAt fs off) (place : Nat) :
    (place + off, [number 3]) ∈ Slot.parts (place, fs) := by
  obtain ⟨pre, post, rfl, rfl⟩ := h
  exact part_mem pre (number 3) post place

section Copies

variable {src dst : List UInt8} {q : Slot}

/-- The record is swapped in `dst`. -/
def SwappedIn (src dst : List UInt8) (q : Slot) : Prop :=
  window dst q.1 q.size = swapFields q.2 (window src q.1 q.size)

/-- A link that is swapped, read in the other byte order. -/
theorem SwappedIn.link {off : Nat} (h : SwappedIn src dst (off, [number 3])) (hin : off + 4 ≤ src.length)
    (o : ByteOrder) : link o.flip dst off = link o src off := by
  have hw : window dst off 4 = swapFields [number 3] (window src off 4) := h
  have hword : WordAt [number 3] 0 := ⟨[], [], rfl, rfl⟩
  have hswap := @WordAt.swap [number 3] 0 hword o.flip (window src off 4)
    (by rw [length_window hin]; exact Nat.le_refl _)
  rw [window_window (by decide), flip_flip, Nat.add_zero] at hswap
  rw [Elfutils.link, Elfutils.link, ← hswap, hw]
  have hlen : (swapFields [number 3] (window src off 4)).length = 4 :=
    length_swapFields [number 3] (by rw [length_window hin]; exact Nat.le_refl _)
  rw [show window (swapFields [number 3] (window src off 4)) 0 4 = swapFields [number 3] (window src off 4) from by
    conv_rhs => rw [← window_full (swapFields [number 3] (window src off 4)), hlen]]

/-- The members of a record that is converted. -/
theorem swapped_part {p : Slot} (hp : p.1 + p.size ≤ src.length) (hdst : dst.length = src.length)
    (hq : q ∈ p.parts) : SwappedIn src (pasteOne swapFields src dst p) q := by
  obtain ⟨off, fs⟩ := p
  obtain ⟨pre, f, post, hfs, rfl⟩ := mem_partsFrom hq
  obtain rfl : fs = _ := hfs
  have hsize : Slot.size (off, pre ++ f :: post) = packedSize pre + (f.width + packedSize post) := by
    rw [Slot.size, packedSize_append, packedSize_cons]
  have hlen : (window src off (Slot.size (off, pre ++ f :: post))).length = packedSize (pre ++ f :: post) :=
    length_window hp
  have hpart := window_swapFields pre f post (Nat.le_of_eq hlen.symm)
  rw [← window_pasteOne_self keeps_swap hp hdst, window_window (by omega), window_window (by omega)] at hpart
  rw [SwappedIn, size_part, hpart]
  have hone : (window src (off + packedSize pre) f.width).length ≤ f.width := length_window_le ..
  rw [swapFields, swapFields, List.append_nil, List.take_of_length_le hone]

/-- A member stays swapped, whether a record that it belongs to is converted again or not. -/
theorem swapped_pasteOne {p : Slot} (hp : p.1 + p.size ≤ src.length) (hdst : dst.length = src.length)
    (hagree : ∀ b ∈ p.parts, q = b ∨ Slot.Apart q b) (h : SwappedIn src dst q) :
    SwappedIn src (pasteOne swapFields src dst p) q := by
  by_cases hq : q ∈ p.parts
  · exact swapped_part hp hdst hq
  · have hapart : ∀ b ∈ p.parts, Slot.Apart q b := fun b hb =>
      (hagree b hb).resolve_left fun heq => hq (heq ▸ hb)
    have hwin := window_pasted_part keeps_swap hdst (List.forall_mem_singleton.mpr hp)
      (List.forall_mem_singleton.mpr hapart)
    rw [SwappedIn]
    exact hwin.trans h

theorem swapped_pasted (ps : List Slot) : ∀ {dst : List UInt8}, dst.length = src.length →
    (∀ p ∈ ps, p.1 + p.size ≤ src.length) → (∀ p ∈ ps, ∀ b ∈ p.parts, q = b ∨ Slot.Apart q b) →
    (SwappedIn src dst q ∨ ∃ p ∈ ps, q ∈ p.parts) → SwappedIn src (pasted swapFields src dst ps) q := by
  induction ps with
  | nil => intro dst _ _ _ h; exact h.resolve_right (by simp)
  | cons p ps ih =>
    intro dst hdst hps hagree h
    have hp := hps p List.mem_cons_self
    refine ih (length_pasteOne keeps_swap hp hdst) (fun r hr => hps r (List.mem_cons_of_mem _ hr))
      (fun r hr => hagree r (List.mem_cons_of_mem _ hr)) ?_
    rcases h with h | ⟨r, hr, hq⟩
    · exact .inl (swapped_pasteOne hp hdst (hagree p List.mem_cons_self) h)
    · rcases List.mem_cons.mp hr with rfl | hr
      · exact .inl (swapped_part hp hdst hq)
      · exact .inr ⟨r, hr, hq⟩

end Copies

/-! ## The records of the chains -/

section Chains

variable (o : ByteOrder) (v : VersionType) (bs : List UInt8)

/-- The records that the links lead to, from `off` on. -/
def visited : Nat → Nat → List Slot
  | 0, _ => []
  | fuel + 1, off =>
    if Short bs (packedSize v.defFields) off then []
    else (off, v.defFields) :: auxsOf o v bs off ++
      if Goes o v bs off then visited fuel (off + link o bs (off + v.defNext)) else []

/-- Those that an encoder converts: all but a definition whose auxiliary records lead out of the section. -/
def encoded : Nat → Nat → List Slot
  | 0, _ => []
  | fuel + 1, off =>
    if Short bs (packedSize v.defFields) off then []
    else (if auxsLeave o v bs off then auxsOf o v bs off else (off, v.defFields) :: auxsOf o v bs off) ++
      if Goes o v bs off then encoded fuel (off + link o bs (off + v.defNext)) else []

/-- Any two members of the records that the links lead to are the same bytes or have none in common. -/
def Agreeing : Prop :=
  ∀ p ∈ visited o v bs (bs.length + 1) 0, ∀ q ∈ visited o v bs (bs.length + 1) 0, Agree p q

/-- Every member belongs to a record that an encoder converts, or is its own swap. -/
def Restores : Prop :=
  ∀ p ∈ visited o v bs (bs.length + 1) 0, ∀ q ∈ p.parts,
    (∃ r ∈ encoded o v bs (bs.length + 1) 0, q ∈ r.parts) ∨
      swapFields q.2 (window bs q.1 q.size) = window bs q.1 q.size

instance : Decidable (Agreeing o v bs) := by
  unfold Agreeing
  infer_instance

instance : Decidable (Restores o v bs) := by
  unfold Restores
  infer_instance

variable {o v bs}

theorem visited_bounds (fuel : Nat) : ∀ {off : Nat}, ∀ p ∈ visited o v bs fuel off, p.1 + p.size ≤ bs.length := by
  induction fuel with
  | zero => intro off p hp; cases hp
  | succ fuel ih =>
    intro off p hp
    rw [visited] at hp
    split at hp
    · cases hp
    · next hshort =>
      rcases List.mem_append.mp hp with hp | hp
      · rcases List.mem_cons.mp hp with rfl | hp
        · simp only [Short, not_or, Nat.not_lt] at hshort
          show off + packedSize v.defFields ≤ bs.length
          omega
        · exact auxsOf_bounds p hp
      · split at hp
        · exact ih p hp
        · cases hp

theorem encoded_subset (fuel : Nat) : ∀ {off : Nat}, ∀ p ∈ encoded o v bs fuel off, p ∈ visited o v bs fuel off := by
  induction fuel with
  | zero => intro off p hp; cases hp
  | succ fuel ih =>
    intro off p hp
    rw [encoded] at hp
    rw [visited]
    split at hp
    · cases hp
    · next hshort =>
      rw [if_neg hshort]
      rcases List.mem_append.mp hp with hp | hp
      · refine List.mem_append_left _ ?_
        split at hp
        · exact List.mem_cons_of_mem _ hp
        · exact hp
      · refine List.mem_append_right _ ?_
        split at hp
        · next hgoes =>
          rw [if_pos hgoes]
          exact ih p hp
        · cases hp

/-! ### The two walks -/

/-- The link that a decoder follows is the one in the source. -/
theorem defLink_eq (hv : v.Linked) {off : Nat} (hin : off + packedSize v.defFields ≤ bs.length)
    (hagree : ∀ p ∈ (off, v.defFields) :: auxsOf o v bs off, Agree (off, v.defFields) p) :
    defLink o v bs off = link o bs (off + v.defNext) := by
  have hnext := hv.defNext.le
  have hpart := hv.defNext.part off
  have hbounds : ∀ p : Slot, p ∈ (off, v.defFields) :: auxsOf o v bs off → p.1 + p.size ≤ bs.length :=
    List.forall_mem_cons.mpr ⟨hin, auxsOf_bounds⟩
  have hswapped := @swapped_pasted bs (off + v.defNext, [number 3]) _ bs rfl hbounds
    (fun p hp b hb => hagree p hp _ hpart b hb) (.inr ⟨_, List.mem_cons_self, hpart⟩)
  exact hswapped.link (by omega) o

/-- A decoder converts the records that the links lead to. -/
theorem decoder_visits (hv : v.Linked) (fuel : Nat) : ∀ {off : Nat},
    (∀ p ∈ visited o v bs fuel off, ∀ q ∈ visited o v bs fuel off, Agree p q) →
    writes (touched o v bs false fuel off) = visited o v bs fuel off ∧ Advances o v bs false fuel off := by
  induction fuel with
  | zero => intro off _; exact ⟨rfl, trivial⟩
  | succ fuel ih =>
    intro off hagree
    rw [visited] at hagree
    rw [touched, visited]
    by_cases hshort : Short bs (packedSize v.defFields) off
    · rw [if_pos hshort, if_pos hshort]
      exact ⟨rfl, fun hgoes => absurd hshort hgoes.inside⟩
    · rw [if_neg hshort] at hagree
      rw [if_neg hshort, if_neg hshort, passTouched, if_neg (by decide), writes_append, writes_cons_true, writes_map]
      by_cases hgoes : Goes o v bs off
      · rw [if_pos hgoes] at hagree
        have hin : off + packedSize v.defFields ≤ bs.length := by
          rw [Short] at hshort
          omega
        have hlink : onward o v bs false off = link o bs (off + v.defNext) := by
          rw [onward, if_neg (by decide)]
          exact defLink_eq hv hin fun p hp => hagree _ (List.mem_append_left _ List.mem_cons_self) p
            (List.mem_append_left _ hp)
        obtain ⟨hwrites, hon⟩ := @ih (off + link o bs (off + v.defNext)) fun p hp q hq =>
          hagree p (List.mem_append_right _ hp) q (List.mem_append_right _ hq)
        rw [if_pos hgoes, if_pos hgoes, hlink, hwrites]
        refine ⟨rfl, fun _ => ?_⟩
        rw [hlink]
        exact ⟨hgoes.more, hon⟩
      · rw [if_neg hgoes, if_neg hgoes]
        exact ⟨rfl, fun h => absurd h hgoes⟩

/-- An encoder converts the records in `encoded`, a definition after its auxiliary records. -/
theorem mem_encoder_writes (fuel : Nat) : ∀ {off : Nat} {r : Slot},
    r ∈ writes (touched o v bs true fuel off) ↔ r ∈ encoded o v bs fuel off := by
  induction fuel with
  | zero => intro off r; exact Iff.rfl
  | succ fuel ih =>
    intro off r
    rw [touched, encoded]
    split
    · exact Iff.rfl
    · rw [passTouched, if_pos rfl, onward, if_pos rfl]
      rw [writes_append, writes_append, writes_cons_false, writes_map, List.mem_append, List.mem_append (t := ite ..)]
      refine or_congr ?_ ?_
      · split
        · simp
        · rw [writes_cons_true, writes_nil, List.mem_append, List.mem_singleton, List.mem_cons, or_comm]
      · split
        · exact ih
        · exact Iff.rfl

end Chains

/-! ## Over what was decoded -/

section Again

variable {o : ByteOrder} {v : VersionType} {bs ds : List UInt8}

theorem short_iff (hlen : ds.length = bs.length) (size off : Nat) : Short ds size off ↔ Short bs size off := by
  rw [Short, Short, hlen]

/-- The members of the record are swapped in `ds`. -/
def PartsSwapped (bs ds : List UInt8) (p : Slot) : Prop := ∀ q ∈ p.parts, SwappedIn bs ds q

/-- A link in a record whose members are swapped. -/
theorem PartsSwapped.link {place : Nat} {fs : List Field} (h : PartsSwapped bs ds (place, fs))
    (hin : place + packedSize fs ≤ bs.length) {off : Nat} (hoff : WordAt fs off) :
    link o.flip ds (place + off) = link o bs (place + off) := by
  have hle := hoff.le
  exact (h _ (hoff.part place)).link (by omega) o

theorem aux_again (hv : v.Linked) (hlen : ds.length = bs.length) (fuel : Nat) : ∀ {off : Nat},
    (∀ p ∈ auxPlaces o v bs fuel off, PartsSwapped bs ds p) →
    auxPlaces o.flip v ds fuel off = auxPlaces o v bs fuel off ∧
      auxLeaves o.flip v ds fuel off = auxLeaves o v bs fuel off := by
  induction fuel with
  | zero => intro off _; exact ⟨rfl, rfl⟩
  | succ fuel ih =>
    intro off h
    rw [auxPlaces] at h
    rw [auxPlaces, auxPlaces, auxLeaves, auxLeaves]
    simp only [short_iff hlen]
    by_cases hshort : Short bs (packedSize v.auxFields) off
    · simp only [if_pos hshort, and_self]
    · rw [if_neg hshort] at h
      simp only [if_neg hshort]
      have hin : off + packedSize v.auxFields ≤ bs.length := by
        rw [Short, not_or] at hshort
        omega
      have hnext : link o.flip ds (off + v.auxNext) = link o bs (off + v.auxNext) :=
        PartsSwapped.link (h _ List.mem_cons_self) hin hv.auxNext
      rw [hnext]
      by_cases hz : link o bs (off + v.auxNext) = 0
      · simp only [if_pos hz, and_self]
      · simp only [if_neg hz] at h ⊢
        obtain ⟨hplaces, hleaves⟩ := ih fun q hq => h q (List.mem_cons_of_mem _ hq)
        exact ⟨by rw [hplaces], hleaves⟩

/-- A walk over the swapped records, in the other byte order, meets the same ones. -/
theorem visited_again (hv : v.Linked) (hlen : ds.length = bs.length) (fuel : Nat) : ∀ {off : Nat},
    (∀ p ∈ visited o v bs fuel off, PartsSwapped bs ds p) →
    visited o.flip v ds fuel off = visited o v bs fuel off ∧ encoded o.flip v ds fuel off = encoded o v bs fuel off := by
  induction fuel with
  | zero => intro off _; exact ⟨rfl, rfl⟩
  | succ fuel ih =>
    intro off h
    rw [visited] at h
    rw [visited, visited, encoded, encoded]
    simp only [short_iff hlen]
    by_cases hshort : Short bs (packedSize v.defFields) off
    · simp only [if_pos hshort, and_self]
    · rw [if_neg hshort] at h
      simp only [if_neg hshort]
      have hin : off + packedSize v.defFields ≤ bs.length := by
        rw [Short, not_or] at hshort
        omega
      have hdef : PartsSwapped bs ds (off, v.defFields) := h _ (List.mem_append_left _ List.mem_cons_self)
      have haux : link o.flip ds (off + v.defAux) = link o bs (off + v.defAux) := hdef.link hin hv.defAux
      have hnext : link o.flip ds (off + v.defNext) = link o bs (off + v.defNext) := hdef.link hin hv.defNext
      obtain ⟨hplaces, hleaves⟩ := @aux_again o v bs ds hv hlen (bs.length + 1)
        (off + link o bs (off + v.defAux)) fun q hq => h q (List.mem_append_left _ (List.mem_cons_of_mem _ hq))
      have hauxs : auxsOf o.flip v ds off = auxsOf o v bs off := by
        rw [auxsOf, hlen, haux, hplaces, auxsOf]
      have hleave : auxsLeave o.flip v ds off = auxsLeave o v bs off := by
        rw [auxsLeave, hlen, haux, hleaves, auxsLeave]
      have hgoes : Goes o.flip v ds off ↔ Goes o v bs off := by
        refine ⟨fun h => ⟨hshort, hleave ▸ h.stays, hnext ▸ h.more⟩, fun h => ⟨?_, hleave.trans h.stays, ?_⟩⟩
        · rwa [short_iff hlen]
        · rw [hnext]
          exact h.more
      rw [hauxs, hleave, hnext]
      simp only [hgoes]
      by_cases hg : Goes o v bs off
      · simp only [if_pos hg] at h ⊢
        obtain ⟨hvisited, hencoded⟩ := @ih (off + link o bs (off + v.defNext)) fun q hq =>
          h q (List.mem_append_right _ hq)
        rw [hvisited, hencoded]
        exact ⟨rfl, rfl⟩
      · simp only [if_neg hg, and_self]

/-- The records of the section, decoded, are swapped. -/
theorem parts_decoded (hagree : Agreeing o v bs) : ∀ p ∈ visited o v bs (bs.length + 1) 0,
    PartsSwapped bs (pasted swapFields bs bs (visited o v bs (bs.length + 1) 0)) p := fun p hp q hq =>
  swapped_pasted _ rfl (visited_bounds _) (fun r hr b hb => hagree p hp r hr q hq b hb) (.inr ⟨p, hp, hq⟩)

/-- Swapping back some of the records gives the bytes back when the other members are their own swaps. -/
theorem pasted_back {ps es : List Slot} (hagree : ∀ p ∈ ps, ∀ q ∈ ps, Agree p q)
    (hps : ∀ p ∈ ps, p.1 + p.size ≤ bs.length) (hsub : ∀ r ∈ es, r ∈ ps) (hlen : ds.length = bs.length)
    (hswapped : ∀ p ∈ ps, PartsSwapped bs ds p)
    (hother : ∀ i, (∀ p ∈ ps, i < p.1 ∨ p.1 + p.size ≤ i) → ds[i]? = bs[i]?) :
    pasted swapFields ds ds es = bs ↔ ∀ p ∈ ps, ∀ q ∈ p.parts,
      (∃ r ∈ es, q ∈ r.parts) ∨ swapFields q.2 (window bs q.1 q.size) = window bs q.1 q.size := by
  have hes : ∀ r ∈ es, r.1 + r.size ≤ ds.length := fun r hr => by
    rw [hlen]
    exact hps r (hsub r hr)
  -- a member of none of the records that are swapped back
  have hleft : ∀ p ∈ ps, ∀ q ∈ p.parts, (¬ ∃ r ∈ es, q ∈ r.parts) →
      window (pasted swapFields ds ds es) q.1 q.size = swapFields q.2 (window bs q.1 q.size) := by
    intro p hp q hq hnone
    rw [← hswapped p hp q hq]
    refine window_pasted_part keeps_swap rfl hes fun r hr b hb => ?_
    exact (hagree p hp r (hsub r hr) q hq b hb).resolve_left fun heq => hnone ⟨r, hr, heq ▸ hb⟩
  constructor
  · intro h p hp q hq
    by_cases hr : ∃ r ∈ es, q ∈ r.parts
    · exact .inl hr
    · have hw := hleft p hp q hq hr
      rw [h] at hw
      exact .inr hw.symm
  · intro h
    -- the members of the records, one by one
    have hpart : ∀ p ∈ ps, ∀ q ∈ p.parts, window (pasted swapFields ds ds es) q.1 q.size = window bs q.1 q.size := by
      intro p hp q hq
      by_cases hr : ∃ r ∈ es, q ∈ r.parts
      · have hin : q.1 + q.size ≤ bs.length := by
          have hle := (part_bounds hq).2
          have hple := hps p hp
          omega
        have hback := @swapped_pasted ds q es ds rfl hes
          (fun r hr' b hb => hagree p hp r (hsub r hr') q hq b hb) (.inr hr)
        have hsize : (window bs q.1 q.size).length = packedSize q.2 := length_window hin
        rw [SwappedIn, hswapped p hp q hq, swapFields_swapFields q.2 hsize] at hback
        exact hback
      · exact (hleft p hp q hq hr).trans ((h p hp q hq).resolve_left hr)
    apply List.ext_getElem?
    intro i
    by_cases hi : ∀ p ∈ ps, i < p.1 ∨ p.1 + p.size ≤ i
    · rw [getElem?_pasted_outside keeps_swap es rfl hes fun r hr => hi r (hsub r hr), hother i hi]
    · obtain ⟨p, hp, hin⟩ : ∃ p ∈ ps, ¬ (i < p.1 ∨ p.1 + p.size ≤ i) := by simpa using hi
      obtain ⟨q, hq, hlo, hhi⟩ := @exists_part p.2 p.1 i (by omega)
        (by have : p.size = packedSize p.2 := rfl; omega)
      have hbyte := congrArg (·[i - q.1]?) (hpart p hp q hq)
      simp only [getElem?_window] at hbyte
      rwa [if_pos (by omega), if_pos (by omega), Nat.add_sub_cancel' hlo] at hbyte

/-- Encoding the decoded section gives it back when every member that an encoder does not come back to is its
own swap. -/
theorem version_reencodes (hv : v.Linked) (hagree : Agreeing o v bs) :
    let ds := pasted swapFields bs bs (visited o v bs (bs.length + 1) 0)
    visited o.flip v ds (ds.length + 1) 0 = visited o v bs (bs.length + 1) 0 ∧
      (pasted swapFields ds ds (writes (touched o.flip v ds true (ds.length + 1) 0)) = bs ↔ Restores o v bs) := by
  intro ds
  have hbounds : ∀ p ∈ visited o v bs (bs.length + 1) 0, p.1 + p.size ≤ bs.length := visited_bounds _
  have hlen : ds.length = bs.length := length_pasted keeps_swap _ rfl hbounds
  have hswapped := parts_decoded hagree
  obtain ⟨hvisited, hencoded⟩ := @visited_again o v bs ds hv hlen (bs.length + 1) 0 hswapped
  rw [hlen]
  refine ⟨hvisited, ?_⟩
  have hmem : ∀ {r : Slot}, r ∈ writes (touched o.flip v ds true (bs.length + 1) 0) ↔
      r ∈ encoded o v bs (bs.length + 1) 0 := by
    intro r
    rw [mem_encoder_writes, hencoded]
  rw [pasted_back hagree hbounds (fun r hr => encoded_subset _ r (hmem.mp hr)) hlen hswapped
    fun i hi => getElem?_pasted_outside keeps_swap _ rfl hbounds hi]
  simp only [hmem]
  exact Iff.rfl

/-- Two definitions that have the same auxiliary record, in the byte order that a little-endian host does not have. -/
def sharedVerdefs : List UInt8 :=
  [0, 1, 0, 0, 0, 1, 0, 1, 0, 0, 0, 9, 0, 0, 0, 40, 0, 0, 0, 20] ++
    [0, 1, 0, 0, 0, 2, 0, 1, 0, 0, 0, 7, 0, 0, 0, 20, 0, 0, 0, 0] ++ [0, 0, 0, 5, 0, 0, 0, 0] ++ List.replicate 12 0

example : Agreeing .big verdef sharedVerdefs ∧ Restores .big verdef sharedVerdefs := ⟨by decide +kernel, by decide +kernel⟩

end Again

/-! ## In place -/

section InPlace

variable {o : ByteOrder} {v : VersionType} {bs : List UInt8} {d len : Nat}

theorem clean_map {ps : List Slot} (hsep : ps.Pairwise Slot.Apart) : ∀ {done : List Slot},
    (∀ p ∈ done, ∀ q ∈ ps, Slot.Apart p q) → Clean d d len done (ps.map (·, true)) := by
  induction ps with
  | nil => intro done _; trivial
  | cons p ps ih =>
    intro done hdone
    obtain ⟨hfirst, hrest⟩ := List.pairwise_cons.mp hsep
    refine ⟨?_, ih hrest fun q hq r hr => ?_⟩
    · rw [Unwritten, if_pos rfl]
      exact fun q hq => hdone q hq p List.mem_cons_self
    · rcases List.mem_append.mp hq with hq | hq
      · exact hdone q hq r (List.mem_cons_of_mem _ hr)
      · rw [List.mem_singleton.mp hq]
        exact hfirst r hr

/-- An encoder that works in place does not come to bytes that it wrote, when no two records overlap. -/
theorem clean_encoder (hv : v.Linked) (fuel : Nat) : ∀ {off : Nat} {done : List Slot},
    (visited o v bs fuel off).Pairwise Slot.Apart → (∀ p ∈ done, ∀ q ∈ visited o v bs fuel off, Slot.Apart p q) →
    Clean d d len done (touched o v bs true fuel off) := by
  induction fuel with
  | zero => intro off done _ _; trivial
  | succ fuel ih =>
    intro off done hsep hdone
    rw [visited] at hsep hdone
    rw [touched]
    by_cases hshort : Short bs (packedSize v.defFields) off
    · rw [if_pos hshort]
      trivial
    · rw [if_neg hshort] at hsep hdone ⊢
      obtain ⟨hown, hrest, hacross⟩ := List.pairwise_append.mp hsep
      obtain ⟨hfirst, hauxs⟩ := List.pairwise_cons.mp hown
      have hlink := hv.defAux.le
      rw [passTouched, if_pos rfl, onward, if_pos rfl, clean_append, clean_append]
      simp only [writes_append, writes_cons_false, writes_map]
      refine ⟨⟨⟨?_, clean_map hauxs fun p hp q hq => hdone p hp q (List.mem_append_left _ (List.mem_cons_of_mem _ hq))⟩,
        ?_⟩, ?_⟩
      · -- the link to the auxiliary records lies in the definition
        rw [Unwritten, if_pos rfl]
        intro p hp
        have hdef : Separate p.1 p.size off (packedSize v.defFields) :=
          hdone p hp _ (List.mem_append_left _ List.mem_cons_self)
        show Separate p.1 p.size (off + v.defAux) 4
        rcases hdef with h | h <;> [left; right] <;> omega
      · split
        · trivial
        · refine ⟨?_, trivial⟩
          rw [Unwritten, if_pos rfl]
          intro p hp
          rcases List.mem_append.mp hp with hp | hp
          · exact hdone p hp _ (List.mem_append_left _ List.mem_cons_self)
          · exact (hfirst p hp).symm
      · by_cases hgoes : Goes o v bs off
        · rw [if_pos hgoes] at hrest hacross hdone ⊢
          refine ih hrest fun p hp q hq => ?_
          rcases List.mem_append.mp hp with hp | hp
          · exact hdone p hp q (List.mem_append_right _ hq)
          · refine hacross p ?_ q hq
            rcases List.mem_append.mp hp with hp | hp
            · exact List.mem_cons_of_mem _ hp
            · rw [hgoes.stays] at hp
              rw [List.mem_singleton.mp hp]
              exact List.mem_cons_self
        · rw [if_neg hgoes]
          trivial

end InPlace

end LibElf.Elfutils
