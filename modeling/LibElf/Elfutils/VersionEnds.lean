import LibElf.Elfutils.VersionXlate

/-!
# When the translation of a version section ends

The loops test the links in the source and follow the ones in the copy. In place these are the same
bytes, and an encoder takes the links from the source. A decoder with a separate destination follows the
link of a definition that it wrote before the auxiliary records, and these may have gone over it: where
they made it zero, the decoder comes back to the same definition for ever.

1. `Reached`, the definitions that a decoder comes to.
2. `cvtDefs_inPlace_ends`, and `decode_diverges`, at a definition whose link became zero.
3. `version_ends_iff`, and `not_version_ends_cleared`, an auxiliary record across the link.
-/

namespace LibElf.Elfutils

open Outcome Mem

section Reaching

variable (o : ByteOrder) (v : VersionType) (src : List UInt8)

/-- The definitions that the decoder comes to. -/
inductive Reached : Nat → Prop
  | start : Reached 0
  | next {off : Nat} : Reached off → Goes o v src off → Reached (off + defLink o v src off)

variable {o v src}

theorem advances_of_reached (hon : ∀ off, Reached o v src off → Goes o v src off → defLink o v src off ≠ 0)
    (fuel : Nat) : ∀ {off : Nat}, Reached o v src off → Advances o v src false fuel off := by
  induction fuel with
  | zero => intro off _; trivial
  | succ fuel ih => exact fun hreached hgoes => ⟨hon _ hreached hgoes, ih (hreached.next hgoes)⟩

end Reaching

/-! ## In place -/

section InPlace

variable {n : Nat} {host : ByteOrder} {v : VersionType} {encode : Bool} {s len off : Nat} {m : Mem n}

/-- A record is converted where it is. -/
theorem cvtFields_inside (fs : List Field) (hs : s + len ≤ n) (hin : off + packedSize fs ≤ len) :
    ∃ m', cvtFields fs (s + off) (s + off) m = .ok () m' ∧ Frame m m' (s + off) (packedSize fs) ∧
      window m'.bytes (s + off) (packedSize fs) = swapFields fs (window m.bytes (s + off) (packedSize fs)) :=
  cvtFields_exact fs (.inr (Nat.le_refl _)) (by omega) (by omega)

/-- A link in a record that was converted where it is. -/
theorem readWord_swapped {fs : List Field} {off' : Nat} {m' : Mem n} (hoff : WordAt fs off') (hs : s + len ≤ n)
    (hin : off + packedSize fs ≤ len) (hwin : window m'.bytes (s + off) (packedSize fs) =
      swapFields fs (window m.bytes (s + off) (packedSize fs))) :
    readWord host (s + off + off') m' = .ok (link host.flip m.bytes (s + off + off')) m' := by
  have hle := hoff.le
  have hrecord : (window m.bytes (s + off) (packedSize fs)).length = packedSize fs :=
    length_window (by rw [m.length_eq]; omega)
  rw [readWord_of_le host (by omega), ← window_window hle, hwin, hoff.swap host (Nat.le_of_eq hrecord.symm),
    window_window hle, link]

/-- One pass over an auxiliary record. -/
theorem cvtAux_step (hv : v.Linked) (hs : s + len ≤ n) (hin : off + packedSize v.auxFields ≤ len) :
    ∃ m' step, Frame m m' s len ∧ ∀ fuel, cvtAux host v encode s s len (fuel + 1) off m =
      if step = 0 then .ok false m' else cvtAux host v encode s s len fuel (off + step) m' := by
  obtain ⟨m', hm', hframe, hwin⟩ := cvtFields_inside v.auxFields (m := m) hs hin
  have hle := hv.auxNext.le
  have hsrc : readWord host (s + off + v.auxNext) m = .ok (link host m.bytes (s + off + v.auxNext)) m :=
    readWord_of_le host (by omega)
  have hswapped := @readWord_swapped n host s len off m v.auxFields v.auxNext m' hv.auxNext hs hin hwin
  refine ⟨m', if encode then link host m.bytes (s + off + v.auxNext) else link host.flip m.bytes (s + off + v.auxNext),
    hframe.mono (by omega) (by omega), fun fuel => ?_⟩
  rw [cvtAux, if_neg (by omega)]
  simp only [hsrc, hm', hswapped, bind_ok]
  -- the condition of the loop looks at the link that was swapped, an encoder follows the one before
  have hzero : link host.flip m.bytes (s + off + v.auxNext) = 0 ↔
      (if encode = true then link host m.bytes (s + off + v.auxNext)
        else link host.flip m.bytes (s + off + v.auxNext)) = 0 := by
    split <;> exact link_eq_zero _ _ _ _
  simp only [hzero]

/-- The loop over the auxiliary records ends. -/
theorem cvtAux_ends (hv : v.Linked) (hs : s + len ≤ n) (fuel : Nat) : ∀ {off : Nat} {m : Mem n}, 0 < fuel →
    len < off + fuel → ∃ returned m', cvtAux host v encode s s len fuel off m = .ok returned m' ∧ Frame m m' s len := by
  have hle := hv.auxNext.le
  induction fuel with
  | zero => intro off m h; omega
  | succ fuel ih =>
    intro off m _ hfuel
    by_cases hshort : len < off ∨ len - off < packedSize v.auxFields
    · rw [cvtAux, if_pos hshort]
      exact ⟨true, m, rfl, Frame.refl _ _ _⟩
    · obtain ⟨m₁, step, hframe, hpass⟩ := @cvtAux_step n host v encode s len off m hv hs (by omega)
      rw [hpass]
      by_cases hz : step = 0
      · rw [if_pos hz]
        exact ⟨false, m₁, rfl, hframe⟩
      · rw [if_neg hz]
        obtain ⟨returned, m', hm', hframe'⟩ := @ih (off + step) m₁ (by omega) (by omega)
        exact ⟨returned, m', hm', hframe.trans hframe'⟩

/-- One pass of an encoder. -/
theorem cvtDefs_encode_step (hv : v.Linked) (hs : s + len ≤ n) (hin : off + packedSize v.defFields ≤ len) :
    ∃ m' step, Frame m m' s len ∧ ∀ fuel, cvtDefs host v true s s len (fuel + 1) off m =
      if step = 0 then .ok () m' else cvtDefs host v true s s len fuel (off + step) m' := by
  have hshort : ¬ (len < off ∨ len - off < packedSize v.defFields) := by omega
  have haux := hv.defAux.le
  have hnext := hv.defNext.le
  obtain ⟨returned, m₁, hm₁, hframe₁⟩ := @cvtAux_ends n host v true s len hv hs ((len + 1) * 256 ^ n + 1)
    (off + ofBytes host (window m.bytes (s + off + v.defAux) 4)) m (Nat.succ_pos _) (len_lt_passes ..)
  cases returned with
  | true =>
    refine ⟨m₁, 0, hframe₁, fun fuel => ?_⟩
    rw [cvtDefs, if_neg hshort]
    simp only [if_true, bind_ok, readWord_of_le host (show s + off + v.defAux + 4 ≤ n by omega), hm₁]
  | false =>
    obtain ⟨m₂, hm₂, hframe₂, hwin₂⟩ := cvtFields_inside v.defFields (m := m₁) hs hin
    refine ⟨m₂, link host m₁.bytes (s + off + v.defNext), hframe₁.trans (hframe₂.mono (by omega) (by omega)),
      fun fuel => ?_⟩
    have hlink : readWord host (s + off + v.defNext) m₁ = .ok (link host m₁.bytes (s + off + v.defNext)) m₁ :=
      readWord_of_le host (by omega)
    have hswapped := @readWord_swapped n host s len off m₁ v.defFields v.defNext m₂ hv.defNext hs hin hwin₂
    rw [cvtDefs, if_neg hshort]
    simp only [if_true, bind_ok, readWord_of_le host (show s + off + v.defAux + 4 ≤ n by omega), hm₁,
      Bool.false_eq_true, if_false, hlink, hm₂, hswapped, link_eq_zero host.flip host]

/-- One pass of a decoder. -/
theorem cvtDefs_decode_step (hv : v.Linked) (hs : s + len ≤ n) (hin : off + packedSize v.defFields ≤ len) :
    ∃ m' step, Frame m m' s len ∧ ∀ fuel, cvtDefs host v false s s len (fuel + 1) off m =
      if step = 0 then .ok () m' else cvtDefs host v false s s len fuel (off + step) m' := by
  have hshort : ¬ (len < off ∨ len - off < packedSize v.defFields) := by omega
  have haux := hv.defAux.le
  have hnext := hv.defNext.le
  obtain ⟨m₁, hm₁, hframe₁, -⟩ := cvtFields_inside v.defFields (m := m) hs hin
  obtain ⟨returned, m₂, hm₂, hframe₂⟩ := @cvtAux_ends n host v false s len hv hs ((len + 1) * 256 ^ n + 1)
    (off + ofBytes host (window m₁.bytes (s + off + v.defAux) 4)) m₁ (Nat.succ_pos _) (len_lt_passes ..)
  have hframe : Frame m m₂ s len := (hframe₁.mono (by omega) (by omega)).trans hframe₂
  refine ⟨m₂, if returned then 0 else ofBytes host (window m₂.bytes (s + off + v.defNext) 4), hframe, fun fuel => ?_⟩
  rw [cvtDefs, if_neg hshort]
  simp only [Bool.false_eq_true, if_false, hm₁, bind_ok, readWord_of_le host (show s + off + v.defAux + 4 ≤ n by omega), hm₂]
  cases returned with
  | true => rfl
  | false => simp only [Bool.false_eq_true, if_false, bind_ok,
      readWord_of_le host (show s + off + v.defNext + 4 ≤ n by omega)]

/-- In place the loop over the definitions ends. -/
theorem cvtDefs_inPlace_ends (hv : v.Linked) (hs : s + len ≤ n) (fuel : Nat) : ∀ {off : Nat} {m : Mem n}, 0 < fuel →
    len < off + fuel → ∃ m', cvtDefs host v encode s s len fuel off m = .ok () m' ∧ Frame m m' s len := by
  have hle := hv.defNext.le
  induction fuel with
  | zero => intro off m h; omega
  | succ fuel ih =>
    intro off m _ hfuel
    by_cases hshort : len < off ∨ len - off < packedSize v.defFields
    · rw [cvtDefs, if_pos hshort]
      exact ⟨m, rfl, Frame.refl _ _ _⟩
    have hin : off + packedSize v.defFields ≤ len := by omega
    obtain ⟨m₁, step, hframe, hpass⟩ : ∃ m₁ step, Frame m m₁ s len ∧ ∀ fuel,
        cvtDefs host v encode s s len (fuel + 1) off m =
          if step = 0 then .ok () m₁ else cvtDefs host v encode s s len fuel (off + step) m₁ := by
      cases encode with
      | true => exact cvtDefs_encode_step hv hs hin
      | false => exact cvtDefs_decode_step hv hs hin
    rw [hpass]
    by_cases hz : step = 0
    · rw [if_pos hz]
      exact ⟨m₁, rfl, hframe⟩
    · rw [if_neg hz]
      obtain ⟨m', hm', hframe'⟩ := @ih (off + step) m₁ (by omega) (by omega)
      exact ⟨m', hm', hframe.trans hframe'⟩

end InPlace

/-! ## Runs of a decoder -/

section Runs

variable {n : Nat} {host : ByteOrder} {v : VersionType} {m₀ : Mem n} {d s len : Nat} (hv : v.Linked)
  (hds : d ≠ s) (hsep : Separate d len s len)

include hv hds hsep

/-- One pass at a definition that the decoder goes on from. -/
theorem decode_goes {off : Nat} {done : List Slot} {m : Mem n} (hm : Walking m₀ d s len done m)
    (hgoes : Goes host.flip v (window m₀.bytes s len) off) :
    ∃ done' m', Walking m₀ d s len done' m' ∧ ∀ fuel, cvtDefs host v false d s len (fuel + 1) off m =
      cvtDefs host v false d s len fuel (off + defLink host.flip v (window m₀.bytes s len) off) m' := by
  have hin : off + packedSize v.defFields ≤ len := by
    have h := hgoes.inside
    have hsize := hv.defAux.le
    rw [Short, hm.length_source] at h
    omega
  obtain ⟨m', hw, hpass⟩ := decode_pass hv rfl hm hin (clean_pass hv hm.length_source hds hsep hin)
  exact ⟨_, m', hw, fun fuel => by rw [hpass, if_pos hgoes]⟩

/-- The loop comes to every definition on its way, unless it gets no more passes. -/
theorem decode_reaches {off : Nat} (h : Reached host.flip v (window m₀.bytes s len) off) (fuel : Nat) {m : Mem n}
    (hm : Walking m₀ d s len [] m) : cvtDefs host v false d s len fuel 0 m = .stop .divergence ∨
      ∃ fuel' done' m', Walking m₀ d s len done' m' ∧
        cvtDefs host v false d s len fuel 0 m = cvtDefs host v false d s len fuel' off m' := by
  induction h with
  | start => exact .inr ⟨fuel, [], m, hm, rfl⟩
  | @next off _ hgoes ih =>
    rcases ih with hstop | ⟨fuel', done', m', hm', hrun⟩
    · exact .inl hstop
    · cases fuel' with
      | zero => exact .inl hrun
      | succ fuel' =>
        obtain ⟨done₁, m₁, hm₁, hpass⟩ := decode_goes hv hds hsep hm' hgoes
        exact .inr ⟨fuel', done₁, m₁, hm₁, hrun.trans (hpass fuel')⟩

/-- A definition whose link became zero is never left. -/
theorem decode_stuck {off : Nat} (hgoes : Goes host.flip v (window m₀.bytes s len) off)
    (hzero : defLink host.flip v (window m₀.bytes s len) off = 0) (fuel : Nat) :
    ∀ {done : List Slot} {m : Mem n}, Walking m₀ d s len done m →
      cvtDefs host v false d s len fuel off m = .stop .divergence := by
  induction fuel with
  | zero => intro done m _; rfl
  | succ fuel ih =>
    intro done m hm
    obtain ⟨done₁, m₁, hm₁, hpass⟩ := decode_goes hv hds hsep hm hgoes
    rw [hpass, hzero]
    exact ih hm₁

/-- So the loop does not end when it comes to one. -/
theorem decode_diverges {off : Nat} (h : Reached host.flip v (window m₀.bytes s len) off)
    (hgoes : Goes host.flip v (window m₀.bytes s len) off)
    (hzero : defLink host.flip v (window m₀.bytes s len) off = 0) (fuel : Nat) {m : Mem n}
    (hm : Walking m₀ d s len [] m) : cvtDefs host v false d s len fuel 0 m = .stop .divergence := by
  rcases decode_reaches hv hds hsep h fuel hm with hstop | ⟨fuel', done', m', hm', hrun⟩
  · exact hstop
  · exact hrun.trans (decode_stuck hv hds hsep hgoes hzero fuel' hm')

end Runs

/-! ## The functions -/

section Claim

variable {n : Nat} {host : ByteOrder} {v : VersionType} {encode : Bool} {d s len : Nat} {m : Mem n}

theorem linked_of_eq (hv : v = verdef ∨ v = verneed) : v.Linked := by
  rcases hv with rfl | rfl
  · exact linked_verdef
  · exact linked_verneed

theorem version_inPlace_ends (hv : v.Linked) (hs : s + len ≤ n) :
    ∃ m', cvtVersion host v encode s s len m = .ok () m' ∧ Frame m m' s len := by
  rw [cvtVersion]
  by_cases hz : len = 0
  · rw [if_pos hz]
    exact ⟨m, rfl, Frame.refl _ _ _⟩
  · rw [if_neg hz]
    obtain ⟨m₁, hm₁, hframe, -⟩ := memmove_exact (m := m) hs hs
    obtain ⟨m', hm', hframe'⟩ := @cvtDefs_inPlace_ends n host v encode s len hv hs ((len + 1) * 256 ^ n + 1) 0 m₁
      (Nat.succ_pos _) (len_lt_passes ..)
    rw [hm₁, bind_ok]
    exact ⟨m', hm', hframe.trans hframe'⟩

theorem version_ends (hv : v.Linked) (hs : s + len ≤ n) (hd : d + len ≤ n) (hplace : d = s ∨ Separate d len s len)
    (h : encode = true ∨ d = s ∨ ∀ off, Reached host.flip v (window m.bytes s len) off →
      Goes host.flip v (window m.bytes s len) off → defLink host.flip v (window m.bytes s len) off ≠ 0) :
    ∃ m', cvtVersion host v encode d s len m = .ok () m' ∧ Frame m m' d len := by
  by_cases hds : d = s
  · subst hds
    exact version_inPlace_ends hv hs
  · have hon : Advances (sourceOrder encode host) v (window m.bytes s len) encode (len + 1) 0 := by
      cases encode with
      | true => exact advances_encode _ _
      | false => exact advances_of_reached ((h.resolve_left (by decide)).resolve_left hds) _ .start
    obtain ⟨m', hm', hframe, -⟩ := cvtVersion_exact hv rfl hs hd
      (clean_walk hv (length_window (by rw [m.length_eq]; exact hs)) hds (hplace.resolve_left hds) _ _) hon
    exact ⟨m', hm', hframe⟩

/-- A definition that is reached and whose link became zero keeps the decoder going. -/
theorem version_diverges (hv : v.Linked) (hs : s + len ≤ n) (hd : d + len ≤ n) (hsep : Separate d len s len) {off : Nat}
    (hreached : Reached host.flip v (window m.bytes s len) off) (hgoes : Goes host.flip v (window m.bytes s len) off)
    (hzero : defLink host.flip v (window m.bytes s len) off = 0) :
    cvtVersion host v false d s len m = .stop .divergence := by
  have hle := hv.defNext.le
  have hz : len ≠ 0 := by
    have hin := hgoes.inside
    rw [Short, length_window (by rw [m.length_eq]; exact hs)] at hin
    omega
  obtain ⟨m₁, hm₁, hframe, hwin⟩ := memmove_exact (m := m) hs hd
  rw [cvtVersion, if_neg hz, hm₁, bind_ok]
  exact decode_diverges hv (by rcases hsep with h | h <;> omega) hsep hreached hgoes hzero _
    ⟨hs, hd, hframe, hwin, List.forall_mem_nil _⟩

/-- The translation ends, and writes to its destination only, if and only if it is an encoder, or in place, or no
auxiliary record makes the link zero that the decoder follows. It never does anything outside its ranges: the
only fault is that it does not end. -/
theorem version_ends_iff (hv : v = verdef ∨ v = verneed) (hs : s + len ≤ n) (hd : d + len ≤ n)
    (hplace : d = s ∨ Separate d len s len) :
    (∀ f, cvtVersion host v encode d s len m = .stop f → f = .divergence) ∧
      ((∃ m', cvtVersion host v encode d s len m = .ok () m' ∧ Frame m m' d len) ↔
        encode = true ∨ d = s ∨ ∀ off, Reached host.flip v (window m.bytes s len) off →
          Goes host.flip v (window m.bytes s len) off → defLink host.flip v (window m.bytes s len) off ≠ 0) := by
  have hlinked := linked_of_eq hv
  by_cases h : encode = true ∨ d = s ∨ ∀ off, Reached host.flip v (window m.bytes s len) off →
      Goes host.flip v (window m.bytes s len) off → defLink host.flip v (window m.bytes s len) off ≠ 0
  · obtain ⟨m', hm', hframe⟩ := version_ends hlinked hs hd hplace h
    exact ⟨fun f hf => (nomatch hm'.symm.trans hf), fun _ => h, fun _ => ⟨m', hm', hframe⟩⟩
  · obtain ⟨hdecode, hds, hstuck⟩ : encode = false ∧ d ≠ s ∧ ∃ off, Reached host.flip v (window m.bytes s len) off ∧
        Goes host.flip v (window m.bytes s len) off ∧ defLink host.flip v (window m.bytes s len) off = 0 := by
      simpa using h
    obtain ⟨off, hreached, hgoes, hzero⟩ := hstuck
    have hstop := version_diverges hlinked hs hd (hplace.resolve_left hds) hreached hgoes hzero
    subst hdecode
    refine ⟨fun f hf => (Outcome.stop.inj (hstop.symm.trans hf)).symm, ⟨?_, fun hor => absurd hor h⟩⟩
    rintro ⟨m', hm', -⟩
    exact nomatch hstop.symm.trans hm'

end Claim

/-- A definition at 0 with its auxiliary record at 13, across the link at 16. Only the first byte of the link is
not zero, and the last byte of the name that is written over it comes from there. -/
def clearedVerdef : Mem 42 :=
  ⟨[0, 1, 0, 0, 0, 1, 0, 1, 0, 0, 0, 0, 0, 0, 0, 13, 1, 0, 0, 0, 0] ++ List.replicate 21 0, by decide⟩

def linkedVerdefs : Mem 112 :=
  ⟨[0, 1, 0, 0, 0, 1, 0, 1, 0, 0, 0, 0, 0, 0, 0, 20, 0, 0, 0, 28] ++ [0, 0, 0, 5, 0, 0, 0, 0] ++
    [0, 1, 0, 0, 0, 2, 0, 1, 0, 0, 0, 0, 0, 0, 0, 20, 0, 0, 0, 0] ++ [0, 0, 0, 6, 0, 0, 0, 0] ++
    List.replicate 56 0, by decide⟩

theorem linkedVerdefs_advances (off : Nat) (h : Reached .big verdef (window linkedVerdefs.bytes 0 56) off) :
    (off = 0 ∨ off = 28) ∧ (Goes .big verdef (window linkedVerdefs.bytes 0 56) off →
      defLink .big verdef (window linkedVerdefs.bytes 0 56) off ≠ 0) := by
  have hplace : off = 0 ∨ off = 28 := by
    induction h with
    | start => exact .inl rfl
    | next _ hgoes ih =>
      rcases ih with rfl | rfl
      · exact .inr (by decide +kernel)
      · exact absurd hgoes (by decide +kernel)
  refine ⟨hplace, fun hgoes => ?_⟩
  rcases hplace with rfl | rfl
  · decide +kernel
  · exact absurd hgoes (by decide +kernel)

/-- Every encoder ends, also on the bytes of `clearedVerdef`, and a decoder does that comes to the second
definition. -/
theorem version_ends_iff_both :
    (∃ m', cvtVersion .little verdef true 21 0 21 clearedVerdef = .ok () m' ∧ Frame clearedVerdef m' 21 21) ∧
      ∃ m', cvtVersion .little verdef false 56 0 56 linkedVerdefs = .ok () m' ∧ Frame linkedVerdefs m' 56 56 :=
  ⟨(version_ends_iff (.inl rfl) (by decide) (by decide) (.inr (.inr (by decide)))).2.mpr (.inl rfl),
    (version_ends_iff (.inl rfl) (by decide) (by decide) (.inr (.inr (by decide)))).2.mpr
      (.inr (.inr fun off h => (linkedVerdefs_advances off h).2))⟩

/-- The link is zero in the copy when the decoder follows it. -/
theorem not_version_ends_cleared : ¬ ∃ m', cvtVersion .little verdef false 21 0 21 clearedVerdef = .ok () m' := by
  have hgoes : Goes .big verdef (window clearedVerdef.bytes 0 21) 0 :=
    ⟨by decide +kernel, by decide +kernel, by decide +kernel⟩
  have hstop := @version_diverges 42 .little verdef 21 0 21 clearedVerdef linked_verdef (by decide) (by decide)
    (.inr (by decide)) 0 .start hgoes (by decide +kernel)
  rintro ⟨m', hm'⟩
  exact nomatch hstop.symm.trans hm'

end LibElf.Elfutils
