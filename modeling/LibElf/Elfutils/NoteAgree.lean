import LibElf.Elfutils.GetNote
import LibElf.Elfutils.RoundTrip

/-!
# Reading translated notes

The converter and `gelf_getnote` find the notes of a section each on its own. The converter adds up
lengths from the start of each note and rounds the sums, the other adds to the offset in the section and
rounds the length of the descriptor for itself, and both round with a mask of 32 bits.

1. `noteExtents`, the notes of the converter, and `swapAt_noteExtents`: their headers are swapped.
2. `SameEnd`, and `sameEnd_iff`: both say that a note ends at the same offset.
3. `noteVisits_iff`: the loop over the translated section is given the notes of the converter.
4. `NotesAgree` and `notesAgree_iff`; `not_notesAgree_truncated`, a header that only the readers of the
   translated section take for a note.
-/

namespace LibElf.Elfutils

open Outcome Mem

/-! ## The notes of the converter -/

/-- Where notes of these lengths start and end. -/
def noteExtents : Nat → List Nat → List (Nat × Nat)
  | _, [] => []
  | off, k :: ks => (off, off + k) :: noteExtents (off + k) ks

/-- Where a note starts, and where the next one does. -/
def Visit.extent (u : Visit) : Nat × Nat := (u.off, u.next)

def swapOne (bs : List UInt8) (p : Slot) : List UInt8 :=
  splice bs p.1 (swapFields p.2 (window bs p.1 p.size))

def swapAt (bs : List UInt8) (ps : List Slot) : List UInt8 := ps.foldl swapOne bs

def headerAt (e : Nat × Nat) : Slot := (e.1, nhdrFields)

theorem swapOne_headerAt (pre : List UInt8) {bs : List UInt8} (hbs : 12 ≤ bs.length) (next : Nat) :
    swapOne (pre ++ bs) (headerAt (pre.length, next)) = pre ++ swapHead nhdrFields bs := by
  have hwin : window (pre ++ bs) pre.length 12 = bs.take 12 := window_append_right pre bs 0 12
  have hlen : (swapFields nhdrFields bs).length = 12 := length_swapFields nhdrFields hbs
  have htake : swapFields nhdrFields (bs.take 12) = swapFields nhdrFields bs := swapFields_take nhdrFields bs (Nat.le_refl _)
  calc splice (pre ++ bs) pre.length (swapFields nhdrFields (window (pre ++ bs) pre.length 12))
      = splice (pre ++ bs) pre.length (swapFields nhdrFields bs) := by rw [hwin, htake]
    _ = pre ++ swapHead nhdrFields bs := by
      rw [splice, hlen, List.take_left, ← List.drop_drop, List.drop_left, List.append_assoc]
      rfl

theorem swapHead_take {bs : List UInt8} {k : Nat} (hk : 12 ≤ k) (hkl : k ≤ bs.length) :
    swapHead nhdrFields (bs.take k) ++ bs.drop k = swapHead nhdrFields bs := by
  have htake : swapFields nhdrFields (bs.take k) = swapFields nhdrFields bs := swapFields_take nhdrFields bs hk
  have hdrop : (bs.take k).drop 12 ++ bs.drop k = bs.drop 12 := by
    rw [← List.drop_append_of_le_length (by rw [List.length_take]; omega), List.take_append_drop]
  rw [swapHead, htake, packedSize_nhdr, List.append_assoc, hdrop]
  rfl

/-- The headers of the notes of the converter are swapped, and nothing else. -/
theorem swapAt_noteExtents {o : ByteOrder} {align : Nat} (fuel : Nat) : ∀ pre bs : List UInt8,
    swapAt (pre ++ bs) ((noteExtents pre.length (noteSpans o align fuel bs)).map headerAt) =
      pre ++ swapNotes o align fuel bs := by
  induction fuel with
  | zero => intro pre bs; rfl
  | succ fuel ih =>
    intro pre bs
    rw [noteSpans]
    by_cases hshort : bs.length < 12
    · rw [if_pos hshort, swapNotes_end (.inl hshort)]
      rfl
    · rw [if_neg hshort]
      cases hspan : noteSpan o align bs with
      | none =>
        rw [swapNotes_end (.inr hspan)]
        rfl
      | some k =>
        obtain ⟨hk, hkl⟩ := noteSpan_bounds hspan
        have hlen := length_swapHead_take hk hkl
        calc swapAt (swapOne (pre ++ bs) (headerAt (pre.length, pre.length + k)))
              ((noteExtents (pre.length + k) (noteSpans o align fuel (bs.drop k))).map headerAt)
            = swapAt ((pre ++ swapHead nhdrFields (bs.take k)) ++ bs.drop k)
                ((noteExtents (pre ++ swapHead nhdrFields (bs.take k)).length
                  (noteSpans o align fuel (bs.drop k))).map headerAt) := by
              rw [swapOne_headerAt pre (by omega), List.length_append, hlen, List.append_assoc, swapHead_take hk hkl]
          _ = (pre ++ swapHead nhdrFields (bs.take k)) ++ swapNotes o align fuel (bs.drop k) := ih _ _
          _ = pre ++ swapNotes o align (fuel + 1) bs := by rw [swapNotes_whole hspan, List.append_assoc]

/-! ## Where a note ends -/

/-- A note of the converter ends where `gelf_getnote` says: its name ends in the section, its descriptor is not
rounded to nothing, and the end of the name wraps in the one when the end of the note wraps in the other. -/
structure SameEnd (o : ByteOrder) (align : Nat) (src : List UInt8) (off : Nat) : Prop where
  name : wrap (off + 12 + ofBytes o (window src off 4)) ≤ src.length
  descsz : noteAlign align (ofBytes o (window src (off + 4) 4)) = 0 → ofBytes o (window src (off + 4) 4) = 0
  carry : (off + noteAlign align (12 + ofBytes o (window src off 4))) / 2 ^ 32 =
    (noteAlign align (12 + ofBytes o (window src off 4)) +
      noteAlign align (ofBytes o (window src (off + 4) 4))) / 2 ^ 32

/-- Rounding behind a multiple. -/
theorem noteAlign_add {align x n : Nat} (ha : align = 4 ∨ align = 8) (hx : align ∣ x) :
    noteAlign align (x + n) = (x + noteAlign align n) % 2 ^ 32 := by
  obtain ⟨y, rfl⟩ := hx
  unfold noteAlign
  rcases ha with rfl | rfl <;> omega

/-- The length of a whole note. -/
theorem noteSpan_eq {o : ByteOrder} {align k : Nat} {bs : List UInt8} (ha : align = 4 ∨ align = 8)
    (h : noteSpan o align bs = some k) :
    k = (noteAlign align (12 + ofBytes o (window bs 0 4)) + noteAlign align (ofBytes o (window bs 4 4))) % 2 ^ 32 := by
  unfold noteSpan at h
  extract_lets nameEnd at h
  split at h
  · cases h
  · split at h
    · cases h
    · exact (Option.some.inj h).symm.trans (noteAlign_add ha (dvd_noteAlign _ _))

/-- Notes end padded. -/
theorem dvd_noteSpan {o : ByteOrder} {align k : Nat} {bs : List UInt8} (h : noteSpan o align bs = some k) : align ∣ k := by
  unfold noteSpan at h
  extract_lets nameEnd at h
  split at h
  · cases h
  · split at h
    · cases h
    · rw [← Option.some.inj h]
      exact dvd_noteAlign _ _

section Agree

variable {host : ByteOrder} {d : NoteData} {src : List UInt8} {off k : Nat}

/-- The header of a note was swapped. -/
structure HeaderSwapped (host : ByteOrder) (d : NoteData) (src : List UInt8) (off : Nat) : Prop where
  namesz : (d.nhdr host off).nNamesz = ofBytes host.flip (window src off 4)
  descsz : (d.nhdr host off).nDescsz = ofBytes host.flip (window src (off + 4) 4)

/-- The two agree on the end of a note if and only if `SameEnd` holds. -/
theorem sameEnd_iff (hsize : d.dSize = src.length) (hoff : d.align ∣ off) (hswap : HeaderSwapped host d src off)
    (hspan : noteSpan host.flip d.align (src.drop off) = some k) :
    d.Taken host off ∧ d.nextAt host off = off + k ↔ SameEnd host.flip d.align src off := by
  obtain ⟨hk, hkl⟩ := noteSpan_bounds hspan
  rw [List.length_drop] at hkl
  have hspan := noteSpan_eq d.align_eq hspan
  rw [window_drop, window_drop, Nat.add_zero] at hspan
  have hnext : d.nextAt host off =
      (off + noteAlign d.align (12 + ofBytes host.flip (window src off 4))) % 2 ^ 32 +
        noteAlign d.align (ofBytes host.flip (window src (off + 4) 4)) := by
    rw [NoteData.nextAt, NoteData.descAt, NoteData.nameEnd, hswap.namesz, hswap.descsz, Nat.add_assoc,
      noteAlign_add d.align_eq hoff]
  have hend : d.nameEnd host off = off + 12 + ofBytes host.flip (window src off 4) := by
    rw [NoteData.nameEnd, hswap.namesz]
  constructor
  · rintro ⟨htaken, hsame⟩
    refine ⟨?_, ?_, ?_⟩
    · rw [← hsize, ← hend]
      exact htaken.name
    · rw [← hswap.descsz]
      exact htaken.descsz
    · omega
  · rintro ⟨hname, hdescsz, hcarry⟩
    have hsame : d.nextAt host off = off + k := by omega
    refine ⟨⟨by omega, ?_, by omega, ?_, by omega⟩, hsame⟩
    · rw [hsize, hend]
      exact hname
    · rw [hswap.descsz]
      exact hdescsz

/-- The translated section from a note on. -/
theorem headerSwapped {fuel : Nat} (hbuf : d.buf.drop off = swapNotes host.flip d.align (fuel + 1) (src.drop off))
    (hspan : noteSpan host.flip d.align (src.drop off) = some k) : HeaderSwapped host d src off := by
  obtain ⟨hk, hkl⟩ := noteSpan_bounds hspan
  rw [swapNotes_whole hspan] at hbuf
  have hword : ∀ i, i = 0 ∨ i = 4 → ofBytes host (window (window d.buf off 12) i 4) =
      ofBytes host.flip (window src (off + i) 4) := by
    intro i hi
    rw [window_window (by omega), ← window_drop, hbuf, ← window_drop]
    have h := @ofBytes_swapHead_nhdr host.flip _ (swapNotes host.flip d.align fuel ((src.drop off).drop k)) k hk hkl i hi
    rwa [flip_flip] at h
  exact ⟨hword 0 (.inl rfl), hword 4 (.inr rfl)⟩

section Loop

variable (ht : d.dType = .nhdr ∨ d.dType = .nhdr8)

include ht

/-- The loop is given no note. -/
theorem visits_nil (v : NoteRefs) :
    (∃ f visits, noteVisits host d f off v = some visits ∧ visits.map Visit.extent = []) ↔ ¬ d.Taken host off := by
  constructor
  · rintro ⟨f, visits, hrun, hnil⟩ htaken
    obtain rfl := List.map_eq_nil_iff.mp hnil
    cases f with
    | zero => cases hrun
    | succ f =>
      rw [NoteData.noteVisits_taken ht htaken] at hrun
      obtain ⟨_, _, hcons⟩ := Option.map_eq_some_iff.mp hrun
      cases hcons
  · exact fun h => ⟨1, [], NoteData.noteVisits_not_taken ht h 0 v, rfl⟩

/-- The loop is given a note, and then others. -/
theorem visits_cons (v : NoteRefs) (e : Nat × Nat) (es : List (Nat × Nat)) :
    (∃ f visits, noteVisits host d f off v = some visits ∧ visits.map Visit.extent = e :: es) ↔
      (d.Taken host off ∧ (off, d.nextAt host off) = e) ∧
        ∃ f visits, noteVisits host d f e.2 (d.visitAt host off).refs = some visits ∧ visits.map Visit.extent = es := by
  constructor
  · rintro ⟨f, visits, hrun, hcons⟩
    cases f with
    | zero => cases hrun
    | succ f =>
      by_cases htaken : d.Taken host off
      · rw [NoteData.noteVisits_taken ht htaken] at hrun
        obtain ⟨later, hlater, rfl⟩ := Option.map_eq_some_iff.mp hrun
        obtain ⟨rfl, hes⟩ := List.cons.inj hcons
        exact ⟨⟨htaken, rfl⟩, f, later, hlater, hes⟩
      · rw [NoteData.noteVisits_not_taken ht htaken] at hrun
        cases hrun
        cases hcons
  · rintro ⟨⟨htaken, rfl⟩, f, later, hlater, hes⟩
    refine ⟨f + 1, d.visitAt host off :: later, ?_, congrArg _ hes⟩
    rw [NoteData.noteVisits_taken ht htaken, hlater]
    rfl

/-- The loop over the translated section is given the notes of the converter if and only if both say of each that
it ends at the same offset, and nothing is taken for a note behind the last. -/
theorem noteVisits_iff (hsize : d.dSize = src.length) (fuel : Nat) :
    ∀ {off : Nat}, d.align ∣ off → off ≤ src.length → src.length < off + fuel →
      d.buf.drop off = swapNotes host.flip d.align fuel (src.drop off) → ∀ v,
      ((∃ f visits, noteVisits host d f off v = some visits ∧
        visits.map Visit.extent = noteExtents off (noteSpans host.flip d.align fuel (src.drop off))) ↔
      (∀ e ∈ noteExtents off (noteSpans host.flip d.align fuel (src.drop off)), SameEnd host.flip d.align src e.1) ∧
        ¬ d.Taken host (off + (noteSpans host.flip d.align fuel (src.drop off)).sum)) := by
  induction fuel with
  | zero => intro off _ _ h; omega
  | succ fuel ih =>
    intro off hoff hin hfuel hbuf v
    rw [noteSpans]
    split
    · simpa [noteExtents] using visits_nil ht v
    · cases hspan : noteSpan host.flip d.align (src.drop off) with
      | none => simpa [noteExtents] using visits_nil ht v
      | some k =>
        obtain ⟨hk, hkl⟩ := noteSpan_bounds hspan
        have hend : off + k ≤ src.length := by
          rw [List.length_drop] at hkl
          omega
        have hagree := sameEnd_iff hsize hoff (headerSwapped hbuf hspan) hspan
        have hbuf' : d.buf.drop (off + k) = swapNotes host.flip d.align fuel (src.drop (off + k)) := by
          rw [← List.drop_drop, hbuf, swapNotes_whole hspan, List.drop_left' (length_swapHead_take hk hkl),
            List.drop_drop]
        have ih := @ih (off + k) (Nat.dvd_add hoff (dvd_noteSpan hspan)) hend (by omega) hbuf'
        simp only [noteExtents, List.drop_drop, List.sum_cons, List.forall_mem_cons, ← Nat.add_assoc]
        rw [visits_cons ht, ih, Prod.mk.injEq, and_iff_right rfl, hagree, and_assoc]

end Loop

end Agree

/-! ## Agreement -/

/-- Translated into another place, the headers of the notes that the loop is given there are swapped and all
other bytes are copied, and the encoder gives the bytes back wherever it puts them. -/
def NotesAgree {n : Nat} (host : ByteOrder) (t : ElfType) (align d s len : Nat) (m : Mem n) : Prop :=
  ∃ m', cvtNote host align false d s len m = .ok () m' ∧ Frame m m' d len ∧
    (∀ data : NoteData, data.dType = t → data.buf = window m'.bytes d len → ∀ v,
      ∃ fuel visits, noteVisits host data fuel 0 v = some visits ∧
        visits.map Visit.extent = noteExtents 0 (noteSpans host.flip align (len + 1) (window m.bytes s len)) ∧
        window m'.bytes d len = swapAt (window m.bytes s len) ((visits.map Visit.extent).map headerAt)) ∧
    ∀ d', d' + len ≤ n → Separate d' len d len →
      ∃ m'', cvtNote host align true d' d len m' = .ok () m'' ∧ Frame m' m'' d' len ∧
        window m''.bytes d' len = window m.bytes s len

/-- What is left behind the last note. -/
def notesEnd (o : ByteOrder) (align : Nat) (src : List UInt8) : Nat := (noteSpans o align (src.length + 1) src).sum

/-- The notes end at the same offsets for both, and what is left behind them is a note neither for
`gelf_getnote` nor for the encoder. -/
structure WalksAgree (host : ByteOrder) (t : ElfType) (align : Nat) (src : List UInt8) : Prop where
  same : ∀ e ∈ noteExtents 0 (noteSpans host.flip align (src.length + 1) src), SameEnd host.flip align src e.1
  read : ∀ data : NoteData, data.dType = t → data.buf = src → ¬ data.Taken host (notesEnd host.flip align src)
  encode : (src.drop (notesEnd host.flip align src)).length < 12 ∨
    noteSpan host align (src.drop (notesEnd host.flip align src)) = none

theorem NoteData.Taken.congr {host : ByteOrder} {d d' : NoteData} {off : Nat} (ht : d'.dType = d.dType)
    (hsize : d'.dSize = d.dSize) (hnhdr : d'.nhdr host off = d.nhdr host off) (h : d.Taken host off) :
    d'.Taken host off := by
  have halign : d'.align = d.align := by rw [NoteData.align, ht, NoteData.align]
  have hend : d'.nameEnd host off = d.nameEnd host off := by rw [NoteData.nameEnd, hnhdr, NoteData.nameEnd]
  have hnext : d'.nextAt host off = d.nextAt host off := by
    rw [NoteData.nextAt, NoteData.descAt, halign, hend, hnhdr, NoteData.nextAt, NoteData.descAt]
  refine ⟨?_, ?_, ?_, ?_, ?_⟩
  · rw [hsize]
    exact h.header
  · rw [hsize, hend]
    exact h.name
  · rw [hsize, hnext]
    exact h.desc
  · rw [halign, hnhdr]
    exact h.descsz
  · rw [hnext]
    exact h.pos

/-- Behind the last note nothing is changed. -/
theorem drop_swapNotes {o : ByteOrder} {align : Nat} (fuel : Nat) : ∀ bs : List UInt8,
    (swapNotes o align fuel bs).drop (noteSpans o align fuel bs).sum = bs.drop (noteSpans o align fuel bs).sum := by
  induction fuel with
  | zero => intro bs; rfl
  | succ fuel ih =>
    intro bs
    rw [noteSpans]
    by_cases hshort : bs.length < 12
    · rw [if_pos hshort, swapNotes_end (.inl hshort)]
    · rw [if_neg hshort]
      cases hspan : noteSpan o align bs with
      | none => rw [swapNotes_end (.inr hspan)]
      | some k =>
        obtain ⟨hk, hkl⟩ := noteSpan_bounds hspan
        rw [swapNotes_whole hspan, List.sum_cons, ← List.drop_drop, List.drop_left' (length_swapHead_take hk hkl), ih,
          List.drop_drop]

/-- Places that are apart leave room for every piece that is copied. -/
theorem gap_of_separate {o : ByteOrder} {align d s len : Nat} {bs : List UInt8} (encode : Bool) (fuel : Nat)
    (hlen : bs.length = len) (hsep : Separate d len s len) :
    s + len ≤ d ∨ d < s ∧ (encode = true → len < 12 ∨ d + 12 ≤ s) ∧ Clear (s - d) (noteSpans o align fuel bs) len := by
  rcases hsep with hbelow | habove
  · by_cases hempty : s + len ≤ d
    · exact .inl hempty
    · refine .inr ⟨by omega, fun _ => by omega, fun k hk => ?_, by omega⟩
      have := noteSpans_le o align fuel k hk
      omega
  · exact .inl habove

section Claim

variable {n : Nat} {host : ByteOrder} {t : ElfType} {align d s len : Nat}

theorem type_of_noteAlignment (ht : noteAlignment t = some align) {data : NoteData} (hdata : data.dType = t) :
    (data.dType = .nhdr ∨ data.dType = .nhdr8) ∧ data.align = align := by
  subst hdata
  rw [NoteData.align]
  cases htype : data.dType <;> rw [htype] at ht <;> cases ht
  · exact ⟨.inl rfl, rfl⟩
  · exact ⟨.inr rfl, rfl⟩

/-- The decoder into another place, and the encoder from there into a third. -/
theorem cvtNote_there_and_back (m : Mem n) (hs : s + len ≤ n) (hd : d + len ≤ n) (hsep : Separate d len s len) :
    ∃ m', cvtNote host align false d s len m = .ok () m' ∧ Frame m m' d len ∧
      window m'.bytes d len = swapNotes host.flip align (len + 1) (window m.bytes s len) ∧
      ∀ d', d' + len ≤ n → Separate d' len d len → ∃ m'', cvtNote host align true d' d len m' = .ok () m'' ∧
        Frame m' m'' d' len ∧ window m''.bytes d' len =
          swapNotes host align (len + 1) (swapNotes host.flip align (len + 1) (window m.bytes s len)) := by
  have hlen : (window m.bytes s len).length = len := length_window (by rw [m.length_eq]; exact hs)
  obtain ⟨m', hm', hframe, hwin⟩ := @cvtNotes_exact n host align false (len + 1) d s len m hs hd
    (Nat.lt_succ_self _) (gap_of_separate false _ hlen hsep)
  simp only [Bool.false_eq_true, if_false] at hwin
  refine ⟨m', hm', hframe, hwin, fun d' hd' hsep' => ?_⟩
  have hlen' : (window m'.bytes d len).length = len := length_window (by rw [m'.length_eq]; exact hd)
  obtain ⟨m'', hm'', hframe', hwin'⟩ := @cvtNotes_exact n host align true (len + 1) d' d len m' hd hd'
    (Nat.lt_succ_self _) (gap_of_separate true _ hlen' hsep')
  simp only [if_true, hwin] at hwin'
  exact ⟨m'', hm'', hframe', hwin'⟩

/-- The translation and the reading of notes agree if and only if the notes end at the same offsets for both and
what is left behind the last one is no note. -/
theorem notesAgree_iff (ht : noteAlignment t = some align) (m : Mem n) (hs : s + len ≤ n) (hd : d + len ≤ n)
    (hsep : Separate d len s len) (hsize : len < 2 ^ 64) :
    NotesAgree host t align d s len m ↔ WalksAgree host t align (window m.bytes s len) := by
  have hlen : (window m.bytes s len).length = len := length_window (by rw [m.length_eq]; exact hs)
  obtain ⟨m', hm', hframe, hwin, hback⟩ := @cvtNote_there_and_back n host align d s len m hs hd hsep
  rw [NotesAgree]
  generalize window m.bytes s len = src at *
  subst hlen
  have hvisits : ∀ data : NoteData, data.dType = t → data.buf = window m'.bytes d src.length → ∀ v,
      ((∃ fuel visits, noteVisits host data fuel 0 v = some visits ∧
        visits.map Visit.extent = noteExtents 0 (noteSpans host.flip align (src.length + 1) src)) ↔
      (∀ e ∈ noteExtents 0 (noteSpans host.flip align (src.length + 1) src), SameEnd host.flip align src e.1) ∧
        ¬ data.Taken host (notesEnd host.flip align src)) := by
    intro data hdata hbuf v
    obtain ⟨htype, rfl⟩ := type_of_noteAlignment ht hdata
    have h := @noteVisits_iff host data src htype
      (by rw [NoteData.dSize, hbuf, hwin, length_swapNotes]) (src.length + 1) 0 (Nat.dvd_zero _)
      (Nat.zero_le _) (by omega) (by rw [hbuf, hwin, List.drop_zero, List.drop_zero]) v
    rwa [List.drop_zero, Nat.zero_add] at h
  -- behind the notes the translated section is the section
  have htaken : ∀ data data' : NoteData, data.dType = t → data'.dType = t → data.buf = src →
      data'.buf = window m'.bytes d src.length →
      (data.Taken host (notesEnd host.flip align src) ↔ data'.Taken host (notesEnd host.flip align src)) := by
    intro data data' hdata hdata' hbuf hbuf'
    have hsame : data'.dSize = data.dSize := by
      rw [NoteData.dSize, hbuf', hwin, length_swapNotes, NoteData.dSize, hbuf]
    have hrest : data'.nhdr host (notesEnd host.flip align src) = data.nhdr host (notesEnd host.flip align src) := by
      have hdrop : data'.buf.drop (notesEnd host.flip align src) = data.buf.drop (notesEnd host.flip align src) := by
        rw [hbuf', hwin, hbuf]
        exact drop_swapNotes _ src
      rw [NoteData.nhdr, window, hdrop]
      rfl
    exact ⟨.congr (hdata'.trans hdata.symm) hsame hrest, .congr (hdata.trans hdata'.symm) hsame.symm hrest.symm⟩
  constructor
  · rintro ⟨m₁, hm₁, _, hread, hencode⟩
    obtain rfl : m₁ = m' := (Outcome.ok.inj (hm₁.symm.trans hm')).2
    let data : NoteData := ⟨t, window m₁.bytes d src.length, by rw [hwin, length_swapNotes]; exact hsize⟩
    obtain ⟨fuel, visits, hrun, hsame, _⟩ := hread data rfl rfl ⟨⟨0, 0, 0⟩, 0, 0⟩
    obtain ⟨hends, hrest⟩ := (hvisits data rfl rfl _).mp ⟨fuel, visits, hrun, hsame⟩
    obtain ⟨m'', hm'', _, hwin''⟩ := hback s hs hsep.symm
    obtain ⟨m₂, hm₂, _, hwin₂⟩ := hencode s hs hsep.symm
    obtain rfl : m₂ = m'' := (Outcome.ok.inj (hm₂.symm.trans hm'')).2
    refine ⟨hends, fun data' hdata' hbuf' h => hrest ((htaken data' data hdata' rfl hbuf' rfl).mp h), ?_⟩
    have hback := hwin''.symm.trans hwin₂
    have hiff := @swapNotes_swapNotes host.flip align (src.length + 1) src (Nat.lt_succ_self _)
    rw [flip_flip] at hiff
    exact hiff.mp hback
  · rintro ⟨hends, hread, hencode⟩
    refine ⟨m', hm', hframe, fun data hdata hbuf v => ?_, fun d' hd' hsep' => ?_⟩
    · let data' : NoteData := ⟨t, src, hsize⟩
      obtain ⟨fuel, visits, hrun, hsame⟩ := (hvisits data hdata hbuf v).mpr
        ⟨hends, fun h => hread data' rfl rfl ((htaken data' data rfl hdata rfl hbuf).mpr h)⟩
      refine ⟨fuel, visits, hrun, hsame, ?_⟩
      rw [hwin, hsame]
      exact (swapAt_noteExtents (src.length + 1) [] src).symm
    · obtain ⟨m'', hm'', hframe', hwin'⟩ := hback d' hd' hsep'
      have hiff := @swapNotes_swapNotes host.flip align (src.length + 1) src (Nat.lt_succ_self _)
      rw [flip_flip] at hiff
      exact ⟨m'', hm'', hframe', hwin'.trans (hiff.mpr hencode)⟩

end Claim

/-- A note of the name `GNU` in the byte order that the host does not have, and room for as many bytes. -/
def foreignNote : Mem 40 :=
  ⟨[0, 0, 0, 4, 0, 0, 0, 4, 0, 0, 0, 1, 71, 78, 85, 0, 0, 0, 0, 0] ++ List.replicate 20 0, by decide⟩

theorem notesAgree_iff_foreign : NotesAgree .little .nhdr 4 20 0 20 foreignNote := by
  refine (notesAgree_iff rfl foreignNote (by decide) (by decide) (.inr (by decide)) (by decide)).mpr ⟨?_, ?_, ?_⟩
  · rw [show noteExtents 0 (noteSpans ByteOrder.little.flip 4 _ (window foreignNote.bytes 0 20)) = [(0, 20)] from by
      decide +kernel]
    refine List.forall_mem_cons.mpr ⟨⟨?_, ?_, ?_⟩, nofun⟩ <;> decide +kernel
  · intro data _ hbuf h
    have hheader := h.header
    rw [show notesEnd ByteOrder.little.flip 4 (window foreignNote.bytes 0 20) = 20 by decide +kernel, NoteData.dSize, hbuf,
      show (window foreignNote.bytes 0 20).length = 20 by decide +kernel] at hheader
    omega
  · exact .inl (by decide +kernel)

/-- A note whose name would be far longer than the section. In the byte order of the host its header is that of
a note with a name of four bytes. -/
def truncatedNote : Mem 32 :=
  ⟨[4, 0, 0, 0, 0, 0, 0, 0, 1, 0, 0, 0, 71, 78, 85, 0] ++ List.replicate 16 0, by decide⟩

/-- The decoder leaves it as it is, the loop is given it, and the encoder swaps its header. -/
theorem not_notesAgree_truncated : ¬ NotesAgree .little .nhdr 4 16 0 16 truncatedNote := by
  rintro ⟨m', hm', -, -, hback⟩
  obtain ⟨_, m₁, hm₁, hencode⟩ := exists_of_returns (x := cvtNote .little 4 false 16 0 16 truncatedNote)
    (p := fun _ m₁ => (cvtNote .little 4 true 0 16 16 m₁).returns fun _ m₂ =>
      decide (window m₂.bytes 0 16 ≠ window truncatedNote.bytes 0 16)) (by decide +kernel)
  obtain rfl : m₁ = m' := (Outcome.ok.inj (hm₁.symm.trans hm')).2
  obtain ⟨_, m₂, hm₂, hne⟩ := exists_of_returns hencode
  obtain ⟨m'', hm'', _, hsame⟩ := hback 0 (by decide) (.inl (by decide))
  obtain rfl : m₂ = m'' := (Outcome.ok.inj (hm₂.symm.trans hm'')).2
  exact of_decide_eq_true hne hsame

end LibElf.Elfutils
