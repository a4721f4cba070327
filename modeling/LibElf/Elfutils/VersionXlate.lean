import LibElf.Base.Scatter
import LibElf.Elfutils.Translate

/-!
# Version definitions and requirements

The two sections are chains of records with chains of auxiliary records, linked by offsets that may
point anywhere forwards. The converter copies the section and then converts the records it meets from
the source into the copy. It tests the links in the source. An encoder follows them there too, a decoder
follows the ones in the copy, and auxiliary records may have gone over those.

1. `touched`, the records that the walk comes to, and `Goes` and `defLink`, where it goes on.
2. `Clean`: every record still holds the bytes of the source when it is read.
3. `decode_pass` and `encode_pass`, the work on one definition, and `cvtVersion_exact`.
-/

namespace LibElf.Elfutils

open Outcome Mem

theorem keeps_swap : KeepsSize swapFields := fun fs _ h =>
  length_swapFields fs (Nat.le_of_eq h.symm)

/-! ## The walk -/

/-- A 32-bit member at the offset `off`. -/
def WordAt (fs : List Field) (off : Nat) : Prop :=
  ∃ pre post, fs = pre ++ number 3 :: post ∧ packedSize pre = off

/-- The links are members of the records. -/
structure VersionType.Linked (v : VersionType) : Prop where
  defAux : WordAt v.defFields v.defAux
  defNext : WordAt v.defFields v.defNext
  auxNext : WordAt v.auxFields v.auxNext

theorem linked_verdef : verdef.Linked where
  defAux := ⟨verdef.defFields.take 5, verdef.defFields.drop 6, rfl, rfl⟩
  defNext := ⟨verdef.defFields.take 6, verdef.defFields.drop 7, rfl, rfl⟩
  auxNext := ⟨verdef.auxFields.take 1, verdef.auxFields.drop 2, rfl, rfl⟩

theorem linked_verneed : verneed.Linked where
  defAux := ⟨verneed.defFields.take 3, verneed.defFields.drop 4, rfl, rfl⟩
  defNext := ⟨verneed.defFields.take 4, verneed.defFields.drop 5, rfl, rfl⟩
  auxNext := ⟨verneed.auxFields.take 4, verneed.auxFields.drop 5, rfl, rfl⟩

theorem WordAt.le {fs : List Field} {off : Nat} (h : WordAt fs off) : off + 4 ≤ packedSize fs := by
  obtain ⟨pre, post, rfl, rfl⟩ := h
  rw [packedSize_append, packedSize_cons]
  exact Nat.add_le_add_left (Nat.le_add_right _ _) _

/-- A link in the swapped record is the link in the other byte order. -/
theorem WordAt.swap {fs : List Field} {off : Nat} (h : WordAt fs off) (o : ByteOrder) {bs : List UInt8}
    (hbs : packedSize fs ≤ bs.length) :
    ofBytes o (window (swapFields fs bs) off 4) = ofBytes o.flip (window bs off 4) := by
  obtain ⟨pre, post, rfl, rfl⟩ := h
  have hw := window_swapFields pre (number 3) post hbs
  rw [show (number 3).width = 4 from rfl] at hw
  rw [hw, ofBytes_swapField rfl]

/-- The byte order in which the lengths and links of the source are to be read. -/
def sourceOrder (tof : Bool) (host : ByteOrder) : ByteOrder := if tof then host else host.flip

/-- The records that are converted, of those that are touched. -/
def writes (ts : List (Slot × Bool)) : List Slot := ts.filterMap fun t => if t.2 then some t.1 else none

@[simp] theorem writes_nil : writes [] = [] := rfl

@[simp] theorem writes_cons_true (p : Slot) (ts : List (Slot × Bool)) : writes ((p, true) :: ts) = p :: writes ts :=
  rfl

@[simp] theorem writes_cons_false (p : Slot) (ts : List (Slot × Bool)) : writes ((p, false) :: ts) = writes ts := rfl

@[simp] theorem writes_append (ts us : List (Slot × Bool)) : writes (ts ++ us) = writes ts ++ writes us :=
  List.filterMap_append

@[simp] theorem writes_map (ps : List Slot) : writes (ps.map (·, true)) = ps := by
  induction ps with
  | nil => rfl
  | cons p ps ih => rw [List.map_cons, writes_cons_true, ih]

section Walk

variable (o : ByteOrder) (v : VersionType) (bs : List UInt8)

def link (off : Nat) : Nat := ofBytes o (window bs off 4)

/-- There is no room for a record of this size at `off`. -/
def Short (size off : Nat) : Prop := bs.length < off ∨ bs.length - off < size

instance (size off : Nat) : Decidable (Short bs size off) := inferInstanceAs (Decidable (_ ∨ _))

/-- The chain of auxiliary records from `off` on. -/
def auxPlaces : Nat → Nat → List Slot
  | 0, _ => []
  | fuel + 1, off =>
    if Short bs (packedSize v.auxFields) off then []
    else (off, v.auxFields) :: if link o bs (off + v.auxNext) = 0 then []
      else auxPlaces fuel (off + link o bs (off + v.auxNext))

/-- The chain of auxiliary records leads out of the section. -/
def auxLeaves : Nat → Nat → Bool
  | 0, _ => true
  | fuel + 1, off =>
    if Short bs (packedSize v.auxFields) off then true
    else if link o bs (off + v.auxNext) = 0 then false
      else auxLeaves fuel (off + link o bs (off + v.auxNext))

/-- The auxiliary records of the definition at `off`. -/
def auxsOf (off : Nat) : List Slot := auxPlaces o v bs (bs.length + 1) (off + link o bs (off + v.defAux))

/-- The auxiliary records of the definition at `off` lead out of the section. -/
def auxsLeave (off : Nat) : Bool := auxLeaves o v bs (bs.length + 1) (off + link o bs (off + v.defAux))

/-- The link of a definition as a decoder finds it in the copy, after the auxiliary records. -/
def defLink (off : Nat) : Nat :=
  link o.flip (pasted swapFields bs bs ((off, v.defFields) :: auxsOf o v bs off)) (off + v.defNext)

/-- The walk goes on after the definition at `off`: it is in the section, as are its auxiliary records, and its
link is not zero in the source. -/
structure Goes (off : Nat) : Prop where
  inside : ¬ Short bs (packedSize v.defFields) off
  stays : auxsLeave o v bs off = false
  more : link o bs (off + v.defNext) ≠ 0

instance (off : Nat) : Decidable (Goes o v bs off) :=
  decidable_of_iff (¬ Short bs (packedSize v.defFields) off ∧ auxsLeave o v bs off = false ∧
    link o bs (off + v.defNext) ≠ 0) ⟨fun h => ⟨h.1, h.2.1, h.2.2⟩, fun h => ⟨h.1, h.2, h.3⟩⟩

/-- The link that is followed. -/
def onward (encode : Bool) (off : Nat) : Nat := if encode then link o bs (off + v.defNext) else defLink o v bs off

/-- What the work on one definition reads, and whether it is converted. An encoder converts the definition last,
and not at all when its auxiliary records lead out of the section; it reads the link to them first. -/
def passTouched (encode : Bool) (off : Nat) : List (Slot × Bool) :=
  if encode then
    ((off + v.defAux, [number 3]), false) :: (auxsOf o v bs off).map (·, true) ++
      if auxsLeave o v bs off then [] else [((off, v.defFields), true)]
  else ((off, v.defFields), true) :: (auxsOf o v bs off).map (·, true)

/-- What the walk reads, from the definition at `off` on. -/
def touched (encode : Bool) : Nat → Nat → List (Slot × Bool)
  | 0, _ => []
  | fuel + 1, off =>
    if Short bs (packedSize v.defFields) off then []
    else passTouched o v bs encode off ++
      if Goes o v bs off then touched encode fuel (off + onward o v bs encode off) else []

/-- No link that is followed has become zero. -/
def Advances (encode : Bool) : Nat → Nat → Prop
  | 0, _ => True
  | fuel + 1, off => Goes o v bs off →
      onward o v bs encode off ≠ 0 ∧ Advances encode fuel (off + onward o v bs encode off)

instance decidableAdvances (encode : Bool) : ∀ fuel off, Decidable (Advances o v bs encode fuel off)
  | 0, _ => inferInstanceAs (Decidable True)
  | fuel + 1, off =>
    have := decidableAdvances encode fuel (off + onward o v bs encode off)
    inferInstanceAs (Decidable (Goes o v bs off → _ ∧ _))

variable {o v bs}

theorem auxPlaces_bounds (fuel : Nat) : ∀ {off : Nat}, ∀ p ∈ auxPlaces o v bs fuel off,
    p.1 + p.size ≤ bs.length := by
  induction fuel with
  | zero => intro off p hp; cases hp
  | succ fuel ih =>
    intro off p hp
    rw [auxPlaces] at hp
    split at hp
    · cases hp
    · next hshort =>
      rcases List.mem_cons.mp hp with rfl | hp
      · simp only [Short, not_or, Nat.not_lt] at hshort
        show off + packedSize v.auxFields ≤ bs.length
        omega
      · split at hp
        · cases hp
        · exact ih p hp

theorem auxsOf_bounds {off : Nat} : ∀ p ∈ auxsOf o v bs off, p.1 + p.size ≤ bs.length := auxPlaces_bounds _

theorem passTouched_bounds (hv : v.Linked) {encode : Bool} {off : Nat} (hin : off + packedSize v.defFields ≤ bs.length) :
    ∀ t ∈ passTouched o v bs encode off, t.1.1 + t.1.size ≤ bs.length := by
  have haux := hv.defAux.le
  have hauxs : ∀ t ∈ (auxsOf o v bs off).map (·, true), t.1.1 + t.1.size ≤ bs.length := by
    intro t ht
    obtain ⟨p, hp, rfl⟩ := List.mem_map.mp ht
    exact auxsOf_bounds p hp
  intro t ht
  rw [passTouched] at ht
  cases encode with
  | false =>
    rcases List.mem_cons.mp ht with rfl | ht
    · exact hin
    · exact hauxs t ht
  | true =>
    rcases List.mem_append.mp ht with ht | ht
    · rcases List.mem_cons.mp ht with rfl | ht
      · show off + v.defAux + 4 ≤ bs.length
        omega
      · exact hauxs t ht
    · split at ht
      · cases ht
      · rw [List.mem_singleton.mp ht]
        exact hin

theorem touched_bounds (hv : v.Linked) {encode : Bool} (fuel : Nat) : ∀ {off : Nat},
    ∀ t ∈ touched o v bs encode fuel off, t.1.1 + t.1.size ≤ bs.length := by
  induction fuel with
  | zero => intro off t ht; cases ht
  | succ fuel ih =>
    intro off t ht
    rw [touched] at ht
    split at ht
    · cases ht
    · next hshort =>
      rcases List.mem_append.mp ht with ht | ht
      · simp only [Short, not_or, Nat.not_lt] at hshort
        exact passTouched_bounds hv (by omega) t ht
      · split at ht
        · exact ih t ht
        · cases ht

/-- An encoder follows the links of the source. -/
theorem advances_encode (fuel : Nat) : ∀ off, Advances o v bs true fuel off := by
  induction fuel with
  | zero => intro off; trivial
  | succ fuel ih => exact fun off hgoes => ⟨hgoes.more, ih _⟩

end Walk

/-- A link is zero in one byte order when it is in the other. -/
theorem link_eq_zero (o o' : ByteOrder) (bs : List UInt8) (off : Nat) : link o bs off = 0 ↔ link o' bs off = 0 := by
  have hzero : ∀ l : List UInt8, ofLeBytes l = 0 ↔ ∀ b ∈ l, b = 0 := by
    intro l
    induction l with
    | nil => simp [ofLeBytes]
    | cons b l ih =>
      rw [ofLeBytes, List.forall_mem_cons, ← ih, Nat.add_eq_zero_iff, Nat.mul_eq_zero]
      refine and_congr ⟨fun h => UInt8.toNat_inj.mp h, fun h => by rw [h]; rfl⟩ (by simp)
  have hany : ∀ (o : ByteOrder) (l : List UInt8), ofBytes o l = 0 ↔ ∀ b ∈ l, b = 0 := by
    intro o l
    cases o with
    | little => exact hzero l
    | big => rw [ofBytes, hzero]; simp
  rw [link, link, hany, hany]

/-! ## What is read is the source -/

/-- The record in the source was not written over after the records in `done` were converted. -/
def Unwritten (d s len : Nat) (done : List Slot) (q : Slot) : Prop :=
  if d = s then ∀ p ∈ done, Slot.Apart p q else Separate d len (s + q.1) q.size

instance (d s len : Nat) (done : List Slot) (q : Slot) : Decidable (Unwritten d s len done q) :=
  if h : d = s then
    @decidable_of_iff (Unwritten d s len done q) (∀ p ∈ done, Slot.Apart p q) (by rw [Unwritten, if_pos h])
      (List.decidableBAll _ _)
  else decidable_of_iff (Separate d len (s + q.1) q.size) (by rw [Unwritten, if_neg h])

/-- None of what is touched was written over before. -/
def Clean (d s len : Nat) : List Slot → List (Slot × Bool) → Prop
  | _, [] => True
  | done, t :: ts => Unwritten d s len done t.1 ∧ Clean d s len (if t.2 then done ++ [t.1] else done) ts

instance decidableClean (d s len : Nat) : ∀ done ts, Decidable (Clean d s len done ts)
  | _, [] => inferInstanceAs (Decidable True)
  | done, t :: ts =>
    have := decidableClean d s len (if t.2 then done ++ [t.1] else done) ts
    inferInstanceAs (Decidable (_ ∧ _))

section Cleanness

variable {d s len : Nat}

theorem clean_append (ts us : List (Slot × Bool)) : ∀ {done : List Slot}, Clean d s len done (ts ++ us) ↔
    Clean d s len done ts ∧ Clean d s len (done ++ writes ts) us := by
  induction ts with
  | nil => intro done; simp [Clean]
  | cons t ts ih =>
    intro done
    obtain ⟨p, written⟩ := t
    rw [List.cons_append, Clean, Clean, ih, and_assoc]
    cases written <;> simp

/-- In place, what is touched is apart from what was converted before. -/
theorem Clean.apart (hds : d = s) (ts : List (Slot × Bool)) : ∀ {done : List Slot}, Clean d s len done ts →
    ∀ p ∈ done, ∀ t ∈ ts, Slot.Apart p t.1 := by
  induction ts with
  | nil => intro done _ p _ t ht; cases ht
  | cons t ts ih =>
    intro done ⟨hkept, hrest⟩ p hp u hu
    rw [Unwritten, if_pos hds] at hkept
    rcases List.mem_cons.mp hu with rfl | hu
    · exact hkept p hp
    · refine ih hrest p ?_ u hu
      split
      · exact List.mem_append_left _ hp
      · exact hp

/-- Nothing that is touched in another place is written over. -/
theorem clean_of_separate (hds : d ≠ s) (hsep : Separate d len s len) (ts : List (Slot × Bool)) :
    ∀ {done : List Slot}, (∀ t ∈ ts, t.1.1 + t.1.size ≤ len) → Clean d s len done ts := by
  induction ts with
  | nil => intro done _; trivial
  | cons t ts ih =>
    intro done h
    have ht := h t List.mem_cons_self
    refine ⟨?_, ih fun u hu => h u (List.mem_cons_of_mem _ hu)⟩
    rw [Unwritten, if_neg hds]
    rcases hsep with hs | hs <;> [left; right] <;> omega

variable {o : ByteOrder} {v : VersionType} {bs : List UInt8} {encode : Bool} {done : List Slot} (hv : v.Linked)
  (hl : bs.length = len) (hds : d ≠ s) (hsep : Separate d len s len)

include hv hl hds hsep

theorem clean_pass {off : Nat} (hin : off + packedSize v.defFields ≤ len) :
    Clean d s len done (passTouched o v bs encode off) :=
  clean_of_separate hds hsep _ fun t ht => hl ▸ passTouched_bounds hv (hl.symm ▸ hin) t ht

theorem clean_walk (fuel off : Nat) : Clean d s len done (touched o v bs encode fuel off) :=
  clean_of_separate hds hsep _ fun t ht => hl ▸ touched_bounds hv fuel t ht

end Cleanness

/-! ## The converter -/

section Converter

variable {n : Nat} {m₀ : Mem n} {d s len : Nat}

/-- The memory after the copy and after the records in `done` were converted, seen from the bytes that the
source held before. -/
structure Walking (m₀ : Mem n) (d s len : Nat) (done : List Slot) (m : Mem n) : Prop where
  source_le : s + len ≤ n
  dest_le : d + len ≤ n
  frame : Frame m₀ m d len
  dest : window m.bytes d len = pasted swapFields (window m₀.bytes s len) (window m₀.bytes s len) done
  bounds : ∀ p ∈ done, p.1 + p.size ≤ len

namespace Walking

variable {m : Mem n} {done : List Slot}

theorem length_source (h : Walking m₀ d s len done m) : (window m₀.bytes s len).length = len :=
  length_window (by rw [m₀.length_eq]; exact h.source_le)

/-- A record that was not written over. -/
theorem source (h : Walking m₀ d s len done m) {q : Slot} (hq : q.1 + q.size ≤ len)
    (hkept : Unwritten d s len done q) : window m.bytes (s + q.1) q.size = window (window m₀.bytes s len) q.1 q.size := by
  rw [Unwritten] at hkept
  split at hkept
  · next hds =>
    subst hds
    rw [← window_pasted keeps_swap rfl (by rw [h.length_source]; exact h.bounds) hkept, ← h.dest, window_window hq]
  · rw [h.frame.window_eq (by rcases hkept with hs | hs <;> [right; left] <;> omega), window_window hq]

/-- One more record is converted. -/
theorem convert (h : Walking m₀ d s len done m) {q : Slot} (hq : q.1 + q.size ≤ len)
    (hkept : Unwritten d s len done q) :
    ∃ m', cvtFields q.2 (d + q.1) (s + q.1) m = .ok () m' ∧ Walking m₀ d s len (done ++ [q]) m' := by
  have hsrc := h.source_le
  have hdst := h.dest_le
  have hbehind : Behind (d + q.1) (s + q.1) (packedSize q.2) := by
    have hsize : q.size = packedSize q.2 := rfl
    rw [Unwritten] at hkept
    split at hkept
    · exact .inr (by omega)
    · rcases hkept with hs | hs
      · exact .inl (.inl (by omega))
      · exact .inl (.inr (by omega))
  obtain ⟨m', hm', hframe, hwin⟩ := cvtFields_exact q.2 (m := m) hbehind
    (by show s + q.1 + q.size ≤ n; omega) (by show d + q.1 + q.size ≤ n; omega)
  have hframe : Frame m m' (d + q.1) q.size := hframe
  have hvalue : window m'.bytes (d + q.1) q.size =
      swapFields q.2 (window (window m₀.bytes s len) q.1 q.size) := hwin.trans (congrArg _ (h.source hq hkept))
  refine ⟨m', hm', hsrc, hdst, h.frame.trans (hframe.mono (by omega) (by omega)), ?_, ?_⟩
  · rw [hframe.window_splice hq hdst, hvalue, h.dest, pasted_append]
    rfl
  · intro p hp
    rcases List.mem_append.mp hp with hp | hp
    · exact h.bounds p hp
    · rw [List.mem_singleton.mp hp]
      exact hq

/-- A record in the copy, after it and others were converted, does not depend on what was there before. -/
theorem dest_of_done {after : List Slot} {q : Slot} (h : Walking m₀ d s len (done ++ q :: after) m) :
    window m.bytes (d + q.1) q.size =
      window (pasted swapFields (window m₀.bytes s len) (window m₀.bytes s len) (q :: after)) q.1 q.size := by
  have hl := h.length_source
  have hbounds : ∀ p ∈ done ++ q :: after, p.1 + p.size ≤ (window m₀.bytes s len).length := by
    rw [hl]
    exact h.bounds
  rw [← window_window (h.bounds q (by simp)), h.dest, pasted_append]
  have hlen := length_pasted keeps_swap done rfl fun p hp => hbounds p (List.mem_append_left _ hp)
  exact window_pasted_cons keeps_swap hlen rfl fun p hp => hbounds p (List.mem_append_right _ hp)

/-! ### Links -/

variable (host : ByteOrder) {q : Slot} {off : Nat}

/-- A link in the record whose bytes are at `place`. -/
theorem readWord_link {place : Nat} {fs : List Field} (hoff : off + 4 ≤ packedSize fs)
    (hplace : place + packedSize fs ≤ n) :
    readWord host (place + off) m = .ok (ofBytes host (window (window m.bytes place (packedSize fs)) off 4)) m := by
  rw [readWord_of_le host (by omega), window_window hoff]

/-- In a record of the source. -/
theorem link_source (h : Walking m₀ d s len done m) (hq : q.1 + q.size ≤ len) (hkept : Unwritten d s len done q)
    (hoff : WordAt q.2 off) :
    readWord host (s + q.1 + off) m = .ok (link host (window m₀.bytes s len) (q.1 + off)) m := by
  have hw := h.source hq hkept
  have hsrc := h.source_le
  have hle := hoff.le
  have hsize : q.size = packedSize q.2 := rfl
  rw [hsize] at hw
  rw [readWord_link host hle (by omega), hw, link, window_window hle]

/-- In a record of the copy. -/
theorem link_done {after : List Slot} (h : Walking m₀ d s len (done ++ q :: after) m) (hoff : WordAt q.2 off) :
    readWord host (d + q.1 + off) m =
      .ok (link host (pasted swapFields (window m₀.bytes s len) (window m₀.bytes s len) (q :: after)) (q.1 + off)) m := by
  have hq : q.1 + q.size ≤ len := h.bounds q (by simp)
  have hdst := h.dest_le
  have hle := hoff.le
  have hsize : q.size = packedSize q.2 := rfl
  have hw := h.dest_of_done
  rw [hsize] at hw
  rw [readWord_link host hle (by omega), hw, link, window_window hle]

end Walking

/-- The link in a record that was just converted. -/
theorem link_pasted {o : ByteOrder} {src : List UInt8} {q : Slot} {after : List Slot}
    (hbounds : ∀ p ∈ q :: after, p.1 + p.size ≤ src.length) (hafter : ∀ p ∈ after, Slot.Apart q p) {off : Nat}
    (hoff : WordAt q.2 off) : link o (pasted swapFields src src (q :: after)) (q.1 + off) = link o.flip src (q.1 + off) := by
  have hq := hbounds q List.mem_cons_self
  have hle := hoff.le
  have hsize : q.size = packedSize q.2 := rfl
  rw [link, ← window_window (show off + 4 ≤ q.size by omega), window_pasted_head keeps_swap rfl hbounds hafter,
    hoff.swap o (by rw [length_window hq]; exact Nat.le_refl _), window_window (by omega), link]

/-- The source is looked at once more after the record was converted. In place the link is swapped then, and
zero when it was zero. -/
theorem Walking.link_again {m : Mem n} {done after : List Slot} {q : Slot} (host : ByteOrder)
    (h : Walking m₀ d s len (done ++ q :: after) m) (hkept : Unwritten d s len done q)
    (hafter : d = s → ∀ p ∈ after, Slot.Apart q p) {off : Nat} (hoff : WordAt q.2 off) :
    ∃ o, readWord host (s + q.1 + off) m = .ok (link o (window m₀.bytes s len) (q.1 + off)) m := by
  have hq : q.1 + q.size ≤ len := h.bounds q (by simp)
  rw [Unwritten] at hkept
  split at hkept
  · next hds =>
    subst hds
    refine ⟨host.flip, ?_⟩
    rw [h.link_done host hoff, link_pasted (fun p hp => ?_) (hafter rfl) hoff]
    rw [h.length_source]
    exact h.bounds p (List.mem_append_right _ hp)
  · have hsrc := h.source_le
    have hle := hoff.le
    have hsize : q.size = packedSize q.2 := rfl
    refine ⟨host, ?_⟩
    rw [readWord_of_le host (by omega),
      h.frame.window_eq (by rcases hkept with hs | hs <;> [right; left] <;> omega), link, window_window (by omega),
      Nat.add_assoc]

variable {host : ByteOrder} {v : VersionType} {encode : Bool}

/-- The loop over a chain of auxiliary records. -/
theorem cvtAux_exact (hv : v.Linked) {o : ByteOrder} (ho : o = sourceOrder encode host)
    {bs : List UInt8} (hbs : bs = window m₀.bytes s len) (f : Nat) :
    ∀ {fuel off : Nat} {done : List Slot} {m : Mem n}, 0 < f → len < off + f → 0 < fuel → len < off + fuel →
      Walking m₀ d s len done m → Clean d s len done ((auxPlaces o v bs f off).map (·, true)) →
      ∃ m', cvtAux host v encode d s len fuel off m = .ok (auxLeaves o v bs f off) m' ∧
        Walking m₀ d s len (done ++ auxPlaces o v bs f off) m' := by
  induction f with
  | zero => intro fuel off done m h; omega
  | succ f ih =>
    intro fuel off done m _ hf hpos hfuel hm hclean
    have hl : bs.length = len := by rw [hbs, hm.length_source]
    obtain ⟨fuel, rfl⟩ : ∃ k, fuel = k + 1 := ⟨fuel - 1, by omega⟩
    rw [auxPlaces] at hclean ⊢
    rw [cvtAux, auxLeaves]
    by_cases hshort : Short bs (packedSize v.auxFields) off
    · rw [if_pos hshort, if_pos hshort, List.append_nil]
      refine ⟨m, if_pos ?_, hm⟩
      rwa [Short, hl] at hshort
    · rw [if_neg hshort] at hclean ⊢
      rw [if_neg hshort, if_neg (by rwa [Short, hl] at hshort)]
      obtain ⟨hkept, hrest⟩ := hclean
      have hq : off + packedSize v.auxFields ≤ len := by
        rw [Short, hl, not_or] at hshort
        omega
      have hle := hv.auxNext.le
      obtain ⟨m₁, hm₁, hw₁⟩ := hm.convert (q := (off, v.auxFields)) hq hkept
      obtain ⟨o', hagain⟩ := hw₁.link_again host hkept (fun _ => List.forall_mem_nil _) hv.auxNext
      have hdone := hw₁.link_done host hv.auxNext
      rw [link_pasted (List.forall_mem_singleton.mpr (by rw [hm.length_source]; exact hq)) (List.forall_mem_nil _)
        hv.auxNext] at hdone
      simp only [hm.link_source host hq hkept hv.auxNext, bind_ok, hm₁, hdone, hagain, ← hbs]
      have hchosen : (if encode = true then link host bs (off + v.auxNext) else link host.flip bs (off + v.auxNext)) =
          link o bs (off + v.auxNext) := by
        rw [ho, sourceOrder]
        split <;> rfl
      rw [hchosen]
      by_cases hz : link o bs (off + v.auxNext) = 0
      · rw [if_pos hz, if_pos hz, if_pos ((link_eq_zero o' o _ _).mpr hz)]
        exact ⟨m₁, rfl, hw₁⟩
      · rw [if_neg hz] at hrest
        rw [if_neg hz, if_neg hz, if_neg (fun h => hz ((link_eq_zero o' o _ _).mp h))]
        obtain ⟨m', hm', hw'⟩ := @ih fuel _ _ _ (by omega) (by omega) (by omega) (by omega) hw₁ hrest
        refine ⟨m', hm', ?_⟩
        rwa [List.append_assoc] at hw'

/-- The passes of an inner loop are enough. -/
theorem len_lt_passes (n len off : Nat) : len < off + ((len + 1) * 256 ^ n + 1) := by
  have hpos : 0 < 256 ^ n := Nat.pow_pos (by decide)
  have hle := Nat.le_mul_of_pos_right (len + 1) hpos
  omega

section Passes

variable {bs : List UInt8} {off : Nat} {done : List Slot} {m : Mem n} (hv : v.Linked)
  (hbs : bs = window m₀.bytes s len) (hm : Walking m₀ d s len done m) (hin : off + packedSize v.defFields ≤ len)

include hv hbs hm hin

/-- A decoder converts the definition before it reads the links in it. -/
theorem decode_pass (hclean : Clean d s len done (passTouched host.flip v bs false off)) :
    ∃ m', Walking m₀ d s len (done ++ (off, v.defFields) :: auxsOf host.flip v bs off) m' ∧
      ∀ fuel, cvtDefs host v false d s len (fuel + 1) off m =
        if Goes host.flip v bs off then cvtDefs host v false d s len fuel (off + defLink host.flip v bs off) m'
        else .ok () m' := by
  have hl : bs.length = len := by rw [hbs, hm.length_source]
  obtain ⟨hkept, hauxs⟩ := hclean
  obtain ⟨m₁, hm₁, hw₁⟩ := hm.convert (q := (off, v.defFields)) hin hkept
  have haux := hw₁.link_done host hv.defAux
  rw [link_pasted (List.forall_mem_singleton.mpr (by rw [hm.length_source]; exact hin)) (List.forall_mem_nil _)
    hv.defAux, ← hbs] at haux
  obtain ⟨m₂, hm₂, hw₂⟩ := @cvtAux_exact n m₀ d s len host v false hv host.flip rfl bs hbs (bs.length + 1)
    ((len + 1) * 256 ^ n + 1) (off + link host.flip bs (off + v.defAux)) (done ++ [(off, v.defFields)]) m₁
    (Nat.succ_pos _) (by omega) (Nat.succ_pos _) (len_lt_passes ..) hw₁ hauxs
  rw [List.append_assoc] at hw₂
  have hnext := hw₂.link_done host hv.defNext
  obtain ⟨o, hagain⟩ := hw₂.link_again host hkept
    (fun hds p hp => hauxs.apart hds _ (off, v.defFields) (by simp) (p, true) (List.mem_map_of_mem hp)) hv.defNext
  rw [← hbs] at hnext hagain
  refine ⟨m₂, hw₂, fun fuel => ?_⟩
  rw [cvtDefs, if_neg (by omega)]
  simp only [Bool.false_eq_true, if_false, hm₁, bind_ok, haux, hm₂, hnext, hagain]
  rw [show auxLeaves host.flip v bs (bs.length + 1) (off + link host.flip bs (off + v.defAux)) =
    auxsLeave host.flip v bs off from rfl]
  have hinside : ¬ Short bs (packedSize v.defFields) off := by
    rw [Short]
    omega
  by_cases hleaves : auxsLeave host.flip v bs off = true
  · rw [if_pos hleaves, if_neg fun h => absurd (h.stays.symm.trans hleaves) (by decide)]
  · rw [if_neg hleaves]
    by_cases hz : link host.flip bs (off + v.defNext) = 0
    · rw [if_pos ((link_eq_zero o host.flip _ _).mpr hz), if_neg fun h => h.more hz]
    · rw [if_neg fun h => hz ((link_eq_zero o host.flip _ _).mp h), if_pos ⟨hinside, by simpa using hleaves, hz⟩]
      rw [defLink, flip_flip]
      rfl

/-- An encoder reads the links first, and converts the definition after its auxiliary records. -/
theorem encode_pass (hclean : Clean d s len done (passTouched host v bs true off)) :
    ∃ m', Walking m₀ d s len (done ++ writes (passTouched host v bs true off)) m' ∧
      ∀ fuel, cvtDefs host v true d s len (fuel + 1) off m =
        if Goes host v bs off then cvtDefs host v true d s len fuel (off + link host bs (off + v.defNext)) m'
        else .ok () m' := by
  have hl : bs.length = len := by rw [hbs, hm.length_source]
  have hdefAux := hv.defAux.le
  rw [passTouched, if_pos rfl] at hclean ⊢
  obtain ⟨⟨hlook, hauxs⟩, hlast⟩ := (clean_append ..).mp hclean
  simp only [writes_append, writes_cons_false, writes_map] at hlast ⊢
  have haux := @Walking.link_source n m₀ d s len m done host (off + v.defAux, [number 3]) 0 hm
    (by show off + v.defAux + 4 ≤ len; omega) hlook ⟨[], [], rfl, rfl⟩
  rw [Nat.add_zero, Nat.add_zero, ← Nat.add_assoc, ← hbs] at haux
  obtain ⟨m₁, hm₁, hw₁⟩ := @cvtAux_exact n m₀ d s len host v true hv host rfl bs hbs (bs.length + 1)
    ((len + 1) * 256 ^ n + 1) (off + link host bs (off + v.defAux)) done m
    (Nat.succ_pos _) (by omega) (Nat.succ_pos _) (len_lt_passes ..) hm hauxs
  rw [show auxLeaves host v bs (bs.length + 1) (off + link host bs (off + v.defAux)) =
    auxsLeave host v bs off from rfl] at hm₁
  have hw₁ : Walking m₀ d s len (done ++ auxsOf host v bs off) m₁ := hw₁
  have hinside : ¬ Short bs (packedSize v.defFields) off := by
    rw [Short]
    omega
  cases hleaves : auxsLeave host v bs off with
  | true =>
    rw [hleaves] at hm₁
    refine ⟨m₁, by simpa using hw₁, fun fuel => ?_⟩
    rw [cvtDefs, if_neg (by omega)]
    simp only [if_true, bind_ok, haux, hm₁]
    rw [if_neg fun h => absurd (h.stays.symm.trans hleaves) (by decide)]
  | false =>
    rw [hleaves] at hlast hm₁
    obtain ⟨hkept, -⟩ := hlast
    obtain ⟨m₂, hm₂, hw₂⟩ := hw₁.convert (q := (off, v.defFields)) hin hkept
    have hnext := hw₁.link_source (q := (off, v.defFields)) host hin hkept hv.defNext
    obtain ⟨o, hagain⟩ := hw₂.link_again host hkept (fun _ => List.forall_mem_nil _) hv.defNext
    rw [← hbs] at hnext hagain
    refine ⟨m₂, by simpa [List.append_assoc] using hw₂, fun fuel => ?_⟩
    rw [cvtDefs, if_neg (by omega)]
    simp only [if_true, bind_ok, haux, hm₁, Bool.false_eq_true, if_false, hnext, hm₂, hagain]
    by_cases hz : link host bs (off + v.defNext) = 0
    · rw [if_pos ((link_eq_zero o host _ _).mpr hz), if_neg fun h => h.more hz]
    · rw [if_neg fun h => hz ((link_eq_zero o host _ _).mp h), if_pos ⟨hinside, hleaves, hz⟩]

/-- The work on one definition. -/
theorem cvtDefs_pass {o : ByteOrder} (ho : o = sourceOrder encode host)
    (hclean : Clean d s len done (passTouched o v bs encode off)) :
    ∃ m', Walking m₀ d s len (done ++ writes (passTouched o v bs encode off)) m' ∧
      ∀ fuel, cvtDefs host v encode d s len (fuel + 1) off m =
        if Goes o v bs off then cvtDefs host v encode d s len fuel (off + onward o v bs encode off) m'
        else .ok () m' := by
  subst ho
  cases encode with
  | false =>
    obtain ⟨m', hw, hpass⟩ := decode_pass hv hbs hm hin hclean
    refine ⟨m', ?_, hpass⟩
    rw [passTouched, if_neg (by decide), writes_cons_true, writes_map]
    exact hw
  | true => exact encode_pass hv hbs hm hin hclean

end Passes

/-- The loop over the definitions or requirements. -/
theorem cvtDefs_exact (hv : v.Linked) {o : ByteOrder} (ho : o = sourceOrder encode host)
    {bs : List UInt8} (hbs : bs = window m₀.bytes s len) (f : Nat) :
    ∀ {fuel off : Nat} {done : List Slot} {m : Mem n}, 0 < f → len < off + f → 0 < fuel → len < off + fuel →
      Walking m₀ d s len done m → Clean d s len done (touched o v bs encode f off) → Advances o v bs encode f off →
      ∃ m', cvtDefs host v encode d s len fuel off m = .ok () m' ∧
        Walking m₀ d s len (done ++ writes (touched o v bs encode f off)) m' := by
  induction f with
  | zero => intro fuel off done m h; omega
  | succ f ih =>
    intro fuel off done m _ hf hpos hfuel hm hclean hon
    have hl : bs.length = len := by rw [hbs, hm.length_source]
    obtain ⟨fuel, rfl⟩ : ∃ k, fuel = k + 1 := ⟨fuel - 1, by omega⟩
    rw [touched] at hclean ⊢
    by_cases hshort : Short bs (packedSize v.defFields) off
    · rw [if_pos hshort, writes_nil, List.append_nil]
      refine ⟨m, ?_, hm⟩
      rw [cvtDefs, if_pos (by rwa [Short, hl] at hshort)]
    · rw [if_neg hshort] at hclean ⊢
      have hq : off + packedSize v.defFields ≤ len := by
        rw [Short, hl, not_or] at hshort
        omega
      have hsize := hv.defAux.le
      obtain ⟨hown, hrest⟩ := (clean_append ..).mp hclean
      obtain ⟨m₁, hw₁, hpass⟩ := cvtDefs_pass hv hbs hm hq ho hown
      rw [hpass]
      by_cases hgoes : Goes o v bs off
      · obtain ⟨hstep, hon⟩ := hon hgoes
        rw [if_pos hgoes] at hrest
        rw [if_pos hgoes, if_pos hgoes]
        obtain ⟨m', hm', hw'⟩ := @ih fuel _ _ _ (by omega) (by omega) (by omega) (by omega) hw₁ hrest hon
        refine ⟨m', hm', ?_⟩
        rwa [writes_append, ← List.append_assoc]
      · rw [if_neg hgoes, if_neg hgoes, List.append_nil]
        exact ⟨m₁, rfl, hw₁⟩

/-- The copy with the records that are touched converted into it, where all that is read still is the source. -/
theorem cvtVersion_exact (hv : v.Linked) {o : ByteOrder} (ho : o = sourceOrder encode host) {m : Mem n}
    (hs : s + len ≤ n) (hd : d + len ≤ n)
    (hclean : Clean d s len [] (touched o v (window m.bytes s len) encode (len + 1) 0))
    (hon : Advances o v (window m.bytes s len) encode (len + 1) 0) :
    ∃ m', cvtVersion host v encode d s len m = .ok () m' ∧ Frame m m' d len ∧ window m'.bytes d len =
      pasted swapFields (window m.bytes s len) (window m.bytes s len)
        (writes (touched o v (window m.bytes s len) encode (len + 1) 0)) := by
  have hl : (window m.bytes s len).length = len := length_window (by rw [m.length_eq]; exact hs)
  rw [cvtVersion]
  by_cases hz : len = 0
  · subst hz
    refine ⟨m, if_pos rfl, Frame.refl _ _ _, ?_⟩
    have hsize := hv.defAux.le
    rw [window_zero, window_zero, touched, if_pos (.inr (by show 0 < packedSize v.defFields; omega))]
    rfl
  · rw [if_neg hz]
    obtain ⟨m₁, hm₁, hframe, hwin⟩ := memmove_exact (m := m) hs hd
    obtain ⟨m', hm', hw⟩ := @cvtDefs_exact n m d s len host v encode hv o ho _ rfl (len + 1)
      ((len + 1) * 256 ^ n + 1) 0 [] m₁ (Nat.succ_pos _) (by omega) (Nat.succ_pos _) (len_lt_passes ..)
      ⟨hs, hd, hframe, hwin, nofun⟩ hclean hon
    rw [hm₁, bind_ok]
    exact ⟨m', hm', hw.frame, by rw [hw.dest, List.nil_append]⟩

end Converter

end LibElf.Elfutils
