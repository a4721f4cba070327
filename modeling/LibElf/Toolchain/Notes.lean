import LibElf.Toolchain.DataCoverage

/-!
# Note sections

A note has a header of three words, a name and a descriptor, the last two padded to words. The
converters swap the headers and copy the rest. They walk over the notes while more than a header is left,
so with a swap a last note without name and descriptor is not reached.

1. `Note` and `notesFile`, a section of notes in either byte order.
2. `walked`, the notes that the loops come to, and `noteTomLoop_notes`, `noteTofLoop_notes`: these notes
   are translated, and nothing else is stored.
3. `noteCodec_iff`: the two directions undo each other exactly when there is no swap or the last note is
   not empty.
-/

namespace LibElf.Toolchain

open Outcome Mem

/-- A note: its type, and its name and descriptor with the bytes that pad them to words. -/
structure Note where
  type : UInt32
  name : List UInt8
  namePad : List UInt8
  desc : List UInt8
  descPad : List UInt8
  name_padded : name.length + namePad.length = ceilTo name.length 4
  desc_padded : desc.length + descPad.length = ceilTo desc.length 4

namespace Note

/-- The note has no name and no descriptor. -/
def IsEmpty (t : Note) : Prop := t.name = [] ∧ t.desc = []

instance (t : Note) : Decidable t.IsEmpty := inferInstanceAs (Decidable (_ ∧ _))

def header (o : ByteOrder) (t : Note) : List UInt8 :=
  toBytes o 4 t.name.length ++ toBytes o 4 t.desc.length ++ toBytes o 4 t.type.toNat

def body (t : Note) : List UInt8 := (t.name ++ t.namePad) ++ (t.desc ++ t.descPad)

def toFile (o : ByteOrder) (t : Note) : List UInt8 := t.header o ++ t.body

def size (t : Note) : Nat := 12 + (ceilTo t.name.length 4 + ceilTo t.desc.length 4)

@[simp] theorem length_header (o : ByteOrder) (t : Note) : (t.header o).length = 12 := by
  simp [header]

theorem length_body (t : Note) : t.body.length = ceilTo t.name.length 4 + ceilTo t.desc.length 4 := by
  rw [body, List.length_append, List.length_append, List.length_append, t.name_padded, t.desc_padded]

theorem length_toFile (o : ByteOrder) (t : Note) : (t.toFile o).length = t.size := by
  rw [toFile, List.length_append, length_header, length_body, size]

theorem size_eq_iff (t : Note) : t.size = 12 ↔ t.IsEmpty := by
  rw [IsEmpty, ← List.length_eq_zero_iff, ← List.length_eq_zero_iff, size, ceilTo, ceilTo]
  omega

end Note

def notesFile (o : ByteOrder) (notes : List Note) : List UInt8 := (notes.map (Note.toFile o)).flatten

def notesSize (notes : List Note) : Nat := (notes.map Note.size).sum

/-- The notes that the loops come to: all of them, but not an empty one at the end. -/
def walked : List Note → List Note
  | [] => []
  | t :: notes => if notes.isEmpty ∧ t.IsEmpty then [] else t :: walked notes

section Sections

theorem notesFile_cons (o : ByteOrder) (t : Note) (notes : List Note) :
    notesFile o (t :: notes) = t.toFile o ++ notesFile o notes := by
  simp [notesFile]

theorem notesSize_cons (t : Note) (notes : List Note) : notesSize (t :: notes) = t.size + notesSize notes := by
  simp [notesSize]

theorem length_notesFile (o : ByteOrder) (notes : List Note) : (notesFile o notes).length = notesSize notes := by
  induction notes with
  | nil => rfl
  | cons t notes ih => rw [notesFile_cons, notesSize_cons, List.length_append, Note.length_toFile, ih]

/-- The loops see more than a header exactly when there is a note that they take. -/
theorem notesSize_le_iff (t : Note) (notes : List Note) :
    notesSize (t :: notes) ≤ 12 ↔ notes.isEmpty ∧ t.IsEmpty := by
  rw [notesSize_cons, ← Note.size_eq_iff]
  cases notes with
  | nil =>
    have hnil : notesSize [] = 0 := rfl
    simp only [List.isEmpty_nil, true_and, hnil, Note.size]
    omega
  | cons u notes =>
    simp only [notesSize_cons, List.isEmpty_cons, Bool.false_eq_true, false_and, iff_false, Note.size]
    omega

theorem walked_of_last {notes : List Note} (h : ∀ t ∈ notes.getLast?, ¬ t.IsEmpty) : walked notes = notes := by
  induction notes with
  | nil => rfl
  | cons t notes ih =>
    rw [walked]
    cases notes with
    | nil => rw [if_neg fun hend => h t rfl hend.2, walked]
    | cons u notes =>
      rw [if_neg fun hend => Bool.false_ne_true hend.1, ih fun v hv => h v (by rwa [List.getLast?_cons_cons])]

theorem walked_of_empty_last {notes : List Note} {t : Note} (hlast : notes.getLast? = some t) (ht : t.IsEmpty) :
    notesSize (walked notes) + 12 = notesSize notes := by
  induction notes with
  | nil => cases hlast
  | cons u notes ih =>
    rw [walked]
    cases notes with
    | nil =>
      obtain rfl := Option.some.inj hlast
      have hsize := (Note.size_eq_iff u).mpr ht
      rw [if_pos ⟨rfl, ht⟩, notesSize_cons, hsize]
      rfl
    | cons v notes =>
      rw [List.getLast?_cons_cons] at hlast
      rw [if_neg fun hend => Bool.false_ne_true hend.1, notesSize_cons, notesSize_cons, ← ih hlast, Nat.add_assoc]

end Sections

/-! ## The loops -/

section Loops

variable (host : ByteOrder)

/-- Swapping the header of a note. -/
theorem noteHeader_header (o : ByteOrder) (t : Note) : noteHeader host true (t.header o) = t.header o.flip := by
  have hswap : ∀ v : Nat, cvtField host true wordField (toBytes o 4 v) = toBytes o.flip 4 v := by
    intro v
    rw [cvtField_eq host true wordField (length_toBytes o 4 v), ← reverse_toBytes]
    rfl
  have hlen : ∀ v : Nat, (toBytes o 4 v).length = 4 := fun v => length_toBytes o 4 v
  have hpad : ∀ off, off % 4 = 0 → wordField.pad off = 0 := by
    intro off hoff
    simp only [Field.pad, Field.align, wordField, ceilTo]
    simp only [if_true]
    omega
  have hwidth : wordField.width = 4 := rfl
  unfold noteHeader tofObject Note.header
  simp only [tofFields, hpad 0 rfl, Nat.zero_add, hwidth, List.drop_zero, List.append_assoc, hpad 4 rfl, hpad 8 rfl]
  rw [List.take_left' (hlen _), List.drop_left' (hlen _), List.take_left' (hlen _), List.drop_left' (hlen _),
    List.take_of_length_le (Nat.le_of_eq (hlen _)), hswap, hswap, hswap, List.append_nil]

/-- The words of a header as the host sees them. -/
theorem nativeField_header (toFile : Bool) (t : Note) :
    nativeField host toFile true wordField (window (t.header (if toFile then host else host.flip)) 0 4) =
        t.name.length % 2 ^ 32 ∧
      nativeField host toFile true wordField (window (t.header (if toFile then host else host.flip)) 4 4) =
        t.desc.length % 2 ^ 32 := by
  have hsee : ∀ v : Nat, nativeField host toFile true wordField (toBytes (if toFile then host else host.flip) 4 v) =
      v % 2 ^ 32 := by
    intro v
    cases toFile with
    | true => exact ofBytes_toBytes host 4 v
    | false =>
      have hcvt : cvtField host true wordField (toBytes host.flip 4 v) = toBytes host 4 v := by
        rw [cvtField_eq host true wordField (length_toBytes _ 4 v)]
        show (toBytes host.flip 4 v).reverse = _
        rw [reverse_toBytes, flip_flip]
      have hread : ofBytes host (cvtField host true wordField (toBytes host.flip 4 v)) = v % 256 ^ 4 := by
        rw [hcvt, ofBytes_toBytes]
      exact hread
  generalize (if toFile then host else host.flip) = o at hsee ⊢
  have hfirst : window (t.header o) 0 4 = toBytes o 4 t.name.length := by
    have hfull := window_full (toBytes o 4 t.name.length)
    rw [length_toBytes] at hfull
    rw [Note.header, List.append_assoc, window_append_left (by simp), hfull]
  have hsecond : window (t.header o) 4 4 = toBytes o 4 t.desc.length := by
    have hfull := window_full (toBytes o 4 t.desc.length)
    rw [length_toBytes] at hfull
    have hright := window_append_right (toBytes o 4 t.name.length)
      (toBytes o 4 t.desc.length ++ toBytes o 4 t.type.toNat) 0 4
    rw [length_toBytes] at hright
    rw [Note.header, List.append_assoc, hright, window_append_left (by simp), hfull]
  rw [hfirst, hsecond]
  exact ⟨hsee _, hsee _⟩

/-- A string that starts at `s` with two pieces has the second one after the first one. -/
theorem window_pieces {src a b : List UInt8} {s : Nat} (h : window src s (a.length + b.length) = a ++ b) :
    window src s a.length = a ∧ window src (s + a.length) b.length = b := by
  rw [← window_append_window] at h
  have hlen := congrArg List.length h
  have hle := length_window_le src s a.length
  have hle' := length_window_le src (s + a.length) b.length
  rw [List.length_append, List.length_append] at hlen
  exact List.append_inj h (by omega)

/-- The pieces of a section of notes in the source. -/
theorem window_note {src : List UInt8} {s : Nat} {o : ByteOrder} {t : Note} {notes : List Note}
    (h : window src s (notesSize (t :: notes)) = notesFile o (t :: notes)) :
    window src s 12 = t.header o ∧ window src (s + 12) (t.size - 12) = t.body ∧
      window src (s + t.size) (notesSize notes) = notesFile o notes := by
  have hbody : t.body.length = t.size - 12 := by
    rw [Note.length_body, Note.size, Nat.add_sub_cancel_left]
  rw [notesSize_cons, notesFile_cons, ← Note.length_toFile o t, ← length_notesFile o notes] at h
  obtain ⟨hnote, hrest⟩ := window_pieces h
  rw [Note.toFile, List.length_append] at hnote
  obtain ⟨hhdr, hbod⟩ := window_pieces hnote
  rw [Note.length_header] at hhdr hbod
  rw [hbody] at hbod
  rw [Note.length_toFile, length_notesFile] at hrest
  exact ⟨hhdr, hbod, hrest⟩

/-- A copy of bytes of the source, as a piece of what is stored. -/
theorem copyBytes_wrote {n : Nat} (dst : Mem n) {off s len : Nat} {src bs : List UInt8}
    (hsrc : s + len ≤ src.length) (hn : off + len ≤ n) (hbs : window src s len = bs) :
    ∃ d, copyBytes dst off src s len = .ok () d ∧ Wrote dst d off bs := by
  have hlen : bs.length = len := by
    rw [← hbs]
    exact length_window hsrc
  have hin : off + bs.length ≤ n := by
    rw [hlen]
    exact hn
  refine ⟨_, ?_, wrote_splice dst hin⟩
  rw [copyBytes, readAt_of_le dst hsrc, bind_ok, hbs, write_of_le dst hin]

variable {host} {n : Nat} {src : List UInt8}

theorem roundUp4_eq {v : Nat} (h : v + 3 < 2 ^ 32) : roundUp4 v = ceilTo v 4 := by
  rw [roundUp4, ceilTo, Nat.mod_eq_of_lt h]

theorem ceilTo_four (v : Nat) : v ≤ ceilTo v 4 ∧ ceilTo v 4 % 4 = 0 := by
  rw [ceilTo]
  omega

/-- The conversion to memory swaps the headers of the notes it comes to. -/
theorem noteTomLoop_notes (notes : List Note) : ∀ (fuel : Nat) (dst : Mem n) (off dsz s : Nat),
    window src s (notesSize notes) = notesFile host.flip notes → s + notesSize notes ≤ src.length →
    notesSize notes < 2 ^ 32 → notesSize notes ≤ dsz → off + dsz ≤ n → notesSize notes < fuel →
    ∃ d, noteTomLoop host src fuel dst off dsz s (notesSize notes) = .ok () d ∧
      Wrote dst d off (notesFile host (walked notes)) := by
  induction notes with
  | nil =>
    intro fuel dst off dsz s _ _ _ _ _ hfuel
    obtain ⟨fuel, rfl⟩ : ∃ f, fuel = f + 1 := ⟨fuel - 1, by omega⟩
    exact ⟨dst, rfl, wrote_nil⟩
  | cons t notes ih =>
    intro fuel dst off dsz s hwin hsrc hsize hdsz hn hfuel
    obtain ⟨fuel, rfl⟩ : ∃ f, fuel = f + 1 := ⟨fuel - 1, by omega⟩
    rw [noteTomLoop, walked]
    by_cases hend : notesSize (t :: notes) ≤ 12
    · rw [if_pos hend, if_pos ((notesSize_le_iff t notes).mp hend)]
      exact ⟨dst, rfl, wrote_nil⟩
    rw [if_neg hend, if_neg fun h => hend ((notesSize_le_iff t notes).mpr h)]
    obtain ⟨hhdr, hbody, hrest⟩ := window_note hwin
    rw [notesSize_cons] at hsrc hsize hdsz hfuel ⊢
    have hname := ceilTo_four t.name.length
    have hdesc := ceilTo_four t.desc.length
    have ht : t.size = 12 + (ceilTo t.name.length 4 + ceilTo t.desc.length 4) := rfl
    obtain ⟨hsee, hsee'⟩ := nativeField_header host false t
    rw [Nat.mod_eq_of_lt (by omega)] at hsee hsee'
    have hsz : (roundUp4 t.name.length + roundUp4 t.desc.length) % 2 ^ 32 = t.size - 12 := by
      rw [roundUp4_eq (by omega), roundUp4_eq (by omega), Nat.mod_eq_of_lt (by omega)]
      omega
    have hlen : (t.header host).length = 12 := Note.length_header host t
    have hin : off + (t.header host).length ≤ n := by omega
    obtain ⟨d₁, hcopy, hw₁⟩ := @copyBytes_wrote n (dst.splice off (t.header host) hin) (off + 12)
      (s + 12) (t.size - 12) src t.body (by omega) (by omega) hbody
    obtain ⟨d₂, hloop, hw₂⟩ := ih fuel d₁ (off + 12 + (t.size - 12)) (dsz - 12 - (t.size - 12)) (s + 12 + (t.size - 12))
      (by rw [Nat.add_assoc, Nat.add_sub_cancel' (by omega)]; exact hrest) (by omega) (by omega) (by omega) (by omega)
      (by omega)
    refine ⟨d₂, ?_, ?_⟩
    · have hflip : noteHeader host true (t.header host.flip) = t.header host := by
        rw [noteHeader_header, flip_flip]
      rw [readAt_of_le dst (by omega), bind_ok, hhdr, hflip, write_of_le dst hin, bind_ok]
      dsimp only
      have hsee : nativeField host false true wordField (window (t.header host.flip) 0 4) = t.name.length := hsee
      have hsee' : nativeField host false true wordField (window (t.header host.flip) 4 4) = t.desc.length := hsee'
      rw [hsee, hsee', hsz, if_neg (by omega), hcopy, bind_ok]
      have hleft : t.size + notesSize notes - 12 - (t.size - 12) = notesSize notes := by omega
      rw [hleft]
      exact hloop
    · have hone := (wrote_splice dst hin).append (by rw [hlen]; exact hw₁)
      rw [notesFile_cons, Note.toFile]
      refine hone.append ?_
      rw [List.length_append, hlen, Note.length_body]
      have hat : off + 12 + (t.size - 12) = off + (12 + (ceilTo t.name.length 4 + ceilTo t.desc.length 4)) := by omega
      rw [← hat]
      exact hw₂

/-- The conversion to the file swaps the headers of the notes it comes to. -/
theorem noteTofLoop_notes (notes : List Note) : ∀ (fuel : Nat) (dst : Mem n) (off s : Nat),
    window src s (notesSize notes) = notesFile host notes → s + notesSize notes ≤ src.length →
    notesSize notes < 2 ^ 32 → off + notesSize notes ≤ n → notesSize notes < fuel →
    ∃ d, noteTofLoop host src fuel dst off s (notesSize notes) = .ok () d ∧
      Wrote dst d off (notesFile host.flip (walked notes)) := by
  induction notes with
  | nil =>
    intro fuel dst off s _ _ _ _ hfuel
    obtain ⟨fuel, rfl⟩ : ∃ f, fuel = f + 1 := ⟨fuel - 1, by omega⟩
    exact ⟨dst, rfl, wrote_nil⟩
  | cons t notes ih =>
    intro fuel dst off s hwin hsrc hsize hn hfuel
    obtain ⟨fuel, rfl⟩ : ∃ f, fuel = f + 1 := ⟨fuel - 1, by omega⟩
    rw [noteTofLoop, walked]
    by_cases hend : notesSize (t :: notes) ≤ 12
    · rw [if_pos hend, if_pos ((notesSize_le_iff t notes).mp hend)]
      exact ⟨dst, rfl, wrote_nil⟩
    rw [if_neg hend, if_neg fun h => hend ((notesSize_le_iff t notes).mpr h)]
    obtain ⟨hhdr, hbody, hrest⟩ := window_note hwin
    rw [notesSize_cons] at hsrc hsize hn hfuel ⊢
    have hname := ceilTo_four t.name.length
    have hdesc := ceilTo_four t.desc.length
    have ht : t.size = 12 + (ceilTo t.name.length 4 + ceilTo t.desc.length 4) := rfl
    obtain ⟨hsee, hsee'⟩ := nativeField_header host true t
    rw [Nat.mod_eq_of_lt (by omega)] at hsee hsee'
    have hsz : min (roundUp4 (roundUp4 t.name.length + t.desc.length)) (t.size + notesSize notes - 12) = t.size - 12 := by
      have hsum : ceilTo (ceilTo t.name.length 4 + t.desc.length) 4 = ceilTo t.name.length 4 + ceilTo t.desc.length 4 := by
        simp only [ceilTo]
        omega
      rw [@roundUp4_eq t.name.length (by omega), roundUp4_eq (by omega), hsum]
      omega
    have hlen : (t.header host.flip).length = 12 := Note.length_header host.flip t
    have hin : off + (t.header host.flip).length ≤ n := by omega
    obtain ⟨d₁, hcopy, hw₁⟩ := @copyBytes_wrote n (dst.splice off (t.header host.flip) hin) (off + 12)
      (s + 12) (t.size - 12) src t.body (by omega) (by omega) hbody
    obtain ⟨d₂, hloop, hw₂⟩ := ih fuel d₁ (off + 12 + (t.size - 12)) (s + 12 + (t.size - 12))
      (by rw [Nat.add_assoc, Nat.add_sub_cancel' (by omega)]; exact hrest) (by omega) (by omega) (by omega) (by omega)
    refine ⟨d₂, ?_, ?_⟩
    · rw [readAt_of_le dst (by omega), bind_ok, hhdr, noteHeader_header, write_of_le dst hin, bind_ok]
      dsimp only
      have hsee : nativeField host true true wordField (window (t.header host) 0 4) = t.name.length := hsee
      have hsee' : nativeField host true true wordField (window (t.header host) 4 4) = t.desc.length := hsee'
      rw [hsee, hsee', hsz, hcopy, bind_ok]
      have hleft : t.size + notesSize notes - 12 - (t.size - 12) = notesSize notes := by omega
      rw [hleft]
      exact hloop
    · have hone := (wrote_splice dst hin).append (by rw [hlen]; exact hw₁)
      rw [notesFile_cons, Note.toFile]
      refine hone.append ?_
      rw [List.length_append, hlen, Note.length_body]
      have hat : off + 12 + (t.size - 12) = off + (12 + (ceilTo t.name.length 4 + ceilTo t.desc.length 4)) := by omega
      rw [← hat]
      exact hw₂

end Loops

/-! ## The codec -/

section Codec

variable (host : ByteOrder) (swap : Bool)

/-- To memory and back, whatever the two destinations held: the conversion to memory succeeds and swaps
exactly the headers, and the conversion to the file then gives the bytes of the file. -/
def NoteCodec (notes : List Note) : Prop :=
  ∀ dst dst' : Mem (notesSize notes), ∃ d d',
    cvtNoteTom host _ dst 0 (notesSize notes) (notesFile (fileOrder host swap) notes) (notesSize notes) swap =
        .ok () d ∧ d.bytes = notesFile host notes ∧
      cvtNoteTof host _ dst' 0 (notesSize notes) d.bytes (notesSize notes) swap = .ok () d' ∧
        d'.bytes = notesFile (fileOrder host swap) notes

/-- On any bytes both directions read only the source, store only in a destination of the same size, and
return. -/
def NotesSafe : Prop :=
  ∀ (src : List UInt8) (dst : Mem src.length),
    Tame dst 0 src.length (cvtNoteTom host src.length dst 0 src.length src src.length swap) ∧
      Tame dst 0 src.length (cvtNoteTof host src.length dst 0 src.length src src.length swap)

theorem notesSafe : NotesSafe host swap := fun src dst =>
  ⟨tame_cvtNoteTom host swap dst (by omega) (Nat.le_refl _), tame_cvtNoteTof host swap dst (by omega) (Nat.le_refl _)⟩

variable {host} {notes : List Note}

theorem cvtNoteTom_swap (hne : notes ≠ []) (hsize : notesSize notes < 2 ^ 32) (dst : Mem (notesSize notes)) :
    ∃ d, cvtNoteTom host _ dst 0 (notesSize notes) (notesFile host.flip notes) (notesSize notes) true = .ok () d ∧
      Wrote dst d 0 (notesFile host (walked notes)) := by
  have hlen := length_notesFile host.flip notes
  have hmin : 12 ≤ notesSize notes := by
    obtain ⟨t, rest, rfl⟩ := List.exists_cons_of_ne_nil hne
    rw [notesSize_cons, Note.size]
    omega
  have hwin : window (notesFile host.flip notes) 0 (notesSize notes) = notesFile host.flip notes := by
    rw [← hlen]
    exact window_full _
  rw [cvtNoteTom, if_neg (Nat.lt_irrefl _), if_neg (by omega)]
  exact noteTomLoop_notes notes (notesSize notes + 1) dst 0 (notesSize notes) 0 hwin (by omega) hsize
    (Nat.le_refl _) (by omega) (by omega)

theorem cvtNoteTof_swap (hsize : notesSize notes < 2 ^ 32) (dst : Mem (notesSize notes)) :
    ∃ d, cvtNoteTof host _ dst 0 (notesSize notes) (notesFile host notes) (notesSize notes) true = .ok () d ∧
      Wrote dst d 0 (notesFile host.flip (walked notes)) := by
  have hlen := length_notesFile host notes
  have hwin : window (notesFile host notes) 0 (notesSize notes) = notesFile host notes := by
    rw [← hlen]
    exact window_full _
  rw [cvtNoteTof, if_neg (Nat.lt_irrefl _)]
  exact noteTofLoop_notes notes (notesSize notes + 1) dst 0 0 hwin (by omega) hsize (by omega) (by omega)

/-- Without a swap both directions copy the section. -/
theorem noteCodec_plain (hne : notes ≠ []) : NoteCodec host false notes := by
  intro dst dst'
  have hlen := length_notesFile host notes
  have hmin : 12 ≤ notesSize notes := by
    obtain ⟨t, rest, rfl⟩ := List.exists_cons_of_ne_nil hne
    rw [notesSize_cons, Note.size]
    omega
  have hwin : window (notesFile host notes) 0 (notesSize notes) = notesFile host notes := by
    rw [← hlen]
    exact window_full _
  obtain ⟨d, hd, hwrote⟩ := @copyBytes_wrote _ dst 0 0 _ _ _ (by omega) (by omega) hwin
  obtain ⟨d', hd', hwrote'⟩ := @copyBytes_wrote _ dst' 0 0 _ _ _ (by omega) (by omega) hwin
  have hbytes := hwrote.bytes_eq hlen
  refine ⟨d, d', ?_, hbytes, ?_, hwrote'.bytes_eq hlen⟩
  · rw [cvtNoteTom, if_neg (Nat.lt_irrefl _), if_neg (by omega)]
    exact hd
  · rw [hbytes, cvtNoteTof, if_neg (Nat.lt_irrefl _)]
    exact hd'

theorem noteCodec_swap (hne : notes ≠ []) (hsize : notesSize notes < 2 ^ 32)
    (hlast : ∀ t ∈ notes.getLast?, ¬ t.IsEmpty) : NoteCodec host true notes := by
  intro dst dst'
  obtain ⟨d, hd, hwrote⟩ := @cvtNoteTom_swap host notes hne hsize dst
  obtain ⟨d', hd', hwrote'⟩ := @cvtNoteTof_swap host notes hsize dst'
  rw [walked_of_last hlast] at hwrote hwrote'
  have hbytes := hwrote.bytes_eq (length_notesFile host notes)
  exact ⟨d, d', hd, hbytes, by rw [hbytes]; exact hd', hwrote'.bytes_eq (length_notesFile host.flip notes)⟩

/-- An empty note at the end is not reached: the end of the destination keeps what it held. -/
theorem not_noteCodec_swap (hne : notes ≠ []) (hsize : notesSize notes < 2 ^ 32) {t : Note}
    (hlast : notes.getLast? = some t) (ht : t.IsEmpty) : ¬ NoteCodec host true notes := by
  intro hcodec
  have hshort := walked_of_empty_last hlast ht
  -- two destinations whose last bytes differ
  have hkeep : ∀ b : UInt8, ∃ d : Mem (notesSize notes), d.bytes = notesFile host notes ∧
      d.bytes[notesSize (walked notes)]? = some b := by
    intro b
    obtain ⟨d, hd, hwrote⟩ := @cvtNoteTom_swap host notes hne hsize (.fresh (fun _ => b) _)
    obtain ⟨d₁, _, hd₁, hbytes, _, _⟩ := hcodec (.fresh (fun _ => b) _) (.fresh (fun _ => b) _)
    have hsame : d₁ = d := by
      have hrun := hd₁.symm.trans hd
      exact (Outcome.ok.inj hrun).2
    subst hsame
    refine ⟨d₁, hbytes, ?_⟩
    rw [hwrote.1 _ (.inr (by rw [length_notesFile]; omega))]
    simp only [Mem.fresh, List.getElem?_map]
    rw [List.getElem?_range (by omega)]
    rfl
  obtain ⟨d, hd, hzero⟩ := hkeep 0
  obtain ⟨d', hd', hone⟩ := hkeep 1
  rw [hd] at hzero
  rw [hd', hzero] at hone
  cases hone

variable (host)

/-- Note translation is a codec exactly when nothing is swapped or the last note of the section has a name or
a descriptor; and it is safe on any bytes. -/
theorem noteCodec_iff (hne : notes ≠ []) (hsize : notesSize notes < 2 ^ 32) :
    NoteCodec host swap notes ∧ NotesSafe host swap ↔ swap = false ∨ ∀ t ∈ notes.getLast?, ¬ t.IsEmpty := by
  constructor
  · rintro ⟨hcodec, -⟩
    cases swap with
    | false => exact .inl rfl
    | true => exact .inr fun t hlast ht => not_noteCodec_swap hne hsize hlast ht hcodec
  · intro h
    refine ⟨?_, notesSafe host swap⟩
    cases swap with
    | false => exact noteCodec_plain hne
    | true => exact noteCodec_swap hne hsize (h.resolve_left nofun)

def emptyNote : Note := ⟨1, [], [], [], [], rfl, rfl⟩

/-- A note of type 1 with a name of four bytes. -/
def namedNote : Note := ⟨1, [71, 78, 85, 0], [], [], [], rfl, rfl⟩

theorem noteCodec_iff_named :
    NoteCodec .little true [emptyNote, namedNote] ∧ NotesSafe .little true ↔
      true = false ∨ ∀ t ∈ [emptyNote, namedNote].getLast?, ¬ t.IsEmpty :=
  noteCodec_iff .little true (List.cons_ne_nil _ _) (by decide)

/-- A section that is one empty note is not translated. -/
theorem not_noteCodec_empty : ¬ (NoteCodec .little true [emptyNote] ∧ NotesSafe .little true) := fun h =>
  not_noteCodec_swap (List.cons_ne_nil _ _) (by decide) rfl ⟨rfl, rfl⟩ h.1

end Codec

end LibElf.Toolchain
