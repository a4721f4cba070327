import LibElf.Base.Endian
import LibElf.Base.Word

/-!
# Structures in memory and in a file

A C structure is a list of fields. In memory each field sits at the next multiple of its
alignment; in a file the fields are packed. Translating an object moves each field from one
layout to the other and, when the byte orders differ, reverses the bytes of each number.

1. `naturalSize` and `packedSize`, the two sizes of a structure.
2. `tofObject` and `tomObject` translate one object, with `length_tofObject` and
   `length_tomObject`.
3. `encode` and `decode`, the values of the fields as bytes: `decode_encode`, and
   `tofObject_encode` and `decode_tomObject`, the translation of an encoded record when the two
   layouts agree.
4. `isMember`, the bytes of an object that a translation to memory stores: `getElem?_tomObject_member`
   and `getElem?_tomObject_padding`.
-/

namespace LibElf

/-- A field: how many bytes it has, and whether they are a number or a string of bytes. -/
structure Field where
  width : Nat
  numeric : Bool
  width_pos : 0 < width
deriving DecidableEq

theorem halfWidth_pos : 0 < 2 := by decide
theorem wordWidth_pos : 0 < 4 := by decide
theorem xwordWidth_pos : 0 < 8 := by decide

/-- A number is aligned to its width, a byte string is not aligned. -/
def Field.align (f : Field) : Nat := if f.numeric then f.width else 1

/-- The bytes of padding before a field at offset `off`. -/
def Field.pad (f : Field) (off : Nat) : Nat := ceilTo off f.align - off

/-- The end of the last field when the first one may start at `off`. -/
def naturalEnd : Nat → List Field → Nat
  | off, [] => off
  | off, f :: fs => naturalEnd (off + f.pad off + f.width) fs

/-- The alignment of the structure in memory. -/
def naturalAlign (fs : List Field) : Nat := (fs.map Field.align).foldl max 1

/-- The size of the structure in memory. -/
def naturalSize (fs : List Field) : Nat := ceilTo (naturalEnd 0 fs) (naturalAlign fs)

def packedSize (fs : List Field) : Nat := (fs.map Field.width).sum

theorem packedSize_nil : packedSize [] = 0 := rfl

theorem packedSize_cons (f : Field) (fs : List Field) : packedSize (f :: fs) = f.width + packedSize fs := rfl

theorem packedSize_append (fs gs : List Field) : packedSize (fs ++ gs) = packedSize fs + packedSize gs := by
  rw [packedSize, List.map_append, List.sum_append]
  rfl

/-- No field needs padding before it when the first one starts at `off`. -/
def isPacked : Nat → List Field → Bool
  | _, [] => true
  | off, f :: fs => decide (f.pad off = 0) && isPacked (off + f.width) fs

def cvtField (host : ByteOrder) (swap : Bool) (f : Field) (bs : List UInt8) : List UInt8 :=
  if swap && f.numeric then toBytes host f.width (swapWord f.width (ofBytes host bs)) else bs

/-- Translate the fields of the object at `m`, the first of them at offset `off`, to the file. -/
def tofFields (host : ByteOrder) (swap : Bool) : Nat → List Field → List UInt8 → List UInt8
  | _, [], _ => []
  | off, f :: fs, m =>
    cvtField host swap f ((m.drop (f.pad off)).take f.width) ++
      tofFields host swap (off + f.pad off + f.width) fs (m.drop (f.pad off + f.width))

def tofObject (host : ByteOrder) (swap : Bool) (fs : List Field) (m : List UInt8) : List UInt8 :=
  tofFields host swap 0 fs m

/-- Translate the fields at `s` into the object whose bytes from offset `off` on are `m`. Members are assigned one
by one, so that the padding bytes stay as they are. -/
def tomFields (host : ByteOrder) (swap : Bool) : Nat → List Field → List UInt8 → List UInt8 → List UInt8
  | _, [], m, _ => m
  | off, f :: fs, m, s =>
    m.take (f.pad off) ++ cvtField host swap f (s.take f.width) ++
      tomFields host swap (off + f.pad off + f.width) fs (m.drop (f.pad off + f.width)) (s.drop f.width)

/-- Translate one object to its memory representation, in the place of the object `m`. -/
def tomObject (host : ByteOrder) (swap : Bool) (fs : List Field) (m s : List UInt8) : List UInt8 :=
  tomFields host swap 0 fs m s

/-- An object in memory that `calloc` returned. -/
def zeroObject (fs : List Field) : List UInt8 := List.replicate (naturalSize fs) 0

/-- The byte `i` bytes behind the offset `off`, where the first field may start, belongs to a field. -/
def memberAt : Nat → List Field → Nat → Bool
  | _, [], _ => false
  | off, f :: fs, i =>
    if i < f.pad off + f.width then decide (f.pad off ≤ i)
    else memberAt (off + f.pad off + f.width) fs (i - (f.pad off + f.width))

/-- Byte `i` of the structure in memory belongs to a field; the others are padding. -/
def isMember (fs : List Field) (i : Nat) : Bool := memberAt 0 fs i

/-- The byte order of the file, when the host has order `host`. -/
def fileOrder (host : ByteOrder) (swap : Bool) : ByteOrder := if swap then host.flip else host

def encodeField (o : ByteOrder) (f : Field) (v : Nat) : List UInt8 :=
  if f.numeric then toBytes o f.width v else leBytes f.width v

def decodeField (o : ByteOrder) (f : Field) (bs : List UInt8) : Nat :=
  if f.numeric then ofBytes o bs else ofLeBytes bs

/-- The bytes of a packed record with the given field values. -/
def encode (o : ByteOrder) : List Field → List Nat → List UInt8
  | f :: fs, v :: vs => encodeField o f v ++ encode o fs vs
  | _, _ => []

/-- The field values of a packed record with the given bytes. -/
def decode (o : ByteOrder) : List Field → List UInt8 → List Nat
  | [], _ => []
  | f :: fs, bs => decodeField o f (bs.take f.width) :: decode o fs (bs.drop f.width)

/-- Every value fits its field. -/
def fits : List Field → List Nat → Bool
  | [], [] => true
  | f :: fs, v :: vs => decide (v < 256 ^ f.width) && fits fs vs
  | _, _ => false

/-! ## Lengths -/

section Lengths

variable (host : ByteOrder) (swap : Bool)

theorem length_cvtField (f : Field) {bs : List UInt8} (h : bs.length = f.width) :
    (cvtField host swap f bs).length = f.width := by
  unfold cvtField
  split
  · exact length_toBytes host _ _
  · exact h

/-- Swapping a number is reversing its bytes. -/
theorem cvtField_eq (f : Field) {bs : List UInt8} (h : bs.length = f.width) :
    cvtField host swap f bs = if swap && f.numeric then bs.reverse else bs := by
  unfold cvtField
  split
  · rw [toBytes_swapWord host f.width_pos, ← h, toBytes_ofBytes]
  · rfl

theorem le_naturalEnd (fs : List Field) : ∀ off, off ≤ naturalEnd off fs := by
  induction fs with
  | nil => intro off; exact Nat.le_refl off
  | cons f fs ih =>
    intro off
    have := ih (off + f.pad off + f.width)
    rw [naturalEnd]
    omega

theorem length_tofFields (fs : List Field) : ∀ (off : Nat) (m : List UInt8),
    naturalEnd off fs ≤ off + m.length →
    (tofFields host swap off fs m).length = packedSize fs := by
  induction fs with
  | nil => intro off m _; rfl
  | cons f fs ih =>
    intro off m h
    rw [naturalEnd] at h
    have hend := le_naturalEnd fs (off + f.pad off + f.width)
    have hfield : ((m.drop (f.pad off)).take f.width).length = f.width := by
      rw [List.length_take, List.length_drop]
      omega
    have hrest := ih (off + f.pad off + f.width) (m.drop (f.pad off + f.width)) (by
      rw [List.length_drop]
      omega)
    rw [tofFields, List.length_append, length_cvtField host swap f hfield, hrest]
    simp [packedSize]

theorem length_tomFields (fs : List Field) : ∀ (off : Nat) (m s : List UInt8),
    s.length = packedSize fs → naturalEnd off fs ≤ off + m.length →
    (tomFields host swap off fs m s).length = m.length := by
  induction fs with
  | nil => intro off m s _ _; rfl
  | cons f fs ih =>
    intro off m s h hm
    rw [naturalEnd] at hm
    have hend := le_naturalEnd fs (off + f.pad off + f.width)
    have hsum : packedSize (f :: fs) = f.width + packedSize fs := by simp [packedSize]
    have hfield : (s.take f.width).length = f.width := by
      rw [List.length_take]
      omega
    have hrest := ih (off + f.pad off + f.width) (m.drop (f.pad off + f.width)) (s.drop f.width)
      (by rw [List.length_drop]; omega) (by rw [List.length_drop]; omega)
    rw [tomFields, List.length_append, List.length_append, hrest, length_cvtField host swap f hfield,
      List.length_take, List.length_drop]
    omega

theorem naturalAlign_pos (fs : List Field) : 0 < naturalAlign fs := by
  have hmono : ∀ (l : List Nat) (a : Nat), a ≤ l.foldl max a := by
    intro l
    induction l with
    | nil => intro a; exact Nat.le_refl a
    | cons b l ih =>
      intro a
      exact Nat.le_trans (Nat.le_max_left a b) (ih (max a b))
  exact hmono _ 1

theorem naturalEnd_le_naturalSize (fs : List Field) : naturalEnd 0 fs ≤ naturalSize fs :=
  le_ceilTo (naturalAlign_pos fs)

theorem length_tofObject {fs : List Field} {m : List UInt8} (h : m.length = naturalSize fs) :
    (tofObject host swap fs m).length = packedSize fs :=
  length_tofFields host swap fs 0 m (by
    have := naturalEnd_le_naturalSize fs
    omega)

theorem length_tomObject {fs : List Field} {m s : List UInt8} (hm : m.length = naturalSize fs)
    (h : s.length = packedSize fs) : (tomObject host swap fs m s).length = naturalSize fs := by
  have hle := naturalEnd_le_naturalSize fs
  exact (length_tomFields host swap fs 0 m s h (by omega)).trans hm

@[simp] theorem length_zeroObject (fs : List Field) : (zeroObject fs).length = naturalSize fs :=
  List.length_replicate

end Lengths

/-! ## Records -/

@[simp] theorem length_encodeField (o : ByteOrder) (f : Field) (v : Nat) :
    (encodeField o f v).length = f.width := by
  unfold encodeField
  split
  · exact length_toBytes o _ _
  · exact length_leBytes _ _

theorem length_encode (o : ByteOrder) {fs : List Field} : ∀ {vs : List Nat},
    vs.length = fs.length → (encode o fs vs).length = packedSize fs := by
  induction fs with
  | nil => intro vs _; cases vs <;> rfl
  | cons f fs ih =>
    intro vs h
    cases vs with
    | nil => cases h
    | cons v vs =>
      rw [encode, List.length_append, length_encodeField, ih (Nat.succ.inj h)]
      simp [packedSize]

theorem decodeField_encodeField (o : ByteOrder) (f : Field) (v : Nat) :
    decodeField o f (encodeField o f v) = v % 256 ^ f.width := by
  unfold decodeField encodeField
  split
  · exact ofBytes_toBytes o _ v
  · exact ofLeBytes_leBytes _ v

/-- Reading a record back gives its values, when they fit their fields. -/
theorem decode_encode (o : ByteOrder) {fs : List Field} : ∀ {vs : List Nat} {rest : List UInt8},
    fits fs vs = true → decode o fs (encode o fs vs ++ rest) = vs := by
  induction fs with
  | nil =>
    intro vs rest h
    cases vs with
    | nil => rfl
    | cons v vs => cases h
  | cons f fs ih =>
    intro vs rest h
    cases vs with
    | nil => cases h
    | cons v vs =>
      rw [fits, Bool.and_eq_true, decide_eq_true_eq] at h
      have hlen := length_encodeField o f v
      rw [encode, List.append_assoc, decode, List.take_left' hlen, List.drop_left' hlen,
        decodeField_encodeField, Nat.mod_eq_of_lt h.1, ih h.2]

/-- Translating the bytes of a field is encoding it in the order of the file. -/
theorem cvtField_encodeField (host : ByteOrder) (swap : Bool) (f : Field) (v : Nat) :
    cvtField host swap f (encodeField host f v) = encodeField (fileOrder host swap) f v := by
  rw [cvtField_eq host swap f (length_encodeField host f v)]
  unfold encodeField fileOrder
  cases swap
  · simp
  · by_cases h : f.numeric <;> simp [h, reverse_toBytes]

theorem decodeField_cvtField (host : ByteOrder) (swap : Bool) (f : Field) {bs : List UInt8}
    (h : bs.length = f.width) :
    decodeField host f (cvtField host swap f bs) = decodeField (fileOrder host swap) f bs := by
  rw [cvtField_eq host swap f h]
  unfold decodeField fileOrder
  cases swap
  · simp
  · by_cases hn : f.numeric <;> simp [hn, ofBytes_reverse]

theorem tofFields_encode (host : ByteOrder) (swap : Bool) {fs : List Field} :
    ∀ {off : Nat} {vs : List Nat} {rest : List UInt8}, isPacked off fs = true →
    vs.length = fs.length →
    tofFields host swap off fs (encode host fs vs ++ rest) = encode (fileOrder host swap) fs vs := by
  induction fs with
  | nil => intro off vs rest _ _; cases vs <;> rfl
  | cons f fs ih =>
    intro off vs rest hp h
    cases vs with
    | nil => cases h
    | cons v vs =>
      rw [isPacked, Bool.and_eq_true, decide_eq_true_eq] at hp
      have hlen := length_encodeField host f v
      rw [tofFields, hp.1, List.drop_zero, Nat.add_zero, Nat.zero_add, encode, List.append_assoc,
        List.take_left' hlen, List.drop_left' hlen, cvtField_encodeField, ih hp.2 (Nat.succ.inj h),
        encode]

/-- The file representation of a record without padding. -/
theorem tofObject_encode (host : ByteOrder) (swap : Bool) {fs : List Field} {vs : List Nat}
    (hp : isPacked 0 fs = true) (h : vs.length = fs.length) :
    tofObject host swap fs (encode host fs vs) = encode (fileOrder host swap) fs vs := by
  have hnil : tofFields host swap 0 fs (encode host fs vs ++ []) =
      encode (fileOrder host swap) fs vs := tofFields_encode host swap hp h
  rwa [List.append_nil] at hnil

theorem decode_tomFields (host : ByteOrder) (swap : Bool) {fs : List Field} :
    ∀ {off : Nat} {m s : List UInt8}, isPacked off fs = true → s.length = packedSize fs →
    decode host fs (tomFields host swap off fs m s) = decode (fileOrder host swap) fs s := by
  induction fs with
  | nil => intro off m s _ _; rfl
  | cons f fs ih =>
    intro off m s hp h
    rw [isPacked, Bool.and_eq_true, decide_eq_true_eq] at hp
    have hsum : packedSize (f :: fs) = f.width + packedSize fs := by simp [packedSize]
    have hfield : (s.take f.width).length = f.width := by
      rw [List.length_take]
      omega
    have hcvt := length_cvtField host swap f hfield
    have hrest : (s.drop f.width).length = packedSize fs := by
      rw [List.length_drop]
      omega
    rw [tomFields, hp.1, List.take_zero, List.nil_append, Nat.add_zero, decode,
      List.take_left' hcvt, List.drop_left' hcvt, decodeField_cvtField host swap f hfield, ih hp.2 hrest, decode]

/-- The values of a record without padding, read from its file representation. -/
theorem decode_tomObject (host : ByteOrder) (swap : Bool) {fs : List Field} {m s : List UInt8}
    (hp : isPacked 0 fs = true) (h : s.length = packedSize fs) :
    decode host fs (tomObject host swap fs m s) = decode (fileOrder host swap) fs s :=
  decode_tomFields host swap hp h

/-! ## Members and padding -/

section Members

variable (host : ByteOrder) (swap : Bool)

/-- A translation to memory leaves the padding alone. -/
theorem getElem?_tomFields_padding (fs : List Field) : ∀ {off i : Nat} {m s : List UInt8},
    s.length = packedSize fs → naturalEnd off fs ≤ off + m.length → memberAt off fs i = false →
    (tomFields host swap off fs m s)[i]? = m[i]? := by
  induction fs with
  | nil => exact fun _ _ _ => rfl
  | cons f fs ih =>
    intro off i m s hs hm hi
    rw [naturalEnd] at hm
    have hend := le_naturalEnd fs (off + f.pad off + f.width)
    have hsum : packedSize (f :: fs) = f.width + packedSize fs := by simp [packedSize]
    have hfield := @length_cvtField host swap f (s.take f.width) (by rw [List.length_take]; omega)
    have hpad : (m.take (f.pad off)).length = f.pad off := by
      rw [List.length_take]
      omega
    rw [memberAt] at hi
    rw [tomFields]
    split at hi
    · have hlt : i < f.pad off := by simpa using hi
      rw [List.append_assoc, List.getElem?_append_left (by omega), List.getElem?_take, if_pos hlt]
    · next hge =>
      rw [List.getElem?_append_right (by rw [List.length_append]; omega), List.length_append, hpad, hfield,
        ih (by rw [List.length_drop]; omega) (by rw [List.length_drop]; omega) hi, List.getElem?_drop]
      congr 1
      omega

/-- The members do not depend on the object they are stored in. -/
theorem getElem?_tomFields_member (fs : List Field) : ∀ {off i : Nat} {m m' s : List UInt8},
    s.length = packedSize fs → naturalEnd off fs ≤ off + m.length → m'.length = m.length →
    memberAt off fs i = true →
    (tomFields host swap off fs m s)[i]? = (tomFields host swap off fs m' s)[i]? := by
  induction fs with
  | nil => exact fun _ _ _ h => nomatch h
  | cons f fs ih =>
    intro off i m m' s hs hm hm' hi
    rw [naturalEnd] at hm
    have hend := le_naturalEnd fs (off + f.pad off + f.width)
    have hsum : packedSize (f :: fs) = f.width + packedSize fs := by simp [packedSize]
    have hfield := @length_cvtField host swap f (s.take f.width) (by rw [List.length_take]; omega)
    have hpad : (m.take (f.pad off)).length = f.pad off := by
      rw [List.length_take]
      omega
    have hpad' : (m'.take (f.pad off)).length = f.pad off := by
      rw [List.length_take]
      omega
    rw [memberAt] at hi
    rw [tomFields, tomFields]
    split at hi
    · have hle : f.pad off ≤ i := by simpa using hi
      rw [List.append_assoc, List.append_assoc, List.getElem?_append_right (by omega),
        List.getElem?_append_left (by omega), List.getElem?_append_right (by omega),
        List.getElem?_append_left (by omega), hpad, hpad']
    · next hge =>
      rw [List.getElem?_append_right (by rw [List.length_append]; omega),
        List.getElem?_append_right (by rw [List.length_append]; omega), List.length_append,
        List.length_append, hpad, hpad', hfield]
      exact ih (by rw [List.length_drop]; omega) (by rw [List.length_drop]; omega)
        (by rw [List.length_drop, List.length_drop, hm']) hi

variable {fs : List Field} {m m' s : List UInt8} {i : Nat}

theorem getElem?_tomObject_padding (hm : m.length = naturalSize fs) (hs : s.length = packedSize fs)
    (hi : isMember fs i = false) : (tomObject host swap fs m s)[i]? = m[i]? := by
  have hle := naturalEnd_le_naturalSize fs
  exact getElem?_tomFields_padding host swap fs hs (by omega) hi

theorem getElem?_tomObject_member (hm : m.length = naturalSize fs) (hm' : m'.length = naturalSize fs)
    (hs : s.length = packedSize fs) (hi : isMember fs i = true) :
    (tomObject host swap fs m s)[i]? = (tomObject host swap fs m' s)[i]? := by
  have hle := naturalEnd_le_naturalSize fs
  exact getElem?_tomFields_member host swap fs hs (by omega) (hm'.trans hm.symm) hi

end Members

end LibElf
