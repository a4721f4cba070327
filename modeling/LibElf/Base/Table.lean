import LibElf.Base.Memory
import LibElf.Base.Record

/-!
# Tables of records

A table is a byte string that holds records of one size, one after the other. Translating a table
is translating each of its records.

1. `records f size n bs`, what `f` makes of each of the `n` records at the start of `bs`, with the
   rules for the first record, the last one and a table made of pieces.
2. `records_flatten`: a translated table read as a table of records of the new size.
3. `recordsInto`, a table that is stored over another one, of which the padding remains.
4. `fieldValues`, the values in a record in memory, and the two translations of a record as
   functions on values: `tofObject_eq`, `fieldValues_tomObject`, `tofObject_tomObject`.
-/

namespace LibElf

/-! ## Records -/

section Records

variable {α : Type}

/-- The records of a table, `size` bytes each. -/
def records (ofFile : List UInt8 → α) (size : Nat) : Nat → List UInt8 → List α
  | 0, _ => []
  | n + 1, bs => ofFile (bs.take size) :: records ofFile size n (bs.drop size)

variable {f : List UInt8 → α} {size : Nat}

theorem length_records (f : List UInt8 → α) (size : Nat) (n : Nat) (bs : List UInt8) :
    (records f size n bs).length = n := by
  induction n generalizing bs with
  | zero => rfl
  | succ n ih => rw [records, List.length_cons, ih]

/-- A table whose first record is given. -/
theorem records_append {a : List UInt8} (h : a.length = size) (n : Nat) (rest : List UInt8) :
    records f size (n + 1) (a ++ rest) = f a :: records f size n rest := by
  rw [records, List.take_left' h, List.drop_left' h]

/-- A table that is made record by record. -/
theorem records_flatMap {β : Type} {g : β → List UInt8} (hg : ∀ b, (g b).length = size) (bs : List β) :
    records f size bs.length (bs.flatMap g) = bs.map fun b => f (g b) := by
  induction bs with
  | nil => rfl
  | cons b bs ih => rw [List.flatMap_cons, List.length_cons, records_append (hg b), ih, List.map_cons]

/-- Two tables, one after the other. -/
theorem records_add (n : Nat) {b : List UInt8} (m : Nat) : ∀ {a : List UInt8}, a.length = m * size →
    records f size (m + n) (a ++ b) = records f size m a ++ records f size n b := by
  induction m with
  | zero =>
    intro a h
    rw [Nat.zero_mul] at h
    rw [List.length_eq_zero_iff.mp h, Nat.zero_add]
    rfl
  | succ m ih =>
    intro a h
    rw [Nat.add_mul, Nat.one_mul] at h
    have hfirst : size ≤ a.length := by omega
    rw [Nat.add_right_comm, records, records, List.take_append_of_le_length hfirst, List.drop_append_of_le_length hfirst,
      ih (by rw [List.length_drop]; omega)]
    rfl

/-- Records read alike give the same table. -/
theorem records_congr {g : List UInt8 → α} (h : ∀ r, r.length = size → f r = g r) (n : Nat) :
    ∀ bs : List UInt8, n * size ≤ bs.length → records f size n bs = records g size n bs := by
  induction n with
  | zero => exact fun _ _ => rfl
  | succ n ih =>
    intro bs hlen
    rw [Nat.add_mul, Nat.one_mul] at hlen
    have hfirst : (bs.take size).length = size := by
      rw [List.length_take]
      omega
    have hrest : n * size ≤ (bs.drop size).length := by
      rw [List.length_drop]
      omega
    rw [records, records, h _ hfirst, ih _ hrest]

/-- Only the bytes of the table count. -/
theorem records_window (n : Nat) {bs : List UInt8} (h : n * size ≤ bs.length) :
    records f size n (window bs 0 (n * size)) = records f size n bs := by
  induction n generalizing bs with
  | zero => rfl
  | succ n ih =>
    have hmul : (n + 1) * size = size + n * size := by rw [Nat.add_mul, Nat.one_mul, Nat.add_comm]
    rw [hmul] at h ⊢
    have hfirst : (window bs 0 size).length = size := length_window (by omega)
    rw [← window_append_window, Nat.zero_add, records_append hfirst, records]
    have hrest : window bs size (n * size) = window (bs.drop size) 0 (n * size) := by
      rw [window, window, List.drop_zero]
    rw [hrest, ih (by rw [List.length_drop]; omega)]
    rfl

end Records

section Translated

variable {f : List UInt8 → List UInt8} {size size' : Nat}

/-- The size of a translated table. -/
theorem length_flatten_records (hf : ∀ r, r.length = size → (f r).length = size') (n : Nat) :
    ∀ bs : List UInt8, n * size ≤ bs.length → (records f size n bs).flatten.length = n * size' := by
  induction n with
  | zero =>
    intro _ _
    rw [Nat.zero_mul]
    rfl
  | succ n ih =>
    intro bs hlen
    rw [Nat.add_mul, Nat.one_mul] at hlen
    have hfirst : (bs.take size).length = size := by
      rw [List.length_take]
      omega
    have hrest : n * size ≤ (bs.drop size).length := by
      rw [List.length_drop]
      omega
    rw [records, List.flatten_cons, List.length_append, hf _ hfirst, ih _ hrest, Nat.add_mul, Nat.one_mul,
      Nat.add_comm]

/-- A translated table, read as a table of records of the new size. -/
theorem records_flatten {α : Type} (g : List UInt8 → α) (hf : ∀ r, r.length = size → (f r).length = size')
    (n : Nat) : ∀ bs : List UInt8, n * size ≤ bs.length →
    records g size' n (records f size n bs).flatten = records (fun r => g (f r)) size n bs := by
  induction n with
  | zero => exact fun _ _ => rfl
  | succ n ih =>
    intro bs hlen
    rw [Nat.add_mul, Nat.one_mul] at hlen
    have hfirst : (bs.take size).length = size := by
      rw [List.length_take]
      omega
    have hrest : n * size ≤ (bs.drop size).length := by
      rw [List.length_drop]
      omega
    have hcons : records f size (n + 1) bs = f (bs.take size) :: records f size n (bs.drop size) := rfl
    rw [hcons, List.flatten_cons, records_append (hf _ hfirst), ih _ hrest, records]

/-- A table is made of its records. -/
theorem flatten_records_id (n : Nat) : ∀ bs : List UInt8, bs.length = n * size →
    (records id size n bs).flatten = bs := by
  induction n with
  | zero =>
    intro bs hlen
    rw [Nat.zero_mul] at hlen
    rw [List.length_eq_zero_iff.mp hlen]
    rfl
  | succ n ih =>
    intro bs hlen
    rw [Nat.add_mul, Nat.one_mul] at hlen
    have hrest : (bs.drop size).length = n * size := by
      rw [List.length_drop]
      omega
    rw [records, List.flatten_cons, ih _ hrest, id, List.take_append_drop]

/-- A table whose records stay as they are. -/
theorem flatten_records_of_id (hf : ∀ r, r.length = size → f r = r) (n : Nat) {bs : List UInt8}
    (h : n * size ≤ bs.length) : (records f size n bs).flatten = window bs 0 (n * size) := by
  have hwin : (window bs 0 (n * size)).length = n * size := length_window (by omega)
  rw [records_congr (fun r hr => hf r hr) n bs h, ← records_window n h]
  exact flatten_records_id n _ hwin

end Translated

/-! ## Tables stored over others -/

section Into

variable {f : List UInt8 → List UInt8 → List UInt8} {size size' : Nat}

/-- The table that comes of storing what `f` makes of each of the `n` records at the start of `bs` in the place of
the records at the start of `old`. -/
def recordsInto (f : List UInt8 → List UInt8 → List UInt8) (size size' : Nat) : Nat → List UInt8 → List UInt8 →
    List UInt8
  | 0, _, _ => []
  | n + 1, old, bs =>
    f (old.take size') (bs.take size) ++ recordsInto f size size' n (old.drop size') (bs.drop size)

/-- The last record. -/
theorem recordsInto_succ_last (n : Nat) : ∀ old bs : List UInt8,
    recordsInto f size size' (n + 1) old bs =
      recordsInto f size size' n old bs ++ f (window old (n * size') size') (window bs (n * size) size) := by
  induction n with
  | zero =>
    intro old bs
    rw [recordsInto, recordsInto, recordsInto, Nat.zero_mul, Nat.zero_mul, List.append_nil]
    rfl
  | succ n ih =>
    intro old bs
    have hwin : ∀ (l : List UInt8) (k : Nat), window (l.drop k) (n * k) k = window l ((n + 1) * k) k := by
      intro l k
      rw [window_drop, Nat.add_mul, Nat.one_mul, Nat.add_comm]
    rw [recordsInto, ih, hwin, hwin, ← List.append_assoc]
    rfl

/-- Only the bytes of the two tables count. -/
theorem recordsInto_congr (n : Nat) : ∀ {old old' bs bs' : List UInt8},
    window old 0 (n * size') = window old' 0 (n * size') → window bs 0 (n * size) = window bs' 0 (n * size) →
    recordsInto f size size' n old bs = recordsInto f size size' n old' bs' := by
  induction n with
  | zero => exact fun _ _ => rfl
  | succ n ih =>
    intro old old' bs bs' hold hbs
    have hsplit : ∀ {l l' : List UInt8} {k : Nat}, window l 0 ((n + 1) * k) = window l' 0 ((n + 1) * k) →
        l.take k = l'.take k ∧ window (l.drop k) 0 (n * k) = window (l'.drop k) 0 (n * k) := by
      intro l l' k h
      have hle : k ≤ (n + 1) * k := Nat.le_mul_of_pos_left k (Nat.succ_pos n)
      have hmul : (n + 1) * k - k = n * k := by rw [Nat.add_mul, Nat.one_mul, Nat.add_sub_cancel]
      simp only [window, List.drop_zero] at h ⊢
      refine ⟨?_, ?_⟩
      · have := congrArg (List.take k) h
        rwa [List.take_take, List.take_take, Nat.min_eq_left hle] at this
      · have := congrArg (List.drop k) h
        rwa [List.drop_take, List.drop_take, hmul] at this
    obtain ⟨hfirst, hrest⟩ := hsplit hold
    obtain ⟨hfirst', hrest'⟩ := hsplit hbs
    rw [recordsInto, recordsInto, hfirst, hfirst', ih hrest hrest']

variable (hf : ∀ o r, o.length = size' → r.length = size → (f o r).length = size')

include hf in
theorem length_recordsInto (n : Nat) : ∀ {old bs : List UInt8}, n * size' ≤ old.length → n * size ≤ bs.length →
    (recordsInto f size size' n old bs).length = n * size' := by
  induction n with
  | zero =>
    intro _ _ _ _
    rw [Nat.zero_mul]
    rfl
  | succ n ih =>
    intro old bs hold hbs
    rw [Nat.add_mul, Nat.one_mul] at hold hbs
    rw [recordsInto, List.length_append,
      hf _ _ (by rw [List.length_take]; omega) (by rw [List.length_take]; omega),
      ih (by rw [List.length_drop]; omega) (by rw [List.length_drop]; omega), Nat.add_mul, Nat.one_mul, Nat.add_comm]

include hf in
/-- A byte of the table is one of a record. -/
theorem getElem?_recordsInto (n : Nat) : ∀ {old bs : List UInt8} {i : Nat}, n * size' ≤ old.length →
    n * size ≤ bs.length → i < n * size' →
    (recordsInto f size size' n old bs)[i]? =
      (f (window old (i / size' * size') size') (window bs (i / size' * size) size))[i % size']? := by
  induction n with
  | zero =>
    intro _ _ i _ _ hi
    rw [Nat.zero_mul] at hi
    exact absurd hi (Nat.not_lt_zero i)
  | succ n ih =>
    intro old bs i hold hbs hi
    rw [Nat.add_mul, Nat.one_mul] at hold hbs hi
    have hfirst : (f (old.take size') (bs.take size)).length = size' :=
      hf _ _ (by rw [List.length_take]; omega) (by rw [List.length_take]; omega)
    rw [recordsInto]
    by_cases hlt : i < size'
    · rw [List.getElem?_append_left (by omega), Nat.div_eq_of_lt hlt, Nat.mod_eq_of_lt hlt, Nat.zero_mul,
        Nat.zero_mul]
      rfl
    · have hpos : 0 < size' := by
        by_contra hzero
        obtain rfl : size' = 0 := by omega
        omega
      have hdiv : i / size' = (i - size') / size' + 1 := Nat.div_eq_sub_div hpos (by omega)
      have hmod : i % size' = (i - size') % size' := Nat.mod_eq_sub_mod (by omega)
      have hwin : ∀ (l : List UInt8) (k : Nat), window (l.drop k) ((i - size') / size' * k) k =
          window l (i / size' * k) k := by
        intro l k
        rw [window_drop, hdiv, Nat.add_mul, Nat.one_mul, Nat.add_comm]
      rw [List.getElem?_append_right (by omega), hfirst,
        ih (by rw [List.length_drop]; omega) (by rw [List.length_drop]; omega) (by omega), hwin, hwin, hmod]

section Bytes

variable {n i : Nat} {old old' bs : List UInt8}

theorem div_mul_add_le_mul (hi : i < n * size') (k : Nat) : i / size' * k + k ≤ n * k := by
  have hrow : i / size' < n := Nat.div_lt_of_lt_mul (by rwa [Nat.mul_comm] at hi)
  have hmul := Nat.mul_le_mul_right k hrow
  rwa [Nat.succ_mul] at hmul

include hf in
/-- A byte that is stored in every record, whatever was there. -/
theorem getElem?_recordsInto_stored (hold : old.length = n * size') (hold' : old'.length = n * size')
    (hbs : n * size ≤ bs.length) (hi : i < n * size')
    (hstored : ∀ o o' r, o.length = size' → o'.length = size' → r.length = size →
      (f o r)[i % size']? = (f o' r)[i % size']?) :
    (recordsInto f size size' n old bs)[i]? = (recordsInto f size size' n old' bs)[i]? := by
  have hrow := div_mul_add_le_mul hi
  rw [getElem?_recordsInto hf n (Nat.le_of_eq hold.symm) hbs hi,
    getElem?_recordsInto hf n (Nat.le_of_eq hold'.symm) hbs hi]
  exact hstored _ _ _ (length_window (by rw [hold]; exact hrow _)) (length_window (by rw [hold']; exact hrow _))
    (length_window (Nat.le_trans (hrow _) hbs))

include hf in
/-- A byte that every record keeps. -/
theorem getElem?_recordsInto_kept (hold : old.length = n * size') (hbs : n * size ≤ bs.length) (hi : i < n * size')
    (hkept : ∀ o r, o.length = size' → r.length = size → (f o r)[i % size']? = o[i % size']?) :
    (recordsInto f size size' n old bs)[i]? = old[i]? := by
  have hrow := div_mul_add_le_mul hi
  have hpos : 0 < size' := Nat.pos_of_ne_zero fun hzero => by
    rw [hzero, Nat.mul_zero] at hi
    exact Nat.not_lt_zero i hi
  rw [getElem?_recordsInto hf n (Nat.le_of_eq hold.symm) hbs hi,
    hkept _ _ (length_window (by rw [hold]; exact hrow _)) (length_window (Nat.le_trans (hrow _) hbs)),
    getElem?_window, if_pos (Nat.mod_lt i hpos), Nat.mul_comm, Nat.div_add_mod]

end Bytes

include hf in
/-- What is read in the records of the new table, when it does not depend on the old one. -/
theorem records_recordsInto {α : Type} {g h : List UInt8 → α}
    (hg : ∀ o r, o.length = size' → r.length = size → g (f o r) = h r) (n : Nat) : ∀ {old bs : List UInt8},
    n * size' ≤ old.length → n * size ≤ bs.length →
    records g size' n (recordsInto f size size' n old bs) = records h size n bs := by
  induction n with
  | zero => exact fun _ _ => rfl
  | succ n ih =>
    intro old bs hold hbs
    rw [Nat.add_mul, Nat.one_mul] at hold hbs
    have ho : (old.take size').length = size' := by
      rw [List.length_take]
      omega
    have hr : (bs.take size).length = size := by
      rw [List.length_take]
      omega
    rw [recordsInto, records_append (hf _ _ ho hr), hg _ _ ho hr, records,
      ih (by rw [List.length_drop]; omega) (by rw [List.length_drop]; omega)]

/-- A table whose records do not depend on those they replace. -/
theorem recordsInto_eq {h : List UInt8 → List UInt8} (hfh : ∀ o r, o.length = size' → r.length = size → f o r = h r)
    (n : Nat) : ∀ {old bs : List UInt8}, n * size' ≤ old.length → n * size ≤ bs.length →
    recordsInto f size size' n old bs = (records h size n bs).flatten := by
  induction n with
  | zero => exact fun _ _ => rfl
  | succ n ih =>
    intro old bs hold hbs
    rw [Nat.add_mul, Nat.one_mul] at hold hbs
    rw [recordsInto, records, List.flatten_cons,
      hfh _ _ (by rw [List.length_take]; omega) (by rw [List.length_take]; omega),
      ih (by rw [List.length_drop]; omega) (by rw [List.length_drop]; omega)]

end Into

/-! ## The values of a record -/

/-- The values of the fields of the object at `m`, the first of them at offset `off`. -/
def fieldsAt (o : ByteOrder) : Nat → List Field → List UInt8 → List Nat
  | _, [], _ => []
  | off, f :: fs, m =>
    decodeField o f ((m.drop (f.pad off)).take f.width) ::
      fieldsAt o (off + f.pad off + f.width) fs (m.drop (f.pad off + f.width))

/-- The values of the fields of an object in memory; its padding bytes do not count. -/
def fieldValues (o : ByteOrder) (fs : List Field) (m : List UInt8) : List Nat := fieldsAt o 0 fs m

section Values

variable (host : ByteOrder) (swap : Bool)

theorem encodeField_decodeField (o : ByteOrder) (f : Field) {bs : List UInt8} (h : bs.length = f.width) :
    encodeField o f (decodeField o f bs) = bs := by
  unfold encodeField decodeField
  split
  · rw [← h, toBytes_ofBytes]
  · rw [← h, leBytes_ofLeBytes]

theorem add_packedSize_le (fs : List Field) : ∀ off, off + packedSize fs ≤ naturalEnd off fs := by
  induction fs with
  | nil => exact fun off => Nat.le_refl off
  | cons f fs ih =>
    intro off
    have hrest := ih (off + f.pad off + f.width)
    have hsum : packedSize (f :: fs) = f.width + packedSize fs := by simp [packedSize]
    rw [naturalEnd, hsum]
    omega

/-- A record is no longer in a file than in memory. -/
theorem packedSize_le_naturalSize (fs : List Field) : packedSize fs ≤ naturalSize fs := by
  have hend := add_packedSize_le fs 0
  rw [Nat.zero_add] at hend
  exact Nat.le_trans hend (naturalEnd_le_naturalSize fs)

/-- Values that fit are as many as the fields. -/
theorem length_of_fits {fs : List Field} : ∀ {vs : List Nat}, fits fs vs = true → vs.length = fs.length := by
  induction fs with
  | nil =>
    intro vs h
    cases vs with
    | nil => rfl
    | cons v vs => cases h
  | cons f fs ih =>
    intro vs h
    cases vs with
    | nil => cases h
    | cons v vs =>
      rw [fits, Bool.and_eq_true] at h
      exact congrArg Nat.succ (ih h.2)

/-- The bytes of a record are those of its values. -/
theorem encode_decode (o : ByteOrder) (fs : List Field) : ∀ s : List UInt8, s.length = packedSize fs →
    encode o fs (decode o fs s) = s := by
  induction fs with
  | nil =>
    intro s h
    rw [List.length_eq_zero_iff.mp h]
    rfl
  | cons f fs ih =>
    intro s h
    have hsum : packedSize (f :: fs) = f.width + packedSize fs := by simp [packedSize]
    have hfield : (s.take f.width).length = f.width := by
      rw [List.length_take]
      omega
    have hrest : (s.drop f.width).length = packedSize fs := by
      rw [List.length_drop]
      omega
    rw [decode, encode, encodeField_decodeField o f hfield, ih _ hrest, List.take_append_drop]

theorem tofFields_eq (fs : List Field) : ∀ (off : Nat) (m : List UInt8), naturalEnd off fs ≤ off + m.length →
    tofFields host swap off fs m = encode (fileOrder host swap) fs (fieldsAt host off fs m) := by
  induction fs with
  | nil => exact fun _ _ _ => rfl
  | cons f fs ih =>
    intro off m h
    rw [naturalEnd] at h
    have hend := le_naturalEnd fs (off + f.pad off + f.width)
    have hfield : ((m.drop (f.pad off)).take f.width).length = f.width := by
      rw [List.length_take, List.length_drop]
      omega
    have hrest : naturalEnd (off + f.pad off + f.width) fs ≤
        off + f.pad off + f.width + (m.drop (f.pad off + f.width)).length := by
      rw [List.length_drop]
      omega
    have hcvt : cvtField host swap f ((m.drop (f.pad off)).take f.width) =
        encodeField (fileOrder host swap) f (decodeField host f ((m.drop (f.pad off)).take f.width)) := by
      rw [← cvtField_encodeField, encodeField_decodeField host f hfield]
    rw [tofFields, fieldsAt, encode, ih _ _ hrest, hcvt]

/-- The file representation of an object is that of its values. -/
theorem tofObject_eq {fs : List Field} {m : List UInt8} (h : m.length = naturalSize fs) :
    tofObject host swap fs m = encode (fileOrder host swap) fs (fieldValues host fs m) :=
  tofFields_eq host swap fs 0 m (by
    have := naturalEnd_le_naturalSize fs
    omega)

theorem fieldsAt_tomFields (fs : List Field) : ∀ (off : Nat) (m s : List UInt8), s.length = packedSize fs →
    naturalEnd off fs ≤ off + m.length →
    fieldsAt host off fs (tomFields host swap off fs m s) = decode (fileOrder host swap) fs s := by
  induction fs with
  | nil => exact fun _ _ _ _ _ => rfl
  | cons f fs ih =>
    intro off m s h hm
    rw [naturalEnd] at hm
    have hend := le_naturalEnd fs (off + f.pad off + f.width)
    have hsum : packedSize (f :: fs) = f.width + packedSize fs := by simp [packedSize]
    have hfield : (s.take f.width).length = f.width := by
      rw [List.length_take]
      omega
    have hrest : (s.drop f.width).length = packedSize fs := by
      rw [List.length_drop]
      omega
    have hpad : (m.take (f.pad off)).length = f.pad off := by
      rw [List.length_take]
      omega
    have hcvt := length_cvtField host swap f hfield
    have hdrop : ∀ rest : List UInt8, (m.take (f.pad off) ++ (cvtField host swap f (s.take f.width) ++ rest)).drop
        (f.pad off + f.width) = rest := by
      intro rest
      rw [← List.drop_drop, List.drop_left' hpad, List.drop_left' hcvt]
    rw [tomFields, fieldsAt, List.append_assoc, hdrop, List.drop_left' hpad, List.take_left' hcvt,
      decodeField_cvtField host swap f hfield, ih _ _ _ hrest (by rw [List.length_drop]; omega), decode]

/-- The values of a translated object are those in the file. -/
theorem fieldValues_tomObject {fs : List Field} {m s : List UInt8} (hm : m.length = naturalSize fs)
    (h : s.length = packedSize fs) :
    fieldValues host fs (tomObject host swap fs m s) = decode (fileOrder host swap) fs s := by
  have hle := naturalEnd_le_naturalSize fs
  exact fieldsAt_tomFields host swap fs 0 m s h (by omega)

/-- Translating to memory and back gives the bytes of the file. -/
theorem tofObject_tomObject {fs : List Field} {m s : List UInt8} (hm : m.length = naturalSize fs)
    (h : s.length = packedSize fs) : tofObject host swap fs (tomObject host swap fs m s) = s := by
  rw [tofObject_eq host swap (length_tomObject host swap hm h), fieldValues_tomObject host swap hm h,
    encode_decode _ fs s h]

/-- Without padding, a record that is not swapped stays as it is. -/
theorem tofFields_packed (fs : List Field) : ∀ (off : Nat) (m : List UInt8), naturalEnd off fs = off + packedSize fs →
    tofFields host false off fs m = m.take (packedSize fs) := by
  induction fs with
  | nil => exact fun _ _ _ => rfl
  | cons f fs ih =>
    intro off m h
    have hsum : packedSize (f :: fs) = f.width + packedSize fs := by simp [packedSize]
    have hend := add_packedSize_le fs (off + f.pad off + f.width)
    rw [naturalEnd, hsum] at h
    have hpad : f.pad off = 0 := by omega
    rw [hpad] at h hend
    rw [tofFields, hpad, List.drop_zero, Nat.zero_add, ih _ _ (by omega), hsum, List.take_add]
    rfl

theorem tofObject_packed {fs : List Field} {m : List UInt8} (hsize : packedSize fs = naturalSize fs)
    (h : m.length = naturalSize fs) : tofObject host false fs m = m := by
  have hend := add_packedSize_le fs 0
  have hle := naturalEnd_le_naturalSize fs
  rw [tofObject, tofFields_packed host fs 0 m (by omega), hsize, ← h, List.take_length]

/-- Without padding, a record that goes to the file and back stays as it is. -/
theorem tomFields_tofFields (fs : List Field) : ∀ (off : Nat) (o m : List UInt8),
    naturalEnd off fs = off + packedSize fs → o.length = packedSize fs → m.length = packedSize fs →
    tomFields host swap off fs o (tofFields host swap off fs m) = m := by
  induction fs with
  | nil =>
    intro _ o m _ ho h
    rw [List.length_eq_zero_iff.mp h]
    exact List.length_eq_zero_iff.mp ho
  | cons f fs ih =>
    intro off o m h ho hlen
    have hsum : packedSize (f :: fs) = f.width + packedSize fs := by simp [packedSize]
    have hend := add_packedSize_le fs (off + f.pad off + f.width)
    rw [naturalEnd, hsum] at h
    have hpad : f.pad off = 0 := by omega
    have hfield : (m.take f.width).length = f.width := by
      rw [List.length_take]
      omega
    have htwice : cvtField host swap f (cvtField host swap f (m.take f.width)) = m.take f.width := by
      rw [cvtField_eq host swap f (length_cvtField host swap f hfield), cvtField_eq host swap f hfield]
      split
      · rw [List.reverse_reverse]
      · rfl
    rw [tofFields, tomFields, hpad, List.drop_zero, Nat.zero_add, Nat.add_zero,
      List.take_left' (length_cvtField host swap f hfield), List.drop_left' (length_cvtField host swap f hfield), htwice,
      ih _ _ _ (by rw [hpad, Nat.add_zero] at h hend; omega) (by rw [List.length_drop]; omega)
        (by rw [List.length_drop]; omega), List.take_zero, List.nil_append, List.take_append_drop]

theorem tomObject_tofObject {fs : List Field} {o m : List UInt8} (hsize : packedSize fs = naturalSize fs)
    (ho : o.length = naturalSize fs) (h : m.length = naturalSize fs) :
    tomObject host swap fs o (tofObject host swap fs m) = m := by
  have hend := add_packedSize_le fs 0
  have hle := naturalEnd_le_naturalSize fs
  exact tomFields_tofFields host swap fs 0 o m (by omega) (ho.trans hsize.symm) (h.trans hsize.symm)

/-- Without padding, nothing is kept of the object that is replaced. -/
theorem tomFields_fresh (fs : List Field) : ∀ (off : Nat) (m m' s : List UInt8), naturalEnd off fs = off + packedSize fs →
    m.length = packedSize fs → m'.length = packedSize fs →
    tomFields host swap off fs m s = tomFields host swap off fs m' s := by
  induction fs with
  | nil =>
    intro _ m m' _ _ h h'
    rw [List.length_eq_zero_iff.mp h, List.length_eq_zero_iff.mp h']
  | cons f fs ih =>
    intro off m m' s h hm hm'
    have hsum : packedSize (f :: fs) = f.width + packedSize fs := by simp [packedSize]
    have hend := add_packedSize_le fs (off + f.pad off + f.width)
    rw [naturalEnd, hsum] at h
    have hpad : f.pad off = 0 := by omega
    rw [hpad, Nat.add_zero] at h hend
    rw [tomFields, tomFields, hpad, List.take_zero, List.take_zero, Nat.add_zero, Nat.zero_add,
      ih _ (m.drop f.width) (m'.drop f.width) _ (by omega) (by rw [List.length_drop]; omega)
        (by rw [List.length_drop]; omega)]

theorem tomObject_fresh {fs : List Field} {m m' : List UInt8} (hsize : packedSize fs = naturalSize fs)
    (hm : m.length = naturalSize fs) (hm' : m'.length = naturalSize fs) (s : List UInt8) :
    tomObject host swap fs m s = tomObject host swap fs m' s := by
  have hend := add_packedSize_le fs 0
  have hle := naturalEnd_le_naturalSize fs
  exact tomFields_fresh host swap fs 0 m m' s (by omega) (hm.trans hsize.symm) (hm'.trans hsize.symm)

theorem tomFields_packed (fs : List Field) : ∀ (off : Nat) (m s : List UInt8), naturalEnd off fs = off + packedSize fs →
    m.length = packedSize fs → s.length = packedSize fs → tomFields host false off fs m s = s := by
  induction fs with
  | nil =>
    intro _ m s _ hm h
    rw [List.length_eq_zero_iff.mp h]
    exact List.length_eq_zero_iff.mp hm
  | cons f fs ih =>
    intro off m s h hm hlen
    have hsum : packedSize (f :: fs) = f.width + packedSize fs := by simp [packedSize]
    have hend := add_packedSize_le fs (off + f.pad off + f.width)
    rw [naturalEnd, hsum] at h
    have hpad : f.pad off = 0 := by omega
    rw [hpad, Nat.add_zero] at h hend
    rw [tomFields, hpad, Nat.add_zero,
      ih _ _ _ (by omega) (by rw [List.length_drop]; omega) (by rw [List.length_drop]; omega),
      List.take_zero, List.nil_append]
    exact List.take_append_drop _ _

theorem tomObject_packed {fs : List Field} {m s : List UInt8} (hsize : packedSize fs = naturalSize fs)
    (hm : m.length = naturalSize fs) (h : s.length = packedSize fs) : tomObject host false fs m s = s := by
  have hend := add_packedSize_le fs 0
  have hle := naturalEnd_le_naturalSize fs
  exact tomFields_packed host fs 0 m s (by omega) (hm.trans hsize.symm) h

/-- Without padding, every byte belongs to a field. -/
theorem memberAt_packed (fs : List Field) : ∀ (off i : Nat), naturalEnd off fs = off + packedSize fs →
    i < packedSize fs → memberAt off fs i = true := by
  induction fs with
  | nil => exact fun _ i _ hi => absurd hi (Nat.not_lt_zero i)
  | cons f fs ih =>
    intro off i h hi
    have hsum : packedSize (f :: fs) = f.width + packedSize fs := by simp [packedSize]
    have hend := add_packedSize_le fs (off + f.pad off + f.width)
    rw [naturalEnd, hsum] at h
    have hpad : f.pad off = 0 := by omega
    rw [hpad, Nat.add_zero] at h hend
    rw [memberAt, hpad, Nat.add_zero]
    split
    · exact decide_eq_true (Nat.zero_le i)
    · exact ih _ _ (by omega) (by omega)

theorem isMember_packed {fs : List Field} {i : Nat} (hsize : packedSize fs = naturalSize fs)
    (hi : i < naturalSize fs) : isMember fs i = true := by
  have hend := add_packedSize_le fs 0
  have hle := naturalEnd_le_naturalSize fs
  exact memberAt_packed fs 0 i (by omega) (by omega)

theorem fits_fieldsAt (fs : List Field) : ∀ (off : Nat) (m : List UInt8), fits fs (fieldsAt host off fs m) = true := by
  have hfield : ∀ (f : Field) (bs : List UInt8), decodeField host f (bs.take f.width) < 256 ^ f.width := by
    intro f bs
    have hlen : (bs.take f.width).length ≤ f.width := List.length_take_le _ _
    have hpow : 256 ^ (bs.take f.width).length ≤ 256 ^ f.width := Nat.pow_le_pow_right (by decide) hlen
    unfold decodeField
    split
    · exact Nat.lt_of_lt_of_le (ofBytes_lt host _) hpow
    · exact Nat.lt_of_lt_of_le (ofLeBytes_lt _) hpow
  induction fs with
  | nil => exact fun _ _ => rfl
  | cons f fs ih =>
    intro off m
    rw [fieldsAt, fits, ih, decide_eq_true (hfield f _)]
    rfl

end Values

end LibElf
