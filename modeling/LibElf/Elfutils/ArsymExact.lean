import LibElf.Elfutils.Arsym
import LibElf.Elfutils.NamesSearch

/-!
# When the archive symbol index is decoded

1. `dlElfHash_eq`: the hash is that of the ABI.
2. `IsIndex`, the well-formed contents of an index.
3. `arsymLoop_ensures`: the loop returns the entries that are there, and reads exactly their ranges.
4. `elfGetarsym_iff`: in each mode, the images in which the index is decoded exactly or refused.
-/

namespace LibElf.Elfutils

open Outcome
open Toolchain (abiHash hashName hashStep hashSum)

/-! ## The hash -/

/-- The low 28 bits of a round are those of the ABI's round. -/
theorem dlHashStep_low {h : BitVec 64} {a : BitVec 32} (hlow : h.setWidth 28 = a.setWidth 28) (c : UInt8) :
    (dlHashStep h c).setWidth 28 = (hashStep 32 a c).setWidth 28 := by
  have hsum : (hashSum 64 h c).setWidth 32 = hashSum 32 a c := by
    apply BitVec.eq_of_toNat_eq
    have hc := c.toNat_lt
    have hnat := congrArg BitVec.toNat hlow
    simp only [BitVec.toNat_setWidth] at hnat
    simp only [hashSum, BitVec.toNat_setWidth, BitVec.toNat_add, BitVec.toNat_shiftLeft, BitVec.toNat_ofNat,
      Nat.shiftLeft_eq]
    omega
  have hbit : ∀ j, (hashSum 32 a c).getLsbD j = (decide (j < 32) && (hashSum 64 h c).getLsbD j) := by
    intro j
    rw [← hsum, BitVec.getLsbD_setWidth]
  apply BitVec.eq_of_getLsbD_eq
  intro i hi
  have hstep : dlHashStep h c = hashSum 64 h c ^^^ ((hashSum 64 h c &&& BitVec.ofNat 64 0xF0000000) >>> 24) := rfl
  rw [BitVec.getLsbD_setWidth, BitVec.getLsbD_setWidth, decide_eq_true hi, Bool.true_and, Bool.true_and, hstep,
    Toolchain.getLsbD_hashStep (by decide) a c (by omega), hbit, hbit, decide_eq_true (by omega : i < 32),
    Bool.true_and, decide_eq_false (by omega : ¬ (28 ≤ i ∧ i < 32)), Bool.and_false, Bool.not_false, Bool.and_true]
  simp only [BitVec.getLsbD_and, BitVec.getLsbD_xor, BitVec.getLsbD_ushiftRight,
    Toolchain.getLsbD_mask (by decide : 32 ≤ 64)]
  by_cases hj : 24 + i < 32
  · rw [decide_eq_true hj, Bool.true_and]
  · rw [decide_eq_false (by omega : ¬ (28 ≤ 24 + i ∧ 24 + i < 32)), Bool.and_false, Bool.and_false]

theorem foldl_dlHashStep_low (name : List UInt8) : ∀ {h : BitVec 64} {a : BitVec 32},
    h.setWidth 28 = a.setWidth 28 →
    (name.foldl dlHashStep h).setWidth 28 = (name.foldl (hashStep 32) a).setWidth 28 := by
  induction name with
  | nil => exact id
  | cons c name ih => exact fun hlow => ih (dlHashStep_low hlow c)

/-- A sum below `2 ^ 28` has nothing to fold. -/
theorem dlHashStep_of_lt {h : BitVec 64} {c : UInt8} (hlt : 16 * h.toNat + c.toNat < 2 ^ 28) :
    dlHashStep h c = dlHashSum h c ∧ (dlHashSum h c).toNat = 16 * h.toNat + c.toNat := by
  have hsum : (dlHashSum h c).toNat = 16 * h.toNat + c.toNat := by
    have hc := c.toNat_lt
    simp only [dlHashSum, BitVec.toNat_add, BitVec.toNat_shiftLeft, BitVec.toNat_ofNat, Nat.shiftLeft_eq]
    omega
  refine ⟨?_, hsum⟩
  have hclear : dlHashSum h c &&& BitVec.ofNat 64 0xF0000000 = 0 := by
    apply BitVec.eq_of_getLsbD_eq
    intro i _
    rw [BitVec.getLsbD_and, Toolchain.getLsbD_mask (by decide : 32 ≤ 64)]
    by_cases hi : 28 ≤ i
    · have hbit : (dlHashSum h c).getLsbD i = false := by
        refine Nat.testBit_lt_two_pow ?_
        rw [hsum]
        exact lt_of_lt_of_le hlt (Nat.pow_le_pow_right (by decide) hi)
      rw [hbit]
      simp
    · rw [decide_eq_false fun hr => hi hr.1, Bool.and_false]
      simp
  show dlHashSum h c ^^^ ((dlHashSum h c &&& BitVec.ofNat 64 0xF0000000) >>> 24) = _
  rw [hclear]
  simp

/-- The first five characters fold nothing. -/
theorem foldl_dlHashSum (name : List UInt8) : ∀ (h : BitVec 64) (j : Nat), h.toNat + 17 ≤ 17 * 16 ^ j →
    j + name.length ≤ 5 → name.foldl dlHashSum h = name.foldl dlHashStep h ∧
      (name.foldl dlHashSum h).toNat + 17 ≤ 17 * 16 ^ (j + name.length) := by
  induction name with
  | nil => exact fun h j hh _ => ⟨rfl, hh⟩
  | cons c name ih =>
    intro h j hh hlen
    rw [List.length_cons] at hlen
    have hc := c.toNat_lt
    have hpow : 16 ^ j ≤ 16 ^ 4 := Nat.pow_le_pow_right (by decide) (by omega)
    obtain ⟨hstep, hsum⟩ := @dlHashStep_of_lt h c (by omega)
    have hnext : (dlHashSum h c).toNat + 17 ≤ 17 * 16 ^ (j + 1) := by
      rw [hsum, Nat.pow_succ]
      omega
    obtain ⟨heq, hbound⟩ := ih (dlHashSum h c) (j + 1) hnext (by omega)
    rw [List.foldl_cons, List.foldl_cons, hstep, List.length_cons, ← Nat.add_assoc, Nat.add_right_comm]
    exact ⟨heq, hbound⟩

/-- The hash of a name has the value that the ABI gives it. -/
theorem dlElfHash_toNat (name : List UInt8) : (dlElfHash name).toNat = (abiHash name).toNat := by
  have habi := Toolchain.abiHash_lt name
  have hlow : ∀ h : BitVec 64, h = name.foldl dlHashStep 0 → h.toNat % 2 ^ 28 = (abiHash name).toNat := by
    rintro _ rfl
    have := congrArg BitVec.toNat (@foldl_dlHashStep_low name 0 0 rfl)
    rw [BitVec.toNat_setWidth, BitVec.toNat_setWidth] at this
    rw [this]
    exact Nat.mod_eq_of_lt habi
  rcases Nat.lt_or_ge name.length 5 with hlt | hge
  · have hdef : dlElfHash name = name.foldl dlHashSum 0 := by
      rcases name with _ | ⟨_, _ | ⟨_, _ | ⟨_, _ | ⟨_, _ | ⟨_, rest⟩⟩⟩⟩⟩
      · rfl
      · rfl
      · rfl
      · rfl
      · rfl
      · simp at hlt
        omega
    obtain ⟨heq, hbound⟩ := foldl_dlHashSum name 0 0 (by decide) (by omega)
    have hpow : 16 ^ (0 + name.length) ≤ 16 ^ 4 := Nat.pow_le_pow_right (by decide) (by omega)
    rw [hdef, ← hlow _ heq, Nat.mod_eq_of_lt (by omega)]
  · rcases name with _ | ⟨a, _ | ⟨b, _ | ⟨c, _ | ⟨d, _ | ⟨e, rest⟩⟩⟩⟩⟩
    · simp at hge
    · simp at hge
    · simp at hge
    · simp at hge
    · simp at hge
    obtain ⟨heq, -⟩ := foldl_dlHashSum [a, b, c, d, e] 0 0 (by decide) (by simp)
    have hmask : ∀ h : BitVec 64, (h &&& BitVec.ofNat 64 0x0FFFFFFF).toNat = h.toNat % 2 ^ 28 := by
      intro h
      rw [BitVec.toNat_and, BitVec.toNat_ofNat]
      exact Nat.and_two_pow_sub_one_eq_mod _ 28
    rw [dlElfHash, hmask, heq]
    exact hlow _ rfl

/-- The hash of a name is that of the ABI. -/
theorem dlElfHash_eq (name : List UInt8) : dlElfHash name = (abiHash name).setWidth 64 := by
  have habi := Toolchain.abiHash_lt name
  apply BitVec.eq_of_toNat_eq
  rw [dlElfHash_toNat, BitVec.toNat_setWidth, Nat.mod_eq_of_lt (by omega)]

/-! ## Well-formed contents -/

/-- The offsets at `p`, one word each. -/
def WordsAt (w : Nat) (C : List UInt8) : Nat → List Nat → Prop
  | _, [] => True
  | p, o :: os => p + w ≤ C.length ∧ ofBytes .big (window C p w) = o ∧ WordsAt w C (p + w) os

/-- The names from `t` on, one after the other, each with its NUL. -/
def StringsAt (C : List UInt8) : Nat → List (List UInt8) → Prop
  | _, [] => True
  | t, name :: names => IsString C t name ∧ StringsAt C (t + name.length + 1) names

/-- The contents `C` of an index with words of `w` bytes are a count, that many offsets and that many names. -/
structure IsIndex (w : Nat) (C : List UInt8) (offs : List Nat) (names : List (List UInt8)) : Prop where
  fits : (offs.length + 1) * w ≤ C.length
  count : ofBytes .big (window C 0 w) = offs.length
  words : WordsAt w C w offs
  length : names.length = offs.length
  names : StringsAt C ((offs.length + 1) * w) names

/-- The entries for these offsets and names, each with the hash of the ABI. -/
def indexEntries : List Nat → List (List UInt8) → List Arsym
  | o :: os, name :: names => ⟨some name, o, (abiHash name).setWidth 64⟩ :: indexEntries os names
  | _, _ => []

def entryRanges (w : Nat) : Nat → Nat → List (List UInt8) → Reads
  | _, _, [] => []
  | p, t, name :: names => (p, w) :: (t, name.length + 1) :: entryRanges w (p + w) (t + name.length + 1) names

section Loop

variable {env : Env} {w : Nat} {words strs : List UInt8}

theorem beNumber_eq (bs : List UInt8) : beNumber env bs = ofBytes .big bs := by
  unfold beNumber
  cases env.host <;> rfl

/-- The loop returns the offsets and the names that are there. -/
theorem arsymLoop_ensures (hw : 0 < w) (n : Nat) : ∀ (p t : Nat) (log : Reads), (arsymLoop env w words strs n p t log).Ensures
    (fun r log' => ∃ offs names, offs.length = n ∧ names.length = n ∧ WordsAt w words p offs ∧ StringsAt strs t names ∧
      r = indexEntries offs names ∧ log' = log ++ entryRanges w p t names)
    (fun _ => False)
    (fun _ => ¬ ∃ offs names, offs.length = n ∧ names.length = n ∧ WordsAt w words p offs ∧ StringsAt strs t names) := by
  induction n with
  | zero => exact fun p t log => ⟨[], [], rfl, rfl, trivial, trivial, rfl, (List.append_nil log).symm⟩
  | succ n ih =>
    intro p t log
    rw [arsymLoop]
    by_cases hword : p + w ≤ words.length
    · rw [readLogged_of_le log hword, bind_ok]
      cases hlen : strlen (strs.drop t) with
      | none =>
        rw [readString, hlen]
        rintro ⟨offs, names, ho, hn, -, hnames⟩
        obtain ⟨name, rest, rfl⟩ := List.exists_cons_of_length_eq_add_one hn
        rw [hnames.1.strlen_eq.1] at hlen
        cases hlen
      | some k =>
        obtain ⟨hstr, -⟩ := isString_of_strlen hlen
        rw [readString_of_isString hstr, bind_ok]
        generalize window strs t k = name at hstr
        have hrest := ih (p + w) (t + name.length + 1) (log ++ [(p, w)] ++ [(t, name.length + 1)])
        cases hloop : arsymLoop env w words strs n (p + w) (t + name.length + 1)
            (log ++ [(p, w)] ++ [(t, name.length + 1)]) with
        | ok r log' =>
          rw [hloop] at hrest
          obtain ⟨offs, names, ho, hn, hwords, hnames, rfl, rfl⟩ := hrest
          refine ⟨_ :: offs, name :: names, congrArg Nat.succ ho, congrArg Nat.succ hn, ⟨hword, rfl, hwords⟩,
            ⟨hstr, hnames⟩, ?_, ?_⟩
          · rw [indexEntries, beNumber_eq, dlElfHash_eq]
          · rw [entryRanges, List.append_assoc, List.append_assoc]
            rfl
        | err c log' =>
          rw [hloop] at hrest
          exact hrest
        | stop f =>
          rw [hloop] at hrest
          rintro ⟨offs, names, ho, hn, hwords, hnames⟩
          obtain ⟨o, os, rfl⟩ := List.exists_cons_of_length_eq_add_one ho
          obtain ⟨name', rest, rfl⟩ := List.exists_cons_of_length_eq_add_one hn
          obtain ⟨hstr', hnames⟩ := hnames
          rw [hstr'.inj hstr] at hnames
          exact hrest ⟨os, rest, Nat.succ.inj ho, Nat.succ.inj hn, hwords.2.2, hnames⟩
    · rw [readLogged_of_lt log hw (Nat.lt_of_not_le hword)]
      rintro ⟨offs, names, ho, -, hwords, -⟩
      obtain ⟨o, os, rfl⟩ := List.exists_cons_of_length_eq_add_one ho
      exact hword hwords.1

/-- The offsets are what is there. -/
theorem WordsAt.inj {C : List UInt8} {offs : List Nat} : ∀ {p : Nat} {offs' : List Nat}, offs'.length = offs.length →
    WordsAt w C p offs → WordsAt w C p offs' → offs' = offs := by
  induction offs with
  | nil => exact fun hlen _ _ => List.length_eq_zero_iff.mp hlen
  | cons o offs ih =>
    intro p offs' hlen h h'
    obtain ⟨o', os', rfl⟩ := List.exists_cons_of_length_eq_add_one hlen
    rw [← h.2.1, ← h'.2.1, ih (Nat.succ.inj hlen) h.2.2 h'.2.2]

/-- The names are what is there. -/
theorem StringsAt.inj {C : List UInt8} {names : List (List UInt8)} : ∀ {t : Nat} {names' : List (List UInt8)},
    names'.length = names.length → StringsAt C t names → StringsAt C t names' → names' = names := by
  induction names with
  | nil => exact fun hlen _ _ => List.length_eq_zero_iff.mp hlen
  | cons name names ih =>
    intro t names' hlen h h'
    obtain ⟨name', rest', rfl⟩ := List.exists_cons_of_length_eq_add_one hlen
    obtain rfl := h'.1.inj h.1
    rw [ih (Nat.succ.inj hlen) h.2 h'.2]

/-- The run of the loop over the offsets and names that are there. -/
theorem arsymLoop_eq (hw : 0 < w) {p t : Nat} (log : Reads) {offs : List Nat} {names : List (List UInt8)}
    (hlen : names.length = offs.length) (hwords : WordsAt w words p offs) (hnames : StringsAt strs t names) :
    arsymLoop env w words strs offs.length p t log =
      .ok (indexEntries offs names) (log ++ entryRanges w p t names) := by
  have hloop := @arsymLoop_ensures env w words strs hw offs.length p t log
  cases hrun : arsymLoop env w words strs offs.length p t log with
  | ok r log' =>
    rw [hrun] at hloop
    obtain ⟨offs', names', ho, hn, hwords', hnames', rfl, rfl⟩ := hloop
    rw [hwords.inj ho hwords', hnames.inj (hn.trans hlen.symm) hnames']
  | err c log' =>
    rw [hrun] at hloop
    exact absurd hloop id
  | stop f =>
    rw [hrun] at hloop
    exact absurd ⟨offs, names, rfl, hlen, hwords, hnames⟩ hloop

end Loop

/-! ## Archives with an index -/

/-- The header of the first member of the archive at `s`. -/
def indexHdr (F : Image) (s : Nat) : List UInt8 := window F.bytes (s + sarmag) arHdrSize

def indexLen (F : Image) (s : Nat) : Nat := (indexSize (indexHdr F s)).getD 0

/-- The contents of the member, as far as they are in the archive of `m` bytes. -/
def indexContents (F : Image) (s m : Nat) : List UInt8 :=
  window F.bytes (s + sarmag + arHdrSize) (min (indexLen F s) (m - (sarmag + arHdrSize)))

/-- The archive of the `m` bytes at `s` starts with an index of words of `w` bytes. -/
structure HasIndex (F : Image) (s m w : Nat) : Prop where
  fits : s + m ≤ F.bytes.length
  room : sarmag + arHdrSize ≤ m
  fmag : window (indexHdr F s) 58 2 = arfmag
  width : indexWidth (indexHdr F s) = some w

/-- The member is there and well formed. -/
def Indexed (F : Image) (s m w : Nat) : Prop :=
  sarmag + arHdrSize + indexLen F s ≤ m ∧ ∃ offs names, IsIndex w (indexContents F s m) offs names

/-- The member is not there as a whole, or its count does not go with its size. -/
def Refused (F : Image) (s m w : Nat) : Prop :=
  m < sarmag + arHdrSize + indexLen F s ∨ indexLen F s / w < ofBytes .big (window (indexContents F s m) 0 w)

/-- Nothing but the header and the contents of the index was read. -/
def InIndex (F : Image) (s m : Nat) (log : Reads) : Prop :=
  Inside (s + sarmag) (s + sarmag + arHdrSize + (indexContents F s m).length) log

/-- The index is decoded exactly or refused, and nothing else is read. -/
def Decoded (F : Image) (s m w : Nat) (x : IndexCall (List Arsym × Nat)) : Prop :=
  x.Ensures
    (fun r st => InIndex F s m st.log ∧ sarmag + arHdrSize + indexLen F s ≤ m ∧ ∃ offs names,
      IsIndex w (indexContents F s m) offs names ∧ r = (indexEntries offs names ++ [Arsym.last], offs.length + 1))
    (fun st => InIndex F s m st.log ∧ ¬ Indexed F s m w)
    (fun _ => False)

section Index

variable {env : Env} {e : Elf} {F : Image} {s m w : Nat}

theorem indexWidth_pos {hdr : List UInt8} (h : indexWidth hdr = some w) : 0 < w ∧ w ≤ 8 := by
  unfold indexWidth at h
  split at h
  · obtain rfl := Option.some.inj h
    decide
  · split at h
    · obtain rfl := Option.some.inj h
      decide
    · cases h

/-- There is always a number in the copy of the size. -/
theorem indexSize_eq (F : Image) (s : Nat) : indexSize (indexHdr F s) = some (indexLen F s) := by
  have hsome : (atol (window (indexHdr F s) 48 10 ++ [0])).isSome :=
    @atol_isSome _ 0 (List.mem_append_right _ List.mem_cons_self) (by decide)
  obtain ⟨n, hn⟩ := Option.isSome_iff_exists.mp hsome
  unfold indexLen indexSize
  rw [hn]
  rfl

theorem HasIndex.length_contents (h : HasIndex F s m w) :
    (indexContents F s m).length = min (indexLen F s) (m - (sarmag + arHdrSize)) := by
  have hfits := h.fits
  have hroom := h.room
  exact length_window (by omega)

/-- A window of the contents. -/
theorem HasIndex.window_contents (h : HasIndex F s m w) {p len : Nat} (hin : p + len ≤ (indexContents F s m).length) :
    window (indexContents F s m) p len = window F.bytes (s + sarmag + arHdrSize + p) len := by
  rw [h.length_contents] at hin
  exact window_window hin

/-- What is refused is no index. -/
theorem not_indexed_of_refused (h : HasIndex F s m w) (hr : Refused F s m w) : ¬ Indexed F s m w := by
  rintro ⟨hwhole, offs, names, hindex⟩
  have hpos := (indexWidth_pos h.width).1
  rcases hr with hcut | hcount
  · omega
  · rw [hindex.count, Nat.div_lt_iff_lt_mul hpos] at hcount
    have hfits := hindex.fits
    rw [h.length_contents, Nat.add_mul, Nat.one_mul] at hfits
    omega

theorem wordsAt_window (h : HasIndex F s m w) {offs : List Nat} : ∀ {p : Nat}, WordsAt w (indexContents F s m) p offs →
    WordsAt w F.bytes (s + sarmag + arHdrSize + p) offs := by
  induction offs with
  | nil => exact fun _ => trivial
  | cons o offs ih =>
    rintro p ⟨hin, hword, hrest⟩
    have hlen := h.length_contents
    have hfits := h.fits
    have hroom := h.room
    refine ⟨by omega, by rw [← h.window_contents hin]; exact hword, ?_⟩
    have := ih hrest
    rwa [← Nat.add_assoc] at this

theorem stringsAt_window (h : HasIndex F s m w) {names : List (List UInt8)} : ∀ {t : Nat},
    StringsAt (indexContents F s m) t names → StringsAt F.bytes (s + sarmag + arHdrSize + t) names := by
  induction names with
  | nil => exact fun _ => trivial
  | cons name names ih =>
    rintro t ⟨hstr, hrest⟩
    refine ⟨⟨?_, hstr.2⟩, ?_⟩
    · rw [← h.window_contents (by have := hstr.le; omega)]
      exact hstr.1
    · have := ih hrest
      rwa [← Nat.add_assoc, ← Nat.add_assoc] at this

/-- The ranges of a well-formed index lie inside. -/
theorem entryRanges_inside {C : List UInt8} {base lo : Nat} (hlo : lo ≤ base) {names : List (List UInt8)} :
    ∀ {offs : List Nat} {p t : Nat}, names.length = offs.length → WordsAt w C p offs → StringsAt C t names →
      Inside lo (base + C.length) (entryRanges w (base + p) (base + t) names) := by
  induction names with
  | nil => exact fun _ _ _ => inside_nil
  | cons name names ih =>
    intro offs p t hlen hwords hstrs
    obtain ⟨o, os, rfl⟩ := List.exists_cons_of_length_eq_add_one hlen.symm
    obtain ⟨hin, -, hwords⟩ := hwords
    obtain ⟨hstr, hstrs⟩ := hstrs
    have hle := hstr.le
    have hrest := ih (Nat.succ.inj hlen) hwords hstrs
    rw [← Nat.add_assoc, ← Nat.add_assoc, ← Nat.add_assoc] at hrest
    intro r hr
    rcases List.mem_cons.mp hr with rfl | hr
    · exact ⟨by show lo ≤ base + p; omega, by show base + p + w ≤ base + C.length; omega⟩
    · rcases List.mem_cons.mp hr with rfl | hr
      · exact ⟨by show lo ≤ base + t; omega, by show base + t + (name.length + 1) ≤ base + C.length; omega⟩
      · exact hrest r hr

/-! ## The two modes -/

/-- A descriptor of the archive of the `m` bytes at `s`. -/
structure ArAt (s m : Nat) (e : Elf) : Prop where
  kind : e.kind = .ar
  startOffset : e.startOffset = s
  maximumSize : e.maximumSize = m

structure MappedAt (F : Image) (s m : Nat) (e : Elf) : Prop extends ArAt s m e where
  mapAddress : e.mapAddress = some F

/-- The file is read with `pread`. -/
structure PreadAt (env : Env) (F : Image) (s m : Nat) (e : Elf) : Prop extends ArAt s m e where
  mapAddress : e.mapAddress = none
  fildes : e.fildes ≠ -1
  file : env.file e.fildes = F

def rawCount (F : Image) (s w : Nat) : Nat := ofBytes .big (window F.bytes (s + sarmag + arHdrSize) w)

def Rejects (F : Image) (s m w n : Nat) : Prop :=
  m < indexLen F s ∨ m - indexLen F s < sarmag + arHdrSize ∨ indexLen F s / w < n

instance (F : Image) (s m w n : Nat) : Decidable (Rejects F s m w n) := inferInstanceAs (Decidable (_ ∨ _))

/-- The count is that of the contents where these hold a word. -/
theorem rejects_iff (h : HasIndex F s m w) (hw : w ≤ (indexContents F s m).length) :
    Rejects F s m w (rawCount F s w) ↔ Refused F s m w := by
  have hcount : ofBytes .big (window (indexContents F s m) 0 w) = rawCount F s w := by
    rw [h.window_contents (by rw [Nat.zero_add]; exact hw)]
    rfl
  unfold Rejects Refused
  rw [hcount]
  omega

def headLog (s w : Nat) : Reads := [(s + sarmag, arHdrSize), (s + sarmag + arHdrSize, w)]

/-- The header and `len` bytes of the contents are inside where there are that many. -/
theorem headLog_inside {len : Nat} (hlen : len ≤ (indexContents F s m).length) :
    InIndex F s m (headLog s len) := by
  intro r hr
  rcases List.mem_cons.mp hr with rfl | hr
  · exact ⟨Nat.le_refl _, Nat.le_add_right _ _⟩
  · obtain rfl := List.mem_singleton.mp hr
    exact ⟨Nat.le_add_right _ _, Nat.add_le_add_left hlen _⟩

/-- What is left of a call once the header was read. -/
theorem elfGetarsym_header (h : HasIndex F s m w) (he : ArAt s m e) {st : Index}
    (hheader : indexHeader env e (Index.fresh.setSym .missing) = .ok (indexHdr F s) st) :
    elfGetarsym env e .fresh =
      ((readNumberEntries env e (s + sarmag + arHdrSize) w st).bind fun n st =>
        if Rejects F s m w n then .err .NO_INDEX st
        else (readEntries env e (s + sarmag + arHdrSize + w) w n (indexLen F s) st).bind fun entries st =>
          .ok (entries ++ [Arsym.last], n + 1) { st with arSym := .table (entries ++ [Arsym.last]), arSymNum := n + 1 }) := by
  have hfits := h.fits
  have hroom := h.room
  have hsmall := F.small
  have hoff : wrap (s + sarmag + arHdrSize) = s + sarmag + arHdrSize := wrap_of_lt (by omega)
  unfold elfGetarsym
  rw [if_neg (not_not.mpr he.kind)]
  show (readIndex env e .fresh).bind _ = _
  rw [readIndex, hheader, bind_ok, if_neg (not_not.mpr h.fmag), h.width]
  simp only
  rw [he.startOffset, hoff, indexSize_eq, he.maximumSize]
  simp only
  cases readNumberEntries env e (s + sarmag + arHdrSize) w st with
  | err c st => rfl
  | stop f => rfl
  | ok n st =>
    rw [bind_ok, bind_ok]
    by_cases hrej : Rejects F s m w n
    · have htest : m < indexLen F s ∨ m - indexLen F s < sarmag + arHdrSize ∨ indexLen F s / w < n := hrej
      rw [if_pos hrej, if_pos htest]
      rfl
    · have htest : ¬ (m < indexLen F s ∨ m - indexLen F s < sarmag + arHdrSize ∨ indexLen F s / w < n) := hrej
      rw [if_neg hrej, if_neg htest]
      cases readEntries env e (s + sarmag + arHdrSize + w) w n (indexLen F s) st <;> rfl

/-! ## Mapped archives -/

theorem indexHeader_mapped (h : HasIndex F s m w) (he : MappedAt F s m e) :
    indexHeader env e (Index.fresh.setSym .missing) = .ok (indexHdr F s) ⟨.missing, 0, [(s + sarmag, arHdrSize)]⟩ := by
  have hfits := h.fits
  have hroom := h.room
  unfold indexHeader mapBytes
  simp only [he.mapAddress]
  rw [he.maximumSize, if_neg (Nat.not_lt.mpr hroom), he.startOffset, readLogged_of_le _ (by omega)]
  rfl

/-- The call once the header and the count were read. -/
theorem elfGetarsym_mapped (h : HasIndex F s m w) (he : MappedAt F s m e)
    (hin : s + sarmag + arHdrSize + 8 ≤ F.bytes.length) : elfGetarsym env e .fresh =
      if Rejects F s m w (rawCount F s w) then .err .NO_INDEX ⟨.missing, 0, headLog s 8⟩
      else
        ((arsymLoop env w F.bytes F.bytes (rawCount F s w) (s + sarmag + arHdrSize + w)
          (s + sarmag + arHdrSize + w + rawCount F s w * w) (headLog s 8)).within fun log => ⟨.missing, 0, log⟩).bind
          fun entries st => .ok (entries ++ [Arsym.last], rawCount F s w + 1)
            { st with arSym := .table (entries ++ [Arsym.last]), arSymNum := rawCount F s w + 1 } := by
  have hcount : readNumberEntries env e (s + sarmag + arHdrSize) w ⟨.missing, 0, [(s + sarmag, arHdrSize)]⟩ =
      .ok (rawCount F s w) ⟨.missing, 0, headLog s 8⟩ := by
    have hw := (indexWidth_pos h.width).2
    unfold readNumberEntries mapBytes
    simp only [he.mapAddress]
    rw [readLogged_of_le _ hin, within_ok, bind_ok, beNumber_eq, window, List.take_take, Nat.min_eq_left hw]
    rfl
  rw [elfGetarsym_header h he.toArAt (indexHeader_mapped h he), hcount, bind_ok]
  split
  · rfl
  · unfold readEntries
    simp only [he.mapAddress]

/-- A mapped image that ends before the eight bytes that are copied for the count. -/
theorem elfGetarsym_mapped_short (h : HasIndex F s m w) (he : MappedAt F s m e)
    (hout : F.bytes.length < s + sarmag + arHdrSize + 8) : elfGetarsym env e .fresh = .stop .load := by
  rw [elfGetarsym_header h he.toArAt (indexHeader_mapped h he)]
  unfold readNumberEntries mapBytes
  simp only [he.mapAddress]
  rw [readLogged_of_lt _ (by decide) hout]
  rfl

/-- In a mapped archive the index is decoded exactly or refused if there is room for the eight bytes that are copied
for the count, and the index is refused or well formed. -/
theorem decoded_mapped_iff (h : HasIndex F s m w) (he : MappedAt F s m e) :
    Decoded F s m w (elfGetarsym env e .fresh) ↔
      8 ≤ (indexContents F s m).length ∧ (Refused F s m w ∨ Indexed F s m w) := by
  have hlen := h.length_contents
  have hfits := h.fits
  have hroom := h.room
  have hpos := indexWidth_pos h.width
  have hloop := @arsymLoop_ensures env w F.bytes F.bytes hpos.1 (rawCount F s w) (s + sarmag + arHdrSize + w)
    (s + sarmag + arHdrSize + w + rawCount F s w * w) (headLog s 8)
  -- the eight bytes are on record
  have hhead : ∀ log, InIndex F s m (headLog s 8 ++ log) → 8 ≤ (indexContents F s m).length := by
    intro log hin
    have := (hin (s + sarmag + arHdrSize, 8) (by simp [headLog])).2
    simp only at this
    omega
  constructor
  · intro hdec
    rcases Nat.lt_or_ge F.bytes.length (s + sarmag + arHdrSize + 8) with hout | hin
    · rw [elfGetarsym_mapped_short h he hout] at hdec
      exact absurd hdec id
    · rw [elfGetarsym_mapped h he hin] at hdec
      split at hdec
      · next hrej =>
        have h8 := hhead [] (by rw [List.append_nil]; exact hdec.1)
        exact ⟨h8, .inl ((rejects_iff h (by omega)).mp hrej)⟩
      · revert hdec
        cases hrun : arsymLoop env w F.bytes F.bytes (rawCount F s w) (s + sarmag + arHdrSize + w)
            (s + sarmag + arHdrSize + w + rawCount F s w * w) (headLog s 8) with
        | ok r log =>
          rw [hrun] at hloop
          obtain ⟨offs, names, -, -, -, -, -, rfl⟩ := hloop
          rintro ⟨hin, hwhole, offs', names', hindex, -⟩
          exact ⟨hhead _ hin, .inr ⟨hwhole, offs', names', hindex⟩⟩
        | err c log =>
          rw [hrun] at hloop
          exact absurd hloop id
        | stop f => exact fun hdec => absurd hdec id
  · rintro ⟨h8, hcond⟩
    have hin : s + sarmag + arHdrSize + 8 ≤ F.bytes.length := by omega
    have hw : w ≤ (indexContents F s m).length := by omega
    have hheadIn : InIndex F s m (headLog s 8) := headLog_inside h8
    rw [elfGetarsym_mapped h he hin]
    by_cases href : Refused F s m w
    · rw [if_pos ((rejects_iff h hw).mpr href)]
      exact ⟨hheadIn, not_indexed_of_refused h href⟩
    · rw [if_neg fun hrej => href ((rejects_iff h hw).mp hrej)]
      obtain ⟨hwhole, offs, names, hindex⟩ := hcond.resolve_left href
      have hcount : rawCount F s w = offs.length := by
        rw [← hindex.count, h.window_contents (by rw [Nat.zero_add]; exact hw)]
        rfl
      have hstart : s + sarmag + arHdrSize + w + offs.length * w =
          s + sarmag + arHdrSize + (offs.length + 1) * w := by
        rw [Nat.add_mul, Nat.one_mul]
        omega
      rw [hcount, hstart, arsymLoop_eq hpos.1 _ hindex.length (wordsAt_window h hindex.words)
        (stringsAt_window h hindex.names)]
      have hranges := @entryRanges_inside w (indexContents F s m) (s + sarmag + arHdrSize) (s + sarmag) (by omega)
        names offs w ((offs.length + 1) * w) hindex.length hindex.words hindex.names
      exact ⟨inside_append.mpr ⟨hheadIn, hranges⟩, hwhole, offs, names, hindex, rfl⟩

/-! ## Archives that are read with `pread` -/

/-- A read that ends in the file. -/
theorem preadExact_of_le {fildes : Int} {len pos : Nat} {c : ElfError} {st : Index} (hfd : fildes ≠ -1)
    (hfile : env.file fildes = F) (hin : pos + len ≤ F.bytes.length) :
    preadExact env fildes len pos c st = .ok (window F.bytes pos len) (st.read pos len) := by
  have hsmall := F.small
  have hlen : (window F.bytes pos len).length = len := length_window hin
  unfold preadExact preadLogged preadRetry
  rw [if_neg (by omega), hfile]
  simp only [bind_ok, hlen, if_pos]

/-- A read that does not end in the file gives what is there. -/
theorem preadExact_of_lt {fildes : Int} {len pos : Nat} {c : ElfError} {st : Index} (hfd : fildes ≠ -1)
    (hfile : env.file fildes = F) (hpos : pos ≤ F.bytes.length) (hout : F.bytes.length < pos + len) :
    preadExact env fildes len pos c st = .err c (st.read pos (F.bytes.length - pos)) := by
  have hsmall := F.small
  have hlen : (window F.bytes pos len).length = F.bytes.length - pos := by
    rw [window, List.length_take, List.length_drop]
    omega
  unfold preadExact preadLogged preadRetry
  rw [if_neg (by omega), hfile]
  simp only [bind_ok, hlen]
  rw [if_neg (by omega)]

theorem indexHeader_pread (h : HasIndex F s m w) (he : PreadAt env F s m e) :
    indexHeader env e (Index.fresh.setSym .missing) = .ok (indexHdr F s) ⟨.missing, 0, [(s + sarmag, arHdrSize)]⟩ := by
  have hfits := h.fits
  have hroom := h.room
  have hsmall := F.small
  have hpos : wrap (s + sarmag) = s + sarmag := wrap_of_lt (by omega)
  unfold indexHeader
  simp only [he.mapAddress]
  rw [if_neg he.fildes, he.startOffset, hpos, preadExact_of_le he.fildes he.file (by omega)]
  rfl

/-- The file ends where the contents do. -/
def EndsFile (F : Image) (s m : Nat) : Prop :=
  F.bytes.length ≤ s + sarmag + arHdrSize + (indexContents F s m).length

/-- As many bytes are read from `off` on as the member has: the names are not looked for in what is left of it. -/
theorem readEntries_pread (he : PreadAt env F s m e) (hw : 0 < w) {off n z : Nat} (hn : n * w ≤ z) (hoff : off ≤ F.bytes.length)
    (st : Index) : (readEntries env e off w n z st).Ensures
      (fun _ st' => off + z ≤ F.bytes.length ∧ (off + n * w, z - n * w) ∈ st'.log)
      (fun st' => F.bytes.length < off + z ∧
        ∀ lo hi, lo ≤ off → (Inside lo hi st'.log ↔ Inside lo hi st.log ∧ F.bytes.length ≤ hi))
      (fun _ => off + z ≤ F.bytes.length) := by
  have hsmall := F.small
  unfold readEntries
  simp only [he.mapAddress]
  rcases Nat.lt_or_ge F.bytes.length (off + n * w) with hout | hwords
  · rw [preadExact_of_lt he.fildes he.file hoff hout, bind_err]
    refine ⟨by omega, fun lo hi hlo => ?_⟩
    rw [Index.setSym, Index.read, inside_append, inside_singleton, Nat.add_sub_cancel' hoff, and_iff_right hlo]
  · have hpos : wrap (off + n * w) = off + n * w := wrap_of_lt (by omega)
    rw [preadExact_of_le he.fildes he.file hwords, bind_ok, hpos]
    rcases Nat.lt_or_ge F.bytes.length (off + n * w + (z - n * w)) with hout | hin
    · rw [preadExact_of_lt he.fildes he.file hwords hout, bind_err]
      refine ⟨by omega, fun lo hi hlo => ?_⟩
      rw [Index.setSym, Index.read, Index.read, inside_append, inside_append, inside_singleton, inside_singleton]
      constructor
      · rintro ⟨⟨hlog, -⟩, -, hhi⟩
        exact ⟨hlog, by omega⟩
      · rintro ⟨hlog, hhi⟩
        exact ⟨⟨hlog, hlo, by omega⟩, by omega, by omega⟩
    · rw [preadExact_of_le he.fildes he.file hin, bind_ok]
      simp only
      refine ensures_within (ensures_mono (arsymLoop_ensures hw n 0 0 []) (fun _ _ _ => ?_) (fun _ => False.elim)
        fun _ _ => by omega)
      exact ⟨by omega, List.mem_append_right _ (List.mem_singleton.mpr rfl)⟩

/-- An index has a count. -/
theorem Indexed.length (hi : Indexed F s m w) : w ≤ (indexContents F s m).length := by
  obtain ⟨-, offs, names, hindex⟩ := hi
  have hfits := hindex.fits
  rw [Nat.add_mul, Nat.one_mul] at hfits
  omega

/-- With `pread` the index is refused exactly if the file ends with what is no index, or if the member holds a count
that the test refuses. An index is never decoded. -/
theorem decoded_pread_iff (h : HasIndex F s m w) (he : PreadAt env F s m e) :
    Decoded F s m w (elfGetarsym env e .fresh) ↔
      (EndsFile F s m ∧ ¬ Indexed F s m w) ∨ (w ≤ (indexContents F s m).length ∧ Refused F s m w) := by
  have hlen := h.length_contents
  have hfits := h.fits
  have hroom := h.room
  have hpos := (indexWidth_pos h.width).1
  -- what is read behind the header lies inside where it ends inside
  have hhead : ∀ len, InIndex F s m (headLog s len) ↔ len ≤ (indexContents F s m).length := by
    refine fun len => ⟨fun hin => ?_, headLog_inside⟩
    have := (hin (s + sarmag + arHdrSize, len) (by simp [headLog])).2
    simp only at this
    omega
  rw [elfGetarsym_header h he.toArAt (indexHeader_pread h he)]
  unfold readNumberEntries
  simp only [he.mapAddress]
  rcases Nat.lt_or_ge F.bytes.length (s + sarmag + arHdrSize + w) with hout | hin
  · -- the file ends within the count
    have hnone : ¬ Indexed F s m w := fun hi => by
      have := hi.length
      omega
    rw [preadExact_of_lt he.fildes he.file (by omega) hout]
    show InIndex F s m (headLog s (F.bytes.length - (s + sarmag + arHdrSize))) ∧ _ ↔ _
    rw [hhead, EndsFile]
    constructor
    · exact fun hdec => .inl ⟨by omega, hnone⟩
    · rintro (⟨hend, -⟩ | ⟨hw, -⟩)
      · exact ⟨by omega, hnone⟩
      · omega
  · rw [preadExact_of_le he.fildes he.file hin, bind_ok, bind_ok, beNumber_eq]
    show Decoded F s m w (if Rejects F s m w (rawCount F s w) then .err .NO_INDEX ⟨.missing, 0, headLog s w⟩
      else (readEntries env e (s + sarmag + arHdrSize + w) w (rawCount F s w) (indexLen F s)
        ⟨.missing, 0, headLog s w⟩).bind fun entries st => .ok (entries ++ [Arsym.last], rawCount F s w + 1)
          { st with arSym := .table (entries ++ [Arsym.last]), arSymNum := rawCount F s w + 1 }) ↔ _
    by_cases hrej : Rejects F s m w (rawCount F s w)
    · rw [if_pos hrej]
      show InIndex F s m (headLog s w) ∧ ¬ Indexed F s m w ↔ _
      rw [hhead]
      constructor
      · exact fun hdec => .inr ⟨hdec.1, (rejects_iff h hdec.1).mp hrej⟩
      · rintro (⟨hend, hnone⟩ | ⟨hw, href⟩)
        · exact ⟨by unfold EndsFile at hend; omega, hnone⟩
        · exact ⟨hw, not_indexed_of_refused h href⟩
    · have htest : ¬ (m < indexLen F s ∨ m - indexLen F s < sarmag + arHdrSize ∨ indexLen F s / w < rawCount F s w) := hrej
      have hcount : rawCount F s w * w ≤ indexLen F s := (Nat.le_div_iff_mul_le hpos).mp (by omega)
      have hkept : ¬ (w ≤ (indexContents F s m).length ∧ Refused F s m w) :=
        fun hr => hrej ((rejects_iff h hr.1).mpr hr.2)
      rw [if_neg hrej, or_iff_left hkept]
      have hread := readEntries_pread he hpos hcount hin ⟨.missing, 0, headLog s w⟩
      cases hrun : readEntries env e (s + sarmag + arHdrSize + w) w (rawCount F s w) (indexLen F s)
          ⟨.missing, 0, headLog s w⟩ with
      | ok entries st =>
        rw [hrun] at hread
        -- the last byte that is read lies behind the member
        constructor
        · rintro ⟨hinside, -⟩
          have := (hinside _ hread.2).2
          simp only at this
          omega
        · rintro ⟨hend, -⟩
          have := hread.1
          unfold EndsFile at hend
          omega
      | err c st =>
        rw [hrun] at hread
        show InIndex F s m st.log ∧ ¬ Indexed F s m w ↔ _
        have hlog : InIndex F s m st.log ↔ EndsFile F s m := by
          refine (hread.2 _ _ (by omega)).trans ⟨fun hr => hr.2, fun hend => ⟨headLog_inside ?_, hend⟩⟩
          unfold EndsFile at hend
          omega
        rw [hlog]
      | stop f =>
        rw [hrun] at hread
        refine ⟨fun hdec => absurd hdec id, fun hr => ?_⟩
        have hend := hr.1
        have hlong : s + sarmag + arHdrSize + w + indexLen F s ≤ F.bytes.length := hread
        unfold EndsFile at hend
        omega

/-! ## Both modes -/

/-- Both calls decode the index exactly or refuse it, and they return the same. -/
def DecodedAlike (F : Image) (s m w : Nat) (x y : IndexCall (List Arsym × Nat)) : Prop :=
  Decoded F s m w x ∧ Decoded F s m w y ∧ x.value? = y.value?

theorem Decoded.value_of_refused (h : HasIndex F s m w) (hr : Refused F s m w) {x : IndexCall (List Arsym × Nat)}
    (hx : Decoded F s m w x) : x.value? = none := by
  cases x with
  | ok r st =>
    obtain ⟨-, hwhole, offs, names, hindex, -⟩ := hx
    exact absurd ⟨hwhole, offs, names, hindex⟩ (not_indexed_of_refused h hr)
  | err c st => rfl
  | stop f => rfl

/-- The inputs for which the index is decoded exactly or refused: in a mapped archive, with `pread`, and in both modes
alike. -/
theorem elfGetarsym_iff {e' : Elf} (h : HasIndex F s m w) (he : MappedAt F s m e) (he' : PreadAt env F s m e') :
    (Decoded F s m w (elfGetarsym env e .fresh) ↔
      8 ≤ (indexContents F s m).length ∧ (Refused F s m w ∨ Indexed F s m w)) ∧
    (Decoded F s m w (elfGetarsym env e' .fresh) ↔
      (EndsFile F s m ∧ ¬ Indexed F s m w) ∨ (w ≤ (indexContents F s m).length ∧ Refused F s m w)) ∧
    (DecodedAlike F s m w (elfGetarsym env e .fresh) (elfGetarsym env e' .fresh) ↔
      8 ≤ (indexContents F s m).length ∧ Refused F s m w) := by
  have hmapped := @decoded_mapped_iff env e F s m w h he
  have hpread := decoded_pread_iff h he'
  have hw := (indexWidth_pos h.width).2
  refine ⟨hmapped, hpread, ?_⟩
  constructor
  · rintro ⟨hx, hy, -⟩
    obtain ⟨h8, href | hindexed⟩ := hmapped.mp hx
    · exact ⟨h8, href⟩
    · rcases hpread.mp hy with ⟨-, hnone⟩ | ⟨-, href⟩
      · exact absurd hindexed hnone
      · exact ⟨h8, href⟩
  · rintro ⟨h8, href⟩
    have hx := hmapped.mpr ⟨h8, .inl href⟩
    have hy := hpread.mpr (.inr ⟨by omega, href⟩)
    exact ⟨hx, hy, by rw [hx.value_of_refused h href, hy.value_of_refused h href]⟩

end Index

def mappedArchive (F : Image) : Elf := allocateElf 3 (some F) 0 F.bytes.length .readMmap none .ar

def readArchive (F : Image) : Elf := allocateElf 3 none 0 F.bytes.length .read none .ar

def indexArchive (contents : List UInt8) (h : (armag ++ rawHeader indexName [0x31, 0x32] ++ contents).length < 2 ^ 63) :
    Image := .ofBytes (armag ++ rawHeader indexName [0x31, 0x32] ++ contents) h

def nineSymbols : Image := indexArchive [0, 0, 0, 9, 0, 0, 0, 0, 0, 0, 0, 0] (by decide +kernel)

theorem elfGetarsym_iff_nineSymbols : DecodedAlike nineSymbols 0 80 4
    (elfGetarsym (plainEnv nineSymbols) (mappedArchive nineSymbols) .fresh)
    (elfGetarsym (plainEnv nineSymbols) (readArchive nineSymbols) .fresh) := by
  have hindex : HasIndex nineSymbols 0 80 4 :=
    ⟨by decide +kernel, by decide, by decide +kernel, by decide +kernel⟩
  have hlen : nineSymbols.bytes.length = 80 := by decide +kernel
  refine (elfGetarsym_iff hindex ⟨⟨rfl, rfl, hlen⟩, rfl⟩ ⟨⟨rfl, rfl, hlen⟩, rfl, by decide, rfl⟩).2.2.mpr ⟨?_, .inr ?_⟩
  · decide +kernel
  · decide +kernel

/-- The index of the name `foo`, which fills the member and the file to the last byte. -/
def oneSymbol : Image := indexArchive [0, 0, 0, 1, 0, 0, 0, 0x44, 0x66, 0x6F, 0x6F, 0] (by decide +kernel)

/-- The index gives a count of 3, which leaves no room for the count itself. A member follows. -/
def threeSymbols : Image :=
  indexArchive ([0, 0, 0, 3, 0, 0, 0, 0, 0, 0, 0, 0] ++ rawHeader [0x62, 0x2F] [0x34] ++ [0, 0, 0, 0]) (by decide +kernel)

/-- With `pread` a well-formed index is not decoded, and in a mapped archive one with no room for its offsets is. -/
theorem not_decoded_index :
    (Indexed oneSymbol 0 80 4 ∧ Decoded oneSymbol 0 80 4 (elfGetarsym (plainEnv oneSymbol) (mappedArchive oneSymbol) .fresh) ∧
      ∃ st, elfGetarsym (plainEnv oneSymbol) (readArchive oneSymbol) .fresh = .err .NO_INDEX st) ∧
    ¬ Indexed threeSymbols 0 144 4 ∧
      ∃ r st, elfGetarsym (plainEnv threeSymbols) (mappedArchive threeSymbols) .fresh = .ok r st := by
  have hlen : oneSymbol.bytes.length = 80 := by decide +kernel
  have hone : HasIndex oneSymbol 0 80 4 := ⟨by decide +kernel, by decide, by decide +kernel, by decide +kernel⟩
  have hthree : HasIndex threeSymbols 0 144 4 := ⟨by decide +kernel, by decide, by decide +kernel, by decide +kernel⟩
  have hindexed : Indexed oneSymbol 0 80 4 :=
    ⟨by decide +kernel, [0x44], [[0x66, 0x6F, 0x6F]], by decide +kernel, by decide +kernel,
      ⟨by decide +kernel, by decide +kernel, trivial⟩, rfl, ⟨by decide +kernel, trivial⟩⟩
  have hmapped : Decoded oneSymbol 0 80 4 (elfGetarsym (plainEnv oneSymbol) (mappedArchive oneSymbol) .fresh) :=
    (decoded_mapped_iff hone ⟨⟨rfl, rfl, hlen⟩, rfl⟩).mpr ⟨by decide +kernel, .inr hindexed⟩
  refine ⟨⟨hindexed, hmapped, ?_⟩, ?_, ?_⟩
  · have hfails : (elfGetarsym (plainEnv oneSymbol) (readArchive oneSymbol) .fresh).fails
        (fun c _ => decide (c = .NO_INDEX)) = true := by decide +kernel
    obtain ⟨c, st, hrun, hc⟩ := exists_of_fails hfails
    obtain rfl := of_decide_eq_true hc
    exact ⟨st, hrun⟩
  · rintro ⟨-, offs, names, hindex⟩
    have hcount : ofBytes .big (window (indexContents threeSymbols 0 144) 0 4) = 3 := by decide +kernel
    have hcontents : (indexContents threeSymbols 0 144).length = 12 := by decide +kernel
    have hfits := hindex.fits
    rw [← hindex.count, hcount, hcontents] at hfits
    exact absurd hfits (by decide)
  · have hreturns : (elfGetarsym (plainEnv threeSymbols) (mappedArchive threeSymbols) .fresh).returns
        (fun _ _ => true) = true := by decide +kernel
    obtain ⟨r, st, hrun, -⟩ := exists_of_returns hreturns
    exact ⟨r, st, hrun⟩

end LibElf.Elfutils
