import Mathlib.Data.List.DropRight
import LibElf.Elfutils.LongNames

/-!
# The names of members

A header has sixteen bytes for a name, which may be the name itself, with a slash or with blanks behind it, or a
reference to the table of long names.

1. `takeHeader`, what is done with a header once it is read, and `FineHeader`, a header with its other fields right.
2. `NameForm`, the three forms.
3. `NameRead`: the name is read whatever follows it and whatever was read before. `nameRead_iff`: it is, unless
   the name takes all of the field.
-/

namespace LibElf.Elfutils

open Outcome

/-! ## Headers -/

section Headers

variable (env : Env)

/-- The part of `nextArhdr` that follows the reading of the header. -/
def takeHeader (hdr : List UInt8) (w : Walk) : ArCall Unit :=
  if window hdr 58 2 ≠ arfmag then .err .ARCHIVE_FMAG w
  else
    (arNameOf env hdr (w.setHdr { w.elf.ar.elfArHdr with arRawname := window hdr 0 16 })).bind fun name w =>
    arFields hdr (w.setHdr { w.elf.ar.elfArHdr with arName := some name })

theorem nextArhdr_eq (w : Walk) : nextArhdr env w = (arHeader env w).bind (takeHeader env) := rfl

/-- The bytes of the table of long names, as they are in the archive. -/
def Elf.rawTable (e : Elf) : Option (List UInt8) :=
  ((findNames env (2 ^ 64 + 1) sarmag ⟨e, []⟩).bind fun entry w => namesBytes env entry.1 entry.2 w).value?

end Headers

/-- A header that is as it should be but for its name. -/
structure FineHeader (hdr : List UInt8) : Prop where
  length : hdr.length = arHdrSize
  fmag : window hdr 58 2 = arfmag
  size : hdr.getD 48 0 ≠ 0x20
  small : ∃ n, intField hdr 48 10 = some n ∧ 0 ≤ n

section Fields

variable {env : Env} {e : Elf} {w : Walk}

/-- The numbers of such a header are read, whatever its name is. -/
theorem arFields_of_fine {hdr : List UInt8} (h : FineHeader hdr) (w : Walk) :
    ∃ w', arFields hdr w = .ok () w' ∧ w'.elf.ar.elfArHdr.arName = w.elf.ar.elfArHdr.arName := by
  have hsome : ∀ {off len : Nat}, off ≤ 58 → ∃ n, intField hdr off len = some n :=
    fun hoff => Option.isSome_iff_exists.mp (intField_isSome h.fmag hoff)
  obtain ⟨date, hdate⟩ := @hsome 16 12 (by decide)
  obtain ⟨uid, huid⟩ := @hsome 28 6 (by decide)
  obtain ⟨gid, hgid⟩ := @hsome 34 6 (by decide)
  obtain ⟨mode, hmode⟩ := @hsome 40 8 (by decide)
  obtain ⟨size, hsize, hpos⟩ := h.small
  have hok : ∃ w', arFields hdr w = .ok () w' := by
    unfold arFields arNumber
    rw [if_neg h.size, hdate, huid, hgid, hmode, hsize]
    simp only [bind_ok]
    rw [if_neg (Int.not_lt.mpr hpos)]
    exact ⟨_, rfl⟩
  obtain ⟨w', hw'⟩ := hok
  have hnames := @arFields_names hdr w
  rw [hw'] at hnames
  obtain ⟨h', helf, hname, -⟩ := hnames
  exact ⟨w', hw', by rw [helf]; exact hname⟩

/-- The table that is kept is the one in the archive, cut into strings. -/
theorem namesTable_eq : e.namesTable env = (e.rawTable env).map nulTerminate := by
  unfold Elf.namesTable Elf.rawTable readLongNames
  cases findNames env (2 ^ 64 + 1) sarmag ⟨e, []⟩ with
  | ok entry w =>
    simp only [bind_ok]
    cases namesBytes env entry.1 entry.2 w <;> rfl
  | err _ _ => rfl
  | stop _ => rfl

theorem rawTable_setAr (a : Ar) : (e.setAr a).rawTable env = e.rawTable env := by
  have hwalk : (⟨e.setAr a, []⟩ : Walk) = Walk.put a e.refCount [] ⟨e, []⟩ := rfl
  unfold Elf.rawTable
  rw [hwalk, ← findNames_put]
  refine value?_bind_within fun entry w => ?_
  rw [← namesBytes_put]
  cases namesBytes env entry.1 entry.2 w <;> rfl

/-- The table is at hand, whether it was read before or not. -/
theorem longNames_eq (ht : w.elf.Tabled env) {names : List UInt8} (hnames : w.elf.namesTable env = some names) :
    ∃ w', longNames env w = .ok names w' := by
  unfold longNames
  split
  · next names' hkept =>
    have := ht names' hkept
    rw [hnames] at this
    exact ⟨w, by rw [Option.some.inj this]⟩
  · have hput := @readLongNames_put env w.elf.ar w.elf.refCount w.used ⟨w.elf, []⟩
    rw [show Walk.put w.elf.ar w.elf.refCount w.used ⟨w.elf, []⟩ = w by rw [Walk.put, List.append_nil]] at hput
    have hvalue : (readLongNames env w).value? = some names := hput.trans hnames
    cases hread : readLongNames env w with
    | ok names' w' =>
      rw [hread] at hvalue
      exact ⟨w', by rw [Option.some.inj hvalue]⟩
    | err _ _ =>
      rw [hread] at hvalue
      cases hvalue
    | stop _ =>
      rw [hread] at hvalue
      cases hvalue

end Fields

/-! ## The forms of a name -/

/-- How a name is spelled: the sixteen bytes of the field, with the table of long names. -/
inductive NameForm (table : Option (List UInt8)) : List UInt8 → List UInt8 → Prop
  /-- A short name with a slash behind it. -/
  | short {name rest : List UInt8} : 1 ≤ name.length → name.length ≤ 15 → 0x2F ∉ name → 0 ∉ name →
      (name ++ 0x2F :: rest).length = 16 → NameForm table (name ++ 0x2F :: rest) name
  /-- A name padded with blanks. -/
  | bsd {name : List UInt8} : 1 ≤ name.length → name.length ≤ 16 → 0x2F ∉ name → 0 ∉ name →
      name.getLast? ≠ some 0x20 → NameForm table (padName name) name
  /-- A reference to an entry of the table, which ends with a slash and a newline. -/
  | long {digits raw rest name : List UInt8} : digits ≠ [] → digits.length ≤ 15 → (∀ c ∈ digits, isDigit c) →
      table = some raw → raw.drop (decimal digits) = name ++ 0x2F :: 0x0A :: rest → 0x2F ∉ name → 0 ∉ name → NameForm table (padName (0x2F :: digits)) name

/-- The name does not take all of the field: there is a slash or a blank behind it. -/
def Roomy (field : List UInt8) : Prop := 0x2F ∈ field.drop 1 ∨ field.getD 15 0 = 0x20

/-- The name is read from the field, whatever the other fields are. -/
def NameRead (env : Env) (w : Walk) (field name : List UInt8) : Prop :=
  ∀ hdr, window hdr 0 16 = field → FineHeader hdr →
    ∃ w', takeHeader env hdr w = .ok () w' ∧ w'.elf.ar.elfArHdr.arName = some name

section Forms

variable {env : Env} {e : Elf} {w : Walk} {field name : List UInt8}

theorem cString_eq (h : 0 ∉ name) : cString name = name := by
  exact List.takeWhile_eq_self_iff.mpr fun c hc => decide_eq_true (ne_of_mem_of_not_mem hc h)

/-- A name with a slash behind it. -/
theorem memberName_short {rest : List UInt8} (hslash : 0x2F ∉ name) (hnul : 0 ∉ name) :
    memberName (name ++ 0x2F :: rest) = name := by
  unfold memberName
  rw [if_pos (by simp), takeWhile_ne hslash, cString_eq hnul]

theorem padName_eq {n : Nat} (h : name.length ≤ n) (hn : n ≤ 16) :
    (padName name).take n = name ++ List.replicate (n - name.length) 0x20 := by
  unfold padName
  rw [List.take_append, List.take_of_length_le h, List.take_replicate]
  congr 2
  omega

/-- The blanks behind a name are dropped. -/
theorem dropWhile_blanks {n : Nat} (hlast : name.getLast? ≠ some 0x20) :
    ((name ++ List.replicate n 0x20).reverse.dropWhile (· = 0x20)).reverse = name := by
  rw [List.reverse_append, List.reverse_replicate, List.dropWhile_append_of_pos]
  · refine List.rdropWhile_eq_self_iff.mpr fun hne => ?_
    rw [List.getLast?_eq_some_getLast hne] at hlast
    exact fun hblank => hlast (congrArg some (of_decide_eq_true hblank))
  · intro c hc
    exact decide_eq_true (List.eq_of_mem_replicate hc)

/-- A padded name that leaves a blank. -/
theorem memberName_padded (hslash : 0x2F ∉ name) (hnul : 0 ∉ name) (hlast : name.getLast? ≠ some 0x20)
    (hlen : name.length ≤ 15) : memberName (padName name) = name := by
  have hno : (0x2F : UInt8) ∉ padName name := by
    unfold padName
    rw [List.mem_append, not_or]
    exact ⟨hslash, fun h => absurd (List.eq_of_mem_replicate h) (by decide)⟩
  unfold memberName
  rw [if_neg hno, padName_eq hlen (by decide), dropWhile_blanks hlast, cString_eq hnul]

/-- A padded name that leaves no blank loses its last byte. -/
theorem memberName_full (hslash : 0x2F ∉ name) (hlen : name.length = 16) : memberName (padName name) ≠ name := by
  have hpad : padName name = name := by
    unfold padName
    rw [hlen, Nat.sub_self, List.replicate_zero, List.append_nil]
  have hshort : (memberName name).length ≤ 15 := by
    unfold memberName
    rw [if_neg hslash]
    calc (cString ((name.take 15).reverse.dropWhile (· = 0x20)).reverse).length
        ≤ ((name.take 15).reverse.dropWhile (· = 0x20)).reverse.length := (List.takeWhile_prefix _).length_le
      _ ≤ (name.take 15).length := by
        rw [List.length_reverse, ← @List.length_reverse _ (name.take 15)]
        exact (List.dropWhile_suffix _).length_le
      _ ≤ 15 := List.length_take_le 15 name
  intro heq
  rw [hpad] at heq
  rw [heq, hlen] at hshort
  omega

/-! ### References -/

theorem isDigit_toNat {c : UInt8} (h : isDigit c = true) : 0x30 ≤ c.toNat ∧ c.toNat ≤ 0x39 :=
  of_decide_eq_true h

theorem decimal_lt {ds : List UInt8} (h : ∀ c ∈ ds, isDigit c) : decimal ds < 10 ^ ds.length := by
  induction ds using List.reverseRecOn with
  | nil => decide
  | append_singleton ds c ih =>
    have hds := ih fun d hd => h d (List.mem_append_left _ hd)
    have hc := isDigit_toNat (h c (by simp))
    have hstep : decimal (ds ++ [c]) = 10 * decimal ds + (c.toNat - 0x30) := by
      unfold decimal
      rw [List.foldl_append]
      rfl
    rw [hstep, List.length_append, List.length_singleton, Nat.pow_succ]
    omega

/-- A row of digits is read up to the first byte that is none. -/
theorem atol_digits {ds rest : List UInt8} {c : UInt8} (hne : ds ≠ []) (hall : ∀ d ∈ ds, isDigit d)
    (hc : isDigit c = false) : atol (ds ++ c :: rest) = some ((min (decimal ds) (2 ^ 63 - 1) : Nat) : Int) := by
  obtain ⟨d, ds', rfl⟩ := List.exists_cons_of_ne_nil hne
  have hd := isDigit_toNat (hall d List.mem_cons_self)
  have hspace : isSpace d = false := by
    refine decide_eq_false ?_
    rintro (h | ⟨-, h⟩)
    · rw [h] at hd
      exact absurd hd.1 (by decide)
    · have : d.toNat ≤ 0x0D := h
      omega
  have hsign : signOf (d :: ds' ++ c :: rest) = (false, d :: ds' ++ c :: rest) := by
    rw [List.cons_append, signOf, if_neg, if_neg]
    · rintro rfl
      exact absurd hd.1 (by decide)
    · rintro rfl
      exact absurd hd.1 (by decide)
  have htake : (d :: ds' ++ c :: rest).takeWhile isDigit = d :: ds' := by
    rw [List.takeWhile_append_of_pos hall, List.takeWhile_cons_of_neg (by simp [hc]), List.append_nil]
  unfold atol
  rw [List.cons_append, List.dropWhile_cons_of_neg (by simp [hspace]), ← List.cons_append, hsign]
  simp only
  rw [htake, if_neg (by simp), if_neg (by decide)]

/-- What is behind an offset is cut by itself. -/
theorem nulTerminate_drop (bs : List UInt8) : ∀ n, (nulTerminate bs).drop n = nulTerminate (bs.drop n) := by
  induction bs with
  | nil => intro n; simp [nulTerminate]
  | cons b bs ih =>
    intro n
    cases n with
    | zero => rfl
    | succ n => rw [nulTerminate, List.drop_succ_cons, List.drop_succ_cons, ih n]

/-- An entry of the table. -/
theorem cString_entry {raw rest : List UInt8} {n : Nat} (hentry : raw.drop n = name ++ 0x2F :: rest)
    (hslash : 0x2F ∉ name) (hnul : 0 ∉ name) : cString ((nulTerminate raw).drop n) = name := by
  rw [nulTerminate_drop, hentry, nulTerminate_append hslash]
  exact takeWhile_ne hnul

/-- The name of a header that refers to the table. -/
theorem arNameOf_long {hdr : List UInt8} (hslash : hdr.getD 0 0 = 0x2F) (hdigit : isDigit (hdr.getD 1 0) = true) :
    arNameOf env hdr w = longName env hdr w := by
  have hne : ∀ reserved, isDigit ((padName reserved).getD 1 0) = false → window hdr 0 16 ≠ padName reserved := by
    intro reserved hno heq
    rw [isDigit_padName heq hno] at hdigit
    cases hdigit
  unfold arNameOf
  simp only
  rw [if_pos hslash, if_neg (hne _ (by decide)), if_neg (hne _ (by decide)), if_neg (hne _ (by decide)),
    if_pos hdigit]

/-- A name that is none of the library's own. -/
theorem arNameOf_member {hdr : List UInt8} (hslash : hdr.getD 0 0 ≠ 0x2F) :
    arNameOf env hdr w = .ok (memberName (window hdr 0 16)) w := by
  unfold arNameOf
  simp only
  rw [if_neg hslash]

/-- What is done with a fine header whose name is found. -/
theorem takeHeader_ok {hdr : List UInt8} (hf : FineHeader hdr)
    (hname : ∃ w', arNameOf env hdr (w.setHdr { w.elf.ar.elfArHdr with arRawname := window hdr 0 16 }) =
      .ok name w') : ∃ w', takeHeader env hdr w = .ok () w' ∧ w'.elf.ar.elfArHdr.arName = some name := by
  obtain ⟨w₁, hw₁⟩ := hname
  obtain ⟨w', hw', hn⟩ := arFields_of_fine hf (w₁.setHdr { w₁.elf.ar.elfArHdr with arName := some name })
  refine ⟨w', ?_, hn⟩
  unfold takeHeader
  rw [if_neg (not_not.mpr hf.fmag), hw₁, bind_ok, hw']

/-- And where its name is not. -/
theorem takeHeader_name {hdr : List UInt8} {w' : Walk} (h : takeHeader env hdr w = .ok () w') :
    ∃ name w₁, arNameOf env hdr (w.setHdr { w.elf.ar.elfArHdr with arRawname := window hdr 0 16 }) = .ok name w₁ ∧
      w'.elf.ar.elfArHdr.arName = some name := by
  unfold takeHeader at h
  split at h
  · cases h
  · obtain ⟨name, w₁, hname, hrest⟩ := bind_eq_ok.mp h
    have hkept := @arFields_names hdr (w₁.setHdr { w₁.elf.ar.elfArHdr with arName := some name })
    rw [hrest] at hkept
    obtain ⟨h', helf, hn, -⟩ := hkept
    exact ⟨name, w₁, hname, by rw [helf]; exact hn⟩

/-- The bytes of the header behind the field. -/
theorem header_eq (hdr : List UInt8) : hdr = window hdr 0 16 ++ hdr.drop 16 := by
  rw [window, List.drop_zero, List.take_append_drop]

/-- A header with a field in front and room for a long number behind it. -/
def fullHeader (field : List UInt8) : List UInt8 :=
  field ++ (List.replicate 32 0x37 ++ 0x30 :: (List.replicate 9 0x20 ++ arfmag))

theorem fullHeader_fine (h : field.length = 16) : FineHeader (fullHeader field) := by
  have hdrop : (fullHeader field).drop 48 = 0x30 :: (List.replicate 9 0x20 ++ arfmag) := by
    unfold fullHeader
    rw [show 48 = field.length + 32 by omega, List.drop_append]
    simp
  have hget : ∀ i, (fullHeader field).getD (48 + i) 0 = (0x30 :: (List.replicate 9 0x20 ++ arfmag)).getD i 0 := by
    intro i
    rw [← hdrop, List.getD_eq_getElem?_getD, List.getD_eq_getElem?_getD, List.getElem?_drop]
  refine ⟨?_, ?_, ?_, 0, ?_, le_rfl⟩
  · unfold fullHeader
    rw [List.length_append, h]
    decide
  · have := window_drop (fullHeader field) 48 10 2
    rw [hdrop] at this
    rw [← this]
    decide
  · rw [hget 0]
    decide
  · unfold intField
    rw [show 48 + 10 - 1 = 48 + 9 from rfl, hget 9, hdrop, if_neg (by decide)]
    decide

theorem foldl_digits_mono (ds : List UInt8) : ∀ {a b : Nat}, a ≤ b →
    ds.foldl (fun n c => 10 * n + (c.toNat - 0x30)) a ≤ ds.foldl (fun n c => 10 * n + (c.toNat - 0x30)) b := by
  induction ds with
  | nil => exact id
  | cons d ds ih =>
    intro a b h
    exact ih (Nat.add_le_add_right (Nat.mul_le_mul_left 10 h) _)

/-- A number does not get smaller with digits in front. -/
theorem decimal_le_append (ds es : List UInt8) : decimal es ≤ decimal (ds ++ es) := by
  unfold decimal
  rw [List.foldl_append]
  exact foldl_digits_mono es (Nat.zero_le _)

theorem length_window_lt (image : Image) (off len : Nat) : (window image.bytes off len).length < 2 ^ 63 := by
  refine lt_of_le_of_lt ?_ image.small
  rw [window, List.length_take, List.length_drop]
  omega

/-- The table lies in an image. -/
theorem rawTable_lt {raw : List UInt8} (h : e.rawTable env = some raw) : raw.length < 2 ^ 63 := by
  have hbytes : ∀ offset len w, (namesBytes env offset len w).Ensures (fun bs _ => bs.length < 2 ^ 63)
      (fun _ => True) (fun _ => True) := by
    intro offset len w
    unfold namesBytes
    extract_lets e₁ pos
    split
    · split
      · trivial
      · refine ensures_within ?_
        unfold Elf.mapRead
        split
        · trivial
        · split
          · trivial
          · exact ensures_mono (ensures_readAt (E := fun _ => True) (F := fun _ => True) trivial)
              (fun _ _ h => h.1 ▸ length_window_lt _ _ _) (fun _ h => h) fun _ h => h
    · split
      · next bs hread =>
        split
        · unfold preadRetry at hread
          split at hread
          · cases hread
          · rw [← Option.some.inj hread]
            exact length_window_lt _ _ _
        · trivial
      · trivial
  unfold Elf.rawTable at h
  cases hfind : findNames env (2 ^ 64 + 1) sarmag ⟨e, []⟩ with
  | ok entry w =>
    have hlt := hbytes entry.1 entry.2 w
    rw [hfind, bind_ok] at h
    cases hread : namesBytes env entry.1 entry.2 w with
    | ok bs w' =>
      rw [hread] at h hlt
      exact Option.some.inj h ▸ hlt
    | err _ _ =>
      rw [hread] at h
      cases h
    | stop _ =>
      rw [hread] at h
      cases h
  | err _ _ =>
    rw [hfind] at h
    cases h
  | stop _ =>
    rw [hfind] at h
    cases h

/-- A reference that fills the field runs on into what follows it. -/
theorem longName_full {digits : List UInt8} (hall : ∀ c ∈ digits, isDigit c) (ht : w.elf.Tabled env)
    {raw : List UInt8} (hraw : w.elf.rawTable env = some raw) :
    ∃ w', longName env (fullHeader (0x2F :: digits)) w = .err .INVALID_ARCHIVE w' := by
  have hmore : ∀ c ∈ digits ++ (List.replicate 32 0x37 ++ [0x30]), isDigit c := by
    have htail : ∀ c ∈ List.replicate 32 0x37 ++ [0x30], isDigit c := by
      intro c hc
      rcases List.mem_append.mp hc with hc | hc
      · obtain rfl := List.eq_of_mem_replicate hc
        decide
      · obtain rfl := List.mem_singleton.mp hc
        decide
    intro c hc
    rcases List.mem_append.mp hc with hc | hc
    · exact hall c hc
    · exact htail c hc
  have hnumber : atol ((fullHeader (0x2F :: digits)).drop 1) = some ((2 ^ 63 - 1 : Nat) : Int) := by
    have hsplit : (fullHeader (0x2F :: digits)).drop 1 =
        digits ++ (List.replicate 32 0x37 ++ [0x30]) ++ 0x20 :: (List.replicate 8 0x20 ++ arfmag) := by
      unfold fullHeader
      rw [List.cons_append, List.drop_succ_cons, List.drop_zero, List.append_assoc, List.append_assoc]
      rfl
    have hlarge : 2 ^ 63 ≤ decimal (digits ++ (List.replicate 32 0x37 ++ [0x30])) :=
      le_trans (by decide) (decimal_le_append digits _)
    rw [hsplit, atol_digits (by simp) hmore (by decide)]
    congr 2
    omega
  have hnames : w.elf.namesTable env = some (nulTerminate raw) := by rw [namesTable_eq, hraw]; rfl
  obtain ⟨w', hw'⟩ := longNames_eq ht hnames
  refine ⟨w', ?_⟩
  unfold longName
  rw [hw', bind_ok, hnumber]
  simp only
  have hout : (nulTerminate raw).length ≤ sizeT ((2 ^ 63 - 1 : Nat) : Int) := by
    have := rawTable_lt hraw
    rw [length_nulTerminate]
    unfold sizeT
    omega
  rw [if_pos hout]

/-- A reference that leaves a blank. -/
theorem longName_eq {hdr digits raw rest : List UInt8} (hfield : window hdr 0 16 = padName (0x2F :: digits))
    (hne : digits ≠ []) (hlen : digits.length ≤ 14) (hall : ∀ c ∈ digits, isDigit c) (ht : w.elf.Tabled env)
    (hraw : w.elf.rawTable env = some raw) (hentry : raw.drop (decimal digits) = name ++ 0x2F :: rest)
    (hslash : 0x2F ∉ name) (hnul : 0 ∉ name) : ∃ w', longName env hdr w = .ok name w' := by
  have hsmall := decimal_lt hall
  have hpow : 10 ^ digits.length ≤ 10 ^ 14 := Nat.pow_le_pow_right (by decide) hlen
  have hnumber : atol (hdr.drop 1) = some ((decimal digits : Nat) : Int) := by
    have hsplit : hdr.drop 1 = digits ++ 0x20 :: (List.replicate (14 - digits.length) 0x20 ++ hdr.drop 16) := by
      have hblanks : List.replicate (15 - digits.length) (0x20 : UInt8) =
          0x20 :: List.replicate (14 - digits.length) 0x20 := by
        rw [← List.replicate_succ]
        congr 1
        omega
      conv_lhs => rw [header_eq hdr, hfield]
      unfold padName
      rw [List.length_cons, Nat.add_sub_add_right 15 1, hblanks]
      simp
    rw [hsplit, atol_digits hne hall (by decide), min_eq_left (by omega)]
  have hnames : w.elf.namesTable env = some (nulTerminate raw) := by rw [namesTable_eq, hraw]; rfl
  obtain ⟨w', hw'⟩ := longNames_eq ht hnames
  refine ⟨w', ?_⟩
  have hsize : sizeT (decimal digits : Nat) = decimal digits := by
    unfold sizeT
    omega
  have hin : decimal digits < raw.length := by
    by_contra hout
    rw [List.drop_eq_nil_of_le (Nat.le_of_not_lt hout)] at hentry
    simp at hentry
  unfold longName
  rw [hw', bind_ok, hnumber]
  simp only
  rw [hsize, if_neg (by rw [length_nulTerminate]; omega), cString_entry hentry hslash hnul]

/-! ## When a name is read -/

theorem getD_field {hdr : List UInt8} {i : Nat} (hi : i < 16) : hdr.getD i 0 = (window hdr 0 16).getD i 0 := by
  rw [List.getD_eq_getElem?_getD, List.getD_eq_getElem?_getD, getElem?_window, if_pos hi, Nat.zero_add]

theorem window_fullHeader (h : field.length = 16) : window (fullHeader field) 0 16 = field := by
  unfold fullHeader
  have := window_between [] field (List.replicate 32 0x37 ++ 0x30 :: (List.replicate 9 0x20 ++ arfmag))
  rwa [h] at this

/-- A member's own name is read if the field gives it. -/
theorem nameRead_of_memberName (hfirst : field.getD 0 0 ≠ 0x2F) (hname : memberName field = name) :
    NameRead env w field name := by
  intro hdr hfield hf
  have hslash : hdr.getD 0 0 ≠ 0x2F := by
    rw [getD_field (by decide), hfield]
    exact hfirst
  refine takeHeader_ok hf ⟨w.setHdr { w.elf.ar.elfArHdr with arRawname := window hdr 0 16 }, ?_⟩
  rw [arNameOf_member hslash, hfield, hname]

/-- And only then. -/
theorem not_nameRead_of_memberName (hlen : field.length = 16) (hfirst : field.getD 0 0 ≠ 0x2F)
    (hname : memberName field ≠ name) : ¬ NameRead env w field name := by
  intro hread
  obtain ⟨w', hok, hn⟩ := hread (fullHeader field) (window_fullHeader hlen) (fullHeader_fine hlen)
  obtain ⟨name', w₁, harName, hn'⟩ := takeHeader_name hok
  rw [arNameOf_member (by rw [getD_field (by decide), window_fullHeader hlen]; exact hfirst),
    window_fullHeader hlen] at harName
  obtain ⟨rfl, -⟩ := Outcome.ok.inj harName
  exact hname (Option.some.inj (hn'.symm.trans hn))

theorem getD_zero_ne (hname : 1 ≤ name.length) (hslash : 0x2F ∉ name) (rest : List UInt8) :
    (name ++ rest).getD 0 0 ≠ 0x2F := by
  cases name with
  | nil => simp at hname
  | cons c name =>
    rintro rfl
    simp at hslash

theorem short_roomy {rest : List UInt8} (hname : 1 ≤ name.length) : Roomy (name ++ 0x2F :: rest) := by
  cases name with
  | nil => simp at hname
  | cons c name => exact .inl (by simp)

theorem length_padName (h : name.length ≤ 16) : (padName name).length = 16 := by
  unfold padName
  rw [List.length_append, List.length_replicate]
  omega

theorem padName_full (h : name.length = 16) : padName name = name := by
  unfold padName
  rw [h, Nat.sub_self, List.replicate_zero, List.append_nil]

/-- A blank is left behind a padded name that is shorter than the field. -/
theorem padded_roomy (h : name.length ≤ 15) : Roomy (padName name) := by
  right
  unfold padName
  rw [List.getD_eq_getElem?_getD, List.getElem?_append_right h, List.getElem?_replicate, if_pos (by omega)]
  rfl

theorem full_not_roomy (h : name.length = 16) (hslash : 0x2F ∉ name.drop 1) (hlast : name.getLast? ≠ some 0x20) :
    ¬ Roomy name := by
  rintro (hmem | hblank)
  · exact hslash hmem
  · rw [List.getLast?_eq_getElem?, h] at hlast
    rw [List.getD_eq_getElem?_getD] at hblank
    cases hget : name[15]? with
    | none =>
      rw [hget] at hblank
      cases hblank
    | some c =>
      rw [hget] at hblank hlast
      exact hlast (congrArg some hblank)

/-- A name in blanks. -/
theorem bsd_iff (hname : 1 ≤ name.length) (hlen : name.length ≤ 16) (hslash : 0x2F ∉ name) (hnul : 0 ∉ name)
    (hlast : name.getLast? ≠ some 0x20) : NameRead env w (padName name) name ↔ Roomy (padName name) := by
  have hfirst : (padName name).getD 0 0 ≠ 0x2F := getD_zero_ne hname hslash _
  rcases Nat.lt_or_ge name.length 16 with hlt | hge
  · have hshort := Nat.le_of_lt_succ hlt
    exact iff_of_true (nameRead_of_memberName hfirst (memberName_padded hslash hnul hlast hshort))
      (padded_roomy hshort)
  · have hfull : name.length = 16 := Nat.le_antisymm hlen hge
    refine iff_of_false (not_nameRead_of_memberName (length_padName hlen) hfirst (memberName_full hslash hfull)) ?_
    rw [padName_full hfull]
    exact full_not_roomy hfull (fun hmem => hslash (List.mem_of_mem_drop hmem)) hlast

/-- A reference to the table. -/
theorem long_iff {digits raw rest : List UInt8} (ht : w.elf.Tabled env) (hne : digits ≠ [])
    (hlen : digits.length ≤ 15) (hall : ∀ c ∈ digits, isDigit c) (hraw : w.elf.rawTable env = some raw)
    (hentry : raw.drop (decimal digits) = name ++ 0x2F :: rest) (hslash : 0x2F ∉ name) (hnul : 0 ∉ name) :
    NameRead env w (padName (0x2F :: digits)) name ↔ Roomy (padName (0x2F :: digits)) := by
  have hlong : ∀ hdr, window hdr 0 16 = padName (0x2F :: digits) → hdr.getD 0 0 = 0x2F ∧ isDigit (hdr.getD 1 0) := by
    intro hdr hfield
    rw [@getD_field hdr 0 (by decide), @getD_field hdr 1 (by decide), hfield]
    obtain ⟨d, ds, rfl⟩ := List.exists_cons_of_ne_nil hne
    exact ⟨rfl, hall d List.mem_cons_self⟩
  have hkeep : ∀ h, (w.setHdr h).elf.Tabled env := fun h => ht.setAr rfl
  have hraw' : ∀ h, (w.setHdr h).elf.rawTable env = some raw := fun h => (rawTable_setAr _).trans hraw
  rcases Nat.lt_or_ge digits.length 15 with hlt | hge
  · have hshort := Nat.le_of_lt_succ hlt
    refine iff_of_true (fun hdr hfield hf => takeHeader_ok hf ?_) (padded_roomy (by rw [List.length_cons]; omega))
    obtain ⟨h0, h1⟩ := hlong hdr hfield
    rw [arNameOf_long h0 h1]
    exact longName_eq hfield hne hshort hall (hkeep _) (hraw' _) hentry hslash hnul
  · have hfull : (0x2F :: digits).length = 16 := by rw [List.length_cons]; omega
    rw [padName_full hfull] at hlong ⊢
    refine iff_of_false (fun hread => ?_) (full_not_roomy hfull ?_ ?_)
    · obtain ⟨w', hok, -⟩ := hread _ (window_fullHeader hfull) (fullHeader_fine hfull)
      obtain ⟨name', w₁, hname, -⟩ := takeHeader_name hok
      obtain ⟨h0, h1⟩ := hlong _ (window_fullHeader hfull)
      rw [arNameOf_long h0 h1] at hname
      obtain ⟨w₂, herr⟩ := longName_full hall (hkeep { w.elf.ar.elfArHdr with
        arRawname := window (fullHeader (0x2F :: digits)) 0 16 }) (hraw' _)
      rw [herr] at hname
      cases hname
    · intro hmem
      have := hall _ hmem
      revert this
      decide
    · intro hblank
      have hmem := List.mem_of_getLast? hblank
      rcases List.mem_cons.mp hmem with h | h
      · revert h
        decide
      · have := hall _ h
        revert this
        decide

/-- A name is read exactly if it does not take all of the field. -/
theorem nameRead_iff_roomy (ht : w.elf.Tabled env) (hform : NameForm (w.elf.rawTable env) field name) :
    NameRead env w field name ↔ Roomy field := by
  cases hform with
  | short hname hlen hslash hnul hfield =>
    exact iff_of_true (nameRead_of_memberName (getD_zero_ne hname hslash _) (memberName_short hslash hnul))
      (short_roomy hname)
  | bsd hname hlen hslash hnul hlast => exact bsd_iff hname hlen hslash hnul hlast
  | long hne hlen hall hraw hentry hslash hnul => exact long_iff ht hne hlen hall hraw hentry hslash hnul

end Forms

/-- In every archive of a run, at every position and whatever was read before, a name is read whatever follows it
exactly if it does not take all of the field. -/
theorem nameRead_iff {env : Env} {ops : List ArOp} {l : Lib} (hrun : runOps (ArOp.step env) Lib.empty ops = .ok l)
    {h : Handle} {e : Elf} (hget : l.get? h = some e) {field name : List UInt8}
    (hform : NameForm (e.rawTable env) field name) (pos : Nat) (us : List Nat) :
    NameRead env ⟨e.setAr { e.ar with offset := pos }, us⟩ field name ↔ Roomy field := by
  have ht : (e.setAr { e.ar with offset := pos }).Tabled env := (run_tabled ops hrun h e hget).setAr rfl
  refine nameRead_iff_roomy ht ?_
  rw [← rawTable_setAr { e.ar with offset := pos }] at hform
  exact hform

/-- An archive with the table entry `a` and a member that refers to it. -/
def oneName : Image := .ofBytes
  (armag ++ rawHeader namesName [0x33] ++ [0x61, 0x2F, 0x0A, 0x0A] ++ rawHeader [0x2F, 0x30] [0x30]) (by decide +kernel)

set_option maxRecDepth 4000 in
theorem nameRead_iff_oneName : ∃ l e, runOps (ArOp.step (plainEnv oneName)) Lib.empty [.memory oneName] = .ok l ∧
    l.get? 0 = some e ∧ NameForm (e.rawTable (plainEnv oneName)) (padName [0x2F, 0x30]) [0x61] ∧
    (NameRead (plainEnv oneName) ⟨e.setAr { e.ar with offset := 72 }, []⟩ (padName [0x2F, 0x30]) [0x61] ↔
      Roomy (padName [0x2F, 0x30])) := by
  have hrun : ∃ l e, runOps (ArOp.step (plainEnv oneName)) Lib.empty [.memory oneName] = .ok l ∧ l.get? 0 = some e ∧
      e.rawTable (plainEnv oneName) = some [0x61, 0x2F, 0x0A] := ⟨_, _, rfl, rfl, by decide +kernel⟩
  obtain ⟨l, e, hops, hget, htable⟩ := hrun
  have hform : NameForm (e.rawTable (plainEnv oneName)) (padName [0x2F, 0x30]) [0x61] :=
    @NameForm.long _ [0x30] _ [] _ (by decide) (by decide) (by decide) htable rfl (by decide) (by decide)
  exact ⟨l, e, hops, hget, hform, nameRead_iff hops hget hform 72 []⟩

def wideName : List UInt8 :=
  [0x61, 0x62, 0x63, 0x64, 0x65, 0x66, 0x67, 0x68, 0x69, 0x6A, 0x6B, 0x6C, 0x6D, 0x6E, 0x6F, 0x70]

def wideNamed : Image := .ofBytes (armag ++ rawHeader wideName [0x30]) (by decide +kernel)

/-- A reference that takes all of the field, with a date behind it. -/
def wideReference : List UInt8 := 0x2F :: List.replicate 15 0x30

/-- An archive with a table and a member with that reference. -/
def wideReferred : Image := .ofBytes
  (armag ++ rawHeader namesName [0x33] ++ [0x61, 0x2F, 0x0A, 0x0A] ++ fullHeader wideReference) (by decide +kernel)

set_option maxRecDepth 4000 in
/-- Of the first name a byte is lost, and with the second the archive is said to be broken. -/
theorem not_nameRead_wide :
    (∃ l e w, runOps (ArOp.step (plainEnv wideNamed)) Lib.empty [.memory wideNamed] = .ok l ∧ l.get? 0 = some e ∧
      NameForm (e.rawTable (plainEnv wideNamed)) wideName wideName ∧
      nextArhdr (plainEnv wideNamed) ⟨e, []⟩ = .ok () w ∧ w.elf.ar.elfArHdr.arName = some (wideName.take 15)) ∧
    ∃ l e w, runOps (ArOp.step (plainEnv wideReferred)) Lib.empty [.memory wideReferred] = .ok l ∧
      l.get? 0 = some e ∧ NameForm (e.rawTable (plainEnv wideReferred)) wideReference [0x61] ∧
      nextArhdr (plainEnv wideReferred) ⟨e.setAr { e.ar with offset := 72 }, []⟩ = .err .INVALID_ARCHIVE w := by
  constructor
  · have hrun : ∃ l e, runOps (ArOp.step (plainEnv wideNamed)) Lib.empty [.memory wideNamed] = .ok l ∧
        l.get? 0 = some e ∧ (nextArhdr (plainEnv wideNamed) ⟨e, []⟩).returns (fun _ w =>
          decide (w.elf.ar.elfArHdr.arName = some (wideName.take 15))) = true := ⟨_, _, rfl, rfl, by decide +kernel⟩
    obtain ⟨l, e, hops, hget, hreturns⟩ := hrun
    obtain ⟨_, w, hnext, hname⟩ := exists_of_returns hreturns
    have hform := @NameForm.bsd (e.rawTable (plainEnv wideNamed)) wideName (by decide) (by decide) (by decide)
      (by decide) (by decide)
    rw [padName_full rfl] at hform
    exact ⟨l, e, w, hops, hget, hform, hnext, of_decide_eq_true hname⟩
  · have hrun : ∃ l e, runOps (ArOp.step (plainEnv wideReferred)) Lib.empty [.memory wideReferred] = .ok l ∧
        l.get? 0 = some e ∧ e.rawTable (plainEnv wideReferred) = some [0x61, 0x2F, 0x0A] ∧
        (nextArhdr (plainEnv wideReferred) ⟨e.setAr { e.ar with offset := 72 }, []⟩).fails
          (fun c _ => decide (c = .INVALID_ARCHIVE)) = true := ⟨_, _, rfl, rfl, by decide +kernel, by decide +kernel⟩
    obtain ⟨l, e, hops, hget, htable, hfails⟩ := hrun
    obtain ⟨c, w, hnext, hc⟩ := exists_of_fails hfails
    obtain rfl := of_decide_eq_true hc
    have hform : NameForm (e.rawTable (plainEnv wideReferred)) wideReference [0x61] :=
      @NameForm.long _ (List.replicate 15 0x30) _ [] _ (by decide) (by decide) (by decide) htable rfl (by decide)
        (by decide)
    exact ⟨l, e, w, hops, hget, hform, hnext⟩

end LibElf.Elfutils
