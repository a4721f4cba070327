import LibElf.Toolchain.ArchiveOpen

/-!
# The format of an archive

A well-formed archive: the magic string, and members, each with a header, the long name that BSD archives put
before the contents, the contents, and a byte that pads an odd length.

1. `Spells`, a field that holds a number in text, and `arGetNumber_of_spells`.
2. `Member`, `archive`, and `tables`: the tables at the start of an archive and the ordinary members behind them.
3. `MemberAt` and `Row`: members in a block, and what the library reads from their headers.
4. `leadingEnd_archive`: the library skips tables below 4 GiB to the first ordinary member.
-/

namespace LibElf.Toolchain

open Outcome

/-! ## Numbers in text -/

def digit (d : Fin 10) : UInt8 := 0x30 + UInt8.ofNat d.val

/-- The number that digits stand for, after the digits of `r`. -/
def number (r : Nat) (ds : List (Fin 10)) : Nat := ds.foldl (fun r d => r * 10 + d.val) r

/-- A field spells a number: digits with blanks around them. -/
def Spells (field : List UInt8) (n : Nat) : Prop :=
  ∃ (k : Nat) (ds : List (Fin 10)) (k' : Nat), ds ≠ [] ∧ n = number 0 ds ∧
    field = List.replicate k 0x20 ++ ds.map digit ++ List.replicate k' 0x20

namespace Facts

theorem le_number (ds : List (Fin 10)) : ∀ r, r ≤ number r ds := by
  induction ds with
  | nil => exact fun r => Nat.le_refl r
  | cons d ds ih =>
    intro r
    have h := ih (r * 10 + d.val)
    simp only [number, List.foldl_cons] at h ⊢
    omega

theorem number_lt (ds : List (Fin 10)) : ∀ r, number r ds < (r + 1) * 10 ^ ds.length := by
  induction ds with
  | nil => intro r; simp [number]
  | cons d ds ih =>
    intro r
    have h := ih (r * 10 + d.val)
    have hd : r * 10 + d.val + 1 ≤ (r + 1) * 10 := by omega
    calc number r (d :: ds) < (r * 10 + d.val + 1) * 10 ^ ds.length := h
      _ ≤ (r + 1) * 10 * 10 ^ ds.length := Nat.mul_le_mul_right _ hd
      _ = (r + 1) * 10 ^ (d :: ds).length := by rw [List.length_cons, Nat.pow_succ]; ring

theorem digit_facts : ∀ d : Fin 10, digit d ≠ 0x20 ∧ ¬ (digit d < 0x30 ∨ 0x39 < digit d) ∧
    (digit d - 0x30).toNat = d.val := by decide

theorem arDigits_digits (k : Nat) (ds : List (Fin 10)) : ∀ r, number r ds < 2 ^ 64 →
    arDigits 10 (ds.map digit ++ List.replicate k 0x20) r = some (number r ds) := by
  induction ds with
  | nil => intro r _; cases k <;> simp [arDigits, number, List.replicate_succ]
  | cons d ds ih =>
    intro r h
    obtain ⟨hblank, hdigit, hval⟩ := digit_facts d
    have hle : r * 10 + d.val ≤ number r (d :: ds) := le_number ds _
    have hlegal : ¬ (10 ≤ d.val) := by omega
    simp only [List.map_cons, List.cons_append, arDigits, hblank, hdigit, hval, hlegal, if_false]
    rw [wrap_of_lt (by omega : r * 10 < 2 ^ 64), wrap_of_lt (by omega)]
    exact ih _ h

/-- The library reads the number that a field of at most 13 bytes spells. -/
theorem arGetNumber_of_spells {field : List UInt8} {n : Nat} (h : Spells field n) (hlen : field.length ≤ 13) :
    arGetNumber field 10 = some n := by
  obtain ⟨k, ds, k', hds, rfl, rfl⟩ := h
  have hskip : (List.replicate k 0x20 ++ ds.map digit ++ List.replicate k' 0x20).dropWhile
      (fun c => decide (c = 0x20)) = ds.map digit ++ List.replicate k' 0x20 := by
    obtain ⟨d, ds', rfl⟩ := List.exists_cons_of_ne_nil hds
    rw [List.append_assoc, List.dropWhile_append_of_pos (by simp)]
    exact List.dropWhile_cons_of_neg (by simpa using (digit_facts d).1)
  have hshort : ds.length ≤ 13 := by
    simp only [List.length_append, List.length_replicate, List.length_map] at hlen
    omega
  have hlt : number 0 ds < 2 ^ 64 :=
    calc number 0 ds < (0 + 1) * 10 ^ ds.length := number_lt ds 0
      _ ≤ (0 + 1) * 10 ^ 13 := Nat.mul_le_mul_left _ (Nat.pow_le_pow_right (by decide) hshort)
      _ < 2 ^ 64 := by decide
  rw [arGetNumber, hskip]
  exact arDigits_digits k' ds 0 hlt

end Facts

/-! ## Members -/

/-- A member of an archive: the fields of its header, the long name behind the header, and the contents. -/
structure Member where
  name : List UInt8
  attributes : List UInt8
  size : List UInt8
  longName : List UInt8
  contents : List UInt8
  pad : UInt8
  length_name : name.length = 16
  length_attributes : attributes.length = 32
  length_size : size.length = 10
  spells_size : Spells size (longName.length + contents.length)
  spells_name : if name.take 3 = [0x23, 0x31, 0x2F] then Spells (name.drop 3) longName.length else longName = []

namespace Member

/-- The `struct ar_hdr`. -/
def header (m : Member) : List UInt8 := m.name ++ m.attributes ++ m.size ++ [0x60, 0x0A]

/-- What the size in the header counts. -/
def payload (m : Member) : List UInt8 := m.longName ++ m.contents

def bytes (m : Member) : List UInt8 :=
  m.header ++ m.payload ++ if m.payload.length % 2 = 0 then [] else [m.pad]

/-- `/ `, the symbol table of an SVR4 archive. -/
def isSymtab (m : Member) : Bool := decide (m.name.take 2 = [0x2F, 0x20])

/-- `// `, the long names of an SVR4 archive. -/
def isStrtab (m : Member) : Bool := decide (m.name.take 3 = [0x2F, 0x2F, 0x20])

/-- `__.SYMDEF`, the symbol table of a BSD archive. -/
def isSymdef (m : Member) : Bool := decide (m.name.take 9 = [0x5F, 0x5F, 0x2E, 0x53, 0x59, 0x4D, 0x44, 0x45, 0x46])

end Member

def membersBytes (ms : List Member) : List UInt8 := (ms.map Member.bytes).flatten

def archive (ms : List Member) : List UInt8 := armag ++ membersBytes ms

/-- The tables at the start of an archive, and the ordinary members behind them. -/
def tables : List Member → List Member × List Member
  | [] => ([], [])
  | m :: ms =>
    if m.isSymtab then
      match ms with
      | [] => ([m], [])
      | m' :: ms' => if m'.isStrtab then ([m, m'], ms') else ([m], m' :: ms')
    else if m.isStrtab ∨ m.isSymdef then ([m], ms)
    else ([], m :: ms)

def ordinary (ms : List Member) : List Member := (tables ms).2

def start (ms : List Member) : Nat := sarmag + (membersBytes (tables ms).1).length

/-! ## Members in a block -/

namespace Member

variable (m : Member)

theorem length_header : m.header.length = 60 := by
  simp [header, m.length_name, m.length_attributes, m.length_size]

theorem length_bytes : m.bytes.length = 60 + m.payload.length + m.payload.length % 2 := by
  rw [bytes, List.length_append, List.length_append, m.length_header]
  rcases Nat.mod_two_eq_zero_or_one m.payload.length with h | h <;> simp [h]

theorem even_length_bytes : m.bytes.length % 2 = 0 := by
  rw [length_bytes]
  omega

theorem length_pos : 60 ≤ m.bytes.length := by
  rw [length_bytes]
  omega

theorem window_bytes_header : window m.bytes 0 60 = m.header := by
  rw [bytes, List.append_assoc, window_append_left (by rw [m.length_header]), ← m.length_header, window_full]

theorem arSize_header : arSize m.header = m.size := by
  have h := window_between (m.name ++ m.attributes) m.size [0x60, 0x0A]
  rwa [← List.append_assoc, List.length_append, m.length_name, m.length_attributes, m.length_size] at h

theorem arFmag_header : arFmag m.header = [0x60, 0x0A] := by
  have h := window_between (m.name ++ m.attributes ++ m.size) [0x60, 0x0A] []
  rwa [List.append_nil, List.length_append, List.length_append, m.length_name, m.length_attributes, m.length_size] at h

/-- The bytes of the name. -/
theorem window_name {off len : Nat} (h : off + len ≤ 16) : window m.header off len = window m.name off len := by
  rw [header, List.append_assoc, List.append_assoc, window_append_left (by rw [m.length_name]; exact h)]

theorem isExtendedBsdName_header : isExtendedBsdName m.header = decide (m.name.take 3 = [0x23, 0x31, 0x2F]) := by
  rw [isExtendedBsdName, m.window_name (by decide)]
  rfl

end Member

/-- A member stands at an offset. -/
structure MemberAt (b : Block) (k : Nat) (m : Member) : Prop where
  inside : k + m.bytes.length ≤ b.bytes.length
  bytes : window b.bytes k m.bytes.length = m.bytes

section Members

variable {b : Block} {k : Nat} {m : Member}

theorem MemberAt.has (h : MemberAt b k m) : b.Has (b.addr + k) m.bytes.length :=
  ⟨Nat.le_add_right _ _, by have := h.inside; omega⟩

theorem MemberAt.region (h : MemberAt b k m) : b.region (b.addr + k) m.bytes.length = m.bytes := by
  rw [Block.region, Nat.add_sub_cancel_left, h.bytes]

theorem MemberAt.load_header (h : MemberAt b k m) {σ : Type} {s : σ} : b.load (b.addr + k) arHdrSize s = .ok m.header s := by
  have hle : 0 + 60 ≤ m.bytes.length := by
    rw [Nat.zero_add]
    exact m.length_pos
  have hload : b.load (b.addr + k + 0) 60 s = _ := h.has.load hle
  rwa [h.region, m.window_bytes_header] at hload

/-- Where the contents are. -/
theorem MemberAt.contents (h : MemberAt b k m) :
    b.Has (b.addr + k + (60 + m.longName.length)) m.contents.length ∧
      b.region (b.addr + k + (60 + m.longName.length)) m.contents.length = m.contents := by
  have hlen := m.length_bytes
  have hin := h.inside
  simp only [Member.payload, List.length_append] at hlen
  refine ⟨⟨by omega, by omega⟩, ?_⟩
  have hbytes := h.bytes
  have hpay := window_between (m.header ++ m.longName) m.contents
    (if m.payload.length % 2 = 0 then [] else [m.pad])
  have hwin := @window_window b.bytes k m.bytes.length (60 + m.longName.length) m.contents.length (by omega)
  rw [hbytes] at hwin
  rw [Block.region, show b.addr + k + (60 + m.longName.length) - b.addr = k + (60 + m.longName.length) by omega, ← hwin,
    Member.bytes, Member.payload]
  simpa [m.length_header, Member.payload] using hpay

/-- What the library reads from the header. -/
theorem MemberAt.memberRange (h : MemberAt b k m) :
    memberRange (b.addr + k) m.header = some (b.addr + k + (60 + m.longName.length), m.contents.length) := by
  have hlen := m.length_bytes
  have hin := h.inside
  have hfits := b.fits
  simp only [Member.payload, List.length_append] at hlen
  have hsize : arGetNumber (arSize m.header) 10 = some (m.longName.length + m.contents.length) := by
    rw [m.arSize_header]
    exact Facts.arGetNumber_of_spells m.spells_size (by rw [m.length_size]; decide)
  have hname := m.spells_name
  rw [Toolchain.memberRange, hsize]
  simp only [m.isExtendedBsdName_header]
  split at hname
  · next hext =>
    have hlong : arGetNumber (window m.header 3 13) 10 = some m.longName.length := by
      rw [m.window_name (by decide), window, List.take_of_length_le (by simp [m.length_name])]
      exact Facts.arGetNumber_of_spells hname (by simp [m.length_name])
    rw [if_pos (by simpa using hext), hlong]
    simp only [wrap, arHdrSize, Option.some.injEq, Prod.mk.injEq]
    omega
  · next hext =>
    have hzero : m.longName.length = 0 := by rw [hname]; rfl
    rw [if_neg (by simpa using hext)]
    simp only [wrap, arHdrSize, Option.some.injEq, Prod.mk.injEq]
    omega

end Members

/-- Members in a row, up to the end of the block. -/
def Row (b : Block) (k : Nat) (ms : List Member) : Prop :=
  k ≤ b.bytes.length ∧ window b.bytes k (b.bytes.length - k) = membersBytes ms

section Row

variable {b : Block}

theorem Row.length {k : Nat} {ms : List Member} (h : Row b k ms) : k + (membersBytes ms).length = b.bytes.length := by
  rw [← h.2, length_window (Nat.le_of_eq (Nat.add_sub_cancel' h.1)), Nat.add_sub_cancel' h.1]

theorem Row.nil {k : Nat} (h : Row b k []) : k = b.bytes.length := h.length

theorem Row.cons {k : Nat} {m : Member} {ms : List Member} (h : Row b k (m :: ms)) :
    MemberAt b k m ∧ Row b (k + m.bytes.length) ms := by
  have hlen := h.length
  have hsum : (membersBytes (m :: ms)).length = m.bytes.length + (membersBytes ms).length := by simp [membersBytes]
  have hcut : window b.bytes k (b.bytes.length - k) = m.bytes ++ membersBytes ms := h.2
  refine ⟨⟨by omega, ?_⟩, by omega, ?_⟩
  · have hw := @window_window b.bytes k (b.bytes.length - k) 0 m.bytes.length (by omega)
    rw [hcut, window_append_left (by omega), window_full] at hw
    exact hw.symm
  · have hw := @window_window b.bytes k (b.bytes.length - k) m.bytes.length (membersBytes ms).length (by omega)
    have hr := window_append_right m.bytes (membersBytes ms) 0 (membersBytes ms).length
    rw [Nat.add_zero, window_full] at hr
    rw [hcut, hr] at hw
    rw [show b.bytes.length - (k + m.bytes.length) = (membersBytes ms).length by omega]
    exact hw.symm

/-- Members in front of others leave these in a row. -/
theorem Row.drop (ts : List Member) : ∀ {ms : List Member} {k : Nat}, Row b k (ts ++ ms) →
    Row b (k + (membersBytes ts).length) ms := by
  induction ts with
  | nil => exact fun h => h
  | cons t ts ih =>
    intro ms k h
    have h' := ih h.cons.2
    rwa [Nat.add_assoc, ← List.length_append] at h'

end Row

/-! ## The ordinary members -/

section Archives

variable {b : Block} {ms : List Member}

theorem archive_head (hb : b.bytes = archive ms) :
    sarmag ≤ b.bytes.length ∧ window b.bytes 0 8 = armag ∧ b.bytes ≠ [] := by
  have hlen : sarmag ≤ b.bytes.length := by
    rw [hb, archive, List.length_append]
    exact Nat.le_add_right _ _
  refine ⟨hlen, ?_, ?_⟩
  · rw [hb, archive]
    exact window_append_left (r := membersBytes ms) (Nat.le_refl 8)
  · intro hnil
    rw [hnil] at hlen
    exact absurd hlen (by decide)

theorem tables_append (ms : List Member) : (tables ms).1 ++ ordinary ms = ms := by
  rw [ordinary]
  fun_cases tables ms <;> simp_all

theorem row_all (hb : b.bytes = archive ms) : Row b sarmag ms := by
  refine ⟨(archive_head hb).1, ?_⟩
  have hright := window_append_right armag (membersBytes ms) 0 (membersBytes ms).length
  rw [window_full] at hright
  rw [hb, archive, List.length_append, show armag.length = sarmag from rfl, Nat.add_sub_cancel_left]
  exact hright

/-- The ordinary members are in a row. -/
theorem row_ordinary (hb : b.bytes = archive ms) : Row b (start ms) (ordinary ms) := by
  have hall := row_all hb
  rw [← tables_append ms] at hall
  exact hall.drop

theorem headerAt_of_member {k : Nat} {m : Member} (h : MemberAt b k m) :
    headerAt b.bytes k = some (m.header, m.payload.length) := by
  have hin := h.inside
  have hpos := m.length_pos
  have hwin : window b.bytes k arHdrSize = m.header := by
    have hw := @window_window b.bytes k m.bytes.length 0 60 (by omega)
    rw [h.bytes, m.window_bytes_header] at hw
    exact hw.symm
  have hsize : arGetNumber (arSize m.header) 10 = some m.payload.length := by
    rw [m.arSize_header, Member.payload, List.length_append]
    exact Facts.arGetNumber_of_spells m.spells_size (by rw [m.length_size]; decide)
  rw [headerAt]
  simp only [hwin, m.arFmag_header, and_true]
  rw [if_pos (by simp only [arHdrSize]; omega), hsize]
  rfl

/-- A table whose size needs no more than 32 bits is skipped. -/
theorem skip_table {m : Member} (h : m.payload.length + 1 < 2 ^ 32) : arHdrSize + adjustArSize m.payload.length = m.bytes.length := by
  rw [adjustArSize_of_lt h, m.length_bytes]
  simp only [arHdrSize]
  omega

/-- The bytes of the header that tell the tables from the other members. -/
theorem first_bytes (m : Member) : ∃ c₀ c₁ c₂, window m.header 0 1 = [c₀] ∧ window m.header 1 1 = [c₁] ∧
    window m.header 1 2 = [c₁, c₂] ∧ window m.header 0 3 = [c₀, c₁, c₂] ∧ (m.isSymtab = true ↔ c₀ = 0x2F ∧ c₁ = 0x20) ∧
    (m.isStrtab = true ↔ c₀ = 0x2F ∧ c₁ = 0x2F ∧ c₂ = 0x20) ∧ (m.isSymdef = true → c₀ = 0x5F) := by
  have hlen := m.length_name
  obtain ⟨c₀, c₁, c₂, rest, hname⟩ : ∃ c₀ c₁ c₂ rest, m.name = c₀ :: c₁ :: c₂ :: rest := by
    match m.name, hlen with
    | c₀ :: c₁ :: c₂ :: rest, _ => exact ⟨c₀, c₁, c₂, rest, rfl⟩
  refine ⟨c₀, c₁, c₂, ?_, ?_, ?_, ?_, by simp [Member.isSymtab, hname], by simp [Member.isStrtab, hname], ?_⟩
  · rw [m.window_name (by decide), hname]
    rfl
  · rw [m.window_name (by decide), hname]
    rfl
  · rw [m.window_name (by decide), hname]
    rfl
  · rw [m.window_name (by decide), hname]
    rfl
  · intro hdef
    have hd := of_decide_eq_true hdef
    rw [hname] at hd
    simp only [List.take_succ_cons, List.cons.injEq] at hd
    exact hd.1

theorem length_membersBytes_singleton (m : Member) : (membersBytes [m]).length = m.bytes.length := by
  simp [membersBytes]

/-- The tables of an SVR4 archive with a symbol table are skipped. -/
theorem leadingEnd_symtab {m : Member} {ms : List Member} (hall : Row b sarmag (m :: ms)) (hms : ms ≠ [])
    (hsym : m.isSymtab = true) (hne : m.payload.length ≠ 0)
    (hshort : ∀ t ∈ (tables (m :: ms)).1, t.payload.length + 1 < 2 ^ 32) :
    leadingEnd b.bytes = some (start (m :: ms)) := by
  obtain ⟨c₀, c₁, c₂, h₀, h₁, -, -, hiff, -⟩ := first_bytes m
  obtain ⟨rfl, rfl⟩ := hiff.1 hsym
  obtain ⟨m', ms', rfl⟩ := List.exists_cons_of_ne_nil hms
  obtain ⟨c₀', c₁', c₂', -, -, -, h₃, -, hstr', -⟩ := first_bytes m'
  have hm := hall.cons.1
  have hm' := hall.cons.2.cons.1
  have hmem : m ∈ (tables (m :: m' :: ms')).1 := by
    simp only [tables, hsym, if_true]
    split <;> exact List.mem_cons_self
  rw [leadingEnd, headerAt_of_member hm]
  simp only [h₀, h₁, if_true, if_neg hne, Nat.add_assoc sarmag, skip_table (hshort m hmem), headerAt_of_member hm', h₃]
  by_cases hstr : m'.isStrtab = true
  · obtain ⟨rfl, rfl, rfl⟩ := hstr'.1 hstr
    have htab : (tables (m :: m' :: ms')).1 = [m, m'] := by simp [tables, hsym, hstr]
    rw [htab] at hshort
    have hskip' := skip_table (hshort m' (List.mem_cons_of_mem _ List.mem_cons_self))
    rw [if_pos rfl, start, htab, Nat.add_assoc, hskip']
    simp [membersBytes]
  · have htab : (tables (m :: m' :: ms')).1 = [m] := by simp [tables, hsym, hstr]
    have hno : ¬ ([c₀', c₁', c₂'] = ([0x2F, 0x2F, 0x20] : List UInt8)) := fun h => hstr (hstr'.2 (by simpa using h))
    rw [if_neg hno, start, htab, length_membersBytes_singleton]

/-- The tables are skipped where they are not empty and their sizes need no more than 32 bits. -/
theorem leadingEnd_archive (hb : b.bytes = archive ms) (hord : ordinary ms ≠ [])
    (hne : ∀ m ∈ ms.head?, m.payload ≠ []) (hshort : ∀ t ∈ (tables ms).1, t.payload.length + 1 < 2 ^ 32) :
    leadingEnd b.bytes = some (start ms) := by
  have hall := row_all hb
  cases ms with
  | nil => exact absurd rfl hord
  | cons m ms' =>
    have hm := hall.cons.1
    have hpos : m.payload.length ≠ 0 := fun h => hne m rfl (List.length_eq_zero_iff.1 h)
    by_cases hsym : m.isSymtab = true
    · refine leadingEnd_symtab hall ?_ hsym hpos hshort
      rintro rfl
      exact hord (by simp [ordinary, tables, hsym])
    obtain ⟨c₀, c₁, c₂, h₀, h₁, h₂, -, hsym', hstr', hdef'⟩ := first_bytes m
    have hdef : window m.header 0 9 = m.name.take 9 := m.window_name (by decide)
    rw [leadingEnd, headerAt_of_member hm]
    simp only [h₀, h₁, h₂, hdef, Nat.add_assoc sarmag]
    by_cases htable : m.isStrtab = true ∨ m.isSymdef = true
    · have htab : (tables (m :: ms')).1 = [m] := by simp [tables, hsym, htable]
      rw [htab] at hshort
      rw [skip_table (hshort m List.mem_cons_self), start, htab, length_membersBytes_singleton]
      rcases htable with hstr | hsymdef
      · obtain ⟨rfl, rfl, rfl⟩ := hstr'.1 hstr
        rw [if_pos rfl, if_neg hpos, if_neg (by decide), if_pos rfl]
      · obtain rfl := hdef' hsymdef
        rw [if_neg (by decide), if_pos (of_decide_eq_true hsymdef)]
    · have htab : (tables (m :: ms')).1 = [] := by simp [tables, hsym, htable]
      have hstart : start (m :: ms') = sarmag := by rw [start, htab]; rfl
      rw [hstart]
      split
      · next hslash =>
        have hc : c₀ = 0x2F := by simpa using hslash
        rw [if_neg (fun h => hsym (hsym'.2 ⟨hc, by simpa using h⟩)),
          if_neg (fun h => htable (.inl (hstr'.2 ⟨hc, by simpa using h⟩)))]
      · rw [if_neg (fun h => htable (.inr (decide_eq_true h)))]

end Archives

end LibElf.Toolchain
