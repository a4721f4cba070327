import LibElf.Toolchain.HeaderRuns

/-!
# Names and sizes of members

When `elf_getarhdr` returns the name that a member was stored under and the size of its image.

1. `Block.At`, bytes at an address, and what the two loops make of them.
2. `Entry` and `entriesArchive`, a well-formed archive whose names are any 16 bytes; the four formats of a name.
3. One lemma per format for `translatedName`.
4. `strtab_recorded`: the library finds the string table behind tables below 4 GiB.
5. `elfGetarhdr_iff`, for every run, and the failures, which stay.
-/

namespace LibElf.Toolchain

open Outcome

/-! ## Bytes at an address -/

def Block.At (b : Block) : Nat → List UInt8 → Prop
  | _, [] => True
  | p, c :: cs => (b.load p 1 () : Outcome ElfError Unit _) = .ok [c] () ∧ b.At (p + 1) cs

section Bytes

variable {b : Block} {bs cs n : List UInt8} {p N : Nat}

theorem Block.At.append : ∀ {bs : List UInt8} {p : Nat}, b.At p (bs ++ cs) ↔ b.At p bs ∧ b.At (p + bs.length) cs := by
  intro bs
  induction bs with
  | nil => exact fun {p} => ⟨fun h => ⟨trivial, h⟩, fun h => h.2⟩
  | cons c bs ih =>
    intro p
    rw [List.cons_append, Block.At, Block.At, ih, List.length_cons, Nat.add_right_comm p 1, Nat.add_assoc p, and_assoc]

/-- A range of a block has its bytes. -/
theorem Block.Has.at_region {image sz : Nat} (h : b.Has image sz) : ∀ {bs : List UInt8} {off : Nat},
    window (b.region image sz) off bs.length = bs → off + bs.length ≤ sz → b.At (image + off) bs := by
  intro bs
  induction bs with
  | nil => exact fun _ _ => trivial
  | cons c bs ih =>
    intro off hwin hle
    rw [List.length_cons] at hwin hle
    have hsplit := window_append_window (b.region image sz) off 1 bs.length
    rw [Nat.add_comm 1, hwin] at hsplit
    have hone : (window (b.region image sz) off 1).length = 1 := length_window (by rw [h.length]; omega)
    obtain ⟨x, hx⟩ := List.length_eq_one_iff.1 hone
    rw [hx, List.singleton_append] at hsplit
    obtain ⟨rfl, hrest⟩ := List.cons.inj hsplit
    refine ⟨by rw [h.load (by omega), hx], ?_⟩
    rw [Nat.add_assoc]
    exact ih hrest (by omega)

/-- A load of one byte gives one byte. -/
theorem Block.load_one {c : List UInt8} (h : (b.load p 1 () : Outcome ElfError Unit _) = .ok c ()) : ∃ x, c = [x] := by
  rw [Block.load] at h
  split at h
  · cases h
  · rw [readAt] at h
    split at h
    · next hle =>
      obtain ⟨rfl, -⟩ := Outcome.ok.inj h
      exact List.length_eq_one_iff.1 (length_window (hle.resolve_left Nat.one_ne_zero))
    · cases h

/-- The bytes from `p` on and before the first `c`, of `N` bytes at most. -/
def Block.Until (b : Block) (p N : Nat) (c : UInt8) (n : List UInt8) : Prop :=
  c ∉ n ∧ (n.length = N ∧ b.At p n ∨ n.length < N ∧ b.At p (n ++ [c]))

theorem Block.until_zero {c : UInt8} : b.Until p 0 c n ↔ n = [] := by
  constructor
  · rintro ⟨-, ⟨hlen, -⟩ | ⟨hlen, -⟩⟩
    · exact List.length_eq_zero_iff.mp hlen
    · exact absurd hlen (Nat.not_lt_zero _)
  · rintro rfl
    exact ⟨List.not_mem_nil, .inl ⟨rfl, trivial⟩⟩

theorem Block.until_succ {c : UInt8} : b.Until p (N + 1) c n ↔
    n = [] ∧ (b.load p 1 () : Outcome ElfError Unit _) = .ok [c] () ∨
      ∃ x m, n = x :: m ∧ x ≠ c ∧ (b.load p 1 () : Outcome ElfError Unit _) = .ok [x] () ∧ b.Until (p + 1) N c m := by
  cases n with
  | nil =>
    constructor
    · rintro ⟨-, ⟨hlen, -⟩ | ⟨-, hload, -⟩⟩
      · cases hlen
      · exact .inl ⟨rfl, hload⟩
    · rintro (⟨-, hload⟩ | ⟨x, m, hnil, -⟩)
      · exact ⟨List.not_mem_nil, .inr ⟨Nat.succ_pos _, hload, trivial⟩⟩
      · cases hnil
  | cons x m =>
    have hmem : c ∉ x :: m ↔ x ≠ c ∧ c ∉ m := by
      rw [List.mem_cons, not_or]
      exact and_congr_left' ⟨Ne.symm, Ne.symm⟩
    constructor
    · rintro ⟨hc, ⟨hlen, hload, hat⟩ | ⟨hlen, hload, hat⟩⟩
      · exact .inr ⟨x, m, rfl, (hmem.mp hc).1, hload, (hmem.mp hc).2, .inl ⟨Nat.succ.inj hlen, hat⟩⟩
      · exact .inr ⟨x, m, rfl, (hmem.mp hc).1, hload, (hmem.mp hc).2, .inr ⟨Nat.lt_of_succ_lt_succ hlen, hat⟩⟩
    · rintro (⟨hnil, -⟩ | ⟨x', m', heq, hx, hload, hm, htail⟩)
      · cases hnil
      · obtain ⟨rfl, rfl⟩ := List.cons.inj heq
        refine ⟨hmem.mpr ⟨hx, hm⟩, htail.imp ?_ ?_⟩
        · exact fun h => ⟨congrArg Nat.succ h.1, hload, h.2⟩
        · exact fun h => ⟨Nat.succ_lt_succ h.1, hload, h.2⟩

/-- What `strncpy` copies. -/
theorem Block.strncpy_eq_ok : ∀ {N p : Nat} {n : List UInt8},
    (b.strncpy p N () : Outcome ElfError Unit _) = .ok n () ↔ b.Until p N 0 n := by
  intro N
  induction N with
  | zero =>
    intro p n
    rw [Block.until_zero, Block.strncpy]
    exact ⟨fun h => (Outcome.ok.inj h).1.symm, fun h => by rw [h]⟩
  | succ N ih =>
    intro p n
    rw [Block.until_succ, Block.strncpy, bind_eq_ok]
    constructor
    · rintro ⟨c, ⟨⟩, hload, hrest⟩
      obtain ⟨x, rfl⟩ := Block.load_one hload
      split at hrest
      · next hx =>
        obtain ⟨rfl, -⟩ := Outcome.ok.inj hrest
        exact .inl ⟨rfl, by rw [hload, hx]⟩
      · next hx =>
        obtain ⟨m, ⟨⟩, hcopy, hok⟩ := bind_eq_ok.mp hrest
        obtain ⟨rfl, -⟩ := Outcome.ok.inj hok
        exact .inr ⟨x, m, rfl, fun hzero => hx (by rw [hzero]), hload, ih.mp hcopy⟩
    · rintro (⟨rfl, hload⟩ | ⟨x, m, rfl, hx, hload, hm⟩)
      · exact ⟨[0], (), hload, if_pos rfl⟩
      · refine ⟨[x], (), hload, ?_⟩
        rw [if_neg fun h => hx (List.cons.inj h).1, ih.mpr hm]
        rfl

/-- What `toSlash` counts. -/
theorem Block.toSlash_eq_ok : ∀ {N p k : Nat},
    (b.toSlash p N () : Outcome ElfError Unit _) = .ok k () ↔ ∃ n, n.length = k ∧ b.Until p N 0x2F n := by
  intro N
  induction N with
  | zero =>
    intro p k
    rw [Block.toSlash]
    constructor
    · intro h
      obtain ⟨rfl, -⟩ := Outcome.ok.inj h
      exact ⟨[], rfl, Block.until_zero.mpr rfl⟩
    · rintro ⟨n, rfl, hn⟩
      rw [Block.until_zero.mp hn]
      rfl
  | succ N ih =>
    intro p k
    rw [Block.toSlash, bind_eq_ok]
    constructor
    · rintro ⟨c, ⟨⟩, hload, hrest⟩
      obtain ⟨x, rfl⟩ := Block.load_one hload
      split at hrest
      · next hx =>
        obtain ⟨rfl, -⟩ := Outcome.ok.inj hrest
        exact ⟨[], rfl, Block.until_succ.mpr (.inl ⟨rfl, by rw [hload, hx]⟩)⟩
      · next hx =>
        obtain ⟨j, ⟨⟩, hscan, hok⟩ := bind_eq_ok.mp hrest
        obtain ⟨rfl, -⟩ := Outcome.ok.inj hok
        obtain ⟨n, rfl, hn⟩ := ih.mp hscan
        exact ⟨x :: n, rfl, Block.until_succ.mpr (.inr ⟨x, n, rfl, fun hs => hx (by rw [hs]), hload, hn⟩)⟩
    · rintro ⟨n, rfl, hn⟩
      rcases Block.until_succ.mp hn with ⟨rfl, hload⟩ | ⟨x, m, rfl, hx, hload, hm⟩
      · exact ⟨[0x2F], (), hload, if_pos rfl⟩
      · refine ⟨[x], (), hload, ?_⟩
        rw [if_neg fun h => hx (List.cons.inj h).1, ih.mpr ⟨m, rfl, hm⟩]
        rfl

end Bytes

/-! ## Archives -/

/-- A field of digits and blanks. -/
def Numeric (field : List UInt8) : Prop := ∀ c ∈ field, c = 0x20 ∨ (0x30 ≤ c ∧ c ≤ 0x39)

instance (field : List UInt8) : Decidable (Numeric field) := List.decidableBAll _ field

/-- A member of an archive, with any name: the fields of its header, what the size counts, and the byte that pads an
odd size. -/
structure Entry where
  name : List UInt8
  date : List UInt8
  uid : List UInt8
  gid : List UInt8
  mode : List UInt8
  size : List UInt8
  payload : List UInt8
  pad : UInt8
  length_name : name.length = 16
  length_date : date.length = 12
  length_uid : uid.length = 6
  length_gid : gid.length = 6
  length_mode : mode.length = 8
  length_size : size.length = 10
  numeric_uid : Numeric uid
  numeric_gid : Numeric gid
  numeric_mode : Numeric mode
  spells_size : Spells size payload.length

namespace Entry

variable (m : Entry)

/-- The `struct ar_hdr`. -/
def header : List UInt8 := m.name ++ (m.date ++ (m.uid ++ (m.gid ++ (m.mode ++ (m.size ++ [0x60, 0x0A])))))

def bytes : List UInt8 := m.header ++ m.payload ++ if m.payload.length % 2 = 0 then [] else [m.pad]

end Entry

def entriesBytes (es : List Entry) : List UInt8 := (es.map Entry.bytes).flatten

def entriesArchive (es : List Entry) : List UInt8 := armag ++ entriesBytes es

/-- The string table: the first member, or the one behind the symbol table. -/
def strtabOf : List Entry → List UInt8
  | m :: m' :: _ =>
    if m.name.take 3 = [0x2F, 0x2F, 0x20] then m.payload
    else if m.name.take 2 = [0x2F, 0x20] ∧ m'.name.take 3 = [0x2F, 0x2F, 0x20] then m'.payload
    else []
  | [m] => if m.name.take 3 = [0x2F, 0x2F, 0x20] then m.payload else []
  | [] => []

/-- The image of a descriptor is this archive. -/
structure HoldsArchive (d : Desc) (es : List Entry) : Prop where
  has : d.eBlock.Has d.eRawfile d.eRawsize
  image : d.eBlock.region d.eRawfile d.eRawsize = entriesArchive es

/-! ## The four formats -/

/-- Digits, with blanks behind them, for a number. -/
def Decimal (field : List UInt8) (N : Nat) : Prop :=
  ∃ (ds : List (Fin 10)) (k : Nat), ds ≠ [] ∧ N = number 0 ds ∧ field = ds.map digit ++ List.replicate k 0x20

/-- An SVR4 name: `n`, a `/` and blanks. -/
structure Svr4Short (name n : List UInt8) : Prop where
  ne_nil : n ≠ []
  length : n.length ≤ 15
  slash : 0x2F ∉ n
  name : name = n ++ 0x2F :: List.replicate (15 - n.length) 0x20

/-- An SVR4 reference `/N` to the entry `n` of the string table `T`. -/
structure Svr4Reference (T name : List UInt8) (N : Nat) (n : List UInt8) : Prop where
  name : ∃ rest, name = 0x2F :: rest ∧ Decimal rest N
  slash : 0x2F ∉ n
  entry : ∃ rest, T.drop N = n ++ 0x2F :: rest

/-- A BSD name: `n` and blanks. -/
structure BsdShort (name n : List UInt8) : Prop where
  ne_nil : n ≠ []
  length : n.length ≤ 16
  blank : 0x20 ∉ n
  slash : n.getLast? ≠ some 0x2F
  name : name = n ++ List.replicate (16 - n.length) 0x20

/-- An extended BSD name `#1/N`: the `N` bytes behind the header are `n` and NULs. -/
structure BsdExtended (payload name : List UInt8) (N : Nat) (n : List UInt8) : Prop where
  name : ∃ rest, name = [0x23, 0x31, 0x2F] ++ rest ∧ Decimal rest N
  fits : N ≤ payload.length
  stored : ∃ k, payload.take N = n ++ List.replicate k 0

/-! ## Headers of entries -/

namespace Entry

variable (m : Entry)

theorem length_header : m.header.length = 60 := by
  simp [header, m.length_name, m.length_date, m.length_uid, m.length_gid, m.length_mode, m.length_size]

theorem length_bytes : m.bytes.length = 60 + m.payload.length + m.payload.length % 2 := by
  rw [bytes, List.length_append, List.length_append, m.length_header]
  rcases Nat.mod_two_eq_zero_or_one m.payload.length with h | h <;> simp [h]

theorem arName_header : arName m.header = m.name := by
  have h := window_between [] m.name (m.date ++ (m.uid ++ (m.gid ++ (m.mode ++ (m.size ++ [0x60, 0x0A])))))
  rwa [List.length_nil, m.length_name] at h

theorem arUid_header : arUid m.header = m.uid := by
  have h := window_between (m.name ++ m.date) m.uid (m.gid ++ (m.mode ++ (m.size ++ [0x60, 0x0A])))
  rwa [List.append_assoc, List.length_append, m.length_name, m.length_date, m.length_uid] at h

theorem arGid_header : arGid m.header = m.gid := by
  have h := window_between (m.name ++ (m.date ++ m.uid)) m.gid (m.mode ++ (m.size ++ [0x60, 0x0A]))
  rwa [List.append_assoc, List.append_assoc, List.length_append, List.length_append, m.length_name, m.length_date,
    m.length_uid, m.length_gid] at h

theorem arMode_header : arMode m.header = m.mode := by
  have h := window_between (m.name ++ (m.date ++ (m.uid ++ m.gid))) m.mode (m.size ++ [0x60, 0x0A])
  rwa [List.append_assoc, List.append_assoc, List.append_assoc, List.length_append, List.length_append,
    List.length_append, m.length_name, m.length_date, m.length_uid, m.length_gid, m.length_mode] at h

theorem arSize_header : arSize m.header = m.size := by
  have h := window_between (m.name ++ (m.date ++ (m.uid ++ (m.gid ++ m.mode)))) m.size [0x60, 0x0A]
  rwa [List.append_assoc, List.append_assoc, List.append_assoc, List.append_assoc, List.length_append,
    List.length_append, List.length_append, List.length_append, m.length_name, m.length_date, m.length_uid,
    m.length_gid, m.length_mode, m.length_size] at h

theorem arFmag_header : arFmag m.header = [0x60, 0x0A] := by
  have h := window_between (m.name ++ (m.date ++ (m.uid ++ (m.gid ++ (m.mode ++ m.size))))) [0x60, 0x0A] []
  rwa [List.append_nil, List.append_assoc, List.append_assoc, List.append_assoc, List.append_assoc, List.append_assoc,
    List.length_append, List.length_append, List.length_append, List.length_append, List.length_append, m.length_name,
    m.length_date, m.length_uid, m.length_gid, m.length_mode, m.length_size] at h

/-- The bytes of the name. -/
theorem window_name {off len : Nat} (h : off + len ≤ 16) : window m.header off len = window m.name off len :=
  window_append_left (by rw [m.length_name]; exact h)

end Entry

/-- A field of digits and blanks is read as a number. -/
theorem arGetNumber_numeric {field : List UInt8} (h : Numeric field) (base : Nat) : (arGetNumber field base).isSome := by
  have hdigits : ∀ (cs : List UInt8) (r : Nat), Numeric cs → (arDigits base cs r).isSome := by
    intro cs
    induction cs with
    | nil => exact fun _ _ => rfl
    | cons c cs ih =>
      intro r hcs
      rw [arDigits]
      split
      · rfl
      · next hblank =>
        have hc := (hcs c List.mem_cons_self).resolve_left hblank
        have hdigit : ¬ (c < 0x30 ∨ 0x39 < c) := by
          rintro (hlt | hgt)
          · exact absurd hc.1 (UInt8.not_le.mpr hlt)
          · exact absurd hc.2 (UInt8.not_le.mpr hgt)
        rw [if_neg hdigit]
        simp only
        split
        · rfl
        · exact ih _ fun x hx => hcs x (List.mem_cons_of_mem _ hx)
  exact hdigits _ 0 fun c hc => h c (List.dropWhile_sublist _ |>.mem hc)

/-- The number of a decimal field. -/
theorem arGetNumber_decimal {field : List UInt8} {N : Nat} (h : Decimal field N) (hlen : field.length ≤ 15) :
    arGetNumber field 10 = some N := by
  obtain ⟨ds, k, hds, rfl, rfl⟩ := h
  have hskip : (ds.map digit ++ List.replicate k 0x20).dropWhile (fun c => decide (c = 0x20)) =
      ds.map digit ++ List.replicate k 0x20 := by
    obtain ⟨d, ds', rfl⟩ := List.exists_cons_of_ne_nil hds
    exact List.dropWhile_cons_of_neg (by simpa using (Facts.digit_facts d).1)
  rw [List.length_append, List.length_map] at hlen
  have hlt : number 0 ds < 2 ^ 64 :=
    calc number 0 ds < (0 + 1) * 10 ^ ds.length := Facts.number_lt ds 0
      _ ≤ (0 + 1) * 10 ^ 15 := Nat.mul_le_mul_left _ (Nat.pow_le_pow_right (by decide) (by omega))
      _ < 2 ^ 64 := by decide
  rw [arGetNumber, hskip]
  exact Facts.arDigits_digits k ds 0 hlt

/-- The first character of a decimal field. -/
theorem Decimal.head {field : List UInt8} {N : Nat} (h : Decimal field N) :
    ∃ c rest, field = c :: rest ∧ 0x30 ≤ c ∧ c ≤ 0x39 := by
  obtain ⟨ds, k, hds, -, rfl⟩ := h
  obtain ⟨d, ds', rfl⟩ := List.exists_cons_of_ne_nil hds
  have hdigit : ∀ d : Fin 10, 0x30 ≤ digit d ∧ digit d ≤ 0x39 := by decide
  exact ⟨digit d, _, rfl, hdigit d⟩

/-! ## Normal names -/

/-- The blanks behind a name that does not end in one. -/
theorem rdropWhile_blanks {n : List UInt8} (h : n.getLast? ≠ some 0x20) (k : Nat) :
    (n ++ List.replicate k 0x20).rdropWhile (fun c => decide (c = 0x20)) = n := by
  induction k with
  | zero =>
    rw [List.replicate_zero, List.append_nil, List.rdropWhile_eq_self_iff]
    intro hne hblank
    rw [List.getLast?_eq_some_getLast hne] at h
    exact h (congrArg some (of_decide_eq_true hblank))
  | succ k ih =>
    rw [List.replicate_succ', ← List.append_assoc, List.rdropWhile_concat_pos _ _ _ (by decide)]
    exact ih

theorem normalName_svr4 {name n : List UInt8} (h : Svr4Short name n) : normalName name = n.takeWhile (· ≠ 0) := by
  have hsplit : name = (n ++ [0x2F]) ++ List.replicate (15 - n.length) 0x20 := by
    rw [h.name, List.append_assoc]
    rfl
  have hlast : (n ++ [0x2F]).getLast? = some (0x2F : UInt8) := List.getLast?_concat
  have hpos := List.length_pos_of_ne_nil h.ne_nil
  have hlong : 2 < (n ++ [0x2F]).length ∨ (n ++ [0x2F]).length = 2 ∧ (n ++ [0x2F]).head? ≠ some 0x2F := by
    rw [List.length_append, List.length_singleton]
    rcases Nat.lt_or_ge 1 n.length with hlt | hge
    · exact .inl (by omega)
    · refine .inr ⟨by omega, fun hhead => h.slash ?_⟩
      obtain ⟨c, rest, rfl⟩ := List.exists_cons_of_ne_nil h.ne_nil
      obtain rfl : c = 0x2F := Option.some.inj hhead
      exact List.mem_cons_self
  rw [normalName, hsplit, rdropWhile_blanks (by rw [hlast]; decide)]
  simp only [hlast, true_and]
  rw [if_pos hlong, List.dropLast_concat]

theorem normalName_bsd {name n : List UInt8} (h : BsdShort name n) : normalName name = n.takeWhile (· ≠ 0) := by
  have hlast : n.getLast? ≠ some 0x20 := fun hlast => h.blank (List.mem_of_getLast? hlast)
  rw [normalName, h.name, rdropWhile_blanks hlast]
  simp only [h.slash, false_and, if_false]

/-- The bytes before the first NUL are all of the name only if it has none. -/
theorem takeWhile_eq_self_iff_nul {n : List UInt8} : n.takeWhile (· ≠ 0) = n ↔ 0 ∉ n := by
  rw [List.takeWhile_eq_self_iff]
  constructor
  · exact fun h hmem => absurd rfl (of_decide_eq_true (h 0 hmem))
  · exact fun h c hc => decide_eq_true fun hzero => h (hzero ▸ hc)

/-! ## Translated names -/

/-- The entry at `N` of the string table that the archive has on record, up to its `/` or the end of the table, and up
to a NUL. -/
def RefersTo (b : Block) (a : Ar) (N : Nat) (n : List UInt8) : Prop :=
  N ≤ a.eRawstrtabsz ∧ ∃ entry, b.Until (a.eRawstrtab + N) (a.eRawstrtabsz - N) 0x2F entry ∧
    b.Until (a.eRawstrtab + N) entry.length 0 n

/-- The member stands at the address `arh`. -/
structure EntryAt (b : Block) (arh : Nat) (m : Entry) : Prop where
  has : b.Has arh m.bytes.length
  bytes : b.region arh m.bytes.length = m.bytes

section Names

variable {b : Block} {a : Ar} {arh N : Nat} {m : Entry} {n T : List UInt8}

theorem EntryAt.load_header (h : EntryAt b arh m) {σ : Type} {s : σ} : b.load arh arHdrSize s = .ok m.header s := by
  have hlen := m.length_bytes
  have hload := @Block.Has.load σ b arh m.bytes.length s h.has 0 60 (by omega)
  rw [h.bytes, Nat.add_zero, Entry.bytes, List.append_assoc, window_append_left (by rw [m.length_header]),
    ← m.length_header, window_full, m.length_header] at hload
  exact hload

/-- The first bytes of what the size counts. -/
theorem EntryAt.payload (h : EntryAt b arh m) (hN : N ≤ m.payload.length) : b.At (arh + 60) (m.payload.take N) := by
  have hlen := m.length_bytes
  have htake : (m.payload.take N).length = N := List.length_take_of_le hN
  refine h.has.at_region ?_ (by rw [htake]; omega)
  have hright := window_append_right m.header (m.payload ++ if m.payload.length % 2 = 0 then [] else [m.pad]) 0 N
  have hleft := @window_append_left m.payload (if m.payload.length % 2 = 0 then [] else [m.pad]) 0 N (by omega)
  rw [h.bytes, htake, Entry.bytes, List.append_assoc]
  rw [m.length_header, hleft] at hright
  exact hright

/-- Two strings at one address. -/
theorem Block.At.take : ∀ {bs cs : List UInt8} {p : Nat}, b.At p bs → b.At p cs → cs.length ≤ bs.length →
    cs = bs.take cs.length := by
  intro bs cs
  induction cs generalizing bs with
  | nil => exact fun _ _ _ => rfl
  | cons c cs ih =>
    intro p hbs hcs hlen
    obtain ⟨x, bs', rfl⟩ := List.exists_cons_of_length_pos (Nat.lt_of_lt_of_le (Nat.succ_pos _) hlen)
    have hx : ([x] : List UInt8) = [c] := (Outcome.ok.inj (hbs.1.symm.trans hcs.1)).1
    obtain rfl := (List.cons.inj hx).1
    rw [List.length_cons, List.take_succ_cons, ← ih hbs.2 hcs.2 (Nat.le_of_succ_le_succ hlen)]

/-- A name that is read from the string table has no slash. -/
theorem RefersTo.slash (h : RefersTo b a N n) : 0x2F ∉ n := by
  obtain ⟨-, entry, ⟨hslash, hentry⟩, -, hname⟩ := h
  have hat : b.At (a.eRawstrtab + N) entry := by
    rcases hentry with ⟨-, hat⟩ | ⟨-, hat⟩
    · exact hat
    · exact (Block.At.append.mp hat).1
  have hatn : b.At (a.eRawstrtab + N) n ∧ n.length ≤ entry.length := by
    rcases hname with ⟨hlen, hn⟩ | ⟨hlen, hn⟩
    · exact ⟨hn, Nat.le_of_eq hlen⟩
    · exact ⟨(Block.At.append.mp hn).1, Nat.le_of_lt hlen⟩
  rw [hat.take hatn.1 hatn.2]
  exact fun hmem => hslash (List.mem_of_mem_take hmem)

/-- A field that is a reference. -/
theorem translatedName_reference (hr : isReference m.name = true) :
    (translatedName b a arh m.header () : Outcome ElfError Unit _) = .ok n () ↔
      ∃ N, arGetNumber (window m.header 1 15) 10 = some N ∧ RefersTo b a N n := by
  rw [translatedName, m.arName_header, if_pos hr]
  cases arGetNumber (window m.header 1 15) 10 with
  | none => exact ⟨nofun, nofun⟩
  | some N =>
    simp only [Option.some.injEq, exists_eq_left']
    by_cases hN : a.eRawstrtabsz < N
    · rw [if_pos hN]
      exact ⟨nofun, fun h => absurd h.1 (Nat.not_le.mpr hN)⟩
    · rw [if_neg hN, bind_eq_ok, RefersTo]
      constructor
      · rintro ⟨k, ⟨⟩, hscan, hcopy⟩
        obtain ⟨entry, rfl, hentry⟩ := Block.toSlash_eq_ok.mp hscan
        exact ⟨Nat.le_of_not_lt hN, entry, hentry, Block.strncpy_eq_ok.mp hcopy⟩
      · rintro ⟨-, entry, hentry, hn⟩
        exact ⟨entry.length, (), Block.toSlash_eq_ok.mpr ⟨entry, rfl, hentry⟩, Block.strncpy_eq_ok.mpr hn⟩

theorem isExtended_header : isExtendedBsdName m.header = true ↔ m.name.take 3 = [0x23, 0x31, 0x2F] := by
  rw [isExtendedBsdName, m.window_name (by decide), decide_eq_true_iff]
  rfl

/-- A field that starts with `#1/`. -/
theorem translatedName_extended (hr : isReference m.name = false) (hx : m.name.take 3 = [0x23, 0x31, 0x2F]) :
    (translatedName b a arh m.header () : Outcome ElfError Unit _) = .ok n () ↔
      ∃ N, arGetNumber (window m.header 3 13) 10 = some N ∧ b.Until (arh + arHdrSize) N 0 n := by
  rw [translatedName, m.arName_header, if_neg (by rw [hr]; decide), if_pos (isExtended_header.mpr hx)]
  cases arGetNumber (window m.header 3 13) 10 with
  | none => exact ⟨nofun, nofun⟩
  | some N =>
    simp only [Option.some.injEq, exists_eq_left']
    exact Block.strncpy_eq_ok

/-- A normal field. -/
theorem translatedName_normal (hr : isReference m.name = false) (hx : m.name.take 3 ≠ [0x23, 0x31, 0x2F]) :
    (translatedName b a arh m.header () : Outcome ElfError Unit _) = .ok (normalName m.name) () := by
  rw [translatedName, m.arName_header, if_neg (by rw [hr]; decide), if_neg fun h => hx (isExtended_header.mp h)]

/-! ## The formats -/

theorem isReference_of_ne {c : UInt8} {rest : List UInt8} (hc : c ≠ 0x2F) : isReference (c :: rest) = false := by
  cases rest with
  | nil => rfl
  | cons d rest => exact decide_eq_false fun h => hc h.1

/-- A normal field is read where the name has no NUL. -/
theorem translatedName_eq_normal (hr : isReference m.name = false) (hx : m.name.take 3 ≠ [0x23, 0x31, 0x2F])
    (hn : normalName m.name = n.takeWhile (· ≠ 0)) :
    (translatedName b a arh m.header () : Outcome ElfError Unit _) = .ok n () ↔ 0 ∉ n := by
  rw [translatedName_normal hr hx, hn, ← takeWhile_eq_self_iff_nul]
  exact ⟨fun h => (Outcome.ok.inj h).1, fun h => by rw [h]⟩

/-- Of the SVR4 names only `#1` looks like an extended BSD name. -/
theorem Svr4Short.take_three (h : Svr4Short m.name n) : m.name.take 3 = [0x23, 0x31, 0x2F] ↔ n = [0x23, 0x31] := by
  have hslash := h.slash
  rw [h.name]
  match n, h.ne_nil with
  | [c], _ => simp
  | [c, d], _ => simp
  | c :: d :: x :: rest, _ =>
    have hx : x ≠ 0x2F := fun hx => hslash (by rw [hx]; simp)
    simp [hx]

/-- An SVR4 name is read unless it is `#1`. -/
theorem translatedName_svr4Short (h : Svr4Short m.name n) :
    (translatedName b a arh m.header () : Outcome ElfError Unit _) = .ok n () ↔ 0 ∉ n ∧ n ≠ [0x23, 0x31] := by
  have hr : isReference m.name = false := by
    obtain ⟨c, rest, rfl⟩ := List.exists_cons_of_ne_nil h.ne_nil
    rw [h.name, List.cons_append]
    exact isReference_of_ne fun hc => h.slash (by rw [hc]; exact List.mem_cons_self)
  by_cases hx : n = [0x23, 0x31]
  · have hblanks : window m.header 3 13 = List.replicate 13 0x20 := by
      rw [m.window_name (by decide), h.name, hx]
      rfl
    have hzero : arGetNumber (List.replicate 13 0x20) 10 = some 0 := by decide
    rw [translatedName_extended hr (h.take_three.mpr hx), hblanks, hzero, hx]
    constructor
    · rintro ⟨N, hN, hcopy⟩
      obtain rfl := Option.some.inj hN
      cases Block.until_zero.mp hcopy
    · exact fun hne => absurd rfl hne.2
  · rw [translatedName_eq_normal hr (fun h3 => hx (h.take_three.mp h3)) (normalName_svr4 h), and_iff_left hx]

/-- A reference is read where the table on record has the entry. -/
theorem translatedName_svr4Reference (h : Svr4Reference T m.name N n) :
    (translatedName b a arh m.header () : Outcome ElfError Unit _) = .ok n () ↔ RefersTo b a N n := by
  obtain ⟨rest, hname, hrest⟩ := h.name
  obtain ⟨c, rest', hhead, hdigit⟩ := hrest.head
  have hr : isReference m.name = true := by
    rw [hname, hhead]
    exact decide_eq_true ⟨rfl, hdigit⟩
  have hlen : rest.length = 15 := by
    have := m.length_name
    rw [hname, List.length_cons] at this
    omega
  have hwin : window m.header 1 15 = rest := by
    rw [m.window_name (by decide), hname, window, List.drop_one, List.tail_cons, List.take_of_length_le (by omega)]
  rw [translatedName_reference hr, hwin, arGetNumber_decimal hrest (by omega)]
  simp only [Option.some.injEq, exists_eq_left']

/-- A BSD name is read unless it looks like a reference or like an extended name; what is read for one that looks like
an extended name may be the name all the same. -/
theorem translatedName_bsdShort (h : BsdShort m.name n) :
    (translatedName b a arh m.header () : Outcome ElfError Unit _) = .ok n () ↔
      0 ∉ n ∧ isReference m.name = false ∧ (m.name.take 3 = [0x23, 0x31, 0x2F] →
        ∃ N, arGetNumber (window m.header 3 13) 10 = some N ∧ b.Until (arh + arHdrSize) N 0 n) := by
  obtain ⟨c, rest, hn⟩ := List.exists_cons_of_ne_nil h.ne_nil
  have hhead : ∃ rest', m.name = c :: rest' := ⟨_, by rw [h.name, hn, List.cons_append]⟩
  obtain ⟨rest', hname⟩ := hhead
  by_cases hr : isReference m.name = true
  · -- what is read has no slash
    refine ⟨fun hrun => ?_, fun hcond => absurd (hr.symm.trans hcond.2.1) (by decide)⟩
    obtain ⟨N, -, href⟩ := (translatedName_reference hr).mp hrun
    have hc : c ≠ 0x2F := fun hc => href.slash (by rw [hn, hc]; exact List.mem_cons_self)
    rw [hname, isReference_of_ne hc] at hr
    cases hr
  · have hr' : isReference m.name = false := Bool.eq_false_iff.mpr hr
    by_cases hx : m.name.take 3 = [0x23, 0x31, 0x2F]
    · rw [translatedName_extended hr' hx]
      exact ⟨fun ⟨N, hN, hcopy⟩ => ⟨hcopy.1, hr', fun _ => ⟨N, hN, hcopy⟩⟩, fun hcond => hcond.2.2 hx⟩
    · rw [translatedName_eq_normal hr' hx (normalName_bsd h)]
      exact ⟨fun hnul => ⟨hnul, hr', fun h3 => absurd h3 hx⟩, fun hcond => hcond.1⟩

/-- An extended BSD name is read. -/
theorem translatedName_bsdExtended (hm : EntryAt b arh m) (h : BsdExtended m.payload m.name N n) :
    (translatedName b a arh m.header () : Outcome ElfError Unit _) = .ok n () ↔ 0 ∉ n := by
  obtain ⟨rest, hname, hrest⟩ := h.name
  obtain ⟨k, hstored⟩ := h.stored
  have hr : isReference m.name = false := by
    rw [hname]
    exact isReference_of_ne (by decide)
  have hx : m.name.take 3 = [0x23, 0x31, 0x2F] := by
    rw [hname]
    rfl
  have hlen : rest.length = 13 := by
    have := m.length_name
    rw [hname, List.length_append] at this
    simp only [List.length_cons, List.length_nil] at this
    omega
  have hwin : window m.header 3 13 = rest := by
    rw [m.window_name (by decide), hname]
    exact List.take_of_length_le (Nat.le_of_eq hlen)
  have hat := hm.payload h.fits
  have hN : n.length + k = N := by
    have := congrArg List.length hstored
    rw [List.length_take_of_le h.fits, List.length_append, List.length_replicate] at this
    exact this.symm
  rw [translatedName_extended hr hx, hwin, arGetNumber_decimal hrest (by omega)]
  simp only [Option.some.injEq, exists_eq_left']
  refine ⟨fun hcopy => hcopy.1, fun hnul => ⟨hnul, ?_⟩⟩
  rw [hstored] at hat
  cases k with
  | zero => exact .inl ⟨hN, (Block.At.append.mp hat).1⟩
  | succ k =>
    rw [List.replicate_succ, ← List.singleton_append, ← List.append_assoc] at hat
    exact .inr ⟨by omega, (Block.At.append.mp hat).1⟩

end Names

/-! ## The string table -/

/-- The symbol table is not empty and below 4 GiB, if there is one. -/
def SymtabFits (es : List Entry) : Prop :=
  ∀ m ∈ es.head?, m.name.take 2 = [0x2F, 0x20] → m.payload ≠ [] ∧ m.payload.length + 1 < 2 ^ 32

section Strtab

variable {d : Desc} {a : Ar} {es pre post : List Entry} {m : Entry} {b : Block}

/-- A member of an archive is at its place in the block. -/
theorem HoldsArchive.entryAt (h : HoldsArchive d (pre ++ m :: post)) :
    EntryAt d.eBlock (d.eRawfile + sarmag + (entriesBytes pre).length) m ∧
      sarmag + (entriesBytes pre).length + m.bytes.length ≤ d.eRawsize := by
  have himage : d.eBlock.region d.eRawfile d.eRawsize = (armag ++ entriesBytes pre) ++ (m.bytes ++ entriesBytes post) := by
    rw [h.image, entriesArchive, List.append_assoc]
    simp [entriesBytes]
  have hsarmag : (armag ++ entriesBytes pre).length = sarmag + (entriesBytes pre).length := List.length_append
  have hlen := congrArg List.length himage
  rw [h.has.length, List.length_append, hsarmag, List.length_append] at hlen
  have hlo := h.has.lo
  have hhi := h.has.hi
  refine ⟨⟨⟨by omega, by omega⟩, ?_⟩, by omega⟩
  have hwin := window_between (armag ++ entriesBytes pre) m.bytes (entriesBytes post)
  have hsub := @window_window d.eBlock.bytes (d.eRawfile - d.eBlock.addr) d.eRawsize (sarmag + (entriesBytes pre).length)
    m.bytes.length (by omega)
  rw [← himage, hsarmag] at hwin
  rw [Block.region] at hwin ⊢
  rw [hwin] at hsub
  have hoff : d.eRawfile + sarmag + (entriesBytes pre).length - d.eBlock.addr =
      d.eRawfile - d.eBlock.addr + (sarmag + (entriesBytes pre).length) := by omega
  rw [hoff]
  exact hsub.symm

/-- The header of a member is read. -/
theorem EntryAt.readArHeader {arh fin : Nat} (h : EntryAt b arh m) (hfin : arh + m.bytes.length ≤ fin)
    (hlt : fin < 2 ^ 64) :
    (readArHeader b arh fin () : Outcome ElfError Unit _) = .ok (m.header, m.payload.length) () := by
  have hlen := m.length_bytes
  have hend : wrap (arh + arHdrSize) = arh + 60 := wrap_of_lt (by unfold arHdrSize; omega)
  have hsize : arGetNumber m.size 10 = some m.payload.length :=
    Facts.arGetNumber_of_spells m.spells_size (by rw [m.length_size]; decide)
  rw [Toolchain.readArHeader, hend, if_neg (by omega), h.load_header, bind_ok, if_neg (not_not.mpr m.arFmag_header),
    m.arSize_header, hsize]

/-- The first bytes of a name. -/
theorem Entry.window_take {k : Nat} {bs : List UInt8} (hk : k ≤ 16) (h : m.name.take k = bs) {off len : Nat}
    (hle : off + len ≤ k) : window m.header off len = window bs off len := by
  rw [m.window_name (by omega), ← h]
  have hfirst := @window_window m.name 0 k off len hle
  rw [Nat.zero_add] at hfirst
  exact hfirst.symm

def TableFound (d : Desc) (T : List UInt8) : Prop :=
  ∃ sp, (arSpecial d.eBlock (wrap (d.eRawfile + sarmag)) (wrap (d.eRawfile + d.eRawsize)) () :
    Outcome ElfError Unit Special) = .ok sp () ∧ d.eBlock.At sp.rawstrtab T ∧ sp.rawstrtabsz = T.length

theorem EntryAt.table {arh : Nat} (h : EntryAt b arh m) : b.At (arh + 60) m.payload := by
  have hall := h.payload (Nat.le_refl _)
  rwa [List.take_length] at hall

/-- The first member is at the start. -/
theorem HoldsArchive.first (h : HoldsArchive d (m :: post)) :
    EntryAt d.eBlock (d.eRawfile + sarmag) m ∧ sarmag + m.bytes.length ≤ d.eRawsize :=
  @HoldsArchive.entryAt d [] post m h

/-- The string table is found where it comes first. -/
theorem tableFound_first (h : HoldsArchive d (m :: post)) (hname : m.name.take 3 = [0x2F, 0x2F, 0x20])
    (hne : m.payload ≠ []) : TableFound d m.payload := by
  obtain ⟨hm, hin⟩ := h.first
  have hhi := h.has.hi
  have hblock := d.eBlock.fits
  have hlen := m.length_bytes
  have hpos := List.length_pos_of_ne_nil hne
  have hfin : wrap (d.eRawfile + d.eRawsize) = d.eRawfile + d.eRawsize := wrap_of_lt (by omega)
  have hp : wrap (d.eRawfile + sarmag) = d.eRawfile + sarmag := wrap_of_lt (by omega)
  have hend : wrap (d.eRawfile + sarmag + arHdrSize) = d.eRawfile + sarmag + 60 :=
    wrap_of_lt (by unfold arHdrSize; omega)
  rw [TableFound, arSpecial, hfin, hp, hm.readArHeader (by omega) (by omega), bind_ok]
  simp only [Entry.window_take (by decide) hname (by decide : 0 + 1 ≤ 3),
    Entry.window_take (by decide) hname (by decide : 1 + 1 ≤ 3), Entry.window_take (by decide) hname (by decide : 1 + 2 ≤ 3)]
  rw [if_pos (by decide), if_neg (by omega), if_neg (by decide), if_pos (by decide), hend]
  exact ⟨_, rfl, hm.table, rfl⟩

/-- The string table is found behind a symbol table. -/
theorem tableFound_second {m' : Entry} (h : HoldsArchive d (m :: m' :: post)) (hname : m.name.take 2 = [0x2F, 0x20])
    (hname' : m'.name.take 3 = [0x2F, 0x2F, 0x20]) (hne : m.payload ≠ []) (hshort : m.payload.length + 1 < 2 ^ 32) :
    TableFound d m'.payload := by
  obtain ⟨hm, hin⟩ := h.first
  obtain ⟨hm', hin'⟩ := @HoldsArchive.entryAt d [m] post m' h
  have hone : (entriesBytes [m]).length = m.bytes.length := by simp [entriesBytes]
  rw [hone] at hm' hin'
  have hhi := h.has.hi
  have hblock := d.eBlock.fits
  have hlen := m.length_bytes
  have hlen' := m'.length_bytes
  have hpos := List.length_pos_of_ne_nil hne
  have hfin : wrap (d.eRawfile + d.eRawsize) = d.eRawfile + d.eRawsize := wrap_of_lt (by omega)
  have hp : wrap (d.eRawfile + sarmag) = d.eRawfile + sarmag := wrap_of_lt (by omega)
  have hend : wrap (d.eRawfile + sarmag + arHdrSize) = d.eRawfile + sarmag + 60 :=
    wrap_of_lt (by unfold arHdrSize; omega)
  have hnext : wrap (d.eRawfile + sarmag + 60 + adjustArSize m.payload.length) = d.eRawfile + sarmag + m.bytes.length := by
    rw [adjustArSize_of_lt hshort, wrap_of_lt (by omega)]
    omega
  have hend' : wrap (d.eRawfile + sarmag + m.bytes.length + arHdrSize) = d.eRawfile + sarmag + m.bytes.length + 60 :=
    wrap_of_lt (by unfold arHdrSize; omega)
  rw [TableFound, arSpecial, hfin, hp, hm.readArHeader (by omega) (by omega), bind_ok]
  simp only [Entry.window_take (by decide) hname (by decide : 0 + 1 ≤ 2),
    Entry.window_take (by decide) hname (by decide : 1 + 1 ≤ 2)]
  rw [if_pos (by decide), if_neg (by omega), if_pos (by decide), hend, hnext, hm'.readArHeader (by omega) (by omega),
    bind_ok]
  simp only [Entry.window_take (by decide) hname' (by decide : 0 + 3 ≤ 3)]
  rw [if_pos (by decide), hend']
  exact ⟨_, rfl, hm'.table, rfl⟩

/-- The library finds the string table. -/
theorem tableFound_strtabOf (h : HoldsArchive d es) (hfits : SymtabFits es) (hT : strtabOf es ≠ []) :
    TableFound d (strtabOf es) := by
  match es, h, hfits, hT with
  | [m], h, _, hT =>
    by_cases hname : m.name.take 3 = [0x2F, 0x2F, 0x20]
    · rw [strtabOf, if_pos hname] at hT ⊢
      exact tableFound_first h hname hT
    · rw [strtabOf, if_neg hname] at hT
      exact absurd rfl hT
  | m :: m' :: post, h, hfits, hT =>
    by_cases hname : m.name.take 3 = [0x2F, 0x2F, 0x20]
    · rw [strtabOf, if_pos hname] at hT ⊢
      exact tableFound_first h hname hT
    · by_cases hsecond : m.name.take 2 = [0x2F, 0x20] ∧ m'.name.take 3 = [0x2F, 0x2F, 0x20]
      · rw [strtabOf, if_neg hname, if_pos hsecond]
        obtain ⟨hne, hshort⟩ := hfits m rfl hsecond.1
        exact tableFound_second h hsecond.1 hsecond.2 hne hshort
      · rw [strtabOf, if_neg hname, if_neg hsecond] at hT
        exact absurd rfl hT

/-- The entries of the string table are those of the table on record. -/
theorem refersTo_of_strtab (h : HoldsArchive d es) (hfits : SymtabFits es) (ha : d.eKind = .ar a)
    (hrec : Recorded d.core) {name n : List UInt8} {N : Nat} (href : Svr4Reference (strtabOf es) name N n)
    (hnul : 0 ∉ n) : RefersTo d.eBlock a N n := by
  obtain ⟨rest, hdrop⟩ := href.entry
  have hle : N + (n ++ 0x2F :: rest).length = (strtabOf es).length := by
    rw [← hdrop, List.length_drop]
    have hne : ((strtabOf es).drop N).length ≠ 0 := by rw [hdrop]; simp
    rw [List.length_drop] at hne
    omega
  rw [List.length_append, List.length_cons] at hle
  have hT : strtabOf es ≠ [] := fun hnil => by
    rw [hnil, List.length_nil] at hle
    omega
  obtain ⟨sp, hsp, hat, hsize⟩ := tableFound_strtabOf h hfits hT
  have htab : (a.eRawstrtab, a.eRawstrtabsz) = (sp.rawstrtab, sp.rawstrtabsz) := by
    refine hrec _ sp ?_ hsp
    show d.strtab = _
    rw [Desc.strtab, Desc.ar?, ha]
    rfl
  have hptr : a.eRawstrtab = sp.rawstrtab := congrArg Prod.fst htab
  have hsz : a.eRawstrtabsz = (strtabOf es).length := (congrArg Prod.snd htab).trans hsize
  have hentry : d.eBlock.At (a.eRawstrtab + N) (n ++ [0x2F]) := by
    rw [← List.take_append_drop N (strtabOf es), hdrop, Block.At.append, List.length_take_of_le (by omega), ← hptr,
      ← List.singleton_append, ← List.append_assoc, Block.At.append] at hat
    exact hat.2.1
  refine ⟨by omega, n, ⟨href.slash, .inr ⟨by omega, hentry⟩⟩, hnul, .inl ⟨rfl, (Block.At.append.mp hentry).1⟩⟩

end Strtab

/-! ## Headers in a run -/

/-- `elf_getarhdr` returns this name, and the size of the image. -/
def Recovered (s : Shelf) (e : Handle) (d : Desc) (n : List UInt8) : Prop :=
  ∃ h t, elfGetarhdr (some e) s = .ok (some h) t ∧ h.arName = n ∧ h.arSize = d.eRawsize

/-- How a call for a header fails: with an error number or without. -/
def failure : ShelfCall (Option Arhdr) → Option (Option ElfError)
  | .ok (some _) _ => none
  | .ok none _ => some none
  | .err c _ => some (some c)
  | .stop _ => none

/-- `e` is open on the member `m` of an archive. -/
structure MemberIn (s : Heap) (e : Handle) (de dp : Desc) (a : Ar) (es : List Entry) (m : Entry) : Prop where
  live : s.Live e de
  parent : ∃ p, de.eParent = some p ∧ s.Live p dp
  kind : dp.eKind = .ar a
  holds : HoldsArchive dp es
  place : ∃ pre post, es = pre ++ m :: post ∧ de.eRawhdr = dp.eRawfile + sarmag + (entriesBytes pre).length

section Headers

variable {s : Shelf} {e : Handle} {de dp : Desc} {a : Ar} {es : List Entry} {m : Entry} {n : List UInt8}

theorem MemberIn.entryAt {s : Heap} (h : MemberIn s e de dp a es m) :
    EntryAt dp.eBlock de.eRawhdr m ∧ headerInside dp de.eRawhdr = true := by
  obtain ⟨pre, post, rfl, hplace⟩ := h.place
  obtain ⟨hm, hin⟩ := h.holds.entryAt
  have hlen := m.length_bytes
  have hhi := h.holds.has.hi
  have hblock := dp.eBlock.fits
  rw [← hplace] at hm
  refine ⟨hm, decide_eq_true ?_⟩
  have hlo : wrap (dp.eRawfile + sarmag) = dp.eRawfile + sarmag := wrap_of_lt (by omega)
  have hfin : wrap (dp.eRawfile + dp.eRawsize) = dp.eRawfile + dp.eRawsize := wrap_of_lt (by omega)
  have hlast : wrap (dp.eRawfile + dp.eRawsize + (2 ^ 64 - arHdrSize)) = dp.eRawfile + dp.eRawsize - 60 := by
    unfold wrap arHdrSize
    omega
  rw [hlo, hfin, hlast, hplace]
  omega

/-- The size without the name is that of the range of the member. -/
theorem arTrueSize_of_memberRange {arh p sz : Nat} {hdr : List UInt8} (h : memberRange arh hdr = some (p, sz)) :
    arTrueSize hdr = some sz := by
  rw [memberRange] at h
  split at h
  · cases h
  · next n hn =>
    rw [arTrueSize, hn]
    simp only
    split at h
    · next hx =>
      rw [if_pos hx]
      cases hlen : arGetNumber (window hdr 3 13) 10 with
      | none =>
        rw [hlen] at h
        cases h
      | some nlen =>
        rw [hlen] at h
        exact congrArg some (congrArg Prod.snd (Option.some.inj h))
    · next hx =>
      rw [if_neg hx]
      exact congrArg some (congrArg Prod.snd (Option.some.inj h))

/-- The name decides whether a header is recovered: its numbers are read, and the size is that of the image. -/
theorem recovered_iff (hs : Shelved s) (h : MemberIn s.heap e de dp a es m) : Recovered s e de n ↔
    (translatedName dp.eBlock a de.eRawhdr m.header () : Outcome ElfError Unit _) = .ok n () := by
  obtain ⟨p, hparent, hlp⟩ := h.parent
  obtain ⟨hm, hinside⟩ := h.entryAt
  obtain ⟨c, hdr, hc, hblock, hload, hrange⟩ := (hs.sourced e ⟨de, 0⟩ h.live).member p hparent
  obtain rfl : c = ⟨dp, 0⟩ := Option.some.inj (hc.symm.trans hlp)
  obtain rfl : m.header = hdr := by
    have hsame : de.eBlock.load de.eRawhdr arHdrSize () = (.ok hdr () : Outcome ElfError Unit _) := hload
    rw [← (show dp.eBlock = de.eBlock from hblock), hm.load_header] at hsame
    exact (Outcome.ok.inj hsame).1
  have hsize : arTrueSize m.header = some de.eRawsize := arTrueSize_of_memberRange hrange
  obtain ⟨uid, huid⟩ := Option.isSome_iff_exists.mp (arGetNumber_numeric m.numeric_uid 10)
  obtain ⟨gid, hgid⟩ := Option.isSome_iff_exists.mp (arGetNumber_numeric m.numeric_gid 10)
  obtain ⟨mode, hmode⟩ := Option.isSome_iff_exists.mp (arGetNumber_numeric m.numeric_mode 8)
  have hnumbers : arNumbers m.header = some (uid % 2 ^ 32, gid % 2 ^ 32, mode % 2 ^ 32, de.eRawsize) := by
    rw [arNumbers, m.arUid_header, m.arGid_header, m.arMode_header, huid, hgid, hmode, hsize]
  have hanswer : answer s.heap e = (translatedName dp.eBlock a de.eRawhdr m.header ()).bind fun name u =>
      .ok (some ⟨name, uid % 2 ^ 32, gid % 2 ^ 32, mode % 2 ^ 32, de.eRawsize, rawName m.header, 0⟩) u := by
    rw [answer_of_parent h.live hparent hlp h.kind, hinside, if_pos rfl, readArhdr, hm.load_header, bind_ok, hnumbers]
  rw [Recovered, elfGetarhdr_answer hs h.live, hanswer]
  cases translatedName dp.eBlock a de.eRawhdr m.header () with
  | ok name u =>
    rw [bind_ok]
    constructor
    · rintro ⟨r, t, hrun, rfl, -⟩
      obtain rfl := Option.some.inj (Outcome.ok.inj hrun).1
      rfl
    · intro hn
      obtain rfl := (Outcome.ok.inj hn).1
      exact ⟨_, _, rfl, rfl, rfl⟩
  | err c u => exact ⟨nofun, nofun⟩
  | stop f => exact ⟨nofun, nofun⟩

/-- A call that fails depends on the answer only. -/
theorem failure_eq (hs : Shelved s) (hl : s.heap.Live e de) : failure (elfGetarhdr (some e) s) =
    match answer s.heap e with
    | .ok (some _) _ => none
    | .ok none _ => some none
    | .err c _ => some (some c)
    | .stop _ => none := by
  rw [elfGetarhdr_answer hs hl]
  rcases answer s.heap e with ⟨_ | r, u⟩ | ⟨c, u⟩ | f <;> rfl

/-- In every run, a name in one of the four formats is returned with the size of the image: an SVR4 name unless it is
`#1`; a reference where the table on record has the entry, which it has if the symbol table is below 4 GiB; a BSD name
unless it looks like a reference or an extended name; an extended name always. A NUL ends a name. And a call that
fails fails again for as long as the member is open. -/
theorem elfGetarhdr_iff {env : Env} {ops : List HdrOp} (hrun : runOps (HdrOp.step env) .empty ops = .ok s)
    (h : MemberIn s.heap e de dp a es m) :
    (∀ n, Svr4Short m.name n → (Recovered s e de n ↔ 0 ∉ n ∧ n ≠ [0x23, 0x31])) ∧
    (∀ N n, Svr4Reference (strtabOf es) m.name N n → (Recovered s e de n ↔ RefersTo dp.eBlock a N n) ∧
      (SymtabFits es → (Recovered s e de n ↔ 0 ∉ n))) ∧
    (∀ n, BsdShort m.name n → (Recovered s e de n ↔ 0 ∉ n ∧ isReference m.name = false ∧
      (m.name.take 3 = [0x23, 0x31, 0x2F] → ∃ N, arGetNumber (window m.header 3 13) 10 = some N ∧
        dp.eBlock.Until (de.eRawhdr + arHdrSize) N 0 n))) ∧
    (∀ N n, BsdExtended m.payload m.name N n → (Recovered s e de n ↔ 0 ∉ n)) ∧
    ∀ f, failure (elfGetarhdr (some e) s) = some f → ∀ ops' t d, runOps (HdrOp.step env) s ops' = .ok t →
      t.heap.Live e d → failure (elfGetarhdr (some e) t) = some f := by
  obtain ⟨hs, -⟩ := shelved_run .empty hrun
  obtain ⟨hm, -⟩ := h.entryAt
  obtain ⟨p, -, hlp⟩ := h.parent
  refine ⟨fun n hn => ?_, fun N n hn => ?_, fun n hn => ?_, fun N n hn => ?_, fun f hf ops' t d hrun' hl' => ?_⟩
  · rw [recovered_iff hs h, translatedName_svr4Short hn]
  · rw [recovered_iff hs h, translatedName_svr4Reference hn]
    refine ⟨Iff.rfl, fun hfits => ⟨fun ⟨_, _, _, hnul⟩ => hnul.1, fun hnul => ?_⟩⟩
    exact refersTo_of_strtab h.holds hfits h.kind (hs.sourced p ⟨dp, 0⟩ hlp).recorded hn hnul
  · rw [recovered_iff hs h, translatedName_bsdShort hn]
  · rw [recovered_iff hs h, translatedName_bsdExtended hm hn]
  · rw [failure_eq (shelved_run hs hrun').1 hl', answer_run hs hrun' h.live hl', ← failure_eq hs h.live]
    exact hf

end Headers

def plainEntry (name : List UInt8) (h : name.length = 16) : Entry :=
  { name
    date := List.replicate 12 0x20
    uid := List.replicate 6 0x20
    gid := List.replicate 6 0x20
    mode := List.replicate 8 0x20
    size := 0x34 :: List.replicate 9 0x20
    payload := [1, 2, 3, 4]
    pad := 0x0A
    length_name := h
    length_date := rfl
    length_uid := rfl
    length_gid := rfl
    length_mode := rfl
    length_size := rfl
    numeric_uid := by decide
    numeric_gid := by decide
    numeric_mode := by decide
    spells_size := ⟨0, [4], 9, by decide, rfl, rfl⟩ }

def svr4Archive (n : List UInt8) (h : (n ++ 0x2F :: List.replicate (15 - n.length) 0x20).length = 16) : Block :=
  ⟨4096, entriesArchive [plainEntry (n ++ 0x2F :: List.replicate (15 - n.length) 0x20) h], page_pos, by
    simp [entriesArchive, entriesBytes, Entry.length_bytes, plainEntry, armag]⟩

def openFirst (b : Block) : List HdrOp :=
  [.life (.elfBegin 3 .read none (some b)), .life (.elfBegin 3 .read (some 0) (some b))]

set_option maxRecDepth 4000 in
theorem elfGetarhdr_iff_svr4Archive : ∃ s de,
    runOps (HdrOp.step plainEnv) .empty (openFirst (svr4Archive [0x61, 0x62] rfl)) = .ok s ∧ s.heap.Live 1 de ∧
      Recovered s 1 de [0x61, 0x62] := by
  have hrun : ∃ s de dp a, runOps (HdrOp.step plainEnv) .empty (openFirst (svr4Archive [0x61, 0x62] rfl)) = .ok s ∧
      s.heap.Live 1 de ∧ de.eParent = some 0 ∧ s.heap.Live 0 dp ∧ dp.eKind = .ar a ∧
      dp.eBlock = svr4Archive [0x61, 0x62] rfl ∧ dp.eRawfile = 4096 ∧ dp.eRawsize = 72 ∧ de.eRawhdr = 4104 :=
    ⟨_, _, _, _, rfl, rfl, rfl, rfl, rfl, rfl, rfl, rfl, rfl⟩
  obtain ⟨s, de, dp, a, hrun, hl, hparent, hlp, ha, hblock, hfile, hsize, hraw⟩ := hrun
  have hholds : HoldsArchive dp [plainEntry ([0x61, 0x62] ++ 0x2F :: List.replicate 13 0x20) rfl] := by
    refine ⟨?_, ?_⟩
    · rw [hblock, hfile, hsize]
      exact ⟨by decide, by decide⟩
    · rw [hblock, hfile, hsize]
      decide
  have hmember : MemberIn s.heap 1 de dp a [plainEntry ([0x61, 0x62] ++ 0x2F :: List.replicate 13 0x20) rfl]
      (plainEntry ([0x61, 0x62] ++ 0x2F :: List.replicate 13 0x20) rfl) :=
    ⟨hl, ⟨0, hparent, hlp⟩, ha, hholds, [], [], rfl, by rw [hraw, hfile]; rfl⟩
  refine ⟨s, de, hrun, hl, ((elfGetarhdr_iff hrun hmember).1 [0x61, 0x62] ?_).mpr (by decide)⟩
  exact ⟨by decide, by decide, by decide, rfl⟩

set_option maxRecDepth 4000 in
/-- The SVR4 name `#1` is taken for an extended name without bytes. -/
theorem getarhdr_hash_one : ∃ s de h t,
    runOps (HdrOp.step plainEnv) .empty (openFirst (svr4Archive [0x23, 0x31] rfl)) = .ok s ∧ s.heap.Live 1 de ∧
      Svr4Short (window (svr4Archive [0x23, 0x31] rfl).bytes 8 16) [0x23, 0x31] ∧
      elfGetarhdr (some 1) s = .ok (some h) t ∧ h.arName = [] ∧ ¬ Recovered s 1 de [0x23, 0x31] := by
  have hrun : ∃ s de h t, runOps (HdrOp.step plainEnv) .empty (openFirst (svr4Archive [0x23, 0x31] rfl)) = .ok s ∧
      s.heap.Live 1 de ∧ elfGetarhdr (some 1) s = .ok (some h) t ∧ h.arName = [] :=
    ⟨_, _, _, _, rfl, rfl, rfl, rfl⟩
  obtain ⟨s, de, h, t, hrun, hl, hget, hname⟩ := hrun
  refine ⟨s, de, h, t, hrun, hl, ⟨by decide, by decide, by decide, by decide⟩, hget, hname, ?_⟩
  rintro ⟨h', t', hget', hname', -⟩
  obtain rfl := Option.some.inj (Outcome.ok.inj (hget.symm.trans hget')).1
  rw [hname] at hname'
  cases hname'

end LibElf.Toolchain
