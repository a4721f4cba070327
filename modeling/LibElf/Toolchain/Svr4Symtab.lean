import LibElf.Toolchain.Arsym

/-!
# The SVR4 archive symbol table

The table is a count, that many offsets and that many names. The parser hashes a name before it looks for the
end of the name inside the member, so a name without a NUL in the member is read beyond it.

1. `Words`, `Names` and `IsSvr4Table`, what a well-formed table is, and `svr4Entries`, its entries.
2. `Terminated`: every offset and every name that the loop comes to ends in the member and in the image.
3. `processSvr4Symtab_iff`: the parser is safe and accepts exactly the well-formed tables if and only if the
   table is `Terminated`.
-/

namespace LibElf.Toolchain

open Outcome

/-! ## Well-formed tables -/

/-- The offsets at `p`, one word each, all below the size of the archive. -/
def Words (img : List UInt8) : Nat → List Nat → Prop
  | _, [] => True
  | p, o :: os => p + 4 ≤ img.length ∧ word img p = o ∧ o < img.length ∧ Words img (p + 4) os

/-- The names from `s` on, one after the other, each with its NUL before `fin`. -/
def Names (img : List UInt8) (fin : Nat) : Nat → List (List UInt8) → Prop
  | _, [] => True
  | s, name :: names =>
    IsString img s name ∧ s + name.length + 1 ≤ fin ∧ Names img fin (s + name.length + 1) names

/-- The `z` bytes at `m` are a table with these offsets and names. -/
structure IsSvr4Table (img : List UInt8) (m z : Nat) (offs : List Nat) (names : List (List UInt8)) : Prop where
  header : 4 ≤ z ∧ m + 4 ≤ img.length
  count : word img m = offs.length
  nonempty : 1 ≤ offs.length
  words_inside : 4 + offs.length * 4 ≤ z
  words : Words img (m + 4) offs
  names_length : names.length = offs.length
  names : Names img (m + z) (m + 4 + offs.length * 4) names

/-- The entries for these offsets and the names at `s`. -/
def svr4Entries : Nat → List Nat → List (List UInt8) → List ElfArsym
  | s, o :: os, name :: names => ⟨some s, o, hashName 64 name⟩ :: svr4Entries (s + name.length + 1) os names
  | _, _, _ => []

/-- The parser reads only bytes of the member that are in the image; it succeeds on the well-formed tables and
returns their entries; and it reports an error on every other one. -/
def Svr4Exact (img : List UInt8) (m z : Nat) : Prop :=
  (processSvr4Symtab img m z).Ensures
    (fun sym log => Inside m (min (m + z) img.length) log ∧ ∃ offs names, IsSvr4Table img m z offs names ∧
      sym = svr4Entries (m + 4 + offs.length * 4) offs names ++ [sentinel])
    (fun log => Inside m (min (m + z) img.length) log ∧ ¬ ∃ offs names, IsSvr4Table img m z offs names)
    (fun _ => False)

/-! ## The condition -/

/-- The `n` entries left are such that every one the loop comes to has its offset in the image and, unless the
loop gives up at that offset, a name that ends before `fin`. -/
def Terminated (img : List UInt8) (fin : Nat) : Nat → Nat → Nat → Prop
  | 0, _, _ => True
  | n + 1, p, s =>
    fin ≤ s ∨ (p + 4 ≤ img.length ∧
      (img.length ≤ word img p ∨
        ∃ k, strlen (img.drop s) = some k ∧ s + k + 1 ≤ fin ∧ Terminated img fin n (p + 4) (s + k + 1)))

/-- The count is in the image, and the entries that the loop comes to are terminated. -/
def Svr4Terminated (img : List UInt8) (m z : Nat) : Prop :=
  z < 4 ∨ (m + 4 ≤ img.length ∧ (word img m = 0 ∨ z ≤ 4 + word img m * 4 ∨
    Terminated img (m + z) (word img m) (m + 4) (m + 4 + word img m * 4)))

section Loop

variable {img : List UInt8} {m z : Nat}

/-- The first name and the first offset of a table. -/
theorem table_cons {fin n p s : Nat} {offs : List Nat} {names : List (List UInt8)} (ho : offs.length = n + 1)
    (hn : names.length = n + 1) (hwords : Words img p offs) (hnames : Names img fin s names) :
    ∃ os name rest, offs = word img p :: os ∧ names = name :: rest ∧ os.length = n ∧ rest.length = n ∧
      word img p < img.length ∧ Words img (p + 4) os ∧ IsString img s name ∧ s + name.length + 1 ≤ fin ∧
      Names img fin (s + name.length + 1) rest := by
  obtain ⟨o, os, rfl⟩ := List.exists_cons_of_length_eq_add_one ho
  obtain ⟨name, rest, rfl⟩ := List.exists_cons_of_length_eq_add_one hn
  obtain ⟨-, rfl, hlt, hwords⟩ := hwords
  obtain ⟨hstr, hend, hnames⟩ := hnames
  exact ⟨os, name, rest, rfl, rfl, Nat.succ.inj ho, Nat.succ.inj hn, hlt, hwords, hstr, hend, hnames⟩

/-- On terminated entries the loop reads inside the member, and succeeds exactly on offsets and names. -/
theorem svr4Loop_of_terminated (n : Nat) : ∀ (p s : Nat) (sym : List ElfArsym) (log : Reads),
    Terminated img (m + z) n p s → m ≤ p → p + n * 4 ≤ m + z → m ≤ s → Inside m (min (m + z) img.length) log →
    (svr4Loop img (m + z) n p s sym log).Ensures
      (fun t log' => Inside m (min (m + z) img.length) log' ∧ ∃ offs names, offs.length = n ∧ names.length = n ∧
        Words img p offs ∧ Names img (m + z) s names ∧ t = sym ++ svr4Entries s offs names ++ [sentinel])
      (fun log' => Inside m (min (m + z) img.length) log' ∧ ¬ ∃ offs names, offs.length = n ∧ names.length = n ∧
        Words img p offs ∧ Names img (m + z) s names)
      (fun _ => False) := by
  induction n with
  | zero =>
    intro p s sym log _ _ _ _ hlog
    exact ⟨hlog, [], [], rfl, rfl, trivial, trivial, by simp [svr4Entries]⟩
  | succ n ih =>
    intro p s sym log hterm hp hpn hs hlog
    rw [svr4Loop]
    by_cases hend : m + z ≤ s
    · rw [if_pos hend]
      refine ⟨hlog, ?_⟩
      rintro ⟨offs, names, ho, hn, hwords, hnames⟩
      obtain ⟨_, name, _, _, _, _, _, _, _, _, hle, _⟩ := table_cons ho hn hwords hnames
      omega
    rw [if_neg hend]
    obtain ⟨hword, hterm⟩ := hterm.resolve_left hend
    have hlog₁ : Inside m (min (m + z) img.length) (log ++ [(p, 4)]) :=
      inside_append.mpr ⟨hlog, inside_singleton.mpr ⟨hp, by omega⟩⟩
    rw [getWord_of_le log hword, bind_ok]
    by_cases hoff : img.length ≤ word img p
    · rw [if_pos hoff]
      refine ⟨hlog₁, ?_⟩
      rintro ⟨offs, names, ho, hn, hwords, hnames⟩
      obtain ⟨_, _, _, _, _, _, _, hlt, _⟩ := table_cons ho hn hwords hnames
      omega
    rw [if_neg hoff]
    obtain ⟨k, hlen, hk, hterm⟩ := hterm.resolve_left hoff
    obtain ⟨hstr, hkname⟩ := isString_of_strlen hlen
    generalize window img s k = name at hstr hkname
    subst hkname
    have hle := hstr.le
    have hlog₂ : Inside m (min (m + z) img.length) (log ++ [(p, 4)] ++ [(s, name.length + 1)]) :=
      inside_append.mpr ⟨hlog₁, inside_singleton.mpr ⟨hs, by omega⟩⟩
    obtain ⟨log₃, hskip, hin⟩ := @skipString_of_isString ElfError img (m + z - s) s name
      (log ++ [(p, 4)] ++ [(s, name.length + 1)]) hstr (by omega)
    rw [hashAt_of_isString _ hstr, bind_ok, hskip, bind_ok]
    refine ensures_mono (ih (p + 4) (s + name.length + 1) (sym ++ [⟨some s, word img p, hashName 64 name⟩]) log₃ hterm
      (by omega) (by omega) (by omega) (hin m _ hlog₂ hs (by omega))) ?_ ?_ (fun _ h => h)
    · rintro t log' ⟨hlog', offs, names, ho, hn, hwords, hnames, rfl⟩
      refine ⟨hlog', word img p :: offs, name :: names, congrArg Nat.succ ho, congrArg Nat.succ hn,
        ⟨hword, rfl, Nat.lt_of_not_le hoff, hwords⟩, ⟨hstr, hk, hnames⟩, ?_⟩
      simp [svr4Entries]
    · rintro log' ⟨hlog', hno⟩
      refine ⟨hlog', ?_⟩
      rintro ⟨offs, names, ho, hn, hwords, hnames⟩
      obtain ⟨os, name', rest, -, -, hos, hrest, -, hwords, hstr', -, hnames⟩ := table_cons ho hn hwords hnames
      rw [hstr'.inj hstr] at hnames
      exact hno ⟨os, rest, hos, hrest, hwords, hnames⟩

/-- A loop that reads inside the member came to terminated entries only. -/
theorem terminated_of_svr4Loop (n : Nat) : ∀ (p s : Nat) (sym : List ElfArsym) (log : Reads),
    (svr4Loop img (m + z) n p s sym log).Ensures (fun _ t => Inside m (min (m + z) img.length) t)
      (fun t => Inside m (min (m + z) img.length) t) (fun _ => False) →
    Terminated img (m + z) n p s := by
  induction n with
  | zero => exact fun _ _ _ _ _ => trivial
  | succ n ih =>
    intro p s sym log h
    rw [svr4Loop] at h
    by_cases hend : m + z ≤ s
    · exact .inl hend
    rw [if_neg hend] at h
    by_cases hword : p + 4 ≤ img.length
    · rw [getWord_of_le log hword, bind_ok] at h
      refine .inr ⟨hword, ?_⟩
      by_cases hoff : img.length ≤ word img p
      · exact .inl hoff
      rw [if_neg hoff] at h
      cases hlen : strlen (img.drop s) with
      | none =>
        rw [hashAt_of_none _ hlen] at h
        exact absurd h id
      | some k =>
        obtain ⟨hstr, hkname⟩ := isString_of_strlen hlen
        generalize window img s k = name at hstr hkname
        subst hkname
        rw [hashAt_of_isString _ hstr, bind_ok] at h
        -- what was read of the name is still on record at the end
        have hread := Grows.inside ((grows_skipString img _ s _).bind fun s' t => grows_svr4Loop img _ n _ _ _ t) h
        obtain ⟨-, hname⟩ := inside_append.mp hread
        obtain ⟨-, hin⟩ := inside_singleton.mp hname
        refine .inr ⟨name.length, rfl, by omega, ?_⟩
        obtain ⟨log', hskip, -⟩ := @skipString_of_isString ElfError img (m + z - s) s name
          (log ++ [(p, 4)] ++ [(s, name.length + 1)]) hstr (by omega)
        rw [hskip, bind_ok] at h
        exact ih _ _ _ _ h
    · rw [getWord_of_lt log (by omega)] at h
      exact absurd h id

/-- The parser is safe and accepts exactly the well-formed tables if and only if the count is in the image, and
every offset and name that its loop comes to ends inside the member and the image. -/
theorem processSvr4Symtab_iff (img : List UInt8) (m z : Nat) : Svr4Exact img m z ↔ Svr4Terminated img m z := by
  unfold Svr4Exact processSvr4Symtab Svr4Terminated
  by_cases hz : z < 4
  · rw [if_pos hz]
    refine ⟨fun _ => .inl hz, fun _ => ⟨inside_nil, ?_⟩⟩
    rintro ⟨offs, names, htable⟩
    have hheader := htable.header.1
    omega
  rw [if_neg hz]
  by_cases hm : m + 4 ≤ img.length
  · rw [getWord_of_le [] hm, bind_ok]
    have hlog : Inside m (min (m + z) img.length) ([] ++ [(m, 4)]) :=
      inside_append.mpr ⟨inside_nil, inside_singleton.mpr ⟨Nat.le_refl m, by omega⟩⟩
    by_cases hbad : word img m = 0 ∨ m + z ≤ m + 4 + word img m * 4
    · rw [if_pos hbad]
      refine ⟨fun _ => .inr ⟨hm, hbad.imp id fun h => .inl (by omega)⟩, fun _ => ⟨hlog, ?_⟩⟩
      rintro ⟨offs, names, htable⟩
      have hcount := htable.count
      have hpos := htable.nonempty
      -- the first name needs a byte
      obtain ⟨name, rest, rfl⟩ : ∃ name rest, names = name :: rest :=
        List.exists_cons_of_ne_nil fun h => by
          have hlen := htable.names_length
          rw [h, List.length_nil] at hlen
          omega
      have hname := htable.names.2.1
      omega
    · rw [if_neg hbad]
      constructor
      · intro h
        have hterm := terminated_of_svr4Loop (word img m) (m + 4) (m + 4 + word img m * 4) [] _
          (ensures_mono h (fun _ _ h => h.1) (fun _ h => h.1) fun _ h => h)
        exact .inr ⟨hm, .inr (.inr hterm)⟩
      · intro h
        have hterm : Terminated img (m + z) (word img m) (m + 4) (m + 4 + word img m * 4) := by
          rcases h with h | ⟨-, h | h | h⟩
          · omega
          · exact absurd (.inl h) hbad
          · exact absurd (.inr (by omega)) hbad
          · exact h
        refine ensures_mono (svr4Loop_of_terminated (word img m) (m + 4) (m + 4 + word img m * 4) [] _ hterm (by omega)
          (by omega) (by omega) hlog) ?_ ?_ fun _ h => h
        · rintro t log ⟨hin, offs, names, ho, hn, hwords, hnames, rfl⟩
          refine ⟨hin, offs, names, ⟨⟨by omega, hm⟩, ho.symm, by omega, by omega, hwords, hn.trans ho.symm, ?_⟩, ?_⟩
          · rw [ho]
            exact hnames
          · rw [ho, List.nil_append]
        · rintro log ⟨hin, hno⟩
          refine ⟨hin, ?_⟩
          rintro ⟨offs, names, htable⟩
          have hnames := htable.names
          rw [← htable.count] at hnames
          exact hno ⟨offs, names, htable.count.symm, htable.names_length.trans htable.count.symm, htable.words, hnames⟩
  · rw [getWord_of_lt [] (by omega)]
    refine ⟨fun h => absurd h id, fun h => ?_⟩
    rcases h with h | ⟨h, -⟩
    · exact absurd h hz
    · exact absurd h hm

end Loop

/-- An archive whose symbol table of ten bytes ends in the middle of its only name. A NUL comes in the member after
it. -/
def cutArchive : Block where
  addr := 0x1000
  bytes := armag ++ memberHeader [0x2F] [0x31, 0x30] ++ [0, 0, 0, 1, 0, 0, 0, 8, 0x61, 0x62] ++
    memberHeader [0x6D, 0x2F] [0x32] ++ [0, 0x0A]
  addr_pos := page_pos
  fits := by decide +kernel

/-- A run that succeeds with a read outside the member. -/
theorem not_svr4Exact_of_reads {img : List UInt8} {m z : Nat} (h : (processSvr4Symtab img m z).returns
    (fun _ log => !decide (Inside m (min (m + z) img.length) log)) = true) : ¬ Svr4Exact img m z := by
  intro hexact
  obtain ⟨sym, log, hok, hbad⟩ := exists_of_returns h
  rw [Svr4Exact, hok] at hexact
  rw [decide_eq_true hexact.1] at hbad
  cases hbad

theorem not_svr4Exact_cutArchive :
    rawSymtab cutArchive = some (true, 68, 10) ∧ ¬ Svr4Exact cutArchive.bytes 68 10 :=
  ⟨by decide +kernel, not_svr4Exact_of_reads (by decide +kernel)⟩

end LibElf.Toolchain
