import LibElf.Toolchain.Arsym

/-!
# The BSD archive symbol table

The table is the size of an array of pairs, the array, the size of a string table and the string table. The
checks compare with the end of the member: the size of the string table is read before it is known to be in
the member, and a name may start and end after the string table.

1. `rawSymtab_lt`: the size of the member has at most ten digits.
2. `Passes`, `BsdTerminated`, `NamesWithin` and `BsdWithin`, the condition.
3. `processBsdSymtab_iff`: the parser stays in the member, and returns names of the string table only, if and
   only if the table is `BsdWithin`.
-/

namespace LibElf.Toolchain

open Outcome

/-! ## The size of the member -/

section Size

theorem arDigits_lt {base : Nat} (hbase : base ≤ 10) (bs : List UInt8) : ∀ {r bound v : Nat}, r < bound →
    arDigits base bs r = some v → v < bound * 10 ^ bs.length := by
  induction bs with
  | nil =>
    intro r bound v hr h
    obtain rfl := Option.some.inj h
    simpa using hr
  | cons c bs ih =>
    intro r bound v hr h
    have hpow : bound * 10 ^ (c :: bs).length = bound * 10 * 10 ^ bs.length := by
      rw [List.length_cons, Nat.pow_succ]
      ring
    have hone : 1 ≤ 10 ^ bs.length := Nat.one_le_pow _ _ (by decide)
    have hstay : r < bound * 10 ^ (c :: bs).length := by
      rw [hpow]
      exact Nat.lt_of_lt_of_le (by omega) (Nat.le_mul_of_pos_right _ hone)
    rw [arDigits] at h
    split at h
    · exact Option.some.inj h ▸ hstay
    split at h
    · cases h
    dsimp only at h
    split at h
    · exact Option.some.inj h ▸ hstay
    next hdigit =>
    rw [hpow]
    refine ih ?_ h
    have hmul : r * base ≤ r * 10 := Nat.mul_le_mul_left r hbase
    have hw : wrap (wrap (r * base) + (c - 0x30).toNat) ≤ r * base + (c - 0x30).toNat := by
      refine Nat.le_trans (Nat.mod_le _ _) (Nat.add_le_add_right (Nat.mod_le _ _) _)
    omega

theorem arGetNumber_lt {src : List UInt8} {v : Nat} (h : arGetNumber src 10 = some v) : v < 10 ^ src.length := by
  have hlt := arDigits_lt (Nat.le_refl 10) _ Nat.zero_lt_one h
  rw [Nat.one_mul] at hlt
  refine Nat.lt_of_lt_of_le hlt (Nat.pow_le_pow_right (by decide) ?_)
  exact (List.dropWhile_sublist _).length_le

variable {b : Block} {p fin : Nat}

theorem ensures_readArHeader_lt : (readArHeader b p fin () : Outcome ElfError Unit (List UInt8 × Nat)).Ensures
    (fun r _ => r.2 < 10 ^ 10) (fun _ => True) (fun _ => True) := by
  unfold readArHeader
  split
  · trivial
  refine ensures_bind (Q := fun _ _ => True) ?_ fun arh s _ => ?_
  · cases b.load p arHdrSize () <;> trivial
  split
  · trivial
  split
  · trivial
  · next sz hsz =>
    have hlt := arGetNumber_lt hsz
    have hlen : (arSize arh).length ≤ 10 := length_window_le _ _ _
    exact Nat.lt_of_lt_of_le hlt (Nat.pow_le_pow_right (by decide) hlen)

theorem ensures_arSpecial_lt : (arSpecial b p fin () : Outcome ElfError Unit Special).Ensures
    (fun m _ => m.rawsymtabsz < 10 ^ 10) (fun _ => True) (fun _ => True) := by
  unfold arSpecial
  refine ensures_bind ensures_readArHeader_lt fun r s hsz => ?_
  obtain ⟨arh, sz⟩ := r
  have hzero : 0 < 10 ^ 10 := by decide
  dsimp only at hsz ⊢
  split
  · split
    · trivial
    split
    · refine ensures_bind (Q := fun _ _ => True) ?_ fun r' s _ => ?_
      · cases readArHeader b _ fin s <;> trivial
      · obtain ⟨arh', sz'⟩ := r'
        dsimp only
        split
        · exact hsz
        · exact hsz
    split
    · exact hzero
    · exact hzero
  · split
    · exact hsz
    · exact hzero

theorem rawSymtab_lt {svr4 : Bool} {m z : Nat} (h : rawSymtab b = some (svr4, m, z)) : z < 10 ^ 10 := by
  unfold rawSymtab at h
  have hlt := @ensures_arSpecial_lt b (b.addr + sarmag) (b.addr + b.bytes.length)
  split at h
  · next sp s hsp =>
    rw [hsp] at hlt
    split at h
    · cases h
    · cases h
      exact hlt
  · cases h
  · cases h

end Size

/-! ## The condition -/

section Condition

variable (host : ByteOrder) (img : List UInt8) (fin s0 : Nat)

def nameAt (p : Nat) : Nat := s0 + (long host img p).toNat

/-- The checks that an entry has to pass. -/
def Passes (p : Nat) : Prop :=
  0 ≤ long host img p ∧ 0 ≤ long host img (p + 8) ∧ (long host img (p + 8)).toNat < img.length ∧
    nameAt host img s0 p < fin

instance (p : Nat) : Decidable (Passes host img fin s0 p) := inferInstanceAs (Decidable (_ ∧ _))

/-- All the `n` entries from `p` on pass. -/
def AllPass : Nat → Nat → Prop
  | 0, _ => True
  | n + 1, p => Passes host img fin s0 p ∧ AllPass n (p + 16)

/-- The names of the `n` entries from `p` on end before `hi`. -/
def NamesWithin (hi : Nat) : Nat → Nat → Prop
  | 0, _ => True
  | n + 1, p =>
    (∃ k, strlen (img.drop (nameAt host img s0 p)) = some k ∧ nameAt host img s0 p + k + 1 ≤ hi) ∧
      NamesWithin hi n (p + 16)

/-- Every name that the loop comes to ends before `fin`. -/
def BsdTerminated : Nat → Nat → Prop
  | 0, _ => True
  | n + 1, p =>
    Passes host img fin s0 p →
      (∃ k, strlen (img.drop (nameAt host img s0 p)) = some k ∧ nameAt host img s0 p + k + 1 ≤ fin) ∧
        BsdTerminated n (p + 16)

/-- The entries that the loop makes of `n` entries that pass. -/
def bsdEntries : Nat → Nat → List ElfArsym
  | 0, _ => []
  | n + 1, p =>
    ⟨some (nameAt host img s0 p), (long host img (p + 8)).toNat,
      hashName 64 (window img (nameAt host img s0 p) ((strlen (img.drop (nameAt host img s0 p))).getD 0))⟩ ::
      bsdEntries n (p + 16)

/-- Every name pointer of the table leads to a string between `lo` and `hi`, its NUL included. -/
def Named (lo hi : Nat) (sym : List ElfArsym) : Prop :=
  ∀ e ∈ sym, ∀ s, e.asName = some s → lo ≤ s ∧ ∃ name, IsString img s name ∧ s + name.length + 1 ≤ hi

variable (m z : Nat)

/-- The size of the array, as a number without sign. -/
def arraySize : Nat := (long host img m).toNat

def strtabStart : Nat := m + 16 + arraySize host img m

/-- The size of the string table, as a number without sign. -/
def strtabSize : Nat := (long host img (m + 8 + arraySize host img m)).toNat

/-- The parser reads only bytes of the member that are in the image, and the names of the table that it returns
are strings of the string table. -/
def BsdSafe : Prop :=
  (processBsdSymtab host img m z).Ensures
    (fun sym log => Inside m (min (m + z) img.length) log ∧
      Named img (strtabStart host img m) (strtabStart host img m + strtabSize host img m) sym)
    (fun log => Inside m (min (m + z) img.length) log) (fun _ => False)

/-- The condition: the two sizes, where they are looked at, are in the member and the image; every name that the
loop comes to ends in the member; and when all entries pass, every name ends in the string table. -/
def BsdWithin : Prop :=
  z < 16 ∨ (m + 8 ≤ img.length ∧
    ((long host img m < 0 ∨ z ≤ arraySize host img m ∨ arraySize host img m % 16 ≠ 0) ∨
      (arraySize host img m + 16 ≤ z ∧ strtabStart host img m ≤ img.length ∧
        ((long host img (m + 8 + arraySize host img m) < 0 ∨
            m + z < strtabStart host img m + strtabSize host img m) ∨
          (BsdTerminated host img (m + z) (strtabStart host img m) (arraySize host img m / 16) (m + 8) ∧
            (AllPass host img (m + z) (strtabStart host img m) (arraySize host img m / 16) (m + 8) →
              NamesWithin host img (strtabStart host img m)
                (strtabStart host img m + strtabSize host img m) (arraySize host img m / 16) (m + 8)))))))

end Condition

-- the comparisons of a long with zero are not to be computed
attribute [local irreducible] long

section Loop

variable {host : ByteOrder} {img : List UInt8} {m z s0 : Nat}

theorem named_cons {lo hi : Nat} {e : ElfArsym} {sym : List ElfArsym} :
    Named img lo hi (e :: sym) ↔
      (∀ s, e.asName = some s → lo ≤ s ∧ ∃ name, IsString img s name ∧ s + name.length + 1 ≤ hi) ∧
        Named img lo hi sym := by
  simp [Named]

/-- The names of the entries are those that the entries lead to. -/
theorem named_bsdEntries {hi : Nat} (n : Nat) : ∀ p : Nat,
    Named img s0 hi (bsdEntries host img s0 n p ++ [sentinel]) ↔ NamesWithin host img s0 hi n p := by
  induction n with
  | zero =>
    intro p
    refine ⟨fun _ => trivial, fun _ => ?_⟩
    intro e he s hs
    obtain rfl := List.mem_singleton.mp he
    cases hs
  | succ n ih =>
    intro p
    rw [bsdEntries, List.cons_append, named_cons, ih, NamesWithin]
    refine and_congr_left fun _ => ?_
    constructor
    · intro h
      obtain ⟨-, name, hstr, hend⟩ := h _ rfl
      exact ⟨name.length, hstr.strlen_eq.1, hend⟩
    · rintro ⟨k, hlen, hend⟩ s hs
      obtain rfl := Option.some.inj hs
      obtain ⟨hstr, hk⟩ := isString_of_strlen hlen
      exact ⟨Nat.le_add_right _ _, _, hstr, by rw [hk]; exact hend⟩

/-- One turn of the loop, over an entry in the image. -/
theorem bsdLoop_succ {fin n p : Nat} (hin : p + 16 ≤ img.length) (sym : List ElfArsym) (log : Reads) :
    bsdLoop host img fin s0 (n + 1) p sym log =
      if Passes host img fin s0 p then
        (hashAt img (nameAt host img s0 p) (log ++ [(p, 8)] ++ [(p + 8, 8)])).bind fun h log =>
          bsdLoop host img fin s0 n (p + 16) (sym ++ [⟨some (nameAt host img s0 p), (long host img (p + 8)).toNat, h⟩]) log
      else .err .ARCHIVE (log ++ [(p, 8)] ++ [(p + 8, 8)]) := by
  rw [bsdLoop, getLong_of_le host log (by omega), bind_ok, getLong_of_le host _ (by omega), bind_ok]
  dsimp only
  by_cases hpass : Passes host img fin s0 p
  · rw [if_pos hpass]
    obtain ⟨hstr, hfile, hsize, hname⟩ := hpass
    have hname : ¬ fin ≤ s0 + (long host img p).toNat := Nat.not_le.mpr hname
    rw [if_neg (by omega), if_neg hname]
    rfl
  · rw [if_neg hpass]
    by_cases hbad : long host img p < 0 ∨ long host img (p + 8) < 0 ∨ img.length ≤ (long host img (p + 8)).toNat
    · rw [if_pos hbad]
    · rw [if_neg hbad, if_pos]
      by_contra hname
      exact hpass ⟨by omega, by omega, by omega, Nat.lt_of_not_le hname⟩

/-- On terminated entries the loop reads inside the member, and succeeds exactly when all of them pass. -/
theorem bsdLoop_of_terminated (hs0 : m ≤ s0) (n : Nat) : ∀ (p : Nat) (sym : List ElfArsym) (log : Reads),
    BsdTerminated host img (m + z) s0 n p → m ≤ p → p + n * 16 ≤ min (m + z) img.length →
    Inside m (min (m + z) img.length) log →
    (bsdLoop host img (m + z) s0 n p sym log).Ensures
      (fun t log' => Inside m (min (m + z) img.length) log' ∧ AllPass host img (m + z) s0 n p ∧
        t = sym ++ (bsdEntries host img s0 n p ++ [sentinel]))
      (fun log' => Inside m (min (m + z) img.length) log' ∧ ¬ AllPass host img (m + z) s0 n p)
      (fun _ => False) := by
  induction n with
  | zero => exact fun p sym log _ _ _ hlog => ⟨hlog, trivial, rfl⟩
  | succ n ih =>
    intro p sym log hterm hp hpn hlog
    have hlog₁ : Inside m (min (m + z) img.length) (log ++ [(p, 8)] ++ [(p + 8, 8)]) := by
      refine inside_append.mpr ⟨inside_append.mpr ⟨hlog, inside_singleton.mpr ⟨hp, by omega⟩⟩, ?_⟩
      exact inside_singleton.mpr ⟨by omega, by omega⟩
    rw [bsdLoop_succ (by omega)]
    by_cases hpass : Passes host img (m + z) s0 p
    · rw [if_pos hpass]
      obtain ⟨⟨k, hlen, hk⟩, hrest⟩ := hterm hpass
      obtain ⟨hstr, hname⟩ := isString_of_strlen hlen
      have hle := hstr.le
      rw [hname] at hle
      have hlo : m ≤ nameAt host img s0 p := Nat.le_trans hs0 (Nat.le_add_right _ _)
      rw [hashAt_of_isString _ hstr, bind_ok, hname]
      have hlog₂ := inside_append.mpr ⟨hlog₁, inside_singleton.mpr (⟨hlo, by omega⟩ :
        m ≤ nameAt host img s0 p ∧ nameAt host img s0 p + (k + 1) ≤ min (m + z) img.length)⟩
      refine ensures_mono (ih (p + 16) _ _ hrest (by omega) (by omega) hlog₂) ?_ ?_ fun _ h => h
      · rintro t log' ⟨hin, hall, rfl⟩
        refine ⟨hin, ⟨hpass, hall⟩, ?_⟩
        rw [bsdEntries, hlen]
        simp
      · rintro log' ⟨hin, hno⟩
        exact ⟨hin, fun hall => hno hall.2⟩
    · rw [if_neg hpass]
      exact ⟨hlog₁, fun hall => hpass hall.1⟩

/-- A loop that reads inside the member came to terminated names only. -/
theorem terminated_of_bsdLoop (n : Nat) : ∀ (p : Nat) (sym : List ElfArsym) (log : Reads),
    p + n * 16 ≤ img.length →
    (bsdLoop host img (m + z) s0 n p sym log).Ensures (fun _ t => Inside m (min (m + z) img.length) t)
      (fun t => Inside m (min (m + z) img.length) t) (fun _ => False) →
    BsdTerminated host img (m + z) s0 n p := by
  induction n with
  | zero => exact fun _ _ _ _ _ => trivial
  | succ n ih =>
    intro p sym log hpn h hpass
    rw [bsdLoop_succ (by omega), if_pos hpass] at h
    cases hlen : strlen (img.drop (nameAt host img s0 p)) with
    | none =>
      rw [hashAt_of_none _ hlen] at h
      exact absurd h id
    | some k =>
      obtain ⟨hstr, hname⟩ := isString_of_strlen hlen
      rw [hashAt_of_isString _ hstr, bind_ok, hname] at h
      obtain ⟨-, hread⟩ := inside_append.mp ((grows_bsdLoop host img _ s0 n _ _ _).inside h)
      obtain ⟨-, hin⟩ := inside_singleton.mp hread
      exact ⟨⟨k, rfl, by omega⟩, ih _ _ _ (by omega) h⟩

/-- What the loop needs, with its reads so far inside the member. -/
theorem bsdLoop_iff (hs0 : m ≤ s0) {n p hi : Nat} {log : Reads} (hp : m ≤ p)
    (hpn : p + n * 16 ≤ min (m + z) img.length) (hlog : Inside m (min (m + z) img.length) log) :
    (bsdLoop host img (m + z) s0 n p [] log).Ensures
        (fun sym log => Inside m (min (m + z) img.length) log ∧ Named img s0 hi sym)
        (fun log => Inside m (min (m + z) img.length) log) (fun _ => False) ↔
      BsdTerminated host img (m + z) s0 n p ∧
        (AllPass host img (m + z) s0 n p → NamesWithin host img s0 hi n p) := by
  constructor
  · intro h
    have hterm := terminated_of_bsdLoop n p [] log (by omega) (ensures_mono h (fun _ _ h => h.1) (fun _ h => h) fun _ h => h)
    refine ⟨hterm, fun hall => ?_⟩
    have hrun := bsdLoop_of_terminated hs0 n p [] log hterm hp hpn hlog
    generalize bsdLoop host img (m + z) s0 n p [] log = x at h hrun
    cases x with
    | ok t log' =>
      obtain ⟨-, hnamed⟩ := h
      obtain ⟨-, -, rfl⟩ := hrun
      exact (named_bsdEntries n p).mp hnamed
    | err e log' => exact absurd hall hrun.2
    | stop f => exact absurd hrun id
  · rintro ⟨hterm, hnames⟩
    refine ensures_mono (bsdLoop_of_terminated hs0 n p [] log hterm hp hpn hlog) ?_ (fun _ h => h.1) fun _ h => h
    rintro t log' ⟨hlog', hall, rfl⟩
    exact ⟨hlog', (named_bsdEntries n p).mpr (hnames hall)⟩

end Loop

/-- The parser stays inside its member, and the names that it returns are strings of the string table, if and
only if the table is `BsdWithin`. -/
theorem processBsdSymtab_iff (host : ByteOrder) {b : Block} {m z : Nat} (h : rawSymtab b = some (false, m, z)) :
    BsdSafe host b.bytes m z ↔ BsdWithin host b.bytes m z := by
  have hz10 := rawSymtab_lt h
  generalize b.bytes = img
  unfold BsdSafe processBsdSymtab BsdWithin
  by_cases hz : z < 16
  · rw [if_pos hz]
    exact ⟨fun _ => .inl hz, fun _ => inside_nil⟩
  rw [if_neg hz]
  by_cases hm : m + 8 ≤ img.length
  · rw [getLong_of_le host [] hm, bind_ok]
    have hlog : Inside m (min (m + z) img.length) ([] ++ [(m, 8)]) :=
      inside_append.mpr ⟨inside_nil, inside_singleton.mpr ⟨Nat.le_refl m, by omega⟩⟩
    have hA : (long host img m).toNat = arraySize host img m := rfl
    rw [hA]
    by_cases hbad : long host img m < 0 ∨ m + z ≤ m + arraySize host img m ∨ arraySize host img m % 16 ≠ 0
    · rw [if_pos hbad]
      exact ⟨fun _ => .inr ⟨hm, .inl (hbad.imp id fun h => h.imp (fun h => by omega) id)⟩, fun _ => hlog⟩
    rw [if_neg hbad]
    dsimp only
    have hstart : m + 8 + arraySize host img m + 8 = strtabStart host img m := by
      rw [strtabStart]
      omega
    have hS : (long host img (m + 8 + arraySize host img m)).toNat = strtabSize host img m := rfl
    rw [hstart]
    by_cases hin : strtabStart host img m ≤ img.length
    · rw [getLong_of_le host _ (by omega), bind_ok, hS]
      -- the read of the second size is on record, whatever comes after it
      have hinside : Inside m (min (m + z) img.length) ([] ++ [(m, 8)] ++ [(m + 8 + arraySize host img m, 8)]) ↔
          arraySize host img m + 16 ≤ z := by
        rw [inside_append, inside_singleton]
        refine ⟨fun h => ?_, fun h => ⟨hlog, by omega, by omega⟩⟩
        have hle := h.2.2
        omega
      have hn : arraySize host img m / 16 % 2 ^ 32 = arraySize host img m / 16 := Nat.mod_eq_of_lt (by omega)
      by_cases hbad' : long host img (m + 8 + arraySize host img m) < 0 ∨
          m + z < strtabStart host img m + strtabSize host img m
      · rw [if_pos hbad']
        refine hinside.trans ⟨fun h => .inr ⟨hm, .inr ⟨h, hin, .inl hbad'⟩⟩, ?_⟩
        rintro (h | ⟨-, h | ⟨h, -⟩⟩)
        · exact absurd h hz
        · exact absurd (h.imp id fun h => h.imp (fun h => by omega) id) hbad
        · exact h
      rw [if_neg hbad', hn]
      have hlo : m ≤ strtabStart host img m := by
        rw [strtabStart]
        omega
      constructor
      · intro h
        have hsafe := ensures_mono h (fun _ _ h => h.1) (fun _ h => h) fun _ h => h
        have hsize := hinside.mp ((grows_bsdLoop host img _ _ _ _ _ _).inside hsafe)
        exact .inr ⟨hm, .inr ⟨hsize, hin, .inr ((bsdLoop_iff hlo (by omega) (by omega) (hinside.mpr hsize)).mp h)⟩⟩
      · rintro (h | ⟨-, h | ⟨hsize, -, h | h⟩⟩)
        · exact absurd h hz
        · exact absurd (h.imp id fun h => h.imp (fun h => by omega) id) hbad
        · exact absurd h hbad'
        · exact (bsdLoop_iff hlo (by omega) (by omega) (hinside.mpr hsize)).mpr h
    · rw [getLong_of_lt host _ (by omega)]
      refine ⟨fun h => absurd h id, ?_⟩
      rintro (h | ⟨-, h | ⟨-, h, -⟩⟩)
      · exact absurd h hz
      · exact absurd (h.imp id fun h => h.imp (fun h => by omega) id) hbad
      · exact absurd h hin
  · rw [getLong_of_lt host [] (by omega)]
    refine ⟨fun h => absurd h id, ?_⟩
    rintro (h | ⟨h, -⟩)
    · exact absurd h hz
    · exact absurd h hm

/-- A BSD archive with nothing but its symbol table: one entry, and a string table of the given size before the given
bytes. -/
def bsdArchive (size strtab : List UInt8) (strtabsize : Nat) : List UInt8 :=
  armag ++ memberHeader [0x5F, 0x5F, 0x2E, 0x53, 0x59, 0x4D, 0x44, 0x45, 0x46] size ++ leBytes 8 16 ++ leBytes 8 0 ++
    leBytes 8 8 ++ leBytes 8 strtabsize ++ strtab

def namedArchive : Block := ⟨0x1000, bsdArchive [0x33, 0x36] [0x61, 0x62, 0, 0] 4, by decide, by decide +kernel⟩

/-- The name `a` behind an empty string table. -/
def strayArchive : Block := ⟨0x1000, bsdArchive [0x33, 0x34] [0x61, 0] 0, by decide, by decide +kernel⟩

theorem processBsdSymtab_iff_named :
    rawSymtab namedArchive = some (false, 68, 36) ∧
      (BsdSafe .little namedArchive.bytes 68 36 ↔ BsdWithin .little namedArchive.bytes 68 36) := by
  have h : rawSymtab namedArchive = some (false, 68, 36) := by decide +kernel
  exact ⟨h, processBsdSymtab_iff .little h⟩

/-- A run that returns a name behind the string table. -/
theorem not_bsdSafe_of_name {host : ByteOrder} {img : List UInt8} {m z : Nat}
    (h : (processBsdSymtab host img m z).returns (fun sym _ => sym.any fun e =>
      e.asName.any fun s => decide (strtabStart host img m + strtabSize host img m ≤ s)) = true) :
    ¬ BsdSafe host img m z := by
  intro hsafe
  obtain ⟨sym, log, hok, hname⟩ := exists_of_returns h
  rw [BsdSafe, hok] at hsafe
  obtain ⟨e, he, hs⟩ := List.any_eq_true.mp hname
  obtain ⟨s, hs, hle⟩ := Option.any_eq_true _ _ |>.mp hs
  obtain ⟨-, name, -, hend⟩ := hsafe.2 e he s hs
  have hle := of_decide_eq_true hle
  omega

theorem not_bsdSafe_strayArchive :
    rawSymtab strayArchive = some (false, 68, 34) ∧ ¬ BsdSafe .little strayArchive.bytes 68 34 :=
  ⟨by decide +kernel, not_bsdSafe_of_name (by decide +kernel)⟩

end LibElf.Toolchain
