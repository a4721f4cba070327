import LibElf.Base.Footprint
import LibElf.Toolchain.Codec
import LibElf.Toolchain.Section

/-!
# Where the bytes of a data buffer come from

`elf_getdata` translates a section into memory that `malloc` returned. The translators of the
fixed-size types store every byte of it. The hand-coded ones decide themselves how far they go, and
report success all the same.

1. `getTranslator_window`: a translator does not look past the section.
2. `noteEnd`, `versionRanges` and `gnuhashChains` say which bytes the hand-coded walks visit, and
   `Covered` that these are all bytes.
3. `fills_getTranslator`: a translator stores exactly there, and in host order the bytes of the section.
4. `FromFile` and `getdata_fromFile_iff`: the buffer comes from the file exactly when the walk of its
   type covers the section.
-/

namespace LibElf.Toolchain

open Outcome Mem

/-! ## What a translator reads -/

section Reads

variable (host : ByteOrder) (swap : Bool) {n : Nat} {src : List UInt8} {size : Nat}

/-- A load inside the first `size` bytes. -/
theorem readAt_window {ε σ : Type} {s len : Nat} (t : σ) (h : s + len ≤ size) (hsrc : size ≤ src.length) :
    (readAt (window src 0 size) s len t : Outcome ε σ (List UInt8)) = readAt src s len t := by
  have hlen : (window src 0 size).length = size := length_window (by omega)
  rw [readAt_of_le t (by omega), readAt_of_le t (by omega), window_window h, Nat.zero_add]

/-- A window of the bytes from `s` on. -/
theorem drop_window (s : Nat) : (window src 0 size).drop s = window (src.drop s) 0 (size - s) := by
  simp only [window, List.drop_zero, List.drop_take]

theorem window_tofLoop (fs : List Field) (count : Nat) : ∀ (dst : Mem n) (off : Nat) {src : List UInt8} {size : Nat},
    size ≤ src.length → count * naturalSize fs ≤ size →
    tofLoop host fs swap count dst off (window src 0 size) = tofLoop host fs swap count dst off src := by
  induction count with
  | zero => exact fun _ _ _ _ _ _ => rfl
  | succ count ih =>
    intro dst off src size hsrc hcount
    rw [Nat.add_mul, Nat.one_mul] at hcount
    have hdrop : size - naturalSize fs ≤ (src.drop (naturalSize fs)).length := by
      rw [List.length_drop]
      omega
    rw [tofLoop, tofLoop, readAt_window dst (by omega) hsrc, drop_window]
    congr 1
    funext t dst
    congr 1
    funext _ dst
    exact ih dst _ hdrop (by omega)

theorem window_tomLoop (fs : List Field) {off : Nat} (hsrc : size ≤ src.length) (count : Nat) : ∀ dst : Mem n,
    count * packedSize fs ≤ size →
    tomLoop host fs swap off (window src 0 size) count dst = tomLoop host fs swap off src count dst := by
  induction count with
  | zero => exact fun _ _ => rfl
  | succ count ih =>
    intro dst hcount
    rw [Nat.add_mul, Nat.one_mul] at hcount
    rw [tomLoop, tomLoop, readAt_window dst hcount hsrc]
    congr 1
    funext s dst
    dsimp only
    congr 1
    funext _ dst
    exact ih dst (by omega)

theorem window_copyBytes {dst : Mem n} {off s len : Nat} (hsrc : size ≤ src.length) (h : s + len ≤ size) :
    copyBytes dst off (window src 0 size) s len = copyBytes dst off src s len := by
  rw [copyBytes, copyBytes, readAt_window dst h hsrc]

theorem window_noteTomLoop (hsrc : size ≤ src.length) (fuel : Nat) : ∀ (dst : Mem n) (off dsz s count : Nat),
    s + count ≤ size →
    noteTomLoop host (window src 0 size) fuel dst off dsz s count = noteTomLoop host src fuel dst off dsz s count := by
  induction fuel with
  | zero => exact fun _ _ _ _ _ _ => rfl
  | succ fuel ih =>
    intro dst off dsz s count hcount
    unfold noteTomLoop
    by_cases hend : count ≤ 12
    · rw [if_pos hend, if_pos hend]
    rw [if_neg hend, if_neg hend, readAt_window dst (by omega) hsrc]
    congr 1
    funext hdr dst
    dsimp only
    congr 1
    funext _ dst
    by_cases hsz : count - 12 < (roundUp4 (nativeField host false true wordField (window hdr 0 4)) +
        roundUp4 (nativeField host false true wordField (window hdr 4 4))) % 2 ^ 32 ∨
      dsz - 12 < (roundUp4 (nativeField host false true wordField (window hdr 0 4)) +
        roundUp4 (nativeField host false true wordField (window hdr 4 4))) % 2 ^ 32
    · rw [if_pos hsz, if_pos hsz]
    rw [if_neg hsz, if_neg hsz, window_copyBytes hsrc (by omega)]
    congr 1
    funext _ dst
    exact ih dst _ _ _ _ (by omega)

variable (V : VersionDef)

theorem window_auxLoop {off dsz count : Nat} (hsrc : count ≤ src.length) (cnt : Nat) :
    ∀ (dst : Mem n) (anext d s : Nat),
    auxLoop host false swap V off dsz (window src 0 count) count cnt dst anext d s =
      auxLoop host false swap V off dsz src count cnt dst anext d s := by
  induction cnt with
  | zero => exact fun _ _ _ _ => rfl
  | succ cnt ih =>
    intro dst anext d s
    unfold auxLoop
    by_cases hin : anext = 0 ∨ dsz < d + packedSize V.aux ∨ count < s + packedSize V.aux
    · rw [if_pos hin, if_pos hin]
    rw [if_neg hin, if_neg hin, readAt_window dst (by omega) hsrc]
    congr 1
    funext a dst
    dsimp only
    congr 1
    funext _ dst
    exact ih dst _ _ _

theorem window_verLoop {off dsz count : Nat} (hsrc : count ≤ src.length) (fuel : Nat) :
    ∀ (dst : Mem n) (vnext d s : Nat),
    verLoop host false swap V off dsz (window src 0 count) count fuel dst vnext d s =
      verLoop host false swap V off dsz src count fuel dst vnext d s := by
  induction fuel with
  | zero => exact fun _ _ _ _ => rfl
  | succ fuel ih =>
    intro dst vnext d s
    unfold verLoop
    by_cases hend : vnext = 0
    · rw [if_pos hend, if_pos hend]
    rw [if_neg hend, if_neg hend]
    by_cases hin : dsz < d + packedSize V.ver ∨ count < s + packedSize V.ver
    · rw [if_pos hin, if_pos hin]
    rw [if_neg hin, if_neg hin, readAt_window dst (by omega) hsrc]
    congr 1
    funext t dst
    dsimp only
    congr 1
    funext _ dst
    by_cases haux : nativeMember host false swap V.ver V.auxAt t < packedSize V.ver
    · rw [if_pos haux, if_pos haux]
    rw [if_neg haux, if_neg haux, window_auxLoop host swap V hsrc]
    congr 1
    funext _ dst
    exact ih dst _ _ _

theorem window_cvtGnuhash64 {dst : Mem n} {off dsz : Nat} (hsrc : size ≤ src.length) :
    cvtGnuhash64 host false n dst off dsz (window src 0 size) size swap =
      cvtGnuhash64 host false n dst off dsz src size swap := by
  unfold cvtGnuhash64
  by_cases hroom : dsz < 16 ∨ size < 16
  · rw [if_pos hroom, if_pos hroom]
  rw [if_neg hroom, if_neg hroom, readAt_window dst (by omega) hsrc]
  congr 1
  funext hdr dst
  generalize nativeField host false swap wordField (window hdr 0 4) = nbuckets
  generalize nativeField host false swap wordField (window hdr 8 4) = maskwords
  dsimp only
  by_cases hsz : size - 16 < nbuckets * 4 + maskwords * 8 ∨ dsz - 16 < nbuckets * 4 + maskwords * 8
  · rw [if_pos hsz, if_pos hsz]
  have hdrop : ∀ (f : Field) (k count : Nat) (dst : Mem n) (o : Nat), k + count * naturalSize [f] ≤ size →
      tofLoop host [f] swap count dst o ((window src 0 size).drop k) =
        tofLoop host [f] swap count dst o (src.drop k) := by
    intro f k count dst o hk
    rw [drop_window]
    exact window_tofLoop host swap [f] count dst o (by rw [List.length_drop]; omega) (by omega)
  have hchain : (size - 16 - (nbuckets * 4 + maskwords * 8)) / 4 % 2 ^ 32 ≤
      (size - 16 - (nbuckets * 4 + maskwords * 8)) / 4 := Nat.mod_le _ _
  rw [if_neg hsz, if_neg hsz]
  congr 1
  funext _ dst
  rw [hdrop xwordField 16 maskwords _ _ (by rw [sizes_xword.2]; omega)]
  congr 1
  funext _ dst
  rw [hdrop wordField _ nbuckets _ _ (by rw [sizes_word.2]; omega)]
  congr 1
  funext _ dst
  rw [hdrop wordField _ _ _ _ (by rw [sizes_word.2]; omega)]

/-- No translator looks past the objects it is asked to translate. -/
theorem getTranslator_window {t : ElfType} {ec : ElfClass} {cvt : Converter}
    (h : getTranslator host t false ec = some cvt) (dst : Mem n) {off dsz count : Nat}
    (hsrc : count * fsize t ec ≤ src.length) :
    cvt n dst off dsz (window src 0 (count * fsize t ec)) count swap = cvt n dst off dsz src count swap := by
  cases hvar : t.isVariable with
  | false =>
    rw [getTranslator_fixed hvar] at h
    obtain ⟨fs, hfs, rfl⟩ := Option.map_eq_some_iff.mp h
    rw [fsize_of_structDef hvar hfs] at hsrc ⊢
    unfold fixedConverter
    split
    · next hbyte =>
      subst hbyte
      rw [(byteField_same hfs host swap).1, Nat.mul_one] at hsrc ⊢
      unfold cvtByte
      rw [window_copyBytes hsrc (by omega)]
    · show cvtTom host fs n dst off dsz _ count swap = cvtTom host fs n dst off dsz src count swap
      unfold cvtTom
      rw [window_tomLoop host swap fs hsrc count dst (Nat.le_refl _)]
  | true =>
    have hone : fsize t ec = 1 := by simp [fsize, hvar]
    rw [hone, Nat.mul_one] at hsrc ⊢
    unfold getTranslator at h
    split at h
    · cases hvar
    · cases h
      show cvtNoteTom host n dst off dsz _ count swap = cvtNoteTom host n dst off dsz src count swap
      unfold cvtNoteTom
      rw [window_copyBytes hsrc (by omega), window_noteTomLoop host hsrc _ dst _ _ _ _ (by omega)]
    · cases h
      exact window_verLoop host swap verdefDef hsrc _ dst _ 0 0
    · cases h
      exact window_verLoop host swap verneedDef hsrc _ dst _ 0 0
    · cases h
      have hwords : count / 4 * packedSize [wordField] ≤ count := by
        rw [sizes_word.1]
        omega
      unfold cvtGnuhash32 cvtTom
      rw [if_neg Bool.false_ne_true, if_neg Bool.false_ne_true,
        window_tomLoop host swap [wordField] hsrc _ dst hwords]
    · cases h
      exact window_cvtGnuhash64 host swap hsrc
    · cases t <;> simp_all [ElfType.isVariable]
      cases ec <;> simp_all

end Reads

/-! ## What a translator stores -/

section Walks

variable (host : ByteOrder) (swap : Bool) (src : List UInt8)

/-- The bytes of name and descriptor that the header of a note announces. -/
def noteBody (hdr : List UInt8) : Nat :=
  (roundUp4 (nativeField host false true wordField (window hdr 0 4)) +
    roundUp4 (nativeField host false true wordField (window hdr 4 4))) % 2 ^ 32

/-- Where the walk over the `count` bytes of notes at `s` ends. The last twelve bytes or less are not
taken for a note. -/
def noteEnd : Nat → Nat → Nat → Nat
  | 0, s, _ => s
  | fuel + 1, s, count =>
    if count ≤ 12 then s
    else
      let sz := noteBody host (window src s 12)
      noteEnd fuel (s + 12 + sz) (count - 12 - sz)

/-- The `cnt` auxiliary entries that are linked from `s` on. -/
def auxRanges (V : VersionDef) : Nat → Nat → List (Nat × Nat)
  | 0, _ => []
  | cnt + 1, s =>
    let anext := nativeMember host false swap V.aux V.auxNextAt (window src s (packedSize V.aux))
    (s, packedSize V.aux) :: auxRanges V cnt (s + anext)

/-- The entries that are linked from `s` on, each with its auxiliary entries. -/
def verRanges (V : VersionDef) : Nat → Nat → Nat → List (Nat × Nat)
  | 0, _, _ => []
  | fuel + 1, vnext, s =>
    if vnext = 0 then []
    else
      let t := window src s (packedSize V.ver)
      let aux := nativeMember host false swap V.ver V.auxAt t
      let cnt := nativeMember host false swap V.ver V.cntAt t
      let vnext := nativeMember host false swap V.ver V.nextAt t
      ((s, packedSize V.ver) :: auxRanges host swap src V cnt (s + aux)) ++ verRanges V fuel vnext (s + vnext)

/-- The entries of a version section of `size` bytes. -/
def versionRanges (V : VersionDef) (size : Nat) : List (Nat × Nat) :=
  verRanges host swap src V (size + 1) 0xFFFFFFFF 0

/-- The size of the Bloom filter and the buckets of a 64-bit hash table. -/
def gnuhashTables : Nat :=
  nativeField host false swap wordField (window (window src 0 16) 0 4) * 4 +
    nativeField host false swap wordField (window (window src 0 16) 8 4) * 8

/-- The words of the chains of a 64-bit hash table of `size` bytes. -/
def gnuhashChains (size : Nat) : Nat := (size - 16 - gnuhashTables host swap src) / 4 % 2 ^ 32

/-- The walk over contents of type `t` visits all of their `size` bytes. -/
def Covered (ec : ElfClass) (t : ElfType) (size : Nat) : Prop :=
  match t, ec with
  | .note, _ => swap = true → noteEnd host src (size + 1) 0 size = size
  | .vdef, _ => ∀ i < size, InRanges (versionRanges host swap src verdefDef size) i
  | .vneed, _ => ∀ i < size, InRanges (versionRanges host swap src verneedDef size) i
  | .gnuhash, .elfclass32 => size % 4 = 0
  | .gnuhash, .elfclass64 => size = 16 + gnuhashTables host swap src + gnuhashChains host swap src size * 4
  | _, _ => True

end Walks

section Stores

variable {host : ByteOrder} {swap : Bool} {src : List UInt8} {n : Nat}

/-- Bytes that are not swapped are the bytes of the section. -/
def Raw (swap : Bool) (src : List UInt8) (i : Nat) (b : UInt8) : Prop := swap = false → src[i]? = some b

theorem raw_window {s len k : Nat} {b : UInt8} (h : (window src s len)[k]? = some b) : Raw swap src (s + k) b := by
  intro _
  rw [getElem?_window] at h
  split at h
  · exact h
  · cases h

theorem fills_copyBytes {s len : Nat} (hn : s + len ≤ n) (hsrc : s + len ≤ src.length) :
    Fills (fun m : Mem n => copyBytes m s src s len) (fun i => s ≤ i ∧ i < s + len) (Raw swap src) := by
  have hlen : (window src s len).length = len := length_window hsrc
  have hwrite : Fills (fun m : Mem n => (m.write s (window src s len) : Conversion n)) _ (Raw swap src) :=
    Fills.write (by rw [hlen]; exact hn) fun k b hb => raw_window hb
  refine hwrite.congr (fun m => ?_) (fun i => by rw [hlen])
  rw [copyBytes, readAt_of_le m hsrc, bind_ok]

/-- A table whose loop is the forward one. -/
theorem fills_tofLoop (f : Field) (hf : packedSize [f] = f.width ∧ naturalSize [f] = f.width) {s k : Nat}
    (hn : s + k * f.width ≤ n) (hsrc : s + k * f.width ≤ src.length) :
    Fills (fun m : Mem n => tofLoop host [f] swap k m s (src.drop s)) (fun i => s ≤ i ∧ i < s + k * f.width)
      (Raw swap src) := by
  have hdrop : k * naturalSize [f] ≤ (src.drop s).length := by
    rw [hf.2, List.length_drop]
    omega
  have hlen : (records (tofObject host swap [f]) (naturalSize [f]) k (src.drop s)).flatten.length = k * f.width := by
    rw [length_flatten_records (fun r hr => length_tofObject host swap hr) k _ hdrop, hf.1]
  have hfill := Fills.of_window (V := Raw swap src) (f := fun m : Mem n => tofLoop host [f] swap k m s (src.drop s))
    (Nat.le_trans (Nat.le_of_eq (congrArg (s + ·) hlen)) hn) ?_ ?_
  · exact hfill.congr (fun _ => rfl) (fun i => by rw [hlen])
  · intro m
    obtain ⟨m', hm', hframe, hwin⟩ := tofLoop_exact host swap [f] k m s _ hdrop (by rw [hf.1]; exact hn)
    rw [hf.1, ← hlen] at hframe hwin
    exact ⟨m', hm', hframe, hwin⟩
  · rintro j b hb rfl
    rw [flatten_records_of_id (fun r hr => tofObject_packed host (hf.1.trans hf.2.symm) hr) k hdrop] at hb
    have hraw : Raw false (src.drop s) (0 + j) b := raw_window hb
    rw [Nat.zero_add] at hraw
    rw [← hraw rfl, List.getElem?_drop]

/-- The objects of a fixed-size type: their members are stored, the padding is left. -/
theorem fills_tomLoop (fs : List Field) {count : Nat} (hn : count * naturalSize fs ≤ n)
    (hsrc : count * packedSize fs ≤ src.length) :
    Fills (fun m : Mem n => tomLoop host fs swap 0 src count m)
      (fun i => i < count * naturalSize fs ∧ isMember fs (i % naturalSize fs) = true)
      (fun i b => packedSize fs = naturalSize fs → Raw swap src i b) := by
  have hlen : ∀ o r, o.length = naturalSize fs → r.length = packedSize fs →
      (tomObject host swap fs o r).length = naturalSize fs := fun o r ho hr => length_tomObject host swap ho hr
  -- the values are those that are stored over zeros
  let zeros : List UInt8 := List.replicate (count * naturalSize fs) 0
  let table := recordsInto (tomObject host swap fs) (packedSize fs) (naturalSize fs) count zeros src
  have hzeros : zeros.length = count * naturalSize fs := List.length_replicate
  have htable : table.length = count * naturalSize fs := length_recordsInto hlen count (Nat.le_of_eq hzeros.symm) hsrc
  have hval : ∀ i < count * naturalSize fs, table[i]? = some (table.getD i 0) := by
    intro i hi
    rw [List.getD_eq_getElem?_getD, List.getElem?_eq_getElem (by omega)]
    rfl
  refine ⟨fun i => table.getD i 0, ?_, fun m => ?_⟩
  · rintro i ⟨hi, -⟩
    refine ⟨Nat.lt_of_lt_of_le hi hn, ?_⟩
    rintro hsize rfl
    have hid : table = window src 0 (count * packedSize fs) :=
      (recordsInto_eq (h := id) (fun o r ho hr => tomObject_packed host hsize ho hr) count (Nat.le_of_eq hzeros.symm)
        hsrc).trans (flatten_records_of_id (f := id) (fun _ _ => rfl) count hsrc)
    have hraw : table[i]? = src[i]? := by
      rw [hid, getElem?_window, hsize, if_pos hi, Nat.zero_add]
    exact hraw.symm.trans (hval i hi)
  · have hin : 0 + count * naturalSize fs ≤ n := by rwa [Nat.zero_add]
    obtain ⟨m', hm', hframe, hwin⟩ := @tomLoop_exact host swap n fs 0 src count m hsrc hin
    have hold : (window m.bytes 0 (count * naturalSize fs)).length = count * naturalSize fs :=
      length_window (by rw [m.length_eq]; exact hin)
    have hget : ∀ i < count * naturalSize fs, ∀ l : List UInt8, (window l 0 (count * naturalSize fs))[i]? = l[i]? := by
      intro i hi l
      rw [getElem?_window, if_pos hi, Nat.zero_add]
    refine ⟨m', hm', fun i => ⟨?_, fun hmiss => ?_⟩⟩
    · rintro ⟨hi, hmember⟩
      rw [← hget i hi, hwin, ← hval i hi]
      exact getElem?_recordsInto_stored hlen hold hzeros hsrc hi fun o o' r ho ho' hr =>
        getElem?_tomObject_member host swap ho ho' hr hmember
    · by_cases hi : i < count * naturalSize fs
      · have hpad : isMember fs (i % naturalSize fs) = false := Bool.eq_false_iff.mpr fun h => hmiss ⟨hi, h⟩
        rw [← hget i hi, hwin, ← hget i hi m.bytes]
        exact getElem?_recordsInto_kept hlen hold hsrc hi fun o r ho hr =>
          getElem?_tomObject_padding host swap ho hr hpad
      · exact hframe i (.inr (by omega))

/-- One turn of the loop over the notes. -/
theorem noteTomLoop_succ {fuel off dsz s count : Nat} (hend : ¬ count ≤ 12) (dst : Mem n) :
    noteTomLoop host src (fuel + 1) dst off dsz s count =
      (readAt src s 12 dst).bind fun hdr dst =>
      (dst.write off (noteHeader host true hdr)).bind fun _ dst =>
      if count - 12 < noteBody host hdr ∨ dsz - 12 < noteBody host hdr then .err () dst
      else
        (copyBytes dst (off + 12) src (s + 12) (noteBody host hdr)).bind fun _ dst =>
        noteTomLoop host src fuel dst (off + 12 + noteBody host hdr) (dsz - 12 - noteBody host hdr)
          (s + 12 + noteBody host hdr) (count - 12 - noteBody host hdr) := by
  rw [noteTomLoop, if_neg hend]
  rfl

/-- The notes up to where the walk ends. -/
theorem fills_noteTomLoop (fuel : Nat) : ∀ {m₀ m₀' : Mem n} {s dsz count : Nat}, s + dsz ≤ n → count ≤ dsz →
    s + count ≤ src.length → noteTomLoop host src fuel m₀ s dsz s count = .ok () m₀' →
    s ≤ noteEnd host src fuel s count ∧ noteEnd host src fuel s count ≤ s + count ∧
      Fills (fun m : Mem n => noteTomLoop host src fuel m s dsz s count)
        (fun i => s ≤ i ∧ i < noteEnd host src fuel s count) (Raw true src) := by
  induction fuel with
  | zero => exact fun _ _ _ h => nomatch h
  | succ fuel ih =>
    intro m₀ m₀' s dsz count hn hroom hsrc h
    unfold noteEnd
    by_cases hend : count ≤ 12
    · rw [if_pos hend]
      refine ⟨Nat.le_refl s, by omega, Fills.skip.congr (fun m => ?_) fun i => ?_⟩
      · rw [noteTomLoop, if_pos hend]
      · exact ⟨fun h => by omega, False.elim⟩
    have hread : s + 12 ≤ src.length := by omega
    have hhdr : (noteHeader host true (window src s 12)).length = 12 :=
      length_tofObject host true (length_window hread)
    have hin : s + (noteHeader host true (window src s 12)).length ≤ n := by
      rw [hhdr]
      omega
    rw [noteTomLoop_succ hend, readAt_of_le m₀ hread, bind_ok, write_of_le m₀ hin, bind_ok] at h
    rw [if_neg hend]
    dsimp only
    have hturn := fun m : Mem n => @noteTomLoop_succ host src n fuel s dsz s count hend m
    generalize hsz : noteBody host (window src s 12) = sz at h ⊢
    by_cases hbig : count - 12 < sz ∨ dsz - 12 < sz
    · rw [if_pos hbig] at h
      cases h
    rw [if_neg hbig] at h
    obtain ⟨_, m₁, hcopy, hrest⟩ := bind_eq_ok.mp h
    obtain ⟨hlo, hhi, hfill⟩ := ih (by omega) (by omega) (by omega) hrest
    have hbody : Fills (fun m : Mem n => copyBytes m (s + 12) src (s + 12) sz) _ (Raw true src) :=
      fills_copyBytes (by omega) (by omega)
    have hhead : Fills (fun m : Mem n => (m.write s (noteHeader host true (window src s 12)) : Conversion n)) _
      (Raw true src) := Fills.write hin fun _ _ _ => nofun
    refine ⟨by omega, by omega, ((hhead.bind (hbody.bind hfill)).congr (fun m => ?_) fun i => ?_)⟩
    · rw [hturn, readAt_of_le m hread, bind_ok, hsz]
      congr 1
      funext _ dst
      exact if_neg hbig
    · rw [hhdr]
      omega

variable (V : VersionDef)

/-- A structure of a version section that is not swapped. -/
theorem raw_cvtObject {fs : List Field} (hfs : naturalSize fs = packedSize fs) {s k : Nat} {b : UInt8}
    (hs : s + packedSize fs ≤ src.length)
    (h : (cvtObject host false swap fs (window src s (packedSize fs)))[k]? = some b) : Raw swap src (s + k) b := by
  rintro rfl
  rw [cvtObject, if_neg Bool.false_ne_true, tomObject_packed host hfs.symm (length_zeroObject fs) (length_window hs)] at h
  exact (raw_window h : Raw false src (s + k) b) rfl

theorem fills_auxLoop {dsz count : Nat} (hn : dsz ≤ n) (hsrc : count ≤ src.length) (cnt : Nat) :
    ∀ {m₀ m₀' : Mem n} {anext s : Nat},
    auxLoop host false swap V 0 dsz src count cnt m₀ anext s s = .ok () m₀' →
    Fills (fun m : Mem n => auxLoop host false swap V 0 dsz src count cnt m anext s s)
      (InRanges (auxRanges host swap src V cnt s)) (Raw swap src) := by
  induction cnt with
  | zero =>
    intro m₀ m₀' anext s h
    unfold auxLoop at h
    by_cases hnext : anext ≠ 0
    · rw [if_pos hnext] at h
      cases h
    refine Fills.skip.congr (fun m => ?_) fun i => ?_
    · rw [auxLoop, if_neg hnext]
    · simp [auxRanges, InRanges]
  | succ cnt ih =>
    intro m₀ m₀' anext s h
    unfold auxLoop at h
    by_cases hin : anext = 0 ∨ dsz < s + packedSize V.aux ∨ count < s + packedSize V.aux
    · rw [if_pos hin] at h
      cases h
    have hread : s + packedSize V.aux ≤ src.length := by omega
    have hobj := length_cvtObject host false swap V.size_aux (length_window hread)
    rw [if_neg hin, readAt_of_le m₀ hread, bind_ok] at h
    obtain ⟨_, m₁, hwrite, hrest⟩ := bind_eq_ok.mp h
    have hhead : Fills (fun m : Mem n => (m.write (0 + s)
        (cvtObject host false swap V.aux (window src s (packedSize V.aux))) : Conversion n)) _ (Raw swap src) :=
      Fills.write (by rw [hobj]; omega) fun k b hb => by
        rw [Nat.zero_add]
        exact raw_cvtObject V.size_aux hread hb
    refine (hhead.bind (ih hrest)).congr (fun m => ?_) fun i => ?_
    · rw [auxLoop, if_neg hin, readAt_of_le m hread, bind_ok]
    · rw [auxRanges, inRanges_cons, hobj, Nat.zero_add]

theorem fills_verLoop {dsz count : Nat} (hn : dsz ≤ n) (hsrc : count ≤ src.length) (fuel : Nat) :
    ∀ {m₀ m₀' : Mem n} {vnext s : Nat},
    verLoop host false swap V 0 dsz src count fuel m₀ vnext s s = .ok () m₀' →
    Fills (fun m : Mem n => verLoop host false swap V 0 dsz src count fuel m vnext s s)
      (InRanges (verRanges host swap src V fuel vnext s)) (Raw swap src) := by
  induction fuel with
  | zero => exact fun h => nomatch h
  | succ fuel ih =>
    intro m₀ m₀' vnext s h
    unfold verLoop at h
    by_cases hend : vnext = 0
    · refine Fills.skip.congr (fun m => ?_) fun i => ?_
      · rw [verLoop, if_pos hend]
      · rw [verRanges, if_pos hend]
        simp [InRanges]
    rw [if_neg hend] at h
    by_cases hin : dsz < s + packedSize V.ver ∨ count < s + packedSize V.ver
    · rw [if_pos hin] at h
      cases h
    have hread : s + packedSize V.ver ≤ src.length := by omega
    have hobj := length_cvtObject host false swap V.size_ver (length_window hread)
    rw [if_neg hin, readAt_of_le m₀ hread, bind_ok] at h
    obtain ⟨_, m₁, hwrite, hrest⟩ := bind_eq_ok.mp h
    by_cases haux : nativeMember host false swap V.ver V.auxAt (window src s (packedSize V.ver)) < packedSize V.ver
    · rw [if_pos haux] at hrest
      cases hrest
    rw [if_neg haux] at hrest
    obtain ⟨_, m₂, hloop, hnext⟩ := bind_eq_ok.mp hrest
    have hhead : Fills (fun m : Mem n => (m.write (0 + s)
        (cvtObject host false swap V.ver (window src s (packedSize V.ver))) : Conversion n)) _ (Raw swap src) :=
      Fills.write (by rw [hobj]; omega) fun k b hb => by
        rw [Nat.zero_add]
        exact raw_cvtObject V.size_ver hread hb
    refine (hhead.bind ((fills_auxLoop V hn hsrc _ hloop).bind (ih hnext))).congr (fun m => ?_) fun i => ?_
    · rw [verLoop, if_neg hend, if_neg hin, readAt_of_le m hread, bind_ok]
      dsimp only
      congr 1
      funext _ dst
      exact if_neg haux
    · rw [verRanges, if_neg hend, inRanges_append, inRanges_cons, hobj, Nat.zero_add, or_assoc]

/-- The header, the Bloom filter, the buckets and the chains, one after the other. -/
theorem fills_cvtGnuhash64 {size : Nat} (hn : size ≤ n) (hsrc : size ≤ src.length) {m₀ m₀' : Mem n}
    (h : cvtGnuhash64 host false n m₀ 0 size src size swap = .ok () m₀') :
    16 + gnuhashTables host swap src + gnuhashChains host swap src size * 4 ≤ size ∧
      Fills (fun m : Mem n => cvtGnuhash64 host false n m 0 size src size swap)
        (fun i => i < 16 + gnuhashTables host swap src + gnuhashChains host swap src size * 4) (Raw swap src) := by
  by_cases hroom : size < 16 ∨ size < 16
  · unfold cvtGnuhash64 at h
    rw [if_pos hroom] at h
    cases h
  have hread : 0 + 16 ≤ src.length := by omega
  obtain ⟨nbuckets, hnb⟩ : ∃ x, nativeField host false swap wordField (window (window src 0 16) 0 4) = x := ⟨_, rfl⟩
  obtain ⟨maskwords, hmw⟩ : ∃ x, nativeField host false swap wordField (window (window src 0 16) 8 4) = x := ⟨_, rfl⟩
  have htables : gnuhashTables host swap src = nbuckets * 4 + maskwords * 8 := by rw [gnuhashTables, hnb, hmw]
  obtain ⟨chains, hch⟩ : ∃ x, gnuhashChains host swap src size = x := ⟨_, rfl⟩
  have hrest : chains * 4 ≤ size - 16 - (nbuckets * 4 + maskwords * 8) := by
    have hmod : chains ≤ (size - 16 - (nbuckets * 4 + maskwords * 8)) / 4 := by
      rw [← hch, gnuhashChains, htables]
      exact Nat.mod_le _ _
    omega
  by_cases hsz : size - 16 < nbuckets * 4 + maskwords * 8 ∨ size - 16 < nbuckets * 4 + maskwords * 8
  · unfold cvtGnuhash64 at h
    rw [if_neg hroom, readAt_of_le m₀ hread, bind_ok, hnb, hmw] at h
    dsimp only at h
    rw [if_pos hsz] at h
    cases h
  have hrun : ∀ m : Mem n, cvtGnuhash64 host false n m 0 size src size swap =
      (tofLoop host [wordField] swap 4 m 0 (src.drop 0)).bind fun _ m =>
      (tofLoop host [xwordField] swap maskwords m 16 (src.drop 16)).bind fun _ m =>
      (tofLoop host [wordField] swap nbuckets m (16 + maskwords * 8) (src.drop (16 + maskwords * 8))).bind fun _ m =>
      tofLoop host [wordField] swap chains m (16 + maskwords * 8 + nbuckets * 4)
        (src.drop (16 + maskwords * 8 + nbuckets * 4)) := by
    intro m
    have hheader := window_tofLoop host swap [wordField] 4 m 0 (by omega : 16 ≤ src.length)
      (Nat.le_of_eq (by rw [sizes_word.2]))
    unfold cvtGnuhash64
    rw [if_neg hroom, readAt_of_le m hread, bind_ok, hnb, hmw, List.drop_zero, ← hheader]
    dsimp only
    rw [if_neg hsz, ← hch, gnuhashChains, htables]
    simp only [Nat.zero_add, lt_irrefl, if_false]
  have hhead : Fills (fun m : Mem n => tofLoop host [wordField] swap 4 m 0 (src.drop 0)) _ (Raw swap src) :=
    fills_tofLoop wordField sizes_word (by simp only [wordField]; omega) (by simp only [wordField]; omega)
  have hfilter : Fills (fun m : Mem n => tofLoop host [xwordField] swap maskwords m 16 (src.drop 16)) _ (Raw swap src) :=
    fills_tofLoop xwordField sizes_xword (by simp only [xwordField]; omega) (by simp only [xwordField]; omega)
  have hbuckets : Fills (fun m : Mem n => tofLoop host [wordField] swap nbuckets m (16 + maskwords * 8)
      (src.drop (16 + maskwords * 8))) _ (Raw swap src) :=
    fills_tofLoop wordField sizes_word (by simp only [wordField]; omega) (by simp only [wordField]; omega)
  have hchains : Fills (fun m : Mem n => tofLoop host [wordField] swap chains m (16 + maskwords * 8 + nbuckets * 4)
      (src.drop (16 + maskwords * 8 + nbuckets * 4))) _ (Raw swap src) :=
    fills_tofLoop wordField sizes_word (by simp only [wordField]; omega) (by simp only [wordField]; omega)
  refine ⟨by omega, (hhead.bind (hfilter.bind (hbuckets.bind hchains))).congr hrun fun i => ?_⟩
  simp only [wordField, xwordField]
  omega

/-- A translator of a fixed-size type stores all bytes but the padding. -/
theorem fills_fixedConverter {t : ElfType} {ec : ElfClass} {fs : List Field} {count : Nat}
    (hfs : structDef ec t = some fs) (hsrc : count * packedSize fs ≤ src.length) (hn : n = count * naturalSize fs) :
    Fills (fun m : Mem n => fixedConverter host t false fs n m 0 n src count swap)
      (fun i => i < n ∧ storesByte t ec false i = true) fun _ _ => True := by
  have hstores : ∀ i, storesByte t ec false i = isMember fs (i % naturalSize fs) := by
    intro i
    simp [storesByte, hfs]
  by_cases hbyte : t = .byte
  · subst hbyte
    obtain ⟨hp, hm, -⟩ := byteField_same hfs host swap
    rw [hp, Nat.mul_one] at hsrc
    rw [hm, Nat.mul_one] at hn
    have hcopy : Fills (fun m : Mem n => copyBytes m 0 src 0 count) _ fun _ _ => True :=
      (@fills_copyBytes swap _ _ 0 count (by omega) (by omega)).mono fun _ _ _ => trivial
    refine hcopy.congr (fun m => ?_) fun i => ?_
    · rw [fixedConverter, if_pos rfl, cvtByte, if_neg (by omega)]
    · rw [storesByte_of_ne_move ec (.inr (by decide)) i, and_iff_left rfl]
      omega
  · have hloop : Fills (fun m : Mem n => tomLoop host fs swap 0 src count m) _ fun _ _ => True :=
      (fills_tomLoop fs (Nat.le_of_eq hn.symm) hsrc).mono fun _ _ _ => trivial
    refine hloop.congr (fun m => ?_) fun i => ?_
    · rw [fixedConverter, if_neg hbyte, if_neg Bool.false_ne_true, cvtTom, if_neg (by omega)]
    · rw [hstores, hn]

/-- The bytes a translator stores are all bytes but the padding exactly when the walk of the type covers the
contents. -/
theorem fills_getTranslator {t : ElfType} {ec : ElfClass} {cvt : Converter} {count : Nat}
    (h : getTranslator host t false ec = some cvt) (hsrc : count * fsize t ec ≤ src.length)
    (hn : n = msize t ec * count) {m₀ m₀' : Mem n} (hrun : cvt n m₀ 0 n src count swap = .ok () m₀') :
    ∃ W, Fills (fun m : Mem n => cvt n m 0 n src count swap) W (fun i b => t.isVariable = true → Raw swap src i b) ∧
      (∀ i, W i → storesByte t ec false i = true) ∧
      ((∀ i < n, storesByte t ec false i = true → W i) ↔ Covered host swap src ec t n) := by
  cases hvar : t.isVariable with
  | false =>
    rw [getTranslator_fixed hvar] at h
    obtain ⟨fs, hfs, rfl⟩ := Option.map_eq_some_iff.mp h
    rw [fsize_of_structDef hvar hfs] at hsrc
    rw [msize_of_structDef hvar hfs, Nat.mul_comm] at hn
    have hcov : Covered host swap src ec t n := by
      cases t <;> first
        | exact trivial
        | cases hvar
    exact ⟨_, (fills_fixedConverter hfs hsrc hn).mono fun _ _ _ => (by rintro ⟨⟩), fun _ hi => hi.2,
      fun _ => hcov, fun _ i hi hstores => ⟨hi, hstores⟩⟩
  | true =>
    have hone : fsize t ec = 1 := by simp [fsize, hvar]
    have hmone : msize t ec = 1 := by simp [msize, hvar]
    have hstores : ∀ i, storesByte t ec false i = true :=
      storesByte_of_ne_move ec (.inr fun hmove => by subst hmove; cases hvar)
    rw [hone, Nat.mul_one] at hsrc
    rw [hmone, Nat.one_mul] at hn
    subst hn
    have hsame : ∀ {W : Nat → Prop}, Fills (fun m : Mem n => cvt n m 0 n src n swap) W (Raw swap src) →
        ((∀ i < n, W i) ↔ Covered host swap src ec t n) →
        ∃ W, Fills (fun m : Mem n => cvt n m 0 n src n swap) W (fun i b => true = true → Raw swap src i b) ∧
          (∀ i, W i → storesByte t ec false i = true) ∧
          ((∀ i < n, storesByte t ec false i = true → W i) ↔ Covered host swap src ec t n) :=
      fun hfill hall => ⟨_, hfill.mono fun _ _ hraw _ => hraw, fun i _ => hstores i,
        Iff.trans ⟨fun h i hi => h i hi (hstores i), fun h i hi _ => h i hi⟩ hall⟩
    unfold getTranslator at h
    split at h
    · cases hvar
    · cases h
      change cvtNoteTom host n m₀ 0 n src n swap = _ at hrun
      have hsize : ¬ n < 12 := by
        intro hlt
        rw [cvtNoteTom, if_neg (lt_irrefl n), if_pos hlt] at hrun
        cases hrun
      cases swap with
      | false =>
        have hcopy : Fills (fun m : Mem n => copyBytes m 0 src 0 n) _ (Raw false src) :=
          fills_copyBytes (by omega) (by omega)
        refine hsame (hcopy.congr (fun m => ?_) fun _ => Iff.rfl) ?_
        · show cvtNoteTom host n m 0 n src n false = _
          rw [cvtNoteTom, if_neg (lt_irrefl n), if_neg hsize, if_pos (by rfl)]
        · exact ⟨fun _ => (by rintro ⟨⟩), fun _ i hi => by omega⟩
      | true =>
        have hloop : ∀ m : Mem n, cvtNoteTom host n m 0 n src n true = noteTomLoop host src (n + 1) m 0 n 0 n := by
          intro m
          rw [cvtNoteTom, if_neg (lt_irrefl n), if_neg hsize, if_neg (by decide)]
        rw [hloop] at hrun
        obtain ⟨-, hle, hfill⟩ := fills_noteTomLoop (n + 1) (by omega) (Nat.le_refl n) (by omega) hrun
        refine hsame (hfill.congr hloop fun _ => Iff.rfl) ?_
        show (∀ i < n, 0 ≤ i ∧ i < _) ↔ (true = true → _)
        constructor
        · intro hall _
          by_contra hne
          have := (hall (n - 1) (by omega)).2
          omega
        · intro hend i hi
          exact ⟨Nat.zero_le i, by rw [hend rfl]; exact hi⟩
    · cases h
      exact hsame (fills_verLoop verdefDef (Nat.le_refl n) hsrc _ hrun) Iff.rfl
    · cases h
      exact hsame (fills_verLoop verneedDef (Nat.le_refl n) hsrc _ hrun) Iff.rfl
    · cases h
      have hsizes : packedSize [wordField] = naturalSize [wordField] := by rw [sizes_word.1, sizes_word.2]
      have hloop : Fills (fun m : Mem n => tomLoop host [wordField] swap 0 src (n / 4) m) _ (Raw swap src) :=
        (fills_tomLoop [wordField] (by rw [sizes_word.2]; omega) (by rw [sizes_word.1]; omega)).mono
          fun _ _ hraw => hraw hsizes
      have hfill : Fills (fun m : Mem n => tomLoop host [wordField] swap 0 src (n / 4) m)
          (fun i => i < n / 4 * 4) (Raw swap src) := by
        refine hloop.congr (fun _ => rfl) fun i => ?_
        rw [isMember_packed hsizes (Nat.mod_lt i (by rw [sizes_word.2]; decide)), sizes_word.2]
        exact (and_iff_left rfl).symm
      refine hsame (hfill.congr (fun m => ?_) fun _ => Iff.rfl) ?_
      · show cvtTom host [wordField] n m 0 n src (n / 4) swap = _
        rw [cvtTom, if_neg (by rw [sizes_word.2]; omega)]
      · show (∀ i < n, i < n / 4 * 4) ↔ n % 4 = 0
        constructor
        · intro hall
          by_contra hne
          have := hall (n - 1) (by omega)
          omega
        · intro hmod i hi
          omega
    · cases h
      obtain ⟨hle, hfill⟩ := fills_cvtGnuhash64 (Nat.le_refl n) hsrc hrun
      refine hsame hfill ?_
      show (∀ i < n, i < _) ↔ n = _
      constructor
      · intro hall
        by_contra hne
        have := hall (n - 1) (by omega)
        omega
      · intro heq i hi
        exact heq ▸ hi
    · cases t <;> simp_all [ElfType.isVariable]
      cases ec <;> simp_all

end Stores

/-! ## The data of a section -/

section Data

variable {env : Env} {e e' : Elf} {ec : ElfClass} {i : Nat} {s s' : Scn} {d : ElfData} {b : Buf}

/-- A first read of contents that pass the checks. -/
theorem getdata_first {t : ElfType} {count : Nat} {xlate : Converter} (hfirst : s.sData = [])
    (hraw : e.eRawfile ≠ none) (hc : contentsOf e ec s.shdr = .ok (t, count))
    (hfull : ¬ (s.shdr.shType = shtNobits ∨ ec.get s.shdr.shSize = 0))
    (hx : getTranslator env.host t false ec = some xlate) :
    getdata env e ec s =
      match xlate (msize t ec * count) (.fresh env.heap _) 0 (msize t ec * count)
          (e.rawbytes.drop (ec.get s.shdr.shOffset)) count (e.swaps env) with
      | .stop f => .stop f
      | .err _ _ => .err .DATA s
      | .ok _ m =>
        let d := translated env e ec s.shdr t m (contentsOf_ok hc).2.2.2
        .ok d { s with sData := [d] } := by
  unfold getdata
  simp only [hfirst, if_neg hraw, hc, if_neg hfull, hx, dif_pos (contentsOf_ok hc).2.2.2]
  cases xlate (msize t ec * count) (fresh env.heap _) 0 (msize t ec * count)
    (e.rawbytes.drop (ec.get s.shdr.shOffset)) count (e.swaps env) <;> rfl

theorem contentsOf_type {h : Shdr} {t : ElfType} {count : Nat} (hc : contentsOf e ec h = .ok (t, count)) :
    xlateShtype h.shType = some t := by
  unfold contentsOf at hc
  split at hc
  · cases hc
  split at hc
  · cases hc
  next hx =>
  split at hc
  · cases hc
  split at hc
  · cases hc
  split at hc
  · cases hc
  dsimp only at hc
  split at hc
  · cases hc
  · cases hc
    exact hx

def sectionBytes (e : Elf) (ec : ElfClass) (h : Shdr) : List UInt8 :=
  window e.rawbytes (ec.get h.shOffset) (ec.get h.shSize)

theorem length_sectionBytes {h : Shdr} (hin : ¬ outOfImage e ec h) (hbits : h.shType ≠ shtNobits) :
    (sectionBytes e ec h).length = ec.get h.shSize := by
  have hlen := e.length_rawbytes
  have hroom : ¬ (e.rawsize < ec.get h.shOffset ∨ e.rawsize - ec.get h.shOffset < ec.get h.shSize) :=
    fun hout => hin ⟨hbits, hout⟩
  exact length_window (by omega)

/-- The translator of a section's type sees the section's bytes alone. -/
theorem xlate_sectionBytes {h : Shdr} {t : ElfType} {count n : Nat} {xlate : Converter}
    (hc : contentsOf e ec h = .ok (t, count)) (hbits : h.shType ≠ shtNobits)
    (hx : getTranslator env.host t false ec = some xlate) (m : Mem n) (swap : Bool) :
    xlate n m 0 n (e.rawbytes.drop (ec.get h.shOffset)) count swap =
      xlate n m 0 n (sectionBytes e ec h) count swap := by
  obtain ⟨hin, -, hsize, -⟩ := contentsOf_ok hc
  have hlen := length_sectionBytes hin hbits
  have hbytes : window (e.rawbytes.drop (ec.get h.shOffset)) 0 (count * fsize t ec) = sectionBytes e ec h := by
    rw [Nat.mul_comm, ← hsize]
    rfl
  have hsrc : count * fsize t ec ≤ (e.rawbytes.drop (ec.get h.shOffset)).length := by
    rw [Nat.mul_comm, ← hsize, ← hlen, ← hbytes]
    exact List.length_take_le' _ _
  rw [← getTranslator_window env.host swap hx m hsrc, hbytes]

/-- A first read that returned a buffer. -/
theorem getdata_buffer (hg : getdata env e ec s = .ok d s') (hfirst : s.sData = []) (hb : d.dBuf = some b) :
    e.eRawfile ≠ none ∧ ¬ (s.shdr.shType = shtNobits ∨ ec.get s.shdr.shSize = 0) ∧
      ∃ t count xlate m, contentsOf e ec s.shdr = .ok (t, count) ∧
        getTranslator env.host t false ec = some xlate ∧
        xlate (msize t ec * count) (.fresh env.heap _) 0 (msize t ec * count)
          (sectionBytes e ec s.shdr) count (e.swaps env) = .ok () m ∧ b.bytes = m.bytes := by
  have hraw : e.eRawfile ≠ none := by
    intro hnone
    simp only [getdata, hfirst, hnone, if_true] at hg
    cases hg
  obtain ⟨-, t, count, hc, -, -, -, -, -, hnull⟩ := getdata_ok hg hfirst
  have hfull : ¬ (s.shdr.shType = shtNobits ∨ ec.get s.shdr.shSize = 0) := by
    intro hempty
    rw [hnull.mpr hempty] at hb
    cases hb
  obtain ⟨xlate, hx⟩ := Option.isSome_iff_exists.mp
    (getTranslator_isSome env.host (contentsOf_ok hc).2.1 false)
  rw [getdata_first hfirst hraw hc hfull hx] at hg
  split at hg
  · cases hg
  · cases hg
  next m hm =>
  rw [xlate_sectionBytes hc (fun hbits => hfull (.inl hbits)) hx] at hm
  cases hg
  cases hb
  exact ⟨hraw, hfull, t, count, xlate, m, hc, hx, hm, rfl⟩

theorem elfGetdata_ok (hclass : e.eClass = some ec) (hs : e.eScn[i]? = some s) (hg : elfGetdata env i e = .ok d e') :
    ∃ s', getdata env e ec s = .ok d s' := by
  rw [elfGetdata, onScn_of_some hclass hs] at hg
  obtain ⟨s', hs', -⟩ := within_eq_ok.mp hg
  exact ⟨s', hs'⟩

/-- The bytes that a first read of section `i` returned come from the file, at the positions `P`. -/
structure FromFile (env : Env) (e : Elf) (ec : ElfClass) (i : Nat) (s : Scn) (P : Nat → Prop) (b : Buf) : Prop where
  /-- Whatever `malloc` returns, the read gives the same bytes. -/
  written : ∀ heap, ∃ d e' b', elfGetdata { env with heap := heap } i e = .ok d e' ∧ d.dBuf = some b' ∧
    AgreeOn P b'.bytes b.bytes
  /-- The same bytes in a section of the same type, in any file of the class and byte order, are read
  alike. -/
  function : ∀ (env₁ : Env) (e₁ e₁' : Elf) (i₁ : Nat) (s₁ : Scn) (d₁ : ElfData) (b₁ : Buf), env₁.host = env.host →
    e₁.eClass = some ec → e₁.swaps env₁ = e.swaps env → e₁.eScn[i₁]? = some s₁ → s₁.sData = [] →
    s₁.shdr.shType = s.shdr.shType → sectionBytes e₁ ec s₁.shdr = sectionBytes e ec s.shdr →
    elfGetdata env₁ i₁ e₁ = .ok d₁ e₁' → d₁.dBuf = some b₁ → AgreeOn P b₁.bytes b.bytes
  /-- Contents of variable size in the byte order of the host are read as they are. -/
  raw : ∀ t, xlateShtype s.shdr.shType = some t → t.isVariable = true → e.swaps env = false →
    b.bytes = sectionBytes e ec s.shdr

/-- The walk over the contents of a section visits all of them. -/
def WalkCovers (host : ByteOrder) (swap : Bool) (ec : ElfClass) (sht : UInt32) (bs : List UInt8) : Prop :=
  ∀ t, xlateShtype sht = some t → Covered host swap bs ec t bs.length

/-- The bytes of a buffer that belong to a member of its structures. -/
def MemberByte (ec : ElfClass) (sht : UInt32) (j : Nat) : Prop :=
  ∀ t, xlateShtype sht = some t → storesByte t ec false j = true

/-- Only the walks over contents of variable size can miss a byte. -/
theorem covered_iff {host : ByteOrder} {swap : Bool} {bs : List UInt8} {t : ElfType} {n n' : Nat}
    (h : t.isVariable = true → n = n') : Covered host swap bs ec t n ↔ Covered host swap bs ec t n' := by
  cases hvar : t.isVariable with
  | true => rw [h hvar]
  | false =>
    have hfixed : ∀ n, Covered host swap bs ec t n := by
      intro n
      cases t <;> first
        | exact trivial
        | cases hvar
    exact iff_of_true (hfixed n) (hfixed n')

/-- What a first read stores, and how much of the buffer that is. -/
theorem getdata_fills (hg : getdata env e ec s = .ok d s') (hfirst : s.sData = []) (hb : d.dBuf = some b) :
    ∃ t count xlate m W, contentsOf e ec s.shdr = .ok (t, count) ∧ getTranslator env.host t false ec = some xlate ∧
      xlate (msize t ec * count) (.fresh env.heap _) 0 (msize t ec * count) (sectionBytes e ec s.shdr) count
        (e.swaps env) = .ok () m ∧ b.bytes = m.bytes ∧
      Fills (fun m : Mem (msize t ec * count) => xlate _ m 0 (msize t ec * count) (sectionBytes e ec s.shdr) count
        (e.swaps env)) W (fun i b => t.isVariable = true → Raw (e.swaps env) (sectionBytes e ec s.shdr) i b) ∧
      (∀ j, W j → MemberByte ec s.shdr.shType j) ∧
      ((∀ j < msize t ec * count, MemberByte ec s.shdr.shType j → W j) ↔
        WalkCovers env.host (e.swaps env) ec s.shdr.shType (sectionBytes e ec s.shdr)) := by
  obtain ⟨-, hfull, t, count, xlate, m, hc, hx, hm, hbytes⟩ := getdata_buffer hg hfirst hb
  obtain ⟨hin, -, hsize, -⟩ := contentsOf_ok hc
  have hlen := length_sectionBytes hin fun hbits => hfull (.inl hbits)
  have hsrc : count * fsize t ec ≤ (sectionBytes e ec s.shdr).length := by
    rw [hlen, hsize, Nat.mul_comm]
  have honly : ∀ {P : ElfType → Prop}, (∀ t', xlateShtype s.shdr.shType = some t' → P t') ↔ P t := by
    intro P
    rw [contentsOf_type hc]
    exact ⟨fun h => h t rfl, fun h t' ht' => Option.some.inj ht' ▸ h⟩
  obtain ⟨W, hfill, hstores, hall⟩ := fills_getTranslator hx hsrc rfl hm
  refine ⟨t, count, xlate, m, W, hc, hx, hm, hbytes, hfill, fun j hj => honly.mpr (hstores j hj), ?_⟩
  have hmember : ∀ j, MemberByte ec s.shdr.shType j ↔ storesByte t ec false j = true := fun j => honly
  simp only [hmember]
  rw [hall, WalkCovers, honly]
  refine covered_iff fun hvar => ?_
  rw [hlen, hsize]
  simp [fsize, msize, hvar]

/-- The bytes `elf_getdata` returns at the positions `P`, among them all members, come from the file exactly when the
walk of the section's type visits all of the section and `P` has no padding. -/
theorem getdata_fromFile_on (hclass : e.eClass = some ec) (hs : e.eScn[i]? = some s) (hfirst : s.sData = [])
    (hg : elfGetdata env i e = .ok d e') (hb : d.dBuf = some b) {P : Nat → Prop}
    (hP : ∀ j, MemberByte ec s.shdr.shType j → P j) :
    FromFile env e ec i s P b ↔
      WalkCovers env.host (e.swaps env) ec s.shdr.shType (sectionBytes e ec s.shdr) ∧
        ∀ j < b.bytes.length, P j → MemberByte ec s.shdr.shType j := by
  obtain ⟨s', hget⟩ := elfGetdata_ok hclass hs hg
  obtain ⟨hraw, hfull, -⟩ := getdata_buffer hget hfirst hb
  obtain ⟨t, count, xlate, m, W, hc, hx, hm, hbytes, hfill, hmember, hwalk⟩ := getdata_fills hget hfirst hb
  rw [← hwalk, hbytes, m.length_eq]
  have hstored : FromFile env e ec i s P b → ∀ j < msize t ec * count, P j → W j := by
    intro h j hj hPj
    by_contra hmiss
    -- the byte that is left alone shows a heap with other contents
    obtain ⟨d₁, e₁, b₁, hg₁, hb₁, -, hsame⟩ := h.written fun k => env.heap k + 1
    obtain ⟨s₁, hget₁⟩ := elfGetdata_ok hclass hs hg₁
    obtain ⟨-, -, t₁, count₁, xlate₁, m₁, hc₁, hx₁, hm₁, hbytes₁⟩ := getdata_buffer hget₁ hfirst hb₁
    obtain ⟨rfl, rfl⟩ := Prod.mk.inj (Except.ok.inj (hc.symm.trans hc₁))
    obtain rfl := Option.some.inj (hx.symm.trans hx₁)
    have heq := hsame j hPj
    rw [hbytes₁, hbytes] at heq
    exact hfill.leaks hj hmiss hm₁ hm heq
  constructor
  · intro h
    exact ⟨fun j hj hmem => hstored h j hj (hP j hmem), fun j hj hPj => hmember j (hstored h j hj hPj)⟩
  · rintro ⟨hall, hno⟩
    have hcover : ∀ j < msize t ec * count, P j → W j := fun j hj hPj => hall j hj (hno j hj hPj)
    refine ⟨fun heap => ?_, ?_, ?_⟩
    · obtain ⟨m₁, m₂, hm₁, hm₂, hagree⟩ := hfill.agree hcover (.fresh heap _) (.fresh env.heap _)
      obtain ⟨-, rfl⟩ := Outcome.ok.inj (hm.symm.trans hm₂)
      have hswap : e.swaps { env with heap := heap } = e.swaps env := rfl
      have hget₁ := @getdata_first { env with heap := heap } e ec s t count xlate hfirst hraw hc hfull hx
      rw [xlate_sectionBytes hc (fun hbits => hfull (.inl hbits)) hx, hswap, hm₁] at hget₁
      have hcall := @onScn_of_some e ec i s _ (getdata { env with heap := heap }) hclass hs
      rw [hget₁, within_ok] at hcall
      exact ⟨_, _, ⟨env.heapAddr, m₁.bytes⟩, hcall, rfl, by rw [hbytes]; exact hagree⟩
    · intro env₁ e₁ e₁' i₁ s₁ d₁ b₁ hhost hclass₁ hswap hs₁ hfirst₁ htype hsame hg₁ hb₁
      obtain ⟨s₁', hget₁⟩ := elfGetdata_ok hclass₁ hs₁ hg₁
      obtain ⟨-, hfull₁, t₁, count₁, xlate₁, m₁, hc₁, hx₁, hm₁, hbytes₁⟩ := getdata_buffer hget₁ hfirst₁ hb₁
      have ht : t₁ = t := by
        have := contentsOf_type hc₁
        rw [htype, contentsOf_type hc] at this
        exact (Option.some.inj this).symm
      subst ht
      have hcount : count₁ = count := by
        have hlen₁ := length_sectionBytes (contentsOf_ok hc₁).1 fun hbits => hfull₁ (.inl hbits)
        have hlen := length_sectionBytes (contentsOf_ok hc).1 fun hbits => hfull (.inl hbits)
        rw [hsame, hlen, (contentsOf_ok hc).2.2.1, (contentsOf_ok hc₁).2.2.1] at hlen₁
        exact (Nat.eq_of_mul_eq_mul_left (contentsOf_ok hc).2.1 hlen₁).symm
      subst hcount
      rw [hhost] at hx₁
      obtain rfl := Option.some.inj (hx.symm.trans hx₁)
      rw [hsame, hswap] at hm₁
      obtain ⟨m₂, m₃, hm₂, hm₃, hagree⟩ := hfill.agree hcover (.fresh env₁.heap _) (.fresh env.heap _)
      obtain ⟨-, rfl⟩ := Outcome.ok.inj (hm₁.symm.trans hm₂)
      obtain ⟨-, rfl⟩ := Outcome.ok.inj (hm.symm.trans hm₃)
      rw [hbytes₁, hbytes]
      exact hagree
    · intro t' ht' hvar hswap
      rw [contentsOf_type hc] at ht'
      cases ht'
      have hmem : ∀ j, MemberByte ec s.shdr.shType j := by
        intro j t' ht'
        rw [contentsOf_type hc] at ht'
        cases ht'
        exact storesByte_of_ne_move ec (.inr fun hmove => by subst hmove; cases hvar) j
      have hlen := length_sectionBytes (contentsOf_ok hc).1 fun hbits => hfull (.inl hbits)
      have hsize : msize t ec * count = (sectionBytes e ec s.shdr).length := by
        rw [hlen, (contentsOf_ok hc).2.2.1]
        simp [fsize, msize, hvar]
      rw [hbytes]
      apply List.ext_getElem?
      intro j
      by_cases hj : j < msize t ec * count
      · obtain ⟨v, hv, hval⟩ := hfill.values hm (hall j hj (hmem j))
        rw [hv, hval hvar hswap]
      · rw [List.getElem?_eq_none (by rw [m.length_eq]; omega), List.getElem?_eq_none (by omega)]

/-- The bytes `elf_getdata` returns come from the file exactly when the walk of the section's type visits
all of the section and its structures have no padding in memory. Without the padding, the walk alone
decides. -/
theorem getdata_fromFile_iff (hclass : e.eClass = some ec) (hs : e.eScn[i]? = some s) (hfirst : s.sData = [])
    (hg : elfGetdata env i e = .ok d e') (hb : d.dBuf = some b) :
    (FromFile env e ec i s (fun _ => True) b ↔
      WalkCovers env.host (e.swaps env) ec s.shdr.shType (sectionBytes e ec s.shdr) ∧
        xlateShtype s.shdr.shType ≠ some .move) ∧
    (FromFile env e ec i s (MemberByte ec s.shdr.shType) b ↔
      WalkCovers env.host (e.swaps env) ec s.shdr.shType (sectionBytes e ec s.shdr)) := by
  refine ⟨(getdata_fromFile_on hclass hs hfirst hg hb fun _ _ => trivial).trans (and_congr_right fun _ => ?_),
    (getdata_fromFile_on hclass hs hfirst hg hb fun _ h => h).trans (and_iff_left fun _ _ h => h)⟩
  constructor
  · intro hno hmove
    obtain ⟨s', hget⟩ := elfGetdata_ok hclass hs hg
    obtain ⟨-, hfull, t, count, xlate, m, hc, -, -, hbytes⟩ := getdata_buffer hget hfirst hb
    obtain ⟨j, hj, hpad⟩ := move_padding ec
    have ht : t = .move := Option.some.inj ((contentsOf_type hc).symm.trans hmove)
    subst ht
    -- a section that is not empty has a record
    have hcount : 0 < count := by
      refine Nat.pos_of_ne_zero fun hzero => hfull (.inr ?_)
      rw [(contentsOf_ok hc).2.2.1, hzero, Nat.mul_zero]
    have hlen : j < b.bytes.length := by
      rw [hbytes, m.length_eq]
      exact Nat.lt_of_lt_of_le hj (Nat.le_mul_of_pos_right _ hcount)
    rw [hno j hlen trivial _ hmove] at hpad
    cases hpad
  · intro hne j _ _ t ht
    exact storesByte_of_ne_move ec (.inr fun hmove => hne (hmove ▸ ht)) j

end Data

/-- A big-endian file of class 32 with one section of notes, which holds one note without name and
descriptor. -/
def noteImage : Image where
  addr := 4096
  bytes := [0x7F, 0x45, 0x4C, 0x46, 1, 2, 1, 0, 0, 0, 0, 0, 0, 0, 0, 0,
    0, 1, 0, 0, 0, 0, 0, 1, 0, 0, 0, 0, 0, 0, 0, 0, 0, 0, 0, 64, 0, 0, 0, 0, 0, 52, 0, 0, 0, 0, 0, 40, 0, 2, 0, 0,
    0, 0, 0, 0, 0, 0, 0, 0, 0, 0, 0, 1] ++ List.replicate 40 0 ++
    [0, 0, 0, 0, 0, 0, 0, 7, 0, 0, 0, 0, 0, 0, 0, 0, 0, 0, 0, 52, 0, 0, 0, 12, 0, 0, 0, 0, 0, 0, 0, 0, 0, 0, 0, 4,
      0, 0, 0, 0]
  size_lt := by simp

set_option maxRecDepth 2000 in
theorem getdata_fromFile_iff_note : ∃ e₀ e e' s d b, openObject plainEnv .read noteImage = .ok (some e₀) ∧
    elfGetscn plainEnv 1 e₀ = .ok 1 e ∧ elfGetdata plainEnv 1 e = .ok d e' ∧ d.dBuf = some b ∧
    (FromFile plainEnv e .elfclass32 1 s (fun _ => True) b ↔
      WalkCovers .little true .elfclass32 s.shdr.shType (sectionBytes e .elfclass32 s.shdr) ∧
        xlateShtype s.shdr.shType ≠ some .move) ∧
    (FromFile plainEnv e .elfclass32 1 s (MemberByte .elfclass32 s.shdr.shType) b ↔
      WalkCovers .little true .elfclass32 s.shdr.shType (sectionBytes e .elfclass32 s.shdr)) := by
  have hopen : ∃ e₀ e s, openObject plainEnv .read noteImage = .ok (some e₀) ∧ elfGetscn plainEnv 1 e₀ = .ok 1 e ∧
      e.eClass = some .elfclass32 ∧ e.eScn[1]? = some s ∧ s.sData = [] ∧ e.swaps plainEnv = true ∧
      (elfGetdata plainEnv 1 e).returns (fun d _ => d.dBuf.isSome) = true :=
    ⟨_, _, _, rfl, rfl, rfl, rfl, rfl, rfl, rfl⟩
  obtain ⟨e₀, e, s, he₀, he, hclass, hs, hfirst, hswap, hget⟩ := hopen
  obtain ⟨d, e', hg, hsome⟩ := exists_of_returns hget
  obtain ⟨b, hb⟩ := Option.isSome_iff_exists.mp hsome
  have hiff := getdata_fromFile_iff hclass hs hfirst hg hb
  rw [hswap] at hiff
  exact ⟨e₀, e, e', s, d, b, he₀, he, hg, hb, hiff⟩

set_option maxRecDepth 2000 in
/-- The only note of the section is the last one, and nothing is stored for it. -/
theorem noteImage_unwritten : ∃ e₀ e e' s d b, openObject plainEnv .read noteImage = .ok (some e₀) ∧
    elfGetscn plainEnv 1 e₀ = .ok 1 e ∧ e.eClass = some .elfclass32 ∧ e.eScn[1]? = some s ∧ s.sData = [] ∧
    elfGetdata plainEnv 1 e = .ok d e' ∧ d.dBuf = some b ∧
    ¬ FromFile plainEnv e .elfclass32 1 s (fun _ => True) b := by
  have hopen : ∃ e₀ e s, openObject plainEnv .read noteImage = .ok (some e₀) ∧ elfGetscn plainEnv 1 e₀ = .ok 1 e ∧
      e.eClass = some .elfclass32 ∧ e.eScn[1]? = some s ∧ s.sData = [] ∧
      (elfGetdata plainEnv 1 e).returns
        (fun d _ => d.dBuf.map Buf.bytes = some (List.replicate 12 0)) = true ∧
      (elfGetdata { plainEnv with heap := fun _ => 1 } 1 e).returns
        (fun d _ => d.dBuf.map Buf.bytes = some (List.replicate 12 1)) = true :=
    ⟨_, _, _, rfl, rfl, rfl, rfl, rfl, by decide +kernel, by decide +kernel⟩
  obtain ⟨e₀, e, s, he₀, he, hclass, hs, hfirst, hzero, hone⟩ := hopen
  obtain ⟨d, e', hg, hzero⟩ := exists_of_returns hzero
  obtain ⟨b, hb, hbytes⟩ := Option.map_eq_some_iff.mp (of_decide_eq_true hzero)
  refine ⟨e₀, e, e', s, d, b, he₀, he, hclass, hs, hfirst, hg, hb, fun h => ?_⟩
  obtain ⟨d₁, e₁, b₁, hg₁, hb₁, -, hsame⟩ := h.written fun _ => 1
  rw [hg₁] at hone
  have hbytes₁ := of_decide_eq_true hone
  rw [hb₁, Option.map_some, Option.some.injEq] at hbytes₁
  have hfirst := hsame 0 trivial
  rw [hbytes₁, hbytes] at hfirst
  exact absurd hfirst (by decide)

end LibElf.Toolchain
