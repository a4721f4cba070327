import LibElf.Toolchain.Convert

/-!
# The translators stay inside their buffers

Each translator, given a source of `count` objects and room for what it makes of them, reads
inside the source, stores inside the room, and returns.

1. `Tame dst off dsz x`: the conversion `x` returns, and left everything outside the `dsz` bytes at
   `off` as it was in `dst`.
2. `tame_tofLoop`, `tame_tomLoop` and one lemma for each translator that is coded by hand.
3. `getTranslator_tame`: the whole table.
-/

namespace LibElf.Toolchain

open Outcome Mem

/-- The conversion returns, having changed at most the `dsz` bytes at `off`. -/
def Tame {n : Nat} (dst : Mem n) (off dsz : Nat) (x : Conversion n) : Prop :=
  x.Ensures (fun _ d => Frame dst d off dsz) (fun d => Frame dst d off dsz) (fun _ => False)

section Rules

variable {n : Nat} {dst : Mem n} {off dsz : Nat}

theorem tame_ok : Tame dst off dsz (.ok () dst) := Frame.refl _ _ _

theorem tame_err : Tame dst off dsz (.err () dst) := Frame.refl _ _ _

theorem Tame.mono {off' dsz' : Nat} {x : Conversion n} (h : Tame dst off dsz x) (hlo : off' ≤ off)
    (hhi : off + dsz ≤ off' + dsz') : Tame dst off' dsz' x :=
  ensures_mono h (fun _ _ hf => hf.mono hlo hhi) (fun _ hf => hf.mono hlo hhi) (fun _ hf => hf)

/-- A conversion after another one. -/
theorem Tame.bind {x : Conversion n} {f : Unit → Mem n → Conversion n} (hx : Tame dst off dsz x)
    (hf : ∀ d, Tame d off dsz (f () d)) : Tame dst off dsz (x.bind f) :=
  ensures_bind hx fun _ d hd =>
    ensures_mono (hf d) (fun _ _ h => hd.trans h) (fun _ h => hd.trans h) (fun _ h => h)

/-- A load inside the source, then a conversion. -/
theorem tame_readAt {src : List UInt8} {s len : Nat} {f : List UInt8 → Mem n → Conversion n}
    (hin : s + len ≤ src.length)
    (hf : (window src s len).length = len → Tame dst off dsz (f (window src s len) dst)) :
    Tame dst off dsz ((readAt src s len dst).bind f) := by
  rw [readAt_of_le dst hin, bind_ok]
  exact hf (length_window hin)

/-- A store inside the room. -/
theorem tame_write {o : Nat} {bs : List UInt8} (hlo : off ≤ o) (hhi : o + bs.length ≤ off + dsz)
    (hn : off + dsz ≤ n) : Tame dst off dsz (dst.write o bs) := by
  have hin : o + bs.length ≤ n := Nat.le_trans hhi hn
  rw [write_of_le dst hin]
  exact (frame_splice dst hin).mono hlo hhi

theorem tame_copyBytes {src : List UInt8} {o s len : Nat} (hin : s + len ≤ src.length)
    (hlo : off ≤ o) (hhi : o + len ≤ off + dsz) (hn : off + dsz ≤ n) :
    Tame dst off dsz (copyBytes dst o src s len) := by
  refine tame_readAt hin fun hlen => tame_write hlo ?_ hn
  rwa [hlen]

end Rules

section Loops

variable (host : ByteOrder) (swap : Bool) {n : Nat}

/-- The forward loop stays in the room when that is as large as the file representation. -/
theorem tame_tofLoop (fs : List Field) (count : Nat) :
    ∀ (dst : Mem n) (off : Nat) (src : List UInt8), count * naturalSize fs ≤ src.length →
    off + count * packedSize fs ≤ n →
    Tame dst off (count * packedSize fs) (tofLoop host fs swap count dst off src) := by
  induction count with
  | zero => intro dst off src _ _; exact tame_ok
  | succ count ih =>
    intro dst off src hsrc hn
    rw [Nat.add_mul, Nat.one_mul] at hsrc hn ⊢
    refine tame_readAt (by omega) fun hlen => ?_
    have hobj := length_tofObject host swap hlen
    refine Tame.bind (tame_write (Nat.le_refl off) (by omega) hn) fun d => ?_
    have hdrop : count * naturalSize fs ≤ (src.drop (naturalSize fs)).length := by
      rw [List.length_drop]
      omega
    exact (ih d (off + packedSize fs) _ hdrop (by omega)).mono (by omega) (by omega)

/-- The backward loop stays in the room when that is as large as the memory representation. -/
theorem tame_tomLoop (fs : List Field) {off dsz : Nat} {src : List UInt8} (hn : off + dsz ≤ n)
    (count : Nat) : ∀ (dst : Mem n), count * packedSize fs ≤ src.length →
    count * naturalSize fs ≤ dsz → Tame dst off dsz (tomLoop host fs swap off src count dst) := by
  induction count with
  | zero => intro dst _ _; exact tame_ok
  | succ count ih =>
    intro dst hsrc hroom
    rw [Nat.add_mul, Nat.one_mul] at hsrc hroom
    refine tame_readAt (by omega) fun hlen => ?_
    have hold : (window dst.bytes (off + count * naturalSize fs) (naturalSize fs)).length = naturalSize fs :=
      length_window (by rw [dst.length_eq]; omega)
    have hobj := length_tomObject host swap hold hlen
    refine Tame.bind (tame_write (by omega) (by omega) hn) fun d => ?_
    exact ih d (by omega) (by omega)

variable {dst : Mem n} {off dsz count : Nat} {src : List UInt8}

theorem tame_cvtByte (hn : off + dsz ≤ n) (hsrc : count ≤ src.length) :
    Tame dst off dsz (cvtByte n dst off dsz src count swap) := by
  unfold cvtByte
  split
  · exact tame_err
  · exact tame_copyBytes (by omega) (Nat.le_refl off) (by omega) hn

theorem tame_cvtTom (fs : List Field) (hn : off + dsz ≤ n) (hsrc : count * packedSize fs ≤ src.length) :
    Tame dst off dsz (cvtTom host fs n dst off dsz src count swap) := by
  unfold cvtTom
  split
  · exact tame_err
  · exact tame_tomLoop host swap fs hn count dst hsrc (by omega)

theorem tame_cvtTof (fs : List Field) (hn : off + dsz ≤ n) (hsrc : count * naturalSize fs ≤ src.length)
    (hroom : count * packedSize fs ≤ dsz) :
    Tame dst off dsz (cvtTof host fs n dst off dsz src count swap) :=
  (tame_tofLoop host swap fs count dst off src hsrc (by omega)).mono (Nat.le_refl off) (by omega)

end Loops

section Hand

variable (host : ByteOrder) (toFile swap : Bool) {n : Nat} {off dsz count : Nat} {src : List UInt8}

theorem sizes_word : packedSize [wordField] = 4 ∧ naturalSize [wordField] = 4 := by decide

theorem sizes_xword : packedSize [xwordField] = 8 ∧ naturalSize [xwordField] = 8 := by decide

theorem tame_cvtGnuhash32 (dst : Mem n) (hn : off + dsz ≤ n) (hsrc : count ≤ src.length)
    (hroom : toFile = true → count ≤ dsz) :
    Tame dst off dsz (cvtGnuhash32 host toFile n dst off dsz src count swap) := by
  obtain ⟨hp, hm⟩ := sizes_word
  unfold cvtGnuhash32
  cases toFile with
  | true =>
    have := hroom rfl
    exact tame_cvtTof host swap [wordField] hn (by rw [hm]; omega) (by rw [hp]; omega)
  | false => exact tame_cvtTom host swap [wordField] hn (by rw [hp]; omega)

/-- A run of words inside the room. -/
theorem tame_words (f : Field) (hf : packedSize [f] = f.width ∧ naturalSize [f] = f.width) (dst : Mem n)
    {o s k : Nat} (hn : off + dsz ≤ n) (hlo : off ≤ o) (hhi : o + k * f.width ≤ off + dsz)
    (hsrc : s + k * f.width ≤ src.length) :
    Tame dst off dsz (tofLoop host [f] swap k dst o (src.drop s)) := by
  have hdrop : k * naturalSize [f] ≤ (src.drop s).length := by
    rw [hf.2, List.length_drop]
    omega
  have hroom : o + k * packedSize [f] ≤ n := by
    rw [hf.1]
    omega
  refine (tame_tofLoop host swap [f] k dst o _ hdrop hroom).mono hlo ?_
  rwa [hf.1]

theorem tame_cvtGnuhash64 (dst : Mem n) (hn : off + dsz ≤ n) (hsrc : count ≤ src.length) :
    Tame dst off dsz (cvtGnuhash64 host toFile n dst off dsz src count swap) := by
  unfold cvtGnuhash64
  split
  · exact tame_err
  · next hsz =>
    refine tame_readAt (by omega) fun hlen => ?_
    generalize nativeField host toFile swap wordField (window (window src 0 16) 0 4) = nbuckets
    generalize nativeField host toFile swap wordField (window (window src 0 16) 8 4) = maskwords
    generalize hhdr : window src 0 16 = hdr at hlen ⊢
    dsimp only
    split
    · exact tame_err
    · next hroom =>
      refine Tame.bind ?_ fun d => ?_
      · have := tame_tofLoop host swap [wordField] 4 dst off hdr (by rw [sizes_word.2]; omega)
          (by rw [sizes_word.1]; omega)
        refine this.mono (Nat.le_refl off) ?_
        rw [sizes_word.1]
        omega
      refine Tame.bind (tame_words host swap xwordField sizes_xword d hn ?_ ?_ ?_) fun d => ?_
      · omega
      · simp only [xwordField]
        omega
      · simp only [xwordField]
        omega
      refine Tame.bind (tame_words host swap wordField sizes_word d hn ?_ ?_ ?_) fun d => ?_
      · omega
      · simp only [wordField]
        omega
      · simp only [wordField]
        omega
      split
      · exact tame_err
      · next hchain =>
        have hmod : (count - 16 - (nbuckets * 4 + maskwords * 8)) / 4 % 2 ^ 32 ≤
            (count - 16 - (nbuckets * 4 + maskwords * 8)) / 4 := Nat.mod_le _ _
        refine tame_words host swap wordField sizes_word d hn ?_ ?_ ?_
        · omega
        · simp only [wordField]
          omega
        · simp only [wordField]
          omega

/-- Every turn of the loop takes a note header off the source. -/
theorem tame_noteTomLoop (fuel : Nat) : ∀ (dst : Mem n) (off dsz s count : Nat), off + dsz ≤ n →
    s + count ≤ src.length → count ≤ dsz → count < fuel →
    Tame dst off dsz (noteTomLoop host src fuel dst off dsz s count) := by
  induction fuel with
  | zero => intro _ _ _ _ _ _ _ _ h; cases h
  | succ fuel ih =>
    intro dst off dsz s count hn hsrc hroom hfuel
    unfold noteTomLoop
    split
    · exact tame_ok
    · next hcount =>
      refine tame_readAt (by omega) fun hlen => ?_
      have hhdr : (noteHeader host true (window src s 12)).length = 12 :=
        length_tofObject host true (by rw [hlen]; decide)
      refine Tame.bind (tame_write (Nat.le_refl off) (by omega) hn) fun d => ?_
      dsimp only
      split
      · exact tame_err
      · next hsz =>
        refine Tame.bind (tame_copyBytes (by omega) (by omega) (by omega) hn) fun d => ?_
        exact (ih d _ _ _ _ (by omega) (by omega) (by omega) (by omega)).mono (by omega) (by omega)

theorem tame_cvtNoteTom (dst : Mem n) (hn : off + dsz ≤ n) (hsrc : count ≤ src.length) :
    Tame dst off dsz (cvtNoteTom host n dst off dsz src count swap) := by
  unfold cvtNoteTom
  split
  · exact tame_err
  · split
    · exact tame_err
    · split
      · exact tame_copyBytes (by omega) (Nat.le_refl off) (by omega) hn
      · exact tame_noteTomLoop host _ dst off dsz 0 count hn (by omega) (by omega) (by omega)

theorem tame_noteTofLoop (fuel : Nat) : ∀ (dst : Mem n) (off s count : Nat), off + count ≤ n →
    s + count ≤ src.length → count < fuel →
    Tame dst off count (noteTofLoop host src fuel dst off s count) := by
  induction fuel with
  | zero => intro _ _ _ _ _ _ h; cases h
  | succ fuel ih =>
    intro dst off s count hn hsrc hfuel
    unfold noteTofLoop
    split
    · exact tame_ok
    · next hcount =>
      refine tame_readAt (by omega) fun hlen => ?_
      have hhdr : (noteHeader host true (window src s 12)).length = 12 :=
        length_tofObject host true (by rw [hlen]; decide)
      refine Tame.bind (tame_write (Nat.le_refl off) (by omega) hn) fun d => ?_
      dsimp only
      generalize hsz : min _ (count - 12) = sz
      have hle : sz ≤ count - 12 := hsz ▸ Nat.min_le_right _ _
      refine Tame.bind (tame_copyBytes (by omega) (by omega) (by omega) hn) fun d => ?_
      exact (ih d _ _ _ (by omega) (by omega) (by omega)).mono (by omega) (by omega)

theorem tame_cvtNoteTof (dst : Mem n) (hn : off + dsz ≤ n) (hsrc : count ≤ src.length) :
    Tame dst off dsz (cvtNoteTof host n dst off dsz src count swap) := by
  unfold cvtNoteTof
  split
  · exact tame_err
  · split
    · exact tame_copyBytes (by omega) (Nat.le_refl off) (by omega) hn
    · have hloop : Tame dst off count (noteTofLoop host src (count + 1) dst off 0 count) :=
        tame_noteTofLoop host _ dst off 0 count (by omega) (by omega) (by omega)
      exact hloop.mono (Nat.le_refl off) (by omega)

theorem length_cvtObject {fs : List Field} (hfs : naturalSize fs = packedSize fs) {bs : List UInt8}
    (h : bs.length = packedSize fs) : (cvtObject host toFile swap fs bs).length = packedSize fs := by
  unfold cvtObject
  split
  · exact length_tofObject host swap (h.trans hfs.symm)
  · exact (length_tomObject host swap (length_zeroObject fs) h).trans hfs

variable (V : VersionDef)

theorem tame_auxLoop (hn : off + dsz ≤ n) (hsrc : count ≤ src.length) (cnt : Nat) :
    ∀ (dst : Mem n) (anext d s : Nat),
    Tame dst off dsz (auxLoop host toFile swap V off dsz src count cnt dst anext d s) := by
  induction cnt with
  | zero =>
    intro dst anext d s
    unfold auxLoop
    split
    · exact tame_err
    · exact tame_ok
  | succ cnt ih =>
    intro dst anext d s
    unfold auxLoop
    split
    · exact tame_err
    · next hin =>
      refine tame_readAt (by omega) fun hlen => ?_
      have hobj := length_cvtObject host toFile swap V.size_aux hlen
      exact Tame.bind (tame_write (by omega) (by omega) hn) fun d' => ih d' _ _ _

/-- The offset in the source grows with every turn, by at least one, so the fuel suffices. -/
theorem tame_verLoop (hn : off + dsz ≤ n) (hsrc : count ≤ src.length) (hver : 0 < packedSize V.ver)
    (fuel : Nat) : ∀ (dst : Mem n) (vnext d s : Nat), 0 < fuel →
    (count < s + fuel ∨ vnext = 0) →
    Tame dst off dsz (verLoop host toFile swap V off dsz src count fuel dst vnext d s) := by
  induction fuel with
  | zero => intro _ _ _ _ h; cases h
  | succ fuel ih =>
    intro dst vnext d s _ hfuel
    unfold verLoop
    split
    · exact tame_ok
    · next hnext =>
      split
      · exact tame_err
      · next hin =>
        refine tame_readAt (by omega) fun hlen => ?_
        have hobj := length_cvtObject host toFile swap V.size_ver hlen
        refine Tame.bind (tame_write (by omega) (by omega) hn) fun d' => ?_
        split
        · exact tame_err
        · refine Tame.bind (tame_auxLoop host toFile swap V hn hsrc _ _ _ _ _) fun d'' => ?_
          generalize nativeMember host toFile swap V.ver V.nextAt (window src s _) = vnext'
          refine ih d'' vnext' _ _ (by omega) ?_
          omega

theorem tame_cvtVersion (hn : off + dsz ≤ n) (hsrc : count ≤ src.length) (hver : 0 < packedSize V.ver)
    (dst : Mem n) : Tame dst off dsz (cvtVersion host toFile V n dst off dsz src count swap) :=
  tame_verLoop host toFile swap V hn hsrc hver _ dst _ 0 0 (Nat.succ_pos _) (.inl (by omega))

end Hand

/-- Every translator of the table stays in its buffers. A conversion to the file trusts its caller
for the room. -/
theorem getTranslator_tame (host : ByteOrder) {t : ElfType} {toFile swap : Bool} {ec : ElfClass}
    {cvt : Converter} (h : getTranslator host t toFile ec = some cvt) {n : Nat} (dst : Mem n)
    {off dsz count : Nat} {src : List UInt8} (hn : off + dsz ≤ n)
    (hsrc : count * (if toFile then msize t ec else fsize t ec) ≤ src.length)
    (hroom : toFile = true → count * fsize t ec ≤ dsz) :
    Tame dst off dsz (cvt n dst off dsz src count swap) := by
  have hfixed : ∀ fs, t.isVariable = false → structDef ec t = some fs →
      cvt = (if toFile then cvtTof host fs else cvtTom host fs) →
      Tame dst off dsz (cvt n dst off dsz src count swap) := by
    rintro fs hvar hfs rfl
    have hm : msize t ec = naturalSize fs := by simp [msize, hvar, hfs]
    have hf : fsize t ec = packedSize fs := by simp [fsize, hvar, hfs]
    rw [hm, hf] at hsrc
    rw [hf] at hroom
    cases toFile with
    | true => exact tame_cvtTof host swap fs hn hsrc (hroom rfl)
    | false => exact tame_cvtTom host swap fs hn hsrc
  have hvariable : t.isVariable = true → count ≤ src.length ∧ (toFile = true → count ≤ dsz) := by
    intro hvar
    have hm : msize t ec = 1 := by simp [msize, hvar]
    have hf : fsize t ec = 1 := by simp [fsize, hvar]
    rw [hf] at hroom
    rw [hm, hf, ite_self] at hsrc
    exact ⟨by omega, fun ht => by have := hroom ht; omega⟩
  unfold getTranslator at h
  split at h
  · cases h
    refine tame_cvtByte swap hn ?_
    rwa [fsize_byte, msize_byte, ite_self, Nat.mul_one] at hsrc
  · cases h
    cases toFile with
    | true => exact tame_cvtNoteTof host swap dst hn (hvariable rfl).1
    | false => exact tame_cvtNoteTom host swap dst hn (hvariable rfl).1
  · cases h
    exact tame_cvtVersion host toFile swap _ hn (hvariable rfl).1 (by decide) dst
  · cases h
    exact tame_cvtVersion host toFile swap _ hn (hvariable rfl).1 (by decide) dst
  · cases h
    exact tame_cvtGnuhash32 host toFile swap dst hn (hvariable rfl).1 (hvariable rfl).2
  · cases h
    exact tame_cvtGnuhash64 host toFile swap dst hn (hvariable rfl).1
  · next hbyte hnote hvdef hvneed hgnu32 hgnu64 =>
    obtain ⟨fs, hfs, hcvt⟩ := Option.map_eq_some_iff.mp h
    refine hfixed fs ?_ hfs hcvt.symm
    cases t <;> simp_all [ElfType.isVariable]
    cases ec <;> simp_all

/-- Every implemented type has its translators. -/
theorem getTranslator_isSome (host : ByteOrder) {t : ElfType} {ec : ElfClass} (h : 0 < fsize t ec)
    (toFile : Bool) : (getTranslator host t toFile ec).isSome = true := by
  cases t <;> cases ec <;> first
    | rfl
    | exact absurd h (by decide)

end LibElf.Toolchain
