import LibElf.Toolchain.ConvertSafe

/-!
# The fixed-size converters are exact

The converters of the fixed-size types translate a table record by record, whatever the host's byte
order, and the two directions are inverse to each other.

1. `tofLoop_exact` and `tomLoop_exact`, what the two loops leave in their destination.
2. `Holds`, the values in an array in memory, and `Codec`, what the two converters of a type are to
   each other.
3. `storesByte`, the bytes that a translation stores: all but the padding of `Elf_Move` in memory.
4. `fixed_size_codecs`, for every type of the table.
-/

namespace LibElf.Toolchain

open Outcome Mem

section Loops

variable (host : ByteOrder) (swap : Bool) {n : Nat}

/-- The forward loop leaves the translated records, and nothing else. -/
theorem tofLoop_exact (fs : List Field) (count : Nat) : ∀ (dst : Mem n) (off : Nat) (src : List UInt8),
    count * naturalSize fs ≤ src.length → off + count * packedSize fs ≤ n →
    ∃ d, tofLoop host fs swap count dst off src = .ok () d ∧ Frame dst d off (count * packedSize fs) ∧
      window d.bytes off (count * packedSize fs) =
        (records (tofObject host swap fs) (naturalSize fs) count src).flatten := by
  induction count with
  | zero =>
    intro dst off src _ _
    refine ⟨dst, rfl, Frame.refl _ _ _, ?_⟩
    rw [Nat.zero_mul, window_zero]
    rfl
  | succ count ih =>
    intro dst off src hsrc hn
    rw [Nat.add_mul, Nat.one_mul] at hsrc hn
    have hread : 0 + naturalSize fs ≤ src.length := by omega
    have hobj := length_tofObject host swap (length_window hread)
    have hin : off + (tofObject host swap fs (window src 0 (naturalSize fs))).length ≤ n := by
      rw [hobj]
      omega
    have hdrop : count * naturalSize fs ≤ (src.drop (naturalSize fs)).length := by
      rw [List.length_drop]
      omega
    obtain ⟨d, hd, hframe, hwin⟩ := ih (dst.splice off _ hin) (off + packedSize fs) (src.drop (naturalSize fs))
      hdrop (by omega)
    refine ⟨d, ?_, ?_, ?_⟩
    · rw [tofLoop, readAt_of_le dst hread, bind_ok, write_of_le dst hin, bind_ok]
      exact hd
    · have hfirst := frame_splice dst hin
      rw [hobj] at hfirst
      rw [Nat.add_mul, Nat.one_mul]
      exact (hfirst.mono (Nat.le_refl off) (by omega)).trans (hframe.mono (by omega) (by omega))
    · have hhead : window d.bytes off (packedSize fs) = tofObject host swap fs (src.take (naturalSize fs)) := by
        have hle := hin
        rw [← dst.length_eq] at hle
        have hself := window_splice_self hle
        rw [hobj] at hself
        rw [hframe.window_eq (.inl (Nat.le_refl _))]
        exact hself
      rw [Nat.add_mul, Nat.one_mul, Nat.add_comm, ← window_append_window, hhead, hwin]
      rfl

/-- The backward loop leaves the translated records over those that were there, and nothing else. -/
theorem tomLoop_exact (fs : List Field) {off : Nat} {src : List UInt8} (count : Nat) : ∀ dst : Mem n,
    count * packedSize fs ≤ src.length → off + count * naturalSize fs ≤ n →
    ∃ d, tomLoop host fs swap off src count dst = .ok () d ∧ Frame dst d off (count * naturalSize fs) ∧
      window d.bytes off (count * naturalSize fs) =
        recordsInto (tomObject host swap fs) (packedSize fs) (naturalSize fs) count
          (window dst.bytes off (count * naturalSize fs)) src := by
  induction count with
  | zero =>
    intro dst _ _
    refine ⟨dst, rfl, Frame.refl _ _ _, ?_⟩
    rw [Nat.zero_mul, window_zero]
    rfl
  | succ count ih =>
    intro dst hsrc hn
    rw [Nat.add_mul, Nat.one_mul] at hsrc hn
    have hold : (window dst.bytes (off + count * naturalSize fs) (naturalSize fs)).length = naturalSize fs :=
      length_window (by rw [dst.length_eq]; omega)
    have hobj := length_tomObject host swap hold (length_window hsrc)
    have hin : off + count * naturalSize fs +
        (tomObject host swap fs (window dst.bytes (off + count * naturalSize fs) (naturalSize fs))
          (window src (count * packedSize fs) (packedSize fs))).length ≤ n := by
      rw [hobj]
      omega
    have hlast := frame_splice dst hin
    rw [hobj] at hlast
    obtain ⟨d, hd, hframe, hwin⟩ := ih (dst.splice (off + count * naturalSize fs) _ hin) (by omega) (by omega)
    refine ⟨d, ?_, ?_, ?_⟩
    · rw [tomLoop, readAt_of_le dst hsrc, bind_ok]
      dsimp only
      rw [write_of_le dst hin, bind_ok]
      exact hd
    · rw [Nat.add_mul, Nat.one_mul]
      exact (hlast.mono (by omega) (by omega)).trans (hframe.mono (Nat.le_refl off) (by omega))
    · have htail : window d.bytes (off + count * naturalSize fs) (naturalSize fs) =
          tomObject host swap fs (window dst.bytes (off + count * naturalSize fs) (naturalSize fs))
            (window src (count * packedSize fs) (packedSize fs)) := by
        have hself := window_splice_self (hin.trans_eq dst.length_eq.symm)
        rw [hobj] at hself
        rw [hframe.window_eq (.inr (Nat.le_refl _))]
        exact hself
      -- the records that are still to come lie before the one just written
      have hbefore := hlast.window_eq (a := off) (n := count * naturalSize fs) (.inl (Nat.le_refl _))
      rw [hbefore] at hwin
      have hfront : window (window dst.bytes off (count * naturalSize fs + naturalSize fs)) 0
          (count * naturalSize fs) = window dst.bytes off (count * naturalSize fs) := window_window (by omega)
      rw [Nat.add_mul, Nat.one_mul, ← window_append_window, hwin, htail, recordsInto_succ_last,
        window_window (by omega)]
      congr 1
      exact recordsInto_congr count (by rw [hfront, window_window (by omega), Nat.add_zero]) rfl

variable {off dsz count : Nat} {dst : Mem n} {src : List UInt8}

theorem cvtTof_exact (fs : List Field) (hsrc : count * naturalSize fs ≤ src.length)
    (hn : off + count * packedSize fs ≤ n) :
    ∃ d, cvtTof host fs n dst off dsz src count swap = .ok () d ∧ Frame dst d off (count * packedSize fs) ∧
      window d.bytes off (count * packedSize fs) =
        (records (tofObject host swap fs) (naturalSize fs) count src).flatten :=
  tofLoop_exact host swap fs count dst off src hsrc hn

theorem cvtTom_exact (fs : List Field) (hsrc : count * packedSize fs ≤ src.length)
    (hroom : count * naturalSize fs ≤ dsz) (hn : off + count * naturalSize fs ≤ n) :
    ∃ d, cvtTom host fs n dst off dsz src count swap = .ok () d ∧ Frame dst d off (count * naturalSize fs) ∧
      window d.bytes off (count * naturalSize fs) =
        recordsInto (tomObject host swap fs) (packedSize fs) (naturalSize fs) count
          (window dst.bytes off (count * naturalSize fs)) src := by
  unfold cvtTom
  rw [if_neg (Nat.not_lt.mpr hroom)]
  exact tomLoop_exact host swap fs count dst hsrc hn

theorem cvtByte_exact (hsrc : count ≤ src.length) (hroom : count ≤ dsz) (hn : off + count ≤ n) :
    ∃ d, cvtByte n dst off dsz src count swap = .ok () d ∧ Frame dst d off count ∧
      window d.bytes off count = window src 0 count := by
  have hlen : (window src 0 count).length = count := length_window (by omega)
  have hin : off + (window src 0 count).length ≤ n := by
    rw [hlen]
    exact hn
  have hframe := frame_splice dst hin
  have hself := window_splice_self (hin.trans_eq dst.length_eq.symm)
  rw [hlen] at hframe hself
  refine ⟨dst.splice off _ hin, ?_, hframe, hself⟩
  unfold cvtByte copyBytes
  rw [if_neg (Nat.not_lt.mpr hroom), readAt_of_le dst (by omega), bind_ok, write_of_le dst hin]

end Loops

/-! ## Values -/

/-- The byte string is an array in memory of objects with the given field values. -/
structure Holds (host : ByteOrder) (fs : List Field) (vs : List (List Nat)) (m : List UInt8) : Prop where
  length : m.length = vs.length * naturalSize fs
  values : records (fieldValues host fs) (naturalSize fs) vs.length m = vs

/-- The file representation of a list of values, in the given byte order: their fields, packed. -/
def encodeAll (o : ByteOrder) (fs : List Field) (vs : List (List Nat)) : List UInt8 :=
  (vs.map (encode o fs)).flatten

def decodeAll (o : ByteOrder) (fs : List Field) (count : Nat) (bs : List UInt8) : List (List Nat) :=
  records (decode o fs) (packedSize fs) count bs

/-- Whether a file in byte order `o` is swapped. -/
def swapFor (host o : ByteOrder) : Bool := decide (o ≠ host)

theorem fileOrder_swapFor (host o : ByteOrder) : fileOrder host (swapFor host o) = o := by
  cases host <;> cases o <;> rfl

section Values

variable {host : ByteOrder} (swap : Bool) {fs : List Field}

theorem encodeAll_eq {count : Nat} {src : List UInt8} (h : count * naturalSize fs ≤ src.length) :
    (records (tofObject host swap fs) (naturalSize fs) count src).flatten =
      encodeAll (fileOrder host swap) fs (records (fieldValues host fs) (naturalSize fs) count src) := by
  have hmap : ∀ (n : Nat) (bs : List UInt8),
      (records (fieldValues host fs) (naturalSize fs) n bs).map (encode (fileOrder host swap) fs) =
        records (fun m => encode (fileOrder host swap) fs (fieldValues host fs m)) (naturalSize fs) n bs := by
    intro n
    induction n with
    | zero => exact fun _ => rfl
    | succ n ih =>
      intro bs
      rw [records, List.map_cons, ih]
      rfl
  rw [encodeAll, hmap, records_congr (fun r hr => tofObject_eq host swap hr) count src h]

theorem holds_tom {count : Nat} {old src : List UInt8} (hold : count * naturalSize fs ≤ old.length)
    (h : count * packedSize fs ≤ src.length) :
    Holds host fs (decodeAll (fileOrder host swap) fs count src)
      (recordsInto (tomObject host swap fs) (packedSize fs) (naturalSize fs) count old src) := by
  have hsize : ∀ o r, o.length = naturalSize fs → r.length = packedSize fs →
      (tomObject host swap fs o r).length = naturalSize fs := fun o r ho hr => length_tomObject host swap ho hr
  have hcount : (decodeAll (fileOrder host swap) fs count src).length = count := length_records _ _ _ _
  refine ⟨?_, ?_⟩
  · rw [hcount]
    exact length_recordsInto hsize count hold h
  · rw [hcount]
    exact records_recordsInto hsize (fun o r ho hr => fieldValues_tomObject host swap ho hr) count hold h

theorem decodeAll_encodeAll (o : ByteOrder) {vs : List (List Nat)} (hvs : ∀ v ∈ vs, fits fs v = true) :
    decodeAll o fs vs.length (encodeAll o fs vs) = vs := by
  induction vs with
  | nil => rfl
  | cons v vs ih =>
    have hv := hvs v List.mem_cons_self
    have hlen : (encode o fs v).length = packedSize fs := length_encode o (length_of_fits hv)
    have hfirst : decode o fs (encode o fs v) = v := by
      have hround := @decode_encode o fs _ [] hv
      rwa [List.append_nil] at hround
    have hrest : decodeAll o fs vs.length (encodeAll o fs vs) = vs :=
      ih fun w hw => hvs w (List.mem_cons_of_mem v hw)
    have hcons : encodeAll o fs (v :: vs) = encode o fs v ++ encodeAll o fs vs := by
      rw [encodeAll, List.map_cons, List.flatten_cons]
      rfl
    rw [decodeAll, List.length_cons, hcons, records_append hlen, hfirst]
    exact congrArg (v :: ·) hrest

theorem length_encodeAll (o : ByteOrder) {vs : List (List Nat)} (hvs : ∀ v ∈ vs, v.length = fs.length) :
    (encodeAll o fs vs).length = vs.length * packedSize fs := by
  induction vs with
  | nil =>
    rw [List.length_nil, Nat.zero_mul]
    rfl
  | cons v vs ih =>
    have hrest := ih fun w hw => hvs w (List.mem_cons_of_mem v hw)
    have hlen : (encode o fs v).length = packedSize fs := length_encode o (hvs v List.mem_cons_self)
    have hcons : encodeAll o fs (v :: vs) = encode o fs v ++ encodeAll o fs vs := by
      rw [encodeAll, List.map_cons, List.flatten_cons]
      rfl
    rw [hcons, List.length_append, hrest, hlen, List.length_cons, Nat.add_mul, Nat.one_mul, Nat.add_comm]

theorem Holds.fits {vs : List (List Nat)} {m : List UInt8} (h : Holds host fs vs m) :
    ∀ v ∈ vs, LibElf.fits fs v = true := by
  have hall : ∀ (n : Nat) (bs : List UInt8), ∀ v ∈ records (fieldValues host fs) (naturalSize fs) n bs,
      LibElf.fits fs v = true := by
    intro n
    induction n with
    | zero => exact fun _ _ hv => nomatch hv
    | succ n ih =>
      intro bs v hv
      rcases List.mem_cons.mp hv with rfl | hv
      · exact fits_fieldsAt host fs 0 _
      · exact ih _ v hv
  intro v hv
  rw [← h.values] at hv
  exact hall _ _ v hv

/-- Every list of values that fit their fields is the contents of an array. -/
theorem exists_holds {vs : List (List Nat)} (hvs : ∀ v ∈ vs, fits fs v = true) : ∃ m, Holds host fs vs m := by
  have hlen := length_encodeAll host fun v hv => length_of_fits (hvs v hv)
  have hzero : vs.length * naturalSize fs ≤ (List.replicate (vs.length * naturalSize fs) (0 : UInt8)).length :=
    Nat.le_of_eq List.length_replicate.symm
  have hm := @holds_tom host false _ _ _ _ hzero (Nat.le_of_eq hlen.symm)
  rw [fileOrder, if_neg Bool.false_ne_true, decodeAll_encodeAll host hvs] at hm
  exact ⟨_, hm⟩

end Values

/-! ## Padding -/

/-- The translation of a table of type `t` stores its byte `i`; the other bytes are padding between the members of
a structure in memory. -/
def storesByte (t : ElfType) (ec : ElfClass) (toFile : Bool) (i : Nat) : Bool :=
  toFile || match structDef ec t with
    | some fs => isMember fs (i % naturalSize fs)
    | none => true

/-- `Elf_Move` is the one structure with padding. -/
theorem storesByte_of_ne_move {t : ElfType} (ec : ElfClass) {toFile : Bool} (h : toFile = true ∨ t ≠ .move) (i : Nat) :
    storesByte t ec toFile i = true := by
  have hpacked : t ≠ .move → ∀ fs, structDef ec t = some fs → packedSize fs = naturalSize fs ∧ 0 < naturalSize fs := by
    intro hmove fs hfs
    cases t <;> cases ec <;> first
      | exact absurd rfl hmove
      | (cases hfs; decide)
      | cases hfs
  unfold storesByte
  rcases h with rfl | hmove
  · rfl
  · cases hfs : structDef ec t with
    | none => exact Bool.or_true _
    | some fs =>
      obtain ⟨hsize, hpos⟩ := hpacked hmove fs hfs
      have hmember := isMember_packed hsize (Nat.mod_lt i hpos)
      dsimp only
      rw [hmember, Bool.or_true]

/-! ## The converters of a type -/

/-- The last bytes of every `Elf_Move` are padding. -/
theorem move_padding (ec : ElfClass) : ∃ i < msize .move ec, storesByte .move ec false i = false := by
  cases ec with
  | elfclass32 => exact ⟨20, by decide⟩
  | elfclass64 => exact ⟨28, by decide⟩

/-- The room that a converter to the file asks for. That of `ELF_T_BYTE` is the one to memory and checks it; the
others leave it to their caller. -/
def TofRoom (t : ElfType) (dsz len : Nat) : Prop := t = .byte → len ≤ dsz

/-- The two converters of a type, called with a swap when the file has another byte order than the
host: what each writes, and that each undoes the other. -/
structure Codec (host o : ByteOrder) (ec : ElfClass) (t : ElfType) (fs : List Field) (tof tom : Converter) :
    Prop where
  /-- Every list of values can be stored in memory. -/
  values : ∀ vs, (∀ v ∈ vs, fits fs v = true) → ∃ m, Holds host fs vs m
  /-- The file representation of the values, and no other byte. -/
  tof_ok : ∀ {n : Nat} (dst : Mem n) (off dsz : Nat) (vs : List (List Nat)) (m : List UInt8), Holds host fs vs m →
    off + vs.length * fsize t ec ≤ n → TofRoom t dsz (vs.length * fsize t ec) →
    ∃ d, tof n dst off dsz m vs.length (swapFor host o) = .ok () d ∧ Frame dst d off (vs.length * fsize t ec) ∧
      window d.bytes off (vs.length * fsize t ec) = encodeAll o fs vs
  /-- The values of the file, and no other byte. -/
  tom_ok : ∀ {n : Nat} (dst : Mem n) (off dsz count : Nat) (bs : List UInt8), bs.length = count * fsize t ec →
    count * msize t ec ≤ dsz → off + count * msize t ec ≤ n →
    ∃ d, tom n dst off dsz bs count (swapFor host o) = .ok () d ∧ Frame dst d off (count * msize t ec) ∧
      Holds host fs (decodeAll o fs count bs) (window d.bytes off (count * msize t ec))
  /-- To the file and back to memory: the same values. -/
  tom_tof : ∀ {n n' : Nat} (dst : Mem n) (dst' : Mem n') (off dsz off' dsz' : Nat) (vs : List (List Nat))
    (m : List UInt8), Holds host fs vs m → off + vs.length * fsize t ec ≤ n →
    TofRoom t dsz (vs.length * fsize t ec) → vs.length * msize t ec ≤ dsz' → off' + vs.length * msize t ec ≤ n' →
    ∃ d d', tof n dst off dsz m vs.length (swapFor host o) = .ok () d ∧
      tom n' dst' off' dsz' (window d.bytes off (vs.length * fsize t ec)) vs.length (swapFor host o) = .ok () d' ∧
      Holds host fs vs (window d'.bytes off' (vs.length * msize t ec))
  /-- To memory and back to the file: the same bytes. -/
  tof_tom : ∀ {n n' : Nat} (dst : Mem n) (dst' : Mem n') (off dsz off' dsz' count : Nat) (bs : List UInt8),
    bs.length = count * fsize t ec → count * msize t ec ≤ dsz → off + count * msize t ec ≤ n →
    off' + count * fsize t ec ≤ n' → TofRoom t dsz' (count * fsize t ec) →
    ∃ d d', tom n dst off dsz bs count (swapFor host o) = .ok () d ∧
      tof n' dst' off' dsz' (window d.bytes off (count * msize t ec)) count (swapFor host o) = .ok () d' ∧
      window d'.bytes off' (count * fsize t ec) = bs

section Table

variable {host o : ByteOrder} {ec : ElfClass} {t : ElfType} {fs : List Field}

theorem fsize_of_structDef (ht : t.isVariable = false) (hfs : structDef ec t = some fs) :
    fsize t ec = packedSize fs := by
  unfold fsize
  simp [ht, hfs]

theorem msize_of_structDef (ht : t.isVariable = false) (hfs : structDef ec t = some fs) :
    msize t ec = naturalSize fs := by
  unfold msize
  simp [ht, hfs]

def fixedConverter (host : ByteOrder) (t : ElfType) (toFile : Bool) (fs : List Field) : Converter :=
  if t = .byte then cvtByte else if toFile then cvtTof host fs else cvtTom host fs

theorem getTranslator_fixed (ht : t.isVariable = false) (toFile : Bool) :
    getTranslator host t toFile ec = (structDef ec t).map (fixedConverter host t toFile) := by
  cases t <;> first
    | rfl
    | cases ht

/-- A byte has one representation only. -/
theorem byteField_same (hfs : structDef ec .byte = some fs) (host : ByteOrder) (swap : Bool) :
    packedSize fs = 1 ∧ naturalSize fs = 1 ∧ (∀ r, r.length = 1 → tofObject host swap fs r = r) ∧
      ∀ o r, o.length = 1 → r.length = 1 → tomObject host swap fs o r = r := by
  have hbyte : ∀ b : UInt8, cvtField host swap (Basic.field ec .BYTE) [b] = [b] := by
    intro b
    rw [cvtField_eq host swap _ (by cases ec <;> rfl), List.reverse_singleton, ite_self]
  have hmem : fs = [Basic.field ec .BYTE] := by
    cases ec <;> exact (Option.some.inj hfs).symm
  have hwidth : (Basic.field ec .BYTE).width = 1 ∧ (Basic.field ec .BYTE).pad 0 = 0 := by
    cases ec <;> decide
  subst hmem
  refine ⟨by cases ec <;> decide, by cases ec <;> decide, ?_, ?_⟩
  · intro r hr
    obtain ⟨b, rfl⟩ := List.length_eq_one_iff.mp hr
    rw [tofObject, tofFields, hwidth.1, hwidth.2, tofFields, List.append_nil]
    exact hbyte b
  · intro o r ho hr
    obtain ⟨b, rfl⟩ := List.length_eq_one_iff.mp hr
    obtain ⟨c, rfl⟩ := List.length_eq_one_iff.mp ho
    rw [tomObject, tomFields, hwidth.1, hwidth.2, tomFields]
    exact congrArg (· ++ []) (hbyte b)

section Converter

variable (swap : Bool) {n off dsz count : Nat} {dst : Mem n} {src : List UInt8}

/-- The converter to the file leaves the translated records. -/
theorem fixedConverter_tof (hfs : structDef ec t = some fs) (hsrc : count * naturalSize fs ≤ src.length)
    (hn : off + count * packedSize fs ≤ n) (hroom : TofRoom t dsz (count * packedSize fs)) :
    ∃ d, fixedConverter host t true fs n dst off dsz src count swap = .ok () d ∧
      Frame dst d off (count * packedSize fs) ∧
      window d.bytes off (count * packedSize fs) =
        (records (tofObject host swap fs) (naturalSize fs) count src).flatten := by
  unfold fixedConverter
  split
  · next hbyte =>
    subst hbyte
    obtain ⟨hp, hm, hsame, -⟩ := byteField_same hfs host swap
    have hroom' := hroom rfl
    rw [hp, Nat.mul_one] at hn hroom' ⊢
    rw [hm, Nat.mul_one] at hsrc
    rw [hm, flatten_records_of_id hsame count (by omega), Nat.mul_one]
    exact cvtByte_exact swap hsrc hroom' hn
  · exact @cvtTof_exact host swap _ off dsz _ dst _ fs hsrc hn

/-- The converter to memory leaves the translated records over those that were there. -/
theorem fixedConverter_tom (hfs : structDef ec t = some fs) (hsrc : count * packedSize fs ≤ src.length)
    (hroom : count * naturalSize fs ≤ dsz) (hn : off + count * naturalSize fs ≤ n) :
    ∃ d, fixedConverter host t false fs n dst off dsz src count swap = .ok () d ∧
      Frame dst d off (count * naturalSize fs) ∧
      window d.bytes off (count * naturalSize fs) =
        recordsInto (tomObject host swap fs) (packedSize fs) (naturalSize fs) count
          (window dst.bytes off (count * naturalSize fs)) src := by
  unfold fixedConverter
  split
  · next hbyte =>
    subst hbyte
    obtain ⟨hp, hm, -, hsame⟩ := byteField_same hfs host swap
    rw [hp, Nat.mul_one] at hsrc
    rw [hm, Nat.mul_one] at hroom hn ⊢
    rw [hp]
    have hold : (window dst.bytes off count).length = count := length_window (by rw [dst.length_eq]; exact hn)
    rw [recordsInto_eq (h := id) hsame count (by omega) (by omega),
      flatten_records_of_id (f := id) (fun _ _ => rfl) count (by omega), Nat.mul_one]
    exact cvtByte_exact swap hsrc hroom hn
  · exact cvtTom_exact host swap fs hsrc hroom hn

end Converter

theorem codec_cvt (ht : t.isVariable = false) (hfs : structDef ec t = some fs) :
    Codec host o ec t fs (fixedConverter host t true fs) (fixedConverter host t false fs) := by
  have hfsz := fsize_of_structDef ht hfs
  have hmsz := msize_of_structDef ht hfs
  have horder := fileOrder_swapFor host o
  have htof : ∀ {n : Nat} (dst : Mem n) (off dsz : Nat) (vs : List (List Nat)) (m : List UInt8), Holds host fs vs m →
      off + vs.length * packedSize fs ≤ n → TofRoom t dsz (vs.length * packedSize fs) →
      ∃ d, fixedConverter host t true fs n dst off dsz m vs.length (swapFor host o) = .ok () d ∧
        Frame dst d off (vs.length * packedSize fs) ∧
        window d.bytes off (vs.length * packedSize fs) = encodeAll o fs vs := by
    intro n dst off dsz vs m hm hn hroom
    obtain ⟨d, hd, hframe, hwin⟩ := @fixedConverter_tof host _ _ _ (swapFor host o) _ off dsz _ dst _ hfs
      (Nat.le_of_eq hm.length.symm) hn hroom
    rw [encodeAll_eq (swapFor host o) (Nat.le_of_eq hm.length.symm), hm.values, horder] at hwin
    exact ⟨d, hd, hframe, hwin⟩
  have htom : ∀ {n : Nat} (dst : Mem n) (off dsz count : Nat) (bs : List UInt8), bs.length = count * packedSize fs →
      count * naturalSize fs ≤ dsz → off + count * naturalSize fs ≤ n →
      ∃ d, fixedConverter host t false fs n dst off dsz bs count (swapFor host o) = .ok () d ∧
        Frame dst d off (count * naturalSize fs) ∧
        window d.bytes off (count * naturalSize fs) =
          recordsInto (tomObject host (swapFor host o) fs) (packedSize fs) (naturalSize fs) count
            (window dst.bytes off (count * naturalSize fs)) bs ∧
        Holds host fs (decodeAll o fs count bs) (window d.bytes off (count * naturalSize fs)) := by
    intro n dst off dsz count bs hbs hroom hn
    obtain ⟨d, hd, hframe, hwin⟩ := @fixedConverter_tom host _ _ _ (swapFor host o) _ off dsz _ dst _ hfs
      (Nat.le_of_eq hbs.symm) hroom hn
    have hold : (window dst.bytes off (count * naturalSize fs)).length = count * naturalSize fs :=
      length_window (by rw [dst.length_eq]; exact hn)
    have hholds := @holds_tom host (swapFor host o) _ _ _ _ (Nat.le_of_eq hold.symm) (Nat.le_of_eq hbs.symm)
    rw [horder, ← hwin] at hholds
    exact ⟨d, hd, hframe, hwin, hholds⟩
  refine ⟨fun vs hvs => exists_holds hvs, ?_, ?_, ?_, ?_⟩
  · intro n dst off dsz vs m hm hn hroom
    rw [hfsz] at hn hroom ⊢
    exact htof dst off dsz vs m hm hn hroom
  · intro n dst off dsz count bs hbs hroom hn
    rw [hfsz] at hbs
    rw [hmsz] at hroom hn ⊢
    obtain ⟨d, hd, hframe, -, hholds⟩ := htom dst off dsz count bs hbs hroom hn
    exact ⟨d, hd, hframe, hholds⟩
  · intro n n' dst dst' off dsz off' dsz' vs m hm hn htofRoom hroom hn'
    rw [hfsz] at hn htofRoom ⊢
    rw [hmsz] at hroom hn' ⊢
    obtain ⟨d, hd, -, hwin⟩ := htof dst off dsz vs m hm hn htofRoom
    have hlen : (window d.bytes off (vs.length * packedSize fs)).length = vs.length * packedSize fs :=
      length_window (by rw [d.length_eq]; exact hn)
    obtain ⟨d', hd', -, -, hholds⟩ := htom dst' off' dsz' vs.length _ hlen hroom hn'
    rw [hwin, decodeAll_encodeAll o hm.fits] at hholds
    exact ⟨d, d', hd, hd', hholds⟩
  · intro n n' dst dst' off dsz off' dsz' count bs hbs hroom hn hn' htofRoom
    rw [hfsz] at hbs hn' htofRoom ⊢
    rw [hmsz] at hroom hn ⊢
    obtain ⟨d, hd, -, hwin, -⟩ := htom dst off dsz count bs hbs hroom hn
    have hlen : (window d.bytes off (count * naturalSize fs)).length = count * naturalSize fs :=
      length_window (by rw [d.length_eq]; exact hn)
    have hold : (window dst.bytes off (count * naturalSize fs)).length = count * naturalSize fs :=
      length_window (by rw [dst.length_eq]; exact hn)
    obtain ⟨d', hd', -, hback⟩ := @fixedConverter_tof host _ _ _ (swapFor host o) _ off' dsz' _ dst' _ hfs
      (Nat.le_of_eq hlen.symm) hn' htofRoom
    refine ⟨d, d', hd, hd', ?_⟩
    have heach := records_recordsInto (g := tofObject host (swapFor host o) fs) (h := id)
      (fun o r ho hr => length_tomObject host (swapFor host _) ho hr)
      (fun o r ho hr => tofObject_tomObject host (swapFor host _) ho hr) count (Nat.le_of_eq hold.symm)
      (Nat.le_of_eq hbs.symm)
    rw [hback, hwin, heach, flatten_records_id count bs hbs]

/-- The converters of every fixed-size type, in either class, are exact and inverse to each other. -/
theorem fixed_size_codecs (host o : ByteOrder) {ec : ElfClass} {t : ElfType} (ht : t.isVariable = false)
    {tof tom : Converter} (htof : getTranslator host t true ec = some tof)
    (htom : getTranslator host t false ec = some tom) :
    ∃ fs, structDef ec t = some fs ∧ Codec host o ec t fs tof tom := by
  rw [getTranslator_fixed ht] at htof htom
  cases hfs : structDef ec t with
  | none =>
    rw [hfs] at htof
    cases htof
  | some fs =>
    rw [hfs] at htof htom
    obtain rfl := Option.some.inj htof
    obtain rfl := Option.some.inj htom
    exact ⟨fs, rfl, codec_cvt ht hfs⟩

/-- `Elf32_Move`, whose file representation is shorter than the structure in memory, on a big-endian
host with a little-endian file. -/
theorem fixed_size_codecs_move : ∃ tof tom fs, getTranslator .big .move true .elfclass32 = some tof ∧
    getTranslator .big .move false .elfclass32 = some tom ∧ structDef .elfclass32 .move = some fs ∧
    packedSize fs < naturalSize fs ∧ Codec .big .little .elfclass32 .move fs tof tom := by
  obtain ⟨fs, hfs, hcodec⟩ := @fixed_size_codecs .big .little .elfclass32 .move rfl _ _ rfl rfl
  refine ⟨_, _, fs, rfl, rfl, hfs, ?_, hcodec⟩
  obtain rfl := Option.some.inj hfs
  decide

end Table

end LibElf.Toolchain
