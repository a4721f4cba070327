import LibElf.Elfutils.NoteXlate
import LibElf.Elfutils.VersionXlate

/-!
# Translation into a buffer that overlaps the source

`elfNN_xlatetom` and `elfNN_xlatetof` get two buffers, which a comment says may overlap. Source and
destination are ranges of one memory here, and a translation is compared with one from the same bytes
into a separate buffer.

1. `elfXlate`, the two functions, and `produced`, what a call produces.
2. `translated`, the bytes that a foreign byte order is translated to, and `Movable`, where the
   conversion functions produce them. `xfct_exact`, one case for each type.
3. `translation_anywhere`, and a table that is encoded in place.
-/

namespace LibElf.Elfutils

open Outcome Mem
open Toolchain (ElfClass)

variable {n : Nat}

/-! ## The functions -/

/-- The value of `encode` that stands for the byte order of the host. -/
def nativeEncoding : ByteOrder → Nat
  | .little => 1
  | .big => 2

/-- The tests at the start. Notes are exempt from the first one in `elfNN_xlatetom`. -/
def xlateCheck (tof : Bool) (ec : ElfClass) (t : ElfType) (encoding dsize size : Nat) : Option ElfError :=
  if (tof = true ∨ t ≠ .nhdr ∧ t ≠ .nhdr8) ∧ size % typeSize ec t ≠ 0 then some .INVALID_DATA
  else if dsize < size then some .DEST_SIZE
  else if encoding ≠ 1 ∧ encoding ≠ 2 then some .INVALID_ENCODING
  else none

/-- `elfNN_xlatetof`, and `elfNN_xlatetom` when `tof` is false: the `size` bytes at `s` into the `dsize` bytes
at `d`. -/
def elfXlate (tof : Bool) (host : ByteOrder) (ec : ElfClass) (t : ElfType) (encoding d dsize s size : Nat)
    (m : Mem n) : Outcome ElfError (Mem n) Unit :=
  match xlateCheck tof ec t encoding dsize size with
  | some e => .err e m
  | none =>
    if encoding = nativeEncoding host then if s ≠ d then memmove d s size m else .ok () m
    else xfct host ec t tof d s size m

/-- The bytes at `d` after a call, or its error; nothing when the call does not return. -/
def produced (d size : Nat) : Outcome ElfError (Mem n) Unit → Option (Except ElfError (List UInt8))
  | .ok _ m => some (.ok (window m.bytes d size))
  | .err e _ => some (.error e)
  | .stop _ => none

/-! ## Where the conversion functions agree -/

/-- The type of the version records that a section of the given type is converted with. -/
def versionType : ElfType → Option VersionType
  | .vdef => some verdef
  | .vdaux => some verdef
  | .vneed => some verneed
  | .vnaux => some verneed
  | _ => none

def noteAlignment : ElfType → Option Nat
  | .nhdr => some 4
  | .nhdr8 => some 8
  | _ => none

/-- The bytes that `bs` is translated to. -/
def translated (tof : Bool) (host : ByteOrder) (ec : ElfClass) (t : ElfType) (bs : List UInt8) : List UInt8 :=
  let o := sourceOrder tof host
  match fundamentalSize ec t, recordFields ec t, versionType t, noteAlignment t with
  | some w, _, _, _ => swapFields (List.replicate (bs.length / w) (number (w - 1))) bs
  | none, some fs, _, _ => swapFields (tableFields fs (bs.length / packedSize fs)) bs
  | none, none, some v, _ => pasted swapFields bs bs (writes (touched o v bs tof (bs.length + 1) 0))
  | none, none, none, some align => swapNotes o align (bs.length + 1) bs
  | none, none, none, none =>
    match t, ec with
    | .chdr, _ => chdrValue ec bs
    | .gnuhash, .elfclass32 => swapFields (List.replicate (bs.length / 4) (number 3)) bs
    | .gnuhash, .elfclass64 => swapFields (gnuhashFields (bitmaskWords o bs) bs.length) bs
    | _, _ => bs

/-- Fixed-size records: the loop must not come to a record that it has written to. -/
def MovableRecords (d s len : Nat) : Prop := d ≤ s ∨ Separate d len s len

/-- Version records: when a record or a link is read, no record has been converted over it, and the copy was not made
over it. No link that a decoder follows has become zero. -/
def MovableVersions (o : ByteOrder) (v : VersionType) (encode : Bool) (d s : Nat) (bs : List UInt8) : Prop :=
  Clean d s bs.length [] (touched o v bs encode (bs.length + 1) 0) ∧ Advances o v bs encode (bs.length + 1) 0

/-- Notes: in place all of them are whole, and as long in the other byte order; elsewhere no piece is copied
within itself. -/
def MovableNotes (o foreign : ByteOrder) (encode : Bool) (align d s : Nat) (bs : List UInt8) : Prop :=
  let spans := noteSpans o align (bs.length + 1) bs
  if d = s then noteSpans foreign align (bs.length + 1) bs = spans ∧ bs.length - spans.sum < 12
  else s + bs.length ≤ d ∨
    d < s ∧ (encode = true → bs.length < 12 ∨ d + 12 ≤ s) ∧ Clear (s - d) spans bs.length

/-- A table of class 64: it is made up of whole words, and unless it is a single one, the number of words in its
bit mask is not lost before it is read, nor another one in the other byte order when it is read swapped. -/
def MovableGnuhash (o foreign : ByteOrder) (encode : Bool) (d s : Nat) (bs : List UInt8) : Prop :=
  packedSize (gnuhashFields (bitmaskWords o bs) bs.length) = bs.length ∧ (bs.length = 4 ∨
    if d = s then gnuhashFields (bitmaskWords foreign bs) bs.length = gnuhashFields (bitmaskWords o bs) bs.length
    else Separate d bs.length s bs.length ∨ d < s ∧ (encode = true → bs.length < 16 ∨ d + 8 ≤ s))

/-- A compressed section: the copy is not made over the header. -/
def MovableChdr (ec : ElfClass) (d s len : Nat) : Prop :=
  d = s ∨ Separate d len s len ∨ s + packedSize (chdrFields ec) ≤ d ∨ len < packedSize (chdrFields ec)

/-- Where a conversion of the bytes `bs` at `s` into the range at `d` gives what it would give elsewhere. -/
def Movable (tof : Bool) (host : ByteOrder) (ec : ElfClass) (t : ElfType) (d s : Nat) (bs : List UInt8) : Prop :=
  let o := sourceOrder tof host
  match fundamentalSize ec t, recordFields ec t, versionType t, noteAlignment t with
  | some _, _, _, _ => True
  | none, some _, _, _ => MovableRecords d s bs.length
  | none, none, some v, _ => MovableVersions o v tof d s bs
  | none, none, none, some align => MovableNotes o host.flip tof align d s bs
  | none, none, none, none =>
    match t, ec with
    | .move, _ => bs = []
    | .chdr, _ => MovableChdr ec d s bs.length
    | .gnuhash, .elfclass64 => MovableGnuhash o host.flip tof d s bs
    | _, _ => True

/-! ## The conversion functions -/

section Types

variable {host : ByteOrder} {tof : Bool} {ec : ElfClass} {d s len : Nat} {m : Mem n}

/-- A conversion that leaves `value` at its destination and nothing elsewhere. -/
def Leaves (c : Conv n) (d len : Nat) (m : Mem n) (value : List UInt8) : Prop :=
  ∃ m', c m = .ok () m' ∧ Frame m m' d len ∧ window m'.bytes d len = value

theorem fundamental_leaves {w : Nat} (hw : 0 < w) (hs : s + len ≤ n) (hd : d + len ≤ n) (hlen : len % w = 0) :
    Leaves (cvtFundamental w d s len) d len m
      (swapFields (List.replicate (len / w) (number (w - 1))) (window m.bytes s len)) := by
  obtain ⟨w, rfl⟩ : ∃ k, w = k + 1 := ⟨w - 1, by omega⟩
  obtain ⟨count, rfl⟩ := Nat.dvd_of_mod_eq_zero hlen
  rw [Nat.mul_comm] at hs hd ⊢
  rw [Nat.mul_div_cancel _ hw]
  exact cvtFundamental_exact w count hs hd

theorem records_leaves {fs : List Field} (hfs : 0 < packedSize fs) (hs : s + len ≤ n) (hd : d + len ≤ n)
    (hlen : len % packedSize fs = 0) (hmove : MovableRecords d s len) :
    Leaves (cvtRecords fs (len / packedSize fs) d s) d len m
      (swapFields (tableFields fs (len / packedSize fs)) (window m.bytes s len)) := by
  obtain ⟨count, rfl⟩ := Nat.dvd_of_mod_eq_zero hlen
  rw [Nat.mul_comm] at hs hd hmove ⊢
  rw [Nat.mul_div_cancel _ hfs]
  exact cvtRecords_exact fs count hmove.symm hs hd

theorem notes_leaves {align : Nat} (hs : s + len ≤ n) (hd : d + len ≤ n)
    (hmove : MovableNotes (sourceOrder tof host) host.flip tof align d s (window m.bytes s len)) :
    Leaves (cvtNote host align tof d s len) d len m
      (swapNotes (sourceOrder tof host) align (len + 1) (window m.bytes s len)) := by
  have hl : (window m.bytes s len).length = len := length_window (by rw [m.length_eq]; exact hs)
  unfold MovableNotes at hmove
  rw [hl] at hmove
  by_cases hds : d = s
  · rw [if_pos hds] at hmove
    subst hds
    obtain ⟨m', hm', hframe, hwin⟩ := @cvtNotes_inPlace n host align tof (len + 1) d
      len m hs (Nat.lt_succ_self _)
    refine ⟨m', hm', hframe, hwin.trans (swapNotesInPlace_eq _ hmove.1 ?_)⟩
    rw [hl]
    exact hmove.2
  · rw [if_neg hds] at hmove
    exact cvtNotes_exact (len + 1) hs hd (Nat.lt_succ_self _) hmove

/-- A single word is read before it is written. -/
theorem gnuhash_word_leaves (hs : s + 4 ≤ n) (hd : d + 4 ≤ n) :
    Leaves (cvtGnuhash host tof d s 4) d 4 m (swapFields [number 3] (window m.bytes s 4)) := by
  have hlen : (window m.bytes s 4).reverse.length = 4 := by
    rw [List.length_reverse, length_window (by rw [m.length_eq]; exact hs)]
  have hin : d + (window m.bytes s 4).reverse.length ≤ n := by rw [hlen]; exact hd
  have hframe := frame_splice m hin
  have hself := window_splice m hin
  rw [hlen] at hframe hself
  refine ⟨m.splice d _ hin, ?_, hframe, ?_⟩
  · rw [cvtGnuhash, cvtWords, if_neg (by decide), read_of_le m hs, bind_ok, write_of_le m hin, bind_ok, cvtWords,
      if_pos (by decide)]
    rfl
  · have htake : (window m.bytes s 4).take (number 3).width = window m.bytes s 4 :=
      List.take_of_length_le (length_window_le ..)
    rw [hself, swapFields, swapFields, List.append_nil, htake]
    rfl

theorem gnuhash_leaves (hs : s + len ≤ n) (hd : d + len ≤ n)
    (hmove : MovableGnuhash (sourceOrder tof host) host.flip tof d s (window m.bytes s len)) :
    Leaves (cvtGnuhash host tof d s len) d len m
      (swapFields (gnuhashFields (bitmaskWords (sourceOrder tof host) (window m.bytes s len)) len)
        (window m.bytes s len)) := by
  have hl : (window m.bytes s len).length = len := length_window (by rw [m.length_eq]; exact hs)
  unfold MovableGnuhash at hmove
  rw [hl] at hmove
  obtain ⟨hwhole, rfl | hplace⟩ := hmove
  · exact gnuhash_word_leaves hs hd
  have horder : gnuhashOrder host tof false = sourceOrder tof host := by cases tof <;> rfl
  have hbehind : Behind d s len := by
    split at hplace
    · next h => exact .inr (Nat.le_of_eq h)
    · exact hplace.imp id fun h => Nat.le_of_lt h.1
  obtain ⟨fs, hfs, heq⟩ : ∃ fs, packedSize fs = len ∧ fs =
      gnuhashFields (bitmaskWords (sourceOrder tof host) (window m.bytes s len)) len ∧
      cvtGnuhash host tof d s len m = cvtFields fs d s m := by
    refine ⟨_, hwhole, rfl, ?_⟩
    by_cases hds : d = s
    · rw [if_pos hds] at hplace
      rw [@cvtGnuhash_eq n host tof true d s len m hbehind hs hd (.inr (.inl ⟨rfl, hds⟩)), gnuhashOrder, if_neg (by simp),
        hplace]
    · rw [if_neg hds] at hplace
      rw [← horder]
      refine cvtGnuhash_eq hbehind hs hd ?_
      by_cases hshort : len < 16
      · exact .inl hshort
      · refine .inr (.inr ⟨rfl, fun h => ?_⟩)
        exact hplace.imp id fun hp => (hp.2 h).resolve_left hshort
  obtain ⟨m', hm', hframe, hwin⟩ := cvtFields_exact fs (m := m) (by rw [hfs]; exact hbehind) (by rw [hfs]; exact hs)
    (by rw [hfs]; exact hd)
  rw [hfs] at hframe hwin
  exact ⟨m', by rw [heq.2, hm'], hframe, by rw [hwin, heq.1]⟩

theorem chdr_leaves (hs : s + len ≤ n) (hd : d + len ≤ n) (hmove : MovableChdr ec d s len) :
    Leaves (cvtChdr ec d s len) d len m (chdrValue ec (window m.bytes s len)) :=
  cvtChdr_exact ec hs hd hmove

theorem versions_leaves {v : VersionType} (hv : v.Linked) (hs : s + len ≤ n) (hd : d + len ≤ n)
    (hmove : MovableVersions (sourceOrder tof host) v tof d s (window m.bytes s len)) :
    Leaves (cvtVersion host v tof d s len) d len m (pasted swapFields (window m.bytes s len) (window m.bytes s len)
      (writes (touched (sourceOrder tof host) v (window m.bytes s len) tof (len + 1) 0))) := by
  have hl : (window m.bytes s len).length = len := length_window (by rw [m.length_eq]; exact hs)
  unfold MovableVersions at hmove
  rw [hl] at hmove
  exact cvtVersion_exact hv rfl hs hd hmove.1 hmove.2

/-- Bytes are copied. -/
theorem bytes_leaves (hs : s + len ≤ n) (hd : d + len ≤ n) :
    Leaves (fun m => if len = 0 then .ok () m else memmove d s len m) d len m (window m.bytes s len) := by
  by_cases hz : len = 0
  · subst hz
    exact ⟨m, if_pos rfl, Frame.refl _ _ _, by rw [window_zero, window_zero]⟩
  · obtain ⟨m', hm', hrest⟩ := memmove_exact (m := m) hs hd
    exact ⟨m', by simp only [if_neg hz, hm'], hrest⟩

/-- The types whose conversion functions take any number of bytes. -/
def FreeSize (ec : ElfClass) (t : ElfType) : Prop :=
  t = .vdef ∨ t = .vdaux ∨ t = .vneed ∨ t = .vnaux ∨ t = .nhdr ∨ t = .nhdr8 ∨ t = .chdr ∨
    t = .gnuhash ∧ ec = .elfclass64

instance (ec : ElfClass) (t : ElfType) : Decidable (FreeSize ec t) :=
  inferInstanceAs (Decidable (_ ∨ _))

theorem not_freeSize_of_fundamental {t : ElfType} {w : Nat} (h : fundamentalSize ec t = some w) :
    ¬ FreeSize ec t := by
  cases ec <;> cases t <;> cases h <;> decide

theorem not_freeSize_of_record {t : ElfType} {fs : List Field} (h : recordFields ec t = some fs) :
    ¬ FreeSize ec t := by
  cases ec <;> cases t <;> cases h <;> decide

theorem fundamentalSize_pos {t : ElfType} {w : Nat} (h : fundamentalSize ec t = some w) : 0 < w := by
  cases ec <;> cases t <;> cases h <;> decide

theorem recordFields_pos {t : ElfType} {fs : List Field} (h : recordFields ec t = some fs) : 0 < packedSize fs := by
  cases ec <;> cases t <;> cases h <;> decide

/-- A conversion function translates the bytes of the source. -/
theorem xfct_exact {t : ElfType} (hs : s + len ≤ n) (hd : d + len ≤ n)
    (hrec : FreeSize ec t ∨ len % typeSize ec t = 0)
    (hmove : Movable tof host ec t d s (window m.bytes s len)) :
    Leaves (xfct host ec t tof d s len) d len m (translated tof host ec t (window m.bytes s len)) := by
  have hl : (window m.bytes s len).length = len := length_window (by rw [m.length_eq]; exact hs)
  unfold Movable at hmove
  unfold translated xfct
  unfold typeSize at hrec
  simp only [hl] at hmove ⊢
  cases hw : fundamentalSize ec t with
  | some w =>
    rw [hw] at hrec
    exact fundamental_leaves (fundamentalSize_pos hw) hs hd (hrec.resolve_left (not_freeSize_of_fundamental hw))
  | none =>
    cases hfs : recordFields ec t with
    | some fs =>
      rw [hw, hfs] at hrec hmove
      exact records_leaves (recordFields_pos hfs) hs hd (hrec.resolve_left (not_freeSize_of_record hfs)) hmove
    | none =>
      rw [hw, hfs] at hmove hrec
      cases t with
      | byte => exact bytes_leaves hs hd
      | vdef => exact versions_leaves linked_verdef hs hd hmove
      | vdaux => exact versions_leaves linked_verdef hs hd hmove
      | vneed => exact versions_leaves linked_verneed hs hd hmove
      | vnaux => exact versions_leaves linked_verneed hs hd hmove
      | nhdr => exact notes_leaves hs hd hmove
      | nhdr8 => exact notes_leaves hs hd hmove
      | move =>
        have hz : len = 0 := by
          have h := congrArg List.length (show window m.bytes s len = [] from hmove)
          rwa [hl] at h
        subst hz
        refine ⟨m, by cases ec <;> rfl, Frame.refl _ _ _, ?_⟩
        show window m.bytes d 0 = window m.bytes s 0
        rw [window_zero, window_zero]
      | chdr => exact chdr_leaves hs hd hmove
      | gnuhash =>
        cases ec with
        | elfclass32 => exact fundamental_leaves (by decide) hs hd (hrec.resolve_left (by decide))
        | elfclass64 => exact gnuhash_leaves hs hd hmove
      | _ => first | (cases hw; done) | cases hfs

end Types

/-! ## A separate buffer -/

/-- A separate buffer is as good a place as any other. -/
theorem Movable.separate {tof : Bool} {host : ByteOrder} {ec : ElfClass} {t : ElfType} {d s d' s' : Nat}
    {bs : List UInt8} (h : Movable tof host ec t d s bs) (hsep : Separate d' bs.length s' bs.length) :
    Movable tof host ec t d' s' bs := by
  have hnil : d' = s' → bs = [] := fun hds => List.length_eq_zero_iff.mp (by rcases hsep with h | h <;> omega)
  unfold Movable at h ⊢
  cases hw : fundamentalSize ec t with
  | some w => trivial
  | none =>
    cases hfs : recordFields ec t with
    | some fs => exact .inr hsep
    | none =>
      cases hv : versionType t with
      | some v =>
        rw [hw, hfs, hv] at h
        have h : MovableVersions _ v tof d s bs := h
        have hv : v.Linked := by
          cases t <;> cases hv <;> first | exact linked_verdef | exact linked_verneed
        refine ⟨?_, h.2⟩
        by_cases hds : d' = s'
        · have hsize := hv.defAux.le
          rw [hnil hds, touched, if_pos (.inr (by show 0 < packedSize v.defFields; omega))]
          trivial
        · exact clean_walk hv rfl hds hsep _ _
      | none =>
        cases hn : noteAlignment t with
        | some align =>
          show MovableNotes _ _ _ align d' s' bs
          by_cases hds : d' = s'
          · rw [hnil hds, MovableNotes, if_pos hds]
            exact ⟨rfl, Nat.lt_of_le_of_lt (Nat.sub_le _ _) (by decide)⟩
          · rw [MovableNotes, if_neg hds]
            rcases hsep with hsep | hsep
            · refine .inr ⟨by omega, fun _ => by omega, fun k hk => ?_, by omega⟩
              have := noteSpans_le _ _ _ k hk
              omega
            · exact .inl hsep
        | none =>
          rw [hw, hfs, hv, hn] at h
          cases t with
          | move => exact h
          | chdr => exact .inr (.inl hsep)
          | gnuhash =>
            cases ec with
            | elfclass32 => trivial
            | elfclass64 =>
              have h : MovableGnuhash _ _ _ d s bs := h
              show MovableGnuhash _ _ _ d' s' bs
              refine ⟨h.1, .inr ?_⟩
              by_cases hds : d' = s'
              · rw [if_pos hds, hnil hds]
                rfl
              · rw [if_neg hds]
                exact .inl hsep
          | _ => trivial

/-! ## The two functions -/

/-- What a call produces does not depend on where its destination lies, when the source can be moved there. -/
theorem translation_anywhere {n' : Nat} {tof : Bool} {host : ByteOrder} {ec : ElfClass} {t : ElfType}
    {encoding d dsize s size d' s' : Nat} {m : Mem n} {m' : Mem n'} (hsrc : s + size ≤ n) (hdst : d + dsize ≤ n)
    (hsrc' : s' + size ≤ n') (hdst' : d' + dsize ≤ n') (hsame : window m'.bytes s' size = window m.bytes s size)
    (hsep : Separate d' size s' size)
    (hmove : encoding = nativeEncoding host ∨ Movable tof host ec t d s (window m.bytes s size)) :
    ∃ result, produced d' size (elfXlate tof host ec t encoding d' dsize s' size m') = some result ∧
      produced d size (elfXlate tof host ec t encoding d dsize s size m) = some result := by
  cases hcheck : xlateCheck tof ec t encoding dsize size with
  | some e =>
    rw [elfXlate, elfXlate, hcheck]
    exact ⟨.error e, rfl, rfl⟩
  | none =>
    have hl : (window m.bytes s size).length = size := length_window (by rw [m.length_eq]; exact hsrc)
    obtain ⟨hrec, hroom⟩ : (FreeSize ec t ∨ size % typeSize ec t = 0) ∧ size ≤ dsize := by
      unfold xlateCheck at hcheck
      by_cases hr : (tof = true ∨ t ≠ .nhdr ∧ t ≠ .nhdr8) ∧ size % typeSize ec t ≠ 0
      · rw [if_pos hr] at hcheck
        cases hcheck
      · rw [if_neg hr] at hcheck
        refine ⟨?_, ?_⟩
        · by_cases hfree : FreeSize ec t
          · exact .inl hfree
          · refine .inr (by_contra fun hne => hr ⟨.inr ⟨?_, ?_⟩, hne⟩) <;> rintro rfl <;> exact hfree (by simp [FreeSize])
        · by_contra hlt
          rw [if_pos (by omega)] at hcheck
          cases hcheck
    rw [elfXlate, elfXlate, hcheck]
    simp only
    by_cases hnative : encoding = nativeEncoding host
    · rw [if_pos hnative, if_pos hnative]
      refine ⟨.ok (window m.bytes s size), ?_, ?_⟩
      · by_cases hds : s' ≠ d'
        · obtain ⟨m₁, hm₁, -, hwin⟩ := memmove_exact (m := m') hsrc' (by omega : d' + size ≤ n')
          rw [if_pos hds, hm₁, produced, hwin, hsame]
        · rw [if_neg hds, produced, ← hsame, not_not.mp hds]
      · by_cases hds : s ≠ d
        · obtain ⟨m₁, hm₁, -, hwin⟩ := memmove_exact (m := m) hsrc (by omega : d + size ≤ n)
          rw [if_pos hds, hm₁, produced, hwin]
        · rw [if_neg hds, produced, not_not.mp hds]
    · rw [if_neg hnative, if_neg hnative]
      have hm := hmove.resolve_left hnative
      have hm' : Movable tof host ec t d' s' (window m'.bytes s' size) := by
        rw [hsame]
        exact hm.separate (by rw [hl]; exact hsep)
      obtain ⟨m₁, hm₁, -, hwin⟩ := xfct_exact hsrc (by omega) hrec hm
      obtain ⟨m₂, hm₂, -, hwin'⟩ := xfct_exact hsrc' (by omega) hrec hm'
      refine ⟨.ok (translated tof host ec t (window m.bytes s size)), ?_, ?_⟩
      · rw [hm₂, produced, hwin', hsame]
      · rw [hm₁, produced, hwin]

/-! ### A table in place -/

/-- A GNU hash table of class 64 in the byte order of a little-endian host: one word in the bit mask and one
bucket. -/
def hashTable : List UInt8 :=
  [1, 0, 0, 0, 1, 0, 0, 0, 1, 0, 0, 0, 6, 0, 0, 0, 1, 2, 3, 4, 5, 6, 7, 8, 9, 0, 0, 0]

/-- The table and as many bytes after it. -/
def hashMemory : Mem 56 := ⟨hashTable ++ List.replicate 28 0, rfl⟩

/-- Encoded in place, the table has the bucket left as it was: the number of words in the bit mask is read after
it was swapped. -/
theorem hashTable_encoded :
    produced 28 28 (elfXlate true .little .elfclass64 .gnuhash 2 28 28 0 28 hashMemory) =
      some (.ok [0, 0, 0, 1, 0, 0, 0, 1, 0, 0, 0, 1, 0, 0, 0, 6, 8, 7, 6, 5, 4, 3, 2, 1, 0, 0, 0, 9]) ∧
    produced 0 28 (elfXlate true .little .elfclass64 .gnuhash 2 0 28 0 28 hashMemory) =
      some (.ok [0, 0, 0, 1, 0, 0, 0, 1, 0, 0, 0, 1, 0, 0, 0, 6, 8, 7, 6, 5, 4, 3, 2, 1, 9, 0, 0, 0]) :=
  ⟨rfl, rfl⟩

/-- Decoded in place, the table of a big-endian file comes out right. -/
theorem hashTable_decoded :
    let table : Mem 56 := ⟨[0, 0, 0, 1, 0, 0, 0, 1, 0, 0, 0, 1, 0, 0, 0, 6, 8, 7, 6, 5, 4, 3, 2, 1, 0, 0, 0, 9] ++
      List.replicate 28 0, rfl⟩
    ∃ result, produced 28 28 (elfXlate false .little .elfclass64 .gnuhash 2 28 28 0 28 table) = some result ∧
      produced 0 28 (elfXlate false .little .elfclass64 .gnuhash 2 0 28 0 28 table) = some result :=
  translation_anywhere (by decide) (by decide) (by decide) (by decide) rfl (.inr (by decide))
    (.inr ⟨by decide, .inr rfl⟩)

end LibElf.Elfutils
