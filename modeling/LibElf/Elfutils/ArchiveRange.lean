import LibElf.Elfutils.Archives

/-!
# Ranges of archives

What `elf_begin`, `elf_next`, `elf_rand` and `elf_getarhdr` read and hand out lies in the range of the archive,
as long as the positions at which they look for a header do.

1. `Elf.InRange`, and `Elf.HasHeader` for a position that a header is read at.
2. `NamesAt`, where the walk for the long names comes to, and `Walked`, what a call keeps of an archive.
3. `nextArhdr_current`: the header that was read describes a range inside the archive.
-/

namespace LibElf.Elfutils

open Outcome

variable {env : Env} {e : Elf} {w w' : Walk} {l : Lib} {h : Handle}

/-! ## Ranges -/

/-- The `len` bytes at `pos` lie in the range of the descriptor. -/
def Elf.InRange (e : Elf) (pos len : Nat) : Prop :=
  e.startOffset ≤ pos ∧ pos + len ≤ e.startOffset + e.maximumSize

instance (e : Elf) (pos len : Nat) : Decidable (e.InRange pos len) := inferInstanceAs (Decidable (_ ∧ _))

/-- A header is read at `pos`: a mapped archive does not end before, or the file does not. -/
def Elf.HasHeader (env : Env) (e : Elf) (pos : Nat) : Prop :=
  match e.mapAddress with
  | some _ => pos + arHdrSize ≤ e.startOffset + e.maximumSize
  | none => e.fildes ≠ -1 ∧ pos + arHdrSize ≤ (env.file e.fildes).bytes.length

instance (env : Env) (e : Elf) (pos : Nat) : Decidable (e.HasHeader env pos) := by
  unfold Elf.HasHeader
  split <;> exact inferInstance

/-- The bytes from `pos` on, as far as a walk for the long names can read them. -/
def Elf.bytesAt (env : Env) (e : Elf) (pos : Nat) : List UInt8 :=
  match e.mapAddress with
  | some image => window image.bytes pos (e.startOffset + e.maximumSize - pos)
  | none => window (env.file e.fildes).bytes pos arHdrSize

def Elf.headerAt (env : Env) (e : Elf) (pos : Nat) : List UInt8 :=
  match e.mapAddress with
  | some image => window image.bytes pos arHdrSize
  | none => window (env.file e.fildes).bytes pos arHdrSize

/-- There is a header at `offset` for the walk that looks for the long names. -/
def Elf.NamesHeader (env : Env) (e : Elf) (offset : Nat) : Prop :=
  match e.mapAddress with
  | some _ => offset + arHdrSize ≤ e.maximumSize
  | none => e.fildes ≠ -1 ∧ e.namesPos offset + arHdrSize ≤ (env.file e.fildes).bytes.length

/-- The walk for the long names comes to `offset`. -/
inductive NamesAt (env : Env) (e : Elf) : Nat → Prop
  | start : NamesAt env e sarmag
  | next {offset : Nat} {n : Int} : NamesAt env e offset → e.NamesHeader env offset →
      intField (e.bytesAt env (e.namesPos offset)) 48 10 = some n →
      window (e.bytesAt env (e.namesPos offset)) 0 16 ≠ padName namesName →
      NamesAt env e (entryEnd offset (sizeT n))

/-- The headers of the walk for the long names lie in the range of the archive. -/
def NamesInRange (env : Env) (e : Elf) : Prop :=
  ∀ offset, NamesAt env e offset → e.NamesHeader env offset → e.InRange (e.namesPos offset) arHdrSize

/-- The sizes in the headers of the walk for the long names end before the bytes do. -/
def NamesEnd (env : Env) (e : Elf) : Prop :=
  ∀ offset, NamesAt env e offset → e.NamesHeader env offset →
    (intField (e.bytesAt env (e.namesPos offset)) 48 10).isSome

/-- The header has a name in the table of long names. -/
def IsLong (hdr : List UInt8) : Prop := hdr.getD 0 0 = 0x2F ∧ isDigit (hdr.getD 1 0) = true

/-- A header whose size is missing or negative. -/
def BadSize (hdr : List UInt8) : Prop :=
  window hdr 58 2 = arfmag ∧ (hdr.getD 48 0 = 0x20 ∨ ∃ n, intField hdr 48 10 = some n ∧ n < 0)

/-- A descriptor as opening leaves it: its range does not wrap around and is mapped as far as it is mapped at all. -/
structure Elf.Placed (e : Elf) : Prop where
  small : e.startOffset + e.maximumSize < 2 ^ 63
  mapped : ∀ image, e.mapAddress = some image → e.startOffset + e.maximumSize ≤ image.bytes.length

/-! ## Walks over an archive -/

/-- A call on the archive `e` has changed nothing but its header and the table of its long names, and has read
headers in its range. -/
structure Walked (e : Elf) (w : Walk) : Prop where
  elf : w.elf = e.setAr w.elf.ar
  offset : w.elf.ar.offset = e.ar.offset
  children : w.elf.ar.children = e.ar.children
  names : w.elf.ar.longNames = none → e.ar.longNames = none
  used : ∀ pos ∈ w.used, e.InRange pos arHdrSize

/-- The name of the current header is the one before. -/
structure SameName (e : Elf) (w : Walk) : Prop extends Walked e w where
  name : w.elf.ar.elfArHdr.arName = e.ar.elfArHdr.arName

namespace Walked

theorem refl {us : List Nat} (hus : ∀ pos ∈ us, e.InRange pos arHdrSize) : Walked e ⟨e, us⟩ :=
  ⟨rfl, rfl, rfl, id, hus⟩

/-- Two calls, one after the other. -/
theorem trans (hw : Walked e w) (hw' : Walked w.elf w') : Walked e w' := by
  refine ⟨?_, hw'.offset.trans hw.offset, hw'.children.trans hw.children, hw.names ∘ hw'.names,
    fun pos hpos => ?_⟩
  · rw [hw'.elf, hw.elf]
    rfl
  · have := hw'.used pos hpos
    rw [hw.elf] at this
    exact this

theorem mapAddress (hw : Walked e w) : w.elf.mapAddress = e.mapAddress := by rw [hw.elf]; rfl
theorem startOffset (hw : Walked e w) : w.elf.startOffset = e.startOffset := by rw [hw.elf]; rfl
theorem maximumSize (hw : Walked e w) : w.elf.maximumSize = e.maximumSize := by rw [hw.elf]; rfl
theorem fildes (hw : Walked e w) : w.elf.fildes = e.fildes := by rw [hw.elf]; rfl

theorem namesPos (hw : Walked e w) (offset : Nat) : w.elf.namesPos offset = e.namesPos offset := by
  unfold Elf.namesPos
  rw [hw.mapAddress, hw.startOffset]

/-- One more header was read. -/
theorem use (hw : Walked e w) {pos : Nat} (hpos : e.InRange pos arHdrSize) : Walked e (w.use pos) := by
  refine ⟨hw.elf, hw.offset, hw.children, hw.names, fun p hp => ?_⟩
  rcases List.mem_append.mp hp with hp | hp
  · exact hw.used p hp
  · rw [List.mem_singleton.mp hp]
    exact hpos

/-- The header or the table of names is set. -/
theorem setAr (hw : Walked e w) {a : Ar} (hoff : a.offset = e.ar.offset) (hchildren : a.children = e.ar.children)
    (hnames : a.longNames = none → e.ar.longNames = none) : Walked e (w.setAr a) := by
  refine ⟨?_, hoff, hchildren, hnames, hw.used⟩
  rw [Walk.setAr, hw.elf]
  rfl

theorem setHdr (hw : Walked e w) (a : Arhdr) : Walked e (w.setHdr a) :=
  hw.setAr hw.offset hw.children hw.names

end Walked

/-- A read from the file that returns a whole header. -/
theorem pread_header {fildes : Int} {pos : Nat} {hdr : List UInt8}
    (hread : preadRetry env fildes arHdrSize pos = some hdr) (hlen : hdr.length = arHdrSize) :
    fildes ≠ -1 ∧ pos + arHdrSize ≤ (env.file fildes).bytes.length ∧
      hdr = window (env.file fildes).bytes pos arHdrSize := by
  unfold preadRetry at hread
  split at hread
  · cases hread
  · next hfd =>
    obtain rfl := Option.some.inj hread
    refine ⟨fun hneg => hfd (.inl hneg), ?_, rfl⟩
    simp only [window, List.length_take, List.length_drop, arHdrSize] at hlen ⊢
    omega

/-! ## The table of long names -/

/-- The header that the walk for the long names reads next. -/
theorem namesHeader_reads (hp : e.Placed) (hin : NamesInRange env e) (hs : SameName e w) {offset : Nat}
    (hat : NamesAt env e offset) : (namesHeader env offset w).Ensures
      (fun hdr w' => SameName e w' ∧
        ∀ bs, hdr = some bs → e.NamesHeader env offset ∧ bs = e.bytesAt env (e.namesPos offset))
      (fun _ => False) (fun f => f ≠ .load) := by
  unfold namesHeader
  extract_lets e₁ pos
  have hpos : pos = e.namesPos offset := hs.namesPos offset
  split
  · next image himage =>
    rw [show e₁.mapAddress = e.mapAddress from hs.mapAddress] at himage
    rw [show e₁.maximumSize = e.maximumSize from hs.maximumSize,
      show e₁.startOffset = e.startOffset from hs.startOffset]
    split
    · exact ⟨hs, by rintro _ ⟨⟩⟩
    · next hfit =>
      have hhas : e.NamesHeader env offset := by
        unfold Elf.NamesHeader
        rw [himage]
        omega
      have hrange := hin offset hat hhas
      have hbound := hp.mapped image himage
      rw [mapHeader, hpos, readAt_of_le _ (by have := hrange.2; omega)]
      refine ⟨⟨hs.toWalked.use hrange, hs.name⟩, fun bs hbs => ⟨hhas, ?_⟩⟩
      obtain rfl := Option.some.inj hbs
      unfold Elf.bytesAt
      rw [himage]
  · next himage =>
    rw [show e₁.mapAddress = e.mapAddress from hs.mapAddress] at himage
    rw [show e₁.fildes = e.fildes from hs.fildes, hpos]
    split
    · next hdr hread =>
      split
      · next hlen =>
        obtain ⟨hfd, hfile, rfl⟩ := pread_header hread hlen
        have hhas : e.NamesHeader env offset := by
          unfold Elf.NamesHeader
          rw [himage]
          exact ⟨hfd, hfile⟩
        refine ⟨⟨hs.toWalked.use (hin offset hat hhas), hs.name⟩, fun bs hbs => ⟨hhas, ?_⟩⟩
        obtain rfl := Option.some.inj hbs
        unfold Elf.bytesAt
        rw [himage]
      · exact ⟨hs, by rintro _ ⟨⟩⟩
    · exact ⟨hs, by rintro _ ⟨⟩⟩

/-- The walk for the long names reads headers in the range of the archive, and ends at one of them. -/
theorem findNames_reads (hp : e.Placed) (hin : NamesInRange env e) (fuel : Nat) :
    ∀ {w : Walk} {offset : Nat}, SameName e w → NamesAt env e offset → (findNames env fuel offset w).Ensures
      (fun found w' => SameName e w' ∧ NamesAt env e found.1 ∧ e.NamesHeader env found.1)
      (SameName e) (fun f => NamesEnd env e → f ≠ .load) := by
  induction fuel with
  | zero => exact fun _ _ => fun _ => nofun
  | succ fuel ih =>
    intro w offset hs hat
    refine ensures_bind (ensures_mono (namesHeader_reads hp hin hs hat) (fun _ _ h => h)
      (fun _ h => h.elim) fun _ h _ => h) ?_
    rintro hdr w' ⟨hs', hhdr⟩
    cases hdr with
    | none => exact hs'
    | some bs =>
      obtain ⟨hhas, rfl⟩ := hhdr _ rfl
      cases hsize : intField (e.bytesAt env (e.namesPos offset)) 48 10 with
      | none =>
        simp only [hsize]
        intro hend
        have := hend offset hat hhas
        rw [hsize] at this
        cases this
      | some n =>
        simp only [hsize]
        split
        · exact ⟨hs', hat, hhas⟩
        · next hname => exact ih hs' (.next hat hhas hsize hname)

/-- The bytes of the table lie behind its header. -/
theorem namesBytes_reads (hp : e.Placed) (hin : NamesInRange env e) (hs : SameName e w) {offset len : Nat}
    (hat : NamesAt env e offset) (hhas : e.NamesHeader env offset) :
    (namesBytes env offset len w).Ensures (fun _ => SameName e) (SameName e) (fun f => f ≠ .load) := by
  unfold namesBytes
  extract_lets e₁ pos
  have hpos : pos = e.namesPos (wrap (offset + arHdrSize)) := hs.namesPos _
  split
  · next image himage =>
    have himage' := himage
    rw [show e₁.mapAddress = e.mapAddress from hs.mapAddress] at himage'
    have hrange := hin offset hat hhas
    have hsmall := hp.small
    unfold Elf.NamesHeader at hhas
    rw [himage'] at hhas
    have hplace : e.namesPos offset = offset := by
      unfold Elf.namesPos
      rw [himage']
      rfl
    rw [hplace] at hrange
    have hpos' : pos = offset + arHdrSize := by
      rw [hpos, wrap_of_lt (by simp only [arHdrSize] at hhas ⊢; omega)]
      unfold Elf.namesPos
      rw [himage']
      rfl
    split
    · exact hs
    · next hfit =>
      rw [show e₁.maximumSize = e.maximumSize from hs.maximumSize] at hfit
      have hin' : ¬ (len ≠ 0 ∧ (pos < e₁.startOffset ∨ e₁.startOffset + e₁.maximumSize < pos + len)) := by
        rw [show e₁.startOffset = e.startOffset from hs.startOffset,
          show e₁.maximumSize = e.maximumSize from hs.maximumSize]
        have := hrange.1
        rintro ⟨-, hlt | hlt⟩ <;> omega
      rw [Elf.mapRead, himage]
      simp only
      rw [if_neg hin', readAt_of_le]
      · exact hs
      · have := hp.mapped image himage'
        have := hrange.2
        omega
  · split
    · split
      · exact hs
      · exact hs
    · exact hs

theorem readLongNames_reads (hp : e.Placed) (hin : NamesInRange env e) (hs : SameName e w) :
    (readLongNames env w).Ensures (fun _ => SameName e) (SameName e) (fun f => NamesEnd env e → f ≠ .load) := by
  refine ensures_bind (findNames_reads hp hin _ hs .start) ?_
  rintro ⟨offset, len⟩ w' ⟨hs', hat, hhas⟩
  refine ensures_bind (ensures_mono (namesBytes_reads hp hin hs' hat hhas) (fun _ _ h => h) (fun _ h => h)
    fun _ h _ => h) fun bs w'' hs'' => ?_
  exact ⟨hs''.toWalked.setAr hs''.offset hs''.children nofun, hs''.name⟩

/-! ## Numbers in a header -/

theorem mem_dropWhile_of_not {α : Type} {p : α → Bool} {a : α} (ha : p a = false) :
    ∀ {l : List α}, a ∈ l → a ∈ l.dropWhile p
  | b :: l, hmem => by
    rw [List.dropWhile_cons]
    split
    · next hb =>
      rcases List.mem_cons.mp hmem with rfl | hmem
      · rw [ha] at hb
        cases hb
      · exact mem_dropWhile_of_not ha hmem
    · exact hmem

/-- A byte that is no blank, no sign and no digit ends the number. -/
theorem atol_isSome {s : List UInt8} {c : UInt8} (hmem : c ∈ s)
    (hc : isSpace c = false ∧ c ≠ 0x2D ∧ c ≠ 0x2B ∧ isDigit c = false) : (atol s).isSome := by
  obtain ⟨hspace, hminus, hplus, hdigit⟩ := hc
  have hsign : ∀ {t : List UInt8}, c ∈ t → c ∈ (signOf t).2 := by
    intro t ht
    cases t with
    | nil => cases ht
    | cons d t =>
      have htail : c ≠ d → c ∈ t := fun hne => (List.mem_cons.mp ht).resolve_left hne
      show c ∈ (if d = 0x2D then (true, t) else if d = 0x2B then (false, t) else (false, d :: t)).2
      split
      · next hd => exact htail fun hcd => hminus (hcd.trans hd)
      · split
        · next hd => exact htail fun hcd => hplus (hcd.trans hd)
        · exact ht
  have hrest := hsign (mem_dropWhile_of_not hspace hmem)
  have hlen : ((signOf (s.dropWhile isSpace)).2.takeWhile isDigit).length ≠
      (signOf (s.dropWhile isSpace)).2.length := by
    intro heq
    have hall := (List.takeWhile_prefix isDigit).eq_of_length heq
    have := List.all_takeWhile (p := isDigit) (l := (signOf (s.dropWhile isSpace)).2)
    rw [hall] at this
    have := List.all_eq_true.mp this c hrest
    rw [hdigit] at this
    cases this
  unfold atol
  simp only
  rw [if_neg hlen]
  split <;> rfl

/-- The fields of a header that ends as it should are numbers. -/
theorem intField_isSome {hdr : List UInt8} (hfmag : window hdr 58 2 = arfmag) {off len : Nat} (hoff : off ≤ 58) :
    (intField hdr off len).isSome := by
  unfold intField
  split
  · exact atol_isSome (c := 0) (List.mem_append_right _ List.mem_cons_self) (by decide)
  · refine atol_isSome (c := 0x60) ?_ (by decide)
    have hget : hdr[58]? = some 0x60 := by
      have := congrArg (·[0]?) hfmag
      simpa [getElem?_window, arfmag] using this
    refine List.mem_iff_getElem?.mpr ⟨58 - off, ?_⟩
    rw [List.getElem?_drop, Nat.add_sub_cancel' hoff, hget]

/-! ## The next header -/

/-- The current header lies in the range of the archive, and so does its member. -/
def Elf.Current (e : Elf) : Prop :=
  e.InRange e.ar.offset arHdrSize ∧ 0 ≤ e.ar.elfArHdr.arSize ∧
    e.InRange (e.ar.offset + arHdrSize) (sizeT e.ar.elfArHdr.arSize)

/-- The header at the position of the archive. -/
theorem arHeader_reads (hp : e.Placed) {us : List Nat} (hus : ∀ pos ∈ us, e.InRange pos arHdrSize)
    (hhdr : e.HasHeader env e.ar.offset → e.InRange e.ar.offset arHdrSize) :
    (arHeader env ⟨e, us⟩).Ensures
      (fun hdr w => SameName e w ∧ e.HasHeader env e.ar.offset ∧ hdr = e.headerAt env e.ar.offset)
      (SameName e) (fun f => f ≠ .load) := by
  have hself : SameName e ⟨e, us⟩ := ⟨Walked.refl hus, rfl⟩
  have hwrap : wrap (e.startOffset + e.maximumSize) = e.startOffset + e.maximumSize :=
    wrap_of_lt (lt_trans hp.small (by decide))
  unfold arHeader
  simp only
  split
  · next image himage =>
    rw [hwrap]
    split
    · exact hself
    · next hfit =>
      have hhas : e.HasHeader env e.ar.offset := by
        unfold Elf.HasHeader
        rw [himage]
        omega
      have hrange := hhdr hhas
      rw [mapHeader, readAt_of_le _ (le_trans hrange.2 (hp.mapped image himage))]
      refine ⟨⟨hself.toWalked.use hrange, rfl⟩, hhas, ?_⟩
      unfold Elf.headerAt
      rw [himage]
  · next himage =>
    split
    · next hdr hread =>
      split
      · next hlen =>
        obtain ⟨hfd, hfile, rfl⟩ := pread_header hread hlen
        have hhas : e.HasHeader env e.ar.offset := by
          unfold Elf.HasHeader
          rw [himage]
          exact ⟨hfd, hfile⟩
        refine ⟨⟨hself.toWalked.use (hhdr hhas), rfl⟩, hhas, ?_⟩
        unfold Elf.headerAt
        rw [himage]
      · exact hself
    · exact hself

/-- The name of a header. -/
theorem arNameOf_reads (hp : e.Placed) {hdr : List UInt8} (hfmag : window hdr 58 2 = arfmag)
    (hin : IsLong hdr → e.ar.longNames = none → NamesInRange env e) (hs : SameName e w)
    (hnames : w.elf.ar.longNames = e.ar.longNames) : (arNameOf env hdr w).Ensures (fun _ => SameName e) (SameName e)
      (fun f => (IsLong hdr → e.ar.longNames = none → NamesEnd env e) → f ≠ .load) := by
  unfold arNameOf
  extract_lets field
  split
  · next hslash =>
    split
    · exact hs
    · split
      · exact hs
      · split
        · exact hs
        · split
          · next hdigit =>
            have hlong : IsLong hdr := ⟨hslash, hdigit⟩
            have hnumber : (atol (hdr.drop 1)).isSome := by
              refine atol_isSome (c := 0x60) ?_ (by decide)
              have hget : hdr[58]? = some 0x60 := by
                have := congrArg (·[0]?) hfmag
                simpa [getElem?_window, arfmag] using this
              exact List.mem_iff_getElem?.mpr ⟨57, by rw [List.getElem?_drop]; exact hget⟩
            obtain ⟨n, hn⟩ := Option.isSome_iff_exists.mp hnumber
            refine ensures_bind (Q := fun _ => SameName e) ?_ fun names w' hs' => ?_
            · unfold longNames
              split
              · exact hs
              · next hnone =>
                rw [hnames] at hnone
                exact ensures_mono (readLongNames_reads hp (hin hlong hnone) hs) (fun _ _ h => h) (fun _ h => h)
                  fun _ h hend => h (hend hlong hnone)
            · simp only [hn]
              split
              · exact hs'
              · exact hs'
          · exact hs
  · exact hs

theorem ensures_arNumber {hdr : List UInt8} (hfmag : window hdr 58 2 = arfmag) {off len : Nat} (hoff : off ≤ 58)
    {β : Type} {f : Int → Walk → ArCall β} {Q : β → Walk → Prop} {E : Walk → Prop} {F : Fault → Prop}
    (hf : ∀ n, intField hdr off len = some n → (f n w).Ensures Q E F) :
    ((arNumber hdr off len w).bind f).Ensures Q E F := by
  have hsome : (intField hdr off len).isSome := intField_isSome hfmag hoff
  obtain ⟨n, hn⟩ := Option.isSome_iff_exists.mp hsome
  unfold arNumber
  rw [hn]
  exact hf n hn

/-- What is left behind a header in the range. -/
theorem arRest_of_inRange (hp : e.Placed) (hin : e.InRange e.ar.offset arHdrSize) :
    e.arRest = e.startOffset + e.maximumSize - (e.ar.offset + arHdrSize) := by
  have hsmall := hp.small
  obtain ⟨-, hle⟩ := hin
  unfold Elf.arRest
  rw [wrap_of_lt (lt_trans hsmall (by decide))]
  unfold wrap
  simp only [arHdrSize] at hle ⊢
  omega

/-- The numbers of a header in the range: the member is cut at the end of the archive. -/
theorem arFields_current (hp : e.Placed) {hdr : List UInt8} (hfmag : window hdr 58 2 = arfmag)
    (hin : e.InRange e.ar.offset arHdrSize) (hw : Walked e w) (hname : w.elf.ar.elfArHdr.arName ≠ none) :
    (arFields hdr w).Ensures
      (fun _ w' => Walked e w' ∧ w'.elf.Current ∧ w'.elf.ar.elfArHdr.arName ≠ none)
      (fun w' => Walked e w' ∧ BadSize hdr) (fun f => f ≠ .load) := by
  unfold arFields
  split
  · next hblank => exact ⟨hw, hfmag, .inl hblank⟩
  · refine ensures_arNumber hfmag (by decide) fun date _ => ?_
    refine ensures_arNumber hfmag (by decide) fun uid _ => ?_
    refine ensures_arNumber hfmag (by decide) fun gid _ => ?_
    refine ensures_arNumber hfmag (by decide) fun mode _ => ?_
    refine ensures_arNumber hfmag (by decide) fun size hsize => ?_
    extract_lets h
    split
    · next hneg => exact ⟨hw.setHdr _, hfmag, .inr ⟨size, hsize, hneg⟩⟩
    · next hpos =>
      have hrest : w.elf.arRest = e.startOffset + e.maximumSize - (e.ar.offset + arHdrSize) := by
        rw [← arRest_of_inRange hp hin, Elf.arRest, Elf.arRest, hw.startOffset, hw.maximumSize, hw.offset]
      refine ⟨hw.setHdr _, ?_, hname⟩
      have hsmall := hp.small
      obtain ⟨hlow, hhigh⟩ := hin
      show (w.elf.startOffset ≤ w.elf.ar.offset ∧
          w.elf.ar.offset + arHdrSize ≤ w.elf.startOffset + w.elf.maximumSize) ∧
        0 ≤ min size (w.elf.arRest : Int) ∧ w.elf.startOffset ≤ w.elf.ar.offset + arHdrSize ∧
          w.elf.ar.offset + arHdrSize + sizeT (min size (w.elf.arRest : Int)) ≤
            w.elf.startOffset + w.elf.maximumSize
      rw [hrest, hw.startOffset, hw.maximumSize, hw.offset]
      unfold sizeT
      refine ⟨⟨hlow, hhigh⟩, ?_, ?_, ?_⟩ <;> omega

/-- A call that reads a header reads it in the range of the archive. -/
structure Elf.Guarded (env : Env) (e : Elf) : Prop where
  header : e.HasHeader env e.ar.offset → e.InRange e.ar.offset arHdrSize
  names : e.HasHeader env e.ar.offset → IsLong (e.headerAt env e.ar.offset) → e.ar.longNames = none →
    NamesInRange env e

/-- The walk for the long names depends on the image alone. -/
theorem namesAt_setAr {a : Ar} {offset : Nat} (h : NamesAt env (e.setAr a) offset) : NamesAt env e offset := by
  induction h with
  | start => exact .start
  | next _ hhas hsize hname ih => exact .next ih hhas hsize hname

/-- A call that looks again looks in the same place. -/
theorem Elf.Guarded.after (hg : e.Guarded env) (hw : Walked e w) : w.elf.Guarded env := by
  obtain ⟨elf, us⟩ := w
  obtain ⟨helf, hoff, -, hnames, -⟩ := hw
  have hread : (e.setAr elf.ar).Guarded env := by
    refine ⟨fun hhas => ?_, fun hhas hlong hnone offset hat hheader => ?_⟩
    · have hhas : e.HasHeader env elf.ar.offset := hhas
      show e.InRange elf.ar.offset arHdrSize
      rw [show elf.ar.offset = e.ar.offset from hoff] at hhas ⊢
      exact hg.header hhas
    · have hhas : e.HasHeader env elf.ar.offset := hhas
      have hlong : IsLong (e.headerAt env elf.ar.offset) := hlong
      rw [show elf.ar.offset = e.ar.offset from hoff] at hhas hlong
      exact hg.names hhas hlong (hnames hnone) offset (namesAt_setAr hat) hheader
  rw [← show elf = e.setAr elf.ar from helf] at hread
  exact hread

/-- The header that was read describes a range inside the archive. Where it could not be read the name is the one
before, or the size is missing. -/
theorem nextArhdr_current (hp : e.Placed) {us : List Nat} (hus : ∀ pos ∈ us, e.InRange pos arHdrSize)
    (hg : e.Guarded env) : (nextArhdr env ⟨e, us⟩).Ensures
    (fun _ w => Walked e w ∧ w.elf.Current ∧ w.elf.ar.elfArHdr.arName ≠ none)
    (fun w => Walked e w ∧
      (SameName e w ∨ e.HasHeader env e.ar.offset ∧ BadSize (e.headerAt env e.ar.offset)))
    (fun f => (e.HasHeader env e.ar.offset → IsLong (e.headerAt env e.ar.offset) →
      e.ar.longNames = none → NamesEnd env e) → f ≠ .load) := by
  have hkeep : ∀ w, SameName e w → Walked e w ∧
      (SameName e w ∨ e.HasHeader env e.ar.offset ∧ BadSize (e.headerAt env e.ar.offset)) :=
    fun w hs => ⟨hs.toWalked, .inl hs⟩
  have hnames : (arHeader env ⟨e, us⟩).Ensures (fun _ w => w.elf.ar.longNames = e.ar.longNames)
      (fun _ => True) (fun _ => True) := by
    unfold arHeader
    simp only
    split
    · split
      · trivial
      · exact ensures_mono (ensures_readAt (E := fun _ => True) (F := fun _ => True) trivial)
          (fun _ _ h => by rw [h.2]; rfl) (fun _ h => h) fun _ h => h
    · split
      · split
        · rfl
        · trivial
      · trivial
  refine ensures_bind (ensures_mono (ensures_and (arHeader_reads hp hus hg.header) hnames) (fun _ _ h => h)
    (fun w h => hkeep w h.1) fun _ h _ => h.1) ?_
  rintro hdr w ⟨⟨hs, hhas, rfl⟩, hnames⟩
  split
  · exact hkeep w hs
  · next hfmag =>
    rw [not_not] at hfmag
    refine ensures_bind (ensures_mono (arNameOf_reads hp hfmag (hg.names hhas)
      (w := w.setHdr { w.elf.ar.elfArHdr with arRawname := window (e.headerAt env e.ar.offset) 0 16 })
      ⟨hs.toWalked.setHdr _, hs.name⟩ hnames) (fun _ _ h => h) hkeep fun _ h hend => h (hend hhas)) ?_
    intro name w' hs'
    refine ensures_mono (arFields_current hp hfmag (hg.header hhas) (hs'.toWalked.setHdr _) (by rintro ⟨⟩))
      (fun _ _ h => h) (fun _ h => ⟨h.1, .inr ⟨hhas, h.2⟩⟩) fun _ h _ => h

end LibElf.Elfutils
