import LibElf.Base.Word
import LibElf.Elfutils.Convert
import Mathlib.Order.CompletePartialOrder
import Mathlib.Order.Interval.Set.Disjoint

/-!
# Reading notes

`gelf_getnote.c`. The function reads the note at an offset and returns the offset of the next one, or 0
when there is none. A program reads all notes of a section by calling it until it returns 0.

The end of a name is rounded up with a mask of 32 bits, so that it comes back below 4 GiB where it was
not. The descriptor is then looked for somewhere else, and the loop goes on from there.

1. `gelfGetnote`, and `gelfGetnote_eq`: it takes the notes that are `Taken`.
2. `noteVisits`, the loop, and `Visited`, the offsets it calls the function with.
3. `Orderly`, what is expected of the visits, and `notesInOrder_iff`: it holds when no name ends above the
   last offset that can be rounded up, unless the note is `Harmless`.
4. `not_notesInOrder_wrapped`: in a section of 4 GiB the descriptor is found in the header.
-/

namespace LibElf.Elfutils

open Outcome

/-! ## The function -/

structure NoteData where
  dType : ElfType
  buf : List UInt8
  size_lt : buf.length < 2 ^ 64

structure Nhdr where
  nNamesz : Nat
  nDescsz : Nat
  nType : Nat
deriving DecidableEq, Repr

/-- The variables of the caller: `*result`, `*name_offset` and `*desc_offset`. -/
structure NoteRefs where
  result : Nhdr
  nameOffset : Nat
  descOffset : Nat
deriving DecidableEq, Repr

namespace NoteData

def dSize (d : NoteData) : Nat := d.buf.length

def align (d : NoteData) : Nat := if d.dType = .nhdr8 then 8 else 4

end NoteData

/-- A header of twelve bytes as the host reads it. -/
def readNhdr (host : ByteOrder) (bs : List UInt8) : Nhdr :=
  ⟨ofBytes host (window bs 0 4), ofBytes host (window bs 4 4), ofBytes host (window bs 8 4)⟩

/-- `gelf_getnote`. An error stands for the return of 0 with that error set. -/
def gelfGetnote (host : ByteOrder) (data : Option NoteData) (offset : Nat) (v : NoteRefs) :
    Outcome ElfError NoteRefs Nat :=
  match data with
  | none => .ok 0 v
  | some d =>
    if d.dType ≠ .nhdr ∧ d.dType ≠ .nhdr8 then .err .INVALID_HANDLE v
    else if d.dSize < offset ∨ d.dSize - offset < 12 then .err .OFFSET_RANGE v
    else
      (readAt d.buf offset 12 v).bind fun bs v =>
      let n := readNhdr host bs
      let offset := wrap (offset + 12)
      if d.dSize < offset then .ok 0 v
      else
        let v := { v with nameOffset := offset }
        let offset := wrap (offset + n.nNamesz)
        if d.dSize < offset then .ok 0 v
        else
          -- the padding is included, with the mask of 32 bits
          let descsz := noteAlign d.align n.nDescsz
          let offset := noteAlign d.align offset
          if d.dSize < offset ∨ d.dSize - offset < descsz ∨ descsz = 0 ∧ n.nDescsz ≠ 0 then .ok 0 v
          else .ok (wrap (offset + descsz)) { v with descOffset := offset, result := n }

/-! ## The loop -/

/-- A note that the loop was given: where it starts, what the variables hold, and the next offset. -/
structure Visit where
  off : Nat
  refs : NoteRefs
  next : Nat
deriving DecidableEq, Repr

/-- `while ((off = gelf_getnote (d, off, &n, &name, &desc)) > 0)`, unless it takes longer than `fuel`. -/
def noteVisits (host : ByteOrder) (d : NoteData) : Nat → Nat → NoteRefs → Option (List Visit)
  | 0, _, _ => none
  | fuel + 1, off, v =>
    match gelfGetnote host (some d) off v with
    | .ok (next + 1) v => (noteVisits host d fuel (next + 1) v).map (⟨off, v, next + 1⟩ :: ·)
    | _ => some []

/-! ## What the function accepts -/

namespace NoteData

variable (host : ByteOrder) (d : NoteData) (off : Nat)

def nhdr : Nhdr := readNhdr host (window d.buf off 12)

def nameEnd : Nat := off + 12 + (d.nhdr host off).nNamesz

/-- Where the function looks for the descriptor. -/
def descAt : Nat := noteAlign d.align (d.nameEnd host off)

/-- Where the function says that the next note is. -/
def nextAt : Nat := d.descAt host off + noteAlign d.align (d.nhdr host off).nDescsz

def visitAt : Visit := ⟨off, ⟨d.nhdr host off, off + 12, d.descAt host off⟩, d.nextAt host off⟩

/-- The tests that a note passes. -/
structure Taken : Prop where
  header : off + 12 ≤ d.dSize
  name : wrap (d.nameEnd host off) ≤ d.dSize
  desc : d.nextAt host off ≤ d.dSize
  descsz : noteAlign d.align (d.nhdr host off).nDescsz = 0 → (d.nhdr host off).nDescsz = 0
  pos : 0 < d.nextAt host off

/-- The offsets that the loop calls the function with. -/
inductive Visited : Nat → Prop
  | start : Visited 0
  | next {off : Nat} : Visited off → d.Taken host off → Visited (d.nextAt host off)

/-- A name that ends too far up to be rounded, while nothing comes of it: there is no descriptor, and
nothing that looks like a note where it is looked for. -/
structure Harmless : Prop where
  name : d.nameEnd host off ≤ d.dSize
  descsz : (d.nhdr host off).nDescsz = 0
  onward : off < d.descAt host off
  refused : ¬ d.Taken host (d.descAt host off)

end NoteData

/-! ### Rounding -/

theorem noteAlign_eq_ceilTo {align n : Nat} (h : n + (align - 1) < 2 ^ 32) :
    noteAlign align n = ceilTo n align := by
  rw [noteAlign, Nat.mod_eq_of_lt h, ceilTo]

/-- A number too far up is rounded to one below it. -/
theorem noteAlign_lt {align n : Nat} (ha : align = 4 ∨ align = 8) (h : 2 ^ 32 ≤ n + (align - 1)) :
    noteAlign align n < n := by
  have hle := Nat.div_mul_le_self ((n + (align - 1)) % 2 ^ 32) align
  unfold noteAlign
  omega

theorem dvd_noteAlign (align n : Nat) : align ∣ noteAlign align n := Dvd.intro_left _ rfl

theorem noteAlign_le_of_dvd {align n z : Nat} (ha : align = 4 ∨ align = 8) (hz : align ∣ z) (h : n ≤ z) :
    noteAlign align n ≤ z :=
  calc noteAlign align n ≤ ceilTo n align := Nat.mul_le_mul_right _ (Nat.div_le_div_right (Nat.mod_le _ _))
    _ ≤ z := ceilTo_le_of_dvd (by omega) hz h

/-- The mask does not see that an offset wrapped. -/
theorem noteAlign_wrap (align n : Nat) : noteAlign align (wrap n) = noteAlign align n := by
  unfold noteAlign wrap
  congr 2
  omega

/-- The length of a descriptor that was not rounded to 0. -/
theorem le_noteAlign {align n : Nat} (ha : align = 4 ∨ align = 8) (hn : n < 2 ^ 32)
    (h : noteAlign align n = 0 → n = 0) : n ≤ noteAlign align n := by
  rcases Nat.lt_or_ge (n + (align - 1)) (2 ^ 32) with hlt | hge
  · rw [noteAlign_eq_ceilTo hlt]
    exact le_ceilTo (by omega)
  · have hzero : noteAlign align n = 0 := by
      unfold noteAlign
      rw [Nat.div_eq_of_lt (by omega), Nat.zero_mul]
    rw [h hzero]
    exact Nat.zero_le _

namespace NoteData

variable {host : ByteOrder} {d : NoteData} {off : Nat}

theorem align_eq (d : NoteData) : d.align = 4 ∨ d.align = 8 := by
  unfold align
  split
  · exact .inr rfl
  · exact .inl rfl

theorem ofBytes_window_lt (host : ByteOrder) (bs : List UInt8) (off : Nat) : ofBytes host (window bs off 4) < 2 ^ 32 :=
  calc ofBytes host (window bs off 4) < 256 ^ (window bs off 4).length := ofBytes_lt host _
    _ ≤ 256 ^ 4 := Nat.pow_le_pow_right (by decide) (length_window_le bs off 4)
    _ = 2 ^ 32 := by decide

theorem nNamesz_lt (host : ByteOrder) (d : NoteData) (off : Nat) : (d.nhdr host off).nNamesz < 2 ^ 32 :=
  ofBytes_window_lt host _ 0

theorem nDescsz_lt (host : ByteOrder) (d : NoteData) (off : Nat) : (d.nhdr host off).nDescsz < 2 ^ 32 :=
  ofBytes_window_lt host _ 4

/-- All offsets that the loop comes to are padded. -/
theorem Visited.dvd (h : d.Visited host off) : d.align ∣ off := by
  cases h with
  | start => exact Nat.dvd_zero _
  | next _ _ => exact Nat.dvd_add (dvd_noteAlign _ _) (dvd_noteAlign _ _)

/-- The function in terms of the places in the section. -/
theorem gelfGetnote_eq (ht : d.dType = .nhdr ∨ d.dType = .nhdr8) (hheader : off + 12 ≤ d.dSize) (v : NoteRefs) :
    gelfGetnote host (some d) off v =
      if d.dSize < wrap (d.nameEnd host off) then .ok 0 { v with nameOffset := off + 12 }
      else if d.dSize < d.descAt host off ∨
          d.dSize - d.descAt host off < noteAlign d.align (d.nhdr host off).nDescsz ∨
          noteAlign d.align (d.nhdr host off).nDescsz = 0 ∧ (d.nhdr host off).nDescsz ≠ 0 then
        .ok 0 { v with nameOffset := off + 12 }
      else .ok (wrap (d.nextAt host off)) ⟨d.nhdr host off, off + 12, d.descAt host off⟩ := by
  have hsize : d.dSize < 2 ^ 64 := d.size_lt
  have htype : ¬ (d.dType ≠ .nhdr ∧ d.dType ≠ .nhdr8) := fun h => ht.elim h.1 h.2
  have hread : readAt d.buf off 12 v = (.ok (window d.buf off 12) v : Outcome ElfError NoteRefs (List UInt8)) :=
    readAt_of_le v hheader
  have hround : noteAlign d.align (wrap (off + 12 + (readNhdr host (window d.buf off 12)).nNamesz)) =
      d.descAt host off := noteAlign_wrap _ _
  rw [gelfGetnote, if_neg htype, if_neg (by omega), hread, bind_ok]
  simp only [wrap_of_lt (show off + 12 < 2 ^ 64 by omega)]
  rw [if_neg (by omega)]
  simp only [hround]
  rfl

/-- A note that passes the tests is returned, with the next offset. -/
theorem gelfGetnote_taken (ht : d.dType = .nhdr ∨ d.dType = .nhdr8) (h : d.Taken host off) (v : NoteRefs) :
    gelfGetnote host (some d) off v =
      .ok (d.nextAt host off) ⟨d.nhdr host off, off + 12, d.descAt host off⟩ := by
  have hsize : d.dSize < 2 ^ 64 := d.size_lt
  have hdesc := h.desc
  have hfit : ¬ (d.dSize < d.descAt host off ∨
      d.dSize - d.descAt host off < noteAlign d.align (d.nhdr host off).nDescsz ∨
      noteAlign d.align (d.nhdr host off).nDescsz = 0 ∧ (d.nhdr host off).nDescsz ≠ 0) := by
    rw [nextAt] at hdesc
    rintro (hout | hout | ⟨hzero, hne⟩)
    · omega
    · omega
    · exact hne (h.descsz hzero)
  rw [gelfGetnote_eq ht h.header, if_neg (Nat.not_lt.mpr h.name), if_neg hfit,
    wrap_of_lt (Nat.lt_of_le_of_lt hdesc hsize)]

/-- Only such notes are returned. -/
theorem taken_of_gelfGetnote (ht : d.dType = .nhdr ∨ d.dType = .nhdr8) {next : Nat} {v v' : NoteRefs}
    (hpos : 0 < next) (h : gelfGetnote host (some d) off v = .ok next v') : d.Taken host off := by
  have hsize : d.dSize < 2 ^ 64 := d.size_lt
  have htype : ¬ (d.dType ≠ .nhdr ∧ d.dType ≠ .nhdr8) := fun h => ht.elim h.1 h.2
  by_cases hheader : off + 12 ≤ d.dSize
  · rw [gelfGetnote_eq ht hheader] at h
    split at h
    · cases h
      omega
    next hname =>
    split at h
    · cases h
      omega
    next hfit =>
    have hdesc : d.nextAt host off ≤ d.dSize := by
      rw [nextAt]
      omega
    obtain ⟨rfl, _⟩ := Outcome.ok.inj h
    rw [wrap_of_lt (by omega)] at hpos
    refine ⟨hheader, Nat.not_lt.mp hname, hdesc, fun hzero => ?_, hpos⟩
    by_contra hne
    exact hfit (.inr (.inr ⟨hzero, hne⟩))
  · rw [gelfGetnote, if_neg htype, if_pos (by omega)] at h
    cases h

/-! ## Runs of the loop -/

variable (ht : d.dType = .nhdr ∨ d.dType = .nhdr8)

include ht

/-- One pass over a note. -/
theorem noteVisits_taken (h : d.Taken host off) (fuel : Nat) (v : NoteRefs) :
    noteVisits host d (fuel + 1) off v =
      (noteVisits host d fuel (d.nextAt host off) (d.visitAt host off).refs).map (d.visitAt host off :: ·) := by
  obtain ⟨next, hnext⟩ : ∃ next, d.nextAt host off = next + 1 := ⟨d.nextAt host off - 1, by have := h.pos; omega⟩
  rw [noteVisits, gelfGetnote_taken ht h]
  simp only [visitAt, hnext]

/-- The end of the loop. -/
theorem noteVisits_not_taken (h : ¬ d.Taken host off) (fuel : Nat) (v : NoteRefs) :
    noteVisits host d (fuel + 1) off v = some [] := by
  rw [noteVisits]
  split
  · next next v' hcall => exact absurd (taken_of_gelfGetnote ht (Nat.succ_pos next) hcall) h
  · rfl

/-- The loop comes to every offset that it is on the way to. -/
theorem Visited.suffix {fuel : Nat} {v : NoteRefs} {visits : List Visit} (hrun : noteVisits host d fuel 0 v = some visits)
    (h : d.Visited host off) :
    ∃ fuel' v' before rest, noteVisits host d fuel' off v' = some rest ∧ visits = before ++ rest := by
  induction h with
  | start => exact ⟨fuel, v, [], visits, hrun, rfl⟩
  | @next off _ htaken ih =>
    obtain ⟨fuel', v', before, rest, hrest, rfl⟩ := ih
    cases fuel' with
    | zero => cases hrest
    | succ fuel' =>
      rw [noteVisits_taken ht htaken] at hrest
      obtain ⟨later, hlater, rfl⟩ := Option.map_eq_some_iff.mp hrest
      exact ⟨fuel', _, before ++ [d.visitAt host off], later, hlater, by rw [List.append_assoc]; rfl⟩

end NoteData

/-! ## What is expected of the visits -/

/-- The header, the name and the descriptor, each as the offset of its first byte and its length. -/
def Visit.ranges (v : Visit) : List (Nat × Nat) :=
  [(v.off, 12), (v.refs.nameOffset, v.refs.result.nNamesz), (v.refs.descOffset, v.refs.result.nDescsz)]

/-- Two ranges with no byte in common. -/
def NoOverlap (r s : Nat × Nat) : Prop := Disjoint (Set.Ico r.1 (r.1 + r.2)) (Set.Ico s.1 (s.1 + s.2))

theorem noOverlap_iff {r s : Nat × Nat} : NoOverlap r s ↔ min (r.1 + r.2) (s.1 + s.2) ≤ max r.1 s.1 := Set.Ico_disjoint_Ico

/-- Every offset that is returned is above the one before, and the headers, names and descriptors are parts
of the section that do not overlap. -/
structure Orderly (size : Nat) (visits : List Visit) : Prop where
  rising : ∀ v ∈ visits, v.off < v.next
  inside : ∀ v ∈ visits, ∀ r ∈ v.ranges, r.1 + r.2 ≤ size
  apart : (visits.flatMap Visit.ranges).Pairwise NoOverlap

theorem Orderly.cons {size : Nat} {u : Visit} {visits : List Visit} (h : Orderly size visits)
    (hrise : u.off < u.next) (hin : ∀ r ∈ u.ranges, r.1 + r.2 ≤ size) (hown : u.ranges.Pairwise NoOverlap)
    (hlater : ∀ r ∈ u.ranges, ∀ w ∈ visits, ∀ s ∈ w.ranges, NoOverlap r s) : Orderly size (u :: visits) := by
  refine ⟨List.forall_mem_cons.mpr ⟨hrise, h.rising⟩, List.forall_mem_cons.mpr ⟨hin, h.inside⟩, ?_⟩
  rw [List.flatMap_cons, List.pairwise_append]
  refine ⟨hown, h.apart, fun r hr s hs => ?_⟩
  obtain ⟨w, hw, hs⟩ := List.mem_flatMap.mp hs
  exact hlater r hr w hw s hs

/-- A header, a name behind it and a descriptor that is behind the name or empty. -/
theorem pairwise_noOverlap {off namesz desc descsz : Nat} (h : off + 12 + namesz ≤ desc ∨ descsz = 0) :
    [(off, 12), (off + 12, namesz), (desc, descsz)].Pairwise NoOverlap := by
  simp only [List.pairwise_cons, List.forall_mem_cons, List.not_mem_nil, noOverlap_iff]
  refine ⟨⟨?_, ?_, nofun⟩, ⟨?_, nofun⟩, nofun, List.Pairwise.nil⟩ <;> omega

/-- The loop ends, and what it is given is in order. -/
def NotesInOrder (host : ByteOrder) (d : NoteData) : Prop :=
  ∀ v, ∃ fuel visits, noteVisits host d fuel 0 v = some visits ∧ Orderly d.dSize visits

namespace NoteData

variable {host : ByteOrder} {d : NoteData} {off : Nat}

/-- The header and the name make up the bytes up to the end of the name. -/
theorem not_mem_of_noOverlap {r : Nat × Nat} (h : ∀ s ∈ (d.visitAt host off).ranges.take 2, NoOverlap s r) {i : Nat}
    (hi : off ≤ i ∧ i < d.nameEnd host off) : ¬ (r.1 ≤ i ∧ i < r.1 + r.2) := by
  intro hr
  have hheader := noOverlap_iff.mp (h (off, 12) (List.mem_cons_self ..))
  have hname := noOverlap_iff.mp (h (off + 12, (d.nhdr host off).nNamesz) (List.mem_cons_of_mem _ List.mem_cons_self))
  rw [nameEnd] at hi
  simp only at hheader hname
  omega

theorem noteAlign_zero (d : NoteData) : noteAlign d.align 0 = 0 := by
  rcases d.align_eq with h | h <;> rw [h] <;> rfl

variable (ht : d.dType = .nhdr ∨ d.dType = .nhdr8)

include ht

/-- In an orderly run nothing comes of a name that ends too far up. -/
theorem harmless_of_orderly {fuel : Nat} {v : NoteRefs} {visits : List Visit}
    (hrun : noteVisits host d fuel 0 v = some visits) (hord : Orderly d.dSize visits) (hv : d.Visited host off)
    (htaken : d.Taken host off) (hfar : 2 ^ 32 ≤ d.nameEnd host off + (d.align - 1)) : d.Harmless host off := by
  have hdvd := hv.dvd
  obtain ⟨fuel', v', before, rest, hrest, rfl⟩ := hv.suffix ht hrun
  cases fuel' with
  | zero => cases hrest
  | succ fuel' =>
    rw [noteVisits_taken ht htaken] at hrest
    obtain ⟨later, hlater, rfl⟩ := Option.map_eq_some_iff.mp hrest
    have hmem : d.visitAt host off ∈ before ++ d.visitAt host off :: later :=
      List.mem_append_right _ List.mem_cons_self
    have hlow : d.descAt host off < d.nameEnd host off := noteAlign_lt d.align_eq hfar
    have happart := hord.apart
    rw [List.flatMap_append, List.flatMap_cons] at happart
    have happart := (List.pairwise_append.mp happart).2.1
    obtain ⟨hown, _, hothers⟩ := List.pairwise_append.mp happart
    have hdesc : ∀ s ∈ (d.visitAt host off).ranges.take 2,
        NoOverlap s (d.descAt host off, (d.nhdr host off).nDescsz) := fun s hs =>
      (List.pairwise_append.mp (by rwa [← List.take_append_drop 2 (d.visitAt host off).ranges] at hown)).2.2 s hs _
        List.mem_cons_self
    have hend : d.nameEnd host off ≤ d.dSize :=
      hord.inside _ hmem (off + 12, (d.nhdr host off).nNamesz) (List.mem_cons_of_mem _ List.mem_cons_self)
    have hrise : off < d.descAt host off + noteAlign d.align (d.nhdr host off).nDescsz := hord.rising _ hmem
    -- a descriptor would have a byte in the header or in the name
    have hempty : (d.nhdr host off).nDescsz = 0 := by
      by_contra hne
      refine not_mem_of_noOverlap hdesc (i := max off (d.descAt host off)) ⟨Nat.le_max_left _ _, ?_⟩
        ⟨Nat.le_max_right _ _, ?_⟩
      · rw [nameEnd] at hlow ⊢
        omega
      · by_contra hpast
        have hbelow : (d.nhdr host off).nDescsz ≤ off - d.descAt host off := by
          simp only at hpast
          omega
        have hround : noteAlign d.align (d.nhdr host off).nDescsz ≤ off - d.descAt host off :=
          noteAlign_le_of_dvd d.align_eq (Nat.dvd_sub hdvd (dvd_noteAlign _ _)) hbelow
        omega
    rw [hempty, noteAlign_zero, Nat.add_zero] at hrise
    have hnext : d.nextAt host off = d.descAt host off := by
      rw [nextAt, hempty, noteAlign_zero, Nat.add_zero]
    -- so would a note there
    refine ⟨hend, hempty, hrise, fun hagain => ?_⟩
    rw [hnext] at hlater
    cases fuel' with
    | zero => cases hlater
    | succ fuel' =>
      rw [noteVisits_taken ht hagain] at hlater
      obtain ⟨last, _, rfl⟩ := Option.map_eq_some_iff.mp hlater
      refine not_mem_of_noOverlap (r := (d.descAt host off, 12)) (fun s hs => ?_) ⟨Nat.le_of_lt hrise, hlow⟩
        ⟨Nat.le_refl _, by simp only; omega⟩
      refine hothers s (List.mem_of_mem_take hs) _ ?_
      rw [List.flatMap_cons]
      exact List.mem_append_left _ List.mem_cons_self

/-- Where every name can be rounded or is harmless, the loop ends, and in order. -/
theorem orderly_from (hsafe : ∀ off, d.Visited host off → d.Taken host off →
      d.nameEnd host off + (d.align - 1) < 2 ^ 32 ∨ d.Harmless host off) (fuel : Nat) :
    ∀ {off : Nat}, d.Visited host off → d.dSize < off + fuel → ∀ v, ∃ visits,
      noteVisits host d (fuel + 1) off v = some visits ∧ Orderly d.dSize visits ∧
        ∀ u ∈ visits, ∀ r ∈ u.ranges, off ≤ r.1 := by
  induction fuel with
  | zero =>
    intro off _ hpast v
    refine ⟨[], noteVisits_not_taken ht (fun h => ?_) 0 v, ⟨nofun, nofun, List.Pairwise.nil⟩, nofun⟩
    have := h.header
    omega
  | succ fuel ih =>
    intro off hv hpast v
    by_cases htaken : d.Taken host off
    · rw [noteVisits_taken ht htaken]
      have hfit := htaken.desc
      rcases hsafe off hv htaken with hnear | hharmless
      · have hdesc : d.nameEnd host off ≤ d.descAt host off := by
          rw [descAt, noteAlign_eq_ceilTo hnear]
          exact le_ceilTo (by have := d.align_eq; omega)
        have hdescsz := le_noteAlign d.align_eq (d.nDescsz_lt host off) htaken.descsz
        obtain ⟨later, hlater, hord, hlow⟩ := @ih (d.nextAt host off) (hv.next htaken) (by
          rw [nextAt]
          rw [nameEnd] at hdesc
          omega) (d.visitAt host off).refs
        have hpieces : ∀ r ∈ (d.visitAt host off).ranges, off ≤ r.1 ∧ r.1 + r.2 ≤ d.nextAt host off := by
          simp only [visitAt, Visit.ranges, List.forall_mem_cons]
          rw [nextAt]
          rw [nameEnd] at hdesc
          refine ⟨⟨?_, ?_⟩, ⟨?_, ?_⟩, ⟨?_, ?_⟩, nofun⟩ <;> omega
        refine ⟨d.visitAt host off :: later, by rw [hlater]; rfl, hord.cons ?_ ?_ (pairwise_noOverlap (.inl hdesc)) ?_,
          List.forall_mem_cons.mpr ⟨fun r hr => (hpieces r hr).1, fun u hu r hr => ?_⟩⟩
        · have := (hpieces (off, 12) List.mem_cons_self).2
          change off < d.nextAt host off
          omega
        · exact fun r hr => Nat.le_trans (hpieces r hr).2 hfit
        · intro r hr w hw s hs
          have := (hpieces r hr).2
          have := hlow w hw s hs
          exact noOverlap_iff.mpr (by omega)
        · have := hlow u hu r hr
          have := (hpieces (off, 12) List.mem_cons_self).2
          omega
      · have hnext : d.nextAt host off = d.descAt host off := by
          rw [nextAt, hharmless.descsz, noteAlign_zero, Nat.add_zero]
        have honward := hharmless.onward
        have hname := hharmless.name
        rw [hnext, noteVisits_not_taken ht hharmless.refused]
        rw [hnext] at hfit
        refine ⟨[d.visitAt host off], rfl, Orderly.cons ⟨nofun, nofun, List.Pairwise.nil⟩ ?_ ?_
          (pairwise_noOverlap (.inr hharmless.descsz)) nofun, List.forall_mem_cons.mpr ⟨?_, nofun⟩⟩
        · exact Nat.lt_of_lt_of_eq honward hnext.symm
        · simp only [visitAt, Visit.ranges, List.forall_mem_cons, hharmless.descsz]
          exact ⟨htaken.header, hname, hfit, nofun⟩
        · simp only [visitAt, Visit.ranges, List.forall_mem_cons]
          exact ⟨Nat.le_refl _, Nat.le_add_right _ _, Nat.le_of_lt honward, nofun⟩
    · exact ⟨[], noteVisits_not_taken ht htaken (fuel + 1) v, ⟨nofun, nofun, List.Pairwise.nil⟩, nofun⟩

omit ht in
/-- In a section that ends where offsets can still be rounded, so do all names. -/
theorem near_of_small (hsize : d.dSize + (d.align - 1) < 2 ^ 32) (h : d.Taken host off) :
    d.nameEnd host off + (d.align - 1) < 2 ^ 32 := by
  have hname := h.name
  have hheader := h.header
  have hlt : (d.nhdr host off).nNamesz < 2 ^ 32 := d.nNamesz_lt host off
  rw [wrap_of_lt (show d.nameEnd host off < 2 ^ 64 by rw [nameEnd]; omega)] at hname
  omega

/-- The loop ends in order if and only if every name can be rounded or is harmless. -/
theorem notesInOrder_iff : NotesInOrder host d ↔ ∀ off, d.Visited host off → d.Taken host off →
    d.nameEnd host off + (d.align - 1) < 2 ^ 32 ∨ d.Harmless host off := by
  constructor
  · intro h off hv htaken
    obtain ⟨fuel, visits, hrun, hord⟩ := h ⟨⟨0, 0, 0⟩, 0, 0⟩
    rcases Nat.lt_or_ge (d.nameEnd host off + (d.align - 1)) (2 ^ 32) with hnear | hfar
    · exact .inl hnear
    · exact .inr (harmless_of_orderly ht hrun hord hv htaken hfar)
  · intro hsafe v
    obtain ⟨visits, hrun, hord, _⟩ := orderly_from ht hsafe (d.dSize + 1) .start (by omega) v
    exact ⟨_, visits, hrun, hord⟩

end NoteData

/-- A note of the name `GNU` with a descriptor of four bytes. -/
def gnuNote : NoteData :=
  ⟨.nhdr, [4, 0, 0, 0, 4, 0, 0, 0, 1, 0, 0, 0, 71, 78, 85, 0, 0, 0, 0, 0], by decide⟩

theorem notesInOrder_iff_gnu : NotesInOrder .little gnuNote :=
  (NoteData.notesInOrder_iff (.inl rfl)).mpr fun _ _ h => .inl (NoteData.near_of_small (by decide) h)

/-- A section of 4 GiB with one note, whose name ends with the section. Its descriptor has four bytes. -/
def wrappedNote : NoteData where
  dType := .nhdr
  buf := [0xF4, 0xFF, 0xFF, 0xFF, 4, 0, 0, 0, 1, 0, 0, 0] ++ List.replicate (2 ^ 32 - 12) 0
  size_lt := by
    rw [List.length_append, List.length_replicate]
    decide

theorem dSize_wrappedNote : wrappedNote.dSize = 2 ^ 32 := by
  rw [NoteData.dSize, wrappedNote, List.length_append, List.length_replicate]
  rfl

theorem nhdr_wrappedNote : wrappedNote.nhdr .little 0 = ⟨2 ^ 32 - 12, 4, 1⟩ := by
  rw [NoteData.nhdr, wrappedNote, window_append_left (by decide)]
  decide

/-- The descriptor is found at the start of the header. -/
theorem not_notesInOrder_wrapped : ¬ NotesInOrder .little wrappedNote := by
  intro h
  obtain ⟨fuel, visits, hrun, hord⟩ := h ⟨⟨0, 0, 0⟩, 0, 0⟩
  have hend : wrappedNote.nameEnd .little 0 = 2 ^ 32 := by
    rw [NoteData.nameEnd, nhdr_wrappedNote]
    rfl
  have hnext : wrappedNote.nextAt .little 0 = 4 := by
    rw [NoteData.nextAt, NoteData.descAt, hend, nhdr_wrappedNote]
    rfl
  have htaken : wrappedNote.Taken .little 0 := by
    constructor
    · rw [dSize_wrappedNote]
      decide
    · rw [dSize_wrappedNote, hend]
      decide
    · rw [dSize_wrappedNote, hnext]
      decide
    · rw [nhdr_wrappedNote]
      exact fun h => absurd h (by decide)
    · rw [hnext]
      decide
  have hharmless := NoteData.harmless_of_orderly (.inl rfl) hrun hord .start htaken (by rw [hend]; omega)
  have hzero := hharmless.descsz
  rw [nhdr_wrappedNote] at hzero
  exact absurd hzero (by decide)

end LibElf.Elfutils
