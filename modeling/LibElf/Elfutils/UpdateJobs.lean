import LibElf.Elfutils.UpdateFile

/-!
# An update as a list of ranges

What `updatefile` does to the file depends on the offsets of the parts and on their marks alone: it is one writer that
goes through the headers, the blocks of the sections in the order of their offsets, and the table of section headers.

1. `fill_ok`: the pieces of a gap are one write.
2. `blockJob`, `scnJobs`, `frontJobs` and `tableJob`, the ranges with what is to be done for them.
3. `writeBlocks_ok`, `writeScns_ok` and `updatefile_ok`: the file after an update that succeeds, where the ranges in front
   of the table ascend.
-/

namespace LibElf.Elfutils

open Outcome
open Toolchain (ElfClass Ehdr Phdr Shdr)

variable {env : Env} {fillByte : UInt8} {ec : ElfClass} {swap : Bool} {t t' : Output} {c c' : Cursor} {q : ScnAt}

/-! ## Calls that succeed -/

theorem reading_ok {α : Type} {x : Call α} {a : α} (h : reading x t = .ok a t') :
    ∃ e, x = .ok a e ∧ t' = { t with elf := e } := by
  unfold reading at h
  split at h
  · cases h
    exact ⟨_, rfl, rfl⟩
  · cases h
  · cases h

theorem pwriteRetry_ok {bs : List UInt8} {off : Nat} {u : Unit} (h : pwriteRetry bs off t = .ok u t') :
    t' = { t with file := store t.file off bs } := by
  unfold pwriteRetry at h
  split at h
  · cases h
  · cases h
    rfl

theorem fillLoop_ok {filled : Nat} {u : Unit} (fuel : Nat) : ∀ {pos len : Nat} {t : Output},
    fillLoop fillByte filled fuel pos len t = .ok u t' →
      t' = { t with file := store t.file pos (List.replicate len fillByte) } := by
  induction fuel with
  | zero => intro pos len t h; cases h
  | succ fuel ih =>
    intro pos len t h
    simp only [fillLoop] at h
    obtain ⟨_, s, hwrite, hrest⟩ := bind_eq_ok.mp h
    obtain rfl := pwriteRetry_ok hwrite
    split at hrest
    · next hlast =>
      cases hrest
      rw [show min filled len = len by omega]
    · have hsplit : List.replicate len fillByte =
          List.replicate (min filled len) fillByte ++ List.replicate (len - min filled len) fillByte := by
        rw [← List.replicate_add, show min filled len + (len - min filled len) = len by omega]
      rw [ih hrest, hsplit, ← store_append, List.length_replicate]

/-- The pieces of a gap are one write. -/
theorem fill_ok {pos len filled n : Nat} (h : fill fillByte pos len filled t = .ok n t') :
    t' = { t with file := store t.file pos (List.replicate len fillByte) } := by
  unfold fill at h
  obtain ⟨_, s, hloop, hrest⟩ := bind_eq_ok.mp h
  cases hrest
  exact fillLoop_ok _ hloop

theorem length_readAt {src bs : List UInt8} {len : Nat} {u u' : Unit}
    (h : (readAt src 0 len u : Outcome WriteError Unit (List UInt8)) = .ok bs u') : bs.length = len := by
  obtain ⟨hlen, rfl, -⟩ := readAt_eq_ok.mp h
  rcases hlen with rfl | hlen
  · rw [window_zero]
    rfl
  · exact length_window hlen

/-- What is written has the size of the block. -/
theorem length_writtenBytes {d : Data} {bs : List UInt8} {u : Unit} (h : writtenBytes env ec swap d = .ok bs u) :
    bs.length = d.dSize := by
  unfold writtenBytes at h
  split at h
  · split at h
    · cases h
    · obtain ⟨src, s, hread, hrest⟩ := bind_eq_ok.mp h
      split at hrest
      · next m _ =>
        cases hrest
        rw [length_window (by rw [m.length_bytes]; omega), length_readAt hread]
      · cases hrest
      · cases hrest
  · split at h
    · cases h
    · exact length_readAt h

theorem length_ehdr_toFile (h : Ehdr) : (h.toFile env.host swap ec).length = ehdrSize ec := by
  rw [Ehdr.length_toFile]
  cases ec <;> rfl

theorem length_phdr_toFile (p : Phdr) : (p.toFile env.host swap ec).length = phdrSize ec := by
  rw [Phdr.length_toFile]
  cases ec <;> rfl

theorem length_shdr_toFile (s : Shdr) : (s.toFile env.host swap ec).length = shdrSize ec := by
  rw [Shdr.length_toFile]
  cases ec <;> rfl

theorem length_flatMap_const {α : Type} {g : α → List UInt8} {n : Nat} (hg : ∀ a, (g a).length = n) (l : List α) :
    (l.flatMap g).length = l.length * n := by
  induction l with
  | nil => rw [List.flatMap_nil, List.length_nil, List.length_nil, Nat.zero_mul]
  | cons a l ih => rw [List.flatMap_cons, List.length_append, ih, hg, List.length_cons, Nat.succ_mul, Nat.add_comm]

theorem length_phdrsBytes {ps : Phdrs} {phnum : Nat} {bs : List UInt8} {u : Unit}
    (h : phdrsBytes env ec swap ps phnum = .ok bs u) : bs.length = phnum * phdrSize ec := by
  unfold phdrsBytes at h
  split at h
  · cases h
  · next ps =>
    split at h
    · cases h
    · next hle =>
      cases h
      rw [length_flatMap_const fun p => length_phdr_toFile p, List.length_take_of_le (Nat.le_of_not_lt hle)]

theorem value?_eq_some {α σ : Type} {x : Outcome WriteError σ α} {a : α} (h : x.value? = some a) :
    ∃ s, x = .ok a s := by
  cases x with
  | ok b s => cases h; exact ⟨s, rfl⟩
  | err => cases h
  | stop => cases h

/-! ## Ranges -/

section Jobs

variable (env : Env) (ec : ElfClass) (swap : Bool) (m : Marks)

def ehdrJob (h : Ehdr) : Job where
  off := 0
  len := ehdrSize ec
  bytes := if m.ehdr || m.elf then some (h.toFile env.host swap ec) else none
  fill := false
  sized bs hbs := by
    split at hbs
    · cases hbs
      exact length_ehdr_toFile h
    · cases hbs

def phdrJob (h : Ehdr) (phnum : Nat) (ps : Phdrs) : Job where
  off := ec.get h.ePhoff
  len := phnum * phdrSize ec
  bytes := if m.phdr || m.elf then (phdrsBytes env ec swap ps phnum).value? else none
  fill := m.phdr || m.elf
  sized bs hbs := by
    split at hbs
    · obtain ⟨_, hok⟩ := value?_eq_some hbs
      exact length_phdrsBytes hok
    · cases hbs

def frontJobs (h : Ehdr) (phnum : Nat) (phdr : Option Phdrs) : List Job :=
  ehdrJob env ec swap m h :: phdr.toList.map (phdrJob env ec swap m h phnum)

/-- The headers in front have changed, so that the gap behind them is filled. -/
def frontChanged (phdr : Option Phdrs) : Bool := if phdr.isNone then m.ehdr || m.elf else m.phdr || m.elf

def blockJob (q : ScnAt) (start : Nat) (changed : Bool) (k : Nat) (d : Data) : Job where
  off := start + d.dOff
  len := d.dSize
  bytes := if blockDirty m q k then (writtenBytes env ec swap d).value? else none
  fill := changed && decide (d.dOff = 0) || blockDirty m q k
  sized bs hbs := by
    split at hbs
    · obtain ⟨_, hok⟩ := value?_eq_some hbs
      exact length_writtenBytes hok
    · cases hbs

def blockJobs (q : ScnAt) (start : Nat) (changed : Bool) : Nat → List Data → List Job
  | _, [] => []
  | k, d :: ds => blockJob env ec swap m q start changed k d :: blockJobs q start changed (k + 1) ds

/-- One of the blocks from place `k` on is written. -/
def blocksDirty (q : ScnAt) : Nat → List Data → Bool
  | _, [] => false
  | k, _ :: ds => blockDirty m q k || blocksDirty q (k + 1) ds

def dataJobs (startOffset : Nat) (q : ScnAt) (h : Shdr) (changed : Bool) : List Job :=
  let start := startOffset + ec.get h.shOffset
  if q.2.dataList = [] then [⟨start, ec.get h.shSize, none, changed, nofun⟩]
  else blockJobs env ec swap m q start changed 0 q.2.dataList

/-- A section without data in the file. -/
def noData (q : ScnAt) (h : Shdr) : Prop := q.2.index = 0 ∨ h.shType = shtNobits

instance (q : ScnAt) (h : Shdr) : Decidable (noData q h) := inferInstanceAs (Decidable (_ ∨ _))

/-- The sections; `changed` says that what is in front of them has changed. -/
def scnJobs (startOffset : Nat) : Bool → List ScnAt → List Job
  | _, [] => []
  | changed, q :: qs =>
    match q.2.shdr with
    | none => scnJobs startOffset changed qs
    | some h =>
      if noData q h then scnJobs startOffset changed qs
      else dataJobs env ec swap m startOffset q h changed ++
        scnJobs startOffset (blocksDirty m q 0 q.2.dataList) qs

end Jobs

/-! ## The sections -/

theorem blockJobs_congr {m m' : Marks} {start : Nat} {changed : Bool} (ds : List Data) : ∀ k,
    (∀ i, k ≤ i → blockDirty m' q i = blockDirty m q i) →
      blockJobs env ec swap m' q start changed k ds = blockJobs env ec swap m q start changed k ds ∧
        blocksDirty m' q k ds = blocksDirty m q k ds := by
  induction ds with
  | nil => exact fun _ _ => ⟨rfl, rfl⟩
  | cons d ds ih =>
    intro k h
    obtain ⟨hjobs, hdirty⟩ := ih (k + 1) fun i hi => h i (by omega)
    have hjob : blockJob env ec swap m' q start changed k d = blockJob env ec swap m q start changed k d := by
      simp only [blockJob, h k (Nat.le_refl _)]
    exact ⟨by rw [blockJobs, blockJobs, hjobs, hjob], by rw [blocksDirty, blocksDirty, hdirty, h k (Nat.le_refl _)]⟩

/-- The gap in front of a range, as the source tests and measures it. -/
theorem gap_ok {j : Job} {pos n : Nat} (hlast : c.last < 2 ^ 63) (hpos : pos < 2 ^ 63) (hoff : j.off = pos)
    (h : (if sgt pos c.last ∧ j.fill = true then fill fillByte c.last (wrap (pos + (2 ^ 64 - c.last))) c.filled t
      else .ok c.filled t : WriteCall Nat) = .ok n t') : t' = { t with file := j.runGap fillByte c.last t.file } := by
  simp only [sgt_of_nonneg hpos hlast, decide_eq_true_eq] at h
  unfold Job.runGap
  split at h
  · next hgap =>
    rw [if_pos ⟨hgap.2, by omega⟩, fill_ok h]
    have hlen : wrap (pos + (2 ^ 64 - c.last)) = j.off - c.last := by
      unfold wrap
      omega
    rw [hlen]
  · next hgap =>
    cases h
    rw [if_neg fun hj => hgap ⟨by omega, hj.1⟩]

/-- One block. -/
theorem writeBlock_ok {start k : Nat} {d : Data} (hlast : c.last < 2 ^ 63) (hstop : start + d.dOff + d.dSize < 2 ^ 63)
    (h : writeBlock env fillByte ec swap q start k d c t = .ok c' t') :
    let j := blockJob env ec swap t.marks q start c.changed k d
    t' = ({ t with file := j.run fillByte c.last t.file } : Output).clearData q.1 k ∧
      ∃ n, c' = { c with last := j.stop, filled := n } := by
  intro j
  have hpos : wrap (start + d.dOff) = start + d.dOff := wrap_of_lt (by omega)
  simp only [writeBlock, hpos] at h
  obtain ⟨n, s, hgap, hrest⟩ := bind_eq_ok.mp h
  have hfill : (c.changed = true ∧ d.dOff = 0 ∨ blockDirty t.marks q k = true) ↔ j.fill = true := by
    simp [j, blockJob]
  simp only [hfill] at hgap
  obtain rfl := @gap_ok fillByte t s c j (start + d.dOff) _ hlast (by omega) rfl hgap
  obtain ⟨_, s, hwrite, hlast'⟩ := bind_eq_ok.mp hrest
  have hend : wrap (start + d.dOff + d.dSize) = j.stop := wrap_of_lt (by omega)
  rw [hend] at hlast'
  cases hlast'
  refine ⟨?_, n, rfl⟩
  unfold Job.run
  split at hwrite
  · next hdirty =>
    obtain ⟨bs, u, hbytes, hput⟩ := bind_eq_ok.mp hwrite
    obtain ⟨u', hvalue, rfl⟩ := within_eq_ok.mp hbytes
    have hsome : j.bytes = some bs := by
      show (if _ then _ else _) = _
      rw [if_pos hdirty, hvalue]
      rfl
    rw [pwriteRetry_ok hput, hsome]
    rfl
  · next hclean =>
    cases hwrite
    have hnone : j.bytes = none := if_neg hclean
    rw [hnone]

/-- The file was written, and marks of one section may be gone. -/
def Output.wrote (t : Output) (p : ScnHandle) (f : List UInt8) (ms : Nat → Bool) : Output :=
  { t with file := f, marks := { t.marks with data := Function.update t.marks.data p ms } }

theorem wrote_wrote {p : ScnHandle} {f f' : List UInt8} {ms ms' : Nat → Bool} :
    (t.wrote p f ms).wrote p f' ms' = t.wrote p f' ms' := by
  simp only [Output.wrote, Function.update_idem]

theorem writeBlocks_ok {start : Nat} (ds : List Data) : ∀ {k : Nat} {changed : Bool} {c : Cursor} {t : Output}
    {r : Bool × Cursor}, c.last < 2 ^ 63 →
    let js := blockJobs env ec swap t.marks q start c.changed k ds
    Ascends c.last js → jobsEnd c.last js < 2 ^ 63 →
    writeBlocks env fillByte ec swap q start k ds changed c t = .ok r t' →
    (∃ ms, t' = t.wrote q.1 (runJobs fillByte c.last js t.file) ms) ∧
      ∃ n, r = (changed || blocksDirty t.marks q k ds, { c with last := jobsEnd c.last js, filled := n }) := by
  induction ds with
  | nil =>
    intro k changed c t r _ js _ _ h
    cases h
    refine ⟨⟨t'.marks.data q.1, ?_⟩, c.filled, by rw [blocksDirty, Bool.or_false]; rfl⟩
    simp only [Output.wrote, Function.update_eq_self]
    rfl
  | cons d ds ih =>
    intro k changed c t r hlast js hasc hend h
    obtain ⟨hoff, hrest⟩ : c.last ≤ (blockJob env ec swap t.marks q start c.changed k d).off ∧ _ := hasc
    have hle := hrest.le_end
    rw [writeBlocks] at h
    obtain ⟨c₁, t₁, hblock, hblocks⟩ := bind_eq_ok.mp h
    have hstop : start + d.dOff + d.dSize < 2 ^ 63 := Nat.lt_of_le_of_lt hle hend
    obtain ⟨rfl, n, rfl⟩ := writeBlock_ok hlast hstop hblock
    -- the marks of the blocks to come are those from before
    have hsame : ∀ i, k + 1 ≤ i → blockDirty (({ t with file :=
        (blockJob env ec swap t.marks q start c.changed k d).run fillByte c.last t.file } : Output).clearData q.1 k).marks
        q i = blockDirty t.marks q i := by
      intro i hi
      simp only [blockDirty, Output.clearData, Output.setMarks, Function.update_self,
        Function.update_of_ne (show i ≠ k by omega)]
    obtain ⟨hjobs, hdirty⟩ := @blockJobs_congr env ec swap q t.marks _ start c.changed ds (k + 1) hsame
    have hnext := ih (Nat.lt_of_le_of_lt hle hend) (by rw [hjobs]; exact hrest) (by rw [hjobs]; exact hend) hblocks
    rw [hjobs, hdirty] at hnext
    obtain ⟨⟨ms, rfl⟩, n', rfl⟩ := hnext
    exact ⟨⟨ms, wrote_wrote⟩, n', by rw [blocksDirty, Bool.or_assoc]; rfl⟩

/-- The data of a section starts where its header says. -/
theorem dataJobs_start {m : Marks} {startOffset rc : Nat} {h : Shdr} {changed : Bool}
    (hasc : Ascends rc (dataJobs env ec swap m startOffset q h changed)) :
    startOffset + ec.get h.shOffset ≤ jobsEnd rc (dataJobs env ec swap m startOffset q h changed) := by
  unfold dataJobs at hasc ⊢
  split
  · exact Nat.le_add_right ..
  · next hne =>
    rw [if_neg hne] at hasc
    cases hd : q.2.dataList with
    | nil => exact absurd hd hne
    | cons d ds =>
      rw [hd] at hasc
      have hle := hasc.2.le_end
      simp only [Job.stop, blockJob] at hle
      simp only [blockJobs, jobsEnd, Job.stop, blockJob]
      omega

theorem writeData_ok {h : Shdr} (hlast : c.last < 2 ^ 63)
    (hasc : Ascends c.last (dataJobs env ec swap t.marks t.elf.startOffset q h c.changed))
    (hend : jobsEnd c.last (dataJobs env ec swap t.marks t.elf.startOffset q h c.changed) < 2 ^ 63)
    (hrun : writeData env fillByte ec swap q h c t = .ok c' t') :
    let js := dataJobs env ec swap t.marks t.elf.startOffset q h c.changed
    (∃ ms, t' = t.wrote q.1 (runJobs fillByte c.last js t.file) ms) ∧
      ∃ n, c' = { c with last := jobsEnd c.last js, changed := blocksDirty t.marks q 0 q.2.dataList, filled := n } := by
  have hstart : t.elf.startOffset + ec.get h.shOffset < 2 ^ 63 := Nat.lt_of_le_of_lt (dataJobs_start hasc) hend
  unfold dataJobs at hasc hend ⊢
  simp only [writeData, wrap_of_lt (show t.elf.startOffset + ec.get h.shOffset < 2 ^ 64 by omega)] at hrun
  split at hrun
  · next hnil =>
    simp only [hnil, if_true] at hasc hend ⊢
    obtain ⟨n, s, hgap, hrest⟩ := bind_eq_ok.mp hrun
    obtain rfl := @gap_ok fillByte t s c ⟨t.elf.startOffset + ec.get h.shOffset, ec.get h.shSize, none, c.changed, nofun⟩ _
      _ hlast hstart rfl hgap
    cases hrest
    refine ⟨⟨t.marks.data q.1, ?_⟩, n, ?_⟩
    · simp only [Output.wrote, Function.update_eq_self]
      rfl
    · rw [wrap_of_lt (show t.elf.startOffset + ec.get h.shOffset + ec.get h.shSize < 2 ^ 64 by
        have : _ < 2 ^ 63 := hend
        simp only [jobsEnd, Job.stop] at this
        omega)]
      rfl
  · next hne =>
    simp only [if_neg hne] at hasc hend ⊢
    obtain ⟨r, s, hblocks, hrest⟩ := bind_eq_ok.mp hrun
    obtain ⟨⟨ms, rfl⟩, n, rfl⟩ := writeBlocks_ok _ hlast hasc hend hblocks
    cases hrest
    exact ⟨⟨ms, rfl⟩, n, by rw [Bool.false_or]⟩

/-- A section without the mark of its header. -/
def Scn.unmarked (s : Scn) : Scn := { s with shdrDirty := false }

/-- A descriptor without the marks of the section headers. -/
def Elf.unmarked (e : Elf) : Elf := e.setScns (e.scns.map fun b => ⟨b.cnt, b.data.map Scn.unmarked⟩)

/-- A change that `g` does not see. -/
theorem map_modify_of {α β : Type} {g : α → β} {f : α → α} (h : ∀ a, g (f a) = g a) (l : List α) (i : Nat) :
    (l.modify i f).map g = l.map g := by
  induction l generalizing i with
  | nil => rw [List.modify_nil]
  | cons a l ih =>
    cases i with
    | zero => rw [List.modify_zero_cons, List.map_cons, List.map_cons, h]
    | succ i => rw [List.modify_succ_cons, List.map_cons, List.map_cons, ih]

theorem unmarked_clearShdr (t : Output) (p : ScnHandle) : (t.clearShdr p).elf.unmarked = t.elf.unmarked := by
  have hscns := @map_modify_of ScnList ScnList (fun b => ⟨b.cnt, b.data.map Scn.unmarked⟩)
    (fun b => ⟨b.cnt, b.data.modify p.2 fun s => { s with shdrDirty := false }⟩)
    (fun b => congrArg (Block.mk b.cnt) (@map_modify_of _ _ Scn.unmarked (fun s => { s with shdrDirty := false })
      (fun _ => rfl) b.data p.2)) t.elf.scns p.1
  exact congrArg t.elf.setScns hscns

/-- The state after a part of the loop: the file, and nothing else but marks. -/
structure Proceeded (t t' : Output) (f : List UInt8) : Prop where
  file : t'.file = f
  elf : t'.elf.unmarked = t.elf.unmarked
  shdrs : t'.shdrs = t.shdrs
  marks : t'.marks.elf = t.marks.elf ∧ t'.marks.ehdr = t.marks.ehdr ∧ t'.marks.phdr = t.marks.phdr

theorem Proceeded.startOffset {f : List UInt8} (h : Proceeded t t' f) : t'.elf.startOffset = t.elf.startOffset :=
  show t'.elf.unmarked.startOffset = t.elf.unmarked.startOffset by rw [h.elf]

theorem scnJobs_congr {m m' : Marks} {startOffset : Nat} (qs : List ScnAt)
    (h : ∀ q ∈ qs, ∀ i, blockDirty m' q i = blockDirty m q i) : ∀ changed : Bool,
      scnJobs env ec swap m' startOffset changed qs = scnJobs env ec swap m startOffset changed qs := by
  induction qs with
  | nil => exact fun _ => rfl
  | cons q qs ih =>
    intro changed
    rw [List.forall_mem_cons] at h
    have hq := fun start => @blockJobs_congr env ec swap q m m' start changed q.2.dataList 0 fun i _ => h.1 i
    rw [scnJobs, scnJobs]
    cases q.2.shdr with
    | none => exact ih h.2 changed
    | some hdr =>
      simp only [dataJobs, (hq _).1, (hq 0).2, ih h.2]

theorem scnJobs_cons {m : Marks} {startOffset : Nat} {h : Shdr} (hh : q.2.shdr = some h) (changed : Bool)
    (qs : List ScnAt) : scnJobs env ec swap m startOffset changed (q :: qs) =
      if noData q h then scnJobs env ec swap m startOffset changed qs
      else dataJobs env ec swap m startOffset q h changed ++
        scnJobs env ec swap m startOffset (blocksDirty m q 0 q.2.dataList) qs := by
  rw [scnJobs, hh]

/-- The ranges of one section, and what it leaves for the gap behind it. -/
def scnStep (env : Env) (ec : ElfClass) (swap : Bool) (m : Marks) (startOffset : Nat) (q : ScnAt) (h : Shdr)
    (changed : Bool) : List Job × Bool :=
  if noData q h then ([], changed)
  else (dataJobs env ec swap m startOffset q h changed, blocksDirty m q 0 q.2.dataList)

theorem scnJobs_step {m : Marks} {startOffset : Nat} {h : Shdr} (hh : q.2.shdr = some h) (changed : Bool)
    (qs : List ScnAt) : scnJobs env ec swap m startOffset changed (q :: qs) =
      (scnStep env ec swap m startOffset q h changed).1 ++
        scnJobs env ec swap m startOffset (scnStep env ec swap m startOffset q h changed).2 qs := by
  rw [scnJobs_cons hh, scnStep]
  split
  · rfl
  · rfl

/-- One section. -/
theorem writeScn_ok (hlast : c.last < 2 ^ 63) (hrun : writeScn env fillByte ec swap q c t = .ok c' t') :
    ∃ h, q.2.shdr = some h ∧
      let r := scnStep env ec swap t.marks t.elf.startOffset q h c.changed
      (Ascends c.last r.1 → jobsEnd c.last r.1 < 2 ^ 63 →
        Proceeded t t' (runJobs fillByte c.last r.1 t.file) ∧ (∀ p, p ≠ q.1 → t'.marks.data p = t.marks.data p) ∧
          c'.last = jobsEnd c.last r.1 ∧ c'.shdrDirty = (c.shdrDirty || q.2.shdrDirty) ∧ c'.changed = r.2) := by
  unfold writeScn at hrun
  split at hrun
  · cases hrun
  next h hh =>
  refine ⟨h, hh, ?_⟩
  intro r hasc hend
  obtain ⟨c₁, t₁, hdata, hrest⟩ := bind_eq_ok.mp hrun
  cases hrest
  by_cases hno : noData q h
  · have hr : r = ([], c.changed) := if_pos hno
    obtain ⟨rfl, rfl⟩ : c₁ = c ∧ t₁ = t := by
      split at hdata
      · split at hdata
        · cases hdata
        · cases hdata
          exact ⟨rfl, rfl⟩
      · next hidx =>
        rw [if_pos (hno.resolve_left hidx)] at hdata
        cases hdata
        exact ⟨rfl, rfl⟩
    rw [hr]
    exact ⟨⟨rfl, unmarked_clearShdr _ q.1, rfl, rfl, rfl, rfl⟩, fun _ _ => rfl, rfl, rfl, rfl⟩
  · have hr : r = (dataJobs env ec swap t.marks t.elf.startOffset q h c.changed, blocksDirty t.marks q 0 q.2.dataList) :=
      if_neg hno
    rw [if_neg (fun hidx => hno (.inl hidx)), if_neg (fun htype => hno (.inr htype))] at hdata
    rw [hr] at hasc hend ⊢
    obtain ⟨⟨ms, rfl⟩, n, rfl⟩ := writeData_ok hlast hasc hend hdata
    refine ⟨⟨rfl, unmarked_clearShdr _ q.1, rfl, rfl, rfl, rfl⟩, fun p hp => ?_, rfl, rfl, rfl⟩
    exact Function.update_of_ne hp ..

/-- The loop over the sections. -/
theorem writeScns_ok (qs : List ScnAt) : ∀ {c c' : Cursor} {t : Output}, (qs.map Prod.fst).Nodup → c.last < 2 ^ 63 →
    let js := scnJobs env ec swap t.marks t.elf.startOffset c.changed qs
    Ascends c.last js → jobsEnd c.last js < 2 ^ 63 → writeScns env fillByte ec swap qs c t = .ok c' t' →
    Proceeded t t' (runJobs fillByte c.last js t.file) ∧ c'.last = jobsEnd c.last js ∧
      c'.shdrDirty = (c.shdrDirty || qs.any fun q => q.2.shdrDirty) := by
  induction qs with
  | nil =>
    intro c c' t _ _ js _ _ h
    cases h
    exact ⟨⟨rfl, rfl, rfl, rfl, rfl, rfl⟩, rfl, by rw [List.any_nil, Bool.or_false]⟩
  | cons q qs ih =>
    intro c c' t hnodup hlast js hasc hend hrun
    obtain ⟨hq, hqs⟩ := List.nodup_cons.mp hnodup
    rw [writeScns] at hrun
    obtain ⟨c₁, t₁, hone, hrest⟩ := bind_eq_ok.mp hrun
    obtain ⟨h, hh, hstep⟩ := writeScn_ok hlast hone
    have hjs : js = _ := scnJobs_step hh c.changed qs
    rw [hjs] at hasc hend ⊢
    rw [jobsEnd_append] at hend ⊢
    obtain ⟨hfirst, hthen⟩ := ascends_append.mp hasc
    obtain ⟨hp, hother, hlast₁, hdirty, hchanged⟩ := hstep hfirst (Nat.lt_of_le_of_lt hthen.le_end hend)
    -- the marks of the sections to come are those from before
    have hcongr := @scnJobs_congr env ec swap t.marks t₁.marks t.elf.startOffset qs fun q' hq' i => by
      have hne : q'.1 ≠ q.1 := fun heq => hq (heq ▸ List.mem_map_of_mem hq')
      rw [blockDirty, blockDirty, hother q'.1 hne, hp.marks.1]
    have hjobs : scnJobs env ec swap t₁.marks t₁.elf.startOffset c₁.changed qs =
        scnJobs env ec swap t.marks t.elf.startOffset (scnStep env ec swap t.marks t.elf.startOffset q h c.changed).2 qs := by
      rw [hp.startOffset, hchanged, hcongr]
    rw [← hlast₁, ← hjobs] at hthen hend
    obtain ⟨hp', hlast', hdirty'⟩ := ih hqs (Nat.lt_of_le_of_lt hthen.le_end hend) hthen hend hrest
    refine ⟨⟨?_, hp'.elf.trans hp.elf, hp'.shdrs.trans hp.shdrs, ?_⟩, ?_, ?_⟩
    · rw [hp'.file, hp.file, runJobs_append, ← hlast₁, ← hjobs]
    · obtain ⟨h1, h2, h3⟩ := hp.marks
      obtain ⟨h1', h2', h3'⟩ := hp'.marks
      exact ⟨h1'.trans h1, h2'.trans h2, h3'.trans h3⟩
    · rw [hlast', ← hlast₁, ← hjobs]
    · rw [hdirty', hdirty, List.any_cons, Bool.or_assoc]

/-! ## The whole file -/

section Table

variable (env : Env) (ec : ElfClass) (swap : Bool)

def tableDirty (m : Marks) (qs : List ScnAt) : Bool := m.elf || qs.any fun q => q.2.shdrDirty

theorem length_mapM {α β : Type} {f : α → Option β} {as : List α} : ∀ {bs : List β}, as.mapM f = some bs →
    bs.length = as.length := by
  induction as with
  | nil =>
    intro bs h
    cases h
    rfl
  | cons a as ih =>
    intro bs h
    rw [List.mapM_cons] at h
    obtain ⟨b, -, h⟩ := Option.bind_eq_some_iff.mp h
    obtain ⟨cs, hcs, h⟩ := Option.bind_eq_some_iff.mp h
    cases h
    rw [List.length_cons, List.length_cons, ih hcs]

theorem length_tableBytes {shnum : Nat} {qs : List ScnAt} {bs : List UInt8} {u : Unit}
    (h : tableBytes env ec swap shnum qs = .ok bs u) : bs.length = shnum * shdrSize ec := by
  unfold tableBytes at h
  split at h
  · cases h
  · next hs hmap =>
    cases h
    rw [length_flatMap_const fun s => length_shdr_toFile s, length_mapM hmap, List.length_range]

def tableJob (m : Marks) (startOffset shnum : Nat) (h : Ehdr) (qs : List ScnAt) : Job where
  off := startOffset + ec.get h.eShoff
  len := shnum * shdrSize ec
  bytes := if tableDirty m qs then (tableBytes env ec swap shnum qs).value? else none
  fill := m.elf
  sized bs hbs := by
    split at hbs
    · obtain ⟨_, hok⟩ := value?_eq_some hbs
      exact length_tableBytes env ec swap hok
    · cases hbs

/-- Everything in front of the table, or, where it lies elsewhere, everything else. -/
def bodyJobs (t : Output) (h : Ehdr) (phnum : Nat) : List Job :=
  frontJobs env ec swap t.marks h phnum t.elf.phdr ++
    scnJobs env ec swap t.marks t.elf.startOffset (frontChanged t.marks t.elf.phdr) (sortSections ec t.elf)

end Table

theorem writeEhdr_ok {h : Ehdr} {changed : Bool} (hrun : writeEhdr env ec swap h t = .ok changed t') :
    t' = { t with file := (ehdrJob env ec swap t.marks h).run fillByte 0 t.file,
                  marks := { t.marks with ehdr := false } } ∧
      changed = ((t.marks.ehdr || t.marks.elf) && t.elf.phdr.isNone) := by
  have hgap : (ehdrJob env ec swap t.marks h).runGap fillByte 0 t.file = t.file := if_neg fun hg => Bool.false_ne_true hg.1
  unfold writeEhdr at hrun
  unfold Job.run
  rw [hgap]
  cases hdirty : t.marks.ehdr || t.marks.elf with
  | true =>
    rw [if_pos hdirty] at hrun
    obtain ⟨_, s, hwrite, hrest⟩ := bind_eq_ok.mp hrun
    cases hrest
    rw [pwriteRetry_ok hwrite]
    simp only [ehdrJob, hdirty, if_true, Bool.true_and]
    exact ⟨rfl, trivial⟩
  | false =>
    rw [if_neg (by rw [hdirty]; exact Bool.false_ne_true)] at hrun
    cases hrun
    have hehdr : t.marks.ehdr = false := (Bool.or_eq_false_iff.mp hdirty).1
    refine ⟨?_, rfl⟩
    simp only [ehdrJob, hdirty, if_neg Bool.false_ne_true]
    rw [← hehdr]

theorem writePhdrs_ok {h : Ehdr} {phnum : Nat} {changed : Bool} {r : Bool × Nat} (hsize : h.eEhsize.toNat = ehdrSize ec)
    (hrun : writePhdrs env fillByte ec swap h phnum changed t = .ok r t') :
    let js := t.elf.phdr.toList.map (phdrJob env ec swap t.marks h phnum)
    (∃ x, t' = { t with file := runJobs fillByte (ehdrSize ec) js t.file, marks := { t.marks with phdr := x } } ∧
      (t.elf.phdr.isSome → x = false)) ∧
      r.1 = if t.elf.phdr.isNone then changed else changed || t.marks.phdr || t.marks.elf := by
  unfold writePhdrs at hrun
  cases hphdr : t.elf.phdr with
  | none =>
    rw [hphdr] at hrun
    cases hrun
    exact ⟨⟨t.marks.phdr, rfl, nofun⟩, rfl⟩
  | some ps =>
    rw [hphdr] at hrun
    obtain ⟨j, hj⟩ : ∃ j, phdrJob env ec swap t.marks h phnum ps = j := ⟨_, rfl⟩
    simp only [Option.toList_some, List.map_cons, List.map_nil, runJobs, hj]
    cases hdirty : t.marks.phdr || t.marks.elf with
    | true =>
      simp only [hdirty, if_true] at hrun
      obtain ⟨n, s, hgap, hrest⟩ := bind_eq_ok.mp hrun
      obtain ⟨bs, s', hbytes, hrest⟩ := bind_eq_ok.mp hrest
      obtain ⟨u, hvalue, rfl⟩ := within_eq_ok.mp hbytes
      obtain ⟨_, s', hwrite, hrest⟩ := bind_eq_ok.mp hrest
      cases hrest
      have hfill : j.fill = true := by rw [← hj]; exact hdirty
      have hoff : j.off = ec.get h.ePhoff := by rw [← hj]; rfl
      have hsome : j.bytes = some bs := by
        rw [← hj]
        show (if _ then _ else _) = _
        rw [if_pos hdirty, hvalue]
        rfl
      obtain rfl : s = { t with file := j.runGap fillByte (ehdrSize ec) t.file } := by
        unfold Job.runGap
        rw [hsize] at hgap
        rw [hoff]
        split at hgap
        · next hlt => rw [if_pos ⟨hfill, hlt⟩, fill_ok hgap]
        · next hge =>
          cases hgap
          rw [if_neg fun hg => hge hg.2]
      refine ⟨⟨false, ?_, fun _ => rfl⟩, by rw [Option.isNone_some, if_neg Bool.false_ne_true, Bool.or_assoc, hdirty,
        Bool.or_true]⟩
      rw [pwriteRetry_ok hwrite, Job.run, hsome, hoff]
      rfl
    | false =>
      simp only [hdirty, if_neg Bool.false_ne_true] at hrun
      cases hrun
      have hnone : j.bytes = none := by rw [← hj]; exact if_neg (by rw [hdirty]; exact Bool.false_ne_true)
      have hfill : j.fill = false := by rw [← hj]; exact hdirty
      refine ⟨⟨t.marks.phdr, ?_, fun _ => (Bool.or_eq_false_iff.mp hdirty).1⟩, by
        rw [Option.isNone_some, if_neg Bool.false_ne_true, Bool.or_assoc, hdirty, Bool.or_false]⟩
      rw [Job.run, hnone, Job.runGap, hfill, if_neg fun hg => Bool.false_ne_true hg.1]

/-- The sections and the table of their headers. -/
theorem writeSections_ok {h : Ehdr} {shnum : Nat} {u : Unit} (hnodup : ((sortSections ec t.elf).map Prod.fst).Nodup)
    (hlast : c.last < 2 ^ 63) (hshoff : t.elf.startOffset + ec.get h.eShoff < 2 ^ 63) (hdirty : c.shdrDirty = t.marks.elf)
    (hasc : Ascends c.last (scnJobs env ec swap t.marks t.elf.startOffset c.changed (sortSections ec t.elf)))
    (hend : jobsEnd c.last (scnJobs env ec swap t.marks t.elf.startOffset c.changed (sortSections ec t.elf)) < 2 ^ 63)
    (hrun : writeSections env fillByte ec swap h shnum c t = .ok u t') :
    let js := scnJobs env ec swap t.marks t.elf.startOffset c.changed (sortSections ec t.elf)
    Proceeded t t' ((tableJob env ec swap t.marks t.elf.startOffset shnum h (sortSections ec t.elf)).run fillByte
      (jobsEnd c.last js) (runJobs fillByte c.last js t.file)) ∧ shnum = (sortSections ec t.elf).length := by
  intro js
  obtain ⟨j, hj⟩ : ∃ j, tableJob env ec swap t.marks t.elf.startOffset shnum h (sortSections ec t.elf) = j := ⟨_, rfl⟩
  rw [hj]
  simp only [writeSections, wrap_of_lt (show t.elf.startOffset + ec.get h.eShoff < 2 ^ 64 by omega)] at hrun
  split at hrun
  · cases hrun
  next hlen =>
  obtain ⟨table, t₀, htable, hrest⟩ := bind_eq_ok.mp hrun
  obtain ⟨u₀, hvalue, rfl⟩ := within_eq_ok.mp htable
  obtain ⟨c₁, t₁, hscns, hrest⟩ := bind_eq_ok.mp hrest
  obtain ⟨hp, hlast₁, hdirty₁⟩ := writeScns_ok _ hnodup hlast hasc hend hscns
  obtain ⟨_, t₂, hgap, hrest⟩ := bind_eq_ok.mp hrest
  have hoff : j.off = t.elf.startOffset + ec.get h.eShoff := by rw [← hj]; rfl
  have hfill : j.fill = t₁.marks.elf := by rw [← hj, hp.marks.1]; rfl
  obtain rfl : t₂ = { t₁ with file := j.runGap fillByte c₁.last t₁.file } := by
    have hgap' : ∃ n, (if sgt (t.elf.startOffset + ec.get h.eShoff) c₁.last ∧ j.fill = true then
        fill fillByte c₁.last (wrap (t.elf.startOffset + ec.get h.eShoff + (2 ^ 64 - c₁.last))) c₁.filled t₁
        else .ok c₁.filled t₁ : WriteCall Nat) = .ok n t₂ := by
      rw [hfill]
      split at hgap
      · next hcond =>
        rw [if_pos ⟨hcond.2, hcond.1⟩]
        obtain ⟨n, s, hf, hok⟩ := bind_eq_ok.mp hgap
        cases hok
        exact ⟨n, hf⟩
      · next hcond =>
        cases hgap
        rw [if_neg fun hc => hcond ⟨hc.2, hc.1⟩]
        exact ⟨c₁.filled, rfl⟩
    obtain ⟨n, hgap'⟩ := hgap'
    exact gap_ok (by rw [hlast₁]; exact hend) hshoff hoff hgap'
  have hmark : c₁.shdrDirty = tableDirty t.marks (sortSections ec t.elf) := by rw [hdirty₁, hdirty]; rfl
  refine ⟨?_, (not_not.mp hlen).symm⟩
  split at hrest
  · next hclean =>
    cases hrest
    have hnone : j.bytes = none := by
      rw [← hj]
      exact if_neg (by rw [← hmark, hclean]; exact Bool.false_ne_true)
    refine ⟨?_, hp.elf, hp.shdrs, hp.marks⟩
    rw [Job.run, hnone, ← hlast₁, ← hp.file]
  · next hwrite =>
    split at hrest
    · cases hrest
    have hsome : j.bytes = some table := by
      rw [← hj]
      show (if _ then _ else _) = _
      rw [if_pos (by rw [← hmark]; exact Bool.of_not_eq_false hwrite), hvalue]
      rfl
    obtain rfl := pwriteRetry_ok hrest
    refine ⟨?_, hp.elf, hp.shdrs, hp.marks⟩
    rw [Job.run, hsome, ← hlast₁, ← hp.file, hoff]

/-- **An update is a run of the writer**, where the ranges in front of the table ascend: over the headers and the data
of the sections, and then over the table, if there is one. -/
theorem updatefile_ok {h : Ehdr} {phnum shnum : Nat} {u : Unit} (hh : t.elf.header env ec .all = .ok h t.elf)
    (hn : getPhdrnum env ec t.elf = .ok phnum t.elf) (hsize : h.eEhsize.toNat = ehdrSize ec)
    (hnodup : ((sortSections ec t.elf).map Prod.fst).Nodup) (hshoff : t.elf.startOffset + ec.get h.eShoff < 2 ^ 63)
    (hasc : Ascends 0 (bodyJobs env ec swap t h phnum)) (hend : jobsEnd 0 (bodyJobs env ec swap t h phnum) < 2 ^ 63)
    (hnum : shnum = (sortSections ec t.elf).length) (hrun : updatefile env fillByte ec swap shnum t = .ok u t') :
    let body := bodyJobs env ec swap t h phnum
    let table := tableJob env ec swap t.marks t.elf.startOffset shnum h (sortSections ec t.elf)
    t'.file = (if shnum = 0 then runJobs fillByte 0 body t.file
      else table.run fillByte (jobsEnd 0 body) (runJobs fillByte 0 body t.file)) ∧
    t'.elf.unmarked = t.elf.unmarked ∧ t'.shdrs = t.shdrs ∧ t'.marks.elf = false := by
  intro body table
  unfold updatefile at hrun
  rw [show reading (t.elf.header env ec .all) t = .ok h t by rw [hh]; rfl, bind_ok] at hrun
  obtain ⟨changed, t₁, hehdr, hrun⟩ := bind_eq_ok.mp hrun
  obtain ⟨rfl, hchanged⟩ := @writeEhdr_ok env fillByte ec swap t _ h _ hehdr
  obtain ⟨n, t₂, hread, hrun⟩ := bind_eq_ok.mp hrun
  obtain ⟨e, hcount, rfl⟩ := reading_ok hread
  obtain ⟨rfl, rfl⟩ : n = phnum ∧ e = t.elf := by
    have := hcount.symm.trans hn
    cases this
    exact ⟨rfl, rfl⟩
  obtain ⟨r, t₃, hphdrs, hrun⟩ := bind_eq_ok.mp hrun
  obtain ⟨⟨x, rfl, -⟩, hchanged'⟩ := writePhdrs_ok hsize hphdrs
  obtain ⟨_, t₄, hscns, hlast⟩ := bind_eq_ok.mp hrun
  cases hlast
  -- what the writer of the sections finds
  obtain ⟨front, hfront⟩ : ∃ front, frontJobs env ec swap t.marks h n t.elf.phdr = front := ⟨_, rfl⟩
  have hbody : body = front ++ scnJobs env ec swap t.marks t.elf.startOffset (frontChanged t.marks t.elf.phdr)
      (sortSections ec t.elf) := by rw [← hfront]; rfl
  rw [show bodyJobs env ec swap t h n = body from rfl, hbody] at hasc hend
  rw [jobsEnd_append] at hend
  obtain ⟨hascFront, hascScns⟩ := ascends_append.mp hasc
  have hfile : runJobs fillByte (ehdrSize ec) (t.elf.phdr.toList.map (phdrJob env ec swap t.marks h n))
      ((ehdrJob env ec swap t.marks h).run fillByte 0 t.file) = runJobs fillByte 0 front t.file := by
    rw [← hfront, frontJobs, runJobs]
    congr 1
    exact (Nat.zero_add _).symm
  have hcursor : headersEnd ec h n t.elf = jobsEnd 0 front := by
    rw [← hfront]
    unfold headersEnd frontJobs
    cases hphdr : t.elf.phdr with
    | none => exact (Nat.zero_add _).symm
    | some ps =>
      rw [Option.isNone_some, if_neg Bool.false_ne_true, Nat.mul_comm]
      refine wrap_of_lt (Nat.lt_of_le_of_lt ?_ (Nat.lt_trans hend (by decide)))
      refine Nat.le_trans (Nat.le_of_eq ?_) hascScns.le_end
      rw [← hfront, frontJobs, hphdr]
      rfl
  have hr : r.1 = frontChanged t.marks t.elf.phdr := by
    rw [hchanged', hchanged]
    unfold frontChanged
    cases t.elf.phdr with
    | none => exact Bool.and_true _
    | some ps =>
      show ((t.marks.ehdr || t.marks.elf) && false || t.marks.phdr || t.marks.elf) = (t.marks.phdr || t.marks.elf)
      rw [Bool.and_false, Bool.false_or]
  split at hscns
  · next hzero =>
    cases hscns
    have hnil : sortSections ec t.elf = [] := List.length_eq_zero_iff.mp (hnum.symm.trans hzero)
    rw [if_pos hzero, hbody, hnil, scnJobs, List.append_nil]
    exact ⟨hfile, rfl, rfl, rfl⟩
  · next hpos =>
    have hjobs := @scnJobs_congr env ec swap t.marks { t.marks with ehdr := false, phdr := x } t.elf.startOffset
      (sortSections ec t.elf) (fun _ _ _ => rfl) (frontChanged t.marks t.elf.phdr)
    simp only [hcursor, hr] at hscns
    obtain ⟨hp, -⟩ := writeSections_ok (by exact hnodup) (Nat.lt_of_le_of_lt hascScns.le_end hend) (by exact hshoff) rfl
      (by exact hjobs ▸ hascScns) (by exact hjobs ▸ hend) hscns
    rw [if_neg hpos, hbody, jobsEnd_append, runJobs_append]
    refine ⟨hp.file.trans ?_, hp.elf, hp.shdrs, rfl⟩
    simp only [hjobs, ← hfile]
    rfl

end LibElf.Elfutils
