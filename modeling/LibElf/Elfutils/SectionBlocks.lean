import LibElf.Elfutils.Begin

/-!
# The list of sections

`elf_newscn.c`, `elf_getscn.c` and `elf_nextscn.c`. The sections of an object are a chain of blocks.
The first one has as many entries as the image has section headers; each later one has twice as
many as `scnincr` was before, which is a 32-bit number. Section 0 comes into being with the first
section that is made, or when it is asked for.

1. `elfNewscn`, `elfGetscn`, `elfNextscn`, and `ScnOp`, the operations of a run.
2. `Blocks`, the invariant of the chain, and `blocks_opened`: every descriptor starts with it.
3. `Room`, the condition on a new section, `newscn_blocks` and `getscn_blocks`.
4. `SectionList`, what an application sees, and `section_blocks_run`.
-/

namespace LibElf.Elfutils

open Outcome
open Toolchain (ElfClass Ehdr Phdr Shdr)

/-- A section: the block that it is in, and its place there. -/
abbrev ScnHandle := Nat × Nat

/-! ## The operations -/

/-- What every new section is given: a section header of its own, and no data in the file. -/
def Scn.create (list : Nat) (s : Scn) : Scn :=
  { s with shdr := some Shdr.zero, shdrDirty := true, list := list, dataRead := true }

/-- What a section other than the zeroth is given besides. -/
def Scn.added (list index : Nat) (s : Scn) : Scn := { s.create list with index := index, dirty := true }

/-- Set the last block, which `scns_last` points to. -/
def Elf.setLast (e : Elf) (b : ScnList) : Elf := e.setScns (e.scns.dropLast ++ [b])

def newscnEntry (last : ScnList) (e : Elf) : Call ScnHandle :=
  match last.data[last.cnt - 1]? with
  | none => .stop .load
  | some prev =>
    if last.cnt = 0 then .stop .assertion
    else
      let list := e.scns.length - 1
      .ok (list, last.cnt) (e.setLast (last.push (Scn.added list (prev.index + 1))))

/-- A new block is appended, and its first entry becomes a section. -/
def newscnBlock (last : ScnList) (e : Elf) : Call ScnHandle :=
  if e.scnincr = 0 then .stop .assertion
  else
    let incr := e.scnincr * 2 % 2 ^ 32
    let list := e.scns.length
    -- in a block of capacity zero `max - 1` is the index `2 ^ 32 - 1`
    match last.data[last.max - 1]? with
    | none => .stop .load
    | some prev =>
      if incr = 0 then .stop .store
      else
        .ok (list, 0) ((e.setScnincr incr).setScns
          (e.scns ++ [(ScnList.alloc incr).push (Scn.added list (prev.index + 1))]))

/-- The part of `elf_newscn` from `again` on, where the entry found is not the zeroth section. -/
def newscnAgain (e : Elf) : Call ScnHandle :=
  match e.scns.getLast? with
  | none => .stop .null
  | some last => if last.cnt < last.max then newscnEntry last e else newscnBlock last e

/-- The chain with section 0 made, if it has room for it and is not there yet. -/
def makeZeroth (e : Elf) : Elf :=
  match e.scns with
  | [] => e
  | b :: bs =>
    if b.cnt = 0 ∧ 0 < b.max then e.setScns (b.push (Scn.create bs.length) :: bs) else e

/-- `elf_newscn`. It does not look at the kind: where the descriptor is no ELF object, `scns_last` is
a part of another state, or null. -/
def elfNewscn (e : Elf) : Call ScnHandle :=
  match e.kind with
  | .none => .stop .null
  | .ar => .stop .load
  | .elf => newscnAgain (if e.scns.length = 1 then makeZeroth e else e)

def elfGetscn (idx : Nat) (e : Elf) : Call ScnHandle :=
  if e.kind ≠ .elf then .err .INVALID_HANDLE e
  else
    let e := if idx = 0 then makeZeroth e else e
    match Chain.find e.scns idx with
    | some p => .ok p e
    | none => .err .INVALID_INDEX e

/-- `elf_nextscn`. A section handle is compared with pointers into the block `scn->list`. -/
def elfNextscn (e : Elf) (scn : Option ScnHandle) : Except Fault (Option ScnHandle) :=
  match e.kind with
  | .none => .ok none
  | .ar => .error .load
  | .elf =>
    let p := scn.getD (0, 0)
    let list := (scn.bind fun p => (Chain.entry e.scns p).map Scn.list).getD 0
    if list ≠ p.1 then .error .load
    else
      match e.scns[list]? with
      | none => .error .null
      | some b =>
        if p.2 + 1 < b.cnt then .ok (some (list, p.2 + 1))
        else if p.2 + 1 = b.max then
          match e.scns[list + 1]? with
          | none => .ok none
          | some c => if 0 < c.cnt then .ok (some (list + 1, 0)) else .error .assertion
        else .ok none

inductive ScnOp
  | newscn
  | getscn (idx : Nat)

/-- One call; an application goes on after an error. -/
def ScnOp.step (e : Elf) : ScnOp → Except Fault Elf
  | .newscn => (elfNewscn e).next
  | .getscn idx => (elfGetscn idx e).next

/-- A descriptor the library hands out for an image, a member of an archive, or a new file. -/
inductive Opened (env : Env) : Elf → Prop
  | read {fildes : Int} {cmd : Cmd} {e : Elf} : readFile env fildes cmd = .ok () e → Opened env e
  | member {fildes : Int} {offset maxsize : Nat} {cmd : Cmd} {parent : Nat} {ref e : Elf} :
    readMember env fildes offset maxsize cmd parent ref = .ok () e → Opened env e
  | memory {image : Image} {e : Elf} : elfMemory env image = .ok () e → Opened env e
  | write {fd : Int} {cmd : Cmd} : Opened env (writeFile fd cmd)

/-! ## The invariant -/

def Elf.sections (e : Elf) : List Scn := Chain.entries e.scns

structure Blocks (e : Elf) : Prop where
  elf : e.kind = .elf
  ne : e.scns ≠ []
  full : Chain.Full e.scns
  index : e.sections.map Scn.index = List.range e.sections.length
  list : ∀ (k : Nat) (b : ScnList), e.scns[k]? = some b → ∀ s ∈ b.used, s.list = k
  incr : e.scns.length = 1 → e.scnincr = 10
  head : ∀ b bs, e.scns = b :: bs → bs ≠ [] → 0 < b.cnt
  zeroth : ∀ b, e.scns = [b] → b.cnt = 0 → ∀ s ∈ b.data, s.index = 0

theorem Blocks.single {e : Elf} {b : ScnList} (hk : e.kind = .elf) (hscns : e.scns = [b]) (hle : b.cnt ≤ b.max)
    (hindex : b.used.map Scn.index = List.range b.cnt) (hlist : ∀ s ∈ b.used, s.list = 0)
    (hincr : e.scnincr = 10) (hzero : b.cnt = 0 → ∀ s ∈ b.data, s.index = 0) : Blocks e := by
  have hsections : e.sections = b.used := by
    rw [Elf.sections, hscns, Chain.entries_cons, Chain.entries_nil, List.append_nil]
  refine ⟨hk, by simp [hscns], hscns ▸ Chain.Full.single hle, ?_, fun k c hc s hs => ?_, fun _ => hincr,
    fun c cs hc hne => ?_, fun c hc => ?_⟩
  · rw [hsections, hindex, Block.length_used hle]
  · rw [hscns] at hc
    cases k with
    | zero =>
      obtain rfl := Option.some.inj hc
      exact hlist s hs
    | succ k => cases hc
  · rw [hscns] at hc
    exact absurd (List.cons.inj hc).2.symm hne
  · rw [hscns] at hc
    obtain rfl := List.singleton_inj.mp hc
    exact hzero

/-- The first block of an image has the sections found, in order. -/
theorem Blocks.found {e : Elf} {cmd : Cmd} {n : Nat} {scns : List Scn} (hk : e.kind = .elf)
    (hf : Found n scns) (hscns : e.scns = [firstBlock cmd scns]) (hincr : e.scnincr = 10) : Blocks e := by
  have hlen : scns.length = n := by simpa using congrArg List.length hf.index
  have hused : (firstBlock cmd scns).used = scns := by simp [firstBlock, Block.used]
  refine Blocks.single hk hscns ?_ ?_ ?_ hincr ?_
  · simp [firstBlock, Block.max]
  · rw [hused, hf.index, ← hlen]
    rfl
  · intro s hs
    rw [hused] at hs
    have hmem : s.list ∈ scns.map Scn.list := List.mem_map_of_mem hs
    rw [hf.list] at hmem
    exact (List.mem_replicate.mp hmem).2
  · intro hcnt s hs
    obtain rfl := List.length_eq_zero_iff.mp (hcnt : scns.length = 0)
    obtain rfl := (List.mem_replicate.mp (hs : s ∈ List.replicate _ Scn.zero)).2
    rfl

theorem readMmapedFile_blocks {env : Env} {fildes : Int} {image : Image} {offset maxsize : Nat} {cmd : Cmd}
    {parent : Option Nat} {e : Elf} (h : readMmapedFile env fildes image offset maxsize cmd parent = .ok () e)
    (hk : e.kind = .elf) : Blocks e := by
  unfold readMmapedFile at h
  extract_lets e₀ at h
  obtain ⟨ident, t, hread, hrest⟩ := bind_eq_ok.mp h
  obtain rfl := Elf.mapRead_ok hread
  split at hrest
  · obtain ⟨n, ec, hdr, scns, hfound, rfl⟩ := fileReadElf_ok hrest
    exact Blocks.found rfl hfound rfl rfl
  · cases hrest
    cases hk
  · rw [← (Outcome.ok.inj hrest).2] at hk
    cases hk

theorem readUnmmapedFile_blocks {env : Env} {fildes : Int} {offset maxsize : Nat} {cmd : Cmd}
    {parent : Option Nat} {e : Elf} (h : readUnmmapedFile env fildes offset maxsize cmd parent = .ok () e)
    (hk : e.kind = .elf) : Blocks e := by
  unfold readUnmmapedFile at h
  extract_lets e₀ at h
  split at h
  · cases h
  · split at h
    · cases h
      cases hk
    · extract_lets size at h
      split at h
      · obtain ⟨n, ec, hdr, scns, hfound, rfl⟩ := fileReadElf_ok h
        exact Blocks.found rfl hfound rfl rfl
      · rw [← (Outcome.ok.inj h).2] at hk
        cases hk
    · rw [← (Outcome.ok.inj h).2] at hk
      cases hk

/-- Every ELF object is opened with a chain of one block. -/
theorem blocks_opened {env : Env} {e : Elf} (ho : Opened env e) (hk : e.kind = .elf) : Blocks e := by
  cases ho with
  | read h =>
    unfold readFile at h
    extract_lets maxsize at h
    split at h
    · exact readMmapedFile_blocks h hk
    · exact readUnmmapedFile_blocks h hk
  | member h =>
    unfold readMember at h
    split at h
    · split at h
      · exact readMmapedFile_blocks h hk
      · exact readUnmmapedFile_blocks h hk
    · exact readUnmmapedFile_blocks h hk
  | memory h => exact readMmapedFile_blocks h hk
  | write =>
    refine Blocks.single rfl rfl (Nat.zero_le _) rfl (by simp [Block.used, ScnList.alloc]) rfl fun _ s hs => ?_
    obtain rfl := (List.mem_replicate.mp (hs : s ∈ List.replicate nscnsalloc Scn.zero)).2
    rfl

/-! ## New sections -/

/-- The last block has a free entry, or the next one has a capacity and a predecessor to count from. -/
def Room (e : Elf) : Prop :=
  ∀ last, e.scns.getLast? = some last →
    last.cnt < last.max ∨ 0 < last.max ∧ e.scnincr * 2 % 2 ^ 32 ≠ 0

instance (e : Elf) : Decidable (Room e) :=
  match h : e.scns.getLast? with
  | none => isTrue fun last hl => by rw [h] at hl; cases hl
  | some last =>
    decidable_of_iff (last.cnt < last.max ∨ 0 < last.max ∧ e.scnincr * 2 % 2 ^ 32 ≠ 0)
      ⟨fun hr l hl => by rw [h] at hl; cases hl; exact hr, fun hr => hr last h⟩

namespace Blocks

variable {e : Elf}

/-- The last block, and those before it. -/
theorem last (h : Blocks e) : ∃ init last, e.scns = init ++ [last] := by
  obtain ⟨init, last, heq⟩ := List.eq_nil_or_concat e.scns |>.resolve_left h.ne
  exact ⟨init, last, by rw [heq, List.concat_eq_append]⟩

theorem sections_eq {init : List ScnList} {last : ScnList} (hscns : e.scns = init ++ [last]) :
    e.sections = Chain.entries init ++ last.used := by
  rw [Elf.sections, hscns, Chain.entries_append, Chain.entries_cons, Chain.entries_nil, List.append_nil]

theorem cnt_le (h : Blocks e) {init : List ScnList} {last : ScnList} (hscns : e.scns = init ++ [last]) :
    last.cnt ≤ last.max := h.full.le last (by simp [hscns])

/-- Where there are sections, the last block has some. -/
theorem cnt_pos (h : Blocks e) (hne : e.sections ≠ []) {init : List ScnList} {last : ScnList}
    (hscns : e.scns = init ++ [last]) : 0 < last.cnt := by
  cases init with
  | nil =>
    rw [sections_eq hscns, Chain.entries_nil, List.nil_append] at hne
    refine Nat.pos_of_ne_zero fun hzero => hne ?_
    rw [Block.used, hzero, List.take_zero]
  | cons b bs => exact h.full.pos last (by simp [hscns])

/-- The last section carries the index that the next one goes on from. -/
theorem index_last (h : Blocks e) (hne : e.sections ≠ []) {init : List ScnList} {last : ScnList}
    (hscns : e.scns = init ++ [last]) :
    ∃ prev, last.data[last.cnt - 1]? = some prev ∧ prev.index + 1 = e.sections.length := by
  have hpos := h.cnt_pos hne hscns
  have hle := h.cnt_le hscns
  have hused := Block.length_used hle
  have hlen : e.sections.length = (Chain.entries init).length + last.cnt := by
    rw [sections_eq hscns, List.length_append, hused]
  have hdata : last.cnt - 1 < last.data.length := Nat.lt_of_lt_of_le (by omega) hle
  refine ⟨last.data[last.cnt - 1], List.getElem?_eq_getElem hdata, ?_⟩
  have hsec : e.sections[e.sections.length - 1]? = some last.data[last.cnt - 1] := by
    rw [sections_eq hscns, List.getElem?_append_right (by simp only [List.length_append]; omega),
      List.length_append, hused, show (Chain.entries init).length + last.cnt - 1 - (Chain.entries init).length =
        last.cnt - 1 by omega, Block.getElem?_used (by omega), List.getElem?_eq_getElem hdata]
  have hmap := congrArg (Option.map Scn.index) hsec
  rw [← List.getElem?_map, h.index, List.getElem?_range (by omega), Option.map_some] at hmap
  have := Option.some.inj hmap
  omega

/-- One more section at the end of the chain, which may have got one more block for it. -/
theorem extend (h : Blocks e) {e' : Elf} {s : Scn} (hk : e'.kind = .elf) (hfull : Chain.Full e'.scns)
    (hne : e'.scns ≠ []) (hsec : e'.sections = e.sections ++ [s]) (hindex : s.index = e.sections.length)
    (hlist : ∀ (k : Nat) (b : ScnList), e'.scns[k]? = some b → ∀ s ∈ b.used, s.list = k)
    (hincr : e'.scns.length = 1 → e'.scnincr = 10)
    (hhead : ∀ b bs, e'.scns = b :: bs → bs ≠ [] → 0 < b.cnt) : Blocks e' := by
  refine ⟨hk, hne, hfull, ?_, hlist, hincr, hhead, fun b hb hcnt => ?_⟩
  · rw [hsec, List.map_append, h.index, List.length_append, List.map_cons, List.map_nil, hindex,
      List.length_singleton, List.range_succ]
  · -- a single block without sections has no room for the new one
    have hnil : e'.sections = [] := by
      rw [Elf.sections, hb, Chain.entries_cons, Chain.entries_nil, List.append_nil, Block.used, hcnt,
        List.take_zero]
    rw [hnil] at hsec
    exact absurd hsec.symm (by simp)

end Blocks

/-- The next entry of the last block. -/
theorem newscnEntry_blocks {e : Elf} (h : Blocks e) (hne : e.sections ≠ []) {init : List ScnList}
    {last : ScnList} (hscns : e.scns = init ++ [last]) (hroom : last.cnt < last.max) :
    ∃ p e', newscnEntry last e = .ok p e' ∧ Blocks e' := by
  obtain ⟨prev, hprev, hindex⟩ := h.index_last hne hscns
  have hpos := h.cnt_pos hne hscns
  have hlen : e.scns.length - 1 = init.length := by simp [hscns]
  obtain ⟨x, hx⟩ : ∃ x, last.data[last.cnt]? = some x := ⟨_, List.getElem?_eq_getElem hroom⟩
  rw [newscnEntry, hprev]
  simp only [if_neg (Nat.pos_iff_ne_zero.mp hpos)]
  refine ⟨_, _, rfl, ?_⟩
  have hnew : ∀ f : Scn → Scn, (e.setLast (last.push f)).scns = init ++ [last.push f] := by
    intro f
    rw [Elf.setLast, Elf.scns_setScns, hscns, List.dropLast_concat]
  have hused := fun f : Scn → Scn => Block.used_push (f := f) hx
  refine h.extend (s := x.added (e.scns.length - 1) (prev.index + 1)) h.elf ?_ ?_ ?_ hindex ?_ (fun hone => ?_)
    fun b bs hb hbs => ?_
  · rw [hnew]
    refine Chain.Full.setLast (hscns ▸ h.full) ?_ (Nat.succ_pos _)
    rw [Block.max_push]
    exact hroom
  · rw [hnew]
    simp
  · rw [Blocks.sections_eq (hnew _), Blocks.sections_eq hscns, hused, List.append_assoc]
  · intro k b hb s hs
    rw [hnew] at hb
    rcases Nat.lt_trichotomy k init.length with hk | hk | hk
    · rw [List.getElem?_append_left hk] at hb
      exact h.list k b (by rw [hscns, List.getElem?_append_left hk, hb]) s hs
    · subst hk
      rw [List.getElem?_concat_length] at hb
      obtain rfl := Option.some.inj hb
      rw [hused] at hs
      rcases List.mem_append.mp hs with hs | hs
      · exact h.list init.length last (by rw [hscns, List.getElem?_concat_length]) s hs
      · obtain rfl := List.mem_singleton.mp hs
        exact hlen
    · rw [List.getElem?_eq_none (by simp; omega)] at hb
      cases hb
  · refine h.incr ?_
    rw [hnew] at hone
    simpa [hscns] using hone
  · rw [hnew] at hb
    cases init with
    | nil => exact absurd (List.cons.inj hb).2.symm hbs
    | cons c cs =>
      obtain rfl := (List.cons.inj hb).1
      exact h.head c (cs ++ [last]) hscns (by simp)

/-- The first entry of a new block. -/
theorem newscnBlock_blocks {e : Elf} (h : Blocks e) (hne : e.sections ≠ []) {init : List ScnList}
    {last : ScnList} (hscns : e.scns = init ++ [last]) (hfull : last.cnt = last.max)
    (hincr : e.scnincr * 2 % 2 ^ 32 ≠ 0) : ∃ p e', newscnBlock last e = .ok p e' ∧ Blocks e' := by
  obtain ⟨prev, hprev, hindex⟩ := h.index_last hne hscns
  rw [hfull] at hprev
  have hzero : e.scnincr ≠ 0 := by
    intro hz
    rw [hz] at hincr
    exact hincr rfl
  rw [newscnBlock, if_neg hzero]
  simp only [hprev, if_neg hincr]
  refine ⟨_, _, rfl, ?_⟩
  have hx : (ScnList.alloc (e.scnincr * 2 % 2 ^ 32)).data[(ScnList.alloc (e.scnincr * 2 % 2 ^ 32)).cnt]? =
      some Scn.zero := by
    show (List.replicate _ Scn.zero)[0]? = _
    rw [List.getElem?_replicate, if_pos (Nat.pos_of_ne_zero hincr)]
  have hused := fun f : Scn → Scn => Block.used_push (f := f) hx
  have hempty : (ScnList.alloc (e.scnincr * 2 % 2 ^ 32)).used = [] := rfl
  refine h.extend (s := Scn.zero.added e.scns.length (prev.index + 1)) h.elf ?_ (by simp) ?_ hindex ?_
    (fun hone => ?_) fun b bs hb hbs => ?_
  · rw [Elf.scns_setScns, hscns]
    refine Chain.Full.append (hscns ▸ h.full) hfull ?_ (Nat.succ_pos _)
    rw [Block.max_push]
    exact Nat.succ_le_of_lt (by
      show 0 < (List.replicate _ Scn.zero).length
      rw [List.length_replicate]
      exact Nat.pos_of_ne_zero hincr)
  · rw [Blocks.sections_eq (Elf.scns_setScns _ _), hused, hempty, List.nil_append]
    rfl
  · intro k b hb s hs
    rw [Elf.scns_setScns] at hb
    rcases Nat.lt_trichotomy k e.scns.length with hk | hk | hk
    · rw [List.getElem?_append_left hk] at hb
      exact h.list k b hb s hs
    · subst hk
      rw [List.getElem?_concat_length] at hb
      obtain rfl := Option.some.inj hb
      rw [hused, hempty, List.nil_append] at hs
      obtain rfl := List.mem_singleton.mp hs
      rfl
    · rw [List.getElem?_eq_none (by simp; omega)] at hb
      cases hb
  · rw [Elf.scns_setScns, hscns] at hone
    simp at hone
  · rw [Elf.scns_setScns, hscns] at hb
    cases init with
    | nil =>
      obtain rfl := (List.cons.inj hb).1
      exact h.cnt_pos hne hscns
    | cons c cs =>
      obtain rfl := (List.cons.inj hb).1
      exact h.head c (cs ++ [last]) hscns (by simp)

/-- Making section 0 keeps the chain, and the room in it. -/
theorem makeZeroth_blocks {e : Elf} (h : Blocks e) : Blocks (makeZeroth e) := by
  unfold makeZeroth
  split
  · exact h
  · next b bs hscns =>
    split
    · next hroom =>
      -- a first block without sections is the only one
      have hbs : bs = [] := by
        cases bs with
        | nil => rfl
        | cons c bs =>
          have := (hscns ▸ h.full : Chain.Full (b :: c :: bs)).head
          omega
      subst hbs
      obtain ⟨x, hx⟩ : ∃ x, b.data[b.cnt]? = some x := ⟨_, List.getElem?_eq_getElem (hroom.1 ▸ hroom.2)⟩
      have hused := Block.used_push (f := Scn.create 0) hx
      have hnil : b.used = [] := by rw [Block.used, hroom.1, List.take_zero]
      refine Blocks.single h.elf (Elf.scns_setScns _ _) ?_ ?_ ?_ (h.incr (by rw [hscns]; rfl)) fun hz => ?_
      · rw [Block.max_push]
        show b.cnt + 1 ≤ b.max
        omega
      · show (b.push (Scn.create 0)).used.map Scn.index = _
        rw [hused, hnil]
        show [x.index] = List.range (b.cnt + 1)
        rw [h.zeroth b hscns hroom.1 x (List.mem_of_getElem? hx), hroom.1]
        rfl
      · intro s hs
        have hs' : s ∈ (b.push (Scn.create 0)).used := hs
        rw [hused, hnil, List.nil_append] at hs'
        obtain rfl := List.mem_singleton.mp hs'
        rfl
      · cases hz
    · exact h

theorem Room.makeZeroth {e : Elf} (h : Blocks e) (hroom : Room e) : Room (makeZeroth e) := by
  unfold LibElf.Elfutils.makeZeroth
  split
  · exact hroom
  · next b bs hscns =>
    split
    · next hzero =>
      intro last hlast
      cases bs with
      | nil =>
        have hl : b.push (Scn.create 0) = last := Option.some.inj hlast
        rw [← hl, Block.max_push]
        refine .inr ⟨hzero.2, ?_⟩
        show e.scnincr * 2 % 2 ^ 32 ≠ 0
        rw [h.incr (by rw [hscns]; rfl)]
        decide
      | cons c cs =>
        refine hroom last ?_
        rw [hscns]
        exact hlast
    · exact hroom

/-- Section 0 is there before any other section is made. -/
theorem sections_ne_nil {e : Elf} (h : Blocks e) (hroom : Room e) :
    (if e.scns.length = 1 then makeZeroth e else e).sections ≠ [] := by
  obtain ⟨init, last, hscns⟩ := h.last
  have hle := h.cnt_le hscns
  cases init with
  | nil =>
    have hone : e.scns.length = 1 := by rw [hscns]; rfl
    rw [if_pos hone]
    have hmax : 0 < last.max := by
      rcases hroom last (by rw [hscns]; rfl) with hlt | hlt
      · exact Nat.lt_of_le_of_lt (Nat.zero_le _) hlt
      · exact hlt.1
    have hscns' : (makeZeroth e).scns = [if last.cnt = 0 then last.push (Scn.create 0) else last] := by
      simp only [makeZeroth, hscns, List.nil_append]
      by_cases hcnt : last.cnt = 0
      · rw [if_pos ⟨hcnt, hmax⟩, if_pos hcnt]
        rfl
      · rw [if_neg fun hc => hcnt hc.1, if_neg hcnt, hscns]
        rfl
    have hpos := (makeZeroth_blocks h).full.le _ (by rw [hscns']; exact List.mem_singleton_self _)
    rw [Elf.sections, hscns', Chain.entries_cons, Chain.entries_nil, List.append_nil]
    refine List.ne_nil_of_length_pos ?_
    rw [Block.length_used hpos]
    split
    · exact Nat.succ_pos _
    · next hcnt => exact Nat.pos_of_ne_zero hcnt
  | cons b bs =>
    have hone : e.scns.length ≠ 1 := by simp [hscns]
    have hlast := h.full.pos last (by simp [hscns])
    rw [if_neg hone, Blocks.sections_eq hscns]
    refine List.ne_nil_of_length_pos ?_
    rw [List.length_append, Block.length_used hle]
    omega

/-- Where there is room, `elf_newscn` makes a section and keeps the chain. -/
theorem newscn_blocks {e : Elf} (h : Blocks e) (hroom : Room e) :
    ∃ p e', elfNewscn e = .ok p e' ∧ Blocks e' := by
  have hne := sections_ne_nil h hroom
  rw [elfNewscn, h.elf]
  simp only
  generalize he₁ : (if e.scns.length = 1 then makeZeroth e else e) = e₁ at hne ⊢
  have h₁ : Blocks e₁ := by
    rw [← he₁]
    split
    · exact makeZeroth_blocks h
    · exact h
  have hroom₁ : Room e₁ := by
    rw [← he₁]
    split
    · exact hroom.makeZeroth h
    · exact hroom
  obtain ⟨init, last, hscns⟩ := h₁.last
  have hlast : e₁.scns.getLast? = some last := by rw [hscns, List.getLast?_concat]
  rw [newscnAgain, hlast]
  simp only
  by_cases hlt : last.cnt < last.max
  · rw [if_pos hlt]
    exact newscnEntry_blocks h₁ hne hscns hlt
  · have hle := h₁.cnt_le hscns
    rw [if_neg hlt]
    rcases hroom₁ last hlast with hlt' | ⟨-, hincr⟩
    · exact absurd hlt' hlt
    · exact newscnBlock_blocks h₁ hne hscns (Nat.le_antisymm hle (Nat.le_of_not_lt hlt)) hincr

/-! ## Looking sections up -/

section LookUp

variable {e : Elf}

/-- A position found holds the section with the index that was asked for. -/
theorem Blocks.found_index (h : Blocks e) {i : Nat} {p : ScnHandle} (hf : Chain.find e.scns i = some p) :
    i < e.sections.length ∧ (Chain.entry e.scns p).map Scn.index = some i := by
  have hlt : i < e.sections.length := (Chain.isSome_find h.full i).mp (by rw [hf]; rfl)
  have hentry := Chain.entry_find h.full i
  rw [hf, Option.bind_some] at hentry
  refine ⟨hlt, ?_⟩
  rw [hentry, ← List.getElem?_map]
  show (e.sections.map Scn.index)[i]? = some i
  rw [h.index, List.getElem?_range hlt]

/-- A position found is that of a section which knows its block. -/
theorem Blocks.found_list (h : Blocks e) {i : Nat} {p : ScnHandle} (hf : Chain.find e.scns i = some p) :
    (Chain.entry e.scns p).map Scn.list = some p.1 := by
  obtain ⟨b, hb, hcnt, hmax⟩ := Chain.find_some hf
  have hdata : b.data[p.2]? = some b.data[p.2] := List.getElem?_eq_getElem hmax
  have hmem : b.data[p.2] ∈ b.used := by
    refine List.mem_of_getElem? (i := p.2) ?_
    rw [Block.getElem?_used hcnt, hdata]
  rw [Chain.entry, hb, Option.bind_some, hdata, Option.map_some, h.list p.1 b hb _ hmem]

/-- `elf_nextscn` goes on in the chain, for a handle in a block that the section names. -/
theorem nextscn_eq (h : Blocks e) {scn : Option ScnHandle} {b : ScnList}
    (hlist : (scn.bind fun p => (Chain.entry e.scns p).map Scn.list).getD 0 = (scn.getD (0, 0)).1)
    (hb : e.scns[(scn.getD (0, 0)).1]? = some b) :
    elfNextscn e scn = .ok (Chain.next e.scns (scn.getD (0, 0))) := by
  rw [elfNextscn, h.elf]
  simp only [hlist, ne_eq, not_true_eq_false, if_false, hb, Chain.next]
  generalize scn.getD (0, 0) = p at hb ⊢
  by_cases hcnt : p.2 + 1 < b.cnt
  · rw [if_pos hcnt, if_pos hcnt]
  · rw [if_neg hcnt, if_neg hcnt]
    by_cases hmax : p.2 + 1 = b.max
    · rw [if_pos hmax]
      by_cases hlen : p.1 + 1 < e.scns.length
      · -- the next block is not the first one, so it is used
        have hnext : e.scns.tail[p.1]? = some e.scns[p.1 + 1] := by
          rw [List.getElem?_tail, List.getElem?_eq_getElem hlen]
        have hpos : 0 < e.scns[p.1 + 1].cnt := h.full.pos _ (List.mem_of_getElem? hnext)
        rw [List.getElem?_eq_getElem hlen, if_pos ⟨hmax, hlen⟩]
        simp only
        rw [if_pos hpos]
      · rw [List.getElem?_eq_none (Nat.le_of_not_lt hlen), if_neg fun hc => hlen hc.2]
    · rw [if_neg hmax, if_neg fun hc => hmax hc.1]

theorem nextscn_find (h : Blocks e) {i : Nat} {p : ScnHandle} (hf : Chain.find e.scns i = some p) :
    elfNextscn e (some p) = .ok (Chain.find e.scns (i + 1)) := by
  obtain ⟨b, hb, -, -⟩ := Chain.find_some hf
  have hlist := h.found_list hf
  have hnext := @nextscn_eq e h (some p) b (by rw [Option.bind_some, hlist]; rfl) hb
  rw [hnext, ← Chain.next_find h.full hf]
  rfl

/-- Without a section `elf_nextscn` starts with section 1. -/
theorem nextscn_first (h : Blocks e) : elfNextscn e none = .ok (Chain.find e.scns 1) := by
  cases hscns : e.scns with
  | nil => exact absurd hscns h.ne
  | cons b bs =>
    have hb : e.scns[0]? = some b := by rw [hscns]; rfl
    rw [← hscns, @nextscn_eq e h none b rfl hb]
    by_cases hpos : 0 < b.cnt
    · have hle := h.full.le b (by rw [hscns]; exact List.mem_cons_self)
      have hf : Chain.find e.scns 0 = some (0, 0) := by
        rw [hscns, Chain.find, if_pos (Nat.lt_of_lt_of_le hpos hle), if_pos hpos]
      rw [← Chain.next_find h.full hf]
      rfl
    · -- nothing is in the first block, which is the only one
      obtain rfl : bs = [] := Classical.byContradiction fun hne => hpos (h.head b bs hscns hne)
      have hcnt : b.cnt = 0 := Nat.eq_zero_of_not_pos hpos
      rw [hscns]
      simp [Chain.next, Chain.find, hcnt]

/-- The handles that `elf_nextscn` returns one after the other, up to the null pointer. -/
inductive Visits (e : Elf) : Option ScnHandle → List ScnHandle → Prop
  | done {scn : Option ScnHandle} : elfNextscn e scn = .ok none → Visits e scn []
  | visit {scn : Option ScnHandle} {p : ScnHandle} {ps : List ScnHandle} :
    elfNextscn e scn = .ok (some p) → Visits e (some p) ps → Visits e scn (p :: ps)

def indexAt (e : Elf) (p : ScnHandle) : Option Nat := (Chain.entry e.scns p).map Scn.index

theorem visits_from (h : Blocks e) : ∀ (k i : Nat) {scn : Option ScnHandle}, e.sections.length = i + k →
    elfNextscn e scn = .ok (Chain.find e.scns i) →
    ∃ ps, Visits e scn ps ∧ ps.map (indexAt e) = (List.range' i k).map some := by
  intro k
  induction k with
  | zero =>
    intro i scn hlen hnext
    have hnone : Chain.find e.scns i = none := by
      rw [← Option.not_isSome_iff_eq_none, Chain.isSome_find h.full]
      exact Nat.not_lt.mpr (Nat.le_of_eq hlen)
    exact ⟨[], .done (hnext.trans (by rw [hnone])), rfl⟩
  | succ k ih =>
    intro i scn hlen hnext
    have hsome := (Chain.isSome_find h.full i).mpr (by show i < e.sections.length; omega)
    obtain ⟨p, hp⟩ := Option.isSome_iff_exists.mp hsome
    obtain ⟨ps, hvisits, hps⟩ := @ih (i + 1) (some p) (by omega) (nextscn_find h hp)
    refine ⟨p :: ps, .visit (hnext.trans (by rw [hp])) hvisits, ?_⟩
    rw [List.map_cons, hps, List.range'_succ, List.map_cons]
    exact congrArg (· :: _) (h.found_index hp).2

end LookUp

/-- What an application sees of the sections of a descriptor, whatever it did before. -/
structure SectionList (e : Elf) : Prop where
  full : ∀ b ∈ e.scns.dropLast, b.cnt = b.max
  inside : ∀ b ∈ e.scns, b.cnt ≤ b.max
  index : e.sections.map Scn.index = List.range e.sections.length
  getscn : ∀ i, (elfGetscn i e).Ensures (fun p e' => i < e'.sections.length ∧ indexAt e' p = some i)
    (fun e' => e'.sections.length ≤ i) (fun _ => False)
  nextscn : ∃ ps, Visits e none ps ∧
    ps.map (indexAt e) = (List.range' 1 (e.sections.length - 1)).map some

theorem getscn_blocks {e : Elf} (h : Blocks e) (idx : Nat) :
    (elfGetscn idx e).Ensures
      (fun p e' => Blocks e' ∧ idx < e'.sections.length ∧ indexAt e' p = some idx)
      (fun e' => Blocks e' ∧ e'.sections.length ≤ idx) (fun _ => False) := by
  have h₁ : Blocks (if idx = 0 then makeZeroth e else e) := by
    split
    · exact makeZeroth_blocks h
    · exact h
  rw [elfGetscn, if_neg (by rw [h.elf]; exact fun hc => hc rfl)]
  simp only
  generalize (if idx = 0 then makeZeroth e else e) = e₁ at h₁ ⊢
  cases hf : Chain.find e₁.scns idx with
  | some p => exact ⟨h₁, h₁.found_index hf⟩
  | none =>
    refine ⟨h₁, Nat.le_of_not_lt fun hlt => ?_⟩
    have := (Chain.isSome_find h₁.full idx).mpr hlt
    rw [hf] at this
    cases this

theorem Blocks.sectionList {e : Elf} (h : Blocks e) : SectionList e := by
  refine ⟨h.full.full, h.full.le, h.index, fun i => ?_, ?_⟩
  · exact ensures_mono (getscn_blocks h i) (fun _ _ hq => hq.2) (fun _ hq => hq.2) fun _ hf => hf
  · cases hlen : e.sections.length with
    | zero =>
      have hnone : Chain.find e.scns 1 = none := by
        rw [← Option.not_isSome_iff_eq_none, Chain.isSome_find h.full]
        show ¬ 1 < e.sections.length
        omega
      exact ⟨[], .done ((nextscn_first h).trans (by rw [hnone])), rfl⟩
    | succ n => exact visits_from h n 1 (by omega) (nextscn_first h)

/-- The condition on an operation: a new section finds room. -/
def ScnOp.Room (e : Elf) : ScnOp → Prop
  | .newscn => LibElf.Elfutils.Room e
  | .getscn _ => True

instance (e : Elf) (op : ScnOp) : Decidable (ScnOp.Room e op) := by
  cases op <;> unfold ScnOp.Room <;> exact inferInstance

theorem step_blocks {e : Elf} {op : ScnOp} (h : Blocks e) (hroom : ScnOp.Room e op) :
    ∃ e', ScnOp.step e op = .ok e' ∧ Blocks e' := by
  cases op with
  | newscn =>
    obtain ⟨p, e', hnew, h'⟩ := newscn_blocks h hroom
    exact ⟨e', by rw [ScnOp.step, hnew]; rfl, h'⟩
  | getscn idx =>
    have hget := getscn_blocks h idx
    rw [ScnOp.step]
    cases hres : elfGetscn idx e with
    | ok p e' =>
      rw [hres] at hget
      exact ⟨e', rfl, hget.1⟩
    | err c e' =>
      rw [hres] at hget
      exact ⟨e', rfl, hget.1⟩
    | stop f =>
      rw [hres] at hget
      exact hget.elim

/-- No run in which every new section finds room accesses anything outside of a block, and the list of
sections is in order after each. -/
theorem section_blocks_run {env : Env} {e : Elf} (ho : Opened env e) (hk : e.kind = .elf) (ops : List ScnOp)
    (hroom : Along ScnOp.step ScnOp.Room e ops) :
    ∃ e', runOps ScnOp.step e ops = .ok e' ∧ SectionList e' := by
  obtain ⟨e', hrun, h'⟩ :=
    runOps_returns_along (fun _ _ h hr => step_blocks h hr) ops e (blocks_opened ho hk) hroom
  exact ⟨e', hrun, h'.sectionList⟩

/-- A new file with room for ten sections in its first block gets twelve. -/
theorem section_blocks_new_file :
    ∃ e', runOps ScnOp.step (writeFile 3 .write) (.getscn 0 :: List.replicate 12 .newscn) = .ok e' ∧
      SectionList e' :=
  @section_blocks_run (plainEnv ⟨[], by decide⟩) _ .write rfl _ (by decide)

/-- A 64-bit image that is an ELF header alone. -/
def headerImage : Image :=
  ⟨[0x7F, 0x45, 0x4C, 0x46, 2, 1, 1, 0, 0, 0, 0, 0, 0, 0, 0, 0, 1, 0, 62, 0, 1, 0, 0, 0] ++
    List.replicate 40 0, by decide⟩

/-- An image without sections is opened for reading with a block of capacity zero, and the first new
section reads in front of its array. -/
theorem newscn_header_image :
    ∃ e, readFile (plainEnv headerImage) 3 .read = .ok () e ∧ e.kind = .elf ∧
      runOps ScnOp.step e [.newscn] = .error .load :=
  ⟨_, rfl, rfl, by decide +kernel⟩

end LibElf.Elfutils
