import LibElf.Elfutils.GetData
import LibElf.Elfutils.Overlap
import LibElf.Elfutils.XlateSafe

/-!
# Asking an open object

An object that was opened over an image is asked for its headers and for the data of its sections. What an
answer may change is what was not read before: the section headers, the program header table, and the data
of one section. The rest of the descriptor stays as opening left it.

1. `Query`, one question; `Query.ask` and `Query.step`.
2. `Session`, the invariant of such a run: the descriptor is the one opened but for the caches, and every
   cache holds what the image says. `SectionData` is the part about the data of one section.
3. The triples of the functions that look for headers. A fault is none that a load has, where the header is in the
   image (`InImage`).
-/

namespace LibElf.Elfutils

open Outcome
open Toolchain (ElfClass Ehdr Phdr Shdr)

/-! ## Questions -/

/-- The calls that ask for something. A section is found by its index first. -/
inductive Query
  | shdrnum
  | phdrnum
  | shdrstrndx
  | scn (idx : Nat)
  | shdr (idx : Nat)
  | shndx (idx : Nat)
  | phdr (ndx : Int)
  | data (idx : Nat) (data : Option Nat)
  | rawdata (idx : Nat) (data : Option Nat)
deriving DecidableEq

inductive Answer
  | number (n : Nat)
  | index (i : Int)
  | section (p : ScnHandle)
  | shdr (h : Shdr)
  | phdr (p : Phdr)
  | data (d : Option Data)
deriving DecidableEq

section Ask

variable (env : Env)

def Query.ask : Query → Elf → Call Answer
  | .shdrnum, e => if e.kind ≠ .elf then .err .INVALID_HANDLE e else (getShdrnum e).bind fun n => .ok (.number n)
  | .phdrnum, e => (elfGetphdrnum env e).bind fun n => .ok (.number n)
  | .shdrstrndx, e => (elfGetshdrstrndx env e).bind fun n => .ok (.number n)
  | .scn idx, e => (elfGetscn idx e).bind fun p => .ok (.section p)
  | .shdr idx, e => (elfGetscn idx e).bind fun p e => (gelfGetshdr env p e).bind fun h => .ok (.shdr h)
  | .shndx idx, e => (elfGetscn idx e).bind fun p e => (elfScnshndx env p e).bind fun i => .ok (.index i)
  | .phdr ndx, e => (gelfGetphdr env ndx e).bind fun p => .ok (.phdr p)
  | .data idx k, e => (elfGetscn idx e).bind fun p e => (elfGetdata env p k e).bind fun d => .ok (.data d)
  | .rawdata idx k, e => (elfGetscn idx e).bind fun p e => (elfRawdata env p k e).bind fun d => .ok (.data (some d))

/-- One question of a run; an application goes on after an error. -/
def Query.step (e : Elf) (q : Query) : Except Fault Elf := (q.ask env e).next

end Ask

/-! ## The invariant -/

/-- The same descriptor with other caches. -/
def Elf.keep (e : Elf) (scns : List ScnList) (phdr : Option Phdrs) : Elf :=
  { e with scns := scns, phdr := phdr }

def Elf.hdr (env : Env) (ec : ElfClass) (e : Elf) : Ehdr :=
  match e.ehdr with
  | some (.copied h) => h
  | _ => e.mapEhdr env ec false

/-- The range of the object is in the image, and the header is in the range where it is used in place. -/
structure InImage (ec : ElfClass) (e : Elf) : Prop where
  image : ∀ image, e.mapAddress = some image → e.startOffset + e.maximumSize ≤ image.bytes.length
  header : e.ehdr = some .mapped → ehdrSize ec ≤ e.maximumSize

/-- The data that was found in the image: of a size that the entries of its type divide. -/
def RawData (ec : ElfClass) (r : Data) : Prop :=
  ∀ bs, r.dBuf = some bs → bs ≠ [] ∧ bs.length = r.dSize ∧
    (FreeSize ec r.dType ∨ bs.length % typeSize ec r.dType = 0)

/-- The byte order of the object is not that of the host. -/
def Elf.swapped (env : Env) (ec : ElfClass) (e : Elf) : Bool :=
  decide (dataOrder ((e.hdr env ec).eIdent.toList.getD eiData 0) ≠ some env.host)

/-- What an application is given for the raw data `r`. -/
def Converted (env : Env) (ec : ElfClass) (e₀ : Elf) (r d : Data) : Prop :=
  match r.dBuf with
  | none => d = r
  | some bs => ∃ e₁ e₂ ds, foreign env ec e₁ = .ok (e₀.swapped env ec) e₁ ∧
      convertData env ec r.dType bs e₁ = .ok ds e₂ ∧ d = { r with dBuf := some ds }

structure SectionData (env : Env) (ec : ElfClass) (e₀ : Elf) (s : Scn) : Prop where
  read : s.rawdata.isSome → s.dataRead = true ∧ s.filedata = true
  fresh : s.dataRead = false → s.dataList = []
  raw : ∀ r, s.rawdata = some r → RawData ec r
  list : s.dataList = [] ∨ ∃ d, s.dataList = [d] ∧ Converted env ec e₀ (s.rawdata.getD Data.zero) d

/-- An object that was opened as `e₀` and asked since. -/
structure Session (env : Env) (ec : ElfClass) (e₀ e : Elf) : Prop where
  same : e = e₀.keep e.scns e.phdr
  elfClass : e₀.elfClass = some ec
  ehdr : e₀.ehdr.isSome
  blocks : Blocks e
  single : e.scns.length = 1
  table : (∃ s ∈ e.sections, s.shdr = none) →
    ec.get (e₀.hdr env ec).eShoff + e.sections.length * shdrSize ec ≤ e₀.maximumSize
  scns : ∀ b, e.scns = [b] → ∀ s ∈ b.data, SectionData env ec e₀ s
  phdr : ∀ off cnt, e.phdr = some (.mapped off cnt) → off + cnt * phdrSize ec ≤ e₀.maximumSize

/-- A call on an object with `n` sections: it keeps the invariant, what it returns satisfies `Q`, and it does
not end by a load. -/
def Keeps {α : Type} (env : Env) (ec : ElfClass) (e₀ : Elf) (n : Nat) (x : Call α) (Q : α → Elf → Prop) : Prop :=
  x.Ensures (fun a e => (Session env ec e₀ e ∧ e.sections.length = n) ∧ Q a e)
    (fun e => Session env ec e₀ e ∧ e.sections.length = n) fun f => InImage ec e₀ → f ≠ .load

namespace Keeps

variable {α β : Type} {env : Env} {ec : ElfClass} {e₀ e : Elf} {n : Nat} {x : Call α} {Q Q' : α → Elf → Prop}

theorem ok {a : α} (hs : Session env ec e₀ e) (hn : e.sections.length = n) (hQ : Q a e) :
    Keeps env ec e₀ n (.ok a e) Q := ⟨⟨hs, hn⟩, hQ⟩

theorem err {c : ElfError} (hs : Session env ec e₀ e) (hn : e.sections.length = n) :
    Keeps env ec e₀ n (.err c e : Call α) Q := ⟨hs, hn⟩

theorem stop {f : Fault} (hf : f ≠ .load) : Keeps env ec e₀ n (.stop f : Call α) Q := fun _ => hf

theorem bind {f : α → Elf → Call β} {R : β → Elf → Prop} (hx : Keeps env ec e₀ n x Q)
    (hf : ∀ a e, Session env ec e₀ e → e.sections.length = n → Q a e → Keeps env ec e₀ n (f a e) R) :
    Keeps env ec e₀ n (x.bind f) R :=
  ensures_bind hx fun a e h => hf a e h.1.1 h.1.2 h.2

theorem mono (hx : Keeps env ec e₀ n x Q) (h : ∀ a e, Q a e → Q' a e) : Keeps env ec e₀ n x Q' :=
  ensures_mono hx (fun a e ha => ⟨ha.1, h a e ha.2⟩) (fun _ => id) fun _ => id

/-- A call on the part of an answer. -/
theorem map {b : α → β} (hx : Keeps env ec e₀ n x Q) :
    Keeps env ec e₀ n (x.bind fun a => .ok (b a)) fun _ _ => True :=
  bind hx fun _ _ hs hn _ => ok hs hn trivial

end Keeps

/-! ## Reading the image -/

namespace Session

variable {env : Env} {ec : ElfClass} {e₀ e : Elf} {n : Nat}

theorem mapAddress (hs : Session env ec e₀ e) : e.mapAddress = e₀.mapAddress := by rw [hs.same]; rfl
theorem maximumSize (hs : Session env ec e₀ e) : e.maximumSize = e₀.maximumSize := by rw [hs.same]; rfl
theorem startOffset (hs : Session env ec e₀ e) : e.startOffset = e₀.startOffset := by rw [hs.same]; rfl
theorem class_eq (hs : Session env ec e₀ e) : e.elfClass = some ec := by
  rw [hs.same]
  exact hs.elfClass
theorem ehdr_eq (hs : Session env ec e₀ e) : e.ehdr = e₀.ehdr := by rw [hs.same]; rfl

/-- A load in the range of the object. -/
theorem mapRead (hs : Session env ec e₀ e) (hn : e.sections.length = n) {off len : Nat}
    (hrange : InImage ec e₀ → e₀.startOffset ≤ off ∧ off + len ≤ e₀.startOffset + e₀.maximumSize) :
    Keeps env ec e₀ n (e.mapRead off len) fun bs e' => e' = e ∧ bs.length = len := by
  unfold Elf.mapRead
  rw [hs.mapAddress, hs.startOffset, hs.maximumSize]
  cases hmap : e₀.mapAddress with
  | none => exact Keeps.stop nofun
  | some image =>
    simp only
    split
    · intro him
      have := hrange him
      omega
    · cases hread : readAt image.bytes off len e with
      | ok bs e' =>
        obtain ⟨hle, rfl, rfl⟩ := readAt_eq_ok.mp hread
        refine Keeps.ok hs hn ⟨rfl, ?_⟩
        rcases hle with rfl | hle
        · exact congrArg List.length (window_zero _ _)
        · exact length_window hle
      | err c e' => exact absurd hread readAt_ne_err
      | stop f =>
        intro him
        have hle := him.image image hmap
        have hr := hrange him
        obtain ⟨-, hpos, hlt⟩ := readAt_eq_stop.mp hread
        omega

/-- The header is the one found when the object was opened. -/
theorem header (hs : Session env ec e₀ e) (hn : e.sections.length = n) (f : EhdrField) :
    Keeps env ec e₀ n (e.header env ec f) fun h e' => e' = e ∧ h = e₀.hdr env ec := by
  have hmap : e.mapEhdr env ec false = e₀.mapEhdr env ec false := by
    unfold Elf.mapEhdr
    rw [hs.mapAddress, hs.startOffset]
  unfold Elf.header
  rw [hs.ehdr_eq, hs.startOffset]
  cases hh : e₀.ehdr with
  | none => exact Keeps.stop nofun
  | some hdr =>
    cases hdr with
    | copied h => exact Keeps.ok hs hn ⟨rfl, by rw [Elf.hdr, hh]⟩
    | mapped =>
      have hle := f.extent_le ec
      refine Keeps.bind (hs.mapRead hn fun him => ?_) ?_
      · have := him.header hh
        omega
      · rintro bs e' hs' hn' ⟨rfl, -⟩
        exact Keeps.ok hs hn ⟨rfl, by rw [Elf.hdr, hh, hmap]⟩

theorem foreign (hs : Session env ec e₀ e) (hn : e.sections.length = n) :
    Keeps env ec e₀ n (Elfutils.foreign env ec e) fun b e' => e' = e ∧ b = e₀.swapped env ec := by
  refine Keeps.bind (hs.header hn .ident) ?_
  rintro h e' hs' hn' ⟨rfl, rfl⟩
  exact Keeps.ok hs hn ⟨rfl, rfl⟩

end Session

/-! ## Sections -/

namespace Session

variable {env : Env} {ec : ElfClass} {e₀ e : Elf} {n : Nat} {p : ScnHandle}

/-- All sections are in one block. -/
theorem block (hs : Session env ec e₀ e) :
    ∃ b, e.scns = [b] ∧ e.sections = b.used ∧ b.cnt ≤ b.max ∧ b.cnt = e.sections.length := by
  obtain ⟨b, hb⟩ := List.length_eq_one_iff.mp hs.single
  have hle : b.cnt ≤ b.max := hs.blocks.full.le b (by rw [hb]; exact List.mem_singleton_self b)
  have hused : e.sections = b.used := by
    rw [Elf.sections, hb, Chain.entries_cons, Chain.entries_nil, List.append_nil]
  exact ⟨b, hb, hused, hle, by rw [hused, Block.length_used hle]⟩

/-- Change the entries of the block, but not which sections they are. -/
theorem setBlock (hs : Session env ec e₀ e) {b b' : ScnList} (hb : e.scns = [b]) (hcnt : b'.cnt = b.cnt)
    (hindex : b'.data.map Scn.index = b.data.map Scn.index) (hlist : b'.data.map Scn.list = b.data.map Scn.list)
    (hdata : ∀ s ∈ b'.data, SectionData env ec e₀ s)
    (htable : (∃ s ∈ b'.used, s.shdr = none) → ∃ s ∈ b.used, s.shdr = none) :
    Session env ec e₀ (e.setScns [b']) ∧ (e.setScns [b']).sections.length = e.sections.length := by
  obtain ⟨b₀, hb₀, hused, hle, hlen⟩ := hs.block
  obtain rfl := List.singleton_inj.mp (hb.symm.trans hb₀)
  have hmax : b'.max = b.max := by simpa [Block.max] using congrArg List.length hindex
  have hle' : b'.cnt ≤ b'.max := by rw [hcnt, hmax]; exact hle
  have husedmap : ∀ {β : Type} (g : Scn → β), b'.data.map g = b.data.map g → b'.used.map g = b.used.map g := by
    intro β g hg
    rw [Block.used, Block.used, List.map_take, List.map_take, hg, hcnt]
  have hsections : (e.setScns [b']).sections = b'.used := by
    rw [Elf.sections, Elf.scns_setScns, Chain.entries_cons, Chain.entries_nil, List.append_nil]
  have hsame : (e.setScns [b']).sections.length = e.sections.length := by
    rw [hsections, Block.length_used hle', hcnt, hlen]
  refine ⟨⟨?_, hs.elfClass, hs.ehdr, ?_, rfl, ?_, ?_, hs.phdr⟩, hsame⟩
  · conv_lhs => rw [hs.same]
    rfl
  · refine Blocks.single hs.blocks.elf rfl hle' ?_ ?_ (hs.blocks.incr hs.single) ?_
    · rw [husedmap _ hindex, ← hused, hs.blocks.index, hcnt, hlen]
    · intro s hmem
      have hmem' : s.list ∈ b.used.map Scn.list := by
        rw [← husedmap _ hlist]
        exact List.mem_map_of_mem hmem
      obtain ⟨s', hs', heq⟩ := List.mem_map.mp hmem'
      rw [← heq]
      exact hs.blocks.list 0 b (by rw [hb]; rfl) s' hs'
    · intro hz s hmem
      have hmem' : s.index ∈ b.data.map Scn.index := by
        rw [← hindex]
        exact List.mem_map_of_mem hmem
      obtain ⟨s', hs', heq⟩ := List.mem_map.mp hmem'
      rw [← heq]
      exact hs.blocks.zeroth b hb (hcnt ▸ hz) s' hs'
  · rw [hsame, hsections]
    intro hnone
    exact hs.table (by rw [hused]; exact htable hnone)
  · intro c hc
    obtain rfl := List.singleton_inj.mp hc
    exact hdata

/-- The data of a section. -/
theorem section_data (hs : Session env ec e₀ e) {i : Nat} {s : Scn} (hget : e.sections[i]? = some s) :
    SectionData env ec e₀ s := by
  obtain ⟨b, hb, hused, -, -⟩ := hs.block
  rw [hused] at hget
  exact hs.scns b hb s (List.mem_of_mem_take (List.mem_of_getElem? hget))

/-- Change one section. -/
theorem setScn (hs : Session env ec e₀ e) (hp : p.1 = 0 ∧ p.2 < e.sections.length) {f : Scn → Scn} (hindex : ∀ s, (f s).index = s.index)
    (hlist : ∀ s, (f s).list = s.list) (hshdr : ∀ s, (f s).shdr = s.shdr)
    (hdata : ∀ s, e.sections[p.2]? = some s → SectionData env ec e₀ (f s)) :
    Session env ec e₀ (e.setScn p f) ∧ (e.setScn p f).sections = e.sections.modify p.2 f := by
  obtain ⟨b, hb, hused, hle, hlen⟩ := hs.block
  have heq : e.setScn p f = e.setScns [⟨b.cnt, b.data.modify p.2 f⟩] := by
    rw [Elf.setScn, hp.1, hb]
    rfl
  have hmap : ∀ {β : Type} (g : Scn → β), (∀ s, g (f s) = g s) → ∀ l : List Scn,
      (l.modify p.2 f).map g = l.map g := by
    intro β g hg l
    apply List.ext_getElem?
    intro i
    rw [List.getElem?_map, List.getElem?_map, List.getElem?_modify]
    cases l[i]? with
    | none => rfl
    | some s => by_cases hk : p.2 = i <;> simp [hk, hg]
  have hused' : Block.used ⟨b.cnt, b.data.modify p.2 f⟩ = b.used.modify p.2 f := List.take_modify ..
  rw [heq]
  have hsections : (e.setScns [⟨b.cnt, b.data.modify p.2 f⟩]).sections = e.sections.modify p.2 f := by
    rw [Elf.sections, Elf.scns_setScns, Chain.entries_cons, Chain.entries_nil, List.append_nil, hused', hused]
  have hset := @setBlock env ec e₀ e hs b ⟨b.cnt, b.data.modify p.2 f⟩ hb rfl (hmap _ hindex _) (hmap _ hlist _)
  refine ⟨(hset ?_ ?_).1, hsections⟩
  · intro s hmem
    obtain ⟨i, hi⟩ := List.mem_iff_getElem?.mp hmem
    rw [show Block.data ⟨b.cnt, b.data.modify p.2 f⟩ = b.data.modify p.2 f from rfl, List.getElem?_modify] at hi
    obtain ⟨s', hs', rfl⟩ := Option.map_eq_some_iff.mp hi
    split
    · next hk =>
      subst hk
      exact hdata s' (by rw [hused, Block.getElem?_used (by omega)]; exact hs')
    · exact hs.scns b hb s' (List.mem_of_getElem? hs')
  · rw [hused']
    rintro ⟨s, hmem, hnone⟩
    have hmem' : (none : Option Shdr) ∈ (b.used.modify p.2 f).map Scn.shdr := hnone ▸ List.mem_map_of_mem hmem
    rw [hmap _ hshdr] at hmem'
    obtain ⟨s', hs', heq'⟩ := List.mem_map.mp hmem'
    exact ⟨s', hs', heq'⟩

/-- A handle that was handed out is that of a section. -/
theorem entry_eq (hs : Session env ec e₀ e) (hp : p.1 = 0 ∧ p.2 < e.sections.length) :
    Chain.entry e.scns p = e.sections[p.2]? := by
  obtain ⟨b, hb, hused, hle, hlen⟩ := hs.block
  rw [Chain.entry, hb, hp.1, hused, Block.getElem?_used (by omega)]
  rfl

theorem scn (hs : Session env ec e₀ e) (hn : e.sections.length = n) (hp : p.1 = 0 ∧ p.2 < n) :
    Keeps env ec e₀ n (e.scn p) fun s e' => e' = e ∧ e.sections[p.2]? = some s := by
  rw [Elf.scn, hs.entry_eq (hn ▸ hp)]
  cases hget : e.sections[p.2]? with
  | none =>
    have := List.getElem?_eq_none_iff.mp hget
    omega
  | some s => exact Keeps.ok hs hn ⟨rfl, rfl⟩

/-- The number of sections. -/
theorem getShdrnum (hs : Session env ec e₀ e) (hn : e.sections.length = n) :
    Keeps env ec e₀ n (Elfutils.getShdrnum e) fun k e' => e' = e ∧ k = n := by
  obtain ⟨b, hb, hused, hle, hlen⟩ := hs.block
  rw [Elfutils.getShdrnum, if_neg (not_not.mpr hs.blocks.elf), hb, List.getLast?_singleton]
  simp only
  by_cases hz : b.cnt = 0
  · rw [if_pos ⟨hz, rfl⟩]
    exact Keeps.ok hs hn ⟨rfl, by omega⟩
  · rw [if_neg fun h => hz h.1, if_neg hz]
    have hlt : b.cnt - 1 < b.data.length := by
      have : b.cnt ≤ b.data.length := hle
      omega
    have hlast : b.data[b.cnt - 1]? = some b.data[b.cnt - 1] := List.getElem?_eq_getElem hlt
    have hsec : e.sections[b.cnt - 1]? = some b.data[b.cnt - 1] := by
      rw [hused, Block.getElem?_used (by omega), hlast]
    have hindex : (b.data[b.cnt - 1]).index = b.cnt - 1 := by
      have hmap := congrArg (·[b.cnt - 1]?) hs.blocks.index
      simp only [List.getElem?_map, hsec, Option.map_some] at hmap
      rw [List.getElem?_range (by omega)] at hmap
      exact Option.some.inj hmap
    rw [hlast]
    exact Keeps.ok hs hn ⟨rfl, by omega⟩

end Session

/-! ## Section headers -/

/-- The data of a section is not in its header. -/
theorem SectionData.congr {env : Env} {ec : ElfClass} {e₀ : Elf} {s s' : Scn} (h : SectionData env ec e₀ s)
    (hread : s'.dataRead = s.dataRead) (hfile : s'.filedata = s.filedata) (hraw : s'.rawdata = s.rawdata)
    (hlist : s'.dataList = s.dataList) : SectionData env ec e₀ s' := by
  refine ⟨?_, ?_, ?_, ?_⟩
  · rw [hraw, hread, hfile]
    exact h.read
  · rw [hread, hlist]
    exact h.fresh
  · rw [hraw]
    exact h.raw
  · rw [hlist, hraw]
    exact h.list

/-- A member that section headers and extended indices do not change keeps its values. -/
theorem map_storeShdrs {β : Type} (g : Scn → β) (hindex : ∀ s i, g { s with shndxIndex := i } = g s)
    (hshdr : ∀ s h, g { s with shdr := h } = g s) (shndx : Bool) (shdrs : List Shdr) (data : List Scn) :
    ((if shndx then (List.range shdrs.length).foldl (setShndx shdrs) data else data).mapIdx fun i s =>
      if i < shdrs.length then { s with shdr := shdrs[i]? } else s).map g = data.map g := by
  have hfold : ∀ (l : List Nat) (data : List Scn), (l.foldl (setShndx shdrs) data).map g = data.map g := by
    intro l
    induction l with
    | nil => intro data; rfl
    | cons i l ih =>
      intro data
      rw [List.foldl_cons, ih, map_setShndx g hindex]
  have hidx : ∀ l : List Scn, (l.mapIdx fun i s =>
      if i < shdrs.length then { s with shdr := shdrs[i]? } else s).map g = l.map g := by
    intro l
    apply List.ext_getElem?
    intro i
    rw [List.getElem?_map, List.getElem?_map, List.getElem?_mapIdx]
    cases l[i]? with
    | none => rfl
    | some s =>
      simp only [Option.map_some]
      split
      · rw [hshdr]
      · rfl
  rw [hidx]
  split
  · exact hfold _ _
  · rfl

namespace Session

variable {env : Env} {ec : ElfClass} {e₀ e : Elf} {n : Nat} {p : ScnHandle}

/-- Reading a range of the file. -/
theorem pread {α : Type} (hs : Session env ec e₀ e) (hn : e.sections.length = n) {size off : Nat} {c c' : ElfError}
    {Q : α → Elf → Prop} {f : List UInt8 → Call α} (hf : ∀ bs, bs.length = size → Keeps env ec e₀ n (f bs) Q) :
    Keeps env ec e₀ n (match preadRetry env e.fildes size off with
      | none => .err c e
      | some bs => if bs.length ≠ size then .err c' e else f bs) Q := by
  split
  · exact Keeps.err hs hn
  · next bs _ =>
    split
    · exact Keeps.err hs hn
    · next hlen => exact hf bs (not_not.mp hlen)

theorem shdrBytes (hs : Session env ec e₀ e) (hn : e.sections.length = n) (shnum : Nat) :
    Keeps env ec e₀ n (Elfutils.shdrBytes env ec shnum e) fun _ e' => e' = e := by
  refine Keeps.bind (hs.header hn .shoff) ?_
  rintro h e' - - ⟨rfl, rfl⟩
  extract_lets shoff size
  split
  · split
    · exact Keeps.err hs hn
    · next hin =>
      rw [hs.maximumSize] at hin
      refine Keeps.bind (hs.foreign hn) ?_
      rintro swap e' - - ⟨rfl, rfl⟩
      split
      · exact Keeps.stop nofun
      · refine (hs.mapRead hn fun _ => ?_).mono fun _ _ h => h.1
        rw [hs.startOffset]
        omega
  · split
    · exact hs.pread hn fun bs _ => Keeps.ok hs hn rfl
    · exact Keeps.err hs hn

theorem storeShdrs (hs : Session env ec e₀ e) (hn : e.sections.length = n) (shndx : Bool) {shdrs : List Shdr}
    (hlen : shdrs.length = n) : Keeps env ec e₀ n (Elfutils.storeShdrs shndx shdrs e) fun _ e' =>
      e'.sections.map Scn.dataRead = e.sections.map Scn.dataRead := by
  obtain ⟨b, hb, hused, hle, hcnt⟩ := hs.block
  unfold Elfutils.storeShdrs
  split
  · exact Keeps.stop (by rintro ⟨⟩)
  · have hdata : e.firstData = b.data := by rw [Elf.firstData, hb]; rfl
    rw [hdata]
    extract_lets data
    generalize hdata' : data.mapIdx _ = data'
    have hmap : ∀ {β : Type} (g : Scn → β), (∀ s i, g { s with shndxIndex := i } = g s) →
        (∀ s h, g { s with shdr := h } = g s) → data'.map g = b.data.map g := by
      intro β g hindex hshdr
      rw [← hdata']
      exact map_storeShdrs g hindex hshdr shndx shdrs b.data
    have heq : e.setFirstData data' = e.setScns [⟨b.cnt, data'⟩] := by
      rw [Elf.setFirstData, hb]
      rfl
    -- what an entry has it had before, but for its header and its extended index
    have hentry : ∀ s ∈ data', SectionData env ec e₀ s := by
      intro s hmem
      obtain ⟨i, hi⟩ := List.mem_iff_getElem?.mp hmem
      have hget : ∀ {β : Type} (g : Scn → β), (∀ s i, g { s with shndxIndex := i } = g s) →
          (∀ s h, g { s with shdr := h } = g s) → some (g s) = (b.data[i]?).map g := by
        intro β g hindex hshdr
        have hcong := congrArg (·[i]?) (hmap g hindex hshdr)
        simp only [List.getElem?_map, hi, Option.map_some] at hcong
        exact hcong
      cases hold : b.data[i]? with
      | none =>
        have hnone := hget Scn.index (fun _ _ => rfl) fun _ _ => rfl
        rw [hold] at hnone
        cases hnone
      | some s' =>
        have hsame : ∀ {β : Type} (g : Scn → β), (∀ s i, g { s with shndxIndex := i } = g s) →
            (∀ s h, g { s with shdr := h } = g s) → g s = g s' := by
          intro β g hindex hshdr
          have hg := hget g hindex hshdr
          rw [hold] at hg
          exact Option.some.inj hg
        exact (hs.scns b hb s' (List.mem_of_getElem? hold)).congr (hsame _ (fun _ _ => rfl) fun _ _ => rfl)
          (hsame _ (fun _ _ => rfl) fun _ _ => rfl) (hsame _ (fun _ _ => rfl) fun _ _ => rfl)
          (hsame _ (fun _ _ => rfl) fun _ _ => rfl)
    have hheaders : ∀ s ∈ Block.used ⟨b.cnt, data'⟩, s.shdr ≠ none := by
      intro s hmem
      obtain ⟨i, hi⟩ := List.mem_iff_getElem?.mp hmem
      rw [Block.used, List.getElem?_take] at hi
      split at hi
      · next hused' =>
        have hlt : i < b.cnt := hused'
        have hi' : data'[i]? = some s := hi
        rw [← hdata', List.getElem?_mapIdx] at hi'
        obtain ⟨s', hs', rfl⟩ := Option.map_eq_some_iff.mp hi'
        have hlt' : i < shdrs.length := by omega
        rw [if_pos hlt']
        simp only [List.getElem?_eq_getElem hlt']
        rintro ⟨⟩
      · cases hi
    rw [heq]
    obtain ⟨hs', hn'⟩ : Session env ec e₀ (e.setScns [⟨b.cnt, data'⟩]) ∧
        (e.setScns [⟨b.cnt, data'⟩]).sections.length = e.sections.length :=
      hs.setBlock hb rfl (hmap _ (fun _ _ => rfl) fun _ _ => rfl)
        (hmap _ (fun _ _ => rfl) fun _ _ => rfl) hentry
        (by rintro ⟨s, hmem, hnone⟩; exact absurd hnone (hheaders s hmem))
    have hread : (e.setScns [⟨b.cnt, data'⟩]).sections.map Scn.dataRead = e.sections.map Scn.dataRead := by
      rw [hused, Elf.sections, Elf.scns_setScns, Chain.entries_cons, Chain.entries_nil, List.append_nil,
        Block.used, Block.used, List.map_take, List.map_take, hmap _ (fun _ _ => rfl) fun _ _ => rfl]
    exact Keeps.ok hs' (hn'.trans hn) hread

/-- Reading the section header of a section. -/
theorem getShdr (hs : Session env ec e₀ e) (hn : e.sections.length = n) (hp : p.1 = 0 ∧ p.2 < n) :
    Keeps env ec e₀ n (Elfutils.getShdr env p e) fun _ e' =>
      e'.sections.map Scn.dataRead = e.sections.map Scn.dataRead := by
  refine Keeps.bind (hs.scn hn hp) ?_
  rintro s e' - - ⟨rfl, -⟩
  cases hh : s.shdr with
  | some h => exact Keeps.ok hs hn rfl
  | none =>
    simp only
    rw [hs.ehdr_eq, hs.class_eq]
    obtain ⟨hdr, hhdr⟩ := Option.isSome_iff_exists.mp hs.ehdr
    rw [hhdr]
    refine Keeps.bind (hs.scn hn hp) ?_
    rintro s e' - - ⟨rfl, -⟩
    split
    · exact Keeps.ok hs hn rfl
    · refine Keeps.bind (hs.getShdrnum hn) ?_
      rintro shnum e' - - ⟨rfl, rfl⟩
      split
      · exact Keeps.err hs hn
      · refine Keeps.bind (hs.shdrBytes hn shnum) ?_
        rintro bs e' - - rfl
        refine Keeps.bind (hs.foreign hn) ?_
        rintro swap e' - - ⟨rfl, rfl⟩
        refine Keeps.bind (hs.storeShdrs hn _ (by simp [shdrTable])) ?_
        rintro u e' hs' hn' hread
        refine Keeps.bind (hs'.scn hn' hp) ?_
        rintro s e' hs' hn' ⟨rfl, -⟩
        split
        · exact Keeps.ok hs' hn' hread
        · exact Keeps.stop (by rintro ⟨⟩)

theorem gelfGetshdr (hs : Session env ec e₀ e) (hn : e.sections.length = n) (hp : p.1 = 0 ∧ p.2 < n) :
    Keeps env ec e₀ n (Elfutils.gelfGetshdr env p e) fun _ _ => True := by
  have h := (hs.getShdr hn hp).mono fun _ _ _ => trivial
  unfold Elfutils.gelfGetshdr
  cases hcall : Elfutils.getShdr env p e with
  | ok a e' => rw [hcall] at h; exact h
  | err c e' => rw [hcall] at h; exact h
  | stop f => rw [hcall] at h; exact h

theorem elfScnshndx (hs : Session env ec e₀ e) (hn : e.sections.length = n) (hp : p.1 = 0 ∧ p.2 < n) :
    Keeps env ec e₀ n (Elfutils.elfScnshndx env p e) fun _ _ => True := by
  refine Keeps.bind (hs.scn hn hp) ?_
  rintro s e' - - ⟨rfl, -⟩
  have hload : Keeps env ec e₀ n (if s.shndxIndex = 0 then (Elfutils.gelfGetshdr env p e').ignore else .ok () e')
      fun _ _ => True := by
    split
    · refine ensures_mono (ensures_ignore (ensures_mono (hs.gelfGetshdr hn hp) (fun _ _ h => h.1) (fun _ => id)
        fun _ => id)) (fun _ _ h => ⟨h, trivial⟩) (fun _ => id) fun _ => id
    · exact Keeps.ok hs hn trivial
  refine Keeps.bind hload ?_
  rintro u e' hs' hn' -
  exact (Keeps.bind (hs'.scn hn' hp) fun s e h₁ h₂ _ => Keeps.ok h₁ h₂ trivial)

end Session

/-! ## Program headers -/

/-- The number of program headers that `__elf_getphdrnum_rdlock` finds. -/
def Elf.phnum (env : Env) (ec : ElfClass) (e : Elf) : Nat :=
  let num := (e.hdr env ec).ePhnum.toNat
  if num = pnXnum then ((e.sections[0]?.bind Scn.shdr).map fun h => h.shInfo.toNat).getD num else num

def Phdrs.Has (ec : ElfClass) (maxsize i : Nat) : Phdrs → Prop
  | .mapped off _ => off + (i + 1) * phdrSize ec ≤ maxsize
  | .copied ps => i < ps.length

instance (ec : ElfClass) (maxsize i : Nat) : ∀ ps : Phdrs, Decidable (ps.Has ec maxsize i)
  | .mapped _ _ => inferInstanceAs (Decidable (_ ≤ _))
  | .copied _ => inferInstanceAs (Decidable (_ < _))

namespace Session

variable {env : Env} {ec : ElfClass} {e₀ e : Elf} {n : Nat}

theorem hdr_eq (hs : Session env ec e₀ e) : e.hdr env ec = e₀.hdr env ec := by
  unfold Elf.hdr Elf.mapEhdr
  rw [hs.ehdr_eq, hs.mapAddress, hs.startOffset]

theorem getPhdrnum (hs : Session env ec e₀ e) (hn : e.sections.length = n) :
    Keeps env ec e₀ n (Elfutils.getPhdrnum env ec e) fun num e' => e' = e ∧ num = e.phnum env ec := by
  obtain ⟨b, hb, hused, hle, hcnt⟩ := hs.block
  refine Keeps.bind (hs.header hn .phnum) ?_
  rintro h e' - - ⟨rfl, rfl⟩
  unfold Elf.phnum
  rw [hs.hdr_eq]
  extract_lets num
  by_cases hx : num = pnXnum
  · rw [if_pos hx, if_pos hx, hb, List.head?_cons]
    simp only
    by_cases hz : b.cnt = 0
    · rw [if_pos hz]
      have hnil : e'.sections = [] := List.length_eq_zero_iff.mp (by omega)
      exact Keeps.ok hs hn ⟨rfl, by rw [hnil]; rfl⟩
    · rw [if_neg hz]
      have hget : e'.sections[0]? = b.data[0]? := by rw [hused, Block.getElem?_used (by omega)]
      rw [hget]
      cases h0 : b.data[0]? with
      | none =>
        have hlen := List.getElem?_eq_none_iff.mp h0
        have : b.cnt ≤ b.data.length := hle
        omega
      | some s => exact Keeps.ok hs hn ⟨rfl, rfl⟩
  · rw [if_neg hx, if_neg hx]
    exact Keeps.ok hs hn ⟨rfl, rfl⟩

theorem getPhdrnumChk (hs : Session env ec e₀ e) (hn : e.sections.length = n) :
    Keeps env ec e₀ n (Elfutils.getPhdrnumChk env e) fun num e' =>
      e' = e ∧ (e.phdr.isSome → num = e.phnum env ec) := by
  obtain ⟨hdr, hhdr⟩ := Option.isSome_iff_exists.mp hs.ehdr
  unfold Elfutils.getPhdrnumChk
  rw [hs.ehdr_eq, hs.class_eq, hhdr]
  refine Keeps.bind (hs.getPhdrnum hn) ?_
  rintro num e' - - ⟨rfl, rfl⟩
  split
  · exact Keeps.ok hs hn ⟨rfl, fun _ => rfl⟩
  · next hnone =>
    refine Keeps.bind (hs.header hn .phoff) ?_
    rintro h e' - - ⟨rfl, rfl⟩
    extract_lets off
    split
    · exact Keeps.ok hs hn ⟨rfl, fun h => absurd h hnone⟩
    · split
      · exact Keeps.err hs hn
      · split
        · exact Keeps.err hs hn
        · exact Keeps.ok hs hn ⟨rfl, fun h => absurd h hnone⟩

/-- Keep a program header table that is in the range of the object. -/
theorem setPhdr (hs : Session env ec e₀ e) {ps : Phdrs}
    (hps : ∀ off cnt, ps = .mapped off cnt → off + cnt * phdrSize ec ≤ e₀.maximumSize) :
    Session env ec e₀ (e.setPhdr ps) := by
  have hblocks : Blocks (e.setPhdr ps) := by
    obtain ⟨h₁, h₂, h₃, h₄, h₅, h₆, h₇, h₈⟩ := hs.blocks
    exact ⟨h₁, h₂, h₃, h₄, h₅, h₆, h₇, h₈⟩
  refine ⟨?_, hs.elfClass, hs.ehdr, hblocks, hs.single, hs.table, hs.scns, ?_⟩
  · conv_lhs => rw [hs.same]
    rfl
  · intro off cnt h
    exact hps off cnt (Option.some.inj h)

theorem loadPhdr (hs : Session env ec e₀ e) (hn : e.sections.length = n) {num off : Nat} :
    Keeps env ec e₀ n (Elfutils.loadPhdr env ec num off e) fun ps e' =>
      e' = e.setPhdr ps ∧ ∀ i < num, ps.Has ec e₀.maximumSize i := by
  have hcopied : ∀ swap bs, Keeps env ec e₀ n (.ok (.copied (phdrTable env ec swap num bs))
      (e.setPhdr (.copied (phdrTable env ec swap num bs)))) fun ps e' =>
        e' = e.setPhdr ps ∧ ∀ i < num, ps.Has ec e₀.maximumSize i := fun swap bs =>
    Keeps.ok (hs.setPhdr nofun) hn ⟨rfl, fun i hi => by simpa [Phdrs.Has, phdrTable] using hi⟩
  unfold Elfutils.loadPhdr
  extract_lets size
  split
  · exact Keeps.err hs hn
  · next hfit =>
    rw [hs.maximumSize] at hfit
    split
    · split
      · exact Keeps.err hs hn
      · refine Keeps.bind (hs.foreign hn) ?_
        rintro swap e' - - ⟨rfl, rfl⟩
        split
        · refine Keeps.bind (hs.mapRead hn fun _ => ?_) ?_
          · rw [hs.startOffset]
            omega
          · rintro bs e' - - ⟨rfl, -⟩
            exact hcopied _ bs
        · refine Keeps.ok (hs.setPhdr ?_) hn ⟨rfl, fun i hi => ?_⟩
          · rintro off' cnt' h
            cases h
            show off + size ≤ _
            omega
          · show off + (i + 1) * phdrSize ec ≤ _
            have hmul : (i + 1) * phdrSize ec ≤ size := Nat.mul_le_mul_right _ hi
            omega
    · split
      · refine hs.pread hn fun bs _ => ?_
        refine Keeps.bind (hs.foreign hn) ?_
        rintro swap e' - - ⟨rfl, rfl⟩
        exact hcopied _ bs
      · exact Keeps.err hs hn

theorem getPhdr (hs : Session env ec e₀ e) (hn : e.sections.length = n) :
    Keeps env ec e₀ n (Elfutils.getPhdr env e) fun ps e' =>
      (e' = e ∧ e.phdr = some ps) ∨ (e' = e.setPhdr ps ∧ ∀ i < e.phnum env ec, ps.Has ec e₀.maximumSize i) := by
  obtain ⟨hdr, hhdr⟩ := Option.isSome_iff_exists.mp hs.ehdr
  unfold Elfutils.getPhdr
  cases hp : e.phdr with
  | some ps => exact Keeps.ok hs hn (.inl ⟨rfl, rfl⟩)
  | none =>
    simp only
    rw [hs.ehdr_eq, hs.class_eq, hhdr]
    refine Keeps.bind (hs.getPhdrnum hn) ?_
    rintro num e' - - ⟨rfl, rfl⟩
    split
    · exact Keeps.err hs hn
    · refine Keeps.bind (hs.header hn .phoff) ?_
      rintro h e' - - ⟨rfl, rfl⟩
      split
      · exact Keeps.err hs hn
      · exact (hs.loadPhdr hn).mono fun _ _ => .inr

/-- The entry asked for is in the table that was found, or the number of program headers refuses it. -/
def PhdrFits (env : Env) (ec : ElfClass) (e : Elf) (ndx : Int) : Prop :=
  ∀ ps, e.phdr = some ps → 0 ≤ ndx → ndx < e.phnum env ec → ps.Has ec e.maximumSize ndx.toNat

/-- A program header. Where the number of program headers grew since the table was found, the entry asked for
has to be in the table. -/
theorem gelfGetphdr (hs : Session env ec e₀ e) (hn : e.sections.length = n) (ndx : Int) :
    (Elfutils.gelfGetphdr env ndx e).Ensures (fun _ => Session env ec e₀) (Session env ec e₀)
      fun f => InImage ec e₀ → PhdrFits env ec e ndx → f ≠ .load := by
  rw [Elfutils.gelfGetphdr, if_neg (not_not.mpr hs.blocks.elf)]
  refine ensures_bind (ensures_mono (hs.getPhdr hn) (fun _ _ h => h) (fun _ h => h.1) fun f h him _ => h him) ?_
  rintro ps e' ⟨⟨hs', hn'⟩, hps⟩
  have hphdr : e'.phdr = some ps := by
    rcases hps with ⟨rfl, hps⟩ | ⟨rfl, -⟩
    · exact hps
    · rfl
  have hhas : PhdrFits env ec e ndx → 0 ≤ ndx → ndx < e'.phnum env ec → ps.Has ec e₀.maximumSize ndx.toNat := by
    intro hfit h0 hlt
    rcases hps with ⟨rfl, hps⟩ | ⟨rfl, hall⟩
    · rw [← hs.maximumSize]
      exact hfit ps hps h0 hlt
    · have hsame : (e.setPhdr ps).phnum env ec = e.phnum env ec := rfl
      exact hall _ (by omega)
  have hchk := hs'.getPhdrnumChk hn'
  cases hcall : Elfutils.getPhdrnumChk env e' with
  | stop f =>
    rw [hcall] at hchk
    exact fun him _ => hchk him
  | err c e'' =>
    rw [hcall] at hchk
    exact hchk.1
  | ok phnum e'' =>
    rw [hcall] at hchk
    obtain ⟨-, rfl, hnum⟩ := hchk
    have hnum := hnum (by rw [hphdr]; rfl)
    simp only
    split
    · exact hs'
    · next hin =>
      have hec : e''.elfClass.getD .elfclass64 = ec := by
        rw [hs'.class_eq]
        rfl
      have hent := fun hfit => hhas hfit (by omega) (by omega)
      rw [hec]
      generalize ndx.toNat = i at hent ⊢
      cases ps with
      | mapped off cnt =>
        have hread := @Session.mapRead env ec e₀ e'' n hs' hn' (e''.startOffset + off + i * phdrSize ec) (phdrSize ec)
        simp only
        by_cases hfit : PhdrFits env ec e ndx
        · refine ensures_bind (ensures_mono (hread fun _ => ?_) (fun _ _ h => h.1.1) (fun _ h => h.1)
            fun f h him _ => h him) fun _ _ h => h
          have hent' : off + (i + 1) * phdrSize ec ≤ e₀.maximumSize := hent hfit
          rw [Nat.add_mul] at hent'
          rw [hs'.startOffset]
          omega
        · cases hcall' : e''.mapRead (e''.startOffset + off + i * phdrSize ec) (phdrSize ec) with
          | ok bs t =>
            obtain rfl := Elf.mapRead_ok hcall'
            exact hs'
          | err c t => exact absurd hcall' Elf.mapRead_ne_err
          | stop f => exact fun _ hf => absurd hf hfit
      | copied ps =>
        simp only
        cases hget : ps[i]? with
        | some ph => exact hs'
        | none =>
          intro _ hfit
          have hent' : i < ps.length := hent hfit
          rw [List.getElem?_eq_getElem hent'] at hget
          cases hget

end Session

/-! ## The section name string table -/

namespace Session

variable {env : Env} {ec : ElfClass} {e₀ e : Elf} {n : Nat}

/-- `sh_link` of section header 0, which is in the range of the object where there are sections. -/
theorem shLink0 (hs : Session env ec e₀ e) (hn : e.sections.length = n) (hpos : 0 < n)
    (htable : ec.get (e₀.hdr env ec).eShoff + n * shdrSize ec ≤ e₀.maximumSize) :
    Keeps env ec e₀ n (Elfutils.shLink0 env ec e) fun _ _ => True := by
  have hone : shdrSize ec ≤ n * shdrSize ec := Nat.le_mul_of_pos_left _ hpos
  have hlink : shLinkOff ec + 4 ≤ shdrSize ec := by cases ec <;> decide
  refine Keeps.bind (hs.header hn .shoff) ?_
  rintro h e' - - ⟨rfl, rfl⟩
  extract_lets off
  refine Keeps.bind (hs.foreign hn) ?_
  rintro swap e' - - ⟨rfl, rfl⟩
  split
  · split
    · exact Keeps.err hs hn
    · refine Keeps.bind (hs.mapRead hn fun _ => ?_) ?_
      · rw [hs.startOffset]
        have hoff : off + n * shdrSize ec ≤ e₀.maximumSize := htable
        omega
      · rintro bs e' - - ⟨rfl, -⟩
        exact Keeps.ok hs hn trivial
  · exact hs.pread hn fun bs _ => Keeps.ok hs hn trivial

theorem getshdrstrndx (hs : Session env ec e₀ e) (hn : e.sections.length = n) :
    Keeps env ec e₀ n (elfGetshdrstrndx env e) fun _ _ => True := by
  obtain ⟨hdr, hhdr⟩ := Option.isSome_iff_exists.mp hs.ehdr
  obtain ⟨b, hb, hused, hle, hcnt⟩ := hs.block
  rw [elfGetshdrstrndx, if_neg (not_not.mpr hs.blocks.elf), hs.ehdr_eq, hs.class_eq, hhdr]
  refine Keeps.bind (hs.header hn .shstrndx) ?_
  rintro h e' - - ⟨rfl, rfl⟩
  extract_lets num
  split
  · exact Keeps.ok hs hn trivial
  · rw [hb, List.head?_cons]
    simp only
    split
    · exact Keeps.err hs hn
    · have hget : e'.sections[0]? = b.data[0]? := by rw [hused, Block.getElem?_used (by omega)]
      cases h0 : b.data[0]? with
      | none =>
        have hlen := List.getElem?_eq_none_iff.mp h0
        have : b.cnt ≤ b.data.length := hle
        omega
      | some s =>
        simp only
        cases hshdr : s.shdr with
        | some h => exact Keeps.ok hs hn trivial
        | none =>
          have htable := hs.table ⟨s, List.mem_of_getElem? (hget.trans h0), hshdr⟩
          exact hs.shLink0 hn (by omega) (hn ▸ htable)

end Session

end LibElf.Elfutils
