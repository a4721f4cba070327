import LibElf.Elfutils.SectionFrame
import LibElf.Elfutils.SectionRoundTrip
import LibElf.Elfutils.StrPtr

/-!
# Adding data to a section

`elf_newdata.c` next to `elf_getdata.c` and `elf_rawdata.c`: the data that an application adds go behind what the section
has in the file. The first block is a part of the section, and is the data of the file for a section of the file and
the first that was added for a section that was made.

1. `DataCall` and `Called`, the calls on one section, of which every one succeeds; `added`, what they add.
2. `FileKept` and `NewKept`, what is to hold of the list after such calls; `walk`, an application that goes from block to
   block.
3. `FileRead`, the invariant of a section of the file, and `NewList`, that of a section that was made.
4. `data_kept_iff`: a section of the file keeps its contents. So does a section that was made, when the first call adds
   data: asked before, `elf_getdata` gives it an empty block, and what is added comes after it.
-/

namespace LibElf.Elfutils

open Outcome
open Toolchain (ElfClass Ehdr Shdr)

/-! ## Calls on a section -/

/-- A call on one section. The application sets the members of a new block. -/
inductive DataCall
  | newdata (d : Data)
  | getdata (data : Option Nat)
  | rawdata (data : Option Nat)

def Buffered.fill (t : Buffered) (p : ScnHandle) (k : Nat) (d : Data) : Buffered :=
  { t with elf := t.elf.setScn p fun s => { s with dataList := s.dataList.set k d } }

section Calls

variable (env : Env) (p : ScnHandle)

def DataCall.Leads : DataCall → Buffered → Buffered → Prop
  | .newdata d, t, t' => ∃ k t₁, elfNewdata env p t = .ok k t₁ ∧ t' = t₁.fill p k d
  | .getdata data, t, t' => ∃ r e, elfGetdata env p data t.elf = .ok r e ∧ t' = t.after p e
  | .rawdata data, t, t' => ∃ r e, elfRawdata env p data t.elf = .ok r e ∧ t' = t.after p e

/-- After calls on the section that all succeed. -/
inductive Called (t₀ : Buffered) : List DataCall → Buffered → Prop
  | start : Called t₀ [] t₀
  | call {ops : List DataCall} {op : DataCall} {t t' : Buffered} :
    Called t₀ ops t → op.Leads env p t t' → Called t₀ (ops ++ [op]) t'

def DataCall.adds : DataCall → Option Data
  | .newdata d => some d
  | _ => none

def added (ops : List DataCall) : List Data := ops.filterMap DataCall.adds

/-- The first call adds data. -/
def AddsFirst (ops : List DataCall) : Prop := ∃ d rest, ops = .newdata d :: rest

/-- Go from the block at `k` to those behind it: the blocks that are met. -/
def walkFrom : Nat → Nat → Elf → Call (List Data)
  | 0, _, _ => .stop .divergence
  | fuel + 1, k, e =>
    (elfGetdata env p (some k) e).bind fun r e =>
    match r with
    | none => .ok [] e
    | some d => (walkFrom fuel (k + 1) e).bind fun ds => .ok (d :: ds)

/-- Go from block to block, from a null pointer on: the blocks that are met. -/
def walk (fuel : Nat) (e : Elf) : Call (List Data) :=
  (elfGetdata env p none e).bind fun r e =>
  match r with
  | none => .ok [] e
  | some d => (walkFrom env p fuel 0 e).bind fun ds => .ok (d :: ds)

/-! ## What is to hold -/

def contents (ds : List Data) : List UInt8 := ds.flatMap fun d => (d.dBuf.getD []).take d.dSize

/-- The section is one of the file, its header is `h`, and nothing was read of it. -/
structure FileScn (h : Shdr) (t : Buffered) : Prop where
  unread : ∃ s, Chain.entry t.elf.scns p = some s ∧ s.Unread
  header : ∃ e, getShdr env p t.elf = .ok h e
  bits : h.shType ≠ shtNobits

/-- The section is as `elf_newscn` leaves it. -/
structure NewScn (t : Buffered) : Prop where
  entry : ∃ s, Chain.entry t.elf.scns p = some s ∧ s.dataRead = true ∧ s.filedata = false ∧ s.rawdata = none ∧
    s.dataList = []
  base : (t.bufs p).rawdataBase = none

/-- The bytes in memory of a section with this header. -/
def MemoryForm (e : Elf) (h : Shdr) (m : List UInt8) : Prop :=
  if HasBytes e h then
    ∃ e', convertData env (e.elfClass.getD .elfclass64) (sectionType env e h) (fileBytes env e h) e = .ok m e'
  else m = []

/-- Blocks that hold what the file has, and behind them what was added. -/
def FileThen (e₀ : Elf) (h : Shdr) (ds list : List Data) : Prop :=
  ∃ first, list = first ++ ds ∧ MemoryForm env e₀ h (contents first)

/-- A section of the file keeps its contents where `ds` was added. -/
structure FileKept (h : Shdr) (e₀ : Elf) (ds : List Data) (t : Buffered) : Prop where
  list : ∀ s, Chain.entry t.elf.scns p = some s → s.dataList ≠ [] ∨ ds ≠ [] → FileThen env e₀ h ds s.dataList
  walk : ∀ r e, elfGetdata env p none t.elf = .ok r e → ∃ s fuel, Chain.entry e.scns p = some s ∧
    FileThen env e₀ h ds s.dataList ∧ walk env p fuel t.elf = .ok s.dataList e
  raw : ∀ data r e, elfRawdata env p data t.elf = .ok r e → r.dBuf.getD [] = fileBytes env e₀ h
  there : ds ≠ [] →
    (∃ r, elfGetdata env p none t.elf = .ok r t.elf) ∧ ∃ r, elfRawdata env p none t.elf = .ok r t.elf

/-- A section that was made has what was added, and no raw data. -/
structure NewKept (ds : List Data) (t : Buffered) : Prop where
  list : ∀ s, Chain.entry t.elf.scns p = some s → s.dataList = ds
  walk : ∃ fuel e, walk env p fuel t.elf = .ok ds e
  raw : ∀ data r e, elfRawdata env p data t.elf ≠ .ok r e

end Calls

section

variable {env : Env} {p : ScnHandle} {h : Shdr} {e₀ e e' : Elf} {t₀ t t' : Buffered} {ops : List DataCall}
  {op : DataCall} {d : Data} {ds : List Data} {s : Scn}

theorem added_append : added (ops ++ [op]) = added ops ++ op.adds.toList := by
  rw [added, List.filterMap_append]
  cases hop : op.adds <;> simp [added, hop]

/-! ## Walking -/

theorem walkFrom_eq {fuel k : Nat} (hk : e.kind = .elf) (hs : Chain.entry e.scns p = some s)
    (hlt : k < s.dataList.length) (hfuel : s.dataList.length ≤ k + fuel) :
    walkFrom env p fuel k e = .ok (s.dataList.drop (k + 1)) e := by
  induction fuel generalizing k with
  | zero => omega
  | succ fuel ih =>
    rw [walkFrom, elfGetdata_next hk hs hlt, bind_ok]
    cases hnext : s.dataList[k + 1]? with
    | none => rw [List.drop_eq_nil_of_le (List.getElem?_eq_none_iff.mp hnext)]
    | some d =>
      have hlt' : k + 1 < s.dataList.length := (List.getElem?_eq_some_iff.mp hnext).1
      simp only
      have hd : s.dataList[k + 1] = d := Option.some.inj ((List.getElem?_eq_getElem hlt').symm.trans hnext)
      rw [ih hlt' (by omega), bind_ok, List.drop_eq_getElem_cons hlt', hd]

/-- A walk that starts meets every block of the list, once, and ends. -/
theorem walk_eq {r : Option Data} (hget : elfGetdata env p none e = .ok r e') (hk : e'.kind = .elf)
    (hs : Chain.entry e'.scns p = some s) (hr : r = s.dataList.head?) :
    walk env p s.dataList.length e = .ok s.dataList e' := by
  rw [walk, hget, bind_ok, hr]
  cases hlist : s.dataList with
  | nil => rfl
  | cons d rest =>
    simp only [List.head?_cons]
    have hlt : 0 < s.dataList.length := by simp [hlist]
    rw [← hlist, walkFrom_eq hk hs hlt (by omega), bind_ok, hlist]
    rfl

/-! ## The buffers -/

theorem elf_after : (t.after p e).elf = e := by
  unfold Buffered.after
  extract_lets t'
  split <;> rfl

/-- Where nothing new was read the buffers stay. -/
theorem after_self : t.after p t.elf = t := by
  rw [Buffered.after]
  exact if_neg fun hh => by simp [hh.1] at hh

theorem isRead_eq (hs : Chain.entry e.scns p = some s) : Buffered.isRead e p = s.dataRead := by
  rw [Buffered.isRead, hs]
  rfl

/-! ## The data of the file -/

/-- The list of a section whose raw data are `r`. -/
def Listed (env : Env) (e₀ : Elf) (r : Data) (ds list : List Data) : Prop :=
  list = [] ∧ ds = [] ∨
    list ≠ [] ∧ ∃ first, list = first ++ ds ∧ ((∃ d, first = [d] ∧ BlockOf env e₀ r d) ∨ first = [] ∧ r.dBuf = none)

/-- The raw data of a section of the file were read. -/
def FileRead (env : Env) (p : ScnHandle) (h : Shdr) (e₀ : Elf) (ds : List Data) (e : Elf) : Prop :=
  SameBut e₀ e ∧ ∃ s r, Chain.entry e.scns p = some s ∧ s.dataRead = true ∧ s.filedata = true ∧
    s.rawdata = some r ∧ IsRaw env e₀ h r ∧ Listed env e₀ r ds s.dataList

theorem FileRead.isRead (hf : FileRead env p h e₀ ds e) : Buffered.isRead e p = true := by
  obtain ⟨-, s, r, hs, hread, -⟩ := hf
  rw [isRead_eq hs, hread]

theorem fileRead_setRawdata (h₀ : FileScn env p h t₀) (hset : setRawdata env p t₀.elf = .ok () e) :
    FileRead env p h t₀.elf [] e ∧ ∃ s, Chain.entry e.scns p = some s ∧ s.dataList = [] := by
  obtain ⟨h', e₁, s₀, r, s', hh', hs₀, hr, hsame, hs', hcore⟩ := setRawdata_frame hset
  obtain ⟨e₂, hh⟩ := h₀.header
  obtain ⟨rfl, -⟩ := Outcome.ok.inj (hh.symm.trans hh')
  obtain ⟨s, hs, hun⟩ := h₀.unread
  obtain rfl := Option.some.inj (hs.symm.trans hs₀)
  have hnil : s'.dataList = [] := (congrArg Scn.dataList hcore).trans hun.2.2
  exact ⟨⟨hsame, s', r, hs', congrArg Scn.dataRead hcore, congrArg Scn.filedata hcore, congrArg Scn.rawdata hcore, hr,
    .inl ⟨hnil, rfl⟩⟩, s', hs', hnil⟩

theorem fileRead_setDataList (hf : FileRead env p h e₀ ds e) (hs : Chain.entry e.scns p = some s) (hnil : s.dataList = [])
    (hset : setDataList env p e = .ok () e') :
    FileRead env p h e₀ ds e' ∧ ∀ s', Chain.entry e'.scns p = some s' → s'.dataList ≠ [] := by
  obtain ⟨hsame, s₀, r, hs₀, hread, hfile, hraw, hr, hlist⟩ := hf
  obtain rfl := Option.some.inj (hs.symm.trans hs₀)
  obtain ⟨hsame', d, s', hs', hcore, hd⟩ := setDataList_frame hset hs
  have hds : ds = [] := hlist.elim And.right fun h => absurd hnil h.1
  rw [hraw, Option.getD_some] at hd
  have hblock : BlockOf env e₀ r d := by
    rcases hd with ⟨hz, rfl⟩ | hd
    · -- raw data without bytes are the block themselves
      have hnone : ¬ HasBytes e₀ h := fun hh => hh.1 (hr.size ▸ hz)
      unfold BlockOf
      rw [hr.buf, if_neg hnone]
    · exact hsame.blockOf hd
  have hdata : s'.dataList = [d] := congrArg Scn.dataList hcore
  refine ⟨⟨hsame.trans hsame', s', r, hs', (congrArg Scn.dataRead hcore).trans hread,
    (congrArg Scn.filedata hcore).trans hfile, (congrArg Scn.rawdata hcore).trans hraw, hr,
    .inr ⟨by rw [hdata]; simp, [d], by rw [hdata, hds]; rfl, .inl ⟨d, rfl, hblock⟩⟩⟩, fun s'' hs'' => ?_⟩
  obtain rfl := Option.some.inj (hs'.symm.trans hs'')
  rw [hdata]
  simp

theorem FileRead.rawBuf (hf : FileRead env p h e₀ ds e) (hhas : HasBytes e₀ h) :
    Buffered.rawBuf e p = some (fileBytes env e₀ h) := by
  obtain ⟨-, s, r, hs, -, -, hraw, hr, -⟩ := hf
  rw [Buffered.rawBuf, hs, Option.bind_some, hraw, Option.bind_some, hr.buf, if_pos hhas]

/-- `rawdata_base` is set where the file has bytes. -/
def Based (e₀ : Elf) (p : ScnHandle) (h : Shdr) (t : Buffered) : Prop :=
  HasBytes e₀ h → (t.bufs p).rawdataBase.isSome

theorem FileRead.based (hf : FileRead env p h e₀ ds e) (hold : Buffered.isRead t.elf p = false ∨ Based e₀ p h t) :
    Based e₀ p h (t.after p e) := by
  intro hhas
  unfold Buffered.after
  extract_lets t'
  split
  · show (Function.update t'.bufs p _ p).rawdataBase.isSome
    rw [Function.update_self, hf.rawBuf hhas]
    rfl
  · next hnot =>
    rcases hold with hold | hold
    · exact absurd ⟨hold, hf.isRead⟩ hnot
    · exact hold hhas

/-- One more block at the end. -/
theorem Listed.append {r : Data} {list : List Data} (hl : Listed env e₀ r ds list) (hbuf : list = [] → r.dBuf = none) :
    Listed env e₀ r (ds ++ [d]) (list ++ [d]) := by
  right
  refine ⟨by simp, ?_⟩
  rcases hl with ⟨rfl, rfl⟩ | ⟨-, first, rfl, hfirst⟩
  · exact ⟨[], rfl, .inr ⟨rfl, hbuf rfl⟩⟩
  · exact ⟨first, List.append_assoc .., hfirst⟩

theorem Listed.fileThen {r : Data} {list : List Data} (hr : IsRaw env e₀ h r)
    (hl : Listed env e₀ r ds list) (hne : list ≠ [] ∨ ds ≠ []) : FileThen env e₀ h ds list := by
  rcases hl with ⟨rfl, rfl⟩ | ⟨-, first, rfl, hfirst⟩
  · simp at hne
  · refine ⟨first, rfl, ?_⟩
    unfold MemoryForm
    split
    · next hhas =>
      have hbuf : r.dBuf = some (fileBytes env e₀ h) := by rw [hr.buf, if_pos hhas]
      rcases hfirst with ⟨d, rfl, hd⟩ | ⟨-, hnone⟩
      · unfold BlockOf at hd
        rw [hbuf] at hd
        obtain ⟨bs, e', hconv, rfl⟩ := hd
        refine ⟨e', ?_⟩
        have hlen := (convertData_ok hconv).2
        rw [hr.length hhas] at hlen
        rw [← hr.type, hconv, contents, List.flatMap_singleton, Option.getD_some, List.take_of_length_le hlen.le]
      · rw [hbuf] at hnone
        cases hnone
    · next hhas =>
      have hbuf : r.dBuf = none := by rw [hr.buf, if_neg hhas]
      rcases hfirst with ⟨d, rfl, hd⟩ | ⟨rfl, -⟩
      · unfold BlockOf at hd
        rw [hbuf] at hd
        obtain rfl := hd
        rw [contents, List.flatMap_singleton, hbuf]
        exact List.take_nil
      · rfl

theorem IsRaw.bytes {r : Data} (hr : IsRaw env e₀ h r) (hbits : h.shType ≠ shtNobits) :
    r.dBuf.getD [] = fileBytes env e₀ h := by
  rw [hr.buf]
  by_cases hhas : HasBytes e₀ h
  · rw [if_pos hhas]
    rfl
  · have hz : (e₀.elfClass.getD .elfclass64).get h.shSize = 0 := by
      by_contra hz
      exact hhas ⟨hz, hbits⟩
    rw [if_neg hhas, fileBytes, hz, objectBytes]
    cases e₀.mapAddress with
    | none => exact (window_zero _ _).symm
    | some image => exact (window_zero _ _).symm

/-! ## Sections of the file -/

/-- A section of the file after calls that added `ds`: nothing was called, or the raw data were read. -/
def FileAt (env : Env) (p : ScnHandle) (h : Shdr) (e₀ : Elf) (ds : List Data) (e : Elf) : Prop :=
  e = e₀ ∧ ds = [] ∨ FileRead env p h e₀ ds e

theorem FileAt.read {e₁ : Elf} (h₀ : FileScn env p h t₀) (hf : FileAt env p h t₀.elf ds e)
    (hs : Chain.entry e.scns p = some s)
    (hread : s.dataRead = true ∧ e₁ = e ∨ s.dataRead = false ∧ setRawdata env p e = .ok () e₁) :
    FileRead env p h t₀.elf ds e₁ := by
  rcases hf with ⟨rfl, rfl⟩ | hf
  · obtain ⟨s₀, hs₀, hun⟩ := h₀.unread
    obtain rfl := Option.some.inj (hs.symm.trans hs₀)
    rcases hread with ⟨hr, -⟩ | ⟨-, hset⟩
    · rw [hun.2.1] at hr
      cases hr
    · exact (fileRead_setRawdata h₀ hset).1
  · rcases hread with ⟨-, rfl⟩ | ⟨hr, -⟩
    · exact hf
    · have hread := hf.isRead
      rw [isRead_eq hs, hr] at hread
      cases hread

theorem FileAt.getdata {r : Option Data} (h₀ : FileScn env p h t₀) (hf : FileAt env p h t₀.elf ds e)
    (hget : elfGetdata env p none e = .ok r e') :
    FileRead env p h t₀.elf ds e' ∧
      ∃ s, Chain.entry e'.scns p = some s ∧ s.dataList ≠ [] ∧ r = s.dataList.head? := by
  obtain ⟨s, e₁, s₁, s', hs, hread, hs₁, hlist, hs', hr⟩ := elfGetdata_none_ok hget
  have hf₁ := hf.read h₀ hs hread
  rcases hlist with ⟨hne, rfl⟩ | ⟨hnil, hset⟩
  · obtain rfl := Option.some.inj (hs₁.symm.trans hs')
    exact ⟨hf₁, s₁, hs₁, hne, hr⟩
  · obtain ⟨hf', hne⟩ := fileRead_setDataList hf₁ hs₁ hnil hset
    exact ⟨hf', s', hs', hne s' hs', hr⟩

theorem FileAt.rawdata {data : Option Nat} {r : Data} (h₀ : FileScn env p h t₀) (hf : FileAt env p h t₀.elf ds e)
    (hget : elfRawdata env p data e = .ok r e') :
    FileRead env p h t₀.elf ds e' ∧ r.dBuf.getD [] = fileBytes env t₀.elf h := by
  obtain ⟨s, s', hs, -, hread, hs', rfl⟩ := elfRawdata_ok hget
  have hf' := hf.read h₀ hs hread
  obtain ⟨-, s₁, r, hs₁, -, -, hraw, hr, -⟩ := id hf'
  obtain rfl := Option.some.inj (hs'.symm.trans hs₁)
  rw [hraw, Option.getD_some]
  exact ⟨hf', hr.bytes h₀.bits⟩

/-- The way of a new block into the list. -/
theorem elfNewdata_ok {k : Nat} {t₁ : Buffered} (hnew : elfNewdata env p t = .ok k t₁) :
    ∃ s t₂, Chain.entry t.elf.scns p = some s ∧ newdataList env p s t = .ok () t₂ ∧
      SameBut t₂.elf (t₁.fill p k d).elf ∧ (t₁.fill p k d).bufs = t₂.bufs ∧
      ∀ s₂, Chain.entry t₂.elf.scns p = some s₂ →
        Chain.entry (t₁.fill p k d).elf.scns p = some { s₂ with dataList := s₂.dataList ++ [d] } := by
  unfold elfNewdata at hnew
  split at hnew
  · cases hnew
  · next s hs =>
    split at hnew
    · cases hnew
    · split at hnew
      · cases hnew
      · obtain ⟨u, t₂, hlist, hlast⟩ := bind_eq_ok.mp hnew
        extract_lets len at hlast
        obtain ⟨rfl, rfl⟩ := Outcome.ok.inj hlast
        refine ⟨s, t₂, hs, hlist, rfl, rfl, fun s₂ hs₂ => ?_⟩
        have hlen : len = s₂.dataList.length := by
          show ((Chain.entry t₂.elf.scns p).map fun s => s.dataList.length).getD 0 = _
          rw [hs₂]
          rfl
        rw [Buffered.fill, entry_setScn]
        simp only
        rw [entry_setScn, hs₂, Option.map_some, Option.map_some, hlen, List.set_append_right _ _ (Nat.le_refl _),
          Nat.sub_self]
        rfl

/-- The blocks in front of a new one. -/
theorem FileAt.newdataList {t₂ : Buffered} (h₀ : FileScn env p h t₀)
    (hf : t = t₀ ∧ ds = [] ∨ FileRead env p h t₀.elf ds t.elf ∧ Based t₀.elf p h t)
    (hs : Chain.entry t.elf.scns p = some s) (hlist : Elfutils.newdataList env p s t = .ok () t₂) :
    FileRead env p h t₀.elf ds t₂.elf ∧ Based t₀.elf p h t₂ ∧
      ∀ s₂, Chain.entry t₂.elf.scns p = some s₂ → s₂.dataList = [] → ¬ HasBytes t₀.elf h := by
  unfold Elfutils.newdataList at hlist
  rcases hf with ⟨rfl, rfl⟩ | ⟨hf, hbased⟩
  · obtain ⟨s₀, hs₀, hun⟩ := h₀.unread
    obtain rfl := Option.some.inj (hs.symm.trans hs₀)
    rw [if_pos hun.2.1] at hlist
    obtain ⟨e₂, hboth, rfl⟩ := within_eq_ok.mp hlist
    obtain ⟨u, e₁, hset, hset'⟩ := bind_eq_ok.mp hboth
    obtain ⟨hf₁, s₁, hs₁, hnil⟩ := fileRead_setRawdata h₀ hset
    obtain ⟨hf₂, hne⟩ := fileRead_setDataList hf₁ hs₁ hnil hset'
    refine ⟨by rw [elf_after]; exact hf₂, hf₂.based (.inl (by rw [isRead_eq hs, hun.2.1])), fun s₂ hs₂ hnil₂ => ?_⟩
    rw [elf_after] at hs₂
    exact absurd hnil₂ (hne s₂ hs₂)
  · have hread := hf.isRead
    rw [isRead_eq hs] at hread
    rw [if_neg (by simp [hread])] at hlist
    split at hlist
    · next hbase =>
      obtain ⟨e₂, hset, rfl⟩ := within_eq_ok.mp hlist
      obtain ⟨hf₂, hne⟩ := fileRead_setDataList hf hs hbase.2 hset
      exact ⟨hf₂, hbased, fun s₂ hs₂ hnil => absurd hnil (hne s₂ hs₂)⟩
    · next hbase =>
      cases hlist
      refine ⟨hf, hbased, fun s₂ hs₂ hnil hhas => ?_⟩
      obtain rfl := Option.some.inj (hs.symm.trans hs₂)
      exact hbase ⟨hbased hhas, hnil⟩

/-- What calls on a section of the file keep. -/
def FileInv (env : Env) (p : ScnHandle) (h : Shdr) (t₀ : Buffered) (ds : List Data) (t : Buffered) : Prop :=
  t = t₀ ∧ ds = [] ∨ FileRead env p h t₀.elf ds t.elf ∧ Based t₀.elf p h t

theorem FileInv.fileAt (hf : FileInv env p h t₀ ds t) : FileAt env p h t₀.elf ds t.elf := by
  rcases hf with ⟨rfl, rfl⟩ | ⟨hf, -⟩
  · exact .inl ⟨rfl, rfl⟩
  · exact .inr hf

/-- Every call that succeeds keeps the invariant. -/
theorem fileInv_call (h₀ : FileScn env p h t₀) (hf : FileInv env p h t₀ ds t) (hop : op.Leads env p t t') :
    FileInv env p h t₀ (ds ++ op.adds.toList) t' := by
  have hold : Buffered.isRead t.elf p = false ∨ Based t₀.elf p h t := by
    rcases hf with ⟨rfl, -⟩ | ⟨-, hbased⟩
    · obtain ⟨s, hs, hun⟩ := h₀.unread
      exact .inl (by rw [isRead_eq hs, hun.2.1])
    · exact .inr hbased
  have hread : ∀ {e}, FileRead env p h t₀.elf ds e → FileInv env p h t₀ (ds ++ []) (t.after p e) := by
    intro e he
    rw [List.append_nil]
    exact .inr ⟨by rw [elf_after]; exact he, he.based hold⟩
  cases op with
  | newdata d =>
    obtain ⟨k, t₁, hnew, rfl⟩ := hop
    obtain ⟨s, t₂, hs, hlist, hsame, hbufs, hentry⟩ := elfNewdata_ok (d := d) hnew
    obtain ⟨hf₂, hbased, hempty⟩ := FileAt.newdataList h₀ hf hs hlist
    obtain ⟨hsame₂, s₂, r, hs₂, hread₂, hfile, hraw, hr, hl⟩ := hf₂
    right
    refine ⟨⟨hsame₂.trans hsame, _, r, hentry s₂ hs₂, hread₂, hfile, hraw, hr, hl.append fun hnil => ?_⟩,
      fun hhas => ?_⟩
    · rw [hr.buf, if_neg (hempty s₂ hs₂ hnil)]
    · rw [hbufs]
      exact hbased hhas
  | getdata data =>
    obtain ⟨r, e, hget, rfl⟩ := hop
    cases data with
    | none => exact hread (hf.fileAt.getdata h₀ hget).1
    | some k =>
      obtain ⟨rfl, -⟩ := elfGetdata_some_ok hget
      rw [after_self]
      simpa [DataCall.adds] using hf
  | rawdata data =>
    obtain ⟨r, e, hget, rfl⟩ := hop
    exact hread (hf.fileAt.rawdata h₀ hget).1

theorem fileInv_run (h₀ : FileScn env p h t₀) (hrun : Called env p t₀ ops t) : FileInv env p h t₀ (added ops) t := by
  induction hrun with
  | start => exact .inl ⟨rfl, rfl⟩
  | call _ hop ih =>
    rw [added_append]
    exact fileInv_call h₀ ih hop

/-- A section of the file keeps its contents in every run. -/
theorem fileKept_run (hk : t₀.elf.kind = .elf) (h₀ : FileScn env p h t₀) (hrun : Called env p t₀ ops t) :
    FileKept env p h t₀.elf (added ops) t := by
  have hf := fileInv_run h₀ hrun
  have hthen : ∀ {e s}, FileRead env p h t₀.elf (added ops) e → Chain.entry e.scns p = some s →
      s.dataList ≠ [] ∨ added ops ≠ [] → FileThen env t₀.elf h (added ops) s.dataList := by
    rintro e s ⟨-, s', r, hs', -, -, -, hr, hl⟩ hs hne
    obtain rfl := Option.some.inj (hs.symm.trans hs')
    exact hl.fileThen hr hne
  refine ⟨fun s hs hne => ?_, fun r e hget => ?_, fun data r e hget => (hf.fileAt.rawdata h₀ hget).2, fun hne => ?_⟩
  · rcases hf with ⟨rfl, hnil⟩ | ⟨hf, -⟩
    · obtain ⟨s₀, hs₀, hun⟩ := h₀.unread
      obtain rfl := Option.some.inj (hs.symm.trans hs₀)
      exact hne.elim (fun h => absurd hun.2.2 h) fun h => absurd hnil h
    · exact hthen hf hs hne
  · obtain ⟨hf', s, hs, hne, hr⟩ := hf.fileAt.getdata h₀ hget
    exact ⟨s, s.dataList.length, hs, hthen hf' hs (.inl hne),
      walk_eq hget (hf'.1.kind.trans hk) hs hr⟩
  · rcases hf with ⟨-, hnil⟩ | ⟨⟨hsame, s, r, hs, hread, hfile, -, -, hl⟩, -⟩
    · exact absurd hnil hne
    · have hlist : s.dataList ≠ [] := hl.elim (fun h => absurd h.2 hne) And.left
      have hk' := hsame.kind.trans hk
      exact ⟨⟨_, elfGetdata_head hk' hs hread hlist⟩, _, elfRawdata_head hk' hs hread hfile⟩

/-! ## Sections that were made -/

theorem addsFirst_append (hne : ops ≠ []) : AddsFirst (ops ++ [op]) ↔ AddsFirst ops := by
  cases ops with
  | nil => exact absurd rfl hne
  | cons o rest =>
    constructor
    · rintro ⟨d, rest', heq⟩
      exact ⟨d, rest, by rw [(List.cons.inj heq).1]⟩
    · rintro ⟨d, rest', heq⟩
      exact ⟨d, rest ++ [op], by rw [(List.cons.inj heq).1]; rfl⟩

theorem added_ne_nil (hadds : AddsFirst ops) : added ops ≠ [] := by
  obtain ⟨d, rest, rfl⟩ := hadds
  exact List.cons_ne_nil _ _

/-- A section that was made, after calls: in front of what was added is nothing, or the empty block that
`elf_getdata` made as the first call. -/
def NewList (p : ScnHandle) (t₀ : Buffered) (ops : List DataCall) (t : Buffered) : Prop :=
  SameBut t₀.elf t.elf ∧ (t.bufs p).rawdataBase = none ∧ ∃ s first, Chain.entry t.elf.scns p = some s ∧
    s.dataRead = true ∧ s.filedata = false ∧ s.rawdata = none ∧ s.dataList = first ++ added ops ∧
      (first = [] ∧ (ops = [] ∨ AddsFirst ops) ∨ first = [Data.zero] ∧ ops ≠ [] ∧ ¬ AddsFirst ops)

/-- Where the list is not empty there was a call, and the next one makes no difference to what is in front. -/
theorem NewList.later (hl : NewList p t₀ ops t) (hs : Chain.entry t.elf.scns p = some s) (hne : s.dataList ≠ [])
    (hop : op.adds = none) : NewList p t₀ (ops ++ [op]) t := by
  obtain ⟨hsame, hbase, s₁, first, hs₁, hread, hfile, hraw, hlist, hfirst⟩ := hl
  obtain rfl := Option.some.inj (hs.symm.trans hs₁)
  have hops : ops ≠ [] := by
    rintro rfl
    rcases hfirst with ⟨rfl, -⟩ | ⟨-, hnil, -⟩
    · exact hne hlist
    · exact hnil rfl
  refine ⟨hsame, hbase, s, first, hs, hread, hfile, hraw, ?_, ?_⟩
  · rw [added_append, hop, hlist]
    exact congrArg (first ++ ·) (List.append_nil _).symm
  · rw [addsFirst_append hops]
    exact hfirst.imp (fun h => ⟨h.1, h.2.imp (absurd · hops) id⟩) fun h => ⟨h.1, by simp, h.2.2⟩

/-- Every call that succeeds keeps the invariant. -/
theorem newList_call (hl : NewList p t₀ ops t) (hop : op.Leads env p t t') : NewList p t₀ (ops ++ [op]) t' := by
  obtain ⟨hsame, hbase, s, first, hs, hread, hfile, hraw, hlist, hfirst⟩ := id hl
  cases op with
  | newdata d =>
    obtain ⟨k, t₁, hnew, rfl⟩ := hop
    obtain ⟨s₀, t₂, hs₀, hset, hsame', hbufs, hentry⟩ := elfNewdata_ok (d := d) hnew
    obtain rfl := Option.some.inj (hs.symm.trans hs₀)
    rw [newdataList, if_neg (by simp [hread]), if_neg (by simp [hbase])] at hset
    cases hset
    refine ⟨hsame.trans hsame', by rw [hbufs, hbase], _, first, hentry s hs, hread, hfile, hraw, ?_, ?_⟩
    · rw [added_append, ← List.append_assoc, ← hlist]
      rfl
    · rcases hfirst with ⟨hnil, rfl | hadds⟩ | ⟨hzero, hne, hadds⟩
      · exact .inl ⟨hnil, .inr ⟨d, [], rfl⟩⟩
      · obtain ⟨d', rest, rfl⟩ := hadds
        exact .inl ⟨hnil, .inr ⟨d', rest ++ [.newdata d], rfl⟩⟩
      · exact .inr ⟨hzero, by simp, by rwa [addsFirst_append hne]⟩
  | getdata data =>
    obtain ⟨r, e, hget, rfl⟩ := hop
    cases data with
    | some k =>
      obtain ⟨rfl, s₀, hs₀, hlt⟩ := elfGetdata_some_ok hget
      rw [after_self]
      exact hl.later hs₀ (List.ne_nil_of_length_pos (Nat.zero_lt_of_lt hlt)) rfl
    | none =>
      obtain ⟨s₀, e₁, s₁, s', hs₀, hway, hs₁, hblocks, hs', -⟩ := elfGetdata_none_ok hget
      obtain rfl := Option.some.inj (hs.symm.trans hs₀)
      have he₁ : e₁ = t.elf := hway.elim And.right fun h => by simp [hread] at h
      subst he₁
      obtain rfl := Option.some.inj (hs.symm.trans hs₁)
      rcases hblocks with ⟨hne, rfl⟩ | ⟨hnil, hset⟩
      · rw [after_self]
        exact hl.later hs hne rfl
      · -- there was no call yet, and the raw data that are not there become a block
        have hops : ops = [] := by
          rw [hnil] at hlist
          have hparts := List.append_eq_nil_iff.mp hlist.symm
          rcases hfirst with ⟨-, hops | hadds⟩ | ⟨hzero, -⟩
          · exact hops
          · exact absurd hparts.2 (added_ne_nil hadds)
          · rw [hzero] at hparts
            exact absurd hparts.1 (List.cons_ne_nil _ _)
        subst hops
        obtain ⟨hsame', d, s'', hs'', hcore, hd⟩ := setDataList_frame hset hs
        rw [hraw] at hd
        have hzero : d = Data.zero := hd.elim And.right fun h => h
        have hafter : t.after p e = { t with elf := e } := by
          rw [Buffered.after]
          exact if_neg fun h => by simp [isRead_eq hs, hread] at h
        rw [hafter]
        refine ⟨hsame.trans hsame', hbase, s'', [Data.zero], hs'', (congrArg Scn.dataRead hcore).trans hread,
          (congrArg Scn.filedata hcore).trans hfile, (congrArg Scn.rawdata hcore).trans hraw, ?_, .inr ⟨rfl, by simp, ?_⟩⟩
        · rw [hzero] at hcore
          exact congrArg Scn.dataList hcore
        · rintro ⟨d', rest, heq⟩
          cases heq
  | rawdata data =>
    obtain ⟨r, e, hget, -⟩ := hop
    obtain ⟨s₀, -, hs₀, hmatch, -⟩ := elfRawdata_ok hget
    obtain rfl := Option.some.inj (hs.symm.trans hs₀)
    exact absurd ⟨hread, hfile⟩ hmatch

theorem newList_run (h₀ : NewScn p t₀) (hrun : Called env p t₀ ops t) : NewList p t₀ ops t := by
  induction hrun with
  | start =>
    obtain ⟨s, hs, hread, hfile, hraw, hnil⟩ := h₀.entry
    exact ⟨.refl _, h₀.base, s, [], hs, hread, hfile, hraw, hnil, .inl ⟨rfl, .inl rfl⟩⟩
  | call _ hop ih => exact newList_call ih hop

/-- A section that was made has exactly what was added when the first call adds data, and otherwise in no state. -/
theorem newKept_iff (hk : t₀.elf.kind = .elf) (h₀ : NewScn p t₀) (hrun : Called env p t₀ ops t) :
    NewKept env p (added ops) t ↔ AddsFirst ops := by
  obtain ⟨hsame, -, s, first, hs, hread, hfile, hraw, hlist, hfirst⟩ := newList_run h₀ hrun
  have hk' := hsame.kind.trans hk
  constructor
  · intro hkept
    rcases hfirst with ⟨rfl, rfl | hadds⟩ | ⟨rfl, -⟩
    · -- a walk meets the block that `elf_getdata` makes
      obtain ⟨fuel, e, hwalk⟩ := hkept.walk
      obtain ⟨r, e', hget, hrest⟩ := bind_eq_ok.mp hwalk
      obtain ⟨-, e₁, s₁, s', -, -, hs₁, hblocks, hs', rfl⟩ := elfGetdata_none_ok hget
      have hne : s'.dataList ≠ [] := by
        rcases hblocks with ⟨hne, rfl⟩ | ⟨-, hset⟩
        · obtain rfl := Option.some.inj (hs₁.symm.trans hs')
          exact hne
        · obtain ⟨-, d, s'', hs'', hcore, -⟩ := setDataList_frame hset hs₁
          obtain rfl := Option.some.inj (hs'.symm.trans hs'')
          have hdata : s'.dataList = [d] := congrArg Scn.dataList hcore
          rw [hdata]
          exact List.cons_ne_nil _ _
      rw [List.head?_eq_some_head hne] at hrest
      obtain ⟨ds, t₁, -, hlast⟩ := bind_eq_ok.mp hrest
      cases (Outcome.ok.inj hlast).1
    · exact hadds
    · have heq := hkept.list s hs
      rw [hlist] at heq
      have := congrArg List.length heq
      simp at this
  · intro hadds
    have hall : s.dataList = added ops := by
      rcases hfirst with ⟨rfl, -⟩ | ⟨-, -, hnot⟩
      · exact hlist
      · exact absurd hadds hnot
    refine ⟨fun s' hs' => ?_, ⟨s.dataList.length, t.elf, ?_⟩, fun data r e hget => ?_⟩
    · obtain rfl := Option.some.inj (hs.symm.trans hs')
      exact hall
    · rw [← hall]
      exact walk_eq (elfGetdata_head hk' hs hread (hall ▸ added_ne_nil hadds)) hk' hs rfl
    · obtain ⟨s₀, -, hs₀, hmatch, -⟩ := elfRawdata_ok hget
      obtain rfl := Option.some.inj (hs.symm.trans hs₀)
      exact hmatch ⟨hread, hfile⟩

/-- Every section that was made can be asked too early. -/
theorem called_early (hk : t₀.elf.kind = .elf) (h₀ : NewScn p t₀) (hs : Chain.entry t₀.elf.scns p = some s)
    (hindex : s.index ≠ 0) (hehdr : t₀.elf.ehdr ≠ none) (d : Data) :
    ∃ t, Called env p t₀ [.getdata none, .newdata d] t := by
  obtain ⟨s₀, hs₀, hread, hfile, hraw, hnil⟩ := h₀.entry
  obtain rfl := Option.some.inj (hs.symm.trans hs₀)
  obtain ⟨e, he⟩ : ∃ e, e = t₀.elf.setScn p fun s => { s with dataList := [Data.zero] } := ⟨_, rfl⟩
  have hs₁ : Chain.entry e.scns p = some { s with dataList := [Data.zero] } := by
    rw [he, entry_setScn, hs]
    rfl
  have hset : setDataList env p t₀.elf = .ok () e := by
    rw [setDataList, scn_of_entry hs, bind_ok, he, hraw]
    rfl
  have hget : elfGetdata env p none t₀.elf = .ok (some Data.zero) e := by
    rw [elfGetdata, if_neg (not_not.mpr hk), scn_of_entry hs, bind_ok]
    simp only
    rw [if_pos hread, bind_ok, scn_of_entry hs, bind_ok, if_pos (List.isEmpty_iff.mpr hnil), hset, bind_ok,
      scn_of_entry hs₁, bind_ok]
    rfl
  have hafter : t₀.after p e = { t₀ with elf := e } := by
    rw [Buffered.after]
    exact if_neg fun h => by simp [isRead_eq hs, hread] at h
  have hfirst : Called env p t₀ [.getdata none] { t₀ with elf := e } :=
    @Called.call _ _ _ [] _ _ _ .start ⟨_, e, hget, hafter.symm⟩
  have hnew : ∃ k t₁, elfNewdata env p { t₀ with elf := e } = .ok k t₁ := by
    have hblocks : newdataList env p { s with dataList := [Data.zero] } { t₀ with elf := e } =
        .ok () { t₀ with elf := e } := by
      rw [newdataList, if_neg (by simp [hread]), if_neg (by simp)]
    have hehdr' : ¬ e.ehdr = none := by
      rw [he]
      exact hehdr
    unfold elfNewdata
    simp only [hs₁, if_neg hindex, if_neg hehdr', hblocks, bind_ok]
    exact ⟨_, _, rfl⟩
  obtain ⟨k, t₁, hnew⟩ := hnew
  exact ⟨_, @Called.call _ _ _ [.getdata none] _ _ _ hfirst ⟨k, t₁, hnew, rfl⟩⟩

/-! ## Both kinds -/

/-- After calls on a section that all succeed: a section of the file keeps its contents, and a section that was made
has exactly the data that were added if and only if the first call adds data. -/
theorem data_kept_iff (hk : t₀.elf.kind = .elf) (hrun : Called env p t₀ ops t) :
    (∀ h, FileScn env p h t₀ → FileKept env p h t₀.elf (added ops) t) ∧
      (NewScn p t₀ → (NewKept env p (added ops) t ↔ AddsFirst ops)) :=
  ⟨fun _ h₀ => fileKept_run hk h₀ hrun, fun h₀ => newKept_iff hk h₀ hrun⟩

def addedByte : Data := { Data.new with dBuf := some [7], dSize := 1 }

set_option maxRecDepth 8000 in
/-- Raw data are asked for and a byte is added, in a section of the file. -/
theorem symbol_called : ∃ e h, readFile (plainEnv symbolImage) 3 .rdwr = .ok () e ∧ e.kind = .elf ∧
    FileScn (plainEnv symbolImage) (0, 1) h (Buffered.opened e) ∧
    ∃ t, Called (plainEnv symbolImage) (0, 1) (Buffered.opened e) [.rawdata none, .newdata addedByte] t := by
  refine ⟨_, _, rfl, rfl, ⟨⟨_, rfl, rfl, rfl, rfl⟩, ⟨_, rfl⟩, by decide +kernel⟩, ?_⟩
  exact ⟨_, @Called.call _ _ _ [.rawdata none] _ _ _ (@Called.call _ _ _ [] _ _ _ .start ⟨_, _, rfl, rfl⟩) ⟨_, _, rfl, rfl⟩⟩

/-- The symbol table keeps its symbol when a byte is added. -/
theorem data_kept_symbol : ∃ e h t, readFile (plainEnv symbolImage) 3 .rdwr = .ok () e ∧
    FileScn (plainEnv symbolImage) (0, 1) h (Buffered.opened e) ∧
    FileKept (plainEnv symbolImage) (0, 1) h e [addedByte] t := by
  obtain ⟨e, h, hopen, hk, h₀, t, hrun⟩ := symbol_called
  exact ⟨e, h, t, hopen, h₀, (data_kept_iff hk hrun).1 h h₀⟩

set_option maxRecDepth 8000 in
/-- A new section is asked for its data, and a byte is added: the list is not that byte. -/
theorem newscn_not_kept : ∃ e p e₁ t, readFile (plainEnv symbolImage) 3 .rdwr = .ok () e ∧ elfNewscn e = .ok p e₁ ∧
    NewScn p { Buffered.opened e with elf := e₁ } ∧
    Called (plainEnv symbolImage) p { Buffered.opened e with elf := e₁ } [.getdata none, .newdata addedByte] t ∧
    ¬ NewKept (plainEnv symbolImage) p [addedByte] t := by
  have hnew : ∃ e p e₁, readFile (plainEnv symbolImage) 3 .rdwr = .ok () e ∧ elfNewscn e = .ok p e₁ ∧
      e₁.kind = .elf ∧ e₁.ehdr ≠ none ∧ NewScn p { Buffered.opened e with elf := e₁ } ∧
      ∃ s, Chain.entry e₁.scns p = some s ∧ s.index ≠ 0 :=
    ⟨_, _, _, rfl, rfl, rfl, nofun, ⟨⟨_, rfl, rfl, rfl, rfl, rfl⟩, rfl⟩, _, rfl, by decide +kernel⟩
  obtain ⟨e, p, e₁, hopen, hscn, hk, hehdr, h₀, s, hs, hindex⟩ := hnew
  obtain ⟨t, hrun⟩ := @called_early (plainEnv symbolImage) p { Buffered.opened e with elf := e₁ } s hk h₀ hs hindex
    hehdr addedByte
  refine ⟨e, p, e₁, t, hopen, hscn, h₀, hrun, fun hkept => ?_⟩
  obtain ⟨d, rest, heq⟩ := (newKept_iff hk h₀ hrun).mp hkept
  cases heq

end

end LibElf.Elfutils
