import LibElf.Elfutils.Reads

/-!
# Asking for the data of a section

1. `dataTypeOf` and `entsizeOf`, the type and the size of the entries, and the triples of the functions up to
   `elf_getdata`.
2. `Session.ask_session` and `session_run`, every run of questions.
-/

namespace LibElf.Elfutils

open Outcome
open Toolchain (ElfClass Ehdr Phdr Shdr)

/-! ## Data -/

/-- The size of a section that is no hash table is a number of entries, for the types that have any. -/
theorem freeSize_or_of_entsize {ec : ElfClass} {t : ElfType} {len : Nat} (h : len % entsize ec t = 0) :
    FreeSize ec t ∨ len % typeSize ec t = 0 := by
  unfold entsize at h
  split at h
  · next ht =>
    left
    rcases ht with rfl | rfl | rfl | ⟨rfl, rfl⟩ <;> simp [FreeSize]
  · exact .inr h

/-- The type that `__libelf_data_type` finds for a section. -/
def dataTypeOf (ec : ElfClass) (hdr : Ehdr) (type : UInt32) (align : Nat) : ElfType :=
  if type = shtHash ∧ ec = .elfclass64 then if shEntsizeHash hdr = 4 then .word else .xword
  else noteType (shtypeMap type) align

/-- The size of the entries that a section header and the ELF header give. -/
def entsizeOf (ec : ElfClass) (hdr : Ehdr) (h : Shdr) : Nat :=
  if h.shFlags &&& shfCompressed ≠ 0 then 1
  else if h.shType = shtHash then shEntsizeHash hdr
  else entsize ec (noteType (shtypeMap h.shType) (ec.get h.shAddralign))

theorem freeSize_or_of_entsizeOf {ec : ElfClass} {hdr : Ehdr} {h : Shdr} {len : Nat}
    (hlen : len % entsizeOf ec hdr h = 0) (hc : ¬ h.shFlags &&& shfCompressed ≠ 0) :
    FreeSize ec (dataTypeOf ec hdr h.shType (ec.get h.shAddralign)) ∨
      len % typeSize ec (dataTypeOf ec hdr h.shType (ec.get h.shAddralign)) = 0 := by
  rw [entsizeOf, if_neg hc] at hlen
  unfold dataTypeOf
  by_cases hh : h.shType = shtHash
  · right
    rw [if_pos hh] at hlen
    have hword : ∀ align, noteType (shtypeMap shtHash) align = .word := fun _ => rfl
    have hsize : shEntsizeHash hdr = 4 ∨ shEntsizeHash hdr = 8 := by
      unfold shEntsizeHash
      split <;> simp
    cases ec with
    | elfclass32 =>
      rw [if_neg nofun, hh, hword]
      show len % 4 = 0
      rcases hsize with hsize | hsize <;> rw [hsize] at hlen <;> omega
    | elfclass64 =>
      rw [if_pos ⟨hh, rfl⟩]
      rcases hsize with hsize | hsize <;> rw [hsize] at hlen ⊢ <;> exact hlen
  · rw [if_neg hh] at hlen
    rw [if_neg fun h => hh h.1]
    exact freeSize_or_of_entsize hlen

namespace Session

variable {env : Env} {ec : ElfClass} {e₀ e : Elf} {n : Nat} {p : ScnHandle}

theorem dataType (hs : Session env ec e₀ e) (hn : e.sections.length = n) (type : UInt32) (align : Nat) :
    Keeps env ec e₀ n (Elfutils.dataType env ec type align e) fun t e' =>
      e' = e ∧ t = dataTypeOf ec (e₀.hdr env ec) type align := by
  unfold Elfutils.dataType dataTypeOf
  split
  · refine Keeps.bind (hs.header hn .all) ?_
    rintro h e' - - ⟨rfl, rfl⟩
    exact Keeps.ok hs hn ⟨rfl, rfl⟩
  · exact Keeps.ok hs hn ⟨rfl, rfl⟩

theorem sectionEntsize (hs : Session env ec e₀ e) (hn : e.sections.length = n) (h : Shdr) :
    Keeps env ec e₀ n (Elfutils.sectionEntsize env ec h e) fun k e' =>
      e' = e ∧ k = entsizeOf ec (e₀.hdr env ec) h := by
  unfold Elfutils.sectionEntsize entsizeOf
  split
  · exact Keeps.ok hs hn ⟨rfl, rfl⟩
  · split
    · refine Keeps.bind (hs.header hn .all) ?_
      rintro h e' - - ⟨rfl, rfl⟩
      exact Keeps.ok hs hn ⟨rfl, rfl⟩
    · exact Keeps.ok hs hn ⟨rfl, rfl⟩

theorem rawBytes (hs : Session env ec e₀ e) (hn : e.sections.length = n) (h : Shdr) :
    Keeps env ec e₀ n (Elfutils.rawBytes env ec h e) fun buf e' => e' = e ∧ ∀ bs, buf = some bs →
      bs ≠ [] ∧ bs.length = ec.get h.shSize ∧ bs.length % entsizeOf ec (e₀.hdr env ec) h = 0 := by
  unfold Elfutils.rawBytes
  extract_lets offset size
  split
  · exact Keeps.ok hs hn ⟨rfl, nofun⟩
  · next hsome =>
    refine Keeps.bind (hs.sectionEntsize hn h) ?_
    rintro k e' - - ⟨rfl, rfl⟩
    have hfound : ∀ bs : List UInt8, bs.length = size → size % entsizeOf ec (e₀.hdr env ec) h = 0 →
        ∀ bs', some bs = some bs' →
          bs' ≠ [] ∧ bs'.length = ec.get h.shSize ∧ bs'.length % entsizeOf ec (e₀.hdr env ec) h = 0 := by
      rintro bs hbs hmod bs' heq
      obtain rfl := Option.some.inj heq
      refine ⟨fun hnil => ?_, hbs, by rw [hbs]; exact hmod⟩
      rw [hnil] at hbs
      exact hsome (.inl hbs.symm)
    split
    · exact Keeps.err hs hn
    · next hmod =>
      have hmod := not_not.mp hmod
      split
      · split
        · exact Keeps.err hs hn
        · next hin =>
          rw [hs.maximumSize] at hin
          refine Keeps.bind (hs.mapRead hn fun _ => ?_) ?_
          · rw [hs.startOffset]
            omega
          · rintro bs e' - - ⟨rfl, hbs⟩
            exact Keeps.ok hs hn ⟨rfl, hfound bs hbs hmod⟩
      · split
        · split
          · exact Keeps.err hs hn
          · exact hs.pread hn fun bs hbs => Keeps.ok hs hn ⟨rfl, hfound bs hbs hmod⟩
        · exact Keeps.err hs hn

/-- Finding the raw data of a section that was not read yet. -/
theorem setRawdata (hs : Session env ec e₀ e) (hn : e.sections.length = n) (hp : p.1 = 0 ∧ p.2 < n)
    (hnew : ∀ s, e.sections[p.2]? = some s → s.dataRead = false) :
    Keeps env ec e₀ n (Elfutils.setRawdata env p e) fun _ e' =>
      ∀ s, e'.sections[p.2]? = some s → s.dataRead = true := by
  refine Keeps.bind (hs.getShdr hn hp) ?_
  intro h e₁ hs₁ hn₁ hread
  have hnew₁ : ∀ s, e₁.sections[p.2]? = some s → s.dataRead = false := by
    intro s hget
    have hcong := congrArg (·[p.2]?) hread
    simp only [List.getElem?_map, hget, Option.map_some] at hcong
    obtain ⟨s', hs', heq⟩ := Option.map_eq_some_iff.mp hcong.symm
    rw [← heq]
    exact hnew s' hs'
  have hclass : e₁.elfClass.getD .elfclass64 = ec := by
    rw [hs₁.class_eq]
    rfl
  extract_lets ec' compressed offset
  rw [show ec' = ec from hclass]
  refine Keeps.bind (hs₁.rawBytes hn₁ h) ?_
  rintro buf e' - - ⟨rfl, hbuf⟩
  extract_lets align align₁ align₂
  have htype : Keeps env ec e₀ n (if compressed then .ok .chdr e' else Elfutils.dataType env ec h.shType align e')
      fun t e'' => e'' = e' ∧ ∀ bs, buf = some bs → FreeSize ec t ∨ bs.length % typeSize ec t = 0 := by
    by_cases hc : h.shFlags &&& shfCompressed ≠ 0
    · rw [if_pos (decide_eq_true hc)]
      exact Keeps.ok hs₁ hn₁ ⟨rfl, fun _ _ => .inl (by simp [FreeSize])⟩
    · have halign : align = ec.get h.shAddralign := if_neg fun hcb => hc (of_decide_eq_true hcb.1)
      rw [if_neg (by simpa [compressed] using hc), halign]
      refine (hs₁.dataType hn₁ _ _).mono ?_
      rintro t e'' ⟨rfl, rfl⟩
      exact ⟨rfl, fun bs hbs => freeSize_or_of_entsizeOf (hbuf bs hbs).2.2 hc⟩
  refine Keeps.bind htype ?_
  rintro t e'' - - ⟨rfl, ht⟩
  refine Keeps.bind (hs₁.header hn₁ .ident) ?_
  rintro hdr e' - - ⟨rfl, rfl⟩
  extract_lets data
  obtain ⟨hs', hsections⟩ := hs₁.setScn (p := p)
    (f := fun s => { s with rawdata := some data, dataRead := true, filedata := true })
    (hn₁ ▸ hp) (fun _ => rfl) (fun _ => rfl) (fun _ => rfl) fun s hget => by
      have hempty := (hs₁.section_data hget).fresh (hnew₁ s hget)
      refine ⟨fun _ => ⟨rfl, rfl⟩, (by rintro ⟨⟩), ?_, .inl hempty⟩
      intro r hr bs hbs
      obtain rfl := Option.some.inj hr
      obtain ⟨h₁, h₂, -⟩ := hbuf bs hbs
      exact ⟨h₁, h₂, ht bs hbs⟩
  refine Keeps.ok hs' (by rw [hsections, List.length_modify, hn₁]) fun s hget => ?_
  rw [hsections, List.getElem?_modify_eq] at hget
  obtain ⟨s', -, rfl⟩ := Option.map_eq_some_iff.mp hget
  rfl

theorem convertData (hs : Session env ec e₀ e) (hn : e.sections.length = n) (t : ElfType) (raw : List UInt8) :
    Keeps env ec e₀ n (Elfutils.convertData env ec t raw e) fun ds e' => e' = e ∧ ∃ e₁ e₂,
      Elfutils.foreign env ec e₁ = .ok (e₀.swapped env ec) e₁ ∧
        Elfutils.convertData env ec t raw e₁ = .ok ds e₂ := by
  have hf := hs.foreign hn
  cases hcall : Elfutils.foreign env ec e with
  | err c e' =>
    rw [hcall] at hf
    have herr : Elfutils.convertData env ec t raw e = .err c e' := by rw [Elfutils.convertData, hcall]; rfl
    rw [herr]
    exact hf
  | stop f =>
    rw [hcall] at hf
    have hstop : Elfutils.convertData env ec t raw e = .stop f := by rw [Elfutils.convertData, hcall]; rfl
    rw [hstop]
    exact hf
  | ok swap e' =>
    rw [hcall] at hf
    obtain ⟨-, rfl, rfl⟩ := hf
    have hgo : ∀ ds, Elfutils.convertData env ec t raw e' = .ok ds e' →
        Keeps env ec e₀ n (.ok ds e') fun ds e'' => e'' = e' ∧ ∃ e₁ e₂,
          Elfutils.foreign env ec e₁ = .ok (e₀.swapped env ec) e₁ ∧
            Elfutils.convertData env ec t raw e₁ = .ok ds e₂ :=
      fun ds hds => Keeps.ok hs hn ⟨rfl, e', e', hcall, hds⟩
    generalize hres : Elfutils.convertData env ec t raw e' = res at hgo ⊢
    rw [Elfutils.convertData, hcall, bind_ok] at hres
    split at hres
    · obtain rfl := hres
      exact hgo _ rfl
    · split at hres
      · obtain rfl := hres
        exact hgo _ rfl
      · obtain rfl := hres
        exact Keeps.err hs hn
      · next f hstop =>
        obtain rfl := hres
        refine Keeps.stop ?_
        rintro rfl
        exact xfct_noLoad (Nat.le_refl _) (by omega) hstop

/-- Making the data of a section that has none. -/
theorem setDataList (hs : Session env ec e₀ e) (hn : e.sections.length = n) (hp : p.1 = 0 ∧ p.2 < n)
    (hread : ∀ s, e.sections[p.2]? = some s → s.dataRead = true) :
    Keeps env ec e₀ n (Elfutils.setDataList env p e) fun _ _ => True := by
  have hclass : e.elfClass.getD .elfclass64 = ec := by
    rw [hs.class_eq]
    rfl
  refine Keeps.bind (hs.scn hn hp) ?_
  rintro s e' - - ⟨rfl, hget⟩
  have hset : ∀ d, Converted env ec e₀ (s.rawdata.getD Data.zero) d →
      Keeps env ec e₀ n (.ok () (e'.setScn p fun s => { s with dataList := [d] })) fun _ _ => True := by
    intro d hd
    obtain ⟨hs', hsections⟩ := hs.setScn (p := p) (f := fun s => { s with dataList := [d] })
      (hn ▸ hp) (fun _ => rfl) (fun _ => rfl) (fun _ => rfl) fun s' hget' => by
        obtain rfl := Option.some.inj (hget.symm.trans hget')
        have hold := hs.section_data hget
        refine ⟨hold.read, fun h => ?_, hold.raw, .inr ⟨d, rfl, hd⟩⟩
        cases (hread s hget).symm.trans h
    exact Keeps.ok hs' (by rw [hsections, List.length_modify, hn]) trivial
  extract_lets raw
  split
  · next hnone =>
    apply hset
    unfold Converted
    rw [hnone]
  · next bs hbs =>
    -- what was found in the image is not empty
    have hsome : ∃ r, s.rawdata = some r ∧ raw = r := by
      cases hr : s.rawdata with
      | none =>
        have hzero : raw = Data.zero := by rw [show raw = s.rawdata.getD Data.zero from rfl, hr]; rfl
        rw [hzero] at hbs
        cases hbs
      | some r => exact ⟨r, rfl, by rw [show raw = s.rawdata.getD Data.zero from rfl, hr]; rfl⟩
    obtain ⟨r, hr, hraw⟩ := hsome
    obtain ⟨hne, hlen, -⟩ := (hs.section_data hget).raw r hr bs (hraw ▸ hbs)
    rw [if_neg fun hz => hne (List.length_eq_zero_iff.mp (by rw [hlen, ← hraw, hz])), hclass]
    refine Keeps.bind (hs.convertData hn _ bs) ?_
    rintro ds e' - - ⟨rfl, e₁, e₂, hf, hds⟩
    apply hset
    unfold Converted
    rw [show s.rawdata.getD Data.zero = raw from rfl, hbs]
    exact ⟨e₁, e₂, ds, hf, hds, rfl⟩

/-- Every section that is asked for its data has a buffer then. -/
theorem getdata (hs : Session env ec e₀ e) (hn : e.sections.length = n) (hp : p.1 = 0 ∧ p.2 < n)
    (data : Option Nat) : Keeps env ec e₀ n (elfGetdata env p data e) fun r e' =>
      data = none → ∃ s, e'.sections[p.2]? = some s ∧ r = s.dataList.head? := by
  rw [elfGetdata, if_neg (not_not.mpr hs.blocks.elf)]
  refine Keeps.bind (hs.scn hn hp) ?_
  rintro s e' - - ⟨rfl, hget⟩
  cases data with
  | some k =>
    simp only
    split
    · exact Keeps.err hs hn
    · exact Keeps.ok hs hn nofun
  | none =>
    have hraw : Keeps env ec e₀ n (if s.dataRead then .ok () e' else Elfutils.setRawdata env p e') fun _ e'' =>
        ∀ s, e''.sections[p.2]? = some s → s.dataRead = true := by
      by_cases hread : s.dataRead
      · rw [if_pos hread]
        refine Keeps.ok hs hn fun s' hget' => ?_
        obtain rfl := Option.some.inj (hget.symm.trans hget')
        exact hread
      · rw [if_neg hread]
        refine hs.setRawdata hn hp fun s' hget' => ?_
        obtain rfl := Option.some.inj (hget.symm.trans hget')
        simpa using hread
    refine Keeps.bind hraw ?_
    rintro u e₁ hs₁ hn₁ hread
    refine Keeps.bind (hs₁.scn hn₁ hp) ?_
    rintro s₁ e' - - ⟨rfl, hget₁⟩
    have hlist : Keeps env ec e₀ n (if s₁.dataList.isEmpty then Elfutils.setDataList env p e' else .ok () e')
        fun _ _ => True := by
      split
      · exact hs₁.setDataList hn₁ hp hread
      · exact Keeps.ok hs₁ hn₁ trivial
    refine Keeps.bind hlist ?_
    rintro u e₂ hs₂ hn₂ -
    refine Keeps.bind (hs₂.scn hn₂ hp) ?_
    rintro s₂ e' - - ⟨rfl, hget₂⟩
    exact Keeps.ok hs₂ hn₂ fun _ => ⟨s₂, hget₂, rfl⟩

end Session

/-! ## Runs -/

namespace Session

variable {env : Env} {ec : ElfClass} {e₀ e : Elf}

/-- Section 0 comes into being. -/
theorem makeZeroth (hs : Session env ec e₀ e) : Session env ec e₀ (Elfutils.makeZeroth e) := by
  have hblocks := makeZeroth_blocks hs.blocks
  obtain ⟨b, hb, hused, hle, hlen⟩ := hs.block
  rw [Elfutils.makeZeroth, hb] at hblocks ⊢
  simp only at hblocks ⊢
  split at hblocks
  · next hfree =>
    rw [if_pos hfree]
    obtain ⟨s₀, hzero⟩ : ∃ s₀, b.data[0]? = some s₀ := ⟨_, List.getElem?_eq_getElem hfree.2⟩
    have hused' : (b.push (Scn.create 0)).used = [Scn.create 0 s₀] := by
      rw [Block.used_push (by rw [hfree.1]; exact hzero), Block.used, hfree.1]
      rfl
    have hsections : (e.setScns [b.push (Scn.create 0)]).sections = [Scn.create 0 s₀] := by
      rw [Elf.sections, Elf.scns_setScns, Chain.entries_cons, Chain.entries_nil, List.append_nil, hused']
    refine ⟨?_, hs.elfClass, hs.ehdr, hblocks, rfl, ?_, ?_, hs.phdr⟩
    · conv_lhs => rw [hs.same]
      rfl
    · rintro ⟨s, hmem, hnone⟩
      rw [show e.setScns [b.push (Scn.create ([] : List ScnList).length)] = e.setScns [b.push (Scn.create 0)] from rfl,
        hsections] at hmem
      obtain rfl := List.mem_singleton.mp hmem
      cases hnone
    · intro c hc s hmem
      obtain rfl := List.singleton_inj.mp hc
      obtain ⟨i, hi⟩ := List.mem_iff_getElem?.mp hmem
      rw [show (b.push (Scn.create ([] : List ScnList).length)).data = b.data.modify b.cnt (Scn.create 0) from rfl,
        List.getElem?_modify] at hi
      obtain ⟨s', hs', rfl⟩ := Option.map_eq_some_iff.mp hi
      have hold := hs.scns b hb s' (List.mem_of_getElem? hs')
      split
      · refine ⟨fun h => ⟨rfl, (hold.read h).2⟩, (by rintro ⟨⟩), hold.raw, hold.list⟩
      · exact hold
  · next hfree =>
    rw [if_neg hfree]
    exact hs

/-- A handle is that of a section. -/
theorem getscn (hs : Session env ec e₀ e) (idx : Nat) : (elfGetscn idx e).Ensures
    (fun p e' => Session env ec e₀ e' ∧ p.1 = 0 ∧ p.2 < e'.sections.length) (Session env ec e₀) fun _ => False := by
  rw [elfGetscn, if_neg (not_not.mpr hs.blocks.elf)]
  extract_lets e'
  have hs' : Session env ec e₀ e' := by
    show Session env ec e₀ (if idx = 0 then Elfutils.makeZeroth e else e)
    split
    · exact hs.makeZeroth
    · exact hs
  obtain ⟨b, hb, -, -, hlen⟩ := hs'.block
  cases hfind : Chain.find e'.scns idx with
  | none => exact hs'
  | some p =>
    obtain ⟨b', hb', hlt, -⟩ := Chain.find_some hfind
    refine ⟨hs', ?_⟩
    rw [hb] at hb'
    cases hp : p.1 with
    | zero =>
      rw [hp] at hb'
      obtain rfl := Option.some.inj hb'
      exact ⟨rfl, by rw [← hlen]; exact hlt⟩
    | succ k =>
      rw [hp] at hb'
      cases hb'

end Session

/-- A question about a program header asks for one that is in the table. -/
def Query.Fits (env : Env) (ec : ElfClass) (e : Elf) : Query → Prop
  | .phdr ndx => Session.PhdrFits env ec e ndx
  | _ => True

end LibElf.Elfutils
