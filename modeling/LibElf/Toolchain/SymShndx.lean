import LibElf.Toolchain.GElfHeader
import LibElf.Toolchain.Lossless

/-!
# Symbols with extended section indices

The functions of `gelf_symshndx.c` take two descriptors, one with the symbols and one with a table of section
indices, and one position for both. `gelf_update_symshndx` compares the type of the first descriptor where
`gelf_getsymshndx` compares the type of the second one.

1. `gelfGetsym` and `gelfGetsymshndx`, the functions that read.
2. `SymPair`, a symbol table with its index table, and `SymshndxKept`, an update that is read back.
3. `gelfUpdateSymshndx_refused`: on such a pair the symbol is stored and the update refused.
-/

namespace LibElf.Toolchain

open Outcome

section Functions

variable (env : Env)

/-- `gelf_getsym` on data descriptor `j` of section `i`. -/
def gelfGetsym (i j : Nat) (ndx : Int32) (e : Elf) : ReadCall (List Nat) :=
  match dataAt e i j with
  | none => .err .ARGUMENT ()
  | some (s, d) => gelfGet env.host .sym e s ndx d

/-- `gelf_getsymshndx`. The index table `idx` is a data descriptor of the same descriptor, as for the update. -/
def gelfGetsymshndx (i j : Nat) (idx : Option (Nat × Nat)) (ndx : Int32) (e : Elf) : ReadCall (List Nat × Nat) :=
  (gelfGetsym env i j ndx e).bind fun sym _ =>
  match idx.bind fun p => dataAt e p.1 p.2 with
  | none => .err .ARGUMENT ()
  | some (s, id) =>
    match e.eClass with
    | none => .stop .assertion
    | some ec =>
      if xlateShtype s.shdr.shType ≠ some .word ∨ id.dType ≠ some .word then .err .ARGUMENT ()
      else
        let msz := libelfMsize .word ec e.eVersion
        if msz = 0 then .stop .assertion
        else if id.dSize.toNat ≤ wrap (msz * ndx.toInt.toNat) then .err .ARGUMENT ()
        else (id.load (4 * ndx.toInt.toNat) 4).bind fun bs _ => .ok (sym, ofBytes env.host bs) ()

def indexWord (p : Nat × Nat) (ndx : Int32) (e : Elf) : ReadCall (List UInt8) :=
  match dataAt e p.1 p.2 with
  | none => .err .ARGUMENT ()
  | some (_, id) => id.load (4 * ndx.toInt.toNat) 4

end Functions

section Updates

variable {env : Env} {host : ByteOrder} {k : RecordKind} {i j : Nat} {p : Nat × Nat} {ndx : Int32}
  {v : GElfRecord .sym} {e : Elf} {s si : Scn} {d d' id : ElfData} {x : UInt32} {ec : ElfClass}

/-- A record of the section's data that is wholly in the buffer is found. -/
theorem locate_of_room {σ : Type} (hclass : e.eClass = some ec) (hversion : e.eVersion = evCurrent)
    (htype : xlateShtype s.shdr.shType = some k.type) (hndx : 0 ≤ ndx.toInt)
    (hin : msize k.type ec * (ndx.toInt.toNat + 1) ≤ d.dSize.toNat) (t : σ) :
    locate k e s ndx d t = .ok (ec, msize k.type ec * ndx.toInt.toNat) t := by
  have hmsz : libelfMsize k.type ec e.eVersion = msize k.type ec := if_neg (not_not_intro hversion)
  have hpos : 0 < msize k.type ec := by
    cases k <;> cases ec <;> decide
  have hsize := d.dSize.toNat_lt
  rw [Nat.mul_add, Nat.mul_one] at hin
  have hwrap : wrap (msize k.type ec * ndx.toInt.toNat) = msize k.type ec * ndx.toInt.toNat :=
    Nat.mod_eq_of_lt (by omega)
  unfold locate
  rw [if_neg (not_lt.mpr hndx), hclass]
  dsimp only
  rw [if_neg (not_not_intro htype), hmsz, if_neg (Nat.pos_iff_ne_zero.mp hpos), hwrap, if_neg (by omega)]

/-- An update of a record in the buffer succeeds when the checks of its values pass. -/
theorem gelfUpdate_of_room {w : GElfRecord k} {base : Nat} (hloc : locate k e s ndx d d = .ok (ec, base) d)
    (hroom : d.Room base (msize k.type ec)) (hacc : Accepted k w) :
    ∃ d', gelfUpdate host k e s ndx w d = .ok () d' := by
  obtain ⟨b, hb, hin⟩ := hroom
  cases ec with
  | elfclass64 =>
    rw [gelfUpdate, hloc, bind_ok]
    have hstore : ∃ d', d.store base (structBytes host k.fields w.padding w.vals) = .ok () d' := by
      refine ElfData.store_ok_iff.mpr ⟨b, hb, ?_⟩
      rw [length_structBytes host w.length_padding (length_of_fits w.fits_vals), ← msize_fields]
      exact hin
    obtain ⟨d', hstore⟩ := hstore
    refine ⟨d', ?_⟩
    show (if true = true then (d.store base (structBytes host k.fields w.padding w.vals)).bind _ else _) = _
    rw [if_pos rfl, hstore, bind_ok]
    rfl
  | elfclass32 =>
    have hroom : ∀ c ∈ k.copies, d.Room (k.offset32 base c.dst) (k.field32 c.dst).width := by
      intro c hc
      have hfield := copies_inside k c hc
      refine ⟨b, hb, ?_⟩
      rw [RecordKind.offset32]
      omega
    obtain ⟨-, hclass, -, -⟩ := locate_ok hloc
    have hget : ∃ vs, gelfGet host k e s ndx d = .ok vs () := by
      rw [gelfGet, locate_state hloc (), bind_ok]
      exact (getFields_ok_iff k.copies _).mpr hroom
    exact (gelfUpdate_returns hclass hget).1 hacc

/-- An update does not change the type of the data. -/
theorem gelfUpdate_type {w : GElfRecord k} (h : gelfUpdate host k e s ndx w d = .ok () d') : d'.dType = d.dType := by
  obtain ⟨p, -, hrun⟩ := gelfUpdate_ok h
  have hkeep : ∀ a ∈ k.assigns host w.padding p.1 p.2, ∀ d₁ d₂, d₁.dType = d.dType → a.store w.vals d₁ = .ok () d₂ →
      d₂.dType = d.dType := by
    intro a ha d₁ d₂ h₁ hstore
    have hplain : ∃ off bs, d₁.store off bs = .ok () d₂ := by
      obtain ⟨ec, base⟩ := p
      cases ec with
      | elfclass64 =>
        obtain rfl := List.mem_singleton.mp ha
        exact ⟨_, _, hstore⟩
      | elfclass32 =>
        obtain ⟨c, -, rfl⟩ := List.mem_map.mp ha
        exact ⟨_, _, hstore⟩
    obtain ⟨off, bs, hplain⟩ := hplain
    obtain ⟨b, -, -, rfl⟩ := ElfData.store_eq_ok.mp hplain
    exact h₁
  have hinv := @Assign.run_inv _ _ _ .RANGE _ w.vals d (fun d₁ => d₁.dType = d.dType) hkeep
    (fun a ha => (independent_assigns host k p.1 p.2 w.padding).no_err a ha w.vals) rfl
  rw [hrun] at hinv
  exact hinv

variable (i j p ndx v e) in
/-- A symbol table and its table of section indices in one object, with a position in both and a symbol that the
class can hold. -/
structure SymPair (s si : Scn) (d id : ElfData) : Prop where
  syms : dataAt e i j = some (s, d)
  table : dataAt e p.1 p.2 = some (si, id)
  hasClass : ∃ ec, e.eClass = some ec ∧ msize .sym ec * (ndx.toInt.toNat + 1) ≤ d.dSize.toNat
  version : e.eVersion = evCurrent
  symtab : s.shdr.shType = 2
  symtabShndx : si.shdr.shType = 18
  symType : d.dType = some .sym
  wordType : id.dType = some .word
  symBuf : d.dBuf.isSome
  wordBuf : id.dBuf.isSome
  position : 0 ≤ ndx.toInt
  inTable : 4 * (ndx.toInt.toNat + 1) ≤ id.dSize.toNat
  representable : Representable .sym v

variable (env i j p ndx v x e) in
/-- The symbol and its index are stored and read back, and the other positions are as before. -/
def SymshndxKept : Prop :=
  ∃ e', gelfUpdateSymshndx env i j (some p) ndx v x e = .ok () e' ∧
    gelfGetsymshndx env i j (some p) ndx e' = .ok (v.vals, x.toNat) () ∧
    ∀ m ≠ ndx, gelfGetsym env i j m e' = gelfGetsym env i j m e ∧
      (0 ≤ m.toInt → indexWord p m e' = indexWord p m e)

/-- The descriptor that a call leaves in its place. -/
theorem dataAt_set (h : dataAt e i j = some (s, d)) (d' : ElfData) :
    dataAt (e.setScn (e.eScn.set i { s with sData := s.sData.set j d' })) i j =
      some ({ s with sData := s.sData.set j d' }, d') := by
  obtain ⟨hs, hd⟩ := dataAt_eq_some.mp h
  refine dataAt_eq_some.mpr ⟨?_, ?_⟩
  · exact List.getElem?_set_self (List.getElem?_eq_some_iff.mp hs).1
  · exact List.getElem?_set_self (List.getElem?_eq_some_iff.mp hd).1

/-- The symbol is stored, and the update is refused. -/
theorem gelfUpdateSymshndx_refused (h : SymPair i j p ndx v e s si d id) :
    ∃ e', gelfUpdateSymshndx env i j (some p) ndx v x e = .err .ARGUMENT e' ∧
      gelfGetsym env i j ndx e' = .ok v.vals () := by
  obtain ⟨ec, hclass, hin⟩ := h.hasClass
  obtain ⟨hacc, hsym⟩ := representable_iff.mp h.representable
  have htype : xlateShtype s.shdr.shType = some RecordKind.sym.type := by
    rw [h.symtab]
    rfl
  have hloc := locate_of_room (k := .sym) hclass h.version htype h.position hin d
  obtain ⟨b, hb⟩ := Option.isSome_iff_exists.mp h.symBuf
  have hroom : d.Room (msize .sym ec * ndx.toInt.toNat) (msize .sym ec) := by
    refine ⟨b, hb, ?_⟩
    rw [d.size_buf b hb, ← Nat.mul_succ]
    exact hin
  obtain ⟨d', hupd⟩ := @gelfUpdate_of_room env.host _ _ _ _ _ _ _ _ hloc hroom hacc
  have hplace := dataAt_set h.syms d'
  generalize he' : e.setScn (e.eScn.set i { s with sData := s.sData.set j d' }) = e' at hplace
  have hclass' : e'.eClass = some ec := by
    rw [← he', Elf.setScn_eClass]
    exact hclass
  have hdata : onData (fun e s d => gelfUpdate env.host .sym e s ndx v d) i j e = .ok () e' := by
    unfold onData
    rw [h.syms]
    dsimp only
    rw [hupd, within_ok, he']
  refine ⟨e', ?_, ?_⟩
  · -- the symbols are not of type `ELF_T_WORD`
    have hchecked : (dataAt e' i j).bind (fun p => p.2.dType) ≠ some .word := by
      rw [hplace, Option.bind_some, gelfUpdate_type hupd, h.symType]
      decide
    unfold gelfUpdateSymshndx
    rw [hdata, bind_ok]
    split
    · rfl
    rw [hclass']
    dsimp only
    rw [if_pos (Or.inr hchecked)]
  · have hget := (gelfGet_update_iff hupd).mpr fun _ => hsym
    unfold gelfGetsym
    rw [hplace, ← he']
    exact hget

/-- No symbol is stored together with its extended section index. -/
theorem gelfUpdateSymshndx_never (h : SymPair i j p ndx v e s si d id) : ¬ SymshndxKept env i j p ndx v e x := by
  rintro ⟨e', hupd, -⟩
  obtain ⟨e₁, hrefused, -⟩ := @gelfUpdateSymshndx_refused env _ _ _ _ _ _ _ _ _ _ x h
  rw [hrefused] at hupd
  cases hupd

end Updates

/-- A class 32 descriptor with a symbol table of one symbol and its table of section indices. -/
def symshndxOps : List Op :=
  recordOps 2 .sym 16 (by decide) ++
  [.newscn, .setShdr 2 { Shdr.zero with shType := 18, shAddralign := 4 }, .newdata 2,
   .setData 2 0 ⟨4, 0, 4, some ⟨8192, List.replicate 4 0⟩, some .word, 1, by
    intro b hb
    cases hb
    rfl⟩]

def zeroSym : GElfRecord .sym := ⟨[0, 0, 0, 0, 0, 0], by decide, List.replicate 24 0, by decide⟩

/-- The program above makes such a pair. -/
theorem symPair_main : ∃ e₀ e s si d id, openObject plainEnv .write noImage = .ok (some e₀) ∧
    runOps (Op.step plainEnv) e₀ symshndxOps = .ok e ∧ SymPair 1 0 (2, 0) 0 zeroSym e s si d id := by
  have hacc : Representable .sym zeroSym :=
    representable_iff.mpr ⟨by unfold Accepted; decide, by unfold SymFits; decide⟩
  have hrun : ∃ e₀ e s si d id, openObject plainEnv .write noImage = .ok (some e₀) ∧
      runOps (Op.step plainEnv) e₀ symshndxOps = .ok e ∧ dataAt e 1 0 = some (s, d) ∧ dataAt e 2 0 = some (si, id) ∧
      e.eClass = some .elfclass32 ∧ e.eVersion = evCurrent ∧ s.shdr.shType = 2 ∧ si.shdr.shType = 18 ∧
      d.dType = some .sym ∧ id.dType = some .word ∧ d.dBuf.isSome = true ∧ id.dBuf.isSome = true ∧
      d.dSize = 16 ∧ id.dSize = 4 :=
    ⟨_, _, _, _, _, _, rfl, rfl, rfl, rfl, rfl, rfl, rfl, rfl, rfl, rfl, rfl, rfl, rfl, rfl⟩
  obtain ⟨e₀, e, s, si, d, id, hopen, hops, hs, hsi, hclass, hversion, htype, htype', hdt, hidt, hbuf, hbuf', hsize,
    hsize'⟩ := hrun
  refine ⟨e₀, e, s, si, d, id, hopen, hops, hs, hsi, ⟨.elfclass32, hclass, ?_⟩, hversion, htype, htype', hdt, hidt,
    hbuf, hbuf', by decide, ?_, hacc⟩
  · rw [hsize]
    decide
  · rw [hsize']
    decide

/-- A pair that a program makes, and that no update stores. -/
theorem gelfUpdateSymshndx_never_main : ∃ e s si d id, SymPair 1 0 (2, 0) 0 zeroSym e s si d id ∧
    ¬ SymshndxKept plainEnv 1 0 (2, 0) 0 zeroSym e 5 := by
  obtain ⟨-, e, s, si, d, id, -, -, hpair⟩ := symPair_main
  exact ⟨e, s, si, d, id, hpair, gelfUpdateSymshndx_never hpair⟩

/-- In the descriptor that the program makes, the zero symbol is not stored with the index 5. -/
theorem symshndx_not_stored : ∃ e₀ e s si d id, openObject plainEnv .write noImage = .ok (some e₀) ∧
    runOps (Op.step plainEnv) e₀ symshndxOps = .ok e ∧ SymPair 1 0 (2, 0) 0 zeroSym e s si d id ∧
    ¬ SymshndxKept plainEnv 1 0 (2, 0) 0 zeroSym e 5 := by
  obtain ⟨e₀, e, s, si, d, id, hopen, hops, hpair⟩ := symPair_main
  refine ⟨e₀, e, s, si, d, id, hopen, hops, hpair, ?_⟩
  rintro ⟨e', hupd, -⟩
  obtain ⟨e₁, hrefused, -⟩ := @gelfUpdateSymshndx_refused plainEnv _ _ _ _ _ _ _ _ _ _ 5 hpair
  rw [hrefused] at hupd
  cases hupd

end LibElf.Toolchain
