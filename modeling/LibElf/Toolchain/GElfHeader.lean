import LibElf.Toolchain.GElf
import LibElf.Toolchain.HeaderFacts

/-!
# Class-independent headers

`gelf_update_ehdr`, `gelf_update_phdr`, `gelf_update_shdr` and `gelf_update_symshndx`. In class 64 a header is
copied as a whole. In class 32 the fields are stored one by one, and those that are wider in the
class-independent header are checked on the way.

1. `ehdrAssigns`, `phdrAssigns` and `shdrAssigns`, the assignments in their order.
2. `GElfOp`, the calls that update a header or a record, and `GElfOp.step`.
3. `independent_ehdrAssigns` and its siblings.
-/

namespace LibElf.Toolchain

open Outcome

/-! ## Assignments -/

section Assignments

variable {σ ν : Type}

/-- An assignment between fields of one width, or of whole structures. -/
def assign (set : ν → σ → σ) : Assign ElfError σ ν where
  fits _ := true
  store v s := .ok () (set v s)

def copyU32 (field : ν → UInt64) (set : UInt64 → σ → σ) : Assign ElfError σ ν where
  fits v := !decide (field v > 0xFFFFFFFF)
  store v s := .ok () (set (field v &&& 0xFFFFFFFF) s)

end Assignments

def ehdrAssigns : ElfClass → List (Assign ElfError Ehdr Ehdr)
  | .elfclass64 => [assign fun s _ => s]
  | .elfclass32 =>
    [assign fun s h => { h with eIdent := s.eIdent },
     assign fun s h => { h with eType := s.eType },
     assign fun s h => { h with eMachine := s.eMachine },
     assign fun s h => { h with eVersion := s.eVersion },
     copyU32 Ehdr.eEntry fun x h => { h with eEntry := x },
     copyU32 Ehdr.ePhoff fun x h => { h with ePhoff := x },
     copyU32 Ehdr.eShoff fun x h => { h with eShoff := x },
     assign fun s h => { h with eFlags := s.eFlags },
     assign fun s h => { h with eEhsize := s.eEhsize },
     assign fun s h => { h with ePhentsize := s.ePhentsize },
     assign fun s h => { h with ePhnum := s.ePhnum },
     assign fun s h => { h with eShentsize := s.eShentsize },
     assign fun s h => { h with eShnum := s.eShnum },
     assign fun s h => { h with eShstrndx := s.eShstrndx }]

def phdrAssigns : ElfClass → List (Assign ElfError Phdr Phdr)
  | .elfclass64 => [assign fun s _ => s]
  | .elfclass32 =>
    [assign fun s p => { p with pType := s.pType },
     assign fun s p => { p with pFlags := s.pFlags },
     copyU32 Phdr.pOffset fun x p => { p with pOffset := x },
     copyU32 Phdr.pVaddr fun x p => { p with pVaddr := x },
     copyU32 Phdr.pPaddr fun x p => { p with pPaddr := x },
     copyU32 Phdr.pFilesz fun x p => { p with pFilesz := x },
     copyU32 Phdr.pMemsz fun x p => { p with pMemsz := x },
     copyU32 Phdr.pAlign fun x p => { p with pAlign := x }]

def shdrAssigns : ElfClass → List (Assign ElfError Shdr Shdr)
  | .elfclass64 => [assign fun s _ => s]
  | .elfclass32 =>
    [assign fun s h => { h with shName := s.shName },
     assign fun s h => { h with shType := s.shType },
     copyU32 Shdr.shFlags fun x h => { h with shFlags := x },
     copyU32 Shdr.shAddr fun x h => { h with shAddr := x },
     copyU32 Shdr.shOffset fun x h => { h with shOffset := x },
     copyU32 Shdr.shSize fun x h => { h with shSize := x },
     assign fun s h => { h with shLink := s.shLink },
     assign fun s h => { h with shInfo := s.shInfo },
     copyU32 Shdr.shAddralign fun x h => { h with shAddralign := x },
     copyU32 Shdr.shEntsize fun x h => { h with shEntsize := x }]

/-! ## The functions -/

section Functions

variable (env : Env)

def gelfUpdateEhdr (s : Ehdr) (e : Elf) : Call Unit :=
  withClass (fun ec e =>
    if e.eCmd = .read then .err .MODE e
    else
      (libelfEhdr env ec false e).bind fun h e =>
      let e := e.setFlags { e.eFlags with dirty := true }
      (Assign.run .RANGE (ehdrAssigns ec) s h).within fun h => e.setEhdr h) e

/-- `gelf_update_phdr`. The table is not read in, and an index that is equal to the number of its entries
passes the check. -/
def gelfUpdatePhdr (ndx : Int32) (s : Phdr) (e : Elf) : Call Unit :=
  withClass (fun ec e =>
    match elfGetphdrnum env e with
    | .stop f => .stop f
    | .err _ e => .err .ARGUMENT e
    | .ok phnum e =>
      if e.eCmd = .read then .err .MODE e
      else
        (libelfEhdr env ec false e).bind fun _ e =>
        if ndx.toInt < 0 ∨ phnum < ndx.toInt.toNat then .err .ARGUMENT e
        else
          match e.ePhdr with
          | none => .stop .null
          | some ps =>
            let e := e.setFlags { e.eFlags with dirty := true }
            match ps[ndx.toInt.toNat]? with
            | none => .stop .store
            | some p =>
              (Assign.run .RANGE (phdrAssigns ec) s p).within fun p =>
                e.setPhdr (some (ps.set ndx.toInt.toNat p))) e

/-- `gelf_getphdr`. The fields of a class 32 header are widened, which keeps their values. -/
def gelfGetphdr (ndx : Int32) (e : Elf) : Call Phdr :=
  withClass (fun ec e =>
    if ndx.toInt < 0 then .err .ARGUMENT e
    else
      match elfGetphdrnum env e with
      | .stop f => .stop f
      | .err _ e => .err .ARGUMENT e
      | .ok phnum e =>
        if phnum ≤ ndx.toInt.toNat then .err .ARGUMENT e
        else
          (libelfEhdr env ec false e).bind fun _ e =>
          (getphdr env ec e).bind fun ps e =>
          match ps[ndx.toInt.toNat]? with
          | none => .stop .load
          | some p => .ok p e) e

/-- `gelf_update_shdr` on the section with handle `i`. -/
def gelfUpdateShdr (i : Nat) (s : Shdr) (e : Elf) : Call Unit :=
  withClass (fun ec e =>
    match e.eScn[i]? with
    | none => .err .ARGUMENT e
    | some scn =>
      if e.eCmd = .read then .err .MODE e
      else
        (Assign.run .RANGE (shdrAssigns ec) s scn.shdr).within fun h =>
          e.setScn (e.eScn.set i { scn with shdr := h, sDirty := true })) e

/-- Data descriptor `j` of section `i`. -/
def dataAt (e : Elf) (i j : Nat) : Option (Scn × ElfData) :=
  match e.eScn[i]? with
  | none => none
  | some s => s.sData[j]?.map fun d => (s, d)

theorem dataAt_eq_some {e : Elf} {i j : Nat} {s : Scn} {d : ElfData} :
    dataAt e i j = some (s, d) ↔ e.eScn[i]? = some s ∧ s.sData[j]? = some d := by
  unfold dataAt
  cases hs : e.eScn[i]? with
  | none => simp
  | some s₁ =>
    simp only [Option.map_eq_some_iff, Prod.mk.injEq, Option.some.injEq]
    constructor
    · rintro ⟨d₁, hd, rfl, rfl⟩
      exact ⟨rfl, hd⟩
    · rintro ⟨rfl, hd⟩
      exact ⟨d, hd, rfl, rfl⟩

def onData (f : Elf → Scn → ElfData → DataCall Unit) (i j : Nat) (e : Elf) : Call Unit :=
  match dataAt e i j with
  | none => .err .ARGUMENT e
  | some (s, d) => (f e s d).within fun d => e.setScn (e.eScn.set i { s with sData := s.sData.set j d })

/-- `gelf_update_symshndx`. The index table `idx` is a data descriptor of the same descriptor; `none` stands for a
null pointer and for one of another descriptor. The type that is checked is that of the symbols' data. -/
def gelfUpdateSymshndx (i j : Nat) (idx : Option (Nat × Nat)) (ndx : Int32) (v : GElfRecord .sym) (xindex : UInt32)
    (e : Elf) : Call Unit :=
  (onData (fun e s d => gelfUpdate env.host .sym e s ndx v d) i j e).bind fun _ e =>
  match idx.bind fun p => dataAt e p.1 p.2 with
  | none => .err .ARGUMENT e
  | some (s, id) =>
    match e.eClass with
    | none => .stop .assertion
    | some ec =>
      if xlateShtype s.shdr.shType ≠ some .word ∨ (dataAt e i j).bind (fun p => p.2.dType) ≠ some .word then
        .err .ARGUMENT e
      else
        let msz := libelfMsize .word ec e.eVersion
        if msz = 0 then .stop .assertion
        else if id.dSize.toNat ≤ wrap (msz * ndx.toInt.toNat) then .err .ARGUMENT e
        else
          let p := idx.getD (0, 0)
          onData (fun _ _ id => id.store (4 * ndx.toInt.toNat) (toBytes env.host 4 xindex.toNat)) p.1 p.2 e

/-- A call of a `gelf_update_*` function. -/
inductive GElfOp
  | ehdr (s : Ehdr)
  | phdr (ndx : Int32) (s : Phdr)
  | shdr (i : Nat) (s : Shdr)
  | record (k : RecordKind) (i j : Nat) (ndx : Int32) (v : GElfRecord k)
  | symshndx (i j : Nat) (idx : Option (Nat × Nat)) (ndx : Int32) (v : GElfRecord .sym) (xindex : UInt32)

def GElfOp.step : GElfOp → Elf → Call Unit
  | ehdr s => gelfUpdateEhdr env s
  | phdr ndx s => gelfUpdatePhdr env ndx s
  | shdr i s => gelfUpdateShdr i s
  | record k i j ndx v => onData (fun e s d => gelfUpdate env.host k e s ndx v d) i j
  | symshndx i j idx ndx v xindex => gelfUpdateSymshndx env i j idx ndx v xindex

end Functions

/-! ## The assignments do not touch each other -/

section Independence

variable {σ ν : Type}

/-- Two assignments to different fields. -/
theorem kept_of_comm {a b : Assign ElfError σ ν} {f g : ν → σ → σ} (ha : ∀ v s, a.store v s = .ok () (f v s))
    (hb : ∀ v s, b.store v s = .ok () (g v s)) (hcomm : ∀ v s, f v (g v s) = g v (f v s)) :
    ∀ v s s', a.Holds v s → b.store v s = .ok () s' → a.Holds v s' := by
  intro v s s' hs hstore
  have hf : f v s = s := (Outcome.ok.inj ((ha v s).symm.trans hs)).2
  have hg : g v s = s' := (Outcome.ok.inj ((hb v s).symm.trans hstore)).2
  have hboth : f v s' = s' := by rw [← hg, hcomm, hf]
  rw [Assign.Holds, ha, hboth]

/-- Stores that always succeed, and store the same value when they are repeated. -/
theorem independent_of_comm {as : List (Assign ElfError σ ν)}
    (hstore : ∀ a ∈ as, ∃ f : ν → σ → σ, (∀ v s, a.store v s = .ok () (f v s)) ∧ ∀ v s, f v (f v s) = f v s)
    (hkept : as.Pairwise fun a b => ∀ v s s', a.Holds v s → b.store v s = .ok () s' → a.Holds v s') :
    Assign.Independent as := by
  refine ⟨?_, ?_, hkept⟩
  · intro a ha v s e s' h
    obtain ⟨f, hf, -⟩ := hstore a ha
    rw [hf] at h
    cases h
  · intro a ha v s s' h
    obtain ⟨f, hf, hidem⟩ := hstore a ha
    rw [hf] at h
    obtain ⟨-, rfl⟩ := Outcome.ok.inj h
    rw [Assign.Holds, hf, hidem]

/-- The copy of a whole structure. -/
theorem independent_singleton (f : ν → σ) : Assign.Independent [(assign fun v _ => f v : Assign ElfError σ ν)] :=
  independent_of_comm (List.forall_mem_singleton.mpr ⟨_, fun _ _ => rfl, fun _ _ => rfl⟩)
    (List.pairwise_singleton _ _)

theorem independent_ehdrAssigns (ec : ElfClass) : Assign.Independent (ehdrAssigns ec) := by
  cases ec with
  | elfclass64 => exact independent_singleton _
  | elfclass32 =>
    refine independent_of_comm ?_ ?_
    · simp only [ehdrAssigns, List.forall_mem_cons]
      repeat' apply And.intro
      all_goals first
        | exact ⟨_, fun _ _ => rfl, fun _ _ => rfl⟩
        | exact nofun
    · simp only [ehdrAssigns, List.pairwise_cons, List.forall_mem_cons]
      repeat' apply And.intro
      all_goals first
        | exact kept_of_comm (fun _ _ => rfl) (fun _ _ => rfl) (fun _ _ => rfl)
        | exact List.Pairwise.nil
        | exact nofun

theorem independent_phdrAssigns (ec : ElfClass) : Assign.Independent (phdrAssigns ec) := by
  cases ec with
  | elfclass64 => exact independent_singleton _
  | elfclass32 =>
    refine independent_of_comm ?_ ?_
    · simp only [phdrAssigns, List.forall_mem_cons]
      repeat' apply And.intro
      all_goals first
        | exact ⟨_, fun _ _ => rfl, fun _ _ => rfl⟩
        | exact nofun
    · simp only [phdrAssigns, List.pairwise_cons, List.forall_mem_cons]
      repeat' apply And.intro
      all_goals first
        | exact kept_of_comm (fun _ _ => rfl) (fun _ _ => rfl) (fun _ _ => rfl)
        | exact List.Pairwise.nil
        | exact nofun

theorem independent_shdrAssigns (ec : ElfClass) : Assign.Independent (shdrAssigns ec) := by
  cases ec with
  | elfclass64 => exact independent_singleton _
  | elfclass32 =>
    refine independent_of_comm ?_ ?_
    · simp only [shdrAssigns, List.forall_mem_cons]
      repeat' apply And.intro
      all_goals first
        | exact ⟨_, fun _ _ => rfl, fun _ _ => rfl⟩
        | exact nofun
    · simp only [shdrAssigns, List.pairwise_cons, List.forall_mem_cons]
      repeat' apply And.intro
      all_goals first
        | exact kept_of_comm (fun _ _ => rfl) (fun _ _ => rfl) (fun _ _ => rfl)
        | exact List.Pairwise.nil
        | exact nofun

end Independence

end LibElf.Toolchain
