import LibElf.Toolchain.GElfHeader
import LibElf.Toolchain.SessionRun

/-!
# The program header table as an array

`gelf_update_phdr` stores into the table that `gelf_getphdr` reads, but does not read it in.

1. `ProperStore`, what a store into an array does.
2. `gelfUpdatePhdr_eq` and `gelfGetphdr_eq`, the two calls on a descriptor whose count is known.
3. `phdr_store_iff`: the update is a proper store exactly where it does not reach a table that is not there.
-/

namespace LibElf.Toolchain

open Outcome

variable {env : Env} {ec : ElfClass} {e e₁ : Elf} {phnum : Nat} {ndx : Int32} {v : Phdr}

/-- A program header whose values the class can hold. -/
def Phdr.Representable (ec : ElfClass) (p : Phdr) : Prop :=
  ec = .elfclass32 → ∀ x ∈ [p.pOffset, p.pVaddr, p.pPaddr, p.pFilesz, p.pMemsz, p.pAlign], x.toNat < 2 ^ 32

def InTable (phnum : Nat) (ndx : Int32) : Prop := 0 ≤ ndx.toInt ∧ ndx.toInt.toNat < phnum

instance (phnum : Nat) (ndx : Int32) : Decidable (InTable phnum ndx) := inferInstanceAs (Decidable (_ ∧ _))

variable (env e phnum ndx v) in
/-- A store into an array of `phnum` program headers. -/
structure ProperStore : Prop where
  /-- It succeeds exactly where the index is in the table. -/
  succeeds : (∃ e', gelfUpdatePhdr env ndx v e = .ok () e') ↔ InTable phnum ndx
  /-- What was stored is read back. -/
  stored : ∀ e', gelfUpdatePhdr env ndx v e = .ok () e' → (gelfGetphdr env ndx e').value? = some v
  /-- The other entries stay. -/
  kept : ∀ e', gelfUpdatePhdr env ndx v e = .ok () e' → ∀ j ≠ ndx,
    (gelfGetphdr env j e').value? = (gelfGetphdr env j e).value?
  /-- No access misses the table. -/
  safe : ∀ f, gelfUpdatePhdr env ndx v e ≠ .stop f

/-! ## The two calls -/

theorem masked_of_lt {x : UInt64} (h : x.toNat < 2 ^ 32) : x &&& 0xFFFFFFFF = x ∧ ¬ 0xFFFFFFFF < x := by
  constructor
  · apply UInt64.toNat_inj.mp
    rw [UInt64.toNat_and]
    exact (Nat.and_two_pow_sub_one_eq_mod x.toNat 32).trans (Nat.mod_eq_of_lt h)
  · intro hlt
    have hlt : 0xFFFFFFFF < x.toNat := hlt
    omega

/-- The assignments replace a whole header by one that the class can hold. -/
theorem run_phdrAssigns (hv : v.Representable ec) (p : Phdr) :
    (Assign.run .RANGE (phdrAssigns ec) v p : Outcome ElfError Phdr Unit) = .ok () v := by
  cases ec with
  | elfclass64 => rfl
  | elfclass32 =>
    have hfields := hv rfl
    simp only [List.forall_mem_cons] at hfields
    obtain ⟨hoff, hvaddr, hpaddr, hfilesz, hmemsz, halign, -⟩ := hfields
    simp [phdrAssigns, Assign.run, assign, copyU32, (masked_of_lt hoff).1, (masked_of_lt hvaddr).1,
      (masked_of_lt hpaddr).1, (masked_of_lt hfilesz).1, (masked_of_lt hmemsz).1, (masked_of_lt halign).1,
      (masked_of_lt hoff).2, (masked_of_lt hvaddr).2, (masked_of_lt hpaddr).2, (masked_of_lt hfilesz).2,
      (masked_of_lt hmemsz).2, (masked_of_lt halign).2]

/-- The count is read with the header, which stays. -/
theorem getphdrnum_ok (hnum : elfGetphdrnum env e = .ok phnum e₁) : ∃ ec h, e.eClass = some ec ∧
    libelfEhdr env ec false e = .ok h e₁ ∧ e₁.eClass = some ec ∧ e₁.eVersion = evCurrent ∧ e₁.eEhdr = some h ∧
    e₁.eCmd = e.eCmd ∧ e₁.eNphdr = phnum := by
  unfold elfGetphdrnum withClass at hnum
  cases hc : e.eClass with
  | none =>
    rw [hc] at hnum
    cases hnum
  | some ec =>
    rw [hc] at hnum
    obtain ⟨h, t, hehdr, hrest⟩ := bind_eq_ok.mp hnum
    obtain ⟨hclass, hver, hh, hsame⟩ := libelfEhdr_ok hehdr
    obtain ⟨rfl, rfl⟩ := Outcome.ok.inj hrest
    exact ⟨ec, h, rfl, hehdr, hclass, hver, hh, hsame.cmd, rfl⟩

/-- The header does not bring in the table. -/
theorem libelfEhdr_ePhdr {allocate : Bool} {h : Ehdr} (hx : libelfEhdr env ec allocate e = .ok h e₁) :
    e₁.ePhdr = e.ePhdr := by
  unfold libelfEhdr at hx
  split at hx
  · cases hx
  split at hx
  · cases hx
  extract_lets e₀ at hx
  split at hx
  · rw [← (Outcome.ok.inj hx).2]
    rfl
  split at hx
  · cases hx
  split at hx
  · rw [← (Outcome.ok.inj hx).2]
    rfl
  obtain ⟨bs, t, hread, hrest⟩ := bind_eq_ok.mp hx
  obtain ⟨-, -, rfl⟩ := readAt_eq_ok.mp hread
  extract_lets hdr e₂ at hrest
  split at hrest
  · cases hrest
  split at hrest
  · obtain ⟨u, t, hload, hlast⟩ := bind_eq_ok.mp hrest
    obtain ⟨-, s, p, n, x, -, -, -, -, -, rfl⟩ := loadExtended_ok hload
    rw [← (Outcome.ok.inj hlast).2]
    rfl
  · rw [← (Outcome.ok.inj hrest).2]
    rfl

/-- The update on a descriptor with `phnum` program headers. -/
theorem gelfUpdatePhdr_eq (hnum : elfGetphdrnum env e = .ok phnum e₁) (hmode : e.eCmd ≠ .read)
    (hv : ∀ ec, e.eClass = some ec → v.Representable ec) : gelfUpdatePhdr env ndx v e =
      if ndx.toInt < 0 ∨ phnum < ndx.toInt.toNat then .err .ARGUMENT e₁
      else
        match e₁.ePhdr with
        | none => .stop .null
        | some ps =>
          match ps[ndx.toInt.toNat]? with
          | none => .stop .store
          | some _ => .ok () ((e₁.setFlags { e₁.eFlags with dirty := true }).setPhdr
              (some (ps.set ndx.toInt.toNat v))) := by
  obtain ⟨ec, h, hc, -, hclass, hver, hh, hcmd, -⟩ := getphdrnum_ok hnum
  unfold gelfUpdatePhdr withClass
  rw [hc]
  simp only [hnum]
  rw [hcmd, if_neg hmode, libelfEhdr_cached hclass hver hh, bind_ok]
  split
  · rfl
  · cases e₁.ePhdr with
    | none => rfl
    | some ps =>
      simp only
      cases ps[ndx.toInt.toNat]? with
      | none => rfl
      | some p =>
        simp only
        rw [run_phdrAssigns (hv ec hc)]
        rfl

/-- The table of a descriptor is read. -/
theorem gelfGetphdr_eq {ps : List Phdr} (hnum : elfGetphdrnum env e = .ok phnum e₁) (hps : e₁.ePhdr = some ps)
    (hlen : ps.length = phnum) (j : Int32) :
    (gelfGetphdr env j e).value? = if j.toInt < 0 then none else ps[j.toInt.toNat]? := by
  obtain ⟨ec, h, hc, -, hclass, hver, hh, -, -⟩ := getphdrnum_ok hnum
  unfold gelfGetphdr withClass
  rw [hc]
  simp only [hnum]
  split
  · rfl
  · split
    · next hge =>
      rw [List.getElem?_eq_none (hlen ▸ hge)]
      rfl
    · next hlt =>
      have hget : getphdr env ec e₁ = .ok ps e₁ := by
        unfold getphdr
        rw [hps]
      rw [libelfEhdr_cached hclass hver hh, bind_ok, hget, bind_ok]
      obtain ⟨p, hp⟩ : ∃ p, ps[j.toInt.toNat]? = some p :=
        ⟨_, List.getElem?_eq_getElem (by rw [hlen]; exact Nat.lt_of_not_le hlt)⟩
      simp only [hp]
      rfl

/-! ## The store -/

/-- A header that is there gives the count. -/
theorem getphdrnum_cached (hc : e.eClass = some ec) (hver : e.eVersion = evCurrent) {h : Ehdr}
    (hh : e.eEhdr = some h) : elfGetphdrnum env e = .ok e.eNphdr e := by
  unfold elfGetphdrnum withClass
  rw [hc]
  simp only
  rw [libelfEhdr_cached hc hver hh, bind_ok]

/-- A store into a table that is in memory, at an index of the table. -/
theorem properStore_of_loaded {ps : List Phdr} {h : Ehdr} (hc : e.eClass = some ec) (hver : e.eVersion = evCurrent)
    (hh : e.eEhdr = some h) (hps : e.ePhdr = some ps) (hlen : ps.length = e.eNphdr) (hmode : e.eCmd ≠ .read)
    (hv : v.Representable ec) (hin : InTable e.eNphdr ndx) : ProperStore env e e.eNphdr ndx v := by
  obtain ⟨hpos, hlt⟩ := hin
  have hnum : elfGetphdrnum env e = .ok e.eNphdr e := getphdrnum_cached hc hver hh
  have hclass : ∀ ec', e.eClass = some ec' → v.Representable ec' := by
    intro ec' hc'
    obtain rfl := Option.some.inj (hc.symm.trans hc')
    exact hv
  obtain ⟨p, hp⟩ : ∃ p, ps[ndx.toInt.toNat]? = some p :=
    ⟨_, List.getElem?_eq_getElem (by rw [hlen]; exact hlt)⟩
  have hupd : gelfUpdatePhdr env ndx v e =
      .ok () ((e.setFlags { e.eFlags with dirty := true }).setPhdr (some (ps.set ndx.toInt.toNat v))) := by
    rw [gelfUpdatePhdr_eq hnum hmode hclass, if_neg (not_or.mpr ⟨Int.not_lt.mpr hpos, Nat.not_lt_of_lt hlt⟩), hps]
    simp only
    rw [hp]
  -- what the getter finds afterwards
  have hget : ∀ e', gelfUpdatePhdr env ndx v e = .ok () e' → ∀ j : Int32, (gelfGetphdr env j e').value? =
      if j.toInt < 0 then none else (ps.set ndx.toInt.toNat v)[j.toInt.toNat]? := by
    intro e' he' j
    have heq := (Outcome.ok.inj (hupd.symm.trans he')).2
    have hnum' : elfGetphdrnum env e' = .ok e.eNphdr e' := by
      rw [← heq]
      exact getphdrnum_cached hc hver hh
    have hps' : e'.ePhdr = some (ps.set ndx.toInt.toNat v) := by
      rw [← heq]
      rfl
    exact gelfGetphdr_eq hnum' hps' (by rw [List.length_set]; exact hlen) j
  refine ⟨iff_of_true ⟨_, hupd⟩ ⟨hpos, hlt⟩, fun e' he' => ?_, fun e' he' j hj => ?_, fun f hf => ?_⟩
  · rw [hget e' he', if_neg (Int.not_lt.mpr hpos), List.getElem?_set_self (by rw [hlen]; exact hlt)]
  · rw [hget e' he', gelfGetphdr_eq hnum hps hlen]
    split
    · rfl
    · next hjpos =>
      -- indices that differ stay apart as positions
      have hne : ndx.toInt.toNat ≠ j.toInt.toNat := by
        intro heq
        refine hj (Int32.toInt_inj.mp ?_)
        omega
      exact List.getElem?_set_ne hne
  · rw [hupd] at hf
    cases hf

/-- The update is a proper store exactly where the index is beyond the count or negative, or in a table that is in
memory. -/
theorem phdr_store_iff {c : Cmd} {im : Image} {e₀ : Elf} {ops : List Op}
    (hopen : openObject env c im = .ok (some e₀)) (hrun : runOps (Op.step env) e₀ ops = .ok e)
    (hmode : e.eCmd ≠ .read) (hnum : elfGetphdrnum env e = .ok phnum e₁)
    (hv : ∀ ec, e.eClass = some ec → v.Representable ec) :
    ProperStore env e phnum ndx v ↔
      ndx.toInt < 0 ∨ phnum < ndx.toInt.toNat ∨ ndx.toInt.toNat < phnum ∧ e.ePhdr ≠ none := by
  have hw := wf_run hopen hrun
  have hupd := @gelfUpdatePhdr_eq env e e₁ phnum ndx v hnum hmode hv
  obtain ⟨ec, h, hc, hehdr, -, -, -, -, hcount⟩ := getphdrnum_ok hnum
  by_cases hout : ndx.toInt < 0 ∨ phnum < ndx.toInt.toNat
  · -- the index is refused
    rw [if_pos hout] at hupd
    have hrefused : ∀ e', gelfUpdatePhdr env ndx v e ≠ .ok () e' := by
      intro e' h'
      rw [hupd] at h'
      cases h'
    refine iff_of_true ⟨iff_of_false (fun ⟨e', h'⟩ => hrefused e' h') fun hin => ?_,
      fun e' h' => absurd h' (hrefused e'), fun e' h' => absurd h' (hrefused e'), fun f h' => ?_⟩ (or_assoc.mp (.inl hout))
    · obtain ⟨hpos, hlt⟩ := hin
      omega
    · rw [hupd] at h'
      cases h'
  · rw [if_neg hout, libelfEhdr_ePhdr hehdr] at hupd
    obtain ⟨hpos, hle⟩ := not_or.mp hout
    have hfault : (∃ f, gelfUpdatePhdr env ndx v e = .stop f) → ¬ ProperStore env e phnum ndx v :=
      fun ⟨f, hf⟩ hstore => hstore.safe f hf
    cases hps : e.ePhdr with
    | none =>
      -- a null pointer is dereferenced
      rw [hps] at hupd
      refine iff_of_false (hfault ⟨_, hupd⟩) ?_
      rintro (h' | h' | h')
      · exact hpos h'
      · exact hle h'
      · exact h'.2 rfl
    | some ps =>
      have hopened : e.eEhdr ≠ none := fun hnone => by
        rw [(hw.fresh hnone).2] at hps
        cases hps
      -- the header was there, so the count is that of the descriptor
      obtain ⟨h', hh'⟩ := Option.ne_none_iff_exists'.mp hopened
      have hcached : libelfEhdr env ec false e = .ok h' e := libelfEhdr_cached hc (hw.opened hopened) hh' false
      obtain ⟨-, rfl⟩ := Outcome.ok.inj (hehdr.symm.trans hcached)
      subst hcount
      have hlen := hw.phdr ps hps
      by_cases hlt : ndx.toInt.toNat < e₁.eNphdr
      · refine iff_of_true (properStore_of_loaded hc (hw.opened hopened) hh' hps hlen hmode (hv ec hc)
          ⟨Int.not_lt.mp hpos, hlt⟩) (.inr (.inr ⟨hlt, nofun⟩))
      · -- the index is the count, and the store is behind the table
        have hnone : ps[ndx.toInt.toNat]? = none := List.getElem?_eq_none (by rw [hlen]; exact Nat.le_of_not_lt hlt)
        rw [hps] at hupd
        simp only [hnone] at hupd
        refine iff_of_false (hfault ⟨_, hupd⟩) ?_
        rintro (h' | h' | h')
        · exact hpos h'
        · exact hle h'
        · exact hlt h'.1

def twoPhdrs : List Op := [.newehdr .elfclass64, .newphdr 2]

/-- A header for entry 1. -/
theorem phdr_stored : ∃ e₀ e e₁, openObject plainEnv .write noImage = .ok (some e₀) ∧
    runOps (Op.step plainEnv) e₀ twoPhdrs = .ok e ∧ elfGetphdrnum plainEnv e = .ok 2 e₁ ∧
    ProperStore plainEnv e 2 1 { Phdr.zero with pType := 1 } := by
  have hrun : ∃ e₀ e e₁, openObject plainEnv .write noImage = .ok (some e₀) ∧
      runOps (Op.step plainEnv) e₀ twoPhdrs = .ok e ∧ elfGetphdrnum plainEnv e = .ok 2 e₁ ∧ e.eCmd = .write ∧
      e.ePhdr ≠ none ∧ e.eClass = some .elfclass64 := ⟨_, _, _, rfl, rfl, rfl, rfl, nofun, rfl⟩
  obtain ⟨e₀, e, e₁, hopen, hops, hnum, hcmd, hps, hc⟩ := hrun
  have hfits : ∀ ec, e.eClass = some ec → Phdr.Representable ec { Phdr.zero with pType := 1 } := by
    intro ec hec
    obtain rfl := Option.some.inj (hc.symm.trans hec)
    exact nofun
  exact ⟨e₀, e, e₁, hopen, hops, hnum, (phdr_store_iff hopen hops (by rw [hcmd]; nofun) hnum hfits).mpr
    (.inr (.inr ⟨by decide, hps⟩))⟩

/-- Entry 2 of two is stored behind the table. -/
theorem phdr_behind_table : ∃ e₀ e e₁, openObject plainEnv .write noImage = .ok (some e₀) ∧
    runOps (Op.step plainEnv) e₀ twoPhdrs = .ok e ∧ elfGetphdrnum plainEnv e = .ok 2 e₁ ∧
    gelfUpdatePhdr plainEnv 2 Phdr.zero e = .stop .store ∧ ¬ ProperStore plainEnv e 2 2 Phdr.zero :=
  ⟨_, _, _, rfl, rfl, rfl, rfl, fun h => h.safe .store rfl⟩

end LibElf.Toolchain
