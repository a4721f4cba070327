import LibElf.Elfutils.Translate

/-!
# Loads of the conversion functions

No conversion function loads a byte outside the range of its source, whatever the bytes say. The source is
the end of a memory here, so that a load behind it is a fault; the lemmas follow the definitions.

1. `NoLoad`, that a call does not end by a load, and its rules.
2. One lemma for each conversion function, and `xfct_noLoad` for the table.
-/

namespace LibElf.Elfutils

open Outcome
open Toolchain (ElfClass)

variable {n : Nat}

/-- A call does not end by a load outside its object. -/
def NoLoad {σ α : Type} (x : Outcome ElfError σ α) : Prop := x ≠ .stop .load

namespace NoLoad

variable {σ α β : Type} {x : Outcome ElfError σ α} {f : α → σ → Outcome ElfError σ β}

theorem ok {a : α} {s : σ} : NoLoad (.ok a s : Outcome ElfError σ α) := nofun

theorem bind (hx : NoLoad x) (hf : ∀ a s, x = .ok a s → NoLoad (f a s)) : NoLoad (x.bind f) := by
  intro h
  rcases bind_eq_stop.mp h with h | ⟨a, s, ha, h⟩
  · exact hx h
  · exact hf a s ha h

/-- A branch at a time. -/
theorem ite {p : Prop} [Decidable p] {y : Outcome ElfError σ α} (hx : p → NoLoad x) (hy : ¬ p → NoLoad y) :
    NoLoad (if p then x else y) := by
  split
  · next h => exact hx h
  · next h => exact hy h

end NoLoad

/-! ## Loads and copies -/

theorem read_noLoad {m : Mem n} {off len : Nat} (h : off + len ≤ n) :
    NoLoad (m.read off len : Outcome ElfError (Mem n) (List UInt8)) := by
  intro hr
  have hlt := (readAt_eq_stop.mp hr).2.2
  rw [m.length_eq] at hlt
  omega

theorem write_noLoad {m : Mem n} {off : Nat} {bs : List UInt8} :
    NoLoad (m.write off bs : Outcome ElfError (Mem n) Unit) := by
  intro hw
  cases (Mem.write_eq_stop.mp hw).1

theorem readWord_noLoad {host : ByteOrder} {m : Mem n} {off : Nat} (h : off + 4 ≤ n) :
    NoLoad (readWord host off m) :=
  NoLoad.bind (read_noLoad h) fun _ _ _ => NoLoad.ok

theorem memmove_noLoad {d s len : Nat} {m : Mem n} (hs : s + len ≤ n) : NoLoad (memmove d s len m) :=
  NoLoad.bind (read_noLoad hs) fun _ _ _ => write_noLoad

theorem memcpy_noLoad {d s len : Nat} {m : Mem n} (hs : s + len ≤ n) : NoLoad (memcpy d s len m) :=
  NoLoad.ite (fun _ => nofun) fun _ => memmove_noLoad hs

/-! ## Records -/

theorem cvtFields_noLoad (fs : List Field) : ∀ {d s : Nat} {m : Mem n}, s + packedSize fs ≤ n →
    NoLoad (cvtFields fs d s m) := by
  induction fs with
  | nil => intro d s m _; exact NoLoad.ok
  | cons f fs ih =>
    intro d s m hs
    rw [packedSize_cons] at hs
    refine NoLoad.bind (read_noLoad (by omega)) fun bs m _ => ?_
    exact NoLoad.bind write_noLoad fun _ m _ => ih (by omega)

theorem cvtRecords_noLoad (fs : List Field) (count : Nat) : ∀ {d s : Nat} {m : Mem n},
    s + count * packedSize fs ≤ n → NoLoad (cvtRecords fs count d s m) := by
  induction count with
  | zero => intro d s m _; exact NoLoad.ok
  | succ count ih =>
    intro d s m hs
    rw [Nat.add_mul] at hs
    refine NoLoad.bind (cvtFields_noLoad fs (by omega)) fun _ m _ => ih (by omega)

theorem forward_noLoad {a b : Nat} {f : List UInt8 → List UInt8} (count : Nat) : ∀ {d s : Nat} {m : Mem n},
    s + count * a ≤ n → NoLoad (forward f a b count d s m) := by
  induction count with
  | zero => intro d s m _; exact NoLoad.ok
  | succ count ih =>
    intro d s m hs
    rw [Nat.add_mul] at hs
    refine NoLoad.bind (read_noLoad (by omega)) fun bs m _ => ?_
    exact NoLoad.bind write_noLoad fun _ m _ => ih (by omega)

theorem backward_noLoad {a b d s : Nat} {f : List UInt8 → List UInt8} (count : Nat) : ∀ {m : Mem n},
    s + count * a ≤ n → NoLoad (backward f a b d s count m) := by
  induction count with
  | zero => intro m _; exact NoLoad.ok
  | succ count ih =>
    intro m hs
    rw [Nat.add_mul] at hs
    refine NoLoad.bind (read_noLoad (by omega)) fun bs m _ => ?_
    exact NoLoad.bind write_noLoad fun _ m _ => ih (by omega)

theorem cvtFundamental_noLoad {w d s len : Nat} {m : Mem n} (hs : s + len ≤ n) :
    NoLoad (cvtFundamental w d s len m) := by
  have hmul := Nat.div_mul_le_self len w
  unfold cvtFundamental
  by_cases hd : d < s
  · rw [if_pos hd]
    exact forward_noLoad _ (by omega)
  · rw [if_neg hd]
    exact backward_noLoad _ (by omega)

theorem cvtAt_noLoad (fs : List (Nat × Nat)) : ∀ {d s : Nat} {m : Mem n},
    (∀ f ∈ fs, s + f.1 + f.2 ≤ n) → NoLoad (cvtAt fs d s m) := by
  induction fs with
  | nil => intro d s m _; exact NoLoad.ok
  | cons f fs ih =>
    intro d s m hs
    refine NoLoad.bind (read_noLoad (hs f List.mem_cons_self)) fun bs m _ => ?_
    exact NoLoad.bind write_noLoad fun _ m _ => ih fun g hg => hs g (List.mem_cons_of_mem _ hg)

theorem cvtMove_noLoad (ec : ElfClass) (count : Nat) : ∀ {d s : Nat} {m : Mem n},
    s + count * moveSize ec ≤ n → NoLoad (cvtMove ec count d s m) := by
  have hin : ∀ f ∈ moveFields ec, f.1 + f.2 ≤ moveSize ec := by cases ec <;> decide
  induction count with
  | zero => intro d s m _; exact NoLoad.ok
  | succ count ih =>
    intro d s m hs
    rw [Nat.add_mul] at hs
    refine NoLoad.bind (cvtAt_noLoad _ fun f hf => ?_) fun _ m _ => ih (by omega)
    have := hin f hf
    omega

/-! ## Notes -/

theorem cvtRest_noLoad {d s len : Nat} {m : Mem n} (hs : s + len ≤ n) : NoLoad (cvtRest d s len m) :=
  NoLoad.ite (fun _ => memcpy_noLoad hs) fun _ => NoLoad.ok

/-- The walk over the notes keeps what is left of the source in the memory. -/
theorem cvtNotes_noLoad {host : ByteOrder} {align : Nat} {encode : Bool} (fuel : Nat) : ∀ {d s len : Nat} {m : Mem n},
    s + len ≤ n → d + len ≤ n → NoLoad (cvtNotes host align encode fuel d s len m) := by
  induction fuel with
  | zero => intro d s len m _ _; exact nofun
  | succ fuel ih =>
    intro d s len m hs hd
    have hhead : ∀ off, off + 4 ≤ 12 → 12 ≤ len → (if encode then s else d) + off + 4 ≤ n := by
      intro off hoff hlen
      split <;> omega
    have hsize : packedSize nhdrFields = 12 := rfl
    refine NoLoad.ite (fun _ => cvtRest_noLoad hs) fun hlen => ?_
    refine NoLoad.bind (cvtFields_noLoad _ (by omega)) fun _ m _ => ?_
    refine NoLoad.bind (readWord_noLoad (hhead 0 (by omega) (by omega))) fun namesz m _ => ?_
    refine NoLoad.ite (fun _ => cvtRest_noLoad hs) fun _ => ?_
    refine NoLoad.bind (readWord_noLoad (hhead 4 (by omega) (by omega))) fun descsz m _ => ?_
    refine NoLoad.ite (fun _ => cvtRest_noLoad hs) fun hnote => ?_
    refine NoLoad.bind (NoLoad.ite (fun _ => memcpy_noLoad (by omega)) fun _ => NoLoad.ok) fun _ m _ => ?_
    exact ih (by omega) (by omega)

/-! ## Versions -/

section Versions

variable {host : ByteOrder} {v : VersionType} {encode : Bool} {d s len : Nat}

/-- Where the links of a record are. -/
structure VersionType.LinksInside (v : VersionType) : Prop where
  aux : v.defAux + 4 ≤ packedSize v.defFields
  next : v.defNext + 4 ≤ packedSize v.defFields
  auxNext : v.auxNext + 4 ≤ packedSize v.auxFields

theorem cvtAux_noLoad (hv : v.LinksInside) (hs : s + len ≤ n) (hd : d + len ≤ n) (fuel : Nat) : ∀ {off : Nat} {m : Mem n},
    NoLoad (cvtAux host v encode d s len fuel off m) := by
  have hnext := hv.auxNext
  induction fuel with
  | zero => intro off m; exact nofun
  | succ fuel ih =>
    intro off m
    refine NoLoad.ite (fun _ => NoLoad.ok) fun hin => ?_
    refine NoLoad.bind (readWord_noLoad (by omega)) fun next m _ => ?_
    refine NoLoad.bind (cvtFields_noLoad _ (by omega)) fun _ m _ => ?_
    refine NoLoad.bind (readWord_noLoad (by omega)) fun decoded m _ => ?_
    refine NoLoad.bind (readWord_noLoad (by omega)) fun more m _ => ?_
    exact NoLoad.ite (fun _ => NoLoad.ok) fun _ => ih

theorem cvtDefs_noLoad (hv : v.LinksInside) (hs : s + len ≤ n) (hd : d + len ≤ n) (fuel : Nat) : ∀ {off : Nat} {m : Mem n},
    NoLoad (cvtDefs host v encode d s len fuel off m) := by
  have hlinks : v.defAux + 4 ≤ packedSize v.defFields ∧ v.defNext + 4 ≤ packedSize v.defFields := ⟨hv.aux, hv.next⟩
  have hside : ∀ off link, off + link + 4 ≤ len → (if encode then s else d) + off + link + 4 ≤ n := by
    intro off link hlink
    split <;> omega
  induction fuel with
  | zero => intro off m; exact nofun
  | succ fuel ih =>
    intro off m
    have hcvt : ∀ {m : Mem n}, ¬ (len < off ∨ len - off < packedSize v.defFields) →
        NoLoad (cvtFields v.defFields (d + off) (s + off) m) := fun hin => cvtFields_noLoad _ (by omega)
    refine NoLoad.ite (fun _ => NoLoad.ok) fun hin => ?_
    refine NoLoad.bind (NoLoad.ite (fun _ => NoLoad.ok) fun _ => hcvt hin) fun _ m _ => ?_
    refine NoLoad.bind (readWord_noLoad (hside _ _ (by omega))) fun aux m _ => ?_
    refine NoLoad.bind (cvtAux_noLoad hv hs hd _) fun returned m _ => ?_
    refine NoLoad.ite (fun _ => NoLoad.ok) fun _ => ?_
    refine NoLoad.bind (readWord_noLoad (hside _ _ (by omega))) fun next m _ => ?_
    refine NoLoad.bind (NoLoad.ite (fun _ => hcvt hin) fun _ => NoLoad.ok) fun _ m _ => ?_
    refine NoLoad.bind (readWord_noLoad (by omega)) fun more m _ => ?_
    exact NoLoad.ite (fun _ => NoLoad.ok) fun _ => ih

theorem cvtVersion_noLoad (hv : v.LinksInside) (hs : s + len ≤ n) (hd : d + len ≤ n) {m : Mem n} :
    NoLoad (cvtVersion host v encode d s len m) :=
  NoLoad.ite (fun _ => NoLoad.ok) fun _ =>
    NoLoad.bind (memmove_noLoad hs) fun _ _ _ => cvtDefs_noLoad hv hs hd _

end Versions

/-! ## GNU hash tables -/

/-- The words that are taken are taken from what is left, and what was taken is known. -/
theorem cvtWords_noLoad (w count : Nat) : ∀ {d s len : Nat} {m : Mem n}, s + len ≤ n →
    NoLoad (cvtWords w count d s len m) ∧ ∀ r m', cvtWords w count d s len m = .ok r m' →
      (r.1 = false → r.2 + count * w = len) := by
  induction count with
  | zero =>
    intro d s len m _
    refine ⟨NoLoad.ok, fun r m' h _ => ?_⟩
    cases h
    omega
  | succ count ih =>
    intro d s len m hs
    rw [cvtWords]
    by_cases hlen : len < w
    · rw [if_pos hlen]
      refine ⟨NoLoad.ok, fun r m' h hr => ?_⟩
      cases h
      cases hr
    · rw [if_neg hlen]
      constructor
      · refine NoLoad.bind (read_noLoad (by omega)) fun bs m _ => ?_
        exact NoLoad.bind write_noLoad fun _ m _ => (ih (by omega)).1
      · intro r m' h hr
        obtain ⟨bs, m₁, -, h⟩ := bind_eq_ok.mp h
        obtain ⟨_, m₂, -, h⟩ := bind_eq_ok.mp h
        have := (ih (by omega : s + w + (len - w) ≤ n)).2 r m' h hr
        rw [Nat.add_mul]
        omega

theorem cvtGnuhash_noLoad {host : ByteOrder} {encode : Bool} {d s len : Nat} {m : Mem n} (hs : s + len ≤ n)
    (hd : d + len ≤ n) : NoLoad (cvtGnuhash host encode d s len m) := by
  refine NoLoad.bind (cvtWords_noLoad 4 4 hs).1 fun r m hr => ?_
  refine NoLoad.ite (fun _ => NoLoad.ok) fun hfalse => ?_
  have hr2 := (cvtWords_noLoad 4 4 hs).2 r m hr (by simpa using hfalse)
  refine NoLoad.bind (readWord_noLoad (by split <;> omega)) fun bw m _ => ?_
  refine NoLoad.bind (cvtWords_noLoad 8 bw (by omega)).1 fun r' m' hr' => ?_
  refine NoLoad.ite (fun _ => NoLoad.ok) fun hfalse' => ?_
  have hr2' := (cvtWords_noLoad 8 bw (by omega)).2 r' m' hr' (by simpa using hfalse')
  exact NoLoad.bind (cvtWords_noLoad 4 _ (by omega)).1 fun _ _ _ => NoLoad.ok

/-! ## The table -/

theorem cvtChdr_noLoad {ec : ElfClass} {d s len : Nat} {m : Mem n} (hs : s + len ≤ n) :
    NoLoad (cvtChdr ec d s len m) := by
  refine NoLoad.ite (fun _ => NoLoad.ok) fun _ => ?_
  refine NoLoad.bind (NoLoad.ite (fun _ => memmove_noLoad hs) fun _ => NoLoad.ok) fun _ m _ => ?_
  exact NoLoad.ite (fun hle => cvtFields_noLoad _ (by omega)) fun _ => NoLoad.ok

/-- No conversion function loads behind its source. -/
theorem xfct_noLoad {host : ByteOrder} {ec : ElfClass} {t : ElfType} {encode : Bool} {d s len : Nat} {m : Mem n}
    (hs : s + len ≤ n) (hd : d + len ≤ n) : NoLoad (xfct host ec t encode d s len m) := by
  have hplain : NoLoad (if len = 0 then .ok () m else memmove d s len m) :=
    NoLoad.ite (fun _ => NoLoad.ok) fun _ => memmove_noLoad hs
  unfold xfct
  cases fundamentalSize ec t with
  | some w => exact cvtFundamental_noLoad hs
  | none =>
    cases recordFields ec t with
    | some fs =>
      have := Nat.div_mul_le_self len (packedSize fs)
      exact cvtRecords_noLoad fs _ (by omega)
    | none =>
      have := Nat.div_mul_le_self len (moveSize ec)
      have hdef : verdef.LinksInside := ⟨by decide, by decide, by decide⟩
      have hneed : verneed.LinksInside := ⟨by decide, by decide, by decide⟩
      simp only
      split
      · exact cvtVersion_noLoad hdef hs hd
      · exact cvtVersion_noLoad hdef hs hd
      · exact cvtVersion_noLoad hneed hs hd
      · exact cvtVersion_noLoad hneed hs hd
      · exact cvtNotes_noLoad _ hs hd
      · exact cvtNotes_noLoad _ hs hd
      · exact cvtMove_noLoad ec _ (by omega)
      · exact cvtChdr_noLoad hs
      · cases ec
        · exact cvtFundamental_noLoad hs
        · exact cvtGnuhash_noLoad hs hd
      · exact hplain

end LibElf.Elfutils
