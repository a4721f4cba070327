import LibElf.Toolchain.GElf
import LibElf.Toolchain.SessionRun

/-!
# Updates of records are lossless, or refused

An update that succeeds should be read back as it was, and leave the other records. The check of `r_info`
has a bound of 56 bits for a symbol index that is stored in 24.

1. `Narrowing.widen_narrow_iff`: which checked values survive the class 32 structure.
2. `gelfGet_update_iff` and `gelfGet_update_other`, what the functions read after an update.
3. `Lossless` and `gelf_update_lossless_iff`.
-/

namespace LibElf.Toolchain

open Outcome

/-! ## Values -/

section Values

variable {x w : Nat}

theorem Narrowing.fits_u32_iff : u32.fits x = true ↔ x < 2 ^ 32 := by
  have hfits : u32.fits x = true ↔ x ≤ 0xFFFFFFFF := by simp [fits]
  rw [hfits]
  omega

theorem Narrowing.fits_s32_iff (hx : x < 2 ^ 64) :
    s32.fits x = true ↔ x < 2 ^ 31 ∨ 2 ^ 64 - 2 ^ 31 ≤ x := by
  have hfits : s32.fits x = true ↔ signed64 x ≤ 0x7FFFFFFF ∧ -0x80000000 ≤ signed64 x := by
    simp [fits]
  rw [hfits, signed64]
  split <;> omega

theorem Narrowing.fits_info_iff (hx : x < 2 ^ 64) : info.fits x = true ↔ x % 2 ^ 32 < 2 ^ 8 := by
  have hfits : info.fits x = true ↔ elf64RSym x ≤ elf32RSym (2 ^ 64 - 1) ∧ elf64RType x ≤ elf32RType (2 ^ 32 - 1) := by
    simp [fits]
  rw [hfits, elf64RSym, elf64RType, elf32RSym, elf32RType]
  omega

/-- A value that passes the check is read back as it was; a symbol index only when it has 24 bits. -/
theorem Narrowing.widen_narrow_iff (how : Narrowing) (hplain : how = .plain → x < 256 ^ w)
    (hwide : how ≠ .plain → w = 4 ∧ x < 2 ^ 64) (hfit : how.fits x = true) :
    how.widen (how.narrow x % 256 ^ w) = x ↔ (how = .info → elf64RSym x < 2 ^ 24) := by
  cases how with
  | plain =>
    rw [narrow, widen, Nat.mod_eq_of_lt (hplain rfl)]
    exact iff_of_true rfl nofun
  | u32 =>
    obtain ⟨rfl, hx⟩ := hwide nofun
    rw [fits_u32_iff] at hfit
    rw [narrow, widen]
    refine iff_of_true ?_ nofun
    omega
  | s32 =>
    obtain ⟨rfl, hx⟩ := hwide nofun
    rw [fits_s32_iff hx] at hfit
    refine iff_of_true ?_ nofun
    have hcut : s32.narrow x % 256 ^ 4 = x % 2 ^ 32 := by
      rw [narrow]
      omega
    rw [hcut, widen]
    split <;> omega
  | info =>
    obtain ⟨rfl, hx⟩ := hwide nofun
    rw [fits_info_iff hx] at hfit
    -- the packed word keeps 24 bits of the symbol index
    have hcut : info.narrow x % 256 ^ 4 = x / 2 ^ 32 % 2 ^ 24 * 2 ^ 8 + x % 2 ^ 32 := by
      simp only [narrow, elf32RInfo, elf64RSym, elf64RType]
      omega
    have hread : info.widen (info.narrow x % 256 ^ 4) = x / 2 ^ 32 % 2 ^ 24 * 2 ^ 32 + x % 2 ^ 32 := by
      simp only [hcut, widen, elf64RInfo, elf32RSym, elf32RType]
      omega
    rw [hread, elf64RSym]
    constructor
    · intro h _
      omega
    · intro h
      have := h rfl
      omega

/-- The values that some class 32 field is read as. -/
theorem Narrowing.holdable_iff (how : Narrowing) (hplain : how = .plain → x < 256 ^ w)
    (hwide : how ≠ .plain → w = 4 ∧ x < 2 ^ 64) :
    (∃ y, y < 256 ^ w ∧ how.widen y = x) ↔ how.fits x = true ∧ (how = .info → elf64RSym x < 2 ^ 24) := by
  constructor
  · rintro ⟨y, hy, rfl⟩
    cases how with
    | plain => exact ⟨rfl, nofun⟩
    | u32 =>
      obtain ⟨rfl, -⟩ := hwide nofun
      exact ⟨fits_u32_iff.mpr hy, nofun⟩
    | s32 =>
      obtain ⟨rfl, hx⟩ := hwide nofun
      refine ⟨(fits_s32_iff hx).mpr ?_, nofun⟩
      rw [widen]
      split <;> omega
    | info =>
      obtain ⟨rfl, hx⟩ := hwide nofun
      have hread : info.widen y = y / 2 ^ 8 * 2 ^ 32 + y % 2 ^ 8 := by
        simp only [widen, elf64RInfo, elf32RSym, elf32RType]
        omega
      rw [fits_info_iff hx, hread, elf64RSym]
      constructor
      · omega
      · intro _
        omega
  · rintro ⟨hfit, hsym⟩
    exact ⟨how.narrow x % 256 ^ w, Nat.mod_lt _ (Nat.pow_pos (by decide)),
      (widen_narrow_iff how hplain hwide hfit).mpr hsym⟩

theorem getD_lt_of_fits {fs : List Field} : ∀ {vs : List Nat}, fits fs vs = true → ∀ i,
    i < fs.length → vs.getD i 0 < 256 ^ (fs.getD i wordField).width := by
  induction fs with
  | nil => exact fun _ i hi => absurd hi (Nat.not_lt_zero i)
  | cons f fs ih =>
    intro vs h i hi
    cases vs with
    | nil => cases h
    | cons v vs =>
      simp only [fits, Bool.and_eq_true, decide_eq_true_eq] at h
      cases i with
      | zero => exact h.1
      | succ i => exact ih h.2 i (Nat.lt_of_succ_lt_succ hi)

end Values

section Records

variable {host : ByteOrder} {k : RecordKind}

/-- The class 32 structure has a field for every value, as far as the checks go. -/
def Accepted (k : RecordKind) (v : GElfRecord k) : Prop := ∀ c ∈ k.copies, c.how.fits (v.vals.getD c.src 0) = true

/-- The symbol index of a relocation has 24 bits. -/
def SymFits (k : RecordKind) (v : GElfRecord k) : Prop :=
  ∀ c ∈ k.copies, c.how = .info → elf64RSym (v.vals.getD c.src 0) < 2 ^ 24

/-- Some class 32 structure is read as the record. -/
def Representable (k : RecordKind) (v : GElfRecord k) : Prop :=
  ∀ c ∈ k.copies, ∃ y, y < 256 ^ (k.field32 c.dst).width ∧ c.how.widen y = v.vals.getD c.src 0

/-- The widths that the assignments of each kind expect. -/
theorem copies_width (k : RecordKind) : ∀ c ∈ k.copies,
    (c.how = .plain → (k.field32 c.dst).width = (k.fields.getD c.src wordField).width) ∧
      (c.how ≠ .plain → (k.field32 c.dst).width = 4 ∧ (k.fields.getD c.src wordField).width = 8) := by
  cases k <;> decide

theorem src_lt {c : FieldCopy} (hc : c ∈ k.copies) : c.src < k.fields.length := by
  have hmem := List.mem_map_of_mem (f := FieldCopy.src) hc
  rw [copies_src] at hmem
  exact List.mem_range.mp hmem

variable {v : GElfRecord k}

theorem vals_plain {c : FieldCopy} (hc : c ∈ k.copies) (h : c.how = .plain) :
    v.vals.getD c.src 0 < 256 ^ (k.field32 c.dst).width := by
  rw [(copies_width k c hc).1 h]
  exact getD_lt_of_fits v.fits_vals c.src (src_lt hc)

theorem vals_wide {c : FieldCopy} (hc : c ∈ k.copies) (h : c.how ≠ .plain) :
    (k.field32 c.dst).width = 4 ∧ v.vals.getD c.src 0 < 2 ^ 64 := by
  obtain ⟨hdst, hsrc⟩ := (copies_width k c hc).2 h
  have hlt := getD_lt_of_fits v.fits_vals c.src (src_lt hc)
  rw [hsrc] at hlt
  exact ⟨hdst, hlt⟩

theorem representable_iff : Representable k v ↔ Accepted k v ∧ SymFits k v := by
  have hone : ∀ c ∈ k.copies, (∃ y, y < 256 ^ (k.field32 c.dst).width ∧ c.how.widen y = v.vals.getD c.src 0) ↔ _ :=
    fun c hc => Narrowing.holdable_iff c.how (vals_plain hc) (vals_wide hc)
  constructor
  · intro h
    exact ⟨fun c hc => ((hone c hc).mp (h c hc)).1, fun c hc => ((hone c hc).mp (h c hc)).2⟩
  · rintro ⟨hacc, hsym⟩ c hc
    exact (hone c hc).mpr ⟨hacc c hc, hsym c hc⟩

/-! ## Reads after an update -/

theorem length_setAll (g : FieldCopy → Nat) (cs : List FieldCopy) : ∀ dst : List Nat,
    (setAll g cs dst).length = dst.length := by
  induction cs with
  | nil => exact fun _ => rfl
  | cons c cs ih =>
    intro dst
    show (setAll g cs (dst.set c.src (g c))).length = _
    rw [ih, List.length_set]

theorem getElem?_setAll (g : FieldCopy → Nat) (cs : List FieldCopy) : ∀ dst : List Nat,
    (cs.map FieldCopy.src).Nodup → (∀ c ∈ cs, c.src < dst.length) →
    (∀ c ∈ cs, (setAll g cs dst)[c.src]? = some (g c)) ∧
      ∀ i, i ∉ cs.map FieldCopy.src → (setAll g cs dst)[i]? = dst[i]? := by
  induction cs with
  | nil => exact fun _ _ _ => ⟨fun _ hc => (nomatch hc), fun _ _ => rfl⟩
  | cons c cs ih =>
    intro dst hnodup hlt
    rw [List.map_cons, List.nodup_cons] at hnodup
    obtain ⟨hset, hrest⟩ := ih (dst.set c.src (g c)) hnodup.2
      (fun b hb => by rw [List.length_set]; exact hlt b (List.mem_cons_of_mem c hb))
    have hcons : setAll g (c :: cs) dst = setAll g cs (dst.set c.src (g c)) := rfl
    rw [hcons]
    constructor
    · intro b hb
      rcases List.mem_cons.mp hb with rfl | hb
      · rw [hrest _ hnodup.1, List.getElem?_set_self (hlt b List.mem_cons_self)]
      · exact hset b hb
    · intro i hi
      rw [List.map_cons, List.mem_cons, not_or] at hi
      rw [hrest i hi.2, List.getElem?_set_ne (Ne.symm hi.1)]

/-- All fields are set, so the list is given by their values. -/
theorem setAll_eq_iff (g : FieldCopy → Nat) :
    setAll g k.copies (List.replicate k.fields.length 0) = v.vals ↔
      ∀ c ∈ k.copies, g c = v.vals.getD c.src 0 := by
  have hlen : v.vals.length = k.fields.length := length_of_fits v.fits_vals
  have hnodup : (k.copies.map FieldCopy.src).Nodup := by
    rw [copies_src]
    exact List.nodup_range
  obtain ⟨hset, -⟩ := getElem?_setAll g k.copies (List.replicate k.fields.length 0) hnodup
    (fun c hc => by rw [List.length_replicate]; exact src_lt hc)
  constructor
  · intro h c hc
    have hget := hset c hc
    rw [h] at hget
    rw [List.getD_eq_getElem?_getD, hget]
    rfl
  · intro h
    apply List.ext_getElem?
    intro i
    by_cases hi : i < k.fields.length
    · have hmem : i ∈ k.copies.map FieldCopy.src := by
        rw [copies_src]
        exact List.mem_range.mpr hi
      obtain ⟨c, hc, rfl⟩ := List.mem_map.mp hmem
      rw [hset c hc, h c hc, List.getD_eq_getElem?_getD, List.getElem?_eq_getElem (by omega)]
      rfl
    · rw [List.getElem?_eq_none, List.getElem?_eq_none (by omega)]
      rw [length_setAll, List.length_replicate]
      omega

end Records

section Updates

variable {host : ByteOrder} {k : RecordKind} {e : Elf} {s : Scn} {ndx : Int32} {v : GElfRecord k} {d d' : ElfData}
  {ec : ElfClass} {base : Nat}

theorem msize_fields (k : RecordKind) : msize k.type .elfclass64 = naturalSize k.fields := by
  cases k <;> decide

/-- What a store of an update leaves: the size of the buffer, and the bytes outside the record. -/
def Around (d : ElfData) (base size : Nat) (d' : ElfData) : Prop :=
  d'.dSize = d.dSize ∧ (∀ o l, d'.Room o l ↔ d.Room o l) ∧
    ∀ o l, ElfData.Disjoint base size o l → d'.load o l = d.load o l

theorem around_store (hv : v.vals.length = k.fields.length) :
    ∀ a ∈ k.assigns host v.padding ec base, ∀ d₁ d₂,
    Around d base (msize k.type ec) d₁ → a.store v.vals d₁ = .ok () d₂ → Around d base (msize k.type ec) d₂ := by
  intro a ha d₁ d₂ ⟨hsize, hroom, hload⟩ hstore
  have hinside : ∃ off bs, a.store v.vals d₁ = d₁.store off bs ∧ base ≤ off ∧
      off + bs.length ≤ base + msize k.type ec := by
    cases ec with
    | elfclass64 =>
      obtain rfl := List.mem_singleton.mp ha
      refine ⟨base, _, rfl, Nat.le_refl base, ?_⟩
      rw [length_structBytes host v.length_padding hv, msize_fields]
    | elfclass32 =>
      obtain ⟨c, hc, rfl⟩ := List.mem_map.mp ha
      have hin := copies_inside k c hc
      refine ⟨_, _, rfl, Nat.le_add_right _ _, ?_⟩
      rw [length_encodeField, RecordKind.offset32]
      omega
  obtain ⟨off, bs, heq, hlo, hhi⟩ := hinside
  rw [heq] at hstore
  obtain ⟨hsize', hroom'⟩ := ElfData.store_size hstore
  refine ⟨hsize'.trans hsize, fun o l => (hroom' o l).trans (hroom o l), fun o l hd => ?_⟩
  rw [ElfData.load_store hstore ?_, hload o l hd]
  simp only [ElfData.Disjoint] at hd ⊢
  omega

/-- An update that succeeds, in parts. -/
theorem gelfUpdate_ok (h : gelfUpdate host k e s ndx v d = .ok () d') :
    ∃ p, locate k e s ndx d d = .ok p d ∧ Assign.run .RANGE (k.assigns host v.padding p.1 p.2) v.vals d = .ok () d' := by
  obtain ⟨p, d₁, hloc, hrun⟩ := bind_eq_ok.mp h
  obtain ⟨rfl, -⟩ := locate_ok hloc
  exact ⟨p, hloc, hrun⟩

theorem around_update (h : gelfUpdate host k e s ndx v d = .ok () d') :
    ∃ p, locate k e s ndx d d = .ok p d ∧ Around d p.2 (msize k.type p.1) d' := by
  obtain ⟨p, hloc, hrun⟩ := gelfUpdate_ok h
  have hind := independent_assigns host k p.1 p.2 v.padding
  have hinv := @Assign.run_inv _ _ _ .RANGE _ v.vals d _ (around_store (d := d) (length_of_fits v.fits_vals))
    (fun a ha => hind.no_err a ha v.vals) ⟨rfl, fun _ _ => Iff.rfl, fun _ _ _ => rfl⟩
  rw [hrun] at hinv
  exact ⟨p, hloc, hinv⟩

/-- The record that was updated is read back as it was, unless a symbol index was cut. -/
theorem gelfGet_update_iff (h : gelfUpdate host k e s ndx v d = .ok () d') :
    gelfGet host k e s ndx d' = .ok v.vals () ↔ (e.eClass = some .elfclass32 → SymFits k v) := by
  obtain ⟨p, hloc, hrun⟩ := gelfUpdate_ok h
  obtain ⟨-, -, hsize, -⟩ := around_update h
  have hall := Assign.run_ok (independent_assigns host k p.1 p.2 v.padding) hrun
  obtain ⟨-, hclass, -, -⟩ := locate_ok hloc
  rw [gelfGet, locate_congr hsize, locate_state hloc (), bind_ok, hclass]
  obtain ⟨ec, base⟩ := p
  cases ec with
  | elfclass64 =>
    refine iff_of_true ?_ fun hc => nomatch hc
    have hhas := ElfData.store_self_iff.mp (hall _ (List.mem_singleton.mpr rfl)).2
    have hload := ElfData.load_of_has hhas
    rw [length_structBytes host v.length_padding (length_of_fits v.fits_vals)] at hload
    show (d'.load base _).bind _ = _
    rw [hload, bind_ok, structBytes, fieldValues_tomObject host false v.length_padding
      (length_encode host (length_of_fits v.fits_vals))]
    have hround := @decode_encode host k.fields v.vals [] v.fits_vals
    rw [List.append_nil] at hround
    rw [fileOrder, if_neg Bool.false_ne_true, hround]
  | elfclass32 =>
    have hacc : Accepted k v := fun c hc => (hall _ (List.mem_map_of_mem hc)).1
    have hhas : ∀ c ∈ k.copies, d'.Has (k.offset32 base c.dst)
        (encodeField host (k.field32 c.dst) (c.how.narrow (v.vals.getD c.src 0))) :=
      fun c hc => ElfData.store_self_iff.mp (hall _ (List.mem_map_of_mem hc)).2
    show getFields host k d' base k.copies _ = _ ↔ _
    rw [getFields_of_has k.copies _ hhas]
    have hset := @setAll_eq_iff k v fun c =>
      c.how.widen (c.how.narrow (v.vals.getD c.src 0) % 256 ^ (k.field32 c.dst).width)
    have hone : ∀ c ∈ k.copies, _ := fun c hc =>
      Narrowing.widen_narrow_iff c.how (vals_plain hc) (vals_wide hc) (hacc c hc)
    constructor
    · intro heq _ c hc
      exact (hone c hc).mp (hset.mp (Outcome.ok.inj heq).1 c hc)
    · intro hsym
      rw [hset.mpr fun c hc => (hone c hc).mpr (hsym rfl c hc)]

/-- The other records of the buffer are read as before. -/
theorem gelfGet_update_other (h : gelfUpdate host k e s ndx v d = .ok () d') {j : Int32} (hj : j ≠ ndx) :
    gelfGet host k e s j d' = gelfGet host k e s j d := by
  obtain ⟨p, hloc, hsize, -, hload⟩ := around_update h
  obtain ⟨-, hclass, hndx, hbase⟩ := locate_ok hloc
  rw [gelfGet, gelfGet, locate_congr hsize]
  cases hj' : locate k e s j d () with
  | err er u => rfl
  | stop f => rfl
  | ok q u =>
    obtain ⟨-, hclass', hj0, hbase'⟩ := locate_ok hj'
    have hec : q.1 = p.1 := Option.some.inj (hclass'.symm.trans hclass)
    -- records with different indices lie in different places
    have hapart : ElfData.Disjoint p.2 (msize k.type p.1) q.2 (msize k.type p.1) := by
      rw [hbase, hbase', hec]
      have hne : j.toInt.toNat ≠ ndx.toInt.toNat := by
        intro heq
        apply hj
        apply Int32.toInt_inj.mp
        omega
      rcases Nat.lt_or_gt_of_ne hne with hlt | hgt
      · right
        calc msize k.type p.1 * j.toInt.toNat + msize k.type p.1
            = msize k.type p.1 * (j.toInt.toNat + 1) := by rw [Nat.mul_add, Nat.mul_one]
          _ ≤ msize k.type p.1 * ndx.toInt.toNat := Nat.mul_le_mul_left _ hlt
      · left
        calc msize k.type p.1 * ndx.toInt.toNat + msize k.type p.1
            = msize k.type p.1 * (ndx.toInt.toNat + 1) := by rw [Nat.mul_add, Nat.mul_one]
          _ ≤ msize k.type p.1 * j.toInt.toNat := Nat.mul_le_mul_left _ hgt
    obtain ⟨ec, base⟩ := p
    obtain ⟨ec', base'⟩ := q
    dsimp only at hec hapart hload
    subst hec
    rw [bind_ok, bind_ok]
    cases ec' with
    | elfclass64 =>
      dsimp only
      rw [← msize_fields, hload _ _ hapart]
    | elfclass32 =>
      refine getFields_congr k.copies _ fun c hc => hload _ _ ?_
      have hin := copies_inside k c hc
      simp only [ElfData.Disjoint, RecordKind.offset32] at hapart ⊢
      omega

/-- An update of a record that is there succeeds when the checks pass, and is refused when one does not. -/
theorem gelfUpdate_returns (hclass : e.eClass = some .elfclass32)
    (hget : ∃ w, gelfGet host k e s ndx d = .ok w ()) :
    (Accepted k v → ∃ d', gelfUpdate host k e s ndx v d = .ok () d') ∧
      (¬ Accepted k v → ∃ d', gelfUpdate host k e s ndx v d = .err .RANGE d') := by
  obtain ⟨w, hget⟩ := hget
  obtain ⟨p, u, hloc, hfields⟩ := bind_eq_ok.mp hget
  obtain ⟨-, hclass', -, -⟩ := locate_ok hloc
  obtain ⟨ec, base⟩ := p
  obtain rfl : ec = .elfclass32 := Option.some.inj (hclass'.symm.trans hclass)
  have hroom : ∀ c ∈ k.copies, d.Room (k.offset32 base c.dst) (k.field32 c.dst).width :=
    (getFields_ok_iff k.copies _).mp ⟨w, hfields⟩
  have hstores : ∀ a ∈ k.assigns host v.padding .elfclass32 base, ∀ d₁,
      (∀ c ∈ k.copies, d₁.Room (k.offset32 base c.dst) (k.field32 c.dst).width) →
      ∃ d₂, a.store v.vals d₁ = .ok () d₂ ∧
        ∀ c ∈ k.copies, d₂.Room (k.offset32 base c.dst) (k.field32 c.dst).width := by
    intro a ha d₁ hroom₁
    obtain ⟨c, hc, rfl⟩ := List.mem_map.mp ha
    obtain ⟨d₂, hstore⟩ := ElfData.store_ok_iff.mpr (by
      rw [length_encodeField]
      exact hroom₁ c hc : d₁.Room _ (encodeField host (k.field32 c.dst) (c.how.narrow (v.vals.getD c.src 0))).length)
    exact ⟨d₂, hstore, fun b hb => ((ElfData.store_size hstore).2 _ _).mpr (hroom₁ b hb)⟩
  obtain ⟨d', -, hrun⟩ := @Assign.run_returns _ _ _ .RANGE _ v.vals d _ hstores hroom
  have hall : (∀ a ∈ k.assigns host v.padding .elfclass32 base, a.fits v.vals = true) ↔ Accepted k v := List.forall_mem_map
  rw [gelfUpdate, locate_state hloc d, bind_ok]
  dsimp only
  rw [hrun]
  exact ⟨fun hacc => ⟨d', if_pos (hall.mpr hacc)⟩, fun hacc => ⟨d', if_neg fun h => hacc (hall.mp h)⟩⟩

/-- A record that was updated was there. -/
theorem gelfGet_before (hclass : e.eClass = some .elfclass32) (h : gelfUpdate host k e s ndx v d = .ok () d') :
    Accepted k v ∧ ∃ w, gelfGet host k e s ndx d = .ok w () := by
  obtain ⟨p, hloc, hrun⟩ := gelfUpdate_ok h
  obtain ⟨q, hloc', -, hroom, -⟩ := around_update h
  obtain ⟨-, hclass', -, -⟩ := locate_ok hloc
  have hall := Assign.run_ok (independent_assigns host k p.1 p.2 v.padding) hrun
  obtain ⟨ec, base⟩ := p
  obtain rfl : ec = .elfclass32 := Option.some.inj (hclass'.symm.trans hclass)
  refine ⟨fun c hc => (hall _ (List.mem_map_of_mem hc)).1, ?_⟩
  rw [gelfGet, locate_state hloc (), bind_ok]
  refine (getFields_ok_iff k.copies _).mpr fun c hc => (hroom _ _).mp ?_
  obtain ⟨b, hb, hin, -⟩ := ElfData.store_self_iff.mp (hall _ (List.mem_map_of_mem hc)).2
  rw [length_encodeField] at hin
  exact ⟨b, hb, hin⟩

variable (host k e s ndx v d) in
/-- An update stores the record or refuses it. -/
structure Lossless : Prop where
  /-- An update that succeeds is read back, and leaves the other records. -/
  kept : ∀ d', gelfUpdate host k e s ndx v d = .ok () d' →
    gelfGet host k e s ndx d' = .ok v.vals () ∧ ∀ j ≠ ndx, gelfGet host k e s j d' = gelfGet host k e s j d
  /-- A value that the class 32 structure cannot hold is out of range. -/
  refused : e.eClass = some .elfclass32 → (∃ w, gelfGet host k e s ndx d = .ok w ()) → ¬ Representable k v →
    ∃ d', gelfUpdate host k e s ndx v d = .err .RANGE d'

variable (host k e s ndx v d) in
/-- Updates are lossless or refused, exactly when the symbol index of every relocation that a class 32 update
accepts has 24 bits. -/
theorem gelf_update_lossless_iff : Lossless host k e s ndx v d ↔
    (e.eClass = some .elfclass32 → (∃ w, gelfGet host k e s ndx d = .ok w ()) → Accepted k v → SymFits k v) := by
  constructor
  · intro h hclass hget hacc
    obtain ⟨d', hupd⟩ := (gelfUpdate_returns hclass hget).1 hacc
    exact (gelfGet_update_iff hupd).mp (h.kept d' hupd).1 hclass
  · intro h
    refine ⟨fun d' hupd => ⟨(gelfGet_update_iff hupd).mpr fun hclass => ?_, fun j hj => gelfGet_update_other hupd hj⟩,
      fun hclass hget hrep => (gelfUpdate_returns hclass hget).2 fun hacc => ?_⟩
    · obtain ⟨hacc, hget⟩ := gelfGet_before hclass hupd
      exact h hclass hget hacc
    · exact hrep (representable_iff.mpr ⟨hacc, h hclass hget hacc⟩)

end Updates

/-- A class 32 descriptor with one section of the given type, whose data is one buffer of zeros. -/
def recordOps (shType : UInt32) (t : ElfType) (size : Nat) (h : size < 2 ^ 64) : List Op :=
  [.newehdr .elfclass32, .newscn, .setShdr 1 { Shdr.zero with shType := shType, shAddralign := 4 }, .newdata 1,
   .setData 1 0 ⟨4, 0, UInt64.ofNat size, some ⟨4096, List.replicate size 0⟩, some t, 1, by
    intro b hb
    cases hb
    rw [List.length_replicate, UInt64.toNat_ofNat', Nat.mod_eq_of_lt h]⟩]

/-- The symbol index 2 ^ 24 of a relocation is stored as 0. -/
theorem rel_symbol_cut : ∃ e₀ e s d v, openObject plainEnv .write noImage = .ok (some e₀) ∧
    runOps (Op.step plainEnv) e₀ (recordOps 9 .rel 8 (by decide)) = .ok e ∧ e.eScn[1]? = some s ∧ s.sData = [d] ∧
    ¬ Lossless .little .rel e s 0 v d := by
  let v : GElfRecord .rel := ⟨[0, 2 ^ 24 * 2 ^ 32], by decide, List.replicate 16 0, by decide⟩
  have hrun : ∃ e₀ e s d, openObject plainEnv .write noImage = .ok (some e₀) ∧
      runOps (Op.step plainEnv) e₀ (recordOps 9 .rel 8 (by decide)) = .ok e ∧ e.eScn[1]? = some s ∧ s.sData = [d] ∧
      (gelfUpdate .little .rel e s 0 v d).returns
        (fun _ d' => decide (gelfGet .little .rel e s 0 d' = .ok [0, 0] ())) = true :=
    ⟨_, _, _, _, rfl, rfl, rfl, rfl, by decide +kernel⟩
  obtain ⟨e₀, e, s, d, hopen, hops, hs, hd, hupd⟩ := hrun
  refine ⟨e₀, e, s, d, v, hopen, hops, hs, hd, fun h => ?_⟩
  obtain ⟨u, d', hupd, hget⟩ := exists_of_returns hupd
  have hkept := (h.kept d' hupd).1
  rw [of_decide_eq_true hget] at hkept
  exact absurd (Outcome.ok.inj hkept).1 (by decide)

end LibElf.Toolchain
