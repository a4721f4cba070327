import LibElf.Base.Layout
import LibElf.Toolchain.Update

/-!
# The layout of one section

What `_libelf_compute_section_extents` does when it succeeds.

1. `DataOk`, the checks of a data descriptor, and `checkData_library` and `checkData_layout`, the
   loop over the descriptors under the two kinds of layout.
2. `assignedEnd_eq` and `assignOffsets_fit`: as long as the packed descriptors end below `2 ^ 63`,
   the offsets the library assigns are those of packing them.
3. `computeSectionExtents_ok`, the cases of a section.
-/

namespace LibElf.Toolchain

open Outcome

/-! ## Data descriptors -/

section Data

variable (ec : ElfClass)

/-- The bytes a descriptor takes in the file. -/
def dataFsz (d : ElfData) : Nat :=
  match d.dType with
  | none => 0
  | some t => libelfFsize t ec (d.dSize.toNat / msize t ec)

/-- The piece that a descriptor asks for in its section. -/
def dataDemand (d : ElfData) : Demand := ⟨d.dAlign.toNat, dataFsz ec d⟩

/-- What the layout checks of a descriptor. -/
structure DataOk (e : Elf) (ec : ElfClass) (d : ElfData) : Prop where
  known : ∃ t, d.dType = some t ∧ 0 < msize t ec ∧ d.dSize.toNat % msize t ec = 0
  version : d.dVersion = e.eVersion
  pow2 : isPow2 d.dAlign.toNat = true

/-- The descriptors with the offsets that library layout assigns. -/
def assignOffsets : Nat → List ElfData → List ElfData
  | _, [] => []
  | size, d :: ds =>
    { d with dOff := UInt64.ofNat (roundUp size d.dAlign.toNat) } ::
      assignOffsets (wrap (roundUp size d.dAlign.toNat + dataFsz ec d)) ds

def assignedEnd : Nat → List ElfData → Nat
  | size, [] => size
  | size, d :: ds => assignedEnd (wrap (roundUp size d.dAlign.toNat + dataFsz ec d)) ds

/-- The largest end of a descriptor, as the application placed it. -/
def placedEnd : Nat → List ElfData → Nat
  | size, [] => size
  | size, d :: ds => placedEnd (max size (wrap (d.dOff.toNat + d.dSize.toNat))) ds

/-- The largest alignment of a descriptor. -/
def dataAlign : Nat → List ElfData → Nat
  | align, [] => align
  | align, d :: ds => dataAlign (max align d.dAlign.toNat) ds

variable {ec} {e : Elf}

theorem dataFsz_eq {d : ElfData} {t : ElfType} (h : d.dType = some t) :
    dataFsz ec d = fsize t ec * (d.dSize.toNat / msize t ec) ∧ dataFsz ec d ≤ d.dSize.toNat := by
  have hle : fsize t ec * (d.dSize.toNat / msize t ec) ≤ d.dSize.toNat :=
    Nat.le_trans (Nat.mul_le_mul_right _ (fsize_le_msize t ec)) (Nat.mul_div_le _ _)
  have hlt : fsize t ec * (d.dSize.toNat / msize t ec) < 2 ^ 64 :=
    Nat.lt_of_le_of_lt hle d.dSize.toNat_lt
  have heq : dataFsz ec d = fsize t ec * (d.dSize.toNat / msize t ec) := by
    rw [dataFsz, h]
    exact wrap_of_lt hlt
  exact ⟨heq, heq ▸ hle⟩

/-- A descriptor that the layout accepts, and the rest of the loop. -/
theorem checkData_cons_ok {d : ElfData} {ds ds' : List ElfData} {size align : Nat} {r : Nat × Nat}
    (h : checkData e ec size align (d :: ds) = .ok r ds') :
    DataOk e ec d ∧ ∃ l,
      if e.eFlags.layout then
        checkData e ec (max size (wrap (d.dOff.toNat + d.dSize.toNat))) (max align d.dAlign.toNat) ds =
          .ok r l ∧ ds' = d :: l
      else
        checkData e ec (wrap (roundUp size d.dAlign.toNat + dataFsz ec d)) (max align d.dAlign.toNat) ds =
          .ok r l ∧ ds' = { d with dOff := UInt64.ofNat (roundUp size d.dAlign.toNat) } :: l := by
  unfold checkData at h
  split at h
  · cases h
  · next t ht =>
    have hfsz : libelfFsize t ec (d.dSize.toNat / msize t ec) = dataFsz ec d := by rw [dataFsz, ht]
    rw [hfsz] at h
    split at h
    · cases h
    · next hver =>
      split at h
      · cases h
      · next hpow =>
        split at h
        · cases h
        · next hmsz =>
          split at h
          · cases h
          · next hmod =>
            have hd : DataOk e ec d :=
              ⟨⟨t, ht, Nat.pos_of_ne_zero hmsz, Decidable.not_not.mp hmod⟩, Decidable.not_not.mp hver,
                by simpa using hpow⟩
            split at h
            · next hlay =>
              split at h
              · cases h
              · obtain ⟨l, hrec, rfl⟩ := within_eq_ok.mp h
                exact ⟨hd, l, by rw [if_pos hlay]; exact ⟨hrec, rfl⟩⟩
            · next hlay =>
              obtain ⟨l, hrec, rfl⟩ := within_eq_ok.mp h
              exact ⟨hd, l, by rw [if_neg hlay]; exact ⟨hrec, rfl⟩⟩

/-- The loop over the descriptors under library layout. -/
theorem checkData_library (hlay : e.eFlags.layout = false) {ds : List ElfData} :
    ∀ {size align : Nat} {r : Nat × Nat} {ds' : List ElfData},
    checkData e ec size align ds = .ok r ds' →
    (∀ d ∈ ds, DataOk e ec d) ∧ ds' = assignOffsets ec size ds ∧
      r = (assignedEnd ec size ds, dataAlign align ds) := by
  induction ds with
  | nil =>
    intro size align r ds' h
    cases h
    exact ⟨nofun, rfl, rfl⟩
  | cons d ds ih =>
    intro size align r ds' h
    obtain ⟨hd, l, hrest⟩ := checkData_cons_ok h
    rw [hlay, if_neg Bool.false_ne_true] at hrest
    obtain ⟨hrec, rfl⟩ := hrest
    obtain ⟨hok, rfl, rfl⟩ := ih hrec
    exact ⟨List.forall_mem_cons.mpr ⟨hd, hok⟩, rfl, rfl⟩

/-- The loop over the descriptors when the application places them. -/
theorem checkData_layout (hlay : e.eFlags.layout = true) {ds : List ElfData} :
    ∀ {size align : Nat} {r : Nat × Nat} {ds' : List ElfData},
    checkData e ec size align ds = .ok r ds' →
    (∀ d ∈ ds, DataOk e ec d) ∧ ds' = ds ∧ r = (placedEnd size ds, dataAlign align ds) := by
  induction ds with
  | nil =>
    intro size align r ds' h
    cases h
    exact ⟨nofun, rfl, rfl⟩
  | cons d ds ih =>
    intro size align r ds' h
    obtain ⟨hd, l, hrest⟩ := checkData_cons_ok h
    rw [hlay, if_pos rfl] at hrest
    obtain ⟨hrec, rfl⟩ := hrest
    obtain ⟨hok, rfl, rfl⟩ := ih hrec
    exact ⟨List.forall_mem_cons.mpr ⟨hd, hok⟩, rfl, rfl⟩

theorem aligned_demands {ds : List ElfData} (hok : ∀ d ∈ ds, DataOk e ec d) :
    Aligned (ds.map (dataDemand ec)) := by
  intro x hx
  obtain ⟨d, hd, rfl⟩ := List.mem_map.mp hx
  exact pos_of_isPow2 (hok d hd).pow2

/-- One step of packing descriptors that end below `2 ^ 63` in all. -/
theorem roundUp_demand {size : Nat} {d : ElfData} {ds : List ElfData}
    (hok : ∀ d' ∈ d :: ds, DataOk e ec d')
    (hend : packEnd size ((d :: ds).map (dataDemand ec)) < 2 ^ 63) :
    roundUp size d.dAlign.toNat = ceilTo size d.dAlign.toNat ∧
      wrap (ceilTo size d.dAlign.toNat + dataFsz ec d) = ceilTo size d.dAlign.toNat + dataFsz ec d ∧
      ceilTo size d.dAlign.toNat + dataFsz ec d < 2 ^ 63 := by
  have htail := aligned_demands fun d' hd' => hok d' (List.mem_cons_of_mem d hd')
  have hpow := (hok d List.mem_cons_self).pow2
  have hle : ceilTo size d.dAlign.toNat + dataFsz ec d ≤
      packEnd (ceilTo size d.dAlign.toNat + dataFsz ec d) (ds.map (dataDemand ec)) := le_packEnd htail
  have hsize : size ≤ ceilTo size d.dAlign.toNat := le_ceilTo (pos_of_isPow2 hpow)
  have hend' : packEnd (ceilTo size d.dAlign.toNat + dataFsz ec d) (ds.map (dataDemand ec)) < 2 ^ 63 :=
    hend
  refine ⟨(roundUp_pow2 (by omega) hpow d.dAlign.toNat_lt).1, wrap_of_lt (by omega), by omega⟩

/-- The computed size is that of packing the descriptors. -/
theorem assignedEnd_eq {ds : List ElfData} : ∀ {size : Nat}, (∀ d ∈ ds, DataOk e ec d) →
    packEnd size (ds.map (dataDemand ec)) < 2 ^ 63 →
    assignedEnd ec size ds = packEnd size (ds.map (dataDemand ec)) := by
  induction ds with
  | nil => intro size _ _; rfl
  | cons d ds ih =>
    intro size hok hend
    obtain ⟨hround, hwrap, _⟩ := roundUp_demand hok hend
    rw [assignedEnd, hround, hwrap]
    exact ih (fun d' hd' => hok d' (List.mem_cons_of_mem d hd')) hend

/-- The assigned offsets put every descriptor between the start and the end. -/
theorem assignOffsets_fit {ds : List ElfData} : ∀ {size : Nat}, (∀ d ∈ ds, DataOk e ec d) →
    packEnd size (ds.map (dataDemand ec)) < 2 ^ 63 →
    ∀ d' ∈ assignOffsets ec size ds, size ≤ d'.dOff.toNat ∧
      d'.dOff.toNat + dataFsz ec d' ≤ packEnd size (ds.map (dataDemand ec)) := by
  induction ds with
  | nil => intro size _ _ d' hd'; cases hd'
  | cons d ds ih =>
    intro size hok hend d' hd'
    obtain ⟨hround, hwrap, hlt⟩ := roundUp_demand hok hend
    have htail : ∀ d' ∈ ds, DataOk e ec d' := fun x hx => hok x (List.mem_cons_of_mem d hx)
    have hsize : size ≤ ceilTo size d.dAlign.toNat :=
      le_ceilTo (pos_of_isPow2 (hok d List.mem_cons_self).pow2)
    have hle : ceilTo size d.dAlign.toNat + dataFsz ec d ≤
        packEnd (ceilTo size d.dAlign.toNat + dataFsz ec d) (ds.map (dataDemand ec)) :=
      le_packEnd (aligned_demands htail)
    rw [assignOffsets, hround, hwrap] at hd'
    rcases List.mem_cons.mp hd' with rfl | hd'
    · have hoff : (UInt64.ofNat (ceilTo size d.dAlign.toNat)).toNat = ceilTo size d.dAlign.toNat := by
        rw [UInt64.toNat_ofNat']
        omega
      exact ⟨by rw [hoff]; exact hsize, by rw [hoff]; exact hle⟩
    · obtain ⟨hlo, hhi⟩ := ih htail hend d' hd'
      refine ⟨Nat.le_trans hsize (Nat.le_trans (Nat.le_add_right _ _) hlo), hhi⟩

/-- The descriptors with their new offsets still pass the checks. -/
theorem assignOffsets_ok {ds : List ElfData} : ∀ {size : Nat}, (∀ d ∈ ds, DataOk e ec d) →
    ∀ d' ∈ assignOffsets ec size ds, DataOk e ec d' := by
  induction ds with
  | nil => intro size _ d' hd'; cases hd'
  | cons d ds ih =>
    intro size hok d' hd'
    have hd := hok d List.mem_cons_self
    rcases List.mem_cons.mp hd' with rfl | hd'
    · exact ⟨hd.known, hd.version, hd.pow2⟩
    · exact ih (fun x hx => hok x (List.mem_cons_of_mem d hx)) d' hd'

theorem le_placedEnd (ds : List ElfData) : ∀ size, size ≤ placedEnd size ds := by
  induction ds with
  | nil => intro size; exact Nat.le_refl size
  | cons d ds ih => intro size; exact Nat.le_trans (Nat.le_max_left _ _) (ih _)

/-- The placed end bounds the wrapped end of every descriptor. -/
theorem wrap_le_placedEnd {ds : List ElfData} : ∀ {size : Nat}, ∀ d ∈ ds,
    wrap (d.dOff.toNat + d.dSize.toNat) ≤ placedEnd size ds := by
  induction ds with
  | nil => intro size d hd; cases hd
  | cons d ds ih =>
    intro size d' hd'
    rcases List.mem_cons.mp hd' with rfl | hd'
    · exact Nat.le_trans (Nat.le_max_right _ _) (le_placedEnd ds _)
    · exact ih d' hd'

end Data

/-! ## One section -/

section Section

variable (env : Env) (e : Elf) (ec : ElfClass)

/-- The section once the library has given it a size, and a place after `rc`. -/
def placed (rc align entsize size : Nat) (s : Scn) : Scn :=
  { s with
    shdr := { s.shdr with
      shAddralign := ec.put align
      shEntsize := ec.put entsize
      shOffset := ec.put (roundUp rc align)
      shSize := ec.put size }
    sSize := size
    sOffset := roundUp rc align }

section Fields

variable (rc align entsize size : Nat) (s : Scn)

@[simp] theorem placed_sOffset : (placed ec rc align entsize size s).sOffset = roundUp rc align := rfl

@[simp] theorem placed_sSize : (placed ec rc align entsize size s).sSize = size := rfl

@[simp] theorem placed_sData : (placed ec rc align entsize size s).sData = s.sData := by
  -- the fields of `s` must be in sight, or the two sections are compared as a whole
  cases s
  rfl

@[simp] theorem placed_sRawdata : (placed ec rc align entsize size s).sRawdata = s.sRawdata := by
  cases s
  rfl

@[simp] theorem placed_sDirty : (placed ec rc align entsize size s).sDirty = s.sDirty := by
  cases s
  rfl

@[simp] theorem placed_sNdx : (placed ec rc align entsize size s).sNdx = s.sNdx := by
  cases s
  rfl

@[simp] theorem placed_sRawoff : (placed ec rc align entsize size s).sRawoff = s.sRawoff := by
  cases s
  rfl

@[simp] theorem placed_shdr : (placed ec rc align entsize size s).shdr = { s.shdr with
    shAddralign := ec.put align
    shEntsize := ec.put entsize
    shOffset := ec.put (roundUp rc align)
    shSize := ec.put size } := rfl

end Fields

/-- The section with its contents read in, if the layout needs them. -/
def Loaded (s t : Scn) : Prop :=
  (s.sData ≠ [] ∨ e.eCmd = .write) ∧ t = s ∨
    s.sData = [] ∧ e.eCmd ≠ .write ∧ ∃ d, getdata env e ec s = .ok d t

/-- The outcomes of laying out a section: its contents have not been read and it stays or moves, or
its descriptors are checked against the header or packed. -/
inductive LaidOut (rc : Nat) (s : Scn) : Scn → Prop
  | keep (hdata : s.sData = []) (hclean : s.sDirty = false) (hlay : e.eFlags.layout = true) :
    LaidOut rc s { s with sSize := ec.get s.shdr.shSize, sOffset := ec.get s.shdr.shOffset }
  | move (hdata : s.sData = []) (hclean : s.sDirty = false) (hlay : e.eFlags.layout = false)
      (hpos : 0 < shAlign ec s.shdr) :
    LaidOut rc s
      (placed ec rc (shAlign ec s.shdr) (ec.get s.shdr.shEntsize) (ec.get s.shdr.shSize) s)
  | check {t : Scn} {size align : Nat} (hread : s.sData ≠ [] ∨ s.sDirty = true)
      (hloaded : Loaded env e ec s t) (hlay : e.eFlags.layout = true)
      (hdata : checkData e ec 0 0 t.sData = .ok (size, align) t.sData)
      (halign : align ≤ shAlign ec s.shdr) (hpos : 0 < shAlign ec s.shdr)
      (hdvd : shAlign ec s.shdr ∣ ec.get s.shdr.shOffset) (hsize : size ≤ ec.get s.shdr.shSize)
      (hfpos : 0 < falign (xlateShtype s.shdr.shType) ec)
      (hfdvd : falign (xlateShtype s.shdr.shType) ec ∣ ec.get s.shdr.shOffset) :
    LaidOut rc s { t with sSize := ec.get s.shdr.shSize, sOffset := ec.get s.shdr.shOffset }
  | pack {t : Scn} {size align : Nat} {ds : List ElfData} (hread : s.sData ≠ [] ∨ s.sDirty = true)
      (hloaded : Loaded env e ec s t) (hlay : e.eFlags.layout = false)
      (hdata : checkData e ec 0 0 t.sData = .ok (size, align) ds)
      (hpos : 0 < max (shAlign ec s.shdr) align) :
    LaidOut rc s
      (placed ec rc (max (shAlign ec s.shdr) align) (shEntsize ec s.shdr) size { t with sData := ds })

variable {env e ec}

theorem computeOffset_eq (rc align entsize size : Nat) (s : Scn) :
    computeOffset ec rc align entsize size s =
      if align = 0 then .stop .division else .ok () (placed ec rc align entsize size s) := rfl

theorem computeOffset_ok {rc align entsize size : Nat} {s t : Scn}
    (h : computeOffset ec rc align entsize size s = .ok () t) :
    0 < align ∧ t = placed ec rc align entsize size s := by
  rw [computeOffset_eq] at h
  split at h
  · cases h
  · next hne =>
    cases h
    exact ⟨Nat.pos_of_ne_zero hne, rfl⟩

/-- The layout of a section that succeeds. -/
theorem computeSectionExtents_ok {rc : Nat} {s s' : Scn}
    (h : computeSectionExtents env e ec rc s = .ok () s') : LaidOut env e ec rc s s' := by
  unfold computeSectionExtents at h
  dsimp only at h
  split at h
  · cases h
  split at h
  · next hunread =>
    split at h
    · next hlay =>
      cases h
      exact .keep hunread.1 hunread.2 hlay
    · next hlay =>
      obtain ⟨hpos, rfl⟩ := computeOffset_ok h
      exact .move hunread.1 hunread.2 (by simpa using hlay) hpos
  · next hread =>
    have hread' : s.sData ≠ [] ∨ s.sDirty = true := by
      by_cases hdata : s.sData = []
      · exact .inr (by simpa [hdata] using hread)
      · exact .inl hdata
    obtain ⟨_, t, hload, hrest⟩ := bind_eq_ok.mp h
    have hloaded : Loaded env e ec s t := by
      split at hload
      · next hnew =>
        obtain ⟨d, t', hget, heq⟩ := bind_eq_ok.mp hload
        cases heq
        exact .inr ⟨hnew.1, hnew.2, d, hget⟩
      · next hold =>
        cases hload
        refine .inl ⟨?_, rfl⟩
        by_cases hdata : s.sData = []
        · exact .inr (by simpa [hdata] using hold)
        · exact .inl hdata
    obtain ⟨⟨size, align⟩, t', hwithin, hplace⟩ := bind_eq_ok.mp hrest
    obtain ⟨ds, hdata, rfl⟩ := within_eq_ok.mp hwithin
    dsimp only at hplace
    split at hplace
    · next hlay =>
      obtain ⟨_, rfl, _⟩ := checkData_layout hlay hdata
      split at hplace
      · cases hplace
      next halign =>
      split at hplace
      · cases hplace
      next hpos =>
      split at hplace
      · cases hplace
      next hfit =>
      split at hplace
      · cases hplace
      next hfpos =>
      split at hplace
      · cases hplace
      next hfdvd =>
      cases hplace
      have hdvd : ec.get s.shdr.shOffset % shAlign ec s.shdr = 0 := by
        by_contra hne
        exact hfit (.inl hne)
      have hsize : size ≤ ec.get s.shdr.shSize := by
        by_contra hlt
        exact hfit (.inr (Nat.lt_of_not_le hlt))
      exact .check hread' hloaded hlay hdata (Nat.le_of_not_lt halign) (Nat.pos_of_ne_zero hpos)
        (Nat.dvd_of_mod_eq_zero hdvd) hsize (Nat.pos_of_ne_zero hfpos)
        (Nat.dvd_of_mod_eq_zero (Decidable.not_not.mp hfdvd))
    · next hlay =>
      obtain ⟨hpos, rfl⟩ := computeOffset_ok hplace
      exact .pack hread' hloaded (by simpa using hlay) hdata hpos

end Section

end LibElf.Toolchain
