import LibElf.Base.Assign
import LibElf.Toolchain.Section

/-!
# Class-independent records

The functions of `gelf_sym.c`, `gelf_rel.c`, `gelf_rela.c`, `gelf_dyn.c`, `gelf_move.c`, `gelf_cap.c` and
`gelf_syminfo.c`, which read and store one record of the data of a section. For class 64 they copy the
structure. For class 32 they go field by field, and a field that is wider in the class-independent record is
checked before it is stored.

1. `Narrowing`: how a field is checked, cut and widened again.
2. `RecordKind.copies`, the assignments of each function in their order.
3. `gelfGet` and `gelfUpdate`.
4. `independent_assigns`: the assignments of one call do not touch each other.
-/

namespace LibElf.Toolchain

open Outcome

/-! ## Fields -/

def elf32RSym (i : Nat) : Nat := i / 2 ^ 8

def elf32RType (i : Nat) : Nat := i % 2 ^ 8

def elf32RInfo (s t : Nat) : Nat := (s * 2 ^ 8 % 2 ^ 32 + t % 2 ^ 8) % 2 ^ 32

def elf64RSym (i : Nat) : Nat := i / 2 ^ 32

def elf64RType (i : Nat) : Nat := i % 2 ^ 32

def elf64RInfo (s t : Nat) : Nat := (s * 2 ^ 32 % 2 ^ 64 + t % 2 ^ 32) % 2 ^ 64

/-- The number that 64 bits stand for in two's complement. -/
def signed64 (v : Nat) : Int := if v < 2 ^ 63 then v else v - 2 ^ 64

/-- How a field of the class-independent record becomes one of the class 32 structure. -/
inductive Narrowing
  /-- An assignment between fields of one width. -/
  | plain
  /-- `LIBELF_COPY_U32`. -/
  | u32
  /-- `LIBELF_COPY_S32`. -/
  | s32
  /-- The check and the packing of `r_info`. -/
  | info
deriving DecidableEq

namespace Narrowing

/-- The check of a value before it is stored. -/
def fits : Narrowing → Nat → Bool
  | plain, _ => true
  | u32, v => !decide (v > 0xFFFFFFFF)
  | s32, v => !(decide (signed64 v > 0x7FFFFFFF) || decide (signed64 v < -0x80000000))
  -- the operand of the first bound is an `unsigned long` of 64 bits
  | info, v => !(decide (elf64RSym v > elf32RSym (2 ^ 64 - 1)) || decide (elf64RType v > elf32RType (2 ^ 32 - 1)))

/-- The value that is stored. -/
def narrow : Narrowing → Nat → Nat
  | plain, v => v
  | u32, v => v % 2 ^ 32
  | s32, v => v % 2 ^ 32
  | info, v => elf32RInfo (elf64RSym v % 2 ^ 32) (elf64RType v % 2 ^ 32)

/-- The value that is read back. -/
def widen : Narrowing → Nat → Nat
  | plain, v => v
  | u32, v => v
  | s32, v => if v < 2 ^ 31 then v else v + (2 ^ 64 - 2 ^ 32)
  | info, v => elf64RInfo (elf32RSym v) (elf32RType v)

end Narrowing

/-- An assignment from field `src` of the class-independent record to field `dst` of the class 32
structure. -/
structure FieldCopy where
  how : Narrowing
  src : Nat
  dst : Nat

/-! ## Records -/

/-- The records with functions `gelf_get*` and `gelf_update_*` over section data. -/
inductive RecordKind
  | sym | rel | rela | dyn | move | cap | syminfo
deriving DecidableEq

namespace RecordKind

def type : RecordKind → ElfType
  | sym => .sym
  | rel => .rel
  | rela => .rela
  | dyn => .dyn
  | move => .move
  | cap => .cap
  | syminfo => .syminfo

/-- The assignments of the class 32 branch, in the order of the update function. -/
def copies : RecordKind → List FieldCopy
  | sym => [⟨.plain, 0, 0⟩, -- st_name
      ⟨.plain, 1, 3⟩, -- st_info
      ⟨.plain, 2, 4⟩, -- st_other
      ⟨.plain, 3, 5⟩, -- st_shndx
      ⟨.u32, 4, 1⟩, -- st_value
      ⟨.u32, 5, 2⟩] -- st_size
  | rel => [⟨.u32, 0, 0⟩, -- r_offset
      ⟨.info, 1, 1⟩] -- r_info
  | rela => [⟨.u32, 0, 0⟩, -- r_offset
      ⟨.info, 1, 1⟩, -- r_info
      ⟨.s32, 2, 2⟩] -- r_addend
  | dyn => [⟨.s32, 0, 0⟩, -- d_tag
      ⟨.u32, 1, 1⟩] -- d_un.d_val
  | move => [⟨.plain, 0, 0⟩, -- m_value
      ⟨.u32, 1, 1⟩, -- m_info
      ⟨.u32, 2, 2⟩, -- m_poffset
      ⟨.plain, 3, 3⟩, -- m_repeat
      ⟨.plain, 4, 4⟩] -- m_stride
  | cap => [⟨.u32, 0, 0⟩, -- c_tag
      ⟨.u32, 1, 1⟩] -- c_un.c_val
  | syminfo => [⟨.plain, 0, 0⟩, -- si_boundto
      ⟨.plain, 1, 1⟩] -- si_flags

/-- The fields of the class-independent record, the structure of class 64. -/
def fields (k : RecordKind) : List Field := fieldsOf k.type .elfclass64

def fields32 (k : RecordKind) : List Field := fieldsOf k.type .elfclass32

end RecordKind

/-- A class-independent record: the values of its fields, and an object whose padding it has. -/
structure GElfRecord (k : RecordKind) where
  vals : List Nat
  fits_vals : fits k.fields vals = true
  padding : List UInt8
  length_padding : padding.length = naturalSize k.fields

/-- The offset of field `i` of a structure in memory, when the first field may start at `off`. -/
def fieldOffset : Nat → List Field → Nat → Nat
  | off, f :: _, 0 => off + f.pad off
  | off, f :: fs, i + 1 => fieldOffset (off + f.pad off + f.width) fs i
  | off, [], _ => off

/-- The bytes of a structure in memory, with the given field values and the padding of `padding`. -/
def structBytes (host : ByteOrder) (fs : List Field) (padding : List UInt8) (vs : List Nat) : List UInt8 :=
  tomObject host false fs padding (encode host fs vs)

/-! ## Data buffers -/

abbrev DataCall (α : Type) := Outcome ElfError ElfData α

abbrev ReadCall (α : Type) := Outcome ElfError Unit α

namespace ElfData

def splice (d : ElfData) (off : Nat) (bs : List UInt8) : ElfData :=
  { d with
    dBuf := d.dBuf.map fun b =>
      if off + bs.length ≤ b.bytes.length then ⟨b.addr, LibElf.splice b.bytes off bs⟩ else b
    size_buf := by
      intro b hb
      obtain ⟨b₀, hb₀, rfl⟩ := Option.map_eq_some_iff.mp hb
      rw [← d.size_buf b₀ hb₀]
      split
      · next hin => exact length_splice hin
      · rfl }

def load (d : ElfData) (off len : Nat) : ReadCall (List UInt8) :=
  match d.dBuf with
  | none => .stop .null
  | some b => readAt b.bytes off len ()

def store (d : ElfData) (off : Nat) (bs : List UInt8) : DataCall Unit :=
  match d.dBuf with
  | none => .stop .null
  | some b => if off + bs.length ≤ b.bytes.length then .ok () (d.splice off bs) else .stop .store

end ElfData

/-! ## The functions -/

section Functions

variable (host : ByteOrder) (k : RecordKind)

def libelfMsize (t : ElfType) (ec : ElfClass) (version : Nat) : Nat :=
  if version ≠ evCurrent then 0 else msize t ec

/-- The checks that all functions begin with: the class, and where the record is in the buffer. -/
def locate {σ : Type} (e : Elf) (s : Scn) (ndx : Int32) (d : ElfData) (t : σ) :
    Outcome ElfError σ (ElfClass × Nat) :=
  if ndx.toInt < 0 then .err .ARGUMENT t
  else
    match e.eClass with
    | none => .stop .assertion
    | some ec =>
      if xlateShtype s.shdr.shType ≠ some k.type then .err .ARGUMENT t
      else
        let msz := libelfMsize k.type ec e.eVersion
        if msz = 0 then .stop .assertion
        else if d.dSize.toNat ≤ wrap (msz * ndx.toInt.toNat) then .err .ARGUMENT t
        else .ok (ec, msize k.type ec * ndx.toInt.toNat) t

def RecordKind.field32 (i : Nat) : Field := k.fields32.getD i wordField

/-- Where field `i` of the class 32 structure at `base` is. -/
def RecordKind.offset32 (base i : Nat) : Nat := base + fieldOffset 0 k.fields32 i

/-- The assignments of an update of the record at `base`. In class 64 the whole structure is assigned. -/
def RecordKind.assigns (padding : List UInt8) (ec : ElfClass) (base : Nat) : List (Assign ElfError ElfData (List Nat)) :=
  match ec with
  | .elfclass32 => k.copies.map fun c =>
    { fits := fun v => c.how.fits (v.getD c.src 0)
      store := fun v d => d.store (k.offset32 base c.dst)
        (encodeField host (k.field32 c.dst) (c.how.narrow (v.getD c.src 0))) }
  | .elfclass64 =>
    [{ fits := fun _ => true
       store := fun v d => d.store base (structBytes host k.fields padding v) }]

/-- The assignments of a read in class 32, from the record at `base` to the fields of `*dst`. -/
def getFields (d : ElfData) (base : Nat) : List FieldCopy → List Nat → ReadCall (List Nat)
  | [], dst => .ok dst ()
  | c :: cs, dst =>
    (d.load (k.offset32 base c.dst) (k.field32 c.dst).width).bind fun bs _ =>
    getFields d base cs (dst.set c.src (c.how.widen (decodeField host (k.field32 c.dst) bs)))

/-- `gelf_getsym` and its siblings. -/
def gelfGet (e : Elf) (s : Scn) (ndx : Int32) (d : ElfData) : ReadCall (List Nat) :=
  (locate k e s ndx d ()).bind fun p _ =>
  match p.1 with
  | .elfclass32 => getFields host k d p.2 k.copies (List.replicate k.fields.length 0)
  | .elfclass64 =>
    (d.load p.2 (naturalSize k.fields)).bind fun bs _ => .ok (fieldValues host k.fields bs) ()

/-- `gelf_update_sym` and its siblings. -/
def gelfUpdate (e : Elf) (s : Scn) (ndx : Int32) (v : GElfRecord k) (d : ElfData) : DataCall Unit :=
  (locate k e s ndx d d).bind fun p d => Assign.run .RANGE (k.assigns host v.padding p.1 p.2) v.vals d

end Functions

/-! ## Stores in a buffer -/

namespace ElfData

variable {d d' : ElfData} {off off' len : Nat} {bs bs' : List UInt8}

/-- The buffer holds the bytes at `off`. -/
def Has (d : ElfData) (off : Nat) (bs : List UInt8) : Prop :=
  ∃ b, d.dBuf = some b ∧ off + bs.length ≤ b.bytes.length ∧ window b.bytes off bs.length = bs

theorem store_eq_ok : d.store off bs = .ok () d' ↔
    ∃ b, d.dBuf = some b ∧ off + bs.length ≤ b.bytes.length ∧ d' = d.splice off bs := by
  unfold store
  cases hb : d.dBuf with
  | none => simp
  | some b =>
    by_cases hin : off + bs.length ≤ b.bytes.length
    · simp [hin, eq_comm]
    · simp [hin]

theorem store_ne_err {er : ElfError} : d.store off bs ≠ .err er d' := by
  unfold store
  split
  · exact nofun
  · split <;> exact nofun

theorem dBuf_splice {b : Buf} (hb : d.dBuf = some b) (hin : off + bs.length ≤ b.bytes.length) :
    (d.splice off bs).dBuf = some ⟨b.addr, LibElf.splice b.bytes off bs⟩ := by
  show d.dBuf.map _ = _
  rw [hb, Option.map_some, if_pos hin]

theorem has_of_store (h : d.store off bs = .ok () d') : d'.Has off bs := by
  obtain ⟨b, hb, hin, rfl⟩ := store_eq_ok.mp h
  refine ⟨_, dBuf_splice hb hin, ?_, window_splice_self hin⟩
  rw [length_splice hin]
  exact hin

/-- A store of what is there changes nothing. -/
theorem store_self_iff : d.store off bs = .ok () d ↔ d.Has off bs := by
  refine ⟨has_of_store, ?_⟩
  rintro ⟨b, hb, hin, hwin⟩
  refine store_eq_ok.mpr ⟨b, hb, hin, ?_⟩
  have hsame : LibElf.splice b.bytes off bs = b.bytes := by
    apply List.ext_getElem?
    intro i
    rw [getElem?_splice hin]
    split
    · rfl
    split
    · next hlo hhi =>
      have hget : (window b.bytes off bs.length)[i - off]? = bs[i - off]? := by rw [hwin]
      rw [getElem?_window, if_pos (by omega), Nat.add_sub_cancel' (by omega)] at hget
      exact hget.symm
    · rfl
  have hbuf := dBuf_splice hb hin
  rw [hsame, ← hb] at hbuf
  obtain ⟨align, dOff, size, buf, type, version, hsize⟩ := d
  simp only [splice] at hbuf ⊢
  congr 1
  exact hbuf.symm

def Disjoint (off len off' len' : Nat) : Prop := off + len ≤ off' ∨ off' + len' ≤ off

instance (off len off' len' : Nat) : Decidable (Disjoint off len off' len') := inferInstanceAs (Decidable (_ ∨ _))

/-- A store leaves the other bytes. -/
theorem load_store (h : d.store off bs = .ok () d') (hd : Disjoint off bs.length off' len) :
    d'.load off' len = d.load off' len := by
  obtain ⟨b, hb, hin, rfl⟩ := store_eq_ok.mp h
  unfold load
  rw [dBuf_splice hb hin, hb]
  have hlen := length_splice hin
  have hwin : window (LibElf.splice b.bytes off bs) off' len = window b.bytes off' len := by
    rcases hd with hd | hd
    · exact window_splice_of_ge hin hd
    · exact window_splice_of_le hin hd
  simp only [readAt, hlen, hwin]

theorem load_of_has (h : d.Has off bs) : d.load off bs.length = .ok bs () := by
  obtain ⟨b, hb, hin, hwin⟩ := h
  rw [load, hb]
  dsimp only
  rw [readAt_of_le () hin, hwin]

def Room (d : ElfData) (off len : Nat) : Prop := ∃ b, d.dBuf = some b ∧ off + len ≤ b.bytes.length

theorem load_ok_iff (hlen : 0 < len) : (∃ bs, d.load off len = .ok bs ()) ↔ d.Room off len := by
  unfold load Room
  cases hb : d.dBuf with
  | none => simp
  | some b =>
    have hne : len ≠ 0 := Nat.pos_iff_ne_zero.mp hlen
    simp [readAt_eq_ok, hne]

theorem store_ok_iff : (∃ d', d.store off bs = .ok () d') ↔ d.Room off bs.length := by
  constructor
  · rintro ⟨d', h⟩
    obtain ⟨b, hb, hin, -⟩ := store_eq_ok.mp h
    exact ⟨b, hb, hin⟩
  · rintro ⟨b, hb, hin⟩
    exact ⟨_, store_eq_ok.mpr ⟨b, hb, hin, rfl⟩⟩

/-- A store keeps the size of the buffer. -/
theorem store_size (h : d.store off bs = .ok () d') : d'.dSize = d.dSize ∧ ∀ o l, d'.Room o l ↔ d.Room o l := by
  obtain ⟨b, hb, hin, rfl⟩ := store_eq_ok.mp h
  refine ⟨rfl, fun o l => ?_⟩
  unfold Room
  rw [dBuf_splice hb hin, hb]
  simp [length_splice hin]

theorem Has.of_store (h : d.Has off bs) (hs : d.store off' bs' = .ok () d')
    (hd : Disjoint off bs.length off' bs'.length) : d'.Has off bs := by
  obtain ⟨b, hb, hin, hwin⟩ := h
  obtain ⟨b₁, hb₁, hin', rfl⟩ := store_eq_ok.mp hs
  rw [hb] at hb₁
  cases hb₁
  refine ⟨_, dBuf_splice hb hin', ?_, ?_⟩
  · rw [length_splice hin']
    exact hin
  · rcases hd with hd | hd
    · exact (window_splice_of_le hin' hd).trans hwin
    · exact (window_splice_of_ge hin' hd).trans hwin

end ElfData

/-! ## The assignments of one call -/

section Assigns

variable (host : ByteOrder) (k : RecordKind) (ec : ElfClass) (base : Nat)

/-- The fields of an update lie side by side in the structure, each stored once, with the widths that the
assignments expect. -/
theorem copies_apart : k.copies.Pairwise fun a b => ElfData.Disjoint (fieldOffset 0 k.fields32 a.dst)
    (k.field32 a.dst).width (fieldOffset 0 k.fields32 b.dst) (k.field32 b.dst).width := by
  cases k <;> decide

theorem copies_inside : ∀ c ∈ k.copies,
    fieldOffset 0 k.fields32 c.dst + (k.field32 c.dst).width ≤ msize k.type .elfclass32 := by
  cases k <;> decide

/-- Every field of the class-independent record is stored once. -/
theorem copies_src : (k.copies.map FieldCopy.src) = List.range k.fields.length := by
  cases k <;> decide

theorem length_structBytes {fs : List Field} {padding : List UInt8} {vs : List Nat}
    (hpad : padding.length = naturalSize fs) (h : vs.length = fs.length) :
    (structBytes host fs padding vs).length = naturalSize fs :=
  length_tomObject host false hpad (length_encode host h)

theorem independent_assigns (padding : List UInt8) : Assign.Independent (k.assigns host padding ec base) := by
  cases ec with
  | elfclass64 =>
    refine ⟨?_, ?_, List.pairwise_singleton _ _⟩
    · intro a ha v d er d'
      obtain rfl := List.mem_singleton.mp ha
      exact ElfData.store_ne_err
    · intro a ha v d d' h
      obtain rfl := List.mem_singleton.mp ha
      exact ElfData.store_self_iff.mpr (ElfData.has_of_store h)
  | elfclass32 =>
    refine ⟨?_, ?_, ?_⟩
    · intro a ha v d er d'
      obtain ⟨c, -, rfl⟩ := List.mem_map.mp ha
      exact ElfData.store_ne_err
    · intro a ha v d d' h
      obtain ⟨c, -, rfl⟩ := List.mem_map.mp ha
      exact ElfData.store_self_iff.mpr (ElfData.has_of_store h)
    · refine List.pairwise_map.mpr ((copies_apart k).imp ?_)
      intro a b hab v d d' ha hb
      refine ElfData.store_self_iff.mpr ((ElfData.store_self_iff.mp ha).of_store hb ?_)
      rw [length_encodeField, length_encodeField]
      simp only [ElfData.Disjoint, RecordKind.offset32] at hab ⊢
      omega

end Assigns

/-! ## Reads in class 32 -/

section Fields

variable {host : ByteOrder} {k : RecordKind} {d : ElfData} {base : Nat}

/-- The assignments of a read, as stores in the list of values. -/
def setAll (g : FieldCopy → Nat) (cs : List FieldCopy) (dst : List Nat) : List Nat :=
  cs.foldl (fun l c => l.set c.src (g c)) dst

/-- A read of fields with known bytes. -/
theorem getFields_of_has {g : FieldCopy → Nat} (cs : List FieldCopy) : ∀ dst : List Nat,
    (∀ c ∈ cs, d.Has (k.offset32 base c.dst) (encodeField host (k.field32 c.dst) (g c))) →
    getFields host k d base cs dst =
      .ok (setAll (fun c => c.how.widen (g c % 256 ^ (k.field32 c.dst).width)) cs dst) () := by
  induction cs with
  | nil => exact fun _ _ => rfl
  | cons c cs ih =>
    intro dst h
    have hload := ElfData.load_of_has (h c List.mem_cons_self)
    rw [length_encodeField] at hload
    rw [getFields, hload, bind_ok, decodeField_encodeField]
    exact ih _ fun b hb => h b (List.mem_cons_of_mem c hb)

/-- A read returns when the fields are in the buffer. -/
theorem getFields_ok_iff (cs : List FieldCopy) : ∀ dst : List Nat,
    (∃ w, getFields host k d base cs dst = .ok w ()) ↔
      ∀ c ∈ cs, d.Room (k.offset32 base c.dst) (k.field32 c.dst).width := by
  induction cs with
  | nil => exact fun _ => iff_of_true ⟨_, rfl⟩ fun _ hc => nomatch hc
  | cons c cs ih =>
    intro dst
    have hpos := (k.field32 c.dst).width_pos
    rw [List.forall_mem_cons, ← ElfData.load_ok_iff hpos]
    constructor
    · rintro ⟨w, h⟩
      obtain ⟨bs, u, hload, hrest⟩ := bind_eq_ok.mp h
      exact ⟨⟨bs, hload⟩, (ih _).mp ⟨w, hrest⟩⟩
    · rintro ⟨⟨bs, hload⟩, hrest⟩
      obtain ⟨w, h⟩ := (ih (dst.set c.src (c.how.widen (decodeField host (k.field32 c.dst) bs)))).mpr hrest
      refine ⟨w, ?_⟩
      rw [getFields, hload, bind_ok]
      exact h

/-- A read depends on the bytes of its fields. -/
theorem getFields_congr {d' : ElfData} (cs : List FieldCopy) : ∀ dst : List Nat,
    (∀ c ∈ cs, d'.load (k.offset32 base c.dst) (k.field32 c.dst).width =
      d.load (k.offset32 base c.dst) (k.field32 c.dst).width) →
    getFields host k d' base cs dst = getFields host k d base cs dst := by
  induction cs with
  | nil => exact fun _ _ => rfl
  | cons c cs ih =>
    intro dst h
    rw [getFields, getFields, h c List.mem_cons_self]
    congr 1
    funext bs _
    exact ih _ fun b hb => h b (List.mem_cons_of_mem c hb)

end Fields

/-! ## Where the record is -/

section Locate

variable {host : ByteOrder} {k : RecordKind} {e : Elf} {s : Scn} {ndx : Int32} {d : ElfData}

/-- Of the data descriptor the checks read only the size. -/
theorem locate_congr {σ : Type} {d' : ElfData} (hd : d'.dSize = d.dSize) (t : σ) :
    locate k e s ndx d' t = locate k e s ndx d t := by
  unfold locate
  rw [hd]

theorem locate_state {σ τ : Type} {p : ElfClass × Nat} {t t₁ : σ} (h : locate k e s ndx d t = .ok p t₁) (t' : τ) :
    locate k e s ndx d t' = .ok p t' := by
  unfold locate at h ⊢
  split at h
  · cases h
  next hndx =>
  rw [if_neg hndx]
  split at h
  · cases h
  next ec hclass =>
  split at h
  · cases h
  next htype =>
  dsimp only at h ⊢
  rw [if_neg htype]
  split at h
  · cases h
  next hmsz =>
  rw [if_neg hmsz]
  split at h
  · cases h
  next hsize =>
  rw [if_neg hsize]
  cases h
  rfl

theorem locate_err {σ : Type} {er : ElfError} {t t' : σ} (h : locate k e s ndx d t = .err er t') : t' = t := by
  unfold locate at h
  split at h
  · cases h
    rfl
  split at h
  · cases h
  split at h
  · cases h
    rfl
  dsimp only at h
  split at h
  · cases h
  split at h
  · cases h
    rfl
  · cases h

theorem locate_ok {σ : Type} {p : ElfClass × Nat} {t t' : σ} (h : locate k e s ndx d t = .ok p t') :
    t' = t ∧ e.eClass = some p.1 ∧ 0 ≤ ndx.toInt ∧ p.2 = msize k.type p.1 * ndx.toInt.toNat := by
  unfold locate at h
  split at h
  · cases h
  next hndx =>
  split at h
  · cases h
  next ec hclass =>
  split at h
  · cases h
  dsimp only at h
  split at h
  · cases h
  split at h
  · cases h
  · cases h
    exact ⟨rfl, hclass, by omega, rfl⟩

end Locate

end LibElf.Toolchain
