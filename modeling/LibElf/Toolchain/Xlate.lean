import LibElf.Base.InPlace
import LibElf.Toolchain.Codec

/-!
# Translation in one memory

`libelf_xlate.c`. Here the buffers of source and destination are ranges of one memory, so that they
can be the same, and the converters of the fixed-size types are those of the C code: copies, and
loops in one direction or the other.

1. `primTof`, `primTom`, `compTof` and `compTom`, the converters that MAKEPRIMFUNCS and MAKECOMPFUNCS
   generate, `byteTox`, and `fixedTranslator`, their table.
2. `XlateData` and `libelfXlate`.
3. `convert_exact`: each converter leaves the translated table, in place too.
4. `xlate_in_place`, and `fixedTranslator_getTranslator`, which says that the converters do what those
   on separate objects do.
-/

namespace LibElf.Toolchain

open Outcome Mem

/-- A converter in one memory: destination address and room, source address, count, whether to
swap. -/
abbrev MemConverter := (n : Nat) → (dst dsz src count : Nat) → Bool → Mem n → Conversion n

section Converters

variable (host : ByteOrder)

/-- `memcpy` of `len` bytes. -/
def memcpy {n : Nat} (dst src len : Nat) (m : Mem n) : Conversion n :=
  (m.read src len).bind fun bs m => m.write dst bs

/-- The converter to the file that MAKEPRIMFUNCS generates for a type with the given fields. -/
def primTof (fs : List Field) : MemConverter := fun _ dst _ src count swap m =>
  if !swap then memcpy dst src (wrap (count * naturalSize fs)) m
  else forward (tofObject host swap fs) (naturalSize fs) (packedSize fs) count dst src m

def primTom (fs : List Field) : MemConverter := fun _ dst dsz src count swap m =>
  if dsz < wrap (count * naturalSize fs) then .err () m
  else if !swap then memcpy dst src (wrap (count * naturalSize fs)) m
  else forward (tomObject host swap fs (zeroObject fs)) (packedSize fs) (naturalSize fs) count dst src m

def compTof (fs : List Field) : MemConverter := fun _ dst _ src count swap m =>
  forward (tofObject host swap fs) (naturalSize fs) (packedSize fs) count dst src m

def compTom (fs : List Field) : MemConverter := fun _ dst dsz src count swap m =>
  if dsz < wrap (count * naturalSize fs) then .err () m
  else backwardInto (tomObject host swap fs) (packedSize fs) (naturalSize fs) dst src count m

/-- `_libelf_cvt_BYTE_tox`. -/
def byteTox : MemConverter := fun _ dst dsz src count _ m =>
  if dsz < count then .err () m
  else if dst ≠ src then memcpy dst src count m
  else .ok () m

/-- The types whose converters MAKEPRIMFUNCS generates. -/
def ElfType.isPrim : ElfType → Bool
  | .addr | .half | .lword | .off | .sword | .sxword | .word | .xword => true
  | _ => false

/-- `_libelf_get_translator` on the types of fixed size. The types of variable size have translators
of their own and none here. -/
def fixedTranslator (t : ElfType) (toFile : Bool) (ec : ElfClass) : Option MemConverter :=
  (structDef ec t).map fun fs =>
    if t = .byte then byteTox
    else
      match t.isPrim, toFile with
      | true, true => primTof host fs
      | true, false => primTom host fs
      | false, true => compTof host fs
      | false, false => compTom host fs

def inSize (t : ElfType) (ec : ElfClass) (toFile : Bool) : Nat := if toFile then msize t ec else fsize t ec

def outSize (t : ElfType) (ec : ElfClass) (toFile : Bool) : Nat := if toFile then fsize t ec else msize t ec

/-- The fields of an `Elf_Data` that the translation looks at; `buf` is the address of the buffer. -/
structure XlateData where
  buf : Option Nat
  size : Nat
  type : Option ElfType
  version : Nat
  size_lt : size < 2 ^ 64

/-- `ELFDATANONE`, `ELFDATA2LSB` or `ELFDATA2MSB` as a byte order; `none` is no valid encoding. -/
def encodingOrder (encoding : Nat) : Option ByteOrder :=
  match encoding with
  | 0 => some host
  | 1 => some .little
  | 2 => some .big
  | _ => none

/-- `_libelf_xlate(dst, src, encoding, ec, toFile ? ELF_TOFILE : ELF_TOMEMORY)` on two different
descriptors. The result is the destination descriptor; `e_flags` and the like are not touched. -/
def libelfXlate (encoding : Nat) (ec : ElfClass) (toFile : Bool) {n : Nat} (dst src : XlateData)
    (m : Mem n) : Outcome ElfError (Mem n) XlateData :=
  match encodingOrder host encoding with
  | none => .err .ARGUMENT m
  | some order =>
    if dst.version ≠ src.version then .err .UNIMPL m
    else
      match dst.buf, src.buf, src.type with
      | some db, some sb, some t =>
        if src.version ≠ evCurrent then .err .VERSION m
        else if fsize t ec = 0 then .err .UNIMPL m
        else if msize t ec = 0 then .stop .assertion
        else if src.size % inSize t ec toFile ≠ 0 then .err .DATA m
        else
          let cnt := src.size / inSize t ec toFile
          let dsz := wrap (cnt * outSize t ec toFile)
          if dst.size < dsz then .err .DATA m
          else if db ≠ sb ∧ sb < wrap (db + dst.size) ∧ db < wrap (sb + src.size) then .err .DATA m
          else if malign t ec = 0 then .stop .division
          else if (if toFile then sb else db) % malign t ec ≠ 0 then .err .DATA m
          else
            let byteswap := decide (order ≠ host)
            let result : XlateData := { dst with type := src.type, size := dsz, size_lt := wrap_lt _ }
            if src.size = 0 ∨ db = sb ∧ byteswap = false ∧ fsize t ec = msize t ec then .ok result m
            else
              match fixedTranslator host t toFile ec with
              | none => .stop .null
              | some xlate =>
                match xlate n db dsz sb cnt byteswap m with
                | .ok _ m => .ok result m
                | .err _ m => .err .DATA m
                | .stop f => .stop f
      | _, _, _ => .err .DATA m

end Converters

/-! ## What the converters leave -/

/-- The translation of one object, stored in the place of `old`. -/
def xlateObject (host : ByteOrder) (swap toFile : Bool) (fs : List Field) (old bs : List UInt8) : List UInt8 :=
  if toFile then tofObject host swap fs bs else tomObject host swap fs old bs

def srcSize (toFile : Bool) (fs : List Field) : Nat := if toFile then naturalSize fs else packedSize fs
def dstSize (toFile : Bool) (fs : List Field) : Nat := if toFile then packedSize fs else naturalSize fs

/-- The translation of the first `count` objects of `bs`, stored in the place of those of `old`. -/
def xlateTable (host : ByteOrder) (swap toFile : Bool) (fs : List Field) (count : Nat) (old bs : List UInt8) :
    List UInt8 :=
  recordsInto (xlateObject host swap toFile fs) (srcSize toFile fs) (dstSize toFile fs) count old bs

theorem inSize_of_structDef {t : ElfType} {ec : ElfClass} {fs : List Field} (ht : t.isVariable = false)
    (hfs : structDef ec t = some fs) (toFile : Bool) : inSize t ec toFile = srcSize toFile fs := by
  rw [inSize, srcSize, fsize_of_structDef ht hfs, msize_of_structDef ht hfs]

theorem outSize_of_structDef {t : ElfType} {ec : ElfClass} {fs : List Field} (ht : t.isVariable = false)
    (hfs : structDef ec t = some fs) (toFile : Bool) : outSize t ec toFile = dstSize toFile fs := by
  rw [outSize, dstSize, fsize_of_structDef ht hfs, msize_of_structDef ht hfs]

section Exact

variable {host : ByteOrder} {n : Nat} {fs : List Field}

theorem length_xlateObject (swap toFile : Bool) : ∀ o r : List UInt8, o.length = dstSize toFile fs →
    r.length = srcSize toFile fs → (xlateObject host swap toFile fs o r).length = dstSize toFile fs := by
  intro o r ho hr
  cases toFile with
  | true => exact length_tofObject host swap hr
  | false => exact length_tomObject host swap ho hr

theorem memcpy_exact {len dst src : Nat} (m : Mem n) (hs : src + len ≤ n) (hd : dst + len ≤ n) :
    ∃ m', memcpy dst src len m = .ok () m' ∧ Frame m m' dst len ∧
      window m'.bytes dst len = window m.bytes src len := by
  have hlen : (window m.bytes src len).length = len := length_window (by rw [m.length_eq]; exact hs)
  have hin : dst + (window m.bytes src len).length ≤ n := by
    rw [hlen]
    exact hd
  have hframe := frame_splice m hin
  have hself := window_splice m hin
  rw [hlen] at hframe hself
  refine ⟨m.splice dst _ hin, ?_, hframe, hself⟩
  unfold memcpy
  rw [read_of_le m hs, bind_ok, write_of_le m hin]

/-- An integer type has one field, with the same representation in memory and in a file. -/
theorem prim_fields {t : ElfType} {ec : ElfClass} (ht : t.isPrim = true) (hfs : structDef ec t = some fs) :
    ∃ f, fs = [f] ∧ naturalSize fs = packedSize fs := by
  cases t <;> cases ht <;> cases ec <;> cases hfs <;> exact ⟨_, rfl, by decide⟩

/-- A table of objects that stay as they are. -/
theorem xlateTable_of_id {swap toFile : Bool} {count : Nat} {old bs : List UInt8}
    (hsize : packedSize fs = naturalSize fs)
    (hid : ∀ o r : List UInt8, o.length = packedSize fs → r.length = packedSize fs →
      xlateObject host swap toFile fs o r = r)
    (hold : old.length = count * packedSize fs) (hbs : bs.length = count * packedSize fs) :
    xlateTable host swap toFile fs count old bs = bs := by
  have hboth : srcSize toFile fs = packedSize fs ∧ dstSize toFile fs = packedSize fs := by
    cases toFile with
    | true => exact ⟨hsize.symm, rfl⟩
    | false => exact ⟨rfl, hsize.symm⟩
  rw [xlateTable, hboth.1, hboth.2, recordsInto_eq (h := id) hid count (Nat.le_of_eq hold.symm) (Nat.le_of_eq hbs.symm),
    flatten_records_id count bs hbs]

/-- Where the two representations have the same size, an object that is not swapped stays as it is. -/
theorem xlateObject_same (hsize : packedSize fs = naturalSize fs) (toFile : Bool) :
    ∀ o r : List UInt8, o.length = packedSize fs → r.length = packedSize fs →
      xlateObject host false toFile fs o r = r := by
  intro o r ho hr
  cases toFile with
  | true => exact tofObject_packed host hsize (hr.trans hsize)
  | false => exact tomObject_packed host hsize (ho.trans hsize) hr

/-- Bytes stay as they are. -/
theorem xlateObject_byte {ec : ElfClass} (hfs : structDef ec .byte = some fs) (swap toFile : Bool) :
    ∀ o r : List UInt8, o.length = packedSize fs → r.length = packedSize fs →
      xlateObject host swap toFile fs o r = r := by
  obtain ⟨hp, -, htof, htom⟩ := byteField_same hfs host swap
  intro o r ho hr
  rw [hp] at ho hr
  cases toFile with
  | true => exact htof r hr
  | false => exact htom o r ho hr

section Loops

variable {swap toFile : Bool} {dst dsz src count : Nat} (m : Mem n)

/-- The forward loop leaves the translated table. -/
theorem forward_xlate {f : List UInt8 → List UInt8}
    (hf : ∀ o r : List UInt8, o.length = dstSize toFile fs → r.length = srcSize toFile fs →
      xlateObject host swap toFile fs o r = f r)
    (hsafe : Separate dst (count * dstSize toFile fs) src (count * srcSize toFile fs) ∨
      dst ≤ src ∧ dstSize toFile fs ≤ srcSize toFile fs)
    (hs : src + count * srcSize toFile fs ≤ n) (hd : dst + count * dstSize toFile fs ≤ n) :
    ∃ m', (forward f (srcSize toFile fs) (dstSize toFile fs) count dst src m : Conversion n) = .ok () m' ∧
      Frame m m' dst (count * dstSize toFile fs) ∧
      window m'.bytes dst (count * dstSize toFile fs) =
        xlateTable host swap toFile fs count (window m.bytes dst (count * dstSize toFile fs))
          (window m.bytes src (count * srcSize toFile fs)) := by
  have hlen : ∀ r, r.length = srcSize toFile fs → (f r).length = dstSize toFile fs := by
    intro r hr
    rw [← hf _ r List.length_replicate hr]
    exact length_xlateObject swap toFile (List.replicate _ 0) r List.length_replicate hr
  obtain ⟨m', hm', hframe, hwin⟩ := forward_exact (ε := Unit) hlen count dst src m hsafe hs hd
  refine ⟨m', hm', hframe, ?_⟩
  have hold : (window m.bytes dst (count * dstSize toFile fs)).length = count * dstSize toFile fs :=
    length_window (by rw [m.length_eq]; exact hd)
  have hbs : (window m.bytes src (count * srcSize toFile fs)).length = count * srcSize toFile fs :=
    length_window (by rw [m.length_eq]; exact hs)
  rw [hwin, xlateTable, recordsInto_eq hf count (Nat.le_of_eq hold.symm) (Nat.le_of_eq hbs.symm)]

/-- A copy leaves the translated table when no object changes. -/
theorem memcpy_xlate (hsize : packedSize fs = naturalSize fs)
    (hid : ∀ o r : List UInt8, o.length = packedSize fs → r.length = packedSize fs →
      xlateObject host swap toFile fs o r = r)
    (hs : src + count * packedSize fs ≤ n) (hd : dst + count * packedSize fs ≤ n) :
    ∃ m', memcpy dst src (count * packedSize fs) m = .ok () m' ∧ Frame m m' dst (count * packedSize fs) ∧
      window m'.bytes dst (count * packedSize fs) =
        xlateTable host swap toFile fs count (window m.bytes dst (count * packedSize fs))
          (window m.bytes src (count * packedSize fs)) := by
  obtain ⟨m', hm', hframe, hwin⟩ := memcpy_exact m hs hd
  refine ⟨m', hm', hframe, ?_⟩
  rw [hwin, xlateTable_of_id hsize hid (length_window (by rw [m.length_eq]; exact hd))
    (length_window (by rw [m.length_eq]; exact hs))]

end Loops

/-- Each converter leaves the translated table, also when source and destination start at the same
place. -/
theorem convert_exact {t : ElfType} {ec : ElfClass} (hfs : structDef ec t = some fs) {toFile : Bool}
    {xlate : MemConverter} (hx : fixedTranslator host t toFile ec = some xlate) (swap : Bool)
    {dst dsz src count : Nat} (m : Mem n)
    (hsafe : Separate dst (count * dstSize toFile fs) src (count * srcSize toFile fs) ∨ dst = src)
    (hs : src + count * srcSize toFile fs ≤ n) (hd : dst + count * dstSize toFile fs ≤ n) (hn : n < 2 ^ 64)
    (hroom : count * dstSize toFile fs ≤ dsz) :
    ∃ m', xlate n dst dsz src count swap m = .ok () m' ∧ Frame m m' dst (count * dstSize toFile fs) ∧
      window m'.bytes dst (count * dstSize toFile fs) =
        xlateTable host swap toFile fs count (window m.bytes dst (count * dstSize toFile fs))
          (window m.bytes src (count * srcSize toFile fs)) := by
  have hle := packedSize_le_naturalSize fs
  unfold fixedTranslator at hx
  rw [hfs, Option.map_some] at hx
  obtain rfl := Option.some.inj hx
  have hstart : ∀ {P : Prop}, P → Separate dst (count * dstSize toFile fs) src (count * srcSize toFile fs) ∨
      dst ≤ src ∧ P := fun h => hsafe.imp id fun heq => ⟨Nat.le_of_eq heq, h⟩
  have hstart' : ∀ {P : Prop}, P → Separate dst (count * dstSize toFile fs) src (count * srcSize toFile fs) ∨
      src ≤ dst ∧ P := fun h => hsafe.imp id fun heq => ⟨Nat.le_of_eq heq.symm, h⟩
  by_cases hbyte : t = .byte
  · -- bytes: a copy, or nothing when they are in their place
    subst hbyte
    obtain ⟨hp, hm, -⟩ := byteField_same hfs host swap
    have hsize : packedSize fs = naturalSize fs := hp.trans hm.symm
    have hboth : srcSize toFile fs = packedSize fs ∧ dstSize toFile fs = packedSize fs := by
      cases toFile with
      | true => exact ⟨hsize.symm, rfl⟩
      | false => exact ⟨rfl, hsize.symm⟩
    have hid := @xlateObject_byte host fs ec hfs swap toFile
    rw [hboth.1] at hs ⊢
    rw [hboth.2] at hd hroom ⊢
    have hcount : count * packedSize fs = count := by rw [hp, Nat.mul_one]
    rw [if_pos rfl]
    unfold byteTox
    rw [if_neg (Nat.not_lt.mpr (hcount ▸ hroom))]
    by_cases hdiff : dst ≠ src
    · rw [if_pos hdiff, ← hcount, hcount]
      have hcopy := memcpy_xlate m hsize hid hs hd
      rwa [hcount] at hcopy ⊢
    · obtain rfl : dst = src := not_ne_iff.mp hdiff
      rw [if_neg hdiff]
      have hlen := length_window (l := m.bytes) (by rw [m.length_eq]; exact hs)
      exact ⟨m, rfl, Frame.refl _ _ _, (xlateTable_of_id hsize hid hlen hlen).symm⟩
  rw [if_neg hbyte]
  cases hprim : t.isPrim with
  | false =>
    cases toFile with
    | true => exact forward_xlate m (fun _ _ _ _ => rfl) (hstart hle) hs hd
    | false =>
      have hwrap : wrap (count * naturalSize fs) = count * naturalSize fs :=
        wrap_of_lt (Nat.lt_of_le_of_lt (Nat.le_trans (Nat.le_add_left _ _) hd) hn)
      have hroom' : ¬ dsz < count * naturalSize fs := Nat.not_lt.mpr hroom
      dsimp only
      unfold compTom
      rw [hwrap, if_neg hroom']
      exact backwardInto_exact (@length_xlateObject host fs swap false) count m (hstart' hle) hs hd
  | true =>
    obtain ⟨f, rfl, hsize⟩ := prim_fields hprim hfs
    have hwrap : wrap (count * naturalSize [f]) = count * naturalSize [f] := by
      cases toFile with
      | true => exact wrap_of_lt (Nat.lt_of_le_of_lt (Nat.le_trans (Nat.le_add_left _ _) hs) hn)
      | false => exact wrap_of_lt (Nat.lt_of_le_of_lt (Nat.le_trans (Nat.le_add_left _ _) hd) hn)
    cases swap with
    | false =>
      have hkeep := @xlateObject_same host _ hsize.symm toFile
      have hcopy := fun hs hd => @memcpy_xlate host n [f] false toFile dst src count m hsize.symm hkeep hs hd
      cases toFile with
      | true =>
        simp only [dstSize, srcSize, if_true, hsize] at hs hd ⊢
        unfold primTof
        rw [hwrap, hsize]
        exact hcopy hs hd
      | false =>
        have hroom' : ¬ dsz < count * naturalSize [f] := Nat.not_lt.mpr hroom
        simp only [dstSize, srcSize, Bool.false_eq_true, if_false, hsize] at hs hd ⊢
        unfold primTom
        rw [hwrap, if_neg hroom', hsize]
        exact hcopy hs hd
    | true =>
      cases toFile with
      | true => exact forward_xlate m (fun _ _ _ _ => rfl) (hstart (Nat.le_of_eq hsize.symm)) hs hd
      | false =>
        have hroom' : ¬ dsz < count * naturalSize [f] := Nat.not_lt.mpr hroom
        have hfresh : ∀ o r : List UInt8, o.length = dstSize false [f] → r.length = srcSize false [f] →
            xlateObject host true false [f] o r = tomObject host true [f] (zeroObject [f]) r :=
          fun o r ho _ => tomObject_fresh host true hsize.symm ho (length_zeroObject [f]) r
        dsimp only
        unfold primTom
        rw [hwrap, if_neg hroom']
        exact forward_xlate m hfresh (hstart (Nat.le_of_eq hsize)) hs hd

end Exact

/-! ## Padding -/

/-- What a translation stores does not depend on what was there before. -/
theorem xlateTable_stores {host : ByteOrder} {swap toFile : Bool} {t : ElfType} {ec : ElfClass} {fs : List Field}
    {count i : Nat} {old old' bs : List UInt8} (hfs : structDef ec t = some fs)
    (hold : old.length = count * dstSize toFile fs) (hold' : old'.length = count * dstSize toFile fs)
    (hbs : bs.length = count * srcSize toFile fs) (hi : i < count * dstSize toFile fs)
    (hstores : storesByte t ec toFile i = true) :
    (xlateTable host swap toFile fs count old bs)[i]? = (xlateTable host swap toFile fs count old' bs)[i]? := by
  refine getElem?_recordsInto_stored (length_xlateObject swap toFile) hold hold' (Nat.le_of_eq hbs.symm) hi ?_
  intro o o' r ho ho' hr
  cases toFile with
  | true => rfl
  | false =>
    have hmember : isMember fs (i % naturalSize fs) = true := by
      simpa [storesByte, hfs] using hstores
    exact getElem?_tomObject_member host swap ho ho' hr hmember

/-- On ranges that are apart, a converter stores what the one on separate objects stores. -/
theorem fixedTranslator_getTranslator {host : ByteOrder} {n : Nat} {fs : List Field} {t : ElfType} {ec : ElfClass}
    (ht : t.isVariable = false) (hfs : structDef ec t = some fs) {toFile : Bool} {xlate : MemConverter}
    {cvt : Converter} (hx : fixedTranslator host t toFile ec = some xlate)
    (hcvt : getTranslator host t toFile ec = some cvt) (swap : Bool) {dst dsz src count : Nat} (m : Mem n) {n' : Nat}
    (d : Mem n') {off : Nat} (hsep : Separate dst (count * dstSize toFile fs) src (count * srcSize toFile fs))
    (hs : src + count * srcSize toFile fs ≤ n) (hd : dst + count * dstSize toFile fs ≤ n) (hn : n < 2 ^ 64)
    (hroom : count * dstSize toFile fs ≤ dsz) (hoff : off + count * dstSize toFile fs ≤ n') :
    ∃ m' d', xlate n dst dsz src count swap m = .ok () m' ∧
      cvt n' d off dsz (window m.bytes src (count * srcSize toFile fs)) count swap = .ok () d' ∧
      ∀ i < count * dstSize toFile fs, storesByte t ec toFile i = true →
        (window m'.bytes dst (count * dstSize toFile fs))[i]? = (window d'.bytes off (count * dstSize toFile fs))[i]? := by
  obtain ⟨m', hm', -, hwin⟩ := convert_exact hfs hx swap m (.inl hsep) hs hd hn hroom
  have hlen : (window m.bytes src (count * srcSize toFile fs)).length = count * srcSize toFile fs :=
    length_window (by rw [m.length_eq]; exact hs)
  have hold : (window m.bytes dst (count * dstSize toFile fs)).length = count * dstSize toFile fs :=
    length_window (by rw [m.length_eq]; exact hd)
  have hold' : (window d.bytes off (count * dstSize toFile fs)).length = count * dstSize toFile fs :=
    length_window (by rw [d.length_eq]; exact hoff)
  rw [getTranslator_fixed ht, hfs, Option.map_some] at hcvt
  obtain rfl := Option.some.inj hcvt
  have hother : ∃ d', fixedConverter host t toFile fs n' d off dsz (window m.bytes src (count * srcSize toFile fs))
      count swap = .ok () d' ∧ window d'.bytes off (count * dstSize toFile fs) =
        xlateTable host swap toFile fs count (window d.bytes off (count * dstSize toFile fs))
          (window m.bytes src (count * srcSize toFile fs)) := by
    cases toFile with
    | true =>
      obtain ⟨d', hd', -, hwin'⟩ := @fixedConverter_tof host _ _ _ swap _ off dsz _ d _ hfs (Nat.le_of_eq hlen.symm)
        hoff fun _ => hroom
      refine ⟨d', hd', hwin'.trans ?_⟩
      exact (recordsInto_eq (f := xlateObject host swap true fs) (fun _ _ _ _ => rfl) count (Nat.le_of_eq hold'.symm)
        (Nat.le_of_eq hlen.symm)).symm
    | false =>
      obtain ⟨d', hd', -, hwin'⟩ := @fixedConverter_tom host _ _ _ swap _ off dsz _ d _ hfs (Nat.le_of_eq hlen.symm)
        hroom hoff
      exact ⟨d', hd', hwin'⟩
  obtain ⟨d', hd', hwin'⟩ := hother
  refine ⟨m', d', hm', hd', fun i hi hstores => ?_⟩
  rw [hwin, hwin']
  exact xlateTable_stores hfs hold hold' hlen hi hstores

/-! ## In place -/

section InPlace

variable {host : ByteOrder} {n : Nat} {ec : ElfClass} {t : ElfType} {fs : List Field} {toFile : Bool}
  {encoding : Nat} {dst src d : XlateData} {m m' : Mem n} {db sb : Nat}

def xlateSize (t : ElfType) (ec : ElfClass) (toFile : Bool) (size : Nat) : Nat :=
  size / inSize t ec toFile * outSize t ec toFile

/-- What a translation checks of its arguments other than the place of the buffers. -/
structure XlateArgs (host : ByteOrder) (encoding : Nat) (ec : ElfClass) (toFile : Bool) (dst src : XlateData)
    (t : ElfType) (order : ByteOrder) : Prop where
  encoding : encodingOrder host encoding = some order
  version : dst.version = src.version
  current : src.version = evCurrent
  type : src.type = some t
  size : fsize t ec ≠ 0
  whole : src.size % inSize t ec toFile = 0
  room : xlateSize t ec toFile src.size ≤ dst.size

/-- A translation between ranges of a memory whose places are checked leaves the translated table. -/
theorem xlate_ok (ht : t.isVariable = false) (hfs : structDef ec t = some fs) {order : ByteOrder}
    (hargs : XlateArgs host encoding ec toFile dst src t order) (hdb : dst.buf = some db) (hsb : src.buf = some sb)
    (halign : (if toFile then sb else db) % malign t ec = 0) (hs : sb + src.size ≤ n) (hd : db + dst.size ≤ n)
    (hn : n < 2 ^ 64) (hplace : db = sb ∨ Separate db dst.size sb src.size) (m : Mem n) :
    ∃ d m', libelfXlate host encoding ec toFile dst src m = .ok d m' ∧ d.buf = dst.buf ∧ d.type = some t ∧
      d.size = xlateSize t ec toFile src.size ∧ Frame m m' db d.size ∧
      window m'.bytes db d.size = xlateTable host (decide (order ≠ host)) toFile fs (src.size / srcSize toFile fs)
        (window m.bytes db d.size) (window m.bytes sb src.size) := by
  have hin := inSize_of_structDef ht hfs toFile
  have hout := outSize_of_structDef ht hfs toFile
  have hfsz := fsize_of_structDef ht hfs
  have hmsz := msize_of_structDef ht hfs
  have hmsize : msize t ec ≠ 0 := fun h => hargs.size ((fsize_eq_zero_iff t ec).mpr h)
  have hmalign : malign t ec ≠ 0 := Nat.ne_of_gt (malign_pos (Nat.pos_of_ne_zero hargs.size))
  have hroom := hargs.room
  have hwhole : src.size / srcSize toFile fs * srcSize toFile fs = src.size := by
    have hmod := hargs.whole
    rw [hin] at hmod
    exact Nat.div_mul_cancel (Nat.dvd_of_mod_eq_zero hmod)
  have hsize : xlateSize t ec toFile src.size = src.size / srcSize toFile fs * dstSize toFile fs := by
    rw [xlateSize, hin, hout]
  have hwrap : wrap (src.size / inSize t ec toFile * outSize t ec toFile) = xlateSize t ec toFile src.size :=
    wrap_of_lt (Nat.lt_of_le_of_lt hroom dst.size_lt)
  have hoverlap : ¬ (db ≠ sb ∧ sb < wrap (db + dst.size) ∧ db < wrap (sb + src.size)) := by
    rintro ⟨hne, h₁, h₂⟩
    rw [wrap_of_lt (by omega)] at h₁ h₂
    rcases hplace with h | h | h
    · exact hne h
    · omega
    · omega
  unfold libelfXlate
  rw [hargs.encoding]
  dsimp only
  rw [if_neg (not_not_intro hargs.version), hdb, hsb, hargs.type]
  dsimp only
  rw [if_neg (not_not_intro hargs.current), if_neg hargs.size, if_neg hmsize, if_neg (not_not_intro hargs.whole),
    if_neg (by rw [hwrap]; exact Nat.not_lt.mpr hroom), if_neg hoverlap, if_neg hmalign,
    if_neg (not_not_intro halign)]
  rw [hsize] at hroom
  -- the destination descriptor, whichever way the bytes get there
  have hresult : ∀ {d : XlateData} {m' : Mem n}, d.size = wrap (src.size / inSize t ec toFile * outSize t ec toFile) →
      Frame m m' db (src.size / srcSize toFile fs * dstSize toFile fs) →
      window m'.bytes db (src.size / srcSize toFile fs * dstSize toFile fs) =
        xlateTable host (decide (order ≠ host)) toFile fs (src.size / srcSize toFile fs)
          (window m.bytes db (src.size / srcSize toFile fs * dstSize toFile fs)) (window m.bytes sb src.size) →
      d.size = xlateSize t ec toFile src.size ∧ Frame m m' db d.size ∧
        window m'.bytes db d.size = xlateTable host (decide (order ≠ host)) toFile fs (src.size / srcSize toFile fs)
          (window m.bytes db d.size) (window m.bytes sb src.size) := by
    intro d m' hd hframe hwin
    rw [hwrap, hsize] at hd
    rw [hsize, hd]
    exact ⟨rfl, hframe, hwin⟩
  split
  · next hearly =>
    refine ⟨_, m, rfl, rfl, rfl, hresult rfl (Frame.refl _ _ _) ?_⟩
    rcases hearly with hzero | ⟨rfl, hswap, hsame⟩
    · rw [hzero, Nat.zero_div, Nat.zero_mul, window_zero]
      rfl
    · -- nothing is copied, because nothing would change
      rw [hfsz, hmsz] at hsame
      have hboth : srcSize toFile fs = packedSize fs ∧ dstSize toFile fs = packedSize fs := by
        cases toFile with
        | true => exact ⟨hsame.symm, rfl⟩
        | false => exact ⟨rfl, hsame.symm⟩
      rw [hboth.1] at hwhole
      have hlen : (window m.bytes db src.size).length = src.size / packedSize fs * packedSize fs := by
        rw [hwhole, length_window (by rw [m.length_eq]; exact hs)]
      rw [hboth.1, hboth.2, hswap, hwhole, xlateTable_of_id hsame (xlateObject_same hsame toFile) hlen hlen]
  · have hx : ∃ x, fixedTranslator host t toFile ec = some x := by
      unfold fixedTranslator
      rw [hfs]
      exact ⟨_, rfl⟩
    obtain ⟨x, hx⟩ := hx
    have hsafe : Separate db (src.size / srcSize toFile fs * dstSize toFile fs) sb
        (src.size / srcSize toFile fs * srcSize toFile fs) ∨ db = sb := by
      rw [hwhole]
      rcases hplace with h | h | h
      · exact .inr h
      · exact .inl (.inl (Nat.le_trans (Nat.add_le_add_left hroom db) h))
      · exact .inl (.inr h)
    obtain ⟨m', hm', hframe, hwin⟩ := convert_exact hfs hx (decide (order ≠ host)) m hsafe
      (by rw [hwhole]; exact hs) (Nat.le_trans (Nat.add_le_add_left hroom db) hd) hn
      (Nat.le_of_eq (hwrap.trans hsize).symm)
    rw [hwhole] at hwin
    rw [hx]
    dsimp only
    rw [← hin] at hm'
    rw [hm']
    exact ⟨_, m', rfl, rfl, rfl, hresult rfl hframe hwin⟩

/-- A translation that succeeds has passed the checks. -/
theorem xlate_inv (h : libelfXlate host encoding ec toFile dst src m = .ok d m') (hdb : dst.buf = some db)
    (hsb : src.buf = some sb) (htype : src.type = some t) (hroom : xlateSize t ec toFile src.size < 2 ^ 64) :
    ∃ order, XlateArgs host encoding ec toFile dst src t order ∧
      ¬ (db ≠ sb ∧ sb < wrap (db + dst.size) ∧ db < wrap (sb + src.size)) ∧
      (if toFile then sb else db) % malign t ec = 0 := by
  have hwrap : wrap (src.size / inSize t ec toFile * outSize t ec toFile) = xlateSize t ec toFile src.size :=
    wrap_of_lt hroom
  unfold libelfXlate at h
  cases henc : encodingOrder host encoding with
  | none =>
    rw [henc] at h
    cases h
  | some order =>
  rw [henc] at h
  dsimp only at h
  by_cases hver : dst.version ≠ src.version
  · rw [if_pos hver] at h
    cases h
  rw [if_neg hver, hdb, hsb, htype] at h
  dsimp only at h
  by_cases hcur : src.version ≠ evCurrent
  · rw [if_pos hcur] at h
    cases h
  rw [if_neg hcur] at h
  by_cases hsize : fsize t ec = 0
  · rw [if_pos hsize] at h
    cases h
  rw [if_neg hsize] at h
  by_cases hmsize : msize t ec = 0
  · rw [if_pos hmsize] at h
    cases h
  rw [if_neg hmsize] at h
  by_cases hwhole : src.size % inSize t ec toFile ≠ 0
  · rw [if_pos hwhole] at h
    cases h
  rw [if_neg hwhole] at h
  by_cases hfit : dst.size < wrap (src.size / inSize t ec toFile * outSize t ec toFile)
  · rw [if_pos hfit] at h
    cases h
  rw [if_neg hfit] at h
  by_cases hoverlap : db ≠ sb ∧ sb < wrap (db + dst.size) ∧ db < wrap (sb + src.size)
  · rw [if_pos hoverlap] at h
    cases h
  rw [if_neg hoverlap] at h
  by_cases hmalign : malign t ec = 0
  · rw [if_pos hmalign] at h
    cases h
  rw [if_neg hmalign] at h
  by_cases halign : (if toFile then sb else db) % malign t ec ≠ 0
  · rw [if_pos halign] at h
    cases h
  rw [hwrap] at hfit
  exact ⟨order, ⟨henc, Decidable.not_not.mp hver, Decidable.not_not.mp hcur, htype, hsize,
    Decidable.not_not.mp hwhole, Nat.le_of_not_lt hfit⟩, hoverlap, Decidable.not_not.mp halign⟩

/-- A translation in place stores the bytes and returns the size that a translation into a buffer of its own
does. The bytes that no translation stores are the padding of `Elf_Move` in memory. -/
theorem xlate_in_place {dst' : XlateData} {db' : Nat} (hn : n < 2 ^ 64) (ht : t.isVariable = false)
    (htype : src.type = some t) (hsb : src.buf = some sb) (hs : sb + src.size ≤ n)
    -- the buffer of its own
    (hdb' : dst'.buf = some db') (hd' : db' + dst'.size ≤ n) (hne : db' ≠ sb)
    (hother : libelfXlate host encoding ec toFile dst' src m = .ok d m')
    -- the buffer of the source, large enough for both representations and aligned for the one in memory
    (hdb : dst.buf = some sb) (hd : sb + dst.size ≤ n) (hversion : dst.version = dst'.version)
    (hroom : xlateSize t ec toFile src.size ≤ dst.size) (halign : toFile = false → sb % malign t ec = 0) :
    ∃ e m'', libelfXlate host encoding ec toFile dst src m = .ok e m'' ∧ e.size = d.size ∧ e.type = d.type ∧
      (∀ i < d.size, storesByte t ec toFile i = true → m''.bytes[sb + i]? = m'.bytes[db' + i]?) ∧
      (toFile = true ∨ t ≠ .move → window m''.bytes sb d.size = window m'.bytes db' d.size) := by
  obtain ⟨order, hargs', hoverlap, halign'⟩ :=
    xlate_inv hother hdb' hsb htype (Nat.lt_of_le_of_lt hroom dst.size_lt)
  have hfs : ∃ fs, structDef ec t = some fs := by
    cases hfs : structDef ec t with
    | some fs => exact ⟨fs, rfl⟩
    | none =>
      refine absurd ?_ hargs'.size
      unfold fsize
      simp [ht, hfs]
  obtain ⟨fs, hfs⟩ := hfs
  have hplace : Separate db' dst'.size sb src.size := by
    rw [wrap_of_lt (by omega), wrap_of_lt (by omega)] at hoverlap
    unfold Separate
    by_contra hboth
    exact hoverlap ⟨hne, by omega, by omega⟩
  obtain ⟨d₁, m₁, hx₁, -, htype₁, hsize₁, -, hwin₁⟩ :=
    xlate_ok ht hfs hargs' hdb' hsb halign' hs hd' hn (.inr hplace) m
  rw [hother] at hx₁
  obtain ⟨rfl, rfl⟩ := Outcome.ok.inj hx₁
  have hargs : XlateArgs host encoding ec toFile dst src t order :=
    ⟨hargs'.encoding, hversion.trans hargs'.version, hargs'.current, htype, hargs'.size, hargs'.whole, hroom⟩
  have halign₂ : (if toFile then sb else sb) % malign t ec = 0 := by
    cases toFile with
    | true => exact halign'
    | false => exact halign rfl
  obtain ⟨e, m₂, hx₂, -, htype₂, hsize₂, -, hwin₂⟩ :=
    xlate_ok ht hfs hargs hdb hsb halign₂ hs hd hn (.inl rfl) m
  have hsame : e.size = d.size := hsize₂.trans hsize₁.symm
  have hwhole : src.size / srcSize toFile fs * srcSize toFile fs = src.size := by
    have hmod := hargs'.whole
    rw [inSize_of_structDef ht hfs] at hmod
    exact Nat.div_mul_cancel (Nat.dvd_of_mod_eq_zero hmod)
  have hcount : d.size = src.size / srcSize toFile fs * dstSize toFile fs := by
    rw [hsize₁, xlateSize, inSize_of_structDef ht hfs, outSize_of_structDef ht hfs]
  have hroom₁ : d.size ≤ dst'.size := hsize₁ ▸ hargs'.room
  have hroom₂ : d.size ≤ dst.size := hsize₁ ▸ hroom
  rw [hsame] at hwin₂
  have hlen : ∀ {a : Nat}, a + d.size ≤ n → (window m.bytes a d.size).length = src.size / srcSize toFile fs * dstSize toFile fs :=
    fun ha => (length_window (by rw [m.length_eq]; exact ha)).trans hcount
  have hstored : ∀ i < d.size, storesByte t ec toFile i = true →
      (window m₂.bytes sb d.size)[i]? = (window m'.bytes db' d.size)[i]? := by
    intro i hi hstores
    rw [hwin₂, hwin₁]
    exact xlateTable_stores hfs (hlen (by omega)) (hlen (by omega))
      ((length_window (by rw [m.length_eq]; exact hs)).trans hwhole.symm) (by omega) hstores
  refine ⟨e, m₂, hx₂, hsame, htype₂.trans htype₁.symm, ?_, fun hno => ?_⟩
  · intro i hi hstores
    have hbyte := hstored i hi hstores
    rwa [getElem?_window, getElem?_window, if_pos hi, if_pos hi] at hbyte
  · have hlen₂ : (window m₂.bytes sb d.size).length = d.size := length_window (by rw [m₂.length_eq]; omega)
    have hlen₁ : (window m'.bytes db' d.size).length = d.size := length_window (by rw [m'.length_eq]; omega)
    apply List.ext_getElem? 
    intro i
    by_cases hi : i < d.size
    · exact hstored i hi (storesByte_of_ne_move ec hno i)
    · rw [List.getElem?_eq_none (by omega), List.getElem?_eq_none (by omega)]

end InPlace

/-- Two `Elf32_Move` records of a file, 40 bytes at address 8. -/
def moveFile : XlateData := ⟨some 8, 40, some .move, 1, by decide⟩

/-- Room for the two records in memory, in a buffer of its own or over the bytes of the file. -/
def moveRoom (addr : Nat) : XlateData := ⟨some addr, 48, none, 1, by decide⟩

def countingMem : Mem 128 := ⟨(List.range 128).map UInt8.ofNat, by simp⟩

/-- The records grow from 20 to 24 bytes, over themselves; the four bytes behind each of them are padding. -/
theorem xlate_in_place_move : ∃ d m' e m'',
    libelfXlate .little 2 .elfclass32 false (moveRoom 64) moveFile countingMem = .ok d m' ∧
    libelfXlate .little 2 .elfclass32 false (moveRoom 8) moveFile countingMem = .ok e m'' ∧
    e.size = d.size ∧ d.size = 48 ∧ (List.range 48).filter (storesByte .move .elfclass32 false · = false) =
      [20, 21, 22, 23, 44, 45, 46, 47] ∧
    ∀ i < d.size, storesByte .move .elfclass32 false i = true → m''.bytes[8 + i]? = m'.bytes[64 + i]? := by
  have hother : (libelfXlate .little 2 .elfclass32 false (moveRoom 64) moveFile countingMem).returns
      (fun d _ => decide (d.size = 48)) = true := by decide +kernel
  obtain ⟨d, m', hother, hsize⟩ := exists_of_returns hother
  obtain ⟨e, m'', he, hsame, -, hstored, -⟩ := @xlate_in_place .little _ .elfclass32 .move false 2
    (moveRoom 8) moveFile d countingMem m' 8 (moveRoom 64) 64 (by decide) rfl rfl rfl (by decide)
    rfl (by decide) (by decide) hother rfl (by decide) rfl (by decide) (fun _ => by decide)
  exact ⟨d, m', e, m'', hother, he, hsame, of_decide_eq_true hsize, by decide, hstored⟩

end LibElf.Toolchain
