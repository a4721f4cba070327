import LibElf.Toolchain.Records

/-!
# The translators

The conversion routines of `libelf_convert.m4`. Each one reads `count` objects (bytes, for the
types of variable size) from `src` and stores them at offset `off` of a memory object; `dsz` is
the room there, and the result is the C function's 1 (`ok`) or 0 (`err`). Source and destination
are different objects.

1. The fixed-size types share `cvtTof` and `cvtTom`, the loops of MAKEPRIMFUNCS and MAKECOMPFUNCS.
2. `cvtByte`, `cvtGnuhash64`, `cvtNoteTof`, `cvtNoteTom` and `cvtVersion` are coded by hand.
3. `getTranslator` is the table of converters.
-/

namespace LibElf.Toolchain

/-- The result of a translator that stores into an object of `n` bytes. -/
abbrev Conversion (n : Nat) := Outcome Unit (Mem n) Unit

/-- A translator: destination, offset and room in it, source, count, whether to swap. -/
abbrev Converter := (n : Nat) → Mem n → Nat → Nat → List UInt8 → Nat → Bool → Conversion n

section Converters

variable (host : ByteOrder)

/-! ## Fixed-size types -/

/-- The forward loop over `count` objects of a conversion to the file. -/
def tofLoop (fs : List Field) (swap : Bool) {n : Nat} :
    Nat → Mem n → Nat → List UInt8 → Conversion n
  | 0, dst, _, _ => .ok () dst
  | count + 1, dst, off, src =>
    (readAt src 0 (naturalSize fs) dst).bind fun t dst =>
    (dst.write off (tofObject host swap fs t)).bind fun _ dst =>
    tofLoop fs swap count dst (off + packedSize fs) (src.drop (naturalSize fs))

/-- `_libelf_cvt_*_tof`: the room in the destination is not checked. -/
def cvtTof (fs : List Field) : Converter := fun _ dst off _ src count swap =>
  tofLoop host fs swap count dst off src

/-- The loop over the objects of a conversion to memory, from the last one down. No member is stored in the padding
of an object; its bytes, which C leaves unspecified, are those of the destination. -/
def tomLoop (fs : List Field) (swap : Bool) {n : Nat} (off : Nat) (src : List UInt8) :
    Nat → Mem n → Conversion n
  | 0, dst => .ok () dst
  | count + 1, dst =>
    (readAt src (count * packedSize fs) (packedSize fs) dst).bind fun s dst =>
    let d := off + count * naturalSize fs
    (dst.write d (tomObject host swap fs (window dst.bytes d (naturalSize fs)) s)).bind fun _ dst =>
    tomLoop fs swap off src count dst

def cvtTom (fs : List Field) : Converter := fun _ dst off dsz src count swap =>
  if dsz < count * naturalSize fs then .err () dst
  else tomLoop host fs swap off src count dst

/-! ## Bytes -/

/-- `memcpy` of `len` bytes at `s` in the source to `off` in the destination. -/
def copyBytes {n : Nat} (dst : Mem n) (off : Nat) (src : List UInt8) (s len : Nat) : Conversion n :=
  (readAt src s len dst).bind fun bs dst => dst.write off bs

def cvtByte : Converter := fun _ dst off dsz src count _ =>
  if dsz < count then .err () dst
  else copyBytes dst off src 0 count

/-! ## Words -/

def wordField : Field := ⟨4, true, wordWidth_pos⟩
def xwordField : Field := ⟨8, true, xwordWidth_pos⟩
def halfField : Field := ⟨2, true, halfWidth_pos⟩

/-- The value the host sees in a field: before the swap when it writes a file, after the swap when
it reads one. -/
def nativeField (toFile swap : Bool) (f : Field) (bs : List UInt8) : Nat :=
  ofBytes host (if toFile then bs else cvtField host swap f bs)

/-! ## Hash tables -/

/-- `_libelf_cvt_GNUHASH32_*`: the section is an array of words. -/
def cvtGnuhash32 (toFile : Bool) : Converter := fun n dst off dsz src srcsz swap =>
  if toFile then cvtTof host [wordField] n dst off dsz src (srcsz / 4) swap
  else cvtTom host [wordField] n dst off dsz src (srcsz / 4) swap

/-- `_libelf_cvt_GNUHASH64_*`. The header is four words; the Bloom filter, the buckets and the
chains follow. The two directions differ only in where they see the counts of the header. -/
def cvtGnuhash64 (toFile : Bool) : Converter := fun _ dst off dsz src srcsz swap =>
  if dsz < 16 ∨ srcsz < 16 then .err () dst
  else
    (readAt src 0 16 dst).bind fun hdr dst =>
    let nbuckets := nativeField host toFile swap wordField (window hdr 0 4)
    let maskwords := nativeField host toFile swap wordField (window hdr 8 4)
    let sz := nbuckets * 4 + maskwords * 8
    if srcsz - 16 < sz ∨ dsz - 16 < sz then .err () dst
    else
      (tofLoop host [wordField] swap 4 dst off hdr).bind fun _ dst =>
      (tofLoop host [xwordField] swap maskwords dst (off + 16) (src.drop 16)).bind fun _ dst =>
      (tofLoop host [wordField] swap nbuckets dst (off + 16 + maskwords * 8)
        (src.drop (16 + maskwords * 8))).bind fun _ dst =>
      if dsz - 16 - sz < srcsz - 16 - sz then .err () dst
      else
        -- the number of chains is kept in a `uint32_t`
        tofLoop host [wordField] swap ((srcsz - 16 - sz) / 4 % 2 ^ 32) dst
          (off + 16 + maskwords * 8 + nbuckets * 4) (src.drop (16 + maskwords * 8 + nbuckets * 4))

/-! ## Notes -/

/-- `ROUNDUP2(v, 4U)` in 32 bits. -/
def roundUp4 (v : Nat) : Nat := (v + 3) % 2 ^ 32 / 4 * 4

/-- The three words of a note header, and their translation. -/
def noteHeader (swap : Bool) (hdr : List UInt8) : List UInt8 :=
  tofObject host swap [wordField, wordField, wordField] hdr

/-- The loop of `_libelf_cvt_NOTE_tom` over the notes; `s` is the offset in the source, and `fuel`
bounds the number of notes left. -/
def noteTomLoop {n : Nat} (src : List UInt8) :
    Nat → Mem n → Nat → Nat → Nat → Nat → Conversion n
  | 0, _, _, _, _, _ => .stop .divergence
  | fuel + 1, dst, off, dsz, s, count =>
    if count ≤ 12 then .ok () dst
    else
      (readAt src s 12 dst).bind fun hdr dst =>
      let namesz := nativeField host false true wordField (window hdr 0 4)
      let descsz := nativeField host false true wordField (window hdr 4 4)
      (dst.write off (noteHeader host true hdr)).bind fun _ dst =>
      let sz := (roundUp4 namesz + roundUp4 descsz) % 2 ^ 32
      if count - 12 < sz ∨ dsz - 12 < sz then .err () dst
      else
        (copyBytes dst (off + 12) src (s + 12) sz).bind fun _ dst =>
        noteTomLoop src fuel dst (off + 12 + sz) (dsz - 12 - sz) (s + 12 + sz) (count - 12 - sz)

def cvtNoteTom : Converter := fun _ dst off dsz src count swap =>
  if dsz < count then .err () dst
  else if count < 12 then .err () dst
  else if !swap then copyBytes dst off src 0 count
  else noteTomLoop host src (count + 1) dst off dsz 0 count

/-- The loop of `_libelf_cvt_NOTE_tof`. The mask of the rounding has 32 bits. -/
def noteTofLoop {n : Nat} (src : List UInt8) : Nat → Mem n → Nat → Nat → Nat → Conversion n
  | 0, _, _, _, _ => .stop .divergence
  | fuel + 1, dst, off, s, count =>
    if count ≤ 12 then .ok () dst
    else
      (readAt src s 12 dst).bind fun hdr dst =>
      let namesz := nativeField host true true wordField (window hdr 0 4)
      let descsz := nativeField host true true wordField (window hdr 4 4)
      (dst.write off (noteHeader host true hdr)).bind fun _ dst =>
      let sz := min (roundUp4 (roundUp4 namesz + descsz)) (count - 12)
      (copyBytes dst (off + 12) src (s + 12) sz).bind fun _ dst =>
      noteTofLoop src fuel dst (off + 12 + sz) (s + 12 + sz) (count - 12 - sz)

def cvtNoteTof : Converter := fun _ dst off dsz src count swap =>
  if dsz < count then .err () dst
  else if !swap then copyBytes dst off src 0 count
  else noteTofLoop host src (count + 1) dst off 0 count

/-! ## Version sections -/

/-- The structures of a version section: their fields, and which fields hold the number of
auxiliary entries, the offset of the first one and the offset of the next entry. A structure has
the same size in memory and in the file. -/
structure VersionDef where
  ver : List Field
  aux : List Field
  cntAt : Nat
  auxAt : Nat
  nextAt : Nat
  auxNextAt : Nat
  size_ver : naturalSize ver = packedSize ver
  size_aux : naturalSize aux = packedSize aux

/-- `Verdef` and `Verdaux`. -/
def verdefDef : VersionDef :=
  ⟨[halfField, halfField, halfField, halfField, wordField, wordField, wordField],
    [wordField, wordField], 3, 5, 6, 1, by decide, by decide⟩

/-- `Verneed` and `Vernaux`. -/
def verneedDef : VersionDef :=
  ⟨[halfField, halfField, wordField, wordField, wordField],
    [wordField, halfField, halfField, wordField, wordField], 1, 3, 4, 4, by decide, by decide⟩

/-- Translate one structure without padding in the given direction. -/
def cvtObject (toFile swap : Bool) (fs : List Field) (bs : List UInt8) : List UInt8 :=
  if toFile then tofObject host swap fs bs else tomObject host swap fs (zeroObject fs) bs

/-- The value the host sees in field `i` of a structure without padding. -/
def nativeMember (toFile swap : Bool) (fs : List Field) (i : Nat) (bs : List UInt8) : Nat :=
  (decode host fs (if toFile then bs else cvtObject host false swap fs bs)).getD i 0

/-- The loop over the auxiliary entries of one entry; `d` and `s` are the offsets in destination
and source. -/
def auxLoop (toFile swap : Bool) (V : VersionDef) {n : Nat} (off dsz : Nat) (src : List UInt8)
    (count : Nat) : Nat → Mem n → Nat → Nat → Nat → Conversion n
  | 0, dst, anext, _, _ => if anext ≠ 0 then .err () dst else .ok () dst
  | cnt + 1, dst, anext, d, s =>
    if anext = 0 ∨ dsz < d + packedSize V.aux ∨ count < s + packedSize V.aux then .err () dst
    else
      (readAt src s (packedSize V.aux) dst).bind fun a dst =>
      let anext := nativeMember host toFile swap V.aux V.auxNextAt a
      (dst.write (off + d) (cvtObject host toFile swap V.aux a)).bind fun _ dst =>
      auxLoop toFile swap V off dsz src count cnt dst anext (d + anext) (s + anext)

/-- The loop over the entries. Offsets grow with every turn, so `fuel` bounds the turns. -/
def verLoop (toFile swap : Bool) (V : VersionDef) {n : Nat} (off dsz : Nat) (src : List UInt8)
    (count : Nat) : Nat → Mem n → Nat → Nat → Nat → Conversion n
  | 0, _, _, _, _ => .stop .divergence
  | fuel + 1, dst, vnext, d, s =>
    if vnext = 0 then .ok () dst
    else if dsz < d + packedSize V.ver ∨ count < s + packedSize V.ver then .err () dst
    else
      (readAt src s (packedSize V.ver) dst).bind fun t dst =>
      let aux := nativeMember host toFile swap V.ver V.auxAt t
      let cnt := nativeMember host toFile swap V.ver V.cntAt t
      let vnext := nativeMember host toFile swap V.ver V.nextAt t
      (dst.write (off + d) (cvtObject host toFile swap V.ver t)).bind fun _ dst =>
      if aux < packedSize V.ver then .err () dst
      else
        -- `anext` starts as all ones
        (auxLoop host toFile swap V off dsz src count cnt dst 0xFFFFFFFF (d + aux) (s + aux)).bind
          fun _ dst => verLoop toFile swap V off dsz src count fuel dst vnext (d + vnext) (s + vnext)

/-- `_libelf_cvt_VDEF*_*` and `_libelf_cvt_VNEED*_*`. -/
def cvtVersion (toFile : Bool) (V : VersionDef) : Converter := fun _ dst off dsz src count swap =>
  verLoop host toFile swap V off dsz src count (count + 1) dst 0xFFFFFFFF 0 0

/-! ## The table -/

def getTranslator (t : ElfType) (toFile : Bool) (ec : ElfClass) : Option Converter :=
  match t, ec with
  | .byte, _ => some cvtByte
  | .note, _ => some (if toFile then cvtNoteTof host else cvtNoteTom host)
  | .vdef, _ => some (cvtVersion host toFile verdefDef)
  | .vneed, _ => some (cvtVersion host toFile verneedDef)
  | .gnuhash, .elfclass32 => some (cvtGnuhash32 host toFile)
  | .gnuhash, .elfclass64 => some (cvtGnuhash64 host toFile)
  | t, ec => (structDef ec t).map fun fs => if toFile then cvtTof host fs else cvtTom host fs

end Converters

end LibElf.Toolchain
