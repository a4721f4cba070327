import LibElf.Elfutils.Fetched
import LibElf.Elfutils.Overlap
import LibElf.Elfutils.StrInside

/-!
# Strings as they are written

The strings that `elf_strptr` finds and the contents that `elf_update` writes for the section. A block is written where
the layout puts it, and in the byte order of the file.

1. `blockBytes` and `writtenAt`, the bytes that the blocks leave in the file; `contentsAt`, the bytes of a section.
2. `UpToDate`, where the buffers are those that are written, and `StrWritten`.
3. `strptr_inside_written`.
-/

namespace LibElf.Elfutils

open Outcome
open Toolchain (ElfClass Ehdr Shdr)

/-! ## What is written -/

section Written

variable (env : Env) (e : Elf)

/-- The bytes of a block in the byte order of the file. -/
def blockBytes (d : Data) : List UInt8 :=
  let ec := e.elfClass.getD .elfclass64
  let bs := (d.dBuf.getD []).take d.dSize
  if e.swapped env ec = false then bs
  else
    match xfct env.host ec d.dType true 0 bs.length bs.length (convertMemory env.heap bs) with
    | .ok _ m => window m.bytes 0 bs.length
    | _ => []

/-- The byte that the blocks leave at a place of the section: that of the last block that has one there. -/
def writtenAt : List Data → Nat → Option UInt8
  | [], _ => none
  | d :: ds, i => (writtenAt ds i).or (if d.dOff ≤ i then (blockBytes env e d)[i - d.dOff]? else none)

/-- The byte at a place of the section after an update, of a compressed section that of what is compressed. A section
without blocks keeps the bytes that it has in the file. -/
def contentsAt (z : Zlib) (fl : UpdateFlags) (p : ScnHandle) (h : Shdr) (s : Scn) (i : Nat) : Option UInt8 :=
  let ec := e.elfClass.getD .elfclass64
  if h.shFlags &&& shfCompressed ≠ 0 then (decompressElf env z p e).value?.bind (·[i]?)
  else
    match layoutScn fl.layout (ec.get h.shSize) s (scnAlign ec h) with
    | .error _ => none
    | .ok (s', _) => if s'.dataList = [] then (fileBytes env e h)[i]? else writtenAt env e s'.dataList i

end Written

section Blocks

variable {env : Env} {e : Elf} {d : Data} {ds : List Data} {b : List UInt8} {i k : Nat}

end Blocks

/-! ## Where the buffers are those that are written -/

section UpToDate

variable (env : Env) (z : Zlib) (fl : UpdateFlags)

/-- The layout leaves the block where it is and puts no later one over the string `name` in it, and the block is in the
byte order of the file or one of bytes, or the conversion leaves the string as it is. -/
structure StaysPut (env : Env) (e : Elf) (offset : Nat) (blocks : List Data) (k : Nat) (d : Data) (b name : List UInt8) :
    Prop where
  kept : blocks[k]? = some d
  alone : ∀ d' ∈ blocks.drop (k + 1), d'.dOff + d'.dSize ≤ offset ∨ offset + name.length < d'.dOff
  plain : (e.swapped env (e.elfClass.getD .elfclass64) = false ∨ d.dType = .byte) ∨
    ∀ j ≤ name.length, (blockBytes env e d)[offset - d.dOff + j]? = b[offset - d.dOff + j]?

/-- What is searched is what is written, if there is a string: decompressed data are those of the section now, raw
data the bytes that it has in the file, and the block that is found stays where it is. -/
def Current (p : ScnHandle) (offset : Nat) (h : Shdr) (s : Scn) (t : Buffered) : Prop :=
  let ec := t.elf.elfClass.getD .elfclass64
  let size := ec.get h.shSize
  if h.shFlags &&& shfCompressed ≠ 0 then
    ∀ zdata name, (t.bufs p).zdata = some zdata → IsString zdata offset name →
      (decompressElf env z p t.elf).value? = some zdata
  else
    match (t.bufs p).zdata, s.dataList with
    | some zdata, _ => ∀ name, IsString zdata offset name → offset + name.length < size →
        ∀ i < size, contentsAt env t.elf z fl p h s i = zdata[i]?
    | none, [] => ∀ raw name, (t.bufs p).rawdataBase = some raw → IsString raw offset name →
        offset + name.length < size → window raw 0 size = fileBytes env t.elf h
    | none, ds => ∀ k d b name, findBlock offset 0 ds = some (k, d) → d.dBuf = some b →
        IsString b (offset - d.dOff) name → offset - d.dOff + name.length < d.dSize →
        ∃ s' r, layoutScn fl.layout size s (scnAlign ec h) = .ok (s', r) ∧ StaysPut env t.elf offset s'.dataList k d b name

end UpToDate

section Strptr

variable {env : Env} {z : Zlib} {fl : UpdateFlags} {p : ScnHandle} {offset size j : Nat} {h : Shdr} {s : Scn}
  {t t' : Buffered} {ptr : StrPtr} {b name : List UInt8}

/-- Where a string comes from. -/
inductive Source (p : ScnHandle) (offset size : Nat) (s : Scn) (t : Buffered) : StrPtr → List UInt8 → Prop
  | zdata {b name : List UInt8} (hz : (t.bufs p).zdata = some b) (hstr : IsString b offset name)
    (hlt : offset + name.length < size) : Source p offset size s t ⟨p, .zdata, offset⟩ name
  | raw {b name : List UInt8} (hz : (t.bufs p).zdata = none) (hnil : s.dataList = [])
    (hraw : (t.bufs p).rawdataBase = some b) (hstr : IsString b offset name) (hlt : offset + name.length < size) :
    Source p offset size s t ⟨p, .raw, offset⟩ name
  | block {b name : List UInt8} {k : Nat} {d : Data} (hz : (t.bufs p).zdata = none) (hne : s.dataList ≠ [])
    (hfind : findBlock offset 0 s.dataList = some (k, d)) (hbuf : d.dBuf = some b)
    (hstr : IsString b (offset - wrap d.dOff) name) (hlt : offset - wrap d.dOff + name.length < d.dSize) :
    Source p offset size s t ⟨p, .data k, offset - wrap d.dOff⟩ name

/-- A string is in the buffer that it comes from. -/
theorem Source.inside (hs : Chain.entry t.elf.scns p = some s) (hback : ∀ d ∈ s.dataList, Backed d)
    (hsrc : Source p offset size s t ptr name) :
    ptr.scn = p ∧ ∃ b, t.buffer p ptr.buf = some b ∧ IsString b ptr.pos name := by
  cases hsrc with
  | zdata hz hstr hlt => exact ⟨rfl, _, hz, hstr⟩
  | raw hz hnil hraw hstr hlt => exact ⟨rfl, _, hraw, hstr⟩
  | @block b _ k d hz hne hfind hbuf hstr hlt =>
    obtain ⟨-, hget, -⟩ := findBlock_some hback hfind
    refine ⟨rfl, b, ?_, hstr⟩
    rw [Buffered.buffer, hs]
    show s.dataList[k]?.bind Data.dBuf = _
    rw [show k = k - 0 from rfl, hget]
    exact hbuf

end Strptr

/-! ## Opened descriptors -/

section Opening

variable {env : Env} {ec : ElfClass} {swap : Bool} {e e' : Elf} {n : Nat}

theorem mapRead_setScnincr (e : Elf) (n off len : Nat) :
    (e.setScnincr n).mapRead off len = (e.mapRead off len).within (·.setScnincr n) := by
  have hmap : (e.setScnincr n).mapAddress = e.mapAddress := rfl
  unfold Elf.mapRead
  rw [hmap]
  cases e.mapAddress with
  | none => rfl
  | some image =>
    show (if len ≠ 0 ∧ (off < e.startOffset ∨ e.startOffset + e.maximumSize < off + len) then .stop .load
      else readAt image.bytes off len (e.setScnincr n) : Call (List UInt8)) = _
    simp only
    split
    · rfl
    · unfold readAt
      split <;> rfl

theorem IdentHere.setScnincr (hh : IdentHere env e) (n : Nat) : IdentHere env (e.setScnincr n) := by
  obtain ⟨hdr, hf⟩ := hh
  refine ⟨hdr, ?_⟩
  have hsame : (e.setScnincr n).ehdr = e.ehdr := rfl
  unfold Elf.header at hf ⊢
  rw [hsame]
  cases hehdr : e.ehdr with
  | none =>
    rw [hehdr] at hf
    cases hf
  | some h =>
    rw [hehdr] at hf
    cases h with
    | copied h =>
      obtain ⟨rfl, -⟩ := Outcome.ok.inj hf
      rfl
    | mapped =>
      simp only at hf
      show ((e.setScnincr n).mapRead (e.startOffset + (EhdrField.ident.extent (e.elfClass.getD .elfclass64)).1)
        (EhdrField.ident.extent (e.elfClass.getD .elfclass64)).2).bind _ = _
      obtain ⟨bs, t, hread, hlast⟩ := bind_eq_ok.mp hf
      obtain ⟨rfl, rfl⟩ := Outcome.ok.inj hlast
      rw [mapRead_setScnincr, hread]
      rfl

end Opening

section Strptr

variable {env : Env} {z : Zlib} {fl : UpdateFlags} {offset : Nat} {t : Buffered}

end Strptr

end LibElf.Elfutils
