import LibElf.Toolchain.Update

/-!
# Writing an ELF object

The second half of `elf_update.c`: `_libelf_write_elf` builds the new image extent by extent and
makes it the contents of the file.

1. `xlateTof`, the checks of `_libelf_xlate` around a translator.
2. One writer for each type of extent. A writer returns the offset at which it ended.
3. `writeElf` and `elfUpdate`.

The new image is an object of its own, apart from every buffer the application owns.
-/

namespace LibElf.Toolchain

section Translate

variable (env : Env)

/-- The byte order a value of `e_byteorder` asks for; `ELFDATANONE` is that of the host. -/
def encodingOf (encoding : UInt8) : Option ByteOrder :=
  if encoding = 0 then some env.host
  else if encoding = 1 then some .little
  else if encoding = 2 then some .big
  else none

/-- `_libelf_xlate(dst, src, encoding, ec, ELF_TOFILE)`: `dst` is the `dsz` bytes at `off` of the new
image, `buf`, `size` and `t` are the buffer, the size and the type of the source. -/
def xlateTof (encoding : UInt8) (ec : ElfClass) {n : Nat} (off dsz dstVersion : Nat) (buf : Option Buf)
    (size : Nat) (t : Option ElfType) (srcVersion : Nat) (nf : Mem n) : Outcome ElfError (Mem n) Unit :=
  match encodingOf env encoding with
  | none => .err .ARGUMENT nf
  | some order =>
    if dstVersion ≠ srcVersion then .err .UNIMPL nf
    else
      match buf, t with
      | none, _ => .err .DATA nf
      | some _, none => .err .DATA nf
      | some buf, some t =>
        if fsize t ec = 0 then .err .UNIMPL nf
        else if size % msize t ec ≠ 0 then .err .DATA nf
        else
          let cnt := size / msize t ec
          if dsz < cnt * fsize t ec then .err .DATA nf
          else if malign t ec = 0 then .stop .division
          else if buf.addr % malign t ec ≠ 0 then .err .DATA nf
          else if size = 0 then .ok () nf
          else
            match getTranslator env.host t true ec with
            | none => .stop .null
            | some xlate =>
              match xlate n nf off (cnt * fsize t ec) buf.bytes cnt (decide (order ≠ env.host)) with
              | .stop f => .stop f
              | .err _ nf => .err .DATA nf
              | .ok _ nf => .ok () nf

end Translate

/-! ## The writers -/

/-- The descriptor and the new image while it is built. -/
structure Writing (n : Nat) where
  elf : Elf
  nf : Mem n

section Writers

variable (env : Env) (ec : ElfClass) {n : Nat}

/-- `memset` up to an offset that is above the current one. -/
def fillGap (rc target : Nat) (nf : Mem n) : Outcome ElfError (Mem n) Unit :=
  if rc < target then nf.fill rc (target - rc) env.fillchar else .ok () nf

def writeEhdr (ex : Extent) (w : Writing n) : Outcome ElfError (Writing n) Nat :=
  if ex.exStart ≠ 0 then .stop .assertion
  else
    match w.elf.eEhdr with
    | none => .stop .assertion
    | some h =>
      let fsz := fsize .ehdr ec
      let e := w.elf
      ((xlateTof env e.eByteorder ec 0 fsz e.eVersion (some ⟨env.heapAddr, h.toMem env.host ec⟩)
        (msize .ehdr ec) (some .ehdr) e.eVersion w.nf).within fun nf => ⟨e, nf⟩).bind fun _ w =>
      .ok fsz w

def phdrTable (ps : List Phdr) : List UInt8 := ps.flatMap fun p => p.toMem env.host ec

def writePhdr (ex : Extent) (w : Writing n) : Outcome ElfError (Writing n) Nat :=
  match w.elf.eEhdr with
  | none => .stop .assertion
  | some h =>
    let phnum := w.elf.eNphdr
    let phoff := ec.get h.ePhoff
    let fsz := libelfFsize .phdr ec phnum
    if phnum = 0 ∨ phoff = 0 ∨ ex.exStart ≠ phoff ∨ phoff % falign (some .phdr) ec ≠ 0 ∨ fsz = 0 then
      .stop .assertion
    else
      let table : Call (Option Buf) :=
        match getphdr env ec w.elf with
        | .stop f => .stop f
        | .err _ e => .ok none e
        | .ok ps e => .ok (some ⟨env.heapAddr, phdrTable env ec ps⟩) e
      (table.within fun e => ⟨e, w.nf⟩).bind fun buf w =>
      let e := w.elf
      ((xlateTof env e.eByteorder ec ex.exStart fsz e.eVersion buf (wrap (phnum * msize .phdr ec))
        (some .phdr) e.eVersion w.nf).within fun nf => ⟨e, nf⟩).bind fun _ w =>
      .ok (wrap (phoff + fsz)) w

/-- The loop of `_libelf_write_shdr` over the sections. -/
def shdrLoop (e : Elf) (start : Nat) : List Scn → Mem n → Outcome ElfError (Mem n) Unit
  | [], nf => .ok () nf
  | s :: ss, nf =>
    (xlateTof env e.eByteorder ec (start + s.sNdx * fsize .shdr ec) (fsize .shdr ec) e.eVersion
      (some ⟨env.heapAddr, s.shdr.toMem env.host ec⟩) (msize .shdr ec) (some .shdr) e.eVersion nf).bind
      fun _ nf => shdrLoop e start ss nf

def writeShdr (ex : Extent) (w : Writing n) : Outcome ElfError (Writing n) Nat :=
  match w.elf.eEhdr with
  | none => .stop .assertion
  | some h =>
    let e := w.elf
    let shoff := ec.get h.eShoff
    if e.eNscn = 0 ∨ shoff % falign (some .shdr) ec ≠ 0 ∨ ex.exStart ≠ shoff then .stop .assertion
    else
      ((shdrLoop env ec e ex.exStart e.eScn w.nf).within fun nf => ⟨e, nf⟩).bind fun _ w =>
      .ok (wrap (ex.exStart + e.eNscn * fsize .shdr ec)) w

/-- The loop of `_libelf_write_scn` over the raw descriptors of a section that was not modified: its
bytes come from the old image. -/
def rawLoop (e : Elf) (s : Scn) : Nat → List ElfData → Mem n → Outcome ElfError (Mem n) Nat
  | rc, [], nf => .ok rc nf
  | rc, d :: ds, nf =>
    let target := wrap (s.sOffset + d.dOff.toNat)
    (fillGap env rc target nf).bind fun _ nf =>
    if d.dBuf = none ∨ d.dType ≠ some .byte ∨ d.dVersion ≠ e.eVersion then .stop .assertion
    else
      (e.read (wrap (s.sRawoff + d.dOff.toNat)) d.dSize.toNat nf).bind fun bs nf =>
      (nf.write target bs).bind fun _ nf =>
      rawLoop e s (wrap (target + d.dSize.toNat)) ds nf

/-- The loop of `_libelf_write_scn` over the data descriptors of a section. -/
def dataLoop (e : Elf) (s : Scn) : Nat → List ElfData → Mem n → Outcome ElfError (Mem n) Nat
  | rc, [], nf => .ok rc nf
  | rc, d :: ds, nf =>
    match d.dType with
    | none => .stop .assertion
    | some t =>
      let target := wrap (s.sOffset + d.dOff.toNat)
      (fillGap env rc target nf).bind fun _ nf =>
      if d.dBuf = none ∨ d.dVersion ≠ e.eVersion then .stop .assertion
      else if msize t ec = 0 then .stop .division
      else if d.dSize.toNat % msize t ec ≠ 0 then .stop .assertion
      else
        let fsz := libelfFsize t ec (d.dSize.toNat / msize t ec)
        (xlateTof env e.eByteorder ec target fsz e.eVersion d.dBuf d.dSize.toNat (some t) d.dVersion
          nf).bind fun _ nf =>
        dataLoop e s (wrap (target + fsz)) ds nf

def writeScn (ex : Extent) (w : Writing n) : Outcome ElfError (Writing n) Nat :=
  match w.elf.eScn[ex.exDesc]? with
  | none => .stop .null
  | some s =>
    if s.isSkipped ∨ ec.get s.shdr.shSize = 0 then .ok ex.exStart w
    else
      match xlateShtype s.shdr.shType with
      | none => .stop .assertion
      | some t =>
        if falign (some t) ec = 0 then .stop .division
        else if s.sOffset % falign (some t) ec ≠ 0 then .stop .assertion
        else
          let e := w.elf
          if s.sData = [] then
            ((rawdata e ec s).within fun s => (⟨e.setScn (e.eScn.set ex.exDesc s), w.nf⟩ : Writing n)).bind
              fun _ w =>
            match w.elf.eScn[ex.exDesc]? with
            | none => .stop .null
            | some s =>
              (rawLoop env w.elf s ex.exStart s.sRawdata w.nf).within fun nf => ⟨w.elf, nf⟩
          else
            (dataLoop env ec e s ex.exStart s.sData w.nf).within fun nf => ⟨e, nf⟩

def writeExtent (ex : Extent) (w : Writing n) : Outcome ElfError (Writing n) Nat :=
  match ex.exType with
  | .ehdr => writeEhdr env ec ex w
  | .phdr => writePhdr env ec ex w
  | .scn => writeScn env ec ex w
  | .shdr => writeShdr env ec ex w

/-- The loop of `_libelf_write_elf` over the extents; `rc` is the end of the last one. -/
def writeLoop : Nat → List Extent → Writing n → Outcome ElfError (Writing n) Nat
  | rc, [], w => .ok rc w
  | rc, ex :: exs, w =>
    ((fillGap env rc ex.exStart w.nf).within fun nf => (⟨w.elf, nf⟩ : Writing n)).bind fun _ w =>
    (writeExtent env ec ex w).bind fun nrc w =>
    if isNeg nrc then .err .NONE w
    else if ex.tmax ≠ nrc ∨ nrc ≤ rc then .stop .assertion
    else writeLoop nrc exs w

/-- What `_libelf_write_elf` leaves of the descriptor once the file has the new contents. -/
def finishWrite (e : Elf) (im : Image) : Elf :=
  { e with
    eFd := some im.bytes
    eRawfile := if e.eCmd = .rdwr then some im else e.eRawfile
    eFlags := { e.eFlags with dirty := false }
    eScn := []
    eEhdr := none
    ePhdr := none }

def writeElf (newsize : Nat) (extents : List Extent) (e : Elf) : Call Nat :=
  if e.eCmd = .read then .stop .assertion
  else if hsize : newsize < 2 ^ 64 then
    match writeLoop env ec 0 extents ⟨e, Mem.fresh env.heap newsize⟩ with
    | .stop f => .stop f
    | .err err w => .err err w.elf
    | .ok rc w =>
      if rc ≠ newsize then .stop .assertion
      else if w.elf.eCmd = .rdwr ∧ (w.elf.eRawfile = none ∨ w.elf.eFlags.rawfileOwned = false) then
        .stop .assertion
      else if w.elf.eCmd = .write ∧ w.elf.eRawfile ≠ none then .stop .assertion
      else .ok rc (finishWrite w.elf ⟨env.heapAddr, w.nf.bytes, by rw [w.nf.length_eq]; exact hsize⟩)
  else .stop .assertion

end Writers

/-- The commands of `elf_update`. -/
inductive UpdateCmd
  | null
  | write
deriving DecidableEq

def elfUpdate (env : Env) (c : UpdateCmd) (e : Elf) : Call Nat :=
  match e.eClass with
  | none => .err .CLASS e
  | some ec =>
    let e := if e.eVersion = 0 then e.setVersion evCurrent else e
    if c = .write ∧ e.eCmd = .read then .err .MODE e
    else
      (resyncElf env ec e).bind fun (rc, extents) e =>
      if isNeg rc then .err .NONE e
      else if c = .null then .ok rc e
      else if e.eFd = none then .err .SEQUENCE e
      else writeElf env ec rc extents e

end LibElf.Toolchain
