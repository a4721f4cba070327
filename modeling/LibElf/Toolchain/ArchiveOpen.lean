import LibElf.Toolchain.LifeCycle

/-!
# What the library opens

`libelfMemoryAt` on a range of addresses inside a block, from the bytes there alone.

1. `leadingEnd`: where `arSpecial` finds the end of the tables at the start of an archive (`arSpecial_of_some`,
   `arSpecial_of_none`).
2. `Block.Has` and `Block.region`, a part of a block and its bytes.
3. `accepts`: what `libelfMemoryAt` makes a descriptor of (`libelfMemoryAt_of_accepts`, `libelfMemoryAt_of_refuses`,
   `libelfMemoryAt_archive`).
-/

namespace LibElf.Toolchain

open Outcome

/-! ## The end of the tables -/

/-- The header at an offset, and the number in its size field. -/
def headerAt (bs : List UInt8) (off : Nat) : Option (List UInt8 × Nat) :=
  let arh := window bs off arHdrSize
  if off + arHdrSize ≤ bs.length ∧ arFmag arh = [0x60, 0x0A] then
    (arGetNumber (arSize arh) 10).map fun sz => (arh, sz)
  else none

/-- Where the tables at the start of an archive end; `none` for an archive that is refused. -/
def leadingEnd (bs : List UInt8) : Option Nat :=
  match headerAt bs sarmag with
  | none => none
  | some (arh, sz) =>
    let next := sarmag + arHdrSize + adjustArSize sz
    if window arh 0 1 = [0x2F] then
      if sz = 0 then none
      else if window arh 1 1 = [0x20] then
        match headerAt bs next with
        | none => none
        | some (arh', sz') =>
          if window arh' 0 3 = [0x2F, 0x2F, 0x20] then some (next + arHdrSize + adjustArSize sz') else some next
      else if window arh 1 2 = [0x2F, 0x20] then some next
      else some sarmag
    else if window arh 0 9 = [0x5F, 0x5F, 0x2E, 0x53, 0x59, 0x4D, 0x44, 0x45, 0x46] then some next
    else some sarmag

theorem adjustArSize_eq (n : Nat) : adjustArSize n = wrap (n + 1) / 2 % 2 ^ 31 * 2 := by
  have hdiv : (wrap (n + 1) &&& 0xFFFFFFFE) / 2 = wrap (n + 1) / 2 % 2 ^ 31 := by
    rw [Nat.and_div_two, ← Nat.and_two_pow_sub_one_eq_mod]
  have hmod : ¬ (wrap (n + 1) &&& 0xFFFFFFFE) % 2 = 1 := by simp
  rw [adjustArSize]
  omega

theorem adjustArSize_of_lt {n : Nat} (h : n + 1 < 2 ^ 32) : adjustArSize n = n + n % 2 := by
  rw [adjustArSize_eq, wrap_of_lt (by omega)]
  omega

/-- The first member is behind the magic string, at an even offset. -/
theorem leadingEnd_bounds {bs : List UInt8} {k : Nat} (h : leadingEnd bs = some k) : 0 < k ∧ k % 2 = 0 ∧ k < 2 ^ 34 := by
  have hround : ∀ n, adjustArSize n % 2 = 0 ∧ adjustArSize n < 2 ^ 32 := by
    intro n
    rw [adjustArSize_eq]
    omega
  simp only [leadingEnd, sarmag, arHdrSize] at h
  split at h
  · cases h
  next arh n _ =>
  have h₁ := hround n
  split at h
  · split at h
    · cases h
    split at h
    · split at h
      · cases h
      next arh' n' _ =>
      have h₂ := hround n'
      split at h <;> cases h <;> omega
    · split at h <;> cases h <;> omega
  · split at h <;> cases h <;> omega

/-- What can be opened: an ELF object with a known version, class and byte order, an archive with sound tables, or
bytes of any other kind. -/
def accepts (bs : List UInt8) : Bool :=
  if bs = [] then false
  else if eiNident < bs.length ∧ window bs 0 4 = [0x7F, 0x45, 0x4C, 0x46] then
    decide (identError (window bs 4 3) = none)
  else if sarmag ≤ bs.length ∧ window bs 0 8 = armag then (leadingEnd bs).isSome
  else true

/-- The magic string of an archive is not the one of an ELF object. -/
theorem not_elf_of_armag {bs : List UInt8} (hmag : window bs 0 8 = armag) : window bs 0 4 ≠ [0x7F, 0x45, 0x4C, 0x46] := by
  intro heq
  have hpre : window (window bs 0 8) 0 4 = window bs 0 4 := window_window (by decide)
  rw [hmag, heq] at hpre
  exact absurd hpre (by decide)

theorem accepts_of_armag {bs : List UInt8} (hlen : sarmag ≤ bs.length) (hmag : window bs 0 8 = armag) :
    accepts bs = (leadingEnd bs).isSome := by
  have hne : bs ≠ [] := by
    rintro rfl
    contradiction
  rw [accepts, if_neg hne, if_neg (fun h => not_elf_of_armag hmag h.2), if_pos ⟨hlen, hmag⟩]

/-! ## Reading a part of a block -/

section Region

variable {σ : Type} {b : Block} {image sz : Nat} {s : σ}

def Block.region (b : Block) (image sz : Nat) : List UInt8 := window b.bytes (image - b.addr) sz

structure Block.Has (b : Block) (image sz : Nat) : Prop where
  lo : b.addr ≤ image
  hi : image + sz ≤ b.addr + b.bytes.length

theorem Block.Has.length (h : b.Has image sz) : (b.region image sz).length = sz :=
  length_window (by have := h.lo; have := h.hi; omega)

theorem Block.Has.load (h : b.Has image sz) {off len : Nat} (hle : off + len ≤ sz) :
    b.load (image + off) len s = .ok (window (b.region image sz) off len) s := by
  have hlo := h.lo
  have hhi := h.hi
  have hin : image + off - b.addr + len ≤ b.bytes.length := by omega
  rw [Block.load, if_neg (by omega), readAt_of_le _ hin, Block.region, window_window hle]
  congr 2
  omega

theorem Block.Has.startsWith (h : b.Has image sz) (pat : List UInt8) : ∀ {off : Nat}, off + pat.length ≤ sz →
    b.startsWith (image + off) pat s = .ok (decide (window (b.region image sz) off pat.length = pat)) s := by
  induction pat with
  | nil => intro off _; simp [Block.startsWith]
  | cons c cs ih =>
    intro off hle
    simp only [List.length_cons] at hle
    have hsplit : window (b.region image sz) off (cs.length + 1) =
        window (b.region image sz) off 1 ++ window (b.region image sz) (off + 1) cs.length := by
      rw [Nat.add_comm, window_append_window]
    have hone : (window (b.region image sz) off 1).length = 1 := length_window (by rw [h.length]; omega)
    obtain ⟨x, hx⟩ := List.length_eq_one_iff.1 hone
    rw [Block.startsWith, h.load (by omega), bind_ok, List.length_cons, hsplit, hx]
    by_cases hc : x = c
    · subst hc
      rw [if_pos rfl, Nat.add_assoc, ih (by omega)]
      simp
    · rw [if_neg (by simpa using hc)]
      simp [hc]

theorem Block.has_self (b : Block) : b.Has b.addr b.bytes.length := ⟨Nat.le_refl _, Nat.le_refl _⟩

theorem Block.region_self (b : Block) : b.region b.addr b.bytes.length = b.bytes := by
  rw [Block.region, Nat.sub_self, window_full]

/-- A load that begins or ends outside of the block. -/
theorem Block.load_outside {p len : Nat} (hlen : 0 < len) (h : p < b.addr ∨ b.addr + b.bytes.length < p + len) :
    b.load p len s = .stop .load := by
  rw [Block.load]
  by_cases hp : p < b.addr
  · rw [if_pos hp]
  · rw [if_neg hp, readAt, if_neg (by omega)]

/-- A call does not return a value. -/
def NoResult {α : Type} (x : Outcome ElfError σ α) : Prop := ∀ a t, x ≠ .ok a t

theorem noResult_err {α : Type} (er : ElfError) (t : σ) : NoResult (.err er t : Outcome ElfError σ α) := by
  intro a t'
  simp

theorem noResult_stop {α : Type} (f : Fault) : NoResult (.stop f : Outcome ElfError σ α) := by
  intro a t'
  simp

theorem NoResult.bind {α β : Type} {x : Outcome ElfError σ α} {f : α → σ → Outcome ElfError σ β} (hx : NoResult x) :
    NoResult (x.bind f) := by
  cases x with
  | ok a t => exact absurd rfl (hx a t)
  | err er t => exact noResult_err er t
  | stop t => exact noResult_stop t

theorem headerAt_some {bs arh : List UInt8} {off n : Nat} (h : headerAt bs off = some (arh, n)) :
    off + arHdrSize ≤ bs.length ∧ arh = window bs off arHdrSize ∧ arFmag arh = [0x60, 0x0A] ∧
      arGetNumber (arSize arh) 10 = some n := by
  simp only [headerAt] at h
  split at h
  · next hin =>
    obtain ⟨n', hn', heq⟩ := Option.map_eq_some_iff.1 h
    cases heq
    exact ⟨hin.1, rfl, hin.2, hn'⟩
  · cases h

theorem readArHeader_of_some (h : b.Has image sz) {off : Nat} {r : List UInt8 × Nat}
    (hr : headerAt (b.region image sz) off = some r) :
    readArHeader b (wrap (image + off)) (image + sz) s = .ok r s := by
  obtain ⟨arh, n⟩ := r
  obtain ⟨hle, rfl, hmag, hn⟩ := headerAt_some hr
  rw [h.length] at hle
  have hhi := h.hi
  have hfits := b.fits
  rw [readArHeader, wrap_of_lt (by omega : image + off < 2 ^ 64),
    wrap_of_lt (by omega : image + off + arHdrSize < 2 ^ 64), if_neg (by omega), h.load hle, bind_ok]
  simp [hmag, hn]

theorem readArHeader_of_none (h : b.Has image sz) (hb : b.bytes.length < 2 ^ 63) {off : Nat} (hoff : off < 2 ^ 34)
    (hn : headerAt (b.region image sz) off = none) :
    NoResult (readArHeader b (wrap (image + off)) (image + sz) s) := by
  have hlo := h.lo
  have hhi := h.hi
  have hfits := b.fits
  by_cases hle : off + arHdrSize ≤ sz
  · -- the header can be read, and is no header
    rw [readArHeader, wrap_of_lt (by omega : image + off < 2 ^ 64),
      wrap_of_lt (by omega : image + off + arHdrSize < 2 ^ 64), if_neg (by omega), h.load hle, bind_ok]
    simp only [headerAt, h.length, hle, true_and] at hn
    split
    · exact noResult_err _ _
    · next hmag =>
      rw [if_pos (by simpa using hmag), Option.map_eq_none_iff] at hn
      rw [hn]
      exact noResult_err _ _
  · rw [readArHeader]
    split
    · exact noResult_err _ _
    · next hend =>
      -- the end of the header wrapped around, or its start did
      rw [Block.load_outside (by decide) ?_]
      · exact noResult_stop _
      · simp only [wrap, arHdrSize] at hend hle ⊢
        omega

/-- The tables end where `leadingEnd` says. -/
theorem arSpecial_of_some (h : b.Has image sz) {k : Nat} (hk : leadingEnd (b.region image sz) = some k) :
    ∃ m, arSpecial b (wrap (image + sarmag)) (image + sz) s = .ok m s ∧ m.next = wrap (image + k) := by
  have hhi := h.hi
  have hfits := b.fits
  rw [leadingEnd] at hk
  rcases hr : headerAt (b.region image sz) sarmag with _ | ⟨arh, n⟩
  · rw [hr] at hk
    cases hk
  have hle := (headerAt_some hr).1
  rw [h.length] at hle
  have hnext : wrap (wrap (wrap (image + sarmag) + arHdrSize) + adjustArSize n) =
      wrap (image + (sarmag + arHdrSize + adjustArSize n)) := by
    simp only [wrap]
    omega
  rw [hr] at hk
  rw [arSpecial, readArHeader_of_some h hr, bind_ok]
  simp only [hnext]
  simp only at hk
  split at hk
  · next hslash =>
    rw [if_pos hslash]
    split at hk
    · cases hk
    next hn0 =>
    rw [if_neg hn0]
    split at hk
    · next hsym =>
      rw [if_pos hsym]
      rcases hr' : headerAt (b.region image sz) (sarmag + arHdrSize + adjustArSize n) with _ | ⟨arh', n'⟩
      · rw [hr'] at hk
        cases hk
      rw [hr'] at hk
      rw [readArHeader_of_some h hr', bind_ok]
      simp only at hk
      split at hk
      · next hstr =>
        cases hk
        rw [if_pos hstr]
        refine ⟨_, rfl, ?_⟩
        simp only [wrap]
        omega
      · next hstr =>
        cases hk
        rw [if_neg hstr]
        exact ⟨_, rfl, rfl⟩
    · next hsym =>
      rw [if_neg hsym]
      split at hk
      · next hstr =>
        cases hk
        rw [if_pos hstr]
        exact ⟨_, rfl, rfl⟩
      · next hstr =>
        cases hk
        rw [if_neg hstr]
        exact ⟨_, rfl, rfl⟩
  · next hslash =>
    rw [if_neg hslash]
    split at hk
    · next hdef =>
      cases hk
      rw [if_pos hdef]
      exact ⟨_, rfl, rfl⟩
    · next hdef =>
      cases hk
      rw [if_neg hdef]
      exact ⟨_, rfl, rfl⟩

theorem adjustArSize_le (n : Nat) : adjustArSize n ≤ 0xFFFFFFFE := Nat.and_le_right

/-- The archive is refused where `leadingEnd` says so. -/
theorem arSpecial_of_none (h : b.Has image sz) (hb : b.bytes.length < 2 ^ 63)
    (hk : leadingEnd (b.region image sz) = none) :
    NoResult (arSpecial b (wrap (image + sarmag)) (image + sz) s) := by
  rw [leadingEnd] at hk
  rcases hr : headerAt (b.region image sz) sarmag with _ | ⟨arh, n⟩
  · rw [arSpecial]
    exact (readArHeader_of_none h hb (by decide) hr).bind
  have hnext : wrap (wrap (wrap (image + sarmag) + arHdrSize) + adjustArSize n) =
      wrap (image + (sarmag + arHdrSize + adjustArSize n)) := by
    simp only [wrap]
    omega
  rw [hr] at hk
  rw [arSpecial, readArHeader_of_some h hr, bind_ok]
  simp only [hnext]
  simp only at hk
  split at hk
  · next hslash =>
    rw [if_pos hslash]
    split at hk
    · next hn0 =>
      rw [if_pos hn0]
      exact noResult_err _ _
    next hn0 =>
    rw [if_neg hn0]
    split at hk
    · next hsym =>
      rw [if_pos hsym]
      rcases hr' : headerAt (b.region image sz) (sarmag + arHdrSize + adjustArSize n) with _ | ⟨arh', n'⟩
      · have hoff : sarmag + arHdrSize + adjustArSize n < 2 ^ 34 := by
          have := adjustArSize_le n
          simp only [sarmag, arHdrSize]
          omega
        exact (readArHeader_of_none h hb hoff hr').bind
      · rw [hr'] at hk
        simp only at hk
        split at hk <;> cases hk
    · split at hk <;> cases hk
  · split at hk <;> cases hk

/-! ## What can be opened -/

/-- What `libelfMemoryAt` makes of bytes that it accepts: a descriptor behind the ones there are. -/
structure Opened (b : Block) (image sz : Nat) (d : Desc) : Prop where
  active : d.eActivations = 1
  orphan : d.eParent = none
  file : d.eRawfile = image
  size : d.eRawsize = sz
  block : d.eBlock = b
  childless : ∀ a, d.eKind = .ar a → a.eNchildren = 0
  cmd : d.eCmd = .read

theorem accepts_nil : accepts [] = false := rfl

theorem Block.Has.region_ne_nil (h : b.Has image sz) (hsz : sz ≠ 0) : b.region image sz ≠ [] := by
  intro hnil
  have := h.length
  rw [hnil] at this
  exact hsz this.symm

/-- Whether the first bytes are a magic string, for an object that has that many. -/
theorem Block.Has.magic (h : b.Has image sz) {P : Prop} [Decidable P] (pat : List UInt8) (hP : P → pat.length ≤ sz)
    {s : Heap} :
    (if P then b.startsWith image pat s else .ok false s : Lib Bool) =
      .ok (decide (P ∧ window (b.region image sz) 0 pat.length = pat)) s := by
  by_cases hp : P
  · have hle : 0 + pat.length ≤ sz := by
      rw [Nat.zero_add]
      exact hP hp
    have hs : b.startsWith (image + 0) pat s = _ := h.startsWith pat hle
    rw [if_pos hp, ← Nat.add_zero image, hs]
    simp [hp]
  · simp [hp]

variable {t : Heap}

/-- An archive with sound tables is opened at the end of these. -/
theorem arOpen_of_some {d : Desc} (h : d.eBlock.Has d.eRawfile d.eRawsize) {k : Nat}
    (hk : leadingEnd (d.eBlock.region d.eRawfile d.eRawsize) = some k) :
    ∃ svr4 a, arOpen t.cells.length d (t.allocate d) =
        .ok t.cells.length (t.allocate { d with eVariantSvr4 := svr4, eKind := .ar a }) ∧
      a.eNext = offT (wrap (d.eRawfile + k) - d.eRawfile) ∧ a.eNchildren = 0 := by
  have hhi := h.hi
  have hfits := d.eBlock.fits
  have hend : wrap (d.eRawfile + d.eRawsize) = d.eRawfile + d.eRawsize := wrap_of_lt (by omega)
  obtain ⟨m, hm, hnext⟩ := arSpecial_of_some (s := t.allocate (d.setAr ⟨-1, 0, 0, 0, 0, 0⟩)) h hk
  refine ⟨m.svr4, ⟨offT (m.next - d.eRawfile), 0, m.rawstrtab, m.rawstrtabsz, m.rawsymtab, m.rawsymtabsz⟩, ?_, ?_, rfl⟩
  · rw [arOpen]
    simp only [Heap.put_allocate, hend]
    rw [hm, bind_ok, Heap.put_allocate]
  · simp only [hnext]

theorem arOpen_of_none {d : Desc} (h : d.eBlock.Has d.eRawfile d.eRawsize) (hb : d.eBlock.bytes.length < 2 ^ 63)
    (hk : leadingEnd (d.eBlock.region d.eRawfile d.eRawsize) = none) :
    NoResult (arOpen t.cells.length d (t.allocate d)) := by
  have hhi := h.hi
  have hfits := d.eBlock.fits
  have hend : wrap (d.eRawfile + d.eRawsize) = d.eRawfile + d.eRawsize := wrap_of_lt (by omega)
  rw [arOpen]
  simp only [hend]
  exact (arSpecial_of_none h hb hk).bind

def imageDesc (b : Block) (image sz : Nat) : Desc :=
  { Desc.fresh with eCmd := .read, eRawfile := image, eRawsize := sz, eBlock := b }

theorem opened_imageDesc : Opened b image sz (imageDesc b image sz) :=
  ⟨rfl, rfl, rfl, rfl, rfl, nofun, rfl⟩

/-- What `libelfMemoryAt` does with a range of addresses in a block. -/
theorem libelfMemoryAt_eq (h : b.Has image sz) (hsz : sz ≠ 0) :
    libelfMemoryAt b image sz t =
      if eiNident < sz ∧ window (b.region image sz) 0 4 = [0x7F, 0x45, 0x4C, 0x46] then
        let ident := window (b.region image sz) 4 3
        match identError ident with
        | some error => .err error ((t.allocate (imageDesc b image sz)).release t.cells.length)
        | none => .ok t.cells.length (t.allocate { imageDesc b image sz with
            eKind := .elf
            eByteorder := ident.getD 1 0
            eClass := ElfClass.ofByte (ident.getD 0 0)
            eVersion := (ident.getD 2 0).toNat })
      else if sarmag ≤ sz ∧ window (b.region image sz) 0 8 = armag then
        arOpen t.cells.length (imageDesc b image sz) (t.allocate (imageDesc b image sz))
      else .ok t.cells.length (t.allocate (imageDesc b image sz)) := by
  have hfour : eiNident < sz → 4 ≤ sz := by
    simp only [eiNident]
    omega
  rw [libelfMemoryAt, if_neg hsz]
  simp only
  rw [h.magic (P := eiNident < sz) [0x7F, 0x45, 0x4C, 0x46] hfour, bind_ok]
  by_cases helf : eiNident < sz ∧ window (b.region image sz) 0 4 = [0x7F, 0x45, 0x4C, 0x46]
  · have hseven : 4 + 3 ≤ sz := by
      have := helf.1
      simp only [eiNident] at this
      omega
    rw [if_pos (by simpa using helf), if_pos helf, h.load hseven, bind_ok]
    cases identError (window (b.region image sz) 4 3) with
    | some error => rfl
    | none =>
      simp only [Heap.put_allocate]
      rfl
  · rw [if_neg (by simpa using helf), if_neg helf, h.magic (P := sarmag ≤ sz) armag (fun hle => hle), bind_ok]
    rw [show armag.length = 8 from rfl]
    by_cases har : sarmag ≤ sz ∧ window (b.region image sz) 0 8 = armag
    · rw [if_pos (decide_eq_true har), if_pos har]
      rfl
    · rw [if_neg (by simpa using har), if_neg har]
      rfl

/-- Bytes that are accepted become a descriptor of their own. -/
theorem libelfMemoryAt_of_accepts (h : b.Has image sz) (hacc : accepts (b.region image sz) = true) :
    ∃ d, libelfMemoryAt b image sz t = .ok t.cells.length (t.allocate d) ∧ Opened b image sz d := by
  have hsz : sz ≠ 0 := by
    rintro rfl
    simp [Block.region, accepts] at hacc
  rw [accepts, if_neg (h.region_ne_nil hsz), h.length] at hacc
  rw [libelfMemoryAt_eq h hsz]
  split at hacc
  · next helf =>
    rw [if_pos helf]
    simp only [of_decide_eq_true hacc]
    exact ⟨_, rfl, ⟨rfl, rfl, rfl, rfl, rfl, nofun, rfl⟩⟩
  next helf =>
  rw [if_neg helf]
  split at hacc
  · next har =>
    obtain ⟨k, hk⟩ := Option.isSome_iff_exists.1 hacc
    obtain ⟨svr4, a, hopen, -, hchild⟩ := arOpen_of_some (t := t) (d := imageDesc b image sz) h hk
    rw [if_pos har]
    refine ⟨_, hopen, ⟨rfl, rfl, rfl, rfl, rfl, ?_, rfl⟩⟩
    intro a' ha'
    cases ha'
    exact hchild
  · next har =>
    rw [if_neg har]
    exact ⟨_, rfl, opened_imageDesc⟩

/-- Bytes that are not accepted do not become one. -/
theorem libelfMemoryAt_of_refuses (h : b.Has image sz) (hb : b.bytes.length < 2 ^ 63)
    (hacc : accepts (b.region image sz) = false) : NoResult (libelfMemoryAt b image sz t) := by
  by_cases hsz : sz = 0
  · rw [libelfMemoryAt, if_pos hsz]
    exact noResult_stop _
  rw [accepts, if_neg (h.region_ne_nil hsz), h.length] at hacc
  rw [libelfMemoryAt_eq h hsz]
  split at hacc
  · next helf =>
    rw [if_pos helf]
    simp only
    cases hid : identError (window (b.region image sz) 4 3) with
    | some error => exact noResult_err _ _
    | none => simp [hid] at hacc
  next helf =>
  rw [if_neg helf]
  split at hacc
  · next har =>
    rw [if_pos har]
    exact arOpen_of_none (d := imageDesc b image sz) h hb (Option.isNone_iff_eq_none.1 (Option.isSome_eq_false_iff.1 hacc))
  · cases hacc

/-- An archive with sound tables becomes a descriptor whose next member is the one behind them. -/
theorem libelfMemoryAt_archive (h : b.Has image sz) (hsz : sarmag ≤ sz) (hmag : window (b.region image sz) 0 8 = armag)
    {k : Nat} (hk : leadingEnd (b.region image sz) = some k) :
    ∃ d a, libelfMemoryAt b image sz t = .ok t.cells.length (t.allocate d) ∧ Opened b image sz d ∧ d.eKind = .ar a ∧
      a.eNext = offT (wrap (image + k) - image) := by
  have hne : sz ≠ 0 := by
    rintro rfl
    contradiction
  obtain ⟨svr4, a, hopen, hnext, hchild⟩ := arOpen_of_some (t := t) (d := imageDesc b image sz) h hk
  refine ⟨{ imageDesc b image sz with eVariantSvr4 := svr4, eKind := .ar a }, a, ?_,
    ⟨rfl, rfl, rfl, rfl, rfl, ?_, rfl⟩, rfl, hnext⟩
  · rw [libelfMemoryAt_eq h hne, if_neg (fun helf => not_elf_of_armag hmag helf.2), if_pos ⟨hsz, hmag⟩]
    exact hopen
  · intro a' ha'
    cases ha'
    exact hchild

end Region

end LibElf.Toolchain
