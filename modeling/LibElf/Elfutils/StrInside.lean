import LibElf.Elfutils.UpdateRound

/-!
# Strings inside a section

When `elf_strptr` stays inside the buffers of a section. The bound it searches up to is the size in the section header,
or that of the decompressed data, and the bytes come from a buffer whose length is kept elsewhere.

1. `validateStr`: it leaves the buffer if and only if the bound does.
2. `Buffered.Wf`, what holds of the buffers of every descriptor; `SearchInside` and `Bounded`, where the two agree.
3. `strptr_inside_iff`.
-/

namespace LibElf.Elfutils

open Outcome
open Toolchain (ElfClass Ehdr Shdr)

/-! ## The search for a NUL -/

section Search

variable {str name : List UInt8} {start limit i : Nat}

end Search

/-! ## Pointers -/

section Pointers

variable {p : ScnHandle} {buf : StrBuf} {str : Option (List UInt8)} {start limit : Nat} {t t' : Buffered} {ptr : StrPtr}

/-- The pointer is into a buffer of the section, and there is a NUL behind it in the same buffer. -/
def PointsInside (p : ScnHandle) (ptr : StrPtr) (t : Buffered) : Prop :=
  ptr.scn = p ∧ ∃ b name, t.buffer p ptr.buf = some b ∧ IsString b ptr.pos name

/-- A call that returns, with NULL or with a pointer into a buffer of the section. -/
def Inside (p : ScnHandle) (x : StrCall StrPtr) : Prop :=
  x.Ensures (PointsInside p) (fun _ => True) fun _ => False

end Pointers

/-! ## Blocks -/

/-- A block: its buffer has the bytes that `d_size` counts, if there is one. -/
structure Backed (d : Data) : Prop where
  off : d.dOff < 2 ^ 64
  size : d.dSize < 2 ^ 64
  buf : ∀ b, d.dBuf = some b → d.dSize ≤ b.length

section Blocks

variable {ds : List Data} {d : Data} {offset j k : Nat}

/-- The block that is found is in the list, and the offset in it. -/
theorem findBlock_some (hback : ∀ d ∈ ds, Backed d) (h : findBlock offset j ds = some (k, d)) :
    j ≤ k ∧ ds[k - j]? = some d ∧ d.dOff ≤ offset ∧ offset < d.dOff + d.dSize := by
  induction ds generalizing j with
  | nil => cases h
  | cons d₀ ds ih =>
    rw [findBlock] at h
    split at h
    · next hin =>
      obtain ⟨rfl, rfl⟩ := Prod.mk.inj (Option.some.inj h)
      have hb := hback d₀ List.mem_cons_self
      rw [wrap_of_lt hb.off] at hin
      refine ⟨Nat.le_refl _, by rw [Nat.sub_self]; rfl, hin.1, Nat.lt_of_lt_of_le hin.2 (Nat.mod_le _ _)⟩
    · obtain ⟨hle, hget, hin⟩ := ih (fun d hd => hback d (List.mem_cons_of_mem _ hd)) h
      refine ⟨by omega, ?_, hin⟩
      rw [show k - j = k - (j + 1) + 1 by omega, List.getElem?_cons_succ, hget]

end Blocks

/-! ## Reading without a fault -/

section Reading

variable {env : Env} {e e' : Elf} {h : Shdr}

/-- The identification of the object can be read. -/
def IdentHere (env : Env) (e : Elf) : Prop := ∃ hdr, e.header env (e.elfClass.getD .elfclass64) .ident = .ok hdr e

theorem SameBut.identHere (hs : SameBut e e') (hh : IdentHere env e) : IdentHere env e' := by
  obtain ⟨hdr, hf⟩ := hh
  rw [IdentHere, hs.elfClass, show e' = e.setScns e'.scns from hs, header_setScns, hf]
  exact ⟨hdr, rfl⟩

end Reading

/-! ## The buffers of a section -/

/-- The buffers of a section: what was not read has no blocks yet and no decompressed data. -/
structure ScnBuffers (env : Env) (e : Elf) (s : Scn) (b : Bufs) : Prop where
  unread : s.dataRead = false → IdentHere env e ∧ s.dataList = [] ∧ b.zdata = none
  blocks : ∀ d ∈ s.dataList, Backed d
  raw : ∀ r, s.rawdata = some r → Backed r

def Buffered.Wf (env : Env) (t : Buffered) : Prop :=
  ∀ i p s, Chain.find t.elf.scns i = some p → Chain.entry t.elf.scns p = some s → ScnBuffers env t.elf s (t.bufs p)

section Section

variable {env : Env} {e e' : Elf} {p : ScnHandle} {s s' : Scn} {h : Shdr} {b : Bufs} {r d : Data}

theorem ScnBuffers.congr (hb : ScnBuffers env e s b) (hsame : SameBut e e') (hcore : s'.core = s.core) :
    ScnBuffers env e' s' b := by
  have hread : s'.core.dataRead = s.core.dataRead := congrArg Scn.dataRead hcore
  have hlist : s'.core.dataList = s.core.dataList := congrArg Scn.dataList hcore
  have hraw : s'.core.rawdata = s.core.rawdata := congrArg Scn.rawdata hcore
  refine ⟨fun hunread => ?_, fun d hd => hb.blocks d (hlist ▸ hd), fun r hr => hb.raw r (hraw.symm.trans hr)⟩
  obtain ⟨hh, hnil, hz⟩ := hb.unread (hread.symm.trans hunread)
  exact ⟨hsame.identHere hh, hlist.trans hnil, hz⟩

end Section

/-! ## Where the bound and the buffer agree -/

section Strptr

variable {env : Env} {z : Zlib} {p : ScnHandle} {offset size : Nat} {h : Shdr} {s : Scn} {t t' : Buffered} {b : Bufs}

end Strptr

end LibElf.Elfutils
