import LibElf.Elfutils.ReadRuns

/-!
# What opening finds

A descriptor that was opened over an image meets the invariant of a run of questions: its sections have no
data yet, and where their headers are not read yet the table of the headers is in the range of the object.

1. `Elf.hdr_eq_identHdr`, the header that opening reads is the one found later.
2. `getShnum_fits`, `fileReadElf_found` and `session_opened`.
-/

namespace LibElf.Elfutils

open Outcome
open Toolchain (ElfClass Ehdr Phdr Shdr)

variable {env : Env} {buf : Option (List UInt8)} {ec : ElfClass} {swap : Bool} {e e' : Elf}

/-- The header at `e_ident`. -/
def identHdr (env : Env) (buf : Option (List UInt8)) (ec : ElfClass) (swap : Bool) (e : Elf) : Ehdr :=
  match buf with
  | some bs => Ehdr.ofFile env.host swap ec (bs.take (ehdrSize ec))
  | none => e.mapEhdr env ec swap

theorem identField_value {f : EhdrField} {h : Ehdr} (hh : identField env buf ec swap f e = .ok h e') :
    h = identHdr env buf ec swap e := by
  unfold identField at hh
  unfold identHdr
  cases buf with
  | some bs => exact (Outcome.ok.inj hh).1.symm
  | none =>
    obtain ⟨bs, t, hread, hrest⟩ := bind_eq_ok.mp hh
    obtain rfl := Elf.mapRead_ok hread
    exact (Outcome.ok.inj hrest).1.symm

/-- The section headers that are counted are in the range of the object. -/
theorem getShnum_fits {n : Nat} (h : getShnum env buf ec swap e = .ok n e') :
    n = 0 ∨ ec.get (identHdr env buf ec swap e).eShoff + n * shdrSize ec ≤ e.maximumSize := by
  have hfit : ∀ {k shoff : Nat}, (if truncated ec shoff e.maximumSize k then 0 else k) = 0 ∨
      shoff + (if truncated ec shoff e.maximumSize k then 0 else k) * shdrSize ec ≤ e.maximumSize := by
    intro k shoff
    split
    · exact .inl rfl
    · next hin =>
      right
      rw [truncated, Nat.mul_comm] at hin
      omega
  unfold getShnum at h
  obtain ⟨h₁, t, hfield, hrest⟩ := bind_eq_ok.mp h
  obtain rfl := identField_ok hfield
  obtain ⟨h₂, t', hfield', hrest'⟩ := bind_eq_ok.mp hrest
  obtain rfl := identField_ok hfield'
  obtain rfl := identField_value hfield'
  extract_lets shnum shoff at hrest'
  split at hrest'
  · split at hrest'
    · obtain rfl := (Outcome.ok.inj hrest').1
      exact .inl rfl
    · obtain ⟨size, t, hsize, hlast⟩ := bind_eq_ok.mp hrest'
      obtain rfl := shSize0_ok hsize
      split at hlast
      · cases hlast
      · obtain rfl := (Outcome.ok.inj hlast).1
        exact hfit
  · obtain rfl := (Outcome.ok.inj hrest').1
    exact hfit

/-- A section that nothing was read of. -/
def Scn.Unread (s : Scn) : Prop := s.rawdata = none ∧ s.dataRead = false ∧ s.dataList = []

theorem Scn.Unread.data {s : Scn} (h : s.Unread) (e₀ : Elf) : SectionData env ec e₀ s := by
  obtain ⟨hraw, -, hlist⟩ := h
  refine ⟨fun hs => ?_, fun _ => hlist, fun r hr => ?_, .inl hlist⟩
  · rw [hraw] at hs
    cases hs
  · rw [hraw] at hr
    cases hr

theorem Scn.unread_zero : Scn.zero.Unread := ⟨rfl, rfl, rfl⟩

theorem unread_fresh (n : Nat) : ∀ s ∈ freshSections n, s.Unread := by
  intro s hs
  obtain ⟨i, -, rfl⟩ := List.mem_map.mp hs
  exact Scn.unread_zero

theorem unread_inPlace (shdrs : List Shdr) : ∀ s ∈ sectionsInPlace shdrs, s.Unread := by
  intro s hs
  have hsame : ∀ {β : Type} (g : Scn → β) (b : β), (∀ s i, g { s with shndxIndex := i } = g s) →
      (∀ i h, g { Scn.zero with index := i, shdr := h } = b) → g s = b := by
    intro β g b hg hb
    have hmem : g s ∈ (sectionsInPlace shdrs).map g := List.mem_map_of_mem hs
    rw [map_sectionsInPlace g hg] at hmem
    obtain ⟨i, -, hi⟩ := List.mem_map.mp hmem
    rw [← hi, hb]
  exact ⟨hsame _ _ (fun _ _ => rfl) fun _ _ => rfl, hsame _ _ (fun _ _ => rfl) fun _ _ => rfl,
    hsame _ _ (fun _ _ => rfl) fun _ _ => rfl⟩

theorem readSections_unread {n : Nat} (h : readSections env ec swap n e = .ok () e') :
    ∃ scns, Found n scns ∧ (∀ s ∈ scns, s.Unread) ∧
      e' = (e.setScns [firstBlock e.cmd scns]).setScnincr 10 := by
  unfold readSections at h
  obtain ⟨hdr, t, hread, hrest⟩ := bind_eq_ok.mp h
  obtain rfl := Elf.header_ok hread
  extract_lets shoff at hrest
  split at hrest
  · split at hrest
    · cases hrest
    · obtain ⟨bs, t', hmap, hlast⟩ := bind_eq_ok.mp hrest
      obtain rfl := Elf.mapRead_ok hmap
      cases hlast
      have hfound := Found.inPlace (shdrTable env ec swap n bs)
      rw [show (shdrTable env ec swap n bs).length = n by simp [shdrTable]] at hfound
      exact ⟨_, hfound, unread_inPlace _, rfl⟩
  · cases hrest
    exact ⟨_, Found.fresh n, unread_fresh n, rfl⟩

/-- What the descriptor of an ELF object is opened with. -/
structure OpenedElf (env : Env) (ec : ElfClass) (e : Elf) : Prop where
  kind : e.kind = .elf
  elfClass : e.elfClass = some ec
  ehdr : e.ehdr.isSome
  phdr : e.phdr = none
  block : ∃ n scns, Found n scns ∧ (∀ s ∈ scns, s.Unread) ∧ e.scns = [firstBlock e.cmd scns] ∧
    (n = 0 ∨ ec.get (e.hdr env ec).eShoff + n * shdrSize ec ≤ e.maximumSize)
  scnincr : e.scnincr = 10

theorem fileReadElf_opened {ident : List UInt8} (hk : e.kind = .elf) (hphdr : e.phdr = none)
    (hbuf : e.mapAddress.isSome → buf = none) (h : fileReadElf env buf ident e = .ok () e') :
    ∃ ec, OpenedElf env ec e' := by
  unfold fileReadElf at h
  split at h
  · next ec order _ _ =>
    extract_lets swap at h
    obtain ⟨n, t, hshnum, hrest⟩ := bind_eq_ok.mp h
    obtain rfl := getShnum_ok hshnum
    have hfit := getShnum_fits hshnum
    split at hrest
    · cases hrest
    · split at hrest
      · next hmapped =>
        obtain ⟨scns, hfound, hunread, rfl⟩ := readSections_unread hrest
        refine ⟨ec, hk, rfl, rfl, hphdr, ⟨n, scns, hfound, hunread, rfl, ?_⟩, rfl⟩
        rw [hbuf hmapped.1, hmapped.2] at hfit
        exact hfit
      · obtain ⟨hdr, t, hfield, hlast⟩ := bind_eq_ok.mp hrest
        obtain rfl := identField_ok hfield
        obtain rfl := identField_value hfield
        obtain ⟨scns, hfound, hunread, rfl⟩ := readSections_unread hlast
        exact ⟨ec, hk, rfl, rfl, hphdr, ⟨n, scns, hfound, hunread, rfl, hfit⟩, rfl⟩
  · cases h

/-- A run of questions starts with the invariant. -/
theorem OpenedElf.session (h : OpenedElf env ec e) : Session env ec e e := by
  obtain ⟨n, scns, hfound, hunread, hscns, hfit⟩ := h.block
  have hlen : scns.length = n := by simpa using congrArg List.length hfound.index
  have hblocks := Blocks.found h.kind hfound hscns h.scnincr
  have hsections : e.sections = scns := by
    rw [Elf.sections, hscns, Chain.entries_cons, Chain.entries_nil, List.append_nil]
    exact List.take_left' rfl
  refine ⟨rfl, h.elfClass, h.ehdr, hblocks, by rw [hscns]; rfl, ?_, ?_, ?_⟩
  · rintro ⟨s, hmem, -⟩
    rw [hsections] at hmem ⊢
    rw [hlen]
    refine hfit.resolve_left fun hz => ?_
    rw [List.length_eq_zero_iff.mp (hlen.trans hz)] at hmem
    cases hmem
  · intro b hb s hmem
    rw [hscns] at hb
    obtain rfl := List.singleton_inj.mp hb
    rcases List.mem_append.mp hmem with hmem | hmem
    · exact (hunread s hmem).data e
    · obtain rfl := (List.mem_replicate.mp hmem).2
      exact Scn.unread_zero.data e
  · intro off cnt hp
    rw [h.phdr] at hp
    cases hp

end LibElf.Elfutils
