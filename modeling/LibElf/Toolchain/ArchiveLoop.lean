import LibElf.Toolchain.ArchiveFormat

/-!
# The loop over the members of an archive

The loop of the manual, `while ((e = elf_begin(fd, ELF_C_READ, ar)) != NULL) { elf_next(e); elf_end(e); }`, on a
well-formed archive.

1. `archiveLoop` and what its body sees of a member, `Visit`.
2. `Stands`: the descriptor of the archive between two iterations. An iteration moves it behind the member
   (`loop_step`) or ends the loop (`loop_end`, `loop_refused`).
3. `loop_visits`: from a member on, the loop visits the members that are left exactly when it accepts all of them.
4. `visits_iff`: when the loop visits exactly the ordinary members. A member without bytes ends it
   (`emptyMember_ends`).
-/

namespace LibElf.Toolchain

open Outcome

/-! ## The loop -/

/-- What the body of the loop sees of a member: the address of its header, and its contents. -/
structure Visit where
  arhdr : Nat
  contents : List UInt8
deriving DecidableEq

def Desc.visit (d : Desc) : Visit := ⟨d.eRawhdr, d.eBlock.region d.eRawfile d.eRawsize⟩

/-- The loop over the archive `ar`, and its visits. A null pointer ends it, with an error or without. -/
def archiveLoop (env : Env) (fd : Int) (file : Option Block) (ar : Handle) : Nat → Heap → Lib (List Visit)
  | 0, _ => .stop .divergence
  | fuel + 1, s =>
    match elfBegin env fd .read (some ar) file s with
    | .stop f => .stop f
    | .err _ s => .ok [] s
    | .ok none s => .ok [] s
    | .ok (some e) s =>
      (s.deref e).bind fun d s =>
        (elfNext (some e) s).ignore.bind fun _ s =>
          (elfEnd (some e) s).ignore.bind fun _ s =>
            (archiveLoop env fd file ar fuel s).bind fun vs s => .ok (d.visit :: vs) s

/-- A file is opened as an archive and walked; the visits are `vs`. -/
def Walks (env : Env) (fd : Int) (b : Block) (s : Heap) (vs : List Visit) : Prop :=
  ∃ ar s₁, elfBegin env fd .read none (some b) s = .ok (some ar) s₁ ∧
    ∃ fuel s₂, archiveLoop env fd (some b) ar fuel s₁ = .ok vs s₂

/-- Members in a row, from the address `p` on, as visits. -/
def visits (p : Nat) : List Member → List Visit
  | [] => []
  | m :: ms => ⟨p, m.contents⟩ :: visits (p + m.bytes.length) ms

/-! ## One iteration -/

section Begin

variable {env : Env} {fd : Int} {file : Option Block} {ar e : Handle} {s t : Heap} {fuel : Nat}

theorem loop_of_err {er : ElfError} (h : elfBegin env fd .read (some ar) file s = .err er t) :
    archiveLoop env fd file ar (fuel + 1) s = .ok [] t := by
  rw [archiveLoop, h]

theorem loop_of_none (h : elfBegin env fd .read (some ar) file s = .ok none t) :
    archiveLoop env fd file ar (fuel + 1) s = .ok [] t := by
  rw [archiveLoop, h]

theorem loop_of_stop {f : Fault} (h : elfBegin env fd .read (some ar) file s = .stop f) :
    archiveLoop env fd file ar (fuel + 1) s = .stop f := by
  rw [archiveLoop, h]

theorem loop_of_some (h : elfBegin env fd .read (some ar) file s = .ok (some e) t) :
    archiveLoop env fd file ar (fuel + 1) s =
      (t.deref e).bind fun d s =>
        (elfNext (some e) s).ignore.bind fun _ s =>
          (elfEnd (some e) s).ignore.bind fun _ s =>
            (archiveLoop env fd file ar fuel s).bind fun vs s => .ok (d.visit :: vs) s := by
  rw [archiveLoop, h]

end Begin

/-- The descriptor of the archive between two iterations; the next member is at `k`, or there is none. -/
structure Stands (fd : Int) (b : Block) (k : Nat) (d : Desc) : Prop where
  active : d.eActivations = 1
  file : d.eRawfile = b.addr
  size : d.eRawsize = b.bytes.length
  block : d.eBlock = b
  cmd : d.eCmd = .read
  fd : d.eFd = fd
  kind : ∃ a, d.eKind = .ar a ∧ a.eNext = k ∧ a.eNchildren = 0

theorem Stands.ar {fd : Int} {b : Block} {k : Nat} {d : Desc} (hst : Stands fd b k d) {a : Ar} (ha : d.eKind = .ar a) :
    a.eNext = k ∧ a.eNchildren = 0 := by
  obtain ⟨a', ha', h⟩ := hst.kind
  rw [ha] at ha'
  cases ha'
  exact h

section Step

variable {env : Env} {fd : Int} {file : Option Block} {b : Block} {k : Nat} {m : Member} {s : Heap} {ar e : Handle}
  {d de : Desc} {a : Ar}

theorem elfBegin_of_stands (hl : s.Live ar d) (hst : Stands fd b k d) (ha : d.eKind = .ar a) :
    elfBegin env fd .read (some ar) file s = openMember fd .read ar d a s := by
  rw [elfBegin, Heap.deref_live hl, bind_ok, if_neg (by simp [hst.fd, hst.cmd]), ha, hst.fd]

/-- At the end of the archive the loop ends. -/
theorem loop_end (hl : s.Live ar d) (hst : Stands fd b 0 d) (fuel : Nat) :
    archiveLoop env fd file ar (fuel + 1) s = .ok [] s := by
  obtain ⟨a, ha, hnext, -⟩ := hst.kind
  have hzero : a.eNext = 0 := hnext
  exact loop_of_none (by rw [elfBegin_of_stands hl hst ha, openMember, if_pos hzero])

/-- `elf_next` moves the archive behind its member. -/
theorem elfNext_of_member (hle : s.Live e de) (hparent : de.eParent = some ar) (hl : s.Live ar d)
    (ha : d.eKind = .ar a) (hcmd : d.eCmd = .read) {off : Nat} (hoff : 0 < off) (hfile : de.eRawfile = d.eRawfile + off)
    (hin : off + de.eRawsize ≤ d.eRawsize) (hsize : d.eRawsize < 2 ^ 63) :
    ∃ s', elfNext (some e) s = .ok .read s' ∧ s'.Live ar (d.setAr { a with
        eNext := if d.eRawsize ≤ (off + de.eRawsize + 1) / 2 * 2 then 0 else ((off + de.eRawsize + 1) / 2 * 2 : Nat) }) ∧
      ∀ q x, ar ≠ q → s.Live q x → s'.Live q x := by
  have hsz : offT de.eRawsize = de.eRawsize := by
    simp only [offT, Int.bmod_def]
    omega
  have hsum : offT ((de.eRawfile : Int) - d.eRawfile + de.eRawsize) = (off + de.eRawsize : Nat) := by
    simp only [offT, Int.bmod_def, hfile]
    omega
  have hround : ((off + de.eRawsize : Nat) + 1 : Int) / 2 * 2 = ((off + de.eRawsize + 1) / 2 * 2 : Nat) := by omega
  have hall : offT d.eRawsize = d.eRawsize := by
    simp only [offT, Int.bmod_def]
    omega
  have hpos : ¬ (d.eCmd ≠ .read ∨ de.eRawfile ≤ d.eRawfile) := by
    rw [hcmd]
    simp only [ne_eq, not_true_eq_false, false_or]
    omega
  refine ⟨_, ?_, Heap.live_put hl, fun q x hne hx => (Heap.live_put_ne hne).2 hx⟩
  rw [elfNext, Heap.deref_live hle, bind_ok, hparent]
  simp only
  rw [Heap.deref_live hl, bind_ok, ha]
  simp only [hpos, if_false, hsz, hsum, hall, hround, Int.ofNat_le]

/-- A member that is not active any more is released, and the archive gets its count back. -/
theorem endLoop_of_member (hle : s.Live e de) (hactive : de.eActivations = 0)
    (hchild : ∀ a, de.eKind = .ar a → a.eNchildren = 0) (hparent : de.eParent = some ar) (hne : e ≠ ar)
    (hl : s.Live ar d) (ha : d.eKind = .ar a) (hup : d.eActivations ≠ 0) (fuel : Nat) :
    endLoop (fuel + 2) e s = .ok 0 ((s.put ar (d.setAr { a with eNchildren := a.eNchildren - 1 })).release e) := by
  have hsmall : ¬ de.ar?.any (fun a => 0 < a.eNchildren) = true := by
    rw [Desc.ar?]
    cases hk : de.eKind with
    | ar a' => simp [hchild a' hk]
    | elf => simp
    | none => simp
  rw [endLoop, Heap.deref_live hle, bind_ok, if_neg (by omega), if_neg hsmall, hparent]
  simp only
  rw [Heap.deref_live hl, bind_ok, ha]
  simp only
  -- the archive itself is still active
  rw [endLoop, Heap.deref_live ((Heap.live_release_ne hne).2 (Heap.live_put hl)), bind_ok]
  exact if_pos hup

/-- `elf_end` of a member that is active once. -/
theorem elfEnd_of_member (hle : s.Live e de) (hactive : de.eActivations = 1)
    (hchild : ∀ a, de.eKind = .ar a → a.eNchildren = 0) (hparent : de.eParent = some ar) (hne : e ≠ ar)
    (hl : s.Live ar d) (ha : d.eKind = .ar a) (hup : d.eActivations ≠ 0) :
    ∃ s', elfEnd (some e) s = .ok 0 s' ∧ s'.Live ar (d.setAr { a with eNchildren := a.eNchildren - 1 }) := by
  have hle₁ : (s.put e { de with eActivations := 0 }).Live e { de with eActivations := 0 } := Heap.live_put hle
  have hl₁ : (s.put e { de with eActivations := 0 }).Live ar d := (Heap.live_put_ne hne).2 hl
  obtain ⟨n, hn⟩ := Nat.exists_eq_succ_of_ne_zero (Nat.ne_of_gt (Nat.zero_lt_of_lt hle₁.lt))
  refine ⟨_, ?_, (Heap.live_release_ne hne).2 (Heap.live_put hl₁)⟩
  rw [elfEnd]
  simp only
  rw [Heap.deref_live hle, bind_ok, if_neg (by omega)]
  simp only [hactive, Nat.sub_self, Nat.lt_irrefl, if_false]
  rw [hn]
  exact endLoop_of_member hle₁ rfl hchild hparent hne hl₁ ha hup n

/-- Opening the member that comes next. -/
theorem openMember_of_accepts (hl : s.Live ar d) (hst : Stands fd b k d) (ha : d.eKind = .ar a) (hk : 0 < k)
    (heven : k % 2 = 0) (hm : MemberAt b k m) (hacc : accepts m.contents = true) :
    ∃ de s', openMember fd .read ar d a s = .ok (some s.cells.length) s' ∧
      s'.Live s.cells.length de ∧ de.eActivations = 1 ∧ (∀ a, de.eKind = .ar a → a.eNchildren = 0) ∧
      de.eParent = some ar ∧ de.eRawfile = b.addr + k + (60 + m.longName.length) ∧ de.eRawsize = m.contents.length ∧
      de.visit = ⟨b.addr + k, m.contents⟩ ∧ s'.Live ar (d.setAr { a with eNchildren := a.eNchildren + 1 }) := by
  obtain ⟨hnext, hchildren⟩ := hst.ar ha
  obtain ⟨hhas, hregion⟩ := hm.contents
  obtain ⟨de, hopen, hde⟩ := libelfMemoryAt_of_accepts (t := s) hhas (by rw [hregion]; exact hacc)
  have hin := hm.inside
  have hpos := m.length_pos
  have hfits := b.fits
  have harh : ptrAdd d.eRawfile a.eNext = b.addr + k := by
    rw [hnext, hst.file, ptrAdd]
    omega
  have hne : m.contents.length ≠ 0 := by
    intro hzero
    rw [List.length_eq_zero_iff.1 hzero, accepts_nil] at hacc
    cases hacc
  have haddr := b.addr_pos
  have hlive : (s.allocate de).Live s.cells.length de := Heap.live_allocate_self
  have hltar := hl.lt
  have hlar : (s.allocate de).Live ar d := Heap.live_allocate.2 (.inl hl)
  have hsep : ar ≠ s.cells.length := Nat.ne_of_lt hltar
  refine ⟨{ de with eFd := fd, eCmd := .read, eRawhdr := b.addr + k, eParent := some ar },
    ((s.allocate de).put ar (d.setAr { a with eNchildren := a.eNchildren + 1 })).put s.cells.length
      { de with eFd := fd, eCmd := .read, eRawhdr := b.addr + k, eParent := some ar }, ?_, ?_, hde.active, hde.childless,
    rfl, hde.file, hde.size, ?_, ?_⟩
  · rw [openMember, if_neg (by omega), if_neg (by omega)]
    simp only [harh, hst.block]
    rw [hm.load_header, bind_ok, hm.memberRange]
    simp only
    rw [elfMemory, if_neg (by omega), hopen, bind_ok, Heap.deref_live hlive, bind_ok, if_neg (by omega)]
  · exact Heap.live_put ((Heap.live_put_ne hsep).2 hlive)
  · rw [Desc.visit]
    simp only [hde.file, hde.size, hde.block, hregion]
  · exact (Heap.live_put_ne hsep.symm).2 (Heap.live_put hlar)

/-- A member that is not accepted is not opened. -/
theorem openMember_of_refuses (hst : Stands fd b k d) (ha : d.eKind = .ar a) (hk : 0 < k) (heven : k % 2 = 0)
    (hb : b.bytes.length < 2 ^ 63) (hm : MemberAt b k m) (hacc : accepts m.contents = false) :
    NoResult (openMember fd .read ar d a s) := by
  obtain ⟨hnext, -⟩ := hst.ar ha
  obtain ⟨hhas, hregion⟩ := hm.contents
  have hin := hm.inside
  have hpos := m.length_pos
  have hfits := b.fits
  have harh : ptrAdd d.eRawfile a.eNext = b.addr + k := by
    rw [hnext, hst.file, ptrAdd]
    omega
  have hno : NoResult (elfMemory b (b.addr + k + (60 + m.longName.length)) m.contents.length s) := by
    rw [elfMemory]
    split
    · exact noResult_err _ _
    · exact libelfMemoryAt_of_refuses hhas hb (by rw [hregion]; exact hacc)
  rw [openMember, if_neg (by omega), if_neg (by omega)]
  simp only [harh, hst.block]
  rw [hm.load_header, bind_ok, hm.memberRange]
  exact hno.bind

/-- Where the archive stands behind a member. -/
def nextOffset (b : Block) (k : Nat) (m : Member) : Nat :=
  if b.bytes.length ≤ k + m.bytes.length then 0 else k + m.bytes.length

variable (env file) in
/-- One iteration visits the member, and leaves the archive behind it. -/
theorem loop_step (hl : s.Live ar d) (hst : Stands fd b k d) (hk : 0 < k) (heven : k % 2 = 0)
    (hb : b.bytes.length < 2 ^ 63) (hm : MemberAt b k m) (hacc : accepts m.contents = true) :
    ∃ s' d', s'.Live ar d' ∧ Stands fd b (nextOffset b k m) d' ∧
      ∀ fuel, archiveLoop env fd file ar (fuel + 1) s =
        (archiveLoop env fd file ar fuel s').bind fun vs t => .ok (⟨b.addr + k, m.contents⟩ :: vs) t := by
  obtain ⟨a, ha, hnext, hchildren⟩ := hst.kind
  obtain ⟨de, s₁, hopen, hle, hactive, hchild, hparent, hfile, hsize, hvisit, hl₁⟩ :=
    openMember_of_accepts hl hst ha hk heven hm hacc
  have hlen := m.length_bytes
  have hin := hm.inside
  simp only [Member.payload, List.length_append] at hlen
  have hfile' : de.eRawfile = d.eRawfile + (k + (60 + m.longName.length)) := by
    rw [hfile, hst.file]
    omega
  have hin' : k + (60 + m.longName.length) + de.eRawsize ≤ d.eRawsize := by
    rw [hsize, hst.size]
    omega
  obtain ⟨s₂, hmove, hl₂, hkeep⟩ := elfNext_of_member hle hparent hl₁ rfl hst.cmd (by omega) hfile' hin'
    (by simpa [hst.size] using hb)
  have hne : s.cells.length ≠ ar := Nat.ne_of_gt hl.lt
  obtain ⟨s₃, hend, hl₃⟩ := elfEnd_of_member (hkeep _ _ hne.symm hle) hactive hchild hparent hne hl₂ rfl
    (by simp [hst.active])
  have hround : (k + (60 + m.longName.length) + de.eRawsize + 1) / 2 * 2 = k + m.bytes.length := by
    rw [hsize]
    omega
  refine ⟨s₃, _, hl₃, ⟨hst.active, hst.file, hst.size, hst.block, hst.cmd, hst.fd, _, rfl, ?_, ?_⟩, fun fuel => ?_⟩
  · simp only [hround, Desc.setAr_eRawsize, hst.size, nextOffset]
    split <;> rfl
  · simp only [hchildren]
    rfl
  · rw [loop_of_some ((elfBegin_of_stands hl hst ha).trans hopen), Heap.deref_live hle, bind_ok, hmove, ignore_ok,
      bind_ok, hend, ignore_ok, bind_ok, hvisit]

/-- A member that is not accepted ends the loop, if it ends at all. -/
theorem loop_refused (hl : s.Live ar d) (hst : Stands fd b k d) (hk : 0 < k) (heven : k % 2 = 0)
    (hb : b.bytes.length < 2 ^ 63) (hm : MemberAt b k m) (hacc : accepts m.contents = false) {fuel : Nat}
    {vs : List Visit} {t : Heap} (hrun : archiveLoop env fd file ar fuel s = .ok vs t) : vs = [] := by
  obtain ⟨a, ha, -, -⟩ := hst.kind
  have hno : NoResult (openMember fd .read ar d a s) := openMember_of_refuses hst ha hk heven hb hm hacc
  have hbegin : elfBegin env fd .read (some ar) file s = openMember fd .read ar d a s := elfBegin_of_stands hl hst ha
  cases fuel with
  | zero => cases hrun
  | succ fuel =>
    cases hopen : openMember fd .read ar d a s with
    | ok r t' => exact absurd hopen (hno r t')
    | err er t' =>
      rw [loop_of_err (hbegin.trans hopen)] at hrun
      cases hrun
      rfl
    | stop f =>
      rw [loop_of_stop (hbegin.trans hopen)] at hrun
      cases hrun

end Step

/-! ## The walk -/

section Walk

variable {env : Env} {fd : Int} {file : Option Block} {b : Block} {ar : Handle}

/-- Where the archive stands before members in a row. -/
def standOffset (k : Nat) : List Member → Nat
  | [] => 0
  | _ :: _ => k

/-- From the first of some members in a row on, the loop visits them exactly when it accepts all of them. -/
theorem loop_visits (hb : b.bytes.length < 2 ^ 63) (ms : List Member) : ∀ {k : Nat} {s : Heap} {d : Desc}, 0 < k →
    k % 2 = 0 → Row b k ms → s.Live ar d → Stands fd b (standOffset k ms) d →
    ((∃ fuel t, archiveLoop env fd file ar fuel s = .ok (visits (b.addr + k) ms) t) ↔
      ∀ m ∈ ms, accepts m.contents = true) := by
  induction ms with
  | nil =>
    intro k s d _ _ _ hl hst
    exact ⟨fun _ => nofun, fun _ => ⟨1, s, loop_end hl hst 0⟩⟩
  | cons m ms ih =>
    intro k s d hk heven hrow hl (hst : Stands fd b k d)
    obtain ⟨hm, hrest⟩ := hrow.cons
    cases hacc : accepts m.contents with
    | false =>
      constructor
      · rintro ⟨fuel, t, hrun⟩
        exact absurd (loop_refused hl hst hk heven hb hm hacc hrun) (by simp [visits])
      · intro hall
        rw [hall m List.mem_cons_self] at hacc
        cases hacc
    | true =>
      obtain ⟨s', d', hl', hst', hstep⟩ := loop_step env file hl hst hk heven hb hm hacc
      have hnext : nextOffset b k m = standOffset (k + m.bytes.length) ms := by
        cases ms with
        | nil => rw [nextOffset, if_pos (Nat.le_of_eq hrest.nil.symm)]; rfl
        | cons m' ms' =>
          have hin := hrest.cons.1.inside
          have hpos := m'.length_pos
          rw [nextOffset, if_neg (by omega)]
          rfl
      have heven' : (k + m.bytes.length) % 2 = 0 := by
        have := m.even_length_bytes
        omega
      have ih' := ih (by omega) heven' hrest hl' (hnext ▸ hst')
      constructor
      · rintro ⟨fuel, t, hrun⟩
        cases fuel with
        | zero => cases hrun
        | succ fuel =>
          rw [hstep] at hrun
          obtain ⟨vs, t', hvs, heq⟩ := bind_eq_ok.1 hrun
          simp only [visits, ok.injEq, List.cons.injEq, true_and] at heq
          rw [heq.1, Nat.add_assoc] at hvs
          exact List.forall_mem_cons.2 ⟨hacc, ih'.1 ⟨fuel, t', hvs⟩⟩
      · intro hall
        obtain ⟨fuel, t, hvs⟩ := ih'.2 (List.forall_mem_cons.1 hall).2
        refine ⟨fuel + 1, t, ?_⟩
        rw [hstep, hvs, bind_ok, visits, Nat.add_assoc]

end Walk

/-! ## Opening the archive -/

section Opening

variable {env : Env} {fd : Int} {b : Block} {s : Heap} {ms : List Member} {k : Nat}

variable (env fd s) in
/-- An archive with sound tables is opened, and stands behind these. -/
theorem elfBegin_of_some (hb : b.bytes = archive ms) (hk : leadingEnd b.bytes = some k) :
    ∃ ar s' d, elfBegin env fd .read none (some b) s = .ok (some ar) s' ∧ s'.Live ar d ∧ Stands fd b k d := by
  obtain ⟨hlen, hmag, hne⟩ := archive_head hb
  obtain ⟨d, a, hopen, hd, ha, hnext⟩ := libelfMemoryAt_archive (t := s) b.has_self hlen
    (by rw [b.region_self]; exact hmag) (by rw [b.region_self]; exact hk)
  have hl : (s.allocate d).Live s.cells.length d := Heap.live_allocate_self
  refine ⟨s.cells.length, _, { d with eFd := fd, eCmd := .read }, ?_, Heap.live_put hl,
    ⟨hd.active, hd.file, hd.size, hd.block, rfl, rfl, a, ha, ?_, hd.childless a ha⟩⟩
  · rw [elfBegin, openObjectAt]
    simp only [if_neg hne, hopen, bind_ok, Heap.deref_live hl]
    · rw [if_neg (by simp)]
    · exact nofun
  · have hbound := leadingEnd_bounds hk
    have hfits := b.fits
    rw [hnext]
    simp only [offT, wrap, Int.bmod_def]
    omega

/-- An archive with bad tables is not opened. -/
theorem elfBegin_of_none (hb : b.bytes = archive ms) (hlt : b.bytes.length < 2 ^ 63) (hk : leadingEnd b.bytes = none) :
    NoResult (elfBegin env fd .read none (some b) s) := by
  obtain ⟨hlen, hmag, hne⟩ := archive_head hb
  have hrefused : accepts (b.region b.addr b.bytes.length) = false := by
    rw [b.region_self, accepts_of_armag hlen hmag, hk]
    rfl
  have hno := libelfMemoryAt_of_refuses (t := s) b.has_self hlt hrefused
  rw [elfBegin, openObjectAt]
  · simp only [if_neg hne]
    exact hno.bind
  · exact nofun

end Opening

/-! ## The first visit -/

section First

variable {env : Env} {fd : Int} {file : Option Block} {b : Block} {k : Nat} {s t : Heap} {ar e : Handle} {d de : Desc}
  {a : Ar}

/-- A member that was opened remembers where its header is. -/
theorem openMember_ok {c : ElfCmd} {r : Option Handle} (h : openMember fd c ar d a s = .ok r t) :
    (r = none ∧ a.eNext = 0) ∨ ∃ e de, r = some e ∧ t.Live e de ∧ de.eRawhdr = ptrAdd d.eRawfile a.eNext := by
  rw [openMember] at h
  split at h
  · next hzero =>
    cases h
    exact .inl ⟨rfl, hzero⟩
  split at h
  · cases h
  obtain ⟨hdr, t₁, -, h⟩ := bind_eq_ok.1 h
  split at h
  · cases h
  obtain ⟨e, t₂, -, h⟩ := bind_eq_ok.1 h
  obtain ⟨de, t₃, hderef, hrest⟩ := bind_eq_ok.1 h
  obtain ⟨hle, rfl⟩ := Heap.deref_eq_ok hderef
  split at hrest
  · cases hrest
  cases hrest
  refine .inr ⟨e, { de with eFd := fd, eCmd := c, eRawhdr := ptrAdd d.eRawfile a.eNext, eParent := some ar }, rfl, ?_, rfl⟩
  by_cases hsame : ar = e
  · subst hsame
    exact Heap.live_put (Heap.live_put hle)
  · exact Heap.live_put ((Heap.live_put_ne hsame).2 hle)

/-- The first visit is to the member where the archive stands. -/
theorem loop_first (hl : s.Live ar d) (hst : Stands fd b k d) {fuel : Nat} {v : Visit} {vs : List Visit}
    (hrun : archiveLoop env fd file ar fuel s = .ok (v :: vs) t) : v.arhdr = ptrAdd b.addr k := by
  obtain ⟨a, ha, hnext, -⟩ := hst.kind
  have hbegin : elfBegin env fd .read (some ar) file s = openMember fd .read ar d a s := elfBegin_of_stands hl hst ha
  cases fuel with
  | zero => cases hrun
  | succ fuel =>
    cases hopen : openMember fd .read ar d a s with
    | err er t' =>
      rw [loop_of_err (hbegin.trans hopen)] at hrun
      cases hrun
    | stop f =>
      rw [loop_of_stop (hbegin.trans hopen)] at hrun
      cases hrun
    | ok r t' =>
      obtain ⟨rfl, -⟩ | ⟨e, de, rfl, hle, hhdr⟩ := openMember_ok hopen
      · rw [loop_of_none (hbegin.trans hopen)] at hrun
        cases hrun
      · rw [loop_of_some (hbegin.trans hopen), Heap.deref_live hle, bind_ok] at hrun
        obtain ⟨-, t₁, -, hrun⟩ := bind_eq_ok.1 hrun
        obtain ⟨-, t₂, -, hrun⟩ := bind_eq_ok.1 hrun
        obtain ⟨vs', t₃, -, hrun⟩ := bind_eq_ok.1 hrun
        cases hrun
        rw [Desc.visit, hhdr, hst.file, hnext]

end First

/-! ## Bytes that are no member -/

section NoMember

variable {b : Block}

theorem Block.within_load {σ : Type} (b : Block) (p len : Nat) (s : σ) :
    (b.load p len () : Outcome ElfError Unit (List UInt8)).within (fun _ => s) = b.load p len s := by
  rw [Block.load, Block.load]
  split
  · rfl
  · rw [readAt, readAt]
    split <;> rfl

theorem within_readArHeader {σ : Type} (b : Block) (p fin : Nat) (s : σ) :
    (readArHeader b p fin () : Outcome ElfError Unit _).within (fun _ => s) = readArHeader b p fin s := by
  rw [readArHeader, readArHeader]
  split
  · rfl
  · rw [← b.within_load p arHdrSize s]
    refine within_bind fun arh _ => ?_
    split
    · rfl
    · split <;> rfl

theorem within_arSpecial {σ : Type} (b : Block) (p fin : Nat) (s : σ) :
    (arSpecial b p fin () : Outcome ElfError Unit _).within (fun _ => s) = arSpecial b p fin s := by
  rw [arSpecial, arSpecial, ← within_readArHeader b p fin s]
  refine within_bind fun r _ => ?_
  obtain ⟨arh, sz⟩ := r
  simp only
  split
  · split
    · rfl
    split
    · rw [← within_readArHeader b _ fin s]
      refine within_bind fun r _ => ?_
      obtain ⟨arh', sz'⟩ := r
      simp only
      split <;> rfl
    · split <;> rfl
  · split <;> rfl

/-- The bytes from an address to the end of the block. -/
def Block.tail (b : Block) (p : Nat) : List UInt8 := if p < b.addr then [] else b.bytes.drop (p - b.addr)

/-- No header of a member at an address: it would end behind `fin`, or the bytes there are none. -/
def Block.noHeader (b : Block) (p fin : Nat) : Bool :=
  let arh := window (b.tail p) 0 arHdrSize
  fin < wrap (p + arHdrSize) ||
    arh.length = arHdrSize && (arFmag arh ≠ [0x60, 0x0A] || (arGetNumber (arSize arh) 10).isNone)

/-- Bad tables at the start of an archive: a header at their start or behind a symbol table is none, or the first table
of an SVR4 archive is empty. -/
def Block.badTables (b : Block) (p fin : Nat) : Bool :=
  let arh := window (b.tail p) 0 arHdrSize
  let sz := (arGetNumber (arSize arh) 10).getD 0
  b.noHeader p fin ||
    arh.length = arHdrSize && window arh 0 1 = [0x2F] &&
      (sz = 0 || window arh 1 1 = [0x20] && b.noHeader (wrap (wrap (p + arHdrSize) + adjustArSize sz)) fin)

/-- A range that cannot be opened: no bytes, an ELF object with an unknown version, class or byte order, or an archive
with bad tables. -/
def Block.refuses (b : Block) (image sz : Nat) : Bool :=
  let bs := b.tail image
  image = 0 || sz = 0 ||
    if eiNident < sz ∧ window bs 0 4 = [0x7F, 0x45, 0x4C, 0x46] then
      7 ≤ bs.length && (identError (window bs 4 3)).isSome
    else sarmag ≤ sz && window bs 0 8 = armag && b.badTables (wrap (image + sarmag)) (wrap (image + sz))

/-- The library finds the header of a member at an offset, and does not open the member. -/
def refusedAt (b : Block) (k : Nat) : Bool :=
  decide (k + arHdrSize ≤ b.bytes.length) &&
    match memberRange (b.addr + k) (window b.bytes k arHdrSize) with
    | none => true
    | some (p, n) => b.refuses p n

/-- A call reports an error. -/
def Fails {α : Type} (x : Lib α) : Bool := x.fails fun _ _ => true

theorem Block.load_tail {σ : Type} {p len : Nat} {s : σ} (hlen : 0 < len) :
    b.load p len s = if len ≤ (b.tail p).length then .ok (window (b.tail p) 0 len) s else .stop .load := by
  rw [Block.load, Block.tail]
  split
  · rw [if_neg (by rw [List.length_nil]; omega)]
  · rw [readAt, List.length_drop]
    split
    · rw [if_pos (by omega), window, window, List.drop_drop, Nat.add_zero]
    · rw [if_neg (by omega)]

theorem Block.tail_add {p : Nat} (h : b.tail p ≠ []) (k : Nat) : b.tail (p + k) = (b.tail p).drop k := by
  have hlo : ¬ p < b.addr := fun hlt => h (if_pos hlt)
  rw [Block.tail, Block.tail, if_neg hlo, if_neg (by omega), List.drop_drop]
  congr 1
  omega

/-- The comparison goes on to the first byte that differs, or to the end of the block. -/
theorem Block.startsWith_tail {σ : Type} {s : σ} (pat : List UInt8) : ∀ p,
    b.startsWith p pat s = .ok (decide (window (b.tail p) 0 pat.length = pat)) s ∨
      b.startsWith p pat s = .stop .load ∧ (b.tail p).length < pat.length := by
  induction pat with
  | nil => exact fun p => .inl (by rw [Block.startsWith, List.length_nil, window_zero, decide_eq_true rfl])
  | cons c cs ih =>
    intro p
    rw [Block.startsWith, Block.load_tail Nat.one_pos]
    split
    · next hin =>
      have hnext : b.tail p = (b.tail p).take 1 ++ b.tail (p + 1) := by
        rw [b.tail_add (List.length_pos_iff.1 hin), List.take_append_drop]
      obtain ⟨x, hx⟩ := List.length_eq_one_iff.1 (List.length_take_of_le hin)
      rw [hx] at hnext
      rw [bind_ok, hnext]
      by_cases hc : x = c
      · subst hc
        rw [if_pos (by simp [window])]
        obtain hok | ⟨hstop, hshort⟩ := ih (p + 1)
        · rw [hok]
          exact .inl (by simp [window])
        · refine .inr ⟨hstop, ?_⟩
          rw [List.length_append, List.length_cons, List.length_nil, List.length_cons]
          omega
      · rw [if_neg (by simpa [window] using hc)]
        exact .inl (by simp [window, hc])
    · next hout => exact .inr ⟨rfl, by rw [List.length_cons]; omega⟩

/-- What reading a header does. -/
theorem readArHeader_cases {σ : Type} {p fin : Nat} {s : σ} {arh : List UInt8}
    (harh : arh = window (b.tail p) 0 arHdrSize) :
    (b.noHeader p fin = true ∧ readArHeader b p fin s = .err .ARCHIVE s) ∨
    (b.noHeader p fin = false ∧ arh.length ≠ arHdrSize ∧ readArHeader b p fin s = .stop .load) ∨
    (b.noHeader p fin = false ∧ arh.length = arHdrSize ∧
      ∃ sz, arGetNumber (arSize arh) 10 = some sz ∧ readArHeader b p fin s = .ok (arh, sz) s) := by
  have hlen : arh.length = arHdrSize ↔ arHdrSize ≤ (b.tail p).length := by
    rw [harh, window, List.drop_zero, List.length_take]
    omega
  rw [readArHeader, Block.noHeader, Block.load_tail (by decide), ← harh]
  by_cases hend : fin < wrap (p + arHdrSize)
  · simp [hend]
  by_cases hin : arHdrSize ≤ (b.tail p).length
  · rw [if_neg hend, if_pos hin, bind_ok]
    by_cases hmag : arFmag arh = [0x60, 0x0A]
    · cases hnum : arGetNumber (arSize arh) 10 <;> simp [hend, hlen.2 hin, hmag]
    · simp [hlen.2 hin, hmag]
  · have hshort : arh.length ≠ arHdrSize := fun h => hin (hlen.1 h)
    rw [if_neg hend, if_neg hin, bind_stop]
    simp [hend, hshort]

theorem not_window_of_short {l pat : List UInt8} (h : l.length < pat.length) : window l 0 pat.length ≠ pat := by
  intro heq
  have hlen := congrArg List.length heq
  rw [window, List.drop_zero, List.length_take] at hlen
  omega

theorem fails_arSpecial {p fin : Nat} {s : Heap} : Fails (arSpecial b p fin s) = b.badTables p fin := by
  rw [arSpecial, Block.badTables]
  obtain ⟨hno, hrun⟩ | ⟨hno, hlen, hrun⟩ | ⟨hno, hlen, sz, hsz, hrun⟩ := @readArHeader_cases b _ p fin s _ rfl
  · rw [hrun, hno, bind_err]
    rfl
  · rw [hrun, hno, bind_stop]
    simp [hlen, Fails, Outcome.fails]
  · rw [hrun, hno, bind_ok]
    simp only [hlen, hsz, Option.getD_some, decide_true, Bool.true_and, Bool.false_or]
    by_cases hslash : window (window (b.tail p) 0 arHdrSize) 0 1 = [0x2F]
    · rw [if_pos hslash]
      simp only [hslash, decide_true, Bool.true_and]
      by_cases hzero : sz = 0
      · simp [hzero, Fails, Outcome.fails]
      rw [if_neg hzero, decide_eq_false hzero, Bool.false_or]
      by_cases hblank : window (window (b.tail p) 0 arHdrSize) 1 1 = [0x20]
      · rw [if_pos hblank, decide_eq_true hblank, Bool.true_and]
        obtain ⟨hno', hrun'⟩ | ⟨hno', -, hrun'⟩ | ⟨hno', -, sz', -, hrun'⟩ :=
          @readArHeader_cases b _ (wrap (wrap (p + arHdrSize) + adjustArSize sz)) fin s _ rfl
        · rw [hrun', hno', bind_err]
          rfl
        · rw [hrun', hno', bind_stop]
          rfl
        · rw [hrun', hno', bind_ok]
          split <;> rfl
      · rw [if_neg hblank, decide_eq_false hblank, Bool.false_and]
        split <;> rfl
    · rw [if_neg hslash]
      simp only [hslash, decide_false, Bool.false_and]
      split <;> rfl

/-- The library refuses a range by its bytes alone. -/
theorem fails_elfMemory {p n : Nat} {s : Heap} : Fails (elfMemory b p n s) = b.refuses p n := by
  rw [elfMemory, Block.refuses]
  by_cases hnull : p = 0 ∨ n = 0
  · rw [if_pos hnull]
    obtain rfl | rfl := hnull <;> simp [Fails, Outcome.fails]
  rw [if_neg hnull, decide_eq_false (not_or.1 hnull).1, decide_eq_false (not_or.1 hnull).2, libelfMemoryAt,
    if_neg (not_or.1 hnull).2, Bool.false_or, Bool.false_or]
  extract_lets e d₀ d s'
  -- what follows where the bytes are no ELF object
  have harchive : Fails ((if sarmag ≤ n then b.startsWith p armag s' else .ok false s').bind fun isar s =>
      if isar then arOpen e d s else .ok e s) =
      (sarmag ≤ n && window (b.tail p) 0 8 = armag && b.badTables (wrap (p + sarmag)) (wrap (p + n))) := by
    by_cases hlen : sarmag ≤ n
    · rw [if_pos hlen, decide_eq_true hlen, Bool.true_and]
      obtain hrun | ⟨hrun, hshort⟩ := b.startsWith_tail (s := s') armag p
      · rw [hrun, bind_ok]
        by_cases hmag : window (b.tail p) 0 armag.length = armag
        · have hfails := @fails_arSpecial b (wrap (p + sarmag)) (wrap (p + n)) (s'.put e (d.setAr ⟨-1, 0, 0, 0, 0, 0⟩))
          rw [decide_eq_true hmag, if_pos rfl, show decide (window (b.tail p) 0 8 = armag) = true from decide_eq_true hmag,
            Bool.true_and, ← hfails, arOpen]
          show Fails ((arSpecial b (wrap (p + sarmag)) (wrap (p + n)) _).bind _) = _
          cases arSpecial b (wrap (p + sarmag)) (wrap (p + n)) (s'.put e (d.setAr ⟨-1, 0, 0, 0, 0, 0⟩)) <;> rfl
        · rw [decide_eq_false hmag, show decide (window (b.tail p) 0 8 = armag) = false from decide_eq_false hmag]
          rfl
      · have hmag : window (b.tail p) 0 8 ≠ armag := not_window_of_short hshort
        rw [hrun, bind_stop, decide_eq_false hmag]
        rfl
    · rw [if_neg hlen, decide_eq_false hlen]
      rfl
  by_cases helf : eiNident < n
  · rw [if_pos helf]
    obtain hrun | ⟨hrun, hshort⟩ := b.startsWith_tail (s := s') [0x7F, 0x45, 0x4C, 0x46] p
    · rw [hrun, bind_ok, show ([0x7F, 0x45, 0x4C, 0x46] : List UInt8).length = 4 from rfl]
      by_cases hmag : window (b.tail p) 0 4 = [0x7F, 0x45, 0x4C, 0x46]
      · have hne : b.tail p ≠ [] := by
          intro hnil
          rw [hnil] at hmag
          exact absurd hmag (by decide)
        have hwin : window (b.tail (p + 4)) 0 3 = window (b.tail p) 4 3 := by
          rw [b.tail_add hne, window_drop]
        have hin : 3 ≤ (b.tail (p + 4)).length ↔ 7 ≤ (b.tail p).length := by
          rw [b.tail_add hne, List.length_drop]
          omega
        rw [if_pos (decide_eq_true hmag), if_pos ⟨helf, hmag⟩,
          Block.load_tail (by decide), hwin]
        by_cases hseven : 7 ≤ (b.tail p).length
        · rw [if_pos (hin.2 hseven), bind_ok, decide_eq_true hseven, Bool.true_and]
          cases identError (window (b.tail p) 4 3) <;> rfl
        · rw [if_neg fun h => hseven (hin.1 h), bind_stop, decide_eq_false hseven]
          rfl
      · rw [if_neg (by simpa using hmag),
          if_neg (show ¬ (eiNident < n ∧ _) from fun h => hmag h.2)]
        exact harchive
    · have hmag : window (b.tail p) 0 4 ≠ [0x7F, 0x45, 0x4C, 0x46] := not_window_of_short hshort
      have harmag : window (b.tail p) 0 8 ≠ armag :=
        @not_window_of_short _ armag (Nat.lt_trans hshort (by decide))
      rw [hrun, bind_stop, if_neg (show ¬ (eiNident < n ∧ _) from fun h => hmag h.2), decide_eq_false harmag,
        Bool.and_false]
      rfl
  · rw [if_neg helf, bind_ok, if_neg (by decide), if_neg (show ¬ (eiNident < n ∧ _) from fun h => helf h.1)]
    exact harchive

variable {env : Env} {fd : Int} {file : Option Block} {k : Nat} {s : Heap} {ar : Handle} {d : Desc} {a : Ar}

theorem fails_openMember (hst : Stands fd b k d) (ha : d.eKind = .ar a) (hk : 0 < k) (heven : k % 2 = 0)
    (hlt : k < 2 ^ 34) (hb : b.bytes.length < 2 ^ 63) : Fails (openMember fd .read ar d a s) = refusedAt b k := by
  obtain ⟨hnext, -⟩ := hst.ar ha
  have hfits := b.fits
  rw [openMember, if_neg (by omega), if_neg (by omega)]
  simp only [hst.block, hst.file, hnext]
  by_cases hin : k + arHdrSize ≤ b.bytes.length
  · have harh : ptrAdd b.addr k = b.addr + k := by
      rw [ptrAdd]
      omega
    have hload : b.load (b.addr + k) arHdrSize s = .ok (window b.bytes k arHdrSize) s := by
      have h := b.has_self.load (s := s) hin
      rwa [b.region_self] at h
    rw [harh, hload, bind_ok, refusedAt, decide_eq_true hin, Bool.true_and]
    cases memberRange (b.addr + k) (window b.bytes k arHdrSize) with
    | none => rfl
    | some r =>
      obtain ⟨p, n⟩ := r
      simp only
      rw [← fails_elfMemory (s := s)]
      cases elfMemory b p n s with
      | ok e t =>
        simp only [bind_ok]
        cases hd : t.deref e with
        | ok de u =>
          simp only [bind_ok]
          split <;> rfl
        | err er u => exact (Heap.deref_ne_err hd).elim
        | stop f => rfl
      | err er t => rfl
      | stop f => rfl
  · have hload : b.load (ptrAdd b.addr k) arHdrSize s = .stop .load := by
      refine Block.load_outside (by decide) ?_
      rw [ptrAdd]
      simp only [arHdrSize] at hin ⊢
      omega
    rw [hload, bind_stop, refusedAt, decide_eq_false hin]
    rfl

/-- The loop visits nothing exactly when what it finds first is refused. -/
theorem loop_nothing (hl : s.Live ar d) (hst : Stands fd b k d) (hk : 0 < k) (heven : k % 2 = 0)
    (hlt : k < 2 ^ 34) (hb : b.bytes.length < 2 ^ 63) :
    (∃ fuel t, archiveLoop env fd file ar fuel s = .ok [] t) ↔ refusedAt b k = true := by
  obtain ⟨a, ha, hnext, -⟩ := hst.kind
  have hbegin : elfBegin env fd .read (some ar) file s = openMember fd .read ar d a s := elfBegin_of_stands hl hst ha
  have hfails : Fails (openMember fd .read ar d a s) = refusedAt b k := fails_openMember hst ha hk heven hlt hb
  rw [← hfails]
  cases hopen : openMember fd .read ar d a s with
  | err er t => exact ⟨fun _ => rfl, fun _ => ⟨1, t, loop_of_err (hbegin.trans hopen)⟩⟩
  | stop f =>
    refine ⟨?_, fun h => absurd h (by simp [Fails, fails])⟩
    rintro ⟨fuel, t, hrun⟩
    cases fuel with
    | zero => cases hrun
    | succ fuel =>
      rw [loop_of_stop (hbegin.trans hopen)] at hrun
      cases hrun
  | ok r t =>
    refine ⟨?_, fun h => absurd h (by simp [Fails, fails])⟩
    rintro ⟨fuel, t', hrun⟩
    obtain ⟨rfl, hzero⟩ | ⟨e, de, rfl, hle, -⟩ := openMember_ok hopen
    · omega
    cases fuel with
    | zero => cases hrun
    | succ fuel =>
      rw [loop_of_some (hbegin.trans hopen), Heap.deref_live hle, bind_ok] at hrun
      obtain ⟨-, t₁, -, hrun⟩ := bind_eq_ok.1 hrun
      obtain ⟨-, t₂, -, hrun⟩ := bind_eq_ok.1 hrun
      obtain ⟨vs', t₃, -, hrun⟩ := bind_eq_ok.1 hrun
      cases hrun

end NoMember

/-! ## When the loop visits the ordinary members -/

/-- What the loop needs of an archive. With ordinary members, the tables are skipped to the first of these and every
one of them is accepted; without any, the tables are skipped to bytes that are refused. -/
def Walkable (b : Block) (ms : List Member) : Prop :=
  ∃ k, leadingEnd b.bytes = some k ∧
    if ordinary ms = [] then refusedAt b k = true else k = start ms ∧ ∀ m ∈ ordinary ms, accepts m.contents = true

section Archives

variable {env : Env} {fd : Int} {b : Block} {s : Heap} {ms : List Member}

/-- After the archive is opened, the loop is all there is. -/
theorem walks_iff {ar : Handle} {t : Heap} (hopen : elfBegin env fd .read none (some b) s = .ok (some ar) t)
    (vs : List Visit) : Walks env fd b s vs ↔ ∃ fuel u, archiveLoop env fd (some b) ar fuel t = .ok vs u := by
  constructor
  · rintro ⟨ar', t', hopen', hrun⟩
    rw [hopen] at hopen'
    cases hopen'
    exact hrun
  · exact fun hrun => ⟨ar, t, hopen, hrun⟩

/-- An archive whose tables are skipped as they should is walked exactly when every ordinary member is accepted. -/
theorem walks_of_skipped (hb : b.bytes = archive ms) (hlt : b.bytes.length < 2 ^ 63) (hord : ordinary ms ≠ [])
    (hk : leadingEnd b.bytes = some (start ms)) :
    Walks env fd b s (visits (b.addr + start ms) (ordinary ms)) ↔ ∀ m ∈ ordinary ms, accepts m.contents = true := by
  obtain ⟨ar, t, d, hopen, hl, hst⟩ := elfBegin_of_some env fd s hb hk
  obtain ⟨hpos, heven, -⟩ := leadingEnd_bounds hk
  have hrow := row_ordinary hb
  rw [walks_iff hopen]
  obtain ⟨m, ms', hcons⟩ := List.exists_cons_of_ne_nil hord
  rw [hcons] at hrow ⊢
  exact loop_visits hlt (m :: ms') hpos heven hrow hl hst

/-- The loop of the manual visits exactly the ordinary members of an archive, once each, in order and with their
contents, exactly when the archive is one that it can walk. -/
theorem visits_iff (hb : b.bytes = archive ms) (hlt : b.bytes.length < 2 ^ 63) :
    Walks env fd b s (visits (b.addr + start ms) (ordinary ms)) ↔ Walkable b ms := by
  cases hk : leadingEnd b.bytes with
  | none =>
    constructor
    · rintro ⟨ar, t, hopen, -⟩
      exact absurd hopen (elfBegin_of_none hb hlt hk _ _)
    · rintro ⟨k, hsome, -⟩
      rw [hk] at hsome
      cases hsome
  | some k =>
    have hwalkable : Walkable b ms ↔ if ordinary ms = [] then refusedAt b k = true
        else k = start ms ∧ ∀ m ∈ ordinary ms, accepts m.contents = true := by
      simp [Walkable, hk]
    obtain ⟨ar, t, d, hopen, hl, hst⟩ := elfBegin_of_some env fd s hb hk
    obtain ⟨hpos, heven, hsmall⟩ := leadingEnd_bounds hk
    rw [hwalkable]
    by_cases hord : ordinary ms = []
    · rw [if_pos hord, hord, walks_iff hopen]
      exact loop_nothing hl hst hpos heven hsmall hlt
    rw [if_neg hord]
    by_cases hstart : k = start ms
    · rw [walks_of_skipped hb hlt hord (hstart ▸ hk)]
      simp [hstart]
    · -- the first visit would be at another place
      refine ⟨fun h => ?_, fun h => absurd h.1 hstart⟩
      obtain ⟨m, ms', hcons⟩ := List.exists_cons_of_ne_nil hord
      obtain ⟨fuel, u, hrun⟩ := (walks_iff hopen _).1 h
      have hrow := row_ordinary hb
      rw [hcons] at hrow hrun
      have hfirst := loop_first hl hst hrun
      have hin := hrow.cons.1.inside
      have hfits := b.fits
      simp only [ptrAdd] at hfirst
      omega

end Archives

/-- The bytes of an archive, at a page of their own. -/
def archiveBlock (ms : List Member) (h : 4096 + (archive ms).length < 2 ^ 64) : Block := ⟨4096, archive ms, page_pos, h⟩

def noAttributes : List UInt8 := List.replicate 32 0x20

/-- A member `/ ` of four bytes. -/
def symtabMember : Member :=
  ⟨0x2F :: List.replicate 15 0x20, noAttributes, 0x34 :: List.replicate 9 0x20, [], [0, 0, 0, 0], 0x0A,
    by decide, by decide, by decide, ⟨0, [4], 9, by decide, by decide, by decide⟩, (if_neg (by decide)).mpr rfl⟩

/-- A member `a` of three bytes. -/
def oddMember : Member :=
  ⟨0x61 :: List.replicate 15 0x20, noAttributes, 0x33 :: List.replicate 9 0x20, [], [1, 2, 3], 0x0A,
    by decide, by decide, by decide, ⟨0, [3], 9, by decide, by decide, by decide⟩, (if_neg (by decide)).mpr rfl⟩

/-- A member with a name of its own in front of its two bytes. -/
def longMember : Member :=
  ⟨[0x23, 0x31, 0x2F, 0x33] ++ List.replicate 12 0x20, noAttributes, 0x35 :: List.replicate 9 0x20, [0x61, 0x20, 0x62],
    [4, 5], 0x0A, by decide, by decide, by decide, ⟨0, [5], 9, by decide, by decide, by decide⟩,
    (if_pos (by decide)).mpr ⟨0, [3], 12, by decide, by decide, by decide⟩⟩

/-- A member `e` of no bytes. -/
def emptyMember : Member :=
  ⟨0x65 :: List.replicate 15 0x20, noAttributes, 0x30 :: List.replicate 9 0x20, [], [], 0x0A,
    by decide, by decide, by decide, ⟨0, [0], 9, by decide, by decide, by decide⟩, (if_neg (by decide)).mpr rfl⟩

theorem visits_iff_oddMember :
    Walks plainEnv 3 (archiveBlock [symtabMember, oddMember, longMember] (by decide +kernel)) Heap.empty
      [⟨4096 + 72, [1, 2, 3]⟩, ⟨4096 + 136, [4, 5]⟩] := by
  have hord : ordinary [symtabMember, oddMember, longMember] = [oddMember, longMember] := rfl
  refine (@visits_iff _ _ _ _ [symtabMember, oddMember, longMember] rfl (by decide +kernel)).2 ⟨72, by decide +kernel, ?_⟩
  rw [if_neg (by decide)]
  exact ⟨rfl, by decide⟩

/-- A member without bytes ends the loop. -/
theorem emptyMember_ends :
    Walks plainEnv 3 (archiveBlock [oddMember, emptyMember, oddMember] (by decide +kernel)) Heap.empty
      [⟨4096 + 8, [1, 2, 3]⟩] ∧
    ¬ Walks plainEnv 3 (archiveBlock [oddMember, emptyMember, oddMember] (by decide +kernel)) Heap.empty
      (visits (4096 + start [oddMember, emptyMember, oddMember]) (ordinary [oddMember, emptyMember, oddMember])) := by
  constructor
  · have hrun : ((elfBegin plainEnv 3 .read none
        (some (archiveBlock [oddMember, emptyMember, oddMember] (by decide +kernel))) Heap.empty).bind fun r s =>
          r.elim (.stop .null) fun ar =>
            archiveLoop plainEnv 3 (some (archiveBlock [oddMember, emptyMember, oddMember] (by decide +kernel))) ar 2 s).returns
              (fun vs _ => decide (vs = [⟨4096 + 8, [1, 2, 3]⟩])) = true := by decide +kernel
    obtain ⟨vs, u, hall, hvs⟩ := exists_of_returns hrun
    obtain ⟨r, t, hopen, hloop⟩ := bind_eq_ok.1 hall
    cases r with
    | none => cases hloop
    | some ar =>
      rw [of_decide_eq_true hvs] at hloop
      exact ⟨ar, t, hopen, 2, u, hloop⟩
  · intro h
    have hacc := (@walks_of_skipped _ _ _ _ [oddMember, emptyMember, oddMember] rfl (by decide +kernel)
      (by decide) (by decide +kernel)).1 h
    have hmem : emptyMember ∈ ordinary [oddMember, emptyMember, oddMember] := List.mem_cons_of_mem _ List.mem_cons_self
    exact absurd (hacc emptyMember hmem) (by decide)

end LibElf.Toolchain
