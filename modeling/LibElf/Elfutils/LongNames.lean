import LibElf.Elfutils.ArchiveRuns
import LibElf.Elfutils.Convert

/-!
# The table of long names

`read_long_names` copies the table and cuts it into strings: every slash is overwritten by a NUL, and what
follows the last slash is cleared. A name in a header is an offset in the table.

1. `memchr` and `terminateNames`, the loop in the memory of the copy. `terminateNames_eq`: it ends, stays
   inside the copy and leaves `nulTerminate` of it.
2. `Terminated`: every offset starts a string that ends inside the table.
3. `Elf.namesTable`, the table that the bytes of an archive hold, and `run_tabled`: after any run of calls an
   archive has no table or this one.
4. `longNames_safe`: every name that is handed out ends inside the table.
-/

namespace LibElf.Elfutils

open Outcome

/-! ## The loop -/

section Loop

variable {n : Nat}

/-- `memchr`: the place of the first `c` among the `count` bytes from `p` on. -/
def memchr (c : UInt8) : Nat → Nat → Mem n → Outcome ElfError (Mem n) (Option Nat)
  | 0, _, m => .ok none m
  | count + 1, p, m => (m.read p 1).bind fun bs m => if bs = [c] then .ok (some p) m else memchr c count (p + 1) m

/-- The loop of `read_long_names` from `runp` on. -/
def terminateFrom : Nat → Nat → Conv n
  | 0, _, _ => .stop .divergence
  | fuel + 1, runp, m =>
    (memchr 0x2F (n - runp) runp m).bind fun found m =>
    match found with
    -- this was the last entry, and what is left over is cleared
    | none => m.fill runp (n - runp) 0
    | some slash =>
      (m.write slash [0]).bind fun _ m =>
      if n ≤ slash + 1 then .ok () m else terminateFrom fuel (slash + 1) m

/-- NUL-terminate the strings of a table. Every pass takes one byte at least. -/
def terminateNames : Conv n := terminateFrom (n + 1) 0

theorem takeWhile_ne {c : UInt8} {l r : List UInt8} (h : c ∉ l) : (l ++ c :: r).takeWhile (· ≠ c) = l := by
  rw [List.takeWhile_append_of_pos fun d hd => decide_eq_true (ne_of_mem_of_not_mem hd h)]
  simp

/-- The bytes before the first slash are read, and the slash if there is one. -/
theorem memchr_eq {c : UInt8} (bs : List UInt8) : ∀ {p : Nat} {m : Mem n}, p + bs.length ≤ n →
    window m.bytes p bs.length = bs →
    memchr c bs.length p m = .ok (if c ∈ bs then some (p + (bs.takeWhile (· ≠ c)).length) else none) m := by
  induction bs with
  | nil => intro p m _ _; rfl
  | cons b bs ih =>
    intro p m hin hwin
    rw [List.length_cons] at hin hwin
    have hsplit := window_append_window m.bytes p 1 bs.length
    rw [Nat.add_comm 1, hwin] at hsplit
    have hone : (window m.bytes p 1).length = [b].length := length_window (by rw [m.length_eq]; omega)
    obtain ⟨hfirst, hrest⟩ := List.append_inj (hsplit : _ = [b] ++ bs) hone
    rw [List.length_cons, memchr, Mem.read_of_le m (show p + 1 ≤ n by omega), bind_ok, hfirst]
    by_cases hb : b = c
    · subst hb
      simp
    · rw [if_neg (by simpa using hb), ih (by omega) hrest]
      have hmem : c ∈ b :: bs ↔ c ∈ bs := by
        rw [List.mem_cons]
        exact ⟨fun h => h.resolve_left fun h => hb h.symm, .inr⟩
      simp only [hmem, List.takeWhile_cons, decide_eq_true (p := b ≠ c) hb, if_true, List.length_cons]
      congr 2
      rw [Nat.add_assoc, Nat.add_comm 1]

end Loop

/-! ## The strings -/

theorem length_nulTerminate (bs : List UInt8) : (nulTerminate bs).length = bs.length := by
  induction bs with
  | nil => rfl
  | cons b bs ih => rw [nulTerminate, List.length_cons, ih, List.length_cons]

/-- Without a slash all is cleared. -/
theorem nulTerminate_of_not_mem {bs : List UInt8} (h : 0x2F ∉ bs) : nulTerminate bs = List.replicate bs.length 0 := by
  induction bs with
  | nil => rfl
  | cons b bs ih =>
    rw [List.mem_cons, not_or] at h
    rw [nulTerminate, if_neg (fun hb => h.1 hb.symm), if_neg h.2, ih h.2]
    rfl

/-- The first string, and the others. -/
theorem nulTerminate_append {name rest : List UInt8} (h : 0x2F ∉ name) :
    nulTerminate (name ++ 0x2F :: rest) = name ++ 0 :: nulTerminate rest := by
  induction name with
  | nil => rw [List.nil_append, nulTerminate, if_pos rfl, List.nil_append]
  | cons b name ih =>
    rw [List.mem_cons, not_or] at h
    rw [List.cons_append, nulTerminate, if_neg (fun hb => h.1 hb.symm), if_pos (by simp), ih h.2, List.cons_append]

/-- The loop cuts the table from `runp` on and leaves what is before. -/
theorem terminateFrom_eq {n : Nat} (fuel : Nat) : ∀ (runp : Nat) (m : Mem n), runp ≤ n → n - runp < fuel →
    ∃ m', terminateFrom fuel runp m = .ok () m' ∧ m.Frame m' runp (n - runp) ∧
      window m'.bytes runp (n - runp) = nulTerminate (window m.bytes runp (n - runp)) := by
  induction fuel with
  | zero => intro runp m _ h; omega
  | succ fuel ih =>
    intro runp m hle hfuel
    have hlen : (window m.bytes runp (n - runp)).length = n - runp := length_window (by rw [m.length_eq]; omega)
    obtain ⟨bs, hbs⟩ : ∃ bs, window m.bytes runp (n - runp) = bs := ⟨_, rfl⟩
    rw [hbs] at hlen ⊢
    have hfound := @memchr_eq n 0x2F bs runp m (by omega) (by rw [hlen, hbs])
    rw [terminateFrom, ← hlen, hfound, bind_ok]
    by_cases hmem : (0x2F : UInt8) ∈ bs
    · -- the first string is cut off, and the loop goes on behind it
      obtain ⟨name, rest, rfl, hname⟩ := List.eq_append_cons_of_mem hmem
      have hlens : (name ++ 0x2F :: rest).length = name.length + 1 + rest.length := by simp; omega
      rw [hlens] at hlen ⊢
      have hin : runp + name.length + ([0] : List UInt8).length ≤ n := by simp; omega
      rw [if_pos hmem, takeWhile_ne hname]
      simp only
      rw [Mem.write_of_le m hin, bind_ok]
      have hslash : window (m.splice (runp + name.length) [0] hin).bytes (runp + name.length) 1 = [0] :=
        m.window_splice hin
      have hframe : m.Frame (m.splice (runp + name.length) [0] hin) (runp + name.length) 1 := Mem.frame_splice m hin
      generalize m.splice (runp + name.length) [0] hin = m₁ at hslash hframe ⊢
      have hrest : window m₁.bytes (runp + name.length + 1) rest.length = rest := by
        rw [hframe.window_eq (.inr le_rfl), Nat.add_assoc,
          ← @window_window m.bytes runp (n - runp) (name.length + 1) rest.length (by omega), hbs]
        have := window_between (name ++ [0x2F]) rest []
        simpa using this
      have hfirst : window m₁.bytes runp (name.length + 1) = name ++ [0] := by
        have hbefore := @window_window m.bytes runp (n - runp) 0 name.length (by omega)
        rw [hbs, window_append_left (by omega), window_full] at hbefore
        rw [← window_append_window, hframe.window_eq (.inl le_rfl), hslash]
        rw [Nat.add_zero] at hbefore
        rw [← hbefore]
      rw [nulTerminate_append hname]
      have hwhole : ∀ m' : Mem n, m₁.Frame m' (runp + name.length + 1) rest.length →
          window m'.bytes (runp + name.length + 1) rest.length = nulTerminate rest →
          m.Frame m' runp (name.length + 1 + rest.length) ∧
            window m'.bytes runp (name.length + 1 + rest.length) = name ++ 0 :: nulTerminate rest := by
        intro m' hframe' hwin
        refine ⟨(hframe.mono (by omega) (by omega)).trans (hframe'.mono (by omega) (by omega)), ?_⟩
        rw [← window_append_window, hframe'.window_eq (.inl (by omega)), hfirst, ← Nat.add_assoc, hwin,
          List.append_assoc]
        rfl
      split
      · next hend =>
        obtain rfl : rest = [] := List.eq_nil_of_length_eq_zero (by omega)
        exact ⟨m₁, rfl, hwhole m₁ (Mem.Frame.refl _ _ _) (window_zero _ _)⟩
      · obtain ⟨m', hrun, hframe', hwin⟩ := ih (runp + name.length + 1) m₁ (by omega) (by omega)
        rw [show n - (runp + name.length + 1) = rest.length by omega] at hframe' hwin
        rw [hrest] at hwin
        exact ⟨m', hrun, hwhole m' hframe' hwin⟩
    · rw [if_neg hmem, nulTerminate_of_not_mem hmem]
      simp only
      have hzeros : (List.replicate bs.length (0 : UInt8)).length = bs.length := List.length_replicate
      have hin : runp + (List.replicate bs.length (0 : UInt8)).length ≤ n := by omega
      rw [Mem.fill_eq, Mem.write_of_le m hin]
      have hframe := Mem.frame_splice m hin
      have hwin := m.window_splice hin
      rw [hzeros] at hframe hwin
      exact ⟨_, rfl, hframe, hwin⟩

/-- The loop ends, stays inside the table and leaves its strings. -/
theorem terminateNames_eq {n : Nat} (m : Mem n) :
    ∃ m', terminateNames m = .ok () m' ∧ m'.bytes = nulTerminate m.bytes := by
  obtain ⟨m', hrun, -, hwin⟩ := terminateFrom_eq (n + 1) 0 m (Nat.zero_le n) (by omega)
  refine ⟨m', hrun, ?_⟩
  rw [Nat.sub_zero] at hwin
  have hm := window_full m.bytes
  have hm' := window_full m'.bytes
  rw [m.length_eq] at hm
  rw [m'.length_eq] at hm'
  rw [← hm', hwin, hm]

/-- Every offset starts a string that ends inside the table. -/
def Terminated (names : List UInt8) : Prop :=
  ∀ off < names.length, ∃ k, off ≤ k ∧ k < names.length ∧ names[k]? = some 0

/-- The last byte is a NUL, whether a name ends there or not. -/
theorem getLast_nulTerminate {bs : List UInt8} (h : bs ≠ []) : (nulTerminate bs).getLast? = some 0 := by
  induction bs with
  | nil => exact absurd rfl h
  | cons b bs ih =>
    rw [nulTerminate]
    cases bs with
    | nil =>
      rw [nulTerminate, List.getLast?_singleton]
      simp
    | cons c bs =>
      have := ih (List.cons_ne_nil c bs)
      rw [nulTerminate] at this ⊢
      rw [List.getLast?_cons_cons, this]

theorem terminated_nulTerminate (bs : List UInt8) : Terminated (nulTerminate bs) := by
  intro off hoff
  have hne : bs ≠ [] := by
    rintro rfl
    simp [nulTerminate] at hoff
  have hlast := getLast_nulTerminate hne
  rw [List.getLast?_eq_getElem?] at hlast
  exact ⟨(nulTerminate bs).length - 1, by omega, by omega, hlast⟩

/-- A string ends at the first NUL behind its start. -/
theorem Terminated.cString {names : List UInt8} (h : Terminated names) {off : Nat} (hoff : off < names.length) :
    off + (cString (names.drop off)).length < names.length ∧
      names[off + (cString (names.drop off)).length]? = some 0 := by
  obtain ⟨k, hle, hlt, hk⟩ := h off hoff
  have hmem : (0 : UInt8) ∈ names.drop off := by
    refine List.mem_of_getElem? (i := k - off) ?_
    rw [List.getElem?_drop, Nat.add_sub_cancel' hle, hk]
  obtain ⟨name, rest, hsplit, hname⟩ := List.eq_append_cons_of_mem hmem
  have hstring : LibElf.Elfutils.cString (names.drop off) = name := by
    rw [hsplit]
    exact takeWhile_ne hname
  have hget : names[off + name.length]? = some 0 := by
    rw [← List.getElem?_drop, hsplit]
    simp
  rw [hstring]
  exact ⟨(List.getElem?_eq_some_iff.mp hget).1, hget⟩

/-! ## The table of an archive -/

section Table

variable {env : Env} {e : Elf} {w : Walk}

/-- The table of long names that the bytes of an archive hold. -/
def Elf.namesTable (env : Env) (e : Elf) : Option (List UInt8) := (readLongNames env ⟨e, []⟩).value?

/-- Another state of the archive, with other references to it and after other headers were read. -/
def Walk.put (a : Ar) (refCount : Nat) (us : List Nat) (w : Walk) : Walk :=
  ⟨{ w.elf with ar := a, refCount := refCount }, us ++ w.used⟩

theorem within_readAt {σ τ : Type} {put : σ → τ} {src : List UInt8} {off len : Nat} {s : σ} :
    (readAt src off len s : Outcome ElfError σ (List UInt8)).within put = readAt src off len (put s) := by
  unfold readAt
  split <;> rfl

section Put

variable (a : Ar) (n : Nat) (us : List Nat) (w : Walk)

theorem put_use (pos : Nat) : (w.use pos).put a n us = (w.put a n us).use pos := by
  rw [Walk.put, Walk.use, Walk.put, Walk.use, List.append_assoc]

theorem put_mapAddress : (w.put a n us).elf.mapAddress = w.elf.mapAddress := by cases w; rfl
theorem put_startOffset : (w.put a n us).elf.startOffset = w.elf.startOffset := by cases w; rfl
theorem put_maximumSize : (w.put a n us).elf.maximumSize = w.elf.maximumSize := by cases w; rfl
theorem put_fildes : (w.put a n us).elf.fildes = w.elf.fildes := by cases w; rfl
theorem put_namesPos (offset : Nat) : (w.put a n us).elf.namesPos offset = w.elf.namesPos offset := by cases w; rfl

/-- The walk for the long names depends on the image alone. -/
theorem namesHeader_put (offset : Nat) :
    (namesHeader env offset w).within (Walk.put a n us) = namesHeader env offset (w.put a n us) := by
  simp only [namesHeader, put_mapAddress, put_startOffset, put_maximumSize, put_fildes, put_namesPos]
  cases w.elf.mapAddress with
  | some image =>
    by_cases hout : w.elf.maximumSize < offset ∨ w.elf.maximumSize - offset < arHdrSize
    · simp only
      rw [if_pos hout, if_pos hout, within_ok]
    · simp only
      rw [if_neg hout, if_neg hout, mapHeader, mapHeader, ← put_use, ← @within_readAt Walk]
      refine within_bind fun bs w' => ?_
      rw [within_ok]
  | none =>
    cases preadRetry env w.elf.fildes arHdrSize (w.elf.namesPos offset) with
    | none => rfl
    | some hdr =>
      by_cases hlen : hdr.length = arHdrSize
      · simp only [if_pos hlen, within_ok, put_use]
      · simp only [if_neg hlen, within_ok]

theorem findNames_put (fuel : Nat) : ∀ (offset : Nat) (w : Walk),
    (findNames env fuel offset w).within (Walk.put a n us) = findNames env fuel offset (w.put a n us) := by
  induction fuel with
  | zero => exact fun _ _ => rfl
  | succ fuel ih =>
    intro offset w
    rw [findNames, findNames, ← namesHeader_put]
    refine within_bind fun hdr w' => ?_
    cases hdr with
    | none => rfl
    | some hdr =>
      cases hsize : intField hdr 48 10 with
      | none => simp only [hsize, within_stop]
      | some n =>
        simp only [hsize]
        split
        · rfl
        · exact ih _ _

theorem namesBytes_put (offset len : Nat) :
    (namesBytes env offset len w).within (Walk.put a n us) = namesBytes env offset len (w.put a n us) := by
  simp only [namesBytes, put_mapAddress, put_maximumSize, put_fildes, put_namesPos]
  cases hmap : w.elf.mapAddress with
  | some image =>
    by_cases hfit : w.elf.maximumSize - offset - arHdrSize < len
    · simp only
      rw [if_pos hfit, if_pos hfit, within_err]
    · simp only
      rw [if_neg hfit, if_neg hfit]
      simp only [Elf.mapRead, put_mapAddress, put_startOffset, put_maximumSize, hmap]
      split
      · simp only [within_stop]
      · rw [within_readAt, within_readAt, within_readAt]
  | none =>
    cases preadRetry env w.elf.fildes len (w.elf.namesPos (wrap (offset + arHdrSize))) with
    | none => rfl
    | some bs =>
      by_cases hlen : bs.length = len
      · simp only [if_pos hlen, within_ok]
      · simp only [if_neg hlen, within_err]

/-- So does the table. -/
theorem readLongNames_put : (readLongNames env (w.put a n us)).value? = (readLongNames env w).value? := by
  rw [readLongNames, readLongNames, ← findNames_put]
  refine value?_bind_within fun entry w' => ?_
  rw [← namesBytes_put]
  exact value?_bind_within fun bs w'' => rfl

end Put

theorem namesTable_setAr (a : Ar) : (e.setAr a).namesTable env = e.namesTable env :=
  readLongNames_put a e.refCount [] ⟨e, []⟩

theorem namesTable_refCount (n : Nat) : Elf.namesTable env { e with refCount := n } = e.namesTable env :=
  readLongNames_put e.ar n [] ⟨e, []⟩

/-- A call that leaves the archive as it is. -/
def Still (e : Elf) {α : Type} (x : ArCall α) : Prop :=
  x.Ensures (fun _ w => w.elf = e) (fun w => w.elf = e) (fun _ => True)

theorem mapHeader_still (image : Image) (pos : Nat) (w : Walk) : Still w.elf (mapHeader image pos w) := by
  refine ensures_mono (ensures_readAt (F := fun _ => True) trivial) (fun bs t h => ?_) (fun _ h => h) fun _ _ => trivial
  rw [h.2]
  rfl

theorem namesHeader_still (offset : Nat) (w : Walk) : Still w.elf (namesHeader env offset w) := by
  unfold namesHeader
  extract_lets e₁ pos
  split
  · split
    · exact rfl
    · exact ensures_bind (mapHeader_still _ _ w) fun _ _ h => h
  · split
    · split <;> exact rfl
    · exact rfl

theorem findNames_still (fuel : Nat) : ∀ (offset : Nat) (w : Walk), Still w.elf (findNames env fuel offset w) := by
  induction fuel with
  | zero => exact fun _ _ => trivial
  | succ fuel ih =>
    intro offset w
    refine ensures_bind (namesHeader_still offset w) fun hdr w' h => ?_
    cases hdr with
    | none => exact h
    | some hdr =>
      simp only
      split
      · trivial
      · split
        · exact h
        · exact h ▸ ih _ w'

theorem namesBytes_still (offset len : Nat) (w : Walk) : Still w.elf (namesBytes env offset len w) := by
  unfold namesBytes
  extract_lets e₁ pos
  split
  · split
    · exact rfl
    · refine ensures_within ?_
      cases hread : e₁.mapRead pos len with
      | ok bs e' => exact Elf.mapRead_ok hread
      | err c e' => exact absurd hread Elf.mapRead_ne_err
      | stop f => trivial
  · split
    · split <;> exact rfl
    · exact rfl

theorem arHeader_still (w : Walk) : Still w.elf (arHeader env w) := by
  unfold arHeader
  extract_lets e₁ pos
  split
  · split
    · exact rfl
    · exact mapHeader_still _ _ w
  · split
    · split <;> exact rfl
    · exact rfl

/-- The table is read and kept. -/
theorem readLongNames_keeps (w : Walk) : (readLongNames env w).Ensures
    (fun names w' => Terminated names ∧ w'.elf = w.elf.setAr { w.elf.ar with longNames := some names })
    (fun w' => w'.elf = w.elf) (fun _ => True) := by
  refine ensures_bind (findNames_still _ _ w) fun entry w₁ h₁ => ?_
  refine ensures_bind (h₁ ▸ namesBytes_still entry.1 entry.2 w₁) fun bs w₂ h₂ => ?_
  refine ⟨terminated_nulTerminate bs, ?_⟩
  rw [← h₂]
  rfl

/-! ## The table that is kept -/

/-- The table that is kept is that of the archive. -/
def Elf.Tabled (env : Env) (e : Elf) : Prop :=
  ∀ names, e.ar.longNames = some names → e.namesTable env = some names

theorem Elf.tabled_of_none (h : e.ar.longNames = none) : e.Tabled env := by
  intro names hnames
  rw [h] at hnames
  cases hnames

theorem Elf.Tabled.setAr (ht : e.Tabled env) {a : Ar} (ha : a.longNames = e.ar.longNames) : (e.setAr a).Tabled env := by
  intro names hnames
  rw [namesTable_setAr]
  exact ht names (ha.symm.trans hnames)

theorem Elf.Tabled.refCount (ht : e.Tabled env) (n : Nat) : Elf.Tabled env { e with refCount := n } := by
  intro names hnames
  rw [namesTable_refCount]
  exact ht names hnames

/-- The strings of a table that is kept end inside it. -/
theorem Elf.Tabled.terminated (ht : e.Tabled env) {names : List UInt8} (hnames : e.ar.longNames = some names) :
    Terminated names := by
  have hkeeps := @readLongNames_keeps env ⟨e, []⟩
  have htable : (readLongNames env ⟨e, []⟩).value? = some names := ht names hnames
  cases hread : readLongNames env ⟨e, []⟩ with
  | ok names' w =>
    rw [hread] at hkeeps htable
    exact Option.some.inj htable ▸ hkeeps.1
  | err c w =>
    rw [hread] at htable
    cases htable
  | stop f =>
    rw [hread] at htable
    cases htable

/-- A call for a name, which leaves the archive with a table that is its own and with its header. -/
def KeepsTable (env : Env) (w : Walk) {α : Type} (x : ArCall α) (Q : α → Walk → Prop) : Prop :=
  x.Ensures (fun a w' => w'.elf.Tabled env ∧ w'.elf.ar.elfArHdr = w.elf.ar.elfArHdr ∧ Q a w')
    (fun w' => w'.elf.Tabled env) (fun _ => True)

theorem readLongNames_tabled (ht : w.elf.Tabled env) :
    KeepsTable env w (readLongNames env w) fun names w' => w'.elf.ar.longNames = some names := by
  have hput := @readLongNames_put env w.elf.ar w.elf.refCount w.used ⟨w.elf, []⟩
  rw [show Walk.put w.elf.ar w.elf.refCount w.used ⟨w.elf, []⟩ = w by rw [Walk.put, List.append_nil]] at hput
  have hkeeps := @readLongNames_keeps env w
  cases hread : readLongNames env w with
  | ok names w' =>
    rw [hread] at hkeeps hput
    obtain ⟨-, helf⟩ := hkeeps
    have hkept : w'.elf.ar.longNames = some names := by rw [helf]; rfl
    refine ⟨fun names' hnames' => ?_, by rw [helf]; rfl, hkept⟩
    rw [← hnames', hkept, helf, namesTable_setAr]
    exact hput.symm
  | err c w' =>
    rw [hread] at hkeeps
    show w'.elf.Tabled env
    rw [show w'.elf = w.elf from hkeeps]
    exact ht
  | stop f => trivial

theorem longNames_tabled (ht : w.elf.Tabled env) :
    KeepsTable env w (longNames env w) fun names w' => w'.elf.ar.longNames = some names := by
  unfold longNames
  split
  · next names hnames => exact ⟨ht, rfl, hnames⟩
  · exact readLongNames_tabled ht

/-- The name is a string of the table, which ends inside. -/
def NameIn (names name : List UInt8) : Prop :=
  ∃ off, off + name.length < names.length ∧ name = cString (names.drop off) ∧ names[off + name.length]? = some 0

theorem longName_tabled {hdr : List UInt8} (ht : w.elf.Tabled env) :
    KeepsTable env w (longName env hdr w) fun name w' =>
      ∃ names, w'.elf.ar.longNames = some names ∧ NameIn names name := by
  refine ensures_bind (longNames_tabled ht) fun names w' ⟨ht', hhdr, hnames⟩ => ?_
  split
  · trivial
  · next n _ =>
    split
    · exact ht'
    · next hoff =>
      obtain ⟨hlt, hnul⟩ := (ht'.terminated hnames).cString (Nat.lt_of_not_le hoff)
      exact ⟨ht', hhdr, names, hnames, sizeT n, hlt, rfl, hnul⟩

/-- A padded name that is not one of the reserved ones after its slash. -/
theorem isDigit_padName {hdr name : List UInt8} (h : window hdr 0 16 = padName name)
    (hname : isDigit ((padName name).getD 1 0) = false) : isDigit (hdr.getD 1 0) = false := by
  rw [← h] at hname
  rw [← hname, List.getD_eq_getElem?_getD, List.getD_eq_getElem?_getD, getElem?_window]
  rfl

/-- The name of a header. -/
theorem arNameOf_tabled {hdr : List UInt8} (ht : w.elf.Tabled env) :
    KeepsTable env w (arNameOf env hdr w) fun name w' =>
      IsLong hdr → ∃ names, w'.elf.ar.longNames = some names ∧ NameIn names name := by
  unfold arNameOf
  extract_lets field
  split
  · -- a reserved name is no reference
    have hreserved : ∀ name, field = padName name → isDigit ((padName name).getD 1 0) = false →
        KeepsTable env w (.ok name w) fun name w' =>
          IsLong hdr → ∃ names, w'.elf.ar.longNames = some names ∧ NameIn names name := by
      intro name hname hdigit
      refine ⟨ht, rfl, fun hlong => ?_⟩
      have hno := isDigit_padName hname hdigit
      rw [hlong.2] at hno
      cases hno
    split
    · next hname => exact hreserved _ hname (by decide)
    · split
      · next hname => exact hreserved _ hname (by decide)
      · split
        · next hname => exact hreserved _ hname (by decide)
        · split
          · exact ensures_mono (longName_tabled ht) (fun _ _ h => ⟨h.1, h.2.1, fun _ => h.2.2⟩) (fun _ h => h)
              fun _ h => h
          · exact ht
  · next hslash => exact ⟨ht, rfl, fun hlong => absurd hlong.1 hslash⟩

/-- What is left of a header once its name is set. -/
theorem arFields_names {hdr : List UInt8} (w : Walk) : (arFields hdr w).Ensures
    (fun _ w' => ∃ h, w'.elf = (w.setHdr h).elf ∧ h.arName = w.elf.ar.elfArHdr.arName ∧
      h.arRawname = w.elf.ar.elfArHdr.arRawname)
    (fun w' => ∃ h, w'.elf = (w.setHdr h).elf) (fun _ => True) := by
  have hnumber : ∀ {off len : Nat} {f : Int → Walk → ArCall Unit} {Q : Unit → Walk → Prop} {E : Walk → Prop},
      (∀ n, (f n w).Ensures Q E fun _ => True) →
      ((arNumber hdr off len w).bind f).Ensures Q E fun _ => True := by
    intro off len f Q E hf
    unfold arNumber
    cases intField hdr off len with
    | none => trivial
    | some n => exact hf n
  unfold arFields
  split
  · exact ⟨w.elf.ar.elfArHdr, rfl⟩
  · refine hnumber fun date => hnumber fun uid => hnumber fun gid => hnumber fun mode => hnumber fun size => ?_
    split
    · exact ⟨_, rfl⟩
    · exact ⟨_, rfl, rfl, rfl⟩

/-- A name that refers to the table is a string of it. -/
def LongNamed (w : Walk) : Prop :=
  IsLong w.elf.ar.elfArHdr.arRawname → ∃ names name, w.elf.ar.longNames = some names ∧
    w.elf.ar.elfArHdr.arName = some name ∧ NameIn names name

instance (hdr : List UInt8) : Decidable (IsLong hdr) := inferInstanceAs (Decidable (_ ∧ _))

theorem isLong_window {hdr : List UInt8} : IsLong (window hdr 0 16) ↔ IsLong hdr := by
  unfold IsLong
  rw [List.getD_eq_getElem?_getD, List.getD_eq_getElem?_getD, getElem?_window, getElem?_window]
  rw [List.getD_eq_getElem?_getD, List.getD_eq_getElem?_getD]
  rfl

theorem nextArhdr_tabled (ht : w.elf.Tabled env) : (nextArhdr env w).Ensures
    (fun _ w' => w'.elf.Tabled env ∧ LongNamed w') (fun w' => w'.elf.Tabled env) (fun _ => True) := by
  have htabled : ∀ {w₁ : Walk} (h : Arhdr), w₁.elf.Tabled env → (w₁.setHdr h).elf.Tabled env :=
    fun _ h => h.setAr rfl
  refine ensures_bind (ensures_mono (arHeader_still w) (fun _ w₁ h => h) (fun w₁ h => ?_) fun _ h => h)
    fun hdr w₁ helf => ?_
  · rw [h]
    exact ht
  · rw [← helf] at ht
    split
    · exact ht
    · refine ensures_bind (arNameOf_tabled (htabled { w₁.elf.ar.elfArHdr with arRawname := window hdr 0 16 } ht))
        fun name w₂ ⟨ht₂, hhdr, hname⟩ => ?_
      refine ensures_mono (arFields_names (w₂.setHdr { w₂.elf.ar.elfArHdr with arName := some name })) ?_ ?_ fun _ h => h
      · rintro _ w₃ ⟨h, helf₃, harName, harRaw⟩
        refine ⟨helf₃ ▸ htabled h (htabled _ ht₂), fun hlong => ?_⟩
        have hraw : h.arRawname = window hdr 0 16 := by
          rw [harRaw]
          show w₂.elf.ar.elfArHdr.arRawname = _
          rw [hhdr]
          rfl
        have hlong : IsLong h.arRawname := by
          rw [helf₃] at hlong
          exact hlong
        rw [hraw, isLong_window] at hlong
        obtain ⟨names, hnames, hin⟩ := hname hlong
        refine ⟨names, name, ?_, ?_, hin⟩
        · rw [helf₃]
          exact hnames
        · rw [helf₃]
          exact harName
      · rintro w₃ ⟨h, helf₃⟩
        exact helf₃ ▸ htabled h (htabled _ ht₂)

end Table

/-! ## Runs -/

namespace Lib

variable {env : Env} {e e' : Elf} {l : Lib} {h p : Handle}

/-- Every archive has no table, or its own. -/
def Tabled (env : Env) (l : Lib) : Prop := ∀ h e, l.get? h = some e → e.Tabled env

/-- A descriptor changes, or is freed. -/
theorem Tabled.set (hl : l.Tabled env) {o : Option Elf} (ho : ∀ e, o = some e → e.Tabled env)
    {hs : List (Handle × Nat)} : Tabled env ⟨l.elfs.set h o, hs⟩ := by
  intro k a ha
  rcases Nat.lt_or_ge h l.elfs.length with hlt | hge
  · rw [get?_set hlt] at ha
    split at ha
    · exact ho a ha
    · exact hl k a ha
  · rw [List.set_eq_of_length_le hge] at ha
    exact hl k a ha

theorem Tabled.put (hl : l.Tabled env) (he : e.Tabled env) {hs : List (Handle × Nat)} :
    Tabled env ⟨l.elfs.set h (some e), hs⟩ :=
  hl.set fun _ ho => Option.some.inj ho ▸ he

theorem Tabled.drop (hl : l.Tabled env) (h : Handle) : (l.set h none).Tabled env := by
  refine Tabled.set hl fun e ho => ?_
  cases ho

theorem Tabled.add (hl : l.Tabled env) (he : e.ar.longNames = none) : (l.add e).Tabled env := by
  intro k a ha
  rw [get?_add] at ha
  split at ha
  · exact Option.some.inj ha ▸ Elf.tabled_of_none he
  · exact hl k a ha

end Lib

section Calls

variable {env : Env} {e : Elf} {l : Lib} {h : Handle}

/-- A call on the library that leaves every archive with no table or its own. -/
def KeepsTables (env : Env) {α : Type} (x : LibCall α) : Prop :=
  x.Ensures (fun _ => Lib.Tabled env) (Lib.Tabled env) (fun _ => True)

theorem keep_tabled (hl : l.Tabled env) {x : Call Unit} (hx : ∀ e, x = .ok () e → e.ar.longNames = none) :
    KeepsTables env (l.keep x) := by
  cases x with
  | ok _ e => exact hl.add (hx e rfl)
  | err _ _ => exact hl
  | stop _ => trivial

theorem on_tabled {α : Type} {f : Walk → ArCall α} (hl : l.Tabled env)
    (hf : ∀ e, e.Tabled env → (f ⟨e, []⟩).Ensures (fun _ w => w.elf.Tabled env) (fun w => w.elf.Tabled env) fun _ => True) :
    KeepsTables env (l.on h f) := by
  cases hget : l.get? h with
  | none =>
    unfold Lib.on
    rw [hget]
    trivial
  | some e =>
    exact ensures_on hget (ensures_mono (hf e (hl h e hget)) (fun _ _ he => hl.put he) (fun _ he => hl.put he)
      fun _ h => h)

theorem moveTo_tabled (pos : Nat) (he : e.Tabled env) :
    (moveTo env pos ⟨e, []⟩).Ensures (fun _ w => w.elf.Tabled env) (fun w => w.elf.Tabled env) (fun _ => True) := by
  have hmoved : (e.setAr { e.ar with offset := pos }).Tabled env := he.setAr rfl
  exact moveTo_ensures (ensures_mono (nextArhdr_tabled hmoved) (fun _ _ h => h.1) (fun _ h => h.setAr rfl) fun _ h => h)

theorem childOf_tabled (hl : l.Tabled env) (fildes : Int) (cmd : Cmd) : KeepsTables env (childOf env fildes cmd h l) := by
  unfold childOf
  cases hget : l.get? h with
  | none => trivial
  | some ref =>
    simp only
    split
    · trivial
    · refine ensures_bind (keep_tabled hl fun e hopen => by rw [(readMember_place hopen).ar]) fun c l' hl' => ?_
      have hlisted : (ref.setAr { ref.ar with children := c :: ref.ar.children }).Tabled env := (hl h ref hget).setAr rfl
      exact hl'.put hlisted

theorem dupElf_tabled (hl : l.Tabled env) (fildes : Int) (cmd : Cmd) : KeepsTables env (dupElf env fildes cmd h l) := by
  unfold dupElf
  cases hget : l.get? h with
  | none => trivial
  | some ref =>
    simp only
    split
    · exact hl
    · split
      · exact hl
      · split
        · exact hl.put ((hl h ref hget).refCount _)
        · refine ensures_bind (Q := fun _ => Lib.Tabled env) ?_ fun _ l' hl' => childOf_tabled hl' _ cmd
          split
          · exact on_tabled hl fun e he => ensures_mono (nextArhdr_tabled he) (fun _ _ h => h.1) (fun _ h => h)
              fun _ h => h
          · exact hl

theorem elfBegin_tabled (hl : l.Tabled env) (fildes : Int) (cmd : Cmd) (ref : Option Handle) :
    KeepsTables env (elfBegin env fildes cmd ref l) := by
  have hwrite : (l.add (writeFile fildes cmd)).Tabled env := hl.add rfl
  unfold elfBegin
  cases ref with
  | none =>
    simp only
    split
    · exact hl
    · have hfile : KeepsTables env ((l.keep (readFile env fildes cmd)).bind fun h => .ok (some h)) :=
        ensures_bind (keep_tabled hl fun e hopen => by rw [(readFile_place hopen).ar]) fun _ _ h => h
      cases cmd with
      | null => exact hl
      | write => exact hwrite
      | writeMmap => exact hwrite
      | read => exact hfile
      | rdwr => exact hfile
      | readMmap => exact hfile
      | rdwrMmap => exact hfile
      | readMmapPrivate => exact hfile
  | some h =>
    simp only
    cases hget : l.get? h with
    | none => trivial
    | some e =>
      have hdup : KeepsTables env ((dupElf env fildes cmd h l).bind fun h => .ok (some h)) :=
        ensures_bind (dupElf_tabled hl fildes cmd) fun _ _ h => h
      cases cmd with
      | null => exact hl
      | write => exact hwrite
      | writeMmap => exact hwrite
      | read => exact hdup
      | readMmap => exact hdup
      | readMmapPrivate =>
        simp only
        split
        · exact hl
        · exact hdup
      | rdwr =>
        simp only
        split
        · exact hl
        · exact hdup
      | rdwrMmap =>
        simp only
        split
        · exact hl
        · exact hdup

theorem openMemory_tabled (hl : l.Tabled env) (image : Image) : KeepsTables env (openMemory env image l) :=
  keep_tabled hl fun e hopen => by rw [(readMmapedFile_place hopen).ar]

theorem elfNext_tabled (hl : l.Tabled env) : KeepsTables env (elfNext env h l) := by
  unfold elfNext
  cases l.get? h with
  | none => trivial
  | some e =>
    simp only
    cases e.parent with
    | none => exact hl
    | some p =>
      simp only
      cases l.get? p with
      | none => trivial
      | some parent =>
        simp only
        split
        · trivial
        · split
          · trivial
          · exact ensures_bind (on_tabled hl fun e he => moveTo_tabled _ he) fun _ _ h => h

theorem elfRand_tabled (hl : l.Tabled env) (offset : Nat) : KeepsTables env (elfRand env h offset l) := by
  unfold elfRand
  cases l.get? h with
  | none => trivial
  | some e =>
    simp only
    split
    · exact hl
    · exact ensures_bind (on_tabled hl fun e he => moveTo_tabled _ he) fun _ _ h => h

theorem elfGetarhdr_tabled (hl : l.Tabled env) : KeepsTables env (elfGetarhdr env h l) := by
  unfold elfGetarhdr
  cases l.get? h with
  | none => trivial
  | some e =>
    simp only
    cases e.parent with
    | none => exact hl
    | some p =>
      simp only
      cases l.get? p with
      | none => trivial
      | some parent =>
        simp only
        split
        · trivial
        · split
          · exact hl
          · refine on_tabled hl fun e he => ?_
            have hfirst := @nextArhdr_tabled env ⟨e, []⟩ he
            cases hcall : nextArhdr env ⟨e, []⟩ with
            | ok _ w =>
              rw [hcall] at hfirst
              exact hfirst.1
            | err _ w =>
              rw [hcall] at hfirst
              exact ensures_bind (ensures_mono (nextArhdr_tabled hfirst) (fun _ _ h => h.1) (fun _ h => h) fun _ h => h)
                fun _ _ h => h
            | stop f => trivial

theorem free_tabled (hl : l.Tabled env) (h : Handle) (e : Elf) : (free h e l).Tabled env := by
  unfold free
  cases e.parent with
  | none => exact hl.drop h
  | some p =>
    simp only
    cases hget : l.get? p with
    | none => exact hl.drop h
    | some parent =>
      have hunlinked : (parent.setAr { parent.ar with children := parent.ar.children.erase h }).Tabled env :=
        (hl p parent hget).setAr rfl
      exact Lib.Tabled.drop (hl.put hunlinked) h

theorem endAt_tabled (depth : Nat) : ∀ {h : Handle} {l : Lib}, l.Tabled env → KeepsTables env (endAt depth h l) := by
  induction depth with
  | zero => exact fun _ => trivial
  | succ depth ih =>
    intro h l hl
    unfold endAt
    cases hget : l.get? h with
    | none => trivial
    | some e =>
      simp only
      split
      · exact hl.put ((hl h e hget).refCount _)
      · split
        · exact hl.put ((hl h e hget).refCount _)
        · have hfree := free_tabled hl h e
          cases e.parent with
          | none => exact hfree
          | some p =>
            simp only
            cases (free h e l).get? p with
            | none => trivial
            | some a =>
              simp only
              split
              · exact ih hfree
              · exact hfree

theorem step_tabled {op : ArOp} {l' : Lib} (hl : l.Tabled env) (hstep : op.step env l = .ok l') : l'.Tabled env := by
  have hnext : ∀ {α : Type} {x : LibCall α}, KeepsTables env x → x.next = .ok l' → l'.Tabled env :=
    fun hx h => (ensures_next hx).1 l' h
  cases op with
  | begin fildes cmd ref => exact hnext (elfBegin_tabled hl fildes cmd ref) hstep
  | memory image => exact hnext (openMemory_tabled hl image) hstep
  | next h => exact hnext (elfNext_tabled hl) hstep
  | rand h offset => exact hnext (elfRand_tabled hl offset) hstep
  | getarhdr h => exact hnext (elfGetarhdr_tabled hl) hstep
  | «end» h => exact hnext (endAt_tabled _ hl) hstep

/-- After any run an archive has no table or its own. -/
theorem run_tabled (ops : List ArOp) {l' : Lib} (hrun : runOps (ArOp.step env) Lib.empty ops = .ok l') :
    l'.Tabled env :=
  (runOps_inv (F := fun _ => True) (fun _ _ _ hl hstep => step_tabled hl hstep) (fun _ _ _ _ _ => trivial) ops Lib.empty
    fun _ _ h => by simp [Lib.get?, Lib.empty] at h).1 l' hrun

end Calls

/-! ## Every name ends -/

/-- The loop that cuts the table ends inside it, whatever the table holds, and every offset starts a string that
ends there too; and in every archive of a run a name that refers to the table is such a string. -/
theorem longNames_safe :
    (∀ {n : Nat} (m : Mem n), ∃ m', terminateNames m = .ok () m' ∧ m'.bytes = nulTerminate m.bytes ∧
      Terminated m'.bytes) ∧
    ∀ (env : Env) (ops : List ArOp) (l : Lib), runOps (ArOp.step env) Lib.empty ops = .ok l →
      ∀ h e, l.get? h = some e → (∀ names, e.ar.longNames = some names → Terminated names) ∧
        ∀ pos us w, nextArhdr env ⟨e.setAr { e.ar with offset := pos }, us⟩ = .ok () w → LongNamed w := by
  refine ⟨fun m => ?_, fun env ops l hrun h e hget => ?_⟩
  · obtain ⟨m', hloop, hbytes⟩ := terminateNames_eq m
    exact ⟨m', hloop, hbytes, hbytes ▸ terminated_nulTerminate m.bytes⟩
  · have htabled := run_tabled ops hrun h e hget
    refine ⟨fun names hnames => htabled.terminated hnames, fun pos us w hnext => ?_⟩
    have hmoved : (e.setAr { e.ar with offset := pos }).Tabled env := htabled.setAr rfl
    have hnamed := @nextArhdr_tabled env ⟨e.setAr { e.ar with offset := pos }, us⟩ hmoved
    rw [hnext] at hnamed
    exact hnamed.2

/-- A header with a name and a size and blanks for the rest. -/
def rawHeader (name size : List UInt8) : List UInt8 :=
  padName name ++ List.replicate 32 0x20 ++ size ++ List.replicate (10 - size.length) 0x20 ++ arfmag

/-- An archive with the names `ab` and `cd`, of which the second has no slash, and a member that refers to the
first. -/
def twoNames : Image := .ofBytes
  (armag ++ rawHeader namesName [0x36] ++ [0x61, 0x62, 0x2F, 0x0A, 0x63, 0x64] ++ rawHeader [0x2F, 0x30] [0x30])
  (by decide +kernel)

set_option maxRecDepth 4000 in
theorem longNames_safe_twoNames : ∃ l e w, runOps (ArOp.step (plainEnv twoNames)) Lib.empty [.memory twoNames] = .ok l ∧
    l.get? 0 = some e ∧ nextArhdr (plainEnv twoNames) ⟨e.setAr { e.ar with offset := 74 }, []⟩ = .ok () w ∧
    IsLong w.elf.ar.elfArHdr.arRawname ∧ w.elf.ar.elfArHdr.arName = some [0x61, 0x62] ∧ LongNamed w := by
  have hrun : ∃ l e, runOps (ArOp.step (plainEnv twoNames)) Lib.empty [.memory twoNames] = .ok l ∧ l.get? 0 = some e ∧
      (nextArhdr (plainEnv twoNames) ⟨e.setAr { e.ar with offset := 74 }, []⟩).returns (fun _ w =>
        decide (IsLong w.elf.ar.elfArHdr.arRawname ∧ w.elf.ar.elfArHdr.arName = some [0x61, 0x62])) = true :=
    ⟨_, _, rfl, rfl, by decide +kernel⟩
  obtain ⟨l, e, hops, hget, hreturns⟩ := hrun
  obtain ⟨_, w, hnext, hw⟩ := exists_of_returns hreturns
  obtain ⟨hlong, hname⟩ := of_decide_eq_true hw
  exact ⟨l, e, w, hops, hget, hnext, hlong, hname,
    (longNames_safe.2 (plainEnv twoNames) _ l hops 0 e hget).2 74 [] w hnext⟩

end LibElf.Elfutils
