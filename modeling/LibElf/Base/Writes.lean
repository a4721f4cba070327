import LibElf.Base.InPlace
import LibElf.Base.Memory

/-!
# Writes to a file

A file that is written at places of its own choice, and a writer that goes through ranges in the order of their places
with one cursor: it fills the gap in front of a range, or leaves it, and writes the range, or leaves it.

1. `store`, a write at a place; `Shows`, what a file has at a place.
2. `Job`, a range with what is to be done for it, and `runJobs`, the writer.
3. `Ascends`: ranges that do not reach into one another. What is written is there at the end (`runJobs_shows`), what is
   left is as it was (`runJobs_kept`), and so is every place outside (`runJobs_outside`).
4. `runJobs_untouched`, which needs no order of the ranges, and `runJobs_gap`: the places between the ranges.
-/

namespace LibElf

variable {f : List UInt8} {a off off' : Nat} {bs bs' : List UInt8}

/-! ## One write -/

/-- Write bytes at a place. A file that is too short grows; what lies between is zero. -/
def store (f : List UInt8) (off : Nat) (bs : List UInt8) : List UInt8 :=
  if bs = [] then f else (f ++ List.replicate (off - f.length) 0).take off ++ bs ++ f.drop (off + bs.length)

@[simp] theorem store_nil (f : List UInt8) (off : Nat) : store f off [] = f := if_pos rfl

theorem getElem?_store_in (h : off ≤ a) (h' : a < off + bs.length) : (store f off bs)[a]? = bs[a - off]? := by
  have hne : bs ≠ [] := fun hnil => by subst hnil; simp at h'; omega
  have hlen : ((f ++ List.replicate (off - f.length) 0).take off).length = off := by
    rw [List.length_take, List.length_append, List.length_replicate]
    omega
  rw [store, if_neg hne, List.append_assoc, List.getElem?_append_right (by omega), hlen,
    List.getElem?_append_left (by omega)]

theorem getElem?_store_out (h : a < off ∨ off + bs.length ≤ a) (ha : a < f.length) : (store f off bs)[a]? = f[a]? := by
  unfold store
  split
  · rfl
  have hlen : ((f ++ List.replicate (off - f.length) 0).take off).length = off := by
    rw [List.length_take, List.length_append, List.length_replicate]
    omega
  rw [List.append_assoc]
  rcases h with h | h
  · rw [List.getElem?_append_left (by omega), List.getElem?_take_of_lt h, List.getElem?_append_left ha]
  · rw [List.getElem?_append_right (by omega), hlen, List.getElem?_append_right (by omega), List.getElem?_drop]
    congr 1
    omega

/-- The bytes of a file after a write. -/
theorem getElem?_store (hne : bs ≠ []) : (store f off bs)[a]? = if a < off then (if a < f.length then f[a]? else some 0)
    else if a < off + bs.length then bs[a - off]? else f[a]? := by
  have hlen : ((f ++ List.replicate (off - f.length) 0).take off).length = off := by
    rw [List.length_take, List.length_append, List.length_replicate]
    omega
  rw [store, if_neg hne, List.append_assoc]
  by_cases hlt : a < off
  · rw [if_pos hlt, List.getElem?_append_left (by omega), List.getElem?_take_of_lt hlt]
    by_cases ha : a < f.length
    · rw [if_pos ha, List.getElem?_append_left ha]
    · rw [if_neg ha, List.getElem?_append_right (by omega), List.getElem?_replicate, if_pos (by omega)]
  · rw [if_neg hlt, List.getElem?_append_right (by omega), hlen]
    by_cases hin : a < off + bs.length
    · rw [if_pos hin, List.getElem?_append_left (by omega)]
    · rw [if_neg hin, List.getElem?_append_right (by omega), List.getElem?_drop]
      congr 1
      omega

/-- Two writes, the second right behind the first. -/
theorem store_append (f : List UInt8) (off : Nat) (bs bs' : List UInt8) :
    store (store f off bs) (off + bs.length) bs' = store f off (bs ++ bs') := by
  by_cases hbs : bs = []
  · subst hbs
    rw [store_nil]
    rfl
  by_cases hbs' : bs' = []
  · subst hbs'
    rw [store_nil, List.append_nil]
  apply List.ext_getElem?
  intro a
  have hfirst : a < off → a < (store f off bs).length ∧ (store f off bs)[a]? = if a < f.length then f[a]? else some 0 := by
    intro hlt
    have hsome : (store f off bs)[a]? = if a < f.length then f[a]? else some 0 := by rw [getElem?_store hbs, if_pos hlt]
    refine ⟨List.getElem?_eq_some_iff.mp (?_ : (store f off bs)[a]? = some ((f[a]?).getD 0)) |>.1, hsome⟩
    rw [hsome]
    split
    · next ha => rw [List.getElem?_eq_getElem ha]; rfl
    · next ha => rw [List.getElem?_eq_none (by omega)]; rfl
  rw [getElem?_store hbs', getElem?_store (fun h => hbs (List.append_eq_nil_iff.mp h).1), List.length_append]
  by_cases hlt : a < off
  · rw [if_pos (by omega), if_pos (hfirst hlt).1, (hfirst hlt).2, if_pos hlt]
  · rw [if_neg hlt]
    by_cases hin : a < off + bs.length
    · have hsome := @getElem?_store_in f a off bs (Nat.le_of_not_lt hlt) hin
      have hlen : a < (store f off bs).length := by
        rw [List.getElem?_eq_getElem (show a - off < bs.length by omega)] at hsome
        exact (List.getElem?_eq_some_iff.mp hsome).1
      rw [if_pos hin, if_pos hlen, hsome, if_pos (by omega), List.getElem?_append_left (by omega)]
    · rw [if_neg hin, List.getElem?_append_right (by omega)]
      by_cases hlast : a < off + bs.length + bs'.length
      · rw [if_pos hlast, if_pos (by omega)]
        congr 1
        omega
      · rw [if_neg hlast, if_neg (by omega), getElem?_store hbs, if_neg hlt, if_neg hin]

theorem length_store (f : List UInt8) (off : Nat) (hne : bs ≠ []) : (store f off bs).length = max f.length (off + bs.length) := by
  rw [store, if_neg hne]
  simp only [List.length_append, List.length_take, List.length_replicate, List.length_drop]
  omega

theorem length_le_store (f : List UInt8) (off : Nat) (bs : List UInt8) : f.length ≤ (store f off bs).length := by
  by_cases hne : bs = []
  · subst hne
    rw [store_nil]
  · rw [length_store f off hne]
    exact Nat.le_max_left ..

def Shows (f : List UInt8) (off : Nat) (bs : List UInt8) : Prop := ∀ i < bs.length, f[off + i]? = bs[i]?

theorem shows_store (f : List UInt8) (off : Nat) (bs : List UInt8) : Shows (store f off bs) off bs := fun i hi => by
  rw [getElem?_store_in (by omega) (by omega), Nat.add_sub_cancel_left]

theorem Shows.lt_length (h : Shows f off bs) {i : Nat} (hi : i < bs.length) : off + i < f.length := by
  have hsome := h i hi
  rw [List.getElem?_eq_getElem hi] at hsome
  exact (List.getElem?_eq_some_iff.mp hsome).1

/-- What a file shows depends on no other place. -/
theorem Shows.congr {f' : List UInt8} (h : Shows f off bs)
    (hsame : ∀ a, off ≤ a → a < off + bs.length → a < f.length → f'[a]? = f[a]?) : Shows f' off bs := fun i hi => by
  rw [hsame (off + i) (by omega) (by omega) (h.lt_length hi), h i hi]

/-- A write elsewhere changes nothing. -/
theorem Shows.store (h : Shows f off bs) (hsep : Separate off bs.length off' bs'.length) :
    Shows (LibElf.store f off' bs') off bs := h.congr fun a hle hlt ha => by
  refine getElem?_store_out ?_ ha
  rcases hsep with hsep | hsep <;> omega

/-! ## A writer with a cursor -/

/-- A range of a file. Of `bytes` it is written, if there are any; `fill` says that the gap in front is filled. -/
structure Job where
  off : Nat
  len : Nat
  bytes : Option (List UInt8)
  fill : Bool
  sized : ∀ bs, bytes = some bs → bs.length = len

namespace Job

def stop (j : Job) : Nat := j.off + j.len

/-- The gap between the cursor and the range. -/
def runGap (b : UInt8) (rc : Nat) (j : Job) (f : List UInt8) : List UInt8 :=
  if j.fill = true ∧ rc < j.off then store f rc (List.replicate (j.off - rc) b) else f

def run (b : UInt8) (rc : Nat) (j : Job) (f : List UInt8) : List UInt8 :=
  match j.bytes with
  | none => j.runGap b rc f
  | some bs => store (j.runGap b rc f) j.off bs

variable {b : UInt8} {rc : Nat} {j : Job}

theorem length_le_runGap : f.length ≤ (j.runGap b rc f).length := by
  unfold runGap
  split
  · exact length_le_store ..
  · exact Nat.le_refl _

theorem runGap_outside (h : a < rc ∨ j.off ≤ a) (ha : a < f.length) : (j.runGap b rc f)[a]? = f[a]? := by
  unfold runGap
  split
  · exact getElem?_store_out (by rw [List.length_replicate]; omega) ha
  · rfl

theorem length_le_run : f.length ≤ (j.run b rc f).length := by
  unfold run
  split
  · exact length_le_runGap
  · exact Nat.le_trans length_le_runGap (length_le_store ..)

/-- In front of the cursor and behind the range nothing happens. -/
theorem run_outside (hrc : rc ≤ j.off) (h : a < rc ∨ j.stop ≤ a) (ha : a < f.length) : (j.run b rc f)[a]? = f[a]? := by
  unfold stop at h
  have hgap : (j.runGap b rc f)[a]? = f[a]? := runGap_outside (h.imp_right (Nat.le_trans (Nat.le_add_right ..))) ha
  unfold run
  split
  · exact hgap
  · next bs hbs =>
    have hlen := j.sized bs hbs
    rw [getElem?_store_out (by omega) (Nat.lt_of_lt_of_le ha length_le_runGap), hgap]

/-- What is neither in the gap nor in the range, where they are written, is as it was. -/
theorem run_untouched (hgap : ¬ (j.fill = true ∧ rc ≤ a ∧ a < j.off))
    (hin : ¬ (j.bytes.isSome = true ∧ j.off ≤ a ∧ a < j.stop)) (ha : a < f.length) : (j.run b rc f)[a]? = f[a]? := by
  have hfirst : (j.runGap b rc f)[a]? = f[a]? := by
    unfold runGap
    split
    · next h =>
      have hout : ¬ (rc ≤ a ∧ a < j.off) := fun hin => hgap ⟨h.1, hin⟩
      exact getElem?_store_out (by rw [List.length_replicate]; omega) ha
    · rfl
  unfold run
  split
  · exact hfirst
  · next bs hbs =>
    have hlen := j.sized bs hbs
    have hout : ¬ (j.off ≤ a ∧ a < j.off + j.len) := fun h => hin ⟨by rw [hbs]; rfl, h⟩
    rw [getElem?_store_out (by omega) (Nat.lt_of_lt_of_le ha length_le_runGap), hfirst]

/-- A range that is not written is as it was. -/
theorem run_kept (hb : j.bytes = none) (h : j.off ≤ a) (ha : a < f.length) : (j.run b rc f)[a]? = f[a]? := by
  unfold run
  rw [hb]
  exact runGap_outside (.inr h) ha

theorem run_shows (hb : j.bytes = some bs) : Shows (j.run b rc f) j.off bs := by
  unfold run
  rw [hb]
  exact shows_store (j.runGap b rc f) j.off bs

end Job

def runJobs (b : UInt8) : Nat → List Job → List UInt8 → List UInt8
  | _, [], f => f
  | rc, j :: js, f => runJobs b j.stop js (j.run b rc f)

def jobsEnd : Nat → List Job → Nat
  | rc, [] => rc
  | _, j :: js => jobsEnd j.stop js

/-- A place that is written, as a part of a range or of a gap. -/
def Touched : Nat → List Job → Nat → Prop
  | _, [], _ => False
  | rc, j :: js, a =>
    j.fill = true ∧ rc ≤ a ∧ a < j.off ∨ j.bytes.isSome = true ∧ j.off ≤ a ∧ a < j.stop ∨ Touched j.stop js a

instance decidableTouched : ∀ rc js a, Decidable (Touched rc js a)
  | _, [], _ => isFalse id
  | _, j :: js, a =>
    have := decidableTouched j.stop js a
    inferInstanceAs (Decidable (_ ∨ _ ∨ _))

/-- Every range starts at or behind the end of the one before it. -/
def Ascends : Nat → List Job → Prop
  | _, [] => True
  | rc, j :: js => rc ≤ j.off ∧ Ascends j.stop js

instance decidableAscends : ∀ rc js, Decidable (Ascends rc js)
  | _, [] => isTrue trivial
  | _, j :: js =>
    have := decidableAscends j.stop js
    inferInstanceAs (Decidable (_ ∧ _))

variable {b : UInt8} {rc : Nat} {js js' : List Job} {j : Job}

theorem runJobs_append (rc : Nat) (js js' : List Job) (f : List UInt8) :
    runJobs b rc (js ++ js') f = runJobs b (jobsEnd rc js) js' (runJobs b rc js f) := by
  induction js generalizing rc f with
  | nil => rfl
  | cons j js ih => exact ih j.stop _

theorem jobsEnd_append (rc : Nat) (js js' : List Job) : jobsEnd rc (js ++ js') = jobsEnd (jobsEnd rc js) js' := by
  induction js generalizing rc with
  | nil => rfl
  | cons j js ih => exact ih j.stop

theorem ascends_append : Ascends rc (js ++ js') ↔ Ascends rc js ∧ Ascends (jobsEnd rc js) js' := by
  induction js generalizing rc with
  | nil => exact ⟨fun h => ⟨trivial, h⟩, fun h => h.2⟩
  | cons j js ih => exact ⟨fun h => ⟨⟨h.1, (ih.mp h.2).1⟩, (ih.mp h.2).2⟩, fun h => ⟨h.1.1, ih.mpr ⟨h.1.2, h.2⟩⟩⟩

theorem Ascends.le_end (h : Ascends rc js) : rc ≤ jobsEnd rc js := by
  induction js generalizing rc with
  | nil => exact Nat.le_refl _
  | cons j js ih => exact Nat.le_trans (Nat.le_trans h.1 (Nat.le_add_right ..)) (ih h.2)

/-- Every range lies between the start and the end of the cursor. -/
theorem Ascends.mem (h : Ascends rc js) (hj : j ∈ js) : rc ≤ j.off ∧ j.stop ≤ jobsEnd rc js := by
  induction js generalizing rc with
  | nil => cases hj
  | cons i js ih =>
    rcases List.mem_cons.mp hj with rfl | hj
    · exact ⟨h.1, h.2.le_end⟩
    · obtain ⟨hle, hstop⟩ := ih h.2 hj
      exact ⟨Nat.le_trans (Nat.le_trans h.1 (Nat.le_add_right ..)) hle, hstop⟩

/-- In front of the cursor and behind its end the file is as it was. -/
theorem runJobs_outside (h : Ascends rc js) (hout : a < rc ∨ jobsEnd rc js ≤ a) (ha : a < f.length) :
    (runJobs b rc js f)[a]? = f[a]? := by
  induction js generalizing rc f with
  | nil => rfl
  | cons j js ih =>
    have hstop : j.stop ≤ jobsEnd j.stop js := h.2.le_end
    have hoff : j.off ≤ j.stop := Nat.le_add_right ..
    have hfirst := h.1
    have hside : a < rc ∨ j.stop ≤ a := hout.imp_right (Nat.le_trans hstop)
    rw [runJobs, ih h.2 (hout.imp_left fun hlt => by omega) (Nat.lt_of_lt_of_le ha Job.length_le_run),
      Job.run_outside hfirst hside ha]

/-- **What is written is there at the end.** -/
theorem runJobs_shows (h : Ascends rc js) (hj : j ∈ js) (hb : j.bytes = some bs) : Shows (runJobs b rc js f) j.off bs := by
  induction js generalizing rc f with
  | nil => cases hj
  | cons i js ih =>
    rcases List.mem_cons.mp hj with rfl | hj
    · have hlen := j.sized bs hb
      refine (Job.run_shows hb).congr fun a _ hlt ha => runJobs_outside h.2 (.inl ?_) ha
      show a < j.off + j.len
      omega
    · exact ih h.2 hj

/-- **A range that is left is as it was.** -/
theorem runJobs_kept (h : Ascends rc js) (hj : j ∈ js) (hb : j.bytes = none) (hle : j.off ≤ a) (hlt : a < j.stop)
    (ha : a < f.length) : (runJobs b rc js f)[a]? = f[a]? := by
  induction js generalizing rc f with
  | nil => cases hj
  | cons i js ih =>
    have hlen := Nat.lt_of_lt_of_le ha (@Job.length_le_run f b rc i)
    rcases List.mem_cons.mp hj with rfl | hj
    · rw [runJobs, runJobs_outside h.2 (.inl hlt) hlen, Job.run_kept hb hle ha]
    · rw [runJobs, ih h.2 hj hlen, Job.run_outside h.1 (.inr (Nat.le_trans (h.2.mem hj).1 hle)) ha]

/-- What a range is to have, it has at the end: it is written, or was there before. -/
theorem runJobs_holds (h : Ascends rc js) (hj : j ∈ js) (hlen : bs.length = j.len)
    (hb : j.bytes = some bs ∨ j.bytes = none ∧ Shows f j.off bs) : Shows (runJobs b rc js f) j.off bs := by
  rcases hb with hb | ⟨hb, hshows⟩
  · exact runJobs_shows h hj hb
  · refine hshows.congr fun a hle hlt ha => runJobs_kept h hj hb hle ?_ ha
    show a < j.off + j.len
    omega

/-- Where every gap is filled, every place in front of the end is in a gap or in a range. A range at the start of the
file has no gap. -/
theorem touched_of_fill (hfill : ∀ j ∈ js, j.fill = true ∨ j.off = 0) (hle : rc ≤ a) (hlt : a < jobsEnd rc js)
    (hgap : ∀ j ∈ js, ¬ (j.off ≤ a ∧ a < j.stop)) : Touched rc js a := by
  induction js generalizing rc with
  | nil => exact absurd hle (Nat.not_le.mpr hlt)
  | cons j js ih =>
    rw [List.forall_mem_cons] at hfill hgap
    rcases Nat.lt_or_ge a j.off with hbefore | hafter
    · exact .inl ⟨hfill.1.resolve_right (Nat.ne_of_gt (Nat.lt_of_le_of_lt (Nat.zero_le a) hbefore)), hle, hbefore⟩
    · exact .inr (.inr (ih hfill.2 (Nat.le_of_not_lt fun hin => hgap.1 ⟨hafter, hin⟩) hlt hgap.2))

end LibElf
