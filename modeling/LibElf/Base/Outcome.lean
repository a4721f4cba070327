import Mathlib.Tactic.Common

/-!
# Outcomes of C calls

A C function of a library like this one ends in one of three ways. It returns a value; it
reports an error and returns a failure value, after which the caller goes on with whatever
state the function left behind; or it never returns, because an assertion failed, an integer
was divided by zero, or a load or store missed the object it was meant for.

1. `Outcome ε σ α` has one constructor for each of the three, and `Outcome.bind` sequences calls.
2. `Outcome.Ensures` is the triple of the calculus: what holds of a result, of the state left
   by an error, and of a fault. `ensures_bind` and `ensures_mono` are its two rules.
3. `runOps` runs a list of operations from a state, and `runOps_inv` is the induction that turns
   what one operation preserves into what every run preserves. `Along` restricts a run to operations
   that meet a condition where they start, and `runOps_inv_along` is the induction for these.
-/

namespace LibElf

/-- Why a call never returns. -/
inductive Fault
  /-- A failed `assert`. -/
  | assertion
  /-- An integer division or remainder by zero. -/
  | division
  /-- A load outside the object that it is meant for. -/
  | load
  /-- A store outside the object that it is meant for. -/
  | store
  /-- A call or an access through a null pointer. -/
  | null
  /-- A loop that would go on for ever. -/
  | divergence
  /-- Signed arithmetic out of the range of its type. -/
  | overflow
  /-- A `memcpy` between ranges that overlap. -/
  | overlap
deriving DecidableEq, Repr

/-- How a C call ends: with a value, with an error code, or not at all. -/
inductive Outcome (ε σ α : Type)
  | ok (a : α) (s : σ)
  | err (e : ε) (s : σ)
  | stop (f : Fault)
deriving DecidableEq, Repr

namespace Outcome

variable {ε σ τ α β : Type}

/-- Go on after a call that returned; an error or a fault ends the caller too. -/
def bind (x : Outcome ε σ α) (f : α → σ → Outcome ε σ β) : Outcome ε σ β :=
  match x with
  | ok a s => f a s
  | err e s => err e s
  | stop t => stop t

@[simp] theorem bind_ok (a : α) (s : σ) (f : α → σ → Outcome ε σ β) :
    (ok a s : Outcome ε σ α).bind f = f a s := rfl

@[simp] theorem bind_err (e : ε) (s : σ) (f : α → σ → Outcome ε σ β) :
    (err e s : Outcome ε σ α).bind f = err e s := rfl

@[simp] theorem bind_stop (t : Fault) (f : α → σ → Outcome ε σ β) :
    (stop t : Outcome ε σ α).bind f = stop t := rfl

/-- A sequence returned, so its first call returned and the rest did too. -/
theorem bind_eq_ok {x : Outcome ε σ α} {f : α → σ → Outcome ε σ β} {b : β} {s : σ} :
    x.bind f = ok b s ↔ ∃ a t, x = ok a t ∧ f a t = ok b s := by
  cases x with
  | ok a t => simp
  | err e t => simp
  | stop t => simp

theorem bind_assoc {γ : Type} (x : Outcome ε σ α) (f : α → σ → Outcome ε σ β) (g : β → σ → Outcome ε σ γ) :
    (x.bind f).bind g = x.bind fun a s => (f a s).bind g := by
  cases x <;> rfl

/-- A call returned, with a result and a state that pass a test. -/
def returns (p : α → σ → Bool) : Outcome ε σ α → Bool
  | ok a s => p a s
  | _ => false

theorem exists_of_returns {x : Outcome ε σ α} {p : α → σ → Bool} (h : x.returns p = true) :
    ∃ a s, x = ok a s ∧ p a s = true := by
  cases x with
  | ok a s => exact ⟨a, s, rfl, h⟩
  | err e s => cases h
  | stop f => cases h

/-- A call reported an error, and left a state that passes a test. -/
def fails (p : ε → σ → Bool) : Outcome ε σ α → Bool
  | err e s => p e s
  | _ => false

theorem exists_of_fails {x : Outcome ε σ α} {p : ε → σ → Bool} (h : x.fails p = true) :
    ∃ e s, x = err e s ∧ p e s = true := by
  cases x with
  | ok a s => cases h
  | err e s => exact ⟨e, s, rfl, h⟩
  | stop f => cases h

/-- A sequence was cut short, by its first call or by the rest. -/
theorem bind_eq_stop {x : Outcome ε σ α} {f : α → σ → Outcome ε σ β} {t : Fault} :
    x.bind f = stop t ↔ x = stop t ∨ ∃ a s, x = ok a s ∧ f a s = stop t := by
  cases x with
  | ok a s => simp
  | err e s => simp
  | stop t => simp

/-- A sequence reported an error, in its first call or in the rest. -/
theorem bind_eq_err {x : Outcome ε σ α} {f : α → σ → Outcome ε σ β} {e : ε} {s : σ} :
    x.bind f = err e s ↔ x = err e s ∨ ∃ a t, x = ok a t ∧ f a t = err e s := by
  cases x with
  | ok a t => simp
  | err e t => simp
  | stop t => simp

/-- The state a caller goes on with, whether the call succeeded or not. -/
def next : Outcome ε σ α → Except Fault σ
  | ok _ s => .ok s
  | err _ s => .ok s
  | stop f => .error f

/-- Go on whether the call succeeded or not. -/
def ignore (x : Outcome ε σ α) : Outcome ε σ Unit :=
  match x with
  | ok _ s => ok () s
  | err _ s => ok () s
  | stop t => stop t

@[simp] theorem ignore_ok (a : α) (s : σ) : (ok a s : Outcome ε σ α).ignore = ok () s := rfl

@[simp] theorem ignore_err (e : ε) (s : σ) : (err e s : Outcome ε σ α).ignore = ok () s := rfl

@[simp] theorem ignore_stop (t : Fault) : (stop t : Outcome ε σ α).ignore = stop t := rfl

/-- The value a call returns, when it succeeds. -/
def value? : Outcome ε σ α → Option α
  | ok a _ => some a
  | err _ _ => none
  | stop _ => none

/-- Run a call that works on a part of the state inside the whole state. -/
def within (x : Outcome ε σ α) (put : σ → τ) : Outcome ε τ α :=
  match x with
  | ok a s => ok a (put s)
  | err e s => err e (put s)
  | stop t => stop t

@[simp] theorem within_ok (a : α) (s : σ) (put : σ → τ) :
    (ok a s : Outcome ε σ α).within put = ok a (put s) := rfl

@[simp] theorem within_err (e : ε) (s : σ) (put : σ → τ) :
    (err e s : Outcome ε σ α).within put = err e (put s) := rfl

@[simp] theorem within_stop (t : Fault) (put : σ → τ) :
    (stop t : Outcome ε σ α).within put = stop t := rfl

theorem within_eq_ok {x : Outcome ε σ α} {put : σ → τ} {a : α} {t : τ} :
    x.within put = ok a t ↔ ∃ s, x = ok a s ∧ put s = t := by
  cases x <;> simp

theorem within_eq_err {x : Outcome ε σ α} {put : σ → τ} {e : ε} {t : τ} :
    x.within put = err e t ↔ ∃ s, x = err e s ∧ put s = t := by
  cases x <;> simp

@[simp] theorem within_eq_stop {x : Outcome ε σ α} {put : σ → τ} {f : Fault} :
    x.within put = stop f ↔ x = stop f := by
  cases x <;> simp

/-- Two calls in a part of the state are two calls in the whole state. -/
theorem within_bind {put : σ → τ} {x : Outcome ε σ α} {f : α → σ → Outcome ε σ β} {f' : α → τ → Outcome ε τ β}
    (hf : ∀ a s, (f a s).within put = f' a (put s)) : (x.bind f).within put = (x.within put).bind f' := by
  cases x with
  | ok a s => exact hf a s
  | err _ _ => rfl
  | stop _ => rfl

/-- The value of two calls where the state makes no difference to the second. -/
theorem value?_bind_within {put : σ → τ} {x : Outcome ε σ α} {f : α → σ → Outcome ε σ β} {f' : α → τ → Outcome ε τ β}
    (hf : ∀ a s, (f' a (put s)).value? = (f a s).value?) : ((x.within put).bind f').value? = (x.bind f).value? := by
  cases x with
  | ok a s => exact hf a s
  | err _ _ => rfl
  | stop _ => rfl

theorem next_within {x : Outcome ε σ α} {put : σ → τ} : (x.within put).next = x.next.map put := by
  cases x <;> rfl

/-! ## Triples -/

/-- `x.Ensures Q E F`: a returned value and its state satisfy `Q`, the state left by an error
satisfies `E`, and a fault satisfies `F`. -/
def Ensures (x : Outcome ε σ α) (Q : α → σ → Prop) (E : σ → Prop) (F : Fault → Prop) : Prop :=
  match x with
  | ok a s => Q a s
  | err _ s => E s
  | stop f => F f

variable {Q Q' : α → σ → Prop} {R : β → σ → Prop} {E E' : σ → Prop} {F F' : Fault → Prop}

@[simp] theorem ensures_ok {a : α} {s : σ} : (ok a s : Outcome ε σ α).Ensures Q E F ↔ Q a s :=
  Iff.rfl

@[simp] theorem ensures_err {e : ε} {s : σ} : (err e s : Outcome ε σ α).Ensures Q E F ↔ E s :=
  Iff.rfl

@[simp] theorem ensures_stop {f : Fault} : (stop f : Outcome ε σ α).Ensures Q E F ↔ F f :=
  Iff.rfl

/-- A triple bounds what the caller goes on with. -/
theorem ensures_next {x : Outcome ε σ α} (hx : x.Ensures (fun _ => E) E F) :
    (∀ s, x.next = .ok s → E s) ∧ ∀ f, x.next = .error f → F f := by
  cases x with
  | ok a s =>
    refine ⟨fun t h => ?_, nofun⟩
    cases h
    exact hx
  | err e s =>
    refine ⟨fun t h => ?_, nofun⟩
    cases h
    exact hx
  | stop g =>
    refine ⟨nofun, fun f h => ?_⟩
    cases h
    exact hx

/-- The rule for a call on a part of the state. -/
theorem ensures_within {x : Outcome ε σ α} {put : σ → τ} {Q : α → τ → Prop} {E : τ → Prop}
    (hx : x.Ensures (fun a s => Q a (put s)) (fun s => E (put s)) F) :
    (x.within put).Ensures Q E F := by
  cases x with
  | ok a s => exact hx
  | err e s => exact hx
  | stop t => exact hx

/-- The rule of sequencing. -/
theorem ensures_bind {x : Outcome ε σ α} {f : α → σ → Outcome ε σ β} (hx : x.Ensures Q E F)
    (hf : ∀ a s, Q a s → (f a s).Ensures R E F) : (x.bind f).Ensures R E F := by
  cases x with
  | ok a s => exact hf a s hx
  | err e s => exact hx
  | stop t => exact hx

/-- A triple may assume that the call returned what it returned. -/
theorem ensures_and_ok {x : Outcome ε σ α} {P : α → σ → Prop} (hx : x.Ensures Q E F)
    (hP : ∀ a s, x = ok a s → P a s) : x.Ensures (fun a s => Q a s ∧ P a s) E F := by
  cases x with
  | ok a s => exact ⟨hx, hP a s rfl⟩
  | err e s => exact hx
  | stop t => exact hx

/-- Two triples about one call. -/
theorem ensures_and {x : Outcome ε σ α} (hx : x.Ensures Q E F) (hx' : x.Ensures Q' E' F') :
    x.Ensures (fun a s => Q a s ∧ Q' a s) (fun s => E s ∧ E' s) (fun f => F f ∧ F' f) := by
  cases x with
  | ok a s => exact ⟨hx, hx'⟩
  | err e s => exact ⟨hx, hx'⟩
  | stop t => exact ⟨hx, hx'⟩

/-- The rule for a call whose failure goes unnoticed. -/
theorem ensures_ignore {x : Outcome ε σ α} (hx : x.Ensures (fun _ => E) E F) :
    x.ignore.Ensures (fun _ => E) E F := by
  cases x with
  | ok a s => exact hx
  | err e s => exact hx
  | stop t => exact hx

/-- The rule of consequence. -/
theorem ensures_mono {x : Outcome ε σ α} (hx : x.Ensures Q E F) (hQ : ∀ a s, Q a s → Q' a s)
    (hE : ∀ s, E s → E' s) (hF : ∀ f, F f → F' f) : x.Ensures Q' E' F' := by
  cases x with
  | ok a s => exact hQ a s hx
  | err e s => exact hE s hx
  | stop t => exact hF t hx

end Outcome

/-! ## Runs -/

section Runs

variable {σ ι : Type}

/-- Run operations one after the other. An operation either leaves a state or ends the run. -/
def runOps (step : σ → ι → Except Fault σ) : σ → List ι → Except Fault σ
  | s, [] => .ok s
  | s, op :: ops =>
    match step s op with
    | .ok s' => runOps step s' ops
    | .error f => .error f

/-- What every operation preserves, every run preserves; and a run ends only by a fault that an
operation can end by. -/
theorem runOps_inv {step : σ → ι → Except Fault σ} {Inv : σ → Prop} {F : Fault → Prop}
    (hok : ∀ s op s', Inv s → step s op = .ok s' → Inv s')
    (herr : ∀ s op f, Inv s → step s op = .error f → F f) (ops : List ι) :
    ∀ s, Inv s → (∀ s', runOps step s ops = .ok s' → Inv s') ∧
      ∀ f, runOps step s ops = .error f → F f := by
  induction ops with
  | nil =>
    intro s hs
    refine ⟨fun s' h => ?_, fun f h => ?_⟩
    · cases h
      exact hs
    · cases h
  | cons op ops ih =>
    intro s hs
    cases hstep : step s op with
    | ok s1 =>
      have := ih s1 (hok s op s1 hs hstep)
      simpa [runOps, hstep] using this
    | error f1 =>
      have := herr s op f1 hs hstep
      simpa [runOps, hstep] using this

/-- A run of operations that act in another way on a part of the state. -/
theorem runOps_part {τ : Type} {step : σ → ι → Except Fault σ} {step' : τ → ι → Except Fault τ} {part : σ → τ}
    {Inv : σ → Prop} (hok : ∀ s op s', Inv s → step s op = .ok s' → Inv s')
    (hpart : ∀ s op, Inv s → step' (part s) op = (step s op).map part) (ops : List ι) :
    ∀ s, Inv s → runOps step' (part s) ops = (runOps step s ops).map part := by
  induction ops with
  | nil => exact fun _ _ => rfl
  | cons op ops ih =>
    intro s hs
    rw [runOps, runOps, hpart s op hs]
    cases hstep : step s op with
    | ok s' => exact ih s' (hok s op s' hs hstep)
    | error f => rfl

/-- Every operation of a run meets a condition on the state it starts from. -/
def Along (step : σ → ι → Except Fault σ) (C : σ → ι → Prop) : σ → List ι → Prop
  | _, [] => True
  | s, op :: ops => C s op ∧ ∀ s', step s op = .ok s' → Along step C s' ops

instance decidableAlong {step : σ → ι → Except Fault σ} {C : σ → ι → Prop} [∀ s op, Decidable (C s op)] :
    ∀ s ops, Decidable (Along step C s ops)
  | _, [] => isTrue trivial
  | s, op :: ops =>
    match h : step s op with
    | .ok s' =>
      have : Decidable (Along step C s' ops) := decidableAlong s' ops
      decidable_of_iff (C s op ∧ Along step C s' ops) (by simp [Along, h])
    | .error _ => decidable_of_iff (C s op) (by simp [Along, h])

theorem Along.mono {step : σ → ι → Except Fault σ} {C D : σ → ι → Prop} (hcd : ∀ s op, C s op → D s op) (ops : List ι) :
    ∀ s, Along step C s ops → Along step D s ops := by
  induction ops with
  | nil => exact fun _ h => h
  | cons op ops ih => exact fun s h => ⟨hcd s op h.1, fun s' hstep => ih s' (h.2 s' hstep)⟩

/-- What every operation of a run preserves where it meets the condition, the run preserves. -/
theorem runOps_inv_along {step : σ → ι → Except Fault σ} {Inv : σ → Prop} {C : σ → ι → Prop} (ops : List ι)
    (hok : ∀ op ∈ ops, ∀ s s', Inv s → C s op → step s op = .ok s' → Inv s') :
    ∀ s s', Inv s → Along step C s ops → runOps step s ops = .ok s' → Inv s' := by
  induction ops with
  | nil =>
    rintro s s' hs - h
    cases h
    exact hs
  | cons op ops ih =>
    rintro s s' hs ⟨hop, hrest⟩ hrun
    have ih := ih fun op hmem => hok op (List.mem_cons_of_mem _ hmem)
    cases hstep : step s op with
    | ok s₁ =>
      have hs₁ := hok op List.mem_cons_self s s₁ hs hop hstep
      exact ih s₁ s' hs₁ (hrest s₁ hstep) (by simpa [runOps, hstep] using hrun)
    | error f => simp [runOps, hstep] at hrun

/-- Where every operation that meets the condition returns, a run of such operations does. -/
theorem runOps_returns_along {step : σ → ι → Except Fault σ} {Inv : σ → Prop} {C : σ → ι → Prop}
    (hok : ∀ s op, Inv s → C s op → ∃ s', step s op = .ok s' ∧ Inv s') (ops : List ι) :
    ∀ s, Inv s → Along step C s ops → ∃ s', runOps step s ops = .ok s' ∧ Inv s' := by
  induction ops with
  | nil =>
    intro s hs _
    exact ⟨s, rfl, hs⟩
  | cons op ops ih =>
    rintro s hs ⟨hop, hrest⟩
    obtain ⟨s₁, hstep, hs₁⟩ := hok s op hs hop
    obtain ⟨s', hrun, hs'⟩ := ih s₁ hs₁ (hrest s₁ hstep)
    exact ⟨s', by rw [runOps, hstep]; exact hrun, hs'⟩

end Runs

end LibElf
