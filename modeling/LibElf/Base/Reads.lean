import LibElf.Base.Memory

/-!
# Reading with a record of what was read

A parser that only reads is safe when every range it reads lies in the buffer that it was given, also
when the bytes around that buffer can be read. So the state of such a parser is the list of the ranges it
has read; a load beyond the whole image is a fault.

1. `Reads` and `Inside`; `readLogged`, and `Grows`, the ranges that were read stay in the list.
2. `strlen` and `IsString`, strings that end at a NUL; `readString` reads one, and `skipString` looks for
   its end in a bounded loop.
-/

namespace LibElf

open Outcome

/-! ## Ranges -/

/-- The ranges that were read, each an offset and a length. -/
abbrev Reads := List (Nat × Nat)

/-- Every range lies between `lo` and `hi`. -/
def Inside (lo hi : Nat) (log : Reads) : Prop := ∀ r ∈ log, lo ≤ r.1 ∧ r.1 + r.2 ≤ hi

instance (lo hi : Nat) (log : Reads) : Decidable (Inside lo hi log) := List.decidableBAll _ log

section Ranges

variable {ε α β : Type} {lo hi : Nat} {log log' : Reads}

theorem inside_nil : Inside lo hi [] := nofun

theorem Inside.prefix (h : Inside lo hi log') (hpre : log <+: log') : Inside lo hi log :=
  fun r hr => h r (hpre.subset hr)

theorem inside_append : Inside lo hi (log ++ log') ↔ Inside lo hi log ∧ Inside lo hi log' := by
  constructor
  · exact fun h => ⟨fun r hr => h r (List.mem_append_left _ hr), fun r hr => h r (List.mem_append_right _ hr)⟩
  · rintro ⟨h, h'⟩ r hr
    rcases List.mem_append.mp hr with hr | hr
    · exact h r hr
    · exact h' r hr

theorem inside_singleton {p len : Nat} : Inside lo hi [(p, len)] ↔ lo ≤ p ∧ p + len ≤ hi :=
  List.forall_mem_singleton

def readLogged (img : List UInt8) (p len : Nat) (log : Reads) : Outcome ε Reads (List UInt8) :=
  readAt img p len (log ++ [(p, len)])

theorem readLogged_of_le {img : List UInt8} {p len : Nat} (log : Reads) (h : p + len ≤ img.length) :
    (readLogged img p len log : Outcome ε Reads (List UInt8)) = .ok (window img p len) (log ++ [(p, len)]) :=
  readAt_of_le _ h

theorem readLogged_of_lt {img : List UInt8} {p len : Nat} (log : Reads) (hlen : 0 < len) (h : img.length < p + len) :
    (readLogged img p len log : Outcome ε Reads (List UInt8)) = .stop .load :=
  readAt_eq_stop.mpr ⟨rfl, hlen, h⟩

/-- What was read stays on record. -/
def Grows (log : Reads) (x : Outcome ε Reads α) : Prop :=
  x.Ensures (fun _ t => log <+: t) (fun t => log <+: t) (fun _ => True)

theorem grows_ok (a : α) : Grows log (.ok a log : Outcome ε Reads α) := List.prefix_refl log

theorem grows_err (e : ε) : Grows log (.err e log : Outcome ε Reads α) := List.prefix_refl log

theorem Grows.bind {x : Outcome ε Reads α} {f : α → Reads → Outcome ε Reads β} (hx : Grows log x)
    (hf : ∀ a t, Grows t (f a t)) : Grows log (x.bind f) :=
  ensures_bind hx fun a t ht => ensures_mono (hf a t) (fun _ _ h => ht.trans h) (fun _ h => ht.trans h) fun _ h => h

theorem grows_readLogged (img : List UInt8) (p len : Nat) :
    Grows log (readLogged img p len log : Outcome ε Reads (List UInt8)) :=
  ensures_mono (ensures_readAt (E := fun t => log <+: t) (F := fun _ => True) trivial)
    (fun _ _ h => by rw [h.2]; exact List.prefix_append _ _) (fun _ h => h) (fun _ h => h)

/-- A call that returned with all its reads in a range started with reads in the range. -/
theorem Grows.inside {x : Outcome ε Reads α} (hx : Grows log x)
    (h : x.Ensures (fun _ t => Inside lo hi t) (fun t => Inside lo hi t) (fun _ => False)) : Inside lo hi log := by
  cases x with
  | ok a t =>
    have hin : Inside lo hi t := h
    exact hin.prefix hx
  | err e t =>
    have hin : Inside lo hi t := h
    exact hin.prefix hx
  | stop f => exact absurd h id

end Ranges

/-! ## Strings -/

def strlen : List UInt8 → Option Nat
  | [] => none
  | c :: cs => if c = 0 then some 0 else (strlen cs).map (· + 1)

/-- The string `name` is at `s`, with its NUL. -/
def IsString (img : List UInt8) (s : Nat) (name : List UInt8) : Prop :=
  window img s (name.length + 1) = name ++ [0] ∧ 0 ∉ name

instance (img : List UInt8) (s : Nat) (name : List UInt8) : Decidable (IsString img s name) :=
  inferInstanceAs (Decidable (_ ∧ _))

section Strings

variable {ε : Type} {img name : List UInt8} {s : Nat}

theorem strlen_append (h : 0 ∉ name) (rest : List UInt8) : strlen (name ++ 0 :: rest) = some name.length := by
  induction name with
  | nil => rfl
  | cons c name ih =>
    have hc : c ≠ 0 := fun hc => h (hc ▸ List.mem_cons_self)
    rw [List.cons_append, strlen, if_neg hc, ih fun hmem => h (List.mem_cons_of_mem _ hmem)]
    rfl

theorem strlen_eq_some {l : List UInt8} {k : Nat} (h : strlen l = some k) :
    ∃ name rest, l = name ++ 0 :: rest ∧ name.length = k ∧ 0 ∉ name := by
  induction l generalizing k with
  | nil => cases h
  | cons c l ih =>
    rw [strlen] at h
    split at h
    · next hc =>
      obtain rfl := Option.some.inj h
      exact ⟨[], l, by rw [hc]; rfl, rfl, List.not_mem_nil⟩
    · next hc =>
      obtain ⟨j, hj, rfl⟩ := Option.map_eq_some_iff.mp h
      obtain ⟨name, rest, rfl, rfl, hname⟩ := ih hj
      refine ⟨c :: name, rest, rfl, rfl, fun hmem => ?_⟩
      rcases List.mem_cons.mp hmem with hzero | hmem
      · exact hc hzero.symm
      · exact hname hmem

theorem IsString.le (h : IsString img s name) : s + name.length + 1 ≤ img.length := by
  have hlen := congrArg List.length h.1
  rw [window, List.length_take, List.length_drop, List.length_append, List.length_singleton] at hlen
  omega

theorem IsString.strlen_eq (h : IsString img s name) :
    strlen (img.drop s) = some name.length ∧ window img s name.length = name := by
  obtain ⟨hwin, hnul⟩ := h
  have hsplit : img.drop s = name ++ 0 :: (img.drop s).drop (name.length + 1) := by
    conv_lhs => rw [← List.take_append_drop (name.length + 1) (img.drop s)]
    have htake : (img.drop s).take (name.length + 1) = name ++ [0] := hwin
    rw [htake, List.append_assoc]
    rfl
  refine ⟨?_, ?_⟩
  · rw [hsplit, strlen_append hnul]
  · rw [window, hsplit, List.take_left]

/-- Where there is a NUL, there is a string. -/
theorem isString_of_strlen {k : Nat} (h : strlen (img.drop s) = some k) :
    IsString img s (window img s k) ∧ (window img s k).length = k := by
  obtain ⟨name, rest, hl, rfl, hname⟩ := strlen_eq_some h
  have hwin : window img s name.length = name := by
    rw [window, hl, List.take_left]
  rw [hwin]
  refine ⟨⟨?_, hname⟩, rfl⟩
  have hcons : name ++ 0 :: rest = (name ++ [0]) ++ rest := by simp
  rw [window, hl, hcons]
  exact List.take_left' (by simp)

theorem IsString.inj {name' : List UInt8} (h : IsString img s name) (h' : IsString img s name') : name = name' := by
  obtain ⟨hlen, hwin⟩ := h.strlen_eq
  obtain ⟨hlen', hwin'⟩ := h'.strlen_eq
  rw [hlen] at hlen'
  rw [← hwin, ← hwin', Option.some.inj hlen']

def readString (img : List UInt8) (s : Nat) (log : Reads) : Outcome ε Reads (List UInt8) :=
  match strlen (img.drop s) with
  | some k => .ok (window img s k) (log ++ [(s, k + 1)])
  | none => .stop .load

theorem readString_of_isString (h : IsString img s name) (log : Reads) :
    (readString img s log : Outcome ε Reads (List UInt8)) = .ok name (log ++ [(s, name.length + 1)]) := by
  obtain ⟨hlen, hwin⟩ := h.strlen_eq
  rw [readString, hlen]
  simp only [hwin]

theorem grows_readString (img : List UInt8) (s : Nat) (log : Reads) :
    Grows log (readString img s log : Outcome ε Reads (List UInt8)) := by
  unfold readString
  split
  · exact List.prefix_append _ _
  · trivial

/-- Look for the end of the string at `s`, in at most `k` bytes. -/
def skipString (img : List UInt8) : Nat → Nat → Reads → Outcome ε Reads Nat
  | 0, s, log => .ok s log
  | k + 1, s, log =>
    (readLogged img s 1 log).bind fun c log =>
      if c = [0] then .ok (s + 1) log else skipString img k (s + 1) log

theorem grows_skipString (img : List UInt8) (k : Nat) : ∀ (s : Nat) (log : Reads),
    Grows log (skipString img k s log : Outcome ε Reads Nat) := by
  induction k with
  | zero => exact fun s log => grows_ok s
  | succ k ih =>
    intro s log
    refine (grows_readLogged img s 1).bind fun c t => ?_
    split
    · exact grows_ok _
    · exact ih _ _

/-- The bounded loop finds the end of a string that ends within the bound. -/
theorem skipString_of_isString : ∀ (k s : Nat) {name : List UInt8} (log : Reads), IsString img s name → name.length < k →
    ∃ log', (skipString img k s log : Outcome ε Reads Nat) = .ok (s + name.length + 1) log' ∧
      ∀ lo hi, Inside lo hi log → lo ≤ s → s + name.length + 1 ≤ hi → Inside lo hi log' := by
  intro k
  induction k with
  | zero => exact fun _ _ _ _ h => absurd h (Nat.not_lt_zero _)
  | succ k ih =>
    intro s name log hstr hk
    have hle := hstr.le
    rw [skipString, readLogged_of_le log (by omega), bind_ok]
    have hone : ∀ lo hi, Inside lo hi log → lo ≤ s → s + name.length + 1 ≤ hi → Inside lo hi (log ++ [(s, 1)]) :=
      fun lo hi hlog hlo hhi => inside_append.mpr ⟨hlog, inside_singleton.mpr ⟨hlo, by omega⟩⟩
    have hfirst : window img s 1 = (name ++ [0]).take 1 := by
      rw [← hstr.1, window, window, List.take_take, Nat.min_eq_left (by omega)]
    cases name with
    | nil =>
      have hnul : window img s 1 = [0] := hfirst
      rw [if_pos hnul]
      exact ⟨_, rfl, hone⟩
    | cons c name =>
      have hc : window img s 1 = [c] := hfirst
      have hne : ¬ ([c] : List UInt8) = [0] := by
        intro h
        have hzero : c = 0 := by simpa using h
        exact hstr.2 (hzero ▸ List.mem_cons_self)
      have hrest : IsString img (s + 1) name := by
        refine ⟨?_, fun hmem => hstr.2 (List.mem_cons_of_mem _ hmem)⟩
        have hwin : window img s (1 + (name.length + 1)) = [c] ++ (name ++ [0]) := by
          rw [Nat.add_comm 1]
          exact hstr.1
        rw [← window_append_window, hc] at hwin
        exact List.append_cancel_left hwin
      obtain ⟨log', hrun, hin⟩ := ih (s + 1) (log ++ [(s, 1)]) hrest (by simpa using hk)
      rw [hc, if_neg hne]
      have hend : s + 1 + name.length + 1 = s + (c :: name).length + 1 := by
        rw [List.length_cons]
        omega
      rw [hend] at hrun
      refine ⟨log', hrun, fun lo hi hlog hlo hhi => hin lo hi (hone lo hi hlog hlo hhi) (by omega) (by omega)⟩

end Strings

end LibElf
