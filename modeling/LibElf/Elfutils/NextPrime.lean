import LibElf.Base.Word
import Mathlib.Data.Nat.Prime.Basic
import Mathlib.Order.Bounds.Basic

/-!
# The next prime

`next_prime.c`. A candidate is divided by the odd numbers from 3 on, and the square of the divisor is kept along. Both
are of type `size_t`.

1. `isPrime` and `nextPrime`.
2. `Tried`, the values of the divisor and of its square at the test of the loop, and `tried_sq`: the square is that of
   the divisor.
3. `isPrime_eq` and `nextPrimeLoop_eq`, what the two functions compute.
-/

namespace LibElf.Elfutils

/-- The loop of `is_prime`, for a number of rounds. -/
def isPrimeLoop (candidate : Nat) : Nat → Nat → Nat → Option Bool
  | 0, _, _ => none
  | rounds + 1, divn, sq =>
    if sq < candidate ∧ candidate % divn ≠ 0 then
      let sq' := wrap (sq + wrap (4 * wrap (divn + 1)))
      -- the square of the next divisor has more than 64 bits
      if sq' < sq then some true else isPrimeLoop candidate rounds (wrap (wrap (divn + 1) + 1)) sq'
    else some (decide (candidate % divn ≠ 0))

def isPrime (candidate : Nat) : Option Bool := isPrimeLoop candidate (2 ^ 32) 3 9

def nextPrimeLoop : Nat → Nat → Option Nat
  | 0, _ => none
  | rounds + 1, seed =>
    match isPrime seed with
    | none => none
    | some true => some seed
    | some false => nextPrimeLoop rounds (wrap (seed + 2))

def nextPrime (rounds seed : Nat) : Option Nat := nextPrimeLoop rounds (seed ||| 1)

/-! ## Trial division -/

/-- The values of `divn` and `sq` at the test of the loop. -/
inductive Tried (candidate : Nat) : Nat → Nat → Prop
  | start : Tried candidate 3 9
  | round {divn sq : Nat} : Tried candidate divn sq → sq < candidate → candidate % divn ≠ 0 →
      sq ≤ wrap (sq + wrap (4 * wrap (divn + 1))) →
      Tried candidate (wrap (wrap (divn + 1) + 1)) (wrap (sq + wrap (4 * wrap (divn + 1))))

/-- What holds at the test of the loop: no divisor was found, and there is a long way to the candidate. -/
structure Trying (candidate divn sq : Nat) : Prop where
  odd : divn % 2 = 1
  three : 3 ≤ divn
  sq : sq = divn * divn
  fits : divn * divn < 2 ^ 64
  lt : divn < candidate
  minFac : divn ≤ candidate.minFac

variable {candidate divn sq : Nat}

theorem odd_minFac (hodd : candidate % 2 = 1) : candidate.minFac % 2 = 1 := by
  rcases Nat.mod_two_eq_zero_or_one candidate.minFac with h | h
  · have h2 : 2 ∣ candidate := (Nat.dvd_of_mod_eq_zero h).trans (Nat.minFac_dvd candidate)
    omega
  · exact h

theorem trying_start (hodd : candidate % 2 = 1) (hbig : 11 ≤ candidate) : Trying candidate 3 9 := by
  refine ⟨rfl, Nat.le_refl 3, rfl, by decide, by omega, ?_⟩
  have htwo : 2 ≤ candidate.minFac := (Nat.minFac_prime (by omega)).two_le
  have := odd_minFac hodd
  omega

namespace Trying

theorem divn_lt (h : Trying candidate divn sq) : divn < 2 ^ 32 := by
  by_contra hge
  have := Nat.mul_le_mul (Nat.le_of_not_lt hge) (Nat.le_of_not_lt hge)
  have := h.fits
  omega

/-- The next square, in 64 bits. -/
theorem next_sq (h : Trying candidate divn sq) :
    wrap (sq + wrap (4 * wrap (divn + 1))) = wrap ((divn + 2) * (divn + 2)) := by
  have hlt := h.divn_lt
  have hsq : sq + 4 * (divn + 1) = (divn + 2) * (divn + 2) := by
    rw [h.sq]
    ring
  rw [wrap_of_lt (show divn + 1 < 2 ^ 64 by omega), wrap_of_lt (show 4 * (divn + 1) < 2 ^ 64 by omega), hsq]

theorem next_divn (h : Trying candidate divn sq) : wrap (wrap (divn + 1) + 1) = divn + 2 := by
  have hlt := h.divn_lt
  rw [wrap_of_lt (show divn + 1 < 2 ^ 64 by omega), wrap_of_lt (show divn + 1 + 1 < 2 ^ 64 by omega)]

/-- The next square wraps exactly where it drops. -/
theorem drops_iff (h : Trying candidate divn sq) :
    wrap (sq + wrap (4 * wrap (divn + 1))) < sq ↔ 2 ^ 64 ≤ (divn + 2) * (divn + 2) := by
  have hlt := h.divn_lt
  have hfits := h.fits
  have hsq : (divn + 2) * (divn + 2) = sq + 4 * (divn + 1) := by
    rw [h.sq]
    ring
  rw [h.next_sq, wrap]
  rw [← h.sq] at hfits
  omega

/-- A divisor that fails is smaller than the least factor. -/
theorem add_two_le_minFac (h : Trying candidate divn sq) (hodd : candidate % 2 = 1) (hmod : candidate % divn ≠ 0) :
    divn + 2 ≤ candidate.minFac := by
  have hne : candidate.minFac ≠ divn := by
    rintro rfl
    exact hmod (Nat.mod_eq_zero_of_dvd (Nat.minFac_dvd candidate))
  have hle := h.minFac
  have hd := h.odd
  have hm := odd_minFac hodd
  omega

theorem next (h : Trying candidate divn sq) (hodd : candidate % 2 = 1) (hlt : sq < candidate)
    (hmod : candidate % divn ≠ 0) (hfits : (divn + 2) * (divn + 2) < 2 ^ 64) :
    Trying candidate (divn + 2) ((divn + 2) * (divn + 2)) := by
  have hd := h.odd
  have h3 := h.three
  have hsq : divn * 3 ≤ sq := h.sq ▸ Nat.mul_le_mul_left divn h3
  exact ⟨by omega, by omega, rfl, hfits, by omega, h.add_two_le_minFac hodd hmod⟩

/-- Beyond the root there is no factor left to find. -/
theorem prime_of_lt (h : Trying candidate divn sq) {d : Nat} (hd : d ≤ candidate.minFac) (hlt : candidate < d * d) :
    candidate.Prime := by
  by_contra hnot
  have hsq := Nat.minFac_sq_le_self (Nat.zero_lt_of_lt h.lt) hnot
  rw [Nat.pow_two] at hsq
  have := Nat.mul_le_mul hd hd
  omega

/-- The answer at the end of the loop. -/
theorem prime_iff (h : Trying candidate divn sq) (hodd : candidate % 2 = 1)
    (hend : ¬ (sq < candidate ∧ candidate % divn ≠ 0)) : candidate % divn ≠ 0 ↔ candidate.Prime := by
  constructor
  · intro hmod
    have hle : candidate ≤ sq := Nat.le_of_not_lt fun hlt => hend ⟨hlt, hmod⟩
    have hnext := h.add_two_le_minFac hodd hmod
    have hfar : (divn + 1) * (divn + 1) = divn * divn + 2 * divn + 1 := by ring
    have hsq := h.sq
    exact h.prime_of_lt (d := divn + 1) (by omega) (by omega)
  · intro hprime hzero
    have h3 := h.three
    have hlt := h.lt
    rcases (Nat.dvd_prime hprime).mp (Nat.dvd_of_mod_eq_zero hzero) with hone | hself
    · omega
    · omega

end Trying

/-- At every test the square is that of the divisor. -/
theorem trying_of_tried (hodd : candidate % 2 = 1) (hbig : 11 ≤ candidate) (h : Tried candidate divn sq) :
    Trying candidate divn sq := by
  induction h with
  | start => exact trying_start hodd hbig
  | round _ hlt hmod hle ih =>
    have hfits := Nat.not_le.mp (mt ih.drops_iff.mpr (Nat.not_lt.mpr hle))
    rw [ih.next_divn, ih.next_sq, wrap_of_lt hfits]
    exact ih.next hodd hlt hmod hfits

/-- The divisor grows by 2 in a round and stays below `2 ^ 32`, so that the loop ends. -/
theorem isPrimeLoop_eq (hodd : candidate % 2 = 1) (hlt : candidate < 2 ^ 64) (rounds : Nat) : ∀ {divn sq : Nat},
    Trying candidate divn sq → 2 ^ 32 ≤ rounds + divn →
    isPrimeLoop candidate rounds divn sq = some (decide candidate.Prime) := by
  induction rounds with
  | zero =>
    intro divn sq h hrounds
    have := h.divn_lt
    omega
  | succ rounds ih =>
    intro divn sq h hrounds
    rw [isPrimeLoop]
    split
    · next hgo =>
      dsimp only
      split
      · next hdrop =>
        -- the root of the candidate is behind
        have hfar := h.drops_iff.mp hdrop
        have hprime := h.prime_of_lt (h.add_two_le_minFac hodd hgo.2) (by omega)
        rw [decide_eq_true hprime]
      · next hkeep =>
        have hfits := Nat.not_le.mp (mt h.drops_iff.mpr hkeep)
        rw [h.next_divn, h.next_sq, wrap_of_lt hfits]
        exact ih (h.next hodd hgo.1 hgo.2 hfits) (by omega)
    · next hend => exact congrArg some (decide_eq_decide.mpr (h.prime_iff hodd hend))

/-- The test is exact for the candidates it is made for. -/
theorem isPrime_eq (hodd : candidate % 2 = 1) (hbig : 11 ≤ candidate) (hlt : candidate < 2 ^ 64) :
    isPrime candidate = some (decide candidate.Prime) :=
  isPrimeLoop_eq hodd hlt _ (trying_start hodd hbig) (by omega)

/-! ## The search -/

theorem or_one (n : Nat) : n ||| 1 = if n % 2 = 0 then n + 1 else n := by
  have hbit : n ||| 1 = 2 * (n / 2) + 1 := by
    apply Nat.eq_of_testBit_eq
    intro i
    cases i with
    | zero => simp [Nat.testBit_zero]
    | succ i =>
      rw [Nat.testBit_or, Nat.testBit_succ, Nat.testBit_succ, Nat.testBit_succ]
      simp [show (2 * (n / 2) + 1) / 2 = n / 2 by omega]
  rw [hbit]
  split <;> omega

/-- The loop goes from candidate to candidate up to the first prime. -/
theorem nextPrimeLoop_eq {p : Nat} (hp : p.Prime) (hlt : p < 2 ^ 64) (rounds : Nat) : ∀ {seed : Nat}, seed % 2 = 1 →
    11 ≤ seed → seed ≤ p → (∀ q, q.Prime → seed ≤ q → p ≤ q) → p < seed + 2 * rounds →
    nextPrimeLoop rounds seed = some p := by
  induction rounds with
  | zero =>
    intro seed _ _ hle _ hrounds
    omega
  | succ rounds ih =>
    intro seed hodd hbig hle hleast hrounds
    rw [nextPrimeLoop, isPrime_eq hodd hbig (by omega)]
    by_cases hprime : seed.Prime
    · rw [decide_eq_true hprime]
      exact congrArg some (Nat.le_antisymm hle (hleast seed hprime (Nat.le_refl _)))
    · rw [decide_eq_false hprime]
      have hne : seed ≠ p := fun h => hprime (h ▸ hp)
      have hpodd : p % 2 = 1 := (hp.eq_two_or_odd).resolve_left (by omega)
      dsimp only
      rw [wrap_of_lt (by omega)]
      exact ih (by omega) (by omega) (by omega) (fun q hq hq' => hleast q hq (by omega)) (by omega)

/-- From 10 on the search for a prime ends at the first one, if that has 64 bits. -/
theorem nextPrime_eq {seed p : Nat} (hseed : 10 ≤ seed) (hp : IsLeast {q | q.Prime ∧ seed ≤ q} p) (hlt : p < 2 ^ 64)
    {rounds : Nat} (hrounds : p < seed + 2 * rounds) : nextPrime rounds seed = some p := by
  obtain ⟨⟨hprime, hle⟩, hleast⟩ := hp
  have hodd : ∀ q, q.Prime → seed ≤ q → q % 2 = 1 := fun q hq hq' => hq.eq_two_or_odd.resolve_left (by omega)
  have hpodd := hodd p hprime hle
  rw [nextPrime, or_one]
  split
  · exact nextPrimeLoop_eq hprime hlt rounds (by omega) (by omega) (by omega)
      (fun q hq hq' => hleast ⟨hq, by omega⟩) (by omega)
  · exact nextPrimeLoop_eq hprime hlt rounds (by omega) (by omega) hle
      (fun q hq hq' => hleast ⟨hq, hq'⟩) hrounds

/-- `next_prime` ends with the least prime from its argument on, if that has 64 bits. The test it uses is exact, and at
each comparison with the candidate the square is that of the divisor. -/
theorem nextPrime_least :
    (∀ seed p, 10 ≤ seed → IsLeast {q | q.Prime ∧ seed ≤ q} p → p < 2 ^ 64 →
      ∃ rounds₀, ∀ rounds, rounds₀ ≤ rounds → nextPrime rounds seed = some p) ∧
    ∀ candidate, candidate % 2 = 1 → 11 ≤ candidate → candidate < 2 ^ 64 →
      isPrime candidate = some (decide candidate.Prime) ∧
        ∀ divn sq, Tried candidate divn sq → sq = divn * divn := by
  refine ⟨fun seed p hseed hp hlt => ⟨p, fun rounds hrounds => ?_⟩, fun candidate hodd hbig hlt => ⟨?_, ?_⟩⟩
  · exact nextPrime_eq hseed hp hlt (by omega)
  · exact isPrime_eq hodd hbig hlt
  · exact fun divn sq h => (trying_of_tried hodd hbig h).sq

/-- The first prime from 10 on, and the square of a prime. -/
theorem nextPrime_least_ten : (∃ rounds₀, ∀ rounds, rounds₀ ≤ rounds → nextPrime rounds 10 = some 11) ∧
    isPrime 121 = some (decide (Nat.Prime 121)) := by
  refine ⟨nextPrime_least.1 10 11 (Nat.le_refl _) ⟨⟨by decide, by decide⟩, ?_⟩ (by decide),
    (nextPrime_least.2 121 rfl (by decide) (by decide)).1⟩
  rintro q ⟨hq, hle⟩
  rcases Nat.lt_or_ge q 11 with hlt | hge
  · obtain rfl : q = 10 := by omega
    exact absurd hq (by decide)
  · exact hge

end LibElf.Elfutils
