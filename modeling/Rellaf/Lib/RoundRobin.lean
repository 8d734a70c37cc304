/-
Turns by a counter that wraps around.

The counter runs through `0, …, N - 1` and begins again, and a turn goes to the counter
modulo `n`. Where `n` does not divide `N`, a round is broken off each time the counter
begins again, so that those at its front get one turn more. Two of the `n` are therefore
apart by one turn, and by one for each beginning (`count_turns_le`). Who takes only some
of the turns is apart by as many more as were left out (`count_le_of_sublist`).
-/
import Mathlib.Tactic

set_option autoImplicit false

namespace RoundRobin

/-- The next `m` turns of a counter that is at `c`. -/
def turns (N n : ℕ) : ℕ → ℕ → List ℕ
  | _, 0 => []
  | c, m + 1 => (c + 1) % N % n :: turns N n ((c + 1) % N) m

variable {N n : ℕ}

theorem turns_length (c m : ℕ) : (turns N n c m).length = m := by
  induction m generalizing c with
  | zero => rfl
  | succ m ih => rw [turns, List.length_cons, ih]

/-- For `w < v`: in the round that `c` breaks off, `w` has had a turn, and `v` has not. -/
def lead (n w v c : ℕ) : ℤ := if w < c % n ∧ c % n ≤ v then 1 else 0

theorem lead_nonneg (w v c : ℕ) : 0 ≤ lead n w v c := by
  unfold lead
  split <;> omega

theorem lead_le_one (w v c : ℕ) : lead n w v c ≤ 1 := by
  unfold lead
  split <;> omega

/-- A turn of the one or of the other changes the lead. -/
theorem lead_succ {w v : ℕ} (hwv : w < v) (hv : v < n) (c : ℕ) :
    lead n w v (c + 1) = lead n w v c + (if c % n = w then 1 else 0) -
      (if c % n = v then 1 else 0) := by
  have hlt : c % n < n := Nat.mod_lt c (by omega)
  have hsucc : (c + 1) % n = if c % n + 1 = n then 0 else c % n + 1 := by
    rw [Nat.add_mod, Nat.mod_eq_of_lt (show 1 < n by omega)]
    split
    next hround => rw [hround, Nat.mod_self]
    next => exact Nat.mod_eq_of_lt (by omega)
  unfold lead
  rw [hsucc]
  generalize c % n = x at hlt
  split <;> split <;> split <;> split <;> split <;> omega

theorem count_cons_int (x w : ℕ) (l : List ℕ) :
    ((x :: l).count w : ℤ) = l.count w + if x = w then 1 else 0 := by
  rw [List.count_cons]
  by_cases h : x = w <;> simp [h]

/-- How far one is ahead of another: by the round at the end, less the one at the start, and
by one broken round for each time the counter has begun again. -/
theorem count_turns_sub {w v : ℕ} (hwv : w < v) (hv : v < n) (m : ℕ) :
    ∀ {c : ℕ}, c < N →
      ((turns N n c m).count w : ℤ) - (turns N n c m).count v =
        lead n w v ((c + m) % N + 1) - lead n w v (c + 1) +
          ((c + m) / N : ℕ) * lead n w v N := by
  induction m with
  | zero =>
    intro c hc
    simp [turns, Nat.mod_eq_of_lt hc, Nat.div_eq_of_lt hc]
  | succ m ih =>
    intro c hc
    rw [turns, count_cons_int, count_cons_int]
    by_cases hwrap : c + 1 = N
    · -- the counter begins again, and the round before is broken off at `N`
      have hstep := lead_succ hwv hv 0
      have hzero : lead n w v 0 = 0 := if_neg (by rw [Nat.zero_mod]; omega)
      have hdiv : (c + (m + 1)) / N = m / N + 1 := by
        rw [show c + (m + 1) = m + N by omega, Nat.add_div_right m (by omega)]
      have hmod : (c + (m + 1)) % N = m % N := by
        rw [show c + (m + 1) = m + N by omega, Nat.add_mod_right]
      have hrest := ih (c := 0) (by omega)
      rw [Nat.zero_add, Nat.zero_add] at hrest
      rw [Nat.zero_add, hzero] at hstep
      rw [hdiv, hmod, hwrap, Nat.mod_self, Nat.cast_add_one, add_one_mul]
      linarith
    · have hsucc : (c + 1) % N = c + 1 := Nat.mod_eq_of_lt (by omega)
      have hstep := lead_succ hwv hv (c + 1)
      have hrest := ih (c := c + 1) (by omega)
      rw [hsucc, show c + (m + 1) = c + 1 + m by omega]
      linarith

/-- Two of the `n` are apart by a turn, and by one for each time the counter begins again. -/
theorem count_turns_le {c : ℕ} (hc : c < N) (m : ℕ) {w v : ℕ} (hw : w < n) (hv : v < n) :
    (turns N n c m).count w ≤ (turns N n c m).count v + 1 + (c + m) / N := by
  have hwraps : (0 : ℤ) ≤ ((c + m) / N : ℕ) := Int.natCast_nonneg _
  rcases Nat.lt_trichotomy w v with hwv | rfl | hvw
  · have hsub := count_turns_sub hwv hv m hc
    have hround : ((c + m) / N : ℕ) * lead n w v N ≤ ((c + m) / N : ℕ) :=
      mul_le_of_le_one_right hwraps (lead_le_one w v N)
    have hend := lead_le_one (n := n) w v ((c + m) % N + 1)
    have hstart := lead_nonneg (n := n) w v (c + 1)
    omega
  · omega
  · have hsub := count_turns_sub hvw hw m hc
    have hround : (0 : ℤ) ≤ ((c + m) / N : ℕ) * lead n v w N :=
      mul_nonneg hwraps (lead_nonneg v w N)
    have hend := lead_nonneg (n := n) v w ((c + m) % N + 1)
    have hstart := lead_le_one (n := n) v w (c + 1)
    omega

/-- The same where some of the turns are left out. -/
theorem count_le_of_sublist {c : ℕ} (hc : c < N) {m : ℕ} {taken : List ℕ}
    (h : taken.Sublist (turns N n c m)) {w v : ℕ} (hw : w < n) (hv : v < n) :
    taken.count w ≤ taken.count v + 1 + (m - taken.length) + (c + m) / N := by
  have hall := count_turns_le hc m hw hv
  have hcount_w : taken.count w ≤ (turns N n c m).count w := h.count_le w
  have hcount_v : (turns N n c m).count v - ((turns N n c m).length - taken.length) ≤
      taken.count v := h.le_count v
  rw [turns_length] at hcount_v
  omega

end RoundRobin
