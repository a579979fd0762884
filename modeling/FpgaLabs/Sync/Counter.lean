import Mathlib.Logic.Function.Iterate

/-! Modulo counters and their cascades: a digit that wraps steps the next one,
and the two together are one counter modulo the product. A level inverted at
every wrap has the parity of the quotient. -/

namespace FpgaLabs.Sync

/-- One step of a counter modulo `n`. -/
def next (n x : Nat) : Nat := if x + 1 = n then 0 else x + 1

theorem next_lt {n x : Nat} (h : x < n) : next n x < n := by
  unfold next
  split <;> omega

theorem next_mod {n : Nat} (hn : 0 < n) (x : Nat) : next n (x % n) = (x + 1) % n := by
  have hx := Nat.mod_lt x hn
  have hs : (x + 1) % n = (x % n + 1) % n := (Nat.mod_add_mod x n 1).symm
  unfold next
  split
  · next h => rw [hs, h, Nat.mod_self]
  · have hlt : x % n + 1 < n := by omega
    rw [hs, Nat.mod_eq_of_lt hlt]

/-- A level that is inverted at the end of each period, entered at phase `c`. -/
theorem level_after {T c : Nat} (hc : c < T) {f : Nat → Bool}
    (h : ∀ n, f (n + 1) = if (n + 1 + c) % T = 0 then !f n else f n) (n : Nat) :
    f n = f 0 ↔ (n + c) / T % 2 = 0 := by
  induction n with
  | zero => simp [Nat.div_eq_of_lt hc]
  | succ n ih =>
    have hphase : n + 1 + c = n + c + 1 := by omega
    rw [h, hphase]
    by_cases hwrap : (n + c + 1) % T = 0
    · have hnot : (!f n) = f 0 ↔ ¬ f n = f 0 := by
        cases f n <;> cases f 0 <;> decide
      rw [if_pos hwrap, hnot, ih, Nat.succ_div_of_mod_eq_zero hwrap]
      omega
    · rw [if_neg hwrap, ih, Nat.succ_div_of_mod_ne_zero hwrap]

/-- A cascade of two digits below the radices `n` and `m`. -/
theorem cascade_next {n m lo hi : Nat} (hlo : lo < n) (hhi : hi < m) :
    next n lo + n * (if lo + 1 = n then next m hi else hi) = next (n * m) (lo + n * hi) := by
  by_cases h : lo + 1 = n
  · by_cases h' : hi + 1 = m
    · have hw : lo + n * hi + 1 = n * m := by
        rw [← h', Nat.mul_succ]
        omega
      simp [next, h, h', hw]
    · have hw : lo + n * hi + 1 ≠ n * m := by
        have hm : n * (hi + 2) ≤ n * m := Nat.mul_le_mul_left n (by omega)
        rw [Nat.mul_add] at hm
        omega
      simp only [next, h, h', hw, ↓reduceIte, Nat.mul_succ]
      omega
  · have hw : lo + n * hi + 1 ≠ n * m := by
      have hm : n * (hi + 1) ≤ n * m := Nat.mul_le_mul_left n hhi
      rw [Nat.mul_succ] at hm
      omega
    simp only [next, h, hw, ↓reduceIte]
    omega

theorem cascade_lt {n m lo hi : Nat} (hlo : lo < n) (hhi : hi < m) : lo + n * hi < n * m := by
  have hm : n * (hi + 1) ≤ n * m := Nat.mul_le_mul_left n hhi
  rw [Nat.mul_succ] at hm
  omega

end FpgaLabs.Sync
