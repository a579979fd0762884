import FpgaLabs.Lab7.HalfDay

/-! The set buttons of lab 7 at a tick that carries. The carry and the button
both schedule the old digits plus one, and one of the two steps is lost. -/

namespace FpgaLabs.Lab7
open Sync

/-- The carry into the minutes and the button `min_add` count one each. -/
def MinuteCounts (s : Clock) (k : Keys) : Prop :=
  minutes (tick s k) =
    (minutes s + (if seconds s = 59 then 1 else 0) + (if k.minAdd = false then 1 else 0)) % 60

/-- The same of the hours, on the dial. -/
def HourCounts (s : Clock) (k : Keys) : Prop :=
  hour (tick s k) % 12 =
    (hour s + (if seconds s = 59 ∧ minutes s = 59 then 1 else 0) +
      (if k.hrAdd = false then 1 else 0)) % 12

theorem add_two_mod_ne {n : Nat} (hn : 2 ≤ n) (x : Nat) : (x + 1) % n ≠ (x + 2) % n := by
  rw [← next_mod (by omega) (x + 1), next]
  split <;> omega

/-- A counter modulo `n` that steps once where the carry `c` or the button `b`
asks for a step: right unless both do. -/
theorem step_counts_iff {n old new : Nat} {c b : Prop} [Decidable c] [Decidable b] (hn : 2 ≤ n)
    (hnew : new = if c ∨ b then (old + 1) % n else old % n) :
    new = (old + (if c then 1 else 0) + (if b then 1 else 0)) % n ↔ ¬ (c ∧ b) := by
  have hne := add_two_mod_ne hn old
  by_cases hc : c
  · by_cases hb : b
    · simpa [hnew, hc, hb] using hne
    · simp [hnew, hc, hb]
  · by_cases hb : b
    · simp [hnew, hc, hb]
    · simp [hnew, hc, hb]

theorem minuteCounts_iff {s : Clock} (h : Valid s) (k : Keys) :
    MinuteCounts s k ↔ ¬ (seconds s = 59 ∧ k.minAdd = false) := by
  have hold : minutes s % 60 = minutes s := Nat.mod_eq_of_lt (minutes_lt h)
  have hnext : next 60 (minutes s) = (minutes s + 1) % 60 := by
    rw [← next_mod (by decide), hold]
  refine step_counts_iff (by decide) ?_
  rw [tick_minutes h, hnext, hold]

theorem hourCounts_iff {s : Clock} (h : Valid s) (k : Keys) :
    HourCounts s k ↔ ¬ ((seconds s = 59 ∧ minutes s = 59) ∧ k.hrAdd = false) := by
  have hle := h.hour_le
  have hnext : nextHour (hour s) % 12 = (hour s + 1) % 12 := by
    unfold nextHour
    split <;> omega
  refine step_counts_iff (by decide) ?_
  rw [tick_hour h, apply_ite (· % 12), hnext]

theorem seconds_after (n : Nat) : seconds (after n) = n % 60 := by
  have hlt := seconds_lt (after_valid n)
  have hdial := dial_after n
  unfold dial at hdial
  omega

/-- `min_add` held at the tick that carries into the minutes: 12:00:59 becomes
12:01:00. -/
theorem minuteCarry_lost :
    ¬ MinuteCounts (run tick Clock.powerUp (List.replicate 59 released)) ⟨true, false, true⟩ := by
  intro h
  exact (minuteCounts_iff (after_valid 59) _).mp h ⟨seconds_after 59, rfl⟩

/-- **Set buttons.** At any tick after any run: carries and pressed buttons count
one each, in the minutes and in the hours, exactly when no button is pressed at
the carry into its digits. -/
theorem buttons_count_iff (ks : List Keys) (k : Keys) :
    MinuteCounts (run tick Clock.powerUp ks) k ∧ HourCounts (run tick Clock.powerUp ks) k ↔
      ¬ (seconds (run tick Clock.powerUp ks) = 59 ∧ k.minAdd = false) ∧
      ¬ ((seconds (run tick Clock.powerUp ks) = 59 ∧ minutes (run tick Clock.powerUp ks) = 59) ∧
        k.hrAdd = false) := by
  rw [minuteCounts_iff (run_valid ks), hourCounts_iff (run_valid ks)]

end FpgaLabs.Lab7
