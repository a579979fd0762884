import FpgaLabs.Sync.Counter

/-! The 24-hour clock of lab 6, entity `lab5`: a prescaler for 100 MHz and a
time counter on the rising edges of the divided clock. -/

namespace FpgaLabs.Lab6
open Sync

structure Lab5 where
  count : Nat
  clk : Bool
  sec : Nat
  min : Nat
  hour : Nat

/-- The declared initial values. -/
def Lab5.powerUp : Lab5 := ⟨1, false, 0, 0, 0⟩

/-- The process on `clk`, at a rising edge. All conditions read the old values,
and the last assignment to a signal wins. -/
def timeCounter (s : Lab5) : Lab5 :=
  if s.sec = 59 then
    if s.min = 59 then
      { s with sec := 0, min := 0, hour := if s.hour = 23 then 0 else s.hour + 1 }
    else { s with sec := 0, min := s.min + 1 }
  else { s with sec := s.sec + 1 }

/-- A rising edge of `clk1`, and of `clk` where the prescaler raises it. -/
def edge (s : Lab5) : Lab5 :=
  if s.count = 50000000 then
    let s' := { s with count := 1, clk := !s.clk }
    if s.clk then s' else timeCounter s'
  else { s with count := s.count + 1 }

/-- `conv_std_logic_vector`. -/
def seconds (s : Lab5) : BitVec 6 := BitVec.ofNat 6 s.sec
def minutes (s : Lab5) : BitVec 6 := BitVec.ofNat 6 s.min
def hours (s : Lab5) : BitVec 5 := BitVec.ofNat 5 s.hour

/-- After `n` rising edges of `clk1`. -/
def after (n : Nat) : Lab5 := edge^[n] Lab5.powerUp

/-! ## The time counter -/

structure Valid (s : Lab5) : Prop where
  hour : s.hour ≤ 23
  min : s.min ≤ 59
  sec : s.sec ≤ 59

def daySecond (s : Lab5) : Nat := 3600 * s.hour + 60 * s.min + s.sec

/-- The day second is a cascade of counters modulo 60, 60 and 24. -/
theorem daySecond_eq (s : Lab5) : daySecond s = s.sec + 60 * (s.min + 60 * s.hour) := by
  unfold daySecond
  omega

@[simp] theorem timeCounter_count (s : Lab5) : (timeCounter s).count = s.count := by
  unfold timeCounter
  split
  · split <;> rfl
  · rfl

@[simp] theorem timeCounter_clk (s : Lab5) : (timeCounter s).clk = s.clk := by
  unfold timeCounter
  split
  · split <;> rfl
  · rfl

theorem timeCounter_valid {s : Lab5} (h : Valid s) : Valid (timeCounter s) := by
  obtain ⟨hh, hm, hs⟩ := h
  unfold timeCounter
  split
  · split
    · refine ⟨?_, Nat.zero_le _, Nat.zero_le _⟩
      show (if s.hour = 23 then 0 else s.hour + 1) ≤ 23
      split <;> omega
    · exact ⟨hh, by show s.min + 1 ≤ 59; omega, Nat.zero_le _⟩
  · exact ⟨hh, hm, by show s.sec + 1 ≤ 59; omega⟩

theorem timeCounter_daySecond {s : Lab5} (h : Valid s) :
    daySecond (timeCounter s) = next 86400 (daySecond s) := by
  obtain ⟨hh, hm, hs⟩ := h
  have hinner := cascade_next (n := 60) (m := 24) (Nat.lt_succ_of_le hm) (Nat.lt_succ_of_le hh)
  have houter := cascade_next (n := 60) (m := 1440) (Nat.lt_succ_of_le hs)
    (cascade_lt (m := 24) (Nat.lt_succ_of_le hm) (Nat.lt_succ_of_le hh))
  rw [daySecond_eq, daySecond_eq, ← houter, ← hinner]
  unfold timeCounter next
  by_cases hs59 : s.sec = 59
  · by_cases hm59 : s.min = 59
    · simp [hs59, hm59]
    · simp [hs59, hm59]
  · simp [hs59]

/-! ## Any number of edges -/

theorem after_succ (n : Nat) : after (n + 1) = edge (after n) :=
  Function.iterate_succ_apply' _ _ _

/-- Prescaler phase, level of `clk` and time, joined. -/
structure After (n : Nat) (s : Lab5) : Prop where
  count : s.count = 1 + n % 50000000
  clk : s.clk = true ↔ n / 50000000 % 2 = 1
  time : daySecond s = (n + 50000000) / 100000000 % 86400
  valid : Valid s

theorem edge_after {n : Nat} {s : Lab5} (h : After n s) : After (n + 1) (edge s) := by
  obtain ⟨hc, hk, ht, hv⟩ := h
  unfold edge
  split
  · next hmax =>
    cases hclk : s.clk with
    | true =>
      have hodd : n / 50000000 % 2 = 1 := hk.mp hclk
      refine ⟨?_, ?_, ?_, ⟨hv.hour, hv.min, hv.sec⟩⟩
      · show 1 = _
        omega
      · show (!true) = true ↔ _
        simp only [Bool.not_true, Bool.false_eq_true, false_iff]
        omega
      · show daySecond s = _
        omega
    | false =>
      -- the divided clock rises: one second more
      have heven : ¬ n / 50000000 % 2 = 1 := fun h => by simp [hk.mpr h] at hclk
      have hv' : Valid { s with count := 1, clk := !false } := ⟨hv.hour, hv.min, hv.sec⟩
      have hday := timeCounter_daySecond hv'
      have hsec : (n + 1 + 50000000) / 100000000 = (n + 50000000) / 100000000 + 1 := by omega
      refine ⟨?_, ?_, ?_, timeCounter_valid hv'⟩
      · rw [if_neg Bool.false_ne_true, timeCounter_count]
        show 1 = _
        omega
      · rw [if_neg Bool.false_ne_true, timeCounter_clk]
        show (!false) = true ↔ _
        simp only [Bool.not_false, true_iff]
        omega
      · rw [if_neg Bool.false_ne_true, hday, hsec, ← next_mod (by decide), ← ht]
        rfl
  · refine ⟨?_, ?_, ?_, ⟨hv.hour, hv.min, hv.sec⟩⟩
    · show s.count + 1 = _
      omega
    · show s.clk = true ↔ _
      rw [hk]
      omega
    · show daySecond s = _
      omega

theorem after_after (n : Nat) : After n (after n) := by
  induction n with
  | zero => exact ⟨rfl, by decide, rfl, by decide, by decide, by decide⟩
  | succ n ih =>
    rw [after_succ]
    exact edge_after ih

/-- **The clock of lab 6.** After `n` rising edges of the 100 MHz input. -/
theorem clock_exact (n : Nat) :
    (after n).hour ≤ 23 ∧ (after n).min ≤ 59 ∧ (after n).sec ≤ 59 ∧
    3600 * (after n).hour + 60 * (after n).min + (after n).sec =
      (n + 50000000) / 100000000 % 86400 ∧
    1 ≤ (after n).count ∧ (after n).count ≤ 50000000 ∧
    (seconds (after n)).toNat = (after n).sec ∧ (minutes (after n)).toNat = (after n).min ∧
    (hours (after n)).toNat = (after n).hour := by
  obtain ⟨hc, -, ht, hh, hm, hs⟩ : After n (after n) := after_after n
  refine ⟨hh, hm, hs, ht, ?_, ?_, ?_, ?_, ?_⟩
  · omega
  · omega
  · simp only [seconds, BitVec.toNat_ofNat]
    omega
  · simp only [minutes, BitVec.toNat_ofNat]
    omega
  · simp only [hours, BitVec.toNat_ofNat]
    omega

end FpgaLabs.Lab6
