import FpgaLabs.Lab7.HalfDay
import Mathlib.Logic.Function.Iterate

/-! The clock divider of lab 7, `Better Circuit/clk_div.vhd`, and the clock it
drives. The count is compared before it is incremented, so the divided clock
toggles once in 25,000,001 edges. -/

namespace FpgaLabs.Lab7
open Sync

structure ClkDiv where
  count : Nat
  clkOut : Bool

/-- `clk_out` has no declared initial value and is taken low. -/
def ClkDiv.powerUp : ClkDiv := ⟨0, false⟩

/-- A rising edge of `clk_in`. The test reads the old count, and the last
assignment to it wins. -/
def ClkDiv.edge (d : ClkDiv) : ClkDiv :=
  if d.count = 25000000 then ⟨0, !d.clkOut⟩ else { d with count := d.count + 1 }

/-- The entity `clock`: the divider, and the digits on its rising edges. -/
structure DividedClock where
  div : ClkDiv
  time : Clock

def DividedClock.powerUp : DividedClock := ⟨ClkDiv.powerUp, Clock.powerUp⟩

/-- A rising edge of `clk_in_50`. -/
def DividedClock.edge (s : DividedClock) (k : Keys) : DividedClock where
  div := s.div.edge
  time := if s.div.clkOut = false ∧ s.div.edge.clkOut = true then tick s.time k else s.time

/-- The divider, and the clock without buttons, after `n` edges. -/
def divAfter (n : Nat) : ClkDiv := ClkDiv.edge^[n] ClkDiv.powerUp

def clockAfter (n : Nat) : DividedClock :=
  run DividedClock.edge DividedClock.powerUp (List.replicate n released)

/-! ## Phase and level -/

theorem divAfter_succ (n : Nat) : divAfter (n + 1) = (divAfter n).edge :=
  Function.iterate_succ_apply' _ _ _

theorem clockAfter_succ (n : Nat) : clockAfter (n + 1) = (clockAfter n).edge released := by
  simp [clockAfter, List.replicate_succ']

theorem divAfter_count (n : Nat) : (divAfter n).count = n % 25000001 := by
  induction n with
  | zero => rfl
  | succ n ih =>
    rw [divAfter_succ, ClkDiv.edge, ih]
    split
    · show 0 = _
      omega
    · show n % 25000001 + 1 = _
      omega

/-- The edge number `n` toggles `clk_out`. -/
def Toggles (n : Nat) : Prop := (divAfter (n + 1)).clkOut ≠ (divAfter n).clkOut

theorem clkOut_succ (n : Nat) : (divAfter (n + 1)).clkOut =
    if n % 25000001 = 25000000 then !(divAfter n).clkOut else (divAfter n).clkOut := by
  rw [divAfter_succ, ClkDiv.edge, divAfter_count]
  split <;> rfl

theorem toggles_iff (n : Nat) : Toggles n ↔ n % 25000001 = 25000000 := by
  unfold Toggles
  rw [clkOut_succ]
  split
  · next h => simp [h]
  · next h => simp [h]

theorem clkOut_iff (n : Nat) : (divAfter n).clkOut = true ↔ n / 25000001 % 2 = 1 := by
  have hlevel : (divAfter n).clkOut = false ↔ n / 25000001 % 2 = 0 := by
    refine level_after (c := 0) (f := fun n => (divAfter n).clkOut) (by decide) (fun n => ?_) n
    have hphase : n % 25000001 = 25000000 ↔ (n + 1 + 0) % 25000001 = 0 := by omega
    show (divAfter (n + 1)).clkOut = _
    simp only [clkOut_succ, hphase]
  rw [← Bool.not_eq_false, hlevel]
  omega

/-- `clk_out` rises at the first toggle and at every second one after it. -/
theorem rises_iff (n : Nat) : (divAfter n).clkOut = false ∧ (divAfter (n + 1)).clkOut = true ↔
    n % 50000002 = 25000000 := by
  rw [← Bool.not_eq_true, clkOut_iff, clkOut_iff]
  omega

/-! ## The clock -/

theorem clockAfter_div (n : Nat) : (clockAfter n).div = divAfter n := by
  induction n with
  | zero => rfl
  | succ n ih =>
    rw [clockAfter_succ, divAfter_succ, ← ih]
    rfl

theorem clockAfter_time (n : Nat) :
    (clockAfter n).time = after ((n + 25000001) / 50000002) := by
  induction n with
  | zero => rfl
  | succ n ih =>
    have hrise := rises_iff n
    rw [divAfter_succ] at hrise
    rw [clockAfter_succ, DividedClock.edge, clockAfter_div, ih]
    show (if _ then _ else _) = _
    simp only [hrise]
    split
    · have hone : (n + 1 + 25000001) / 50000002 = (n + 25000001) / 50000002 + 1 := by omega
      rw [hone, after_succ]
    · have hsame : (n + 1 + 25000001) / 50000002 = (n + 25000001) / 50000002 := by omega
      rw [hsame]

theorem clockAfter_dial (n : Nat) :
    dial (clockAfter n).time = (n + 25000001) / 50000002 % 43200 := by
  rw [clockAfter_time, dial_after]

/-! ## The period -/

/-- Two toggles with none between. -/
structure Consecutive (i j : Nat) : Prop where
  lt : i < j
  first : Toggles i
  second : Toggles j
  between : ∀ m, i < m → m < j → ¬ Toggles m

theorem consecutive_apart {i j : Nat} (h : Consecutive i j) : j = i + 25000001 := by
  obtain ⟨hlt, hi, hj, hno⟩ := h
  rw [toggles_iff] at hi hj
  by_contra hne
  refine hno (i + 25000001) (by omega) (by omega) ?_
  rw [toggles_iff]
  omega

theorem first_consecutive : Consecutive 25000000 50000001 := by
  refine ⟨by decide, (toggles_iff _).mpr (by decide), (toggles_iff _).mpr (by decide), ?_⟩
  intro m hm hlt
  rw [toggles_iff]
  omega

/-- In the first `n` edges consecutive toggles are 25,000,000 edges apart. -/
def EvenlySpaced (n : Nat) : Prop := ∀ i j, j < n → Consecutive i j → j = i + 25000000

/-- The clock advances by one second in the 50,000,000 edges after the first `n`. -/
def OneSecond (n : Nat) : Prop :=
  dial (clockAfter (n + 50000000)).time = (dial (clockAfter n).time + 1) % 43200

/-- The whole run of `n` edges is exact. -/
def ExactRun (n : Nat) : Prop := EvenlySpaced n ∧ ∀ m, m + 50000000 ≤ n → OneSecond m

theorem evenlySpaced_iff (n : Nat) : EvenlySpaced n ↔ n < 50000002 := by
  constructor
  · intro h
    by_contra hn
    exact absurd (h _ _ (by omega) first_consecutive) (by decide)
  · intro hn i j hj hij
    have hapart := consecutive_apart hij
    have hi := (toggles_iff i).mp hij.first
    omega

theorem oneSecond_iff (n : Nat) : OneSecond n ↔ 2 ≤ (n + 25000001) % 50000002 := by
  unfold OneSecond
  rw [clockAfter_dial, clockAfter_dial]
  omega

/-- The second toggle comes one edge late. -/
theorem secondToggle_late : ¬ ExactRun 50000002 := by
  intro h
  exact absurd ((evenlySpaced_iff _).mp h.1) (by decide)

/-- **The divider.** Consecutive toggles are always 25,000,001 edges apart, so a
run is exact while it has fewer than two; and 50,000,000 edges make one second
unless they begin with the first or the second edge after a rise of `clk_out`. -/
theorem exactRun_iff (n : Nat) :
    (ExactRun n ↔ n < 50000002) ∧
    (OneSecond n ↔ 2 ≤ (n + 25000001) % 50000002) ∧
    ∀ j, Consecutive n j → j = n + 25000001 := by
  refine ⟨⟨fun h => (evenlySpaced_iff n).mp h.1, fun hn => ?_⟩, oneSecond_iff n, fun j h => ?_⟩
  · refine ⟨(evenlySpaced_iff n).mpr hn, fun m hm => ?_⟩
    rw [oneSecond_iff]
    omega
  · exact consecutive_apart h

end FpgaLabs.Lab7
