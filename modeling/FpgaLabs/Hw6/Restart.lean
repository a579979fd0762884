import FpgaLabs.Hw6.Filter

/-! A reset of `hw6`. It takes the machine back to state A but leaves `count`
as it is, and the threshold of A is compared by equality. -/

namespace FpgaLabs.Hw6
open Sync

section
variable (time1 time2 : Nat)

/-- `rst` raised in s, clock edges while it is high, and its release. -/
def afterReset (s : Signals) (held : List Bool) : Signals :=
  run (step time1 time2) s (.reset true :: held.map .clock ++ [.reset false])

/-- The value given to `count` at an edge is in its range `0 TO time2`. -/
def InRange (s : Signals) : Event → Prop
  | .clock x => s.rst = false → x = s.input1 → s.count + 1 ≤ time2
  | .reset _ => True

/-- The signals of the power-up but for the counter. -/
def leftover (count : Nat) : Signals := { powerUp time1 time2 with count := count }

variable {time1 time2}

theorem afterReset_eq (s : Signals) (held : List Bool) :
    afterReset time1 time2 s held = leftover time1 time2 s.count := by
  have hheld : run (step time1 time2) (step time1 time2 s (.reset true)) (held.map .clock) =
      step time1 time2 s (.reset true) := by
    induction held with
    | nil => rfl
    | cons x held ih => exact ih
  show run (step time1 time2) (step time1 time2 s (.reset true))
    (held.map .clock ++ [.reset false]) = _
  rw [run_append, hheld]
  rfl

/-! ## A count left behind -/

/-- In A the threshold 1 is passed over: samples 1 are counted for ever. -/
theorem leftover_stuck (count n : Nat) :
    run (step time1 time2) (leftover time1 time2 (count + 1)) (List.replicate n (.clock true)) =
      leftover time1 time2 (count + 1 + n) := by
  induction n generalizing count with
  | zero => rfl
  | succ n ih =>
    have hstep : step time1 time2 (leftover time1 time2 (count + 1)) (.clock true) =
        leftover time1 time2 (count + 1 + 1) := by
      simp [step, lower, leftover, powerUp, upper]
    rw [List.replicate_succ, run_cons, hstep, ih]
    congr 1
    omega

/-- Without a reset the machine would have y high by then. -/
theorem leftover_differs (h1 : 1 ≤ time1) (h2 : 2 ≤ time2) (count : Nat) :
    let xs := List.replicate (time1 + 1) true
    (run (step time1 time2) (leftover time1 time2 (count + 1)) (xs.map .clock)).y ≠
      (run (step time1 time2) (powerUp time1 time2) (xs.map .clock)).y := by
  have hhigh : (run (step time1 time2) (powerUp time1 time2)
      (List.replicate (time1 + 1) (.clock true))).y = true :=
    run_remaining h1 h2 powerUp_settled rfl powerUp_below (remaining_le true _)
  simp only [List.map_replicate]
  rw [leftover_stuck, hhigh]
  simp [leftover, powerUp, upper]

theorem leftover_overflows (count : Nat) :
    ¬ EachStep (step time1 time2) (InRange time2) (leftover time1 time2 (count + 1))
      ((List.replicate (time2 + 1) true).map .clock) := by
  intro h
  rw [List.map_replicate, List.replicate_succ', eachStep_append, leftover_stuck] at h
  have hlast : count + 1 + time2 + 1 ≤ time2 := h.2.1 rfl rfl
  omega

/-! ## No count left behind -/

theorem threshold_le (h1 : 1 ≤ time1) (h2 : max 2 time1 ≤ time2) (p : State) :
    threshold time1 time2 p ≤ time2 := by
  cases p <;> simp only [threshold] <;> omega

/-- Resets that meet the counter at 0 keep it below the threshold. -/
theorem step_inRange (h1 : 1 ≤ time1) (h2 : max 2 time1 ≤ time2) (s : Signals) (e : Event)
    (h : Settled time1 time2 s ∧ Below time1 time2 s) (he : e = .reset true → s.count = 0) :
    InRange time2 s e ∧
      Settled time1 time2 (step time1 time2 s e) ∧ Below time1 time2 (step time1 time2 s e) := by
  obtain ⟨hset, hb⟩ := h
  refine ⟨?_, step_settled s e hset, ?_⟩
  · cases e with
    | clock x =>
      intro _ _
      exact Nat.le_trans hb (threshold_le h1 h2 s.prState)
    | reset level => trivial
  · cases e with
    | clock x => exact clock_below h1 (by omega) hset hb x
    | reset level =>
      cases level with
      | false =>
        show (upper time1 time2 { s with rst := false }).count < threshold time1 time2
          (upper time1 time2 { s with rst := false }).prState
        rw [upper_count, upper_prState]
        exact hb
      | true =>
        show s.count < 1
        rw [he rfl]
        exact Nat.zero_lt_one

theorem run_inRange (h1 : 1 ≤ time1) (h2 : max 2 time1 ≤ time2) {es : List Event}
    (hes : EachStep (step time1 time2) (fun s e => e = .reset true → s.count = 0)
      (powerUp time1 time2) es) :
    EachStep (step time1 time2) (InRange time2) (powerUp time1 time2) es :=
  hes.of_invariant (fun s => Settled time1 time2 s ∧ Below time1 time2 s) (step_inRange h1 h2)
    ⟨powerUp_settled, powerUp_below⟩

/-- **A reset restarts `hw6` exactly if it meets the counter at 0.** That is so
of y alone and of the range alone; and if every reset of a run is such, the
counter stays in range throughout. -/
theorem restarts_iff (h1 : 1 ≤ time1) (h2 : max 2 time1 ≤ time2) :
    (∀ s held,
      ((∀ xs : List Bool,
          (run (step time1 time2) (afterReset time1 time2 s held) (xs.map .clock)).y =
            (run (step time1 time2) (powerUp time1 time2) (xs.map .clock)).y) ↔ s.count = 0) ∧
      ((∀ xs : List Bool, EachStep (step time1 time2) (InRange time2)
          (afterReset time1 time2 s held) (xs.map .clock)) ↔ s.count = 0)) ∧
    ∀ es, EachStep (step time1 time2) (fun s e => e = .reset true → s.count = 0)
        (powerUp time1 time2) es →
      EachStep (step time1 time2) (InRange time2) (powerUp time1 time2) es := by
  have h2' : 2 ≤ time2 := Nat.le_trans (Nat.le_max_left 2 time1) h2
  refine ⟨fun s held => ?_, fun es => run_inRange h1 h2⟩
  rw [afterReset_eq]
  cases s.count with
  | zero =>
    have hsame : leftover time1 time2 0 = powerUp time1 time2 := rfl
    rw [hsame]
    refine ⟨iff_of_true (fun _ => rfl) rfl, iff_of_true (fun xs => ?_) rfl⟩
    refine run_inRange h1 h2 (eachStep_iff.mpr fun p e q hes => ?_)
    rintro rfl
    have hmem : Event.reset true ∈ xs.map .clock := by simp [hes]
    simp at hmem
  | succ count =>
    refine ⟨iff_of_false (fun hall => ?_) (by simp), iff_of_false (fun hall => ?_) (by simp)⟩
    · exact leftover_differs h1 h2' count (hall _)
    · exact leftover_overflows count (hall _)

/-- The generics of the source, reset after two samples 1. -/
theorem restarts_iff_default :
    1 ≤ 3 ∧ max 2 3 ≤ 5 ∧
      ¬ ∀ xs : List Bool, EachStep (step 3 5) (InRange 5)
        (afterReset 3 5 (run (step 3 5) (powerUp 3 5) [.clock true, .clock true]) [])
        (xs.map .clock) :=
  ⟨by decide, by decide, fun hall => by
    have hzero := (((restarts_iff (by decide) (by decide)).1 _ []).2).mp hall
    exact absurd hzero (by decide)⟩

/-- Two samples 1, a reset, and four samples 1, with the generics of the
source: y stays low where it goes high after power-up. -/
theorem reset_not_restart :
    let s := run (step 3 5) (powerUp 3 5) [.clock true, .clock true]
    let xs := List.replicate 4 true
    (run (step 3 5) (afterReset 3 5 s []) (xs.map .clock)).y = false ∧
      (run (step 3 5) (powerUp 3 5) (xs.map .clock)).y = true := by
  decide

end

end FpgaLabs.Hw6
