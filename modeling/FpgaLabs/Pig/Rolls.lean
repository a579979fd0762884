import FpgaLabs.Pig.Game
import Mathlib.Algebra.Ring.Nat

/-! The rolls of a turn in the pig game. The scores are added when the die
changes, not when the clock rises, so a roll that repeats the one before it is
not counted. -/

namespace FpgaLabs.Pig
open Sync

/-- A roll held around a clock edge: the die shows `d`, then the clock rises. -/
def roll (i : Inputs) (d : Dice) : List Event :=
  [⟨false, { i with rst := false, diceNum := d }⟩, ⟨true, { i with rst := false, diceNum := d }⟩]

def rolls (i : Inputs) (ds : List Dice) : List Event := ds.flatMap (roll i)

/-- A die other than 1 has been counted, and the turn goes on. -/
def Counted (s : Signals) : Prop :=
  ∀ p : Player, s.prState = p.diceroll → s.inputs.diceNum.val ≠ 1 →
    0 < s.turn p ∧ s.nxState = p.diceroll

theorem upper_roll {s : Signals} {p : Player} (hs : s.prState = p.diceroll)
    (hd : s.inputs.diceNum.val ≠ 1) : (upper s).turn p = s.inputs.diceNum.val + s.turn p := by
  have hkeeps : ¬ Clears p s.visit := by
    rintro (⟨-, hone⟩ | ⟨-, hhold | hhold⟩)
    · exact hd hone
    · exact Player.one.hold_ne_diceroll p (hhold.symm.trans hs)
    · exact Player.two.hold_ne_diceroll p (hhold.symm.trans hs)
  have hpoints : points p s.visit = s.inputs.diceNum.val := if_pos ⟨hs, hd⟩
  rw [upper_turn, if_neg hkeeps, hpoints]

theorem upper_goesOn {s : Signals} {p : Player} (hs : s.prState = p.diceroll)
    (hd : s.inputs.diceNum.val ≠ 1) : (upper s).nxState = p.diceroll := by
  obtain ⟨hlow, hhigh⟩ := s.inputs.diceNum.property
  have hroll : 2 ≤ s.inputs.diceNum.val ∧ s.inputs.diceNum.val ≤ 6 := by omega
  cases p with
  | one =>
    have hstate : s.prState = .player1Diceroll := hs
    simp [upper, hstate, hd, hroll, Player.diceroll]
  | two =>
    have hstate : s.prState = .player2Diceroll := hs
    simp [upper, hstate, hd, hroll, Player.diceroll]

theorem upper_counted (s : Signals) : Counted (upper s) := by
  intro p hp hd
  rw [upper_prState] at hp
  rw [upper_inputs] at hd
  have hturn := upper_roll hp hd
  obtain ⟨hlow, -⟩ := s.inputs.diceNum.property
  exact ⟨by omega, upper_goesOn hp hd⟩

theorem step_counted (s : Signals) (e : Event) (h : Counted s) : Counted (step s e) := by
  unfold step
  split
  · by_cases hc : Changes s e
    · rw [rerun_changes hc]
      exact upper_counted _
    · rw [rerun_same hc]
      intro p hp hd
      have hdice : s.inputs.diceNum.val ≠ 1 := by rwa [← same_dice hc]
      exact h p hp hdice
  · exact upper_counted _

theorem run_counted (i : Inputs) (es : List Event) : Counted (run step (powerUp i) es) :=
  run_preserves Counted step_counted (upper_counted _)

/-! ## The rolls of one turn -/

/-- The sum of the rolls that differ from the die before them. -/
def changed (last : Dice) : List Dice → Nat
  | [] => 0
  | d :: ds => (if d = last then 0 else d.val) + changed d ds

/-- The die is set. -/
theorem set_turn {s : Signals} {p : Player} {i : Inputs} (h : Counted s)
    (hs : s.prState = p.diceroll) (hd : i.diceNum.val ≠ 1) (hrst : i.rst = false)
    (h1 : i.player1 = s.inputs.player1) (h2 : i.player2 = s.inputs.player2) :
    (step s ⟨false, i⟩).prState = p.diceroll ∧ (step s ⟨false, i⟩).nxState = p.diceroll ∧
      (step s ⟨false, i⟩).inputs = i ∧
      (step s ⟨false, i⟩).turn p =
        (if i.diceNum = s.inputs.diceNum then 0 else i.diceNum.val) + s.turn p := by
  have hlower : lower s ⟨false, i⟩ = s.prState := by simp [lower, hrst]
  rw [step, if_pos hlower]
  by_cases hsame : i.diceNum = s.inputs.diceNum
  · have hno : ¬ Changes s ⟨false, i⟩ := by
      rintro (hne | hne | hne)
      · exact hne hsame
      · exact hne h1
      · exact hne h2
    have hnx := (h p hs (by rwa [← hsame])).2
    rw [rerun_same hno, if_pos hsame, Nat.zero_add]
    exact ⟨hs, hnx, rfl, rfl⟩
  · have hchange : Changes s ⟨false, i⟩ := Or.inl hsame
    have hturn := @upper_roll { s with inputs := i } p hs hd
    have hnx := @upper_goesOn { s with inputs := i } p hs hd
    rw [rerun_changes hchange, if_neg hsame, upper_prState, upper_inputs]
    exact ⟨hs, hnx, rfl, hturn⟩

/-- The clock rises in a turn that goes on, with all inputs held. -/
theorem clock_turn {s : Signals} {p : Player} (hs : s.prState = p.diceroll)
    (hnx : s.nxState = p.diceroll) (hrst : s.inputs.rst = false) :
    step s ⟨true, s.inputs⟩ = s := by
  have hlower : lower s ⟨true, s.inputs⟩ = s.prState := by simp [lower, hrst, hs, hnx]
  have hno : ¬ Changes s ⟨true, s.inputs⟩ := by simp [Changes]
  rw [step, if_pos hlower, rerun_same hno]

/-- One roll that is not a 1. -/
theorem roll_turn {s : Signals} {p : Player} {d : Dice} (h : Counted s)
    (hs : s.prState = p.diceroll) (hd : d.val ≠ 1) :
    (run step s (roll s.inputs d)).prState = p.diceroll ∧
      (run step s (roll s.inputs d)).inputs = { s.inputs with rst := false, diceNum := d } ∧
      (run step s (roll s.inputs d)).turn p =
        (if d = s.inputs.diceNum then 0 else d.val) + s.turn p := by
  obtain ⟨hpr, hnx, hin, hturn⟩ :=
    set_turn (i := { s.inputs with rst := false, diceNum := d }) h hs hd rfl rfl rfl
  have hclock := clock_turn hpr hnx (by rw [hin])
  rw [hin] at hclock
  simp only [roll, run_cons, run_nil, hclock]
  exact ⟨hpr, hin, hturn⟩

/-- The rolls are made with the inputs of any state of the turn. -/
theorem rolls_inputs (i : Inputs) (d : Dice) (ds : List Dice) :
    rolls { i with rst := false, diceNum := d } ds = rolls i ds := rfl

theorem rolls_turn {s : Signals} {p : Player} {ds : List Dice} (h : Counted s)
    (hs : s.prState = p.diceroll) (hds : ∀ d ∈ ds, d.val ≠ 1) :
    (run step s (rolls s.inputs ds)).turn p = changed s.inputs.diceNum ds + s.turn p := by
  induction ds generalizing s with
  | nil => simp [rolls, changed]
  | cons d ds ih =>
    obtain ⟨hpr, hin, hturn⟩ := roll_turn h hs (hds d List.mem_cons_self)
    have hrest := ih (s := run step s (roll s.inputs d)) (run_preserves Counted step_counted h) hpr
      fun d hd => hds d (List.mem_cons_of_mem _ hd)
    rw [hin, rolls_inputs, hturn] at hrest
    simp only [rolls, List.flatMap_cons, run_append, changed] at hrest ⊢
    rw [hrest]
    omega

/-- All rolls count when each differs from the die before it. -/
theorem changed_le (last : Dice) (ds : List Dice) :
    changed last ds ≤ (ds.map Subtype.val).sum := by
  induction ds generalizing last with
  | nil => exact Nat.le_refl _
  | cons d ds ih =>
    have hle := ih d
    simp only [changed, List.map_cons, List.sum_cons]
    split <;> omega

theorem changed_eq_iff (last : Dice) (ds : List Dice) :
    changed last ds = (ds.map Subtype.val).sum ↔ List.IsChain (· ≠ ·) (last :: ds) := by
  induction ds generalizing last with
  | nil => simp [changed]
  | cons d ds ih =>
    obtain ⟨hpos, -⟩ := d.property
    have hle := changed_le d ds
    rw [List.isChain_cons_cons, ← ih d]
    simp only [changed, List.map_cons, List.sum_cons]
    by_cases hd : d = last
    · simp only [hd, ↓reduceIte, ne_eq, not_true_eq_false, false_and, iff_false]
      rw [← hd]
      omega
    · simp only [hd, ↓reduceIte, ne_eq, Ne.symm hd, not_false_eq_true, true_and]
      omega

/-- Two rolls of 3 count once. -/
theorem repeated_lost :
    (run step (powerUp (tb ⟨1, by decide⟩))
      (rolls (tb ⟨1, by decide⟩) [⟨3, by decide⟩, ⟨3, by decide⟩])).turn .one ≠ 3 + 3 := by
  decide

/-- **The rolls of a turn.** From any reachable state at the start of the
player's turn, rolls other than 1 add up exactly when none repeats the one
before it. -/
theorem rolls_add_iff (i : Inputs) (es : List Event) (p : Player) (ds : List Dice)
    (hs : (run step (powerUp i) es).prState = p.diceroll)
    (h0 : (run step (powerUp i) es).turn p = 0) (hds : ∀ d ∈ ds, 2 ≤ d.val) :
    (run step (run step (powerUp i) es) (rolls (run step (powerUp i) es).inputs ds)).turn p =
        (ds.map Subtype.val).sum ↔
      List.IsChain (· ≠ ·) ds := by
  have hcounted := run_counted i es
  -- the die shows 1 at the start
  have hone : (run step (powerUp i) es).inputs.diceNum.val = 1 := by
    by_contra hne
    have hpos := (hcounted p hs hne).1
    omega
  have hnot : ∀ d ∈ ds, d.val ≠ 1 := fun d hd => by
    have := hds d hd
    omega
  rw [rolls_turn hcounted hs hnot, h0, Nat.add_zero, changed_eq_iff]
  cases ds with
  | nil => simp
  | cons d ds =>
    have hfirst : (run step (powerUp i) es).inputs.diceNum ≠ d := by
      intro heq
      exact hnot d List.mem_cons_self (by rw [← heq, hone])
    rw [List.isChain_cons_cons]
    exact and_iff_right hfirst

theorem rolls_add_iff_three :
    (run step (powerUp (tb ⟨1, by decide⟩)) (rolls (powerUp (tb ⟨1, by decide⟩)).inputs
        [⟨3, by decide⟩, ⟨5, by decide⟩, ⟨3, by decide⟩])).turn .one = 11 ↔
      List.IsChain (· ≠ ·) [(⟨3, by decide⟩ : Dice), ⟨5, by decide⟩, ⟨3, by decide⟩] :=
  rolls_add_iff (tb ⟨1, by decide⟩) [] .one _ rfl rfl (by decide)

end FpgaLabs.Pig
