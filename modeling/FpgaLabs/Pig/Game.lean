import FpgaLabs.Sync.Run
import Mathlib.Tactic.SplitIfs

/-! The pig game of `piggyGame.vhd`. The process that keeps the scores is not
clocked: it runs when the state, the die or a player input changes. -/

namespace FpgaLabs.Pig
open Sync

inductive State
  | player1Diceroll | player1Hold | player2Diceroll | player2Hold
  deriving DecidableEq, Repr

/-- NATURAL RANGE 1 TO 6 -/
abbrev Dice := { d : Nat // 1 ≤ d ∧ d ≤ 6 }

/-- The ports other than the clock. -/
structure Inputs where
  rst : Bool
  diceNum : Dice
  player1 : Bool
  player2 : Bool
  deriving DecidableEq

/-- The score registers, as unbounded numbers. -/
structure Scores where
  p1Total : Nat
  p2Total : Nat
  p1Turn : Nat
  p2Turn : Nat
  deriving DecidableEq

/-- `winner` is `none` until it is assigned. -/
structure Signals extends Scores where
  inputs : Inputs
  prState : State
  nxState : State
  winner : Option Bool
  deriving DecidableEq

/-- A simulation step: whether the clock rises in it, and the other ports from
it on. -/
structure Event where
  edge : Bool
  inputs : Inputs

/-- One run of the upper section. All right-hand sides read the old scores, the
win tests too. -/
def upper (s : Signals) : Signals :=
  let diceNum := s.inputs.diceNum.val
  match s.prState with
  | .player1Diceroll =>
    if diceNum = 1 then { s with p1Turn := 0, nxState := .player1Hold }
    else if 2 ≤ diceNum ∧ diceNum ≤ 6 then
      { s with p1Turn := diceNum + s.p1Turn, nxState := .player1Diceroll }
    else { s with nxState := .player1Hold }
  | .player1Hold =>
    let s' := { s with p1Total := s.p1Turn + s.p1Total, p1Turn := 0 }
    if 100 ≤ s.p1Total then
      { s' with winner := some s.inputs.player1, nxState := .player1Diceroll }
    else { s' with nxState := .player2Diceroll }
  | .player2Diceroll =>
    if diceNum = 1 then { s with p2Turn := 0, nxState := .player2Hold }
    else if 2 ≤ diceNum ∧ diceNum ≤ 6 then
      { s with p2Turn := diceNum + s.p2Turn, nxState := .player2Diceroll }
    else { s with nxState := .player2Hold }
  | .player2Hold =>
    -- the source clears p1_turn here, not p2_turn
    let s' := { s with p2Total := s.p2Turn + s.p2Total, p1Turn := 0 }
    if 100 ≤ s.p2Total then
      { s' with winner := some s.inputs.player2, nxState := .player1Diceroll }
    else { s' with nxState := .player1Diceroll }

/-- The lower section: `pr_state` after the step. -/
def lower (s : Signals) (e : Event) : State :=
  if e.inputs.rst then .player1Diceroll
  else if e.edge then s.nxState
  else s.prState

/-- The step changes an input of the upper section's sensitivity list. -/
def Changes (s : Signals) (e : Event) : Prop :=
  e.inputs.diceNum ≠ s.inputs.diceNum ∨ e.inputs.player1 ≠ s.inputs.player1 ∨
    e.inputs.player2 ≠ s.inputs.player2

instance (s : Signals) (e : Event) : Decidable (Changes s e) :=
  inferInstanceAs (Decidable (_ ∨ _ ∨ _))

/-- The first delta: the upper section still sees the old state. -/
def rerun (s : Signals) (e : Event) : Signals :=
  if Changes s e then upper { s with inputs := e.inputs } else { s with inputs := e.inputs }

/-- The second: it runs again if the lower section has changed the state. -/
def step (s : Signals) (e : Event) : Signals :=
  if lower s e = s.prState then rerun s e
  else upper { rerun s e with prState := lower s e }

/-- All signals at their leftmost values, and the first run of the upper section. -/
def powerUp (i : Inputs) : Signals :=
  upper ⟨⟨0, 0, 0, 0⟩, i, .player1Diceroll, .player1Diceroll, none⟩

/-- The die does not change in the step of a clock edge. -/
def Stable (s : Signals) (e : Event) : Prop := e.edge = true → e.inputs.diceNum = s.inputs.diceNum

/-- The upper section runs when the inputs change. -/
theorem rerun_changes {s : Signals} {e : Event} (h : Changes s e) :
    rerun s e = upper { s with inputs := e.inputs } := if_pos h

theorem rerun_same {s : Signals} {e : Event} (h : ¬ Changes s e) :
    rerun s e = { s with inputs := e.inputs } := if_neg h

theorem same_dice {s : Signals} {e : Event} (h : ¬ Changes s e) :
    e.inputs.diceNum = s.inputs.diceNum := by
  by_contra hne
  exact h (Or.inl hne)

/-! ## What a run of the upper section does to a player -/

inductive Player
  | one | two
  deriving DecidableEq

def Player.diceroll : Player → State
  | .one => .player1Diceroll
  | .two => .player2Diceroll

def Player.hold : Player → State
  | .one => .player1Hold
  | .two => .player2Hold

theorem Player.hold_ne_diceroll (p q : Player) : p.hold ≠ q.diceroll := by
  cases p <;> cases q <;> decide

def Scores.turn (s : Scores) : Player → Nat
  | .one => s.p1Turn
  | .two => s.p2Turn

def Scores.total (s : Scores) : Player → Nat
  | .one => s.p1Total
  | .two => s.p2Total

/-- What the upper section reads besides the scores. -/
structure Visit where
  state : State
  dice : Dice

def Signals.visit (s : Signals) : Visit := ⟨s.prState, s.inputs.diceNum⟩

/-- The points of a roll. -/
def points (p : Player) (v : Visit) : Nat :=
  if v.state = p.diceroll ∧ v.dice.val ≠ 1 then v.dice.val else 0

/-- A 1 clears the player's turn score; a hold state that of player 1. -/
def Clears (p : Player) (v : Visit) : Prop :=
  v.state = p.diceroll ∧ v.dice.val = 1 ∨ p = .one ∧ (v.state = .player1Hold ∨ v.state = .player2Hold)

instance (p : Player) (v : Visit) : Decidable (Clears p v) :=
  inferInstanceAs (Decidable (_ ∧ _ ∨ _ ∧ (_ ∨ _)))

@[simp] theorem upper_prState (s : Signals) : (upper s).prState = s.prState := by
  simp only [upper]
  cases s.prState <;> (dsimp only; split_ifs <;> rfl)

@[simp] theorem upper_inputs (s : Signals) : (upper s).inputs = s.inputs := by
  simp only [upper]
  cases s.prState <;> (dsimp only; split_ifs <;> rfl)

theorem upper_turn (s : Signals) (p : Player) :
    (upper s).turn p = if Clears p s.visit then 0 else points p s.visit + s.turn p := by
  obtain ⟨hlow, hhigh⟩ := s.inputs.diceNum.property
  have hroll : s.inputs.diceNum.val ≠ 1 → 2 ≤ s.inputs.diceNum.val := by omega
  cases hs : s.prState <;> cases p <;>
    simp only [upper, hs, Signals.visit, Clears, points, Scores.turn, Player.diceroll] <;>
    split_ifs <;> simp_all

theorem upper_total (s : Signals) (p : Player) :
    (upper s).total p = if s.prState = p.hold then s.turn p + s.total p else s.total p := by
  cases hs : s.prState <;> cases p <;>
    simp only [upper, hs, Player.hold, Scores.total, Scores.turn] <;> split_ifs <;> simp_all

/-- Only a 1 ends a turn. -/
theorem upper_nxState (s : Signals) (p : Player) :
    (upper s).nxState = p.hold ↔ s.prState = p.diceroll ∧ s.inputs.diceNum.val = 1 := by
  obtain ⟨hlow, hhigh⟩ := s.inputs.diceNum.property
  have hroll : s.inputs.diceNum.val ≠ 1 → 2 ≤ s.inputs.diceNum.val := by omega
  cases hs : s.prState <;> cases p <;>
    simp only [upper, hs, Player.hold, Player.diceroll] <;> split_ifs <;> simp_all

theorem upper_winner (s : Signals) (h : ∀ p, s.total p < 100) : (upper s).winner = s.winner := by
  have h1 : ¬ 100 ≤ s.p1Total := Nat.not_le.mpr (h .one)
  have h2 : ¬ 100 ≤ s.p2Total := Nat.not_le.mpr (h .two)
  simp only [upper, if_neg h1, if_neg h2]
  cases s.prState with
  | player1Diceroll => dsimp only; split_ifs <;> rfl
  | player1Hold => rfl
  | player2Diceroll => dsimp only; split_ifs <;> rfl
  | player2Hold => rfl

/-! ## Stable runs -/

/-- Nothing has been banked, and the present state will bank nothing. -/
structure Idle (s : Signals) : Prop where
  turn : ∀ p : Player, s.prState = p.hold → s.turn p = 0
  total : ∀ p, s.total p = 0
  winner : s.winner = none

/-- A hold state is the next only after a 1, which has cleared the turn score. -/
def Ready (s : Signals) : Prop :=
  ∀ p : Player, s.nxState = p.hold →
    s.prState = p.diceroll ∧ s.inputs.diceNum.val = 1 ∧ s.turn p = 0

theorem upper_idle {s : Signals} (h : Idle s) : Idle (upper s) := by
  refine ⟨fun p hp => ?_, fun p => ?_, ?_⟩
  · rw [upper_prState] at hp
    have hpoints : points p s.visit = 0 := by
      refine if_neg fun hroll => ?_
      exact p.hold_ne_diceroll p (hp.symm.trans hroll.1)
    rw [upper_turn, hpoints, h.turn p hp]
    simp
  · rw [upper_total, h.total p]
    split
    · next hp => rw [h.turn p hp]
    · rfl
  · rw [upper_winner s fun p => by rw [h.total p]; decide]
    exact h.winner

theorem upper_ready (s : Signals) : Ready (upper s) := by
  intro p hp
  obtain ⟨hstate, hone⟩ := (upper_nxState s p).mp hp
  rw [upper_prState, upper_inputs]
  refine ⟨hstate, hone, ?_⟩
  rw [upper_turn]
  exact if_pos (Or.inl ⟨hstate, hone⟩)

theorem rerun_idle {s : Signals} (e : Event) (h : Idle s) : Idle (rerun s e) := by
  have hinputs : Idle { s with inputs := e.inputs } := ⟨h.turn, h.total, h.winner⟩
  by_cases hc : Changes s e
  · rw [rerun_changes hc]
    exact upper_idle hinputs
  · rw [rerun_same hc]
    exact hinputs

theorem rerun_ready {s : Signals} (e : Event) (h : Ready s) : Ready (rerun s e) := by
  by_cases hc : Changes s e
  · rw [rerun_changes hc]
    exact upper_ready _
  · rw [rerun_same hc]
    intro p hp
    show s.prState = p.diceroll ∧ e.inputs.diceNum.val = 1 ∧ s.turn p = 0
    rw [same_dice hc]
    exact h p hp

/-- With the die unchanged, a hold state is entered with the turn score 0. -/
theorem rerun_enters {s : Signals} {e : Event} (h : Ready s) (he : Stable s e) {p : Player}
    (hp : lower s e = p.hold) (hne : lower s e ≠ s.prState) : (rerun s e).turn p = 0 := by
  simp only [lower] at hp hne
  split at hp
  · exact absurd hp.symm (p.hold_ne_diceroll .one)
  · next hlow =>
    rw [if_neg hlow] at hne
    split at hp
    · next hedge =>
      obtain ⟨hstate, hone, hturn⟩ := h p hp
      by_cases hc : Changes s e
      · rw [rerun_changes hc, upper_turn]
        refine if_pos (Or.inl ⟨hstate, ?_⟩)
        show e.inputs.diceNum.val = 1
        rw [he hedge]
        exact hone
      · rw [rerun_same hc]
        exact hturn
    · next hedge =>
      rw [if_neg hedge] at hne
      exact absurd rfl hne

theorem step_idle {s : Signals} {e : Event} (h : Idle s ∧ Ready s) (he : Stable s e) :
    Idle (step s e) ∧ Ready (step s e) := by
  simp only [step]
  split
  · exact ⟨rerun_idle e h.1, rerun_ready e h.2⟩
  · next hne =>
    have hidle := rerun_idle e h.1
    refine ⟨upper_idle ⟨fun p hp => ?_, hidle.total, hidle.winner⟩, upper_ready _⟩
    exact rerun_enters h.2 he hp hne

theorem powerUp_idle (i : Inputs) : Idle (powerUp i) ∧ Ready (powerUp i) := by
  refine ⟨upper_idle ⟨fun p _ => ?_, fun p => ?_, rfl⟩, upper_ready _⟩ <;> cases p <;> rfl

theorem run_idle {s : Signals} {es : List Event} (h : Idle s ∧ Ready s)
    (hes : EachStep step Stable s es) : Idle (run step s es) ∧ Ready (run step s es) :=
  hes.run_invariant (fun s => Idle s ∧ Ready s) (fun _ _ => step_idle) h

/-- Some player's total has reached 100, and `winner` is assigned. -/
def Won (s : Signals) : Prop := (∃ p, 100 ≤ s.total p) ∧ s.winner.isSome = true

theorem Idle.not_won {s : Signals} (h : Idle s) : ¬ Won s := by
  rintro ⟨-, hwinner⟩
  simp [h.winner] at hwinner

/-- **The game cannot be won.** Of no state that a stable run reaches is there a
stable continuation to a won game: only a 1 ends a turn, and it clears the turn
score, so the totals stay 0. -/
theorem never_won (i : Inputs) (es : List Event) (hes : EachStep step Stable (powerUp i) es) :
    ¬ ∃ rest, EachStep step Stable (run step (powerUp i) es) rest ∧
      Won (run step (run step (powerUp i) es) rest) := by
  rintro ⟨rest, hrest, hwon⟩
  exact (run_idle (run_idle (powerUp_idle i) hes) hrest).1.not_won hwon

/-- The inputs of `tb_piggyGame` with the die at d. -/
def tb (d : Dice) : Inputs := ⟨false, d, false, true⟩

/-- After a 6, and a 1 held around a clock edge: player 1's hold state. -/
theorem never_won_hold :
    let s := run step (powerUp (tb ⟨6, by decide⟩))
      [⟨false, tb ⟨1, by decide⟩⟩, ⟨true, tb ⟨1, by decide⟩⟩]
    s.prState = .player1Hold ∧ ¬ ∃ rest, EachStep step Stable s rest ∧ Won (run step s rest) :=
  ⟨by decide, never_won _ _ ⟨fun h => absurd h (by decide), fun _ => rfl, trivial⟩⟩

/-- Not from the power-up of the testbench either. -/
theorem start_not_won :
    ¬ ∃ rest, EachStep step Stable (powerUp (tb ⟨1, by decide⟩)) rest ∧
      Won (run step (powerUp (tb ⟨1, by decide⟩)) rest) := by
  rintro ⟨rest, hrest, hwon⟩
  exact (run_idle (powerUp_idle _) hrest).1.not_won hwon

end FpgaLabs.Pig
