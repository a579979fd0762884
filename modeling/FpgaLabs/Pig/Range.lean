import FpgaLabs.Pig.Game
import FpgaLabs.Sync.Strobe
import Mathlib.Algebra.Ring.Nat
import Mathlib.Data.List.Induction

/-! The range of the pig game's scores. Nothing in `piggyGame.vhd` bounds a
turn: the scores are what a score sheet of the visits says, and in range as
long as that is. -/

namespace FpgaLabs.Pig
open Sync

def Scores.InRange (c : Scores) : Prop := ∀ p, c.turn p ≤ 100 ∧ c.total p ≤ 100

/-- The scores assigned in a step are in their range 0 TO 100. -/
def AssignsInRange (s : Signals) (e : Event) : Prop :=
  (Changes s e → (rerun s e).InRange) ∧ (lower s e ≠ s.prState → (step s e).InRange)

/-! ## The score sheet -/

/-- The points since the player's turn score was last cleared, newest first. -/
def turnPoints (p : Player) (history : List Visit) : Nat :=
  ((history.takeWhile fun v => !decide (Clears p v)).map (points p)).sum

/-- The turn scores found by the player's hold state. -/
def banked (p : Player) : List Visit → Nat
  | [] => 0
  | v :: older => (if v.state = p.hold then turnPoints p older else 0) + banked p older

theorem turnPoints_cons (p : Player) (v : Visit) (older : List Visit) :
    turnPoints p (v :: older) = if Clears p v then 0 else points p v + turnPoints p older := by
  simp only [turnPoints, List.takeWhile_cons]
  split <;> simp_all

theorem banked_mono (p : Player) (newer older : List Visit) :
    banked p older ≤ banked p (newer ++ older) := by
  induction newer with
  | nil => exact Nat.le_refl _
  | cons v newer ih => exact Nat.le_trans ih (Nat.le_add_left _ _)

/-- One line of the sheet. -/
def record (c : Scores) (v : Visit) : Scores :=
  let turn p := if Clears p v then 0 else points p v + c.turn p
  let total p := if v.state = p.hold then c.turn p + c.total p else c.total p
  ⟨total .one, total .two, turn .one, turn .two⟩

theorem record_turn (c : Scores) (v : Visit) (p : Player) :
    (record c v).turn p = if Clears p v then 0 else points p v + c.turn p := by
  cases p <;> rfl

theorem record_total (c : Scores) (v : Visit) (p : Player) :
    (record c v).total p = if v.state = p.hold then c.turn p + c.total p else c.total p := by
  cases p <;> rfl

def blank : Scores := ⟨0, 0, 0, 0⟩

/-- The scores are sums over the history. -/
theorem run_record (visits : List Visit) (p : Player) :
    (run record blank visits).turn p = turnPoints p visits.reverse ∧
      (run record blank visits).total p = banked p visits.reverse := by
  induction visits using List.reverseRecOn with
  | nil => cases p <;> exact ⟨rfl, rfl⟩
  | append_singleton visits v ih =>
    obtain ⟨hturn, htotal⟩ := ih
    rw [run_append, List.reverse_append]
    show (record _ v).turn p = turnPoints p (v :: visits.reverse) ∧
      (record _ v).total p = banked p (v :: visits.reverse)
    rw [record_turn, record_total, turnPoints_cons, banked, hturn, htotal]
    refine ⟨rfl, ?_⟩
    split
    · rfl
    · rw [Nat.zero_add]

/-! ## The game keeps the sheet -/

theorem Scores.ext_players {c d : Scores} (h : ∀ p, c.turn p = d.turn p ∧ c.total p = d.total p) :
    c = d := by
  obtain ⟨hturn1, htotal1⟩ := h .one
  obtain ⟨hturn2, htotal2⟩ := h .two
  cases c
  cases d
  exact (Scores.mk.injEq ..).mpr ⟨htotal1, htotal2, hturn1, hturn2⟩

theorem upper_scores (s : Signals) : (upper s).toScores = record s.toScores s.visit := by
  refine Scores.ext_players fun p => ?_
  rw [upper_turn, upper_total, record_turn, record_total]
  exact ⟨rfl, rfl⟩

/-- The runs of the upper section in a step. -/
def visits (s : Signals) (e : Event) : List Visit :=
  (if Changes s e then [⟨s.prState, e.inputs.diceNum⟩] else []) ++
    if lower s e = s.prState then [] else [⟨lower s e, e.inputs.diceNum⟩]

theorem rerun_scores (s : Signals) (e : Event) : (rerun s e).toScores =
    run record s.toScores (if Changes s e then [⟨s.prState, e.inputs.diceNum⟩] else []) := by
  simp only [rerun]
  split
  · exact upper_scores _
  · rfl

theorem rerun_inputs (s : Signals) (e : Event) : (rerun s e).inputs = e.inputs := by
  simp only [rerun]
  split <;> simp

theorem step_scores (s : Signals) (e : Event) :
    (step s e).toScores = run record s.toScores (visits s e) := by
  rw [visits, run_append, ← rerun_scores]
  simp only [step]
  split
  · rfl
  · rw [upper_scores, Signals.visit, rerun_inputs]
    rfl

theorem assignsInRange_iff (s : Signals) (e : Event) :
    AssignsInRange s e ↔
      EachStep record (fun c v => (record c v).InRange) s.toScores (visits s e) := by
  rw [AssignsInRange, visits, eachStep_append, ← rerun_scores, rerun_scores, step_scores, visits,
    run_append]
  refine and_congr ?_ ?_
  · split <;> simp_all [EachStep]
  · by_cases hl : lower s e = s.prState <;> simp [hl, EachStep]

/-- All runs of the upper section, the one at power-up included. -/
def played (i : Inputs) (es : List Event) : List Visit :=
  ⟨.player1Diceroll, i.diceNum⟩ :: emitted step visits (powerUp i) es

theorem played_scores (i : Inputs) (es : List Event) :
    (run step (powerUp i) es).toScores = run record blank (played i es) := by
  rw [run_emitted Signals.toScores step_scores, powerUp, upper_scores]
  rfl

theorem played_inRange (i : Inputs) (es : List Event) :
    EachStep step AssignsInRange (powerUp i) es ↔
      ∀ h, h <+: played i es → (run record blank h).InRange := by
  have hblank : blank.InRange := fun p => by cases p <;> decide
  have hfirst : (record blank ⟨.player1Diceroll, i.diceNum⟩).InRange := by
    intro p
    obtain ⟨-, hhigh⟩ := i.diceNum.property
    rw [record_turn, record_total]
    cases p <;> simp only [points, blank, Scores.turn, Scores.total] <;> split_ifs <;> omega
  rw [prefixes_iff Scores.InRange hblank, played, EachStep, and_iff_right hfirst,
    eachStep_emitted Signals.toScores step_scores assignsInRange_iff, powerUp, upper_scores]
  rfl

/-- In a stable run nothing is banked, at any time. -/
theorem played_banked {i : Inputs} {es : List Event} (hes : EachStep step Stable (powerUp i) es)
    {h : List Visit} (hh : h <+: played i es) (p : Player) : banked p h.reverse = 0 := by
  have hidle := (run_idle (powerUp_idle i) hes).1.total p
  rw [played_scores, (run_record _ p).2] at hidle
  obtain ⟨rest, hrest⟩ := hh
  rw [← hrest, List.reverse_append] at hidle
  exact Nat.le_zero.mp (hidle ▸ banked_mono p rest.reverse h.reverse)

/-! ## The turns of a stable run -/

/-- The state that a clock edge enters while nobody has won. -/
def follows (d : Dice) : State → State
  | .player1Diceroll => if d.val = 1 then .player1Hold else .player1Diceroll
  | .player1Hold => .player2Diceroll
  | .player2Diceroll => if d.val = 1 then .player2Hold else .player2Diceroll
  | .player2Hold => .player1Diceroll

/-- Whose turn it is, and the inputs seen last. -/
structure Table where
  state : State
  inputs : Inputs

def Table.next (t : Table) (e : Event) : State :=
  if e.inputs.rst then .player1Diceroll
  else if e.edge then follows t.inputs.diceNum t.state
  else t.state

/-- The dice, the edges and the resets are all that moves it. -/
def Table.step (t : Table) (e : Event) : Table := ⟨t.next e, e.inputs⟩

def Table.visits (t : Table) (e : Event) : List Visit :=
  (if e.inputs.diceNum ≠ t.inputs.diceNum ∨ e.inputs.player1 ≠ t.inputs.player1 ∨
      e.inputs.player2 ≠ t.inputs.player2 then [⟨t.state, e.inputs.diceNum⟩] else []) ++
    if t.next e = t.state then [] else [⟨t.next e, e.inputs.diceNum⟩]

/-- The score sheet of the inputs. -/
def sheet (i : Inputs) (es : List Event) : List Visit :=
  ⟨.player1Diceroll, i.diceNum⟩ :: emitted Table.step Table.visits ⟨.player1Diceroll, i⟩ es

/-- The game is at the table's state, and nothing is banked. -/
structure Follows (s : Signals) (t : Table) : Prop where
  idle : Idle s ∧ Ready s
  state : s.prState = t.state
  inputs : s.inputs = t.inputs
  next : s.nxState = follows s.inputs.diceNum s.prState

theorem upper_follows {s : Signals} (h : ∀ p, s.total p = 0) :
    (upper s).nxState = follows s.inputs.diceNum s.prState := by
  obtain ⟨hlow, hhigh⟩ := s.inputs.diceNum.property
  have h1 : ¬ 100 ≤ s.p1Total := by
    have := h .one
    simp only [Scores.total] at this
    omega
  have h2 : ¬ 100 ≤ s.p2Total := by
    have := h .two
    simp only [Scores.total] at this
    omega
  have hroll : s.inputs.diceNum.val ≠ 1 → 2 ≤ s.inputs.diceNum.val := by omega
  simp only [upper, if_neg h1, if_neg h2, follows]
  cases s.prState with
  | player1Diceroll => dsimp only; split_ifs <;> simp_all
  | player1Hold => rfl
  | player2Diceroll => dsimp only; split_ifs <;> simp_all
  | player2Hold => rfl

theorem rerun_prState (s : Signals) (e : Event) : (rerun s e).prState = s.prState := by
  simp only [rerun]
  split <;> simp

theorem rerun_follows {s : Signals} {t : Table} (h : Follows s t) (e : Event) :
    (rerun s e).nxState = follows (rerun s e).inputs.diceNum (rerun s e).prState := by
  rw [rerun_inputs, rerun_prState]
  by_cases hc : Changes s e
  · rw [rerun_changes hc]
    exact upper_follows h.idle.1.total
  · rw [rerun_same hc, same_dice hc]
    exact h.next

theorem lower_follows {s : Signals} {t : Table} (h : Follows s t) (e : Event) :
    lower s e = t.next e := by
  rw [lower, Table.next, h.next, h.inputs, h.state]

theorem visits_follows {s : Signals} {t : Table} (h : Follows s t) (e : Event) :
    visits s e = t.visits e := by
  simp only [visits, Table.visits, Changes, lower_follows h, h.state, h.inputs]

theorem step_follows {s : Signals} {t : Table} (h : Follows s t) {e : Event} (he : Stable s e) :
    Follows (step s e) (t.step e) := by
  refine ⟨step_idle h.idle he, ?_, ?_, ?_⟩
  · show _ = t.next e
    rw [← lower_follows h, step]
    split
    · next hstay => rw [rerun_prState, hstay]
    · exact upper_prState _
  · show _ = e.inputs
    rw [step]
    split
    · exact rerun_inputs s e
    · exact (upper_inputs _).trans (rerun_inputs s e)
  · rw [step]
    split
    · exact rerun_follows h e
    · rw [upper_prState, upper_inputs]
      exact upper_follows (rerun_idle e h.idle.1).total

/-- In a stable run the visits are those that the inputs give. -/
theorem played_stable {i : Inputs} {es : List Event}
    (hes : EachStep step Stable (powerUp i) es) : played i es = sheet i es := by
  have hstart : Follows (powerUp i) ⟨.player1Diceroll, i⟩ := by
    refine ⟨powerUp_idle i, upper_prState _, upper_inputs _, ?_⟩
    rw [powerUp, upper_prState, upper_inputs]
    exact upper_follows fun p => by cases p <;> rfl
  have hsame : emitted step visits (powerUp i) es =
      emitted Table.step Table.visits ⟨.player1Diceroll, i⟩ es :=
    @emitted_lockstep _ _ _ _ step Table.step visits Table.visits Stable Follows
      (fun s t e h he => ⟨step_follows h he, visits_follows h e⟩) _ _ es hstart hes
  rw [played, sheet, hsame]

/-- **The scores stay in range exactly as long as the sheet does**: no player
rolls more than 100 points in one go, nor banks more. In a stable run the first
is all, and the sheet is that of the dice, the edges and the resets. -/
theorem inRange_iff (i : Inputs) (es : List Event) :
    (EachStep step AssignsInRange (powerUp i) es ↔
      ∀ h, h <+: played i es → ∀ p,
        turnPoints p h.reverse ≤ 100 ∧ banked p h.reverse ≤ 100) ∧
    (EachStep step Stable (powerUp i) es →
      (EachStep step AssignsInRange (powerUp i) es ↔
        ∀ h, h <+: played i es → ∀ p, turnPoints p h.reverse ≤ 100) ∧
      (EachStep step AssignsInRange (powerUp i) es ↔
        ∀ h, h <+: sheet i es → ∀ p, turnPoints p h.reverse ≤ 100)) := by
  have hsheet : EachStep step AssignsInRange (powerUp i) es ↔
      ∀ h, h <+: played i es → ∀ p,
        turnPoints p h.reverse ≤ 100 ∧ banked p h.reverse ≤ 100 := by
    rw [played_inRange]
    refine forall_congr' fun h => imp_congr_right fun _ => forall_congr' fun p => ?_
    rw [(run_record h p).1, (run_record h p).2]
  refine ⟨hsheet, fun hstable => ?_⟩
  have hplayed : EachStep step AssignsInRange (powerUp i) es ↔
      ∀ h, h <+: played i es → ∀ p, turnPoints p h.reverse ≤ 100 := by
    refine hsheet.trans ⟨fun hall h hh p => (hall h hh p).1, fun hall h hh p => ?_⟩
    rw [played_banked hstable hh p]
    exact ⟨hall h hh p, Nat.zero_le _⟩
  exact ⟨hplayed, by rwa [played_stable hstable] at hplayed⟩

/-- A 5 and a 6, each held around a clock edge. -/
def fiveSix : List Event :=
  [⟨false, tb ⟨5, by decide⟩⟩, ⟨true, tb ⟨5, by decide⟩⟩,
    ⟨false, tb ⟨6, by decide⟩⟩, ⟨true, tb ⟨6, by decide⟩⟩]

/-- Player 1's turn, a 6 on the die. -/
def rolling (turn : Nat) : Signals :=
  ⟨⟨0, 0, turn, 0⟩, tb ⟨6, by decide⟩, .player1Diceroll, .player1Diceroll, none⟩

theorem run_streak (n turn : Nat) :
    run step (rolling turn) (List.replicate n fiveSix).flatten = rolling (turn + 11 * n) := by
  induction n generalizing turn with
  | zero => rfl
  | succ n ih =>
    have hround : run step (rolling turn) fiveSix = rolling (6 + (5 + turn)) := rfl
    rw [List.replicate_succ, List.flatten_cons, run_append, hround, ih]
    congr 1
    omega

/-- Nineteen rolls without a 1 are worth 105 points. -/
theorem streak_overflows :
    let es := (List.replicate 9 fiveSix).flatten
    (run step (powerUp (tb ⟨6, by decide⟩)) es).p1Turn = 105 ∧
      ¬ EachStep step AssignsInRange (powerUp (tb ⟨6, by decide⟩)) es := by
  intro es
  have hrun : run step (powerUp (tb ⟨6, by decide⟩)) es = rolling 105 := run_streak 9 6
  refine ⟨by rw [hrun]; rfl, fun h => ?_⟩
  have hrange := (played_inRange _ _).mp h _ List.prefix_rfl .one
  rw [← played_scores, hrun] at hrange
  exact absurd hrange.1 (by decide)

end FpgaLabs.Pig
