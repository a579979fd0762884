import FpgaLabs.Sync.Run
import FpgaLabs.Sync.Process
import Mathlib.Data.Fin.VecNotation
import Mathlib.Data.Fintype.Pi
import Mathlib.Data.List.FinRange

/-! The Simon game. Its process has ten branches, one for each stage, that
record a key and compare the attempt with the answer of the stage. The key is
recorded in all eight places at once. -/

namespace FpgaLabs.Simon
open Sync

/-- ARRAY (7 DOWNTO 0) OF INTEGER -/
abbrev Stages := Fin 8 → Int

/-- A positional aggregate: the first value is that of index 7. -/
def aggregate (vs : List Int) : Stages := fun i => vs.getD (7 - i) 0

inductive State
  | s1 | s2 | s3 | s4 | s5 | s6 | s7 | s8 | s9 | s10
  deriving DecidableEq, Repr

def stage1 : Stages := aggregate [1, 2, 3, 4, 1, 2, 3, 4]
def stage2 : Stages := aggregate [1, 2, 3, 4, 1, 2, 3, 4]
def stage3 : Stages := aggregate [1, 2, 3, 4, 1, 2, 3, 4]
def stage4 : Stages := aggregate [1, 2, 3, 4, 1, 2, 3, 4]
def stage5 : Stages := aggregate [1, 2, 3, 4, 1, 2, 3, 4]
def stage6 : Stages := aggregate [1, 2, 3, 4, 1, 2, 3, 4]
def stage7 : Stages := aggregate [1, 2, 3, 4, 1, 2, 3, 4]
def stage8 : Stages := aggregate [1, 2, 3, 4, 1, 2, 3, 4]
def stage9 : Stages := aggregate [1, 2, 3, 4, 1, 2, 3, 4]
def stage10 : Stages := aggregate [1, 2, 3, 4, 1, 2, 3, 4]

/-- KEY0 to KEY3 -/
structure Keys where
  key0 : Bool
  key1 : Bool
  key2 : Bool
  key3 : Bool

/-- The attempt of stage k is `attempts k`; `ledr1` is whether LEDR1 has been
assigned. Nothing drives `currentStage`. -/
structure Signals where
  currentStage : State
  nextStage : State
  attempts : State → Stages
  ledr1 : Bool

/-- The body of the loop. -/
def record (keys : Keys) (attempt : Stages) (i : Fin 8) : Stages :=
  if keys.key0 then Function.update attempt i 1
  else if keys.key1 then Function.update attempt i 2
  else if keys.key2 then Function.update attempt i 3
  else if keys.key3 then Function.update attempt i 4
  else attempt

/-- FOR i IN 0 to 7 LOOP -/
def recordAll (keys : Keys) (attempt : Stages) : Stages :=
  (List.finRange 8).foldl (record keys) attempt

/-- A branch: the stage whose attempt it keeps, its answer and its successor. -/
def branch (k : State) (answer : Stages) (successor : State) (keys : Keys) (s : Signals) :
    Signals :=
  let attempt := recordAll keys (s.attempts k)
  let s' := { s with attempts := Function.update s.attempts k attempt }
  if attempt ≠ answer then { s' with nextStage := .s1 }
  else { s' with ledr1 := true, nextStage := successor }

/-- One run of the process. -/
def process (s : Signals) (keys : Keys) : Signals :=
  match s.currentStage with
  | .s1 => branch .s1 stage1 .s2 keys s
  | .s2 => branch .s2 stage2 .s3 keys s
  | .s3 => branch .s3 stage3 .s3 keys s
  | .s4 => branch .s4 stage4 .s5 keys s
  | .s5 => branch .s5 stage5 .s6 keys s
  | .s6 => branch .s6 stage6 .s7 keys s
  | .s7 => branch .s7 stage7 .s8 keys s
  | .s8 => branch .s8 stage8 .s9 keys s
  | .s9 => branch .s9 stage9 .s10 keys s
  | .s10 => branch .s10 stage10 .s1 keys s

def answer : State → Stages
  | .s1 => stage1
  | .s2 => stage2
  | .s3 => stage3
  | .s4 => stage4
  | .s5 => stage5
  | .s6 => stage6
  | .s7 => stage7
  | .s8 => stage8
  | .s9 => stage9
  | .s10 => stage10

/-- The stage that follows, s1 after s10. -/
def State.following : State → State
  | .s1 => .s2
  | .s2 => .s3
  | .s3 => .s4
  | .s4 => .s5
  | .s5 => .s6
  | .s6 => .s7
  | .s7 => .s8
  | .s8 => .s9
  | .s9 => .s10
  | .s10 => .s1

/-- Stage 3 is its own successor; all others have the one that follows. -/
def State.successor (k : State) : State := if k = .s3 then .s3 else k.following

theorem process_eq (s : Signals) (keys : Keys) :
    process s keys =
      branch s.currentStage (answer s.currentStage) s.currentStage.successor keys s := by
  simp only [process]
  cases hs : s.currentStage <;> rfl

theorem process_currentStage (s : Signals) (keys : Keys) :
    (process s keys).currentStage = s.currentStage := by
  rw [process_eq]
  simp only [branch]
  split <;> rfl

theorem process_attempt (s : Signals) (keys : Keys) :
    (process s keys).attempts s.currentStage = recordAll keys (s.attempts s.currentStage) := by
  rw [process_eq]
  simp only [branch]
  split <;> exact Function.update_self ..

theorem process_nextStage (s : Signals) (keys : Keys) :
    (process s keys).nextStage =
      if recordAll keys (s.attempts s.currentStage) = answer s.currentStage then
        s.currentStage.successor
      else .s1 := by
  rw [process_eq]
  simp only [branch]
  split <;> simp_all

/-- Even a right attempt does not lead from stage 3 to stage 4. -/
theorem stage3_stays (s : Signals) (keys : Keys) (hs : s.currentStage = .s3) :
    (process s keys).nextStage = .s3 ∨ (process s keys).nextStage = .s1 := by
  rw [process_nextStage, hs]
  split
  · exact Or.inl rfl
  · exact Or.inr rfl

/-! ## Presses -/

inductive Key
  | key0 | key1 | key2 | key3
  deriving DecidableEq, Repr

/-- The number of the key in the answers. -/
def Key.value : Key → Int
  | .key0 => 1
  | .key1 => 2
  | .key2 => 3
  | .key3 => 4

def Key.only : Key → Keys
  | .key0 => ⟨true, false, false, false⟩
  | .key1 => ⟨false, true, false, false⟩
  | .key2 => ⟨false, false, true, false⟩
  | .key3 => ⟨false, false, false, true⟩

def allLow : Keys := ⟨false, false, false, false⟩

/-- Each press is two runs of the process. -/
def presses (ks : List Key) : List Keys := ks.flatMap fun k => [k.only, allLow]

theorem record_only (k : Key) :
    record k.only = fun attempt i => Function.update attempt i k.value := by
  cases k <;> rfl

theorem recordAll_only (k : Key) (attempt : Stages) : recordAll k.only attempt = fun _ => k.value := by
  have hloop : recordAll k.only attempt =
      commit attempt ((List.finRange 8).map fun i => (i, k.value)) := by
    rw [recordAll, record_only, commit, List.foldl_map]
  rw [hloop, commit_const]
  simp

theorem recordAll_low (attempt : Stages) : recordAll allLow attempt = attempt := rfl

/-- No answer repeats one key. -/
theorem answer_ne_const (k : State) (v : Int) : (fun _ => v) ≠ answer k := by
  intro h
  have h7 : v = answer k 7 := congrFun h 7
  have h6 : v = answer k 6 := congrFun h 6
  rw [h7] at h6
  revert h6
  cases k <;> decide

theorem press_nextStage (s : Signals) (k : Key) :
    (run process s [k.only, allLow]).nextStage = .s1 := by
  show (process (process s k.only) allLow).nextStage = .s1
  rw [process_nextStage, process_currentStage, process_attempt, recordAll_low, recordAll_only]
  exact if_neg (answer_ne_const _ _)

/-- After any presses the next stage is the first. -/
theorem presses_nextStage (s : Signals) (ks : List Key) (k : Key) :
    (run process s (presses (ks ++ [k]))).nextStage = .s1 := by
  rw [presses, List.flatMap_append, run_append]
  exact press_nextStage _ k

/-- **Eight keys advance the game as they should exactly if they are wrong or
the stage is the last.** Right keys in the stages s1 to s9 lead to s1 as well.
The entries of an answer may be numbered from either end. -/
theorem advances_iff (s : Signals) (keys : Fin 8 → Key) (entry : Fin 8 → Fin 8) :
    ((run process s (presses (List.ofFn keys))).nextStage =
      if ∀ i, (keys i).value = answer s.currentStage (entry i) then s.currentStage.following
      else .s1) ↔
    ¬ (∀ i, (keys i).value = answer s.currentStage (entry i)) ∨ s.currentStage = .s10 := by
  rw [List.ofFn_succ', List.concat_eq_append, presses_nextStage]
  have hlast : State.s1 = s.currentStage.following ↔ s.currentStage = .s10 := by
    cases s.currentStage <;> decide
  split
  · next hright => simp [hright, hlast]
  · next hwrong => simp [hwrong]

/-- The answer of stage 1, key by key, from power-up. -/
def rightKeys : Fin 8 → Key := ![.key0, .key1, .key2, .key3, .key0, .key1, .key2, .key3]

/-- Integer variables start at the leftmost value. -/
def powerUp : Signals := process ⟨.s1, .s1, fun _ _ => -2147483648, false⟩ allLow

theorem right_keys_lost :
    (∀ i, (rightKeys i).value = answer powerUp.currentStage (Fin.rev i)) ∧
      powerUp.currentStage.following = .s2 ∧
      (run process powerUp (presses (List.ofFn rightKeys))).nextStage = .s1 :=
  ⟨by decide, rfl, presses_nextStage powerUp
    [.key0, .key1, .key2, .key3, .key0, .key1, .key2] .key3⟩

end FpgaLabs.Simon
