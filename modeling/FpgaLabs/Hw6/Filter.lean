import FpgaLabs.Sync.Strobe
import Mathlib.Data.List.Induction

/-! The glitch filter `hw6`: four states, the first two waiting for x = 1 and
the last two for x = 0, with a counter of equal samples that is compared with
the threshold of the state. -/

namespace FpgaLabs.Hw6
open Sync

inductive State
  | a | b | c | d
  deriving DecidableEq, Repr

/-- The signals and the variable `count`, read as an unbounded number. -/
structure Signals where
  rst : Bool
  prState : State
  nxState : State
  t : Nat
  input1 : Bool
  count : Nat
  y : Bool
  deriving DecidableEq

/-- A clock edge with its sample, or a new level of `rst`. -/
inductive Event
  | clock (x : Bool)
  | reset (level : Bool)
  deriving DecidableEq

section
variable (time1 time2 : Nat)

/-- The upper section. In B and D `input1` keeps its value; x is in the
sensitivity list only. -/
def upper (s : Signals) : Signals :=
  match s.prState with
  | .a => { s with y := false, t := 1, input1 := true, nxState := .b }
  | .b => { s with y := false, t := time1, nxState := .c }
  | .c => { s with y := true, t := 2, input1 := false, nxState := .d }
  | .d => { s with y := true, t := time2, nxState := .a }

/-- The lower section at a clock edge. -/
def lower (s : Signals) (x : Bool) : Signals :=
  if s.rst then { s with prState := .a }
  else if x = s.input1 then
    if s.count + 1 = s.t then { s with count := 0, prState := s.nxState }
    else { s with count := s.count + 1 }
  else { s with count := 0 }

/-- An event, and the upper section after it. -/
def step (s : Signals) : Event → Signals
  | .clock x => upper time1 time2 (lower s x)
  | .reset level =>
    upper time1 time2 (if level then { s with rst := true, prState := .a }
      else { s with rst := false })

/-- The signals at their leftmost values, and the first run of the upper section. -/
def powerUp : Signals := upper time1 time2 ⟨false, .a, .a, 0, false, 0, false⟩

/-! ## The signals as functions of the state -/

/-- The level waited for. -/
def State.level : State → Bool
  | .a | .b => true
  | .c | .d => false

def State.next : State → State
  | .a => .b
  | .b => .c
  | .c => .d
  | .d => .a

def threshold : State → Nat
  | .a => 1
  | .b => time1
  | .c => 2
  | .d => time2

structure Settled (s : Signals) : Prop where
  nxState : s.nxState = s.prState.next
  t : s.t = threshold time1 time2 s.prState
  input1 : s.input1 = s.prState.level
  y : s.y = !s.prState.level
  held : s.rst = true → s.prState = .a

variable {time1 time2}

/-- The latched level is right if it was before, or in A and C anyway. -/
theorem upper_settled {s : Signals} (hr : s.rst = true → s.prState = .a)
    (h : s.prState = .b ∨ s.prState = .d → s.input1 = s.prState.level) :
    Settled time1 time2 (upper time1 time2 s) := by
  simp only [upper]
  cases hs : s.prState with
  | a => constructor <;> simp_all [State.next, threshold, State.level]
  | b =>
    have hl := h (Or.inl hs)
    constructor <;> simp_all [State.next, threshold, State.level]
  | c => constructor <;> simp_all [State.next, threshold, State.level]
  | d =>
    have hl := h (Or.inr hs)
    constructor <;> simp_all [State.next, threshold, State.level]

@[simp] theorem upper_prState (s : Signals) : (upper time1 time2 s).prState = s.prState := by
  simp only [upper]
  split <;> rfl

@[simp] theorem upper_count (s : Signals) : (upper time1 time2 s).count = s.count := by
  simp only [upper]
  split <;> rfl

@[simp] theorem upper_rst (s : Signals) : (upper time1 time2 s).rst = s.rst := by
  simp only [upper]
  split <;> rfl

theorem powerUp_settled : Settled time1 time2 (powerUp time1 time2) :=
  upper_settled (by simp) (by simp)

/-- What a clock edge does to state and counter. -/
theorem clock_cases {s : Signals} (h : Settled time1 time2 s) (x : Bool) :
    let s' := step time1 time2 s (.clock x)
    s'.rst = s.rst ∧
    (s.rst = true ∧ s'.prState = .a ∧ s'.count = s.count ∨
      s.rst = false ∧ x = s.prState.level ∧ s.count + 1 = threshold time1 time2 s.prState ∧
        s'.prState = s.prState.next ∧ s'.count = 0 ∨
      s.rst = false ∧ x = s.prState.level ∧ s.count + 1 ≠ threshold time1 time2 s.prState ∧
        s'.prState = s.prState ∧ s'.count = s.count + 1 ∨
      s.rst = false ∧ x ≠ s.prState.level ∧ s'.prState = s.prState ∧ s'.count = 0) := by
  obtain ⟨hn, ht, hi, -, -⟩ := h
  simp only [step, upper_rst, upper_prState, upper_count, lower, hn, ht, hi]
  cases s.rst with
  | true => simp
  | false =>
    by_cases hx : x = s.prState.level
    · by_cases hc : s.count + 1 = threshold time1 time2 s.prState <;> simp [hx, hc]
    · simp [hx]

theorem State.level_next {p : State} (h : p.next = .b ∨ p.next = .d) : p.next.level = p.level := by
  cases p <;> simp [State.next, State.level] at h ⊢

theorem step_settled (s : Signals) (e : Event) (h : Settled time1 time2 s) :
    Settled time1 time2 (step time1 time2 s e) := by
  obtain ⟨hn, -, hi, -, hr⟩ := h
  cases e with
  | clock x =>
    show Settled time1 time2 (upper time1 time2 (lower s x))
    simp only [lower]
    split
    · exact upper_settled (fun _ => rfl) (by simp)
    · next hlow =>
      split
      · split
        · refine upper_settled (fun hh => absurd hh hlow) ?_
          simp only [hn, hi]
          exact fun hp => (State.level_next hp).symm
        · exact upper_settled hr fun _ => hi
      · exact upper_settled hr fun _ => hi
  | reset level =>
    cases level with
    | false =>
      show Settled time1 time2 (upper time1 time2 { s with rst := false })
      exact upper_settled (by simp) fun _ => hi
    | true =>
      show Settled time1 time2 (upper time1 time2 { s with rst := true, prState := .a })
      exact upper_settled (fun _ => rfl) (by simp)

/-! ## The samples behind a change of y -/

/-- The sample taken at an event: `rst` and x. -/
def view (s : Signals) : Event → Option (Bool × Bool)
  | .clock x => some (s.rst, x)
  | .reset _ => none

/-- In B and D the counter counts the samples at the end of the history. -/
def Recent (s : Signals) (history : List (Bool × Bool)) : Prop :=
  s.prState = .b ∨ s.prState = .d → List.replicate s.count (false, s.prState.level) <:+ history

theorem replicate_snoc {B : Type} {n : Nat} {v : B} {l : List B} (h : List.replicate n v <:+ l) :
    List.replicate (n + 1) v <:+ l ++ [v] := by
  obtain ⟨older, rfl⟩ := h
  exact ⟨older, by rw [List.replicate_succ', List.append_assoc]⟩

theorem step_recent {s : Signals} {history : List (Bool × Bool)} (e : Event)
    (h : Settled time1 time2 s) (hr : Recent s history) :
    Recent (step time1 time2 s e) (history ++ (view s e).toList) := by
  intro hp
  cases e with
  | clock x =>
    obtain ⟨-, hc⟩ := clock_cases h x
    rcases hc with ⟨-, ha, -⟩ | ⟨-, -, -, -, h0⟩ | ⟨hlow, hx, -, hs, hcount⟩ | ⟨-, -, -, h0⟩
    · simp [ha] at hp
    · rw [h0]
      exact List.nil_suffix
    · rw [hs] at hp ⊢
      rw [hcount, view, hlow, hx]
      exact replicate_snoc (hr hp)
    · rw [h0]
      exact List.nil_suffix
  | reset level =>
    rw [view, Option.toList_none, List.append_nil]
    cases level with
    | false =>
      simp only [step, upper_prState, upper_count] at hp ⊢
      exact hr hp
    | true => simp [step] at hp

theorem run_recent (es : List Event) :
    Settled time1 time2 (run (step time1 time2) (powerUp time1 time2) es) ∧
      Recent (run (step time1 time2) (powerUp time1 time2) es)
        (inputs (step time1 time2) view (powerUp time1 time2) es) := by
  induction es using List.reverseRecOn with
  | nil => exact ⟨powerUp_settled, by simp [Recent, powerUp]⟩
  | append_singleton es e ih =>
    rw [run_append, inputs_append]
    refine ⟨step_settled _ e ih.1, ?_⟩
    have hstep := step_recent e ih.1 ih.2
    simpa [inputs] using hstep

/-- A change of y, other than by a reset: the threshold is met in B or D. -/
theorem y_changes {s : Signals} {e : Event} (h : Settled time1 time2 s)
    (hy : (step time1 time2 s e).y ≠ s.y) (he : e ≠ .reset true) :
    (s.prState = .b ∨ s.prState = .d) ∧ e = .clock s.prState.level ∧ s.rst = false ∧
      s.count + 1 = threshold time1 time2 s.prState := by
  have hy' := (step_settled s e h).y
  rw [hy', h.y] at hy
  cases e with
  | clock x =>
    obtain ⟨-, hc⟩ := clock_cases h x
    rcases hc with ⟨hr, ha, -⟩ | ⟨hr, hx, ht, hs, -⟩ | ⟨-, -, -, hs, -⟩ | ⟨-, -, hs, -⟩
    · rw [ha, h.held hr] at hy
      exact absurd rfl hy
    · refine ⟨?_, by rw [hx], hr, ht⟩
      rw [hs] at hy
      revert hy
      cases s.prState <;> simp [State.next, State.level]
    · simp [hs] at hy
    · simp [hs] at hy
  | reset level =>
    cases level with
    | false => simp [step] at hy
    | true => exact absurd rfl he

/-- The samples before such a change to the level v. -/
theorem y_samples (es : List Event) (e : Event) (v : Bool) (he : e ≠ .reset true)
    (hy : (run (step time1 time2) (powerUp time1 time2) es).y = !v)
    (hy' : (run (step time1 time2) (powerUp time1 time2) (es ++ [e])).y = v) :
    e = .clock v ∧ List.replicate (if v then time1 else time2) (false, v) <:+
      inputs (step time1 time2) view (powerUp time1 time2) (es ++ [e]) := by
  obtain ⟨hset, hrec⟩ :
      Settled time1 time2 (run (step time1 time2) (powerUp time1 time2) es) ∧ _ := run_recent es
  rw [run_append] at hy'
  rw [inputs_append]
  generalize run (step time1 time2) (powerUp time1 time2) es = s at *
  have hne : (step time1 time2 s e).y ≠ s.y := by
    rw [hy, show (step time1 time2 s e).y = v from hy']
    simp
  obtain ⟨hp, rfl, hr, ht⟩ := y_changes hset hne he
  have hlevel : s.prState.level = v := by simpa [hset.y] using hy
  have hthreshold : threshold time1 time2 s.prState = if v then time1 else time2 := by
    rcases hp with hp | hp <;> rw [← hlevel, hp] <;> rfl
  refine ⟨by rw [hlevel], ?_⟩
  rw [← hthreshold, ← ht, ← hlevel]
  simp only [inputs, view, hr, Option.toList_some, List.append_nil]
  exact replicate_snoc (hrec hp)

/-! ## Enough equal samples -/

/-- The counter is below the threshold of the state; so it is from power-up on
as long as no reset leaves a count behind. -/
def Below (time1 time2 : Nat) (s : Signals) : Prop := s.count < threshold time1 time2 s.prState

theorem threshold_pos (h1 : 1 ≤ time1) (h2 : 2 ≤ time2) (p : State) :
    0 < threshold time1 time2 p := by
  cases p <;> simp only [threshold] <;> omega

theorem powerUp_below : Below time1 time2 (powerUp time1 time2) := Nat.zero_lt_one

theorem clock_below (h1 : 1 ≤ time1) (h2 : 2 ≤ time2) {s : Signals} (h : Settled time1 time2 s)
    (hb : Below time1 time2 s) (x : Bool) : Below time1 time2 (step time1 time2 s (.clock x)) := by
  obtain ⟨-, hc⟩ := clock_cases h x
  simp only [Below] at hb ⊢
  rcases hc with ⟨hr, ha, hk⟩ | ⟨-, -, -, -, h0⟩ | ⟨-, -, hne, hs, hk⟩ | ⟨-, -, -, h0⟩
  · rw [ha, hk, ← h.held hr]
    exact hb
  · rw [h0]
    exact threshold_pos h1 h2 _
  · rw [hs, hk]
    omega
  · rw [h0]
    exact threshold_pos h1 h2 _

/-- Samples equal to x that take the machine to a state with y equal to x. -/
def remaining (time1 time2 : Nat) (x : Bool) (s : Signals) : Nat :=
  if s.prState.level = x then
    threshold time1 time2 s.prState - s.count +
      (if s.prState.next.level = x then threshold time1 time2 s.prState.next else 0)
  else 0

theorem remaining_le (x : Bool) (s : Signals) :
    remaining time1 time2 x s ≤ if x then time1 + 1 else time2 + 2 := by
  simp only [remaining]
  cases x <;> cases s.prState <;> simp [State.level, State.next, threshold] <;> omega

theorem y_of_remaining {x : Bool} {s : Signals} (h : Settled time1 time2 s)
    (hb : Below time1 time2 s) (hz : remaining time1 time2 x s = 0) : s.y = x := by
  simp only [Below] at hb
  simp only [remaining] at hz
  rw [h.y]
  split at hz
  · omega
  · next hl => revert hl; cases s.prState.level <;> cases x <;> simp

theorem clock_remaining {x : Bool} {s : Signals} (h : Settled time1 time2 s)
    (hr : s.rst = false) (hb : Below time1 time2 s) :
    remaining time1 time2 x (step time1 time2 s (.clock x)) ≤ remaining time1 time2 x s - 1 := by
  obtain ⟨-, hc⟩ := clock_cases h x
  simp only [Below] at hb
  simp only [remaining]
  rcases hc with ⟨hr', -⟩ | ⟨-, hx, ht, hs, hk⟩ | ⟨-, hx, -, hs, hk⟩ | ⟨-, hx, hs, -⟩
  · simp [hr] at hr'
  · -- the next state: its own threshold is what remains, if it waits for x
    rw [hs, hk, hx]
    revert ht
    cases s.prState <;> simp [State.level, State.next, threshold] <;> omega
  · rw [hs, hk, hx]
    simp only [↓reduceIte]
    omega
  · rw [hs, if_neg (Ne.symm hx)]
    exact Nat.zero_le _

/-- As many samples x as remain make y equal to x. -/
theorem run_remaining (h1 : 1 ≤ time1) (h2 : 2 ≤ time2) {x : Bool} {n : Nat} {s : Signals}
    (h : Settled time1 time2 s) (hr : s.rst = false) (hb : Below time1 time2 s)
    (hn : remaining time1 time2 x s ≤ n) :
    (run (step time1 time2) s (List.replicate n (.clock x))).y = x := by
  induction n generalizing s with
  | zero => exact y_of_remaining h hb (Nat.le_zero.mp hn)
  | succ n ih =>
    have hle := clock_remaining (x := x) h hr hb
    rw [List.replicate_succ, run_cons]
    refine ih (step_settled s _ h) ?_ (clock_below h1 h2 h hb x) (by omega)
    exact (clock_cases h x).1.trans hr

theorem run_clocks (h1 : 1 ≤ time1) (h2 : 2 ≤ time2) {s : Signals}
    (h : Settled time1 time2 s) (hr : s.rst = false) (hb : Below time1 time2 s) (xs : List Bool) :
    Settled time1 time2 (run (step time1 time2) s (xs.map .clock)) ∧
      (run (step time1 time2) s (xs.map .clock)).rst = false ∧
      Below time1 time2 (run (step time1 time2) s (xs.map .clock)) := by
  induction xs generalizing s with
  | nil => exact ⟨h, hr, hb⟩
  | cons x xs ih =>
    exact ih (step_settled s _ h) ((clock_cases h x).1.trans hr) (clock_below h1 h2 h hb x)

/-- **The filter.** For all thresholds: y rises only at a clock edge that ends
time1 samples 1 taken with `rst` low, and falls, unless by a reset, only at one
that ends time2 samples 0; and in a run without resets time1 + 1 samples 1 make
y high, time2 + 2 samples 0 make it low. -/
theorem filters (h1 : 1 ≤ time1) (h2 : max 2 time1 ≤ time2) :
    (∀ es e,
      let s := run (step time1 time2) (powerUp time1 time2) es
      let s' := run (step time1 time2) (powerUp time1 time2) (es ++ [e])
      let samples := inputs (step time1 time2) view (powerUp time1 time2) (es ++ [e])
      (s.y = false → s'.y = true →
        e = .clock true ∧ List.replicate time1 (false, true) <:+ samples) ∧
      (s.y = true → s'.y = false → e ≠ .reset true →
        e = .clock false ∧ List.replicate time2 (false, false) <:+ samples)) ∧
    (∀ xs : List Bool,
      (run (step time1 time2) (powerUp time1 time2)
        ((xs ++ List.replicate (time1 + 1) true).map .clock)).y = true ∧
      (run (step time1 time2) (powerUp time1 time2)
        ((xs ++ List.replicate (time2 + 2) false).map .clock)).y = false) := by
  have h2' : 2 ≤ time2 := Nat.le_trans (Nat.le_max_left 2 time1) h2
  refine ⟨fun es e => ⟨fun hy hy' => ?_, fun hy hy' he => ?_⟩, fun xs => ?_⟩
  · have he : e ≠ .reset true := by
      rintro rfl
      simp [step, upper] at hy'
    exact y_samples es e true he hy hy'
  · exact y_samples es e false he hy hy'
  · obtain ⟨hset, hlow, hb⟩ := run_clocks h1 h2' powerUp_settled rfl powerUp_below xs
    simp only [List.map_append, List.map_replicate, run_append]
    exact ⟨run_remaining h1 h2' hset hlow hb (remaining_le true _),
      run_remaining h1 h2' hset hlow hb (remaining_le false _)⟩

/-- The generics of the source, and four samples 1. -/
theorem filters_default :
    1 ≤ 3 ∧ max 2 3 ≤ 5 ∧
      (run (step 3 5) (powerUp 3 5) (List.replicate 4 (.clock true))).y = true :=
  ⟨by decide, by decide, ((filters (by decide) (by decide)).2 []).1⟩

end

end FpgaLabs.Hw6
