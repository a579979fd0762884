import Mathlib.Data.List.Basic

/-! Runs of deterministic machines. A machine is a step function from a state
and an event to the next state; events are clock edges, asynchronous inputs
or whatever else the design reacts to. The induction over a run is done here
once: later modules prove what one step does. -/

namespace FpgaLabs.Sync

/-- The state after the events `es`, taken in order. -/
def run {S E : Type} (step : S → E → S) (s : S) (es : List E) : S := es.foldl step s

@[simp] theorem run_nil {S E : Type} (step : S → E → S) (s : S) : run step s [] = s := rfl

@[simp] theorem run_cons {S E : Type} (step : S → E → S) (s : S) (e : E) (es : List E) :
    run step s (e :: es) = run step (step s e) es := rfl

@[simp] theorem run_append {S E : Type} (step : S → E → S) (s : S) (es fs : List E) :
    run step s (es ++ fs) = run step (run step s es) fs := List.foldl_append

/-- `P` holds at every step of the run: of each event and the state it meets. -/
def EachStep {S E : Type} (step : S → E → S) (P : S → E → Prop) : S → List E → Prop
  | _, [] => True
  | s, e :: es => P s e ∧ EachStep step P (step s e) es

@[simp] theorem eachStep_append {S E : Type} (step : S → E → S) (P : S → E → Prop) (s : S)
    (es fs : List E) :
    EachStep step P s (es ++ fs) ↔ EachStep step P s es ∧ EachStep step P (run step s es) fs := by
  induction es generalizing s with
  | nil => simp [EachStep]
  | cons e es ih => simp [EachStep, ih, and_assoc]

/-- The same, split by split. -/
theorem eachStep_iff {S E : Type} {step : S → E → S} {P : S → E → Prop} {s : S} {es : List E} :
    EachStep step P s es ↔ ∀ p e q, es = p ++ e :: q → P (run step s p) e := by
  constructor
  · intro h p e q hes
    subst hes
    exact ((eachStep_append step P s p (e :: q)).mp h).2.1
  · intro h
    induction es generalizing s with
    | nil => trivial
    | cons e es ih =>
      refine ⟨h [] e es rfl, ih fun p f q hes => ?_⟩
      subst hes
      exact h (e :: p) f q rfl

/-- What no step of the run changes, the run does not change. -/
theorem run_stays {S E V : Type} {step : S → E → S} (f : S → V) {s : S} {es : List E}
    (h : EachStep step (fun s e => f (step s e) = f s) s es) : f (run step s es) = f s := by
  induction es generalizing s with
  | nil => rfl
  | cons e es ih => exact (ih h.2).trans h.1

/-- **Invariant rule**: what every step preserves, every run preserves. -/
theorem run_preserves {S E : Type} {step : S → E → S} (I : S → Prop)
    (h : ∀ s e, I s → I (step s e)) {s : S} {es : List E} (hs : I s) : I (run step s es) := by
  induction es generalizing s with
  | nil => exact hs
  | cons e es ih => exact ih (h s e hs)

/-- The same for a run whose steps all meet `P`. -/
theorem EachStep.run_invariant {S E : Type} {step : S → E → S} {P : S → E → Prop} (I : S → Prop)
    (h : ∀ s e, I s → P s e → I (step s e)) {s : S} {es : List E} (hs : I s)
    (hes : EachStep step P s es) : I (run step s es) := by
  induction es generalizing s with
  | nil => exact hs
  | cons e es ih => exact ih (h s e hs hes.1) hes.2

/-- What an invariant gives at one step holds at every step. -/
theorem EachStep.of_invariant {S E : Type} {step : S → E → S} {P Q : S → E → Prop} (I : S → Prop)
    (h : ∀ s e, I s → P s e → Q s e ∧ I (step s e)) {s : S} {es : List E} (hs : I s)
    (hes : EachStep step P s es) : EachStep step Q s es := by
  induction es generalizing s with
  | nil => trivial
  | cons e es ih =>
    obtain ⟨hq, hi⟩ := h s e hs hes.1
    exact ⟨hq, ih hi hes.2⟩

/-- **Lockstep rule**: a relation kept by every pair of steps is kept by runs. -/
theorem run_lockstep {S T E : Type} {step : S → E → S} {step' : T → E → T} {P : S → E → Prop}
    (R : S → T → Prop) (h : ∀ s t e, R s t → P s e → R (step s e) (step' t e)) {s : S} {t : T}
    {es : List E} (hr : R s t) (hes : EachStep step P s es) :
    R (run step s es) (run step' t es) := by
  induction es generalizing s t with
  | nil => exact hr
  | cons e es ih => exact ih (h s t e hr hes.1) hes.2

/-- **Exact lockstep rule**: if a step keeps the relation exactly under `P`, then
all states of two runs are related exactly when every step meets `P`. -/
theorem run_lockstep_iff {S T E : Type} {step : S → E → S} {step' : T → E → T} {P : S → E → Prop}
    (R : S → T → Prop) (h : ∀ s t e, R s t → (R (step s e) (step' t e) ↔ P s e)) {s : S} {t : T}
    {es : List E} (hr : R s t) :
    (∀ p, p <+: es → R (run step s p) (run step' t p)) ↔ EachStep step P s es := by
  induction es generalizing s t with
  | nil =>
    refine iff_of_true ?_ trivial
    intro p hp
    rw [List.prefix_nil.mp hp]
    exact hr
  | cons e es ih =>
    constructor
    · intro hall
      have hone : R (step s e) (step' t e) := hall [e] (by simp)
      refine ⟨(h s t e hr).mp hone, (ih hone).mp fun p hp => ?_⟩
      exact hall (e :: p) (List.cons_prefix_cons.mpr ⟨rfl, hp⟩)
    · rintro ⟨he, hes⟩ p hp
      cases p with
      | nil => exact hr
      | cons f p =>
        obtain ⟨rfl, hp'⟩ := List.cons_prefix_cons.mp hp
        exact (ih ((h s t f hr).mpr he)).mpr hes p hp'

/-- A property of all states of a run, step by step. -/
theorem prefixes_iff {S E : Type} {step : S → E → S} (G : S → Prop) {s : S} {es : List E}
    (hs : G s) :
    (∀ p, p <+: es → G (run step s p)) ↔ EachStep step (fun s e => G (step s e)) s es :=
  @run_lockstep_iff S S E step step _ (fun s _ => G s) (fun _ _ _ _ => Iff.rfl) s s es hs

/-- States that some run from a state of `Init` ends in. -/
def Reachable {S E : Type} (step : S → E → S) (Init : S → Prop) (s : S) : Prop :=
  ∃ s₀ es, Init s₀ ∧ run step s₀ es = s

theorem Reachable.invariant {S E : Type} {step : S → E → S} {Init : S → Prop} (I : S → Prop)
    (h₀ : ∀ s, Init s → I s) (h : ∀ s e, I s → I (step s e)) {s : S}
    (hs : Reachable step Init s) : I s := by
  obtain ⟨s₀, es, hi, rfl⟩ := hs
  exact run_preserves I h (h₀ s₀ hi)

end FpgaLabs.Sync
