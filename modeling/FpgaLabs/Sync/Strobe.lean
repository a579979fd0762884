import FpgaLabs.Sync.Run

/-! What a device on a strobed bus receives: the bus value at each falling edge
of the enable line. Runs are also seen through a projection that only some
steps move, as of a process that waits for a clock enable. -/

namespace FpgaLabs.Sync

/-- The bus value taken by the device, if the enable line falls in this step. -/
def strobe {S B : Type} (en : S → Bool) (bus : S → B) (s s' : S) : List B :=
  if en s && !en s' then [bus s] else []

/-- Everything strobed in a run. -/
def strobes {S E B : Type} (step : S → E → S) (en : S → Bool) (bus : S → B) : S → List E → List B
  | _, [] => []
  | s, e :: es => strobe en bus s (step s e) ++ strobes step en bus (step s e) es

@[simp] theorem strobes_append {S E B : Type} (step : S → E → S) (en : S → Bool) (bus : S → B)
    (s : S) (es fs : List E) :
    strobes step en bus s (es ++ fs) =
      strobes step en bus s es ++ strobes step en bus (run step s es) fs := by
  induction es generalizing s with
  | nil => rfl
  | cons e es ih => simp [strobes, ih]

/-- The first `n` events of an infinite input. -/
def upTo {E : Type} (input : Nat → E) (n : Nat) : List E := (List.range n).map input

@[simp] theorem upTo_zero {E : Type} (input : Nat → E) : upTo input 0 = [] := rfl

theorem upTo_succ {E : Type} (input : Nat → E) (n : Nat) :
    upTo input (n + 1) = upTo input n ++ [input n] := by
  simp [upTo, List.range_succ]

/-! ## Projections -/

/-- The inputs that reach the projected machine in a run. -/
def inputs {S E F : Type} (step : S → E → S) (view : S → E → Option F) : S → List E → List F
  | _, [] => []
  | s, e :: es => (view s e).toList ++ inputs step view (step s e) es

@[simp] theorem inputs_append {S E F : Type} (step : S → E → S) (view : S → E → Option F) (s : S)
    (es fs : List E) :
    inputs step view s (es ++ fs) =
      inputs step view s es ++ inputs step view (run step s es) fs := by
  induction es generalizing s with
  | nil => rfl
  | cons e es ih => simp [inputs, ih]

/-- `proj` moves like `inner` on the steps that have a view, else not at all. -/
def Projects {S D E F : Type} (step : S → E → S) (inner : D → F → D) (proj : S → D)
    (view : S → E → Option F) : Prop :=
  ∀ s e, proj (step s e) = (view s e).elim (proj s) (inner (proj s))

theorem Projects.run_eq {S D E F : Type} {step : S → E → S} {inner : D → F → D} {proj : S → D}
    {view : S → E → Option F} (h : Projects step inner proj view) (s : S) (es : List E) :
    proj (run step s es) = run inner (proj s) (inputs step view s es) := by
  induction es generalizing s with
  | nil => rfl
  | cons e es ih =>
    have hs := h s e
    rw [run_cons, ih, hs]
    cases hv : view s e <;> simp [inputs, hv]

theorem Projects.strobes_eq {S D E F B : Type} {step : S → E → S} {inner : D → F → D}
    {proj : S → D} {view : S → E → Option F} (h : Projects step inner proj view) (en : D → Bool)
    (bus : D → B) (s : S) (es : List E) :
    strobes step (fun s => en (proj s)) (fun s => bus (proj s)) s es =
      strobes inner en bus (proj s) (inputs step view s es) := by
  induction es generalizing s with
  | nil => rfl
  | cons e es ih =>
    have hs := h s e
    simp only [strobes, inputs, ih]
    cases hv : view s e with
    | none =>
      have hstay : proj (step s e) = proj s := by simp [hs, hv]
      simp [strobe, hstay]
    | some f =>
      have hmove : proj (step s e) = inner (proj s) f := by simp [hs, hv]
      simp [strobe, strobes, hmove]

/-! ## Steps that are runs of an inner machine -/

/-- Everything the steps of a run hand on. -/
def emitted {S E F : Type} (step : S → E → S) (out : S → E → List F) : S → List E → List F
  | _, [] => []
  | s, e :: es => out s e ++ emitted step out (step s e) es

theorem emitted_append {S E F : Type} (step : S → E → S) (out : S → E → List F) (s : S)
    (es fs : List E) :
    emitted step out s (es ++ fs) = emitted step out s es ++ emitted step out (run step s es) fs := by
  induction es generalizing s with
  | nil => rfl
  | cons e es ih => simp [emitted, ih]

theorem run_emitted {S D E F : Type} {step : S → E → S} {inner : D → F → D} (proj : S → D)
    {out : S → E → List F} (h : ∀ s e, proj (step s e) = run inner (proj s) (out s e)) (s : S)
    (es : List E) : proj (run step s es) = run inner (proj s) (emitted step out s es) := by
  induction es generalizing s with
  | nil => rfl
  | cons e es ih => rw [run_cons, ih, h, emitted, run_append]

theorem eachStep_emitted {S D E F : Type} {step : S → E → S} {inner : D → F → D} (proj : S → D)
    {out : S → E → List F} (h : ∀ s e, proj (step s e) = run inner (proj s) (out s e))
    {P : S → E → Prop} {Q : D → F → Prop}
    (hP : ∀ s e, P s e ↔ EachStep inner Q (proj s) (out s e)) (s : S) (es : List E) :
    EachStep step P s es ↔ EachStep inner Q (proj s) (emitted step out s es) := by
  induction es generalizing s with
  | nil => exact Iff.rfl
  | cons e es ih => rw [EachStep, emitted, eachStep_append, ih, hP, h]

/-- Two runs in lockstep emit the same. -/
theorem emitted_lockstep {S T E F : Type} {step : S → E → S} {step' : T → E → T}
    {out : S → E → List F} {out' : T → E → List F} {P : S → E → Prop} (R : S → T → Prop)
    (h : ∀ s t e, R s t → P s e → R (step s e) (step' t e) ∧ out s e = out' t e) {s : S} {t : T}
    {es : List E} (hr : R s t) (hes : EachStep step P s es) :
    emitted step out s es = emitted step' out' t es := by
  induction es generalizing s t with
  | nil => rfl
  | cons e es ih =>
    obtain ⟨hnext, hout⟩ := h s t e hr hes.1
    rw [emitted, emitted, hout, ih hnext hes.2]

end FpgaLabs.Sync
