import FpgaLabs.Sync.Run

/-! Sticky flags: an event sets the flag, an acknowledgement clears it, and of
the two in one step the clearing wins. What the flag says about the run before
it, and how many of the events it has lost. -/

namespace FpgaLabs.Sync

def latch (clear set flag : Bool) : Bool := if clear then false else if set then true else flag

/-- How many steps of the run meet `p`. -/
def tally {S E : Type} (step : S → E → S) (p : S → E → Bool) : S → List E → Nat
  | _, [] => 0
  | s, e :: es => (p s e).toNat + tally step p (step s e) es

@[simp] theorem tally_append {S E : Type} (step : S → E → S) (p : S → E → Bool) (s : S)
    (es fs : List E) :
    tally step p s (es ++ fs) = tally step p s es + tally step p (run step s es) fs := by
  induction es generalizing s with
  | nil => simp [tally]
  | cons e es ih => simp [tally, ih, Nat.add_assoc]

theorem tally_eq_zero {S E : Type} {step : S → E → S} {p : S → E → Bool} {s : S} {es : List E} :
    tally step p s es = 0 ↔ EachStep step (fun s e => p s e = false) s es := by
  induction es generalizing s with
  | nil => exact iff_of_true rfl trivial
  | cons e es ih =>
    rw [tally, EachStep, Nat.add_eq_zero_iff, ih]
    cases p s e <;> simp

/-- **Balance rule**: what is owed grows by what comes up and falls by what is done. -/
theorem tally_balance {S E : Type} {step : S → E → S} {owed : S → Nat} {up done : S → E → Bool}
    (I : S → Prop) (h : ∀ s e, I s →
      I (step s e) ∧ owed s + (up s e).toNat = (done s e).toNat + owed (step s e)) {s : S}
    (hs : I s) (es : List E) :
    owed s + tally step up s es = tally step done s es + owed (run step s es) := by
  induction es generalizing s with
  | nil => simp [tally]
  | cons e es ih =>
    obtain ⟨hi, hstep⟩ := h s e hs
    have hrest := ih hi
    rw [tally, tally, run_cons]
    omega

/-- A counter that runs down and is set to `top` after zero. -/
theorem tally_period {S E : Type} {step : S → E → S} {count : S → Nat} {top : Nat}
    (h : ∀ s e, count (step s e) = if count s = 0 then top else count s - 1) (s : S)
    (es : List E) :
    count (run step s es) + es.length =
      count s + (top + 1) * tally step (fun s _ => count s == 0) s es := by
  induction es generalizing s with
  | nil => simp [tally]
  | cons e es ih =>
    have hrest := ih (step s e)
    rw [run_cons, List.length_cons, tally, Nat.mul_add]
    rw [h] at hrest
    by_cases hc : count s = 0
    · rw [if_pos hc] at hrest
      rw [hc, beq_self_eq_true, Bool.toNat_true, Nat.mul_one]
      omega
    · rw [if_neg hc] at hrest
      rw [beq_false_of_ne hc, Bool.toNat_false, Nat.mul_zero]
      omega

section
variable {S E : Type} {step : S → E → S} {flag : S → Bool} {clear set : S → E → Bool}

/-- **History rule**: the flag is set after a run exactly when some step set it,
or it was set at the start, and no step cleared it from there on. -/
theorem latch_run (h : ∀ s e, flag (step s e) = latch (clear s e) (set s e) (flag s)) {s : S}
    {es : List E} :
    flag (run step s es) = true ↔
      (∃ p e q, es = p ++ e :: q ∧ set (run step s p) e = true ∧
        EachStep step (fun s e => clear s e = false) (run step s p) (e :: q)) ∨
      flag s = true ∧ EachStep step (fun s e => clear s e = false) s es := by
  induction es generalizing s with
  | nil => simp [EachStep]
  | cons e es ih =>
    rw [run_cons, ih, h]
    constructor
    · rintro (⟨p, f, q, rfl, hset, hclear⟩ | ⟨hflag, hclear⟩)
      · exact .inl ⟨e :: p, f, q, rfl, hset, hclear⟩
      · cases hc : clear s e with
        | true => simp [latch, hc] at hflag
        | false =>
          cases ht : set s e with
          | true => exact .inl ⟨[], e, es, rfl, ht, hc, hclear⟩
          | false => exact .inr ⟨by simpa [latch, hc, ht] using hflag, hc, hclear⟩
    · rintro (⟨p, f, q, hes, hset, hclear⟩ | ⟨hflag, hc, hclear⟩)
      · cases p with
        | nil =>
          obtain ⟨rfl, rfl⟩ := List.cons.inj hes
          obtain ⟨hc, hrest⟩ := hclear
          rw [run_nil] at hset hc
          exact .inr ⟨by simp [latch, hc, hset], hrest⟩
        | cons g p =>
          obtain ⟨rfl, rfl⟩ := List.cons.inj hes
          exact .inl ⟨p, f, q, rfl, hset, hclear⟩
      · exact .inr ⟨by simp [latch, hc, hflag], hclear⟩

/-- **Accounting rule**: an event is acknowledged, still pending, or it met the
flag already set or being cleared. -/
theorem latch_tally (h : ∀ s e, flag (step s e) = latch (clear s e) (set s e) (flag s)) (s : S)
    (es : List E) :
    (flag s).toNat + tally step set s es =
      (flag (run step s es)).toNat + tally step (fun s e => clear s e && flag s) s es +
        tally step (fun s e => set s e && (clear s e || flag s)) s es := by
  induction es generalizing s with
  | nil => simp [tally]
  | cons e es ih =>
    have hone : (flag s).toNat + (set s e).toNat =
        (flag (step s e)).toNat + (clear s e && flag s).toNat +
          (set s e && (clear s e || flag s)).toNat := by
      rw [h]
      cases flag s <;> cases set s e <;> cases clear s e <;> rfl
    have hrest := ih (step s e)
    simp only [tally, run_cons]
    omega

end

end FpgaLabs.Sync
