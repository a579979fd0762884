import Mathlib.Logic.Function.Iterate

/-! Forward simulation where one abstract step takes several concrete steps,
their number depending on the abstract state. -/

namespace FpgaLabs.Sync

/-- `n` steps of a partial step function; `none` once a step is undefined. -/
def runN {A : Type} (f : A → Option A) : Nat → A → Option A
  | 0, a => some a
  | n + 1, a => (f a).bind (runN f n)

/-- The cost of the first `n` steps. -/
def totalCost {A : Type} (f : A → Option A) (cost : A → Nat) : Nat → A → Nat
  | 0, _ => 0
  | n + 1, a => cost a + (f a).elim 0 (totalCost f cost n)

/-- **Simulation rule.** If from every ready state the next abstract step is
matched by `cost` concrete steps that end in a ready state, then `n` abstract
steps are matched by their total cost. -/
theorem simulation {C A : Type} {step : C → C} {abs : C → A} {f : A → Option A} {cost : A → Nat}
    (Ready : C → Prop)
    (h : ∀ c a, Ready c → f (abs c) = some a →
      Ready (step^[cost (abs c)] c) ∧ abs (step^[cost (abs c)] c) = a)
    {n : Nat} {c : C} {a : A} (hc : Ready c) (hn : runN f n (abs c) = some a) :
    Ready (step^[totalCost f cost n (abs c)] c) ∧
      abs (step^[totalCost f cost n (abs c)] c) = a := by
  induction n generalizing c with
  | zero =>
    simp only [runN, Option.some.injEq] at hn
    exact ⟨hc, hn⟩
  | succ n ih =>
    cases hf : f (abs c) with
    | none => simp [runN, hf] at hn
    | some b =>
      obtain ⟨hr, hb⟩ := h c b hc hf
      have hrest : runN f n (abs (step^[cost (abs c)] c)) = some a := by
        simpa [runN, hf, hb] using hn
      have := ih hr hrest
      rw [hb] at this
      simpa only [totalCost, hf, Option.elim_some, Nat.add_comm (cost (abs c)),
        Function.iterate_add_apply] using this

end FpgaLabs.Sync
