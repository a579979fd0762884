import Mathlib.Algebra.Ring.Nat

/-! Loops over a range of indices, and numbers given by their bits. -/

namespace FpgaLabs.Sync

/-- **Loop rule**: an invariant that the body for `i` carries from `i` to
`i + 1` holds after the loop `for i in 0 to n-1`. -/
theorem loop_invariant {S : Type} {n : Nat} {body : S → Fin n → S} (I : Nat → S → Prop)
    (h : ∀ (i : Fin n) (s : S), I i s → I (i + 1) (body s i)) {s : S} (hs : I 0 s) :
    I n (Fin.foldl n body s) := by
  induction n with
  | zero => exact hs
  | succ n ih =>
    rw [Fin.foldl_succ_last]
    refine h (Fin.last n) _ (ih fun i s hi => ?_)
    exact h i.castSucc s hi

/-- The highest bit, split off. -/
theorem ofBits_last {n : Nat} (f : Fin (n + 1) → Bool) :
    Nat.ofBits f = Nat.ofBits (f ∘ Fin.castSucc) + 2 ^ n * (f (Fin.last n)).toNat := by
  induction n with
  | zero => simp [Nat.ofBits_succ]
  | succ n ih =>
    have hhigh := ih (f ∘ Fin.succ)
    have hshift : (f ∘ Fin.succ) ∘ Fin.castSucc = (f ∘ Fin.castSucc) ∘ Fin.succ := rfl
    have hlast : (f ∘ Fin.succ) (Fin.last n) = f (Fin.last (n + 1)) := rfl
    have hlow : (f ∘ Fin.castSucc) 0 = f 0 := rfl
    rw [hshift, hlast] at hhigh
    rw [Nat.ofBits_succ, Nat.ofBits_succ (f ∘ Fin.castSucc), hhigh, hlow, Nat.pow_succ,
      Nat.mul_comm _ 2, Nat.mul_assoc]
    omega

end FpgaLabs.Sync
