import FpgaLabs.Sync.Loop
import Mathlib.Logic.Function.Basic

/-! The generic ripple adder `hw5.vhd`. -/

namespace FpgaLabs.Hw5
open Sync

/-- The variable `c` and the output `s`. -/
structure Vectors (N : Nat) where
  c : Fin (N + 1) → Bool
  s : Fin N → Bool

/-- The body of the loop. -/
def body {N : Nat} (a b : Fin N → Bool) (v : Vectors N) (i : Fin N) : Vectors N where
  s := Function.update v.s i (a i ^^ b i ^^ v.c i.castSucc)
  c := Function.update v.c i.succ
    ((a i && b i) || (a i && v.c i.castSucc) || (b i && v.c i.castSucc))

/-- The process; `old` is what the vectors held before it. -/
def hw5 {N : Nat} (old : Vectors N) (a b : Fin N → Bool) (cin : Bool) : Vectors N :=
  Fin.foldl N (body a b) { old with c := Function.update old.c 0 cin }

def cout {N : Nat} (v : Vectors N) : Bool := v.c (Fin.last N)

/-- Every bit below `k` is wired as a full adder. -/
structure Wired {N : Nat} (a b : Fin N → Bool) (cin : Bool) (k : Nat) (v : Vectors N) : Prop where
  carryIn : v.c 0 = cin
  sum : ∀ i : Fin N, i.val < k → v.s i = (a i ^^ b i ^^ v.c i.castSucc)
  carry : ∀ i : Fin N, i.val < k →
    v.c i.succ = ((a i && b i) || (a i && v.c i.castSucc) || (b i && v.c i.castSucc))

/-- The body wires its own bit and leaves the lower ones. -/
theorem body_wired {N : Nat} {a b : Fin N → Bool} {cin : Bool} (i : Fin N) (v : Vectors N)
    (h : Wired a b cin i v) : Wired a b cin (i + 1) (body a b v i) := by
  have hkept : ∀ j : Fin N, j.val ≤ i.val → (body a b v i).c j.castSucc = v.c j.castSucc := by
    intro j hj
    refine Function.update_of_ne ?_ _ _
    intro heq
    have hval : j.val = i.val + 1 := congrArg Fin.val heq
    omega
  have hzero : (body a b v i).c 0 = v.c 0 := by
    simp [body, Function.update_of_ne (Fin.succ_ne_zero i).symm]
  refine ⟨hzero.trans h.carryIn, fun j hj => ?_, fun j hj => ?_⟩
  · rw [hkept j (by omega)]
    by_cases hij : j = i
    · subst hij
      exact Function.update_self _ _ _
    · rw [← h.sum j (by omega)]
      exact Function.update_of_ne hij _ _
  · rw [hkept j (by omega)]
    by_cases hij : j = i
    · subst hij
      exact Function.update_self _ _ _
    · rw [← h.carry j (by omega)]
      exact Function.update_of_ne (fun heq => hij (Fin.succ_inj.mp heq)) _ _

theorem hw5_wired {N : Nat} (old : Vectors N) (a b : Fin N → Bool) (cin : Bool) :
    Wired a b cin N (hw5 old a b cin) := by
  refine loop_invariant (Wired a b cin) body_wired ⟨?_, ?_, ?_⟩
  · exact Function.update_self 0 cin old.c
  · intro i hi
    exact absurd hi (Nat.not_lt_zero _)
  · intro i hi
    exact absurd hi (Nat.not_lt_zero _)

theorem fullAdder_value (x y z : Bool) :
    (x ^^ y ^^ z).toNat + 2 * ((x && y) || (x && z) || (y && z)).toNat =
      x.toNat + y.toNat + z.toNat := by
  cases x <;> cases y <;> cases z <;> rfl

/-- A chain of full adders adds. -/
theorem wired_adds {N : Nat} {a b : Fin N → Bool} {cin : Bool} {v : Vectors N}
    (h : Wired a b cin N v) :
    Nat.ofBits v.s + 2 ^ N * (cout v).toNat = Nat.ofBits a + Nat.ofBits b + cin.toNat := by
  induction N with
  | zero => simp [cout, h.carryIn]
  | succ N ih =>
    -- the lower bits are a chain of their own
    have hlow : Wired (a ∘ Fin.castSucc) (b ∘ Fin.castSucc) cin N
        ⟨v.c ∘ Fin.castSucc, v.s ∘ Fin.castSucc⟩ := by
      refine ⟨h.carryIn, fun i hi => ?_, fun i hi => ?_⟩
      · exact h.sum i.castSucc (Nat.lt_succ_of_lt hi)
      · exact h.carry i.castSucc (Nat.lt_succ_of_lt hi)
    have hsum := h.sum (Fin.last N) (Nat.lt_succ_self N)
    have hcarry := h.carry (Fin.last N) (Nat.lt_succ_self N)
    have hbit := fullAdder_value (a (Fin.last N)) (b (Fin.last N)) (v.c (Fin.last N).castSucc)
    rw [← hsum, ← hcarry] at hbit
    have hscaled := congrArg (2 ^ N * ·) hbit
    have hrest : Nat.ofBits (v.s ∘ Fin.castSucc) + 2 ^ N * (v.c (Fin.last N).castSucc).toNat =
        Nat.ofBits (a ∘ Fin.castSucc) + Nat.ofBits (b ∘ Fin.castSucc) + cin.toNat := ih hlow
    simp only [Nat.mul_add] at hscaled
    rw [ofBits_last v.s, ofBits_last a, ofBits_last b, Nat.pow_succ, Nat.mul_assoc]
    show _ + 2 ^ N * (2 * (v.c (Fin.last N).succ).toNat) = _
    omega

/-- **The adder.** For every width, reading vectors as unsigned binary numbers. -/
theorem hw5_adds {N : Nat} (old : Vectors N) (a b : Fin N → Bool) (cin : Bool) :
    Nat.ofBits (hw5 old a b cin).s + 2 ^ N * (cout (hw5 old a b cin)).toNat =
      Nat.ofBits a + Nat.ofBits b + cin.toNat :=
  wired_adds (hw5_wired old a b cin)

end FpgaLabs.Hw5
