import FpgaLabs.Sync.Strobe
import Mathlib.Algebra.Ring.Nat

/-! Circular buffers of `n` cells with a read index and a write index and one
cell always free: equal indices mean empty. The queue in such a buffer, what a
store, an append and a removal do to it, and what an append to a full one does. -/

namespace FpgaLabs.Sync

/-- How many cells are in use. -/
def ringSize (n start stop : Nat) : Nat := (stop + n - start) % n

/-- The queue, oldest first. -/
def ring {V : Type} (n : Nat) (buf : Nat → V) (start stop : Nat) : List V :=
  (List.range (ringSize n start stop)).map fun k => buf ((start + k) % n)

/-- The next cell. -/
def succMod (n i : Nat) : Nat := (i + 1) % n

section
variable {V : Type} {n : Nat} {buf : Nat → V} {start stop : Nat}

theorem succMod_lt (hn : 0 < n) (i : Nat) : succMod n i < n := Nat.mod_lt _ hn

theorem succMod_eq {i : Nat} (hi : i < n) : succMod n i = if i + 1 = n then 0 else i + 1 := by
  unfold succMod
  split
  · next h => rw [h, Nat.mod_self]
  · exact Nat.mod_eq_of_lt (by omega)

theorem ringSize_eq (hs : start < n) (ht : stop < n) :
    ringSize n start stop = if start ≤ stop then stop - start else stop + n - start := by
  unfold ringSize
  split
  · have h : stop + n - start = (stop - start) + n := by omega
    rw [h, Nat.add_mod_right, Nat.mod_eq_of_lt (by omega)]
  · exact Nat.mod_eq_of_lt (by omega)

theorem length_ring : (ring n buf start stop).length = ringSize n start stop := by simp [ring]

theorem ringSize_lt (hn : 0 < n) (start stop : Nat) : ringSize n start stop < n := Nat.mod_lt _ hn

theorem ring_eq_nil (hs : start < n) (ht : stop < n) :
    ring n buf start stop = [] ↔ start = stop := by
  rw [← List.length_eq_zero_iff, length_ring, ringSize_eq hs ht]
  split <;> omega

/-- Full is one cell short of `n`. -/
theorem ring_full (buf : Nat → V) (hs : start < n) (ht : stop < n) :
    succMod n stop = start ↔ (ring n buf start stop).length + 1 = n := by
  rw [length_ring, ringSize_eq hs ht, succMod_eq ht]
  split <;> split <;> omega

theorem cell_ne (hs : start < n) (ht : stop < n) {k : Nat} (hk : k < ringSize n start stop) :
    (start + k) % n ≠ stop := by
  rw [ringSize_eq hs ht] at hk
  by_cases hle : start ≤ stop
  · rw [if_pos hle] at hk
    rw [Nat.mod_eq_of_lt (by omega)]
    omega
  · rw [if_neg hle] at hk
    by_cases hw : start + k < n
    · rw [Nat.mod_eq_of_lt hw]
      omega
    · have h : start + k = start + k - n + n := by omega
      rw [h, Nat.add_mod_right, Nat.mod_eq_of_lt (by omega)]
      omega

/-- A store into the free cell is not seen. -/
theorem ring_store (hs : start < n) (ht : stop < n) (v : V) :
    ring n (Function.update buf stop v) start stop = ring n buf start stop := by
  unfold ring
  refine List.map_congr_left fun k hk => ?_
  exact Function.update_of_ne (cell_ne hs ht (List.mem_range.mp hk)) _ _

theorem ringSize_push (hs : start < n) (ht : stop < n) (hfull : succMod n stop ≠ start) :
    ringSize n start (succMod n stop) = ringSize n start stop + 1 := by
  rw [ringSize_eq hs (succMod_lt (by omega) _), ringSize_eq hs ht]
  rw [succMod_eq ht] at hfull ⊢
  by_cases hw : stop + 1 = n
  · rw [if_pos hw] at hfull ⊢
    split <;> split <;> omega
  · rw [if_neg hw] at hfull ⊢
    split <;> split <;> omega

/-- **Append**, unless the buffer is full. -/
theorem ring_push (hs : start < n) (ht : stop < n) (hfull : succMod n stop ≠ start) (v : V) :
    ring n (Function.update buf stop v) start (succMod n stop) = ring n buf start stop ++ [v] := by
  have hlast : (start + ringSize n start stop) % n = stop := by
    rw [ringSize_eq hs ht]
    split
    · rw [Nat.mod_eq_of_lt (by omega)]
      omega
    · have h : start + (stop + n - start) = stop + n := by omega
      rw [h, Nat.add_mod_right, Nat.mod_eq_of_lt ht]
  rw [← ring_store hs ht v, ring, ringSize_push hs ht hfull, List.range_succ, List.map_append]
  simp [ring, hlast]

/-- The append of what the free cell holds already. -/
theorem ring_advance (hs : start < n) (ht : stop < n) (hfull : succMod n stop ≠ start) :
    ring n buf start (succMod n stop) = ring n buf start stop ++ [buf stop] := by
  rw [← ring_push hs ht hfull (buf stop), Function.update_eq_self]

/-- An append to a full buffer makes it look empty. -/
theorem ring_overflow (hs : start < n) (hfull : succMod n stop = start) (buf : Nat → V) :
    ring n buf start (succMod n stop) = [] := by
  rw [hfull, ring_eq_nil hs hs]

/-- **Removal** of the oldest. -/
theorem ring_pop (hs : start < n) (ht : stop < n) (hne : start ≠ stop) :
    ring n buf start stop = buf start :: ring n buf (succMod n start) stop := by
  have hsize : ringSize n start stop = ringSize n (succMod n start) stop + 1 := by
    rw [ringSize_eq hs ht, ringSize_eq (succMod_lt (by omega) _) ht, succMod_eq hs]
    split <;> split <;> split <;> omega
  rw [ring, hsize, List.range_succ_eq_map, List.map_cons, List.map_map, Nat.add_zero,
    Nat.mod_eq_of_lt hs]
  refine congrArg (buf start :: ·) (List.map_congr_left fun k _ => ?_)
  show buf ((start + (k + 1)) % n) = buf (((start + 1) % n + k) % n)
  rw [Nat.mod_add_mod]
  congr 2
  omega

end

/-! ## Conservation -/

/-- Whether a run keeps to a condition can be tried out. -/
instance decidableEachStep {S E : Type} (step : S → E → S) (P : S → E → Prop)
    [∀ s e, Decidable (P s e)] : ∀ s es, Decidable (EachStep step P s es)
  | _, [] => inferInstanceAs (Decidable True)
  | s, e :: es =>
    have := decidableEachStep step P (step s e) es
    inferInstanceAs (Decidable (P s e ∧ EachStep step P (step s e) es))

/-- **Conservation rule**: a queue whose every step takes in what it says and
gives out what it says has, over a run, given out what came in, less its rest. -/
theorem conservation {S E V : Type} {step : S → E → S} {queue : S → List V}
    {input output : S → E → List V} {P : S → E → Prop} (I : S → Prop)
    (h : ∀ s e, I s → P s e →
      I (step s e) ∧ queue s ++ input s e = output s e ++ queue (step s e))
    {s : S} {es : List E} (hs : I s) (hes : EachStep step P s es) :
    queue s ++ emitted step input s es = emitted step output s es ++ queue (run step s es) := by
  induction es generalizing s with
  | nil => simp [emitted]
  | cons e es ih =>
    obtain ⟨hi, hq⟩ := h s e hs hes.1
    have hrest := ih hi hes.2
    rw [emitted, emitted, run_cons, ← List.append_assoc, hq, List.append_assoc, hrest,
      List.append_assoc]

/-- **Exact conservation rule**: nothing is lost up to any point of the run if and
only if no step loses anything. -/
theorem conservation_iff {S E V : Type} {step : S → E → S} {queue : S → List V}
    {input output : S → E → List V} {P : S → E → Prop} (I : S → Prop)
    (hI : ∀ s e, I s → P s e → I (step s e))
    (h : ∀ s e, I s → (queue s ++ input s e = output s e ++ queue (step s e) ↔ P s e))
    {s : S} {es : List E} (hs : I s) :
    (∀ p, p <+: es → queue s ++ emitted step input s p =
      emitted step output s p ++ queue (run step s p)) ↔ EachStep step P s es := by
  constructor
  · intro hall
    induction es generalizing s with
    | nil => trivial
    | cons e es ih =>
      have hone := hall [e] (by simp)
      simp only [emitted, List.append_nil, run_cons, run_nil] at hone
      have hP := (h s e hs).mp hone
      refine ⟨hP, ih (hI s e hs hP) fun p hp => ?_⟩
      have hnext := hall (e :: p) (List.cons_prefix_cons.mpr ⟨rfl, hp⟩)
      rw [emitted, emitted, run_cons, ← List.append_assoc, hone, List.append_assoc,
        List.append_assoc] at hnext
      exact List.append_cancel_left hnext
  · rintro hes p ⟨q, rfl⟩
    have hp := ((eachStep_append _ _ _ _ _).mp hes).1
    exact conservation I (fun s e hi hP => ⟨hI s e hi hP, (h s e hi).mpr hP⟩) hs hp

end FpgaLabs.Sync
