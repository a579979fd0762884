import FpgaLabs.Sync.Run

/-! The VHDL model `hw3` of the SN74LS163A counter: four gate networks excite
four JK flip-flops. Clear and load excite them with the wrong polarity: a clear
sets all bits, a load stores the complement. -/

namespace FpgaLabs.Ls163
open Sync

/-- The inputs at an active clock edge. -/
structure Inputs where
  load : Bool
  clr : Bool
  enp : Bool
  ent : Bool
  dataA : Bool
  dataB : Bool
  dataC : Bool
  dataD : Bool

/-- The flip-flops, `temp(0)` to `temp(3)`. -/
structure Temp where
  qA : Bool
  qB : Bool
  qC : Bool
  qD : Bool

def Inputs.first (i : Inputs) : Bool := i.enp && i.ent

/-- `a(0)`: load or clear is low. -/
def Inputs.a0 (i : Inputs) : Bool := !i.load || !i.clr

/-- The networks `a` to `d`, from the toggle term of each: J and K. -/
def slice (i : Inputs) (toggle data : Bool) : Bool × Bool :=
  let x3 := !(!(data && i.clr) && i.a0)
  let x1 := !(i.a0 && x3)
  let x2 := toggle || i.a0
  (x1 && x2, x2 && x3)

def a (i : Inputs) (_ : Temp) : Bool × Bool := slice i i.first i.dataA
def b (i : Inputs) (q : Temp) : Bool × Bool := slice i (q.qA && i.first) i.dataB
def c (i : Inputs) (q : Temp) : Bool × Bool := slice i (q.qB && q.qA && i.first) i.dataC
def d (i : Inputs) (q : Temp) : Bool × Bool := slice i (q.qC && q.qB && q.qA && i.first) i.dataD

/-- The flip-flop process, one branch for each value of J and K. -/
def flipFlop (q : Bool) : Bool × Bool → Bool
  | (false, false) => q
  | (false, true) => false
  | (true, false) => true
  | (true, true) => !q

/-- A rising edge of `clk`. -/
def hw3 (q : Temp) (i : Inputs) : Temp where
  qA := flipFlop q.qA (a i q)
  qB := flipFlop q.qB (b i q)
  qC := flipFlop q.qC (c i q)
  qD := flipFlop q.qD (d i q)

def rc0 (q : Temp) (ent : Bool) : Bool := q.qD && q.qC && q.qB && q.qA && ent

/-- The number on the outputs, and the one on the data inputs. -/
def count (q : Temp) : Nat := q.qA.toNat + 2 * q.qB.toNat + 4 * q.qC.toNat + 8 * q.qD.toNat

def data (i : Inputs) : Nat :=
  i.dataA.toNat + 2 * i.dataB.toNat + 4 * i.dataC.toNat + 8 * i.dataD.toNat

/-- The SN74LS163A: synchronous clear, load, count and hold. -/
def sn74ls163a (count : Nat) (i : Inputs) : Nat :=
  if i.clr = false then 0
  else if i.load = false then data i
  else if i.enp = true ∧ i.ent = true then (count + 1) % 16
  else count

/-! ## One edge -/

/-- Where load or clear is low the network drives the complement of the bit to
be stored, elsewhere it toggles. -/
theorem flipFlop_slice (q : Bool) (i : Inputs) (toggle data : Bool) :
    flipFlop q (slice i toggle data) = if i.a0 then !(data && i.clr) else q ^^ toggle := by
  unfold slice
  cases i.a0 <;> cases data && i.clr <;> cases q <;> cases toggle <;> rfl

theorem toggle_count (q : Temp) (first : Bool) :
    count ⟨q.qA ^^ first, q.qB ^^ (q.qA && first), q.qC ^^ (q.qB && q.qA && first),
      q.qD ^^ (q.qC && q.qB && q.qA && first)⟩ =
      if first then (count q + 1) % 16 else count q := by
  obtain ⟨qA, qB, qC, qD⟩ := q
  revert qA qB qC qD first
  decide

/-- What an edge of `hw3` does. -/
theorem hw3_count (q : Temp) (i : Inputs) :
    count (hw3 q i) =
      if i.clr = false then 15
      else if i.load = false then 15 - data i
      else if i.enp = true ∧ i.ent = true then (count q + 1) % 16
      else count q := by
  have hslices : hw3 q i =
      ⟨flipFlop q.qA (slice i i.first i.dataA), flipFlop q.qB (slice i (q.qA && i.first) i.dataB),
        flipFlop q.qC (slice i (q.qB && q.qA && i.first) i.dataC),
        flipFlop q.qD (slice i (q.qC && q.qB && q.qA && i.first) i.dataD)⟩ := rfl
  rw [hslices]
  simp only [flipFlop_slice]
  cases hc : i.clr with
  | false => simp [Inputs.a0, hc, count]
  | true =>
    cases hl : i.load with
    | false =>
      simp only [Inputs.a0, hc, hl, count, data]
      cases i.dataA <;> cases i.dataB <;> cases i.dataC <;> cases i.dataD <;> rfl
    | true =>
      have ha : i.a0 = false := by simp [Inputs.a0, hc, hl]
      have ht := toggle_count q i.first
      simp only [ha, Bool.false_eq_true, ↓reduceIte, ht]
      simp [Inputs.first]

theorem data_le (i : Inputs) : data i ≤ 15 := by
  have := i.dataA.toNat_le
  have := i.dataB.toNat_le
  have := i.dataC.toNat_le
  have := i.dataD.toNat_le
  unfold data
  omega

/-- The edge does what the SN74LS163A does. -/
def Follows (q : Temp) (i : Inputs) : Prop := count (hw3 q i) = sn74ls163a (count q) i

theorem follows_iff (q : Temp) (i : Inputs) : Follows q i ↔ i.load = true ∧ i.clr = true := by
  have hd := data_le i
  unfold Follows sn74ls163a
  rw [hw3_count]
  cases hc : i.clr with
  | false => simp
  | true =>
    cases hl : i.load with
    | false =>
      simp
      omega
    | true => simp

theorem rc0_iff (q : Temp) (ent : Bool) : rc0 q ent = true ↔ ent = true ∧ count q = 15 := by
  obtain ⟨qA, qB, qC, qD⟩ := q
  revert qA qB qC qD ent
  decide

/-! ## Runs -/

/-- Every step of a run follows the SN74LS163A exactly when no edge of it loads
or clears. -/
theorem run_follows_iff (q : Temp) (is : List Inputs) :
    EachStep hw3 Follows q is ↔ ∀ i ∈ is, i.load = true ∧ i.clr = true := by
  induction is generalizing q with
  | nil => simp [EachStep]
  | cons i is ih =>
    rw [EachStep, follows_iff, ih, List.forall_mem_cons]

/-- Counting: the enabled edges are added. -/
theorem run_count {q : Temp} {is : List Inputs} (h : ∀ i ∈ is, i.load = true ∧ i.clr = true) :
    count (run hw3 q is) % 16 = (count q + is.countP fun i => i.enp && i.ent) % 16 := by
  induction is generalizing q with
  | nil => rfl
  | cons i is ih =>
    obtain ⟨hi, his⟩ := List.forall_mem_cons.mp h
    have hstep := hw3_count q i
    simp only [hi.1, hi.2, Bool.true_eq_false, ↓reduceIte] at hstep
    rw [run_cons, ih his, hstep, List.countP_cons]
    by_cases he : i.enp = true ∧ i.ent = true
    · simp only [he, Bool.and_self, ↓reduceIte, and_self]
      omega
    · have he' : (i.enp && i.ent) = false := by simpa using he
      simp only [he, he', Bool.false_eq_true, ↓reduceIte]
      omega

theorem count_le (q : Temp) : count q ≤ 15 := by
  obtain ⟨qA, qB, qC, qD⟩ := q
  revert qA qB qC qD
  decide

/-- A clear at 0 makes the count 15, and so does loading 0. -/
theorem clear_sets :
    ¬ Follows ⟨false, false, false, false⟩ ⟨true, false, true, true, false, false, false, false⟩ ∧
      ¬ Follows ⟨false, false, false, false⟩
        ⟨false, true, true, true, false, false, false, false⟩ := by
  unfold Follows
  decide

/-- **The counter.** In a run from any count, every edge does what the
SN74LS163A does exactly when no edge of the run loads or clears; the carry
output is right at all times; and without loads and clears the enabled edges
are counted. -/
theorem counts_iff (q : Temp) (is : List Inputs) :
    (EachStep hw3 Follows q is ↔ ∀ i ∈ is, i.load = true ∧ i.clr = true) ∧
    (∀ ent, rc0 (run hw3 q is) ent = true ↔ ent = true ∧ count (run hw3 q is) = 15) ∧
    ((∀ i ∈ is, i.load = true ∧ i.clr = true) →
      count (run hw3 q is) = (count q + is.countP fun i => i.enp && i.ent) % 16) := by
  refine ⟨run_follows_iff q is, rc0_iff _, fun h => ?_⟩
  rw [← run_count h, Nat.mod_eq_of_lt (Nat.lt_succ_of_le (count_le _))]

end FpgaLabs.Ls163
