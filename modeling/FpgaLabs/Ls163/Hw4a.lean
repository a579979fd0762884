import FpgaLabs.Ls163.Hw3
import Mathlib.Data.List.Induction

/-! The Verilog counter `hw4a` against `hw3`. It computes the same networks by
blocking assignments to registers, and reads `x[3]` before it assigns it: J
comes from the data bit of the previous edge. -/

namespace FpgaLabs.Ls163
open Sync

/-- One of the registers `a` to `d`. -/
structure Reg where
  x0 : Bool
  x1 : Bool
  x2 : Bool
  x3 : Bool
  x4 : Bool
  x5 : Bool

structure Hw4a where
  first : Bool
  a : Reg
  b : Reg
  c : Reg
  d : Reg
  temp : Temp

/-- The six assignments to one register, in their order. -/
def assign (x : Reg) (i : Inputs) (x0 toggle data : Bool) : Reg :=
  let x := { x with x0 := x0 }
  let x := { x with x1 := !(i.a0 && x.x3) }
  let x := { x with x2 := toggle || i.a0 }
  let x := { x with x3 := !(!(data && i.clr) && i.a0) }
  let x := { x with x4 := x.x1 && x.x2 }
  { x with x5 := x.x2 && x.x3 }

/-- The IF chain on one flip-flop. -/
def jk (x : Reg) (q : Bool) : Bool :=
  if x.x4 && !x.x5 then true
  else if !x.x4 && x.x5 then false
  else if x.x4 && x.x5 then !q
  else q

/-- A falling edge of `clk`. The wires `Q_A` to `Q_D` carry `temp`, which is
assigned after the networks. -/
def hw4a (s : Hw4a) (i : Inputs) : Hw4a :=
  let first := i.enp && i.ent
  let a := assign s.a i i.a0 first i.dataA
  let b := assign s.b i (s.temp.qA && first) (s.temp.qA && first) i.dataB
  let c := assign s.c i (s.temp.qB && s.temp.qA && first) (s.temp.qB && s.temp.qA && first) i.dataC
  let d := assign s.d i (s.temp.qC && s.temp.qB && s.temp.qA && first)
    (s.temp.qC && s.temp.qB && s.temp.qA && first) i.dataD
  { first := first, a := a, b := b, c := c, d := d,
    temp := ⟨jk a s.temp.qA, jk b s.temp.qB, jk c s.temp.qC, jk d s.temp.qD⟩ }

/-- The old `x[3]` is the bit to be stored now, or the flip-flop is set. -/
def Fresh (x : Reg) (i : Inputs) (data q : Bool) : Prop :=
  i.a0 = true → x.x3 = (data && i.clr) ∨ q = true

/-- The condition on all four slices. -/
def AllFresh (s : Hw4a) (i : Inputs) : Prop :=
  Fresh s.a i i.dataA s.temp.qA ∧ Fresh s.b i i.dataB s.temp.qB ∧
    Fresh s.c i i.dataC s.temp.qC ∧ Fresh s.d i i.dataD s.temp.qD

/-- One slice against that of `hw3`. -/
theorem jk_assign_iff (x : Reg) (i : Inputs) (x0 toggle data q : Bool) :
    jk (assign x i x0 toggle data) q = flipFlop q (slice i toggle data) ↔ Fresh x i data q := by
  rw [flipFlop_slice]
  unfold jk assign Fresh
  simp only
  cases i.a0 <;> cases x.x3 <;> cases data && i.clr <;> cases q <;> cases toggle <;> simp

/-- The register that the next edge reads. -/
theorem assign_x3 (x : Reg) (i : Inputs) (x0 toggle data : Bool) :
    (assign x i x0 toggle data).x3 = if i.a0 then data && i.clr else true := by
  unfold assign
  cases i.a0 <;> cases data && i.clr <;> rfl

theorem hw4a_iff (s : Hw4a) (i : Inputs) : (hw4a s i).temp = hw3 s.temp i ↔ AllFresh s i := by
  unfold AllFresh
  rw [← jk_assign_iff s.a i i.a0 i.first, ← jk_assign_iff s.b i (s.temp.qA && i.first)
      (s.temp.qA && i.first), ← jk_assign_iff s.c i (s.temp.qB && s.temp.qA && i.first)
      (s.temp.qB && s.temp.qA && i.first),
    ← jk_assign_iff s.d i (s.temp.qC && s.temp.qB && s.temp.qA && i.first)
      (s.temp.qC && s.temp.qB && s.temp.qA && i.first)]
  exact Temp.mk.injEq _ _ _ _ _ _ _ _ ▸ Iff.rfl

/-! ## Consecutive inputs -/

/-- The four `x[3]`. -/
def Hw4a.bits (s : Hw4a) : Temp := ⟨s.a.x3, s.b.x3, s.c.x3, s.d.x3⟩

/-- The bits that an edge loads or clears; 1 if it does neither. -/
def Inputs.stored (i : Inputs) : Temp :=
  if i.a0 then ⟨i.dataA && i.clr, i.dataB && i.clr, i.dataC && i.clr, i.dataD && i.clr⟩
  else ⟨true, true, true, true⟩

/-- An edge that loads or clears repeats the old bits where `q` is not set. -/
def Repeats (old q : Temp) (i : Inputs) : Prop :=
  i.a0 = true → (old.qA = i.stored.qA ∨ q.qA = true) ∧ (old.qB = i.stored.qB ∨ q.qB = true) ∧
    (old.qC = i.stored.qC ∨ q.qC = true) ∧ (old.qD = i.stored.qD ∨ q.qD = true)

theorem allFresh_iff (s : Hw4a) (i : Inputs) : AllFresh s i ↔ Repeats s.bits s.temp i := by
  unfold AllFresh Fresh Repeats
  by_cases ha : i.a0 = true
  · simp only [ha, true_implies, Inputs.stored, if_pos, Hw4a.bits]
  · simp [ha]

theorem hw4a_bits (s : Hw4a) (i : Inputs) : (hw4a s i).bits = i.stored := by
  rw [Hw4a.bits, hw4a, Inputs.stored]
  simp only [assign_x3]
  split <;> rfl

/-- The old bits are those of the edge before, if there is one. -/
theorem run_bits (s : Hw4a) (p : List Inputs) :
    (run hw4a s p).bits = p.getLast?.elim s.bits Inputs.stored := by
  rcases List.eq_nil_or_concat p with rfl | ⟨p, i, rfl⟩
  · rfl
  · rw [List.concat_eq_append, run_append, List.getLast?_append]
    exact hw4a_bits _ i

/-- The outputs. -/
def outputs (q : Temp) (i : Inputs) : Temp × Bool := (q, rc0 q i.ent)

/-- A clear from 0 with `x[3]` high: the Verilog count stays. -/
theorem hw4a_stays :
    let x : Reg := ⟨false, false, false, true, false, false⟩
    let s : Hw4a := ⟨false, x, x, x, x, ⟨false, false, false, false⟩⟩
    let i : Inputs := ⟨true, false, false, false, false, false, false, false⟩
    count (hw4a s i).temp = 0 ∧ count (hw3 s.temp i) = 15 := by
  decide

theorem agree_iff_temp (s : Hw4a) (is : List Inputs) :
    (∀ p i, p ++ [i] <+: is →
      outputs (run hw4a s (p ++ [i])).temp i = outputs (run hw3 s.temp (p ++ [i])) i) ↔
      ∀ p, p <+: is → (run hw4a s p).temp = run hw3 s.temp p := by
  constructor
  · intro h p hp
    rcases List.eq_nil_or_concat p with rfl | ⟨p, i, rfl⟩
    · rfl
    · rw [List.concat_eq_append] at hp ⊢
      exact congrArg Prod.fst (h p i hp)
  · intro h p i hp
    rw [h (p ++ [i]) hp]

/-- The counts agree as long as the inputs repeat the bits. -/
theorem temp_iff_repeats (s : Hw4a) (is : List Inputs) :
    (∀ p, p <+: is → (run hw4a s p).temp = run hw3 s.temp p) ↔
      ∀ p i, p ++ [i] <+: is →
        Repeats (p.getLast?.elim s.bits Inputs.stored) (run hw3 s.temp p) i := by
  have hone : ∀ p i, (run hw4a s p).temp = run hw3 s.temp p →
      ((run hw4a s (p ++ [i])).temp = run hw3 s.temp (p ++ [i]) ↔
        Repeats (p.getLast?.elim s.bits Inputs.stored) (run hw3 s.temp p) i) := by
    intro p i hp
    rw [run_append, run_append, ← hp, ← run_bits, ← allFresh_iff]
    exact hw4a_iff _ i
  constructor
  · intro h p i hp
    exact (hone p i (h p ((List.prefix_append p [i]).trans hp))).mp (h _ hp)
  · intro h p
    induction p using List.reverseRecOn with
    | nil => exact fun _ => rfl
    | append_singleton p i ih =>
      intro hp
      exact (hone p i (ih ((List.prefix_append p [i]).trans hp))).mpr (h p i hp)

/-- **The two counters.** From a common count and any registers, their outputs
agree after every edge of a run exactly when at each edge that loads or clears
every bit is set or is to be stored as the bit of the edge before. -/
theorem counters_agree_iff (s : Hw4a) (is : List Inputs) :
    ((∀ p i, p ++ [i] <+: is →
      outputs (run hw4a s (p ++ [i])).temp i = outputs (run hw3 s.temp (p ++ [i])) i) ↔
      EachStep hw4a AllFresh s is) ∧
    ((∀ p i, p ++ [i] <+: is →
      outputs (run hw4a s (p ++ [i])).temp i = outputs (run hw3 s.temp (p ++ [i])) i) ↔
      ∀ p i, p ++ [i] <+: is →
        Repeats (p.getLast?.elim s.bits Inputs.stored) (run hw3 s.temp p) i) := by
  have hstep : ∀ (s : Hw4a) (q : Temp) i, s.temp = q →
      ((hw4a s i).temp = hw3 q i ↔ AllFresh s i) := by
    rintro s q i rfl
    exact hw4a_iff s i
  rw [agree_iff_temp]
  exact ⟨run_lockstep_iff (fun (s : Hw4a) q => s.temp = q) hstep rfl, temp_iff_repeats s is⟩

end FpgaLabs.Ls163
