import Mathlib.Logic.Function.Basic

/-! Signal assignments of a clocked process. All right-hand sides read the
values before the edge; of several assignments to one signal the last wins. -/

namespace FpgaLabs.Sync

/-- The signals after the assignments `as`, scheduled in order. -/
def commit {Sig Val : Type} [DecidableEq Sig] (old : Sig → Val) (as : List (Sig × Val)) :
    Sig → Val :=
  as.foldl (fun s a => Function.update s a.1 a.2) old

@[simp] theorem commit_nil {Sig Val : Type} [DecidableEq Sig] (old : Sig → Val) :
    commit old [] = old := rfl

@[simp] theorem commit_cons {Sig Val : Type} [DecidableEq Sig] (old : Sig → Val) (x : Sig)
    (v : Val) (as : List (Sig × Val)) :
    commit old ((x, v) :: as) = commit (Function.update old x v) as := rfl

@[simp] theorem commit_append {Sig Val : Type} [DecidableEq Sig] (old : Sig → Val)
    (as bs : List (Sig × Val)) : commit old (as ++ bs) = commit (commit old as) bs :=
  List.foldl_append

/-- A loop that assigns one value to all of `xs`. -/
theorem commit_const {Sig Val : Type} [DecidableEq Sig] (old : Sig → Val) (xs : List Sig)
    (v : Val) : commit old (xs.map fun x => (x, v)) = fun x => if x ∈ xs then v else old x := by
  induction xs generalizing old with
  | nil => simp
  | cons x xs ih =>
    rw [List.map_cons, commit_cons, ih]
    funext y
    by_cases hy : y = x <;> simp [hy]

end FpgaLabs.Sync
