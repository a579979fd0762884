import Mathlib.Logic.Function.Basic

/-! A single-port synchronous memory: address, data and write enable are
registered at the rising clock edge, the output is not registered again. -/

namespace FpgaLabs.Sync

/-- The stored words and the word shown at the output. -/
structure Ram (A D : Type) where
  cells : A → D
  q : D

/-- One rising edge. The output then shows the addressed word; during a write
that is the new word. -/
def Ram.edge {A D : Type} [DecidableEq A] (m : Ram A D) (wren : Bool) (address : A) (data : D) :
    Ram A D :=
  let cells := if wren then Function.update m.cells address data else m.cells
  ⟨cells, cells address⟩

@[simp] theorem Ram.edge_q {A D : Type} [DecidableEq A] (m : Ram A D) (wren : Bool) (address : A)
    (data : D) : (m.edge wren address data).q = (m.edge wren address data).cells address := rfl

@[simp] theorem Ram.edge_read {A D : Type} [DecidableEq A] (m : Ram A D) (address : A) (data : D) :
    m.edge false address data = ⟨m.cells, m.cells address⟩ := rfl

@[simp] theorem Ram.edge_write {A D : Type} [DecidableEq A] (m : Ram A D) (address : A) (data : D) :
    m.edge true address data = ⟨Function.update m.cells address data, data⟩ := by
  simp [Ram.edge]

/-- Only a write changes a word, and only the addressed one. -/
theorem Ram.edge_changes {A D : Type} [DecidableEq A] {m : Ram A D} {wren : Bool} {address a : A}
    {data : D} (h : (m.edge wren address data).cells a ≠ m.cells a) :
    wren = true ∧ a = address := by
  cases wren with
  | false => exact absurd rfl h
  | true =>
    refine ⟨rfl, ?_⟩
    by_contra ha
    exact h (by simp [Function.update_of_ne ha])

end FpgaLabs.Sync
