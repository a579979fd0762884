import Mathlib.Data.List.Basic

/-! Raster scans: the numbers below `m * n` in order are the pairs of a row
below `m` and a column below `n`, row by row. A window cuts out consecutive rows
and columns. -/

namespace FpgaLabs.Sync

/-- The pairs of a row and a column, row by row. -/
def raster {A B : Type} (rows : List A) (cols : List B) : List (A × B) :=
  rows.flatMap fun r => cols.map fun c => (r, c)

theorem raster_length {A B : Type} (rows : List A) (cols : List B) :
    (raster rows cols).length = rows.length * cols.length := by
  induction rows with
  | nil => simp [raster]
  | cons r rows ih =>
    simp only [raster, List.flatMap_cons, List.length_append, List.length_map] at ih ⊢
    rw [ih, List.length_cons, Nat.succ_mul, Nat.add_comm]

theorem mem_raster {A B : Type} {rows : List A} {cols : List B} {x : A × B} :
    x ∈ raster rows cols ↔ x.1 ∈ rows ∧ x.2 ∈ cols := by
  obtain ⟨r, c⟩ := x
  simp [raster]

theorem raster_map {A B C D : Type} (f : A → C) (g : B → D) (rows : List A) (cols : List B) :
    (raster rows cols).map (fun x => (f x.1, g x.2)) = raster (rows.map f) (cols.map g) := by
  simp [raster, List.map_flatMap, List.flatMap_map, Function.comp_def]

theorem raster_filter {A B : Type} (p : A → Bool) (q : B → Bool) (rows : List A) (cols : List B) :
    (raster rows cols).filter (fun x => p x.1 && q x.2) =
      raster (rows.filter p) (cols.filter q) := by
  induction rows with
  | nil => rfl
  | cons r rows ih =>
    simp only [raster, List.flatMap_cons, List.filter_append] at ih ⊢
    rw [ih, List.filter_cons, List.filter_map]
    cases hr : p r <;> simp [hr, Function.comp_def]

/-- Quotient and remainder scan the raster. -/
theorem range_divMod (m n : Nat) :
    (List.range (m * n)).map (fun k => (k / n, k % n)) = raster (List.range m) (List.range n) := by
  induction m with
  | zero => simp [raster]
  | succ m ih =>
    have hrow : ∀ c ∈ List.range n, ((m * n + c) / n, (m * n + c) % n) = (m, c) := by
      intro c hc
      have hlt : c < n := List.mem_range.mp hc
      rw [Nat.mul_comm, Nat.mul_add_div (by omega), Nat.mul_add_mod, Nat.mod_eq_of_lt hlt,
        Nat.div_eq_of_lt hlt, Nat.add_zero]
    rw [Nat.succ_mul, List.range_add, List.map_append, ih, List.range_succ]
    simp only [raster, List.flatMap_append, List.map_map, List.flatMap_cons, List.flatMap_nil,
      List.append_nil]
    congr 1
    exact List.map_congr_left hrow

/-- The numbers in a window. -/
theorem range_window (a b n : Nat) :
    (List.range n).filter (fun i => a ≤ i && i < b) = List.range' a (min n b - a) := by
  induction n with
  | zero => simp
  | succ n ih =>
    rw [List.range_succ, List.filter_append, ih]
    by_cases h : a ≤ n ∧ n < b
    · have hlen : min (n + 1) b - a = min n b - a + 1 := by omega
      have hlast : a + (min n b - a) = n := by omega
      rw [hlen, List.range'_1_concat, hlast]
      simp [h]
    · have hlen : min (n + 1) b - a = min n b - a := by omega
      rw [hlen, List.filter_cons]
      simp
      omega

end FpgaLabs.Sync
