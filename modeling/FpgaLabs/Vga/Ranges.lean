import FpgaLabs.Vga.Driver
import Mathlib.Algebra.Ring.Int.Defs
import Mathlib.Algebra.Ring.Nat

/-! The declared ranges of `VGA_driver.vhd`. The counters are incremented in
place before they are compared with their periods, and the coordinates are
computed during the syncs and the porches too. -/

namespace FpgaLabs.Vga
open Sync

/-- The values an edge assigns to `raw_col` and to `raw_row`, in order. -/
def colAssigned (s : VgaDriver) : List Nat :=
  (s.rawCol + 1) :: if s.rawCol + 1 = hPeriod then [0] else []

def rowAssigned (s : VgaDriver) : List Nat :=
  if s.rawCol + 1 = hPeriod then
    (s.rawRow + 1) :: if s.rawRow + 1 = vPeriod then [0] else []
  else []

/-- The variables hold what was assigned last. -/
theorem edge_assigned (s : VgaDriver) :
    edge s = ⟨(rowAssigned s).getLastD s.rawRow, (colAssigned s).getLastD s.rawCol⟩ := by
  unfold edge rowAssigned colAssigned
  by_cases hc : s.rawCol + 1 = hPeriod
  · by_cases hr : s.rawRow + 1 = vPeriod
    · simp [hc, hr]
    · simp [hc, hr]
  · simp [hc]

/-- `raw_col : integer range 0 to (h_period-1)`, and the same for `raw_row`. -/
def ColInRange (s : VgaDriver) : Prop := ∀ v ∈ colAssigned s, v ≤ hPeriod - 1
def RowInRange (s : VgaDriver) : Prop := ∀ v ∈ rowAssigned s, v ≤ vPeriod - 1

/-- A natural number of at most `size` bits. -/
def Fits (arg : Int) (size : Nat) : Prop := 0 ≤ arg ∧ arg < 2 ^ size

/-- The arguments of `to_unsigned` in `row` and `col`. -/
def ArgumentsFit (s : VgaDriver) : Prop :=
  Fits (s.rawRow - vDelay) 9 ∧ Fits (s.rawCol - hDelay) 10

/-- A run of `n` edges violates no range. -/
structure KeepsRanges (n : Nat) : Prop where
  col : ∀ m < n, ColInRange (after m)
  row : ∀ m < n, RowInRange (after m)
  arguments : ∀ m ≤ n, ArgumentsFit (after m)

theorem colInRange_iff (n : Nat) : ColInRange (after n) ↔ n % 797 ≠ 796 := by
  have hlt := Nat.mod_lt n (show 0 < 797 by decide)
  unfold ColInRange colAssigned
  rw [after_eq]
  show (∀ v ∈ (n % 797 + 1) :: (if n % 797 + 1 = 797 then [0] else []), v ≤ 796) ↔ _
  split
  · simp
    omega
  · simp
    omega

theorem rowInRange_iff (n : Nat) : RowInRange (after n) ↔ (n + 1) % (525 * 797) ≠ 0 := by
  have hlt := Nat.mod_lt (n / 797) (show 0 < 525 by decide)
  unfold RowInRange rowAssigned
  rw [after_eq]
  show (∀ v ∈ (if n % 797 + 1 = 797 then
    (n / 797 % 525 + 1) :: (if n / 797 % 525 + 1 = 525 then [0] else []) else []), v ≤ 524) ↔ _
  split
  · split
    · simp
      omega
    · simp
      omega
  · simp
    omega

theorem fits_sub_iff (x d size : Nat) :
    Fits ((x : Int) - (d : Int)) size ↔ d ≤ x ∧ x < d + 2 ^ size := by
  have hpow : ((2 ^ size : Nat) : Int) = 2 ^ size := Int.natCast_pow 2 size
  unfold Fits
  omega

theorem argumentsFit_iff (n : Nat) :
    ArgumentsFit (after n) ↔ 35 ≤ n / 797 % 525 ∧ 142 ≤ n % 797 := by
  have hrow := Nat.mod_lt (n / 797) (show 0 < 525 by decide)
  have hcol := Nat.mod_lt n (show 0 < 797 by decide)
  unfold ArgumentsFit
  rw [fits_sub_iff, fits_sub_iff, after_eq]
  show (35 ≤ n / 797 % 525 ∧ n / 797 % 525 < 35 + 512) ∧
    (142 ≤ n % 797 ∧ n % 797 < 142 + 1024) ↔ _
  omega

/-- The 797th edge assigns 797 to `raw_col`. -/
theorem line_leavesRange : ¬ KeepsRanges 797 := by
  intro h
  exact absurd ((colInRange_iff 796).mp (h.col 796 (by decide))) (by decide)

/-- **Ranges.** No run keeps them: the arguments are negative from power-up to
the first visible pixel. Later they are natural exactly past the sync and the
porch of both counters; the column leaves its range at the end of each line and
the row at the end of each frame, and at no other edge. -/
theorem keepsRanges_never (n : Nat) :
    ¬ KeepsRanges n ∧
    (ColInRange (after n) ↔ n % 797 ≠ 796) ∧
    (RowInRange (after n) ↔ (n + 1) % (525 * 797) ≠ 0) ∧
    (ArgumentsFit (after n) ↔ 35 ≤ n / 797 % 525 ∧ 142 ≤ n % 797) := by
  refine ⟨fun h => ?_, colInRange_iff n, rowInRange_iff n, argumentsFit_iff n⟩
  have hrow : 35 ≤ 0 / 797 % 525 := ((argumentsFit_iff 0).mp (h.arguments 0 (Nat.zero_le n))).1
  exact absurd hrow (by decide)

end FpgaLabs.Vga
