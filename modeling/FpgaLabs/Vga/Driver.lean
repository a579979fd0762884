import FpgaLabs.Sync.Counter
import FpgaLabs.Sync.Raster

/-! The final project's `VGA_driver.vhd`: a cascade of two counters, and the
syncs, coordinates and valid flag derived from them. -/

namespace FpgaLabs.Vga
open Sync

def horizRes : Nat := 640
def vertRes : Nat := 480
def vsRows : Nat := 2
def hsClks : Nat := 95
def vFporch : Nat := 33
def hFporch : Nat := 47
def vDelay : Nat := vsRows + vFporch
def hDelay : Nat := hsClks + hFporch
def vEnd : Nat := vDelay + vertRes
def hEnd : Nat := hDelay + horizRes
def vBporch : Nat := 10
def hBporch : Nat := 15
def vPeriod : Nat := vEnd + vBporch
def hPeriod : Nat := hEnd + hBporch

/-- The shared variables. -/
structure VgaDriver where
  rawRow : Nat
  rawCol : Nat

def VgaDriver.powerUp : VgaDriver := ⟨0, 0⟩

/-- The process, from one rising edge of `clk_25MHz` to the next. -/
def edge (s : VgaDriver) : VgaDriver :=
  let rawCol := s.rawCol + 1
  if rawCol = hPeriod then
    let rawRow := s.rawRow + 1
    { rawCol := 0, rawRow := if rawRow = vPeriod then 0 else rawRow }
  else { s with rawCol := rawCol }

/-- After `n` rising edges. -/
def after (n : Nat) : VgaDriver := edge^[n] VgaDriver.powerUp

def vertSync (s : VgaDriver) : Bool := if s.rawRow < vsRows then false else true
def horizSync (s : VgaDriver) : Bool := if s.rawCol < hsClks then false else true

/-- `to_unsigned`: a negative argument is an error. -/
def toUnsigned (arg : Int) (size : Nat) : Option (BitVec size) :=
  if arg < 0 then none else some (BitVec.ofNat size arg.toNat)

def row (s : VgaDriver) : Option (BitVec 9) := toUnsigned (s.rawRow - vDelay) 9
def col (s : VgaDriver) : Option (BitVec 10) := toUnsigned (s.rawCol - hDelay) 10

def rowValid (s : VgaDriver) : Bool := vDelay ≤ s.rawRow && s.rawRow < vEnd
def colValid (s : VgaDriver) : Bool := hDelay ≤ s.rawCol && s.rawCol < hEnd
def valid (s : VgaDriver) : Bool := rowValid s && colValid s

/-- The coordinates shown, as numbers. -/
def coordinates (s : VgaDriver) : Option Nat × Option Nat :=
  ((row s).map BitVec.toNat, (col s).map BitVec.toNat)

/-! ## The counters -/

theorem after_succ (n : Nat) : after (n + 1) = edge (after n) :=
  Function.iterate_succ_apply' _ _ _

theorem after_eq (n : Nat) : after n = ⟨n / 797 % 525, n % 797⟩ := by
  induction n with
  | zero => rfl
  | succ n ih =>
    have hrow := Nat.mod_lt (n / 797) (show 0 < 525 by decide)
    rw [after_succ, ih]
    unfold edge
    show (if n % 797 + 1 = 797 then _ else _) = _
    split
    · next h =>
      have hdiv : (n + 1) / 797 = n / 797 + 1 := by omega
      have hmod : (n + 1) % 797 = 0 := by omega
      have hn := next_mod (n := 525) (by decide) (n / 797)
      rw [hdiv, hmod, ← hn]
      rfl
    · next h =>
      have hdiv : (n + 1) / 797 = n / 797 := by omega
      have hmod : (n + 1) % 797 = n % 797 + 1 := by omega
      rw [hdiv, hmod]

/-- Clock `i` of frame `q`. -/
theorem after_frame (q i : Nat) (hi : i < 525 * 797) :
    after (q * (525 * 797) + i) = ⟨i / 797, i % 797⟩ := by
  have hdiv : (q * (525 * 797) + i) / 797 % 525 = i / 797 := by omega
  have hmod : (q * (525 * 797) + i) % 797 = i % 797 := by omega
  rw [after_eq, hdiv, hmod]

/-! ## Frames -/

/-- The dot clocks of frame `q`. -/
def frame (q : Nat) : List Nat := (List.range (525 * 797)).map (q * (525 * 797) + ·)

/-- The driver over a frame is a raster scan. -/
theorem frame_after (q : Nat) :
    (frame q).map after =
      (raster (List.range 525) (List.range 797)).map fun x => ⟨x.1, x.2⟩ := by
  have hclock : ∀ i ∈ List.range (525 * 797),
      after (q * (525 * 797) + i) = ⟨i / 797, i % 797⟩ := by
    intro i hi
    exact after_frame q i (List.mem_range.mp hi)
  rw [← range_divMod 525 797, frame, List.map_map, List.map_map]
  simp only [Function.comp_def]
  exact List.map_congr_left hclock

theorem coordinates_visible (r c : Nat) (hr : r < 480) (hc : c < 640) :
    coordinates ⟨35 + r, 142 + c⟩ = (some r, some c) := by
  have hrow : row ⟨35 + r, 142 + c⟩ = some (BitVec.ofNat 9 r) := by
    have harg : ((35 + r : Nat) : Int) - ((35 : Nat) : Int) = r := by omega
    show toUnsigned (((35 + r : Nat) : Int) - ((35 : Nat) : Int)) 9 = _
    rw [harg]
    simp [toUnsigned]
  have hcol : col ⟨35 + r, 142 + c⟩ = some (BitVec.ofNat 10 c) := by
    have harg : ((142 + c : Nat) : Int) - ((142 : Nat) : Int) = c := by omega
    show toUnsigned (((142 + c : Nat) : Int) - ((142 : Nat) : Int)) 10 = _
    rw [harg]
    simp [toUnsigned]
  simp only [coordinates, hrow, hcol, Option.map_some, BitVec.toNat_ofNat]
  rw [Nat.mod_eq_of_lt (by omega), Nat.mod_eq_of_lt (by omega)]

/-- The valid clocks of a frame are a window of the raster. -/
theorem frame_valid (q : Nat) :
    ((frame q).map after).filter valid =
      (raster (List.range 480) (List.range 640)).map fun x => ⟨35 + x.1, 142 + x.2⟩ := by
  have hrows : (List.range 525).filter (fun r => rowValid ⟨r, 0⟩) =
      (List.range 480).map (35 + ·) :=
    (range_window 35 515 525).trans List.range'_eq_map_range
  have hcols : (List.range 797).filter (fun c => colValid ⟨0, c⟩) =
      (List.range 640).map (142 + ·) :=
    (range_window 142 782 797).trans List.range'_eq_map_range
  have hfilter := raster_filter (fun r => rowValid ⟨r, 0⟩) (fun c => colValid ⟨0, c⟩)
    (List.range 525) (List.range 797)
  rw [hrows, hcols, ← raster_map] at hfilter
  have hvalid : (fun x : Nat × Nat => valid ⟨x.1, x.2⟩) =
      fun x => rowValid ⟨x.1, 0⟩ && colValid ⟨0, x.2⟩ := rfl
  rw [frame_after, List.filter_map, Function.comp_def, hvalid, hfilter, List.map_map]
  rfl

theorem frame_coordinates (q : Nat) :
    (((frame q).map after).filter valid).map coordinates =
      (raster (List.range 480) (List.range 640)).map fun x => (some x.1, some x.2) := by
  rw [frame_valid, List.map_map]
  apply List.map_congr_left
  intro x hx
  obtain ⟨hr, hc⟩ := mem_raster.mp hx
  exact coordinates_visible x.1 x.2 (List.mem_range.mp hr) (List.mem_range.mp hc)

/-- Clock `i` of line `l` of frame `q`. -/
theorem after_line (q l i : Nat) (hl : l < 525) (hi : i < 797) :
    after (q * (525 * 797) + (l * 797 + i)) = ⟨l, i⟩ := by
  have hdiv : (l * 797 + i) / 797 = l := by omega
  have hmod : (l * 797 + i) % 797 = i := by omega
  rw [after_frame q _ (by omega), hdiv, hmod]

theorem line_horizSync (q l : Nat) (hl : l < 525) :
    (List.range 797).filter (fun i => !horizSync (after (q * (525 * 797) + (l * 797 + i)))) =
      List.range 95 := by
  have hlow : ∀ i ∈ List.range 797,
      (!horizSync (after (q * (525 * 797) + (l * 797 + i)))) = (0 ≤ i && i < 95 : Bool) := by
    intro i hi
    rw [after_line q l i hl (List.mem_range.mp hi)]
    by_cases h : i < 95 <;> simp [horizSync, hsClks, h]
  rw [List.filter_congr hlow, range_window]
  exact List.range_eq_range'.symm

theorem valid_syncs (s : VgaDriver) (h : valid s = true) :
    horizSync s = true ∧ vertSync s = true := by
  simp only [valid, rowValid, colValid, Bool.and_eq_true, decide_eq_true_eq] at h
  obtain ⟨⟨hrow, -⟩, hcol, -⟩ := h
  have hr : ¬ s.rawRow < vsRows := Nat.not_lt.mpr (Nat.le_trans (by decide) hrow)
  have hc : ¬ s.rawCol < hsClks := Nat.not_lt.mpr (Nat.le_trans (by decide) hcol)
  simp [horizSync, vertSync, hr, hc]

/-- **The scan.** The counters after `n` dot clocks; in every frame the valid
clocks show the pixels in raster order, each line has 95 clocks of horizontal
sync, two lines have the vertical sync; and no sync is low at a valid clock. -/
theorem scans_frames :
    (∀ n, (after n).rawCol = n % 797 ∧ (after n).rawRow = n / 797 % 525) ∧
    (∀ q, (frame q).countP (fun n => valid (after n)) = 640 * 480 ∧
      ((frame q).filter fun n => valid (after n)).map (fun n => coordinates (after n)) =
        (List.range 480).flatMap fun r => (List.range 640).map fun c => (some r, some c)) ∧
    (∀ q l, l < 525 →
      (List.range 797).countP (fun i => !horizSync (after (q * (525 * 797) + (l * 797 + i)))) = 95 ∧
      ∀ i < 797, vertSync (after (q * (525 * 797) + (l * 797 + i))) = false ↔ l < 2) ∧
    ∀ n, valid (after n) = true →
      horizSync (after n) = true ∧ vertSync (after n) = true := by
  have hmap : ∀ q, ((frame q).filter fun n => valid (after n)).map after =
      ((frame q).map after).filter valid := by
    intro q
    rw [List.filter_map, Function.comp_def]
  refine ⟨fun n => by rw [after_eq]; exact ⟨rfl, rfl⟩, fun q => ⟨?_, ?_⟩, fun q l hl => ⟨?_, ?_⟩,
    fun n => valid_syncs (after n)⟩
  · have hlen := congrArg List.length ((hmap q).trans (frame_valid q))
    simp only [List.length_map, raster_length, List.length_range] at hlen
    rw [List.countP_eq_length_filter, hlen]
  · have hc := frame_coordinates q
    rw [← hmap, List.map_map, raster, List.map_flatMap] at hc
    simp only [List.map_map, Function.comp_def] at hc
    exact hc
  · rw [List.countP_eq_length_filter, line_horizSync q l hl, List.length_range]
  · intro i hi
    rw [after_line q l i hl hi]
    show (if l < 2 then false else true) = false ↔ l < 2
    split <;> simp [*]

end FpgaLabs.Vga
