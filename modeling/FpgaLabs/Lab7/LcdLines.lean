import FpgaLabs.Lab7.LcdControll
import FpgaLabs.Sync.Hd44780

/-! What the 41 bytes of `LCD_Controll` leave on the display. The second
address command BF selects cell 3F, one before the second line, so the second
line appears shifted to the left with its first character lost. -/

namespace FpgaLabs.Lab7.LcdControll
open Sync

/-- The cells stored to by a whole pass. -/
def cells : List (Nat × Ascii) :=
  (List.range' 0x00 16).zip line1 ++ (List.range' 0x3F 16).zip line2

/-- Both lines in their visible cells. -/
def ShowsLines (d : Hd44780) : Prop :=
  ∀ i < 16, d.ddram i = index line1 (i + 1) ∧ d.ddram (0x40 + i) = index line2 (i + 1)

/-- From any contents the program clears the display and stores its lines. -/
theorem writes_program (d : Hd44780) :
    (d.writes program).ddram = commit (fun _ => 0x20) cells := by
  have hsplit : program = initcode.map (false, ·) ++
      ((false, 0x80) :: line1.map (true, ·) ++ (false, 0xBF) :: line2.map (true, ·)) := by
    simp [program]
  have hclear : (d.writes (initcode.map (false, ·))).ddram = fun _ => 0x20 := rfl
  rw [hsplit, Hd44780.writes_append, Hd44780.writes_ddram _ _ (by decide), hclear,
    Hd44780.stores_append, Hd44780.stores_line _ (by decide), Hd44780.stores_line _ (by decide)]
  rfl

/-- The display after a pass, cell by cell. -/
theorem cells_shown :
    (∀ i < 16, commit (fun _ => 0x20) cells i = index line1 ((i : Int) + 1)) ∧
      (∀ i < 15, commit (fun _ => 0x20) cells (0x40 + i) = index line2 ((i : Int) + 2)) ∧
      commit (fun _ => 0x20) cells 0x4F = 0x20 := by
  decide

/-- The bytes strobed before the latest reset do not matter. -/
theorem shown_s24 (s₀ : Controller) (lcd : Hd44780) {before es : List Event}
    (hes : .reset true ∉ es) (hs : (run step s₀ (before ++ .reset true :: es)).state = .s24) :
    (lcd.writes (strobes step Controller.lcdEn Controller.bus s₀
      (before ++ .reset true :: es))).ddram = commit (fun _ => 0x20) cells := by
  have hsent := (last_pass s₀ before es hes).sent_s24 hs
  rw [strobes_append, hsent, Hd44780.writes_append, writes_program]

theorem not_showsLines {d : Hd44780} (h : d.ddram = commit (fun _ => 0x20) cells) :
    ¬ ShowsLines d := by
  intro hd
  have h0 := (hd 0 (by decide)).2
  rw [h] at h0
  revert h0
  decide

/-- A pass from power-up: cell 40 holds the second character of the line. -/
theorem second_line_lost :
    let s₀ : Controller := ⟨false, .s1, -2147483648, 0, false, false, false⟩
    let before := [Event.reset true, .reset false]
    let es := .reset false :: List.replicate 82 Event.clock
    let d := Hd44780.writes ⟨0, false, fun _ => 0x20, fun _ => 0⟩
      (strobes step Controller.lcdEn Controller.bus s₀ (before ++ .reset true :: es))
    (run step s₀ (before ++ .reset true :: es)).state = .s24 ∧ d.ddram 0x40 = 0x32 ∧
      ¬ ShowsLines d := by
  intro s₀ before es d
  have hes : .reset true ∉ es := by simp [es]
  have hs : (run step s₀ (before ++ .reset true :: es)).state = .s24 :=
    ((last_pass s₀ before es hes).done (by simp [es, edges])).1
  have hd : d.ddram = commit (fun _ => 0x20) cells := shown_s24 s₀ _ hes hs
  refine ⟨hs, ?_, not_showsLines hd⟩
  rw [hd]
  decide

/-- **The second line.** Whenever the controller is in s24, whatever runs and
resets came before: the first line is right, the second starts in the invisible
cell 3F, shows its characters from the second on and ends in a blank. -/
theorem second_line_shifted (s₀ : Controller) (lcd : Hd44780) (before es : List Event)
    (hes : .reset true ∉ es) (hs : (run step s₀ (before ++ .reset true :: es)).state = .s24) :
    let d := lcd.writes (strobes step Controller.lcdEn Controller.bus s₀
      (before ++ .reset true :: es))
    (∀ i < 16, d.ddram i = index line1 ((i : Int) + 1)) ∧
    (∀ i < 15, d.ddram (0x40 + i) = index line2 ((i : Int) + 2)) ∧ d.ddram 0x4F = 0x20 ∧
    ¬ ShowsLines d := by
  intro d
  have hd : d.ddram = commit (fun _ => 0x20) cells := shown_s24 s₀ lcd hes hs
  have hcells := cells_shown
  rw [← hd] at hcells
  exact ⟨hcells.1, hcells.2.1, hcells.2.2, not_showsLines hd⟩

/-- A run from power-up needs no reset in its statement: without one its first
edge is an index error. -/
theorem not_showsLines_powerUp (lcd : Hd44780) {es : List Event}
    (hes : EachStep step IndexOk powerUp es) (hs : (run step powerUp es).state = .s24) :
    ¬ ShowsLines (lcd.writes (strobes step Controller.lcdEn Controller.bus powerUp es)) := by
  obtain ⟨before, rest, rfl, hrest⟩ := reset_of_s24 hes hs
  exact not_showsLines (shown_s24 powerUp lcd hrest hs)

/-- The same after a pass that a reset broke off with the strobe up. -/
theorem second_line_shifted_again :
    let s₀ : Controller := ⟨false, .s1, -2147483648, 0, false, false, false⟩
    let before := .reset true :: .reset false :: List.replicate 21 Event.clock
    let es := .reset false :: List.replicate 82 Event.clock
    ¬ ShowsLines (Hd44780.writes ⟨0, false, fun _ => 0x20, fun _ => 0⟩
      (strobes step Controller.lcdEn Controller.bus s₀ (before ++ .reset true :: es))) := by
  intro s₀ before es
  have hes : .reset true ∉ es := by simp [es]
  have hs : (run step s₀ (before ++ .reset true :: es)).state = .s24 :=
    ((last_pass s₀ before es hes).done (by simp [es, edges])).1
  exact (second_line_shifted s₀ _ before es hes hs).2.2.2

end FpgaLabs.Lab7.LcdControll
