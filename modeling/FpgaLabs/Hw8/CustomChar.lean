import FpgaLabs.Sync.Hd44780
import FpgaLabs.Sync.Run

/-! Custom characters on the LCD, `rpds_de_test.c`. Position `pos` has glyph
slot `pos + 1`, and the command for slot 8 is the one that selects cell 0. -/

namespace FpgaLabs.Hw8
open Sync

abbrev Byte := BitVec 8

/-- `IOWR` to `LCD_WR_COMMAND_REG` and to `LCD_WR_DATA_REG`. -/
def commandReg (data : Nat) : Bool × Byte := (false, BitVec.ofNat 8 data)
def dataReg (data : Byte) : Bool × Byte := (true, data)

def lcdInit : List (Bool × Byte) :=
  [commandReg 0x38, commandReg 0x38, commandReg 0x38, commandReg 0x38, commandReg 0x08,
    commandReg 0x0C, commandReg 0x06, commandReg 0x02, commandReg 0x01]

def customChar (cChar : Fin 8 → Byte) (pos : Nat) : List (Bool × Byte) :=
  commandReg (0x48 + pos * 8) :: (List.ofFn cChar).map dataReg ++
    [commandReg (0x80 + pos), dataReg (BitVec.ofNat 8 (pos + 1))]

/-- A call of `customChar`. -/
structure Call where
  bitmap : Fin 8 → Byte
  pos : Fin 8

def draw (d : Hd44780) (c : Call) : Hd44780 := d.writes (customChar c.bitmap c.pos)

/-- `lcd_init`, then the calls. -/
def display (d : Hd44780) (calls : List Call) : Hd44780 := run draw (d.writes lcdInit) calls

/-! ## What is asked -/

/-- The last bitmap passed for each column. -/
def ask (m : Nat → Option (Fin 8 → Byte)) (c : Call) : Nat → Option (Fin 8 → Byte) :=
  Function.update m c.pos (some c.bitmap)

def asked (calls : List Call) : Nat → Option (Fin 8 → Byte) := run ask (fun _ => none) calls

/-- The cell holds a code of glyph memory, and the slot of the code the bitmap. -/
def Shows (d : Hd44780) (cell : Nat) (bitmap : Fin 8 → Byte) : Prop :=
  (d.ddram cell).toNat < 16 ∧ ∀ r : Fin 8, d.glyphs (8 * ((d.ddram cell).toNat % 8) + r) = bitmap r

/-- Named columns show their bitmap, all other cells are blank. -/
def ShowsAsked (m : Nat → Option (Fin 8 → Byte)) (d : Hd44780) : Prop :=
  ∀ cell, match m cell with
    | some bitmap => Shows d cell bitmap
    | none => d.ddram cell = 0x20

/-! ## The effect of a call -/

theorem lcdInit_writes (d : Hd44780) :
    d.writes lcdInit =
      { address := 0, cgram := false, ddram := fun _ => 0x20, glyphs := d.glyphs } := by
  simp [Hd44780.writes, lcdInit, commandReg, Hd44780.write, Hd44780.command]

/-- The eight rows of a call fill the memory its first command selects. -/
theorem draw_eq (d : Hd44780) (c : Call) :
    draw d c = ((d.write (commandReg (0x48 + c.pos * 8))).writes
      ((List.ofFn c.bitmap).map (true, ·))).writes
        [commandReg (0x80 + c.pos), dataReg (BitVec.ofNat 8 (c.pos + 1))] :=
  Hd44780.writes_append _ _ _

/-- The code and its cell. -/
theorem writes_code (d : Hd44780) (pos : Fin 8) :
    d.writes [commandReg (0x80 + pos), dataReg (BitVec.ofNat 8 (pos + 1))] =
      { address := pos + 1
        cgram := false
        ddram := Function.update d.ddram pos (BitVec.ofNat 8 (pos + 1))
        glyphs := d.glyphs } := by
  have hpos := pos.isLt
  have hc : (BitVec.ofNat 8 (0x80 + pos)).toNat = 0x80 + pos := by
    rw [BitVec.toNat_ofNat]
    omega
  have hcell := d.write_address (c := BitVec.ofNat 8 (0x80 + pos)) (by omega)
  rw [hc, Nat.add_sub_cancel_left] at hcell
  show ((d.write (false, BitVec.ofNat 8 (0x80 + pos))).data _) = _
  rw [hcell]
  rfl

theorem draw_low (d : Hd44780) {c : Call} (h : c.pos ≠ 7) :
    draw d c =
      { address := c.pos + 1
        cgram := false
        ddram := Function.update d.ddram c.pos (BitVec.ofNat 8 (c.pos + 1))
        glyphs := fill d.glyphs (8 * (c.pos + 1)) (List.ofFn c.bitmap) } := by
  have hpos : c.pos.val < 7 := by omega
  have hc : (BitVec.ofNat 8 (0x48 + c.pos * 8)).toNat = 0x48 + c.pos * 8 := by
    rw [BitVec.toNat_ofNat]
    omega
  have hslot := d.write_glyphAddress (c := BitVec.ofNat 8 (0x48 + c.pos * 8)) (by omega) (by omega)
  have haddress : 0x48 + c.pos * 8 - 0x40 = 8 * (c.pos.val + 1) := by omega
  rw [hc, haddress] at hslot
  rw [draw_eq, writes_code, Hd44780.writes_line, commandReg, hslot]
  rfl

/-- At the last position the rows go to the display. -/
theorem draw_seven (d : Hd44780) {c : Call} (h : c.pos = 7) :
    draw d c =
      { address := 8
        cgram := false
        ddram := Function.update (fill d.ddram 0 (List.ofFn c.bitmap)) 7 0x08
        glyphs := d.glyphs } := by
  have hcell := d.write_address (c := BitVec.ofNat 8 (0x48 + (7 : Fin 8) * 8)) (by decide)
  have hzero : (BitVec.ofNat 8 (0x48 + (7 : Fin 8) * 8)).toNat - 0x80 = 0 := by decide
  rw [hzero] at hcell
  rw [draw_eq, writes_code, Hd44780.writes_line, commandReg, h, hcell]
  rfl

/-! ## Any sequence of calls -/

/-- What is asked and what is there, as long as the last position is not used:
cell `p` has the code `p + 1`. -/
def Holds (m : Nat → Option (Fin 8 → Byte)) (d : Hd44780) : Prop :=
  ∀ cell, match m cell with
    | some bitmap => cell < 7 ∧ d.ddram cell = BitVec.ofNat 8 (cell + 1) ∧
        ∀ r : Fin 8, d.glyphs (8 * (cell + 1) + r) = bitmap r
    | none => d.ddram cell = 0x20

theorem draw_holds (m : Nat → Option (Fin 8 → Byte)) (d : Hd44780) (c : Call) (h : Holds m d)
    (hc : c.pos ≠ 7) : Holds (ask m c) (draw d c) := by
  have hpos : c.pos.val < 7 := by omega
  rw [draw_low d hc]
  intro cell
  by_cases hcell : cell = c.pos
  · subst hcell
    simp only [ask, Function.update_self]
    refine ⟨hpos, trivial, fun r => ?_⟩
    rw [fill_inside _ _ _ (by simp), List.getElem_ofFn]
  · have hold := h cell
    simp only [ask, Function.update_of_ne hcell]
    cases hm : m cell with
    | none =>
      rw [hm] at hold
      exact hold
    | some bitmap =>
      rw [hm] at hold
      obtain ⟨hlt, hcode, hrows⟩ := hold
      refine ⟨hlt, hcode, fun r => ?_⟩
      -- another slot
      have hr := r.isLt
      rw [fill_outside _ _ _ (by simp only [List.length_ofFn]; omega)]
      exact hrows r

theorem Holds.showsAsked {m : Nat → Option (Fin 8 → Byte)} {d : Hd44780} (h : Holds m d) :
    ShowsAsked m d := by
  intro cell
  have hold := h cell
  cases hm : m cell with
  | none =>
    rw [hm] at hold
    exact hold
  | some bitmap =>
    rw [hm] at hold
    obtain ⟨hlt, hcode, hrows⟩ := hold
    have hval : (d.ddram cell).toNat = cell + 1 := by
      rw [hcode, BitVec.toNat_ofNat]
      omega
    refine ⟨by omega, fun r => ?_⟩
    rw [hval, Nat.mod_eq_of_lt (by omega)]
    exact hrows r

theorem init_holds (d : Hd44780) : Holds (fun _ => none) (d.writes lcdInit) := by
  intro cell
  rw [lcdInit_writes]

/-- No call writes slot 0, and once used cell 7 keeps the code 8, which shows
slot 0. -/
def Stale (g : Nat → Byte) (m : Nat → Option (Fin 8 → Byte)) (d : Hd44780) : Prop :=
  ((m 7).isSome = true → d.ddram 7 = 0x08) ∧ ∀ r : Fin 8, d.glyphs r = g r

theorem draw_stale (g : Nat → Byte) (m : Nat → Option (Fin 8 → Byte)) (d : Hd44780) (c : Call)
    (h : Stale g m d) : Stale g (ask m c) (draw d c) := by
  obtain ⟨hcode, hslot⟩ := h
  by_cases hc : c.pos = 7
  · rw [draw_seven d hc]
    exact ⟨fun _ => by simp, hslot⟩
  · have hpos : 7 ≠ c.pos.val := by omega
    rw [draw_low d hc]
    refine ⟨fun hm => ?_, fun r => ?_⟩
    · rw [ask, Function.update_of_ne hpos] at hm
      show Function.update d.ddram _ _ 7 = _
      rw [Function.update_of_ne hpos]
      exact hcode hm
    · have hr := r.isLt
      show fill _ _ _ _ = _
      rw [fill_outside _ _ _ (by omega)]
      exact hslot r

theorem asked_some (m : Nat → Option (Fin 8 → Byte)) (calls : List Call) (p : Nat)
    (h : (m p).isSome = true ∨ ∃ c ∈ calls, c.pos.val = p) : (run ask m calls p).isSome = true := by
  induction calls generalizing m with
  | nil =>
    rcases h with h | ⟨c, hc, -⟩
    · exact h
    · exact absurd hc List.not_mem_nil
  | cons c calls ih =>
    refine ih (ask m c) ?_
    by_cases hp : p = c.pos
    · exact Or.inl (by rw [ask, hp, Function.update_self]; rfl)
    · rw [ask, Function.update_of_ne hp]
      rcases h with h | ⟨b, hb, hpos⟩
      · exact Or.inl h
      · rcases List.mem_cons.mp hb with rfl | hb
        · exact absurd hpos.symm hp
        · exact Or.inr ⟨b, hb, hpos⟩

/-- Whatever is asked, slot 0 shows at cell 7 once it is named. -/
theorem display_stale (d : Hd44780) (calls : List Call) :
    Stale d.glyphs (asked calls) (display d calls) := by
  have hinit : Stale d.glyphs (fun _ => none) (d.writes lcdInit) := by
    rw [lcdInit_writes]
    exact ⟨fun h => absurd h (by decide), fun r => rfl⟩
  have hsteps : EachStep ask (fun _ _ => True) (fun _ => none) calls :=
    eachStep_iff.mpr fun _ _ _ _ => trivial
  exact run_lockstep (Stale d.glyphs) (fun m e c h _ => draw_stale _ m e c h) hinit hsteps

theorem display_holds (d : Hd44780) {calls : List Call} (h : ∀ c ∈ calls, c.pos ≠ 7) :
    Holds (asked calls) (display d calls) := by
  have hsteps : EachStep ask (fun _ c => c.pos ≠ 7) (fun _ => none) calls := by
    refine eachStep_iff.mpr fun p c q hcalls => h c ?_
    simp [hcalls]
  exact run_lockstep Holds (fun m e c h hc => draw_holds m e c h hc) (init_holds d) hsteps

/-- What cell 7 shows was there before `lcd_init`. -/
theorem shows_seven {d : Hd44780} {calls : List Call} {bitmap : Fin 8 → Byte}
    (hasked : asked calls 7 = some bitmap) (h : ShowsAsked (asked calls) (display d calls)) :
    d.glyphs 0 = bitmap 0 := by
  obtain ⟨hcode, hslot⟩ := display_stale d calls
  have hcell := h 7
  rw [hasked] at hcell hcode
  obtain ⟨-, hrows⟩ := hcell
  rw [hcode rfl] at hrows
  exact (hslot 0).symm.trans (hrows 0)

/-- A display whose glyph memory holds `b` everywhere. -/
def powerUp (b : Byte) : Hd44780 := ⟨0, false, fun _ => 0x20, fun _ => b⟩

/-- One call at position 7, with an empty slot 0. -/
theorem seventh_notShown :
    ¬ ShowsAsked (asked [⟨fun _ => 0x1F, 7⟩]) (display (powerUp 0) [⟨fun _ => 0x1F, 7⟩]) := by
  intro h
  have hrow := @shows_seven _ _ (fun _ => 0x1F) rfl h
  exact absurd (show (0 : Byte) = 0x1F from hrow) (by decide)

/-- **Custom characters.** After any calls, whatever the memories held before
`lcd_init`: every named column shows its last bitmap and all other cells are
blank, exactly when no call names position 7. -/
theorem customChar_shows_iff (calls : List Call) :
    (∀ d, ShowsAsked (asked calls) (display d calls)) ↔ ∀ c ∈ calls, c.pos ≠ 7 := by
  constructor
  · intro h c hc hseven
    obtain ⟨bitmap, hasked⟩ := Option.isSome_iff_exists.mp
      (asked_some (fun _ => none) calls 7 (Or.inr ⟨c, hc, by rw [hseven]; rfl⟩))
    -- slot 0 held something else
    have hrow : bitmap 0 + 1 = bitmap 0 := shows_seven hasked (h (powerUp (bitmap 0 + 1)))
    revert hrow
    generalize bitmap 0 = b
    revert b
    decide
  · intro h d
    exact (display_holds d h).showsAsked

end FpgaLabs.Hw8
