import FpgaLabs.Sync.Hd44780
import FpgaLabs.Sync.Strobe
import Mathlib.Data.List.FinRange

/-! The display driver `LCD_Display.vhd` of HW2. A command takes three edges of
the 400 Hz clock: its own state puts a byte on the bus, `DROP_LCD_E` strobes
it, and `HOLD` goes on to the next command. The string is configurable. -/

namespace FpgaLabs.Hw2
open Sync

abbrev Byte := BitVec 8

/-- An entry of the display string: an ASCII byte, or X"0" and four bits of
`Hex_Display_Data`. -/
inductive Entry (numHexDigits : Nat)
  | ascii (c : Byte)
  | live (digit : Fin numHexDigits)
  deriving DecidableEq

/-- The end of the string, X"FE". -/
def terminator {numHexDigits : Nat} : Entry numHexDigits := .ascii 0xFE

/-- The byte of an entry for the present live data. -/
def Entry.value {numHexDigits : Nat} (hex : BitVec (4 * numHexDigits)) :
    Entry numHexDigits → Byte
  | .ascii c => c
  | .live digit => 0x0#4 ++ hex.extractLsb' (4 * digit) 4

/-- The display string as shipped, with two live digits. -/
def lcdDisplayString (k : Fin 32) : Entry 2 :=
  [.ascii 0x43, .ascii 0x6F, .ascii 0x75, .ascii 0x6E, .ascii 0x74, .ascii 0x3D, .live 1,
    .live 0, .ascii 0x20, .ascii 0x20, .ascii 0x20, .ascii 0x20, .ascii 0x20, .ascii 0x20,
    .ascii 0x20, .ascii 0x20, .ascii 0x44, .ascii 0x45, .ascii 0x32].getD k (.ascii 0x20)

/-- Fifteen letters A and the terminator. -/
def fifteenLetters (k : Fin 32) : Entry 2 := if k < 15 then .ascii 0x41 else terminator

inductive StateType
  | hold | funcSet | displayOn | modeSet | printString | line2 | returnHome | dropLcdE
  | reset1 | reset2 | reset3 | displayOff | displayClear
  deriving DecidableEq, Repr

/-- The signals of the state machine, with the input `reset`, which is low while
the button is pressed. -/
structure Signals where
  reset : Bool
  state : StateType
  nextCommand : StateType
  charCount : Fin 32
  dataBusValue : Byte
  lcdE : Bool
  lcdRs : Bool
  lcdRwInt : Bool

/-- An edge of `CLK_400HZ` with the live data at that time, or a new level of
`reset`. -/
inductive Event (numHexDigits : Nat)
  | clock (hex : BitVec (4 * numHexDigits))
  | reset (level : Bool)
  deriving DecidableEq

/-- The character printed for `Next_Char`. -/
def char (nextChar : Byte) : Byte :=
  let low := nextChar.extractLsb' 0 4
  if nextChar.extractLsb' 4 4 ≠ 0 then nextChar
  else if 9 < low.toNat then 0x4#4 ++ (low - 9)
  else 0x3#4 ++ low

/-- A branch that sends a command. -/
def Signals.command (s : Signals) (data : Byte) (next : StateType) : Signals :=
  { s with lcdE := true, lcdRs := false, lcdRwInt := false, dataBusValue := data,
           state := .dropLcdE, nextCommand := next }

section
variable {numHexDigits : Nat} (string : Fin 32 → Entry numHexDigits)

/-- `WHEN Print_String`. Both IF chains look at the same old `CHAR_COUNT`. -/
def printString (hex : BitVec (4 * numHexDigits)) (s : Signals) : Signals :=
  let nextChar := (string s.charCount).value hex
  { s with
    lcdE := true, lcdRs := true, lcdRwInt := false, dataBusValue := char nextChar,
    state := .dropLcdE,
    charCount := if s.charCount < 31 ∧ nextChar ≠ 0xFE then s.charCount + 1 else 0,
    nextCommand :=
      if s.charCount = 15 then .line2
      else if s.charCount = 31 ∨ nextChar = 0xFE then .returnHome
      else .printString }

/-- `CASE state`. -/
def caseState (hex : BitVec (4 * numHexDigits)) (s : Signals) : Signals :=
  match s.state with
  | .reset1 => { s.command 0x38 .reset2 with charCount := 0 }
  | .reset2 => s.command 0x38 .reset3
  | .reset3 => s.command 0x38 .funcSet
  | .funcSet => s.command 0x38 .displayOff
  | .displayOff => s.command 0x08 .displayClear
  | .displayClear => s.command 0x01 .displayOn
  | .displayOn => s.command 0x0C .modeSet
  | .modeSet => s.command 0x06 .printString
  | .printString => printString string hex s
  | .line2 => s.command 0xC0 .printString
  | .returnHome => s.command 0x80 .printString
  | .dropLcdE => { s with lcdE := false, state := .hold }
  | .hold => { s with state := s.nextCommand }

/-- The asynchronous branch. `CHAR_COUNT` is left to `RESET1`. -/
def Signals.clear (s : Signals) : Signals :=
  { s with state := .reset1, dataBusValue := 0x38, nextCommand := .reset2, lcdE := true,
           lcdRs := false, lcdRwInt := true }

def step (s : Signals) : Event numHexDigits → Signals
  | .clock hex => if s.reset then caseState string hex s else s.clear
  | .reset level =>
    if level then { s with reset := true } else ({ s with reset := false } : Signals).clear

/-- The leftmost values. -/
def powerUp : Signals := ⟨true, .hold, .hold, 0, 0, false, false, false⟩

def Signals.bus (s : Signals) : Bool × Byte := (s.lcdRs, s.dataBusValue)

/-- The byte the display takes in a step, if it is not read from. -/
def sent (s : Signals) (e : Event numHexDigits) : List (Bool × Byte) :=
  if s.lcdRwInt then [] else strobe Signals.lcdE Signals.bus s (step string s e)

/-- The live data of an entry put on the bus. -/
def printed (s : Signals) : Event numHexDigits → Option (BitVec (4 * numHexDigits))
  | .clock hex => if s.reset = true ∧ s.state = .printString then some hex else none
  | .reset _ => none

/-! ## What the entries should do -/

/-- The number of entries of a pass: up to the first terminator, or all 32. -/
def passLength : Nat :=
  min 32 ((List.finRange 32).findIdx (fun k => string k = terminator) + 1)

/-- The cell of entry k. -/
def cell (k : Fin 32) : Nat := if k.val ≤ 15 then k.val else 0x40 + (k.val - 16)

/-- An entry itself, or for X"0" & n the ASCII hex digit of n. -/
def shown (entry : Byte) : Byte :=
  let n := entry.toNat
  if n < 10 then BitVec.ofNat 8 (0x30 + n)
  else if n < 16 then BitVec.ofNat 8 (0x41 + (n - 10))
  else entry

/-- Where and as what the `j`-th entry printed should be stored: entry 0, 1, ...
to the end of the pass, and again from entry 0. -/
def landing (j : Nat) (hex : BitVec (4 * numHexDigits)) : Nat × Byte :=
  let k := Fin.ofNat 32 (j % passLength string)
  (cell k, shown ((string k).value hex))

/-- The clock edges among the events that find the button released. -/
def edges : Bool → List (Event numHexDigits) → Nat
  | _, [] => 0
  | level, .clock _ :: es => (if level then 1 else 0) + edges level es
  | _, .reset level :: es => edges level es

/-- The commands of a pass: its entries, `LINE2` before entry 16, `RETURN_HOME`. -/
def passCommands : Nat := passLength string + if 16 < passLength string then 2 else 1

/-- The entries among so many commands of passes. -/
def entriesAmong (commands : Nat) : Nat :=
  let rest := commands % passCommands string
  commands / passCommands string * passLength string + if rest ≤ 16 then rest else rest - 1

/-- The entries stored after so many edges. A command takes three edges and is
strobed at the second of them; the first eight are the initialisation. -/
def entriesBy (edges : Nat) : Nat := entriesAmong string ((edges + 1) / 3 - 8)

theorem char_eq_shown : ∀ c, char c = shown c := by
  decide

variable {string}

theorem value_terminator_iff (hex : BitVec (4 * numHexDigits)) (entry : Entry numHexDigits) :
    entry.value hex = 0xFE ↔ entry = terminator := by
  cases entry with
  | ascii c => simp [Entry.value, terminator]
  | live digit =>
    refine iff_of_false (fun h => ?_) (by simp [terminator])
    have hhigh := congrArg (BitVec.extractLsb' 4 4) h
    rw [Entry.value, BitVec.extractLsb'_append_eq_left] at hhigh
    exact absurd hhigh (by decide)

/-! ## The pass -/

/-- An entry belongs to the pass if no terminator stands before it. -/
theorem lt_passLength_iff (k : Fin 32) :
    k.val < passLength string ↔ ∀ i < k, string i ≠ terminator := by
  have hk := k.isLt
  have hidx : k.val < passLength string ↔
      k.val ≤ (List.finRange 32).findIdx fun k => string k = terminator := by
    simp only [passLength]
    omega
  rw [hidx]
  constructor
  · intro h i hi
    have hnot := List.not_of_lt_findIdx (Nat.lt_of_lt_of_le hi h)
    simpa using hnot
  · intro h
    refine List.le_findIdx_of_not (by simp) fun i hi => ?_
    simpa using h ⟨i, by omega⟩ hi

/-- The first terminator is the last entry of line 1. -/
def EndsLine1 (string : Fin 32 → Entry numHexDigits) : Prop :=
  string 15 = terminator ∧ ∀ k < 15, string k ≠ terminator

theorem passLength_pos : 0 < passLength string := by
  simp only [passLength]
  omega

theorem passLength_le : passLength string ≤ 32 := Nat.min_le_left 32 _

/-- The last entry of the pass is entry 31 or the terminator. -/
theorem passLength_eq_iff {k : Fin 32} (hk : k.val < passLength string) :
    k.val + 1 = passLength string ↔ k = 31 ∨ string k = terminator := by
  have hle : passLength string ≤ 32 := passLength_le
  by_cases h31 : k = 31
  · subst h31
    have hval : (31 : Fin 32).val = 31 := rfl
    exact iff_of_true (by omega) (Or.inl rfl)
  · have hne : k.val ≠ 31 := fun h => h31 (Fin.ext h)
    have hlt := k.isLt
    have hbefore := (lt_passLength_iff k).mp hk
    have hnext := @lt_passLength_iff _ string ⟨k.val + 1, by omega⟩
    have hend : k.val + 1 < passLength string ↔ string k ≠ terminator := by
      rw [hnext]
      constructor
      · intro h
        exact h k (Nat.lt_succ_self k.val)
      · intro h i hi
        rcases Nat.lt_succ_iff_lt_or_eq.mp hi with hi | hi
        · exact hbefore i hi
        · rw [Fin.ext hi]
          exact h
    constructor
    · intro h
      refine Or.inr ?_
      by_contra hne'
      have hmore := hend.mpr hne'
      omega
    · rintro (h | h)
      · exact absurd h h31
      · have hstop : ¬ k.val + 1 < passLength string := fun hm => hend.mp hm h
        omega

end

end FpgaLabs.Hw2
