import FpgaLabs.Hw2.LcdDisplay
import FpgaLabs.Sync.Counter

/-! Which entries `LCD_Display` stores where. The three edges of a command are
first put together into one step of a machine of commands; that machine and the
display are then followed through the passes. -/

namespace FpgaLabs.Hw2
open Sync

/-- Neither of the two states that end every command. -/
def StateType.IsCommand (c : StateType) : Prop := c ≠ .dropLcdE ∧ c ≠ .hold

instance (c : StateType) : Decidable c.IsCommand := inferInstanceAs (Decidable (_ ∧ _))

/-- The command to be sent next, and the entry to be printed next. -/
structure Cursor where
  command : StateType
  charCount : Fin 32

def Signals.cursor (s : Signals) : Cursor :=
  ⟨if s.state.IsCommand then s.state else s.nextCommand, s.charCount⟩

section
variable {numHexDigits : Nat} (string : Fin 32 → Entry numHexDigits)

/-- The signals after the state of a command. -/
def Cursor.load (c : Cursor) (hex : BitVec (4 * numHexDigits)) : Signals :=
  caseState string hex ⟨true, c.command, .hold, c.charCount, 0, false, false, false⟩

def Cursor.next (c : Cursor) (hex : BitVec (4 * numHexDigits)) : Cursor := (c.load string hex).cursor

def Cursor.bytes (c : Cursor) (hex : BitVec (4 * numHexDigits)) : List (Bool × Byte) :=
  [(c.load string hex).bus]

def Cursor.printed (c : Cursor) (hex : BitVec (4 * numHexDigits)) :
    Option (BitVec (4 * numHexDigits)) :=
  if c.command = .printString then some hex else none

/-! ## Three edges, one command -/

/-- The edge that loads a command. -/
def loaded (s : Signals) : Event numHexDigits → Option (BitVec (4 * numHexDigits))
  | .clock hex => if s.reset = true ∧ s.state.IsCommand then some hex else none
  | .reset _ => none

/-- The byte on the bus that is not strobed yet. -/
def Signals.pending (s : Signals) : List (Bool × Byte) :=
  if s.state = .dropLcdE then [s.bus] else []

/-- Between two resets. -/
structure Phase (s : Signals) : Prop where
  strobed : s.state = .dropLcdE → s.lcdE = true ∧ s.lcdRwInt = false
  goesOn : ¬ s.state.IsCommand → s.nextCommand.IsCommand
  held : s.reset = false → s.state = .reset1

variable {string}

/-- Only `DROP_LCD_E` lowers the strobe. -/
theorem sent_of_up {s : Signals} {e : Event numHexDigits}
    (h : s.lcdE = true → (step string s e).lcdE = true) : sent string s e = [] := by
  simp only [sent, strobe]
  cases hE : s.lcdE with
  | false => simp
  | true => simp [h hE]

/-- A state of a command, whatever the other signals are. -/
theorem caseState_command {s : Signals} (hs : s.state.IsCommand)
    (hex : BitVec (4 * numHexDigits)) :
    (caseState string hex s).state = .dropLcdE ∧ (caseState string hex s).lcdE = true ∧
      (caseState string hex s).lcdRwInt = false ∧
      (caseState string hex s).reset = s.reset ∧
      (caseState string hex s).nextCommand.IsCommand ∧
      (caseState string hex s).cursor = s.cursor.next string hex ∧
      [(caseState string hex s).bus] = s.cursor.bytes string hex := by
  have hc : s.cursor = ⟨s.state, s.charCount⟩ := by simp [Signals.cursor, hs]
  rw [hc]
  simp only [Cursor.next, Cursor.bytes, Cursor.load]
  cases hstate : s.state
  case dropLcdE => exact absurd hstate hs.1
  case hold => exact absurd hstate hs.2
  case printString =>
    simp only [caseState, hstate]
    refine ⟨rfl, rfl, rfl, rfl, ?_, rfl, rfl⟩
    simp only [printString]
    split
    · decide
    · split <;> decide
  all_goals
    simp only [caseState, hstate]
    exact ⟨rfl, rfl, rfl, rfl, by simp only [Signals.command]; decide, rfl, rfl⟩

/-- What one event between two resets does to the machine of commands. -/
structure Follows (string : Fin 32 → Entry numHexDigits) (s : Signals)
    (e : Event numHexDigits) : Prop where
  phase : Phase (step string s e)
  cursor : (step string s e).cursor = (loaded s e).elim s.cursor (s.cursor.next string)
  bytes : sent string s e ++ (step string s e).pending =
    s.pending ++ ((loaded s e).elim [] (s.cursor.bytes string))
  printed : printed s e = (loaded s e).bind s.cursor.printed

theorem clear_phase (s : Signals) : Phase s.clear :=
  ⟨fun h => by simp [Signals.clear] at h, fun h => absurd h (by simp [Signals.clear]; decide),
    fun _ => rfl⟩

/-- A command is loaded. -/
theorem command_follows {s : Signals} (hr : s.reset = true) (hs : s.state.IsCommand)
    (hex : BitVec (4 * numHexDigits)) : Follows string s (.clock hex) := by
  have hstep : step string s (.clock hex) = caseState string hex s := by simp [step, hr]
  obtain ⟨hdrop, hE, hrw, hreset, hnext, hcursor, hbytes⟩ := caseState_command hs hex
  have hsent : sent string s (.clock hex) = [] := sent_of_up fun _ => by rw [hstep, hE]
  have hload : loaded s (.clock hex) = some hex := by simp [loaded, hr, hs]
  have hc : s.cursor = ⟨s.state, s.charCount⟩ := by simp [Signals.cursor, hs]
  refine ⟨?_, ?_, ?_, ?_⟩
  · rw [hstep]
    exact ⟨fun _ => ⟨hE, hrw⟩, fun _ => hnext, fun hf => by simp [hreset, hr] at hf⟩
  · rw [hstep, hload, hcursor]
    rfl
  · rw [hsent, hload, hstep, Signals.pending, if_pos hdrop, hbytes, Signals.pending,
      if_neg hs.1]
    rfl
  · rw [hload, hc]
    simp [printed, hr, Cursor.printed]

/-- Nothing is loaded or printed in the two states that end a command. -/
theorem ending_none {s : Signals} (hs : ¬ s.state.IsCommand) (hex : BitVec (4 * numHexDigits)) :
    loaded s (.clock hex) = none ∧ printed s (.clock hex) = none ∧
      s.cursor = ⟨s.nextCommand, s.charCount⟩ := by
  refine ⟨by simp [loaded, hs], if_neg fun hp => hs ?_, by simp [Signals.cursor, hs]⟩
  rw [hp.2]
  decide

/-- The strobe falls. -/
theorem drop_follows {s : Signals} (h : Phase s) (hr : s.reset = true) (hs : s.state = .dropLcdE)
    (hex : BitVec (4 * numHexDigits)) : Follows string s (.clock hex) := by
  have hcommand : ¬ s.state.IsCommand := fun hc => hc.1 hs
  obtain ⟨hload, hprinted, hc⟩ := ending_none hcommand hex
  obtain ⟨hE, hrw⟩ := h.strobed hs
  have hnext := h.goesOn hcommand
  have hstep : step string s (.clock hex) = { s with lcdE := false, state := .hold } := by
    simp [step, hr, caseState, hs]
  refine ⟨?_, ?_, ?_, ?_⟩
  · rw [hstep]
    exact ⟨fun hf => by simp at hf, fun _ => hnext, fun hf => by simp [hr] at hf⟩
  · rw [hstep, hload, hc]
    rfl
  · simp [sent, hstep, hload, hrw, strobe, hE, Signals.pending, hs]
  · rw [hprinted, hload]
    rfl

/-- The next command is entered. -/
theorem hold_follows {s : Signals} (h : Phase s) (hr : s.reset = true) (hs : s.state = .hold)
    (hex : BitVec (4 * numHexDigits)) : Follows string s (.clock hex) := by
  have hcommand : ¬ s.state.IsCommand := fun hc => hc.2 hs
  obtain ⟨hload, hprinted, hc⟩ := ending_none hcommand hex
  have hnext := h.goesOn hcommand
  have hstep : step string s (.clock hex) = { s with state := s.nextCommand } := by
    simp [step, hr, caseState, hs]
  have hsent : sent string s (.clock hex) = [] := sent_of_up fun hE => by
    rw [hstep]
    exact hE
  refine ⟨?_, ?_, ?_, ?_⟩
  · rw [hstep]
    exact ⟨fun hf => absurd hf hnext.1, fun hf => absurd hnext hf, fun hf => by simp [hr] at hf⟩
  · rw [hstep, hload, hc]
    simp [Signals.cursor, hnext]
  · rw [hsent, hload, hstep]
    simp [Signals.pending, hs, hnext.1]
  · rw [hprinted, hload]
    rfl

theorem caseState_follows {s : Signals} (h : Phase s) (hr : s.reset = true)
    (hex : BitVec (4 * numHexDigits)) : Follows string s (.clock hex) := by
  by_cases hs : s.state.IsCommand
  · exact command_follows hr hs hex
  · by_cases hdrop : s.state = .dropLcdE
    · exact drop_follows h hr hdrop hex
    · have hhold : s.state = .hold := by
        by_contra hne
        exact hs ⟨hdrop, hne⟩
      exact hold_follows h hr hhold hex

theorem step_follows {s : Signals} (h : Phase s) {e : Event numHexDigits}
    (he : e ≠ .reset false) : Follows string s e := by
  cases e with
  | clock hex =>
    cases hr : s.reset with
    | true => exact caseState_follows h hr hex
    | false =>
      -- the process repeats the assignments of the reset
      have hs := h.held hr
      have hstep : step string s (.clock hex) = s.clear := by simp [step, hr]
      have hload : loaded s (.clock hex) = none := by simp [loaded, hr]
      have hsent : sent string s (.clock hex) = [] := sent_of_up fun _ => by rw [hstep]; rfl
      refine ⟨?_, ?_, ?_, ?_⟩
      · rw [hstep]
        exact clear_phase s
      · rw [hstep, hload]
        simp [Signals.cursor, Signals.clear, hs, StateType.IsCommand]
      · rw [hsent, hload, hstep]
        simp [Signals.pending, Signals.clear, hs]
      · simp [printed, hr, hload]
  | reset level =>
    have hl : level = true := by
      cases level with
      | false => exact absurd rfl he
      | true => rfl
    subst hl
    have hsent : sent string s (.reset true) = [] := sent_of_up fun hE => hE
    refine ⟨⟨h.strobed, h.goesOn, by simp [step]⟩, rfl, ?_, rfl⟩
    rw [hsent]
    simp [step, Signals.pending, loaded]
    rfl

/-- **From one reset to the next** the bytes strobed are those of the commands,
but for one that may still stand on the bus. -/
theorem run_follows {s : Signals} (h : Phase s) {es : List (Event numHexDigits)}
    (hes : .reset false ∉ es) :
    Phase (run (step string) s es) ∧
      (run (step string) s es).cursor =
        run (Cursor.next string) s.cursor (inputs (step string) loaded s es) ∧
      emitted (step string) (sent string) s es ++ (run (step string) s es).pending =
        s.pending ++ emitted (Cursor.next string) (Cursor.bytes string) s.cursor
          (inputs (step string) loaded s es) ∧
      inputs (step string) printed s es =
        inputs (Cursor.next string) Cursor.printed s.cursor (inputs (step string) loaded s es) := by
  induction es generalizing s with
  | nil => exact ⟨h, rfl, by simp [emitted, inputs], rfl⟩
  | cons e es ih =>
    rw [List.mem_cons, not_or] at hes
    obtain ⟨hphase, hcursor, hbytes, hprinted⟩ := step_follows h (Ne.symm hes.1)
    obtain ⟨hrun, hrunCursor, hrunBytes, hrunPrinted⟩ := ih hphase hes.2
    have hhead : emitted (step string) (sent string) s (e :: es) ++
        (run (step string) s (e :: es)).pending =
          sent string s e ++ (step string s e).pending ++ emitted (Cursor.next string)
            (Cursor.bytes string) (step string s e).cursor
            (inputs (step string) loaded (step string s e) es) := by
      rw [emitted, run_cons, List.append_assoc, hrunBytes, ← List.append_assoc]
    refine ⟨hrun, ?_, ?_, ?_⟩
    · rw [run_cons, hrunCursor, hcursor, inputs]
      cases loaded s e <;> rfl
    · rw [hhead, hbytes, hcursor, inputs]
      cases loaded s e <;> simp [emitted]
    · rw [inputs, hprinted, hrunPrinted, hcursor]
      simp only [inputs]
      cases loaded s e <;> simp [inputs]

/-! ## Edges and commands -/

/-- The edges to the next command. -/
def Signals.rest (s : Signals) : Nat :=
  if s.state = .dropLcdE then 2 else if s.state = .hold then 1 else 0

theorem rest_command {s : Signals} (hs : s.state.IsCommand) : s.rest = 0 := by
  rw [Signals.rest, if_neg hs.1, if_neg hs.2]

theorem edges_cons (s : Signals) (e : Event numHexDigits) (es : List (Event numHexDigits)) :
    edges s.reset (e :: es) = edges s.reset [e] + edges (step string s e).reset es := by
  cases e with
  | clock hex =>
    cases hr : s.reset with
    | false => simp [edges, step, hr, Signals.clear]
    | true =>
      have hreset : (caseState string hex s).reset = true := by
        rw [← hr]
        unfold caseState
        split <;> rfl
      simp [edges, step, hr, hreset]
  | reset level => cases level <;> simp [edges, step, Signals.clear]

/-- A command takes three edges. -/
theorem rest_step {s : Signals} (h : Phase s) {e : Event numHexDigits} (he : e ≠ .reset false) :
    (step string s e).rest + edges s.reset [e] = 3 * (loaded s e).toList.length + s.rest := by
  cases e with
  | clock hex =>
    cases hr : s.reset with
    | false =>
      have hs := h.held hr
      simp [step, hr, loaded, edges, Signals.rest, Signals.clear, hs]
    | true =>
      have hstep : step string s (.clock hex) = caseState string hex s := by simp [step, hr]
      rw [hstep]
      by_cases hs : s.state.IsCommand
      · obtain ⟨hdrop, -⟩ := @caseState_command _ string s hs hex
        rw [rest_command hs, Signals.rest, if_pos hdrop]
        simp [loaded, hr, hs, edges]
      · obtain ⟨hload, -⟩ := ending_none hs hex
        have hnext := h.goesOn hs
        rw [hload]
        by_cases hdrop : s.state = .dropLcdE
        · simp [Signals.rest, caseState, hdrop, edges]
        · have hhold : s.state = .hold := by
            by_contra hne
            exact hs ⟨hdrop, hne⟩
          simp [Signals.rest, caseState, hhold, edges, hnext.1, hnext.2]
  | reset level =>
    have hl : level = true := by
      cases level with
      | false => exact absurd rfl he
      | true => rfl
    subst hl
    simp [step, loaded, edges, Signals.rest]

theorem rest_run {s : Signals} (h : Phase s) {es : List (Event numHexDigits)}
    (hes : .reset false ∉ es) :
    (run (step string) s es).rest + edges s.reset es =
      3 * (inputs (step string) loaded s es).length + s.rest := by
  induction es generalizing s with
  | nil => simp [edges, inputs]
  | cons e es ih =>
    rw [List.mem_cons, not_or] at hes
    have hstep := @rest_step _ string s h e (Ne.symm hes.1)
    have hphase : Phase (step string s e) := (step_follows h (Ne.symm hes.1)).phase
    have hrest := ih hphase hes.2
    have hlength : (inputs (step string) loaded s (e :: es)).length =
        (loaded s e).toList.length +
          (inputs (step string) loaded (step string s e) es).length := by
      rw [inputs]
      cases loaded s e <;> simp [Nat.add_comm]
    rw [run_cons, @edges_cons _ string, hlength]
    omega

/-- Every command has one byte. -/
theorem emitted_take (c : Cursor) (hexes : List (BitVec (4 * numHexDigits))) (k : Nat) :
    (emitted (Cursor.next string) (Cursor.bytes string) c hexes).take k =
      emitted (Cursor.next string) (Cursor.bytes string) c (hexes.take k) := by
  induction hexes generalizing c k with
  | nil => simp [emitted]
  | cons hex hexes ih =>
    cases k with
    | zero => rfl
    | succ k =>
      rw [List.take_succ_cons, emitted, emitted, ← ih (c.next string hex) k]
      rfl

theorem emitted_length (c : Cursor) (hexes : List (BitVec (4 * numHexDigits))) :
    (emitted (Cursor.next string) (Cursor.bytes string) c hexes).length = hexes.length := by
  induction hexes generalizing c with
  | nil => rfl
  | cons hex hexes ih =>
    rw [emitted, List.length_append, ih, List.length_cons, Nat.add_comm]
    rfl

/-! ## Passes -/

/-- The command and the display after `j` entries since the reset. -/
def At (string : Fin 32 → Entry numHexDigits) (c : Cursor) (d : Hd44780) (j : Nat) : Prop :=
  match c.command with
  | .reset1 => j = 0
  | .reset2 | .reset3 | .funcSet | .displayOff | .displayClear => j = 0 ∧ c.charCount.val = 0
  | .displayOn | .modeSet => j = 0 ∧ c.charCount.val = 0 ∧ d.address = 0 ∧ d.cgram = false
  | .printString =>
    c.charCount.val = j % passLength string ∧ d.address = cell c.charCount ∧ d.cgram = false
  | .line2 => j % passLength string = 16 ∧ c.charCount.val = 16
  | .returnHome => j % passLength string = 0 ∧ c.charCount.val = 0
  | .dropLcdE | .hold => False

theorem stores_byte (d : Hd44780) (b : Byte) (h : d.cgram = false) :
    d.stores [(true, b)] = [(d.address, b)] := by
  simp [Hd44780.stores, h]

theorem print_bytes (k : Fin 32) (hex : BitVec (4 * numHexDigits)) :
    (Cursor.mk .printString k).bytes string hex = [(true, shown ((string k).value hex))] := by
  rw [← char_eq_shown]
  rfl

theorem print_next (k : Fin 32) (hex : BitVec (4 * numHexDigits)) :
    (Cursor.mk .printString k).next string hex =
      ⟨if k = 15 then .line2
        else if k = 31 ∨ string k = terminator then .returnHome else .printString,
        if k < 31 ∧ string k ≠ terminator then k + 1 else 0⟩ := by
  have hraw : (Cursor.mk .printString k).next string hex =
      ⟨if k = 15 then .line2
        else if k = 31 ∨ (string k).value hex = 0xFE then .returnHome else .printString,
        if k < 31 ∧ (string k).value hex ≠ 0xFE then k + 1 else 0⟩ := rfl
  rw [hraw]
  simp only [ne_eq, value_terminator_iff]

theorem cell_succ {k : Fin 32} (h15 : k ≠ 15) (h31 : k ≠ 31) : cell (k + 1) = cell k + 1 := by
  revert k
  decide

/-- An entry is stored where and as it should be. -/
theorem print_stores {k : Fin 32} {d : Hd44780} {j : Nat}
    (h : At string ⟨.printString, k⟩ d j) (hex : BitVec (4 * numHexDigits)) :
    d.stores ((Cursor.mk .printString k).bytes string hex) = [landing string j hex] := by
  obtain ⟨hk, haddress, hcgram⟩ : k.val = j % passLength string ∧ d.address = cell k ∧ _ := h
  have hofNat : Fin.ofNat 32 (j % passLength string) = k := by
    rw [← hk]
    exact Fin.ofNat_val_eq_self k
  rw [print_bytes, stores_byte d _ hcgram, haddress]
  simp only [landing, hofNat]

/-- Then the next one is expected. -/
theorem print_at {k : Fin 32} {d : Hd44780} {j : Nat} (hno : ¬ EndsLine1 string)
    (h : At string ⟨.printString, k⟩ d j) (hex : BitVec (4 * numHexDigits)) :
    At string ((Cursor.mk .printString k).next string hex)
      (d.writes ((Cursor.mk .printString k).bytes string hex)) (j + 1) := by
  obtain ⟨hk, haddress, hcgram⟩ : k.val = j % passLength string ∧ d.address = cell k ∧ _ := h
  have hlt : k.val < passLength string := hk ▸ Nat.mod_lt j passLength_pos
  have hend := passLength_eq_iff hlt
  have hj : (j + 1) % passLength string =
      if k.val + 1 = passLength string then 0 else k.val + 1 := by
    rw [← next_mod passLength_pos, ← hk]
    rfl
  have hwrites : d.writes [(true, shown ((string k).value hex))] =
      { d with address := d.address + 1,
               ddram := Function.update d.ddram d.address (shown ((string k).value hex)) } := by
    simp [Hd44780.writes, Hd44780.write, Hd44780.data, hcgram]
  rw [print_bytes, print_next, hwrites, haddress]
  by_cases h15 : k = 15
  · -- not a terminator: entry 16 comes next
    have hgo : string k ≠ terminator := fun ht =>
      hno ⟨h15 ▸ ht, h15 ▸ (lt_passLength_iff k).mp hlt⟩
    have hmore : ¬ k.val + 1 = passLength string := fun he => by
      rcases hend.mp he with h31 | ht
      · rw [h15] at h31
        exact absurd h31 (by decide)
      · exact hgo ht
    rw [if_neg hmore] at hj
    subst h15
    have hnext : (15 : Fin 32) < 31 ∧ string 15 ≠ terminator := ⟨by decide, hgo⟩
    rw [if_pos hnext]
    exact ⟨hj, rfl⟩
  · by_cases hlast : k = 31 ∨ string k = terminator
    · rw [if_pos (hend.mpr hlast)] at hj
      have hzero : ¬ (k < 31 ∧ string k ≠ terminator) := by
        rintro ⟨hlt31, hgo⟩
        rcases hlast with h31 | ht
        · exact absurd h31 (ne_of_lt hlt31)
        · exact hgo ht
      simp only [h15, hlast, hzero, ↓reduceIte, At]
      exact ⟨hj, rfl⟩
    · rw [if_neg (mt hend.mp hlast)] at hj
      rw [not_or] at hlast
      have hlt31 : k < 31 := lt_of_le_of_ne (Fin.le_last k) hlast.1
      have hgo : k < 31 ∧ string k ≠ terminator := ⟨hlt31, hlast.2⟩
      simp only [h15, hlast, if_pos hgo, or_self, ↓reduceIte, At]
      refine ⟨?_, (cell_succ h15 hlast.1).symm, hcgram⟩
      rw [hj]
      exact Fin.val_add_one_of_lt hlt31

/-- One command. -/
theorem next_at {c : Cursor} {d : Hd44780} {j : Nat} (hno : ¬ EndsLine1 string)
    (h : At string c d j) (hex : BitVec (4 * numHexDigits)) :
    At string (c.next string hex) (d.writes (c.bytes string hex))
        (j + (c.printed hex).toList.length) ∧
      d.stores (c.bytes string hex) = ((c.printed hex).toList).map (landing string j) := by
  obtain ⟨command, k⟩ := c
  cases command
  case printString => exact ⟨print_at hno h hex, print_stores h hex⟩
  case dropLcdE => exact h.elim
  case hold => exact h.elim
  case reset1 => exact ⟨⟨h, rfl⟩, rfl⟩
  case displayClear => exact ⟨⟨h.1, h.2, rfl, rfl⟩, rfl⟩
  case modeSet =>
    obtain ⟨hj, hk, haddress, hcgram⟩ : j = 0 ∧ k.val = 0 ∧ _ := h
    obtain rfl : k = 0 := Fin.ext hk
    subst hj
    exact ⟨⟨(Nat.zero_mod _).symm, haddress, hcgram⟩, rfl⟩
  case line2 =>
    obtain ⟨hj, hk⟩ : j % passLength string = 16 ∧ k.val = 16 := h
    obtain rfl : k = 16 := Fin.ext hk
    have hwrite := d.write_address (show 0x80 ≤ (0xC0 : Byte).toNat by decide)
    have hcell : (0xC0 : Byte).toNat - 0x80 = cell 16 := by decide
    refine ⟨⟨hj.symm, ?_⟩, rfl⟩
    show (d.write (false, 0xC0)).address = _ ∧ (d.write (false, 0xC0)).cgram = false
    rw [hwrite]
    exact ⟨hcell, rfl⟩
  case returnHome =>
    obtain ⟨hj, hk⟩ : j % passLength string = 0 ∧ k.val = 0 := h
    obtain rfl : k = 0 := Fin.ext hk
    have hwrite := d.write_address (show 0x80 ≤ (0x80 : Byte).toNat by decide)
    have hcell : (0x80 : Byte).toNat - 0x80 = cell 0 := by decide
    refine ⟨⟨hj.symm, ?_⟩, rfl⟩
    show (d.write (false, 0x80)).address = _ ∧ (d.write (false, 0x80)).cgram = false
    rw [hwrite]
    exact ⟨hcell, rfl⟩
  all_goals exact ⟨h, rfl⟩

/-- Any number of commands. -/
theorem run_at {c : Cursor} {d : Hd44780} {j : Nat} (hno : ¬ EndsLine1 string)
    (h : At string c d j) (hexes : List (BitVec (4 * numHexDigits))) :
    d.stores (emitted (Cursor.next string) (Cursor.bytes string) c hexes) =
      (inputs (Cursor.next string) Cursor.printed c hexes).mapIdx
        fun i => landing string (j + i) := by
  induction hexes generalizing c d j with
  | nil => rfl
  | cons hex hexes ih =>
    obtain ⟨hnext, hstores⟩ := next_at hno h hex
    rw [emitted, Hd44780.stores_append, hstores, ih hnext, inputs]
    cases c.printed hex with
    | none => rfl
    | some hex => simp [List.mapIdx_cons, Nat.add_assoc, Nat.add_comm 1]

/-! ## The pace of the passes -/

/-- Where entry `k` stands among the commands of its pass. -/
def turn (k : Nat) : Nat := if k ≤ 15 then k else k + 1

/-- The commands since the reset, when `j` entries have been printed. -/
def Paced (string : Fin 32 → Entry numHexDigits) (c : Cursor) (j n : Nat) : Prop :=
  match c.command with
  | .reset1 => n = 0
  | .reset2 => n = 1
  | .reset3 => n = 2
  | .funcSet => n = 3
  | .displayOff => n = 4
  | .displayClear => n = 5
  | .displayOn => n = 6
  | .modeSet => n = 7
  | .printString =>
    n = 8 + j / passLength string * passCommands string + turn (j % passLength string)
  | .line2 => n = 8 + j / passLength string * passCommands string + 16
  | .returnHome => n + 1 = 8 + j / passLength string * passCommands string
  | .dropLcdE | .hold => False

/-- One entry more: the same pass, or the next. -/
theorem div_succ {L j : Nat} (hL : 0 < L) :
    (j + 1) / L = if j % L + 1 = L then j / L + 1 else j / L := by
  have hlt := Nat.mod_lt j hL
  have hj := Nat.div_add_mod j L
  split
  · next hlast =>
    have hnext : j + 1 = (j / L + 1) * L := by
      rw [Nat.add_mul, Nat.one_mul, Nat.mul_comm]
      omega
    rw [hnext, Nat.mul_div_cancel _ hL]
  · next hmore =>
    have hnext : j + 1 = (j % L + 1) + L * (j / L) := by omega
    rw [hnext, Nat.add_mul_div_left _ _ hL, Nat.div_eq_of_lt (by omega), Nat.zero_add]

/-- A pass does not end with entry 15. -/
theorem passLength_ne (hno : ¬ EndsLine1 string) : passLength string ≠ 16 := by
  intro h
  have h15 : (15 : Fin 32).val < passLength string := by
    rw [h]
    decide
  rcases (passLength_eq_iff h15).mp h.symm with h31 | ht
  · exact absurd h31 (by decide)
  · exact hno ⟨ht, (lt_passLength_iff 15).mp h15⟩

theorem print_paced {k : Fin 32} {d : Hd44780} {j n : Nat} (hno : ¬ EndsLine1 string)
    (h : At string ⟨.printString, k⟩ d j) (hn : Paced string ⟨.printString, k⟩ j n)
    (hex : BitVec (4 * numHexDigits)) :
    Paced string ((Cursor.mk .printString k).next string hex) (j + 1) (n + 1) := by
  obtain ⟨hk, -, -⟩ : k.val = j % passLength string ∧ d.address = cell k ∧ _ := h
  have hlt : k.val < passLength string := hk ▸ Nat.mod_lt j passLength_pos
  have hend := passLength_eq_iff hlt
  have hne := passLength_ne hno
  have hdiv := @div_succ _ j (@passLength_pos _ string)
  have hmod : (j + 1) % passLength string =
      if k.val + 1 = passLength string then 0 else k.val + 1 := by
    rw [← next_mod passLength_pos, ← hk]
    rfl
  have hn' : n = 8 + j / passLength string * passCommands string + turn k.val := by
    rw [hk]
    exact hn
  rw [← hk] at hdiv
  rw [print_next]
  by_cases h15 : k = 15
  · subst h15
    have hval : (15 : Fin 32).val = 15 := rfl
    rw [if_neg (by omega)] at hdiv
    show n + 1 = 8 + (j + 1) / passLength string * passCommands string + 16
    rw [hdiv, hn']
    rfl
  · by_cases hlast : k = 31 ∨ string k = terminator
    · have hstop := hend.mpr hlast
      rw [if_pos hstop] at hdiv
      simp only [h15, hlast, ↓reduceIte, Paced]
      rw [hdiv, hn', Nat.add_mul, Nat.one_mul, turn, passCommands]
      have hk15 : k.val ≠ 15 := fun h => h15 (Fin.ext h)
      split <;> split <;> omega
    · rw [if_neg (mt hend.mp hlast)] at hdiv hmod
      simp only [h15, hlast, ↓reduceIte, Paced]
      rw [hdiv, hmod, hn', turn, turn]
      have hk15 : k.val ≠ 15 := fun h => h15 (Fin.ext h)
      split <;> split <;> omega

/-- One command. -/
theorem next_paced {c : Cursor} {d : Hd44780} {j n : Nat} (hno : ¬ EndsLine1 string)
    (h : At string c d j) (hn : Paced string c j n) (hex : BitVec (4 * numHexDigits)) :
    Paced string (c.next string hex) (j + (c.printed hex).toList.length) (n + 1) := by
  obtain ⟨command, k⟩ := c
  cases command
  case printString => exact print_paced hno h hn hex
  case dropLcdE => exact hn.elim
  case hold => exact hn.elim
  case modeSet =>
    obtain ⟨hj, -⟩ : j = 0 ∧ _ := h
    subst hj
    have hseven : n = 7 := hn
    show n + 1 = 8 + 0 / passLength string * passCommands string + turn (0 % passLength string)
    rw [Nat.zero_div, Nat.zero_mul, Nat.zero_mod, hseven]
    rfl
  case line2 =>
    obtain ⟨hj, -⟩ : j % passLength string = 16 ∧ _ := h
    have hline : n = 8 + j / passLength string * passCommands string + 16 := hn
    show n + 1 = 8 + j / passLength string * passCommands string + turn (j % passLength string)
    rw [hj, hline]
    rfl
  case returnHome =>
    obtain ⟨hj, -⟩ : j % passLength string = 0 ∧ _ := h
    have hhome : n + 1 = 8 + j / passLength string * passCommands string := hn
    show n + 1 = 8 + j / passLength string * passCommands string + turn (j % passLength string)
    rw [hj, hhome]
    rfl
  all_goals exact congrArg (· + 1) hn

/-- Any number of commands. -/
theorem run_paced {c : Cursor} {d : Hd44780} {j n : Nat} (hno : ¬ EndsLine1 string)
    (h : At string c d j) (hn : Paced string c j n) (hexes : List (BitVec (4 * numHexDigits))) :
    ∃ d', At string (run (Cursor.next string) c hexes) d'
        (j + (inputs (Cursor.next string) Cursor.printed c hexes).length) ∧
      Paced string (run (Cursor.next string) c hexes)
        (j + (inputs (Cursor.next string) Cursor.printed c hexes).length) (n + hexes.length) := by
  induction hexes generalizing c d j n with
  | nil => exact ⟨d, h, hn⟩
  | cons hex hexes ih =>
    obtain ⟨d', hat, hpaced⟩ := ih (next_at hno h hex).1 (next_paced hno h hn hex)
    have hlength : (inputs (Cursor.next string) Cursor.printed c (hex :: hexes)).length =
        (c.printed hex).toList.length +
          (inputs (Cursor.next string) Cursor.printed (c.next string hex) hexes).length := by
      rw [inputs]
      cases c.printed hex <;> simp [Nat.add_comm]
    rw [hlength, ← Nat.add_assoc, run_cons, List.length_cons, Nat.add_comm hexes.length,
      ← Nat.add_assoc]
    exact ⟨d', hat, hpaced⟩

theorem entriesAmong_at {q r : Nat} (hr : r < passCommands string) :
    entriesAmong string (q * passCommands string + r) =
      q * passLength string + if r ≤ 16 then r else r - 1 := by
  have hpos : 0 < passCommands string := Nat.lt_of_le_of_lt (Nat.zero_le r) hr
  have hdiv : (q * passCommands string + r) / passCommands string = q := by
    rw [Nat.add_comm, Nat.add_mul_div_right _ _ hpos, Nat.div_eq_of_lt hr, Nat.zero_add]
  have hmod : (q * passCommands string + r) % passCommands string = r := by
    rw [Nat.mul_comm, Nat.mul_add_mod, Nat.mod_eq_of_lt hr]
  simp only [entriesAmong, hdiv, hmod]

/-- The entries printed are counted by the commands. -/
theorem entries_of_paced {c : Cursor} {d : Hd44780} {j n : Nat} (hno : ¬ EndsLine1 string)
    (h : At string c d j) (hn : Paced string c j n) : j = entriesAmong string (n - 8) := by
  have hlt := Nat.mod_lt j (@passLength_pos _ string)
  have hj := Nat.div_add_mod' j (passLength string)
  have hne := passLength_ne hno
  have hcommands : passCommands string =
      if 16 < passLength string then passLength string + 2 else passLength string + 1 := by
    rw [passCommands]
    split <;> rfl
  have hstart : entriesAmong string 0 = 0 := by
    simp [entriesAmong]
  obtain ⟨command, k⟩ := c
  cases command
  case printString =>
    have hprint : n = 8 + j / passLength string * passCommands string +
        turn (j % passLength string) := hn
    have hn8 : n - 8 =
        j / passLength string * passCommands string + turn (j % passLength string) := by omega
    rw [hn8, entriesAmong_at (by rw [hcommands, turn]; split <;> split <;> omega), turn]
    split <;> split <;> omega
  case line2 =>
    obtain ⟨h16, -⟩ : j % passLength string = 16 ∧ _ := h
    have hline : n = 8 + j / passLength string * passCommands string + 16 := hn
    have hn8 : n - 8 = j / passLength string * passCommands string + 16 := by omega
    rw [hn8, entriesAmong_at (by rw [hcommands]; split <;> omega), if_pos (Nat.le_refl 16)]
    omega
  case returnHome =>
    obtain ⟨h0, -⟩ : j % passLength string = 0 ∧ _ := h
    have hhome : n + 1 = 8 + j / passLength string * passCommands string := hn
    cases hq : j / passLength string with
    | zero =>
      rw [hq, Nat.zero_mul] at hhome hj
      rw [show n - 8 = 0 by omega, hstart]
      omega
    | succ q =>
      rw [hq, Nat.add_mul, Nat.one_mul] at hhome hj
      have hn8 : n - 8 = q * passCommands string + (passCommands string - 1) := by
        have hpos : 0 < passCommands string := by
          rw [hcommands]
          split <;> omega
        omega
      have hrest : (if passCommands string - 1 ≤ 16 then passCommands string - 1
          else passCommands string - 1 - 1) = passLength string := by
        rw [hcommands]
        split <;> split <;> omega
      rw [hn8, entriesAmong_at (by rw [hcommands]; split <;> omega), hrest]
      omega
  case dropLcdE => exact hn.elim
  case hold => exact hn.elim
  case reset1 =>
    have hzero : j = 0 := h
    have hfirst : n = 0 := hn
    rw [hzero, hfirst, hstart]
  all_goals
    have hzero : j = 0 := h.1
    have hn7 : n ≤ 7 := Nat.le_of_lt_succ (lt_of_eq_of_lt hn (by decide))
    rw [hzero, show n - 8 = 0 by omega, hstart]

/-! ## A terminator at the end of line 1 -/

/-- The eight commands of the initialisation. -/
theorem init_commands (k : Fin 32) (d : Hd44780) (hex : BitVec (4 * numHexDigits)) :
    let bytes := emitted (Cursor.next string) (Cursor.bytes string) ⟨.reset1, k⟩
      (List.replicate 8 hex)
    run (Cursor.next string) ⟨.reset1, k⟩ (List.replicate 8 hex) = ⟨.printString, 0⟩ ∧
      d.stores bytes = [] ∧ (d.writes bytes).cgram = false := by
  -- the commands in their order
  have h1 : (Cursor.mk .reset1 k).next string hex = ⟨.reset2, 0⟩ := rfl
  have h2 : (Cursor.mk .reset2 0).next string hex = ⟨.reset3, 0⟩ := rfl
  have h3 : (Cursor.mk .reset3 0).next string hex = ⟨.funcSet, 0⟩ := rfl
  have h4 : (Cursor.mk .funcSet 0).next string hex = ⟨.displayOff, 0⟩ := rfl
  have h5 : (Cursor.mk .displayOff 0).next string hex = ⟨.displayClear, 0⟩ := rfl
  have h6 : (Cursor.mk .displayClear 0).next string hex = ⟨.displayOn, 0⟩ := rfl
  have h7 : (Cursor.mk .displayOn 0).next string hex = ⟨.modeSet, 0⟩ := rfl
  have h8 : (Cursor.mk .modeSet 0).next string hex = ⟨.printString, 0⟩ := rfl
  have hbytes : emitted (Cursor.next string) (Cursor.bytes string) ⟨.reset1, k⟩
      (List.replicate 8 hex) = [(false, 0x38), (false, 0x38), (false, 0x38), (false, 0x38),
        (false, 0x08), (false, 0x01), (false, 0x0C), (false, 0x06)] := by
    simp only [List.replicate, emitted, h1, h2, h3, h4, h5, h6, h7]
    rfl
  simp only [hbytes]
  refine ⟨?_, ?_, ?_⟩
  · simp only [List.replicate, run_cons, run_nil, h1, h2, h3, h4, h5, h6, h7, h8]
  · simp [Hd44780.stores]
  · simp [Hd44780.writes, Hd44780.write, Hd44780.command]

/-- Entries of line 1, no terminator among them. -/
theorem line1_commands (hex : BitVec (4 * numHexDigits)) (h : ∀ k < 15, string k ≠ terminator)
    {n : Nat} (hn : n ≤ 15) :
    run (Cursor.next string) ⟨.printString, 0⟩ (List.replicate n hex) =
        ⟨.printString, Fin.ofNat 32 n⟩ ∧
      ∃ bs : List Byte, bs.length = n ∧
        emitted (Cursor.next string) (Cursor.bytes string) ⟨.printString, 0⟩
          (List.replicate n hex) = bs.map (true, ·) := by
  induction n with
  | zero => exact ⟨rfl, [], rfl, rfl⟩
  | succ n ih =>
    obtain ⟨hrun, bs, hlength, hbytes⟩ := ih (by omega)
    have hindex : ∀ n < 15, Fin.ofNat 32 n < 15 ∧ Fin.ofNat 32 n < 31 ∧
        Fin.ofNat 32 (n + 1) = Fin.ofNat 32 n + 1 := by decide
    obtain ⟨hlt15, hlt31, hsucc⟩ := hindex n hn
    have hgo := h _ hlt15
    have hlast : ¬ (Fin.ofNat 32 n = 31 ∨ string (Fin.ofNat 32 n) = terminator) := by
      rintro (h31 | ht)
      · exact ne_of_lt hlt31 h31
      · exact hgo ht
    rw [List.replicate_succ', run_append, emitted_append, hrun, hbytes]
    constructor
    · rw [run_cons, print_next, if_neg (ne_of_lt hlt15), if_neg hlast, if_pos ⟨hlt31, hgo⟩, hsucc]
      rfl
    · refine ⟨bs ++ [shown ((string (Fin.ofNat 32 n)).value hex)], by simp [hlength], ?_⟩
      simp [emitted, print_bytes]

/-- The terminator in entry 15 goes on to line 2, and entry 0 follows there. -/
theorem line2_commands (hex : BitVec (4 * numHexDigits)) (h : EndsLine1 string) :
    ∃ (bs : List Byte) (b : Byte), bs.length = 16 ∧
      emitted (Cursor.next string) (Cursor.bytes string) ⟨.printString, 0⟩
          (List.replicate 18 hex) =
        bs.map (true, ·) ++ (false, 0xC0) :: [b].map (true, ·) := by
  obtain ⟨hrun, bs, hlength, hbytes⟩ := line1_commands hex h.2 (Nat.le_refl 15)
  have hsplit : List.replicate 18 hex = List.replicate 15 hex ++ [hex, hex, hex] := rfl
  have hnext : (Cursor.mk .printString 15).next string hex = ⟨.line2, 0⟩ := by
    rw [print_next, if_pos rfl, if_neg fun hgo => hgo.2 h.1]
  refine ⟨bs ++ [shown ((string 15).value hex)], shown ((string 0).value hex), by simp [hlength], ?_⟩
  rw [hsplit, emitted_append, hrun, hbytes]
  show bs.map (true, ·) ++ ((Cursor.mk .printString 15).bytes string hex ++
    emitted _ _ ((Cursor.mk .printString 15).next string hex) [hex, hex]) = _
  rw [hnext, print_bytes]
  show _ ++ ([(true, _)] ++ ([(false, 0xC0)] ++ ((Cursor.mk .printString 0).bytes string hex ++ []))) = _
  rw [print_bytes]
  simp

/-- Then the seventeenth byte is stored at the start of line 2. -/
theorem seventeenth_store (k : Fin 32) (d : Hd44780) (hex : BitVec (4 * numHexDigits))
    (h : EndsLine1 string) :
    ∃ b, (d.stores (emitted (Cursor.next string) (Cursor.bytes string) ⟨.reset1, k⟩
      (List.replicate 26 hex)))[16]? = some (0x40, b) := by
  have hsplit : List.replicate 26 hex = List.replicate 8 hex ++ List.replicate 18 hex := rfl
  obtain ⟨hrun, hstores, hcgram⟩ := @init_commands _ string k d hex
  obtain ⟨bs, b, hlength, hbytes⟩ := line2_commands hex h
  have hline1 := Hd44780.stores_data _ bs hcgram
  refine ⟨b, ?_⟩
  rw [hsplit, emitted_append, Hd44780.stores_append, hstores, List.nil_append, hrun, hbytes,
    Hd44780.stores_append, hline1.1, Hd44780.stores_line _ (by decide)]
  rw [List.getElem?_append_right (by simp [hlength])]
  simp [hlength]

/-! ## Runs -/

/-- The edges of `n` commands. -/
def commandEdges (hex : BitVec (4 * numHexDigits)) (n : Nat) : List (Event numHexDigits) :=
  (List.replicate n [.clock hex, .clock hex, .clock hex]).flatten

theorem commandEdges_released (hex : BitVec (4 * numHexDigits)) (n : Nat) :
    .reset false ∉ commandEdges hex n := by
  simp [commandEdges]

theorem command_edges {s : Signals} (hr : s.reset = true) (hs : s.state.IsCommand)
    (hex : BitVec (4 * numHexDigits)) :
    let s' := run (step string) s [.clock hex, .clock hex, .clock hex]
    s'.reset = true ∧ s'.state.IsCommand ∧
      inputs (step string) loaded s [.clock hex, .clock hex, .clock hex] = [hex] := by
  obtain ⟨hdrop, -, -, hreset, hnext, -, -⟩ := @caseState_command _ string s hs hex
  have h1 : step string s (.clock hex) = caseState string hex s := by simp [step, hr]
  generalize caseState string hex s = t at *
  rw [hr] at hreset
  have h2 : step string t (.clock hex) = { t with lcdE := false, state := .hold } := by
    simp [step, hreset, caseState, hdrop]
  have h3 : step string { t with lcdE := false, state := .hold } (.clock hex) =
      { t with lcdE := false, state := t.nextCommand } := by
    simp [step, hreset, caseState]
  have hload1 : loaded t (.clock hex) = none := by simp [loaded, hdrop, StateType.IsCommand]
  have hload2 : loaded { t with lcdE := false, state := .hold } (.clock hex) = none := by
    simp [loaded, StateType.IsCommand]
  have hload : loaded s (.clock hex) = some hex := by simp [loaded, hr, hs]
  simp only [run_cons, run_nil, inputs, h1, h2, h3, hload, hload1, hload2]
  exact ⟨hreset, hnext, rfl⟩

theorem commandEdges_loaded {s : Signals} (hr : s.reset = true) (hs : s.state.IsCommand)
    (hex : BitVec (4 * numHexDigits)) (n : Nat) :
    (run (step string) s (commandEdges hex n)).state.IsCommand ∧
      inputs (step string) loaded s (commandEdges hex n) = List.replicate n hex := by
  induction n generalizing s with
  | zero => exact ⟨hs, rfl⟩
  | succ n ih =>
    obtain ⟨hreset, hcommand, hload⟩ := @command_edges _ string s hr hs hex
    obtain ⟨hend, hrest⟩ := ih hreset hcommand
    rw [commandEdges, List.replicate_succ, List.flatten_cons, run_append, inputs_append, hload]
    exact ⟨hend, by rw [List.replicate_succ, ← hrest]; rfl⟩

/-- The reset is released, and whole commands follow. -/
theorem released_commands {s : Signals} (hs : s.state = .reset1)
    (hex : BitVec (4 * numHexDigits)) (n : Nat) :
    (run (step string) s (.reset true :: commandEdges hex n)).pending = [] ∧
      inputs (step string) loaded s (.reset true :: commandEdges hex n) = List.replicate n hex := by
  have hstep : step string s (.reset true) = { s with reset := true } := rfl
  have hnone : loaded s (.reset true : Event numHexDigits) = none := rfl
  have hcommand : ({ s with reset := true } : Signals).state.IsCommand := by
    show s.state.IsCommand
    rw [hs]
    decide
  obtain ⟨hend, hloaded⟩ := @commandEdges_loaded _ string { s with reset := true } rfl hcommand hex n
  rw [run_cons, inputs, hstep, hnone, hloaded, Signals.pending, if_neg hend.1]
  exact ⟨rfl, rfl⟩

/-- Before the first reset the machine stays in `HOLD`. -/
theorem powerUp_silent (es : List (Event numHexDigits)) (hes : .reset false ∉ es) :
    emitted (step string) (sent string) powerUp es = [] := by
  induction es with
  | nil => rfl
  | cons e es ih =>
    rw [List.mem_cons, not_or] at hes
    have hstay : step string powerUp e = powerUp ∧ sent string powerUp e = [] := by
      cases e with
      | clock hex => exact ⟨rfl, rfl⟩
      | reset level =>
        cases level with
        | false => exact absurd rfl hes.1
        | true => exact ⟨rfl, rfl⟩
    rw [emitted, hstay.1, hstay.2, ih hes.2]
    rfl

variable (string)

/-- The entries stored since the reset between `before` and `es` are entries 0,
1, ... of passes, each in its own cell. -/
def InPlace (lcd : Hd44780) (before es : List (Event numHexDigits)) : Prop :=
  (lcd.writes (emitted (step string) (sent string) powerUp (before ++ [.reset false]))).stores
      (emitted (step string) (sent string)
        (run (step string) powerUp (before ++ [.reset false])) es) <+:
    (inputs (step string) printed
      (run (step string) powerUp (before ++ [.reset false])) es).mapIdx (landing string)

/-- And they are as many as the edges since the button was released give. -/
def Lands (lcd : Hd44780) (before es : List (Event numHexDigits)) : Prop :=
  InPlace string lcd before es ∧
    ((lcd.writes (emitted (step string) (sent string) powerUp (before ++ [.reset false]))).stores
      (emitted (step string) (sent string)
        (run (step string) powerUp (before ++ [.reset false])) es)).length =
      entriesBy string (edges false es)

variable {string}

theorem run_reset (before : List (Event numHexDigits)) :
    run (step string) powerUp (before ++ [.reset false]) =
      ({ run (step string) powerUp before with reset := false } : Signals).clear := by
  rw [run_append]
  rfl

/-- The bytes since a reset are a prefix of those of whole commands. -/
theorem reset_commands (before es : List (Event numHexDigits)) (hes : .reset false ∉ es) :
    let s := run (step string) powerUp (before ++ [.reset false])
    ∃ k, emitted (step string) (sent string) s es ++ (run (step string) s es).pending =
        emitted (Cursor.next string) (Cursor.bytes string) ⟨.reset1, k⟩
          (inputs (step string) loaded s es) ∧
      inputs (step string) printed s es =
        inputs (Cursor.next string) Cursor.printed ⟨.reset1, k⟩
          (inputs (step string) loaded s es) := by
  intro s
  have hs : s = ({ run (step string) powerUp before with reset := false } : Signals).clear :=
    run_reset before
  have hphase : Phase s := hs ▸ clear_phase _
  have hcursor : s.cursor = ⟨.reset1, s.charCount⟩ := by
    rw [hs]
    rfl
  have hpending : s.pending = [] := by
    rw [hs]
    rfl
  obtain ⟨-, -, hbytes, hprinted⟩ := @run_follows _ string s hphase es hes
  rw [hpending, List.nil_append, hcursor] at hbytes
  rw [hcursor] at hprinted
  exact ⟨s.charCount, hbytes, hprinted⟩

/-- The bytes strobed by then are those of so many whole commands. -/
theorem reset_strobed (before es : List (Event numHexDigits)) (hes : .reset false ∉ es) :
    let s := run (step string) powerUp (before ++ [.reset false])
    ∃ k, emitted (step string) (sent string) s es =
        emitted (Cursor.next string) (Cursor.bytes string) ⟨.reset1, k⟩
          ((inputs (step string) loaded s es).take ((edges false es + 1) / 3)) ∧
      (edges false es + 1) / 3 ≤ (inputs (step string) loaded s es).length := by
  intro s
  obtain ⟨k, hcommands, -⟩ := @reset_commands _ string before es hes
  have hbytes : emitted (step string) (sent string) s es ++ (run (step string) s es).pending =
      emitted (Cursor.next string) (Cursor.bytes string) ⟨.reset1, k⟩
        (inputs (step string) loaded s es) := hcommands
  have hs : s = ({ run (step string) powerUp before with reset := false } : Signals).clear :=
    run_reset before
  have hphase : Phase s := hs ▸ clear_phase _
  have hreset : s.reset = false := by
    rw [hs]
    rfl
  have hstart : s.rest = 0 := by
    rw [hs]
    rfl
  have hrest := @rest_run _ string s hphase es hes
  rw [hreset, hstart] at hrest
  have hpending : ((run (step string) s es).pending).length =
      if (run (step string) s es).rest = 2 then 1 else 0 := by
    rw [Signals.pending, Signals.rest]
    by_cases hdrop : (run (step string) s es).state = .dropLcdE
    · rw [if_pos hdrop, if_pos hdrop]
      rfl
    · rw [if_neg hdrop, if_neg hdrop]
      split <;> rfl
  have hle : (run (step string) s es).rest ≤ 2 := by
    rw [Signals.rest]
    split
    · exact Nat.le_refl 2
    · split <;> decide
  have hlength := congrArg List.length hbytes
  rw [List.length_append, emitted_length, hpending] at hlength
  have hstrobed : (emitted (step string) (sent string) s es).length = (edges false es + 1) / 3 := by
    split at hlength <;> omega
  refine ⟨k, ?_, by split at hlength <;> omega⟩
  rw [← emitted_take, ← hbytes, List.take_append_of_le_length (Nat.le_of_eq hstrobed.symm),
    List.take_of_length_le (Nat.le_of_eq hstrobed)]

/-- Unless the first terminator ends line 1, every entry is stored in its cell. -/
theorem inPlace (hno : ¬ EndsLine1 string) (lcd : Hd44780)
    (before es : List (Event numHexDigits)) (hes : .reset false ∉ es) :
    InPlace string lcd before es := by
  obtain ⟨k, hbytes, hprinted⟩ := @reset_commands _ string before es hes
  have hstart : ∀ d, At string ⟨.reset1, k⟩ d 0 := fun _ => rfl
  have hstores := run_at hno (hstart (lcd.writes (emitted (step string) (sent string) powerUp
    (before ++ [.reset false])))) (inputs (step string) loaded
      (run (step string) powerUp (before ++ [.reset false])) es)
  simp only [Nat.zero_add] at hstores
  rw [InPlace, hprinted, ← hstores, ← hbytes, Hd44780.stores_append]
  exact List.prefix_append _ _

/-- And none is left out or late. -/
theorem lands (hno : ¬ EndsLine1 string) (lcd : Hd44780) (before es : List (Event numHexDigits))
    (hes : .reset false ∉ es) : Lands string lcd before es := by
  refine ⟨inPlace hno lcd before es hes, ?_⟩
  obtain ⟨k, hstrobed, hle⟩ := @reset_strobed _ string before es hes
  have hstart : ∀ d, At string ⟨.reset1, k⟩ d 0 := fun _ => rfl
  have hpaced : Paced string ⟨.reset1, k⟩ 0 0 := rfl
  have hstores := run_at hno (hstart (lcd.writes (emitted (step string) (sent string) powerUp
    (before ++ [.reset false])))) ((inputs (step string) loaded
      (run (step string) powerUp (before ++ [.reset false])) es).take ((edges false es + 1) / 3))
  rw [hstrobed, hstores, List.length_mapIdx, entriesBy]
  obtain ⟨d, hat, hcount⟩ := run_paced hno (hstart lcd) hpaced
    ((inputs (step string) loaded (run (step string) powerUp (before ++ [.reset false])) es).take
      ((edges false es + 1) / 3))
  have hentries := entries_of_paced hno hat hcount
  rw [Nat.zero_add, Nat.zero_add, List.length_take, Nat.min_eq_left hle] at hentries
  exact hentries

/-- If it does, 26 commands are enough to miss entry 0. -/
theorem not_inPlace (h : EndsLine1 string) (lcd : Hd44780) (hex : BitVec (4 * numHexDigits)) :
    ¬ InPlace string lcd [] (.reset true :: commandEdges hex 26) := by
  intro hlands
  have hes : .reset false ∉ (.reset true :: commandEdges hex 26) := by
    simpa using commandEdges_released hex 26
  obtain ⟨k, hbytes, -⟩ := @reset_commands _ string [] _ hes
  have hstate : (run (step string) powerUp ([] ++ [.reset false])).state = .reset1 := by
    rw [run_reset]
    rfl
  obtain ⟨hpending, hload⟩ := @released_commands _ string _ hstate hex 26
  generalize commandEdges hex 26 = es at *
  rw [hpending, List.append_nil, hload] at hbytes
  obtain ⟨b, hstore⟩ := seventeenth_store k (lcd.writes (emitted (step string) (sent string)
    powerUp ([] ++ [.reset false]))) hex h
  rw [← hbytes] at hstore
  obtain ⟨rest, hrest⟩ := hlands
  obtain ⟨hlong, -⟩ := List.getElem?_eq_some_iff.mp hstore
  rw [← List.getElem?_append_left hlong, hrest] at hstore
  have hlength : 16 = passLength string :=
    (passLength_eq_iff ((lt_passLength_iff 15).mpr h.2)).mpr (Or.inr h.1)
  rw [List.getElem?_mapIdx] at hstore
  obtain ⟨x, -, hx⟩ := Option.map_eq_some_iff.mp hstore
  have hcell := congrArg Prod.fst hx
  simp only [landing, ← hlength] at hcell
  exact absurd hcell (by decide)

/-- **The display string.** Before the first reset nothing is sent; and in every
run with resets at any moments the entries stored since the latest reset are
entries 0, 1, ... of passes, each once and in its own cell, and as many as the
edges of the clock give, exactly if the first terminator is not entry 15. -/
theorem entries_land_iff (string : Fin 32 → Entry numHexDigits) :
    (∀ es, .reset false ∉ es → emitted (step string) (sent string) powerUp es = []) ∧
    ((∀ lcd before es, .reset false ∉ es → Lands string lcd before es) ↔
      ¬ (string 15 = terminator ∧ ∀ k < 15, string k ≠ terminator)) := by
  refine ⟨powerUp_silent, fun hall h => ?_, fun hno => lands hno⟩
  have hes : .reset false ∉ (.reset true :: commandEdges (0 : BitVec (4 * numHexDigits)) 26) := by
    simpa using commandEdges_released 0 26
  exact not_inPlace h ⟨0, false, fun _ => 0x20, fun _ => 0⟩ 0 (hall _ _ _ hes).1

end

example : ¬ (lcdDisplayString 15 = terminator ∧ ∀ k < 15, lcdDisplayString k ≠ terminator) := by
  decide

/-- In the second pass the first A is stored in cell 40. -/
theorem fifteenLetters_lost :
    ¬ InPlace fifteenLetters ⟨0, false, fun _ => 0x20, fun _ => 0⟩ []
      (.reset true :: commandEdges 0 26) :=
  not_inPlace ⟨rfl, by decide⟩ _ _

end FpgaLabs.Hw2
