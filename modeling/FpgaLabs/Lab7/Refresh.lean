import FpgaLabs.Lab7.LcdClk

/-! What the display state machine of lab 7 sends. Its writing states form a
line of eight followed by a cycle of 34; each takes three steps of the machine,
and the byte of a state is taken from the inputs at the first of the three. -/

namespace FpgaLabs.Lab7
open Sync

/-! ## The order of the writing states -/

def initStates : List StateType :=
  [.initialStart, .initial2, .initial3, .funcSet, .dispOff, .clear, .dispOn, .modeSet]

def frameStates : List StateType :=
  [.home, .state1, .state2, .state3, .state4, .state5, .state6, .state7, .state8,
    .state9, .state10, .state11, .state12, .state13, .state14, .state15, .state16,
    .line2, .state17, .state18, .state19, .state20, .state21, .state22, .state23, .state24,
    .state25, .state26, .state27, .state28, .state29, .state30, .state31, .state32]

/-- The `k`-th writing state of a run. -/
def slotState (k : Nat) : StateType :=
  if k < 8 then initStates.getD k .home else frameStates.getD ((k - 8) % 34) .home

def Branch.next? : Branch → Option StateType
  | .write _ _ next => some next
  | _ => none

def Branch.word (e : Env) : Branch → Bool × Byte
  | .write rs data _ => (rs, data e)
  | _ => (false, 0)

/-- What the `k`-th writing state puts on the bus. -/
def slotWord (k : Nat) (e : Env) : Bool × Byte := (branch (slotState k)).word e

theorem initStates_next : ∀ k < 7,
    (branch (initStates.getD k .home)).next? = some (initStates.getD (k + 1) .home) := by
  decide

theorem frameStates_next : ∀ r < 34,
    (branch (frameStates.getD r .home)).next? = some (frameStates.getD ((r + 1) % 34) .home) := by
  decide

theorem slotState_next (k : Nat) : (branch (slotState k)).next? = some (slotState (k + 1)) := by
  by_cases h7 : k < 7
  · have h8 : k < 8 := by omega
    have h8' : k + 1 < 8 := by omega
    simpa only [slotState, h8, h8', ↓reduceIte] using initStates_next k h7
  · by_cases h8 : k < 8
    · have hk : k = 7 := by omega
      subst hk
      rfl
    · have h8' : ¬ k + 1 < 8 := by omega
      have hr := frameStates_next ((k - 8) % 34) (Nat.mod_lt _ (by decide))
      have hm : ((k - 8) % 34 + 1) % 34 = (k + 1 - 8) % 34 := by omega
      rw [hm] at hr
      simpa only [slotState, h8, h8', ↓reduceIte] using hr

/-! ## Three steps for each state -/

/-- After `j` of the three steps of the `k`-th writing state, which put `w` on
the bus: the strobe is up after the first only. -/
structure Phase (k : Nat) (w : Bool × Byte) (j : Nat) (d : Display) : Prop where
  bus : d.bus = w
  rw : d.lcdRwInt = false
  en : d.lcdEn = true ↔ j = 1
  next : d.nextState = slotState (k + 1)
  now : d.nowState = if j = 1 then .toggleE else if j = 2 then .waitup else slotState (k + 1)

theorem phase_write {d : Display} {k : Nat} (h : d.nowState = slotState k) (e : Env) :
    Phase k (slotWord k e) 1 (caseNowState d e) := by
  have hn := slotState_next k
  unfold caseNowState slotWord
  rw [h]
  cases hb : branch (slotState k) with
  | write rs data next =>
    rw [hb] at hn
    simp only [Branch.next?, Option.some.injEq] at hn
    exact ⟨rfl, rfl, by simp, hn, rfl⟩
  | toggleE => simp [hb, Branch.next?] at hn
  | waitup => simp [hb, Branch.next?] at hn

theorem phase_toggle {d : Display} {k : Nat} {w : Bool × Byte} (h : Phase k w 1 d) (e : Env) :
    Phase k w 2 (caseNowState d e) := by
  have hnow : d.nowState = .toggleE := h.now
  simp only [caseNowState, hnow, branch]
  exact ⟨h.bus, h.rw, by simp, h.next, rfl⟩

theorem phase_wait {d : Display} {k : Nat} {w : Bool × Byte} (h : Phase k w 2 d) (e : Env) :
    Phase k w 3 (caseNowState d e) := by
  have hnow : d.nowState = .waitup := h.now
  have hen : d.lcdEn ≠ true := fun he => by simpa using h.en.mp he
  simp only [caseNowState, hnow, branch]
  exact ⟨h.bus, h.rw, by simp [hen], h.next, h.next⟩

/-- The machine after `t` steps. -/
def displayAt (d : Display) (env : Nat → Env) (t : Nat) : Display :=
  run caseNowState d (upTo env t)

theorem displayAt_succ (d : Display) (env : Nat → Env) (t : Nat) :
    displayAt d env (t + 1) = caseNowState (displayAt d env t) (env t) := by
  simp [displayAt, upTo_succ]

theorem displayAt_now {d : Display} {k : Nat} (h : d.nowState = slotState k) (env : Nat → Env)
    (i : Nat) : (displayAt d env (3 * i)).nowState = slotState (k + i) := by
  induction i with
  | zero => exact h
  | succ i ih =>
    have h3 := phase_wait (phase_toggle (phase_write ih (env (3 * i))) (env (3 * i + 1)))
      (env (3 * i + 2))
    simp only [← displayAt_succ] at h3
    exact h3.now

/-- **The cycle of a writing state**, from any state of the order. -/
theorem displayAt_phase {d : Display} {k : Nat} (h : d.nowState = slotState k) (env : Nat → Env)
    (i j : Nat) (hj : 1 ≤ j ∧ j ≤ 3) :
    Phase (k + i) (slotWord (k + i) (env (3 * i))) j (displayAt d env (3 * i + j)) := by
  have h1 := phase_write (displayAt_now h env i) (env (3 * i))
  have h2 := phase_toggle h1 (env (3 * i + 1))
  have h3 := phase_wait h2 (env (3 * i + 2))
  simp only [← displayAt_succ] at h1 h2 h3
  obtain rfl | rfl | rfl : j = 1 ∨ j = 2 ∨ j = 3 := by omega
  · exact h1
  · exact h2
  · exact h3

theorem displayAt_en {d : Display} {k : Nat} (h : d.nowState = slotState k) (env : Nat → Env)
    (t : Nat) (ht : 0 < t) : (displayAt d env t).lcdEn = true ↔ t % 3 = 1 := by
  have hp := displayAt_phase h env ((t - 1) / 3) ((t - 1) % 3 + 1) (by omega)
  have ht' : 3 * ((t - 1) / 3) + ((t - 1) % 3 + 1) = t := by omega
  rw [ht'] at hp
  rw [hp.en]
  omega

/-- The bytes strobed in `t` steps: one for each state whose second step is done. -/
theorem display_strobes {d : Display} {k : Nat} (h : d.nowState = slotState k) (env : Nat → Env)
    (t : Nat) :
    strobes caseNowState Display.lcdEn Display.bus d (upTo env t) =
      (List.range ((t + 1) / 3)).map fun i => slotWord (k + i) (env (3 * i)) := by
  induction t with
  | zero => rfl
  | succ t ih =>
    rw [upTo_succ, strobes_append, ih]
    simp only [strobes, List.append_nil]
    change _ ++ strobe _ _ (displayAt d env t) (caseNowState (displayAt d env t) (env t)) = _
    rw [← displayAt_succ]
    have hnew := displayAt_en h env (t + 1) (Nat.succ_pos t)
    by_cases h1 : t % 3 = 1
    · have hold := (displayAt_en h env t (by omega)).mpr h1
      have hlow : (displayAt d env (t + 1)).lcdEn = false := by
        rw [← Bool.not_eq_true, hnew]
        omega
      have hp := displayAt_phase h env (t / 3) 1 (by omega)
      have ht : 3 * (t / 3) + 1 = t := by omega
      rw [ht] at hp
      have hc : (t + 1 + 1) / 3 = t / 3 + 1 := by omega
      have hc' : (t + 1) / 3 = t / 3 := by omega
      rw [hc, hc', List.range_succ, List.map_append]
      simp [strobe, hold, hlow, hp.bus]
    · have hc : (t + 1 + 1) / 3 = (t + 1) / 3 := by omega
      have hstay : (displayAt d env t).lcdEn = true → (displayAt d env (t + 1)).lcdEn = true := by
        intro hold
        obtain rfl | ht : t = 0 ∨ 0 < t := Nat.eq_zero_or_pos t
        · exact hnew.mpr rfl
        · exact absurd ((displayAt_en h env t ht).mp hold) h1
      rw [hc]
      simpa [strobe] using hstay

/-! ## The prescaler -/

/-- Steps of the display machine in the first `n` edges of CLOCK_50. -/
def steps (n : Nat) : Nat := (n - 1) / 380001

theorem le_steps_iff {i n : Nat} (hi : 0 < i) : i ≤ steps n ↔ 380001 * i < n := by
  unfold steps
  omega

/-- The inputs of the display machine: those at the edges with `cntr_clk` high. -/
def enabled (s : LcdClk) (e : Env) : Option Env := if s.cntrClk then some e else none

theorem edge50_projects : Projects edge50 caseNowState LcdClk.display enabled := by
  intro s e
  unfold edge50 enabled
  cases s.cntrClk <;> rfl

theorem prescaler {s : LcdClk} (h : PowerUp s) (inp : Nat → Env) (n : Nat) :
    (run edge50 s (upTo inp n)).countClk = n % 380001 ∧
      ((run edge50 s (upTo inp n)).cntrClk = true ↔ 0 < n ∧ n % 380001 = 0) := by
  induction n with
  | zero => simp [h.countClk, h.cntrClk]
  | succ n ih =>
    rw [upTo_succ, run_append]
    simp only [run_cons, run_nil, edge50, ih.1, decide_eq_true_eq]
    split <;> omega

theorem edge50_inputs {s : LcdClk} (h : PowerUp s) (inp : Nat → Env) (n : Nat) :
    inputs edge50 enabled s (upTo inp n) = upTo (fun j => inp (380001 * (j + 1))) (steps n) := by
  induction n with
  | zero => rfl
  | succ n ih =>
    rw [upTo_succ, inputs_append, ih]
    have hc := (prescaler h inp n).2
    by_cases hn : 0 < n ∧ n % 380001 = 0
    · have hs : steps (n + 1) = steps n + 1 := by unfold steps; omega
      have hi : 380001 * (steps n + 1) = n := by unfold steps; omega
      rw [hs, upTo_succ, hi]
      simp [inputs, enabled, hc.mpr hn]
    · have hs : steps (n + 1) = steps n := by unfold steps; omega
      have hlow : (run edge50 s (upTo inp n)).cntrClk = false := by
        rw [← Bool.not_eq_true, hc]
        exact hn
      simp [inputs, enabled, hlow, hs]

theorem edge50_display {s : LcdClk} (h : PowerUp s) (inp : Nat → Env) (n : Nat) :
    (run edge50 s (upTo inp n)).display =
      displayAt s.display (fun j => inp (380001 * (j + 1))) (steps n) := by
  rw [edge50_projects.run_eq, edge50_inputs h, displayAt]

/-! ## Frames -/

/-- The inputs at the edge that executes the `i`-th writing state. -/
def sample (inp : Nat → Env) (i : Nat) : Env := inp (380001 * (3 * i + 1))

def initCommands : List (Bool × Byte) :=
  [0x38, 0x38, 0x38, 0x38, 0x08, 0x01, 0x0C, 0x06].map (false, ·)

/-- The sixteen bytes of line 1, each from the inputs at its own state. -/
def line1 (e : Nat → Env) : List Byte :=
  [name (e 0) 1, name (e 1) 2, name (e 2) 3, name (e 3) 4, 0x20, name (e 5) 5, name (e 6) 6,
    name (e 7) 7, name (e 8) 8, name (e 9) 9, name (e 10) 10, name (e 11) 11,
    0x20, 0x20, 0x20, 0x20]

/-- Line 2: hours, colon, minutes, colon, seconds, space, AM or PM, spaces. -/
def line2 (e : Nat → Env) : List Byte :=
  [ascii .hrmsb (e 0), ascii .hrlsb (e 1), 0x3A, ascii .minmsb (e 3), ascii .minlsb (e 4), 0x3A,
    ascii .secmsb (e 6), ascii .seclsb (e 7), 0x20, amOrPm (e 9).hflag, 0x4D,
    0x20, 0x20, 0x20, 0x20, 0x20]

/-- A frame: the two address commands, each followed by its line. -/
def frame (e : Nat → Env) : List (Bool × Byte) :=
  (false, 0x80) :: (line1 fun i => e (i + 1)).map (true, ·) ++
    (false, 0xC0) :: (line2 fun i => e (i + 18)).map (true, ·)

theorem slotState_frame (q r : Nat) (hr : r < 34) :
    slotState (8 + 34 * q + r) = frameStates.getD r .home := by
  have h8 : ¬ 8 + 34 * q + r < 8 := by omega
  have hm : (8 + 34 * q + r - 8) % 34 = r := by omega
  simp only [slotState, h8, hm, ↓reduceIte]

/-- The 34 states of a frame write the frame. -/
theorem slotWord_frame (q : Nat) (e : Nat → Env) :
    (List.range 34).map (fun r => slotWord (8 + 34 * q + r) (e r)) = frame e := by
  have hw : ∀ r ∈ List.range 34, slotWord (8 + 34 * q + r) (e r) =
      (branch (frameStates.getD r .home)).word (e r) := by
    intro r hr
    rw [slotWord, slotState_frame q r (List.mem_range.mp hr)]
  rw [List.map_congr_left hw]
  rfl

theorem slotWord_init (e : Nat → Env) :
    (List.range 8).map (fun i => slotWord i (e i)) = initCommands := rfl

/-- The initialisation and the first `n` frames. -/
theorem slotWord_frames (e : Nat → Env) (n : Nat) :
    (List.range (8 + 34 * n)).map (fun i => slotWord i (e i)) =
      initCommands ++ (List.range n).flatMap fun q => frame fun r => e (8 + 34 * q + r) := by
  induction n with
  | zero => simp [slotWord_init]
  | succ n ih =>
    have hlen : 8 + 34 * (n + 1) = (8 + 34 * n) + 34 := by omega
    have hsucc : List.range (n + 1) = List.range n ++ [n] := List.range_succ
    rw [hlen, List.range_add, List.map_append, ih, hsucc, List.flatMap_append,
      List.append_assoc]
    simp only [List.map_map, List.flatMap_cons, List.flatMap_nil, List.append_nil]
    congr 1
    congr 1
    exact slotWord_frame n fun r => e (8 + 34 * n + r)

theorem frame_stores (lcd : Hd44780) (e : Nat → Env) :
    lcd.stores (frame e) =
      (List.range' 0x00 16).zip (line1 fun i => e (i + 1)) ++
        (List.range' 0x40 16).zip (line2 fun i => e (i + 18)) := by
  unfold frame
  rw [Hd44780.stores_append, Hd44780.stores_line _ (by decide), Hd44780.stores_line _ (by decide)]
  rfl

/-- After a frame the display holds its two lines, all else being as before. -/
theorem frame_ddram (lcd : Hd44780) (e : Nat → Env) :
    (lcd.writes (frame e)).ddram = commit lcd.ddram
      ((List.range' 0x00 16).zip (line1 fun i => e (i + 1)) ++
        (List.range' 0x40 16).zip (line2 fun i => e (i + 18))) := by
  have hclear : (false, 0x01) ∉ frame e := by simp [frame]
  rw [lcd.writes_ddram _ hclear, frame_stores]

theorem map_range_prefix {B : Type} (f : Nat → B) {m n : Nat} (h : m ≤ n) :
    (List.range m).map f <+: (List.range n).map f := by
  obtain ⟨k, rfl⟩ := Nat.exists_eq_add_of_le h
  rw [List.range_add, List.map_append]
  exact List.prefix_append _ _

/-- The bytes strobed are the words of the writing states done. -/
theorem sent_words {s : LcdClk} (h : PowerUp s) (inp : Nat → Env) (n : Nat) :
    strobes edge50 (·.display.lcdEn) (·.display.bus) s (upTo inp n) =
      (List.range ((steps n + 1) / 3)).map fun i => slotWord i (sample inp i) := by
  have hstart : s.display.nowState = slotState 0 := h.nowState
  have hp := edge50_projects.strobes_eq Display.lcdEn Display.bus s (upTo inp n)
  rw [edge50_inputs h, display_strobes hstart] at hp
  simpa only [Nat.zero_add, sample] using hp

/-- The bus from the edge of one writing state to the edge of the next. -/
theorem bus_held {s : LcdClk} (h : PowerUp s) (inp : Nat → Env) {k t : Nat}
    (hlo : 380001 * (3 * k + 1) < t) (hhi : t ≤ 380001 * (3 * (k + 1) + 1)) :
    let d := (run edge50 s (upTo inp t)).display
    d.lcdRs = (slotWord k (sample inp k)).1 ∧ d.lcdData = some (slotWord k (sample inp k)).2 ∧
      (d.lcdEn = true ↔ t ≤ 380001 * (3 * k + 2)) := by
  intro d
  have hstart : s.display.nowState = slotState 0 := h.nowState
  have h1 : 3 * k + 1 ≤ steps t := (le_steps_iff (Nat.succ_pos _)).mpr hlo
  have h2 : 3 * k + 2 ≤ steps t ↔ 380001 * (3 * k + 2) < t := le_steps_iff (Nat.succ_pos _)
  have h4 : ¬ 3 * (k + 1) + 1 ≤ steps t := by
    rw [le_steps_iff (Nat.succ_pos _)]
    exact Nat.not_lt.mpr hhi
  have hp := displayAt_phase hstart (fun j => inp (380001 * (j + 1))) k (steps t - 3 * k)
    (by omega)
  have ht : 3 * k + (steps t - 3 * k) = steps t := by omega
  rw [ht, ← edge50_display h, Nat.zero_add] at hp
  refine ⟨?_, ?_, ?_⟩
  · exact congrArg Prod.fst hp.bus
  · have hrw : d.lcdRwInt = false := hp.rw
    have hd : d.lcdDataValue = (slotWord k (sample inp k)).2 := congrArg Prod.snd hp.bus
    rw [Display.lcdData, if_pos hrw, hd]
  · rw [hp.en]
    omega

/-- **The display refresh.** From power-up, for any inputs at every edge of
CLOCK_50: the strobed bytes are the initialisation followed by frames, one byte
for each writing state done; the bus holds the byte of a state from the edge
that raises the strobe to the edge that raises it next, and the strobe is up
for the first third of that time; a frame stores its lines in their cells. -/
theorem lcd_refresh {s : LcdClk} (h : PowerUp s) (inp : Nat → Env) :
    let sent n := strobes edge50 (·.display.lcdEn) (·.display.bus) s (upTo inp n)
    let at' t := (run edge50 s (upTo inp t)).display
    let frames q := frame fun r => sample inp (8 + 34 * q + r)
    (∀ n, sent n <+: initCommands ++ (List.range n).flatMap frames ∧
      (sent n).length = (steps n + 1) / 3) ∧
    (∀ k t, 380001 * (3 * k + 1) < t → t ≤ 380001 * (3 * (k + 1) + 1) →
      (at' t).lcdRs = (slotWord k (sample inp k)).1 ∧
      (at' t).lcdData = some (slotWord k (sample inp k)).2 ∧
      ((at' t).lcdEn = true ↔ t ≤ 380001 * (3 * k + 2))) ∧
    ∀ q lcd, Hd44780.stores lcd (frames q) =
      (List.range' 0x00 16).zip (line1 fun i => sample inp (8 + 34 * q + (i + 1))) ++
        (List.range' 0x40 16).zip (line2 fun i => sample inp (8 + 34 * q + (i + 18))) := by
  intro sent at' frames
  refine ⟨fun n => ⟨?_, ?_⟩, fun k t hlo hhi => ?_, fun q lcd => frame_stores lcd _⟩
  · change strobes _ _ _ s (upTo inp n) <+: _
    rw [sent_words h, ← slotWord_frames]
    apply map_range_prefix
    unfold steps
    omega
  · change (strobes _ _ _ s (upTo inp n)).length = _
    rw [sent_words h, List.length_map, List.length_range]
  · exact bus_held h inp hlo hhi

/-- The first 90000000 edges, while 12:00:00 stands: two frames and three bytes
of the next. -/
theorem lcd_refresh_noon :
    let s : LcdClk := ⟨0, false, ⟨.initialStart, .initialStart, false, false, false, 0⟩⟩
    let e : Env := Clock.powerUp.env false
    let sent := strobes edge50 (·.display.lcdEn) (·.display.bus) s (upTo (fun _ => e) 90000000)
    PowerUp s ∧ sent.length = 8 + 34 * 2 + 3 ∧
      sent <+: initCommands ++ (List.range 90000000).flatMap fun _ => frame fun _ => e := by
  intro s e sent
  have h : PowerUp s := ⟨rfl, rfl, rfl, rfl⟩
  obtain ⟨hpre, hlen⟩ := (lcd_refresh h fun _ => e).1 90000000
  exact ⟨h, hlen.trans (by decide), hpre⟩

end FpgaLabs.Lab7
