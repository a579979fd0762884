import FpgaLabs.Sync.Strobe

/-! Lab 7's `LCD_Controller.vhd`: 41 bytes to the LCD by one counter and three
loops, with an asynchronous reset that leaves the strobe and the data as they
are. A pass is what happens between two resets. -/

namespace FpgaLabs.Lab7.LcdControll
open Sync

abbrev Ascii := BitVec 8

inductive StateType
  | s1 | s2 | s3 | s4 | s10 | s11 | s12 | s13 | s20 | s21 | s22 | s23 | s24
  deriving DecidableEq, Repr

def initcode : List Ascii := [0x38, 0x38, 0x38, 0x38, 0x06, 0x0F, 0x01]

def line1 : List Ascii :=
  [0x20, 0x20, 0x20, 0x45, 0x6E, 0x6F, 0x63, 0x68, 0x27, 0x73, 0x20, 0x4C, 0x43, 0x44, 0x20, 0x20]

def line2 : List Ascii :=
  [0x31, 0x32, 0x33, 0x34, 0x35, 0x36, 0x37, 0x38, 0x39, 0x30, 0x31, 0x32, 0x33, 0x34, 0x35, 0x36]

/-- An array that starts at 1. An index outside it is an error of the source, for
which the model reads 0; `IndexOk` says of an event that it raises none. -/
def index (table : List Ascii) (i : Int) : Ascii :=
  if 1 ≤ i then table.getD (i.toNat - 1) 0 else 0

/-- The signals of the process `lcd_control`. -/
structure Controller where
  reset : Bool
  state : StateType
  count : Int
  lcdD : Ascii
  lcdWr : Bool
  lcdEn : Bool
  lcdRs : Bool

/-- A branch that puts a byte on the bus and raises the strobe. -/
def Controller.write (s : Controller) (rs : Bool) (d : Ascii) (next : StateType) : Controller :=
  { s with lcdD := d, lcdEn := true, lcdRs := rs, lcdWr := false, state := next }

/-- A branch that lowers the strobe. -/
def Controller.toggle (s : Controller) (count : Int) (next : StateType) : Controller :=
  { s with lcdEn := false, count := count, state := next }

/-- `CASE state`. -/
def caseState (s : Controller) : Controller :=
  match s.state with
  | .s1 => s.write false (index initcode s.count) .s2
  | .s2 => s.toggle (s.count + 1) (if s.count + 1 ≤ 7 then .s1 else .s10)
  | .s10 => s.write false 0x80 .s11
  | .s11 => s.toggle 1 .s12
  | .s12 => s.write true (index line1 s.count) .s13
  | .s13 => s.toggle (s.count + 1) (if s.count + 1 ≤ 16 then .s12 else .s20)
  | .s20 => s.write false 0xBF .s21
  | .s21 => s.toggle 1 .s22
  | .s22 => s.write true (index line2 s.count) .s23
  | .s23 => s.toggle (s.count + 1) (if s.count + 1 ≤ 16 then .s22 else .s24)
  | .s24 => { s with state := .s24 }
  | .s3 | .s4 => { s with state := .s24 }

/-- What the process reacts to: a rising clock edge, a new level of `reset`. -/
inductive Event
  | clock
  | reset (level : Bool)
  deriving DecidableEq

def Controller.clear (s : Controller) : Controller := { s with count := 1, state := .s1 }

def step (s : Controller) : Event → Controller
  | .clock => if s.reset then s.clear else caseState s
  | .reset level =>
    if level then ({ s with reset := level } : Controller).clear else { s with reset := level }

def Controller.bus (s : Controller) : Bool × Ascii := (s.lcdRs, s.lcdD)

/-- The clock edges among the events that find `reset` low. -/
def edges : Bool → List Event → Nat
  | _, [] => 0
  | level, .clock :: es => (if level then 0 else 1) + edges level es
  | _, .reset level :: es => edges level es

/-- The 41 bytes of a whole pass. -/
def program : List (Bool × Ascii) :=
  initcode.map (false, ·) ++ (false, 0x80) :: line1.map (true, ·) ++
    (false, 0xBF) :: line2.map (true, ·)

/-! ## The invariant -/

/-- Byte `k` stands on the bus and the strobe is up. -/
def Up (s : Controller) (k : Nat) : Prop := s.lcdEn = true ∧ program[k]? = some s.bus

/-- `k` bytes of the pass are sent. -/
def Sent (s : Controller) (k : Nat) : Prop :=
  match s.state with
  | .s1 => k < 7 ∧ s.count = k + 1
  | .s2 => k < 7 ∧ s.count = k + 1 ∧ Up s k
  | .s10 => k = 7
  | .s11 => k = 7 ∧ Up s k
  | .s12 => 8 ≤ k ∧ k < 24 ∧ s.count = k - 7
  | .s13 => 8 ≤ k ∧ k < 24 ∧ s.count = k - 7 ∧ Up s k
  | .s20 => k = 24
  | .s21 => k = 24 ∧ Up s k
  | .s22 => 25 ≤ k ∧ k < 41 ∧ s.count = k - 24
  | .s23 => 25 ≤ k ∧ k < 41 ∧ s.count = k - 24 ∧ Up s k
  | .s24 => k = 41 ∧ s.lcdEn = false
  | .s3 | .s4 => False

/-- The states that lower the strobe. -/
def StateType.lowers : StateType → Bool
  | .s2 | .s11 | .s13 | .s21 | .s23 => true
  | _ => false

/-- After `p` edges of the pass, which have sent the bytes `sent`. -/
structure Pass (s : Controller) (p : Nat) (sent : List (Bool × Ascii)) : Prop where
  bytes : Sent s sent.length
  isTake : sent = program.take sent.length
  edges : if s.state = .s24 then 82 ≤ p else p = 2 * sent.length + s.state.lowers.toNat
  held : s.reset = true → p = 0

theorem program_init : ∀ k : Nat, k < 7 → program[k]? = some (false, index initcode ((k : Int) + 1)) := by
  decide

theorem program_line1 : ∀ k : Nat, k < 24 → 8 ≤ k →
    program[k]? = some (true, index line1 ((k : Int) - 7)) := by
  decide

theorem program_line2 : ∀ k : Nat, k < 41 → 25 ≤ k →
    program[k]? = some (true, index line2 ((k : Int) - 24)) := by
  decide

/-- A branch that raises the strobe sends nothing. -/
theorem Pass.write {s : Controller} {p : Nat} {sent : List (Bool × Ascii)} (h : Pass s p sent)
    (hs : s.state.lowers = false ∧ s.state ≠ .s24) {rs : Bool} {d : Ascii} {next : StateType}
    (hr : s.reset = false) (hn : next.lowers = true ∧ next ≠ .s24)
    (hsent : Sent (s.write rs d next) sent.length) :
    Pass (s.write rs d next) (p + 1)
      (sent ++ strobe Controller.lcdEn Controller.bus s (s.write rs d next)) := by
  have hnone : strobe Controller.lcdEn Controller.bus s (s.write rs d next) = [] := by
    simp [strobe, Controller.write]
  have hp := h.edges
  rw [if_neg hs.2, hs.1] at hp
  rw [hnone, List.append_nil]
  refine ⟨hsent, h.isTake, ?_, fun he => ?_⟩
  · simp only [Controller.write, hn.1, hn.2, ↓reduceIte, Bool.toNat_true]
    simp only [Bool.toNat_false] at hp
    omega
  · simp [Controller.write, hr] at he

/-- A branch that lowers the strobe sends the byte on the bus. -/
theorem Pass.toggle {s : Controller} {p : Nat} {sent : List (Bool × Ascii)} (h : Pass s p sent)
    (hs : s.state.lowers = true) (hup : Up s sent.length) {count : Int} {next : StateType}
    (hr : s.reset = false) (hn : next.lowers = false)
    (hsent : Sent (s.toggle count next) (sent.length + 1)) :
    Pass (s.toggle count next) (p + 1)
      (sent ++ strobe Controller.lcdEn Controller.bus s (s.toggle count next)) := by
  have hone : strobe Controller.lcdEn Controller.bus s (s.toggle count next) = [s.bus] := by
    simp [strobe, Controller.toggle, hup.1]
  have hs24 : s.state ≠ .s24 := fun he => by simp [he, StateType.lowers] at hs
  have hp := h.edges
  rw [if_neg hs24, hs] at hp
  simp only [Bool.toNat_true] at hp
  rw [hone]
  refine ⟨by simpa using hsent, ?_, ?_, fun he => ?_⟩
  · rw [List.length_append, List.length_singleton, List.take_add_one, hup.2, ← h.isTake]
    rfl
  · rw [List.length_append, List.length_singleton]
    split
    · next h24 =>
      have h24' : next = .s24 := h24
      subst h24'
      have hk : sent.length + 1 = 41 := hsent.1
      omega
    · simp only [Controller.toggle, hn, Bool.toNat_false]
      omega
  · simp [Controller.toggle, hr] at he

/-- **One clock edge of a pass**, state by state. -/
theorem caseState_pass {s : Controller} {p : Nat} {sent : List (Bool × Ascii)} (h : Pass s p sent)
    (hr : s.reset = false) :
    Pass (caseState s) (p + 1)
      (sent ++ strobe Controller.lcdEn Controller.bus s (caseState s)) := by
  have hb := h.bytes
  unfold caseState
  unfold Sent at hb
  cases hs : s.state <;> simp only [hs] at hb ⊢
  case s1 =>
    refine h.write (by simp [hs, StateType.lowers]) hr (by simp [StateType.lowers]) ?_
    exact ⟨hb.1, hb.2, rfl, by rw [hb.2]; exact program_init _ hb.1⟩
  case s2 =>
    obtain ⟨hk, hc, hup⟩ := hb
    refine h.toggle (by simp [hs, StateType.lowers]) hup hr (by split <;> rfl) ?_
    have hc' : s.count + 1 = ((sent.length + 1 : Nat) : Int) + 1 := by omega
    split
    · exact ⟨by omega, hc'⟩
    · show sent.length + 1 = 7
      omega
  case s10 =>
    refine h.write (by simp [hs, StateType.lowers]) hr (by simp [StateType.lowers]) ?_
    exact ⟨hb, rfl, by rw [hb]; rfl⟩
  case s11 =>
    refine h.toggle (by simp [hs, StateType.lowers]) hb.2 hr rfl ?_
    rw [hb.1]
    exact ⟨by decide, by decide, rfl⟩
  case s12 =>
    refine h.write (by simp [hs, StateType.lowers]) hr (by simp [StateType.lowers]) ?_
    obtain ⟨hlo, hhi, hc⟩ := hb
    exact ⟨hlo, hhi, hc, rfl, by rw [hc]; exact program_line1 _ hhi hlo⟩
  case s13 =>
    obtain ⟨hlo, hhi, hc, hup⟩ := hb
    refine h.toggle (by simp [hs, StateType.lowers]) hup hr (by split <;> rfl) ?_
    have hc' : s.count + 1 = ((sent.length + 1 : Nat) : Int) - 7 := by omega
    split
    · exact ⟨by omega, by omega, hc'⟩
    · show sent.length + 1 = 24
      omega
  case s20 =>
    refine h.write (by simp [hs, StateType.lowers]) hr (by simp [StateType.lowers]) ?_
    exact ⟨hb, rfl, by rw [hb]; rfl⟩
  case s21 =>
    refine h.toggle (by simp [hs, StateType.lowers]) hb.2 hr rfl ?_
    rw [hb.1]
    exact ⟨by decide, by decide, rfl⟩
  case s22 =>
    refine h.write (by simp [hs, StateType.lowers]) hr (by simp [StateType.lowers]) ?_
    obtain ⟨hlo, hhi, hc⟩ := hb
    exact ⟨hlo, hhi, hc, rfl, by rw [hc]; exact program_line2 _ hhi hlo⟩
  case s23 =>
    obtain ⟨hlo, hhi, hc, hup⟩ := hb
    refine h.toggle (by simp [hs, StateType.lowers]) hup hr (by split <;> rfl) ?_
    have hc' : s.count + 1 = ((sent.length + 1 : Nat) : Int) - 24 := by omega
    split
    · exact ⟨by omega, by omega, hc'⟩
    · have hk : sent.length + 1 = 41 := by omega
      exact ⟨hk, rfl⟩
  case s24 =>
    have hp := h.edges
    rw [if_pos hs] at hp
    have hnone : strobe Controller.lcdEn Controller.bus s { s with state := .s24 } = [] := by
      simp [strobe, hb.2]
    rw [hnone, List.append_nil]
    refine ⟨hb, h.isTake, ?_, fun he => ?_⟩
    · rw [if_pos rfl]
      omega
    · rw [hr] at he
      exact absurd he (by decide)

theorem clear_pass (s : Controller) : Pass s.clear 0 [] := by
  refine ⟨⟨by decide, rfl⟩, rfl, ?_, fun _ => rfl⟩
  simp [Controller.clear, StateType.lowers]

theorem caseState_reset (s : Controller) : (caseState s).reset = s.reset := by
  unfold caseState
  split <;> rfl

/-- One event of a pass. -/
theorem step_pass {s : Controller} {p : Nat} {sent : List (Bool × Ascii)} (h : Pass s p sent)
    {e : Event} (he : e ≠ .reset true) :
    Pass (step s e) (p + edges s.reset [e])
      (sent ++ strobe Controller.lcdEn Controller.bus s (step s e)) := by
  cases e with
  | clock =>
    cases hr : s.reset with
    | false => simpa [step, hr, edges] using caseState_pass h hr
    | true =>
      have hp : p = 0 := h.held hr
      have hlen : sent = [] := by
        have hedges := h.edges
        rw [hp] at hedges
        apply List.eq_nil_of_length_eq_zero
        split at hedges <;> omega
      subst hp hlen
      simpa [step, hr, edges, strobe, Controller.clear] using clear_pass s
  | reset level =>
    have hl : level = false := by simpa using he
    subst hl
    have hsame : Pass { s with reset := false } p sent := ⟨h.bytes, h.isTake, h.edges, by simp⟩
    simpa [step, edges, strobe] using hsame

theorem edges_cons (s : Controller) (e : Event) (es : List Event) :
    edges s.reset (e :: es) = edges s.reset [e] + edges (step s e).reset es := by
  cases e with
  | clock => cases hr : s.reset <;> simp [edges, step, hr, caseState_reset, Controller.clear]
  | reset level => cases level <;> simp [edges, step, Controller.clear]

/-- **A pass.** What any events without another reset preserve. -/
theorem run_pass {s : Controller} {p : Nat} {sent : List (Bool × Ascii)} (h : Pass s p sent)
    {es : List Event} (hes : .reset true ∉ es) :
    Pass (run step s es) (p + edges s.reset es)
      (sent ++ strobes step Controller.lcdEn Controller.bus s es) := by
  induction es generalizing s p sent with
  | nil => simpa [edges, strobes] using h
  | cons e es ih =>
    rw [List.mem_cons, not_or] at hes
    have hstep := ih (step_pass h (Ne.symm hes.1)) hes.2
    rwa [Nat.add_assoc, ← edges_cons, List.append_assoc] at hstep

@[simp] theorem edges_replicate (n : Nat) : edges false (List.replicate n .clock) = n := by
  induction n with
  | zero => rfl
  | succ n ih => simp [List.replicate_succ, edges, ih, Nat.add_comm]

/-! ## Every pass -/

theorem Pass.count_inRange {s : Controller} {p : Nat} {sent : List (Bool × Ascii)}
    (h : Pass s p sent) :
    (s.state = .s1 → 1 ≤ s.count ∧ s.count ≤ 7) ∧
      (s.state = .s12 ∨ s.state = .s22 → 1 ≤ s.count ∧ s.count ≤ 16) := by
  have hb := h.bytes
  unfold Sent at hb
  constructor
  · intro hs
    simp only [hs] at hb
    omega
  · rintro (hs | hs) <;> simp only [hs] at hb <;> omega

theorem Pass.sent_s24 {s : Controller} {p : Nat} {sent : List (Bool × Ascii)} (h : Pass s p sent)
    (hs : s.state = .s24) : sent = program := by
  have hb := h.bytes
  unfold Sent at hb
  simp only [hs] at hb
  rw [h.isTake, hb.1]
  rfl

theorem Pass.done {s : Controller} {p : Nat} {sent : List (Bool × Ascii)} (h : Pass s p sent)
    (hp : 82 ≤ p) : s.state = .s24 ∧ s.lcdEn = false ∧ sent = program := by
  have hb := h.bytes
  have hedges := h.edges
  unfold Sent at hb
  cases hs : s.state <;> simp only [hs] at hb hedges
  case s24 => exact ⟨rfl, hb.2, h.sent_s24 hs⟩
  all_goals
    simp [StateType.lowers] at hedges
    omega

theorem Pass.length {s : Controller} {p : Nat} {sent : List (Bool × Ascii)} (h : Pass s p sent) :
    sent.length = min 41 (p / 2) := by
  have hb := h.bytes
  have hedges := h.edges
  unfold Sent at hb
  cases hs : s.state <;> simp [hs, StateType.lowers] at hb hedges <;> omega

/-- The pass since the latest reset. -/
theorem last_pass (s₀ : Controller) (before es : List Event) (hes : .reset true ∉ es) :
    Pass (run step s₀ (before ++ .reset true :: es)) (edges true es)
      (strobes step Controller.lcdEn Controller.bus (run step s₀ before) (.reset true :: es)) := by
  have hclear : Pass (step (run step s₀ before) (.reset true)) 0 [] := clear_pass _
  have hsent : strobes step Controller.lcdEn Controller.bus (run step s₀ before)
      (.reset true :: es) = strobes step Controller.lcdEn Controller.bus
        (step (run step s₀ before) (.reset true)) es := by
    simp [strobes, strobe, step, Controller.clear]
  have hpass := run_pass hclear hes
  rw [Nat.zero_add, List.nil_append, ← hsent] at hpass
  rw [run_append]
  exact hpass

/-- **The controller.** After any events, the latest reset and further events:
no index leaves its table, the bytes strobed since that reset are a prefix of
the program, two edges for each, and from the 82nd edge on all are sent and the
machine rests in s24 with the strobe low. -/
theorem controller_sends (s₀ : Controller) (before es : List Event) (hes : .reset true ∉ es) :
    let s := run step s₀ (before ++ .reset true :: es)
    let sent := strobes step Controller.lcdEn Controller.bus (run step s₀ before)
      (.reset true :: es)
    (s.state = .s1 → 1 ≤ s.count ∧ s.count ≤ 7) ∧
    (s.state = .s12 ∨ s.state = .s22 → 1 ≤ s.count ∧ s.count ≤ 16) ∧
    sent <+: program ∧ sent.length = min 41 (edges true es / 2) ∧
    (82 ≤ edges true es → s.state = .s24 ∧ s.lcdEn = false ∧ sent = program) := by
  intro s sent
  have hpass : Pass s (edges true es) sent := last_pass s₀ before es hes
  obtain ⟨h1, h2⟩ := hpass.count_inRange
  refine ⟨h1, h2, ?_, hpass.length, hpass.done⟩
  rw [hpass.isTake]
  exact List.take_prefix _ _

/-- A reset while the fourth byte is strobed, then a whole pass. -/
theorem controller_sends_again :
    let s₀ : Controller := ⟨false, .s1, -2147483648, 0, true, true, true⟩
    let before := .reset true :: .reset false :: List.replicate 7 Event.clock
    let es := .reset false :: List.replicate 82 Event.clock
    (run step s₀ before).lcdEn = true ∧ (run step s₀ (before ++ .reset true :: es)).state = .s24 ∧
      strobes step Controller.lcdEn Controller.bus (run step s₀ before) (.reset true :: es) =
        program := by
  intro s₀ before es
  have hes : .reset true ∉ es := by simp [es]
  have hedges : edges true es = 82 := by simp [es, edges]
  obtain ⟨hstate, -, hsent⟩ := (controller_sends s₀ before es hes).2.2.2.2 (Nat.le_of_eq hedges.symm)
  exact ⟨by decide, hstate, hsent⟩

/-! ## Before the first reset -/

/-- The leftmost values. `count` is an INTEGER without a range. -/
def powerUp : Controller := ⟨false, .s1, -2147483648, 0, false, false, false⟩

/-- The event raises no index error. -/
def IndexOk (s : Controller) (e : Event) : Prop :=
  e = .clock → s.reset = false →
    (s.state = .s1 → 1 ≤ s.count ∧ s.count ≤ 7) ∧
    (s.state = .s12 ∨ s.state = .s22 → 1 ≤ s.count ∧ s.count ≤ 16)

theorem indexOk_powerUp (e : Event) : IndexOk powerUp e ↔ e ≠ .clock := by
  constructor
  · rintro h rfl
    have hcount : 1 ≤ powerUp.count := ((h rfl rfl).1 rfl).1
    exact absurd hcount (by decide)
  · intro he hclock
    exact absurd hclock he

/-- Without a reset the first edge looks outside `initcode`. -/
theorem indexOk_iff_no_edge {es : List Event} (hes : .reset true ∉ es) :
    EachStep step IndexOk powerUp es ↔ .clock ∉ es := by
  induction es with
  | nil => simp [EachStep]
  | cons e es ih =>
    rw [List.mem_cons, not_or] at hes
    rw [EachStep, indexOk_powerUp, List.mem_cons, not_or]
    cases e with
    | clock => exact iff_of_false (fun h => h.1 rfl) fun h => h.1 rfl
    | reset level =>
      have hl : level = false := by simpa using Ne.symm hes.1
      subst hl
      have hstay : step powerUp (.reset false) = powerUp := rfl
      rw [hstay, ih hes.2]
      exact and_congr_left' (iff_of_true (by decide) (by decide))

/-- Nor does anything else move the machine. -/
theorem run_powerUp {es : List Event} (hes : .reset true ∉ es) (hedge : .clock ∉ es) :
    run step powerUp es = powerUp := by
  induction es with
  | nil => rfl
  | cons e es ih =>
    rw [List.mem_cons, not_or] at hes hedge
    have hstay : step powerUp e = powerUp := by
      cases e with
      | clock => exact absurd rfl hedge.1
      | reset level =>
        cases level with
        | false => rfl
        | true => exact absurd rfl hes.1
    rw [run_cons, hstay]
    exact ih hes.2 hedge.2

/-- So a run without index errors from power-up to s24 has a reset. -/
theorem reset_of_s24 {es : List Event} (hes : EachStep step IndexOk powerUp es)
    (hs : (run step powerUp es).state = .s24) :
    ∃ before rest, es = before ++ .reset true :: rest ∧ .reset true ∉ rest := by
  have hreset : .reset true ∈ es := by
    by_contra hno
    have hedge := (indexOk_iff_no_edge hno).mp hes
    rw [run_powerUp hno hedge] at hs
    exact absurd hs (by decide)
  obtain ⟨rest, before, hsplit, hrest⟩ := List.eq_append_cons_of_mem (List.mem_reverse.mpr hreset)
  refine ⟨before.reverse, rest.reverse, ?_, by simpa using hrest⟩
  rw [← List.reverse_reverse es, hsplit]
  simp

end FpgaLabs.Lab7.LcdControll
