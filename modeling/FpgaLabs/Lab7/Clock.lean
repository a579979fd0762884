import FpgaLabs.Sync.Counter
import FpgaLabs.Sync.Process
import FpgaLabs.Sync.Run
import Mathlib.Tactic.SplitIfs

/-! The 12-hour clock of lab 7, `Better Circuit/clock.vhd`, with the glyph
tables `display.vhd` and `translate.vhd`. One step is a rising edge of the
divided clock. -/

namespace FpgaLabs.Lab7
open Sync

/-- The digit signals. -/
inductive Digit
  | seclsb | secmsb | minlsb | minmsb | hrlsb | hrmsb
  deriving DecidableEq, Repr

/-- Upper end of the declared range `INTEGER RANGE 0 TO high`. -/
def Digit.high : Digit → Nat
  | .seclsb => 10
  | .secmsb => 6
  | .minlsb => 10
  | .minmsb => 6
  | .hrlsb => 10
  | .hrmsb => 2

structure Clock where
  digit : Digit → Nat
  hflag : Bool

/-- The inputs `hr_add`, `min_add`, `sec_zero`: '0' while the button is pressed. -/
structure Keys where
  hrAdd : Bool
  minAdd : Bool
  secZero : Bool

def released : Keys := ⟨true, true, true⟩

/-- The declared initial values, 12:00:00 with `hflag` '1'. -/
def Clock.powerUp : Clock where
  digit
    | .hrlsb => 2
    | .hrmsb => 1
    | _ => 0
  hflag := true

/-- A digit pair counting to `10 * m + n`: the nesting of two IF blocks, with
`carry` in the inner one. -/
def pairStep (s : Clock) (lo hi : Digit) (n m : Nat) (carry : List (Digit × Nat)) :
    List (Digit × Nat) :=
  (lo, s.digit lo + 1) ::
    if s.digit lo = n then
      (lo, 0) :: (hi, s.digit hi + 1) :: if s.digit hi = m then (hi, 0) :: carry else []
    else []

/-- The assignments to the hour digits, made both by the innermost carry and
by `hr_add`. -/
def hourStep (s : Clock) : List (Digit × Nat) :=
  (.hrlsb, s.digit .hrlsb + 1) ::
    if s.digit .hrmsb = 1 ∧ s.digit .hrlsb = 2 then [(.hrlsb, 1), (.hrmsb, 0)]
    else if s.digit .hrlsb = 9 then [(.hrlsb, 0), (.hrmsb, s.digit .hrmsb + 1)]
    else []

/-- The running carries of the first IF block. -/
def carries (s : Clock) : List (Digit × Nat) :=
  pairStep s .seclsb .secmsb 9 5 (pairStep s .minlsb .minmsb 9 5 (hourStep s))

/-- All digit assignments of one edge, in the order of the four IF blocks. -/
def assignments (s : Clock) (k : Keys) : List (Digit × Nat) :=
  carries s ++
    (if k.secZero then [] else [(.seclsb, 0), (.secmsb, 0)]) ++
    (if k.minAdd then [] else pairStep s .minlsb .minmsb 9 5 []) ++
    (if k.hrAdd then [] else hourStep s)

/-- `hflag <= NOT hflag`, in the innermost carry. -/
def flagFlips (s : Clock) : Prop :=
  s.digit .seclsb = 9 ∧ s.digit .secmsb = 5 ∧ s.digit .minlsb = 9 ∧ s.digit .minmsb = 5 ∧
    s.digit .hrmsb = 1 ∧ s.digit .hrlsb = 2

instance (s : Clock) : Decidable (flagFlips s) := by unfold flagFlips; infer_instance

def tick (s : Clock) (k : Keys) : Clock where
  digit := commit s.digit (assignments s k)
  hflag := if flagFlips s then !s.hflag else s.hflag

/-- What a pair step commits: the low digit steps, the high one steps with its
carry, and `carry` is scheduled on the carry of both. -/
theorem commit_pairStep (d : Digit → Nat) (s : Clock) {lo hi : Digit} (hne : lo ≠ hi) (n m : Nat)
    (carry : List (Digit × Nat)) :
    commit d (pairStep s lo hi n m carry) =
      commit (Function.update (Function.update d lo (next (n + 1) (s.digit lo))) hi
          (if s.digit lo = n then next (m + 1) (s.digit hi) else d hi))
        (if s.digit lo = n ∧ s.digit hi = m then carry else []) := by
  unfold pairStep next
  by_cases hn : s.digit lo = n
  · by_cases hm : s.digit hi = m <;> simp [hn, hm]
  · have hsame : ∀ v, Function.update (Function.update d lo v) hi (d hi) =
        Function.update d lo v := by
      intro v
      rw [← Function.update_of_ne hne.symm v d, Function.update_eq_self]
    simp [hn, hsame]

/-- The hour digits after an hour step. -/
def hourLo (s : Clock) : Nat :=
  if s.digit .hrmsb = 1 ∧ s.digit .hrlsb = 2 then 1 else next 10 (s.digit .hrlsb)

def hourHi (s : Clock) (hrmsb : Nat) : Nat :=
  if s.digit .hrmsb = 1 ∧ s.digit .hrlsb = 2 then 0
  else if s.digit .hrlsb = 9 then s.digit .hrmsb + 1 else hrmsb

theorem commit_hourStep (d : Digit → Nat) (s : Clock) :
    commit d (hourStep s) =
      Function.update (Function.update d .hrlsb (hourLo s)) .hrmsb (hourHi s (d .hrmsb)) := by
  have hsame : ∀ v, Function.update (Function.update d .hrlsb v) .hrmsb (d .hrmsb) =
      Function.update d .hrlsb v := by
    intro v
    rw [← Function.update_of_ne (show Digit.hrmsb ≠ .hrlsb by decide) v d,
      Function.update_eq_self]
  unfold hourStep hourLo hourHi next
  by_cases h12 : s.digit .hrmsb = 1 ∧ s.digit .hrlsb = 2
  · simp [h12]
  · by_cases h9 : s.digit .hrlsb = 9
    · simp [h9]
    · simp [h12, h9, hsame]

/-- The carries out of the seconds and out of the minutes. -/
def secCarry (s : Clock) : Prop := s.digit .seclsb = 9 ∧ s.digit .secmsb = 5
def minCarry (s : Clock) : Prop :=
  secCarry s ∧ s.digit .minlsb = 9 ∧ s.digit .minmsb = 5

instance (s : Clock) : Decidable (secCarry s) := by unfold secCarry; infer_instance
instance (s : Clock) : Decidable (minCarry s) := by unfold minCarry; infer_instance

/-- The digits after an edge, digit by digit. -/
def tickDigit (s : Clock) (k : Keys) : Digit → Nat
  | .seclsb => if k.secZero then next 10 (s.digit .seclsb) else 0
  | .secmsb =>
    if k.secZero then
      if s.digit .seclsb = 9 then next 6 (s.digit .secmsb) else s.digit .secmsb
    else 0
  | .minlsb =>
    if secCarry s ∨ k.minAdd = false then next 10 (s.digit .minlsb) else s.digit .minlsb
  | .minmsb =>
    if (secCarry s ∨ k.minAdd = false) ∧ s.digit .minlsb = 9 then next 6 (s.digit .minmsb)
    else s.digit .minmsb
  | .hrlsb => if minCarry s ∨ k.hrAdd = false then hourLo s else s.digit .hrlsb
  | .hrmsb =>
    if minCarry s ∨ k.hrAdd = false then hourHi s (s.digit .hrmsb) else s.digit .hrmsb

theorem carries_commit (s : Clock) : commit s.digit (carries s) = tickDigit s released := by
  unfold carries
  rw [commit_pairStep s.digit s (by decide : Digit.seclsb ≠ .secmsb)]
  funext x
  by_cases hs : secCarry s
  · have hs' := hs
    unfold secCarry at hs'
    rw [if_pos hs', commit_pairStep _ s (by decide : Digit.minlsb ≠ .minmsb)]
    by_cases hm : s.digit .minlsb = 9 ∧ s.digit .minmsb = 5
    · have hc : minCarry s := ⟨hs, hm⟩
      rw [if_pos hm, commit_hourStep]
      cases x <;> simp [tickDigit, released, hs, hc, hm, hs']
    · have hc : ¬ minCarry s := fun h => hm h.2
      rw [if_neg hm]
      cases x <;> simp [tickDigit, released, hs, hc, hs']
  · have hc : ¬ minCarry s := fun h => hs h.1
    have hs' := hs
    unfold secCarry at hs'
    rw [if_neg hs']
    cases x <;> simp [tickDigit, released, hs, hc]

theorem hourHi_idem (s : Clock) (v : Nat) : hourHi s (hourHi s v) = hourHi s v := by
  unfold hourHi
  split_ifs <;> rfl

/-- **One edge, digit by digit.** A button that coincides with its carry repeats
the assignments of the carry. -/
theorem tick_digit (s : Clock) (k : Keys) : (tick s k).digit = tickDigit s k := by
  cases k with | mk h m z =>
  simp only [tick, assignments, commit_append, carries_commit]
  funext x
  cases x with
  | minmsb =>
    by_cases h9 : s.digit .minlsb = 9 <;> cases h <;> cases m <;> cases z <;>
      simp [commit_pairStep, commit_hourStep, tickDigit, released, h9]
  | hrmsb =>
    by_cases hc : minCarry s <;> cases h <;> cases m <;> cases z <;>
      simp [commit_pairStep, commit_hourStep, tickDigit, released, hc, hourHi_idem]
  | _ =>
    cases h <;> cases m <;> cases z <;>
      simp [commit_pairStep, commit_hourStep, tickDigit, released]

/-! ## The time shown -/

def seconds (s : Clock) : Nat := s.digit .seclsb + 10 * s.digit .secmsb
def minutes (s : Clock) : Nat := s.digit .minlsb + 10 * s.digit .minmsb
def hour (s : Clock) : Nat := s.digit .hrlsb + 10 * s.digit .hrmsb

/-- The hours 1 to 12 and their successor. -/
def nextHour (h : Nat) : Nat := if h = 12 then 1 else h + 1

/-- A valid 12-hour time. -/
structure Valid (s : Clock) : Prop where
  seclsb : s.digit .seclsb ≤ 9
  secmsb : s.digit .secmsb ≤ 5
  minlsb : s.digit .minlsb ≤ 9
  minmsb : s.digit .minmsb ≤ 5
  hrlsb : s.digit .hrlsb ≤ 9
  hour_pos : 1 ≤ hour s
  hour_le : hour s ≤ 12

theorem secCarry_iff {s : Clock} (h : Valid s) : secCarry s ↔ seconds s = 59 := by
  have := h.seclsb
  have := h.secmsb
  unfold secCarry seconds
  omega

theorem minCarry_iff {s : Clock} (h : Valid s) :
    minCarry s ↔ seconds s = 59 ∧ minutes s = 59 := by
  have := h.minlsb
  have := h.minmsb
  unfold minCarry
  rw [secCarry_iff h]
  unfold minutes
  omega

theorem tick_seconds {s : Clock} (h : Valid s) (k : Keys) :
    seconds (tick s k) = if k.secZero then next 60 (seconds s) else 0 := by
  have hc := cascade_next (n := 10) (m := 6) (Nat.lt_succ_of_le h.seclsb)
    (Nat.lt_succ_of_le h.secmsb)
  simp only [seconds, tick_digit, tickDigit]
  cases k.secZero with
  | false => rfl
  | true => simpa using hc

theorem tick_minutes {s : Clock} (h : Valid s) (k : Keys) :
    minutes (tick s k) =
      if seconds s = 59 ∨ k.minAdd = false then next 60 (minutes s) else minutes s := by
  have hc := cascade_next (n := 10) (m := 6) (Nat.lt_succ_of_le h.minlsb)
    (Nat.lt_succ_of_le h.minmsb)
  simp only [minutes, tick_digit, tickDigit, secCarry_iff h]
  by_cases hp : seconds s = 59 ∨ k.minAdd = false
  · simpa [hp] using hc
  · simp [hp]

theorem hourStep_hour {s : Clock} (h : Valid s) :
    hourLo s + 10 * hourHi s (s.digit .hrmsb) = nextHour (hour s) ∧ hourLo s ≤ 9 := by
  have h1 := h.hour_pos
  have h2 := h.hour_le
  have h3 := h.hrlsb
  unfold hour at h1 h2
  unfold hourLo hourHi nextHour next hour
  split_ifs <;> omega

theorem tick_hour {s : Clock} (h : Valid s) (k : Keys) :
    hour (tick s k) =
      if (seconds s = 59 ∧ minutes s = 59) ∨ k.hrAdd = false then nextHour (hour s)
      else hour s := by
  have hh := (hourStep_hour h).1
  unfold hour at hh
  simp only [hour, tick_digit, tickDigit, minCarry_iff h]
  by_cases hp : (seconds s = 59 ∧ minutes s = 59) ∨ k.hrAdd = false
  · simpa [hp] using hh
  · simp [hp]

theorem tick_valid (s : Clock) (k : Keys) (h : Valid s) : Valid (tick s k) := by
  have hn : ∀ x, x ≤ 9 → next 10 x ≤ 9 := fun x hx => Nat.le_of_lt_succ (next_lt (by omega))
  have hm : ∀ x, x ≤ 5 → next 6 x ≤ 5 := fun x hx => Nat.le_of_lt_succ (next_lt (by omega))
  have h1 := h.hour_pos
  have h2 := h.hour_le
  refine ⟨?_, ?_, ?_, ?_, ?_, ?_, ?_⟩
  · simp only [tick_digit, tickDigit]
    split_ifs <;> simp [hn, h.seclsb]
  · simp only [tick_digit, tickDigit]
    split_ifs <;> simp [hm, h.secmsb]
  · simp only [tick_digit, tickDigit]
    split_ifs <;> simp [hn, h.minlsb]
  · simp only [tick_digit, tickDigit]
    split_ifs <;> simp [hm, h.minmsb]
  · simp only [tick_digit, tickDigit]
    split_ifs <;> simp [(hourStep_hour h).2, h.hrlsb]
  · rw [tick_hour h, nextHour]
    split_ifs <;> omega
  · rw [tick_hour h, nextHour]
    split_ifs <;> omega

theorem powerUp_valid : Valid Clock.powerUp := by
  constructor <;> decide

theorem run_valid (ks : List Keys) : Valid (run tick Clock.powerUp ks) :=
  run_preserves Valid tick_valid powerUp_valid

/-- The dial position in seconds; 12 o'clock is 0. -/
def dial (s : Clock) : Nat := seconds s + 60 * (minutes s + 60 * (hour s % 12))

theorem seconds_lt {s : Clock} (h : Valid s) : seconds s < 60 := by
  have := h.seclsb
  have := h.secmsb
  unfold seconds
  omega

theorem minutes_lt {s : Clock} (h : Valid s) : minutes s < 60 := by
  have := h.minlsb
  have := h.minmsb
  unfold minutes
  omega

theorem dial_lt {s : Clock} (h : Valid s) : dial s < 43200 :=
  cascade_lt (seconds_lt h)
    (cascade_lt (m := 12) (minutes_lt h) (Nat.mod_lt _ (by decide)))

/-- A tick without buttons is one step of the cascade 60, 60, 12. -/
theorem dial_tick {s : Clock} (h : Valid s) : dial (tick s released) = next 43200 (dial s) := by
  have hh : hour (tick s released) % 12 =
      if seconds s = 59 ∧ minutes s = 59 then next 12 (hour s % 12) else hour s % 12 := by
    have := h.hour_pos
    have := h.hour_le
    simp only [tick_hour h, released, nextHour, next, Bool.true_eq_false, or_false]
    split_ifs <;> omega
  have hm := cascade_next (n := 60) (m := 12) (minutes_lt h) (Nat.mod_lt (hour s) (by decide))
  have hs := cascade_next (n := 60) (m := 720) (seconds_lt h)
    (cascade_lt (m := 12) (minutes_lt h) (Nat.mod_lt (hour s) (by decide)))
  have hinner : minutes (tick s released) + 60 * (hour (tick s released) % 12) =
      if seconds s + 1 = 60 then next 720 (minutes s + 60 * (hour s % 12))
      else minutes s + 60 * (hour s % 12) := by
    rw [hh, tick_minutes h]
    by_cases h59 : seconds s = 59
    · simpa [released, h59] using hm
    · simp [released, h59]
  unfold dial
  rw [hinner, tick_seconds h]
  exact hs

/-! ## Ranges and glyphs -/

theorem pairStep_inRange {s : Clock} {lo hi : Digit} {n m : Nat} {carry : List (Digit × Nat)}
    (hlo : s.digit lo + 1 ≤ lo.high) (hhi : s.digit hi + 1 ≤ hi.high)
    (hc : ∀ a ∈ carry, a.2 ≤ a.1.high) : ∀ a ∈ pairStep s lo hi n m carry, a.2 ≤ a.1.high := by
  intro a ha
  unfold pairStep at ha
  split_ifs at ha <;> simp only [List.mem_cons, List.not_mem_nil, or_false] at ha
  · rcases ha with rfl | rfl | rfl | rfl | ha
    · exact hlo
    · exact Nat.zero_le _
    · exact hhi
    · exact Nat.zero_le _
    · exact hc a ha
  · rcases ha with rfl | rfl | rfl
    · exact hlo
    · exact Nat.zero_le _
    · exact hhi
  · subst ha
    exact hlo

theorem hourStep_inRange {s : Clock} (h : Valid s) : ∀ a ∈ hourStep s, a.2 ≤ a.1.high := by
  have h1 := h.hour_pos
  have h2 := h.hour_le
  have h3 := h.hrlsb
  unfold hour at h1 h2
  intro a ha
  unfold hourStep at ha
  split_ifs at ha <;> simp only [List.mem_cons, List.not_mem_nil, or_false] at ha
  · rcases ha with rfl | rfl | rfl <;> simp only [Digit.high] <;> omega
  · rcases ha with rfl | rfl | rfl <;> simp only [Digit.high] <;> omega
  · subst ha
    simp only [Digit.high]
    omega

/-- Every value scheduled at an edge lies in its declared range, also where a
later assignment overrides it. -/
theorem assignments_inRange {s : Clock} (h : Valid s) (k : Keys) :
    ∀ a ∈ assignments s k, a.2 ≤ a.1.high := by
  have hmin : ∀ c, (∀ a ∈ c, a.2 ≤ a.1.high) →
      ∀ a ∈ pairStep s .minlsb .minmsb 9 5 c, a.2 ≤ a.1.high :=
    fun c => pairStep_inRange (Nat.succ_le_succ h.minlsb) (Nat.succ_le_succ h.minmsb)
  have hhour := hourStep_inRange h
  have hcarry : ∀ a ∈ carries s, a.2 ≤ a.1.high :=
    pairStep_inRange (Nat.succ_le_succ h.seclsb) (Nat.succ_le_succ h.secmsb) (hmin _ hhour)
  intro a ha
  simp only [assignments, List.mem_append] at ha
  rcases ha with ((ha | ha) | ha) | ha
  · exact hcarry a ha
  · split at ha
    · simp at ha
    · simp only [List.mem_cons, List.not_mem_nil, or_false] at ha
      rcases ha with rfl | rfl <;> exact Nat.zero_le _
  · split at ha
    · simp at ha
    · exact hmin [] (by simp) a ha
  · split at ha
    · simp at ha
    · exact hhour a ha

/-- `display.vhd`: seven-segment glyphs. -/
def display (input : Nat) : BitVec 7 :=
  match input with
  | 0 => 0b1000000
  | 1 => 0b1111001
  | 2 => 0b0100100
  | 3 => 0b0110000
  | 4 => 0b0011001
  | 5 => 0b0010010
  | 6 => 0b0000010
  | 7 => 0b1111000
  | 8 => 0b0000000
  | 9 => 0b0010000
  | _ => 0b0000110

/-- `translate.vhd`: ASCII digits. -/
def translate (numin : Nat) : BitVec 8 :=
  match numin with
  | 0 => 0b00110000
  | 1 => 0b00110001
  | 2 => 0b00110010
  | 3 => 0b00110011
  | 4 => 0b00110100
  | 5 => 0b00110101
  | 6 => 0b00110110
  | 7 => 0b00110111
  | 8 => 0b00111000
  | 9 => 0b00111001
  | _ => 0b00111111

/-- The table holds the ASCII code of each digit. -/
theorem translate_eq_ascii {d : Nat} (h : d ≤ 9) : translate d = BitVec.ofNat 8 (0x30 + d) := by
  revert d
  decide

theorem digit_le_nine {s : Clock} (h : Valid s) (d : Digit) : s.digit d ≤ 9 := by
  have h1 := h.secmsb
  have h2 := h.minmsb
  have h3 := h.hour_le
  unfold hour at h3
  cases d
  · exact h.seclsb
  · omega
  · exact h.minlsb
  · omega
  · exact h.hrlsb
  · omega

theorem glyph_ne_others {d : Nat} (h : d ≤ 9) : display d ≠ display 10 ∧ translate d ≠ translate 10 := by
  revert d
  decide

/-- **The clock.** After any ticks from power-up, with any buttons at each: the
time is valid, every value assigned at the next tick is in its declared range,
no glyph table is on its OTHERS row, and a tick without buttons is one second. -/
theorem clock_keeps_time (ks : List Keys) :
    let s := run tick Clock.powerUp ks
    Valid s ∧ (∀ k, ∀ a ∈ assignments s k, a.2 ≤ a.1.high) ∧
      (∀ d, display (s.digit d) ≠ display 10 ∧ translate (s.digit d) ≠ translate 10) ∧
      dial (tick s released) = (dial s + 1) % 43200 ∧
      (hour s = 12 ∧ minutes s = 59 ∧ seconds s = 59 →
        hour (tick s released) = 1 ∧ minutes (tick s released) = 0 ∧
          seconds (tick s released) = 0) := by
  have h := run_valid ks
  refine ⟨h, fun k => assignments_inRange h k, fun d => glyph_ne_others (digit_le_nine h d), ?_, ?_⟩
  · have hn := next_mod (n := 43200) (by decide) (dial (run tick Clock.powerUp ks))
    rw [Nat.mod_eq_of_lt (dial_lt h)] at hn
    exact (dial_tick h).trans hn
  · rintro ⟨h12, hm, hs⟩
    rw [tick_hour h, tick_minutes h, tick_seconds h]
    simp [released, h12, hm, hs, nextHour, next]

end FpgaLabs.Lab7
