import FpgaLabs.Lab7.Refresh

/-! The half-day flag of lab 7 over whole days. The flag is inverted when
12:59:59 becomes 01:00:00, one hour after noon and midnight, and the display
prints the letter Q for it. -/

namespace FpgaLabs.Lab7
open Sync

/-- The clock after `n` ticks without buttons. -/
def after (n : Nat) : Clock := run tick Clock.powerUp (List.replicate n released)

theorem after_succ (n : Nat) : after (n + 1) = tick (after n) released := by
  simp [after, List.replicate_succ']

theorem after_valid (n : Nat) : Valid (after n) := run_valid _

/-- The dial goes round every twelve hours. -/
theorem dial_after (n : Nat) : dial (after n) = n % 43200 := by
  induction n with
  | zero => decide
  | succ n ih => rw [after_succ, dial_tick (after_valid n), ih, next_mod (by decide)]

/-- The flag is inverted at 12:59:59. -/
theorem flagFlips_iff {s : Clock} (h : Valid s) : flagFlips s ↔ dial s = 3599 := by
  obtain ⟨h1, h2, h3, h4, h5, h6, h7⟩ := h
  unfold hour at h6 h7
  unfold flagFlips dial seconds minutes hour
  omega

theorem hflag_after (n : Nat) : (after n).hflag = true ↔ (n + 39600) / 43200 % 2 = 0 := by
  refine level_after (f := fun n => (after n).hflag) (by decide) (fun n => ?_) n
  have hflip := flagFlips_iff (after_valid n)
  rw [dial_after] at hflip
  have hphase : n % 43200 = 3599 ↔ (n + 1 + 39600) % 43200 = 0 := by omega
  show (after (n + 1)).hflag = _
  rw [after_succ]
  simp only [tick, hflip, hphase]

/-- The second of the day, the flag being `am` in its first half. -/
def secondOfDay (am : Bool) (s : Clock) : Nat := dial s + if s.hflag = am then 0 else 43200

/-- The bytes of STATE_26 and STATE_27. -/
def suffix (e : Env) : List Byte :=
  [StateType.state26, .state27].map fun st => ((branch st).word e).2

theorem suffix_eq (e : Env) : suffix e = [amOrPm e.hflag, 0x4D] := rfl

/-- After `n` ticks the time and the flag give the second of the day. -/
def ReadsDay (am : Bool) (n : Nat) : Prop :=
  secondOfDay am (after n) = (secondOfDay am (after 0) + n) % 86400

/-- The letters AM for the flag '0' and PM for the flag '1'. -/
def PrintsHalf (n : Nat) : Prop :=
  ∀ sw0, suffix ((after n).env sw0) =
    if (after n).hflag = false then [0x41, 0x4D] else [0x50, 0x4D]

theorem readsDay_iff (am : Bool) (n : Nat) : ReadsDay am n ↔ n % 43200 < 3600 := by
  have h0 : (after 0).hflag = true := rfl
  have hn := hflag_after n
  unfold ReadsDay secondOfDay
  rw [dial_after, dial_after, h0]
  cases am <;> cases h : (after n).hflag <;> rw [h] at hn <;> simp at hn ⊢ <;> omega

theorem printsHalf_iff (n : Nat) : PrintsHalf n ↔ (after n).hflag = false := by
  simp only [PrintsHalf, suffix_eq, Clock.env, forall_const]
  cases (after n).hflag <;> decide

/-- Power-up is at noon. The clock reads 01:00:00 at night 3600 ticks later, and
at noon the letters are QM. -/
theorem day_not_followed : (∀ am, ¬ ReadsDay am 3600) ∧ ¬ PrintsHalf 0 := by
  refine ⟨fun am h => ?_, fun h => ?_⟩
  · exact absurd ((readsDay_iff am 3600).mp h) (by decide)
  · exact absurd ((printsHalf_iff 0).mp h) (by decide)

/-- **The day.** The time with the flag, either way round, is the second of the
day in the hour after noon and the hour after midnight; the letters are right
as well in the hour after midnight only. -/
theorem followsDay_iff (n : Nat) :
    (∀ am, ReadsDay am n ↔ n % 43200 < 3600) ∧
    (ReadsDay false n ∧ PrintsHalf n ↔ 43200 ≤ n % 86400 ∧ n % 86400 < 46800) := by
  refine ⟨fun am => readsDay_iff am n, ?_⟩
  rw [readsDay_iff, printsHalf_iff, ← Bool.not_eq_true, hflag_after]
  omega

end FpgaLabs.Lab7
