import FpgaLabs.Lab7.Refresh

/-! The clock and the display of lab 7 side by side. The display takes each
digit in its own writing state, and the clock may tick between two of them. -/

namespace FpgaLabs.Lab7
open Sync

/-- The registers of `lcdclk`: those of the clock `c1` and of the display. -/
structure Entity where
  c1 : Clock
  display : Display

inductive Event
  | tick (k : Keys)
  | step (sw0 : Bool)

def entityStep (s : Entity) : Event → Entity
  | .tick k => { s with c1 := tick s.c1 k }
  | .step sw0 => { s with display := caseNowState s.display (s.c1.env sw0) }

def Entity.PowerUp (s : Entity) : Prop :=
  s.c1 = Clock.powerUp ∧ s.display.nowState = .initialStart

def Event.isStep : Event → Bool
  | .tick _ => false
  | .step _ => true

/-- The display steps among the events. -/
def stepCount (es : List Event) : Nat := es.countP Event.isStep

/-- The characters hh:mm:ss. -/
def spell (digit : Digit → Nat) : List (Bool × Byte) :=
  [translate (digit .hrmsb), translate (digit .hrlsb), 0x3A, translate (digit .minmsb),
    translate (digit .minlsb), 0x3A, translate (digit .secmsb), translate (digit .seclsb)].map
    (true, ·)

/-- The bytes of STATE_17 to STATE_24 in a frame that starts in `s`. -/
def timeWords (s : Entity) (es : List Event) : List (Bool × Byte) :=
  ((strobes entityStep (·.display.lcdEn) (·.display.bus) s es).drop 18).take 8

/-- The step of a frame that executes the state of a digit. -/
def Digit.readStep : Digit → Nat
  | .hrmsb => 3 * 18
  | .hrlsb => 3 * 19
  | .minmsb => 3 * 21
  | .minlsb => 3 * 22
  | .secmsb => 3 * 24
  | .seclsb => 3 * 25

/-- The events `p` since the start of the frame include the state of `d`. -/
def Written (p : List Event) (d : Digit) : Prop := d.readStep < stepCount p

instance (p : List Event) (d : Digit) : Decidable (Written p d) :=
  inferInstanceAs (Decidable (_ < _))

/-- A tick with the buttons `k` changes the digit. -/
def Changes (c : Clock) (k : Keys) (d : Digit) : Prop := (tick c k).digit d ≠ c.digit d

instance (c : Clock) (k : Keys) (d : Digit) : Decidable (Changes c k d) :=
  inferInstanceAs (Decidable (_ ≠ _))

/-- The time shown by the frame is one that the clock held during it. -/
def TimeHeld (s : Entity) (es : List Event) : Prop :=
  ∃ p q, es = p ++ q ∧ timeWords s es = spell (run entityStep s p).c1.digit

@[simp] theorem stepCount_nil : stepCount [] = 0 := rfl

@[simp] theorem stepCount_append (p q : List Event) :
    stepCount (p ++ q) = stepCount p + stepCount q := List.countP_append

@[simp] theorem stepCount_step (sw0 : Bool) (q : List Event) :
    stepCount (.step sw0 :: q) = stepCount q + 1 := List.countP_cons_of_pos rfl

@[simp] theorem stepCount_tick (k : Keys) (q : List Event) :
    stepCount (.tick k :: q) = stepCount q := List.countP_cons_of_neg Bool.false_ne_true

@[simp] theorem stepCount_replicate (n : Nat) (sw0 : Bool) :
    stepCount (List.replicate n (.step sw0)) = n := by
  simp [stepCount, List.countP_replicate, Event.isStep]

/-! ## What the display reads -/

def view (s : Entity) : Event → Option Env
  | .tick _ => none
  | .step sw0 => some (s.c1.env sw0)

theorem entityStep_projects : Projects entityStep caseNowState Entity.display view := by
  rintro s (k | sw0) <;> rfl

theorem inputs_length (s : Entity) (es : List Event) :
    (inputs entityStep view s es).length = stepCount es := by
  induction es generalizing s with
  | nil => rfl
  | cons e es ih => cases e <;> simp [inputs, view, ih]

/-- What the `i`-th display step reads. -/
def readAt (s : Entity) (es : List Event) (i : Nat) : Env :=
  (inputs entityStep view s es).getD i (s.c1.env false)

theorem inputs_eq (s : Entity) (es : List Event) :
    inputs entityStep view s es = upTo (readAt s es) (stepCount es) := by
  apply List.ext_getElem
  · simp [inputs_length, upTo]
  · intro i h1 h2
    simp [upTo, readAt, List.getElem?_eq_getElem h1]

theorem run_display (s : Entity) (es : List Event) :
    (run entityStep s es).display = displayAt s.display (readAt s es) (stepCount es) := by
  rw [entityStep_projects.run_eq, inputs_eq, displayAt]

theorem readAt_split (s : Entity) (p : List Event) (sw0 : Bool) (q : List Event) :
    readAt s (p ++ .step sw0 :: q) (stepCount p) = (run entityStep s p).c1.env sw0 := by
  simp [readAt, inputs, view, ← inputs_length s p]

/-- Every display step splits the events. -/
theorem exists_split {es : List Event} {i : Nat} (h : i < stepCount es) :
    ∃ p sw0 q, es = p ++ .step sw0 :: q ∧ stepCount p = i := by
  induction es generalizing i with
  | nil => simp [stepCount] at h
  | cons e es ih =>
    cases e with
    | tick k =>
      obtain ⟨p, sw0, q, rfl, hp⟩ := ih (by simpa using h)
      exact ⟨.tick k :: p, sw0, q, rfl, by simpa using hp⟩
    | step sw1 =>
      cases i with
      | zero => exact ⟨[], sw1, es, rfl, rfl⟩
      | succ i =>
        obtain ⟨p, sw0, q, rfl, hp⟩ := ih (by simpa using h)
        exact ⟨.step sw1 :: p, sw0, q, rfl, by simpa using hp⟩

/-- The value of each digit when its state executes. -/
def readDigit (s : Entity) (es : List Event) (d : Digit) : Nat :=
  (readAt s es d.readStep).digit d

theorem timeWords_eq {s : Entity} (h : s.display.nowState = .home) {es : List Event}
    (hes : stepCount es = 3 * 34) : timeWords s es = spell (readDigit s es) := by
  have hp := entityStep_projects.strobes_eq Display.lcdEn Display.bus s es
  have hslot : s.display.nowState = slotState 8 := h
  rw [inputs_eq, hes, display_strobes hslot] at hp
  unfold timeWords
  rw [hp]
  exact congrArg (fun ws => (ws.drop 18).take 8) (slotWord_frame 0 fun r => readAt s es (3 * r))

theorem readDigit_split (s : Entity) {p : List Event} {d : Digit} (hp : stepCount p = d.readStep)
    (sw0 : Bool) (q : List Event) :
    readDigit s (p ++ .step sw0 :: q) d = (run entityStep s p).c1.digit d := by
  rw [readDigit, ← hp, readAt_split]
  rfl

theorem readStep_lt (d : Digit) : d.readStep < 3 * 34 := by cases d <;> decide

/-! ## One moment for all digits -/

/-- Events whose ticks leave the digit alone. -/
theorem digit_stays {s : Entity} {m : List Event} {d : Digit}
    (h : ∀ m₁ k m₂, m = m₁ ++ .tick k :: m₂ → ¬ Changes (run entityStep s m₁).c1 k d) :
    (run entityStep s m).c1.digit d = s.c1.digit d := by
  apply run_stays fun s : Entity => s.c1.digit d
  rw [eachStep_iff]
  intro m₁ e m₂ hm
  cases e with
  | tick k => exact not_not.mp (h m₁ k m₂ hm)
  | step sw0 => rfl

/-- A digit shows its value at the moment between `p` and `q` if the ticks of
`p` leave it alone once it is written, and those of `q` until it is. -/
theorem readDigit_eq {s : Entity} {p q : List Event} (hes : stepCount (p ++ q) = 3 * 34)
    {d : Digit}
    (hbefore : ∀ p₁ k p₂, p = p₁ ++ .tick k :: p₂ → Written p₁ d →
      ¬ Changes (run entityStep s p₁).c1 k d)
    (hafter : ∀ q₁ k q₂, q = q₁ ++ .tick k :: q₂ → ¬ Written (p ++ q₁) d →
      ¬ Changes (run entityStep s (p ++ q₁)).c1 k d) :
    readDigit s (p ++ q) d = (run entityStep s p).c1.digit d := by
  obtain ⟨r, sw0, t, hsplit, hr⟩ := exists_split (hes ▸ readStep_lt d)
  rw [hsplit, readDigit_split s hr]
  rcases List.append_eq_append_iff.mp hsplit with ⟨m, rfl, rfl⟩ | ⟨m, rfl, hm⟩
  · -- the digit is read after the moment
    rw [run_append]
    apply digit_stays
    intro m₁ k m₂ hm
    subst hm
    have hunread : ¬ Written (p ++ m₁) d := by
      simp only [Written, ← hr, stepCount_append, stepCount_tick]
      omega
    simpa using hafter m₁ k (m₂ ++ .step sw0 :: t) (by simp) hunread
  · -- the digit is read before the moment
    rw [run_append]
    symm
    apply digit_stays
    intro m₁ k m₂ hm'
    subst hm'
    have hread : Written (r ++ m₁) d := by
      cases m₁ with
      | nil => simp at hm
      | cons e m₁ =>
        have he : e = .step sw0 := by simpa using (List.cons.inj hm).1.symm
        simp only [Written, ← hr, he, stepCount_append, stepCount_step]
        omega
    simpa using hbefore (r ++ m₁) k m₂ (by simp) hread

/-! ## A frame with one tick -/

theorem steps_c1 {s : Entity} {p : List Event} (h : ∀ e ∈ p, e.isStep) :
    (run entityStep s p).c1 = s.c1 := by
  apply run_stays Entity.c1
  rw [eachStep_iff]
  intro p₁ e p₂ hp
  cases e with
  | tick k => simpa [Event.isStep] using h (.tick k) (by simp [hp])
  | step sw0 => rfl

theorem no_tick {q : List Event} (h : ∀ e ∈ q, e.isStep) {q₁ q₂ : List Event} {k : Keys} :
    q ≠ q₁ ++ .tick k :: q₂ := by
  intro hq
  simpa [Event.isStep] using h (.tick k) (by simp [hq])

/-- With one tick, the digits written before it are old and the others new. -/
theorem readDigit_one {s : Entity} {p q : List Event} {k : Keys} (hp : ∀ e ∈ p, e.isStep)
    (hq : ∀ e ∈ q, e.isStep) (hes : stepCount (p ++ .tick k :: q) = 3 * 34) (d : Digit) :
    (Written p d → readDigit s (p ++ .tick k :: q) d = s.c1.digit d) ∧
      (¬ Written p d → readDigit s (p ++ .tick k :: q) d = (tick s.c1 k).digit d) := by
  constructor
  · intro hd
    have hlater : ∀ q₁, Written (p ++ q₁) d := by
      intro q₁
      unfold Written at hd ⊢
      rw [stepCount_append]
      omega
    rw [readDigit_eq hes (fun p₁ k' p₂ h => absurd h (no_tick hp))
      (fun q₁ k' q₂ _ h => absurd (hlater q₁) h), steps_c1 hp]
  · intro hd
    have hsplit : p ++ .tick k :: q = (p ++ [.tick k]) ++ q := by simp
    rw [hsplit] at hes ⊢
    have hearlier : ∀ p₁ k' p₂, p ++ [.tick k] = p₁ ++ .tick k' :: p₂ → ¬ Written p₁ d := by
      intro p₁ k' p₂ h hw
      have hc := congrArg stepCount h
      simp only [stepCount_append, stepCount_tick, stepCount_nil] at hc
      unfold Written at hd hw
      omega
    rw [readDigit_eq hes (fun p₁ k' p₂ h hw => absurd hw (hearlier p₁ k' p₂ h))
      (fun q₁ k' q₂ h => absurd h (no_tick hq)), run_append, run_cons, run_nil]
    simp only [entityStep, steps_c1 hp]

/-- The moments of such a frame. -/
theorem c1_one {s : Entity} {p q r t : List Event} {k : Keys} (hp : ∀ e ∈ p, e.isStep)
    (hq : ∀ e ∈ q, e.isStep) (h : p ++ .tick k :: q = r ++ t) :
    (run entityStep s r).c1 = s.c1 ∨ (run entityStep s r).c1 = tick s.c1 k := by
  rcases List.append_eq_append_iff.mp h with ⟨m, rfl, hm⟩ | ⟨m, rfl, hm⟩
  · cases m with
    | nil =>
      left
      simpa using steps_c1 hp
    | cons e m =>
      right
      obtain ⟨rfl, rfl⟩ := List.cons.inj hm
      rw [run_append, run_cons, steps_c1 fun e he => hq e (by simp [he])]
      simp only [entityStep, steps_c1 hp]
  · left
    exact steps_c1 fun e he => hp e (by simp [he])

theorem translate_inj {a b : Nat} (ha : a ≤ 9) (hb : b ≤ 9) (h : translate a = translate b) :
    a = b := by
  rw [translate_eq_ascii ha, translate_eq_ascii hb] at h
  have hcode := congrArg BitVec.toNat h
  simp only [BitVec.toNat_ofNat] at hcode
  omega

theorem spell_inj {f g : Digit → Nat} (hf : ∀ d, f d ≤ 9) (hg : ∀ d, g d ≤ 9)
    (h : spell f = spell g) : f = g := by
  simp only [spell, List.map_cons, List.map_nil, List.cons.injEq, Prod.mk.injEq, true_and,
    and_true] at h
  obtain ⟨h1, h2, h3, h4, h5, h6⟩ := h
  funext d
  have inj := @translate_inj (f d) (g d) (hf d) (hg d)
  cases d
  · exact inj h6
  · exact inj h5
  · exact inj h4
  · exact inj h3
  · exact inj h2
  · exact inj h1

theorem entityStep_valid (s : Entity) (e : Event) (h : Valid s.c1) : Valid (entityStep s e).c1 := by
  cases e with
  | tick k => exact tick_valid _ k h
  | step sw0 => exact h

theorem readDigit_le_nine {s : Entity} (hv : Valid s.c1) {es : List Event}
    (hes : stepCount es = 3 * 34) (d : Digit) : readDigit s es d ≤ 9 := by
  obtain ⟨p, sw0, q, rfl, hp⟩ := exists_split (hes ▸ readStep_lt d)
  rw [readDigit_split s hp]
  exact digit_le_nine (run_preserves (fun s : Entity => Valid s.c1) entityStep_valid hv) d

/-- A frame shows a time held during it exactly if at some moment every digit
has the value that its own state reads. -/
theorem timeHeld_iff {s : Entity} (hv : Valid s.c1) (hhome : s.display.nowState = .home)
    {es : List Event} (hes : stepCount es = 3 * 34) :
    TimeHeld s es ↔ ∃ p q, es = p ++ q ∧ ∀ d, readDigit s es d = (run entityStep s p).c1.digit d := by
  unfold TimeHeld
  rw [timeWords_eq hhome hes]
  constructor
  · rintro ⟨p, q, hpq, hspell⟩
    have hp : Valid (run entityStep s p).c1 :=
      run_preserves (fun s : Entity => Valid s.c1) entityStep_valid hv
    exact ⟨p, q, hpq, congrFun (spell_inj (readDigit_le_nine hv hes) (digit_le_nine hp) hspell)⟩
  · rintro ⟨p, q, hpq, hdigits⟩
    exact ⟨p, q, hpq, congrArg spell (funext hdigits)⟩

/-- The tick changes a digit already written and one still to be written. -/
def Torn (c : Clock) (p : List Event) (k : Keys) : Prop :=
  (∃ d, Written p d ∧ Changes c k d) ∧ ∃ d, ¬ Written p d ∧ Changes c k d

theorem timeHeld_one {s : Entity} (hv : Valid s.c1) (hhome : s.display.nowState = .home)
    {p q : List Event} {k : Keys} (hp : ∀ e ∈ p, e.isStep) (hq : ∀ e ∈ q, e.isStep)
    (hes : stepCount (p ++ .tick k :: q) = 3 * 34) :
    TimeHeld s (p ++ .tick k :: q) ↔ ¬ Torn s.c1 p k := by
  have hread := readDigit_one (s := s) hp hq hes
  rw [timeHeld_iff hv hhome hes]
  constructor
  · rintro ⟨r, t, hrt, hr⟩ ⟨⟨d, hd, hcd⟩, d', hd', hcd'⟩
    rcases c1_one (s := s) hp hq hrt with hc | hc
    · rw [hc] at hr
      exact hcd' (((hread d').2 hd').symm.trans (hr d'))
    · rw [hc] at hr
      exact hcd ((hr d).symm.trans ((hread d).1 hd))
  · intro hn
    by_cases hw : ∃ d, Written p d ∧ Changes s.c1 k d
    · -- every digit still to be written keeps its value: the old time is shown
      have hkeep : ∀ d, ¬ Written p d → ¬ Changes s.c1 k d :=
        fun d hd hc => hn ⟨hw, d, hd, hc⟩
      refine ⟨[], _, rfl, fun d => ?_⟩
      by_cases hd : Written p d
      · exact (hread d).1 hd
      · exact ((hread d).2 hd).trans (not_not.mp (hkeep d hd))
    · -- every digit written keeps its value: the new time is shown
      refine ⟨p ++ [.tick k], q, by simp, fun d => ?_⟩
      rw [run_append, run_cons, run_nil]
      simp only [entityStep, steps_c1 hp]
      by_cases hd : Written p d
      · have hkeep : ¬ Changes s.c1 k d := fun hc => hw ⟨d, hd, hc⟩
        exact ((hread d).1 hd).trans (not_not.mp hkeep).symm
      · exact (hread d).2 hd

/-! ## The frame -/

/-- Ticks of `p` change only digits still to be written, ticks of `q` only
digits already written. -/
def CleanSplit (s : Entity) (p q : List Event) : Prop :=
  (∀ p₁ k p₂, p = p₁ ++ .tick k :: p₂ → ∀ d, Written p₁ d →
    ¬ Changes (run entityStep s p₁).c1 k d) ∧
  ∀ q₁ k q₂, q = q₁ ++ .tick k :: q₂ → ∀ d, ¬ Written (p ++ q₁) d →
    ¬ Changes (run entityStep s (p ++ q₁)).c1 k d

theorem reachable_valid {s : Entity} (h : Reachable entityStep Entity.PowerUp s) : Valid s.c1 := by
  apply h.invariant fun s : Entity => Valid s.c1
  · intro s hs
    rw [hs.1]
    exact powerUp_valid
  · exact entityStep_valid

/-- Power-up and the initialisation. -/
def frameStart : Entity :=
  run entityStep ⟨.powerUp, ⟨.initialStart, .initialStart, false, false, false, 0⟩⟩
    (List.replicate 9 (.tick released) ++ List.replicate 24 (.step false))

theorem frameStart_reachable : Reachable entityStep Entity.PowerUp frameStart :=
  ⟨_, _, ⟨rfl, rfl⟩, rfl⟩

theorem frameStart_home : frameStart.display.nowState = .home := by
  rw [frameStart, run_display]
  exact displayAt_now (k := 0) rfl _ 8

theorem replicate_step (n : Nat) : ∀ e ∈ List.replicate n (Event.step false), e.isStep := by
  intro e he
  rw [(List.mem_replicate.mp he).2]
  rfl

def tornFrame : List Event :=
  List.replicate 73 (.step false) ++ .tick released :: List.replicate 29 (.step false)

/-- A frame that shows 12:00:00 while the clock goes from 12:00:09 to 12:00:10. -/
theorem frame_torn :
    Reachable entityStep Entity.PowerUp frameStart ∧ frameStart.display.nowState = .home ∧
      stepCount tornFrame = 3 * 34 ∧ ¬ TimeHeld frameStart tornFrame := by
  have hcount : stepCount tornFrame = 3 * 34 := by simp [tornFrame]
  refine ⟨frameStart_reachable, frameStart_home, hcount, fun hheld => ?_⟩
  have hv := reachable_valid frameStart_reachable
  apply (timeHeld_one hv frameStart_home (replicate_step 73) (replicate_step 29) hcount).mp hheld
  exact ⟨⟨.secmsb, by decide, by decide⟩, .seclsb, by decide, by decide⟩

/-- **What a frame shows.** Each time character is the digit its register held
when its own state executed, so the characters spell a time held during the
frame exactly if all those digits were held at one moment. They spell the time
of a moment before which ticks changed only digits still to be written, and
after which only digits already written; with one tick in the frame, they spell
a time held during it exactly when that tick is not torn. -/
theorem frame_shows {s : Entity} (hs : Reachable entityStep Entity.PowerUp s)
    (hhome : s.display.nowState = .home) {es : List Event} (hes : stepCount es = 3 * 34) :
    (∃ r, timeWords s es = spell r ∧
      (∀ d p sw0 q, es = p ++ .step sw0 :: q → stepCount p = d.readStep →
        r d = (run entityStep s p).c1.digit d) ∧
      (TimeHeld s es ↔ ∃ p q, es = p ++ q ∧ ∀ d, r d = (run entityStep s p).c1.digit d)) ∧
    (∀ p q, es = p ++ q → CleanSplit s p q →
      timeWords s es = spell (run entityStep s p).c1.digit) ∧
    ∀ p k q, es = p ++ .tick k :: q → (∀ e ∈ p, e.isStep) → (∀ e ∈ q, e.isStep) →
      (TimeHeld s es ↔ ¬ Torn s.c1 p k) := by
  have hheld := timeHeld_iff (reachable_valid hs) hhome hes
  refine ⟨⟨readDigit s es, timeWords_eq hhome hes, ?_, hheld⟩, ?_, ?_⟩
  · rintro d p sw0 q rfl hp
    exact readDigit_split s hp sw0 q
  · rintro p q rfl ⟨hbefore, hafter⟩
    rw [timeWords_eq hhome hes]
    refine congrArg spell (funext fun d => readDigit_eq hes ?_ ?_)
    · exact fun p₁ k p₂ h => hbefore p₁ k p₂ h d
    · exact fun q₁ k q₂ h => hafter q₁ k q₂ h d
  · rintro p k q rfl hp hq
    exact timeHeld_one (reachable_valid hs) hhome hp hq hes

/-- The same tick before the state of the tens of seconds is not torn. -/
theorem frame_shows_ten :
    let p := List.replicate 72 (Event.step false)
    let q := List.replicate 30 (Event.step false)
    stepCount (p ++ .tick released :: q) = 3 * 34 ∧
      TimeHeld frameStart (p ++ .tick released :: q) := by
  intro p q
  have hcount : stepCount (p ++ .tick released :: q) = 3 * 34 := by simp [p, q]
  have hone := (frame_shows frameStart_reachable frameStart_home hcount).2.2 p released q rfl
    (replicate_step 72) (replicate_step 30)
  refine ⟨hcount, hone.mpr ?_⟩
  rintro ⟨⟨d, hd, hc⟩, -⟩
  revert hd hc
  cases d <;> decide

end FpgaLabs.Lab7
