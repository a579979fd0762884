import FpgaLabs.Sync.Llist
import FpgaLabs.Sync.Run
import Mathlib.Algebra.Ring.Nat
import Mathlib.Data.Fintype.Card

/-! The system clock of the HAL: `alt_tick.c` and `alt_alarm_start.c`, with the
alarms on an `alt_llist`. The tick counter has 32 bits and wraps; a schedule
with unbounded time says what the alarms are for. -/

namespace FpgaLabs.Hal
open Sync

/-- An `alt_alarm`, less its links and its callback. -/
structure Alarm where
  time : BitVec 32
  rollover : Bool

/-- `_alt_nticks`, the alarms of the program, and whatever the callbacks work on.
A node of the list is an alarm, or `none` for `&alt_alarm_list`. -/
structure Clock (A U : Type) where
  nticks : BitVec 32
  llist : Links (Option A)
  alarm : A → Alarm
  user : U

inductive Errno
  | EINVAL
  | ENOTSUP

section
variable {A U : Type} [DecidableEq A]

def altAlarmStop (s : Clock A U) (alarm : A) : Clock A U :=
  { s with llist := s.llist.remove (some alarm) }

/-- `alt_alarm_start`; `tickRate` is `alt_ticks_per_second ()`. -/
def altAlarmStart (tickRate : BitVec 32) (s : Clock A U) (alarm : Option A) (nticks : BitVec 32) :
    Except Errno (Clock A U) :=
  match decide (tickRate ≠ 0), alarm with
  | true, some a =>
    let time := nticks + s.nticks + 1
    .ok { s with
      alarm := Function.update s.alarm a ⟨time, time < s.nticks⟩
      llist := s.llist.insert none (some a) }
  | true, none => .error .EINVAL
  | false, _ => .error .ENOTSUP

variable (callback : A → U → BitVec 32 × U)

/-- `alarm->rollover` after the first `if` of the loop: cleared as the counter wraps. -/
def rolloverFlag (s : Clock A U) (alarm : A) : Bool :=
  if (s.alarm alarm).rollover && s.nticks == 0 then false else (s.alarm alarm).rollover

def clearRollover (s : Clock A U) (alarm : A) : Clock A U :=
  { s with alarm := Function.update s.alarm alarm ⟨(s.alarm alarm).time, rolloverFlag s alarm⟩ }

/-- The callback of an alarm that has expired, and what its result does. -/
def makeCallback (s : Clock A U) (alarm : A) : Clock A U :=
  let result := callback alarm s.user
  let s := { s with user := result.2 }
  if result.1 = 0 then altAlarmStop s alarm
  else
    let time := (s.alarm alarm).time + result.1
    let rollover := if time < s.nticks then true else (s.alarm alarm).rollover
    { s with alarm := Function.update s.alarm alarm ⟨time, rollover⟩ }

/-- The body of the loop of `alt_tick`; a node is cast to an alarm. -/
def visit (node : Option A) (s : Clock A U) : Clock A U :=
  match node with
  | none => s
  | some alarm =>
    let s := clearRollover s alarm
    if (s.alarm alarm).time ≤ s.nticks ∧ (s.alarm alarm).rollover = false then
      makeCallback callback s alarm
    else s

/-- `alt_tick`; `none` if the loop runs out of `fuel`. -/
def altTick (fuel : Nat) (s : Clock A U) : Option (Clock A U) :=
  let s := { s with nticks := s.nticks + 1 }
  walk Clock.llist none (visit callback) fuel (s.llist.next none) s

inductive AlarmEvent (A : Type)
  | tick
  | start (alarm : Option A) (nticks : BitVec 32)
  | stop (alarm : A)

/-- Interrupts are off in each of the three, so they do not interleave. -/
def alarmStep (tickRate : BitVec 32) (fuel : Nat) (s : Option (Clock A U)) (e : AlarmEvent A) :
    Option (Clock A U) :=
  s.bind fun s =>
    match e with
    | .tick => altTick callback fuel s
    | .start alarm nticks =>
      match altAlarmStart tickRate s alarm nticks with
      | .ok s' => some s'
      | .error _ => some s
    | .stop alarm => some (altAlarmStop s alarm)

/-! ## The schedule -/

/-- Ticks since reset, without a bound, and the armed alarms with the tick each
is due at. -/
structure Schedule (A U : Type) where
  now : Nat
  armed : List A
  due : A → Nat
  started : A → Bool
  user : U

/-- Call the alarm if it is due; zero disarms it, any other result is a delay. -/
def Schedule.call (s : Schedule A U) (a : A) : Schedule A U :=
  if s.due a ≤ s.now then
    let result := callback a s.user
    if result.1 = 0 then { s with armed := s.armed.erase a, user := result.2 }
    else { s with due := Function.update s.due a (s.due a + result.1.toNat), user := result.2 }
  else s

def Schedule.tick (s : Schedule A U) : Schedule A U :=
  s.armed.foldl (Schedule.call callback) { s with now := s.now + 1 }

def Schedule.start (s : Schedule A U) (a : A) (nticks : BitVec 32) : Schedule A U :=
  { s with
    armed := a :: s.armed
    due := Function.update s.due a (s.now + nticks.toNat + 1)
    started := Function.update s.started a true }

def Schedule.step (tickRate : BitVec 32) (s : Schedule A U) (e : AlarmEvent A) : Schedule A U :=
  match e with
  | .tick => s.tick callback
  | .start alarm nticks =>
    if tickRate = 0 then s else alarm.elim s fun a => s.start a nticks
  | .stop alarm => { s with armed := s.armed.erase alarm }

/-- What the program must not do: start an alarm that is on the list or ask for
`2^32` ticks, stop an alarm that was never started. -/
def Schedule.Allows (s : Schedule A U) : AlarmEvent A → Prop
  | .tick => True
  | .start none _ => True
  | .start (some a) nticks => a ∉ s.armed ∧ nticks.toNat + 1 < 2 ^ 32
  | .stop a => s.started a = true

end

/-! ## The wrapped time -/

/-- The fields of an alarm due at `d`, at tick `now`: the flag says that the
counter wraps before `d`. -/
structure Shows (al : Alarm) (now d : Nat) : Prop where
  time : al.time.toNat = d % 4294967296
  future : now < d
  near : d < now + 4294967296
  rollover : al.rollover = true ↔ d / 4294967296 ≠ now / 4294967296

/-- What the loop makes of the alarm, once the counter has become `now + 1`. -/
theorem Shows.advance {A U : Type} {s : Clock A U} {alarm : A} {now d : Nat}
    (h : Shows (s.alarm alarm) now d) (hn : s.nticks.toNat = (now + 1) % 4294967296) :
    (rolloverFlag s alarm = true ↔ d / 4294967296 ≠ (now + 1) / 4294967296) ∧
      ((s.alarm alarm).time ≤ s.nticks ∧ rolloverFlag s alarm = false ↔ d ≤ now + 1) := by
  obtain ⟨ht, hf, hnear, hr⟩ := h
  have hzero : (s.nticks == 0) = true ↔ (now + 1) % 4294967296 = 0 := by
    rw [beq_iff_eq, ← hn]
    bv_omega
  have hflag : rolloverFlag s alarm = true ↔ d / 4294967296 ≠ (now + 1) / 4294967296 := by
    rw [rolloverFlag]
    cases hz : s.nticks == 0 with
    | true =>
      have hz' := hzero.mp hz
      cases (s.alarm alarm).rollover <;> simp <;> omega
    | false =>
      have hz' : ¬ (now + 1) % 4294967296 = 0 := by
        rw [← hzero, hz]
        exact Bool.false_ne_true
      rw [Bool.and_false, if_neg (by simp), hr]
      omega
  refine ⟨hflag, ?_⟩
  rw [← Bool.not_eq_true, hflag, BitVec.le_def, ht, hn]
  omega

theorem Shows.renew {now r : Nat} {time nticks : BitVec 32} {result : BitVec 32}
    (ht : time.toNat = now % 4294967296) (hn : nticks.toNat = now % 4294967296)
    (hr : result ≠ 0) (hres : result.toNat = r) :
    Shows ⟨time + result, if time + result < nticks then true else false⟩ now (now + r) := by
  have hpos : 0 < r := by
    rw [← hres]
    bv_omega
  have hlt : r < 4294967296 := by
    rw [← hres]
    exact result.isLt
  have hsum : (time + result).toNat = (now + r) % 4294967296 := by
    rw [BitVec.toNat_add, ht, hres]
    omega
  refine ⟨hsum, by omega, by omega, ?_⟩
  have hwrap : time + result < nticks ↔ (now + r) % 4294967296 < now % 4294967296 := by
    rw [BitVec.lt_def, hsum, hn]
  by_cases h : time + result < nticks
  · have := hwrap.mp h
    simp only [h, ↓reduceIte, true_iff]
    omega
  · have hge : ¬ (now + r) % 4294967296 < now % 4294967296 := fun hlt' => h (hwrap.mpr hlt')
    simp only [h, ↓reduceIte, Bool.false_eq_true, false_iff, not_not]
    omega

/-! ## Refinement -/

section
variable {A U : Type} [DecidableEq A] (callback : A → U → BitVec 32 × U)

/-- The clock keeps the schedule, apart from the times of the alarms. -/
structure Keeps (s : Clock A U) (t : Schedule A U) : Prop where
  nticks : s.nticks.toNat = t.now % 4294967296
  user : s.user = t.user
  linked : Linked s.llist none (t.armed.map some)
  idle : ∀ a, t.started a = true → a ∉ t.armed → SelfLinked s.llist (some a)
  started : ∀ a ∈ t.armed, t.started a = true

structure Agrees (s : Clock A U) (t : Schedule A U) : Prop extends Keeps s t where
  shows_ : ∀ a ∈ t.armed, Shows (s.alarm a) t.now (t.due a)

omit [DecidableEq A] in
theorem Keeps.nodup {s : Clock A U} {t : Schedule A U} (h : Keeps s t) : t.armed.Nodup :=
  List.Nodup.of_map some (List.nodup_cons.mp h.linked.2).2

theorem linked_erase {m : Links (Option A)} {xs : List A} {a : A}
    (h : Linked m none (xs.map some)) (hd : xs.Nodup) (ha : a ∈ xs) :
    Linked (m.remove (some a)) none ((xs.erase a).map some) ∧
      SelfLinked (m.remove (some a)) (some a) := by
  obtain ⟨ys, zs, rfl⟩ := List.append_of_mem ha
  have hnot : a ∉ ys := fun hm => (List.disjoint_of_nodup_append hd) hm (by simp)
  rw [List.erase_append_right _ hnot, List.erase_cons_head, List.map_append]
  rw [List.map_append, List.map_cons] at h
  exact h.remove

theorem selfLinked_erase {m : Links (Option A)} {xs : List A} {a b : A}
    (h : Linked m none (xs.map some)) (ha : a ∈ xs) (hb : b ∉ xs)
    (hself : SelfLinked m (some b)) : SelfLinked (m.remove (some a)) (some b) := by
  obtain ⟨ys, zs, rfl⟩ := List.append_of_mem ha
  rw [List.map_append, List.map_cons] at h
  obtain ⟨hn, hp⟩ := h.remove_other (y := some b) (by simpa using hb)
  exact ⟨hn.trans hself.1, hp.trans hself.2⟩

/-- `alt_alarm_stop` takes an armed alarm off the list, and does nothing to another. -/
theorem Keeps.stop {s : Clock A U} {t : Schedule A U} (h : Keeps s t) {a : A}
    (ha : t.started a = true) :
    Keeps (altAlarmStop s a) { t with armed := t.armed.erase a } := by
  have hdup := h.nodup
  by_cases hmem : a ∈ t.armed
  · obtain ⟨hlink, hself⟩ := linked_erase h.linked hdup hmem
    refine ⟨h.nticks, h.user, hlink, ?_, fun b hb => h.started b (List.mem_of_mem_erase hb)⟩
    intro b hb hnot
    by_cases hba : b = a
    · subst hba
      exact hself
    · have hnot' : b ∉ t.armed := fun hm => hnot ((List.mem_erase_of_ne hba).mpr hm)
      exact selfLinked_erase h.linked hmem hnot' (h.idle b hb hnot')
  · have hsame : altAlarmStop s a = s := by
      rw [altAlarmStop, (h.idle a ha hmem).remove]
    rw [hsame, List.erase_of_not_mem hmem]
    exact h

theorem makeCallback_stop {s : Clock A U} {a : A} (h : (callback a s.user).1 = 0) :
    makeCallback callback s a = altAlarmStop { s with user := (callback a s.user).2 } a := if_pos h

theorem makeCallback_renew {s : Clock A U} {a : A} (h : (callback a s.user).1 ≠ 0) :
    makeCallback callback s a =
      { s with
        alarm := Function.update s.alarm a ⟨(s.alarm a).time + (callback a s.user).1,
          if (s.alarm a).time + (callback a s.user).1 < s.nticks then true
          else (s.alarm a).rollover⟩
        user := (callback a s.user).2 } := if_neg h

@[simp] theorem clearRollover_self (s : Clock A U) (a : A) :
    (clearRollover s a).alarm a = ⟨(s.alarm a).time, rolloverFlag s a⟩ := by simp [clearRollover]

@[simp] theorem clearRollover_nticks (s : Clock A U) (a : A) :
    (clearRollover s a).nticks = s.nticks := rfl

theorem visit_due {s : Clock A U} {a : A}
    (h : (s.alarm a).time ≤ s.nticks ∧ rolloverFlag s a = false) :
    visit callback (some a) s = makeCallback callback (clearRollover s a) a := by
  have hcond : ((clearRollover s a).alarm a).time ≤ (clearRollover s a).nticks ∧
      ((clearRollover s a).alarm a).rollover = false := by simpa using h
  exact if_pos hcond

theorem visit_early {s : Clock A U} {a : A}
    (h : ¬ ((s.alarm a).time ≤ s.nticks ∧ rolloverFlag s a = false)) :
    visit callback (some a) s = clearRollover s a := by
  have hcond : ¬ (((clearRollover s a).alarm a).time ≤ (clearRollover s a).nticks ∧
      ((clearRollover s a).alarm a).rollover = false) := by simpa using h
  exact if_neg hcond

/-- All that one turn of the loop can do. -/
theorem visit_cases (s : Clock A U) (a : A) :
    (¬ ((s.alarm a).time ≤ s.nticks ∧ rolloverFlag s a = false) ∧
      visit callback (some a) s = clearRollover s a) ∨
    ((s.alarm a).time ≤ s.nticks ∧ rolloverFlag s a = false ∧ (callback a s.user).1 = 0 ∧
      visit callback (some a) s =
        altAlarmStop { clearRollover s a with user := (callback a s.user).2 } a) ∨
    ((s.alarm a).time ≤ s.nticks ∧ rolloverFlag s a = false ∧ (callback a s.user).1 ≠ 0 ∧
      visit callback (some a) s =
        { s with
          alarm := Function.update s.alarm a ⟨(s.alarm a).time + (callback a s.user).1,
            if (s.alarm a).time + (callback a s.user).1 < s.nticks then true else false⟩
          user := (callback a s.user).2 }) := by
  by_cases h : (s.alarm a).time ≤ s.nticks ∧ rolloverFlag s a = false
  · right
    by_cases hr : (callback a s.user).1 = 0
    · exact .inl ⟨h.1, h.2, hr, (visit_due callback h).trans (makeCallback_stop callback hr)⟩
    · refine .inr ⟨h.1, h.2, hr, (visit_due callback h).trans ?_⟩
      rw [makeCallback_renew callback (s := clearRollover s a) hr]
      simp [clearRollover, h.2]
  · exact .inl ⟨h, visit_early callback h⟩

theorem visit_links (s : Clock A U) (x : Option A) :
    (visit callback x s).llist = s.llist ∨ (visit callback x s).llist = s.llist.remove x := by
  cases x with
  | none => exact .inl rfl
  | some a =>
    obtain ⟨_, he⟩ | ⟨_, _, _, he⟩ | ⟨_, _, _, he⟩ := visit_cases callback s a
    · exact .inl (by rw [he]; rfl)
    · exact .inr (by rw [he]; rfl)
    · exact .inl (by rw [he])

/-- One turn concerns its own alarm only. -/
theorem visit_other (s : Clock A U) {a b : A} (hb : b ≠ a) :
    (visit callback (some a) s).alarm b = s.alarm b := by
  obtain ⟨_, he⟩ | ⟨_, _, _, he⟩ | ⟨_, _, _, he⟩ := visit_cases callback s a <;>
    simp [he, altAlarmStop, clearRollover, hb]

/-- One turn of the loop, at an alarm that still shows the tick before. -/
theorem Keeps.visit {s : Clock A U} {t : Schedule A U} (h : Keeps s t) {a : A} {now : Nat}
    (ha : a ∈ t.armed) (hnow : t.now = now + 1) (hshow : Shows (s.alarm a) now (t.due a)) :
    Keeps (visit callback (some a) s) (t.call callback a) ∧
      (a ∈ (t.call callback a).armed →
        Shows ((Hal.visit callback (some a) s).alarm a) t.now ((t.call callback a).due a)) := by
  have hn : s.nticks.toNat = (now + 1) % 4294967296 := by rw [h.nticks, hnow]
  obtain ⟨hflag, hfire⟩ := hshow.advance hn
  obtain ⟨ht, hf, hnear, _⟩ := hshow
  obtain ⟨hearly, he⟩ | ⟨htime, hroll, hr, he⟩ | ⟨htime, hroll, hr, he⟩ :=
    visit_cases callback s a
  · have hcall : ¬ t.due a ≤ t.now := by
      rw [hnow, ← hfire]
      exact hearly
    have hsame : t.call callback a = t := if_neg hcall
    rw [he, hsame]
    refine ⟨⟨h.nticks, h.user, h.linked, h.idle, h.started⟩, fun _ => ?_⟩
    rw [clearRollover_self]
    exact ⟨ht, by omega, by omega, by rw [hnow]; exact hflag⟩
  · have hcall : t.due a ≤ t.now := by
      rw [hnow, ← hfire]
      exact ⟨htime, hroll⟩
    have hr' : (callback a t.user).1 = 0 := by rw [← h.user, hr]
    have hgone : t.call callback a =
        { t with armed := t.armed.erase a, user := (callback a t.user).2 } := by
      rw [Schedule.call, if_pos hcall]
      exact if_pos hr'
    have hkeep : Keeps { clearRollover s a with user := (callback a s.user).2 }
        { t with user := (callback a t.user).2 } :=
      ⟨h.nticks, by rw [h.user], h.linked, h.idle, h.started⟩
    rw [he, hgone]
    refine ⟨hkeep.stop (h.started a ha), fun hm => ?_⟩
    exact absurd hm h.nodup.not_mem_erase
  · have hcall : t.due a ≤ t.now := by
      rw [hnow, ← hfire]
      exact ⟨htime, hroll⟩
    have hr' : (callback a t.user).1 ≠ 0 := by rwa [← h.user]
    have hnext : t.call callback a =
        { t with
          due := Function.update t.due a (t.due a + (callback a t.user).1.toNat)
          user := (callback a t.user).2 } := by
      rw [Schedule.call, if_pos hcall]
      exact if_neg hr'
    have hdue : t.due a = t.now := by omega
    rw [he, hnext]
    refine ⟨⟨h.nticks, by rw [h.user], h.linked, h.idle, h.started⟩, fun _ => ?_⟩
    simp only [Function.update_self, hdue]
    rw [hdue] at ht
    exact Shows.renew ht h.nticks hr (by rw [h.user])

theorem call_other (t : Schedule A U) (a : A) :
    (t.call callback a).now = t.now ∧ ∀ b, b ≠ a →
      (t.call callback a).due b = t.due b ∧ (b ∈ (t.call callback a).armed ↔ b ∈ t.armed) := by
  unfold Schedule.call
  by_cases hd : t.due a ≤ t.now
  · by_cases hr : (callback a t.user).1 = 0
    · simp only [hd, hr, ↓reduceIte, true_and]
      exact fun b hb => List.mem_erase_of_ne hb
    · simp only [hd, hr, ↓reduceIte, true_and]
      exact fun b hb => ⟨by simp [hb], trivial⟩
  · simp [hd]

/-- The rest of the loop: alarms still to be visited show the tick before. -/
theorem Keeps.visitAll {s : Clock A U} {t : Schedule A U} {now : Nat} {rest : List A}
    (h : Keeps s t) (hnow : t.now = now + 1) (hdup : rest.Nodup) (hrest : ∀ a ∈ rest, a ∈ t.armed)
    (hold : ∀ a ∈ rest, Shows (s.alarm a) now (t.due a))
    (hnew : ∀ a ∈ t.armed, a ∉ rest → Shows (s.alarm a) t.now (t.due a)) :
    Agrees ((rest.map some).foldl (fun s x => Hal.visit callback x s) s)
      (rest.foldl (Schedule.call callback) t) := by
  induction rest generalizing s t with
  | nil => exact ⟨h, fun a ha => hnew a ha (by simp)⟩
  | cons a rest ih =>
    obtain ⟨hnot, hdup'⟩ := List.nodup_cons.mp hdup
    obtain ⟨hkeep, hself⟩ := h.visit callback (hrest a (by simp)) hnow (hold a (by simp))
    obtain ⟨hnow', hother⟩ := call_other callback t a
    have hne : ∀ b ∈ rest, b ≠ a := fun b hb he => hnot (he ▸ hb)
    refine ih hkeep (hnow'.trans hnow) hdup' ?_ ?_ ?_
    · exact fun b hb => (hother b (hne b hb)).2.mpr (hrest b (by simp [hb]))
    · intro b hb
      rw [visit_other callback s (hne b hb), (hother b (hne b hb)).1]
      exact hold b (by simp [hb])
    · intro b hb hbr
      rw [hnow']
      by_cases hba : b = a
      · subst hba
        exact hself hb
      · rw [visit_other callback s hba, (hother b hba).1]
        exact hnew b ((hother b hba).2.mp hb) (by simp [hba, hbr])

/-- `alt_tick` ends, and does one tick of the schedule. -/
theorem Agrees.tick {s : Clock A U} {t : Schedule A U} (h : Agrees s t) {fuel : Nat}
    (hf : t.armed.length < fuel) :
    ∃ s', altTick callback fuel s = some s' ∧ Agrees s' (t.tick callback) := by
  have hn : (s.nticks + 1).toNat = (t.now + 1) % 4294967296 := by
    have := h.nticks
    rw [BitVec.toNat_add, this]
    show (_ + 1) % 4294967296 = _
    omega
  have hkeep : Keeps { s with nticks := s.nticks + 1 } { t with now := t.now + 1 } :=
    ⟨hn, h.user, h.linked, h.idle, h.started⟩
  have hall := hkeep.visitAll callback rfl h.nodup (fun a ha => ha) h.shows_
    (fun a ha hnot => absurd ha hnot)
  refine ⟨_, ?_, hall⟩
  have hfuel : (t.armed.map some).length < fuel := by simpa using hf
  have hloop := @walk_eq (Option A) _ (Clock A U) Clock.llist none (Hal.visit callback)
    (t.armed.map some) (visit_links callback) _ [] hkeep.linked fuel hfuel
  rw [← h.linked.1.first_eq] at hloop
  exact hloop

/-- `alt_alarm_start` of an alarm that is not on the list. -/
theorem Agrees.start {s : Clock A U} {t : Schedule A U} (h : Agrees s t) {a : A}
    {nticks : BitVec 32} (ha : a ∉ t.armed) (hk : nticks.toNat + 1 < 4294967296) :
    Agrees { s with
      alarm := Function.update s.alarm a
        ⟨nticks + s.nticks + 1, nticks + s.nticks + 1 < s.nticks⟩
      llist := s.llist.insert none (some a) } (t.start a nticks) := by
  have hout : some a ∉ none :: t.armed.map some := by simpa using ha
  have htime : (nticks + s.nticks + 1).toNat = (t.now + nticks.toNat + 1) % 4294967296 := by
    have := h.nticks
    rw [BitVec.toNat_add, BitVec.toNat_add, this]
    show ((_ + _) % 4294967296 + 1) % 4294967296 = _
    omega
  refine ⟨⟨h.nticks, h.user, h.linked.insert hout, ?_, ?_⟩, ?_⟩
  · intro b hb hnot
    simp only [Schedule.start, List.mem_cons, not_or] at hb hnot
    rw [Function.update_of_ne hnot.1] at hb
    obtain ⟨h1, h2⟩ := h.linked.insert_other (y := some b) hout (by simpa using hnot.2)
      (by simpa using hnot.1)
    have hself := h.idle b hb hnot.2
    exact ⟨h1.trans hself.1, h2.trans hself.2⟩
  · intro b hb
    show Function.update t.started a true b = true
    by_cases hba : b = a
    · simp [hba]
    · rw [Function.update_of_ne hba]
      exact h.started b ((List.mem_cons.mp hb).resolve_left hba)
  · intro b hb
    show Shows (Function.update s.alarm a _ b) t.now (Function.update t.due a _ b)
    by_cases hba : b = a
    · subst hba
      rw [Function.update_self, Function.update_self]
      refine ⟨htime, by omega, by omega, ?_⟩
      rw [decide_eq_true_iff, BitVec.lt_def, htime, h.nticks]
      omega
    · rw [Function.update_of_ne hba, Function.update_of_ne hba]
      exact h.shows_ b ((List.mem_cons.mp hb).resolve_left hba)

theorem Agrees.step [Fintype A] (tickRate : BitVec 32) {s : Clock A U} {t : Schedule A U}
    (h : Agrees s t) {e : AlarmEvent A} (he : t.Allows e) :
    ∃ s', alarmStep callback tickRate (Fintype.card A + 1) (some s) e = some s' ∧
      Agrees s' (t.step callback tickRate e) := by
  cases e with
  | tick =>
    have hlen : t.armed.length ≤ Fintype.card A := h.nodup.length_le_card
    exact h.tick callback (by omega)
  | start alarm nticks =>
    rw [alarmStep, Option.bind_some, Schedule.step]
    by_cases hrate : tickRate = 0
    · rw [if_pos hrate]
      exact ⟨s, by simp [altAlarmStart, hrate], h⟩
    · have hon : decide (tickRate ≠ 0) = true := by simpa using hrate
      rw [if_neg hrate]
      cases alarm with
      | none => exact ⟨s, by simp only [altAlarmStart, hon], h⟩
      | some a => exact ⟨_, by simp only [altAlarmStart, hon], h.start he.1 he.2⟩
  | stop a =>
    refine ⟨_, rfl, h.toKeeps.stop he, ?_⟩
    intro b hb
    exact h.shows_ b (List.mem_of_mem_erase hb)

/-- Nothing armed, nothing started. -/
def Schedule.init (now : Nat) (u : U) : Schedule A U := ⟨now, [], fun _ => 0, fun _ => false, u⟩

end

theorem visit_nticks {A U : Type} [DecidableEq A] (callback : A → U → BitVec 32 × U)
    (s : Clock A U) (x : Option A) : (visit callback x s).nticks = s.nticks := by
  cases x with
  | none => rfl
  | some a =>
    obtain ⟨_, he⟩ | ⟨_, _, _, he⟩ | ⟨_, _, _, he⟩ := visit_cases callback s a <;> rw [he]
    · rfl
    · rfl

/-- Whatever the alarms do, a tick that ends has counted one. -/
theorem altTick_nticks {A U : Type} [DecidableEq A] (callback : A → U → BitVec 32 × U)
    {fuel : Nat} {s s' : Clock A U} (h : altTick callback fuel s = some s') :
    s'.nticks = s.nticks + 1 := by
  have hloop : ∀ (f : Nat) (x : Option A) (c : Clock A U),
      walk Clock.llist none (visit callback) f x c = some s' → s'.nticks = c.nticks := by
    intro f
    induction f with
    | zero => intro x c hc; cases hc
    | succ f ih =>
      intro x c hc
      rw [walk] at hc
      split at hc
      · rw [Option.some.inj hc]
      · rw [ih _ _ hc, visit_nticks]
  exact hloop _ _ _ h

end FpgaLabs.Hal
