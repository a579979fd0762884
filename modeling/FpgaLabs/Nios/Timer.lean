import FpgaLabs.Nios.Pio
import FpgaLabs.Sync.Counter

/-! The interval timer of the Nios system, `timer.vhd`: a down counter with a
reload, a sticky timeout flag with an interrupt, and a snapshot register. -/

namespace FpgaLabs.Nios.IntervalTimer
open Sync

abbrev Bus := Access 3 (BitVec 16)

structure Timer where
  internalCounter : BitVec 32
  forceReload : Bool
  counterIsRunning : Bool
  /-- `delayed_unxcounter_is_zeroxx0` -/
  delayedCounterIsZero : Bool
  timeoutOccurred : Bool
  readdata : BitVec 16
  periodLRegister : BitVec 16
  periodHRegister : BitVec 16
  counterSnapshot : BitVec 32
  controlRegister : BitVec 4

/-- `reset_n = '0'`. -/
def Timer.reset : Timer where
  internalCounter := 0xC34F
  forceReload := false
  counterIsRunning := false
  delayedCounterIsZero := false
  timeoutOccurred := false
  readdata := 0
  periodLRegister := 0xC34F
  periodHRegister := 0
  counterSnapshot := 0
  controlRegister := 0

def statusWrStrobe (c : Bus) : Bool := c.wrStrobe 0
def controlWrStrobe (c : Bus) : Bool := c.wrStrobe 1
def periodLWrStrobe (c : Bus) : Bool := c.wrStrobe 2
def periodHWrStrobe (c : Bus) : Bool := c.wrStrobe 3
def snapStrobe (c : Bus) : Bool := c.wrStrobe 4 || c.wrStrobe 5
def startStrobe (c : Bus) : Bool := c.writedata.getLsbD 2 && controlWrStrobe c
def stopStrobe (c : Bus) : Bool := c.writedata.getLsbD 3 && controlWrStrobe c

def controlContinuous (s : Timer) : Bool := s.controlRegister.getLsbD 1
def controlInterruptEnable (s : Timer) : Bool := s.controlRegister.getLsbD 0
def counterIsZero (s : Timer) : Bool := s.internalCounter == 0#32
def counterLoadValue (s : Timer) : BitVec 32 := s.periodHRegister ++ s.periodLRegister
def timeoutEvent (s : Timer) : Bool := counterIsZero s && !s.delayedCounterIsZero
def irq (s : Timer) : Bool := s.timeoutOccurred && controlInterruptEnable s

def doStopCounter (s : Timer) (c : Bus) : Bool :=
  stopStrobe c || s.forceReload || (counterIsZero s && !controlContinuous s)

/-- `A_REP(to_std_logic(address = n), 16) AND reg`. -/
def select (c : Bus) (n : BitVec 3) (reg : BitVec 16) : BitVec 16 :=
  if c.address = n then reg else 0

/-- `counter_is_running & timeout_occurred`, with zeros in front. -/
def status (s : Timer) : BitVec 16 :=
  (BitVec.ofBool s.counterIsRunning ++ BitVec.ofBool s.timeoutOccurred).setWidth 16

def readMuxOut (s : Timer) (c : Bus) : BitVec 16 :=
  select c 2 s.periodLRegister ||| select c 3 s.periodHRegister |||
    select c 4 (s.counterSnapshot.extractLsb' 0 16) |||
    select c 5 (s.counterSnapshot.extractLsb' 16 16) |||
    select c 1 (s.controlRegister.setWidth 16) ||| select c 0 (status s)

/-- A rising edge of `clk`. -/
def edge (s : Timer) (c : Bus) : Timer where
  internalCounter :=
    if s.counterIsRunning || s.forceReload then
      if counterIsZero s || s.forceReload then counterLoadValue s else s.internalCounter - 1
    else s.internalCounter
  forceReload := periodHWrStrobe c || periodLWrStrobe c
  counterIsRunning :=
    if startStrobe c then true
    else if doStopCounter s c then false else s.counterIsRunning
  delayedCounterIsZero := counterIsZero s
  timeoutOccurred :=
    if statusWrStrobe c then false
    else if timeoutEvent s then true else s.timeoutOccurred
  readdata := readMuxOut s c
  periodLRegister := if periodLWrStrobe c then c.writedata else s.periodLRegister
  periodHRegister := if periodHWrStrobe c then c.writedata else s.periodHRegister
  counterSnapshot := if snapStrobe c then s.internalCounter else s.counterSnapshot
  controlRegister := if controlWrStrobe c then c.writedata.setWidth 4 else s.controlRegister

/-- A write to register `n`, and a read of it. -/
def iowr (n : BitVec 3) (data : BitVec 16) : Bus := ⟨n, true, false, data⟩
def iord (n : BitVec 3) : Bus := ⟨n, true, true, 0⟩

/-! ## The counter stays below the period -/

/-- Not above the period, except in the cycle after a period was written. -/
def Bounded (s : Timer) : Prop :=
  s.forceReload = true ∨ s.internalCounter ≤ counterLoadValue s

theorem bounded_reset : Bounded .reset := .inr (by decide)

theorem counterLoadValue_edge {s : Timer} {c : Bus} (hl : periodLWrStrobe c = false)
    (hh : periodHWrStrobe c = false) : counterLoadValue (edge s c) = counterLoadValue s := by
  simp [counterLoadValue, edge, hl, hh]

theorem bounded_edge (s : Timer) (c : Bus) (h : Bounded s) : Bounded (edge s c) := by
  cases hl : periodLWrStrobe c with
  | true => exact .inl (by simp [edge, hl])
  | false =>
    cases hh : periodHWrStrobe c with
    | true => exact .inl (by simp [edge, hh])
    | false =>
      right
      rw [counterLoadValue_edge hl hh]
      show (if _ then if _ then _ else _ else _) ≤ counterLoadValue s
      rcases h with hf | hle
      · simp [hf]
      · split
        · split
          · exact BitVec.le_refl _
          · next hz =>
            have hpos : s.internalCounter ≠ 0#32 := by
              intro h0
              simp [counterIsZero, h0] at hz
            bv_omega
        · exact hle

/-- **Bound.** In every state that any bus traffic reaches. -/
theorem reachable_bounded {s : Timer} (h : Reachable edge (· = .reset) s) : Bounded s := by
  refine h.invariant Bounded ?_ bounded_edge
  rintro s rfl
  exact bounded_reset

theorem reachable_bounded_short : Bounded (run edge .reset [iowr 2 9, iowr 1 6, iord 0]) :=
  reachable_bounded ⟨.reset, [iowr 2 9, iowr 1 6, iord 0], rfl, rfl⟩

/-! ## Timeouts of a free-running timer -/

/-- Counting, in continuous mode, with a period that is in force and not zero. -/
structure FreeRunning (s : Timer) : Prop where
  running : s.counterIsRunning = true
  continuous : controlContinuous s = true
  loaded : s.forceReload = false
  le : s.internalCounter ≤ counterLoadValue s
  pos : counterLoadValue s ≠ 0#32
  fresh : s.internalCounter = 0#32 → s.delayedCounterIsZero = false

/-- A cycle that writes neither the control register nor the period; it may read,
write the status or take a snapshot. -/
def Quiet (c : Bus) : Prop :=
  controlWrStrobe c = false ∧ periodLWrStrobe c = false ∧ periodHWrStrobe c = false

/-- How far the count is into its period. -/
def phase (s : Timer) : Nat := (counterLoadValue s).toNat - s.internalCounter.toNat

def period (s : Timer) : Nat := (counterLoadValue s).toNat + 1

theorem FreeRunning.counter_edge {s : Timer} (h : FreeRunning s) (c : Bus) :
    (edge s c).internalCounter =
      if s.internalCounter = 0#32 then counterLoadValue s else s.internalCounter - 1 := by
  simp [edge, h.running, h.loaded, counterIsZero]

theorem FreeRunning.edge_free {s : Timer} (h : FreeRunning s) {c : Bus} (hc : Quiet c) :
    FreeRunning (edge s c) ∧ counterLoadValue (edge s c) = counterLoadValue s := by
  obtain ⟨hctl, hl, hh⟩ := hc
  have hval := counterLoadValue_edge (s := s) hl hh
  have hcount := h.counter_edge c
  have hpos := h.pos
  have hle := h.le
  have hstop : doStopCounter s c = false := by
    simp [doStopCounter, stopStrobe, hctl, h.loaded, h.continuous]
  refine ⟨⟨?_, ?_, ?_, ?_, by rw [hval]; exact hpos, ?_⟩, hval⟩
  · simp [edge, hstop, h.running]
  · simpa [controlContinuous, edge, hctl] using h.continuous
  · simp [edge, hl, hh]
  · rw [hval, hcount]
    split
    · exact BitVec.le_refl _
    · bv_omega
  · intro h0
    -- the reload is not zero, so the count before was not
    rw [hcount] at h0
    split at h0
    · exact absurd h0 hpos
    · next hne => simpa [edge, counterIsZero] using hne

theorem FreeRunning.phase_edge {s : Timer} (h : FreeRunning s) {c : Bus} (hc : Quiet c) :
    phase (edge s c) = next (period s) (phase s) := by
  have hle : s.internalCounter.toNat ≤ (counterLoadValue s).toNat := h.le
  rw [phase, (h.edge_free hc).2, h.counter_edge, phase, next, period]
  split
  · next h0 => simp [h0]
  · next h0 =>
    have hsub : (s.internalCounter - 1).toNat = s.internalCounter.toNat - 1 := by bv_omega
    have hpos : 0 < s.internalCounter.toNat := by bv_omega
    rw [hsub, if_neg (by omega)]
    omega

theorem FreeRunning.timeoutEvent_iff {s : Timer} (h : FreeRunning s) :
    timeoutEvent s = true ↔ phase s + 1 = period s := by
  have hle : s.internalCounter.toNat ≤ (counterLoadValue s).toNat := h.le
  have hzero : phase s + 1 = period s ↔ s.internalCounter = 0#32 := by
    rw [phase, period]
    bv_omega
  rw [hzero, timeoutEvent, counterIsZero]
  constructor
  · intro hev
    simpa using (Bool.and_eq_true_iff.mp hev).1
  · intro h0
    simp [h0, h.fresh h0]

/-- The steps that raise a timeout event. -/
def timeouts (s : Timer) (cs : List Bus) : Nat := tally edge (fun s _ => timeoutEvent s) s cs

/-- **Period.** A free-running timer times out once in every `period` clocks,
whatever is read or acknowledged meanwhile. -/
theorem timeouts_eq {s : Timer} (h : FreeRunning s) {cs : List Bus} (hcs : ∀ c ∈ cs, Quiet c) :
    timeouts s cs = (phase s + cs.length) / period s := by
  have hphase : phase s < period s := by
    rw [phase, period]
    omega
  induction cs generalizing s with
  | nil => simp [timeouts, tally, Nat.div_eq_of_lt hphase]
  | cons c cs ih =>
    have hc := hcs c (by simp)
    obtain ⟨hfree, hval⟩ := h.edge_free hc
    have hlen : period (edge s c) = period s := by rw [period, period, hval]
    have hstep := h.phase_edge hc
    have hrest := ih hfree (fun d hd => hcs d (by simp [hd])) (by
      rw [hstep, hlen]
      exact next_lt hphase)
    rw [timeouts, tally, ← timeouts, hrest, hlen, hstep, List.length_cons]
    by_cases hwrap : phase s + 1 = period s
    · have hsum : phase s + (cs.length + 1) = cs.length + period s := by omega
      rw [h.timeoutEvent_iff.mpr hwrap, next, if_pos hwrap, hsum,
        Nat.add_div_right _ (by omega), Nat.zero_add, Bool.toNat_true]
      omega
    · have hno : timeoutEvent s = false := by
        rw [← Bool.not_eq_true, h.timeoutEvent_iff]
        exact hwrap
      have hsum : phase s + (cs.length + 1) = phase s + 1 + cs.length := by omega
      rw [hno, next, if_neg hwrap, hsum, Bool.toNat_false, Nat.zero_add]

/-! ## One-shot mode -/

/-- Counting with the continuous bit clear; the mode in which zero is the end. -/
structure OneShot (s : Timer) : Prop where
  running : s.counterIsRunning = true
  single : controlContinuous s = false
  loaded : s.forceReload = false
  pos : counterLoadValue s ≠ 0#32
  fresh : s.internalCounter = 0#32 → s.delayedCounterIsZero = false

/-- Stopped with the whole period ahead. -/
structure Rewound (s : Timer) : Prop where
  stopped : s.counterIsRunning = false
  loaded : s.forceReload = false
  full : s.internalCounter = counterLoadValue s
  pos : counterLoadValue s ≠ 0#32

theorem Rewound.edge_rewound {s : Timer} (h : Rewound s) {c : Bus} (hc : Quiet c) :
    Rewound (edge s c) ∧ timeoutEvent s = false := by
  obtain ⟨hctl, hl, hh⟩ := hc
  have hval := counterLoadValue_edge (s := s) hl hh
  have hcount : (edge s c).internalCounter = s.internalCounter := by
    simp [edge, h.stopped, h.loaded]
  have hpos := h.pos
  refine ⟨⟨?_, ?_, by rw [hcount, hval, h.full], by rw [hval]; exact hpos⟩, ?_⟩
  · simp [edge, startStrobe, hctl, h.stopped]
  · simp [edge, hl, hh]
  · rw [← h.full] at hpos
    simpa [timeoutEvent, counterIsZero] using fun h0 => absurd h0 hpos

theorem Rewound.timeouts_zero {s : Timer} (h : Rewound s) {cs : List Bus}
    (hcs : ∀ c ∈ cs, Quiet c) : timeouts s cs = 0 ∧ Rewound (run edge s cs) := by
  induction cs generalizing s with
  | nil => exact ⟨rfl, h⟩
  | cons c cs ih =>
    obtain ⟨hnext, hev⟩ := h.edge_rewound (hcs c (by simp))
    obtain ⟨hrest, hend⟩ := ih hnext fun d hd => hcs d (by simp [hd])
    refine ⟨?_, hend⟩
    rw [timeouts, tally, ← timeouts, hrest, hev]
    rfl

theorem OneShot.edge_oneShot {s : Timer} (h : OneShot s) {c : Bus} (hc : Quiet c)
    (hz : s.internalCounter ≠ 0#32) :
    OneShot (edge s c) ∧ (edge s c).internalCounter = s.internalCounter - 1 ∧
      timeoutEvent s = false := by
  obtain ⟨hctl, hl, hh⟩ := hc
  have hval := counterLoadValue_edge (s := s) hl hh
  have hcount : (edge s c).internalCounter = s.internalCounter - 1 := by
    simp [edge, h.running, h.loaded, counterIsZero, hz]
  have hstop : doStopCounter s c = false := by
    simp [doStopCounter, stopStrobe, hctl, h.loaded, counterIsZero, hz]
  refine ⟨⟨?_, ?_, ?_, by rw [hval]; exact h.pos, ?_⟩, hcount, ?_⟩
  · simp [edge, hstop, h.running]
  · simpa [controlContinuous, edge, hctl] using h.single
  · simp [edge, hl, hh]
  · intro _
    simpa [edge, counterIsZero] using hz
  · simp [timeoutEvent, counterIsZero, hz]

theorem OneShot.edge_last {s : Timer} (h : OneShot s) {c : Bus} (hc : Quiet c)
    (hz : s.internalCounter = 0#32) : Rewound (edge s c) ∧ timeoutEvent s = true := by
  obtain ⟨hctl, hl, hh⟩ := hc
  have hval := counterLoadValue_edge (s := s) hl hh
  have hcount : (edge s c).internalCounter = counterLoadValue s := by
    simp [edge, h.running, counterIsZero, hz]
  have hstop : doStopCounter s c = true := by
    simp [doStopCounter, counterIsZero, hz, h.single]
  refine ⟨⟨?_, ?_, by rw [hcount, hval], by rw [hval]; exact h.pos⟩, ?_⟩
  · simp [edge, startStrobe, hctl, hstop]
  · simp [edge, hl, hh]
  · simp [timeoutEvent, counterIsZero, hz, h.fresh hz]

/-- **One shot.** A timer started without the continuous bit times out once, as
its count ends, and rests with the period reloaded. -/
theorem timeouts_once {s : Timer} (h : OneShot s) {cs : List Bus} (hcs : ∀ c ∈ cs, Quiet c) :
    (cs.length ≤ s.internalCounter.toNat → timeouts s cs = 0 ∧ OneShot (run edge s cs)) ∧
      (s.internalCounter.toNat < cs.length → timeouts s cs = 1 ∧ Rewound (run edge s cs)) := by
  induction cs generalizing s with
  | nil => exact ⟨fun _ => ⟨rfl, h⟩, fun hlt => absurd hlt (Nat.not_lt_zero _)⟩
  | cons c cs ih =>
    have hc := hcs c (by simp)
    have hcs' : ∀ d ∈ cs, Quiet d := fun d hd => hcs d (by simp [hd])
    rw [timeouts, tally, ← timeouts, run_cons, List.length_cons]
    by_cases hz : s.internalCounter = 0#32
    · obtain ⟨hdone, hev⟩ := h.edge_last hc hz
      obtain ⟨hrest, hend⟩ := hdone.timeouts_zero hcs'
      have hzero : s.internalCounter.toNat = 0 := by simp [hz]
      refine ⟨fun hle => by omega, fun _ => ⟨?_, hend⟩⟩
      rw [hrest, hev]
      rfl
    · obtain ⟨hnext, hcount, hev⟩ := h.edge_oneShot hc hz
      obtain ⟨hbefore, hafter⟩ := ih hnext hcs'
      have hsub : (edge s c).internalCounter.toNat + 1 = s.internalCounter.toNat := by
        rw [hcount]
        bv_omega
      rw [hev, Bool.toNat_false, Nat.zero_add]
      exact ⟨fun hle => hbefore (by omega), fun hlt => hafter (by omega)⟩

/-! ## Programming the timer -/

/-- The clock after a write of either half loads the period and stops the count. -/
theorem reload (s : Timer) {h c : Bus} (hh : periodHWrStrobe h = true ∨ periodLWrStrobe h = true)
    (hc : Quiet c) (hpos : counterLoadValue (edge s h) ≠ 0#32) :
    Rewound (edge (edge s h) c) ∧
      counterLoadValue (edge (edge s h) c) = counterLoadValue (edge s h) := by
  obtain ⟨hctl, hcl, hch⟩ := hc
  have hval := counterLoadValue_edge (s := edge s h) hcl hch
  have hforce : (edge s h).forceReload = true := by
    rcases hh with hh | hh <;> simp [edge, hh]
  have hcount : (edge (edge s h) c).internalCounter = counterLoadValue (edge s h) := by
    show (if _ then if _ then _ else _ else _) = _
    simp [hforce]
  have hstop : (edge (edge s h) c).counterIsRunning = false := by
    show (if _ then _ else if _ then _ else _) = _
    simp [startStrobe, hctl, doStopCounter, hforce]
  have hload : (edge (edge s h) c).forceReload = false := by
    show (periodHWrStrobe c || periodLWrStrobe c) = false
    simp [hch, hcl]
  exact ⟨⟨hstop, hload, by rw [hcount, hval], by rw [hval]; exact hpos⟩, hval⟩

/-- What quiet cycles leave alone. -/
theorem quiet_periods (s : Timer) {cs : List Bus} (hcs : ∀ c ∈ cs, Quiet c) :
    counterLoadValue (run edge s cs) = counterLoadValue s ∧
      (run edge s cs).periodLRegister = s.periodLRegister := by
  induction cs generalizing s with
  | nil => exact ⟨rfl, rfl⟩
  | cons c cs ih =>
    obtain ⟨_, hl, hh⟩ := hcs c (by simp)
    obtain ⟨hv, hp⟩ := ih (edge s c) fun d hd => hcs d (by simp [hd])
    rw [run_cons, hv, hp, counterLoadValue_edge hl hh]
    exact ⟨rfl, by simp [edge, hl]⟩

theorem Rewound.start {s : Timer} (h : Rewound s) {c : Bus} (hc : startStrobe c = true) :
    counterLoadValue (edge s c) = counterLoadValue s ∧
      (edge s c).internalCounter = counterLoadValue s ∧
      (c.writedata.getLsbD 1 = true → FreeRunning (edge s c)) ∧
      (c.writedata.getLsbD 1 = false → OneShot (edge s c)) := by
  have hctl : controlWrStrobe c = true := (Bool.and_eq_true_iff.mp hc).2
  have hl : periodLWrStrobe c = false := Access.wrStrobe_other hctl (by decide)
  have hh : periodHWrStrobe c = false := Access.wrStrobe_other hctl (by decide)
  have hval := counterLoadValue_edge (s := s) hl hh
  have hcount : (edge s c).internalCounter = counterLoadValue s := by
    simp [edge, h.stopped, h.loaded, h.full]
  have hrun : (edge s c).counterIsRunning = true := by simp [edge, hc]
  have hload : (edge s c).forceReload = false := by simp [edge, hl, hh]
  have hmode : controlContinuous (edge s c) = c.writedata.getLsbD 1 := by
    simp [controlContinuous, edge, hctl]
  have hpos : counterLoadValue (edge s c) ≠ 0#32 := by
    rw [hval]
    exact h.pos
  have hfresh : (edge s c).internalCounter = 0#32 → (edge s c).delayedCounterIsZero = false := by
    rw [hcount]
    exact fun h0 => absurd h0 h.pos
  refine ⟨hval, hcount, fun hb => ?_, fun hb => ?_⟩
  · exact ⟨hrun, hmode.trans hb, hload, by rw [hcount, hval]; exact BitVec.le_refl _, hpos, hfresh⟩
  · exact ⟨hrun, hmode.trans hb, hload, hpos, hfresh⟩

theorem snapshot_kept (s : Timer) {cs : List Bus} (hcs : ∀ c ∈ cs, snapStrobe c = false) :
    (run edge s cs).counterSnapshot = s.counterSnapshot := by
  induction cs generalizing s with
  | nil => rfl
  | cons c cs ih =>
    rw [run_cons, ih _ fun d hd => hcs d (by simp [hd])]
    simp [edge, hcs c (by simp)]

/-- **Snapshot.** The two halves read after a snapshot, whenever they are read and
whatever the counter does meanwhile, are those of one count: the count at the write. -/
theorem snapshot_read (s : Timer) (w lo hi : Bus) (m n : List Bus) (hw : snapStrobe w = true)
    (hm : ∀ c ∈ m, snapStrobe c = false) (hlo : lo.address = 4 ∧ snapStrobe lo = false)
    (hn : ∀ c ∈ n, snapStrobe c = false) (hhi : hi.address = 5) :
    (run edge s (w :: m ++ lo :: n ++ [hi])).readdata ++
      (run edge s (w :: m ++ [lo])).readdata = s.internalCounter := by
  have hsnap : (edge s w).counterSnapshot = s.internalCounter := by simp [edge, hw]
  have hfirst := (snapshot_kept (edge s w) hm).trans hsnap
  have hkeep : ∀ t : Timer, (edge t lo).counterSnapshot = t.counterSnapshot := by
    intro t
    simp [edge, hlo.2]
  have hsecond := (snapshot_kept (edge (run edge (edge s w) m) lo) hn).trans
    ((hkeep _).trans hfirst)
  have hread : ∀ (t : Timer) (c : Bus), c.address = 4 →
      (edge t c).readdata = t.counterSnapshot.extractLsb' 0 16 := by
    intro t c hc
    simp [edge, readMuxOut, select, hc]
  have hread' : ∀ (t : Timer) (c : Bus), c.address = 5 →
      (edge t c).readdata = t.counterSnapshot.extractLsb' 16 16 := by
    intro t c hc
    simp [edge, readMuxOut, select, hc]
  simp only [List.cons_append, List.append_assoc, run_cons, run_append, run_nil]
  rw [hread' _ _ hhi, hread _ _ hlo.1, hsecond, hfirst]
  rw [BitVec.extractLsb'_append_extractLsb'_eq_extractLsb' (by rfl)]
  simp

theorem snapshot_read_reset :
    (run edge .reset (iowr 4 0 :: [iowr 1 6] ++ iord 4 :: [iord 0] ++ [iord 5])).readdata ++
      (run edge .reset (iowr 4 0 :: [iowr 1 6] ++ [iord 4])).readdata = 0xC34F#32 :=
  snapshot_read .reset (iowr 4 0) (iord 4) (iord 5) [iowr 1 6] [iord 0] rfl
    (fun c hc => by rw [List.mem_singleton.mp hc]; rfl) ⟨rfl, rfl⟩
    (fun c hc => by rw [List.mem_singleton.mp hc]; rfl) rfl

end FpgaLabs.Nios.IntervalTimer
