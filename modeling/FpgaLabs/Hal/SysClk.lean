import FpgaLabs.Hal.Alarm
import FpgaLabs.Nios.Timer

/-! The system clock: the interval timer as `alt_avalon_timer_sc_init` starts it,
its interrupt handler `alt_avalon_timer_sc_irq`, and the times that `led_count.c`
measures with it. -/

namespace FpgaLabs.Hal
open Sync Nios Nios.IntervalTimer

/-- The timer and `_alt_nticks`. -/
structure SysClk where
  timer : Timer
  nticks : BitVec 32

/-- One clock: a bus cycle of the program, or the write of the handler, after
which it calls `alt_tick` before the program runs again. -/
inductive SysCycle
  | program (c : Bus)
  | irqHandler

/-- `IOWR_ALTERA_AVALON_TIMER_STATUS (base, 0)`. -/
def clearStatus : Bus := ⟨0, true, false, 0⟩

def SysCycle.bus : SysCycle → Bus
  | .program c => c
  | .irqHandler => clearStatus

def SysClk.step (s : SysClk) (e : SysCycle) : SysClk where
  timer := edge s.timer e.bus
  nticks := match e with
    | .program _ => s.nticks
    | .irqHandler => s.nticks + 1

/-- `ITO_MSK | CONT_MSK | START_MSK` to the control register. -/
def startFreeRunning : Bus := ⟨1, true, false, 7⟩

/-- After `alt_avalon_timer_sc_init` on the timer as it leaves its reset. -/
def SysClk.init : SysClk := ⟨edge .reset startFreeRunning, 0⟩

/-- The program leaves the timer to the HAL; it may read it. The handler runs on
an interrupt. -/
def SysClk.Allows (s : SysClk) : SysCycle → Prop
  | .program c => Quiet c ∧ statusWrStrobe c = false
  | .irqHandler => irq s.timer = true

/-- No timeout comes while the one before waits to be served, or is cleared. -/
def SysClk.InTime (s : SysClk) (e : SysCycle) : Prop :=
  (timeoutEvent s.timer && (statusWrStrobe e.bus || s.timer.timeoutOccurred)) = false

theorem quiet_of_allows {s : SysClk} {e : SysCycle} (h : s.Allows e) : Quiet e.bus := by
  cases e with
  | program c => exact h.1
  | irqHandler => exact ⟨by decide, by decide, by decide⟩

theorem timeouts_run (s : SysClk) (es : List SysCycle) :
    tally SysClk.step (fun s _ => timeoutEvent s.timer) s es =
      timeouts s.timer (es.map SysCycle.bus) := by
  induction es generalizing s with
  | nil => rfl
  | cons e es ih => rw [tally, ih, List.map_cons]; rfl

theorem quiet_of_run {s : SysClk} {es : List SysCycle}
    (h : EachStep SysClk.step SysClk.Allows s es) :
    ∀ c ∈ es.map SysCycle.bus, Quiet c := by
  induction es generalizing s with
  | nil => simp
  | cons e es ih =>
    rw [List.map_cons, List.forall_mem_cons]
    exact ⟨quiet_of_allows h.1, ih h.2⟩

theorem free_init : FreeRunning SysClk.init.timer where
  running := by decide
  continuous := by decide
  loaded := by decide
  le := by decide
  pos := by decide
  fresh := by decide

/-- The timeouts of the first `n` clocks. -/
theorem timeouts_init {es : List SysCycle}
    (h : EachStep SysClk.step SysClk.Allows SysClk.init es) :
    tally SysClk.step (fun s _ => timeoutEvent s.timer) SysClk.init es = es.length / 50000 := by
  have hphase : phase SysClk.init.timer = 0 := by decide
  have hperiod : period SysClk.init.timer = 50000 := by decide
  rw [timeouts_run, timeouts_eq free_init (quiet_of_run h), hphase, hperiod, List.length_map,
    Nat.zero_add]

/-- The calls of the handler. -/
def handled (es : List SysCycle) : Nat := (es.filter fun e => e matches .irqHandler).length

/-- The timeouts that were lost. -/
def missed (s : SysClk) (es : List SysCycle) : Nat :=
  tally SysClk.step
    (fun s e => timeoutEvent s.timer && (statusWrStrobe e.bus || s.timer.timeoutOccurred)) s es

theorem handled_eq {s : SysClk} {es : List SysCycle}
    (h : EachStep SysClk.step SysClk.Allows s es) :
    tally SysClk.step (fun s e => statusWrStrobe e.bus && s.timer.timeoutOccurred) s es =
        handled es ∧
      (run SysClk.step s es).nticks = s.nticks + BitVec.ofNat 32 (handled es) := by
  induction es generalizing s with
  | nil => simp [tally, handled]
  | cons e es ih =>
    obtain ⟨htally, hticks⟩ := ih h.2
    rw [tally, htally, run_cons, hticks]
    cases e with
    | program c =>
      have hc : statusWrStrobe c = false := h.1.2
      simp [SysCycle.bus, SysClk.step, hc, handled]
    | irqHandler =>
      have hflag : s.timer.timeoutOccurred = true := (Bool.and_eq_true_iff.mp h.1).1
      have hclear : statusWrStrobe clearStatus = true := by decide
      have hcount : handled (.irqHandler :: es) = handled es + 1 := rfl
      rw [hcount, BitVec.ofNat_add, SysCycle.bus, hclear, hflag]
      refine ⟨Nat.add_comm _ _, ?_⟩
      simp only [SysClk.step]
      ac_rfl

/-- A timeout is counted, pending or missed. -/
theorem timeouts_account {es : List SysCycle}
    (h : EachStep SysClk.step SysClk.Allows SysClk.init es) :
    es.length / 50000 = handled es +
      (run SysClk.step SysClk.init es).timer.timeoutOccurred.toNat + missed SysClk.init es := by
  have hlaw := @latch_tally SysClk SysCycle SysClk.step (fun s => s.timer.timeoutOccurred)
    (fun _ e => statusWrStrobe e.bus) (fun s _ => timeoutEvent s.timer) (fun _ _ => rfl)
    SysClk.init es
  have hnone : SysClk.init.timer.timeoutOccurred = false := by decide
  rw [timeouts_init h, (handled_eq h).1, hnone, Bool.toNat_false, Nat.zero_add] at hlaw
  rw [hlaw, missed]
  omega

theorem nticks_handled {es : List SysCycle}
    (h : EachStep SysClk.step SysClk.Allows SysClk.init es) :
    (run SysClk.step SysClk.init es).nticks = BitVec.ofNat 32 (handled es) := by
  rw [(handled_eq h).2]
  simp [SysClk.init]

/-- A read of the snapshot. -/
def readSnap : Bus := ⟨4, true, true, 0⟩

theorem allows_reads {s : SysClk} (n : Nat) :
    EachStep SysClk.step SysClk.Allows s (List.replicate n (.program readSnap)) := by
  induction n generalizing s with
  | zero => trivial
  | succ n ih => exact ⟨by simp [SysClk.Allows, Quiet]; decide, ih⟩

/-- `((finish_time - start_time)*1000) / alt_ticks_per_second ()`; the rate is
`unsigned`, and so is the division. -/
def totalTime (startTime finishTime ticksPerSecond : BitVec 32) : BitVec 32 :=
  (finishTime - startTime) * 1000 / ticksPerSecond

theorem totalTime_eq {m n : Nat} (hn : n * 1000 < 4294967296) :
    (totalTime (BitVec.ofNat 32 m) (BitVec.ofNat 32 (m + n)) 1000).toNat = n := by
  have hdiff : BitVec.ofNat 32 (m + n) - BitVec.ofNat 32 m = BitVec.ofNat 32 n := by
    rw [BitVec.ofNat_add, BitVec.add_comm, BitVec.add_sub_cancel]
  have hlt : n % 4294967296 = n := Nat.mod_eq_of_lt (by omega)
  have hmul : n * 1000 % 4294967296 = n * 1000 := Nat.mod_eq_of_lt hn
  rw [totalTime, hdiff, BitVec.toNat_udiv, BitVec.toNat_mul, BitVec.toNat_ofNat]
  show n % 4294967296 * 1000 % 4294967296 / 1000 = n
  rw [hlt, hmul]
  omega

theorem missed_eq_zero {s : SysClk} {es : List SysCycle} :
    missed s es = 0 ↔ EachStep SysClk.step SysClk.InTime s es := tally_eq_zero

end FpgaLabs.Hal
