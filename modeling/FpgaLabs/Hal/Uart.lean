import FpgaLabs.Sync.Ring

/-! The interrupt-driven UART driver of the HAL: `altera_avalon_uart_init.c`,
`altera_avalon_uart_read.c` and `altera_avalon_uart_write.c`. The program runs
`read` and `write` one memory access at a time, and the interrupt handler may
come between any two of them. -/

namespace FpgaLabs.Hal.Uart
open Sync

abbrev Byte := BitVec 8

def bufLen : Nat := 64

/-- `& ALT_AVALON_UART_BUF_MSK`. -/
def bufMsk (i : Nat) : Nat := i &&& (bufLen - 1)

def statusPeMsk : BitVec 32 := 0x1
def statusFeMsk : BitVec 32 := 0x2
def statusTrdyMsk : BitVec 32 := 0x40
def statusRrdyMsk : BitVec 32 := 0x80
def statusDctsMsk : BitVec 32 := 0x400
def statusCtsMsk : BitVec 32 := 0x800
def controlTrdyMsk : BitVec 32 := 0x40
def controlRrdyMsk : BitVec 32 := 0x80
def controlDctsMsk : BitVec 32 := 0x400
def controlRtsMsk : BitVec 32 := 0x800

/-- `ALT_AVALON_UART_FC`. -/
def flowControl : BitVec 32 := 0x2

/-- `altera_avalon_uart_state`, and the control register of the device. -/
structure State where
  ctrl : BitVec 32
  rxStart : Nat
  rxEnd : Nat
  txStart : Nat
  txEnd : Nat
  flags : BitVec 32
  rxBuf : Nat → Byte
  txBuf : Nat → Byte
  control : BitVec 32

/-- `IOWR_ALTERA_AVALON_UART_CONTROL(sp->base, sp->ctrl)`. -/
def State.iowrControl (s : State) : State := { s with control := s.ctrl }

def State.setCtrl (s : State) (ctrl : BitVec 32) : State := { s with ctrl := ctrl }

/-- The state that `altera_avalon_uart_init` leaves. -/
def State.init (flags : BitVec 32) (rxBuf txBuf : Nat → Byte) : State :=
  State.iowrControl
    ⟨controlRtsMsk ||| controlRrdyMsk ||| controlDctsMsk, 0, 0, 0, 0, flags, rxBuf, txBuf, 0⟩

/-! ## The interrupt handler -/

/-- What the device holds as the handler runs: the status, the status as
`altera_avalon_uart_txirq` reads it once more, and the received character. -/
structure Device where
  status : BitVec 32
  status' : BitVec 32
  rxdata : Byte

def rxError (d : Device) : Bool := d.status &&& (statusPeMsk ||| statusFeMsk) != 0

def rxirq (s : State) (d : Device) : State :=
  let s := { s with rxBuf := Function.update s.rxBuf s.rxEnd d.rxdata }
  if rxError d then s
  else
    let s := { s with rxEnd := bufMsk (s.rxEnd + 1) }
    if bufMsk (s.rxEnd + 1) = s.rxStart then
      (s.setCtrl (s.ctrl &&& ~~~controlRrdyMsk)).iowrControl
    else s

/-- `!(sp->flags & ALT_AVALON_UART_FC) || (status & CTS_MSK)`. -/
def clearToSend (s : State) (d : Device) : Bool :=
  s.flags &&& flowControl == 0 || d.status &&& statusCtsMsk != 0

/-- The first `if` of `altera_avalon_uart_txirq`. -/
def transmit (s : State) (d : Device) : State :=
  if s.txStart ≠ s.txEnd then
    if clearToSend s d then
      State.setCtrl { s with txStart := bufMsk (s.txStart + 1) } (s.ctrl ||| controlTrdyMsk)
    else if d.status' &&& statusCtsMsk = 0 then s.setCtrl (s.ctrl &&& ~~~controlTrdyMsk)
    else s
  else s

/-- The second: nothing to send, no interrupt. -/
def quiesce (s : State) : State :=
  if s.txStart = s.txEnd then s.setCtrl (s.ctrl &&& ~~~(controlTrdyMsk ||| controlDctsMsk))
  else s

def txirq (s : State) (d : Device) : State := (quiesce (transmit s d)).iowrControl

/-- Whether it writes a character to the device. -/
def sends (s : State) (d : Device) : Bool := s.txStart != s.txEnd && clearToSend s d

def rxPending (d : Device) : Bool := d.status &&& statusRrdyMsk != 0
def txPending (d : Device) : Bool := d.status &&& (statusTrdyMsk ||| statusDctsMsk) != 0

/-- `altera_avalon_uart_irq`. -/
def irq (s : State) (d : Device) : State :=
  let s := if rxPending d then rxirq s d else s
  if txPending d then txirq s d else s

/-! ## The program -/

/-- Where a call of `altera_avalon_uart_write` is; `next` is its local variable. -/
inductive WritePc
  | loop
  | enable (next : Nat)
  | wait (next : Nat)
  | store (next : Nat)
  | advance (next : Nat)
  | finish

/-- Where a call of `altera_avalon_uart_read` is. -/
inductive ReadPc
  | copy
  | load
  | advance (c : Byte)
  | check
  | enable
  | loop
  | finish

/-- The call in progress. Of a write: its bytes and how many are in the buffer;
of a read: the bytes it has and how many it was asked for. -/
inductive Call
  | idle
  | write (pc : WritePc) (bytes : List Byte) (ptr : Nat) (block : Bool)
  | read (pc : ReadPc) (got : List Byte) (len : Nat) (block : Bool)

structure Sys where
  sp : State
  call : Call

/-- `sp->ctrl |= msk` and its write, with interrupts off. -/
def State.enable (s : State) (msk : BitVec 32) : State := (s.setCtrl (s.ctrl ||| msk)).iowrControl

/-- The next access of a write. -/
def stepWrite (s : State) (pc : WritePc) (bytes : List Byte) (ptr : Nat) (block : Bool) : Sys :=
  match pc with
  | .loop =>
    let next := bufMsk (s.txEnd + 1)
    if ptr < bytes.length then
      if next = s.txStart then
        if block then ⟨s, .write (.enable next) bytes ptr block⟩
        else ⟨s, .write .finish bytes ptr block⟩
      else ⟨s, .write (.store next) bytes ptr block⟩
    else ⟨s, .write .finish bytes ptr block⟩
  | .enable next =>
    ⟨s.enable (controlTrdyMsk ||| controlDctsMsk), .write (.wait next) bytes ptr block⟩
  | .wait next =>
    if next = s.txStart then ⟨s, .write (.wait next) bytes ptr block⟩
    else ⟨s, .write (.store next) bytes ptr block⟩
  | .store next =>
    ⟨{ s with txBuf := Function.update s.txBuf s.txEnd (bytes.getD ptr 0) },
      .write (.advance next) bytes ptr block⟩
  | .advance next => ⟨{ s with txEnd := next }, .write .loop bytes (ptr + 1) block⟩
  | .finish => ⟨s.enable (controlTrdyMsk ||| controlDctsMsk), .idle⟩

/-- The next access of a read. -/
def stepRead (s : State) (pc : ReadPc) (got : List Byte) (len : Nat) (block : Bool) : Sys :=
  match pc with
  | .copy =>
    if got.length < len ∧ s.rxStart ≠ s.rxEnd then ⟨s, .read .load got len block⟩
    else ⟨s, .read .check got len block⟩
  | .load => ⟨s, .read (.advance (s.rxBuf s.rxStart)) got len block⟩
  | .advance c =>
    ⟨{ s with rxStart := bufMsk (s.rxStart + 1) }, .read .copy (got ++ [c]) len block⟩
  | .check =>
    if got = [] ∧ s.rxStart = s.rxEnd then
      if block then ⟨s, .read .enable got len block⟩ else ⟨s, .read .finish got len block⟩
    else ⟨s, .read .loop got len block⟩
  | .enable => ⟨s.enable controlRrdyMsk, .read .loop got len block⟩
  | .loop =>
    if got = [] ∧ len ≠ 0 then ⟨s, .read .copy got len block⟩
    else ⟨s, .read .finish got len block⟩
  | .finish => ⟨s.enable controlRrdyMsk, .idle⟩

inductive Event
  | write (bytes : List Byte) (block : Bool)
  | read (len : Nat) (block : Bool)
  | run
  | irq (d : Device)

/-- A call is made when none is in progress. -/
def step (s : Sys) : Event → Sys
  | .write bytes block =>
    match s.call with
    | .idle => { s with call := .write .loop bytes 0 block }
    | _ => s
  | .read len block =>
    match s.call with
    | .idle => { s with call := .read .copy [] len block }
    | _ => s
  | .run =>
    match s.call with
    | .idle => s
    | .write pc bytes ptr block => stepWrite s.sp pc bytes ptr block
    | .read pc got len block => stepRead s.sp pc got len block
  | .irq d => { s with sp := irq s.sp d }

/-! ## What goes in and out -/

/-- The character written to `TXDATA`, if the handler writes one. -/
def txdata (s : State) (d : Device) : List Byte :=
  let s := if rxPending d then rxirq s d else s
  if txPending d && sends s d then [s.txBuf s.txStart] else []

def sent (s : Sys) : Event → List Byte
  | .irq d => txdata s.sp d
  | _ => []

/-- The character put into the receive buffer. -/
def received (_ : Sys) : Event → List Byte
  | .irq d => if rxPending d && !rxError d then [d.rxdata] else []
  | _ => []

/-- The character a write has just put into the transmit buffer. -/
def queued (s : Sys) : Event → List Byte
  | .run =>
    match s.call with
    | .write (.advance _) _ _ _ => [s.sp.txBuf s.sp.txEnd]
    | _ => []
  | _ => []

/-- The character a read has just removed from the receive buffer. -/
def removed (s : Sys) : Event → List Byte
  | .run =>
    match s.call with
    | .read (.advance c) _ _ _ => [c]
    | _ => []
  | _ => []

/-- The bytes of a write that returns: as many as it says. -/
def written (s : Sys) : Event → List Byte
  | .run =>
    match s.call with
    | .write .finish bytes ptr _ => bytes.take ptr
    | _ => []
  | _ => []

/-- The bytes of a read that returns. -/
def returned (s : Sys) : Event → List Byte
  | .run =>
    match s.call with
    | .read .finish got _ _ => got
    | _ => []
  | _ => []

/-- What the write in progress has put into the buffer so far. -/
def Sys.soFar (s : Sys) : List Byte :=
  match s.call with
  | .write _ bytes ptr _ => bytes.take ptr
  | _ => []

/-- What the read in progress has. -/
def Sys.got (s : Sys) : List Byte :=
  match s.call with
  | .read _ got _ _ => got
  | _ => []

def State.txQueue (s : State) : List Byte := ring 64 s.txBuf s.txStart s.txEnd
def State.rxQueue (s : State) : List Byte := ring 64 s.rxBuf s.rxStart s.rxEnd

/-! ## The handler, seen from one direction -/

theorem bufMsk_succ (i : Nat) : bufMsk (i + 1) = succMod 64 i :=
  Nat.and_two_pow_sub_one_eq_mod (i + 1) 6

theorem bufMsk_lt (i : Nat) : bufMsk (i + 1) < 64 := by
  rw [bufMsk_succ]
  exact succMod_lt (by decide) i

/-- The transmit fields. -/
def State.tx (s : State) : Nat × Nat × (Nat → Byte) × BitVec 32 :=
  (s.txStart, s.txEnd, s.txBuf, s.flags)

/-- The receive fields. -/
def State.rx (s : State) : Nat × Nat × (Nat → Byte) := (s.rxStart, s.rxEnd, s.rxBuf)

theorem rxirq_tx (s : State) (d : Device) : (rxirq s d).tx = s.tx := by
  unfold rxirq
  simp only
  split
  · rfl
  · split <;> rfl

theorem rxirq_rx (s : State) (d : Device) :
    (rxirq s d).rx = (s.rxStart, if rxError d then s.rxEnd else bufMsk (s.rxEnd + 1),
      Function.update s.rxBuf s.rxEnd d.rxdata) := by
  unfold rxirq
  simp only
  split
  · rfl
  · split <;> rfl

@[simp] theorem quiesce_tx (s : State) : (quiesce s).tx = s.tx := by
  unfold quiesce
  split <;> rfl

@[simp] theorem quiesce_rx (s : State) : (quiesce s).rx = s.rx := by
  unfold quiesce
  split <;> rfl

theorem transmit_cases (s : State) (d : Device) :
    (s.txStart = s.txEnd ∧ transmit s d = s) ∨
    (s.txStart ≠ s.txEnd ∧ clearToSend s d = true ∧ transmit s d =
      State.setCtrl { s with txStart := bufMsk (s.txStart + 1) } (s.ctrl ||| controlTrdyMsk)) ∨
    (s.txStart ≠ s.txEnd ∧ clearToSend s d = false ∧
      (transmit s d = s ∨ transmit s d = s.setCtrl (s.ctrl &&& ~~~controlTrdyMsk))) := by
  unfold transmit
  by_cases hne : s.txStart = s.txEnd
  · exact .inl ⟨hne, if_neg (fun h => h hne)⟩
  · rw [if_pos hne]
    cases hcts : clearToSend s d with
    | true => exact .inr (.inl ⟨hne, rfl, rfl⟩)
    | false =>
      refine .inr (.inr ⟨hne, rfl, ?_⟩)
      rw [if_neg Bool.false_ne_true]
      by_cases hlow : d.status' &&& statusCtsMsk = 0
      · exact .inr (if_pos hlow)
      · exact .inl (if_neg hlow)

theorem transmit_rx (s : State) (d : Device) : (transmit s d).rx = s.rx := by
  obtain ⟨_, h⟩ | ⟨_, _, h⟩ | ⟨_, _, h | h⟩ := transmit_cases s d <;> rw [h] <;> rfl

theorem transmit_tx (s : State) (d : Device) :
    (transmit s d).tx = (if sends s d then bufMsk (s.txStart + 1) else s.txStart, s.txEnd,
      s.txBuf, s.flags) := by
  obtain ⟨hne, h⟩ | ⟨hne, hc, h⟩ | ⟨hne, hc, h | h⟩ := transmit_cases s d
  · have hs : sends s d = false := by simp [sends, hne]
    rw [h, hs]
    rfl
  · have hs : sends s d = true := by simp [sends, hne, hc]
    rw [h, hs]
    rfl
  all_goals
    have hs : sends s d = false := by simp [sends, hc]
    rw [h, hs]
    rfl

theorem sends_congr {s t : State} (h : s.tx = t.tx) (d : Device) : sends s d = sends t d := by
  simp only [State.tx, Prod.mk.injEq] at h
  obtain ⟨h1, h2, _, h4⟩ := h
  rw [sends, sends, clearToSend, clearToSend, h1, h2, h4]

/-- The state as the second half of the handler finds it. -/
def afterRx (s : State) (d : Device) : State := if rxPending d then rxirq s d else s

theorem afterRx_tx (s : State) (d : Device) : (afterRx s d).tx = s.tx := by
  unfold afterRx
  split
  · exact rxirq_tx s d
  · rfl

/-- What the handler does to the transmit buffer. -/
theorem irq_tx (s : State) (d : Device) :
    (irq s d).tx = (if txPending d && sends s d then bufMsk (s.txStart + 1) else s.txStart,
      s.txEnd, s.txBuf, s.flags) := by
  have hrx := afterRx_tx s d
  have hsends := sends_congr hrx d
  have hirq : irq s d = if txPending d then txirq (afterRx s d) d else afterRx s d := rfl
  have htx : (txirq (afterRx s d) d).tx = (transmit (afterRx s d) d).tx :=
    quiesce_tx (transmit (afterRx s d) d)
  rw [hirq]
  cases txPending d with
  | false => exact hrx
  | true =>
    rw [if_pos rfl, htx, transmit_tx, hsends, Bool.true_and]
    simp only [State.tx, Prod.mk.injEq] at hrx
    obtain ⟨h1, h2, h3, h4⟩ := hrx
    rw [h1, h2, h3, h4]

theorem txdata_eq (s : State) (d : Device) :
    txdata s d = if txPending d && sends s d then [s.txBuf s.txStart] else [] := by
  have hrx := afterRx_tx s d
  have hsends := sends_congr hrx d
  simp only [State.tx, Prod.mk.injEq] at hrx
  obtain ⟨h1, _, h3, _⟩ := hrx
  show (if txPending d && sends (afterRx s d) d then
    [(afterRx s d).txBuf (afterRx s d).txStart] else []) = _
  rw [hsends, h1, h3]

/-- What it does to the receive buffer. -/
theorem irq_rx (s : State) (d : Device) :
    (irq s d).rx =
      if rxPending d then (s.rxStart, if rxError d then s.rxEnd else bufMsk (s.rxEnd + 1),
        Function.update s.rxBuf s.rxEnd d.rxdata)
      else s.rx := by
  have htx : ∀ t : State, (txirq t d).rx = t.rx := fun t =>
    (quiesce_rx (transmit t d)).trans (transmit_rx t d)
  unfold irq
  cases txPending d <;> cases rxPending d <;> simp [htx, rxirq_rx]

/-! ## The beginning of a call -/

/-- A call that begins changes no buffer, and neither begins while one is in progress. -/
theorem step_call {s : Sys} {e : Event} (he : (∃ bytes block, e = .write bytes block) ∨
    ∃ len block, e = .read len block) :
    step s e = s ∨ s.call = .idle ∧ (step s e).sp = s.sp ∧
      ((∃ bytes block, (step s e).call = .write .loop bytes 0 block) ∨
        ∃ len block, (step s e).call = .read .copy [] len block) := by
  obtain ⟨sp, call⟩ := s
  rcases he with ⟨bytes, block, rfl⟩ | ⟨len, block, rfl⟩
  · cases call with
    | idle => exact .inr ⟨rfl, rfl, .inl ⟨bytes, block, rfl⟩⟩
    | write _ _ _ _ => exact .inl rfl
    | read _ _ _ _ => exact .inl rfl
  · cases call with
    | idle => exact .inr ⟨rfl, rfl, .inr ⟨len, block, rfl⟩⟩
    | write _ _ _ _ => exact .inl rfl
    | read _ _ _ _ => exact .inl rfl

end FpgaLabs.Hal.Uart
