import FpgaLabs.Hal.UartTx
import FpgaLabs.Hal.UartRx
import FpgaLabs.Nios.SerialLink
import FpgaLabs.Nios.SerialPace

/-! From a `write` on one board to a `read` on another: driver, port, line, port
and driver. -/

namespace FpgaLabs.Hal.UartLink
open Sync
open Nios.SerialLink (writtenBy receivedBy wire Compatible)

/-- What the program of a board takes from its port, from the reset on. -/
def takenBy (div : Nat) (cs : List Nios.SerialRx.Cycle) : List Uart.Byte :=
  emitted (Nios.SerialRx.edge div) Nios.SerialRx.taken .reset cs

/-- Each character is read within ten half bits. -/
def ReadInTime (div : Nat) (cs : List Nios.SerialRx.Cycle) : Prop :=
  EachStep (Nios.SerialRx.ageEdge div) (Nios.SerialRx.Prompt (10 * (div / 2 + 2))) (.reset, 0) cs

theorem taken_le {div : Nat} (hdiv : 1 < div) {cs : List Nios.SerialRx.Cycle}
    (hcs : ReadInTime div cs) : takenBy div cs <+: receivedBy div cs := by
  have h := (Nios.SerialRx.prompt_run hdiv (Nios.SerialRx.inTime_reset div) hcs).1
  have hkept := @conservation _ _ _ _ Nios.SerialRx.waiting _ _ _ (fun _ => True)
    (fun s c _ hc => ⟨trivial, (Nios.SerialRx.waiting_edge div s c).mpr hc⟩) _ _ trivial h
  exact ⟨_, hkept.symm⟩

/-- The driver as `altera_avalon_uart_init` leaves it, before any call. -/
def Booted (s : Uart.Sys) : Prop := ∃ flags rxBuf txBuf, s = ⟨.init flags rxBuf txBuf, .idle⟩

/-- The bytes the reads of a driver have are a prefix of those it received. -/
theorem returned_le {s : Uart.Sys} (hs : Booted s) {es : List Uart.Event}
    (h : EachStep Uart.step Uart.NoOverflow s es) :
    emitted Uart.step Uart.returned s es ++ (run Uart.step s es).got <+:
      emitted Uart.step Uart.received s es := by
  obtain ⟨flags, rxBuf, txBuf, rfl⟩ := hs
  have hqueue := conservation Uart.RxInv
    (fun s e hi hno => ⟨Uart.rxInv_step s e hi hno, (Uart.rx_step s e hi).mpr hno⟩)
    (Uart.rxInv_init flags rxBuf txBuf) h
  rw [Uart.rxQueue_init, List.nil_append] at hqueue
  rw [← Uart.got_ledger]
  exact ⟨_, hqueue.symm⟩

/-- The bytes a driver sent are a prefix of those it was given to write. -/
theorem sent_le {s : Uart.Sys} (hs : Booted s) (es : List Uart.Event) :
    emitted Uart.step Uart.sent s es <+:
      emitted Uart.step Uart.written s es ++ (run Uart.step s es).soFar := by
  obtain ⟨flags, rxBuf, txBuf, rfl⟩ := hs
  obtain ⟨hcalls, hqueue⟩ := Uart.tx_ledger (Uart.txInv_init flags rxBuf txBuf) es
  rw [Uart.txQueue_init] at hqueue
  exact ⟨_, hqueue.symm.trans hcalls⟩

end FpgaLabs.Hal.UartLink
