import FpgaLabs.Hal.Uart

/-! Transmission through the UART driver: a queue between the writes of the
program and the handler, and the interrupts that keep it moving. -/

namespace FpgaLabs.Hal.Uart
open Sync

/-- What a write relies on at `pc`. -/
def WriteOk (s : State) (bytes : List Byte) (ptr : Nat) : WritePc → Prop
  | .store next => next = bufMsk (s.txEnd + 1) ∧ next ≠ s.txStart ∧ ptr < bytes.length
  | .advance next => next = bufMsk (s.txEnd + 1) ∧ next ≠ s.txStart ∧ ptr < bytes.length ∧
      s.txBuf s.txEnd = bytes.getD ptr 0
  | .enable next => next = bufMsk (s.txEnd + 1) ∧ ptr < bytes.length
  | .wait next => next = bufMsk (s.txEnd + 1) ∧ ptr < bytes.length
  | _ => True

/-- The indices are in range, and nothing the handler does spoils a write. -/
structure TxInv (s : Sys) : Prop where
  start : s.sp.txStart < 64
  stop : s.sp.txEnd < 64
  write : ∀ pc bytes ptr block, s.call = .write pc bytes ptr block → WriteOk s.sp bytes ptr pc

theorem TxInv.intro {s : Sys} (hs : s.sp.txStart < 64) (ht : s.sp.txEnd < 64) {pc : WritePc}
    {bytes : List Byte} {ptr : Nat} {block : Bool} (hc : s.call = .write pc bytes ptr block)
    (h : WriteOk s.sp bytes ptr pc) : TxInv s := by
  refine ⟨hs, ht, fun pc' bytes' ptr' block' hc' => ?_⟩
  rw [hc] at hc'
  cases hc'
  exact h

theorem TxInv.other {s : Sys} (hs : s.sp.txStart < 64) (ht : s.sp.txEnd < 64)
    (hc : ∀ pc bytes ptr block, s.call ≠ .write pc bytes ptr block) : TxInv s :=
  ⟨hs, ht, fun pc bytes ptr block h => absurd h (hc pc bytes ptr block)⟩

/-- The handler takes one character from the buffer, or none. -/
theorem irq_txQueue {s : State} (hs : s.txStart < 64) (ht : s.txEnd < 64) (d : Device) :
    (irq s d).txStart < 64 ∧ s.txQueue = txdata s d ++ (irq s d).txQueue := by
  have htx := irq_tx s d
  simp only [State.tx, Prod.mk.injEq] at htx
  obtain ⟨h1, h2, h3, _⟩ := htx
  rw [txdata_eq, State.txQueue, State.txQueue, h1, h2, h3]
  cases hc : txPending d && sends s d with
  | false => exact ⟨hs, rfl⟩
  | true =>
    have hne : s.txStart ≠ s.txEnd := by
      have hsends := (Bool.and_eq_true_iff.mp hc).2
      simpa using (Bool.and_eq_true_iff.mp hsends).1
    refine ⟨bufMsk_lt _, ?_⟩
    rw [if_pos rfl, if_pos rfl, bufMsk_succ, ring_pop hs ht hne]
    rfl

/-- It does not fill a buffer that has room. -/
theorem irq_room {s : State} (hs : s.txStart < 64) (ht : s.txEnd < 64) (d : Device)
    (hroom : bufMsk (s.txEnd + 1) ≠ s.txStart) : bufMsk (s.txEnd + 1) ≠ (irq s d).txStart := by
  obtain ⟨hs', hq⟩ := irq_txQueue hs ht d
  have hend : (irq s d).txEnd = s.txEnd := congrArg (fun t => t.2.1) (irq_tx s d)
  rw [bufMsk_succ] at hroom ⊢
  have hlen := mt (ring_full s.txBuf hs ht).mpr hroom
  have hle := congrArg List.length hq
  rw [List.length_append] at hle
  intro hfull
  have hlen' := (ring_full (irq s d).txBuf hs' ht).mp hfull
  have hlt : s.txQueue.length < 64 := by
    rw [State.txQueue, length_ring]
    exact ringSize_lt (by decide) s.txStart s.txEnd
  rw [← hend] at hlen'
  simp only [State.txQueue] at hle hlt
  omega

theorem writeOk_irq {s : State} (hs : s.txStart < 64) (ht : s.txEnd < 64) (d : Device)
    {bytes : List Byte} {ptr : Nat} {pc : WritePc} (h : WriteOk s bytes ptr pc) :
    WriteOk (irq s d) bytes ptr pc := by
  have hend : (irq s d).txEnd = s.txEnd := congrArg (fun t => t.2.1) (irq_tx s d)
  have hbuf : (irq s d).txBuf = s.txBuf := congrArg (fun t => t.2.2.1) (irq_tx s d)
  cases pc with
  | store next =>
    obtain ⟨hn, hne, hp⟩ := h
    subst hn
    exact ⟨by rw [hend], irq_room hs ht d hne, hp⟩
  | advance next =>
    obtain ⟨hn, hne, hp, hb⟩ := h
    subst hn
    exact ⟨by rw [hend], irq_room hs ht d hne, hp, by rw [hend, hbuf]; exact hb⟩
  | enable next => exact ⟨by rw [hend]; exact h.1, h.2⟩
  | wait next => exact ⟨by rw [hend]; exact h.1, h.2⟩
  | loop => trivial
  | finish => trivial

theorem stepRead_tx (s : State) (pc : ReadPc) (got : List Byte) (len : Nat) (block : Bool) :
    (stepRead s pc got len block).sp.tx = s.tx ∧
      ∀ wpc bytes ptr b, (stepRead s pc got len block).call ≠ .write wpc bytes ptr b := by
  cases pc <;> unfold stepRead <;> simp only
  case copy | loop => split <;> exact ⟨rfl, by simp⟩
  case check =>
    split
    · split <;> exact ⟨rfl, by simp⟩
    · exact ⟨rfl, by simp⟩
  all_goals exact ⟨by trivial, by simp⟩

/-- Any step of a write keeps the invariant, and only the advance of `tx_end`
changes the queue. -/
theorem stepWrite_spec {s : State} {pc : WritePc} {bytes : List Byte} {ptr : Nat} {block : Bool}
    (hs : s.txStart < 64) (ht : s.txEnd < 64) (h : WriteOk s bytes ptr pc) :
    TxInv (stepWrite s pc bytes ptr block) ∧
      s.txQueue ++ queued ⟨s, .write pc bytes ptr block⟩ .run =
        (stepWrite s pc bytes ptr block).sp.txQueue := by
  cases pc with
  | loop =>
    refine ⟨?_, ?_⟩
    · unfold stepWrite
      simp only
      split
      · next hp =>
        split
        · split
          · exact .intro hs ht rfl ⟨rfl, hp⟩
          · exact .intro hs ht rfl trivial
        · next hne => exact .intro hs ht rfl ⟨rfl, hne, hp⟩
      · exact .intro hs ht rfl trivial
    · have hsp : (stepWrite s .loop bytes ptr block).sp = s := by
        unfold stepWrite
        simp only
        split
        · split
          · split <;> rfl
          · rfl
        · rfl
      rw [hsp]
      exact List.append_nil _
  | enable next => exact ⟨.intro hs ht rfl h, List.append_nil _⟩
  | wait next =>
    by_cases hfull : next = s.txStart
    · have hstep : stepWrite s (.wait next) bytes ptr block =
          ⟨s, .write (.wait next) bytes ptr block⟩ := if_pos hfull
      rw [hstep]
      exact ⟨.intro hs ht rfl h, List.append_nil _⟩
    · have hstep : stepWrite s (.wait next) bytes ptr block =
          ⟨s, .write (.store next) bytes ptr block⟩ := if_neg hfull
      rw [hstep]
      exact ⟨.intro hs ht rfl ⟨h.1, hfull, h.2⟩, List.append_nil _⟩
  | store next =>
    obtain ⟨hn, hne, hp⟩ := h
    refine ⟨.intro hs ht rfl ⟨hn, hne, hp, Function.update_self ..⟩, ?_⟩
    show s.txQueue ++ [] = ring 64 (Function.update s.txBuf s.txEnd _) s.txStart s.txEnd
    rw [ring_store hs ht, List.append_nil]
    rfl
  | advance next =>
    obtain ⟨hn, hne, hp, hb⟩ := h
    subst hn
    refine ⟨.intro hs (bufMsk_lt _) rfl trivial, ?_⟩
    show s.txQueue ++ [s.txBuf s.txEnd] = ring 64 s.txBuf s.txStart (bufMsk (s.txEnd + 1))
    rw [bufMsk_succ] at hne ⊢
    exact (ring_advance hs ht hne).symm
  | finish => exact ⟨.other hs ht (by simp [stepWrite]), List.append_nil _⟩

theorem txQueue_congr {s t : State} (h : s.tx = t.tx) : s.txQueue = t.txQueue :=
  congrArg (fun x : Nat × Nat × (Nat → Byte) × BitVec 32 => ring 64 x.2.2.1 x.1 x.2.1) h

theorem tx_step_call {s : Sys} {e : Event} (h : TxInv s)
    (he : (∃ bytes block, e = .write bytes block) ∨ ∃ len block, e = .read len block) :
    TxInv (step s e) ∧ s.sp.txQueue = (step s e).sp.txQueue := by
  rcases step_call (s := s) he with hsame | ⟨_, hsp, ⟨bytes, block, hc⟩ | ⟨len, block, hc⟩⟩
  · rw [hsame]
    exact ⟨h, rfl⟩
  · rw [hsp]
    exact ⟨.intro (by rw [hsp]; exact h.start) (by rw [hsp]; exact h.stop) hc trivial, rfl⟩
  · rw [hsp]
    exact ⟨.other (by rw [hsp]; exact h.start) (by rw [hsp]; exact h.stop) (by simp [hc]), rfl⟩

/-- One step, whatever it is: what is queued is put at the end, what is sent is
taken from the front. -/
theorem tx_step (s : Sys) (e : Event) (h : TxInv s) :
    TxInv (step s e) ∧ s.sp.txQueue ++ queued s e = sent s e ++ (step s e).sp.txQueue := by
  cases e with
  | write bytes block =>
    obtain ⟨hi, hq⟩ := tx_step_call h (.inl ⟨bytes, block, rfl⟩)
    exact ⟨hi, (List.append_nil _).trans hq⟩
  | read len block =>
    obtain ⟨hi, hq⟩ := tx_step_call h (.inr ⟨len, block, rfl⟩)
    exact ⟨hi, (List.append_nil _).trans hq⟩
  | irq d =>
    obtain ⟨hs, ht, hw⟩ := h
    obtain ⟨hs', hq⟩ := irq_txQueue hs ht d
    have hend : (irq s.sp d).txEnd = s.sp.txEnd := congrArg (fun t => t.2.1) (irq_tx s.sp d)
    refine ⟨⟨hs', by rw [← hend] at ht; exact ht, ?_⟩, (List.append_nil _).trans hq⟩
    exact fun pc bytes ptr block hc => writeOk_irq hs ht d (hw pc bytes ptr block hc)
  | run =>
    obtain ⟨hs, ht, hw⟩ := h
    obtain ⟨sp, call⟩ := s
    cases call with
    | idle => exact ⟨⟨hs, ht, hw⟩, List.append_nil _⟩
    | write pc bytes ptr block => exact stepWrite_spec hs ht (hw pc bytes ptr block rfl)
    | read pc got len block =>
      obtain ⟨htx, hcall⟩ := stepRead_tx sp pc got len block
      have hq := txQueue_congr htx
      simp only [State.tx, Prod.mk.injEq] at htx
      obtain ⟨h1, h2, _, _⟩ := htx
      refine ⟨.other (by rw [← h1] at hs; exact hs) (by rw [← h2] at ht; exact ht) hcall, ?_⟩
      exact (List.append_nil _).trans hq.symm

/-- What the write in progress has queued, and what the writes before it returned. -/
theorem soFar_step (s : Sys) (e : Event) (h : TxInv s) :
    s.soFar ++ queued s e = written s e ++ (step s e).soFar := by
  obtain ⟨sp, call⟩ := s
  cases e with
  | write bytes block => cases call <;> simp [Sys.soFar, queued, written, step]
  | read len block => cases call <;> simp [Sys.soFar, queued, written, step]
  | irq d => simp [Sys.soFar, queued, written, step]
  | run =>
    cases call with
    | idle => rfl
    | read pc got len block =>
      obtain ⟨_, hcall⟩ := stepRead_tx sp pc got len block
      have hnone : (step ⟨sp, .read pc got len block⟩ .run).soFar = [] := by
        show (stepRead sp pc got len block).soFar = []
        unfold Sys.soFar
        split
        · next heq => exact absurd heq (hcall _ _ _ _)
        · rfl
      rw [hnone]
      rfl
    | write pc bytes ptr block =>
      have hw := h.write pc bytes ptr block rfl
      cases pc with
      | advance next =>
        obtain ⟨_, _, hp, hb⟩ := hw
        show bytes.take ptr ++ [sp.txBuf sp.txEnd] = bytes.take (ptr + 1)
        rw [hb, List.take_succ_eq_append_getElem hp]
        simp [hp]
      | finish =>
        show bytes.take ptr ++ [] = bytes.take ptr ++ []
        rfl
      | loop =>
        have hkeep : (stepWrite sp .loop bytes ptr block).soFar = bytes.take ptr := by
          unfold stepWrite
          simp only
          split
          · split
            · split <;> rfl
            · rfl
          · rfl
        exact (List.append_nil _).trans hkeep.symm
      | wait next =>
        have hkeep : (stepWrite sp (.wait next) bytes ptr block).soFar = bytes.take ptr := by
          unfold stepWrite
          simp only
          split <;> rfl
        exact (List.append_nil _).trans hkeep.symm
      | enable next => exact List.append_nil _
      | store next => exact List.append_nil _

theorem txInv_init (flags : BitVec 32) (rxBuf txBuf : Nat → Byte) :
    TxInv ⟨.init flags rxBuf txBuf, .idle⟩ :=
  .other (Nat.zero_lt_succ 63) (Nat.zero_lt_succ 63) (by simp)

/-- What the writes have queued, by the program's account and by the device's. -/
theorem tx_ledger {s : Sys} (h : TxInv s) (es : List Event) :
    s.soFar ++ emitted step queued s es = emitted step written s es ++ (run step s es).soFar ∧
      s.sp.txQueue ++ emitted step queued s es =
        emitted step sent s es ++ (run step s es).sp.txQueue := by
  have hall : EachStep step (fun _ _ => True) s es := eachStep_iff.mpr fun _ _ _ _ => trivial
  exact ⟨conservation TxInv (fun s e hi _ => ⟨(tx_step s e hi).1, soFar_step s e hi⟩) h hall,
    conservation TxInv (fun s e hi _ => tx_step s e hi) h hall⟩

theorem txQueue_init (flags : BitVec 32) (rxBuf txBuf : Nat → Byte) :
    (State.init flags rxBuf txBuf).txQueue = [] :=
  (ring_eq_nil (Nat.zero_lt_succ 63) (Nat.zero_lt_succ 63)).mpr rfl

/-- **Transmission.** In every interleaving of calls and interrupts, the bytes the
writes returned as written, with those the write in progress has queued, are the
bytes sent to the device followed by those in the buffer: none is lost,
repeated or overtaken. -/
theorem writes_conserved (flags : BitVec 32) (rxBuf txBuf : Nat → Byte) (es : List Event) :
    let s : Sys := ⟨.init flags rxBuf txBuf, .idle⟩
    emitted step written s es ++ (run step s es).soFar =
      emitted step sent s es ++ (run step s es).sp.txQueue := by
  intro s
  obtain ⟨hcalls, hqueue⟩ := tx_ledger (txInv_init flags rxBuf txBuf) es
  rw [txQueue_init] at hqueue
  exact hcalls.symm.trans hqueue

/-! ## The transmit interrupt -/

/-- The interrupts that empty the buffer are on: of a change of CTS, and, unless
flow control holds it back, of a ready transmitter. -/
def Armed (s : State) : Prop :=
  s.ctrl.getLsbD 10 = true ∧ (s.flags &&& flowControl = 0 → s.ctrl.getLsbD 6 = true)

/-- No write is in progress, or it waits for room. -/
def Call.settled : Call → Bool
  | .write (.wait _) _ _ _ => true
  | .write _ _ _ _ => false
  | _ => true

/-- The device has the control word the driver thinks it has, and a buffer that
waits to be sent has its interrupts on. -/
structure Live (s : Sys) : Prop where
  control : s.sp.control = s.sp.ctrl
  armed : s.call.settled = true → s.sp.txStart ≠ s.sp.txEnd → Armed s.sp

theorem armed_enable (s : State) : Armed (s.enable (controlTrdyMsk ||| controlDctsMsk)) := by
  have hbits : ∀ i, (s.enable (controlTrdyMsk ||| controlDctsMsk)).ctrl.getLsbD i =
      (s.ctrl.getLsbD i || (controlTrdyMsk ||| controlDctsMsk).getLsbD i) := fun i =>
    BitVec.getLsbD_or
  refine ⟨?_, fun _ => ?_⟩
  · rw [hbits, show (controlTrdyMsk ||| controlDctsMsk).getLsbD 10 = true from rfl, Bool.or_true]
  · rw [hbits, show (controlTrdyMsk ||| controlDctsMsk).getLsbD 6 = true from rfl, Bool.or_true]

/-- A change of the control word that clears neither bit. -/
theorem Armed.mono {s t : State} (h : Armed s) (hf : t.flags = s.flags)
    (h10 : s.ctrl.getLsbD 10 = true → t.ctrl.getLsbD 10 = true)
    (h6 : s.ctrl.getLsbD 6 = true → t.ctrl.getLsbD 6 = true) : Armed t :=
  ⟨h10 h.1, fun hfc => h6 (h.2 (by rw [← hf]; exact hfc))⟩

theorem Armed.enable {s : State} (h : Armed s) (msk : BitVec 32) : Armed (s.enable msk) := by
  refine h.mono rfl (fun hb => ?_) (fun hb => ?_) <;>
    · show (s.ctrl ||| msk).getLsbD _ = true
      rw [BitVec.getLsbD_or, hb, Bool.true_or]

theorem Armed.rxirq {s : State} (h : Armed s) (d : Device) : Armed (rxirq s d) := by
  unfold Uart.rxirq
  simp only
  split
  · exact h
  · split
    · refine h.mono rfl (fun hb => ?_) (fun hb => ?_) <;>
        · show (s.ctrl &&& ~~~controlRrdyMsk).getLsbD _ = true
          rw [BitVec.getLsbD_and, hb]
          rfl
    · exact h

theorem Armed.transmit {s : State} (h : Armed s) (d : Device) : Armed (transmit s d) := by
  obtain ⟨_, he⟩ | ⟨_, _, he⟩ | ⟨_, hc, he | he⟩ := transmit_cases s d
  · rw [he]
    exact h
  · rw [he]
    refine h.mono rfl (fun hb => ?_) (fun hb => ?_) <;>
      · show (s.ctrl ||| controlTrdyMsk).getLsbD _ = true
        rw [BitVec.getLsbD_or, hb, Bool.true_or]
  · rw [he]
    exact h
  · rw [he]
    have hfc : s.flags &&& flowControl ≠ 0 := by
      intro h0
      simp [clearToSend, h0] at hc
    refine ⟨?_, fun h0 => absurd h0 hfc⟩
    show (s.ctrl &&& ~~~controlTrdyMsk).getLsbD 10 = true
    rw [BitVec.getLsbD_and, h.1]
    rfl

theorem quiesce_armed {s : State} (h : s.txStart ≠ s.txEnd → Armed s)
    (hne : (quiesce s).txStart ≠ (quiesce s).txEnd) : Armed (quiesce s) := by
  have htx := quiesce_tx s
  simp only [State.tx, Prod.mk.injEq] at htx
  rw [htx.1, htx.2.1] at hne
  rw [quiesce, if_neg hne]
  exact h hne

theorem rxirq_control (s : State) (d : Device) (h : s.control = s.ctrl) :
    (rxirq s d).control = (rxirq s d).ctrl := by
  unfold rxirq
  simp only
  split
  · exact h
  · split
    · rfl
    · exact h

theorem afterRx_live {s : State} (d : Device) :
    (s.control = s.ctrl → (afterRx s d).control = (afterRx s d).ctrl) ∧
      (Armed s → Armed (afterRx s d)) := by
  unfold afterRx
  split
  · exact ⟨rxirq_control s d, fun h => h.rxirq d⟩
  · exact ⟨id, id⟩

theorem irq_control {s : State} (d : Device) (h : s.control = s.ctrl) :
    (irq s d).control = (irq s d).ctrl := by
  have hirq : irq s d = if txPending d then txirq (afterRx s d) d else afterRx s d := rfl
  rw [hirq]
  cases txPending d with
  | false => exact (afterRx_live d).1 h
  | true => rfl

/-- The handler turns the interrupts off only when it has sent everything. -/
theorem irq_armed {s : State} (d : Device) (h : s.txStart ≠ s.txEnd → Armed s)
    (hne : (irq s d).txStart ≠ (irq s d).txEnd) : Armed (irq s d) := by
  have htx := afterRx_tx s d
  simp only [State.tx, Prod.mk.injEq] at htx
  have hrx : (afterRx s d).txStart ≠ (afterRx s d).txEnd → Armed (afterRx s d) := by
    rw [htx.1, htx.2.1]
    exact fun hn => (afterRx_live d).2 (h hn)
  have hirq : irq s d = if txPending d then txirq (afterRx s d) d else afterRx s d := rfl
  rw [hirq] at hne ⊢
  cases hp : txPending d with
  | false =>
    rw [hp, if_neg Bool.false_ne_true] at hne
    exact hrx hne
  | true =>
    rw [hp, if_pos rfl] at hne
    have hsent : (transmit (afterRx s d) d).txStart ≠ (transmit (afterRx s d) d).txEnd →
        Armed (transmit (afterRx s d) d) := by
      intro hne'
      refine (hrx fun heq => hne' ?_).transmit d
      obtain ⟨_, he⟩ | ⟨hn, _⟩ | ⟨hn, _⟩ := transmit_cases (afterRx s d) d
      · rw [he]
        exact heq
      · exact absurd heq hn
      · exact absurd heq hn
    exact (quiesce_armed hsent hne).mono rfl id id

theorem live_read {s : State} {pc : ReadPc} {got : List Byte} {len : Nat} {block : Bool}
    (hctl : s.control = s.ctrl) (h : s.txStart ≠ s.txEnd → Armed s) :
    Live (stepRead s pc got len block) := by
  cases pc <;> unfold stepRead <;> simp only
  case copy | loop => split <;> exact ⟨hctl, fun _ => h⟩
  case check =>
    split
    · split <;> exact ⟨hctl, fun _ => h⟩
    · exact ⟨hctl, fun _ => h⟩
  case load => exact ⟨hctl, fun _ => h⟩
  case advance => exact ⟨hctl, fun _ hne => (h hne).mono rfl id id⟩
  case enable | finish => exact ⟨rfl, fun _ hne => (h hne).enable _⟩

theorem live_write {s : State} {pc : WritePc} {bytes : List Byte} {ptr : Nat} {block : Bool}
    (hctl : s.control = s.ctrl)
    (h : (Call.write pc bytes ptr block).settled = true → s.txStart ≠ s.txEnd → Armed s) :
    Live (stepWrite s pc bytes ptr block) := by
  cases pc <;> unfold stepWrite <;> simp only
  case loop =>
    split
    · split
      · split <;> exact ⟨hctl, by simp [Call.settled]⟩
      · exact ⟨hctl, by simp [Call.settled]⟩
    · exact ⟨hctl, by simp [Call.settled]⟩
  case wait =>
    split
    · exact ⟨hctl, h⟩
    · exact ⟨hctl, by simp [Call.settled]⟩
  case enable | finish => exact ⟨rfl, fun _ _ => armed_enable s⟩
  case store => exact ⟨hctl, by simp [Call.settled]⟩
  case advance => exact ⟨hctl, by simp [Call.settled]⟩

theorem live_call {s : Sys} {e : Event} (h : Live s)
    (he : (∃ bytes block, e = .write bytes block) ∨ ∃ len block, e = .read len block) :
    Live (step s e) := by
  obtain ⟨hctl, harm⟩ := h
  rcases step_call (s := s) he with hsame | ⟨hidle, hsp, ⟨bytes, block, hc⟩ | ⟨len, block, hc⟩⟩
  · rw [hsame]
    exact ⟨hctl, harm⟩
  · exact ⟨by rw [hsp, hctl], by simp [hc, Call.settled]⟩
  · refine ⟨by rw [hsp, hctl], fun _ => ?_⟩
    rw [hsp]
    exact harm (by rw [hidle]; rfl)

theorem live_step (s : Sys) (e : Event) (h : Live s) : Live (step s e) := by
  cases e with
  | write bytes block => exact live_call h (.inl ⟨bytes, block, rfl⟩)
  | read len block => exact live_call h (.inr ⟨len, block, rfl⟩)
  | irq d => exact ⟨irq_control d h.control, fun hset => irq_armed d (h.armed hset)⟩
  | run =>
    obtain ⟨sp, call⟩ := s
    cases call with
    | idle => exact h
    | read pc got len block => exact live_read h.control (h.armed rfl)
    | write pc bytes ptr block => exact live_write h.control h.armed

/-- A write that finds the buffer full goes on as soon as one interrupt of a
transmitter that may send has been served. -/
def Released (s : Sys) : Prop :=
  ∀ next bytes ptr block d, s.call = .write (.wait next) bytes ptr block → next = s.sp.txStart →
    txPending d = true → clearToSend s.sp d = true →
      (step (step s (.irq d)) .run).call = .write (.store next) bytes ptr block

theorem released {s : Sys} (h : TxInv s) : Released s := by
  intro next bytes ptr block d hcall hfull hp hcts
  obtain ⟨sp, call⟩ := s
  subst hcall
  change next = sp.txStart at hfull
  change clearToSend sp d = true at hcts
  subst hfull
  obtain ⟨hn, _⟩ := h.write _ _ _ _ rfl
  have hs : sp.txStart < 64 := h.start
  have ht : sp.txEnd < 64 := h.stop
  have hn' : sp.txStart = bufMsk (sp.txEnd + 1) := hn
  rw [bufMsk_succ, succMod_eq ht] at hn'
  have hne : sp.txStart ≠ sp.txEnd := by
    split at hn' <;> omega
  have hsends : sends sp d = true := by simp [sends, hne, hcts]
  have hstart : (irq sp d).txStart = bufMsk (sp.txStart + 1) := by
    have htx := congrArg (fun t => t.1) (irq_tx sp d)
    simp only [hp, hsends, Bool.and_self, ↓reduceIte] at htx
    exact htx
  have hgo : sp.txStart ≠ (irq sp d).txStart := by
    rw [hstart, bufMsk_succ, succMod_eq hs]
    split <;> omega
  show (stepWrite (irq sp d) (.wait sp.txStart) bytes ptr block).call = _
  have hstep : stepWrite (irq sp d) (.wait sp.txStart) bytes ptr block =
      ⟨irq sp d, .write (.store sp.txStart) bytes ptr block⟩ := if_neg hgo
  rw [hstep]

end FpgaLabs.Hal.Uart
