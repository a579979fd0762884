import FpgaLabs.Hal.Uart

/-! Reception through the UART driver: a queue between the handler and the reads
of the program, as long as the handler does not come with a full buffer. -/

namespace FpgaLabs.Hal.Uart
open Sync

/-- What a read relies on at `pc`. -/
def ReadOk (s : State) : ReadPc → Prop
  | .load => s.rxStart ≠ s.rxEnd
  | .advance c => s.rxStart ≠ s.rxEnd ∧ s.rxBuf s.rxStart = c
  | _ => True

structure RxInv (s : Sys) : Prop where
  start : s.sp.rxStart < 64
  stop : s.sp.rxEnd < 64
  read : ∀ pc got len block, s.call = .read pc got len block → ReadOk s.sp pc

/-- The handler does not put a character into a full buffer. -/
def NoOverflow (s : Sys) : Event → Prop
  | .irq d => rxPending d = true → rxError d = false → bufMsk (s.sp.rxEnd + 1) ≠ s.sp.rxStart
  | _ => True

instance (s : Sys) : (e : Event) → Decidable (NoOverflow s e)
  | .irq _ => inferInstanceAs (Decidable (_ → _ → _))
  | .write _ _ => .isTrue trivial
  | .read _ _ => .isTrue trivial
  | .run => .isTrue trivial

theorem RxInv.intro {s : Sys} (hs : s.sp.rxStart < 64) (ht : s.sp.rxEnd < 64) {pc : ReadPc}
    {got : List Byte} {len : Nat} {block : Bool} (hc : s.call = .read pc got len block)
    (h : ReadOk s.sp pc) : RxInv s := by
  refine ⟨hs, ht, fun pc' got' len' block' hc' => ?_⟩
  rw [hc] at hc'
  cases hc'
  exact h

theorem RxInv.other {s : Sys} (hs : s.sp.rxStart < 64) (ht : s.sp.rxEnd < 64)
    (hc : ∀ pc got len block, s.call ≠ .read pc got len block) : RxInv s :=
  ⟨hs, ht, fun pc got len block h => absurd h (hc pc got len block)⟩

theorem rxQueue_congr {s t : State} (h : s.rx = t.rx) : s.rxQueue = t.rxQueue :=
  congrArg (fun x : Nat × Nat × (Nat → Byte) => ring 64 x.2.2 x.1 x.2.1) h

theorem irq_rx_lt {s : State} (hs : s.rxStart < 64) (ht : s.rxEnd < 64) (d : Device) :
    (irq s d).rxStart < 64 ∧ (irq s d).rxEnd < 64 := by
  have hrx := irq_rx s d
  cases hp : rxPending d with
  | false =>
    simp only [hp, Bool.false_eq_true, ↓reduceIte, State.rx, Prod.mk.injEq] at hrx
    rw [hrx.1, hrx.2.1]
    exact ⟨hs, ht⟩
  | true =>
    simp only [hp, ↓reduceIte, State.rx, Prod.mk.injEq] at hrx
    rw [hrx.1, hrx.2.1]
    refine ⟨hs, ?_⟩
    split
    · exact ht
    · exact bufMsk_lt _

/-- The handler adds the character it receives exactly if there is room. -/
theorem irq_rxQueue {s : Sys} (h : RxInv s) (d : Device) :
    s.sp.rxQueue ++ received s (.irq d) = (irq s.sp d).rxQueue ↔ NoOverflow s (.irq d) := by
  obtain ⟨hs, ht, _⟩ := h
  have hrx := irq_rx s.sp d
  cases hp : rxPending d with
  | false =>
    rw [hp, if_neg Bool.false_ne_true] at hrx
    have hnone : received s (.irq d) = [] := by simp [received, hp]
    rw [hnone, List.append_nil, rxQueue_congr hrx]
    simp [NoOverflow, hp]
  | true =>
    rw [hp, if_pos rfl] at hrx
    have hq : (irq s.sp d).rxQueue = ring 64 (Function.update s.sp.rxBuf s.sp.rxEnd d.rxdata)
        s.sp.rxStart (if rxError d then s.sp.rxEnd else bufMsk (s.sp.rxEnd + 1)) :=
      congrArg (fun x : Nat × Nat × (Nat → Byte) => ring 64 x.2.2 x.1 x.2.1) hrx
    cases he : rxError d with
    | true =>
      have hnone : received s (.irq d) = [] := by simp [received, hp, he]
      rw [hq, hnone, he, if_pos rfl, ring_store hs ht, List.append_nil]
      simp [NoOverflow, he, State.rxQueue]
    | false =>
      have hsome : received s (.irq d) = [d.rxdata] := by simp [received, hp, he]
      rw [hq, hsome, he, if_neg Bool.false_ne_true, bufMsk_succ]
      simp only [NoOverflow, hp, he, true_implies, bufMsk_succ]
      by_cases hfull : succMod 64 s.sp.rxEnd = s.sp.rxStart
      · rw [ring_overflow hs hfull]
        simp [hfull]
      · rw [ring_push hs ht hfull]
        simp [hfull, State.rxQueue]

theorem readOk_irq {s : Sys} (d : Device) (hno : NoOverflow s (.irq d)) {pc : ReadPc}
    (hr : ReadOk s.sp pc) : ReadOk (irq s.sp d) pc := by
  have hrx := irq_rx s.sp d
  have hkeep : s.sp.rxStart ≠ s.sp.rxEnd → (irq s.sp d).rxStart ≠ (irq s.sp d).rxEnd ∧
      (irq s.sp d).rxBuf (irq s.sp d).rxStart = s.sp.rxBuf s.sp.rxStart := by
    intro hne
    cases hp : rxPending d with
    | false =>
      simp only [hp, Bool.false_eq_true, ↓reduceIte, State.rx, Prod.mk.injEq] at hrx
      rw [hrx.1, hrx.2.1, hrx.2.2]
      exact ⟨hne, rfl⟩
    | true =>
      simp only [hp, ↓reduceIte, State.rx, Prod.mk.injEq] at hrx
      rw [hrx.1, hrx.2.1, hrx.2.2, Function.update_of_ne hne]
      refine ⟨?_, rfl⟩
      cases he : rxError d with
      | true => exact hne
      | false => exact (hno hp he).symm
  cases pc with
  | load => exact (hkeep hr).1
  | advance c => exact ⟨(hkeep hr.1).1, (hkeep hr.1).2.trans hr.2⟩
  | copy | check | enable | loop | finish => trivial

theorem stepWrite_rx (s : State) (pc : WritePc) (bytes : List Byte) (ptr : Nat) (block : Bool) :
    (stepWrite s pc bytes ptr block).sp.rx = s.rx ∧
      ∀ rpc got len b, (stepWrite s pc bytes ptr block).call ≠ .read rpc got len b := by
  cases pc <;> unfold stepWrite <;> simp only
  case loop =>
    split
    · split
      · split <;> exact ⟨rfl, by simp⟩
      · exact ⟨rfl, by simp⟩
    · exact ⟨rfl, by simp⟩
  case wait => split <;> exact ⟨rfl, by simp⟩
  all_goals exact ⟨by trivial, by simp⟩

theorem stepRead_spec {s : State} {pc : ReadPc} {got : List Byte} {len : Nat} {block : Bool}
    (hs : s.rxStart < 64) (ht : s.rxEnd < 64) (h : ReadOk s pc) :
    RxInv (stepRead s pc got len block) ∧
      s.rxQueue = removed ⟨s, .read pc got len block⟩ .run ++
        (stepRead s pc got len block).sp.rxQueue := by
  cases pc with
  | copy =>
    by_cases hc : got.length < len ∧ s.rxStart ≠ s.rxEnd
    · have hstep : stepRead s .copy got len block = ⟨s, .read .load got len block⟩ := if_pos hc
      rw [hstep]
      exact ⟨.intro hs ht rfl hc.2, rfl⟩
    · have hstep : stepRead s .copy got len block = ⟨s, .read .check got len block⟩ := if_neg hc
      rw [hstep]
      exact ⟨.intro hs ht rfl trivial, rfl⟩
  | load => exact ⟨.intro hs ht rfl ⟨h, rfl⟩, rfl⟩
  | advance c =>
    obtain ⟨hne, hb⟩ := h
    refine ⟨.intro (bufMsk_lt _) ht rfl trivial, ?_⟩
    show s.rxQueue = [c] ++ ring 64 s.rxBuf (bufMsk (s.rxStart + 1)) s.rxEnd
    rw [bufMsk_succ, State.rxQueue, ring_pop hs ht hne, hb]
    rfl
  | check =>
    by_cases hc : got = [] ∧ s.rxStart = s.rxEnd
    · have hstep : stepRead s .check got len block =
          if block then ⟨s, .read .enable got len block⟩
          else ⟨s, .read .finish got len block⟩ := if_pos hc
      rw [hstep]
      cases block <;> exact ⟨.intro hs ht rfl trivial, rfl⟩
    · have hstep : stepRead s .check got len block = ⟨s, .read .loop got len block⟩ := if_neg hc
      rw [hstep]
      exact ⟨.intro hs ht rfl trivial, rfl⟩
  | enable => exact ⟨.intro hs ht rfl trivial, rfl⟩
  | loop =>
    by_cases hc : got = [] ∧ len ≠ 0
    · have hstep : stepRead s .loop got len block = ⟨s, .read .copy got len block⟩ := if_pos hc
      rw [hstep]
      exact ⟨.intro hs ht rfl trivial, rfl⟩
    · have hstep : stepRead s .loop got len block = ⟨s, .read .finish got len block⟩ := if_neg hc
      rw [hstep]
      exact ⟨.intro hs ht rfl trivial, rfl⟩
  | finish => exact ⟨.other hs ht (by simp [stepRead]), rfl⟩

theorem rx_step_call {s : Sys} {e : Event} (h : RxInv s)
    (he : (∃ bytes block, e = .write bytes block) ∨ ∃ len block, e = .read len block) :
    RxInv (step s e) ∧ s.sp.rxQueue = (step s e).sp.rxQueue := by
  rcases step_call (s := s) he with hsame | ⟨_, hsp, ⟨bytes, block, hc⟩ | ⟨len, block, hc⟩⟩
  · rw [hsame]
    exact ⟨h, rfl⟩
  · rw [hsp]
    exact ⟨.other (by rw [hsp]; exact h.start) (by rw [hsp]; exact h.stop) (by simp [hc]), rfl⟩
  · rw [hsp]
    exact ⟨.intro (by rw [hsp]; exact h.start) (by rw [hsp]; exact h.stop) hc trivial, rfl⟩

theorem rxInv_step (s : Sys) (e : Event) (h : RxInv s) (hno : NoOverflow s e) :
    RxInv (step s e) := by
  cases e with
  | write bytes block => exact (rx_step_call h (.inl ⟨bytes, block, rfl⟩)).1
  | read len block => exact (rx_step_call h (.inr ⟨len, block, rfl⟩)).1
  | irq d =>
    obtain ⟨hs, ht⟩ := irq_rx_lt h.start h.stop d
    exact ⟨hs, ht, fun pc got len block hc => readOk_irq d hno (h.read pc got len block hc)⟩
  | run =>
    obtain ⟨sp, call⟩ := s
    cases call with
    | idle => exact h
    | read pc got len block =>
      exact (stepRead_spec h.start h.stop (h.read pc got len block rfl)).1
    | write pc bytes ptr block =>
      obtain ⟨hrx, hcall⟩ := stepWrite_rx sp pc bytes ptr block
      simp only [State.rx, Prod.mk.injEq] at hrx
      have hs := h.start
      have ht := h.stop
      exact .other (by rw [← hrx.1] at hs; exact hs) (by rw [← hrx.2.1] at ht; exact ht) hcall

/-- One step, whatever it is, loses nothing exactly if it does not overflow the buffer. -/
theorem rx_step (s : Sys) (e : Event) (h : RxInv s) :
    s.sp.rxQueue ++ received s e = removed s e ++ (step s e).sp.rxQueue ↔ NoOverflow s e := by
  cases e with
  | write bytes block =>
    have hq := (rx_step_call h (.inl ⟨bytes, block, rfl⟩)).2
    exact iff_of_true ((List.append_nil _).trans hq) trivial
  | read len block =>
    have hq := (rx_step_call h (.inr ⟨len, block, rfl⟩)).2
    exact iff_of_true ((List.append_nil _).trans hq) trivial
  | irq d => exact irq_rxQueue h d
  | run =>
    obtain ⟨sp, call⟩ := s
    refine iff_of_true ((List.append_nil _).trans ?_) trivial
    cases call with
    | idle => rfl
    | read pc got len block =>
      exact (stepRead_spec h.start h.stop (h.read pc got len block rfl)).2
    | write pc bytes ptr block => exact (rxQueue_congr (stepWrite_rx sp pc bytes ptr block).1).symm

/-- What the read in progress has, and what the reads before it returned. -/
theorem got_step (s : Sys) (e : Event) : s.got ++ removed s e = returned s e ++ (step s e).got := by
  obtain ⟨sp, call⟩ := s
  cases e with
  | write bytes block => cases call <;> simp [Sys.got, removed, returned, step]
  | read len block => cases call <;> simp [Sys.got, removed, returned, step]
  | irq d => simp [Sys.got, removed, returned, step]
  | run =>
    cases call with
    | idle => rfl
    | write pc bytes ptr block =>
      obtain ⟨_, hcall⟩ := stepWrite_rx sp pc bytes ptr block
      have hnone : (step ⟨sp, .write pc bytes ptr block⟩ .run).got = [] := by
        show (stepWrite sp pc bytes ptr block).got = []
        unfold Sys.got
        split
        · next heq => exact absurd heq (hcall _ _ _ _)
        · rfl
      rw [hnone]
      rfl
    | read pc got len block =>
      have hkeep : ∀ pc', pc = pc' → (∀ c, pc' ≠ .advance c) → pc' ≠ .finish →
          (stepRead sp pc got len block).got = got := by
        rintro _ rfl hadv hfin
        cases pc <;> unfold stepRead <;> simp only
        case advance c => exact absurd rfl (hadv c)
        case finish => exact absurd rfl hfin
        case copy | loop => split <;> rfl
        case check =>
          split
          · split <;> rfl
          · rfl
        all_goals rfl
      cases pc with
      | advance c => rfl
      | finish => rfl
      | copy | load | check | enable | loop =>
        exact (List.append_nil _).trans (hkeep _ rfl (by simp) (by simp)).symm

/-- What the reads have removed is what they returned and what the read in progress has. -/
theorem got_ledger (s : Sys) (es : List Event) :
    s.got ++ emitted step removed s es = emitted step returned s es ++ (run step s es).got :=
  conservation (fun _ => True) (fun s e _ _ => ⟨trivial, got_step s e⟩) trivial
    (eachStep_iff.mpr fun _ _ _ _ => trivial : EachStep step (fun _ _ => True) s es)

theorem rxInv_init (flags : BitVec 32) (rxBuf txBuf : Nat → Byte) :
    RxInv ⟨.init flags rxBuf txBuf, .idle⟩ :=
  .other (Nat.zero_lt_succ 63) (Nat.zero_lt_succ 63) (by simp)

theorem rxQueue_init (flags : BitVec 32) (rxBuf txBuf : Nat → Byte) :
    (State.init flags rxBuf txBuf).rxQueue = [] :=
  (ring_eq_nil (Nat.zero_lt_succ 63) (Nat.zero_lt_succ 63)).mpr rfl

/-- **Reception.** The bytes received without error are, at every point of a run,
those the reads returned, those the read in progress has and those in the
buffer, if and only if no interrupt of the run comes with a character while the
buffer is full. The handler does not test for that. -/
theorem reads_conserved_iff (flags : BitVec 32) (rxBuf txBuf : Nat → Byte) (es : List Event) :
    let s : Sys := ⟨.init flags rxBuf txBuf, .idle⟩
    (∀ p, p <+: es → emitted step received s p =
        emitted step returned s p ++ (run step s p).got ++ (run step s p).sp.rxQueue) ↔
      EachStep step NoOverflow s es := by
  intro s
  rw [← conservation_iff RxInv rxInv_step rx_step (rxInv_init flags rxBuf txBuf), rxQueue_init]
  refine forall_congr' fun p => imp_congr_right fun _ => ?_
  have hcalls := got_ledger s p
  have hnone : s.got = [] := rfl
  rw [hnone, List.nil_append] at hcalls
  rw [List.nil_append, hcalls]

end FpgaLabs.Hal.Uart
