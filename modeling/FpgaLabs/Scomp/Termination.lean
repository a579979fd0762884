import FpgaLabs.Scomp.Fetch

/-! Whether SCOMP comes back to `fetch`. ADDI compares the memory output with
FF and assigns the next state in the other branch only, so it repeats while
the output is 00FF: first the operand word, from then on the word at the
program counter. -/

namespace FpgaLabs.Scomp
open Sync

/-- Where runs start: the power-up state of the hardware or the leftmost
literal of `STATE_TYPE`, with the write enable low and any other contents. -/
def Started (s : Signals StateType) : Prop :=
  (s.state = .resetPc ∨ s.state = .executeSubt) ∧ s.memoryWrite = false

theorem Started.pendingWrite {s : Signals StateType} (h : Started s) : PendingWrite s := by
  intro hw
  rw [h.2] at hw
  cases hw

theorem reachable_pendingWrite {s : Signals StateType} (h : Reachable scomp.step Started s) :
    PendingWrite s :=
  h.invariant PendingWrite (fun _ => Started.pendingWrite) step_pendingWrite

/-- Clocking with reset low comes back to `fetch`. -/
def Returns (s : Signals StateType) : Prop := ∃ n, 0 < n ∧ (scomp.clockEdge^[n] s).state = .fetch

/-- An ADDI whose operand word is 00FF, in front of another word 00FF. -/
def AddiTrap (s : Signals StateType) : Prop :=
  match s.state with
  | .fetch =>
    opcode s.memory.q = 0x0B#8 ∧ s.memory.cells (operand s.memory.q) = 0x00FF#16 ∧
      s.memory.cells (s.programCounter + 1) = 0x00FF#16
  | .decode =>
    opcode s.instructionRegister = 0x0B#8 ∧
      s.memory.cells (operand s.instructionRegister) = 0x00FF#16 ∧
      s.memory.cells s.programCounter = 0x00FF#16
  | .executeAddi => s.memory.q = 0x00FF#16 ∧ s.memory.cells s.programCounter = 0x00FF#16
  | _ => False

theorem Returns.of_edge {s : Signals StateType} (h : (scomp.clockEdge s).state = .fetch) :
    Returns s := ⟨1, by decide, h⟩

theorem Returns.of_next {s : Signals StateType} (h : Returns (scomp.clockEdge s)) : Returns s := by
  obtain ⟨n, _, hn⟩ := h
  exact ⟨n + 1, Nat.succ_pos n, hn⟩

theorem clockEdge_reset {s : Signals StateType} (hr : s.reset = false) :
    (scomp.clockEdge s).reset = false := by
  rw [clockEdge_low hr]
  exact (caseState_reset s).trans hr

theorem clockEdge_state {s : Signals StateType} (hr : s.reset = false) :
    (scomp.clockEdge s).state = (caseState s).state := by
  rw [clockEdge_low hr]

/-- The trap is closed: an ADDI in it decodes to itself and repeats for ever. -/
theorem addiTrap_edge {s : Signals StateType} (hr : s.reset = false) (hp : PendingWrite s)
    (h : AddiTrap s) :
    AddiTrap (scomp.clockEdge s) ∧ (scomp.clockEdge s).state ≠ .fetch := by
  rw [clockEdge_low hr]
  unfold AddiTrap at h
  split at h
  case h_1 hs =>
    have hw := hp.low (by simp [hs]) (by simp [hs])
    simpa [AddiTrap, caseState, hs, hw, memoryAddressRegister, Signals.memoryDataRegister] using h
  case h_2 hs =>
    have hw := hp.low (by simp [hs]) (by simp [hs])
    simpa [AddiTrap, caseState, decodeState, hs, hw, h.1, memoryAddressRegister] using h.2
  case h_3 hs =>
    have hw := hp.low (by simp [hs]) (by simp [hs])
    simp [AddiTrap, caseState, hs, hw, h.1, h.2, memoryAddressRegister, Signals.memoryDataRegister]
  case h_4 => exact h.elim

theorem addiTrap_stuck {s : Signals StateType} (hr : s.reset = false) (hp : PendingWrite s)
    (h : AddiTrap s) (n : Nat) : (scomp.clockEdge^[n + 1] s).state ≠ .fetch := by
  induction n generalizing s with
  | zero => exact (addiTrap_edge hr hp h).2
  | succ n ih =>
    rw [Function.iterate_succ_apply]
    exact ih (clockEdge_reset hr) (step_pendingWrite s .clock hp) (addiTrap_edge hr hp h).1

theorem returns_of_caseState {s : Signals StateType} (hr : s.reset = false)
    (h : (caseState s).state = .fetch) : Returns s :=
  Returns.of_edge ((clockEdge_state hr).trans h)

theorem returns_addi {s : Signals StateType} (hs : s.state = .executeAddi) (hr : s.reset = false)
    (hp : PendingWrite s) (ht : ¬ AddiTrap s) : Returns s := by
  by_cases hq : s.memory.q = 0x00FF#16
  · -- one more round, with the word at the program counter
    have hw : s.memoryWrite = false := hp.low (by simp [hs]) (by simp [hs])
    have hpc : s.memory.cells s.programCounter ≠ 0x00FF#16 := by
      intro h
      exact ht (by simp [AddiTrap, hs, hq, h])
    apply Returns.of_next
    apply returns_of_caseState (clockEdge_reset hr)
    rw [clockEdge_low hr]
    simp [caseState, hs, hw, hq, hpc, memoryAddressRegister, Signals.memoryDataRegister]
  · apply returns_of_caseState hr
    simp [caseState, hs, hq, Signals.memoryDataRegister]

theorem returns_store {s : Signals StateType} (hs : s.state = .executeStore)
    (hr : s.reset = false) : Returns s := by
  have h₂ : (scomp.clockEdge s).state = .executeStore2 := by
    rw [clockEdge_state hr]
    simp [caseState, hs]
  have h₃ : (scomp.clockEdge (scomp.clockEdge s)).state = .executeStore3 := by
    rw [clockEdge_state (clockEdge_reset hr)]
    simp [caseState, h₂]
  refine Returns.of_next (Returns.of_next (returns_of_caseState ?_ ?_))
  · exact clockEdge_reset (clockEdge_reset hr)
  · simp [caseState, h₃]

theorem returns_execute {s : Signals StateType} (hf : s.state ≠ .fetch) (hd : s.state ≠ .decode)
    (hr : s.reset = false) (hp : PendingWrite s) (ht : ¬ AddiTrap s) : Returns s := by
  cases hs : s.state with
  | fetch => exact absurd hs hf
  | decode => exact absurd hs hd
  | executeAddi => exact returns_addi hs hr hp ht
  | executeStore => exact returns_store hs hr
  | executeStore2 =>
    have h₃ : (scomp.clockEdge s).state = .executeStore3 := by
      rw [clockEdge_state hr]
      simp [caseState, hs]
    apply Returns.of_next
    apply returns_of_caseState (clockEdge_reset hr)
    simp [caseState, h₃]
  | _ =>
    apply returns_of_caseState hr
    simp [caseState, hs]

theorem decodeState_ne_decode (op : BitVec 8) : decodeState op ≠ .decode := by
  unfold decodeState
  split <;> simp

theorem decodeState_executeAddi {op : BitVec 8} (h : decodeState op = .executeAddi) :
    op = 0x0B#8 := by
  unfold decodeState at h
  split at h <;> simp_all

/-- Going back along the fetch and the decode edge, the trap was set before. -/
theorem addiTrap_of_fetch {s : Signals StateType} (hs : s.state = .fetch) (hr : s.reset = false)
    (hp : PendingWrite s) (h : AddiTrap (scomp.clockEdge s)) : AddiTrap s := by
  have hw : s.memoryWrite = false := hp.low (by simp [hs]) (by simp [hs])
  rw [clockEdge_low hr] at h
  simpa [AddiTrap, caseState, hs, hw, memoryAddressRegister, Signals.memoryDataRegister] using h

theorem addiTrap_of_decode {s : Signals StateType} (hs : s.state = .decode) (hr : s.reset = false)
    (hp : PendingWrite s) (hf : (scomp.clockEdge s).state ≠ .fetch)
    (h : AddiTrap (scomp.clockEdge s)) : AddiTrap s := by
  have hw : s.memoryWrite = false := hp.low (by simp [hs]) (by simp [hs])
  have hn : (scomp.clockEdge s).state = decodeState (opcode s.instructionRegister) := by
    rw [clockEdge_state hr]
    simp [caseState, hs]
  unfold AddiTrap at h
  split at h
  case h_1 h' => exact absurd h' hf
  case h_2 h' => exact absurd (hn.symm.trans h') (decodeState_ne_decode _)
  case h_3 h' =>
    have hop := decodeState_executeAddi (hn.symm.trans h')
    rw [clockEdge_low hr] at h
    simpa [AddiTrap, caseState, hs, hw, hop, memoryAddressRegister] using h
  case h_4 => exact h.elim

theorem returns_decode {s : Signals StateType} (hs : s.state = .decode) (hr : s.reset = false)
    (hp : PendingWrite s) (ht : ¬ AddiTrap s) : Returns s := by
  by_cases hf : (scomp.clockEdge s).state = .fetch
  · exact Returns.of_edge hf
  · have hd : (scomp.clockEdge s).state ≠ .decode := by
      rw [clockEdge_state hr]
      simp only [caseState, hs]
      exact decodeState_ne_decode _
    refine Returns.of_next (returns_execute hf hd (clockEdge_reset hr)
      (step_pendingWrite s .clock hp) ?_)
    exact fun h => ht (addiTrap_of_decode hs hr hp hf h)

theorem returns_fetch {s : Signals StateType} (hs : s.state = .fetch) (hr : s.reset = false)
    (hp : PendingWrite s) (ht : ¬ AddiTrap s) : Returns s := by
  have hd : (scomp.clockEdge s).state = .decode := by
    rw [clockEdge_state hr]
    simp [caseState, hs]
  apply Returns.of_next
  apply returns_decode hd (clockEdge_reset hr) (step_pendingWrite s .clock hp)
  exact fun h => ht (addiTrap_of_fetch hs hr hp h)

/-- **Back to fetch.** A reachable state with reset low comes back to `fetch`
exactly when it is not an ADDI with operand word 00FF before a word 00FF. -/
theorem returns_iff_not_addiTrap {s : Signals StateType} (h : Reachable scomp.step Started s)
    (hr : s.reset = false) : Returns s ↔ ¬ AddiTrap s := by
  have hp := reachable_pendingWrite h
  constructor
  · rintro ⟨n, hn, hf⟩ ht
    obtain ⟨m, rfl⟩ : ∃ m, n = m + 1 := ⟨n - 1, by omega⟩
    exact addiTrap_stuck hr hp ht m hf
  · intro ht
    by_cases hf : s.state = .fetch
    · exact returns_fetch hf hr hp ht
    · by_cases hd : s.state = .decode
      · exact returns_decode hd hr hp ht
      · exact returns_execute hf hd hr hp ht

/-- All words are 00FF, except an ADDI at 00. -/
def trapImage (a : Addr) : Word := if a = 0 then 0x0B05 else 0x00FF

theorem trapImage_reachable :
    Reachable scomp.step Started
      (scomp.step ⟨.resetPc, 0, 0, 0, false, ⟨trapImage, 0⟩, false⟩ .clock) :=
  ⟨⟨.resetPc, 0, 0, 0, false, ⟨trapImage, 0⟩, false⟩, [.clock], ⟨Or.inl rfl, rfl⟩, rfl⟩

theorem addi_hangs :
    ¬ ∀ s, Reachable scomp.step Started s → s.reset = false → Returns s := by
  intro h
  obtain ⟨n, hn, hf⟩ := h _ trapImage_reachable rfl
  obtain ⟨m, rfl⟩ : ∃ m, n = m + 1 := ⟨n - 1, by omega⟩
  refine addiTrap_stuck rfl (reachable_pendingWrite trapImage_reachable) ?_ m hf
  exact ⟨rfl, rfl, rfl⟩

theorem returns_iff_not_addiTrap_trapImage :
    Returns (scomp.step ⟨.resetPc, 0, 0, 0, false, ⟨trapImage, 0⟩, false⟩ .clock) ↔
      ¬ AddiTrap (scomp.step ⟨.resetPc, 0, 0, 0, false, ⟨trapImage, 0⟩, false⟩ .clock) :=
  returns_iff_not_addiTrap trapImage_reachable rfl

end FpgaLabs.Scomp
