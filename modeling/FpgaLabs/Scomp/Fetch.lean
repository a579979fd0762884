import FpgaLabs.Scomp.Isa

/-! Which word SCOMP executes. Every state that leads to `fetch` puts the next
program counter on the address bus, except `decode` on its OTHERS exit: there
the bus still carries the operand field, so the word executed next is the one
the unknown instruction points at. -/

namespace FpgaLabs.Scomp
open Sync

/-- The opcodes the decoder of HW5/scomp lists. -/
def knownOpcodes : List (BitVec 8) := [0x00, 0x01, 0x02, 0x03, 0x05, 0x06, 0x07, 0x08, 0x0B]

theorem decodeState_fetch_iff (op : BitVec 8) : decodeState op = .fetch ↔ op ∉ knownOpcodes := by
  unfold decodeState
  split <;> simp_all [knownOpcodes]

theorem clockEdge_low {s : Signals StateType} (hr : s.reset = false) :
    scomp.clockEdge s =
      { caseState s with
        memory := s.memory.edge s.memoryWrite (memoryAddressRegister s) s.registerAC } := by
  simp [Version.clockEdge, scomp, hr]

theorem caseState_reset (s : Signals StateType) : (caseState s).reset = s.reset := by
  unfold caseState
  split <;> first | rfl | (split <;> rfl)

/-- The write enable is up in one state of a store, or left over by a reset. -/
def PendingWrite (s : Signals StateType) : Prop :=
  s.memoryWrite = true → s.state = .executeStore2 ∨ s.state = .resetPc

theorem PendingWrite.low {s : Signals StateType} (h : PendingWrite s)
    (h₂ : s.state ≠ .executeStore2) (h₀ : s.state ≠ .resetPc) : s.memoryWrite = false := by
  cases hw : s.memoryWrite with
  | false => rfl
  | true => exact absurd (h hw) (by simp [h₂, h₀])

theorem caseState_pendingWrite {s : Signals StateType} (h : PendingWrite s) :
    PendingWrite (caseState s) := by
  intro hw
  unfold caseState at hw ⊢
  split at hw <;> simp_all [PendingWrite]
  split at hw <;> simp_all

theorem step_pendingWrite (s : Signals StateType) (e : Event) (h : PendingWrite s) :
    PendingWrite (scomp.step s e) := by
  cases e with
  | reset level => cases level <;> simp_all [PendingWrite, Version.step, Version.setReset, scomp]
  | clock =>
    cases hr : s.reset with
    | true => simp [PendingWrite, Version.step, Version.clockEdge, scomp, hr]
    | false =>
      rw [Version.step, clockEdge_low hr]
      exact caseState_pendingWrite h

/-- In `fetch` the memory shows the word the program counter points at. -/
def FetchesPc (s : Signals StateType) : Prop :=
  s.state = .fetch → s.memoryDataRegister = s.memory.cells s.programCounter

/-- An unknown opcode is decoded only where the word at its operand address is
the word at the program counter. -/
def SafeDecode (s : Signals StateType) : Prop :=
  s.state = .decode → opcode s.instructionRegister ∉ knownOpcodes →
    s.memory.cells (operand s.instructionRegister) = s.memory.cells s.programCounter

theorem fetchesPc_of_bus {s : Signals StateType} (hr : s.reset = false)
    (hbus : memoryAddressRegister s = (caseState s).programCounter) :
    FetchesPc (scomp.clockEdge s) := by
  rw [clockEdge_low hr]
  intro _
  simp only [Signals.memoryDataRegister, Ram.edge_q, hbus]

theorem fetchesPc_clockEdge {s : Signals StateType} (hr : s.reset = false) (hp : PendingWrite s) :
    FetchesPc (scomp.clockEdge s) ↔ SafeDecode s := by
  by_cases hd : s.state = .decode
  · have hw : s.memoryWrite = false := hp.low (by simp [hd]) (by simp [hd])
    rw [clockEdge_low hr]
    simp [FetchesPc, SafeDecode, caseState, memoryAddressRegister, hd, hw,
      Signals.memoryDataRegister, decodeState_fetch_iff]
  · -- every other state that leads to `fetch` has the next pc on the bus
    have hsafe : SafeDecode s := fun h => absurd h hd
    refine iff_of_true ?_ hsafe
    by_cases hf : (scomp.clockEdge s).state = .fetch
    · apply fetchesPc_of_bus hr
      rw [clockEdge_low hr] at hf
      unfold memoryAddressRegister
      unfold caseState at hf ⊢
      split at hf <;> simp_all
      split at hf <;> simp_all
    · exact fun h => absurd h hf

/-- Reset raised at an arbitrary state, held over `k` edges and released, and
then `n` edges with reset low. -/
def afterReset (s : Signals StateType) (k n : Nat) : Signals StateType :=
  scomp.clockEdge^[n] (scomp.setReset (scomp.clockEdge^[k] (scomp.setReset s true)) false)

theorem held_reset (s : Signals StateType) (k : Nat) :
    (scomp.clockEdge^[k] (scomp.setReset s true)).state = .resetPc := by
  have h : (scomp.clockEdge^[k] (scomp.setReset s true)).state = .resetPc ∧
      (scomp.clockEdge^[k] (scomp.setReset s true)).reset = true := by
    induction k with
    | zero => exact ⟨rfl, rfl⟩
    | succ k ih =>
      rw [Function.iterate_succ_apply', Version.clockEdge, if_pos ih.2]
      exact ⟨rfl, ih.2⟩
  exact h.1

theorem afterReset_zero (s : Signals StateType) (k : Nat) :
    (afterReset s k 0).state = .resetPc ∧ (afterReset s k 0).reset = false :=
  ⟨held_reset s k, rfl⟩

theorem afterReset_succ (s : Signals StateType) (k n : Nat) :
    afterReset s k (n + 1) = scomp.clockEdge (afterReset s k n) :=
  Function.iterate_succ_apply' _ _ _

theorem afterReset_inv (s : Signals StateType) (k n : Nat) :
    (afterReset s k n).reset = false ∧ PendingWrite (afterReset s k n) := by
  induction n with
  | zero => exact ⟨rfl, fun _ => Or.inr (afterReset_zero s k).1⟩
  | succ n ih =>
    rw [afterReset_succ]
    refine ⟨?_, step_pendingWrite _ .clock ih.2⟩
    rw [clockEdge_low ih.1]
    exact (caseState_reset _).trans ih.1

/-- An unknown opcode leaves accumulator and memory alone and moves the pc on,
but the word executed next is the one at its operand address. -/
theorem unknown_opcode {s : Signals StateType} (hs : s.state = .fetch) (hr : s.reset = false)
    (hp : PendingWrite s) (hop : opcode s.memoryDataRegister ∉ knownOpcodes) :
    scomp.clockEdge^[2] s =
      { s with
        instructionRegister := s.memoryDataRegister
        programCounter := s.programCounter + 1
        memory := ⟨s.memory.cells, s.memory.cells (operand s.memoryDataRegister)⟩ } := by
  have hw : s.memoryWrite = false := hp.low (by simp [hs]) (by simp [hs])
  have hd : decodeState (opcode s.memory.q) = s.state := by
    rw [hs]
    exact (decodeState_fetch_iff _).mpr hop
  rw [clockEdge_fetch_decode hs hw hr, hd]
  rfl

/-- **The word executed.** After any reset, the word at the memory output in
`fetch` is `memory[program_counter]` throughout a run exactly when every
unknown opcode decoded in it finds the word at its operand address equal to
the one at the program counter; and an unknown opcode is a no-operation only
up to that word. -/
theorem fetch_executes_pc (s : Signals StateType) (k n : Nat) :
    ((∀ m ≤ n, FetchesPc (afterReset s k m)) ↔ ∀ m < n, SafeDecode (afterReset s k m)) ∧
    ((afterReset s k n).state = .fetch →
      opcode (afterReset s k n).memoryDataRegister ∉ knownOpcodes →
      let e := afterReset s k n
      afterReset s k (n + 2) =
        { e with
          instructionRegister := e.memoryDataRegister
          programCounter := e.programCounter + 1
          memory := ⟨e.memory.cells, e.memory.cells (operand e.memoryDataRegister)⟩ }) := by
  have hstep : ∀ m, FetchesPc (afterReset s k (m + 1)) ↔ SafeDecode (afterReset s k m) := by
    intro m
    rw [afterReset_succ]
    exact fetchesPc_clockEdge (afterReset_inv s k m).1 (afterReset_inv s k m).2
  refine ⟨⟨?_, ?_⟩, ?_⟩
  · intro h m hm
    exact (hstep m).mp (h (m + 1) hm)
  · intro h m hm
    cases m with
    | zero =>
      intro hf
      rw [(afterReset_zero s k).1] at hf
      cases hf
    | succ m => exact (hstep m).mpr (h m hm)
  · intro hf hop
    obtain ⟨hr, hp⟩ := afterReset_inv s k n
    rw [afterReset_succ, afterReset_succ]
    exact unknown_opcode hf hr hp hop

/-- The unknown opcode 04 at address 00 makes the word at 05 the next one. -/
def strayImage (a : Addr) : Word := if a = 0 then 0x0405 else if a = 5 then 0x0207 else 0

theorem fetch_misses_pc :
    ¬ ∀ (s : Signals StateType) (k n : Nat), FetchesPc (afterReset s k n) := by
  intro h
  have hf := h ⟨.resetPc, 0, 0, 0, false, ⟨strayImage, 0⟩, false⟩ 0 3
  exact absurd (hf rfl) (by decide)

end FpgaLabs.Scomp
