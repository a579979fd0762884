import FpgaLabs.Scomp.Machine

/-! The two SCOMP versions in lockstep: HW5/scomp behaves like HW5/scomp - Copy
for as long as it decodes none of the added opcodes. -/

namespace FpgaLabs.Scomp
open Sync

/-- The control state of the extended version with the same name. -/
def extendState : Copy.StateType → StateType
  | .executeSubt => .executeSubt
  | .resetPc => .resetPc
  | .fetch => .fetch
  | .decode => .decode
  | .executeAdd => .executeAdd
  | .executeLoad => .executeLoad
  | .executeStore => .executeStore
  | .executeStore3 => .executeStore3
  | .executeStore2 => .executeStore2
  | .executeJump => .executeJump

/-- The signals of the earlier version, read in the extended one. -/
def extended (t : Signals Copy.StateType) : Signals StateType :=
  { state := extendState t.state
    instructionRegister := t.instructionRegister
    registerAC := t.registerAC
    programCounter := t.programCounter
    memoryWrite := t.memoryWrite
    memory := t.memory
    reset := t.reset }

/-- Opcodes the earlier decoder does not list. -/
def addedOpcodes : List (BitVec 8) := [0x06, 0x07, 0x08, 0x0B]

/-- The event is a clock edge that decodes one of the added opcodes. -/
def DecodesAdded (s : Signals StateType) (e : Event) : Prop :=
  e = .clock ∧ s.reset = false ∧ s.state = .decode ∧ opcode s.instructionRegister ∈ addedOpcodes

theorem decodeState_extended {op : BitVec 8} (h : op ∉ addedOpcodes) :
    decodeState op = extendState (Copy.decodeState op) := by
  simp only [addedOpcodes, List.mem_cons, List.not_mem_nil, or_false, not_or] at h
  unfold decodeState
  split <;> simp_all [Copy.decodeState, extendState]

theorem memoryAddressRegister_extended (t : Signals Copy.StateType) :
    memoryAddressRegister (extended t) = Copy.memoryAddressRegister t := by
  cases hs : t.state <;>
    simp [memoryAddressRegister, Copy.memoryAddressRegister, extended, hs, extendState]

theorem caseState_extended {t : Signals Copy.StateType}
    (h : t.state = .decode → opcode t.instructionRegister ∉ addedOpcodes) :
    caseState (extended t) = extended (Copy.caseState t) := by
  cases hs : t.state with
  | decode =>
    have hd := decodeState_extended (h hs)
    simp [caseState, Copy.caseState, extended, hs, extendState, hd]
  | _ =>
    simp [caseState, Copy.caseState, extended, hs, extendState,
      Signals.memoryDataRegister]

theorem step_extended (s : Signals StateType) (t : Signals Copy.StateType) (e : Event)
    (hst : s = extended t) (ha : ¬ DecodesAdded s e) :
    scomp.step s e = extended (Copy.scomp.step t e) := by
  subst hst
  cases e with
  | reset level => cases level <;> rfl
  | clock =>
    have hbus := memoryAddressRegister_extended t
    cases hr : t.reset with
    | true =>
      simp only [Version.step, Version.clockEdge, scomp, Copy.scomp, hbus]
      simp [extended, hr, extendState]
    | false =>
      have hc : caseState (extended t) = extended (Copy.caseState t) := by
        apply caseState_extended
        intro hs hop
        exact ha ⟨rfl, hr, by simp [extended, hs, extendState], hop⟩
      have hr' : (extended t).reset = false := hr
      simp only [Version.step, Version.clockEdge, scomp, Copy.scomp, hbus, hc, hr, hr']
      rfl

/-- **Lockstep.** Started with the same signals, the two versions agree on all
of them and on the four ports after every event of a run that decodes no added
opcode. -/
theorem versions_lockstep (t : Signals Copy.StateType) (es : List Event)
    (h : EachStep scomp.step (fun s e => ¬ DecodesAdded s e) (extended t) es) :
    run scomp.step (extended t) es = extended (run Copy.scomp.step t es) ∧
      scomp.ports (run scomp.step (extended t) es) =
        Copy.scomp.ports (run Copy.scomp.step t es) := by
  have hrun : run scomp.step (extended t) es = extended (run Copy.scomp.step t es) :=
    run_lockstep (fun s t => s = extended t) step_extended rfl h
  refine ⟨hrun, ?_⟩
  rw [hrun]
  simp only [Version.ports, scomp, Copy.scomp, memoryAddressRegister_extended]
  rfl

/-- A store interrupted by a reset, in both versions. -/
theorem versions_lockstep_store :
    let t : Signals Copy.StateType := ⟨.resetPc, 0, 0, 0, false, ⟨fun _ => 0x0105, 0⟩, false⟩
    let es : List Event := [.clock, .clock, .clock, .clock, .reset true, .clock]
    run scomp.step (extended t) es = extended (run Copy.scomp.step t es) ∧
      scomp.ports (run scomp.step (extended t) es) =
        Copy.scomp.ports (run Copy.scomp.step t es) := by
  apply versions_lockstep
  simp only [EachStep, DecodesAdded]
  decide

end FpgaLabs.Scomp
