import FpgaLabs.Scomp.Machine
import FpgaLabs.Sync.Refine

/-! SCOMP against its instruction set: the instruction-level machine, and the
proof that the clocked design of HW5/scomp runs it. -/

namespace FpgaLabs.Scomp
open Sync

/-- The instruction-level machine. -/
structure Isa where
  pc : Addr
  ac : Word
  m : Addr → Word

/-- One instruction; `none` for an opcode outside the eight of the base set. -/
def Isa.exec (s : Isa) : Option Isa :=
  let w := s.m s.pc
  let a := operand w
  let next := s.pc + 1
  match opcode w with
  | 0x00#8 => some { s with pc := next, ac := s.ac + s.m a }
  | 0x01#8 => some { s with pc := next, m := Function.update s.m a s.ac }
  | 0x02#8 => some { s with pc := next, ac := s.m a }
  | 0x03#8 => some { s with pc := a }
  | 0x05#8 => some { s with pc := next, ac := s.ac - s.m a }
  | 0x06#8 => some { s with pc := next, ac := s.ac ^^^ s.m a }
  | 0x07#8 => some { s with pc := next, ac := s.ac ||| s.m a }
  | 0x08#8 => some { s with pc := next, ac := s.ac &&& s.m a }
  | _ => none

/-- Clock edges taken by the next instruction: five for a store, else three. -/
def Isa.edges (s : Isa) : Nat := if opcode (s.m s.pc) = 0x01#8 then 5 else 3

/-- What the hardware shows of the instruction-level machine. -/
def abs (s : Signals StateType) : Isa := ⟨s.programCounter, s.registerAC, s.memory.cells⟩

/-- An instruction boundary: the word at the memory output is the one the
program counter points at, and no write is pending. -/
structure FetchReady (s : Signals StateType) : Prop where
  state : s.state = .fetch
  memoryWrite : s.memoryWrite = false
  reset : s.reset = false
  q : s.memory.q = s.memory.cells s.programCounter

/-- The fetch and the decode edge, whatever word the memory shows. -/
theorem clockEdge_fetch_decode {s : Signals StateType} (hs : s.state = .fetch)
    (hw : s.memoryWrite = false) (hr : s.reset = false) :
    scomp.clockEdge^[2] s =
      { s with
        state := decodeState (opcode s.memory.q)
        instructionRegister := s.memory.q
        programCounter := s.programCounter + 1
        memory := ⟨s.memory.cells, s.memory.cells (operand s.memory.q)⟩ } := by
  obtain ⟨st, ir, ac, pc, mw, ⟨cells, q⟩, rst⟩ := s
  simp only at hs hw hr
  subst hs hw hr
  rfl

/-- A store is the only instruction of five edges: address and data stay on
the ports while the write enable goes up and down. -/
theorem exec_store {s : Signals StateType} (hs : FetchReady s)
    (hop : opcode (s.memory.cells s.programCounter) = 0x01#8) :
    FetchReady (scomp.clockEdge^[5] s) ∧
      abs (scomp.clockEdge^[5] s) =
        { abs s with
          pc := s.programCounter + 1
          m := Function.update s.memory.cells (operand (s.memory.cells s.programCounter))
            s.registerAC } := by
  have h2 := clockEdge_fetch_decode hs.state hs.memoryWrite hs.reset
  rw [hs.q, hop] at h2
  have h5 : scomp.clockEdge^[5] s = scomp.clockEdge^[3] (scomp.clockEdge^[2] s) :=
    Function.iterate_add_apply _ 3 2 s
  rw [h5, h2]
  obtain ⟨st, ir, ac, pc, mw, ⟨cells, q⟩, rst⟩ := s
  obtain ⟨hst, hmw, hrst, hq⟩ := hs
  simp only at hst hmw hrst hq
  subst hst hmw hrst hq
  exact ⟨⟨rfl, rfl, rfl, rfl⟩, rfl⟩

theorem exec_clocked {s : Signals StateType} {t : Isa} (hs : FetchReady s)
    (h : (abs s).exec = some t) :
    FetchReady (scomp.clockEdge^[(abs s).edges] s) ∧
      abs (scomp.clockEdge^[(abs s).edges] s) = t := by
  by_cases hstore : opcode (s.memory.cells s.programCounter) = 0x01#8
  · have he : (abs s).edges = 5 := if_pos hstore
    have ht := h
    simp only [abs, Isa.exec, hstore, Option.some.injEq] at ht
    rw [he, ← ht]
    exact exec_store hs hstore
  · have he : (abs s).edges = 3 := if_neg hstore
    have h2 := clockEdge_fetch_decode hs.state hs.memoryWrite hs.reset
    rw [he, Function.iterate_succ_apply', h2, hs.q]
    obtain ⟨st, ir, ac, pc, mw, ⟨cells, q⟩, rst⟩ := s
    obtain ⟨hst, hmw, hrst, hq⟩ := hs
    simp only at hst hmw hrst hq hstore
    subst hst hmw hrst hq
    simp only [abs, Isa.exec] at h
    -- the third edge executes; each of these states has the next pc on the bus
    split at h <;> rename_i hop
    case h_2 => exact absurd hop hstore
    case h_9 => simp at h
    all_goals
      simp only [Option.some.injEq] at h
      simp only [← h, hop]
      exact ⟨⟨rfl, rfl, rfl, rfl⟩, rfl⟩

/-- **SCOMP runs its instruction set.** From `reset_pc`, one edge and then three
edges for each instruction, five for each store, lead to the state that the
first `n` instructions lead to, for every memory image whose first `n`
executed instructions have one of the eight opcodes. -/
theorem scomp_refines_isa (s : Signals StateType) (n : Nat) (t : Isa)
    (hs : s.state = .resetPc) (hw : s.memoryWrite = false) (hr : s.reset = false)
    (h : runN Isa.exec n ⟨0, 0, s.memory.cells⟩ = some t) :
    let e := scomp.clockEdge^[1 + totalCost Isa.exec Isa.edges n ⟨0, 0, s.memory.cells⟩] s
    e.state = .fetch ∧ e.memoryWrite = false ∧ e.programCounter = t.pc ∧ e.registerAC = t.ac ∧
      e.memory.cells = t.m ∧ e.memoryDataRegister = e.memory.cells e.programCounter := by
  have hstart : FetchReady (scomp.clockEdge s) ∧ abs (scomp.clockEdge s) = ⟨0, 0, s.memory.cells⟩ := by
    obtain ⟨st, ir, ac, pc, mw, m, rst⟩ := s
    simp only at hs hw hr
    subst hs hw hr
    exact ⟨⟨rfl, rfl, rfl, rfl⟩, rfl⟩
  rw [← hstart.2] at h ⊢
  obtain ⟨hf, ha⟩ := simulation FetchReady (fun c a => exec_clocked) hstart.1 h
  simp only [Nat.add_comm 1, Function.iterate_succ_apply]
  refine ⟨hf.state, hf.memoryWrite, ?_, ?_, ?_, hf.q⟩
  · exact congrArg Isa.pc ha
  · exact congrArg Isa.ac ha
  · exact congrArg Isa.m ha

/-- A program whose store at 01 overwrites the instruction at 02. -/
def patchImage (a : Addr) : Word :=
  if a = 0 then 0x0205 else if a = 1 then 0x0102 else if a = 5 then 0x0207
  else if a = 7 then 0x1234 else 0

theorem scomp_refines_isa_patch :
    (scomp.clockEdge^[1 + totalCost Isa.exec Isa.edges 3 ⟨0, 0, patchImage⟩]
      ⟨.resetPc, 0, 0x7777, 9, false, ⟨patchImage, 0⟩, false⟩).registerAC = 0x1234 :=
  (scomp_refines_isa ⟨.resetPc, 0, 0x7777, 9, false, ⟨patchImage, 0⟩, false⟩ 3
    ⟨3, 0x1234, Function.update patchImage 2 0x0207⟩ rfl rfl rfl rfl).2.2.2.1

end FpgaLabs.Scomp
