import FpgaLabs.Scomp.Isa
import FpgaLabs.Scomp.Termination

/-! What ADDI adds. The execute state takes its second operand from the memory
output, which after `decode` is the word at the address nn, and not from the
field nn of the instruction. -/

namespace FpgaLabs.Scomp
open Sync

/-- The field nn, extended with its sign. -/
def immediate (w : Word) : Word := (operand w).signExtend 16

/-- Three edges execute the fetched word as an addition of its immediate. -/
def AddsImmediate (s : Signals StateType) : Prop :=
  (scomp.clockEdge^[3] s).state = .fetch ∧
    (scomp.clockEdge^[3] s).registerAC = s.registerAC + immediate s.memoryDataRegister ∧
    (scomp.clockEdge^[3] s).programCounter = s.programCounter + 1 ∧
    (scomp.clockEdge^[3] s).memory.cells = s.memory.cells

theorem signExtend_ne_00FF : ∀ nn : Addr, nn.signExtend 16 ≠ 0x00FF#16 := by
  decide

/-- The three edges of an ADDI, for every operand word. -/
theorem clockEdge_addi {s : Signals StateType} (hs : s.state = .fetch)
    (hw : s.memoryWrite = false) (hr : s.reset = false) (hop : opcode s.memory.q = 0x0B#8) :
    let t := scomp.clockEdge^[3] s
    let word := s.memory.cells (operand s.memory.q)
    t.programCounter = s.programCounter + 1 ∧ t.memory.cells = s.memory.cells ∧
      (word = 0x00FF#16 → t.state = .executeAddi) ∧
      (word ≠ 0x00FF#16 → t.state = .fetch ∧ t.registerAC = s.registerAC + word) := by
  rw [Function.iterate_succ_apply', clockEdge_fetch_decode hs hw hr, hop]
  by_cases hword : s.memory.cells (operand s.memory.q) = 0x00FF#16 <;>
    simp [Version.clockEdge, scomp, caseState, decodeState, hr, hw, hword,
      Signals.memoryDataRegister]

/-- **ADDI adds its immediate exactly if the memory word at the address nn is
the immediate.** -/
theorem addsImmediate_iff {s : Signals StateType} (hreach : Reachable scomp.step Started s)
    (hs : s.state = .fetch) (hr : s.reset = false) (hop : opcode s.memoryDataRegister = 0x0B#8) :
    AddsImmediate s ↔
      s.memory.cells (operand s.memoryDataRegister) = immediate s.memoryDataRegister := by
  have hw : s.memoryWrite = false :=
    (reachable_pendingWrite hreach).low (by simp [hs]) (by simp [hs])
  obtain ⟨hpc, hcells, hstays, hadds⟩ := clockEdge_addi hs hw hr hop
  constructor
  · rintro ⟨hfetch, hac, -, -⟩
    have hword : s.memory.cells (operand s.memory.q) ≠ 0x00FF#16 := fun hword => by
      rw [hstays hword] at hfetch
      cases hfetch
    rw [(hadds hword).2] at hac
    exact (BitVec.add_right_inj s.registerAC).mp hac
  · intro hword
    have hne : s.memory.cells (operand s.memory.q) ≠ 0x00FF#16 := by
      rw [show s.memory.cells (operand s.memory.q) = _ from hword]
      exact signExtend_ne_00FF _
    obtain ⟨hfetch, hac⟩ := hadds hne
    refine ⟨hfetch, ?_, hpc, hcells⟩
    rw [hac]
    exact congrArg _ hword

/-- The test of the program image: 5555 in the accumulator, then ADDI FF. -/
def addiImage (a : Addr) : Word :=
  if a = 0x00 then 0x0261 else if a = 0x01 then 0x0BFF else if a = 0x61 then 0x5555 else 0

def addiStart : Signals StateType := ⟨.resetPc, 0, 0, 0, false, ⟨addiImage, 0⟩, false⟩

theorem addsImmediate_iff_image :
    let s := run scomp.step addiStart (List.replicate 4 .clock)
    AddsImmediate s ↔ s.memory.cells (operand s.memoryDataRegister) = immediate s.memoryDataRegister :=
  addsImmediate_iff ⟨addiStart, _, ⟨Or.inl rfl, rfl⟩, rfl⟩ (by decide) (by decide) (by decide)

/-- It stays 5555, where the image expects 5554. -/
theorem addi_image_stays :
    let s := run scomp.step addiStart (List.replicate 4 .clock)
    s.state = .fetch ∧ s.memoryDataRegister = 0x0BFF ∧ s.registerAC = 0x5555 ∧
      (scomp.clockEdge^[3] s).state = .fetch ∧ (scomp.clockEdge^[3] s).registerAC = 0x5555 ∧
      ¬ AddsImmediate s := by
  have hac : (scomp.clockEdge^[3] (run scomp.step addiStart (List.replicate 4 .clock))).registerAC =
      0x5555 := by decide
  refine ⟨by decide, by decide, by decide, by decide, hac, fun h => ?_⟩
  have hsum := hac.symm.trans h.2.1
  exact absurd hsum (by decide)

end FpgaLabs.Scomp
