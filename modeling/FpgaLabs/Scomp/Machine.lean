import FpgaLabs.Sync.Ram
import FpgaLabs.Sync.Run

/-! The SCOMP processor of HW5: `scomp/scomp.vhd` and the earlier version in
`scomp - Copy/scomp.vhd`. Both files share the entity, the memory and the
asynchronous reset; they differ in `STATE_TYPE`, the decoder, the execute
states and the address multiplexer, which are a `Version` here. -/

namespace FpgaLabs.Scomp
open Sync

abbrev Word := BitVec 16
abbrev Addr := BitVec 8

/-- `w(15 DOWNTO 8)`. -/
def opcode (w : Word) : BitVec 8 := w.extractLsb' 8 8

/-- `w(7 DOWNTO 0)`. -/
def operand (w : Word) : Addr := w.extractLsb' 0 8

/-- The signals of architecture `a`, with the altsyncram and the reset input.
`memory_data_register` is the output of the memory. -/
structure Signals (St : Type) where
  state : St
  instructionRegister : Word
  registerAC : Word
  programCounter : Addr
  memoryWrite : Bool
  memory : Ram Addr Word
  reset : Bool

def Signals.memoryDataRegister {St : Type} (s : Signals St) : Word := s.memory.q

/-- What one source file says: the state entered by reset, the `CASE state`
of the clocked process, and the selection of `memory_address_register`. -/
structure Version (St : Type) where
  resetPc : St
  caseState : Signals St → Signals St
  memoryAddressRegister : Signals St → Addr

inductive Event
  | clock
  | reset (level : Bool)
  deriving DecidableEq, Repr

/-- A rising clock edge. The memory is clocked at every edge, also under reset,
with the values its ports had before the edge. -/
def Version.clockEdge {St : Type} (v : Version St) (s : Signals St) : Signals St :=
  let p := if s.reset then { s with state := v.resetPc } else v.caseState s
  { p with memory := s.memory.edge s.memoryWrite (v.memoryAddressRegister s) s.registerAC }

/-- The process is sensitive to `clock` and `reset`: raising reset forces the
state at once, and nothing else; lowering it changes nothing. -/
def Version.setReset {St : Type} (v : Version St) (s : Signals St) (level : Bool) : Signals St :=
  if level then { s with reset := true, state := v.resetPc } else { s with reset := false }

def Version.step {St : Type} (v : Version St) (s : Signals St) : Event → Signals St
  | .clock => v.clockEdge s
  | .reset level => v.setReset s level

/-- The four output ports. -/
def Version.ports {St : Type} (v : Version St) (s : Signals St) : Addr × Word × Word × Addr :=
  (s.programCounter, s.registerAC, s.memoryDataRegister, v.memoryAddressRegister s)

/-! ## HW5/scomp -/

inductive StateType
  | executeSubt | executeXor | executeOr | executeAnd | executeAddi
  | resetPc | fetch | decode | executeAdd | executeLoad
  | executeStore | executeStore3 | executeStore2 | executeJump
  deriving DecidableEq, Repr

/-- `CASE instruction_register( 15 DOWNTO 8 )`. -/
def decodeState (op : BitVec 8) : StateType :=
  match op with
  | 0x00#8 => .executeAdd
  | 0x01#8 => .executeStore
  | 0x02#8 => .executeLoad
  | 0x03#8 => .executeJump
  | 0x05#8 => .executeSubt
  | 0x06#8 => .executeXor
  | 0x07#8 => .executeOr
  | 0x08#8 => .executeAnd
  | 0x0B#8 => .executeAddi
  | _ => .fetch

def caseState (s : Signals StateType) : Signals StateType :=
  match s.state with
  | .resetPc =>
    { s with programCounter := 0, registerAC := 0, memoryWrite := false, state := .fetch }
  | .fetch =>
    { s with instructionRegister := s.memoryDataRegister, programCounter := s.programCounter + 1,
             memoryWrite := false, state := .decode }
  | .decode => { s with state := decodeState (opcode s.instructionRegister) }
  | .executeSubt => { s with registerAC := s.registerAC - s.memoryDataRegister, state := .fetch }
  | .executeXor => { s with registerAC := s.registerAC ^^^ s.memoryDataRegister, state := .fetch }
  | .executeOr => { s with registerAC := s.registerAC ||| s.memoryDataRegister, state := .fetch }
  | .executeAnd => { s with registerAC := s.registerAC &&& s.memoryDataRegister, state := .fetch }
  | .executeAddi =>
    -- `=` of std_logic_unsigned extends the shorter side with zeros; the
    -- `state <= fetch` stands inside the ELSE branch
    if s.memoryDataRegister = (0xFF#8).setWidth 16 then { s with registerAC := s.registerAC - 1 }
    else { s with registerAC := s.registerAC + s.memoryDataRegister, state := .fetch }
  | .executeAdd => { s with registerAC := s.registerAC + s.memoryDataRegister, state := .fetch }
  | .executeStore => { s with memoryWrite := true, state := .executeStore2 }
  | .executeStore2 => { s with memoryWrite := false, state := .executeStore3 }
  | .executeStore3 => { s with state := .fetch }
  | .executeLoad => { s with registerAC := s.memoryDataRegister, state := .fetch }
  | .executeJump =>
    { s with programCounter := operand s.instructionRegister, state := .fetch }

/-- `WITH state SELECT memory_address_register <= ...`. -/
def memoryAddressRegister (s : Signals StateType) : Addr :=
  match s.state with
  | .resetPc => 0
  | .fetch => s.programCounter
  | .decode => operand s.instructionRegister
  | .executeAdd => s.programCounter
  | .executeSubt => s.programCounter
  | .executeXor => s.programCounter
  | .executeOr => s.programCounter
  | .executeAnd => s.programCounter
  | .executeAddi => s.programCounter
  | .executeStore => operand s.instructionRegister
  | .executeStore2 => operand s.instructionRegister
  | .executeStore3 => s.programCounter
  | .executeLoad => s.programCounter
  | .executeJump => operand s.instructionRegister

def scomp : Version StateType := ⟨.resetPc, caseState, memoryAddressRegister⟩

/-! ## HW5/scomp - Copy -/

namespace Copy

inductive StateType
  | executeSubt | resetPc | fetch | decode | executeAdd | executeLoad
  | executeStore | executeStore3 | executeStore2 | executeJump
  deriving DecidableEq, Repr

def decodeState (op : BitVec 8) : StateType :=
  match op with
  | 0x00#8 => .executeAdd
  | 0x01#8 => .executeStore
  | 0x02#8 => .executeLoad
  | 0x03#8 => .executeJump
  | 0x05#8 => .executeSubt
  | _ => .fetch

def caseState (s : Signals StateType) : Signals StateType :=
  match s.state with
  | .resetPc =>
    { s with programCounter := 0, registerAC := 0, memoryWrite := false, state := .fetch }
  | .fetch =>
    { s with instructionRegister := s.memoryDataRegister, programCounter := s.programCounter + 1,
             memoryWrite := false, state := .decode }
  | .decode => { s with state := decodeState (opcode s.instructionRegister) }
  | .executeSubt => { s with registerAC := s.registerAC - s.memoryDataRegister, state := .fetch }
  | .executeAdd => { s with registerAC := s.registerAC + s.memoryDataRegister, state := .fetch }
  | .executeStore => { s with memoryWrite := true, state := .executeStore2 }
  | .executeStore2 => { s with memoryWrite := false, state := .executeStore3 }
  | .executeStore3 => { s with state := .fetch }
  | .executeLoad => { s with registerAC := s.memoryDataRegister, state := .fetch }
  | .executeJump =>
    { s with programCounter := operand s.instructionRegister, state := .fetch }

def memoryAddressRegister (s : Signals StateType) : Addr :=
  match s.state with
  | .resetPc => 0
  | .fetch => s.programCounter
  | .decode => operand s.instructionRegister
  | .executeAdd => s.programCounter
  | .executeSubt => s.programCounter
  | .executeStore => operand s.instructionRegister
  | .executeStore2 => operand s.instructionRegister
  | .executeStore3 => s.programCounter
  | .executeLoad => s.programCounter
  | .executeJump => operand s.instructionRegister

def scomp : Version StateType := ⟨.resetPc, caseState, memoryAddressRegister⟩

end Copy

end FpgaLabs.Scomp
