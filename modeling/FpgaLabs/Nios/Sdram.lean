import FpgaLabs.Sync.Memory

/-! The SDRAM controller of the Nios system, `sdram.vhd`, and the SDRAM it drives,
`sdram_test_component.vhd`. -/

namespace FpgaLabs.Nios.Sdram
open Sync

/-! ## The input FIFO -/

/-- A word of the FIFO: `az_wr_n & az_addr & dqm & az_data`. -/
structure Entry where
  rnw : Bool
  addr : BitVec 22
  dqm : BitVec 2
  data : BitVec 16

/-- `sdram_input_efifo_module`. -/
structure Fifo where
  entries : Nat
  rdAddress : Bool
  wrAddress : Bool
  entry0 : Entry
  entry1 : Entry

def Fifo.full (f : Fifo) : Bool := f.entries == 2
def Fifo.empty (f : Fifo) : Bool := f.entries == 0
def Fifo.rdData (f : Fifo) : Entry := if f.rdAddress then f.entry1 else f.entry0

/-- A rising edge of `clk`; `case rdwr`. -/
def Fifo.edge (f : Fifo) (rd wr : Bool) (wrData : Entry) : Fifo where
  entries :=
    if !rd && wr then if !f.full then f.entries + 1 else f.entries
    else if rd && !wr then if !f.empty then f.entries - 1 else f.entries
    else f.entries
  rdAddress := if rd && (wr || !f.empty) then !f.rdAddress else f.rdAddress
  wrAddress := if wr && (rd || !f.full) then !f.wrAddress else f.wrAddress
  entry0 := if wr && !f.full && !f.wrAddress then wrData else f.entry0
  entry1 := if wr && !f.full && f.wrAddress then wrData else f.entry1

/-! ## Commands and addresses -/

/-- `ras_n & cas_n & we_n`, 0 to 7. -/
inductive Code
  | lmr | arf | pre | act | wr | rd | bst | nop
  deriving DecidableEq

structure Cmd where
  csN : Bool
  code : Code
  deriving DecidableEq

/-- `"1111"`. -/
def Cmd.inh : Cmd := ⟨true, .nop⟩

/-- `f_bank`, `active_bank`. -/
def bank (a : BitVec 22) : BitVec 2 := BitVec.ofBool (a.getLsbD 21) ++ BitVec.ofBool (a.getLsbD 8)

def row (a : BitVec 22) : BitVec 12 := a.extractLsb' 9 12
def col (a : BitVec 22) : BitVec 8 := a.extractLsb' 0 8

/-! ## The init FSM -/

/-- `i_state`: `"000"`, `"001"`, `"010"`, `"011"`, `"101"` and `"111"`. -/
inductive InitState
  | start | precharge | refresh | count | done | mode
  deriving DecidableEq

structure Init where
  state : InitState
  next : InitState
  cmd : Cmd
  addr : BitVec 12
  count : Nat
  refs : BitVec 3

/-- The mode register: CAS latency 3. -/
def modeRegister : BitVec 12 := 0x030

def Init.edge (i : Init) (refreshCounter : Nat) : Init :=
  let i := { i with addr := BitVec.allOnes 12 }
  match i.state with
  | .start =>
    { i with
      cmd := .inh, refs := 0, state := if refreshCounter = 0 then .precharge else .start }
  | .precharge => { i with state := .count, cmd := ⟨false, .pre⟩, count := 0, next := .refresh }
  | .refresh =>
    { i with
      cmd := ⟨false, .arf⟩, refs := i.refs + 1, state := .count, count := 3,
      next := if i.refs = 1 then .mode else .refresh }
  | .count =>
    { i with
      cmd := ⟨false, .nop⟩, count := if 1 < i.count then i.count - 1 else i.count,
      state := if 1 < i.count then .count else i.next }
  | .done => i
  | .mode =>
    { i with
      state := .count, cmd := ⟨false, .lmr⟩, addr := modeRegister, count := 4, next := .done }

/-! ## The main FSM -/

/-- `m_state`, from bit 0 to bit 8. -/
inductive MainState
  | idle | act | wait | read | write | drain | precharge | refresh | spin
  deriving DecidableEq

/-- The registers of the main FSM, `m_` and `active_`. -/
structure Main where
  state : MainState
  next : MainState
  cmd : Cmd
  bank : BitVec 2
  addr : BitVec 12
  data : BitVec 16
  dqm : BitVec 2
  count : Nat
  ackRefreshRequest : Bool
  fPop : Bool
  oe : Bool
  activeCsN : Bool
  active : Entry

/-- `csn_match AND rnw_match AND bank_match AND row_match`. -/
def Main.hit (m : Main) (f : Entry) : Bool :=
  m.activeCsN == false && m.active.rnw == f.rnw && Sdram.bank m.active.addr == Sdram.bank f.addr &&
    row m.active.addr == row f.addr

/-- What the main FSM sees of the rest of the controller. -/
structure View where
  f : Entry
  fEmpty : Bool
  initDone : Bool
  refreshRequest : Bool
  init : Init

def Main.pending (m : Main) (v : View) : Bool := m.hit v.f && !v.fEmpty
def Main.fSelect (m : Main) (v : View) : Bool := m.fPop && m.pending v
def Main.csnDecode (m : Main) (v : View) : Bool := if m.fSelect v then false else m.activeCsN

/-- `f_pop <= '1'`, and the word of the FIFO becomes the active one. -/
def Main.load (m : Main) (f : Entry) : Main :=
  { m with fPop := true, activeCsN := false, active := f }

/-- What a column command takes its address and data from. -/
def Main.source (m : Main) (v : View) : Entry := if m.fSelect v then v.f else m.active

def Main.edge (m : Main) (v : View) : Main :=
  let csN := m.csnDecode v
  let r := { m with fPop := false, oe := false }
  match m.state with
  | .idle =>
    if v.initDone then
      let r := { r with
        cmd := if v.refreshRequest then ⟨false, .nop⟩ else .inh, ackRefreshRequest := false }
      if v.refreshRequest then
        { r with state := .precharge, next := .refresh, count := 0, activeCsN := true }
      else if !v.fEmpty then { r.load v.f with state := .act }
      else r
    else { r with addr := v.init.addr, state := .idle, next := .idle, cmd := v.init.cmd }
  | .act =>
    { r with
      state := .wait, cmd := ⟨csN, .act⟩, bank := Sdram.bank m.active.addr,
      addr := row m.active.addr, data := m.active.data, dqm := m.active.dqm, count := 1,
      next := if m.active.rnw then .read else .write }
  | .wait =>
    { r with
      cmd := ⟨if m.next = .refresh then false else csN, .nop⟩,
      count := if 1 < m.count then m.count - 1 else m.count,
      state := if 1 < m.count then .wait else m.next }
  | .read =>
    let r := { r with
      cmd := ⟨csN, .rd⟩, bank := Sdram.bank (m.source v).addr, dqm := (m.source v).dqm,
      addr := 0#4 ++ col (m.source v).addr }
    if m.pending v then
      if v.refreshRequest then { r with state := .wait, next := .idle, count := 2 }
      else r.load v.f
    else { r with cmd := if m.fPop then ⟨csN, .nop⟩ else r.cmd, state := .spin }
  | .write =>
    let r := { r with
      cmd := ⟨csN, .wr⟩, oe := true, data := (m.source v).data, dqm := (m.source v).dqm,
      bank := Sdram.bank (m.source v).addr, addr := 0#4 ++ col (m.source v).addr }
    if m.pending v then
      if v.refreshRequest then { r with state := .wait, next := .idle, count := 1 }
      else r.load v.f
    else
      { r with
        cmd := if m.fPop then ⟨csN, .nop⟩ else r.cmd, oe := !m.fPop, state := .spin }
  | .drain =>
    { r with
      cmd := ⟨csN, .nop⟩, count := if 1 < m.count then m.count - 1 else 0,
      state := if 1 < m.count then .drain else .precharge }
  | .precharge =>
    { r with
      state := .wait, addr := BitVec.allOnes 12,
      cmd := ⟨if v.refreshRequest then false else csN, .pre⟩ }
  | .refresh =>
    { r with
      ackRefreshRequest := true, state := .wait, cmd := ⟨false, .arf⟩, count := 3, next := .idle }
  | .spin =>
    let r := { r with cmd := ⟨csN, .nop⟩ }
    if v.refreshRequest then { r with state := .wait, next := .idle, count := 1 }
    else if !v.fEmpty then
      if m.hit v.f then { r.load v.f with state := if v.f.rnw then .read else .write }
      else { r with state := .drain, next := .idle, count := 1 }
    else r

/-! ## The controller -/

/-- The Avalon side in one clock cycle. `z` is what a data line reads as that
nobody, or everybody, drives. `az_cs` is not used. -/
structure Bus where
  azAddr : BitVec 22
  azBeN : BitVec 2
  azData : BitVec 16
  azRdN : Bool
  azWrN : Bool
  z : BitVec 16

structure Ctl where
  fifo : Fifo
  refreshCounter : Nat
  refreshRequest : Bool
  zaCannotrefresh : Bool
  initDone : Bool
  init : Init
  main : Main
  rdValid0 : Bool
  rdValid1 : Bool
  rdValid2 : Bool
  zaData : BitVec 16
  zaValid : Bool

def Ctl.view (s : Ctl) : View where
  f := s.fifo.rdData
  fEmpty := s.fifo.empty
  initDone := s.initDone
  refreshRequest := s.refreshRequest
  init := s.init

def Ctl.fSelect (s : Ctl) : Bool := s.main.fSelect s.view
def Ctl.zaWaitrequest (s : Ctl) : Bool := s.fifo.full

/-- `module_input`: a request is taken in. -/
def Ctl.accepts (s : Ctl) (b : Bus) : Bool := (!b.azWrN || !b.azRdN) && !s.zaWaitrequest

/-- `module_input1`. -/
def Bus.entry (b : Bus) : Entry := ⟨b.azWrN, b.azAddr, if b.azWrN then 0 else b.azBeN, b.azData⟩

/-- A rising edge of `clk`, with the level of the data lines `zs_dq`. -/
def Ctl.edge (s : Ctl) (b : Bus) (zsDq : BitVec 16) : Ctl where
  fifo := s.fifo.edge s.fSelect (s.accepts b) b.entry
  refreshCounter := if s.refreshCounter = 0 then 781 else s.refreshCounter - 1
  refreshRequest :=
    (s.refreshCounter == 0 || s.refreshRequest) && !s.main.ackRefreshRequest && s.initDone
  zaCannotrefresh := s.refreshCounter == 0 && s.refreshRequest
  initDone := s.initDone || s.init.state == .done
  init := s.init.edge s.refreshCounter
  main := s.main.edge s.view
  rdValid0 := s.main.cmd.code == .rd
  rdValid1 := s.rdValid0
  rdValid2 := s.rdValid1
  zaData := zsDq
  zaValid := s.rdValid2

/-! ## The SDRAM -/

/-- `sdram_test_component`: registers, and the memory of its RAM module. -/
structure Chip where
  latency : BitVec 3
  addrCrb : BitVec 14
  rdValid0 : Bool
  rdValid1 : Bool
  rdValid2 : Bool
  rdAddr0 : BitVec 22
  rdAddr1 : BitVec 22
  rdAddr2 : BitVec 22
  rdMask0 : BitVec 2
  rdMask1 : BitVec 2
  rdMask2 : BitVec 2
  mem : BitVec 22 → BitVec 16

/-- `A_WE_StdLogicVector` for each byte: `old` where the mask is set. -/
def bytes (mask : BitVec 2) (new old : BitVec 16) : BitVec 16 :=
  (if mask.getLsbD 1 then old.extractLsb' 8 8 else new.extractLsb' 8 8) ++
    (if mask.getLsbD 0 then old.extractLsb' 0 8 else new.extractLsb' 0 8)

/-- `index` chooses the stage of a pipe. -/
def Chip.stage {V : Type} (c : Chip) (v0 v1 v2 : V) : V :=
  if c.latency - 1 = 0 then v0 else if c.latency - 1 = 1 then v1 else v2

def Chip.readValid (c : Chip) : Bool := c.stage c.rdValid0 c.rdValid1 c.rdValid2
def Chip.readAddr (c : Chip) : BitVec 22 := c.stage c.rdAddr0 c.rdAddr1 c.rdAddr2
def Chip.readMask (c : Chip) : BitVec 2 := c.stage c.rdMask0 c.rdMask1 c.rdMask2

/-- `CODE` is not `INH`. -/
def Cmd.is (cmd : Cmd) (code : Code) : Bool := !cmd.csN && cmd.code == code

/-- `test_addr`: the open row and the column on the address lines. -/
def Chip.testAddr (c : Chip) (m : Main) : BitVec 22 := c.addrCrb ++ m.addr.extractLsb' 0 8

def Chip.readData (c : Chip) (m : Main) : BitVec 16 :=
  c.mem (if m.cmd.is .wr then c.testAddr m else c.readAddr)

/-- The data lines, driven from both sides. -/
def zsDq (c : Chip) (m : Main) (z : BitVec 16) : BitVec 16 :=
  if m.oe then if c.readValid then z else m.data
  else if c.readValid then bytes c.readMask (c.readData m) z else z

/-- A rising edge of `clk`, with the pins the main FSM drives. -/
def Chip.edge (c : Chip) (m : Main) (z : BitVec 16) : Chip where
  latency := if m.cmd.is .lmr then m.addr.extractLsb' 4 3 else c.latency
  addrCrb :=
    if m.cmd.is .act then
      BitVec.ofBool (m.bank.getLsbD 1) ++ m.addr ++ BitVec.ofBool (m.bank.getLsbD 0)
    else c.addrCrb
  rdValid0 := m.cmd.is .rd
  rdValid1 := c.rdValid0
  rdValid2 := c.rdValid1
  rdAddr0 := c.testAddr m
  rdAddr1 := c.rdAddr0
  rdAddr2 := c.rdAddr1
  rdMask0 := m.dqm
  rdMask1 := c.rdMask0
  rdMask2 := c.rdMask1
  mem :=
    if m.cmd.is .wr then
      Function.update c.mem (c.testAddr m) (bytes m.dqm (zsDq c m z) (c.readData m))
    else c.mem

/-- The controller and its SDRAM. -/
structure Board where
  ctl : Ctl
  chip : Chip

def edge (s : Board) (b : Bus) : Board where
  ctl := s.ctl.edge b (zsDq s.chip s.ctl.main b.z)
  chip := s.chip.edge s.ctl.main b.z

/-- `reset_n = '0'`: what it sets. The SDRAM has no reset, nor have `i_refs`, the
active word and the cells of the FIFO. -/
structure IsReset (s : Ctl) : Prop where
  entries : s.fifo.entries = 0
  rdAddress : s.fifo.rdAddress = false
  wrAddress : s.fifo.wrAddress = false
  refreshCounter : s.refreshCounter = 5000
  refreshRequest : s.refreshRequest = false
  zaCannotrefresh : s.zaCannotrefresh = false
  initDone : s.initDone = false
  initState : s.init.state = .start
  initNext : s.init.next = .start
  initCmd : s.init.cmd = .inh
  initAddr : s.init.addr = BitVec.allOnes 12
  initCount : s.init.count = 0
  state : s.main.state = .idle
  next : s.main.next = .idle
  cmd : s.main.cmd = .inh
  bank : s.main.bank = 0
  addr : s.main.addr = 0
  data : s.main.data = 0
  dqm : s.main.dqm = 0
  count : s.main.count = 0
  ackRefreshRequest : s.main.ackRefreshRequest = false
  fPop : s.main.fPop = false
  oe : s.main.oe = false
  rdValid : s.rdValid0 = false ∧ s.rdValid1 = false ∧ s.rdValid2 = false
  zaData : s.zaData = 0
  zaValid : s.zaValid = false

/-- A reset with every other register at 0. -/
def resetCtl : Ctl where
  fifo := ⟨0, false, false, ⟨false, 0, 0, 0⟩, ⟨false, 0, 0, 0⟩⟩
  refreshCounter := 5000
  refreshRequest := false
  zaCannotrefresh := false
  initDone := false
  init := ⟨.start, .start, .inh, BitVec.allOnes 12, 0, 0⟩
  main := ⟨.idle, .idle, .inh, 0, 0, 0, 0, 0, false, false, false, false, ⟨false, 0, 0, 0⟩⟩
  rdValid0 := false
  rdValid1 := false
  rdValid2 := false
  zaData := 0
  zaValid := false

theorem isReset_resetCtl : IsReset resetCtl := by
  constructor <;> first | rfl | exact ⟨rfl, rfl, rfl⟩

/-- The SDRAM beside it, with the contents `mem`. -/
def resetBoard (mem : BitVec 22 → BitVec 16) : Board :=
  ⟨resetCtl, ⟨0, 0, false, false, false, 0, 0, 0, 0, 0, 0, mem⟩⟩

/-- A clock without a request, one that reads the word at 0, and one that writes
its low byte. -/
def Bus.none : Bus := ⟨0, 0, 0, true, true, 0⟩
def Bus.read : Bus := ⟨0, 0, 0, false, true, 0⟩
def Bus.write : Bus := ⟨0, 0b10, 0xABCD, true, false, 0⟩

end FpgaLabs.Nios.Sdram
