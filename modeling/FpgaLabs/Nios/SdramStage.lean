import FpgaLabs.Nios.Sdram

/-! The stages of the SDRAM controller, with what each relies on: the open row, the
word in hand, and how long ago the last read was. -/

namespace FpgaLabs.Nios.Sdram
open Sync

/-! ## The FIFO as a queue -/

def Fifo.queue (f : Fifo) : List Entry :=
  if f.entries = 0 then []
  else if f.entries = 1 then [f.rdData]
  else [f.rdData, if f.rdAddress then f.entry0 else f.entry1]

/-- The write address is behind the queue, and a read masks no byte. -/
structure FifoOk (f : Fifo) : Prop where
  le : f.entries ≤ 2
  wrAddress : f.wrAddress = (f.rdAddress != (f.entries == 1))
  dqm : ∀ e ∈ f.queue, e.rnw = true → e.dqm = 0

theorem Fifo.queue_of_some {f : Fifo} (h : f.empty = false) :
    ∃ rest, f.queue = f.rdData :: rest := by
  have hne : f.entries ≠ 0 := by simpa [Fifo.empty] using h
  unfold Fifo.queue
  rw [if_neg hne]
  split
  · exact ⟨[], rfl⟩
  · exact ⟨_, rfl⟩

theorem Fifo.empty_iff (f : Fifo) : f.empty = true ↔ f.queue = [] := by
  unfold Fifo.queue Fifo.empty
  by_cases h0 : f.entries = 0
  · simp [h0]
  · rw [if_neg h0]
    split <;> simp [h0]

/-- The head goes with `rd`, the new word comes last. -/
theorem Fifo.queue_edge {f : Fifo} (h : FifoOk f) {rd wr : Bool} (e : Entry)
    (hrd : rd = true → f.empty = false) (hwr : wr = true → f.full = false) :
    (f.edge rd wr e).queue =
      (if rd then f.queue.tail else f.queue) ++ (if wr then [e] else []) ∧
      (f.edge rd wr e).entries ≤ 2 ∧ (f.edge rd wr e).wrAddress =
        ((f.edge rd wr e).rdAddress != ((f.edge rd wr e).entries == 1)) := by
  obtain ⟨hle, hwa, _⟩ := h
  obtain ⟨entries, rda, wra, e0, e1⟩ := f
  simp only at hle hwa
  subst hwa
  have hcases : entries = 0 ∨ entries = 1 ∨ entries = 2 := by omega
  rcases hcases with rfl | rfl | rfl
  · have hrd0 : rd = false := by
      cases rd with
      | false => rfl
      | true => cases hrd rfl
    subst hrd0
    cases wr <;> cases rda <;>
      simp [Fifo.edge, Fifo.queue, Fifo.rdData, Fifo.full, Fifo.empty]
  · cases rd <;> cases wr <;> cases rda <;>
      simp [Fifo.edge, Fifo.queue, Fifo.rdData, Fifo.full, Fifo.empty]
  · have hwr0 : wr = false := by
      cases wr with
      | false => rfl
      | true => cases hwr rfl
    subst hwr0
    cases rd <;> cases rda <;>
      simp [Fifo.edge, Fifo.queue, Fifo.rdData, Fifo.full, Fifo.empty]

theorem FifoOk.edge {f : Fifo} (h : FifoOk f) {rd wr : Bool} (e : Entry)
    (hrd : rd = true → f.empty = false) (hwr : wr = true → f.full = false)
    (he : e.rnw = true → e.dqm = 0) : FifoOk (f.edge rd wr e) := by
  obtain ⟨hq, hle, hwa⟩ := Fifo.queue_edge h e hrd hwr
  refine ⟨hle, hwa, fun x hx => ?_⟩
  rw [hq] at hx
  rcases List.mem_append.mp hx with hx | hx
  · cases rd with
    | false => exact h.dqm x hx
    | true => exact h.dqm x (List.mem_of_mem_tail hx)
  · cases wr with
    | false => cases hx
    | true =>
      rw [List.mem_singleton.mp hx]
      exact he

/-! ## Addresses -/

/-- What an `ACT` opens. -/
def crb (a : BitVec 22) : BitVec 14 :=
  BitVec.ofBool ((bank a).getLsbD 1) ++ row a ++ BitVec.ofBool ((bank a).getLsbD 0)

theorem crb_col (a : BitVec 22) : crb a ++ col a = a := by
  refine BitVec.eq_of_getLsbD_eq fun i hi => ?_
  simp only [crb, col, row, bank, BitVec.getLsbD_append, BitVec.getLsbD_extractLsb',
    BitVec.getLsbD_ofBool]
  by_cases h8 : i < 8
  · simp [h8]
  · by_cases h9 : i = 8
    · subst h9
      simp
    · by_cases h21 : i < 21
      · simp only [h8, show ¬ i - 8 < 1 by omega, show i - 8 - 1 < 12 by omega, if_false, if_true,
          decide_true, Bool.true_and]
        congr 1
        omega
      · obtain rfl : i = 21 := by omega
        simp

/-- A hit is in the open row. -/
theorem crb_hit {m : Main} {f : Entry} (h : m.hit f = true) : crb m.active.addr = crb f.addr := by
  simp only [Main.hit, Bool.and_eq_true, beq_iff_eq] at h
  obtain ⟨⟨_, hbank⟩, hrow⟩ := h
  rw [crb, crb, hbank, hrow]

theorem hit_rnw {m : Main} {f : Entry} (h : m.hit f = true) : m.active.rnw = f.rnw := by
  simp only [Main.hit, Bool.and_eq_true, beq_iff_eq] at h
  exact h.1.1.2

theorem hit_self {m : Main} {f : Entry} (hcs : m.activeCsN = false) (h : f = m.active) :
    m.hit f = true := by
  simp [Main.hit, hcs, h]

theorem col_column (a : BitVec 22) : (0#4 ++ col a).extractLsb' 0 8 = col a := by
  refine BitVec.eq_of_getLsbD_eq fun i hi => ?_
  rw [BitVec.getLsbD_extractLsb', BitVec.getLsbD_append, decide_eq_true hi, Bool.true_and,
    Nat.zero_add, if_pos hi]

/-! ## How long ago a read was -/

/-- No read command in the last `n` clocks, and none of them in the pipes. -/
structure Quiet (n : Nat) (s : Board) : Prop where
  cmd : 1 ≤ n → s.ctl.main.cmd.code ≠ .rd
  stage0 : 2 ≤ n → s.ctl.rdValid0 = false ∧ s.chip.rdValid0 = false
  stage1 : 3 ≤ n → s.ctl.rdValid1 = false ∧ s.chip.rdValid1 = false
  stage2 : 4 ≤ n → s.ctl.rdValid2 = false ∧ s.chip.rdValid2 = false

theorem quiet_zero (s : Board) : Quiet 0 s :=
  ⟨fun h => by omega, fun h => by omega, fun h => by omega, fun h => by omega⟩

theorem Quiet.mono {n k : Nat} {s : Board} (h : Quiet n s) (hk : k ≤ n) : Quiet k s :=
  ⟨fun h1 => h.cmd (by omega), fun h2 => h.stage0 (by omega), fun h3 => h.stage1 (by omega),
    fun h4 => h.stage2 (by omega)⟩

theorem Quiet.next {n : Nat} {s : Board} (h : Quiet n s) (b : Bus)
    (hcmd : (edge s b).ctl.main.cmd.code ≠ .rd) : Quiet (n + 1) (edge s b) := by
  refine ⟨fun _ => hcmd, fun h2 => ?_, fun h3 => h.stage0 (by omega),
    fun h4 => h.stage1 (by omega)⟩
  have hno : (s.ctl.main.cmd.code == Code.rd) = false := beq_false_of_ne (h.cmd (by omega))
  refine ⟨hno, ?_⟩
  show (!s.ctl.main.cmd.csN && (s.ctl.main.cmd.code == Code.rd)) = false
  rw [hno, Bool.and_false]

/-! ## Stages -/

/-- Commands that leave the SDRAM as it is. -/
def Plain (c : Code) : Prop := c = .nop ∨ c = .pre ∨ c = .arf

/-- Before `init_done`. -/
inductive Boot (s : Board) : Prop
  | start {n : Nat} (hstate : s.ctl.init.state = .start) (hcmd : Plain s.ctl.init.cmd.code)
      (hquiet : Quiet n s) (hn : s.ctl.refreshCounter + n = 5001)
  | run (hstate : s.ctl.init.state = .precharge ∧ s.ctl.init.refs = 0 ∨
        s.ctl.init.state = .refresh ∧ (s.ctl.init.refs = 0 ∨ s.ctl.init.refs = 1) ∨
        s.ctl.init.state = .mode ∨
        s.ctl.init.state = .count ∧
          (s.ctl.init.next = .refresh ∧ (s.ctl.init.refs = 0 ∨ s.ctl.init.refs = 1) ∨
            s.ctl.init.next = .mode))
      (hcmd : Plain s.ctl.init.cmd.code) (hquiet : Quiet 4 s)
  | loading (hstate : s.ctl.init.state = .count) (hnext : s.ctl.init.next = .done)
      (hcount : s.ctl.init.count = 4) (hcmd : s.ctl.init.cmd = ⟨false, .lmr⟩)
      (haddr : s.ctl.init.addr = modeRegister) (hquiet : Quiet 4 s)
  | loaded (hstate : s.ctl.init.state = .count) (hnext : s.ctl.init.next = .done)
      (hcount : s.ctl.init.count = 3) (hcmd : s.ctl.init.cmd.code = .nop)
      (hpins : s.ctl.main.cmd = ⟨false, .lmr⟩) (haddr : s.ctl.main.addr = modeRegister)
      (hquiet : Quiet 4 s)
  | ready (hstate : s.ctl.init.state = .done ∨
        s.ctl.init.state = .count ∧ s.ctl.init.next = .done ∧ s.ctl.init.count < 3)
      (hcmd : s.ctl.init.cmd.code = .nop) (hpins : Plain s.ctl.main.cmd.code)
      (hlatency : s.chip.latency = 3) (hquiet : Quiet 4 s)

/-- The row of the active word is open, and the word is for this SDRAM. -/
def Open (s : Board) : Prop :=
  s.ctl.main.activeCsN = false ∧ s.chip.addrCrb = crb s.ctl.main.active.addr

/-- A refresh is asked for, and not yet acknowledged. -/
def Asked (s : Board) : Prop :=
  s.ctl.refreshRequest = true ∧ s.ctl.main.ackRefreshRequest = false

/-- Where the main FSM is after that. -/
inductive Stage (s : Board) : Prop
  | idle (hstate : s.ctl.main.state = .idle) (hpop : s.ctl.main.fPop = false)
      (hcode : Plain s.ctl.main.cmd.code)
      (hack : s.ctl.main.ackRefreshRequest = true → s.ctl.refreshRequest = false)
      (hquiet : Quiet 4 s ∨ Asked s ∧ Quiet 2 s)
  | act (hstate : s.ctl.main.state = .act) (hpop : s.ctl.main.fPop = true)
      (hack : s.ctl.main.ackRefreshRequest = false) (hcode : Plain s.ctl.main.cmd.code)
      (hcs : s.ctl.main.activeCsN = false) (hhead : s.ctl.fifo.empty = false)
      (hactive : s.ctl.fifo.rdData = s.ctl.main.active) (hquiet : Quiet 4 s)
  | opening (hstate : s.ctl.main.state = .wait)
      (hnext : s.ctl.main.next = if s.ctl.main.active.rnw then .read else .write)
      (hpop : s.ctl.main.fPop = false) (hack : s.ctl.main.ackRefreshRequest = false)
      (hcount : s.ctl.main.count = 1) (hcmd : s.ctl.main.cmd = ⟨false, .act⟩)
      (hcs : s.ctl.main.activeCsN = false)
      (hbank : s.ctl.main.bank = bank s.ctl.main.active.addr)
      (haddr : s.ctl.main.addr = row s.ctl.main.active.addr)
      (hdqm : s.ctl.main.active.rnw = true → s.ctl.main.active.dqm = 0) (hquiet : Quiet 4 s)
  | closing (hstate : s.ctl.main.state = .wait) (hnext : s.ctl.main.next = .idle)
      (hpop : s.ctl.main.fPop = false)
      (hcode : Plain s.ctl.main.cmd.code ∨ s.ctl.main.cmd.code = .rd ∨ s.ctl.main.cmd.code = .wr)
      (hcount : s.ctl.main.ackRefreshRequest = true ∧ s.ctl.main.count = 3 ∨
        s.ctl.main.count ≤ 2 ∧
          (s.ctl.main.ackRefreshRequest = true → s.ctl.refreshRequest = false))
      (hquiet : Quiet 3 s ∨
        Asked s ∧ (s.ctl.main.count = 2 ∨ s.ctl.main.count = 1 ∧ Quiet 1 s))
  | closed (hstate : s.ctl.main.state = .wait) (hnext : s.ctl.main.next = .refresh)
      (hpop : s.ctl.main.fPop = false) (hcount : s.ctl.main.count = 0) (hasked : Asked s)
      (hcode : Plain s.ctl.main.cmd.code) (hquiet : Quiet 3 s)
  | read (hstate : s.ctl.main.state = .read) (hack : s.ctl.main.ackRefreshRequest = false)
      (hrnw : s.ctl.main.active.rnw = true) (hdqm : s.ctl.main.active.dqm = 0)
      (hcode : Plain s.ctl.main.cmd.code ∨ s.ctl.main.cmd.code = .rd) (hopen : Open s)
  | write (hstate : s.ctl.main.state = .write) (hack : s.ctl.main.ackRefreshRequest = false)
      (hrnw : s.ctl.main.active.rnw = false)
      (hcode : Plain s.ctl.main.cmd.code ∨ s.ctl.main.cmd.code = .wr) (hopen : Open s)
      (hquiet : Quiet 4 s)
  | drain (hstate : s.ctl.main.state = .drain) (hnext : s.ctl.main.next = .idle)
      (hpop : s.ctl.main.fPop = false) (hack : s.ctl.main.ackRefreshRequest = false)
      (hcount : s.ctl.main.count = 1) (hcode : Plain s.ctl.main.cmd.code) (hquiet : Quiet 1 s)
  | precharge (hstate : s.ctl.main.state = .precharge) (hpop : s.ctl.main.fPop = false)
      (hack : s.ctl.main.ackRefreshRequest = false) (hcount : s.ctl.main.count = 0)
      (hcode : Plain s.ctl.main.cmd.code)
      (hnext : s.ctl.main.next = .idle ∧ Quiet 2 s ∨
        s.ctl.main.next = .refresh ∧ s.ctl.refreshRequest = true ∧ Quiet 3 s)
  | refresh (hstate : s.ctl.main.state = .refresh) (hpop : s.ctl.main.fPop = false)
      (hasked : Asked s) (hcode : Plain s.ctl.main.cmd.code) (hquiet : Quiet 4 s)
  | spin (hstate : s.ctl.main.state = .spin) (hpop : s.ctl.main.fPop = false)
      (hack : s.ctl.main.ackRefreshRequest = false)
      (hcode : Plain s.ctl.main.cmd.code ∨ s.ctl.main.cmd.code = .rd ∨ s.ctl.main.cmd.code = .wr)
      (hopen : Open s) (hquiet : s.ctl.main.active.rnw = true ∨ Quiet 4 s)

/-- What a column command comes with. -/
structure CmdOk (s : Board) : Prop where
  rd : s.ctl.main.cmd.code = .rd → s.ctl.main.cmd.csN = false ∧ s.ctl.main.dqm = 0
  wr : s.ctl.main.cmd.code = .wr → s.ctl.main.cmd.csN = false ∧ s.ctl.main.oe = true ∧ Quiet 4 s
  oe : s.ctl.main.oe = true → s.ctl.main.cmd.code = .wr

/-- The controller knows what is in the pipe of the SDRAM. -/
structure PipeOk (s : Board) : Prop where
  stage0 : s.ctl.rdValid0 = true → s.chip.rdValid0 = true ∧ s.chip.rdMask0 = 0
  stage1 : s.ctl.rdValid1 = true → s.chip.rdValid1 = true ∧ s.chip.rdMask1 = 0
  stage2 : s.ctl.rdValid2 = true → s.chip.rdValid2 = true ∧ s.chip.rdMask2 = 0

/-- Before `init_done` the main FSM passes on what the init FSM says. -/
structure Booting (s : Board) : Prop where
  initDone : s.ctl.initDone = false
  state : s.ctl.main.state = .idle
  fPop : s.ctl.main.fPop = false
  refresh : s.ctl.refreshRequest = false ∧ s.ctl.main.ackRefreshRequest = false
  code : s.ctl.main.cmd.code ≠ .rd
  rdValid : s.ctl.rdValid0 = false ∧ s.ctl.rdValid1 = false ∧ s.ctl.rdValid2 = false
  boot : Boot s

/-- What every clock keeps. -/
structure Inv (s : Board) : Prop where
  fifo : FifoOk s.ctl.fifo
  stage : Booting s ∨ s.ctl.initDone = true ∧ s.chip.latency = 3 ∧ Stage s
  cmd : CmdOk s
  pipe : PipeOk s

/-! ## Words on their way -/

/-- The request in a word. -/
def Entry.op (e : Entry) : MemOp (BitVec 22) (BitVec 2 × BitVec 16) :=
  if e.rnw then .read e.addr else .write e.addr (e.dqm, e.data)

/-- The active word, when it has been popped and its command not yet given. -/
def held (m : Main) : List (MemOp (BitVec 22) (BitVec 2 × BitVec 16)) :=
  match m.state with
  | .wait => if m.next = .read ∨ m.next = .write then [m.active.op] else []
  | .read => if m.fPop then [] else [m.active.op]
  | .write => if m.fPop then [] else [m.active.op]
  | _ => []

/-- The column command at the pins, as the SDRAM takes it. -/
def pins (s : Board) : List (MemOp (BitVec 22) (BitVec 2 × BitVec 16)) :=
  if s.ctl.main.cmd.is .rd then [.read (s.chip.testAddr s.ctl.main)]
  else if s.ctl.main.cmd.is .wr then
    [.write (s.chip.testAddr s.ctl.main) (s.ctl.main.dqm, s.ctl.main.data)]
  else []

/-! ## The main FSM, state by state -/

section
variable {m : Main} {v : View}

theorem edge_boot (h : m.state = .idle) (hi : v.initDone = false) :
    m.edge v = { m with
      fPop := false, oe := false, addr := v.init.addr, state := .idle, next := .idle,
      cmd := v.init.cmd } := by
  simp [Main.edge, h, hi]

theorem edge_idle (h : m.state = .idle) (hi : v.initDone = true) :
    v.refreshRequest = true ∧ m.edge v = { m with
      fPop := false, oe := false, cmd := ⟨false, .nop⟩, ackRefreshRequest := false,
      state := .precharge, next := .refresh, count := 0, activeCsN := true } ∨
    v.refreshRequest = false ∧ v.fEmpty = false ∧ m.edge v = { m with
      fPop := true, oe := false, cmd := .inh, ackRefreshRequest := false, activeCsN := false,
      active := v.f, state := .act } ∨
    v.refreshRequest = false ∧ v.fEmpty = true ∧
      m.edge v = { m with fPop := false, oe := false, cmd := .inh, ackRefreshRequest := false } := by
  cases hr : v.refreshRequest with
  | true => exact .inl ⟨rfl, by simp [Main.edge, h, hi, hr]⟩
  | false =>
    cases he : v.fEmpty with
    | true => exact .inr (.inr ⟨rfl, rfl, by simp [Main.edge, h, hi, hr, he]⟩)
    | false => exact .inr (.inl ⟨rfl, rfl, by simp [Main.edge, h, hi, hr, he, Main.load]⟩)

theorem edge_act (h : m.state = .act) :
    m.edge v = { m with
      fPop := false, oe := false, state := .wait, cmd := ⟨m.csnDecode v, .act⟩,
      bank := bank m.active.addr, addr := row m.active.addr, data := m.active.data,
      dqm := m.active.dqm, count := 1, next := if m.active.rnw then .read else .write } := by
  simp [Main.edge, h]

theorem edge_wait (h : m.state = .wait) :
    m.edge v = { m with
      fPop := false, oe := false,
      cmd := ⟨if m.next = .refresh then false else m.csnDecode v, .nop⟩,
      count := if 1 < m.count then m.count - 1 else m.count,
      state := if 1 < m.count then .wait else m.next } := by
  simp only [Main.edge, h]

/-- The command of a read, and the ways on from there. -/
theorem edge_read (h : m.state = .read) :
    ∃ r : Main, r = { m with
      fPop := false, oe := false, cmd := ⟨m.csnDecode v, .rd⟩,
      bank := bank (m.source v).addr, dqm := (m.source v).dqm,
      addr := 0#4 ++ col (m.source v).addr } ∧
    (m.pending v = true ∧ v.refreshRequest = true ∧
        m.edge v = { r with state := .wait, next := .idle, count := 2 } ∨
      m.pending v = true ∧ v.refreshRequest = false ∧
        m.edge v = { r with fPop := true, activeCsN := false, active := v.f } ∨
      m.pending v = false ∧ m.fPop = false ∧ m.edge v = { r with state := .spin } ∨
      m.pending v = false ∧ m.fPop = true ∧
        m.edge v = { r with cmd := ⟨m.csnDecode v, .nop⟩, state := .spin }) := by
  refine ⟨_, rfl, ?_⟩
  cases hp : m.pending v with
  | true =>
    cases hr : v.refreshRequest with
    | true => exact .inl ⟨rfl, rfl, by simp [Main.edge, h, hp, hr]⟩
    | false => exact .inr (.inl ⟨rfl, rfl, by simp [Main.edge, h, hp, hr, Main.load]⟩)
  | false =>
    cases hf : m.fPop with
    | false => exact .inr (.inr (.inl ⟨rfl, rfl, by simp [Main.edge, h, hp, hf]⟩))
    | true => exact .inr (.inr (.inr ⟨rfl, rfl, by simp [Main.edge, h, hp, hf]⟩))

/-- The same of a write. -/
theorem edge_write (h : m.state = .write) :
    ∃ r : Main, r = { m with
      fPop := false, oe := true, cmd := ⟨m.csnDecode v, .wr⟩, data := (m.source v).data,
      dqm := (m.source v).dqm, bank := bank (m.source v).addr,
      addr := 0#4 ++ col (m.source v).addr } ∧
    (m.pending v = true ∧ v.refreshRequest = true ∧
        m.edge v = { r with state := .wait, next := .idle, count := 1 } ∨
      m.pending v = true ∧ v.refreshRequest = false ∧
        m.edge v = { r with fPop := true, activeCsN := false, active := v.f } ∨
      m.pending v = false ∧ m.fPop = false ∧ m.edge v = { r with state := .spin } ∨
      m.pending v = false ∧ m.fPop = true ∧
        m.edge v = { r with cmd := ⟨m.csnDecode v, .nop⟩, oe := false, state := .spin }) := by
  refine ⟨_, rfl, ?_⟩
  cases hp : m.pending v with
  | true =>
    cases hr : v.refreshRequest with
    | true => exact .inl ⟨rfl, rfl, by simp [Main.edge, h, hp, hr]⟩
    | false => exact .inr (.inl ⟨rfl, rfl, by simp [Main.edge, h, hp, hr, Main.load]⟩)
  | false =>
    cases hf : m.fPop with
    | false => exact .inr (.inr (.inl ⟨rfl, rfl, by simp [Main.edge, h, hp, hf]⟩))
    | true => exact .inr (.inr (.inr ⟨rfl, rfl, by simp [Main.edge, h, hp, hf]⟩))

/-- What the two have in common: the command, and the ways on from there. -/
theorem edge_column (h : m.state = .read ∨ m.state = .write) :
    ((m.edge v).cmd.code = .nop ∨
      ((m.edge v).cmd = ⟨m.csnDecode v, .rd⟩ ∨ (m.edge v).cmd = ⟨m.csnDecode v, .wr⟩) ∧
        (m.edge v).bank = bank (m.source v).addr) ∧
    (m.edge v).ackRefreshRequest = m.ackRefreshRequest ∧
    (m.pending v = true ∧ v.refreshRequest = true ∧
        (m.edge v).state = .wait ∧ (m.edge v).next = .idle ∧ (m.edge v).count ≤ 2 ∨
      m.pending v = true ∧ v.refreshRequest = false ∧
        (m.edge v).state = m.state ∧ (m.edge v).active = v.f ∧ (m.edge v).fPop = true ∨
      m.pending v = false ∧ (m.edge v).state = .spin ∧ (m.edge v).active = m.active) := by
  cases hp : m.pending v with
  | true =>
    cases hr : v.refreshRequest with
    | true => rcases h with h | h <;> simp [Main.edge, h, hp, hr]
    | false => rcases h with h | h <;> simp [Main.edge, h, hp, hr, Main.load]
  | false =>
    cases hf : m.fPop with
    | false => rcases h with h | h <;> simp [Main.edge, h, hp, hf]
    | true => rcases h with h | h <;> simp [Main.edge, h, hp, hf]

theorem edge_drain (h : m.state = .drain) :
    m.edge v = { m with
      fPop := false, oe := false, cmd := ⟨m.csnDecode v, .nop⟩,
      count := if 1 < m.count then m.count - 1 else 0,
      state := if 1 < m.count then .drain else .precharge } := by
  simp only [Main.edge, h]

theorem edge_precharge (h : m.state = .precharge) :
    m.edge v = { m with
      fPop := false, oe := false, state := .wait, addr := BitVec.allOnes 12,
      cmd := ⟨if v.refreshRequest then false else m.csnDecode v, .pre⟩ } := by
  simp only [Main.edge, h]

theorem edge_refresh (h : m.state = .refresh) :
    m.edge v = { m with
      fPop := false, oe := false, ackRefreshRequest := true, state := .wait,
      cmd := ⟨false, .arf⟩, count := 3, next := .idle } := by
  simp only [Main.edge, h]

theorem edge_spin (h : m.state = .spin) :
    v.refreshRequest = true ∧ m.edge v = { m with
      fPop := false, oe := false, cmd := ⟨m.csnDecode v, .nop⟩, state := .wait, next := .idle,
      count := 1 } ∨
    v.refreshRequest = false ∧ v.fEmpty = false ∧ m.hit v.f = true ∧ m.edge v = { m with
      fPop := true, oe := false, cmd := ⟨m.csnDecode v, .nop⟩, activeCsN := false, active := v.f,
      state := if v.f.rnw then .read else .write } ∨
    v.refreshRequest = false ∧ v.fEmpty = false ∧ m.hit v.f = false ∧ m.edge v = { m with
      fPop := false, oe := false, cmd := ⟨m.csnDecode v, .nop⟩, state := .drain, next := .idle,
      count := 1 } ∨
    v.refreshRequest = false ∧ v.fEmpty = true ∧
      m.edge v = { m with fPop := false, oe := false, cmd := ⟨m.csnDecode v, .nop⟩ } := by
  cases hr : v.refreshRequest with
  | true => exact .inl ⟨rfl, by simp [Main.edge, h, hr]⟩
  | false =>
    cases he : v.fEmpty with
    | true => exact .inr (.inr (.inr ⟨rfl, rfl, by simp [Main.edge, h, hr, he]⟩))
    | false =>
      cases hh : m.hit v.f with
      | true => exact .inr (.inl ⟨rfl, rfl, rfl, by simp [Main.edge, h, hr, he, hh, Main.load]⟩)
      | false => exact .inr (.inr (.inl ⟨rfl, rfl, rfl, by simp [Main.edge, h, hr, he, hh]⟩))

end

end FpgaLabs.Nios.Sdram
