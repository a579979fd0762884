import FpgaLabs.Nios.SdramInv

/-! What the SDRAM asks of its controller: the power-up sequence, and the times
between commands of `nios32.ptf` in clocks of 20 ns (`t_rp` and `t_rcd` 20 ns,
`t_rfc` 70 ns, `t_mrd` 3 clocks, `t_wr` 14 ns, `powerup_delay` 100 us and two
`init_refresh_commands`). -/

namespace FpgaLabs.Nios.Sdram
open Sync

/-- The row, as the commands so far leave it. -/
inductive Row
  | unknown | closed | opened (bank : BitVec 2)
  deriving DecidableEq

/-- A watch on the pins: how far back the last command of a kind is, seen from the
next command. -/
structure Watch where
  clock : Nat
  row : Row
  pre : Nat
  act : Nat
  arf : Nat
  lmr : Nat
  wr : Nat
  refs : Nat
  set : Bool

/-- No command has been given yet. -/
def powerUp : Watch := ⟨0, .unknown, 4, 4, 4, 4, 4, 0, false⟩

def age (seen : Bool) (n : Nat) : Nat := if seen then 1 else n + 1

def Watch.step (w : Watch) (cmd : Cmd) (bank : BitVec 2) : Watch where
  clock := w.clock + 1
  row := if cmd.is .pre then .closed else if cmd.is .act then .opened bank else w.row
  pre := age (cmd.is .pre) w.pre
  act := age (cmd.is .act) w.act
  arf := age (cmd.is .arf) w.arf
  lmr := age (cmd.is .lmr) w.lmr
  wr := age (cmd.is .wr) w.wr
  refs := if cmd.is .arf then w.refs + 1 else w.refs
  set := w.set || cmd.is .lmr

/-- In `k` clocks all rows are closed and the SDRAM is ready for the next command. -/
def Watch.Settled (w : Watch) (k : Nat) : Prop :=
  w.row = .closed ∧ 2 ≤ w.pre + k ∧ 4 ≤ w.arf + k ∧ 3 ≤ w.lmr + k

/-- What a command needs. A precharge is of all banks: `addr(10)` is high. -/
def Watch.Legal (w : Watch) (cmd : Cmd) (bank : BitVec 2) (addr : BitVec 12) : Prop :=
  cmd.csN = true ∨
    match cmd.code with
    | .nop => True
    | .pre => 5000 ≤ w.clock ∧ 3 ≤ w.wr ∧ addr.getLsbD 10 = true
    | .arf => w.Settled 0
    | .lmr => w.Settled 0 ∧ 2 ≤ w.refs
    | .act => w.Settled 0 ∧ w.set = true
    | .rd => w.row = .opened bank ∧ 2 ≤ w.act
    | .wr => w.row = .opened bank ∧ 2 ≤ w.act
    | .bst => False

/-- The controller and its SDRAM, with a watch on the pins between them. -/
structure Watched where
  board : Board
  watch : Watch

def Watched.edge (p : Watched) (b : Bus) : Watched :=
  ⟨Sdram.edge p.board b, p.watch.step p.board.ctl.main.cmd p.board.ctl.main.bank⟩

/-- The command at the pins is legal. -/
def Watched.Legal (p : Watched) : Prop :=
  p.watch.Legal p.board.ctl.main.cmd p.board.ctl.main.bank p.board.ctl.main.addr

/-! ## A clock without a command -/

def Watch.tick (w : Watch) : Watch :=
  { w with
    clock := w.clock + 1, pre := w.pre + 1, act := w.act + 1, arf := w.arf + 1, lmr := w.lmr + 1,
    wr := w.wr + 1 }

theorem step_nop (w : Watch) {cmd : Cmd} (bank : BitVec 2) (h : cmd.code = .nop) :
    w.step cmd bank = w.tick := by
  simp [Watch.step, Watch.tick, Cmd.is, h, age]

theorem legal_nop (w : Watch) {cmd : Cmd} (bank : BitVec 2) (addr : BitVec 12)
    (h : cmd.code = .nop) : w.Legal cmd bank addr := by
  rw [Watch.Legal, h]
  exact .inr trivial

/-- The last refresh and the mode register are far back. -/
def Watch.Old (w : Watch) : Prop := 4 ≤ w.arf ∧ 3 ≤ w.lmr

theorem Watch.Settled.old {w : Watch} (h : w.Settled 0) : w.Old := ⟨h.2.2.1, h.2.2.2⟩

theorem Watch.Settled.tick {w : Watch} {k : Nat} (h : w.Settled k) : w.tick.Settled (k - 1) := by
  obtain ⟨hrow, hpre, harf, hlmr⟩ := h
  exact ⟨hrow, by simp only [Watch.tick]; omega, by simp only [Watch.tick]; omega,
    by simp only [Watch.tick]; omega⟩

theorem Watch.Old.tick {w : Watch} (h : w.Old) : w.tick.Old :=
  ⟨Nat.le_succ_of_le h.1, Nat.le_succ_of_le h.2⟩

/-! ## Power-up -/

/-- What the init FSM has brought about when its next command is due. -/
def InitFollows (i : Init) (refreshCounter : Nat) (w : Watch) : Prop :=
  3 ≤ w.wr ∧
    match i.state with
    | .start => w.Old ∧ w.clock + refreshCounter = 5002
    | .precharge => w.Old ∧ 5000 ≤ w.clock ∧ i.refs = 0
    | .refresh => w.Settled 0 ∧ 5000 ≤ w.clock ∧ (i.refs = 0 ∨ i.refs = 1 ∧ 1 ≤ w.refs)
    | .mode => w.Settled 0 ∧ 5000 ≤ w.clock ∧ 2 ≤ w.refs
    | .count => w.Settled (max i.count 1) ∧ 5000 ≤ w.clock ∧
        (i.next = .refresh ∧ (i.refs = 0 ∨ i.refs = 1 ∧ 1 ≤ w.refs) ∨ i.next = .mode ∧ 2 ≤ w.refs ∨
          i.next = .done ∧ w.set = true)
    | .done => w.Settled 0 ∧ 5000 ≤ w.clock ∧ w.set = true

/-- The commands of the init FSM are legal, one by one. -/
theorem init_legal {i : Init} {refreshCounter : Nat} {w : Watch} (h : InitFollows i refreshCounter w)
    (hne : i.state ≠ .done) (bank : BitVec 2) :
    w.Legal (i.edge refreshCounter).cmd bank (i.edge refreshCounter).addr ∧
      InitFollows (i.edge refreshCounter)
        (if refreshCounter = 0 then 781 else refreshCounter - 1)
        (w.step (i.edge refreshCounter).cmd bank) := by
  obtain ⟨hwr, h⟩ := h
  have hwr' : 3 ≤ w.wr + 1 := Nat.le_succ_of_le hwr
  cases hstate : i.state with
  | done => exact absurd hstate hne
  | start =>
    rw [hstate] at h
    obtain ⟨hold, hclock⟩ := h
    have hcmd : (i.edge refreshCounter).cmd.code = .nop := by simp [Init.edge, hstate, Cmd.inh]
    refine ⟨legal_nop w bank _ hcmd, ?_⟩
    rw [step_nop w bank hcmd]
    refine ⟨hwr', ?_⟩
    by_cases hzero : refreshCounter = 0
    · simp only [Init.edge, hstate, hzero, if_true]
      exact ⟨hold.tick, by simp only [Watch.tick]; omega, trivial⟩
    · simp only [Init.edge, hstate, hzero, if_false]
      exact ⟨hold.tick, by simp only [Watch.tick]; omega⟩
  | precharge =>
    rw [hstate] at h
    obtain ⟨⟨harf, hlmr⟩, hclock, hrefs⟩ := h
    simp only [Init.edge, hstate]
    refine ⟨.inr ⟨hclock, hwr, by decide⟩, hwr', ⟨rfl, ?_, ?_, ?_⟩, Nat.le_succ_of_le hclock,
      .inl ⟨rfl, .inl hrefs⟩⟩
    · exact Nat.le_refl 2
    · exact Nat.le_trans harf (Nat.le_add_right _ 2)
    · exact Nat.le_trans hlmr (Nat.le_add_right _ 2)
  | refresh =>
    rw [hstate] at h
    obtain ⟨hsettled, hclock, hrefs⟩ := h
    have hafter : (w.step ⟨false, .arf⟩ bank).Settled 3 :=
      ⟨hsettled.1, Nat.le_add_left 2 _, Nat.le_refl 4, Nat.le_add_left 3 _⟩
    rcases hrefs with hrefs | ⟨hrefs, hone⟩
    · simp only [Init.edge, hstate, hrefs]
      exact ⟨.inr hsettled, hwr', hafter, Nat.le_succ_of_le hclock,
        .inl ⟨rfl, .inr ⟨rfl, Nat.le_add_left 1 _⟩⟩⟩
    · simp only [Init.edge, hstate, hrefs]
      exact ⟨.inr hsettled, hwr', hafter, Nat.le_succ_of_le hclock,
        .inr (.inl ⟨rfl, Nat.succ_le_succ hone⟩)⟩
  | count =>
    rw [hstate] at h
    obtain ⟨hsettled, hclock, hnext⟩ := h
    have hcmd : (i.edge refreshCounter).cmd.code = .nop := by simp [Init.edge, hstate]
    refine ⟨legal_nop w bank _ hcmd, ?_⟩
    rw [step_nop w bank hcmd]
    refine ⟨hwr', ?_⟩
    have hclock' : 5000 ≤ w.clock + 1 := Nat.le_succ_of_le hclock
    by_cases hc : 1 < i.count
    · simp only [Init.edge, hstate, hc, if_true]
      have hmax : max (i.count - 1) 1 = max i.count 1 - 1 := by omega
      exact ⟨hmax ▸ hsettled.tick, hclock', hnext⟩
    · have hlast : w.tick.Settled 0 := by
        have hmax : max i.count 1 - 1 = 0 := by omega
        exact hmax ▸ hsettled.tick
      rcases hnext with ⟨hnext, hrefs⟩ | ⟨hnext, hrefs⟩ | ⟨hnext, hset⟩ <;>
        simp only [Init.edge, hstate, hc, hnext, if_false]
      · exact ⟨hlast, hclock', hrefs⟩
      · exact ⟨hlast, hclock', hrefs⟩
      · exact ⟨hlast, hclock', hset⟩
  | mode =>
    rw [hstate] at h
    obtain ⟨hsettled, hclock, hrefs⟩ := h
    simp only [Init.edge, hstate]
    refine ⟨.inr ⟨hsettled, hrefs⟩, hwr', ⟨hsettled.1, ?_, ?_, ?_⟩, Nat.le_succ_of_le hclock,
      .inr (.inr ⟨rfl, Bool.or_true _⟩)⟩
    · exact Nat.le_add_left 2 _
    · exact Nat.le_add_left 4 _
    · exact Nat.le_add_left 3 _

/-! ## The main FSM -/

/-- After power-up: the mode register is set. -/
def Watch.Based (w : Watch) : Prop := w.set = true ∧ 5000 ≤ w.clock ∧ 1 ≤ w.wr ∧ 1 ≤ w.act

theorem one_le_age (seen : Bool) (n : Nat) : 1 ≤ age seen n := by
  rw [age]
  split <;> omega

theorem Watch.Based.step {w : Watch} (h : w.Based) (cmd : Cmd) (bank : BitVec 2) :
    (w.step cmd bank).Based := by
  obtain ⟨hset, hclock, _, _⟩ := h
  refine ⟨?_, Nat.le_succ_of_le hclock, one_le_age _ _, one_le_age _ _⟩
  show (w.set || cmd.is .lmr) = true
  rw [hset, Bool.true_or]

/-- What the main FSM has brought about when its next command is due. -/
def Follows (s : Board) (w : Watch) : Prop :=
  match s.ctl.main.state with
  | .idle => 2 ≤ w.wr ∧ (w.Settled 0 ∨ Asked s ∧ w.Old)
  | .act => w.Settled 0
  | .wait =>
    match s.ctl.main.next with
    | .idle => w.Settled (max s.ctl.main.count 1) ∨ Asked s ∧ w.Old
    | .refresh => w.Settled 1
    | _ => w.row = .opened (bank s.ctl.main.active.addr) ∧ w.Old
  | .drain => 2 ≤ w.wr ∧ w.Old ∧ s.ctl.main.activeCsN = false
  | .precharge => 3 ≤ w.wr ∧ w.Old ∧ (s.ctl.main.next = .idle → s.ctl.main.activeCsN = false)
  | .refresh => w.Settled 0
  | _ => w.row = .opened (bank s.ctl.main.active.addr) ∧ 2 ≤ w.act ∧ w.Old

theorem hit_bank {m : Main} {f : Entry} (h : m.hit f = true) :
    bank m.active.addr = bank f.addr := by
  simp only [Main.hit, Bool.and_eq_true, beq_iff_eq] at h
  exact h.1.2

theorem source_bank (m : Main) (v : View) : bank (m.source v).addr = bank m.active.addr := by
  rw [Main.source]
  cases hsel : m.fSelect v with
  | false => rfl
  | true =>
    have hpend : m.pending v = true := (Bool.and_eq_true_iff.mp hsel).2
    exact (hit_bank (Bool.and_eq_true_iff.mp hpend).1).symm

/-- The pins, and the watch after them. -/
def After (w : Watch) (s : Board) : Prop :=
  w.Legal s.ctl.main.cmd s.ctl.main.bank s.ctl.main.addr ∧
    Follows s (w.step s.ctl.main.cmd s.ctl.main.bank)

/-- A clock without a command. -/
theorem After.nop {w : Watch} {s : Board} (hcmd : s.ctl.main.cmd.code = .nop)
    (h : Follows s w.tick) : After w s :=
  ⟨legal_nop w _ _ hcmd, by rw [step_nop w _ hcmd]; exact h⟩

section
variable {s : Board} (b : Bus) {w : Watch} {m : Main}

theorem after_idle (hinit : s.ctl.initDone = true) (hstate : s.ctl.main.state = .idle)
    (h : Follows s w) : After w (edge s b) := by
  rw [Follows, hstate] at h
  obtain ⟨hwr, hrow⟩ := h
  have hold : w.Old := hrow.elim (·.old) (·.2)
  rcases edge_idle (v := s.ctl.view) hstate hinit with ⟨_, hm⟩ | ⟨hr, _, hm⟩ | ⟨hr, _, hm⟩
  · rw [← main_edge s b] at hm
    refine .nop (by rw [hm]) ?_
    rw [Follows, hm]
    exact ⟨Nat.succ_le_succ hwr, hold.tick, fun h => absurd h (by simp)⟩
  · have hsettled : w.Settled 0 :=
      hrow.resolve_right fun h => Bool.false_ne_true (hr.symm.trans h.1.1)
    rw [← main_edge s b] at hm
    refine .nop (by rw [hm]; rfl) ?_
    rw [Follows, hm]
    exact hsettled.tick
  · have hsettled : w.Settled 0 :=
      hrow.resolve_right fun h => Bool.false_ne_true (hr.symm.trans h.1.1)
    rw [← main_edge s b] at hm
    refine .nop (by rw [hm]; rfl) ?_
    rw [Follows, hm]
    simp only [hstate]
    exact ⟨Nat.le_succ_of_le hwr, .inl hsettled.tick⟩

theorem after_act (hstate : s.ctl.main.state = .act) (hcs : s.ctl.main.activeCsN = false)
    (hbase : w.Based) (h : Follows s w) : After w (edge s b) := by
  rw [Follows, hstate] at h
  have hm := edge_act (v := s.ctl.view) hstate
  rw [← main_edge s b, csn_low _ hcs] at hm
  have hold : (w.step ⟨false, .act⟩ (bank s.ctl.main.active.addr)).Old :=
    ⟨Nat.le_succ_of_le h.old.1, Nat.le_succ_of_le h.old.2⟩
  rw [After, Follows, hm]
  refine ⟨.inr ⟨h, hbase.1⟩, ?_⟩
  cases s.ctl.main.active.rnw with
  | true => exact ⟨rfl, hold⟩
  | false => exact ⟨rfl, hold⟩

theorem after_opening (hstate : s.ctl.main.state = .wait)
    (hnext : s.ctl.main.next = if s.ctl.main.active.rnw then .read else .write)
    (hcount : s.ctl.main.count = 1) (hbase : w.Based) (h : Follows s w) :
    After w (edge s b) := by
  have hm := edge_wait (v := s.ctl.view) hstate
  have hlast : ¬ 1 < s.ctl.main.count := by omega
  rw [← main_edge s b, if_neg hlast, if_neg hlast] at hm
  rw [Follows, hstate] at h
  refine .nop (by rw [hm]) ?_
  rw [Follows, hm]
  cases hrnw : s.ctl.main.active.rnw with
  | true =>
    simp only [hnext, hrnw, if_true] at h ⊢
    exact ⟨h.1, Nat.succ_le_succ hbase.2.2.2, h.2.tick⟩
  | false =>
    simp only [hnext, hrnw, Bool.false_eq_true, if_false] at h ⊢
    exact ⟨h.1, Nat.succ_le_succ hbase.2.2.2, h.2.tick⟩

theorem after_closing (hinit : s.ctl.initDone = true) (hstate : s.ctl.main.state = .wait)
    (hnext : s.ctl.main.next = .idle) (hbase : w.Based) (h : Follows s w) :
    After w (edge s b) := by
  rw [Follows, hstate] at h
  simp only [hnext] at h
  have hm := edge_wait (v := s.ctl.view) hstate
  rw [← main_edge s b] at hm
  have hcode : (edge s b).ctl.main.cmd.code = .nop := by rw [hm]
  have hack : (edge s b).ctl.main.ackRefreshRequest = s.ctl.main.ackRefreshRequest := by rw [hm]
  have hrow : w.tick.Settled (max s.ctl.main.count 1 - 1) ∨ Asked (edge s b) ∧ w.tick.Old :=
    h.imp (·.tick) fun h => ⟨⟨h.1.next b hinit, hack.trans h.1.2⟩, h.2.tick⟩
  refine .nop hcode ?_
  by_cases hc : 1 < s.ctl.main.count
  · have hmax : max (s.ctl.main.count - 1) 1 = max s.ctl.main.count 1 - 1 := by omega
    rw [if_pos hc, if_pos hc] at hm
    rw [Follows, hm]
    simp only [hnext, hmax]
    exact hrow
  · have hmax : max s.ctl.main.count 1 - 1 = 0 := by omega
    rw [if_neg hc, if_neg hc, hnext] at hm
    rw [hmax] at hrow
    rw [Follows, hm]
    exact ⟨Nat.succ_le_succ hbase.2.2.1, hrow⟩

theorem after_closed (hstate : s.ctl.main.state = .wait) (hnext : s.ctl.main.next = .refresh)
    (hcount : s.ctl.main.count = 0) (h : Follows s w) : After w (edge s b) := by
  rw [Follows, hstate] at h
  simp only [hnext] at h
  have hm := edge_wait (v := s.ctl.view) hstate
  have hlast : ¬ 1 < s.ctl.main.count := by omega
  rw [← main_edge s b, if_neg hlast, if_neg hlast, hnext] at hm
  refine .nop (by rw [hm]) ?_
  rw [Follows, hm]
  exact h.tick

theorem after_drain (hstate : s.ctl.main.state = .drain) (hcount : s.ctl.main.count = 1)
    (h : Follows s w) : After w (edge s b) := by
  rw [Follows, hstate] at h
  obtain ⟨hwr, hold, hcs⟩ := h
  have hm := edge_drain (v := s.ctl.view) hstate
  have hlast : ¬ 1 < s.ctl.main.count := by omega
  rw [← main_edge s b, if_neg hlast, if_neg hlast] at hm
  refine .nop (by rw [hm]) ?_
  rw [Follows, hm]
  exact ⟨Nat.succ_le_succ hwr, hold.tick, fun _ => hcs⟩

theorem after_precharge (hstate : s.ctl.main.state = .precharge) (hcount : s.ctl.main.count = 0)
    (hnext : s.ctl.main.next = .idle ∨
      s.ctl.main.next = .refresh ∧ s.ctl.refreshRequest = true)
    (hbase : w.Based) (h : Follows s w) : After w (edge s b) := by
  rw [Follows, hstate] at h
  obtain ⟨hwr, ⟨harf, hlmr⟩, hcs⟩ := h
  have hm := edge_precharge (v := s.ctl.view) hstate
  have hlow : (if s.ctl.view.refreshRequest then false else s.ctl.main.csnDecode s.ctl.view) =
      false := by
    rcases hnext with hnext | ⟨_, hreq⟩
    · split
      · rfl
      · exact csn_low _ (hcs hnext)
    · exact if_pos hreq
  rw [← main_edge s b, hlow] at hm
  have hafter : (w.step ⟨false, .pre⟩ s.ctl.main.bank).Settled 1 :=
    ⟨rfl, Nat.le_refl 2, Nat.le_trans harf (Nat.le_add_right _ 2),
      Nat.le_trans hlmr (Nat.le_add_right _ 2)⟩
  rw [After, Follows, hm]
  refine ⟨.inr ⟨hbase.2.1, hwr, by simp⟩, ?_⟩
  rcases hnext with hnext | ⟨hnext, _⟩
  · simp only [hnext, hcount]
    exact .inl hafter
  · simp only [hnext]
    exact hafter

theorem after_refresh (hstate : s.ctl.main.state = .refresh) (h : Follows s w) :
    After w (edge s b) := by
  rw [Follows, hstate] at h
  have hm := edge_refresh (v := s.ctl.view) hstate
  rw [← main_edge s b] at hm
  rw [After, Follows, hm]
  exact ⟨.inr h, .inl ⟨h.1, Nat.le_add_left 2 _, Nat.le_refl 4, Nat.le_add_left 3 _⟩⟩

/-- A column command is legal in the open row, and leaves the row open. -/
theorem column_legal {v : View} {cmd : Cmd} {bank' : BitVec 2} (hcs : m.activeCsN = false)
    (h : w.row = .opened (bank m.active.addr) ∧ 2 ≤ w.act ∧ w.Old)
    (hcmd : cmd.code = .nop ∨ (cmd = ⟨m.csnDecode v, .rd⟩ ∨ cmd = ⟨m.csnDecode v, .wr⟩) ∧
      bank' = bank (m.source v).addr) :
    (∀ addr, w.Legal cmd bank' addr) ∧
      (w.step cmd bank').row = .opened (bank m.active.addr) ∧ 2 ≤ (w.step cmd bank').act ∧
      (w.step cmd bank').Old := by
  obtain ⟨hrow, hact, harf, hlmr⟩ := h
  rw [csn_low v hcs, source_bank] at hcmd
  rcases hcmd with hnop | ⟨rfl | rfl, rfl⟩
  · rw [step_nop w bank' hnop]
    exact ⟨fun addr => legal_nop w bank' addr hnop, hrow, Nat.le_succ_of_le hact,
      Nat.le_succ_of_le harf, Nat.le_succ_of_le hlmr⟩
  · exact ⟨fun _ => .inr ⟨hrow, hact⟩, hrow, Nat.le_succ_of_le hact, Nat.le_succ_of_le harf,
      Nat.le_succ_of_le hlmr⟩
  · exact ⟨fun _ => .inr ⟨hrow, hact⟩, hrow, Nat.le_succ_of_le hact, Nat.le_succ_of_le harf,
      Nat.le_succ_of_le hlmr⟩

theorem after_column (hinit : s.ctl.initDone = true)
    (hstate : s.ctl.main.state = .read ∨ s.ctl.main.state = .write)
    (hack : s.ctl.main.ackRefreshRequest = false) (hcs : s.ctl.main.activeCsN = false)
    (h : Follows s w) : After w (edge s b) := by
  have hopen : w.row = .opened (bank s.ctl.main.active.addr) ∧ 2 ≤ w.act ∧ w.Old := by
    rcases hstate with hread | hwrite
    · rwa [Follows, hread] at h
    · rwa [Follows, hwrite] at h
  obtain ⟨hcmd, hack', hcase⟩ := edge_column (v := s.ctl.view) hstate
  rw [← main_edge s b] at hcmd hack' hcase
  obtain ⟨hlegal, hcol⟩ := column_legal hcs hopen hcmd
  refine ⟨hlegal _, ?_⟩
  rcases hcase with ⟨_, hreq, hwait, hnext, _⟩ | ⟨hpend, _, hsame, hactive, _⟩ | ⟨_, hspin, hactive⟩
  · have hasked : Asked (edge s b) := ⟨Asked.next ⟨hreq, hack⟩ b hinit, hack'.trans hack⟩
    rw [Follows, hwait]
    simp only [hnext]
    exact .inr ⟨hasked, hcol.2.2⟩
  · rw [hit_bank (fifo_of_pending hpend).1] at hcol
    rw [Follows, hsame, hactive]
    rcases hstate with hread | hwrite
    · rw [hread]
      exact hcol
    · rw [hwrite]
      exact hcol
  · rw [Follows, hspin, hactive]
    exact hcol

theorem after_spin (hinit : s.ctl.initDone = true) (hstate : s.ctl.main.state = .spin)
    (hack : s.ctl.main.ackRefreshRequest = false) (hcs : s.ctl.main.activeCsN = false)
    (hbase : w.Based) (h : Follows s w) : After w (edge s b) := by
  rw [Follows, hstate] at h
  have hold : w.tick.row = .opened (bank s.ctl.main.active.addr) ∧ 2 ≤ w.tick.act ∧ w.tick.Old :=
    ⟨h.1, Nat.le_succ_of_le h.2.1, h.2.2.tick⟩
  have hcase := edge_spin (v := s.ctl.view) hstate
  rw [← main_edge s b] at hcase
  rcases hcase with ⟨hreq, hm⟩ | ⟨_, _, hhit, hm⟩ | ⟨_, _, _, hm⟩ | ⟨_, _, hm⟩
  · have hasked : Asked (edge s b) :=
      ⟨Asked.next ⟨hreq, hack⟩ b hinit, by rw [hm]; exact hack⟩
    refine .nop (by rw [hm]) ?_
    rw [Follows, hm]
    exact .inr ⟨hasked, hold.2.2⟩
  · rw [hit_bank hhit] at hold
    refine .nop (by rw [hm]) ?_
    rw [Follows, hm]
    cases s.ctl.view.f.rnw with
    | true => exact hold
    | false => exact hold
  · refine .nop (by rw [hm]) ?_
    rw [Follows, hm]
    exact ⟨Nat.succ_le_succ hbase.2.2.1, hold.2.2, hcs⟩
  · refine .nop (by rw [hm]) ?_
    rw [Follows, hm]
    simp only [hstate]
    exact hold

/-- **Next command.** In every stage it is legal, and the watch follows. -/
theorem Stage.after (h : Stage s) (hinit : s.ctl.initDone = true) (hbase : w.Based)
    (hw : Follows s w) : After w (edge s b) := by
  cases h with
  | idle hstate _ _ _ _ => exact after_idle b hinit hstate hw
  | act hstate _ _ _ hcs _ _ _ => exact after_act b hstate hcs hbase hw
  | opening hstate hnext _ _ hcount _ _ _ _ _ _ =>
    exact after_opening b hstate hnext hcount hbase hw
  | closing hstate hnext _ _ _ _ => exact after_closing b hinit hstate hnext hbase hw
  | closed hstate hnext _ hcount _ _ _ => exact after_closed b hstate hnext hcount hw
  | read hstate hack _ _ _ hopen => exact after_column b hinit (.inl hstate) hack hopen.1 hw
  | write hstate hack _ _ hopen _ => exact after_column b hinit (.inr hstate) hack hopen.1 hw
  | drain hstate _ _ _ hcount _ _ => exact after_drain b hstate hcount hw
  | precharge hstate _ _ hcount _ hnext =>
    exact after_precharge b hstate hcount (hnext.imp (·.1) fun h => ⟨h.1, h.2.1⟩) hbase hw
  | refresh hstate _ _ _ _ => exact after_refresh b hstate hw
  | spin hstate _ hack _ hopen _ => exact after_spin b hinit hstate hack hopen.1 hbase hw

end

/-! ## Every run -/

/-- What every clock keeps: the command at the pins is legal, and the watch after it
follows the FSM whose turn it is. -/
structure Watching (p : Watched) : Prop where
  inv : Inv p.board
  legal : p.Legal
  boot : p.board.ctl.initDone = false →
    (p.watch.step p.board.ctl.main.cmd p.board.ctl.main.bank).Legal p.board.ctl.init.cmd
      p.board.ctl.main.bank p.board.ctl.init.addr ∧
    InitFollows p.board.ctl.init p.board.ctl.refreshCounter
      ((p.watch.step p.board.ctl.main.cmd p.board.ctl.main.bank).step p.board.ctl.init.cmd
        p.board.ctl.main.bank)
  main : p.board.ctl.initDone = true →
    (p.watch.step p.board.ctl.main.cmd p.board.ctl.main.bank).Based ∧
      Follows p.board (p.watch.step p.board.ctl.main.cmd p.board.ctl.main.bank)

theorem watching_edge {p : Watched} (b : Bus) (h : Watching p) : Watching (p.edge b) := by
  obtain ⟨hinv, hlegal, hboot, hmain⟩ := h
  have hinv' : Inv (p.edge b).board := inv_edge b hinv
  have hdone : (p.edge b).board.ctl.initDone =
    (p.board.ctl.initDone || p.board.ctl.init.state == .done) := rfl
  rcases hinv.stage with hbooting | ⟨hinit, _, hstage⟩
  · obtain ⟨hnext, hfollows⟩ := hboot hbooting.initDone
    have hm := boot_main b hbooting
    have hlegal' : (p.edge b).Legal := by
      show (p.watch.step p.board.ctl.main.cmd p.board.ctl.main.bank).Legal
        (edge p.board b).ctl.main.cmd (edge p.board b).ctl.main.bank (edge p.board b).ctl.main.addr
      rw [hm]
      exact hnext
    have hafter : (p.edge b).watch.step (p.edge b).board.ctl.main.cmd
        (p.edge b).board.ctl.main.bank = (p.watch.step p.board.ctl.main.cmd
          p.board.ctl.main.bank).step p.board.ctl.init.cmd p.board.ctl.main.bank := by
      show (p.watch.step p.board.ctl.main.cmd p.board.ctl.main.bank).step
        (edge p.board b).ctl.main.cmd (edge p.board b).ctl.main.bank = _
      rw [hm]
    have hbank : (p.edge b).board.ctl.main.bank = p.board.ctl.main.bank := by
      show (edge p.board b).ctl.main.bank = _
      rw [hm]
    by_cases hstate : p.board.ctl.init.state = .done
    · rw [hstate, hbooting.initDone] at hdone
      rw [InitFollows, hstate] at hfollows
      obtain ⟨hwr, hsettled, hclock, hset⟩ := hfollows
      refine ⟨hinv', hlegal', fun hno => absurd (hno.symm.trans hdone) Bool.false_ne_true,
        fun _ => ?_⟩
      rw [hafter]
      refine ⟨⟨hset, hclock, Nat.le_of_succ_le (Nat.le_of_succ_le hwr), one_le_age _ _⟩, ?_⟩
      show Follows (edge p.board b) _
      rw [Follows, hm]
      exact ⟨Nat.le_of_succ_le hwr, .inl hsettled⟩
    · rw [hbooting.initDone, beq_false_of_ne hstate] at hdone
      refine ⟨hinv', hlegal', fun _ => ?_,
        fun hyes => absurd (hdone.symm.trans hyes) Bool.false_ne_true⟩
      rw [hafter, hbank]
      exact init_legal hfollows hstate _
  · obtain ⟨hbase, hfollows⟩ := hmain hinit
    obtain ⟨hnext, hfollows'⟩ := hstage.after b hinit hbase hfollows
    rw [hinit, Bool.true_or] at hdone
    exact ⟨hinv', hnext, fun hno => absurd (hno.symm.trans hdone) Bool.false_ne_true,
      fun _ => ⟨hbase.step _ _, hfollows'⟩⟩

theorem watching_reset {s : Board} (h : IsReset s.ctl) : Watching ⟨s, powerUp⟩ := by
  have hcmd : s.ctl.main.cmd.code = .nop := by rw [h.cmd]; rfl
  have hinit : s.ctl.init.cmd.code = .nop := by rw [h.initCmd]; rfl
  refine ⟨inv_reset h, legal_nop _ _ _ hcmd, fun _ => ?_,
    fun hyes => absurd (h.initDone.symm.trans hyes) Bool.false_ne_true⟩
  refine ⟨legal_nop _ _ _ hinit, ?_⟩
  dsimp only
  rw [step_nop _ _ hcmd, step_nop _ _ hinit, InitFollows, h.initState, h.refreshCounter]
  simp [Watch.tick, powerUp, Watch.Old]

end FpgaLabs.Nios.Sdram
