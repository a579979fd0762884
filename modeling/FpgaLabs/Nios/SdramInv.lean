import FpgaLabs.Nios.SdramStage

/-! The invariant of the SDRAM controller: what one clock does in each stage. -/

namespace FpgaLabs.Nios.Sdram
open Sync

theorem main_edge (s : Board) (b : Bus) : (edge s b).ctl.main = s.ctl.main.edge s.ctl.view := rfl

theorem Plain.ne {c : Code} (h : Plain c) : c ≠ .act ∧ c ≠ .lmr ∧ c ≠ .rd ∧ c ≠ .wr := by
  rcases h with rfl | rfl | rfl <;> decide

theorem plain_nop : Plain .nop := .inl rfl

/-- A word is popped only from a FIFO that has one. -/
theorem fifo_of_pending {s : Board} (h : s.ctl.main.pending s.ctl.view = true) :
    s.ctl.main.hit s.ctl.fifo.rdData = true ∧ s.ctl.fifo.empty = false := by
  simpa [Main.pending, Ctl.view] using h

theorem fSelect_of_pop {m : Main} (v : View) (h : m.fPop = false) : m.fSelect v = false := by
  simp [Main.fSelect, h]

theorem csn_low {m : Main} (v : View) (h : m.activeCsN = false) : m.csnDecode v = false := by
  simp [Main.csnDecode, h]

theorem head_dqm {f : Fifo} (h : FifoOk f) (he : f.empty = false) :
    f.rdData.rnw = true → f.rdData.dqm = 0 := by
  obtain ⟨rest, hq⟩ := Fifo.queue_of_some he
  exact h.dqm _ (hq ▸ List.mem_cons_self ..)

theorem fifo_edge {s : Board} (h : FifoOk s.ctl.fifo) (b : Bus) :
    (edge s b).ctl.fifo.queue =
      (if s.ctl.fSelect then s.ctl.fifo.queue.tail else s.ctl.fifo.queue) ++
        (if s.ctl.accepts b then [b.entry] else []) ∧ FifoOk (edge s b).ctl.fifo := by
  have hrd : s.ctl.fSelect = true → s.ctl.fifo.empty = false := fun hsel =>
    (fifo_of_pending (Bool.and_eq_true_iff.mp hsel).2).2
  have hwr : s.ctl.accepts b = true → s.ctl.fifo.full = false := fun hacc => by
    simpa [Ctl.zaWaitrequest] using (Bool.and_eq_true_iff.mp hacc).2
  refine ⟨(Fifo.queue_edge h b.entry hrd hwr).1, h.edge b.entry hrd hwr fun hr => ?_⟩
  have hw : b.azWrN = true := hr
  simp [Bus.entry, hw]

/-- The head stays when nothing is popped. -/
theorem head_kept {s : Board} (h : FifoOk s.ctl.fifo) (he : s.ctl.fifo.empty = false)
    (hsel : s.ctl.fSelect = false) (b : Bus) :
    (edge s b).ctl.fifo.empty = false ∧ (edge s b).ctl.fifo.rdData = s.ctl.fifo.rdData := by
  obtain ⟨rest, hq⟩ := Fifo.queue_of_some he
  obtain ⟨hq', _⟩ := fifo_edge h b
  rw [hsel, if_neg Bool.false_ne_true, hq, List.cons_append] at hq'
  have he' : (edge s b).ctl.fifo.empty = false := by
    rw [← Bool.not_eq_true, Fifo.empty_iff, hq']
    exact List.cons_ne_nil _ _
  obtain ⟨rest', hq''⟩ := Fifo.queue_of_some he'
  rw [hq''] at hq'
  exact ⟨he', (List.cons.inj hq').1⟩

/-! ## The SDRAM under a command -/

theorem is_of_ne {cmd : Cmd} {code : Code} (h : cmd.code ≠ code) : cmd.is code = false := by
  simp [Cmd.is, h]

theorem addrCrb_edge {s : Board} (b : Bus) (h : s.ctl.main.cmd.code ≠ .act) :
    (edge s b).chip.addrCrb = s.chip.addrCrb := by
  show (if s.ctl.main.cmd.is .act then _ else _) = _
  rw [is_of_ne h]
  rfl

theorem latency_edge {s : Board} (b : Bus) (h : s.ctl.main.cmd.code ≠ .lmr) :
    (edge s b).chip.latency = s.chip.latency := by
  show (if s.ctl.main.cmd.is .lmr then _ else _) = _
  rw [is_of_ne h]
  rfl

/-- A refresh request stays until it is acknowledged. -/
theorem Asked.next {s : Board} (h : Asked s) (b : Bus) (hinit : s.ctl.initDone = true) :
    (edge s b).ctl.refreshRequest = true := by
  obtain ⟨hr, hack⟩ := h
  show ((s.ctl.refreshCounter == 0 || s.ctl.refreshRequest) && !s.ctl.main.ackRefreshRequest &&
    s.ctl.initDone) = true
  rw [hr, hack, hinit, Bool.or_true]
  rfl

theorem request_dropped {s : Board} (b : Bus) (hack : s.ctl.main.ackRefreshRequest = true) :
    (edge s b).ctl.refreshRequest = false := by
  show ((s.ctl.refreshCounter == 0 || s.ctl.refreshRequest) && !s.ctl.main.ackRefreshRequest &&
    s.ctl.initDone) = false
  rw [hack, Bool.not_true, Bool.and_false, Bool.false_and]

theorem CmdOk.other {s : Board} (hrd : s.ctl.main.cmd.code ≠ .rd) (hwr : s.ctl.main.cmd.code ≠ .wr)
    (hoe : s.ctl.main.oe = false) : CmdOk s :=
  ⟨fun h => absurd h hrd, fun h => absurd h hwr,
    fun h => absurd (hoe.symm.trans h) Bool.false_ne_true⟩

theorem pipe_edge {s : Board} (h : CmdOk s) (hp : PipeOk s) (b : Bus) : PipeOk (edge s b) := by
  refine ⟨fun h0 => ?_, hp.stage0, hp.stage1⟩
  have hcode : s.ctl.main.cmd.code = .rd := by simpa [edge, Ctl.edge] using h0
  obtain ⟨hcs, hdqm⟩ := h.rd hcode
  exact ⟨by simp [edge, Chip.edge, Cmd.is, hcs, hcode], hdqm⟩

theorem pins_none {s : Board} (hrd : s.ctl.main.cmd.code ≠ .rd) (hwr : s.ctl.main.cmd.code ≠ .wr) :
    pins s = [] := by
  rw [pins, is_of_ne hrd, is_of_ne hwr]
  rfl

/-- The column goes to the open row. -/
theorem testAddr_of {s : Board} {a : BitVec 22} (hrow : s.chip.addrCrb = crb a)
    (haddr : s.ctl.main.addr = 0#4 ++ col a) : s.chip.testAddr s.ctl.main = a := by
  rw [Chip.testAddr, hrow, haddr, col_column, crb_col]

/-! ## Stages -/

/-- What one clock keeps: a stage, and the order of the words. -/
structure Kept (s s' : Board) : Prop where
  stage : Stage s'
  cmd : CmdOk s'
  ops : held s.ctl.main ++ (if s.ctl.fSelect then [s.ctl.fifo.rdData.op] else []) =
    pins s' ++ held s'.ctl.main

/-- A clock in which no word moves. -/
theorem Kept.still {s s' : Board} (hstage : Stage s') (hcode : Plain s'.ctl.main.cmd.code)
    (hoe : s'.ctl.main.oe = false) (hpop : s.ctl.main.fPop = false)
    (hheld : held s.ctl.main = held s'.ctl.main) : Kept s s' := by
  refine ⟨hstage, .other hcode.ne.2.2.1 hcode.ne.2.2.2 hoe, ?_⟩
  rw [Ctl.fSelect, fSelect_of_pop _ hpop, pins_none hcode.ne.2.2.1 hcode.ne.2.2.2, hheld]
  exact List.append_nil _

section
variable {s : Board} (b : Bus)

theorem stage_idle (hf : FifoOk s.ctl.fifo) (hinit : s.ctl.initDone = true)
    (hstate : s.ctl.main.state = .idle) (hpop : s.ctl.main.fPop = false)
    (hquiet : Quiet 4 s ∨ Asked s ∧ Quiet 2 s) (hack : s.ctl.main.ackRefreshRequest = true →
      s.ctl.refreshRequest = false) : Kept s (edge s b) := by
  have htwo : Quiet 2 s := hquiet.elim (·.mono (by decide)) (·.2)
  have hheld : held s.ctl.main = [] := by rw [held, hstate]
  rcases edge_idle (v := s.ctl.view) hstate hinit with
    ⟨hr, hm⟩ | ⟨hr, he, hm⟩ | ⟨hr, he, hm⟩
  · rw [← main_edge s b] at hm
    have hcode : (edge s b).ctl.main.cmd.code = .nop := by rw [hm]
    have hno : s.ctl.main.ackRefreshRequest = false := by
      rw [← Bool.not_eq_true]
      exact fun h => Bool.false_ne_true ((hack h).symm.trans hr)
    refine .still (.precharge (by rw [hm]) (by rw [hm]) (by rw [hm]) (by rw [hm]) (.inl hcode)
      (.inr ⟨by rw [hm], Asked.next ⟨hr, hno⟩ b hinit, htwo.next b (by rw [hcode]; decide)⟩))
      (.inl hcode) (by rw [hm]) hpop ?_
    rw [hheld, hm]
    rfl
  · rw [← main_edge s b] at hm
    have hcode : (edge s b).ctl.main.cmd.code = .nop := by rw [hm]; rfl
    have hfour : Quiet 4 s :=
      hquiet.resolve_right fun h => Bool.false_ne_true (hr.symm.trans h.1.1)
    obtain ⟨he', hhead⟩ := head_kept hf he (fSelect_of_pop _ hpop) b
    refine .still (.act (by rw [hm]) (by rw [hm]) (by rw [hm]) (.inl hcode) (by rw [hm]) he'
      (hhead.trans (by rw [hm]; rfl)) ((hfour.next b (by rw [hcode]; decide)).mono (by decide)))
      (.inl hcode) (by rw [hm]) hpop ?_
    rw [hheld, hm]
    rfl
  · rw [← main_edge s b] at hm
    have hcode : (edge s b).ctl.main.cmd.code = .nop := by rw [hm]; rfl
    have hfour : Quiet 4 s :=
      hquiet.resolve_right fun h => Bool.false_ne_true (hr.symm.trans h.1.1)
    have hstate' : (edge s b).ctl.main.state = .idle := by rw [hm]; exact hstate
    refine .still (.idle hstate' (by rw [hm]) (.inl hcode) (fun h => ?_)
      (.inl ((hfour.next b (by rw [hcode]; decide)).mono (by decide)))) (.inl hcode) (by rw [hm])
      hpop ?_
    · rw [hm] at h
      exact absurd h Bool.false_ne_true
    · rw [hheld, held, hstate']

/-- The word in hand is popped as its row is opened. -/
theorem stage_act (hf : FifoOk s.ctl.fifo) (hstate : s.ctl.main.state = .act)
    (hpop : s.ctl.main.fPop = true) (hack : s.ctl.main.ackRefreshRequest = false)
    (hcs : s.ctl.main.activeCsN = false) (hhead : s.ctl.fifo.empty = false)
    (hactive : s.ctl.fifo.rdData = s.ctl.main.active) (hquiet : Quiet 4 s) :
    Kept s (edge s b) := by
  have hm := edge_act (v := s.ctl.view) hstate
  rw [← main_edge s b, csn_low _ hcs] at hm
  have hcode : (edge s b).ctl.main.cmd = ⟨false, .act⟩ := by rw [hm]
  have hdqm := head_dqm hf hhead
  rw [hactive] at hdqm
  have hsel : s.ctl.fSelect = true := by
    have hpend : s.ctl.main.pending s.ctl.view = true := by
      simp [Main.pending, Ctl.view, hit_self hcs hactive, hhead]
    rw [Ctl.fSelect, Main.fSelect, hpop, hpend]
    rfl
  refine ⟨.opening (by rw [hm]) (by rw [hm]) (by rw [hm]) (by rw [hm]; exact hack) (by rw [hm])
    hcode (by rw [hm]; exact hcs) (by rw [hm]) (by rw [hm]) (by rw [hm]; exact hdqm)
    ((hquiet.next b (by rw [hcode]; decide)).mono (by decide)),
    .other (by rw [hcode]; decide) (by rw [hcode]; decide) (by rw [hm]), ?_⟩
  · have hheld : held s.ctl.main = [] := by rw [held, hstate]
    have hheld' : held (edge s b).ctl.main = [s.ctl.main.active.op] := by
      rw [hm]
      cases hrnw : s.ctl.main.active.rnw <;> simp [held]
    rw [hsel, hheld, hheld', hactive, pins_none (by rw [hcode]; decide) (by rw [hcode]; decide)]
    rfl

theorem stage_opening (hstate : s.ctl.main.state = .wait)
    (hnext : s.ctl.main.next = if s.ctl.main.active.rnw then .read else .write)
    (hpop : s.ctl.main.fPop = false) (hack : s.ctl.main.ackRefreshRequest = false)
    (hcount : s.ctl.main.count = 1) (hcmd : s.ctl.main.cmd = ⟨false, .act⟩)
    (hcs : s.ctl.main.activeCsN = false) (hbank : s.ctl.main.bank = bank s.ctl.main.active.addr)
    (haddr : s.ctl.main.addr = row s.ctl.main.active.addr)
    (hdqm : s.ctl.main.active.rnw = true → s.ctl.main.active.dqm = 0) (hquiet : Quiet 4 s) :
    Kept s (edge s b) := by
  have hm := edge_wait (v := s.ctl.view) hstate
  have hlast : ¬ 1 < s.ctl.main.count := by omega
  rw [← main_edge s b, if_neg hlast, if_neg hlast] at hm
  have hcode : (edge s b).ctl.main.cmd.code = .nop := by rw [hm]
  have hrow : (edge s b).chip.addrCrb = crb s.ctl.main.active.addr := by
    show (if s.ctl.main.cmd.is .act then _ else _) = _
    rw [hcmd, hbank, haddr]
    rfl
  have hopen : Open (edge s b) := ⟨by rw [hm]; exact hcs, by rw [hrow, hm]⟩
  cases hrnw : s.ctl.main.active.rnw with
  | true =>
    rw [hrnw] at hnext
    refine .still (.read (by rw [hm]; exact hnext) (by rw [hm]; exact hack)
      (by rw [hm]; exact hrnw) (by rw [hm]; exact hdqm hrnw) (.inl (.inl hcode)) hopen)
      (.inl hcode) (by rw [hm]) hpop ?_
    rw [hm]
    simp [held, hstate, hnext]
  | false =>
    rw [hrnw] at hnext
    refine .still (.write (by rw [hm]; exact hnext) (by rw [hm]; exact hack)
      (by rw [hm]; exact hrnw) (.inl (.inl hcode)) hopen
      ((hquiet.next b (by rw [hcode]; decide)).mono (by decide))) (.inl hcode) (by rw [hm]) hpop ?_
    rw [hm]
    simp [held, hstate, hnext]

theorem stage_closing (hinit : s.ctl.initDone = true) (hstate : s.ctl.main.state = .wait)
    (hnext : s.ctl.main.next = .idle) (hpop : s.ctl.main.fPop = false)
    (hcount : s.ctl.main.ackRefreshRequest = true ∧ s.ctl.main.count = 3 ∨
      s.ctl.main.count ≤ 2 ∧
        (s.ctl.main.ackRefreshRequest = true → s.ctl.refreshRequest = false))
    (hquiet : Quiet 3 s ∨ Asked s ∧ (s.ctl.main.count = 2 ∨ s.ctl.main.count = 1 ∧ Quiet 1 s)) :
    Kept s (edge s b) := by
  have hm := edge_wait (v := s.ctl.view) hstate
  rw [← main_edge s b] at hm
  have hcode : (edge s b).ctl.main.cmd.code = .nop := by rw [hm]
  have hne : (edge s b).ctl.main.cmd.code ≠ .rd := by
    rw [hcode]
    decide
  have hack : (edge s b).ctl.main.ackRefreshRequest = s.ctl.main.ackRefreshRequest := by rw [hm]
  have hdrop : (edge s b).ctl.main.ackRefreshRequest = true →
      (edge s b).ctl.refreshRequest = false := fun h => request_dropped b (hack.symm.trans h)
  have hheld : held s.ctl.main = [] := by simp [held, hstate, hnext]
  by_cases hc : 1 < s.ctl.main.count
  · rw [if_pos hc, if_pos hc] at hm
    have hle : (edge s b).ctl.main.count ≤ 2 := by
      rw [hm]
      show s.ctl.main.count - 1 ≤ 2
      omega
    refine .still (.closing (by rw [hm]) (by rw [hm]; exact hnext) (by rw [hm])
      (.inl (.inl hcode)) (.inr ⟨hle, hdrop⟩) ?_) (.inl hcode) (by rw [hm]) hpop ?_
    · rcases hquiet with h3 | ⟨hasked, h2 | ⟨h1, _⟩⟩
      · exact .inl ((h3.next b hne).mono (by decide))
      · exact .inr ⟨⟨hasked.next b hinit, hack.trans hasked.2⟩,
          .inr ⟨by rw [hm, h2], (quiet_zero s).next b hne⟩⟩
      · omega
    · rw [hheld, hm]
      simp [held, hnext]
  · rw [if_neg hc, if_neg hc] at hm
    refine .still (.idle (by rw [hm]; exact hnext) (by rw [hm]) (.inl hcode) hdrop ?_)
      (.inl hcode) (by rw [hm]) hpop ?_
    · rcases hquiet with h3 | ⟨hasked, h2 | ⟨_, h1⟩⟩
      · exact .inl (h3.next b hne)
      · omega
      · exact .inr ⟨⟨hasked.next b hinit, hack.trans hasked.2⟩, h1.next b hne⟩
    · rw [hheld, hm]
      simp [held, hnext]

theorem stage_closed (hinit : s.ctl.initDone = true) (hstate : s.ctl.main.state = .wait)
    (hnext : s.ctl.main.next = .refresh) (hpop : s.ctl.main.fPop = false)
    (hcount : s.ctl.main.count = 0) (hasked : Asked s) (hquiet : Quiet 3 s) :
    Kept s (edge s b) := by
  have hm := edge_wait (v := s.ctl.view) hstate
  have hlast : ¬ 1 < s.ctl.main.count := by omega
  rw [← main_edge s b, if_neg hlast, if_neg hlast] at hm
  have hcode : (edge s b).ctl.main.cmd.code = .nop := by rw [hm]
  refine .still (.refresh (by rw [hm]; exact hnext) (by rw [hm])
    ⟨hasked.next b hinit, by rw [hm]; exact hasked.2⟩ (.inl hcode)
    (hquiet.next b (by rw [hcode]; decide))) (.inl hcode) (by rw [hm]) hpop ?_
  rw [hm]
  simp [held, hstate, hnext]

/-! ## Column commands -/

/-- The word of a column command is in the open row, and of the same kind. -/
theorem source_row (m : Main) (v : View) :
    crb (m.source v).addr = crb m.active.addr ∧ (m.source v).rnw = m.active.rnw := by
  rw [Main.source]
  cases hsel : m.fSelect v with
  | false => exact ⟨rfl, rfl⟩
  | true =>
    have hpend : m.pending v = true := (Bool.and_eq_true_iff.mp hsel).2
    have hhit : m.hit v.f = true := (Bool.and_eq_true_iff.mp hpend).1
    exact ⟨(crb_hit hhit).symm, (hit_rnw hhit).symm⟩

/-- It is the word in hand, or the one popped as it goes out. -/
theorem source_ops (hstate : s.ctl.main.state = .read ∨ s.ctl.main.state = .write)
    (hgo : s.ctl.main.pending s.ctl.view = true ∨ s.ctl.main.fPop = false) :
    held s.ctl.main ++ (if s.ctl.fSelect then [s.ctl.fifo.rdData.op] else []) =
      [(s.ctl.main.source s.ctl.view).op] := by
  have hheld : held s.ctl.main = if s.ctl.main.fPop then [] else [s.ctl.main.active.op] := by
    rcases hstate with h | h <;> rw [held, h]
  rw [hheld, Main.source, Ctl.fSelect, Main.fSelect]
  cases hpop : s.ctl.main.fPop with
  | false => rfl
  | true =>
    rw [hgo.resolve_right (by simp [hpop])]
    rfl

/-- No command goes out for a word that is still in the FIFO. -/
theorem wait_ops (hstate : s.ctl.main.state = .read ∨ s.ctl.main.state = .write)
    (hpend : s.ctl.main.pending s.ctl.view = false) (hpop : s.ctl.main.fPop = true) :
    held s.ctl.main ++ (if s.ctl.fSelect then [s.ctl.fifo.rdData.op] else []) = [] := by
  have hheld : held s.ctl.main = [] := by
    rcases hstate with h | h <;> rw [held, h, hpop] <;> rfl
  rw [hheld, Ctl.fSelect, Main.fSelect, hpend, Bool.and_false]
  rfl

theorem pins_read {s' : Board} {e : Entry} (hcmd : s'.ctl.main.cmd = ⟨false, .rd⟩)
    (hrow : s'.chip.addrCrb = crb e.addr) (haddr : s'.ctl.main.addr = 0#4 ++ col e.addr)
    (hrnw : e.rnw = true) : pins s' = [e.op] := by
  rw [pins, hcmd, testAddr_of hrow haddr, Entry.op, hrnw]
  rfl

theorem pins_write {s' : Board} {e : Entry} (hcmd : s'.ctl.main.cmd = ⟨false, .wr⟩)
    (hrow : s'.chip.addrCrb = crb e.addr) (haddr : s'.ctl.main.addr = 0#4 ++ col e.addr)
    (hdqm : s'.ctl.main.dqm = e.dqm) (hdata : s'.ctl.main.data = e.data)
    (hrnw : e.rnw = false) : pins s' = [e.op] := by
  rw [pins, hcmd, testAddr_of hrow haddr, hdqm, hdata, Entry.op, hrnw]
  rfl

theorem CmdOk.of_rd {s : Board} (hcmd : s.ctl.main.cmd = ⟨false, .rd⟩) (hdqm : s.ctl.main.dqm = 0)
    (hoe : s.ctl.main.oe = false) : CmdOk s := by
  refine ⟨fun _ => ⟨by rw [hcmd], hdqm⟩, fun h => ?_,
    fun h => absurd (hoe.symm.trans h) Bool.false_ne_true⟩
  rw [hcmd] at h
  exact absurd h (by decide)

theorem CmdOk.of_wr {s : Board} (hcmd : s.ctl.main.cmd = ⟨false, .wr⟩) (hoe : s.ctl.main.oe = true)
    (hquiet : Quiet 4 s) : CmdOk s := by
  refine ⟨fun h => ?_, fun _ => ⟨by rw [hcmd], hoe, hquiet⟩, fun _ => by rw [hcmd]⟩
  rw [hcmd] at h
  exact absurd h (by decide)

theorem stage_read (hf : FifoOk s.ctl.fifo) (hinit : s.ctl.initDone = true)
    (hstate : s.ctl.main.state = .read) (hack : s.ctl.main.ackRefreshRequest = false)
    (hrnw : s.ctl.main.active.rnw = true) (hdqm : s.ctl.main.active.dqm = 0)
    (hcode : Plain s.ctl.main.cmd.code ∨ s.ctl.main.cmd.code = .rd) (hopen : Open s) :
    Kept s (edge s b) := by
  obtain ⟨hcs, hrow⟩ := hopen
  have hact : s.ctl.main.cmd.code ≠ .act := by
    rcases hcode with h | h
    · exact h.ne.1
    · rw [h]
      decide
  have hrow' : (edge s b).chip.addrCrb = crb s.ctl.main.active.addr :=
    (addrCrb_edge b hact).trans hrow
  obtain ⟨hcrb, hkind⟩ := source_row s.ctl.main s.ctl.view
  have hdqm' : (s.ctl.main.source s.ctl.view).dqm = 0 := by
    rw [Main.source] at hkind ⊢
    cases hsel : s.ctl.main.fSelect s.ctl.view with
    | false => exact hdqm
    | true =>
      rw [hsel] at hkind
      have hpend : s.ctl.main.pending s.ctl.view = true := (Bool.and_eq_true_iff.mp hsel).2
      exact head_dqm hf (fifo_of_pending hpend).2 (hkind.trans hrnw)
  obtain ⟨r, hr, hcase⟩ := edge_read (v := s.ctl.view) hstate
  rw [csn_low _ hcs] at hr
  rw [← main_edge s b, csn_low _ hcs] at hcase
  rcases hcase with ⟨hpend, hreq, hm⟩ | ⟨hpend, hreq, hm⟩ | ⟨hpend, hpop, hm⟩ | ⟨hpend, hpop, hm⟩
  · have hcmd : (edge s b).ctl.main.cmd = ⟨false, .rd⟩ := by rw [hm, hr]
    refine ⟨.closing (by rw [hm]) (by rw [hm]) (by rw [hm, hr]) (.inr (.inl (by rw [hcmd])))
      (.inr ⟨by rw [hm], fun h => ?_⟩)
      (.inr ⟨⟨Asked.next ⟨hreq, hack⟩ b hinit, by rw [hm, hr]; exact hack⟩, .inl (by rw [hm])⟩),
      .of_rd hcmd (by rw [hm, hr]; exact hdqm') (by rw [hm, hr]), ?_⟩
    · rw [hm, hr] at h
      exact absurd (hack.symm.trans h) Bool.false_ne_true
    · rw [source_ops (.inl hstate) (.inl hpend),
        pins_read hcmd (hrow'.trans hcrb.symm) (by rw [hm, hr]) (hkind.trans hrnw), hm]
      rfl
  · have hcmd : (edge s b).ctl.main.cmd = ⟨false, .rd⟩ := by rw [hm, hr]
    obtain ⟨hhit, hne⟩ := fifo_of_pending hpend
    have hrnw' : s.ctl.fifo.rdData.rnw = true := (hit_rnw hhit).symm.trans hrnw
    have hstate' : (edge s b).ctl.main.state = .read := by rw [hm, hr]; exact hstate
    refine ⟨.read hstate' (by rw [hm, hr]; exact hack) (by rw [hm]; exact hrnw')
      (by rw [hm]; exact head_dqm hf hne hrnw') (.inr (by rw [hcmd]))
      ⟨by rw [hm], by rw [hrow', hm]; exact crb_hit hhit⟩,
      .of_rd hcmd (by rw [hm, hr]; exact hdqm') (by rw [hm, hr]), ?_⟩
    rw [source_ops (.inl hstate) (.inl hpend),
      pins_read hcmd (hrow'.trans hcrb.symm) (by rw [hm, hr]) (hkind.trans hrnw), held, hstate', hm]
    rfl
  · have hcmd : (edge s b).ctl.main.cmd = ⟨false, .rd⟩ := by rw [hm, hr]
    refine ⟨.spin (by rw [hm]) (by rw [hm, hr]) (by rw [hm, hr]; exact hack)
      (.inr (.inl (by rw [hcmd]))) ⟨by rw [hm, hr]; exact hcs, by rw [hrow', hm, hr]⟩
      (.inl (by rw [hm, hr]; exact hrnw)),
      .of_rd hcmd (by rw [hm, hr]; exact hdqm') (by rw [hm, hr]), ?_⟩
    rw [source_ops (.inl hstate) (.inr hpop),
      pins_read hcmd (hrow'.trans hcrb.symm) (by rw [hm, hr]) (hkind.trans hrnw), hm]
    rfl
  · have hcmd : (edge s b).ctl.main.cmd.code = .nop := by rw [hm]
    refine ⟨.spin (by rw [hm]) (by rw [hm, hr]) (by rw [hm, hr]; exact hack)
      (.inl (.inl hcmd)) ⟨by rw [hm, hr]; exact hcs, by rw [hrow', hm, hr]⟩
      (.inl (by rw [hm, hr]; exact hrnw)),
      .other (by rw [hcmd]; decide) (by rw [hcmd]; decide) (by rw [hm, hr]), ?_⟩
    rw [wait_ops (.inl hstate) hpend hpop,
      pins_none (by rw [hcmd]; decide) (by rw [hcmd]; decide), hm]
    rfl

theorem stage_write (hstate : s.ctl.main.state = .write)
    (hack : s.ctl.main.ackRefreshRequest = false) (hrnw : s.ctl.main.active.rnw = false)
    (hcode : Plain s.ctl.main.cmd.code ∨ s.ctl.main.cmd.code = .wr) (hopen : Open s)
    (hquiet : Quiet 4 s) : Kept s (edge s b) := by
  obtain ⟨hcs, hrow⟩ := hopen
  have hact : s.ctl.main.cmd.code ≠ .act := by
    rcases hcode with h | h
    · exact h.ne.1
    · rw [h]
      decide
  have hrow' : (edge s b).chip.addrCrb = crb s.ctl.main.active.addr :=
    (addrCrb_edge b hact).trans hrow
  obtain ⟨hcrb, hkind⟩ := source_row s.ctl.main s.ctl.view
  have hfour (h : (edge s b).ctl.main.cmd.code ≠ .rd) : Quiet 4 (edge s b) :=
    (hquiet.next b h).mono (by decide)
  obtain ⟨r, hr, hcase⟩ := edge_write (v := s.ctl.view) hstate
  rw [csn_low _ hcs] at hr
  rw [← main_edge s b, csn_low _ hcs] at hcase
  rcases hcase with ⟨hpend, hreq, hm⟩ | ⟨hpend, hreq, hm⟩ | ⟨hpend, hpop, hm⟩ | ⟨hpend, hpop, hm⟩
  · have hcmd : (edge s b).ctl.main.cmd = ⟨false, .wr⟩ := by rw [hm, hr]
    have hquiet' := hfour (by rw [hcmd]; decide)
    refine ⟨.closing (by rw [hm]) (by rw [hm]) (by rw [hm, hr]) (.inr (.inr (by rw [hcmd])))
      (.inr ⟨by rw [hm]; exact Nat.le_succ 1, fun h => ?_⟩) (.inl (hquiet'.mono (by decide))),
      .of_wr hcmd (by rw [hm, hr]) hquiet', ?_⟩
    · rw [hm, hr] at h
      exact absurd (hack.symm.trans h) Bool.false_ne_true
    · rw [source_ops (.inr hstate) (.inl hpend),
        pins_write hcmd (hrow'.trans hcrb.symm) (by rw [hm, hr]) (by rw [hm, hr])
          (by rw [hm, hr]) (hkind.trans hrnw), hm]
      rfl
  · have hcmd : (edge s b).ctl.main.cmd = ⟨false, .wr⟩ := by rw [hm, hr]
    have hquiet' := hfour (by rw [hcmd]; decide)
    obtain ⟨hhit, _⟩ := fifo_of_pending hpend
    have hstate' : (edge s b).ctl.main.state = .write := by rw [hm, hr]; exact hstate
    refine ⟨.write hstate' (by rw [hm, hr]; exact hack)
      (by rw [hm]; exact (hit_rnw hhit).symm.trans hrnw) (.inr (by rw [hcmd]))
      ⟨by rw [hm], by rw [hrow', hm]; exact crb_hit hhit⟩ hquiet',
      .of_wr hcmd (by rw [hm, hr]) hquiet', ?_⟩
    rw [source_ops (.inr hstate) (.inl hpend),
      pins_write hcmd (hrow'.trans hcrb.symm) (by rw [hm, hr]) (by rw [hm, hr])
        (by rw [hm, hr]) (hkind.trans hrnw), held, hstate', hm]
    rfl
  · have hcmd : (edge s b).ctl.main.cmd = ⟨false, .wr⟩ := by rw [hm, hr]
    have hquiet' := hfour (by rw [hcmd]; decide)
    refine ⟨.spin (by rw [hm]) (by rw [hm, hr]) (by rw [hm, hr]; exact hack)
      (.inr (.inr (by rw [hcmd]))) ⟨by rw [hm, hr]; exact hcs, by rw [hrow', hm, hr]⟩
      (.inr hquiet'), .of_wr hcmd (by rw [hm, hr]) hquiet', ?_⟩
    rw [source_ops (.inr hstate) (.inr hpop),
      pins_write hcmd (hrow'.trans hcrb.symm) (by rw [hm, hr]) (by rw [hm, hr])
        (by rw [hm, hr]) (hkind.trans hrnw), hm]
    rfl
  · have hcmd : (edge s b).ctl.main.cmd.code = .nop := by rw [hm]
    refine ⟨.spin (by rw [hm]) (by rw [hm, hr]) (by rw [hm, hr]; exact hack)
      (.inl (.inl hcmd)) ⟨by rw [hm, hr]; exact hcs, by rw [hrow', hm, hr]⟩
      (.inr (hfour (by rw [hcmd]; decide))),
      .other (by rw [hcmd]; decide) (by rw [hcmd]; decide) (by rw [hm]), ?_⟩
    rw [wait_ops (.inr hstate) hpend hpop,
      pins_none (by rw [hcmd]; decide) (by rw [hcmd]; decide), hm]
    rfl

theorem stage_drain (hstate : s.ctl.main.state = .drain) (hnext : s.ctl.main.next = .idle)
    (hpop : s.ctl.main.fPop = false) (hack : s.ctl.main.ackRefreshRequest = false)
    (hcount : s.ctl.main.count = 1) (hquiet : Quiet 1 s) : Kept s (edge s b) := by
  have hm := edge_drain (v := s.ctl.view) hstate
  have hlast : ¬ 1 < s.ctl.main.count := by omega
  rw [← main_edge s b, if_neg hlast, if_neg hlast] at hm
  have hcode : (edge s b).ctl.main.cmd.code = .nop := by rw [hm]
  refine .still (.precharge (by rw [hm]) (by rw [hm]) (by rw [hm]; exact hack) (by rw [hm])
    (.inl hcode) (.inl ⟨by rw [hm]; exact hnext, hquiet.next b (by rw [hcode]; decide)⟩))
    (.inl hcode) (by rw [hm]) hpop ?_
  rw [hm]
  simp [held, hstate]

theorem stage_precharge (hinit : s.ctl.initDone = true) (hstate : s.ctl.main.state = .precharge)
    (hpop : s.ctl.main.fPop = false) (hack : s.ctl.main.ackRefreshRequest = false)
    (hcount : s.ctl.main.count = 0)
    (hnext : s.ctl.main.next = .idle ∧ Quiet 2 s ∨
      s.ctl.main.next = .refresh ∧ s.ctl.refreshRequest = true ∧ Quiet 3 s) :
    Kept s (edge s b) := by
  have hm := edge_precharge (v := s.ctl.view) hstate
  rw [← main_edge s b] at hm
  have hcode : (edge s b).ctl.main.cmd.code = .pre := by rw [hm]
  have hack' : (edge s b).ctl.main.ackRefreshRequest = false := by rw [hm]; exact hack
  have hcount' : (edge s b).ctl.main.count = 0 := by rw [hm]; exact hcount
  rcases hnext with ⟨hnext, h2⟩ | ⟨hnext, hreq, h3⟩
  · refine .still (.closing (by rw [hm]) (by rw [hm]; exact hnext) (by rw [hm])
      (.inl (.inr (.inl hcode))) (.inr ⟨by omega, fun h => ?_⟩)
      (.inl (h2.next b (by rw [hcode]; decide)))) (.inr (.inl hcode)) (by rw [hm]) hpop ?_
    · exact absurd (hack'.symm.trans h) Bool.false_ne_true
    · rw [hm]
      simp [held, hstate, hnext]
  · refine .still (.closed (by rw [hm]) (by rw [hm]; exact hnext) (by rw [hm]) hcount'
      ⟨Asked.next ⟨hreq, hack⟩ b hinit, hack'⟩ (.inr (.inl hcode))
      ((h3.next b (by rw [hcode]; decide)).mono (by decide))) (.inr (.inl hcode)) (by rw [hm])
      hpop ?_
    rw [hm]
    simp [held, hstate, hnext]

theorem stage_refresh (hstate : s.ctl.main.state = .refresh) (hpop : s.ctl.main.fPop = false)
    (hquiet : Quiet 4 s) : Kept s (edge s b) := by
  have hm := edge_refresh (v := s.ctl.view) hstate
  rw [← main_edge s b] at hm
  have hcode : (edge s b).ctl.main.cmd.code = .arf := by rw [hm]
  refine .still (.closing (by rw [hm]) (by rw [hm]) (by rw [hm]) (.inl (.inr (.inr hcode)))
    (.inl ⟨by rw [hm], by rw [hm]⟩)
    (.inl ((hquiet.next b (by rw [hcode]; decide)).mono (by decide)))) (.inr (.inr hcode))
    (by rw [hm]) hpop ?_
  rw [hm]
  simp [held, hstate]

theorem stage_spin (hf : FifoOk s.ctl.fifo) (hinit : s.ctl.initDone = true)
    (hstate : s.ctl.main.state = .spin) (hpop : s.ctl.main.fPop = false)
    (hack : s.ctl.main.ackRefreshRequest = false)
    (hcode : Plain s.ctl.main.cmd.code ∨ s.ctl.main.cmd.code = .rd ∨ s.ctl.main.cmd.code = .wr)
    (hopen : Open s) (hquiet : s.ctl.main.active.rnw = true ∨ Quiet 4 s) :
    Kept s (edge s b) := by
  obtain ⟨hcs, hrow⟩ := hopen
  have hact : s.ctl.main.cmd.code ≠ .act := by
    rcases hcode with h | h | h
    · exact h.ne.1
    · rw [h]
      decide
    · rw [h]
      decide
  have hrow' : (edge s b).chip.addrCrb = crb s.ctl.main.active.addr :=
    (addrCrb_edge b hact).trans hrow
  have hheld : held s.ctl.main = [] := by rw [held, hstate]
  have hcase := edge_spin (v := s.ctl.view) hstate
  rw [← main_edge s b, csn_low _ hcs] at hcase
  have hnop (hm : (edge s b).ctl.main.cmd.code = .nop) {n : Nat} (hn : n ≤ 4) (h : Quiet n s) :
      Quiet (n + 1) (edge s b) := h.next b (by rw [hm]; decide)
  rcases hcase with ⟨hreq, hm⟩ | ⟨hreq, he, hhit, hm⟩ | ⟨hreq, he, hhit, hm⟩ | ⟨hreq, he, hm⟩
  · have hcmd : (edge s b).ctl.main.cmd.code = .nop := by rw [hm]
    refine .still (.closing (by rw [hm]) (by rw [hm]) (by rw [hm]) (.inl (.inl hcmd))
      (.inr ⟨by rw [hm]; exact Nat.le_succ 1, fun h => ?_⟩)
      (.inr ⟨⟨Asked.next ⟨hreq, hack⟩ b hinit, by rw [hm]; exact hack⟩,
        .inr ⟨by rw [hm], hnop hcmd (by decide) (quiet_zero s)⟩⟩)) (.inl hcmd) (by rw [hm]) hpop ?_
    · rw [hm] at h
      exact absurd (hack.symm.trans h) Bool.false_ne_true
    · rw [hheld, hm]
      rfl
  · have hcmd : (edge s b).ctl.main.cmd.code = .nop := by rw [hm]
    have hkind := hit_rnw hhit
    have hopen' : Open (edge s b) := ⟨by rw [hm], by rw [hrow', hm]; exact crb_hit hhit⟩
    cases hrnw : s.ctl.fifo.rdData.rnw with
    | true =>
      have hstate' : (edge s b).ctl.main.state = .read := by
        rw [hm]
        exact if_pos hrnw
      refine .still (.read hstate' (by rw [hm]; exact hack) (by rw [hm]; exact hrnw)
        (by rw [hm]; exact head_dqm hf he hrnw) (.inl (.inl hcmd)) hopen') (.inl hcmd)
        (by rw [hm]) hpop ?_
      rw [hheld, held, hstate', hm]
      rfl
    | false =>
      have hstate' : (edge s b).ctl.main.state = .write := by
        rw [hm]
        exact if_neg (by rw [show s.ctl.view.f.rnw = false from hrnw]; decide)
      have hfour := hquiet.resolve_left fun h => by
        rw [h] at hkind
        exact Bool.false_ne_true (hrnw.symm.trans hkind.symm)
      refine .still (.write hstate' (by rw [hm]; exact hack) (by rw [hm]; exact hrnw)
        (.inl (.inl hcmd)) hopen' ((hnop hcmd (by decide) hfour).mono (by decide))) (.inl hcmd)
        (by rw [hm]) hpop ?_
      rw [hheld, held, hstate', hm]
      rfl
  · have hcmd : (edge s b).ctl.main.cmd.code = .nop := by rw [hm]
    refine .still (.drain (by rw [hm]) (by rw [hm]) (by rw [hm]) (by rw [hm]; exact hack)
      (by rw [hm]) (.inl hcmd) (hnop hcmd (by decide) (quiet_zero s))) (.inl hcmd) (by rw [hm])
      hpop ?_
    rw [hheld, hm]
    rfl
  · have hcmd : (edge s b).ctl.main.cmd.code = .nop := by rw [hm]
    have hstate' : (edge s b).ctl.main.state = .spin := by rw [hm]; exact hstate
    refine .still (.spin hstate' (by rw [hm]) (by rw [hm]; exact hack) (.inl (.inl hcmd))
      ⟨by rw [hm]; exact hcs, by rw [hrow', hm]⟩
      (hquiet.imp (fun h => by rw [hm]; exact h)
        fun h => (hnop hcmd (by decide) h).mono (by decide))) (.inl hcmd) (by rw [hm]) hpop ?_
    rw [hheld, held, hstate']

/-- The mode register is left alone. -/
theorem Stage.code (h : Stage s) : s.ctl.main.cmd.code ≠ .lmr := by
  cases h with
  | opening _ _ _ _ _ hcmd _ _ _ _ _ =>
    rw [hcmd]
    decide
  | closing _ _ _ hcode _ _ =>
    rcases hcode with h | h | h
    · exact h.ne.2.1
    all_goals rw [h]; decide
  | spin _ _ _ hcode _ _ =>
    rcases hcode with h | h | h
    · exact h.ne.2.1
    all_goals rw [h]; decide
  | read _ _ _ _ hcode _ =>
    rcases hcode with h | h
    · exact h.ne.2.1
    · rw [h]
      decide
  | write _ _ _ hcode _ _ =>
    rcases hcode with h | h
    · exact h.ne.2.1
    · rw [h]
      decide
  | idle _ _ hcode _ _ => exact hcode.ne.2.1
  | act _ _ _ hcode _ _ _ _ => exact hcode.ne.2.1
  | closed _ _ _ _ _ hcode _ => exact hcode.ne.2.1
  | drain _ _ _ _ _ hcode _ => exact hcode.ne.2.1
  | precharge _ _ _ _ hcode _ => exact hcode.ne.2.1
  | refresh _ _ _ hcode _ => exact hcode.ne.2.1

/-- **Stage step.** -/
theorem Stage.step (hf : FifoOk s.ctl.fifo) (hinit : s.ctl.initDone = true) (h : Stage s) :
    Kept s (edge s b) := by
  cases h with
  | idle hstate hpop _ hack hquiet => exact stage_idle b hf hinit hstate hpop hquiet hack
  | act hstate hpop hack _ hcs hhead hactive hquiet =>
    exact stage_act b hf hstate hpop hack hcs hhead hactive hquiet
  | opening hstate hnext hpop hack hcount hcmd hcs hbank haddr hdqm hquiet =>
    exact stage_opening b hstate hnext hpop hack hcount hcmd hcs hbank haddr hdqm hquiet
  | closing hstate hnext hpop _ hcount hquiet =>
    exact stage_closing b hinit hstate hnext hpop hcount hquiet
  | closed hstate hnext hpop hcount hasked _ hquiet =>
    exact stage_closed b hinit hstate hnext hpop hcount hasked hquiet
  | read hstate hack hrnw hdqm hcode hopen =>
    exact stage_read b hf hinit hstate hack hrnw hdqm hcode hopen
  | write hstate hack hrnw hcode hopen hquiet =>
    exact stage_write b hstate hack hrnw hcode hopen hquiet
  | drain hstate hnext hpop hack hcount _ hquiet =>
    exact stage_drain b hstate hnext hpop hack hcount hquiet
  | precharge hstate hpop hack hcount _ hnext =>
    exact stage_precharge b hinit hstate hpop hack hcount hnext
  | refresh hstate hpop _ _ hquiet => exact stage_refresh b hstate hpop hquiet
  | spin hstate hpop hack hcode hopen hquiet =>
    exact stage_spin b hf hinit hstate hpop hack hcode hopen hquiet

/-! ## Before `init_done` -/

theorem boot_main (h : Booting s) : (edge s b).ctl.main = { s.ctl.main with
    fPop := false, oe := false, addr := s.ctl.init.addr, state := .idle, next := .idle,
    cmd := s.ctl.init.cmd } :=
  (main_edge s b).trans (edge_boot h.state h.initDone)

/-- The init FSM gives no column command. -/
theorem Boot.code (h : Boot s) : s.ctl.init.cmd.code ≠ .rd ∧ s.ctl.init.cmd.code ≠ .wr := by
  cases h with
  | start _ hcmd _ _ => exact hcmd.ne.2.2
  | run _ hcmd _ => exact hcmd.ne.2.2
  | loading _ _ _ hcmd _ _ =>
    rw [hcmd]
    decide
  | loaded _ _ _ hcmd _ _ _ =>
    rw [hcmd]
    decide
  | ready _ hcmd _ _ _ =>
    rw [hcmd]
    decide

/-- `init_done` goes high as the init FSM is done, with the SDRAM set up. -/
theorem boot_stage (h : Boot s) (hb : Booting s) :
    (s.ctl.init.state ≠ .done ∧ Boot (edge s b)) ∨
      s.ctl.init.state = .done ∧ s.chip.latency = 3 ∧ Plain s.ctl.main.cmd.code ∧
        s.ctl.init.cmd.code = .nop ∧ Quiet 4 (edge s b) := by
  have hm := boot_main b hb
  have hi : (edge s b).ctl.init = s.ctl.init.edge s.ctl.refreshCounter := rfl
  have hne : (edge s b).ctl.main.cmd.code ≠ .rd := by
    rw [hm]
    exact h.code.1
  cases h with
  | start hstate hcmd hquiet hn =>
    refine .inl ⟨by rw [hstate]; decide, ?_⟩
    have hquiet' := hquiet.next b hne
    by_cases hc : s.ctl.refreshCounter = 0
    · refine .run (.inl ?_) ?_ (hquiet'.mono (by omega))
      · rw [hi]
        simp [Init.edge, hstate, hc]
      · rw [hi]
        simp [Init.edge, hstate, Cmd.inh, plain_nop]
    · refine .start ?_ ?_ hquiet' ?_
      · rw [hi]
        simp [Init.edge, hstate, hc]
      · rw [hi]
        simp [Init.edge, hstate, Cmd.inh, plain_nop]
      · show (if s.ctl.refreshCounter = 0 then 781 else s.ctl.refreshCounter - 1) + _ = _
        rw [if_neg hc]
        omega
  | run hstate hcmd hquiet =>
    have hquiet' := (hquiet.next b hne).mono (show 4 ≤ 5 by decide)
    rcases hstate with ⟨hstate, hrefs⟩ | ⟨hstate, hrefs⟩ | hstate | ⟨hstate, hnext⟩
    · refine .inl ⟨by rw [hstate]; decide, .run (.inr (.inr (.inr ?_))) ?_ hquiet'⟩
      · rw [hi]
        simp [Init.edge, hstate, hrefs]
      · rw [hi]
        simp [Init.edge, hstate, Plain]
    · refine .inl ⟨by rw [hstate]; decide, .run (.inr (.inr (.inr ?_))) ?_ hquiet'⟩
      · rw [hi]
        rcases hrefs with hrefs | hrefs <;> simp [Init.edge, hstate, hrefs]
      · rw [hi]
        simp [Init.edge, hstate, Plain]
    · refine .inl ⟨by rw [hstate]; decide, .loading ?_ ?_ ?_ ?_ ?_ hquiet'⟩ <;>
        rw [hi] <;> simp [Init.edge, hstate]
    · refine .inl ⟨by rw [hstate]; decide, .run ?_ ?_ hquiet'⟩
      · rw [hi]
        by_cases hc : 1 < s.ctl.init.count
        · refine .inr (.inr (.inr ?_))
          simpa [Init.edge, hstate, hc] using hnext
        · refine .inr (hnext.imp (fun hn => ?_) fun hn => .inl ?_)
          · simpa [Init.edge, hstate, hc] using hn
          · simpa [Init.edge, hstate, hc] using hn
      · rw [hi]
        simp [Init.edge, hstate, Plain]
  | loading hstate hnext hcount hcmd haddr hquiet =>
    refine .inl ⟨by rw [hstate]; decide, .loaded ?_ ?_ ?_ ?_ (by rw [hm]; exact hcmd)
      (by rw [hm]; exact haddr) ((hquiet.next b hne).mono (by decide))⟩
    · rw [hi]
      simp [Init.edge, hstate, hcount]
    · rw [hi]
      simp [Init.edge, hstate, hnext]
    · rw [hi]
      simp [Init.edge, hstate, hcount]
    · rw [hi]
      simp [Init.edge, hstate]
  | loaded hstate hnext hcount hcmd hpins haddr hquiet =>
    refine .inl ⟨by rw [hstate]; decide, .ready (.inr ?_) ?_ (by rw [hm]; exact .inl hcmd) ?_
      ((hquiet.next b hne).mono (by decide))⟩
    · rw [hi]
      simp [Init.edge, hstate, hnext, hcount]
    · rw [hi]
      simp [Init.edge, hstate]
    · show (if s.ctl.main.cmd.is .lmr then _ else _) = _
      rw [hpins, haddr]
      rfl
  | ready hstate hcmd hpins hlatency hquiet =>
    have hquiet' := (hquiet.next b hne).mono (show 4 ≤ 5 by decide)
    rcases hstate with hstate | ⟨hstate, hnext, hcount⟩
    · exact .inr ⟨hstate, hlatency, hpins, hcmd, hquiet'⟩
    · refine .inl ⟨by rw [hstate]; decide, .ready ?_ ?_ (by rw [hm]; exact .inl hcmd)
        ((latency_edge b hpins.ne.2.1).trans hlatency) hquiet'⟩
      · rw [hi]
        by_cases hc : 1 < s.ctl.init.count
        · refine .inr ?_
          simp only [Init.edge, hstate, hc, if_true, hnext]
          exact ⟨trivial, trivial, by omega⟩
        · exact .inl (by simp [Init.edge, hstate, hc, hnext])
      · rw [hi]
        simp [Init.edge, hstate]

/-- **Boot step.** -/
theorem Booting.step (h : Booting s) :
    (Booting (edge s b) ∨ (edge s b).ctl.initDone = true ∧ (edge s b).chip.latency = 3 ∧
      Stage (edge s b)) ∧ CmdOk (edge s b) ∧ pins (edge s b) = [] ∧ held (edge s b).ctl.main = [] := by
  have hm := boot_main b h
  have hcode := h.boot.code
  have hrd : (edge s b).ctl.main.cmd.code ≠ .rd := by rw [hm]; exact hcode.1
  have hwr : (edge s b).ctl.main.cmd.code ≠ .wr := by rw [hm]; exact hcode.2
  have hdone : (edge s b).ctl.initDone = (s.ctl.init.state == .done) := by
    show (s.ctl.initDone || _) = _
    rw [h.initDone, Bool.false_or]
  have hreq : (edge s b).ctl.refreshRequest = false := by
    show (_ && s.ctl.initDone) = false
    rw [h.initDone, Bool.and_false]
  have hack : (edge s b).ctl.main.ackRefreshRequest = false := by rw [hm]; exact h.refresh.2
  refine ⟨?_, .other hrd hwr (by rw [hm]), pins_none hrd hwr, by rw [hm]; rfl⟩
  rcases boot_stage b h.boot h with ⟨hne, hboot⟩ | ⟨hstate, hlatency, hpins, hcmd, hquiet⟩
  · refine .inl ⟨by rw [hdone]; exact beq_false_of_ne hne, by rw [hm], by rw [hm], ⟨hreq, hack⟩,
      hrd, ⟨beq_false_of_ne h.code, h.rdValid.1, h.rdValid.2.1⟩, hboot⟩
  · refine .inr ⟨by rw [hdone, hstate]; rfl, (latency_edge b hpins.ne.2.1).trans hlatency,
      .idle (by rw [hm]) (by rw [hm]) (by rw [hm]; exact .inl hcmd) (fun _ => hreq) (.inl hquiet)⟩

/-! ## The invariant -/

theorem inv_edge (h : Inv s) : Inv (edge s b) := by
  obtain ⟨hf, hstage, hcmd, hpipe⟩ := h
  rcases hstage with hboot | ⟨hinit, hlatency, hstage⟩
  · obtain ⟨hstage', hcmd', _⟩ := hboot.step b
    exact ⟨(fifo_edge hf b).2, hstage', hcmd', pipe_edge hcmd hpipe b⟩
  · obtain ⟨hstage', hcmd', _⟩ := hstage.step b hf hinit
    have hinit' : (edge s b).ctl.initDone = true := by
      show (s.ctl.initDone || _) = true
      rw [hinit, Bool.true_or]
    exact ⟨(fifo_edge hf b).2, .inr ⟨hinit', (latency_edge b hstage.code).trans hlatency, hstage'⟩,
      hcmd', pipe_edge hcmd hpipe b⟩

end

theorem inv_reset {s : Board} (h : IsReset s.ctl) : Inv s := by
  have hqueue : s.ctl.fifo.queue = [] := by rw [Fifo.queue, if_pos h.entries]
  have hcmd : s.ctl.main.cmd.code = .nop := by rw [h.cmd]; rfl
  have hrd : s.ctl.main.cmd.code ≠ .rd := by rw [hcmd]; decide
  refine ⟨⟨by rw [h.entries]; decide, ?_, by simp [hqueue]⟩, .inl ⟨h.initDone, h.state, h.fPop,
    ⟨h.refreshRequest, h.ackRefreshRequest⟩, hrd, h.rdValid, ?_⟩,
    .other hrd (by rw [hcmd]; decide) h.oe, ?_⟩
  · rw [h.wrAddress, h.rdAddress, h.entries]
    rfl
  · refine @Boot.start s 1 h.initState (.inl (by rw [h.initCmd]; rfl)) ?_
      (by rw [h.refreshCounter])
    exact ⟨fun _ => hrd, fun h2 => by omega, fun h3 => by omega, fun h4 => by omega⟩
  · obtain ⟨h0, h1, h2⟩ := h.rdValid
    exact ⟨fun hv => absurd (h0.symm.trans hv) Bool.false_ne_true,
      fun hv => absurd (h1.symm.trans hv) Bool.false_ne_true,
      fun hv => absurd (h2.symm.trans hv) Bool.false_ne_true⟩

end FpgaLabs.Nios.Sdram
