import FpgaLabs.Nios.SdramPace
import FpgaLabs.Sync.Latch

/-! The refresh of the SDRAM: each time the counter runs out one refresh command
follows, long before the counter runs out again. -/

namespace FpgaLabs.Nios.Sdram
open Sync

/-- Clocks to the refresh command, when it is asked for. -/
def toRefresh (m : Main) : Nat :=
  match m.state with
  | .idle => 4
  | .act => 9
  | .wait =>
    max m.count 1 +
      match m.next with
      | .idle => 4
      | .refresh => 1
      | _ => 7
  | .read => 7
  | .write => 7
  | .drain => max m.count 1 + 6
  | .precharge => if m.next = .refresh then 3 else 6
  | .refresh => 1
  | .spin => 6

/-- Clocks till the acknowledge is taken back. -/
def ackLeft (m : Main) : Nat :=
  match m.state with
  | .wait => max m.count 1 + 1
  | _ => 1

section
variable {s : Board} (b : Bus)

theorem toRefresh_le (h : Stage s) (hack : s.ctl.main.ackRefreshRequest = false) :
    toRefresh s.ctl.main ≤ 9 := by
  cases h with
  | idle hstate _ _ _ _ => simp [toRefresh, hstate]
  | act hstate _ _ _ _ _ _ _ => simp [toRefresh, hstate]
  | opening hstate hnext _ _ hcount _ _ _ _ _ _ =>
    cases hrnw : s.ctl.main.active.rnw <;> simp [toRefresh, hstate, hnext, hcount, hrnw]
  | closing hstate hnext _ _ hcount _ =>
    rcases hcount with ⟨h3, _⟩ | ⟨h2, _⟩
    · exact absurd (hack.symm.trans h3) Bool.false_ne_true
    · simp only [toRefresh, hstate, hnext]
      omega
  | closed hstate hnext _ hcount _ _ _ => simp [toRefresh, hstate, hnext, hcount]
  | read hstate _ _ _ _ _ => simp [toRefresh, hstate]
  | write hstate _ _ _ _ _ => simp [toRefresh, hstate]
  | drain hstate _ _ _ hcount _ _ => simp [toRefresh, hstate, hcount]
  | precharge hstate _ _ _ _ _ =>
    simp only [toRefresh, hstate]
    split <;> decide
  | refresh hstate _ _ _ _ => simp [toRefresh, hstate]
  | spin hstate _ _ _ _ _ => simp [toRefresh, hstate]

/-- A column command gives way to a refresh. -/
theorem toRefresh_column (hstate : s.ctl.main.state = .read ∨ s.ctl.main.state = .write)
    (hreq : s.ctl.refreshRequest = true) (hack : s.ctl.main.ackRefreshRequest = false) :
    (edge s b).ctl.main.ackRefreshRequest = false ∧
      toRefresh (edge s b).ctl.main < toRefresh s.ctl.main := by
  obtain ⟨_, hack', hcase⟩ := edge_column (v := s.ctl.view) hstate
  rw [← main_edge s b] at hack' hcase
  have hnow : toRefresh s.ctl.main = 7 := by
    rcases hstate with hread | hwrite
    · rw [toRefresh, hread]
    · rw [toRefresh, hwrite]
  refine ⟨hack'.trans hack, ?_⟩
  rw [hnow]
  rcases hcase with ⟨_, _, hwait, hnext, hcount⟩ | ⟨_, hno, _⟩ | ⟨_, hspin, _⟩
  · simp only [toRefresh, hwait, hnext]
    omega
  · exact absurd (hno.symm.trans hreq) Bool.false_ne_true
  · rw [toRefresh, hspin]
    exact Nat.lt_succ_self 6

/-- A request that stands brings its refresh nearer. -/
theorem toRefresh_edge (h : Stage s) (hinit : s.ctl.initDone = true) (hasked : Asked s)
    (hne : s.ctl.main.state ≠ .refresh) :
    (edge s b).ctl.main.ackRefreshRequest = false ∧
      toRefresh (edge s b).ctl.main < toRefresh s.ctl.main := by
  obtain ⟨hreq, hack⟩ := hasked
  cases h with
  | idle hstate _ _ _ _ =>
    rcases edge_idle (v := s.ctl.view) hstate hinit with ⟨_, hm⟩ | ⟨hr, _⟩ | ⟨hr, _⟩
    · rw [main_edge, hm]
      simp [toRefresh, hstate]
    · exact absurd (hr.symm.trans hreq) Bool.false_ne_true
    · exact absurd (hr.symm.trans hreq) Bool.false_ne_true
  | act hstate _ _ _ _ _ _ _ =>
    rw [main_edge, edge_act hstate]
    cases s.ctl.main.active.rnw <;> simp [toRefresh, hstate, hack]
  | opening hstate hnext _ _ hcount _ _ _ _ _ _ =>
    rw [main_edge, edge_wait hstate]
    cases hrnw : s.ctl.main.active.rnw <;> simp [toRefresh, hstate, hnext, hcount, hrnw, hack]
  | closing hstate hnext _ _ _ _ =>
    rw [main_edge, edge_wait hstate]
    refine ⟨hack, ?_⟩
    by_cases hc : 1 < s.ctl.main.count
    · simp only [toRefresh, hstate, hnext, hc, if_true]
      omega
    · simp only [toRefresh, hstate, hnext, hc, if_false]
      omega
  | closed hstate hnext _ hcount _ _ _ =>
    rw [main_edge, edge_wait hstate]
    simp [toRefresh, hstate, hnext, hcount, hack]
  | read hstate _ _ _ _ _ => exact toRefresh_column b (.inl hstate) hreq hack
  | write hstate _ _ _ _ _ => exact toRefresh_column b (.inr hstate) hreq hack
  | drain hstate hnext _ _ hcount _ _ =>
    rw [main_edge, edge_drain hstate]
    simp [toRefresh, hstate, hnext, hcount, hack]
  | precharge hstate _ _ hcount _ hnext =>
    rw [main_edge, edge_precharge hstate]
    rcases hnext with ⟨hnext, _⟩ | ⟨hnext, _⟩ <;>
      simp [toRefresh, hstate, hnext, hcount, hack]
  | refresh hstate _ _ _ _ => exact absurd hstate hne
  | spin hstate _ _ _ _ _ =>
    rcases edge_spin (v := s.ctl.view) hstate with
      ⟨_, hm⟩ | ⟨hr, _⟩ | ⟨hr, _⟩ | ⟨hr, _⟩
    · rw [main_edge, hm]
      simp [toRefresh, hstate, hack]
    all_goals exact absurd (hr.symm.trans hreq) Bool.false_ne_true

theorem ack_main (m : Main) (v : View) (hi : v.initDone = true) :
    (m.edge v).ackRefreshRequest =
      (m.state == .refresh || (m.state != .idle && m.ackRefreshRequest)) := by
  cases hstate : m.state with
  | idle => rcases edge_idle hstate hi with ⟨_, hm⟩ | ⟨_, _, hm⟩ | ⟨_, _, hm⟩ <;> rw [hm] <;> rfl
  | act => rw [edge_act hstate]; rfl
  | wait => rw [edge_wait hstate]; rfl
  | read => exact (edge_column (.inl hstate)).2.1
  | write => exact (edge_column (.inr hstate)).2.1
  | drain => rw [edge_drain hstate]; rfl
  | precharge => rw [edge_precharge hstate]; rfl
  | refresh => rw [edge_refresh hstate]; rfl
  | spin =>
    rcases edge_spin (v := v) hstate with ⟨_, hm⟩ | ⟨_, _, _, hm⟩ | ⟨_, _, _, hm⟩ | ⟨_, _, hm⟩ <;>
      rw [hm] <;> rfl

theorem column_not_arf {m : Main} (v : View) (h : m.state = .read ∨ m.state = .write) :
    (m.edge v).cmd.is .arf = false := by
  apply is_of_ne
  rcases (edge_column (v := v) h).1 with hnop | ⟨hrd | hwr, _⟩
  · rw [hnop]
    decide
  · rw [hrd]
    exact show Code.rd ≠ Code.arf by decide
  · rw [hwr]
    exact show Code.wr ≠ Code.arf by decide

/-- The refresh command leaves the refresh state only. -/
theorem arf_main (m : Main) (v : View) (hi : v.initDone = true) :
    (m.edge v).cmd.is .arf = (m.state == .refresh) := by
  cases hstate : m.state with
  | idle => rcases edge_idle hstate hi with ⟨_, hm⟩ | ⟨_, _, hm⟩ | ⟨_, _, hm⟩ <;> rw [hm] <;> rfl
  | act => rw [edge_act hstate]; exact Bool.and_false _
  | wait => rw [edge_wait hstate]; exact Bool.and_false _
  | read => exact column_not_arf v (.inl hstate)
  | write => exact column_not_arf v (.inr hstate)
  | drain => rw [edge_drain hstate]; exact Bool.and_false _
  | precharge => rw [edge_precharge hstate]; exact Bool.and_false _
  | refresh => rw [edge_refresh hstate]; rfl
  | spin =>
    rcases edge_spin (v := v) hstate with ⟨_, hm⟩ | ⟨_, _, _, hm⟩ | ⟨_, _, _, hm⟩ | ⟨_, _, hm⟩ <;>
      rw [hm] <;> exact Bool.and_false _

/-- The acknowledge stands while the main FSM waits to be idle. -/
theorem Stage.acked (h : Stage s) (hack : s.ctl.main.ackRefreshRequest = true) :
    s.ctl.main.state = .idle ∨ s.ctl.main.state = .wait ∧ s.ctl.main.next = .idle := by
  have hno {p : Prop} (h : s.ctl.main.ackRefreshRequest = false) : p :=
    absurd (h.symm.trans hack) Bool.false_ne_true
  cases h with
  | idle hstate _ _ _ _ => exact .inl hstate
  | closing hstate hnext _ _ _ _ => exact .inr ⟨hstate, hnext⟩
  | closed _ _ _ _ hasked _ _ => exact hno hasked.2
  | refresh _ _ hasked _ _ => exact hno hasked.2
  | act _ _ h _ _ _ _ _ => exact hno h
  | opening _ _ _ h _ _ _ _ _ _ _ => exact hno h
  | read _ h _ _ _ _ => exact hno h
  | write _ h _ _ _ _ => exact hno h
  | drain _ _ _ h _ _ _ => exact hno h
  | precharge _ _ h _ _ _ => exact hno h
  | spin _ _ h _ _ _ => exact hno h

/-- The acknowledge comes with the refresh command, and goes. -/
theorem ack_edge (h : Stage s) (hinit : s.ctl.initDone = true)
    (hack : (edge s b).ctl.main.ackRefreshRequest = true) :
    s.ctl.main.state = .refresh ∧ ackLeft (edge s b).ctl.main = 4 ∨
      s.ctl.main.ackRefreshRequest = true ∧
        ackLeft (edge s b).ctl.main < ackLeft s.ctl.main := by
  have hmain := ack_main s.ctl.main s.ctl.view hinit
  rw [← main_edge s b, hack] at hmain
  by_cases hstate : s.ctl.main.state = .refresh
  · refine .inl ⟨hstate, ?_⟩
    rw [main_edge, edge_refresh hstate]
    rfl
  · rw [beq_false_of_ne hstate, Bool.false_or] at hmain
    obtain ⟨hidle, hwas⟩ := Bool.and_eq_true_iff.mp hmain.symm
    obtain ⟨hstate, hnext⟩ := (h.acked hwas).resolve_left (by simpa using hidle)
    refine .inr ⟨hwas, ?_⟩
    rw [main_edge, edge_wait hstate]
    by_cases hc : 1 < s.ctl.main.count
    · simp only [ackLeft, hstate, hc, if_true]
      omega
    · simp only [ackLeft, hstate, hnext, hc, if_false]
      omega

/-! ## Deadlines -/

/-- A refresh that is asked for, and one that is acknowledged, are far from the
next time the counter runs out. -/
structure Timely (s : Board) : Prop where
  top : s.ctl.initDone = false ∧ s.ctl.init.state = .start ∨ s.ctl.refreshCounter ≤ 781
  asked : Asked s → 772 + toRefresh s.ctl.main ≤ s.ctl.refreshCounter
  acked : s.ctl.main.ackRefreshRequest = true → 768 + ackLeft s.ctl.main ≤ s.ctl.refreshCounter
  issued : s.ctl.initDone = true → s.ctl.main.cmd.is .arf = true →
    s.ctl.main.ackRefreshRequest = true ∧ 772 ≤ s.ctl.refreshCounter
  never : s.ctl.zaCannotrefresh = false

theorem toRefresh_pos (m : Main) : 0 < toRefresh m := by
  rw [toRefresh]
  split <;> first | omega | (split <;> omega)

/-- At zero no refresh is pending and none acknowledged. -/
theorem Timely.free (h : Timely s) (hzero : s.ctl.refreshCounter = 0) :
    s.ctl.refreshRequest = false ∧ s.ctl.main.ackRefreshRequest = false := by
  have hack : s.ctl.main.ackRefreshRequest = false := by
    rw [← Bool.not_eq_true]
    intro hack
    have hle := h.acked hack
    omega
  refine ⟨?_, hack⟩
  rw [← Bool.not_eq_true]
  intro hreq
  have hle := h.asked ⟨hreq, hack⟩
  omega

/-- The refresh state is entered on request. -/
theorem Stage.asked (h : Stage s) (hstate : s.ctl.main.state = .refresh) : Asked s := by
  cases h with
  | refresh _ _ hasked _ _ => exact hasked
  | idle h _ _ _ _ => exact absurd (h.symm.trans hstate) (by decide)
  | act h _ _ _ _ _ _ _ => exact absurd (h.symm.trans hstate) (by decide)
  | opening h _ _ _ _ _ _ _ _ _ _ => exact absurd (h.symm.trans hstate) (by decide)
  | closing h _ _ _ _ _ => exact absurd (h.symm.trans hstate) (by decide)
  | closed h _ _ _ _ _ _ => exact absurd (h.symm.trans hstate) (by decide)
  | read h _ _ _ _ _ => exact absurd (h.symm.trans hstate) (by decide)
  | write h _ _ _ _ _ => exact absurd (h.symm.trans hstate) (by decide)
  | drain h _ _ _ _ _ _ => exact absurd (h.symm.trans hstate) (by decide)
  | precharge h _ _ _ _ _ => exact absurd (h.symm.trans hstate) (by decide)
  | spin h _ _ _ _ _ => exact absurd (h.symm.trans hstate) (by decide)

/-- A refresh is asked for when the counter is at zero, or was and is not done. -/
theorem asked_edge (hinit : s.ctl.initDone = true) (ht : Timely s)
    (hstage : Stage s) : Asked (edge s b) ↔
      s.ctl.refreshCounter = 0 ∨ Asked s ∧ s.ctl.main.state ≠ .refresh := by
  have hreq : (edge s b).ctl.refreshRequest = ((s.ctl.refreshCounter == 0 ||
      s.ctl.refreshRequest) && !s.ctl.main.ackRefreshRequest && s.ctl.initDone) := rfl
  have hack := ack_main s.ctl.main s.ctl.view hinit
  rw [← main_edge s b] at hack
  rw [hinit, Bool.and_true] at hreq
  rw [Asked, hreq, hack]
  by_cases hzero : s.ctl.refreshCounter = 0
  · obtain ⟨hfree, hnack⟩ := ht.free hzero
    have hne : s.ctl.main.state ≠ .refresh := fun h =>
      Bool.false_ne_true (hfree.symm.trans (hstage.asked h).1)
    simp [hzero, hnack, hne]
  · rw [Asked]
    by_cases hne : s.ctl.main.state = .refresh
    · simp [hzero, hne]
    · cases hr : s.ctl.refreshRequest <;> cases ha : s.ctl.main.ackRefreshRequest <;>
        simp [hzero, hne]

/-- **Deadlines kept.** -/
theorem timely_edge (h : Inv s) (ht : Timely s) : Timely (edge s b) := by
  have hcounter : (edge s b).ctl.refreshCounter =
    if s.ctl.refreshCounter = 0 then 781 else s.ctl.refreshCounter - 1 := rfl
  have hcannot : (edge s b).ctl.zaCannotrefresh =
    (s.ctl.refreshCounter == 0 && s.ctl.refreshRequest) := rfl
  have hnever : (edge s b).ctl.zaCannotrefresh = false := by
    rw [hcannot]
    by_cases hzero : s.ctl.refreshCounter = 0
    · rw [(ht.free hzero).1, Bool.and_false]
    · rw [beq_false_of_ne hzero, Bool.false_and]
  have htop : (edge s b).ctl.initDone = false ∧ (edge s b).ctl.init.state = .start ∨
      (edge s b).ctl.refreshCounter ≤ 781 := by
    by_cases hzero : s.ctl.refreshCounter = 0
    · exact .inr (by rw [hcounter, if_pos hzero])
    · rcases ht.top with ⟨hno, hstart⟩ | hle
      · refine .inl ⟨?_, ?_⟩
        · show (s.ctl.initDone || s.ctl.init.state == .done) = false
          rw [hno, hstart]
          rfl
        · show (s.ctl.init.edge s.ctl.refreshCounter).state = .start
          simp [Init.edge, hstart, hzero]
      · exact .inr (by rw [hcounter, if_neg hzero]; omega)
  rcases h.stage with hboot | ⟨hinit, _, hstage⟩
  · have hack : (edge s b).ctl.main.ackRefreshRequest = false := by
      rw [boot_main b hboot]
      exact hboot.refresh.2
    have hreq : (edge s b).ctl.refreshRequest = false := by
      show (_ && s.ctl.initDone) = false
      rw [hboot.initDone, Bool.and_false]
    refine ⟨htop, fun hasked => absurd (hreq.symm.trans hasked.1) Bool.false_ne_true,
      fun hacked => absurd (hack.symm.trans hacked) Bool.false_ne_true, fun hdone harf => ?_, hnever⟩
    rcases boot_stage b hboot.boot hboot with ⟨hne, _⟩ | ⟨_, _, _, hcmd, _⟩
    · have hnot : (edge s b).ctl.initDone = false := by
        show (s.ctl.initDone || s.ctl.init.state == .done) = false
        rw [hboot.initDone, beq_false_of_ne hne]
        rfl
      exact absurd (hnot.symm.trans hdone) Bool.false_ne_true
    · rw [boot_main b hboot, is_of_ne (by rw [hcmd]; decide)] at harf
      exact absurd harf Bool.false_ne_true
  · have hstage' := (hstage.step b h.fifo hinit).stage
    refine ⟨htop, fun hasked => ?_, fun hacked => ?_, fun _ harf => ?_, hnever⟩
    · rcases (asked_edge b hinit ht hstage).mp hasked with hzero | ⟨hwas, hne⟩
      · have hle := toRefresh_le hstage' hasked.2
        rw [hcounter, if_pos hzero]
        omega
      · obtain ⟨_, hlt⟩ := toRefresh_edge b hstage hinit hwas hne
        have hle := ht.asked hwas
        rw [hcounter, if_neg (by omega)]
        omega
    · rcases ack_edge b hstage hinit hacked with ⟨hstate, hfour⟩ | ⟨hwas, hlt⟩
      · have hle := ht.asked (hstage.asked hstate)
        have hpos := toRefresh_pos s.ctl.main
        rw [hcounter, if_neg (by omega), hfour]
        omega
      · have hle := ht.acked hwas
        rw [hcounter, if_neg (by omega)]
        omega
    · have hstate : s.ctl.main.state = .refresh := by
        have hmain := arf_main s.ctl.main s.ctl.view hinit
        rw [← main_edge s b, harf] at hmain
        exact beq_iff_eq.mp hmain.symm
      have hle := ht.asked (hstage.asked hstate)
      have hpos := toRefresh_pos s.ctl.main
      refine ⟨by rw [main_edge, edge_refresh hstate], ?_⟩
      rw [hcounter, if_neg (by omega)]
      omega

end

theorem timely_reset {s : Board} (h : IsReset s.ctl) : Timely s := by
  refine ⟨.inl ⟨h.initDone, h.initState⟩, fun hasked => ?_, fun hack => ?_, fun hdone _ => ?_,
    h.zaCannotrefresh⟩
  · exact absurd (h.refreshRequest.symm.trans hasked.1) Bool.false_ne_true
  · exact absurd (h.ackRefreshRequest.symm.trans hack) Bool.false_ne_true
  · exact absurd (h.initDone.symm.trans hdone) Bool.false_ne_true

theorem timely_run {s : Board} (h : IsReset s.ctl) (bs : List Bus) :
    Inv (run edge s bs) ∧ Timely (run edge s bs) :=
  run_preserves (fun s => Inv s ∧ Timely s)
    (fun _ b hi => ⟨inv_edge b hi.1, timely_edge b hi.1 hi.2⟩) ⟨inv_reset h, timely_reset h⟩

/-- **No refresh is missed.** In no run from reset does the counter run out on a
refresh that is still to be done: `za_cannotrefresh` stays low. -/
theorem cannotrefresh_never {s : Board} (h : IsReset s.ctl) (bs : List Bus) :
    (run edge s bs).ctl.zaCannotrefresh = false := (timely_run h bs).2.never

/-- Not under reads without a pause either. -/
theorem cannotrefresh_never_reads :
    (run edge (resetBoard fun _ => 0) (List.replicate 10000 Bus.read)).ctl.zaCannotrefresh =
      false :=
  cannotrefresh_never isReset_resetCtl _

/-! ## The rate of the refreshes -/

/-- A refresh command at the pins. -/
def arf (s : Board) (_ : Bus) : Bool := s.ctl.main.cmd.is .arf

/-- Refreshes asked for that the SDRAM has not seen. -/
def owed (s : Board) : Nat :=
  (s.ctl.refreshRequest && !s.ctl.main.ackRefreshRequest).toNat + (s.ctl.main.cmd.is .arf).toNat

theorem asked_iff (s : Board) :
    Asked s ↔ (s.ctl.refreshRequest && !s.ctl.main.ackRefreshRequest) = true := by
  simp [Asked]

section
variable {s : Board} (b : Bus)

theorem owed_edge (h : Ready s) (ht : Timely s) :
    owed s + (s.ctl.refreshCounter == 0).toNat = (arf s b).toNat + owed (edge s b) := by
  have hasked := asked_edge b h.2 ht h.stage
  rw [asked_iff, asked_iff] at hasked
  have harf : (edge s b).ctl.main.cmd.is .arf = (s.ctl.main.state == .refresh) :=
    arf_main s.ctl.main s.ctl.view h.2
  rw [owed, owed, harf, arf]
  by_cases hzero : s.ctl.refreshCounter = 0
  · obtain ⟨hfree, _⟩ := ht.free hzero
    have hne : s.ctl.main.state ≠ .refresh := fun hstate =>
      Bool.false_ne_true (hfree.symm.trans (h.stage.asked hstate).1)
    rw [hasked.mpr (.inl hzero), hfree, beq_false_of_ne hne, hzero]
    simp [Nat.add_comm]
  · rw [beq_false_of_ne hzero]
    by_cases hstate : s.ctl.main.state = .refresh
    · have hwas := (asked_iff s).mp (h.stage.asked hstate)
      have hnot : ((edge s b).ctl.refreshRequest &&
          !(edge s b).ctl.main.ackRefreshRequest) = false := by
        rw [← Bool.not_eq_true, hasked]
        simp [hzero, hstate]
      rw [hwas, hnot, hstate]
      simp [Nat.add_comm]
    · have hsame : ((edge s b).ctl.refreshRequest && !(edge s b).ctl.main.ackRefreshRequest) =
          (s.ctl.refreshRequest && !s.ctl.main.ackRefreshRequest) := by
        rw [Bool.eq_iff_iff, hasked]
        simp [hzero, hstate]
      rw [hsame, beq_false_of_ne hstate]
      simp [Nat.add_comm]

/-- What is owed is of the current period. -/
theorem owed_late (h : Ready s) (ht : Timely s) :
    owed s = 0 ∨ owed s = 1 ∧ 772 ≤ s.ctl.refreshCounter := by
  rw [owed]
  cases harf : s.ctl.main.cmd.is .arf with
  | true =>
    obtain ⟨hack, hle⟩ := ht.issued h.2 harf
    rw [hack, Bool.not_true, Bool.and_false]
    exact .inr ⟨rfl, hle⟩
  | false =>
    cases hwas : (s.ctl.refreshRequest && !s.ctl.main.ackRefreshRequest) with
    | true =>
      have hle := ht.asked ((asked_iff s).mpr hwas)
      exact .inr ⟨rfl, by omega⟩
    | false => exact .inl rfl

theorem counter_top (h : Ready s) (ht : Timely s) : s.ctl.refreshCounter ≤ 781 :=
  ht.top.resolve_left fun hboot => Bool.false_ne_true (hboot.1.symm.trans h.2)

end

/-- **Refresh rate.** In every stretch of a run the SDRAM gets one refresh command
for each 782 clocks, up to one period and nine clocks: none is lost, put off for
longer, or doubled, whatever the traffic. -/
theorem refresh_rate {s : Board} (h : IsReset s.ctl) {bs : List Bus} (hbs : 5017 ≤ bs.length)
    (cs : List Bus) :
    782 * tally edge arf (run edge s bs) cs ≤ cs.length + 791 ∧
      cs.length ≤ 782 * tally edge arf (run edge s bs) cs + 791 := by
  have hready := ready_run h hbs
  have htimely := (timely_run h bs).2
  have hkeep (s : Board) (b : Bus) (hi : Ready s ∧ Timely s) :
      Ready (edge s b) ∧ Timely (edge s b) := ⟨hi.1.edge b, timely_edge b hi.1.1 hi.2⟩
  have hend : Ready (run edge (run edge s bs) cs) ∧ Timely (run edge (run edge s bs) cs) :=
    run_preserves (fun s => Ready s ∧ Timely s) hkeep ⟨hready, htimely⟩
  have hbalance := tally_balance (fun s => Ready s ∧ Timely s)
    (fun s b hi => ⟨hkeep s b hi, owed_edge b hi.1 hi.2⟩) ⟨hready, htimely⟩ cs
  have hperiod := @tally_period Board Bus edge (fun s => s.ctl.refreshCounter) 781
    (fun _ _ => rfl) (run edge s bs) cs
  have htop := counter_top hready htimely
  have htop' := counter_top hend.1 hend.2
  have howed := owed_late hready htimely
  have howed' := owed_late hend.1 hend.2
  omega

/-- Under them, 99 to 101 refreshes in 100 periods. -/
theorem refresh_rate_reads :
    let s := run edge (resetBoard fun _ => 0) (List.replicate 5017 Bus.read)
    let n := tally edge arf s (List.replicate 78200 Bus.read)
    99 ≤ n ∧ n ≤ 101 := by
  intro s n
  have hrate := refresh_rate (s := resetBoard fun _ => 0) isReset_resetCtl
    (le_clocks 5017 Bus.read) (List.replicate 78200 Bus.read)
  rw [List.length_replicate] at hrate
  have hn : 782 * n ≤ 78200 + 791 ∧ 78200 ≤ 782 * n + 791 := hrate
  omega

end FpgaLabs.Nios.Sdram
