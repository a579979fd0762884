import FpgaLabs.Nios.SdramMemory

/-! How long the SDRAM controller takes: until it is set up, and for a request
with refreshes in between. -/

namespace FpgaLabs.Nios.Sdram
open Sync

/-! ## The init FSM -/

/-- Clocks from a state of the init FSM to `init_done`. -/
def InitState.left (refs : BitVec 3) : InitState → Nat
  | .start => 17
  | .precharge => 16
  | .refresh => if refs = 0 then 14 else 10
  | .count => 0
  | .done => 1
  | .mode => 6

def bootLeft (s : Board) : Nat :=
  match s.ctl.init.state with
  | .start => s.ctl.refreshCounter + 17
  | .count => max s.ctl.init.count 1 + s.ctl.init.next.left s.ctl.init.refs
  | state => state.left s.ctl.init.refs

section
variable {s : Board} (b : Bus)

theorem bootLeft_count (hstate : s.ctl.init.state = .count)
    (hnext : s.ctl.init.next = .refresh ∨ s.ctl.init.next = .mode ∨ s.ctl.init.next = .done) :
    bootLeft (edge s b) < bootLeft s := by
  have hi : (edge s b).ctl.init = s.ctl.init.edge s.ctl.refreshCounter := rfl
  by_cases hc : 1 < s.ctl.init.count
  · simp only [bootLeft, hi, Init.edge, hstate, hc, if_true]
    omega
  · rcases hnext with hnext | hnext | hnext <;>
      simp only [bootLeft, hi, Init.edge, hstate, hnext, hc, if_false] <;> omega

theorem bootLeft_edge (h : Boot s) (hne : s.ctl.init.state ≠ .done) :
    bootLeft (edge s b) < bootLeft s := by
  have hi : (edge s b).ctl.init = s.ctl.init.edge s.ctl.refreshCounter := rfl
  have hcounter : (edge s b).ctl.refreshCounter =
    if s.ctl.refreshCounter = 0 then 781 else s.ctl.refreshCounter - 1 := rfl
  cases h with
  | start hstate _ _ _ =>
    by_cases hc : s.ctl.refreshCounter = 0
    · simp [bootLeft, hi, Init.edge, hstate, hc, InitState.left]
    · simp only [bootLeft, hi, hcounter, Init.edge, hstate, hc, if_false]
      omega
  | run hstate _ _ =>
    rcases hstate with ⟨hstate, hrefs⟩ | ⟨hstate, hrefs⟩ | hstate | ⟨hstate, hnext⟩
    · simp [bootLeft, hi, Init.edge, hstate, hrefs, InitState.left]
    · rcases hrefs with hrefs | hrefs <;>
        simp [bootLeft, hi, Init.edge, hstate, hrefs, InitState.left]
    · simp [bootLeft, hi, Init.edge, hstate, InitState.left]
    · exact bootLeft_count b hstate (hnext.imp (·.1) .inl)
  | loading hstate hnext _ _ _ _ => exact bootLeft_count b hstate (.inr (.inr hnext))
  | loaded hstate hnext _ _ _ _ _ => exact bootLeft_count b hstate (.inr (.inr hnext))
  | ready hstate _ _ _ _ =>
    rcases hstate with hstate | ⟨hstate, hnext, _⟩
    · exact absurd hstate hne
    · exact bootLeft_count b hstate (.inr (.inr hnext))

end

theorem bootLeft_pos (s : Board) : 0 < bootLeft s := by
  rw [bootLeft]
  cases s.ctl.init.state with
  | start => exact Nat.succ_pos _
  | count => exact Nat.add_pos_left (Nat.lt_of_lt_of_le Nat.one_pos (Nat.le_max_right _ _)) _
  | refresh =>
    show 0 < if s.ctl.init.refs = 0 then 14 else 10
    split <;> decide
  | precharge => exact Nat.succ_pos 15
  | done => exact Nat.succ_pos 0
  | mode => exact Nat.succ_pos 5

/-- The controller is set up after at most `bootLeft` clocks. -/
theorem initDone_run {s : Board} (h : Inv s) {bs : List Bus}
    (hlen : s.ctl.initDone = true ∨ bootLeft s ≤ bs.length) :
    (run edge s bs).ctl.initDone = true := by
  induction bs generalizing s with
  | nil => exact hlen.resolve_right (Nat.not_le_of_lt (bootLeft_pos s))
  | cons b bs ih =>
    refine ih (inv_edge b h) ?_
    have hdone : (edge s b).ctl.initDone = (s.ctl.initDone || s.ctl.init.state == .done) := rfl
    rcases h.stage with hboot | ⟨hinit, _⟩
    · by_cases hstate : s.ctl.init.state = .done
      · exact .inl (by rw [hdone, hstate]; exact Bool.or_true _)
      · have hlt := bootLeft_edge b hboot.boot hstate
        rw [hboot.initDone, List.length_cons] at hlen
        exact .inr (by have hle := hlen.resolve_left Bool.false_ne_true; omega)
    · exact .inl (by rw [hdone, hinit]; rfl)

theorem bootLeft_reset {s : Board} (h : IsReset s.ctl) : bootLeft s = 5017 := by
  rw [bootLeft, h.initState, h.refreshCounter]

/-! ## The next column command -/

/-- What a refresh that is asked for costs. -/
def slack (s : Board) : Nat :=
  if s.ctl.refreshRequest && !s.ctl.main.ackRefreshRequest then 7 else 0

/-- Clocks to the next column command, if no refresh is asked for till then. -/
def toColumn (s : Board) : Nat :=
  match s.ctl.main.state with
  | .idle => 4 + slack s
  | .act => 3
  | .wait =>
    max s.ctl.main.count 1 +
      match s.ctl.main.next with
      | .idle => 4 + slack s
      | .refresh => 8
      | _ => 1
  | .read => if s.ctl.main.pending s.ctl.view || !s.ctl.main.fPop then 1 else 9 + slack s
  | .write => if s.ctl.main.pending s.ctl.view || !s.ctl.main.fPop then 1 else 9 + slack s
  | .drain => 7 + slack s
  | .precharge => if s.ctl.main.next = .refresh then 10 else 6 + slack s
  | .refresh => 8
  | .spin => 8 + slack s

theorem slack_le (s : Board) : slack s ≤ 7 := by
  rw [slack]
  split <;> decide

section
variable {s : Board} (b : Bus)

/-- Only a counter at zero asks for a refresh. -/
theorem slack_edge (h : s.ctl.refreshCounter ≠ 0 ∨ slack s = 7) : slack (edge s b) ≤ slack s := by
  rcases h with hc | h7
  · have hreq : (edge s b).ctl.refreshRequest = ((s.ctl.refreshCounter == 0 ||
      s.ctl.refreshRequest) && !s.ctl.main.ackRefreshRequest && s.ctl.initDone) := rfl
    rw [beq_false_of_ne hc, Bool.false_or] at hreq
    cases hr : (s.ctl.refreshRequest && !s.ctl.main.ackRefreshRequest) with
    | true =>
      rw [slack, slack, hr]
      split <;> decide
    | false =>
      rw [hr, Bool.false_and] at hreq
      rw [slack, hreq]
      exact Nat.zero_le _
  · rw [h7]
    exact slack_le _

theorem toColumn_le (h : Stage s) : toColumn s ≤ 16 := by
  have hslack := slack_le s
  cases h with
  | idle hstate _ _ _ _ =>
    simp only [toColumn, hstate]
    omega
  | act hstate _ _ _ _ _ _ _ =>
    simp only [toColumn, hstate]
    omega
  | opening hstate hnext _ _ hcount _ _ _ _ _ _ =>
    simp only [toColumn, hstate, hnext, hcount]
    cases s.ctl.main.active.rnw <;> simp
  | closing hstate hnext _ _ hcount _ =>
    simp only [toColumn, hstate, hnext]
    omega
  | closed hstate hnext _ hcount _ _ _ =>
    simp only [toColumn, hstate, hnext, hcount]
    omega
  | read hstate _ _ _ _ _ =>
    simp only [toColumn, hstate]
    split <;> omega
  | write hstate _ _ _ _ _ =>
    simp only [toColumn, hstate]
    split <;> omega
  | drain hstate _ _ _ _ _ _ =>
    simp only [toColumn, hstate]
    omega
  | precharge hstate _ _ _ _ _ =>
    simp only [toColumn, hstate]
    split <;> omega
  | refresh hstate _ _ _ _ =>
    simp only [toColumn, hstate]
    omega
  | spin hstate _ _ _ _ _ =>
    simp only [toColumn, hstate]
    omega

theorem slack_asked (h : Asked s) : slack s = 7 := by
  rw [slack, h.1, h.2]
  rfl

/-- A request that waits without a command is in the FIFO. -/
theorem fifo_of_waiting (hw : waiting s ≠ []) (hpins : pins s = []) (hheld : held s.ctl.main = []) :
    s.ctl.fifo.empty = false := by
  rw [← Bool.not_eq_true, Fifo.empty_iff]
  intro hnil
  rw [waiting, hpins, hheld, hnil] at hw
  exact hw rfl

/-- A word that can go out is at the pins or in hand. -/
theorem column_given (hstate : s.ctl.main.state = .read ∨ s.ctl.main.state = .write)
    (hops : held s.ctl.main ++ (if s.ctl.fSelect then [s.ctl.fifo.rdData.op] else []) =
      pins (edge s b) ++ held (edge s b).ctl.main) (hpins' : pins (edge s b) = [])
    (hgo : s.ctl.main.pending s.ctl.view = true ∨ s.ctl.main.fPop = false) :
    held (edge s b).ctl.main ≠ [] := by
  rw [source_ops hstate hgo, hpins', List.nil_append] at hops
  rw [← hops]
  exact List.cons_ne_nil _ _

/-- A word that cannot go out makes room for the next. -/
theorem toColumn_column (hstate : s.ctl.main.state = .read ∨ s.ctl.main.state = .write)
    (hops : held s.ctl.main ++ (if s.ctl.fSelect then [s.ctl.fifo.rdData.op] else []) =
      pins (edge s b) ++ held (edge s b).ctl.main) (hpins' : pins (edge s b) = [])
    (hslack : slack (edge s b) ≤ slack s) : toColumn (edge s b) < toColumn s := by
  have hgo := column_given b hstate hops hpins'
  obtain ⟨_, _, hcase⟩ := edge_column (v := s.ctl.view) hstate
  rw [← main_edge s b] at hcase
  rcases hcase with ⟨hpend, _, hwait, hnext, _⟩ | ⟨hpend, _, hsame, _, hpop⟩ | ⟨hpend, hspin, _⟩
  · exact absurd (hgo (.inl hpend)) (by simp [held, hwait, hnext])
  · refine absurd (hgo (.inl hpend)) ?_
    rcases hstate with hread | hwrite
    · simp [held, hsame, hread, hpop]
    · simp [held, hsame, hwrite, hpop]
  · cases hpop : s.ctl.main.fPop with
    | false => exact absurd (hgo (.inr hpop)) (by simp [held, hspin])
    | true =>
      have hnow : toColumn s = 9 + slack s := by
        rcases hstate with hread | hwrite
        · simp [toColumn, hread, hpend, hpop]
        · simp [toColumn, hwrite, hpend, hpop]
      rw [hnow, toColumn, hspin]
      simp only
      omega

/-- **One clock nearer.** -/
theorem toColumn_edge (hf : FifoOk s.ctl.fifo) (h : Stage s) (hw : waiting s ≠ [])
    (hpins : pins s = []) (hpins' : pins (edge s b) = []) (hslack : slack (edge s b) ≤ slack s)
    (hinit : s.ctl.initDone = true) : toColumn (edge s b) < toColumn s := by
  have hkept := h.step b hf hinit
  cases h with
  | idle hstate hpop _ hack _ =>
    have hheld : held s.ctl.main = [] := by rw [held, hstate]
    have hfull := fifo_of_waiting hw hpins hheld
    rcases edge_idle (v := s.ctl.view) hstate hinit with ⟨hr, hm⟩ | ⟨_, _, hm⟩ | ⟨_, he, _⟩
    · have hno : s.ctl.main.ackRefreshRequest = false := by
        rw [← Bool.not_eq_true]
        exact fun h => Bool.false_ne_true ((hack h).symm.trans hr)
      rw [toColumn, toColumn, main_edge, hm, hstate]
      simp [slack_asked ⟨hr, hno⟩]
    · rw [toColumn, toColumn, main_edge, hm, hstate]
      simp only
      omega
    · exact absurd (hfull.symm.trans he) Bool.false_ne_true
  | act hstate _ _ _ _ _ _ _ =>
    rw [toColumn, toColumn, main_edge, edge_act hstate, hstate]
    cases s.ctl.main.active.rnw <;> simp
  | opening hstate hnext hpop _ hcount _ _ _ _ _ _ =>
    rw [toColumn, toColumn, main_edge, edge_wait hstate, hstate]
    cases hrnw : s.ctl.main.active.rnw <;> simp [hnext, hcount, hrnw]
  | closing hstate hnext _ _ _ _ =>
    rw [toColumn, toColumn, main_edge, edge_wait hstate, hstate]
    by_cases hc : 1 < s.ctl.main.count
    · simp only [hc, hnext, if_true]
      omega
    · simp only [hc, hnext, if_false]
      omega
  | closed hstate hnext _ hcount _ _ _ =>
    rw [toColumn, toColumn, main_edge, edge_wait hstate, hstate]
    simp [hnext, hcount]
  | read hstate _ _ _ _ _ => exact toColumn_column b (.inl hstate) hkept.ops hpins' hslack
  | write hstate _ _ _ _ _ => exact toColumn_column b (.inr hstate) hkept.ops hpins' hslack
  | drain hstate hnext _ _ hcount _ _ =>
    rw [toColumn, toColumn, main_edge, edge_drain hstate, hstate]
    simp [hnext, hcount]
    omega
  | precharge hstate _ _ hcount _ hnext =>
    rw [toColumn, toColumn, main_edge, edge_precharge hstate, hstate]
    rcases hnext with ⟨hnext, _⟩ | ⟨hnext, _⟩
    · simp [hnext, hcount]
      omega
    · simp [hnext, hcount]
  | refresh hstate _ _ _ _ =>
    have hnone : slack (edge s b) = 0 := by
      rw [slack, main_edge, edge_refresh hstate]
      simp
    rw [toColumn, toColumn, hnone, main_edge, edge_refresh hstate, hstate]
    exact Nat.lt_succ_self 7
  | spin hstate hpop _ _ _ _ =>
    have hheld : held s.ctl.main = [] := by rw [held, hstate]
    have hfull := fifo_of_waiting hw hpins hheld
    obtain ⟨he', hhead⟩ := head_kept hf hfull (fSelect_of_pop _ hpop) b
    rcases edge_spin (v := s.ctl.view) hstate with
      ⟨_, hm⟩ | ⟨_, _, _, hm⟩ | ⟨_, _, _, hm⟩ | ⟨_, he, _⟩
    · rw [toColumn, toColumn, main_edge, hm, hstate]
      simp only
      omega
    · have hpend : (edge s b).ctl.main.pending (edge s b).ctl.view = true := by
        have hhit : (edge s b).ctl.main.hit (edge s b).ctl.fifo.rdData = true := by
          rw [hhead, main_edge, hm]
          exact hit_self rfl rfl
        show ((edge s b).ctl.main.hit (edge s b).ctl.fifo.rdData &&
          !(edge s b).ctl.fifo.empty) = true
        rw [hhit, he']
        rfl
      rw [toColumn, toColumn, hpend, main_edge, hm, hstate]
      cases s.ctl.view.f.rnw <;> simp <;> omega
    · rw [toColumn, toColumn, main_edge, hm, hstate]
      simp only
      omega
    · exact absurd (hfull.symm.trans he) Bool.false_ne_true

/-! ## The wait of a request -/

/-- Clocks to the next column command; a refresh that can come before it counts. -/
def rank (s : Board) : Nat :=
  let n := if pins s = [] then toColumn s else 0
  n + if s.ctl.refreshCounter < n then 16 else 0

theorem toColumn_pos (s : Board) : 0 < toColumn s := by
  rw [toColumn]
  split <;> first | omega | (split <;> omega)

/-- The controller is set up. -/
def Ready (s : Board) : Prop := Inv s ∧ s.ctl.initDone = true

theorem Ready.stage (h : Ready s) : Stage s := by
  rcases h.1.stage with hboot | ⟨_, _, hstage⟩
  · exact absurd (hboot.initDone.symm.trans h.2) Bool.false_ne_true
  · exact hstage

theorem Ready.edge (h : Ready s) : Ready (edge s b) := by
  refine ⟨inv_edge b h.1, ?_⟩
  show (s.ctl.initDone || _) = true
  rw [h.2, Bool.true_or]

theorem rank_le (h : Ready s) : rank s ≤ 32 := by
  have hle := toColumn_le h.stage
  rw [rank]
  split <;> split <;> omega

theorem rank_edge (h : Ready s) (hw : waiting s ≠ []) (hpins : pins s = []) :
    rank (Sdram.edge s b) < rank s := by
  have hpos := toColumn_pos s
  have hcounter : (Sdram.edge s b).ctl.refreshCounter =
    if s.ctl.refreshCounter = 0 then 781 else s.ctl.refreshCounter - 1 := rfl
  have hle := toColumn_le (h.edge b).stage
  rw [rank, rank, if_pos hpins]
  by_cases hpins' : pins (Sdram.edge s b) = []
  · rw [if_pos hpins', hcounter]
    by_cases hasked : s.ctl.refreshCounter ≠ 0 ∨ slack s = 7
    · have hlt := toColumn_edge b h.1.fifo h.stage hw hpins hpins' (slack_edge b hasked) h.2
      split <;> split <;> split <;> omega
    · have hzero : s.ctl.refreshCounter = 0 := by
        by_contra hne
        exact hasked (.inl hne)
      rw [if_pos hzero, hzero, if_pos hpos]
      split <;> omega
  · rw [if_neg hpins']
    split <;> omega

theorem waiting_le (s : Board) : (waiting s).length ≤ 4 := by
  have hp : (pins s).length ≤ 1 := by
    rw [pins]
    split
    · exact Nat.le_refl 1
    · split
      · exact Nat.le_refl 1
      · exact Nat.zero_le 1
  have hh : (held s.ctl.main).length ≤ 1 := by
    rw [held]
    split
    · split <;> simp
    · split <;> simp
    · split <;> simp
    · exact Nat.zero_le 1
  have hq : s.ctl.fifo.queue.length ≤ 2 := by
    rw [Fifo.queue]
    split
    · exact Nat.zero_le 2
    · split
      · exact Nat.le_succ 1
      · exact Nat.le_refl 2
  rw [waiting, List.length_append, List.length_append, List.length_map]
  omega

end

/-- The same service, from when it is set up. -/
theorem serves_ready : Serves merge edge Ready (·.chip.mem) accepted (fun s _ => pins s) waiting
    answered pipe :=
  ⟨fun _ b h => h.edge b, fun _ b h => step_mem b h.1, fun _ b h => step_ops b h.1,
    fun _ b h => step_data b h.1⟩

theorem ready_run {s : Board} (h : IsReset s.ctl) {bs : List Bus} (hbs : 5017 ≤ bs.length) :
    Ready (run edge s bs) :=
  ⟨run_preserves Inv (fun _ b => inv_edge b) (inv_reset h),
    initDone_run (inv_reset h) (.inr (by rw [bootLeft_reset h]; exact hbs))⟩

/-- **No starvation.** A master that asks for 133 clocks on end is heard. -/
theorem taken_in_time {s : Board} (h : IsReset s.ctl) {bs cs : List Bus} (hbs : 5017 ≤ bs.length)
    (hcs : 133 ≤ cs.length) (hask : ∀ b ∈ cs, b.azRdN = false ∨ b.azWrN = false) :
    emitted edge accepted (run edge s bs) cs ≠ [] := by
  have hready := ready_run h hbs
  obtain ⟨ds, b, rest, rfl, hds⟩ : ∃ ds b rest, cs = ds ++ b :: rest ∧ ds.length = 132 := by
    have hlt : 132 < cs.length := hcs
    exact ⟨cs.take 132, cs[132], cs.drop 133, by
      rw [← List.drop_eq_getElem_cons hlt, List.take_append_drop], by simp; omega⟩
  rw [emitted_append, emitted]
  intro hnone
  obtain ⟨hbefore, hrest⟩ := List.append_eq_nil_iff.mp hnone
  obtain ⟨hnow, _⟩ := List.append_eq_nil_iff.mp hrest
  have hlen : (waiting (run edge s bs)).length * (32 + 1) ≤ ds.length := by
    rw [hds]
    exact Nat.mul_le_mul_right (32 + 1) (waiting_le (run edge s bs))
  have hcount := serves_ready.count (fun s hs => rank_le hs) (fun s b hs => rank_edge b hs) hready
    (Nat.le_refl _) hlen
  have hops := congrArg List.length (serves_ready.ops hready ds)
  rw [hbefore, List.append_nil, List.length_append] at hops
  have hnil : waiting (run edge (run edge s bs) ds) = [] := List.length_eq_zero_iff.mp (by omega)
  obtain ⟨_, hqueue⟩ := List.append_eq_nil_iff.mp hnil
  have hempty := (Fifo.empty_iff _).mpr (List.map_eq_nil_iff.mp hqueue)
  have hfull : (run edge (run edge s bs) ds).ctl.zaWaitrequest = false := by
    rw [Fifo.empty, beq_iff_eq] at hempty
    rw [Ctl.zaWaitrequest, Fifo.full, hempty]
    rfl
  have hoffer : (!b.azWrN || !b.azRdN) = true := by
    rcases hask b (by simp) with hb | hb <;> simp [hb]
  rw [accepted, Ctl.accepts, hfull, hoffer] at hnow
  exact absurd hnow (List.cons_ne_nil _ _)

theorem le_clocks (n : Nat) (b : Bus) : n ≤ (List.replicate n b).length :=
  Nat.le_of_eq List.length_replicate.symm

/-- A master that only reads. -/
theorem taken_in_time_reads :
    emitted edge accepted (run edge (resetBoard fun _ => 0) (List.replicate 5017 Bus.read))
      (List.replicate 133 Bus.read) ≠ [] := by
  refine taken_in_time isReset_resetCtl (le_clocks 5017 Bus.read) (le_clocks 133 Bus.read)
    fun b hb => .inl ?_
  rw [(List.mem_replicate.mp hb).2]
  rfl

end FpgaLabs.Nios.Sdram
