import FpgaLabs.Sync.Serial

/-! The receiver of the serial port of the Nios system, `uart_rx` of `uart.vhd`,
as it is synthesized: the stimulus source passes the pin on. The input is the
pin after the synchronizer. -/

namespace FpgaLabs.Nios.SerialRx
open Sync

/-- The inputs in one clock cycle. -/
structure Cycle where
  syncRxd : Bool
  rxRdStrobe : Bool
  begintransfer : Bool
  statusWrStrobe : Bool

/-- The registers. `delayed_unxsync_rxdxx1` and `delayed_unxsync_rxdxx2` hold the same. -/
structure Rx where
  delayedSyncRxd : Bool
  baudRateCounter : Nat
  baudClkEn : Bool
  doStartRx : Bool
  delayedRxInProcess : Bool
  rxData : BitVec 8
  framingError : Bool
  breakDetect : Bool
  rxOverrun : Bool
  rxCharReady : Bool
  rxdShiftReg : BitVec 10

/-- `reset_n = '0'`. -/
def Rx.reset : Rx where
  delayedSyncRxd := false
  baudRateCounter := 0
  baudClkEn := false
  doStartRx := false
  delayedRxInProcess := false
  rxData := 0
  framingError := false
  breakDetect := false
  rxOverrun := false
  rxCharReady := false
  rxdShiftReg := 0

def rxdFalling (s : Rx) (c : Cycle) : Bool := !c.syncRxd && s.delayedSyncRxd
def rxdEdge (s : Rx) (c : Cycle) : Bool := c.syncRxd ^^ s.delayedSyncRxd
def rxRdStrobeOnset (c : Cycle) : Bool := c.rxRdStrobe && c.begintransfer
def baudRateCounterIsZero (s : Rx) : Bool := s.baudRateCounter == 0

/-- `shift_reg_start_bit_n`: the start bit, low, ends the frame as it gets here. -/
def rxInProcess (s : Rx) : Bool := s.rxdShiftReg.getLsbD 0

def sampleEnable (s : Rx) : Bool := s.baudClkEn && rxInProcess s
def stopBit (s : Rx) : Bool := s.rxdShiftReg.getLsbD 9
def rawDataIn (s : Rx) : BitVec 8 := s.rxdShiftReg.extractLsb' 1 8
def isBreak (s : Rx) : Bool := s.rxdShiftReg == 0
def isFramingError (s : Rx) : Bool := !stopBit s && !isBreak s
def gotNewChar (s : Rx) : Bool := !rxInProcess s && s.delayedRxInProcess

def baudLoadValue (baudDivisor : Nat) (s : Rx) (c : Cycle) : Nat :=
  if rxdEdge s c then baudDivisor / 2 else baudDivisor

/-- A rising edge of `clk`. -/
def edge (baudDivisor : Nat) (s : Rx) (c : Cycle) : Rx where
  delayedSyncRxd := c.syncRxd
  baudRateCounter :=
    if baudRateCounterIsZero s || rxdEdge s c then baudLoadValue baudDivisor s c
    else s.baudRateCounter - 1
  baudClkEn := if rxdEdge s c then false else baudRateCounterIsZero s
  doStartRx := !rxInProcess s && rxdFalling s c
  delayedRxInProcess := rxInProcess s
  rxData := if gotNewChar s then rawDataIn s else s.rxData
  framingError :=
    if c.statusWrStrobe then false
    else if gotNewChar s && isFramingError s then true else s.framingError
  breakDetect :=
    if c.statusWrStrobe then false
    else if gotNewChar s && isBreak s then true else s.breakDetect
  rxOverrun :=
    if c.statusWrStrobe then false
    else if gotNewChar s && s.rxCharReady then true else s.rxOverrun
  rxCharReady :=
    if rxRdStrobeOnset c then false else if gotNewChar s then true else s.rxCharReady
  rxdShiftReg :=
    if s.doStartRx then BitVec.allOnes 10
    else if sampleEnable s then BitVec.cons c.syncRxd (s.rxdShiftReg.extractLsb' 1 9)
    else s.rxdShiftReg

/-- The character the receiver hands on in this cycle, if it does. -/
def received (s : Rx) (_ : Cycle) : List (BitVec 8) := if gotNewChar s then [rawDataIn s] else []

/-! ## The baud rate generator -/

/-- Counter and enable as one count of clocks to the next enable. -/
structure Baud (div : Nat) (count : Nat) (s : Rx) : Prop where
  counter : s.baudRateCounter = if count = 0 then div else count - 1
  clkEn : s.baudClkEn = decide (count = 0)

/-- The receiver without its frames. -/
def Sampling (div : Nat) (p : Sampler) (s : Rx) : Prop :=
  s.delayedSyncRxd = p.last ∧ Baud div p.count s

theorem sampling_reset (div : Nat) : Sampling div ⟨false, 1⟩ .reset := ⟨rfl, rfl, rfl⟩

/-- An edge starts the count again, half a bit away. -/
theorem sampling_edge {div : Nat} (hdiv : 0 < div) {p : Sampler} {s : Rx}
    (h : Sampling div p s) (c : Cycle) :
    Sampling div (p.step (div / 2 + 1) div c.syncRxd) (edge div s c) := by
  obtain ⟨hlast, hcounter, hen⟩ := h
  refine ⟨rfl, ?_⟩
  have hedge : rxdEdge s c = (c.syncRxd != p.last) := by
    rw [rxdEdge, hlast]
  by_cases hv : c.syncRxd = p.last
  · have hno : rxdEdge s c = false := by simp [hedge, hv]
    by_cases h0 : p.count = 0
    · have hz : baudRateCounterIsZero s = false := by
        simp [baudRateCounterIsZero, hcounter, h0]
        omega
      constructor
      · simp [edge, hno, hz, Sampler.step, hv, h0, hcounter, show div ≠ 0 by omega]
      · simp [edge, hno, hz, Sampler.step, hv, h0, show div ≠ 0 by omega]
    · by_cases h1 : p.count = 1
      · have hz : baudRateCounterIsZero s = true := by
          simp [baudRateCounterIsZero, hcounter, h1]
        constructor <;> simp [edge, hno, hz, Sampler.step, hv, h1, baudLoadValue]
      · have hz : baudRateCounterIsZero s = false := by
          simp [baudRateCounterIsZero, hcounter, h0]
          omega
        constructor
        · simp [edge, hno, hz, Sampler.step, hv, h0, hcounter, show p.count - 1 ≠ 0 by omega]
        · simp [edge, hno, hz, Sampler.step, hv, h0]
          omega
  · have hyes : rxdEdge s c = true := by simp [hedge, hv]
    constructor <;> simp [edge, hyes, Sampler.step, hv, baudLoadValue]

/-! ## A frame -/

/-- The shift register holds the samples `got`, the newest on top of ones. -/
def Shifted (got : List Bool) (r : BitVec 10) : Prop :=
  ∀ i, i < 10 → r.getLsbD i = (List.replicate (10 - got.length) true ++ got).getD i false

theorem shifted_allOnes : Shifted [] (BitVec.allOnes 10) := by
  have hall : ∀ i : Fin 10, (BitVec.allOnes 10).getLsbD i.1 =
      (List.replicate (10 - 0) true ++ []).getD i.1 false := by decide
  exact fun i hi => hall ⟨i, hi⟩

theorem shifted_cons {got : List Bool} {r : BitVec 10} (h : Shifted got r)
    (hlen : got.length < 10) (v : Bool) :
    Shifted (got ++ [v]) (BitVec.cons v (r.extractLsb' 1 9)) := by
  intro i hi
  have hlist : List.replicate (10 - got.length) true ++ got =
      true :: (List.replicate (10 - (got ++ [v]).length) true ++ got) := by
    rw [List.length_append, List.length_singleton, ← List.cons_append, ← List.replicate_succ]
    congr 2
    omega
  rw [← List.append_assoc]
  by_cases h9 : i = 9
  · subst h9
    have hl : (List.replicate (10 - (got ++ [v]).length) true ++ got).length = 9 := by
      simp
      omega
    rw [List.getD_eq_getElem?_getD, List.getElem?_append_right (by omega), hl,
      BitVec.getLsbD_cons, if_pos rfl]
    rfl
  · have hbit := h (i + 1) (by omega)
    rw [hlist, List.getD_cons_succ] at hbit
    have hl : i < (List.replicate (10 - (got ++ [v]).length) true ++ got).length := by
      simp
      omega
    rw [List.getD_eq_getElem?_getD, List.getElem?_append_left hl, ← List.getD_eq_getElem?_getD,
      ← hbit, BitVec.getLsbD_cons, if_neg (by omega), BitVec.getLsbD_extractLsb']
    simp [show i < 9 by omega, Nat.add_comm]

/-- No error is flagged. -/
def Clean (s : Rx) : Prop := s.framingError = false ∧ s.breakDetect = false

/-- In process, with the samples `got`. -/
structure InFrame (div : Nat) (got : List Bool) (p : Sampler) (s : Rx) : Prop where
  sampling : Sampling div p s
  doStartRx : s.doStartRx = false
  shifted : Shifted got s.rxdShiftReg
  short : got.length < 10
  clean : Clean s

/-- Nothing is in process; the line was last at `last`. -/
structure Idle (div : Nat) (last : Bool) (s : Rx) : Prop where
  sampling : ∃ count, Sampling div ⟨last, count⟩ s
  doStartRx : s.doStartRx = false
  inProcess : rxInProcess s = false
  delayed : s.delayedRxInProcess = false
  clean : Clean s

theorem InFrame.inProcess {div : Nat} {got : List Bool} {p : Sampler} {s : Rx}
    (h : InFrame div got p s) : rxInProcess s = true := by
  have hpos : 10 - got.length = (9 - got.length) + 1 := by
    have := h.short
    omega
  rw [rxInProcess, h.shifted 0 (by decide), hpos, List.replicate_succ]
  rfl

theorem InFrame.quiet {div : Nat} {got : List Bool} {p : Sampler} {s : Rx}
    (h : InFrame div got p s) (c : Cycle) : gotNewChar s = false ∧ received s c = [] := by
  have hno : gotNewChar s = false := by simp [gotNewChar, h.inProcess]
  exact ⟨hno, by simp [received, hno]⟩

/-- Without a new character the error flags only go down. -/
theorem clean_edge {div : Nat} {s : Rx} (h : Clean s) (c : Cycle)
    (hgot : gotNewChar s = true → isFramingError s = false ∧ isBreak s = false) :
    Clean (edge div s c) := by
  obtain ⟨hf, hb⟩ := h
  cases hg : gotNewChar s with
  | false => simp [Clean, edge, hg, hf, hb]
  | true =>
    obtain ⟨hfe, hbe⟩ := hgot hg
    simp [Clean, edge, hfe, hbe, hf, hb]

/-- A clock of a frame shifts in what the sampler takes. -/
theorem InFrame.edge {div : Nat} (hdiv : 0 < div) {got : List Bool} {p : Sampler} {s : Rx}
    (h : InFrame div got p s) (c : Cycle) :
    let t := SerialRx.edge div s c
    Sampling div (p.step (div / 2 + 1) div c.syncRxd) t ∧ t.doStartRx = false ∧
      Shifted (got ++ p.sample c.syncRxd) t.rxdShiftReg ∧ t.delayedRxInProcess = true ∧
      Clean t := by
  have hin := h.inProcess
  refine ⟨sampling_edge hdiv h.sampling c, by simp [SerialRx.edge, hin], ?_, hin,
    clean_edge h.clean c fun hg => absurd hg (by simp [(h.quiet c).1])⟩
  have hsample : sampleEnable s = decide (p.count = 0) := by
    rw [sampleEnable, hin, h.sampling.2.clkEn, Bool.and_true]
  by_cases h0 : p.count = 0
  · simp only [SerialRx.edge, h.doStartRx, hsample, h0, Sampler.sample]
    exact shifted_cons h.shifted h.short c.syncRxd
  · simp only [SerialRx.edge, h.doStartRx, hsample, h0, Sampler.sample]
    simpa using h.shifted

/-- Clocks of a frame short of its last sample. -/
theorem InFrame.run {div : Nat} (hdiv : 0 < div) {got : List Bool} {p : Sampler} {s : Rx}
    (h : InFrame div got p s) (cs : List Cycle)
    (hshort : (got ++ emitted (Sampler.step (div / 2 + 1) div) Sampler.sample p
      (cs.map Cycle.syncRxd)).length < 10) :
    InFrame div (got ++ emitted (Sampler.step (div / 2 + 1) div) Sampler.sample p
        (cs.map Cycle.syncRxd))
      (Sync.run (Sampler.step (div / 2 + 1) div) p (cs.map Cycle.syncRxd))
      (Sync.run (SerialRx.edge div) s cs) ∧
    emitted (SerialRx.edge div) received s cs = [] := by
  induction cs generalizing got p s with
  | nil =>
    simp only [List.map_nil, emitted, List.append_nil, run_nil]
    exact ⟨h, trivial⟩
  | cons c cs ih =>
    simp only [List.map_cons, emitted, run_cons, ← List.append_assoc] at hshort ⊢
    obtain ⟨hsamp, hstart, hshift, _, hclean⟩ := h.edge hdiv c
    have hnext : InFrame div (got ++ p.sample c.syncRxd)
        (p.step (div / 2 + 1) div c.syncRxd) (SerialRx.edge div s c) := by
      refine ⟨hsamp, hstart, hshift, ?_, hclean⟩
      rw [List.length_append] at hshort
      omega
    obtain ⟨hframe, hnone⟩ := ih hnext hshort
    rw [(h.quiet c).2, hnone]
    exact ⟨hframe, rfl⟩

/-- The start bit and the data bits, least significant first. -/
def levels (byte : BitVec 8) : List Bool := false :: (List.range 8).map byte.getLsbD

/-- The last sample, of a stop bit, makes a character of the frame. -/
theorem shifted_done {byte : BitVec 8} {s : Rx}
    (h : Shifted (levels byte ++ [true]) s.rxdShiftReg) :
    rxInProcess s = false ∧ rawDataIn s = byte ∧ isFramingError s = false ∧ isBreak s = false := by
  have hlen : (levels byte ++ [true]).length = 10 := by simp [levels]
  have hbit : ∀ i, i < 10 → s.rxdShiftReg.getLsbD i = (levels byte ++ [true]).getD i false := by
    intro i hi
    have hi' := h i hi
    rw [hlen] at hi'
    exact hi'
  have hstop : stopBit s = true := hbit 9 (by decide)
  have hne : isBreak s = false := by
    rw [isBreak, beq_eq_false_iff_ne]
    intro h0
    rw [stopBit, h0] at hstop
    cases hstop
  refine ⟨hbit 0 (by decide), ?_, by simp [isFramingError, hstop], hne⟩
  refine BitVec.eq_of_getLsbD_eq fun i hi => ?_
  rw [rawDataIn, BitVec.getLsbD_extractLsb', decide_eq_true hi, Bool.true_and, hbit _ (by omega),
    Nat.add_comm, levels, List.cons_append, List.getD_cons_succ, List.getD_eq_getElem?_getD,
    List.getElem?_append_left (by simpa using hi)]
  simp [hi]

/-- Without a falling edge the receiver stays idle. -/
theorem Idle.edge {div : Nat} (hdiv : 0 < div) {last : Bool} {s : Rx} (h : Idle div last s)
    {c : Cycle} (hc : last = true → c.syncRxd = true) :
    Idle div c.syncRxd (SerialRx.edge div s c) ∧ received s c = [] := by
  obtain ⟨⟨count, hsamp⟩, hstart, hin, hdel, hclean⟩ := h
  have hno : gotNewChar s = false := by simp [gotNewChar, hdel]
  have hkeep : (SerialRx.edge div s c).rxdShiftReg = s.rxdShiftReg := by
    simp [SerialRx.edge, hstart, sampleEnable, hin]
  have hlast : s.delayedSyncRxd = last := hsamp.1
  refine ⟨⟨⟨_, sampling_edge hdiv hsamp c⟩, ?_, ?_, hin,
    clean_edge hclean c fun hg => absurd hg (by simp [hno])⟩, by simp [received, hno]⟩
  · show (!rxInProcess s && rxdFalling s c) = false
    rw [rxdFalling, hlast]
    cases hl : last with
    | false => simp
    | true => simp [hc hl]
  · rw [rxInProcess, hkeep]
    exact hin

/-- So on a high line. -/
theorem Idle.run {div : Nat} (hdiv : 0 < div) {last : Bool} {s : Rx} (h : Idle div last s)
    (cs : List Cycle) (hcs : ∀ c ∈ cs, c.syncRxd = true) :
    Idle div (if cs = [] then last else true) (Sync.run (SerialRx.edge div) s cs) ∧
      emitted (SerialRx.edge div) received s cs = [] := by
  induction cs generalizing last s with
  | nil => exact ⟨h, rfl⟩
  | cons c cs ih =>
    have hc := hcs c (List.mem_cons_self ..)
    obtain ⟨hnext, hno⟩ := h.edge hdiv (c := c) fun _ => hc
    obtain ⟨hidle, hnone⟩ := ih hnext fun c h => hcs c (List.mem_cons_of_mem _ h)
    rw [hc, ite_self] at hidle
    rw [if_neg (List.cons_ne_nil c cs), emitted, hnone, hno]
    exact ⟨hidle, rfl⟩

/-- And on one that is still low after the reset. -/
theorem Idle.low {div : Nat} (hdiv : 0 < div) {s : Rx} (h : Idle div false s) (cs : List Cycle)
    (hcs : ∀ c ∈ cs, c.syncRxd = false) :
    Idle div false (Sync.run (SerialRx.edge div) s cs) ∧
      emitted (SerialRx.edge div) received s cs = [] := by
  induction cs generalizing s with
  | nil => exact ⟨h, rfl⟩
  | cons c cs ih =>
    have hc := hcs c (List.mem_cons_self ..)
    obtain ⟨hnext, hno⟩ := h.edge hdiv (c := c) nofun
    rw [hc] at hnext
    obtain ⟨hidle, hnone⟩ := ih hnext fun c h => hcs c (List.mem_cons_of_mem _ h)
    rw [emitted, hnone, hno]
    exact ⟨hidle, rfl⟩

theorem idle_reset (div : Nat) : Idle div false .reset :=
  ⟨⟨1, sampling_reset div⟩, rfl, rfl, rfl, rfl, rfl⟩

/-- A falling edge on an idle line starts a frame two clocks later. -/
theorem Idle.start {div : Nat} (hdiv : 0 < div) {s : Rx} (h : Idle div true s) {c d : Cycle}
    (hc : c.syncRxd = false) (hd : d.syncRxd = false) :
    InFrame div [] ⟨false, div / 2⟩ (SerialRx.edge div (SerialRx.edge div s c) d) ∧
      emitted (SerialRx.edge div) received s [c, d] = [] := by
  obtain ⟨⟨count, hsamp⟩, hstart, hin, hdel, hclean⟩ := h
  have hno : gotNewChar s = false := by simp [gotNewChar, hdel]
  have hkeep : (SerialRx.edge div s c).rxdShiftReg = s.rxdShiftReg := by
    simp [SerialRx.edge, hstart, sampleEnable, hin]
  have hin' : rxInProcess (SerialRx.edge div s c) = false := by
    rw [rxInProcess, hkeep]
    exact hin
  have hno' : gotNewChar (SerialRx.edge div s c) = false := by
    have hdel' : (SerialRx.edge div s c).delayedRxInProcess = false := hin
    simp [gotNewChar, hdel']
  have hfall : (SerialRx.edge div s c).doStartRx = true := by
    have hlast : s.delayedSyncRxd = true := hsamp.1
    simp [SerialRx.edge, hin, rxdFalling, hc, hlast]
  have hsamp' := sampling_edge hdiv (sampling_edge hdiv hsamp c) d
  rw [hc, hd] at hsamp'
  refine ⟨⟨?_, ?_, ?_, by decide, ?_⟩, by simp [emitted, received, hno, hno']⟩
  · simpa [Sampler.step] using hsamp'
  · have hlast : (SerialRx.edge div s c).delayedSyncRxd = false := hc
    show (!rxInProcess (SerialRx.edge div s c) && rxdFalling (SerialRx.edge div s c) d) = false
    simp [rxdFalling, hlast]
  · have hload : (SerialRx.edge div (SerialRx.edge div s c) d).rxdShiftReg = BitVec.allOnes 10 :=
      if_pos hfall
    rw [hload]
    exact shifted_allOnes
  · exact clean_edge (clean_edge hclean c fun hg => absurd hg (by simp [hno])) d
      fun hg => absurd hg (by simp [hno'])

/-- The stop bit hands the character on. -/
theorem InFrame.stop {div : Nat} (hdiv : 0 < div) {byte : BitVec 8} {p : Sampler} {s : Rx}
    (h : InFrame div (levels byte) p s) (hp : 0 < p.count) (cs : List Cycle)
    (hcs : ∀ c ∈ cs, c.syncRxd = true)
    (hlen : settle (div / 2 + 1) p.last p.count true + 3 ≤ cs.length) :
    Idle div true (Sync.run (SerialRx.edge div) s cs) ∧
      emitted (SerialRx.edge div) received s cs = [byte] := by
  obtain ⟨last, count⟩ := p
  simp only at hp hlen
  obtain ⟨hrun, hnone⟩ := @Sampler.run_settle (div / 2 + 1) div last true count hp
  generalize settle (div / 2 + 1) last count true = k at *
  -- up to the last sample, that sample, the character, and the rest of the stop bit
  obtain ⟨as, c, d, bs, rfl, hk⟩ : ∃ as c d bs, cs = as ++ c :: d :: bs ∧ as.length = k + 1 := by
    have hdrop : 2 ≤ (cs.drop (k + 1)).length := by
      rw [List.length_drop]
      omega
    match hcs' : cs.drop (k + 1), hdrop with
    | c :: d :: bs, _ =>
      refine ⟨cs.take (k + 1), c, d, bs, ?_, ?_⟩
      · rw [← hcs', List.take_append_drop]
      · rw [List.length_take]
        omega
  simp only [List.mem_append, List.mem_cons] at hcs
  have has : as.map Cycle.syncRxd = List.replicate (k + 1) true := by
    rw [← hk, List.eq_replicate_iff]
    refine ⟨List.length_map _, fun v hv => ?_⟩
    obtain ⟨a, ha, rfl⟩ := List.mem_map.mp hv
    exact hcs a (.inl ha)
  have hc := hcs c (.inr (.inl rfl))
  have hd := hcs d (.inr (.inr (.inl rfl)))
  obtain ⟨hframe, hquiet⟩ := h.run hdiv as (by rw [has, hnone, List.append_nil]; exact h.short)
  rw [has, hnone, hrun, List.append_nil] at hframe
  generalize ht : Sync.run (SerialRx.edge div) s as = t at *
  obtain ⟨hsamp, hstart, hshift, hdel, hclean⟩ := hframe.edge hdiv c
  have hlast : Sampler.sample ⟨true, 0⟩ c.syncRxd = [true] := by simp [Sampler.sample, hc]
  rw [hlast] at hshift
  obtain ⟨hin, hdata, hfe, hbe⟩ := shifted_done hshift
  have hno := (hframe.quiet c).2
  generalize hu : SerialRx.edge div t c = u at *
  have hgot : gotNewChar u = true := by simp [gotNewChar, hin, hdel]
  have hkeep : (SerialRx.edge div u d).rxdShiftReg = u.rxdShiftReg := by
    simp [SerialRx.edge, hstart, sampleEnable, hin]
  have hidle : Idle div true (SerialRx.edge div u d) := by
    refine ⟨⟨_, hd ▸ sampling_edge hdiv hsamp d⟩, ?_, ?_, hin,
      clean_edge hclean d fun _ => ⟨hfe, hbe⟩⟩
    · simp [SerialRx.edge, rxdFalling, hd]
    · rw [rxInProcess, hkeep]
      exact hin
  obtain ⟨hidle', hnone'⟩ := hidle.run hdiv bs fun b hb => hcs b (.inr (.inr (.inr hb)))
  rw [ite_self] at hidle'
  rw [run_append, ht, run_cons, hu, run_cons, emitted_append, ht, hquiet, emitted, hu, hno, emitted,
    hnone', received, hgot, hdata]
  exact ⟨hidle', rfl⟩

/-! ## Streams of frames -/

/-- A byte on the line: how long its start and data bits and its stop bit, with
the pause after it, are held. -/
structure Frame where
  byte : BitVec 8
  bits : List Nat
  stop : Nat

/-- Each bit is off by at most `d` clocks; a stop bit may be longer. -/
structure Frame.Near (div d : Nat) (f : Frame) : Prop where
  length : f.bits.length = 9
  bits : ∀ n ∈ f.bits, div + 1 ≤ n + d ∧ n ≤ div + 1 + d
  stop : div + 2 ≤ f.stop + d

def Frame.wave (f : Frame) : List Bool :=
  Sync.wave ((levels f.byte).zip f.bits) ++ List.replicate f.stop true

/-- A cycle in which the program leaves the receiver alone. -/
def listening (v : Bool) : Cycle := ⟨v, false, false, false⟩

theorem map_listening (vs : List Bool) : (vs.map listening).map Cycle.syncRxd = vs := by
  rw [List.map_map]
  exact List.map_id vs

/-- The bits of a frame after the two clocks that start it, with so much of the
stop bit as is no longer than a bit. -/
theorem Frame.Near.inTolerance {div d : Nat} (hd : 10 * d + 3 ≤ div / 2 + 1) {n : Nat}
    {data : List (Bool × Nat)} (hlen : data.length = 8)
    (hn : div + 1 ≤ n + d ∧ n ≤ div + 1 + d)
    (hdata : ∀ b ∈ data, div + 1 ≤ b.2 + d ∧ b.2 ≤ div + 1 + d) {stop : Nat}
    (hstop : div + 1 ≤ stop + d ∧ stop ≤ div + 1 + d) :
    InTolerance (div / 2 + 1) div false (div / 2) (((false, n - 2) :: data) ++ [(true, stop)]) := by
  have hset : settle (div / 2 + 1) false (div / 2) false = div / 2 - 1 := rfl
  refine ⟨by omega, by omega, by omega, ?_⟩
  refine @inTolerance_of_near (div / 2 + 1) div d d false _ (data ++ [(true, stop)]) ?_ ?_ ?_ ?_ ?_
  · intro b hb
    rcases List.mem_append.mp hb with h | h
    · exact hdata b h
    · rw [List.mem_singleton.mp h]
      exact hstop
  · omega
  · omega
  · rw [List.length_append, List.length_singleton, hlen]
    omega
  · omega

/-- One frame. -/
theorem Idle.frame {div d : Nat} (hd : 10 * d + 3 ≤ div / 2 + 1) {s : Rx} (h : Idle div true s)
    {f : Frame} (hf : f.Near div d) {cs : List Cycle} (hcs : cs.map Cycle.syncRxd = f.wave) :
    Idle div true (Sync.run (SerialRx.edge div) s cs) ∧
      emitted (SerialRx.edge div) received s cs = [f.byte] := by
  obtain ⟨byte, bits, stop⟩ := f
  obtain ⟨hlen, hbits, hstop⟩ := hf
  simp only at hlen hbits hstop
  obtain ⟨n, ns, rfl⟩ : ∃ n ns, bits = n :: ns := List.exists_cons_of_length_pos (by omega)
  rw [List.length_cons] at hlen
  have hn := hbits n (List.mem_cons_self ..)
  have hdiv : 0 < div := by omega
  -- the bits as levels and lengths
  generalize hdata : ((List.range 8).map byte.getLsbD).zip ns = data
  have hlen8 : data.length = 8 := by
    rw [← hdata, List.length_zip, List.length_map, List.length_range]
    omega
  have hfst : data.map Prod.fst = (List.range 8).map byte.getLsbD := by
    rw [← hdata, List.map_fst_zip]
    rw [List.length_map, List.length_range]
    omega
  have hnear : ∀ b ∈ data, div + 1 ≤ b.2 + d ∧ b.2 ≤ div + 1 + d := by
    intro b hb
    rw [← hdata] at hb
    exact hbits b.2 (List.mem_cons_of_mem _ (List.of_mem_zip hb).2)
  have hwave : Frame.wave ⟨byte, n :: ns, stop⟩ = false :: false ::
      (Sync.wave ((false, n - 2) :: data) ++ List.replicate stop true) := by
    have htwo : List.replicate n false = false :: false :: List.replicate (n - 2) false := by
      rw [← List.replicate_succ, ← List.replicate_succ]
      congr 1
      omega
    rw [Frame.wave, levels, List.zip_cons_cons, hdata, wave_cons, wave_cons, htwo]
    rfl
  rw [hwave] at hcs
  obtain ⟨c, cs, rfl, hc, hcs⟩ := List.map_eq_cons_iff.mp hcs
  obtain ⟨e, cs, rfl, he, hcs⟩ := List.map_eq_cons_iff.mp hcs
  obtain ⟨as, bs, rfl, has, hbs⟩ := List.map_eq_append_iff.mp hcs
  obtain ⟨hframe, hnone⟩ := h.start hdiv hc he
  -- what the sampler makes of the bits
  obtain ⟨hten, hlast⟩ := inTolerance_append (@Frame.Near.inTolerance div d hd n data hlen8 hn
    hnear (min (stop - 1) (div + 1)) (by omega))
  obtain ⟨hpos, hlow, _⟩ := hlast
  have hnine := (Sampler.run_wave hten).1
  rw [List.map_cons, hfst] at hnine
  obtain ⟨hrun, hquiet⟩ := hframe.run hdiv as (by rw [has, hnine]; simp)
  rw [has, hnine, List.nil_append] at hrun
  have hall : ∀ b ∈ bs, b.syncRxd = true := fun b hb => by
    have hmem := List.mem_map_of_mem (f := Cycle.syncRxd) hb
    rw [hbs] at hmem
    exact (List.mem_replicate.mp hmem).2
  have hblen : bs.length = stop := by
    rw [← List.length_map (f := Cycle.syncRxd), hbs, List.length_replicate]
  obtain ⟨hidle, hone⟩ := InFrame.stop hdiv hrun hpos bs hall (by omega)
  have hsplit : c :: e :: (as ++ bs) = [c, e] ++ (as ++ bs) := rfl
  rw [hsplit, run_append, run_append, emitted_append, emitted_append, hnone]
  refine ⟨hidle, ?_⟩
  rw [List.nil_append, run_cons, run_cons, run_nil, hquiet]
  exact hone

/-- **Reception.** On a line whose bits are each off by at most `d` clocks the
receiver hands on the bytes of the frames, each once and in order, and flags no
error: `d` may be a twentieth of a bit. -/
theorem receives {div d : Nat} (hd : 10 * d + 3 ≤ div / 2 + 1) {s : Rx} (h : Idle div true s)
    {fs : List Frame} (hfs : ∀ f ∈ fs, f.Near div d) {cs : List Cycle}
    (hcs : cs.map Cycle.syncRxd = fs.flatMap Frame.wave) :
    Idle div true (Sync.run (SerialRx.edge div) s cs) ∧
      emitted (SerialRx.edge div) received s cs = fs.map Frame.byte := by
  induction fs generalizing s cs with
  | nil =>
    obtain rfl : cs = [] := List.map_eq_nil_iff.mp hcs
    exact ⟨h, rfl⟩
  | cons f fs ih =>
    rw [List.flatMap_cons] at hcs
    obtain ⟨as, bs, rfl, has, hbs⟩ := List.map_eq_append_iff.mp hcs
    obtain ⟨hidle, hone⟩ := h.frame hd (hfs f (List.mem_cons_self ..)) has
    obtain ⟨hidle', hrest⟩ := ih hidle (fun f hf => hfs f (List.mem_cons_of_mem _ hf)) hbs
    rw [run_append, emitted_append, hone, hrest]
    exact ⟨hidle', rfl⟩

/-! ## Reading the characters -/

/-- The character in `rx_data` that has not been read. -/
def waiting (s : Rx) : List (BitVec 8) := if s.rxCharReady then [s.rxData] else []

/-- What a read in this cycle takes. -/
def taken (s : Rx) (c : Cycle) : List (BitVec 8) :=
  if rxRdStrobeOnset c && s.rxCharReady then [s.rxData] else []

/-- A character comes while another waits or a read is going on. -/
def Collides (s : Rx) (c : Cycle) : Prop :=
  gotNewChar s = true ∧ (s.rxCharReady = true ∨ rxRdStrobeOnset c = true)

/-- A program that reads `rxdata` only when a character is ready, and does not
write the status. -/
def Reads (s : Rx) (c : Cycle) : Prop :=
  c.statusWrStrobe = false ∧ (rxRdStrobeOnset c = true → s.rxCharReady = true)

theorem waiting_edge (div : Nat) (s : Rx) (c : Cycle) :
    waiting s ++ received s c = taken s c ++ waiting (edge div s c) ↔ ¬ Collides s c := by
  unfold waiting received taken Collides
  have hready : (edge div s c).rxCharReady =
      if rxRdStrobeOnset c then false else if gotNewChar s then true else s.rxCharReady := rfl
  have hdata : (edge div s c).rxData = if gotNewChar s then rawDataIn s else s.rxData := rfl
  rw [hready, hdata]
  cases rxRdStrobeOnset c <;> cases gotNewChar s <;> cases s.rxCharReady <;> simp

theorem overrun_edge {div : Nat} {s : Rx} {c : Cycle} (h : s.rxOverrun = false)
    (hc : c.statusWrStrobe = false) (hread : rxRdStrobeOnset c = true → s.rxCharReady = true) :
    (edge div s c).rxOverrun = false ↔ ¬ Collides s c := by
  simp only [edge, hc, Collides, h]
  cases gotNewChar s with
  | false => simp
  | true =>
    cases hr : s.rxCharReady with
    | true => simp
    | false =>
      have hno : rxRdStrobeOnset c = false :=
        Bool.eq_false_iff.mpr fun ho => nomatch hr.symm.trans (hread ho)
      simp [hno]

theorem overrun_stays {div : Nat} {s : Rx} {c : Cycle} (h : s.rxOverrun = true)
    (hc : c.statusWrStrobe = false) : (edge div s c).rxOverrun = true := by
  simp [edge, hc, h]

/-- The flag stays clear while nothing collides. -/
theorem overrun_run {div : Nat} {s : Rx} {cs : List Cycle} (h : s.rxOverrun = false)
    (hcs : EachStep (edge div) Reads s cs) :
    (run (edge div) s cs).rxOverrun = false ↔
      EachStep (edge div) (fun s c => ¬ Collides s c) s cs := by
  induction cs generalizing s with
  | nil => exact iff_of_true h trivial
  | cons c cs ih =>
    obtain ⟨⟨hstatus, hread⟩, hrest⟩ := hcs
    have hone := @overrun_edge div s c h hstatus hread
    rw [run_cons, EachStep]
    cases hnext : (edge div s c).rxOverrun with
    | false => exact (ih hnext hrest).trans ⟨fun hr => ⟨hone.mp hnext, hr⟩, fun hr => hr.2⟩
    | true =>
      -- once set it stays set
      have hset : (run (edge div) (edge div s c) cs).rxOverrun = true :=
        hrest.run_invariant (fun s => s.rxOverrun = true)
          (fun s c hs hc => overrun_stays hs hc.1) hnext
      refine iff_of_false (by rw [hset]; decide) fun hr => ?_
      have := hone.mpr hr.1
      rw [hnext] at this
      cases this

end FpgaLabs.Nios.SerialRx
