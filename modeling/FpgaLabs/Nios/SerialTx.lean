import FpgaLabs.Nios.SerialRx

/-! The transmitter of the serial port, `uart_tx` of `uart.vhd`, with the
register `tx_data` of `uart_regs` that feeds it. -/

namespace FpgaLabs.Nios.SerialTx
open Sync

/-- The inputs in one clock cycle. -/
structure Cycle where
  txWrStrobe : Bool
  begintransfer : Bool
  writedata : BitVec 8
  statusWrStrobe : Bool
  doForceBreak : Bool

structure Tx where
  txData : BitVec 8
  doLoadShifter : Bool
  txReady : Bool
  txOverrun : Bool
  txShiftEmpty : Bool
  baudRateCounter : Nat
  baudClkEn : Bool
  preTxd : Bool
  txd : Bool
  txShiftRegisterContents : BitVec 10

/-- `reset_n = '0'`. -/
def Tx.reset : Tx where
  txData := 0
  doLoadShifter := false
  txReady := true
  txOverrun := false
  txShiftEmpty := true
  baudRateCounter := 0
  baudClkEn := false
  preTxd := true
  txd := true
  txShiftRegisterContents := 0

def txWrStrobeOnset (c : Cycle) : Bool := c.txWrStrobe && c.begintransfer

/-- `'1' & tx_data & '0'`. -/
def txLoadVal (data : BitVec 8) : BitVec 10 := 1#1 ++ data ++ 0#1

def shiftDone (s : Tx) : Bool := s.txShiftRegisterContents == 0
def txShiftRegOut (s : Tx) : Bool := s.txShiftRegisterContents.getLsbD 0
def baudRateCounterIsZero (s : Tx) : Bool := s.baudRateCounter == 0
def doShift (s : Tx) : Bool := s.baudClkEn && !shiftDone s && !s.doLoadShifter

/-- A rising edge of `clk`. -/
def edge (baudDivisor : Nat) (s : Tx) (c : Cycle) : Tx where
  txData := if c.txWrStrobe then c.writedata else s.txData
  doLoadShifter := !s.txReady && shiftDone s
  txReady := if txWrStrobeOnset c then false else if s.doLoadShifter then true else s.txReady
  txOverrun :=
    if c.statusWrStrobe then false
    else if !s.txReady && txWrStrobeOnset c then true else s.txOverrun
  txShiftEmpty := s.txReady && shiftDone s
  baudRateCounter :=
    if baudRateCounterIsZero s || s.doLoadShifter then baudDivisor else s.baudRateCounter - 1
  baudClkEn := baudRateCounterIsZero s
  preTxd := if !shiftDone s then txShiftRegOut s else s.preTxd
  txd := s.preTxd && !c.doForceBreak
  txShiftRegisterContents :=
    if s.doLoadShifter then txLoadVal s.txData
    else if doShift s then 0#1 ++ s.txShiftRegisterContents.extractLsb' 1 9
    else s.txShiftRegisterContents

/-! ## What is written and what is sent -/

/-- The byte a write in this cycle hands over. -/
def written (_ : Tx) (c : Cycle) : List (BitVec 8) :=
  if txWrStrobeOnset c then [c.writedata] else []

/-- The pin before its two registers: high unless a frame is being shifted out. -/
def lineOut (s : Tx) : Bool := shiftDone s || txShiftRegOut s

def onLine (s : Tx) (_ : Cycle) : List Bool := [lineOut s]
def onPin (s : Tx) (_ : Cycle) : List Bool := [s.txd]

/-- A program that writes when the transmitter is ready, over a bus that holds
the data of a transfer, and does not force a break. -/
def Proper (s : Tx) (c : Cycle) : Prop :=
  (txWrStrobeOnset c = true → s.txReady = true) ∧
    (c.txWrStrobe = true → c.begintransfer = false → c.writedata = s.txData) ∧
    c.doForceBreak = false

/-! ## The shift register -/

theorem getLsbD_txLoadVal (b : BitVec 8) {i : Nat} (hi : i < 10) :
    (txLoadVal b).getLsbD i = (SerialRx.levels b ++ [true]).getD i false := by
  rw [txLoadVal, BitVec.getLsbD_append, BitVec.getLsbD_append, SerialRx.levels]
  rcases Nat.lt_trichotomy i 0 with h | rfl | h
  · omega
  · rfl
  · obtain ⟨j, rfl⟩ : ∃ j, i = j + 1 := ⟨i - 1, by omega⟩
    rw [if_neg (by omega), Nat.add_sub_cancel, List.cons_append, List.getD_cons_succ,
      List.getD_eq_getElem?_getD]
    by_cases hj : j < 8
    · rw [if_pos hj, List.getElem?_append_left (by simpa using hj)]
      simp [hj]
    · obtain rfl : j = 8 := by omega
      rfl

/-- Nine shifts leave the stop bit. -/
theorem shift_ne_zero (b : BitVec 8) {k : Nat} (hk : k < 10) : txLoadVal b >>> k ≠ 0 := by
  intro h0
  have hbit : (txLoadVal b >>> k).getLsbD (9 - k) = true := by
    rw [BitVec.getLsbD_ushiftRight, show k + (9 - k) = 9 by omega, getLsbD_txLoadVal b (by decide)]
    rfl
  rw [h0] at hbit
  simp at hbit

theorem shift_end (b : BitVec 8) : txLoadVal b >>> 10 = 0 := by
  refine BitVec.eq_of_getLsbD_eq fun i _ => ?_
  rw [BitVec.getLsbD_ushiftRight, BitVec.getLsbD_of_ge _ _ (by omega)]
  simp

theorem shift_one (r : BitVec 10) : 0#1 ++ r.extractLsb' 1 9 = r >>> 1 := by
  refine BitVec.eq_of_getLsbD_eq fun i hi => ?_
  rw [BitVec.getLsbD_append, BitVec.getLsbD_ushiftRight, BitVec.getLsbD_extractLsb']
  by_cases h9 : i < 9
  · simp [h9]
  · rw [if_neg h9, BitVec.getLsbD_of_ge r _ (by omega)]
    simp

/-! ## Frames on the line -/

/-- The clocks a bit is held: the start bit is there two clocks before the baud
rate generator starts. -/
def bitLength (div k : Nat) : Nat := if k = 0 then div + 3 else div + 1

/-- The first `k` bits of a frame, and `n` clocks of the next one. -/
def part (div : Nat) (b : BitVec 8) (k n : Nat) : List Bool :=
  wave ((List.range k).map fun i => ((txLoadVal b).getLsbD i, bitLength div i)) ++
    List.replicate n ((txLoadVal b).getLsbD k)

theorem part_more (div : Nat) (b : BitVec 8) (k n : Nat) :
    part div b k n ++ [(txLoadVal b).getLsbD k] = part div b k (n + 1) := by
  rw [part, part, List.append_assoc, List.replicate_succ']

theorem part_next (div : Nat) (b : BitVec 8) (k : Nat) :
    part div b k (bitLength div k) = part div b (k + 1) 0 := by
  rw [part, part, List.range_succ, List.map_append, wave_append, List.append_assoc]
  simp

/-- Bytes sent, and the line: frames and marks. -/
inductive Sent (div : Nat) : List (BitVec 8) → List Bool → Prop
  | nil : Sent div [] []
  | mark {bs : List (BitVec 8)} {vs : List Bool} (h : Sent div bs vs) : Sent div bs (vs ++ [true])
  | frame {bs : List (BitVec 8)} {vs : List Bool} (h : Sent div bs vs) (b : BitVec 8) :
      Sent div (bs ++ [b]) (vs ++ part div b 10 0)

/-- The baud rate generator between loads. -/
structure Baud (div count : Nat) (s : Tx) : Prop where
  counter : s.baudRateCounter = if count = 0 then div else count - 1
  clkEn : s.baudClkEn = decide (count = 0)

theorem baud_edge {div count : Nat} (hdiv : 0 < div) {s : Tx} (h : Baud div count s)
    (hload : s.doLoadShifter = false) (c : Cycle) :
    Baud div (if count = 0 then div else count - 1) (edge div s c) := by
  obtain ⟨hcounter, _⟩ := h
  by_cases h0 : count = 0
  · have hz : baudRateCounterIsZero s = false := by
      simp [baudRateCounterIsZero, hcounter, h0]
      omega
    constructor
    · simp [edge, hz, hload, h0, hcounter, show div ≠ 0 by omega]
    · simp [edge, hz, h0, show div ≠ 0 by omega]
  · by_cases h1 : count = 1
    · have hz : baudRateCounterIsZero s = true := by
        simp [baudRateCounterIsZero, hcounter, h1]
      constructor <;> simp [edge, hz, h1]
    · have hz : baudRateCounterIsZero s = false := by
        simp [baudRateCounterIsZero, hcounter, h0]
        omega
      constructor
      · simp [edge, hz, hload, h0, hcounter, show count - 1 ≠ 0 by omega]
      · simp [edge, hz, h0]
        omega

/-! ## The transmitter -/

/-- The byte in `tx_data` that waits for the shift register. -/
def pending (s : Tx) : List (BitVec 8) := if s.txReady then [] else [s.txData]

/-- Clocks from the load of a byte to the end of its frame. -/
def frameLength (div : Nat) : Nat := 10 * (div + 1) + 2

/-- Clocks for the byte in `tx_data`. -/
def pendingLength (div : Nat) (s : Tx) : Nat := if s.txReady then 0 else frameLength div + 2

/-- Where the transmitter is, with what has been written, the line so far, and
the clocks to go. -/
inductive Stage (div : Nat) (s : Tx) : Nat → List (BitVec 8) → List Bool → Prop
  | rest {bs : List (BitVec 8)} {vs : List Bool} (hsent : Sent div bs vs)
      (hempty : s.txShiftRegisterContents = 0) (hload : s.doLoadShifter = false)
      (hpre : s.preTxd = true) : Stage div s (pendingLength div s) (bs ++ pending s) vs
  | load {bs : List (BitVec 8)} {vs : List Bool} (hsent : Sent div bs vs)
      (hempty : s.txShiftRegisterContents = 0) (hload : s.doLoadShifter = true)
      (hpre : s.preTxd = true) (hready : s.txReady = false) :
      Stage div s (frameLength div + 1) (bs ++ [s.txData]) vs
  | first {bs : List (BitVec 8)} {vs : List Bool} (hsent : Sent div bs vs)
      (hfull : s.txShiftRegisterContents = txLoadVal s.txData) (hload : s.doLoadShifter = true)
      (hready : s.txReady = true) (hbaud : s.baudRateCounter = div) :
      Stage div s (frameLength div) (bs ++ [s.txData]) vs
  | shift {bs : List (BitVec 8)} {vs : List Bool} (hsent : Sent div bs vs) (b : BitVec 8)
      {k count : Nat} (hk : k < 10) (hcount : count + 1 ≤ bitLength div k)
      (hfull : s.txShiftRegisterContents = txLoadVal b >>> k) (hload : s.doLoadShifter = false)
      (hbaud : Baud div count s) :
      Stage div s ((9 - k) * (div + 1) + count + 1 + pendingLength div s)
        (bs ++ [b] ++ pending s) (vs ++ part div b k (bitLength div k - 1 - count))

theorem stage_reset (div : Nat) : Stage div .reset 0 [] [] :=
  .rest .nil rfl rfl rfl

/-- A write goes to `tx_data` and waits there. -/
theorem pending_edge {div : Nat} {s : Tx} {c : Cycle} (hc : Proper s c)
    (hload : s.doLoadShifter = false) :
    pending (edge div s c) = pending s ++ written s c ∧
      (written s c = [] → pendingLength div (edge div s c) = pendingLength div s) := by
  obtain ⟨hready, hhold, _⟩ := hc
  have hr : (edge div s c).txReady = if txWrStrobeOnset c then false else s.txReady := by
    simp [edge, hload]
  have hd : (edge div s c).txData = if c.txWrStrobe then c.writedata else s.txData := rfl
  unfold pending pendingLength written
  rw [hr, hd]
  cases ho : txWrStrobeOnset c with
  | true =>
    have hw : c.txWrStrobe = true := (Bool.and_eq_true_iff.mp ho).1
    simp [hready ho, hw]
  | false =>
    refine ⟨?_, fun _ => by simp⟩
    cases hw : c.txWrStrobe with
    | false => simp
    | true =>
      have hb : c.begintransfer = false := by simpa [txWrStrobeOnset, hw] using ho
      simp [hhold hw hb]

/-- With a byte waiting no write comes, and the byte stays. -/
theorem proper_waiting {s : Tx} {c : Cycle} (hc : Proper s c) (hr : s.txReady = false) :
    written s c = [] ∧ (if c.txWrStrobe then c.writedata else s.txData) = s.txData ∧
      txWrStrobeOnset c = false := by
  have ho : txWrStrobeOnset c = false :=
    Bool.eq_false_iff.mpr fun h => nomatch hr.symm.trans (hc.1 h)
  refine ⟨by simp [written, ho], ?_, ho⟩
  cases hw : c.txWrStrobe with
  | false => rfl
  | true =>
    have hb : c.begintransfer = false := by simpa [txWrStrobeOnset, hw] using ho
    exact hc.2.1 hw hb

theorem lineOut_empty {s : Tx} (h : s.txShiftRegisterContents = 0) : lineOut s = true := by
  simp [lineOut, shiftDone, h]

theorem lineOut_shift {s : Tx} {b : BitVec 8} {k : Nat} (hk : k < 10)
    (h : s.txShiftRegisterContents = txLoadVal b >>> k) :
    shiftDone s = false ∧ lineOut s = (txLoadVal b).getLsbD k ∧
      txShiftRegOut s = (txLoadVal b).getLsbD k := by
  have hne : shiftDone s = false := by
    rw [shiftDone, h, beq_eq_false_iff_ne]
    exact shift_ne_zero b hk
  have hout : txShiftRegOut s = (txLoadVal b).getLsbD k := by
    rw [txShiftRegOut, h, BitVec.getLsbD_ushiftRight, Nat.add_zero]
  exact ⟨hne, by rw [lineOut, hne, hout, Bool.false_or], hout⟩

/-- A byte in `tx_data` is loaded, and again one clock later. -/
theorem stage_rest {div : Nat} {s : Tx} {bs : List (BitVec 8)} {vs : List Bool}
    (hsent : Sent div bs vs) (hempty : s.txShiftRegisterContents = 0)
    (hload : s.doLoadShifter = false) (hpre : s.preTxd = true) {c : Cycle} (hc : Proper s c) :
    ∃ n, Stage div (edge div s c) n (bs ++ pending s ++ written s c) (vs ++ [lineOut s]) ∧
      (written s c = [] → n = pendingLength div s - 1) := by
  have hdone : shiftDone s = true := by simp [shiftDone, hempty]
  have hempty' : (edge div s c).txShiftRegisterContents = 0 := by
    simp [edge, hload, doShift, hdone, hempty]
  have hpre' : (edge div s c).preTxd = true := by simp [edge, hdone, hpre]
  rw [lineOut_empty hempty]
  cases hr : s.txReady with
  | true =>
    have hload' : (edge div s c).doLoadShifter = false := by simp [edge, hr]
    obtain ⟨hpend, hlen⟩ := @pending_edge div s c hc hload
    have hstage : Stage div (edge div s c) _ _ _ := .rest hsent.mark hempty' hload' hpre'
    rw [hpend, ← List.append_assoc] at hstage
    refine ⟨_, hstage, fun hw => ?_⟩
    rw [hlen hw, pendingLength, hr]
    rfl
  | false =>
    obtain ⟨hw, hdata, ho⟩ := proper_waiting hc hr
    have hload' : (edge div s c).doLoadShifter = true := by simp [edge, hr, hdone]
    have hready' : (edge div s c).txReady = false := by simp [edge, ho, hload, hr]
    have hstage : Stage div (edge div s c) _ _ _ :=
      .load hsent.mark hempty' hload' hpre' hready'
    have hdata' : (edge div s c).txData = s.txData := hdata
    have hpend : pending s = [s.txData] := by simp [pending, hr]
    rw [hdata'] at hstage
    rw [hw, List.append_nil, hpend]
    refine ⟨_, hstage, fun _ => ?_⟩
    simp [pendingLength, hr]

theorem stage_load {div : Nat} {s : Tx} {bs : List (BitVec 8)} {vs : List Bool}
    (hsent : Sent div bs vs) (hempty : s.txShiftRegisterContents = 0)
    (hload : s.doLoadShifter = true) (hready : s.txReady = false) {c : Cycle} (hc : Proper s c) :
    Stage div (edge div s c) (frameLength div) (bs ++ [s.txData] ++ written s c)
      (vs ++ [lineOut s]) := by
  obtain ⟨hw, hdata, ho⟩ := proper_waiting hc hready
  have hdata' : (edge div s c).txData = s.txData := hdata
  have hdone : shiftDone s = true := by simp [shiftDone, hempty]
  have hfull : (edge div s c).txShiftRegisterContents = txLoadVal (edge div s c).txData := by
    rw [hdata']
    simp [edge, hload]
  have hstage : Stage div (edge div s c) _ _ _ :=
    .first hsent.mark hfull (by simp [edge, hready, hdone]) (by simp [edge, ho, hload])
      (by simp [edge, hload])
  rw [hdata'] at hstage
  rwa [lineOut_empty hempty, hw, List.append_nil]

theorem stage_first {div : Nat} (hdiv : 0 < div) {s : Tx} {bs : List (BitVec 8)} {vs : List Bool}
    (hsent : Sent div bs vs) (hfull : s.txShiftRegisterContents = txLoadVal s.txData)
    (hload : s.doLoadShifter = true) (hready : s.txReady = true)
    (hbaud : s.baudRateCounter = div) (c : Cycle) :
    ∃ n, Stage div (edge div s c) n (bs ++ [s.txData] ++ written s c) (vs ++ [lineOut s]) ∧
      (written s c = [] → n = frameLength div - 1) := by
  have hfull0 : s.txShiftRegisterContents = txLoadVal s.txData >>> 0 := by
    rw [hfull, BitVec.ushiftRight_zero]
  obtain ⟨hdone, hline, _⟩ := lineOut_shift (by decide) hfull0
  have hload' : (edge div s c).doLoadShifter = false := by simp [edge, hready]
  have hfull' : (edge div s c).txShiftRegisterContents = txLoadVal s.txData >>> 0 := by
    simp [edge, hload]
  have hbaud' : Baud div (div + 1) (edge div s c) := by
    constructor
    · simp [edge, hload]
    · simp [edge, baudRateCounterIsZero, hbaud]
      omega
  have hpend : pending (edge div s c) = written s c ∧
      (written s c = [] → pendingLength div (edge div s c) = 0) := by
    have hr : (edge div s c).txReady = !txWrStrobeOnset c := by
      simp only [edge, hload, if_true]
      cases txWrStrobeOnset c <;> rfl
    have hd : (edge div s c).txData = if c.txWrStrobe then c.writedata else s.txData := rfl
    unfold pending pendingLength written
    rw [hr, hd]
    cases ho : txWrStrobeOnset c with
    | true => simp [(Bool.and_eq_true_iff.mp ho).1]
    | false => simp
  have hstage : Stage div (edge div s c) _ _ _ :=
    .shift hsent s.txData (by decide) (by simp [bitLength]) hfull' hload' hbaud'
  have hpart : part div s.txData 0 (bitLength div 0 - 1 - (div + 1)) = [lineOut s] := by
    rw [hline, bitLength, if_pos rfl, show div + 3 - 1 - (div + 1) = 1 by omega]
    rfl
  rw [hpend.1, hpart] at hstage
  refine ⟨_, hstage, fun hw => ?_⟩
  rw [hpend.2 hw, frameLength]
  omega

theorem stage_shift {div : Nat} (hdiv : 0 < div) {s : Tx} {bs : List (BitVec 8)} {vs : List Bool}
    (hsent : Sent div bs vs) (b : BitVec 8) {k count : Nat} (hk : k < 10)
    (hcount : count + 1 ≤ bitLength div k)
    (hfull : s.txShiftRegisterContents = txLoadVal b >>> k) (hload : s.doLoadShifter = false)
    (hbaud : Baud div count s) {c : Cycle} (hc : Proper s c) :
    ∃ n, Stage div (edge div s c) n (bs ++ [b] ++ pending s ++ written s c)
        (vs ++ part div b k (bitLength div k - 1 - count) ++ [lineOut s]) ∧
      (written s c = [] → n = (9 - k) * (div + 1) + count + 1 + pendingLength div s - 1) := by
  obtain ⟨hdone, hline, hout⟩ := lineOut_shift hk hfull
  obtain ⟨hpend, hlen⟩ := @pending_edge div s c hc hload
  have hload' : (edge div s c).doLoadShifter = false := by simp [edge, hdone]
  have hbaud' := baud_edge hdiv hbaud hload c
  have hshift : doShift s = decide (count = 0) := by simp [doShift, hdone, hload, hbaud.clkEn]
  rw [hline, List.append_assoc vs, part_more, List.append_assoc _ (pending s), ← hpend]
  by_cases h0 : count = 0
  · subst h0
    have hnext : (edge div s c).txShiftRegisterContents = txLoadVal b >>> (k + 1) := by
      simp only [edge, hload, hshift]
      rw [BitVec.shiftRight_add, ← hfull, ← shift_one]
      rfl
    have hlast : bitLength div k - 1 - 0 + 1 = bitLength div k := by omega
    rw [hlast, part_next]
    by_cases h9 : k = 9
    · -- the stop bit is over
      subst h9
      have hpre : (edge div s c).preTxd = true := by
        show (if !shiftDone s then txShiftRegOut s else s.preTxd) = true
        rw [hdone, hout, getLsbD_txLoadVal b (by decide)]
        rfl
      have hstage : Stage div (edge div s c) _ _ _ :=
        .rest (hsent.frame b) (by rw [hnext, shift_end]) hload' hpre
      refine ⟨_, hstage, fun hw => ?_⟩
      rw [hlen hw]
      omega
    · rw [if_pos rfl] at hbaud'
      have hlong : bitLength div (k + 1) = div + 1 := if_neg (Nat.succ_ne_zero k)
      have hstage : Stage div (edge div s c) _ _ _ :=
        .shift hsent b (by omega) (by omega) hnext hload' hbaud'
      rw [hlong, Nat.add_sub_cancel, Nat.sub_self] at hstage
      refine ⟨_, hstage, fun hw => ?_⟩
      have hmul : (9 - k) * (div + 1) = (9 - (k + 1)) * (div + 1) + (div + 1) := by
        rw [show 9 - k = 9 - (k + 1) + 1 by omega, Nat.add_mul, Nat.one_mul]
      rw [hlen hw, hmul]
      omega
  · rw [if_neg h0] at hbaud'
    have hnext : (edge div s c).txShiftRegisterContents = txLoadVal b >>> k := by
      simp only [edge, hload, hshift, h0, decide_false, Bool.false_eq_true, ↓reduceIte, hfull]
    have hstage : Stage div (edge div s c) _ _ _ :=
      .shift hsent b hk (by omega) hnext hload' hbaud'
    have hmore : bitLength div k - 1 - (count - 1) = bitLength div k - 1 - count + 1 := by omega
    rw [hmore] at hstage
    refine ⟨_, hstage, fun hw => ?_⟩
    rw [hlen hw]
    omega

/-- One clock. -/
theorem stage_edge {div : Nat} (hdiv : 0 < div) {s : Tx} {n : Nat} {ws : List (BitVec 8)}
    {vs : List Bool} (h : Stage div s n ws vs) {c : Cycle} (hc : Proper s c) :
    ∃ m, Stage div (edge div s c) m (ws ++ written s c) (vs ++ [lineOut s]) ∧
      (written s c = [] → m = n - 1) := by
  cases h with
  | rest hsent hempty hload hpre => exact stage_rest hsent hempty hload hpre hc
  | load hsent hempty hload hpre hready =>
    exact ⟨_, stage_load hsent hempty hload hready hc, fun _ => rfl⟩
  | first hsent hfull hload hready hbaud =>
    exact stage_first hdiv hsent hfull hload hready hbaud c
  | shift hsent b hk hcount hfull hload hbaud =>
    exact stage_shift hdiv hsent b hk hcount hfull hload hbaud hc

theorem stage_run {div : Nat} (hdiv : 0 < div) {s : Tx} {n : Nat} {ws : List (BitVec 8)}
    {vs : List Bool} (h : Stage div s n ws vs) {cs : List Cycle}
    (hcs : EachStep (edge div) Proper s cs) :
    ∃ m, Stage div (run (edge div) s cs) m (ws ++ emitted (edge div) written s cs)
        (vs ++ emitted (edge div) onLine s cs) ∧
      (emitted (edge div) written s cs = [] → m = n - cs.length) := by
  induction cs generalizing s n ws vs with
  | nil =>
    simp only [emitted, List.append_nil, run_nil]
    exact ⟨n, h, fun _ => rfl⟩
  | cons c cs ih =>
    obtain ⟨hc, hrest⟩ := hcs
    obtain ⟨m, hstage, hm⟩ := stage_edge hdiv h hc
    obtain ⟨l, hstage', hl⟩ := ih hstage hrest
    rw [List.append_assoc, List.append_assoc] at hstage'
    refine ⟨l, hstage', fun hw => ?_⟩
    obtain ⟨h1, h2⟩ := List.append_eq_nil_iff.mp hw
    rw [hl h2, hm h1, List.length_cons]
    omega

/-- With no clocks to go everything written has been sent. -/
theorem Stage.sent {div : Nat} {s : Tx} {ws : List (BitVec 8)} {vs : List Bool}
    (h : Stage div s 0 ws vs) : Sent div ws vs := by
  generalize hn : 0 = n at h
  cases h with
  | @rest bs _ hsent _ _ _ =>
    have hpend : pending s = [] := by
      rw [pendingLength] at hn
      cases hr : s.txReady with
      | true => simp [pending, hr]
      | false => simp [hr] at hn
    rwa [hpend, List.append_nil]
  | load _ _ _ _ _ => omega
  | first _ _ _ _ _ =>
    rw [frameLength] at hn
    omega
  | shift _ _ _ _ _ _ _ => omega

/-- Two frames at most are to go. -/
theorem Stage.le {div : Nat} {s : Tx} {n : Nat} {ws : List (BitVec 8)} {vs : List Bool}
    (h : Stage div s n ws vs) : n ≤ 2 * frameLength div + 2 := by
  have hpend : pendingLength div s ≤ frameLength div + 2 := by
    unfold pendingLength
    split <;> omega
  cases h with
  | rest _ _ _ _ => omega
  | load _ _ _ _ _ => omega
  | first _ _ _ _ _ => omega
  | @shift _ _ _ _ k count _ hcount _ _ _ =>
    have hmul : (9 - k) * (div + 1) ≤ 9 * (div + 1) := Nat.mul_le_mul_right _ (by omega)
    have hlen : bitLength div k ≤ div + 3 := by
      unfold bitLength
      split <;> omega
    have hframe : frameLength div = 10 * (div + 1) + 2 := rfl
    omega

/-! ## The pin -/

theorem Stage.pre {div : Nat} {s : Tx} {n : Nat} {ws : List (BitVec 8)} {vs : List Bool}
    (h : Stage div s n ws vs) (hdone : shiftDone s = true) : s.preTxd = true := by
  cases h with
  | rest _ _ _ hpre => exact hpre
  | load _ _ _ hpre _ => exact hpre
  | first _ hfull _ _ _ =>
    have hfull0 : s.txShiftRegisterContents = txLoadVal s.txData >>> 0 := by
      rw [hfull, BitVec.ushiftRight_zero]
    exact nomatch hdone.symm.trans (lineOut_shift (by decide) hfull0).1
  | shift _ b hk _ hfull _ _ => exact nomatch hdone.symm.trans (lineOut_shift hk hfull).1

/-- The pin follows two clocks behind. -/
theorem onPin_eq {div : Nat} (hdiv : 0 < div) {s : Tx} {n : Nat} {ws : List (BitVec 8)}
    {vs : List Bool} (h : Stage div s n ws vs) {cs : List Cycle}
    (hcs : EachStep (edge div) Proper s cs) :
    emitted (edge div) onPin s cs =
      (s.txd :: s.preTxd :: emitted (edge div) onLine s cs).take cs.length := by
  induction cs generalizing s n ws vs with
  | nil => rfl
  | cons c cs ih =>
    obtain ⟨hc, hrest⟩ := hcs
    obtain ⟨m, hstage, _⟩ := stage_edge hdiv h hc
    have htxd : (edge div s c).txd = s.preTxd := by simp [edge, hc.2.2]
    have hpre : (edge div s c).preTxd = lineOut s := by
      show (if !shiftDone s then txShiftRegOut s else s.preTxd) = lineOut s
      cases hdone : shiftDone s with
      | true => simp [lineOut, hdone, h.pre hdone]
      | false => simp [lineOut, hdone]
    have hnext := ih hstage hrest
    rw [htxd, hpre] at hnext
    rw [emitted, hnext, List.length_cons]
    rfl

/-! ## The frames -/

/-- A frame as the receiver describes it. -/
def sentFrame (div : Nat) (b : BitVec 8) : SerialRx.Frame :=
  ⟨b, (div + 3) :: List.replicate 8 (div + 1), div + 1⟩

theorem sentFrame_wave (div : Nat) (b : BitVec 8) : (sentFrame div b).wave = part div b 10 0 := by
  have hbits : (List.range 9).map (fun i => ((txLoadVal b).getLsbD i, bitLength div i)) =
      (SerialRx.levels b).zip ((div + 3) :: List.replicate 8 (div + 1)) := by
    refine List.ext_getElem (by simp [SerialRx.levels]) fun i hi _ => ?_
    have hi9 : i < 9 := by simpa using hi
    rw [List.getElem_map, List.getElem_range, List.getElem_zip, getLsbD_txLoadVal b (by omega),
      List.getD_eq_getElem?_getD, List.getElem?_append_left (by simpa [SerialRx.levels] using hi9)]
    refine Prod.ext ?_ ?_
    · rw [List.getElem?_eq_getElem (by simpa [SerialRx.levels] using hi9)]
      rfl
    · cases i with
      | zero => rfl
      | succ i =>
        have hi8 : i < (List.replicate 8 (div + 1)).length := by rw [List.length_replicate]; omega
        show bitLength div (i + 1) = (List.replicate 8 (div + 1))[i]
        rw [List.getElem_replicate, bitLength, if_neg (Nat.succ_ne_zero i)]
  have hstop : (txLoadVal b).getLsbD 9 = true := by
    rw [getLsbD_txLoadVal b (by decide)]
    rfl
  rw [SerialRx.Frame.wave, part, List.range_succ (n := 9), List.map_append, wave_append, hbits]
  simp [sentFrame, hstop, bitLength]

/-- A line that was sent is marks and frames. A receiver with the divisor `div'`
finds each bit off by at most `d` clocks. -/
theorem Sent.frames {div div' d : Nat} (hlow : div' + 1 ≤ div + d) (hhigh : div + 2 ≤ div' + d)
    {bs : List (BitVec 8)} {vs : List Bool} (h : Sent div bs vs) :
    ∃ (j : Nat) (fs : List SerialRx.Frame),
      vs = List.replicate j true ++ fs.flatMap SerialRx.Frame.wave ∧
      fs.map SerialRx.Frame.byte = bs ∧ ∀ f ∈ fs, f.Near div' d := by
  induction h with
  | nil => exact ⟨0, [], rfl, rfl, nofun⟩
  | mark h ih =>
    obtain ⟨j, fs, rfl, rfl, hnear⟩ := ih
    rcases List.eq_nil_or_concat fs with rfl | ⟨fs, f, rfl⟩
    · exact ⟨j + 1, [], by simp [List.replicate_succ'], rfl, nofun⟩
    · -- a mark after a frame makes its stop bit longer
      refine ⟨j, fs ++ [⟨f.byte, f.bits, f.stop + 1⟩], ?_, by simp, fun g hg => ?_⟩
      · simp [SerialRx.Frame.wave, List.replicate_succ']
      · rcases List.mem_append.mp hg with hg | hg
        · exact hnear g (by simp [hg])
        · obtain ⟨hlen, hbits, hstop⟩ := hnear f (by simp)
          rw [List.mem_singleton.mp hg]
          exact ⟨hlen, hbits, Nat.le_trans hstop (by simp)⟩
  | frame h b ih =>
    obtain ⟨j, fs, rfl, rfl, hnear⟩ := ih
    refine ⟨j, fs ++ [sentFrame div b], ?_, by simp [sentFrame], fun g hg => ?_⟩
    · rw [List.flatMap_append, List.flatMap_singleton, sentFrame_wave, List.append_assoc]
    · rcases List.mem_append.mp hg with hg | hg
      · exact hnear g hg
      · rw [List.mem_singleton.mp hg]
        refine ⟨by simp [sentFrame], fun n hn => ?_, by show div' + 2 ≤ div + 1 + d; omega⟩
        rcases List.mem_cons.mp hn with rfl | hn
        · omega
        · rw [(List.mem_replicate.mp hn).2]
          omega

end FpgaLabs.Nios.SerialTx
