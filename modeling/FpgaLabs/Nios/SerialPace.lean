import FpgaLabs.Nios.SerialRx

/-! How fast characters can come out of the receiver, whatever the line does, and
how soon a program has to read them. -/

namespace FpgaLabs.Nios.SerialRx
open Sync

/-- The lowest `k` bits of the shift register are ones: as many samples at least
until the frame is over. -/
def Ones (k : Nat) (r : BitVec 10) : Prop := ∀ i, i < k → r.getLsbD i = true

theorem ones_allOnes : Ones 10 (BitVec.allOnes 10) := fun i hi => by
  rw [BitVec.getLsbD_allOnes, decide_eq_true hi]

theorem Ones.shift {k : Nat} {r : BitVec 10} (h : Ones (k + 1) r) (hk : k + 1 ≤ 10) (v : Bool) :
    Ones k (BitVec.cons v (r.extractLsb' 1 9)) := by
  intro i hi
  rw [BitVec.getLsbD_cons, if_neg (by omega), BitVec.getLsbD_extractLsb', Nat.add_comm,
    h _ (by omega)]
  simp
  omega

/-- No character comes for `n` clocks, whatever the line does. -/
inductive Away (div : Nat) (s : Rx) : Nat → Prop
  | now : Away div s 0
  | idle {n : Nat} (hsamp : ∃ p, Sampling div p s) (hstart : s.doStartRx = false)
      (hin : rxInProcess s = false) (hdel : s.delayedRxInProcess = false)
      (hn : n ≤ 10 * (div / 2 + 2)) : Away div s n
  | start {n : Nat} (hsamp : Sampling div ⟨false, div / 2 + 1⟩ s) (hstart : s.doStartRx = true)
      (hin : rxInProcess s = false) (hdel : s.delayedRxInProcess = false)
      (hn : n ≤ 10 * (div / 2 + 2)) : Away div s n
  | busy {n k c : Nat} {p : Sampler} (hsamp : Sampling div p s) (hstart : s.doStartRx = false)
      (hones : Ones (k + 1) s.rxdShiftReg) (hk : k + 1 ≤ 10) (hc : c ≤ p.count)
      (hhalf : c ≤ div / 2 + 1) (hn : n ≤ c + k * (div / 2 + 2) + 1) : Away div s n

theorem Ones.inProcess {k : Nat} {s : Rx} (h : Ones (k + 1) s.rxdShiftReg) :
    rxInProcess s = true := h 0 (Nat.succ_pos k)

theorem Away.quiet {div n : Nat} {s : Rx} (h : Away div s (n + 1)) : gotNewChar s = false := by
  cases h with
  | idle _ _ _ hdel _ => simp [gotNewChar, hdel]
  | start _ _ _ hdel _ => simp [gotNewChar, hdel]
  | busy _ _ hones _ _ _ _ => simp [gotNewChar, hones.inProcess]

/-- The receiver that is not in process, one clock later. -/
theorem away_idle {div n : Nat} (hdiv : 0 < div) {s : Rx} (hsamp : ∃ p, Sampling div p s)
    (hstart : s.doStartRx = false) (hin : rxInProcess s = false) (hn : n ≤ 10 * (div / 2 + 2))
    (c : Cycle) : Away div (edge div s c) n := by
  obtain ⟨p, hsamp⟩ := hsamp
  have hkeep : (edge div s c).rxdShiftReg = s.rxdShiftReg := by
    simp [edge, hstart, sampleEnable, hin]
  have hin' : rxInProcess (edge div s c) = false := by
    rw [rxInProcess, hkeep]
    exact hin
  have hnext := sampling_edge hdiv hsamp c
  have hstart' : (edge div s c).doStartRx = rxdFalling s c := by simp [edge, hin]
  cases hfall : rxdFalling s c with
  | false => exact .idle ⟨_, hnext⟩ (hstart'.trans hfall) hin' hin hn
  | true =>
    have hlow : c.syncRxd = false ∧ s.delayedSyncRxd = true := by
      simpa [rxdFalling] using hfall
    have hlast : p.last = true := hsamp.1 ▸ hlow.2
    have hstep : p.step (div / 2 + 1) div c.syncRxd = ⟨false, div / 2 + 1⟩ := by
      simp [Sampler.step, hlow.1, hlast]
    exact .start (hstep ▸ hnext) (hstart'.trans hfall) hin' hin hn

/-- The sampler's count one clock later. -/
theorem count_step {div : Nat} (hdiv : 0 < div) (p : Sampler) (v : Bool) {c : Nat}
    (hc : c ≤ p.count) (hhalf : c ≤ div / 2 + 1) :
    c - 1 ≤ (p.step (div / 2 + 1) div v).count ∧
      (p.count = 0 → div / 2 + 1 ≤ (p.step (div / 2 + 1) div v).count) := by
  unfold Sampler.step
  simp only
  split
  · exact ⟨by omega, fun _ => Nat.le_refl _⟩
  · split
    · exact ⟨by omega, fun _ => by omega⟩
    · exact ⟨by omega, fun h => by omega⟩

theorem Away.edge {div n : Nat} (hdiv : 1 < div) {s : Rx} (h : Away div s (n + 1)) (c : Cycle) :
    Away div (SerialRx.edge div s c) n := by
  have hpos : 0 < div := by omega
  cases h with
  | idle hsamp hstart hin _ hn => exact away_idle hpos hsamp hstart hin (by omega) c
  | start hsamp hstart hin _ hn =>
    -- the shift register is loaded, half a bit before the first sample
    have hload : (SerialRx.edge div s c).rxdShiftReg = BitVec.allOnes 10 := if_pos hstart
    have hlow : (SerialRx.edge div s c).doStartRx = false := by
      have hlast : s.delayedSyncRxd = false := hsamp.1
      simp [SerialRx.edge, rxdFalling, hlast]
    refine .busy (sampling_edge hpos hsamp c) hlow (k := 9) ?_ (Nat.le_refl _)
      (count_step hpos _ _ (Nat.le_refl _) (Nat.le_refl _)).1 (by simp) (by simp; omega)
    rw [hload]
    exact ones_allOnes
  | @busy _ k d p hsamp hstart hones hk hd hhalf hn =>
    have hnext := sampling_edge hpos hsamp c
    have hlow : (SerialRx.edge div s c).doStartRx = false := by
      simp [SerialRx.edge, hones.inProcess]
    have hsample : sampleEnable s = decide (p.count = 0) := by
      rw [sampleEnable, hones.inProcess, hsamp.2.clkEn, Bool.and_true]
    obtain ⟨hless, hfull⟩ := count_step hpos p c.syncRxd hd hhalf
    by_cases h0 : p.count = 0
    · have hreg : (SerialRx.edge div s c).rxdShiftReg =
          BitVec.cons c.syncRxd (s.rxdShiftReg.extractLsb' 1 9) := by
        simp [SerialRx.edge, hstart, hsample, h0]
      cases k with
      | zero =>
        obtain rfl : n = 0 := by omega
        exact .now
      | succ k =>
        refine .busy hnext hlow (k := k) ?_ (by omega) (hfull h0) (Nat.le_refl _) ?_
        · rw [hreg]
          exact hones.shift hk _
        · rw [Nat.add_mul, Nat.one_mul] at hn
          omega
    · have hreg : (SerialRx.edge div s c).rxdShiftReg = s.rxdShiftReg := by
        simp [SerialRx.edge, hstart, hsample, h0]
      exact .busy hnext hlow (by rw [hreg]; exact hones) hk hless (by omega) (by omega)

/-- What the receiver keeps to from its reset on. -/
structure Steady (div : Nat) (s : Rx) : Prop where
  sampling : ∃ p, Sampling div p s
  start : s.delayedRxInProcess = true → s.doStartRx = false

theorem steady_reset (div : Nat) : Steady div .reset := ⟨⟨_, sampling_reset div⟩, fun _ => rfl⟩

theorem steady_edge {div : Nat} (hdiv : 0 < div) {s : Rx} (h : Steady div s) (c : Cycle) :
    Steady div (edge div s c) := by
  obtain ⟨⟨p, hsamp⟩, _⟩ := h
  refine ⟨⟨_, sampling_edge hdiv hsamp c⟩, fun hdel => ?_⟩
  have hin : rxInProcess s = true := hdel
  simp [edge, hin]

/-- After a character the next one is ten samples away. -/
theorem away_of_got {div : Nat} (hdiv : 0 < div) {s : Rx} (h : Steady div s)
    (hgot : gotNewChar s = true) (c : Cycle) :
    Away div (edge div s c) (10 * (div / 2 + 2)) := by
  obtain ⟨hin, hdel⟩ : rxInProcess s = false ∧ s.delayedRxInProcess = true := by
    simpa [gotNewChar] using hgot
  exact away_idle hdiv h.sampling (h.start hdel) hin (Nat.le_refl _) c

theorem Away.run {div n : Nat} (hdiv : 1 < div) {s : Rx} (h : Away div s n) (cs : List Cycle)
    (hgot : gotNewChar (Sync.run (SerialRx.edge div) s cs) = true) : n ≤ cs.length := by
  induction cs generalizing s n with
  | nil =>
    cases n with
    | zero => exact Nat.le_refl _
    | succ n => exact nomatch hgot.symm.trans h.quiet
  | cons c cs ih =>
    cases n with
    | zero => exact Nat.zero_le _
    | succ n =>
      have := ih (h.edge hdiv c) hgot
      rw [List.length_cons]
      omega

/-- **Pace.** Two characters are ten half bits apart at least, whatever the line does. -/
theorem characters_apart {div : Nat} (hdiv : 1 < div) (ps : List Cycle)
    (hgot : gotNewChar (run (edge div) .reset ps) = true) {cs : List Cycle} (hne : cs ≠ [])
    (hnext : gotNewChar (run (edge div) .reset (ps ++ cs)) = true) :
    10 * (div / 2 + 2) + 1 ≤ cs.length := by
  have hsteady : Steady div (run (edge div) .reset ps) :=
    run_preserves (Steady div) (fun s c h => steady_edge (by omega) h c) (steady_reset div)
  obtain ⟨c, cs, rfl⟩ := List.exists_cons_of_ne_nil hne
  rw [run_append] at hnext
  exact Nat.succ_le_succ ((away_of_got (by omega) hsteady hgot c).run hdiv cs hnext)

/-- A line that turns over every fourth clock. -/
theorem characters_apart_fast :
    10 * (4 / 2 + 2) + 1 ≤
      ((List.range' 53 48).map fun n => listening (n / 4 % 2 == 1)).length :=
  characters_apart (by decide) ((List.range 53).map fun n => listening (n / 4 % 2 == 1))
    (by decide +kernel) (by decide) (by decide +kernel)

/-! ## Reading in time -/

/-- A clock, with the number of clocks that the character in `rx_data` has waited. -/
def ageEdge (div : Nat) (s : Rx × Nat) (c : Cycle) : Rx × Nat :=
  (edge div s.1 c, if s.1.rxCharReady && !rxRdStrobeOnset c then s.2 + 1 else 0)

/-- A program that reads a character before it has waited `limit` clocks, and
never reads when there is none. -/
def Prompt (limit : Nat) (s : Rx × Nat) (c : Cycle) : Prop :=
  (rxRdStrobeOnset c = true → s.1.rxCharReady = true) ∧
    (s.1.rxCharReady = true → rxRdStrobeOnset c = false → s.2 + 1 < limit)

instance (limit : Nat) (s : Rx × Nat) (c : Cycle) : Decidable (Prompt limit s c) :=
  inferInstanceAs (Decidable (_ ∧ _))

/-- While a character waits the next one is not due. -/
structure InTime (div : Nat) (s : Rx × Nat) : Prop where
  steady : Steady div s.1
  away : s.1.rxCharReady = true → s.2 < 10 * (div / 2 + 2) ∧
    Away div s.1 (10 * (div / 2 + 2) - s.2)
  overrun : s.1.rxOverrun = false

theorem InTime.alone {div : Nat} {s : Rx × Nat} (h : InTime div s)
    (hgot : gotNewChar s.1 = true) : s.1.rxCharReady = false := by
  cases hr : s.1.rxCharReady with
  | false => rfl
  | true =>
    obtain ⟨hlt, haway⟩ := h.away hr
    have hsucc : 10 * (div / 2 + 2) - s.2 = 10 * (div / 2 + 2) - s.2 - 1 + 1 := by omega
    rw [hsucc] at haway
    exact nomatch hgot.symm.trans haway.quiet

theorem inTime_edge {div : Nat} (hdiv : 1 < div) {s : Rx × Nat} (h : InTime div s) {c : Cycle}
    (hc : Prompt (10 * (div / 2 + 2)) s c) :
    ¬ Collides s.1 c ∧ InTime div (ageEdge div s c) := by
  obtain ⟨s, age⟩ := s
  obtain ⟨hread, hlimit⟩ := hc
  simp only at hread hlimit
  have halone := h.alone
  have hsteady : Steady div s := h.steady
  have hover : s.rxOverrun = false := h.overrun
  simp only at halone
  have hready : (edge div s c).rxCharReady =
      if rxRdStrobeOnset c then false else if gotNewChar s then true else s.rxCharReady := rfl
  refine ⟨?_, steady_edge (by omega) hsteady c, ?_, ?_⟩
  · rintro ⟨hgot, hwait | ho⟩
    · exact nomatch hwait.symm.trans (halone hgot)
    · exact nomatch (hread ho).symm.trans (halone hgot)
  · intro hr
    show (if s.rxCharReady && !rxRdStrobeOnset c then age + 1 else 0) < _ ∧
      Away div (edge div s c) (_ - if s.rxCharReady && !rxRdStrobeOnset c then age + 1 else 0)
    change (edge div s c).rxCharReady = true at hr
    rw [hready] at hr
    cases ho : rxRdStrobeOnset c with
    | true => simp [ho] at hr
    | false =>
      cases hw : s.rxCharReady with
      | true =>
        -- it waits on
        have hlt := hlimit hw ho
        obtain ⟨_, haway⟩ := h.away hw
        have hsucc : 10 * (div / 2 + 2) - age = 10 * (div / 2 + 2) - (age + 1) + 1 := by omega
        simp only [hsucc] at haway
        exact ⟨hlt, haway.edge hdiv c⟩
      | false =>
        have hgot : gotNewChar s = true := by simpa [ho, hw] using hr
        exact ⟨by simp, away_of_got (by omega) hsteady hgot c⟩
  · show (edge div s c).rxOverrun = false
    cases hgot : gotNewChar s with
    | false => simp [edge, hgot, hover]
    | true => simp [edge, halone hgot, hover]

theorem inTime_reset (div : Nat) : InTime div (.reset, 0) := ⟨steady_reset div, nofun, rfl⟩

theorem prompt_run {div : Nat} (hdiv : 1 < div) {s : Rx × Nat} (h : InTime div s)
    {cs : List Cycle} (hcs : EachStep (ageEdge div) (Prompt (10 * (div / 2 + 2))) s cs) :
    EachStep (edge div) (fun s c => ¬ Collides s c) s.1 cs ∧
      (run (edge div) s.1 cs).rxOverrun = false := by
  induction cs generalizing s with
  | nil => exact ⟨trivial, h.overrun⟩
  | cons c cs ih =>
    obtain ⟨hno, hnext⟩ := inTime_edge hdiv h hcs.1
    obtain ⟨hrest, hover⟩ := ih hnext hcs.2
    exact ⟨⟨hno, hrest⟩, hover⟩

/-- **Deadline.** A program that reads each character within ten half bits of its
arrival reads every character, whatever the line does, and no overrun is flagged. -/
theorem prompt_reads {div : Nat} (hdiv : 1 < div) {cs : List Cycle}
    (hcs : EachStep (ageEdge div) (Prompt (10 * (div / 2 + 2))) (.reset, 0) cs) :
    emitted (edge div) received .reset cs =
        emitted (edge div) taken .reset cs ++ waiting (run (edge div) .reset cs) ∧
      (run (edge div) .reset cs).rxOverrun = false := by
  obtain ⟨hno, hover⟩ := prompt_run hdiv (inTime_reset div) hcs
  exact ⟨@conservation _ _ _ _ waiting _ _ _ (fun _ => True)
    (fun s c _ hc => ⟨trivial, (waiting_edge div s c).mpr hc⟩) _ _ trivial hno, hover⟩

/-- A mark, a character, and the cycle that reads it. -/
theorem prompt_reads_a :
    let cs := listening true :: (Frame.wave ⟨0x41, List.replicate 9 5, 8⟩).map listening ++
      [⟨true, true, true, false⟩]
    emitted (edge 4) received .reset cs =
        emitted (edge 4) taken .reset cs ++ waiting (run (edge 4) .reset cs) ∧
      (run (edge 4) .reset cs).rxOverrun = false :=
  prompt_reads (by decide) (by decide +kernel)

end FpgaLabs.Nios.SerialRx
