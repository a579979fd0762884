import FpgaLabs.Nios.SdramInv

/-! The SDRAM controller with its SDRAM is a memory: what it answers is what a
plain memory answers to the requests it took in. -/

namespace FpgaLabs.Nios.Sdram
open Sync

/-- A write keeps the bytes the mask excludes. -/
def merge (w : BitVec 2 × BitVec 16) (old : BitVec 16) : BitVec 16 := bytes w.1 w.2 old

/-- The request taken in at an edge. -/
def accepted (s : Board) (b : Bus) : List (MemOp (BitVec 22) (BitVec 2 × BitVec 16)) :=
  if s.ctl.accepts b then [b.entry.op] else []

/-- Requests taken in whose command the SDRAM has not seen. -/
def waiting (s : Board) : List (MemOp (BitVec 22) (BitVec 2 × BitVec 16)) :=
  pins s ++ held s.ctl.main ++ s.ctl.fifo.queue.map Entry.op

def tap (v : Bool) (d : BitVec 16) : List (BitVec 16) := if v then [d] else []

/-- The read data given, `za_data` with `za_valid`. -/
def answered (s : Board) (_ : Bus) : List (BitVec 16) := tap s.ctl.zaValid s.ctl.zaData

/-- The places of the read pipe, from its end: the output register, and what the
SDRAM will put on the data lines in one, two and three clocks. -/
def places (s : Board) : List (List (BitVec 16)) :=
  [tap s.ctl.zaValid s.ctl.zaData, tap s.ctl.rdValid2 (s.chip.mem s.chip.rdAddr2),
    tap s.ctl.rdValid1 (s.chip.mem s.chip.rdAddr1), tap s.ctl.rdValid0 (s.chip.mem s.chip.rdAddr0)]

/-- What the first `k` places hold. -/
def place (k : Nat) (s : Board) : List (BitVec 16) := ((places s).take k).flatten

def pipe (s : Board) : List (BitVec 16) := place 4 s

theorem bytes_zero (new old : BitVec 16) : bytes 0#2 new old = new := by
  refine BitVec.eq_of_getLsbD_eq fun i hi => ?_
  have hb : bytes 0#2 new old = new.extractLsb' 8 8 ++ new.extractLsb' 0 8 := rfl
  rw [hb, BitVec.getLsbD_append, BitVec.getLsbD_extractLsb', BitVec.getLsbD_extractLsb']
  by_cases h8 : i < 8
  · simp [h8]
  · simp [h8, show i - 8 < 8 by omega, show 8 + (i - 8) = i by omega]

/-! ## One clock -/

section
variable {s : Board} (b : Bus)

theorem step_ops (h : Inv s) :
    waiting s ++ accepted s b = pins s ++ waiting (edge s b) := by
  obtain ⟨hqueue, _⟩ := fifo_edge h.fifo b
  have hmoves : held s.ctl.main ++ (if s.ctl.fSelect then [s.ctl.fifo.rdData.op] else []) =
      pins (edge s b) ++ held (edge s b).ctl.main := by
    rcases h.stage with hboot | ⟨hinit, _, hstage⟩
    · obtain ⟨_, _, hpins, hheld⟩ := hboot.step b
      rw [hpins, hheld, held, hboot.state, Ctl.fSelect, fSelect_of_pop _ hboot.fPop]
      rfl
    · exact (hstage.step b h.fifo hinit).ops
  have hhead : s.ctl.fifo.queue.map Entry.op =
      (if s.ctl.fSelect then [s.ctl.fifo.rdData.op] else []) ++
        (if s.ctl.fSelect then s.ctl.fifo.queue.tail else s.ctl.fifo.queue).map Entry.op := by
    cases hsel : s.ctl.fSelect with
    | false => rfl
    | true =>
      have hpend : s.ctl.main.pending s.ctl.view = true := (Bool.and_eq_true_iff.mp hsel).2
      obtain ⟨rest, hq⟩ := Fifo.queue_of_some (fifo_of_pending hpend).2
      rw [hq]
      rfl
  have hnew : accepted s b = (if s.ctl.accepts b then [b.entry] else []).map Entry.op := by
    rw [accepted]
    split <;> rfl
  rw [waiting, waiting, hqueue, List.map_append, ← hnew, hhead]
  simp only [List.append_assoc]
  rw [← List.append_assoc (held s.ctl.main), hmoves, List.append_assoc]

theorem pins_cases (h : Inv s) :
    s.ctl.main.cmd.code = .rd ∧ pins s = [.read (s.chip.testAddr s.ctl.main)] ∨
    s.ctl.main.cmd.code = .wr ∧ Quiet 4 s ∧ s.ctl.main.oe = true ∧
      pins s = [.write (s.chip.testAddr s.ctl.main) (s.ctl.main.dqm, s.ctl.main.data)] ∨
    s.ctl.main.cmd.code ≠ .rd ∧ s.ctl.main.cmd.code ≠ .wr ∧ pins s = [] := by
  by_cases hrd : s.ctl.main.cmd.code = .rd
  · obtain ⟨hcs, _⟩ := h.cmd.rd hrd
    exact .inl ⟨hrd, by simp [pins, Cmd.is, hcs, hrd]⟩
  · by_cases hwr : s.ctl.main.cmd.code = .wr
    · obtain ⟨hcs, hoe, hquiet⟩ := h.cmd.wr hwr
      exact .inr (.inl ⟨hwr, hquiet, hoe, by simp [pins, Cmd.is, hcs, hwr]⟩)
    · exact .inr (.inr ⟨hrd, hwr, pins_none hrd hwr⟩)

/-- Nothing comes out of an empty pipe, whatever the latency. -/
theorem readValid_of_quiet (h : Quiet 4 s) : s.chip.readValid = false := by
  obtain ⟨_, h0⟩ := h.stage0 (by decide)
  obtain ⟨_, h1⟩ := h.stage1 (by decide)
  obtain ⟨_, h2⟩ := h.stage2 (by decide)
  simp [Chip.readValid, Chip.stage, h0, h1, h2]

theorem step_mem (h : Inv s) :
    (edge s b).chip.mem = memAfter merge s.chip.mem (pins s) := by
  have hmem : (edge s b).chip.mem = if s.ctl.main.cmd.is .wr then
      Function.update s.chip.mem (s.chip.testAddr s.ctl.main)
        (bytes s.ctl.main.dqm (zsDq s.chip s.ctl.main b.z) (s.chip.readData s.ctl.main))
      else s.chip.mem := rfl
  rcases pins_cases h with ⟨hrd, hpins⟩ | ⟨hwr, hquiet, hoe, hpins⟩ | ⟨_, hwr, hpins⟩
  · rw [hmem, is_of_ne (by rw [hrd]; decide), hpins]
    rfl
  · obtain ⟨hcs, _⟩ := h.cmd.wr hwr
    have his : s.ctl.main.cmd.is .wr = true := by simp [Cmd.is, hcs, hwr]
    have hdq : zsDq s.chip s.ctl.main b.z = s.ctl.main.data := by
      simp [zsDq, hoe, readValid_of_quiet hquiet]
    rw [hmem, his, hpins, hdq, Chip.readData, his]
    rfl
  · rw [hmem, is_of_ne hwr, hpins]
    rfl

/-- The data lines carry the word that was asked for three clocks ago. -/
theorem zsDq_read (h : Inv s) (hv : s.ctl.rdValid2 = true) :
    zsDq s.chip s.ctl.main b.z = s.chip.mem s.chip.rdAddr2 := by
  obtain ⟨hvalid, hmask⟩ := h.pipe.stage2 hv
  have hwr : s.ctl.main.cmd.code ≠ .wr := fun hwr => by
    obtain ⟨_, _, hquiet⟩ := h.cmd.wr hwr
    exact Bool.false_ne_true ((hquiet.stage2 (by decide)).1.symm.trans hv)
  have hoe : s.ctl.main.oe = false := by
    rw [← Bool.not_eq_true]
    exact fun hoe => hwr (h.cmd.oe hoe)
  have hlatency : s.chip.latency = 3 := by
    rcases h.stage with hboot | ⟨_, hlatency, _⟩
    · exact absurd (hboot.rdValid.2.2.symm.trans hv) Bool.false_ne_true
    · exact hlatency
  simp [zsDq, hoe, Chip.readValid, Chip.readMask, Chip.readData, Chip.readAddr, Chip.stage,
    hlatency, hvalid, hmask, is_of_ne hwr, bytes_zero]

/-- The places move on by one, and a read command comes in. -/
theorem step_places (h : Inv s) :
    (places s).tail ++ [replies merge s.chip.mem (pins s)] = places (edge s b) := by
  have hza : tap s.ctl.rdValid2 (zsDq s.chip s.ctl.main b.z) =
      tap s.ctl.rdValid2 (s.chip.mem s.chip.rdAddr2) := by
    cases hv : s.ctl.rdValid2 with
    | false => rfl
    | true => rw [zsDq_read b h hv]
  have hplaces : places (edge s b) = [tap s.ctl.rdValid2 (zsDq s.chip s.ctl.main b.z),
      tap s.ctl.rdValid1 ((edge s b).chip.mem s.chip.rdAddr1),
      tap s.ctl.rdValid0 ((edge s b).chip.mem s.chip.rdAddr0),
      tap (s.ctl.main.cmd.code == .rd) ((edge s b).chip.mem (s.chip.testAddr s.ctl.main))] := rfl
  rw [hplaces, hza, step_mem b h]
  rcases pins_cases h with ⟨hrd, hpins⟩ | ⟨hwr, hquiet, _, hpins⟩ | ⟨hrd, _, hpins⟩
  · rw [hpins, hrd]
    rfl
  · obtain ⟨h0, _⟩ := hquiet.stage0 (by decide)
    obtain ⟨h1, _⟩ := hquiet.stage1 (by decide)
    rw [hpins, hwr, places, h0, h1]
    rfl
  · rw [hpins, beq_false_of_ne hrd]
    rfl

theorem step_place (h : Inv s) {k : Nat} (hk : k < 4) :
    place (k + 1) s = answered s b ++ place k (edge s b) := by
  have hcons : places s = answered s b :: (places s).tail := rfl
  have hlen : (places s).tail.length = 3 := rfl
  rw [place, place, ← step_places b h, hcons, List.take_succ_cons, List.flatten_cons, List.tail_cons,
    List.take_append_of_le_length (by omega)]

theorem step_data (h : Inv s) :
    pipe s ++ replies merge s.chip.mem (pins s) = answered s b ++ pipe (edge s b) := by
  have hcons : (places s).flatten = answered s b ++ (places s).tail.flatten := rfl
  have hall (t : Board) : pipe t = (places t).flatten := rfl
  rw [hall, hall, hcons, ← step_places b h, List.flatten_append, List.append_assoc,
    List.flatten_singleton]

end

/-- The controller and its SDRAM serve requests in order. -/
theorem serves : Serves merge edge Inv (·.chip.mem) accepted (fun s _ => pins s) waiting answered
    pipe :=
  ⟨fun _ b h => inv_edge b h, fun _ b h => step_mem b h, fun _ b h => step_ops b h,
    fun _ b h => step_data b h⟩

/-- At reset nothing is on its way. -/
theorem reset_idle {s : Board} (h : IsReset s.ctl) : waiting s = [] ∧ pipe s = [] := by
  have hpins : pins s = [] := pins_none (by rw [h.cmd]; decide) (by rw [h.cmd]; decide)
  have hheld : held s.ctl.main = [] := by rw [held, h.state]
  have hqueue : s.ctl.fifo.queue = [] := by rw [Fifo.queue, if_pos h.entries]
  obtain ⟨h0, h1, h2⟩ := h.rdValid
  refine ⟨by rw [waiting, hpins, hheld, hqueue]; rfl, ?_⟩
  rw [pipe, place, places, h.zaValid, h0, h1, h2]
  rfl

/-- **Memory.** The read data given so far is the first part of what a plain memory
answers to the requests taken in, in their order: across refreshes, row changes
and the read pipe, for any traffic and any contents at reset. Once what is still
on its way is done, the contents are those of the plain memory. -/
theorem is_memory {s : Board} (h : IsReset s.ctl) (bs : List Bus) :
    emitted edge answered s bs <+: replies merge s.chip.mem (emitted edge accepted s bs) ∧
      memAfter merge (run edge s bs).chip.mem (waiting (run edge s bs)) =
        memAfter merge s.chip.mem (emitted edge accepted s bs) := by
  obtain ⟨hw, hp⟩ := reset_idle h
  exact ⟨serves.answers (inv_reset h) hw hp bs, serves.contents (inv_reset h) hw bs⟩

theorem accepted_none (s : Board) (n : Nat) :
    emitted edge accepted s (List.replicate n Bus.none) = [] := by
  induction n generalizing s with
  | zero => rfl
  | succ n ih =>
    rw [List.replicate_succ, emitted, ih]
    rfl

/-- A write and a read, taken in before the SDRAM is ready. -/
theorem accepted_early (mem : BitVec 22 → BitVec 16) (n : Nat) :
    emitted edge accepted (resetBoard mem) (Bus.write :: Bus.read :: List.replicate n Bus.none) =
      [.write 0 (0b10, 0xABCD), .read 0] := by
  rw [emitted, emitted, accepted_none]
  rfl

/-- A masked write before the SDRAM is ready: nothing but its word is read. -/
theorem is_memory_early :
    emitted edge answered (resetBoard fun _ => 0x1234)
      (Bus.write :: Bus.read :: List.replicate 6000 Bus.none) <+: [0x12CD] := by
  have hmemory := (is_memory (s := resetBoard fun _ => 0x1234) isReset_resetCtl
    (Bus.write :: Bus.read :: List.replicate 6000 Bus.none)).1
  rwa [accepted_early] at hmemory

end FpgaLabs.Nios.Sdram
