import FpgaLabs.Sync.Latch
import Mathlib.Data.List.Induction

/-! The push-button port of the Nios system, `buttons.vhd`: a slave with a
rising-edge capture register, and the service routine `buttons_isr` of
`rpds_de_test.c`. A run starts in the state the reset leaves. -/

namespace FpgaLabs.Nios
open Sync

/-- The bus inputs of an Avalon slave during one clock cycle. -/
structure Access (a : Nat) (D : Type) where
  address : BitVec a
  chipselect : Bool
  writeN : Bool
  writedata : D

/-- `(chipselect AND NOT write_n) AND (address = n)`. -/
def Access.wrStrobe {a : Nat} {D : Type} (c : Access a D) (n : BitVec a) : Bool :=
  c.chipselect && !c.writeN && c.address == n

/-- One address at a time. -/
theorem Access.wrStrobe_other {a : Nat} {D : Type} {c : Access a D} {n k : BitVec a}
    (h : c.wrStrobe n = true) (hk : n ≠ k) : c.wrStrobe k = false := by
  have haddr : c.address = n := by simpa using (Bool.and_eq_true_iff.mp h).2
  simp [wrStrobe, haddr, hk]

namespace Pio

/-- `STD_LOGIC_VECTOR (3 DOWNTO 0)`. -/
abbrev Keys := Fin 4 → Bool

structure Cycle extends Access 2 Keys where
  inPort : Keys

structure Buttons where
  readdata : Keys
  irqMask : Keys
  edgeCapture : Keys
  d1DataIn : Keys
  d2DataIn : Keys

/-- `reset_n = '0'`. -/
def Buttons.reset : Buttons :=
  ⟨fun _ => false, fun _ => false, fun _ => false, fun _ => false, fun _ => false⟩

def edgeDetect (s : Buttons) : Keys := fun i => s.d1DataIn i && !s.d2DataIn i

def edgeCaptureWrStrobe (c : Cycle) : Bool := c.wrStrobe 3

def readMuxOut (s : Buttons) (c : Cycle) : Keys := fun i =>
  (c.address == 0 && c.inPort i) || (c.address == 2 && s.irqMask i) ||
    (c.address == 3 && s.edgeCapture i)

def irq (s : Buttons) : Bool := (List.finRange 4).any fun i => s.edgeCapture i && s.irqMask i

/-- A rising edge of `clk`; the four processes of `edge_capture` differ in the index only. -/
def edge (s : Buttons) (c : Cycle) : Buttons where
  readdata := readMuxOut s c
  irqMask := if c.wrStrobe 2 then c.writedata else s.irqMask
  edgeCapture i :=
    if edgeCaptureWrStrobe c then false
    else if edgeDetect s i then true else s.edgeCapture i
  d1DataIn := c.inPort
  d2DataIn := s.d1DataIn

/-- The last sample of the pins, low before the first. -/
def sampled (cs : List Cycle) : Keys := cs.getLast?.elim (fun _ => false) Cycle.inPort

/-- Key `i` rose with the last sample. -/
def Rose (cs : List Cycle) (i : Fin 4) : Prop :=
  sampled cs i = true ∧ sampled cs.dropLast i = false

theorem samples (cs : List Cycle) :
    (run edge .reset cs).d1DataIn = sampled cs ∧
      (run edge .reset cs).d2DataIn = sampled cs.dropLast := by
  induction cs using List.reverseRecOn with
  | nil => exact ⟨rfl, rfl⟩
  | append_singleton cs c ih =>
    rw [run_append, List.dropLast_concat]
    refine ⟨?_, ih.1⟩
    simp [sampled, edge]

theorem edgeDetect_iff (cs : List Cycle) (i : Fin 4) :
    edgeDetect (run edge .reset cs) i = true ↔ Rose cs i := by
  obtain ⟨h1, h2⟩ := samples cs
  simp [edgeDetect, Rose, h1, h2]

/-- Nothing writes the capture register in `cs`. -/
def NoClear (cs : List Cycle) : Prop := ∀ c ∈ cs, edgeCaptureWrStrobe c = false

theorem eachStep_noClear (s : Buttons) (cs : List Cycle) :
    EachStep edge (fun _ c => edgeCaptureWrStrobe c = false) s cs ↔ NoClear cs := by
  induction cs generalizing s with
  | nil => simp [EachStep, NoClear]
  | cons c cs ih => simp [EachStep, ih, NoClear]

theorem edgeCapture_run (s : Buttons) (cs : List Cycle) (i : Fin 4) :
    (run edge s cs).edgeCapture i = true ↔
      (∃ p c q, cs = p ++ c :: q ∧ edgeDetect (run edge s p) i = true ∧ NoClear (c :: q)) ∨
      s.edgeCapture i = true ∧ NoClear cs := by
  have hlatch := @latch_run Buttons Cycle edge (fun s => s.edgeCapture i)
    (fun _ c => edgeCaptureWrStrobe c) (fun s _ => edgeDetect s i) (fun _ _ => rfl) s cs
  simpa only [eachStep_noClear] using hlatch

/-- **Capture.** A key is flagged exactly if it rose at some sample, and no
write to the register came with or after the clock that detected the edge. -/
theorem captures_iff (cs : List Cycle) (i : Fin 4) :
    (run edge .reset cs).edgeCapture i = true ↔
      ∃ p c q, cs = p ++ c :: q ∧ Rose p i ∧ NoClear (c :: q) := by
  rw [edgeCapture_run]
  constructor
  · rintro (⟨p, c, q, hcs, hdet, hclear⟩ | ⟨hflag, _⟩)
    · exact ⟨p, c, q, hcs, (edgeDetect_iff p i).mp hdet, hclear⟩
    · cases hflag
  · rintro ⟨p, c, q, hcs, hrose, hclear⟩
    exact .inl ⟨p, c, q, hcs, (edgeDetect_iff p i).mpr hrose, hclear⟩

/-! ## The service routine -/

/-- `IORD_ALTERA_AVALON_PIO_EDGE_CAP` and the writes of `buttons_isr` as bus
cycles; the pins may do anything meanwhile. -/
def IsRead (c : Cycle) : Prop := c.writeN = true ∧ c.address = 3
def IsClear (c : Cycle) : Prop := edgeCaptureWrStrobe c = true

/-- What `*function` gets: the data registered by the read cycle. -/
def function (s : Buttons) (r : Cycle) : Keys := (edge s r).readdata

theorem function_eq (s : Buttons) {r : Cycle} (hr : IsRead r) : function s r = s.edgeCapture := by
  funext i
  simp [function, edge, readMuxOut, hr.2]

theorem edgeCapture_clear (s : Buttons) {w : Cycle} (hw : IsClear w) (i : Fin 4) :
    (edge s w).edgeCapture i = false := by
  have hw' : edgeCaptureWrStrobe w = true := hw
  simp [edge, hw']

/-- **Service.** Between two services, cleared at `w` and read at `r`, the routine
reports exactly the keys whose edge was detected in the cycles `m` between. An
edge detected by the cycle of the read, before the write or with it is reported
by no service, unless the same key was caught in `m`. -/
theorem buttonsIsr_reports_iff (h m g : List Cycle) (w r w' : Cycle) (i : Fin 4)
    (hw : IsClear w) (hm : NoClear m) (hr : IsRead r) (hw' : IsClear w') :
    (function (run edge .reset (h ++ w :: m)) r i = true ↔
      ∃ p c q, m = p ++ c :: q ∧ Rose (h ++ w :: p) i) ∧
    (run edge .reset (h ++ w :: m ++ r :: g ++ [w'])).edgeCapture i = false := by
  constructor
  · rw [function_eq _ hr, run_append, run_cons, edgeCapture_run]
    have hstart := edgeCapture_clear (run edge .reset h) hw i
    constructor
    · rintro (⟨p, c, q, rfl, hdet, _⟩ | ⟨hflag, _⟩)
      · refine ⟨p, c, q, rfl, (edgeDetect_iff _ i).mp ?_⟩
        rwa [run_append, run_cons]
      · rw [hstart] at hflag
        cases hflag
    · rintro ⟨p, c, q, rfl, hrose⟩
      refine .inl ⟨p, c, q, rfl, ?_, fun d hd => hm d (List.mem_append_right p hd)⟩
      have hdet := (edgeDetect_iff _ i).mpr hrose
      rwa [run_append, run_cons] at hdet
  · rw [run_append]
    exact edgeCapture_clear _ hw' i

/-- Key 0 is pressed between two services. -/
theorem buttonsIsr_reports_zero :
    let clear : Cycle := ⟨⟨3, true, false, fun _ => false⟩, fun _ => false⟩
    let pressed : Cycle := ⟨⟨3, true, true, fun _ => false⟩, fun i => i == 0⟩
    function (run edge .reset ([] ++ clear :: [pressed, pressed])) pressed 0 = true := by
  intro clear pressed
  have hm : NoClear [pressed, pressed] := by
    intro c hc
    rcases List.mem_pair.mp hc with rfl | rfl <;> rfl
  exact (buttonsIsr_reports_iff [] [pressed, pressed] [] clear pressed clear 0 rfl hm ⟨rfl, rfl⟩
    rfl).1.mpr ⟨[pressed], pressed, [], rfl, rfl, rfl⟩

end Pio
end FpgaLabs.Nios
