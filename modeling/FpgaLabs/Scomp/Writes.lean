import FpgaLabs.Scomp.Termination

/-! When SCOMP writes its memory. The write enable is a register that reset
does not clear, while reset moves the address bus to 00 at once; a reset that
arrives in `execute_store2` therefore turns the store into writes at 00. -/

namespace FpgaLabs.Scomp
open Sync

/-- What the next clock edge writes: address and data on the memory ports. -/
def portWrite (s : Signals StateType) : Option (Addr × Word) :=
  if s.memoryWrite then some (memoryAddressRegister s, s.registerAC) else none

/-- The event writes the word at `a`, or changes it. -/
def Touches (s : Signals StateType) (e : Event) (a : Addr) : Prop :=
  (e = .clock ∧ ∃ d, portWrite s = some (a, d)) ∨
    (scomp.step s e).memory.cells a ≠ s.memory.cells a

def ExecutingStore (s : Signals StateType) : Prop :=
  (s.state = .executeStore ∨ s.state = .executeStore2 ∨ s.state = .executeStore3) ∧
    opcode s.instructionRegister = 0x01#8

/-- A word is touched only by a store, at its operand, with the accumulator. -/
def StoreOnly (s : Signals StateType) (e : Event) : Prop :=
  ∀ a, Touches s e a → ExecutingStore s ∧ a = operand s.instructionRegister ∧
    (scomp.step s e).memory.cells a = s.registerAC

/-- A reset raised while the write enable is up. -/
def AbortsStore (s : Signals StateType) (e : Event) : Prop :=
  e = .reset true ∧ s.state = .executeStore2

/-- The write enable is up in `execute_store2` and nowhere else, that state is
never met under reset, and a store about to write has opcode 01. -/
structure WriteInv (s : Signals StateType) : Prop where
  write : s.memoryWrite = true ↔ s.state = .executeStore2
  low : s.state = .executeStore2 → s.reset = false
  store : s.state = .executeStore ∨ s.state = .executeStore2 → opcode s.instructionRegister = 0x01#8

/-- What an aborted store leaves until the next edge with reset low. -/
def Stray (s : Signals StateType) : Prop := s.memoryWrite = true ∧ s.state = .resetPc

theorem touches_clock {s : Signals StateType} {e : Event} {a : Addr} (h : Touches s e a) :
    e = .clock ∧ s.memoryWrite = true ∧ a = memoryAddressRegister s := by
  rcases h with ⟨rfl, d, hd⟩ | h
  · unfold portWrite at hd
    split at hd <;> simp_all
  · cases e with
    | reset level => cases level <;> exact absurd rfl h
    | clock => exact ⟨rfl, Ram.edge_changes h⟩

theorem Started.writeInv {s : Signals StateType} (h : Started s) : WriteInv s := by
  obtain ⟨hs, hw⟩ := h
  rcases hs with hs | hs <;> constructor <;> simp [hs, hw]

theorem decodeState_executeStore {op : BitVec 8} (h : decodeState op = .executeStore) :
    op = 0x01#8 := by
  unfold decodeState at h
  split at h <;> simp_all

theorem decodeState_ne_executeStore2 (op : BitVec 8) : decodeState op ≠ .executeStore2 := by
  unfold decodeState
  split <;> simp

theorem clockEdge_writeInv {s : Signals StateType} (h : WriteInv s) (hr : s.reset = false) :
    WriteInv (scomp.clockEdge s) := by
  obtain ⟨hw, -, hst⟩ := h
  rw [clockEdge_low hr]
  cases hs : s.state with
  | decode =>
    refine ⟨?_, fun _ => (caseState_reset s).trans hr, ?_⟩
    · simp [caseState, hs, hw, decodeState_ne_executeStore2]
    · simp only [caseState, hs]
      rintro (h | h)
      · exact decodeState_executeStore h
      · exact absurd h (decodeState_ne_executeStore2 _)
  | executeAddi =>
    by_cases hq : s.memoryDataRegister = 0x00FF#16 <;>
      constructor <;> simp [caseState, hs, hw, hq]
  | _ => constructor <;> simp_all [caseState]

theorem step_writeInv (s : Signals StateType) (e : Event) (h : WriteInv s)
    (ha : ¬ AbortsStore s e) : WriteInv (scomp.step s e) := by
  cases e with
  | clock =>
    cases hr : s.reset with
    | false => exact clockEdge_writeInv h hr
    | true =>
      have hne : s.state ≠ .executeStore2 := fun hs => by simp [h.low hs] at hr
      have hw := h.write.not.mpr hne
      constructor <;> simp [Version.step, Version.clockEdge, scomp, hr, hw]
  | reset level =>
    cases level with
    | false => exact ⟨h.write, fun _ => rfl, h.store⟩
    | true =>
      have hne : s.state ≠ .executeStore2 := fun hs => ha ⟨rfl, hs⟩
      have hw := h.write.not.mpr hne
      constructor <;> simp [Version.step, Version.setReset, scomp, hw]

theorem WriteInv.storeOnly {s : Signals StateType} (h : WriteInv s) (e : Event) :
    StoreOnly s e := by
  intro a ha
  obtain ⟨rfl, hw, rfl⟩ := touches_clock ha
  have hs : s.state = .executeStore2 := h.write.mp hw
  refine ⟨⟨Or.inr (Or.inl hs), h.store (Or.inr hs)⟩, ?_, ?_⟩
  · simp [memoryAddressRegister, hs]
  · rw [Version.step, clockEdge_low (h.low hs), hw]
    simp

theorem abortsStore_stray {s : Signals StateType} {e : Event} (h : WriteInv s)
    (ha : AbortsStore s e) : Stray (scomp.step s e) := by
  obtain ⟨rfl, hs⟩ := ha
  exact ⟨h.write.mpr hs, rfl⟩

/-- After an aborted store the next edge writes outside a store, however long
reset is held. -/
theorem stray_writes {s : Signals StateType} (h : Stray s) (es : List Event) :
    ¬ EachStep scomp.step StoreOnly s (es ++ [.clock]) := by
  have hclock : ∀ s, Stray s → ¬ StoreOnly s .clock := by
    intro s hs hso
    have ht : Touches s .clock (memoryAddressRegister s) :=
      Or.inl ⟨rfl, s.registerAC, by simp [portWrite, hs.1]⟩
    have hx := (hso _ ht).1.1
    simp [hs.2] at hx
  induction es generalizing s with
  | nil => exact fun hall => hclock s h hall.1
  | cons e es ih =>
    rintro ⟨he, hes⟩
    cases e with
    | clock => exact hclock s h he
    | reset level =>
      refine ih ?_ hes
      cases level with
      | false => exact h
      | true => exact ⟨h.1, rfl⟩

/-- **Stores only.** In a run that ends with a clock edge every word touched is
touched by a store instruction exactly when no reset is raised in
`execute_store2`. -/
theorem storeOnly_iff_no_abort {s : Signals StateType} (hs : Started s) (es : List Event) :
    EachStep scomp.step StoreOnly s (es ++ [.clock]) ↔
      EachStep scomp.step (fun s e => ¬ AbortsStore s e) s es := by
  have hi := hs.writeInv
  clear hs
  induction es generalizing s with
  | nil => exact iff_of_true ⟨hi.storeOnly _, trivial⟩ trivial
  | cons e es ih =>
    by_cases ha : AbortsStore s e
    · refine iff_of_false ?_ fun h => h.1 ha
      exact fun h => stray_writes (abortsStore_stray hi ha) es h.2
    · constructor
      · exact fun h => ⟨ha, (ih (step_writeInv s e hi ha)).mp h.2⟩
      · exact fun h => ⟨hi.storeOnly e, (ih (step_writeInv s e hi ha)).mpr h.2⟩

/-- Every word stores the accumulator at 05. -/
def storeImage (_ : Addr) : Word := 0x0105

/-- Four edges lead into `execute_store2`; then reset is raised. -/
def abortRun : List Event := [.clock, .clock, .clock, .clock, .reset true, .clock]

theorem reset_writes_memory :
    let s : Signals StateType := ⟨.resetPc, 0, 0, 0, false, ⟨storeImage, 0⟩, false⟩
    Started s ∧ (run scomp.step s abortRun).memory.cells 0 ≠ storeImage 0 ∧
      ¬ EachStep scomp.step StoreOnly s abortRun := by
  refine ⟨⟨Or.inl rfl, rfl⟩, by decide, ?_⟩
  rintro ⟨-, -, -, -, -, h, -⟩
  have hx := (h 0 (Or.inr (by decide))).1.1
  exact absurd hx (by decide)

theorem storeOnly_iff_no_abort_storeImage :
    EachStep scomp.step StoreOnly ⟨.resetPc, 0, 0, 0, false, ⟨storeImage, 0⟩, false⟩
        (abortRun ++ [.clock]) ↔
      EachStep scomp.step (fun s e => ¬ AbortsStore s e)
        ⟨.resetPc, 0, 0, 0, false, ⟨storeImage, 0⟩, false⟩ abortRun :=
  storeOnly_iff_no_abort ⟨Or.inl rfl, rfl⟩ abortRun

end FpgaLabs.Scomp
