import FpgaLabs.Nios.SerialTx

/-! Two serial ports, the transmitter of one wired to the receiver of the other. -/

namespace FpgaLabs.Nios.SerialLink
open Sync
open SerialRx (listening map_listening)

/-- What a program writes to the transmitter, from its reset on. -/
def writtenBy (div : Nat) (cs : List SerialTx.Cycle) : List (BitVec 8) :=
  emitted (SerialTx.edge div) SerialTx.written .reset cs

/-- What a receiver hands on, from its reset on. -/
def receivedBy (div : Nat) (cs : List SerialRx.Cycle) : List (BitVec 8) :=
  emitted (SerialRx.edge div) SerialRx.received .reset cs

/-- The levels that come out of the receiver's synchronizer: zeros of its reset,
the high line before the transmitter's reset, and the pin. -/
def wire (div low high : Nat) (cs : List SerialTx.Cycle) : List Bool :=
  List.replicate low false ++ List.replicate high true ++
    emitted (SerialTx.edge div) SerialTx.onPin .reset cs

/-- A cycle in which the transmitter is left alone. -/
def quiet : SerialTx.Cycle := ⟨false, false, 0, false, false⟩

/-- One in which it is written to. -/
def send (b : BitVec 8) : SerialTx.Cycle := ⟨true, true, b, false, false⟩

/-! ## The receiver -/

/-- A receiver from its reset on: zeros, a mark at least, and frames. -/
theorem hears {div d : Nat} (hd : 10 * d + 3 ≤ div / 2 + 1) {low j : Nat}
    {fs : List SerialRx.Frame} (hfs : ∀ f ∈ fs, f.Near div d) {cs : List SerialRx.Cycle}
    (hcs : cs.map SerialRx.Cycle.syncRxd =
      List.replicate low false ++ (List.replicate (j + 1) true ++
        fs.flatMap SerialRx.Frame.wave)) :
    SerialRx.Idle div true (run (SerialRx.edge div) .reset cs) ∧
      receivedBy div cs = fs.map SerialRx.Frame.byte := by
  have hdiv : 0 < div := by omega
  obtain ⟨as, cs, rfl, has, hcs⟩ := List.map_eq_append_iff.mp hcs
  obtain ⟨bs, cs, rfl, hbs, hcs⟩ := List.map_eq_append_iff.mp hcs
  have hlevel : ∀ {v : Bool} {n : Nat} {cs : List SerialRx.Cycle},
      cs.map SerialRx.Cycle.syncRxd = List.replicate n v → ∀ c ∈ cs, c.syncRxd = v := by
    intro v n cs h c hc
    have hmem := List.mem_map_of_mem (f := SerialRx.Cycle.syncRxd) hc
    rw [h] at hmem
    exact (List.mem_replicate.mp hmem).2
  have hne : bs ≠ [] := by
    rintro rfl
    cases hbs
  obtain ⟨hlow, hnone⟩ := (SerialRx.idle_reset div).low hdiv as (hlevel has)
  obtain ⟨hhigh, hnone'⟩ := hlow.run hdiv bs (hlevel hbs)
  rw [if_neg hne] at hhigh
  obtain ⟨hidle, hall⟩ := SerialRx.receives hd hhigh hfs hcs
  rw [receivedBy, run_append, run_append, emitted_append, emitted_append, hnone, hnone', hall]
  exact ⟨hidle, rfl⟩

/-- An error flag stays until the program clears it. -/
theorem clean_of_listening {div : Nat} {s : SerialRx.Rx} {vs : List Bool}
    (h : SerialRx.Clean (run (SerialRx.edge div) s (vs.map listening))) : SerialRx.Clean s := by
  induction vs generalizing s with
  | nil => exact h
  | cons v vs ih =>
    obtain ⟨hf, hb⟩ := ih h
    constructor
    · cases hs : s.framingError with
      | false => rfl
      | true => simp [SerialRx.edge, listening, hs] at hf
    · cases hs : s.breakDetect with
      | false => rfl
      | true => simp [SerialRx.edge, listening, hs] at hb

/-! ## The transmitter -/

theorem proper_quiet (div : Nat) (s : SerialTx.Tx) (n : Nat) :
    EachStep (SerialTx.edge div) SerialTx.Proper s (List.replicate n quiet) := by
  induction n generalizing s with
  | zero => trivial
  | succ n ih => exact ⟨⟨nofun, nofun, rfl⟩, ih _⟩

/-- The first byte after the reset. -/
theorem proper_send (div : Nat) (b : BitVec 8) (n : Nat) :
    EachStep (SerialTx.edge div) SerialTx.Proper .reset (send b :: List.replicate n quiet) :=
  ⟨⟨fun _ => rfl, nofun, rfl⟩, proper_quiet div _ n⟩

theorem written_quiet (div : Nat) (s : SerialTx.Tx) (n : Nat) :
    emitted (SerialTx.edge div) SerialTx.written s (List.replicate n quiet) = [] := by
  induction n generalizing s with
  | zero => rfl
  | succ n ih => rw [List.replicate_succ, emitted, ih]; rfl

/-- When a transmitter has been done for two clocks, all of its line is on the pin. -/
theorem pin_done {div : Nat} (hdiv : 0 < div) {as bs : List SerialTx.Cycle}
    (h : EachStep (SerialTx.edge div) SerialTx.Proper .reset (as ++ bs)) (hbs : bs.length = 2) :
    emitted (SerialTx.edge div) SerialTx.onPin .reset (as ++ bs) =
      true :: true :: emitted (SerialTx.edge div) SerialTx.onLine .reset as := by
  have hlen : (emitted (SerialTx.edge div) SerialTx.onLine .reset as).length = as.length :=
    length_emitted _ (fun _ _ => rfl) _ _
  rw [SerialTx.onPin_eq hdiv (SerialTx.stage_reset div) h, emitted_append, List.length_append, hbs,
    List.take_succ_cons, List.take_succ_cons, List.take_left' hlen]
  rfl

/-! ## The link -/

/-- The divisors of the two ports may differ a little, so that a bit is off by at
most `d` clocks of a receiver that bears it. -/
structure Compatible (div div' d : Nat) : Prop where
  slow : div' + 1 ≤ div + d
  fast : div + 2 ≤ div' + d
  tolerance : 10 * d + 3 ≤ div' / 2 + 1

theorem Compatible.pos {div div' d : Nat} (h : Compatible div div' d) : 0 < div := by
  obtain ⟨_, _, _⟩ := h
  omega

/-- When all has been sent and the line has got through, all has been received. -/
theorem link_done {div div' d : Nat} (hdiv : Compatible div div' d) {as bs : List SerialTx.Cycle}
    (htx : EachStep (SerialTx.edge div) SerialTx.Proper .reset (as ++ bs)) (hbs : bs.length = 2)
    (hstage : SerialTx.Stage div (run (SerialTx.edge div) .reset as) 0 (writtenBy div as)
      (emitted (SerialTx.edge div) SerialTx.onLine .reset as)) {low high : Nat}
    {rcs : List SerialRx.Cycle}
    (hrx : rcs.map SerialRx.Cycle.syncRxd = wire div low high (as ++ bs)) :
    SerialRx.Idle div' true (run (SerialRx.edge div') .reset rcs) ∧
      receivedBy div' rcs = writtenBy div as := by
  obtain ⟨j, fs, hline, hbytes, hnear⟩ := hstage.sent.frames hdiv.slow hdiv.fast
  rw [← hbytes]
  refine @hears div' d hdiv.tolerance low (high + j + 1) fs hnear rcs ?_
  rw [hrx, wire, pin_done hdiv.pos htx hbs, hline, List.append_assoc,
    show high + j + 1 + 1 = high + (2 + j) by omega, List.replicate_add high,
    List.replicate_add 2, List.append_assoc, List.append_assoc]
  rfl

/-- A transmitter that is given no byte for the clocks it has to go is done. -/
theorem stage_done {div : Nat} (hdiv : 0 < div) {as bs : List SerialTx.Cycle}
    (h : EachStep (SerialTx.edge div) SerialTx.Proper .reset (as ++ bs)) {n : Nat}
    (hstage : SerialTx.Stage div (run (SerialTx.edge div) .reset as) n (writtenBy div as)
      (emitted (SerialTx.edge div) SerialTx.onLine .reset as))
    (hbs : emitted (SerialTx.edge div) SerialTx.written (run (SerialTx.edge div) .reset as) bs = [])
    (hlong : n ≤ bs.length) :
    SerialTx.Stage div (run (SerialTx.edge div) .reset (as ++ bs)) 0 (writtenBy div (as ++ bs))
      (emitted (SerialTx.edge div) SerialTx.onLine .reset (as ++ bs)) := by
  obtain ⟨m, hrun, hm⟩ := SerialTx.stage_run hdiv hstage ((eachStep_append _ _ _ _ _).mp h).2
  have h0 : m = 0 := by
    rw [hm hbs]
    omega
  rw [h0] at hrun
  rwa [run_append, writtenBy, emitted_append, emitted_append]

/-- Whatever has come through so far, the rest of the line can follow. -/
theorem link_completes {div div' d : Nat} (hdiv : Compatible div div' d)
    {tcs : List SerialTx.Cycle}
    (htx : EachStep (SerialTx.edge div) SerialTx.Proper .reset tcs) {low high : Nat}
    {rcs : List SerialRx.Cycle}
    (hrx : rcs.map SerialRx.Cycle.syncRxd <+: wire div low high tcs) :
    ∃ rest : List Bool,
      SerialRx.Idle div' true (run (SerialRx.edge div') .reset (rcs ++ rest.map listening)) ∧
      receivedBy div' (rcs ++ rest.map listening) = writtenBy div tcs := by
  -- let the transmitter finish, and let the line get through
  obtain ⟨n, hstage, _⟩ := SerialTx.stage_run hdiv.pos (SerialTx.stage_reset div) htx
  have htx' : EachStep (SerialTx.edge div) SerialTx.Proper .reset
      (tcs ++ List.replicate n quiet ++ List.replicate 2 quiet) := by
    rw [List.append_assoc, ← List.replicate_add]
    exact (eachStep_append _ _ _ _ _).mpr ⟨htx, proper_quiet div _ _⟩
  have hdone := stage_done hdiv.pos ((eachStep_append _ _ _ _ _).mp htx').1 hstage
    (written_quiet div _ n) (Nat.le_of_eq List.length_replicate.symm)
  have hwritten : writtenBy div (tcs ++ List.replicate n quiet) = writtenBy div tcs := by
    rw [writtenBy, emitted_append, written_quiet, List.append_nil]
    rfl
  obtain ⟨rest, hrest⟩ : rcs.map SerialRx.Cycle.syncRxd <+:
      wire div low high (tcs ++ List.replicate n quiet ++ List.replicate 2 quiet) := by
    refine hrx.trans ?_
    rw [wire, wire, List.append_assoc tcs, emitted_append, ← List.append_assoc]
    exact List.prefix_append _ _
  have hline : (rcs ++ rest.map listening).map SerialRx.Cycle.syncRxd =
      wire div low high (tcs ++ List.replicate n quiet ++ List.replicate 2 quiet) := by
    rw [List.map_append, map_listening, hrest]
  obtain ⟨hidle, hall⟩ := link_done hdiv htx' List.length_replicate hdone hline
  exact ⟨rest, hidle, hall.trans hwritten⟩

theorem receivedBy_append (div : Nat) (as bs : List SerialRx.Cycle) :
    receivedBy div as <+: receivedBy div (as ++ bs) := by
  rw [receivedBy, receivedBy, emitted_append]
  exact List.prefix_append _ _

/-- **Safety of the link.** At every time the receiver has handed on a prefix of
what was written to the transmitter, and it flags no error. -/
theorem link_safe {div div' d : Nat} (hdiv : Compatible div div' d) {tcs : List SerialTx.Cycle}
    (htx : EachStep (SerialTx.edge div) SerialTx.Proper .reset tcs) {low high : Nat}
    {rcs : List SerialRx.Cycle}
    (hrx : rcs.map SerialRx.Cycle.syncRxd <+: wire div low high tcs) :
    receivedBy div' rcs <+: writtenBy div tcs ∧
      SerialRx.Clean (run (SerialRx.edge div') .reset rcs) := by
  obtain ⟨rest, hidle, hall⟩ := link_completes hdiv htx hrx
  rw [run_append] at hidle
  exact ⟨hall ▸ receivedBy_append div' rcs _, clean_of_listening hidle.clean⟩

theorem link_safe_halfway :
    receivedBy 434 ((wire 434 2 5 (send 0x41 :: List.replicate 3000 quiet)).map listening) <+:
      writtenBy 434 (send 0x41 :: List.replicate 3000 quiet) := by
  exact (@link_safe 434 434 2 ⟨by decide, by decide, by decide⟩ _ (proper_send 434 0x41 3000)
    2 5 _ ⟨[], (List.append_nil _).trans (map_listening _)⟩).1

/-- **Delivery.** Two frames and four clocks after the last write all that was
written has been received. -/
theorem link_delivers {div div' d : Nat} (hdiv : Compatible div div' d)
    {as bs : List SerialTx.Cycle}
    (htx : EachStep (SerialTx.edge div) SerialTx.Proper .reset (as ++ bs))
    (hbs : emitted (SerialTx.edge div) SerialTx.written (run (SerialTx.edge div) .reset as) bs = [])
    (hlong : 2 * SerialTx.frameLength div + 4 ≤ bs.length) {low high : Nat}
    {rcs : List SerialRx.Cycle}
    (hrx : rcs.map SerialRx.Cycle.syncRxd = wire div low high (as ++ bs)) :
    receivedBy div' rcs = writtenBy div (as ++ bs) := by
  -- the last two clocks bring the line to the pin
  obtain ⟨cs, ds, rfl, hds⟩ : ∃ cs ds, bs = cs ++ ds ∧ ds.length = 2 := by
    refine ⟨bs.take (bs.length - 2), bs.drop (bs.length - 2), (List.take_append_drop _ _).symm, ?_⟩
    rw [List.length_drop]
    omega
  rw [emitted_append, List.append_eq_nil_iff] at hbs
  obtain ⟨hcs, hds'⟩ := hbs
  rw [List.length_append] at hlong
  rw [← List.append_assoc] at htx hrx ⊢
  have has := ((eachStep_append _ _ _ _ _).mp htx).1
  obtain ⟨n, hstage, _⟩ := SerialTx.stage_run hdiv.pos (SerialTx.stage_reset div)
    ((eachStep_append _ _ _ _ _).mp has).1
  have hle := hstage.le
  have hdone := stage_done hdiv.pos has hstage hcs (by omega)
  have hall := (link_done hdiv htx hds hdone hrx).2
  rw [hall, writtenBy, writtenBy, emitted_append _ _ _ (as ++ cs), run_append, hds',
    List.append_nil]

/-- With a receiver that is four per cent fast. -/
theorem link_delivers_a :
    receivedBy 416 ((wire 434 2 5 ([send 0x41] ++ List.replicate 8708 quiet)).map listening) =
      [0x41] := by
  have hall := @link_delivers 434 416 20 ⟨by decide, by decide, by decide⟩ [send 0x41]
    (List.replicate 8708 quiet) (proper_send 434 0x41 8708) (written_quiet 434 _ 8708)
    (by rw [List.length_replicate]; decide) 2 5 _ (map_listening _)
  rw [hall, writtenBy, emitted_append, written_quiet]
  rfl

end FpgaLabs.Nios.SerialLink
