import FpgaLabs.Sync.Ring

/-! Asynchronous serial lines. A line holds a level for some clocks, then the
next one. A sampler counts down to its next sample and starts again from half a
bit at every edge: what it samples of a line whose bits are near their length. -/

namespace FpgaLabs.Sync

/-- The line clock by clock, of levels and how long each is held. -/
def wave (bits : List (Bool × Nat)) : List Bool := bits.flatMap fun b => List.replicate b.2 b.1

@[simp] theorem wave_nil : wave [] = [] := rfl

@[simp] theorem wave_cons (v : Bool) (n : Nat) (bits : List (Bool × Nat)) :
    wave ((v, n) :: bits) = List.replicate n v ++ wave bits := rfl

theorem wave_append (bits more : List (Bool × Nat)) :
    wave (bits ++ more) = wave bits ++ wave more := List.flatMap_append

/-- One level a clock. -/
theorem length_emitted {S E V : Type} (step : S → E → S) {out : S → E → List V}
    (h : ∀ s e, (out s e).length = 1) (s : S) (es : List E) :
    (emitted step out s es).length = es.length := by
  induction es generalizing s with
  | nil => rfl
  | cons e es ih => rw [emitted, List.length_append, h, ih, List.length_cons, Nat.add_comm]

/-- The level before and the clocks to the next sample. -/
structure Sampler where
  last : Bool
  count : Nat

/-- A clock: `half` after an edge, `div` after a sample. -/
def Sampler.step (half div : Nat) (s : Sampler) (v : Bool) : Sampler where
  last := v
  count := if v ≠ s.last then half else if s.count = 0 then div else s.count - 1

def Sampler.sample (s : Sampler) (v : Bool) : List Bool := if s.count = 0 then [v] else []

section
variable {half div : Nat}

/-- A level held for less than the count. -/
theorem Sampler.run_hold (v : Bool) (n : Nat) {c : Nat} (h : n ≤ c) :
    run (Sampler.step half div) ⟨v, c⟩ (List.replicate n v) = ⟨v, c - n⟩ ∧
      emitted (Sampler.step half div) Sampler.sample ⟨v, c⟩ (List.replicate n v) = [] := by
  induction n generalizing c with
  | zero => exact ⟨rfl, rfl⟩
  | succ n ih =>
    have hstep : Sampler.step half div ⟨v, c⟩ v = ⟨v, c - 1⟩ := by
      simp [Sampler.step, show c ≠ 0 by omega]
    obtain ⟨hrun, hnone⟩ := @ih (c - 1) (by omega)
    rw [List.replicate_succ, run_cons, emitted, hstep, hrun, hnone]
    refine ⟨by rw [Nat.sub_sub, Nat.add_comm 1], ?_⟩
    simp [Sampler.sample, show c ≠ 0 by omega]

/-- The count one clock into a bit. -/
def settle (half : Nat) (last : Bool) (c : Nat) (v : Bool) : Nat :=
  if v ≠ last then half else c - 1

/-- A bit up to its sample. -/
theorem Sampler.run_settle {last : Bool} (v : Bool) {c : Nat} (hc : 0 < c) :
    run (Sampler.step half div) ⟨last, c⟩ (List.replicate (settle half last c v + 1) v) =
        ⟨v, 0⟩ ∧
      emitted (Sampler.step half div) Sampler.sample ⟨last, c⟩
        (List.replicate (settle half last c v + 1) v) = [] := by
  have hfirst : Sampler.step half div ⟨last, c⟩ v = ⟨v, settle half last c v⟩ := by
    simp only [Sampler.step, settle]
    rw [if_neg (show c ≠ 0 by omega)]
  have hquiet : Sampler.sample ⟨last, c⟩ v = [] := if_neg (show c ≠ 0 by omega)
  generalize settle half last c v = k at *
  obtain ⟨hcount, hnone⟩ := @Sampler.run_hold half div v k k (Nat.le_refl k)
  rw [List.replicate_succ, run_cons, emitted, hfirst, hcount, hquiet, hnone, Nat.sub_self]
  exact ⟨rfl, rfl⟩

/-- One bit, sampled once. -/
theorem Sampler.run_bit {last v : Bool} {c n : Nat} (hc : 0 < c)
    (hlow : settle half last c v + 2 ≤ n) (hhigh : n ≤ settle half last c v + 2 + div) :
    run (Sampler.step half div) ⟨last, c⟩ (List.replicate n v) =
        ⟨v, div + 2 + settle half last c v - n⟩ ∧
      emitted (Sampler.step half div) Sampler.sample ⟨last, c⟩ (List.replicate n v) = [v] := by
  obtain ⟨hfirst, hnone⟩ := @Sampler.run_settle half div last v c hc
  generalize settle half last c v = k at *
  -- up to the sample, the sample, and the rest of the bit
  have hsplit : List.replicate n v =
      List.replicate (k + 1) v ++ v :: List.replicate (n - (k + 2)) v := by
    rw [← List.replicate_succ, List.replicate_append_replicate]
    congr 1
    omega
  obtain ⟨hrest, hnone'⟩ := @Sampler.run_hold half div v (n - (k + 2)) div (by omega)
  have hsample : Sampler.step half div ⟨v, 0⟩ v = ⟨v, div⟩ := by simp [Sampler.step]
  rw [hsplit, run_append, emitted_append, hfirst, hnone, run_cons, emitted, hsample, hrest, hnone']
  exact ⟨by rw [show div - (n - (k + 2)) = div + 2 + k - n by omega], rfl⟩

/-- Bits near enough to their length that each is sampled once. -/
def InTolerance (half div : Nat) : Bool → Nat → List (Bool × Nat) → Prop
  | _, c, [] => 0 < c
  | last, c, (v, n) :: bits =>
    0 < c ∧ settle half last c v + 2 ≤ n ∧ n ≤ settle half last c v + 2 + div ∧
      InTolerance half div v (div + 2 + settle half last c v - n) bits

/-- The sampler reads a line in tolerance bit by bit. -/
theorem Sampler.run_wave {last : Bool} {c : Nat} {bits : List (Bool × Nat)}
    (h : InTolerance half div last c bits) :
    emitted (Sampler.step half div) Sampler.sample ⟨last, c⟩ (wave bits) = bits.map Prod.fst ∧
      0 < (run (Sampler.step half div) ⟨last, c⟩ (wave bits)).count ∧
      (run (Sampler.step half div) ⟨last, c⟩ (wave bits)).last =
        (bits.map Prod.fst).getLastD last := by
  induction bits generalizing last c with
  | nil => exact ⟨rfl, h, rfl⟩
  | cons b bits ih =>
    obtain ⟨v, n⟩ := b
    obtain ⟨hc, hlow, hhigh, hrest⟩ := h
    obtain ⟨hrun, hone⟩ := @Sampler.run_bit half div last v c n hc hlow hhigh
    obtain ⟨hmap, hpos, hlast⟩ := ih hrest
    rw [wave_cons, emitted_append, run_append, hrun, hone, hmap]
    refine ⟨rfl, hpos, hlast.trans ?_⟩
    rw [List.map_cons, List.getLastD_cons]

theorem inTolerance_append {last : Bool} {c : Nat} {bits more : List (Bool × Nat)}
    (h : InTolerance half div last c (bits ++ more)) :
    InTolerance half div last c bits ∧
      InTolerance half div (run (Sampler.step half div) ⟨last, c⟩ (wave bits)).last
        (run (Sampler.step half div) ⟨last, c⟩ (wave bits)).count more := by
  induction bits generalizing last c with
  | nil =>
    refine ⟨?_, h⟩
    cases more with
    | nil => exact h
    | cons b more => exact h.1
  | cons b bits ih =>
    obtain ⟨v, n⟩ := b
    obtain ⟨hc, hlow, hhigh, hrest⟩ := h
    obtain ⟨hrun, _⟩ := @Sampler.run_bit half div last v c n hc hlow hhigh
    obtain ⟨hbits, hmore⟩ := ih hrest
    refine ⟨⟨hc, hlow, hhigh, hbits⟩, ?_⟩
    rw [wave_cons, run_append, hrun]
    exact hmore

/-- Bits that are off by at most `d` clocks each drift at most `d` a bit. -/
theorem inTolerance_of_near {d drift : Nat} {last : Bool} {c : Nat} {bits : List (Bool × Nat)}
    (hbits : ∀ b ∈ bits, div + 1 ≤ b.2 + d ∧ b.2 ≤ div + 1 + d)
    (hc : half + 1 ≤ c + drift) (hc' : c ≤ half + 1 + drift)
    (hdrift : drift + bits.length * d + 3 ≤ half) (hdiv : 2 * half ≤ div + 2) :
    InTolerance half div last c bits := by
  induction bits generalizing last c drift with
  | nil =>
    show 0 < c
    simp at hdrift
    omega
  | cons b bits ih =>
    obtain ⟨v, n⟩ := b
    obtain ⟨hlow, hhigh⟩ := hbits (v, n) (List.mem_cons_self ..)
    simp only at hlow hhigh
    rw [List.length_cons, Nat.add_mul, Nat.one_mul] at hdrift
    have hset : half ≤ settle half last c v + drift ∧ settle half last c v ≤ half + drift := by
      unfold settle
      split <;> omega
    refine ⟨by omega, by omega, by omega, ?_⟩
    exact @ih (drift + d) v _ (fun b hb => hbits b (List.mem_cons_of_mem _ hb)) (by omega)
      (by omega) (by omega)

end

end FpgaLabs.Sync
