import FpgaLabs.Sync.Loop

/-! The bit swaps of `led_count.c`: a loop in C, and the custom instruction
`cpu_bitswap.vhd` with a shift after it. An `int` is its 32 bits. -/

namespace FpgaLabs.Hw8
open Sync

abbrev Int32 := BitVec 32

/-- The loop variables of `SW_BITSWAP`. -/
structure Swap where
  r : Int32
  t : Int32

/-- The body of the loop; `lsb` is `t & 1`, and `>>` keeps the sign. -/
def Swap.shift (s : Swap) : Swap where
  r := s.r * 2 + (s.t &&& 1)
  t := s.t.sshiftRight 1

def swBitswap (a : Int32) : Int32 :=
  (Fin.foldl 8 (fun s _ => s.shift) (⟨0, a⟩ : Swap)).r

/-- `result(31) <= dataa(0)` to `result(0) <= dataa(31)`. -/
def cpuBitswap (dataa : Int32) : Int32 :=
  BitVec.ofNat 32 (Nat.ofBits fun i : Fin 32 => dataa.getLsbD (31 - i))

/-- The instruction is wired to `ALT_CI_BITSWAP`; the loop shifts its result. -/
def altCiBitswap (a : Int32) : Int32 := cpuBitswap a

/-- `*leds`, a `char` port. -/
def leds (a : Int32) : BitVec 8 := a.setWidth 8

/-- The bodies of the first and the third timed loop: from the switches, a `char`
port too, to the LEDs. -/
def swLoop (switches : BitVec 8) : BitVec 8 := leds (swBitswap (switches.signExtend 32))

def ciLoop (switches : BitVec 8) : BitVec 8 :=
  leds ((altCiBitswap (switches.signExtend 32)).sshiftRight 24)

/-- After `k` steps `r` has the low `k` bits of `a` in reverse, and `t` the rest. -/
structure Shifted (a : Int32) (k : Nat) (s : Swap) : Prop where
  r : s.r.toNat = Nat.ofBits fun i : Fin k => a.getLsbD (k - 1 - i)
  t : s.t = a.sshiftRight k

theorem low_bit (t : Int32) : (t &&& 1).toNat = (t.getLsbD 0).toNat := by
  rw [BitVec.toNat_and, BitVec.getLsbD, Nat.testBit_zero]
  show t.toNat &&& 1 = _
  rw [Nat.and_one_is_mod]
  rcases Nat.mod_two_eq_zero_or_one t.toNat with h | h <;> simp [h]

theorem shift_shifted {a : Int32} {k : Nat} (hk : k < 8) {s : Swap} (h : Shifted a k s) :
    Shifted a (k + 1) s.shift := by
  obtain ⟨hr, ht⟩ := h
  have hbit : s.t.getLsbD 0 = a.getLsbD k := by
    rw [ht, BitVec.getLsbD_sshiftRight]
    simp
    omega
  have hlow := low_bit s.t
  rw [hbit] at hlow
  have hlt := Nat.ofBits_lt_two_pow fun i : Fin k => a.getLsbD (k - 1 - i)
  have hpow : 2 ^ k ≤ 2 ^ 7 := Nat.pow_le_pow_right (by decide) (by omega)
  have hone := Bool.toNat_le (a.getLsbD k)
  have hbits : (Nat.ofBits fun i : Fin (k + 1) => a.getLsbD (k + 1 - 1 - i)) =
      2 * (Nat.ofBits fun i : Fin k => a.getLsbD (k - 1 - i)) + (a.getLsbD k).toNat := by
    rw [Nat.ofBits_succ]
    congr 3
    funext i
    show a.getLsbD (k + 1 - 1 - (i.val + 1)) = _
    congr 1
    omega
  constructor
  · rw [hbits, Swap.shift, BitVec.toNat_add, BitVec.toNat_mul, hlow, hr]
    show (_ * 2 % 2 ^ 32 + _) % 2 ^ 32 = _
    omega
  · rw [Swap.shift, ht, ← BitVec.sshiftRight_add]

theorem swBitswap_bit (a : Int32) (i : Nat) :
    (swBitswap a).getLsbD i = (decide (i < 8) && a.getLsbD (7 - i)) := by
  have hinit : Shifted a 0 ⟨0, a⟩ := ⟨rfl, by simp⟩
  have hloop : Shifted a 8 (Fin.foldl 8 (fun s _ => s.shift) ⟨0, a⟩) :=
    loop_invariant (Shifted a) (fun k s hs => shift_shifted k.isLt hs) hinit
  have hr : (swBitswap a).toNat = _ := hloop.r
  rw [BitVec.getLsbD, hr, Nat.testBit_ofBits]
  split
  · next h => simp [h]
  · next h => simp [h]

theorem cpuBitswap_bit (a : Int32) (i : Nat) :
    (cpuBitswap a).getLsbD i = (decide (i < 32) && a.getLsbD (31 - i)) := by
  rw [cpuBitswap, BitVec.getLsbD_ofNat]
  by_cases h : i < 32
  · simp [h, Nat.testBit_ofBits_lt]
  · simp [h]

theorem swBitswap_reverse (a : Int32) : swBitswap a = (a.setWidth 8).reverse.setWidth 32 := by
  apply BitVec.eq_of_getLsbD_eq
  intro i hi
  rw [swBitswap_bit]
  simp only [BitVec.getLsbD_setWidth, BitVec.getLsbD_reverse, BitVec.getMsbD, hi]
  by_cases h : i < 8
  · simp [h]
    omega
  · simp [h]

theorem cpuBitswap_reverse (a : Int32) : cpuBitswap a = a.reverse := by
  apply BitVec.eq_of_getLsbD_eq
  intro i hi
  rw [cpuBitswap_bit, BitVec.getLsbD_reverse, BitVec.getMsbD]

/-- The loop gives a byte. -/
theorem swBitswap_byte (a : Int32) : (leds (swBitswap a)).setWidth 32 = swBitswap a := by
  rw [leds, swBitswap_reverse]
  simp

/-- The shift brings the swapped low byte down. -/
theorem leds_agree (a : Int32) : leds (swBitswap a) = leds ((altCiBitswap a).sshiftRight 24) := by
  apply BitVec.eq_of_getLsbD_eq
  intro i hi
  have hin : 24 + i < 32 := by omega
  have hbit : 31 - (24 + i) = 7 - i := by omega
  simp only [leds, altCiBitswap, BitVec.getLsbD_setWidth, swBitswap_bit, BitVec.getLsbD_sshiftRight,
    cpuBitswap_bit, hin, hbit]
  simp [hi, show i < 32 by omega]

theorem swBitswap_swBitswap (a : Int32) : swBitswap (swBitswap a) = (a.setWidth 8).setWidth 32 := by
  have hlow : (swBitswap a).setWidth 8 = (a.setWidth 8).reverse := by
    rw [swBitswap_reverse]
    simp
  rw [swBitswap_reverse (swBitswap a), hlow, BitVec.reverse_reverse_eq]

theorem swBitswap_range (a : Int32) : 0 ≤ (swBitswap a).toInt ∧ (swBitswap a).toInt ≤ 255 := by
  have hbyte : (swBitswap a).toNat < 256 := by
    rw [← swBitswap_byte a, BitVec.toNat_setWidth]
    omega
  rw [BitVec.toInt_eq_toNat_of_lt (by omega)]
  omega

theorem swBitswap_altCi (a : Int32) :
    swBitswap a = (((altCiBitswap a).sshiftRight 24).setWidth 8).setWidth 32 := by
  rw [← swBitswap_byte a, leds_agree a]
  rfl

/-- **Bit swaps.** For every `int` the C loop gives a byte, the low byte reversed,
which is the low byte of the instruction's result after the shift; swapping
twice gives the low byte back; and both timed loops write the same to the LEDs. -/
theorem bitswaps_agree :
    (∀ a : Int32, (0 ≤ (swBitswap a).toInt ∧ (swBitswap a).toInt ≤ 255) ∧
      swBitswap a = (a.setWidth 8).reverse.setWidth 32 ∧
      altCiBitswap a = a.reverse ∧
      swBitswap a = (((altCiBitswap a).sshiftRight 24).setWidth 8).setWidth 32 ∧
      swBitswap (swBitswap a) = (a.setWidth 8).setWidth 32) ∧
    ∀ switches, swLoop switches = ciLoop switches := by
  refine ⟨fun a => ⟨?_, ?_, ?_, ?_, ?_⟩, fun switches => ?_⟩
  · exact swBitswap_range a
  · exact swBitswap_reverse a
  · exact cpuBitswap_reverse a
  · exact swBitswap_altCi a
  · exact swBitswap_swBitswap a
  · exact leds_agree (switches.signExtend 32)

end FpgaLabs.Hw8
