import FpgaLabs.Sync.Loop

/-! The multiplier `hw3.vhd` of Intro FPLDs: eight shifted rows, one for each bit
of the multiplier, added as a tree. -/

namespace FpgaLabs.Hw3
open Sync

/-- A row, `zeros & (bv and au) & zeros` with `k` zeros at the low end; `bv` is
the bit `b(k)` eight times. -/
def row (a b : BitVec 8) (k : Nat) : BitVec 16 :=
  (0#(8 - k) ++ (BitVec.fill 8 (b.getLsbD k) &&& a) ++ 0#k).setWidth 16

def p0 (a b : BitVec 8) : BitVec 16 := row a b 0
def p1 (a b : BitVec 8) : BitVec 16 := row a b 1
def p2 (a b : BitVec 8) : BitVec 16 := row a b 2
def p3 (a b : BitVec 8) : BitVec 16 := row a b 3
def p4 (a b : BitVec 8) : BitVec 16 := row a b 4
def p5 (a b : BitVec 8) : BitVec 16 := row a b 5
def p6 (a b : BitVec 8) : BitVec 16 := row a b 6
def p7 (a b : BitVec 8) : BitVec 16 := row a b 7

/-- The output `y`. -/
def hw3 (a b : BitVec 8) : BitVec 16 :=
  ((p0 a b + p1 a b) + (p2 a b + p3 a b)) + ((p4 a b + p5 a b) + (p6 a b + p7 a b))

/-- A row is the multiplicand at the weight of its bit, or nothing. -/
theorem row_toNat (a b : BitVec 8) {k : Nat} (hk : k < 8) :
    (row a b k).toNat = a.toNat * ((b.getLsbD k).toNat * 2 ^ k) := by
  have hpow : 2 ^ k ≤ 2 ^ 7 := Nat.pow_le_pow_right (by decide) (by omega)
  have hlt : a.toNat * 2 ^ k < 65536 := by
    have hmul : a.toNat * 2 ^ k ≤ 255 * 2 ^ 7 :=
      Nat.mul_le_mul (Nat.le_of_lt_succ a.isLt) hpow
    omega
  rw [row, BitVec.toNat_setWidth]
  cases b.getLsbD k with
  | false => simp
  | true =>
    have hand : BitVec.fill 8 true &&& a = a := BitVec.allOnes_and
    rw [hand]
    simp [Nat.shiftLeft_eq, Nat.mod_eq_of_lt hlt]

/-- The multiplier, bit by bit. -/
theorem toNat_bits (b : BitVec 8) :
    b.toNat = (b.getLsbD 0).toNat * 2 ^ 0 + (b.getLsbD 1).toNat * 2 ^ 1 +
      (b.getLsbD 2).toNat * 2 ^ 2 + (b.getLsbD 3).toNat * 2 ^ 3 + (b.getLsbD 4).toNat * 2 ^ 4 +
      (b.getLsbD 5).toNat * 2 ^ 5 + (b.getLsbD 6).toNat * 2 ^ 6 + (b.getLsbD 7).toNat * 2 ^ 7 := by
  have hbits : Nat.ofBits (fun k : Fin 8 => b.getLsbD k) = b.toNat % 2 ^ 8 :=
    Nat.ofBits_testBit b.toNat 8
  rw [Nat.mod_eq_of_lt b.isLt] at hbits
  rw [← hbits]
  simp only [ofBits_last, Nat.ofBits_zero, Nat.zero_add, Nat.mul_comm (2 ^ _)]
  rfl

end FpgaLabs.Hw3
