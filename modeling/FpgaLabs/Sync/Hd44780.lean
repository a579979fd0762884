import FpgaLabs.Sync.Process
import Mathlib.Tactic.SplitIfs

/-! The addressing of an HD44780 character display. A byte comes with the
register select line: low for a command, high for data. -/

namespace FpgaLabs.Sync

/-- Address counter, the memory it selects, display and glyph memory. -/
structure Hd44780 where
  address : Nat
  cgram : Bool
  ddram : Nat → BitVec 8
  glyphs : Nat → BitVec 8

/-- Commands that touch memory or address: 80+a and 40+a set the address, 01
clears to blanks, 02 and 03 go home. All others leave them alone. -/
def Hd44780.command (d : Hd44780) (c : BitVec 8) : Hd44780 :=
  if 0x80 ≤ c.toNat then { d with address := c.toNat - 0x80, cgram := false }
  else if 0x40 ≤ c.toNat then { d with address := c.toNat - 0x40, cgram := true }
  else if c = 0x01 then { d with address := 0, cgram := false, ddram := fun _ => 0x20 }
  else if c = 0x02 ∨ c = 0x03 then { d with address := 0, cgram := false }
  else d

/-- A data byte is stored at the address, which then increments. -/
def Hd44780.data (d : Hd44780) (b : BitVec 8) : Hd44780 :=
  if d.cgram then
    { d with address := d.address + 1, glyphs := Function.update d.glyphs d.address b }
  else { d with address := d.address + 1, ddram := Function.update d.ddram d.address b }

def Hd44780.write (d : Hd44780) (w : Bool × BitVec 8) : Hd44780 :=
  if w.1 then d.data w.2 else d.command w.2

def Hd44780.writes (d : Hd44780) (ws : List (Bool × BitVec 8)) : Hd44780 :=
  ws.foldl Hd44780.write d

theorem Hd44780.writes_append (d : Hd44780) (ws vs : List (Bool × BitVec 8)) :
    d.writes (ws ++ vs) = (d.writes ws).writes vs := List.foldl_append

/-- The cells of display memory stored to, with the byte stored, in order. -/
def Hd44780.stores (d : Hd44780) : List (Bool × BitVec 8) → List (Nat × BitVec 8)
  | [] => []
  | w :: ws => (if w.1 && !d.cgram then [(d.address, w.2)] else []) ++ (d.write w).stores ws

theorem Hd44780.stores_append (d : Hd44780) (ws vs : List (Bool × BitVec 8)) :
    d.stores (ws ++ vs) = d.stores ws ++ (d.writes ws).stores vs := by
  induction ws generalizing d with
  | nil => rfl
  | cons w ws ih => simp [stores, ih, writes]

/-- A line of text goes to consecutive cells. -/
theorem Hd44780.stores_data (d : Hd44780) (bs : List (BitVec 8)) (h : d.cgram = false) :
    d.stores (bs.map (true, ·)) = (List.range' d.address bs.length).zip bs ∧
      (d.writes (bs.map (true, ·))).cgram = false := by
  induction bs generalizing d with
  | nil => exact ⟨rfl, h⟩
  | cons b bs ih =>
    have hd : d.write (true, b) =
        { d with address := d.address + 1, ddram := Function.update d.ddram d.address b } := by
      simp [write, data, h]
    have := ih (d.write (true, b)) (by rw [hd]; exact h)
    refine ⟨?_, this.2⟩
    simp only [List.map_cons, stores, this.1]
    simp [hd, h, List.range'_succ]

/-- An address command. -/
theorem Hd44780.write_address (d : Hd44780) {c : BitVec 8} (hc : 0x80 ≤ c.toNat) :
    d.write (false, c) = { d with address := c.toNat - 0x80, cgram := false } := by
  simp [write, command, hc]

/-- An address command and a line of text. -/
theorem Hd44780.stores_line (d : Hd44780) {c : BitVec 8} (hc : 0x80 ≤ c.toNat)
    (bs : List (BitVec 8)) :
    d.stores ((false, c) :: bs.map (true, ·)) =
      (List.range' (c.toNat - 0x80) bs.length).zip bs := by
  have hw := d.write_address hc
  simp only [stores, Bool.false_and, Bool.false_eq_true, ↓reduceIte, List.nil_append]
  rw [(stores_data (d.write (false, c)) bs (by rw [hw])).1, hw]

theorem Hd44780.command_ddram (d : Hd44780) {c : BitVec 8} (h : c ≠ 0x01) :
    (d.command c).ddram = d.ddram := by
  unfold command
  split_ifs <;> rfl

/-- Without a clear the memory is changed by the stores alone. -/
theorem Hd44780.writes_ddram (d : Hd44780) (ws : List (Bool × BitVec 8))
    (h : (false, 0x01) ∉ ws) : (d.writes ws).ddram = commit d.ddram (d.stores ws) := by
  induction ws generalizing d with
  | nil => rfl
  | cons w ws ih =>
    obtain ⟨rs, b⟩ := w
    simp only [List.mem_cons, not_or] at h
    have hrest := ih (d.write (rs, b)) h.2
    simp only [writes, List.foldl_cons, stores, commit_append] at hrest ⊢
    rw [hrest]
    congr 1
    cases rs with
    | false =>
      have hb : b ≠ 0x01 := fun hb => h.1 (by rw [hb])
      exact d.command_ddram hb
    | true => cases hc : d.cgram <;> simp [write, data, hc]

/-! ## Memory after a line -/

/-- `m` with `bs` stored from `a` on. -/
def fill {V : Type} (m : Nat → V) (a : Nat) (bs : List V) : Nat → V := fun x =>
  if a ≤ x then bs.getD (x - a) (m x) else m x

theorem fill_cons {V : Type} (m : Nat → V) (a : Nat) (b : V) (bs : List V) :
    fill m a (b :: bs) = fill (Function.update m a b) (a + 1) bs := by
  funext x
  unfold fill
  rcases Nat.lt_trichotomy x a with hlt | heq | hgt
  · simp [show ¬ a ≤ x by omega, show ¬ a + 1 ≤ x by omega, show x ≠ a by omega]
  · subst heq
    simp [show ¬ x + 1 ≤ x by omega]
  · have hsub : x - a = (x - (a + 1)) + 1 := by omega
    simp [show a ≤ x by omega, show a + 1 ≤ x by omega, show x ≠ a by omega, hsub]

theorem fill_inside {V : Type} (m : Nat → V) (a : Nat) (bs : List V) {i : Nat} (h : i < bs.length) :
    fill m a bs (a + i) = bs[i] := by
  simp [fill, h]

theorem fill_outside {V : Type} (m : Nat → V) (a : Nat) (bs : List V) {x : Nat}
    (h : x < a ∨ a + bs.length ≤ x) : fill m a bs x = m x := by
  unfold fill
  rcases h with h | h
  · exact if_neg (by omega)
  · rw [if_pos (by omega), List.getD_eq_getElem?_getD, List.getElem?_eq_none (by omega)]
    rfl

/-- A line of data fills the memory selected. -/
theorem Hd44780.writes_line (d : Hd44780) (bs : List (BitVec 8)) :
    d.writes (bs.map (true, ·)) =
      { address := d.address + bs.length
        cgram := d.cgram
        ddram := if d.cgram then d.ddram else fill d.ddram d.address bs
        glyphs := if d.cgram then fill d.glyphs d.address bs else d.glyphs } := by
  induction bs generalizing d with
  | nil =>
    have hnil : ∀ m : Nat → BitVec 8, fill m d.address [] = m := by
      intro m
      funext x
      simp [fill]
    simp [writes, hnil]
  | cons b bs ih =>
    have hrest := ih (d.data b)
    have hstep : d.writes ((b :: bs).map (true, ·)) = (d.data b).writes (bs.map (true, ·)) := rfl
    rw [hstep, hrest]
    cases hc : d.cgram <;> simp [data, hc, fill_cons] <;> omega

/-- A glyph address command. -/
theorem Hd44780.write_glyphAddress (d : Hd44780) {c : BitVec 8} (hlow : 0x40 ≤ c.toNat)
    (hhigh : c.toNat < 0x80) :
    d.write (false, c) = { d with address := c.toNat - 0x40, cgram := true } := by
  simp [write, command, hlow, Nat.not_le.mpr hhigh]

end FpgaLabs.Sync
