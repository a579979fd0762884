import FpgaLabs.Hal.LcdRun
import Mathlib.Data.List.GetD
import Mathlib.Data.List.Induction
import Mathlib.Data.Nat.Digits.Lemmas

/-! What text does: printed lines, cursor positions, and a write as a whole. -/

namespace FpgaLabs.Hal.Lcd
open Sync

section Text
variable (busy : Nat → Bool)

/-- The loop of a write. -/
def putText (s : State) (text : List Byte) : Option State := text.foldlM (putChar busy) s

theorem putText_cons {s t : State} {c : Byte} (h : putChar busy s c = some t)
    (text : List Byte) : putText busy s (c :: text) = putText busy t text := by
  rw [putText, List.foldlM_cons, h]
  rfl

theorem putText_append {s t : State} {text : List Byte} (h : putText busy s text = some t)
    (more : List Byte) : putText busy s (text ++ more) = putText busy t more := by
  rw [putText, List.foldlM_append]
  rw [putText] at h
  rw [h]
  rfl

/-! ## Printing -/

theorem isprint_iff (c : Byte) : isprint c = true ↔ 0x20 ≤ c.toNat ∧ c.toNat ≤ 0x7e := by
  simp [isprint]

/-- A printable character outside an escape sequence. -/
theorem putChar_print {s : State} (hesc : s.escape = none) {c : Byte} (hc : isprint c = true) :
    putChar busy s c = printChar s c := by
  obtain ⟨hlo, _⟩ := (isprint_iff c).mp hc
  have hne : ∀ b : Byte, b.toNat < 0x20 → c ≠ b := by
    rintro b hb rfl
    omega
  have h27 : c ≠ 27 := hne _ (by decide)
  have hcr : c ≠ 0x0d := hne _ (by decide)
  have hlf : c ≠ 0x0a := hne _ (by decide)
  have hbs : c ≠ 0x08 := hne _ (by decide)
  unfold putChar
  rw [hesc]
  simp only
  rw [if_neg h27, if_neg hcr, if_neg hlf, if_neg hbs, if_pos hc]

/-- The text in the lines: `rows y` from column 0, and the cursor. -/
structure Screen (rows : Nat → List Byte) (y x : Nat) (s : State) : Prop where
  escape : s.escape = none
  y : s.y = y
  x : s.x = x
  data : ∀ r, r < height → ∀ i, i < virtualWidth → (s.line r).data i = (rows r).getD i 0x20

/-- The screen after it scrolls up. -/
theorem Screen.scrollUp {rows : Nat → List Byte} {y x : Nat} {s : State}
    (h : Screen rows y x s) :
    Screen (fun r => if r = 0 then rows 1 else []) (y - 1) x (scrollUp s) := by
  refine ⟨h.escape, congrArg (· - 1) h.y, h.x, fun r hr i hi => ?_⟩
  have h2 : height = 2 := rfl
  rw [scrollUp_data]
  obtain rfl | rfl : r = 0 ∨ r = 1 := by omega
  · rw [if_pos (by decide), memcpy, if_pos hi]
    exact h.data 1 (by decide) i hi
  · rw [if_neg (by decide), memset_inside _ _ (Nat.zero_le i) (by omega)]
    rfl

/-- One more character at the end of row `y`. -/
theorem Screen.print {rows : Nat → List Byte} {y : Nat} {s : State} (hy : y < height)
    (h : Screen rows y ((rows y).length % 256) s) (hlen : (rows y).length < 256) {c : Byte}
    (hc : isprint c = true) : ∃ t, putChar busy s c = some t ∧
      Screen (Function.update rows y (rows y ++ [c])) y (((rows y).length + 1) % 256) t := by
  rw [putChar_print busy h.escape hc]
  have hup : (if s.y ≥ height then Lcd.scrollUp s else s) = s := if_neg (by rw [h.y]; omega)
  have hx : s.x = (rows y).length := h.x.trans (Nat.mod_eq_of_lt hlen)
  have hx' : (s.x + 1) % 256 = ((rows y).length + 1) % 256 := by rw [hx]
  unfold printChar
  simp only [hup]
  by_cases hcol : s.x < virtualWidth
  · rw [if_pos hcol, if_pos (by rw [h.y]; exact hy)]
    refine ⟨_, rfl, h.escape, h.y, hx', fun r hr i hi => ?_⟩
    simp only [h.y]
    by_cases hry : r = y
    · subst hry
      simp only [Function.update_self]
      by_cases hi' : i = s.x
      · subst hi'
        simp [hx]
      · rw [Function.update_of_ne hi', h.data r hr i hi]
        simp only [List.getD_eq_getElem?_getD, List.getElem?_append]
        split
        · rfl
        · rw [List.getElem?_eq_none (by omega), List.getElem?_eq_none (by simp; omega)]
    · simp only [Function.update_of_ne hry]
      exact h.data r hr i hi
  · rw [if_neg hcol]
    refine ⟨_, rfl, h.escape, h.y, hx', fun r hr i hi => ?_⟩
    rw [h.data r hr i hi]
    by_cases hry : r = y
    · subst hry
      simp only [Function.update_self, List.getD_eq_getElem?_getD, List.getElem?_append]
      split
      · rfl
      · omega
    · rw [Function.update_of_ne hry]

/-- A run of them. -/
theorem Screen.prints {y : Nat} (hy : y < height) (text : List Byte)
    (htext : ∀ c ∈ text, isprint c = true) {rows : Nat → List Byte} {s : State}
    (h : Screen rows y ((rows y).length % 256) s)
    (hlen : (rows y).length + text.length ≤ 256) :
    ∃ t, putText busy s text = some t ∧
      Screen (Function.update rows y (rows y ++ text)) y
        (((rows y).length + text.length) % 256) t := by
  induction text generalizing rows s with
  | nil =>
    refine ⟨s, rfl, ?_⟩
    rwa [List.append_nil, Function.update_eq_self]
  | cons c text ih =>
    rw [List.length_cons] at hlen
    obtain ⟨t, ht, hscreen⟩ := h.print busy hy (by omega) (htext c (List.mem_cons_self ..))
    have hrow : Function.update rows y (rows y ++ [c]) y = rows y ++ [c] :=
      Function.update_self ..
    obtain ⟨u, hu, hscreen'⟩ := @ih (fun c hc => htext c (List.mem_cons_of_mem _ hc))
      (Function.update rows y (rows y ++ [c])) t (by simpa [hrow] using hscreen)
      (by rw [hrow, List.length_append, List.length_singleton]; omega)
    refine ⟨u, (putText_cons busy ht text).trans hu, ?_⟩
    simpa [hrow, Nat.add_assoc, Nat.add_comm 1] using hscreen'

/-- A line feed. -/
theorem Screen.lineFeed {rows : Nat → List Byte} {y x : Nat} {s : State}
    (h : Screen rows y x s) : ∃ t, putChar busy s 0x0a = some t ∧
      if y < height then Screen rows (y + 1) 0 t
      else Screen (fun r => if r = 0 then rows 1 else []) y 0 t := by
  have hput : putChar busy s 0x0a = some (if s.y + 1 > height then
      Lcd.scrollUp { s with x := 0, y := s.y + 1 } else { s with x := 0, y := s.y + 1 }) := by
    unfold putChar
    rw [h.escape]
    rfl
  have hdown : Screen rows (y + 1) 0 { s with x := 0, y := s.y + 1 } :=
    ⟨h.escape, congrArg (· + 1) h.y, rfl, h.data⟩
  refine ⟨_, hput, ?_⟩
  by_cases hy : y < height
  · rw [if_pos hy, if_neg (by rw [h.y]; omega)]
    exact hdown
  · rw [if_neg hy, if_pos (by rw [h.y]; omega)]
    exact hdown.scrollUp

/-! ## Lines -/

/-- The last two lines of a text. -/
def lastTwo (ls : List (List Byte)) (r : Nat) : List Byte := ls.getD (ls.length - 2 + r) []

theorem lastTwo_nil (r : Nat) : lastTwo [] r = [] := rfl

/-- The line before the last one. -/
theorem lastTwo_zero (ls : List (List Byte)) (p : List Byte) :
    lastTwo (ls ++ [p]) 0 =
      if ls = [] then p else if ls.length = 1 then lastTwo ls 0 else lastTwo ls 1 := by
  have hlen : (ls ++ [p]).length = ls.length + 1 := by simp
  rw [lastTwo, hlen]
  by_cases h0 : ls = []
  · subst h0
    rfl
  · have hpos : 0 < ls.length := List.length_pos_of_ne_nil h0
    rw [if_neg h0, List.getD_append _ _ _ _ (by omega)]
    by_cases h1 : ls.length = 1
    · rw [if_pos h1, lastTwo, h1]
    · rw [if_neg h1, lastTwo]
      congr 1
      omega

theorem lastTwo_one (ls : List (List Byte)) (p : List Byte) :
    lastTwo (ls ++ [p]) 1 = if ls = [] then [] else p := by
  have hlen : (ls ++ [p]).length = ls.length + 1 := by simp
  rw [lastTwo, hlen]
  by_cases h0 : ls = []
  · subst h0
    rfl
  · have hpos : 0 < ls.length := List.length_pos_of_ne_nil h0
    rw [if_neg h0, show ls.length + 1 - 2 + 1 = ls.length by omega]
    simp [List.getD_eq_getElem?_getD]

theorem Screen.congr {rows rows' : Nat → List Byte} {y x : Nat} {s : State}
    (h : Screen rows y x s) (h0 : rows 0 = rows' 0) (h1 : rows 1 = rows' 1) :
    Screen rows' y x s := by
  refine ⟨h.escape, h.y, h.x, fun r hr i hi => ?_⟩
  have h2 : height = 2 := rfl
  obtain rfl | rfl : r = 0 ∨ r = 1 := by omega
  · rw [h.data 0 hr i hi, h0]
  · rw [h.data 1 hr i hi, h1]

/-- On the line below the screen a character first scrolls the screen up. -/
theorem Screen.print_below {rows : Nat → List Byte} {x : Nat} {s : State}
    (h : Screen rows height x s) {c : Byte} (hc : isprint c = true) :
    putChar busy s c = putChar busy (Lcd.scrollUp s) c := by
  have hup := h.scrollUp
  have hscroll : (if s.y ≥ height then Lcd.scrollUp s else s) = Lcd.scrollUp s :=
    if_pos (by rw [h.y])
  have hstay : (if (Lcd.scrollUp s).y ≥ height then Lcd.scrollUp (Lcd.scrollUp s)
      else Lcd.scrollUp s) = Lcd.scrollUp s := if_neg (by rw [hup.y]; decide)
  rw [putChar_print busy h.escape hc, putChar_print busy hup.escape hc]
  simp only [printChar, hscroll, hstay]

/-- A line, not yet ended, after the lines `ls`. -/
theorem Screen.line {ls : List (List Byte)} {s : State}
    (h : Screen (lastTwo ls) (min ls.length 2) 0 s) {p : List Byte} (hp : p ≠ [])
    (hprint : ∀ c ∈ p, isprint c = true) (hlen : p.length ≤ 256) :
    ∃ t, putText busy s p = some t ∧
      Screen (lastTwo (ls ++ [p])) (min ls.length 1) (p.length % 256) t := by
  -- row `y` is blank and takes the line
  have hrow : ∀ {u : State} {rows : Nat → List Byte} {y : Nat}, y < height →
      Screen rows y 0 u → rows y = [] → ∃ t, putText busy u p = some t ∧
        Screen (Function.update rows y p) y (p.length % 256) t := by
    intro u rows y hy hu hblank
    obtain ⟨t, ht, hscreen⟩ := @Screen.prints busy y hy p hprint rows u
      (by rw [hblank]; exact hu) (by rw [hblank]; simpa using hlen)
    exact ⟨t, ht, by simpa [hblank] using hscreen⟩
  rcases Nat.lt_trichotomy ls.length 1 with hlt | heq | hgt
  · -- the first line
    obtain rfl : ls = [] := List.length_eq_zero_iff.mp (by omega)
    obtain ⟨t, ht, hscreen⟩ := hrow (y := 0) (by decide) h rfl
    exact ⟨t, ht, hscreen.congr rfl rfl⟩
  · -- the second
    have hne : ls ≠ [] := by
      rintro rfl
      cases heq
    rw [heq] at h ⊢
    obtain ⟨t, ht, hscreen⟩ := hrow (y := 1) (by decide) h (by simp [lastTwo, heq])
    exact ⟨t, ht, hscreen.congr (by simp [lastTwo_zero, hne, heq])
      (by simp [lastTwo_one, hne])⟩
  · -- any later one
    have hne : ls ≠ [] := by
      rintro rfl
      cases hgt
    rw [Nat.min_eq_right (by omega)] at h ⊢
    obtain ⟨t, ht, hscreen⟩ := hrow (y := 1) (by decide) h.scrollUp rfl
    refine ⟨t, ?_, hscreen.congr ?_ (by simp [lastTwo_one, hne])⟩
    · obtain ⟨c, p, rfl⟩ := List.exists_cons_of_ne_nil hp
      have hfirst := h.print_below busy (hprint c (List.mem_cons_self ..))
      rw [← ht, putText, putText, List.foldlM_cons, List.foldlM_cons, hfirst]
    · rw [lastTwo_zero, if_neg hne, if_neg (by omega)]
      simp

/-- The text of lines that are all ended. -/
def endLines (ls : List (List Byte)) : List Byte := ls.flatMap (· ++ [0x0a])

/-- Lines that fit the column counter, of printable characters. -/
def Printable (ls : List (List Byte)) : Prop :=
  ∀ l ∈ ls, l.length ≤ 256 ∧ ∀ c ∈ l, isprint c = true

instance (ls : List (List Byte)) : Decidable (Printable ls) :=
  inferInstanceAs (Decidable (∀ l ∈ ls, _))

theorem Screen.endLine {ls : List (List Byte)} {s : State}
    (h : Screen (lastTwo ls) (min ls.length 2) 0 s) {p : List Byte}
    (hprint : ∀ c ∈ p, isprint c = true) (hlen : p.length ≤ 256) :
    ∃ t, putText busy s (p ++ [0x0a]) = some t ∧
      Screen (lastTwo (ls ++ [p])) (min (ls.length + 1) 2) 0 t := by
  have h2 : height = 2 := rfl
  by_cases hp : p = []
  · -- an empty line
    subst hp
    obtain ⟨t, ht, hscreen⟩ := h.lineFeed busy
    refine ⟨t, (putText_cons busy ht []).trans rfl, ?_⟩
    by_cases hl : ls.length < 2
    · rw [if_pos (by omega)] at hscreen
      rw [show min ls.length 2 + 1 = min (ls.length + 1) 2 by omega] at hscreen
      refine hscreen.congr ?_ ?_
      · rw [lastTwo_zero]
        split_ifs with h0 h1
        · rw [h0, lastTwo_nil]
        · rfl
        · exact absurd (List.length_eq_zero_iff.mp (by omega)) h0
      · rw [lastTwo_one]
        by_cases h0 : ls = []
        · rw [h0, lastTwo_nil, if_pos rfl]
        · have := List.length_pos_of_ne_nil h0
          simp [lastTwo, show ls.length = 1 by omega]
    · have hne : ls ≠ [] := by
        rintro rfl
        simp at hl
      rw [if_neg (by omega), Nat.min_eq_right (by omega)] at hscreen
      rw [Nat.min_eq_right (by omega)]
      refine hscreen.congr ?_ (by simp [lastTwo_one])
      show lastTwo ls 1 = _
      rw [lastTwo_zero, if_neg hne, if_neg (by omega)]
  · obtain ⟨t, ht, hscreen⟩ := h.line busy hp hprint hlen
    obtain ⟨u, hu, hscreen'⟩ := hscreen.lineFeed busy
    rw [if_pos (by omega), show min ls.length 1 + 1 = min (ls.length + 1) 2 by omega] at hscreen'
    exact ⟨u, (putText_append busy ht [0x0a]).trans ((putText_cons busy hu []).trans rfl), hscreen'⟩

/-- Any number of lines leaves the last two on the screen. -/
theorem Screen.endLines {ls : List (List Byte)} (hls : Printable ls) {s : State}
    (h : Screen (fun _ => []) 0 0 s) : ∃ t, putText busy s (endLines ls) = some t ∧
      Screen (lastTwo ls) (min ls.length 2) 0 t := by
  induction ls using List.reverseRecOn with
  | nil => exact ⟨s, rfl, h⟩
  | append_singleton ls p ih =>
    obtain ⟨t, ht, hscreen⟩ := ih fun l hl => hls l (List.mem_append_left _ hl)
    obtain ⟨hlen, hprint⟩ := hls p (by simp)
    obtain ⟨u, hu, hscreen'⟩ := hscreen.endLine busy hprint hlen
    refine ⟨u, ?_, by simpa using hscreen'⟩
    rw [Lcd.endLines, List.flatMap_append, List.flatMap_singleton]
    exact (putText_append busy ht _).trans hu

/-! ## Escape sequences -/

def esc : Byte := 27

/-- Digits and semicolons gather in the buffer while it has room. -/
theorem putText_gather {escape : List Byte} (hne : escape ≠ []) (cs : List Byte)
    (hcs : ∀ c ∈ cs, isdigit c = true ∨ c = 0x3b) {s : State} (hs : s.escape = some escape)
    (hroom : escape.length + cs.length ≤ 7) :
    putText busy s cs = some { s with escape := some (escape ++ cs) } := by
  induction cs generalizing escape s with
  | nil =>
    rw [List.append_nil, ← hs]
    rfl
  | cons c cs ih =>
    rw [List.length_cons] at hroom
    have hgo : endsEscape escape c = false := by
      rw [endsEscape, if_neg hne]
      rcases hcs c (List.mem_cons_self ..) with h | h <;> simp [h]
    have hput : putChar busy s c = some { s with escape := some (escape ++ [c]) } := by
      unfold putChar
      rw [hs]
      simp only [hgo, Bool.false_eq_true, ↓reduceIte]
      exact if_pos (by omega)
    rw [putText_cons busy hput, @ih (escape ++ [c]) (by simp)
      (fun c hc => hcs c (List.mem_cons_of_mem _ hc)) { s with escape := some (escape ++ [c]) } rfl
      (by rw [List.length_append, List.length_singleton]; omega), List.append_assoc]
    rfl

/-- A whole sequence does what its last character says. -/
theorem putText_sequence {s : State} (hs : s.escape = none) {cs : List Byte}
    (hcs : ∀ c ∈ cs, isdigit c = true ∨ c = 0x3b) (hroom : cs.length ≤ 6) {c : Byte}
    (hc : isdigit c = false) (hc' : c ≠ 0x3b) :
    putText busy s (esc :: 0x5b :: cs ++ [c]) =
      (handleEscape busy { s with escape := some (0x5b :: cs) } (0x5b :: cs) c).map
        fun t => { t with escape := none } := by
  have hesc : putChar busy s esc = some { s with escape := some [] } := by
    unfold putChar
    rw [hs]
    rfl
  have hopen : putChar busy { s with escape := some [] } 0x5b =
      some { s with escape := some [0x5b] } := rfl
  have hgather := @putText_gather busy [0x5b] (by decide) cs hcs
    { s with escape := some [0x5b] } rfl (by rw [List.length_singleton]; omega)
  have hend : endsEscape (0x5b :: cs) c = true := by
    have hsemi : (c != 0x3b) = true := bne_iff_ne.mpr hc'
    rw [endsEscape, if_neg (List.cons_ne_nil _ _), hc, hsemi]
    rfl
  rw [List.cons_append, List.cons_append, putText_cons busy hesc, putText_cons busy hopen,
    putText_append busy hgather]
  simp only [putText, List.foldlM_cons, List.foldlM_nil, List.singleton_append]
  have hput : putChar busy { s with escape := some (0x5b :: cs) } c =
      (handleEscape busy { s with escape := some (0x5b :: cs) } (0x5b :: cs) c).map
        fun t => { t with escape := none } := by
    unfold putChar
    simp only [hend, ↓reduceIte]
  rw [hput]
  cases handleEscape busy { s with escape := some (0x5b :: cs) } (0x5b :: cs) c <;> rfl

/-- `ESC [ 2 J`. -/
def clear : List Byte := [esc, 0x5b, 0x32, 0x4a]

theorem putText_clear {s : State} (hs : s.escape = none) :
    ∃ t, putText busy s clear = some t ∧ Screen (fun _ => []) 0 0 t := by
  have hseq := @putText_sequence busy s hs [0x32] (by decide) (by decide) 0x4a (by decide)
    (by decide)
  refine ⟨_, hseq, rfl, rfl, rfl, fun r _ i hi => ?_⟩
  exact clearScreen_data busy _ r (by omega)

/-- A number in decimal. -/
def decimal (n : Nat) : List Byte :=
  (Nat.digits 10 n).reverse.map fun d => BitVec.ofNat 8 (0x30 + d)

theorem digit_byte {d : Nat} (hd : d < 10) : (BitVec.ofNat 8 (0x30 + d)).toNat = 0x30 + d :=
  Nat.mod_eq_of_lt (by omega)

theorem decimal_isdigit (n : Nat) {c : Byte} (hc : c ∈ decimal n) : isdigit c = true := by
  obtain ⟨d, hd, rfl⟩ := List.mem_map.mp hc
  have hlt : d < 10 := Nat.digits_lt_base (by decide) (List.mem_reverse.mp hd)
  rw [isdigit, digit_byte hlt]
  simp
  omega

/-- The number that is read is the one that was written. -/
theorem number_decimal (n : Nat) {rest : List Byte} (hrest : ∀ c ∈ rest.head?, isdigit c = false) :
    number (decimal n ++ rest) = n ∧ (decimal n ++ rest).dropWhile isdigit = rest := by
  have hall : ∀ c ∈ decimal n, isdigit c = true := fun c hc => decimal_isdigit n hc
  have hstop : rest.takeWhile isdigit = [] ∧ rest.dropWhile isdigit = rest := by
    cases rest with
    | nil => exact ⟨rfl, rfl⟩
    | cons c rest =>
      have hc := hrest c rfl
      exact ⟨by simp [hc], by simp [hc]⟩
  refine ⟨?_, ?_⟩
  · rw [number, List.takeWhile_append_of_pos hall, hstop.1, List.append_nil]
    have hfold : ∀ ds : List Nat, (∀ d ∈ ds, d < 10) →
        (ds.reverse.map fun d => BitVec.ofNat 8 (0x30 + d)).foldl
          (fun parm c => parm * 10 + (c.toNat - 0x30)) 0 = Nat.ofDigits 10 ds := by
      intro ds
      induction ds with
      | nil => exact fun _ => rfl
      | cons d ds ih =>
        intro hds
        have hd := hds d (List.mem_cons_self ..)
        rw [List.reverse_cons, List.map_append, List.foldl_append,
          ih fun d hd => hds d (List.mem_cons_of_mem _ hd), Nat.ofDigits_cons]
        simp only [List.map_cons, List.map_nil, List.foldl_cons, List.foldl_nil, digit_byte hd]
        omega
    rw [decimal, hfold _ fun d hd => Nat.digits_lt_base (by decide) hd, Nat.ofDigits_digits]
  · rw [List.dropWhile_append_of_pos hall, hstop.2]

/-- `ESC [ <row> ; <col> H`. -/
def cursorTo (row col : Nat) : List Byte :=
  esc :: 0x5b :: (decimal row ++ 0x3b :: decimal col) ++ [0x48]

theorem parms_two {s t : List Byte} (h : s.dropWhile isdigit = 0x3b :: t) :
    parms (0x5b :: s) = ((number s : Int), number t) := by
  refine (parms.eq_1 s).trans ?_
  rw [h]
  rfl

theorem parms_cursorTo (row col : Nat) :
    parms (0x5b :: (decimal row ++ 0x3b :: decimal col)) = ((row : Int), col) := by
  obtain ⟨hrow, hdrop⟩ := @number_decimal row (0x3b :: decimal col) (by
    intro c hc
    obtain rfl := Option.some.inj hc
    decide)
  have hcol := (@number_decimal col [] (by simp)).1
  rw [List.append_nil] at hcol
  rw [parms_two hdrop, hrow, hcol]

theorem length_decimal {n b : Nat} (h : n < 10 ^ b) : (decimal n).length ≤ b := by
  rw [decimal, List.length_map, List.length_reverse]
  exact (Nat.digits_length_le_iff (by decide) n).mpr h

/-- The cursor goes to the row and column given, counted from 1. -/
theorem putText_cursorTo {s : State} (hs : s.escape = none) {row col : Nat} (hrow : 0 < row)
    (hrow' : row ≤ height) (hcol : 0 < col) (hcol' : col ≤ virtualWidth) :
    putText busy s (cursorTo row col) = some { s with x := col - 1, y := row - 1 } := by
  have h2 : height = 2 := rfl
  have h80 : virtualWidth = 80 := rfl
  have hlen := length_decimal (n := row) (b := 1) (by omega)
  have hlen' := length_decimal (n := col) (b := 2) (by omega)
  have hseq := @putText_sequence busy s hs (decimal row ++ 0x3b :: decimal col) (by
      intro c hc
      rcases List.mem_append.mp hc with h | h
      · exact .inl (decimal_isdigit row h)
      · rcases List.mem_cons.mp h with h | h
        · exact .inr h
        · exact .inl (decimal_isdigit col h))
    (by rw [List.length_append, List.length_cons]; omega) 0x48 (by decide) (by decide)
  rw [cursorTo, hseq, handleEscape, parms_cursorTo]
  have hy : min ((row - 1) % 256) (height * 2) = row - 1 := by
    rw [Nat.mod_eq_of_lt (by omega)]
    omega
  have hx : (col - 1) % 256 = col - 1 := Nat.mod_eq_of_lt (by omega)
  have hup : row - 1 - height = 0 := by omega
  simp [moveCursor, hcol, hrow, hy, hx, hup, hs]

/-! ## A write and the alarm

The alarm moves the scroll position between any two characters. The characters
neither read nor change it. -/

def State.setPos (s : State) (p : Nat) : State := { s with scrollpos := p }

theorem writeCommand_setPos (s : State) (p : Nat) (c : Byte) :
    writeCommand busy (s.setPos p) c = (writeCommand busy s c).setPos p := by
  unfold writeCommand State.setPos
  simp only
  split_ifs <;> rfl

theorem clearScreen_setPos (s : State) (p : Nat) :
    clearScreen busy (s.setPos p) = (clearScreen busy s).setPos p := by
  simp only [clearScreen, writeCommand_setPos]
  rfl

theorem moveCursor_setPos (s : State) (p : Nat) (parm1 : Int) (parm2 : Nat) :
    moveCursor (s.setPos p) parm1 parm2 = (moveCursor s parm1 parm2).setPos p := by
  have hups : ∀ n (u : State), scrollUp^[n] (u.setPos p) = (scrollUp^[n] u).setPos p := by
    intro n
    induction n with
    | zero => exact fun _ => rfl
    | succ n ih => exact fun u => ih (scrollUp u)
  unfold moveCursor
  split_ifs
  · exact hups _ { s with
      x := (parm2 - 1) % 256, y := min ((parm1.toNat - 1) % 256) (height * 2) }
  · rfl
  · exact hups _ { s with y := min ((parm1.toNat - 1) % 256) (height * 2) }
  · rfl

theorem handleEscape_setPos (s : State) (p : Nat) (escape : List Byte) (c : Byte) :
    handleEscape busy (s.setPos p) escape c = (handleEscape busy s escape c).map (·.setPos p) := by
  simp only [handleEscape]
  split_ifs
  · exact congrArg some (moveCursor_setPos s p _ _)
  · exact congrArg some (clearScreen_setPos busy s p)
  · rfl
  · unfold eraseLine State.setPos
    simp only
    split_ifs <;> rfl
  · rfl
  · rfl

theorem printChar_setPos (s : State) (p : Nat) (c : Byte) :
    printChar (s.setPos p) c = (printChar s c).map (·.setPos p) := by
  unfold printChar
  by_cases hy : s.y ≥ height
  · have hy' : (s.setPos p).y ≥ height := hy
    simp only [if_pos hy, if_pos hy']
    have hu : Lcd.scrollUp (s.setPos p) = (Lcd.scrollUp s).setPos p := rfl
    rw [hu]
    generalize Lcd.scrollUp s = u
    unfold State.setPos
    simp only
    split_ifs <;> rfl
  · have hy' : ¬ (s.setPos p).y ≥ height := hy
    simp only [if_neg hy, if_neg hy']
    unfold State.setPos
    simp only
    split_ifs <;> rfl

theorem putChar_setPos (s : State) (p : Nat) (c : Byte) :
    putChar busy (s.setPos p) c = (putChar busy s c).map (·.setPos p) := by
  have hesc : (s.setPos p).escape = s.escape := rfl
  have hx : (s.setPos p).x = s.x := rfl
  have hy : (s.setPos p).y = s.y := rfl
  unfold putChar
  rw [hesc]
  cases s.escape with
  | some escape =>
    simp only
    split_ifs
    · rw [handleEscape_setPos]
      cases handleEscape busy s escape c <;> rfl
    · rfl
    · rfl
  | none =>
    simp only [hx, hy]
    split_ifs
    · rfl
    · rfl
    · rfl
    · rfl
    · rfl
    · rfl
    · exact printChar_setPos s p c
    · rfl

theorem putText_setPos (s : State) (p : Nat) (text : List Byte) :
    putText busy (s.setPos p) text = (putText busy s text).map (·.setPos p) := by
  induction text generalizing s with
  | nil => rfl
  | cons c text ih =>
    simp only [putText, List.foldlM_cons, putChar_setPos] at ih ⊢
    cases putChar busy s c with
    | none => rfl
    | some t => exact ih t

/-- Cursor, escape sequence and text. -/
def State.text (s : State) : Nat × Nat × Option (List Byte) × (Nat → Nat → Byte) :=
  (s.x, s.y, s.escape, fun y => (s.line y).data)

/-- What the write in progress is going to leave. -/
def Leaves (u : State) (s : Sys) : Prop :=
  match s.phase with
  | .text rest => ∃ v, putText busy s.sp rest = some v ∧ v.text = u.text
  | _ => s.sp.text = u.text

theorem text_of_rest {s t : State} (h : s.rest = t.rest) : s.text = t.text := by
  have hd : (fun y => (s.line y).data) = fun y => (t.line y).data :=
    funext fun y => (rest_line h y).1
  simp only [State.rest, Prod.mk.injEq] at h
  simp only [State.text, Prod.mk.injEq]
  exact ⟨h.1, h.2.1, h.2.2.1, hd⟩

theorem leaves_tick {u : State} {s t : Sys} (hinv : Inv s) (hs : Leaves busy u s)
    (h : next busy s .tick = some t) : Leaves busy u t := by
  obtain ⟨sp, phase⟩ := s
  obtain ⟨v, hv, rfl⟩ := Option.map_eq_some_iff.mp h
  have hrest : v.text = (scroll sp).text := by
    unfold timeout at hv
    simp only at hv
    split_ifs at hv with hgo
    · have hsized : Sized sp := by
        have hst := hinv.stage
        cases phase with
        | idle =>
          refine hst.2.elim (fun hb => ?_) (·.1.sized)
          have h0 : (scroll sp).scrollmax = 0 := hb.scrollmax
          rw [h0] at hgo
          exact absurd hgo.1 (Int.lt_irrefl 0)
        | test _ | again => exact hst.2.1.sized
        | text _ => exact nomatch (show sp.active = true from hst).symm.trans hgo.2
        | save | paint _ | release _ => exact nomatch hst.1.symm.trans hgo.2
      obtain ⟨w, hw, hrest, _⟩ := repaint_spec busy (s := scroll sp) hsized
      obtain rfl := Option.some.inj (hv.symm.trans hw)
      exact text_of_rest hrest
    · obtain rfl := Option.some.inj hv
      rfl
  cases phase with
  | text rest =>
    -- in use, so only the position has moved
    have hact : sp.active = true := hinv.stage
    have hnot : ¬ ((scroll sp).scrollmax > 0 ∧ (scroll sp).active = false) := fun h =>
      nomatch hact.symm.trans h.2
    obtain rfl := Option.some.inj (hv.symm.trans (if_neg hnot))
    obtain ⟨w, hw, htext⟩ := hs
    refine ⟨w.setPos (scroll sp).scrollpos, ?_, htext⟩
    have hpos : scroll sp = sp.setPos (scroll sp).scrollpos := rfl
    simp only at hw
    rw [hpos, putText_setPos, hw]
    rfl
  | idle | save | paint _ | release _ | test _ | again => exact hrest.trans hs

theorem leaves_run {u : State} {s t : Sys} (hinv : Inv s) (hs : Leaves busy u s)
    (h : next busy s .run = some t) : Leaves busy u t := by
  obtain ⟨sp, phase⟩ := s
  cases phase with
  | text rest =>
    obtain ⟨w, hw, htext⟩ := hs
    cases rest with
    | nil =>
      obtain rfl := Option.some.inj h
      obtain rfl := Option.some.inj hw
      exact htext
    | cons c rest =>
      obtain ⟨v, hv, rfl⟩ := Option.map_eq_some_iff.mp h
      exact ⟨w, (putText_cons busy hv rest).symm.trans hw, htext⟩
  | paint old =>
    obtain ⟨v, hv, rfl⟩ := Option.map_eq_some_iff.mp h
    obtain ⟨w, hw, hrest, _⟩ := repaint_spec busy hinv.stage.2.sized
    obtain rfl := Option.some.inj (hv.symm.trans hw)
    exact (text_of_rest hrest).trans hs
  | test old =>
    simp only [next, foreground] at h
    split_ifs at h <;> obtain rfl := Option.some.inj h <;> exact hs
  | idle | save | release _ | again =>
    obtain rfl := Option.some.inj h
    exact hs

/-- Steps of a write and calls of the alarm. -/
def NoWrite (es : List Event) : Prop := ∀ bytes, .write bytes ∉ es

theorem leaves_of_run {u : State} {s t : Sys} (hinv : Inv s) (hs : Leaves busy u s)
    {es : List Event} (hes : NoWrite es) (h : run (step busy) (some s) es = some t) :
    Inv t ∧ Leaves busy u t := by
  induction es generalizing s with
  | nil =>
    obtain rfl := Option.some.inj h
    exact ⟨hinv, hs⟩
  | cons e es ih =>
    have hrest : NoWrite es := fun bytes hin => hes bytes (List.mem_cons_of_mem _ hin)
    rw [run_cons, step, Option.bind_some] at h
    cases hn : next busy s e with
    | none =>
      rw [hn, run_none] at h
      cases h
    | some v =>
      rw [hn] at h
      refine ih (next_inv busy hinv hn) ?_ hrest h
      cases e with
      | write bytes => exact absurd (List.mem_cons_self ..) (hes bytes)
      | run => exact leaves_run busy hinv hs hn
      | tick => exact leaves_tick busy hinv hs hn

/-- A write that has returned left what its characters say. -/
theorem write_leaves {s t : Sys} (hinv : Inv s) (hidle : s.phase = .idle) {bytes : List Byte}
    {u : State} (hu : putText busy { s.sp with active := true } bytes = some u)
    {es : List Event} (hes : NoWrite es)
    (h : run (step busy) (some s) (.write bytes :: es) = some t) (ht : t.phase = .idle) :
    Inv t ∧ t.sp.text = u.text := by
  obtain ⟨sp, phase⟩ := s
  simp only at hidle
  subst hidle
  have hstart : next busy ⟨sp, .idle⟩ (.write bytes) =
      some ⟨{ sp with active := true }, .text bytes⟩ := rfl
  rw [run_cons, step, Option.bind_some, hstart] at h
  have hleaves : Leaves busy u ⟨{ sp with active := true }, .text bytes⟩ := ⟨u, hu, rfl⟩
  obtain ⟨hinv', hl⟩ := leaves_of_run busy (next_inv busy hinv hstart) hleaves hes h
  rw [Leaves, ht] at hl
  exact ⟨hinv', hl⟩

/-! ## What a program sees of it -/

theorem trim_le_of_blank {data : Nat → Byte} {m n : Nat}
    (h : ∀ i, m ≤ i → i < n → data i = 0x20) : trim data n ≤ m := by
  induction n with
  | zero => exact Nat.zero_le m
  | succ n ih =>
    unfold trim
    by_cases hn : data n = 0x20
    · rw [if_neg (fun hne => hne hn)]
      exact ih fun i hi hlt => h i hi (by omega)
    · rw [if_pos hn]
      exact Nat.not_lt.mp fun hlt => hn (h n (by omega) (by omega))

/-- Lines that are ended, then a line `p` that is not, or nothing. -/
def printed (ls : List (List Byte)) (p : List Byte) : List (List Byte) :=
  if p = [] then ls else ls ++ [p]

theorem putText_printed {s : State} (hs : s.escape = none) {ls : List (List Byte)}
    {p : List Byte} (hls : Printable ls) (hp : Printable [p]) :
    ∃ t y x, putText busy s (clear ++ (endLines ls ++ p)) = some t ∧
      Screen (lastTwo (printed ls p)) y x t := by
  obtain ⟨t, ht, hclear⟩ := putText_clear busy hs
  obtain ⟨u, hu, hlines⟩ := hclear.endLines busy hls
  by_cases hnil : p = []
  · refine ⟨u, _, _, ?_, (by rwa [printed, if_pos hnil])⟩
    rw [hnil, List.append_nil]
    exact (putText_append busy ht _).trans hu
  · obtain ⟨hlen, hprint⟩ := hp p (List.mem_singleton.mpr rfl)
    obtain ⟨v, hv, hlast⟩ := hlines.line busy hnil hprint hlen
    refine ⟨v, _, _, ?_, (by rwa [printed, if_neg hnil])⟩
    rw [putText_append busy ht, putText_append busy hu]
    exact hv

/-- **Addressed characters.** A position in decimal and a character put it into
that cell, and change no other. -/
theorem types_at {s : State} (hs : s.escape = none) {row col : Nat} (hrow : 0 < row)
    (hrow' : row ≤ height) (hcol : 0 < col) (hcol' : col ≤ virtualWidth) {c : Byte}
    (hc : isprint c = true) :
    ∃ t, putText busy s (cursorTo row col ++ [c]) = some t ∧ t.x = col ∧ t.y = row - 1 ∧
      t.escape = none ∧ ∀ y i, (t.line y).data i =
        if y = row - 1 ∧ i = col - 1 then c else (s.line y).data i := by
  have hto := putText_cursorTo busy hs hrow hrow' hcol hcol'
  have h80 : virtualWidth = 80 := rfl
  rw [putText_append busy hto]
  have hput := putChar_print busy (s := { s with x := col - 1, y := row - 1 }) hs hc
  have hstay : ¬ row - 1 ≥ height := by omega
  unfold printChar at hput
  simp only [if_neg hstay] at hput
  rw [if_pos (by omega), if_pos (by omega)] at hput
  refine ⟨_, (putText_cons busy hput []).trans rfl, ?_, rfl, hs, fun y i => ?_⟩
  · show (col - 1 + 1) % 256 = col
    omega
  · by_cases hy : y = row - 1
    · subst hy
      by_cases hi : i = col - 1
      · subst hi
        simp
      · simp [hi]
    · simp [hy]

theorem types_at_corner : ∃ t, putText ready (init ready .zero) (cursorTo 2 80 ++ [0x41]) = some t ∧
    t.x = 80 ∧ t.y = 2 - 1 ∧ t.escape = none ∧ ∀ y i, (t.line y).data i =
      if y = 2 - 1 ∧ i = 80 - 1 then 0x41 else ((init ready .zero).line y).data i :=
  types_at ready rfl (by decide) (by decide) (by decide) (by decide) (by decide)

end Text

end FpgaLabs.Hal.Lcd
