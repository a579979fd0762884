import FpgaLabs.Hal.LcdRun

/-! Scrolling: whether the alarm brings all of a long line into view. -/

namespace FpgaLabs.Hal.Lcd
open Sync

section Scroll
variable (busy : Nat → Bool)

/-! ## The scroll position -/

/-- No write is in progress and the parameters are those of `text`. -/
structure Showing (text : Nat → Nat → Byte) (lim : Int) (s : Sys) : Prop where
  inv : Inv s
  idle : s.phase = .idle
  laid : Laid s.sp
  data : ∀ y, (s.sp.line y).data = text y
  scrollmax : s.sp.scrollmax = lim

/-- One call of the alarm moves the scroll position and repaints. -/
theorem Showing.tick {text : Nat → Nat → Byte} {lim : Nat} {s : Sys} (hmax : 0 < lim)
    (h : Showing text lim s) : ∃ t, step busy (some s) .tick = some t ∧ Showing text lim t ∧
      t.sp.scrollpos = (if lim ≤ s.sp.scrollpos + 1 then 0 else s.sp.scrollpos + 1) ∧
      Painted t.sp.scrollpos t.sp := by
  obtain ⟨sp, phase⟩ := s
  obtain ⟨hinv, hidle, hlaid, hdata, hscroll⟩ := h
  simp only at hidle hlaid hdata hscroll
  subst hidle
  have hgo : (scroll sp).scrollmax > 0 ∧ (scroll sp).active = false := by
    refine ⟨?_, hinv.stage.1⟩
    show sp.scrollmax > 0
    omega
  obtain ⟨t, ht, hrest, hm, hp⟩ := repaint_spec busy (s := scroll sp) hlaid.sized
  have htick : timeout busy sp = some t := (if_pos hgo).trans ht
  have hpos : t.scrollpos = (scroll sp).scrollpos ∧ t.scrollmax = sp.scrollmax := by
    simp only [State.rest, Prod.mk.injEq] at hrest
    exact ⟨hrest.2.2.2.1, hrest.2.2.2.2.1⟩
  have hnext : step busy (some ⟨sp, .idle⟩) .tick = some ⟨t, .idle⟩ := by
    simp only [step, Option.bind_some, next, htick, Option.map_some]
  refine ⟨⟨t, .idle⟩, hnext, ⟨next_inv busy (e := .tick) hinv hnext, rfl,
    laid_congr hrest.symm ⟨hlaid.width, hlaid.speed, hlaid.scrollmax⟩, fun y => ?_, ?_⟩, ?_, ?_⟩
  · exact (rest_line hrest y).1.trans (hdata y)
  · exact hpos.2.trans hscroll
  · rw [hpos.1]
    simp only [scroll, hscroll]
    exact if_congr (by omega) rfl rfl
  · rw [hpos.1]
    exact hp

def ticks (n : Nat) : List Event := List.replicate n .tick

/-- Short of its maximum the position counts up. -/
theorem Showing.climb {text : Nat → Nat → Byte} {lim : Nat} (n : Nat) {s : Sys}
    (h : Showing text lim s) (hn : s.sp.scrollpos + n < lim)
    (hp : Painted s.sp.scrollpos s.sp) :
    ∃ t, run (step busy) (some s) (ticks n) = some t ∧ Showing text lim t ∧
      t.sp.scrollpos = s.sp.scrollpos + n ∧ Painted t.sp.scrollpos t.sp := by
  induction n generalizing s with
  | zero => exact ⟨s, rfl, h, rfl, hp⟩
  | succ n ih =>
    obtain ⟨t, ht, hshow, hpos, hpt⟩ := h.tick busy (by omega)
    rw [if_neg (by omega)] at hpos
    obtain ⟨u, hu, hshow', hpos', hpu⟩ := ih hshow (by omega) hpt
    refine ⟨u, ?_, hshow', by omega, hpu⟩
    rw [ticks, List.replicate_succ, run_cons, ht]
    exact hu

/-- From anywhere it comes back to 0. -/
theorem Showing.wrap {text : Nat → Nat → Byte} {lim : Nat} (hmax : 0 < lim) {s : Sys}
    (h : Showing text lim s) : ∃ n t, run (step busy) (some s) (ticks n) = some t ∧
      Showing text lim t ∧ t.sp.scrollpos = 0 ∧ Painted 0 t.sp := by
  -- by the steps that are left to the maximum
  generalize hk : lim - s.sp.scrollpos = k
  induction k generalizing s with
  | zero =>
    obtain ⟨t, ht, hshow, hpos, hp⟩ := h.tick busy hmax
    rw [if_pos (by omega)] at hpos
    exact ⟨1, t, ht, hshow, hpos, hpos ▸ hp⟩
  | succ k ih =>
    obtain ⟨t, ht, hshow, hpos, hp⟩ := h.tick busy hmax
    by_cases hlast : lim ≤ s.sp.scrollpos + 1
    · rw [if_pos hlast] at hpos
      exact ⟨1, t, ht, hshow, hpos, hpos ▸ hp⟩
    · rw [if_neg hlast] at hpos
      obtain ⟨n, u, hu, hrest⟩ := ih hshow (by omega)
      refine ⟨n + 1, u, ?_, hrest⟩
      rw [ticks, List.replicate_succ, run_cons, ht]
      exact hu

/-- Every position is reached. -/
theorem Showing.reaches {text : Nat → Nat → Byte} {lim : Nat} {s : Sys}
    (h : Showing text lim s) {q : Nat} (hq : q < lim) :
    ∃ n t, run (step busy) (some s) (ticks n) = some t ∧ Showing text lim t ∧
      Painted q t.sp := by
  obtain ⟨n, t, ht, hshow, hpos, hp⟩ := h.wrap busy (by omega)
  obtain ⟨u, hu, hshow', hpos', hpu⟩ := hshow.climb busy q (by omega) (hpos ▸ hp)
  refine ⟨n + q, u, ?_, hshow', ?_⟩
  · rw [ticks, List.replicate_add, run_append]
    exact (congrArg (fun o => run (step busy) o (ticks q)) ht).trans hu
  · rw [hpos, Nat.zero_add] at hpos'
    rwa [hpos'] at hpu

/-! ## Speeds -/

/-- `scrollmax` is twice the longest width while that fits a signed char. -/
theorem scrollmax_eq (s : State) : (layout s).scrollmax =
    if widthmax s ≤ width then 0
    else if widthmax s < 64 then ((widthmax s * 2 : Nat) : Int)
    else ((widthmax s * 2 : Nat) : Int) - 256 := by
  have hbound : widthmax s ≤ 81 := by
    have h0 := (lineWidth_bounds (s.line 0)).2.1
    have h1 := (lineWidth_bounds (s.line 1)).2.1
    have h80 : virtualWidth = 80 := rfl
    have h16 : width = 16 := rfl
    simp only [widthmax]
    omega
  have hall : ∀ w : Fin 82, (BitVec.ofNat 8 (w.1 * 2)).toInt =
      if w.1 < 64 then ((w.1 * 2 : Nat) : Int) else ((w.1 * 2 : Nat) : Int) - 256 := by decide
  have hw := hall ⟨widthmax s, by omega⟩
  simp only at hw
  simp only [layout, hw]

/-- The position at which a line has scrolled by `k`, and that it is in range:
a line of width `w` moves by `256 * w / (2 * lim)` parts of 256 at a time. -/
theorem speed_reaches {w lim k : Nat} (hw : 16 < w) (hmax : w ≤ lim) (h64 : lim < 64)
    (hk : k + 16 ≤ w) :
    ∃ q, q < lim * 2 ∧ (q * (256 * w / (lim * 2) % 256)) >>> 8 = k := by
  have hspeed : 256 * w / (lim * 2) ≤ 128 := by
    exact Nat.div_le_of_le_mul (by omega)
  rw [Nat.mod_eq_of_lt (by omega)]
  generalize hs : 256 * w / (lim * 2) = speed at *
  -- what rounding the speed down costs
  have hround : 256 * w < lim * 2 * (speed + 1) := by
    rw [← hs]
    exact Nat.lt_mul_div_succ _ (by omega)
  have hpos : 0 < speed := by
    rw [← hs]
    exact Nat.div_pos (by omega) (by omega)
  have hround' : 256 * w < lim * 2 * speed + lim * 2 := by
    rwa [Nat.mul_add, Nat.mul_one] at hround
  -- the least position that gets there
  refine ⟨(256 * k + (speed - 1)) / speed, ?_, ?_⟩
  · refine (Nat.div_lt_iff_lt_mul hpos).mpr ?_
    omega
  · have hlow : 256 * k ≤ (256 * k + (speed - 1)) / speed * speed := by
      have := @Nat.lt_div_mul_add (256 * k + (speed - 1)) speed hpos
      omega
    have hhigh := Nat.div_mul_le_self (256 * k + (speed - 1)) speed
    rw [Nat.shiftRight_eq_div_pow]
    omega

/-! ## Long lines -/

def longest (s : State) : Nat := max (length (s.line 0)) (length (s.line 1))

theorem length_le_longest (s : State) {y : Nat} (hy : y < height) :
    length (s.line y) ≤ longest s := by
  have h2 : height = 2 := rfl
  obtain rfl | rfl : y = 0 ∨ y = 1 := by omega
  · exact Nat.le_max_left _ _
  · exact Nat.le_max_right _ _

theorem lineWidth_le_widthmax (s : State) {y : Nat} (hy : y < height) :
    lineWidth (s.line y) ≤ widthmax s := by
  have h2 : height = 2 := rfl
  obtain rfl | rfl : y = 0 ∨ y = 1 := by omega
  · exact Nat.le_trans (Nat.le_max_right _ _) (Nat.le_max_left _ _)
  · exact Nat.le_max_right _ _

theorem widthmax_eq (s : State) :
    widthmax s = if longest s ≤ width then width else longest s + 1 := by
  have hw : ∀ l, (length l ≤ width ∧ lineWidth l = width) ∨
      (width < length l ∧ lineWidth l = length l + 1) := by
    intro l
    by_cases hl : length l ≤ width
    · exact .inl ⟨hl, if_pos hl⟩
    · exact .inr ⟨Nat.not_le.mp hl, if_neg hl⟩
  have h0 := hw (s.line 0)
  have h1 := hw (s.line 1)
  have hmax : widthmax s = max (max width (lineWidth (s.line 0))) (lineWidth (s.line 1)) := rfl
  have hlong : longest s = max (length (s.line 0)) (length (s.line 1)) := rfl
  split <;> omega

theorem Blank.length {s : State} (hs : Blank s) {y : Nat} (hy : y < height) :
    length (s.line y) = 0 := by
  have hall : ∀ n, n ≤ virtualWidth → trim (s.line y).data n = 0 := by
    intro n
    induction n with
    | zero => exact fun _ => rfl
    | succ n ih =>
      intro hn
      rw [trim, if_neg (fun h => h (hs.data y hy n hn))]
      exact ih (by omega)
  exact hall virtualWidth (Nat.le_refl _)

theorem painted_at {s : State} (hs : Laid s) {p y i : Nat} (hp : Painted p s) (hy : y < height)
    (hlow : offset p (s.line y) ≤ i) (hhigh : i < offset p (s.line y) + width)
    (hi : i < lineWidth (s.line y)) :
    ∃ x, x < width ∧ (s.line y).visible x = (s.line y).data i := by
  refine ⟨i - offset p (s.line y), by omega, ?_⟩
  rw [hp y hy _ (by omega), window, hs.width, Nat.sub_add_cancel hlow, Nat.mod_eq_of_lt hi]

/-- A position at which character `i` of line `y` is in view. -/
theorem position_exists {s : State} (hs : Laid s) (hwide : width < longest s)
    (hlong : longest s ≤ 62) {y i : Nat} (hy : y < height) (hi : i < length (s.line y)) :
    ∃ q, q < widthmax s * 2 ∧ offset q (s.line y) ≤ i ∧
      i < offset q (s.line y) + width := by
  have h16 : width = 16 := rfl
  have hmax : widthmax s = longest s + 1 := (widthmax_eq s).trans (if_neg (by omega))
  by_cases hfirst : i < width
  · -- the beginning of the line, at position 0
    have h0 : offset 0 (s.line y) = 0 := by simp [offset]
    exact ⟨0, by omega, by omega, by omega⟩
  · have hlen := length_le_longest s hy
    have hw : lineWidth (s.line y) = length (s.line y) + 1 := if_neg (by omega)
    have hspeed : (s.line y).speed = 256 * lineWidth (s.line y) / (widthmax s * 2) % 256 := by
      rw [hs.speed, lineSpeed, if_neg (by omega), if_pos (by omega)]
    obtain ⟨q, hq, hk⟩ := @speed_reaches (lineWidth (s.line y)) (widthmax s) (i - 15)
      (by omega) (lineWidth_le_widthmax s hy) (by omega) (by omega)
    have hoff : offset q (s.line y) = i - 15 := by
      rw [offset, hspeed, hk, hs.width, if_neg (by omega)]
    exact ⟨q, hq, by omega, by omega⟩

/-- Up to 62 characters. -/
theorem comes_into_view {s : Sys} (hinv : Inv s) (hidle : s.phase = .idle)
    (hlong : longest s.sp ≤ 62) {y i : Nat} (hy : y < height) (hi : i < length (s.sp.line y)) :
    ∃ n t, run (step busy) (some s) (ticks n) = some t ∧ Mirror t.sp ∧
      ∃ x, x < width ∧ (t.sp.line y).visible x = (s.sp.line y).data i := by
  have hst := hinv.stage
  rw [hidle] at hst
  rcases hst.2 with hblank | ⟨hlaid, p, hp⟩
  · exact absurd hi (by rw [hblank.length hy]; exact Nat.not_lt_zero i)
  · have hwidth := (lineWidth_bounds (s.sp.line y)).2.2
    by_cases hwide : longest s.sp ≤ width
    · -- nothing scrolls
      have hfit : length (s.sp.line y) ≤ width :=
        Nat.le_trans (length_le_longest s.sp hy) hwide
      obtain ⟨k, _, hk, hwin⟩ := laid_window hlaid p y
      refine ⟨0, s, rfl, hinv.mirror, i, by omega, ?_⟩
      rw [hp y hy i (by omega), hwin, hk hfit, Nat.add_zero, Nat.mod_eq_of_lt (by omega)]
    · have hmax : widthmax s.sp = longest s.sp + 1 := (widthmax_eq s.sp).trans (if_neg hwide)
      have h16 : width = 16 := rfl
      have hscroll : s.sp.scrollmax = ((widthmax s.sp * 2 : Nat) : Int) := by
        rw [hlaid.scrollmax, scrollmax_eq, if_neg (by omega), if_pos (by omega)]
      obtain ⟨q, hq, hlow, hhigh⟩ := position_exists hlaid (by omega) hlong hy hi
      have hshow : Showing (fun y => (s.sp.line y).data) (widthmax s.sp * 2 : Nat) s :=
        ⟨hinv, hidle, hlaid, fun _ => rfl, hscroll⟩
      obtain ⟨n, t, ht, hshow', hpt⟩ := hshow.reaches busy hq
      -- the same text has the same parameters
      have hd : ∀ y, (t.sp.line y).data = (s.sp.line y).data := hshow'.data
      have hw := lineWidth_congr (hd y)
      have hoff : offset q (t.sp.line y) = offset q (s.sp.line y) := by
        rw [offset, offset, hshow'.laid.width, hshow'.laid.speed, hlaid.width, hlaid.speed, hw,
          lineSpeed_congr hd]
      rw [← hoff] at hlow hhigh
      obtain ⟨x, hx, hvis⟩ := painted_at hshow'.laid hpt hy hlow hhigh (by omega)
      exact ⟨n, t, ht, hshow'.inv.mirror, x, hx, by rw [hvis, hd]⟩

/-- From 63 characters on `scrollmax` is negative: the alarm never paints. -/
theorem stays {s : Sys} (hinv : Inv s) (hidle : s.phase = .idle) (hlong : 62 < longest s.sp)
    (n : Nat) : ∃ t, run (step busy) (some s) (ticks n) = some t ∧ t.sp.panel = s.sp.panel := by
  have hst := hinv.stage
  rw [hidle] at hst
  rcases hst.2 with hblank | ⟨hlaid, hp⟩
  · have h0 := hblank.length (y := 0) (by decide)
    have h1 := hblank.length (y := 1) (by decide)
    simp only [longest] at hlong
    omega
  · have h16 : width = 16 := rfl
    have hmax : widthmax s.sp = longest s.sp + 1 :=
      (widthmax_eq s.sp).trans (if_neg (by omega))
    have hneg : s.sp.scrollmax ≤ 0 := by
      have h0 := length_le_longest s.sp (y := 0) (by decide)
      have hle : longest s.sp ≤ 80 :=
        Nat.max_le.mpr ⟨trim_le _ _, trim_le _ _⟩
      rw [hlaid.scrollmax, scrollmax_eq, if_neg (by omega), if_neg (by omega)]
      omega
    clear hp hlaid hmax hlong hst hinv h16
    induction n generalizing s with
    | zero => exact ⟨s, rfl, rfl⟩
    | succ n ih =>
      obtain ⟨sp, phase⟩ := s
      have hnot : ¬ ((scroll sp).scrollmax > 0 ∧ (scroll sp).active = false) := fun h =>
        absurd h.1 (Int.not_lt.mpr hneg)
      have htick : timeout busy sp = some (scroll sp) := if_neg hnot
      obtain ⟨t, ht, hpanel⟩ := @ih ⟨scroll sp, phase⟩ hidle hneg
      refine ⟨t, ?_, hpanel⟩
      rw [ticks, List.replicate_succ, run_cons, step, Option.bind_some, next, htick]
      exact ht

/-- **The scrolling law.** With no write in progress, the alarm alone brings
every character of the text onto the panel if no line is longer than 62; if one
is, it never touches the panel again. -/
theorem scrolling_law {s : Sys} (h : Reached busy (some s)) (hidle : s.phase = .idle) :
    (longest s.sp ≤ 62 → ∀ y, y < height → ∀ i, i < length (s.sp.line y) →
      ∃ n t, run (step busy) (some s) (ticks n) = some t ∧ (t.sp.broken = false →
        ∃ x, x < width ∧ t.sp.panel.ddram (colstart y + x) = (s.sp.line y).data i)) ∧
    (62 < longest s.sp → ∀ n, ∃ t, run (step busy) (some s) (ticks n) = some t ∧
      t.sp.panel = s.sp.panel) := by
  have hinv := reached_inv busy h s rfl
  refine ⟨fun hlong y hy i hi => ?_, fun hlong n => stays busy hinv hidle hlong n⟩
  obtain ⟨n, t, ht, hm, x, hx, hvis⟩ := comes_into_view busy hinv hidle hlong hy hi
  refine ⟨n, t, ht, fun hb => ⟨x, hx, ?_⟩⟩
  rw [(hm hb).2.2 y hy x hx, hvis]

theorem scrolling_law_hi : ∃ s, after hi = some s ∧
    ((longest s.sp ≤ 62 → ∀ y, y < height → ∀ i, i < length (s.sp.line y) →
      ∃ n t, run (step ready) (some s) (ticks n) = some t ∧ (t.sp.broken = false →
        ∃ x, x < width ∧ t.sp.panel.ddram (colstart y + x) = (s.sp.line y).data i)) ∧
    (62 < longest s.sp → ∀ n, ∃ t, run (step ready) (some s) (ticks n) = some t ∧
      t.sp.panel = s.sp.panel)) := by
  have hsome : (after hi).isSome = true := by decide +kernel
  refine ⟨(after hi).get hsome, (Option.some_get hsome).symm, ?_⟩
  refine scrolling_law ready ?_ rfl
  rw [Option.some_get hsome]
  exact after_reached hi

end Scroll

end FpgaLabs.Hal.Lcd
