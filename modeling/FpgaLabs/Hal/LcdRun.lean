import FpgaLabs.Hal.LcdPanel

/-! Runs of the driver: what the panel shows once a write is over, and where
the driver leaves its own memory. -/

namespace FpgaLabs.Hal.Lcd
open Sync

section Panel
variable (busy : Nat → Bool)

/-! ## The scrolling parameters -/

theorem trim_le (data : Nat → Byte) (n : Nat) : trim data n ≤ n := by
  induction n with
  | zero => exact Nat.le_refl 0
  | succ n ih =>
    unfold trim
    split <;> omega

theorem lineWidth_bounds (l : Line) :
    width ≤ lineWidth l ∧ lineWidth l ≤ virtualWidth + 1 ∧ length l ≤ lineWidth l := by
  have hle : length l ≤ 80 := trim_le l.data virtualWidth
  have h16 : width = 16 := rfl
  have h80 : virtualWidth = 80 := rfl
  unfold lineWidth
  split <;> omega

/-- The scrolling parameters are those of the text. -/
structure Laid (s : State) : Prop where
  width : ∀ y, (s.line y).width = lineWidth (s.line y)
  speed : ∀ y, (s.line y).speed = lineSpeed s (s.line y)
  scrollmax : s.scrollmax = (layout s).scrollmax

/-- The parameters depend on the text alone. -/
theorem lineWidth_congr {k l : Line} (h : k.data = l.data) : lineWidth k = lineWidth l := by
  have hlen : length k = length l := by rw [length, length, h]
  rw [lineWidth, lineWidth, hlen]

theorem widthmax_congr {s t : State} (h : ∀ y, (s.line y).data = (t.line y).data) :
    widthmax s = widthmax t := by
  simp only [widthmax, lineWidth_congr (h 0), lineWidth_congr (h 1)]

theorem lineSpeed_congr {s t : State} (h : ∀ y, (s.line y).data = (t.line y).data) (y : Nat) :
    lineSpeed s (s.line y) = lineSpeed t (t.line y) := by
  simp only [lineSpeed, widthmax_congr h, lineWidth_congr (h y)]

theorem layout_laid (s : State) : Laid (layout s) := by
  have hd : ∀ y, (s.line y).data = ((layout s).line y).data := fun _ => rfl
  refine ⟨fun y => lineWidth_congr (hd y), fun y => lineSpeed_congr hd y, ?_⟩
  simp only [layout]
  rw [widthmax_congr hd]
  rfl

theorem laid_congr {s t : State} (h : s.rest = t.rest) (hs : Laid s) : Laid t := by
  have hd : ∀ y, (s.line y).data = (t.line y).data := fun y => (rest_line h y).1
  have hmax : s.scrollmax = t.scrollmax := by
    simp only [State.rest, Prod.mk.injEq] at h
    exact h.2.2.2.2.1
  refine ⟨fun y => ?_, fun y => ?_, ?_⟩
  · rw [← (rest_line h y).2.1, hs.width, lineWidth_congr (hd y)]
  · rw [← (rest_line h y).2.2, hs.speed, lineSpeed_congr hd]
  · rw [← hmax, hs.scrollmax]
    simp only [layout, widthmax_congr hd]

theorem Laid.sized {s : State} (h : Laid s) : Sized s := by
  intro y _
  obtain ⟨hlo, hhi, _⟩ := lineWidth_bounds (s.line y)
  rw [h.width]
  exact ⟨Nat.lt_of_lt_of_le (by decide) hlo, hhi⟩

/-! ## The whole -/

/-- Nothing written since `init`. -/
structure Blank (s : State) : Prop where
  scrollmax : s.scrollmax = 0
  data : ∀ y, y < height → ∀ i, i < virtualWidth → (s.line y).data i = 0x20
  visible : ∀ y, y < height → ∀ x, x < width → (s.line y).visible x = 0x20

/-- What holds at each phase of a write. The panel shows the text from the end
of the repaint on; the alarm may paint only while the parameters are right. -/
def Stage (s : State) : Phase → Prop
  | .idle => s.active = false ∧ (Blank s ∨ Laid s ∧ ∃ p, Painted p s)
  | .text _ => s.active = true
  | .save | .paint _ => s.active = true ∧ Laid s
  | .release _ => s.active = true ∧ Laid s ∧ ∃ p, Painted p s
  | .test _ | .again => s.active = false ∧ Laid s ∧ ∃ p, Painted p s

structure Inv (s : Sys) : Prop where
  ok : Ok s.sp
  mirror : Mirror s.sp
  stage : Stage s.sp s.phase

theorem painted_congr {s t : State} {p : Nat} (h : ∀ y, s.line y = t.line y)
    (hs : Painted p s) : Painted p t := by
  intro y hy x hx
  rw [← h y]
  exact hs y hy x hx

/-- A repaint keeps what the invariant says of the text. -/
theorem ok_congr {s t : State} (h : s.rest = t.rest) (hs : Ok s) : Ok t := by
  have hd : ∀ y, (s.line y).data = (t.line y).data := fun y => (rest_line h y).1
  simp only [State.rest, Prod.mk.injEq] at h
  obtain ⟨_, hy, hesc, _⟩ := h
  exact ⟨hy ▸ hs.y_le, fun y hy => hd y ▸ hs.margin y hy, hesc ▸ hs.escape_le⟩

/-- **The alarm** is defined, and repaints only a panel that is not in use. -/
theorem timeout_spec {s : State} (hs : s.scrollmax = 0 ∨ Sized s) (hm : Mirror s) :
    ∃ t, timeout busy s = some t ∧ t.rest = (scroll s).rest ∧ Mirror t ∧
      (t.line = s.line ∨ s.active = false ∧ Painted t.scrollpos t) := by
  have hm' : Mirror (scroll s) := hm
  by_cases hgo : (scroll s).scrollmax > 0 ∧ (scroll s).active = false
  · have hsized : Sized s := hs.resolve_left fun h0 => by
      have : s.scrollmax > 0 := hgo.1
      omega
    obtain ⟨t, ht, hrest, hmt, hp⟩ := repaint_spec busy (s := scroll s) hsized
    refine ⟨t, (if_pos hgo).trans ht, hrest, hmt hm', .inr ⟨hgo.2, ?_⟩⟩
    simp only [State.rest, Prod.mk.injEq] at hrest
    rw [hrest.2.2.2.1]
    exact hp
  · exact ⟨scroll s, if_neg hgo, rfl, hm', .inl rfl⟩

theorem tick_inv {s : Sys} (hs : Inv s) :
    ∃ t, timeout busy s.sp = some t ∧ Inv ⟨t, s.phase⟩ := by
  obtain ⟨sp, phase⟩ := s
  obtain ⟨hok, hm, hst⟩ := hs
  simp only at hok hm hst
  have hsized : sp.active = false → sp.scrollmax = 0 ∨ Sized sp := by
    intro hact
    cases phase with
    | idle => exact hst.2.imp (·.scrollmax) (·.1.sized)
    | test _ | again => exact .inr hst.2.1.sized
    | text _ => exact absurd (hact.symm.trans hst) Bool.false_ne_true
    | save | paint _ | release _ => exact absurd (hact.symm.trans hst.1) Bool.false_ne_true
  by_cases hact : sp.active = false
  · obtain ⟨t, ht, hrest, hmt, hl⟩ := timeout_spec busy (hsized hact) hm
    have hactive : t.active = false := by
      simp only [State.rest, Prod.mk.injEq] at hrest
      exact hrest.2.2.2.2.2.1.trans hact
    have hscroll : (scroll sp).rest = t.rest := hrest.symm
    have hlaid : Laid sp → Laid t := fun h => laid_congr hscroll ⟨h.width, h.speed, h.scrollmax⟩
    have hpaint : (∃ p, Painted p sp) → ∃ p, Painted p t := by
      rintro ⟨p, hp⟩
      rcases hl with heq | h
      · exact ⟨p, painted_congr (fun y => by rw [heq]) hp⟩
      · exact ⟨_, h.2⟩
    refine ⟨t, ht, ok_congr hscroll ⟨hok.y_le, hok.margin, hok.escape_le⟩, hmt, ?_⟩
    cases phase with
    | idle =>
      refine ⟨hactive, hst.2.imp (fun hb => ?_) (fun h => ⟨hlaid h.1, hpaint h.2⟩)⟩
      -- an untouched panel is not repainted: `scrollmax` is 0
      have hmax : (scroll sp).scrollmax = 0 := hb.scrollmax
      have hnot : ¬ ((scroll sp).scrollmax > 0 ∧ (scroll sp).active = false) := by
        rw [hmax]
        exact fun h => absurd h.1 (Int.lt_irrefl 0)
      have heq : t = scroll sp := Option.some.inj (ht.symm.trans (if_neg hnot))
      subst heq
      exact ⟨hb.scrollmax, hb.data, hb.visible⟩
    | test _ | again => exact ⟨hactive, hlaid hst.2.1, hpaint hst.2.2⟩
    | text _ => exact absurd (hact.symm.trans hst) Bool.false_ne_true
    | save | paint _ | release _ => exact absurd (hact.symm.trans hst.1) Bool.false_ne_true
  · -- while the foreground is active only `scrollpos` changes
    have hnot : ¬ ((scroll sp).scrollmax > 0 ∧ (scroll sp).active = false) := fun h => hact h.2
    refine ⟨scroll sp, if_neg hnot, ⟨hok.y_le, hok.margin, hok.escape_le⟩, hm, ?_⟩
    have hlaid : Laid sp → Laid (scroll sp) := fun h => ⟨h.width, h.speed, h.scrollmax⟩
    cases phase with
    | idle | test _ | again => exact absurd hst.1 hact
    | text _ => exact hst
    | save | paint _ => exact ⟨hst.1, hlaid hst.2⟩
    | release _ => exact ⟨hst.1, hlaid hst.2.1, hst.2.2⟩

theorem foreground_inv {s t : Sys} (hs : Inv s) (h : foreground busy s.sp s.phase = some t) :
    Inv t := by
  obtain ⟨sp, phase⟩ := s
  obtain ⟨hok, hm, hst⟩ := hs
  simp only at hok hm hst h
  cases phase with
  | idle =>
    obtain rfl := Option.some.inj h
    exact ⟨hok, hm, hst⟩
  | text rest =>
    cases rest with
    | nil =>
      obtain rfl := Option.some.inj h
      exact ⟨⟨hok.y_le, hok.margin, hok.escape_le⟩, hm, hst, layout_laid sp⟩
    | cons c rest =>
      obtain ⟨u, hu, rfl⟩ := Option.map_eq_some_iff.mp h
      obtain ⟨he, hou⟩ := putChar_spec busy hok hu
      exact ⟨hou, he.mirror hm, he.alarm.2.2.trans hst⟩
  | save =>
    obtain rfl := Option.some.inj h
    exact ⟨hok, hm, hst⟩
  | paint old =>
    obtain ⟨u, hu, rfl⟩ := Option.map_eq_some_iff.mp h
    obtain ⟨v, hv, hrest, hmv, hp⟩ := repaint_spec busy hst.2.sized
    obtain rfl := Option.some.inj (hu.symm.trans hv)
    refine ⟨ok_congr hrest.symm hok, hmv hm, ?_, laid_congr hrest.symm hst.2, _, hp⟩
    simp only [State.rest, Prod.mk.injEq] at hrest
    exact hrest.2.2.2.2.2.1.trans hst.1
  | release old =>
    obtain rfl := Option.some.inj h
    exact ⟨⟨hok.y_le, hok.margin, hok.escape_le⟩, hm, rfl,
      ⟨hst.2.1.width, hst.2.1.speed, hst.2.1.scrollmax⟩, hst.2.2⟩
  | test old =>
    simp only [foreground] at h
    split_ifs at h
    · obtain rfl := Option.some.inj h
      exact ⟨hok, hm, hst.1, .inr hst.2⟩
    · obtain rfl := Option.some.inj h
      exact ⟨hok, hm, hst⟩
  | again =>
    obtain rfl := Option.some.inj h
    exact ⟨⟨hok.y_le, hok.margin, hok.escape_le⟩, hm, rfl,
      ⟨hst.2.1.width, hst.2.1.speed, hst.2.1.scrollmax⟩⟩

theorem next_inv {s t : Sys} {e : Event} (hs : Inv s) (h : next busy s e = some t) : Inv t := by
  cases e with
  | run => exact foreground_inv busy hs h
  | tick =>
    obtain ⟨u, hu, hinv⟩ := tick_inv busy hs
    simp only [next, hu, Option.map_some] at h
    obtain rfl := Option.some.inj h
    exact hinv
  | write bytes =>
    obtain ⟨sp, phase⟩ := s
    cases phase with
    | idle =>
      obtain rfl := Option.some.inj h
      exact ⟨⟨hs.ok.y_le, hs.ok.margin, hs.ok.escape_le⟩, hs.mirror, rfl⟩
    | text _ | save | paint _ | release _ | test _ | again =>
      obtain rfl := Option.some.inj h
      exact hs

/-- The commands of `init` that follow the clear. -/
theorem writeCommand_mirror {s : State} {c : Byte} (hc : ∀ d : Hd44780, d.command c = d)
    (hs : Mirror s) : Mirror (writeCommand busy s c) := by
  obtain ⟨n, h⟩ | ⟨_, h⟩ := writeCommand_cases busy s c
  · rw [h]
    exact fun hb => nomatch hb
  · rw [h, hc]
    exact hs

theorem init_inv (s : State) : Inv ⟨init busy s, .idle⟩ := by
  obtain ⟨u, hu⟩ : ∃ u, init busy s =
      { writeCommand busy (writeCommand busy (clearScreen busy u) (cmdModes ||| cmdModeInc))
          (cmdOnOff ||| cmdEnableDisp) with
        escape := none, scrollpos := 0, scrollmax := 0, active := false } := ⟨_, rfl⟩
  have hmodes : ∀ d : Hd44780, d.command (cmdModes ||| cmdModeInc) = d := fun _ => rfl
  have hon : ∀ d : Hd44780, d.command (cmdOnOff ||| cmdEnableDisp) = d := fun _ => rfl
  have hm := writeCommand_mirror busy hon
    (writeCommand_mirror busy hmodes (clearScreen_mirror busy u))
  obtain ⟨hrest, hline⟩ :=
    writeCommand_rest busy (clearScreen busy u) (cmdModes ||| cmdModeInc)
  obtain ⟨hrest', hline'⟩ := writeCommand_rest busy
    (writeCommand busy (clearScreen busy u) (cmdModes ||| cmdModeInc)) (cmdOnOff ||| cmdEnableDisp)
  generalize hv : writeCommand busy (writeCommand busy (clearScreen busy u)
    (cmdModes ||| cmdModeInc)) (cmdOnOff ||| cmdEnableDisp) = v at *
  have hl : v.line = (clearScreen busy u).line := hline'.trans hline
  have hy : v.y = 0 := by
    have hrest'' := hrest'.trans hrest
    simp only [State.rest, Prod.mk.injEq] at hrest''
    exact hrest''.2.1
  have hdata : ∀ y i, i < virtualWidth + 1 → (v.line y).data i = 0x20 := fun y i hi => by
    rw [hl]
    exact clearScreen_data busy u y hi
  rw [hu]
  refine ⟨⟨?_, fun y _ => hdata y _ (Nat.lt_succ_self _), by simp⟩, hm, rfl, .inl ⟨rfl, ?_, ?_⟩⟩
  · show v.y ≤ height
    omega
  · exact fun y _ i hi => hdata y i (by omega)
  · intro y _ x hx
    show (v.line y).visible x = 0x20
    rw [hl]
    exact memset_inside _ _ (Nat.zero_le x) (by omega)

/-- The invariant of every run. -/
theorem reached_inv {o : Option Sys} (h : Reached busy o) : ∀ s, o = some s → Inv s := by
  refine Reachable.invariant (fun o => ∀ s, o = some s → Inv s) ?_ ?_ h
  · rintro o ⟨t, rfl⟩ s hs
    obtain rfl := Option.some.inj hs
    exact init_inv busy t
  · intro o e hi t ht
    cases o with
    | none => exact nomatch ht
    | some s => exact next_inv busy (hi s rfl) ht

/-! ## What the panel shows -/

/-- `k` is how far a line has scrolled. A line that fits does not scroll. -/
theorem laid_window {s : State} (hs : Laid s) (p y : Nat) :
    ∃ k, k < lineWidth (s.line y) ∧ (length (s.line y) ≤ width → k = 0) ∧
      ∀ x, window p (s.line y) x = (s.line y).data ((x + k) % lineWidth (s.line y)) := by
  have hpos : 0 < lineWidth (s.line y) :=
    Nat.lt_of_lt_of_le (by decide) (lineWidth_bounds (s.line y)).1
  refine ⟨offset p (s.line y), ?_, fun hlen => ?_, fun x => ?_⟩
  · have := offset_lt p (l := s.line y) (by rw [hs.width]; exact hpos)
    rwa [hs.width] at this
  · have hspeed : (s.line y).speed = 0 := by
      have hfit : lineWidth (s.line y) = width := if_pos hlen
      rw [hs.speed, lineSpeed, hfit]
      split_ifs
      · rfl
      · exact absurd ‹_› (Nat.lt_irrefl _)
      · rfl
    simp [offset, hspeed]
  · rw [window, hs.width]

/-- A panel at rest. -/
theorem idle_panel {s : Sys} (hinv : Inv s) (hidle : s.phase = .idle)
    (hb : s.sp.broken = false) {y : Nat} (hy : y < height) :
    ∃ k, k < lineWidth (s.sp.line y) ∧ (length (s.sp.line y) ≤ width → k = 0) ∧
      ∀ x, x < width → s.sp.panel.ddram (colstart y + x) =
        (s.sp.line y).data ((x + k) % lineWidth (s.sp.line y)) := by
  obtain ⟨_, hm, hst⟩ := hinv
  obtain ⟨_, _, hcells⟩ := hm hb
  rw [hidle] at hst
  rcases hst.2 with hblank | ⟨hlaid, p, hp⟩
  · obtain ⟨hlo, hhi, _⟩ := lineWidth_bounds (s.sp.line y)
    have h16 : width = 16 := rfl
    have h80 : virtualWidth = 80 := rfl
    refine ⟨0, by omega, fun _ => rfl, fun x hx => ?_⟩
    rw [hcells y hy x hx, hblank.visible y hy x hx, Nat.add_zero, Nat.mod_eq_of_lt (by omega),
      hblank.data y hy x (by omega)]
  · obtain ⟨k, hk, hfit, hwin⟩ := laid_window hlaid p y
    refine ⟨k, hk, hfit, fun x hx => ?_⟩
    rw [hcells y hy x hx, hp y hy x hx, hwin]

/-- **The panel shows the text.** When no write is in progress, whatever was
written and whenever the alarm came, a panel that works shows sixteen
consecutive characters of each line, taken as a circle with a blank between its
end and its beginning, and all of a line that fits. -/
theorem panel_shows_text {s : Sys} (h : Reached busy (some s)) (hidle : s.phase = .idle)
    (hb : s.sp.broken = false) {y : Nat} (hy : y < height) :
    ∃ k, k < lineWidth (s.sp.line y) ∧ (length (s.sp.line y) ≤ width → k = 0) ∧
      ∀ x, x < width → s.sp.panel.ddram (colstart y + x) =
        (s.sp.line y).data ((x + k) % lineWidth (s.sp.line y)) :=
  idle_panel (reached_inv busy h s rfl) hidle hb hy

/-- "Hi" and a call of the alarm. -/
def hi : List Event := .write [0x48, 0x69] :: .tick :: List.replicate 7 .run

theorem panel_shows_text_hi : ∃ s, after hi = some s ∧ ∃ k, k < lineWidth (s.sp.line 0) ∧
    (length (s.sp.line 0) ≤ width → k = 0) ∧ ∀ x, x < width →
      s.sp.panel.ddram (colstart 0 + x) =
        (s.sp.line 0).data ((x + k) % lineWidth (s.sp.line 0)) := by
  have hsome : (after hi).isSome = true := by decide +kernel
  refine ⟨(after hi).get hsome, (Option.some_get hsome).symm, ?_⟩
  refine panel_shows_text ready ?_ rfl rfl (by decide)
  rw [Option.some_get hsome]
  exact after_reached hi

/-! ## Returning -/

/-- The steps a write still takes while the alarm is quiet. -/
def left (s : Sys) : Nat :=
  match s.phase with
  | .idle => 0
  | .text rest => rest.length + 5
  | .save => 4
  | .paint old => if s.sp.scrollpos = old then 3 else 8
  | .release old => if s.sp.scrollpos = old then 2 else 7
  | .test old => if s.sp.scrollpos = old then 1 else 6
  | .again => 5

theorem left_run {s t : Sys} (hinv : Inv s) (hbusy : s.phase ≠ .idle)
    (h : next busy s .run = some t) : left t + 1 = left s := by
  obtain ⟨sp, phase⟩ := s
  cases phase with
  | idle => exact absurd rfl hbusy
  | text rest =>
    cases rest with
    | nil =>
      obtain rfl := Option.some.inj h
      rfl
    | cons c rest =>
      obtain ⟨u, _, rfl⟩ := Option.map_eq_some_iff.mp h
      simp [left]
  | save =>
    obtain rfl := Option.some.inj h
    simp [left]
  | paint old =>
    obtain ⟨u, hu, rfl⟩ := Option.map_eq_some_iff.mp h
    obtain ⟨v, hv, hrest, _⟩ := repaint_spec busy hinv.stage.2.sized
    obtain rfl := Option.some.inj (hu.symm.trans hv)
    simp only [State.rest, Prod.mk.injEq] at hrest
    simp only [left, hrest.2.2.2.1]
    split <;> rfl
  | release old =>
    obtain rfl := Option.some.inj h
    simp only [left]
    split <;> rfl
  | test old =>
    simp only [next, foreground] at h
    split_ifs at h with heq <;> obtain rfl := Option.some.inj h <;> simp [left, heq]
  | again =>
    obtain rfl := Option.some.inj h
    rfl

theorem run_none (es : List Event) : run (step busy) none es = none := by
  induction es with
  | nil => rfl
  | cons e es ih => exact ih

theorem returns_of_left {s : Sys} (hinv : Inv s) {n : Nat} (hn : left s ≤ n) :
    run (step busy) (some s) (List.replicate n .run) = none ∨
      ∃ t, run (step busy) (some s) (List.replicate n .run) = some t ∧ t.phase = .idle := by
  induction n generalizing s with
  | zero =>
    refine .inr ⟨s, rfl, ?_⟩
    obtain ⟨sp, phase⟩ := s
    cases phase with
    | idle => rfl
    | text _ | save | again => simp [left] at hn
    | paint _ | release _ | test _ =>
      simp only [left] at hn
      split at hn <;> omega
  | succ n ih =>
    rw [List.replicate_succ, run_cons, step, Option.bind_some]
    cases hnext : next busy s .run with
    | none => exact .inl (run_none busy _)
    | some t =>
      refine ih (next_inv busy hinv hnext) ?_
      by_cases hidle : s.phase = .idle
      · have hsame : t = s := by
          obtain ⟨sp, phase⟩ := s
          simp only at hidle
          subst hidle
          exact (Option.some.inj hnext).symm
        rw [hsame, left, hidle]
        exact Nat.zero_le n
      · have := left_run busy hinv hidle hnext
        omega

/-- **A write returns** once the alarm leaves it alone for as many steps as it
has characters to go and eight more, unless a step of it is undefined. -/
theorem write_returns {s : Sys} (h : Reached busy (some s)) {rest : List Byte}
    (hrest : ∀ cs, s.phase = .text cs → cs = rest) :
    run (step busy) (some s) (List.replicate (rest.length + 8) .run) = none ∨
      ∃ t, run (step busy) (some s) (List.replicate (rest.length + 8) .run) = some t ∧
        t.phase = .idle := by
  refine returns_of_left busy (reached_inv busy h s rfl) ?_
  obtain ⟨sp, phase⟩ := s
  cases phase with
  | text cs =>
    rw [← hrest cs rfl]
    simp [left]
  | idle | save | again => simp [left]
  | paint _ | release _ | test _ =>
    simp only [left]
    split <;> omega

theorem write_returns_hi : ∃ s, after [.write [0x48, 0x69], .run] = some s ∧
    (run (step ready) (some s) (List.replicate (1 + 8) .run) = none ∨
      ∃ t, run (step ready) (some s) (List.replicate (1 + 8) .run) = some t ∧
        t.phase = .idle) := by
  have hsome : (after [.write [0x48, 0x69], .run]).isSome = true := by decide +kernel
  refine ⟨(after [.write [0x48, 0x69], .run]).get hsome, (Option.some_get hsome).symm, ?_⟩
  refine @write_returns ready _ ?_ [0x69] (fun cs hcs => ?_)
  · rw [Option.some_get hsome]
    exact after_reached _
  · have hphase : ((after [.write [0x48, 0x69], .run]).get hsome).phase = .text [0x69] := rfl
    rw [hphase] at hcs
    injection hcs with h
    exact h.symm

/-! ## Undefined behaviour -/

theorem printChar_defined {s : State} (hy : s.y ≤ height) (c : Byte) :
    ∃ t, printChar s c = some t := by
  have hup : (if s.y ≥ height then scrollUp s else s).y < height := by
    have h2 : height = 2 := rfl
    split
    · show s.y - 1 < height
      omega
    · omega
  unfold printChar
  simp only
  generalize (if s.y ≥ height then scrollUp s else s) = u at hup
  by_cases hx : u.x < virtualWidth
  · rw [if_pos hx, if_pos hup]
    exact ⟨_, rfl⟩
  · rw [if_neg hx]
    exact ⟨_, rfl⟩

/-- The characters that end an erase on the line below the screen. -/
def Overruns (s : State) (c : Byte) : Prop :=
  ∃ escape, s.escape = some escape ∧ endsEscape escape c = true ∧ c = 0x4b ∧
    (parms escape).1 < 1 ∧ s.y = height ∧ s.x < virtualWidth

theorem eraseLine_none_iff {s : State} (hy : s.y ≤ height) :
    eraseLine s = none ↔ s.y = height ∧ s.x < virtualWidth := by
  unfold eraseLine
  split_ifs with hx hlt
  · simp [show s.y ≠ height by omega]
  · simp [hx, show s.y = height by omega]
  · simp [hx]

theorem handleEscape_none_iff {s : State} (hy : s.y ≤ height) (escape : List Byte) (c : Byte) :
    handleEscape busy s escape c = none ↔
      c = 0x4b ∧ (parms escape).1 < 1 ∧ s.y = height ∧ s.x < virtualWidth := by
  have hmove : c = 0x48 ∨ c = 0x66 → c ≠ 0x4b := by
    rintro (rfl | rfl) <;> decide
  have hclear : c = 0x4a → c ≠ 0x4b := by
    rintro rfl
    decide
  simp only [handleEscape]
  split_ifs with hH hJ h2 hK h1
  · exact iff_of_false (by simp) (fun h => hmove hH h.1)
  · exact iff_of_false (by simp) (fun h => hclear hJ h.1)
  · exact iff_of_false (by simp) (fun h => hclear hJ h.1)
  · rw [eraseLine_none_iff hy]
    exact ⟨fun h => ⟨hK, h1, h⟩, fun h => h.2.2⟩
  · exact iff_of_false (by simp) (fun h => h1 h.2.1)
  · exact iff_of_false (by simp) (fun h => hK h.1)

theorem putChar_none_iff {s : State} (hs : Ok s) (c : Byte) :
    putChar busy s c = none ↔ Overruns s c := by
  unfold putChar Overruns
  cases hesc : s.escape with
  | some escape =>
    simp only
    split_ifs with hend hroom
    · rw [Option.map_eq_none_iff, handleEscape_none_iff busy hs.y_le]
      simp [hend]
    · simp [hend]
    · simp [hend]
  | none =>
    obtain ⟨t, ht⟩ := printChar_defined hs.y_le c
    simp only [ht]
    split_ifs <;> simp

/-- Two lines, then `ESC K`. -/
def eraseBelow : List Event :=
  .write [0x41, 0x0a, 0x42, 0x0a, 27, 0x4b] :: List.replicate 5 .run

end Panel

end FpgaLabs.Hal.Lcd
