import FpgaLabs.Hal.Lcd16207

/-! The panel side of the driver: panel and `visible` stay in step, and a
repaint shows a window of the text. -/

namespace FpgaLabs.Hal.Lcd
open Sync

section Panel
variable (busy : Nat → Bool)

/-! ## The panel mirrors `visible` -/

/-- The panel shows `visible` and is addressed as the driver thinks. -/
def Mirror (s : State) : Prop :=
  s.broken = false → s.panel.cgram = false ∧ s.panel.address = s.address ∧
    ∀ y, y < height → ∀ x, x < width → s.panel.ddram (colstart y + x) = (s.line y).visible x

/-- A command either reaches the panel or finds it broken. -/
theorem writeCommand_cases (s : State) (c : Byte) :
    (∃ n, writeCommand busy s c = { s with broken := true, waits := n }) ∨
    (s.broken = false ∧
      writeCommand busy s c = { s with panel := s.panel.command c, waits := s.waits + 1 }) := by
  unfold writeCommand
  cases hb : s.broken with
  | true => exact .inl ⟨s.waits, by rw [if_pos rfl, ← hb]⟩
  | false =>
    rw [if_neg Bool.false_ne_true]
    cases busy s.waits with
    | true => exact .inl ⟨s.waits + 1, if_pos rfl⟩
    | false => exact .inr ⟨rfl, if_neg Bool.false_ne_true⟩

theorem writeData_cases (s : State) (c : Byte) :
    (∃ n, writeData busy s c = { s with broken := true, waits := n }) ∨
    (s.broken = false ∧ writeData busy s c =
      { s with waits := s.waits + 1, panel := s.panel.data c, address := s.address + 1 }) := by
  unfold writeData
  cases hb : s.broken with
  | true => exact .inl ⟨s.waits, by rw [if_pos rfl, ← hb]⟩
  | false =>
    rw [if_neg Bool.false_ne_true]
    cases busy s.waits with
    | true => exact .inl ⟨s.waits + 1, if_pos rfl⟩
    | false => exact .inr ⟨rfl, if_neg Bool.false_ne_true⟩

/-- All that the panel routines leave alone. -/
def State.rest (s : State) : Nat × Nat × Option (List Byte) × Nat × Int × Bool ×
    (Nat → (Nat → Byte) × Nat × Nat) :=
  (s.x, s.y, s.escape, s.scrollpos, s.scrollmax, s.active,
    fun y => ((s.line y).data, (s.line y).width, (s.line y).speed))

theorem writeCommand_rest (s : State) (c : Byte) :
    (writeCommand busy s c).rest = s.rest ∧ (writeCommand busy s c).line = s.line := by
  obtain ⟨n, h⟩ | ⟨_, h⟩ := writeCommand_cases busy s c <;> rw [h] <;> exact ⟨rfl, rfl⟩

theorem setVisible_rest (s : State) (y x : Nat) (c : Byte) :
    (setVisible s y x c).rest = s.rest := by
  simp only [State.rest, setVisible, Prod.mk.injEq, true_and]
  funext z
  by_cases hz : z = y
  · subst hz
    simp
  · simp [hz]

/-- The address command of a cell. -/
theorem address_command {y x : Nat} (hy : y < height) (hx : x < width) (d : Hd44780) :
    d.command (cmdWriteData ||| BitVec.ofNat 8 (x + colstart y)) =
      { d with address := colstart y + x, cgram := false } := by
  have hc : (cmdWriteData ||| BitVec.ofNat 8 (x + colstart y)).toNat = 0x80 + (colstart y + x) := by
    have hall : ∀ y : Fin 2, ∀ x : Fin 16,
        (cmdWriteData ||| BitVec.ofNat 8 (x.1 + colstart y.1)).toNat =
          0x80 + (colstart y.1 + x.1) := by decide
    exact hall ⟨y, hy⟩ ⟨x, hx⟩
  have hw : d.command (cmdWriteData ||| BitVec.ofNat 8 (x + colstart y)) = _ :=
    d.write_address (by omega)
  rw [hw, hc, Nat.add_sub_cancel_left]

/-- Different cells are at different addresses. -/
theorem address_inj {y x y' x' : Nat} (hy : y < height) (hx : x < width) (hy' : y' < height)
    (hx' : x' < width) (h : colstart y + x = colstart y' + x') : y = y' ∧ x = x' := by
  have hall : ∀ y : Fin 2, colstart y.1 = 0x40 * y.1 := by decide
  have h1 := hall ⟨y, hy⟩
  have h2 := hall ⟨y', hy'⟩
  simp only [width] at *
  omega

/-- A cell that is written: what `visible` says of it, and the panel. -/
theorem putCell_spec {s : State} {y x : Nat} (c : Byte) (hy : y < height) (hx : x < width) :
    (putCell busy s y x c).rest = s.rest ∧
    (putCell busy s y x c).line = (setVisible s y x c).line ∧
    (Mirror s → Mirror (putCell busy s y x c)) := by
  -- the state once the panel is at the address of the cell
  obtain ⟨t, hput, hrest, hline, hpanel⟩ : ∃ t : State,
      putCell busy s y x c = setVisible (writeData busy t c) y x c ∧ t.rest = s.rest ∧
      t.line = s.line ∧ (Mirror s → t.broken = false → t.address = colstart y + x ∧
        t.panel = { s.panel with address := colstart y + x, cgram := false } ∧
        s.broken = false) := by
    by_cases ha : x + colstart y = s.address
    · refine ⟨s, by simp [putCell, ha], rfl, rfl, fun hm hb => ?_⟩
      obtain ⟨hcg, had, _⟩ := hm hb
      refine ⟨by omega, ?_, hb⟩
      have hx' : colstart y + x = s.panel.address := by omega
      rw [hx', ← hcg]
    · have hw := writeCommand_rest busy s (cmdWriteData ||| BitVec.ofNat 8 (x + colstart y))
      refine ⟨{ writeCommand busy s (cmdWriteData ||| BitVec.ofNat 8 (x + colstart y)) with
          address := x + colstart y }, by simp [putCell, ha], hw.1, hw.2, fun _ hb => ?_⟩
      obtain ⟨n, h⟩ | ⟨hsb, h⟩ :=
        writeCommand_cases busy s (cmdWriteData ||| BitVec.ofNat 8 (x + colstart y))
      · rw [h] at hb
        cases hb
      · rw [h, address_command hy hx]
        exact ⟨Nat.add_comm _ _, rfl, hsb⟩
  rw [hput]
  obtain ⟨n, h⟩ | ⟨htb, h⟩ := writeData_cases busy t c
  · rw [h]
    refine ⟨(setVisible_rest _ y x c).trans hrest, ?_, fun _ hb => ?_⟩
    · simp only [setVisible, hline]
    · cases hb
  · rw [h]
    refine ⟨(setVisible_rest _ y x c).trans hrest, ?_, fun hm _ => ?_⟩
    · simp only [setVisible, hline]
    · obtain ⟨hta, htp, hsb⟩ := hpanel hm htb
      obtain ⟨_, _, hcells⟩ := hm hsb
      simp only [setVisible, hline, htp, Hd44780.data, hta, Bool.false_eq_true, ↓reduceIte]
      refine ⟨trivial, trivial, fun y' hy' x' hx' => ?_⟩
      by_cases hyx : y' = y ∧ x' = x
      · obtain ⟨rfl, rfl⟩ := hyx
        simp
      · have hne : colstart y' + x' ≠ colstart y + x := fun heq =>
          hyx (address_inj hy' hx' hy hx heq)
        rw [Function.update_of_ne hne, hcells y' hy' x' hx']
        by_cases hyy : y' = y
        · subst hyy
          have hxx : x' ≠ x := fun heq => hyx ⟨rfl, heq⟩
          simp [hxx]
        · simp [hyy]

/-! ## Repainting -/

theorem offset_lt (p : Nat) {l : Line} (h : 0 < l.width) : offset p l < l.width := by
  unfold offset
  split_ifs <;> omega

/-- What a line shows at scroll position `p`. -/
def window (p : Nat) (l : Line) (x : Nat) : Byte := l.data ((x + offset p l) % l.width)

/-- The lines have a width, at most the cells of `data`. -/
def Sized (s : State) : Prop :=
  ∀ y, y < height → 0 < (s.line y).width ∧ (s.line y).width ≤ virtualWidth + 1

theorem glyph_eq (p : Nat) {l : Line} (x : Nat) (h : 0 < l.width)
    (h' : l.width ≤ virtualWidth + 1) : glyph p l x = some (window p l x) := by
  have hlt : (x + offset p l) % l.width < l.width := Nat.mod_lt _ h
  unfold glyph
  rw [if_neg (by omega)]
  exact if_pos (by omega)

theorem rest_line {s t : State} (h : s.rest = t.rest) (y : Nat) :
    (s.line y).data = (t.line y).data ∧ (s.line y).width = (t.line y).width ∧
      (s.line y).speed = (t.line y).speed := by
  simp only [State.rest, Prod.mk.injEq] at h
  have hy := congrFun h.2.2.2.2.2.2 y
  simpa only [Prod.mk.injEq] using hy

theorem window_congr {s t : State} (h : s.rest = t.rest) (p y : Nat) :
    window p (s.line y) = window p (t.line y) := by
  obtain ⟨hd, hw, hs⟩ := rest_line h y
  funext x
  simp only [window, offset, hd, hw, hs]

theorem sized_congr {s t : State} (h : s.rest = t.rest) (hs : Sized s) : Sized t := by
  intro y hy
  rw [← (rest_line h y).2.1]
  exact hs y hy

/-- One cell painted. -/
theorem paintCell_spec (p : Nat) {s : State} (hs : Sized s) {y x : Nat} (hy : y < height)
    (hx : x < width) : ∃ t, paintCell busy p s (y, x) = some t ∧ t.rest = s.rest ∧
      t.line = (setVisible s y x (window p (s.line y) x)).line ∧ (Mirror s → Mirror t) := by
  unfold paintCell
  rw [glyph_eq p x (hs y hy).1 (hs y hy).2, Option.map_some]
  by_cases hc : (s.line y).visible x = window p (s.line y) x
  · refine ⟨s, by rw [if_neg (fun h => h hc)], rfl, ?_, id⟩
    simp [setVisible, ← hc]
  · rw [if_pos hc]
    obtain ⟨hrest, hline, hm⟩ := putCell_spec busy (s := s) (window p (s.line y) x) hy hx
    exact ⟨_, rfl, hrest, hline, hm⟩

theorem setVisible_visible (s : State) (y x : Nat) (c : Byte) (y' x' : Nat) :
    ((setVisible s y x c).line y').visible x' =
      if y' = y ∧ x' = x then c else (s.line y').visible x' := by
  by_cases hy : y' = y
  · subst hy
    by_cases hx : x' = x
    · subst hx
      simp [setVisible]
    · simp [setVisible, hx]
  · simp [setVisible, hy]

/-- A run of cells painted. -/
theorem paint_spec (p : Nat) {s : State} (hs : Sized s) (cs : List (Nat × Nat))
    (hcs : ∀ c ∈ cs, c.1 < height ∧ c.2 < width) :
    ∃ t, cs.foldlM (paintCell busy p) s = some t ∧ t.rest = s.rest ∧ (Mirror s → Mirror t) ∧
      ∀ y x, (t.line y).visible x =
        if (y, x) ∈ cs then window p (s.line y) x else (s.line y).visible x := by
  induction cs generalizing s with
  | nil => exact ⟨s, rfl, rfl, id, fun _ _ => by simp⟩
  | cons c cs ih =>
    obtain ⟨y, x⟩ := c
    have hc := hcs (y, x) (List.mem_cons_self ..)
    obtain ⟨t, ht, hrest, hline, hm⟩ := paintCell_spec busy p hs hc.1 hc.2
    obtain ⟨u, hu, hrest', hm', hvis⟩ :=
      ih (sized_congr hrest.symm hs) (fun c h => hcs c (List.mem_cons_of_mem _ h))
    refine ⟨u, ?_, hrest'.trans hrest, fun h => hm' (hm h), fun y' x' => ?_⟩
    · rw [List.foldlM_cons, ht]
      exact hu
    · rw [hvis y' x', window_congr hrest, hline, setVisible_visible]
      by_cases hin : (y', x') ∈ cs
      · simp [hin]
      · by_cases hyx : y' = y ∧ x' = x
        · obtain ⟨rfl, rfl⟩ := hyx
          simp
        · simp [hin, hyx, Prod.mk.injEq]

theorem mem_cells (y x : Nat) : (y, x) ∈ cells ↔ y < height ∧ x < width := by
  simp [cells]

/-- `visible` is the window at `p`. -/
def Painted (p : Nat) (s : State) : Prop :=
  ∀ y, y < height → ∀ x, x < width → (s.line y).visible x = window p (s.line y) x

/-- **A repaint** is defined, shows the window at the scroll position and leaves
everything but the panel alone. -/
theorem repaint_spec {s : State} (hs : Sized s) :
    ∃ t, repaintScreen busy s = some t ∧ t.rest = s.rest ∧ (Mirror s → Mirror t) ∧
      Painted s.scrollpos t := by
  obtain ⟨t, ht, hrest, hm, hvis⟩ := paint_spec busy s.scrollpos hs cells
    (fun c h => (mem_cells c.1 c.2).mp h)
  refine ⟨t, ht, hrest, hm, fun y hy x hx => ?_⟩
  rw [hvis y x, if_pos ((mem_cells y x).mpr ⟨hy, hx⟩), window_congr hrest]

/-! ## Editing -/

theorem memcpy_outside (dst src : Nat → Byte) {n i : Nat} (h : n ≤ i) :
    memcpy dst src n i = dst i := if_neg (by omega)

theorem memset_outside (dst : Nat → Byte) (c : Byte) {off n i : Nat}
    (h : i < off ∨ off + n ≤ i) : memset dst off c n i = dst i := if_neg (by omega)

theorem memset_inside (dst : Nat → Byte) (c : Byte) {off n i : Nat} (h : off ≤ i)
    (h' : i < off + n) : memset dst off c n i = c := if_pos ⟨h, h'⟩

/-- What an edit of the text keeps: the panel in step with `visible`, the cell
past the end of each line blank, and what the alarm works on. -/
structure Edit (s t : State) : Prop where
  mirror : Mirror s → Mirror t
  margin : (∀ y, y < height → (s.line y).data virtualWidth = 0x20) →
    ∀ y, y < height → (t.line y).data virtualWidth = 0x20
  alarm : t.scrollpos = s.scrollpos ∧ t.scrollmax = s.scrollmax ∧ t.active = s.active

theorem Edit.refl (s : State) : Edit s s := ⟨id, id, rfl, rfl, rfl⟩

theorem Edit.trans {s t u : State} (h : Edit s t) (h' : Edit t u) : Edit s u :=
  ⟨fun hm => h'.mirror (h.mirror hm), fun hm => h'.margin (h.margin hm),
    h'.alarm.1.trans h.alarm.1, h'.alarm.2.1.trans h.alarm.2.1, h'.alarm.2.2.trans h.alarm.2.2⟩

/-- The fields that `Edit` looks at, unchanged. -/
theorem Edit.of_eq {s t : State} (h : (t.broken, t.panel, t.address, t.line, t.scrollpos,
    t.scrollmax, t.active) =
      (s.broken, s.panel, s.address, s.line, s.scrollpos, s.scrollmax, s.active)) : Edit s t := by
  simp only [Prod.mk.injEq] at h
  obtain ⟨hb, hp, ha, hl, hpos, hmax, hact⟩ := h
  refine ⟨fun hm hbr => ?_, fun hm y hy => ?_, hpos, hmax, hact⟩
  · rw [hp, ha, hl]
    exact hm (hb ▸ hbr)
  · rw [hl]
    exact hm y hy

/-- New text, the blank past its end kept. -/
theorem Edit.of_data {s t : State} (hb : t.broken = s.broken) (hp : t.panel = s.panel)
    (ha : t.address = s.address) (hv : ∀ y, (t.line y).visible = (s.line y).visible)
    (hd : (∀ y, y < height → (s.line y).data virtualWidth = 0x20) →
      ∀ y, y < height → (t.line y).data virtualWidth = 0x20)
    (hal : t.scrollpos = s.scrollpos ∧ t.scrollmax = s.scrollmax ∧ t.active = s.active) :
    Edit s t := by
  refine ⟨fun hm hbr => ?_, hd, hal⟩
  obtain ⟨hcg, had, hcells⟩ := hm (hb ▸ hbr)
  rw [hp, ha]
  exact ⟨hcg, had, fun y hy x hx => by rw [hv, hcells y hy x hx]⟩

/-- A clear puts panel and `visible` in step. -/
theorem clearScreen_mirror (s : State) : Mirror (clearScreen busy s) := by
  intro hb
  obtain ⟨n, h⟩ | ⟨_, h⟩ := writeCommand_cases busy s cmdClear
  · rw [clearScreen, h] at hb
    cases hb
  · rw [clearScreen, h]
    refine ⟨rfl, rfl, fun y hy x hx => ?_⟩
    exact (memset_inside _ _ (Nat.zero_le x) (by omega)).symm

theorem clearScreen_data (s : State) (y : Nat) {i : Nat} (hi : i < virtualWidth + 1) :
    ((clearScreen busy s).line y).data i = 0x20 :=
  memset_inside _ _ (Nat.zero_le i) (by omega)

theorem clearScreen_edit (s : State) : Edit s (clearScreen busy s) := by
  refine ⟨fun _ => clearScreen_mirror busy s,
    fun _ y _ => clearScreen_data busy s y (by decide), ?_⟩
  have hrest := (writeCommand_rest busy s cmdClear).1
  simp only [State.rest, Prod.mk.injEq] at hrest
  obtain ⟨_, _, _, hpos, hmax, hact, _⟩ := hrest
  exact ⟨hpos, hmax, hact⟩

theorem scrollUp_data (s : State) (y : Nat) :
    ((scrollUp s).line y).data =
      if y < height - 1 then memcpy (s.line y).data (s.line (y + 1)).data virtualWidth
      else memset (s.line y).data 0 0x20 virtualWidth := by
  simp only [scrollUp]
  split <;> rfl

theorem scrollUp_edit (s : State) : Edit s (scrollUp s) := by
  refine Edit.of_data rfl rfl rfl (fun y => ?_) (fun hm y hy => ?_) ⟨rfl, rfl, rfl⟩
  · simp only [scrollUp]
    split <;> rfl
  · rw [scrollUp_data]
    split
    · rw [memcpy_outside _ _ (Nat.le_refl _), hm y hy]
    · rw [memset_outside _ _ (.inr (by omega)), hm y hy]

/-- `scrollUp` is all that a cursor move does to the text. -/
theorem scrollUps_edit (n : Nat) (s : State) :
    Edit s (scrollUp^[n] s) ∧ (scrollUp^[n] s).y = s.y - n := by
  induction n generalizing s with
  | zero => exact ⟨Edit.refl s, rfl⟩
  | succ n ih =>
    obtain ⟨he, hy⟩ := ih (scrollUp s)
    rw [Function.iterate_succ_apply]
    refine ⟨(scrollUp_edit s).trans he, ?_⟩
    have hone : (scrollUp s).y = s.y - 1 := rfl
    omega

theorem moveCursor_edit (s : State) (parm1 : Int) (parm2 : Nat) :
    Edit s (moveCursor s parm1 parm2) ∧
      (s.y ≤ height → (moveCursor s parm1 parm2).y ≤ height) := by
  obtain ⟨x, hx⟩ : ∃ x, (if 0 < parm2 then { s with x := (parm2 - 1) % 256 } else s) =
      { s with x := x } := by
    by_cases h : 0 < parm2
    · exact ⟨_, if_pos h⟩
    · exact ⟨s.x, if_neg h⟩
  simp only [moveCursor, hx]
  split_ifs
  · obtain ⟨he, hy⟩ := scrollUps_edit (min ((parm1.toNat - 1) % 256) (height * 2) - height)
      { s with x := x, y := min ((parm1.toNat - 1) % 256) (height * 2) }
    have hto : Edit s
        { s with x := x, y := min ((parm1.toNat - 1) % 256) (height * 2) } := Edit.of_eq rfl
    refine ⟨hto.trans he, fun _ => ?_⟩
    rw [hy]
    simp only
    omega
  · exact ⟨Edit.of_eq rfl, id⟩

/-- Text written into one line, short of the cell past its end. -/
theorem edit_line (s : State) (y x : Nat) (data : Nat → Byte)
    (h : data virtualWidth = (s.line y).data virtualWidth) :
    Edit s { s with x := x, line := Function.update s.line y { s.line y with data := data } } := by
  refine Edit.of_data rfl rfl rfl (fun z => ?_) (fun hm z hz => ?_) ⟨rfl, rfl, rfl⟩
  · by_cases hzy : z = y
    · subst hzy
      simp
    · simp [hzy]
  · by_cases hzy : z = y
    · subst hzy
      simp [h, hm z hz]
    · simp [hzy, hm z hz]

theorem eraseLine_edit {s t : State} (h : eraseLine s = some t) : Edit s t ∧ t.y = s.y := by
  unfold eraseLine at h
  split_ifs at h with hx hy
  · obtain rfl := Option.some.inj h
    exact ⟨edit_line s s.y s.x _ (memset_outside _ _ (.inr (by omega))), rfl⟩
  · obtain rfl := Option.some.inj h
    exact ⟨Edit.refl s, rfl⟩

theorem printChar_edit {s t : State} {c : Byte} (h : printChar s c = some t) :
    Edit s t ∧ t.y = (if s.y ≥ height then scrollUp s else s).y := by
  have hup : Edit s (if s.y ≥ height then scrollUp s else s) := by
    split
    · exact scrollUp_edit s
    · exact Edit.refl s
  generalize hu : (if s.y ≥ height then scrollUp s else s) = u at hup
  simp only [printChar, hu] at h
  split_ifs at h with hx hy
  · obtain rfl := Option.some.inj h
    refine ⟨hup.trans (edit_line u u.y _ _ (Function.update_of_ne ?_ _ _)), rfl⟩
    omega
  · obtain rfl := Option.some.inj h
    exact ⟨hup.trans (Edit.of_eq rfl), rfl⟩

theorem printChar_escape {s t : State} {c : Byte} (h : printChar s c = some t) :
    t.escape = s.escape := by
  have hup : (if s.y ≥ height then scrollUp s else s).escape = s.escape := by
    split <;> rfl
  generalize hu : (if s.y ≥ height then scrollUp s else s) = u at hup
  simp only [printChar, hu] at h
  split_ifs at h <;> obtain rfl := Option.some.inj h <;> exact hup

/-- What is true of cursor, text and escape sequence between two characters. -/
structure Ok (s : State) : Prop where
  y_le : s.y ≤ height
  margin : ∀ y, y < height → (s.line y).data virtualWidth = 0x20
  escape_le : ∀ escape, s.escape = some escape → escape.length ≤ 7

theorem handleEscape_edit {s t : State} {escape : List Byte} {c : Byte} (hy : s.y ≤ height)
    (h : handleEscape busy s escape c = some t) : Edit s t ∧ t.y ≤ height := by
  simp only [handleEscape] at h
  split_ifs at h
  · obtain rfl := Option.some.inj h
    obtain ⟨he, hle⟩ := moveCursor_edit s (parms escape).1 (parms escape).2
    exact ⟨he, hle hy⟩
  · obtain rfl := Option.some.inj h
    exact ⟨clearScreen_edit busy s, Nat.zero_le _⟩
  · obtain rfl := Option.some.inj h
    exact ⟨Edit.refl s, hy⟩
  · obtain ⟨he, hye⟩ := eraseLine_edit h
    exact ⟨he, hye ▸ hy⟩
  · obtain rfl := Option.some.inj h
    exact ⟨Edit.refl s, hy⟩
  · obtain rfl := Option.some.inj h
    exact ⟨Edit.refl s, hy⟩

/-- One character. -/
theorem putChar_spec {s t : State} {c : Byte} (hs : Ok s) (h : putChar busy s c = some t) :
    Edit s t ∧ Ok t := by
  -- the escape sequence apart
  have hok : ∀ {u : State}, Edit s u → u.y ≤ height →
      (∀ escape, u.escape = some escape → escape.length ≤ 7) → Edit s u ∧ Ok u :=
    fun he hy hesc => ⟨he, hy, he.margin hs.margin, hesc⟩
  unfold putChar at h
  cases hesc : s.escape with
  | some escape =>
    simp only [hesc] at h
    split_ifs at h with hend hroom
    · obtain ⟨u, hu, rfl⟩ := Option.map_eq_some_iff.mp h
      obtain ⟨he, hy⟩ := handleEscape_edit busy hs.y_le hu
      exact hok (he.trans (Edit.of_eq rfl)) hy (fun _ h => nomatch h)
    · obtain rfl := Option.some.inj h
      refine hok (Edit.of_eq rfl) hs.y_le fun e he => ?_
      obtain rfl := Option.some.inj he
      rw [List.length_append, List.length_singleton]
      omega
    · obtain rfl := Option.some.inj h
      exact ⟨Edit.refl s, hs⟩
  | none =>
    have hnone : ∀ e, (none : Option (List Byte)) = some e → e.length ≤ 7 := nofun
    simp only [hesc] at h
    have hy := hs.y_le
    split_ifs at h with hE hR hN hlast hB hx hP
    · obtain rfl := Option.some.inj h
      refine hok (Edit.of_eq rfl) hy fun e he => ?_
      obtain rfl := Option.some.inj he
      exact Nat.zero_le 7
    · obtain rfl := Option.some.inj h
      exact hok (Edit.of_eq rfl) hy hnone
    · obtain rfl := Option.some.inj h
      have hdown : Edit s { s with x := 0, y := s.y + 1, escape := none } := Edit.of_eq rfl
      exact hok (hdown.trans (scrollUp_edit _)) hy hnone
    · obtain rfl := Option.some.inj h
      exact hok (Edit.of_eq rfl) (Nat.not_lt.mp hlast) hnone
    · obtain rfl := Option.some.inj h
      exact hok (Edit.of_eq rfl) hy hnone
    · obtain rfl := Option.some.inj h
      exact ⟨Edit.refl s, hs⟩
    · obtain ⟨he, hye⟩ := printChar_edit h
      refine hok he ?_ (fun e he => ?_)
      · rw [hye]
        split
        · exact Nat.le_trans (Nat.sub_le _ _) hy
        · exact hy
      · rw [printChar_escape h, hesc] at he
        exact hnone e he
    · obtain rfl := Option.some.inj h
      exact ⟨Edit.refl s, hs⟩

end Panel

end FpgaLabs.Hal.Lcd
