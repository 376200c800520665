import WeirdOs.Clib.Stdio
import WeirdOs.Drivers.Vga

/-!
# `Drivers.Correctness.Vga` — the screen shows the last rows of a terminal

`ShowsTerminal s t` relates the driver to `Lib.Terminal`: the cells are the window of 24 rows, the line and
column numbers say where the terminal writes, and the pointer and the cursor say the same. `cleark`
establishes it with an empty terminal, and every byte keeps it (`kputchar_shows`). In between, at column 80,
the pointer is at the start of the next row and in the last row past the end of the screen, but nothing is
written there: the next byte starts a new row first.
-/

namespace WeirdOs

open Lib

variable {s : Screen} {t : Terminal UInt8} {n i j : Nat} {c : UInt8}

/-! ## The relation -/

/-- A byte for `kputchar`, as input for a terminal. -/
def vgaInput (c : UInt8) : TerminalInput UInt8 :=
  if c = 10 then .newline else if c = 13 then .carriageReturn else .char c

/-- The two bytes of a cell. -/
def vgaCell : Option UInt8 → UInt8 × UInt8
  | some c => (c, 0x0f)
  | none   => (0, 0)

/-- The two bytes of cell `j` of row `i`. -/
def cellAt (m : Mem) (i j : Nat) : UInt8 × UInt8 :=
  (m (VIDEO_BUFFER + (160 * i + 2 * j)), m (VIDEO_BUFFER + (160 * i + 2 * j + 1)))

/-- **The screen shows a terminal.** -/
structure ShowsTerminal (s : Screen) (t : Terminal UInt8) : Prop where
  cells : ∀ i j, i < 24 → j < 80 → cellAt s.mem i j = vgaCell (t.window 24 i j)
  line : s.lineNumber = t.line 24
  column : s.columnNumber = t.column
  cursor : s.cursor = 80 * s.lineNumber + s.columnNumber
  vbuf : s.vbuf = VIDEO_BUFFER + 2 * (80 * s.lineNumber + s.columnNumber)

/-- An address that is not on the screen. -/
def OffScreen (a : Nat) : Prop := a < VIDEO_BUFFER ∨ VIDEO_BUFFER + screenSize ≤ a

/-! ## The cursor -/

theorem setCursor_eq (s : Screen) (offset : Nat) : s.setCursor offset = { s with
    selected := 15
    registers := Function.update
      (Function.update s.registers 14 (UInt8.ofNat (offset / 256))) 15 (UInt8.ofNat offset) } := rfl

@[simp] theorem placeCursor_mem (s : Screen) : s.placeCursor.mem = s.mem := by
  unfold Screen.placeCursor
  rw [setCursor_eq]

@[simp] theorem placeCursor_lineNumber (s : Screen) : s.placeCursor.lineNumber = s.lineNumber := by
  unfold Screen.placeCursor
  rw [setCursor_eq]

@[simp] theorem placeCursor_columnNumber (s : Screen) : s.placeCursor.columnNumber = s.columnNumber := by
  unfold Screen.placeCursor
  rw [setCursor_eq]

theorem setCursor_cursor {offset : Nat} (h : offset < 65536) : (s.setCursor offset).cursor = offset := by
  rw [setCursor_eq]
  unfold Screen.cursor
  dsimp only
  rw [Function.update_self, Function.update_of_ne (by decide), Function.update_self,
    UInt8.toNat_ofNat', UInt8.toNat_ofNat']
  omega

theorem placeCursor_cursor (hl : s.lineNumber < 24) (hc : s.columnNumber ≤ 80) :
    s.placeCursor.cursor = 80 * s.lineNumber + s.columnNumber := by
  have hoffset : add32 (SCREEN_WIDTH * s.lineNumber) s.columnNumber % 65536 =
      80 * s.lineNumber + s.columnNumber := by
    unfold SCREEN_WIDTH
    rw [add32_of_lt (by omega)]
    omega
  unfold Screen.placeCursor
  rw [hoffset]
  exact setCursor_cursor (s := s) (by omega)

theorem placeCursor_vbuf (hl : s.lineNumber < 24) (hc : s.columnNumber ≤ 80) :
    s.placeCursor.vbuf = VIDEO_BUFFER + 2 * (80 * s.lineNumber + s.columnNumber) := by
  unfold Screen.placeCursor
  rw [setCursor_eq]
  unfold VIDEO_BUFFER SCREEN_WIDTH
  dsimp only
  rw [add32_of_lt (a := 0xc00b8000) (by omega), add32_of_lt (by omega)]
  omega

/-- **The cursor is in place**: on the screen, or right behind one of its rows. -/
structure Placed (s : Screen) : Prop where
  line : s.lineNumber < 24
  column : s.columnNumber ≤ 80
  vbuf : s.vbuf = VIDEO_BUFFER + 2 * (80 * s.lineNumber + s.columnNumber)

theorem placed_placeCursor (hl : s.lineNumber < 24) (hc : s.columnNumber ≤ 80) : Placed s.placeCursor := by
  refine ⟨?_, ?_, ?_⟩
  · rwa [placeCursor_lineNumber]
  · rwa [placeCursor_columnNumber]
  · rw [placeCursor_vbuf hl hc, placeCursor_lineNumber, placeCursor_columnNumber]

theorem ShowsTerminal.placed (h : ShowsTerminal s t) (hc : t.column ≤ 80) : Placed s := by
  have hline := h.line
  unfold Terminal.line Terminal.top at hline
  exact ⟨by omega, h.column ▸ hc, h.vbuf⟩

/-- What is shown after the cursor is placed. -/
theorem shows_placeCursor (hcells : ∀ i j, i < 24 → j < 80 → cellAt s.mem i j = vgaCell (t.window 24 i j))
    (hline : s.lineNumber = t.line 24) (hcolumn : s.columnNumber = t.column) (hc : t.column ≤ 80) :
    ShowsTerminal s.placeCursor t := by
  have hl : s.lineNumber < 24 := by
    rw [hline]
    unfold Terminal.line Terminal.top
    omega
  have hc' : s.columnNumber ≤ 80 := by omega
  refine ⟨?_, ?_, ?_, ?_, ?_⟩
  · intro i j hi hj
    rw [placeCursor_mem, hcells i j hi hj]
  · rw [placeCursor_lineNumber, hline]
  · rw [placeCursor_columnNumber, hcolumn]
  · rw [placeCursor_cursor hl hc', placeCursor_lineNumber, placeCursor_columnNumber]
  · rw [placeCursor_vbuf hl hc', placeCursor_lineNumber, placeCursor_columnNumber]

/-! ## Writing -/

theorem checkScreen_ok {a : Nat} (ha : VIDEO_BUFFER ≤ a) (hn : a + n ≤ VIDEO_BUFFER + screenSize) :
    checkScreen a n = .ok () := if_pos ⟨ha, hn⟩

theorem store_ok {a : Nat} (ha : VIDEO_BUFFER ≤ a) (hn : a + 1 ≤ VIDEO_BUFFER + screenSize) :
    s.store a c = .ok { s with mem := store8 s.mem a c } := by
  unfold Screen.store
  rw [checkScreen_ok ha hn, ok_bind, pure_eq_ok]

theorem rowAddr_eq (h : i ≤ 24) : Screen.rowAddr i = VIDEO_BUFFER + 160 * i := by
  unfold Screen.rowAddr VIDEO_BUFFER SCREEN_WIDTH
  rw [add32_of_lt (by omega)]
  omega

/-- The first loop of `scroll_lines(1)` moves the rows it has reached up by one. -/
theorem scrollCopy_spec (hn : n ≤ 23) : ∃ m, s.scrollCopy 1 n = .ok { s with mem := m } ∧
    (∀ x, x < 160 * n → m (VIDEO_BUFFER + x) = s.mem (VIDEO_BUFFER + x + 160)) ∧
    ∀ a, a < VIDEO_BUFFER ∨ VIDEO_BUFFER + 160 * n ≤ a → m a = s.mem a := by
  induction n with
  | zero => exact ⟨s.mem, rfl, fun x hx => absurd hx (by omega), fun _ _ => rfl⟩
  | succ n ih =>
      obtain ⟨m, hrun, hmoved, hkeep⟩ := ih (by omega)
      have hwidth : SCREEN_WIDTH * 2 = 160 := rfl
      have hsrc : Screen.rowAddr (1 + n) = VIDEO_BUFFER + 160 * n + 160 := by
        rw [rowAddr_eq (by omega)]
        omega
      have hdest : sub32 (VIDEO_BUFFER + 160 * n + 160) (2 * SCREEN_WIDTH) = VIDEO_BUFFER + 160 * n := by
        unfold VIDEO_BUFFER SCREEN_WIDTH
        rw [sub32_of_le (by omega) (by omega)]
        omega
      have hcheck : checkScreen (VIDEO_BUFFER + 160 * n) 160 = .ok () :=
        checkScreen_ok (by omega) (by unfold screenSize; omega)
      refine ⟨memcpy m (VIDEO_BUFFER + 160 * n) (VIDEO_BUFFER + 160 * n + 160) 160, ?_, ?_, ?_⟩
      · rw [Screen.scrollCopy, hrun, ok_bind]
        simp only [hsrc, hdest, hwidth, hcheck, ok_bind, pure_eq_ok]
      · intro x hx
        by_cases hlast : x < 160 * n
        · rw [memcpy_out (by unfold VIDEO_BUFFER; omega) (by omega)]
          exact hmoved x hlast
        · -- the row of this iteration, which is copied from one that has not been overwritten
          obtain ⟨y, rfl⟩ := Nat.exists_eq_add_of_le (Nat.not_lt.mp hlast)
          rw [← Nat.add_assoc, memcpy_in (by unfold VIDEO_BUFFER; omega) (by unfold VIDEO_BUFFER; omega)
            (.inl (by omega)) (by omega), hkeep _ (by omega), Nat.add_right_comm]
      · intro a ha
        rw [memcpy_out (by unfold VIDEO_BUFFER; omega) (by omega)]
        exact hkeep a (by omega)

/-- The second loop of `scroll_lines` clears the rows it has reached. -/
theorem scrollClear_spec (hn : i + n ≤ 24) : ∃ m, s.scrollClear i n = .ok { s with mem := m } ∧
    (∀ x, x < 160 * n → m (VIDEO_BUFFER + 160 * i + x) = 0) ∧
    ∀ a, a < VIDEO_BUFFER + 160 * i ∨ VIDEO_BUFFER + 160 * (i + n) ≤ a → m a = s.mem a := by
  induction n with
  | zero => exact ⟨s.mem, rfl, fun x hx => absurd hx (by omega), fun _ _ => rfl⟩
  | succ n ih =>
      obtain ⟨m, hrun, hclear, hkeep⟩ := ih (by omega)
      have hwidth : SCREEN_WIDTH * 2 = 160 := rfl
      have hrow : Screen.rowAddr (i + n) = VIDEO_BUFFER + 160 * i + 160 * n := by
        rw [rowAddr_eq (by omega)]
        omega
      have hcheck : checkScreen (VIDEO_BUFFER + 160 * i + 160 * n) 160 = .ok () :=
        checkScreen_ok (by omega) (by unfold screenSize; omega)
      refine ⟨memset m (VIDEO_BUFFER + 160 * i + 160 * n) 0 160, ?_, ?_, ?_⟩
      · rw [Screen.scrollClear, hrun, ok_bind]
        simp only [hrow, hwidth, hcheck, ok_bind, pure_eq_ok]
      · intro x hx
        by_cases hlast : x < 160 * n
        · rw [memset_out (by unfold VIDEO_BUFFER; omega) (by omega)]
          exact hclear x hlast
        · obtain ⟨y, rfl⟩ := Nat.exists_eq_add_of_le (Nat.not_lt.mp hlast)
          rw [← Nat.add_assoc]
          exact memset_in (by unfold VIDEO_BUFFER; omega) (by omega)
      · intro a ha
        rw [memset_out (by unfold VIDEO_BUFFER; omega) (by omega)]
        exact hkeep a (by omega)

/-- **`scroll_lines(1)`** moves every row up by one and clears the last one. -/
theorem scrollLines_spec : ∃ m, s.scrollLines 1 = .ok { s with mem := m } ∧
    (∀ i j, i < 23 → j < 80 → cellAt m i j = cellAt s.mem (i + 1) j) ∧
    (∀ j, j < 80 → cellAt m 23 j = (0, 0)) ∧ ∀ a, OffScreen a → m a = s.mem a := by
  obtain ⟨m₁, hcopy, hmoved, hkeep₁⟩ := scrollCopy_spec (s := s) (n := 23) (Nat.le_refl _)
  obtain ⟨m, hrun, hclear, hkeep⟩ :=
    scrollClear_spec (s := { s with mem := m₁ }) (i := 23) (n := 1) (Nat.le_refl _)
  have hmove : ∀ x, x < 3680 → m (VIDEO_BUFFER + x) = s.mem (VIDEO_BUFFER + (x + 160)) := by
    intro x hx
    rw [hkeep _ (.inl (Nat.add_lt_add_left hx _))]
    exact hmoved x hx
  refine ⟨m, ?_, ?_, ?_, ?_⟩
  · unfold Screen.scrollLines
    rw [show SCREEN_HEIGHT - 1 = 23 from rfl, hcopy, ok_bind, hrun]
  · intro i j hi hj
    unfold cellAt
    have hnext : 160 * i + 2 * j + 160 = 160 * (i + 1) + 2 * j := by omega
    rw [hmove _ (by omega), hmove _ (by omega), Nat.add_right_comm (160 * i + 2 * j) 1 160, hnext]
  · intro j hj
    unfold cellAt
    rw [← Nat.add_assoc, hclear _ (by omega), Nat.add_assoc (160 * 23), ← Nat.add_assoc,
      hclear _ (by omega)]
  · intro a ha
    rw [hkeep a (ha.imp_left fun h => Nat.lt_add_right _ h)]
    exact hkeep₁ a (ha.imp_right fun h => Nat.le_trans (Nat.add_le_add_left (by decide) _) h)

/-! ## The operations -/

/-- `next_line` above the last row. -/
theorem nextLine_above (h : s.lineNumber < 23) : s.nextLine =
    .ok { s with lineNumber := s.lineNumber + 1, columnNumber := 0 }.placeCursor := by
  have hlow : ¬ SCREEN_HEIGHT ≤ s.lineNumber + 1 := by
    unfold SCREEN_HEIGHT
    omega
  unfold Screen.nextLine
  rw [add32_of_lt (by omega)]
  simp only [if_neg hlow, ok_bind, pure_eq_ok]

/-- `next_line` in the last row scrolls. -/
theorem nextLine_last (h : s.lineNumber = 23) : ∃ m, s.nextLine =
      .ok { s with mem := m, lineNumber := 23, columnNumber := 0 }.placeCursor ∧
    (∀ i j, i < 23 → j < 80 → cellAt m i j = cellAt s.mem (i + 1) j) ∧
    (∀ j, j < 80 → cellAt m 23 j = (0, 0)) ∧ ∀ a, OffScreen a → m a = s.mem a := by
  have hlast : SCREEN_HEIGHT ≤ s.lineNumber + 1 := by
    unfold SCREEN_HEIGHT
    omega
  obtain ⟨m, hscroll, hspec⟩ := scrollLines_spec (s := { s with lineNumber := s.lineNumber + 1 })
  refine ⟨m, ?_, hspec⟩
  unfold Screen.nextLine
  rw [add32_of_lt (by omega)]
  simp only [if_pos hlast, hscroll, ok_bind, pure_eq_ok]
  rfl

/-- `kputc` writes two bytes. -/
theorem kputc_eq (h : Placed s) (hroom : s.columnNumber < 80) : s.kputc c =
    .ok { s with
      mem := store8 (store8 s.mem s.vbuf c) (s.vbuf + 1) 0x0f
      vbuf := add32 s.vbuf 2
      columnNumber := s.columnNumber + 1 }.placeCursor := by
  have hline := h.line
  have hvbuf := h.vbuf
  have hsecond : add32 s.vbuf 1 = s.vbuf + 1 := by
    rw [hvbuf]
    unfold VIDEO_BUFFER
    exact add32_of_lt (by omega)
  have hfit : s.vbuf + 1 + 1 ≤ VIDEO_BUFFER + screenSize := by
    unfold screenSize
    omega
  unfold Screen.kputc
  rw [store_ok (by omega) (by omega), ok_bind]
  dsimp only
  rw [hsecond, store_ok (by omega) hfit, ok_bind, add32_of_lt (a := s.columnNumber) (by omega)]
  rfl

/-- Its two bytes are on the screen. -/
theorem kputc_placed (h : Placed s) (hroom : s.columnNumber < 80) : ∃ s', s.kputc c = .ok s' ∧ Placed s' ∧
    ∀ a, OffScreen a → s'.mem a = s.mem a := by
  refine ⟨_, kputc_eq h hroom, placed_placeCursor h.line hroom, ?_⟩
  intro a ha
  have hline := h.line
  have hvbuf := h.vbuf
  unfold OffScreen screenSize at ha
  rw [placeCursor_mem]
  exact (store8_out (by omega)).trans (store8_out (by omega))

/-- `next_line` leaves the cursor at the start of a row. -/
theorem nextLine_placed (h : Placed s) : ∃ s', s.nextLine = .ok s' ∧ Placed s' ∧ s'.columnNumber = 0 ∧
    ∀ a, OffScreen a → s'.mem a = s.mem a := by
  by_cases hlast : s.lineNumber = 23
  · obtain ⟨m, hrun, -, -, hkeep⟩ := nextLine_last hlast
    exact ⟨_, hrun, placed_placeCursor (Nat.lt_succ_self 23) (Nat.zero_le _), rfl, hkeep⟩
  · have hline := h.line
    have habove : s.lineNumber < 23 := by omega
    exact ⟨_, nextLine_above habove, placed_placeCursor (Nat.succ_lt_succ habove) (Nat.zero_le _), rfl,
      fun a _ => congrFun (placeCursor_mem _) a⟩

/-- **A byte** leaves the cursor in place, and writes on the screen only. -/
theorem kputchar_placed (h : Placed s) : ∃ s', s.kputchar c = .ok s' ∧ Placed s' ∧
    ∀ a, OffScreen a → s'.mem a = s.mem a := by
  obtain ⟨s₁, hline, h₁, hcolumn, hkeep₁⟩ := nextLine_placed h
  unfold Screen.kputchar
  by_cases hnewline : c = 10
  · rw [if_pos hnewline]
    exact ⟨s₁, hline, h₁, hkeep₁⟩
  · rw [if_neg hnewline]
    by_cases hreturn : c = 13
    · rw [if_pos hreturn]
      exact ⟨_, rfl, placed_placeCursor h.line (Nat.zero_le _), fun a _ => congrFun (placeCursor_mem _) a⟩
    · rw [if_neg hreturn]
      by_cases hfull : SCREEN_WIDTH ≤ s.columnNumber
      · rw [if_pos hfull, hline, ok_bind]
        obtain ⟨s₂, hput, h₂, hkeep₂⟩ := kputc_placed (c := c) h₁ (by omega)
        exact ⟨s₂, hput, h₂, fun a ha => (hkeep₂ a ha).trans (hkeep₁ a ha)⟩
      · rw [if_neg hfull]
        exact kputc_placed h (Nat.not_le.mp hfull)

/-- Bytes do too, and so do the callers of `kputchar`. -/
theorem kputchars_placed {cs : List UInt8} (h : Placed s) : ∃ s', s.kputchars cs = .ok s' ∧ Placed s' ∧
    ∀ a, OffScreen a → s'.mem a = s.mem a := by
  induction cs generalizing s with
  | nil => exact ⟨s, rfl, h, fun _ _ => rfl⟩
  | cons c cs ih =>
      obtain ⟨s₁, hstep, h₁, hkeep₁⟩ := kputchar_placed (c := c) h
      obtain ⟨s₂, hrun, h₂, hkeep₂⟩ := ih h₁
      exact ⟨s₂, run_cons.mpr ⟨s₁, hstep, hrun⟩, h₂, fun a ha => (hkeep₂ a ha).trans (hkeep₁ a ha)⟩

theorem fputs_placed (cs : List UInt8) (h : Placed s) :
    ∃ s', fputs Screen.fputc s cs = .ok s' ∧ Placed s' ∧ ∀ a, OffScreen a → s'.mem a = s.mem a := by
  induction cs generalizing s with
  | nil => exact ⟨s, rfl, h, fun _ _ => rfl⟩
  | cons c cs ih =>
      obtain ⟨s₁, hput, h₁, hkeep₁⟩ := kputchars_placed h
      obtain ⟨s₂, hrun, h₂, hkeep₂⟩ := ih h₁
      exact ⟨s₂, run_cons.mpr ⟨s₁, hput, hrun⟩, h₂, fun a ha => (hkeep₂ a ha).trans (hkeep₁ a ha)⟩

theorem write_placed (buf n : Nat) (h : Placed s) : ∃ s', s.write buf n = .ok s' ∧ Placed s' ∧
    ∀ a, OffScreen a → s'.mem a = s.mem a := by
  induction n with
  | zero => exact ⟨s, rfl, h, fun _ _ => rfl⟩
  | succ n ih =>
      obtain ⟨s₁, hrun, h₁, hkeep₁⟩ := ih
      obtain ⟨s₂, hstep, h₂, hkeep₂⟩ := kputchar_placed (c := s₁.mem (add32 buf n)) h₁
      exact ⟨s₂, bind_eq_ok.mpr ⟨s₁, hrun, hstep⟩, h₂, fun a ha => (hkeep₂ a ha).trans (hkeep₁ a ha)⟩

/-! ## The terminal -/

/-- **`next_line`** starts a new row of the terminal. -/
theorem nextLine_shows (h : ShowsTerminal s t) :
    ∃ s', s.nextLine = .ok s' ∧ ShowsTerminal s' t.newline ∧ ∀ a, OffScreen a → s'.mem a = s.mem a := by
  have hline : s.lineNumber = t.rows.length - (t.rows.length + 1 - 24) := h.line
  have htop : t.newline.top 24 = if t.rows.length + 1 < 24 then t.top 24 else t.top 24 + 1 :=
    Terminal.top_newline
  have hnewline : t.newline.line 24 = t.rows.length + 1 - (t.rows.length + 1 + 1 - 24) := by
    unfold Terminal.line Terminal.top Terminal.newline
    rw [List.length_append, List.length_singleton]
  by_cases hroom : t.rows.length + 1 < 24
  · -- there is a free row on the screen
    rw [if_pos hroom] at htop
    refine ⟨_, nextLine_above (by omega), ?_, fun _ _ => rfl⟩
    refine shows_placeCursor ?_ ?_ rfl (Nat.zero_le _)
    · intro i j hi hj
      unfold Terminal.window
      rw [htop, Terminal.row_newline]
      exact h.cells i j hi hj
    · rw [hnewline]
      dsimp only
      omega
  · rw [if_neg hroom] at htop
    obtain ⟨m, hrun, hmoved, hclear, hkeep⟩ := nextLine_last (s := s) (by omega)
    refine ⟨_, hrun, ?_, hkeep⟩
    refine shows_placeCursor ?_ ?_ rfl (Nat.zero_le _)
    · intro i j hi hj
      unfold Terminal.window
      rw [htop, Terminal.row_newline]
      by_cases hi' : i < 23
      · rw [Nat.add_assoc, Nat.add_comm 1, ← Terminal.window, ← h.cells (i + 1) j (by omega) hj]
        exact hmoved i j hi' hj
      · obtain rfl : i = 23 := by omega
        rw [Terminal.row_below (by unfold Terminal.top; omega)]
        exact hclear j hj
    · rw [hnewline]
      dsimp only
      omega

/-- **`kputc`** writes one cell. -/
theorem kputc_shows (h : ShowsTerminal s t) (hroom : t.column < 80) :
    ∃ s', s.kputc c = .ok s' ∧ ShowsTerminal s' (t.put c) ∧ ∀ a, OffScreen a → s'.mem a = s.mem a := by
  have hline : s.lineNumber = t.rows.length - (t.rows.length + 1 - 24) := h.line
  have hcolumn := h.column
  have hvbuf : s.vbuf = VIDEO_BUFFER + (160 * s.lineNumber + 2 * s.columnNumber) := by
    rw [h.vbuf]
    omega
  have hother : ∀ a, a ≠ s.vbuf → a ≠ s.vbuf + 1 →
      store8 (store8 s.mem s.vbuf c) (s.vbuf + 1) 0x0f a = s.mem a := by
    intro a h₁ h₂
    exact (store8_out h₂).trans (store8_out h₁)
  refine ⟨_, kputc_eq (h.placed (by omega)) (by omega), ?_, fun a ha => hother a ?_ ?_⟩
  · refine shows_placeCursor ?_ h.line (congrArg (· + 1) hcolumn) hroom
    intro i j hi hj
    have hrow : (t.put c).window 24 i j =
        if t.top 24 + i = t.rows.length ∧ j = t.column then some c else t.window 24 i j := Terminal.row_put
    rw [hrow]
    by_cases hhere : i = s.lineNumber ∧ j = s.columnNumber
    · obtain ⟨rfl, rfl⟩ := hhere
      rw [if_pos (by unfold Terminal.top; omega)]
      unfold cellAt
      rw [← Nat.add_assoc VIDEO_BUFFER (160 * s.lineNumber + 2 * s.columnNumber) 1, ← hvbuf]
      exact Prod.ext ((store8_out (by omega)).trans (store8_same _ _ _)) (store8_same _ _ _)
    · rw [if_neg (by unfold Terminal.top; omega), ← h.cells i j hi hj]
      exact Prod.ext (hother _ (by omega) (by omega)) (hother _ (by omega) (by omega))
  · rintro rfl
    unfold OffScreen screenSize at ha
    omega
  · rintro rfl
    unfold OffScreen screenSize at ha
    omega

/-- **A byte** passed to `kputchar` is input for the terminal. -/
theorem kputchar_shows (h : ShowsTerminal s t) :
    ∃ s', s.kputchar c = .ok s' ∧ ShowsTerminal s' (t.write 80 (vgaInput c)) ∧
      ∀ a, OffScreen a → s'.mem a = s.mem a := by
  unfold Screen.kputchar vgaInput
  by_cases hnewline : c = 10
  · rw [if_pos hnewline, if_pos hnewline]
    exact nextLine_shows h
  · rw [if_neg hnewline, if_neg hnewline]
    by_cases hreturn : c = 13
    · rw [if_pos hreturn, if_pos hreturn]
      exact ⟨_, rfl, shows_placeCursor h.cells h.line rfl (Nat.zero_le _), fun _ _ => rfl⟩
    · rw [if_neg hreturn, if_neg hreturn]
      have hwrite : t.write 80 (.char c) = if 80 ≤ t.column then t.newline.put c else t.put c := rfl
      rw [hwrite, h.column, show SCREEN_WIDTH = 80 from rfl]
      by_cases hfull : 80 ≤ t.column
      · obtain ⟨s₁, hline, h₁, hkeep₁⟩ := nextLine_shows h
        obtain ⟨s₂, hput, h₂, hkeep₂⟩ := kputc_shows (c := c) h₁ (Nat.zero_lt_succ 79)
        rw [if_pos hfull, if_pos hfull, hline, ok_bind]
        exact ⟨s₂, hput, h₂, fun a ha => (hkeep₂ a ha).trans (hkeep₁ a ha)⟩
      · rw [if_neg hfull, if_neg hfull]
        exact kputc_shows h (Nat.not_le.mp hfull)

/-- The loop of `cleark` clears the bytes it has reached. -/
theorem clearkLoop_spec (hn : n ≤ 3840) (hvbuf : s.vbuf = VIDEO_BUFFER) :
    ∃ m, s.clearkLoop n = .ok { s with mem := m } ∧ (∀ x, x < n → m (VIDEO_BUFFER + x) = 0) ∧
      ∀ a, a < VIDEO_BUFFER ∨ VIDEO_BUFFER + n ≤ a → m a = s.mem a := by
  induction n with
  | zero => exact ⟨s.mem, rfl, fun x hx => absurd hx (Nat.not_lt_zero x), fun _ _ => rfl⟩
  | succ n ih =>
      obtain ⟨m, hrun, hclear, hkeep⟩ := ih (by omega)
      have haddr : add32 s.vbuf n = VIDEO_BUFFER + n := by
        rw [hvbuf]
        unfold VIDEO_BUFFER
        exact add32_of_lt (by omega)
      refine ⟨store8 m (VIDEO_BUFFER + n) 0, ?_, ?_, ?_⟩
      · rw [Screen.clearkLoop, hrun, ok_bind]
        dsimp only
        rw [haddr, store_ok (by omega) (by unfold screenSize; omega)]
      · intro x hx
        by_cases hlast : x = n
        · rw [hlast, store8_same]
        · rw [store8_out (by omega)]
          exact hclear x (by omega)
      · intro a ha
        rw [store8_out (by omega)]
        exact hkeep a (by omega)

/-- **`cleark`** leaves a screen that shows an empty terminal. -/
theorem cleark_shows (s : Screen) :
    ∃ s', s.cleark = .ok s' ∧ ShowsTerminal s' .start ∧ ∀ a, OffScreen a → s'.mem a = s.mem a := by
  obtain ⟨m, hrun, hclear, hkeep⟩ :=
    clearkLoop_spec (s := { s with vbuf := VIDEO_BUFFER }) (Nat.le_refl 3840) rfl
  have hcleark : s.cleark = .ok
      { s with mem := m, vbuf := VIDEO_BUFFER, lineNumber := 0, columnNumber := 0 }.placeCursor := by
    unfold Screen.cleark
    rw [show SCREEN_WIDTH * SCREEN_HEIGHT * 2 = 3840 from rfl, hrun]
    rfl
  refine ⟨_, hcleark, ?_, hkeep⟩
  refine shows_placeCursor ?_ rfl rfl (Nat.zero_le _)
  intro i j hi hj
  unfold Terminal.window cellAt
  rw [Terminal.row_start]
  exact Prod.ext (hclear _ (by omega)) (hclear _ (by omega))

/-- Bytes passed to `kputchar` one after the other. -/
theorem kputchars_shows {cs : List UInt8} (h : ShowsTerminal s t) :
    ∃ s', s.kputchars cs = .ok s' ∧ ShowsTerminal s' (cs.foldl (fun t c => t.write 80 (vgaInput c)) t) ∧
      ∀ a, OffScreen a → s'.mem a = s.mem a := by
  induction cs generalizing s t with
  | nil => exact ⟨s, rfl, h, fun _ _ => rfl⟩
  | cons c cs ih =>
      obtain ⟨s₁, hstep, h₁, hkeep₁⟩ := kputchar_shows (c := c) h
      obtain ⟨s₂, hrun, h₂, hkeep₂⟩ := ih h₁
      exact ⟨s₂, run_cons.mpr ⟨s₁, hstep, hrun⟩, h₂, fun a ha => (hkeep₂ a ha).trans (hkeep₁ a ha)⟩

/-- **The screen shows the last 24 rows of a terminal** of 80 columns: after `cleark`, whatever bytes are
    passed to `kputchar`, nothing is written off the screen, and the cells, the line and column numbers,
    the cursor and the pointer are those of the terminal that was sent the same bytes. -/
theorem vga_terminal (s : Screen) (cs : List UInt8) :
    ∃ s', (s.cleark >>= fun s₀ => s₀.kputchars cs) = .ok s' ∧
      ShowsTerminal s' (cs.foldl (fun t c => t.write 80 (vgaInput c)) .start) ∧
      ∀ a, OffScreen a → s'.mem a = s.mem a := by
  obtain ⟨s₀, hclear, h₀, hkeep₀⟩ := cleark_shows s
  obtain ⟨s', hrun, h', hkeep'⟩ := kputchars_shows h₀
  rw [hclear, ok_bind]
  exact ⟨s', hrun, h', fun a ha => (hkeep' a ha).trans (hkeep₀ a ha)⟩

end WeirdOs
