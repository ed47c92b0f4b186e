import Zhios.Video.Terminal

/-! Where a text comes to on the screen, counted in rows and cells, and when all of it is on the screen. -/
namespace Zhios
open Machine

/-- The place behind a text: the rows it has begun and the times it has gone back to the row above, and the cells
between the place and the margin or, in a row that it has gone back to, the right edge. -/
structure TextPlace where
  begun : ℕ
  left : ℕ
  fromEdge : Bool
  cells : ℤ

namespace TextPlace
variable (mode : VideoMode) (font : PsfFont)

/-- The top left corner of the cell at the place. A row that is begun is `height + 1` lower, one that is gone back to
only `height - 1` higher. -/
def line (p : TextPlace) : ℕ :=
  uint16 (Terminal.margin + p.begun * (font.height + 1) - p.left * (font.height - 1))

def column (p : TextPlace) : ℕ :=
  uint16 ((if p.fromEdge then mode.width else Terminal.margin : ℕ) + p.cells * (font.width + 1))

def home : TextPlace := ⟨0, 0, false, 0⟩

def newRow (p : TextPlace) : TextPlace := ⟨p.begun + 1, p.left, false, 0⟩

/-- One cell further, in a new row if that is behind the right edge. -/
def forward (p : TextPlace) : TextPlace :=
  let next : TextPlace := { p with cells := p.cells + 1 }
  if mode.width ≤ next.column mode font then p.newRow else next

/-- One cell back: from the margin to the right edge of the row above, unless this is the first row. -/
def backward (p : TextPlace) : TextPlace :=
  if p.column mode font ≠ Terminal.margin then { p with cells := p.cells - 1 }
  else if p.line font = Terminal.margin then p
  else ⟨p.begun, p.left + 1, true, -1⟩

def next (p : TextPlace) (c : UInt8) : TextPlace :=
  if c = 0x0A then p.newRow else if c = 0x08 then p.backward mode font else p.forward mode font

/-- The place behind a text that begins at the top of the screen. -/
def behind (str : List UInt8) : TextPlace := str.foldl (next mode font) home

/-- What a character draws at a place: a backspace clears the cell in front, where there is one. -/
def Fits (p : TextPlace) (c : UInt8) : Prop :=
  if c = 0x0A then True
  else if c = 0x08 then
    p.line font = Terminal.margin ∧ p.column mode font = Terminal.margin ∨
      BoxOnScreen mode font.cell ((p.backward mode font).column mode font) ((p.backward mode font).line font)
  else BoxOnScreen mode (font.litCell c) (p.column mode font) (p.line font)

instance (p : TextPlace) (c : UInt8) : Decidable (p.Fits mode font c) := by
  delta Fits
  infer_instance

structure At (t : Terminal) (p : TextPlace) : Prop where
  row : t.row = p.line font
  col : t.col = p.column mode font

variable {mode font} {t : Terminal} {p : TextPlace} {c : UInt8}

theorem at_home : At mode font Terminal.start home := by
  constructor
  · simp [line, home, Terminal.start, Terminal.margin, uint16]
  · simp [column, home, Terminal.start, Terminal.margin, uint16]

theorem At.moveToNextRow (h : At mode font t p) : At mode font (t.moveToNextRow font) p.newRow := by
  constructor
  · change uint16 (t.row + (font.height + 1)) = uint16 (_ + ((p.begun + 1 : ℕ) : ℤ) * _ - _)
    rw [h.row, line, uint16_add_uint16]
    push_cast
    congr 1
    simp only [newRow]
    ring
  · simp [Terminal.moveToNextRow, column, newRow, Terminal.margin, uint16]

theorem At.moveToPrevRow (h : At mode font t p) :
    At mode font ({ t.moveToPrevRow font with col := mode.width, col_lt := mode.width_lt }.moveToPrevCol font)
      ⟨p.begun, p.left + 1, true, -1⟩ := by
  constructor
  · change uint16 (t.row - (font.height - 1)) = uint16 (_ - ((p.left + 1 : ℕ) : ℤ) * _)
    rw [h.row, line, sub_eq_add_neg, uint16_add_uint16]
    push_cast
    congr 1
    ring
  · change uint16 (mode.width - font.width - 1) = uint16 (mode.width + -1 * (font.width + 1))
    congr 1
    ring

theorem At.moveToNextCol (h : At mode font t p) :
    At mode font (t.moveToNextCol font) { p with cells := p.cells + 1 } := by
  constructor
  · exact h.row
  · change uint16 (t.col + (font.width + 1)) = uint16 (_ + (p.cells + 1) * _)
    rw [h.col, column, uint16_add_uint16]
    congr 1
    ring

theorem At.moveToPrevCol (h : At mode font t p) :
    At mode font (t.moveToPrevCol font) { p with cells := p.cells - 1 } := by
  constructor
  · exact h.row
  · change uint16 (t.col - font.width - 1) = uint16 (_ + (p.cells - 1) * _)
    rw [h.col, column, sub_sub, sub_eq_add_neg, uint16_add_uint16]
    congr 1
    ring

theorem At.terminalBackspace (h : At mode font t p) :
    At mode font (t.terminalBackspace mode font).1 (p.backward mode font) ∧
      ((∀ w ∈ (t.terminalBackspace mode font).2, w.OnScreen mode) ↔
        p.line font = Terminal.margin ∧ p.column mode font = Terminal.margin ∨
          BoxOnScreen mode font.cell ((p.backward mode font).column mode font) ((p.backward mode font).line font)) := by
  have hclear : ∀ {u : Terminal} {q : TextPlace}, At mode font u q →
      ((∀ w ∈ font.psfClearChar u.col u.row Terminal.bg, w.OnScreen mode) ↔
        BoxOnScreen mode font.cell (q.column mode font) (q.line font)) := by
    intro u q hq
    rw [psfClearChar_onScreen_iff, hq.col, hq.row]
  rw [Terminal.terminalBackspace, backward, ← h.row, ← h.col]
  by_cases hcol : t.col = Terminal.margin
  · rw [if_neg (not_not.mpr hcol)]
    by_cases hrow : t.row = Terminal.margin
    · rw [if_pos ⟨hrow, hcol⟩, if_pos hrow]
      exact ⟨h, iff_of_true (fun w hw => absurd hw List.not_mem_nil) (Or.inl ⟨hrow, hcol⟩)⟩
    · rw [if_neg fun hhome => hrow hhome.1, if_neg hrow, if_pos hcol, or_iff_right fun hhome => hrow hhome.1]
      exact ⟨h.moveToPrevRow, hclear h.moveToPrevRow⟩
  · rw [if_pos hcol, if_neg fun hhome => hcol hhome.2, if_neg hcol, or_iff_right fun hhome => hcol hhome.2]
    exact ⟨h.moveToPrevCol, hclear h.moveToPrevCol⟩

theorem At.terminalWritechar (h : At mode font t p) (c : UInt8) :
    At mode font (t.terminalWritechar mode font c).1 (p.next mode font c) ∧
      ((∀ w ∈ (t.terminalWritechar mode font c).2, w.OnScreen mode) ↔ p.Fits mode font c) := by
  rw [next, Fits]
  by_cases hnewline : c = 0x0A
  · rw [Terminal.terminalWritechar, if_pos hnewline, if_pos hnewline, if_pos hnewline]
    exact ⟨h.moveToNextRow, iff_of_true (fun w hw => absurd hw List.not_mem_nil) trivial⟩
  · by_cases hbackspace : c = 0x08
    · rw [Terminal.terminalWritechar, if_neg hnewline, if_neg hnewline, if_neg hnewline, if_pos hbackspace,
        if_pos hbackspace, if_pos hbackspace]
      exact h.terminalBackspace
    · rw [Terminal.terminalWritechar_of_printed hnewline hbackspace, if_neg hnewline, if_neg hnewline,
        if_neg hbackspace, if_neg hbackspace, forward, h.moveToNextCol.col]
      refine ⟨?_, ?_⟩
      · dsimp only
        split_ifs
        · exact h.moveToNextCol.moveToNextRow
        · exact h.moveToNextCol
      · rw [psfPutc_onScreen_iff, h.col, h.row]

/-- The cursor is where the text has come to, after every text. -/
theorem at_behind (mode : VideoMode) (font : PsfFont) (str : List UInt8) :
    At mode font (str.foldl (fun t c => (t.terminalWritechar mode font c).1) Terminal.start)
      (behind mode font str) := by
  induction str using List.reverseRecOn with
  | nil => exact at_home
  | append_singleton str c ih =>
    rw [behind, List.foldl_append, List.foldl_append]
    exact (ih.terminalWritechar c).1

/-- The cells of a row that a text fills from the margin. -/
def cellsPerRow (mode : VideoMode) (font : PsfFont) : ℕ :=
  (mode.width - Terminal.margin + font.width) / (font.width + 1)

def Printed (c : UInt8) : Prop := c ≠ 0x0A ∧ c ≠ 0x08

section Lines
variable (hwidth : Terminal.margin + font.width < mode.width) (hwide : mode.width + font.width < 2 ^ 16)
include hwidth hwide

theorem forward_of_margin {b l i : ℕ} (hi : i < cellsPerRow mode font) :
    forward mode font ⟨b, l, false, i⟩ =
      if i + 1 = cellsPerRow mode font then ⟨b + 1, l, false, 0⟩ else ⟨b, l, false, (i + 1 : ℕ)⟩ := by
  have hmargin : Terminal.margin = 5 := rfl
  set w := font.width + 1 with hw
  have hcells : (i + 1) * w ≤ mode.width - Terminal.margin + font.width := (Nat.le_div_iff_mul_le (by omega)).mp hi
  have hlast : i + 1 = cellsPerRow mode font ↔ mode.width ≤ Terminal.margin + (i + 1) * w := by
    have hlt : cellsPerRow mode font < i + 2 ↔ mode.width - Terminal.margin + font.width < (i + 2) * w :=
      Nat.div_lt_iff_lt_mul (by omega)
    have hsucc : (i + 2) * w = (i + 1) * w + w := by ring
    omega
  have hcolumn : column mode font ⟨b, l, false, (i : ℤ) + 1⟩ = Terminal.margin + (i + 1) * w := by
    rw [column, ← uint16_of_lt (n := Terminal.margin + (i + 1) * w) (by omega)]
    congr 1
  simp only [forward, hcolumn, newRow, hlast]
  split_ifs <;> simp

/-- A row that is filled is followed by the next one. -/
theorem foldl_line {line : List UInt8} (hline : ∀ c ∈ line, Printed c) {b l i : ℕ} (hi : i < cellsPerRow mode font) :
    line.foldl (next mode font) ⟨b, l, false, i⟩ =
      ⟨b + (i + line.length) / cellsPerRow mode font, l, false, ((i + line.length) % cellsPerRow mode font : ℕ)⟩ := by
  induction line generalizing b i with
  | nil => simp [Nat.div_eq_of_lt hi, Nat.mod_eq_of_lt hi]
  | cons c line ih =>
    obtain ⟨⟨hnewline, hbackspace⟩, hrest⟩ := List.forall_mem_cons.mp hline
    rw [List.foldl_cons, next, if_neg hnewline, if_neg hbackspace, forward_of_margin hwidth hwide hi,
      List.length_cons, ← Nat.add_assoc, Nat.add_right_comm]
    split_ifs with hlast
    · have hzero := ih hrest (b := b + 1) (i := 0) (by omega)
      rw [hlast, Nat.add_div_left _ (by omega), Nat.add_mod_left]
      simpa [Nat.add_assoc, Nat.add_comm 1] using hzero
    · exact ih hrest (by omega)

/-- Without backspaces a line of `n` characters begins `n / cellsPerRow` rows, and its newline another. -/
theorem behind_lines {lines : List (List UInt8)} {line : List UInt8}
    (hlines : ∀ l ∈ lines, ∀ c ∈ l, Printed c) (hline : ∀ c ∈ line, Printed c) :
    behind mode font ((lines.flatMap (· ++ [0x0A])) ++ line) =
      ⟨(lines.map fun l => l.length / cellsPerRow mode font + 1).sum + line.length / cellsPerRow mode font, 0, false,
        (line.length % cellsPerRow mode font : ℕ)⟩ := by
  have hpos : 0 < cellsPerRow mode font := Nat.div_pos (by omega) (by omega)
  have hfull : ∀ (lines : List (List UInt8)) (b : ℕ), (∀ l ∈ lines, ∀ c ∈ l, Printed c) →
      (lines.flatMap (· ++ [0x0A])).foldl (next mode font) ⟨b, 0, false, 0⟩ =
        ⟨b + (lines.map fun l => l.length / cellsPerRow mode font + 1).sum, 0, false, 0⟩ := by
    intro lines
    induction lines with
    | nil => exact fun b _ => rfl
    | cons l lines ih =>
      intro b hlines
      obtain ⟨hfirst, hrest⟩ := List.forall_mem_cons.mp hlines
      have hl := foldl_line hwidth hwide hfirst (b := b) (l := 0) hpos
      rw [List.flatMap_cons, List.foldl_append, List.foldl_append]
      simp only [Nat.cast_zero] at hl
      rw [hl, List.foldl_cons, List.foldl_nil, next, if_pos rfl, newRow, ih _ hrest, List.map_cons, List.sum_cons]
      simp [Nat.add_assoc]
  have hlast := foldl_line hwidth hwide hline
    (b := (lines.map fun l => l.length / cellsPerRow mode font + 1).sum) (l := 0) hpos
  rw [behind, List.foldl_append, home, hfull lines 0 hlines, Nat.zero_add]
  simpa using hlast

end Lines

end TextPlace

namespace Terminal

/-- Everything that a text draws is on the screen when each character fits where the text in front of it has come to. -/
theorem print_onScreen_iff (mode : VideoMode) (font : PsfFont) (str : List UInt8) :
    (∀ w ∈ (start.print mode font str).2, w.OnScreen mode) ↔
      ∀ front c back, str = front ++ c :: back → (TextPlace.behind mode font front).Fits mode font c := by
  rw [print_writes_onScreen_iff, each_iff_prefix]
  refine forall_congr' fun front => forall_congr' fun c => forall_congr' fun back => forall_congr' fun _ => ?_
  rw [← terminalWritechar_onScreen_iff]
  exact ((TextPlace.at_behind mode font front).terminalWritechar c).2

/-- The second of two letters ends behind the right edge, a letter behind a newline below the last row. -/
theorem smallMode_offScreen :
    (¬ ∀ w ∈ (start.print smallMode solidFont [0x41, 0x42]).2, w.OnScreen smallMode) ∧
      ¬ ∀ w ∈ (start.print smallMode solidFont [0x0A, 0x41]).2, w.OnScreen smallMode := by
  rw [print_writes_onScreen_iff, print_writes_onScreen_iff]
  refine ⟨fun h => ?_, fun h => ?_⟩
  · exact absurd h.2.1 (by decide +kernel)
  · exact absurd h.2.1 (by decide +kernel)

end Terminal

end Zhios
