import Zhios.Machine.Run
import Zhios.Video.Psf

/-! The cursor of `src/terminal/terminal.c` and what is drawn at it. -/
namespace Zhios
open Machine

/-- `terminal_row` and `terminal_col`. -/
@[ext] structure Terminal where
  row : ℕ
  col : ℕ
  row_lt : row < 2 ^ 16
  col_lt : col < 2 ^ 16
  deriving DecidableEq

namespace Terminal

def margin : ℕ := 5

def bg : Pixel where
  blue := 0x2B
  green := 0x0F
  red := 0x07

def fg : Pixel where
  blue := 0xD0
  green := 0xFD
  red := 0xFF

def start : Terminal := ⟨margin, margin, by decide, by decide⟩

section Writechar
variable (mode : VideoMode) (font : PsfFont)

def moveToNextRow (t : Terminal) : Terminal :=
  ⟨uint16 (t.row + (font.height + 1)), margin, uint16_lt _, by decide⟩

def moveToPrevRow (t : Terminal) : Terminal :=
  { t with row := uint16 (t.row - (font.height - 1)), row_lt := uint16_lt _ }

def moveToNextCol (t : Terminal) : Terminal :=
  { t with col := uint16 (t.col + (font.width + 1)), col_lt := uint16_lt _ }

def moveToPrevCol (t : Terminal) : Terminal :=
  { t with col := uint16 (t.col - font.width - 1), col_lt := uint16_lt _ }

def terminalBackspace (t : Terminal) : Terminal × List ScreenWrite :=
  if t.row = margin ∧ t.col = margin then (t, [])
  else
    let t := if t.col = margin then { t.moveToPrevRow font with col := mode.width, col_lt := mode.width_lt } else t
    let t := t.moveToPrevCol font
    (t, font.psfClearChar t.col t.row bg)

def terminalWritechar (t : Terminal) (c : UInt8) : Terminal × List ScreenWrite :=
  if c = 0x0A then (t.moveToNextRow font, [])
  else if c = 0x08 then t.terminalBackspace mode font
  else
    let writes := font.psfPutc c t.col t.row fg
    let t := t.moveToNextCol font
    (if mode.width ≤ t.col then t.moveToNextRow font else t, writes)

/-- The cursor behind the characters, and all that they draw. -/
def print (t : Terminal) : (str : List UInt8) → Terminal × List ScreenWrite
  | [] => (t, [])
  | c :: str =>
    let r := t.terminalWritechar mode font c
    let rest := print r.1 str
    (rest.1, r.2 ++ rest.2)

/-- The column in which the next character begins, if the row goes on. -/
def nextCol (t : Terminal) : ℕ := (t.col + font.width + 1) % 2 ^ 16

/-- The row goes on behind the character, and not at the margin; or the only row of a font of 65535 lines is left at its
first character. -/
def StaysInRow (t : Terminal) : Prop :=
  t.nextCol font < mode.width ∧ t.nextCol font ≠ margin ∨ (font.height + 1) % 2 ^ 16 = 0 ∧ t = start

instance (t : Terminal) : Decidable (t.StaysInRow mode font) := inferInstanceAs (Decidable (_ ∧ _ ∨ _ ∧ _))

/-- The place of the cell in front of the cursor, which at the margin is the last one of the row above. -/
def cellBefore (t : Terminal) : ℕ × ℕ :=
  if t.col = margin then (uint16 (mode.width - font.width - 1), uint16 (t.row - (font.height - 1)))
  else (uint16 (t.col - font.width - 1), t.row)

/-- What is drawn of a character at the cursor ends on the screen. -/
def RoomToDraw (t : Terminal) (c : UInt8) : Prop :=
  if c = 0x0A then True
  else if c = 0x08 then
    t.row = margin ∧ t.col = margin ∨
      BoxOnScreen mode font.cell (t.cellBefore mode font).1 (t.cellBefore mode font).2
  else BoxOnScreen mode (font.litCell c) t.col t.row

instance (t : Terminal) (c : UInt8) : Decidable (t.RoomToDraw mode font c) := by
  delta RoomToDraw
  infer_instance

end Writechar

variable {mode : VideoMode} {font : PsfFont} {t : Terminal} {c : UInt8}

theorem terminalWritechar_of_printed (hnewline : c ≠ 0x0A) (hbackspace : c ≠ 0x08) :
    t.terminalWritechar mode font c =
      (if mode.width ≤ (t.moveToNextCol font).col then (t.moveToNextCol font).moveToNextRow font
        else t.moveToNextCol font, font.psfPutc c t.col t.row fg) := by
  rw [terminalWritechar, if_neg hnewline, if_neg hbackspace]

theorem moveToNextCol_col : (t.moveToNextCol font).col = t.nextCol font := by
  change uint16 (t.col + (font.width + 1)) = (t.col + font.width + 1) % 2 ^ 16
  unfold uint16
  omega

theorem moveToPrevCol_moveToNextCol : (t.moveToNextCol font).moveToPrevCol font = t := by
  have hcol := t.col_lt
  ext
  · rfl
  · change uint16 (uint16 (t.col + (font.width + 1)) - font.width - 1) = t.col
    unfold uint16
    omega

/-- A new row and back is two rows of pixels lower. -/
theorem moveToPrevRow_moveToNextRow : ((t.moveToNextRow font).moveToPrevRow font).row = (t.row + 2) % 2 ^ 16 := by
  change uint16 (uint16 (t.row + (font.height + 1)) - (font.height - 1)) = (t.row + 2) % 2 ^ 16
  unfold uint16
  omega

theorem terminalBackspace_home (mode : VideoMode) (font : PsfFont) (hrow : t.row = margin) (hcol : t.col = margin) :
    (t.terminalBackspace mode font).1 = t := by
  rw [terminalBackspace, if_pos ⟨hrow, hcol⟩]

theorem terminalBackspace_of_margin (mode : VideoMode) (font : PsfFont) (hrow : t.row ≠ margin)
    (hcol : t.col = margin) :
    (t.terminalBackspace mode font).1.row = (t.moveToPrevRow font).row ∧
      (t.terminalBackspace mode font).1.col = uint16 (mode.width - font.width - 1) := by
  rw [terminalBackspace, if_neg fun h => hrow h.1, if_pos hcol]
  exact ⟨rfl, rfl⟩

theorem terminalBackspace_of_ne (hcol : t.col ≠ margin) :
    (t.terminalBackspace mode font).1 = t.moveToPrevCol font := by
  rw [terminalBackspace, if_neg fun h => hcol h.2, if_neg hcol]

/-- Backspace at the beginning of the row that a character has begun. -/
theorem terminalBackspace_moveToNextRow :
    (((t.moveToNextCol font).moveToNextRow font).terminalBackspace mode font).1 = t ↔
      (font.height + 1) % 2 ^ 16 = 0 ∧ t = start := by
  have hrow := t.row_lt
  have hnext : ((t.moveToNextCol font).moveToNextRow font).row = (t.row + (font.height + 1)) % 2 ^ 16 := by
    change uint16 (t.row + (font.height + 1)) = _
    unfold uint16
    omega
  by_cases htop : ((t.moveToNextCol font).moveToNextRow font).row = margin
  · rw [terminalBackspace_home mode font htop rfl]
    rw [hnext, margin] at htop
    constructor
    · intro heq
      have hsame : margin = t.row := (hnext.trans htop).symm.trans (congrArg row heq)
      have hcol : margin = t.col := congrArg col heq
      rw [margin] at hsame
      exact ⟨by omega, Terminal.ext hsame.symm hcol.symm⟩
    · rintro ⟨_, rfl⟩
      exact Terminal.ext (hnext.trans htop) rfl
  · obtain ⟨hback, _⟩ := terminalBackspace_of_margin mode font htop rfl
    rw [moveToPrevRow_moveToNextRow] at hback
    change _ = (t.row + 2) % 2 ^ 16 at hback
    refine iff_of_false (fun heq => ?_) ?_
    · rw [heq] at hback
      omega
    · rintro ⟨hheight, rfl⟩
      rw [hnext] at htop
      change (5 + (font.height + 1)) % 2 ^ 16 ≠ 5 at htop
      omega

/-- Backspace where the next column is 65536 more than the margin. -/
theorem terminalBackspace_moveToNextCol (hwidth : margin + font.width < mode.width) (hcol : t.nextCol font = margin) :
    t.col ≠ margin ∧ ((t.moveToNextCol font).terminalBackspace mode font).1 ≠ t := by
  have hlast := t.col_lt
  have hmode := mode.width_lt
  rw [nextCol, margin] at hcol
  rw [margin] at hwidth
  have hne : t.col ≠ margin := by
    rw [margin]
    omega
  refine ⟨hne, fun heq => ?_⟩
  have hmargin : (t.moveToNextCol font).col = margin := by
    rw [moveToNextCol_col, nextCol, hcol, margin]
  by_cases htop : t.row = margin
  · have hhome : (t.moveToNextCol font).row = margin := htop
    rw [terminalBackspace_home mode font hhome hmargin] at heq
    rw [heq] at hmargin
    exact hne hmargin
  · have hbelow : (t.moveToNextCol font).row ≠ margin := htop
    obtain ⟨_, hback⟩ := terminalBackspace_of_margin mode font hbelow hmargin
    rw [heq] at hback
    unfold uint16 at hback
    omega

/-- A character and a backspace, at any cursor. -/
theorem backspace_undoes_iff (hwidth : margin + font.width < mode.width) (hnewline : c ≠ 0x0A) (hbackspace : c ≠ 0x08) :
    ((t.terminalWritechar mode font c).1.terminalWritechar mode font 0x08).1 = t ↔ t.StaysInRow mode font := by
  have hback : ∀ t : Terminal, t.terminalWritechar mode font 0x08 = t.terminalBackspace mode font := fun t => rfl
  rw [hback, terminalWritechar_of_printed hnewline hbackspace, moveToNextCol_col, StaysInRow]
  by_cases hwrap : mode.width ≤ t.nextCol font
  · rw [if_pos hwrap, terminalBackspace_moveToNextRow]
    exact (or_iff_right fun h => absurd h.1 (Nat.not_lt.mpr hwrap)).symm
  · rw [if_neg hwrap]
    by_cases hnext : t.nextCol font = margin
    · obtain ⟨hcol, hne⟩ := terminalBackspace_moveToNextCol hwidth hnext
      refine iff_of_false hne ?_
      rintro (⟨_, hmargin⟩ | ⟨_, rfl⟩)
      · exact hmargin hnext
      · exact hcol rfl
    · have hcol : (t.moveToNextCol font).col ≠ margin := by
        rw [moveToNextCol_col]
        exact hnext
      rw [terminalBackspace_of_ne hcol, moveToPrevCol_moveToNextCol]
      exact iff_of_true rfl (Or.inl ⟨Nat.lt_of_not_le hwrap, hnext⟩)

def smallMode : VideoMode where
  pitch := 60
  width := 20
  height := 10
  bpp := 24
  pitch_lt := by decide
  width_lt := by decide
  height_lt := by decide
  bpp_lt := VideoMode.onePixel.bpp_lt

def solidFont : PsfFont where
  headerSize := 32
  height := 4
  width := 8
  byte := fun _ => 255
  headerSize_lt := by decide
  height_lt := by decide
  width_lt := by decide

/-- Backspace gives back the cursor of a character that stays in its row. -/
theorem print_backspace_undoes_iff (hwidth : margin + font.width < mode.width) (str : List UInt8) (hnewline : c ≠ 0x0A)
    (hbackspace : c ≠ 0x08) :
    (((start.print mode font str).1.terminalWritechar mode font c).1.terminalWritechar mode font 0x08).1 =
        (start.print mode font str).1 ↔
      (start.print mode font str).1.StaysInRow mode font :=
  backspace_undoes_iff hwidth hnewline hbackspace

theorem smallMode_undoes_iff :
    (((start.print smallMode solidFont [0x41]).1.terminalWritechar smallMode solidFont 0x42).1.terminalWritechar
        smallMode solidFont 0x08).1 = (start.print smallMode solidFont [0x41]).1 ↔
      (start.print smallMode solidFont [0x41]).1.StaysInRow smallMode solidFont :=
  print_backspace_undoes_iff (by decide) [0x41] (by decide) (by decide)

/-- The second character ends the row. -/
theorem smallMode_not_undone :
    ¬ ∀ (mode : VideoMode) (font : PsfFont), margin + font.width < mode.width → ∀ (str : List UInt8) (c : UInt8),
      c ≠ 0x0A → c ≠ 0x08 →
      (((start.print mode font str).1.terminalWritechar mode font c).1.terminalWritechar mode font 0x08).1 =
        (start.print mode font str).1 := by
  intro hall
  have hundone := hall smallMode solidFont (by decide) [0x41] 0x42 (by decide) (by decide)
  rw [backspace_undoes_iff (by decide) (by decide) (by decide)] at hundone
  exact absurd hundone (by decide +kernel)

theorem terminalWritechar_onScreen_iff :
    (∀ w ∈ (t.terminalWritechar mode font c).2, w.OnScreen mode) ↔ t.RoomToDraw mode font c := by
  rw [RoomToDraw]
  by_cases hnewline : c = 0x0A
  · rw [terminalWritechar, if_pos hnewline, if_pos hnewline]
    exact iff_of_true (fun w hw => absurd hw List.not_mem_nil) trivial
  · by_cases hbackspace : c = 0x08
    · rw [terminalWritechar, if_neg hnewline, if_neg hnewline, if_pos hbackspace, if_pos hbackspace, terminalBackspace]
      by_cases hhome : t.row = margin ∧ t.col = margin
      · rw [if_pos hhome]
        exact iff_of_true (fun w hw => absurd hw List.not_mem_nil) (Or.inl hhome)
      · rw [if_neg hhome, or_iff_right hhome, cellBefore]
        by_cases hcol : t.col = margin
        · rw [if_pos hcol, if_pos hcol]
          exact psfClearChar_onScreen_iff bg
        · rw [if_neg hcol, if_neg hcol]
          exact psfClearChar_onScreen_iff bg
    · rw [terminalWritechar_of_printed hnewline hbackspace, if_neg hnewline, if_neg hbackspace]
      exact psfPutc_onScreen_iff fg

theorem print_writes_onScreen_iff (t : Terminal) (str : List UInt8) :
    (∀ w ∈ (t.print mode font str).2, w.OnScreen mode) ↔
      Each (fun t c => (t.terminalWritechar mode font c).1) (RoomToDraw mode font) t str := by
  induction str generalizing t with
  | nil => exact iff_of_true (fun w hw => absurd hw List.not_mem_nil) trivial
  | cons c str ih =>
    rw [print, Each, ← ih, ← terminalWritechar_onScreen_iff]
    exact List.forall_mem_append

end Terminal

end Zhios
