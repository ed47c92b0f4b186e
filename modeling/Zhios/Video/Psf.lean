import Zhios.Video.Vesa

/-! The drawing functions of `src/font/psf.c`. Their `float` products have factor 1 and are exact for the columns and
rows of a cell that fits on a screen. -/
namespace Zhios
open Machine

/-- The fields of `psf_font_t` that are drawn with, and memory from the font on. -/
structure PsfFont where
  headerSize : ℕ
  height : ℕ
  width : ℕ
  byte : ℕ → UInt8
  headerSize_lt : headerSize < 2 ^ 32
  height_lt : height < 2 ^ 32
  width_lt : width < 2 ^ 32

namespace PsfFont
variable (font : PsfFont)

def bytesPerLine : ℕ := uint32 (font.width + 7) / 8 % 2 ^ 8

/-- Where the glyph of a signed character begins. -/
def glyph (c : UInt8) : ℕ :=
  let glyphIndex := uint16 c.toInt8.toInt
  uint32 (font.headerSize + glyphIndex * font.height * font.bytesPerLine)

/-- The bit of a pixel of the glyph. -/
def Lit (c : UInt8) (col row : ℕ) : Prop :=
  font.byte (uint32 (font.glyph c + row * font.bytesPerLine + col / 8)) &&& (128 >>> UInt8.ofNat (col % 8)) ≠ 0

instance (c : UInt8) (col row : ℕ) : Decidable (font.Lit c col row) := inferInstanceAs (Decidable (_ ≠ _))

def psfPutc (c : UInt8) (x y : ℕ) (fg : Pixel) : List ScreenWrite :=
  raster font.height font.width fun col row => if font.Lit c col row then [⟨x + col, y + row, fg⟩] else []

def psfClearChar (x y : ℕ) (color : Pixel) : List ScreenWrite :=
  raster font.height font.width fun col row => [⟨x + col, y + row, color⟩]

/-- The pixels of a cell, by column and row. -/
def cell : Finset (ℕ × ℕ) := Finset.range font.width ×ˢ Finset.range font.height

/-- The pixels of a cell that a glyph sets. -/
def litCell (c : UInt8) : Finset (ℕ × ℕ) := font.cell.filter fun p => font.Lit c p.1 p.2

end PsfFont

/-- `0 <= x < width` and `0 <= y < height`. -/
structure ScreenWrite.OnScreen (w : ScreenWrite) (mode : VideoMode) : Prop where
  left : 0 ≤ w.x
  right : w.x < mode.width
  top : 0 ≤ w.y
  bottom : w.y < mode.height

/-- A box around the pixels, drawn at a place, ends on the screen. -/
def BoxOnScreen (mode : VideoMode) (pixels : Finset (ℕ × ℕ)) (x y : ℕ) : Prop :=
  pixels = ∅ ∨ x + pixels.sup (fun p => p.1 + 1) ≤ mode.width ∧ y + pixels.sup (fun p => p.2 + 1) ≤ mode.height

instance (mode : VideoMode) (pixels : Finset (ℕ × ℕ)) (x y : ℕ) : Decidable (BoxOnScreen mode pixels x y) :=
  inferInstanceAs (Decidable (_ ∨ _ ∧ _))

section
variable {mode : VideoMode} {pixels : Finset (ℕ × ℕ)} {font : PsfFont} {c : UInt8} {x y : ℕ}

theorem add_sup_le_iff {f : ℕ × ℕ → ℕ} {a b : ℕ} (hne : pixels.Nonempty) :
    a + pixels.sup (fun p => f p + 1) ≤ b ↔ ∀ p ∈ pixels, a + f p < b := by
  have hle : a + pixels.sup (fun p => f p + 1) ≤ b ↔ a ≤ b ∧ pixels.sup (fun p => f p + 1) ≤ b - a := by omega
  rw [hle, Finset.sup_le_iff]
  constructor
  · intro h p hp
    have hpixel := h.2 p hp
    omega
  · intro h
    obtain ⟨p, hp⟩ := hne
    have hfirst := h p hp
    exact ⟨by omega, fun q hq => Nat.le_sub_of_add_le (by have hpixel := h q hq; omega)⟩

theorem boxOnScreen_iff (pixel : Pixel) {writes : List ScreenWrite}
    (h : ∀ w, w ∈ writes ↔ ∃ p ∈ pixels, w = ⟨(x : ℤ) + p.1, (y : ℤ) + p.2, pixel⟩) :
    (∀ w ∈ writes, w.OnScreen mode) ↔ BoxOnScreen mode pixels x y := by
  have hpixels : (∀ w ∈ writes, w.OnScreen mode) ↔ ∀ p ∈ pixels, x + p.1 < mode.width ∧ y + p.2 < mode.height := by
    constructor
    · intro hall p hp
      have hwrite := hall _ ((h _).mpr ⟨p, hp, rfl⟩)
      have hright := hwrite.right
      have hbottom := hwrite.bottom
      simp only at hright hbottom
      omega
    · intro hall w hw
      obtain ⟨p, hp, rfl⟩ := (h w).mp hw
      obtain ⟨hright, hbottom⟩ := hall p hp
      refine ⟨?_, ?_, ?_, ?_⟩ <;> simp only <;> omega
  rw [hpixels]
  rcases pixels.eq_empty_or_nonempty with rfl | hne
  · exact iff_of_true (fun p hp => absurd hp (Finset.notMem_empty p)) (Or.inl rfl)
  · rw [BoxOnScreen, add_sup_le_iff hne, add_sup_le_iff hne, or_iff_right hne.ne_empty]
    exact forall₂_and

theorem mem_cell {p : ℕ × ℕ} : p ∈ font.cell ↔ p.1 < font.width ∧ p.2 < font.height := by
  rw [PsfFont.cell, Finset.mem_product, Finset.mem_range, Finset.mem_range]

theorem psfPutc_onScreen_iff (fg : Pixel) :
    (∀ w ∈ font.psfPutc c x y fg, w.OnScreen mode) ↔ BoxOnScreen mode (font.litCell c) x y := by
  refine boxOnScreen_iff fg fun w => ?_
  rw [PsfFont.psfPutc, mem_raster]
  constructor
  · rintro ⟨row, hrow, col, hcol, hmem⟩
    split_ifs at hmem with hlit
    · exact ⟨(col, row), Finset.mem_filter.mpr ⟨mem_cell.mpr ⟨hcol, hrow⟩, hlit⟩, List.mem_singleton.mp hmem⟩
    · exact absurd hmem List.not_mem_nil
  · rintro ⟨p, hp, rfl⟩
    obtain ⟨hcell, hlit⟩ := Finset.mem_filter.mp hp
    obtain ⟨hcol, hrow⟩ := mem_cell.mp hcell
    refine ⟨p.2, hrow, p.1, hcol, ?_⟩
    rw [if_pos hlit]
    exact List.mem_singleton_self _

theorem psfClearChar_onScreen_iff (color : Pixel) :
    (∀ w ∈ font.psfClearChar x y color, w.OnScreen mode) ↔ BoxOnScreen mode font.cell x y := by
  refine boxOnScreen_iff color fun w => ?_
  rw [PsfFont.psfClearChar, mem_raster]
  constructor
  · rintro ⟨row, hrow, col, hcol, hmem⟩
    exact ⟨(col, row), mem_cell.mpr ⟨hcol, hrow⟩, List.mem_singleton.mp hmem⟩
  · rintro ⟨p, hp, rfl⟩
    obtain ⟨hcol, hrow⟩ := mem_cell.mp hp
    exact ⟨p.2, hrow, p.1, hcol, List.mem_singleton_self _⟩

end

end Zhios
