import Zhios.Machine.Raster
import Zhios.Machine.Word

/-! The frame buffer of `src/vesa/vesa.c`. The signed products of `write_to_screen` are taken to wrap. -/
namespace Zhios
open Machine

structure Pixel where
  red : UInt8
  green : UInt8
  blue : UInt8
  deriving DecidableEq

/-- The fields of `vbe_mode_info_t` that the drawing functions read. -/
structure VideoMode where
  pitch : ℕ
  width : ℕ
  height : ℕ
  bpp : ℕ
  pitch_lt : pitch < 2 ^ 16
  width_lt : width < 2 ^ 16
  height_lt : height < 2 ^ 16
  bpp_lt : bpp < 2 ^ 8

/-- The arguments of a call of `write_to_screen`. -/
structure ScreenWrite where
  x : ℤ
  y : ℤ
  pixel : Pixel
  deriving DecidableEq

namespace VideoMode

/-- Offsets in the frame buffer, and what is stored there. -/
def writeToScreen (mode : VideoMode) (w : ScreenWrite) : List (ℕ × UInt8) :=
  let offset := uint32 (w.y * mode.pitch + w.x * (mode.bpp / 8 : ℕ))
  [(offset, w.pixel.blue), (uint32 (offset + 1), w.pixel.green), (uint32 (offset + 2), w.pixel.red)]

def vesaFillBg (mode : VideoMode) (bg : Pixel) : List (ℕ × UInt8) :=
  raster mode.height mode.pitch fun x y => mode.writeToScreen ⟨x, y, bg⟩

def place (mode : VideoMode) (x y : ℕ) : ℕ := y * mode.pitch + x * (mode.bpp / 8)

/-- A pixel as it is found in the frame buffer. -/
structure Shows (mode : VideoMode) (fb : ℕ → UInt8) (x y : ℕ) (p : Pixel) : Prop where
  blue : fb (mode.place x y) = p.blue
  green : fb (mode.place x y + 1) = p.green
  red : fb (mode.place x y + 2) = p.red

/-- `vesa_fill_bg` covers the screen and stays in the frame buffer. -/
structure Filled (mode : VideoMode) (bg : Pixel) : Prop where
  covers : ∀ fb x y, x < mode.width → y < mode.height → mode.Shows (storeAll (mode.vesaFillBg bg) fb) x y bg
  inside : ∀ s ∈ mode.vesaFillBg bg, s.1 < mode.height * mode.pitch

/-- The two depths in which a pixel has its three bytes, and lines that hold the pixels of a row. -/
structure TrueColour (mode : VideoMode) : Prop where
  depth : mode.bpp = 24 ∨ mode.bpp = 32
  line : mode.width * mode.bpp / 8 ≤ mode.pitch

variable {mode : VideoMode} {bg : Pixel} {x y x' y' : ℕ}

theorem writeToScreen_eq (h : mode.place x y + 2 < 2 ^ 32) :
    mode.writeToScreen ⟨x, y, bg⟩ =
      [(mode.place x y, bg.blue), (mode.place x y + 1, bg.green), (mode.place x y + 2, bg.red)] := by
  have hword : ∀ n : ℕ, n < 2 ^ 32 → uint32 n = n := fun n hn => by
    have hcast := uint32_of_bounds (Int.natCast_nonneg n) (by exact_mod_cast hn)
    exact_mod_cast hcast
  have hoffset : uint32 ((y : ℤ) * mode.pitch + x * (mode.bpp / 8 : ℕ)) = mode.place x y := by
    have hcast : (y : ℤ) * mode.pitch + x * (mode.bpp / 8 : ℕ) = (mode.place x y : ℕ) := by
      rw [place]
      push_cast
      rfl
    rw [hcast, hword _ (by omega)]
  have hgreen : uint32 ((mode.place x y : ℕ) + 1) = mode.place x y + 1 := hword (mode.place x y + 1) (by omega)
  have hred : uint32 ((mode.place x y : ℕ) + 2) = mode.place x y + 2 := hword (mode.place x y + 2) h
  simp only [writeToScreen, hoffset, hgreen, hred]

namespace TrueColour
variable (h : mode.TrueColour)
include h

theorem bytes : 3 ≤ mode.bpp / 8 ∧ mode.bpp / 8 ≤ 4 := by
  rcases h.depth with hdepth | hdepth <;> rw [hdepth] <;> decide

theorem row_le : mode.width * (mode.bpp / 8) ≤ mode.pitch := by
  have hline := h.line
  rcases h.depth with hdepth | hdepth <;> rw [hdepth] at hline ⊢ <;> omega

theorem place_lt (hx : x < mode.width) : mode.place x y + 3 ≤ (y + 1) * mode.pitch := by
  have hcell : (x + 1) * (mode.bpp / 8) ≤ mode.pitch := (Nat.mul_le_mul_right _ hx).trans h.row_le
  have hbytes := h.bytes.1
  rw [Nat.add_mul, Nat.one_mul] at hcell ⊢
  rw [place]
  omega

/-- The pixels behind a visible one begin behind its bytes. -/
theorem place_later (hx : x < mode.width) (hlater : y < y' ∨ y = y' ∧ x < x') :
    mode.place x y + 3 ≤ mode.place x' y' := by
  rcases hlater with hlt | ⟨rfl, hlt⟩
  · exact (h.place_lt hx).trans ((Nat.mul_le_mul_right _ hlt).trans (Nat.le_add_right _ _))
  · have hcell : (x + 1) * (mode.bpp / 8) ≤ x' * (mode.bpp / 8) := Nat.mul_le_mul_right _ hlt
    have hbytes := h.bytes.1
    rw [Nat.add_mul, Nat.one_mul] at hcell
    rw [place, place]
    omega

theorem place_word (hword : (mode.height - 1) * mode.pitch + mode.pitch * (mode.bpp / 8) ≤ 2 ^ 32) (hx : x < mode.pitch)
    (hy : y < mode.height) : mode.place x y + 2 < 2 ^ 32 := by
  have hrow : y * mode.pitch ≤ (mode.height - 1) * mode.pitch := Nat.mul_le_mul_right _ (by omega)
  have hcell : (x + 1) * (mode.bpp / 8) ≤ mode.pitch * (mode.bpp / 8) := Nat.mul_le_mul_right _ hx
  have hbytes := h.bytes.1
  rw [Nat.add_mul, Nat.one_mul] at hcell
  rw [place]
  omega

/-- Every pixel is covered where the offsets are words. -/
theorem shows_vesaFillBg (hword : (mode.height - 1) * mode.pitch + mode.pitch * (mode.bpp / 8) ≤ 2 ^ 32)
    (fb : ℕ → UInt8) (hx : x < mode.width) (hy : y < mode.height) :
    mode.Shows (storeAll (mode.vesaFillBg bg) fb) x y bg := by
  have hbytes := h.bytes.1
  have hpitch : x < mode.pitch := by
    have hrow := h.row_le
    have hwide : mode.width * 1 ≤ mode.width * (mode.bpp / 8) := Nat.mul_le_mul_left _ (by omega)
    omega
  obtain ⟨earlier, later, hsplit, hlater⟩ :=
    raster_split (fun x y => mode.writeToScreen ⟨x, y, bg⟩) hy hpitch
  have hbehind : ∀ s ∈ later, mode.place x y + 3 ≤ s.1 := by
    intro s hs
    obtain ⟨y', hy', x', hx', horder, hmem⟩ := hlater s hs
    have hplace := h.place_later hx horder
    rw [writeToScreen_eq (h.place_word hword hx' hy')] at hmem
    simp only [List.mem_cons, List.not_mem_nil, or_false] at hmem
    rcases hmem with rfl | rfl | rfl <;> simp only <;> omega
  rw [writeToScreen_eq (h.place_word hword hpitch hy)] at hsplit
  have hnodup : ([(mode.place x y, bg.blue), (mode.place x y + 1, bg.green), (mode.place x y + 2, bg.red)].map
      Prod.fst).Nodup := by
    simp
  have hkept : ∀ a < mode.place x y + 3, ∀ s ∈ later, s.1 ≠ a := fun a ha s hs heq => by
    have hs' := hbehind s hs
    omega
  rw [vesaFillBg, hsplit]
  refine ⟨storeAll_last hnodup ?_ (hkept _ (by omega)), storeAll_last hnodup ?_ (hkept _ (by omega)),
    storeAll_last hnodup ?_ (hkept _ (by omega))⟩
  · exact List.mem_cons_self
  · exact List.mem_cons_of_mem _ List.mem_cons_self
  · exact List.mem_cons_of_mem _ (List.mem_cons_of_mem _ List.mem_cons_self)

/-- A pixel of the loops whose bytes run over the end of the line. -/
theorem beyond (hpitch : mode.pitch ≠ 0) :
    ∃ x < mode.pitch, mode.pitch ≤ x * (mode.bpp / 8) + 2 ∧ x * (mode.bpp / 8) < mode.pitch + 4 := by
  by_cases hone : mode.pitch = 1
  · exact ⟨0, by omega, by omega, by omega⟩
  · rcases h.depth with hdepth | hdepth <;> rw [hdepth]
    · exact ⟨(mode.pitch + 2) / 3, by omega, by omega, by omega⟩
    · exact ⟨(mode.pitch + 3) / 4, by omega, by omega, by omega⟩

/-- The loop that runs over the bytes of a line instead of its pixels leaves the frame buffer. -/
theorem not_inside (bg : Pixel) (hheight : mode.height ≠ 0) (hpitch : mode.pitch ≠ 0) :
    ∃ s ∈ mode.vesaFillBg bg, mode.height * mode.pitch ≤ s.1 := by
  obtain ⟨y, hy⟩ : ∃ y, mode.height = y + 1 := Nat.exists_eq_succ_of_ne_zero hheight
  obtain ⟨x, hx, hlow, hhigh⟩ := h.beyond hpitch
  have hsize : (y + 1) * mode.pitch ≤ 65535 * 65535 := by
    have hlines := mode.height_lt
    have hline := mode.pitch_lt
    exact Nat.mul_le_mul (by omega) (by omega)
  have hplace : mode.place x y = y * mode.pitch + x * (mode.bpp / 8) := rfl
  rw [Nat.add_mul, Nat.one_mul] at hsize
  refine ⟨(mode.place x y + 2, bg.red), mem_raster.mpr ⟨y, by omega, x, hx, ?_⟩, ?_⟩
  · rw [writeToScreen_eq (by omega)]
    exact List.mem_cons_of_mem _ (List.mem_cons_of_mem _ List.mem_cons_self)
  · rw [hy, Nat.add_mul, Nat.one_mul]
    simp only
    omega

end TrueColour

def onePixel : VideoMode where
  pitch := 3
  width := 1
  height := 1
  bpp := 24
  pitch_lt := by decide
  width_lt := by decide
  height_lt := by decide
  bpp_lt := by decide

theorem trueColour_onePixel : onePixel.TrueColour := ⟨Or.inl rfl, le_rfl⟩

/-- Only an empty frame buffer is filled as it should be. -/
theorem filled_iff (h : mode.TrueColour) : mode.Filled bg ↔ mode.height = 0 ∨ mode.pitch = 0 := by
  constructor
  · intro hfilled
    by_contra hnot
    rw [not_or] at hnot
    obtain ⟨s, hs, hout⟩ := h.not_inside bg hnot.1 hnot.2
    exact absurd (hfilled.inside s hs) (Nat.not_lt.mpr hout)
  · intro hempty
    have hnone : ∀ s, s ∉ mode.vesaFillBg bg := by
      intro s hs
      obtain ⟨y, hy, x, hx, _⟩ := mem_raster.mp hs
      omega
    refine ⟨fun fb x y hx hy => ?_, fun s hs => absurd hs (hnone s)⟩
    have hcell := h.place_lt (y := 0) hx
    omega

theorem onePixel_filled_iff : onePixel.Filled ⟨7, 15, 43⟩ ↔ onePixel.height = 0 ∨ onePixel.pitch = 0 :=
  filled_iff trueColour_onePixel

/-- Three pixels are written where the line holds one. -/
theorem onePixel_overflow : ¬ ∀ mode : VideoMode, mode.TrueColour → ∀ bg, mode.Filled bg := by
  intro hall
  obtain ⟨s, hs, hout⟩ := trueColour_onePixel.not_inside ⟨7, 15, 43⟩ (by decide) (by decide)
  have hinside := (hall onePixel trueColour_onePixel ⟨7, 15, 43⟩).inside s hs
  exact absurd hinside (Nat.not_lt.mpr hout)

end VideoMode

end Zhios
