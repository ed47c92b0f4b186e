import Zhios.Video.Terminal

/-! The picture on the screen against the bytes of the frame buffer. Writes that
stay on the screen may be followed on a picture of single pixels. -/
namespace Zhios
open Machine

/-- Colours by column and row. -/
abbrev Picture := ℤ × ℤ → Pixel

/-- The picture after some writes, the first one first. -/
def draw (writes : List ScreenWrite) (pic : Picture) : Picture :=
  storeAll (writes.map fun w => ((w.x, w.y), w.pixel)) pic

namespace VideoMode

def store (mode : VideoMode) (writes : List ScreenWrite) (fb : ℕ → UInt8) : ℕ → UInt8 :=
  storeAll (writes.flatMap mode.writeToScreen) fb

/-- Every pixel of the screen is found in the frame buffer as it is in the picture. -/
def ShowsPicture (mode : VideoMode) (fb : ℕ → UInt8) (pic : Picture) : Prop :=
  ∀ x < mode.width, ∀ y < mode.height, mode.Shows fb x y (pic (x, y))

namespace TrueColour
variable {mode : VideoMode} {fb : ℕ → UInt8} {pic : Picture} {x y x' y' : ℕ} (h : mode.TrueColour)
include h

theorem place_frame (hx : x < mode.width) (hy : y < mode.height) : mode.place x y + 3 ≤ mode.height * mode.pitch :=
  (h.place_lt hx).trans (Nat.mul_le_mul_right _ hy)

theorem place_visible (hx : x < mode.width) (hy : y < mode.height) : mode.place x y + 2 < 2 ^ 32 := by
  have hplace := h.place_frame hx hy
  have hframe : mode.height * mode.pitch ≤ 65535 * 65535 := by
    have hheight := mode.height_lt
    have hpitch := mode.pitch_lt
    exact Nat.mul_le_mul (by omega) (by omega)
  omega

theorem place_apart (hx : x < mode.width) (hx' : x' < mode.width) (hne : (x, y) ≠ (x', y')) :
    mode.place x y + 3 ≤ mode.place x' y' ∨ mode.place x' y' + 3 ≤ mode.place x y := by
  have horder : (y < y' ∨ y = y' ∧ x < x') ∨ (y' < y ∨ y' = y ∧ x' < x) := by
    rw [Ne, Prod.mk.injEq] at hne
    omega
  rcases horder with hlater | hearlier
  · exact Or.inl (h.place_later hx hlater)
  · exact Or.inr (h.place_later hx' hearlier)

theorem shows_write (hx : x < mode.width) (hy : y < mode.height) (p : Pixel) (hpic : mode.ShowsPicture fb pic) :
    mode.ShowsPicture (storeAll (mode.writeToScreen ⟨x, y, p⟩) fb) (Function.update pic ((x : ℤ), (y : ℤ)) p) := by
  intro x' hx' y' hy'
  rw [writeToScreen_eq (h.place_visible hx hy)]
  rcases eq_or_ne (x, y) (x', y') with heq | hne
  · obtain ⟨rfl, rfl⟩ := Prod.mk.inj heq
    rw [Function.update_self]
    constructor <;> simp [storeAll]
  · have hcast : ((x' : ℤ), (y' : ℤ)) ≠ ((x : ℤ), (y : ℤ)) := by
      intro heq
      obtain ⟨hcol, hrow⟩ := Prod.mk.inj heq
      exact hne (by rw [Nat.cast_inj.mp hcol, Nat.cast_inj.mp hrow])
    have hapart := h.place_apart hx hx' hne
    have hold := hpic x' hx' y' hy'
    rw [Function.update_of_ne hcast]
    constructor
    · rw [← hold.blue]
      apply storeAll_of_forall_ne
      simp
      omega
    · rw [← hold.green]
      apply storeAll_of_forall_ne
      simp
      omega
    · rw [← hold.red]
      apply storeAll_of_forall_ne
      simp
      omega

theorem write_apart (hx : x < mode.width) (hy : y < mode.height) (p : Pixel) {a : ℕ}
    (ha : a < mode.place x y ∨ mode.place x y + 3 ≤ a) : storeAll (mode.writeToScreen ⟨x, y, p⟩) fb a = fb a := by
  rw [writeToScreen_eq (h.place_visible hx hy)]
  apply storeAll_of_forall_ne
  simp
  omega

/-- Drawing on the picture is storing in the frame buffer, in the bytes of pixels. -/
theorem shows_draw {writes : List ScreenWrite} (hwrites : ∀ w ∈ writes, w.OnScreen mode)
    (hpic : mode.ShowsPicture fb pic) : mode.ShowsPicture (mode.store writes fb) (draw writes pic) ∧
      ∀ a, (∀ x < mode.width, ∀ y < mode.height, a < mode.place x y ∨ mode.place x y + 3 ≤ a) →
        mode.store writes fb a = fb a := by
  induction writes generalizing fb pic with
  | nil => exact ⟨hpic, fun _ _ => rfl⟩
  | cons w writes ih =>
    obtain ⟨hfirst, hrest⟩ := List.forall_mem_cons.mp hwrites
    obtain ⟨col, row, p⟩ := w
    obtain ⟨x, rfl⟩ := Int.eq_ofNat_of_zero_le hfirst.left
    obtain ⟨y, rfl⟩ := Int.eq_ofNat_of_zero_le hfirst.top
    have hx : x < mode.width := Int.ofNat_lt.mp hfirst.right
    have hy : y < mode.height := Int.ofNat_lt.mp hfirst.bottom
    obtain ⟨hshows, hkept⟩ := ih hrest (h.shows_write hx hy p hpic)
    rw [store, List.flatMap_cons, storeAll_append]
    exact ⟨hshows, fun a ha => (hkept a ha).trans (h.write_apart hx hy p (ha x hx y hy))⟩

theorem store_outside {writes : List ScreenWrite} (hwrites : ∀ w ∈ writes, w.OnScreen mode)
    (hpic : mode.ShowsPicture fb pic) {a : ℕ} (ha : mode.height * mode.pitch ≤ a) :
    mode.store writes fb a = fb a := by
  refine (h.shows_draw hwrites hpic).2 a fun x hx y hy => Or.inr ?_
  exact (h.place_frame hx hy).trans ha

/-- The picture says what the frame buffer holds: writes that draw the same store the same. -/
theorem store_eq_of_draw_eq {writes writes' : List ScreenWrite} (hwrites : ∀ w ∈ writes, w.OnScreen mode)
    (hwrites' : ∀ w ∈ writes', w.OnScreen mode) (hpic : mode.ShowsPicture fb pic)
    (hdraw : draw writes pic = draw writes' pic) : mode.store writes fb = mode.store writes' fb := by
  obtain ⟨hshows, hkept⟩ := h.shows_draw hwrites hpic
  obtain ⟨hshows', hkept'⟩ := h.shows_draw hwrites' hpic
  rw [← hdraw] at hshows'
  funext a
  by_cases ha : ∀ x < mode.width, ∀ y < mode.height, a < mode.place x y ∨ mode.place x y + 3 ≤ a
  · rw [hkept a ha, hkept' a ha]
  · -- a byte of some pixel, which both show
    push Not at ha
    obtain ⟨x, hx, y, hy, hlo, hhi⟩ := ha
    have hpixel := hshows x hx y hy
    have hpixel' := hshows' x hx y hy
    obtain rfl | rfl | rfl : a = mode.place x y ∨ a = mode.place x y + 1 ∨ a = mode.place x y + 2 := by omega
    · rw [hpixel.blue, hpixel'.blue]
    · rw [hpixel.green, hpixel'.green]
    · rw [hpixel.red, hpixel'.red]

end TrueColour

end VideoMode

namespace Terminal

/-- Where there is room for every character, the frame buffer shows what the writes of a
printed string make of the picture before, and nothing outside it changes. -/
theorem print_shows (mode : VideoMode) (font : PsfFont) (h : mode.TrueColour) (t : Terminal) (str : List UInt8)
    (hroom : Each (fun t c => (t.terminalWritechar mode font c).1) (RoomToDraw mode font) t str)
    (fb : ℕ → UInt8) (pic : Picture) (hpic : mode.ShowsPicture fb pic) :
    mode.ShowsPicture (mode.store (t.print mode font str).2 fb) (draw (t.print mode font str).2 pic) ∧
      ∀ a, mode.height * mode.pitch ≤ a → mode.store (t.print mode font str).2 fb a = fb a := by
  have hwrites := (print_writes_onScreen_iff t str).mpr hroom
  exact ⟨(h.shows_draw hwrites hpic).1, fun a ha => h.store_outside hwrites hpic ha⟩

end Terminal

def blankBuffer (a : ℕ) : UInt8 :=
  if a % 3 = 0 then Terminal.bg.blue else if a % 3 = 1 then Terminal.bg.green else Terminal.bg.red

theorem blankBuffer_shows : Terminal.smallMode.ShowsPicture blankBuffer fun _ => Terminal.bg := by
  intro x _ y _
  have hplace : Terminal.smallMode.place x y = 3 * (20 * y + x) := by
    change y * 60 + x * 3 = _
    omega
  have hblue : 3 * (20 * y + x) % 3 = 0 := by omega
  have hgreen : (3 * (20 * y + x) + 1) % 3 = 1 := by omega
  have hred : (3 * (20 * y + x) + 2) % 3 = 2 := by omega
  constructor
  · simp only [hplace, blankBuffer, hblue, if_true]
  · simp only [hplace, blankBuffer, hgreen, if_true, if_neg one_ne_zero]
  · simp only [hplace, blankBuffer, hred, if_neg two_ne_zero, if_neg (show ¬ 2 = 1 by decide)]

theorem Terminal.print_shows_small :
    Terminal.smallMode.ShowsPicture
      (Terminal.smallMode.store (Terminal.start.print Terminal.smallMode Terminal.solidFont [0x41]).2 blankBuffer)
      (draw (Terminal.start.print Terminal.smallMode Terminal.solidFont [0x41]).2 fun _ => Terminal.bg) :=
  (Terminal.print_shows Terminal.smallMode Terminal.solidFont ⟨Or.inl rfl, le_rfl⟩ Terminal.start [0x41]
    ⟨by decide +kernel, trivial⟩ blankBuffer _ blankBuffer_shows).1

end Zhios
