import Zhios.Video.Picture
import Zhios.Syslib.ReadLine

/-! The echo of a line that is being typed. While it stays in its row of the screen,
printing the keys, backspaces included, is printing the line they leave, so the
screen shows what `read_line` returns. -/
namespace Zhios
open Machine

section Cell
variable {font : PsfFont} {c : UInt8} {x y : ℕ} {p : Pixel} {pic : Picture} {a : ℤ × ℤ}

/-- Inside the cell of a character at `(x, y)`. -/
def InCell (font : PsfFont) (x y : ℕ) (a : ℤ × ℤ) : Prop :=
  (x ≤ a.1 ∧ a.1 < x + font.width) ∧ y ≤ a.2 ∧ a.2 < y + font.height

instance (font : PsfFont) (x y : ℕ) (a : ℤ × ℤ) : Decidable (InCell font x y a) := by
  delta InCell
  infer_instance

theorem draw_psfPutc_outside (h : ¬ InCell font x y a) : draw (font.psfPutc c x y p) pic a = pic a := by
  apply storeAll_of_forall_ne
  rintro s hs rfl
  obtain ⟨w, hw, rfl⟩ := List.mem_map.mp hs
  obtain ⟨row, hrow, col, hcol, hmem⟩ := mem_raster.mp hw
  split_ifs at hmem
  · obtain rfl := List.mem_singleton.mp hmem
    apply h
    simp only [InCell]
    omega
  · exact List.not_mem_nil hmem

theorem draw_psfClearChar_outside (h : ¬ InCell font x y a) : draw (font.psfClearChar x y p) pic a = pic a := by
  apply storeAll_of_forall_ne
  rintro s hs rfl
  obtain ⟨w, hw, rfl⟩ := List.mem_map.mp hs
  obtain ⟨row, hrow, col, hcol, hmem⟩ := mem_raster.mp hw
  obtain rfl := List.mem_singleton.mp hmem
  apply h
  simp only [InCell]
  omega

theorem draw_psfClearChar_inside (h : InCell font x y a) : draw (font.psfClearChar x y p) pic a = p := by
  obtain ⟨⟨hleft, hright⟩, htop, hbottom⟩ := h
  apply storeAll_of_mem_const
  · intro s hs
    obtain ⟨w, hw, rfl⟩ := List.mem_map.mp hs
    obtain ⟨row, hrow, col, hcol, hmem⟩ := mem_raster.mp hw
    rw [List.mem_singleton.mp hmem]
  · refine ⟨(a, p), List.mem_map.mpr ⟨⟨a.1, a.2, p⟩, ?_, rfl⟩, rfl⟩
    refine mem_raster.mpr ⟨(a.2 - y).toNat, by omega, (a.1 - x).toNat, by omega, ?_⟩
    rw [List.mem_singleton, ScreenWrite.mk.injEq]
    refine ⟨by omega, by omega, rfl⟩

/-- A character drawn on a blank cell is cleared away. -/
theorem draw_clear_putc (hblank : ∀ a, InCell font x y a → pic a = p) (fg : Pixel) :
    draw (font.psfClearChar x y p) (draw (font.psfPutc c x y fg) pic) = pic := by
  funext a
  by_cases hcell : InCell font x y a
  · rw [draw_psfClearChar_inside hcell, hblank a hcell]
  · rw [draw_psfClearChar_outside hcell, draw_psfPutc_outside hcell]

end Cell

theorem boxOnScreen_of_subset {mode : VideoMode} {font : PsfFont} {pixels : Finset (ℕ × ℕ)} {x y : ℕ}
    (hpixels : pixels ⊆ font.cell) (hright : x + font.width ≤ mode.width) (hbottom : y + font.height ≤ mode.height) :
    BoxOnScreen mode pixels x y := by
  have hcell : ∀ p ∈ pixels, p.1 < font.width ∧ p.2 < font.height := fun p hp => mem_cell.mp (hpixels hp)
  have hwide : pixels.sup (fun p => p.1 + 1) ≤ font.width := Finset.sup_le fun p hp => (hcell p hp).1
  have hhigh : pixels.sup (fun p => p.2 + 1) ≤ font.height := Finset.sup_le fun p hp => (hcell p hp).2
  exact Or.inr ⟨by omega, by omega⟩

theorem draw_append (writes later : List ScreenWrite) (pic : Picture) :
    draw (writes ++ later) pic = draw later (draw writes pic) := by
  rw [draw, List.map_append, storeAll_append]
  rfl

namespace Terminal
variable (mode : VideoMode) (font : PsfFont)

/-- The cursor and the picture after a character. -/
def shown (s : Terminal × Picture) (c : UInt8) : Terminal × Picture :=
  let r := s.1.terminalWritechar mode font c
  (r.1, draw r.2 s.2)

variable {mode font} {t : Terminal} {c : UInt8} {pic : Picture}

theorem foldl_shown (t : Terminal) (str : List UInt8) (pic : Picture) :
    str.foldl (shown mode font) (t, pic) = ((t.print mode font str).1, draw (t.print mode font str).2 pic) := by
  induction str generalizing t pic with
  | nil => rfl
  | cons c str ih =>
    rw [List.foldl_cons]
    simp only [shown, print, ih, draw_append]

/-- The cursor behind `n` characters of a line that stays in its row. -/
structure Behind (font : PsfFont) (t : Terminal) (n : ℕ) (u : Terminal) : Prop where
  row : u.row = t.row
  col : u.col = t.col + n * (font.width + 1)

theorem shown_printed (pic : Picture) (hnewline : c ≠ 0x0A) (hbackspace : c ≠ backspace) {n : ℕ} {u : Terminal}
    (hu : Behind font t n u) (hfits : t.col + (n + 1) * (font.width + 1) < mode.width) :
    (shown mode font (u, pic) c).1 = u.moveToNextCol font ∧ Behind font t (n + 1) (u.moveToNextCol font) ∧
      (shown mode font (u, pic) c).2 = draw (font.psfPutc c u.col u.row fg) pic := by
  have hwidth := mode.width_lt
  have hcol := hu.col
  rw [Nat.add_mul, Nat.one_mul] at hfits
  have hnext : (u.moveToNextCol font).col = u.col + (font.width + 1) := by
    rw [moveToNextCol_col, nextCol]
    omega
  have hstays : ¬ mode.width ≤ (u.moveToNextCol font).col := by omega
  simp only [shown, terminalWritechar_of_printed hnewline hbackspace, if_neg hstays, true_and, and_true]
  constructor
  · exact hu.row
  · rw [hnext, hcol, Nat.add_mul, Nat.one_mul, Nat.add_assoc]

/-- What a line draws lies to the left of the cursor behind it. -/
theorem foldl_shown_line (pic : Picture) {line : List UInt8} (hnewline : 0x0A ∉ line) (hbackspace : backspace ∉ line)
    (hfits : t.col + line.length * (font.width + 1) < mode.width) :
    Behind font t line.length (line.foldl (shown mode font) (t, pic)).1 ∧
      ∀ a : ℤ × ℤ, t.col + line.length * (font.width + 1) ≤ a.1 →
        (line.foldl (shown mode font) (t, pic)).2 a = pic a := by
  induction line using List.reverseRecOn with
  | nil => exact ⟨⟨rfl, by simp⟩, fun a _ => rfl⟩
  | append_singleton line c ih =>
    rw [List.mem_append, List.mem_singleton, not_or] at hnewline hbackspace
    rw [List.length_append, List.length_singleton] at hfits ⊢
    have hshort : t.col + line.length * (font.width + 1) < mode.width := by
      rw [Nat.add_mul] at hfits
      omega
    obtain ⟨hbehind, hkept⟩ := ih hnewline.1 hbackspace.1 hshort
    obtain ⟨hcursor, hnext, hpicture⟩ := shown_printed (line.foldl (shown mode font) (t, pic)).2
      (Ne.symm hnewline.2) (Ne.symm hbackspace.2) hbehind hfits
    rw [List.foldl_append, List.foldl_cons, List.foldl_nil]
    refine ⟨hcursor ▸ hnext, fun a ha => ?_⟩
    rw [hpicture, draw_psfPutc_outside, hkept a]
    · push_cast at ha
      nlinarith
    · have hcol := hbehind.col
      simp only [InCell, hcol]
      push_cast at ha ⊢
      intro hcell
      nlinarith [hcell.1.2]

/-- A backspace behind such a character gives the cursor and the picture back. -/
theorem shown_undone (hnewline : c ≠ 0x0A) (hbackspace : c ≠ backspace) {n : ℕ} {u : Terminal} (hu : Behind font t n u)
    (hmargin : margin ≤ t.col) (hfits : t.col + (n + 1) * (font.width + 1) < mode.width)
    (hblank : ∀ a, InCell font u.col u.row a → pic a = bg) :
    shown mode font (shown mode font (u, pic) c) backspace = (u, pic) := by
  obtain ⟨hcursor, hnext, hpicture⟩ := shown_printed pic hnewline hbackspace hu hfits
  have hcol : (u.moveToNextCol font).col ≠ margin := by
    rw [hnext.col, Nat.add_mul, Nat.one_mul]
    omega
  have hback : (u.moveToNextCol font).terminalWritechar mode font backspace =
      (u, font.psfClearChar u.col u.row bg) := by
    change (u.moveToNextCol font).terminalBackspace mode font = _
    simp only [terminalBackspace, if_neg fun h : _ ∧ _ => hcol h.2, if_neg hcol, moveToPrevCol_moveToNextCol]
  generalize hs : shown mode font (u, pic) c = s at hcursor hpicture ⊢
  obtain ⟨v, after⟩ := s
  obtain rfl : v = u.moveToNextCol font := hcursor
  obtain rfl : after = draw (font.psfPutc c u.col u.row fg) pic := hpicture
  simp only [shown, hback, draw_clear_putc hblank]

/-- The line after some keys, typed from an empty one. -/
def lineOf (keys : List UInt8) : Typed := keys.foldl Typed.key ⟨[], 0⟩

theorem lineOf_snoc (keys : List UInt8) (key : UInt8) : lineOf (keys ++ [key]) = (lineOf keys).key key := by
  rw [lineOf, List.foldl_append]
  rfl

/-- A line holds keys that are no backspaces. -/
theorem mem_lineOf {keys : List UInt8} (h : c ∈ (lineOf keys).line) : c ∈ keys ∧ c ≠ backspace := by
  induction keys using List.reverseRecOn with
  | nil => exact absurd h List.not_mem_nil
  | append_singleton keys key ih =>
    rw [lineOf_snoc] at h
    by_cases hkey : key = backspace
    · subst hkey
      rw [Typed.line_backspace] at h
      obtain ⟨hmem, hne⟩ := ih (List.dropLast_subset _ h)
      exact ⟨List.mem_append_left _ hmem, hne⟩
    · rw [Typed.line_key _ hkey] at h
      rcases List.mem_append.mp h with hold | hnew
      · obtain ⟨hmem, hne⟩ := ih hold
        exact ⟨List.mem_append_left _ hmem, hne⟩
      · obtain rfl := List.mem_singleton.mp hnew
        exact ⟨List.mem_append_right _ hnew, hkey⟩

/-- Typed from the cursor `t`, the line stays in its row of the screen at every moment, and
no backspace finds it empty. -/
structure FitsRow (mode : VideoMode) (font : PsfFont) (t : Terminal) (keys : List UInt8) : Prop where
  left : margin ≤ t.col
  bottom : t.row + font.height ≤ mode.height
  line : ∀ typed, typed <+: keys →
    (lineOf typed).stray = 0 ∧ t.col + (lineOf typed).line.length * (font.width + 1) < mode.width

theorem lineOf_plain {line : List UInt8} (hbackspace : backspace ∉ line) : lineOf line = ⟨line, 0⟩ := by
  induction line using List.reverseRecOn with
  | nil => rfl
  | append_singleton line c ih =>
    rw [List.mem_append, List.mem_singleton, not_or] at hbackspace
    rw [lineOf_snoc, ih hbackspace.1, Typed.key, if_neg (Ne.symm hbackspace.2)]

/-- The line that the keys leave stays in its row as they do. -/
theorem FitsRow.leaves {keys : List UInt8} (h : FitsRow mode font t keys) :
    FitsRow mode font t (lineOf keys).line := by
  refine ⟨h.left, h.bottom, fun typed htyped => ?_⟩
  have hplain : backspace ∉ typed := fun hmem => (mem_lineOf (htyped.subset hmem)).2 rfl
  have hlength := Nat.mul_le_mul_right (font.width + 1) htyped.length_le
  have hroom := (h.line keys List.prefix_rfl).2
  rw [lineOf_plain hplain]
  exact ⟨rfl, (Nat.add_le_add_left hlength t.col).trans_lt hroom⟩

theorem FitsRow.of_prefix {keys typed : List UInt8} (h : FitsRow mode font t keys) (hpre : typed <+: keys) :
    FitsRow mode font t typed :=
  ⟨h.left, h.bottom, fun shorter hshorter => h.line shorter (hshorter.trans hpre)⟩

/-- A row of the screen from the cursor on that nothing has been drawn in. -/
def BlankRow (font : PsfFont) (t : Terminal) (pic : Picture) : Prop :=
  ∀ a : ℤ × ℤ, t.col ≤ a.1 → t.row ≤ a.2 ∧ a.2 < t.row + font.height → pic a = bg

/-- Printing the keys is printing the line they leave. -/
theorem foldl_shown_keys {keys : List UInt8} (hnewline : 0x0A ∉ keys) (hfits : FitsRow mode font t keys)
    (hblank : BlankRow font t pic) :
    keys.foldl (shown mode font) (t, pic) = (lineOf keys).line.foldl (shown mode font) (t, pic) := by
  induction keys using List.reverseRecOn with
  | nil => rfl
  | append_singleton keys key ih =>
    have hshort := hfits.of_prefix (List.prefix_append keys [key])
    rw [List.mem_append, List.mem_singleton, not_or] at hnewline
    rw [List.foldl_append, List.foldl_cons, List.foldl_nil, ih hnewline.1 hshort, lineOf_snoc]
    by_cases hkey : key = backspace
    · subst hkey
      have hline : (lineOf keys).line ≠ [] := by
        intro hempty
        have hstray := (hfits.line _ List.prefix_rfl).1
        rw [lineOf_snoc, Typed.key, if_pos rfl, if_pos hempty] at hstray
        exact absurd hstray (Nat.succ_ne_zero _)
      obtain ⟨front, c, hsplit⟩ := (List.eq_nil_or_concat' _).resolve_left hline
      have hplain : ∀ b ∈ front ++ [c], b ≠ 0x0A ∧ b ≠ backspace := by
        intro b hb
        obtain ⟨hmem, hne⟩ := mem_lineOf (hsplit ▸ hb)
        exact ⟨fun heq => hnewline.1 (heq ▸ hmem), hne⟩
      have hroom := (hfits.line keys (List.prefix_append keys _)).2
      rw [hsplit, List.length_append, List.length_singleton] at hroom
      have hfront : t.col + front.length * (font.width + 1) < mode.width := by
        rw [Nat.add_mul] at hroom
        omega
      obtain ⟨hbehind, hkept⟩ := foldl_shown_line pic
        (fun hmem => (hplain _ (List.mem_append_left _ hmem)).1 rfl)
        (fun hmem => (hplain _ (List.mem_append_left _ hmem)).2 rfl) hfront
      obtain ⟨hc, hc'⟩ := hplain c (List.mem_append_right _ (List.mem_singleton_self c))
      rw [Typed.line_backspace, hsplit, List.dropLast_concat, List.foldl_append, List.foldl_cons, List.foldl_nil]
      refine shown_undone hc hc' hbehind hfits.left hroom fun a ha => ?_
      -- the last cell is still as it was before the line
      have hcol := hbehind.col
      have hrow := hbehind.row
      simp only [InCell, hcol, hrow] at ha
      push_cast at ha
      have hleft : (t.col : ℤ) ≤ a.1 := by
        have hpositive : (0 : ℤ) ≤ front.length * (font.width + 1) := by positivity
        omega
      rw [hkept a ha.1.1, hblank a hleft ha.2]
    · rw [Typed.line_key _ hkey, List.foldl_append, List.foldl_cons, List.foldl_nil]

theorem print_snoc (t : Terminal) (keys : List UInt8) (key : UInt8) :
    (t.print mode font (keys ++ [key])).2 =
      (t.print mode font keys).2 ++ ((t.print mode font keys).1.terminalWritechar mode font key).2 := by
  induction keys generalizing t with
  | nil => simp [print]
  | cons c keys ih =>
    simp only [List.cons_append, print, ih, List.append_assoc]

theorem print_behind {keys : List UInt8} (hnewline : 0x0A ∉ keys) (hfits : FitsRow mode font t keys)
    (hblank : BlankRow font t pic) : Behind font t (lineOf keys).line.length (t.print mode font keys).1 := by
  have hkeys := foldl_shown_keys hnewline hfits hblank
  rw [foldl_shown t keys] at hkeys
  have hcursor := congrArg Prod.fst hkeys
  simp only at hcursor
  rw [hcursor]
  exact (foldl_shown_line pic (fun hmem => hnewline (mem_lineOf hmem).1) (fun hmem => (mem_lineOf hmem).2 rfl)
    (hfits.line keys List.prefix_rfl).2).1

theorem print_keys_onScreen {keys : List UInt8} (hnewline : 0x0A ∉ keys) (hfits : FitsRow mode font t keys)
    (hblank : BlankRow font t pic) : ∀ w ∈ (t.print mode font keys).2, w.OnScreen mode := by
  induction keys using List.reverseRecOn with
  | nil => exact fun w hw => absurd hw List.not_mem_nil
  | append_singleton keys key ih =>
    have hshort := hfits.of_prefix (List.prefix_append keys [key])
    rw [List.mem_append, List.mem_singleton, not_or] at hnewline
    have hbehind := print_behind hnewline.1 hshort hblank
    obtain ⟨hstray, hroom⟩ := hfits.line _ List.prefix_rfl
    have hbottom := hfits.bottom
    have hleft := hfits.left
    rw [lineOf_snoc] at hstray hroom
    rw [print_snoc]
    refine List.forall_mem_append.mpr ⟨ih hnewline.1 hshort, terminalWritechar_onScreen_iff.mpr ?_⟩
    rw [RoomToDraw, if_neg (Ne.symm hnewline.2)]
    by_cases hkey : key = backspace
    · subst hkey
      have hpositive : 0 < (lineOf keys).line.length := by
        apply List.length_pos_of_ne_nil
        intro hempty
        rw [Typed.key, if_pos rfl, if_pos hempty] at hstray
        exact absurd hstray (Nat.succ_ne_zero _)
      obtain ⟨n, hn⟩ : ∃ n, (lineOf keys).line.length = n + 1 := ⟨_, (Nat.sub_add_cancel hpositive).symm⟩
      have hlong := (hfits.line keys (List.prefix_append keys _)).2
      have hcol := hbehind.col
      rw [hn, Nat.add_mul, Nat.one_mul] at hcol hlong
      have hwidth := mode.width_lt
      have hne : (t.print mode font keys).1.col ≠ margin := by omega
      have hback : uint16 ((t.print mode font keys).1.col - font.width - 1) = t.col + n * (font.width + 1) := by
        rw [hcol]
        unfold uint16
        omega
      rw [if_pos (show backspace = 0x08 from rfl)]
      right
      rw [cellBefore, if_neg hne, hback, hbehind.row]
      exact boxOnScreen_of_subset (Finset.Subset.refl _) (by omega) hbottom
    · rw [if_neg (show key ≠ 0x08 from hkey)]
      rw [Typed.line_key _ hkey, List.length_append, List.length_singleton, Nat.add_mul, Nat.one_mul] at hroom
      have hcol := hbehind.col
      have hrow := hbehind.row
      exact boxOnScreen_of_subset (Finset.filter_subset _ _) (by omega) (by omega)

end Terminal

section ReadLine
variable {ι : Type*} {size : ι → ℕ} [DecidableEq ι] {buffer : Place ι} {max : ℕ}

theorem readLineLoop_echoed (hroom : size buffer.object = buffer.offset + max) {fuel i : ℕ} {s s' : LineInput size}
    (hkeys : 0 ∉ s.keys)
    (h : (readLineLoop buffer max true fuel i s).bind (terminateLine buffer) = some s') :
    s'.echoed = s.echoed ++ typedKeys s.keys := by
  induction fuel generalizing i s with
  | zero => cases h
  | succ fuel ih =>
    by_cases hi : i < max
    swap
    · rw [readLineLoop_full hroom (Nat.not_lt.mp hi)] at h
      cases h
    obtain ⟨m, keys, echoed⟩ := s
    cases keys with
    | nil =>
      rw [readLineLoop, if_pos hi] at h
      cases h
    | cons key keys =>
      rw [List.mem_cons, not_or] at hkeys
      have hkey : getchar (key :: keys) = some (key, keys) := if_neg (Ne.symm hkeys.1)
      rw [readLineLoop, if_pos hi, hkey, Option.bind_some] at h
      by_cases hcr : key = carriageReturn
      · rw [if_pos hcr, Option.bind_some, terminateLine] at h
        obtain ⟨m', _, rfl⟩ := Option.map_eq_some_iff.mp h
        rw [typedKeys, List.takeWhile_cons_of_neg (by simp [hcr]), List.append_nil]
      · have hrest : typedKeys (key :: keys) = key :: typedKeys keys := List.takeWhile_cons_of_pos (by simp [hcr])
        rw [hrest, List.append_cons]
        simp only [if_neg hcr, if_true] at h
        split_ifs at h
        · rw [Option.bind_assoc] at h
          obtain ⟨m', _, hloop⟩ := Option.bind_eq_some_iff.mp h
          exact ih hkeys.2 hloop
        · rw [Option.bind_assoc] at h
          obtain ⟨m', _, hloop⟩ := Option.bind_eq_some_iff.mp h
          exact ih hkeys.2 hloop

/-- Keys that are typed well leave the line that their fold leaves. -/
theorem editLine_eq {keys : List UInt8} (hreturn : carriageReturn ∈ keys) {t : Typed}
    (h : TypedWell max t (typedKeys keys)) : editLine max keys t.line = ((typedKeys keys).foldl Typed.key t).line := by
  induction keys generalizing t with
  | nil => exact absurd hreturn List.not_mem_nil
  | cons key keys ih =>
    by_cases hcr : key = carriageReturn
    · rw [editLine, if_pos hcr, typedKeys, List.takeWhile_cons_of_neg (by simp [hcr])]
      rfl
    have hrest : typedKeys (key :: keys) = key :: typedKeys keys := List.takeWhile_cons_of_pos (by simp [hcr])
    have hmem : carriageReturn ∈ keys := (List.mem_cons.mp hreturn).resolve_left (Ne.symm hcr)
    rw [hrest] at h ⊢
    obtain ⟨_, hwell⟩ := (typedWell_cons max t key _).mp h
    rw [editLine, if_neg hcr, List.foldl_cons, ← ih hmem hwell]
    by_cases hback : key = backspace
    · rw [if_pos hback, hback, Typed.line_backspace]
    · have hlt := hwell.length_lt
      rw [Typed.length_stored, Typed.line_key t hback, List.length_append, List.length_singleton] at hlt
      rw [if_neg hback, if_pos (by omega), Typed.line_key t hback]

end ReadLine

/-- What is seen is what is read: when the keys leave room in the buffer and in the row of
the screen, `read_line` returns a line whose print leaves the same cursor and the same bytes
in memory as its echo has. -/
theorem readLine_echo_shows (mode : VideoMode) (font : PsfFont) (h : mode.TrueColour) {ι : Type*} {size : ι → ℕ}
    [DecidableEq ι] {buffer : Place ι} {max : ℕ} (hroom : size buffer.object = buffer.offset + max)
    (m : Objects size UInt8) (keys : List UInt8) (hkeys : 0 ∉ keys) (hreturn : carriageReturn ∈ keys)
    (hwell : TypedWell max ⟨[], 0⟩ (typedKeys keys)) (hnewline : 0x0A ∉ typedKeys keys) (t : Terminal)
    (hfits : t.FitsRow mode font (typedKeys keys)) (fb : ℕ → UInt8) (pic : Picture)
    (hblank : t.BlankRow font pic) (hpic : mode.ShowsPicture fb pic) :
    ∃ s' line, readLine buffer max true ⟨m, keys, []⟩ = some s' ∧ StringIn s'.m buffer line ∧
      (t.print mode font s'.echoed).1 = (t.print mode font line).1 ∧
      mode.store (t.print mode font s'.echoed).2 fb = mode.store (t.print mode font line).2 fb ∧
      mode.ShowsPicture (mode.store (t.print mode font s'.echoed).2 fb) (draw (t.print mode font line).2 pic) := by
  have hleaves : LeavesLine (readLine buffer max true ⟨m, keys, []⟩) buffer (editLine max keys []) :=
    (readLineLoop_iff (t := ⟨[], 0⟩) hroom hkeys hreturn List.not_mem_nil rfl trivial (Nat.lt_succ_self _)).mpr hwell
  obtain ⟨s', hread, hline⟩ := hleaves
  have hechoed : s'.echoed = typedKeys keys := readLineLoop_echoed hroom hkeys hread
  have hedit : editLine max keys [] = (Terminal.lineOf (typedKeys keys)).line :=
    editLine_eq (t := ⟨[], 0⟩) hreturn hwell
  have hprint := Terminal.foldl_shown_keys hnewline hfits hblank
  rw [Terminal.foldl_shown, Terminal.foldl_shown, Prod.mk.injEq] at hprint
  obtain ⟨hcursor, hpicture⟩ := hprint
  have hwrites := Terminal.print_keys_onScreen hnewline hfits hblank
  have hplain := Terminal.print_keys_onScreen (fun hmem => hnewline (Terminal.mem_lineOf hmem).1) hfits.leaves hblank
  refine ⟨s', _, hread, hline, ?_, ?_, ?_⟩
  · rw [hechoed, hedit, hcursor]
  · rw [hechoed, hedit]
    exact h.store_eq_of_draw_eq hwrites hplain hpic hpicture
  · rw [hechoed, hedit, ← hpicture]
    exact (h.shows_draw hwrites hpic).1

/-- An "x" taken back for an "l". -/
theorem readLine_echo_shows_small :
    ∃ s' line, readLine ⟨(), 0⟩ 1024 true (lineInput 1024 [0x78, 8, 0x6C, 13]) = some s' ∧
      StringIn s'.m ⟨(), 0⟩ line ∧
      (Terminal.start.print Terminal.smallMode Terminal.solidFont s'.echoed).1 =
        (Terminal.start.print Terminal.smallMode Terminal.solidFont line).1 ∧
      Terminal.smallMode.store (Terminal.start.print Terminal.smallMode Terminal.solidFont s'.echoed).2 blankBuffer =
        Terminal.smallMode.store (Terminal.start.print Terminal.smallMode Terminal.solidFont line).2 blankBuffer ∧
      Terminal.smallMode.ShowsPicture
        (Terminal.smallMode.store (Terminal.start.print Terminal.smallMode Terminal.solidFont s'.echoed).2 blankBuffer)
        (draw (Terminal.start.print Terminal.smallMode Terminal.solidFont line).2 fun _ => Terminal.bg) := by
  have hkeys : ∀ typed ∈ [0x78, 8, 0x6C].inits, (Terminal.lineOf typed).stray = 0 ∧
      Terminal.start.col + (Terminal.lineOf typed).line.length * (Terminal.solidFont.width + 1) <
        Terminal.smallMode.width := by
    decide
  have hfits : Terminal.start.FitsRow Terminal.smallMode Terminal.solidFont (typedKeys [0x78, 8, 0x6C, 13]) :=
    ⟨by decide, by decide, fun typed htyped => hkeys typed ((List.mem_inits typed _).mpr htyped)⟩
  exact readLine_echo_shows Terminal.smallMode Terminal.solidFont ⟨Or.inl rfl, le_rfl⟩ (Nat.zero_add _).symm
    ⟨fun _ => 0⟩ [0x78, 8, 0x6C, 13] (by decide) (by decide) (by decide) (by decide) Terminal.start hfits
    blankBuffer _ (fun _ _ _ => rfl) blankBuffer_shows

end Zhios
