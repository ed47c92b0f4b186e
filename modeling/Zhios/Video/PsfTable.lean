import Zhios.Machine.Memory
import Zhios.Machine.Word

/-! The Unicode table that `psf_init` of `src/font/psf.c` reads from the font. Plain `char` is signed, and `kzalloc` has
served the array `unicode`. -/
namespace Zhios
open Machine

/-- The font that the linker has put at an address. -/
structure PsfImage where
  bytes : List UInt8
  address : ℕ
  fits : address + bytes.length < 2 ^ 32

namespace PsfImage
variable (image : PsfImage)

def fontMagic : ℕ := 0x864AB572

def sizeofFont : ℕ := 32

def last : ℕ := image.address + image.bytes.length

/-- A byte of the image; there is none outside it. -/
def byte (a : ℕ) : Option UInt8 := if image.address ≤ a then image.bytes[a - image.address]? else none

/-- The field of `psf_font_t` at an offset. -/
def field (offset : ℕ) : Option ℕ :=
  if offset + 4 ≤ image.bytes.length then some (load32 (fun i => image.bytes.getD i 0) offset) else none

/-- The value that stands at `table_offset`, and how many bytes it has behind the first. -/
def sequence (tableOffset : ℕ) (lead : UInt8) : Option (ℕ × ℕ) :=
  let uc := uint16 lead.toInt8.toInt
  if uc &&& 128 ≠ 0 then
    if uc &&& 32 = 0 then
      (image.byte (tableOffset + 1)).map fun b1 =>
        (uint16 (((lead &&& 0x1F).toNat <<< 6) + (b1 &&& 0x3F).toNat : ℕ), 1)
    else if uc &&& 16 = 0 then
      (image.byte (tableOffset + 1)).bind fun b1 => (image.byte (tableOffset + 2)).map fun b2 =>
        (uint16 (((((lead &&& 0xF).toNat <<< 6) + (b1 &&& 0x3F).toNat) <<< 6) + (b2 &&& 0x3F).toNat : ℕ), 2)
    else if uc &&& 8 = 0 then
      (image.byte (tableOffset + 1)).bind fun b1 => (image.byte (tableOffset + 2)).bind fun b2 =>
        (image.byte (tableOffset + 3)).map fun b3 =>
          (uint16 (((((((lead &&& 0x7).toNat <<< 6) + (b1 &&& 0x3F).toNat) <<< 6) + (b2 &&& 0x3F).toNat) <<< 6) +
            (b3 &&& 0x3F).toNat : ℕ), 3)
    else some (uc, 0)
  else some (uc, 0)

/-- The loop, for at most `fuel` sequences. -/
def psfInitLoop : (fuel tableOffset glyph : ℕ) → (unicode : ℕ → ℕ) → Option (ℕ → ℕ)
  | 0, _, _, _ => none
  | fuel + 1, tableOffset, glyph, unicode =>
    if tableOffset < image.last then
      (image.byte tableOffset).bind fun lead =>
        if uint16 lead.toInt8.toInt = 0xFF then
          psfInitLoop fuel (uint32 (tableOffset + 1 : ℕ)) (uint16 (glyph + 1)) unicode
        else
          (image.sequence tableOffset lead).bind fun r =>
            psfInitLoop fuel (uint32 (tableOffset + r.2 + 1 : ℕ)) glyph (Function.update unicode r.1 glyph)
    else some unicode

/-- Where the loop begins: the sum is added to a pointer to `psf_font_t`. -/
def tableStart (headerSize numGlyph bytesPerGlyph : ℕ) : ℕ :=
  uint32 (image.address + sizeofFont * uint32 (headerSize + numGlyph * bytesPerGlyph) : ℕ)

/-- What is left in `unicode`, which is a null pointer for a font without a table. -/
def psfInit (unicode : Option (ℕ → ℕ)) : Option (Option (ℕ → ℕ)) :=
  (image.field 0).bind fun magic =>
    if magic ≠ fontMagic then some unicode
    else
      (image.field 12).bind fun flags =>
        if flags = 0 then some none
        else
          (image.field 8).bind fun headerSize => (image.field 16).bind fun numGlyph =>
            (image.field 20).bind fun bytesPerGlyph =>
              (image.psfInitLoop (image.bytes.length + 1) (image.tableStart headerSize numGlyph bytesPerGlyph) 0
                fun _ => 0).map some

end PsfImage

/-- The UTF-8 bytes of a code point below `0x10000`. -/
def utf8Bytes (cp : ℕ) : List UInt8 :=
  if cp < 0x80 then [UInt8.ofNat cp]
  else if cp < 0x800 then [UInt8.ofNat (0xC0 + cp / 2 ^ 6), UInt8.ofNat (0x80 + cp % 2 ^ 6)]
  else
    [UInt8.ofNat (0xE0 + cp / 2 ^ 12), UInt8.ofNat (0x80 + cp / 2 ^ 6 % 2 ^ 6), UInt8.ofNat (0x80 + cp % 2 ^ 6)]

/-- The table: the code points of each glyph, and a separator behind them. -/
def tableBytes (glyphs : List (List ℕ)) : List UInt8 := glyphs.flatMap fun cps => cps.flatMap utf8Bytes ++ [0xFF]

/-- The last glyph under which a code point is listed. -/
structure ListedLast (glyphs : List (List ℕ)) (cp g : ℕ) : Prop where
  listed : ∃ cps, glyphs[g]? = some cps ∧ cp ∈ cps
  latest : ∀ g' cps, g < g' → glyphs[g']? = some cps → cp ∉ cps

def followers (lead : UInt8) : ℕ :=
  if lead &&& 128 = 0 then 0
  else if lead &&& 32 = 0 then 1
  else if lead &&& 16 = 0 then 2
  else if lead &&& 8 = 0 then 3
  else 0

/-- The sequences that the lead bytes announce end with the list. -/
inductive WellCut : List UInt8 → Prop
  | nil : WellCut []
  | cons {lead : UInt8} {rest : List UInt8} (room : followers lead ≤ rest.length)
      (more : WellCut (rest.drop (followers lead))) : WellCut (lead :: rest)

theorem wellCut_cons {lead : UInt8} {rest : List UInt8} :
    WellCut (lead :: rest) ↔ followers lead ≤ rest.length ∧ WellCut (rest.drop (followers lead)) := by
  constructor
  · rintro (_ | ⟨room, more⟩)
    exact ⟨room, more⟩
  · exact fun h => WellCut.cons h.1 h.2

/-- A sign that is extended keeps the low bits, and no character is read as `0xFF`. -/
theorem signed_bits (lead : UInt8) :
    ((uint16 lead.toInt8.toInt &&& 128 = 0 ↔ lead &&& 128 = 0) ∧
      (uint16 lead.toInt8.toInt &&& 32 = 0 ↔ lead &&& 32 = 0) ∧
      (uint16 lead.toInt8.toInt &&& 16 = 0 ↔ lead &&& 16 = 0) ∧ (uint16 lead.toInt8.toInt &&& 8 = 0 ↔ lead &&& 8 = 0)) ∧
      uint16 lead.toInt8.toInt ≠ 0xFF := by
  apply forall_byte ?_ lead
  decide +kernel

namespace PsfImage
variable {image : PsfImage} {k fuel : ℕ} {lead : UInt8}

theorem byte_eq (image : PsfImage) (j : ℕ) : image.byte (image.address + j) = image.bytes[j]? := by
  rw [byte, if_pos (Nat.le_add_right ..), Nat.add_sub_cancel_left]

theorem byte_inside (image : PsfImage) {j : ℕ} (hj : j < image.bytes.length) :
    ∃ b, image.byte (image.address + j) = some b := by
  rw [byte_eq]
  exact ⟨_, List.getElem?_eq_getElem hj⟩

theorem byte_outside {j : ℕ} (hj : image.bytes.length ≤ j) : image.byte (image.address + j) = none := by
  rw [byte_eq]
  exact List.getElem?_eq_none hj

/-- A sequence is read when its last byte is in the image. -/
theorem sequence_inside (hroom : k + followers lead < image.bytes.length) :
    ∃ uc, image.sequence (image.address + k) lead = some (uc, followers lead) := by
  obtain ⟨⟨h128, h32, h16, h8⟩, _⟩ := signed_bits lead
  rw [followers] at hroom ⊢
  rw [sequence]
  simp only [ne_eq, h128, h32, h16, h8, Nat.add_assoc]
  split_ifs at hroom ⊢ with hascii htwo hthree hfour
  · exact ⟨_, rfl⟩
  · obtain ⟨b1, hb1⟩ := byte_inside image (j := k + 1) (by omega)
    rw [hb1]
    exact ⟨_, rfl⟩
  · obtain ⟨b1, hb1⟩ := byte_inside image (j := k + 1) (by omega)
    obtain ⟨b2, hb2⟩ := byte_inside image (j := k + 2) (by omega)
    rw [hb1, hb2]
    exact ⟨_, rfl⟩
  · obtain ⟨b1, hb1⟩ := byte_inside image (j := k + 1) (by omega)
    obtain ⟨b2, hb2⟩ := byte_inside image (j := k + 2) (by omega)
    obtain ⟨b3, hb3⟩ := byte_inside image (j := k + 3) (by omega)
    rw [hb1, hb2, hb3]
    exact ⟨_, rfl⟩
  · exact ⟨_, rfl⟩

theorem sequence_outside (hk : k < image.bytes.length) (hroom : image.bytes.length ≤ k + followers lead) :
    image.sequence (image.address + k) lead = none := by
  obtain ⟨⟨h128, h32, h16, h8⟩, _⟩ := signed_bits lead
  have hlast : image.byte (image.address + k + followers lead) = none := by
    rw [Nat.add_assoc]
    exact byte_outside hroom
  rw [followers] at hroom hlast
  rw [sequence]
  simp only [ne_eq, h128, h32, h16, h8]
  split_ifs at hroom hlast ⊢ with hascii htwo hthree hfour
  · omega
  · rw [hlast, Option.map_none]
  · simp only [hlast, Option.map_none, Option.bind_fun_none]
  · simp only [hlast, Option.map_none, Option.bind_fun_none]
  · omega

/-- The loop from a byte of the image on: `glyph` is never counted up, so that nothing but zeros is stored. -/
theorem psfInitLoop_eq (image : PsfImage) {k fuel : ℕ} (hk : k ≤ image.bytes.length)
    (hfuel : image.bytes.length < k + fuel) :
    (WellCut (image.bytes.drop k) → image.psfInitLoop fuel (image.address + k) 0 (fun _ => 0) = some fun _ => 0) ∧
      (¬ WellCut (image.bytes.drop k) → image.psfInitLoop fuel (image.address + k) 0 (fun _ => 0) = none) := by
  induction fuel generalizing k with
  | zero => omega
  | succ fuel ih =>
    have hfits := image.fits
    rw [psfInitLoop, last]
    rcases hk.lt_or_eq with hlt | rfl
    · have hdrop : image.bytes.drop k = image.bytes[k] :: image.bytes.drop (k + 1) := List.drop_eq_getElem_cons hlt
      have hbyte : image.byte (image.address + k) = some image.bytes[k] := by
        rw [byte_eq]
        exact List.getElem?_eq_getElem hlt
      obtain ⟨_, hseparator⟩ := signed_bits image.bytes[k]
      rw [if_pos (by omega), hbyte, Option.bind_some, if_neg hseparator, hdrop, wellCut_cons, List.drop_drop,
        List.length_drop]
      by_cases hroom : k + followers image.bytes[k] < image.bytes.length
      · obtain ⟨uc, huc⟩ := sequence_inside hroom
        have hnext : uint32 (image.address + k + followers image.bytes[k] + 1 : ℕ) =
            image.address + (k + 1 + followers image.bytes[k]) := by
          have hword := uint32_of_bounds (x := (image.address + k + followers image.bytes[k] + 1 : ℕ))
            (Int.natCast_nonneg _) (by omega)
          omega
        have hzero : Function.update (fun _ => 0) uc 0 = fun _ : ℕ => 0 := Function.update_eq_self_iff.mpr rfl
        have hrest : followers image.bytes[k] ≤ image.bytes.length - (k + 1) := by omega
        rw [huc, Option.bind_some, hnext, hzero]
        simp only [hrest, true_and]
        exact ih (by omega) (by omega)
      · rw [sequence_outside hlt (Nat.le_of_not_lt hroom), Option.bind_none]
        exact ⟨fun h => absurd h.1 (by omega), fun _ => rfl⟩
    · rw [if_neg (lt_irrefl _), List.drop_length]
      exact ⟨fun _ => rfl, fun h => absurd WellCut.nil h⟩

/-- A font with a table that lists code points for its glyphs. -/
structure HasTable (image : PsfImage) (headerSize numGlyph bytesPerGlyph : ℕ) (glyphs : List (List ℕ)) : Prop where
  magic : image.field 0 = some fontMagic
  headerSize_eq : image.field 8 = some headerSize
  flags : ∃ flags, image.field 12 = some flags ∧ flags ≠ 0
  numGlyph_eq : image.field 16 = some numGlyph
  bytesPerGlyph_eq : image.field 20 = some bytesPerGlyph
  count : glyphs.length = numGlyph
  codes : ∀ cps ∈ glyphs, ∀ cp ∈ cps, cp < 0xFFFF
  table : image.bytes.drop (headerSize + numGlyph * bytesPerGlyph) = tableBytes glyphs

/-- `psf_init` ends without a byte from outside the image and leaves the last glyph of every code point. -/
def Decodes (image : PsfImage) (glyphs : List (List ℕ)) : Prop :=
  ∀ unicode, ∃ table, image.psfInit unicode = some (some table) ∧ ∀ cp g, ListedLast glyphs cp g → table cp = g

/-- From where it begins, the loop reads nothing but the image. -/
def ReadsInside (image : PsfImage) (start : ℕ) : Prop :=
  image.last ≤ start ∨ image.address ≤ start ∧ WellCut (image.bytes.drop (start - image.address))

variable {headerSize numGlyph bytesPerGlyph start : ℕ} {glyphs : List (List ℕ)}

theorem psfInitLoop_start (image : PsfImage) (start : ℕ) :
    (image.ReadsInside start ∧ image.psfInitLoop (image.bytes.length + 1) start 0 (fun _ => 0) = some fun _ => 0) ∨
      (¬ image.ReadsInside start ∧ image.psfInitLoop (image.bytes.length + 1) start 0 (fun _ => 0) = none) := by
  by_cases hlast : image.last ≤ start
  · refine Or.inl ⟨Or.inl hlast, ?_⟩
    rw [psfInitLoop, if_neg (by omega)]
  · by_cases hfirst : image.address ≤ start
    · have hstart : start = image.address + (start - image.address) := by omega
      rw [last] at hlast
      have hfuel : image.bytes.length < start - image.address + (image.bytes.length + 1) := by omega
      have hloop := psfInitLoop_eq image (by omega) hfuel
      rw [← hstart] at hloop
      by_cases hcut : WellCut (image.bytes.drop (start - image.address))
      · exact Or.inl ⟨Or.inr ⟨hfirst, hcut⟩, hloop.1 hcut⟩
      · refine Or.inr ⟨?_, hloop.2 hcut⟩
        rintro (hle | ⟨_, hwell⟩)
        · exact hlast hle
        · exact hcut hwell
    · refine Or.inr ⟨?_, ?_⟩
      · rintro (hle | ⟨hle, _⟩)
        · exact hlast hle
        · exact hfirst hle
      · rw [psfInitLoop, if_pos (by omega), byte, if_neg hfirst, Option.bind_none]

theorem HasTable.psfInit_eq (h : image.HasTable headerSize numGlyph bytesPerGlyph glyphs)
    (unicode : Option (ℕ → ℕ)) :
    image.psfInit unicode = (image.psfInitLoop (image.bytes.length + 1)
      (image.tableStart headerSize numGlyph bytesPerGlyph) 0 fun _ => 0).map some := by
  obtain ⟨flags, hflags, hne⟩ := h.flags
  rw [psfInit, h.magic, Option.bind_some, if_neg (not_not.mpr rfl), hflags, Option.bind_some, if_neg hne,
    h.headerSize_eq, Option.bind_some, h.numGlyph_eq, Option.bind_some, h.bytesPerGlyph_eq, Option.bind_some]

end PsfImage

theorem lead_two : ∀ q < 32, UInt8.ofNat (0xC0 + q) &&& 128 ≠ 0 ∧ UInt8.ofNat (0xC0 + q) &&& 32 = 0 ∧
    (UInt8.ofNat (0xC0 + q) &&& 0x1F).toNat = q := by decide +kernel

theorem lead_three : ∀ q < 16, UInt8.ofNat (0xE0 + q) &&& 128 ≠ 0 ∧ UInt8.ofNat (0xE0 + q) &&& 32 ≠ 0 ∧
    UInt8.ofNat (0xE0 + q) &&& 16 = 0 ∧ (UInt8.ofNat (0xE0 + q) &&& 0xF).toNat = q := by decide +kernel

theorem continuation : ∀ r < 64, (UInt8.ofNat (0x80 + r) &&& 0x3F).toNat = r := by decide +kernel

theorem lead_one : ∀ q < 128, UInt8.ofNat q &&& 128 = 0 ∧ uint16 (UInt8.ofNat q).toInt8.toInt = q := by decide +kernel

/-- Every length of sequence gives back its code point. -/
theorem PsfImage.sequence_utf8Bytes {image : PsfImage} {k cp : ℕ} {lead : UInt8} {rest more : List UInt8}
    (hcp : cp < 0x10000) (hutf8 : utf8Bytes cp = lead :: rest) (hat : image.bytes.drop (k + 1) = rest ++ more) :
    image.sequence (image.address + k) lead = some (cp, rest.length) := by
  have hbyte : ∀ j b, (rest ++ more)[j]? = some b → image.byte (image.address + k + (j + 1)) = some b := by
    intro j b hb
    rw [Nat.add_assoc, byte_eq, ← hb, ← hat, List.getElem?_drop, Nat.add_assoc, Nat.add_comm 1]
  obtain ⟨⟨h128, h32, h16, h8⟩, _⟩ := signed_bits lead
  have hword : ∀ n < 0x10000, uint16 (n : ℕ) = n := fun n hn => uint16_of_lt hn
  rw [utf8Bytes] at hutf8
  rw [sequence]
  simp only [ne_eq, h128, h32, h16, h8]
  split_ifs at hutf8 with hone htwo
  · obtain ⟨rfl, rfl⟩ := List.cons.inj hutf8
    obtain ⟨hbit, hvalue⟩ := lead_one cp hone
    rw [if_neg (not_not.mpr hbit), hvalue, List.length_nil]
  · obtain ⟨rfl, rfl⟩ := List.cons.inj hutf8
    obtain ⟨hbit, hlength, hlow⟩ := lead_two (cp / 2 ^ 6) (by omega)
    rw [if_pos hbit, if_pos hlength, hbyte 0 _ rfl, Option.map_some, hlow, continuation _ (by omega), Nat.shiftLeft_eq,
      hword _ (by omega), Nat.mul_comm, Nat.div_add_mod, List.length_singleton]
  · obtain ⟨rfl, rfl⟩ := List.cons.inj hutf8
    obtain ⟨hbit, hlong, hlength, hlow⟩ := lead_three (cp / 2 ^ 12) (by omega)
    rw [if_pos hbit, if_neg hlong, if_pos hlength, hbyte 0 _ rfl, Option.bind_some, hbyte 1 _ rfl, Option.map_some,
      hlow, continuation _ (by omega), continuation _ (by omega), Nat.shiftLeft_eq, Nat.shiftLeft_eq,
      hword _ (by omega)]
    have hvalue : (cp / 2 ^ 12 * 2 ^ 6 + cp / 2 ^ 6 % 2 ^ 6) * 2 ^ 6 + cp % 2 ^ 6 = cp := by omega
    rw [hvalue]
    rfl

theorem wellCut_utf8Bytes {cp : ℕ} (hcp : cp < 0x10000) (more : List UInt8) :
    WellCut (utf8Bytes cp ++ more) ↔ WellCut more := by
  rw [utf8Bytes]
  split_ifs with hone htwo
  · have hfollowers : followers (UInt8.ofNat cp) = 0 := by
      rw [followers, if_pos (lead_one cp hone).1]
    rw [List.cons_append, wellCut_cons, hfollowers]
    exact and_iff_right (Nat.zero_le _)
  · obtain ⟨hbit, hlength, _⟩ := lead_two (cp / 2 ^ 6) (by omega)
    have hfollowers : followers (UInt8.ofNat (0xC0 + cp / 2 ^ 6)) = 1 := by
      rw [followers, if_neg hbit, if_pos hlength]
    rw [List.cons_append, wellCut_cons, hfollowers]
    exact and_iff_right (Nat.le_add_left ..)
  · obtain ⟨hbit, hlong, hlength, _⟩ := lead_three (cp / 2 ^ 12) (by omega)
    have hfollowers : followers (UInt8.ofNat (0xE0 + cp / 2 ^ 12)) = 2 := by
      rw [followers, if_neg hbit, if_neg hlong, if_pos hlength]
    rw [List.cons_append, wellCut_cons, hfollowers]
    exact and_iff_right (Nat.le_add_left ..)

/-- A loop that began where the table begins would read the table and no more. -/
theorem wellCut_tableBytes {glyphs : List (List ℕ)} (h : ∀ cps ∈ glyphs, ∀ cp ∈ cps, cp < 0x10000) :
    WellCut (tableBytes glyphs) := by
  have hseparator : followers 0xFF = 0 := by decide
  induction glyphs with
  | nil => exact WellCut.nil
  | cons cps glyphs ih =>
    obtain ⟨hfirst, hrest⟩ := List.forall_mem_cons.mp h
    rw [tableBytes, List.flatMap_cons, List.append_assoc]
    induction cps with
    | nil =>
      refine WellCut.cons ?_ ?_
      · exact hseparator.trans_le (Nat.zero_le _)
      · rw [hseparator]
        exact ih hrest
    | cons cp cps ihcps =>
      obtain ⟨hcp, hcps⟩ := List.forall_mem_cons.mp hfirst
      rw [List.flatMap_cons, List.append_assoc, wellCut_utf8Bytes hcp]
      exact ihcps (List.forall_mem_cons.mpr ⟨hcps, hrest⟩) hcps

/-- A code point that is listed is listed last under some glyph. -/
theorem exists_listedLast {glyphs : List (List ℕ)} {g cp : ℕ} {cps : List ℕ} (hg : glyphs[g]? = some cps)
    (hcp : cp ∈ cps) : ∃ last, g ≤ last ∧ ListedLast glyphs cp last := by
  induction hleft : glyphs.length - g using Nat.strong_induction_on generalizing g cps with
  | _ left ih =>
    by_cases hlater : ∃ g' cps', g < g' ∧ glyphs[g']? = some cps' ∧ cp ∈ cps'
    · obtain ⟨g', cps', hlt, hg', hcp'⟩ := hlater
      have hbound := List.getElem?_eq_some_iff.mp hg'
      obtain ⟨hlength, _⟩ := hbound
      obtain ⟨last, hle, hlast⟩ := ih (glyphs.length - g') (by omega) hg' hcp' rfl
      exact ⟨last, by omega, hlast⟩
    · exact ⟨g, le_rfl, ⟨cps, hg, hcp⟩, fun g' cps' hlt hg' hmem => hlater ⟨g', cps', hlt, hg', hmem⟩⟩

namespace PsfImage
variable {image : PsfImage} {headerSize numGlyph bytesPerGlyph : ℕ} {glyphs : List (List ℕ)}

theorem Decodes.readsInside (hdecodes : image.Decodes glyphs)
    (h : image.HasTable headerSize numGlyph bytesPerGlyph glyphs) :
    image.ReadsInside (image.tableStart headerSize numGlyph bytesPerGlyph) ∧ ∀ cps ∈ glyphs.tail, cps = [] := by
  obtain ⟨table, htable, hlisted⟩ := hdecodes none
  rw [h.psfInit_eq] at htable
  rcases psfInitLoop_start image (image.tableStart headerSize numGlyph bytesPerGlyph) with
    ⟨hreads, hloop⟩ | ⟨_, hloop⟩
  · refine ⟨hreads, fun cps hcps => List.eq_nil_iff_forall_not_mem.mpr fun cp hcp => ?_⟩
    obtain ⟨g, hg⟩ := List.mem_iff_getElem?.mp hcps
    rw [List.getElem?_tail] at hg
    obtain ⟨last, hle, hlast⟩ := exists_listedLast hg hcp
    rw [hloop, Option.map_some, Option.some.injEq, Option.some.injEq] at htable
    have hzero : table cp = 0 := by rw [← htable]
    have hglyph := hlisted cp last hlast
    omega
  · rw [hloop, Option.map_none] at htable
    exact absurd htable nofun

/-- The table is read as it should be only where there is nothing to be found in it. -/
theorem decodes_iff (h : image.HasTable headerSize numGlyph bytesPerGlyph glyphs) :
    image.Decodes glyphs ↔
      image.ReadsInside (image.tableStart headerSize numGlyph bytesPerGlyph) ∧ ∀ cps ∈ glyphs.tail, cps = [] := by
  refine ⟨fun hdecodes => hdecodes.readsInside h, ?_⟩
  rintro ⟨hreads, hempty⟩ unicode
  rcases psfInitLoop_start image (image.tableStart headerSize numGlyph bytesPerGlyph) with
    ⟨_, hloop⟩ | ⟨hnot, _⟩
  · refine ⟨fun _ => 0, ?_, fun cp g hlast => ?_⟩
    · rw [h.psfInit_eq, hloop, Option.map_some]
    · obtain ⟨cps, hg, hcp⟩ := hlast.listed
      cases g with
      | zero => rfl
      | succ g =>
        rw [← List.getElem?_tail] at hg
        have hnil := hempty cps (List.mem_of_getElem? hg)
        rw [hnil] at hcp
        exact absurd hcp List.not_mem_nil
  · exact absurd hreads hnot

/-- Two glyphs of one byte, for the letters `A` and `B`. -/
def twoLetters : PsfImage where
  bytes := wordBytes fontMagic ++ wordBytes 0 ++ wordBytes 32 ++ wordBytes 1 ++ wordBytes 2 ++ wordBytes 1 ++
    wordBytes 1 ++ wordBytes 8 ++ [0x18, 0x3C] ++ tableBytes [[0x41], [0x42]]
  address := 0x100000
  fits := by decide

theorem hasTable_twoLetters : twoLetters.HasTable 32 2 1 [[0x41], [0x42]] :=
  ⟨by decide +kernel, by decide +kernel, ⟨1, by decide +kernel, by decide⟩, by decide +kernel, by decide +kernel, rfl,
    by decide, by decide +kernel⟩

theorem twoLetters_decodes_iff :
    twoLetters.Decodes [[0x41], [0x42]] ↔
      twoLetters.ReadsInside (twoLetters.tableStart 32 2 1) ∧
        ∀ cps ∈ [[0x41], [0x42]].tail, cps = ([] : List ℕ) :=
  decodes_iff hasTable_twoLetters

/-- The glyph of `B` is not found. -/
theorem twoLetters_not_decoded :
    ¬ ∀ (image : PsfImage) (headerSize numGlyph bytesPerGlyph : ℕ) (glyphs : List (List ℕ)),
      image.HasTable headerSize numGlyph bytesPerGlyph glyphs → image.Decodes glyphs := by
  intro hall
  have hdecodes := hall twoLetters 32 2 1 [[0x41], [0x42]] hasTable_twoLetters
  exact absurd (hdecodes.readsInside hasTable_twoLetters).2 (by decide)

end PsfImage

end Zhios
