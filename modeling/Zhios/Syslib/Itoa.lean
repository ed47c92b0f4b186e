import Zhios.Machine.Decimal
import Zhios.Machine.Word
import Zhios.Lib.ObjectStrings

/-! `itoa` of `syslib/src/stdlib/stdlib.c`, which writes every number to the end of one
static buffer. -/
namespace Zhios
open Machine

def intMin : ℤ := -2 ^ 31
def minusSign : UInt8 := 0x2D

/-- `'0' + num`, as a `char`. -/
def digitChar (num : ℤ) : UInt8 := UInt8.ofNat (0x30 + num).toNat

section Definitions
variable {ι : Type*} {size : ι → ℕ} [DecidableEq ι] (text : ι)

def storeBefore (c : UInt8) : (loc : ℕ) → Objects size UInt8 → Option (ℕ × Objects size UInt8)
  | 0, _ => none
  | loc + 1, m => (m.store ⟨text, loc⟩ c).map fun m => (loc, m)

/-- The loop over the digits of `num`. -/
def itoaLoop : (fuel : ℕ) → (num : ℤ) → (loc : ℕ) → Objects size UInt8 → Option (ℕ × Objects size UInt8)
  | 0, _, _, _ => none
  | fuel + 1, num, loc, m =>
    if num = 0 then some (loc, m)
    else
      (storeBefore text (digitChar (num.tmod 10)) loc m).bind fun r => itoaLoop fuel (num.tdiv 10) r.1 r.2

/-- The pointer and memory. The smallest `int` stays negative when its sign is changed. -/
def itoa (num : ℤ) (m : Objects size UInt8) : Option (Place ι × Objects size UInt8) :=
  (m.store ⟨text, 11⟩ 0).bind fun m =>
    (itoaLoop text 12 (if num < 0 then int32 (-num) else num) 11 m).bind fun r =>
      (if r.1 = 11 then storeBefore text (digitChar 0) r.1 r.2 else some r).bind fun r =>
        (if num < 0 then storeBefore text minusSign r.1 r.2 else some r).map fun r => (⟨text, r.1⟩, r.2)

end Definitions

/-- A number in decimal, with digits that are counted up or down from `'0'`. -/
def numeral (direction num : ℤ) : List UInt8 :=
  (if num < 0 then [minusSign] else []) ++
    if num = 0 then [digitChar 0]
    else (Nat.digits 10 num.natAbs).reverse.map fun d : ℕ => digitChar (direction * d)

def decimal (num : ℤ) : List UInt8 := numeral 1 num

/-- What `itoa` writes. -/
def itoaNumeral (num : ℤ) : List UInt8 := numeral (if num = intMin then -1 else 1) num

theorem length_numeral (direction num : ℤ) : (numeral direction num).length = (decimal num).length := by
  unfold decimal numeral
  split_ifs <;> simp

theorem length_itoaNumeral (num : ℤ) : (itoaNumeral num).length = (decimal num).length := length_numeral _ num

/-- The characters of a number are these, also of one whose digits are counted down. -/
def Numeric (c : UInt8) : Prop := 0x27 ≤ c ∧ c ≤ 0x39

instance (c : UInt8) : Decidable (Numeric c) := inferInstanceAs (Decidable (_ ∧ _))

theorem numeric_digitChar {direction : ℤ} (hdirection : direction = 1 ∨ direction = -1) {d : ℕ} (hd : d < 10) :
    Numeric (digitChar (direction * d)) := by
  unfold digitChar
  rcases hdirection with rfl | rfl <;> interval_cases d <;> decide

theorem numeric_of_mem_numeral {direction : ℤ} (hdirection : direction = 1 ∨ direction = -1) {num : ℤ} {c : UInt8}
    (hc : c ∈ numeral direction num) : Numeric c := by
  unfold numeral at hc
  rw [List.mem_append] at hc
  rcases hc with hc | hc <;> split_ifs at hc
  · rw [List.mem_singleton.mp hc]
    decide
  · exact absurd hc List.not_mem_nil
  · rw [List.mem_singleton.mp hc]
    decide
  · obtain ⟨d, hd, rfl⟩ := List.mem_map.mp hc
    exact numeric_digitChar hdirection (Nat.digits_lt_base (by decide) (List.mem_reverse.mp hd))

theorem numeric_of_mem_itoaNumeral {num : ℤ} {c : UInt8} (hc : c ∈ itoaNumeral num) : Numeric c := by
  refine numeric_of_mem_numeral ?_ hc
  split_ifs
  · exact Or.inr rfl
  · exact Or.inl rfl

theorem zero_notMem_itoaNumeral (num : ℤ) : 0 ∉ itoaNumeral num := by
  intro hmem
  exact absurd (numeric_of_mem_itoaNumeral hmem) (by decide)

theorem length_digits {num : ℤ} (hlo : intMin ≤ num) (hhi : num < 2 ^ 31) :
    (Nat.digits 10 num.natAbs).length ≤ 10 := by
  rw [Nat.digits_length_le_iff (by decide)]
  unfold intMin at hlo
  omega

theorem length_decimal {num : ℤ} (hlo : intMin ≤ num) (hhi : num < 2 ^ 31) :
    1 ≤ (decimal num).length ∧ (decimal num).length ≤ 11 := by
  have hdigits := length_digits hlo hhi
  unfold decimal numeral
  by_cases hzero : num = 0
  · simp [hzero]
  · have hpos : 0 < (Nat.digits 10 num.natAbs).length :=
      List.length_pos_of_ne_nil (Nat.digits_ne_nil_iff_ne_zero.mpr (Int.natAbs_ne_zero.mpr hzero))
    rw [if_neg hzero, List.length_append, List.length_map, List.length_reverse]
    split_ifs <;> simp only [List.length_singleton, List.length_nil] <;> omega

/-- Only the smallest `int` comes out wrong. -/
theorem itoaNumeral_eq_decimal_iff (num : ℤ) : itoaNumeral num = decimal num ↔ num ≠ intMin := by
  unfold itoaNumeral decimal
  by_cases hmin : num = intMin
  · refine iff_of_false (fun heq => ?_) (not_not.mpr hmin)
    have hdigits : Nat.digits 10 num.natAbs = 8 :: Nat.digits 10 214748364 := by
      rw [hmin, Nat.digits_def' (by decide) (by decide)]
      rfl
    have hne : num ≠ 0 := by rw [hmin]; decide
    rw [if_pos hmin] at heq
    simp only [numeral, if_neg hne, List.append_cancel_left_eq, List.map_inj_left] at heq
    have hlast := heq 8 (by rw [hdigits]; simp)
    exact absurd hlast (by decide)
  · rw [if_neg hmin]
    exact iff_of_true rfl hmin

theorem decimal_eq_intDecimal (num : ℤ) : decimal num = intDecimal num := by
  have hdigit : (fun d : ℕ => digitChar (1 * d)) = digitByte := by
    funext d
    rw [digitChar, digitByte, one_mul]
    rfl
  unfold decimal numeral intDecimal natDecimal
  rw [hdigit]
  simp only [Int.natAbs_eq_zero]
  rfl

section
variable {ι : Type*} {size : ι → ℕ} [DecidableEq ι] {text : ι}

theorem storeBefore_putAll {loc : ℕ} (hloc : loc < size text) (c : UInt8) (values : List UInt8)
    (m : Objects size UInt8) :
    storeBefore text c (loc + 1) (Objects.putAll ⟨text, loc + 1⟩ values m) =
      some (loc, Objects.putAll ⟨text, loc⟩ (c :: values) m) := by
  rw [storeBefore, Objects.store_eq hloc, Option.map_some, ← Objects.put_putAll_step]
  rfl

/-- The digits come out last first, each in front of those before it. -/
theorem itoaLoop_eq {direction : ℤ} (hdirection : direction = 1 ∨ direction = -1) {n fuel loc : ℕ}
    (hloc : loc ≤ size text) (hroom : (Nat.digits 10 n).length ≤ loc) (hfuel : (Nat.digits 10 n).length < fuel)
    (values : List UInt8) (m : Objects size UInt8) :
    itoaLoop text fuel (direction * n) loc (Objects.putAll ⟨text, loc⟩ values m) =
      some (loc - (Nat.digits 10 n).length, Objects.putAll ⟨text, loc - (Nat.digits 10 n).length⟩
        (((Nat.digits 10 n).reverse.map fun d : ℕ => digitChar (direction * d)) ++ values) m) := by
  induction n using Nat.strong_induction_on generalizing fuel loc values with
  | _ n ih =>
    obtain ⟨fuel, rfl⟩ : ∃ f, fuel = f + 1 := ⟨fuel - 1, by omega⟩
    by_cases hzero : n = 0
    · subst hzero
      rw [itoaLoop, Nat.cast_zero, mul_zero, if_pos rfl]
      rfl
    · have hdigits := Nat.digits_def' (b := 10) (by decide) (Nat.pos_of_ne_zero hzero)
      rw [hdigits, List.length_cons] at hroom hfuel
      obtain ⟨loc, rfl⟩ : ∃ l, loc = l + 1 := ⟨loc - 1, by omega⟩
      have hne : direction * n ≠ 0 := by
        rcases hdirection with rfl | rfl <;> omega
      have hmod : (direction * n).tmod 10 = direction * ((n % 10 : ℕ) : ℤ) := by
        rcases hdirection with rfl | rfl <;> simp [Int.neg_tmod] <;> rfl
      have hdiv : (direction * n).tdiv 10 = direction * ((n / 10 : ℕ) : ℤ) := by
        rcases hdirection with rfl | rfl <;> simp [Int.neg_tdiv]
      rw [itoaLoop, if_neg hne, storeBefore_putAll (by omega), Option.bind_some, hmod, hdiv,
        ih (n / 10) (by omega) (by omega) (by omega) (by omega), hdigits, List.length_cons, List.reverse_cons,
        List.map_append, List.map_singleton, List.append_assoc, Nat.add_sub_add_right]
      rfl

/-- The digits of any `int` but zero, with the sign it was left with. -/
theorem itoaLoop_abs {num : ℤ} (hlo : intMin ≤ num) (hhi : num < 2 ^ 31) (htext : size text = 12)
    (values : List UInt8) (m : Objects size UInt8) :
    itoaLoop text 12 (if num < 0 then int32 (-num) else num) 11 (Objects.putAll ⟨text, 11⟩ values m) =
      some (11 - (Nat.digits 10 num.natAbs).length, Objects.putAll ⟨text, 11 - (Nat.digits 10 num.natAbs).length⟩
        (((Nat.digits 10 num.natAbs).reverse.map fun d : ℕ =>
          digitChar ((if num = intMin then -1 else 1) * d)) ++ values) m) := by
  have hdigits := length_digits hlo hhi
  have habs : (if num < 0 then int32 (-num) else num) = (if num = intMin then -1 else 1) * (num.natAbs : ℤ) := by
    unfold intMin at hlo ⊢
    by_cases hmin : num = -2 ^ 31
    · rw [if_pos (by omega), if_pos hmin, hmin]
      unfold int32
      decide
    · rw [if_neg hmin]
      split_ifs with hneg
      · rw [int32_of_bounds (by omega) (by omega)]
        omega
      · omega
  rw [habs]
  refine itoaLoop_eq ?_ (by omega) (by omega) (by omega) values m
  split_ifs
  · exact Or.inr rfl
  · exact Or.inl rfl

/-- The number goes to the end of the buffer, and nothing else is written. -/
theorem itoa_eq {num : ℤ} (hlo : intMin ≤ num) (hhi : num < 2 ^ 31) (htext : size text = 12)
    (m : Objects size UInt8) :
    itoa text num m = some (⟨text, 11 - (decimal num).length⟩,
      Objects.putAll ⟨text, 11 - (decimal num).length⟩ (itoaNumeral num ++ [0]) m) := by
  have hdigits := length_digits hlo hhi
  rw [itoa, Objects.store_eq (show 11 < size text by omega), Option.bind_some]
  have hloop := itoaLoop_abs hlo hhi htext [0] m
  rw [Objects.putAll, Objects.putAll] at hloop
  rw [hloop, Option.bind_some]
  by_cases hzero : num = 0
  · subst hzero
    have hstore : storeBefore text (digitChar 0) 11 (Objects.putAll ⟨text, 11⟩ [0] m) =
        some (10, Objects.putAll ⟨text, 10⟩ [digitChar 0, 0] m) := storeBefore_putAll (by omega) (digitChar 0) [0] m
    simp only [Int.natAbs_zero, Nat.digits_zero, List.length_nil, Nat.sub_zero, List.reverse_nil, List.map_nil,
      List.nil_append, if_true, lt_irrefl, if_false]
    rw [hstore]
    rfl
  · have hpos : 0 < (Nat.digits 10 num.natAbs).length :=
      List.length_pos_of_ne_nil (Nat.digits_ne_nil_iff_ne_zero.mpr (Int.natAbs_ne_zero.mpr hzero))
    simp only [if_neg (show 11 - (Nat.digits 10 num.natAbs).length ≠ 11 by omega), Option.bind_some]
    by_cases hneg : num < 0
    · have hlength : (decimal num).length = (Nat.digits 10 num.natAbs).length + 1 := by
        simp [decimal, numeral, hneg, hzero]
      obtain ⟨loc, hloc⟩ : ∃ loc, 11 - (Nat.digits 10 num.natAbs).length = loc + 1 :=
        ⟨_, (Nat.sub_add_cancel (by omega)).symm⟩
      have hnext : 11 - ((Nat.digits 10 num.natAbs).length + 1) = loc := by omega
      rw [if_pos hneg, hloc, storeBefore_putAll (by omega), hlength, hnext]
      simp [itoaNumeral, numeral, hneg, hzero]
    · have hlength : (decimal num).length = (Nat.digits 10 num.natAbs).length := by
        simp [decimal, numeral, hneg, hzero]
      rw [if_neg hneg, hlength]
      simp [itoaNumeral, numeral, hneg, hzero]

/-- `itoa` stays inside its buffer, and what it returns there is a canonical numeral that reads back
as `num`. -/
def EncodesDecimal (text : ι) (num : ℤ) (m : Objects size UInt8) : Prop :=
  ∃ p m' s, itoa text num m = some (p, m') ∧ p.object = text ∧
    (∀ q : Place ι, q.object ≠ text → m'.cell q = m.cell q) ∧ StringIn m' p s ∧ CanonicalInt s ∧ readInt s = some num

theorem stringIn_itoaNumeral {num : ℤ} (hlo : intMin ≤ num) (hhi : num < 2 ^ 31) (htext : size text = 12)
    (m : Objects size UInt8) :
    StringIn (Objects.putAll ⟨text, 11 - (decimal num).length⟩ (itoaNumeral num ++ [0]) m)
      ⟨text, 11 - (decimal num).length⟩ (itoaNumeral num) := by
  have hlength := length_decimal hlo hhi
  refine StringIn.putAll m (zero_notMem_itoaNumeral num) ?_
  rw [length_itoaNumeral]
  change 11 - (decimal num).length + (decimal num).length < size text
  omega

theorem EncodesDecimal.ne_intMin {num : ℤ} {m : Objects size UInt8} (h : EncodesDecimal text num m)
    (hlo : intMin ≤ num) (hhi : num < 2 ^ 31) (htext : size text = 12) : num ≠ intMin := by
  obtain ⟨p, m', s, hrun, -, -, hs, hcanonical, hread⟩ := h
  rw [itoa_eq hlo hhi htext, Option.some.injEq, Prod.mk.injEq] at hrun
  obtain ⟨rfl, rfl⟩ := hrun
  rw [← itoaNumeral_eq_decimal_iff, decimal_eq_intDecimal, (stringIn_itoaNumeral hlo hhi htext m).unique hs]
  exact (readInt_iff s num).mp ⟨hread, hcanonical⟩

/-- `itoa` is exact, but for the smallest `int`. -/
theorem itoa_encodes_iff {num : ℤ} (hlo : intMin ≤ num) (hhi : num < 2 ^ 31) (htext : size text = 12)
    (m : Objects size UInt8) : EncodesDecimal text num m ↔ num ≠ intMin := by
  constructor
  · intro h
    exact h.ne_intMin hlo hhi htext
  · intro hne
    have hnumeral := (itoaNumeral_eq_decimal_iff num).mpr hne
    rw [decimal_eq_intDecimal] at hnumeral
    obtain ⟨hread, hcanonical⟩ := (readInt_iff _ num).mpr hnumeral
    exact ⟨_, _, _, itoa_eq hlo hhi htext m, rfl, fun q hq => Objects.cell_putAll_object hq,
      stringIn_itoaNumeral hlo hhi htext m, hcanonical, hread⟩

end

def numberBuffer (_ : Unit) : ℕ := 12

theorem itoa_encodes_long : EncodesDecimal () (-2147483647) (⟨fun _ => 0⟩ : Objects numberBuffer UInt8) := by
  have htext : numberBuffer () = 12 := rfl
  exact (itoa_encodes_iff (by decide) (by decide) htext _).mpr (by decide)

theorem itoa_intMin_wrong : ¬EncodesDecimal () intMin (⟨fun _ => 0⟩ : Objects numberBuffer UInt8) := by
  intro h
  have htext : numberBuffer () = 12 := rfl
  exact h.ne_intMin le_rfl (by decide) htext rfl

end Zhios
