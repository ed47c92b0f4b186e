import Mathlib.Data.Nat.Digits.Lemmas

/-! Decimal numerals as bytes: reading them, and the one canonical numeral of a number. -/
namespace Machine

def DecimalDigit (c : UInt8) : Prop := 0x30 ≤ c ∧ c ≤ 0x39

instance (c : UInt8) : Decidable (DecimalDigit c) := inferInstanceAs (Decidable (_ ∧ _))

def digitByte (d : ℕ) : UInt8 := UInt8.ofNat (0x30 + d)

/-- The digits from the most significant one on, behind a number that was read before. -/
def readDigits : (n : ℕ) → List UInt8 → Option ℕ
  | n, [] => some n
  | n, c :: s => if DecimalDigit c then readDigits (10 * n + (c.toNat - 0x30)) s else none

def readNat (s : List UInt8) : Option ℕ := if s = [] then none else readDigits 0 s

def natDecimal (n : ℕ) : List UInt8 := if n = 0 then [0x30] else (Nat.digits 10 n).reverse.map digitByte

/-- A zero stands in front of nothing else. -/
def NoLeadingZero (s : List UInt8) : Prop := s = [0x30] ∨ s.head? ≠ some 0x30

/-- Digits, or a minus sign and digits. -/
def readInt : List UInt8 → Option ℤ
  | [] => none
  | c :: s => if c = 0x2D then (readNat s).map fun n : ℕ => -(n : ℤ) else (readNat (c :: s)).map fun n : ℕ => (n : ℤ)

def intDecimal (n : ℤ) : List UInt8 := (if n < 0 then [0x2D] else []) ++ natDecimal n.natAbs

/-- "0", or a numeral without a zero in front, behind its sign if it has one. -/
def CanonicalInt (s : List UInt8) : Prop :=
  s = [0x30] ∨ (if s.head? = some 0x2D then s.tail else s).head? ≠ some 0x30

section Nat

theorem toNat_digitByte {d : ℕ} (hd : d < 10) : (digitByte d).toNat = 0x30 + d := by
  rw [digitByte, UInt8.toNat_ofNat']
  omega

theorem decimalDigit_iff (c : UInt8) : DecimalDigit c ↔ 0x30 ≤ c.toNat ∧ c.toNat ≤ 0x39 := by
  rw [DecimalDigit, UInt8.le_iff_toNat_le, UInt8.le_iff_toNat_le]
  rfl

theorem decimalDigit_digitByte {d : ℕ} (hd : d < 10) : DecimalDigit (digitByte d) := by
  rw [decimalDigit_iff, toNat_digitByte hd]
  omega

theorem digitByte_ne_minus {d : ℕ} (hd : d < 10) : digitByte d ≠ 0x2D := by
  intro heq
  have hbyte := toNat_digitByte hd
  rw [heq] at hbyte
  simp only [UInt8.reduceToNat] at hbyte
  omega

theorem digitByte_eq_zero_iff {d : ℕ} (hd : d < 10) : digitByte d = 0x30 ↔ d = 0 := by
  rw [← UInt8.toNat_inj, toNat_digitByte hd]
  simp

theorem DecimalDigit.eq_digitByte {c : UInt8} (h : DecimalDigit c) :
    c = digitByte (c.toNat - 0x30) ∧ c.toNat - 0x30 < 10 := by
  rw [decimalDigit_iff] at h
  have hlt : c.toNat - 0x30 < 10 := by omega
  refine ⟨?_, hlt⟩
  rw [← UInt8.toNat_inj, toNat_digitByte hlt]
  omega

theorem readDigits_map {ds : List ℕ} (hds : ∀ d ∈ ds, d < 10) (n : ℕ) :
    readDigits n (ds.map digitByte) = some (n * 10 ^ ds.length + Nat.ofDigits 10 ds.reverse) := by
  induction ds generalizing n with
  | nil => simp [readDigits]
  | cons d ds ih =>
    obtain ⟨hd, hds⟩ := List.forall_mem_cons.mp hds
    rw [List.map_cons, readDigits, if_pos (decimalDigit_digitByte hd), toNat_digitByte hd, ih hds, List.reverse_cons,
      Nat.ofDigits_append, Nat.ofDigits_singleton, List.length_reverse, List.length_cons, pow_succ,
      Nat.add_sub_cancel_left]
    congr 1
    ring

theorem exists_digits_of_readDigits {s : List UInt8} {n k : ℕ} (h : readDigits n s = some k) :
    ∃ ds : List ℕ, (∀ d ∈ ds, d < 10) ∧ s = ds.map digitByte := by
  induction s generalizing n with
  | nil => exact ⟨[], fun d hd => absurd hd List.not_mem_nil, rfl⟩
  | cons c s ih =>
    rw [readDigits] at h
    split_ifs at h with hc
    obtain ⟨ds, hds, rfl⟩ := ih h
    obtain ⟨heq, hlt⟩ := hc.eq_digitByte
    exact ⟨(c.toNat - 0x30) :: ds, List.forall_mem_cons.mpr ⟨hlt, hds⟩, by rw [List.map_cons, ← heq]⟩

theorem readNat_natDecimal (n : ℕ) : readNat (natDecimal n) = some n := by
  unfold natDecimal
  split_ifs with hzero
  · rw [hzero]
    rfl
  · have hne : Nat.digits 10 n ≠ [] := Nat.digits_ne_nil_iff_ne_zero.mpr hzero
    have hlt : ∀ d ∈ (Nat.digits 10 n).reverse, d < 10 := fun d hd =>
      Nat.digits_lt_base (by decide) (List.mem_reverse.mp hd)
    rw [readNat, if_neg (by simpa using hne), readDigits_map hlt, List.reverse_reverse, Nat.ofDigits_digits,
      Nat.zero_mul, Nat.zero_add]

theorem head?_natDecimal {n : ℕ} (hn : n ≠ 0) : ∃ d, 0 < d ∧ d < 10 ∧ (natDecimal n).head? = some (digitByte d) := by
  have hne := Nat.digits_ne_nil_iff_ne_zero (b := 10).mpr hn
  refine ⟨(Nat.digits 10 n).getLast hne, Nat.pos_of_ne_zero (Nat.getLast_digit_ne_zero 10 hn),
    Nat.digits_lt_base (by decide) (List.getLast_mem hne), ?_⟩
  rw [natDecimal, if_neg hn, List.head?_map, List.head?_reverse, List.getLast?_eq_some_getLast hne]
  rfl

theorem noLeadingZero_natDecimal (n : ℕ) : NoLeadingZero (natDecimal n) := by
  by_cases hn : n = 0
  · rw [hn]
    exact Or.inl rfl
  · obtain ⟨d, hpos, hlt, hhead⟩ := head?_natDecimal hn
    refine Or.inr fun hzero => ?_
    rw [hhead, Option.some.injEq, digitByte_eq_zero_iff hlt] at hzero
    omega

/-- There is one numeral of a number without a zero in front. -/
theorem readNat_iff (s : List UInt8) (n : ℕ) : readNat s = some n ∧ NoLeadingZero s ↔ s = natDecimal n := by
  constructor
  · rintro ⟨hread, hlead⟩
    rw [readNat] at hread
    split_ifs at hread with hnil
    obtain ⟨ds, hds, rfl⟩ := exists_digits_of_readDigits hread
    rw [readDigits_map hds, Nat.zero_mul, Nat.zero_add, Option.some.injEq] at hread
    rcases hlead with hzero | hhead
    · obtain ⟨d, rfl, hd⟩ := List.map_eq_singleton_iff.mp hzero
      rw [digitByte_eq_zero_iff (hds d List.mem_cons_self)] at hd
      rw [← hread, hd]
      rfl
    · have hne : ds.reverse ≠ [] := by simpa using hnil
      have hdigits : Nat.digits 10 n = ds.reverse := by
        rw [← hread]
        refine Nat.digits_ofDigits 10 (by decide) _ (fun d hd => hds d (List.mem_reverse.mp hd)) fun hne hlast => ?_
        cases ds with
        | nil => exact hne rfl
        | cons d ds =>
          rw [List.getLast_reverse, List.head_cons] at hlast
          rw [hlast] at hhead
          exact hhead rfl
      have hn : n ≠ 0 := by
        rw [← Nat.digits_ne_nil_iff_ne_zero (b := 10), hdigits]
        exact hne
      rw [natDecimal, if_neg hn, hdigits, List.reverse_reverse]
  · rintro rfl
    exact ⟨readNat_natDecimal n, noLeadingZero_natDecimal n⟩

end Nat

section Int

theorem head?_natDecimal_ne_minus (n : ℕ) : (natDecimal n).head? ≠ some 0x2D := by
  by_cases hn : n = 0
  · rw [hn]
    decide
  · obtain ⟨d, -, hlt, hhead⟩ := head?_natDecimal hn
    rw [hhead, Ne, Option.some.injEq]
    exact digitByte_ne_minus hlt

theorem readInt_minus (s : List UInt8) : readInt (0x2D :: s) = (readNat s).map fun n : ℕ => -(n : ℤ) := by
  rw [readInt, if_pos rfl]

theorem readInt_of_head_ne {s : List UInt8} (h : s.head? ≠ some 0x2D) :
    readInt s = (readNat s).map fun n : ℕ => (n : ℤ) := by
  cases s with
  | nil => rfl
  | cons c s => exact if_neg fun hc => h (congrArg some hc)

theorem canonicalInt_minus (s : List UInt8) : CanonicalInt (0x2D :: s) ↔ s.head? ≠ some 0x30 := by
  rw [CanonicalInt, List.head?_cons, if_pos rfl, List.tail_cons]
  exact or_iff_right (by simp)

theorem canonicalInt_of_head_ne {s : List UInt8} (h : s.head? ≠ some 0x2D) : CanonicalInt s ↔ NoLeadingZero s := by
  rw [CanonicalInt, if_neg h, NoLeadingZero]

theorem intDecimal_neg {n : ℕ} (hn : n ≠ 0) : intDecimal (-(n : ℤ)) = 0x2D :: natDecimal n := by
  rw [intDecimal, if_pos (by omega), Int.natAbs_neg, Int.natAbs_natCast]
  rfl

theorem intDecimal_natCast (n : ℕ) : intDecimal n = natDecimal n := by
  rw [intDecimal, if_neg (by omega), Int.natAbs_natCast]
  rfl

/-- There is one canonical numeral of an integer. -/
theorem readInt_iff (s : List UInt8) (n : ℤ) : readInt s = some n ∧ CanonicalInt s ↔ s = intDecimal n := by
  by_cases hminus : s.head? = some 0x2D
  · obtain ⟨t, rfl⟩ := List.head?_eq_some_iff.mp hminus
    rw [readInt_minus, canonicalInt_minus]
    constructor
    · rintro ⟨hread, hhead⟩
      obtain ⟨k, hk, rfl⟩ := Option.map_eq_some_iff.mp hread
      have ht := (readNat_iff t k).mp ⟨hk, Or.inr hhead⟩
      have hne : k ≠ 0 := by
        rintro rfl
        exact hhead (by rw [ht]; rfl)
      rw [ht, intDecimal_neg hne]
    · intro heq
      obtain ⟨k, rfl | rfl⟩ := n.eq_nat_or_neg
      · rw [intDecimal_natCast] at heq
        exact absurd (by rw [← heq]; rfl) (head?_natDecimal_ne_minus k)
      · have hne : k ≠ 0 := by
          rintro rfl
          exact absurd heq (by simp [intDecimal, natDecimal])
        rw [intDecimal_neg hne, List.cons.injEq] at heq
        obtain ⟨d, hpos, hlt, hhead⟩ := head?_natDecimal hne
        rw [heq.2, readNat_natDecimal]
        refine ⟨rfl, fun hzero => ?_⟩
        rw [hhead, Option.some.injEq, digitByte_eq_zero_iff hlt] at hzero
        omega
  · rw [readInt_of_head_ne hminus, canonicalInt_of_head_ne hminus]
    constructor
    · rintro ⟨hread, hlead⟩
      obtain ⟨k, hk, rfl⟩ := Option.map_eq_some_iff.mp hread
      rw [(readNat_iff s k).mp ⟨hk, hlead⟩, intDecimal_natCast]
    · intro heq
      obtain ⟨k, rfl | rfl⟩ := n.eq_nat_or_neg
      · rw [heq, intDecimal_natCast]
        exact ⟨by rw [readNat_natDecimal]; rfl, noLeadingZero_natDecimal k⟩
      · by_cases hne : k = 0
        · rw [heq, hne]
          exact ⟨rfl, Or.inl rfl⟩
        · rw [heq, intDecimal_neg hne] at hminus
          exact absurd rfl hminus

end Int

end Machine
