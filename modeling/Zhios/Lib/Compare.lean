import Zhios.Lib.CString
import Zhios.Machine.Word

/-! The comparisons of `lib/src/memory.c` and `lib/src/string.c`: what they read, and the order they find. -/
namespace Zhios
open Machine

section Memcmp

/-- The offsets from both pointers that `memcmp` reads. -/
def memcmpReads (c1 c2 : ℤ → UInt8) : (count : ℕ) → List ℤ
  | 0 => []
  | count + 1 => 0 :: if c1 0 ≠ c2 0 then [-1] else memcmpReads c1 c2 count

/-- `memcmp` compares the bytes of two buffers and reads no others. -/
structure ComparesBytes (c1 c2 : ℤ → UInt8) (size1 size2 count : ℕ) : Prop where
  zero_iff : memcmp c1 c2 count = 0 ↔ ∀ i : ℕ, i < count → c1 i = c2 i
  sign : ∀ i : ℕ, i < count → (∀ j : ℕ, j < i → c1 j = c2 j) → c1 i ≠ c2 i →
    (memcmp c1 c2 count).sign = ((c1 i).toNat - (c2 i).toNat : ℤ).sign
  inside : ∀ i ∈ memcmpReads c1 c2 count, 0 ≤ i ∧ i < size1 ∧ i < size2

variable {c1 c2 : ℤ → UInt8} {size1 size2 count : ℕ}

/-- Without a first difference only the first bytes are read, as often as there are bytes. -/
theorem memcmp_of_eq (h : c1 0 = c2 0) : memcmp c1 c2 count = 0 ∧ ∀ i ∈ memcmpReads c1 c2 count, i = 0 ∧ 0 < count := by
  induction count with
  | zero => exact ⟨rfl, fun i hi => absurd hi List.not_mem_nil⟩
  | succ count ih =>
    rw [memcmp, memcmpReads, if_neg (not_not.mpr h), if_neg (not_not.mpr h)]
    refine ⟨ih.1, fun i hi => ?_⟩
    rcases List.mem_cons.mp hi with rfl | hmem
    · exact ⟨rfl, Nat.succ_pos _⟩
    · exact ⟨(ih.2 i hmem).1, Nat.succ_pos _⟩

theorem ComparesBytes.agree (h : ComparesBytes c1 c2 size1 size2 count) : ∀ i : ℕ, i < count → c1 i = c2 i := by
  apply h.zero_iff.mp
  cases count with
  | zero => rfl
  | succ count =>
    by_contra hne
    have hfirst : c1 0 ≠ c2 0 := fun heq => hne (memcmp_of_eq heq).1
    have hread : (-1 : ℤ) ∈ memcmpReads c1 c2 (count + 1) := by
      rw [memcmpReads, if_pos hfirst]
      exact List.mem_cons_of_mem _ (List.mem_singleton_self _)
    exact absurd (h.inside (-1) hread).1 (by decide)

/-- The comparison is right for buffers that agree, and for no others. -/
theorem memcmp_comparesBytes_iff (h1 : count ≤ size1) (h2 : count ≤ size2) :
    ComparesBytes c1 c2 size1 size2 count ↔ ∀ i : ℕ, i < count → c1 i = c2 i := by
  refine ⟨ComparesBytes.agree, fun hagree => ?_⟩
  have hzero : memcmp c1 c2 count = 0 ∧ ∀ i ∈ memcmpReads c1 c2 count, i = 0 ∧ 0 < count := by
    cases count with
    | zero => exact ⟨rfl, fun i hi => absurd hi List.not_mem_nil⟩
    | succ count => exact memcmp_of_eq (hagree 0 (Nat.succ_pos _))
  refine ⟨iff_of_true hzero.1 hagree, fun i hi _ hne => absurd (hagree i hi) hne, fun i hi => ?_⟩
  obtain ⟨rfl, hpos⟩ := hzero.2 i hi
  omega

theorem memcmp_comparesBytes_iff_pair :
    ComparesBytes (fun i => if i = 0 then 1 else if i = 1 then 2 else 0)
        (fun i => if i = 0 then 1 else if i = 1 then 3 else 0) 2 2 2 ↔
      ∀ i : ℕ, i < 2 → (if (i : ℤ) = 0 then (1 : UInt8) else if (i : ℤ) = 1 then 2 else 0) =
        if (i : ℤ) = 0 then 1 else if (i : ℤ) = 1 then 3 else 0 :=
  memcmp_comparesBytes_iff le_rfl le_rfl

/-- The second bytes of these buffers differ. -/
theorem memcmp_second_byte :
    ¬ ∀ (c1 c2 : ℤ → UInt8) (size1 size2 count : ℕ), count ≤ size1 → count ≤ size2 →
      ComparesBytes c1 c2 size1 size2 count := by
  intro hall
  have hcompares := hall (fun i => if i = 0 then 1 else if i = 1 then 2 else 0)
    (fun i => if i = 0 then 1 else if i = 1 then 3 else 0) 2 2 2 le_rfl le_rfl
  exact absurd (hcompares.agree 1 (by decide)) (by decide)

end Memcmp

section Strncmp

/-- The loop of `strncmp` and `istrncmp` from an offset on. There is nothing behind the lists. -/
def compareLoop (f : UInt8 → UInt8) (s1 s2 : List UInt8) : (n i : ℕ) → Option ℤ
  | 0, _ => some 0
  | n + 1, i =>
    s1[i]?.bind fun b1 => s2[i]?.bind fun b2 =>
      let c1 := f b1
      let c2 := f b2
      if c1 ≠ c2 then some ((c1.toNat : ℤ) - c2.toNat)
      else if c1 = 0 ∨ c2 = 0 then some 0
      else compareLoop f s1 s2 n (i + 1)

/-- `to_lower_char` as it is declared, on the signed characters. -/
def toLowerSigned (ch : Int8) : Int8 := if 0x41 ≤ ch ∧ ch ≤ 0x5A then ch - 0x41 + 0x61 else ch

def strncmpIn (s1 s2 : List UInt8) (n : ℕ) : Option ℤ := compareLoop id s1 s2 n 0

def istrncmpIn (s1 s2 : List UInt8) (n : ℕ) : Option ℤ :=
  compareLoop (fun b => (toLowerSigned b.toInt8).toUInt8) s1 s2 n 0

/-- What is compared of a string: at most `n` bytes as far as its null, mapped. -/
def comparedBytes (f : UInt8 → UInt8) (s : List UInt8) (n : ℕ) : List ℕ := ((s ++ [0]).take n).map fun c => (f c).toNat

/-- Only the null is mapped to null. -/
def KeepsNull (f : UInt8 → UInt8) : Prop := ∀ c, f c = 0 ↔ c = 0

theorem keepsNull_id : KeepsNull id := fun _ => Iff.rfl

theorem toLowerSigned_eq (b : UInt8) : (toLowerSigned b.toInt8).toUInt8 = toLowerChar b := by
  apply forall_byte ?_ b
  decide +kernel

variable {f : UInt8 → UInt8} {s t u : List UInt8} {n : ℕ}

theorem comparedBytes_succ (f : UInt8 → UInt8) (s : List UInt8) (n : ℕ) :
    comparedBytes f s (n + 1) = (f (s.headD 0)).toNat :: if s = [] then [] else comparedBytes f s.tail n := by
  cases s with
  | nil =>
    rw [if_pos rfl, comparedBytes, List.nil_append, List.take_succ_cons, List.take_nil, List.map_singleton]
    rfl
  | cons c s =>
    rw [if_neg (List.cons_ne_nil _ _), comparedBytes, List.cons_append, List.take_succ_cons, List.map_cons]
    rfl

theorem headD_eq_zero_iff (hs : 0 ∉ s) : s.headD 0 = 0 ↔ s = [] := by
  cases s with
  | nil => exact iff_of_true rfl rfl
  | cons c s =>
    refine iff_of_false (fun h => hs ?_) (List.cons_ne_nil _ _)
    rw [← h]
    exact List.mem_cons_self

theorem compareUpTo_succ (f : UInt8 → UInt8) (s t : List UInt8) (n : ℕ) :
    compareUpTo f s t (n + 1) =
      if f (s.headD 0) = f (t.headD 0) then if f (s.headD 0) = 0 then 0 else compareUpTo f s.tail t.tail n
      else ((f (s.headD 0)).toNat : ℤ) - (f (t.headD 0)).toNat := by
  by_cases heq : f (s.headD 0) = f (t.headD 0)
  · simp only [compareUpTo, heq, ne_eq, not_true_eq_false, if_false, if_true, or_self]
  · simp only [compareUpTo, heq, ne_eq, not_false_eq_true, if_true, if_false]

/-- The loop needs nothing behind the nulls of its strings. -/
theorem compareLoop_eq (hf : KeepsNull f) (hs : 0 ∉ s) (ht : 0 ∉ t) {i : ℕ} {s' t' : List UInt8}
    (hs' : s'.drop i = s ++ [0]) (ht' : t'.drop i = t ++ [0]) :
    compareLoop f s' t' n i = some (compareUpTo f s t n) := by
  induction n generalizing s t i with
  | zero => rfl
  | succ n ih =>
    have hhead : ∀ r r' : List UInt8, r'.drop i = r ++ [0] → r'[i]? = some (r.headD 0) := by
      intro r r' hr
      have hfirst : (r'.drop i)[0]? = r'[i + 0]? := List.getElem?_drop
      rw [Nat.add_zero, hr] at hfirst
      rw [← hfirst]
      cases r <;> rfl
    rw [compareLoop, hhead s s' hs', Option.bind_some, hhead t t' ht', Option.bind_some, compareUpTo_succ]
    simp only
    by_cases heq : f (s.headD 0) = f (t.headD 0)
    · rw [if_neg (not_not.mpr heq), if_pos heq, ← heq]
      simp only [or_self]
      by_cases hzero : f (s.headD 0) = 0
      · rw [if_pos hzero, if_pos hzero]
      · rw [if_neg hzero, if_neg hzero]
        cases s with
        | nil => exact absurd ((hf _).mpr rfl) hzero
        | cons c s =>
          cases t with
          | nil => exact absurd (heq.trans ((hf _).mpr rfl)) hzero
          | cons d t =>
            have hnext : ∀ (c : UInt8) (r r' : List UInt8),
                r'.drop i = c :: r ++ [0] → r'.drop (i + 1) = r ++ [0] := by
              intro c r r' hr
              rw [← List.drop_drop, hr]
              rfl
            exact ih (fun h => hs (List.mem_cons_of_mem _ h)) (fun h => ht (List.mem_cons_of_mem _ h))
              (hnext c s s' hs') (hnext d t t' ht')
    · rw [if_pos heq, if_neg heq]

theorem compareUpTo_swap (f : UInt8 → UInt8) (s t : List UInt8) (n : ℕ) :
    compareUpTo f t s n = -compareUpTo f s t n := by
  induction n generalizing s t with
  | zero => rfl
  | succ n ih =>
    rw [compareUpTo_succ, compareUpTo_succ]
    by_cases heq : f (s.headD 0) = f (t.headD 0)
    · rw [if_pos heq, if_pos heq.symm, ← heq, ih s.tail t.tail]
      split_ifs <;> rfl
    · rw [if_neg heq, if_neg fun h => heq h.symm]
      omega

/-- The result orders the compared bytes lexicographically. -/
theorem compareUpTo_order (hf : KeepsNull f) (hs : 0 ∉ s) (ht : 0 ∉ t) (n : ℕ) :
    (compareUpTo f s t n = 0 ↔ comparedBytes f s n = comparedBytes f t n) ∧
      (compareUpTo f s t n < 0 ↔ comparedBytes f s n < comparedBytes f t n) := by
  induction n generalizing s t with
  | zero => exact ⟨iff_of_true rfl rfl, iff_of_false (lt_irrefl 0) (List.not_lt_nil _)⟩
  | succ n ih =>
    rw [compareUpTo_succ, comparedBytes_succ, comparedBytes_succ, List.cons_lt_cons_iff, List.cons.injEq]
    by_cases heq : f (s.headD 0) = f (t.headD 0)
    · rw [if_pos heq, ← heq]
      have hempty : ∀ r : List UInt8, 0 ∉ r → (f (r.headD 0) = 0 ↔ r = []) := fun r hr =>
        (hf _).trans (headD_eq_zero_iff hr)
      by_cases hzero : f (s.headD 0) = 0
      · rw [if_pos hzero, if_pos ((hempty s hs).mp hzero), if_pos ((hempty t ht).mp (heq ▸ hzero))]
        exact ⟨iff_of_true rfl ⟨rfl, rfl⟩, iff_of_false (lt_irrefl 0) (by simp)⟩
      · rw [if_neg hzero, if_neg (mt (hempty s hs).mpr hzero), if_neg (mt (hempty t ht).mpr (heq ▸ hzero))]
        obtain ⟨hsame, hless⟩ := ih (fun h => hs (List.mem_of_mem_tail h)) fun h => ht (List.mem_of_mem_tail h)
        rw [hsame, hless]
        exact ⟨(and_iff_right rfl).symm, by simp⟩
    · have hne : (f (s.headD 0)).toNat ≠ (f (t.headD 0)).toNat := fun h => heq (UInt8.toNat_inj.mp h)
      rw [if_neg heq]
      refine ⟨iff_of_false (by omega) fun h => hne h.1, ?_⟩
      rw [or_iff_left fun h => hne h.1]
      omega

/-- A comparison of at most `n` mapped characters, and the loop that computes it. -/
structure Lexicographic (f : UInt8 → UInt8) (loop : (s1 s2 : List UInt8) → (n : ℕ) → Option ℤ)
    (cmp : (s1 s2 : List UInt8) → (n : ℕ) → ℤ) : Prop where
  reads : ∀ s t n, 0 ∉ s → 0 ∉ t → loop (s ++ [0]) (t ++ [0]) n = some (cmp s t n)
  zero_iff : ∀ s t n, 0 ∉ s → 0 ∉ t → (cmp s t n = 0 ↔ comparedBytes f s n = comparedBytes f t n)
  neg_iff : ∀ s t n, 0 ∉ s → 0 ∉ t → (cmp s t n < 0 ↔ comparedBytes f s n < comparedBytes f t n)
  pos_iff : ∀ s t n, 0 ∉ s → 0 ∉ t → (0 < cmp s t n ↔ comparedBytes f t n < comparedBytes f s n)
  swap : ∀ s t n, cmp t s n = -cmp s t n
  trans : ∀ s t u n, 0 ∉ s → 0 ∉ t → 0 ∉ u → cmp s t n ≤ 0 → cmp t u n ≤ 0 → cmp s u n ≤ 0

theorem lexicographic_compareUpTo (hf : KeepsNull f) :
    Lexicographic f (fun s1 s2 n => compareLoop f s1 s2 n 0) (compareUpTo f) := by
  have hle : ∀ s t n, 0 ∉ s → 0 ∉ t → (compareUpTo f s t n ≤ 0 ↔ comparedBytes f s n ≤ comparedBytes f t n) := by
    intro s t n hs ht
    rw [le_iff_lt_or_eq, le_iff_lt_or_eq, (compareUpTo_order hf hs ht n).1, (compareUpTo_order hf hs ht n).2]
  refine ⟨?_, ?_, ?_, ?_, compareUpTo_swap f, ?_⟩
  · exact fun s t n hs ht => compareLoop_eq hf hs ht rfl rfl
  · exact fun s t n hs ht => (compareUpTo_order hf hs ht n).1
  · exact fun s t n hs ht => (compareUpTo_order hf hs ht n).2
  · intro s t n hs ht
    rw [← (compareUpTo_order hf ht hs n).2, compareUpTo_swap f s t n]
    omega
  · intro s t u n hs ht hu hst htu
    rw [hle s u n hs hu]
    exact ((hle s t n hs ht).mp hst).trans ((hle t u n ht hu).mp htu)

theorem lexicographic_strncmp : Lexicographic id strncmpIn strncmp := lexicographic_compareUpTo keepsNull_id

theorem lexicographic_istrncmp : Lexicographic toLowerChar istrncmpIn istrncmp := by
  have hloop : istrncmpIn = fun s1 s2 n => compareLoop toLowerChar s1 s2 n 0 := by
    funext s1 s2 n
    rw [istrncmpIn, funext toLowerSigned_eq]
  rw [hloop]
  exact lexicographic_compareUpTo toLowerChar_eq_zero_iff

end Strncmp

end Zhios
