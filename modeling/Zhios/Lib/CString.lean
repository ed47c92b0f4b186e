import Zhios.Machine.Memory

/-! The string functions of `lib/src/string.c` and the comparison and the copy of
`lib/src/memory.c`. A C string is the list of its bytes in front of the terminating
null. -/
namespace Zhios
open Machine

def zhiosMaxPath : ℕ := 100

/-- The string at `a`, looked for through at most `fuel` bytes. -/
def cstringAux (m : Mem) : (fuel a : ℕ) → List UInt8
  | 0, _ => []
  | fuel + 1, a => if m a = 0 then [] else m a :: cstringAux m fuel (a + 1)

def cstring (m : Mem) (a : ℕ) : List UInt8 := cstringAux m (2 ^ 32) a

def isDigit (ch : UInt8) : Bool := 0x30 ≤ ch && ch ≤ 0x39

def atoi (ch : UInt8) : ℤ := (ch.toNat : ℤ) - 0x30

def toLowerChar (ch : UInt8) : UInt8 := if 0x41 ≤ ch ∧ ch ≤ 0x5A then ch - 0x41 + 0x61 else ch

/-- The common loop of `strncmp` and `istrncmp`, comparing after `f`. -/
def compareUpTo (f : UInt8 → UInt8) : (s1 s2 : List UInt8) → (n : ℕ) → ℤ
  | _, _, 0 => 0
  | s1, s2, n + 1 =>
    let c1 := f (s1.headD 0)
    let c2 := f (s2.headD 0)
    if c1 ≠ c2 then (c1.toNat : ℤ) - c2.toNat
    else if c1 = 0 ∨ c2 = 0 then 0
    else compareUpTo f s1.tail s2.tail n

def strncmp (s1 s2 : List UInt8) (n : ℕ) : ℤ := compareUpTo id s1 s2 n

def istrncmp (s1 s2 : List UInt8) (n : ℕ) : ℤ := compareUpTo toLowerChar s1 s2 n

/-- Copies up to the first space or the end. -/
def rstrip (s : List UInt8) : List UInt8 := s.takeWhile fun c => c != 0x20

def strcat (s1 s2 : List UInt8) : List UInt8 := s1 ++ s2

/-- Neither pointer is moved, so the first bytes are compared `count` times. The
order is taken from the bytes in front of them, which are signed. -/
def memcmp (c1 c2 : ℤ → UInt8) : (count : ℕ) → ℤ
  | 0 => 0
  | count + 1 =>
    if c1 0 ≠ c2 0 then if (c2 (-1)).toBitVec.toInt < (c1 (-1)).toBitVec.toInt then 1 else -1
    else memcmp c1 c2 count

theorem cstringAux_congr {m m' : Mem} (fuel : ℕ) {a b n : ℕ} (h : ∀ k ≤ n, m (a + k) = m' (b + k))
    (hend : m (a + n) = 0) : cstringAux m fuel a = cstringAux m' fuel b := by
  induction fuel generalizing a b n with
  | zero => rfl
  | succ fuel ih =>
    have h0 : m a = m' b := h 0 (Nat.zero_le n)
    rw [cstringAux, cstringAux, ← h0]
    split_ifs with hzero
    · rfl
    · cases n with
      | zero => exact absurd hend hzero
      | succ n =>
        have hnext : ∀ k ≤ n, m (a + 1 + k) = m' (b + 1 + k) := by
          intro k hk
          rw [Nat.add_assoc, Nat.add_assoc, Nat.add_comm 1 k]
          exact h (k + 1) (by omega)
        rw [ih hnext (by rw [Nat.add_assoc, Nat.add_comm 1 n]; exact hend)]

/-- A string is fixed by the bytes up to a null. -/
theorem cstring_congr {m m' : Mem} {a b n : ℕ} (h : ∀ k ≤ n, m (a + k) = m' (b + k))
    (hend : m (a + n) = 0) : cstring m a = cstring m' b := cstringAux_congr _ h hend

theorem zero_notMem_cstringAux (m : Mem) (fuel a : ℕ) : 0 ∉ cstringAux m fuel a := by
  induction fuel generalizing a with
  | zero => simp [cstringAux]
  | succ fuel ih =>
    rw [cstringAux]
    split_ifs with hzero
    · simp
    · simp only [List.mem_cons, not_or]
      exact ⟨fun h => hzero h.symm, ih (a + 1)⟩

theorem zero_notMem_cstring (m : Mem) (a : ℕ) : 0 ∉ cstring m a := zero_notMem_cstringAux m _ a

theorem zero_notMem_rstrip {s : List UInt8} (h : 0 ∉ s) : 0 ∉ rstrip s :=
  fun hmem => h ((List.takeWhile_sublist _).subset hmem)

theorem length_rstrip_le (s : List UInt8) : (rstrip s).length ≤ s.length := (List.takeWhile_sublist _).length_le

theorem toLowerChar_eq_zero_iff (ch : UInt8) : toLowerChar ch = 0 ↔ ch = 0 := by
  unfold toLowerChar
  split_ifs with h
  · rw [UInt8.le_iff_toNat_le, UInt8.le_iff_toNat_le] at h
    rw [← UInt8.toNat_inj, ← UInt8.toNat_inj, UInt8.toNat_add, UInt8.toNat_sub_of_le _ _ (by
      rw [UInt8.le_iff_toNat_le]; exact h.1)]
    simp only [UInt8.reduceToNat] at h ⊢
    omega
  · exact Iff.rfl

theorem compareUpTo_cons (f : UInt8 → UInt8) (c c' : UInt8) (s1 s2 : List UInt8) (n : ℕ) :
    compareUpTo f (c :: s1) (c' :: s2) (n + 1) =
      if f c = f c' then if f c = 0 then 0 else compareUpTo f s1 s2 n
      else ((f c).toNat : ℤ) - (f c').toNat := by
  by_cases heq : f c = f c' <;> simp [compareUpTo, heq]

theorem istrncmp_eq_zero_iff (s1 s2 : List UInt8) (h1 : 0 ∉ s1) (hlen : s1.length = s2.length) :
    istrncmp s1 s2 s1.length = 0 ↔ s1.map toLowerChar = s2.map toLowerChar := by
  induction s1 generalizing s2 with
  | nil =>
    obtain rfl := List.eq_nil_of_length_eq_zero hlen.symm
    exact iff_of_true rfl rfl
  | cons c s1 ih =>
    cases s2 with
    | nil => simp at hlen
    | cons c' s2 =>
      obtain ⟨hc, hs⟩ := not_or.mp (mt List.mem_cons.mpr h1)
      have hlower : toLowerChar c ≠ 0 := fun h0 => hc ((toLowerChar_eq_zero_iff c).mp h0).symm
      have ih := ih s2 hs (by simpa using hlen)
      rw [istrncmp, List.length_cons, compareUpTo_cons, List.map_cons, List.map_cons, List.cons.injEq]
      by_cases heq : toLowerChar c = toLowerChar c'
      · rw [if_pos heq, if_neg hlower]
        exact ih.trans (and_iff_right heq).symm
      · rw [if_neg heq]
        exact iff_of_false (fun h0 => heq (UInt8.toNat_inj.mp (by omega))) fun h => heq h.1

end Zhios
