import Zhios.Fs.Fat16
import Zhios.Lib.Compare

/-! The names by which `find_item_in_directory` finds a slot: what decoding one depends on,
when it stays inside its buffer, and the comparison. -/
namespace Zhios
open Machine

/-- The decoded name of slot `j` is `name` up to case. -/
def sameName (m : Mem) (name : List UInt8) (j : ℕ) : Bool :=
  (getFat16Filename m (fat16EntrySize * j)).map toLowerChar == name.map toLowerChar

theorem zero_notMem_getFat16Filename (m : Mem) (a : ℕ) : 0 ∉ getFat16Filename m a := by
  have hname : 0 ∉ rstrip (cstring m a) := zero_notMem_rstrip (zero_notMem_cstring m a)
  rw [getFat16Filename]
  split_ifs
  · apply zero_notMem_rstrip
    simp only [strcat, List.mem_append, List.mem_singleton, not_or]
    exact ⟨⟨hname, by decide⟩, zero_notMem_cstring m (a + 8)⟩
  · exact hname

theorem nameMatches_iff (m : Mem) (name : List UInt8) (i : ℕ) :
    nameMatches m name i = true ↔
      (getFat16Filename m (fat16EntrySize * i)).map toLowerChar = name.map toLowerChar := by
  have hnull := zero_notMem_getFat16Filename m (fat16EntrySize * i)
  rw [nameMatches, Bool.and_eq_true, beq_iff_eq, beq_iff_eq]
  constructor
  · rintro ⟨hlength, hzero⟩
    exact (istrncmp_eq_zero_iff _ _ hnull hlength).mp hzero
  · intro hmap
    have hlength := congrArg List.length hmap
    rw [List.length_map, List.length_map] at hlength
    exact ⟨hlength, (istrncmp_eq_zero_iff _ _ hnull hlength).mpr hmap⟩

theorem nameMatches_eq_sameName (m : Mem) (name : List UInt8) : nameMatches m name = sameName m name := by
  funext j
  rw [Bool.eq_iff_iff, nameMatches_iff, sameName, beq_iff_eq]

/-- Both comparisons are orders of strings, and a name is found when it is the same up to case. -/
theorem comparisons_lexicographic :
    Lexicographic toLowerChar istrncmpIn istrncmp ∧ Lexicographic id strncmpIn strncmp ∧
      ∀ (m : Mem) (name : List UInt8) (i : ℕ),
        nameMatches m name i = true ↔
          (getFat16Filename m (fat16EntrySize * i)).map toLowerChar = name.map toLowerChar :=
  ⟨lexicographic_istrncmp, lexicographic_strncmp, nameMatches_iff⟩

/-- Somewhere behind its name field the entry holds a null byte, as in the upper half of the
first cluster number, so that its strings do not leave it. -/
def EntryClosed (m : Mem) (a : ℕ) : Prop := ∃ o, 8 ≤ o ∧ o < fat16EntrySize ∧ m (a + o) = 0

section
variable {m m' : Mem} {a b : ℕ}

theorem EntryClosed.cstring_eq (hclosed : EntryClosed m a) (h : ∀ k < fat16EntrySize, m (a + k) = m' (b + k)) :
    cstring m a = cstring m' b ∧ cstring m (a + 8) = cstring m' (b + 8) := by
  obtain ⟨o, hlo, hhi, hzero⟩ := hclosed
  constructor
  · exact cstring_congr (fun k hk => h k (by omega)) hzero
  · apply cstring_congr (n := o - 8)
    · intro k hk
      rw [Nat.add_assoc, Nat.add_assoc]
      exact h (8 + k) (by omega)
    · rwa [Nat.add_assoc, Nat.add_sub_cancel' hlo]

theorem getFat16Filename_congr (h : ∀ k < fat16EntrySize, m (a + k) = m' (b + k)) (hclosed : EntryClosed m a) :
    getFat16Filename m a = getFat16Filename m' b := by
  obtain ⟨hname, hext⟩ := hclosed.cstring_eq h
  have hfirst : m (a + 8) = m' (b + 8) := h 8 (by decide)
  simp only [getFat16Filename, hname, hext, hfirst]

theorem length_cstringAux_le (fuel : ℕ) {n : ℕ} (hzero : m (a + n) = 0) : (cstringAux m fuel a).length ≤ n := by
  induction fuel generalizing a n with
  | zero => exact Nat.zero_le n
  | succ fuel ih =>
    rw [cstringAux]
    split_ifs with hnull
    · exact Nat.zero_le n
    · cases n with
      | zero => exact absurd hzero hnull
      | succ n => exact Nat.succ_le_succ (ih (by rwa [Nat.add_assoc, Nat.add_comm 1 n]))

theorem EntryClosed.filenameFits (hclosed : EntryClosed m a) : filenameFits m a = true := by
  obtain ⟨o, hlo, hhi, hzero⟩ := hclosed
  have hname : (cstring m a).length ≤ o := length_cstringAux_le _ hzero
  have hext : (cstring m (a + 8)).length ≤ o - 8 :=
    length_cstringAux_le _ (by rwa [Nat.add_assoc, Nat.add_sub_cancel' hlo])
  have hstripped := length_rstrip_le (cstring m a)
  unfold fat16EntrySize at hhi
  apply decide_eq_true
  unfold filenameBytes zhiosMaxPath
  dsimp only
  split_ifs <;> omega

end

end Zhios
