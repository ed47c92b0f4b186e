import Mathlib.Tactic

/-! The rank of an element in a list that only grows at its front: elements are
numbered from one in the order in which they were added, and what is not in the
list has rank zero. -/
namespace Machine

section
variable {α : Type*} [DecidableEq α] {l : List α} {a b : α}

def rank (l : List α) (a : α) : ℕ := (l.dropWhile (· ≠ a)).length

theorem rank_cons (l : List α) (a b : α) : rank (b :: l) a = if a = b then l.length + 1 else rank l a := by
  unfold rank
  by_cases h : a = b
  · simp [h]
  · simp [h, Ne.symm h]

theorem rank_cons_self (l : List α) (b : α) : rank (b :: l) b = l.length + 1 := by rw [rank_cons, if_pos rfl]

theorem rank_cons_of_ne (l : List α) (h : a ≠ b) : rank (b :: l) a = rank l a := by rw [rank_cons, if_neg h]

theorem rank_le (l : List α) (a : α) : rank l a ≤ l.length := (List.dropWhile_sublist _).length_le

theorem rank_pos_iff : 0 < rank l a ↔ a ∈ l := by
  induction l with
  | nil => simp [rank]
  | cons b l ih =>
    rw [rank_cons, List.mem_cons]
    split_ifs with h <;> simp [h, ih]

theorem rank_inj (ha : a ∈ l) (h : rank l a = rank l b) : a = b := by
  induction l with
  | nil => simp at ha
  | cons c l ih =>
    have hle := rank_le l
    rw [rank_cons, rank_cons] at h
    split_ifs at h with hac hbc hbc
    · rw [hac, hbc]
    · have := hle b
      omega
    · have := hle a
      omega
    · exact ih ((List.mem_cons.mp ha).resolve_left hac) h

end

end Machine
