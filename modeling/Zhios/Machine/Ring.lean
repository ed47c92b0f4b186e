import Mathlib.Tactic

/-! A ring of `n` slots used as a queue. The writer has written `written` values
since the ring was empty; the unread ones are the last of them. Slots are never
cleared, so nothing is said about the others. -/
namespace Machine

/-- The unread values, oldest first, lie in the slots behind the writer. -/
structure Ring {α : Type*} (n : ℕ) (slots : ℕ → α) (written : ℕ) (unread : List α) : Prop where
  length_le : unread.length ≤ n
  length_le_written : unread.length ≤ written
  slot : ∀ i (h : i < unread.length), slots ((written - unread.length + i) % n) = unread[i]

namespace Ring
variable {α : Type*} {n written : ℕ} {slots : ℕ → α} {unread : List α}

theorem nil (n : ℕ) (slots : ℕ → α) (written : ℕ) : Ring n slots written [] :=
  ⟨Nat.zero_le _, Nat.zero_le _, fun i h => absurd h (Nat.not_lt_zero i)⟩

/-- Positions less than a lap apart are in different slots. -/
private theorem mod_ne {a b : ℕ} (hlt : a < b) (hlap : b < a + n) : a % n ≠ b % n := by
  intro heq
  have hdvd : n ∣ b - a := Nat.dvd_of_mod_eq_zero (Nat.sub_mod_eq_zero_of_mod_eq heq.symm)
  have hle := Nat.le_of_dvd (by omega) hdvd
  omega

theorem push (h : Ring n slots written unread) (hroom : unread.length < n) (c : α) :
    Ring n (Function.update slots (written % n) c) (written + 1) (unread ++ [c]) := by
  have hle := h.length_le_written
  constructor
  · simpa using hroom
  · simpa using hle
  · intro i hi
    simp only [List.length_append, List.length_singleton] at hi ⊢
    rw [show written + 1 - (unread.length + 1) = written - unread.length by omega]
    rcases Nat.lt_or_ge i unread.length with hold | hnew
    · have hne : (written - unread.length + i) % n ≠ written % n := mod_ne (by omega) (by omega)
      rw [Function.update_of_ne hne, h.slot i hold, List.getElem_append_left hold]
    · obtain rfl : i = unread.length := by omega
      rw [show written - unread.length + unread.length = written by omega, Function.update_self]
      simp

theorem front {c : α} (h : Ring n slots written (c :: unread)) :
    slots ((written - (c :: unread).length) % n) = c := h.slot 0 (by simp)

theorem pop {c : α} (h : Ring n slots written (c :: unread)) : Ring n slots written unread := by
  have hle := h.length_le
  have hwritten := h.length_le_written
  simp only [List.length_cons] at hle hwritten
  constructor
  · omega
  · omega
  · intro i hi
    have hslot := h.slot (i + 1) (by simpa using hi)
    simp only [List.length_cons, List.getElem_cons_succ] at hslot
    rwa [show written - (unread.length + 1) + (i + 1) = written - unread.length + i by omega] at hslot

end Ring

end Machine
