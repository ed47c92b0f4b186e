import Mathlib.Tactic

/-! A search for a least element that takes the later one of equals, as a loop keeps it that
compares each element with the best one so far. -/
namespace Machine

variable {α κ : Type*} [LinearOrder κ] (key : α → κ)

/-- The best element so far, if there has been one. -/
def keepLeast : Option α → α → Option α
  | none, x => some x
  | some b, x => if key x ≤ key b then some x else some b

/-- An element of the list whose key is least. -/
structure LeastOf (l : List α) (b : α) : Prop where
  mem : b ∈ l
  le : ∀ x ∈ l, key b ≤ key x

variable {key} {l l' : List α} {b b' x : α}

theorem LeastOf.cons_of_le (h : LeastOf key l b) (hle : key x ≤ key b) : LeastOf key (x :: l) x :=
  ⟨List.mem_cons_self, List.forall_mem_cons.mpr ⟨le_rfl, fun y hy => hle.trans (h.le y hy)⟩⟩

theorem LeastOf.cons_of_lt (h : LeastOf key l b) (hlt : key b < key x) : LeastOf key (x :: l) b :=
  ⟨List.mem_cons_of_mem _ h.mem, List.forall_mem_cons.mpr ⟨hlt.le, h.le⟩⟩

/-- The keys of least elements do not depend on the order. -/
theorem LeastOf.key_eq (h : LeastOf key l b) (h' : LeastOf key l' b') (hperm : l.Perm l') : key b = key b' :=
  le_antisymm (h.le b' (hperm.mem_iff.mpr h'.mem)) (h'.le b (hperm.mem_iff.mp h.mem))

theorem foldl_keepLeast (seen : List α) (h : LeastOf key seen b) :
    ∃ b', l.foldl (keepLeast key) (some b) = some b' ∧ LeastOf key (l.reverse ++ seen) b' := by
  induction l generalizing seen b with
  | nil => exact ⟨b, rfl, h⟩
  | cons x l ih =>
    rw [List.foldl_cons, keepLeast, List.reverse_cons, List.append_assoc]
    by_cases hle : key x ≤ key b
    · rw [if_pos hle]
      exact ih _ (h.cons_of_le hle)
    · rw [if_neg hle]
      exact ih _ (h.cons_of_lt (lt_of_not_ge hle))

theorem foldl_keepLeast_none (key : α → κ) (hne : l ≠ []) :
    ∃ b, l.foldl (keepLeast key) none = some b ∧ LeastOf key l b := by
  cases l with
  | nil => exact absurd rfl hne
  | cons x l =>
    have hfirst : LeastOf key [x] x := ⟨List.mem_cons_self, List.forall_mem_singleton.mpr le_rfl⟩
    obtain ⟨b, hb, hleast⟩ := foldl_keepLeast (l := l) [x] hfirst
    refine ⟨b, hb, ?_, fun y hy => hleast.le y ?_⟩
    · have hmem := hleast.mem
      rw [List.mem_append, List.mem_reverse, List.mem_singleton] at hmem
      exact List.mem_cons.mpr hmem.symm
    · rw [List.mem_append, List.mem_reverse, List.mem_singleton]
      exact (List.mem_cons.mp hy).symm

end Machine
