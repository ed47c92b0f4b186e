import Mathlib.Tactic

/-! Linear search of a table: the loop that stops at the first index with a
property. -/
namespace Machine

/-- The first of `fuel` indices from `i` on that satisfies `p`. -/
def findSlot (p : ℕ → Bool) : (fuel i : ℕ) → Option ℕ
  | 0, _ => none
  | fuel + 1, i => if p i then some i else findSlot p fuel (i + 1)

theorem findSlot_eq_none_iff (p : ℕ → Bool) (fuel i : ℕ) :
    findSlot p fuel i = none ↔ ∀ j, i ≤ j → j < i + fuel → p j = false := by
  induction fuel generalizing i with
  | zero => exact iff_of_true rfl (by omega)
  | succ fuel ih =>
    rw [findSlot]
    cases hp : p i with
    | true =>
      refine iff_of_false (by simp) fun hall => ?_
      simp [hall i le_rfl (by omega)] at hp
    | false =>
      rw [if_neg (by simp), ih (i + 1)]
      constructor
      · intro hall j hlo hhi
        rcases hlo.eq_or_lt with rfl | hlt
        · exact hp
        · exact hall j hlt (by omega)
      · exact fun hall j hlo hhi => hall j (by omega) (by omega)

theorem findSlot_eq_some_iff (p : ℕ → Bool) (fuel i j : ℕ) :
    findSlot p fuel i = some j ↔
      i ≤ j ∧ j < i + fuel ∧ p j = true ∧ ∀ k, i ≤ k → k < j → p k = false := by
  induction fuel generalizing i with
  | zero => exact iff_of_false (by simp [findSlot]) (by omega)
  | succ fuel ih =>
    rw [findSlot]
    cases hp : p i with
    | true =>
      rw [if_pos rfl, Option.some.injEq]
      constructor
      · rintro rfl
        exact ⟨le_rfl, by omega, hp, by omega⟩
      · intro hfound
        obtain ⟨hlo, -, -, hbefore⟩ := hfound
        by_contra hne
        simp [hbefore i le_rfl (by omega)] at hp
    | false =>
      rw [if_neg (by simp), ih (i + 1)]
      constructor
      · intro hfound
        obtain ⟨hlo, hhi, hj, hbefore⟩ := hfound
        refine ⟨by omega, by omega, hj, fun k hk hkj => ?_⟩
        rcases hk.eq_or_lt with rfl | hlt
        · exact hp
        · exact hbefore k hlt hkj
      · intro hfound
        obtain ⟨hlo, hhi, hj, hbefore⟩ := hfound
        have hne : i ≠ j := by
          rintro rfl
          simp [hp] at hj
        exact ⟨by omega, by omega, hj, fun k hk hkj => hbefore k (by omega) hkj⟩

theorem findSlot_congr {p q : ℕ → Bool} {fuel i : ℕ} (h : ∀ j, i ≤ j → j < i + fuel → p j = q j) :
    findSlot p fuel i = findSlot q fuel i := by
  induction fuel generalizing i with
  | zero => rfl
  | succ fuel ih =>
    rw [findSlot, findSlot, h i le_rfl (by omega), ih fun j hlo hhi => h j (by omega) (by omega)]

/-- The first of `fuel` indices from `i` on that satisfies `p`. There is no result when one that
is looked at on the way does not meet `ok`. -/
def findSlotIf (ok p : ℕ → Bool) : (fuel i : ℕ) → Option (Option ℕ)
  | 0, _ => some none
  | fuel + 1, i => if ok i then if p i then some (some i) else findSlotIf ok p fuel (i + 1) else none

theorem findSlotIf_eq_some_iff (ok p : ℕ → Bool) (fuel i : ℕ) (r : Option ℕ) :
    findSlotIf ok p fuel i = some r ↔
      findSlot p fuel i = r ∧
        ∀ j, i ≤ j → j < i + fuel → (∀ k, i ≤ k → k < j → p k = false) → ok j = true := by
  induction fuel generalizing i with
  | zero =>
    rw [findSlotIf, findSlot, Option.some.injEq]
    exact (and_iff_left (by omega)).symm
  | succ fuel ih =>
    rw [findSlotIf, findSlot]
    by_cases hok : ok i = true
    · rw [if_pos hok]
      by_cases hp : p i = true
      · rw [if_pos hp, if_pos hp, Option.some.injEq]
        refine (and_iff_left fun j hlo hhi hbefore => ?_).symm
        rcases hlo.eq_or_lt with rfl | hlt
        · exact hok
        · simp [hbefore i le_rfl hlt] at hp
      · have hpi : p i = false := by simpa using hp
        rw [if_neg hp, if_neg hp, ih (i + 1)]
        refine and_congr_right fun _ => ⟨fun hall j hlo hhi hbefore => ?_, fun hall j hlo hhi hbefore => ?_⟩
        · rcases hlo.eq_or_lt with rfl | hlt
          · exact hok
          · exact hall j hlt (by omega) fun k hk hkj => hbefore k (by omega) hkj
        · refine hall j (by omega) (by omega) fun k hk hkj => ?_
          rcases hk.eq_or_lt with rfl | hlt
          · exact hpi
          · exact hbefore k hlt hkj
    · rw [if_neg hok]
      refine iff_of_false (by simp) fun h => hok ?_
      exact h.2 i le_rfl (by omega) fun k hk hki => absurd hki (by omega)

theorem findSlotIf_of_ok {ok p : ℕ → Bool} {fuel i : ℕ} (h : ∀ j, i ≤ j → j < i + fuel → ok j = true) :
    findSlotIf ok p fuel i = some (findSlot p fuel i) :=
  (findSlotIf_eq_some_iff ok p fuel i _).mpr ⟨rfl, fun j hlo hhi _ => h j hlo hhi⟩

/-- A search of `m` slots by `p` finds the first of `n` slots that satisfies `q` exactly when it
reaches that slot and, up to there, looks at slots that meet `ok` and decides them as `q` does. -/
theorem findSlotIf_eq_findSlot_iff {ok p q : ℕ → Bool} {m n : ℕ} :
    findSlotIf ok p m 0 = some (findSlot q n 0) ↔
      (∀ j, findSlot q n 0 = some j → j < m) ∧
        ∀ j < m, (∀ k < j, k < n → q k = false) → ok j = true ∧ (p j = true ↔ j < n ∧ q j = true) := by
  rw [findSlotIf_eq_some_iff]
  cases hfirst : findSlot q n 0 with
  | none =>
    have hnone := (findSlot_eq_none_iff q n 0).mp hfirst
    have hq : ∀ j, ¬ (j < n ∧ q j = true) := fun j hj => by simp [hnone j (by omega) (by omega)] at hj
    simp only [findSlot_eq_none_iff, hq, iff_false, Bool.not_eq_true]
    constructor
    · intro h
      exact ⟨by simp, fun j hj _ => ⟨h.2 j (by omega) (by omega) fun k _ hk => h.1 k (by omega) (by omega),
        h.1 j (by omega) (by omega)⟩⟩
    · intro h
      have hall : ∀ j < m, ok j = true ∧ p j = false :=
        fun j hj => h.2 j hj fun k _ hk => hnone k (by omega) (by omega)
      exact ⟨fun j _ hj => (hall j (by omega)).2, fun j _ hj _ => (hall j (by omega)).1⟩
  | some i =>
    obtain ⟨-, hin, hqi, hbefore⟩ := (findSlot_eq_some_iff q n 0 i).mp hfirst
    rw [findSlot_eq_some_iff]
    constructor
    · intro h
      obtain ⟨⟨-, him, hpi, hpbefore⟩, hok⟩ := h
      refine ⟨fun j hj => by cases hj; omega, fun j hj hnot => ?_⟩
      have hji : j ≤ i := by
        by_contra hlt
        simp [hnot i (by omega) (by omega)] at hqi
      refine ⟨hok j (by omega) (by omega) fun k _ hk => hpbefore k (by omega) (by omega), ?_⟩
      rcases hji.eq_or_lt with rfl | hlt
      · exact iff_of_true hpi ⟨by omega, hqi⟩
      · refine iff_of_false ?_ ?_
        · simp [hpbefore j (by omega) hlt]
        · simp [hbefore j (by omega) hlt]
    · intro h
      obtain ⟨hreach, hsame⟩ := h
      have him := hreach i rfl
      have hup : ∀ j ≤ i, ok j = true ∧ (p j = true ↔ j < n ∧ q j = true) :=
        fun j hj => hsame j (by omega) fun k hk _ => hbefore k (by omega) (by omega)
      have hpbefore : ∀ j < i, p j = false := by
        intro j hj
        have hqj := hbefore j (by omega) hj
        by_contra hpj
        have := (hup j hj.le).2.mp (by simpa using hpj)
        simp [hqj] at this
      refine ⟨⟨by omega, by omega, (hup i le_rfl).2.mpr ⟨by omega, hqi⟩, fun k _ hk => hpbefore k hk⟩, ?_⟩
      intro j _ _ hnot
      apply (hup j _).1
      by_contra hlt
      have hpi := (hup i le_rfl).2.mpr ⟨by omega, hqi⟩
      simp [hnot i (by omega) (by omega)] at hpi

def lastMatch {α : Type*} (p : α → Bool) (l : List α) : Option α := l.reverse.find? p

theorem lastMatch_cons {α : Type*} (p : α → Bool) (a : α) (l : List α) :
    lastMatch p (a :: l) = (lastMatch p l).or (if p a then some a else none) := by
  rw [lastMatch, List.reverse_cons, List.find?_append, List.find?_singleton]
  rfl

theorem lastMatch_some {α : Type*} {p : α → Bool} {l : List α} {a : α} (h : lastMatch p l = some a) :
    a ∈ l ∧ p a = true :=
  ⟨List.mem_reverse.mp (List.mem_of_find?_eq_some h), List.find?_some h⟩

theorem lastMatch_eq_none_iff {α : Type*} {p : α → Bool} {l : List α} : lastMatch p l = none ↔ ∀ a ∈ l, ¬ p a := by
  simp [lastMatch]

/-- Writing one item after the other: the last one that writes at `k` decides. -/
theorem foldl_lastMatch {α κ β : Type*} (writes : α → κ → Bool) (value : α → κ → β) (l : List α) (F : κ → β)
    (k : κ) :
    l.foldl (fun F a k => if writes a k then value a k else F k) F k =
      (lastMatch (writes · k) l).elim (F k) (value · k) := by
  induction l generalizing F with
  | nil => rfl
  | cons a l ih =>
    rw [List.foldl_cons, ih, lastMatch_cons]
    cases lastMatch (writes · k) l with
    | some b => rfl
    | none => split_ifs <;> simp_all

end Machine
