import Mathlib.Tactic

/-! Memory as separate objects of fixed sizes. An access outside an object has no
result. -/
namespace Machine

/-- A place in one of the objects `ι`, inside it or not. -/
@[ext] structure Place (ι : Type*) where
  object : ι
  offset : ℕ
  deriving DecidableEq

namespace Place
variable {ι : Type*} (p : Place ι)

def step (n : ℕ) : Place ι := ⟨p.object, p.offset + n⟩

@[simp] theorem step_object (n : ℕ) : (p.step n).object = p.object := rfl
@[simp] theorem step_offset (n : ℕ) : (p.step n).offset = p.offset + n := rfl
@[simp] theorem step_zero : p.step 0 = p := rfl
@[simp] theorem step_step (i j : ℕ) : (p.step i).step j = p.step (i + j) := by ext <;> simp [Nat.add_assoc]

theorem step_inj {i j : ℕ} : p.step i = p.step j ↔ i = j := by simp [step]

theorem ne_step_step (i : ℕ) : p ≠ (p.step 1).step i := by
  intro heq
  have hoffset := congrArg Place.offset heq
  simp only [step_offset] at hoffset
  omega

end Place

/-- The cells of objects whose sizes are given. -/
structure Objects {ι : Type*} (size : ι → ℕ) (α : Type*) where
  cell : Place ι → α

namespace Objects
variable {ι α : Type*} {size : ι → ℕ} (m : Objects size α)

def load (p : Place ι) : Option α := if p.offset < size p.object then some (m.cell p) else none

/-- The values lie one after another from a place on. -/
def Holds : Place ι → List α → Prop
  | _, [] => True
  | p, v :: values => m.cell p = v ∧ Holds (p.step 1) values

variable {m}

theorem load_eq {p : Place ι} (h : p.offset < size p.object) : m.load p = some (m.cell p) := if_pos h

theorem Holds.congr {m' : Objects size α} {p : Place ι} {values : List α} (h : m.Holds p values)
    (hsame : ∀ i < values.length, m'.cell (p.step i) = m.cell (p.step i)) : m'.Holds p values := by
  induction values generalizing p with
  | nil => trivial
  | cons v values ih =>
    refine ⟨(hsame 0 (Nat.succ_pos _)).trans h.1, ih h.2 fun i hi => ?_⟩
    rw [Place.step_step, Nat.add_comm 1 i]
    exact hsame (i + 1) (Nat.succ_lt_succ hi)

theorem holds_append {p : Place ι} {values more : List α} :
    m.Holds p (values ++ more) ↔ m.Holds p values ∧ m.Holds (p.step values.length) more := by
  induction values generalizing p with
  | nil => exact ⟨fun h => ⟨trivial, h⟩, And.right⟩
  | cons v values ih =>
    rw [List.cons_append, Holds, Holds, ih, Place.step_step, List.length_cons, Nat.add_comm 1, and_assoc]

theorem holds_iff {p : Place ι} {values : List α} :
    m.Holds p values ↔ ∀ i (hi : i < values.length), m.cell (p.step i) = values[i] := by
  induction values generalizing p with
  | nil => exact iff_of_true trivial fun i hi => absurd hi (Nat.not_lt_zero i)
  | cons v values ih =>
    rw [Holds, ih]
    constructor
    · rintro ⟨hfirst, hrest⟩ i hi
      cases i with
      | zero => exact hfirst
      | succ i =>
        have hcell := hrest i (Nat.lt_of_succ_lt_succ hi)
        rwa [Place.step_step, Nat.add_comm] at hcell
    · intro hall
      refine ⟨hall 0 (Nat.succ_pos _), fun i hi => ?_⟩
      rw [Place.step_step, Nat.add_comm]
      exact hall (i + 1) (Nat.succ_lt_succ hi)

variable [DecidableEq ι] (m)

def put (p : Place ι) (v : α) : Objects size α := ⟨Function.update m.cell p v⟩

def store (p : Place ι) (v : α) : Option (Objects size α) :=
  if p.offset < size p.object then some (m.put p v) else none

def putAll : Place ι → List α → Objects size α → Objects size α
  | _, [], m => m
  | p, v :: values, m => putAll (p.step 1) values (m.put p v)

variable {m}

theorem store_eq {p : Place ι} (h : p.offset < size p.object) (v : α) : m.store p v = some (m.put p v) := if_pos h

theorem store_eq_none {p : Place ι} (h : size p.object ≤ p.offset) (v : α) : m.store p v = none :=
  if_neg (Nat.not_lt.mpr h)

@[simp] theorem cell_put_self (p : Place ι) (v : α) : (m.put p v).cell p = v := Function.update_self ..

theorem cell_put_of_ne {p q : Place ι} (h : q ≠ p) (v : α) : (m.put p v).cell q = m.cell q :=
  Function.update_of_ne h ..

@[simp] theorem put_self (p : Place ι) : m.put p (m.cell p) = m := by
  rw [put, Function.update_eq_self]

theorem putAll_append {p : Place ι} (values more : List α) (m : Objects size α) :
    putAll p (values ++ more) m = putAll (p.step values.length) more (putAll p values m) := by
  induction values generalizing p m with
  | nil => rfl
  | cons v values ih =>
    rw [List.cons_append, putAll, putAll, ih, Place.step_step, List.length_cons, Nat.add_comm 1]

/-- Only the cells from the place on are written, as many as there are values. -/
theorem cell_putAll {p q : Place ι} {values : List α} (h : ∀ i < values.length, q ≠ p.step i) :
    (putAll p values m).cell q = m.cell q := by
  induction values generalizing p m with
  | nil => rfl
  | cons v values ih =>
    have hfirst : q ≠ p := h 0 (Nat.succ_pos _)
    have hrest : ∀ i < values.length, q ≠ (p.step 1).step i := by
      intro i hi
      rw [Place.step_step, Nat.add_comm]
      exact h (i + 1) (Nat.succ_lt_succ hi)
    rw [putAll, ih hrest, cell_put_of_ne hfirst]

theorem cell_putAll_object {p q : Place ι} {values : List α} (h : q.object ≠ p.object) :
    (putAll p values m).cell q = m.cell q :=
  cell_putAll fun i _ heq => h (heq ▸ p.step_object i)

theorem put_comm {p q : Place ι} (h : p ≠ q) (v w : α) : (m.put p v).put q w = (m.put q w).put p v := by
  simp only [put, Function.update_comm h]

theorem put_putAll {p q : Place ι} {values : List α} (h : ∀ i < values.length, q ≠ p.step i) (v : α) :
    (putAll p values m).put q v = putAll p values (m.put q v) := by
  induction values generalizing p m with
  | nil => rfl
  | cons w values ih =>
    have hfirst : p ≠ q := (h 0 (Nat.succ_pos _)).symm
    have hrest : ∀ i < values.length, q ≠ (p.step 1).step i := by
      intro i hi
      rw [Place.step_step, Nat.add_comm]
      exact h (i + 1) (Nat.succ_lt_succ hi)
    rw [putAll, putAll, ih hrest, put_comm hfirst]

/-- One more value, stored in front of the others. -/
theorem put_putAll_step (p : Place ι) (v : α) (values : List α) (m : Objects size α) :
    (putAll (p.step 1) values m).put p v = putAll p (v :: values) m := by
  rw [put_putAll fun i _ => Place.ne_step_step p i, putAll]

theorem Holds.put {p q : Place ι} {values : List α} (h : m.Holds p values) (hne : ∀ i < values.length, p.step i ≠ q)
    (v : α) : (m.put q v).Holds p values :=
  h.congr fun i hi => cell_put_of_ne (hne i hi) v

theorem Holds.snoc {p : Place ι} {values : List α} (h : m.Holds p values) (v : α) :
    (m.put (p.step values.length) v).Holds p (values ++ [v]) := by
  refine holds_append.mpr ⟨h.put (fun i hi heq => ?_) v, cell_put_self _ v, trivial⟩
  rw [Place.step_inj] at heq
  omega

theorem holds_putAll (p : Place ι) (values : List α) : (putAll p values m).Holds p values := by
  induction values generalizing p m with
  | nil => trivial
  | cons v values ih =>
    refine ⟨?_, ih _⟩
    rw [putAll, cell_putAll fun i _ => Place.ne_step_step p i, cell_put_self]

end Objects
end Machine
