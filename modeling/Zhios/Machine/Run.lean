import Mathlib.Tactic

/-! Runs of a deterministic machine over a list of operations: a property of every
state reached, a condition on every operation performed, and the rule that trades
one for the other. -/
namespace Machine

section
variable {σ ι : Type*} (exec : σ → ι → σ)

/-- `P` holds in the first state of the run and in every later one. -/
def Always (P : σ → Prop) : σ → List ι → Prop
  | s, [] => P s
  | s, op :: ops => P s ∧ Always P (exec s op) ops

/-- `C` holds of every operation in the state it is performed in. -/
def Each (C : σ → ι → Prop) : σ → List ι → Prop
  | _, [] => True
  | s, op :: ops => C s op ∧ Each C (exec s op) ops

variable {exec}

theorem Always.first {P : σ → Prop} {s : σ} {ops : List ι} (h : Always exec P s ops) : P s := by
  cases ops with
  | nil => exact h
  | cons op ops => exact h.1

theorem Each.and {C D : σ → ι → Prop} {s : σ} {ops : List ι} (hC : Each exec C s ops)
    (hD : Each exec D s ops) : Each exec (fun s op => C s op ∧ D s op) s ops := by
  induction ops generalizing s with
  | nil => trivial
  | cons op ops ih => exact ⟨⟨hC.1, hD.1⟩, ih hC.2 hD.2⟩

theorem each_and {C D : σ → ι → Prop} {s : σ} {ops : List ι} :
    Each exec (fun s op => C s op ∧ D s op) s ops ↔ Each exec C s ops ∧ Each exec D s ops := by
  induction ops generalizing s with
  | nil => simp [Each]
  | cons op ops ih =>
    simp only [Each, ih]
    tauto

theorem each_iff_prefix {C : σ → ι → Prop} {s : σ} {ops : List ι} :
    Each exec C s ops ↔ ∀ front op back, ops = front ++ op :: back → C (front.foldl exec s) op := by
  induction ops generalizing s with
  | nil => simp [Each]
  | cons op ops ih =>
    rw [Each, ih]
    constructor
    · rintro ⟨hfirst, hrest⟩ (_ | ⟨op', front⟩) op'' back heq
      · cases heq
        exact hfirst
      · cases heq
        exact hrest front op'' back rfl
    · intro h
      exact ⟨h [] op ops rfl, fun front op' back heq => h (op :: front) op' back (congrArg (op :: ·) heq)⟩

/-- A property holds throughout if it does at the start and after every operation. -/
theorem always_iff_each_next {P : σ → Prop} {s : σ} {ops : List ι} (hP : P s) :
    Always exec P s ops ↔ Each exec (fun s op => P (exec s op)) s ops := by
  induction ops generalizing s with
  | nil => exact iff_of_true hP trivial
  | cons op ops ih =>
    constructor
    · intro h
      exact ⟨h.2.first, (ih h.2.first).mp h.2⟩
    · intro h
      exact ⟨hP, (ih h.1).mpr h.2⟩

theorem each_true (s : σ) (ops : List ι) : Each exec (fun _ _ => True) s ops := by
  induction ops generalizing s with
  | nil => trivial
  | cons op ops ih => exact ⟨trivial, ih _⟩

/-- If, from good states, an allowed operation keeps `P` exactly when it meets `C`,
then along allowed runs `P` holds throughout exactly when every operation meets `C`. -/
theorem always_iff_each {G P : σ → Prop} {A C : σ → ι → Prop}
    (hstep : ∀ s op, G s → P s → A s op → (P (exec s op) ↔ C s op))
    (hgood : ∀ s op, G s → P s → A s op → P (exec s op) → G (exec s op))
    {s : σ} {ops : List ι} (hG : G s) (hP : P s) (hA : Each exec A s ops) :
    Always exec P s ops ↔ Each exec C s ops := by
  induction ops generalizing s with
  | nil => exact iff_of_true hP trivial
  | cons op ops ih =>
    obtain ⟨ha, hrest⟩ := hA
    have hiff := hstep s op hG hP ha
    constructor
    · intro h
      have hnext := h.2.first
      exact ⟨hiff.mp hnext, (ih (hgood s op hG hP ha hnext) hnext hrest).mp h.2⟩
    · intro h
      have hnext := hiff.mpr h.1
      exact ⟨hP, (ih (hgood s op hG hP ha hnext) hnext hrest).mpr h.2⟩

/-- If, from good states, an allowed operation meets `C` exactly when it meets `D`,
and `D` keeps the state good, then along allowed runs the two conditions agree. -/
theorem each_iff_each {G : σ → Prop} {A C D : σ → ι → Prop}
    (hstep : ∀ s op, G s → A s op → (C s op ↔ D s op))
    (hgood : ∀ s op, G s → A s op → D s op → G (exec s op))
    {s : σ} {ops : List ι} (hG : G s) (hA : Each exec A s ops) :
    Each exec C s ops ↔ Each exec D s ops := by
  induction ops generalizing s with
  | nil => exact Iff.rfl
  | cons op ops ih =>
    obtain ⟨ha, hrest⟩ := hA
    have hiff := hstep s op hG ha
    constructor
    · intro h
      have hd := hiff.mp h.1
      exact ⟨hd, (ih (hgood s op hG ha hd) hrest).mp h.2⟩
    · intro h
      exact ⟨hiff.mpr h.1, (ih (hgood s op hG ha h.1) hrest).mpr h.2⟩

/-- Good states are kept along runs of allowed operations. -/
theorem Each.foldl_good {G : σ → Prop} {A : σ → ι → Prop} (hgood : ∀ s op, G s → A s op → G (exec s op))
    {s : σ} {ops : List ι} (hA : Each exec A s ops) (hG : G s) : G (ops.foldl exec s) := by
  induction ops generalizing s with
  | nil => exact hG
  | cons op ops ih => exact ih hA.2 (hgood s op hG hA.1)

end

section Interleave
variable {σ τ ι υ : Type*}

/-- Steps of a program and events from outside in any order: no event is a step. An event
may not come back. -/
def interleave (step : σ → σ) (event : ι → σ → Option σ) : List (Option ι) → σ → Option σ
  | [], s => some s
  | none :: order, s => interleave step event order (step s)
  | some i :: order, s => (event i s).bind (interleave step event order)

/-- The events alone, each with the program where it would be without them. -/
def serveBeside (step : υ → υ) (serve : ι → υ → τ → Option τ) : List (Option ι) → υ → τ → Option τ
  | [], _, w => some w
  | none :: order, u, w => serveBeside step serve order (step u) w
  | some i :: order, u, w => (serve i u w).bind (serveBeside step serve order u)

theorem optionRel_mono {r q : σ → τ → Prop} (hrq : ∀ s w, r s w → q s w) {x : Option σ} {y : Option τ}
    (h : Option.Rel r x y) : Option.Rel q x y := by
  cases h with
  | some h => exact Option.Rel.some (hrq _ _ h)
  | none => exact Option.Rel.none

/-- If events leave the program where it is, its run is the run without them, and what they
do is what they would do beside it. -/
theorem interleave_rel {step : σ → σ} {event : ι → σ → Option σ} {step' : υ → υ} {serve : ι → υ → τ → Option τ}
    {R : σ → υ → τ → Prop} (hstep : ∀ s u w, R s u w → R (step s) (step' u) w) {order : List (Option ι)}
    (hevent : ∀ i, some i ∈ order → ∀ s u w, R s u w → Option.Rel (fun s' w' => R s' u w') (event i s) (serve i u w))
    {s : σ} {u : υ} {w : τ} (h : R s u w) :
    Option.Rel (fun t w' => R t (step'^[order.countP Option.isNone] u) w') (interleave step event order s)
      (serveBeside step' serve order u w) := by
  induction order generalizing s u w with
  | nil => exact Option.Rel.some h
  | cons e order ih =>
    have hrest := @ih fun i hi => hevent i (List.mem_cons_of_mem e hi)
    cases e with
    | none =>
      rw [interleave, serveBeside, List.countP_cons_of_pos rfl, Function.iterate_succ_apply]
      exact hrest (hstep s u w h)
    | some i =>
      have hi := hevent i List.mem_cons_self s u w h
      rw [interleave, serveBeside, List.countP_cons_of_neg Bool.false_ne_true]
      generalize event i s = s', serve i u w = w' at hi
      cases hi with
      | none => exact Option.Rel.none
      | some hserved => exact hrest hserved

end Interleave

end Machine
