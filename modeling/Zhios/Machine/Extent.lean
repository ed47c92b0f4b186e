import Mathlib.Tactic
import Mathlib.Data.List.Nodup

/-! Finite layouts of disjoint extents over a line of cells: the bookkeeping
behind any allocator that hands out runs of consecutive cells. -/
namespace Machine

/-- A run of `length` consecutive cells. -/
structure Extent where
  start : ℤ
  length : ℕ
  deriving DecidableEq, Repr

namespace Extent

instance : Membership ℤ Extent := ⟨fun e i => e.start ≤ i ∧ i < e.start + e.length⟩

theorem mem_iff {e : Extent} {i : ℤ} : i ∈ e ↔ e.start ≤ i ∧ i < e.start + e.length := Iff.rfl

instance (e : Extent) (i : ℤ) : Decidable (i ∈ e) :=
  inferInstanceAs (Decidable (_ ∧ _))

def Disjoint (e f : Extent) : Prop := ∀ i, i ∈ e → i ∉ f

instance : Std.Symm Disjoint := ⟨fun _ _ h i hf he => h i he hf⟩

end Extent

/-- The extents of `live` are non-empty, lie in `[0, total)` and do not overlap. -/
structure Layout (total : ℕ) (live : List Extent) : Prop where
  pos : ∀ e ∈ live, 1 ≤ e.length
  inside : ∀ e ∈ live, 0 ≤ e.start ∧ e.start + e.length ≤ total
  disjoint : live.Pairwise Extent.Disjoint

namespace Layout
variable {total : ℕ} {live : List Extent}

theorem nil (total : ℕ) : Layout total [] :=
  ⟨by simp, by simp, List.Pairwise.nil⟩

theorem start_mem (h : Layout total live) {e : Extent} (he : e ∈ live) : e.start ∈ e := by
  have := h.pos e he
  exact Extent.mem_iff.mpr ⟨le_rfl, by omega⟩

/-- A cell has at most one owner. -/
theorem owner_unique (h : Layout total live) {e f : Extent} (he : e ∈ live) (hf : f ∈ live)
    {i : ℤ} (hie : i ∈ e) (hif : i ∈ f) : e = f := by
  by_contra hne
  exact h.disjoint.forall he hf hne i hie hif

theorem cons (h : Layout total live) {e : Extent} (hpos : 1 ≤ e.length)
    (hin : 0 ≤ e.start ∧ e.start + e.length ≤ total) (hnew : ∀ f ∈ live, e.Disjoint f) :
    Layout total (e :: live) :=
  ⟨List.forall_mem_cons.mpr ⟨hpos, h.pos⟩, List.forall_mem_cons.mpr ⟨hin, h.inside⟩,
    List.pairwise_cons.mpr ⟨hnew, h.disjoint⟩⟩

theorem cons_apart (h : Layout total live) {e : Extent} (hpos : 1 ≤ e.length)
    (hin : 0 ≤ e.start ∧ e.start + e.length ≤ total)
    (hapart : ∀ f ∈ live, e.start + e.length ≤ f.start ∨ f.start + f.length ≤ e.start) : Layout total (e :: live) := by
  refine h.cons hpos hin fun f hf i hi hif => ?_
  have hf := hapart f hf
  rw [Extent.mem_iff] at hi hif
  omega

theorem tail {e : Extent} (h : Layout total (e :: live)) : Layout total live :=
  ⟨fun f hf => h.pos f (List.mem_cons_of_mem e hf),
    fun f hf => h.inside f (List.mem_cons_of_mem e hf), (List.pairwise_cons.mp h.disjoint).2⟩

theorem head_disjoint {e : Extent} (h : Layout total (e :: live)) {f : Extent} (hf : f ∈ live) :
    e.Disjoint f := (List.pairwise_cons.mp h.disjoint).1 f hf

theorem perm {live' : List Extent} (h : Layout total live) (hp : live.Perm live') :
    Layout total live' :=
  ⟨fun e he => h.pos e (hp.mem_iff.mpr he), fun e he => h.inside e (hp.mem_iff.mpr he),
    (hp.pairwise_iff fun hd i hf he => hd i he hf).mp h.disjoint⟩

def used (live : List Extent) : ℕ := (live.map Extent.length).sum

private theorem card_cells_le (total : ℕ) (e : Extent) :
    ((Finset.range total).filter fun i : ℕ => (i : ℤ) ∈ e).card ≤ e.length := by
  have hsub : ((Finset.range total).filter fun i : ℕ => (i : ℤ) ∈ e) ⊆
      (Finset.range e.length).image fun j : ℕ => (e.start + j).toNat := by
    intro i hi
    obtain ⟨hlo, hhi⟩ := Extent.mem_iff.mp (Finset.mem_filter.mp hi).2
    exact Finset.mem_image.mpr
      ⟨(i - e.start).toNat, Finset.mem_range.mpr (by omega), by omega⟩
  calc ((Finset.range total).filter fun i : ℕ => (i : ℤ) ∈ e).card
      ≤ ((Finset.range e.length).image fun j : ℕ => (e.start + j).toNat).card :=
        Finset.card_le_card hsub
    _ ≤ e.length := Finset.card_image_le.trans_eq (Finset.card_range _)

private theorem covered_cons (total : ℕ) (e : Extent) (live : List Extent) :
    ((Finset.range total).filter fun i : ℕ => ∃ f ∈ e :: live, (i : ℤ) ∈ f) =
      ((Finset.range total).filter fun i : ℕ => (i : ℤ) ∈ e) ∪
        (Finset.range total).filter fun i : ℕ => ∃ f ∈ live, (i : ℤ) ∈ f := by
  rw [← Finset.filter_or]
  simp only [List.exists_mem_cons_iff]

private theorem used_cons (e : Extent) (live : List Extent) : used (e :: live) = e.length + used live := by
  simp [used]

private theorem card_covered_le (total : ℕ) (live : List Extent) :
    ((Finset.range total).filter fun i : ℕ => ∃ e ∈ live, (i : ℤ) ∈ e).card ≤ used live := by
  induction live with
  | nil => simp [used]
  | cons e live ih =>
    have hcell := card_cells_le total e
    have hunion := Finset.card_union_le
      ((Finset.range total).filter fun i : ℕ => (i : ℤ) ∈ e)
      ((Finset.range total).filter fun i : ℕ => ∃ f ∈ live, (i : ℤ) ∈ f)
    rw [covered_cons, used_cons]
    omega

private theorem le_card_cells {total : ℕ} {e : Extent} (h : 0 ≤ e.start ∧ e.start + e.length ≤ total) :
    e.length ≤ ((Finset.range total).filter fun i : ℕ => (i : ℤ) ∈ e).card := by
  have hcard := Finset.card_le_card_of_injOn (s := Finset.range e.length)
    (t := (Finset.range total).filter fun i : ℕ => (i : ℤ) ∈ e) (fun j : ℕ => (e.start + j).toNat) ?_ ?_
  · rwa [Finset.card_range] at hcard
  · intro j hj
    have hlt := Finset.mem_range.mp hj
    simp only [Finset.coe_filter, Finset.mem_range, Set.mem_ofPred_eq, Extent.mem_iff]
    omega
  · intro j _ j' _ heq
    simp only at heq
    omega

/-- Extents that do not overlap cover as many cells as they have. -/
theorem used_le_card_covered (h : Layout total live) :
    used live ≤ ((Finset.range total).filter fun i : ℕ => ∃ e ∈ live, (i : ℤ) ∈ e).card := by
  induction live with
  | nil => simp [used]
  | cons e live ih =>
    have hcells := le_card_cells (h.inside e List.mem_cons_self)
    have hrest := ih h.tail
    rw [covered_cons, used_cons, Finset.card_union_of_disjoint]
    · omega
    · refine Finset.disjoint_left.mpr fun i hi hcovered => ?_
      obtain ⟨f, hf, hif⟩ := (Finset.mem_filter.mp hcovered).2
      exact h.head_disjoint hf i (Finset.mem_filter.mp hi).2 hif

/-- Of more windows of `n` cells than the extents have cells, one is uncovered. -/
theorem exists_uncovered_run {n : ℕ} (hle : n * (used live + 1) ≤ total) :
    ∃ s, s + n ≤ total ∧ ∀ i, s ≤ i → i < s + n → ∀ e ∈ live, ((i : ℕ) : ℤ) ∉ e := by
  by_contra hno
  push Not at hno
  have hwindow : ∀ j < used live + 1, n * j + n ≤ total := by
    intro j hj
    calc n * j + n = n * (j + 1) := (Nat.mul_succ n j).symm
      _ ≤ n * (used live + 1) := Nat.mul_le_mul_left n hj
      _ ≤ total := hle
  have hhit : ∀ j : ℕ, ∃ i, j < used live + 1 → n * j ≤ i ∧ i < n * j + n ∧ ∃ e ∈ live, (i : ℤ) ∈ e := by
    intro j
    by_cases hj : j < used live + 1
    · obtain ⟨i, hlo, hhi, hcell⟩ := hno (n * j) (hwindow j hj)
      exact ⟨i, fun _ => ⟨hlo, hhi, hcell⟩⟩
    · exact ⟨0, fun hlt => absurd hlt hj⟩
  choose cell hcell using hhit
  have hcard := Finset.card_le_card_of_injOn (s := Finset.range (used live + 1))
    (t := (Finset.range total).filter fun i : ℕ => ∃ e ∈ live, (i : ℤ) ∈ e) cell ?_ ?_
  · have hcovered := card_covered_le total live
    rw [Finset.card_range] at hcard
    omega
  · intro j hj
    have hlt := Finset.mem_range.mp hj
    obtain ⟨-, hhi, he⟩ := hcell j hlt
    have hin := hwindow j hlt
    exact Finset.mem_filter.mpr ⟨Finset.mem_range.mpr (by omega), he⟩
  · intro j hj j' hj' heq
    obtain ⟨hlo, hhi, -⟩ := hcell j (Finset.mem_range.mp hj)
    obtain ⟨hlo', hhi', -⟩ := hcell j' (Finset.mem_range.mp hj')
    rw [heq] at hlo hhi
    rcases lt_trichotomy j j' with hlt | heq' | hlt
    · have := Nat.mul_le_mul_left n hlt
      rw [Nat.mul_succ] at this
      omega
    · exact heq'
    · have := Nat.mul_le_mul_left n hlt
      rw [Nat.mul_succ] at this
      omega

theorem exists_uncovered (hlt : used live < total) :
    ∃ i < total, ∀ e ∈ live, ((i : ℕ) : ℤ) ∉ e := by
  obtain ⟨s, hs, hfree⟩ := exists_uncovered_run (show 1 * (used live + 1) ≤ total by omega)
  exact ⟨s, by omega, hfree s le_rfl (by omega)⟩

end Layout

end Machine
