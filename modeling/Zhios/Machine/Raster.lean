import Mathlib.Tactic

/-! Lists of stores, and the two nested loops that go over a raster row by row. -/
namespace Machine

section Stores
variable {α β : Type*} [DecidableEq α]

/-- Memory after the stores of a list, the first one first. -/
def storeAll : List (α × β) → (α → β) → α → β
  | [], m => m
  | s :: stores, m => storeAll stores (Function.update m s.1 s.2)

variable {earlier stores later : List (α × β)} {m : α → β} {a : α}

theorem storeAll_append (stores later : List (α × β)) (m : α → β) :
    storeAll (stores ++ later) m = storeAll later (storeAll stores m) := by
  induction stores generalizing m with
  | nil => rfl
  | cons s stores ih => exact ih _

theorem storeAll_of_forall_ne (h : ∀ s ∈ stores, s.1 ≠ a) : storeAll stores m a = m a := by
  induction stores generalizing m with
  | nil => rfl
  | cons s stores ih =>
    obtain ⟨hfirst, hrest⟩ := List.forall_mem_cons.mp h
    rw [storeAll, ih hrest, Function.update_of_ne hfirst.symm]

theorem storeAll_of_mem {b : β} (hplaces : (stores.map Prod.fst).Nodup) (h : (a, b) ∈ stores) :
    storeAll stores m a = b := by
  induction stores generalizing m with
  | nil => exact absurd h List.not_mem_nil
  | cons s stores ih =>
    rw [List.map_cons, List.nodup_cons] at hplaces
    rw [storeAll]
    rcases List.mem_cons.mp h with rfl | hmem
    · rw [storeAll_of_forall_ne fun t ht heq => hplaces.1 (List.mem_map.mpr ⟨t, ht, heq⟩), Function.update_self]
    · exact ih hplaces.2 hmem

/-- The last stores to their places are what is found there. -/
theorem storeAll_last {b : β} (hplaces : (stores.map Prod.fst).Nodup) (h : (a, b) ∈ stores)
    (hlater : ∀ s ∈ later, s.1 ≠ a) : storeAll (earlier ++ stores ++ later) m a = b := by
  rw [storeAll_append, storeAll_of_forall_ne hlater, storeAll_append, storeAll_of_mem hplaces h]

theorem storeAll_of_mem_const {b : β} (hvalue : ∀ s ∈ stores, s.2 = b) (h : ∃ s ∈ stores, s.1 = a) :
    storeAll stores m a = b := by
  induction stores generalizing m with
  | nil =>
    obtain ⟨s, hs, _⟩ := h
    exact absurd hs List.not_mem_nil
  | cons s stores ih =>
    obtain ⟨hfirst, hrest⟩ := List.forall_mem_cons.mp hvalue
    rw [storeAll]
    by_cases hlater : ∃ s ∈ stores, s.1 = a
    · exact ih hrest hlater
    · have hne : ∀ s ∈ stores, s.1 ≠ a := fun s hs heq => hlater ⟨s, hs, heq⟩
      obtain ⟨u, hu, rfl⟩ := h
      rcases List.mem_cons.mp hu with rfl | hmem
      · rw [storeAll_of_forall_ne hne, Function.update_self, hfirst]
      · exact absurd rfl (hne u hmem)

end Stores

section Raster
variable {γ : Type*} {n i rows cols x y : ℕ}

theorem range_split (hi : i < n) : ∃ later, List.range n = List.range i ++ i :: later ∧ ∀ j ∈ later, i < j ∧ j < n := by
  obtain ⟨k, rfl⟩ : ∃ k, n = i + (k + 1) := ⟨n - i - 1, by omega⟩
  refine ⟨((List.range k).map Nat.succ).map (i + ·), ?_, ?_⟩
  · rw [List.range_add, List.range_succ_eq_map, List.map_cons, Nat.add_zero]
  · intro j hj
    obtain ⟨_, hmem, rfl⟩ := List.mem_map.mp hj
    obtain ⟨k', hk', rfl⟩ := List.mem_map.mp hmem
    rw [List.mem_range] at hk'
    omega

/-- One turn of a loop, and the turns behind it. -/
theorem flatMap_range_split (g : ℕ → List γ) (hi : i < n) :
    ∃ earlier later, (List.range n).flatMap g = earlier ++ g i ++ later ∧
      ∀ c ∈ later, ∃ j, i < j ∧ j < n ∧ c ∈ g j := by
  obtain ⟨indices, hrange, hlater⟩ := range_split hi
  refine ⟨(List.range i).flatMap g, indices.flatMap g, ?_, ?_⟩
  · rw [hrange, List.flatMap_append, List.flatMap_cons, List.append_assoc]
  · intro c hc
    obtain ⟨j, hj, hmem⟩ := List.mem_flatMap.mp hc
    exact ⟨j, (hlater j hj).1, (hlater j hj).2, hmem⟩

/-- What the cells of a raster add to a list, row by row. -/
def raster (rows cols : ℕ) (cell : (x y : ℕ) → List γ) : List γ :=
  (List.range rows).flatMap fun y => (List.range cols).flatMap fun x => cell x y

variable {cell : (x y : ℕ) → List γ} {c : γ}

theorem mem_raster : c ∈ raster rows cols cell ↔ ∃ y < rows, ∃ x < cols, c ∈ cell x y := by
  simp only [raster, List.mem_flatMap, List.mem_range]

/-- A cell of a raster, and the cells behind it. -/
theorem raster_split (cell : (x y : ℕ) → List γ) (hy : y < rows) (hx : x < cols) :
    ∃ earlier later, raster rows cols cell = earlier ++ cell x y ++ later ∧
      ∀ c ∈ later, ∃ y' < rows, ∃ x' < cols, (y < y' ∨ y = y' ∧ x < x') ∧ c ∈ cell x' y' := by
  obtain ⟨above, below, hrows, hbelow⟩ :=
    flatMap_range_split (fun y => (List.range cols).flatMap fun x => cell x y) hy
  obtain ⟨left, right, hrow, hright⟩ := flatMap_range_split (fun x => cell x y) hx
  refine ⟨above ++ left, right ++ below, ?_, ?_⟩
  · rw [raster, hrows, hrow]
    simp only [List.append_assoc]
  · intro c hc
    rcases List.mem_append.mp hc with hmem | hmem
    · obtain ⟨x', hlt, hx', hcell⟩ := hright c hmem
      exact ⟨y, hy, x', hx', Or.inr ⟨rfl, hlt⟩, hcell⟩
    · obtain ⟨y', hlt, hy', hrow'⟩ := hbelow c hmem
      obtain ⟨x', hx', hcell⟩ := List.mem_flatMap.mp hrow'
      exact ⟨y', hy', x', List.mem_range.mp hx', Or.inl hlt, hcell⟩

end Raster

end Machine
