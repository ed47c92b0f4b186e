import Zhios.Memory.Heap

/-! What the scan of `heap_get_free_block` finds, for every pattern of free and
taken entries, and when exhaustion is reported. -/
namespace Zhios
open Machine

def Heap.FreeAt (heap : Heap) (i : ℤ) : Prop :=
  heapGetEntryType (heap.entry i) = heapBlockFree

instance (heap : Heap) (i : ℤ) : Decidable (heap.FreeAt i) :=
  inferInstanceAs (Decidable (_ = _))

/-- The `n` entries from `s` on lie in the table and are all free. -/
def Heap.FreeRun (heap : Heap) (s n : ℕ) : Prop :=
  s + n ≤ heap.total ∧ ∀ k : ℕ, s ≤ k → k < s + n → heap.FreeAt k

def Heap.HasFreeRun (heap : Heap) (n : ℕ) : Prop := ∃ s, heap.FreeRun s n

/-- Exactly `count` free entries end just before index `i`. -/
structure Heap.TrailingFree (heap : Heap) (i count : ℕ) : Prop where
  le : count ≤ i
  free : ∀ k : ℕ, i - count ≤ k → k < i → heap.FreeAt k
  taken : count < i → ¬ heap.FreeAt ((i - count - 1 : ℕ) : ℤ)

/-- The value of `start_block` that goes with `count` trailing free entries. -/
def trailingStart (i count : ℕ) : ℤ := if count = 0 then -1 else (i : ℤ) - count

theorem Heap.TrailingFree.zero (heap : Heap) : heap.TrailingFree 0 0 :=
  ⟨le_rfl, fun k _ hk => by omega, fun h => by omega⟩

theorem Heap.TrailingFree.reset {heap : Heap} {i : ℕ} (h : ¬ heap.FreeAt i) :
    heap.TrailingFree (i + 1) 0 :=
  ⟨by omega, fun k _ hk => by omega, fun _ => by simpa using h⟩

theorem Heap.TrailingFree.extend {heap : Heap} {i count : ℕ} (ht : heap.TrailingFree i count)
    (h : heap.FreeAt i) : heap.TrailingFree (i + 1) (count + 1) := by
  refine ⟨Nat.succ_le_succ ht.le, fun k hk hki => ?_, fun hlt => ?_⟩
  · rcases Nat.lt_succ_iff_lt_or_eq.mp hki with hlt | rfl
    · exact ht.free k (by omega) hlt
    · exact h
  · have hidx : i + 1 - (count + 1) - 1 = i - count - 1 := by omega
    rw [hidx]
    exact ht.taken (by omega)

/-- A run that ends at `i` cannot be longer than the free entries before `i`. -/
theorem Heap.TrailingFree.run_le {heap : Heap} {i count s n : ℕ} (ht : heap.TrailingFree i count)
    (hr : heap.FreeRun s n) (he : s + n = i) : n ≤ count := by
  by_contra hlt
  exact ht.taken (by omega) (hr.2 (i - count - 1) (by omega) (by omega))

theorem trailingStart_extend (i count : ℕ) (h : count ≤ i) :
    (if trailingStart i count = -1 then (i : ℤ) else trailingStart i count) =
      trailingStart (i + 1) (count + 1) := by
  rcases Nat.eq_zero_or_pos count with rfl | hpos
  · simp [trailingStart]
  · have hne : (i : ℤ) - count ≠ -1 := by omega
    simp only [trailingStart, hpos.ne', if_false, hne, Nat.succ_ne_zero]
    push_cast
    ring

/-- The scan's result: the first run of `n`, or else the start of whatever free
entries end the table. -/
theorem heapScan_spec (heap : Heap) (n : ℕ) (hn : 1 ≤ n) (fuel i count : ℕ)
    (hi : i + fuel = heap.total) (ht : heap.TrailingFree i count) (hc : count < n)
    (hno : ∀ s, heap.FreeRun s n → i < s + n) :
    (∃ s : ℕ, heapScan heap n fuel i count (trailingStart i count) = s ∧ heap.FreeRun s n ∧
      ∀ s', heap.FreeRun s' n → s ≤ s') ∨
    (¬ heap.HasFreeRun n ∧ ∃ c, heap.TrailingFree heap.total c ∧
      heapScan heap n fuel i count (trailingStart i count) = trailingStart heap.total c) := by
  induction fuel generalizing i count with
  | zero =>
    right
    have hi : i = heap.total := by omega
    refine ⟨?_, count, hi ▸ ht, ?_⟩
    · intro hstart
      obtain ⟨s, hs⟩ := hstart
      have := hno s hs
      have := hs.1
      omega
    · simp only [heapScan, hi]
  | succ fuel ih =>
    by_cases hf : heap.FreeAt i
    · have hle := ht.le
      have hscan : heapScan heap n (fuel + 1) i count (trailingStart i count) =
          if count + 1 = n then trailingStart (i + 1) (count + 1)
          else heapScan heap n fuel (i + 1) (count + 1) (trailingStart (i + 1) (count + 1)) := by
        have hf' : heapGetEntryType (heap.entry i) = heapBlockFree := hf
        simp only [heapScan, hf', trailingStart_extend i count ht.le, ne_eq, not_true, if_false]
      have ht' := ht.extend hf
      rw [hscan]
      split_ifs with hlast
      · left
        refine ⟨i - count, ?_, ⟨by omega, fun k hk hlt => ht'.free k (by omega) (by omega)⟩, ?_⟩
        · simp only [trailingStart]
          push_cast
          omega
        · intro s' hs'
          have := hno s' hs'
          omega
      · refine ih (i + 1) (count + 1) (by omega) ht' (by omega) fun s hs => ?_
        have hlt := hno s hs
        by_contra hge
        have := ht'.run_le hs (by omega)
        omega
    · have hscan : heapScan heap n (fuel + 1) i count (trailingStart i count) =
          heapScan heap n fuel (i + 1) 0 (trailingStart (i + 1) 0) := by
        have hf' : heapGetEntryType (heap.entry i) ≠ heapBlockFree := hf
        simp only [heapScan, hf', ne_eq, not_false_eq_true, if_true, trailingStart]
      rw [hscan]
      refine ih (i + 1) 0 (by omega) (Heap.TrailingFree.reset hf) (by omega) fun s hs => ?_
      have hlt := hno s hs
      by_contra hge
      exact hf (hs.2 i (by omega) (by omega))

theorem heapGetFreeBlock_of_run {heap : Heap} {n : ℕ} (hn : 1 ≤ n) (h : heap.HasFreeRun n) :
    ∃ s : ℕ, heapGetFreeBlock heap n = s ∧ heap.FreeRun s n ∧ ∀ s', heap.FreeRun s' n → s ≤ s' := by
  rcases heapScan_spec heap n hn heap.total 0 0 (by omega) (.zero heap) (by omega)
    (fun s _ => by omega) with ⟨s, hs, hrun, hmin⟩ | ⟨hno, _⟩
  · refine ⟨s, ?_, hrun, hmin⟩
    have hs' : heapScan heap n heap.total 0 0 (-1) = s := hs
    have hne : (s : ℤ) ≠ -1 := by omega
    simp only [heapGetFreeBlock, hs', if_neg hne]
  · exact absurd h hno

/-- First fit: the answer is the least start of a run, for every occupancy pattern. -/
theorem heapGetFreeBlock_isLeast (heap : Heap) (n : ℕ) (hn : 1 ≤ n) (h : heap.HasFreeRun n) :
    ∃ s : ℕ, heapGetFreeBlock heap n = s ∧ IsLeast {s | heap.FreeRun s n} s := by
  obtain ⟨s, hget, hfree, hmin⟩ := heapGetFreeBlock_of_run hn h
  exact ⟨s, hget, hfree, fun s' hs' => hmin s' hs'⟩

theorem heapGetFreeBlock_isLeast_after_gap :
    ∃ s : ℕ, heapGetFreeBlock ⟨⟨5, fun i => if i = 0 ∨ i = 2 then heapBlockTaken else heapBlockFree⟩, 0⟩ 2 = s ∧
      IsLeast {s | Heap.FreeRun ⟨⟨5, fun i => if i = 0 ∨ i = 2 then heapBlockTaken else heapBlockFree⟩, 0⟩ s 2} s := by
  apply heapGetFreeBlock_isLeast _ 2 (by decide)
  refine ⟨3, by decide, fun k hlo hhi => ?_⟩
  have hk : k = 3 ∨ k = 4 := by omega
  rcases hk with rfl | rfl <;> decide

/-- Without a run, the scan answers with the free entries that end the table. -/
theorem heapGetFreeBlock_of_no_run {heap : Heap} {n : ℕ} (hn : 1 ≤ n) (h : ¬ heap.HasFreeRun n) :
    ∃ c, heap.TrailingFree heap.total c ∧
      heapGetFreeBlock heap n = if c = 0 then -EMEM else (heap.total : ℤ) - c := by
  rcases heapScan_spec heap n hn heap.total 0 0 (by omega) (.zero heap) (by omega)
    (fun s _ => by omega) with ⟨s, _, hrun, _⟩ | ⟨_, c, ht, hc⟩
  · exact absurd ⟨s, hrun⟩ h
  · refine ⟨c, ht, ?_⟩
    have hc' : heapScan heap n heap.total 0 0 (-1) = trailingStart heap.total c := hc
    have := ht.le
    simp only [heapGetFreeBlock, hc', trailingStart]
    split_ifs <;> omega

/-- The last entry of the table is taken, or there is none. -/
def Heap.LastTaken (heap : Heap) : Prop := heap.total = 0 ∨ ¬ heap.FreeAt ((heap.total - 1 : ℕ) : ℤ)

theorem Heap.TrailingFree.eq_zero_iff {heap : Heap} {c : ℕ} (ht : heap.TrailingFree heap.total c) :
    c = 0 ↔ heap.LastTaken := by
  have hle := ht.le
  constructor
  · rintro rfl
    rcases Nat.eq_zero_or_pos heap.total with h0 | hpos
    · exact Or.inl h0
    · exact Or.inr (by simpa using ht.taken hpos)
  · rintro (h0 | hlast)
    · omega
    · by_contra hc
      exact hlast (ht.free _ (by omega) (by omega))

/-- What a request for `n` blocks owes its caller when no run of `n` is free. -/
def ReportsExhaustion (heap : Heap) (n : ℕ) : Prop :=
  ¬ heap.HasFreeRun n →
    heapGetFreeBlock heap n = -EMEM ∧ heapMallocBlocks heap n = (0, heap)

theorem heapMallocBlocks_of_exhausted {heap : Heap} {n : ℕ} (h : heapGetFreeBlock heap n = -EMEM) :
    heapMallocBlocks heap n = (0, heap) := by
  simp [heapMallocBlocks, h, EMEM]

theorem ReportsExhaustion.lastTaken {heap : Heap} {n : ℕ} (hrep : ReportsExhaustion heap n)
    (hn : 1 ≤ n) (hno : ¬ heap.HasFreeRun n) : heap.LastTaken := by
  obtain ⟨c, ht, hget⟩ := heapGetFreeBlock_of_no_run hn hno
  have hle := ht.le
  apply ht.eq_zero_iff.mp
  by_contra hc
  rw [if_neg hc, (hrep hno).1] at hget
  unfold EMEM at hget
  omega

/-- Exhaustion goes unreported exactly when a shorter free run ends the table. -/
theorem reportsExhaustion_iff (heap : Heap) (n : ℕ) (hn : 1 ≤ n) :
    ReportsExhaustion heap n ↔ heap.HasFreeRun n ∨ heap.LastTaken := by
  constructor
  · intro hrep
    by_cases hrun : heap.HasFreeRun n
    · exact Or.inl hrun
    · exact Or.inr (hrep.lastTaken hn hrun)
  · rintro (hrun | hlast) hno
    · exact absurd hrun hno
    · obtain ⟨c, ht, hget⟩ := heapGetFreeBlock_of_no_run hn hno
      rw [if_pos (ht.eq_zero_iff.mpr hlast)] at hget
      exact ⟨hget, heapMallocBlocks_of_exhausted hget⟩

theorem reportsExhaustion_iff_one_block :
    ReportsExhaustion freshKernelHeap 1 ↔
      freshKernelHeap.HasFreeRun 1 ∨ freshKernelHeap.LastTaken :=
  reportsExhaustion_iff freshKernelHeap 1 le_rfl

/-- One block more than the whole heap is granted by a heap that is entirely free. -/
theorem freshKernelHeap_overcommits : ¬ ReportsExhaustion freshKernelHeap 25601 := by
  intro hrep
  have hno : ¬ freshKernelHeap.HasFreeRun 25601 := by
    intro hrun
    obtain ⟨s, hs, _⟩ := hrun
    rw [freshKernelHeap_total] at hs
    omega
  rcases hrep.lastTaken (by omega) hno with h0 | hlast
  · rw [freshKernelHeap_total] at h0
    omega
  · exact hlast (by simp [Heap.FreeAt, heapGetEntryType, heapBlockFree])

end Zhios
