import Zhios.Memory.HeapScan
import Zhios.Machine.Extent

/-! The representation invariant of the block table: free entries and live
allocations tile it exactly. -/
namespace Zhios
open Machine

/-- The flag byte of block `i` inside the allocation `e`. -/
def blockFlags (e : Extent) (i : ℤ) : HeapBlock :=
  heapBlockTaken ||| (if i = e.start then heapBlockIsFirst else 0) |||
    (if i + 1 = e.start + e.length then 0 else heapBlockHasNext)

structure Tiling (heap : Heap) (live : List Extent) : Prop where
  layout : Layout heap.total live
  marked : ∀ e ∈ live, ∀ i ∈ e, heap.entry i = blockFlags e i
  free : ∀ i : ℤ, 0 ≤ i → i < heap.total → (∀ e ∈ live, i ∉ e) → heap.entry i = heapBlockFree

theorem blockFlags_taken (e : Extent) (i : ℤ) : heapGetEntryType (blockFlags e i) ≠ heapBlockFree := by
  unfold blockFlags
  split_ifs <;> decide

theorem blockFlags_hasNext (e : Extent) (i : ℤ) :
    blockFlags e i &&& heapBlockHasNext = 0 ↔ i + 1 = e.start + e.length := by
  unfold blockFlags
  split_ifs with h1 h2 h2 <;> simp only [h2, iff_true, iff_false] <;> decide

theorem Tiling.not_mem_of_free {heap : Heap} {live : List Extent} (h : Tiling heap live)
    {e : Extent} (he : e ∈ live) {i : ℤ} (hi : heap.FreeAt i) : i ∉ e := by
  intro hie
  apply blockFlags_taken e i
  rw [← h.marked e he i hie]
  exact hi

theorem Tiling.entry_of_free {heap : Heap} {live : List Extent} (h : Tiling heap live)
    {i : ℤ} (h0 : 0 ≤ i) (h1 : i < heap.total) (hi : heap.FreeAt i) : heap.entry i = heapBlockFree :=
  h.free i h0 h1 fun _ he => h.not_mem_of_free he hi

theorem heapAllocateLoop_entry (endBlock : ℤ) (fuel : ℕ) (i : ℤ) (b : HeapBlock) (heap : Heap)
    (hend : endBlock = i + fuel - 1) (j : ℤ) :
    (heapAllocateLoop endBlock fuel i b heap).entry j =
      if i ≤ j ∧ j < i + fuel then
        if j = i then b
        else if j = endBlock then heapBlockTaken else heapBlockTaken ||| heapBlockHasNext
      else heap.entry j := by
  induction fuel generalizing i b heap with
  | zero => rw [if_neg (by omega)]; rfl
  | succ fuel ih =>
    rw [heapAllocateLoop, ih (i + 1) _ _ (by push_cast at hend; omega), Heap.setEntry_entry]
    push_cast at hend ⊢
    split_ifs <;> first | rfl | omega

@[simp] theorem heapAllocateLoop_total (endBlock : ℤ) (fuel : ℕ) (i : ℤ) (b : HeapBlock) (heap : Heap) :
    (heapAllocateLoop endBlock fuel i b heap).total = heap.total := by
  induction fuel generalizing i b heap with
  | zero => rfl
  | succ fuel ih => rw [heapAllocateLoop, ih, Heap.setEntry_total]

@[simp] theorem heapAllocateLoop_startAddress (endBlock : ℤ) (fuel : ℕ) (i : ℤ) (b : HeapBlock)
    (heap : Heap) :
    (heapAllocateLoop endBlock fuel i b heap).startAddress = heap.startAddress := by
  induction fuel generalizing i b heap with
  | zero => rfl
  | succ fuel ih => rw [heapAllocateLoop, ih, Heap.setEntry_startAddress]

/-- Marking writes exactly the flags of one allocation. -/
theorem heapAllocateBlocks_entry (heap : Heap) (e : Extent) (hpos : 1 ≤ e.length)
    (h0 : 0 ≤ e.start) (h1 : e.start + e.length < 2 ^ 31) (j : ℤ) :
    (heapAllocateBlocks heap e.start e.length).entry j =
      if j ∈ e then blockFlags e j else heap.entry j := by
  have hend : int32 ((e.length : ℤ) + e.start - 1) = e.start + e.length - 1 := by
    rw [int32_of_bounds] <;> omega
  have hfuel : (e.start + e.length - 1 - e.start + 1).toNat = e.length := by omega
  simp only [heapAllocateBlocks, hend, hfuel]
  rw [heapAllocateLoop_entry _ _ _ _ _ rfl]
  simp only [Extent.mem_iff, blockFlags]
  by_cases hin : e.start ≤ j ∧ j < e.start + e.length
  · simp only [hin, and_self, if_true]
    by_cases hfirst : j = e.start
    · by_cases hone : 1 < e.length
      · rw [if_pos hfirst, if_pos hfirst, if_pos (by omega), if_neg (by omega)]
      · rw [if_pos hfirst, if_pos hfirst, if_neg (by omega), if_pos (by omega)]
        rfl
    · by_cases hlast : j = e.start + e.length - 1
      · rw [if_neg hfirst, if_neg hfirst, if_pos hlast, if_pos (by omega)]
        rfl
      · rw [if_neg hfirst, if_neg hfirst, if_neg hlast, if_neg (by omega)]
        rfl
  · simp only [hin, if_false]

@[simp] theorem heapAllocateBlocks_total (heap : Heap) (s n : ℤ) :
    (heapAllocateBlocks heap s n).total = heap.total := by
  simp [heapAllocateBlocks]

@[simp] theorem heapAllocateBlocks_startAddress (heap : Heap) (s n : ℤ) :
    (heapAllocateBlocks heap s n).startAddress = heap.startAddress := by
  simp [heapAllocateBlocks]

theorem heapFreeLoop_entry (e : Extent) (fuel : ℕ) (i : ℤ) (heap : Heap) (hi : i ∈ e)
    (hin : e.start + e.length ≤ int32 heap.total) (hfuel : e.start + e.length ≤ i + fuel)
    (hmarked : ∀ j ∈ e, i ≤ j → heap.entry j = blockFlags e j) (j : ℤ) :
    (heapFreeLoop fuel i heap).entry j =
      if i ≤ j ∧ j < e.start + e.length then heapBlockFree else heap.entry j := by
  induction fuel generalizing i heap with
  | zero =>
    have := Extent.mem_iff.mp hi
    omega
  | succ fuel ih =>
    obtain ⟨hlo, hhi⟩ := Extent.mem_iff.mp hi
    rw [heapFreeLoop, if_pos (by omega), hmarked i hi le_rfl]
    by_cases hlast : i + 1 = e.start + e.length
    · rw [if_pos ((blockFlags_hasNext e i).mpr hlast), Heap.setEntry_entry]
      split_ifs <;> first | rfl | omega
    · rw [if_neg (mt (blockFlags_hasNext e i).mp hlast),
        ih (i + 1) (heap.setEntry i heapBlockFree) (Extent.mem_iff.mpr ⟨by omega, by omega⟩) hin
          (by push_cast at hfuel; omega), Heap.setEntry_entry]
      · split_ifs <;> first | rfl | omega
      · intro k hk hik
        rw [Heap.setEntry_entry, if_neg (by omega)]
        exact hmarked k hk (by omega)

@[simp] theorem heapFreeLoop_total (fuel : ℕ) (i : ℤ) (heap : Heap) :
    (heapFreeLoop fuel i heap).total = heap.total := by
  induction fuel generalizing i heap with
  | zero => rfl
  | succ fuel ih =>
    rw [heapFreeLoop]
    split_ifs
    · rfl
    · rw [ih, Heap.setEntry_total]
    · rfl

@[simp] theorem heapFreeLoop_startAddress (fuel : ℕ) (i : ℤ) (heap : Heap) :
    (heapFreeLoop fuel i heap).startAddress = heap.startAddress := by
  induction fuel generalizing i heap with
  | zero => rfl
  | succ fuel ih =>
    rw [heapFreeLoop]
    split_ifs
    · rfl
    · rw [ih, Heap.setEntry_startAddress]
    · rfl

@[simp] theorem heapFree_total (heap : Heap) (ptr : ℕ) : (heapFree heap ptr).total = heap.total := by
  simp [heapFree, heapFreeBlocks]

@[simp] theorem heapFree_startAddress (heap : Heap) (ptr : ℕ) :
    (heapFree heap ptr).startAddress = heap.startAddress := by
  simp [heapFree, heapFreeBlocks]

def Heap.address (heap : Heap) (block : ℤ) : ℕ := uint32 (heap.startAddress + getOffset block)

/-- Below 2 GiB the signed pointer difference recovers the block. -/
theorem addressToHeapBlock_address (heap : Heap) {s : ℤ} (h0 : 0 ≤ s) (h1 : s < 2 ^ 19) :
    addressToHeapBlock heap (heap.address s) = s := by
  have hdiff : int32 (heap.address s - heap.startAddress) = 4096 * s := by
    unfold Heap.address getOffset int32 uint32 zhiosHeapBlockSize
    omega
  rw [addressToHeapBlock, hdiff]
  exact Int.mul_tdiv_cancel_left s (by decide)

section Tiled
variable {heap : Heap} {live : List Extent}

theorem Tiling.start_lt (h : Tiling heap live) (htotal : heap.total ≤ 2 ^ 19) {e : Extent} (he : e ∈ live) :
    e.start < 2 ^ 19 := by
  have hpos := h.layout.pos e he
  have hinside := (h.layout.inside e he).2
  omega

/-- Freeing an allocation that starts below 2 GiB clears its blocks and nothing else. -/
theorem Tiling.heapFree_entry (h : Tiling heap live) (htotal : heap.total < 2 ^ 20) {e : Extent}
    (he : e ∈ live) (hstart : e.start < 2 ^ 19) (j : ℤ) :
    (heapFree heap (heap.address e.start)).entry j =
      if j ∈ e then heapBlockFree else heap.entry j := by
  obtain ⟨hlo, hhi⟩ := h.layout.inside e he
  have hpos := h.layout.pos e he
  have htot : int32 heap.total = heap.total := int32_of_bounds (by omega) (by omega)
  rw [heapFree, addressToHeapBlock_address heap hlo hstart, heapFreeBlocks,
    heapFreeLoop_entry e _ _ heap (h.layout.start_mem he) (by omega) (by omega)
      (fun j hj _ => h.marked e he j hj)]
  rfl

theorem Tiling.perm {live' : List Extent} (h : Tiling heap live) (hp : live.Perm live') :
    Tiling heap live' :=
  ⟨h.layout.perm hp, fun e he => h.marked e (hp.mem_iff.mpr he),
    fun i h0 h1 hno => h.free i h0 h1 fun e he => hno e (hp.mem_iff.mp he)⟩

theorem Tiling.heapFree {e : Extent} (h : Tiling heap (e :: live)) (htotal : heap.total < 2 ^ 20)
    (hstart : e.start < 2 ^ 19) : Tiling (heapFree heap (heap.address e.start)) live := by
  have hentry := h.heapFree_entry htotal List.mem_cons_self hstart
  refine ⟨by simpa using h.layout.tail, fun f hf i hi => ?_, fun i h0 h1 hno => ?_⟩
  · rw [hentry, if_neg fun hie => h.layout.head_disjoint hf i hie hi]
    exact h.marked f (List.mem_cons_of_mem e hf) i hi
  · rw [hentry]
    split_ifs with hie
    · rfl
    · rw [heapFree_total] at h1
      exact h.free i h0 h1 (List.forall_mem_cons.mpr ⟨hie, hno⟩)

/-- A request that fits is served from free blocks, and the table stays tiled. -/
theorem Tiling.heapMallocBlocks (h : Tiling heap live) (htotal : heap.total < 2 ^ 31) {n : ℕ}
    (hn : 1 ≤ n) (hrun : heap.HasFreeRun n) :
    ∃ s : ℕ, heap.FreeRun s n ∧ (∀ s', heap.FreeRun s' n → s ≤ s') ∧
      heapMallocBlocks heap n = (heap.address s, heapAllocateBlocks heap s n) ∧
      Tiling (heapAllocateBlocks heap s n) (⟨s, n⟩ :: live) := by
  obtain ⟨s, hget, hfree, hmin⟩ := heapGetFreeBlock_of_run hn hrun
  have hin := hfree.1
  have hint : int32 n = n := int32_of_bounds (by omega) (by omega)
  refine ⟨s, hfree, hmin, ?_, ?_⟩
  · simp only [Zhios.heapMallocBlocks, hget, hint, Heap.address]
    rw [if_neg (by omega)]
  have hentry := heapAllocateBlocks_entry heap ⟨s, n⟩ hn (by simp) (by simp only; omega)
  have hfreeAt : ∀ i : ℤ, i ∈ (⟨s, n⟩ : Extent) → heap.FreeAt i := by
    intro i hi
    obtain ⟨hlo, hhi⟩ := Extent.mem_iff.mp hi
    simp only at hlo hhi
    have hi := hfree.2 i.toNat (by omega) (by omega)
    rwa [Int.toNat_of_nonneg (by omega)] at hi
  refine ⟨?_, List.forall_mem_cons.mpr ⟨fun i hi => ?_, fun f hf i hi => ?_⟩, fun i h0 h1 hno => ?_⟩
  · rw [heapAllocateBlocks_total]
    exact h.layout.cons hn ⟨by simp, by simp only; omega⟩
      fun f hf i hi => h.not_mem_of_free hf (hfreeAt i hi)
  · rw [hentry, if_pos hi]
  · rw [hentry, if_neg fun hnew => h.not_mem_of_free hf (hfreeAt i hnew) hi]
    exact h.marked f hf i hi
  · obtain ⟨hnew, hold⟩ := List.forall_mem_cons.mp hno
    rw [heapAllocateBlocks_total] at h1
    rw [hentry, if_neg hnew]
    exact h.free i h0 h1 hold

/-- The first `n` entries are taken and all others are free. -/
def Heap.Filled (heap : Heap) (n : ℕ) : Prop :=
  ∀ i : ℕ, i < heap.total → (heap.FreeAt i ↔ n ≤ i)

theorem Heap.Filled.allocate {n m s : ℕ} (h : heap.Filled n) (htotal : heap.total < 2 ^ 31) (hm : 1 ≤ m)
    (hfree : heap.FreeRun s m) (hmin : ∀ s', heap.FreeRun s' m → s ≤ s') :
    s = n ∧ (heapAllocateBlocks heap s m).Filled (n + m) := by
  have hlt := hfree.1
  have hns : n ≤ s := (h s (by omega)).mp (hfree.2 s le_rfl (by omega))
  have hsn : s ≤ n := hmin n ⟨by omega, fun k hlo hhi => (h k (by omega)).mpr hlo⟩
  obtain rfl : s = n := by omega
  refine ⟨rfl, fun i hi => ?_⟩
  rw [heapAllocateBlocks_total] at hi
  rw [Heap.FreeAt, heapAllocateBlocks_entry heap ⟨s, m⟩ hm (by simp) (by simp only; omega) i]
  by_cases hin : (i : ℤ) ∈ (⟨s, m⟩ : Extent)
  · have hcell := Extent.mem_iff.mp hin
    simp only at hcell
    rw [if_pos hin]
    exact iff_of_false (blockFlags_taken _ _) (by omega)
  · have hcell := mt Extent.mem_iff.mpr hin
    simp only at hcell
    rw [if_neg hin]
    exact (h i hi).trans (by omega)

end Tiled

def blocksFor (size : ℕ) : ℕ := (size + 4095) / 4096

theorem heapMalloc_eq (heap : Heap) {size : ℕ} (hsize : blocksFor size < 2 ^ 20) :
    heapMalloc heap size = heapMallocBlocks heap (blocksFor size) := by
  have hblocks : heapAlignSize size / zhiosHeapBlockSize = blocksFor size := by
    unfold blocksFor at hsize ⊢
    unfold heapAlignSize zhiosHeapBlockSize uint32
    dsimp only
    split_ifs <;> omega
  rw [heapMalloc, hblocks]

@[simp] theorem heapMalloc_total (heap : Heap) (size : ℕ) :
    (heapMalloc heap size).2.total = heap.total := by
  simp only [heapMalloc, heapMallocBlocks]
  split_ifs <;> simp

theorem Heap.Filled.heapMalloc {heap : Heap} {n size : ℕ} (h : heap.Filled n) (htotal : heap.total < 2 ^ 31)
    (hsize : 1 ≤ size) (hblocks : blocksFor size < 2 ^ 20) (hroom : n + blocksFor size ≤ heap.total) :
    heap.HasFreeRun (blocksFor size) ∧ (Zhios.heapMalloc heap size).1 = heap.address n ∧
      (Zhios.heapMalloc heap size).2.Filled (n + blocksFor size) := by
  have hn : 1 ≤ blocksFor size := by unfold blocksFor; omega
  have hrun : heap.HasFreeRun (blocksFor size) := ⟨n, hroom, fun k hlo hhi => (h k (by omega)).mpr hlo⟩
  obtain ⟨s, hget, hfree, hmin⟩ := heapGetFreeBlock_of_run hn hrun
  obtain ⟨rfl, hfilled⟩ := h.allocate htotal hn hfree hmin
  have hint : int32 (blocksFor size) = blocksFor size := int32_of_bounds (by omega) (by omega)
  refine ⟨hrun, ?_⟩
  simp only [heapMalloc_eq heap hblocks, Zhios.heapMallocBlocks, hget, hint, Heap.address]
  rw [if_neg (by omega)]
  exact ⟨rfl, hfilled⟩

theorem freshKernelHeap_filled : freshKernelHeap.Filled 0 := by
  intro i _
  rw [Heap.FreeAt, freshKernelHeap_entry]
  exact iff_of_true rfl (Nat.zero_le i)

end Zhios
