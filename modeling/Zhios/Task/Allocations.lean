import Zhios.Task.ProcessMemory
import Zhios.Memory.HeapPinned

/-! Allocation records of any number of processes over one kernel heap. Each record
names the first block of an allocation of its own, in every run of requests and
releases. -/
namespace Zhios
open Machine

/-- The records of slot `j` and the extent of the heap they stand for. -/
structure ProcessMemory.Records (p : ProcessMemory) (live : List Extent) (j : ℕ) (e : Extent) : Prop where
  mem : e ∈ live
  ptr_eq : ((p.allocations j).ptr : ℤ) = p.k.heap.startAddress + 4096 * e.start
  size_le : (p.allocations j).size ≤ 4096 * e.length

/-- Every live slot has an allocation, and no two slots have the same. -/
structure ProcessMemory.Recorded (p : ProcessMemory) (live : List Extent) : Prop where
  wellFormed : p.k.WellFormed live
  records : ∀ j, p.Live j → ∃ e, p.Records live j e
  distinct : ∀ i j, p.Live i → p.Live j → (p.allocations i).ptr = (p.allocations j).ptr → i = j

theorem ProcessMemory.Records.congr {p p' : ProcessMemory} {live live' : List Extent} {j : ℕ} {e : Extent}
    (h : p.Records live j e) (hmem : e ∈ live') (hstart : p'.k.heap.startAddress = p.k.heap.startAddress)
    (hslot : p'.allocations j = p.allocations j) : p'.Records live' j e :=
  ⟨hmem, by rw [hslot, hstart]; exact h.ptr_eq, by rw [hslot]; exact h.size_le⟩

/-- Aligned pages are always mapped, whatever the tables hold. -/
theorem mapPageLoop_status (page flags n v p : ℕ) (mem : Mem) (hv : v % 4096 = 0) (hp : p % 4096 = 0) :
    (mapPageLoop page flags n v p 0 mem).1 = 0 := by
  induction n generalizing v p mem with
  | zero => rfl
  | succ n ih =>
    have hmap : (mapPage mem page v p flags).1 = 0 := by
      rw [mapPage_eq mem page flags hv hp]
      simp [setPage, isPageAligned, pagingPageSize, hv]
    simp only [mapPageLoop, hmap, lt_irrefl, if_false]
    exact ih _ _ _ (uint32_add_page hv).1 (uint32_add_page hp).1

theorem mapPageRange_status (mem : Mem) (page flags : ℕ) {v p size : ℕ} (hv : v % 4096 = 0) (hp : p % 4096 = 0)
    (hsize : size < 2 ^ 32) : (mapPageRange mem page v p (int32 size) flags).1 = 0 := by
  rw [mapPageRange_pages mem page v flags hp hsize]
  exact mapPageLoop_status page flags _ v p mem hv hp

/-- With every slot in use a request fails before it gets to the heap. -/
theorem processMalloc_full {p : ProcessMemory} (h : ∀ j < zhiosProcessMaxAllocations, (p.allocations j).ptr ≠ 0)
    (size : ℕ) : processMalloc p size = (0, p) := by
  have hnone : processGetAllocation p = -EMEM := by
    rcases findAllocation_slot p 0 with ⟨hnone, -⟩ | ⟨j, -, hlt, hptr⟩
    · exact hnone
    · exact absurd hptr (h j hlt)
  simp [processMalloc, hnone, EMEM]

theorem processFreeAllocation_missing {p : ProcessMemory} {ptr : ℕ}
    (h : ∀ j < zhiosProcessMaxAllocations, (p.allocations j).ptr ≠ ptr) : processFreeAllocation p ptr = p := by
  have hnone : processGetPtrAllocation p ptr = -EMEM := by
    rcases findAllocation_slot p ptr with ⟨hnone, -⟩ | ⟨j, -, hlt, hptr⟩
    · exact hnone
    · exact absurd hptr (h j hlt)
  simp [processFreeAllocation, hnone, EMEM]

namespace ProcessMemory.Recorded
variable {p : ProcessMemory} {live : List Extent}

/-- A request with an empty slot and a run: the first run is taken and recorded. -/
theorem malloc_served (h : p.Recorded live) {size ind : ℕ} (hsize : 1 ≤ size) (hblocks : blocksFor size < 2 ^ 20)
    (hrun : p.k.heap.HasFreeRun (blocksFor size)) (hind : processGetAllocation p = ind) :
    ∃ (s : ℕ) (mem : Mem), processMalloc p size = (p.k.blockAddress s,
        { p with
          k := ⟨heapAllocateBlocks p.k.heap s (blocksFor size), mem⟩
          allocations := Function.update p.allocations ind ⟨p.k.blockAddress s, size⟩ }) ∧
      KMem.WellFormed ⟨heapAllocateBlocks p.k.heap s (blocksFor size), mem⟩ (⟨s, blocksFor size⟩ :: live) := by
  obtain ⟨s, -, -, heq, hwf⟩ := h.wellFormed.kzalloc hsize hblocks hrun
  have hpos := h.wellFormed.start_pos
  have haligned : (p.k.heap.startAddress + 4096 * s) % 4096 = 0 := by
    have := h.wellFormed.start_aligned
    omega
  have hstatus : ∀ mem flags, (mapPageRange mem p.pageDirectory (p.k.heap.startAddress + 4096 * s)
      (p.k.heap.startAddress + 4096 * s) (int32 size) flags).1 = 0 := fun mem flags =>
    mapPageRange_status mem p.pageDirectory flags haligned haligned (by unfold blocksFor at hblocks; omega)
  rw [heq] at hwf
  refine ⟨s, (mapPageRange (fill p.k.mem (p.k.heap.startAddress + 4096 * s) size 0) p.pageDirectory
    (p.k.heap.startAddress + 4096 * s) (p.k.heap.startAddress + 4096 * s) (int32 size)
    (pagingIsPresent ||| pagingAccessFromAll ||| pagingIsWritable)).2, ?_, hwf.withMem _⟩
  simp only [processMalloc, hind, heq, hstatus, Int.toNat_natCast, lt_irrefl, if_false, KMem.blockAddress]
  rw [if_neg (by omega), if_neg (by omega)]

/-- A release of a live pointer empties its own slot and gives back its own blocks. -/
theorem free_live (h : p.Recorded live) {j : ℕ} (hj : p.Live j) :
    ∃ mem : Mem, processFreeAllocation p (p.allocations j).ptr = { p with
      k := kfree { p.k with mem := mem } (p.allocations j).ptr
      allocations := Function.update p.allocations j ⟨0, 0⟩ } := by
  rcases findAllocation_slot p (p.allocations j).ptr with ⟨-, hall⟩ | ⟨ind, hind, hlt, hptr⟩
  · exact absurd rfl (hall j hj.1)
  obtain rfl : ind = j := h.distinct ind j ⟨hlt, by rw [hptr]; exact hj.2⟩ hj hptr
  have hserved : ¬ (ind : ℤ) < 0 := by omega
  simp only [processFreeAllocation, processGetPtrAllocation, hind, Int.toNat_natCast, if_neg hserved]
  exact ⟨_, rfl⟩

theorem address_eq (h : p.Recorded live) {j : ℕ} {e : Extent} (he : p.Records live j e) :
    p.k.heap.address e.start = (p.allocations j).ptr := by
  have hin := h.wellFormed.tiling.layout.inside e he.mem
  have hpos := h.wellFormed.tiling.layout.pos e he.mem
  obtain ⟨s, hs⟩ : ∃ s : ℕ, e.start = s := ⟨e.start.toNat, by omega⟩
  have hptr := he.ptr_eq
  rw [hs, h.wellFormed.address_eq (by omega)]
  rw [hs] at hptr
  omega

/-- What the release of a recorded pointer does to the heap. -/
theorem kfree_entry (h : p.Recorded live) {j : ℕ} {e : Extent} (he : p.Records live j e) (i : ℤ) :
    (heapFree p.k.heap (p.allocations j).ptr).entry i = if i ∈ e then heapBlockFree else p.k.heap.entry i := by
  rw [← h.address_eq he]
  have htotal := h.wellFormed.total_le
  exact h.wellFormed.tiling.heapFree_entry (by omega) he.mem (h.wellFormed.tiling.start_lt htotal he.mem) i

end ProcessMemory.Recorded

/-- The kernel's memory, and what belongs to each process. -/
structure AllocationState (ι : Type) where
  k : KMem
  pageDirectory : ι → ℕ
  allocations : ι → ℕ → ProcessAllocation

namespace AllocationState
variable {ι : Type} [DecidableEq ι]

def process (σ : AllocationState ι) (i : ι) : ProcessMemory := ⟨σ.k, σ.pageDirectory i, σ.allocations i⟩

/-- The state after a call made for process `i`. -/
def commit (σ : AllocationState ι) (i : ι) (p : ProcessMemory) : AllocationState ι :=
  { σ with k := p.k, allocations := Function.update σ.allocations i p.allocations }

@[simp] theorem commit_k (σ : AllocationState ι) (i : ι) (p : ProcessMemory) : (σ.commit i p).k = p.k := rfl

theorem commit_slot (σ : AllocationState ι) {i : ι} {p : ProcessMemory} {ind : ℕ} {a : ProcessAllocation}
    (hp : p.allocations = Function.update (σ.process i).allocations ind a) (i' : ι) (j : ℕ) :
    ((σ.commit i p).process i').allocations j =
      if i' = i ∧ j = ind then a else (σ.process i').allocations j := by
  simp only [commit, process, hp, Function.update_apply]
  split_ifs <;> simp_all

end AllocationState

/-- A request some run can serve, or the release of a live pointer, for any process. -/
inductive AllocationStep {ι : Type} [DecidableEq ι] : AllocationState ι → AllocationState ι → Prop
  | malloc (σ : AllocationState ι) (i : ι) (size : ℕ) (hsize : 1 ≤ size) (hlt : size < 2 ^ 31 - 4096)
      (hrun : σ.k.heap.HasFreeRun (blocksFor size)) :
      AllocationStep σ (σ.commit i (processMalloc (σ.process i) size).2)
  | free (σ : AllocationState ι) (i : ι) (j : ℕ) (hj : (σ.process i).Live j) :
      AllocationStep σ (σ.commit i (processFreeAllocation (σ.process i) ((σ.process i).allocations j).ptr))

/-- The records of all processes agree with the heap: every live slot has an
allocation of its own, which holds as many bytes as the slot says. -/
structure AllocationState.MatchesHeap {ι : Type} (σ : AllocationState ι) (live : List Extent) : Prop where
  wellFormed : σ.k.WellFormed live
  records : ∀ i j, (σ.process i).Live j → ∃ e, (σ.process i).Records live j e
  distinct : ∀ i j i' j', (σ.process i).Live j → (σ.process i').Live j' →
    ((σ.process i).allocations j).ptr = ((σ.process i').allocations j').ptr → i = i' ∧ j = j'

namespace AllocationState.MatchesHeap
variable {ι : Type} {σ : AllocationState ι} {live : List Extent} {i : ι} {j : ℕ}

theorem recorded (h : σ.MatchesHeap live) (i : ι) : (σ.process i).Recorded live :=
  ⟨h.wellFormed, h.records i, fun j j' hj hj' heq => (h.distinct i j i j' hj hj' heq).2⟩

theorem disjoint (h : σ.MatchesHeap live) {i' : ι} {j' : ℕ} {e e' : Extent} (hj : (σ.process i).Live j)
    (hj' : (σ.process i').Live j') (hne : ¬ (i = i' ∧ j = j')) (he : (σ.process i).Records live j e)
    (he' : (σ.process i').Records live j' e') : e.Disjoint e' := by
  intro x hx hx'
  have hsame := h.wellFormed.tiling.layout.owner_unique he.mem he'.mem hx hx'
  apply hne
  apply h.distinct i j i' j' hj hj'
  have hptr := he.ptr_eq
  have hptr' := he'.ptr_eq
  rw [hsame] at hptr
  have hk : (σ.process i).k = (σ.process i').k := rfl
  rw [hk] at hptr
  omega

theorem extent_ne (h : σ.MatchesHeap live) {i' : ι} {j' : ℕ} {e e' : Extent} (hj : (σ.process i).Live j)
    (hj' : (σ.process i').Live j') (hne : ¬ (i = i' ∧ j = j')) (he : (σ.process i).Records live j e)
    (he' : (σ.process i').Records live j' e') : e ≠ e' := by
  rintro rfl
  have hin := h.wellFormed.tiling.layout.start_mem he.mem
  exact h.disjoint hj hj' hne he he' _ hin hin

variable [DecidableEq ι]

theorem malloc (h : σ.MatchesHeap live) (i : ι) {size : ℕ} (hsize : 1 ≤ size) (hblocks : blocksFor size < 2 ^ 20)
    (hrun : σ.k.heap.HasFreeRun (blocksFor size)) :
    ∃ live', AllocationState.MatchesHeap (σ.commit i (processMalloc (σ.process i) size).2) live' := by
  rcases findAllocation_slot (σ.process i) 0 with ⟨-, hfull⟩ | ⟨ind, hind, hlt, -⟩
  · rw [processMalloc_full hfull]
    have hsame : σ.commit i (σ.process i) = σ := by
      simp [AllocationState.commit, AllocationState.process]
    exact ⟨live, by rwa [hsame]⟩
  obtain ⟨s, mem, heq, hwf⟩ := (h.recorded i).malloc_served hsize hblocks hrun hind
  have hslot := σ.commit_slot (p := (processMalloc (σ.process i) size).2) (i := i) (by rw [heq])
  have hk : (processMalloc (σ.process i) size).2.k = ⟨heapAllocateBlocks σ.k.heap s (blocksFor size), mem⟩ := by
    rw [heq]
    rfl
  generalize (processMalloc (σ.process i) size).2 = p at hslot hk ⊢
  have hin := hwf.tiling.layout.start_mem List.mem_cons_self
  have hptr : ∀ i' j', (σ.process i').Live j' → ((σ.process i').allocations j').ptr ≠ σ.k.blockAddress s := by
    intro i' j' hj' hsame
    obtain ⟨e, he⟩ := h.records i' j' hj'
    have hstart := he.ptr_eq
    have hes : e.start = s := by
      have hk : (σ.process i').k = σ.k := rfl
      rw [hsame, hk, KMem.blockAddress] at hstart
      omega
    apply hwf.tiling.layout.head_disjoint he.mem s hin
    rw [← hes]
    exact h.wellFormed.tiling.layout.start_mem he.mem
  have hold : ∀ i' j', ¬ (i' = i ∧ j' = ind) → ((σ.commit i p).process i').Live j' → (σ.process i').Live j' := by
    intro i' j' hne hj'
    unfold ProcessMemory.Live at hj' ⊢
    rwa [hslot, if_neg hne] at hj'
  refine ⟨⟨s, blocksFor size⟩ :: live, ?_, fun i' j' hj' => ?_, fun i' j' i'' j'' hj' hj'' hsame => ?_⟩
  · rw [AllocationState.commit_k, hk]
    exact hwf
  · by_cases hnew : i' = i ∧ j' = ind
    · refine ⟨⟨s, blocksFor size⟩, List.mem_cons_self, ?_, ?_⟩
      · rw [hslot, if_pos hnew]
        simp [AllocationState.process, hk, KMem.blockAddress]
      · rw [hslot, if_pos hnew]
        unfold blocksFor
        simp only
        omega
    · obtain ⟨e, he⟩ := h.records i' j' (hold i' j' hnew hj')
      refine ⟨e, he.congr (List.mem_cons_of_mem _ he.mem) ?_ ?_⟩
      · simp [AllocationState.process, hk]
      · rw [hslot, if_neg hnew]
  · rw [hslot, hslot] at hsame
    by_cases hnew : i' = i ∧ j' = ind
    · by_cases hnew' : i'' = i ∧ j'' = ind
      · exact ⟨hnew.1.trans hnew'.1.symm, hnew.2.trans hnew'.2.symm⟩
      · rw [if_pos hnew, if_neg hnew'] at hsame
        exact absurd hsame.symm (hptr i'' j'' (hold i'' j'' hnew' hj''))
    · by_cases hnew' : i'' = i ∧ j'' = ind
      · rw [if_neg hnew, if_pos hnew'] at hsame
        exact absurd hsame (hptr i' j' (hold i' j' hnew hj'))
      · rw [if_neg hnew, if_neg hnew'] at hsame
        exact h.distinct i' j' i'' j'' (hold i' j' hnew hj') (hold i'' j'' hnew' hj'') hsame

theorem free (h : σ.MatchesHeap live) (hj : (σ.process i).Live j) {e : Extent} (he : (σ.process i).Records live j e) :
    AllocationState.MatchesHeap
      (σ.commit i (processFreeAllocation (σ.process i) ((σ.process i).allocations j).ptr)) (live.erase e) := by
  obtain ⟨mem, heq⟩ := (h.recorded i).free_live hj
  have hslot := σ.commit_slot (p := processFreeAllocation (σ.process i) ((σ.process i).allocations j).ptr) (i := i)
    (by rw [heq])
  have hk : (processFreeAllocation (σ.process i) ((σ.process i).allocations j).ptr).k =
      kfree { σ.k with mem := mem } (σ.k.heap.address e.start) := by
    have haddr : σ.k.heap.address e.start = _ := (h.recorded i).address_eq he
    rw [heq, haddr]
    rfl
  have hwf := ((h.wellFormed.perm (List.perm_cons_erase he.mem)).withMem mem).kfree
  generalize processFreeAllocation (σ.process i) ((σ.process i).allocations j).ptr = p at hslot hk ⊢
  have hold : ∀ i' j', ((σ.commit i p).process i').Live j' → ¬ (i' = i ∧ j' = j) ∧ (σ.process i').Live j' := by
    intro i' j' hj'
    unfold ProcessMemory.Live at hj' ⊢
    rw [hslot] at hj'
    split_ifs at hj' with hsame
    · exact absurd rfl hj'.2
    · exact ⟨hsame, hj'⟩
  refine ⟨?_, fun i' j' hj' => ?_, fun i' j' i'' j'' hj' hj'' hsame => ?_⟩
  · rw [AllocationState.commit_k, hk]
    exact hwf
  · obtain ⟨hne, hj'⟩ := hold i' j' hj'
    obtain ⟨e', he'⟩ := h.records i' j' hj'
    have hee := h.extent_ne hj' hj hne he' he
    refine ⟨e', he'.congr ((List.mem_erase_of_ne hee).mpr he'.mem) ?_ ?_⟩
    · simp [AllocationState.process, hk]
    · rw [hslot, if_neg hne]
  · obtain ⟨hne, hj'⟩ := hold i' j' hj'
    obtain ⟨hne', hj''⟩ := hold i'' j'' hj''
    rw [hslot, hslot, if_neg hne, if_neg hne'] at hsame
    exact h.distinct i' j' i'' j'' hj' hj'' hsame

theorem step {σ' : AllocationState ι} (h : σ.MatchesHeap live) (hs : AllocationStep σ σ') :
    ∃ live', σ'.MatchesHeap live' := by
  cases hs with
  | malloc i size hsize hlt hrun => exact h.malloc i hsize (by unfold blocksFor; omega) hrun
  | free i j hj =>
    obtain ⟨e, he⟩ := h.records i j hj
    exact ⟨_, h.free hj he⟩

theorem run {σ' : AllocationState ι} (h : σ.MatchesHeap live) (hrun : Relation.ReflTransGen AllocationStep σ σ') :
    ∃ live', σ'.MatchesHeap live' := by
  induction hrun with
  | refl => exact ⟨live, h⟩
  | tail _ hs ih =>
    obtain ⟨live', h'⟩ := ih
    exact h'.step hs

end AllocationState.MatchesHeap

namespace ProcessMemory.Recorded
variable {p : ProcessMemory} {live : List Extent}

/-- A request that some run can serve fails for want of a slot only. -/
theorem malloc_null_iff (h : p.Recorded live) {size : ℕ} (hsize : 1 ≤ size) (hblocks : blocksFor size < 2 ^ 20)
    (hrun : p.k.heap.HasFreeRun (blocksFor size)) :
    ((processMalloc p size).1 = 0 ∧ (processMalloc p size).2.k.heap = p.k.heap) ↔
      ∀ j < zhiosProcessMaxAllocations, (p.allocations j).ptr ≠ 0 := by
  constructor
  · intro hnull
    rcases findAllocation_slot p 0 with ⟨-, hfull⟩ | ⟨ind, hind, -, -⟩
    · exact hfull
    · obtain ⟨s, mem, heq, -⟩ := h.malloc_served hsize hblocks hrun hind
      have hpos := h.wellFormed.start_pos
      have haddr := hnull.1
      rw [heq] at haddr
      simp only [KMem.blockAddress] at haddr
      omega
  · intro hfull
    rw [processMalloc_full hfull]
    exact ⟨rfl, rfl⟩

/-- A release of a live pointer: one slot and one allocation. -/
theorem free_exact (h : p.Recorded live) {j : ℕ} (hj : p.Live j) : ∃ e, p.Records live j e ∧
    (processFreeAllocation p (p.allocations j).ptr).allocations = Function.update p.allocations j ⟨0, 0⟩ ∧
    ∀ b, (processFreeAllocation p (p.allocations j).ptr).k.heap.entry b =
      if b ∈ e then heapBlockFree else p.k.heap.entry b := by
  obtain ⟨e, he⟩ := h.records j hj
  obtain ⟨mem, heq⟩ := h.free_live hj
  refine ⟨e, he, by rw [heq], fun b => ?_⟩
  rw [heq]
  exact h.kfree_entry he b

end ProcessMemory.Recorded

/-- In every run, by any processes: the records agree with the heap and no block
belongs to two of them, a release undoes one record and one allocation, and a
request that some run can serve is refused only with all slots in use. -/
theorem processAllocations_match_heap {ι : Type} [DecidableEq ι] (σ₀ σ : AllocationState ι) (live₀ : List Extent)
    (hwf : σ₀.k.WellFormed live₀) (hempty : ∀ i j, ¬ (σ₀.process i).Live j)
    (hrun : Relation.ReflTransGen AllocationStep σ₀ σ) :
    (∃ live, σ.MatchesHeap live ∧
      (∀ i j i' j' e e', (σ.process i).Live j → (σ.process i').Live j' → ¬ (i = i' ∧ j = j') →
        (σ.process i).Records live j e → (σ.process i').Records live j' e' → e.Disjoint e') ∧
      ∀ i j, (σ.process i).Live j → ∃ e, (σ.process i).Records live j e ∧
        (processFreeAllocation (σ.process i) ((σ.process i).allocations j).ptr).allocations =
          Function.update (σ.process i).allocations j ⟨0, 0⟩ ∧
        ∀ b, (processFreeAllocation (σ.process i) ((σ.process i).allocations j).ptr).k.heap.entry b =
          if b ∈ e then heapBlockFree else σ.k.heap.entry b) ∧
    ∀ i size, 1 ≤ size → size < 2 ^ 31 - 4096 → σ.k.heap.HasFreeRun (blocksFor size) →
      (((processMalloc (σ.process i) size).1 = 0 ∧ (processMalloc (σ.process i) size).2.k.heap = σ.k.heap) ↔
        ∀ j < zhiosProcessMaxAllocations, ((σ.process i).allocations j).ptr ≠ 0) := by
  have hstart : σ₀.MatchesHeap live₀ :=
    ⟨hwf, fun i j hj => absurd hj (hempty i j), fun i j _ _ hj => absurd hj (hempty i j)⟩
  obtain ⟨live, h⟩ := hstart.run hrun
  refine ⟨⟨live, h, ?_, ?_⟩, ?_⟩
  · exact fun i j i' j' e e' hj hj' hne he he' => h.disjoint hj hj' hne he he'
  · exact fun i j hj => (h.recorded i).free_exact hj
  · intro i size hsize hlt hfree
    exact (h.recorded i).malloc_null_iff hsize (by unfold blocksFor; omega) hfree

theorem processAllocations_match_heap_two : ∃ live, AllocationState.MatchesHeap
    (AllocationState.commit ⟨⟨freshKernelHeap, fun _ => 0⟩, fun _ : Bool => 0, fun _ _ => ⟨0, 0⟩⟩ true
      (processMalloc ⟨⟨freshKernelHeap, fun _ => 0⟩, 0, fun _ => ⟨0, 0⟩⟩ 5000).2) live := by
  have hrun : freshKernelHeap.HasFreeRun (blocksFor 5000) :=
    ⟨0, by simp [blocksFor], fun k _ _ => by simp [Heap.FreeAt, heapGetEntryType, heapBlockFree]⟩
  obtain ⟨⟨live, h, -⟩, -⟩ := processAllocations_match_heap _ _ [] (freshKernelHeap_wellFormed fun _ => 0)
    (fun i j hj => hj.2 rfl) (.single (AllocationStep.malloc
      ⟨⟨freshKernelHeap, fun _ => 0⟩, fun _ : Bool => 0, fun _ _ => ⟨0, 0⟩⟩ true 5000 (by decide) (by decide) hrun))
  exact ⟨live, h⟩

end Zhios
