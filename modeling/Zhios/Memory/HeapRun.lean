import Zhios.Memory.HeapPinned
import Zhios.Machine.Run

/-! Runs of the allocator's interface over the heap `heap_create` leaves. The table stays
tiled as long as no pointer from 2 GiB above the start of the heap on is released: there
the signed pointer difference of `address_to_heap_block` is negative. -/
namespace Zhios
open Machine

/-- A live allocation as its owner knows it: the pointer returned for it and the
number of blocks asked for. -/
structure Allocation where
  ptr : ℕ
  blocks : ℕ
  deriving DecidableEq, Repr

/-- The block a pointer lies in, its distance from the start read without a sign. -/
def Heap.blockOf (heap : Heap) (ptr : ℕ) : ℕ := uint32 (ptr - heap.startAddress) / zhiosHeapBlockSize

def Allocation.extent (heap : Heap) (a : Allocation) : Extent := ⟨heap.blockOf a.ptr, a.blocks⟩

theorem Allocation.extent_congr {heap heap' : Heap} (h : heap'.startAddress = heap.startAddress) :
    Allocation.extent heap' = Allocation.extent heap := by
  funext a
  simp only [Allocation.extent, Heap.blockOf, h]

theorem Heap.address_congr {heap heap' : Heap} (h : heap'.startAddress = heap.startAddress) :
    heap'.address = heap.address := by
  funext s
  simp only [Heap.address, h]

section Distance
variable (heap : Heap) {s : ℕ}

theorem uint32_address (hs : s < 2 ^ 20) : uint32 (heap.address s - heap.startAddress) = 4096 * s := by
  unfold Heap.address getOffset uint32 zhiosHeapBlockSize
  omega

theorem Heap.blockOf_address (hs : s < 2 ^ 20) : heap.blockOf (heap.address s) = s := by
  rw [Heap.blockOf, uint32_address heap hs, zhiosHeapBlockSize]
  omega

theorem addressToHeapBlock_far (hfar : 2 ^ 19 ≤ s) (hs : s < 2 ^ 20) :
    addressToHeapBlock heap (heap.address s) = (s : ℤ) - 2 ^ 20 := by
  have hdiff : int32 (heap.address s - heap.startAddress) = 4096 * ((s : ℤ) - 2 ^ 20) := by
    unfold Heap.address getOffset int32 uint32 zhiosHeapBlockSize
    omega
  rw [addressToHeapBlock, hdiff]
  exact Int.mul_tdiv_cancel_left _ (by decide)

end Distance

/-- A release that starts below the table ends before the allocation it was meant for. -/
theorem Tiling.heapFree_far {heap : Heap} {live : List Extent} (h : Tiling heap live) {e : Extent} (he : e ∈ live)
    {s : ℕ} (hs : e.start = s) (hfar : 2 ^ 19 ≤ s) (hlt : s < 2 ^ 20) :
    (Zhios.heapFree heap (heap.address s)).entry s = heap.entry s := by
  obtain ⟨n, hentry, hgoes⟩ := heapFree_cases heap (heap.address s)
  rw [addressToHeapBlock_far heap hfar hlt] at hentry hgoes
  rw [hentry]
  apply if_neg
  intro hin
  have hbefore := hgoes (s - 1) (by omega) (by omega)
  exact (h.start_pinned he hs).apart (by omega) hbefore

structure HeapState where
  heap : Heap
  live : List Allocation

/-- A call of the allocator's interface: a request, or the release of an allocation. -/
inductive HeapCall
  | malloc (size : ℕ)
  | free (a : Allocation)

namespace HeapState

def call (σ : HeapState) : HeapCall → HeapState
  | .malloc size => ⟨(heapMalloc σ.heap size).2, ⟨(heapMalloc σ.heap size).1, blocksFor size⟩ :: σ.live⟩
  | .free a => ⟨heapFree σ.heap a.ptr, σ.live.erase a⟩

/-- Requests that some free run can serve, and releases of live pointers. -/
def Admits (σ : HeapState) : HeapCall → Prop
  | .malloc size => 1 ≤ size ∧ blocksFor size < 2 ^ 20 ∧ σ.heap.HasFreeRun (blocksFor size)
  | .free a => a ∈ σ.live

/-- A request changes free entries only; a release clears exactly the blocks of its
allocation. -/
def Exact (σ : HeapState) : HeapCall → Prop
  | .malloc size => ∀ i, (heapMalloc σ.heap size).2.entry i ≠ σ.heap.entry i →
      0 ≤ i ∧ i < σ.heap.total ∧ σ.heap.entry i = heapBlockFree
  | .free a => ∀ i, (heapFree σ.heap a.ptr).entry i =
      if i ∈ a.extent σ.heap then heapBlockFree else σ.heap.entry i

/-- A pointer that is released lies less than 2 GiB above the start of the heap. -/
def Near (σ : HeapState) : HeapCall → Prop
  | .malloc _ => True
  | .free a => uint32 (a.ptr - σ.heap.startAddress) < 2 ^ 31

/-- The table is tiled by the live allocations, and each pointer is the address
of its first block. -/
structure Tiled (σ : HeapState) : Prop where
  tiling : Tiling σ.heap (σ.live.map (Allocation.extent σ.heap))
  address : ∀ a ∈ σ.live, a.ptr = σ.heap.address (a.extent σ.heap).start

namespace Tiled
variable {σ : HeapState}

theorem malloc (h : σ.Tiled) (htotal : σ.heap.total < 2 ^ 20) {size : ℕ} (ha : σ.Admits (.malloc size)) :
    (σ.call (.malloc size)).Tiled := by
  obtain ⟨hsize, hblocks, hrun⟩ := ha
  have hn : 1 ≤ blocksFor size := by unfold blocksFor; omega
  obtain ⟨s, hfree, -, heq, ht⟩ := h.tiling.heapMallocBlocks (by omega) hn hrun
  have hlt := hfree.1
  have hblock := σ.heap.blockOf_address (show s < 2 ^ 20 by omega)
  have hstart := heapAllocateBlocks_startAddress σ.heap s (blocksFor size)
  rw [call, heapMalloc_eq σ.heap hblocks, heq]
  constructor
  · simp only [Allocation.extent_congr hstart, List.map_cons]
    simp only [Allocation.extent, hblock]
    exact ht
  · intro a ha
    simp only [Allocation.extent_congr hstart, Heap.address_congr hstart]
    rcases List.mem_cons.mp ha with rfl | hold
    · simp only [Allocation.extent, hblock]
    · exact h.address a hold

theorem malloc_exact (h : σ.Tiled) (htotal : σ.heap.total < 2 ^ 20) {size : ℕ} (ha : σ.Admits (.malloc size)) :
    σ.Exact (.malloc size) := by
  intro i hi
  obtain ⟨hsize, hblocks, hrun⟩ := ha
  have hn : 1 ≤ blocksFor size := by unfold blocksFor; omega
  obtain ⟨s, hfree, -, heq, -⟩ := h.tiling.heapMallocBlocks (by omega) hn hrun
  have hin := hfree.1
  rw [heapMalloc_eq σ.heap hblocks, heq] at hi
  have hmem : i ∈ (⟨s, blocksFor size⟩ : Extent) := by
    by_contra hout
    exact hi ((heapAllocateBlocks_entry σ.heap ⟨s, blocksFor size⟩ hn (by simp)
      (by simp only; omega) i).trans (if_neg hout))
  obtain ⟨hlo, hhi⟩ := Extent.mem_iff.mp hmem
  simp only at hlo hhi
  have h0 : 0 ≤ i := by omega
  have h1 : i < σ.heap.total := by omega
  refine ⟨h0, h1, h.tiling.entry_of_free h0 h1 ?_⟩
  have hi := hfree.2 i.toNat (by omega) (by omega)
  rwa [Int.toNat_of_nonneg h0] at hi

theorem extent_mem {a : Allocation} (ha : a ∈ σ.live) :
    a.extent σ.heap ∈ σ.live.map (Allocation.extent σ.heap) := List.mem_map_of_mem ha

/-- A live pointer is near exactly when its first block is one of the first 2^19. -/
theorem near_iff (h : σ.Tiled) (htotal : σ.heap.total < 2 ^ 20) {a : Allocation} (ha : a ∈ σ.live) :
    σ.Near (.free a) ↔ σ.heap.blockOf a.ptr < 2 ^ 19 := by
  have hpos := h.tiling.layout.pos _ (extent_mem ha)
  have hinside := (h.tiling.layout.inside _ (extent_mem ha)).2
  simp only [Allocation.extent] at hpos hinside
  have hptr : a.ptr = σ.heap.address (σ.heap.blockOf a.ptr) := h.address a ha
  rw [Near, hptr, uint32_address σ.heap (by omega), Heap.blockOf_address σ.heap (by omega)]
  omega

theorem free (h : σ.Tiled) (htotal : σ.heap.total < 2 ^ 20) {a : Allocation} (ha : a ∈ σ.live)
    (hnear : σ.heap.blockOf a.ptr < 2 ^ 19) : (σ.call (.free a)).Tiled := by
  have hstart := heapFree_startAddress σ.heap a.ptr
  constructor
  · simp only [call, Allocation.extent_congr hstart]
    have hperm := (List.perm_cons_erase ha).map (Allocation.extent σ.heap)
    have ht := (h.tiling.perm hperm).heapFree htotal (by simp only [Allocation.extent]; omega)
    rwa [← h.address a ha] at ht
  · intro b hb
    simp only [call, Allocation.extent_congr hstart, Heap.address_congr hstart]
    exact h.address b (List.mem_of_mem_erase hb)

theorem free_exact (h : σ.Tiled) (htotal : σ.heap.total < 2 ^ 20) {a : Allocation} (ha : a ∈ σ.live)
    (hnear : σ.heap.blockOf a.ptr < 2 ^ 19) : σ.Exact (.free a) := by
  intro i
  have hentry := h.tiling.heapFree_entry htotal (extent_mem ha) (by simp only [Allocation.extent]; omega) i
  rwa [← h.address a ha] at hentry

/-- A pointer that is not near is released without effect on its own first block. -/
theorem near_of_exact (h : σ.Tiled) (htotal : σ.heap.total < 2 ^ 20) {a : Allocation} (ha : a ∈ σ.live)
    (hexact : σ.Exact (.free a)) : σ.heap.blockOf a.ptr < 2 ^ 19 := by
  by_contra hfar
  have he := extent_mem ha
  have hinside := (h.tiling.layout.inside _ he).2
  have hcell := h.tiling.layout.start_mem he
  have hkept := h.tiling.heapFree_far he (s := σ.heap.blockOf a.ptr) rfl (by omega) (by
    have hpos := h.tiling.layout.pos _ he
    simp only [Allocation.extent] at hinside hpos
    omega)
  have hcleared := (hexact (σ.heap.blockOf a.ptr)).trans (if_pos hcell)
  have hptr : σ.heap.address (σ.heap.blockOf a.ptr) = a.ptr := (h.address a ha).symm
  rw [hptr, hcleared] at hkept
  have hmarked := h.tiling.marked _ he _ hcell
  apply blockFlags_taken (a.extent σ.heap) (a.extent σ.heap).start
  rw [← hmarked]
  exact congrArg heapGetEntryType hkept.symm

theorem step_iff (h : σ.Tiled) (htotal : σ.heap.total < 2 ^ 20) {op : HeapCall} (ha : σ.Admits op) :
    (σ.call op).Tiled ∧ σ.Exact op ↔ σ.Near op := by
  cases op with
  | malloc size => exact iff_of_true ⟨h.malloc htotal ha, h.malloc_exact htotal ha⟩ trivial
  | free a =>
    rw [h.near_iff htotal ha]
    constructor
    · intro hstep
      exact h.near_of_exact htotal ha hstep.2
    · intro hnear
      exact ⟨h.free htotal ha hnear, h.free_exact htotal ha hnear⟩

end Tiled

@[simp] theorem call_total (σ : HeapState) (op : HeapCall) : (σ.call op).heap.total = σ.heap.total := by
  cases op <;> simp [call]

theorem Tiled.run_iff {σ : HeapState} (h : σ.Tiled) (htotal : σ.heap.total < 2 ^ 20) {calls : List HeapCall}
    (hcalls : Each call Admits σ calls) :
    Always call Tiled σ calls ∧ Each call Exact σ calls ↔ Each call Near σ calls := by
  rw [always_iff_each_next h, ← each_and]
  apply each_iff_each (G := fun σ => σ.Tiled ∧ σ.heap.total < 2 ^ 20) (A := Admits)
  · intro σ op hG ha
    exact hG.1.step_iff hG.2 ha
  · intro σ op hG ha hnear
    exact ⟨((hG.1.step_iff hG.2 ha).mpr hnear).1, by rw [call_total]; exact hG.2⟩
  · exact ⟨h, htotal⟩
  · exact hcalls

/-- In a table of at most 2^19 entries every live pointer is near. -/
theorem Tiled.near {σ : HeapState} (h : σ.Tiled) (htotal : σ.heap.total ≤ 2 ^ 19) {op : HeapCall} (ha : σ.Admits op) :
    σ.Near op := by
  cases op with
  | malloc size => trivial
  | free a =>
    rw [h.near_iff (by omega) ha]
    have hlt := h.tiling.start_lt htotal (extent_mem ha)
    simp only [Allocation.extent] at hlt
    omega

end HeapState

section Create
variable {heap : Heap} {ptr end_ : ℕ} {table : HeapTable}

theorem heapCreate_tiled (h : (heapCreate heap ptr end_ table).1 = 0) :
    HeapState.Tiled ⟨(heapCreate heap ptr end_ table).2.1, []⟩ := by
  rw [heapCreate_heap h]
  refine ⟨⟨Layout.nil _, by simp, fun i h0 h1 _ => ?_⟩, by simp⟩
  exact if_pos ⟨h0, h1⟩

theorem heapCreate_total_lt (h : (heapCreate heap ptr end_ table).1 = 0) :
    (heapCreate heap ptr end_ table).2.1.total < 2 ^ 20 := by
  have hlt := uint32_lt ((end_ : ℤ) - ptr)
  unfold heapCreate at h ⊢
  split_ifs at h ⊢ with halign htable
  · simp [EINARG] at h
  · simp [EINARG] at h
  · simp only [isValidTable, HeapTable.clear, zhiosHeapBlockSize, Bool.not_eq_true', beq_eq_false_iff_ne,
      ne_eq, not_not] at htable
    simp only [Heap.total, HeapTable.clear]
    omega

end Create

/-- From a table cleared by `heap_create`, along every run of requests that fit and
releases of live pointers: the table is an exact tiling in every state and every call
changes just what it should if and only if every pointer released is near. -/
theorem heapCreate_run_tiled_iff (heap : Heap) (ptr end_ : ℕ) (table : HeapTable)
    (hcreate : (heapCreate heap ptr end_ table).1 = 0) (calls : List HeapCall)
    (hcalls : Each HeapState.call HeapState.Admits ⟨(heapCreate heap ptr end_ table).2.1, []⟩ calls) :
    Always HeapState.call HeapState.Tiled ⟨(heapCreate heap ptr end_ table).2.1, []⟩ calls ∧
        Each HeapState.call HeapState.Exact ⟨(heapCreate heap ptr end_ table).2.1, []⟩ calls ↔
      Each HeapState.call HeapState.Near ⟨(heapCreate heap ptr end_ table).2.1, []⟩ calls :=
  (heapCreate_tiled hcreate).run_iff (heapCreate_total_lt hcreate) hcalls

theorem heapCreate_run_tiled_iff_kheapInit :
    Always HeapState.call HeapState.Tiled ⟨freshKernelHeap, []⟩
        [.malloc 5000, .free ⟨(heapMalloc freshKernelHeap 5000).1, blocksFor 5000⟩] ∧
      Each HeapState.call HeapState.Exact ⟨freshKernelHeap, []⟩
        [.malloc 5000, .free ⟨(heapMalloc freshKernelHeap 5000).1, blocksFor 5000⟩] := by
  have htiled : HeapState.Tiled ⟨freshKernelHeap, []⟩ := heapCreate_tiled kheapInit_ok
  have hmalloc : HeapState.Admits ⟨freshKernelHeap, []⟩ (.malloc 5000) :=
    ⟨by decide, by decide,
      (freshKernelHeap_filled.heapMalloc (by simp) (by decide) (by decide) (by simp [blocksFor])).1⟩
  have hfree : HeapState.Admits (HeapState.call ⟨freshKernelHeap, []⟩ (.malloc 5000))
      (.free ⟨(heapMalloc freshKernelHeap 5000).1, blocksFor 5000⟩) := List.mem_cons_self
  have hnear : HeapState.Near (HeapState.call ⟨freshKernelHeap, []⟩ (.malloc 5000))
      (.free ⟨(heapMalloc freshKernelHeap 5000).1, blocksFor 5000⟩) := by
    apply (htiled.malloc (by simp) hmalloc).near _ hfree
    rw [HeapState.call_total, freshKernelHeap_total]
    decide
  have hcalls : Each HeapState.call HeapState.Admits ⟨freshKernelHeap, []⟩
      [.malloc 5000, .free ⟨(heapMalloc freshKernelHeap 5000).1, blocksFor 5000⟩] := ⟨hmalloc, hfree, trivial⟩
  exact (heapCreate_run_tiled_iff ⟨⟨0, fun _ => 0⟩, 0⟩ heapAddress (heapAddress + zhiosHeapSizeBytes) _ kheapInit_ok _
    hcalls).mpr ⟨trivial, hnear, trivial⟩

def wideTable : HeapTable := ⟨2 ^ 19 + 1, fun _ => 0⟩

def wideHeap : Heap := (heapCreate ⟨wideTable, 0⟩ heapAddress (heapAddress + 4096 * (2 ^ 19 + 1)) wideTable).2.1

theorem wideHeap_created :
    (heapCreate ⟨wideTable, 0⟩ heapAddress (heapAddress + 4096 * (2 ^ 19 + 1)) wideTable).1 = 0 := by
  simp [heapCreate, isValidAlignment, isValidTable, HeapTable.clear, heapAddress, wideTable, zhiosHeapBlockSize, uint32]

theorem wideHeap_eq : wideHeap = ⟨wideTable.clear, heapAddress⟩ := heapCreate_heap wideHeap_created

theorem wideHeap_total : wideHeap.total = 2 ^ 19 + 1 := by
  rw [wideHeap_eq]
  rfl

theorem wideHeap_entry (i : ℤ) : wideHeap.entry i = heapBlockFree := by
  rw [wideHeap_eq]
  exact ite_self heapBlockFree

theorem wideHeap_filled : wideHeap.Filled 0 := by
  intro i _
  rw [Heap.FreeAt, wideHeap_entry]
  exact iff_of_true rfl (Nat.zero_le i)

/-- Two gigabytes are taken, and the block behind them is requested and given back. -/
def farCalls : List HeapCall := [.malloc (2 ^ 31), .malloc 1, .free ⟨0x81000000, 1⟩]

theorem farCalls_far {heap : Heap} (hfilled : heap.Filled 0) (htotal : heap.total = 2 ^ 19 + 1)
    (hstart : heap.startAddress = heapAddress) :
    Each HeapState.call HeapState.Admits ⟨heap, []⟩ farCalls ∧
      ¬ Each HeapState.call HeapState.Near ⟨heap, []⟩ farCalls := by
  obtain ⟨hrun₁, -, hfilled₁⟩ :=
    hfilled.heapMalloc (by omega) (show 1 ≤ 2 ^ 31 by decide) (by decide) (by rw [htotal]; decide)
  obtain ⟨heap₁, hheap₁⟩ : ∃ heap₁, heap₁ = (heapMalloc heap (2 ^ 31)).2 := ⟨_, rfl⟩
  rw [← hheap₁, show 0 + blocksFor (2 ^ 31) = 2 ^ 19 by decide] at hfilled₁
  have htotal₁ : heap₁.total = 2 ^ 19 + 1 := by rw [hheap₁, heapMalloc_total, htotal]
  have hstart₁ : heap₁.startAddress = 0x01000000 := by rw [hheap₁, heapMalloc_startAddress, hstart, heapAddress]
  obtain ⟨hrun₂, hptr, -⟩ :=
    hfilled₁.heapMalloc (by omega) (show 1 ≤ 1 from le_rfl) (by decide) (by rw [htotal₁]; decide)
  have haddress : heap₁.address (2 ^ 19 : ℕ) = 0x81000000 := by
    unfold Heap.address getOffset uint32 zhiosHeapBlockSize
    omega
  have hlive : (⟨0x81000000, 1⟩ : Allocation) ∈ [⟨(heapMalloc heap₁ 1).1, blocksFor 1⟩] := by
    rw [hptr, haddress]
    exact List.mem_cons_self
  simp only [farCalls, Each, HeapState.call, ← hheap₁]
  constructor
  · exact ⟨⟨by decide, by decide, hrun₁⟩, ⟨by decide, by decide, hrun₂⟩, List.mem_append_left _ hlive, trivial⟩
  · intro hnear
    have hdistance := hnear.2.2.1
    rw [HeapState.Near, heapMalloc_startAddress heap₁] at hdistance
    simp only at hdistance
    rw [← haddress, uint32_address heap₁ (by decide)] at hdistance
    omega

/-- The block is not given back. -/
theorem wideHeap_not_tiled :
    (heapCreate ⟨wideTable, 0⟩ heapAddress (heapAddress + 4096 * (2 ^ 19 + 1)) wideTable).1 = 0 ∧
    Each HeapState.call HeapState.Admits ⟨wideHeap, []⟩ farCalls ∧
    ¬ (Always HeapState.call HeapState.Tiled ⟨wideHeap, []⟩ farCalls ∧
      Each HeapState.call HeapState.Exact ⟨wideHeap, []⟩ farCalls) := by
  have hstart : wideHeap.startAddress = heapAddress := by rw [wideHeap_eq]
  obtain ⟨hcalls, hfar⟩ := farCalls_far wideHeap_filled wideHeap_total hstart
  have htiled : HeapState.Tiled ⟨wideHeap, []⟩ := heapCreate_tiled wideHeap_created
  have hiff := htiled.run_iff (by simp only [wideHeap_total]; decide) hcalls
  exact ⟨wideHeap_created, hcalls, mt hiff.mp hfar⟩

end Zhios
