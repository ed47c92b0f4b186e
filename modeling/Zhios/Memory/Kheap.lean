import Zhios.Memory.HeapTiling
import Zhios.Machine.Memory

/-! The kernel allocator of `src/memory/heap/kheap.c` over physical memory, and
what its callers rely on: aligned, non-null, disjoint and zeroed allocations. -/
namespace Zhios
open Machine

/-- The block table of the kernel heap and the memory it hands out. -/
structure KMem where
  heap : Heap
  mem : Mem

def kmalloc (k : KMem) (size : ℕ) : ℕ × KMem :=
  let r := heapMalloc k.heap size
  (r.1, { k with heap := r.2 })

def kfree (k : KMem) (ptr : ℕ) : KMem := { k with heap := heapFree k.heap ptr }

@[simp] theorem kfree_heap (k : KMem) (ptr : ℕ) : (kfree k ptr).heap = heapFree k.heap ptr := rfl

@[simp] theorem kfree_mem (k : KMem) (ptr : ℕ) : (kfree k ptr).mem = k.mem := rfl

def kzalloc (k : KMem) (size : ℕ) : ℕ × KMem :=
  let r := kmalloc k size
  if r.1 = 0 then (0, r.2) else (r.1, { r.2 with mem := fill r.2.mem r.1 size 0x00 })

/-- A tiled table over a page-aligned region that neither starts at null nor
wraps around the address space. -/
structure KMem.WellFormed (k : KMem) (live : List Extent) : Prop where
  tiling : Tiling k.heap live
  total_le : k.heap.total ≤ 2 ^ 19
  start_pos : 0 < k.heap.startAddress
  start_aligned : k.heap.startAddress % 4096 = 0
  fits : k.heap.startAddress + 4096 * k.heap.total ≤ 2 ^ 32

namespace KMem.WellFormed
variable {k : KMem} {live : List Extent}

theorem address_eq (h : k.WellFormed live) {s : ℕ} (hs : s < k.heap.total) :
    k.heap.address s = k.heap.startAddress + 4096 * s := by
  have hfits := h.fits
  have hoff : (getOffset s : ℤ) = 4096 * s := by
    unfold getOffset zhiosHeapBlockSize
    exact uint32_of_bounds (by positivity) (by push_cast; omega)
  have haddr : (k.heap.address s : ℤ) = k.heap.startAddress + getOffset s :=
    uint32_of_bounds (by positivity) (by omega)
  omega

/-- A request that fits: where it lands, and that only its own bytes change. -/
theorem kzalloc (h : k.WellFormed live) {size : ℕ} (hsize : 1 ≤ size)
    (hblocks : blocksFor size < 2 ^ 20) (hrun : k.heap.HasFreeRun (blocksFor size)) :
    ∃ s : ℕ, k.heap.FreeRun s (blocksFor size) ∧
      (∀ s', k.heap.FreeRun s' (blocksFor size) → s ≤ s') ∧
      Zhios.kzalloc k size = (k.heap.startAddress + 4096 * s,
        ⟨heapAllocateBlocks k.heap s (blocksFor size),
          fill k.mem (k.heap.startAddress + 4096 * s) size 0⟩) ∧
      (Zhios.kzalloc k size).2.WellFormed (⟨s, blocksFor size⟩ :: live) := by
  have hn : 1 ≤ blocksFor size := by unfold blocksFor; omega
  have htotal := h.total_le
  obtain ⟨s, hfree, hmin, heq, ht⟩ := h.tiling.heapMallocBlocks (by omega) hn hrun
  have hlt : s < k.heap.total := by have := hfree.1; omega
  have hpos := h.start_pos
  have hk : Zhios.kzalloc k size = (k.heap.startAddress + 4096 * s,
      ⟨heapAllocateBlocks k.heap s (blocksFor size),
        fill k.mem (k.heap.startAddress + 4096 * s) size 0⟩) := by
    simp only [Zhios.kzalloc, kmalloc, heapMalloc_eq k.heap hblocks, heq, h.address_eq hlt]
    rw [if_neg (by omega)]
  refine ⟨s, hfree, hmin, hk, ?_⟩
  rw [hk]
  exact ⟨ht, by simpa using htotal, by simpa using hpos, by simpa using h.start_aligned,
    by simpa using h.fits⟩

theorem kfree {e : Extent} (h : k.WellFormed (e :: live)) :
    (Zhios.kfree k (k.heap.address e.start)).WellFormed live := by
  constructor
  · rw [kfree_heap]
    have htotal := h.total_le
    exact h.tiling.heapFree (by omega) (h.tiling.start_lt htotal List.mem_cons_self)
  · rw [kfree_heap, heapFree_total]
    exact h.total_le
  · rw [kfree_heap, heapFree_startAddress]
    exact h.start_pos
  · rw [kfree_heap, heapFree_startAddress]
    exact h.start_aligned
  · rw [kfree_heap, heapFree_total, heapFree_startAddress]
    exact h.fits

theorem perm {live' : List Extent} (h : k.WellFormed live) (hp : live.Perm live') :
    k.WellFormed live' :=
  ⟨h.tiling.perm hp, h.total_le, h.start_pos, h.start_aligned, h.fits⟩

theorem withMem (h : k.WellFormed live) (m : Mem) : KMem.WellFormed { k with mem := m } live :=
  ⟨h.tiling, h.total_le, h.start_pos, h.start_aligned, h.fits⟩

end KMem.WellFormed

/-- A request no run can serve, on a table whose last block is taken, changes nothing. -/
theorem kzalloc_null {k : KMem} {size : ℕ} (hsize : 1 ≤ size) (hblocks : blocksFor size < 2 ^ 20)
    (hno : ¬ k.heap.HasFreeRun (blocksFor size)) (hlast : k.heap.LastTaken) :
    kzalloc k size = (0, k) := by
  have hn : 1 ≤ blocksFor size := by unfold blocksFor; omega
  obtain ⟨c, ht, hget⟩ := heapGetFreeBlock_of_no_run hn hno
  rw [if_pos (ht.eq_zero_iff.mpr hlast)] at hget
  simp only [kzalloc, kmalloc, heapMalloc_eq k.heap hblocks, heapMallocBlocks_of_exhausted hget,
    if_true]

/-- For a single block, any free entry will do, so failure is always reported. -/
theorem Heap.lastTaken_of_no_block {heap : Heap} (hno : ¬ heap.HasFreeRun 1) : heap.LastTaken := by
  rcases Nat.eq_zero_or_pos heap.total with h0 | hpos
  · exact Or.inl h0
  · refine Or.inr fun hfree => hno ⟨heap.total - 1, by omega, fun i hlo hhi => ?_⟩
    rwa [show i = heap.total - 1 by omega]

theorem kzalloc_block_null {k : KMem} {size : ℕ} (hsize : 1 ≤ size) (hle : size ≤ 4096)
    (hno : ¬ k.heap.HasFreeRun 1) : kzalloc k size = (0, k) := by
  have hone : blocksFor size = 1 := by unfold blocksFor; omega
  exact kzalloc_null hsize (by omega) (by rwa [hone]) (Heap.lastTaken_of_no_block hno)

theorem kzalloc_mem {k : KMem} {size : ℕ} (hne : (kzalloc k size).1 ≠ 0) :
    (kzalloc k size).2.mem = fill k.mem (kzalloc k size).1 size 0 := by
  unfold kzalloc at hne ⊢
  simp only [] at hne ⊢
  split_ifs at hne ⊢ with hnull
  · exact absurd rfl hne
  · rfl

/-- The address `a` is a live one-block allocation. -/
def KMem.Owns (k : KMem) (live : List Extent) (a : ℕ) : Prop :=
  ∃ s : ℤ, (⟨s, 1⟩ : Extent) ∈ live ∧ (a : ℤ) = k.heap.startAddress + 4096 * s

namespace KMem.Owns
variable {k : KMem} {live : List Extent} {a : ℕ}

theorem aligned (h : k.WellFormed live) (ho : k.Owns live a) : a % 4096 = 0 := by
  obtain ⟨s, _, ha⟩ := ho
  have := h.start_aligned
  omega

theorem lt (h : k.WellFormed live) (ho : k.Owns live a) : a + 4096 ≤ 2 ^ 32 := by
  obtain ⟨s, hs, ha⟩ := ho
  have hin := (h.tiling.layout.inside _ hs).2
  have hfits := h.fits
  simp only at hin
  omega

end KMem.Owns

structure KMem.SameRegion (k k' : KMem) : Prop where
  total_eq : k'.heap.total = k.heap.total
  start_eq : k'.heap.startAddress = k.heap.startAddress

theorem KMem.SameRegion.trans {k₁ k₂ k₃ : KMem} (h : k₁.SameRegion k₂) (h' : k₂.SameRegion k₃) :
    k₁.SameRegion k₃ :=
  ⟨h'.total_eq.trans h.total_eq, h'.start_eq.trans h.start_eq⟩

/-- What a one-block request that did not fail establishes: a block nobody owned,
with the owners of the others unchanged. -/
structure KMem.FreshBlock (k k' : KMem) (live live' : List Extent) (a size : ℕ) : Prop where
  wellFormed : k'.WellFormed live'
  owned : k'.Owns live' a
  fresh : ¬ k.Owns live a
  mono : ∀ b, k.Owns live b → k'.Owns live' b
  mem_eq : k'.mem = fill k.mem a size 0
  region : k.SameRegion k'
  used_eq : Layout.used live' = Layout.used live + 1
  filled : ∀ n, k.heap.Filled n → k'.heap.Filled (n + 1)

theorem KMem.WellFormed.kzalloc_block {k : KMem} {live : List Extent} (h : k.WellFormed live)
    {size : ℕ} (hsize : 1 ≤ size) (hle : size ≤ 4096) (hne : (Zhios.kzalloc k size).1 ≠ 0) :
    ∃ live', k.FreshBlock (Zhios.kzalloc k size).2 live live' (Zhios.kzalloc k size).1 size := by
  have hone : blocksFor size = 1 := by unfold blocksFor; omega
  have hrun : k.heap.HasFreeRun (blocksFor size) := by
    by_contra hno
    exact hne (by rw [kzalloc_block_null hsize hle (by rwa [hone] at hno)])
  obtain ⟨s, hfree, hmin, heq, hwf⟩ := h.kzalloc hsize (by omega) hrun
  have htotal := h.total_le
  rw [hone] at hwf hfree hmin
  have hstart : (Zhios.kzalloc k size).2.heap.startAddress = k.heap.startAddress := by simp [heq]
  have haddr : ((Zhios.kzalloc k size).1 : ℤ) = k.heap.startAddress + 4096 * s := by simp [heq]
  refine ⟨⟨s, 1⟩ :: live, hwf, ⟨s, List.mem_cons_self, by rw [hstart, haddr]⟩, ?_, ?_, by simp [heq],
    ⟨by simp [heq], hstart⟩, by simp [Layout.used, Nat.add_comm], fun n hn => ?_⟩
  · intro howned
    obtain ⟨t, ht, hat⟩ := howned
    obtain rfl : (s : ℤ) = t := by omega
    have hmem := hwf.tiling.layout.start_mem (List.mem_cons_of_mem _ ht)
    exact hwf.tiling.layout.head_disjoint ht s hmem hmem
  · rintro b ⟨t, ht, hb⟩
    exact ⟨t, List.mem_cons_of_mem _ ht, by rw [hstart, hb]⟩
  · simp only [heq, hone]
    exact (hn.allocate (by omega) le_rfl hfree hmin).2

theorem KMem.WellFormed.kzalloc_ne_zero_of_free {k : KMem} {live : List Extent} (h : k.WellFormed live)
    {size i : ℕ} (hsize : 1 ≤ size) (hle : size ≤ 4096) (hi : i < k.heap.total) (hfree : k.heap.FreeAt i) :
    (Zhios.kzalloc k size).1 ≠ 0 := by
  have hone : blocksFor size = 1 := by unfold blocksFor; omega
  have hrun : k.heap.HasFreeRun (blocksFor size) := by
    refine ⟨i, by omega, fun j hlo hhi => ?_⟩
    obtain rfl : j = i := by omega
    exact hfree
  obtain ⟨s, -, -, heq, -⟩ := h.kzalloc hsize (by omega) hrun
  have hpos := h.start_pos
  simp only [heq]
  omega

/-- While some block is unused, a one-block request cannot fail. -/
theorem KMem.WellFormed.kzalloc_ne_zero {k : KMem} {live : List Extent} (h : k.WellFormed live)
    {size : ℕ} (hsize : 1 ≤ size) (hle : size ≤ 4096) (hroom : Layout.used live < k.heap.total) :
    (Zhios.kzalloc k size).1 ≠ 0 := by
  obtain ⟨i, hi, hfree⟩ := Layout.exists_uncovered hroom
  apply h.kzalloc_ne_zero_of_free hsize hle (i := i) (by omega)
  have hentry := h.tiling.free i (by omega) (by omega) hfree
  simp [Heap.FreeAt, hentry, heapGetEntryType, heapBlockFree]

/-- What is left of the heap after `n` one-block requests that were served. -/
structure KMem.Served (k k' : KMem) (live live' : List Extent) (n : ℕ) : Prop where
  wellFormed : k'.WellFormed live'
  used_eq : Layout.used live' = Layout.used live + n
  region : k.SameRegion k'

theorem KMem.Served.trans {k₁ k₂ k₃ : KMem} {live₁ live₂ live₃ : List Extent} {n n' : ℕ}
    (h : KMem.Served k₁ k₂ live₁ live₂ n) (h' : KMem.Served k₂ k₃ live₂ live₃ n') :
    KMem.Served k₁ k₃ live₁ live₃ (n + n') :=
  ⟨h'.wellFormed, by rw [h'.used_eq, h.used_eq, Nat.add_assoc], h.region.trans h'.region⟩

/-- While a block is unused, a request of at most one block gets a fresh one. -/
theorem KMem.WellFormed.serves {k : KMem} {live : List Extent} (h : k.WellFormed live) (size : ℕ) (hsize : 1 ≤ size)
    (hle : size ≤ 4096) (hroom : Layout.used live < k.heap.total) :
    ∃ a k' live', Zhios.kzalloc k size = (a, k') ∧ a ≠ 0 ∧ k.FreshBlock k' live live' a size := by
  have hne := h.kzalloc_ne_zero hsize hle hroom
  obtain ⟨live', hfresh⟩ := h.kzalloc_block hsize hle hne
  exact ⟨_, _, live', rfl, hne, hfresh⟩

/-- With enough unused blocks some of them are next to each other. -/
theorem KMem.WellFormed.hasFreeRun {k : KMem} {live : List Extent} (h : k.WellFormed live) {n : ℕ}
    (hroom : n * (Layout.used live + 1) ≤ k.heap.total) : k.heap.HasFreeRun n := by
  obtain ⟨s, hs, hfree⟩ := Layout.exists_uncovered_run hroom
  refine ⟨s, hs, fun i hlo hhi => ?_⟩
  rw [Heap.FreeAt, h.tiling.free i (by omega) (by omega) (hfree i hlo hhi)]
  rfl

theorem KMem.WellFormed.serves_filled {k : KMem} {live : List Extent} (h : k.WellFormed live) {n : ℕ}
    (hn : k.heap.Filled n) (hlt : n < k.heap.total) (size : ℕ) (hsize : 1 ≤ size) (hle : size ≤ 4096) :
    ∃ a k' live', Zhios.kzalloc k size = (a, k') ∧ a ≠ 0 ∧ k.FreshBlock k' live live' a size ∧
      k'.heap.Filled (n + 1) := by
  have hne := h.kzalloc_ne_zero_of_free hsize hle hlt ((hn n hlt).mpr le_rfl)
  obtain ⟨live', hfresh⟩ := h.kzalloc_block hsize hle hne
  exact ⟨_, _, live', rfl, hne, hfresh, hfresh.filled n hn⟩

/-- While a block is unused, a request of at most one block is served. -/
theorem kzalloc_served {k : KMem} {live : List Extent} (h : k.WellFormed live) (size : ℕ) (hsize : 1 ≤ size)
    (hle : size ≤ 4096) (hroom : Layout.used live < k.heap.total) :
    (kzalloc k size).1 ≠ 0 ∧ ∃ live', KMem.Served k (kzalloc k size).2 live live' 1 := by
  obtain ⟨a, k', live', heq, hne, hfresh⟩ := h.serves size hsize hle hroom
  rw [heq]
  exact ⟨hne, live', hfresh.wellFormed, hfresh.used_eq, hfresh.region⟩

/-- A block that is given back at once leaves the heap as well formed as it was. -/
theorem KMem.WellFormed.kzalloc_kfree {k : KMem} {live : List Extent} (h : k.WellFormed live) (size : ℕ)
    (hsize : 1 ≤ size) (hle : size ≤ 4096) (hroom : Layout.used live < k.heap.total) :
    (Zhios.kfree (Zhios.kzalloc k size).2 (Zhios.kzalloc k size).1).WellFormed live ∧
      k.SameRegion (Zhios.kfree (Zhios.kzalloc k size).2 (Zhios.kzalloc k size).1) := by
  have hone : blocksFor size = 1 := by unfold blocksFor; omega
  have hrun : k.heap.HasFreeRun (blocksFor size) := by
    by_contra hno
    exact h.kzalloc_ne_zero hsize hle hroom (by rw [kzalloc_block_null hsize hle (by rwa [hone] at hno)])
  obtain ⟨s, hfree, -, heq, hwf⟩ := h.kzalloc hsize (by omega) hrun
  have hs : s < (Zhios.kzalloc k size).2.heap.total := by
    have := hfree.1
    simp only [heq, heapAllocateBlocks_total]
    omega
  have haddress : (Zhios.kzalloc k size).1 = (Zhios.kzalloc k size).2.heap.address s := by
    rw [hwf.address_eq hs]
    simp only [heq, heapAllocateBlocks_startAddress]
  rw [haddress]
  exact ⟨hwf.kfree, by simp [heq], by simp [heq]⟩

theorem KMem.Owns.kfree {k : KMem} {live : List Extent} {a : ℕ} (ho : k.Owns live a) (h : k.WellFormed live) :
    ∃ live', (Zhios.kfree k a).WellFormed live' ∧ Layout.used live' + 1 = Layout.used live ∧
      ∀ b, k.Owns live b → b ≠ a → (Zhios.kfree k a).Owns live' b := by
  obtain ⟨s, hs, ha⟩ := ho
  have hperm := List.perm_cons_erase hs
  obtain ⟨hlo, hhi⟩ := h.tiling.layout.inside _ hs
  obtain ⟨n, rfl⟩ : ∃ n : ℕ, s = n := ⟨s.toNat, by simp only at hlo; omega⟩
  have haddress : k.heap.address n = a := by
    rw [h.address_eq (by simp only at hhi; omega)]
    omega
  have hfreed := (h.perm hperm).kfree
  rw [haddress] at hfreed
  refine ⟨_, hfreed, ?_, fun b hb hne => ?_⟩
  · have hsum := (hperm.map Extent.length).sum_eq
    rw [List.map_cons, List.sum_cons] at hsum
    simp only [Layout.used, hsum]
    omega
  · obtain ⟨t, ht, hbt⟩ := hb
    refine ⟨t, (List.mem_erase_of_ne fun heq => hne ?_).mpr ht, by simpa using hbt⟩
    have := congrArg Extent.start heq
    simp only at this
    omega

theorem freshKernelHeap_wellFormed (mem : Mem) : KMem.WellFormed ⟨freshKernelHeap, mem⟩ [] := by
  have hfree : Tiling freshKernelHeap [] :=
    ⟨Layout.nil _, by simp, fun i _ _ _ => freshKernelHeap_entry i⟩
  exact ⟨hfree, by simp, by simp, by simp, by simp⟩

end Zhios
