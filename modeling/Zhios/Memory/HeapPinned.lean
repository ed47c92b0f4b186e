import Zhios.Memory.Kheap

/-! Blocks that stay taken. What a request or a release can do to the table is said
for every request, also for those no run can serve, and for every pointer; from it
follows that a block is lost to its owner only by a release of its own address. -/
namespace Zhios
open Machine

/-- The block goes on in the next one. -/
def Heap.GoesOn (heap : Heap) (i : ℤ) : Prop := heap.entry i &&& heapBlockHasNext ≠ 0

/-- What a request that returned a block has done: a region of free entries is
marked, as far as it lies in the table, and its last entry does not go on. -/
structure Heap.Marked (heap heap' : Heap) (s n : ℕ) : Prop where
  start_lt : s < heap.total
  start_free : heap.FreeAt s
  free : ∀ i : ℤ, s ≤ i → i < s + n → i < heap.total → heap.FreeAt i
  taken : ∀ i : ℤ, s ≤ i → i < s + n → ¬ heap'.FreeAt i
  last : ∀ i : ℤ, s ≤ i → i + 1 = s + n → ¬ heap'.GoesOn i
  frame : ∀ i : ℤ, i < s ∨ s + n ≤ i → heap'.entry i = heap.entry i

theorem heapScan_zero (heap : Heap) (fuel i count : ℕ) (start : ℤ) (h : i + fuel ≤ heap.total)
    (hcount : count ≤ i) :
    heapScan heap 0 fuel i count start = heapScan heap (heap.total + 1) fuel i count start := by
  induction fuel generalizing i count start with
  | zero => rfl
  | succ fuel ih =>
    simp only [heapScan]
    rw [ih (i + 1) 0 (-1) (by omega) (by omega), ih (i + 1) (count + 1) _ (by omega) (by omega),
      if_neg (show ¬ count + 1 = 0 by omega), if_neg (show ¬ count + 1 = heap.total + 1 by omega)]

/-- Wherever the scan starts a region, all of it that lies in the table is free. -/
theorem heapGetFreeBlock_free {heap : Heap} {n : ℕ} (h : 0 ≤ heapGetFreeBlock heap n) :
    ∃ s : ℕ, heapGetFreeBlock heap n = s ∧ s < heap.total ∧ heap.FreeAt s ∧
      (heap.FreeRun s n ∧ 1 ≤ n ∨ ∀ i : ℤ, s ≤ i → i < heap.total → heap.FreeAt i) := by
  obtain ⟨m, hm, heq, hmn⟩ : ∃ m, 1 ≤ m ∧ heapGetFreeBlock heap n = heapGetFreeBlock heap m ∧
      (m = n ∨ ¬ heap.HasFreeRun m) := by
    rcases Nat.eq_zero_or_pos n with rfl | hpos
    · refine ⟨heap.total + 1, by omega, ?_, Or.inr ?_⟩
      · simp only [heapGetFreeBlock, heapScan_zero heap heap.total 0 0 (-1) (by omega) le_rfl]
      · intro hrun
        obtain ⟨s, hs, -⟩ := hrun
        omega
    · exact ⟨n, hpos, rfl, Or.inl rfl⟩
  rw [heq] at h ⊢
  by_cases hrun : heap.HasFreeRun m
  · obtain ⟨s, hget, hfree, -⟩ := heapGetFreeBlock_of_run hm hrun
    have hle := hfree.1
    obtain rfl : m = n := hmn.resolve_right (not_not.mpr hrun)
    exact ⟨s, hget, by omega, hfree.2 s le_rfl (by omega), Or.inl ⟨hfree, hm⟩⟩
  · obtain ⟨c, ht, hget⟩ := heapGetFreeBlock_of_no_run hm hrun
    have hle := ht.le
    rw [hget] at h ⊢
    split_ifs at h ⊢ with hc
    · simp [EMEM] at h
    · refine ⟨heap.total - c, by omega, by omega, ht.free _ le_rfl (by omega), Or.inr fun i hlo hhi => ?_⟩
      have hi := ht.free i.toNat (by omega) (by omega)
      rwa [Int.toNat_of_nonneg (by omega)] at hi

/-- The marking loop with any count an `int` can hold. -/
theorem heapAllocateBlocks_marks (heap : Heap) (s : ℕ) (t : ℤ) (hs : s < 2 ^ 31) (hlo : -2 ^ 31 ≤ t)
    (hhi : t < 2 ^ 31) :
    ∃ n : ℕ, (∀ i : ℤ, s ≤ i → i < s + n → ¬ (heapAllocateBlocks heap s t).FreeAt i) ∧
      (∀ i : ℤ, s ≤ i → i + 1 = s + n → ¬ (heapAllocateBlocks heap s t).GoesOn i) ∧
      (∀ i : ℤ, i < s ∨ s + n ≤ i → (heapAllocateBlocks heap s t).entry i = heap.entry i) ∧
      (0 ≤ t → s + t < 2 ^ 31 → (n : ℤ) = t) := by
  obtain ⟨e, he⟩ : ∃ e, int32 (t + s - 1) = e := ⟨_, rfl⟩
  have hwrap : (e = t + s - 1 ∨ e = t + s - 1 + 2 ^ 32 ∨ e = t + s - 1 - 2 ^ 32) ∧
      -2 ^ 31 ≤ e ∧ e < 2 ^ 31 := by
    unfold int32 at he
    omega
  refine ⟨(e - s + 1).toNat, ?_⟩
  have hentry : ∀ i : ℤ, (heapAllocateBlocks heap s t).entry i =
      if (s : ℤ) ≤ i ∧ i < s + (e - s + 1).toNat then
        if i = s then
          if 1 < t then heapBlockTaken ||| heapBlockIsFirst ||| heapBlockHasNext
          else heapBlockTaken ||| heapBlockIsFirst
        else if i = e then heapBlockTaken else heapBlockTaken ||| heapBlockHasNext
      else heap.entry i := by
    intro i
    simp only [heapAllocateBlocks, he]
    rcases Nat.eq_zero_or_pos (e - s + 1).toNat with h0 | hpos
    · rw [h0, heapAllocateLoop, if_neg (by omega)]
    · rw [heapAllocateLoop_entry _ _ _ _ _ (by omega)]
  refine ⟨fun i hi hlt => ?_, fun i hi hlast => ?_, fun i hi => ?_, fun h0 hlt => ?_⟩
  · rw [Heap.FreeAt, hentry, if_pos ⟨hi, hlt⟩]
    split_ifs <;> decide
  · have hie : i = e := by omega
    rw [Heap.GoesOn, hentry, if_pos ⟨hi, by omega⟩]
    rcases eq_or_ne i s with hfirst | hnot
    · rw [if_pos hfirst, if_neg (show ¬ 1 < t by omega)]
      decide
    · rw [if_neg hnot, if_pos hie]
      decide
  · rw [hentry, if_neg (by omega)]
  · omega

/-- What any request does to the table. -/
theorem heapMalloc_cases (heap : Heap) (size : ℕ) (htotal : heap.total ≤ 2 ^ 19) :
    heapMalloc heap size = (0, heap) ∨
      ∃ s n : ℕ, (heapMalloc heap size).1 = heap.address s ∧ heap.Marked (heapMalloc heap size).2 s n ∧
        (blocksFor size < 2 ^ 20 → n = blocksFor size) := by
  set m := heapAlignSize size / zhiosHeapBlockSize with hm
  rcases lt_or_ge (heapGetFreeBlock heap m) 0 with hneg | hpos
  · exact Or.inl (by simp only [heapMalloc, heapMallocBlocks, ← hm, if_pos hneg])
  right
  obtain ⟨s, hget, hs, hstart, hregion⟩ := heapGetFreeBlock_free hpos
  have hres : heapMalloc heap size = (heap.address s, heapAllocateBlocks heap s (int32 m)) := by
    simp only [heapMalloc, heapMallocBlocks, ← hm, hget, Heap.address]
    rw [if_neg (by omega)]
  have hint : -2 ^ 31 ≤ int32 m ∧ int32 m < 2 ^ 31 := by
    unfold int32
    omega
  obtain ⟨n, htaken, hlast, hframe, hn⟩ :=
    heapAllocateBlocks_marks heap s (int32 m) (by omega) hint.1 hint.2
  rw [hres]
  refine ⟨s, n, rfl, ⟨hs, hstart, fun i hlo hhi hlt => ?_, htaken, hlast, hframe⟩, fun hblocks => ?_⟩
  · rcases hregion with ⟨hrun, hm1⟩ | htrail
    · have hle := hrun.1
      have hmint : int32 m = m := int32_of_bounds (by omega) (by omega)
      have hnm : (n : ℤ) = m := by rw [hn (by omega) (by omega), hmint]
      have hi := hrun.2 i.toNat (by omega) (by omega)
      rwa [Int.toNat_of_nonneg (by omega)] at hi
    · exact htrail i hlo hlt
  · have hmb : m = blocksFor size := by
      unfold blocksFor at hblocks ⊢
      rw [hm]
      unfold heapAlignSize zhiosHeapBlockSize uint32
      dsimp only
      split_ifs <;> omega
    have hmint : int32 m = m := int32_of_bounds (by omega) (by omega)
    have hnm := hn (by omega) (by omega)
    omega

/-- What a release does to the table: it clears entries from its block on as long
as they go on. -/
theorem heapFreeLoop_cases (fuel : ℕ) (i : ℤ) (heap : Heap) :
    ∃ n : ℕ, (∀ j, (heapFreeLoop fuel i heap).entry j =
        if i ≤ j ∧ j < i + n then heapBlockFree else heap.entry j) ∧
      (∀ j, i ≤ j → j + 1 < i + n → heap.GoesOn j) ∧ (0 < fuel → i < int32 heap.total → 0 < n) := by
  induction fuel generalizing i heap with
  | zero => exact ⟨0, fun j => by rw [if_neg (by omega)]; rfl, by omega, by omega⟩
  | succ fuel ih =>
    rw [heapFreeLoop]
    split_ifs with hin hlast
    · refine ⟨1, fun j => ?_, by omega, by omega⟩
      rw [Heap.setEntry_entry]
      split_ifs <;> first | rfl | omega
    · obtain ⟨n, hentry, hgoes, -⟩ := ih (i + 1) (heap.setEntry i heapBlockFree)
      refine ⟨n + 1, fun j => ?_, fun j hlo hhi => ?_, by omega⟩
      · rw [hentry, Heap.setEntry_entry]
        push_cast
        split_ifs <;> first | rfl | omega
      · rcases hlo.eq_or_lt with rfl | hlt
        · exact hlast
        · have := hgoes j (by omega) (by push_cast at hhi; omega)
          rwa [Heap.GoesOn, Heap.setEntry_entry, if_neg (by omega)] at this
    · exact ⟨0, fun j => by rw [if_neg (by omega)], by omega, fun _ h => absurd h hin⟩

theorem heapFree_cases (heap : Heap) (ptr : ℕ) :
    ∃ n : ℕ, (∀ j, (heapFree heap ptr).entry j =
        if addressToHeapBlock heap ptr ≤ j ∧ j < addressToHeapBlock heap ptr + n then heapBlockFree
        else heap.entry j) ∧
      ∀ j, addressToHeapBlock heap ptr ≤ j → j + 1 < addressToHeapBlock heap ptr + n → heap.GoesOn j := by
  obtain ⟨n, hentry, hgoes, -⟩ := heapFreeLoop_cases
    ((addressToHeapBlock heap ptr).natAbs + heap.total) (addressToHeapBlock heap ptr) heap
  exact ⟨n, hentry, hgoes⟩

/-- The block is taken, and the one before it does not go on into it. -/
structure Heap.Pinned (heap : Heap) (b : ℕ) : Prop where
  lt : b < heap.total
  taken : ¬ heap.FreeAt b
  apart : 0 < b → ¬ heap.GoesOn (b - 1)

/-- No entry goes on into a free one. -/
def Heap.Apart (heap : Heap) : Prop :=
  ∀ b : ℕ, 0 < b → b < heap.total → heap.FreeAt b → ¬ heap.GoesOn (b - 1)

/-- A block goes on only inside its own extent. -/
theorem Tiling.goesOn {heap : Heap} {live : List Extent} (h : Tiling heap live) {b : ℕ} (hpos : 0 < b)
    (hlt : b < heap.total) (hgoes : heap.GoesOn (b - 1)) : ∃ e ∈ live, (b : ℤ) - 1 ∈ e ∧ (b : ℤ) ∈ e := by
  by_cases hcovered : ∃ e ∈ live, (b : ℤ) - 1 ∈ e
  · obtain ⟨e, he, hmem⟩ := hcovered
    obtain ⟨hlo, hhi⟩ := Extent.mem_iff.mp hmem
    rw [Heap.GoesOn, h.marked e he _ hmem, ne_eq, blockFlags_hasNext] at hgoes
    exact ⟨e, he, hmem, Extent.mem_iff.mpr ⟨by omega, by omega⟩⟩
  · push Not at hcovered
    rw [Heap.GoesOn, h.free _ (by omega) (by omega) hcovered] at hgoes
    exact absurd rfl hgoes

theorem Tiling.apart {heap : Heap} {live : List Extent} (h : Tiling heap live) : heap.Apart := by
  intro b hpos hlt hfree hgoes
  obtain ⟨e, he, -, hmem⟩ := h.goesOn hpos hlt hgoes
  exact h.not_mem_of_free he hfree hmem

theorem Tiling.start_pinned {heap : Heap} {live : List Extent} (h : Tiling heap live) {e : Extent} (he : e ∈ live)
    {b : ℕ} (hb : e.start = b) : heap.Pinned b := by
  have hcell := h.layout.start_mem he
  rw [hb] at hcell
  have hinside := (h.layout.inside e he).2
  have hpos := h.layout.pos e he
  constructor
  · omega
  · exact fun hfree => h.not_mem_of_free he hfree hcell
  · intro hb' hgoes
    obtain ⟨f, hf, hbefore, hmem⟩ := h.goesOn hb' (by omega) hgoes
    obtain rfl := h.layout.owner_unique he hf hcell hmem
    rw [Extent.mem_iff] at hbefore
    omega

namespace Heap.Marked
variable {heap heap' : Heap} {s n b : ℕ}

theorem pinned (h : heap.Marked heap' s n) (htotal : heap'.total = heap.total) (hb : heap.Pinned b) :
    heap'.Pinned b := by
  have hlt := hb.lt
  have hout : (b : ℤ) < s ∨ (s : ℤ) + n ≤ b := by
    by_contra hin
    exact hb.taken (h.free b (by omega) (by omega) (by omega))
  constructor
  · rwa [htotal]
  · rw [Heap.FreeAt, h.frame b hout]
    exact hb.taken
  · intro hpos
    by_cases hbefore : (b : ℤ) - 1 < s ∨ (s : ℤ) + n ≤ b - 1
    · rw [Heap.GoesOn, h.frame _ hbefore]
      exact hb.apart hpos
    · exact h.last _ (by omega) (by omega)

theorem apart (h : heap.Marked heap' s n) (htotal : heap'.total = heap.total) (ha : heap.Apart) :
    heap'.Apart := by
  intro b hpos hlt hfree
  rw [htotal] at hlt
  have hout : (b : ℤ) < s ∨ (s : ℤ) + n ≤ b := by
    by_contra hin
    exact h.taken b (by omega) (by omega) hfree
  rw [Heap.FreeAt, h.frame b hout] at hfree
  by_cases hbefore : (b : ℤ) - 1 < s ∨ (s : ℤ) + n ≤ b - 1
  · rw [Heap.GoesOn, h.frame _ hbefore]
    exact ha b hpos hlt hfree
  · exact h.last _ (by omega) (by omega)

theorem start_pinned (h : heap.Marked heap' s n) (htotal : heap'.total = heap.total) (ha : heap.Apart)
    (hn : 0 < n) : heap'.Pinned s := by
  constructor
  · rw [htotal]
    exact h.start_lt
  · exact h.taken s le_rfl (by omega)
  · intro hpos
    rw [Heap.GoesOn, h.frame _ (Or.inl (by omega))]
    exact ha s hpos h.start_lt h.start_free

end Heap.Marked

section
variable {heap : Heap} {ptr b : ℕ}

/-- A release keeps every block but its own. A pointer below the heap has to get
past the front of the table first. -/
theorem Heap.Pinned.heapFree (hb : heap.Pinned b) (hne : addressToHeapBlock heap ptr ≠ b)
    (hfront : 0 ≤ addressToHeapBlock heap ptr ∨ 0 < b) : (heapFree heap ptr).Pinned b := by
  obtain ⟨n, hentry, hgoes⟩ := heapFree_cases heap ptr
  have hout : ¬ (addressToHeapBlock heap ptr ≤ b ∧ (b : ℤ) < addressToHeapBlock heap ptr + n) := by
    intro hin
    exact hb.apart (by omega) (hgoes _ (by omega) (by omega))
  constructor
  · rw [heapFree_total]
    exact hb.lt
  · rw [Heap.FreeAt, hentry, if_neg hout]
    exact hb.taken
  · intro hpos
    rw [Heap.GoesOn, hentry]
    split_ifs
    · decide
    · exact hb.apart hpos

/-- A release that starts where an allocation may start leaves no loose end. -/
theorem Heap.Apart.heapFree (ha : heap.Apart)
    (hstart : addressToHeapBlock heap ptr ≤ 0 ∨
      ¬ heap.GoesOn (addressToHeapBlock heap ptr - 1)) : (heapFree heap ptr).Apart := by
  obtain ⟨n, hentry, hgoes⟩ := heapFree_cases heap ptr
  intro b hpos hlt hfree
  rw [heapFree_total] at hlt
  rw [Heap.GoesOn, hentry]
  split_ifs with hbefore
  · decide
  · by_cases hin : addressToHeapBlock heap ptr ≤ b ∧ (b : ℤ) < addressToHeapBlock heap ptr + n
    · obtain heq : addressToHeapBlock heap ptr = b := by omega
      rw [heq] at hstart
      exact hstart.resolve_left (by omega)
    · rw [Heap.FreeAt, hentry, if_neg hin] at hfree
      exact ha b hpos hlt hfree

end

/-- The kernel heap between two calls: a region as `kheap_init` creates it, and a
table whose taken runs do not reach into free ones. -/
structure KMem.Coherent (k : KMem) : Prop where
  total_le : k.heap.total ≤ 2 ^ 19
  start_pos : 0 < k.heap.startAddress
  fits : k.heap.startAddress + 4096 * k.heap.total ≤ 2 ^ 32
  apart : k.heap.Apart

def KMem.blockAddress (k : KMem) (b : ℕ) : ℕ := k.heap.startAddress + 4096 * b

/-- The pointer belongs to an allocation that nobody has released. -/
def KMem.Held (k : KMem) (ptr : ℕ) : Prop := ∃ b, ptr = k.blockAddress b ∧ k.heap.Pinned b

/-- An allocation may start at the pointer. -/
def KMem.Boundary (k : KMem) (ptr : ℕ) : Prop :=
  ∃ b, ptr = k.blockAddress b ∧ b < k.heap.total ∧ (0 < b → ¬ k.heap.GoesOn (b - 1))

theorem KMem.Held.boundary {k : KMem} {p : ℕ} (hp : k.Held p) : k.Boundary p := by
  obtain ⟨b, rfl, hb⟩ := hp
  exact ⟨b, rfl, hb.lt, hb.apart⟩

theorem KMem.WellFormed.coherent {k : KMem} {live : List Extent} (h : k.WellFormed live) : k.Coherent :=
  ⟨h.total_le, h.start_pos, h.fits, h.tiling.apart⟩

theorem KMem.SameRegion.refl (k : KMem) : k.SameRegion k := ⟨rfl, rfl⟩

theorem KMem.SameRegion.blockAddress {k k' : KMem} (h : k.SameRegion k') (b : ℕ) :
    k'.blockAddress b = k.blockAddress b := by
  rw [KMem.blockAddress, h.start_eq, KMem.blockAddress]

theorem heapMalloc_startAddress (heap : Heap) (size : ℕ) :
    (heapMalloc heap size).2.startAddress = heap.startAddress := by
  simp only [heapMalloc, heapMallocBlocks]
  split_ifs <;> simp

theorem kzalloc_heap (k : KMem) (size : ℕ) : (kzalloc k size).2.heap = (heapMalloc k.heap size).2 := by
  by_cases h : (heapMalloc k.heap size).1 = 0 <;> simp [kzalloc, kmalloc, h]

theorem kzalloc_fst (k : KMem) (size : ℕ) : (kzalloc k size).1 = (heapMalloc k.heap size).1 := by
  by_cases h : (heapMalloc k.heap size).1 = 0 <;> simp [kzalloc, kmalloc, h]

theorem kzalloc_region (k : KMem) (size : ℕ) : k.SameRegion (kzalloc k size).2 := by
  constructor
  · rw [kzalloc_heap, heapMalloc_total]
  · rw [kzalloc_heap, heapMalloc_startAddress]

theorem kfree_region (k : KMem) (ptr : ℕ) : k.SameRegion (kfree k ptr) := by
  constructor
  · rw [kfree_heap, heapFree_total]
  · rw [kfree_heap, heapFree_startAddress]

theorem KMem.WellFormed.kfree_all {k : KMem} {live : List Extent} (h : k.WellFormed live) (ptrs : List ℕ)
    (hnodup : ptrs.Nodup) (howned : ∀ p ∈ ptrs, k.Owns live p) :
    ∃ live', (ptrs.foldl Zhios.kfree k).WellFormed live' ∧ Layout.used live' + ptrs.length = Layout.used live ∧
      k.SameRegion (ptrs.foldl Zhios.kfree k) ∧
      ∀ b, k.Owns live b → b ∉ ptrs → (ptrs.foldl Zhios.kfree k).Owns live' b := by
  induction ptrs generalizing k live with
  | nil => exact ⟨live, h, rfl, .refl k, fun b hb _ => hb⟩
  | cons p ptrs ih =>
    obtain ⟨hp, hnodup⟩ := List.nodup_cons.mp hnodup
    obtain ⟨live₁, h₁, hused₁, howned₁⟩ := (howned p List.mem_cons_self).kfree h
    obtain ⟨live', h', hused', hregion, howned'⟩ := ih h₁ hnodup fun q hq =>
      howned₁ q (howned q (List.mem_cons_of_mem _ hq)) fun heq => hp (heq ▸ hq)
    refine ⟨live', h', by rw [List.length_cons]; omega, (kfree_region k p).trans hregion, fun b hb hnot => ?_⟩
    rw [List.mem_cons, not_or] at hnot
    exact howned' b (howned₁ b hb hnot.1) hnot.2

namespace KMem.Coherent
variable {k : KMem} {b size : ℕ}

theorem address_eq (h : k.Coherent) (hb : b < k.heap.total) : k.heap.address b = k.blockAddress b := by
  have hfits := h.fits
  have hoff : (getOffset b : ℤ) = 4096 * b := by
    unfold getOffset zhiosHeapBlockSize
    exact uint32_of_bounds (by positivity) (by push_cast; omega)
  have haddr : (k.heap.address b : ℤ) = k.heap.startAddress + getOffset b :=
    uint32_of_bounds (by positivity) (by omega)
  unfold KMem.blockAddress
  omega

theorem block_eq (h : k.Coherent) (hb : b < k.heap.total) :
    addressToHeapBlock k.heap (k.blockAddress b) = b := by
  have htotal := h.total_le
  rw [← h.address_eq hb]
  exact addressToHeapBlock_address k.heap (by omega) (by omega)

theorem kzalloc_cases (h : k.Coherent) (size : ℕ) :
    ((kzalloc k size).1 = 0 ∧ (kzalloc k size).2 = k) ∨
      ∃ s n, (kzalloc k size).1 = k.blockAddress s ∧ k.heap.Marked (kzalloc k size).2.heap s n ∧
        (kzalloc k size).2.mem = fill k.mem (k.blockAddress s) size 0 ∧
        (blocksFor size < 2 ^ 20 → n = blocksFor size) := by
  rcases heapMalloc_cases k.heap size h.total_le with hnull | ⟨s, n, haddr, hmarked, hn⟩
  · exact Or.inl (by simp only [kzalloc, kmalloc, hnull, if_true, and_self])
  · right
    have hpos := h.start_pos
    rw [h.address_eq hmarked.start_lt] at haddr
    refine ⟨s, n, by rw [kzalloc_fst, haddr], by rwa [kzalloc_heap], ?_, hn⟩
    simp only [kzalloc, kmalloc, haddr]
    rw [if_neg (by unfold KMem.blockAddress; omega)]

/-- What is handed out starts a page, or is null. -/
theorem kzalloc_aligned (h : k.Coherent) (haligned : k.heap.startAddress % 4096 = 0) (size : ℕ) :
    (Zhios.kzalloc k size).1 % 4096 = 0 := by
  rcases h.kzalloc_cases size with ⟨hnull, -⟩ | ⟨b, n, hptr, -⟩
  · rw [hnull]
  · rw [hptr, KMem.blockAddress]
    omega

theorem kzalloc (h : k.Coherent) (size : ℕ) : (Zhios.kzalloc k size).2.Coherent := by
  obtain ⟨htotal, hstart⟩ := kzalloc_region k size
  refine ⟨by rw [htotal]; exact h.total_le, by rw [hstart]; exact h.start_pos,
    by rw [htotal, hstart]; exact h.fits, ?_⟩
  rcases h.kzalloc_cases size with ⟨-, hsame⟩ | ⟨s, n, -, hmarked, -⟩
  · rw [hsame]
    exact h.apart
  · exact hmarked.apart htotal h.apart

theorem withMem (h : k.Coherent) (m : Mem) : KMem.Coherent { k with mem := m } :=
  ⟨h.total_le, h.start_pos, h.fits, h.apart⟩

end KMem.Coherent

namespace KMem.Held
variable {k : KMem} {p q : ℕ}

theorem ne_zero (hp : k.Held p) (h : k.Coherent) : p ≠ 0 := by
  obtain ⟨b, rfl, -⟩ := hp
  have hpos := h.start_pos
  unfold KMem.blockAddress
  omega

theorem kzalloc (hp : k.Held p) (h : k.Coherent) (size : ℕ) : (Zhios.kzalloc k size).2.Held p := by
  obtain ⟨b, rfl, hb⟩ := hp
  have hregion := kzalloc_region k size
  refine ⟨b, (hregion.blockAddress b).symm, ?_⟩
  rcases h.kzalloc_cases size with ⟨-, hsame⟩ | ⟨s, n, -, hmarked, -⟩
  · rwa [hsame]
  · exact hmarked.pinned hregion.total_eq hb

theorem ne_kzalloc (hp : k.Held p) (h : k.Coherent) (size : ℕ) : (Zhios.kzalloc k size).1 ≠ p := by
  rcases h.kzalloc_cases size with ⟨hnull, -⟩ | ⟨s, n, hptr, hmarked, -⟩
  · rw [hnull]
    exact (hp.ne_zero h).symm
  · obtain ⟨b, rfl, hb⟩ := hp
    rw [hptr]
    intro heq
    obtain rfl : s = b := by
      unfold KMem.blockAddress at heq
      omega
    exact hb.taken hmarked.start_free

/-- Only its own release ends an allocation. -/
theorem kfree (hp : k.Held p) (h : k.Coherent) (hq : k.Boundary q) (hne : q ≠ p) :
    (Zhios.kfree k q).Held p := by
  obtain ⟨b, rfl, hb⟩ := hp
  obtain ⟨c, rfl, hlt, -⟩ := hq
  refine ⟨b, ((kfree_region k _).blockAddress b).symm, ?_⟩
  have hblock := h.block_eq hlt
  apply hb.heapFree
  · rw [hblock]
    intro heq
    exact hne (by rw [Int.ofNat.inj heq])
  · exact Or.inl (by omega)

theorem withMem (hp : k.Held p) (m : Mem) : KMem.Held { k with mem := m } p := hp

end KMem.Held

theorem KMem.Coherent.held_kzalloc {k : KMem} {size : ℕ} (h : k.Coherent) (hsize : 1 ≤ size)
    (hblocks : blocksFor size < 2 ^ 20) (hne : (Zhios.kzalloc k size).1 ≠ 0) :
    (Zhios.kzalloc k size).2.Held (Zhios.kzalloc k size).1 := by
  have hregion := kzalloc_region k size
  rcases h.kzalloc_cases size with ⟨hnull, -⟩ | ⟨s, n, hptr, hmarked, -, hn⟩
  · exact absurd hnull hne
  · refine ⟨s, by rw [hptr, hregion.blockAddress], hmarked.start_pinned hregion.total_eq h.apart ?_⟩
    rw [hn hblocks]
    unfold blocksFor
    omega

/-- Whatever is returned, also for a request of no bytes at all. -/
theorem KMem.Coherent.boundary_kzalloc {k : KMem} {size : ℕ} (h : k.Coherent)
    (hne : (Zhios.kzalloc k size).1 ≠ 0) : (Zhios.kzalloc k size).2.Boundary (Zhios.kzalloc k size).1 := by
  have hregion := kzalloc_region k size
  rcases h.kzalloc_cases size with ⟨hnull, -⟩ | ⟨s, n, hptr, hmarked, -⟩
  · exact absurd hnull hne
  · refine ⟨s, by rw [hptr, hregion.blockAddress], by rw [hregion.total_eq]; exact hmarked.start_lt,
      fun hpos => ?_⟩
    rw [Heap.GoesOn, hmarked.frame _ (Or.inl (by omega))]
    exact h.apart s hpos hmarked.start_lt hmarked.start_free

theorem KMem.Coherent.kfree {k : KMem} {p : ℕ} (h : k.Coherent) (hp : k.Boundary p) :
    (Zhios.kfree k p).Coherent := by
  obtain ⟨htotal, hstart⟩ := kfree_region k p
  refine ⟨by rw [htotal]; exact h.total_le, by rw [hstart]; exact h.start_pos,
    by rw [htotal, hstart]; exact h.fits, ?_⟩
  obtain ⟨b, rfl, hlt, hapart⟩ := hp
  apply h.apart.heapFree
  rw [h.block_eq hlt]
  rcases Nat.eq_zero_or_pos b with rfl | hpos
  · exact Or.inl le_rfl
  · exact Or.inr (hapart hpos)

theorem KMem.Owns.held {k : KMem} {live : List Extent} {a : ℕ} (ho : k.Owns live a) (h : k.WellFormed live) :
    k.Held a := by
  obtain ⟨s, hs, ha⟩ := ho
  have hlo := (h.tiling.layout.inside _ hs).1
  obtain ⟨b, rfl⟩ : ∃ b : ℕ, s = b := ⟨s.toNat, by simp only at hlo; omega⟩
  refine ⟨b, ?_, h.tiling.start_pinned hs rfl⟩
  unfold KMem.blockAddress
  omega

/-- A block of the heap that nobody has. -/
def KMem.Unused (k : KMem) (a : ℕ) : Prop := ∃ b : ℕ, a = k.blockAddress b ∧ b < k.heap.total ∧ k.heap.FreeAt b

/-- The `n` bytes from `a` on lie in no unused block: they are allocated, or they are not
the heap's. -/
def KMem.OutsideFree (k : KMem) (a n : ℕ) : Prop := ∀ b, k.Unused b → a + n ≤ b ∨ b + 4096 ≤ a

theorem KMem.Coherent.unused_kzalloc {k : KMem} {size : ℕ} (h : k.Coherent) (hne : (Zhios.kzalloc k size).1 ≠ 0) :
    k.Unused (Zhios.kzalloc k size).1 := by
  rcases h.kzalloc_cases size with ⟨hnull, -⟩ | ⟨s, n, hptr, hmarked, -⟩
  · exact absurd hnull hne
  · exact ⟨s, hptr, hmarked.start_lt, hmarked.start_free⟩

theorem KMem.Unused.apart {k : KMem} {a b : ℕ} (ha : k.Unused a) (hb : k.Unused b) (hne : a ≠ b) :
    a + 4096 ≤ b ∨ b + 4096 ≤ a := by
  obtain ⟨i, rfl, -⟩ := ha
  obtain ⟨j, rfl, -⟩ := hb
  unfold KMem.blockAddress at hne ⊢
  omega

theorem KMem.Held.outsideFree {k : KMem} {a : ℕ} (h : k.Held a) : k.OutsideFree a 4096 := by
  intro b hb
  obtain ⟨i, rfl, hi⟩ := h
  obtain ⟨j, rfl, -, hfree⟩ := hb
  have hne : i ≠ j := fun heq => hi.taken (heq ▸ hfree)
  unfold KMem.blockAddress
  omega

theorem KMem.Unused.fits {k : KMem} {a : ℕ} (ha : k.Unused a) (h : k.Coherent) : a + 4096 ≤ 2 ^ 32 := by
  obtain ⟨i, rfl, hi, -⟩ := ha
  have hfits := h.fits
  unfold KMem.blockAddress
  omega

theorem KMem.Coherent.unused_of_kzalloc {k : KMem} {size a : ℕ} (h : k.Coherent)
    (ha : (Zhios.kzalloc k size).2.Unused a) : k.Unused a := by
  obtain ⟨b, rfl, hlt, hfree⟩ := ha
  have hregion := kzalloc_region k size
  refine ⟨b, hregion.blockAddress b, hregion.total_eq ▸ hlt, ?_⟩
  rcases h.kzalloc_cases size with ⟨-, hsame⟩ | ⟨s, n, -, hmarked, -⟩
  · rwa [hsame] at hfree
  · by_cases hin : (s : ℤ) ≤ b ∧ (b : ℤ) < s + n
    · exact absurd hfree (hmarked.taken b hin.1 hin.2)
    · rwa [Heap.FreeAt, hmarked.frame b (by omega)] at hfree

/-- `k'` comes from `k` by calls that released nothing `k` held. -/
structure KMem.Keeps (k k' : KMem) : Prop where
  coherent : k'.Coherent
  region : k.SameRegion k'
  held : ∀ p, k.Held p → k'.Held p

namespace KMem.Keeps
variable {k k' k'' : KMem} {p size : ℕ}

theorem refl (h : k.Coherent) : k.Keeps k := ⟨h, .refl k, fun _ hp => hp⟩

theorem trans (h : k.Keeps k') (h' : k'.Keeps k'') : k.Keeps k'' :=
  ⟨h'.coherent, h.region.trans h'.region, fun p hp => h'.held p (h.held p hp)⟩

theorem kzalloc (h : k.Keeps k') (size : ℕ) : k.Keeps (Zhios.kzalloc k' size).2 :=
  ⟨h.coherent.kzalloc size, h.region.trans (kzalloc_region k' size),
    fun p hp => (h.held p hp).kzalloc h.coherent size⟩

theorem not_held (h : k.Keeps k') (size : ℕ) : ¬ k.Held (Zhios.kzalloc k' size).1 :=
  fun hp => (h.held _ hp).ne_kzalloc h.coherent size rfl

/-- Giving back what was allocated since. -/
theorem kfree (h : k.Keeps k') (hp : k'.Boundary p) (hnew : ¬ k.Held p) : k.Keeps (Zhios.kfree k' p) :=
  ⟨h.coherent.kfree hp, h.region.trans (kfree_region k' p), fun q hq =>
    (h.held q hq).kfree h.coherent hp fun heq => hnew (heq ▸ hq)⟩

theorem withMem (h : k.Keeps k') (m : Mem) : k.Keeps { k' with mem := m } :=
  ⟨h.coherent.withMem m, ⟨h.region.total_eq, h.region.start_eq⟩, h.held⟩

end KMem.Keeps

/-- The pointers are different allocations made since `k` and not released. -/
structure KMem.Fresh (k k' : KMem) (ptrs : List ℕ) : Prop where
  keeps : k.Keeps k'
  nodup : ptrs.Nodup
  held : ∀ p ∈ ptrs, k'.Held p
  fresh : ∀ p ∈ ptrs, ¬ k.Held p

namespace KMem.Fresh
variable {k k' k'' : KMem} {ptrs : List ℕ}

theorem nil (h : k.Keeps k') : k.Fresh k' [] := ⟨h, List.nodup_nil, by simp, by simp⟩

theorem kzalloc (h : k.Fresh k' ptrs) (size : ℕ) (hsize : 1 ≤ size) (hblocks : blocksFor size < 2 ^ 20)
    (hne : (Zhios.kzalloc k' size).1 ≠ 0) :
    k.Fresh (Zhios.kzalloc k' size).2 ((Zhios.kzalloc k' size).1 :: ptrs) := by
  have hcoherent := h.keeps.coherent
  constructor
  · exact h.keeps.kzalloc size
  · refine List.nodup_cons.mpr ⟨fun hmem => ?_, h.nodup⟩
    exact (h.held _ hmem).ne_kzalloc hcoherent size rfl
  · refine List.forall_mem_cons.mpr ⟨hcoherent.held_kzalloc hsize hblocks hne, fun p hp => ?_⟩
    exact (h.held p hp).kzalloc hcoherent size
  · exact List.forall_mem_cons.mpr ⟨h.keeps.not_held size, h.fresh⟩

theorem trans (h : k.Fresh k' ptrs) (h' : k'.Keeps k'') : k.Fresh k'' ptrs :=
  ⟨h.keeps.trans h', h.nodup, fun p hp => h'.held p (h.held p hp), h.fresh⟩

theorem append {more : List ℕ} (h : k.Fresh k' ptrs) (h' : k'.Fresh k'' more) :
    k.Fresh k'' (more ++ ptrs) := by
  constructor
  · exact h.keeps.trans h'.keeps
  · refine List.nodup_append.mpr ⟨h'.nodup, h.nodup, fun p hp q hq heq => ?_⟩
    exact h'.fresh p hp (heq ▸ h.held q hq)
  · intro p hp
    rcases List.mem_append.mp hp with hnew | hold
    · exact h'.held p hnew
    · exact h'.keeps.held p (h.held p hold)
  · intro p hp
    rcases List.mem_append.mp hp with hnew | hold
    · exact fun hheld => h'.fresh p hnew (h.keeps.held p hheld)
    · exact h.fresh p hold

end KMem.Fresh

/-- Releasing different live allocations, one after the other, keeps the others. -/
theorem KMem.Coherent.kfree_all {k : KMem} (h : k.Coherent) (ptrs : List ℕ) (hnodup : ptrs.Nodup)
    (hheld : ∀ p ∈ ptrs, k.Held p) :
    (ptrs.foldl Zhios.kfree k).Coherent ∧ k.SameRegion (ptrs.foldl Zhios.kfree k) ∧
      ∀ p, k.Held p → p ∉ ptrs → (ptrs.foldl Zhios.kfree k).Held p := by
  induction ptrs generalizing k with
  | nil => exact ⟨h, .refl k, fun p hp _ => hp⟩
  | cons q ptrs ih =>
    obtain ⟨hq, hnodup⟩ := List.nodup_cons.mp hnodup
    obtain ⟨hqheld, hrest⟩ := List.forall_mem_cons.mp hheld
    have hboundary := hqheld.boundary
    have hafter : ∀ p, k.Held p → p ≠ q → (Zhios.kfree k q).Held p :=
      fun p hp hne => hp.kfree h hboundary hne.symm
    obtain ⟨hcoherent, hregion, hkept⟩ := ih (h.kfree hboundary) hnodup
      fun p hp => hafter p (hrest p hp) fun heq => hq (heq ▸ hp)
    refine ⟨hcoherent, (kfree_region k q).trans hregion, fun p hp hmem => ?_⟩
    rw [List.mem_cons, not_or] at hmem
    exact hkept p (hafter p hp hmem.1) hmem.2

theorem KMem.Fresh.release {k k' : KMem} {gone kept : List ℕ} (h : k.Fresh k' (gone ++ kept)) :
    k.Fresh (gone.foldl Zhios.kfree k') kept := by
  obtain ⟨hgone, hkept, hapart⟩ := List.nodup_append.mp h.nodup
  obtain ⟨hcoherent, hregion, hheld⟩ := h.keeps.coherent.kfree_all gone hgone
    fun p hp => h.held p (List.mem_append_left _ hp)
  constructor
  · refine ⟨hcoherent, h.keeps.region.trans hregion, fun p hp => hheld p (h.keeps.held p hp) fun hmem => ?_⟩
    exact h.fresh p (List.mem_append_left _ hmem) hp
  · exact hkept
  · intro p hp
    exact hheld p (h.held p (List.mem_append_right _ hp)) fun hmem => hapart p hmem p hp rfl
  · exact fun p hp => h.fresh p (List.mem_append_right _ hp)

/-- The null pointer is in no block of a page-aligned heap. -/
theorem KMem.Coherent.null_outside {k : KMem} (h : k.Coherent) (haligned : k.heap.startAddress % 4096 = 0) :
    addressToHeapBlock k.heap 0 < 0 ∨ (k.heap.total : ℤ) ≤ addressToHeapBlock k.heap 0 := by
  have htotal := h.total_le
  have hpos := h.start_pos
  have hfits := h.fits
  unfold addressToHeapBlock zhiosHeapBlockSize
  obtain ⟨s, hs⟩ : ∃ s : ℕ, k.heap.startAddress = 4096 * s := ⟨k.heap.startAddress / 4096, by omega⟩
  rcases le_or_gt k.heap.startAddress (2 ^ 31) with hlow | hhigh
  · have hdiff : int32 (((0 : ℕ) : ℤ) - k.heap.startAddress) = 4096 * (-(s : ℤ)) := by
      rw [int32_of_bounds] <;> omega
    have hdiv : (4096 * (-(s : ℤ))).tdiv ((4096 : ℕ) : ℤ) = -(s : ℤ) := Int.mul_tdiv_cancel_left _ (by decide)
    rw [hdiff]
    omega
  · have hdiff : int32 (((0 : ℕ) : ℤ) - k.heap.startAddress) = 4096 * (2 ^ 20 - (s : ℤ)) := by
      unfold int32
      omega
    have hdiv : (4096 * (2 ^ 20 - (s : ℤ))).tdiv ((4096 : ℕ) : ℤ) = 2 ^ 20 - (s : ℤ) :=
      Int.mul_tdiv_cancel_left _ (by decide)
    rw [hdiff]
    omega

theorem KMem.blockAddress_injective (k : KMem) : Function.Injective k.blockAddress := by
  intro b c heq
  unfold KMem.blockAddress at heq
  omega

theorem KMem.Held.pinned {k : KMem} {b : ℕ} (h : k.Held (k.blockAddress b)) : k.heap.Pinned b := by
  obtain ⟨c, heq, hc⟩ := h
  rwa [k.blockAddress_injective heq]

theorem KMem.Held.not_freeAt {k : KMem} {b : ℕ} (h : k.Held (k.blockAddress b)) : ¬ k.heap.FreeAt b := h.pinned.taken

end Zhios
