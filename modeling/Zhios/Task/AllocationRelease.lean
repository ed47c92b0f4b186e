import Zhios.Task.Allocations

/-! Releasing what a process does not own. Empty slots are marked by a null pointer,
so the null pointer is found in them. -/
namespace Zhios
open Machine

section Heap
variable {heap : Heap} {ptr : ℕ}

/-- Releasing the pointer clears a block that is clear already, or is past the table. -/
def Heap.ReleaseIdle (heap : Heap) (ptr : ℕ) : Prop :=
  addressToHeapBlock heap ptr < int32 heap.total → heap.entry (addressToHeapBlock heap ptr) = heapBlockFree

theorem Heap.setEntry_self (heap : Heap) (i : ℤ) : heap.setEntry i (heap.entry i) = heap := by
  have hentries : (fun j => if j = i then heap.table.entries i else heap.table.entries j) = heap.table.entries := by
    funext j
    split_ifs with h
    · rw [h]
    · rfl
  unfold Heap.setEntry Heap.entry
  rw [hentries]

theorem heapFree_clears (h : addressToHeapBlock heap ptr < int32 heap.total) :
    (heapFree heap ptr).entry (addressToHeapBlock heap ptr) = heapBlockFree := by
  have hfuel : 0 < (addressToHeapBlock heap ptr).natAbs + heap.total := by
    by_contra hzero
    have htotal : heap.total = 0 := by omega
    have hint : int32 ((0 : ℕ) : ℤ) = 0 := int32_of_bounds (by decide) (by decide)
    rw [htotal, hint] at h
    omega
  obtain ⟨n, hentry, -, hpos⟩ := heapFreeLoop_cases
    ((addressToHeapBlock heap ptr).natAbs + heap.total) (addressToHeapBlock heap ptr) heap
  have hn := hpos hfuel h
  rw [heapFree, heapFreeBlocks, hentry, if_pos (by omega)]

theorem heapFree_eq_self_iff : heapFree heap ptr = heap ↔ heap.ReleaseIdle ptr := by
  constructor
  · intro h hlt
    have hclear := heapFree_clears hlt
    rwa [h] at hclear
  · intro hidle
    rw [heapFree, heapFreeBlocks]
    rcases ((addressToHeapBlock heap ptr).natAbs + heap.total).eq_zero_or_pos with h0 | hpos
    · rw [h0, heapFreeLoop]
    · obtain ⟨fuel, hfuel⟩ : ∃ fuel, (addressToHeapBlock heap ptr).natAbs + heap.total = fuel + 1 :=
        ⟨_, (Nat.succ_pred_eq_of_pos hpos).symm⟩
      rw [hfuel, heapFreeLoop]
      split_ifs with hlt hlast
      · rw [← hidle hlt, heap.setEntry_self]
      · exact absurd (by rw [hidle hlt]; decide) hlast
      · rfl

/-- No release takes a block. -/
theorem heapFree_keeps_free {i : ℤ} (h : heap.entry i = heapBlockFree) :
    (heapFree heap ptr).entry i = heapBlockFree := by
  obtain ⟨n, hentry, -⟩ := heapFree_cases heap ptr
  rw [hentry, h, ite_self]

end Heap

section Null
variable {p : ProcessMemory}

def ProcessMemory.Full (p : ProcessMemory) : Prop := ∀ j < zhiosProcessMaxAllocations, (p.allocations j).ptr ≠ 0

/-- Empty slots have no size, as `init_process` and every release leave them. -/
def ProcessMemory.SlotsClear (p : ProcessMemory) : Prop :=
  ∀ j < zhiosProcessMaxAllocations, (p.allocations j).ptr = 0 → p.allocations j = ⟨0, 0⟩

/-- Where the entry of page 0 is stored. -/
def pageZeroWord (mem : Mem) (page : ℕ) : ℕ :=
  (load32 mem (pagingGetDirectory mem page + 4 * (pagingGetIndex 0).1) &&& 0xfffff000) + 4 * (pagingGetIndex 0).2

theorem getPage_zero (mem : Mem) (page : ℕ) :
    getPage mem (pagingGetDirectory mem page) 0 = load32 mem (pageZeroWord mem page) := rfl

/-- `map_page_range` of no bytes at address 0 clears the entry of page 0. -/
theorem mapPageRange_null (mem : Mem) (page : ℕ) :
    mapPageRange mem page 0 0 (int32 ((0 : ℕ) : ℤ)) 0x00 = (0, store32 mem (pageZeroWord mem page) 0) := by
  rw [mapPageRange_pages mem page 0 0x00 (by decide) (by decide)]
  have hpages : pagesFor 0 = 1 := by decide
  simp only [hpages, mapPageLoop, mapPage_eq mem page 0 (show 0 % 4096 = 0 by decide) (show 0 % 4096 = 0 by decide)]
  simp [setPage, isPageAligned, pageZeroWord]

/-- The null pointer is found in an empty slot: page 0 loses its entry, and block
`-heapStart / 4096` of the heap table is cleared. -/
theorem processFreeAllocation_null (hclear : p.SlotsClear) (hempty : ¬ p.Full) :
    processFreeAllocation p 0 = { p with
      k := ⟨heapFree p.k.heap 0, store32 p.k.mem (pageZeroWord p.k.mem p.pageDirectory) 0⟩ } := by
  rcases findAllocation_slot p 0 with ⟨-, hall⟩ | ⟨ind, hind, hlt, hptr⟩
  · exact absurd hall hempty
  have hserved : ¬ (ind : ℤ) < 0 := by omega
  have hslot := hclear ind hlt hptr
  have hupdate : Function.update p.allocations ind ⟨0, 0⟩ = p.allocations := by
    rw [← hslot, Function.update_eq_self]
  simp only [processFreeAllocation, processGetPtrAllocation, hind, Int.toNat_natCast, if_neg hserved, hslot,
    mapPageRange_null, hupdate]
  rfl

/-- The release of the null pointer changes nothing exactly when page 0 has no entry
and the block is clear. -/
theorem processFreeAllocation_null_iff (hclear : p.SlotsClear) (hempty : ¬ p.Full) :
    processFreeAllocation p 0 = p ↔
      getPage p.k.mem (pagingGetDirectory p.k.mem p.pageDirectory) 0 = 0 ∧ p.k.heap.ReleaseIdle 0 := by
  rw [processFreeAllocation_null hclear hempty, ← heapFree_eq_self_iff, getPage_zero]
  generalize pageZeroWord p.k.mem p.pageDirectory = a
  constructor
  · intro h
    have hk : (⟨heapFree p.k.heap 0, store32 p.k.mem a 0⟩ : KMem) = p.k := congrArg ProcessMemory.k h
    have hmem : store32 p.k.mem a 0 = p.k.mem := congrArg KMem.mem hk
    have hword := load32_store32_same p.k.mem a (w := 0) (by decide)
    rw [hmem] at hword
    exact ⟨hword, congrArg KMem.heap hk⟩
  · rintro ⟨hpage, hheap⟩
    have hmem : store32 p.k.mem a 0 = p.k.mem := by
      rw [← hpage]
      exact store32_load32 p.k.mem a
    rw [hheap, hmem]

end Null

/-- The loop of `process_free_all_allocations` from slot `i` on. -/
def freeAllocationsLoop : (fuel i : ℕ) → ProcessMemory → ProcessMemory
  | 0, _, p => p
  | fuel + 1, i, p => freeAllocationsLoop fuel (i + 1) (processFreeAllocation p (p.allocations i).ptr)

def processFreeAllAllocations (p : ProcessMemory) : ProcessMemory :=
  freeAllocationsLoop zhiosProcessMaxAllocations 0 p

/-- The blocks of the live allocations become free, and no other entry of the table,
or next to it, changes. -/
structure ProcessMemory.FreesExactlyLive (p p' : ProcessMemory) (live : List Extent) : Prop where
  freed : ∀ j e, p.Live j → p.Records live j e → ∀ b ∈ e, p'.k.heap.entry b = heapBlockFree
  frame : ∀ b, (∀ j e, p.Live j → p.Records live j e → b ∉ e) → p'.k.heap.entry b = p.k.heap.entry b
  emptied : ∀ j, ¬ p'.Live j

/-- What a release of any pointer keeps. -/
structure ProcessMemory.Releases (p p' : ProcessMemory) : Prop where
  total_eq : p'.k.heap.total = p.k.heap.total
  start_eq : p'.k.heap.startAddress = p.k.heap.startAddress
  free : ∀ b, p.k.heap.entry b = heapBlockFree → p'.k.heap.entry b = heapBlockFree
  slots : ∀ j, p'.allocations j = p.allocations j ∨ p'.allocations j = ⟨0, 0⟩

theorem processFreeAllocation_releases (p : ProcessMemory) (ptr : ℕ) : p.Releases (processFreeAllocation p ptr) := by
  unfold processFreeAllocation
  dsimp only
  split_ifs
  · exact ⟨rfl, rfl, fun _ hb => hb, fun _ => Or.inl rfl⟩
  · refine ⟨by simp, by simp, fun b hb => heapFree_keeps_free hb, fun j => ?_⟩
    simp only [Function.update_apply]
    split_ifs
    · exact Or.inr rfl
    · exact Or.inl rfl

namespace ProcessMemory.Releases
variable {p p' : ProcessMemory}

theorem empty (h : p.Releases p') {j : ℕ} (hj : (p.allocations j).ptr = 0) : (p'.allocations j).ptr = 0 := by
  rcases h.slots j with hslot | hslot
  · rw [hslot, hj]
  · rw [hslot]

theorem slotsClear (h : p.Releases p') (hclear : p.SlotsClear) : p'.SlotsClear := by
  intro j hj hptr
  rcases h.slots j with hslot | hslot
  · rw [hslot] at hptr ⊢
    exact hclear j hj hptr
  · exact hslot

theorem live (h : p.Releases p') {j : ℕ} (hj : p'.Live j) : p.Live j ∧ p'.allocations j = p.allocations j := by
  rcases h.slots j with hslot | hslot
  · exact ⟨⟨hj.1, hslot ▸ hj.2⟩, hslot⟩
  · exact absurd (by rw [hslot]) hj.2

theorem block_eq (h : p.Releases p') (ptr : ℕ) :
    addressToHeapBlock p'.k.heap ptr = addressToHeapBlock p.k.heap ptr := by
  simp only [addressToHeapBlock, h.start_eq]

theorem idle (h : p.Releases p') {ptr : ℕ} (hidle : p.k.heap.ReleaseIdle ptr) : p'.k.heap.ReleaseIdle ptr := by
  unfold Heap.ReleaseIdle
  rw [h.block_eq, h.total_eq]
  exact fun hlt => h.free _ (hidle hlt)

end ProcessMemory.Releases

namespace ProcessMemory.Recorded
variable {p : ProcessMemory} {live : List Extent}

theorem free (h : p.Recorded live) {j : ℕ} (hj : p.Live j) {e : Extent} (he : p.Records live j e) :
    (processFreeAllocation p (p.allocations j).ptr).Recorded (live.erase e) := by
  -- One process alone is a family of processes.
  have hmatches : AllocationState.MatchesHeap
      (⟨p.k, fun _ => p.pageDirectory, fun _ => p.allocations⟩ : AllocationState Unit) live :=
    ⟨h.wellFormed, fun _ => h.records, fun _ i _ j hi hj heq => ⟨rfl, h.distinct i j hi hj heq⟩⟩
  have hafter := (hmatches.free (i := ()) hj he).recorded ()
  obtain ⟨mem, heq⟩ := h.free_live hj
  have hprocess : AllocationState.process ⟨p.k, fun _ : Unit => p.pageDirectory, fun _ => p.allocations⟩ () = p := rfl
  rw [hprocess, heq] at hafter
  rw [heq]
  simpa only [AllocationState.commit, AllocationState.process, Function.update_self] using hafter

theorem extent_eq (h : p.Recorded live) {j : ℕ} {e e' : Extent} (he : p.Records live j e) (he' : p.Records live j e') :
    e = e' := by
  have hin := h.wellFormed.tiling.layout.start_mem he.mem
  have hin' := h.wellFormed.tiling.layout.start_mem he'.mem
  have hstart : e.start = e'.start := by
    have hptr := he.ptr_eq
    have hptr' := he'.ptr_eq
    omega
  rw [← hstart] at hin'
  exact h.wellFormed.tiling.layout.owner_unique he.mem he'.mem hin hin'

theorem extent_ne (h : p.Recorded live) {i j : ℕ} (hi : p.Live i) (hj : p.Live j) (hij : i ≠ j) {e e' : Extent}
    (he : p.Records live i e) (he' : p.Records live j e') : e ≠ e' := by
  rintro rfl
  apply hij
  apply h.distinct i j hi hj
  have hptr := he.ptr_eq
  have hptr' := he'.ptr_eq
  omega

end ProcessMemory.Recorded

/-- If the null pointer is never released, or its release is idle, the loop frees the
live allocations from slot `i` on and nothing else. -/
theorem freeAllocationsLoop_exact (fuel i : ℕ) (p : ProcessMemory) (live : List Extent) (h : p.Recorded live)
    (hclear : p.SlotsClear) (hi : i + fuel = zhiosProcessMaxAllocations)
    (hdone : ∀ j < i, (p.allocations j).ptr = 0)
    (hnull : p.k.heap.ReleaseIdle 0 ∨ ∀ j, i ≤ j → j < zhiosProcessMaxAllocations → (p.allocations j).ptr ≠ 0) :
    p.FreesExactlyLive (freeAllocationsLoop fuel i p) live := by
  induction fuel generalizing i p live with
  | zero =>
    have hnone : ∀ j, ¬ p.Live j := fun j hj => hj.2 (hdone j (by have := hj.1; omega))
    exact ⟨fun j e hj => absurd hj (hnone j), fun b _ => rfl, hnone⟩
  | succ fuel ih =>
    rw [freeAllocationsLoop]
    by_cases hempty : (p.allocations i).ptr = 0
    · have hidle := hnull.resolve_right fun hall => hall i le_rfl (by omega) hempty
      have hnotfull : ¬ p.Full := fun hfull => hfull i (by omega) hempty
      rw [hempty, processFreeAllocation_null hclear hnotfull, heapFree_eq_self_iff.mpr hidle]
      have hrest := ih (i + 1)
        { p with k := ⟨p.k.heap, store32 p.k.mem (pageZeroWord p.k.mem p.pageDirectory) 0⟩ } live
        ⟨h.wellFormed.withMem _, fun j hj => (h.records j hj).imp fun e he => he.congr he.mem rfl rfl, h.distinct⟩
        hclear (by omega) (fun j hj => ?_) (Or.inl hidle)
      · exact ⟨fun j e hj he => hrest.freed j e hj (he.congr he.mem rfl rfl),
          fun b hb => hrest.frame b fun j e hj he => hb j e hj (he.congr he.mem rfl rfl), hrest.emptied⟩
      · rcases Nat.lt_succ_iff_lt_or_eq.mp hj with hlt | rfl
        · exact hdone j hlt
        · exact hempty
    · have hlive : p.Live i := ⟨by omega, hempty⟩
      have hrel := processFreeAllocation_releases p (p.allocations i).ptr
      obtain ⟨e₀, he₀, hslots, hentry⟩ := h.free_exact hlive
      have hrec := h.free hlive he₀
      generalize processFreeAllocation p (p.allocations i).ptr = p' at hrel hslots hentry hrec ⊢
      have hrest := ih (i + 1) p' (live.erase e₀) hrec (hrel.slotsClear hclear) (by omega) (fun j hj => ?_) ?_
      · have hrecords : ∀ j e, p'.Live j → p'.Records (live.erase e₀) j e → j ≠ i ∧ p.Records live j e := by
          intro j e hj he
          obtain ⟨-, hslot⟩ := hrel.live hj
          refine ⟨fun hji => hj.2 ?_, he.congr (List.mem_of_mem_erase he.mem) hrel.start_eq.symm hslot.symm⟩
          rw [hslots, hji, Function.update_self]
        constructor
        · intro j e hj he b hb
          by_cases hji : j = i
          · subst hji
            obtain rfl := h.extent_eq he he₀
            rw [hrest.frame b fun j' e' hj' he' hb' => ?_, hentry, if_pos hb]
            obtain ⟨hne, he'⟩ := hrecords j' e' hj' he'
            exact h.extent_ne (hrel.live hj').1 hj hne he' he
              (h.wellFormed.tiling.layout.owner_unique he'.mem he.mem hb' hb)
          · have hslot : p'.allocations j = p.allocations j := by rw [hslots, Function.update_of_ne hji]
            have hmem : e ∈ live.erase e₀ := (List.mem_erase_of_ne (h.extent_ne hj hlive hji he he₀)).mpr he.mem
            exact hrest.freed j e ⟨hj.1, by rw [hslot]; exact hj.2⟩ (he.congr hmem hrel.start_eq hslot) b hb
        · intro b hb
          rw [hrest.frame b fun j e hj he => ?_, hentry, if_neg (hb i e₀ hlive he₀)]
          exact hb j e (hrel.live hj).1 (hrecords j e hj he).2
        · exact hrest.emptied
      · rcases Nat.lt_succ_iff_lt_or_eq.mp hj with hlt | rfl
        · exact hrel.empty (hdone j hlt)
        · rw [hslots, Function.update_self]
      · rcases hnull with hidle | hall
        · exact Or.inl (hrel.idle hidle)
        · refine Or.inr fun j hij hj => ?_
          rw [hslots, Function.update_of_ne (by omega)]
          exact hall j (by omega) hj

theorem freeAllocationsLoop_releases (fuel i : ℕ) (p : ProcessMemory) : p.Releases (freeAllocationsLoop fuel i p) := by
  induction fuel generalizing i p with
  | zero => exact ⟨rfl, rfl, fun _ hb => hb, fun _ => Or.inl rfl⟩
  | succ fuel ih =>
    have hrel := processFreeAllocation_releases p (p.allocations i).ptr
    have hrest := ih (i + 1) (processFreeAllocation p (p.allocations i).ptr)
    rw [freeAllocationsLoop]
    refine ⟨hrest.total_eq.trans hrel.total_eq, hrest.start_eq.trans hrel.start_eq,
      fun b hb => hrest.free b (hrel.free b hb), fun j => ?_⟩
    rcases hrest.slots j with hslot | hslot
    · rw [hslot]
      exact hrel.slots j
    · exact Or.inr hslot

/-- From a state with an empty slot the loop releases the null pointer. -/
theorem freeAllocationsLoop_clears (fuel i : ℕ) (p : ProcessMemory) (hclear : p.SlotsClear)
    (hi : i + fuel = zhiosProcessMaxAllocations) {j : ℕ} (hij : i ≤ j) (hj : j < zhiosProcessMaxAllocations)
    (hempty : (p.allocations j).ptr = 0) (hlt : addressToHeapBlock p.k.heap 0 < int32 p.k.heap.total) :
    (freeAllocationsLoop fuel i p).k.heap.entry (addressToHeapBlock p.k.heap 0) = heapBlockFree := by
  induction fuel generalizing i p with
  | zero => omega
  | succ fuel ih =>
    rw [freeAllocationsLoop]
    rcases hij.eq_or_lt with rfl | hlater
    · apply (freeAllocationsLoop_releases fuel (i + 1) _).free
      rw [hempty, processFreeAllocation_null hclear fun hfull => hfull i hj hempty]
      exact heapFree_clears hlt
    · have hrel := processFreeAllocation_releases p (p.allocations i).ptr
      rw [← hrel.block_eq]
      apply ih (i + 1) _ (hrel.slotsClear hclear) (by omega) hlater (hrel.empty hempty)
      rwa [hrel.block_eq, hrel.total_eq]

/-- Null lies below the heap, or past its end when the difference wraps around. -/
theorem KMem.WellFormed.null_below {k : KMem} {live : List Extent} (h : k.WellFormed live)
    (hlt : addressToHeapBlock k.heap 0 < int32 k.heap.total) : addressToHeapBlock k.heap 0 < 0 := by
  have htotal := h.total_le
  rw [int32_of_bounds (by omega) (by omega)] at hlt
  exact (h.coherent.null_outside h.start_aligned).resolve_right (by omega)

/-- A pointer the process does not own is released without effect, unless it is null
and some slot is empty; then the release is idle only on a directory without page 0
and a table with a clear block below its front. Releasing everything frees exactly
the live allocations under the part of this condition that is about the table. -/
theorem processFreeAllocation_noop_iff (p : ProcessMemory) (live : List Extent) (h : p.Recorded live)
    (hclear : p.SlotsClear) :
    (∀ ptr, (∀ j, p.Live j → (p.allocations j).ptr ≠ ptr) → (processFreeAllocation p ptr = p ↔
      ptr ≠ 0 ∨ p.Full ∨
        (getPage p.k.mem (pagingGetDirectory p.k.mem p.pageDirectory) 0 = 0 ∧ p.k.heap.ReleaseIdle 0))) ∧
    (p.FreesExactlyLive (processFreeAllAllocations p) live ↔ p.Full ∨ p.k.heap.ReleaseIdle 0) := by
  constructor
  · intro ptr howned
    have hmissing : ptr ≠ 0 → processFreeAllocation p ptr = p := fun hne =>
      processFreeAllocation_missing fun j hj heq => howned j ⟨hj, heq ▸ hne⟩ heq
    by_cases hnull : ptr = 0
    · subst hnull
      by_cases hfull : p.Full
      · exact iff_of_true (processFreeAllocation_missing hfull) (Or.inr (Or.inl hfull))
      · rw [processFreeAllocation_null_iff hclear hfull]
        simp [hfull]
    · exact iff_of_true (hmissing hnull) (Or.inl hnull)
  · constructor
    · intro hexact
      by_contra hout
      push Not at hout
      obtain ⟨hfull, hidle⟩ := hout
      unfold ProcessMemory.Full at hfull
      unfold Heap.ReleaseIdle at hidle
      push Not at hfull hidle
      obtain ⟨j, hj, hempty⟩ := hfull
      obtain ⟨hlt, htaken⟩ := hidle
      have hbelow := h.wellFormed.null_below hlt
      have hkept := hexact.frame (addressToHeapBlock p.k.heap 0) fun i e _ he hmem => by
        have hin := (h.wellFormed.tiling.layout.inside e he.mem).1
        have hcell := (Extent.mem_iff.mp hmem).1
        omega
      have hcleared := freeAllocationsLoop_clears zhiosProcessMaxAllocations 0 p hclear (by omega) (Nat.zero_le j) hj
        hempty hlt
      rw [processFreeAllAllocations, hcleared] at hkept
      exact htaken hkept.symm
    · intro hcond
      apply freeAllocationsLoop_exact _ 0 p live h hclear (by omega) (by omega)
      rcases hcond with hfull | hidle
      · exact Or.inr fun j _ hj => hfull j hj
      · exact Or.inl hidle

/-- An address inside the heap that the process was never given. -/
theorem processFreeAllocation_noop_stranger :
    processFreeAllocation ⟨⟨freshKernelHeap, fun _ => 0⟩, 0, fun _ => ⟨0, 0⟩⟩ 0x01234000 =
      ⟨⟨freshKernelHeap, fun _ => 0⟩, 0, fun _ => ⟨0, 0⟩⟩ := by
  have hnone : ∀ j, ¬ ProcessMemory.Live ⟨⟨freshKernelHeap, fun _ => 0⟩, 0, fun _ => ⟨0, 0⟩⟩ j := fun j hj => hj.2 rfl
  refine ((processFreeAllocation_noop_iff ⟨⟨freshKernelHeap, fun _ => 0⟩, 0, fun _ => ⟨0, 0⟩⟩ []
    ⟨freshKernelHeap_wellFormed _, fun j hj => absurd hj (hnone j), fun j _ hj => absurd hj (hnone j)⟩
    fun _ _ _ => rfl).1 _ fun j hj => absurd hj (hnone j)).mpr (Or.inl (by decide))

/-- The first process frees the null pointer and loses the entry of page 0. -/
theorem processFreeAllocation_null_unmaps : ∃ page k',
    pagingNewChunk ⟨freshKernelHeap, fun _ => 0⟩ 5 = some (page, k') ∧
      (∀ j, (ProcessMemory.fresh k' page).Live j → ((ProcessMemory.fresh k' page).allocations j).ptr ≠ 0) ∧
      getPage k'.mem (pagingGetDirectory k'.mem page) 0 = 5 ∧
      load32 (processFreeAllocation (ProcessMemory.fresh k' page) 0).k.mem (pageZeroWord k'.mem page) = 0 ∧
      processFreeAllocation (ProcessMemory.fresh k' page) 0 ≠ ProcessMemory.fresh k' page := by
  have hwf := freshKernelHeap_wellFormed fun _ => 0
  obtain ⟨page, k', hnew, -⟩ := pagingNewChunk_succeeds hwf 5 (by simp [Layout.used])
  obtain ⟨live, c, hc⟩ := pagingNewChunk_spec hwf (by decide) hnew
  have hpage : getPage k'.mem (pagingGetDirectory k'.mem page) 0 = 5 := hc.chunkAt.getPage_eq
    (fun a ha => ⟨(hc.owned a ha).aligned hc.wellFormed, (hc.owned a ha).lt hc.wellFormed⟩) (by decide)
  have hclear : (ProcessMemory.fresh k' page).SlotsClear := fun _ _ _ => rfl
  have hempty : ¬ (ProcessMemory.fresh k' page).Full := fun hfull => hfull 0 (by decide) rfl
  refine ⟨page, k', hnew, fun j hj => hj.2, hpage, ?_, fun hsame => ?_⟩
  · rw [processFreeAllocation_null hclear hempty]
    exact load32_store32_same _ _ (by decide)
  · have hzero : getPage k'.mem (pagingGetDirectory k'.mem page) 0 = 0 :=
      ((processFreeAllocation_null_iff hclear hempty).mp hsame).1
    omega

end Zhios
