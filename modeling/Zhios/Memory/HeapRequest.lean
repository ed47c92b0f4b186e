import Zhios.Memory.HeapPinned
import Mathlib.Logic.Relation

/-! How many blocks `heap_malloc` asks for. The rounding wraps around at both ends
of the range of sizes, and a request for no blocks is granted without marking any. -/
namespace Zhios
open Machine

/-- The block count that `heap_malloc` passes on. -/
def blocksAsked (size : ℕ) : ℕ := heapAlignSize size / zhiosHeapBlockSize

/-- Sizes whose rounding stays within 32 bits and comes to at least one block. -/
def Roundable (size : ℕ) : Prop := 1 ≤ size ∧ size ≤ 2 ^ 32 - 4096

instance (size : ℕ) : Decidable (Roundable size) := inferInstanceAs (Decidable (_ ∧ _))

theorem blocksAsked_eq {size : ℕ} (h : size < 2 ^ 32) :
    blocksAsked size = if Roundable size then blocksFor size else 0 := by
  by_cases hin : Roundable size
  · rw [if_pos hin]
    unfold Roundable at hin
    unfold blocksAsked blocksFor heapAlignSize zhiosHeapBlockSize uint32
    dsimp only
    split_ifs <;> omega
  · rw [if_neg hin]
    unfold Roundable at hin
    unfold blocksAsked heapAlignSize zhiosHeapBlockSize uint32
    dsimp only
    split_ifs <;> omega

/-- Enough blocks, and at least one, in exact arithmetic. -/
def AsksEnough (size : ℕ) : Prop := 1 ≤ blocksAsked size ∧ size ≤ zhiosHeapBlockSize * blocksAsked size

theorem asksEnough_iff {size : ℕ} (h : size < 2 ^ 32) : AsksEnough size ↔ Roundable size := by
  rw [AsksEnough, blocksAsked_eq h]
  constructor
  · intro hasks
    by_contra hout
    rw [if_neg hout] at hasks
    omega
  · intro hin
    rw [if_pos hin]
    unfold Roundable at hin
    unfold blocksFor zhiosHeapBlockSize
    omega

theorem Roundable.blocks_lt {size : ℕ} (h : Roundable size) : blocksFor size < 2 ^ 20 := by
  unfold Roundable at h
  unfold blocksFor
  omega

/-- The kernel heap, and the pointers handed out and not released since. -/
structure RequestState where
  k : KMem
  live : List ℕ

/-- Any request for one of the sizes, served or not, or the release of a pointer
that is live. -/
inductive RequestStep (sizes : Set ℕ) : RequestState → RequestState → Prop
  | malloc (σ : RequestState) (size : ℕ) (hsize : size ∈ sizes) (h32 : size < 2 ^ 32) :
      RequestStep sizes σ ⟨(kmalloc σ.k size).2,
        if (kmalloc σ.k size).1 = 0 then σ.live else (kmalloc σ.k size).1 :: σ.live⟩
  | free (σ : RequestState) (ptr : ℕ) (hptr : ptr ∈ σ.live) :
      RequestStep sizes σ ⟨kfree σ.k ptr, σ.live.erase ptr⟩

/-- What a request owes its caller: blocks for every byte, a first block that was
free and is now taken, and a pointer nobody else holds. -/
structure RequestState.ServedInFull (σ : RequestState) (size : ℕ) : Prop where
  asksEnough : AsksEnough size
  newlyTaken : (kmalloc σ.k size).1 ≠ 0 → ∃ b, (kmalloc σ.k size).1 = σ.k.blockAddress b ∧
    b < σ.k.heap.total ∧ σ.k.heap.FreeAt b ∧ ¬ (kmalloc σ.k size).2.heap.FreeAt b
  notLive : (kmalloc σ.k size).1 ≠ 0 → (kmalloc σ.k size).1 ∉ σ.live

/-- Every live pointer holds the block it starts at. -/
structure RequestState.Sound (σ : RequestState) : Prop where
  coherent : σ.k.Coherent
  held : ∀ p ∈ σ.live, σ.k.Held p
  nodup : σ.live.Nodup

/-- `kmalloc` is `kzalloc` without the zeroing. -/
theorem kmalloc_eq_kzalloc (k : KMem) (size : ℕ) :
    kmalloc k size = ((kzalloc k size).1, { (kzalloc k size).2 with mem := k.mem }) := by
  by_cases h : (heapMalloc k.heap size).1 = 0 <;> simp [kzalloc, kmalloc, h]

namespace RequestState.Sound
variable {σ σ' : RequestState} {sizes : Set ℕ} {size : ℕ}

theorem notLive (h : σ.Sound) : (kmalloc σ.k size).1 ∉ σ.live := by
  intro hmem
  rw [kmalloc_eq_kzalloc] at hmem
  exact (h.held _ hmem).ne_kzalloc h.coherent size rfl

theorem newlyTaken (h : σ.Sound) (hsize : Roundable size) (hne : (kmalloc σ.k size).1 ≠ 0) :
    ∃ b, (kmalloc σ.k size).1 = σ.k.blockAddress b ∧ b < σ.k.heap.total ∧ σ.k.heap.FreeAt b ∧
      ¬ (kmalloc σ.k size).2.heap.FreeAt b := by
  rw [kmalloc_eq_kzalloc] at hne ⊢
  rcases h.coherent.kzalloc_cases size with ⟨hnull, -⟩ | ⟨s, n, hptr, hmarked, -, hn⟩
  · exact absurd hnull hne
  · have hpos : 1 ≤ n := by
      rw [hn hsize.blocks_lt]
      have := hsize.1
      unfold blocksFor
      omega
    exact ⟨s, hptr, hmarked.start_lt, hmarked.start_free, hmarked.taken s le_rfl (by omega)⟩

theorem malloc (h : σ.Sound) (hsize : Roundable size) :
    RequestState.Sound ⟨(kmalloc σ.k size).2,
      if (kmalloc σ.k size).1 = 0 then σ.live else (kmalloc σ.k size).1 :: σ.live⟩ := by
  have hfresh : (kmalloc σ.k size).1 ∉ σ.live := h.notLive
  rw [kmalloc_eq_kzalloc] at hfresh ⊢
  have hheld : ∀ p ∈ σ.live, (Zhios.kzalloc σ.k size).2.Held p :=
    fun p hp => (h.held p hp).kzalloc h.coherent size
  constructor
  · exact (h.coherent.kzalloc size).withMem _
  · intro p hp
    apply KMem.Held.withMem
    dsimp only at hp
    split_ifs at hp with hnull
    · exact hheld p hp
    · rcases List.mem_cons.mp hp with rfl | hp
      · exact h.coherent.held_kzalloc hsize.1 hsize.blocks_lt hnull
      · exact hheld p hp
  · dsimp only
    split_ifs with hnull
    · exact h.nodup
    · exact List.nodup_cons.mpr ⟨hfresh, h.nodup⟩

theorem free (h : σ.Sound) {ptr : ℕ} (hptr : ptr ∈ σ.live) :
    RequestState.Sound ⟨kfree σ.k ptr, σ.live.erase ptr⟩ := by
  have hboundary := (h.held ptr hptr).boundary
  constructor
  · exact h.coherent.kfree hboundary
  · intro p hp
    obtain ⟨hne, hp⟩ := h.nodup.mem_erase_iff.mp hp
    exact (h.held p hp).kfree h.coherent hboundary (Ne.symm hne)
  · exact h.nodup.erase ptr

theorem step (h : σ.Sound) (hsizes : ∀ size < 2 ^ 32, size ∈ sizes → Roundable size)
    (hs : RequestStep sizes σ σ') : σ'.Sound := by
  cases hs with
  | malloc size hsize h32 => exact h.malloc (hsizes size h32 hsize)
  | free ptr hptr => exact h.free hptr

theorem run (h : σ.Sound) (hsizes : ∀ size < 2 ^ 32, size ∈ sizes → Roundable size)
    (hrun : Relation.ReflTransGen (RequestStep sizes) σ σ') : σ'.Sound := by
  induction hrun with
  | refl => exact h
  | tail _ hs ih => exact ih.step hsizes hs

theorem servedInFull (h : σ.Sound) (h32 : size < 2 ^ 32) (hsize : Roundable size) : σ.ServedInFull size := by
  constructor
  · exact (asksEnough_iff h32).mpr hsize
  · exact h.newlyTaken hsize
  · exact fun _ => h.notLive

end RequestState.Sound

theorem freshKernelHeap_coherent (mem : Mem) : KMem.Coherent ⟨freshKernelHeap, mem⟩ :=
  (freshKernelHeap_wellFormed mem).coherent

/-- Requests are served in full in every state of every run exactly when all their
sizes are roundable. -/
theorem kmalloc_servedInFull_iff (sizes : Set ℕ) :
    (∀ (k : KMem) (σ : RequestState), k.Coherent → Relation.ReflTransGen (RequestStep sizes) ⟨k, []⟩ σ →
      ∀ size < 2 ^ 32, size ∈ sizes → σ.ServedInFull size) ↔
    ∀ size < 2 ^ 32, size ∈ sizes → 1 ≤ size ∧ size ≤ 2 ^ 32 - 4096 := by
  constructor
  · intro h size h32 hsize
    have hserved := h ⟨freshKernelHeap, fun _ => 0⟩ _ (freshKernelHeap_coherent _) .refl size h32 hsize
    exact (asksEnough_iff h32).mp hserved.asksEnough
  · intro hsizes k σ hk hrun size h32 hsize
    have hstart : RequestState.Sound ⟨k, []⟩ := ⟨hk, by simp, List.nodup_nil⟩
    exact (hstart.run hsizes hrun).servedInFull h32 (hsizes size h32 hsize)

/-- On a heap that is entirely free, any block count, none included, starts at block 0. -/
theorem heapGetFreeBlock_of_all_free {heap : Heap} (hfree : ∀ i, heap.FreeAt i) (hpos : 0 < heap.total) {n : ℕ}
    (hn : n ≤ heap.total) : heapGetFreeBlock heap n = 0 := by
  rcases Nat.eq_zero_or_pos n with rfl | hn0
  · have hsame : heapGetFreeBlock heap 0 = heapGetFreeBlock heap (heap.total + 1) := by
      simp only [heapGetFreeBlock, heapScan_zero heap heap.total 0 0 (-1) (by omega) le_rfl]
    have hno : ¬ heap.HasFreeRun (heap.total + 1) := by
      intro hrun
      obtain ⟨s, hs, -⟩ := hrun
      omega
    obtain ⟨c, ht, hget⟩ := heapGetFreeBlock_of_no_run (by omega) hno
    have hall : c = heap.total := by
      by_contra hne
      have hle := ht.le
      exact ht.taken (by omega) (hfree _)
    rw [hsame, hget, hall, if_neg (by omega), sub_self]
  · obtain ⟨s, hget, -, hmin⟩ := heapGetFreeBlock_of_run hn0 ⟨0, by omega, fun k _ _ => hfree k⟩
    have hs := hmin 0 ⟨by omega, fun k _ _ => hfree k⟩
    rw [hget, Nat.le_zero.mp hs, Nat.cast_zero]

/-- A request for no bytes gets the first free block without taking it, and the next
request gets the same pointer. A size close to 4 GiB asks for no blocks either. -/
theorem kmalloc_zero_underAllocates :
    ¬ AsksEnough 0 ∧ ¬ AsksEnough 0xfffff001 ∧
      kmalloc ⟨freshKernelHeap, fun _ => 0⟩ 0 = (heapAddress, ⟨freshKernelHeap, fun _ => 0⟩) ∧
      (kmalloc ⟨freshKernelHeap, fun _ => 0⟩ 4096).1 = heapAddress := by
  have hfree : ∀ i, freshKernelHeap.FreeAt i := fun i => by simp [Heap.FreeAt, heapGetEntryType, heapBlockFree]
  have hfirst : ∀ n ≤ 25600, heapGetFreeBlock freshKernelHeap n = 0 := fun n hn =>
    heapGetFreeBlock_of_all_free hfree (by simp) (by simpa using hn)
  have haddr : uint32 ((freshKernelHeap.startAddress : ℤ) + getOffset 0) = heapAddress := by
    rw [freshKernelHeap_startAddress]
    unfold getOffset uint32 zhiosHeapBlockSize heapAddress
    omega
  refine ⟨by rw [asksEnough_iff (by decide)]; decide, by rw [asksEnough_iff (by decide)]; decide, ?_, ?_⟩
  · have hzero : heapAlignSize 0 / zhiosHeapBlockSize = 0 := by decide
    have hnone : heapAllocateBlocks freshKernelHeap 0 (int32 0) = freshKernelHeap := by
      have hlast : int32 (int32 0 + 0 - 1) = -1 := by unfold int32; omega
      simp only [heapAllocateBlocks, hlast]
      rfl
    simp only [kmalloc, heapMalloc, hzero, heapMallocBlocks, hfirst 0 (by decide), lt_irrefl, if_false,
      Nat.cast_zero, hnone, haddr]
  · have hone : heapAlignSize 4096 / zhiosHeapBlockSize = 1 := by decide
    simp only [kmalloc, heapMalloc, hone, heapMallocBlocks, hfirst 1 (by decide), lt_irrefl, if_false, haddr]

end Zhios
