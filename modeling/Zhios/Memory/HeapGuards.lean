import Zhios.Memory.HeapPinned
import Zhios.Memory.Paging
import Mathlib.Data.Finset.Card

/-! Blocks that are lost. A set of blocks that no pointer at hand leads to stays taken
over requests and releases, and a release through any pointer frees one of them at
most. -/
namespace Zhios
open Machine

/-- Every one of the blocks begins an allocation of `k`, a heap over the region of `k₀`.
A release of the null pointer may clear the first block of a heap, which is none of them. -/
structure KMem.Guards (k₀ k : KMem) (blocks : Finset ℕ) : Prop where
  region : k₀.SameRegion k
  pos : ∀ b ∈ blocks, 0 < b
  pinned : ∀ b ∈ blocks, k.heap.Pinned b

/-- The pointer leads to none of the blocks. -/
def KMem.Misses (k₀ : KMem) (blocks : Finset ℕ) (ptr : ℕ) : Prop :=
  ∀ b ∈ blocks, addressToHeapBlock k₀.heap ptr ≠ b

theorem KMem.SameRegion.addressToHeapBlock {k k' : KMem} (h : k.SameRegion k') (ptr : ℕ) :
    addressToHeapBlock k'.heap ptr = addressToHeapBlock k.heap ptr := by
  simp only [Zhios.addressToHeapBlock, h.start_eq]

section Misses
variable {k₀ k : KMem} {blocks left : Finset ℕ} {ptr : ℕ}

theorem KMem.Misses.mono (h : k₀.Misses blocks ptr) (hleft : left ⊆ blocks) : k₀.Misses left ptr :=
  fun b hb => h b (hleft hb)

theorem KMem.Coherent.misses_null (h : k₀.Coherent) (haligned : k₀.heap.startAddress % 4096 = 0)
    (hlt : ∀ b ∈ blocks, b < k₀.heap.total) : k₀.Misses blocks 0 := by
  intro b hb
  have hout := h.null_outside haligned
  have hinside := hlt b hb
  omega

theorem KMem.Held.misses (hp : k₀.Held ptr) (h : k₀.Coherent) (hfree : ∀ b ∈ blocks, k₀.heap.FreeAt b) :
    k₀.Misses blocks ptr := by
  intro b hb heq
  obtain ⟨c, rfl, hc⟩ := hp
  rw [h.block_eq hc.lt] at heq
  obtain rfl := Int.ofNat.inj heq
  exact hc.taken (hfree c hb)

end Misses

namespace KMem.Guards
variable {k₀ k : KMem} {blocks left : Finset ℕ} {ptr : ℕ}

theorem lt (h : k₀.Guards k blocks) : ∀ b ∈ blocks, b < k₀.heap.total := by
  intro b hb
  rw [← h.region.total_eq]
  exact (h.pinned b hb).lt

theorem mono (h : k₀.Guards k blocks) (hleft : left ⊆ blocks) : k₀.Guards k left :=
  ⟨h.region, fun b hb => h.pos b (hleft hb), fun b hb => h.pinned b (hleft hb)⟩

theorem ofHeap {k' : KMem} (h : k₀.Guards k blocks) (heq : k'.heap = k.heap) : k₀.Guards k' blocks :=
  ⟨⟨by rw [heq]; exact h.region.total_eq, by rw [heq]; exact h.region.start_eq⟩, h.pos,
    fun b hb => by rw [heq]; exact h.pinned b hb⟩

theorem withMem (h : k₀.Guards k blocks) (m : Mem) : k₀.Guards { k with mem := m } blocks := h.ofHeap rfl

theorem kzalloc (h : k₀.Guards k blocks) (h₀ : k₀.Coherent) (haligned : k₀.heap.startAddress % 4096 = 0)
    (size : ℕ) : k₀.Guards (Zhios.kzalloc k size).2 blocks ∧ k₀.Misses blocks (Zhios.kzalloc k size).1 := by
  have hregion := kzalloc_region k size
  have htotal := h.region.total_eq
  have hbound := h₀.total_le
  rcases heapMalloc_cases k.heap size (by omega) with hnull | ⟨s, n, haddress, hmarked, -⟩
  · have hzero : Zhios.kzalloc k size = (0, k) := by
      simp only [Zhios.kzalloc, kmalloc, hnull, if_true]
    rw [hzero]
    exact ⟨h, h₀.misses_null haligned h.lt⟩
  · rw [← kzalloc_heap] at hmarked
    refine ⟨⟨h.region.trans hregion, h.pos, fun b hb => hmarked.pinned hregion.total_eq (h.pinned b hb)⟩, ?_⟩
    intro b hb heq
    have hs := hmarked.start_lt
    rw [kzalloc_fst, haddress, ← h.region.addressToHeapBlock, addressToHeapBlock_address _ (by omega) (by omega)] at heq
    obtain rfl := Int.ofNat.inj heq
    exact (h.pinned s hb).taken hmarked.start_free

theorem kfree (h : k₀.Guards k blocks) (hptr : k₀.Misses blocks ptr) : k₀.Guards (Zhios.kfree k ptr) blocks := by
  refine ⟨h.region.trans (kfree_region k ptr), h.pos, fun b hb => ?_⟩
  apply (h.pinned b hb).heapFree
  · rw [h.region.addressToHeapBlock]
    exact hptr b hb
  · exact Or.inr (h.pos b hb)

/-- Whatever pointer is released, all blocks but one are left. -/
theorem kfree_any (h : k₀.Guards k blocks) (ptr : ℕ) :
    ∃ left ⊆ blocks, blocks.card ≤ left.card + 1 ∧ k₀.Guards (Zhios.kfree k ptr) left := by
  set b := (addressToHeapBlock k₀.heap ptr).toNat with hb
  refine ⟨blocks.erase b, blocks.erase_subset b, ?_, (h.mono (blocks.erase_subset b)).kfree ?_⟩
  · have hcard := blocks.pred_card_le_card_erase (a := b)
    omega
  · intro c hc heq
    have hne := Finset.ne_of_mem_erase hc
    omega

theorem freeTables (h : k₀.Guards k blocks) (directory fuel i : ℕ) :
    ∃ left ⊆ blocks, blocks.card ≤ left.card + fuel ∧ k₀.Guards (Zhios.freeTables directory fuel i k) left := by
  induction fuel generalizing i k blocks with
  | zero => exact ⟨blocks, subset_rfl, le_rfl, h⟩
  | succ fuel ih =>
    obtain ⟨rest, hrest, hcard, hguards⟩ := h.kfree_any (load32 k.mem (directory + 4 * i) &&& 0xfffff000)
    obtain ⟨left, hleft, hcard', hguards'⟩ := ih hguards (i + 1)
    exact ⟨left, hleft.trans hrest, by omega, hguards'⟩

/-- A thousand tables, the directory and the record of the page directory. -/
theorem freePage (h : k₀.Guards k blocks) (page : ℕ) :
    ∃ left ⊆ blocks, blocks.card ≤ left.card + 1026 ∧ k₀.Guards (Zhios.freePage k page) left := by
  obtain ⟨tables, htables, hcard, hguards⟩ :=
    h.freeTables (pagingGetDirectory k.mem page) pagingTotalEntriesPerTable 0
  obtain ⟨directory, hdirectory, hcard₁, hguards₁⟩ := hguards.kfree_any (pagingGetDirectory
    (Zhios.freeTables (pagingGetDirectory k.mem page) pagingTotalEntriesPerTable 0 k).mem page)
  obtain ⟨left, hleft, hcard₂, hguards₂⟩ := hguards₁.kfree_any page
  refine ⟨left, hleft.trans (hdirectory.trans htables), ?_, hguards₂⟩
  unfold pagingTotalEntriesPerTable at hcard
  omega

end KMem.Guards

/-- The pointers are different allocations made since `k`, and nothing was released. -/
structure KMem.Takes (k k' : KMem) (ptrs : List ℕ) : Prop extends k.Fresh k' ptrs where
  unused : ∀ p ∈ ptrs, k.Unused p
  shrinks : ∀ p, k'.Unused p → k.Unused p

namespace KMem.Takes
variable {k k' k'' : KMem} {ptrs more : List ℕ}

theorem nil (h : k.Coherent) : k.Takes k [] := ⟨.nil (.refl h), by simp, fun _ hp => hp⟩

theorem kzalloc (h : k.Takes k' ptrs) (size : ℕ) (hsize : 1 ≤ size) (hblocks : blocksFor size < 2 ^ 20)
    (hne : (Zhios.kzalloc k' size).1 ≠ 0) :
    k.Takes (Zhios.kzalloc k' size).2 ((Zhios.kzalloc k' size).1 :: ptrs) := by
  have hcoherent := h.keeps.coherent
  constructor
  · exact h.toFresh.kzalloc size hsize hblocks hne
  · exact List.forall_mem_cons.mpr ⟨h.shrinks _ (hcoherent.unused_kzalloc hne), h.unused⟩
  · exact fun p hp => h.shrinks p (hcoherent.unused_of_kzalloc hp)

theorem append (h : k.Takes k' ptrs) (h' : k'.Takes k'' more) : k.Takes k'' (more ++ ptrs) := by
  constructor
  · exact h.toFresh.append h'.toFresh
  · exact List.forall_mem_append.mpr ⟨fun p hp => h.shrinks p (h'.unused p hp), h.unused⟩
  · exact fun p hp => h.shrinks p (h'.shrinks p hp)

theorem withMem (h : k.Takes k' ptrs) (m : Mem) : k.Takes { k' with mem := m } ptrs :=
  ⟨h.toFresh.trans ((KMem.Keeps.refl h.keeps.coherent).withMem m), h.unused, h.shrinks⟩

/-- The first blocks of the allocations, none of which is the first of the heap. -/
theorem guards (h : k.Takes k' ptrs) (hfirst : ¬ k.heap.FreeAt (0 : ℕ)) :
    ∃ blocks : Finset ℕ, blocks.card = ptrs.length ∧ k.Guards k' blocks ∧ ∀ b ∈ blocks, k.heap.FreeAt b := by
  set blocks := (Finset.range k.heap.total).filter fun b => k.blockAddress b ∈ ptrs with hblocks
  have hfree : ∀ b ∈ blocks, k.heap.FreeAt b := by
    intro b hb
    obtain ⟨c, heq, -, hc⟩ := h.unused _ (Finset.mem_filter.mp hb).2
    obtain rfl := k.blockAddress_injective heq
    exact hc
  refine ⟨blocks, ?_, ⟨h.keeps.region, fun b hb => ?_, fun b hb => ?_⟩, hfree⟩
  · have himage : blocks.image k.blockAddress = ptrs.toFinset := by
      ext p
      simp only [hblocks, Finset.mem_image, Finset.mem_filter, Finset.mem_range, List.mem_toFinset]
      constructor
      · rintro ⟨b, ⟨-, hb⟩, rfl⟩
        exact hb
      · intro hp
        obtain ⟨b, rfl, hlt, -⟩ := h.unused p hp
        exact ⟨b, ⟨hlt, hp⟩, rfl⟩
    rw [← List.toFinset_card_of_nodup h.nodup, ← himage, Finset.card_image_of_injective _ k.blockAddress_injective]
  · apply Nat.pos_of_ne_zero
    rintro rfl
    exact hfirst (hfree 0 hb)
  · have hheld := h.held _ (Finset.mem_filter.mp hb).2
    rw [← h.keeps.region.blockAddress] at hheld
    exact hheld.pinned

end KMem.Takes

end Zhios
