import Zhios.Memory.HeapPinned
import Zhios.Memory.PagingRun

/-! A page directory gives back what it took. The table of the heap is compared entry by
entry: building a chunk marks 1026 free entries and no other, the directory words keep
the way to them through every mapping, and `free_page` clears each of them once. -/
namespace Zhios
open Machine

/-- Since `k` the blocks have been handed out, each for itself, and nothing else in the
table is different. -/
structure KMem.Lends (k k' : KMem) (blocks : Finset ℕ) : Prop where
  region : k.SameRegion k'
  lt : ∀ b ∈ blocks, b < k.heap.total
  free : ∀ b ∈ blocks, k.heap.entry b = heapBlockFree
  taken : ∀ b ∈ blocks, k'.heap.entry b = heapBlockTaken ||| heapBlockIsFirst
  frame : ∀ i : ℤ, (∀ b ∈ blocks, i ≠ (b : ℕ)) → k'.heap.entry i = k.heap.entry i

theorem blockFlags_single (s : ℤ) : blockFlags ⟨s, 1⟩ s = heapBlockTaken ||| heapBlockIsFirst := by
  simp [blockFlags]

/-- The flags of a first block that does not go on belong to an extent of one block. -/
theorem blockFlags_eq_single {e : Extent} {i : ℤ} (h : blockFlags e i = heapBlockTaken ||| heapBlockIsFirst) :
    e = ⟨i, 1⟩ := by
  have hlast : i + 1 = e.start + e.length := by
    rw [← blockFlags_hasNext, h]
    decide
  have hfirst : i = e.start := by
    by_contra hne
    rw [blockFlags, if_neg hne, if_pos hlast] at h
    exact absurd h (by decide)
  cases e
  simp only [Extent.mk.injEq] at hlast hfirst ⊢
  omega

namespace KMem.Lends
variable {k k' k'' : KMem} {blocks more : Finset ℕ} {live : List Extent}

theorem nil (k : KMem) : k.Lends k ∅ := ⟨.refl k, by simp, by simp, by simp, fun _ _ => rfl⟩

theorem heap_eq (h : k.Lends k' ∅) : k'.heap = k.heap := by
  have hentries : k'.heap.table.entries = k.heap.table.entries := funext fun i => h.frame i (by simp)
  obtain ⟨⟨⟨total, entries⟩, start⟩, mem⟩ := k
  obtain ⟨⟨⟨total', entries'⟩, start'⟩, mem'⟩ := k'
  obtain ⟨rfl : total' = total, rfl : start' = start⟩ := h.region
  obtain rfl : entries' = entries := hentries
  rfl

theorem withMem (h : k.Lends k' blocks) (m : Mem) : k.Lends { k' with mem := m } blocks :=
  ⟨⟨h.region.total_eq, h.region.start_eq⟩, h.lt, h.free, h.taken, h.frame⟩

theorem disjoint (h : k.Lends k' blocks) (h' : k'.Lends k'' more) : Disjoint blocks more := by
  refine Finset.disjoint_left.mpr fun b hb hmore => ?_
  have htaken := h.taken b hb
  rw [h'.free b hmore] at htaken
  exact absurd htaken (by decide)

theorem trans (h : k.Lends k' blocks) (h' : k'.Lends k'' more) : k.Lends k'' (blocks ∪ more) := by
  have hdisjoint := h.disjoint h'
  have hkept : ∀ b ∈ more, ∀ c ∈ blocks, (b : ℤ) ≠ (c : ℕ) := by
    intro b hb c hc heq
    obtain rfl := Int.ofNat.inj heq
    exact Finset.disjoint_left.mp hdisjoint hc hb
  constructor
  · exact h.region.trans h'.region
  · intro b hb
    rcases Finset.mem_union.mp hb with hb | hb
    · exact h.lt b hb
    · rw [← h.region.total_eq]
      exact h'.lt b hb
  · intro b hb
    rcases Finset.mem_union.mp hb with hb | hb
    · exact h.free b hb
    · rw [← h.frame b (hkept b hb)]
      exact h'.free b hb
  · intro b hb
    rcases Finset.mem_union.mp hb with hb | hb
    · rw [h'.frame b fun c hc heq => hkept c hc b hb heq.symm]
      exact h.taken b hb
    · exact h'.taken b hb
  · intro i hi
    rw [h'.frame i fun b hb => hi b (Finset.mem_union_right _ hb),
      h.frame i fun b hb => hi b (Finset.mem_union_left _ hb)]

theorem kzalloc (h : k.WellFormed live) (size : ℕ) (hsize : 1 ≤ size) (hle : size ≤ 4096)
    (hne : (Zhios.kzalloc k size).1 ≠ 0) : ∃ b, k.Lends (Zhios.kzalloc k size).2 {b} := by
  have hone : blocksFor size = 1 := by unfold blocksFor; omega
  have hrun : k.heap.HasFreeRun (blocksFor size) := by
    by_contra hno
    exact hne (by rw [kzalloc_block_null hsize hle (by rwa [hone] at hno)])
  obtain ⟨s, hfree, -, heq, -⟩ := h.kzalloc hsize (by omega) hrun
  have htotal := h.total_le
  have hlt := hfree.1
  have hentry := heapAllocateBlocks_entry k.heap ⟨s, 1⟩ le_rfl (by simp) (by simp only; omega)
  have hheap : (Zhios.kzalloc k size).2.heap = heapAllocateBlocks k.heap s (1 : ℕ) := by simp only [heq, hone]
  refine ⟨s, kzalloc_region k size, fun b hb => ?_, fun b hb => ?_, fun b hb => ?_, fun i hi => ?_⟩
  · obtain rfl := Finset.mem_singleton.mp hb
    omega
  · obtain rfl := Finset.mem_singleton.mp hb
    exact h.tiling.entry_of_free (by omega) (by omega) (hfree.2 b le_rfl (by omega))
  · obtain rfl := Finset.mem_singleton.mp hb
    rw [hheap, hentry, if_pos (Extent.mem_iff.mpr ⟨le_rfl, by simp⟩), blockFlags_single]
  · have hout : i ∉ (⟨s, 1⟩ : Extent) := by
      rw [Extent.mem_iff]
      have := hi s (Finset.mem_singleton_self s)
      simp only
      omega
    rw [hheap, hentry, if_neg hout]

theorem kfree (hl : k.Lends k' blocks) (h : k.Coherent) {b : ℕ} (hb : b ∈ blocks) :
    k.Lends (Zhios.kfree k' (k.blockAddress b)) (blocks.erase b) := by
  have htotal := h.total_le
  have hlt := hl.lt b hb
  have hblock : addressToHeapBlock k'.heap (k.blockAddress b) = b := by
    rw [← h.block_eq hlt]
    simp only [addressToHeapBlock, hl.region.start_eq]
  have hint : int32 k'.heap.total = k.heap.total := by
    rw [hl.region.total_eq]
    exact int32_of_bounds (by omega) (by omega)
  have hlast : k'.heap.entry b &&& heapBlockHasNext = 0 := by
    rw [hl.taken b hb]
    decide
  have hheap : (Zhios.kfree k' (k.blockAddress b)).heap = k'.heap.setEntry b heapBlockFree := by
    obtain ⟨fuel, hfuel⟩ : ∃ fuel, (b : ℤ).natAbs + k'.heap.total = fuel + 1 :=
      ⟨b + k.heap.total - 1, by rw [hl.region.total_eq]; omega⟩
    rw [kfree_heap, heapFree, hblock, heapFreeBlocks, hfuel, heapFreeLoop, hint, if_pos (by omega), if_pos hlast]
  constructor
  · exact hl.region.trans (kfree_region k' _)
  · exact fun c hc => hl.lt c (Finset.mem_of_mem_erase hc)
  · exact fun c hc => hl.free c (Finset.mem_of_mem_erase hc)
  · intro c hc
    have hne := Finset.ne_of_mem_erase hc
    rw [hheap, Heap.setEntry_entry, if_neg (by omega)]
    exact hl.taken c (Finset.mem_of_mem_erase hc)
  · intro i hi
    rw [hheap, Heap.setEntry_entry]
    split_ifs with hib
    · rw [hib, hl.free b hb]
    · refine hl.frame i fun c hc heq => ?_
      exact hi c (Finset.mem_erase.mpr ⟨fun hcb => hib (by rw [heq, hcb]), hc⟩) heq

theorem kfree_all (hl : k.Lends k' blocks) (h : k.Coherent) (ptrs : List ℕ) (hnodup : ptrs.Nodup)
    (hptrs : ∀ p ∈ ptrs, ∃ b ∈ blocks, p = k.blockAddress b) :
    ∃ left, left.card + ptrs.length = blocks.card ∧ k.Lends (ptrs.foldl Zhios.kfree k') left := by
  induction ptrs generalizing k' blocks with
  | nil => exact ⟨blocks, rfl, hl⟩
  | cons p ptrs ih =>
    obtain ⟨hp, hrest⟩ := List.nodup_cons.mp hnodup
    obtain ⟨b, hb, rfl⟩ := hptrs p List.mem_cons_self
    obtain ⟨left, hcard, hleft⟩ := ih (hl.kfree h hb) hrest fun q hq => by
      obtain ⟨c, hc, rfl⟩ := hptrs q (List.mem_cons_of_mem _ hq)
      exact ⟨c, Finset.mem_erase.mpr ⟨fun hcb => hp (hcb ▸ hq), hc⟩, rfl⟩
    refine ⟨left, ?_, hleft⟩
    have hpos := Finset.card_pos.mpr ⟨b, hb⟩
    rw [Finset.card_erase_of_mem hb] at hcard
    rw [List.length_cons]
    omega

/-- A block that has an owner now and had none before is one of those lent. -/
theorem of_owns {live' : List Extent} {a : ℕ} (hl : k.Lends k' blocks) (h : k.WellFormed live)
    (h' : k'.WellFormed live') (ha : k'.Owns live' a) (hnew : ¬ k.Owns live a) :
    ∃ b ∈ blocks, a = k.blockAddress b := by
  obtain ⟨s, hs, has⟩ := ha
  obtain ⟨hlo, hhi⟩ := h'.tiling.layout.inside _ hs
  obtain ⟨b, rfl⟩ : ∃ b : ℕ, s = b := ⟨s.toNat, by simp only at hlo; omega⟩
  rw [hl.region.start_eq] at has
  rw [hl.region.total_eq] at hhi
  simp only at hlo hhi
  refine ⟨b, ?_, by unfold KMem.blockAddress; omega⟩
  have hentry : k'.heap.entry b = heapBlockTaken ||| heapBlockIsFirst := by
    rw [h'.tiling.marked _ hs b (h'.tiling.layout.start_mem hs), blockFlags_single]
  by_contra hout
  rw [hl.frame b fun c hc heq => hout (Int.ofNat.inj heq ▸ hc)] at hentry
  by_cases hcovered : ∃ e ∈ live, (b : ℤ) ∈ e
  · obtain ⟨e, he, hmem⟩ := hcovered
    rw [h.tiling.marked e he b hmem] at hentry
    obtain rfl := blockFlags_eq_single hentry
    exact hnew ⟨b, he, has⟩
  · push Not at hcovered
    rw [h.tiling.free b hlo (by omega) hcovered] at hentry
    exact absurd hentry (by decide)

end KMem.Lends

section Chunk
variable {k k' : KMem} {live : List Extent} {flags page : ℕ}

theorem chunkTables_lends {directory fuel i : ℕ} {offset : ℤ} (h : k.WellFormed live)
    (htables : chunkTables flags directory fuel i offset k = some k') :
    ∃ blocks live', blocks.card = fuel ∧ k.Lends k' blocks ∧ k'.WellFormed live' := by
  induction fuel generalizing i offset k live with
  | zero =>
    cases htables
    exact ⟨∅, live, rfl, .nil _, h⟩
  | succ fuel ih =>
    simp only [chunkTables] at htables
    split_ifs at htables with hnull
    obtain ⟨b, hfirst⟩ := KMem.Lends.kzalloc h _ (by decide) (by decide) hnull
    obtain ⟨live₁, hb⟩ := h.kzalloc_block (by decide) (by decide) hnull
    obtain ⟨blocks, live', hcard, hrest, hwf⟩ := ih (hb.wellFormed.withMem _) htables
    have hstored := hfirst.withMem (buildTable flags directory i offset
      (kzalloc k (4 * pagingTotalEntriesPerTable)).1 (kzalloc k (4 * pagingTotalEntriesPerTable)).2.mem)
    refine ⟨_, live', ?_, hstored.trans hrest, hwf⟩
    rw [Finset.card_union_of_disjoint (hstored.disjoint hrest), Finset.card_singleton]
    omega

/-- A chunk takes its record, its directory and a thousand tables. -/
theorem pagingNewChunk_lends (h : k.WellFormed live) (hnew : pagingNewChunk k flags = some (page, k')) :
    ∃ blocks, blocks.card = 1026 ∧ k.Lends k' blocks := by
  simp only [pagingNewChunk] at hnew
  split_ifs at hnew with hnull
  obtain ⟨k₁, htables, hrest⟩ := Option.bind_eq_some_iff.mp hnew
  split_ifs at hrest with hpage
  cases hrest
  obtain ⟨d, hdirectory⟩ := KMem.Lends.kzalloc h _ (by decide) (by decide) hnull
  obtain ⟨live₁, hb⟩ := h.kzalloc_block (by decide) (by decide) hnull
  obtain ⟨tables, live₂, hcard, htables, hwf⟩ := chunkTables_lends hb.wellFormed htables
  obtain ⟨r, hrecord⟩ := KMem.Lends.kzalloc hwf 4 (by decide) (by decide) hpage
  have hboth := hdirectory.trans htables
  refine ⟨_, ?_, (hboth.trans hrecord).withMem _⟩
  rw [Finset.card_union_of_disjoint (hboth.disjoint hrecord),
    Finset.card_union_of_disjoint (hdirectory.disjoint htables), hcard]
  rfl

/-- The pointers that `free_page` releases, in its order. -/
def Chunk.pointers (c : Chunk) (page : ℕ) : List ℕ := (List.range 1024).map c.table ++ [c.directory, page]

theorem Chunk.Separate.nodup {c : Chunk} (hs : c.Separate page) : (c.pointers page).Nodup := by
  have htables : ((List.range 1024).map c.table).Nodup := by
    refine List.Nodup.map_on (fun i hi j hj heq => ?_) List.nodup_range
    exact hs.table_table i (List.mem_range.mp hi) j (List.mem_range.mp hj) heq
  refine List.nodup_append.mpr ⟨htables, by simp [hs.page_directory.symm], fun a ha b hb heq => ?_⟩
  obtain ⟨i, hi, rfl⟩ := List.mem_map.mp ha
  rcases List.mem_cons.mp hb with rfl | hb
  · exact hs.directory_table i (List.mem_range.mp hi) heq.symm
  · obtain rfl := List.mem_singleton.mp hb
    exact hs.page_table i (List.mem_range.mp hi) heq.symm

theorem Chunk.isBlock_of_pointers {c : Chunk} {a : ℕ} (ha : a ∈ c.pointers page) : c.IsBlock page a := by
  rcases List.mem_append.mp ha with ha | ha
  · obtain ⟨i, hi, rfl⟩ := List.mem_map.mp ha
    exact Or.inr (Or.inr ⟨i, List.mem_range.mp hi, rfl⟩)
  · rcases List.mem_cons.mp ha with rfl | ha
    · exact Or.inr (Or.inl rfl)
    · exact Or.inl (List.mem_singleton.mp ha)

theorem foldl_kfree_mem (ptrs : List ℕ) (k : KMem) : (ptrs.foldl kfree k).mem = k.mem := by
  induction ptrs generalizing k with
  | nil => rfl
  | cons p ptrs ih => rw [List.foldl_cons, ih, kfree_mem]

theorem ChunkAt.freeTables {c : Chunk} {F : ℕ → ℕ} (h : ChunkAt k.mem page c F)
    (hblock : ∀ a, c.IsBlock page a → a % 4096 = 0 ∧ a + 4096 ≤ 2 ^ 32) (fuel i : ℕ) (hi : i + fuel = 1024) :
    Zhios.freeTables c.directory fuel i k = ((List.range' i fuel).map c.table).foldl kfree k := by
  induction fuel generalizing i k with
  | zero => rfl
  | succ fuel ih =>
    rw [Zhios.freeTables, h.table_of_word hblock (by omega), ih _ (i + 1) (by omega), List.range'_succ,
      List.map_cons, List.foldl_cons]
    exact h

theorem ChunkAt.freePage {c : Chunk} {F : ℕ → ℕ} (h : ChunkAt k.mem page c F)
    (hblock : ∀ a, c.IsBlock page a → a % 4096 = 0 ∧ a + 4096 ≤ 2 ^ 32) :
    Zhios.freePage k page = (c.pointers page).foldl kfree k := by
  have htables := h.freeTables hblock 1024 0 rfl
  simp only [Zhios.freePage, pagingTotalEntriesPerTable, pagingGetDirectory, h.pageWord, htables,
    foldl_kfree_mem, Chunk.pointers, List.foldl_append, List.range_eq_range']
  rfl

/-- One call that stores into the tables of the chunk, whatever its arguments. -/
inductive TableCall (page : ℕ) : Mem → Mem → Prop
  | setPage (mem : Mem) (v w : ℕ) (hv : v < 2 ^ 32) (hw : w < 2 ^ 32) :
      TableCall page mem (setPage mem (pagingGetDirectory mem page) v w).2
  | mapPage (mem : Mem) (v p flags : ℕ) (hv : v < 2 ^ 32) (hp : p < 2 ^ 32) (hf : flags < 2 ^ 32) :
      TableCall page mem (mapPage mem page v p flags).2
  | mapPageRange (mem : Mem) (v p : ℕ) (size : ℤ) (flags : ℕ) (hv : v < 2 ^ 32) (hp : p < 2 ^ 32)
      (hf : flags < 2 ^ 32) : TableCall page mem (mapPageRange mem page v p size flags).2

section Calls
variable {mem mem' : Mem} {c : Chunk} {F : ℕ → ℕ} (hs : c.Separate page)
  (hblock : ∀ a, c.IsBlock page a → a % 4096 = 0 ∧ a + 4096 ≤ 2 ^ 32)
include hs hblock

theorem ChunkAt.setPage_any (h : ChunkAt mem page c F) {v w : ℕ} (hv : v < 2 ^ 32) (hw : w < 2 ^ 32) :
    ∃ F', ChunkAt (setPage mem (pagingGetDirectory mem page) v w).2 page c F' := by
  by_cases ha : v % 4096 = 0
  · rw [h.setPage_eq hblock hv ha]
    exact ⟨_, h.store hs hblock (directoryIndex_lt hv) tableIndex_lt hw⟩
  · have hskip : isPageAligned v = false := by simpa [isPageAligned, pagingPageSize] using ha
    simp only [setPage, hskip, Bool.not_false, if_true]
    exact ⟨F, h⟩

theorem ChunkAt.mapPage_any (h : ChunkAt mem page c F) {v p flags : ℕ} (hv : v < 2 ^ 32) (hp : p < 2 ^ 32)
    (hf : flags < 2 ^ 32) : ∃ F', ChunkAt (mapPage mem page v p flags).2 page c F' := by
  unfold mapPage
  split_ifs
  · exact ⟨F, h⟩
  · exact h.setPage_any hs hblock hv (Nat.or_lt_two_pow hp hf)

theorem ChunkAt.mapPageLoop_any {flags : ℕ} (hf : flags < 2 ^ 32) (fuel v p : ℕ) (res : ℤ) (hv : v < 2 ^ 32)
    (hp : p < 2 ^ 32) (h : ChunkAt mem page c F) :
    ∃ F', ChunkAt (Zhios.mapPageLoop page flags fuel v p res mem).2 page c F' := by
  induction fuel generalizing v p res mem F with
  | zero => exact ⟨F, h⟩
  | succ fuel ih =>
    obtain ⟨F₁, h₁⟩ := h.mapPage_any hs hblock hv hp hf
    simp only [Zhios.mapPageLoop]
    split_ifs
    · exact ⟨F₁, h₁⟩
    · exact ih _ _ _ (uint32_lt _) (uint32_lt _) h₁

theorem ChunkAt.call (h : ChunkAt mem page c F) (hcall : TableCall page mem mem') :
    ∃ F', ChunkAt mem' page c F' := by
  cases hcall with
  | setPage v w hv hw => exact h.setPage_any hs hblock hv hw
  | mapPage v p flags hv hp hf => exact h.mapPage_any hs hblock hv hp hf
  | mapPageRange v p size flags hv hp hf => exact h.mapPageLoop_any hs hblock hf _ v p 0 hv hp

theorem ChunkAt.calls (h : ChunkAt mem page c F) (hrun : Relation.ReflTransGen (TableCall page) mem mem') :
    ∃ F', ChunkAt mem' page c F' := by
  induction hrun with
  | refl => exact ⟨F, h⟩
  | tail _ hcall ih =>
    obtain ⟨F₁, h₁⟩ := ih
    exact h₁.call hs hblock hcall

end Calls

end Chunk

def Heap.freeBlocks (heap : Heap) : ℕ := ((Finset.range heap.total).filter fun i : ℕ => heap.FreeAt i).card

/-- What is not free belongs to an allocation. -/
theorem Tiling.freeBlocks_le {heap : Heap} {live : List Extent} (h : Tiling heap live) :
    Layout.used live + heap.freeBlocks ≤ heap.total := by
  have hcovered := h.layout.used_le_card_covered
  have hdisjoint : Disjoint ((Finset.range heap.total).filter fun i : ℕ => ∃ e ∈ live, (i : ℤ) ∈ e)
      ((Finset.range heap.total).filter fun i : ℕ => heap.FreeAt i) := by
    refine Finset.disjoint_left.mpr fun i hi hfree => ?_
    obtain ⟨e, he, hmem⟩ := (Finset.mem_filter.mp hi).2
    exact h.not_mem_of_free he (Finset.mem_filter.mp hfree).2 hmem
  have hsum := Finset.card_le_card (Finset.union_subset
    (Finset.filter_subset (fun i : ℕ => ∃ e ∈ live, (i : ℤ) ∈ e) (Finset.range heap.total))
    (Finset.filter_subset (fun i : ℕ => heap.FreeAt i) (Finset.range heap.total)))
  rw [Finset.card_union_of_disjoint hdisjoint, Finset.card_range] at hsum
  unfold Heap.freeBlocks
  omega

/-- A chunk that is built, mapped in any way and freed leaves the table of the heap
exactly as it was. -/
theorem freePage_restores_heap (k : KMem) (live : List Extent) (h : k.WellFormed live)
    (hroom : 1026 ≤ k.heap.freeBlocks) (flags : UInt8) :
    ∃ page k', pagingNewChunk k flags.toNat = some (page, k') ∧
      ∀ mem, Relation.ReflTransGen (TableCall page) k'.mem mem →
        (freePage { k' with mem := mem } page).heap = k.heap := by
  have hused := h.tiling.freeBlocks_le
  obtain ⟨page, k', hnew, -⟩ := pagingNewChunk_succeeds h flags.toNat (by omega)
  refine ⟨page, k', hnew, fun mem hrun => ?_⟩
  obtain ⟨live', c, hc⟩ := pagingNewChunk_spec h flags.toNat_lt hnew
  obtain ⟨blocks, hcard, hlends⟩ := pagingNewChunk_lends h hnew
  have hblock : ∀ a, c.IsBlock page a → a % 4096 = 0 ∧ a + 4096 ≤ 2 ^ 32 :=
    fun a ha => ⟨(hc.owned a ha).aligned hc.wellFormed, (hc.owned a ha).lt hc.wellFormed⟩
  obtain ⟨F, hat⟩ := hc.chunkAt.calls hc.separate hblock hrun
  obtain ⟨left, hleft, hlends'⟩ := (hlends.withMem mem).kfree_all h.coherent (c.pointers page) hc.separate.nodup
    fun a ha => by
      have hisBlock := Chunk.isBlock_of_pointers ha
      exact hlends.of_owns h hc.wellFormed (hc.owned a hisBlock) (hc.fresh a hisBlock)
  have hlength : (c.pointers page).length = 1026 := by simp [Chunk.pointers]
  obtain rfl : left = ∅ := Finset.card_eq_zero.mp (by omega)
  have hfree : freePage { k' with mem := mem } page = (c.pointers page).foldl kfree { k' with mem := mem } :=
    ChunkAt.freePage hat hblock
  rw [hfree]
  exact hlends'.heap_eq

theorem freshKernelHeap_freeBlocks : freshKernelHeap.freeBlocks = 25600 := by
  have hall : ∀ i ∈ Finset.range freshKernelHeap.total, freshKernelHeap.FreeAt i := by
    intro i _
    rw [Heap.FreeAt, freshKernelHeap_entry]
    rfl
  rw [Heap.freeBlocks, Finset.filter_true_of_mem hall, Finset.card_range, freshKernelHeap_total]

theorem freePage_restores_freshKernelHeap :
    ∃ page k', pagingNewChunk ⟨freshKernelHeap, fun _ => 0⟩ 7 = some (page, k') ∧
      (freePage { k' with mem := (mapPage k'.mem page 0x1000 0x8000 7).2 } page).heap = freshKernelHeap := by
  obtain ⟨page, k', hnew, hrestores⟩ := freePage_restores_heap ⟨freshKernelHeap, fun _ => 0⟩ []
    (freshKernelHeap_wellFormed _) (by rw [freshKernelHeap_freeBlocks]; decide) 7
  refine ⟨page, k', hnew, hrestores _ ?_⟩
  exact .single (.mapPage k'.mem 0x1000 0x8000 7 (by decide) (by decide) (by decide))

end Zhios
