import Zhios.Memory.PagingChunk
import Zhios.Memory.HeapPinned

/-! A new page directory on any heap: requests do not look at the flags of taken blocks, so
that a heap behaves as the tiled one in which each taken block is an allocation of its own. -/
namespace Zhios
open Machine

/-- Two heaps over one region with the same free blocks. -/
structure Heap.FreeAlike (heap heap' : Heap) : Prop where
  total : heap'.total = heap.total
  start : heap'.startAddress = heap.startAddress
  free : ∀ i, heap'.FreeAt i ↔ heap.FreeAt i

namespace Heap.FreeAlike
variable {heap heap' : Heap}

theorem setEntry (h : heap.FreeAlike heap') (i : ℤ) (b : HeapBlock) :
    (heap.setEntry i b).FreeAlike (heap'.setEntry i b) := by
  refine ⟨h.total, h.start, fun j => ?_⟩
  unfold Heap.FreeAt
  rw [Heap.setEntry_entry, Heap.setEntry_entry]
  split_ifs
  · exact Iff.rfl
  · exact h.free j

theorem scan (h : heap.FreeAlike heap') (totalBlocks fuel i blockCount : ℕ) (startBlock : ℤ) :
    heapScan heap' totalBlocks fuel i blockCount startBlock =
      heapScan heap totalBlocks fuel i blockCount startBlock := by
  induction fuel generalizing i blockCount startBlock with
  | zero => rfl
  | succ fuel ih =>
    have hfree : heapGetEntryType (heap'.entry i) ≠ heapBlockFree ↔ heapGetEntryType (heap.entry i) ≠ heapBlockFree :=
      not_congr (h.free i)
    simp only [heapScan, hfree, ih]

theorem allocateLoop (h : heap.FreeAlike heap') (endBlock : ℤ) (fuel : ℕ) (i : ℤ) (entry : HeapBlock) :
    (heapAllocateLoop endBlock fuel i entry heap).FreeAlike (heapAllocateLoop endBlock fuel i entry heap') := by
  induction fuel generalizing i entry heap heap' with
  | zero => exact h
  | succ fuel ih => exact ih (h.setEntry i entry) _ _

theorem malloc (h : heap.FreeAlike heap') (size : ℕ) :
    (heapMalloc heap' size).1 = (heapMalloc heap size).1 ∧
      (heapMalloc heap size).2.FreeAlike (heapMalloc heap' size).2 := by
  have hget : ∀ n, heapGetFreeBlock heap' n = heapGetFreeBlock heap n := fun n => by
    simp only [heapGetFreeBlock, h.total, h.scan]
  simp only [heapMalloc, heapMallocBlocks, hget, h.start]
  split_ifs
  · exact ⟨rfl, h⟩
  · exact ⟨rfl, h.allocateLoop _ _ _ _⟩

end Heap.FreeAlike

theorem kzalloc_mem_null {k : KMem} {size : ℕ} (hnull : (kzalloc k size).1 = 0) : (kzalloc k size).2.mem = k.mem := by
  unfold kzalloc at hnull ⊢
  simp only [] at hnull ⊢
  split_ifs at hnull ⊢
  · rfl
  · contradiction

/-- Their tables are free alike, and memory is the same. -/
structure KMem.FreeAlike (k k' : KMem) : Prop where
  heap : k.heap.FreeAlike k'.heap
  mem : k'.mem = k.mem

namespace KMem.FreeAlike
variable {k k' : KMem}

theorem withMem (h : k.FreeAlike k') (m : Mem) : KMem.FreeAlike { k with mem := m } { k' with mem := m } :=
  ⟨h.heap, rfl⟩

theorem kzalloc (h : k.FreeAlike k') (size : ℕ) :
    (Zhios.kzalloc k' size).1 = (Zhios.kzalloc k size).1 ∧
      (Zhios.kzalloc k size).2.FreeAlike (Zhios.kzalloc k' size).2 := by
  obtain ⟨hptr, hheap⟩ := h.heap.malloc size
  rw [← kzalloc_heap, ← kzalloc_heap] at hheap
  rw [← kzalloc_fst, ← kzalloc_fst] at hptr
  refine ⟨hptr, hheap, ?_⟩
  by_cases hnull : (Zhios.kzalloc k size).1 = 0
  · rw [kzalloc_mem_null hnull, kzalloc_mem_null (hptr.trans hnull), h.mem]
  · rw [kzalloc_mem hnull, kzalloc_mem (hptr ▸ hnull), hptr, h.mem]

theorem chunkTables (h : k.FreeAlike k') (flags directory fuel i : ℕ) (offset : ℤ) :
    Option.Rel KMem.FreeAlike (Zhios.chunkTables flags directory fuel i offset k)
      (Zhios.chunkTables flags directory fuel i offset k') := by
  induction fuel generalizing i offset k k' with
  | zero => exact .some h
  | succ fuel ih =>
    obtain ⟨hptr, hafter⟩ := h.kzalloc (4 * pagingTotalEntriesPerTable)
    simp only [Zhios.chunkTables, hptr]
    split_ifs
    · exact .none
    · rw [hafter.mem]
      exact ih (hafter.withMem _) _ _

theorem unused (h : k.FreeAlike k') {a : ℕ} (ha : k.Unused a) : k'.Unused a := by
  obtain ⟨b, rfl, hlt, hfree⟩ := ha
  refine ⟨b, ?_, h.heap.total.symm ▸ hlt, (h.heap.free b).mpr hfree⟩
  rw [KMem.blockAddress, KMem.blockAddress, h.heap.start]

theorem pagingNewChunk (h : k.FreeAlike k') (flags : ℕ) :
    Option.Rel (fun r r' => r'.1 = r.1 ∧ r.2.FreeAlike r'.2) (Zhios.pagingNewChunk k flags)
      (Zhios.pagingNewChunk k' flags) := by
  obtain ⟨hdirectory, hfirst⟩ := h.kzalloc (4 * pagingTotalEntriesPerTable)
  simp only [Zhios.pagingNewChunk, hdirectory]
  split_ifs
  · exact .none
  have htables := hfirst.chunkTables flags (Zhios.kzalloc k (4 * pagingTotalEntriesPerTable)).1
    pagingTotalEntriesPerTable 0 0
  generalize Zhios.chunkTables _ _ _ _ _ (Zhios.kzalloc k _).2 = built at htables ⊢
  generalize Zhios.chunkTables _ _ _ _ _ (Zhios.kzalloc k' _).2 = built' at htables ⊢
  cases htables with
  | none => exact .none
  | some hbuilt =>
    obtain ⟨hpage, hlast⟩ := hbuilt.kzalloc 4
    simp only [Option.bind_some, hpage]
    split_ifs
    · exact .none
    · rw [hlast.mem]
      exact .some ⟨rfl, hlast.withMem _⟩

end KMem.FreeAlike

/-- Each taken block as an allocation of its own. -/
def Heap.single (heap : Heap) : Heap :=
  { heap with table := { heap.table with
      entries := fun i => if heap.FreeAt i then heapBlockFree else heapBlockTaken ||| heapBlockIsFirst } }

def Heap.takenBlocks (heap : Heap) : List Extent :=
  ((List.range heap.total).filter fun b : ℕ => ¬ heap.FreeAt b).map fun b : ℕ => ⟨b, 1⟩

theorem Heap.mem_takenBlocks {heap : Heap} {e : Extent} :
    e ∈ heap.takenBlocks ↔ ∃ b < heap.total, ¬ heap.FreeAt b ∧ (⟨b, 1⟩ : Extent) = e := by
  simp only [Heap.takenBlocks, List.mem_map, List.mem_filter, List.mem_range, decide_eq_true_eq, and_assoc]

theorem Heap.single_freeAlike (heap : Heap) : heap.FreeAlike heap.single := by
  refine ⟨rfl, rfl, fun i => ?_⟩
  show heapGetEntryType (if heap.FreeAt i then _ else _) = heapBlockFree ↔ _
  split_ifs with hfree
  · exact ⟨fun _ => hfree, fun _ => by decide⟩
  · exact ⟨fun h => absurd h (by decide), fun h => absurd h hfree⟩

theorem Heap.single_tiling (heap : Heap) : Tiling heap.single heap.takenBlocks := by
  refine ⟨⟨fun e he => ?_, fun e he => ?_, ?_⟩, fun e he i hi => ?_, fun i hlo hhi hnot => ?_⟩
  · obtain ⟨b, -, -, rfl⟩ := Heap.mem_takenBlocks.mp he
    exact le_rfl
  · obtain ⟨b, hb, -, rfl⟩ := Heap.mem_takenBlocks.mp he
    have htotal : heap.single.total = heap.total := rfl
    simp only
    omega
  · refine List.pairwise_map.mpr ((List.nodup_range.filter _).imp fun {b c} hne i hb hc => hne ?_)
    rw [Extent.mem_iff] at hb hc
    simp only at hb hc
    omega
  · obtain ⟨b, hb, htaken, rfl⟩ := Heap.mem_takenBlocks.mp he
    obtain ⟨hlo, hhi⟩ := Extent.mem_iff.mp hi
    simp only at hlo hhi
    obtain rfl : i = b := by omega
    have hentry : heap.single.entry b = heapBlockTaken ||| heapBlockIsFirst := if_neg htaken
    rw [hentry]
    simp [blockFlags]
  · refine if_pos (by_contra fun htaken => ?_)
    obtain ⟨b, rfl⟩ : ∃ b : ℕ, i = b := ⟨i.toNat, by omega⟩
    have hmem := Heap.mem_takenBlocks.mpr ⟨b, by exact_mod_cast hhi, htaken, rfl⟩
    exact hnot _ hmem (Extent.mem_iff.mpr ⟨le_rfl, Int.lt_succ b⟩)

theorem KMem.Coherent.single {k : KMem} (h : k.Coherent) (haligned : k.heap.startAddress % 4096 = 0) :
    KMem.WellFormed ⟨k.heap.single, k.mem⟩ k.heap.takenBlocks :=
  ⟨k.heap.single_tiling, h.total_le, h.start_pos, haligned, h.fits⟩

/-- On any heap a new page directory is made of blocks that nobody had, which are in use then. -/
theorem pagingNewChunk_fresh {k k' : KMem} (h : k.Coherent) (haligned : k.heap.startAddress % 4096 = 0)
    {flags page : ℕ} (hf : flags < 256) (hnew : pagingNewChunk k flags = some (page, k')) :
    ∃ c : Chunk, c.Separate page ∧ ChunkAt k'.mem page c (identityMap flags) ∧
      (∀ a, c.IsBlock page a → k.Unused a ∧ k'.OutsideFree a 4096 ∧ a % 4096 = 0) ∧
      ∀ i < 1024, load32 k'.mem (c.directory + 4 * i) = c.table i ||| flags ||| pagingIsWritable := by
  have hsame : k.FreeAlike ⟨k.heap.single, k.mem⟩ := ⟨k.heap.single_freeAlike, rfl⟩
  have hrel := hsame.pagingNewChunk flags
  rw [hnew] at hrel
  generalize hmade : pagingNewChunk ⟨k.heap.single, k.mem⟩ flags = made at hrel
  cases hrel with
  | some hmadeSame =>
    rename_i r
    obtain ⟨rfl, hafter⟩ := hmadeSame
    obtain ⟨live', c, hc, hwords⟩ := pagingNewChunk_words (h.single haligned) hf hmade
    refine ⟨c, hc.separate, hafter.mem ▸ hc.chunkAt, fun a ha => ?_, hafter.mem ▸ hwords⟩
    have howned := hc.owned a ha
    refine ⟨?_, fun b hb => (howned.held hc.wellFormed).outsideFree b (hafter.unused hb),
      howned.aligned hc.wellFormed⟩
    obtain ⟨b, rfl, hpinned⟩ := howned.held hc.wellFormed
    have hlt : b < k.heap.total := hc.region.total_eq ▸ hpinned.lt
    refine ⟨b, hc.region.blockAddress b, hlt, by_contra fun htaken => hc.fresh _ ha ⟨b, ?_, ?_⟩⟩
    · exact Heap.mem_takenBlocks.mpr ⟨b, hlt, htaken, rfl⟩
    · rw [hc.region.blockAddress b, KMem.blockAddress]
      push_cast
      rfl

theorem fillTable_outside (flags : ℕ) {entry x : ℕ} (offset : ℤ) (fuel : ℕ) {j : ℕ} (m : Mem) (hj : j + fuel ≤ 1024)
    (hx : x < entry ∨ entry + 4096 ≤ x) : fillTable flags entry offset fuel j m x = m x := by
  induction fuel generalizing j m with
  | zero => rfl
  | succ fuel ih => rw [fillTable, ih _ (by omega), store32_outside _ _ (by omega)]

theorem buildTable_outside (flags : ℕ) {directory i entry x : ℕ} (offset : ℤ) (m : Mem) (hi : i < 1024)
    (hentry : x < entry ∨ entry + 4096 ≤ x) (hdirectory : x < directory ∨ directory + 4096 ≤ x) :
    buildTable flags directory i offset entry m x = m x := by
  rw [buildTable, store32_outside _ _ (by omega), fillTable_outside _ _ _ _ le_rfl hentry]

/-- No block gets free, and nothing is written outside the free blocks. -/
structure KMem.Within (k k' : KMem) : Prop where
  coherent : k'.Coherent
  unused : ∀ a, k'.Unused a → k.Unused a
  outside : ∀ x, (∀ a, k.Unused a → x < a ∨ a + 4096 ≤ x) → k'.mem x = k.mem x

namespace KMem.Within
variable {k k' k'' : KMem}

theorem refl (h : k.Coherent) : k.Within k := ⟨h, fun _ ha => ha, fun _ _ => rfl⟩

theorem trans (h : k.Within k') (h' : k'.Within k'') : k.Within k'' :=
  ⟨h'.coherent, fun a ha => h.unused a (h'.unused a ha), fun x hx =>
    (h'.outside x fun a ha => hx a (h.unused a ha)).trans (h.outside x hx)⟩

theorem kzalloc (h : k.Coherent) {size : ℕ} (hsize : size ≤ 4096) : k.Within (Zhios.kzalloc k size).2 := by
  refine ⟨h.kzalloc size, fun a ha => h.unused_of_kzalloc ha, fun x hx => ?_⟩
  by_cases hnull : (Zhios.kzalloc k size).1 = 0
  · rw [kzalloc_mem_null hnull]
  · have hapart := hx _ (h.unused_kzalloc hnull)
    rw [kzalloc_mem hnull, fill_outside _ _ (by omega)]

theorem withMem (h : k.Within k') {m : Mem}
    (hm : ∀ x, (∀ a, k.Unused a → x < a ∨ a + 4096 ≤ x) → m x = k'.mem x) : k.Within { k' with mem := m } :=
  ⟨h.coherent.withMem m, h.unused, fun x hx => (hm x hx).trans (h.outside x hx)⟩

theorem chunkTables {flags directory : ℕ} (hdirectory : k.Unused directory) {fuel i : ℕ} {offset : ℤ}
    (h : k.Within k') (hi : i + fuel ≤ 1024) (hrun : Zhios.chunkTables flags directory fuel i offset k' = some k'') :
    k.Within k'' := by
  induction fuel generalizing i offset k' with
  | zero => exact Option.some.inj hrun ▸ h
  | succ fuel ih =>
    simp only [Zhios.chunkTables] at hrun
    split_ifs at hrun with hnull
    have htable := h.unused _ (h.coherent.unused_kzalloc hnull)
    refine ih ((h.trans (.kzalloc h.coherent le_rfl)).withMem fun x hx => ?_) (by omega) hrun
    exact buildTable_outside flags offset _ (by omega) (hx _ htable) (hx _ hdirectory)

theorem pagingNewChunk {flags page : ℕ} (h : k.Coherent) (hnew : Zhios.pagingNewChunk k flags = some (page, k')) :
    k.Within k' := by
  simp only [Zhios.pagingNewChunk] at hnew
  split_ifs at hnew with hnull
  obtain ⟨k₁, htables, hrest⟩ := Option.bind_eq_some_iff.mp hnew
  split_ifs at hrest with hlast
  cases hrest
  have hbuilt := chunkTables (h.unused_kzalloc hnull) (.kzalloc h le_rfl) le_rfl htables
  have hpage := hbuilt.unused _ (hbuilt.coherent.unused_kzalloc hlast)
  refine (hbuilt.trans (.kzalloc hbuilt.coherent (by decide))).withMem fun x hx => ?_
  have hapart := hx _ hpage
  exact store32_outside _ _ (by omega)

end KMem.Within

section Request
variable {k : KMem} {size : ℕ} (h : k.Coherent) (hblocks : blocksFor size < 2 ^ 20) (hne : (Zhios.kzalloc k size).1 ≠ 0)
include h hblocks hne

theorem KMem.Coherent.kzalloc_outsideFree :
    (Zhios.kzalloc k size).2.OutsideFree (Zhios.kzalloc k size).1 (4096 * blocksFor size) := by
  rcases h.kzalloc_cases size with ⟨hnull, -⟩ | ⟨s, n, hptr, hmarked, -, hn⟩
  · exact absurd hnull hne
  · rintro b ⟨i, rfl, -, hfree⟩
    have hout : ¬ ((s : ℤ) ≤ i ∧ (i : ℤ) < s + n) := fun hin => hmarked.taken i hin.1 hin.2 hfree
    rw [hptr, (kzalloc_region k size).blockAddress, ← hn hblocks]
    unfold KMem.blockAddress
    omega

theorem KMem.Coherent.kzalloc_apart {i : ℕ} (hi : i < k.heap.total) (hused : ¬ k.heap.FreeAt i) :
    k.blockAddress i + 4096 ≤ (Zhios.kzalloc k size).1 ∨
      (Zhios.kzalloc k size).1 + 4096 * blocksFor size ≤ k.blockAddress i := by
  rcases h.kzalloc_cases size with ⟨hnull, -⟩ | ⟨s, n, hptr, hmarked, -, hn⟩
  · exact absurd hnull hne
  · have hout : ¬ ((s : ℤ) ≤ i ∧ (i : ℤ) < s + n) := fun hin => hused (hmarked.free i hin.1 hin.2 (by omega))
    rw [hptr, ← hn hblocks]
    unfold KMem.blockAddress
    omega

/-- A byte that is not in an unused block of the heap, nor behind the heap, is not allocated. -/
theorem KMem.Coherent.kzalloc_outside {x : ℕ} (hx : x < k.heap.startAddress + 4096 * k.heap.total)
    (hout : ∀ a, k.Unused a → x < a ∨ a + 4096 ≤ x) :
    x < (Zhios.kzalloc k size).1 ∨ (Zhios.kzalloc k size).1 + 4096 * blocksFor size ≤ x := by
  obtain ⟨i, hi, -⟩ := h.unused_kzalloc hne
  rw [KMem.blockAddress] at hi
  rcases lt_or_ge x k.heap.startAddress with hlow | hhigh
  · omega
  · obtain ⟨j, hj⟩ : ∃ j, (x - k.heap.startAddress) / 4096 = j := ⟨_, rfl⟩
    have haddress : k.blockAddress j = k.heap.startAddress + 4096 * j := rfl
    by_cases hfree : k.heap.FreeAt j
    · have hself := hout _ ⟨j, rfl, by omega, hfree⟩
      omega
    · have hapart := h.kzalloc_apart hblocks hne (by omega) hfree
      omega

end Request

end Zhios
