import Zhios.Task.Allocations

/-! What a process may write. Every page that allocating has made writable for a
process belongs to one of its live allocations, in every run of requests and releases
by any processes, so that allocations of different processes and the page tables stay
out of each other's reach. -/
namespace Zhios
open Machine

/-- The pages that a request makes writable: those of the allocation, and the page
behind it when it ends at the end of a page. -/
def ProcessAllocation.Grants (a : ProcessAllocation) (P : ℕ) : Prop :=
  a.ptr / 4096 ≤ P ∧ P ≤ (a.ptr + a.size) / 4096

instance (a : ProcessAllocation) (P : ℕ) : Decidable (a.Grants P) := inferInstanceAs (Decidable (_ ∧ _))

/-- What the page tables of process `i` say about the virtual address `v`. -/
def AllocationState.entry {ι : Type} (σ : AllocationState ι) (i : ι) (v : ℕ) : ℕ :=
  getPage σ.k.mem (pagingGetDirectory σ.k.mem (σ.pageDirectory i)) v

/-- The range that is mapped or unmapped for an allocation is what it grants. -/
theorem update_remapRange {ι : Type} [DecidableEq ι] (F : ι → ℕ → ℕ) (i i' : ι) {a : ProcessAllocation} {s : ℕ}
    (hs : a.ptr = heapAddress + 4096 * s) (flags P : ℕ) :
    Function.update F i (remapRange (F i) (4096 + s) (a.size / 4096 + 1) flags) i' P =
      if i' = i ∧ a.Grants P then 4096 * P ||| flags else F i' P := by
  have hgrants : a.Grants P ↔ 4096 + s ≤ P ∧ P < 4096 + s + (a.size / 4096 + 1) := by
    unfold ProcessAllocation.Grants
    rw [hs]
    unfold heapAddress
    omega
  rcases eq_or_ne i' i with rfl | hne
  · simp only [Function.update_self, remapRange, hgrants, true_and]
  · rw [Function.update_of_ne hne, if_neg fun h => hne h.1]

theorem unmapped_not_writable (P : ℕ) : (4096 * P ||| 0) &&& pagingIsWritable = 0 := by
  rw [Nat.or_zero, show 4096 * P = 2 ^ 12 * P by norm_num, show pagingIsWritable = 2 ^ 1 from rfl, Nat.and_two_pow,
    Nat.testBit_two_pow_mul]
  simp

section Range
variable {mem : Mem} {page : ℕ} {c : Chunk} {F : ℕ → ℕ}

/-- A block of the kernel heap is mapped to itself, and only tables of the chunk are written. -/
theorem ChunkAt.mapHeapRange (h : ChunkAt mem page c F) (hs : c.Separate page)
    (hblock : ∀ a, c.IsBlock page a → a % 4096 = 0 ∧ a + 4096 ≤ 2 ^ 32) {s size flags : ℕ} (hf : flags < 4096)
    (hsize : 4096 * s + size ≤ 4096 * 25600) :
    ChunkAt (mapPageRange mem page (heapAddress + 4096 * s) (heapAddress + 4096 * s) (int32 size) flags).2 page c
        (remapRange F (4096 + s) (size / 4096 + 1) flags) ∧
      ∀ x, (∀ i < 1024, x < c.table i ∨ c.table i + 4096 ≤ x) →
        (mapPageRange mem page (heapAddress + 4096 * s) (heapAddress + 4096 * s) (int32 size) flags).2 x = mem x := by
  have hbase : heapAddress + 4096 * s = 4096 * (4096 + s) := by
    unfold heapAddress
    omega
  have hpages : pagesFor size = size / 4096 + 1 := if_pos (by omega)
  rw [hbase, mapPageRange_pages mem page _ flags (by omega) (by omega), hpages]
  constructor
  · have hloop := ChunkAt.mapPageLoop hs hblock hf (size / 4096 + 1) (4096 * (4096 + s)) (by omega) (by omega) mem F h
    rw [show 4096 * (4096 + s) / 4096 = 4096 + s by omega] at hloop
    exact hloop.2
  · intro x hx
    exact ChunkAt.mapFrames_outside hs hblock hf _ _ _ (by omega) (by omega) (by omega) (by omega) h hx

theorem ChunkAt.of_apart {mem' : Mem} {page' : ℕ} {c' : Chunk} (h : ChunkAt mem page c F)
    (hblock : ∀ a, c.IsBlock page a → a % 4096 = 0 ∧ a + 4096 ≤ 2 ^ 32)
    (hblock' : ∀ a, c'.IsBlock page' a → a % 4096 = 0 ∧ a + 4096 ≤ 2 ^ 32)
    (hapart : ∀ a, c.IsBlock page a → ¬ c'.IsBlock page' a)
    (hkept : ∀ x, (∀ i < 1024, x < c'.table i ∨ c'.table i + 4096 ≤ x) → mem' x = mem x) :
    ChunkAt mem' page c F := by
  apply h.congr
  intro a ha j hj
  apply load32_congr
  intro x hlo hhi
  apply hkept
  intro i hi
  have htable : c'.IsBlock page' (c'.table i) := Or.inr (Or.inr ⟨i, hi, rfl⟩)
  have hne : a ≠ c'.table i := fun heq => hapart a ha (heq ▸ htable)
  have haligned := (hblock a ha).1
  have haligned' := (hblock' _ htable).1
  omega

end Range

/-- Every process has page tables and allocations of its own on the kernel heap, and what it
may write besides what `F₀` lets it write is granted by a live allocation of its own. -/
structure AllocationState.Isolated {ι : Type} (σ : AllocationState ι) (live : List Extent) (chunk : ι → Chunk)
    (F₀ F : ι → ℕ → ℕ) : Prop where
  wellFormed : σ.k.WellFormed live
  total_eq : σ.k.heap.total = 25600
  start_eq : σ.k.heap.startAddress = heapAddress
  extent : ∀ i j, (σ.process i).Live j → ∃ s : ℕ, (σ.allocations i j).ptr = heapAddress + 4096 * s ∧
    1 ≤ (σ.allocations i j).size ∧ (⟨s, blocksFor (σ.allocations i j).size⟩ : Extent) ∈ live
  distinct : ∀ i j i' j', (σ.process i).Live j → (σ.process i').Live j' →
    (σ.allocations i j).ptr = (σ.allocations i' j').ptr → i = i' ∧ j = j'
  owned : ∀ i a, (chunk i).IsBlock (σ.pageDirectory i) a → σ.k.Owns live a
  separate : ∀ i, (chunk i).Separate (σ.pageDirectory i)
  apart : ∀ i i', i ≠ i' → ∀ a, (chunk i).IsBlock (σ.pageDirectory i) a → ¬ (chunk i').IsBlock (σ.pageDirectory i') a
  tables : ∀ i i' j, (σ.process i').Live j → ¬ (chunk i).IsBlock (σ.pageDirectory i) (σ.allocations i' j).ptr
  chunkAt : ∀ i, ChunkAt σ.k.mem (σ.pageDirectory i) (chunk i) (F i)
  confined : ∀ i P, F i P &&& pagingIsWritable ≠ 0 → F i P = F₀ i P ∨
    F i P = 4096 * P ||| 7 ∧ ∃ j, (σ.process i).Live j ∧ (σ.allocations i j).Grants P

namespace AllocationState.Isolated
variable {ι : Type} {σ : AllocationState ι} {live : List Extent} {chunk : ι → Chunk} {F₀ F : ι → ℕ → ℕ}

theorem block (h : σ.Isolated live chunk F₀ F) (i : ι) (a : ℕ) (ha : (chunk i).IsBlock (σ.pageDirectory i) a) :
    a % 4096 = 0 ∧ a + 4096 ≤ 2 ^ 32 :=
  ⟨(h.owned i a ha).aligned h.wellFormed, (h.owned i a ha).lt h.wellFormed⟩

theorem extent_bound (h : σ.Isolated live chunk F₀ F) {s n : ℕ} (hs : (⟨s, n⟩ : Extent) ∈ live) : s + n ≤ 25600 := by
  have hin := (h.wellFormed.tiling.layout.inside _ hs).2
  have htotal := h.total_eq
  simp only at hin
  omega

variable [DecidableEq ι]

/-- What mapping a heap block for process `i` does to every process's tables. -/
theorem mapRange (h : σ.Isolated live chunk F₀ F) (i : ι) {mem : Mem}
    (hmem : ∀ i, ChunkAt mem (σ.pageDirectory i) (chunk i) (F i)) {s size flags : ℕ} (hf : flags < 4096)
    (hsize : 4096 * s + size ≤ 4096 * 25600) (i' : ι) :
    ChunkAt (mapPageRange mem (σ.pageDirectory i) (heapAddress + 4096 * s) (heapAddress + 4096 * s) (int32 size)
        flags).2 (σ.pageDirectory i') (chunk i')
      (Function.update F i (remapRange (F i) (4096 + s) (size / 4096 + 1) flags) i') := by
  obtain ⟨hown, hkept⟩ := (hmem i).mapHeapRange (h.separate i) (h.block i) hf hsize
  rcases eq_or_ne i' i with rfl | hne
  · rw [Function.update_self]
    exact hown
  · rw [Function.update_of_ne hne]
    exact (hmem i').of_apart (h.block i') (h.block i) (h.apart i' i hne) hkept

omit [DecidableEq ι] in
theorem processMalloc_state (h : σ.Isolated live chunk F₀ F) (i : ι) {size ind : ℕ} (hsize : 1 ≤ size)
    (hblocks : blocksFor size < 2 ^ 20) (hrun : σ.k.heap.HasFreeRun (blocksFor size))
    (hind : processGetAllocation (σ.process i) = ind) :
    ∃ s : ℕ, s + blocksFor size ≤ 25600 ∧
      KMem.WellFormed ⟨heapAllocateBlocks σ.k.heap s (blocksFor size), σ.k.mem⟩ (⟨s, blocksFor size⟩ :: live) ∧
      processMalloc (σ.process i) size = (heapAddress + 4096 * s,
        ⟨⟨heapAllocateBlocks σ.k.heap s (blocksFor size),
          (mapPageRange (fill σ.k.mem (heapAddress + 4096 * s) size 0) (σ.pageDirectory i) (heapAddress + 4096 * s)
            (heapAddress + 4096 * s) (int32 size) 7).2⟩, σ.pageDirectory i,
          Function.update (σ.allocations i) ind ⟨heapAddress + 4096 * s, size⟩⟩) := by
  obtain ⟨s, hfree, -, heq, hwf⟩ := h.wellFormed.kzalloc hsize hblocks hrun
  have hbound : s + blocksFor size ≤ 25600 := by
    have hin := hfree.1
    rw [h.total_eq] at hin
    exact hin
  rw [heq] at hwf
  rw [h.start_eq] at heq
  have haligned : (heapAddress + 4096 * s) % 4096 = 0 := by
    unfold heapAddress
    omega
  have hstatus : (mapPageRange (fill σ.k.mem (heapAddress + 4096 * s) size 0) (σ.pageDirectory i)
      (heapAddress + 4096 * s) (heapAddress + 4096 * s) (int32 size)
      (pagingIsPresent ||| pagingAccessFromAll ||| pagingIsWritable)).1 = 0 :=
    mapPageRange_status _ _ _ haligned haligned (by unfold blocksFor at hblocks; omega)
  have hkzalloc : kzalloc (σ.process i).k size = _ := heq
  refine ⟨s, hbound, hwf.withMem _, ?_⟩
  simp only [processMalloc, hind, hkzalloc]
  rw [if_neg (by omega), if_neg (by unfold heapAddress; omega)]
  change (if (mapPageRange _ (σ.pageDirectory i) _ _ _ _).1 < 0 then _ else _ : ℕ × ProcessMemory) = _
  rw [hstatus]
  rfl

omit [DecidableEq ι] in
theorem fill (h : σ.Isolated live chunk F₀ F) {s n size : ℕ} (hsize : size ≤ 4096 * n)
    (hout : ∀ e ∈ live, (⟨s, n⟩ : Extent).Disjoint e) (i : ι) :
    ChunkAt (Machine.fill σ.k.mem (heapAddress + 4096 * s) size 0) (σ.pageDirectory i) (chunk i) (F i) := by
  apply (h.chunkAt i).congr
  intro a ha j hj
  obtain ⟨t, ht, hat⟩ := h.owned i a ha
  have htmem := h.wellFormed.tiling.layout.start_mem ht
  have hnot : ¬ ((s : ℤ) ≤ t ∧ t < s + n) := fun hmem => hout _ ht t hmem htmem
  have hstart := h.start_eq
  exact load32_congr fun x hlo hhi => fill_outside _ _ (by omega)

/-- A call for process `i` that sets one of its slots keeps the processes apart when an
allocation put there is its own, and the extents of all other slots stay. -/
theorem commit (h : σ.Isolated live chunk F₀ F) (i : ι) {p : ProcessMemory} {ind : ℕ} {a : ProcessAllocation}
    {live' : List Extent} {F' : ι → ℕ → ℕ} (hp : p.allocations = Function.update (σ.allocations i) ind a)
    (hwf : p.k.WellFormed live') (htotal : p.k.heap.total = σ.k.heap.total)
    (hstart : p.k.heap.startAddress = σ.k.heap.startAddress)
    (hkept : ∀ i' j', (σ.process i').Live j' → ¬ (i' = i ∧ j' = ind) → ∀ s : ℕ, (σ.allocations i' j').ptr =
      heapAddress + 4096 * s → (⟨s, blocksFor (σ.allocations i' j').size⟩ : Extent) ∈ live →
        (⟨s, blocksFor (σ.allocations i' j').size⟩ : Extent) ∈ live')
    (hnew : a.ptr ≠ 0 → (∃ s : ℕ, a.ptr = heapAddress + 4096 * s ∧ 1 ≤ a.size ∧
        (⟨s, blocksFor a.size⟩ : Extent) ∈ live') ∧
      (∀ i' j', (σ.process i').Live j' → (σ.allocations i' j').ptr ≠ a.ptr) ∧
      ∀ i', ¬ (chunk i').IsBlock (σ.pageDirectory i') a.ptr)
    (howned : ∀ i' b, (chunk i').IsBlock (σ.pageDirectory i') b → p.k.Owns live' b)
    (hchunk : ∀ i', ChunkAt p.k.mem (σ.pageDirectory i') (chunk i') (F' i'))
    (hconfined : ∀ i' P, F' i' P &&& pagingIsWritable ≠ 0 → F' i' P = F₀ i' P ∨ F' i' P = 4096 * P ||| 7 ∧
      ∃ j, ((σ.commit i p).process i').Live j ∧ ((σ.commit i p).allocations i' j).Grants P) :
    AllocationState.Isolated (σ.commit i p) live' chunk F₀ F' := by
  have hslot : ∀ i' j', (σ.commit i p).allocations i' j' =
      if i' = i ∧ j' = ind then a else σ.allocations i' j' := σ.commit_slot hp
  -- A live slot is the one that was set, or an old one.
  have hold : ∀ i' j', ((σ.commit i p).process i').Live j' →
      ((σ.commit i p).allocations i' j' = a ∧ (i' = i ∧ j' = ind) ∧ a.ptr ≠ 0) ∨
      ((σ.commit i p).allocations i' j' = σ.allocations i' j' ∧ ¬ (i' = i ∧ j' = ind) ∧
        (σ.process i').Live j') := by
    intro i' j' hj'
    have hne : ((σ.commit i p).allocations i' j').ptr ≠ 0 := hj'.2
    rw [hslot] at hne ⊢
    split_ifs at hne ⊢ with hsame
    · exact Or.inl ⟨rfl, hsame, hne⟩
    · exact Or.inr ⟨rfl, hsame, hj'.1, hne⟩
  refine ⟨hwf, htotal.trans h.total_eq, hstart.trans h.start_eq, ?_, ?_, howned, h.separate, h.apart, ?_, hchunk,
    hconfined⟩
  · intro i' j' hj'
    rcases hold i' j' hj' with ⟨heq, -, hne⟩ | ⟨heq, hother, hj'⟩
    · rw [heq]
      exact (hnew hne).1
    · obtain ⟨s, hs, hsize, hmem⟩ := h.extent i' j' hj'
      rw [heq]
      exact ⟨s, hs, hsize, hkept i' j' hj' hother s hs hmem⟩
  · intro i' j' i'' j'' hj' hj'' hptr
    rcases hold i' j' hj' with ⟨heq, hsame, hne⟩ | ⟨heq, -, hj'⟩
    · rcases hold i'' j'' hj'' with ⟨-, hsame', -⟩ | ⟨heq', -, hj''⟩
      · exact ⟨hsame.1.trans hsame'.1.symm, hsame.2.trans hsame'.2.symm⟩
      · rw [heq, heq'] at hptr
        exact absurd hptr.symm ((hnew hne).2.1 i'' j'' hj'')
    · rcases hold i'' j'' hj'' with ⟨heq', -, hne⟩ | ⟨heq', -, hj''⟩
      · rw [heq, heq'] at hptr
        exact absurd hptr ((hnew hne).2.1 i' j' hj')
      · rw [heq, heq'] at hptr
        exact h.distinct i' j' i'' j'' hj' hj'' hptr
  · intro i' i'' j' hj' hblock
    rcases hold i'' j' hj' with ⟨heq, -, hne⟩ | ⟨heq, -, hj'⟩
    · rw [heq] at hblock
      exact (hnew hne).2.2 i' hblock
    · rw [heq] at hblock
      exact h.tables i' i'' j' hj' hblock

/-- A request with an empty slot maps its own allocation and nothing else. -/
theorem malloc_served (h : σ.Isolated live chunk F₀ F) (i : ι) {size ind : ℕ} (hsize : 1 ≤ size)
    (hblocks : blocksFor size < 2 ^ 20) (hrun : σ.k.heap.HasFreeRun (blocksFor size))
    (hind : processGetAllocation (σ.process i) = ind) (hlt : ind < zhiosProcessMaxAllocations)
    (hempty : (σ.allocations i ind).ptr = 0) :
    ∃ s : ℕ, (processMalloc (σ.process i) size).1 = heapAddress + 4096 * s ∧
      AllocationState.Isolated (σ.commit i (processMalloc (σ.process i) size).2) (⟨s, blocksFor size⟩ :: live) chunk F₀
        (Function.update F i (remapRange (F i) (4096 + s) (size / 4096 + 1) 7)) := by
  obtain ⟨s, hbound, hwf, hp⟩ := h.processMalloc_state i hsize hblocks hrun hind
  have hslots := congrArg (fun r => r.2.allocations) hp
  have hk := congrArg (fun r => r.2.k) hp
  refine ⟨s, by rw [hp], ?_⟩
  simp only at hslots hk
  generalize (processMalloc (σ.process i) size).2 = p at hslots hk ⊢
  have hslot : ∀ i' j', (σ.commit i p).allocations i' j' =
      if i' = i ∧ j' = ind then ⟨heapAddress + 4096 * s, size⟩ else σ.allocations i' j' := σ.commit_slot hslots
  have hout : ∀ e ∈ live, (⟨s, blocksFor size⟩ : Extent).Disjoint e := fun e he => hwf.tiling.layout.head_disjoint he
  have hfresh : ∀ t m, (⟨t, m⟩ : Extent) ∈ live → t ≠ (s : ℤ) := by
    rintro t m ht rfl
    exact hout _ ht s (hwf.tiling.layout.start_mem List.mem_cons_self) (h.wellFormed.tiling.layout.start_mem ht)
  have hle : size ≤ 4096 * blocksFor size := by
    unfold blocksFor
    omega
  refine h.commit i hslots (by rw [hk]; exact hwf.withMem _) (by simp [hk]) (by simp [hk])
    (fun _ _ _ _ _ _ hmem => List.mem_cons_of_mem _ hmem)
    (fun _ => ⟨⟨s, rfl, hsize, List.mem_cons_self⟩, ?_, ?_⟩) ?_ ?_ ?_
  · intro i' j' hj' heq
    obtain ⟨t, ht, -, hmem⟩ := h.extent i' j' hj'
    simp only at heq
    exact hfresh t _ hmem (by omega)
  · intro i' hblock
    obtain ⟨t, ht, hat⟩ := h.owned i' _ hblock
    have hstart := h.start_eq
    push_cast at hat
    exact hfresh t 1 ht (by omega)
  · intro i' b hb
    obtain ⟨t, ht, hat⟩ := h.owned i' b hb
    exact ⟨t, List.mem_cons_of_mem _ ht, by simpa [hk] using hat⟩
  · intro i'
    rw [hk]
    exact h.mapRange i (h.fill hle hout) (by decide) (by unfold blocksFor at hbound; omega) i'
  · intro i' P hP
    rw [update_remapRange F i i' (a := ⟨heapAddress + 4096 * s, size⟩) rfl] at hP ⊢
    split_ifs at hP ⊢ with hin
    · obtain ⟨rfl, hgrants⟩ := hin
      have hset : (σ.commit i' p).allocations i' ind = ⟨heapAddress + 4096 * s, size⟩ := by
        rw [hslot, if_pos ⟨rfl, rfl⟩]
      refine Or.inr ⟨rfl, ind, ⟨hlt, ?_⟩, by rwa [hset]⟩
      change ((σ.commit i' p).allocations i' ind).ptr ≠ 0
      rw [hset]
      unfold heapAddress
      simp
    · apply (h.confined i' P hP).imp_right
      rintro ⟨heq, j, hj, hgrants⟩
      have hother : ¬ (i' = i ∧ j = ind) := by
        rintro ⟨rfl, rfl⟩
        exact hj.2 hempty
      have hsame : (σ.commit i p).allocations i' j = σ.allocations i' j := by rw [hslot, if_neg hother]
      refine ⟨heq, j, ⟨hj.1, ?_⟩, by rwa [hsame]⟩
      change ((σ.commit i p).allocations i' j).ptr ≠ 0
      rw [hsame]
      exact hj.2

theorem malloc (h : σ.Isolated live chunk F₀ F) (i : ι) {size : ℕ} (hsize : 1 ≤ size)
    (hblocks : blocksFor size < 2 ^ 20) (hrun : σ.k.heap.HasFreeRun (blocksFor size)) :
    ∃ live' F', AllocationState.Isolated (σ.commit i (processMalloc (σ.process i) size).2) live' chunk F₀ F' := by
  rcases findAllocation_slot (σ.process i) 0 with ⟨-, hfull⟩ | ⟨ind, hind, hlt, hempty⟩
  · rw [processMalloc_full hfull]
    have hsame : σ.commit i (σ.process i) = σ := by
      simp [AllocationState.commit, AllocationState.process]
    exact ⟨live, F, by rwa [hsame]⟩
  · obtain ⟨s, -, h'⟩ := h.malloc_served i hsize hblocks hrun hind hlt hempty
    exact ⟨_, _, h'⟩

omit [DecidableEq ι] in
theorem processFreeAllocation_state (h : σ.Isolated live chunk F₀ F) {i : ι} {j : ℕ} (hj : (σ.process i).Live j) :
    ∃ s : ℕ, (σ.allocations i j).ptr = heapAddress + 4096 * s ∧
      (⟨s, blocksFor (σ.allocations i j).size⟩ : Extent) ∈ live ∧
      processFreeAllocation (σ.process i) ((σ.process i).allocations j).ptr =
        ⟨kfree ⟨σ.k.heap, (mapPageRange σ.k.mem (σ.pageDirectory i) (heapAddress + 4096 * s) (heapAddress + 4096 * s)
            (int32 (σ.allocations i j).size) 0).2⟩ (σ.k.heap.address s), σ.pageDirectory i,
          Function.update (σ.allocations i) j ⟨0, 0⟩⟩ := by
  rcases findAllocation_slot (σ.process i) ((σ.process i).allocations j).ptr with ⟨-, hall⟩ | ⟨ind, hind, hlt, hptr⟩
  · exact absurd rfl (hall j hj.1)
  obtain rfl : ind = j := (h.distinct i ind i j ⟨hlt, by rw [hptr]; exact hj.2⟩ hj hptr).2
  obtain ⟨s, hs, hsize, hmem⟩ := h.extent i ind hj
  have hbound := h.extent_bound hmem
  have hpos : 1 ≤ blocksFor (σ.allocations i ind).size := by
    unfold blocksFor
    omega
  have haddr : σ.k.heap.address s = (σ.allocations i ind).ptr := by
    rw [h.wellFormed.address_eq (by rw [h.total_eq]; omega), h.start_eq, hs]
  have hget : processGetPtrAllocation (σ.process i) ((σ.process i).allocations ind).ptr = ind := hind
  refine ⟨s, hs, hmem, ?_⟩
  simp only [processFreeAllocation, hget, Int.toNat_natCast]
  rw [if_neg (by omega), haddr, ← hs]
  rfl

/-- A release unmaps its own allocation, and leaves no more to any process than it had. -/
theorem free (h : σ.Isolated live chunk F₀ F) {i : ι} {j : ℕ} (hj : (σ.process i).Live j) :
    ∃ (s : ℕ) (live' : List Extent), (σ.allocations i j).ptr = heapAddress + 4096 * s ∧
      AllocationState.Isolated
        (σ.commit i (processFreeAllocation (σ.process i) ((σ.process i).allocations j).ptr)) live' chunk F₀
        (Function.update F i (remapRange (F i) (4096 + s) ((σ.allocations i j).size / 4096 + 1) 0)) := by
  obtain ⟨s, hs, hmem, hp⟩ := h.processFreeAllocation_state hj
  have hslots := congrArg ProcessMemory.allocations hp
  have hk := congrArg ProcessMemory.k hp
  generalize processFreeAllocation (σ.process i) ((σ.process i).allocations j).ptr = p at hslots hk ⊢
  have hslot : ∀ i' j', (σ.commit i p).allocations i' j' =
      if i' = i ∧ j' = j then ⟨0, 0⟩ else σ.allocations i' j' := σ.commit_slot hslots
  have hwf : p.k.WellFormed (live.erase ⟨s, blocksFor (σ.allocations i j).size⟩) := by
    rw [hk]
    exact ((h.wellFormed.perm (List.perm_cons_erase hmem)).withMem _).kfree
  have hbound := h.extent_bound hmem
  refine ⟨s, live.erase ⟨s, blocksFor (σ.allocations i j).size⟩, hs,
    h.commit i hslots hwf (by simp [hk]) (by simp [hk]) ?_ (fun hne => absurd rfl hne) ?_ ?_ ?_⟩
  · intro i' j' hj' hother t ht htmem
    refine (List.mem_erase_of_ne fun heq => hother (h.distinct i' j' i j hj' hj ?_)).mpr htmem
    have hts : (t : ℤ) = s := congrArg Extent.start heq
    rw [hs, ht]
    omega
  · intro i' b hb
    obtain ⟨t, ht, hat⟩ := h.owned i' b hb
    refine ⟨t, (List.mem_erase_of_ne fun heq => ?_).mpr ht, by simpa [hk] using hat⟩
    have hts : t = s := congrArg Extent.start heq
    have hstart := h.start_eq
    obtain rfl : b = (σ.allocations i j).ptr := by
      rw [hs]
      omega
    exact h.tables i' i j hj hb
  · intro i'
    rw [hk]
    exact h.mapRange i h.chunkAt (by decide) (by unfold blocksFor at hbound; omega) i'
  · intro i' P hP
    rw [update_remapRange F i i' hs] at hP ⊢
    -- The pages of the released allocation are no longer writable.
    split_ifs at hP ⊢ with hin
    · exact absurd (unmapped_not_writable P) hP
    · apply (h.confined i' P hP).imp_right
      rintro ⟨hself, j', hj', hgrants⟩
      have hsame : (σ.commit i p).allocations i' j' = σ.allocations i' j' := by
        rw [hslot, if_neg]
        rintro ⟨rfl, rfl⟩
        exact hin ⟨rfl, hgrants⟩
      refine ⟨hself, j', ⟨hj'.1, ?_⟩, by rwa [hsame]⟩
      change ((σ.commit i p).allocations i' j').ptr ≠ 0
      rw [hsame]
      exact hj'.2

theorem step {σ' : AllocationState ι} (h : σ.Isolated live chunk F₀ F) (hs : AllocationStep σ σ') :
    ∃ live' F', σ'.Isolated live' chunk F₀ F' := by
  cases hs with
  | malloc i size hsize hlt hrun => exact h.malloc i hsize (by unfold blocksFor; omega) hrun
  | free i j hj =>
    obtain ⟨s, live', -, h'⟩ := h.free hj
    exact ⟨_, _, h'⟩

theorem run {σ' : AllocationState ι} (h : σ.Isolated live chunk F₀ F)
    (hrun : Relation.ReflTransGen AllocationStep σ σ') : ∃ live' F', σ'.Isolated live' chunk F₀ F' := by
  induction hrun with
  | refl => exact ⟨live, F, h⟩
  | tail _ hs ih =>
    obtain ⟨live', F', h'⟩ := ih
    exact h'.step hs

omit [DecidableEq ι] in
theorem entry_eq (h : σ.Isolated live chunk F₀ F) (i : ι) {v : ℕ} (hv : v < 2 ^ 32) :
    σ.entry i v = F i (v / 4096) :=
  (h.chunkAt i).getPage_eq (h.block i) hv

omit [DecidableEq ι] in
/-- A request of a size that is no multiple of a page grants the blocks of its extent only. -/
theorem grants_mem (h : σ.Isolated live chunk F₀ F) {i : ι} {j P : ℕ} (hj : (σ.process i).Live j)
    (hpart : (σ.allocations i j).size % 4096 ≠ 0) (hP : (σ.allocations i j).Grants P) :
    ∃ s : ℕ, (σ.allocations i j).ptr = heapAddress + 4096 * s ∧
      (⟨s, blocksFor (σ.allocations i j).size⟩ : Extent) ∈ live ∧
      (P : ℤ) - 4096 ∈ (⟨s, blocksFor (σ.allocations i j).size⟩ : Extent) := by
  obtain ⟨s, hs, -, hmem⟩ := h.extent i j hj
  obtain ⟨hlo, hhi⟩ := hP
  refine ⟨s, hs, hmem, ?_⟩
  change (s : ℤ) ≤ P - 4096 ∧ (P : ℤ) - 4096 < s + blocksFor (σ.allocations i j).size
  rw [hs] at hlo hhi
  unfold heapAddress at hlo hhi
  unfold blocksFor
  omega

end AllocationState.Isolated

theorem Heap.Filled.hasFreeRun_two {heap : Heap} (h : heap.Filled 2052) (htotal : heap.total = 25600) :
    heap.HasFreeRun (blocksFor 5000) := by
  refine ⟨2052, by rw [htotal]; decide, fun k hlo hhi => ?_⟩
  unfold blocksFor at hhi
  exact (h k (by omega)).mpr hlo

theorem twoProcesses_isolated : ∃ (σ : AllocationState Bool) (live : List Extent) (chunk : Bool → Chunk)
    (F : Bool → ℕ → ℕ), σ.Isolated live chunk F F ∧ (∀ i j, ¬ (σ.process i).Live j) ∧ σ.k.heap.Filled 2052 := by
  have hwf := freshKernelHeap_wellFormed fun _ => 0
  obtain ⟨page, k, hnew, ⟨live, hserved⟩, hfilled⟩ := pagingNewChunk_succeeds hwf 5 (by simp [Layout.used])
  obtain ⟨liveA, cA, hA⟩ := pagingNewChunk_spec hwf (by decide) hnew
  have hused := hserved.used_eq
  have htotal := hserved.region.total_eq
  have hstart := hA.region.start_eq
  simp only [Layout.used, List.map_nil, List.sum_nil, freshKernelHeap_total] at hused htotal
  obtain ⟨page', k', hnew', -, hfilled'⟩ := pagingNewChunk_succeeds hserved.wellFormed 5 (by
    rw [htotal]
    unfold Layout.used
    omega)
  obtain ⟨liveB, cB, hB⟩ := pagingNewChunk_spec hA.wellFormed (by decide) hnew'
  refine ⟨⟨k', fun i => if i then page else page', fun _ _ => ⟨0, 0⟩⟩, liveB, fun i => if i then cA else cB,
    fun _ => identityMap 5, ⟨hB.wellFormed, ?_, ?_, fun i j hj => absurd rfl hj.2, fun i j i' j' hj => absurd rfl hj.2,
    ?_, ?_, ?_, fun i i' j hj => absurd rfl hj.2, ?_, fun i P _ => Or.inl rfl⟩, fun i j hj => hj.2 rfl,
    hfilled' 1026 (hfilled 0 freshKernelHeap_filled)⟩
  · rw [hB.region.total_eq, htotal]
  · exact hB.region.start_eq.trans (hstart.trans freshKernelHeap_startAddress)
  · intro i a ha
    cases i with
    | true => exact hB.mono a (hA.owned a ha)
    | false => exact hB.owned a ha
  · intro i
    cases i with
    | true => exact hA.separate
    | false => exact hB.separate
  · intro i i' hne a ha ha'
    cases i <;> cases i' <;> simp only [ne_eq, not_true_eq_false, reduceCtorEq, not_false_eq_true] at hne
    · exact hB.fresh a ha (hA.owned a ha')
    · exact hB.fresh a ha' (hA.owned a ha)
  · intro i
    cases i with
    | true => exact hA.chunkAt.congr fun a ha j hj => hB.frame a (hA.owned a ha) j hj
    | false => exact hB.chunkAt

section Reachable
variable {ι : Type} [DecidableEq ι] (σ₀ σ : AllocationState ι) (live₀ : List Extent) (chunk : ι → Chunk)
  (F₀ : ι → ℕ → ℕ)

/-- In every run of requests and releases, a writable page of a process is as at the start, or
a live allocation of the process grants it. Allocations that do not fill their last page grant
no page twice, and no block of the page tables of any process. -/
theorem processes_isolated (h₀ : σ₀.Isolated live₀ chunk F₀ F₀) (hrun : Relation.ReflTransGen AllocationStep σ₀ σ) :
    (∀ i v, v < 2 ^ 32 → σ.entry i v &&& pagingIsWritable ≠ 0 → σ.entry i v = σ₀.entry i v ∨
      σ.entry i v = (v - v % 4096) ||| 7 ∧
        ∃ j, (σ.process i).Live j ∧ (σ.allocations i j).Grants (v / 4096)) ∧
    (∀ i j i' j' P, (σ.process i).Live j → (σ.process i').Live j' → (σ.allocations i j).size % 4096 ≠ 0 →
      (σ.allocations i' j').size % 4096 ≠ 0 → (σ.allocations i j).Grants P → (σ.allocations i' j').Grants P →
        i = i' ∧ j = j') ∧
    ∀ i j i' b, (σ.process i).Live j → (σ.allocations i j).size % 4096 ≠ 0 →
      (chunk i').IsBlock (σ₀.pageDirectory i') b → ¬ (σ.allocations i j).Grants (b / 4096) := by
  obtain ⟨live, F, h⟩ := h₀.run hrun
  refine ⟨fun i v hv hwritable => ?_, fun i j i' j' P hj hj' hpart hpart' hP hP' => ?_,
    fun i j i' b hj hpart hb hP => ?_⟩
  · rw [h.entry_eq i hv] at hwritable ⊢
    rw [h₀.entry_eq i hv, show v - v % 4096 = 4096 * (v / 4096) by omega]
    exact h.confined i (v / 4096) hwritable
  · obtain ⟨s, hs, hmem, hin⟩ := h.grants_mem hj hpart hP
    obtain ⟨s', hs', hmem', hin'⟩ := h.grants_mem hj' hpart' hP'
    have hsame := congrArg Extent.start (h.wellFormed.tiling.layout.owner_unique hmem hmem' hin hin')
    simp only at hsame
    exact h.distinct i j i' j' hj hj' (by omega)
  · obtain ⟨s, hs, hmem, hin⟩ := h.grants_mem hj hpart hP
    have hdirectory : σ.pageDirectory = σ₀.pageDirectory := by
      clear h hj hpart hP hs hmem hin
      induction hrun with
      | refl => rfl
      | tail _ hstep ih => cases hstep <;> exact ih
    rw [← hdirectory] at hb
    obtain ⟨t, ht, hat⟩ := h.owned i' b hb
    have hstart := h.start_eq
    have hblock : (b / 4096 : ℕ) - 4096 = t := by
      unfold heapAddress at hstart
      omega
    have hsame := h.wellFormed.tiling.layout.owner_unique hmem ht hin (by
      change t ≤ (b / 4096 : ℕ) - 4096 ∧ ((b / 4096 : ℕ) - 4096 : ℤ) < t + 1
      omega)
    have hst : (s : ℤ) = t := congrArg Extent.start hsame
    obtain rfl : b = (σ.allocations i j).ptr := by
      rw [hs]
      omega
    exact h.tables i' i j hj hb

theorem processes_isolated_two : ∃ σ₀ : AllocationState Bool, (∀ i j, ¬ (σ₀.process i).Live j) ∧
    ∀ v < 2 ^ 32, (σ₀.commit true (processMalloc (σ₀.process true) 5000).2).entry false v &&& pagingIsWritable ≠ 0 →
      (σ₀.commit true (processMalloc (σ₀.process true) 5000).2).entry false v = σ₀.entry false v := by
  obtain ⟨σ₀, live₀, chunk, F₀, h₀, hempty, hfilled⟩ := twoProcesses_isolated
  have hstep := AllocationStep.malloc σ₀ true 5000 (by decide) (by decide) (hfilled.hasFreeRun_two h₀.total_eq)
  refine ⟨σ₀, hempty, fun v hv hwritable => ?_⟩
  rcases (processes_isolated σ₀ _ live₀ chunk F₀ h₀ (.single hstep)).1 false v hv hwritable with heq | ⟨-, j, hj, -⟩
  · exact heq
  · exact absurd ⟨hj.1, hj.2⟩ (hempty false j)

/-- In every run, a request or a release changes the entries that it grants or granted, in the
tables of its own process, and no other entry of any process. -/
theorem allocation_calls_exact (h₀ : σ₀.Isolated live₀ chunk F₀ F₀)
    (hrun : Relation.ReflTransGen AllocationStep σ₀ σ) :
    (∀ i size, 1 ≤ size → size < 2 ^ 31 - 4096 → σ.k.heap.HasFreeRun (blocksFor size) → ∀ i' v, v < 2 ^ 32 →
      (σ.commit i (processMalloc (σ.process i) size).2).entry i' v =
        if (processMalloc (σ.process i) size).1 ≠ 0 ∧ i' = i ∧
          ProcessAllocation.Grants ⟨(processMalloc (σ.process i) size).1, size⟩ (v / 4096)
        then (v - v % 4096) ||| 7 else σ.entry i' v) ∧
    ∀ i j, (σ.process i).Live j → ∀ i' v, v < 2 ^ 32 →
      (σ.commit i (processFreeAllocation (σ.process i) ((σ.process i).allocations j).ptr)).entry i' v =
        if i' = i ∧ (σ.allocations i j).Grants (v / 4096) then v - v % 4096 else σ.entry i' v := by
  obtain ⟨live, F, h⟩ := h₀.run hrun
  constructor
  · intro i size hsize hlt hfree i' v hv
    rcases findAllocation_slot (σ.process i) 0 with ⟨-, hfull⟩ | ⟨ind, hind, hbound, hempty⟩
    · rw [processMalloc_full hfull, if_neg fun hne => hne.1 rfl]
      rfl
    · obtain ⟨s, hptr, h'⟩ := h.malloc_served i hsize (by unfold blocksFor; omega) hfree hind hbound hempty
      rw [h'.entry_eq i' hv, h.entry_eq i' hv, hptr, show v - v % 4096 = 4096 * (v / 4096) by omega]
      rw [update_remapRange F i i' (a := ⟨heapAddress + 4096 * s, size⟩) rfl]
      have hne : heapAddress + 4096 * s ≠ 0 := by
        unfold heapAddress
        omega
      simp only [hne, ne_eq, not_false_eq_true, true_and]
  · intro i j hj i' v hv
    obtain ⟨s, live', hs, h'⟩ := h.free hj
    rw [h'.entry_eq i' hv, h.entry_eq i' hv, show v - v % 4096 = 4096 * (v / 4096) by omega,
      update_remapRange F i i' hs, Nat.or_zero]

theorem allocation_calls_exact_two : ∃ σ₀ : AllocationState Bool, ∀ i v, v < 2 ^ 32 →
    (σ₀.commit true (processMalloc (σ₀.process true) 5000).2).entry i v =
      if (processMalloc (σ₀.process true) 5000).1 ≠ 0 ∧ i = true ∧
        ProcessAllocation.Grants ⟨(processMalloc (σ₀.process true) 5000).1, 5000⟩ (v / 4096)
      then (v - v % 4096) ||| 7 else σ₀.entry i v := by
  obtain ⟨σ₀, live₀, chunk, F₀, h₀, -, hfilled⟩ := twoProcesses_isolated
  exact ⟨σ₀, fun i v hv => (allocation_calls_exact σ₀ σ₀ live₀ chunk F₀ h₀ .refl).1 true 5000 (by decide) (by decide)
    (hfilled.hasFreeRun_two h₀.total_eq) i v hv⟩

end Reachable

end Zhios
