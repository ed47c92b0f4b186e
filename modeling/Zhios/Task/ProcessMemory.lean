import Zhios.Memory.PagingRun
import Zhios.Machine.Search

/-! User allocations of `src/task/process.c`: blocks of the kernel heap mapped to
themselves in the page directory of the process. -/
namespace Zhios
open Machine

def zhiosProcessMaxAllocations : ℕ := 1024

structure ProcessAllocation where
  ptr : ℕ
  size : ℕ
  deriving DecidableEq, Repr

/-- What allocating and freeing for one process reads and writes: the kernel's
memory, `process->task->page_directory` and `process->allocations`. -/
structure ProcessMemory where
  k : KMem
  pageDirectory : ℕ
  allocations : ℕ → ProcessAllocation

def findAllocation (p : ProcessMemory) (ptr : ℕ) : ℤ :=
  match findSlot (fun i => (p.allocations i).ptr == ptr) zhiosProcessMaxAllocations 0 with
  | some i => i
  | none => -EMEM

def processGetAllocation (p : ProcessMemory) : ℤ := findAllocation p 0

def processGetPtrAllocation (p : ProcessMemory) (ptr : ℕ) : ℤ := findAllocation p ptr

def processMalloc (p : ProcessMemory) (size : ℕ) : ℕ × ProcessMemory :=
  let ind := processGetAllocation p
  if ind < 0 then (0, p)
  else
    let r := kzalloc p.k size
    if r.1 = 0 then (0, { p with k := r.2 })
    else
      let res := mapPageRange r.2.mem p.pageDirectory r.1 r.1 (int32 size)
        (pagingIsPresent ||| pagingAccessFromAll ||| pagingIsWritable)
      if res.1 < 0 then (0, { p with k := kfree { r.2 with mem := res.2 } r.1 })
      else (r.1, { p with
        k := { r.2 with mem := res.2 }
        allocations := Function.update p.allocations ind.toNat ⟨r.1, size⟩ })

def processFreeAllocation (p : ProcessMemory) (ptr : ℕ) : ProcessMemory :=
  let ind := processGetPtrAllocation p ptr
  if ind < 0 then p
  else
    let allocation := p.allocations ind.toNat
    let res := mapPageRange p.k.mem p.pageDirectory allocation.ptr allocation.ptr
      (int32 allocation.size) 0x00
    { p with
      k := kfree { p.k with mem := res.2 } ptr
      allocations := Function.update p.allocations ind.toNat ⟨0, 0⟩ }

def ProcessMemory.Live (p : ProcessMemory) (i : ℕ) : Prop :=
  i < zhiosProcessMaxAllocations ∧ (p.allocations i).ptr ≠ 0

/-- Every page of every live allocation is mapped to itself, present, writable
and accessible to the user. -/
def ProcessMemory.Mapped (p : ProcessMemory) : Prop :=
  ∀ i, p.Live i → ∀ v, (p.allocations i).ptr ≤ v → v < (p.allocations i).ptr + (p.allocations i).size →
    getPage p.k.mem (pagingGetDirectory p.k.mem p.pageDirectory) v =
      (v - v % 4096) ||| (pagingIsPresent ||| pagingAccessFromAll ||| pagingIsWritable)

inductive ProcessOp
  | malloc (size : ℕ)
  | free (ptr : ℕ)

def ProcessMemory.exec (p : ProcessMemory) : ProcessOp → ProcessMemory
  | .malloc size => (processMalloc p size).2
  | .free ptr => processFreeAllocation p ptr

/-- The calls a process may make: sizes are positive 32-bit values, and only live
pointers are freed. -/
def ProcessMemory.Allows (p : ProcessMemory) : ProcessOp → Prop
  | .malloc size => 1 ≤ size ∧ size < 2 ^ 32
  | .free ptr => ∃ i, p.Live i ∧ (p.allocations i).ptr = ptr

/-- The calls that keep out of the way of other allocations. A request is served
or refused: every slot is in use, or its rounded size fits a word, and some run holds
it or the last block of the heap is taken. A release of whole pages has no live
allocation right behind it, where the extra page `map_page_range` covers would be. -/
def ProcessMemory.Safe (p : ProcessMemory) : ProcessOp → Prop
  | .malloc size => (∀ i < zhiosProcessMaxAllocations, p.Live i) ∨
      blocksFor size < 2 ^ 20 ∧ (p.k.heap.HasFreeRun (blocksFor size) ∨ p.k.heap.LastTaken)
  | .free ptr => ∀ i, p.Live i → (p.allocations i).ptr = ptr → (p.allocations i).size % 4096 = 0 →
      ∀ j, p.Live j → (p.allocations j).ptr ≠ ptr + (p.allocations i).size

theorem findAllocation_slot (p : ProcessMemory) (ptr : ℕ) :
    (findAllocation p ptr = -EMEM ∧ ∀ j < zhiosProcessMaxAllocations, (p.allocations j).ptr ≠ ptr) ∨
    ∃ j : ℕ, findAllocation p ptr = j ∧ j < zhiosProcessMaxAllocations ∧ (p.allocations j).ptr = ptr := by
  unfold findAllocation
  cases hfind : findSlot (fun i => (p.allocations i).ptr == ptr) zhiosProcessMaxAllocations 0 with
  | none =>
    rw [findSlot_eq_none_iff] at hfind
    exact Or.inl ⟨rfl, fun j hj => by simpa using hfind j (Nat.zero_le j) (by omega)⟩
  | some j =>
    obtain ⟨-, hlt, hptr, -⟩ := (findSlot_eq_some_iff _ _ _ _).mp hfind
    exact Or.inr ⟨j, rfl, by omega, by simpa using hptr⟩

/-- An allocation that has its own extent of the heap, apart from the blocks of
the page tables, and that the flat map `F` maps to itself. -/
structure ProcessAllocation.Held (a : ProcessAllocation) (live : List Extent) (page : ℕ) (c : Chunk)
    (F : ℕ → ℕ) : Prop where
  extent : ∃ s : ℕ, a.ptr = heapAddress + 4096 * s ∧ 1 ≤ a.size ∧ (⟨s, blocksFor a.size⟩ : Extent) ∈ live
  apart : ¬ c.IsBlock page a.ptr
  mapped : ∀ v, a.ptr ≤ v → v < a.ptr + a.size → F (v / 4096) = 4096 * (v / 4096) ||| 7

/-- The kernel heap holds the page tables and the live allocations of the process. -/
structure ProcessMemory.Inv (p : ProcessMemory) (live : List Extent) (c : Chunk) (F : ℕ → ℕ) :
    Prop where
  wellFormed : p.k.WellFormed live
  total_eq : p.k.heap.total = 25600
  start_eq : p.k.heap.startAddress = heapAddress
  chunkOwned : ∀ a, c.IsBlock p.pageDirectory a → p.k.Owns live a
  separate : c.Separate p.pageDirectory
  chunkAt : ChunkAt p.k.mem p.pageDirectory c F
  held : ∀ i, p.Live i → (p.allocations i).Held live p.pageDirectory c F
  distinct : ∀ i j, p.Live i → p.Live j → (p.allocations i).ptr = (p.allocations j).ptr → i = j

namespace ProcessMemory.Inv
variable {p : ProcessMemory} {live : List Extent} {c : Chunk} {F : ℕ → ℕ}

theorem block (h : p.Inv live c F) (a : ℕ) (ha : c.IsBlock p.pageDirectory a) :
    a % 4096 = 0 ∧ a + 4096 ≤ 2 ^ 32 :=
  ⟨(h.chunkOwned a ha).aligned h.wellFormed, (h.chunkOwned a ha).lt h.wellFormed⟩

theorem extent_bound (h : p.Inv live c F) {s n : ℕ} (hs : (⟨s, n⟩ : Extent) ∈ live) :
    s + n ≤ 25600 := by
  have hin := (h.wellFormed.tiling.layout.inside _ hs).2
  have htotal := h.total_eq
  simp only at hin
  omega

theorem toMapped (h : p.Inv live c F) : p.Mapped := by
  intro i hi v hlo hhi
  obtain ⟨s, hptr, hsize, hs⟩ := (h.held i hi).extent
  have hbound := h.extent_bound hs
  have hv : v < 2 ^ 32 := by
    unfold blocksFor at hbound
    unfold heapAddress at hptr
    omega
  rw [h.chunkAt.getPage_eq h.block hv, (h.held i hi).mapped v hlo hhi,
    show 4096 * (v / 4096) = v - v % 4096 by omega]
  rfl

theorem chunkAt_fill (h : p.Inv live c F) {s n size : ℕ} (hsize : size ≤ 4096 * n)
    (hout : ∀ e ∈ live, (⟨s, n⟩ : Extent).Disjoint e) :
    ChunkAt (fill p.k.mem (p.k.heap.startAddress + 4096 * s) size 0) p.pageDirectory c F := by
  apply h.chunkAt.congr
  intro a ha j hj
  obtain ⟨t, ht, hat⟩ := h.chunkOwned a ha
  have htmem := h.wellFormed.tiling.layout.start_mem ht
  have hnot : ¬ ((s : ℤ) ≤ t ∧ t < s + n) := fun hmem => hout _ ht t hmem htmem
  exact load32_congr fun x hlo hhi => fill_outside _ _ (by omega)

/-- The mapping loop over the pages of a kernel block always succeeds. -/
theorem mapPageRange (h : p.Inv live c F) {mem : Mem} (hat : ChunkAt mem p.pageDirectory c F)
    {s size flags : ℕ} (hf : flags < 4096) (hs : s + blocksFor size ≤ 25600) :
    (Zhios.mapPageRange mem p.pageDirectory (heapAddress + 4096 * s) (heapAddress + 4096 * s)
        (int32 size) flags).1 = 0 ∧
      ChunkAt (Zhios.mapPageRange mem p.pageDirectory (heapAddress + 4096 * s)
        (heapAddress + 4096 * s) (int32 size) flags).2 p.pageDirectory c
        (remapRange F (4096 + s) (size / 4096 + 1) flags) := by
  unfold blocksFor at hs
  have hsmall : int32 size = size := int32_of_bounds (by omega) (by omega)
  have hbase : heapAddress + 4096 * s = 4096 * (4096 + s) := by unfold heapAddress; omega
  have hloop := ChunkAt.mapPageLoop h.separate h.block hf (size / 4096 + 1) (4096 * (4096 + s))
    (by omega) (by omega) mem F hat
  rw [show 4096 * (4096 + s) / 4096 = 4096 + s by omega] at hloop
  rw [hsmall, hbase, mapPageRange_eq mem p.pageDirectory flags (by omega) (by omega)]
  exact hloop

theorem held_remap {a : ProcessAllocation} {live' : List Extent} {page : ℕ}
    (h : a.Held live page c F) (hsub : ∀ e ∈ live, e ∈ live') (m n : ℕ) :
    a.Held live' page c (remapRange F m n 7) := by
  obtain ⟨s, hptr, hsize, hs⟩ := h.extent
  refine ⟨⟨s, hptr, hsize, hsub _ hs⟩, h.apart, fun v hlo hhi => ?_⟩
  rw [remapRange]
  split_ifs
  · rfl
  · exact h.mapped v hlo hhi

/-- A served request: the first run that holds it is marked, its pages are mapped,
its slot is filled, and the rest is kept. -/
theorem malloc_served (h : p.Inv live c F) {size ind : ℕ} (hsize : 1 ≤ size)
    (hind : processGetAllocation p = ind) (hblocks : blocksFor size < 2 ^ 20)
    (hrun : p.k.heap.HasFreeRun (blocksFor size)) :
    ∃ s : ℕ, p.k.heap.FreeRun s (blocksFor size) ∧
      (∀ s', p.k.heap.FreeRun s' (blocksFor size) → s ≤ s') ∧
      (processMalloc p size).2.k.heap = heapAllocateBlocks p.k.heap s (blocksFor size) ∧
      (processMalloc p size).2.allocations =
        Function.update p.allocations ind ⟨heapAddress + 4096 * s, size⟩ ∧
      (processMalloc p size).2.Inv (⟨s, blocksFor size⟩ :: live) c
        (remapRange F (4096 + s) (size / 4096 + 1) 7) := by
  obtain ⟨s, hfree, hmin, heq, hwf⟩ := h.wellFormed.kzalloc hsize hblocks hrun
  have hin := hfree.1
  have htotal := h.total_eq
  have hstart := h.start_eq
  have hout : ∀ e ∈ live, (⟨s, blocksFor size⟩ : Extent).Disjoint e :=
    fun e he => hwf.tiling.layout.head_disjoint he
  have hnew : ∀ t m, (⟨t, m⟩ : Extent) ∈ live → t ≠ (s : ℤ) := by
    rintro t m ht rfl
    exact hout _ ht s (hwf.tiling.layout.start_mem List.mem_cons_self)
      (h.wellFormed.tiling.layout.start_mem ht)
  have hle : size ≤ 4096 * blocksFor size := by unfold blocksFor; omega
  have hchunk := h.chunkAt_fill hle hout
  rw [hstart] at heq hchunk
  obtain ⟨hres, hat⟩ := h.mapPageRange hchunk (show 7 < 4096 by decide)
    (show s + blocksFor size ≤ 25600 by omega)
  rw [heq] at hwf
  have hp : (processMalloc p size).2 = { p with
      k := ⟨heapAllocateBlocks p.k.heap s (blocksFor size),
        (Zhios.mapPageRange (fill p.k.mem (heapAddress + 4096 * s) size 0) p.pageDirectory
          (heapAddress + 4096 * s) (heapAddress + 4096 * s) (int32 size) 7).2⟩
      allocations := Function.update p.allocations ind ⟨heapAddress + 4096 * s, size⟩ } := by
    have hflags : pagingIsPresent ||| pagingAccessFromAll ||| pagingIsWritable = 7 := rfl
    simp only [processMalloc, hind, heq, hflags, hres, Int.toNat_natCast, lt_irrefl, if_false]
    rw [if_neg (by omega), if_neg (by unfold heapAddress; omega)]
  have hheld : ProcessAllocation.Held ⟨heapAddress + 4096 * s, size⟩ (⟨s, blocksFor size⟩ :: live)
      p.pageDirectory c (remapRange F (4096 + s) (size / 4096 + 1) 7) := by
    refine ⟨⟨s, rfl, hsize, List.mem_cons_self⟩, fun hblock => ?_, fun v hlo hhi => if_pos ?_⟩
    · obtain ⟨t, ht, hat⟩ := h.chunkOwned _ hblock
      exact hnew t 1 ht (by rw [hstart] at hat; push_cast at hat; omega)
    · simp only [heapAddress] at hlo hhi
      omega
  have hptr : ∀ i, p.Live i → (p.allocations i).ptr ≠ heapAddress + 4096 * s := by
    intro i hi heq
    obtain ⟨t, hptr, -, ht⟩ := (h.held i hi).extent
    exact hnew t _ ht (by omega)
  rw [hp]
  refine ⟨s, hfree, hmin, rfl, rfl, hwf.withMem _, by simpa using htotal, by simpa using hstart,
    fun a ha => ?_, h.separate, hat, fun i hi => ?_, fun i j hi hj hij => ?_⟩
  · obtain ⟨t, ht, hat⟩ := h.chunkOwned a ha
    exact ⟨t, List.mem_cons_of_mem _ ht, by simpa using hat⟩
  · simp only [ProcessMemory.Live, Function.update_apply] at hi ⊢
    split_ifs at hi ⊢ with hne
    · exact hheld
    · exact held_remap (h.held i hi) (fun e he => List.mem_cons_of_mem _ he) _ _
  · simp only [ProcessMemory.Live, Function.update_apply] at hi hj hij
    split_ifs at hi hj hij with hie hje
    · exact hie.trans hje.symm
    · exact absurd hij.symm (hptr j hj)
    · exact absurd hij (hptr i hi)
    · exact h.distinct i j hi hj hij

theorem malloc (h : p.Inv live c F) {size : ℕ} (hsize : 1 ≤ size) (hsafe : p.Safe (.malloc size)) :
    ∃ live' F', (processMalloc p size).2.Inv live' c F' := by
  rcases findAllocation_slot p 0 with ⟨hnone, -⟩ | ⟨ind, hind, hlt, hempty⟩
  · have hfull : processGetAllocation p = -EMEM := hnone
    have hp : (processMalloc p size).2 = p := by simp [processMalloc, hfull, EMEM]
    exact ⟨live, F, by rwa [hp]⟩
  · obtain ⟨hblocks, hroom⟩ := hsafe.resolve_left fun hall => (hall ind hlt).2 hempty
    by_cases hrun : p.k.heap.HasFreeRun (blocksFor size)
    · obtain ⟨s, -, -, -, -, hinv⟩ := h.malloc_served hsize hind hblocks hrun
      exact ⟨_, _, hinv⟩
    · have hnull := kzalloc_null hsize hblocks hrun (hroom.resolve_left hrun)
      have hp : (processMalloc p size).2 = p := by
        simp only [processMalloc, hnull, if_true]
        split_ifs <;> rfl
      exact ⟨live, F, by rwa [hp]⟩

/-- Unmapping the pages of one allocation leaves another mapped, unless the other
starts on the extra page. -/
theorem held_unmap {a b : ProcessAllocation} (h : p.Inv live c F)
    (ha : a.Held live p.pageDirectory c F) (hb : b.Held live p.pageDirectory c F) {s : ℕ}
    (hs : (⟨s, blocksFor b.size⟩ : Extent) ∈ live) (hptr : b.ptr = heapAddress + 4096 * s)
    (hne : a.ptr ≠ b.ptr) (hbehind : b.size % 4096 = 0 → a.ptr ≠ b.ptr + b.size) :
    a.Held (live.erase ⟨s, blocksFor b.size⟩) p.pageDirectory c
      (remapRange F (4096 + s) (b.size / 4096 + 1) 0) := by
  obtain ⟨t, haptr, hsize, ht⟩ := ha.extent
  obtain ⟨-, -, hbsize, -⟩ := hb.extent
  have hdiff : (⟨t, blocksFor a.size⟩ : Extent) ≠ ⟨s, blocksFor b.size⟩ := by
    intro heq
    have hts : (t : ℤ) = s := congrArg Extent.start heq
    omega
  have hdisj : ∀ i : ℤ, ¬ (((t : ℤ) ≤ i ∧ i < t + blocksFor a.size) ∧
      ((s : ℤ) ≤ i ∧ i < s + blocksFor b.size)) :=
    fun i hi => hdiff (h.wellFormed.tiling.layout.owner_unique ht hs hi.1 hi.2)
  refine ⟨⟨t, haptr, hsize, (List.mem_erase_of_ne hdiff).mpr ht⟩, ha.apart, fun v hlo hhi => ?_⟩
  rw [remapRange, if_neg, ha.mapped v hlo hhi]
  have hv := hdisj ((v / 4096 : ℕ) - 4096)
  have hbefore := hdisj ((v / 4096 : ℕ) - 4096 - 1)
  unfold blocksFor at hv hbefore
  unfold heapAddress at hptr haptr
  omega

/-- A release: the state after it, and the flat map with the range unmapped. -/
theorem free_state (h : p.Inv live c F) {i : ℕ} (hi : p.Live i) :
    ∃ (s : ℕ) (mem' : Mem), (p.allocations i).ptr = heapAddress + 4096 * s ∧
      (⟨s, blocksFor (p.allocations i).size⟩ : Extent) ∈ live ∧
      processFreeAllocation p (p.allocations i).ptr = { p with
        k := kfree { p.k with mem := mem' } (p.k.heap.address s)
        allocations := Function.update p.allocations i ⟨0, 0⟩ } ∧
      ChunkAt mem' p.pageDirectory c (remapRange F (4096 + s) ((p.allocations i).size / 4096 + 1) 0) := by
  rcases findAllocation_slot p (p.allocations i).ptr with ⟨-, hall⟩ | ⟨ind, hind, hlt, hptr⟩
  · exact absurd rfl (hall i hi.1)
  obtain rfl : ind = i := h.distinct ind i ⟨hlt, by rw [hptr]; exact hi.2⟩ hi hptr
  obtain ⟨s, hs, hsize, hmem⟩ := (h.held ind hi).extent
  obtain ⟨-, hat⟩ := h.mapPageRange h.chunkAt (show 0 < 4096 by decide) (h.extent_bound hmem)
  have hbound := h.extent_bound hmem
  have hpos : 1 ≤ blocksFor (p.allocations ind).size := by unfold blocksFor; omega
  have haddr : p.k.heap.address s = (p.allocations ind).ptr := by
    rw [h.wellFormed.address_eq (by rw [h.total_eq]; omega), h.start_eq, hs]
  refine ⟨s, _, hs, hmem, ?_, hat⟩
  have hget : processGetPtrAllocation p (p.allocations ind).ptr = ind := hind
  simp only [processFreeAllocation, hget, Int.toNat_natCast]
  rw [if_neg (by omega), haddr, hs]

theorem free (h : p.Inv live c F) {ptr : ℕ} (hallow : p.Allows (.free ptr))
    (hsafe : p.Safe (.free ptr)) :
    ∃ live' F', (processFreeAllocation p ptr).Inv live' c F' := by
  obtain ⟨i, hi, rfl⟩ := hallow
  obtain ⟨s, mem', hs, hmem, hp, hat⟩ := h.free_state hi
  have hwf := ((h.wellFormed.perm (List.perm_cons_erase hmem)).withMem mem').kfree
  have hlive : ∀ j, ProcessMemory.Live { p with
      allocations := Function.update p.allocations i ⟨0, 0⟩ } j → j ≠ i ∧ p.Live j := by
    intro j hj
    simp only [ProcessMemory.Live, Function.update_apply] at hj
    split_ifs at hj with hji
    · exact absurd rfl hj.2
    · exact ⟨hji, hj⟩
  rw [hp]
  refine ⟨live.erase ⟨s, blocksFor (p.allocations i).size⟩, _, hwf, by simpa using h.total_eq,
    by simpa using h.start_eq, fun a ha => ?_, h.separate, hat, fun j hj => ?_, fun j m hj hm hjm => ?_⟩
  · obtain ⟨t, ht, hat⟩ := h.chunkOwned a ha
    refine ⟨t, (List.mem_erase_of_ne fun heq => ?_).mpr ht, by simpa using hat⟩
    have hts : t = s := congrArg Extent.start heq
    have hstart := h.start_eq
    obtain rfl : a = (p.allocations i).ptr := by rw [hs]; omega
    exact (h.held i hi).apart ha
  · obtain ⟨hji, hj⟩ := hlive j hj
    simp only [Function.update_of_ne hji]
    exact held_unmap h (h.held j hj) (h.held i hi) hmem hs
      (fun heq => hji (h.distinct j i hj hi heq)) fun hmul => hsafe i hi rfl hmul j hj
  · obtain ⟨hji, hj⟩ := hlive j hj
    obtain ⟨hmi, hm⟩ := hlive m hm
    simp only [Function.update_of_ne hji, Function.update_of_ne hmi] at hjm
    exact h.distinct j m hj hm hjm

theorem exec (h : p.Inv live c F) {op : ProcessOp} (hallow : p.Allows op) (hsafe : p.Safe op) :
    ∃ live' F', (p.exec op).Inv live' c F' := by
  cases op with
  | malloc size => exact h.malloc hallow.1 hsafe
  | free ptr => exact h.free hallow hsafe

end ProcessMemory.Inv

/-- A process that has not allocated yet: the kernel heap is tiled, its page
directory is a chunk of live blocks with any contents, and every slot is empty. -/
def ProcessMemory.Started (p : ProcessMemory) : Prop :=
  (∃ live c F, p.Inv live c F) ∧ ∀ i, ¬ p.Live i

/-- One call that the process may make and that keeps out of the way of others. -/
inductive SafeStep : ProcessMemory → ProcessMemory → Prop
  | exec (p : ProcessMemory) (op : ProcessOp) (hallow : p.Allows op) (hsafe : p.Safe op) :
      SafeStep p (p.exec op)

theorem ProcessMemory.Inv.run {p p' : ProcessMemory} {c : Chunk} (h : ∃ live F, p.Inv live c F)
    (hrun : Relation.ReflTransGen SafeStep p p') : ∃ live F, p'.Inv live c F := by
  induction hrun with
  | refl => exact h
  | tail _ hs ih =>
    obtain ⟨live, F, hinv⟩ := ih
    cases hs with
    | exec op hallow hsafe => exact hinv.exec hallow hsafe

/-- In every run of safe calls, every page of every live allocation stays mapped. -/
theorem processMemory_run_mapped (p p' : ProcessMemory) (hstart : p.Started)
    (hrun : Relation.ReflTransGen SafeStep p p') : p'.Mapped := by
  obtain ⟨⟨live, c, F, h⟩, -⟩ := hstart
  obtain ⟨live', F', h'⟩ := ProcessMemory.Inv.run ⟨live, F, h⟩ hrun
  exact h'.toMapped

def ProcessMemory.fresh (k : KMem) (page : ℕ) : ProcessMemory := ⟨k, page, fun _ => ⟨0, 0⟩⟩

theorem ProcessMemory.fresh_started {k k' : KMem} {live : List Extent} (h : k.WellFormed live)
    (htotal : k.heap.total = 25600) (hstart : k.heap.startAddress = heapAddress) {flags page : ℕ}
    (hf : flags < 256) (hnew : pagingNewChunk k flags = some (page, k')) :
    (ProcessMemory.fresh k' page).Started := by
  obtain ⟨live', c, hc⟩ := pagingNewChunk_spec h hf hnew
  have hempty : ∀ i, ¬ (ProcessMemory.fresh k' page).Live i := fun i hi => hi.2 rfl
  exact ⟨⟨live', c, _, hc.wellFormed, hc.region.total_eq.trans htotal, hc.region.start_eq.trans hstart,
    hc.owned, hc.separate, hc.chunkAt, fun i hi => absurd hi (hempty i),
    fun i j hi => absurd hi (hempty i)⟩, hempty⟩

theorem ProcessMemory.first_started :
    ∃ page k', pagingNewChunk ⟨freshKernelHeap, fun _ => 0⟩ 5 = some (page, k') ∧
      (ProcessMemory.fresh k' page).Started ∧ k'.heap.Filled 1026 := by
  have hwf := freshKernelHeap_wellFormed fun _ => 0
  obtain ⟨page, k', hnew, -, hfilled⟩ := pagingNewChunk_succeeds hwf 5 (by simp [Layout.used])
  exact ⟨page, k', hnew, ProcessMemory.fresh_started hwf freshKernelHeap_total
    freshKernelHeap_startAddress (by decide) hnew, hfilled 0 freshKernelHeap_filled⟩

theorem ProcessMemory.Inv.malloc_filled {p : ProcessMemory} {live : List Extent} {c : Chunk}
    {F : ℕ → ℕ} (h : p.Inv live c F) {n i : ℕ} (hfilled : p.k.heap.Filled n) (hn : n < 25600)
    (hi : processGetAllocation p = i) :
    ∃ live' F', (p.exec (.malloc 4096)).Inv live' c F' ∧
      (p.exec (.malloc 4096)).k.heap.Filled (n + 1) ∧
      (p.exec (.malloc 4096)).allocations =
        Function.update p.allocations i ⟨heapAddress + 4096 * n, 4096⟩ := by
  have htotal := h.total_eq
  have hrun : p.k.heap.HasFreeRun (blocksFor 4096) := by
    refine ⟨n, by rw [htotal]; exact hn, fun k hlo hhi => ?_⟩
    unfold blocksFor at hhi
    exact (hfilled k (by omega)).mpr hlo
  obtain ⟨s, hfree, hmin, hheap, hslots, hinv⟩ :=
    h.malloc_served (by decide) hi (by decide) hrun
  obtain ⟨rfl, hnext⟩ := hfilled.allocate (by omega) le_rfl hfree hmin
  refine ⟨_, _, hinv, ?_, hslots⟩
  rw [ProcessMemory.exec, hheap]
  exact hnext

/-- Two one-page allocations lie back to back, and freeing the first unmaps the
second. -/
theorem processFreeAllocation_unmaps_neighbour :
    ∃ page k', pagingNewChunk ⟨freshKernelHeap, fun _ => 0⟩ 5 = some (page, k') ∧
      (ProcessMemory.fresh k' page).Started ∧
      (ProcessMemory.fresh k' page).Allows (.malloc 4096) ∧
      ((ProcessMemory.fresh k' page).exec (.malloc 4096)).Allows (.malloc 4096) ∧
      (((ProcessMemory.fresh k' page).exec (.malloc 4096)).exec (.malloc 4096)).Allows
        (.free (heapAddress + 4096 * 1026)) ∧
      ¬ ((((ProcessMemory.fresh k' page).exec (.malloc 4096)).exec (.malloc 4096)).exec
        (.free (heapAddress + 4096 * 1026))).Mapped := by
  obtain ⟨page, k', hnew, hstarted, hfilled⟩ := ProcessMemory.first_started
  refine ⟨page, k', hnew, hstarted, ⟨by decide, by decide⟩, ⟨by decide, by decide⟩, ?_⟩
  obtain ⟨⟨live, c, F, h⟩, -⟩ := hstarted
  obtain ⟨live₁, F₁, h₁, hfilled₁, hslots₁⟩ := h.malloc_filled hfilled (by decide) (i := 0)
    (by simp [processGetAllocation, zhiosProcessMaxAllocations, findAllocation, findSlot, ProcessMemory.fresh])
  generalize (ProcessMemory.fresh k' page).exec (.malloc 4096) = p₁ at *
  obtain ⟨live₂, F₂, h₂, -, hslots₂⟩ := h₁.malloc_filled hfilled₁ (by decide) (i := 1)
    (by simp [processGetAllocation, zhiosProcessMaxAllocations, findAllocation, findSlot, hslots₁,
      ProcessMemory.fresh, heapAddress])
  generalize p₁.exec (.malloc 4096) = p₂ at *
  have hfirst : p₂.allocations 0 = ⟨heapAddress + 4096 * 1026, 4096⟩ := by
    rw [hslots₂, Function.update_of_ne (by decide), hslots₁, Function.update_self]
  have hsecond : p₂.allocations 1 = ⟨heapAddress + 4096 * 1027, 4096⟩ := by
    rw [hslots₂, Function.update_self]
  have hlive : p₂.Live 0 := ⟨by decide, by rw [hfirst]; decide⟩
  refine ⟨⟨0, hlive, by rw [hfirst]⟩, fun hmapped => ?_⟩
  obtain ⟨s, mem', hs, -, hp, hat⟩ := h₂.free_state hlive
  rw [hfirst] at hs hp hat
  obtain rfl : s = 1026 := by simp only at hs; omega
  have hpage := hmapped 1
  rw [ProcessMemory.exec, hp] at hpage
  simp only [ProcessMemory.Live, Function.update_of_ne (show (1 : ℕ) ≠ 0 by decide), hsecond,
    kfree_mem] at hpage
  have hread := hat.getPage_eq h₂.block (v := heapAddress + 4096 * 1027) (by decide)
  have hv := hpage ⟨by decide, by decide⟩ (heapAddress + 4096 * 1027) le_rfl (by decide)
  rw [hread, remapRange, if_pos (by decide)] at hv
  exact absurd hv (by decide)

theorem processMemory_run_mapped_first :
    ∃ page k', pagingNewChunk ⟨freshKernelHeap, fun _ => 0⟩ 5 = some (page, k') ∧
      ((ProcessMemory.fresh k' page).exec (.malloc 4096)).Live 0 ∧
      ((ProcessMemory.fresh k' page).exec (.malloc 4096)).Mapped := by
  obtain ⟨page, k', hnew, hstarted, hfilled⟩ := ProcessMemory.first_started
  obtain ⟨live, c, F, h⟩ := hstarted.1
  have htotal := h.total_eq
  have hrun : k'.heap.HasFreeRun (blocksFor 4096) := by
    refine ⟨1026, by rw [show k'.heap.total = 25600 from htotal]; decide, fun k hlo hhi => ?_⟩
    exact (hfilled k (by unfold blocksFor at hhi; simp only [ProcessMemory.fresh] at htotal; omega)).mpr hlo
  obtain ⟨-, -, -, -, hslots⟩ := h.malloc_filled hfilled (by decide) (i := 0)
    (by simp [processGetAllocation, zhiosProcessMaxAllocations, findAllocation, findSlot, ProcessMemory.fresh])
  refine ⟨page, k', hnew, ⟨by decide, by rw [hslots, Function.update_self]; decide⟩, ?_⟩
  exact processMemory_run_mapped _ _ hstarted
    (.single (.exec _ (.malloc 4096) ⟨by decide, by decide⟩ (Or.inr ⟨by decide, Or.inl hrun⟩)))

end Zhios
