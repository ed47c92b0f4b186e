import Zhios.Lib.StringMemory
import Zhios.Memory.PagingRelease

/-! `copy_string_from_task` of `src/task/task.c`. The string is read in the address space
of the task, through a page that is mapped there for the time of the call. Before and
after, the kernel's own directory is in force, which maps every page to itself. -/
namespace Zhios
open Machine

/-- The way of the processor through the tables of a directory; a page that is not present
on the way is a fault. -/
def pageWalk (mem : Mem) (directory v : ℕ) : Option ℕ :=
  let entry := load32 mem (directory + 4 * (pagingGetIndex v).1)
  let word := load32 mem ((entry &&& 0xfffff000) + 4 * (pagingGetIndex v).2)
  if entry &&& pagingIsPresent = 0 ∨ word &&& pagingIsPresent = 0 then none
  else some ((word &&& 0xfffff000) + v % pagingPageSize)

/-- A copy in progress: memory, and the addresses that were read and written. -/
structure Copied where
  mem : Mem
  reads : List ℕ
  writes : List ℕ

/-- The loop of `strncpy` with `fuel` bytes left, in an address space. The null goes behind
the last byte. -/
def strncpyLoop (space : Mem → ℕ → Option ℕ) (src dest : ℕ) : (fuel i : ℕ) → Copied → Option Copied
  | 0, i, s =>
    (space s.mem (dest + i)).map fun b =>
      { s with mem := Function.update s.mem b 0, writes := s.writes ++ [dest + i] }
  | fuel + 1, i, s =>
    (space s.mem (src + i)).bind fun a =>
      (space s.mem (dest + i)).bind fun b =>
        strncpyLoop space src dest fuel (i + 1)
          ⟨Function.update s.mem b (s.mem a), s.reads ++ [src + i], s.writes ++ [dest + i]⟩

def strncpy (space : Mem → ℕ → Option ℕ) (mem : Mem) (src dest : ℕ) (n : ℤ) : Option Copied :=
  strncpyLoop space src dest n.toNat 0 ⟨mem, [], []⟩

def taskSpace (directory : ℕ) (mem : Mem) (v : ℕ) : Option ℕ := pageWalk mem directory (v % 2 ^ 32)

def kernelSpace (_ : Mem) (a : ℕ) : Option ℕ := some a

/-- What the call leaves: the result, the kernel's memory, the page in force, the addresses
of the task that were read and those of the destination that were written. -/
structure StringCopy where
  res : ℤ
  k : KMem
  page : ℕ
  reads : List ℕ
  writes : List ℕ

/-- There is no result when the task's page is not present: the fault ends the call. -/
def copyStringFromTask (k : KMem) (current kernelPage page virtual dest : ℕ) (max : ℤ) : Option StringCopy :=
  if max ≥ pagingPageSize then some ⟨-EINARG, k, current, [], []⟩
  else
    let r := kzalloc k (uint32 max)
    let tmp := r.1
    if tmp = 0 then some ⟨-EMEM, r.2, current, [], []⟩
    else
      let oldEntry := getPage r.2.mem (pagingGetDirectory r.2.mem page) tmp
      let mem := (mapPage r.2.mem page tmp tmp (pagingIsWritable ||| pagingIsPresent ||| pagingAccessFromAll)).2
      (strncpy (taskSpace (pagingGetDirectory mem page)) mem virtual tmp max).bind fun first =>
        let s := setPage first.mem (pagingGetDirectory first.mem page) tmp oldEntry
        if s.1 < 0 then some ⟨s.1, kfree { r.2 with mem := s.2 } tmp, kernelPage, first.reads, []⟩
        else
          (strncpy kernelSpace s.2 tmp dest max).map fun second =>
            ⟨s.1, kfree { r.2 with mem := second.mem } tmp, kernelPage, first.reads, second.writes⟩

section Loop
variable {space : Mem → ℕ → Option ℕ} {src dest : ℕ}

theorem strncpyLoop_invariant {P : Mem → Prop} {n : ℕ}
    (hstore : ∀ m j b v, P m → j ≤ n → space m (dest + j) = some b → P (Function.update m b v)) {fuel i : ℕ}
    {s s' : Copied} (hi : i + fuel ≤ n) (hP : P s.mem) (h : strncpyLoop space src dest fuel i s = some s') :
    P s'.mem := by
  induction fuel generalizing i s with
  | zero =>
    obtain ⟨b, hb, rfl⟩ := Option.map_eq_some_iff.mp h
    exact hstore s.mem i b 0 hP (by omega) hb
  | succ fuel ih =>
    obtain ⟨a, -, h⟩ := Option.bind_eq_some_iff.mp h
    obtain ⟨b, hb, h⟩ := Option.bind_eq_some_iff.mp h
    exact ih (by omega) (hstore s.mem i b _ hP (by omega) hb) h

/-- The bytes are read and written in order, and one more is written. -/
theorem strncpyLoop_addresses {fuel i : ℕ} {s s' : Copied} (h : strncpyLoop space src dest fuel i s = some s') :
    s'.reads = s.reads ++ (List.range' i fuel).map (src + ·) ∧
      s'.writes = s.writes ++ (List.range' i (fuel + 1)).map (dest + ·) := by
  induction fuel generalizing i s with
  | zero =>
    obtain ⟨b, -, rfl⟩ := Option.map_eq_some_iff.mp h
    simp
  | succ fuel ih =>
    obtain ⟨a, -, h⟩ := Option.bind_eq_some_iff.mp h
    obtain ⟨b, -, h⟩ := Option.bind_eq_some_iff.mp h
    obtain ⟨hreads, hwrites⟩ := ih h
    constructor
    · rw [hreads]
      simp [List.range'_succ]
    · rw [hwrites]
      simp [List.range'_succ]

/-- The loop gets to its end if no address faults while `P` holds. -/
theorem strncpyLoop_returns {P : Mem → Prop} {n : ℕ}
    (hstore : ∀ m j b v, P m → j ≤ n → space m (dest + j) = some b → P (Function.update m b v))
    (hread : ∀ m j, P m → j < n → ∃ a, space m (src + j) = some a)
    (hwrite : ∀ m j, P m → j ≤ n → ∃ b, space m (dest + j) = some b) {fuel i : ℕ} {s : Copied} (hi : i + fuel = n)
    (hP : P s.mem) : ∃ s', strncpyLoop space src dest fuel i s = some s' := by
  induction fuel generalizing i s with
  | zero =>
    obtain ⟨b, hb⟩ := hwrite s.mem i hP (by omega)
    rw [strncpyLoop, hb]
    exact ⟨_, rfl⟩
  | succ fuel ih =>
    obtain ⟨a, ha⟩ := hread s.mem i hP (by omega)
    obtain ⟨b, hb⟩ := hwrite s.mem i hP (by omega)
    rw [strncpyLoop, ha, hb]
    exact ih (by omega) (hstore s.mem i b _ hP (by omega) hb)

end Loop

/-- The pages of a task: a chunk with blocks of its own, that maps pages in any way. -/
structure TaskPages (k : KMem) (live : List Extent) (page : ℕ) (c : Chunk) (F : ℕ → ℕ) : Prop where
  wellFormed : k.WellFormed live
  separate : c.Separate page
  owned : ∀ a, c.IsBlock page a → k.Owns live a
  chunkAt : ChunkAt k.mem page c F

namespace TaskPages
variable {k : KMem} {live : List Extent} {page : ℕ} {c : Chunk} {F : ℕ → ℕ}

theorem newChunk (h : k.WellFormed live) {flags : ℕ} {k' : KMem} (hf : flags < 256)
    (hnew : pagingNewChunk k flags = some (page, k')) : ∃ live' c, TaskPages k' live' page c (identityMap flags) := by
  obtain ⟨live', c, hc⟩ := pagingNewChunk_spec h hf hnew
  exact ⟨live', c, hc.wellFormed, hc.separate, hc.owned, hc.chunkAt⟩

theorem block (h : TaskPages k live page c F) (a : ℕ) (ha : c.IsBlock page a) : a % 4096 = 0 ∧ a + 4096 ≤ 2 ^ 32 :=
  ⟨(h.owned a ha).aligned h.wellFormed, (h.owned a ha).lt h.wellFormed⟩

theorem calls (h : TaskPages k live page c F) {mem : Mem} (hrun : Relation.ReflTransGen (TableCall page) k.mem mem) :
    ∃ F', TaskPages { k with mem := mem } live page c F' := by
  obtain ⟨F', hat⟩ := h.chunkAt.calls h.separate h.block hrun
  exact ⟨F', h.wellFormed.withMem mem, h.separate, h.owned, hat⟩

end TaskPages

theorem ChunkAt.congr_bytes {mem mem' : Mem} {page : ℕ} {c : Chunk} {F : ℕ → ℕ} (h : ChunkAt mem page c F)
    (hsame : ∀ a, c.IsBlock page a → ∀ x, a ≤ x → x < a + 4096 → mem' x = mem x) : ChunkAt mem' page c F :=
  h.congr fun a ha j hj => load32_congr fun x hlo hhi => hsame a ha x (by omega) (by omega)

theorem TaskPages.kzalloc {k k' : KMem} {live live' : List Extent} {page tmp size : ℕ} {c : Chunk} {F : ℕ → ℕ}
    (h : TaskPages k live page c F) (hfresh : k.FreshBlock k' live live' tmp size) (hsize : size ≤ 4096) :
    TaskPages k' live' page c F ∧ ∀ a, c.IsBlock page a → tmp + 4096 ≤ a ∨ a + 4096 ≤ tmp := by
  have hapart : ∀ a, c.IsBlock page a → tmp + 4096 ≤ a ∨ a + 4096 ≤ tmp := by
    intro a ha
    have htmp := hfresh.owned.aligned hfresh.wellFormed
    have haligned := (h.block a ha).1
    have hne : tmp ≠ a := fun heq => hfresh.fresh (heq ▸ h.owned a ha)
    omega
  refine ⟨⟨hfresh.wellFormed, h.separate, fun a ha => hfresh.mono a (h.owned a ha), ?_⟩, hapart⟩
  rw [hfresh.mem_eq]
  refine h.chunkAt.congr_bytes fun a ha x hlo hhi => fill_outside _ _ ?_
  have := hapart a ha
  omega

/-- The memory in which the string is read: the temporary page is mapped to itself. -/
def withTemporaryPage (mem : Mem) (page tmp : ℕ) : Mem :=
  (mapPage mem page tmp tmp (pagingIsWritable ||| pagingIsPresent ||| pagingAccessFromAll)).2

section Walk
variable {mem : Mem} {page tmp : ℕ} {c : Chunk} {F : ℕ → ℕ}
  (hblock : ∀ a, c.IsBlock page a → a % 4096 = 0 ∧ a + 4096 ≤ 2 ^ 32)
include hblock

theorem ChunkAt.pageWalk_eq (h : ChunkAt mem page c F) {v b : ℕ} (hv : v < 2 ^ 32)
    (hwalk : pageWalk mem c.directory v = some b) : b = (F (v / 4096) &&& 0xfffff000) + v % 4096 := by
  have hd := directoryIndex_lt hv
  simp only [pageWalk, h.table_of_word hblock hd, h.tableWord _ hd _ tableIndex_lt, pagingGetIndex_page] at hwalk
  split_ifs at hwalk
  exact (Option.some.inj hwalk).symm

theorem ChunkAt.pageWalk_some (h : ChunkAt mem page c F) {v : ℕ} (hv : v < 2 ^ 32)
    (hdirectory : ∀ i < 1024, load32 mem (c.directory + 4 * i) &&& pagingIsPresent ≠ 0)
    (hpage : F (v / 4096) &&& pagingIsPresent ≠ 0) : ∃ b, pageWalk mem c.directory v = some b := by
  have hd := directoryIndex_lt hv
  simp only [pageWalk, h.table_of_word hblock hd, h.tableWord _ hd _ tableIndex_lt, pagingGetIndex_page]
  rw [if_neg (not_or.mpr ⟨hdirectory _ hd, hpage⟩)]
  exact ⟨_, rfl⟩

theorem ChunkAt.setPage (h : ChunkAt mem page c F) (hs : c.Separate page) {v w : ℕ} (hv : v < 2 ^ 32)
    (ha : v % 4096 = 0) (hw : w < 2 ^ 32) :
    ChunkAt (Zhios.setPage mem (pagingGetDirectory mem page) v w).2 page c (Function.update F (v / 4096) w) := by
  rw [h.setPage_eq hblock hv ha, ← pagingGetIndex_page]
  exact h.store hs hblock (directoryIndex_lt hv) tableIndex_lt hw

theorem ChunkAt.setPage_directory (h : ChunkAt mem page c F) (hs : c.Separate page) {v w i : ℕ} (hv : v < 2 ^ 32)
    (ha : v % 4096 = 0) (hw : w < 2 ^ 32) (hi : i < 1024) :
    load32 (Zhios.setPage mem (pagingGetDirectory mem page) v w).2 (c.directory + 4 * i) =
      load32 mem (c.directory + 4 * i) := by
  have hd := directoryIndex_lt hv
  rw [h.setPage_eq hblock hv ha, load32_store32_page mem (hblock _ (Or.inr (Or.inr ⟨_, hd, rfl⟩))).1
    (hblock _ (Or.inr (Or.inl rfl))).1 tableIndex_lt hi hw]
  exact if_neg fun heq => hs.directory_table _ hd heq.1.symm

theorem ChunkAt.withTemporaryPage (h : ChunkAt mem page c F) (hs : c.Separate page) (htmp : tmp + 4096 ≤ 2 ^ 32)
    (ha : tmp % 4096 = 0) :
    ChunkAt (withTemporaryPage mem page tmp) page c (Function.update F (tmp / 4096) (tmp ||| 7)) := by
  rw [Zhios.withTemporaryPage, mapPage_eq mem page _ ha ha]
  exact h.setPage hblock hs (by omega) ha (Nat.or_lt_two_pow (by omega) (by decide))

/-- A store through the task's tables to the temporary page stays in that page. -/
theorem ChunkAt.store_page (h : ChunkAt mem page c F) (hF : F (tmp / 4096) &&& 0xfffff000 = tmp)
    (htmp : tmp + 4096 ≤ 2 ^ 32) (ha : tmp % 4096 = 0)
    (hapart : ∀ a, c.IsBlock page a → tmp + 4096 ≤ a ∨ a + 4096 ≤ tmp) {n : ℕ} (hn : n < 4096) (m : Mem) (j b : ℕ)
    (v : UInt8) (hm : ∀ x, x < tmp ∨ tmp + 4096 ≤ x → m x = mem x) (hj : j ≤ n)
    (hwalk : taskSpace c.directory m (tmp + j) = some b) (x : ℕ) (hx : x < tmp ∨ tmp + 4096 ≤ x) :
    Function.update m b v x = mem x := by
  have hat : ChunkAt m page c F := h.congr_bytes fun a hblk x hlo hhi => hm x (by have := hapart a hblk; omega)
  have hv : (tmp + j) % 2 ^ 32 = tmp + j := Nat.mod_eq_of_lt (by omega)
  rw [taskSpace, hv] at hwalk
  have hb := hat.pageWalk_eq hblock (by omega) hwalk
  rw [show (tmp + j) / 4096 = tmp / 4096 by omega, hF] at hb
  rw [Function.update_of_ne (by omega), hm x hx]

/-- Through the task's tables the string goes to the temporary page. -/
theorem ChunkAt.strncpy_page (h : ChunkAt mem page c F) (hF : F (tmp / 4096) &&& 0xfffff000 = tmp)
    (htmp : tmp + 4096 ≤ 2 ^ 32) (ha : tmp % 4096 = 0)
    (hapart : ∀ a, c.IsBlock page a → tmp + 4096 ≤ a ∨ a + 4096 ≤ tmp) {src : ℕ} {n : ℤ} (hn : n < 4096) {s : Copied}
    (hcopy : strncpy (taskSpace c.directory) mem src tmp n = some s) :
    ∀ x, x < tmp ∨ tmp + 4096 ≤ x → s.mem x = mem x :=
  strncpyLoop_invariant (h.store_page hblock hF htmp ha hapart (show n.toNat < 4096 by omega)) (Nat.zero_add _).le
    (fun _ _ => rfl) hcopy

/-- Where the tables and the pages of the string are present, the copy ends. -/
theorem ChunkAt.strncpy_returns (h : ChunkAt mem page c F) (hF : F (tmp / 4096) &&& 0xfffff000 = tmp)
    (htmp : tmp + 4096 ≤ 2 ^ 32) (ha : tmp % 4096 = 0)
    (hapart : ∀ a, c.IsBlock page a → tmp + 4096 ≤ a ∨ a + 4096 ≤ tmp) {src : ℕ} {n : ℤ} (hn : n < 4096)
    (hdirectory : ∀ i < 1024, load32 mem (c.directory + 4 * i) &&& pagingIsPresent ≠ 0)
    (hpage : F (tmp / 4096) &&& pagingIsPresent ≠ 0)
    (hread : ∀ j < n.toNat, F ((src + j) % 2 ^ 32 / 4096) &&& pagingIsPresent ≠ 0) :
    ∃ s, strncpy (taskSpace c.directory) mem src tmp n = some s := by
  have hwalk : ∀ m, (∀ x, x < tmp ∨ tmp + 4096 ≤ x → m x = mem x) → ∀ v < 2 ^ 32,
      F (v / 4096) &&& pagingIsPresent ≠ 0 → ∃ b, pageWalk m c.directory v = some b := by
    intro m hm v hv hpresent
    have hsame : ∀ a, c.IsBlock page a → ∀ x, a ≤ x → x < a + 4096 → m x = mem x :=
      fun a hblk x hlo hhi => hm x (by have := hapart a hblk; omega)
    refine (h.congr_bytes hsame).pageWalk_some hblock hv (fun i hi => ?_) hpresent
    rw [load32_congr fun x hlo hhi => hsame c.directory (Or.inr (Or.inl rfl)) x (by omega) (by omega)]
    exact hdirectory i hi
  refine strncpyLoop_returns (h.store_page hblock hF htmp ha hapart (show n.toNat < 4096 by omega))
    (fun m j hm hj => ?_) (fun m j hm hj => ?_) (Nat.zero_add _) fun _ _ => rfl
  · exact hwalk m hm _ (Nat.mod_lt _ (by omega)) (hread j hj)
  · refine hwalk m hm _ (Nat.mod_lt _ (by omega)) ?_
    rw [Nat.mod_eq_of_lt (by omega), show (tmp + j) / 4096 = tmp / 4096 by omega]
    exact hpage

end Walk

/-- The kernel's copy stores what it is asked to, and a null behind it. -/
theorem strncpy_kernel_outside {mem : Mem} {src dest : ℕ} {n : ℤ} {s : Copied}
    (hcopy : strncpy kernelSpace mem src dest n = some s) : ∀ x, x < dest ∨ dest + n.toNat < x → s.mem x = mem x := by
  have hstore : ∀ m j b v, (∀ x, x < dest ∨ dest + n.toNat < x → m x = mem x) → j ≤ n.toNat →
      kernelSpace m (dest + j) = some b → ∀ x, x < dest ∨ dest + n.toNat < x → Function.update m b v x = mem x := by
    intro m j b v hm hj hb x hx
    have hb : dest + j = b := Option.some.inj hb
    rw [Function.update_of_ne (by omega), hm x hx]
  exact strncpyLoop_invariant hstore (Nat.zero_add _).le (fun x _ => rfl) hcopy

theorem strncpy_kernel_returns (mem : Mem) (src dest : ℕ) (n : ℤ) :
    ∃ s, strncpy kernelSpace mem src dest n = some s :=
  strncpyLoop_returns (P := fun _ => True) (fun _ _ _ _ _ _ _ => trivial) (fun _ j _ _ => ⟨src + j, rfl⟩)
    (fun _ j _ _ => ⟨dest + j, rfl⟩) (Nat.zero_add _) trivial

theorem KMem.WellFormed.kzalloc_null {k : KMem} {live : List Extent} (h : k.WellFormed live) {size : ℕ}
    (hsize : 1 ≤ size) (hle : size ≤ 4096) (hnull : (Zhios.kzalloc k size).1 = 0) :
    Zhios.kzalloc k size = (0, k) ∧ k.heap.freeBlocks = 0 := by
  have hnone : ∀ i < k.heap.total, ¬ k.heap.FreeAt i := by
    intro i hi hfree
    exact h.kzalloc_ne_zero_of_free hsize hle hi hfree hnull
  have hrun : ¬ k.heap.HasFreeRun 1 := by
    rintro ⟨s, hs, hfree⟩
    exact hnone s (by omega) (hfree s le_rfl (by omega))
  refine ⟨kzalloc_block_null hsize hle hrun, ?_⟩
  rw [Heap.freeBlocks, Finset.card_eq_zero, Finset.filter_eq_empty_iff]
  exact fun {i} hi => hnone i (Finset.mem_range.mp hi)

theorem KMem.WellFormed.freeBlocks_ne_zero {k : KMem} {live : List Extent} (h : k.WellFormed live) {size : ℕ}
    (hne : (Zhios.kzalloc k size).1 ≠ 0) : k.heap.freeBlocks ≠ 0 := by
  obtain ⟨b, -, hb, hfree⟩ := h.coherent.unused_kzalloc hne
  rw [Heap.freeBlocks, Ne, Finset.card_eq_zero, Finset.filter_eq_empty_iff]
  exact fun hnone => hnone (Finset.mem_range.mpr hb) hfree

section Call
variable {k : KMem} {live : List Extent} {current kernelPage page virtual dest : ℕ} {max : ℤ} {r : StringCopy}

/-- What a call that returns has done: nothing, for want of a page, or both copies. -/
theorem copyStringFromTask_cases (h : k.WellFormed live) (hpos : 1 ≤ max) (hlt : max < 4096)
    (hcall : copyStringFromTask k current kernelPage page virtual dest max = some r) :
    (k.heap.freeBlocks = 0 ∧ r = ⟨-EMEM, k, current, [], []⟩) ∨
      ∃ tmp k₁ live₁ first second, kzalloc k (uint32 max) = (tmp, k₁) ∧ tmp ≠ 0 ∧
        k.FreshBlock k₁ live live₁ tmp (uint32 max) ∧
        strncpy (taskSpace (pagingGetDirectory (withTemporaryPage k₁.mem page tmp) page))
          (withTemporaryPage k₁.mem page tmp) virtual tmp max = some first ∧
        strncpy kernelSpace (setPage first.mem (pagingGetDirectory first.mem page) tmp
          (getPage k₁.mem (pagingGetDirectory k₁.mem page) tmp)).2 tmp dest max = some second ∧
        r = ⟨0, kfree { k₁ with mem := second.mem } tmp, kernelPage, first.reads, second.writes⟩ := by
  have hmax : (uint32 max : ℤ) = max := uint32_of_bounds (by omega) (by omega)
  have hsize : 1 ≤ uint32 max ∧ uint32 max ≤ 4096 := by omega
  have hbelow : ¬ max ≥ (pagingPageSize : ℕ) := by
    unfold pagingPageSize
    omega
  rw [copyStringFromTask, if_neg hbelow] at hcall
  by_cases hnull : (kzalloc k (uint32 max)).1 = 0
  · obtain ⟨hsame, hnone⟩ := h.kzalloc_null hsize.1 hsize.2 hnull
    simp only [hsame, if_true, Option.some.injEq] at hcall
    exact Or.inl ⟨hnone, hcall.symm⟩
  · obtain ⟨live₁, hfresh⟩ := h.kzalloc_block hsize.1 hsize.2 hnull
    have haligned : isPageAligned (kzalloc k (uint32 max)).1 = true := by
      rw [isPageAligned, pagingPageSize, hfresh.owned.aligned hfresh.wellFormed]
      rfl
    simp only [if_neg hnull] at hcall
    obtain ⟨first, hfirst, hcall⟩ := Option.bind_eq_some_iff.mp hcall
    have hset : ∀ m d w, (setPage m d (kzalloc k (uint32 max)).1 w).1 = 0 := by
      intro m d w
      rw [setPage, haligned]
      rfl
    simp only [hset, lt_irrefl, if_false] at hcall
    obtain ⟨second, hsecond, rfl⟩ := Option.map_eq_some_iff.mp hcall
    exact Or.inr ⟨_, _, live₁, first, second, rfl, hnull, hfresh, hfirst, hsecond, rfl⟩

theorem copyStringFromTask_returns {c : Chunk} {F : ℕ → ℕ} (h : TaskPages k live page c F) (hpos : 1 ≤ max)
    (hlt : max < 4096) (hdirectory : ∀ i < 1024, load32 k.mem (c.directory + 4 * i) &&& pagingIsPresent ≠ 0)
    (hread : ∀ j < max.toNat, F ((virtual + j) % 2 ^ 32 / 4096) &&& pagingIsPresent ≠ 0) :
    ∃ r, copyStringFromTask k current kernelPage page virtual dest max = some r := by
  have hmax : (uint32 max : ℤ) = max := uint32_of_bounds (by omega) (by omega)
  have hbelow : ¬ max ≥ (pagingPageSize : ℕ) := by
    unfold pagingPageSize
    omega
  rw [copyStringFromTask, if_neg hbelow]
  by_cases hnull : (kzalloc k (uint32 max)).1 = 0
  · simp only [hnull, if_true]
    exact ⟨_, rfl⟩
  obtain ⟨live₁, hfresh⟩ := h.wellFormed.kzalloc_block (by omega) (by omega) hnull
  obtain ⟨tmp, k₁, hk₁⟩ : ∃ tmp k₁, kzalloc k (uint32 max) = (tmp, k₁) := ⟨_, _, rfl⟩
  simp only [hk₁] at hfresh hnull ⊢
  obtain ⟨h₁, hapart⟩ := h.kzalloc hfresh (by omega)
  have haligned := hfresh.owned.aligned hfresh.wellFormed
  have hfits := hfresh.owned.lt hfresh.wellFormed
  have hmapped := h₁.chunkAt.withTemporaryPage h₁.block h₁.separate hfits haligned
  have hpresent : ∀ i < 1024,
      load32 (withTemporaryPage k₁.mem page tmp) (c.directory + 4 * i) &&& pagingIsPresent ≠ 0 := by
    intro i hi
    have hdirectoryApart := hapart c.directory (Or.inr (Or.inl rfl))
    rw [withTemporaryPage, mapPage_eq _ _ _ haligned haligned,
      h₁.chunkAt.setPage_directory h₁.block h₁.separate (by omega) haligned
        (Nat.or_lt_two_pow (by omega) (by decide)) hi, hfresh.mem_eq,
      load32_congr fun x hlo hhi => fill_outside k.mem 0 (by omega)]
    exact hdirectory i hi
  have hentry : Function.update F (tmp / 4096) (tmp ||| 7) (tmp / 4096) &&& pagingIsPresent ≠ 0 := by
    rw [Function.update_self, or_page_flags haligned (by decide), pagingIsPresent, Nat.and_one_is_mod]
    omega
  obtain ⟨first, hfirst⟩ := hmapped.strncpy_returns h₁.block
    (by rw [Function.update_self, or_and_page_mask haligned (by decide) (by omega)]) hfits haligned hapart hlt hpresent
    hentry fun j hj => by
      by_cases hsame : (virtual + j) % 2 ^ 32 / 4096 = tmp / 4096
      · rw [hsame]
        exact hentry
      · rw [Function.update_of_ne hsame]
        exact hread j hj
  rw [← hmapped.pageWord] at hfirst
  have hset : ∀ m d w, (setPage m d tmp w).1 = 0 := by
    intro m d w
    rw [setPage, isPageAligned, pagingPageSize, haligned]
    rfl
  obtain ⟨second, hsecond⟩ := strncpy_kernel_returns (setPage first.mem (pagingGetDirectory first.mem page) tmp
    (getPage k₁.mem (pagingGetDirectory k₁.mem page) tmp)).2 tmp dest max
  change strncpy (taskSpace (pagingGetDirectory (withTemporaryPage k₁.mem page tmp) page)) _ virtual tmp max = _
    at hfirst
  rw [withTemporaryPage] at hfirst
  rw [if_neg hnull, hfirst, Option.bind_some, if_neg (by rw [hset]; exact lt_irrefl 0), hsecond, Option.map_some]
  exact ⟨_, rfl⟩

/-- The task's tables, the heap and the kernel's directory are back when the call returns. -/
theorem copyStringFromTask_restores {c : Chunk} {F : ℕ → ℕ} (h : TaskPages k live page c F) (hpos : 1 ≤ max)
    (hlt : max < 4096) (hdest : ∀ a, c.IsBlock page a → dest + max < (a : ℤ) ∨ a + 4096 ≤ dest)
    (hcall : copyStringFromTask k current kernelPage page virtual dest max = some r) :
    (∀ v < 2 ^ 32, getPage r.k.mem (pagingGetDirectory r.k.mem page) v =
      getPage k.mem (pagingGetDirectory k.mem page) v) ∧
    (r.page = kernelPage ∨ r.res = -EMEM ∧ r.page = current) ∧ r.k.heap = k.heap := by
  have hmax : (uint32 max : ℤ) = max := uint32_of_bounds (by omega) (by omega)
  rcases copyStringFromTask_cases h.wellFormed hpos hlt hcall with ⟨-, rfl⟩ | ⟨tmp, k₁, live₁, first, second, hk₁, hne,
    hfresh, hfirst, hsecond, rfl⟩
  · exact ⟨fun v _ => rfl, Or.inr ⟨rfl, rfl⟩, rfl⟩
  obtain ⟨h₁, hapart⟩ := h.kzalloc hfresh (by omega)
  have haligned := hfresh.owned.aligned hfresh.wellFormed
  have hfits := hfresh.owned.lt hfresh.wellFormed
  have hold := h₁.chunkAt.getPage_eq h₁.block (show tmp < 2 ^ 32 by omega)
  have hmapped := h₁.chunkAt.withTemporaryPage h₁.block h₁.separate hfits haligned
  rw [pagingGetDirectory, hmapped.pageWord] at hfirst
  have hpage := hmapped.strncpy_page h₁.block
    (by rw [Function.update_self, or_and_page_mask haligned (by decide) (by omega)]) hfits haligned hapart hlt hfirst
  have hread : ChunkAt first.mem page c (Function.update F (tmp / 4096) (tmp ||| 7)) :=
    hmapped.congr_bytes fun a ha x hlo hhi => hpage x (by have := hapart a ha; omega)
  -- the old entry goes back where it was
  have hword : getPage k₁.mem (pagingGetDirectory k₁.mem page) tmp < 2 ^ 32 := load32_lt _ _
  have hrestored := hread.setPage h₁.block h₁.separate (show tmp < 2 ^ 32 by omega) haligned hword
  rw [Function.update_idem] at hrestored
  have hF : Function.update F (tmp / 4096) (getPage k₁.mem (pagingGetDirectory k₁.mem page) tmp) = F := by
    rw [hold, Function.update_eq_self]
  rw [hF] at hrestored
  have hout := strncpy_kernel_outside hsecond
  have hfinal : ChunkAt second.mem page c F :=
    hrestored.congr_bytes fun a ha x hlo hhi => hout x (by have := hdest a ha; omega)
  obtain ⟨b, hlends⟩ := KMem.Lends.kzalloc h.wellFormed (uint32 max) (by omega) (by omega)
    (by rw [hk₁]; exact hne)
  rw [hk₁] at hlends
  obtain ⟨b', hb', haddress⟩ := hlends.of_owns h.wellFormed hfresh.wellFormed hfresh.owned hfresh.fresh
  obtain rfl := Finset.mem_singleton.mp hb'
  have hfreed := (hlends.withMem second.mem).kfree h.wellFormed.coherent (Finset.mem_singleton_self b')
  rw [← haddress, Finset.erase_singleton] at hfreed
  refine ⟨fun v hv => ?_, Or.inl rfl, hfreed.heap_eq⟩
  rw [kfree_mem, hfinal.getPage_eq h₁.block hv, h.chunkAt.getPage_eq h.block hv]

/-- What a caller with `max` bytes of room relies on: the call returns, stores at the indices
below `max`, reads no byte behind the null of the string, and leaves the string, cut off at
`max - 1` characters, in place. -/
def CopiesWithin (call : Option StringCopy) (virtual dest : ℕ) (max : ℤ) (string : List UInt8) : Prop :=
  ∃ r, call = some r ∧ (∀ x ∈ r.writes, dest ≤ x ∧ (x : ℤ) < dest + max) ∧
    (∀ x ∈ r.reads, x ≤ virtual + string.length) ∧ StringAt r.k.mem dest (string.take (max - 1).toNat)

/-- The null of a copy goes to index `max`. -/
theorem copyStringFromTask_null (h : k.WellFormed live) (hpos : 1 ≤ max) (hlt : max < 4096)
    (hfree : k.heap.freeBlocks ≠ 0)
    (hcall : copyStringFromTask k current kernelPage page virtual dest max = some r) :
    dest + max.toNat ∈ r.writes := by
  rcases copyStringFromTask_cases h hpos hlt hcall with ⟨hnone, -⟩ | ⟨tmp, k₁, live₁, first, second, -, -, -, -,
    hsecond, rfl⟩
  · exact absurd hnone hfree
  · rw [(strncpyLoop_addresses hsecond).2, List.nil_append, List.mem_map]
    exact ⟨max.toNat, by simp, rfl⟩

theorem CopiesWithin.freeBlocks_eq (h : k.WellFormed live) (hpos : 1 ≤ max) (hlt : max < 4096) {string : List UInt8}
    (hcopies : CopiesWithin (copyStringFromTask k current kernelPage page virtual dest max) virtual dest max string) :
    k.heap.freeBlocks = 0 := by
  obtain ⟨r, hcall, hwrites, -⟩ := hcopies
  by_contra hfree
  have hout := (hwrites _ (copyStringFromTask_null h hpos hlt hfree hcall)).2
  push_cast at hout
  omega

/-- A caller gets what it relies on only where it had it before and there is no page for
the copy. -/
theorem copyStringFromTask_within_iff (h : k.WellFormed live) (hpos : 1 ≤ max) (hlt : max < 4096)
    (string : List UInt8) :
    CopiesWithin (copyStringFromTask k current kernelPage page virtual dest max) virtual dest max string ↔
      k.heap.freeBlocks = 0 ∧ StringAt k.mem dest (string.take (max - 1).toNat) := by
  constructor
  · intro hcopies
    have hnone := hcopies.freeBlocks_eq h hpos hlt
    obtain ⟨r, hcall, -, -, hat⟩ := hcopies
    rcases copyStringFromTask_cases h hpos hlt hcall with
      ⟨-, rfl⟩ | ⟨tmp, k₁, live₁, first, second, hk₁, hne, hfresh, -⟩
    · exact ⟨hnone, hat⟩
    · exact absurd hnone (h.freeBlocks_ne_zero (by rwa [hk₁]))
  · rintro ⟨hnone, hat⟩
    have hmax : (uint32 max : ℤ) = max := uint32_of_bounds (by omega) (by omega)
    have hnull : (kzalloc k (uint32 max)).1 = 0 := by
      by_contra hne
      exact h.freeBlocks_ne_zero hne hnone
    have hsame := (h.kzalloc_null (by omega) (by omega) hnull).1
    have hbelow : ¬ max ≥ (pagingPageSize : ℕ) := by
      unfold pagingPageSize
      omega
    refine ⟨⟨-EMEM, k, current, [], []⟩, ?_, by simp, by simp, hat⟩
    simp only [copyStringFromTask, if_neg hbelow, hsame, if_true]

end Call

/-- One allocation takes the whole kernel heap. -/
theorem freshKernelHeap_exhausted (mem : Mem) :
    ∃ (k : KMem) (live : List Extent), k.WellFormed live ∧ k.heap.freeBlocks = 0 ∧
      ∀ x < 0x01000000, k.mem x = mem x := by
  have hwf := freshKernelHeap_wellFormed mem
  have hrun : freshKernelHeap.HasFreeRun (blocksFor (4096 * 25600)) :=
    ⟨0, by rw [freshKernelHeap_total]; decide, fun i _ _ => by rw [Heap.FreeAt, freshKernelHeap_entry]; rfl⟩
  obtain ⟨s, -, -, heq, hfull⟩ := hwf.kzalloc (by decide) (by decide) hrun
  have hfree := hfull.tiling.freeBlocks_le
  have htotal : (kzalloc ⟨freshKernelHeap, mem⟩ (4096 * 25600)).2.heap.total = 25600 := by
    simp [heq]
  have hused : Layout.used [(⟨s, blocksFor (4096 * 25600)⟩ : Extent)] = 25600 := by
    simp [Layout.used, blocksFor]
  refine ⟨_, _, hfull, by omega, fun x hx => ?_⟩
  rw [heq]
  exact fill_outside _ _ (by simp only [freshKernelHeap_startAddress]; omega)

/-- That heap, and the string `hi` that is already in the buffer. -/
theorem copyStringFromTask_within_full :
    ∃ (k : KMem) (live : List Extent), k.WellFormed live ∧
      CopiesWithin (copyStringFromTask k 8 8 0x01000000 0x400000 0x1000 100) 0x400000 0x1000 100 [0x68, 0x69] := by
  obtain ⟨k, live, hwf, hnone, hmem⟩ := freshKernelHeap_exhausted (storeBytes (fun _ => 0) 0x1000 ([0x68, 0x69] ++ [0]))
  refine ⟨k, live, hwf, (copyStringFromTask_within_iff hwf (by decide) (by decide) _).mpr ⟨hnone, ?_⟩⟩
  have hnull : (0 : UInt8) ∉ [(0x68 : UInt8), 0x69] := by decide
  have hstored := stringAt_storeBytes (fun _ => 0) 0x1000 hnull
  refine hstored.congr fun x hlo hhi => hmem x ?_
  simp only [List.length_cons, List.length_nil] at hhi
  omega

theorem freshTask :
    ∃ page k' live c, pagingNewChunk ⟨freshKernelHeap, fun _ => 0⟩ 5 = some (page, k') ∧
      TaskPages k' live page c (identityMap 5) ∧ k'.heap.startAddress = 0x01000000 ∧ k'.heap.freeBlocks ≠ 0 ∧
      ∀ i < 1024, load32 k'.mem (c.directory + 4 * i) &&& pagingIsPresent ≠ 0 := by
  have hwf := freshKernelHeap_wellFormed fun _ => 0
  obtain ⟨page, k', hnew, ⟨live', hserved⟩, -⟩ := pagingNewChunk_succeeds hwf 5 (by simp [Layout.used])
  have hused : Layout.used live' = 1026 := by simpa [Layout.used] using hserved.used_eq
  have htotal : k'.heap.total = 25600 := hserved.region.total_eq.trans freshKernelHeap_total
  have hne : (kzalloc k' 1).1 ≠ 0 := hserved.wellFormed.kzalloc_ne_zero le_rfl (by decide) (by omega)
  have hfree := hserved.wellFormed.freeBlocks_ne_zero hne
  obtain ⟨live, c, hc, hwords⟩ := pagingNewChunk_words hwf (by decide) hnew
  refine ⟨page, k', live, c, hnew, ⟨hc.wellFormed, hc.separate, hc.owned, hc.chunkAt⟩,
    hc.region.start_eq.trans freshKernelHeap_startAddress, hfree, fun i hi => ?_⟩
  have htable := (hc.owned _ (Or.inr (Or.inr ⟨i, hi, rfl⟩))).aligned hc.wellFormed
  rw [hwords i hi, Nat.or_assoc, or_page_flags htable (by decide), pagingIsPresent, Nat.and_one_is_mod,
    show 5 ||| pagingIsWritable = 7 from rfl]
  omega

theorem identityMap_present (n : ℕ) : identityMap 5 n &&& pagingIsPresent ≠ 0 := by
  rw [identityMap, or_page_flags (by omega) (by decide), pagingIsPresent, Nat.and_one_is_mod]
  omega

theorem copyStringFromTask_restores_freshTask :
    ∃ page k' r, pagingNewChunk ⟨freshKernelHeap, fun _ => 0⟩ 5 = some (page, k') ∧
      copyStringFromTask k' 8 8 page 0x400000 0x1000 100 = some r ∧
      (∀ v < 2 ^ 32, getPage r.k.mem (pagingGetDirectory r.k.mem page) v =
        getPage k'.mem (pagingGetDirectory k'.mem page) v) ∧
      (r.page = 8 ∨ r.res = -EMEM ∧ r.page = 8) ∧ r.k.heap = k'.heap := by
  obtain ⟨page, k', live, c, hnew, h, hstart, -, hdirectory⟩ := freshTask
  have hcall : ∃ r, copyStringFromTask k' 8 8 page 0x400000 0x1000 100 = some r :=
    copyStringFromTask_returns h (by decide) (by decide) hdirectory fun j _ => identityMap_present _
  obtain ⟨r, hr⟩ := hcall
  have hdest : ∀ a, c.IsBlock page a → (0x1000 : ℕ) + (100 : ℤ) < a ∨ a + 4096 ≤ 0x1000 := by
    intro a ha
    obtain ⟨i, hi, haddress⟩ := h.owned a ha
    have hlo := (h.wellFormed.tiling.layout.inside _ hi).1
    rw [hstart] at haddress
    simp only at hlo
    omega
  exact ⟨page, k', r, hnew, hr, copyStringFromTask_restores h (by decide) (by decide) hdest hr⟩

/-- A task whose pages map to themselves: whatever the string is, the byte behind the buffer
is overwritten. -/
theorem copyStringFromTask_overruns :
    ∃ page k' r, pagingNewChunk ⟨freshKernelHeap, fun _ => 0⟩ 5 = some (page, k') ∧
      copyStringFromTask k' 8 8 page 0x400000 0x1000 100 = some r ∧ 0x1000 + 100 ∈ r.writes ∧
      ∀ string, ¬ CopiesWithin (copyStringFromTask k' 8 8 page 0x400000 0x1000 100) 0x400000 0x1000 100 string := by
  obtain ⟨page, k', live, c, hnew, h, -, hfree, hdirectory⟩ := freshTask
  have hcall : ∃ r, copyStringFromTask k' 8 8 page 0x400000 0x1000 100 = some r :=
    copyStringFromTask_returns h (by decide) (by decide) hdirectory fun j _ => identityMap_present _
  obtain ⟨r, hr⟩ := hcall
  refine ⟨page, k', r, hnew, hr, copyStringFromTask_null h.wellFormed (by decide) (by decide) hfree hr, ?_⟩
  exact fun string hcopies => hfree (hcopies.freeBlocks_eq h.wellFormed (by decide) (by decide))

end Zhios
