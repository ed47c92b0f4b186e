import Zhios.Memory.Paging
import Mathlib.Logic.Relation

/-! A chunk of two-level tables represents a flat map from page numbers to
entries. The representation is established by `paging_new_chunk`, kept by every
store into any chunk, and read back by `get_page`. -/
namespace Zhios
open Machine

/-- Where the blocks of a chunk are. -/
structure Chunk where
  directory : ℕ
  table : ℕ → ℕ

/-- `a` is one of the 1026 blocks of the chunk at `page`. -/
def Chunk.IsBlock (c : Chunk) (page a : ℕ) : Prop :=
  a = page ∨ a = c.directory ∨ ∃ i < 1024, a = c.table i

structure Chunk.Separate (c : Chunk) (page : ℕ) : Prop where
  page_directory : page ≠ c.directory
  page_table : ∀ i < 1024, page ≠ c.table i
  directory_table : ∀ i < 1024, c.directory ≠ c.table i
  table_table : ∀ i < 1024, ∀ j < 1024, c.table i = c.table j → i = j

/-- The words of the chunk at `page` spell out the flat map `F`. -/
structure ChunkAt (mem : Mem) (page : ℕ) (c : Chunk) (F : ℕ → ℕ) : Prop where
  pageWord : load32 mem page = c.directory
  directoryWord : ∀ i < 1024, ∃ f < 4096, load32 mem (c.directory + 4 * i) = c.table i ||| f
  tableWord : ∀ i < 1024, ∀ j < 1024, load32 mem (c.table i + 4 * j) = F (1024 * i + j)

theorem ChunkAt.congr {mem mem' : Mem} {page : ℕ} {c : Chunk} {F : ℕ → ℕ} (h : ChunkAt mem page c F)
    (hw : ∀ a, c.IsBlock page a → ∀ j < 1024, load32 mem' (a + 4 * j) = load32 mem (a + 4 * j)) :
    ChunkAt mem' page c F := by
  refine ⟨?_, fun i hi => ?_, fun i hi j hj => ?_⟩
  · have h0 := hw page (Or.inl rfl) 0 (by omega)
    rw [Nat.mul_zero, Nat.add_zero] at h0
    rw [h0, h.pageWord]
  · rw [hw c.directory (Or.inr (Or.inl rfl)) i hi]
    exact h.directoryWord i hi
  · rw [hw (c.table i) (Or.inr (Or.inr ⟨i, hi, rfl⟩)) j hj]
    exact h.tableWord i hi j hj

section Indexing
variable {v : ℕ} (hv : v < 2 ^ 32)
include hv

theorem directoryIndex_lt : (pagingGetIndex v).1 < 1024 := by
  simp only [pagingGetIndex, pagingTotalEntriesPerTable, pagingPageSize]
  omega

omit hv in
theorem tableIndex_lt : (pagingGetIndex v).2 < 1024 := by
  simp only [pagingGetIndex, pagingTotalEntriesPerTable, pagingPageSize]
  omega

omit hv in
theorem pagingGetIndex_page : 1024 * (pagingGetIndex v).1 + (pagingGetIndex v).2 = v / 4096 := by
  simp only [pagingGetIndex, pagingTotalEntriesPerTable, pagingPageSize]
  omega

end Indexing

/-- The position of page `P` in a range that starts at page `m` and may wrap around
the address space. -/
def pageIndex (m P : ℕ) : ℕ := (P + 2 ^ 20 - m) % 2 ^ 20

/-- The flat map after `n` pages from page `m` on are mapped to the pages from `f` on. -/
def remapFrames (F : ℕ → ℕ) (m f n flags : ℕ) : ℕ → ℕ := fun P =>
  if pageIndex m P < n then 4096 * ((f + pageIndex m P) % 2 ^ 20) ||| flags else F P

theorem pageIndex_self (m : ℕ) : pageIndex m m = 0 := by
  unfold pageIndex
  omega

theorem pageIndex_succ {m P : ℕ} (hm : m < 2 ^ 20) (hP : P < 2 ^ 20) (hne : P ≠ m) :
    pageIndex m P = pageIndex ((m + 1) % 2 ^ 20) P + 1 := by
  unfold pageIndex
  omega

theorem pageIndex_last {m : ℕ} (hm : m < 2 ^ 20) : pageIndex ((m + 1) % 2 ^ 20) m = 2 ^ 20 - 1 := by
  unfold pageIndex
  omega

theorem remapFrames_succ (F : ℕ → ℕ) {m f n : ℕ} (flags : ℕ) (hm : m < 2 ^ 20) (hf : f < 2 ^ 20)
    (hn : n + 1 ≤ 2 ^ 20) {P : ℕ} (hP : P < 2 ^ 20) :
    remapFrames (Function.update F m (4096 * f ||| flags)) ((m + 1) % 2 ^ 20) ((f + 1) % 2 ^ 20) n flags P =
      remapFrames F m f (n + 1) flags P := by
  unfold remapFrames
  rcases eq_or_ne P m with rfl | hne
  · rw [pageIndex_last hm, pageIndex_self, if_neg (by omega), if_pos (by omega), Function.update_self,
      Nat.add_zero, Nat.mod_eq_of_lt hf]
  · rw [pageIndex_succ hm hP hne, Function.update_of_ne hne]
    have hiff : pageIndex ((m + 1) % 2 ^ 20) P + 1 < n + 1 ↔ pageIndex ((m + 1) % 2 ^ 20) P < n := by omega
    have hframe : ((f + 1) % 2 ^ 20 + pageIndex ((m + 1) % 2 ^ 20) P) % 2 ^ 20 =
        (f + (pageIndex ((m + 1) % 2 ^ 20) P + 1)) % 2 ^ 20 := by omega
    rw [hframe]
    simp only [hiff]

/-- Only the words of actual pages count. -/
theorem ChunkAt.withMap {mem : Mem} {page : ℕ} {c : Chunk} {F F' : ℕ → ℕ} (h : ChunkAt mem page c F)
    (heq : ∀ P < 2 ^ 20, F' P = F P) : ChunkAt mem page c F' := by
  refine ⟨h.pageWord, h.directoryWord, fun i hi j hj => ?_⟩
  rw [h.tableWord i hi j hj, heq _ (by omega)]

theorem uint32_add_page {v : ℕ} (ha : v % 4096 = 0) :
    uint32 (v + pagingPageSize) % 4096 = 0 ∧ uint32 (v + pagingPageSize) / 4096 = (v / 4096 + 1) % 2 ^ 20 := by
  unfold uint32 pagingPageSize
  omega

section Access
variable {mem : Mem} {page : ℕ} {c : Chunk} {F : ℕ → ℕ}

/-- The table pointer survives being packed with flags into a directory word. -/
theorem ChunkAt.table_of_word (h : ChunkAt mem page c F)
    (hblock : ∀ a, c.IsBlock page a → a % 4096 = 0 ∧ a + 4096 ≤ 2 ^ 32) {i : ℕ} (hi : i < 1024) :
    load32 mem (c.directory + 4 * i) &&& 0xfffff000 = c.table i := by
  obtain ⟨f, hf, hw⟩ := h.directoryWord i hi
  obtain ⟨ha, hlt⟩ := hblock (c.table i) (Or.inr (Or.inr ⟨i, hi, rfl⟩))
  rw [hw, or_and_page_mask ha hf (by omega)]

theorem ChunkAt.getPage_eq (h : ChunkAt mem page c F)
    (hblock : ∀ a, c.IsBlock page a → a % 4096 = 0 ∧ a + 4096 ≤ 2 ^ 32) {v : ℕ} (hv : v < 2 ^ 32) :
    getPage mem (pagingGetDirectory mem page) v = F (v / 4096) := by
  have hd := directoryIndex_lt hv
  simp only [getPage, pagingGetDirectory, h.pageWord, h.table_of_word hblock hd]
  rw [h.tableWord _ hd _ tableIndex_lt, pagingGetIndex_page]

theorem ChunkAt.pagingGetPhysicalAddress_eq (h : ChunkAt mem page c F)
    (hblock : ∀ a, c.IsBlock page a → a % 4096 = 0 ∧ a + 4096 ≤ 2 ^ 32) {v : ℕ} (hv : v < 2 ^ 32) :
    pagingGetPhysicalAddress mem page v = (F (v / 4096) &&& 0xfffff000) + v % 4096 := by
  have hstart : (v - v % 4096) / 4096 = v / 4096 := by omega
  have hget := h.getPage_eq hblock (show v - v % 4096 < 2 ^ 32 by omega)
  have hlt : F (v / 4096) < 2 ^ 32 := by
    rw [← hstart, ← hget]
    exact load32_lt _ _
  simp only [pagingGetPhysicalAddress, pagingPageSize, hget, hstart, and_page_mask hlt]
  have hsum := uint32_of_bounds (x := ((4096 * (F (v / 4096) / 4096) : ℕ) : ℤ) + (v % 4096 : ℕ))
    (by positivity) (by omega)
  omega

theorem ChunkAt.setPage_eq (h : ChunkAt mem page c F)
    (hblock : ∀ a, c.IsBlock page a → a % 4096 = 0 ∧ a + 4096 ≤ 2 ^ 32) {v : ℕ} (hv : v < 2 ^ 32)
    (ha : v % 4096 = 0) (w : ℕ) :
    setPage mem (pagingGetDirectory mem page) v w =
      (0, store32 mem (c.table (pagingGetIndex v).1 + 4 * (pagingGetIndex v).2) w) := by
  simp only [setPage, isPageAligned, pagingPageSize, ha, pagingGetDirectory, h.pageWord,
    h.table_of_word hblock (directoryIndex_lt hv), beq_self_eq_true, Bool.not_true,
    Bool.false_eq_true, if_false]

theorem ChunkAt.store (h : ChunkAt mem page c F) (hs : c.Separate page)
    (hblock : ∀ a, c.IsBlock page a → a % 4096 = 0 ∧ a + 4096 ≤ 2 ^ 32) {i j w : ℕ}
    (hi : i < 1024) (hj : j < 1024) (hw : w < 2 ^ 32) :
    ChunkAt (store32 mem (c.table i + 4 * j) w) page c (Function.update F (1024 * i + j) w) := by
  have hti := (hblock (c.table i) (Or.inr (Or.inr ⟨i, hi, rfl⟩))).1
  refine ⟨?_, fun m hm => ?_, fun m hm n hn => ?_⟩
  · have h0 := load32_store32_page mem hti (hblock page (Or.inl rfl)).1 hj (show 0 < 1024 by omega) hw
    rw [if_neg fun heq => hs.page_table i hi heq.1.symm, Nat.mul_zero, Nat.add_zero] at h0
    rw [h0, h.pageWord]
  · rw [load32_store32_page mem hti (hblock c.directory (Or.inr (Or.inl rfl))).1 hj hm hw,
      if_neg fun heq => hs.directory_table i hi heq.1.symm]
    exact h.directoryWord m hm
  · rw [load32_store32_page mem hti (hblock (c.table m) (Or.inr (Or.inr ⟨m, hm, rfl⟩))).1 hj hn hw]
    by_cases heq : i = m ∧ j = n
    · rw [if_pos ⟨congrArg c.table heq.1, heq.2⟩, heq.1, heq.2, Function.update_self]
    · rw [if_neg fun hc => heq ⟨hs.table_table i hi m hm hc.1, hc.2⟩,
        Function.update_of_ne (by omega), h.tableWord m hm n hn]

theorem ChunkAt.store_outside (h : ChunkAt mem page c F)
    (hblock : ∀ a, c.IsBlock page a → a % 4096 = 0 ∧ a + 4096 ≤ 2 ^ 32) {b j w : ℕ}
    (hb : b % 4096 = 0) (hout : ¬ c.IsBlock page b) (hj : j < 1024) (hw : w < 2 ^ 32) :
    ChunkAt (store32 mem (b + 4 * j) w) page c F := by
  apply h.congr
  intro a ha n hn
  rw [load32_store32_page mem hb (hblock a ha).1 hj hn hw, if_neg]
  rintro ⟨rfl, -⟩
  exact hout ha

/-- `map_page` with aligned addresses is `set_page` of the packed word. -/
theorem mapPage_eq (mem : Mem) (page : ℕ) {v p : ℕ} (flags : ℕ) (ha : v % 4096 = 0)
    (hpa : p % 4096 = 0) :
    mapPage mem page v p flags = setPage mem (pagingGetDirectory mem page) v (p ||| flags) := by
  simp only [mapPage, pagingPageSize, ha, hpa, ne_eq, not_true, or_self, if_false]

/-- The flat map after `n` pages from page `m` on are mapped to themselves. -/
def remapRange (F : ℕ → ℕ) (m n flags : ℕ) : ℕ → ℕ := fun i =>
  if m ≤ i ∧ i < m + n then 4096 * i ||| flags else F i

theorem ChunkAt.mapFrames {flags : ℕ} (hs : c.Separate page)
    (hblock : ∀ a, c.IsBlock page a → a % 4096 = 0 ∧ a + 4096 ≤ 2 ^ 32) (hf : flags < 4096) (n v p : ℕ)
    (hv : v < 2 ^ 32) (hva : v % 4096 = 0) (hp : p < 2 ^ 32) (hpa : p % 4096 = 0) (hn : n ≤ 2 ^ 20)
    (h : ChunkAt mem page c F) :
    (Zhios.mapPageLoop page flags n v p 0 mem).1 = 0 ∧
      ChunkAt (Zhios.mapPageLoop page flags n v p 0 mem).2 page c (remapFrames F (v / 4096) (p / 4096) n flags) := by
  induction n generalizing v p mem F with
  | zero => exact ⟨rfl, h.withMap fun P _ => if_neg (by omega)⟩
  | succ n ih =>
    have hw : p ||| flags < 2 ^ 32 := Nat.or_lt_two_pow (by omega) (by omega)
    have hstore := h.store hs hblock (directoryIndex_lt (v := v) (by omega)) (tableIndex_lt (v := v)) hw
    rw [pagingGetIndex_page] at hstore
    obtain ⟨hva', hvpage⟩ := uint32_add_page hva
    obtain ⟨hpa', hppage⟩ := uint32_add_page hpa
    have hrest := ih (uint32 (v + pagingPageSize)) (uint32 (p + pagingPageSize)) (uint32_lt _) hva'
      (uint32_lt _) hpa' (by omega) hstore
    have hbase : p ||| flags = 4096 * (p / 4096) ||| flags := by
      rw [show 4096 * (p / 4096) = p by omega]
    simp only [Zhios.mapPageLoop, mapPage_eq mem page flags hva hpa, h.setPage_eq hblock hv hva, lt_irrefl,
      if_false]
    refine ⟨hrest.1, hrest.2.withMap fun P hP => ?_⟩
    rw [hvpage, hppage, hbase, remapFrames_succ F flags (by omega) (by omega) hn hP]

theorem ChunkAt.mapFrames_outside {flags : ℕ} (hs : c.Separate page)
    (hblock : ∀ a, c.IsBlock page a → a % 4096 = 0 ∧ a + 4096 ≤ 2 ^ 32) (hf : flags < 4096) (n v p : ℕ)
    (hv : v < 2 ^ 32) (hva : v % 4096 = 0) (hp : p < 2 ^ 32) (hpa : p % 4096 = 0)
    (h : ChunkAt mem page c F) {x : ℕ} (hx : ∀ i < 1024, x < c.table i ∨ c.table i + 4096 ≤ x) :
    (Zhios.mapPageLoop page flags n v p 0 mem).2 x = mem x := by
  induction n generalizing v p mem F with
  | zero => rfl
  | succ n ih =>
    have hd := directoryIndex_lt (v := v) (by omega)
    have ht := tableIndex_lt (v := v)
    have hw : p ||| flags < 2 ^ 32 := Nat.or_lt_two_pow (by omega) (by omega)
    have hstore := h.store hs hblock hd ht hw
    simp only [Zhios.mapPageLoop, mapPage_eq mem page flags hva hpa, h.setPage_eq hblock hv hva, lt_irrefl,
      if_false]
    rw [ih _ _ (uint32_lt _) (uint32_add_page hva).1 (uint32_lt _) (uint32_add_page hpa).1 hstore]
    apply store32_outside
    rcases hx _ hd with hlt | hge
    · exact Or.inl (by omega)
    · exact Or.inr (by omega)

/-- Pages mapped to themselves, below the end of the address space. -/
theorem ChunkAt.mapPageLoop {flags : ℕ} (hs : c.Separate page)
    (hblock : ∀ a, c.IsBlock page a → a % 4096 = 0 ∧ a + 4096 ≤ 2 ^ 32) (hf : flags < 4096)
    (n v : ℕ) (ha : v % 4096 = 0) (hv : v + 4096 * n < 2 ^ 32) (mem : Mem) (F : ℕ → ℕ)
    (h : ChunkAt mem page c F) :
    (Zhios.mapPageLoop page flags n v v 0 mem).1 = 0 ∧
      ChunkAt (Zhios.mapPageLoop page flags n v v 0 mem).2 page c (remapRange F (v / 4096) n flags) := by
  obtain ⟨hres, hafter⟩ := h.mapFrames hs hblock hf n v v (by omega) ha (by omega) ha (by omega)
  refine ⟨hres, hafter.withMap fun P hP => ?_⟩
  have hiff : (v / 4096 ≤ P ∧ P < v / 4096 + n) ↔ pageIndex (v / 4096) P < n := by
    unfold pageIndex
    omega
  have hframe : pageIndex (v / 4096) P < n → (v / 4096 + pageIndex (v / 4096) P) % 2 ^ 20 = P := by
    unfold pageIndex
    omega
  unfold remapRange remapFrames
  simp only [hiff]
  split_ifs with hin
  · rw [hframe hin]
  · rfl

/-- The number of pages that `map_page_range` maps from an aligned physical address:
one more than the whole pages of `size`, and none once that is negative. -/
def pagesFor (size : ℕ) : ℕ := if size < 0x7FFFF000 then size / 4096 + 1 else 0

theorem mapPageRange_pages (mem : Mem) (page v flags : ℕ) {p size : ℕ} (hpa : p % 4096 = 0)
    (hsize : size < 2 ^ 32) :
    mapPageRange mem page v p (int32 size) flags = mapPageLoop page flags (pagesFor size) v p 0 mem := by
  have hend : uint32 ((p : ℤ) + int32 size) = (p + size) % 2 ^ 32 := by
    unfold uint32 int32
    omega
  have halign : alignToPagingAddress ((p + size) % 2 ^ 32) = (p + 4096 * (size / 4096 + 1)) % 2 ^ 32 := by
    unfold alignToPagingAddress pagingPageSize uint32
    omega
  have hcount : ((int32 (((p + 4096 * (size / 4096 + 1)) % 2 ^ 32 : ℕ) - p)).tdiv pagingPageSize).toNat =
      pagesFor size := by
    unfold pagesFor pagingPageSize
    split_ifs with hlt
    · have hval : int32 (((p + 4096 * (size / 4096 + 1)) % 2 ^ 32 : ℕ) - p) =
          4096 * ((size / 4096 + 1 : ℕ) : ℤ) := by
        unfold int32
        omega
      rw [hval]
      exact congrArg Int.toNat (Int.mul_tdiv_cancel_left _ (by decide))
    · have hval : int32 (((p + 4096 * (size / 4096 + 1)) % 2 ^ 32 : ℕ) - p) =
          4096 * ((size / 4096 + 1 : ℕ) - 2 ^ 20 : ℤ) := by
        unfold int32
        omega
      rw [hval, Int.toNat_eq_zero]
      have hdiv : (4096 * ((size / 4096 + 1 : ℕ) - 2 ^ 20 : ℤ)).tdiv ((4096 : ℕ) : ℤ) =
          (size / 4096 + 1 : ℕ) - 2 ^ 20 := Int.mul_tdiv_cancel_left _ (by decide)
      rw [hdiv]
      omega
  unfold mapPageRange
  simp only [hend, halign, hcount]

/-- The range covers one page more than the whole pages of `size`. -/
theorem mapPageRange_eq (mem : Mem) (page : ℕ) {v size : ℕ} (flags : ℕ) (ha : v % 4096 = 0)
    (hv : v + size + 4096 < 2 ^ 31) :
    mapPageRange mem page v v size flags =
      mapPageLoop page flags (size / 4096 + 1) v v 0 mem := by
  have hsize : int32 (size : ℤ) = size := int32_of_bounds (by omega) (by omega)
  have hpages : pagesFor size = size / 4096 + 1 := if_pos (by omega)
  rw [← hpages, ← mapPageRange_pages mem page v flags ha (by omega), hsize]

end Access

/-- The flat map of a fresh chunk: every page mapped to itself. -/
def identityMap (flags : ℕ) (n : ℕ) : ℕ := 4096 * n ||| flags

theorem fillTable_word (flags entry : ℕ) (offset : ℤ) (hf : flags < 2 ^ 32) (he : entry % 4096 = 0)
    (fuel j : ℕ) (mem : Mem) (hj : j + fuel ≤ 1024) {b m : ℕ} (hb : b % 4096 = 0) (hm : m < 1024) :
    load32 (fillTable flags entry offset fuel j mem) (b + 4 * m) =
      if b = entry ∧ j ≤ m ∧ m < j + fuel then uint32 (offset + m * pagingPageSize) ||| flags
      else load32 mem (b + 4 * m) := by
  induction fuel generalizing j mem with
  | zero => rw [if_neg (by omega)]; rfl
  | succ fuel ih =>
    have hw : uint32 (offset + j * pagingPageSize) ||| flags < 2 ^ 32 :=
      Nat.or_lt_two_pow (uint32_lt _) hf
    rw [fillTable, ih (j + 1) _ (by omega), load32_store32_page mem he hb (by omega) hm hw]
    by_cases hbe : b = entry ∧ j = m
    · rw [if_neg (by omega), if_pos ⟨hbe.1.symm, hbe.2⟩, if_pos (by omega), hbe.2]
    · have hrest : (b = entry ∧ j + 1 ≤ m ∧ m < j + 1 + fuel) ↔
          (b = entry ∧ j ≤ m ∧ m < j + (fuel + 1)) := by omega
      simp only [if_neg fun h : entry = b ∧ j = m => hbe ⟨h.1.symm, h.2⟩, hrest]

theorem fillTable_identity {i j : ℕ} (hi : i < 1024) (hj : j < 1024) :
    uint32 (int32 (4194304 * i) + j * pagingPageSize) = 4096 * (1024 * i + j) := by
  unfold uint32 int32 pagingPageSize
  omega

/-- What the tables loop has built from index `i` on. -/
structure TablesBuilt (k k' : KMem) (live live' : List Extent) (flags directory i : ℕ) (t : ℕ → ℕ) :
    Prop where
  wellFormed : k'.WellFormed live'
  region : k.SameRegion k'
  mono : ∀ a, k.Owns live a → k'.Owns live' a
  owned : ∀ m, i ≤ m → m < 1024 → k'.Owns live' (t m)
  fresh : ∀ m, i ≤ m → m < 1024 → ¬ k.Owns live (t m)
  injective : ∀ m n, i ≤ m → m < 1024 → i ≤ n → n < 1024 → t m = t n → m = n
  directoryWord : ∀ m, i ≤ m → m < 1024 →
    load32 k'.mem (directory + 4 * m) = t m ||| flags ||| pagingIsWritable
  tableWord : ∀ m, i ≤ m → m < 1024 → ∀ j < 1024,
    load32 k'.mem (t m + 4 * j) = identityMap flags (1024 * m + j)
  directoryFrame : ∀ m < i, load32 k'.mem (directory + 4 * m) = load32 k.mem (directory + 4 * m)
  frame : ∀ a, k.Owns live a → a ≠ directory → ∀ j < 1024,
    load32 k'.mem (a + 4 * j) = load32 k.mem (a + 4 * j)

/-- The words of memory after one iteration over a zeroed table. -/
theorem buildTable_word {mem : Mem} {flags a directory i : ℕ} {offset : ℤ} (hf : flags < 256)
    (ha : a % 4096 = 0) (halt : a + 4096 ≤ 2 ^ 32) (hd : directory % 4096 = 0) (hi : i < 1024)
    {b j : ℕ} (hb : b % 4096 = 0) (hj : j < 1024) :
    load32 (buildTable flags directory i offset a (fill mem a 4096 0)) (b + 4 * j) =
      if directory = b ∧ i = j then a ||| flags ||| pagingIsWritable
      else if b = a then uint32 (offset + j * pagingPageSize) ||| flags
      else load32 mem (b + 4 * j) := by
  have hw : a ||| flags ||| pagingIsWritable < 2 ^ 32 :=
    Nat.or_lt_two_pow (Nat.or_lt_two_pow (by omega) (by omega)) (by decide)
  rw [buildTable, load32_store32_page _ hd hb hi hj hw,
    fillTable_word flags a offset (by omega) ha _ 0 _ le_rfl hb hj]
  by_cases hba : b = a
  · simp only [hba, true_and, Nat.zero_le, Nat.zero_add, pagingTotalEntriesPerTable, hj, if_true]
  · simp only [hba, false_and, if_false,
      load32_fill_page mem 0 ha hb (Ne.symm hba) le_rfl hj]

theorem TablesBuilt.cons {k k₁ k₂ k' : KMem} {live live₁ live' : List Extent}
    {flags directory i a : ℕ} {t : ℕ → ℕ} (hi : i < 1024) (h : k.WellFormed live)
    (hd : k.Owns live directory) (hb : k.FreshBlock k₁ live live₁ a 4096)
    (hregion : k₁.SameRegion k₂) (hown : ∀ b, k₁.Owns live₁ b → k₂.Owns live₁ b)
    (hword : ∀ b j, b % 4096 = 0 → j < 1024 → load32 k₂.mem (b + 4 * j) =
      if directory = b ∧ i = j then a ||| flags ||| pagingIsWritable
      else if b = a then identityMap flags (1024 * i + j)
      else load32 k.mem (b + 4 * j))
    (ht : TablesBuilt k₂ k' live₁ live' flags directory (i + 1) t) :
    TablesBuilt k k' live live' flags directory i (Function.update t i a) := by
  have hda := hd.aligned h
  have hne : directory ≠ a := fun heq => hb.fresh (heq ▸ hd)
  have htm : ∀ m, i + 1 ≤ m → m < 1024 → t m ≠ a :=
    fun m h1 h2 heq => ht.fresh m h1 h2 (heq ▸ hown a hb.owned)
  have hsplit : ∀ m, i ≤ m → (m = i ∧ Function.update t i a m = a) ∨
      (i + 1 ≤ m ∧ Function.update t i a m = t m) := by
    intro m hm
    rcases hm.eq_or_lt with rfl | hlt
    · exact Or.inl ⟨rfl, Function.update_self ..⟩
    · exact Or.inr ⟨hlt, Function.update_of_ne (by omega) ..⟩
  refine ⟨ht.wellFormed, (hb.region.trans hregion).trans ht.region, fun b hbo => ht.mono b (hown b (hb.mono b hbo)),
    fun m h1 h2 => ?_, fun m h1 h2 => ?_, fun m n hm1 hm2 hn1 hn2 heq => ?_,
    fun m h1 h2 => ?_, fun m h1 h2 j hj => ?_, fun m hm => ?_, fun b hbo hbd j hj => ?_⟩
  · rcases hsplit m h1 with ⟨-, hu⟩ | ⟨hlt, hu⟩ <;> rw [hu]
    · exact ht.mono a (hown a hb.owned)
    · exact ht.owned m hlt h2
  · rcases hsplit m h1 with ⟨-, hu⟩ | ⟨hlt, hu⟩ <;> rw [hu]
    · exact hb.fresh
    · exact fun ho => ht.fresh m hlt h2 (hown _ (hb.mono _ ho))
  · rcases hsplit m hm1 with ⟨hmi, hu⟩ | ⟨hm, hu⟩ <;> rcases hsplit n hn1 with ⟨hni, hv⟩ | ⟨hn, hv⟩ <;>
      rw [hu, hv] at heq
    · exact hmi.trans hni.symm
    · exact absurd heq.symm (htm n hn hn2)
    · exact absurd heq (htm m hm hm2)
    · exact ht.injective m n hm hm2 hn hn2 heq
  · rcases hsplit m h1 with ⟨rfl, hu⟩ | ⟨hlt, hu⟩ <;> rw [hu]
    · rw [ht.directoryFrame m (by omega), hword directory m hda h2, if_pos ⟨rfl, rfl⟩]
    · exact ht.directoryWord m hlt h2
  · rcases hsplit m h1 with ⟨rfl, hu⟩ | ⟨hlt, hu⟩ <;> rw [hu]
    · rw [ht.frame a (hown a hb.owned) hne.symm j hj,
        hword a j (hb.owned.aligned hb.wellFormed) hj, if_neg (fun hc => hne hc.1), if_pos rfl]
    · exact ht.tableWord m hlt h2 j hj
  · rw [ht.directoryFrame m (by omega), hword directory m hda (by omega), if_neg (by omega),
      if_neg hne]
  · have hba : b ≠ a := fun heq => hb.fresh (heq ▸ hbo)
    rw [ht.frame b (hown b (hb.mono b hbo)) hbd j hj, hword b j (hbo.aligned h) hj,
      if_neg (fun hc => hbd hc.1.symm), if_neg hba]

theorem nextOffset_eq (i : ℕ) :
    int32 (int32 (4194304 * i) + pagingTotalEntriesPerTable * pagingPageSize) =
      int32 (4194304 * ((i + 1 : ℕ) : ℤ)) := by
  unfold int32 pagingTotalEntriesPerTable pagingPageSize
  push_cast
  omega

theorem chunkTables_spec (flags directory : ℕ) (hf : flags < 256) (fuel i : ℕ) (k k' : KMem)
    (live : List Extent) (hi : i + fuel = 1024) (h : k.WellFormed live)
    (hd : k.Owns live directory)
    (hrun : chunkTables flags directory fuel i (int32 (4194304 * i)) k = some k') :
    ∃ live' t, TablesBuilt k k' live live' flags directory i t := by
  induction fuel generalizing i k live with
  | zero =>
    obtain rfl : k = k' := Option.some.inj hrun
    exact ⟨live, fun _ => 0, h, ⟨rfl, rfl⟩, fun _ ha => ha, by omega, by omega, by omega, by omega, by omega,
      fun _ _ => rfl, fun _ _ _ _ _ => rfl⟩
  | succ fuel ih =>
    simp only [chunkTables, nextOffset_eq] at hrun
    split_ifs at hrun with hnull
    obtain ⟨live₁, hb⟩ := h.kzalloc_block (by decide) (by decide) hnull
    generalize (kzalloc k (4 * pagingTotalEntriesPerTable)).1 = a at hrun hb
    generalize (kzalloc k (4 * pagingTotalEntriesPerTable)).2 = k₁ at hrun hb
    obtain ⟨live', t, ht⟩ := ih (i + 1)
      { k₁ with mem := buildTable flags directory i (int32 (4194304 * i)) a k₁.mem } live₁ (by omega)
      (hb.wellFormed.withMem _) (hb.mono _ hd) hrun
    refine ⟨live', _, TablesBuilt.cons (by omega) h hd hb ?_ ?_ ?_ ht⟩
    · exact ⟨rfl, rfl⟩
    · exact fun b ho => ho
    intro b j hb0 hj
    have haa := hb.owned.aligned hb.wellFormed
    have halt := hb.owned.lt hb.wellFormed
    simp only [hb.mem_eq, identityMap, ← fillTable_identity (show i < 1024 by omega) hj]
    exact buildTable_word hf haa halt (hd.aligned h) (by omega) hb0 hj

/-- What a successful `paging_new_chunk` establishes: a chunk of blocks nobody
owned, mapping every page to itself, with the contents of all other blocks kept. -/
structure NewChunk (k k' : KMem) (live live' : List Extent) (page flags : ℕ) (c : Chunk) : Prop where
  wellFormed : k'.WellFormed live'
  region : k.SameRegion k'
  mono : ∀ a, k.Owns live a → k'.Owns live' a
  owned : ∀ a, c.IsBlock page a → k'.Owns live' a
  fresh : ∀ a, c.IsBlock page a → ¬ k.Owns live a
  separate : c.Separate page
  chunkAt : ChunkAt k'.mem page c (identityMap flags)
  frame : ∀ a, k.Owns live a → ∀ j < 1024, load32 k'.mem (a + 4 * j) = load32 k.mem (a + 4 * j)

/-- Storing the directory's address in a fresh `struct Page` leaves other blocks alone. -/
theorem KMem.FreshBlock.pageWord {k k' : KMem} {live live' : List Extent} {page directory : ℕ}
    (hb : k.FreshBlock k' live live' page 4) (h : k.WellFormed live) (hd : directory < 2 ^ 32) {a j : ℕ}
    (ho : k.Owns live a) (hj : j < 1024) :
    load32 (store32 k'.mem page directory) (a + 4 * j) = load32 k.mem (a + 4 * j) := by
  have hpa := hb.owned.aligned hb.wellFormed
  have hne : page ≠ a := fun heq => hb.fresh (heq ▸ ho)
  have hstore := load32_store32_page k'.mem hpa (ho.aligned h) (show 0 < 1024 by omega) hj hd
  rw [if_neg fun hc => hne hc.1, Nat.mul_zero, Nat.add_zero] at hstore
  rw [hstore, hb.mem_eq, load32_fill_page k.mem 0 hpa (ho.aligned h) hne (by omega) hj]

/-- The words of the directory, with the flags of the call. -/
theorem pagingNewChunk_words {k k' : KMem} {live : List Extent} (h : k.WellFormed live)
    {flags page : ℕ} (hf : flags < 256) (hnew : pagingNewChunk k flags = some (page, k')) :
    ∃ live' c, NewChunk k k' live live' page flags c ∧
      ∀ i < 1024, load32 k'.mem (c.directory + 4 * i) = c.table i ||| flags ||| pagingIsWritable := by
  simp only [pagingNewChunk] at hnew
  split_ifs at hnew with hnull
  obtain ⟨live₁, hb₁⟩ := h.kzalloc_block (by decide) (by decide) hnull
  generalize (kzalloc k (4 * pagingTotalEntriesPerTable)).1 = directory at hnew hb₁
  generalize (kzalloc k (4 * pagingTotalEntriesPerTable)).2 = k₁ at hnew hb₁
  obtain ⟨k₂, htables, hnew⟩ := Option.bind_eq_some_iff.mp hnew
  have h0 : int32 (4194304 * ((0 : ℕ) : ℤ)) = 0 := int32_of_bounds (by decide) (by decide)
  obtain ⟨live₂, t, ht⟩ := chunkTables_spec flags directory hf _ 0 k₁ k₂ live₁ rfl hb₁.wellFormed
    hb₁.owned (by rw [h0]; exact htables)
  split_ifs at hnew with hnull
  obtain ⟨live₃, hb₃⟩ := ht.wellFormed.kzalloc_block (by decide) (by decide) hnull
  generalize (kzalloc k₂ 4).1 = p at hnew hb₃
  generalize (kzalloc k₂ 4).2 = k₃ at hnew hb₃
  obtain ⟨rfl, rfl⟩ := Prod.mk.inj (Option.some.inj hnew)
  have hdlt := hb₁.owned.lt hb₁.wellFormed
  have hd₂ := ht.mono _ hb₁.owned
  have hkeep : ∀ a, k₂.Owns live₂ a → ∀ j < 1024,
      load32 (store32 k₃.mem p directory) (a + 4 * j) = load32 k₂.mem (a + 4 * j) :=
    fun a ho j hj => hb₃.pageWord ht.wellFormed (by omega) ho hj
  have howned : ∀ a, k.Owns live a → k₂.Owns live₂ a ∧ a ≠ directory :=
    fun a ho => ⟨ht.mono a (hb₁.mono a ho), fun heq => hb₁.fresh (heq ▸ ho)⟩
  have hregion := (hb₁.region.trans ht.region).trans hb₃.region
  have hword : ∀ i < 1024,
      load32 (store32 k₃.mem p directory) (directory + 4 * i) = t i ||| flags ||| pagingIsWritable := by
    intro i hi
    rw [hkeep _ hd₂ i hi, ht.directoryWord i (Nat.zero_le i) hi]
  refine ⟨live₃, ⟨directory, t⟩, ⟨hb₃.wellFormed.withMem _, ⟨hregion.total_eq, hregion.start_eq⟩,
    fun a ho => hb₃.mono a (howned a ho).1, ?_, ?_, ?_, ?_, ?_⟩, hword⟩
  · rintro a (rfl | rfl | ⟨i, hi, rfl⟩)
    · exact hb₃.owned
    · exact hb₃.mono _ hd₂
    · exact hb₃.mono _ (ht.owned i (Nat.zero_le i) hi)
  · rintro a (rfl | rfl | ⟨i, hi, rfl⟩) ho
    · exact hb₃.fresh (howned _ ho).1
    · exact hb₁.fresh ho
    · exact ht.fresh i (Nat.zero_le i) hi (hb₁.mono _ ho)
  · refine ⟨fun heq => hb₃.fresh (heq ▸ hd₂), fun i hi heq => ?_, fun i hi heq => ?_,
      fun i hi j hj => ht.injective i j (Nat.zero_le i) hi (Nat.zero_le j) hj⟩
    · exact hb₃.fresh (heq ▸ ht.owned i (Nat.zero_le i) hi)
    · have heq : directory = t i := heq
      exact ht.fresh i (Nat.zero_le i) hi (heq ▸ hb₁.owned)
  · refine ⟨load32_store32_same _ _ (by omega), fun i hi => ⟨flags ||| pagingIsWritable, ?_, ?_⟩,
      fun i hi j hj => ?_⟩
    · exact Nat.or_lt_two_pow (n := 12) (by omega) (by decide)
    · rw [hword i hi, Nat.or_assoc]
    · rw [hkeep _ (ht.owned i (Nat.zero_le i) hi) j hj, ht.tableWord i (Nat.zero_le i) hi j hj]
  · intro a ho j hj
    obtain ⟨ho₂, hne⟩ := howned a ho
    rw [hkeep a ho₂ j hj, ht.frame a (hb₁.mono a ho) hne j hj, hb₁.mem_eq,
      load32_fill_page k.mem 0 (hb₁.owned.aligned hb₁.wellFormed) (ho.aligned h) hne.symm (by decide) hj]

theorem pagingNewChunk_spec {k k' : KMem} {live : List Extent} (h : k.WellFormed live)
    {flags page : ℕ} (hf : flags < 256) (hnew : pagingNewChunk k flags = some (page, k')) :
    ∃ live' c, NewChunk k k' live live' page flags c := by
  obtain ⟨live', c, hc, -⟩ := pagingNewChunk_words h hf hnew
  exact ⟨live', c, hc⟩

end Zhios
