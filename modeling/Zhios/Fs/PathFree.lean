import Zhios.Fs.PathMemory

/-! What `free_path` gives back. The array is freed through its first node, and again
through the others; without a node nobody frees it. -/
namespace Zhios
open Machine

/-- The loop frees the nodes of the list one after the other. -/
theorem freePathLoop_eq {nodes : List PathNode} {k : KMem} {a fuel : ℕ} (h : PathListAt k.mem a nodes)
    (hfuel : nodes.length < fuel) : freePathLoop fuel a k =
      some (nodes.foldl (fun k node => kfree (kfree (kfree k node.address) node.pathName) node.address) k) := by
  induction nodes generalizing k a fuel with
  | nil =>
    obtain ⟨fuel, rfl⟩ : ∃ f, fuel = f + 1 := ⟨fuel - 1, by omega⟩
    rw [freePathLoop, if_pos (show a = 0 from h)]
    rfl
  | cons node nodes ih =>
    obtain ⟨fuel, rfl⟩ : ∃ f, fuel = f + 1 := ⟨fuel - 1, by omega⟩
    obtain ⟨rfl, hne, hname, -, hrest⟩ := h
    rw [List.length_cons] at hfuel
    simp only [freePathLoop, if_neg hne, kfree_mem, hname]
    exact ih hrest (by omega)

/-- The same frees as in the model without memory. -/
theorem freePathAt_eq {k k₁ : KMem} {rootPath : RootPath} (h : RootPathAt k.mem rootPath) (hheap : k.heap = k₁.heap)
    (hlen : rootPath.root.length < 2 ^ 32) :
    ∃ k', freePathAt k rootPath.address = some k' ∧ k'.heap = (freePath k₁ rootPath).heap := by
  have hfold : ∀ (nodes : List PathNode) (k k₁ : KMem), k.heap = k₁.heap →
      (nodes.foldl (fun k node => kfree (kfree (kfree k node.address) node.pathName) node.address) k).heap =
        (nodes.foldl (fun k node => kfree (kfree (kfree k node.address) node.pathName) node.address) k₁).heap := by
    intro nodes
    induction nodes with
    | nil => exact fun _ _ heq => heq
    | cons node nodes ih =>
      intro k k₁ heq
      refine ih _ _ ?_
      simp only [kfree_heap, heq]
  refine ⟨_, by rw [freePathAt, freePathLoop_eq h.root hlen, Option.map_some], ?_⟩
  rw [freePath, kfree_heap, kfree_heap, hfold rootPath.root k k₁ hheap]

/-- Freeing anything in a block that is free changes nothing. -/
theorem KMem.Coherent.kfree_free {k k' : KMem} (h : k.Coherent) (hregion : k.SameRegion k') {b a : ℕ}
    (hb : b < k.heap.total) (hfree : k'.heap.entry b = heapBlockFree) (hlo : k.blockAddress b ≤ a)
    (hhi : a < k.blockAddress b + 4096) : Zhios.kfree k' a = k' := by
  have htotal := h.total_le
  have hblock : addressToHeapBlock k'.heap a = b := by
    unfold KMem.blockAddress at hlo hhi
    have hoffset : (a : ℤ) - k'.heap.startAddress = ((a - k.heap.startAddress : ℕ) : ℤ) := by
      rw [hregion.start_eq]
      omega
    rw [addressToHeapBlock, hoffset, int32_of_bounds (by omega) (by omega), zhiosHeapBlockSize]
    rw [Int.tdiv_eq_ediv_of_nonneg (by omega)]
    omega
  have hint : int32 k'.heap.total = k.heap.total := by
    rw [hregion.total_eq]
    exact int32_of_bounds (by omega) (by omega)
  obtain ⟨fuel, hfuel⟩ : ∃ fuel, (b : ℤ).natAbs + k'.heap.total = fuel + 1 :=
    ⟨b + k.heap.total - 1, by rw [hregion.total_eq]; omega⟩
  have hheap : heapFree k'.heap a = k'.heap.setEntry b heapBlockFree := by
    rw [heapFree, hblock, heapFreeBlocks, hfuel, heapFreeLoop, hint, if_pos (by omega), hfree, if_pos (by decide)]
  have hsame : k'.heap.setEntry b heapBlockFree = k'.heap := by
    have hentries :
        (fun i => if i = (b : ℤ) then heapBlockFree else k'.heap.table.entries i) = k'.heap.table.entries := by
      funext i
      split_ifs with hi
      · rw [hi]
        exact hfree.symm
      · rfl
    rw [Heap.setEntry, hentries]
  rw [Zhios.kfree, hheap, hsame]

theorem KMem.Lends.kzalloc_address {k : KMem} {live : List Extent} (h : k.WellFormed live) (size : ℕ) (hsize : 1 ≤ size)
    (hle : size ≤ 4096) (hne : (Zhios.kzalloc k size).1 ≠ 0) :
    ∃ b live', (Zhios.kzalloc k size).1 = k.blockAddress b ∧ k.Lends (Zhios.kzalloc k size).2 {b} ∧
      (Zhios.kzalloc k size).2.WellFormed live' := by
  obtain ⟨b, hlends⟩ := KMem.Lends.kzalloc h size hsize hle hne
  obtain ⟨live', hfresh⟩ := h.kzalloc_block hsize hle hne
  obtain ⟨b', hb', haddress⟩ := hlends.of_owns h hfresh.wellFormed hfresh.owned hfresh.fresh
  obtain rfl := Finset.mem_singleton.mp hb'
  exact ⟨b', live', haddress, hlends, hfresh.wellFormed⟩

theorem getSubpath_lends {k k' : KMem} {live : List Extent} (h : k.WellFormed live) {address : ℕ}
    {segment : List UInt8} {node : PathNode} (hsub : getSubpath k address segment = some (node, k')) :
    ∃ b live', node.pathName = k.blockAddress b ∧ k.Lends k' {b} ∧ k'.WellFormed live' := by
  simp only [getSubpath] at hsub
  split_ifs at hsub with hnull
  cases hsub
  exact KMem.Lends.kzalloc_address h _ (by decide) (by decide) hnull

theorem createPathLoop_lends {k k' : KMem} {live : List Extent} (h : k.WellFormed live) {paths count : ℕ}
    {rest segment : List UInt8} {nodes : List PathNode}
    (hloop : createPathLoop paths rest segment count k = some (nodes, k')) :
    ∃ (names : List ℕ) (live' : List Extent), nodes.map PathNode.pathName = names.map k.blockAddress ∧ names.Nodup ∧
      k.Lends k' names.toFinset ∧ k'.WellFormed live' := by
  have hnone : k.Lends k ([] : List ℕ).toFinset := .nil k
  induction rest generalizing segment count k live nodes with
  | nil =>
    rw [createPathLoop] at hloop
    split_ifs at hloop
    · cases hloop
      exact ⟨[], live, rfl, List.nodup_nil, hnone, h⟩
    · obtain ⟨⟨node, k₁⟩, hsub, heq⟩ := Option.map_eq_some_iff.mp hloop
      cases heq
      obtain ⟨b, live', haddress, hlends, hwf⟩ := getSubpath_lends h hsub
      refine ⟨[b], live', by simp [haddress], List.nodup_singleton b, ?_, hwf⟩
      simpa using hlends
  | cons c rest ih =>
    rw [createPathLoop] at hloop
    split_ifs at hloop
    · exact ih h hloop hnone
    · exact ih h hloop hnone
    · obtain ⟨⟨node, k₁⟩, hsub, hrest⟩ := Option.bind_eq_some_iff.mp hloop
      obtain ⟨⟨tail, k₂⟩, htail, heq⟩ := Option.map_eq_some_iff.mp hrest
      cases heq
      obtain ⟨b, live₁, haddress, hfirst, hwf₁⟩ := getSubpath_lends h hsub
      obtain ⟨names, live', hnames, hnodup, hlends, hwf⟩ := ih hwf₁ htail (.nil _)
      have hnot : b ∉ names := by
        have hdisjoint := hfirst.disjoint hlends
        simpa using hdisjoint
      refine ⟨b :: names, live', ?_, List.nodup_cons.mpr ⟨hnot, hnodup⟩, ?_, hwf⟩
      · rw [List.map_cons, List.map_cons, haddress, hnames]
        congr 1
        exact List.map_congr_left fun b _ => hfirst.region.blockAddress b
      · rw [List.toFinset_cons]
        exact hfirst.trans hlends

/-- What the loop of `free_path` does once the array is free. -/
theorem KMem.Lends.freeNodes {k k' : KMem} {blocks : Finset ℕ} (hl : k.Lends k' blocks) (h : k.Coherent) {array : ℕ}
    (harray : array < k.heap.total) (hfree : k.heap.entry array = heapBlockFree) (hout : array ∉ blocks)
    {nodes : List PathNode} {names : List ℕ} (hnames : nodes.map PathNode.pathName = names.map k.blockAddress)
    (hnodup : names.Nodup) (hsub : ∀ b ∈ names, b ∈ blocks)
    (haddress : ∀ node ∈ nodes, k.blockAddress array ≤ node.address ∧ node.address < k.blockAddress array + 4096) :
    k.Lends (nodes.foldl (fun k node => Zhios.kfree (Zhios.kfree (Zhios.kfree k node.address) node.pathName)
      node.address) k') (blocks \ names.toFinset) := by
  -- the array stays free, so freeing a node does nothing
  have hnoop : ∀ {k'' : KMem} {left : Finset ℕ}, k.Lends k'' left → left ⊆ blocks → ∀ node : PathNode,
      k.blockAddress array ≤ node.address ∧ node.address < k.blockAddress array + 4096 →
      Zhios.kfree k'' node.address = k'' := by
    intro k'' left hleft hin node hnode
    have hentry : k''.heap.entry array = heapBlockFree := by
      rw [hleft.frame array fun b hb heq => hout (by rw [Int.ofNat.inj heq]; exact hin hb), hfree]
    exact h.kfree_free hleft.region harray hentry hnode.1 hnode.2
  induction nodes generalizing k' blocks names with
  | nil =>
    obtain rfl : names = [] := by simpa using hnames.symm
    simpa using hl
  | cons node nodes ih =>
    cases names with
    | nil => simp at hnames
    | cons b names =>
      rw [List.map_cons, List.map_cons, List.cons.injEq] at hnames
      obtain ⟨hnot, hnodup⟩ := List.nodup_cons.mp hnodup
      obtain ⟨hb, hsub⟩ := List.forall_mem_cons.mp hsub
      obtain ⟨hnode, haddress⟩ := List.forall_mem_cons.mp haddress
      have hfreed := hl.kfree h hb
      rw [List.foldl_cons, hnoop hl (Finset.Subset.refl _) node hnode, hnames.1,
        hnoop hfreed (Finset.erase_subset _ _) node hnode, List.toFinset_cons, Finset.sdiff_insert,
        ← Finset.erase_sdiff_comm]
      exact ih hfreed (fun hmem => hout (Finset.mem_of_mem_erase hmem)) hnames.2 hnodup
        (fun c hc => Finset.mem_erase.mpr ⟨fun hcb => hnot (hcb ▸ hc), hsub c hc⟩) haddress
        fun hleft hin => hnoop hleft (hin.trans (Finset.erase_subset _ _))

/-- What a path that was parsed has taken: a block for the record, one for the array, and one
for each name. -/
structure PathBlocks (k k' : KMem) (rootPath : RootPath) (paths record array : ℕ) (names : List ℕ) : Prop where
  lends : k.Lends k' (insert record (insert array names.toFinset))
  recordAt : rootPath.address = k.blockAddress record
  arrayAt : paths = k.blockAddress array
  namesAt : rootPath.root.map PathNode.pathName = names.map k.blockAddress
  nodup : (record :: array :: names).Nodup

theorem parsePath_lends {k k' : KMem} {live : List Extent} (h : k.WellFormed live) {path : List UInt8}
    {rootPath : RootPath} (hparse : parsePath k path = some (some rootPath, k'))
    (hpaths : (kzalloc (kzalloc k sizeofRootPath).2 (sizeofPath * getPathDepth (path.drop 2))).1 ≠ 0) :
    ∃ record array names, PathBlocks k k' rootPath
      (kzalloc (kzalloc k sizeofRootPath).2 (sizeofPath * getPathDepth (path.drop 2))).1 record array names := by
  have hvalid := (parsePath_some hparse).1
  have hlen := ((pathIsValidFormat_iff path).mp hvalid).2.1
  have hdepth := getPathDepth_le (path.drop 2)
  have hpos : 1 ≤ getPathDepth (path.drop 2) := Nat.le_add_right 1 _
  rw [List.length_drop] at hdepth
  unfold zhiosMaxPath at hlen
  simp only [parsePath, hvalid, Bool.not_true, Bool.false_eq_true, if_false, createPath, if_neg hpaths] at hparse
  split_ifs at hparse with hroot
  obtain ⟨⟨nodes, k₁⟩, hloop, heq⟩ := Option.map_eq_some_iff.mp hparse
  cases heq
  obtain ⟨record, live₁, hrecord, hfirst, hwf₁⟩ := KMem.Lends.kzalloc_address h _ (by decide) (by decide) hroot
  obtain ⟨array, live₂, harray, hsecond, hwf₂⟩ := KMem.Lends.kzalloc_address hwf₁ _ (by unfold sizeofPath; omega)
    (by unfold sizeofPath; omega) hpaths
  obtain ⟨names, -, hnames, hnodup, hthird, -⟩ := createPathLoop_lends hwf₂ hloop
  have hboth := hfirst.trans hsecond
  refine ⟨record, array, names, ?_, hrecord, ?_, ?_, ?_⟩
  · have hall := hboth.trans hthird
    rwa [Finset.singleton_union, Finset.insert_union, Finset.singleton_union] at hall
  · rw [harray]
    exact hfirst.region.blockAddress array
  · rw [hnames]
    exact List.map_congr_left fun b _ => hboth.region.blockAddress b
  · have hrecordArray := hfirst.disjoint hsecond
    have hrest := hboth.disjoint hthird
    rw [Finset.disjoint_singleton] at hrecordArray
    simp only [Finset.singleton_union, Finset.disjoint_insert_left, Finset.disjoint_singleton_left,
      List.mem_toFinset] at hrest
    simp only [List.nodup_cons, List.mem_cons, not_or]
    exact ⟨⟨hrecordArray, hrest.1⟩, hrest.2, hnodup⟩

/-- The array is freed with the first node. -/
theorem PathBlocks.freePath {k k' : KMem} {rootPath : RootPath} {paths record array depth : ℕ} {names : List ℕ}
    {m : Mem} (h : PathBlocks k k' rootPath paths record array names) (hk : k.Coherent)
    (hscanned : Scanned m paths depth rootPath.root) (hdepth : 8 * depth ≤ 4096) :
    (Zhios.freePath k' rootPath).heap = k.heap ↔ rootPath.root ≠ [] := by
  obtain ⟨hrecord, hnodup', hnodup⟩ : (record ≠ array ∧ record ∉ names) ∧ array ∉ names ∧ names.Nodup := by
    simpa [not_or] using h.nodup
  have harraylt := h.lends.lt array (by simp)
  have harrayfree := h.lends.free array (by simp)
  rw [Zhios.freePath, h.recordAt]
  have hnames := h.namesAt
  cases hnodes : rootPath.root with
  | nil =>
    -- the array is still taken
    rw [hnodes] at hnames
    obtain rfl : names = [] := by simpa using hnames.symm
    refine iff_of_false (fun heq => ?_) (fun hc => hc rfl)
    have hleft := h.lends.kfree hk (Finset.mem_insert_self record _)
    have htaken := hleft.taken array (by simp [hrecord.1.symm])
    rw [List.foldl_nil] at heq
    rw [heq, harrayfree] at htaken
    exact absurd htaken (by decide)
  | cons node nodes =>
    refine iff_of_true ?_ (List.cons_ne_nil node nodes)
    rw [hnodes] at hscanned hnames
    have haddress : ∀ other ∈ node :: nodes,
        k.blockAddress array ≤ other.address ∧ other.address < k.blockAddress array + 4096 := by
      intro other hother
      have hin := hscanned.mem_address hother
      have hle := hscanned.length_le
      rw [← h.arrayAt]
      omega
    obtain ⟨hnode, hrest⟩ := List.forall_mem_cons.mp haddress
    have hfirst : node.address = k.blockAddress array := by
      rw [hscanned.address 0 node rfl, ← h.arrayAt]
      rfl
    have hfreed := h.lends.kfree hk (show array ∈ _ by simp)
    -- the first free is done twice, so it may as well be done before the loop
    have htwice : Zhios.kfree (Zhios.kfree k' node.address) node.address = Zhios.kfree k' node.address := by
      have hentry : (Zhios.kfree k' (k.blockAddress array)).heap.entry array = heapBlockFree := by
        rw [hfreed.frame array fun b hb heq => Finset.ne_of_mem_erase hb (Int.ofNat.inj heq).symm, harrayfree]
      rw [hfirst]
      exact hk.kfree_free hfreed.region harraylt hentry le_rfl (by omega)
    have hout : array ∉ (insert record (insert array names.toFinset)).erase array := Finset.notMem_erase array _
    have hin : ∀ b ∈ names, b ∈ (insert record (insert array names.toFinset)).erase array := by
      intro b hb
      have hne : b ≠ array := fun heq => hnodup' (heq ▸ hb)
      simp [hne, hb]
    have hnodes' := hfreed.freeNodes hk harraylt harrayfree hout hnames hnodup hin haddress
    rw [List.foldl_cons] at hnodes' ⊢
    rw [← hfirst, htwice] at hnodes'
    have hlast := hnodes'.kfree hk (show record ∈ _ by simp [hrecord.1, hrecord.2])
    have hnone : ((insert record (insert array names.toFinset)).erase array \ names.toFinset).erase record = ∅ := by
      ext b
      simp only [Finset.mem_erase, Finset.mem_sdiff, Finset.mem_insert, Finset.notMem_empty, iff_false]
      tauto
    rw [hnone] at hlast
    exact hlast.heap_eq

theorem components_ne_nil_iff (path : List UInt8) : components path ≠ [] ↔ ∃ c ∈ path, c ≠ 0x2F := by
  induction path with
  | nil => simp [components]
  | cons c path ih =>
    by_cases hc : c = 0x2F
    · have hslash := components_slash (List.not_mem_nil (a := (0x2F : UInt8))) path
      rw [List.nil_append, if_pos rfl] at hslash
      rw [hc, hslash, ih]
      simp
    · obtain ⟨field, fields, heq⟩ := splitOn_eq_cons 0x2F path
      refine iff_of_true ?_ ⟨c, List.mem_cons_self, hc⟩
      rw [components, splitOn_cons, if_neg hc, heq, List.modifyHead_cons, List.filter_cons_of_pos (by simp)]
      exact List.cons_ne_nil _ _

/-- What freeing a path that was parsed does to the heap. -/
theorem freePathAt_parsed {k k' : KMem} {live : List Extent} (h : k.WellFormed live) {s : List UInt8} (hnull : 0 ∉ s)
    (hroom : 2 + (components (s.drop 2)).length ≤ k.heap.freeBlocks) {rootPath : ℕ}
    (hparse : parsePathAt k s = some (rootPath, k')) (hne : rootPath ≠ 0) :
    ∃ k'', freePathAt k' rootPath = some k'' ∧ (k''.heap = k.heap ↔ components (s.drop 2) ≠ []) := by
  have hused := h.tiling.freeBlocks_le
  have hvalid := (accepts_iff_valid h hnull hroom).mp ⟨rootPath, k', hparse, hne⟩
  obtain ⟨root, k₁, k₂, hroot, hparse', hheap, hat⟩ := parsePathAt_served h hnull hvalid (by omega)
  rw [hparse] at hparse'
  cases hparse'
  have hlen := ((pathIsValidFormat_iff s).mp hvalid).2.1
  have hdepth := getPathDepth_le (s.drop 2)
  rw [List.length_drop] at hdepth
  unfold zhiosMaxPath at hlen
  have hle := hat.scanned.length_le
  obtain ⟨k'', hfree, hheap''⟩ := freePathAt_eq hat.rootPathAt hheap (by omega)
  obtain ⟨record, array, names, hblocks⟩ := parsePath_lends h hroot hat.array
  refine ⟨k'', hfree, ?_⟩
  rw [hheap'', hblocks.freePath h.coherent hat.scanned (by omega), ← (parsePath_some hroot).2.2, ne_eq, ne_eq,
    List.map_eq_nil_iff]

/-- A path that was parsed and freed leaves the heap as it was, unless it has no component. -/
theorem freePathAt_restores_iff {k k' : KMem} {live : List Extent} (h : k.WellFormed live) {s : List UInt8}
    (hnull : 0 ∉ s) (hroom : 2 + (components (s.drop 2)).length ≤ k.heap.freeBlocks) {rootPath : ℕ}
    (hparse : parsePathAt k s = some (rootPath, k')) (hne : rootPath ≠ 0) :
    ∃ k'', freePathAt k' rootPath = some k'' ∧ (k''.heap = k.heap ↔ ∃ c ∈ s.drop 2, c ≠ 0x2F) := by
  obtain ⟨k'', hfree, hiff⟩ := freePathAt_parsed h hnull hroom hparse hne
  exact ⟨k'', hfree, hiff.trans (components_ne_nil_iff _)⟩

theorem freePathAt_restores_shell :
    ∃ rootPath k' k'',
      parsePathAt ⟨freshKernelHeap, fun _ => 0⟩ [0x30, 0x3A, 0x2F, 0x62, 0x69, 0x6E, 0x2F, 0x73, 0x68] =
        some (rootPath, k') ∧ freePathAt k' rootPath = some k'' ∧ k''.heap = freshKernelHeap := by
  have hwf := freshKernelHeap_wellFormed fun _ => 0
  have hnull : (0 : UInt8) ∉ [0x30, 0x3A, 0x2F, 0x62, 0x69, 0x6E, 0x2F, 0x73, 0x68] := by decide
  have hroom : 2 + (components ([0x30, 0x3A, 0x2F, 0x62, 0x69, 0x6E, 0x2F, 0x73, 0x68].drop 2)).length ≤
      freshKernelHeap.freeBlocks := by
    rw [freshKernelHeap_freeBlocks]
    decide
  obtain ⟨rootPath, k', hparse, hne⟩ := (accepts_iff_valid hwf hnull hroom).mpr (by decide)
  obtain ⟨k'', hfree, hrestores⟩ := freePathAt_restores_iff hwf hnull hroom hparse hne
  exact ⟨rootPath, k', k'', hparse, hfree, hrestores.mpr (by decide)⟩

/-- The array of the root directory's path is never freed. -/
theorem freePathAt_root_leaks :
    ∃ rootPath k' k'', parsePathAt ⟨freshKernelHeap, fun _ => 0⟩ [0x30, 0x3A, 0x2F] = some (rootPath, k') ∧
      rootPath ≠ 0 ∧ freePathAt k' rootPath = some k'' ∧ k''.heap ≠ freshKernelHeap := by
  have hwf := freshKernelHeap_wellFormed fun _ => 0
  have hnull : (0 : UInt8) ∉ [0x30, 0x3A, 0x2F] := by decide
  have hroom : 2 + (components ([0x30, 0x3A, 0x2F].drop 2)).length ≤ freshKernelHeap.freeBlocks := by
    rw [freshKernelHeap_freeBlocks]
    decide
  obtain ⟨rootPath, k', hparse, hne⟩ := (accepts_iff_valid hwf hnull hroom).mpr (by decide)
  obtain ⟨k'', hfree, hiff⟩ := freePathAt_parsed hwf hnull hroom hparse hne
  exact ⟨rootPath, k', k'', hparse, hne, hfree, fun heq => hiff.mp heq (by decide)⟩

end Zhios
