import Zhios.Lib.CString
import Zhios.Memory.Kheap

/-! Path names: `src/fs/path.c`. A parsed path keeps the addresses of what was
allocated for it next to the data stored there. No allocation is checked, so the
model has no result where one fails. -/
namespace Zhios
open Machine

/-- Whether `memcmp` returns zero. Its loop compares `count` times without moving
either pointer. -/
def memcmpIsZero (s1 s2 : List UInt8) : (count : ℕ) → Bool
  | 0 => true
  | count + 1 => if s1.headD 0 ≠ s2.headD 0 then false else memcmpIsZero s1 s2 count

def pathIsValidFormat (path : List UInt8) : Bool :=
  path.length ≤ zhiosMaxPath && 3 ≤ path.length && isDigit (path.headD 0) &&
    memcmpIsZero (path.drop 1) [0x3A, 0x2F] 2

def pathGetDriveNumber (path : List UInt8) : ℤ := atoi (path.headD 0)

/-- `struct Path` at `address`, with the name `path_name` points to. -/
structure PathNode where
  address : ℕ
  pathName : ℕ
  name : List UInt8
  deriving DecidableEq, Repr

/-- `struct RootPath`, with the list from `root` on. -/
structure RootPath where
  address : ℕ
  driveNumber : ℤ
  root : List PathNode
  deriving DecidableEq, Repr

def sizeofPath : ℕ := 8
def sizeofRootPath : ℕ := 8

def getPathDepth (path : List UInt8) : ℕ := 1 + (path.drop 1).countP (· == 0x2F)

/-- A buffer for the name of the next node of the array, and the node. -/
def getSubpath (k : KMem) (address : ℕ) (segment : List UInt8) : Option (PathNode × KMem) :=
  let r := kzalloc k zhiosMaxPath
  if r.1 = 0 then none else some (⟨address, r.1, segment⟩, r.2)

/-- The loop of `create_path` over the rest of the string: `segment` is what was
read since `start`, and `count` nodes of the array at `paths` are in use. -/
def createPathLoop (paths : ℕ) : (rest segment : List UInt8) → (count : ℕ) → KMem →
    Option (List PathNode × KMem)
  | [], segment, count, k =>
    if segment = [] then some ([], k)
    else (getSubpath k (paths + sizeofPath * count) segment).map fun r => ([r.1], r.2)
  | c :: rest, segment, count, k =>
    if c ≠ 0x2F then createPathLoop paths rest (segment ++ [c]) count k
    else if segment = [] then createPathLoop paths rest [] count k
    else
      (getSubpath k (paths + sizeofPath * count) segment).bind fun r =>
        (createPathLoop paths rest [] (count + 1) r.2).map fun t => (r.1 :: t.1, t.2)

/-- With no component at all the array is allocated but not used. -/
def createPath (k : KMem) (path : List UInt8) : Option (List PathNode × KMem) :=
  let r := kzalloc k (sizeofPath * getPathDepth path)
  if r.1 = 0 then
    (createPathLoop 0 path [] 0 r.2).bind fun t => if t.1 = [] then some t else none
  else createPathLoop r.1 path [] 0 r.2

/-- The inner `none` is the null pointer for a path that is not valid. -/
def parsePath (k : KMem) (path : List UInt8) : Option (Option RootPath × KMem) :=
  if !pathIsValidFormat path then some (none, k)
  else
    let r := kzalloc k sizeofRootPath
    if r.1 = 0 then none
    else (createPath r.2 (path.drop 2)).map fun t => (some ⟨r.1, pathGetDriveNumber path, t.1⟩, t.2)

/-- The nodes share one array, and each is freed before and after its name. -/
def freePath (k : KMem) (rootPath : RootPath) : KMem :=
  kfree (rootPath.root.foldl (fun k n => kfree (kfree (kfree k n.address) n.pathName) n.address) k)
    rootPath.address

/-- The components of a path: what lies between its slashes, where that is not
empty. -/
def components (path : List UInt8) : List (List UInt8) := (path.splitOn 0x2F).filter (· ≠ [])

theorem components_slash {segment : List UInt8} (h : 0x2F ∉ segment) (rest : List UInt8) :
    components (segment ++ 0x2F :: rest) =
      if segment = [] then components rest else segment :: components rest := by
  rw [components, List.splitOn_append_cons_self_of_not_mem h, List.filter_cons]
  by_cases hs : segment = [] <;> simp [hs, components]

theorem components_end {segment : List UInt8} (h : 0x2F ∉ segment) :
    components segment = if segment = [] then [] else [segment] := by
  rw [components, List.splitOn_eq_singleton h, List.filter_cons]
  by_cases hs : segment = [] <;> simp [hs]

theorem getSubpath_name {k k' : KMem} {address : ℕ} {segment : List UInt8} {node : PathNode}
    (h : getSubpath k address segment = some (node, k')) : node.name = segment := by
  simp only [getSubpath] at h
  split_ifs at h
  cases h
  rfl

theorem createPathLoop_names {paths : ℕ} {rest segment : List UInt8} {count : ℕ} {k k' : KMem}
    {nodes : List PathNode} (hs : 0x2F ∉ segment)
    (h : createPathLoop paths rest segment count k = some (nodes, k')) :
    nodes.map PathNode.name = components (segment ++ rest) := by
  induction rest generalizing segment count k nodes with
  | nil =>
    rw [List.append_nil, components_end hs]
    rw [createPathLoop] at h
    split_ifs at h ⊢ with hsegment
    · cases h
      rfl
    · obtain ⟨⟨node, k₁⟩, hnode, heq⟩ := Option.map_eq_some_iff.mp h
      cases heq
      rw [List.map_singleton, getSubpath_name hnode]
  | cons c rest ih =>
    rw [createPathLoop] at h
    split_ifs at h with hc hsegment
    · have hs' : 0x2F ∉ segment ++ [c] := by
        simp only [List.mem_append, List.mem_singleton, not_or]
        exact ⟨hs, fun hmem => hc hmem.symm⟩
      rw [ih hs' h, List.append_assoc, List.singleton_append]
    · obtain rfl := not_not.mp hc
      rw [components_slash hs, if_pos hsegment, ih List.not_mem_nil h, List.nil_append]
    · obtain rfl := not_not.mp hc
      obtain ⟨⟨node, k₁⟩, hnode, hrest⟩ := Option.bind_eq_some_iff.mp h
      obtain ⟨⟨tail, k₂⟩, htail, heq⟩ := Option.map_eq_some_iff.mp hrest
      cases heq
      rw [components_slash hs, if_neg hsegment, List.map_cons, getSubpath_name hnode,
        ih List.not_mem_nil htail, List.nil_append]

theorem createPath_names {path : List UInt8} {k k' : KMem} {nodes : List PathNode}
    (h : createPath k path = some (nodes, k')) : nodes.map PathNode.name = components path := by
  simp only [createPath] at h
  split_ifs at h with hnull
  · obtain ⟨t, hloop, ht⟩ := Option.bind_eq_some_iff.mp h
    split_ifs at ht
    cases ht
    exact createPathLoop_names List.not_mem_nil hloop
  · exact createPathLoop_names List.not_mem_nil h

theorem parsePath_some {path : List UInt8} {k k' : KMem} {rootPath : RootPath}
    (h : parsePath k path = some (some rootPath, k')) :
    pathIsValidFormat path = true ∧ rootPath.driveNumber = pathGetDriveNumber path ∧
      rootPath.root.map PathNode.name = components (path.drop 2) := by
  simp only [parsePath] at h
  split_ifs at h with hvalid hnull
  · simp at h
  · obtain ⟨⟨nodes, k₁⟩, hcreate, heq⟩ := Option.map_eq_some_iff.mp h
    cases heq
    exact ⟨by simpa using hvalid, rfl, createPath_names hcreate⟩

theorem parsePath_null {path : List UInt8} {k k' : KMem} (h : parsePath k path = some (none, k')) :
    pathIsValidFormat path = false := by
  simp only [parsePath] at h
  split_ifs at h with hvalid hnull
  · simpa using hvalid
  · obtain ⟨t, -, heq⟩ := Option.map_eq_some_iff.mp h
    simp at heq

theorem getSubpath_served {k : KMem} {live : List Extent} (h : k.WellFormed live) (address : ℕ)
    (segment : List UInt8) (hroom : Layout.used live < k.heap.total) :
    ∃ node k' live', getSubpath k address segment = some (node, k') ∧ KMem.Served k k' live live' 1 := by
  obtain ⟨hne, live', hserved⟩ := kzalloc_served h zhiosMaxPath (by decide) (by decide) hroom
  exact ⟨_, _, live', if_neg hne, hserved⟩

/-- One block for each component is enough. -/
theorem createPathLoop_served {k : KMem} {live : List Extent} (h : k.WellFormed live) (paths : ℕ)
    (rest segment : List UInt8) (count : ℕ) (hs : 0x2F ∉ segment)
    (hroom : Layout.used live + (components (segment ++ rest)).length ≤ k.heap.total) :
    ∃ nodes k' live', createPathLoop paths rest segment count k = some (nodes, k') ∧
      KMem.Served k k' live live' (components (segment ++ rest)).length := by
  induction rest generalizing segment count k live with
  | nil =>
    rw [List.append_nil, components_end hs] at hroom ⊢
    rw [createPathLoop]
    split_ifs at hroom ⊢ with hsegment
    · exact ⟨[], k, live, rfl, h, rfl, rfl, rfl⟩
    · obtain ⟨node, k', live', hnode, hserved⟩ := getSubpath_served h (paths + sizeofPath * count) segment
        (by simpa using hroom)
      exact ⟨[node], k', live', by rw [hnode]; rfl, hserved⟩
  | cons c rest ih =>
    rw [createPathLoop]
    split_ifs with hc hsegment
    · have hs' : 0x2F ∉ segment ++ [c] := by
        simp only [List.mem_append, List.mem_singleton, not_or]
        exact ⟨hs, fun hmem => hc hmem.symm⟩
      have happend : segment ++ c :: rest = segment ++ [c] ++ rest := by simp
      rw [happend] at hroom ⊢
      exact ih h _ count hs' hroom
    · obtain rfl := not_not.mp hc
      rw [components_slash hs, if_pos hsegment] at hroom ⊢
      exact ih h [] count List.not_mem_nil hroom
    · obtain rfl := not_not.mp hc
      rw [components_slash hs, if_neg hsegment, List.length_cons] at hroom ⊢
      obtain ⟨node, k₁, live₁, hnode, hfirst⟩ := getSubpath_served h (paths + sizeofPath * count) segment
        (by omega)
      obtain ⟨nodes, k₂, live₂, hnodes, hrest⟩ := ih hfirst.wellFormed [] (count + 1) List.not_mem_nil
        (by rw [hfirst.used_eq, hfirst.region.total_eq, List.nil_append]; omega)
      refine ⟨node :: nodes, k₂, live₂, by simp [hnode, hnodes], ?_⟩
      rw [Nat.add_comm]
      exact hfirst.trans hrest

theorem getPathDepth_le (path : List UInt8) : getPathDepth path ≤ path.length + 1 := by
  have hcount := List.countP_le_length (p := (· == (0x2F : UInt8))) (l := path.drop 1)
  rw [List.length_drop] at hcount
  unfold getPathDepth
  omega

/-- Parsing takes two blocks and one for each component. -/
theorem parsePath_served {k : KMem} {live : List Extent} (h : k.WellFormed live) (path : List UInt8)
    (hvalid : pathIsValidFormat path = true)
    (hroom : Layout.used live + (2 + (components (path.drop 2)).length) ≤ k.heap.total) :
    ∃ rootPath k' live', parsePath k path = some (some rootPath, k') ∧
      KMem.Served k k' live live' (2 + (components (path.drop 2)).length) := by
  have hlen : path.length ≤ 100 := by
    simp only [pathIsValidFormat, Bool.and_eq_true, decide_eq_true_eq] at hvalid
    exact hvalid.1.1.1
  have hdepth := getPathDepth_le (path.drop 2)
  rw [List.length_drop] at hdepth
  have hpos : 1 ≤ getPathDepth (path.drop 2) := Nat.le_add_right 1 _
  obtain ⟨hroot, live₁, h₁⟩ := kzalloc_served h sizeofRootPath (by decide) (by decide) (by omega)
  obtain ⟨harray, live₂, h₂⟩ := kzalloc_served h₁.wellFormed
    (sizeofPath * getPathDepth (path.drop 2)) (by unfold sizeofPath; omega)
    (by unfold sizeofPath; omega) (by rw [h₁.used_eq, h₁.region.total_eq]; omega)
  have h₁₂ := h₁.trans h₂
  obtain ⟨nodes, k', live', hloop, h₃⟩ := createPathLoop_served h₂.wellFormed
    (kzalloc (kzalloc k sizeofRootPath).2 (sizeofPath * getPathDepth (path.drop 2))).1
    (path.drop 2) [] 0 List.not_mem_nil
    (by rw [h₁₂.used_eq, h₁₂.region.total_eq, List.nil_append]; omega)
  refine ⟨⟨(kzalloc k sizeofRootPath).1, pathGetDriveNumber path, nodes⟩, k', live', ?_, h₁₂.trans h₃⟩
  simp [parsePath, hvalid, hroot, createPath, harray, hloop]

end Zhios
