import Zhios.Fs.Path
import Zhios.Lib.StringMemory
import Zhios.Memory.PagingRelease

/-! `src/fs/path.c` on memory itself: the records and names that `parse_path` writes, and
how `free_path` follows them. What is written is the list of the model without memory. -/
namespace Zhios
open Machine

/-- A buffer with the bytes from index `start` to `end` in it. -/
def getSubpathAt (k : KMem) (path : List UInt8) (start end_ : ℤ) : Option (ℕ × KMem) :=
  let r := kzalloc k zhiosMaxPath
  if r.1 = 0 then none
  else some (r.1, { r.2 with
    mem := storeBytes r.2.mem r.1 ((path.drop start.toNat).take (end_ - start + 1).toNat) })

/-- The variables of the loop of `create_path`; `start` is -1 between two components. -/
structure PathLoop where
  head : ℕ
  current : ℕ
  count : ℕ
  start : ℤ
  end_ : ℤ
  k : KMem

/-- The turn of the loop at index `i`. The array is written without a check. -/
def createPathStep (paths : ℕ) (path : List UInt8) (i : ℕ) (s : PathLoop) : Option PathLoop :=
  if path.getD i 0 ≠ 0x2F ∧ path.getD i 0 ≠ 0 then
    some { s with start := if s.start = -1 then i else s.start, end_ := i }
  else if s.start ≠ -1 then
    (getSubpathAt s.k path s.start s.end_).bind fun r =>
      if paths = 0 then none
      else
        let node := paths + sizeofPath * s.count
        let mem := store32 r.2.mem node r.1
        let mem := if s.current ≠ 0 then store32 mem (s.current + 4) node else mem
        some
          { head := if s.head = 0 then node else s.head
            current := node
            count := s.count + 1
            start := -1
            end_ := s.end_
            k := { r.2 with mem := mem } }
  else some s

/-- The turns from index `i` on; the last one is at the terminating null. -/
def createPathTurns (paths : ℕ) (path : List UInt8) : (fuel i : ℕ) → PathLoop → Option PathLoop
  | 0, _, s => some s
  | fuel + 1, i, s => (createPathStep paths path i s).bind (createPathTurns paths path fuel (i + 1))

/-- The head of the list. -/
def createPathAt (k : KMem) (path : List UInt8) : Option (ℕ × KMem) :=
  let r := kzalloc k (sizeofPath * getPathDepth path)
  (createPathTurns r.1 path (path.length + 1) 0 ⟨0, 0, 0, -1, -1, r.2⟩).map fun s => (s.head, s.k)

def parsePathAt (k : KMem) (path : List UInt8) : Option (ℕ × KMem) :=
  if !pathIsValidFormat path then some (0, k)
  else
    let r := kzalloc k sizeofRootPath
    if r.1 = 0 then none
    else
      let mem := store32 r.2.mem r.1 (uint32 (pathGetDriveNumber path))
      let mem := store32 mem (r.1 + 4) 0
      (createPathAt { r.2 with mem := mem } (path.drop 2)).map fun t =>
        (r.1, { t.2 with mem := store32 t.2.mem (r.1 + 4) t.1 })

/-- The loop of `free_path`. A record is read again after it was freed; the fuel bounds
the length of the list. -/
def freePathLoop : (fuel path : ℕ) → KMem → Option KMem
  | 0, _, _ => none
  | fuel + 1, path, k =>
    if path = 0 then some k
    else
      let nextPath := load32 k.mem (path + 4)
      let k := kfree k path
      let k := kfree k (load32 k.mem path)
      freePathLoop fuel nextPath (kfree k path)

def freePathAt (k : KMem) (rootPath : ℕ) : Option KMem :=
  (freePathLoop (2 ^ 32) (load32 k.mem (rootPath + 4)) k).map fun k => kfree k rootPath

/-- The records from `a` on hold the list. -/
def PathListAt (m : Mem) : (a : ℕ) → List PathNode → Prop
  | a, [] => a = 0
  | a, node :: nodes => a = node.address ∧ a ≠ 0 ∧ load32 m a = node.pathName ∧ StringAt m node.pathName node.name ∧
    PathListAt m (load32 m (a + 4)) nodes

/-- The record of a parsed path, with what hangs on it. -/
structure RootPathAt (m : Mem) (rootPath : RootPath) : Prop where
  driveNumber : load32 m rootPath.address = uint32 rootPath.driveNumber
  root : PathListAt m (load32 m (rootPath.address + 4)) rootPath.root

/-- The array at `paths` after some nodes of it were written; the rest is still zero. -/
structure Scanned (m : Mem) (paths depth : ℕ) (nodes : List PathNode) : Prop where
  length_le : nodes.length ≤ depth
  address : ∀ j node, nodes[j]? = some node → node.address = paths + 8 * j
  pathName : ∀ node ∈ nodes, load32 m node.address = node.pathName
  name : ∀ node ∈ nodes, StringAt m node.pathName node.name ∧ node.name.length < zhiosMaxPath
  next : ∀ j node, nodes[j]? = some node →
    load32 m (node.address + 4) = if j + 1 < nodes.length then node.address + 8 else 0
  clear : ∀ x, paths + 8 * nodes.length ≤ x → x < paths + 8 * depth → m x = 0

namespace Scanned
variable {m m' : Mem} {paths depth a : ℕ} {nodes : List PathNode} {segment : List UInt8}

theorem mem_address (h : Scanned m paths depth nodes) {node : PathNode} (hn : node ∈ nodes) :
    paths ≤ node.address ∧ node.address + 8 ≤ paths + 8 * nodes.length := by
  obtain ⟨j, hj⟩ := List.mem_iff_getElem?.mp hn
  have hlt := (List.getElem?_eq_some_iff.mp hj).1
  rw [h.address j node hj]
  omega

theorem congr (h : Scanned m paths depth nodes) (harray : ∀ x, paths ≤ x → x < paths + 8 * depth → m' x = m x)
    (hname : ∀ node ∈ nodes, ∀ x, node.pathName ≤ x → x < node.pathName + zhiosMaxPath → m' x = m x) :
    Scanned m' paths depth nodes := by
  have hle := h.length_le
  refine ⟨hle, h.address, fun node hn => ?_, fun node hn => ⟨?_, (h.name node hn).2⟩, fun j node hj => ?_,
    fun x hlo hhi => ?_⟩
  · have hin := h.mem_address hn
    rw [← h.pathName node hn]
    exact load32_congr fun x hlo hhi => harray x (by omega) (by omega)
  · have hlen := (h.name node hn).2
    exact (h.name node hn).1.congr fun x hlo hhi => hname node hn x hlo (by omega)
  · have hin := h.mem_address (List.mem_of_getElem? hj)
    rw [← h.next j node hj]
    exact load32_congr fun x hlo hhi => harray x (by omega) (by omega)
  · rw [harray x (by omega) hhi, h.clear x hlo hhi]

theorem fill (h : Scanned m paths depth nodes) (hdepth : 8 * depth ≤ 4096)
    (hpaths : a + 4096 ≤ paths ∨ paths + 4096 ≤ a)
    (hnames : ∀ node ∈ nodes, a + 4096 ≤ node.pathName ∨ node.pathName + 4096 ≤ a)
    (hsegment : segment.length < zhiosMaxPath) :
    Scanned (storeBytes (Machine.fill m a zhiosMaxPath 0) a segment) paths depth nodes := by
  have hout : ∀ x, x < a ∨ a + zhiosMaxPath ≤ x →
      storeBytes (Machine.fill m a zhiosMaxPath 0) a segment x = m x := by
    intro x hx
    rw [storeBytes_outside _ (by omega), fill_outside _ _ hx]
  unfold zhiosMaxPath at hout
  refine h.congr (fun x hlo hhi => hout x (by omega)) fun node hn x hlo hhi => hout x ?_
  have := hnames node hn
  unfold zhiosMaxPath at hhi
  omega

end Scanned

theorem stringAt_filled (m : Mem) (a : ℕ) {segment : List UInt8} (hnull : 0 ∉ segment)
    (hlen : segment.length < zhiosMaxPath) :
    StringAt (storeBytes (fill m a zhiosMaxPath 0) a segment) a segment := by
  refine ⟨fun o ho => ?_, hnull⟩
  rw [List.length_append, List.length_singleton] at ho
  by_cases hin : o < segment.length
  · rw [storeBytes, if_pos (by omega), Nat.add_sub_cancel_left, List.getD_append _ _ _ _ hin]
  · obtain rfl : o = segment.length := by omega
    rw [storeBytes_outside _ (by omega), fill, if_pos (by omega), List.getD_append_right _ _ _ _ le_rfl, Nat.sub_self]
    rfl

/-- The stores of the turn that ends a component: the new node, and the link to it. -/
def linkNode (m : Mem) (current node a : ℕ) : Mem :=
  if current ≠ 0 then store32 (store32 m node a) (current + 4) node else store32 m node a

section Link
variable {m : Mem} {current node a : ℕ}

theorem linkNode_outside {x : ℕ} (hnode : x < node ∨ node + 4 ≤ x)
    (hcurrent : current ≠ 0 → x < current + 4 ∨ current + 8 ≤ x) : linkNode m current node a x = m x := by
  unfold linkNode
  split_ifs with hc
  · rw [store32_outside _ _ (by have := hcurrent hc; omega), store32_outside _ _ hnode]
  · exact store32_outside _ _ hnode

theorem load32_linkNode_outside {b : ℕ} (hnode : b + 4 ≤ node ∨ node + 4 ≤ b)
    (hcurrent : current ≠ 0 → b + 4 ≤ current + 4 ∨ current + 8 ≤ b) :
    load32 (linkNode m current node a) b = load32 m b :=
  load32_congr fun x _ _ => linkNode_outside (by omega) fun hc => by have := hcurrent hc; omega

theorem load32_linkNode_node (ha : a < 2 ^ 32) (hcurrent : current ≠ 0 → current + 8 ≤ node) :
    load32 (linkNode m current node a) node = a := by
  unfold linkNode
  split_ifs with hc
  · have := hcurrent hc
    rw [load32_store32_disjoint _ _ (by omega), load32_store32_same _ _ ha]
  · exact load32_store32_same _ _ ha

theorem load32_linkNode_current (hnode : node < 2 ^ 32) (hcurrent : current ≠ 0) :
    load32 (linkNode m current node a) (current + 4) = node := by
  rw [linkNode, if_pos hcurrent, load32_store32_same _ _ hnode]

end Link

def lastNode (paths count : ℕ) : ℕ := if count = 0 then 0 else paths + 8 * (count - 1)

@[simp] theorem lastNode_succ (paths n : ℕ) : lastNode paths (n + 1) = paths + 8 * n := rfl

theorem Scanned.concat {m : Mem} {paths depth a : ℕ} {nodes : List PathNode} {segment : List UInt8}
    (h : Scanned m paths depth nodes) (hroom : nodes.length < depth) (hdepth : 8 * depth ≤ 4096) (hne : paths ≠ 0)
    (hfits : paths + 4096 ≤ 2 ^ 32) (ha : a < 2 ^ 32) (hpaths : a + 4096 ≤ paths ∨ paths + 4096 ≤ a)
    (hnames : ∀ node ∈ nodes, node.pathName + 4096 ≤ paths ∨ paths + 4096 ≤ node.pathName)
    (hname : StringAt m a segment ∧ segment.length < zhiosMaxPath) :
    Scanned (linkNode m (lastNode paths nodes.length) (paths + 8 * nodes.length) a) paths depth
      (nodes ++ [⟨paths + 8 * nodes.length, a, segment⟩]) := by
  have hlast : lastNode paths nodes.length ≠ 0 →
      nodes.length ≠ 0 ∧ lastNode paths nodes.length = paths + 8 * (nodes.length - 1) := by
    unfold lastNode
    split_ifs with hnodes
    · exact fun h0 => absurd rfl h0
    · exact fun _ => ⟨hnodes, rfl⟩
  -- the stores stay in the array
  have hout : ∀ x, x < paths ∨ paths + 4096 ≤ x →
      linkNode m (lastNode paths nodes.length) (paths + 8 * nodes.length) a x = m x := by
    intro x hx
    exact linkNode_outside (by omega) fun hc => by have := hlast hc; omega
  have hkept : ∀ s, s.length < zhiosMaxPath → ∀ b, (b + 4096 ≤ paths ∨ paths + 4096 ≤ b) → StringAt m b s →
      StringAt (linkNode m (lastNode paths nodes.length) (paths + 8 * nodes.length) a) b s := by
    intro s hs b hb hat
    unfold zhiosMaxPath at hs
    exact hat.congr fun x hlo hhi => hout x (by omega)
  constructor
  · simpa using hroom
  · intro j node hj
    rw [List.getElem?_append] at hj
    split_ifs at hj with hin
    · exact h.address j node hj
    · obtain ⟨hlt, hget⟩ := List.getElem?_eq_some_iff.mp hj
      rw [List.length_singleton] at hlt
      obtain rfl : j = nodes.length := by omega
      rw [← hget]
      simp
  · intro node hn
    rcases List.mem_append.mp hn with hold | hnew
    · have hin := h.mem_address hold
      rw [← h.pathName node hold]
      refine load32_linkNode_outside (by omega) fun hc => ?_
      have := hlast hc
      obtain ⟨j, hj⟩ := List.mem_iff_getElem?.mp hold
      have := h.address j node hj
      omega
    · obtain rfl := List.mem_singleton.mp hnew
      exact load32_linkNode_node ha fun hc => by have := hlast hc; omega
  · intro node hn
    rcases List.mem_append.mp hn with hold | hnew
    · obtain ⟨hat, hlen⟩ := h.name node hold
      exact ⟨hkept _ hlen _ (hnames node hold) hat, hlen⟩
    · obtain rfl := List.mem_singleton.mp hnew
      exact ⟨hkept _ hname.2 _ hpaths hname.1, hname.2⟩
  · intro j node hj
    rw [List.length_append, List.length_singleton]
    rw [List.getElem?_append] at hj
    split_ifs at hj with hin
    · have haddress := h.address j node hj
      rw [if_pos (by omega)]
      by_cases hl : j + 1 = nodes.length
      · have hcurrent : lastNode paths nodes.length = node.address := by
          rw [lastNode, if_neg (by omega), haddress, ← hl, Nat.add_sub_cancel]
        rw [hcurrent, load32_linkNode_current (by omega) (by omega)]
        omega
      · rw [load32_linkNode_outside (by omega) fun hc => by have := hlast hc; omega, h.next j node hj,
          if_pos (by omega)]
    · obtain ⟨hlt, hget⟩ := List.getElem?_eq_some_iff.mp hj
      rw [List.length_singleton] at hlt
      obtain rfl : j = nodes.length := by omega
      simp only [Nat.sub_self, List.getElem_cons_zero] at hget
      have haddress : node.address = paths + 8 * nodes.length := by rw [← hget]
      rw [if_neg (by omega), haddress, load32_linkNode_outside (by omega) fun hc => by have := hlast hc; omega]
      simp only [load32]
      rw [h.clear _ (by omega) (by omega), h.clear _ (by omega) (by omega), h.clear _ (by omega) (by omega),
        h.clear _ (by omega) (by omega)]
      rfl
  · intro x hlo hhi
    rw [List.length_append, List.length_singleton] at hlo
    rw [linkNode_outside (by omega) fun hc => by have := hlast hc; omega, h.clear x (by omega) hhi]

theorem Scanned.pathListAt {m : Mem} {paths depth : ℕ} {nodes : List PathNode} (h : Scanned m paths depth nodes)
    (hne : paths ≠ 0) : PathListAt m (if nodes = [] then 0 else paths) nodes := by
  have hsuffix : ∀ n j, j + n = nodes.length →
      PathListAt m (if j < nodes.length then paths + 8 * j else 0) (nodes.drop j) := by
    intro n
    induction n with
    | zero =>
      intro j hj
      rw [List.drop_eq_nil_of_le (by omega), if_neg (by omega)]
      rfl
    | succ n ih =>
      intro j hj
      have hlt : j < nodes.length := by omega
      have hget : nodes[j]? = some nodes[j] := List.getElem?_eq_getElem hlt
      have hmem := List.getElem_mem hlt
      have haddress := h.address j _ hget
      have hrest := ih (j + 1) (by omega)
      rw [List.drop_eq_getElem_cons hlt, if_pos hlt]
      refine ⟨haddress.symm, by omega, ?_, (h.name _ hmem).1, ?_⟩
      · rw [← haddress]
        exact h.pathName _ hmem
      · rwa [← haddress, h.next j _ hget, haddress, show paths + 8 * j + 8 = paths + 8 * (j + 1) by omega]
  have hall := hsuffix nodes.length 0 (by omega)
  rw [List.drop_zero, Nat.mul_zero, Nat.add_zero] at hall
  cases nodes with
  | nil => exact hall
  | cons node nodes => simpa using hall

/-- The invariant of the loop of `create_path`: the nodes that were written, and whose
blocks they are. -/
structure Scanning (live : List Extent) (paths depth : ℕ) (s : PathLoop) (nodes : List PathNode) : Prop where
  wellFormed : s.k.WellFormed live
  scanned : Scanned s.k.mem paths depth nodes
  count : s.count = nodes.length
  head : s.head = if nodes = [] then 0 else paths
  current : s.current = lastNode paths nodes.length
  array : s.k.Owns live paths
  names : ∀ node ∈ nodes, s.k.Owns live node.pathName ∧ node.pathName ≠ paths

/-- What part of `create_path` leaves alone: the owners of the blocks, and the contents of
all but the array. -/
structure KeepsBlocks (k k' : KMem) (live live' : List Extent) (paths : ℕ) : Prop where
  region : k.SameRegion k'
  owns : ∀ b, k.Owns live b → k'.Owns live' b
  mem : ∀ b, k.Owns live b → b ≠ paths → ∀ x, b ≤ x → x < b + 4096 → k'.mem x = k.mem x

theorem KeepsBlocks.trans {k₁ k₂ k₃ : KMem} {live₁ live₂ live₃ : List Extent} {paths : ℕ}
    (h : KeepsBlocks k₁ k₂ live₁ live₂ paths) (h' : KeepsBlocks k₂ k₃ live₂ live₃ paths) :
    KeepsBlocks k₁ k₃ live₁ live₃ paths := by
  refine ⟨h.region.trans h'.region, fun b hb => h'.owns b (h.owns b hb), fun b hb hne x hlo hhi => ?_⟩
  rw [h'.mem b (h.owns b hb) hne x hlo hhi, h.mem b hb hne x hlo hhi]

theorem KeepsBlocks.refl (k : KMem) (live : List Extent) (paths : ℕ) : KeepsBlocks k k live live paths :=
  ⟨.refl k, fun _ hb => hb, fun _ _ _ _ _ _ => rfl⟩

theorem KMem.Owns.apart {k : KMem} {live : List Extent} {a b : ℕ} (h : k.WellFormed live) (ha : k.Owns live a)
    (hb : k.Owns live b) (hne : a ≠ b) : a + 4096 ≤ b ∨ b + 4096 ≤ a := by
  have := ha.aligned h
  have := hb.aligned h
  omega

section Turn
variable {live : List Extent} {paths depth i : ℕ} {path segment : List UInt8} {s : PathLoop} {k : KMem}
  {nodes : List PathNode}

/-- Nothing happens between two components. -/
theorem createPathStep_idle (hend : ¬ (path.getD i 0 ≠ 0x2F ∧ path.getD i 0 ≠ 0)) (hstart : s.start = -1) :
    createPathStep paths path i s = some s := by
  rw [createPathStep, if_neg hend, if_neg (not_not.mpr hstart)]

theorem createPathTurns_succ {s₁ : PathLoop} (hstep : createPathStep paths path i s = some s₁) (fuel : ℕ) :
    createPathTurns paths path (fuel + 1) i s = createPathTurns paths path fuel (i + 1) s₁ := by
  rw [createPathTurns, hstep, Option.bind_some]

/-- A turn that ends a component, against the model without memory. -/
theorem Scanning.turn (h : Scanning live paths depth s nodes) (hheap : s.k.heap = k.heap) (hne : paths ≠ 0)
    (hdepth : 8 * depth ≤ 4096) (hcap : nodes.length < depth) (hroom : Layout.used live < s.k.heap.total)
    (hend : ¬ (path.getD i 0 ≠ 0x2F ∧ path.getD i 0 ≠ 0)) (hstart : s.start ≠ -1)
    (hsegment : (path.drop s.start.toNat).take (s.end_ - s.start + 1).toNat = segment) (hnull : 0 ∉ segment)
    (hlen : segment.length < zhiosMaxPath) :
    ∃ node k₁ s' live', getSubpath k (paths + sizeofPath * nodes.length) segment = some (node, k₁) ∧
      createPathStep paths path i s = some s' ∧ s'.start = -1 ∧ s'.k.heap = k₁.heap ∧
      Scanning live' paths depth s' (nodes ++ [node]) ∧ KeepsBlocks s.k s'.k live live' paths ∧
      ¬ s.k.Owns live node.pathName ∧ Layout.used live' = Layout.used live + 1 := by
  obtain ⟨a, k', live', hk, ha, hfresh⟩ := h.wellFormed.serves zhiosMaxPath (by decide) (by decide) hroom
  have hfirst : (kzalloc k zhiosMaxPath).1 = a := by
    rw [kzalloc_fst, ← hheap, ← kzalloc_fst, hk]
  have hsecond : (kzalloc k zhiosMaxPath).2.heap = k'.heap := by
    rw [kzalloc_heap, ← hheap, ← kzalloc_heap, hk]
  have hown := hfresh.mono paths h.array
  have hnew : ∀ b, s.k.Owns live b → a ≠ b := fun b hb heq => hfresh.fresh (heq ▸ hb)
  have hpage : ∀ b, s.k.Owns live b → a + 4096 ≤ b ∨ b + 4096 ≤ a := fun b hb =>
    hfresh.owned.apart hfresh.wellFormed (hfresh.mono b hb) (hnew b hb)
  have hfits := hown.lt hfresh.wellFormed
  have hafits := hfresh.owned.lt hfresh.wellFormed
  have hsub : getSubpathAt s.k path s.start s.end_ =
      some (a, { k' with mem := storeBytes (fill s.k.mem a zhiosMaxPath 0) a segment }) := by
    simp only [getSubpathAt, hk, if_neg ha, hsegment, hfresh.mem_eq]
  have hstep : createPathStep paths path i s = some
      { head := if s.head = 0 then paths + 8 * nodes.length else s.head
        current := paths + 8 * nodes.length
        count := s.count + 1
        start := -1
        end_ := s.end_
        k := ⟨k'.heap, linkNode (storeBytes (fill s.k.mem a zhiosMaxPath 0) a segment)
          (lastNode paths nodes.length) (paths + 8 * nodes.length) a⟩ } := by
    rw [createPathStep, if_neg hend, if_pos hstart, hsub, Option.bind_some, if_neg hne]
    simp only [h.count, h.current, sizeofPath]
    rfl
  have hfill := h.scanned.fill hdepth (hpage paths h.array)
    (fun node hn => hpage _ (h.names node hn).1) hlen
  have hconcat := hfill.concat hcap hdepth hne hfits (by omega) (hpage paths h.array)
    (fun node hn => (h.names node hn).1.apart h.wellFormed h.array (h.names node hn).2)
    ⟨stringAt_filled s.k.mem a hnull hlen, hlen⟩
  refine ⟨⟨paths + sizeofPath * nodes.length, a, segment⟩, (kzalloc k zhiosMaxPath).2, _, live', ?_, hstep, rfl,
    hsecond.symm, ⟨hfresh.wellFormed.withMem _, hconcat, ?_, ?_, ?_, hown, ?_⟩,
    ⟨⟨hfresh.region.total_eq, hfresh.region.start_eq⟩, hfresh.mono, ?_⟩, hfresh.fresh, hfresh.used_eq⟩
  · simp only [getSubpath, hfirst, if_neg ha]
  · rw [h.count, List.length_append, List.length_singleton]
  · rw [h.head]
    cases nodes with
    | nil => simp
    | cons node nodes => simp [hne]
  · rw [List.length_append, List.length_singleton, lastNode_succ]
  · intro node hn
    rcases List.mem_append.mp hn with hold | hnode
    · exact ⟨hfresh.mono _ (h.names node hold).1, (h.names node hold).2⟩
    · obtain rfl := List.mem_singleton.mp hnode
      exact ⟨hfresh.owned, hnew paths h.array⟩
  · intro b hb hbpaths x hlo hhi
    have hb' := hpage b hb
    have hbarray := hb.apart h.wellFormed h.array hbpaths
    unfold zhiosMaxPath at hlen
    have hlast : lastNode paths nodes.length ≠ 0 → lastNode paths nodes.length + 8 ≤ paths + 4096 ∧
        paths ≤ lastNode paths nodes.length := by
      unfold lastNode
      split_ifs
      · exact fun h0 => absurd rfl h0
      · exact fun _ => by omega
    simp only []
    rw [linkNode_outside (by omega) fun hc => by have := hlast hc; omega, storeBytes_outside _ (by omega),
      fill_outside _ _ (by unfold zhiosMaxPath; omega)]

/-- What `start` and `end` stand for at index `i`: the bytes of the component so far. -/
def Reads (path : List UInt8) (i : ℕ) (s : PathLoop) (segment : List UInt8) : Prop :=
  (s.start = -1 ∧ segment = []) ∨
    ∃ start : ℕ, start < i ∧ s.start = start ∧ s.end_ = (i : ℤ) - 1 ∧ (path.drop start).take (i - start) = segment

namespace Reads

theorem step (paths : ℕ) (h : Reads path i s segment) (hi : i < path.length) (hnull : 0 ∉ path)
    (hslash : path[i] ≠ 0x2F) :
    ∃ s', createPathStep paths path i s = some s' ∧ Reads path (i + 1) s' (segment ++ [path[i]]) ∧
      s' = { s with start := s'.start, end_ := s'.end_ } := by
  have hget : path.getD i 0 = path[i] := List.getD_eq_getElem _ _ hi
  have hzero : path[i] ≠ 0 := fun h0 => hnull (h0 ▸ List.getElem_mem hi)
  rw [createPathStep, if_pos (by rw [hget]; exact ⟨hslash, hzero⟩)]
  refine ⟨_, rfl, Or.inr ?_, rfl⟩
  rcases h with ⟨hstart, rfl⟩ | ⟨start, hlt, hstart, -, hsegment⟩
  · refine ⟨i, by omega, if_pos hstart, by push_cast; omega, ?_⟩
    rw [List.drop_eq_getElem_cons hi, Nat.add_sub_cancel_left]
    rfl
  · refine ⟨start, by omega, by rw [if_neg (by omega), hstart], by push_cast; omega, ?_⟩
    rw [← hsegment, Nat.succ_sub (by omega), List.take_add_one, List.getElem?_drop,
      show start + (i - start) = i by omega, List.getElem?_eq_getElem hi]
    rfl

theorem sub (h : Reads path i s segment) : segment ⊆ path ∧ segment.length ≤ path.length := by
  rcases h with ⟨-, rfl⟩ | ⟨start, -, -, -, rfl⟩
  · exact ⟨List.nil_subset _, Nat.zero_le _⟩
  · refine ⟨fun c hc => List.mem_of_mem_drop (List.mem_of_mem_take hc), ?_⟩
    rw [List.length_take, List.length_drop]
    omega

theorem start_eq (h : Reads path i s segment) (hi : i ≤ path.length) : s.start = -1 ↔ segment = [] := by
  rcases h with ⟨hstart, rfl⟩ | ⟨start, hlt, hstart, -, rfl⟩
  · exact iff_of_true hstart rfl
  · refine iff_of_false (by omega) fun hnil => ?_
    have hlen := congrArg List.length hnil
    rw [List.length_take, List.length_drop, List.length_nil] at hlen
    omega

theorem segment_eq (h : Reads path i s segment) (hstart : s.start ≠ -1) :
    (path.drop s.start.toNat).take (s.end_ - s.start + 1).toNat = segment := by
  rcases h with ⟨hnone, -⟩ | ⟨start, hlt, hs, hend, hsegment⟩
  · exact absurd hnone hstart
  · rw [← hsegment, hs, hend, show ((i : ℤ) - 1 - start + 1).toNat = i - start by omega, Int.toNat_natCast]

end Reads

theorem Scanning.turns (hnull : 0 ∉ path) (hlen : path.length < zhiosMaxPath) (hne : paths ≠ 0)
    (hdepth : 8 * depth ≤ 4096) {rest : List UInt8} (hi : i ≤ path.length) (hrest : path.drop i = rest)
    (h : Scanning live paths depth s nodes) (hreads : Reads path i s segment) (hs : 0x2F ∉ segment)
    (hheap : s.k.heap = k.heap) (hcap : nodes.length + (components (segment ++ rest)).length ≤ depth)
    (hroom : Layout.used live + (components (segment ++ rest)).length ≤ s.k.heap.total) :
    ∃ more k₁ s' live', createPathLoop paths rest segment nodes.length k = some (more, k₁) ∧
      createPathTurns paths path (rest.length + 1) i s = some s' ∧ s'.k.heap = k₁.heap ∧
      Scanning live' paths depth s' (nodes ++ more) ∧ KeepsBlocks s.k s'.k live live' paths ∧
      (∀ node ∈ more, ¬ s.k.Owns live node.pathName) ∧
      Layout.used live' = Layout.used live + (components (segment ++ rest)).length := by
  have hnull' : 0 ∉ segment := fun hmem => hnull (hreads.sub.1 hmem)
  have hlen' : segment.length < zhiosMaxPath := hreads.sub.2.trans_lt hlen
  induction rest generalizing i s segment k nodes live with
  | nil =>
    have hend : ¬ (path.getD i 0 ≠ 0x2F ∧ path.getD i 0 ≠ 0) := by
      rw [List.getD_eq_default _ _ (List.drop_eq_nil_iff.mp hrest)]
      exact fun hc => hc.2 rfl
    rw [List.append_nil, components_end hs] at hcap hroom ⊢
    by_cases hsegment : segment = []
    · have hstart := (hreads.start_eq hi).mpr hsegment
      refine ⟨[], k, s, live, ?_, ?_, hheap, by rwa [List.append_nil], .refl _ _ _, by simp, by simp [hsegment]⟩
      · rw [createPathLoop, if_pos hsegment]
      · exact createPathTurns_succ (createPathStep_idle hend hstart) 0
    · have hstart : s.start ≠ -1 := fun hc => hsegment ((hreads.start_eq hi).mp hc)
      rw [if_neg hsegment, List.length_singleton] at hcap hroom ⊢
      obtain ⟨node, k₁, s', live', hsub, hstep, -, hheap', hscan, hkeeps, hnew, hused⟩ := h.turn hheap hne hdepth
        (by omega) (by omega) hend hstart (hreads.segment_eq hstart) hnull' hlen'
      refine ⟨[node], k₁, s', live', ?_, ?_, hheap', hscan, hkeeps, by simpa using hnew, hused⟩
      · rw [createPathLoop, if_neg hsegment, hsub]
        rfl
      · exact createPathTurns_succ hstep 0
  | cons c rest ih =>
    have hlt : i < path.length := by
      by_contra hge
      rw [List.drop_eq_nil_of_le (by omega)] at hrest
      simp at hrest
    rw [List.drop_eq_getElem_cons hlt] at hrest
    obtain ⟨hc, hrest'⟩ := List.cons.inj hrest
    have hget : path.getD i 0 = c := by rw [List.getD_eq_getElem _ _ hlt, hc]
    by_cases hslash : c = 0x2F
    · have hend : ¬ (path.getD i 0 ≠ 0x2F ∧ path.getD i 0 ≠ 0) := by
        rw [hget]
        exact fun hn => hn.1 hslash
      subst hslash
      rw [components_slash hs] at hcap hroom ⊢
      by_cases hsegment : segment = []
      · have hstart := (hreads.start_eq hi).mpr hsegment
        rw [if_pos hsegment] at hcap hroom ⊢
        obtain ⟨more, k₁, s', live', hloop, hturns, hheap', hscan, hkeeps, hnew, hused⟩ := ih hlt hrest' h
          (Or.inl ⟨hstart, rfl⟩) List.not_mem_nil hheap hcap hroom List.not_mem_nil (by decide)
        refine ⟨more, k₁, s', live', ?_, ?_, hheap', hscan, hkeeps, hnew, hused⟩
        · rw [createPathLoop, if_neg (fun hn => hn rfl), if_pos hsegment, hloop]
        · exact (createPathTurns_succ (createPathStep_idle hend hstart) _).trans hturns
      · have hstart : s.start ≠ -1 := fun hc => hsegment ((hreads.start_eq hi).mp hc)
        rw [if_neg hsegment] at hcap hroom ⊢
        rw [List.length_cons] at hcap hroom
        obtain ⟨node, k₁, s₁, live₁, hsub, hstep, hstart₁, hheap₁, hscan₁, hkeeps₁, hnew₁, hused₁⟩ := h.turn hheap hne
          hdepth (by omega) (by omega) hend hstart (hreads.segment_eq hstart) hnull' hlen'
        have hcap₁ : (nodes ++ [node]).length + (components ([] ++ rest)).length ≤ depth := by
          rw [List.length_append, List.length_singleton, List.nil_append]
          omega
        have hroom₁ : Layout.used live₁ + (components ([] ++ rest)).length ≤ s₁.k.heap.total := by
          rw [hused₁, hkeeps₁.region.total_eq, List.nil_append]
          omega
        obtain ⟨more, k₂, s', live', hloop, hturns, hheap', hscan, hkeeps, hnew, hused⟩ := ih hlt hrest' hscan₁
          (Or.inl ⟨hstart₁, rfl⟩) List.not_mem_nil hheap₁ hcap₁ hroom₁ List.not_mem_nil (by decide)
        rw [List.length_append, List.length_singleton] at hloop
        rw [List.append_assoc, List.singleton_append] at hscan
        refine ⟨node :: more, k₂, s', live', ?_, ?_, hheap', hscan, hkeeps₁.trans hkeeps, ?_, ?_⟩
        · rw [createPathLoop, if_neg (fun hn => hn rfl), if_neg hsegment, hsub, Option.bind_some, hloop]
          rfl
        · exact (createPathTurns_succ hstep _).trans hturns
        · exact List.forall_mem_cons.mpr ⟨hnew₁, fun other ho hown => hnew other ho (hkeeps₁.owns _ hown)⟩
        · rw [hused, hused₁, List.nil_append, List.length_cons, Nat.add_assoc, Nat.add_comm 1]
    · obtain ⟨s₁, hstep, hreads₁, hs₁⟩ := hreads.step paths hlt hnull (by rw [hc]; exact hslash)
      have happend : segment ++ c :: rest = segment ++ [c] ++ rest := by simp
      rw [happend] at hcap hroom ⊢
      rw [hc] at hreads₁
      have hslash' : 0x2F ∉ segment ++ [c] := by
        simp only [List.mem_append, List.mem_singleton, not_or]
        exact ⟨hs, fun hmem => hslash hmem.symm⟩
      have hk₁ : s₁.k = s.k := by rw [hs₁]
      have h₁ : Scanning live paths depth s₁ nodes := by
        rw [hs₁]
        exact ⟨h.wellFormed, h.scanned, h.count, h.head, h.current, h.array, h.names⟩
      obtain ⟨more, k₁, s', live', hloop, hturns, hheap', hscan, hkeeps, hnew, hused⟩ :=
        ih (k := k) hlt hrest' h₁ hreads₁ hslash' (by rw [hk₁, hheap]) hcap (by rw [hk₁]; exact hroom)
          (fun hmem => hnull (hreads₁.sub.1 hmem))
        (hreads₁.sub.2.trans_lt hlen)
      refine ⟨more, k₁, s', live', ?_, ?_, hheap', hscan, hk₁ ▸ hkeeps, hk₁ ▸ hnew, hused⟩
      · rw [createPathLoop, if_pos hslash, hloop]
      · exact (createPathTurns_succ hstep _).trans hturns

end Turn

theorem length_components_le (path : List UInt8) : (components path).length ≤ getPathDepth path := by
  cases path with
  | nil => exact Nat.zero_le _
  | cons c rest =>
    have hcount : (rest.splitOn 0x2F).length = getPathDepth (c :: rest) := by
      rw [length_splitOn, getPathDepth, List.drop_one, List.tail_cons, Nat.add_comm]
      rfl
    rw [← hcount, components, splitOn_cons]
    split_ifs
    · rw [List.filter_cons_of_neg (by simp)]
      exact List.length_filter_le _ _
    · exact (List.length_filter_le _ _).trans_eq (by simp)

/-- What a path that was parsed leaves in memory. -/
structure ParsedAt (k : KMem) (path : List UInt8) (rootPath : RootPath) (m : Mem) : Prop where
  address : rootPath.address ≠ 0
  rootPathAt : RootPathAt m rootPath
  array : (kzalloc (kzalloc k sizeofRootPath).2 (sizeofPath * getPathDepth (path.drop 2))).1 ≠ 0
  scanned : Scanned m (kzalloc (kzalloc k sizeofRootPath).2 (sizeofPath * getPathDepth (path.drop 2))).1
    (getPathDepth (path.drop 2)) rootPath.root

/-- With room for the blocks of the model without memory, parsing succeeds and writes its
result. -/
theorem parsePathAt_served {k : KMem} {live : List Extent} (h : k.WellFormed live) {path : List UInt8}
    (hnull : 0 ∉ path) (hvalid : pathIsValidFormat path = true)
    (hroom : Layout.used live + (2 + (components (path.drop 2)).length) ≤ k.heap.total) :
    ∃ rootPath k₁ k', parsePath k path = some (some rootPath, k₁) ∧
      parsePathAt k path = some (rootPath.address, k') ∧ k'.heap = k₁.heap ∧ ParsedAt k path rootPath k'.mem := by
  have hlen : path.length ≤ 100 := by
    simp only [pathIsValidFormat, Bool.and_eq_true, decide_eq_true_eq] at hvalid
    exact hvalid.1.1.1
  have hnull' : 0 ∉ path.drop 2 := fun hmem => hnull (List.mem_of_mem_drop hmem)
  have hdepth := getPathDepth_le (path.drop 2)
  have hpos : 1 ≤ getPathDepth (path.drop 2) := Nat.le_add_right 1 _
  rw [List.length_drop] at hdepth
  obtain ⟨a, k₁, live₁, hk₁, ha, hfresh₁⟩ := h.serves sizeofRootPath (by decide) (by decide) (by omega)
  -- the record, before it gets its list
  obtain ⟨m, hm⟩ : ∃ m, m = store32 (store32 k₁.mem a (uint32 (pathGetDriveNumber path))) (a + 4) 0 := ⟨_, rfl⟩
  have hdrive : load32 m a = uint32 (pathGetDriveNumber path) := by
    rw [hm, load32_store32_disjoint _ _ (by omega), load32_store32_same _ _ (uint32_lt _)]
  have hwf₁ : KMem.WellFormed { k₁ with mem := m } live₁ := hfresh₁.wellFormed.withMem m
  have htotal : (KMem.mk k₁.heap m).heap.total = k.heap.total := hfresh₁.region.total_eq
  obtain ⟨paths, k₂, live₂, hk₂, hpaths, hfresh₂⟩ := hwf₁.serves (sizeofPath * getPathDepth (path.drop 2))
    (by unfold sizeofPath; omega) (by unfold sizeofPath; omega) (by rw [hfresh₁.used_eq, htotal]; omega)
  have hroot : k₂.Owns live₂ a := hfresh₂.mono a hfresh₁.owned
  have hne : a ≠ paths := fun heq => hfresh₂.fresh (heq ▸ hfresh₁.owned)
  have hapart := hroot.apart hfresh₂.wellFormed hfresh₂.owned hne
  -- the same requests without memory
  have hroot' : (kzalloc k sizeofRootPath).1 = a := by rw [hk₁]
  have harray : (kzalloc (kzalloc k sizeofRootPath).2 (sizeofPath * getPathDepth (path.drop 2))).1 = paths := by
    rw [hk₁, kzalloc_fst]
    exact (kzalloc_fst { k₁ with mem := m } _).symm.trans (by rw [hk₂])
  have hheap : k₂.heap = (kzalloc (kzalloc k sizeofRootPath).2 (sizeofPath * getPathDepth (path.drop 2))).2.heap := by
    rw [hk₁, kzalloc_heap]
    exact (congrArg (fun r => r.2.heap) hk₂).symm.trans (kzalloc_heap { k₁ with mem := m } _)
  have hscanning : Scanning live₂ paths (getPathDepth (path.drop 2)) ⟨0, 0, 0, -1, -1, k₂⟩ [] := by
    refine ⟨hfresh₂.wellFormed, ⟨Nat.zero_le _, by simp, by simp, by simp, by simp, fun x hlo hhi => ?_⟩, rfl, rfl,
      rfl, hfresh₂.owned, by simp⟩
    rw [hfresh₂.mem_eq, fill, if_pos ⟨by simpa using hlo, by unfold sizeofPath; exact hhi⟩]
  have hreads : Reads (path.drop 2) 0 ⟨0, 0, 0, -1, -1, k₂⟩ [] := Or.inl ⟨rfl, rfl⟩
  obtain ⟨nodes, k₃, s', live', hloop, hturns, hheap', hscan, hkeeps, hnew, -⟩ := hscanning.turns hnull'
    (by rw [List.length_drop]; unfold zhiosMaxPath; omega) hpaths (by omega) (Nat.zero_le _) List.drop_zero hreads
    List.not_mem_nil hheap (by simpa using length_components_le _)
    (by rw [hfresh₂.used_eq, hfresh₁.used_eq, hfresh₂.region.total_eq, htotal, List.nil_append]; omega)
  rw [List.nil_append] at hscan
  have hroot'' := hkeeps.owns a hroot
  have hrecord : ∀ x, a ≤ x → x < a + 4096 → s'.k.mem x = m x := by
    intro x hlo hhi
    rw [hkeeps.mem a hroot hne x hlo hhi]
    exact (congrFun hfresh₂.mem_eq x).trans (fill_outside _ _ (by unfold sizeofPath; omega))
  have hscanned : Scanned (store32 s'.k.mem (a + 4) s'.head) paths (getPathDepth (path.drop 2)) nodes := by
    refine hscan.scanned.congr (fun x hlo hhi => store32_outside _ _ (by omega)) fun node hn x hlo hhi => ?_
    have hother : a ≠ node.pathName := fun heq => hnew node hn (heq ▸ hroot)
    have := hroot''.apart hscan.wellFormed (hscan.names node hn).1 hother
    unfold zhiosMaxPath at hhi
    exact store32_outside _ _ (by omega)
  have hhead : s'.head < 2 ^ 32 := by
    have hfits := hfresh₂.owned.lt hfresh₂.wellFormed
    rw [hscan.head]
    split_ifs <;> omega
  have hword : load32 (store32 s'.k.mem (a + 4) s'.head) a = uint32 (pathGetDriveNumber path) := by
    rw [load32_store32_disjoint _ _ (by omega), ← hdrive]
    exact load32_congr fun x hlo hhi => hrecord x hlo (by omega)
  have hlist : PathListAt (store32 s'.k.mem (a + 4) s'.head) (load32 (store32 s'.k.mem (a + 4) s'.head) (a + 4))
      nodes := by
    have hfirst := hscanned.pathListAt hpaths
    rw [load32_store32_same _ _ hhead]
    rwa [← hscan.head] at hfirst
  refine ⟨⟨a, pathGetDriveNumber path, nodes⟩, k₃, ⟨s'.k.heap, store32 s'.k.mem (a + 4) s'.head⟩, ?_, ?_, hheap', ha,
    ⟨hword, hlist⟩, harray ▸ hpaths, harray ▸ hscanned⟩
  · simp only [parsePath, hvalid, Bool.not_true, Bool.false_eq_true, if_false, createPath, hroot', if_neg ha, harray,
      if_neg hpaths]
    rw [List.length_nil] at hloop
    rw [hloop]
    rfl
  · simp only [parsePathAt, hvalid, Bool.not_true, Bool.false_eq_true, if_false, hk₁, if_neg ha, createPathAt,
      ← hm, hk₂, hturns, Option.map_some]

/-- A string that is not valid yields the null pointer. -/
theorem parsePathAt_null {path : List UInt8} (k : KMem) (hvalid : pathIsValidFormat path = false) :
    parsePathAt k path = some (0, k) := by
  rw [parsePathAt, hvalid]
  rfl

/-- The path of a drive and the names on the way, as text. -/
def renderPath (drive : ℕ) (names : List (List UInt8)) : List UInt8 :=
  UInt8.ofNat (0x30 + drive) :: 0x3A :: if names = [] then [0x2F] else names.flatMap fun name => 0x2F :: name

/-- The call reads the drive and the names from the string: each name with its null in a
buffer of its own, the records in the array that was allocated for them. -/
def ParsesTo (k : KMem) (s : List UInt8) (drive : ℕ) (names : List (List UInt8)) : Prop :=
  ∃ rootPath k', parsePathAt k s = some (rootPath.address, k') ∧ ParsedAt k s rootPath k'.mem ∧
    rootPath.driveNumber = drive ∧ rootPath.root.map PathNode.name = names

theorem components_flatMap {names : List (List UInt8)} (h : ∀ name ∈ names, name ≠ [] ∧ 0x2F ∉ name) :
    components (names.flatMap fun name => 0x2F :: name) = names := by
  -- behind a component the rest of the list follows
  have hrest : ∀ segment : List UInt8, 0x2F ∉ segment →
      components (segment ++ names.flatMap fun name => 0x2F :: name) =
        if segment = [] then names else segment :: names := by
    induction names with
    | nil =>
      intro segment hs
      rw [List.flatMap_nil, List.append_nil, components_end hs]
    | cons name names ih =>
      intro segment hs
      obtain ⟨⟨hne, hslash⟩, hnames⟩ := List.forall_mem_cons.mp h
      rw [List.flatMap_cons, List.cons_append, components_slash hs, ih hnames name hslash, if_neg hne]
  simpa using hrest [] List.not_mem_nil

/-- What a drive number and a rooted path make valid. -/
theorem pathIsValidFormat_rooted {drive : ℕ} (hdrive : drive < 10) {p : List UInt8} (hslash : p.head? = some 0x2F)
    (hlen : p.length ≤ 98) : pathIsValidFormat (UInt8.ofNat (0x30 + drive) :: 0x3A :: p) = true ∧
      pathGetDriveNumber (UInt8.ofNat (0x30 + drive) :: 0x3A :: p) = drive := by
  have hpos : 1 ≤ p.length := by
    cases p with
    | nil => simp at hslash
    | cons c p => simp
  have htoNat : (UInt8.ofNat (0x30 + drive)).toNat = 0x30 + drive := by
    rw [UInt8.toNat_ofNat']
    omega
  have hdigit : isDigit (UInt8.ofNat (0x30 + drive)) = true := by
    simp only [isDigit, Bool.and_eq_true, decide_eq_true_eq, UInt8.le_iff_toNat_le, htoNat]
    decide +revert
  constructor
  · have hcolon : memcmpIsZero (0x3A :: p) [0x3A, 0x2F] 2 = true := by simp [memcmpIsZero]
    simp only [pathIsValidFormat, zhiosMaxPath, List.length_cons, List.headD_cons, hdigit, List.drop_one,
      List.tail_cons, hcolon, Bool.and_true, Bool.and_eq_true, decide_eq_true_eq]
    exact ⟨decide_eq_true (by omega), by omega⟩
  · rw [pathGetDriveNumber, List.headD_cons, atoi, htoNat]
    omega

theorem ParsesTo.of_rooted {k : KMem} {live : List Extent} (h : k.WellFormed live) {drive : ℕ} (hdrive : drive < 10)
    {p : List UInt8} (hnull : 0 ∉ p) (hslash : p.head? = some 0x2F) (hlen : p.length ≤ 98)
    (hroom : 2 + (components p).length ≤ k.heap.freeBlocks) :
    ParsesTo k (UInt8.ofNat (0x30 + drive) :: 0x3A :: p) drive (components p) := by
  obtain ⟨hvalid, hnumber⟩ := pathIsValidFormat_rooted hdrive hslash hlen
  have hused := h.tiling.freeBlocks_le
  have hnull' : 0 ∉ UInt8.ofNat (0x30 + drive) :: 0x3A :: p := by
    have htoNat : (UInt8.ofNat (0x30 + drive)).toNat = 0x30 + drive := by
      rw [UInt8.toNat_ofNat']
      omega
    simp only [List.mem_cons, not_or]
    refine ⟨fun h0 => ?_, by decide, hnull⟩
    rw [← h0, UInt8.toNat_zero] at htoNat
    omega
  obtain ⟨rootPath, k₁, k', hparse, hparseAt, -, hat⟩ := parsePathAt_served h hnull' hvalid (by
    rw [List.drop_succ_cons, List.drop_one, List.tail_cons]
    omega)
  obtain ⟨-, hdriveNumber, hnames⟩ := parsePath_some hparse
  exact ⟨rootPath, k', hparseAt, hat, hdriveNumber.trans hnumber, hnames⟩

/-- Parsing a drive and a rooted path of up to 98 bytes yields the drive and the components,
and undoes printing. -/
theorem parsePathAt_render {k : KMem} {live : List Extent} (h : k.WellFormed live) {drive : ℕ} (hdrive : drive < 10) :
    (∀ p : List UInt8, 0 ∉ p → p.head? = some 0x2F → p.length ≤ 98 →
      2 + (components p).length ≤ k.heap.freeBlocks →
      ParsesTo k (UInt8.ofNat (0x30 + drive) :: 0x3A :: p) drive (components p)) ∧
    ∀ names : List (List UInt8), (∀ name ∈ names, name ≠ [] ∧ 0x2F ∉ name ∧ 0 ∉ name) →
      (renderPath drive names).length ≤ zhiosMaxPath → 2 + names.length ≤ k.heap.freeBlocks →
      ParsesTo k (renderPath drive names) drive names := by
  refine ⟨fun p hnull hslash hlen hroom => .of_rooted h hdrive hnull hslash hlen hroom,
    fun names hnames hlen hroom => ?_⟩
  have hcomponents := components_flatMap fun name hn => ⟨(hnames name hn).1, (hnames name hn).2.1⟩
  unfold zhiosMaxPath at hlen
  cases names with
  | nil =>
    have hroot : components [0x2F] = [] := by decide
    have hparses := ParsesTo.of_rooted h hdrive (p := [0x2F]) (by simp) rfl (by simp) (by rwa [hroot])
    rwa [hroot] at hparses
  | cons name names =>
    simp only [renderPath, List.cons_ne_nil, if_false, List.length_cons] at hlen ⊢
    have hnull : 0 ∉ (name :: names).flatMap fun name => 0x2F :: name := by
      intro hmem
      obtain ⟨other, hother, hzero⟩ := List.mem_flatMap.mp hmem
      rcases List.mem_cons.mp hzero with hslash | hzero
      · exact absurd hslash (by decide)
      · exact (hnames other hother).2.2 hzero
    have hparses := ParsesTo.of_rooted h hdrive hnull rfl (by omega) (by rwa [hcomponents])
    rwa [hcomponents] at hparses

theorem parsePathAt_render_shell :
    ParsesTo ⟨freshKernelHeap, fun _ => 0⟩ [0x30, 0x3A, 0x2F, 0x62, 0x69, 0x6E, 0x2F, 0x73, 0x68] 0
      [[0x62, 0x69, 0x6E], [0x73, 0x68]] := by
  have hroom : 2 + 2 ≤ freshKernelHeap.freeBlocks := by rw [freshKernelHeap_freeBlocks]; decide
  exact (parsePathAt_render (freshKernelHeap_wellFormed _) (show 0 < 10 by decide)).2
    [[0x62, 0x69, 0x6E], [0x73, 0x68]] (by decide) (by decide) hroom

/-- A drive and a rooted path: a digit, a colon and a slash, in at most 100 bytes. -/
def DrivePath (s : List UInt8) : Prop :=
  3 ≤ s.length ∧ s.length ≤ zhiosMaxPath ∧ isDigit (s.getD 0 0) = true ∧ s.getD 1 0 = 0x3A ∧ s.getD 2 0 = 0x2F

/-- The comparison never gets to the slash. -/
theorem pathIsValidFormat_iff (s : List UInt8) : pathIsValidFormat s = true ↔
    3 ≤ s.length ∧ s.length ≤ zhiosMaxPath ∧ isDigit (s.getD 0 0) = true ∧ s.getD 1 0 = 0x3A := by
  have hcolon : memcmpIsZero (s.drop 1) [0x3A, 0x2F] 2 = true ↔ s.getD 1 0 = 0x3A := by
    have hsecond : (s.drop 1).headD 0 = s.getD 1 0 := by
      rcases s with - | ⟨a, - | ⟨b, s⟩⟩ <;> rfl
    simp only [memcmpIsZero, hsecond, List.headD_cons]
    by_cases hc : s.getD 1 0 = 0x3A <;> simp
  have hfirst : s.headD 0 = s.getD 0 0 := by cases s <;> rfl
  simp only [pathIsValidFormat, Bool.and_eq_true, decide_eq_true_eq, hcolon, hfirst]
  constructor
  · rintro ⟨⟨⟨hhi, hlo⟩, hdigit⟩, hc⟩
    exact ⟨hlo, hhi, hdigit, hc⟩
  · rintro ⟨hlo, hhi, hdigit, hc⟩
    exact ⟨⟨⟨hhi, hlo⟩, hdigit⟩, hc⟩

def Accepts (k : KMem) (s : List UInt8) : Prop := ∃ rootPath k', parsePathAt k s = some (rootPath, k') ∧ rootPath ≠ 0

theorem accepts_iff_valid {k : KMem} {live : List Extent} (h : k.WellFormed live) {s : List UInt8} (hnull : 0 ∉ s)
    (hroom : 2 + (components (s.drop 2)).length ≤ k.heap.freeBlocks) : Accepts k s ↔ pathIsValidFormat s = true := by
  have hused := h.tiling.freeBlocks_le
  constructor
  · rintro ⟨rootPath, k', hparse, hne⟩
    by_contra hvalid
    rw [parsePathAt_null k (Bool.eq_false_iff.mpr hvalid)] at hparse
    cases hparse
    exact hne rfl
  · intro hvalid
    obtain ⟨rootPath, -, k', -, hparse, -, hat⟩ := parsePathAt_served h hnull hvalid (by omega)
    exact ⟨rootPath.address, k', hparse, hat.address⟩

/-- The strings that are accepted are the drive paths, but for those with another byte in the
place of the slash. -/
theorem parsePathAt_accepts_iff {k : KMem} {live : List Extent} (h : k.WellFormed live) (s : List UInt8)
    (hnull : 0 ∉ s) (hroom : 2 + (components (s.drop 2)).length ≤ k.heap.freeBlocks) :
    (Accepts k s ↔ DrivePath s) ↔
      s.length < 3 ∨ zhiosMaxPath < s.length ∨ isDigit (s.getD 0 0) = false ∨ s.getD 1 0 ≠ 0x3A ∨
        s.getD 2 0 = 0x2F := by
  rw [accepts_iff_valid h hnull hroom, pathIsValidFormat_iff]
  constructor
  · intro hiff
    by_contra hnot
    simp only [not_or, Nat.not_lt, Bool.not_eq_false, not_not] at hnot
    obtain ⟨hlo, hhi, hdigit, hc, hslash⟩ := hnot
    exact hslash (hiff.mp ⟨hlo, hhi, hdigit, hc⟩).2.2.2.2
  · intro hcond
    constructor
    · rintro ⟨hlo, hhi, hdigit, hc⟩
      refine ⟨hlo, hhi, hdigit, hc, ?_⟩
      rcases hcond with hlt | hgt | hnot | hnot | hslash
      · omega
      · omega
      · rw [hnot] at hdigit
        exact absurd hdigit (by decide)
      · exact absurd hc hnot
      · exact hslash
    · rintro ⟨hlo, hhi, hdigit, hc, -⟩
      exact ⟨hlo, hhi, hdigit, hc⟩

theorem parsePathAt_accepts_root :
    Accepts ⟨freshKernelHeap, fun _ => 0⟩ [0x30, 0x3A, 0x2F] ↔ DrivePath [0x30, 0x3A, 0x2F] :=
  (parsePathAt_accepts_iff (freshKernelHeap_wellFormed _) [0x30, 0x3A, 0x2F] (by decide)
    (by rw [freshKernelHeap_freeBlocks]; decide)).mpr (by decide)

theorem parsePathAt_accepts_relative :
    ¬ (Accepts ⟨freshKernelHeap, fun _ => 0⟩ [0x30, 0x3A, 0x61] ↔ DrivePath [0x30, 0x3A, 0x61]) := by
  rw [accepts_iff_valid (freshKernelHeap_wellFormed _) (by decide) (by rw [freshKernelHeap_freeBlocks]; decide),
    pathIsValidFormat_iff, DrivePath]
  decide

end Zhios
