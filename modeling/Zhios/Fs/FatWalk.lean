import Zhios.Fs.FileTable

/-! The walk along a path. What a path leads to is said over a tree of directories of any
shape; the driver follows it as long as every component but the last is there. -/
namespace Zhios
open Machine

/-- Directories `D` and files `F`, and what a name leads to in a directory. -/
structure DirectoryTree (D F : Type*) where
  lookup : D → List UInt8 → Option (D ⊕ F)

namespace DirectoryTree
variable {D F : Type*} (t : DirectoryTree D F)

/-- What the components lead to, one after the other. Nothing is inside a file. -/
def follow : D → List (List UInt8) → Option (D ⊕ F)
  | d, [] => some (.inl d)
  | d, name :: rest =>
    match t.lookup d name with
    | none => none
    | some (.inl sub) => follow sub rest
    | some (.inr file) => if rest = [] then some (.inr file) else none

/-- The walk comes to a directory that has no entry for a component, and that component
is not the last. -/
def MissesInside : D → List (List UInt8) → Prop
  | _, [] => False
  | d, name :: rest =>
    match t.lookup d name with
    | none => rest ≠ []
    | some (.inl sub) => MissesInside sub rest
    | some (.inr _) => False

variable (dir : D → Fat16Directory → Prop) (file : F → List UInt8 → Prop)

/-- The item stands for what the tree has there. -/
def Represents : D ⊕ F → Fat16Item → Prop
  | .inl d, .directory _ directory => dir d directory.contents
  | .inr f, .file _ _ entry => file f entry
  | _, _ => False

/-- Each look-up of a component in a single directory is right, along the whole walk. -/
def LookupsRight (v : FatDisk) : D → List PathNode → Fat16Directory → KMem → Prop
  | _, [], _, _ => True
  | d, path :: next, directory, k =>
    match t.lookup d path.name with
    | none => ∃ k', searchDirectory k v directory path.name = some (none, k')
    | some (.inl sub) => ∃ a loaded k', searchDirectory k v directory path.name =
        some (some (.directory a loaded), k') ∧ dir sub loaded.contents ∧ LookupsRight v sub next loaded.contents k'
    | some (.inr f) => ∃ a item entry k', searchDirectory k v directory path.name =
        some (some (.file a item entry), k') ∧ file f entry

/-- The call returns, and what it returns is what the path leads to. -/
def WalkRight (v : FatDisk) (d : D) (path : List PathNode) (directory : Fat16Directory) (k : KMem) : Prop :=
  ∃ item k', findItem v path directory k = some (item, k') ∧
    match t.follow d (path.map PathNode.name) with
    | none => item = none
    | some x => ∃ found, item = some found ∧ Represents dir file x found

end DirectoryTree

section Walk
variable {D F : Type*} {t : DirectoryTree D F} {dir : D → Fat16Directory → Prop} {file : F → List UInt8 → Prop}
  {v : FatDisk} {d : D} {path : PathNode} {next : List PathNode} {directory : Fat16Directory} {k k' : KMem}

theorem findItem_missing (hnone : searchDirectory k v directory path.name = some (none, k')) :
    findItem v (path :: next) directory k = if next = [] then some (none, k') else none := by
  rw [findItem, hnone, Option.bind_some]

theorem findItem_file {a item : ℕ} {entry : List UInt8}
    (hfile : searchDirectory k v directory path.name = some (some (.file a item entry), k')) :
    findItem v (path :: next) directory k =
      if next = [] then some (some (.file a item entry), k') else some (none, k') := by
  rw [findItem, hfile, Option.bind_some]

theorem findItem_directory {a : ℕ} {loaded : OpenDirectory}
    (hdir : searchDirectory k v directory path.name = some (some (.directory a loaded), k')) :
    findItem v (path :: next) directory k =
      if next = [] then some (some (.directory a loaded), k') else findItem v next loaded.contents k' := by
  rw [findItem, hdir, Option.bind_some]

/-- For every tree and every path: with right look-ups the walk finds what the path leads
to, and nothing where it leads nowhere, exactly when no component but the last is missing.
A missing one before it is gone through as a null pointer. -/
theorem findItem_follows_iff {D F : Type*} (t : DirectoryTree D F) (dir : D → Fat16Directory → Prop)
    (file : F → List UInt8 → Prop) (v : FatDisk) (d : D) (path : List PathNode) (directory : Fat16Directory)
    (k : KMem) (hpath : path ≠ []) (h : t.LookupsRight dir file v d path directory k) :
    t.WalkRight dir file v d path directory k ↔ ¬ t.MissesInside d (path.map PathNode.name) := by
  induction path generalizing d directory k with
  | nil => exact absurd rfl hpath
  | cons path next ih =>
    unfold DirectoryTree.LookupsRight at h
    unfold DirectoryTree.WalkRight DirectoryTree.MissesInside DirectoryTree.follow
    simp only [List.map_cons, ne_eq, List.map_eq_nil_iff]
    rcases hlookup : t.lookup d path.name with _ | sub | f
    · simp only [hlookup] at h ⊢
      obtain ⟨k', hnone⟩ := h
      rw [findItem_missing hnone, not_not]
      split_ifs with hlast
      · exact iff_of_true ⟨none, k', rfl, rfl⟩ hlast
      · exact iff_of_false (by simp) hlast
    · simp only [hlookup] at h ⊢
      obtain ⟨a, loaded, k', hdir, hsub, hrest⟩ := h
      rw [findItem_directory hdir]
      cases next with
      | nil =>
        simp only [if_true, List.map_nil, DirectoryTree.follow, DirectoryTree.MissesInside, not_false_eq_true, iff_true]
        exact ⟨_, k', rfl, _, rfl, hsub⟩
      | cons second rest =>
        rw [if_neg (List.cons_ne_nil second rest)]
        exact ih sub loaded.contents k' (List.cons_ne_nil second rest) hrest
    · simp only [hlookup] at h ⊢
      obtain ⟨a, item, entry, k', hfile, hentry⟩ := h
      rw [findItem_file hfile, iff_true_right not_false]
      split_ifs with hlast
      · exact ⟨_, k', rfl, _, rfl, hentry⟩
      · exact ⟨none, k', rfl, rfl⟩

end Walk

theorem searchDirectory_none {k : KMem} {v : FatDisk} {directory : Fat16Directory} {name : List UInt8}
    (hnone : findItemInDirectory directory name = some none) : searchDirectory k v directory name = some (none, k) := by
  rw [searchDirectory, hnone]

theorem searchDirectory_file {k : KMem} {v : FatDisk} {directory : Fat16Directory} {name : List UInt8} {i : ℕ}
    (hfound : findItemInDirectory directory name = some (some i))
    (hfile : ¬ (directoryEntry directory i).getD 11 0 &&& attrDirectory ≠ 0)
    (hserved : (kzalloc k sizeofFat16Item).1 ≠ 0) :
    ∃ a item k', searchDirectory k v directory name = some (some (.file a item (directoryEntry directory i)), k') := by
  simp only [searchDirectory, hfound, newFat16Item, if_neg hserved, if_neg hfile]
  exact ⟨_, _, _, rfl⟩

def oneFileTree : DirectoryTree Unit (List UInt8) :=
  ⟨fun _ name => if name = [0x41] then some (.inr (directoryEntry oneFileDisk.fsPrivate.rootDirectory 0)) else none⟩

def twoComponents (first second : List UInt8) : List PathNode := [⟨0, 0, first⟩, ⟨0, 0, second⟩]

theorem oneFileTree_right (first second : List UInt8) (h : first = [0x41] ∨ findItemInDirectory
    oneFileDisk.fsPrivate.rootDirectory first = some none ∧ first ≠ [0x41]) :
    oneFileTree.LookupsRight (fun _ _ => True) (fun f entry => entry = f) oneFileDisk ()
      (twoComponents first second) oneFileDisk.fsPrivate.rootDirectory ⟨freshKernelHeap, fun _ => 0⟩ := by
  unfold twoComponents DirectoryTree.LookupsRight oneFileTree
  rcases h with rfl | ⟨hnone, hne⟩
  · have hserved := (kzalloc_served (freshKernelHeap_wellFormed fun _ => 0) sizeofFat16Item (by decide) (by decide)
      (by simp [Layout.used])).1
    obtain ⟨a, item, k', hsearch⟩ := searchDirectory_file (v := oneFileDisk) oneFile_found (by decide) hserved
    exact ⟨a, item, _, k', hsearch, rfl⟩
  · simp only [if_neg hne]
    exact ⟨_, searchDirectory_none hnone⟩

/-- Nothing is found behind a file, and the walk says so. -/
theorem findItem_behind_file : ∃ k', findItem oneFileDisk (twoComponents [0x41] [0x42])
    oneFileDisk.fsPrivate.rootDirectory ⟨freshKernelHeap, fun _ => 0⟩ = some (none, k') := by
  obtain ⟨item, k', hwalk, hnone⟩ := (findItem_follows_iff oneFileTree (fun _ _ => True) (fun f entry => entry = f)
    oneFileDisk () (twoComponents [0x41] [0x42]) oneFileDisk.fsPrivate.rootDirectory ⟨freshKernelHeap, fun _ => 0⟩
    (by simp [twoComponents]) (oneFileTree_right _ _ (Or.inl rfl))).mpr
      (by simp [twoComponents, DirectoryTree.MissesInside, oneFileTree])
  simp only [twoComponents, oneFileTree, List.map_cons, DirectoryTree.follow, if_true] at hnone
  rw [hwalk, show item = none by simpa using hnone]
  exact ⟨k', rfl⟩

/-- On the way to `B/C` the missing `B` is gone through. -/
theorem findItem_through_null :
    oneFileTree.LookupsRight (fun _ _ => True) (fun f entry => entry = f) oneFileDisk ()
        (twoComponents [0x42] [0x43]) oneFileDisk.fsPrivate.rootDirectory ⟨freshKernelHeap, fun _ => 0⟩ ∧
      oneFileTree.follow () [[0x42], [0x43]] = none ∧
      findItem oneFileDisk (twoComponents [0x42] [0x43]) oneFileDisk.fsPrivate.rootDirectory
        ⟨freshKernelHeap, fun _ => 0⟩ = none := by
  have hnone : findItemInDirectory oneFileDisk.fsPrivate.rootDirectory [0x42] = some none := by decide +kernel
  refine ⟨oneFileTree_right _ _ (Or.inr ⟨hnone, by decide⟩), rfl, ?_⟩
  have hsearch : searchDirectory ⟨freshKernelHeap, fun _ => 0⟩ oneFileDisk oneFileDisk.fsPrivate.rootDirectory
      (PathNode.mk 0 0 [0x42]).name = some (none, ⟨freshKernelHeap, fun _ => 0⟩) := searchDirectory_none hnone
  exact (findItem_missing hsearch).trans (if_neg (List.cons_ne_nil _ _))

end Zhios
