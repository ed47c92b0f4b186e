import Zhios.Fs.FileOpen
import Zhios.Fs.FatMatch
import Zhios.Memory.HeapPinned

/-! The table of file descriptors over runs of `fopen` and `fclose`, and what such a
pair leaves allocated. -/
namespace Zhios
open Machine

theorem getSubpath_keeps {k k' : KMem} {address : ℕ} {segment : List UInt8} {node : PathNode}
    (h : k.Coherent) (hget : getSubpath k address segment = some (node, k')) : k.Keeps k' := by
  simp only [getSubpath] at hget
  split_ifs at hget
  cases hget
  exact (KMem.Keeps.refl h).kzalloc _

theorem createPathLoop_keeps {paths : ℕ} {rest segment : List UInt8} {count : ℕ} {k k' : KMem}
    {nodes : List PathNode} (h : k.Coherent)
    (hloop : createPathLoop paths rest segment count k = some (nodes, k')) : k.Keeps k' := by
  induction rest generalizing segment count k k' nodes with
  | nil =>
    simp only [createPathLoop] at hloop
    split_ifs at hloop
    · cases hloop
      exact .refl h
    · obtain ⟨⟨node, t⟩, hget, heq⟩ := Option.map_eq_some_iff.mp hloop
      cases heq
      exact getSubpath_keeps h hget
  | cons c rest ih =>
    simp only [createPathLoop] at hloop
    split_ifs at hloop
    · exact ih h hloop
    · exact ih h hloop
    · obtain ⟨⟨node, t⟩, hget, hmap⟩ := Option.bind_eq_some_iff.mp hloop
      obtain ⟨⟨nodes', t'⟩, hrest, heq⟩ := Option.map_eq_some_iff.mp hmap
      cases heq
      have hkeeps := getSubpath_keeps h hget
      exact hkeeps.trans (ih hkeeps.coherent hrest)

theorem createPath_keeps {path : List UInt8} {k k' : KMem} {nodes : List PathNode} (h : k.Coherent)
    (hcreate : createPath k path = some (nodes, k')) : k.Keeps k' := by
  have hkeeps := (KMem.Keeps.refl h).kzalloc (sizeofPath * getPathDepth path)
  simp only [createPath] at hcreate
  split_ifs at hcreate
  · obtain ⟨⟨nodes', t⟩, hloop, hsome⟩ := Option.bind_eq_some_iff.mp hcreate
    split_ifs at hsome
    cases hsome
    exact hkeeps.trans (createPathLoop_keeps hkeeps.coherent hloop)
  · exact hkeeps.trans (createPathLoop_keeps hkeeps.coherent hcreate)

theorem parsePath_fresh {path : List UInt8} {k k' : KMem} {rootPath : RootPath} (h : k.Coherent)
    (hparse : parsePath k path = some (some rootPath, k')) :
    k.Fresh k' [rootPath.address] ∧
      ∃ b : ℕ, rootPath.address = k.blockAddress b ∧ b < k.heap.total ∧ k.heap.FreeAt b := by
  simp only [parsePath] at hparse
  split_ifs at hparse with hvalid hnull
  · cases hparse
  obtain ⟨⟨nodes, t⟩, hcreate, heq⟩ := Option.map_eq_some_iff.mp hparse
  cases heq
  have hfresh := (KMem.Fresh.nil (.refl h)).kzalloc sizeofRootPath (by decide) (by decide) hnull
  refine ⟨hfresh.trans (createPath_keeps hfresh.keeps.coherent hcreate), ?_⟩
  rcases h.kzalloc_cases sizeofRootPath with ⟨hzero, -⟩ | ⟨s, n, hptr, hmarked, -⟩
  · exact absurd hzero hnull
  · exact ⟨s, hptr, hmarked.start_lt, hmarked.start_free⟩

theorem countEntriesAlloc_keeps {k k' : KMem} {d : Disk} {startSector : ℤ} {total : ℕ} (h : k.Coherent)
    (hcount : countEntriesAlloc k d startSector = some (total, k')) : k.Keeps k' := by
  simp only [countEntriesAlloc] at hcount
  split_ifs at hcount with hnull
  obtain ⟨n, -, heq⟩ := Option.map_eq_some_iff.mp hcount
  cases heq
  have hkeeps := KMem.Keeps.refl h
  exact (hkeeps.kzalloc _).kfree (h.boundary_kzalloc hnull) (hkeeps.not_held _)

/-- Loading a directory releases nothing but, where it is empty, what was allocated
for it. -/
theorem loadDirectoryAlloc_keeps {k k' : KMem} {v : FatDisk} {cluster : ℤ} {d : OpenDirectory}
    (h : k.Coherent) (hload : loadDirectoryAlloc k v cluster = some (d, k')) : k.Keeps k' := by
  have hkeeps := KMem.Keeps.refl h
  have hfirst := hkeeps.kzalloc sizeofFat16Directory
  simp only [loadDirectoryAlloc] at hload
  split_ifs at hload with hnull
  obtain ⟨⟨total, t⟩, hcount, hrest⟩ := Option.bind_eq_some_iff.mp hload
  have hcounted := countEntriesAlloc_keeps hfirst.coherent hcount
  have hbuffer := (hfirst.trans hcounted).kzalloc (total * fat16EntrySize)
  split_ifs at hrest with hnone hempty
  · cases hrest
    exact hbuffer
  · obtain ⟨directory, -, heq⟩ := Option.map_eq_some_iff.mp hrest
    cases heq
    -- the buffer may be no allocation at all, since the directory has no entries
    have hheld := hcounted.held _ (h.held_kzalloc (by decide) (by decide) hnull)
    have hboundary := hcounted.coherent.boundary_kzalloc hnone
    have hne := hheld.ne_kzalloc hcounted.coherent (total * fat16EntrySize)
    have hfreed := hbuffer.kfree hboundary ((hfirst.trans hcounted).not_held _)
    refine hfreed.kfree (KMem.Held.boundary ?_) (hkeeps.not_held _)
    exact (hheld.kzalloc hcounted.coherent _).kfree hbuffer.coherent hboundary hne
  · obtain ⟨directory, -, heq⟩ := Option.map_eq_some_iff.mp hrest
    cases heq
    exact hbuffer

/-- What a search leaves: everything held before, and for a file the item and the
copy of its entry. -/
structure ItemFound (k k' : KMem) (item : Option Fat16Item) : Prop where
  keeps : k.Keeps k'
  fresh : ∀ a c entry, item = some (.file a c entry) → c ≠ 0 → k.Fresh k' [c, a]

theorem newFat16Item_found {k k' : KMem} {v : FatDisk} {entry : List UInt8} {item : Option Fat16Item}
    (h : k.Coherent) (hnew : newFat16Item k v entry = some (item, k')) : ItemFound k k' item := by
  have hkeeps := (KMem.Keeps.refl h).kzalloc sizeofFat16Item
  simp only [newFat16Item] at hnew
  split_ifs at hnew with hnull hdir
  · cases hnew
    exact ⟨hkeeps, by simp⟩
  · obtain ⟨⟨d, t⟩, hload, heq⟩ := Option.map_eq_some_iff.mp hnew
    cases heq
    exact ⟨hkeeps.trans (loadDirectoryAlloc_keeps hkeeps.coherent hload), by simp⟩
  · cases hnew
    constructor
    · exact hkeeps.kzalloc _
    · intro a c entry' heq hc
      cases heq
      have hitem := (KMem.Fresh.nil (.refl h)).kzalloc sizeofFat16Item (by decide) (by decide) hnull
      exact hitem.kzalloc _ (by decide) (by decide) hc

theorem searchDirectory_found {k k' : KMem} {v : FatDisk} {directory : Fat16Directory} {name : List UInt8}
    {item : Option Fat16Item} (h : k.Coherent)
    (hsearch : searchDirectory k v directory name = some (item, k')) : ItemFound k k' item := by
  rw [searchDirectory] at hsearch
  split at hsearch
  · cases hsearch
  · cases hsearch
    exact ⟨.refl h, by simp⟩
  · exact newFat16Item_found h hsearch

theorem findItem_found {v : FatDisk} {path : List PathNode} {directory : Fat16Directory} {k k' : KMem}
    {item : Option Fat16Item} (h : k.Coherent) (hfind : findItem v path directory k = some (item, k')) :
    ItemFound k k' item := by
  induction path generalizing directory k k' item with
  | nil => simp [findItem] at hfind
  | cons node next ih =>
    simp only [findItem] at hfind
    obtain ⟨⟨found, t⟩, hsearch, hrest⟩ := Option.bind_eq_some_iff.mp hfind
    have hfound := searchDirectory_found h hsearch
    split_ifs at hrest with hlast
    · cases hrest
      exact hfound
    · cases found with
      | none => simp at hrest
      | some found =>
        cases found with
        | file a c entry =>
          cases hrest
          exact ⟨hfound.keeps, by simp⟩
        | directory a d =>
          have hinner := ih hfound.keeps.coherent hrest
          constructor
          · exact hfound.keeps.trans hinner.keeps
          · intro a' c entry heq hc
            exact (KMem.Fresh.nil hfound.keeps).append (hinner.fresh a' c entry heq hc)

/-- A descriptor for a file holds three blocks: its own, the item and the copy. -/
theorem fat16Open_fresh {k k' : KMem} {v : FatDisk} {path : List PathNode} {mode : FileMode}
    {d : Fat16Descriptor} {a c : ℕ} {entry : List UInt8} (h : k.Coherent)
    (hopen : fat16Open k v path mode = some (some d, k')) (hitem : d.item = .file a c entry) (hc : c ≠ 0) :
    k.Fresh k' [c, a, d.address] := by
  simp only [fat16Open] at hopen
  split_ifs at hopen with hmode hnull
  · cases hopen
  · cases hopen
  · obtain ⟨⟨item, t⟩, hget, heq⟩ := Option.bind_eq_some_iff.mp hopen
    have hfirst := (KMem.Fresh.nil (.refl h)).kzalloc sizeofFat16Descriptor (by decide) (by decide) hnull
    have hfound := findItem_found hfirst.keeps.coherent hget
    cases item with
    | none => cases heq
    | some item =>
      simp only at heq
      split_ifs at heq
      cases heq
      exact hfirst.append (hfound.fresh a c entry (congrArg some hitem) hc)

/-- A call of `fopen` that finds a file and for which every allocation is served:
the driver's descriptor, and the heap before the slot is filled. -/
structure OpensFile (s : FileState) (filename mode : List UInt8) (d : Fat16Descriptor) (k' : KMem) : Prop where
  found : ∃ path k v, parsePath s.kmem filename = some (some path, k) ∧ path.driveNumber = 0 ∧
    s.volume = some v ∧ fat16Open k v path.root (getFileModeFromString mode) = some (some d, k')
  file : ∃ a c entry, d.item = .file a c entry ∧ c ≠ 0
  served : (kzalloc k' sizeofFileDescriptor).1 ≠ 0

section
variable {s : FileState} {filename mode : List UInt8} {i : ℕ} {d : Fat16Descriptor} {k' : KMem}

theorem OpensFile.fopen_eq (h : OpensFile s filename mode d k') (stale : ℕ) :
    fopen s filename mode stale =
      (newFileDescriptor { s with kmem := k' } (some d)).map fun f => (f.1.getD 0, f.2) := by
  obtain ⟨path, k, v, hparse, hdrive, hv, hopen⟩ := h.found
  have hread := fat16Open_mode hopen
  have hroot : path.root ≠ [] := by
    intro hnil
    rw [hnil, hread] at hopen
    simp only [fat16Open, getFat16DirectoryItem, findItem] at hopen
    split_ifs at hopen
    · exact absurd rfl ‹_›
    · cases hopen
    · cases hopen
  rw [fopen_asked hparse hroot (by simp [hread]) hdrive hv, hopen]
  rfl

def FileState.opened (s : FileState) (i : ℕ) (d : Fat16Descriptor) (k' : KMem) : FileState :=
  { s with
    kmem := (kzalloc k' sizeofFileDescriptor).2
    fileDescriptors := Function.update s.fileDescriptors i
      (some ⟨(kzalloc k' sizeofFileDescriptor).1, i + 1, some d⟩) }

theorem FileState.opened_slot (s : FileState) (i j : ℕ) (d : Fat16Descriptor) (k' : KMem) :
    (s.opened i d k').fileDescriptors j =
      if j = i then some ⟨(kzalloc k' sizeofFileDescriptor).1, i + 1, some d⟩ else s.fileDescriptors j :=
  Function.update_apply ..

theorem OpensFile.fopen_slot (h : OpensFile s filename mode d k') (hslot : freeSlot s = some i) (stale : ℕ) :
    fopen s filename mode stale = some ((i : ℤ) + 1, s.opened i d k') := by
  have hslot' : freeSlot { s with kmem := k' } = some i := hslot
  rw [h.fopen_eq, newFileDescriptor]
  simp only [hslot', if_neg h.served]
  rfl

def FileState.refused (s : FileState) (k' : KMem) : FileState :=
  { s with kmem := kfree (kzalloc k' sizeofFileDescriptor).2 (kzalloc k' sizeofFileDescriptor).1 }

theorem OpensFile.fopen_full (h : OpensFile s filename mode d k') (hfull : freeSlot s = none) (stale : ℕ) :
    fopen s filename mode stale = some (0, s.refused k') := by
  have hfull' : freeSlot { s with kmem := k' } = none := hfull
  rw [h.fopen_eq, newFileDescriptor]
  simp only [hfull']
  rfl

end

/-- The blocks behind a descriptor: those `fclose` releases, and the driver's own. -/
def FileDescriptor.blocks (desc : FileDescriptor) : List ℕ :=
  match desc.privateData with
  | none => [desc.address]
  | some d => match d.item with
    | .directory _ _ => [desc.address]
    | .file a c _ => [desc.address, c, a, d.address]

def FileDescriptor.IsFile (desc : FileDescriptor) : Prop :=
  ∃ d a c entry, desc.privateData = some d ∧ d.item = .file a c entry

/-- Every slot in use has the id that leads to it, and the blocks of all descriptors
are different live allocations. -/
structure FileState.Table (s : FileState) : Prop where
  coherent : s.kmem.Coherent
  inside : ∀ i, s.fileDescriptors i ≠ none → i < zhiosMaxFileDescriptors
  id : ∀ i desc, s.fileDescriptors i = some desc → desc.id = i + 1
  isFile : ∀ i desc, s.fileDescriptors i = some desc → desc.IsFile
  held : ∀ i desc, s.fileDescriptors i = some desc → ∀ p ∈ desc.blocks, s.kmem.Held p
  nodup : ∀ i desc, s.fileDescriptors i = some desc → desc.blocks.Nodup
  disjoint : ∀ i j desc desc', i ≠ j → s.fileDescriptors i = some desc → s.fileDescriptors j = some desc' →
    ∀ p ∈ desc.blocks, p ∉ desc'.blocks

namespace FileState.Table
variable {s : FileState} {filename mode : List UInt8} {i : ℕ} {d : Fat16Descriptor} {k' : KMem}

theorem empty (h : s.kmem.Coherent) (hempty : ∀ i, s.fileDescriptors i = none) : s.Table := by
  constructor <;> simp_all

theorem keeps {k : KMem} (h : s.Table) (hk : s.kmem.Keeps k) : FileState.Table { s with kmem := k } :=
  ⟨hk.coherent, h.inside, h.id, h.isFile, fun i desc hi p hp => hk.held p (h.held i desc hi p hp),
    h.nodup, h.disjoint⟩

theorem opensFile_fresh (h : s.kmem.Coherent) (hopens : OpensFile s filename mode d k') :
    s.kmem.Fresh (kzalloc k' sizeofFileDescriptor).2
      (FileDescriptor.blocks ⟨(kzalloc k' sizeofFileDescriptor).1, i + 1, some d⟩) := by
  obtain ⟨path, k, v, hparse, -, -, hopen⟩ := hopens.found
  obtain ⟨a, c, entry, hitem, hc⟩ := hopens.file
  have hpath := (parsePath_fresh h hparse).1.keeps
  have hfound := (KMem.Fresh.nil hpath).append (fat16Open_fresh hpath.coherent hopen hitem hc)
  have hdesc := hfound.kzalloc sizeofFileDescriptor (by decide) (by decide) hopens.served
  simpa only [FileDescriptor.blocks, hitem, List.append_nil] using hdesc

theorem opened (h : s.Table) (hopens : OpensFile s filename mode d k') (hslot : freeSlot s = some i) :
    (s.opened i d k').Table := by
  have hfresh := opensFile_fresh (i := i) h.coherent hopens
  obtain ⟨-, hlt, -, -⟩ := (findSlot_eq_some_iff _ _ _ _).mp hslot
  have hold := h.keeps hfresh.keeps
  set desc : FileDescriptor := ⟨(kzalloc k' sizeofFileDescriptor).1, i + 1, some d⟩ with hdesc
  have hcases : ∀ j e, (s.opened i d k').fileDescriptors j = some e →
      j = i ∧ e = desc ∨ j ≠ i ∧ s.fileDescriptors j = some e := by
    intro j e hj
    rw [FileState.opened_slot] at hj
    split_ifs at hj with heq
    · exact Or.inl ⟨heq, (Option.some.inj hj).symm⟩
    · exact Or.inr ⟨heq, hj⟩
  -- nothing that was held before is among the new blocks
  have hnew : ∀ j e, s.fileDescriptors j = some e → ∀ p ∈ e.blocks, p ∉ desc.blocks :=
    fun j e hj p hp hmem => hfresh.fresh p hmem (h.held j e hj p hp)
  constructor
  · exact hfresh.keeps.coherent
  · intro j hj
    obtain ⟨e, he⟩ := Option.ne_none_iff_exists'.mp hj
    rcases hcases j e he with ⟨rfl, -⟩ | ⟨-, hj'⟩
    · omega
    · exact h.inside j (by simp [hj'])
  · intro j e hj
    rcases hcases j e hj with ⟨rfl, rfl⟩ | ⟨-, hj'⟩
    · rfl
    · exact h.id j e hj'
  · intro j e hj
    rcases hcases j e hj with ⟨rfl, rfl⟩ | ⟨-, hj'⟩
    · obtain ⟨a, c, entry, hitem, -⟩ := hopens.file
      exact ⟨d, a, c, entry, rfl, hitem⟩
    · exact h.isFile j e hj'
  · intro j e hj
    rcases hcases j e hj with ⟨rfl, rfl⟩ | ⟨-, hj'⟩
    · exact hfresh.held
    · exact hold.held j e hj'
  · intro j e hj
    rcases hcases j e hj with ⟨rfl, rfl⟩ | ⟨-, hj'⟩
    · exact hfresh.nodup
    · exact h.nodup j e hj'
  · intro j l e e' hne hj hl
    rcases hcases j e hj with ⟨rfl, rfl⟩ | ⟨-, hj'⟩
    · rcases hcases l e' hl with ⟨rfl, -⟩ | ⟨-, hl'⟩
      · exact absurd rfl hne
      · exact fun p hp hp' => hnew l e' hl' p hp' hp
    · rcases hcases l e' hl with ⟨rfl, rfl⟩ | ⟨-, hl'⟩
      · exact hnew j e hj'
      · exact h.disjoint j l e e' hne hj' hl'

end FileState.Table

def FileState.Live (s : FileState) (id : ℤ) (desc : FileDescriptor) : Prop :=
  1 ≤ id ∧ id ≤ zhiosMaxFileDescriptors ∧ s.fileDescriptors (id - 1).toNat = some desc

theorem getFileDescriptor_live {s : FileState} {id : ℤ} {desc : FileDescriptor} (hlive : s.Live id desc) :
    getFileDescriptor s id = some (some desc) := by
  obtain ⟨hlo, hhi, hslot⟩ := hlive
  rw [getFileDescriptor, if_neg (by omega), if_neg (by omega), hslot]

theorem openFile_live {s : FileState} {id : ℤ} {desc : FileDescriptor} {d : Fat16Descriptor}
    (hlive : s.Live id desc) (hd : desc.privateData = some d) : openFile s id = some (desc, d) := by
  simp [openFile, getFileDescriptor_live hlive, hd]

theorem fclose_live {s : FileState} {id : ℤ} {desc : FileDescriptor} {d : Fat16Descriptor} {a c : ℕ}
    {entry : List UInt8} (hlive : s.Live id desc) (hid : desc.id = id) (hd : desc.privateData = some d)
    (hitem : d.item = .file a c entry) :
    fclose s id = some { s with
      kmem := [c, a, desc.address].foldl kfree s.kmem
      fileDescriptors := Function.update s.fileDescriptors (id - 1).toNat none } := by
  simp [fclose, openFile_live hlive hd, freeFileDescriptor, fat16Close, hitem, hid]

theorem FileState.Table.live_id {s : FileState} (h : s.Table) {id : ℤ} {desc : FileDescriptor}
    (hlive : s.Live id desc) : desc.id = id := by
  have heq := h.id _ _ hlive.2.2
  have hlo := hlive.1
  omega

theorem FileState.Table.fclose {s : FileState} (h : s.Table) {id : ℤ} {desc : FileDescriptor}
    (hlive : s.Live id desc) :
    ∃ s', Zhios.fclose s id = some s' ∧ s'.Table ∧
      s'.fileDescriptors = Function.update s.fileDescriptors (id - 1).toNat none := by
  have hslot := hlive.2.2
  obtain ⟨d, a, c, entry, hd, hitem⟩ := h.isFile _ _ hslot
  have hblocks : desc.blocks = [desc.address, c, a, d.address] := by
    simp [FileDescriptor.blocks, hd, hitem]
  have hnodup := h.nodup _ _ hslot
  rw [hblocks] at hnodup
  have hfreed : ∀ p ∈ [c, a, desc.address], p ∈ desc.blocks := by
    rw [hblocks]
    simp
  have hperm : [c, a, desc.address].Nodup := by
    simp only [List.nodup_cons, List.mem_cons, List.not_mem_nil, or_false, not_or] at hnodup ⊢
    exact ⟨⟨hnodup.2.1.1, Ne.symm hnodup.1.1⟩, Ne.symm hnodup.1.2.1, not_false, List.nodup_nil⟩
  obtain ⟨hcoherent, -, hkept⟩ := h.coherent.kfree_all _ hperm fun p hp => h.held _ _ hslot p (hfreed p hp)
  refine ⟨_, fclose_live hlive (h.live_id hlive) hd hitem, ?_, rfl⟩
  have hother : ∀ j e, Function.update s.fileDescriptors (id - 1).toNat none j = some e →
      j ≠ (id - 1).toNat ∧ s.fileDescriptors j = some e := by
    intro j e hj
    rcases eq_or_ne j (id - 1).toNat with rfl | hne
    · simp at hj
    · exact ⟨hne, by rwa [Function.update_of_ne hne] at hj⟩
  constructor
  · exact hcoherent
  · intro j hj
    obtain ⟨e, he⟩ := Option.ne_none_iff_exists'.mp hj
    exact h.inside j (by simp [(hother j e he).2])
  · exact fun j e hj => h.id j e (hother j e hj).2
  · exact fun j e hj => h.isFile j e (hother j e hj).2
  · intro j e hj p hp
    obtain ⟨hne, hj⟩ := hother j e hj
    exact hkept p (h.held j e hj p hp) fun hmem => h.disjoint _ _ _ _ hne hj hslot p hp (hfreed p hmem)
  · exact fun j e hj => h.nodup j e (hother j e hj).2
  · exact fun j l e e' hne hj hl => h.disjoint j l e e' hne (hother j e hj).2 (hother l e' hl).2

inductive FileOp
  | open (filename mode : List UInt8) (stale : ℕ)
  | close (id : ℤ)

namespace FileState

def exec (s : FileState) : FileOp → Option FileState
  | .open filename mode stale => (fopen s filename mode stale).map (·.2)
  | .close id => Zhios.fclose s id

/-- Existing files are opened, with memory for it, and live ids are closed. -/
def Permits (s : FileState) : FileOp → Prop
  | .open filename mode _ => ∃ d k', OpensFile s filename mode d k'
  | .close id => ∃ desc, s.Live id desc

/-- What `fopen` does on a file that exists: the first free slot is filled and no
other changes, and a full table is left alone. -/
def OpensFirst (s : FileState) : Prop :=
  ∀ filename mode stale d k', OpensFile s filename mode d k' →
    (∀ i, IsLeast {i | i < zhiosMaxFileDescriptors ∧ s.fileDescriptors i = none} i →
      ∃ s' desc, fopen s filename mode stale = some ((i : ℤ) + 1, s') ∧ desc.privateData = some d ∧
        s'.fileDescriptors = Function.update s.fileDescriptors i (some desc)) ∧
    ((∀ i < zhiosMaxFileDescriptors, s.fileDescriptors i ≠ none) →
      ∃ res s', fopen s filename mode stale = some (res, s') ∧ res ≤ 0 ∧
        s'.fileDescriptors = s.fileDescriptors)

theorem freeSlot_of_isLeast {s : FileState} {i : ℕ}
    (h : IsLeast {i | i < zhiosMaxFileDescriptors ∧ s.fileDescriptors i = none} i) : freeSlot s = some i := by
  obtain ⟨⟨hlt, hnone⟩, hmin⟩ := h
  apply (findSlot_eq_some_iff _ _ _ _).mpr
  refine ⟨by omega, by omega, by simp [hnone], fun j _ hj => ?_⟩
  by_contra hfree
  have hle : i ≤ j := hmin ⟨by omega, by simpa using hfree⟩
  omega

theorem opensFirst (s : FileState) : s.OpensFirst := by
  intro filename mode stale d k' hopens
  constructor
  · intro i hi
    exact ⟨_, _, hopens.fopen_slot (freeSlot_of_isLeast hi) stale, rfl, rfl⟩
  · intro hfull
    have hnone : freeSlot s = none := by
      rw [freeSlot_eq_none_iff]
      intro hfree
      obtain ⟨i, hi, hslot⟩ := hfree
      exact hfull i hi hslot
    exact ⟨0, _, hopens.fopen_full hnone stale, le_rfl, rfl⟩

/-- One call keeps the table, and every slot but the one it opens or closes. -/
theorem Table.exec {s : FileState} (h : s.Table) {op : FileOp} (hpermits : s.Permits op) :
    ∃ s', s.exec op = some s' ∧ s'.Table ∧
      ∀ id desc, s.Live id desc → op ≠ .close id → s'.Live id desc := by
  cases op with
  | «open» filename mode stale =>
    obtain ⟨d, k', hopens⟩ := hpermits
    cases hslot : freeSlot s with
    | none =>
      have hcall := hopens.fopen_full hslot stale
      refine ⟨s.refused k', by simp only [FileState.exec, hcall, Option.map_some], ?_, fun id desc hlive _ => hlive⟩
      have hfresh := Table.opensFile_fresh (i := 0) h.coherent hopens
      have hhead : (kzalloc k' sizeofFileDescriptor).1 ∈
          FileDescriptor.blocks ⟨(kzalloc k' sizeofFileDescriptor).1, (0 : ℕ) + 1, some d⟩ := by
        obtain ⟨a, c, entry, hitem, -⟩ := hopens.file
        simp [FileDescriptor.blocks, hitem]
      exact h.keeps (hfresh.keeps.kfree (hfresh.held _ hhead).boundary (hfresh.fresh _ hhead))
    | some i =>
      have hcall := hopens.fopen_slot hslot stale
      refine ⟨_, by simp only [FileState.exec, hcall, Option.map_some], h.opened hopens hslot,
        fun id desc hlive _ => ⟨hlive.1, hlive.2.1, ?_⟩⟩
      obtain ⟨-, -, hfree, -⟩ := (findSlot_eq_some_iff _ _ _ _).mp hslot
      have hne : (id - 1).toNat ≠ i := by
        rintro rfl
        rw [hlive.2.2] at hfree
        cases hfree
      rw [FileState.opened_slot, if_neg hne]
      exact hlive.2.2
  | close id =>
    obtain ⟨desc, hlive⟩ := hpermits
    obtain ⟨s', hclose, htable, hslots⟩ := h.fclose hlive
    refine ⟨s', hclose, htable, fun id' desc' hlive' hne => ⟨hlive'.1, hlive'.2.1, ?_⟩⟩
    have hid : id' ≠ id := fun heq => hne (by rw [heq])
    have hlo := hlive.1
    have hlo' := hlive'.1
    rw [hslots, Function.update_of_ne (by omega)]
    exact hlive'.2.2

end FileState

/-- Calls that may be made one after the other. -/
inductive FileRun : FileState → List FileOp → FileState → Prop
  | nil (s : FileState) : FileRun s [] s
  | cons {s s' s'' : FileState} {op : FileOp} {ops : List FileOp} (hpermits : s.Permits op)
      (hexec : s.exec op = some s') (hrest : FileRun s' ops s'') : FileRun s (op :: ops) s''

/-- Over a run the table stays well formed, and an id that is not closed keeps its
descriptor. -/
theorem FileRun.table {s s' : FileState} {ops : List FileOp} (hrun : FileRun s ops s') (h : s.Table) :
    s'.Table ∧ ∀ id desc, s.Live id desc → .close id ∉ ops → s'.Live id desc := by
  induction hrun with
  | nil s => exact ⟨h, fun _ _ hlive _ => hlive⟩
  | cons hpermits hexec _ ih =>
    obtain ⟨t, ht, htable, hkept⟩ := h.exec hpermits
    rw [hexec] at ht
    cases ht
    obtain ⟨hlast, hrest⟩ := ih htable
    refine ⟨hlast, fun id desc hlive hnot => ?_⟩
    rw [List.mem_cons, not_or] at hnot
    exact hrest id desc (hkept id desc hlive fun heq => hnot.1 heq.symm) hnot.2

/-- In every state reached from an empty table: ids and slots agree, descriptors are
different live allocations, `fopen` takes the smallest free id, every live id can be
closed and gives up only its own slot, and until then it keeps its descriptor. -/
theorem fileDescriptors_run (s : FileState) (hheap : s.kmem.Coherent)
    (hempty : ∀ i, s.fileDescriptors i = none) (ops : List FileOp) (s' : FileState)
    (hrun : FileRun s ops s') :
    (∀ i desc, s'.fileDescriptors i = some desc → desc.id = i + 1 ∧
      (∀ p ∈ desc.blocks, s'.kmem.Held p) ∧
      ∀ j desc', j ≠ i → s'.fileDescriptors j = some desc' → desc'.address ≠ desc.address) ∧
    s'.OpensFirst ∧
    (∀ id desc, s'.Live id desc → ∃ s'', fclose s' id = some s'' ∧
      s''.fileDescriptors = Function.update s'.fileDescriptors (id - 1).toNat none) ∧
    ∀ more s'', FileRun s' more s'' → ∀ id desc, s'.Live id desc → .close id ∉ more → s''.Live id desc := by
  obtain ⟨htable, -⟩ := hrun.table (.empty hheap hempty)
  refine ⟨fun i desc hi => ⟨htable.id i desc hi, htable.held i desc hi, fun j desc' hne hj heq => ?_⟩,
    s'.opensFirst, fun id desc hlive => ?_, fun more s'' hmore => (hmore.table htable).2⟩
  · have hmem : ∀ e : FileDescriptor, e.address ∈ e.blocks := by
      intro e
      unfold FileDescriptor.blocks
      split
      · simp
      · split <;> simp
    exact htable.disjoint j i desc' desc hne hj hi _ (hmem desc') (heq ▸ hmem desc)
  · obtain ⟨s'', hclose, -, hslots⟩ := htable.fclose hlive
    exact ⟨s'', hclose, hslots⟩

/-- The directory entry of a file `A` of five bytes, from cluster 2 on. -/
def oneFileEntry : Mem := fun k =>
  if k = 0 then 0x41 else if k < 11 then 0x20 else if k = 26 then 2 else if k = 28 then 5 else 0

/-- A volume whose root directory holds that file. -/
def oneFileDisk : FatDisk :=
  ⟨⟨fun k => if k = 13 ∨ k = 14 then 1 else if k = 16 ∨ k = 18 then 2 else if k = 22 then 32
      else if k = 38 then 0x29 else if 33280 ≤ k then oneFileEntry (k - 33280) else 0, fun _ _ => 0⟩,
    ⟨⟨1, 1, 2, 512, 32⟩, ⟨oneFileEntry, 1, 65, 97⟩⟩⟩

def oneFilePath : List UInt8 := [0x30, 0x3A, 0x2F, 0x41]

theorem oneFile_found : findItemInDirectory oneFileDisk.fsPrivate.rootDirectory [0x41] = some (some 0) := by
  decide +kernel

/-- The descriptor of a file that is found in slot 0 of the root directory, and the heap
behind it, when `k` is left after the path is parsed. -/
def rootFileDescriptor (v : FatDisk) (k : KMem) : Fat16Descriptor × KMem :=
  let d := kzalloc k sizeofFat16Descriptor
  let i := kzalloc d.2 sizeofFat16Item
  let c := kzalloc i.2 fat16EntrySize
  (⟨d.1, .file i.1 c.1 (directoryEntry v.fsPrivate.rootDirectory 0), 0⟩, c.2)

theorem rootEntry_closed {directory : Fat16Directory} (h : (directoryEntry directory 0).getD 12 0 = 0) (after : Mem) :
    EntryClosed (bufferOf (directoryEntry directory 0) after) 0 := by
  refine ⟨12, by decide, by decide, ?_⟩
  have hbyte : (directoryEntry directory 0).getD 12 0 = directory.directoryItem 12 :=
    bufferOf_slice directory.directoryItem (fun _ => 0) (by decide)
  rw [directoryEntry, Nat.zero_add, bufferOf_slice _ _ (by decide)]
  exact hbyte.symm.trans h

theorem rootFile_opens {s : FileState} {live : List Extent} {v : FatDisk} (h : s.kmem.WellFormed live)
    (hv : s.volume = some v) (hfound : findItemInDirectory v.fsPrivate.rootDirectory [0x41] = some (some 0))
    (hfile : ¬ (directoryEntry v.fsPrivate.rootDirectory 0).getD 11 0 &&& attrDirectory ≠ 0)
    (hclosed : (directoryEntry v.fsPrivate.rootDirectory 0).getD 12 0 = 0)
    (hroom : Layout.used live + 16 < s.kmem.heap.total) :
    ∃ k live', s.kmem.Served k live live' 3 ∧
      OpensFile s oneFilePath [0x72] (rootFileDescriptor v k).1 (rootFileDescriptor v k).2 := by
  have hcomponents : components (oneFilePath.drop 2) = [[0x41]] := by decide
  have hmode : getFileModeFromString [0x72] = .read := by decide
  obtain ⟨path, k, live₁, hparse, hserved⟩ := parsePath_served h oneFilePath (by decide)
    (by simp only [hcomponents, List.length_singleton]; omega)
  obtain ⟨-, hnumber, hnames⟩ := parsePath_some hparse
  obtain ⟨node, hnode, hname⟩ : ∃ node, path.root = [node] ∧ node.name = [0x41] := by
    rw [hcomponents] at hnames
    exact List.map_eq_singleton_iff.mp hnames
  have hused := hserved.used_eq
  have htotal := hserved.region.total_eq
  simp only [hcomponents, List.length_singleton] at hused hserved
  obtain ⟨hne₁, live₂, h₂⟩ := kzalloc_served hserved.wellFormed sizeofFat16Descriptor (by decide) (by decide)
    (by omega)
  have hused₂ := h₂.used_eq
  have htotal₂ := h₂.region.total_eq
  obtain ⟨hne₂, live₃, h₃⟩ := kzalloc_served h₂.wellFormed sizeofFat16Item (by decide) (by decide) (by omega)
  have hused₃ := h₃.used_eq
  have htotal₃ := h₃.region.total_eq
  obtain ⟨hne₃, live₄, h₄⟩ := kzalloc_served h₃.wellFormed fat16EntrySize (by decide) (by decide) (by omega)
  have hused₄ := h₄.used_eq
  have htotal₄ := h₄.region.total_eq
  obtain ⟨hne₄, -⟩ := kzalloc_served h₄.wellFormed sizeofFileDescriptor (by decide) (by decide) (by omega)
  have hfits : (rootFileDescriptor v k).1.item.nameFits (rootFileDescriptor v k).2.mem = true := by
    rw [rootFileDescriptor, Fat16Item.nameFits, if_neg hne₃]
    exact (rootEntry_closed hclosed _).filenameFits
  have hopen : fat16Open k v path.root .read =
      some (some (rootFileDescriptor v k).1, (rootFileDescriptor v k).2) := by
    rw [rootFileDescriptor] at hfits
    simp only [fat16Open, hne₁, getFat16DirectoryItem, hnode, findItem, searchDirectory, hname, hfound, newFat16Item,
      hne₂, hfile, fat16CloneDirectoryItem, ne_eq, not_true, if_false, if_true, Option.bind_some,
      rootFileDescriptor, hfits]
  refine ⟨k, live₁, hserved, ⟨path, k, v, hparse, hnumber.trans (by decide), hv, by rw [hmode, hopen]⟩, ?_, ?_⟩
  · simp only [rootFileDescriptor]
    exact ⟨_, _, _, rfl, hne₃⟩
  · simp only [rootFileDescriptor]
    exact hne₄

theorem oneFile_opens {s : FileState} {live : List Extent} (h : s.kmem.WellFormed live)
    (hv : s.volume = some oneFileDisk) (hroom : Layout.used live + 16 < s.kmem.heap.total) :
    ∃ d k', OpensFile s oneFilePath [0x72] d k' := by
  obtain ⟨k, -, -, hopens⟩ := rootFile_opens h hv oneFile_found (by decide) rfl hroom
  exact ⟨_, _, hopens⟩

def oneFileState : FileState := ⟨⟨freshKernelHeap, fun _ => 0⟩, some oneFileDisk, fun _ => none⟩

theorem oneFileState_opens : ∃ d k', OpensFile oneFileState oneFilePath [0x72] d k' :=
  oneFile_opens (freshKernelHeap_wellFormed _) rfl (by simp [oneFileState, Layout.used])

theorem oneFileState_coherent : oneFileState.kmem.Coherent :=
  (freshKernelHeap_wellFormed _).coherent

theorem fileDescriptors_run_oneFile :
    ∃ s desc, FileRun oneFileState [.open oneFilePath [0x72] 0] s ∧ s.Live 1 desc ∧ desc.id = 1 ∧ s.OpensFirst := by
  obtain ⟨d, k', hopens⟩ := oneFileState_opens
  have hcall := hopens.fopen_slot (i := 0) rfl 0
  have hrun : FileRun oneFileState [.open oneFilePath [0x72] 0] (oneFileState.opened 0 d k') := by
    refine .cons ⟨d, k', hopens⟩ ?_ (.nil _)
    simp only [FileState.exec, hcall, Option.map_some]
  have hslot : (oneFileState.opened 0 d k').fileDescriptors 0 =
      some ⟨(kzalloc k' sizeofFileDescriptor).1, 1, some d⟩ := by
    simp [FileState.opened_slot]
  have hrun' := fileDescriptors_run oneFileState oneFileState_coherent (fun _ => rfl) _ _ hrun
  exact ⟨_, _, hrun, ⟨by decide, by decide, hslot⟩, (hrun'.1 0 _ hslot).1, hrun'.2.1⟩

/-- Which calls turn an invalid id away: `fread` where its own check of the sign or the
size catches it, `fseek` where the mode is wrong anyway, `fstat` where the null
descriptor was read inside the table, and `fclose` never. -/
theorem invalidDescriptor_rejected_iff (s : FileState) (fd : ℤ) (h : ¬ s.LiveId fd) :
    (∀ buffer size, s.Rejects (fread s fd buffer size) ↔ size = 0 ∨ fd < 0) ∧
    (∀ offset mode, s.Rejects (fseek s fd offset mode) ↔ mode = .seekEnd) ∧
    ((∃ res < 0, fstat s fd = some (res, none)) ↔ 1 ≤ fd) ∧
    ∀ s', fclose s fd ≠ some s' := by
  have hopen := openFile_invalid h
  refine ⟨fun buffer size => ?_, fun offset mode => ?_, ?_, fun s' => ?_⟩
  · unfold fread
    split_ifs with hcheck
    · exact iff_of_true ⟨_, by decide, rfl⟩ hcheck
    · rw [hopen]
      exact iff_of_false (fun hrej => by simp [FileState.Rejects] at hrej) hcheck
  · cases mode with
    | seekEnd => exact iff_of_true ⟨_, by decide, rfl⟩ rfl
    | seekBegin =>
      simp only [fseek, hopen]
      exact iff_of_false (fun hrej => by simp [FileState.Rejects] at hrej) (by decide)
    | seekCurrent =>
      simp only [fseek, hopen]
      exact iff_of_false (fun hrej => by simp [FileState.Rejects] at hrej) (by decide)
  · unfold fstat
    rw [getFileDescriptor_invalid h]
    split_ifs with hpos
    · exact iff_of_true ⟨- EIO, by decide, rfl⟩ hpos
    · exact iff_of_false (by simp) hpos
  · unfold fclose
    rw [hopen]
    simp

theorem fstat_rejects_never_opened : ∃ res < 0, fstat oneFileState 7 = some (res, none) :=
  (invalidDescriptor_rejected_iff oneFileState 7 (by simp [FileState.LiveId, oneFileState])).2.2.1.mpr (by decide)

/-- A file is opened and closed, and its id is then used again: `fread`, `fseek` and a
second `fclose` go through the null pointer that the slot holds. Closing the status of a
failed `fopen` reads below the table, and so does its `fstat`. -/
theorem closed_uses_invalid_ids :
    ∃ opened closed, fopen oneFileState oneFilePath [0x72] 0 = some (1, opened) ∧ opened.LiveId 1 ∧
      fclose opened 1 = some closed ∧ ¬ closed.LiveId 1 ∧ fread closed 1 0x400000 16 = none ∧
      fseek closed 1 0 .seekBegin = none ∧ fclose closed 1 = none ∧
      fclose closed (- EIO) = none ∧ fstat closed (- EIO) = none := by
  obtain ⟨d, k', hopens⟩ := oneFileState_opens
  have hcall := hopens.fopen_slot (i := 0) rfl 0
  have htable : (oneFileState.opened 0 d k').Table :=
    (FileState.Table.empty oneFileState_coherent fun _ => rfl).opened hopens rfl
  have hslot : (oneFileState.opened 0 d k').fileDescriptors 0 =
      some ⟨(kzalloc k' sizeofFileDescriptor).1, 1, some d⟩ := by
    simp [FileState.opened_slot]
  obtain ⟨closed, hclose, -, hslots⟩ := htable.fclose (show FileState.Live _ 1 _ from ⟨by decide, by decide, hslot⟩)
  have hlive : ¬ closed.LiveId 1 := by simp [FileState.LiveId, hslots]
  have hnegative : ¬ closed.LiveId (- EIO) := by simp [FileState.LiveId, EIO]
  have hlookup := getFileDescriptor_invalid hnegative
  rw [if_neg (by decide)] at hlookup
  refine ⟨_, closed, hcall, ⟨by decide, by decide, by simp [hslot]⟩, hclose, hlive, ?_, ?_, ?_, ?_, ?_⟩
  · simp [fread, openFile_invalid hlive]
  · simp [fseek, openFile_invalid hlive]
  · simp [fclose, openFile_invalid hlive]
  · simp [fclose, openFile_invalid hnegative]
  · rw [fstat, hlookup]
    rfl

end Zhios
