import Zhios.Fs.FatResolve
import Zhios.Fs.FatOpen

/-! The union of a `struct Fat16Item`. Seeks and the close look at its type; the open itself,
reads and stats take it for an entry. -/
namespace Zhios
open Machine

inductive UnionMember
  | directory
  | item
  deriving DecidableEq, Repr

/-- The member that was stored, by the type of the item. -/
def Fat16Item.stored : Fat16Item → UnionMember
  | .directory _ _ => .directory
  | .file _ _ _ => .item

/-- A use of a member of the item's union. -/
structure UnionAccess where
  owner : Fat16Item
  member : UnionMember

def UnionAccess.Tagged (a : UnionAccess) : Prop := a.member = a.owner.stored

/-- The accesses of the walk along a path: `new_fat16_item` stores a member, and the directory
of an item that is not the last is taken after a look at its type. -/
def findItemAccesses (v : FatDisk) : (path : List PathNode) → Fat16Directory → KMem → List UnionAccess
  | [], _, _ => []
  | path :: next, directory, k =>
    match searchDirectory k v directory path.name with
    | some (some (.file a item entry), _) => [⟨.file a item entry, .item⟩]
    | some (some (.directory a d), k') =>
      ⟨.directory a d, .directory⟩ ::
        if next = [] then [] else ⟨.directory a d, .directory⟩ :: findItemAccesses v next d.contents k'
    | _ => []

/-- `fat16_open` decodes the name of what it has found from `item->item`. -/
def fat16OpenAccesses (k : KMem) (v : FatDisk) (path : List PathNode) (mode : FileMode) : List UnionAccess :=
  if mode ≠ .read then []
  else
    let r := kzalloc k sizeofFat16Descriptor
    if r.1 = 0 then []
    else findItemAccesses v path v.fsPrivate.rootDirectory r.2 ++
      match getFat16DirectoryItem r.2 v path with
      | some (some item, _) => [⟨item, .item⟩]
      | _ => []

/-- A call on the descriptor of an opened path. -/
inductive FatCall
  | read (size : ℤ)
  | seek (pos : ℤ)
  | stat
  | close

namespace FatCall

/-- The descriptor after the call. There is none after a close, and none where the call goes
through what is not an entry. -/
def exec (v : FatDisk) (m : Mem) (d : Fat16Descriptor) : FatCall → Option Fat16Descriptor
  | read size => (fat16Read v d size).map (·.2.2)
  | seek pos => (fat16Seek d pos).map (·.2)
  | stat => (fat16Stat m d).map fun _ => d
  | close => none

def accesses (d : Fat16Descriptor) : FatCall → List UnionAccess
  | read _ => [⟨d.item, .item⟩]
  | seek _ =>
    match d.item with
    | .directory _ _ => []
    | .file _ _ _ => [⟨d.item, .item⟩]
  | stat => [⟨d.item, .item⟩]
  | close =>
    match d.item with
    | .directory _ _ => [⟨d.item, .directory⟩]
    | .file _ _ _ => [⟨d.item, .item⟩]

/-- A read or a stat returns an error. `fat16_stat` has no other result than 0. -/
def Refused (v : FatDisk) (m : Mem) (d : Fat16Descriptor) : FatCall → Prop
  | read size => ∃ res bytes d', fat16Read v d size = some (res, bytes, d') ∧ res < 0
  | stat => ∃ res < 0, (fat16Stat m d).map (fun _ => (0 : ℤ)) = some res
  | _ => True

end FatCall

/-- The accesses of a run of calls, up to a close. -/
def runAccesses (v : FatDisk) (m : Mem) : List FatCall → Fat16Descriptor → List UnionAccess
  | [], _ => []
  | c :: calls, d =>
    c.accesses d ++
      match c.exec v m d with
      | some d' => runAccesses v m calls d'
      | none => []

/-- Every access of the open and of the calls behind it is to the member that was stored, and
on a directory reads and stats return errors. -/
def UsedByTag (k : KMem) (v : FatDisk) (m : Mem) (path : List PathNode) (mode : FileMode) (calls : List FatCall) :
    Prop :=
  (∀ a ∈ fat16OpenAccesses k v path mode, a.Tagged) ∧
    ∀ d k', fat16Open k v path mode = some (some d, k') →
      (∀ a ∈ runAccesses v m calls d, a.Tagged) ∧
        (d.item.stored = .directory → ∀ c ∈ calls, c.Refused v m d)

/-- The entry that the path leads to, at the end of the walk. -/
def resolvedEntry (v : FatDisk) : (path : List PathNode) → Fat16Directory → KMem → Option (List UInt8)
  | [], _, _ => none
  | path :: next, directory, k =>
    if next = [] then (findItemInDirectory directory path.name).join.map (directoryEntry directory)
    else match searchDirectory k v directory path.name with
      | some (some (.directory _ d), k') => resolvedEntry v next d.contents k'
      | _ => none

section
variable {k k' : KMem} {v : FatDisk} {m : Mem} {d : Fat16Descriptor} {directory : Fat16Directory}
  {path : List PathNode} {item : Fat16Item}

theorem findItemAccesses_tagged (path : List PathNode) (directory : Fat16Directory) (k : KMem) :
    ∀ a ∈ findItemAccesses v path directory k, a.Tagged := by
  induction path generalizing directory k with
  | nil => simp [findItemAccesses]
  | cons path next ih =>
    intro a ha
    rw [findItemAccesses] at ha
    split at ha
    · rw [List.mem_singleton.mp ha]
      rfl
    · rcases List.mem_cons.mp ha with rfl | ha
      · rfl
      · split_ifs at ha
        · simp at ha
        · rcases List.mem_cons.mp ha with rfl | ha
          · rfl
          · exact ih _ _ a ha
    · simp at ha

theorem newFat16Item_stored {entry : List UInt8} (h : newFat16Item k v entry = some (some item, k')) :
    item.stored = .directory ↔ entry.getD 11 0 &&& attrDirectory ≠ 0 := by
  simp only [newFat16Item] at h
  split_ifs at h with hnull hdirectory
  · cases h
  · obtain ⟨⟨o, k''⟩, -, heq⟩ := Option.map_eq_some_iff.mp h
    cases heq
    exact iff_of_true rfl hdirectory
  · cases h
    exact iff_of_false (by simp [Fat16Item.stored]) hdirectory

theorem searchDirectory_entry {name : List UInt8} (h : searchDirectory k v directory name = some (some item, k')) :
    ∃ i, findItemInDirectory directory name = some (some i) ∧
      newFat16Item k v (directoryEntry directory i) = some (some item, k') := by
  rw [searchDirectory] at h
  split at h
  · cases h
  · cases h
  · next i hfind => exact ⟨i, hfind, h⟩

/-- What the walk finds is of the type of the entry it ends at. -/
theorem findItem_entry (h : findItem v path directory k = some (some item, k')) :
    ∃ entry, resolvedEntry v path directory k = some entry ∧
      (item.stored = .directory ↔ entry.getD 11 0 &&& attrDirectory ≠ 0) := by
  induction path generalizing directory k with
  | nil => cases h
  | cons path next ih =>
    rw [findItem] at h
    obtain ⟨⟨found, k₁⟩, hsearch, h⟩ := Option.bind_eq_some_iff.mp h
    rw [resolvedEntry]
    split_ifs at h ⊢ with hlast
    · obtain ⟨rfl, rfl⟩ := Prod.mk.inj (Option.some.inj h)
      obtain ⟨i, hfind, hnew⟩ := searchDirectory_entry hsearch
      exact ⟨_, by rw [hfind, Option.join_some, Option.map_some], newFat16Item_stored hnew⟩
    · cases found with
      | none => cases h
      | some found =>
        cases found with
        | file a item entry => cases h
        | directory a sub =>
          rw [hsearch]
          exact ih h

theorem fat16Open_item {mode : FileMode} (h : fat16Open k v path mode = some (some d, k')) :
    ∃ k'', getFat16DirectoryItem (kzalloc k sizeofFat16Descriptor).2 v path = some (some d.item, k'') ∧
      fat16OpenAccesses k v path mode =
        findItemAccesses v path v.fsPrivate.rootDirectory (kzalloc k sizeofFat16Descriptor).2 ++ [⟨d.item, .item⟩] := by
  simp only [fat16Open] at h
  split_ifs at h with hmode hnull
  · cases h
  · cases h
  · obtain ⟨⟨found, k''⟩, hfind, heq⟩ := Option.bind_eq_some_iff.mp h
    cases found with
    | none => cases heq
    | some item =>
      simp only at heq
      split_ifs at heq
      cases heq
      refine ⟨k', hfind, ?_⟩
      simp only [fat16OpenAccesses, if_neg hmode, if_neg hnull, hfind]

theorem FatCall.exec_item {c : FatCall} {d' : Fat16Descriptor} (h : c.exec v m d = some d') : d'.item = d.item := by
  cases c with
  | read size =>
    obtain ⟨⟨res, bytes, d''⟩, hread, rfl⟩ := Option.map_eq_some_iff.mp h
    obtain ⟨entry, -, heq⟩ := Option.map_eq_some_iff.mp hread
    cases heq
    rfl
  | seek pos =>
    obtain ⟨⟨res, d''⟩, hseek, rfl⟩ := Option.map_eq_some_iff.mp h
    unfold fat16Seek at hseek
    split at hseek
    · cases hseek
      rfl
    · obtain ⟨entry, -, heq⟩ := Option.map_eq_some_iff.mp hseek
      split_ifs at heq
      · cases heq
        rfl
      · cases heq
        rfl
  | stat =>
    obtain ⟨stat, -, rfl⟩ := Option.map_eq_some_iff.mp h
    rfl
  | close => cases h

theorem FatCall.accesses_tagged (h : d.item.stored = .item) (c : FatCall) : ∀ a ∈ c.accesses d, a.Tagged := by
  have hitem : ∀ a ∈ [(⟨d.item, .item⟩ : UnionAccess)], a.Tagged := by
    intro a ha
    rw [List.mem_singleton.mp ha]
    exact h.symm
  obtain ⟨address, item, pos⟩ := d
  cases item with
  | directory a sub => cases h
  | file a item entry => cases c <;> exact hitem

theorem runAccesses_tagged (h : d.item.stored = .item) (calls : List FatCall) :
    ∀ a ∈ runAccesses v m calls d, a.Tagged := by
  induction calls generalizing d with
  | nil => simp [runAccesses]
  | cons c calls ih =>
    intro a ha
    rw [runAccesses] at ha
    rcases List.mem_append.mp ha with ha | ha
    · exact c.accesses_tagged h a ha
    · split at ha
      · next d' hexec => exact ih (by rw [FatCall.exec_item hexec, h]) a ha
      · simp at ha

end

/-- For every volume, every path and every run of calls behind its open: the union is used
by its tag exactly when the path does not open a directory. -/
theorem fat16Open_usedByTag_iff (k : KMem) (v : FatDisk) (m : Mem) (path : List PathNode) (mode : FileMode)
    (calls : List FatCall) :
    UsedByTag k v m path mode calls ↔ ∀ d k' entry, fat16Open k v path mode = some (some d, k') →
      resolvedEntry v path v.fsPrivate.rootDirectory (kzalloc k sizeofFat16Descriptor).2 = some entry →
      entry.getD 11 0 &&& attrDirectory = 0 := by
  constructor
  · rintro ⟨hopen, -⟩ d k' entry hd hentry
    obtain ⟨k'', hitem, haccesses⟩ := fat16Open_item hd
    obtain ⟨entry', hentry', htype⟩ := findItem_entry hitem
    obtain rfl := Option.some.inj (hentry.symm.trans hentry')
    by_contra hdirectory
    have htagged := hopen ⟨d.item, .item⟩ (by rw [haccesses]; simp)
    rw [UnionAccess.Tagged, htype.mpr hdirectory] at htagged
    cases htagged
  · intro hfile
    -- where something is opened, it is a file
    have hstored : ∀ d k', fat16Open k v path mode = some (some d, k') → d.item.stored = .item := by
      intro d k' hd
      obtain ⟨k'', hitem, -⟩ := fat16Open_item hd
      obtain ⟨entry, hentry, htype⟩ := findItem_entry hitem
      cases hstored : d.item.stored with
      | directory => exact absurd (hfile d k' entry hd hentry) (htype.mp hstored)
      | item => rfl
    refine ⟨?_, fun d k' hd => ⟨runAccesses_tagged (hstored d k' hd) calls, fun hdirectory => ?_⟩⟩
    · intro a ha
      simp only [fat16OpenAccesses] at ha
      split_ifs at ha with hmode hnull
      · simp at ha
      · simp at ha
      · rcases List.mem_append.mp ha with ha | ha
        · exact findItemAccesses_tagged path _ _ a ha
        · split at ha
          · next item k' hfind =>
            rw [List.mem_singleton.mp ha]
            cases item with
            | file a item entry => rfl
            | directory a sub =>
              have hopen : fat16Open k v path mode =
                  some (some ⟨(kzalloc k sizeofFat16Descriptor).1, .directory a sub, 0⟩, k') := by
                simp only [fat16Open, if_neg hmode, if_neg hnull, hfind, Option.bind_some, Fat16Item.nameFits, if_true]
              exact (hstored _ _ hopen).symm
          · simp at ha
    · rw [hstored d k' hd] at hdirectory
      cases hdirectory

/-- With memory for a few blocks a directory of at most one block is loaded. -/
theorem loadDirectoryAlloc_served {k : KMem} {live : List Extent} {v : FatDisk} {cluster : ℤ} {total : ℕ}
    (h : k.WellFormed live) (hroom : Layout.used live + 3 ≤ k.heap.total)
    (htotal : getTotalEntriesForDirectory v.disk (clusterToSector v.fsPrivate cluster) = some total)
    (hpos : 1 ≤ total) (hblock : total ≤ 128) : ∃ o k', loadDirectoryAlloc k v cluster = some (o, k') := by
  obtain ⟨a₁, k₁, live₁, heq₁, hne₁, h₁⟩ := h.serves sizeofFat16Directory (by decide) (by decide) (by omega)
  have hused₁ := h₁.used_eq
  have htotal₁ := h₁.region.total_eq
  obtain ⟨hstream, -⟩ := kzalloc_served h₁.wellFormed sizeofDiskStream (by decide) (by decide) (by omega)
  obtain ⟨hfreed, hregion⟩ := h₁.wellFormed.kzalloc_kfree sizeofDiskStream (by decide) (by decide) (by omega)
  have htotal₂ := hregion.total_eq
  obtain ⟨a₃, k₃, -, heq₃, hne₃, -⟩ := hfreed.serves (total * fat16EntrySize) (by unfold fat16EntrySize; omega)
    (by unfold fat16EntrySize; omega) (by omega)
  simp only [loadDirectoryAlloc, heq₁, if_neg hne₁, countEntriesAlloc, if_neg hstream, htotal, Option.map_some,
    Option.bind_some, heq₃, if_neg hne₃, loadDirectory]
  exact ⟨_, _, rfl⟩

/-- A root with a directory `A`, which has one entry and is at cluster 2. -/
def subdirectorySlots : Mem := fun k =>
  if k = 0 ∨ k = 512 then 0x41 else if k < 11 then 0x20 else if k = 11 then 0x10 else if k = 26 then 2 else 0

theorem subdirectory_total {v : FatDisk} (h : Accepted (smallRoot 1 subdirectorySlots) v) :
    getTotalEntriesForDirectory v.disk (clusterToSector v.fsPrivate 2) = some 1 := by
  have hsector : clusterToSector v.fsPrivate 2 = 66 := by
    rw [clusterToSector, smallRoot_endingSectorPos 1 h, sub_self, zero_mul]
    exact int32_of_bounds (by decide) (by decide)
  have hslot : ∀ j, j ≤ 1 → slotBytes (smallRoot 1 subdirectorySlots) ((66 : ℤ) * zhiosDiskSectorSize) j =
      subdirectorySlots (512 + fat16EntrySize * j) := by
    intro j hj
    rw [show (66 : ℤ) * zhiosDiskSectorSize = ((33792 : ℕ) : ℤ) by decide,
      slotBytes_image _ (by decide) (by unfold fat16EntrySize; omega)]
    interval_cases j <;> decide
  rw [h.disk, hsector, getTotalEntriesForDirectory, countEntries_eq_some_iff]
  refine ⟨1, by decide, .one ?_ ?_, ?_⟩
  · rw [hslot 0 (by decide)]
    decide
  · rw [hslot 1 le_rfl]
    decide
  · have hlive : liveSlots (slotBytes (smallRoot 1 subdirectorySlots) ((66 : ℤ) * zhiosDiskSectorSize)) 1 =
        liveSlots (fun j => subdirectorySlots (512 + fat16EntrySize * j)) 1 :=
      liveSlots_congr fun j hj => hslot j hj.le
    rw [hlive]
    decide

/-- The directory is opened, and the open reads it as an entry. -/
theorem fat16Open_directory_as_entry : ∃ v k' d k'',
    fat16Resolve ⟨freshKernelHeap, fun _ => 0⟩ (smallRoot 1 subdirectorySlots) = some (0, some v, k') ∧
      fat16Open k' v [⟨0, 0, [0x41]⟩] .read = some (some d, k'') ∧ d.item.stored = .directory ∧
      ⟨d.item, .item⟩ ∈ fat16OpenAccesses k' v [⟨0, 0, [0x41]⟩] .read ∧
      ∀ m calls, ¬ UsedByTag k' v m [⟨0, 0, [0x41]⟩] .read calls := by
  obtain ⟨v, k', live, hresolve, hserved, hfound, hentry⟩ := smallRoot_oneEntry 1
    (by decide) (by decide) (by decide) (by decide) (show nameMatches subdirectorySlots [0x41] 0 by decide +kernel)
  have hcluster : getFirstCluster (slice subdirectorySlots 0 fat16EntrySize) = 2 :=
    int32_of_bounds (by decide) (by decide)
  have hroom : Layout.used live + 6 ≤ k'.heap.total := by
    rw [hserved.used_eq, hserved.region.total_eq]
    simp [Layout.used]
  obtain ⟨a₁, k₁, live₁, heq₁, hne₁, h₁⟩ := hserved.wellFormed.serves sizeofFat16Descriptor (by decide) (by decide)
    (by omega)
  have hused₁ := h₁.used_eq
  have htotal₁ := h₁.region.total_eq
  obtain ⟨a₂, k₂, live₂, heq₂, hne₂, h₂⟩ := h₁.wellFormed.serves sizeofFat16Item (by decide) (by decide) (by omega)
  have hused₂ := h₂.used_eq
  have htotal₂ := h₂.region.total_eq
  obtain ⟨o, k₃, hload⟩ := loadDirectoryAlloc_served h₂.wellFormed (by omega)
    (subdirectory_total (fat16Resolve_accepted hresolve)) le_rfl (by decide)
  have hdirectory : (slice subdirectorySlots 0 fat16EntrySize).getD 11 0 &&& attrDirectory ≠ 0 := by decide
  have hopen : fat16Open k' v [⟨0, 0, [0x41]⟩] .read = some (some ⟨a₁, .directory a₂ o, 0⟩, k₃) := by
    simp only [fat16Open, heq₁, if_neg hne₁, getFat16DirectoryItem, findItem, searchDirectory, hfound, newFat16Item,
      heq₂, if_neg hne₂, hentry, if_pos hdirectory, hcluster, hload, ne_eq, not_true, if_false, if_true,
      Option.map_some, Option.bind_some, Fat16Item.nameFits]
  obtain ⟨k'', -, haccesses⟩ := fat16Open_item hopen
  have hmem : ⟨.directory a₂ o, .item⟩ ∈ fat16OpenAccesses k' v [⟨0, 0, [0x41]⟩] .read := by
    rw [haccesses]
    simp
  refine ⟨v, k', _, k₃, hresolve, hopen, rfl, hmem, fun m calls hused => ?_⟩
  exact absurd (hused.1 _ hmem) (by simp [UnionAccess.Tagged, Fat16Item.stored])

end Zhios
