import Zhios.Fs.FatResolve
import Zhios.Fs.FileTable
import Zhios.Fs.FilePosition

/-! The divisions by the size of a cluster. Nothing between the boot sector and the two
functions that divide looks at `sectors_per_cluster`. -/
namespace Zhios
open Machine

/-- A division by `n`, and the divisors behind it. There are none behind a zero. -/
def divideBy (n : ℕ) (rest : List ℕ) : List ℕ := n :: if n = 0 then [] else rest

/-- The divisors of `read_entries`. Each piece takes a quotient in `get_cluster_for_offset`
and a remainder. -/
def readEntriesLoopDivisors (v : FatDisk) : (fuel : ℕ) → (size : ℤ) → List ℕ
  | 0, _ => []
  | fuel + 1, size =>
    let totalToRead := if v.clusterBytes < size then (v.clusterBytes : ℤ) else size
    divideBy v.clusterBytes <| divideBy v.clusterBytes <|
      if 0 < size - totalToRead then readEntriesLoopDivisors v fuel (size - totalToRead) else []

def readEntriesDivisors (v : FatDisk) (size : ℤ) : List ℕ := readEntriesLoopDivisors v (size.toNat + 1) size

def loadDirectoryDivisors (k : KMem) (v : FatDisk) (cluster : ℤ) : List ℕ :=
  let r := kzalloc k sizeofFat16Directory
  if r.1 = 0 then []
  else match countEntriesAlloc r.2 v.disk (clusterToSector v.fsPrivate cluster) with
    | none => []
    | some t =>
      if (kzalloc t.2 (t.1 * fat16EntrySize)).1 = 0 then [] else readEntriesDivisors v (t.1 * fat16EntrySize)

def newFat16ItemDivisors (k : KMem) (v : FatDisk) (entry : List UInt8) : List ℕ :=
  let r := kzalloc k sizeofFat16Item
  if r.1 = 0 then []
  else if entry.getD 11 0 &&& attrDirectory ≠ 0 then loadDirectoryDivisors r.2 v (getFirstCluster entry) else []

def searchDirectoryDivisors (k : KMem) (v : FatDisk) (directory : Fat16Directory) (name : List UInt8) : List ℕ :=
  match findItemInDirectory directory name with
  | some (some i) => newFat16ItemDivisors k v (directoryEntry directory i)
  | _ => []

/-- The divisors of the walk along a path, up to a zero. -/
def findItemDivisors (v : FatDisk) : (path : List PathNode) → Fat16Directory → KMem → List ℕ
  | [], _, _ => []
  | path :: next, directory, k =>
    searchDirectoryDivisors k v directory path.name ++
      if next = [] ∨ 0 ∈ searchDirectoryDivisors k v directory path.name then []
      else match searchDirectory k v directory path.name with
        | some (some (.directory _ d), k') => findItemDivisors v next d.contents k'
        | _ => []

def fat16OpenDivisors (k : KMem) (v : FatDisk) (path : List PathNode) (mode : FileMode) : List ℕ :=
  if mode ≠ .read then []
  else
    let r := kzalloc k sizeofFat16Descriptor
    if r.1 = 0 then [] else findItemDivisors v path v.fsPrivate.rootDirectory r.2

def fopenDivisors (s : FileState) (filename mode : List UInt8) : List ℕ :=
  match parsePath s.kmem filename, s.volume with
  | some (some path, k), some v =>
    if path.root = [] ∨ getFileModeFromString mode = .invalid ∨ path.driveNumber ≠ 0 then []
    else fat16OpenDivisors k v path.root (getFileModeFromString mode)
  | _, _ => []

def freadDivisors (s : FileState) (fd size : ℤ) : List ℕ :=
  if size = 0 ∨ fd < 0 then []
  else match openFile s fd, s.volume with
    | some (_, d), some v => if d.entry.isSome then readEntriesDivisors v size else []
    | _, _ => []

section
variable {v : FatDisk}

theorem divideBy_eq {n m : ℕ} {rest : List ℕ} (h : ∀ x ∈ rest, x = n) (hm : m ∈ divideBy n rest) : m = n := by
  unfold divideBy at hm
  rcases List.mem_cons.mp hm with hm | hm
  · exact hm
  · split_ifs at hm
    · simp at hm
    · exact h m hm

/-- Everything is divided by the size of a cluster. -/
theorem readEntriesLoopDivisors_eq (fuel : ℕ) (size : ℤ) :
    ∀ n ∈ readEntriesLoopDivisors v fuel size, n = v.clusterBytes := by
  induction fuel generalizing size with
  | zero => simp [readEntriesLoopDivisors]
  | succ fuel ih =>
    intro n hn
    simp only [readEntriesLoopDivisors] at hn
    refine divideBy_eq (fun m hm => divideBy_eq (fun l hl => ?_) hm) hn
    split_ifs at hl
    all_goals first
      | exact ih _ l hl
      | simp at hl

theorem loadDirectoryDivisors_eq (k : KMem) (cluster : ℤ) :
    ∀ n ∈ loadDirectoryDivisors k v cluster, n = v.clusterBytes := by
  intro n hn
  simp only [loadDirectoryDivisors] at hn
  split_ifs at hn
  · simp at hn
  · split at hn
    · simp at hn
    · split_ifs at hn
      · simp at hn
      · exact readEntriesLoopDivisors_eq _ _ n hn

theorem searchDirectoryDivisors_eq (k : KMem) (directory : Fat16Directory) (name : List UInt8) :
    ∀ n ∈ searchDirectoryDivisors k v directory name, n = v.clusterBytes := by
  intro n hn
  simp only [searchDirectoryDivisors] at hn
  split at hn
  · simp only [newFat16ItemDivisors] at hn
    split_ifs at hn
    · simp at hn
    · exact loadDirectoryDivisors_eq _ _ n hn
    · simp at hn
  · simp at hn

theorem findItemDivisors_eq (path : List PathNode) (directory : Fat16Directory) (k : KMem) :
    ∀ n ∈ findItemDivisors v path directory k, n = v.clusterBytes := by
  induction path generalizing directory k with
  | nil => simp [findItemDivisors]
  | cons path next ih =>
    intro n hn
    simp only [findItemDivisors] at hn
    rcases List.mem_append.mp hn with hn | hn
    · exact searchDirectoryDivisors_eq k directory path.name n hn
    · split_ifs at hn
      · simp at hn
      · split at hn
        · exact ih _ _ n hn
        · simp at hn

theorem fopenDivisors_eq {s : FileState} (hv : s.volume = some v) (filename mode : List UInt8) :
    ∀ n ∈ fopenDivisors s filename mode, n = v.clusterBytes := by
  intro n hn
  simp only [fopenDivisors, hv] at hn
  split at hn
  · next path k w _ hw =>
    obtain rfl := Option.some.inj hw
    split_ifs at hn
    · simp at hn
    · simp only [fat16OpenDivisors] at hn
      split_ifs at hn
      · simp at hn
      · simp at hn
      · exact findItemDivisors_eq _ _ _ n hn
  · simp at hn

/-- A read of at least a byte divides. -/
theorem freadDivisors_open {s : FileState} {fd size : ℤ} {entry : List UInt8} {pos : ℕ}
    (h : s.OpenAt fd v entry pos) (hsize : 0 < size) :
    v.clusterBytes ∈ freadDivisors s fd size ∧ ∀ n ∈ freadDivisors s fd size, n = v.clusterBytes := by
  obtain ⟨desc, d, address, item, hopen, hitem, hne, -⟩ := h.opened
  have hpos := (openFile_slot hopen).1
  have hentry : d.entry.isSome := by simp [Fat16Descriptor.entry, hitem, hne]
  have hguard : ¬ (size = 0 ∨ fd < 0) := by omega
  have hread : freadDivisors s fd size = readEntriesDivisors v size := by
    simp only [freadDivisors, if_neg hguard, hopen, h.volume, if_pos hentry]
  rw [hread]
  refine ⟨?_, readEntriesLoopDivisors_eq _ _⟩
  simp only [readEntriesDivisors, readEntriesLoopDivisors, divideBy]
  exact List.mem_cons_self

theorem Accepted.clusterBytes_eq_zero_iff {d : Disk} (h : Accepted d v) : v.clusterBytes = 0 ↔ d.image 13 = 0 := by
  have hspc : v.fsPrivate.fatHeader.sectorsPerCluster = d.image 13 := by rw [h.header, headerFields]
  rw [FatDisk.clusterBytes, hspc, zhiosDiskSectorSize, Nat.mul_eq_zero, or_iff_left (by decide), ← UInt8.toNat_inj]
  rfl

end

/-- On every accepted volume, and whatever the boot sector holds otherwise: a read of an open
file divides by no zero exactly when there is a sector to a cluster, and so does an open that
divides at all. -/
theorem fat16Resolve_divisors_iff (k k' : KMem) (d : Disk) (v : FatDisk) (res : ℤ)
    (h : fat16Resolve k d = some (res, some v, k')) :
    (∀ (s : FileState) (fd : ℤ) (entry : List UInt8) (pos : ℕ) (size : ℤ), s.OpenAt fd v entry pos → 0 < size →
      ((∀ n ∈ freadDivisors s fd size, n ≠ 0) ↔ d.image 13 ≠ 0)) ∧
    ∀ (s : FileState) (filename mode : List UInt8), s.volume = some v →
      ((∀ n ∈ fopenDivisors s filename mode, n ≠ 0) ↔ d.image 13 ≠ 0 ∨ fopenDivisors s filename mode = []) := by
  have hzero := (fat16Resolve_accepted h).clusterBytes_eq_zero_iff
  constructor
  · intro s fd entry pos size hopen hsize
    obtain ⟨hmem, hall⟩ := freadDivisors_open hopen hsize
    constructor
    · exact fun hne himage => hne _ hmem (hzero.mpr himage)
    · intro himage n hn
      rw [hall n hn]
      exact fun hcb => himage (hzero.mp hcb)
  · intro s filename mode hv
    have hall := fopenDivisors_eq hv filename mode
    constructor
    · intro hne
      by_contra hno
      push Not at hno
      obtain ⟨himage, hsome⟩ := hno
      obtain ⟨n, hn⟩ := List.exists_mem_of_ne_nil _ hsome
      exact hne n hn ((hall n hn).trans (hzero.mpr himage))
    · rintro (himage | hnone) n hn
      · rw [hall n hn]
        exact fun hcb => himage (hzero.mp hcb)
      · rw [hnone] at hn
        simp at hn

theorem smallRoot_opensFile (spc : UInt8) :
    ∃ v k' s, fat16Resolve ⟨freshKernelHeap, fun _ => 0⟩ (smallRoot spc oneFileEntry) = some (0, some v, k') ∧
      fopen ⟨k', some v, fun _ => none⟩ oneFilePath [0x72] 0 = some (1, s) ∧
      s.OpenAt 1 v (slice oneFileEntry 0 fat16EntrySize) 0 := by
  obtain ⟨v, k', live, hresolve, hserved, hfound, hentry⟩ := smallRoot_oneEntry spc
    (by decide) (by decide) (by decide) (by decide) (show nameMatches oneFileEntry [0x41] 0 by decide +kernel)
  have hroom : Layout.used live + 16 < k'.heap.total := by
    rw [hserved.used_eq, hserved.region.total_eq]
    simp [Layout.used]
  obtain ⟨k₂, -, -, hopens⟩ := rootFile_opens (s := ⟨k', some v, fun _ => none⟩) hserved.wellFormed rfl hfound
    (by rw [hentry]; decide) (by rw [hentry]; decide) hroom
  obtain ⟨a, c, entry, hitem, hne⟩ := hopens.file
  have hcopy : (rootFileDescriptor v k₂).1.item = .file a c (slice oneFileEntry 0 fat16EntrySize) := by
    rw [← hentry, hitem]
    cases hitem
    rfl
  have hslot : (FileState.opened ⟨k', some v, fun _ => none⟩ 0 (rootFileDescriptor v k₂).1
      (rootFileDescriptor v k₂).2).fileDescriptors (1 - 1 : ℤ).toNat =
      some ⟨_, 1, some (rootFileDescriptor v k₂).1⟩ := FileState.opened_slot _ 0 0 _ _
  exact ⟨v, k', _, hresolve, hopens.fopen_slot (i := 0) rfl 0, rfl, _, _, a, c,
    openFile_of_slot (by decide) (by decide) hslot rfl, hcopy, hne, rfl⟩

/-- With a sector to a cluster nothing is divided by zero. -/
theorem fat16Resolve_divisors_one :
    ∃ v k' s, fat16Resolve ⟨freshKernelHeap, fun _ => 0⟩ (smallRoot 1 oneFileEntry) = some (0, some v, k') ∧
      fopen ⟨k', some v, fun _ => none⟩ oneFilePath [0x72] 0 = some (1, s) ∧
      (∀ n ∈ fopenDivisors ⟨k', some v, fun _ => none⟩ oneFilePath [0x72], n ≠ 0) ∧
      ∀ n ∈ freadDivisors s 1 5, n ≠ 0 := by
  have hone : (smallRoot 1 oneFileEntry).image 13 ≠ 0 := by decide
  obtain ⟨v, k', s, hresolve, hcall, hopen⟩ := smallRoot_opensFile 1
  obtain ⟨hread, hfopen⟩ := fat16Resolve_divisors_iff ⟨freshKernelHeap, fun _ => 0⟩ k' (smallRoot 1 oneFileEntry) v 0
    hresolve
  exact ⟨v, k', s, hresolve, hcall, (hfopen _ oneFilePath [0x72] rfl).mpr (Or.inl hone),
    (hread s 1 _ 0 5 hopen (by decide)).mpr hone⟩

/-- Without one the volume is accepted all the same, its file is opened, and the first read
divides by zero. -/
theorem fat16Resolve_divides_by_zero :
    ∃ v k' s, fat16Resolve ⟨freshKernelHeap, fun _ => 0⟩ (smallRoot 0 oneFileEntry) = some (0, some v, k') ∧
      fopen ⟨k', some v, fun _ => none⟩ oneFilePath [0x72] 0 = some (1, s) ∧ 0 ∈ freadDivisors s 1 5 := by
  obtain ⟨v, k', s, hresolve, hcall, hopen⟩ := smallRoot_opensFile 0
  have hzero : v.clusterBytes = 0 := (fat16Resolve_accepted hresolve).clusterBytes_eq_zero_iff.mpr rfl
  have hmem := (freadDivisors_open hopen (show (0 : ℤ) < 5 by decide)).1
  rw [hzero] at hmem
  exact ⟨v, k', s, hresolve, hcall, hmem⟩

end Zhios
