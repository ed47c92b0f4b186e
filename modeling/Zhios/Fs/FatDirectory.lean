import Zhios.Fs.FatCount
import Zhios.Fs.FatMatch
import Zhios.Fs.FatRead

/-! Lookup in one directory. The slots are counted in the order of the disk and without the
deleted ones, but loaded along the chain and searched with them, so that the search may end in
front of a live entry, may stop at a deleted one and may look at slots of another place. -/
namespace Zhios
open Machine

/-- The root directory, or the subdirectory with these clusters. -/
inductive DirectoryRef
  | root
  | sub (chain : ℕ → ℕ)

def directorySector (v : FatDisk) : DirectoryRef → ℤ
  | .root => rootDirectorySectorStart v.fsPrivate.fatHeader
  | .sub chain => clusterToSector v.fsPrivate (chain 0)

def directoryBytes (v : FatDisk) : DirectoryRef → Mem
  | .root => fun k => v.disk.image ((directorySector v .root).toNat * zhiosDiskSectorSize + k)
  | .sub chain => fileByte v chain

def loadedDirectory (v : FatDisk) (after : Mem) : DirectoryRef → Option Fat16Directory
  | .root => initRootDirectory v.disk v.fsPrivate.fatHeader after
  | .sub chain => loadDirectory v (chain 0) after

section Lookup
variable (bytes : Mem) (name : List UInt8) (n : ℕ)

def isDeleted (j : ℕ) : Bool := bytes (fat16EntrySize * j) == 0xE5

def liveMatch (j : ℕ) : Bool := !isDeleted bytes j && sameName bytes name j

/-- The slot a lookup should find: the first of the `n` slots that is not deleted
and has the name. -/
def lookup : Option ℕ := findSlot (liveMatch bytes name) n 0

end Lookup

/-- The root ends inside its region, and there are clusters for a subdirectory. -/
def HasRoom (v : FatDisk) (n : ℕ) : DirectoryRef → Prop
  | .root => n < v.fsPrivate.fatHeader.rootEntryCount.toNat
  | .sub _ => 1 ≤ v.fsPrivate.fatHeader.sectorsPerCluster.toNat

/-- A directory of `n` slots in use with an empty one behind them. -/
structure DirectoryAt (v : FatDisk) (r : DirectoryRef) (n : ℕ) : Prop where
  terminator : directoryBytes v r (fat16EntrySize * n) = 0
  used : ∀ j < n, directoryBytes v r (fat16EntrySize * j) ≠ 0
  inside : HasRoom v n r

/-- From the sector on, in the order of the disk, `total` slots that are not deleted lie in front
of the first empty one. -/
def CountsTo (d : Disk) (sector : ℤ) (total : ℕ) : Prop :=
  ∃ m < 2 ^ 26, EndsAt (slotBytes d (sector * zhiosDiskSectorSize)) m ∧
    total = liveSlots (slotBytes d (sector * zhiosDiskSectorSize)) m

/-- Byte `k` of what is loaded: of a subdirectory in pieces of one cluster, each from wherever
the walk along the chain has led. -/
def loadedByte (v : FatDisk) : DirectoryRef → ℕ → UInt8
  | .root, k => diskByte v.disk (directorySector v .root * zhiosDiskSectorSize + k)
  | .sub chain, k =>
    diskByte v.disk (clusterToSector v.fsPrivate (getClusterForOffset v (chain 0)
      ((k / v.clusterBytes * v.clusterBytes : ℕ) : ℤ)) * zhiosDiskSectorSize + (k % v.clusterBytes : ℕ))

/-- All slots of the root are loaded, but no more of a subdirectory than were counted. -/
def loadedSize (v : FatDisk) (total : ℕ) : DirectoryRef → ℕ
  | .root => fat16EntrySize * v.fsPrivate.fatHeader.rootEntryCount.toNat
  | .sub _ => fat16EntrySize * total

/-- The slots that are searched, and the memory behind them. -/
def searchedBytes (v : FatDisk) (after : Mem) (r : DirectoryRef) (total : ℕ) : Mem := fun k =>
  if k < loadedSize v total r then loadedByte v r k else after k

/-- The search gets as far as the first live slot of the name, and each slot that it looks at
on the way has a name that fits the buffer and is the wanted one just where the slot of the
directory in this place is live and has it. -/
def SearchSees (v : FatDisk) (after : Mem) (name : List UInt8) (r : DirectoryRef) (n : ℕ) : Prop :=
  ∃ total, CountsTo v.disk (directorySector v r) total ∧
    (∀ j, lookup (directoryBytes v r) name n = some j → j < total) ∧
    ∀ j < total, (∀ k < j, k < n → liveMatch (directoryBytes v r) name k = false) →
      filenameFits (searchedBytes v after r total) (fat16EntrySize * j) = true ∧
        (sameName (searchedBytes v after r total) name j = true ↔
          j < n ∧ liveMatch (directoryBytes v r) name j = true)

section
variable {v : FatDisk}

theorem getTotalEntriesForDirectory_eq_some_iff (d : Disk) (sector : ℤ) (total : ℕ) :
    getTotalEntriesForDirectory d sector = some total ↔ CountsTo d sector total := by
  rw [getTotalEntriesForDirectory, countEntries_eq_some_iff]
  simp only [CountsTo, Nat.zero_add]

theorem CountsTo.lt {d : Disk} {sector : ℤ} {total : ℕ} (h : CountsTo d sector total) : total < 2 ^ 26 := by
  obtain ⟨m, hm, -, rfl⟩ := h
  exact (liveSlots_le _ m).trans_lt hm

/-- What one piece delivers, wherever the walk leads. -/
theorem pieceRead_walked (cluster : ℤ) {offset n : ℕ} (ha : offset % v.clusterBytes = 0) (hn : n ≤ v.clusterBytes) :
    pieceRead v cluster offset n = (List.range n).map fun k =>
      diskByte v.disk (clusterToSector v.fsPrivate (getClusterForOffset v cluster
        (((offset + k) / v.clusterBytes * v.clusterBytes : ℕ) : ℤ)) * zhiosDiskSectorSize +
          ((offset + k) % v.clusterBytes : ℕ)) := by
  have hmod : (offset : ℤ).tmod v.clusterBytes = 0 := by
    rw [Int.tmod_eq_emod_of_nonneg (by omega)]
    exact_mod_cast ha
  have hsector :
      (clusterToSector v.fsPrivate (getClusterForOffset v cluster offset) * zhiosDiskSectorSize) % 512 = 0 := by
    unfold zhiosDiskSectorSize
    omega
  rw [pieceRead, hmod, add_zero, diskStreamRead, Int.toNat_natCast, streamRead_sector v.disk n _ n le_rfl hsector]
  apply List.map_congr_left
  intro k hk
  have hk : k < v.clusterBytes := (List.mem_range.mp hk).trans_le hn
  have hdiv : (offset + k) / v.clusterBytes * v.clusterBytes = offset := by
    have hoffset := Nat.div_add_mod' offset v.clusterBytes
    rwa [Nat.add_div_of_dvd_right (Nat.dvd_of_mod_eq_zero ha), Nat.div_eq_of_lt hk, Nat.add_zero, ← Nat.add_zero
      (offset / v.clusterBytes * v.clusterBytes), ← ha]
  have hrest : (offset + k) % v.clusterBytes = k := by
    rw [Nat.add_mod, ha, Nat.zero_add, Nat.mod_mod, Nat.mod_eq_of_lt hk]
  rw [hdiv, hrest]

/-- The pieces of a load, one behind the other. -/
theorem readEntriesLoop_walked (hcb : 1 ≤ v.clusterBytes) (cluster : ℤ) (fuel offset size : ℕ) (hfuel : size < fuel)
    (ha : offset % v.clusterBytes = 0) (hend : offset + size < 2 ^ 31) :
    (readEntriesLoop v fuel cluster offset size).2 = (List.range size).map fun k =>
      diskByte v.disk (clusterToSector v.fsPrivate (getClusterForOffset v cluster
        (((offset + k) / v.clusterBytes * v.clusterBytes : ℕ) : ℤ)) * zhiosDiskSectorSize +
          ((offset + k) % v.clusterBytes : ℕ)) := by
  induction fuel generalizing offset size with
  | zero => omega
  | succ fuel ih =>
    by_cases hlarge : v.clusterBytes < size
    · have hstep : int32 ((offset : ℤ) + (v.clusterBytes : ℤ)) = ((offset + v.clusterBytes : ℕ) : ℤ) := by
        rw [int32_of_bounds (by omega) (by omega), Nat.cast_add]
      have hsplit : List.range size =
          List.range v.clusterBytes ++ (List.range (size - v.clusterBytes)).map (v.clusterBytes + ·) := by
        rw [← List.range_add, Nat.add_sub_cancel' hlarge.le]
      rw [readEntriesLoop_more _ _ _ (Nat.cast_lt.mpr hlarge), pieceRead_walked cluster ha le_rfl, hstep,
        ← Nat.cast_sub hlarge.le]
      dsimp only
      rw [ih (offset + v.clusterBytes) (size - v.clusterBytes) (by omega) (by rw [Nat.add_mod_right, ha]) (by omega),
        hsplit, List.map_append, List.map_map]
      simp only [Function.comp_def, Nat.add_assoc]
    · rw [readEntriesLoop_last _ _ _ (mt Nat.cast_lt.mp hlarge)]
      exact pieceRead_walked cluster ha (not_lt.mp hlarge)

theorem loadedDirectory_eq (after : Mem) {r : DirectoryRef} {n : ℕ} (h : DirectoryAt v r n) {d : Fat16Directory} :
    loadedDirectory v after r = some d → ∃ total : ℕ, d.total = total ∧ CountsTo v.disk (directorySector v r) total ∧
      d.directoryItem = searchedBytes v after r total := by
  intro hd
  cases r with
  | root =>
    obtain ⟨total, hcount, rfl⟩ := Option.map_eq_some_iff.mp hd
    refine ⟨total, rfl, (getTotalEntriesForDirectory_eq_some_iff _ _ _).mp hcount, ?_⟩
    have hsize : (v.fsPrivate.fatHeader.rootEntryCount.toNat : ℤ) * fat16EntrySize =
        ((fat16EntrySize * v.fsPrivate.fatHeader.rootEntryCount.toNat : ℕ) : ℤ) := by
      push_cast
      ring
    have hsector : (rootDirectorySectorStart v.fsPrivate.fatHeader * zhiosDiskSectorSize) % 512 = 0 := by
      unfold zhiosDiskSectorSize
      omega
    simp only [hsize]
    rw [diskStreamRead, Int.toNat_natCast, streamRead_sector v.disk _ _ _ le_rfl hsector, bufferOf_map]
    rfl
  | sub chain =>
    obtain ⟨total, hcount, rfl⟩ := Option.map_eq_some_iff.mp hd
    have hcounts := (getTotalEntriesForDirectory_eq_some_iff _ _ _).mp hcount
    refine ⟨total, rfl, hcounts, ?_⟩
    have hlt := hcounts.lt
    have hcb : 1 ≤ v.clusterBytes := Nat.mul_pos h.inside (by decide)
    have hsize : (total : ℤ) * fat16EntrySize = ((fat16EntrySize * total : ℕ) : ℤ) := by
      push_cast
      ring
    have hread := readEntriesLoop_walked hcb (chain 0) (fat16EntrySize * total + 1) 0 (fat16EntrySize * total)
      (Nat.lt_succ_self _) (Nat.zero_mod _) (by unfold fat16EntrySize; omega)
    simp only [Nat.zero_add, Nat.cast_zero] at hread
    simp only [hsize, loadEntriesFromCluster, readEntries, Int.toNat_natCast]
    rw [hread, bufferOf_map]
    rfl

theorem loadedDirectory_of_counts (after : Mem) {r : DirectoryRef} {total : ℕ}
    (h : CountsTo v.disk (directorySector v r) total) : ∃ d, loadedDirectory v after r = some d := by
  have hcount := (getTotalEntriesForDirectory_eq_some_iff _ _ _).mpr h
  cases r with
  | root => exact ⟨_, by rw [loadedDirectory, initRootDirectory]; exact congrArg (Option.map _) hcount⟩
  | sub chain => exact ⟨_, by rw [loadedDirectory, loadDirectory]; exact congrArg (Option.map _) hcount⟩

theorem CountsTo.unique {d : Disk} {sector : ℤ} {total total' : ℕ} (h : CountsTo d sector total)
    (h' : CountsTo d sector total') : total = total' := by
  rw [← getTotalEntriesForDirectory_eq_some_iff] at h h'
  exact Option.some.inj (h.symm.trans h')

end

/-- For every directory, every name and whatever lies behind the buffer: one level of lookup
finds the first live slot of that name, or nothing, exactly when the search sees it. -/
theorem directoryLookup_iff (v : FatDisk) (after : Mem) (name : List UInt8) (r : DirectoryRef) (n : ℕ)
    (h : DirectoryAt v r n) :
    (∃ d, loadedDirectory v after r = some d ∧
        findItemInDirectory d name = some (lookup (directoryBytes v r) name n)) ↔
      SearchSees v after name r n := by
  constructor
  · intro hfound
    obtain ⟨d, hd, hfind⟩ := hfound
    obtain ⟨total, htotal, hcounts, hitem⟩ := loadedDirectory_eq after h hd
    rw [findItemInDirectory, htotal, hitem, Int.toNat_natCast, nameMatches_eq_sameName] at hfind
    exact ⟨total, hcounts, findSlotIf_eq_findSlot_iff.mp hfind⟩
  · intro hsees
    obtain ⟨total, hcounts, hsame⟩ := hsees
    obtain ⟨d, hd⟩ := loadedDirectory_of_counts after hcounts
    obtain ⟨total', htotal, hcounts', hitem⟩ := loadedDirectory_eq after h hd
    obtain rfl := hcounts.unique hcounts'
    refine ⟨d, hd, ?_⟩
    rw [findItemInDirectory, htotal, hitem, Int.toNat_natCast, nameMatches_eq_sameName]
    exact findSlotIf_eq_findSlot_iff.mpr hsame

def directoryPos (v : FatDisk) : DirectoryRef → ℕ
  | .root => (directorySector v .root).toNat * zhiosDiskSectorSize
  | .sub chain => clusterPos v (chain 0)

/-- A subdirectory lies in consecutive clusters, and the walk finds as many of them as hold the
`total` slots that were counted. -/
def FoundInOrder (v : FatDisk) (n total : ℕ) : DirectoryRef → Prop
  | .root => directoryPos v .root + fat16EntrySize * v.fsPrivate.fatHeader.rootEntryCount.toNat < 2 ^ 31
  | .sub chain => ClusterInRange v (chain 0) ∧ (∀ i, i * v.clusterBytes ≤ fat16EntrySize * n → chain i = chain 0 + i) ∧
      PiecesFound v (chain 0) chain 0 (fat16EntrySize * total)

/-- Both passes go through the slots in their order, which are closed and lie below 2 GiB. -/
structure PassedInOrder (v : FatDisk) (r : DirectoryRef) (n : ℕ) : Prop extends DirectoryAt v r n where
  closed : ∀ j < n, EntryClosed (directoryBytes v r) (fat16EntrySize * j)
  below : directoryPos v r + fat16EntrySize * (n + 1) < 2 ^ 31
  found : FoundInOrder v n (liveSlots (fun j => directoryBytes v r (fat16EntrySize * j)) n) r

/-- There are fewer deleted slots than slots from the wanted entry on, so that the
search reaches it, and none of those searched before it has its name. -/
def ScanReaches (bytes : Mem) (name : List UInt8) (n : ℕ) : Prop :=
  (∀ j, lookup bytes name n = some j → j + deletedSlots (fun j => bytes (fat16EntrySize * j)) n < n) ∧
    ∀ j, j + deletedSlots (fun j => bytes (fat16EntrySize * j)) n < n → isDeleted bytes j = true →
      sameName bytes name j = true → ∃ k < j, liveMatch bytes name k = true

namespace PassedInOrder
variable {v : FatDisk} {r : DirectoryRef} {n : ℕ}

theorem directoryPos_eq (h : PassedInOrder v r n) :
    directorySector v r * zhiosDiskSectorSize = (directoryPos v r : ℤ) := by
  cases r with
  | root =>
    have hnonneg : 0 ≤ directorySector v .root := by
      rw [directorySector, rootDirectorySectorStart]
      positivity
    rw [directoryPos, Nat.cast_mul, Int.toNat_of_nonneg hnonneg]
  | sub chain => exact clusterToSector_eq h.found.1

theorem aligned (h : PassedInOrder v r n) : directoryPos v r % fat16EntrySize = 0 := by
  have hpos := h.directoryPos_eq
  unfold zhiosDiskSectorSize at hpos
  unfold fat16EntrySize
  omega

theorem image_eq (h : PassedInOrder v r n) {k : ℕ} (hk : k ≤ fat16EntrySize * n) :
    v.disk.image (directoryPos v r + k) = directoryBytes v r k := by
  cases r with
  | root => rfl
  | sub chain =>
    obtain ⟨hrange, hchain, -⟩ := h.found
    have hdiv := Nat.div_add_mod' k v.clusterBytes
    rw [directoryBytes, fileByte, hchain _ (by omega), clusterPos_add hrange, Nat.add_assoc, hdiv]
    rfl

theorem slotBytes_eq (h : PassedInOrder v r n) {j : ℕ} (hj : j ≤ n) :
    directoryBytes v r (fat16EntrySize * j) = slotBytes v.disk (directorySector v r * zhiosDiskSectorSize) j := by
  have hbelow := h.below
  rw [h.directoryPos_eq, slotBytes_image v.disk h.aligned, h.image_eq]
  · exact Nat.mul_le_mul_left _ hj
  · unfold fat16EntrySize at *
    omega

theorem countsTo (h : PassedInOrder v r n) :
    CountsTo v.disk (directorySector v r) (liveSlots (fun j => directoryBytes v r (fat16EntrySize * j)) n) := by
  have hbelow := h.below
  have hends : EndsAt (fun j => directoryBytes v r (fat16EntrySize * j)) n := by
    refine ⟨h.terminator, fun j hj => ?_⟩
    by_contra hlt
    push Not at hlt
    exact h.used j hlt hj
  refine ⟨n, ?_, hends.congr fun j hj => h.slotBytes_eq hj, liveSlots_congr fun j hj => h.slotBytes_eq hj.le⟩
  unfold fat16EntrySize at hbelow
  omega

theorem searchedBytes_eq (h : PassedInOrder v r n) (after : Mem) {k : ℕ}
    (hk : k < fat16EntrySize * liveSlots (fun j => directoryBytes v r (fat16EntrySize * j)) n) :
    searchedBytes v after r (liveSlots (fun j => directoryBytes v r (fat16EntrySize * j)) n) k =
      directoryBytes v r k := by
  have hle := liveSlots_le (fun j => directoryBytes v r (fat16EntrySize * j)) n
  cases r with
  | root =>
    have hfound : directoryPos v .root + fat16EntrySize * v.fsPrivate.fatHeader.rootEntryCount.toNat < 2 ^ 31 := h.found
    have hinside : n < v.fsPrivate.fatHeader.rootEntryCount.toNat := h.inside
    have hsize : k < fat16EntrySize * v.fsPrivate.fatHeader.rootEntryCount.toNat := by
      unfold fat16EntrySize at *
      omega
    rw [searchedBytes, loadedSize, if_pos hsize, loadedByte, h.directoryPos_eq, ← Nat.cast_add,
      diskByte_eq _ (by omega)]
    rfl
  | sub chain =>
    obtain ⟨-, -, hpieces⟩ := h.found
    have hdiv := Nat.div_add_mod' k v.clusterBytes
    obtain ⟨hcluster, hrange⟩ := hpieces (k / v.clusterBytes) (by omega)
    rw [Nat.zero_add, Nat.zero_div, Nat.zero_add] at hcluster
    rw [Nat.zero_div, Nat.zero_add] at hrange
    have hcb : 0 < v.clusterBytes := Nat.mul_pos h.inside (by decide)
    have hbelow := hrange.2
    have hrest := Nat.mod_lt k hcb
    rw [searchedBytes, loadedSize, if_pos hk, loadedByte, hcluster, clusterToSector_eq hrange, ← Nat.cast_add,
      diskByte_eq _ (by omega)]
    rfl

/-- On a directory that both passes go through in order, the search sees what it should exactly
when it reaches the slot. -/
theorem searchSees_iff (h : PassedInOrder v r n) (after : Mem) (name : List UInt8) :
    SearchSees v after name r n ↔ ScanReaches (directoryBytes v r) name n := by
  set total := liveSlots (fun j => directoryBytes v r (fat16EntrySize * j)) n with htotal
  have hsum : deletedSlots (fun j => directoryBytes v r (fat16EntrySize * j)) n + total = n :=
    deletedSlots_add_liveSlots _ n
  have hslot : ∀ j < total, ∀ k < fat16EntrySize, directoryBytes v r (fat16EntrySize * j + k) =
      searchedBytes v after r total (fat16EntrySize * j + k) := by
    intro j hj k hk
    refine (h.searchedBytes_eq after ?_).symm
    unfold fat16EntrySize at *
    omega
  have hclosed : ∀ j < total, EntryClosed (directoryBytes v r) (fat16EntrySize * j) :=
    fun j hj => h.closed j (by omega)
  have hfits : ∀ j < total, filenameFits (searchedBytes v after r total) (fat16EntrySize * j) = true := by
    intro j hj
    obtain ⟨o, hlo, hhi, hzero⟩ := hclosed j hj
    exact EntryClosed.filenameFits ⟨o, hlo, hhi, (hslot j hj o hhi).symm.trans hzero⟩
  have hname : ∀ j < total, sameName (searchedBytes v after r total) name j = sameName (directoryBytes v r) name j := by
    intro j hj
    rw [sameName, sameName, getFat16Filename_congr (hslot j hj) (hclosed j hj)]
  rw [ScanReaches]
  constructor
  · intro hsees
    obtain ⟨total', hcounts, hreach, hsame⟩ := hsees
    obtain rfl : total = total' := h.countsTo.unique hcounts
    refine ⟨fun j hj => ?_, fun j hj hdeleted hsamej => ?_⟩
    · have := hreach j hj
      omega
    · by_contra hnone
      push Not at hnone
      have hlive := ((hsame j (by omega) fun k hk _ => by simpa using hnone k hk).2.mp
        (by rw [hname j (by omega), hsamej])).2
      simp [liveMatch, hdeleted] at hlive
  · intro hscan
    obtain ⟨hreach, hpassed⟩ := hscan
    refine ⟨total, h.countsTo, fun j hj => ?_, fun j hj hnot => ⟨hfits j hj, ?_⟩⟩
    · have := hreach j hj
      omega
    · rw [hname j hj, liveMatch, Bool.and_eq_true, Bool.not_eq_true']
      constructor
      · intro hsamej
        refine ⟨by omega, ?_, hsamej⟩
        by_contra hdeleted
        obtain ⟨k, hk, hlive⟩ := hpassed j (by omega) (by simpa using hdeleted) hsamej
        simp [hnot k hk (by omega)] at hlive
      · exact fun hlive => hlive.2.2

end PassedInOrder

def deletedFirstSlots : List UInt8 :=
  [0xE5, 0x4C, 0x44, 0x20, 0x20, 0x20, 0x20, 0x20, 0x54, 0x58, 0x54, 0x20] ++ List.replicate 20 0 ++
    [0x46, 0x49, 0x4C, 0x45, 0x20, 0x20, 0x20, 0x20, 0x54, 0x58, 0x54, 0x20]

def deletedFirst : FatDisk :=
  ⟨⟨fun k => if k < 33280 then 0 else deletedFirstSlots.getD (k - 33280) 0, fun _ _ => 0⟩, smallVolume⟩

def fileTxt : List UInt8 := [0x66, 0x69, 0x6C, 0x65, 0x2E, 0x74, 0x78, 0x74]

theorem deletedFirst_passedInOrder : PassedInOrder deletedFirst .root 2 := by
  have hroom : 2 < deletedFirst.fsPrivate.fatHeader.rootEntryCount.toNat := by decide
  have hregion : directoryPos deletedFirst .root +
      fat16EntrySize * deletedFirst.fsPrivate.fatHeader.rootEntryCount.toNat < 2 ^ 31 := by decide
  refine ⟨⟨by decide, by decide, hroom⟩, fun j hj => ⟨12, by decide, by decide, ?_⟩, by decide, hregion⟩
  have hcases : j = 0 ∨ j = 1 := by omega
  rcases hcases with rfl | rfl <;> decide

theorem deletedFirst_lookup : lookup (directoryBytes deletedFirst .root) fileTxt 2 = some 1 := by
  decide +kernel

theorem deletedFirst_finds_nothing :
    ∃ d, loadedDirectory deletedFirst (fun _ => 0) .root = some d ∧
      findItemInDirectory d [0x41] = some (lookup (directoryBytes deletedFirst .root) [0x41] 2) := by
  apply (directoryLookup_iff deletedFirst (fun _ => 0) [0x41] .root 2 deletedFirst_passedInOrder.toDirectoryAt).mpr
  rw [deletedFirst_passedInOrder.searchSees_iff]
  have hnone : lookup (directoryBytes deletedFirst .root) [0x41] 2 = none := by decide +kernel
  refine ⟨by simp [hnone], fun j hj _ hname => ?_⟩
  have hdeleted : deletedSlots (fun j => directoryBytes deletedFirst .root (fat16EntrySize * j)) 2 = 1 := by decide
  obtain rfl : j = 0 := by omega
  revert hname
  decide +kernel

/-- The file is there, and the lookup does not find it. -/
theorem deletedFirst_hides_file :
    lookup (directoryBytes deletedFirst .root) fileTxt 2 = some 1 ∧
      ∃ d, loadedDirectory deletedFirst (fun _ => 0) .root = some d ∧ findItemInDirectory d fileTxt = some none := by
  have hcounts := deletedFirst_passedInOrder.countsTo
  obtain ⟨d, hd⟩ := loadedDirectory_of_counts (fun _ => 0) hcounts
  obtain ⟨total, htotal, hcounts', hitem⟩ := loadedDirectory_eq (fun _ => 0) deletedFirst_passedInOrder.toDirectoryAt hd
  obtain rfl : 1 = total := hcounts.unique hcounts'
  refine ⟨deletedFirst_lookup, d, hd, ?_⟩
  rw [findItemInDirectory, htotal, hitem]
  decide +kernel

end Zhios
