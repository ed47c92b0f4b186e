import Zhios.Disk.Stream
import Zhios.Lib.CString
import Zhios.Machine.Search
import Zhios.Memory.Heap

/-! The FAT16 driver of `src/fs/fat/fat16.c`, from the cluster chain up to the
search of one directory. Directory slots are kept as the bytes in memory they are
read from; `after` is the memory behind a buffer, which a string may run into. -/
namespace Zhios
open Machine

def entryFree : ℤ := 0x00
def badSector : ℤ := 0xFF7
def fat16EntrySize : ℕ := 32

/-- The fields of the boot sector that the driver uses. -/
structure Fat16PrimaryHeader where
  sectorsPerCluster : UInt8
  reservedSectorCount : UInt16
  numberOfFat : UInt8
  rootEntryCount : UInt16
  sectorsPerFat : UInt16
  deriving DecidableEq, Repr

structure Fat16Directory where
  directoryItem : Mem
  total : ℤ
  sectorPos : ℤ
  endingSectorPos : ℤ

structure Fat16Private where
  fatHeader : Fat16PrimaryHeader
  rootDirectory : Fat16Directory

structure FatDisk where
  disk : Disk
  fsPrivate : Fat16Private

namespace FatDisk

def clusterBytes (v : FatDisk) : ℕ := v.fsPrivate.fatHeader.sectorsPerCluster.toNat * zhiosDiskSectorSize

end FatDisk

def clusterToSector (p : Fat16Private) (cluster : ℤ) : ℤ :=
  int32 (p.rootDirectory.endingSectorPos + (cluster - 2) * p.fatHeader.sectorsPerCluster.toNat)

/-- Where `get_fat_entry` reads the entry of a cluster. -/
def fatEntryPos (v : FatDisk) (clusterToUse : ℤ) : ℤ :=
  let fatPosition := uint32 (v.fsPrivate.fatHeader.reservedSectorCount.toNat * zhiosDiskSectorSize)
  let clusterOffset := uint32 (int32 ((clusterToUse - 1) * 2))
  int32 (fatPosition + clusterOffset)

def getFatEntry (v : FatDisk) (clusterToUse : ℤ) : ℤ :=
  let bytes := (diskStreamRead v.disk (fatEntryPos v clusterToUse) 2).1
  ((bytes.getD 0 0).toNat : ℤ) + 256 * (bytes.getD 1 0).toNat

/-- The entries at which the walk along a chain gives up. -/
def endsChain (entry : ℤ) : Bool :=
  entry == 0xFFF8 || entry == 0xFFFF || entry == badSector || entry == 0xFF0 || entry == 0xFF6 ||
    entry == entryFree

def clusterWalk (v : FatDisk) : (fuel : ℕ) → (clusterToUse : ℤ) → ℤ
  | 0, clusterToUse => clusterToUse
  | fuel + 1, clusterToUse =>
    let entry := getFatEntry v clusterToUse
    if endsChain entry then - EIO else clusterWalk v fuel entry

def getClusterForOffset (v : FatDisk) (cluster offset : ℤ) : ℤ :=
  clusterWalk v (offset.tdiv v.clusterBytes).toNat cluster

/-- The recursion of `read_entries`: the number of bytes read and the bytes
written to `out`. A cluster number is used without a check for an error. -/
def readEntriesLoop (v : FatDisk) : (fuel : ℕ) → (cluster offset size : ℤ) → ℤ × List UInt8
  | 0, _, _, _ => (0, [])
  | fuel + 1, cluster, offset, size =>
    let clusterToUse := getClusterForOffset v cluster offset
    let offsetFromCluster := offset.tmod v.clusterBytes
    let startSector := clusterToSector v.fsPrivate clusterToUse
    let totalToRead := if v.clusterBytes < size then (v.clusterBytes : ℤ) else size
    let startPos := int32 (startSector * zhiosDiskSectorSize + offsetFromCluster)
    let bytes := (diskStreamRead v.disk startPos totalToRead).1
    if 0 < size - totalToRead then
      let r := readEntriesLoop v fuel cluster (int32 (offset + totalToRead)) (size - totalToRead)
      (totalToRead + r.1, bytes ++ r.2)
    else (totalToRead, bytes)

def readEntries (v : FatDisk) (cluster offset size : ℤ) : ℤ × List UInt8 :=
  readEntriesLoop v (size.toNat + 1) cluster offset size

def loadEntriesFromCluster (v : FatDisk) (startCluster offset size : ℤ) : ℤ × List UInt8 :=
  readEntries v startCluster offset size

/-- The counting loop: slots are read one after the other until one is empty, and
deleted ones are not counted. `none` when `fuel` slots held no empty one. -/
def countEntries (d : Disk) : (fuel : ℕ) → (pos : ℤ) → (i : ℕ) → Option ℕ
  | 0, _, _ => none
  | fuel + 1, pos, i =>
    let r := diskStreamRead d pos fat16EntrySize
    if r.1.getD 0 0 = 0x00 then some i
    else if r.1.getD 0 0 = 0xE5 then countEntries d fuel r.2 i
    else countEntries d fuel r.2 (i + 1)

/-- As many slots as positions below 2 GiB hold. -/
def getTotalEntriesForDirectory (d : Disk) (startSector : ℤ) : Option ℕ :=
  countEntries d (2 ^ 26) (int32 (startSector * zhiosDiskSectorSize)) 0

/-- A buffer with `bytes` at its start and `after` behind them. -/
def bufferOf (bytes : List UInt8) (after : Mem) : Mem := fun k => bytes.getD k (after k)

theorem bufferOf_map (f : ℕ → UInt8) (after : Mem) (size : ℕ) :
    bufferOf ((List.range size).map f) after = fun k => if k < size then f k else after k := by
  funext k
  rw [bufferOf, List.getD_eq_getElem?_getD, List.getElem?_map]
  split_ifs with hk
  · rw [List.getElem?_range hk]
    rfl
  · rw [List.getElem?_eq_none (by rw [List.length_range]; omega)]
    rfl

theorem bufferOf_slice (m after : Mem) {a size k : ℕ} (hk : k < size) :
    bufferOf (slice m a size) after k = m (a + k) := by
  rw [slice, bufferOf_map]
  exact if_pos hk

def rootDirectorySectorStart (h : Fat16PrimaryHeader) : ℤ :=
  h.reservedSectorCount.toNat + h.numberOfFat.toNat * h.sectorsPerFat.toNat

/-- The root directory as `init_root_directory` leaves it when its buffer could be
allocated: all slots of the fixed-size region, and the count from a second pass. -/
def initRootDirectory (d : Disk) (h : Fat16PrimaryHeader) (after : Mem) : Option Fat16Directory :=
  let start := rootDirectorySectorStart h
  let rootDirSize : ℤ := h.rootEntryCount.toNat * fat16EntrySize
  let bytes := (diskStreamRead d (int32 (start * zhiosDiskSectorSize)) rootDirSize).1
  (getTotalEntriesForDirectory d start).map fun total : ℕ =>
    { directoryItem := bufferOf bytes after
      total := total
      sectorPos := start
      endingSectorPos := start + rootDirSize / zhiosDiskSectorSize }

/-- The subdirectory that starts at `cluster`: the count fixes how many bytes of
the chain are loaded. -/
def loadDirectory (v : FatDisk) (cluster : ℤ) (after : Mem) : Option Fat16Directory :=
  (getTotalEntriesForDirectory v.disk (clusterToSector v.fsPrivate cluster)).map fun total : ℕ =>
    { directoryItem := bufferOf (loadEntriesFromCluster v cluster 0 (total * fat16EntrySize)).2 after
      total := total
      sectorPos := 0
      endingSectorPos := 0 }

/-- The name of the entry at `a`, read as C strings from its two fields. -/
def getFat16Filename (m : Mem) (a : ℕ) : List UInt8 :=
  let filename := rstrip (cstring m a)
  if m (a + 8) ≠ 0x00 ∧ m (a + 8) ≠ 0x20 then rstrip (strcat (strcat filename [0x2E]) (cstring m (a + 8)))
  else filename

/-- The bytes that `get_fat16_filename` writes to its buffer: the whole string at the extension
is appended before it is cut off. -/
def filenameBytes (m : Mem) (a : ℕ) : ℕ :=
  let filename := rstrip (cstring m a)
  if m (a + 8) ≠ 0x00 ∧ m (a + 8) ≠ 0x20 then filename.length + 1 + (cstring m (a + 8)).length + 1
  else filename.length + 1

def filenameFits (m : Mem) (a : ℕ) : Bool := filenameBytes m a ≤ zhiosMaxPath

def nameMatches (m : Mem) (name : List UInt8) (i : ℕ) : Bool :=
  let filename := getFat16Filename m (fat16EntrySize * i)
  filename.length == name.length && istrncmp filename name filename.length == 0

/-- One level of `find_item_in_directory`: the slot of the item that is created. There is no
result when a name that is looked at overruns its buffer. -/
def findItemInDirectory (directory : Fat16Directory) (name : List UInt8) : Option (Option ℕ) :=
  findSlotIf (fun i => filenameFits directory.directoryItem (fat16EntrySize * i))
    (nameMatches directory.directoryItem name) directory.total.toNat 0

end Zhios
