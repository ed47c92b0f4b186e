import Zhios.Fs.Fat16
import Zhios.Fs.Path

/-! Files on a mounted volume: the items, the walk along a path and `fat16_open`,
with the allocations they make, and what can be done with an open file. There is no
result where the driver goes through a null pointer, counts the slots of a directory
without end or decodes a name past the end of its buffer. -/
namespace Zhios
open Machine

inductive FileMode
  | read
  | write
  | append
  | invalid
  deriving DecidableEq, Repr

def attrReadOnly : UInt8 := 0x01
def attrDirectory : UInt8 := 0x10
def sizeofDiskStream : ℕ := 8
def sizeofFat16Directory : ℕ := 16
def sizeofFat16Item : ℕ := 8
def sizeofFat16Descriptor : ℕ := 8

/-- A `struct Fat16Directory` at `address`, and where its slots were loaded. -/
structure OpenDirectory where
  address : ℕ
  directoryItem : ℕ
  contents : Fat16Directory

/-- The two members of the item's union. The entry of a file is copied, unless
there is no memory for the copy. -/
inductive Fat16Item
  | directory (address : ℕ) (directory : OpenDirectory)
  | file (address : ℕ) (item : ℕ) (entry : List UInt8)

structure Fat16Descriptor where
  address : ℕ
  item : Fat16Item
  pos : ℕ

def directoryEntry (directory : Fat16Directory) (i : ℕ) : List UInt8 :=
  slice directory.directoryItem (fat16EntrySize * i) fat16EntrySize

def getFirstCluster (entry : List UInt8) : ℤ :=
  int32 ((entry.getD 26 0).toNat + 2 ^ 8 * (entry.getD 27 0).toNat + 2 ^ 16 * (entry.getD 20 0).toNat +
    2 ^ 24 * (entry.getD 21 0).toNat)

/-- `get_total_entries_for_directory` with the stream it opens and closes. -/
def countEntriesAlloc (k : KMem) (d : Disk) (startSector : ℤ) : Option (ℕ × KMem) :=
  let stream := kzalloc k sizeofDiskStream
  if stream.1 = 0 then none
  else (getTotalEntriesForDirectory d startSector).map fun total => (total, kfree stream.2 stream.1)

/-- `load_directory` with its allocations. A directory without live entries is freed
again, but still returned. -/
def loadDirectoryAlloc (k : KMem) (v : FatDisk) (cluster : ℤ) : Option (OpenDirectory × KMem) :=
  let r := kzalloc k sizeofFat16Directory
  if r.1 = 0 then none
  else
    (countEntriesAlloc r.2 v.disk (clusterToSector v.fsPrivate cluster)).bind fun t =>
      let b := kzalloc t.2 (t.1 * fat16EntrySize)
      if b.1 = 0 then some (⟨r.1, 0, ⟨b.2.mem, t.1, 0, 0⟩⟩, b.2)
      else
        (loadDirectory v cluster fun i => b.2.mem (b.1 + i)).map fun directory =>
          let res := (loadEntriesFromCluster v cluster 0 (t.1 * fat16EntrySize)).1
          (⟨r.1, b.1, directory⟩, if res = 0 then kfree (kfree b.2 b.1) r.1 else b.2)

def fat16CloneDirectoryItem (k : KMem) : ℕ × KMem := kzalloc k fat16EntrySize

def newFat16Item (k : KMem) (v : FatDisk) (entry : List UInt8) : Option (Option Fat16Item × KMem) :=
  let r := kzalloc k sizeofFat16Item
  if r.1 = 0 then some (none, r.2)
  else if entry.getD 11 0 &&& attrDirectory ≠ 0 then
    (loadDirectoryAlloc r.2 v (getFirstCluster entry)).map fun d => (some (.directory r.1 d.1), d.2)
  else
    let c := fat16CloneDirectoryItem r.2
    some (some (.file r.1 c.1 entry), c.2)

/-- The search loop, with the item created for the entry it stops at. -/
def searchDirectory (k : KMem) (v : FatDisk) (directory : Fat16Directory) (name : List UInt8) :
    Option (Option Fat16Item × KMem) :=
  match findItemInDirectory directory name with
  | none => none
  | some none => some (none, k)
  | some (some i) => newFat16Item k v (directoryEntry directory i)

/-- `find_item_in_directory` along a path. The type of the item is read before it
is known that there is one. -/
def findItem (v : FatDisk) : (path : List PathNode) → Fat16Directory → KMem → Option (Option Fat16Item × KMem)
  | [], _, _ => none
  | path :: next, directory, k =>
    (searchDirectory k v directory path.name).bind fun r =>
      if next = [] then some r
      else match r.1 with
        | none => none
        | some (.file _ _ _) => some (none, r.2)
        | some (.directory _ d) => findItem v next d.contents r.2

def getFat16DirectoryItem (k : KMem) (v : FatDisk) (path : List PathNode) : Option (Option Fat16Item × KMem) :=
  findItem v path v.fsPrivate.rootDirectory k

/-- Whether `fat16_open` decodes the name of the item inside its own buffer. -/
def Fat16Item.nameFits (m : Mem) : Fat16Item → Bool
  -- of a directory it reads the structure: the low byte of a block's address, which is null, for a name,
  -- and for an extension at most the eight bytes that are left of it
  | .directory _ _ => true
  | .file _ item entry => filenameFits (if item = 0 then m else bufferOf entry fun i => m (item + i)) 0

/-- The inner `none` is the null pointer. -/
def fat16Open (k : KMem) (v : FatDisk) (path : List PathNode) (mode : FileMode) :
    Option (Option Fat16Descriptor × KMem) :=
  if mode ≠ .read then some (none, k)
  else
    let r := kzalloc k sizeofFat16Descriptor
    if r.1 = 0 then some (none, r.2)
    else
      (getFat16DirectoryItem r.2 v path).bind fun t =>
        match t.1 with
        | none => some (none, kfree t.2 r.1)
        | some item => if item.nameFits t.2.mem then some (some ⟨r.1, item, 0⟩, t.2) else none

/-- The entry that `item->item` points to. The union of a directory holds something
else there. -/
def Fat16Descriptor.entry (d : Fat16Descriptor) : Option (List UInt8) :=
  match d.item with
  | .directory _ _ => none
  | .file _ item entry => if item = 0 then none else some entry

def fileSize (entry : List UInt8) : ℕ := load32 (fun i => entry.getD i 0) 28

/-- The number of bytes read, the bytes, and the descriptor behind them. -/
def fat16Read (v : FatDisk) (d : Fat16Descriptor) (size : ℤ) : Option (ℤ × List UInt8 × Fat16Descriptor) :=
  d.entry.map fun entry =>
    let r := loadEntriesFromCluster v (getFirstCluster entry) (int32 d.pos) size
    (r.1, r.2, { d with pos := uint32 (d.pos + r.1) })

/-- The position is compared as an unsigned number. -/
def fat16Seek (d : Fat16Descriptor) (pos : ℤ) : Option (ℤ × Fat16Descriptor) :=
  match d.item with
  | .directory _ _ => some (- EINARG, d)
  | .file _ _ _ => d.entry.map fun entry =>
    if fileSize entry ≤ uint32 pos then (- EIO, d) else (0, { d with pos := uint32 pos })

structure FileStat where
  filename : List UInt8
  readOnly : Bool
  size : ℕ
  deriving DecidableEq, Repr

/-- The name is read from the copy of the entry and what lies behind it, into a field of the
record. -/
def fat16Stat (m : Mem) (d : Fat16Descriptor) : Option FileStat :=
  match d.item with
  | .directory _ _ => none
  | .file _ item _ => d.entry.bind fun entry =>
    let copy := bufferOf entry fun i => m (item + i)
    if filenameFits copy 0 then
      some
        { filename := getFat16Filename copy 0
          readOnly := entry.getD 11 0 &&& attrReadOnly ≠ 0
          size := fileSize entry }
    else none

/-- Releases the item and what it points to. The descriptor is left. -/
def fat16Close (k : KMem) (d : Fat16Descriptor) : KMem :=
  match d.item with
  | .directory address directory => kfree (kfree k directory.address) address
  | .file address item _ => kfree (kfree k item) address

end Zhios
