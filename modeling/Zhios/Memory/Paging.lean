import Zhios.Memory.Kheap

/-! The two-level page tables of `src/memory/paging/paging.c`, kept in physical
memory: a chunk is the address of its `struct Page`. -/
namespace Zhios
open Machine

def pagingAccessFromAll : ℕ := 0b000000100
def pagingIsWritable : ℕ := 0b000000010
def pagingIsPresent : ℕ := 0b000000001

def pagingTotalEntriesPerTable : ℕ := 1024
def pagingPageSize : ℕ := 4096

/-- The inner loop of `paging_new_chunk`: the identity entries of one table. -/
def fillTable (flags entry : ℕ) (offset : ℤ) : (fuel j : ℕ) → Mem → Mem
  | 0, _, mem => mem
  | fuel + 1, j, mem =>
    fillTable flags entry offset fuel (j + 1)
      (store32 mem (entry + 4 * j) (uint32 (offset + j * pagingPageSize) ||| flags))

/-- One iteration's stores: the table's entries and its directory word. -/
def buildTable (flags directory i : ℕ) (offset : ℤ) (entry : ℕ) (mem : Mem) : Mem :=
  store32 (fillTable flags entry offset pagingTotalEntriesPerTable 0 mem) (directory + 4 * i)
    (entry ||| flags ||| pagingIsWritable)

/-- The outer loop of `paging_new_chunk`. A null table would be written through,
so a failed allocation ends the model's run. -/
def chunkTables (flags directory : ℕ) : (fuel i : ℕ) → (offset : ℤ) → KMem → Option KMem
  | 0, _, _, k => some k
  | fuel + 1, i, offset, k =>
    let r := kzalloc k (4 * pagingTotalEntriesPerTable)
    if r.1 = 0 then none
    else
      chunkTables flags directory fuel (i + 1)
        (int32 (offset + pagingTotalEntriesPerTable * pagingPageSize))
        { r.2 with mem := buildTable flags directory i offset r.1 r.2.mem }

/-- The new chunk and the memory after the call, or `none` if an allocation fails. -/
def pagingNewChunk (k : KMem) (flags : ℕ) : Option (ℕ × KMem) :=
  let r := kzalloc k (4 * pagingTotalEntriesPerTable)
  if r.1 = 0 then none
  else
    (chunkTables flags r.1 pagingTotalEntriesPerTable 0 0 r.2).bind fun k =>
      let p := kzalloc k 4
      if p.1 = 0 then none else some (p.1, { p.2 with mem := store32 p.2.mem p.1 r.1 })

def pagingGetDirectory (mem : Mem) (chunk : ℕ) : ℕ := load32 mem chunk

def isPageAligned (directory : ℕ) : Bool := directory % pagingPageSize == 0

/-- The directory index and the table index of an address. -/
def pagingGetIndex (virtualAddress : ℕ) : ℕ × ℕ :=
  (virtualAddress / (pagingTotalEntriesPerTable * pagingPageSize),
    virtualAddress % (pagingTotalEntriesPerTable * pagingPageSize) / pagingPageSize)

def getPage (mem : Mem) (directory virtualAddress : ℕ) : ℕ :=
  let entry := load32 mem (directory + 4 * (pagingGetIndex virtualAddress).1)
  load32 mem ((entry &&& 0xfffff000) + 4 * (pagingGetIndex virtualAddress).2)

def setPage (mem : Mem) (directory virtualAddress phyAddress : ℕ) : ℤ × Mem :=
  if !isPageAligned virtualAddress then (-EINARG, mem)
  else
    let entry := load32 mem (directory + 4 * (pagingGetIndex virtualAddress).1)
    (0, store32 mem ((entry &&& 0xfffff000) + 4 * (pagingGetIndex virtualAddress).2) phyAddress)

def mapPage (mem : Mem) (page virtualAddress physicalAddress flags : ℕ) : ℤ × Mem :=
  if virtualAddress % pagingPageSize ≠ 0 ∨ physicalAddress % pagingPageSize ≠ 0 then (-EINARG, mem)
  else setPage mem (pagingGetDirectory mem page) virtualAddress (physicalAddress ||| flags)

/-- Always moves up: an aligned address goes to the next page. -/
def alignToPagingAddress (ptr : ℕ) : ℕ := uint32 (ptr + (pagingPageSize - ptr % pagingPageSize))

def alginToLowerPage (ptr : ℕ) : ℕ := ptr - ptr % pagingPageSize

def mapPageLoop (page flags : ℕ) : (fuel virtualAddress physicalAddress : ℕ) → ℤ → Mem → ℤ × Mem
  | 0, _, _, res, mem => (res, mem)
  | fuel + 1, virtualAddress, physicalAddress, _, mem =>
    let r := mapPage mem page virtualAddress physicalAddress flags
    if r.1 < 0 then r
    else mapPageLoop page flags fuel (uint32 (virtualAddress + pagingPageSize))
      (uint32 (physicalAddress + pagingPageSize)) r.1 r.2

def mapPageRange (mem : Mem) (page virtualAddress physicalAddress : ℕ) (size : ℤ) (flags : ℕ) :
    ℤ × Mem :=
  let count := (int32 (alignToPagingAddress (uint32 (physicalAddress + size)) -
    physicalAddress)).tdiv pagingPageSize
  mapPageLoop page flags count.toNat virtualAddress physicalAddress 0 mem

def freeTables (directory : ℕ) : (fuel i : ℕ) → KMem → KMem
  | 0, _, k => k
  | fuel + 1, i, k =>
    freeTables directory fuel (i + 1) (kfree k (load32 k.mem (directory + 4 * i) &&& 0xfffff000))

def freePage (k : KMem) (page : ℕ) : KMem :=
  let k := freeTables (pagingGetDirectory k.mem page) pagingTotalEntriesPerTable 0 k
  kfree (kfree k (pagingGetDirectory k.mem page)) page

def pagingGetPhysicalAddress (mem : Mem) (page virtualAddress : ℕ) : ℕ :=
  let offset := virtualAddress % pagingPageSize
  let pageStartAddress := virtualAddress - offset
  let baseAddress := getPage mem (pagingGetDirectory mem page) pageStartAddress &&& 0xfffff000
  uint32 (baseAddress + offset)

end Zhios
