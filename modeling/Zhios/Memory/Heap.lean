import Zhios.Machine.Word
import Mathlib.Order.Interval.Set.Basic

/-! The block heap of `src/memory/heap/heap.c`. Table entries are indexed by
integers, so that a write past either end of the table is visible. -/
namespace Zhios
open Machine

def zhiosHeapBlockSize : ℕ := 4096

def EINARG : ℤ := 1
def EMEM : ℤ := 2
def EIO : ℤ := 3

abbrev HeapBlock := UInt8

def heapBlockTaken : HeapBlock := 0x01
def heapBlockFree : HeapBlock := 0x00
def heapBlockHasNext : HeapBlock := 0b10000000
def heapBlockIsFirst : HeapBlock := 0b01000000

structure HeapTable where
  total : ℕ
  entries : ℤ → HeapBlock

structure Heap where
  table : HeapTable
  startAddress : ℕ

namespace Heap

def total (heap : Heap) : ℕ := heap.table.total

def entry (heap : Heap) (i : ℤ) : HeapBlock := heap.table.entries i

def setEntry (heap : Heap) (i : ℤ) (b : HeapBlock) : Heap :=
  { heap with table := { heap.table with entries := fun j => if j = i then b else heap.table.entries j } }

@[simp] theorem setEntry_entry (heap : Heap) (i j : ℤ) (b : HeapBlock) :
    (heap.setEntry i b).entry j = if j = i then b else heap.entry j := rfl

@[simp] theorem setEntry_total (heap : Heap) (i : ℤ) (b : HeapBlock) :
    (heap.setEntry i b).total = heap.total := rfl

@[simp] theorem setEntry_startAddress (heap : Heap) (i : ℤ) (b : HeapBlock) :
    (heap.setEntry i b).startAddress = heap.startAddress := rfl

end Heap

def isValidAlignment (ptr : ℕ) : Bool := ptr % zhiosHeapBlockSize == 0

def isValidTable (ptr end_ : ℕ) (table : HeapTable) : Bool :=
  table.total == uint32 (end_ - ptr) / zhiosHeapBlockSize

/-- `memset(table->entries, HEAP_BLOCK_FREE, total)`. -/
def HeapTable.clear (table : HeapTable) : HeapTable :=
  { table with entries := fun i => if 0 ≤ i ∧ i < table.total then heapBlockFree else table.entries i }

/-- The status, the heap and the caller's table after the call. -/
def heapCreate (heap : Heap) (ptr end_ : ℕ) (table : HeapTable) : ℤ × Heap × HeapTable :=
  if !isValidAlignment ptr || !isValidAlignment end_ then (-EINARG, heap, table)
  else if !isValidTable ptr end_ table.clear then (-EINARG, heap, table.clear)
  else (0, { table := table.clear, startAddress := ptr }, table.clear)

theorem heapCreate_heap {heap : Heap} {ptr end_ : ℕ} {table : HeapTable}
    (h : (heapCreate heap ptr end_ table).1 = 0) :
    (heapCreate heap ptr end_ table).2.1 = ⟨table.clear, ptr⟩ := by
  unfold heapCreate at h ⊢
  split_ifs at h ⊢ <;> simp_all [EINARG]

def heapGetEntryType (entry : HeapBlock) : HeapBlock := entry &&& heapBlockTaken

/-- The scanning loop, with `fuel` entries left from index `i` on. -/
def heapScan (heap : Heap) (totalBlocks : ℕ) : (fuel i blockCount : ℕ) → (startBlock : ℤ) → ℤ
  | 0, _, _, startBlock => startBlock
  | fuel + 1, i, blockCount, startBlock =>
    if heapGetEntryType (heap.entry i) ≠ heapBlockFree then
      heapScan heap totalBlocks fuel (i + 1) 0 (-1)
    else
      let startBlock := if startBlock = -1 then (i : ℤ) else startBlock
      let blockCount := blockCount + 1
      if blockCount = totalBlocks then startBlock
      else heapScan heap totalBlocks fuel (i + 1) blockCount startBlock

def heapGetFreeBlock (heap : Heap) (totalBlocks : ℕ) : ℤ :=
  let startBlock := heapScan heap totalBlocks heap.total 0 0 (-1)
  if startBlock = -1 then -EMEM else startBlock

def getOffset (block : ℤ) : ℕ := uint32 (zhiosHeapBlockSize * block)

/-- The marking loop over `fuel` entries from `i` on; `entry` is the flag byte
computed one iteration ahead. -/
def heapAllocateLoop (endBlock : ℤ) : (fuel : ℕ) → (i : ℤ) → (entry : HeapBlock) → Heap → Heap
  | 0, _, _, heap => heap
  | fuel + 1, i, entry, heap =>
    heapAllocateLoop endBlock fuel (i + 1)
      (if i ≠ endBlock - 1 then heapBlockTaken ||| heapBlockHasNext else heapBlockTaken)
      (heap.setEntry i entry)

def heapAllocateBlocks (heap : Heap) (startBlock totalBlocks : ℤ) : Heap :=
  let endBlock := int32 (totalBlocks + startBlock - 1)
  let entry := heapBlockTaken ||| heapBlockIsFirst
  let entry := if 1 < totalBlocks then entry ||| heapBlockHasNext else entry
  heapAllocateLoop endBlock (endBlock - startBlock + 1).toNat startBlock entry heap

/-- The address (zero for null) and the heap after the call. -/
def heapMallocBlocks (heap : Heap) (totalBlocks : ℕ) : ℕ × Heap :=
  let startBlock := heapGetFreeBlock heap totalBlocks
  if startBlock < 0 then (0, heap)
  else (uint32 (heap.startAddress + getOffset startBlock),
    heapAllocateBlocks heap startBlock (int32 totalBlocks))

def heapAlignSize (size : ℕ) : ℕ :=
  let misalignedSize := size % zhiosHeapBlockSize
  if misalignedSize = 0 then size
  else uint32 (size - misalignedSize + zhiosHeapBlockSize)

/-- Pointer differences are signed, and so is the division. -/
def addressToHeapBlock (heap : Heap) (address : ℕ) : ℤ :=
  (int32 (address - heap.startAddress)).tdiv zhiosHeapBlockSize

/-- The releasing loop; the fuel only bounds the recursion. -/
def heapFreeLoop : (fuel : ℕ) → (i : ℤ) → Heap → Heap
  | 0, _, heap => heap
  | fuel + 1, i, heap =>
    if i < int32 heap.total then
      if heap.entry i &&& heapBlockHasNext = 0 then heap.setEntry i heapBlockFree
      else heapFreeLoop fuel (i + 1) (heap.setEntry i heapBlockFree)
    else heap

def heapFreeBlocks (heap : Heap) (block : ℤ) : Heap :=
  heapFreeLoop (block.natAbs + heap.total) block heap

def heapMalloc (heap : Heap) (size : ℕ) : ℕ × Heap :=
  heapMallocBlocks heap (heapAlignSize size / zhiosHeapBlockSize)

def heapFree (heap : Heap) (ptr : ℕ) : Heap :=
  heapFreeBlocks heap (addressToHeapBlock heap ptr)

def zhiosHeapSizeBytes : ℕ := 104857600

def heapAddress : ℕ := 0x01000000

/-- `kheap_init`, over whatever bytes the table's memory held before. -/
def kheapInit (kernelHeap : Heap) (entries : ℤ → HeapBlock) : ℤ × Heap × HeapTable :=
  heapCreate kernelHeap heapAddress (heapAddress + zhiosHeapSizeBytes)
    { total := zhiosHeapSizeBytes / zhiosHeapBlockSize, entries := entries }

def freshKernelHeap : Heap := (kheapInit ⟨⟨0, fun _ => 0⟩, 0⟩ fun _ => 0).2.1

theorem kheapInit_ok {kernelHeap : Heap} {entries : ℤ → HeapBlock} :
    (kheapInit kernelHeap entries).1 = 0 := by
  simp [kheapInit, heapCreate, isValidAlignment, isValidTable, HeapTable.clear, heapAddress,
    zhiosHeapSizeBytes, zhiosHeapBlockSize, uint32]

theorem freshKernelHeap_eq : freshKernelHeap =
    ⟨HeapTable.clear ⟨zhiosHeapSizeBytes / zhiosHeapBlockSize, fun _ => 0⟩, heapAddress⟩ :=
  heapCreate_heap kheapInit_ok

@[simp] theorem freshKernelHeap_total : freshKernelHeap.total = 25600 := by
  rw [freshKernelHeap_eq]; rfl

@[simp] theorem freshKernelHeap_startAddress : freshKernelHeap.startAddress = 0x01000000 := by
  rw [freshKernelHeap_eq]; rfl

@[simp] theorem freshKernelHeap_entry (i : ℤ) : freshKernelHeap.entry i = heapBlockFree := by
  rw [freshKernelHeap_eq]
  exact ite_self heapBlockFree

end Zhios
