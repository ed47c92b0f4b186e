import Zhios.Memory.PagingFresh
import Zhios.Task.Load

/-! The page tables of a process that was just loaded: what `process_map_memory` of
`src/task/process.c` makes of what `load_process` acquired. -/
namespace Zhios
open Machine

/-- The pages that the stack is mapped to, which are one more than it has. -/
def StackPage (P : ℕ) : Prop := 0x3FB ≤ P ∧ P < 0x400

instance (P : ℕ) : Decidable (StackPage P) := inferInstanceAs (Decidable (_ ∧ _))

/-- The flags of an entry that user code can store through. -/
def userFlags : ℕ := pagingIsPresent ||| pagingAccessFromAll ||| pagingIsWritable

theorem entry_userFlags (f : ℕ) (w : Bool) :
    (4096 * f ||| if w then 7 else 5) &&& userFlags = userFlags ↔ w = true := by
  rw [show userFlags = 2 ^ 3 - 1 from rfl, Nat.and_two_pow_sub_one_eq_mod,
    or_page_flags (by omega) (by split_ifs <;> omega)]
  cases w <;> simp <;> omega

/-- The words of a task's directory leave it to the tables what user code may do. -/
theorem directoryWord_userFlags {a : ℕ} (haligned : a % 4096 = 0) :
    (a ||| taskPageFlags ||| pagingIsWritable) &&& userFlags = userFlags := by
  have hword := (entry_userFlags (a / 4096) true).mpr rfl
  rw [if_pos rfl, Nat.mul_div_cancel' (Nat.dvd_of_mod_eq_zero haligned)] at hword
  rw [Nat.or_assoc]
  exact hword

/-- The word of the directory that the processor finds for an address. -/
theorem ChunkAt.directoryFlags {m : Mem} {page : ℕ} {c : Chunk} {F : ℕ → ℕ} (h : ChunkAt m page c F)
    (hdirectory : ∀ i < 1024, load32 m (c.directory + 4 * i) &&& userFlags = userFlags) {v : ℕ} (hv : v < 2 ^ 32) :
    load32 m (pagingGetDirectory m page + 4 * (pagingGetIndex v).1) &&& userFlags = userFlags := by
  have hpage : pagingGetDirectory m page = c.directory := h.pageWord
  rw [hpage]
  exact hdirectory _ (directoryIndex_lt hv)

namespace ProgramData
variable (program : ProgramData) (m : Mem) (page : ℕ)

/-- The pages of a program as its loader maps them, each to a page of the file in memory, and
those of them that it may write. -/
def frame (P : ℕ) : ℕ :=
  match program with
  | .elf file => elfFrame (elfPheaders m page file.elfMemory) file.elfMemory P
  | .binary ptr size => if pageIndex 0x400 P < pagesFor size then (ptr / 4096 + pageIndex 0x400 P) % 2 ^ 20 else P

def writable (P : ℕ) : Bool :=
  match program with
  | .elf file => elfWritable (elfPheaders m page file.elfMemory) P
  | .binary _ size => decide (pageIndex 0x400 P < pagesFor size)

/-- A binary lies in a buffer of its own. -/
def Aligned : Prop :=
  match program with
  | .elf _ => True
  | .binary ptr size => ptr % 4096 = 0 ∧ ptr < 2 ^ 32 ∧ size < 2 ^ 32

end ProgramData

/-- The page behind page `P` of a new process, and whether it may write to it. -/
def spaceFrame (program : ProgramData) (m : Mem) (page stack P : ℕ) : ℕ :=
  if StackPage P then stack / 4096 + (P - 0x3FB) else program.frame m page P

def spaceWritable (program : ProgramData) (m : Mem) (page P : ℕ) : Bool :=
  decide (StackPage P) || program.writable m page P

section
variable {m : Mem} {page : ℕ} {c : Chunk} {stack : ℕ}

theorem FreshChunk.loaderMapMemory (h : FreshChunk m page c) (program : ProgramData) (hprogram : program.Aligned) :
    (Zhios.loaderMapMemory m page program).1 = 0 ∧
      ChunkAt (Zhios.loaderMapMemory m page program).2 page c
        (fun P => 4096 * program.frame m page P ||| if program.writable m page P then 7 else 5) ∧
      ∀ x, (∀ j < 1024, x < c.table j ∨ c.table j + 4096 ≤ x) → (Zhios.loaderMapMemory m page program).2 x = m x := by
  cases program with
  | elf file =>
    obtain ⟨hres, hat, hout⟩ := h.chunkAt.mapPheaders file.elfMemory h.separate h.block (2 ^ 16) 0
    exact ⟨hres, hat.withMap fun P _ => (remapElf_eq _ _ P).symm, hout⟩
  | binary ptr size =>
    obtain ⟨haligned, hptr, hsize⟩ := hprogram
    have hmapped := h.chunkAt.mapFrames h.separate h.block (show 7 < 4096 by decide) (pagesFor size) 0x400000 ptr
      (by decide) (by decide) hptr haligned (pagesFor_le size)
    have hloader : Zhios.loaderMapMemory m page (.binary ptr size) =
        mapPageLoop page 7 (pagesFor size) 0x400000 ptr 0 m :=
      mapPageRange_pages m page 0x400000 7 haligned hsize
    rw [hloader]
    refine ⟨hmapped.1, hmapped.2.withMap fun P _ => ?_, fun x hx => ?_⟩
    · simp only [remapFrames, ProgramData.frame, ProgramData.writable, decide_eq_true_eq]
      split_ifs <;> rfl
    · exact h.chunkAt.mapFrames_outside h.separate h.block (by decide) (pagesFor size) 0x400000 ptr (by decide)
        (by decide) hptr haligned hx

/-- The block of the stack, with the page behind it, is not in the tables. -/
structure StackBlock (page : ℕ) (c : Chunk) (stack : ℕ) : Prop where
  aligned : stack % 4096 = 0
  fits : stack + zhiosProgramStackSize + 4096 ≤ 2 ^ 32
  apart : ∀ a, c.IsBlock page a → a + 4096 ≤ stack ∨ stack + zhiosProgramStackSize ≤ a

/-- Parameters for the command `s` that can be laid out on the stack, outside the tables. -/
structure ParametersReady (m : Mem) (page : ℕ) (c : Chunk) (stack params : ℕ) (s : List UInt8) : Prop where
  count : (s.splitOn 0x20).length ≤ zhiosMaxProcessArguments
  room : argumentsSize (s.splitOn 0x20) ≤ zhiosProgramStackSize
  ready : ∃ a, ArgumentsAt m params 0 a (s.splitOn 0x20) ∧ StackApart stack params a (packedSize (s.splitOn 0x20)) ∧
    ∀ b, c.IsBlock page b → (b + 4096 ≤ params ∨ params + sizeofProcessParameters ≤ b) ∧
      (b + 4096 ≤ a ∨ a + packedSize (s.splitOn 0x20) ≤ b)

/-- The tables of a process whose memory is mapped: the words of the directory are as they were
in `m`, and the entries map the program and then the stack. -/
structure SpaceMapped (m m' : Mem) (page : ℕ) (c : Chunk) (program : ProgramData) (stack : ℕ) : Prop where
  chunkAt : ChunkAt m' page c fun P =>
    4096 * spaceFrame program m page stack P ||| if spaceWritable program m page P then 7 else 5
  directory : ∀ i < 1024, load32 m' (c.directory + 4 * i) = load32 m (c.directory + 4 * i)

/-- Memory when the program and then the stack have been mapped. -/
def mapSpace (m : Mem) (page : ℕ) (program : ProgramData) (stack : ℕ) : Mem :=
  (mapPageRange (Zhios.loaderMapMemory m page program).2 page zhiosProgramVirtualStackAddressEnd stack
    (int32 zhiosProgramStackSize) (pagingIsPresent ||| pagingAccessFromAll ||| pagingIsWritable)).2

theorem mapSpace_eq (program : ProgramData) (haligned : stack % 4096 = 0) : mapSpace m page program stack =
    (mapPageLoop page 7 5 0x3FB000 stack 0 (Zhios.loaderMapMemory m page program).2).2 := by
  have hpages : pagesFor 0x4000 = 5 := by decide
  rw [mapSpace, stackEnd_eq, stackSize_eq, mapPageRange_pages _ _ _ _ haligned (by decide), hpages]
  rfl

/-- The stack is mapped over what the program has of its five pages. -/
theorem remapFrames_stack {program : ProgramData} {P : ℕ} (haligned : stack % 4096 = 0)
    (hfits : stack + zhiosProgramStackSize + 4096 ≤ 2 ^ 32) (hP : P < 2 ^ 20) :
    (4096 * spaceFrame program m page stack P ||| if spaceWritable program m page P then 7 else 5) =
      remapFrames (fun P => 4096 * program.frame m page P ||| if program.writable m page P then 7 else 5)
        (0x3FB000 / 4096) (stack / 4096) 5 7 P := by
  have hindex : pageIndex (0x3FB000 / 4096) P < 5 ↔ StackPage P := by
    unfold pageIndex StackPage
    omega
  rw [stackSize_eq] at hfits
  simp only [remapFrames, hindex]
  by_cases hpage : StackPage P
  · have hframe : (stack / 4096 + pageIndex (0x3FB000 / 4096) P) % 2 ^ 20 = stack / 4096 + (P - 0x3FB) := by
      unfold StackPage at hpage
      unfold pageIndex
      omega
    have hwritable : spaceWritable program m page P = true := by
      rw [spaceWritable, decide_eq_true hpage, Bool.true_or]
    rw [spaceFrame, if_pos hpage, if_pos hpage, hframe, if_pos hwritable]
  · have hwritable : spaceWritable program m page P = program.writable m page P := by
      rw [spaceWritable, decide_eq_false hpage, Bool.false_or]
    rw [spaceFrame, if_neg hpage, if_neg hpage, hwritable]

theorem FreshChunk.mapSpace (h : FreshChunk m page c) {program : ProgramData} (hprogram : program.Aligned)
    (hstack : StackBlock page c stack) :
    SpaceMapped m (Zhios.mapSpace m page program stack) page c program stack ∧
      ∀ x, (∀ j < 1024, x < c.table j ∨ c.table j + 4096 ≤ x) → Zhios.mapSpace m page program stack x = m x := by
  obtain ⟨-, hat, hout⟩ := h.loaderMapMemory program hprogram
  have hlt : stack < 2 ^ 32 := by
    have hfits := hstack.fits
    omega
  have hmapped := hat.mapFrames h.separate h.block (show 7 < 4096 by decide) 5 0x3FB000 stack (by decide) (by decide)
    hlt hstack.aligned (by decide)
  have hkept : ∀ x, (∀ j < 1024, x < c.table j ∨ c.table j + 4096 ≤ x) →
      Zhios.mapSpace m page program stack x = m x := fun x hx => by
    rw [mapSpace_eq program hstack.aligned, hat.mapFrames_outside h.separate h.block (by decide) 5 0x3FB000 stack
      (by decide) (by decide) hlt hstack.aligned hx, hout x hx]
  refine ⟨⟨?_, fun i hi => load32_congr fun x hlo hhi => hkept x fun j hj => ?_⟩, hkept⟩
  · rw [mapSpace_eq program hstack.aligned]
    exact hmapped.2.withMap fun P hP => remapFrames_stack hstack.aligned hstack.fits hP
  · have hne := h.separate.directory_table j hj
    have hone := (h.block _ (Or.inr (Or.inl rfl))).1
    have htwo := (h.block _ (Or.inr (Or.inr ⟨j, hj, rfl⟩))).1
    omega

theorem SpaceMapped.stackPlaced {m' : Mem} {program : ProgramData} (h : SpaceMapped m m' page c program stack)
    (hblock : ∀ a, c.IsBlock page a → a % 4096 = 0 ∧ a + 4096 ≤ 2 ^ 32) (hstack : StackBlock page c stack) :
    StackPlaced m' page c
      (fun P => 4096 * spaceFrame program m page stack P ||| if spaceWritable program m page P then 7 else 5) stack := by
  refine ⟨h.chunkAt, hblock, fun P hlo hhi => ?_, hstack.apart⟩
  obtain ⟨haligned, hfits, -⟩ := hstack
  rw [stackEnd_eq] at hlo ⊢
  rw [stackStart_eq] at hhi
  rw [stackSize_eq] at hfits
  have hpage : StackPage P := ⟨by omega, by omega⟩
  rw [spaceFrame, if_pos hpage, spaceWritable, decide_eq_true hpage, Bool.true_or, if_pos rfl,
    or_and_page_mask (by omega) (by decide) (by unfold StackPage at hpage; omega)]
  omega

/-- Laying out the arguments leaves the tables as they are. -/
theorem SpaceMapped.placeArguments {m' : Mem} {program : ProgramData} {params : ℕ} {s : List UInt8}
    (h : SpaceMapped m m' page c program stack)
    (hkept : ∀ x, (∀ j < 1024, x < c.table j ∨ c.table j + 4096 ≤ x) → m' x = m x)
    (hblock : ∀ a, c.IsBlock page a → a % 4096 = 0 ∧ a + 4096 ≤ 2 ^ 32) (hstack : StackBlock page c stack)
    (hparams : ParametersReady m page c stack params s) :
    ∃ m₁, processMapArgsToStack m' page params =
        (zhiosProgramVirtualStackAddressStart - argumentsSize (s.splitOn 0x20), m₁) ∧
      SpaceMapped m m₁ page c program stack ∧
      ArgumentsSeen (virtualMem m₁ page) (zhiosProgramVirtualStackAddressStart - argumentsSize (s.splitOn 0x20)) s := by
  obtain ⟨hcount, hroom, a, hargs, hstrings, houtside⟩ := hparams
  have hrecordSize : sizeofProcessParameters = 408 := rfl
  have hmax : zhiosMaxProcessArguments = 100 := rfl
  have htable : ∀ j < 1024, c.IsBlock page (c.table j) := fun j hj => Or.inr (Or.inr ⟨j, hj, rfl⟩)
  have hready : ArgumentsAt m' params 0 a (s.splitOn 0x20) := by
    refine hargs.congr (fun x hlo hhi => hkept x fun j hj => ?_) fun x hlo hhi => hkept x fun j hj => ?_
    · have hrecord := (houtside _ (htable j hj)).1
      omega
    · have htext := (houtside _ (htable j hj)).2
      omega
  have hplaced := h.stackPlaced hblock hstack
  obtain ⟨m₁, hlaid, hframe, hwords⟩ := processMapArgsToStack_spec hplaced.stackMapped hready hstrings hcount hroom
  have hblocks : ∀ b, c.IsBlock page b → ∀ x, b ≤ x → x < b + 4096 → m₁ x = m' x := by
    intro b hb x hlo hhi
    have hstackApart := hstack.apart b hb
    have hrecord := (houtside b hb).1
    exact hframe x (by omega) (by omega)
  refine ⟨m₁, hlaid, ⟨?_, fun i hi => ?_⟩, hwords.seen (hplaced.congr hblocks).stackMapped hroom⟩
  · exact h.chunkAt.congr fun b hb j hj => load32_congr fun x hlo hhi => hblocks b hb x (by omega) (by omega)
  · rw [← h.directory i hi]
    exact load32_congr fun x hlo hhi => hblocks _ (Or.inr (Or.inl rfl)) x (by omega) (by omega)

theorem KernelState.processMapMemory_mapped {σ : KernelState} {process params : ℕ} {program : ProgramData}
    {allocations : ℕ → ProcessAllocation} {s : List UInt8} (hmem : σ.file.kmem.mem = m)
    (hpage : (σ.processes.tasks.task (σ.processes.process process).task).pageDirectory = page)
    (hdata : σ.data process = ⟨allocations, stack, some program, params⟩) (h : FreshChunk m page c)
    (hprogram : program.Aligned) (hstack : StackBlock page c stack)
    (hparams : params ≠ 0 → ParametersReady m page c stack params s) :
    SpaceMapped m (σ.processMapMemory process).2.file.kmem.mem page c program stack ∧
      (params ≠ 0 → ArgumentsSeen (virtualMem (σ.processMapMemory process).2.file.kmem.mem page)
        ((σ.processMapMemory process).2.registers (σ.processes.process process).task).esp.toNat s) := by
  obtain ⟨hres, -⟩ := h.loaderMapMemory program hprogram
  obtain ⟨hmapped, hkept⟩ := h.mapSpace hprogram hstack
  simp only [KernelState.processMapMemory, hdata, hpage, hmem, hres, lt_irrefl, if_false]
  split_ifs with hnull
  · exact ⟨hmapped, fun hne => absurd hnull hne⟩
  · obtain ⟨m', hlaid, hspace, hseen⟩ := hmapped.placeArguments hkept h.block hstack (hparams hnull)
    have hstart := stackStart_eq
    have hesp : (UInt32.ofNat (zhiosProgramVirtualStackAddressStart - argumentsSize (s.splitOn 0x20))).toNat =
        zhiosProgramVirtualStackAddressStart - argumentsSize (s.splitOn 0x20) := by
      rw [UInt32.toNat_ofNat']
      exact Nat.mod_eq_of_lt (by omega)
    rw [Zhios.mapSpace] at hlaid
    simp only [hlaid]
    refine ⟨hspace, fun _ => ?_⟩
    simp only [Function.update_self, hesp]
    exact hseen

end

theorem linkTask_pageDirectory (s : Tasks) (task t : ℕ) :
    ((linkTask s task).task t).pageDirectory = (s.task t).pageDirectory := by
  unfold linkTask
  split_ifs
  · rfl
  · simp only [Tasks.setPrev, Tasks.setNext, Tasks.setTask_task]
    split_ifs <;> simp_all

theorem linkTask_new_pageDirectory (s : Tasks) (task process page : ℕ) :
    ((linkTask (s.setTask task (Task.new process page)) task).task task).pageDirectory = page := by
  rw [linkTask_pageDirectory, Tasks.setTask_task, if_pos rfl]
  rfl

namespace KernelState
variable {σ σ' : KernelState} {filename : List UInt8} {arguments stale : ℕ} {program : ProgramData} {file : FileState}
  {page : ℕ} {k : KMem} {parameters : ℕ} {k' : KMem}

/-- When the file of the new process has been read, its arguments are a string with a place for
each of them, in no free block. -/
structure ArgumentsRead (k : KMem) (arguments : ℕ) (s : List UInt8) : Prop where
  string : StringAt k.mem arguments s
  short : s.length < 512
  count : s.count 0x20 < zhiosMaxProcessArguments
  outside : k.OutsideFree arguments (s.length + 1)
  below : arguments + s.length < heapAddress + zhiosHeapSizeBytes

theorem ArgumentsRead.room {k : KMem} {s : List UInt8} (h : ArgumentsRead k arguments s) :
    (s.splitOn 0x20).length ≤ zhiosMaxProcessArguments ∧ argumentsSize (s.splitOn 0x20) ≤ zhiosProgramStackSize := by
  have hshort := h.short
  have hcount := h.count
  have hmax : zhiosMaxProcessArguments = 100 := rfl
  rw [argumentsSize, packedSize_splitOn, length_splitOn, stackSize_eq]
  omega

/-- The kernel's heap, wherever it has come to since booting. -/
theorem kernelHeap {k : KMem} (h : bootKmem.SameRegion k) :
    k.heap.startAddress = heapAddress ∧ k.heap.total = 25600 := by
  constructor
  · rw [h.start_eq, bootKmem, (kzalloc_region _ _).start_eq, freshKernelHeap_startAddress]
    rfl
  · rw [h.total_eq, bootKmem, (kzalloc_region _ _).total_eq, freshKernelHeap_total]

/-- The tables of a new task: blocks that were unused in `before` and are in use in `k`. -/
structure TaskTables (before k : KMem) (page : ℕ) (c : Chunk) : Prop where
  separate : c.Separate page
  chunkAt : ChunkAt k.mem page c (identityMap taskPageFlags)
  words : ∀ i < 1024, load32 k.mem (c.directory + 4 * i) = c.table i ||| taskPageFlags ||| pagingIsWritable
  aligned : ∀ a, c.IsBlock page a → a % 4096 = 0
  unused : ∀ a, c.IsBlock page a → before.Unused a
  taken : ∀ a, c.IsBlock page a → ∃ j < k.heap.total, a = k.blockAddress j ∧ ¬ k.heap.FreeAt j
  outside : ∀ a, c.IsBlock page a → k.OutsideFree a 4096

namespace TaskTables
variable {before : KMem} {c : Chunk} {m : Mem} {s : List UInt8} (h : TaskTables before k page c)
include h

theorem freshChunk (hbefore : before.Coherent)
    (hsame : ∀ a, c.IsBlock page a → ∀ x, a ≤ x → x < a + 4096 → m x = k.mem x) :
    FreshChunk m page c ∧
      ∀ i < 1024, load32 m (c.directory + 4 * i) = c.table i ||| taskPageFlags ||| pagingIsWritable := by
  refine ⟨⟨h.separate, fun a ha => ⟨h.aligned a ha, (h.unused a ha).fits hbefore⟩, ?_⟩, fun i hi => ?_⟩
  · exact h.chunkAt.congr fun a ha j hj => load32_congr fun x hlo hhi => hsame a ha x (by omega) (by omega)
  · rw [← h.words i hi]
    exact load32_congr fun x hlo hhi => hsame _ (Or.inr (Or.inl rfl)) x (by omega) (by omega)

variable (hk : k.Coherent) (hstack : (kzalloc k zhiosProgramStackSize).1 ≠ 0)
include hk hstack

theorem stack_apart (a : ℕ) (ha : c.IsBlock page a) : a + 4096 ≤ (kzalloc k zhiosProgramStackSize).1 ∨
    (kzalloc k zhiosProgramStackSize).1 + zhiosProgramStackSize ≤ a := by
  obtain ⟨j, hj, rfl, hused⟩ := h.taken a ha
  exact hk.kzalloc_apart (by decide) hstack hj hused

theorem stackBlock (hregion : bootKmem.SameRegion k) : StackBlock page c (kzalloc k zhiosProgramStackSize).1 := by
  obtain ⟨hstart, htotal⟩ := kernelHeap hregion
  obtain ⟨i, hi, hlt, -⟩ := hk.unused_kzalloc hstack
  have hheap : heapAddress = 0x1000000 := rfl
  have hsize := stackSize_eq
  rw [KMem.blockAddress, hstart] at hi
  exact ⟨hk.kzalloc_aligned (by rw [hstart]; rfl) _, by omega, h.stack_apart hk hstack⟩

/-- The tables, when the arguments have been copied. -/
theorem kept {params buffer : ℕ} (hread : before.OutsideFree arguments (s.length + 1))
    (hcopied : ArgumentsCopied (kzalloc k zhiosProgramStackSize).2 k' arguments s params buffer) (a : ℕ)
    (ha : c.IsBlock page a) (x : ℕ) (hlo : a ≤ x) (hhi : x < a + 4096) : k'.mem x = k.mem x := by
  have happart := h.stack_apart hk hstack a ha
  have hone := h.outside a ha params (hk.unused_of_kzalloc hcopied.paramsUnused)
  have htwo := h.outside a ha buffer (hk.unused_of_kzalloc hcopied.argumentsUnused)
  have htext := hread a (h.unused a ha)
  rw [hcopied.frame x (by omega) (by omega) (by omega), kzalloc_mem hstack, fill_outside _ _ (by omega)]

theorem parametersReady {params buffer : ℕ} (hread : ArgumentsRead before arguments s)
    (hcopied : ArgumentsCopied (kzalloc k zhiosProgramStackSize).2 k' arguments s params buffer) :
    ParametersReady k'.mem page c (kzalloc k zhiosProgramStackSize).1 params s := by
  have hshort := hread.short
  have hrecord : sizeofProcessParameters = 408 := rfl
  have hstackFree := hk.kzalloc_outsideFree (by decide) hstack
  have hblocks : 4096 * blocksFor zhiosProgramStackSize = zhiosProgramStackSize := by decide
  rw [hblocks] at hstackFree
  refine ⟨hread.room.1, hread.room.2, buffer, hcopied.argumentsAt, ⟨?_, ?_⟩, fun a ha => ?_⟩
  · have hone := hstackFree params hcopied.paramsUnused
    omega
  · have htwo := hstackFree buffer hcopied.argumentsUnused
    rw [packedSize_splitOn]
    omega
  · have hone := h.outside a ha params (hk.unused_of_kzalloc hcopied.paramsUnused)
    have htwo := h.outside a ha buffer (hk.unused_of_kzalloc hcopied.argumentsUnused)
    rw [packedSize_splitOn]
    omega

end TaskTables

/-- The argument string is still there when the tables and the stack have been allocated. -/
theorem ArgumentsRead.after_stack {before : KMem} {s : List UInt8} (h : ArgumentsRead before arguments s)
    (hwithin : before.Within k) (hregion : bootKmem.SameRegion k) (hstack : (kzalloc k zhiosProgramStackSize).1 ≠ 0) :
    StringAt (kzalloc k zhiosProgramStackSize).2.mem arguments s ∧
      (kzalloc k zhiosProgramStackSize).2.OutsideFree arguments (s.length + 1) := by
  obtain ⟨hstart, htotal⟩ := kernelHeap hregion
  refine ⟨h.string.congr fun x hlo hhi => ?_, fun a ha =>
    h.outside a (hwithin.unused a (hwithin.coherent.unused_of_kzalloc ha))⟩
  have hfree : ∀ a, before.Unused a → x < a ∨ a + 4096 ≤ x := fun a ha => by
    have ha := h.outside a ha
    omega
  have hend : zhiosHeapSizeBytes = 4096 * 25600 := rfl
  have hbelow := h.below
  have happart := hwithin.coherent.kzalloc_outside (by decide) hstack (x := x) (by omega) fun a ha =>
    hfree a (hwithin.unused a ha)
  have hblocks : 4096 * blocksFor zhiosProgramStackSize = zhiosProgramStackSize := by decide
  rw [hblocks] at happart
  rw [kzalloc_mem hstack, fill_outside _ _ happart]
  exact hwithin.outside x hfree

theorem initArguments_copied {k k' : KMem} {s : List UInt8} (hk : k.Coherent) (hargs : arguments ≠ 0)
    (hstring : StringAt k.mem arguments s) (hshort : s.length < 512) (hcount : s.count 0x20 < zhiosMaxProcessArguments)
    (hout : k.OutsideFree arguments (s.length + 1)) (h : initArguments k arguments = some (parameters, k')) :
    ∃ buffer, ArgumentsCopied k k' arguments s parameters buffer := by
  rw [initArguments, if_neg hargs] at h
  have hserved : (kzalloc k sizeofProcessParameters).1 ≠ 0 ∧
      (kzalloc (kzalloc k sizeofProcessParameters).2 512).1 ≠ 0 := by
    unfold processInitArguments at h
    simp only [] at h
    split_ifs at h with hfailed
    push Not at hfailed
    exact ⟨hfailed.1, hfailed.2.1⟩
  obtain ⟨k'', hrun, hcopied⟩ := processInitArguments_spec hk hstring hshort hcount hout hserved.1 hserved.2
  rw [hrun] at h
  cases h
  exact ⟨_, hcopied⟩

theorem initArguments_ne_zero {k k' : KMem} (hargs : arguments ≠ 0)
    (h : initArguments k arguments = some (parameters, k')) : parameters ≠ 0 := by
  rw [initArguments, if_neg hargs] at h
  unfold processInitArguments at h
  simp only [] at h
  split_ifs at h with hfailed
  push Not at hfailed
  cases h
  exact hfailed.1

section Space
variable (h : σ.Acquires filename arguments stale program file page k parameters k')
  (hbooted : σ.file.kmem.Booted)
include h hbooted

theorem Acquires.aligned : program.Aligned := by
  obtain ⟨hloaded, hprogram, -, -⟩ := h.heap hbooted
  have hregion := hloaded.keeps.region
  have hfits := hloaded.keeps.coherent.fits
  have hstart := hbooted.start_aligned
  cases program with
  | elf file => exact trivial
  | binary ptr size =>
    refine ⟨?_, ?_, loadData_size h.load⟩
    all_goals
      rcases hprogram ptr (by simp [ProgramData.pointers]) with rfl | ⟨b, rfl, hb⟩
      · decide
      · have hlt := hb.lt
        have hstartEq := hregion.start_eq
        unfold KMem.blockAddress
        omega

theorem Acquires.within : file.kmem.Within k := by
  have hfile := (h.heap hbooted).loaded.keeps.coherent
  exact (KMem.Within.kzalloc hfile (by decide)).trans (.pagingNewChunk (hfile.kzalloc sizeofTask) h.chunk)

theorem Acquires.region (hregion : bootKmem.SameRegion σ.file.kmem) : bootKmem.SameRegion k := by
  obtain ⟨hloaded, -, ⟨blocks, -, htakes⟩, -⟩ := h.heap hbooted
  exact (hregion.trans hloaded.keeps.region).trans htakes.keeps.region

theorem Acquires.taskTables : ∃ c, TaskTables file.kmem k page c := by
  obtain ⟨hloaded, -, ⟨blocks, -, htakes⟩, -⟩ := h.heap hbooted
  have hfile := hloaded.keeps.coherent
  have hregion := htakes.keeps.region
  obtain ⟨c, hseparate, hat, hchunk, hwords⟩ := pagingNewChunk_fresh (hfile.kzalloc sizeofTask)
    (by rw [(kzalloc_region _ _).start_eq, hloaded.keeps.region.start_eq, hbooted.start_aligned]) (by decide) h.chunk
  have hunused : ∀ a, c.IsBlock page a → file.kmem.Unused a := fun a ha => hfile.unused_of_kzalloc (hchunk a ha).1
  refine ⟨c, hseparate, hat, hwords, fun a ha => (hchunk a ha).2.2, hunused, fun a ha => ?_,
    fun a ha => (hchunk a ha).2.1⟩
  obtain ⟨j, rfl, hj, -⟩ := hunused a ha
  refine ⟨j, by rwa [hregion.total_eq], (hregion.blockAddress j).symm, fun hfree => ?_⟩
  have hself := (hchunk _ ha).2.1 _ ⟨j, rfl, by rwa [hregion.total_eq], hfree⟩
  rw [hregion.blockAddress] at hself
  omega

/-- The chunk of the task when everything has been acquired, and how it lies to the rest. -/
theorem Acquires.space (hregion : bootKmem.SameRegion σ.file.kmem) {s : List UInt8}
    (hargs : arguments ≠ 0 → ArgumentsRead file.kmem arguments s) :
    ∃ c, FreshChunk k'.mem page c ∧ StackBlock page c (kzalloc k zhiosProgramStackSize).1 ∧
      (∀ a, c.IsBlock page a → file.kmem.Unused a) ∧
      (∀ i < 1024, load32 k'.mem (c.directory + 4 * i) = c.table i ||| taskPageFlags ||| pagingIsWritable) ∧
      (parameters ≠ 0 → ParametersReady k'.mem page c (kzalloc k zhiosProgramStackSize).1 parameters s) := by
  have hfile := (h.heap hbooted).loaded.keeps.coherent
  have hwithin := h.within hbooted
  have hk := hwithin.coherent
  obtain ⟨c, htables⟩ := h.taskTables hbooted
  have hstackBlock := htables.stackBlock hk h.stack (h.region hbooted hregion)
  by_cases hnull : arguments = 0
  · have hargsCall := h.arguments
    rw [initArguments, if_pos hnull] at hargsCall
    cases hargsCall
    obtain ⟨hfresh, hwords⟩ := htables.freshChunk (m := (kzalloc k _).2.mem) hfile fun a ha x hlo hhi => by
      have happart := htables.stack_apart hk h.stack a ha
      rw [kzalloc_mem h.stack, fill_outside _ _ (by omega)]
    exact ⟨c, hfresh, hstackBlock, htables.unused, hwords, fun hne => absurd rfl hne⟩
  · have hread := hargs hnull
    obtain ⟨hstring, hout⟩ := hread.after_stack hwithin (h.region hbooted hregion) h.stack
    obtain ⟨buffer, hcopied⟩ := initArguments_copied (hk.kzalloc zhiosProgramStackSize) hnull hstring hread.short
      hread.count hout h.arguments
    obtain ⟨hfresh, hwords⟩ := htables.freshChunk hfile (htables.kept hk h.stack hread.outside hcopied)
    exact ⟨c, hfresh, hstackBlock, htables.unused, hwords,
      fun _ => htables.parametersReady hk h.stack hread hcopied⟩

/-- What the new process is given besides its program leaves a block in use alone. -/
theorem Acquires.kept (hnull : arguments = 0) {b : ℕ} (hb : b < file.kmem.heap.total)
    (hused : ¬ file.kmem.heap.FreeAt b) {x : ℕ} (hlo : file.kmem.blockAddress b ≤ x)
    (hhi : x < file.kmem.blockAddress b + 4096) : k'.mem x = file.kmem.mem x := by
  obtain ⟨-, -, ⟨blocks, -, htakes⟩, -⟩ := h.heap hbooted
  have hregion := htakes.keeps.region
  have hwithin := h.within hbooted
  have houtside : ∀ a, file.kmem.Unused a → x < a ∨ a + 4096 ≤ x := by
    rintro a ⟨i, rfl, -, hfree⟩
    have hne : i ≠ b := by
      rintro rfl
      exact hused hfree
    unfold KMem.blockAddress at hlo hhi ⊢
    omega
  have hend : x < k.heap.startAddress + 4096 * k.heap.total := by
    rw [hregion.start_eq, hregion.total_eq]
    unfold KMem.blockAddress at hhi
    omega
  have happart := hwithin.coherent.kzalloc_outside (by decide) h.stack hend fun a ha =>
    houtside a (hwithin.unused a ha)
  have hblocks : 4096 * blocksFor zhiosProgramStackSize = zhiosProgramStackSize := by decide
  have hargs := h.arguments
  rw [initArguments, if_pos hnull] at hargs
  cases hargs
  rw [hblocks] at happart
  rw [kzalloc_mem h.stack, fill_outside _ _ happart]
  exact hwithin.outside x houtside

end Space

theorem Acquired.pageDirectory (h : σ.Acquires filename arguments stale program file page k parameters k')
    (hacquired : σ.Acquired program file page k parameters k' σ') :
    (σ'.processes.tasks.task
      (σ'.processes.process (kzalloc σ.file.kmem sizeofProcess).1).task).pageDirectory = page := by
  obtain ⟨i, hi, hfree⟩ := h.slot
  have hslot : getProcessFreeSlot σ.processes ≠ maxProcessReached :=
    fun hmax => (getProcessFreeSlot_eq_max_iff _).mp hmax i hi hfree
  have htables := hacquired.tables
  simp only [Zhios.loadProcess, if_neg hslot, if_neg h.process, if_neg (not_le.mpr program.fileType_pos),
    createTask_eq _ _ _ h.task, Option.map_some, if_neg h.stack, Option.some.injEq, Prod.mk.injEq, true_and] at htables
  have htasks := congrArg Processes.tasks htables
  have hprocess := congrArg Processes.process htables
  simp only at htasks hprocess
  rw [← htasks, ← hprocess]
  simp only [Processes.setProcess, Function.update_self]
  exact linkTask_new_pageDirectory _ _ _ _

theorem loadProcess_mapped {res : ℤ} {process : ℕ}
    (hload : σ.loadProcess filename arguments stale = some (res, process, σ')) (hres : 0 < res) :
    ∃ σ₁, σ.acquireProcess filename arguments stale = some (res, process, σ₁) ∧
      σ'.file = (σ₁.processMapMemory process).2.file ∧ σ'.data = σ₁.data ∧
      σ'.processes.tasks = σ₁.processes.tasks ∧ σ'.processes.process = σ₁.processes.process ∧
      σ'.registers = (σ₁.processMapMemory process).2.registers := by
  obtain ⟨⟨r, p, σ₁⟩, hacquire, heq⟩ := Option.map_eq_some_iff.mp hload
  obtain ⟨-, hprocesses, hdata⟩ := processMapMemory_frame σ₁ p
  simp only [] at heq
  split_ifs at heq with hneg
  · cases heq
    exact absurd hres (not_lt.mpr hneg)
  · cases heq
    have htasks : (σ₁.processMapMemory process).2.processes.tasks = σ₁.processes.tasks := by rw [hprocesses]
    have hprocess : (σ₁.processMapMemory process).2.processes.process = σ₁.processes.process := by rw [hprocesses]
    exact ⟨σ₁, hacquire, rfl, hdata, htasks, hprocess, rfl⟩

/-- The parts that were acquired are determined by the state. -/
theorem Acquires.unique {program₁ : ProgramData} {file₁ : FileState} {page₁ : ℕ} {k₁ : KMem} {parameters₁ : ℕ}
    {k₁' : KMem} (h : σ.Acquires filename arguments stale program file page k parameters k')
    (h₁ : σ.Acquires filename arguments stale program₁ file₁ page₁ k₁ parameters₁ k₁') :
    program = program₁ ∧ file = file₁ ∧ page = page₁ ∧ k = k₁ ∧ parameters = parameters₁ ∧ k' = k₁' := by
  have hload := h.load.symm.trans h₁.load
  cases hload
  have hchunk := h.chunk.symm.trans h₁.chunk
  cases hchunk
  have harguments := h.arguments.symm.trans h₁.arguments
  cases harguments
  exact ⟨rfl, rfl, rfl, rfl, rfl, rfl⟩

/-- The tables of the new process in the end, and what its `main` finds on the stack. -/
theorem Acquires.mapped {σ₁ : KernelState} {res : ℤ} {process : ℕ} {s : List UInt8}
    (h : σ.Acquires filename arguments stale program file page k parameters k') (hbooted : σ.file.kmem.Booted)
    (hregion : bootKmem.SameRegion σ.file.kmem) (hargs : arguments ≠ 0 → ArgumentsRead file.kmem arguments s)
    (hload : σ.loadProcess filename arguments stale = some (res, process, σ')) (hres : 0 < res)
    (hacquire : σ.acquireProcess filename arguments stale = some (res, process, σ₁))
    (hacquired : σ.Acquired program file page k parameters k' σ₁)
    (hprocess : process = (kzalloc σ.file.kmem sizeofProcess).1) :
    (σ'.memory process).pageDirectory = page ∧ (σ'.data process).programData = some program ∧
      (σ'.data process).stack = (kzalloc k zhiosProgramStackSize).1 ∧ ∃ c, FreshChunk σ₁.file.kmem.mem page c ∧
        StackBlock page c (kzalloc k zhiosProgramStackSize).1 ∧ SpaceMapped σ₁.file.kmem.mem σ'.file.kmem.mem page c
          program (kzalloc k zhiosProgramStackSize).1 ∧
        (∀ i < 1024, load32 σ'.file.kmem.mem (c.directory + 4 * i) &&& userFlags = userFlags) ∧
        (arguments ≠ 0 → ArgumentsSeen (virtualMem σ'.file.kmem.mem page)
          (σ'.registers (σ'.processes.process process).task).esp.toNat s) := by
  subst hprocess
  obtain ⟨σ₂, hacquire', hfile, hdata, htasks, hprocesses, hregisters⟩ := loadProcess_mapped hload hres
  obtain rfl : σ₂ = σ₁ := by
    rw [hacquire] at hacquire'
    cases hacquire'
    rfl
  have hpage := Acquired.pageDirectory h hacquired
  obtain ⟨c, hfresh, hstack, -, hwords, hparams⟩ := h.space hbooted hregion hargs
  have hmem : σ₂.file.kmem.mem = k'.mem := by rw [hacquired.files]
  rw [← hmem] at hfresh hparams hwords
  obtain ⟨hmapped, hseen⟩ := processMapMemory_mapped rfl hpage hacquired.data hfresh (h.aligned hbooted) hstack
    hparams
  refine ⟨by rw [KernelState.memory, htasks, hprocesses]; exact hpage, by rw [hdata, hacquired.data],
    by rw [hdata, hacquired.data], c, hfresh, hstack, by rw [hfile]; exact hmapped, fun i hi => ?_, fun hne => ?_⟩
  · rw [hfile, hmapped.directory i hi, hwords i hi]
    exact directoryWord_userFlags (hfresh.block _ (Or.inr (Or.inr ⟨i, hi, rfl⟩))).1
  · rw [hfile, hregisters, hprocesses]
    exact hseen (initArguments_ne_zero hne h.arguments)

/-- The argument string is still there when the file of the new process has been read. -/
def ArgumentsKept (σ : KernelState) (filename : List UInt8) (arguments stale : ℕ) : Prop :=
  ∀ r ∈ loadData { σ.file with kmem := (kzalloc σ.file.kmem sizeofProcess).2 } filename stale,
    ∃ s, ArgumentsRead r.2.kmem arguments s

end KernelState

end Zhios
