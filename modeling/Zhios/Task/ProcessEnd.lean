import Zhios.Task.LoadContract

/-! Ending a process. What a load acquired is given back by five functions, none of
which gives back the record of the task. -/
namespace Zhios
open Machine

/-- What a process works on, over a heap in which nothing that it may release leads to
the blocks. -/
structure ProcessMemory.Guarded (k₀ : KMem) (blocks : Finset ℕ) (p : ProcessMemory) : Prop where
  heap : k₀.Guards p.k blocks
  slots : ∀ j, k₀.Misses blocks (p.allocations j).ptr

namespace ProcessMemory.Guarded
variable {k₀ : KMem} {blocks : Finset ℕ} {p : ProcessMemory}

theorem malloc (h : p.Guarded k₀ blocks) (h₀ : k₀.Coherent) (haligned : k₀.heap.startAddress % 4096 = 0)
    (size : ℕ) : (processMalloc p size).2.Guarded k₀ blocks := by
  obtain ⟨hheap, hmisses⟩ := h.heap.kzalloc h₀ haligned size
  unfold processMalloc
  dsimp only
  split_ifs
  · exact h
  · exact ⟨hheap, h.slots⟩
  · exact ⟨(hheap.withMem _).kfree hmisses, h.slots⟩
  · refine ⟨hheap.withMem _, fun j => ?_⟩
    simp only [Function.update_apply]
    split_ifs
    · exact hmisses
    · exact h.slots j

theorem free (h : p.Guarded k₀ blocks) (h₀ : k₀.Coherent) (haligned : k₀.heap.startAddress % 4096 = 0) (ptr : ℕ) :
    (processFreeAllocation p ptr).Guarded k₀ blocks := by
  rcases findAllocation_slot p ptr with ⟨-, hmissing⟩ | ⟨j, hfind, hlt, rfl⟩
  · rwa [processFreeAllocation_missing hmissing]
  · unfold processFreeAllocation
    dsimp only
    split_ifs
    · exact h
    · refine ⟨(h.heap.withMem _).kfree (h.slots j), fun i => ?_⟩
      simp only [Function.update_apply]
      split_ifs
      · exact h₀.misses_null haligned h.heap.lt
      · exact h.slots i

theorem exec (h : p.Guarded k₀ blocks) (h₀ : k₀.Coherent) (haligned : k₀.heap.startAddress % 4096 = 0)
    (op : ProcessOp) : (p.exec op).Guarded k₀ blocks := by
  cases op with
  | malloc size => exact h.malloc h₀ haligned size
  | free ptr => exact h.free h₀ haligned ptr

theorem freeAllocations (h : p.Guarded k₀ blocks) (h₀ : k₀.Coherent) (haligned : k₀.heap.startAddress % 4096 = 0)
    (fuel i : ℕ) : (freeAllocationsLoop fuel i p).Guarded k₀ blocks := by
  induction fuel generalizing i p with
  | zero => exact h
  | succ fuel ih => exact ih (h.free h₀ haligned _) (i + 1)

theorem freeAllAllocations (h : p.Guarded k₀ blocks) (h₀ : k₀.Coherent)
    (haligned : k₀.heap.startAddress % 4096 = 0) : (processFreeAllAllocations p).Guarded k₀ blocks :=
  h.freeAllocations h₀ haligned zhiosProcessMaxAllocations 0

end ProcessMemory.Guarded

theorem KMem.Guards.initArguments {k₀ k k' : KMem} {blocks : Finset ℕ} {arguments parameters : ℕ}
    (h : k₀.Guards k blocks) (h₀ : k₀.Coherent) (haligned : k₀.heap.startAddress % 4096 = 0)
    (hargs : KernelState.initArguments k arguments = some (parameters, k')) :
    k₀.Guards k' blocks ∧ k₀.Misses blocks parameters := by
  unfold KernelState.initArguments at hargs
  split_ifs at hargs
  · cases hargs
    exact ⟨h, h₀.misses_null haligned h.lt⟩
  · unfold processInitArguments at hargs
    dsimp only at hargs
    split_ifs at hargs
    cases hargs
    obtain ⟨hfirst, hmisses⟩ := h.kzalloc h₀ haligned sizeofProcessParameters
    exact ⟨(hfirst.kzalloc h₀ haligned 512).1.withMem _, hmisses⟩

theorem KMem.Guards.loaderFreeData {k₀ k : KMem} {blocks : Finset ℕ} (h : k₀.Guards k blocks) (program : ProgramData)
    (hprogram : ∀ p ∈ program.pointers, k₀.Misses blocks p) : k₀.Guards (Zhios.loaderFreeData k program) blocks := by
  cases program with
  | binary ptr size => exact h.kfree (hprogram ptr (by simp [ProgramData.pointers]))
  | elf file =>
    simp only [Zhios.loaderFreeData, elfClose]
    split_ifs
    · exact h
    · exact (h.kfree (hprogram file.elfMemory (by simp [ProgramData.pointers]))).kfree
        (hprogram file.address (by simp [ProgramData.pointers]))

/-- The blocks of the allocation that starts at `ptr`. -/
def Heap.AllocatedAt (heap : Heap) (ptr b : ℕ) : Prop :=
  ptr ≠ 0 ∧ ∃ s : ℕ, addressToHeapBlock heap ptr = s ∧ s ≤ b ∧ b < heap.total ∧ ¬ heap.FreeAt b ∧
    ∀ i, s ≤ i → i < b → heap.GoesOn i

namespace KernelState
variable {σ σ₁ σ₂ : KernelState} {filename : List UInt8} {arguments stale : ℕ} {res : ℤ} {process : ℕ}

/-- Calls that the process makes between its start and its end. -/
def run (σ : KernelState) (process : ℕ) (ops : List ProcessOp) : KernelState :=
  ops.foldl (fun σ op => σ.exec process op) σ

/-- The heap when the file of the new process has been read. -/
def heapAfterRead (σ : KernelState) (filename : List UInt8) (stale : ℕ) : Option Heap :=
  (loadData { σ.file with kmem := (kzalloc σ.file.kmem sizeofProcess).2 } filename stale).map (·.2.kmem.heap)

/-- The heap and the records of a process none of whose pointers leads to the blocks. -/
structure Guarded (k₀ : KMem) (blocks : Finset ℕ) (process : ℕ) (σ : KernelState) : Prop where
  memory : (σ.memory process).Guarded k₀ blocks
  record : k₀.Misses blocks process
  stack : k₀.Misses blocks (σ.data process).stack
  parameters : k₀.Misses blocks (σ.data process).parameters
  program : ∀ program ∈ (σ.data process).programData, ∀ p ∈ program.pointers, k₀.Misses blocks p

namespace Guarded
variable {k₀ : KMem} {blocks : Finset ℕ}

theorem setMemory (h : σ.Guarded k₀ blocks process) {p : ProcessMemory} (hp : p.Guarded k₀ blocks) :
    (σ.setMemory process p).Guarded k₀ blocks process := by
  unfold KernelState.setMemory
  refine ⟨⟨hp.heap, fun j => ?_⟩, h.record, ?_, ?_, ?_⟩
  · simp only [KernelState.memory, setData_self]
    exact hp.slots j
  · simp only [setData_self]
    exact h.stack
  · simp only [setData_self]
    exact h.parameters
  · simp only [setData_self]
    exact h.program

theorem run (h : σ.Guarded k₀ blocks process) (h₀ : k₀.Coherent) (haligned : k₀.heap.startAddress % 4096 = 0)
    (ops : List ProcessOp) : (σ.run process ops).Guarded k₀ blocks process := by
  induction ops generalizing σ with
  | nil => exact h
  | cons op ops ih => exact ih (h.setMemory (h.memory.exec h₀ haligned op))

/-- What is released after the allocations of the process and its program. -/
theorem release (h : σ.Guarded k₀ blocks process) {page : ℕ} {k : KMem}
    (hk : k = freePage ((σ.data process).programData.elim σ.file.kmem (loaderFreeData σ.file.kmem)) page) :
    ∃ left ⊆ blocks, blocks.card ≤ left.card + 1026 ∧
      k₀.Guards (kfree (if (σ.data process).parameters = 0 then kfree k (σ.data process).stack
        else kfree (kfree k (σ.data process).stack) (σ.data process).parameters) process) left := by
  have hprogram : k₀.Guards ((σ.data process).programData.elim σ.file.kmem (loaderFreeData σ.file.kmem)) blocks := by
    cases hdata : (σ.data process).programData with
    | none => exact h.memory.heap
    | some program => exact h.memory.heap.loaderFreeData program (h.program program hdata)
  obtain ⟨left, hleft, hcard, hpage⟩ := hprogram.freePage page
  rw [← hk] at hpage
  refine ⟨left, hleft, hcard, ?_⟩
  have hstack := hpage.kfree (h.stack.mono hleft)
  split_ifs
  · exact hstack.kfree (h.record.mono hleft)
  · exact (hstack.kfree (h.parameters.mono hleft)).kfree (h.record.mono hleft)

/-- The releases of the page directory are the only ones that can reach the blocks, and
they are one short. -/
theorem processFree (h : σ.Guarded k₀ blocks process) (h₀ : k₀.Coherent)
    (haligned : k₀.heap.startAddress % 4096 = 0) : ∃ left ⊆ blocks, blocks.card ≤ left.card + 1026 ∧
      k₀.Guards (σ.processFree process).file.kmem left := by
  have hfreed := h.setMemory (h.memory.freeAllAllocations h₀ haligned)
  rw [KernelState.processFree]
  generalize σ.setMemory process (processFreeAllAllocations (σ.memory process)) = σ at hfreed ⊢
  exact hfreed.release rfl

end Guarded

/-- A process that was just loaded: its task and page directory are a thousand and
twenty-seven blocks that were free when its file had been read. -/
theorem loadProcess_guarded (hbooted : σ.Booted)
    (hload : σ.loadProcess filename arguments stale = some (res, process, σ₁)) (hres : 0 < res) :
    ∃ k₀ blocks, k₀.Coherent ∧ k₀.heap.startAddress % 4096 = 0 ∧
      σ.heapAfterRead filename stale = some k₀.heap ∧ blocks.card = 1027 ∧ (∀ b ∈ blocks, k₀.heap.FreeAt b) ∧
      σ₁.Guarded k₀ blocks process := by
  obtain ⟨σ', hacquire, -, hpos⟩ := loadProcess_outcome hload
  have hout := acquireProcess_outcome hacquire
  have hslot : ¬ σ.Full := by
    intro hfull
    rw [loadProcess_full hfull] at hload
    cases hload
    exact absurd hres (by decide)
  have hheap := hbooted (hout.mounted hslot)
  obtain ⟨rfl, program, file, page, k, parameters, k', hacquires, hacquired⟩ := hout.of_nonneg hheap hres.le
  obtain ⟨hloaded, hprogram, ⟨ptrs, hlength, htakes⟩, -⟩ := hacquires.heap hheap
  have hcoherent := hloaded.keeps.coherent
  have haligned : file.kmem.heap.startAddress % 4096 = 0 := by
    rw [hloaded.keeps.region.start_eq]
    exact hheap.start_aligned
  have hfirst : ¬ file.kmem.heap.FreeAt (0 : ℕ) := by
    apply KMem.Held.not_freeAt
    rw [hloaded.keeps.region.blockAddress]
    exact hloaded.keeps.held _ hheap.first
  obtain ⟨blocks, hcard, hguards, hfree⟩ := htakes.guards hfirst
  obtain ⟨hstack, hstackMisses⟩ := hguards.kzalloc hcoherent haligned zhiosProgramStackSize
  obtain ⟨hargs, hparameters⟩ := hstack.initArguments hcoherent haligned hacquires.arguments
  have hnull := hcoherent.misses_null haligned hguards.lt
  have hdata : σ₁.data _ = _ := (congrFun (hpos hres).2.1 _).trans hacquired.data
  refine ⟨file.kmem, blocks, hcoherent, haligned, ?_, hcard.trans hlength, hfree, ⟨?_, fun j => ?_⟩, ?_, ?_, ?_, ?_⟩
  · rw [heapAfterRead, hacquires.load, Option.map_some]
  · apply hargs.ofHeap
    rw [memory, (hpos hres).1, hacquired.files]
  · simp only [memory, hdata]
    exact hnull
  · exact (hloaded.held _ (by simp)).misses hcoherent hfree
  · rw [hdata]
    exact hstackMisses
  · rw [hdata]
    exact hparameters
  · rw [hdata]
    rintro _ ⟨⟩ p hp
    rcases hprogram p hp with rfl | hheld
    · exact hnull
    · exact hheld.misses hcoherent hfree

/-- A block that the load took is not free after the process has ended. -/
theorem processFree_leaks (hbooted : σ.Booted)
    (hload : σ.loadProcess filename arguments stale = some (res, process, σ₁)) (hres : 0 < res)
    (ops : List ProcessOp) : ∃ heap b, σ.heapAfterRead filename stale = some heap ∧
      b < (σ₁.run process ops).file.kmem.heap.total ∧ heap.FreeAt (b : ℕ) ∧ ¬ σ₁.file.kmem.heap.FreeAt b ∧
      ¬ ((σ₁.run process ops).processFree process).file.kmem.heap.FreeAt b := by
  obtain ⟨k₀, blocks, h₀, haligned, hread, hcard, hfree, hguarded⟩ := loadProcess_guarded hbooted hload hres
  have hrun := hguarded.run h₀ haligned ops
  obtain ⟨left, hleft, hreleased, hguards⟩ := hrun.processFree h₀ haligned
  obtain ⟨b, hb⟩ : left.Nonempty := by
    rw [← Finset.card_pos]
    omega
  exact ⟨k₀.heap, b, hread, (hrun.memory.heap.pinned b (hleft hb)).lt, hfree b (hleft hb),
    (hguarded.memory.heap.pinned b (hleft hb)).taken, (hguards.pinned b hb).taken⟩

/-- The blocks that belong to a process when it ends: those that the load took after
reading the file, its record and its program, and what it allocated since. -/
inductive Owns (σ σ₁ σ₂ : KernelState) (filename : List UInt8) (stale process : ℕ) : ℕ → Prop
  | taken (heap : Heap) (b : ℕ) (hread : σ.heapAfterRead filename stale = some heap) (hfree : heap.FreeAt b)
      (htaken : ¬ σ₁.file.kmem.heap.FreeAt b) : Owns σ σ₁ σ₂ filename stale process b
  | record (b : ℕ) (hb : σ₁.file.kmem.heap.AllocatedAt process b) : Owns σ σ₁ σ₂ filename stale process b
  | image (program : ProgramData) (p b : ℕ) (hprogram : (σ₁.data process).programData = some program)
      (hp : p ∈ program.pointers) (hb : σ₁.file.kmem.heap.AllocatedAt p b) : Owns σ σ₁ σ₂ filename stale process b
  | outstanding (j b : ℕ) (hj : (σ₂.memory process).Live j)
      (hb : σ₂.file.kmem.heap.AllocatedAt ((σ₂.data process).allocations j).ptr b) :
      Owns σ σ₁ σ₂ filename stale process b

/-- `process_free` gives back what belongs to the process, and nothing else. -/
def EndsClean (σ σ₁ σ₂ : KernelState) (filename : List UInt8) (stale process : ℕ) : Prop :=
  ∀ b < σ₂.file.kmem.heap.total,
    (Owns σ σ₁ σ₂ filename stale process b → (σ₂.processFree process).file.kmem.heap.FreeAt b) ∧
    (¬ Owns σ σ₁ σ₂ filename stale process b →
      (σ₂.processFree process).file.kmem.heap.entry b = σ₂.file.kmem.heap.entry b)

/-- Whatever was loaded and whatever the process did, its end is not clean. -/
theorem processFree_not_endsClean (σ : KernelState) (hbooted : σ.Booted) (filename : List UInt8) (arguments stale : ℕ)
    (res : ℤ) (process : ℕ) (σ₁ : KernelState)
    (hload : σ.loadProcess filename arguments stale = some (res, process, σ₁)) (hres : 0 < res) (ops : List ProcessOp) :
    ¬ σ.EndsClean σ₁ (σ₁.run process ops) filename stale process := by
  obtain ⟨heap, b, hread, hlt, hfree, htaken, hleft⟩ := processFree_leaks hbooted hload hres ops
  intro hclean
  have hfreed := (hclean b hlt).1 (.taken heap b hread hfree htaken)
  exact hleft hfreed

end KernelState

theorem processFree_not_endsClean_bss : ∃ res process σ₁,
    (KernelState.boot bssDisk).loadProcess oneFilePath 0 0 = some (res, process, σ₁) ∧
      ¬ (KernelState.boot bssDisk).EndsClean σ₁ (σ₁.run process [.malloc 4096]) oneFilePath 0 process := by
  obtain ⟨file, s', page, k, k', hacquires, -⟩ := bssElf_acquires
  obtain ⟨σ₁, hload⟩ := hacquires.loadProcess
  refine ⟨_, _, σ₁, hload, ?_⟩
  apply KernelState.processFree_not_endsClean _ (KernelState.boot_booted bssDisk) oneFilePath 0 0 _ _ _ hload
  exact ProgramData.fileType_pos _

/-- A process ends at once, and a block that its load took stays taken. -/
theorem bssElf_process_leaks : ∃ res process σ₁,
    (KernelState.boot bssDisk).loadProcess oneFilePath 0 0 = some (res, process, σ₁) ∧ 0 < res ∧
      (∃ heap b, (KernelState.boot bssDisk).heapAfterRead oneFilePath 0 = some heap ∧ heap.FreeAt (b : ℕ) ∧
        ¬ σ₁.file.kmem.heap.FreeAt b ∧ ¬ (σ₁.processFree process).file.kmem.heap.FreeAt b) ∧
      ¬ (KernelState.boot bssDisk).EndsClean σ₁ σ₁ oneFilePath 0 process := by
  obtain ⟨file, s', page, k, k', hacquires, -⟩ := bssElf_acquires
  obtain ⟨σ₁, hload⟩ := hacquires.loadProcess
  have hleaks := KernelState.processFree_leaks (KernelState.boot_booted bssDisk) hload (ProgramData.fileType_pos _) []
  obtain ⟨heap, b, hread, hlt, hfree, htaken, hleft⟩ := hleaks
  refine ⟨_, _, σ₁, hload, ProgramData.fileType_pos _, ⟨heap, b, hread, hfree, htaken, hleft⟩, fun hclean => ?_⟩
  have hfreed := (hclean b hlt).1 (.taken heap b hread hfree htaken)
  exact hleft hfreed

end Zhios
