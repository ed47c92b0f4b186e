import Zhios.Task.ProcessMapping
import Zhios.Task.LoadFailure

/-! What a load promises: one that fails leaves the kernel as it was, and one that succeeds has
its process registered and its image, its stack and its arguments mapped. -/
namespace Zhios
open Machine

/-- The entry that the header asks for at page `P`. -/
def ElfProgramHeader.entry (h : ElfProgramHeader) (elfMemory P : ℕ) : ℕ :=
  4096 * h.frame elfMemory P ||| pheaderFlags h

/-- The entry that a binary's loader asks for. -/
def binaryEntry (ptr P : ℕ) : ℕ := 4096 * ((ptr / 4096 + pageIndex 0x400 P) % 2 ^ 20) ||| 7

namespace ProgramData
variable (program : ProgramData) (m : Mem) (page stack : ℕ)

/-- Some byte of the image lies on page `P`. -/
def Touches (P : ℕ) : Prop :=
  match program with
  | .elf file => ∃ h ∈ elfPheaders m page file.elfMemory, h.isLoad ∧ h.Touches P
  | .binary _ size => ∃ k < size, uint32 (zhiosProgramVirtualAddress + k) / 4096 = P

/-- A range that is mapped for a part of the image on page `P` includes the page, and gives it
the entry `e`. -/
def Asks (P e : ℕ) : Prop :=
  match program with
  | .elf file => ∃ h ∈ elfPheaders m page file.elfMemory, (h.isLoad ∧ h.Touches P) ∧ h.covers P ∧
      h.entry file.elfMemory P = e
  | .binary ptr size => (∃ k < size, uint32 (zhiosProgramVirtualAddress + k) / 4096 = P) ∧
      pageIndex 0x400 P < pagesFor size ∧ binaryEntry ptr P = e

/-- What the last range that includes page `P` gives it. The stack's range, of five pages, is
mapped after those of the image. -/
def lastEntry (P : ℕ) : Option ℕ :=
  if StackPage P then some (4096 * (stack / 4096 + (P - 0x3FB)) ||| 7) else
    match program with
    | .elf file => (coveringHeader (elfPheaders m page file.elfMemory) P).map (·.entry file.elfMemory P)
    | .binary ptr size => if pageIndex 0x400 P < pagesFor size then some (binaryEntry ptr P) else none

/-- Each page of the image is included in some range, and the last one was mapped for what the
image has on that page. -/
def Fits : Prop :=
  ∀ P < 2 ^ 20, program.Touches m page P → ∃ e ∈ program.lastEntry m page stack P, program.Asks m page P e

variable {program m page stack} {P : ℕ}

theorem lastEntry_eq_some {e : ℕ} (h : program.lastEntry m page stack P = some e) :
    (4096 * spaceFrame program m page stack P ||| if spaceWritable program m page P then 7 else 5) = e := by
  unfold lastEntry at h
  unfold spaceFrame spaceWritable
  split_ifs at h with hstack
  · cases h
    rw [if_pos hstack, decide_eq_true hstack, Bool.true_or, if_pos rfl]
  · rw [if_neg hstack, decide_eq_false hstack, Bool.false_or]
    cases program with
    | elf file =>
      obtain ⟨header, hcovering, rfl⟩ := Option.map_eq_some_iff.mp h
      rw [ElfProgramHeader.entry, pheaderFlags_eq, frame, writable, elfFrame, elfWritable, hcovering,
        Option.elim_some, Option.elim_some]
    | binary ptr size =>
      dsimp only at h
      split_ifs at h with hcovers
      cases h
      rw [frame, writable, if_pos hcovers, decide_eq_true hcovers, if_pos rfl, binaryEntry]

/-- A page that no range includes is left as it is in a new chunk. -/
theorem not_asks_of_lastEntry (h : program.lastEntry m page stack P = none) (e : ℕ) : ¬ program.Asks m page P e := by
  unfold lastEntry at h
  split_ifs at h with hstack
  cases program with
  | elf file =>
    rintro ⟨header, hmem, -, hcovers, -⟩
    have hnone := lastMatch_eq_none_iff.mp (Option.map_eq_none_iff.mp h) header hmem
    exact hnone hcovers
  | binary ptr size =>
    rintro ⟨-, hcovers, -⟩
    dsimp only at h
    rw [if_pos hcovers] at h
    cases h

theorem asks_iff : program.Asks m page P
      (4096 * spaceFrame program m page stack P ||| if spaceWritable program m page P then 7 else 5) ↔
    ∃ e ∈ program.lastEntry m page stack P, program.Asks m page P e := by
  constructor
  · intro hasks
    cases hlast : program.lastEntry m page stack P with
    | none => exact absurd hasks (not_asks_of_lastEntry hlast _)
    | some e =>
      rw [lastEntry_eq_some hlast] at hasks
      exact ⟨e, rfl, hasks⟩
  · rintro ⟨e, hlast, hasks⟩
    rw [lastEntry_eq_some hlast]
    exact hasks

end ProgramData

/-- The tables of a process map its image and its stack, for user code: `m` is memory before the
mapping, and `m'` after it. -/
structure Established (m m' : Mem) (page stack : ℕ) (program : ProgramData) : Prop where
  directory : ∀ v < 2 ^ 32,
    load32 m' (pagingGetDirectory m' page + 4 * (pagingGetIndex v).1) &&& userFlags = userFlags
  image : ∀ P < 2 ^ 20, program.Touches m page P →
    program.Asks m page P (getPage m' (pagingGetDirectory m' page) (4096 * P))
  stack : ∀ i < 4, getPage m' (pagingGetDirectory m' page) (zhiosProgramVirtualStackAddressEnd + 4096 * i) =
    stack + 4096 * i ||| userFlags

theorem SpaceMapped.established_iff {m m' : Mem} {page stack : ℕ} {c : Chunk} {program : ProgramData}
    (h : SpaceMapped m m' page c program stack) (hfresh : FreshChunk m page c) (hstack : StackBlock page c stack)
    (hdirectory : ∀ i < 1024, load32 m' (c.directory + 4 * i) &&& userFlags = userFlags) :
    Established m m' page stack program ↔ program.Fits m page stack := by
  have hentry : ∀ P < 2 ^ 20, getPage m' (pagingGetDirectory m' page) (4096 * P) =
      4096 * spaceFrame program m page stack P ||| if spaceWritable program m page P then 7 else 5 := by
    intro P hP
    rw [h.chunkAt.getPage_eq hfresh.block (by omega), Nat.mul_div_cancel_left P (by decide)]
  constructor
  · intro hestablished P hP htouches
    have hasks := hestablished.image P hP htouches
    rw [hentry P hP] at hasks
    exact ProgramData.asks_iff.mp hasks
  · intro hfits
    constructor
    · intro v hv
      exact h.chunkAt.directoryFlags hdirectory hv
    · intro P hP htouches
      rw [hentry P hP]
      exact ProgramData.asks_iff.mpr (hfits P hP htouches)
    · intro i hi
      have hpage : StackPage (0x3FB + i) := ⟨by omega, by omega⟩
      have haligned := hstack.aligned
      have hframe : 4096 * (stack / 4096 + (0x3FB + i - 0x3FB)) = stack + 4096 * i := by omega
      rw [stackEnd_eq, show 0x3FB000 + 4096 * i = 4096 * (0x3FB + i) by omega, hentry _ (by omega), spaceFrame,
        if_pos hpage, spaceWritable, decide_eq_true hpage, Bool.true_or, if_pos rfl, hframe,
        show userFlags = 7 from rfl]

namespace KernelState
variable {σ σ' : KernelState} {filename : List UInt8} {arguments stale : ℕ} {res : ℤ} {process : ℕ}

/-- The tables, the list of tasks and the free blocks are the same. -/
structure SameKernel (σ σ' : KernelState) : Prop where
  processList : σ'.processes.processList = σ.processes.processList
  currentProcess : σ'.processes.currentProcess = σ.processes.currentProcess
  headTask : σ'.processes.tasks.headTask = σ.processes.tasks.headTask
  tailTask : σ'.processes.tasks.tailTask = σ.processes.tasks.tailTask
  currentTask : σ'.processes.tasks.currentTask = σ.processes.tasks.currentTask
  next : ∀ t, (σ'.processes.tasks.task t).next = (σ.processes.tasks.task t).next
  prev : ∀ t, (σ'.processes.tasks.task t).prev = (σ.processes.tasks.task t).prev
  free : σ.file.kmem.heap.SameFree σ'.file.kmem.heap

theorem SameKernel.refl (σ : KernelState) : σ.SameKernel σ :=
  ⟨rfl, rfl, rfl, rfl, rfl, fun _ => rfl, fun _ => rfl, fun _ _ => Iff.rfl⟩

/-- The command that a load gets is a string that its buffers have room for, and reading the
program leaves it alone. -/
def CommandKept (σ : KernelState) (filename : List UInt8) (arguments stale : ℕ) (s : List UInt8) : Prop :=
  StringAt σ.file.kmem.mem arguments s ∧
    ∀ r ∈ loadData { σ.file with kmem := (kzalloc σ.file.kmem sizeofProcess).2 } filename stale,
      ArgumentsRead r.2.kmem arguments s

/-- The process is in the table, and its memory is mapped: `σ₁` is the kernel before the mapping. -/
structure Loaded (σ σ₁ σ' : KernelState) (arguments process : ℕ) (program : ProgramData) : Prop where
  nonnull : process ≠ 0
  registered : ∃ i < zhiosMaxProcess, σ'.processes.processList i = process
  data : (σ'.data process).programData = some program
  established : Established σ₁.file.kmem.mem σ'.file.kmem.mem (σ'.memory process).pageDirectory
    (σ'.data process).stack program
  command : arguments ≠ 0 → ∃ s, StringAt σ.file.kmem.mem arguments s ∧
    ArgumentsSeen (virtualMem σ'.file.kmem.mem (σ'.memory process).pageDirectory)
      (σ'.registers (σ'.processes.process process).task).esp.toNat s

/-- The load is defined. A negative status leaves the kernel as it was; a positive one means that
the process was loaded and that no call that maps its memory failed. -/
def LoadContract (σ : KernelState) (filename : List UInt8) (arguments stale : ℕ) : Prop :=
  ∃ res process σ', σ.loadProcess filename arguments stale = some (res, process, σ') ∧
    (res < 0 → σ.SameKernel σ') ∧
    (0 < res → ∃ σ₁ program, σ.acquireProcess filename arguments stale = some (res, process, σ₁) ∧
      0 ≤ (σ₁.processMapMemory process).1 ∧ σ.Loaded σ₁ σ' arguments process program)

/-- After the slot is found nothing that the load asks for fails, and the image fits into the
address space. -/
def Serves (σ : KernelState) (filename : List UInt8) (arguments stale : ℕ) : Prop :=
  ∃ program file page k parameters k', σ.Acquires filename arguments stale program file page k parameters k' ∧
    program.Fits k'.mem page (kzalloc k zhiosProgramStackSize).1

/-- A load with the contract's outcome was refused at once, or acquired everything. -/
theorem LoadContract.acquired (hbooted : σ.Booted) (h : σ.LoadContract filename arguments stale) :
    σ.Full ∨ σ.file.kmem.Booted ∧ ∃ res process σ' σ₁ program file page k parameters k',
      σ.loadProcess filename arguments stale = some (res, process, σ') ∧ 0 < res ∧
      σ.acquireProcess filename arguments stale = some (res, process, σ₁) ∧
      process = (kzalloc σ.file.kmem sizeofProcess).1 ∧
      σ.Acquires filename arguments stale program file page k parameters k' ∧
      σ.Acquired program file page k parameters k' σ₁ ∧ ∃ program', σ.Loaded σ₁ σ' arguments process program' := by
  obtain ⟨res, process, σ', hload, hneg, hpos⟩ := h
  by_cases hfull : σ.Full
  · exact Or.inl hfull
  obtain ⟨σ₁, hacquire, hsame, -⟩ := loadProcess_outcome hload
  have hout := acquireProcess_outcome hacquire
  have hheap := hbooted (hout.mounted hfull)
  rcases lt_or_ge res 0 with hres | hres
  · have hleaks := hout.leaks hheap hfull hres
    rw [← hsame hres.le] at hleaks
    exact absurd (hneg hres).free hleaks.not_sameFree
  · obtain ⟨hprocess, program, file, page, k, parameters, k', hacquires, hacquired⟩ := hout.of_nonneg hheap hres
    have hres' : 0 < res := by
      obtain ⟨σ₂, hload₂⟩ := hacquires.loadProcess
      rw [hload] at hload₂
      cases hload₂
      exact program.fileType_pos
    obtain ⟨σ₂, program₂, hacquire₂, -, hloaded⟩ := hpos hres'
    rw [hacquire] at hacquire₂
    cases hacquire₂
    exact Or.inr ⟨hheap, res, process, σ', σ₁, program, file, page, k, parameters, k', hload, hres', hacquire,
      hprocess, hacquires, hacquired, program₂, hloaded⟩

theorem LoadContract.serves (hbooted : σ.Booted) (hregion : bootKmem.SameRegion σ.file.kmem) {s : List UInt8}
    (hcommand : arguments ≠ 0 → σ.CommandKept filename arguments stale s)
    (h : σ.LoadContract filename arguments stale) : σ.Full ∨ σ.Serves filename arguments stale := by
  rcases h.acquired hbooted with hfull | ⟨hheap, res, process, σ', σ₁, program, file, page, k, parameters, k', hload,
    hres, hacquire, hprocess, hacquires, hacquired, program₂, hloaded⟩
  · exact Or.inl hfull
  obtain ⟨hpage, hprogram, hstackAt, c, hfresh, hstack, hmapped, hopen, -⟩ :=
    hacquires.mapped hheap hregion (fun hne => (hcommand hne).2 _ hacquires.load) hload hres hacquire hacquired
      hprocess
  have hprogram₂ := hloaded.data
  rw [hprogram] at hprogram₂
  cases hprogram₂
  have hestablished := hloaded.established
  have hmem : σ₁.file.kmem.mem = k'.mem := by rw [hacquired.files]
  rw [hpage, hstackAt, hmapped.established_iff hfresh hstack hopen, hmem] at hestablished
  exact Or.inr ⟨program, file, page, k, parameters, k', hacquires, hestablished⟩

end KernelState

theorem ElfLoaded.loadData {s opened s' : FileState} {filename : List UInt8} {stale size : ℕ} {bytes : List UInt8}
    {file : ElfFile} (h : ElfLoaded s filename stale opened size bytes file s') :
    loadData s filename stale = some (.inr (.elf file), s') := by
  obtain ⟨res, hload⟩ := h.load
  obtain ⟨-, -, -, -, -, -, -, -, -, -, -, -, -, hres, -⟩ := elfLoad_steps hload
  have hformat : res ≠ - EINFORMAT := by
    unfold EINFORMAT
    omega
  rw [Zhios.loadData, hload]
  exact if_neg hformat

theorem bssElf_acquires : ∃ file s' page k k',
    (KernelState.boot bssDisk).Acquires oneFilePath 0 0 (.elf file) s' page k 0 k' ∧
      file.elfMemory ≠ 0 ∧ Holds s'.kmem.mem file.elfMemory bssElf := by
  obtain ⟨hprocess, live₀, hwf₀, hused₀, htotal₀⟩ := bootKmem_process
  obtain ⟨opened, file, s', live, hloaded, hwf, -, hused, htotal, hholds⟩ := bssElf_loaded hwf₀ (by omega)
  obtain ⟨htask, live₁, h₁⟩ := kzalloc_served hwf sizeofTask (by decide) (by decide) (by omega)
  have hused₁ := h₁.used_eq
  have htotal₁ := h₁.region.total_eq
  obtain ⟨page, k, hchunk, ⟨live₂, h₂⟩, -⟩ := pagingNewChunk_succeeds h₁.wellFormed taskPageFlags (by omega)
  have hused₂ := h₂.used_eq
  have htotal₂ := h₂.region.total_eq
  have hblocks : blocksFor zhiosProgramStackSize = 4 := rfl
  have hrun := h₂.wellFormed.hasFreeRun (n := blocksFor zhiosProgramStackSize) (by rw [hblocks]; omega)
  obtain ⟨b, -, -, hstack, -⟩ := h₂.wellFormed.kzalloc (by decide) (by decide) hrun
  have hpos := h₂.wellFormed.start_pos
  refine ⟨file, s', page, k, _, ⟨⟨0, by decide, rfl⟩, hprocess, hloaded.loadData, htask, hchunk, ?_, rfl⟩,
    hloaded.buffer, hholds⟩
  rw [hstack]
  simp only
  omega

end Zhios
