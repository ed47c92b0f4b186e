import Zhios.Task.ProcessTable
import Zhios.Task.AllocationRelease
import Zhios.Task.Arguments
import Zhios.Task.Registers
import Zhios.Loaders.LoadHeap
import Zhios.Memory.HeapGuards

/-! Loading and ending a process with all that it acquires: `load_process` and
`process_free` of `src/task/process.c` over the kernel heap, the file system and the
tables of tasks and processes. -/
namespace Zhios
open Machine

def sizeofTask : ℕ := 64

/-- What `struct Process` says about the memory of the process. Its file type is the
kind of the program, and none is zero. -/
structure ProcessData where
  allocations : ℕ → ProcessAllocation
  stack : ℕ
  programData : Option ProgramData
  parameters : ℕ

def ProcessData.zero : ProcessData := ⟨fun _ => ⟨0, 0⟩, 0, none, 0⟩

def ProgramData.fileType : ProgramData → ℤ
  | .elf _ => 1
  | .binary _ _ => 2

def ProgramData.entry (m : Mem) : ProgramData → ℕ
  | .elf file => (elfGetHeader m file.elfMemory).eEntry
  | .binary _ _ => zhiosProgramVirtualAddress

/-- The memory, the files, the tables and the records of the kernel. -/
structure KernelState where
  file : FileState
  processes : Processes
  registers : ℕ → Registers
  data : ℕ → ProcessData

namespace KernelState

def setKmem (σ : KernelState) (k : KMem) : KernelState := { σ with file := { σ.file with kmem := k } }

@[simp] theorem setKmem_kmem (σ : KernelState) (k : KMem) : (σ.setKmem k).file.kmem = k := rfl

@[simp] theorem setKmem_processes (σ : KernelState) (k : KMem) : (σ.setKmem k).processes = σ.processes := rfl

@[simp] theorem setKmem_registers (σ : KernelState) (k : KMem) : (σ.setKmem k).registers = σ.registers := rfl

@[simp] theorem setKmem_data (σ : KernelState) (k : KMem) : (σ.setKmem k).data = σ.data := rfl

def setData (σ : KernelState) (process : ℕ) (d : ProcessData) : KernelState :=
  { σ with data := Function.update σ.data process d }

@[simp] theorem setData_file (σ : KernelState) (process : ℕ) (d : ProcessData) :
    (σ.setData process d).file = σ.file := rfl

@[simp] theorem setData_processes (σ : KernelState) (process : ℕ) (d : ProcessData) :
    (σ.setData process d).processes = σ.processes := rfl

@[simp] theorem setData_self (σ : KernelState) (process : ℕ) (d : ProcessData) :
    (σ.setData process d).data process = d := Function.update_self ..

def initProcess (σ : KernelState) (process : ℕ) : KernelState :=
  { σ with processes := σ.processes.setProcess process Process.zero }.setData process ProcessData.zero

/-- `create_task` for a process whose program is loaded. The record is cleared and a
page directory stored in it before either is checked. -/
def createTask (σ : KernelState) (process : ℕ) (program : ProgramData) : Option KernelState :=
  let t := kzalloc σ.file.kmem sizeofTask
  (pagingNewChunk t.2 taskPageFlags).bind fun page =>
    (Zhios.createTask σ.processes.tasks t.1 process page.1).map fun r =>
      let registers := initRegisters (UInt32.ofNat (program.entry page.2.mem))
        (UInt32.ofNat zhiosProgramVirtualStackAddressStart)
      let processes := { σ.processes with tasks := r.2 }
      { σ.setKmem page.2 with
        processes := processes.setProcess process { processes.process process with task := r.1 }
        registers := Function.update σ.registers t.1 registers }

/-- `process_init_arguments`, if there is an argument string. -/
def initArguments (k : KMem) (arguments : ℕ) : Option (ℕ × KMem) :=
  if arguments = 0 then some (0, k) else processInitArguments k arguments

/-- What `load_process` does before it maps the memory of the new process: the status,
the process and the state. The record of the process is cleared without a check. -/
def acquireProcess (σ : KernelState) (filename : List UInt8) (arguments stale : ℕ) : Option (ℤ × ℕ × KernelState) :=
  let processId := getProcessFreeSlot σ.processes
  if processId = maxProcessReached then some (maxProcessReached, 0, σ)
  else
    let p := kzalloc σ.file.kmem sizeofProcess
    if p.1 = 0 then none
    else
      let σ := (σ.setKmem p.2).initProcess p.1
      (loadData σ.file filename stale).bind fun r =>
        let σ := { σ with file := r.2 }
        match r.1 with
        | .inl res => some (res, 0, σ.setKmem (kfree σ.file.kmem p.1))
        | .inr program =>
          let σ := σ.setData p.1 { σ.data p.1 with programData := some program }
          (σ.createTask p.1 program).bind fun σ =>
            let stack := kzalloc σ.file.kmem zhiosProgramStackSize
            let σ := σ.setKmem stack.2
            if stack.1 = 0 then some (-EMEM, 0, σ)
            else
              (initArguments σ.file.kmem arguments).map fun a =>
                let σ := (σ.setKmem a.2).setData p.1 { σ.data p.1 with stack := stack.1, parameters := a.1 }
                let process := { σ.processes.process p.1 with id := processId.toNat }
                (program.fileType, p.1, { σ with processes := σ.processes.setProcess p.1 process })

/-- Only the status of the last mapping, or of the one that failed, is returned. -/
def processMapMemory (σ : KernelState) (process : ℕ) : ℤ × KernelState :=
  let task := (σ.processes.process process).task
  let page := (σ.processes.tasks.task task).pageDirectory
  let d := σ.data process
  match d.programData with
  | none => (- EINFORMAT, σ)
  | some program =>
    let r := loaderMapMemory σ.file.kmem.mem page program
    let mapped (m : Mem) := σ.setKmem { σ.file.kmem with mem := m }
    if r.1 < 0 then (r.1, mapped r.2)
    else
      let r := mapPageRange r.2 page zhiosProgramVirtualStackAddressEnd d.stack (int32 zhiosProgramStackSize)
        (pagingIsPresent ||| pagingAccessFromAll ||| pagingIsWritable)
      if d.parameters = 0 then (r.1, mapped r.2)
      else
        let a := processMapArgsToStack r.2 page d.parameters
        let esp := UInt32.ofNat a.1
        (r.1, { mapped a.2 with
          registers := Function.update σ.registers task { σ.registers task with esp := esp, ebp := esp } })

/-- The status, the process stored through the out parameter and the state. The status
of the mapping is not looked at. -/
def loadProcess (σ : KernelState) (filename : List UInt8) (arguments stale : ℕ) : Option (ℤ × ℕ × KernelState) :=
  (σ.acquireProcess filename arguments stale).map fun r =>
    if r.1 ≤ 0 then r
    else
      let σ := (r.2.2.processMapMemory r.2.1).2
      let processList := Function.update σ.processes.processList (σ.processes.process r.2.1).id r.2.1
      (r.1, r.2.1, { σ with processes := { σ.processes with processList := processList } })

def memory (σ : KernelState) (process : ℕ) : ProcessMemory :=
  { k := σ.file.kmem
    pageDirectory := (σ.processes.tasks.task (σ.processes.process process).task).pageDirectory
    allocations := (σ.data process).allocations }

def setMemory (σ : KernelState) (process : ℕ) (p : ProcessMemory) : KernelState :=
  (σ.setKmem p.k).setData process { σ.data process with allocations := p.allocations }

/-- A call of `process_malloc` or `process_free_allocation`. -/
def exec (σ : KernelState) (process : ℕ) (op : ProcessOp) : KernelState :=
  σ.setMemory process ((σ.memory process).exec op)

/-- The records are read after they were given back. -/
def processFree (σ : KernelState) (process : ℕ) : KernelState :=
  let σ := σ.setMemory process (processFreeAllAllocations (σ.memory process))
  let d := σ.data process
  let k := d.programData.elim σ.file.kmem (loaderFreeData σ.file.kmem)
  let k := freePage k (σ.memory process).pageDirectory
  let k := kfree k d.stack
  let k := if d.parameters = 0 then k else kfree k d.parameters
  { σ.setKmem (kfree k process) with processes := Zhios.processFree σ.processes process }

end KernelState

section Heap
variable {k k' : KMem}

theorem chunkTables_takes {flags directory fuel i : ℕ} {offset : ℤ} (h : k.Coherent)
    (htables : chunkTables flags directory fuel i offset k = some k') :
    ∃ tables : List ℕ, tables.length = fuel ∧ k.Takes k' tables := by
  induction fuel generalizing i offset k with
  | zero =>
    cases htables
    exact ⟨[], rfl, .nil h⟩
  | succ fuel ih =>
    simp only [chunkTables] at htables
    split_ifs at htables with hnull
    have hfirst := (KMem.Takes.nil h).kzalloc (4 * pagingTotalEntriesPerTable) (by decide) (by decide) hnull
    obtain ⟨tables, hlength, hrest⟩ := ih (hfirst.keeps.coherent.withMem _) htables
    exact ⟨_, by simp [hlength], (hfirst.withMem _).append hrest⟩

/-- The blocks of a new chunk: its record, its directory and a thousand tables. -/
theorem pagingNewChunk_takes {flags page : ℕ} (h : k.Coherent) (hnew : pagingNewChunk k flags = some (page, k')) :
    ∃ blocks : List ℕ, blocks.length = 1026 ∧ k.Takes k' blocks := by
  simp only [pagingNewChunk] at hnew
  split_ifs at hnew with hnull
  obtain ⟨k₁, htables, hrest⟩ := Option.bind_eq_some_iff.mp hnew
  split_ifs at hrest with hpage
  cases hrest
  have hdirectory := (KMem.Takes.nil h).kzalloc (4 * pagingTotalEntriesPerTable) (by decide) (by decide) hnull
  obtain ⟨tables, hlength, htakes⟩ := chunkTables_takes hdirectory.keeps.coherent htables
  have hall := (hdirectory.append htakes).kzalloc 4 (by decide) (by decide) hpage
  exact ⟨_, by simp [hlength, pagingTotalEntriesPerTable], hall.withMem _⟩

theorem processInitArguments_fresh {args parameters : ℕ} (h : k.Coherent)
    (hargs : processInitArguments k args = some (parameters, k')) :
    ∃ arguments, k.Fresh k' [arguments, parameters] := by
  simp only [processInitArguments] at hargs
  split_ifs at hargs with hnull
  push Not at hnull
  cases hargs
  have hfirst := (KMem.Fresh.nil (.refl h)).kzalloc sizeofProcessParameters (by decide) (by decide) hnull.1
  have hboth := hfirst.kzalloc 512 (by decide) (by decide) hnull.2.1
  exact ⟨_, hboth.trans ((KMem.Keeps.refl hboth.keeps.coherent).withMem _)⟩

theorem initArguments_keeps {arguments parameters : ℕ} (h : k.Coherent)
    (hargs : KernelState.initArguments k arguments = some (parameters, k')) : k.Keeps k' := by
  unfold KernelState.initArguments at hargs
  split_ifs at hargs
  · cases hargs
    exact .refl h
  · obtain ⟨buffer, hfresh⟩ := processInitArguments_fresh h hargs
    exact hfresh.keeps

end Heap

section Map
variable {m : Mem} {page : ℕ}

theorem loadBinary_size {s s' : FileState} {filename : List UInt8} {stale : ℕ} {res : ℤ} {ptr size : ℕ}
    (h : loadBinary s filename stale = some (res, ptr, size, s')) : size < 2 ^ 32 := by
  unfold loadBinary at h
  obtain ⟨⟨fd, opened⟩, -, h⟩ := Option.bind_eq_some_iff.mp h
  have hnone : ∀ {t : FileState} {r : ℤ}, (fclose t fd).map (fun u => (r, 0, 0, u)) = some (res, ptr, size, s') →
      size < 2 ^ 32 := by
    intro t r hclose
    obtain ⟨u, -, heq⟩ := Option.map_eq_some_iff.mp hclose
    cases heq
    decide
  simp only [] at h
  split_ifs at h with hfd
  · exact hnone h
  obtain ⟨⟨r, stat⟩, hstat, h⟩ := Option.bind_eq_some_iff.mp h
  cases stat with
  | none => exact hnone h
  | some stat =>
    simp only [] at h
    split_ifs at h with hbuffer
    · exact hnone h
    obtain ⟨⟨n, t⟩, -, h⟩ := Option.bind_eq_some_iff.mp h
    simp only [] at h
    split_ifs at h with hn
    · exact hnone h
    · obtain ⟨u, -, heq⟩ := Option.map_eq_some_iff.mp h
      cases heq
      exact FileStat.size_lt hstat

theorem loadData_size {s s' : FileState} {filename : List UInt8} {stale ptr size : ℕ}
    (h : loadData s filename stale = some (.inr (.binary ptr size), s')) : size < 2 ^ 32 := by
  unfold loadData at h
  obtain ⟨⟨res, file, t⟩, -, h⟩ := Option.bind_eq_some_iff.mp h
  simp only [] at h
  split_ifs at h with hformat
  · obtain ⟨⟨res', ptr', size', u⟩, hbinary, heq⟩ := Option.bind_eq_some_iff.mp h
    simp only [Option.some.injEq, Prod.mk.injEq] at heq
    split_ifs at heq
    · exact absurd heq.1 (by simp)
    · cases Sum.inr.inj heq.1
      exact loadBinary_size hbinary
  · cases file <;> simp at h

end Map

/-- Every allocation of a load is served, and its program is read: the program, the
files after that, the page directory and the heap after it, and the parameters and the
heap in the end. -/
structure KernelState.Acquires (σ : KernelState) (filename : List UInt8) (arguments stale : ℕ) (program : ProgramData)
    (file : FileState) (page : ℕ) (k : KMem) (parameters : ℕ) (k' : KMem) : Prop where
  slot : ∃ i < zhiosMaxProcess, σ.processes.processList i = 0
  process : (kzalloc σ.file.kmem sizeofProcess).1 ≠ 0
  load : loadData { σ.file with kmem := (kzalloc σ.file.kmem sizeofProcess).2 } filename stale =
    some (.inr program, file)
  task : (kzalloc file.kmem sizeofTask).1 ≠ 0
  chunk : pagingNewChunk (kzalloc file.kmem sizeofTask).2 taskPageFlags = some (page, k)
  stack : (kzalloc k zhiosProgramStackSize).1 ≠ 0
  arguments : KernelState.initArguments (kzalloc k zhiosProgramStackSize).2 arguments = some (parameters, k')

/-- The state when a new process has all it needs, but is not in the table yet. -/
structure KernelState.Acquired (σ : KernelState) (program : ProgramData) (file : FileState) (page : ℕ) (k : KMem)
    (parameters : ℕ) (k' : KMem) (σ' : KernelState) : Prop where
  files : σ'.file = { file with kmem := k' }
  id : ((σ'.processes.process (kzalloc σ.file.kmem sizeofProcess).1).id : ℤ) = getProcessFreeSlot σ.processes
  data : σ'.data (kzalloc σ.file.kmem sizeofProcess).1 =
    ⟨fun _ => ⟨0, 0⟩, (kzalloc k zhiosProgramStackSize).1, some program, parameters⟩
  tables : Zhios.loadProcess σ.processes ⟨(kzalloc σ.file.kmem sizeofProcess).1, (kzalloc file.kmem sizeofTask).1, page,
      (kzalloc k zhiosProgramStackSize).1, program.fileType⟩ =
    some (program.fileType, (kzalloc σ.file.kmem sizeofProcess).1, { σ'.processes with
      processList := Function.update σ'.processes.processList
        (σ'.processes.process (kzalloc σ.file.kmem sizeofProcess).1).id (kzalloc σ.file.kmem sizeofProcess).1 })

theorem ProgramData.fileType_pos (program : ProgramData) : 0 < program.fileType := by
  cases program <;> simp [ProgramData.fileType]

namespace KernelState
variable {σ σ' : KernelState} {filename : List UInt8} {arguments stale : ℕ} {res : ℤ} {process : ℕ}

theorem createTask_some {program : ProgramData} (h : σ.createTask process program = some σ') :
    (kzalloc σ.file.kmem sizeofTask).1 ≠ 0 ∧
      ∃ page k, pagingNewChunk (kzalloc σ.file.kmem sizeofTask).2 taskPageFlags = some (page, k) ∧
        σ'.file = { σ.file with kmem := k } ∧ σ'.data = σ.data ∧
        σ'.processes = { σ.processes with
          tasks := linkTask (σ.processes.tasks.setTask (kzalloc σ.file.kmem sizeofTask).1 (Task.new process page))
            (kzalloc σ.file.kmem sizeofTask).1 }.setProcess
            process { σ.processes.process process with task := (kzalloc σ.file.kmem sizeofTask).1 } := by
  obtain ⟨⟨page, k⟩, hnew, hrest⟩ := Option.bind_eq_some_iff.mp h
  obtain ⟨r, hcreate, rfl⟩ := Option.map_eq_some_iff.mp hrest
  obtain ⟨hnull, rfl⟩ := createTask_eq_some_iff.mp hcreate
  exact ⟨hnull, page, k, hnew, rfl, rfl, rfl⟩

/-- The ways in which the acquisition can end. -/
inductive Outcome (σ : KernelState) (filename : List UInt8) (arguments stale : ℕ) : ℤ → ℕ → KernelState → Prop
  | full (hfull : ∀ i < zhiosMaxProcess, σ.processes.processList i ≠ 0) :
      Outcome σ filename arguments stale maxProcessReached 0 σ
  | notLoaded (res : ℤ) (file : FileState) (σ' : KernelState) (hprocess : (kzalloc σ.file.kmem sizeofProcess).1 ≠ 0)
      (hload : loadData { σ.file with kmem := (kzalloc σ.file.kmem sizeofProcess).2 } filename stale =
        some (.inl res, file))
      (hfile : σ'.file = { file with kmem := kfree file.kmem (kzalloc σ.file.kmem sizeofProcess).1 })
      (htables : res ≤ 0 → Zhios.loadProcess σ.processes ⟨(kzalloc σ.file.kmem sizeofProcess).1, 0, 0, 0, res⟩ =
        some (res, 0, σ'.processes)) :
      Outcome σ filename arguments stale res 0 σ'
  | noStack (program : ProgramData) (file : FileState) (page : ℕ) (k : KMem) (σ' : KernelState)
      (hprocess : (kzalloc σ.file.kmem sizeofProcess).1 ≠ 0)
      (hload : loadData { σ.file with kmem := (kzalloc σ.file.kmem sizeofProcess).2 } filename stale =
        some (.inr program, file))
      (hchunk : pagingNewChunk (kzalloc file.kmem sizeofTask).2 taskPageFlags = some (page, k))
      (hfile : σ'.file = { file with kmem := (kzalloc k zhiosProgramStackSize).2 })
      (htables : Zhios.loadProcess σ.processes ⟨(kzalloc σ.file.kmem sizeofProcess).1,
        (kzalloc file.kmem sizeofTask).1, page, 0, program.fileType⟩ = some (-EMEM, 0, σ'.processes)) :
      Outcome σ filename arguments stale (-EMEM) 0 σ'
  | acquired (program : ProgramData) (file : FileState) (page : ℕ) (k : KMem) (parameters : ℕ) (k' : KMem)
      (σ' : KernelState) (hacquires : σ.Acquires filename arguments stale program file page k parameters k')
      (hacquired : σ.Acquired program file page k parameters k' σ') :
      Outcome σ filename arguments stale program.fileType (kzalloc σ.file.kmem sizeofProcess).1 σ'

theorem acquireProcess_outcome (h : σ.acquireProcess filename arguments stale = some (res, process, σ')) :
    Outcome σ filename arguments stale res process σ' := by
  simp only [acquireProcess] at h
  rcases getProcessFreeSlot_cases σ.processes with ⟨hslot, hfull⟩ | ⟨i, hslot, hleast⟩
  · rw [if_pos hslot] at h
    cases h
    exact .full hfull
  have hne : (i : ℤ) ≠ maxProcessReached := by unfold maxProcessReached; omega
  rw [hslot, if_neg hne] at h
  split_ifs at h with hprocess
  obtain ⟨⟨loaded, file⟩, hload, h⟩ := Option.bind_eq_some_iff.mp h
  cases loaded with
  | inl res =>
    cases h
    refine .notLoaded _ file _ hprocess hload rfl fun hres => ?_
    simp only [Zhios.loadProcess, hslot, if_neg hne, if_neg hprocess, if_pos hres]
    rfl
  | inr program =>
    obtain ⟨σ₁, htask, h⟩ := Option.bind_eq_some_iff.mp h
    obtain ⟨htask, page, k, hchunk, hfile, hdata, hprocesses⟩ := createTask_some htask
    replace htask : (kzalloc file.kmem sizeofTask).1 ≠ 0 := htask
    replace hchunk : pagingNewChunk (kzalloc file.kmem sizeofTask).2 taskPageFlags = some (page, k) := hchunk
    simp only [hfile, setKmem_kmem] at h
    split_ifs at h with hstack
    · cases h
      refine .noStack program file page k _ hprocess hload hchunk (by simp [setKmem, hfile]) ?_
      simp only [Zhios.loadProcess, hslot, if_neg hne, if_neg hprocess, if_neg (not_le.mpr program.fileType_pos),
        createTask_eq _ _ _ htask, Option.map_some, if_true, setKmem_processes, hprocesses]
      simp [initProcess, Processes.setProcess]
    · obtain ⟨⟨parameters, k'⟩, hargs, heq⟩ := Option.map_eq_some_iff.mp h
      cases heq
      refine .acquired program file page k parameters k' _
        ⟨⟨i, hleast.1⟩, hprocess, hload, htask, hchunk, hstack, hargs⟩ ⟨?_, ?_, ?_, ?_⟩
      · simp [setKmem, hfile]
      · simp [hslot, Processes.setProcess]
      · simp [hdata, initProcess, ProcessData.zero]
      · simp only [Zhios.loadProcess, hslot, if_neg hne, if_neg hprocess, if_neg (not_le.mpr program.fileType_pos),
          createTask_eq _ _ _ htask, Option.map_some, if_neg hstack, setKmem_processes, setData_processes, hprocesses]
        simp [initProcess, Processes.setProcess]

section Acquires
variable {program : ProgramData} {file : FileState} {page : ℕ} {k : KMem} {parameters : ℕ} {k' : KMem}

theorem Acquires.acquireProcess (h : σ.Acquires filename arguments stale program file page k parameters k') :
    ∃ σ', σ.acquireProcess filename arguments stale =
      some (program.fileType, (kzalloc σ.file.kmem sizeofProcess).1, σ') := by
  obtain ⟨i, hi, hfree⟩ := h.slot
  have hslot : getProcessFreeSlot σ.processes ≠ maxProcessReached :=
    fun hmax => (getProcessFreeSlot_eq_max_iff _).mp hmax i hi hfree
  simp only [KernelState.acquireProcess, if_neg hslot, if_neg h.process]
  have hload : loadData ((σ.setKmem (kzalloc σ.file.kmem sizeofProcess).2).initProcess
      (kzalloc σ.file.kmem sizeofProcess).1).file filename stale = some (.inr program, file) := h.load
  rw [hload, Option.bind_some]
  simp only [createTask, setData_file, h.chunk, createTask_eq _ _ _ h.task, Option.map_some, Option.bind_some,
    setKmem_kmem, if_neg h.stack, h.arguments]
  exact ⟨_, rfl⟩

/-- The heap over the acquisitions: nothing is released, and the blocks of the task and
of its page directory are new. -/
structure Acquires.Heap (σ : KernelState) (program : ProgramData) (file : FileState) (k k' : KMem) : Prop where
  loaded : σ.file.kmem.Fresh file.kmem [(kzalloc σ.file.kmem sizeofProcess).1]
  program : ∀ p ∈ program.pointers, p = 0 ∨ file.kmem.Held p
  task : ∃ blocks : List ℕ, blocks.length = 1027 ∧ file.kmem.Takes k blocks
  keeps : k.Keeps k'

theorem Acquires.heap (h : σ.Acquires filename arguments stale program file page k parameters k')
    (hbooted : σ.file.kmem.Booted) : Acquires.Heap σ program file k k' := by
  have hprocess := (KMem.Fresh.nil (.refl hbooted.coherent)).kzalloc sizeofProcess (by decide) (by decide) h.process
  obtain ⟨hkeeps, hprogram⟩ := loadData_loaded (hbooted.kzalloc sizeofProcess) h.load
  have htask := (KMem.Takes.nil hkeeps.coherent).kzalloc sizeofTask (by decide) (by decide) h.task
  obtain ⟨blocks, hlength, hchunk⟩ := pagingNewChunk_takes htask.keeps.coherent h.chunk
  have hall := htask.append hchunk
  have hstack := KMem.Keeps.kzalloc (.refl hall.keeps.coherent) zhiosProgramStackSize
  constructor
  · exact hprocess.trans hkeeps
  · exact hprogram
  · exact ⟨_, by simp [hlength], hall⟩
  · exact hstack.trans (initArguments_keeps hstack.coherent h.arguments)

end Acquires

/-- Mapping changes memory and the registers of the task. -/
theorem processMapMemory_frame (σ : KernelState) (process : ℕ) :
    (σ.processMapMemory process).2.file.kmem.heap = σ.file.kmem.heap ∧
      (σ.processMapMemory process).2.processes = σ.processes ∧ (σ.processMapMemory process).2.data = σ.data := by
  simp only [processMapMemory]
  cases (σ.data process).programData with
  | none => exact ⟨rfl, rfl, rfl⟩
  | some program =>
    simp only []
    split_ifs <;> exact ⟨rfl, rfl, rfl⟩

/-- A load that returned with a status that is not positive did no mapping. -/
theorem loadProcess_outcome (h : σ.loadProcess filename arguments stale = some (res, process, σ')) :
    ∃ σ₁, σ.acquireProcess filename arguments stale = some (res, process, σ₁) ∧ (res ≤ 0 → σ' = σ₁) ∧ (0 < res →
      σ'.file.kmem.heap = σ₁.file.kmem.heap ∧ σ'.data = σ₁.data ∧ σ'.processes = { σ₁.processes with
        processList := Function.update σ₁.processes.processList (σ₁.processes.process process).id process }) := by
  obtain ⟨⟨r, p, σ₁⟩, hacquire, heq⟩ := Option.map_eq_some_iff.mp h
  simp only [] at heq
  split_ifs at heq with hres
  · cases heq
    exact ⟨σ', hacquire, fun _ => rfl, fun hpos => by omega⟩
  · obtain ⟨hheap, hprocesses, hdata⟩ := processMapMemory_frame σ₁ p
    cases heq
    exact ⟨σ₁, hacquire, fun hneg => by omega, fun _ => ⟨hheap, hdata, by rw [hprocesses]⟩⟩

/-- Only a load that acquired everything returns no error. -/
theorem Outcome.of_nonneg (hbooted : σ.file.kmem.Booted) (h : Outcome σ filename arguments stale res process σ')
    (hres : 0 ≤ res) : process = (kzalloc σ.file.kmem sizeofProcess).1 ∧ ∃ program file page k parameters k',
      σ.Acquires filename arguments stale program file page k parameters k' ∧
        σ.Acquired program file page k parameters k' σ' := by
  cases h with
  | full => exact absurd hres (by decide)
  | notLoaded _ file _ hprocess hload =>
    have hneg := (loadData_failed (hbooted.kzalloc sizeofProcess) hload).1
    omega
  | noStack => exact absurd hres (by decide)
  | acquired program file page k parameters k' _ hacquires hacquired =>
    exact ⟨rfl, program, file, page, k, parameters, k', hacquires, hacquired⟩

theorem Acquires.loadProcess {program : ProgramData} {file : FileState} {page : ℕ} {k : KMem} {parameters : ℕ}
    {k' : KMem} (h : σ.Acquires filename arguments stale program file page k parameters k') :
    ∃ σ', σ.loadProcess filename arguments stale =
      some (program.fileType, (kzalloc σ.file.kmem sizeofProcess).1, σ') := by
  obtain ⟨σ₁, hacquire⟩ := h.acquireProcess
  simp only [KernelState.loadProcess, hacquire, Option.map_some]
  exact ⟨_, congrArg some (if_neg (not_le.mpr program.fileType_pos))⟩

/-- A load does to the tables what the tables' own model says, for what the allocators
and the file loader returned. -/
theorem loadProcess_refines (hbooted : σ.file.kmem.Booted)
    (h : σ.loadProcess filename arguments stale = some (res, process, σ')) :
    ∃ input : LoadInput, input.process = (kzalloc σ.file.kmem sizeofProcess).1 ∧
      Zhios.loadProcess σ.processes input = some (res, process, σ'.processes) := by
  obtain ⟨σ₁, hacquire, hneg, hpos⟩ := loadProcess_outcome h
  cases acquireProcess_outcome hacquire with
  | full hfull =>
    obtain rfl := hneg (by decide)
    refine ⟨⟨(kzalloc σ'.file.kmem sizeofProcess).1, 0, 0, 0, 0⟩, rfl, ?_⟩
    simp only [Zhios.loadProcess, (getProcessFreeSlot_eq_max_iff _).mpr hfull, if_true]
  | notLoaded _ file _ hprocess hload hfile htables =>
    have hres := (loadData_failed (hbooted.kzalloc sizeofProcess) hload).1
    obtain rfl := hneg hres.le
    exact ⟨_, rfl, htables hres.le⟩
  | noStack program file page k _ hprocess hload hchunk hfile htables =>
    obtain rfl := hneg (by decide)
    exact ⟨_, rfl, htables⟩
  | acquired program file page k parameters k' _ hacquires hacquired =>
    refine ⟨⟨(kzalloc σ.file.kmem sizeofProcess).1, (kzalloc file.kmem sizeofTask).1, page,
      (kzalloc k zhiosProgramStackSize).1, program.fileType⟩, rfl, ?_⟩
    rw [hacquired.tables, (hpos program.fileType_pos).2.2]

/-- `process_load_with_args`; without an argument string it is `process_load_and_switch`. -/
def processLoadWithArgs (σ : KernelState) (filename : List UInt8) (arguments stale : ℕ) :
    Option (ℤ × ℕ × KernelState) :=
  (σ.loadProcess filename arguments stale).map fun r =>
    if r.1 < 0 then r else (r.1, r.2.1, { r.2.2 with processes := processSwitch r.2.2.processes r.2.1 })

/-- A load that succeeds is a step of the process table: it releases no record. -/
theorem processLoadWithArgs_tableStep {live : List ℕ} (hbooted : σ.file.kmem.Booted)
    (hlive : σ.file.kmem.HoldsAll live) (hrunning : σ.processes.halted = false)
    (h : σ.processLoadWithArgs filename arguments stale = some (res, process, σ')) (hres : 0 < res) :
    TableStep ⟨σ.file.kmem, σ.processes, live⟩ ⟨σ'.file.kmem, σ'.processes, process :: live⟩ := by
  obtain ⟨⟨r, p, σ₂⟩, hload, heq⟩ := Option.map_eq_some_iff.mp h
  obtain ⟨input, hprocess, htables⟩ := loadProcess_refines hbooted hload
  obtain ⟨σ₁, hacquire, -, hpos⟩ := loadProcess_outcome hload
  simp only [] at heq
  have hr : 0 < r := by
    split_ifs at heq with hneg <;> cases heq <;> exact hres
  rw [if_neg (by omega)] at heq
  cases heq
  obtain ⟨rfl, program, file, page, k, parameters, k', hacquires, hacquired⟩ :=
    (acquireProcess_outcome hacquire).of_nonneg hbooted hr.le
  have hheap := hacquires.heap hbooted
  obtain ⟨blocks, -, htask⟩ := hheap.task
  have hlast := htask.keeps.trans hheap.keeps
  have hheapEq : σ₂.file.kmem.heap = k'.heap := by rw [(hpos hr).1, hacquired.files]
  have hfresh := (hheap.loaded.trans hlast).trans ((KMem.Keeps.refl hlast.coherent).ofHeap hheapEq)
  have hswitch : Zhios.processLoadWithArgs σ.processes input =
      some (res, (kzalloc σ.file.kmem sizeofProcess).1,
        processSwitch σ₂.processes (kzalloc σ.file.kmem sizeofProcess).1) := by
    rw [Zhios.processLoadWithArgs, processLoadAndSwitch, htables, Option.map_some]
    exact congrArg some (if_neg (by simp only; omega))
  have hstep := TableStep.loadWithArgs ⟨σ.file.kmem, σ.processes, live⟩ input σ₂.file.kmem _ _ _ hrunning hprocess
    hswitch hr ⟨hfresh.keeps.coherent, List.forall_mem_cons.mpr ⟨?_, fun q hq => ?_⟩⟩
  · rwa [hprocess] at hstep
  · rw [hprocess]
    exact hfresh.held _ (by simp)
  · exact hfresh.keeps.held q (hlive.2 q hq)

end KernelState

end Zhios
