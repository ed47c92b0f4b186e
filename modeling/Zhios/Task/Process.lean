import Zhios.Task.Task
import Zhios.Memory.Heap
import Zhios.Machine.Search

/-! The process table of `src/task/process.c`, the system calls that load and end
processes, and the keyboard buffers of `src/keyboard/keyboard.c`. Heap contents
are left to the heap's own model: a load carries what the allocators and the file
loader returned to it. -/
namespace Zhios
open Machine

def zhiosMaxProcess : ℕ := 64
def zhiosMaxKeyboardBufferSize : ℕ := 1024
def maxProcessReached : ℤ := -301

structure KeyboardBuffer where
  head : ℤ
  tail : ℤ
  buffer : ℕ → UInt8

structure Process where
  id : ℕ
  task : ℕ
  keyboardBuffer : KeyboardBuffer

def Process.zero : Process := ⟨0, 0, ⟨0, 0, fun _ => 0⟩⟩

/-- The globals of the task and process modules. `halted` is set where the kernel
enters an endless loop, and where a call goes through a null record and has no result:
nothing is said of such a kernel any more. -/
structure Processes where
  tasks : Tasks
  currentProcess : ℕ
  processList : ℕ → ℕ
  process : ℕ → Process
  halted : Bool

namespace Processes

def initial : Processes := ⟨Tasks.initial, 0, fun _ => 0, fun _ => Process.zero, false⟩

def setProcess (s : Processes) (p : ℕ) (v : Process) : Processes :=
  { s with process := Function.update s.process p v }

end Processes

def getProcessFreeSlot (s : Processes) : ℤ :=
  match findSlot (fun i => s.processList i == 0) zhiosMaxProcess 0 with
  | some i => i
  | none => maxProcessReached

/-- What one load meets outside the process table: the pointers returned for the
process, its task, its page directory and its stack, and the result of `load_data`. -/
structure LoadInput where
  process : ℕ
  task : ℕ
  pageDirectory : ℕ
  stack : ℕ
  fileType : ℤ
  deriving DecidableEq, Repr

/-- The result, the process stored through the out parameter and the new state. The
record of the process is cleared without a check. -/
def loadProcess (s : Processes) (input : LoadInput) : Option (ℤ × ℕ × Processes) :=
  let processId := getProcessFreeSlot s
  if processId = maxProcessReached then some (maxProcessReached, 0, s)
  else if input.process = 0 then none
  else
    let s := s.setProcess input.process Process.zero
    if input.fileType ≤ 0 then some (input.fileType, 0, s)
    else
      (createTask s.tasks input.task input.process input.pageDirectory).map fun r =>
        let s := { s with tasks := r.2 }.setProcess input.process
          { s.process input.process with task := r.1 }
        if input.stack = 0 then (-EMEM, 0, s)
        else
          let s := s.setProcess input.process { s.process input.process with id := processId.toNat }
          (input.fileType, input.process,
            { s with processList := Function.update s.processList processId.toNat input.process })

def LoadInput.succeeds (input : LoadInput) (s : Processes) : Bool := (loadProcess s input).any fun r => 0 < r.1

def processSwitch (s : Processes) (process : ℕ) : Processes := { s with currentProcess := process }

def processLoadAndSwitch (s : Processes) (input : LoadInput) : Option (ℤ × ℕ × Processes) :=
  (loadProcess s input).map fun r => if r.1 < 0 then r else (r.1, r.2.1, processSwitch r.2.2 r.2.1)

/-- Differs from `process_load_and_switch` only in the argument string it passes on. -/
def processLoadWithArgs (s : Processes) (input : LoadInput) : Option (ℤ × ℕ × Processes) :=
  processLoadAndSwitch s input

theorem processLoadAndSwitch_some {s s' : Processes} {input : LoadInput} {res : ℤ} {process : ℕ}
    (h : processLoadAndSwitch s input = some (res, process, s')) (hres : 0 ≤ res) :
    ∃ s₁, loadProcess s input = some (res, process, s₁) ∧ s' = processSwitch s₁ process := by
  obtain ⟨⟨r, p, s₁⟩, hload, heq⟩ := Option.map_eq_some_iff.mp h
  simp only at heq
  split_ifs at heq with hneg
  · cases heq
    omega
  · cases heq
    exact ⟨s₁, hload, rfl⟩

def processSwitchToAny (s : Processes) : Processes :=
  match findSlot (fun i => s.processList i != 0) zhiosMaxProcess 0 with
  | some i => processSwitch s (s.processList i)
  | none => { s with halted := true }

def processUnlink (s : Processes) (process : ℕ) : Processes :=
  let s := { s with processList := Function.update s.processList (s.process process).id 0 }
  if process = s.currentProcess then processSwitchToAny s else s

def processFree (s : Processes) (process : ℕ) : Processes :=
  match freeTask s.tasks (s.process process).task with
  | none => { s with halted := true }
  | some tasks => processUnlink { s with tasks := tasks } process

theorem processFree_eq {s : Processes} {process : ℕ} (h : (s.process process).task ≠ 0) : processFree s process =
    processUnlink { s with tasks := removeFromTaskList s.tasks (s.process process).task } process := by
  simp only [processFree, freeTask, if_neg h]

/-- A loaded process is resumed at once; after a failed load the caller goes on. A load that writes
through a null pointer is the end of the run. -/
def isr80hLoadProcessCommand (s : Processes) (input : LoadInput) : Processes :=
  match processLoadWithArgs s input with
  | none => { s with halted := true }
  | some r =>
    if r.1 < 0 then r.2.2
    else { r.2.2 with tasks := switchTask r.2.2.tasks (r.2.2.process r.2.1).task }

/-- Ends the process of the running task and resumes the next task. -/
def isr80hExitProcessCommand (s : Processes) : Processes :=
  let s := processFree s (s.tasks.task s.tasks.currentTask).process
  if s.halted then s
  else
    match taskNext s.tasks with
    | some tasks => { s with tasks := tasks }
    | none => { s with halted := true }

/-- A processor exception ends the running task in the same way. -/
def handleExceptions (s : Processes) : Processes := isr80hExitProcessCommand s

/-- The end of `kernel_main`: the first process is loaded and run. -/
def kernelMain (s : Processes) (input : LoadInput) : Processes :=
  match processLoadAndSwitch s input with
  | none => { s with halted := true }
  | some r =>
    if r.1 < 0 then { r.2.2 with halted := true }
    else
      match runFirstTask r.2.2.tasks with
      | some tasks => { r.2.2 with tasks := tasks }
      | none => { r.2.2 with halted := true }

def keyboardGetTailIndex (buffer : KeyboardBuffer) : ℕ := uint32 buffer.tail % zhiosMaxKeyboardBufferSize

def keyboardGetHeadIndex (buffer : KeyboardBuffer) : ℕ := uint32 buffer.head % zhiosMaxKeyboardBufferSize

def keyboardPush (s : Processes) (c : UInt8) : Processes :=
  if s.currentProcess = 0 then s
  else if c = 0 then s
  else
    let process := s.process s.currentProcess
    let b := process.keyboardBuffer
    s.setProcess s.currentProcess { process with
      keyboardBuffer := { b with
        buffer := Function.update b.buffer (keyboardGetTailIndex b) c
        tail := int32 (b.tail + 1) } }

def keyboardPop (s : Processes) : UInt8 × Processes :=
  if s.tasks.currentTask = 0 then (0, s)
  else
    let p := (s.tasks.task s.tasks.currentTask).process
    let process := s.process p
    let b := process.keyboardBuffer
    let res := b.buffer (keyboardGetHeadIndex b)
    if res = 0 then (0, s)
    else (res, s.setProcess p { process with keyboardBuffer := { b with head := int32 (b.head + 1) } })

end Zhios
