import Mathlib.Tactic

/-! The task list of `src/task/task.c`: a doubly linked list of task records with
three global cursors. Pointers are addresses, zero for null. -/
namespace Zhios

structure Task where
  pageDirectory : ℕ
  next : ℕ
  prev : ℕ
  process : ℕ
  deriving DecidableEq, Repr

/-- The globals of the module, the task records, and the directory in force. -/
structure Tasks where
  currentTask : ℕ
  headTask : ℕ
  tailTask : ℕ
  task : ℕ → Task
  currentDirectory : ℕ

namespace Tasks

def initial : Tasks := ⟨0, 0, 0, fun _ => ⟨0, 0, 0, 0⟩, 0⟩

def setTask (s : Tasks) (t : ℕ) (v : Task) : Tasks := { s with task := Function.update s.task t v }

@[simp] theorem setTask_currentTask (s : Tasks) (t : ℕ) (v : Task) :
    (s.setTask t v).currentTask = s.currentTask := rfl

@[simp] theorem setTask_headTask (s : Tasks) (t : ℕ) (v : Task) :
    (s.setTask t v).headTask = s.headTask := rfl

@[simp] theorem setTask_tailTask (s : Tasks) (t : ℕ) (v : Task) :
    (s.setTask t v).tailTask = s.tailTask := rfl

@[simp] theorem setTask_task (s : Tasks) (t a : ℕ) (v : Task) :
    (s.setTask t v).task a = if a = t then v else s.task a := Function.update_apply ..

def setNext (s : Tasks) (t next : ℕ) : Tasks := s.setTask t { s.task t with next := next }

def setPrev (s : Tasks) (t prev : ℕ) : Tasks := s.setTask t { s.task t with prev := prev }

end Tasks

/-- A record as `init_task` leaves it. Without a page directory it stays without a
process. -/
def Task.new (process pageDirectory : ℕ) : Task :=
  { pageDirectory := pageDirectory
    next := 0
    prev := 0
    process := if pageDirectory = 0 then 0 else process }

/-- A null record has no result: `memset` writes through it, and `paging_new_chunk`
then fills the page it would lie in with table entries. -/
def initTask (s : Tasks) (task process pageDirectory : ℕ) : Option Tasks :=
  if task = 0 then none else some (s.setTask task (Task.new process pageDirectory))

def getNextTask (s : Tasks) : ℕ :=
  if (s.task s.currentTask).next = 0 then s.headTask else (s.task s.currentTask).next

def removeFromTaskList (s : Tasks) (task : ℕ) : Tasks :=
  let s := if (s.task task).prev ≠ 0 then s.setNext (s.task task).prev (s.task task).next else s
  let s := if task = s.headTask then { s with headTask := (s.task task).next } else s
  let s := if task = s.tailTask then { s with tailTask := (s.task task).prev } else s
  if task = s.currentTask then { s with currentTask := getNextTask s } else s

/-- Releases the page directory, which is the heap's business, and unlinks. The
page directory of a null record is read through it. -/
def freeTask (s : Tasks) (task : ℕ) : Option Tasks := if task = 0 then none else some (removeFromTaskList s task)

/-- Puts a record at the end of the list; the first one becomes current. -/
def linkTask (s : Tasks) (task : ℕ) : Tasks :=
  if s.headTask = 0 then { s with headTask := task, tailTask := task, currentTask := task }
  else { (s.setNext s.tailTask task).setPrev task s.tailTask with tailTask := task }

/-- `task` is what `kzalloc` returned for the record and `pageDirectory` what
`paging_new_chunk` returned. The record is initialised before the null check, which
is too late: the branch behind it has no result either. -/
def createTask (s : Tasks) (task process pageDirectory : ℕ) : Option (ℕ × Tasks) :=
  (initTask s task process pageDirectory).bind fun s =>
    if task = 0 then (freeTask s task).map fun s => (0, s) else some (task, linkTask s task)

theorem createTask_null (s : Tasks) (process pageDirectory : ℕ) : createTask s 0 process pageDirectory = none := rfl

theorem createTask_eq (s : Tasks) {task : ℕ} (process pageDirectory : ℕ) (h : task ≠ 0) :
    createTask s task process pageDirectory =
      some (task, linkTask (s.setTask task (Task.new process pageDirectory)) task) := by
  simp only [createTask, initTask, if_neg h, Option.bind_some]

theorem createTask_eq_some_iff {s : Tasks} {task process pageDirectory : ℕ} {r : ℕ × Tasks} :
    createTask s task process pageDirectory = some r ↔
      task ≠ 0 ∧ r = (task, linkTask (s.setTask task (Task.new process pageDirectory)) task) := by
  by_cases h : task = 0
  · rw [h, createTask_null]
    simp
  · rw [createTask_eq s process pageDirectory h, Option.some.injEq, eq_comm]
    exact (and_iff_right h).symm

def switchTask (s : Tasks) (task : ℕ) : Tasks :=
  { s with currentTask := task, currentDirectory := (s.task task).pageDirectory }

/-- The task that is resumed first, if there is one. -/
def runFirstTask (s : Tasks) : Option Tasks :=
  if s.headTask = 0 then none else some (switchTask s s.headTask)

/-- The next task is resumed; without one the kernel stops. -/
def taskNext (s : Tasks) : Option Tasks :=
  if getNextTask s = 0 then none else some (switchTask s (getNextTask s))

end Zhios
