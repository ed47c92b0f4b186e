import Zhios.Task.Process
import Zhios.Task.TaskList

/-! Agreement of the scheduler and the process layer over runs of loads and exits.
While at most two processes are live, the task resumed after an exit belongs to
the process that `process_switch_to_any` picks; with three it does not. -/
namespace Zhios
open Machine

/-- The process layer names the process of the current task, so that a pushed key
reaches no other buffer than the one the task pops from. -/
structure Processes.Agree (s : Processes) : Prop where
  process_eq : s.currentProcess = (s.tasks.task s.tasks.currentTask).process
  push_pop : ∀ c q, q ≠ (s.tasks.task s.tasks.currentTask).process →
    (keyboardPush s c).process q = s.process q

theorem Processes.agree_of_process_eq {s : Processes}
    (h : s.currentProcess = (s.tasks.task s.tasks.currentTask).process) : s.Agree := by
  refine ⟨h, fun c q hq => ?_⟩
  unfold keyboardPush
  split_ifs
  · rfl
  · rfl
  · exact Function.update_of_ne (h ▸ hq) ..

def Processes.tasksOf (s : Processes) (live : List ℕ) : List ℕ := live.map fun p => (s.process p).task

/-- The live processes are nested: in load order they fill the slots of the table
and the task list, and the last one loaded runs. -/
structure Nested (s : Processes) (live : List ℕ) : Prop where
  taskList : TaskList s.tasks (s.tasksOf live)
  null : 0 ∉ live
  nodup : live.Nodup
  taskNull : 0 ∉ s.tasksOf live
  taskNodup : (s.tasksOf live).Nodup
  owner : ∀ p ∈ live, (s.tasks.task (s.process p).task).process = p
  slot : ∀ i < zhiosMaxProcess, s.processList i = (live[i]?).getD 0
  length_le : live.length ≤ zhiosMaxProcess
  id : ∀ i p, live[i]? = some p → (s.process p).id = i
  current : ∀ p, live.getLast? = some p → s.tasks.currentTask = (s.process p).task ∧ s.currentProcess = p
  running : s.halted = false

namespace Nested
variable {s : Processes} {live front : List ℕ} {p : ℕ}

theorem agree (h : Nested s live) (hlast : live.getLast? = some p) : s.Agree := by
  obtain ⟨hcur, hproc⟩ := h.current p hlast
  apply Processes.agree_of_process_eq
  rw [hcur, hproc, h.owner p (List.mem_of_getLast? hlast)]

theorem slot_ne_zero (h : Nested s live) {i : ℕ} (hi : i < live.length) : s.processList i ≠ 0 := by
  have hle := h.length_le
  rw [h.slot i (by omega), List.getElem?_eq_getElem hi]
  intro h0
  exact h.null (h0 ▸ List.getElem_mem hi)

theorem slot_eq_zero (h : Nested s live) {i : ℕ} (hi : live.length ≤ i) (hlt : i < zhiosMaxProcess) :
    s.processList i = 0 := by
  rw [h.slot i hlt, List.getElem?_eq_none hi]
  rfl

theorem getProcessFreeSlot_eq (h : Nested s live) : getProcessFreeSlot s =
    if live.length < zhiosMaxProcess then (live.length : ℤ) else maxProcessReached := by
  unfold getProcessFreeSlot
  split_ifs with hlt
  · have hfind : findSlot (fun i => s.processList i == 0) zhiosMaxProcess 0 = some live.length := by
      refine (findSlot_eq_some_iff _ _ _ _).mpr ⟨by omega, by omega, ?_, fun k _ hk => ?_⟩
      · simpa using h.slot_eq_zero le_rfl hlt
      · simpa using h.slot_ne_zero hk
    rw [hfind]
  · have hfind : findSlot (fun i => s.processList i == 0) zhiosMaxProcess 0 = none :=
      (findSlot_eq_none_iff _ _ _).mpr fun k _ hk => by simpa using h.slot_ne_zero (by omega)
    rw [hfind]

theorem setProcess_process (hp : p ∉ live) (v : Process) :
    ∀ a ∈ live, (s.setProcess p v).process a = s.process a := by
  intro a ha
  have hap : a ≠ p := fun heq => hp (heq ▸ ha)
  exact Function.update_of_ne hap ..

theorem tasksOf_congr {s' : Processes} (h : ∀ a ∈ live, s'.process a = s.process a) :
    s'.tasksOf live = s.tasksOf live :=
  List.map_congr_left fun a ha => by rw [h a ha]

theorem setProcess (h : Nested s live) (hp : p ∉ live) (v : Process) :
    Nested (s.setProcess p v) live := by
  have hrec := setProcess_process (s := s) hp v
  refine ⟨?_, h.null, h.nodup, ?_, ?_, fun a ha => ?_, h.slot, h.length_le, fun i a hi => ?_,
    fun a ha => ?_, h.running⟩
  · rw [tasksOf_congr hrec]
    exact h.taskList
  · rw [tasksOf_congr hrec]
    exact h.taskNull
  · rw [tasksOf_congr hrec]
    exact h.taskNodup
  · rw [hrec a ha]
    exact h.owner a ha
  · rw [hrec a (List.mem_of_getElem? hi)]
    exact h.id i a hi
  · rw [hrec a (List.mem_of_getLast? ha)]
    exact h.current a ha

theorem processLoadAndSwitch_eq (h : Nested s live) {input : LoadInput}
    (hlt : live.length < zhiosMaxProcess) (hfile : 0 < input.fileType) (hprocess : input.process ≠ 0)
    (htask : input.task ≠ 0) (hstack : input.stack ≠ 0) :
    processLoadAndSwitch s input = some (input.fileType, input.process,
      { tasks := linkTask (s.tasks.setTask input.task (Task.new input.process input.pageDirectory)) input.task
        currentProcess := input.process
        processList := Function.update s.processList live.length input.process
        process := Function.update s.process input.process ⟨live.length, input.task, ⟨0, 0, fun _ => 0⟩⟩
        halted := s.halted }) := by
  have hslot := h.getProcessFreeSlot_eq
  rw [if_pos hlt] at hslot
  have hne : (live.length : ℤ) ≠ maxProcessReached := by unfold maxProcessReached; omega
  simp only [processLoadAndSwitch, loadProcess, hslot, if_neg hne, if_neg hprocess, if_neg (not_le.mpr hfile),
    createTask_eq _ _ _ htask, Option.map_some, if_neg hstack, if_neg (not_lt.mpr hfile.le), processSwitch,
    Processes.setProcess, Function.update_self, Function.update_idem, Int.toNat_natCast, Process.zero]

theorem load_state (h : Nested s live) {input : LoadInput} (hlt : live.length < zhiosMaxProcess)
    (hfile : 0 < input.fileType) (hprocess : input.process ≠ 0) (htask : input.task ≠ 0) (hstack : input.stack ≠ 0) :
    isr80hLoadProcessCommand s input =
      { tasks := switchTask (linkTask (s.tasks.setTask input.task (Task.new input.process input.pageDirectory))
          input.task) input.task
        currentProcess := input.process
        processList := Function.update s.processList live.length input.process
        process := Function.update s.process input.process ⟨live.length, input.task, ⟨0, 0, fun _ => 0⟩⟩
        halted := s.halted } := by
  simp only [isr80hLoadProcessCommand, processLoadWithArgs,
    h.processLoadAndSwitch_eq hlt hfile hprocess htask hstack, if_neg (not_lt.mpr hfile.le), Function.update_self]

/-- With memory enough, a load succeeds if there is a slot and the file is a program. -/
theorem succeeds_iff (h : Nested s live) {input : LoadInput} (hprocess : input.process ≠ 0) (htask : input.task ≠ 0)
    (hstack : input.stack ≠ 0) :
    input.succeeds s = true ↔ live.length < zhiosMaxProcess ∧ 0 < input.fileType := by
  simp only [LoadInput.succeeds, loadProcess, h.getProcessFreeSlot_eq]
  by_cases hlt : live.length < zhiosMaxProcess
  · have hne : (live.length : ℤ) ≠ maxProcessReached := by unfold maxProcessReached; omega
    simp only [if_pos hlt, if_neg hne, if_neg hprocess, createTask_eq _ _ _ htask, if_neg hstack]
    by_cases hfile : input.fileType ≤ 0
    · rw [if_pos hfile]
      simp [hlt]
    · rw [if_neg hfile]
      simp [hlt]
  · simp [hlt, maxProcessReached]

theorem load (h : Nested s live) {input : LoadInput} (hlt : live.length < zhiosMaxProcess)
    (hfile : 0 < input.fileType) (hprocess : input.process ≠ 0) (htask : input.task ≠ 0)
    (hdirectory : input.pageDirectory ≠ 0) (hstack : input.stack ≠ 0) (hnew : input.process ∉ live)
    (hnewTask : input.task ∉ s.tasksOf live) :
    Nested (isr80hLoadProcessCommand s input) (live ++ [input.process]) := by
  have hstate := h.load_state hlt hfile hprocess htask hstack
  generalize isr80hLoadProcessCommand s input = s' at hstate ⊢
  have hrec : ∀ a ∈ live, s'.process a = s.process a := by
    intro a ha
    have hap : a ≠ input.process := fun heq => hnew (heq ▸ ha)
    rw [hstate]
    exact Function.update_of_ne hap ..
  have hself : s'.process input.process = ⟨live.length, input.task, ⟨0, 0, fun _ => 0⟩⟩ := by
    rw [hstate]
    exact Function.update_self ..
  have htasks : s'.tasksOf (live ++ [input.process]) = s.tasksOf live ++ [input.task] := by
    simp only [Processes.tasksOf, List.map_append, List.map_cons, List.map_nil, hself]
    rw [List.map_congr_left fun a ha => by rw [hrec a ha]]
  have hnd : (s.tasksOf live ++ [input.task]).Nodup := by
    rw [← List.concat_eq_append]
    exact h.taskNodup.concat hnewTask
  have hlist : TaskList s'.tasks (s.tasksOf live ++ [input.task]) := by
    rw [hstate]
    exact ((h.taskList.setTask hnewTask _).link h.taskNull hnd (by simp [Task.new]) (by simp [Task.new])).switch
      (by simp)
  have howner : ∀ t, (s'.tasks.task t).process =
      if t = input.task then input.process else (s.tasks.task t).process := by
    intro t
    rw [hstate]
    simp only [switchTask, TaskList.linkTask_process, Tasks.setTask_task, Task.new, if_neg hdirectory]
    split_ifs <;> rfl
  refine ⟨htasks ▸ hlist, ?_, ?_, ?_, htasks ▸ hnd, ?_, ?_, by simpa using hlt, ?_, ?_, ?_⟩
  · simpa [Ne.symm hprocess] using h.null
  · rw [← List.concat_eq_append]
    exact h.nodup.concat hnew
  · rw [htasks]
    simpa [Ne.symm htask] using h.taskNull
  · intro a ha
    rcases List.mem_append.mp ha with hlive | hlast
    · have hne : (s.process a).task ≠ input.task :=
        fun heq => hnewTask (heq ▸ List.mem_map_of_mem hlive)
      rw [hrec a hlive, howner, if_neg hne, h.owner a hlive]
    · rw [List.mem_singleton.mp hlast, hself, howner, if_pos rfl]
  · intro i hi
    rw [hstate]
    simp only [Function.update_apply, List.getElem?_append]
    split_ifs with heq hil hil
    · omega
    · simp [heq]
    · exact h.slot i hi
    · rw [h.slot_eq_zero (by omega) hi, List.getElem?_eq_none (by simp; omega)]
      rfl
  · intro i a hi
    rcases lt_or_ge i live.length with hil | hil
    · rw [List.getElem?_append_left hil] at hi
      rw [hrec a (List.mem_of_getElem? hi), h.id i a hi]
    · rw [List.getElem?_append_right hil] at hi
      have hidx : i - live.length = 0 := by
        by_contra hne
        rw [List.getElem?_eq_none (by simp; omega)] at hi
        cases hi
      obtain rfl : input.process = a := by simpa [hidx] using hi
      rw [hself]
      simp only
      omega
  · intro a ha
    obtain rfl : input.process = a := by simpa using ha
    rw [hself, hstate]
    exact ⟨rfl, rfl⟩
  · rw [hstate]
    exact h.running

theorem load_failed (h : Nested s live) {input : LoadInput} (hprocess : input.process ≠ 0)
    (hnew : input.process ∉ live) (hfail : ¬ live.length < zhiosMaxProcess ∨ input.fileType < 0) :
    Nested (isr80hLoadProcessCommand s input) live := by
  have hslot := h.getProcessFreeSlot_eq
  by_cases hlt : live.length < zhiosMaxProcess
  · have hfile := hfail.resolve_left (not_not.mpr hlt)
    rw [if_pos hlt] at hslot
    have hne : (live.length : ℤ) ≠ maxProcessReached := by unfold maxProcessReached; omega
    have hstate : isr80hLoadProcessCommand s input = s.setProcess input.process Process.zero := by
      simp only [isr80hLoadProcessCommand, processLoadWithArgs, processLoadAndSwitch, loadProcess,
        hslot, if_neg hne, if_neg hprocess, if_pos hfile.le, Option.map_some, if_pos hfile]
    rw [hstate]
    exact h.setProcess hnew _
  · rw [if_neg hlt] at hslot
    have hstate : isr80hLoadProcessCommand s input = s := by
      simp [isr80hLoadProcessCommand, processLoadWithArgs, processLoadAndSwitch, loadProcess, hslot,
        maxProcessReached]
    rw [hstate]
    exact h

section Exit
variable (h : Nested s (front ++ [p]))
include h

theorem running_process : (s.tasks.task s.tasks.currentTask).process = p ∧ s.currentProcess = p := by
  obtain ⟨hcur, hproc⟩ := h.current p (by simp)
  exact ⟨by rw [hcur, h.owner p (by simp)], hproc⟩

theorem last_id : (s.process p).id = front.length := h.id front.length p (by simp)

theorem last_task : (s.process p).task ≠ 0 := by
  intro h0
  have hmem : (s.process p).task ∈ s.tasksOf (front ++ [p]) := List.mem_map_of_mem (by simp)
  exact h.taskNull (h0 ▸ hmem)

theorem freed_taskList : TaskList (removeFromTaskList s.tasks (s.process p).task) (s.tasksOf front) ∧
    (removeFromTaskList s.tasks (s.process p).task).currentTask = (s.tasksOf front).headD 0 := by
  have hsplit : s.tasksOf (front ++ [p]) = s.tasksOf front ++ [(s.process p).task] := by
    simp [Processes.tasksOf]
  have hlist := h.taskList
  have hnull := h.taskNull
  have hnd := h.taskNodup
  rw [hsplit] at hlist hnull hnd
  exact ⟨hlist.remove_last hnull hnd, hlist.remove_last_current hnull hnd (h.current p (by simp)).1⟩

theorem freed_owner (a : ℕ) (ha : a ∈ front) :
    ((removeFromTaskList s.tasks (s.process p).task).task (s.process a).task).process = a := by
  rw [TaskList.removeFromTaskList_task]
  split_ifs <;> exact h.owner a (List.mem_append_left _ ha)

omit h in
theorem exit_last (h : Nested s ([] ++ [p])) : (isr80hExitProcessCommand s).halted = true := by
  obtain ⟨hrun, hproc⟩ := h.running_process
  have hid := h.last_id
  have hfind : findSlot (fun i => Function.update s.processList (s.process p).id 0 i != 0)
      zhiosMaxProcess 0 = none := by
    refine (findSlot_eq_none_iff _ _ _).mpr fun i _ hi => ?_
    rw [hid, Function.update_apply]
    split_ifs with h0
    · rfl
    · simp only [List.length_nil] at h0
      simpa using h.slot_eq_zero (i := i) (by simp; omega) (by omega)
  simp only [isr80hExitProcessCommand, hrun, processFree_eq h.last_task, processUnlink, hproc, if_true,
    processSwitchToAny, hfind]

omit h in
/-- While other processes are left, the one in the first slot becomes current, and the task behind
the first one is resumed. -/
theorem exit_state {a : ℕ} {rest : List ℕ} (h : Nested s (a :: rest ++ [p])) :
    isr80hExitProcessCommand s = { s with
      tasks := switchTask (removeFromTaskList s.tasks (s.process p).task)
        ((s.tasksOf rest).headD (s.process a).task)
      currentProcess := a
      processList := Function.update s.processList (a :: rest).length 0 } := by
  obtain ⟨hrun, hproc⟩ := h.running_process
  obtain ⟨hlist, hcur⟩ := h.freed_taskList
  have hid := h.last_id
  have ha0 : a ≠ 0 := fun h0 => h.null (by simp [h0])
  have hslot0 : Function.update s.processList (a :: rest).length 0 0 = a := by
    rw [Function.update_of_ne (by simp), h.slot 0 (by decide)]
    rfl
  have hfind : findSlot (fun i => Function.update s.processList (a :: rest).length 0 i != 0)
      zhiosMaxProcess 0 = some 0 := by
    refine (findSlot_eq_some_iff _ _ _ _).mpr ⟨le_rfl, by decide, ?_, by omega⟩
    rw [hslot0]
    simpa using ha0
  have hnull : 0 ∉ s.tasksOf (a :: rest) := by
    intro hm
    exact h.taskNull (by rw [Processes.tasksOf, List.map_append]; exact List.mem_append_left _ hm)
  have hnext : getNextTask (removeFromTaskList s.tasks (s.process p).task) =
      (s.tasksOf rest).headD (s.process a).task := by
    have hcur : (removeFromTaskList s.tasks (s.process p).task).currentTask = (s.process a).task := hcur
    have hlink : ((removeFromTaskList s.tasks (s.process p).task).task (s.process a).task).next =
      (s.tasksOf rest).headD 0 := hlist.linked.2.1
    rw [getNextTask, hcur, hlink, hlist.head]
    cases rest with
    | nil => rfl
    | cons b rest => exact if_neg fun h0 : (s.process b).task = 0 => hnull (by simp [Processes.tasksOf, h0])
  have hne : (s.tasksOf rest).headD (s.process a).task ≠ 0 := by
    intro h0
    cases rest with
    | nil => exact hnull (by simp [Processes.tasksOf, show (s.process a).task = 0 from h0])
    | cons b rest => exact hnull (by simp [Processes.tasksOf, show (s.process b).task = 0 from h0])
  simp only [isr80hExitProcessCommand, hrun, processFree_eq h.last_task, processUnlink, hproc, if_true,
    processSwitchToAny, hid, hfind, processSwitch, h.running, taskNext, hnext, if_neg hne, hslot0]
  rfl

omit h in
/-- Of two nested processes the outer one is left, and it is resumed. -/
theorem exit_two {a : ℕ} (h : Nested s [a, p]) : Nested (isr80hExitProcessCommand s) [a] := by
  have hsplit : Nested s ([a] ++ [p]) := h
  have hstate := hsplit.exit_state
  obtain ⟨hlist, -⟩ := hsplit.freed_taskList
  generalize isr80hExitProcessCommand s = s' at hstate ⊢
  have htasks : s'.tasksOf [a] = [(s.process a).task] := by rw [hstate]; rfl
  have hnull := h.null
  have hslot := h.slot
  refine ⟨?_, fun hm => hnull (by simp_all), by simp, ?_, by rw [htasks]; simp, ?_, ?_,
    by simp [zhiosMaxProcess], ?_, ?_, ?_⟩
  · rw [htasks, hstate]
    exact hlist.switch List.mem_cons_self
  · rw [htasks]
    exact fun hm => h.taskNull (List.mem_of_mem_head? (by simp_all [Processes.tasksOf]))
  · intro b hb
    obtain rfl := List.mem_singleton.mp hb
    rw [hstate]
    exact hsplit.freed_owner b hb
  · intro i hi
    rw [hstate]
    simp only [Function.update_apply]
    split_ifs with h1
    · subst h1
      rfl
    · rw [hslot i hi]
      match i with
      | 0 => rfl
      | 1 => exact absurd rfl h1
      | i + 2 => rfl
  · intro i b hi
    match i with
    | 0 =>
      obtain rfl : a = b := by simpa using hi
      rw [hstate]
      exact h.id 0 a rfl
    | i + 1 => cases hi
  · intro b hb
    obtain rfl : a = b := by simpa using hb
    rw [hstate]
    exact ⟨rfl, rfl⟩
  · rw [hstate]
    exact h.running

omit h in
/-- Of three or more, the first slot's process and the second task are picked. -/
theorem exit_many {a b : ℕ} {rest : List ℕ} (h : Nested s (a :: b :: rest ++ [p])) :
    ¬ (isr80hExitProcessCommand s).Agree ∧ (isr80hExitProcessCommand s).halted = false := by
  have howner := h.freed_owner b (by simp)
  have hab : a ≠ b := by
    have := h.nodup
    rintro rfl
    simp at this
  rw [h.exit_state]
  refine ⟨fun hagree => hab ?_, h.running⟩
  exact hagree.process_eq.trans howner

end Exit

end Nested

/-- One event of a run: the running task loads a program, exits or faults. -/
inductive KernelOp
  | load (input : LoadInput)
  | exit
  | exception
  deriving DecidableEq, Repr

/-- The kernel and the processes that are live, in load order. -/
structure KernelRun where
  s : Processes
  live : List ℕ

namespace KernelRun

def exec (r : KernelRun) : KernelOp → KernelRun
  | .load input =>
    { s := isr80hLoadProcessCommand r.s input
      live := if input.succeeds r.s then r.live ++ [input.process] else r.live }
  | .exit => ⟨isr80hExitProcessCommand r.s, r.live.erase (r.s.tasks.task r.s.tasks.currentTask).process⟩
  | .exception => ⟨handleExceptions r.s, r.live.erase (r.s.tasks.task r.s.tasks.currentTask).process⟩

/-- The kernel runs; `load_data` reports a file type or an error; the heap returns
records that are not in use. -/
def Allows (r : KernelRun) : KernelOp → Prop
  | .load input => r.s.halted = false ∧ input.fileType ≠ 0 ∧ input.process ∉ r.live ∧
      input.task ∉ r.s.tasksOf r.live
  | _ => r.s.halted = false

instance (r : KernelRun) (op : KernelOp) : Decidable (r.Allows op) :=
  match op with
  | .load _ => inferInstanceAs (Decidable (_ ∧ _ ∧ _ ∧ _))
  | .exit => inferInstanceAs (Decidable (_ = _))
  | .exception => inferInstanceAs (Decidable (_ = _))

/-- No load runs out of heap memory. -/
def EnoughMemory (_ : KernelRun) : KernelOp → Prop
  | .load input => input.process ≠ 0 ∧ input.task ≠ 0 ∧ input.pageDirectory ≠ 0 ∧ input.stack ≠ 0
  | _ => True

def AtMostTwo (r : KernelRun) : KernelOp → Prop
  | .load _ => True
  | _ => r.live.length ≤ 2

instance (r : KernelRun) (op : KernelOp) : Decidable (r.AtMostTwo op) :=
  match op with
  | .load _ => inferInstanceAs (Decidable True)
  | .exit => inferInstanceAs (Decidable (_ ≤ _))
  | .exception => inferInstanceAs (Decidable (_ ≤ _))

/-- Either the kernel has stopped, or both layers name the same process. -/
def Agree (r : KernelRun) : Prop := r.s.halted = true ∨ r.s.Agree

/-- Stopped for good, or nested. -/
def Good (r : KernelRun) : Prop := r.s.halted = true ∨ (Nested r.s r.live ∧ r.live ≠ [])

theorem exec_exit {r : KernelRun} (h : Nested r.s r.live) (hlive : r.live ≠ []) :
    ((r.exec .exit).Agree ↔ r.live.length ≤ 2) ∧ ((r.exec .exit).Agree → (r.exec .exit).Good) := by
  obtain ⟨s, live⟩ := r
  simp only at h hlive
  rcases List.eq_nil_or_concat' live with rfl | ⟨front, p, rfl⟩
  · exact absurd rfl hlive
  have hrun := h.running_process.1
  have herase : (front ++ [p]).erase p = front := by
    have hnd := (List.nodup_concat front p).mp (by rw [List.concat_eq_append]; exact h.nodup)
    rw [List.erase_append_right _ hnd.1]
    simp
  simp only [exec, hrun, herase]
  match front with
  | [] => exact ⟨iff_of_true (Or.inl h.exit_last) (by simp), fun _ => Or.inl h.exit_last⟩
  | [a] =>
    have hnext := Nested.exit_two h
    exact ⟨iff_of_true (Or.inr (hnext.agree (p := a) rfl)) (by simp), fun _ => Or.inr ⟨hnext, by simp⟩⟩
  | a :: b :: rest =>
    obtain ⟨hdis, hrunning⟩ := Nested.exit_many h
    have hnot : ¬ KernelRun.Agree ⟨isr80hExitProcessCommand s, a :: b :: rest⟩ := by
      rintro (hhalt | hagree)
      · simp [hrunning] at hhalt
      · exact hdis hagree
    exact ⟨iff_of_false hnot (by simp), fun hagree => absurd hagree hnot⟩

theorem exec_load {r : KernelRun} (h : Nested r.s r.live) (hlive : r.live ≠ []) {input : LoadInput}
    (ha : r.Allows (.load input)) (hm : r.EnoughMemory (.load input)) :
    Nested (r.exec (.load input)).s (r.exec (.load input)).live ∧ (r.exec (.load input)).live ≠ [] := by
  obtain ⟨-, hfile, hprocess, htask⟩ := ha
  obtain ⟨hp0, ht0, hd0, hs0⟩ := hm
  have hres := h.succeeds_iff hp0 ht0 hs0
  by_cases hok : r.live.length < zhiosMaxProcess ∧ 0 < input.fileType
  · simp only [exec, if_pos (hres.mpr hok)]
    exact ⟨h.load hok.1 hok.2 hp0 ht0 hd0 hs0 hprocess htask, by simp⟩
  · have hfail : ¬ r.live.length < zhiosMaxProcess ∨ input.fileType < 0 := by
      by_cases hlt : r.live.length < zhiosMaxProcess
      · exact Or.inr (by omega)
      · exact Or.inl hlt
    simp only [exec, if_neg (mt hres.mp hok)]
    exact ⟨h.load_failed hp0 hprocess hfail, hlive⟩

/-- From good states, one event keeps the layers in agreement exactly when it is
no exit from three or more processes. -/
theorem exec_agree {r : KernelRun} (hg : r.Good) {op : KernelOp} (ha : r.Allows op)
    (hm : r.EnoughMemory op) :
    ((r.exec op).Agree ↔ r.AtMostTwo op) ∧ ((r.exec op).Agree → (r.exec op).Good) := by
  have hrunning : r.s.halted = false := by cases op <;> first | exact ha | exact ha.1
  obtain ⟨h, hlive⟩ := hg.resolve_left (by simp [hrunning])
  cases op with
  | load input =>
    obtain ⟨hnext, hne⟩ := exec_load h hlive ha hm
    have hagree := hnext.agree (List.getLast?_eq_some_getLast hne)
    exact ⟨iff_of_true (Or.inr hagree) trivial, fun _ => Or.inr ⟨hnext, hne⟩⟩
  | exit => exact exec_exit h hlive
  | exception => exact exec_exit h hlive

end KernelRun

theorem Nested.initial : Nested Processes.initial [] :=
  ⟨TaskList.initial, by simp, by simp, by simp [Processes.tasksOf], by simp [Processes.tasksOf], by simp,
    fun _ _ => rfl, by simp, by simp, by simp, rfl⟩

theorem kernelMain_nested {boot : LoadInput} (hfile : 0 < boot.fileType) (hprocess : boot.process ≠ 0)
    (htask : boot.task ≠ 0) (hdirectory : boot.pageDirectory ≠ 0) (hstack : boot.stack ≠ 0) :
    Nested (kernelMain Processes.initial boot) [boot.process] := by
  have hload := Nested.initial.load (by decide) hfile hprocess htask hdirectory hstack (by simp)
    (by simp [Processes.tasksOf])
  have hsame : kernelMain Processes.initial boot = isr80hLoadProcessCommand Processes.initial boot := by
    have hlink : (linkTask (Processes.initial.tasks.setTask boot.task (Task.new boot.process boot.pageDirectory))
        boot.task).headTask = boot.task := rfl
    rw [Nested.initial.load_state (by decide) hfile hprocess htask hstack]
    simp only [kernelMain, Nested.initial.processLoadAndSwitch_eq (by decide) hfile hprocess htask hstack,
      if_neg (not_lt.mpr hfile.le), runFirstTask, hlink, if_neg htask]
  rw [hsame]
  exact hload

/-- From the boot of the kernel, along every run in which no load runs out of
memory, the layers agree in every state exactly when no process ends while three
or more are live. -/
theorem scheduler_agrees_iff (boot : LoadInput) (hfile : 0 < boot.fileType)
    (hboot : boot.process ≠ 0 ∧ boot.task ≠ 0 ∧ boot.pageDirectory ≠ 0 ∧ boot.stack ≠ 0)
    (ops : List KernelOp)
    (hallow : Each KernelRun.exec KernelRun.Allows
      ⟨kernelMain Processes.initial boot, [boot.process]⟩ ops)
    (hmemory : Each KernelRun.exec KernelRun.EnoughMemory
      ⟨kernelMain Processes.initial boot, [boot.process]⟩ ops) :
    Always KernelRun.exec KernelRun.Agree ⟨kernelMain Processes.initial boot, [boot.process]⟩ ops ↔
      Each KernelRun.exec KernelRun.AtMostTwo
        ⟨kernelMain Processes.initial boot, [boot.process]⟩ ops := by
  have hnested := kernelMain_nested hfile hboot.1 hboot.2.1 hboot.2.2.1 hboot.2.2.2
  refine always_iff_each (G := KernelRun.Good) ?_ ?_ (Or.inr ⟨hnested, by simp⟩)
    (Or.inr (hnested.agree rfl)) (hallow.and hmemory)
  · exact fun r op hg _ ha => (KernelRun.exec_agree hg ha.1 ha.2).1
  · exact fun r op hg _ ha => (KernelRun.exec_agree hg ha.1 ha.2).2

/-- A shell that starts a program, which ends, and then starts it again. -/
theorem scheduler_agrees_iff_two :
    Always KernelRun.exec KernelRun.Agree
      ⟨kernelMain Processes.initial ⟨0x1000, 0x2000, 1, 0x3000, 1⟩, [0x1000]⟩
      [.load ⟨0x4000, 0x5000, 2, 0x6000, 1⟩, .exit, .load ⟨0x4000, 0x7000, 2, 0x6000, 1⟩] := by
  refine (scheduler_agrees_iff _ (by decide) (by decide) _ ?_ ?_).mpr ?_
  · refine ⟨?_, ?_, ?_, trivial⟩
    · decide
    · decide
    · decide
  · simp [Each, KernelRun.EnoughMemory]
  · exact ⟨trivial, by decide, trivial, trivial⟩

/-- Three nested processes: when the innermost ends, the keyboard goes to the
first while the second is resumed. -/
theorem scheduler_three_disagree :
    Each KernelRun.exec KernelRun.Allows
      ⟨kernelMain Processes.initial ⟨0x1000, 0x2000, 1, 0x3000, 1⟩, [0x1000]⟩
      [.load ⟨0x4000, 0x5000, 2, 0x6000, 1⟩, .load ⟨0x7000, 0x8000, 3, 0x9000, 1⟩, .exit] ∧
    ¬ Always KernelRun.exec KernelRun.Agree
      ⟨kernelMain Processes.initial ⟨0x1000, 0x2000, 1, 0x3000, 1⟩, [0x1000]⟩
      [.load ⟨0x4000, 0x5000, 2, 0x6000, 1⟩, .load ⟨0x7000, 0x8000, 3, 0x9000, 1⟩, .exit] := by
  constructor
  · refine ⟨?_, ?_, ?_, trivial⟩
    · decide
    · decide
    · decide
  · intro hall
    obtain ⟨-, -, -, hagree⟩ := hall
    rcases hagree with hhalt | hagree
    · exact absurd hhalt (by decide)
    · exact absurd hagree.process_eq (by decide)

end Zhios
