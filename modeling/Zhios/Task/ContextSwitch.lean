import Zhios.Task.Schedule
import Zhios.Task.Registers
import Zhios.Machine.Run

/-! Kernel entries and context switches over whole runs. Every entry that may switch
tasks saves the interrupted registers to the current task, so what `restore_task`
loads is right as long as the current task is the one that was interrupted. -/
namespace Zhios
open Machine

@[simp] theorem keyboardPush_tasks (s : Processes) (c : UInt8) : (keyboardPush s c).tasks = s.tasks := by
  unfold keyboardPush
  split_ifs <;> rfl

@[simp] theorem keyboardPush_taskOf (s : Processes) (c : UInt8) : (keyboardPush s c).taskOf = s.taskOf := by
  unfold keyboardPush
  split_ifs
  · rfl
  · rfl
  · rw [Processes.taskOf_setProcess]
    exact Function.update_eq_self _ _

@[simp] theorem keyboardPop_tasks (s : Processes) : (keyboardPop s).2.tasks = s.tasks := by
  unfold keyboardPop
  simp only []
  split_ifs <;> rfl

@[simp] theorem keyboardPop_taskOf (s : Processes) : (keyboardPop s).2.taskOf = s.taskOf := by
  unfold keyboardPop
  simp only []
  split_ifs
  · rfl
  · rfl
  · rw [Processes.taskOf_setProcess]
    exact Function.update_eq_self _ _

/-- What a system call asks for. The commands that leave tasks and processes alone
are one case. -/
inductive SystemCommand
  | getKey
  | loadProcess (input : LoadInput) (ip esp : UInt32)
  | exitProcess
  | other

/-- The service routines that are registered: the keyboard's, and the one for the
exceptions of the processor, some of which come with an error code. -/
inductive ServiceRoutine
  | keyboard (c : UInt8)
  | exceptions (errorCode : Option UInt32)

def ServiceRoutine.errorCode : ServiceRoutine → Option UInt32
  | .keyboard _ => none
  | .exceptions errorCode => errorCode

/-- An entry from user mode with the given registers. -/
inductive KernelEvent
  | isr80h (cpu : Cpu) (command : SystemCommand)
  | isr (cpu : Cpu) (routine : Option ServiceRoutine)

def KernelEvent.errorCode : KernelEvent → Option UInt32
  | .isr80h _ _ => none
  | .isr _ routine => routine.bind ServiceRoutine.errorCode

/-- The kernel's tables, `task->registers` of every task and the kernel stack. The
last four fields are not the kernel's: every task created so far, the task whose
user code runs, those that have run and were not ended by an exception with an error
code, and the registers with which each task last entered the kernel on a way that
saves them. -/
structure Kernel where
  state : Processes
  registers : ℕ → Registers
  mem : Mem
  created : List ℕ
  running : ℕ
  ran : List ℕ
  entered : ℕ → Option Cpu

namespace Kernel

def taskSaveCurrentState (k : Kernel) (cpu : Cpu) (errorCode : Option UInt32) : Kernel :=
  let entry := interruptEntry k.mem cpu errorCode
  if k.state.tasks.currentTask = 0 then { k with mem := entry.1, state := { k.state with halted := true } }
  else
    { k with
      mem := entry.1
      registers := Function.update k.registers k.state.tasks.currentTask (saveState (.load entry.1 entry.2))
      ran := if errorCode = none then k.ran else k.ran.filter (· ≠ k.running)
      entered := Function.update k.entered k.running (if errorCode = none then some cpu else none) }

/-- `restore_task(&current_task->registers)`: the task, and what is loaded. -/
def resume (k : Kernel) : Kernel × Option (ℕ × Cpu) :=
  let task := k.state.tasks.currentTask
  ({ k with running := task, ran := task :: k.ran }, some (task, restoreTask (k.registers task)))

def loadProcess (k : Kernel) (input : LoadInput) (ip esp : UInt32) : Kernel × Option (ℕ × Cpu) :=
  let loaded : Kernel := { k with
    state := isr80hLoadProcessCommand k.state input
    registers := if input.Creates k.state then Function.update k.registers input.task (initRegisters ip esp)
      else k.registers
    created := input.createdAfter k.state k.created }
  match processLoadWithArgs k.state input with
  | none => (loaded, none)
  | some r => if r.1 < 0 then (loaded, none) else loaded.resume

def endProcess (k : Kernel) : Kernel × Option (ℕ × Cpu) :=
  let ended : Kernel := { k with state := isr80hExitProcessCommand k.state }
  if ended.state.halted then (ended, none) else ended.resume

def isr80hHandler (k : Kernel) (cpu : Cpu) (command : SystemCommand) : Kernel × Option (ℕ × Cpu) :=
  let saved := k.taskSaveCurrentState cpu none
  if saved.state.halted then (saved, none)
  else match command with
    | .getKey => ({ saved with state := (keyboardPop saved.state).2 }, none)
    | .loadProcess input ip esp => saved.loadProcess input ip esp
    | .exitProcess => saved.endProcess
    | .other => (saved, none)

/-- Without a service routine nothing is saved. -/
def isrHandler (k : Kernel) (cpu : Cpu) (routine : Option ServiceRoutine) : Kernel × Option (ℕ × Cpu) :=
  match routine with
  | none => ({ k with mem := (interruptEntry k.mem cpu none).1 }, none)
  | some routine =>
    let saved := k.taskSaveCurrentState cpu routine.errorCode
    if saved.state.halted then (saved, none)
    else match routine with
      | .keyboard c => ({ saved with state := keyboardPush saved.state c }, none)
      | .exceptions _ => saved.endProcess

/-- The state after an event, and the task that `restore_task` resumed, if it was
called, with the registers it loaded. -/
def handle (k : Kernel) : KernelEvent → Kernel × Option (ℕ × Cpu)
  | .isr80h cpu command => k.isr80hHandler cpu command
  | .isr cpu routine => k.isrHandler cpu routine

def exec (k : Kernel) (e : KernelEvent) : Kernel := (k.handle e).1

/-- The kernel runs, user code runs in a page directory, and loads are possible ones. -/
def Allows (k : Kernel) (e : KernelEvent) : Prop :=
  k.state.halted = false ∧ (k.state.tasks.task k.state.tasks.currentTask).pageDirectory ≠ 0 ∧
    match e with
    | .isr80h _ (.loadProcess input _ _) => input.Sound k.created
    | _ => True

/-- A task that has run before is resumed as it was interrupted, with interrupts
enabled, and the saved registers of all tasks but the interrupted one stay. A task
that is being ended with an error code on the stack is not expected to go on. -/
def Preserves (k : Kernel) (e : KernelEvent) : Prop :=
  (∀ t cpu, (k.handle e).2 = some (t, cpu) → t ∈ k.ran → ¬ (t = k.running ∧ e.errorCode ≠ none) →
    ∃ c, (k.exec e).entered t = some c ∧ cpu = { c with eflags := c.eflags ||| 0x200 }) ∧
  ∀ t ∈ k.created, t ≠ k.running → (k.exec e).registers t = k.registers t

/-- During an entry: every task that has run has been saved, and what was saved last
is in its record. -/
structure Recorded (k : Kernel) : Prop where
  scheduled : k.state.Scheduled k.created
  ran_created : ∀ t ∈ k.ran, t ∈ k.created
  entered_created : ∀ t, k.entered t ≠ none → t ∈ k.created
  entered_ran : ∀ t ∈ k.ran, k.entered t ≠ none
  saved : ∀ t c, k.entered t = some c → k.registers t = saveState c.frame

/-- In user mode: the task that runs is the current one, and every other task that
has run has been saved. -/
structure Consistent (k : Kernel) : Prop where
  scheduled : k.state.Scheduled k.created
  running_eq : k.running = k.state.tasks.currentTask
  ran_created : ∀ t ∈ k.ran, t ∈ k.created
  entered_created : ∀ t, k.entered t ≠ none → t ∈ k.created
  entered_ran : ∀ t ∈ k.ran, t ≠ k.running → k.entered t ≠ none
  saved : ∀ t c, k.entered t = some c → k.registers t = saveState c.frame

variable {k : Kernel}

theorem Consistent.current_ne (h : k.Consistent) : k.state.tasks.currentTask ≠ 0 := by
  obtain ⟨stack, hs⟩ := h.scheduled
  exact hs.ne_zero hs.current

theorem Consistent.running_created (h : k.Consistent) : k.running ∈ k.created := by
  obtain ⟨stack, hs⟩ := h.scheduled
  rw [h.running_eq]
  exact hs.current

theorem Consistent.save_eq (h : k.Consistent) (cpu : Cpu) :
    k.taskSaveCurrentState cpu none = { k with
      mem := (interruptEntry k.mem cpu none).1
      registers := Function.update k.registers k.running (saveState cpu.frame)
      entered := Function.update k.entered k.running (some cpu) } := by
  rw [taskSaveCurrentState]
  simp only [if_neg h.current_ne, interruptFrame_load, h.running_eq, if_true]

theorem Consistent.save_frame (h : k.Consistent) (cpu : Cpu) (errorCode : Option UInt32) :
    (k.taskSaveCurrentState cpu errorCode).state = k.state ∧
      (k.taskSaveCurrentState cpu errorCode).created = k.created ∧
      (k.taskSaveCurrentState cpu errorCode).running = k.running ∧
      ∀ t, t ≠ k.running → (k.taskSaveCurrentState cpu errorCode).registers t = k.registers t := by
  rw [taskSaveCurrentState, if_neg h.current_ne]
  refine ⟨rfl, rfl, rfl, fun t hne => ?_⟩
  simp only [← h.running_eq, Function.update_of_ne hne]

theorem Consistent.save (h : k.Consistent) (cpu : Cpu) (errorCode : Option UInt32) :
    (k.taskSaveCurrentState cpu errorCode).Recorded := by
  cases errorCode with
  | none =>
    rw [h.save_eq]
    refine ⟨h.scheduled, h.ran_created, fun t hne => ?_, fun t ht => ?_, fun t c hc => ?_⟩
    · rcases eq_or_ne t k.running with rfl | hother
      · exact h.running_created
      · simp only [Function.update_of_ne hother] at hne
        exact h.entered_created t hne
    · rcases eq_or_ne t k.running with rfl | hother
      · simp
      · simp only [Function.update_of_ne hother]
        exact h.entered_ran t ht hother
    · rcases eq_or_ne t k.running with rfl | hother
      · simp only [Function.update_self, Option.some.injEq] at hc ⊢
        rw [hc]
      · simp only [Function.update_of_ne hother] at hc ⊢
        exact h.saved t c hc
  | some code =>
    -- the frame is out of place, and the task is not expected to come back
    rw [taskSaveCurrentState, if_neg h.current_ne]
    simp only [reduceCtorEq, if_false, ← h.running_eq]
    have hentered : ∀ t, Function.update k.entered k.running none t ≠ none → t ≠ k.running ∧ k.entered t ≠ none := by
      intro t hne
      rcases eq_or_ne t k.running with rfl | hother
      · simp at hne
      · rw [Function.update_of_ne hother] at hne
        exact ⟨hother, hne⟩
    refine ⟨h.scheduled, fun t ht => h.ran_created t (List.mem_of_mem_filter ht),
      fun t hne => h.entered_created t (hentered t hne).2, fun t ht => ?_, fun t c hc => ?_⟩
    · obtain ⟨hran, hother⟩ := List.mem_filter.mp ht
      have hne : t ≠ k.running := by simpa using hother
      simp only [Function.update_of_ne hne]
      exact h.entered_ran t hran hne
    · have hother := (hentered t (by simp only at hc; simp [hc])).1
      simp only [Function.update_of_ne hother] at hc ⊢
      exact h.saved t c hc

theorem Recorded.withState (h : k.Recorded) {s : Processes} (hs : s.Scheduled k.created) :
    Recorded { k with state := s } :=
  ⟨hs, h.ran_created, h.entered_created, h.entered_ran, h.saved⟩

theorem Recorded.stay (h : k.Recorded) (hrunning : k.running = k.state.tasks.currentTask) : k.Consistent :=
  ⟨h.scheduled, hrunning, h.ran_created, h.entered_created, fun t ht _ => h.entered_ran t ht, h.saved⟩

theorem Recorded.resume (h : k.Recorded) :
    k.resume.1.Consistent ∧ ∀ t cpu, k.resume.2 = some (t, cpu) → t ∈ k.ran →
      ∃ c, k.resume.1.entered t = some c ∧ cpu = { c with eflags := c.eflags ||| 0x200 } := by
  obtain ⟨stack, hs⟩ := h.scheduled
  constructor
  · refine ⟨⟨stack, hs⟩, rfl, ?_, h.entered_created, fun t ht hne => ?_, h.saved⟩
    · exact List.forall_mem_cons.mpr ⟨hs.current, h.ran_created⟩
    · exact h.entered_ran t ((List.mem_cons.mp ht).resolve_left hne)
  · intro t cpu hresumed hran
    obtain ⟨c, hc⟩ := Option.ne_none_iff_exists'.mp (h.entered_ran t hran)
    have hpair := Option.some.inj hresumed
    obtain rfl : k.state.tasks.currentTask = t := congrArg Prod.fst hpair
    have hcpu : restoreTask (k.registers k.state.tasks.currentTask) = cpu := congrArg Prod.snd hpair
    refine ⟨c, hc, ?_⟩
    rw [← hcpu, h.saved _ c hc, restoreTask_saveState]

/-- The outcome of one event: stopped, or consistent with what was promised. -/
structure Handled (k : Kernel) (r : Kernel × Option (ℕ × Cpu)) : Prop where
  consistent : r.1.state.halted = true ∨ r.1.Consistent
  resumed : ∀ t cpu, r.2 = some (t, cpu) → t ∈ k.ran →
    ∃ c, r.1.entered t = some c ∧ cpu = { c with eflags := c.eflags ||| 0x200 }
  frame : ∀ t ∈ k.created, r.1.registers t = k.registers t

theorem Recorded.handled_stay (h : k.Recorded) (hrunning : k.running = k.state.tasks.currentTask) {s : Processes}
    (htasks : s.tasks = k.state.tasks) (htaskOf : s.taskOf = k.state.taskOf) :
    k.Handled ({ k with state := s }, none) := by
  have hscheduled : s.Scheduled k.created := by
    rw [Processes.Scheduled, htasks, htaskOf]
    exact h.scheduled
  have hcurrent : k.running = s.tasks.currentTask := by rw [htasks, hrunning]
  exact ⟨Or.inr ((h.withState hscheduled).stay hcurrent), by simp, fun _ _ => rfl⟩

theorem Recorded.endProcess (h : k.Recorded)
    (hdir : (k.state.tasks.task k.state.tasks.currentTask).pageDirectory ≠ 0) : k.Handled k.endProcess := by
  unfold Kernel.endProcess
  simp only []
  split_ifs with hhalted
  · exact ⟨Or.inl hhalted, by simp, fun _ _ => rfl⟩
  · have hended := h.withState ((h.scheduled.exit hdir).resolve_left hhalted)
    obtain ⟨hconsistent, hresumed⟩ := hended.resume
    exact ⟨Or.inr hconsistent, hresumed, fun _ _ => rfl⟩

theorem Recorded.loadProcess (h : k.Recorded) (hrunning : k.running = k.state.tasks.currentTask)
    {input : LoadInput} (hsound : input.Sound k.created) (ip esp : UInt32) :
    k.Handled (k.loadProcess input ip esp) := by
  have hsub : ∀ t ∈ k.created, t ∈ input.createdAfter k.state k.created := by
    intro t ht
    unfold LoadInput.createdAfter
    split_ifs
    · exact List.mem_cons_of_mem _ ht
    · exact ht
  have hregisters : ∀ t ∈ k.created, (if input.Creates k.state then
      Function.update k.registers input.task (initRegisters ip esp) else k.registers) t = k.registers t := by
    intro t ht
    have hne : t ≠ input.task := by
      intro heq
      exact hsound.fresh (heq ▸ ht)
    split_ifs
    · exact Function.update_of_ne hne ..
    · rfl
  have hrecorded : (isr80hLoadProcessCommand k.state input).Scheduled (input.createdAfter k.state k.created) →
      Recorded { k with
        state := isr80hLoadProcessCommand k.state input
        registers := if input.Creates k.state then
          Function.update k.registers input.task (initRegisters ip esp) else k.registers
        created := input.createdAfter k.state k.created } := by
    intro hscheduled
    refine ⟨hscheduled, fun t ht => hsub t (h.ran_created t ht), fun t hne => hsub t (h.entered_created t hne),
      h.entered_ran, fun t c hc => ?_⟩
    have hcreated := h.entered_created t (by simp only at hc; simp [hc])
    simp only [hregisters t hcreated]
    exact h.saved t c hc
  unfold Kernel.loadProcess
  cases hload : processLoadWithArgs k.state input with
  | none =>
    have hhalted : (isr80hLoadProcessCommand k.state input).halted = true := by
      simp only [isr80hLoadProcessCommand, hload]
    exact ⟨Or.inl hhalted, by simp, hregisters⟩
  | some r =>
    obtain ⟨res, process, s'⟩ := r
    simp only
    by_cases hneg : res < 0
    · obtain ⟨hscheduled, -, hcurrent⟩ := h.scheduled.load_failed hsound hload hneg
      rw [if_pos hneg]
      exact ⟨Or.inr ((hrecorded hscheduled).stay (hrunning.trans hcurrent.symm)), by simp, hregisters⟩
    · obtain ⟨hscheduled, -⟩ := h.scheduled.load hsound hload hneg
      rw [if_neg hneg]
      obtain ⟨hconsistent, hresumed⟩ := (hrecorded hscheduled).resume
      exact ⟨Or.inr hconsistent, hresumed, hregisters⟩

/-- What was handled after the save holds of the whole event. -/
theorem Consistent.handle_saved (h : k.Consistent) {e : KernelEvent} (cpu : Cpu)
    (hhandled : (k.taskSaveCurrentState cpu e.errorCode).Handled (k.handle e)) :
    ((k.exec e).state.halted = true ∨ (k.exec e).Consistent) ∧ k.Preserves e := by
  obtain ⟨-, hcreated, -, hregisters⟩ := h.save_frame cpu e.errorCode
  refine ⟨hhandled.consistent, fun t cpu' hresumed hran hended => ?_, fun t ht hne => ?_⟩
  · apply hhandled.resumed t cpu' hresumed
    rw [taskSaveCurrentState, if_neg h.current_ne]
    by_cases herror : e.errorCode = none
    · simpa only [if_pos herror] using hran
    · have hne : t ≠ k.running := fun heq => hended ⟨heq, herror⟩
      simpa [if_neg herror] using ⟨hran, hne⟩
  · rw [← hregisters t hne]
    exact hhandled.frame t (hcreated ▸ ht)

/-- One event, from user mode to user mode. -/
theorem Consistent.handle (h : k.Consistent) {e : KernelEvent} (hallows : k.Allows e) :
    ((k.exec e).state.halted = true ∨ (k.exec e).Consistent) ∧ k.Preserves e := by
  obtain ⟨hhalted, hdir, hload⟩ := hallows
  cases e with
  | isr80h cpu command =>
    apply h.handle_saved cpu
    have hrecorded := h.save cpu none
    obtain ⟨hstate, hcreated, hrunning, -⟩ := h.save_frame cpu none
    have hcurrent : (k.taskSaveCurrentState cpu none).running =
        (k.taskSaveCurrentState cpu none).state.tasks.currentTask := by rw [hstate, hrunning, h.running_eq]
    have hgoes : ¬ (k.taskSaveCurrentState cpu none).state.halted = true := by
      rw [hstate, hhalted]
      exact Bool.false_ne_true
    change Handled _ (k.isr80hHandler cpu command)
    unfold isr80hHandler
    rw [if_neg hgoes]
    cases command with
    | getKey => exact hrecorded.handled_stay hcurrent (keyboardPop_tasks _) (keyboardPop_taskOf _)
    | loadProcess input ip esp => exact hrecorded.loadProcess hcurrent (hcreated ▸ hload) ip esp
    | exitProcess => exact hrecorded.endProcess (by rw [hstate]; exact hdir)
    | other => exact hrecorded.handled_stay hcurrent rfl rfl
  | isr cpu routine =>
    cases routine with
    | none =>
      exact ⟨Or.inr ⟨h.scheduled, h.running_eq, h.ran_created, h.entered_created, h.entered_ran, h.saved⟩,
        by simp [Kernel.handle, isrHandler], fun _ _ _ => rfl⟩
    | some routine =>
      apply h.handle_saved cpu
      have hrecorded := h.save cpu routine.errorCode
      obtain ⟨hstate, -, hrunning, -⟩ := h.save_frame cpu routine.errorCode
      have hgoes : ¬ (k.taskSaveCurrentState cpu routine.errorCode).state.halted = true := by
        rw [hstate, hhalted]
        exact Bool.false_ne_true
      change Handled _ (k.isrHandler cpu (some routine))
      simp only [isrHandler]
      rw [if_neg hgoes]
      cases routine with
      | keyboard c =>
        exact hrecorded.handled_stay (by rw [hstate, hrunning, h.running_eq]) (keyboardPush_tasks _ c)
          (keyboardPush_taskOf _ c)
      | exceptions errorCode => exact hrecorded.endProcess (by rw [hstate]; exact hdir)

def start (m : Mem) (registers : ℕ → Registers) (input : LoadInput) (ip esp : UInt32) : Kernel :=
  { state := kernelMain Processes.initial input
    registers := Function.update registers input.task (initRegisters ip esp)
    mem := m
    created := [input.task]
    running := input.task
    ran := [input.task]
    entered := fun _ => none }

theorem start_consistent (m : Mem) (registers : ℕ → Registers) (input : LoadInput) (ip esp : UInt32) :
    (start m registers input ip esp).state.halted = true ∨ (start m registers input ip esp).Consistent := by
  rcases kernelMain_scheduled input with hhalted | ⟨hscheduled, hcurrent⟩
  · exact Or.inl hhalted
  · right
    refine ⟨hscheduled, hcurrent.symm, fun t ht => ht, fun t hne => absurd rfl hne, fun t ht hne => ?_,
      fun t c hc => ?_⟩
    · exact absurd (List.mem_singleton.mp ht) hne
    · simp [start] at hc

end Kernel

/-- Over any run of system calls, interrupts, process starts and exits, a task that
has run is resumed with the registers it last entered the kernel with, and no entry
touches the saved registers of another task. -/
theorem contextSwitch_preserves (m : Mem) (registers : ℕ → Registers) (input : LoadInput) (ip esp : UInt32)
    (events : List KernelEvent)
    (hrun : Each Kernel.exec Kernel.Allows (.start m registers input ip esp) events) :
    Each Kernel.exec Kernel.Preserves (.start m registers input ip esp) events := by
  have hgood : ∀ (k : Kernel) (e : KernelEvent), k.state.halted = true ∨ k.Consistent → k.Allows e → k.Consistent := by
    intro k e hk hallows
    refine hk.resolve_left fun hhalted => ?_
    rw [hallows.1] at hhalted
    exact Bool.false_ne_true hhalted
  refine (each_iff_each (G := fun k => k.state.halted = true ∨ k.Consistent) (D := fun _ _ => True)
    (fun k e hk hallows => ?_) (fun k e hk hallows _ => ?_)
    (Kernel.start_consistent m registers input ip esp) hrun).mpr ?_
  · exact iff_true_intro ((hgood k e hk hallows).handle hallows).2
  · exact ((hgood k e hk hallows).handle hallows).1
  · exact each_true _ _

def shellInput : LoadInput := ⟨0x1000, 0x5000, 0x6000, 0x9000, 1⟩
def programInput : LoadInput := ⟨0x11000, 0x15000, 0x16000, 0x19000, 1⟩

def shellCpu : Cpu := ⟨1, 2, 3, 4, 5, 6, 7, 0x400010, userCodeSegment, 0x202, 0x3FEF00, userDataSegment⟩
def programCpu : Cpu := ⟨8, 9, 10, 11, 12, 13, 14, 0x400020, userCodeSegment, 0x202, 0x3FEE00, userDataSegment⟩

/-- The shell starts the program, a key is pressed, and the program ends. -/
def shellRun : List KernelEvent :=
  [.isr80h shellCpu (.loadProcess programInput 0x400000 0x3FEFF0), .isr programCpu (some (.keyboard 97)),
    .isr80h programCpu .exitProcess]

def shellStart : Kernel := .start (fun _ => 0) (fun _ => initRegisters 0 0) shellInput 0x400000 0x3FF000

theorem contextSwitch_preserves_shell :
    Each Kernel.exec Kernel.Allows shellStart shellRun ∧ Each Kernel.exec Kernel.Preserves shellStart shellRun := by
  have hallows : Each Kernel.exec Kernel.Allows shellStart shellRun := by
    refine ⟨⟨rfl, by decide, ⟨by decide, by decide⟩⟩, ⟨rfl, by decide, trivial⟩,
      ⟨rfl, by decide, trivial⟩, trivial⟩
  exact ⟨hallows, contextSwitch_preserves _ _ _ _ _ _ hallows⟩

end Zhios
