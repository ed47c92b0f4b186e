import Zhios.Task.TaskList
import Zhios.Task.Process
import Zhios.Machine.Rank

/-! What the task list keeps in every run, with its stale links and with loads that
fail. Tasks are ranked by creation. Links lead from older to newer tasks, the tail
moves back along the tasks it was before, and the current task is never older than
the head; so the list has a head as long as some task runs. -/
namespace Zhios
open Machine

/-- `stack` lists the tail, its predecessor and so on, to the first task. -/
def PrevChain (s : Tasks) : (tail : ℕ) → (stack : List ℕ) → Prop
  | tail, [] => tail = 0
  | tail, t :: stack => t = tail ∧ t ≠ 0 ∧ PrevChain s (s.task t).prev stack

theorem PrevChain.congr {s s' : Tasks} {tail : ℕ} {stack : List ℕ} (h : PrevChain s tail stack)
    (hprev : ∀ t ∈ stack, (s'.task t).prev = (s.task t).prev) : PrevChain s' tail stack := by
  induction stack generalizing tail with
  | nil => exact h
  | cons t stack ih =>
    obtain ⟨htail, hne, hrest⟩ := h
    refine ⟨htail, hne, ?_⟩
    rw [hprev t List.mem_cons_self]
    exact ih hrest fun u hu => hprev u (List.mem_cons_of_mem t hu)

theorem PrevChain.prev_mem {s : Tasks} {tail : ℕ} {stack : List ℕ} (h : PrevChain s tail stack) {t : ℕ}
    (ht : t ∈ stack) (hprev : (s.task t).prev ≠ 0) : (s.task t).prev ∈ stack.tail := by
  induction stack generalizing tail with
  | nil => simp at ht
  | cons a stack ih =>
    obtain ⟨-, -, hrest⟩ := h
    rw [List.tail_cons]
    rcases List.mem_cons.mp ht with rfl | hmem
    · cases stack with
      | nil => exact absurd hrest hprev
      | cons b stack => exact hrest.1 ▸ List.mem_cons_self
    · exact List.mem_of_mem_tail (ih hrest hmem)

/-- The invariant, over the task module's state and the task that each process names
as its own. -/
structure Schedule (s : Tasks) (taskOf : ℕ → ℕ) (created stack : List ℕ) : Prop where
  null : 0 ∉ created
  next_lt : ∀ t, (s.task t).next ≠ 0 → rank created t < rank created (s.task t).next
  prev_created : ∀ t, (s.task t).prev ≠ 0 → (s.task t).prev ∈ created
  prev_lt : ∀ t, (s.task t).prev ≠ 0 → rank created (s.task t).prev < rank created t
  first : ∀ t ∈ created, (s.task t).prev = 0 → rank created t = 1
  owner : ∀ t ∈ created, (s.task t).pageDirectory ≠ 0 → taskOf (s.task t).process = 0 ∨
    rank created t ≤ rank created (taskOf (s.task t).process)
  head : s.headTask ∈ created
  current : s.currentTask ∈ created
  head_le : rank created s.headTask ≤ rank created s.currentTask
  chain : PrevChain s s.tailTask stack
  stack_ne : stack ≠ []
  stack_created : ∀ t ∈ stack, t ∈ created
  next_stack : ∀ t, (s.task t).next ≠ 0 → t ∈ stack.tail

namespace Schedule
variable {s : Tasks} {taskOf : ℕ → ℕ} {created stack : List ℕ}

theorem ne_zero (h : Schedule s taskOf created stack) {t : ℕ} (ht : t ∈ created) : t ≠ 0 :=
  fun h0 => h.null (h0 ▸ ht)

theorem next_created (h : Schedule s taskOf created stack) {t : ℕ} (hnext : (s.task t).next ≠ 0) :
    (s.task t).next ∈ created :=
  rank_pos_iff.mp (Nat.zero_lt_of_lt (h.next_lt t hnext))

theorem rank_chain (h : Schedule s taskOf created stack) {tail a : ℕ} {rest : List ℕ}
    (hchain : PrevChain s tail (a :: rest)) : ∀ u ∈ rest, rank created u < rank created a := by
  induction rest generalizing tail a with
  | nil => simp
  | cons b rest ih =>
    obtain ⟨-, -, hrest⟩ := hchain
    have hb := hrest.1
    have hb0 := hrest.2.1
    have hlt : rank created b < rank created a := by
      rw [hb] at hb0 ⊢
      exact h.prev_lt a hb0
    refine List.forall_mem_cons.mpr ⟨hlt, fun u hu => (ih hrest u hu).trans hlt⟩

theorem tail_eq (h : Schedule s taskOf created stack) : ∃ rest, stack = s.tailTask :: rest := by
  have hchain := h.chain
  cases stack with
  | nil => exact absurd rfl h.stack_ne
  | cons a rest => exact ⟨rest, by rw [hchain.1]⟩

theorem tail_created (h : Schedule s taskOf created stack) : s.tailTask ∈ created := by
  obtain ⟨rest, hstack⟩ := h.tail_eq
  exact h.stack_created _ (by simp [hstack])

theorem tail_next (h : Schedule s taskOf created stack) : (s.task s.tailTask).next = 0 := by
  obtain ⟨rest, hstack⟩ := h.tail_eq
  by_contra hne
  have hmem := h.next_stack _ hne
  have hchain := h.chain
  rw [hstack] at hmem hchain
  exact (h.rank_chain hchain _ hmem).false

theorem withTaskOf (h : Schedule s taskOf created stack) {taskOf' : ℕ → ℕ}
    (howner : ∀ p, taskOf' p = taskOf p ∨ taskOf' p = 0) : Schedule s taskOf' created stack := by
  refine { h with owner := fun t ht hdir => ?_ }
  rcases howner (s.task t).process with hsame | hzero
  · rw [hsame]
    exact h.owner t ht hdir
  · exact Or.inl hzero

theorem switch (h : Schedule s taskOf created stack) {t : ℕ} (ht : t ∈ created)
    (hle : rank created s.headTask ≤ rank created t) : Schedule (switchTask s t) taskOf created stack :=
  { h with current := ht, head_le := hle, chain := h.chain.congr fun _ _ => rfl }

theorem switch_next (h : Schedule s taskOf created stack) :
    Schedule (switchTask s (getNextTask s)) taskOf created stack ∧ getNextTask s ≠ 0 := by
  unfold getNextTask
  split_ifs with hnext
  · exact ⟨h.switch h.head le_rfl, h.ne_zero h.head⟩
  · exact ⟨h.switch (h.next_created hnext) (h.head_le.trans (h.next_lt _ hnext).le), hnext⟩

theorem createTask_fields (h : Schedule s taskOf created stack) {task : ℕ} (hfresh : task ∉ created)
    (process pageDirectory a : ℕ) :
    ((linkTask (s.setTask task (Task.new process pageDirectory)) task).task a).next =
        (if a = task then 0 else if a = s.tailTask then task else (s.task a).next) ∧
      ((linkTask (s.setTask task (Task.new process pageDirectory)) task).task a).prev =
        (if a = task then s.tailTask else (s.task a).prev) ∧
      ((linkTask (s.setTask task (Task.new process pageDirectory)) task).task a).process =
        (if a = task then if pageDirectory = 0 then 0 else process else (s.task a).process) ∧
      ((linkTask (s.setTask task (Task.new process pageDirectory)) task).task a).pageDirectory =
        if a = task then pageDirectory else (s.task a).pageDirectory := by
  have htail : s.tailTask ≠ task := by
    intro heq
    exact hfresh (heq ▸ h.tail_created)
  have hhead : ¬ (s.setTask task (Task.new process pageDirectory)).headTask = 0 := h.ne_zero h.head
  have hsame : (s.setTask task (Task.new process pageDirectory)).tailTask = s.tailTask := rfl
  rw [linkTask, if_neg hhead, hsame]
  simp only [Tasks.setPrev, Tasks.setNext, Tasks.setTask_task, Task.new]
  split_ifs <;> simp_all

theorem createTask_cursors (h : Schedule s taskOf created stack) (task process pageDirectory : ℕ) :
    (linkTask (s.setTask task (Task.new process pageDirectory)) task).headTask = s.headTask ∧
      (linkTask (s.setTask task (Task.new process pageDirectory)) task).tailTask = task ∧
      (linkTask (s.setTask task (Task.new process pageDirectory)) task).currentTask = s.currentTask := by
  have hhead : ¬ (s.setTask task (Task.new process pageDirectory)).headTask = 0 := h.ne_zero h.head
  rw [linkTask, if_neg hhead]
  exact ⟨rfl, rfl, rfl⟩

/-- Creating a task pushes it on the chain of tails; the current task stays. -/
theorem create (h : Schedule s taskOf created stack) {task : ℕ} (hfresh : task ∉ created)
    (htask : task ≠ 0) (process pageDirectory : ℕ) :
    Schedule (linkTask (s.setTask task (Task.new process pageDirectory)) task) (Function.update taskOf process task)
      (task :: created) (task :: stack) := by
  have hfields := h.createTask_fields hfresh process pageDirectory
  have hnextf := fun a => (hfields a).1
  have hprevf := fun a => (hfields a).2.1
  have hprocessf := fun a => (hfields a).2.2.1
  obtain ⟨hhead, htail, hcurrent⟩ := h.createTask_cursors task process pageDirectory
  have hne : ∀ t ∈ created, t ≠ task := fun t ht heq => hfresh (heq ▸ ht)
  have hrank : ∀ t ∈ created, rank (task :: created) t = rank created t :=
    fun t ht => rank_cons_of_ne created (hne t ht)
  have hnew := rank_cons_self created task
  have hle : ∀ t, rank created t ≤ created.length := rank_le created
  have htailmem := h.tail_created
  constructor
  · exact List.not_mem_cons_of_ne_of_not_mem htask.symm h.null
  · intro t hnext
    rw [hnextf] at hnext ⊢
    split_ifs at hnext ⊢ with ht htl
    · exact absurd rfl hnext
    · rw [hnew, htl, hrank _ htailmem]
      have := hle s.tailTask
      omega
    · rw [hrank _ (h.next_created hnext), rank_cons_of_ne created ht]
      exact h.next_lt t hnext
  · intro t hprev
    rw [hprevf] at hprev ⊢
    split_ifs at hprev ⊢ with ht
    · exact List.mem_cons_of_mem _ htailmem
    · exact List.mem_cons_of_mem _ (h.prev_created t hprev)
  · intro t hprev
    rw [hprevf] at hprev ⊢
    split_ifs at hprev ⊢ with ht
    · rw [ht, hnew, hrank _ htailmem]
      have := hle s.tailTask
      omega
    · rw [hrank _ (h.prev_created t hprev), rank_cons_of_ne created ht]
      exact h.prev_lt t hprev
  · intro t ht hprev
    rw [hprevf] at hprev
    split_ifs at hprev with hnewt
    · exact absurd hprev (h.ne_zero htailmem)
    · have hold := (List.mem_cons.mp ht).resolve_left hnewt
      rw [hrank t hold]
      exact h.first t hold hprev
  · intro t ht hdirt
    rw [(hfields t).2.2.2] at hdirt
    rw [hprocessf]
    have hmax : rank (task :: created) t ≤ rank (task :: created) task := by
      rw [hnew]
      exact rank_le (task :: created) t
    split_ifs at hdirt ⊢ with hnewt hdir
    · exact absurd hdir hdirt
    · rw [Function.update_self]
      exact Or.inr hmax
    · have hold := (List.mem_cons.mp ht).resolve_left hnewt
      rcases eq_or_ne (s.task t).process process with heq | hother
      · rw [heq, Function.update_self]
        exact Or.inr hmax
      · rw [Function.update_of_ne hother]
        refine (h.owner t hold hdirt).imp_right fun hlt => ?_
        have hpos : 0 < rank created t := rank_pos_iff.mpr hold
        rwa [hrank t hold, hrank _ (rank_pos_iff.mp (hpos.trans_le hlt))]
  · rw [hhead]
    exact List.mem_cons_of_mem _ h.head
  · rw [hcurrent]
    exact List.mem_cons_of_mem _ h.current
  · rw [hhead, hcurrent, hrank _ h.head, hrank _ h.current]
    exact h.head_le
  · rw [htail]
    refine ⟨rfl, htask, ?_⟩
    rw [hprevf, if_pos rfl]
    refine h.chain.congr fun t ht => ?_
    rw [hprevf, if_neg (hne t (h.stack_created t ht))]
  · simp
  · exact List.forall_mem_cons.mpr ⟨List.mem_cons_self, fun t ht => List.mem_cons_of_mem _ (h.stack_created t ht)⟩
  · intro t hnext
    rw [hnextf] at hnext
    rw [List.tail_cons]
    split_ifs at hnext with ht htl
    · exact absurd rfl hnext
    · obtain ⟨rest, hstack⟩ := h.tail_eq
      simp [hstack, htl]
    · exact List.mem_of_mem_tail (h.next_stack t hnext)

/-- The task that the process of the current task names as its own is the current
one or a newer one, so that the head is removed only while it is current. -/
theorem head_current (h : Schedule s taskOf created stack)
    (hdir : (s.task s.currentTask).pageDirectory ≠ 0) (ht : taskOf (s.task s.currentTask).process ≠ 0) :
    taskOf (s.task s.currentTask).process ∈ created ∧
      (taskOf (s.task s.currentTask).process = s.headTask →
        s.currentTask = taskOf (s.task s.currentTask).process) := by
  have hle := (h.owner _ h.current hdir).resolve_left ht
  have hpos : 0 < rank created s.currentTask := rank_pos_iff.mpr h.current
  refine ⟨rank_pos_iff.mp (hpos.trans_le hle), fun hhead => ?_⟩
  have hback := h.head_le
  rw [← hhead] at hback
  exact rank_inj h.current (hle.antisymm hback)

/-- Removal changes one link: the predecessor's. -/
theorem remove_fields (s : Tasks) (t a : ℕ) :
    ((removeFromTaskList s t).task a).next =
        (if (s.task t).prev ≠ 0 ∧ a = (s.task t).prev then (s.task t).next else (s.task a).next) ∧
      ((removeFromTaskList s t).task a).prev = (s.task a).prev ∧
      ((removeFromTaskList s t).task a).process = (s.task a).process ∧
      ((removeFromTaskList s t).task a).pageDirectory = (s.task a).pageDirectory := by
  rw [TaskList.removeFromTaskList_task]
  split_ifs <;> exact ⟨rfl, rfl, rfl, rfl⟩

/-- A removed tail takes the chain back to its predecessor; any other task leaves it. -/
theorem remove_chain (h : Schedule s taskOf created stack) (t : ℕ)
    (htail : (removeFromTaskList s t).tailTask = if t = s.tailTask then (s.task t).prev else s.tailTask) :
    ∃ stack', PrevChain (removeFromTaskList s t) (removeFromTaskList s t).tailTask stack' ∧
      (∀ a ∈ stack', a ∈ stack) ∧ (stack' = [] → t = s.tailTask ∧ (s.task t).prev = 0) ∧
      ∀ a, ((removeFromTaskList s t).task a).next ≠ 0 → a ∈ stack'.tail := by
  have hfields := remove_fields s t
  have hprev : ∀ a, ((removeFromTaskList s t).task a).prev = (s.task a).prev := fun a => (hfields a).2.1
  have hchain := h.chain
  obtain ⟨rest, hstack⟩ := h.tail_eq
  rw [htail]
  split_ifs with heq
  · subst heq
    rw [hstack] at hchain ⊢
    refine ⟨rest, hchain.2.2.congr fun a _ => hprev a, fun a => List.mem_cons_of_mem _, ?_, fun a hnext => ?_⟩
    · intro hnil
      have hend := hchain.2.2
      rw [hnil] at hend
      exact ⟨rfl, hend⟩
    · rw [(hfields a).1, h.tail_next] at hnext
      split_ifs at hnext with hpred
      · exact absurd rfl hnext
      · have hmem := h.next_stack a hnext
        rw [hstack, List.tail_cons] at hmem
        cases rest with
        | nil => simp at hmem
        | cons b rest =>
          have hb := hchain.2.2.1
          have hb0 := hchain.2.2.2.1
          rcases List.mem_cons.mp hmem with rfl | hlater
          · exact absurd ⟨hb ▸ hb0, hb⟩ hpred
          · exact hlater
  · refine ⟨stack, hchain.congr fun a _ => hprev a, fun a ha => ha, fun hnil => absurd hnil h.stack_ne,
      fun a hnext => ?_⟩
    rw [(hfields a).1] at hnext
    split_ifs at hnext with hpred
    · rw [hpred.2]
      exact hchain.prev_mem (List.mem_of_mem_tail (h.next_stack t hnext)) hpred.1
    · exact h.next_stack a hnext

/-- Removing the task of the current task's process keeps the invariant, unless no
task is left to run. -/
theorem remove (h : Schedule s taskOf created stack) {t : ℕ}
    (hdir : (s.task s.currentTask).pageDirectory ≠ 0) (ht : taskOf (s.task s.currentTask).process = t) (ht0 : t ≠ 0) :
    getNextTask (removeFromTaskList s t) = 0 ∨
      ∃ stack', Schedule (removeFromTaskList s t) taskOf created stack' := by
  obtain ⟨hmem, hheadcur⟩ := h.head_current hdir (ht ▸ ht0)
  rw [ht] at hmem hheadcur
  have hfields := remove_fields s t
  have hself : t ≠ (s.task t).prev := by
    intro heq
    have hlt := h.prev_lt t (heq ▸ ht0)
    rw [← heq] at hlt
    exact hlt.false
  obtain ⟨hhead, htail, hcurrent⟩ := TaskList.removeFromTaskList_cursors s hself
  obtain ⟨stack', hchain, hsub, hempty, hnext⟩ := h.remove_chain t htail
  by_cases hlast : t = s.headTask ∧ (s.task t).next = 0
  · -- the head was the only task the list led to
    left
    have hnext0 : ((removeFromTaskList s t).task 0).next = 0 := by
      by_contra hne
      exact h.null (h.stack_created 0 (hsub 0 (List.mem_of_mem_tail (hnext 0 hne))))
    rw [if_pos hlast.1, hlast.2] at hhead
    rw [if_pos (hheadcur hlast.1).symm, hlast.2, if_pos rfl, if_pos hlast.1] at hcurrent
    rw [getNextTask, hcurrent, hnext0, if_pos rfl, hhead]
  · right
    refine ⟨stack', h.null, fun a hne => ?_, fun a hne => ?_, fun a hne => ?_, fun a ha hzero => ?_,
      fun a ha hne => ?_, ?_, ?_, ?_, hchain, ?_, fun a ha => h.stack_created a (hsub a ha), hnext⟩
    · rw [(hfields a).1] at hne ⊢
      split_ifs at hne ⊢ with hpred
      · rw [hpred.2]
        exact (h.prev_lt t hpred.1).trans (h.next_lt t hne)
      · exact h.next_lt a hne
    · rw [(hfields a).2.1] at hne ⊢
      exact h.prev_created a hne
    · rw [(hfields a).2.1] at hne ⊢
      exact h.prev_lt a hne
    · rw [(hfields a).2.1] at hzero
      exact h.first a ha hzero
    · rw [(hfields a).2.2.2] at hne
      rw [(hfields a).2.2.1]
      exact h.owner a ha hne
    · rw [hhead]
      split_ifs with hth
      · exact h.next_created fun hzero => hlast ⟨hth, hzero⟩
      · exact h.head
    · rw [hcurrent]
      split_ifs with htc hzero hth
      · exact absurd ⟨hth, hzero⟩ hlast
      · exact h.head
      · exact h.next_created hzero
      · exact h.current
    · rw [hhead, hcurrent]
      split_ifs with hth htc hzero htc hzero
      · exact le_rfl
      · exact le_rfl
      · exact absurd (hheadcur hth).symm htc
      · exact le_rfl
      · have hlt := h.next_lt t hzero
        have hle := h.head_le
        rw [← htc] at hle
        omega
      · exact h.head_le
    · intro hnil
      obtain ⟨htl, hzero⟩ := hempty hnil
      have hone := h.first t hmem hzero
      have hle := (h.owner _ h.current hdir).resolve_left (ht ▸ ht0)
      have hpos : 0 < rank created s.headTask := rank_pos_iff.mpr h.head
      have hback := h.head_le
      rw [ht] at hle
      have hth : s.headTask = t := rank_inj h.head (by omega)
      exact hlast ⟨hth.symm, htl ▸ h.tail_next⟩

end Schedule

def Processes.taskOf (s : Processes) : ℕ → ℕ := fun p => (s.process p).task

theorem Processes.taskOf_setProcess (s : Processes) (p : ℕ) (v : Process) :
    (s.setProcess p v).taskOf = Function.update s.taskOf p v.task := by
  funext q
  simp only [Processes.taskOf, Processes.setProcess, Function.update_apply]
  split_ifs <;> rfl

/-- The invariant of the kernel's tables while it runs. -/
def Processes.Scheduled (s : Processes) (created : List ℕ) : Prop :=
  ∃ stack, Schedule s.tasks s.taskOf created stack

@[simp] theorem processUnlink_tasks (s : Processes) (process : ℕ) :
    (processUnlink s process).tasks = s.tasks := by
  simp only [processUnlink, processSwitchToAny]
  split_ifs
  · split <;> rfl
  · rfl

@[simp] theorem processUnlink_taskOf (s : Processes) (process : ℕ) :
    (processUnlink s process).taskOf = s.taskOf := by
  simp only [processUnlink, processSwitchToAny]
  split_ifs
  · split <;> rfl
  · rfl

/-- Ending the process of the running task stops the kernel or resumes a task. -/
theorem Processes.Scheduled.exit {s : Processes} {created : List ℕ} (h : s.Scheduled created)
    (hdir : (s.tasks.task s.tasks.currentTask).pageDirectory ≠ 0) :
    (isr80hExitProcessCommand s).halted = true ∨ (isr80hExitProcessCommand s).Scheduled created := by
  obtain ⟨stack, h⟩ := h
  set p := (s.tasks.task s.tasks.currentTask).process with hp
  simp only [isr80hExitProcessCommand, ← hp]
  by_cases hzero : (s.process p).task = 0
  · left
    simp only [processFree, freeTask, hzero, if_true]
  have htasks : (processFree s p).tasks = removeFromTaskList s.tasks (s.taskOf p) := by
    rw [processFree_eq hzero, processUnlink_tasks]
    rfl
  have htaskOf : (processFree s p).taskOf = s.taskOf := by
    rw [processFree_eq hzero, processUnlink_taskOf]
    rfl
  split_ifs with hhalted
  · exact Or.inl hhalted
  · rw [taskNext, htasks]
    rcases h.remove hdir (congrArg s.taskOf hp.symm) hzero with hnone | ⟨stack', hnext⟩
    · rw [if_pos hnone]
      exact Or.inl rfl
    · obtain ⟨hswitched, hne⟩ := hnext.switch_next
      rw [if_neg hne]
      refine Or.inr ⟨stack', ?_⟩
      have hsame : Processes.taskOf { processFree s p with
          tasks := switchTask (removeFromTaskList s.tasks (s.taskOf p))
            (getNextTask (removeFromTaskList s.tasks (s.taskOf p))) } = s.taskOf := htaskOf
      rw [hsame]
      exact hswitched

/-- Whether a load gets as far as `create_task`. -/
def LoadInput.Creates (input : LoadInput) (s : Processes) : Prop :=
  getProcessFreeSlot s ≠ maxProcessReached ∧ 0 < input.fileType

instance (input : LoadInput) (s : Processes) : Decidable (input.Creates s) :=
  inferInstanceAs (Decidable (_ ∧ _))

/-- What a load does to the tables: nothing to the tasks before `create_task`, and
whatever that does from there on. -/
structure Loaded (s : Processes) (input : LoadInput) (res : ℤ) (process : ℕ) (s' : Processes) : Prop where
  halted : s'.halted = s.halted
  early : ¬ input.Creates s → s'.tasks = s.tasks ∧ res ≤ 0 ∧ (res = 0 → input.fileType = 0) ∧
    (s'.taskOf = s.taskOf ∨ s'.taskOf = Function.update s.taskOf input.process 0)
  task : input.Creates s → input.task ≠ 0
  tasks : input.Creates s →
    s'.tasks = linkTask (s.tasks.setTask input.task (Task.new input.process input.pageDirectory)) input.task
  taskOf : input.Creates s → s'.taskOf = Function.update s.taskOf input.process input.task
  result : input.Creates s → input.stack = 0 ∧ res < 0 ∨ input.stack ≠ 0 ∧ 0 < res ∧ process = input.process

theorem loadProcess_loaded {s s' : Processes} {input : LoadInput} {res : ℤ} {process : ℕ}
    (h : loadProcess s input = some (res, process, s')) : Loaded s input res process s' := by
  unfold loadProcess at h
  simp only [] at h
  by_cases hslot : getProcessFreeSlot s = maxProcessReached
  · have hno : ¬ input.Creates s := fun hcreates => hcreates.1 hslot
    rw [if_pos hslot] at h
    cases h
    exact ⟨rfl, fun _ => ⟨rfl, by simp [maxProcessReached], by simp [maxProcessReached], Or.inl rfl⟩,
      fun h => absurd h hno, fun h => absurd h hno, fun h => absurd h hno, fun h => absurd h hno⟩
  rw [if_neg hslot] at h
  split_ifs at h with hprocess hfile hstack
  · have hno : ¬ input.Creates s := fun hcreates => absurd hcreates.2 (by omega)
    cases h
    exact ⟨rfl, fun _ => ⟨rfl, hfile, id, Or.inr (s.taskOf_setProcess _ _)⟩, fun h => absurd h hno,
      fun h => absurd h hno, fun h => absurd h hno, fun h => absurd h hno⟩
  all_goals
    have hcreates : input.Creates s := ⟨hslot, by omega⟩
    obtain ⟨r, hcreate, heq⟩ := Option.map_eq_some_iff.mp h
    obtain ⟨htask, rfl⟩ := createTask_eq_some_iff.mp hcreate
    cases heq
  · refine ⟨rfl, fun h => absurd hcreates h, fun _ => htask, fun _ => rfl, fun _ => ?_,
      fun _ => Or.inl ⟨hstack, by simp [EMEM]⟩⟩
    funext p
    by_cases hp : p = input.process <;> simp [Processes.taskOf, Processes.setProcess, hp]
  · refine ⟨rfl, fun h => absurd hcreates h, fun _ => htask, fun _ => rfl, fun _ => ?_,
      fun _ => Or.inr ⟨hstack, by omega, rfl⟩⟩
    funext p
    by_cases hp : p = input.process <;> simp [Processes.taskOf, Processes.setProcess, hp]

/-- The loads that can happen: `load_data` reports a file type or an error, and task
records are never handed out twice. -/
structure LoadInput.Sound (input : LoadInput) (created : List ℕ) : Prop where
  fileType_ne : input.fileType ≠ 0
  fresh : input.task ∉ created

/-- The tasks created once the load is over. -/
def LoadInput.createdAfter (input : LoadInput) (s : Processes) (created : List ℕ) : List ℕ :=
  if input.Creates s ∧ input.task ≠ 0 then input.task :: created else created

/-- Up to where the new task is resumed: a load keeps the invariant and the current
task. -/
theorem Processes.Scheduled.loadProcess {s s' : Processes} {created : List ℕ} (h : s.Scheduled created)
    {input : LoadInput} (hsound : input.Sound created) {res : ℤ} {process : ℕ}
    (hload : Zhios.loadProcess s input = some (res, process, s')) :
    s'.Scheduled (input.createdAfter s created) ∧ s'.tasks.currentTask = s.tasks.currentTask := by
  have hloaded := loadProcess_loaded hload
  obtain ⟨stack, h⟩ := h
  unfold Processes.Scheduled LoadInput.createdAfter
  by_cases hcreates : input.Creates s
  · have htask := hloaded.task hcreates
    rw [hloaded.tasks hcreates, hloaded.taskOf hcreates, if_pos ⟨hcreates, htask⟩]
    obtain ⟨-, -, hcurrent⟩ := h.createTask_cursors input.task input.process input.pageDirectory
    exact ⟨⟨_, h.create hsound.fresh htask _ _⟩, hcurrent⟩
  · obtain ⟨htasks, -, -, htaskOf⟩ := hloaded.early hcreates
    rw [if_neg fun hboth => hcreates hboth.1, htasks]
    refine ⟨⟨stack, h.withTaskOf fun p => ?_⟩, rfl⟩
    rcases htaskOf with heq | heq
    · exact Or.inl (by rw [heq])
    · rw [heq, Function.update_apply]
      split_ifs
      · exact Or.inr rfl
      · exact Or.inl rfl

theorem Processes.Scheduled.load_failed {s s' : Processes} {created : List ℕ} (h : s.Scheduled created)
    {input : LoadInput} (hsound : input.Sound created) {res : ℤ} {process : ℕ}
    (hload : processLoadWithArgs s input = some (res, process, s')) (hres : res < 0) :
    (isr80hLoadProcessCommand s input).Scheduled (input.createdAfter s created) ∧
      (isr80hLoadProcessCommand s input).halted = s.halted ∧
      (isr80hLoadProcessCommand s input).tasks.currentTask = s.tasks.currentTask := by
  have hstate : isr80hLoadProcessCommand s input = s' := by
    simp only [isr80hLoadProcessCommand, hload, if_pos hres]
  obtain ⟨⟨r, p, s₁⟩, hload, heq⟩ := Option.map_eq_some_iff.mp hload
  simp only at heq
  split_ifs at heq with hneg
  · cases heq
    obtain ⟨hscheduled, hcurrent⟩ := h.loadProcess hsound hload
    rw [hstate]
    exact ⟨hscheduled, (loadProcess_loaded hload).halted, hcurrent⟩
  · cases heq
    exact absurd hres hneg

theorem Processes.Scheduled.load {s s' : Processes} {created : List ℕ} (h : s.Scheduled created)
    {input : LoadInput} (hsound : input.Sound created) {res : ℤ} {process : ℕ}
    (hload : processLoadWithArgs s input = some (res, process, s')) (hres : ¬ res < 0) :
    (isr80hLoadProcessCommand s input).Scheduled (input.createdAfter s created) ∧
      (isr80hLoadProcessCommand s input).halted = s.halted ∧ input.Creates s ∧ input.task ≠ 0 ∧
      (isr80hLoadProcessCommand s input).tasks.currentTask = input.task := by
  have hstate : isr80hLoadProcessCommand s input =
      { s' with tasks := switchTask s'.tasks (s'.process process).task } := by
    simp only [isr80hLoadProcessCommand, hload, if_neg hres]
  obtain ⟨s₁, hfirst, rfl⟩ := processLoadAndSwitch_some hload (not_lt.mp hres)
  have hloaded := loadProcess_loaded hfirst
  obtain ⟨⟨stack, hs⟩, -⟩ := h.loadProcess hsound hfirst
  have hcreates : input.Creates s := by
    by_contra hno
    obtain ⟨-, hle, hzero, -⟩ := hloaded.early hno
    exact hsound.fileType_ne (hzero (by omega))
  have htask := hloaded.task hcreates
  obtain ⟨-, -, rfl⟩ := (hloaded.result hcreates).resolve_left fun hneg => hres hneg.2
  have hown : ((processSwitch s₁ input.process).process input.process).task = input.task := by
    have heq := congrFun (hloaded.taskOf hcreates) input.process
    rwa [Function.update_self] at heq
  rw [hown] at hstate
  rw [hstate]
  refine ⟨?_, hloaded.halted, hcreates, htask, rfl⟩
  have hafter : input.createdAfter s created = input.task :: created := if_pos ⟨hcreates, htask⟩
  refine ⟨stack, hs.switch ?_ ?_⟩
  · rw [hafter]
    exact List.mem_cons_self
  · rw [hafter, rank_cons_self]
    exact rank_le (input.task :: created) _

theorem Schedule.single {s : Tasks} {taskOf : ℕ → ℕ} {t : ℕ} (ht : t ≠ 0) (hnext : ∀ a, (s.task a).next = 0)
    (hprev : ∀ a, (s.task a).prev = 0)
    (howner : (s.task t).pageDirectory ≠ 0 → taskOf (s.task t).process = t)
    (hhead : s.headTask = t) (htail : s.tailTask = t) (hcurrent : s.currentTask = t) :
    Schedule s taskOf [t] [t] := by
  have hmem : ∀ {a}, a = t → a ∈ [t] := List.mem_singleton.mpr
  refine ⟨?_, fun a hne => absurd (hnext a) hne, fun a hne => absurd (hprev a) hne,
    fun a hne => absurd (hprev a) hne, fun a ha _ => ?_, fun a ha hdir => ?_, hmem hhead, hmem hcurrent, ?_,
    ⟨htail.symm, ht, hprev t⟩, List.cons_ne_nil t [], fun a ha => ha, fun a hne => absurd (hnext a) hne⟩
  · exact fun h0 => ht (List.mem_singleton.mp h0).symm
  · rw [List.mem_singleton.mp ha]
    simp [rank_cons]
  · obtain rfl := List.mem_singleton.mp ha
    rw [howner hdir]
    exact Or.inr le_rfl
  · rw [hhead, hcurrent]

theorem kernelMain_scheduled (input : LoadInput) :
    (kernelMain Processes.initial input).halted = true ∨
      (kernelMain Processes.initial input).Scheduled [input.task] ∧
        (kernelMain Processes.initial input).tasks.currentTask = input.task := by
  unfold kernelMain
  cases hswitch : processLoadAndSwitch Processes.initial input with
  | none => exact Or.inl rfl
  | some r =>
    obtain ⟨res, process, s'⟩ := r
    simp only
    by_cases hneg : res < 0
    · left
      rw [if_pos hneg]
    rw [if_neg hneg]
    obtain ⟨s₁, hload, rfl⟩ := processLoadAndSwitch_some hswitch (not_lt.mp hneg)
    have hloaded := loadProcess_loaded hload
    by_cases hcreates : input.Creates Processes.initial
    · right
      have htasks := hloaded.tasks hcreates
      have htaskOf := hloaded.taskOf hcreates
      have htask := hloaded.task hcreates
      have hhead : s₁.tasks.headTask = input.task := by
        rw [htasks]
        rfl
      have hrun : runFirstTask (processSwitch s₁ process).tasks = some (switchTask s₁.tasks input.task) := by
        rw [runFirstTask, processSwitch, hhead, if_neg htask]
      rw [hrun]
      refine ⟨⟨[input.task], ?_⟩, rfl⟩
      have hrec : ∀ a, s₁.tasks.task a =
          if a = input.task then Task.new input.process input.pageDirectory else ⟨0, 0, 0, 0⟩ := by
        intro a
        rw [htasks]
        exact Tasks.setTask_task ..
      have hself := hrec input.task
      rw [if_pos rfl] at hself
      apply Schedule.single htask
      · intro a
        change (s₁.tasks.task a).next = 0
        rw [hrec]
        split_ifs <;> rfl
      · intro a
        change (s₁.tasks.task a).prev = 0
        rw [hrec]
        split_ifs <;> rfl
      · change (s₁.tasks.task input.task).pageDirectory ≠ 0 → s₁.taskOf (s₁.tasks.task input.task).process = input.task
        intro hdir
        rw [hself] at hdir ⊢
        have hdir : input.pageDirectory ≠ 0 := hdir
        rw [htaskOf, Task.new, if_neg hdir, Function.update_self]
      · exact hhead
      · change s₁.tasks.tailTask = input.task
        rw [htasks]
        rfl
      · rfl
    · obtain ⟨htasks, -⟩ := hloaded.early hcreates
      left
      have hhead : s₁.tasks.headTask = 0 := by
        rw [htasks]
        rfl
      have hrun : runFirstTask (processSwitch s₁ process).tasks = none := if_pos hhead
      rw [hrun]

end Zhios
