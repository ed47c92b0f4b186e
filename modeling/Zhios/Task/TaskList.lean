import Zhios.Task.Task
import Zhios.Machine.Run

/-! The list of live tasks over whole runs of `create_task` and `free_task`.
Removal never repairs the successor's `prev`, so the list stays intact exactly
while tasks are removed from its end. -/
namespace Zhios
open Machine

/-- The records of `live` are linked in both directions, from `p` in front of the
first of them to `q` behind the last. -/
def Linked (task : ℕ → Task) : (p : ℕ) → List ℕ → (q : ℕ) → Prop
  | _, [], _ => True
  | p, t :: live, q => (task t).prev = p ∧ (task t).next = live.headD q ∧ Linked task t live q

namespace Linked
variable {task task' : ℕ → Task} {p q : ℕ} {live : List ℕ}

theorem congr (h : Linked task p live q) (heq : ∀ t ∈ live, task' t = task t) :
    Linked task' p live q := by
  induction live generalizing p with
  | nil => trivial
  | cons t live ih =>
    obtain ⟨hprev, hnext, hrest⟩ := h
    obtain ⟨ht, hlive⟩ := List.forall_mem_cons.mp heq
    exact ⟨by rw [ht, hprev], by rw [ht, hnext], ih hrest hlive⟩

theorem append_iff {back : List ℕ} : Linked task p (live ++ back) q ↔
    Linked task p live (back.headD q) ∧ Linked task (live.getLastD p) back q := by
  induction live generalizing p with
  | nil => exact (and_iff_right trivial).symm
  | cons t live ih =>
    have hhead : (live ++ back).headD q = live.headD (back.headD q) := by cases live <;> rfl
    rw [List.cons_append, Linked, Linked, ih, hhead, List.getLastD_cons]
    simp only [and_assoc]

theorem concat_iff {t : ℕ} : Linked task p (live ++ [t]) q ↔
    Linked task p live t ∧ (task t).prev = live.getLastD p ∧ (task t).next = q := by
  rw [append_iff]
  exact and_congr_right fun _ => and_congr_right fun _ => and_iff_left trivial

end Linked

/-- Following `next` from the head visits exactly `live`, in order, `prev` leads
back, and the cursors are the ends of the list and one of its members. -/
structure TaskList (s : Tasks) (live : List ℕ) : Prop where
  linked : Linked s.task 0 live 0
  head : s.headTask = live.headD 0
  tail : s.tailTask = live.getLastD 0
  current : if live = [] then s.currentTask = 0 else s.currentTask ∈ live

namespace TaskList
variable {s : Tasks} {live : List ℕ} {t : ℕ}

theorem initial : TaskList Tasks.initial [] := ⟨trivial, rfl, rfl, rfl⟩

theorem setTask (h : TaskList s live) (ht : t ∉ live) (v : Task) : TaskList (s.setTask t v) live := by
  refine ⟨h.linked.congr fun a ha => ?_, h.head, h.tail, h.current⟩
  rw [Tasks.setTask_task, if_neg]
  rintro rfl
  exact ht ha

theorem head_ne_zero {a : ℕ} (h : TaskList s live) (hnull : 0 ∉ live) (ha : a ∈ live) : s.headTask ≠ 0 := by
  cases live with
  | nil => simp at ha
  | cons b live =>
    rw [h.head]
    rintro rfl
    exact hnull List.mem_cons_self

theorem link (h : TaskList s live) (hnull : 0 ∉ live) (hnd : (live ++ [t]).Nodup)
    (hnext : (s.task t).next = 0) (hprev : (s.task t).prev = 0) :
    TaskList (linkTask s t) (live ++ [t]) := by
  rcases List.eq_nil_or_concat' live with rfl | ⟨front, last, rfl⟩
  · have hhead : s.headTask = 0 := h.head
    rw [linkTask, if_pos hhead]
    exact ⟨⟨hprev, hnext, trivial⟩, rfl, rfl, by simp⟩
  · have hlast : s.tailTask = last := by rw [h.tail, List.getLastD_concat]
    obtain ⟨-, hlt, hfront⟩ : front.Nodup ∧ ¬ last = t ∧ ∀ a ∈ front, ¬ a = last ∧ ¬ a = t := by
      simpa [List.nodup_append] using hnd
    obtain ⟨hl, hlp, hln⟩ := Linked.concat_iff.mp h.linked
    have hcurrent := h.current
    rw [if_neg (by simp)] at hcurrent
    rw [linkTask, if_neg (h.head_ne_zero hnull (by simp : last ∈ front ++ [last])), hlast]
    refine ⟨?_, ?_, by rw [List.getLastD_concat], ?_⟩
    · refine Linked.concat_iff.mpr ⟨Linked.concat_iff.mpr ⟨hl.congr fun a ha => ?_, ?_, ?_⟩, ?_, ?_⟩
      · simp [Tasks.setPrev, Tasks.setNext, hfront a ha]
      · simp [Tasks.setPrev, Tasks.setNext, hlt, hlp]
      · simp [Tasks.setPrev, Tasks.setNext, hlt]
      · simp [Tasks.setPrev, Tasks.setNext]
      · simp [Tasks.setPrev, Tasks.setNext, Ne.symm hlt, hnext]
    · have hhead : s.headTask = (front ++ [last] ++ [t]).headD 0 := by
        rw [h.head]
        cases front <;> rfl
      exact hhead
    · rw [if_neg (by simp)]
      exact List.mem_append_left _ hcurrent

theorem switch (h : TaskList s live) (ht : t ∈ live) : TaskList (switchTask s t) live := by
  refine ⟨h.linked, h.head, h.tail, ?_⟩
  rw [if_neg (List.ne_nil_of_mem ht)]
  exact ht

theorem linkTask_process (s : Tasks) (t a : ℕ) :
    ((linkTask s t).task a).process = (s.task a).process := by
  unfold linkTask
  split_ifs
  · rfl
  · simp only [Tasks.setPrev, Tasks.setNext, Tasks.setTask_task]
    split_ifs <;> simp_all

/-- What removal does to the records: only the predecessor's `next` changes. -/
theorem removeFromTaskList_task (s : Tasks) (t a : ℕ) :
    (removeFromTaskList s t).task a =
      if (s.task t).prev ≠ 0 ∧ a = (s.task t).prev then { s.task a with next := (s.task t).next }
      else s.task a := by
  simp only [removeFromTaskList, apply_ite Tasks.task, ite_self]
  by_cases hp : (s.task t).prev = 0
  · simp [hp]
  · by_cases ha : a = (s.task t).prev
    · simp [hp, ha, Tasks.setNext]
    · simp [hp, ha, Tasks.setNext]

/-- What removal does to the cursors, for a record that is not its own predecessor. -/
theorem removeFromTaskList_cursors (s : Tasks) {t : ℕ} (ht : t ≠ (s.task t).prev) :
    (removeFromTaskList s t).headTask = (if t = s.headTask then (s.task t).next else s.headTask) ∧
    (removeFromTaskList s t).tailTask = (if t = s.tailTask then (s.task t).prev else s.tailTask) ∧
    (removeFromTaskList s t).currentTask =
      if t = s.currentTask then
        if (s.task t).next = 0 then (if t = s.headTask then (s.task t).next else s.headTask)
        else (s.task t).next
      else s.currentTask := by
  have hsame : (if (s.task t).prev ≠ 0 then s.setNext (s.task t).prev (s.task t).next else s).task t =
      s.task t := by
    split_ifs
    · rw [Tasks.setNext, Tasks.setTask_task, if_neg ht]
    · rfl
  have hcursors : ∀ s₁ : Tasks, (s₁ = s.setNext (s.task t).prev (s.task t).next ∨ s₁ = s) →
      s₁.headTask = s.headTask ∧ s₁.tailTask = s.tailTask ∧ s₁.currentTask = s.currentTask := by
    rintro s₁ (rfl | rfl) <;> exact ⟨rfl, rfl, rfl⟩
  obtain ⟨hh, hl, hc⟩ := hcursors _ (ite_eq_or_eq ((s.task t).prev ≠ 0) _ _)
  unfold removeFromTaskList
  generalize (if (s.task t).prev ≠ 0 then s.setNext (s.task t).prev (s.task t).next else s) = s₁ at *
  rw [← hh, ← hl, ← hc, ← hsame]
  refine ⟨?_, ?_, ?_⟩
  · simp only [apply_ite Tasks.headTask, ite_self]
  · simp only [apply_ite Tasks.tailTask, apply_ite Tasks.task, ite_self]
  · by_cases hcur : t = s₁.currentTask
    · simp only [apply_ite Tasks.currentTask, apply_ite Tasks.task, apply_ite Tasks.headTask, getNextTask,
        ite_self, ← hcur, if_true]
    · simp only [apply_ite Tasks.currentTask, ite_self, hcur, if_false]

theorem headD_mem {front : List ℕ} {a : ℕ} : (front ++ [a]).headD 0 ∈ front ++ [a] := by
  cases front <;> simp

theorem last_ne_prev (h : TaskList s (live ++ [t])) (hnull : 0 ∉ live ++ [t])
    (hnd : (live ++ [t]).Nodup) : t ≠ (s.task t).prev := by
  obtain ⟨-, hprev, -⟩ := Linked.concat_iff.mp h.linked
  rw [hprev]
  rcases List.eq_nil_or_concat' live with rfl | ⟨front, last, rfl⟩
  · exact fun h0 => hnull (by simp [show t = 0 from h0])
  · rw [List.getLastD_concat]
    rintro rfl
    simp [List.nodup_append] at hnd

theorem remove_last (h : TaskList s (live ++ [t])) (hnull : 0 ∉ live ++ [t])
    (hnd : (live ++ [t]).Nodup) : TaskList (removeFromTaskList s t) live := by
  obtain ⟨hl, hprev, hnext⟩ := Linked.concat_iff.mp h.linked
  obtain ⟨-, htl⟩ : live.Nodup ∧ ∀ a ∈ live, ¬ a = t := by simpa [List.nodup_append] using hnd
  have htail : t = s.tailTask := by rw [h.tail, List.getLastD_concat]
  have hcurrent : s.currentTask ∈ live ++ [t] := by simpa using h.current
  rcases List.eq_nil_or_concat' live with rfl | ⟨front, last, rfl⟩
  · have hprev : (s.task t).prev = 0 := hprev
    have hhead : t = s.headTask := h.head.symm
    have hcur : t = s.currentTask := by simpa [eq_comm] using hcurrent
    obtain ⟨hh, htl, hc⟩ := removeFromTaskList_cursors s (h.last_ne_prev hnull hnd)
    rw [if_pos hhead, hnext] at hh
    rw [if_pos htail, hprev] at htl
    rw [if_pos hcur, hnext, if_pos rfl, if_pos hhead] at hc
    exact ⟨trivial, hh, htl, by simpa using hc⟩
  · rw [List.getLastD_concat] at hprev
    have hlast0 : last ≠ 0 := fun h0 => hnull (by simp [h0])
    have hhead : s.headTask = (front ++ [last]).headD 0 := by
      rw [h.head]
      cases front <;> rfl
    have hth : t ≠ s.headTask := fun heq => htl _ (hhead ▸ headD_mem) heq.symm
    obtain ⟨hh, htl', hc⟩ := removeFromTaskList_cursors s (h.last_ne_prev hnull hnd)
    obtain ⟨hl', hlp, -⟩ := Linked.concat_iff.mp hl
    have hrec := removeFromTaskList_task s t
    simp only [hprev, hnext, hlast0, ne_eq, not_false_eq_true, true_and] at hrec
    obtain ⟨-, hfront⟩ : front.Nodup ∧ ∀ a ∈ front, ¬ a = last := by
      have := (List.nodup_append.mp hnd).1
      simpa [List.nodup_append] using this
    refine ⟨Linked.concat_iff.mpr ⟨hl'.congr fun a ha => ?_, ?_, ?_⟩, ?_, ?_, ?_⟩
    · rw [hrec, if_neg (hfront a ha)]
    · rw [hrec, if_pos rfl, hlp]
    · rw [hrec, if_pos rfl]
    · rw [hh, if_neg hth, hhead]
    · rw [htl', if_pos htail, hprev, List.getLastD_concat]
    · rw [if_neg (by simp), hc, hnext, if_pos rfl, if_neg hth]
      split_ifs with hcur
      · exact hhead ▸ headD_mem
      · exact (List.mem_append.mp hcurrent).resolve_right fun hm => hcur (by simpa [eq_comm] using hm)

/-- When the last task was current, the first one becomes current. -/
theorem remove_last_current (h : TaskList s (live ++ [t])) (hnull : 0 ∉ live ++ [t])
    (hnd : (live ++ [t]).Nodup) (hcur : s.currentTask = t) :
    (removeFromTaskList s t).currentTask = live.headD 0 := by
  obtain ⟨-, -, hnext⟩ := Linked.concat_iff.mp h.linked
  obtain ⟨-, -, hc⟩ := removeFromTaskList_cursors s (h.last_ne_prev hnull hnd)
  rw [hc, if_pos hcur.symm, hnext, if_pos rfl, h.head]
  cases live with
  | nil => simp
  | cons a live =>
    have hta : t ≠ a := by
      rintro rfl
      simp at hnd
    exact if_neg hta

/-- The record behind a removed one keeps pointing to it. -/
theorem not_remove {front back : List ℕ} {b : ℕ} (h : TaskList s (front ++ t :: b :: back))
    (hnull : 0 ∉ front ++ t :: b :: back) (hnd : (front ++ t :: b :: back).Nodup) :
    ¬ TaskList (removeFromTaskList s t) (front ++ b :: back) := by
  intro h'
  obtain ⟨-, -, -, hb, -⟩ := Linked.append_iff.mp h.linked
  obtain ⟨-, hb', -⟩ := Linked.append_iff.mp h'.linked
  have hkeep : ((removeFromTaskList s t).task b).prev = (s.task b).prev := by
    rw [removeFromTaskList_task]
    split_ifs <;> rfl
  rw [hkeep, hb] at hb'
  -- `front.getLastD 0` is null or a member of `front`, and `t` is neither
  cases front with
  | nil => exact hnull (by simp [show t = 0 from hb'])
  | cons a front =>
    rw [List.getLastD_cons] at hb'
    have hmem : t ∈ a :: front := hb' ▸ List.getLastD_mem_cons
    simp only [List.nodup_append] at hnd
    exact hnd.2.2 t hmem t (by simp) rfl

end TaskList

/-- Calls of the interface; `create` carries what the allocators return. -/
inductive TaskOp
  | create (task process pageDirectory : ℕ)
  | free (task : ℕ)
  deriving DecidableEq, Repr

/-- The state of a run: the module's state, the live tasks in creation order and
every record handed out so far. Records are never given back to the heap. -/
structure TaskRun where
  tasks : Tasks
  live : List ℕ
  created : List ℕ

namespace TaskRun

def initial : TaskRun := ⟨Tasks.initial, [], []⟩

/-- A call without a result ends the run. -/
def exec (r : TaskRun) : TaskOp → Option TaskRun
  | .create task process pageDirectory =>
    (createTask r.tasks task process pageDirectory).map fun c =>
      { tasks := c.2
        live := r.live ++ [c.1]
        created := c.1 :: r.created }
  | .free task => (freeTask r.tasks task).map fun tasks => { r with tasks := tasks, live := r.live.erase task }

def execAll (s : Option TaskRun) (op : TaskOp) : Option TaskRun := s.bind fun r => r.exec op

/-- A new record is null or was never handed out; only live tasks are freed. -/
def Allows (r : TaskRun) : TaskOp → Prop
  | .create task _ _ => task ∉ r.created
  | .free task => task ∈ r.live

/-- A new task gets a record, and the only task that may be freed is the one created
last. -/
def Stacked (r : TaskRun) : TaskOp → Prop
  | .create task _ _ => task ≠ 0
  | .free task => r.live.getLast? = some task

/-- The calls had a result, and the list of the live tasks is intact. -/
def Intact (s : Option TaskRun) : Prop := ∃ r, s = some r ∧ TaskList r.tasks r.live

/-- What holds of the live tasks whatever is freed. -/
structure Good (r : TaskRun) : Prop where
  nodup : r.live.Nodup
  sub : ∀ t ∈ r.live, t ∈ r.created
  null : 0 ∉ r.created

theorem Good.concat_nodup {r : TaskRun} (h : r.Good) {task : ℕ} (ht : task ∉ r.live) :
    (r.live ++ [task]).Nodup := by
  rw [← List.concat_eq_append]
  exact h.nodup.concat ht

theorem initial_good : initial.Good := ⟨List.nodup_nil, by simp [initial], by simp [initial]⟩

theorem Good.exec {r r' : TaskRun} (h : r.Good) {op : TaskOp} (ha : r.Allows op) (hexec : r.exec op = some r') :
    r'.Good := by
  cases op with
  | create task process pageDirectory =>
    by_cases h0 : task = 0
    · rw [TaskRun.exec, h0, createTask_null] at hexec
      cases hexec
    · rw [TaskRun.exec, createTask_eq _ _ _ h0] at hexec
      cases hexec
      have hnew : task ∉ r.live := fun hm => ha (h.sub task hm)
      refine ⟨h.concat_nodup hnew, fun t ht => ?_, ?_⟩
      · rcases List.mem_append.mp ht with hl | hn
        · exact List.mem_cons_of_mem _ (h.sub t hl)
        · simp [List.mem_singleton.mp hn]
      · simpa using ⟨Ne.symm h0, h.null⟩
  | free task =>
    obtain ⟨tasks, -, rfl⟩ := Option.map_eq_some_iff.mp hexec
    exact ⟨h.nodup.erase task, fun t ht => h.sub t (List.mem_of_mem_erase ht), h.null⟩

theorem create_intact_iff {r : TaskRun} (hg : r.Good) (h : TaskList r.tasks r.live) {task : ℕ}
    (process pageDirectory : ℕ) (ha : task ∉ r.created) :
    Intact (r.exec (.create task process pageDirectory)) ↔ task ≠ 0 := by
  by_cases h0 : task = 0
  · refine iff_of_false ?_ (not_not.mpr h0)
    rw [exec, h0, createTask_null]
    rintro ⟨r', hnone, -⟩
    cases hnone
  · refine iff_of_true ?_ h0
    have hnull : 0 ∉ r.live := fun hm => hg.null (hg.sub 0 hm)
    have hnew : task ∉ r.live := fun hm => ha (hg.sub task hm)
    rw [exec, createTask_eq _ _ _ h0]
    exact ⟨_, rfl, (h.setTask hnew _).link hnull (hg.concat_nodup hnew) (by simp [Task.new]) (by simp [Task.new])⟩

/-- Only the end of the list can be taken away. -/
theorem free_intact_iff {r : TaskRun} (hg : r.Good) (h : TaskList r.tasks r.live) {task : ℕ} (ha : task ∈ r.live) :
    Intact (r.exec (.free task)) ↔ r.live.getLast? = some task := by
  have hnull : 0 ∉ r.live := fun hm => hg.null (hg.sub 0 hm)
  have h0 : task ≠ 0 := fun heq => hnull (heq ▸ ha)
  have hintact : Intact (r.exec (.free task)) ↔ TaskList (removeFromTaskList r.tasks task) (r.live.erase task) := by
    rw [exec, freeTask, if_neg h0]
    constructor
    · rintro ⟨r', heq, hlist⟩
      cases heq
      exact hlist
    · exact fun hlist => ⟨_, rfl, hlist⟩
  rw [hintact]
  obtain ⟨front, back, hlive⟩ := List.append_of_mem ha
  have hnd := hg.nodup
  rw [hlive] at h hnull hnd
  have hsplit := List.nodup_append.mp hnd
  have herase : r.live.erase task = front ++ back := by
    have hnot : task ∉ front := fun hm => hsplit.2.2 task hm task (by simp) rfl
    rw [hlive, List.erase_append_right _ hnot, List.erase_cons_head]
  rw [herase, hlive]
  cases back with
  | nil => exact iff_of_true (by simpa using h.remove_last hnull hnd) (by simp)
  | cons b back =>
    refine iff_of_false (h.not_remove hnull hnd) fun hlast => ?_
    rw [List.getLast?_append_cons, List.getLast?_cons_cons] at hlast
    exact (List.nodup_cons.mp hsplit.2.1).1 (List.mem_of_getLast? hlast)

/-- One call keeps the list intact exactly when it works at its end. -/
theorem exec_intact_iff {r : TaskRun} (hg : r.Good) (h : TaskList r.tasks r.live) {op : TaskOp}
    (ha : r.Allows op) : Intact (r.exec op) ↔ r.Stacked op := by
  cases op with
  | create task process pageDirectory => exact create_intact_iff hg h process pageDirectory ha
  | free task => exact free_intact_iff hg h ha

end TaskRun

/-- Along every run of creations and frees of live tasks, the list is intact in
every state exactly when every creation gets a record and every free is of the task
created last. -/
theorem taskList_always_iff (ops : List TaskOp)
    (hallow : Each TaskRun.execAll (fun s op => ∀ r ∈ s, r.Allows op) (some TaskRun.initial) ops) :
    Always TaskRun.execAll TaskRun.Intact (some TaskRun.initial) ops ↔
      Each TaskRun.execAll (fun s op => ∀ r ∈ s, r.Stacked op) (some TaskRun.initial) ops := by
  refine always_iff_each (G := fun s => ∀ r ∈ s, r.Good) ?_ ?_ ?_ ⟨_, rfl, TaskList.initial⟩ hallow
  · rintro s op hg ⟨r, rfl, hlist⟩ ha
    have hstep := TaskRun.exec_intact_iff (hg r rfl) hlist (ha r rfl)
    exact hstep.trans ⟨fun h => fun r' hr' => Option.some.inj hr' ▸ h, fun h => h r rfl⟩
  · rintro s op hg ⟨r, rfl, -⟩ ha - r' hr'
    exact (hg r rfl).exec (ha r rfl) hr'
  · rintro r ⟨⟩
    exact TaskRun.initial_good

theorem taskList_always_iff_nested :
    Always TaskRun.execAll TaskRun.Intact (some TaskRun.initial)
      [.create 0x1000 1 8, .create 0x2000 2 9, .free 0x2000, .create 0x3000 3 9] :=
  (taskList_always_iff _ (by simp [Each, TaskRun.Allows, TaskRun.execAll, TaskRun.exec, createTask_eq, freeTask,
    TaskRun.initial])).mpr
    (by simp [Each, TaskRun.Stacked, TaskRun.execAll, TaskRun.exec, createTask_eq, freeTask, TaskRun.initial])

/-- After the second of three tasks and then the third are freed, the first still
points to the third. -/
theorem taskList_middle_free_dangles :
    Each TaskRun.execAll (fun s op => ∀ r ∈ s, r.Allows op) (some TaskRun.initial)
      [.create 0x1000 1 8, .create 0x2000 2 9, .create 0x3000 3 10, .free 0x2000, .free 0x3000] ∧
    ∃ r, [.create 0x1000 1 8, .create 0x2000 2 9, .create 0x3000 3 10, .free 0x2000, .free 0x3000].foldl
      TaskRun.execAll (some TaskRun.initial) = some r ∧ r.live = [0x1000] ∧
      (r.tasks.task 0x1000).next = 0x3000 ∧ ¬ TaskList r.tasks [0x1000] := by
  refine ⟨by simp [Each, TaskRun.Allows, TaskRun.execAll, TaskRun.exec, createTask_eq, freeTask, TaskRun.initial],
    _, rfl, by decide, by decide, ?_⟩
  intro h
  exact absurd h.linked.2.1 (by decide)

end Zhios
