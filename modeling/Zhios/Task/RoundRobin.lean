import Zhios.Task.TaskList
import Mathlib.Data.List.GetD
import Mathlib.Data.List.Rotate

/-! The order in which `task_next` runs the tasks. While tasks are only created,
`get_next_task` is the cyclic successor in creation order. -/
namespace Zhios
open Machine

/-- `task_next` called `n` times: the tasks that are resumed, in order, and the
state behind the last of them. -/
def taskNextTimes : (n : ℕ) → Tasks → Option (List ℕ × Tasks)
  | 0, s => some ([], s)
  | n + 1, s => (taskNext s).bind fun s' => (taskNextTimes n s').map fun r => (s'.currentTask :: r.1, r.2)

/-- The states that calls of `create_task` and switches between the tasks lead to, with
the tasks in creation order. A new record is one that was not handed out before. -/
inductive Created : Tasks → List ℕ → Prop
  | initial : Created Tasks.initial []
  | create {s s' : Tasks} {created : List ℕ} {new : ℕ} (task process pageDirectory : ℕ) : Created s created →
    createTask s task process pageDirectory = some (new, s') → new ∉ created → Created s' (created ++ [new])
  | switch {s : Tasks} {created : List ℕ} (task : ℕ) : Created s created → task ∈ created →
    Created (switchTask s task) created

namespace Linked
variable {task : ℕ → Task} {p q : ℕ} {live : List ℕ}

theorem next_getD (h : Linked task p live q) {i : ℕ} (hi : i < live.length) :
    (task (live.getD i 0)).next = live.getD (i + 1) q := by
  induction live generalizing p i with
  | nil => simp at hi
  | cons t live ih =>
    obtain ⟨-, hnext, hrest⟩ := h
    cases i with
    | zero =>
      rw [List.getD_cons_zero, hnext, List.getD_cons_succ]
      cases live <;> rfl
    | succ i =>
      rw [List.length_cons] at hi
      rw [List.getD_cons_succ, ih hrest (by omega), List.getD_cons_succ]

end Linked

namespace Created
variable {s : Tasks} {created : List ℕ}

theorem nodup (h : Created s created) : created.Nodup ∧ 0 ∉ created := by
  induction h with
  | initial => exact ⟨List.nodup_nil, List.not_mem_nil⟩
  | create task process pageDirectory _ hcreate hnew ih =>
    obtain ⟨hne, heq⟩ := createTask_eq_some_iff.mp hcreate
    obtain ⟨rfl, -⟩ := Prod.mk.inj heq
    rw [← List.concat_eq_append]
    exact ⟨ih.1.concat hnew, by simpa using ⟨ih.2, Ne.symm hne⟩⟩
  | switch task _ _ ih => exact ih

theorem taskList (h : Created s created) : TaskList s created := by
  induction h with
  | initial => exact TaskList.initial
  | @create _ _ before new task process pageDirectory h hcreate hnew ih =>
    have hnd : (before ++ [new]).Nodup := by
      rw [← List.concat_eq_append]
      exact h.nodup.1.concat hnew
    obtain ⟨-, heq⟩ := createTask_eq_some_iff.mp hcreate
    obtain ⟨rfl, rfl⟩ := Prod.mk.inj heq
    exact (ih.setTask hnew _).link h.nodup.2 hnd (by simp [Task.new]) (by simp [Task.new])
  | switch task _ hmem ih => exact ih.switch hmem

/-- From the task at index `i` one call leads to its cyclic successor. -/
theorem taskNext_eq (h : Created s created) {i : ℕ} (hi : i < created.length)
    (hcurrent : s.currentTask = created.getD i 0) :
    taskNext s = some (switchTask s (created.getD ((i + 1) % created.length) 0)) := by
  have hlist := h.taskList
  have hne : ∀ j < created.length, created.getD j 0 ≠ 0 := by
    intro j hj h0
    rw [List.getD_eq_getElem _ _ hj] at h0
    exact h.nodup.2 (h0 ▸ List.getElem_mem hj)
  have hget : getNextTask s = created.getD ((i + 1) % created.length) 0 := by
    rw [getNextTask, hcurrent, hlist.linked.next_getD hi]
    by_cases hlast : i + 1 < created.length
    · rw [if_neg (hne _ hlast), Nat.mod_eq_of_lt hlast]
    · rw [List.getD_eq_default _ _ (by omega), if_pos rfl, hlist.head, show i + 1 = created.length by omega,
        Nat.mod_self]
      cases created <;> rfl
  rw [taskNext, hget, if_neg (hne _ (Nat.mod_lt _ (by omega)))]

theorem taskNextTimes_eq (h : Created s created) {i : ℕ} (hi : i < created.length)
    (hcurrent : s.currentTask = created.getD i 0) (n : ℕ) :
    ∃ s', taskNextTimes n s =
        some ((List.range n).map fun j => created.getD ((i + 1 + j) % created.length) 0, s') ∧
      Created s' created ∧ s'.currentTask = created.getD ((i + n) % created.length) 0 := by
  induction n generalizing s i with
  | zero => exact ⟨s, rfl, h, by rw [Nat.add_zero, Nat.mod_eq_of_lt hi, hcurrent]⟩
  | succ n ih =>
    have hlt : (i + 1) % created.length < created.length := Nat.mod_lt _ (by omega)
    have hmem : created.getD ((i + 1) % created.length) 0 ∈ created := by
      rw [List.getD_eq_getElem _ _ hlt]
      exact List.getElem_mem hlt
    obtain ⟨s', htimes, hcreated, hend⟩ := ih (h.switch _ hmem) hlt rfl
    refine ⟨s', ?_, hcreated, ?_⟩
    · have hindex : ∀ j, ((i + 1) % created.length + 1 + j) % created.length =
          (i + 1 + (j + 1)) % created.length := by
        intro j
        rw [Nat.add_assoc, Nat.mod_add_mod, Nat.add_comm 1 j]
      rw [taskNextTimes, h.taskNext_eq hi hcurrent, Option.bind_some, htimes, Option.map_some,
        List.range_succ_eq_map, List.map_cons, List.map_map]
      simp only [hindex, Nat.add_zero]
      rfl
    · rw [hend, Nat.mod_add_mod, Nat.add_assoc, Nat.add_comm 1 n]

end Created

/-- As many calls of `task_next` as there are tasks resume every task once, in creation
order from the one behind the current task on, and end with the task they started from. -/
theorem taskNextTimes_rotate {s : Tasks} {created : List ℕ} (h : Created s created) (hne : 1 ≤ created.length) :
    ∃ s', taskNextTimes created.length s = some (created.rotate (created.idxOf s.currentTask + 1), s') ∧
      s.currentTask ∈ created ∧ created.Nodup ∧ (created.rotate (created.idxOf s.currentTask + 1)).Perm created ∧
      Created s' created ∧ s'.currentTask = s.currentTask := by
  have hmem : s.currentTask ∈ created := by
    have hcurrent := h.taskList.current
    rwa [if_neg (List.ne_nil_of_length_pos hne)] at hcurrent
  have hi := List.idxOf_lt_length_of_mem hmem
  have hcurrent : s.currentTask = created.getD (created.idxOf s.currentTask) 0 := by
    rw [List.getD_eq_getElem _ _ hi]
    exact (List.getElem_idxOf hi).symm
  obtain ⟨s', htimes, hcreated, hend⟩ := h.taskNextTimes_eq hi hcurrent created.length
  refine ⟨s', ?_, hmem, h.nodup.1, List.rotate_perm _ _, hcreated, ?_⟩
  · rw [htimes]
    congr 2
    apply List.ext_getElem
    · simp
    · intro j hj hj'
      have hlt : (j + (created.idxOf s.currentTask + 1)) % created.length < created.length := Nat.mod_lt _ (by omega)
      rw [List.getElem_rotate, List.getElem_map, List.getElem_range, Nat.add_comm _ j, List.getD_eq_getElem _ _ hlt]
  · rw [hend, Nat.add_mod_right, Nat.mod_eq_of_lt hi]
    exact hcurrent.symm

theorem taskNextTimes_rotate_three : ∃ s₁ s₂ s₃ s', createTask Tasks.initial 0x1000 1 8 = some (0x1000, s₁) ∧
    createTask s₁ 0x2000 2 9 = some (0x2000, s₂) ∧ createTask s₂ 0x3000 3 10 = some (0x3000, s₃) ∧
    taskNextTimes 3 (switchTask s₃ 0x2000) = some ([0x3000, 0x1000, 0x2000], s') ∧ s'.currentTask = 0x2000 := by
  obtain ⟨s₁, h₁⟩ : ∃ s₁, createTask Tasks.initial 0x1000 1 8 = some (0x1000, s₁) :=
    ⟨_, createTask_eq _ 1 8 (by decide)⟩
  obtain ⟨s₂, h₂⟩ : ∃ s₂, createTask s₁ 0x2000 2 9 = some (0x2000, s₂) := ⟨_, createTask_eq _ 2 9 (by decide)⟩
  obtain ⟨s₃, h₃⟩ : ∃ s₃, createTask s₂ 0x3000 3 10 = some (0x3000, s₃) := ⟨_, createTask_eq _ 3 10 (by decide)⟩
  have h : Created (switchTask s₃ 0x2000) [0x1000, 0x2000, 0x3000] := by
    refine .switch _ (.create _ _ _ (.create _ _ _ (.create _ _ _ .initial h₁ ?_) h₂ ?_) h₃ ?_) ?_
    all_goals simp
  obtain ⟨s', htimes, -, -, -, -, hend⟩ := taskNextTimes_rotate h (by simp)
  exact ⟨s₁, s₂, s₃, s', h₁, h₂, h₃, htimes, hend⟩

end Zhios
