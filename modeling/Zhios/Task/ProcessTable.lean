import Zhios.Task.Process
import Zhios.Memory.HeapPinned

/-! The process table over runs of loads and frees. A process is loaded into the
first free slot and found there until it is freed, whatever was loaded and freed in
between. -/
namespace Zhios
open Machine

def sizeofProcess : ℕ := 9352

def Processes.FreeSlots (s : Processes) : Set ℕ := {i | i < zhiosMaxProcess ∧ s.processList i = 0}

theorem getProcessFreeSlot_cases (s : Processes) :
    (getProcessFreeSlot s = maxProcessReached ∧ ∀ i < zhiosMaxProcess, s.processList i ≠ 0) ∨
      ∃ i : ℕ, getProcessFreeSlot s = i ∧ IsLeast s.FreeSlots i := by
  unfold getProcessFreeSlot
  cases hfind : findSlot (fun i => s.processList i == 0) zhiosMaxProcess 0 with
  | none =>
    refine Or.inl ⟨rfl, fun i hi => ?_⟩
    simpa using (findSlot_eq_none_iff _ _ _).mp hfind i (Nat.zero_le i) (by omega)
  | some i =>
    obtain ⟨-, hlt, hfree, hbefore⟩ := (findSlot_eq_some_iff _ _ _ _).mp hfind
    refine Or.inr ⟨i, rfl, ⟨by omega, by simpa using hfree⟩, fun j hj => ?_⟩
    by_contra hlt'
    simpa [hj.2] using hbefore j (Nat.zero_le j) (by omega)

theorem getProcessFreeSlot_eq_max_iff (s : Processes) :
    getProcessFreeSlot s = maxProcessReached ↔ ∀ i < zhiosMaxProcess, s.processList i ≠ 0 := by
  rcases getProcessFreeSlot_cases s with ⟨hslot, hfull⟩ | ⟨i, hslot, hleast⟩
  · exact iff_of_true hslot hfull
  · refine iff_of_false ?_ fun hfull => hfull i hleast.1.1 hleast.1.2
    rw [hslot]
    unfold maxProcessReached
    omega

/-- What a load that succeeded did to the table and the records. -/
structure Registered (s : Processes) (process i : ℕ) (s' : Processes) : Prop where
  slot : IsLeast s.FreeSlots i
  processList : s'.processList = Function.update s.processList i process
  id : (s'.process process).id = i
  task : (s'.process process).task ≠ 0
  frame : ∀ q, q ≠ process → s'.process q = s.process q
  currentProcess : s'.currentProcess = s.currentProcess

theorem loadProcess_registered {s s' : Processes} {input : LoadInput} {res : ℤ} {process : ℕ}
    (h : loadProcess s input = some (res, process, s')) (hres : 0 < res) :
    process = input.process ∧ ∃ i, Registered s input.process i s' := by
  rcases getProcessFreeSlot_cases s with ⟨hslot, -⟩ | ⟨i, hslot, hleast⟩
  · simp only [loadProcess, hslot, if_true] at h
    cases h
    exact absurd hres (by decide)
  have hne : (i : ℤ) ≠ maxProcessReached := by unfold maxProcessReached; omega
  simp only [loadProcess, hslot, if_neg hne] at h
  split_ifs at h with hprocess hfile hstack
  · cases h
    omega
  · obtain ⟨r, -, heq⟩ := Option.map_eq_some_iff.mp h
    cases heq
    exact absurd hres (by decide)
  · obtain ⟨r, hcreate, heq⟩ := Option.map_eq_some_iff.mp h
    obtain ⟨htask, rfl⟩ := createTask_eq_some_iff.mp hcreate
    cases heq
    refine ⟨rfl, i, hleast, rfl, ?_, ?_, fun q hq => ?_, rfl⟩
    · simp [Processes.setProcess]
    · simpa [Processes.setProcess] using htask
    · simp [Processes.setProcess, hq]

/-- Without a free slot every load is refused, and with one no load is unless
`load_data` itself reports that status. -/
theorem loadProcess_refused_iff {s : Processes} {input : LoadInput} (h : input.fileType ≠ maxProcessReached) :
    (loadProcess s input).map Prod.fst = some maxProcessReached ↔ ∀ i < zhiosMaxProcess, s.processList i ≠ 0 := by
  rcases getProcessFreeSlot_cases s with ⟨hslot, hfull⟩ | ⟨i, hslot, hleast⟩
  · exact iff_of_true (by simp [loadProcess, hslot]) hfull
  · have hne : (i : ℤ) ≠ maxProcessReached := by unfold maxProcessReached; omega
    refine iff_of_false ?_ fun hfull => hfull i hleast.1.1 hleast.1.2
    simp only [loadProcess, hslot, if_neg hne]
    split_ifs
    · simp
    · simpa using h
    · simp [EMEM, maxProcessReached]
    · simp [h]

/-- Without a free slot every load is refused before it does anything. -/
theorem loadProcess_refuses_all_iff (s : Processes) :
    (∀ input, loadProcess s input = some (maxProcessReached, 0, s)) ↔ ∀ i < zhiosMaxProcess, s.processList i ≠ 0 := by
  constructor
  · intro h
    have hrefused := congrArg (Option.map Prod.fst) (h ⟨0, 0, 0, 0, 0⟩)
    exact (loadProcess_refused_iff (by decide)).mp hrefused
  · intro hfull input
    simp only [loadProcess, (getProcessFreeSlot_eq_max_iff s).mpr hfull, if_true]

theorem processSwitchToAny_cases (s : Processes) :
    (processSwitchToAny s).processList = s.processList ∧ (processSwitchToAny s).process = s.process ∧
      ((∃ i < zhiosMaxProcess, s.processList i ≠ 0 ∧ (processSwitchToAny s).currentProcess = s.processList i) ∨
        ∀ i < zhiosMaxProcess, s.processList i = 0) := by
  unfold processSwitchToAny
  cases hfind : findSlot (fun i => s.processList i != 0) zhiosMaxProcess 0 with
  | none =>
    refine ⟨rfl, rfl, Or.inr fun i hi => ?_⟩
    simpa using (findSlot_eq_none_iff _ _ _).mp hfind i (Nat.zero_le i) (by omega)
  | some i =>
    obtain ⟨-, hlt, hused, -⟩ := (findSlot_eq_some_iff _ _ _ _).mp hfind
    exact ⟨rfl, rfl, Or.inl ⟨i, by omega, by simpa using hused, rfl⟩⟩

/-- The kernel between two calls: its heap, its tables, and the processes that were
loaded and not freed. -/
structure TableState where
  k : KMem
  s : Processes
  live : List ℕ

/-- The heap keeps the records of these processes. -/
def KMem.HoldsAll (k : KMem) (live : List ℕ) : Prop := k.Coherent ∧ ∀ p ∈ live, k.Held p

/-- A load that succeeds, through either of the two functions, or the end of a live
process. The record of a new process is what `kzalloc` returned. What else the call
does to the heap is left open, save that the records of all live processes, the new
one among them, stay allocated. -/
inductive TableStep : TableState → TableState → Prop
  | load (σ : TableState) (input : LoadInput) (k : KMem) (res : ℤ) (process : ℕ) (s' : Processes)
      (hrunning : σ.s.halted = false) (hprocess : input.process = (kzalloc σ.k sizeofProcess).1)
      (hload : processLoadAndSwitch σ.s input = some (res, process, s')) (hres : 0 < res)
      (hheap : k.HoldsAll (input.process :: σ.live)) : TableStep σ ⟨k, s', input.process :: σ.live⟩
  | loadWithArgs (σ : TableState) (input : LoadInput) (k : KMem) (res : ℤ) (process : ℕ) (s' : Processes)
      (hrunning : σ.s.halted = false) (hprocess : input.process = (kzalloc σ.k sizeofProcess).1)
      (hload : processLoadWithArgs σ.s input = some (res, process, s')) (hres : 0 < res)
      (hheap : k.HoldsAll (input.process :: σ.live)) : TableStep σ ⟨k, s', input.process :: σ.live⟩
  | free (σ : TableState) (process : ℕ) (k : KMem) (hrunning : σ.s.halted = false) (hlive : process ∈ σ.live)
      (hheap : k.HoldsAll (σ.live.erase process)) :
      TableStep σ ⟨k, processFree σ.s process, σ.live.erase process⟩

/-- Live processes and used slots belong to each other, by the id in the record. -/
structure TableState.Consistent (σ : TableState) : Prop where
  heap : σ.k.HoldsAll σ.live
  nodup : σ.live.Nodup
  slot : ∀ p ∈ σ.live, (σ.s.process p).id < zhiosMaxProcess ∧ σ.s.processList (σ.s.process p).id = p
  owner : ∀ i < zhiosMaxProcess, σ.s.processList i ≠ 0 →
    σ.s.processList i ∈ σ.live ∧ (σ.s.process (σ.s.processList i)).id = i
  current : σ.live ≠ [] → σ.s.currentProcess ∈ σ.live
  task : ∀ p ∈ σ.live, (σ.s.process p).task ≠ 0

namespace TableState.Consistent
variable {σ : TableState}

theorem ne_zero (h : σ.Consistent) {p : ℕ} (hp : p ∈ σ.live) : p ≠ 0 := (h.heap.2 p hp).ne_zero h.heap.1

theorem load (h : σ.Consistent) {input : LoadInput} {k : KMem} {res : ℤ} {process : ℕ} {s' : Processes}
    (hprocess : input.process = (kzalloc σ.k sizeofProcess).1)
    (hload : processLoadAndSwitch σ.s input = some (res, process, s')) (hres : 0 < res)
    (hheap : k.HoldsAll (input.process :: σ.live)) :
    TableState.Consistent ⟨k, s', input.process :: σ.live⟩ := by
  have hfresh : input.process ∉ σ.live := by
    intro hmem
    exact (h.heap.2 _ hmem).ne_kzalloc h.heap.1 sizeofProcess hprocess.symm
  obtain ⟨s₁, hloaded, rfl⟩ := processLoadAndSwitch_some hload hres.le
  obtain ⟨rfl, i, hreg⟩ := loadProcess_registered hloaded hres
  obtain ⟨⟨hlt, hfree⟩, -⟩ := hreg.slot
  have hne : ∀ p ∈ σ.live, p ≠ input.process := fun p hp heq => hfresh (heq ▸ hp)
  constructor
  · exact hheap
  · exact List.nodup_cons.mpr ⟨hfresh, h.nodup⟩
  · intro p hp
    simp only [processSwitch, hreg.processList]
    rcases List.mem_cons.mp hp with rfl | hold
    · rw [hreg.id, Function.update_self]
      exact ⟨hlt, rfl⟩
    · obtain ⟨hid, hslot⟩ := h.slot p hold
      have hother : (σ.s.process p).id ≠ i := by
        intro heq
        rw [heq, hfree] at hslot
        exact h.ne_zero hold hslot.symm
      rw [hreg.frame p (hne p hold), Function.update_of_ne hother]
      exact ⟨hid, hslot⟩
  · intro j hj hused
    simp only [processSwitch, hreg.processList] at hused ⊢
    by_cases hji : j = i
    · rw [hji, Function.update_self]
      exact ⟨List.mem_cons_self, hreg.id⟩
    · rw [Function.update_of_ne hji] at hused ⊢
      obtain ⟨hmem, hid⟩ := h.owner j hj hused
      rw [hreg.frame _ (hne _ hmem)]
      exact ⟨List.mem_cons_of_mem _ hmem, hid⟩
  · exact fun _ => List.mem_cons_self
  · intro p hp
    simp only [processSwitch]
    rcases List.mem_cons.mp hp with rfl | hold
    · exact hreg.task
    · rw [hreg.frame p (hne p hold)]
      exact h.task p hold

theorem unlinked (h : σ.Consistent) {process : ℕ} (hlive : process ∈ σ.live) :
    (∀ p ∈ σ.live.erase process, (σ.s.process p).id < zhiosMaxProcess ∧
      Function.update σ.s.processList (σ.s.process process).id 0 (σ.s.process p).id = p) ∧
    ∀ i < zhiosMaxProcess, Function.update σ.s.processList (σ.s.process process).id 0 i ≠ 0 →
      σ.s.processList i ∈ σ.live.erase process ∧
        Function.update σ.s.processList (σ.s.process process).id 0 i = σ.s.processList i := by
  obtain ⟨-, hslot⟩ := h.slot process hlive
  constructor
  · intro p hp
    obtain ⟨hne, hmem⟩ := h.nodup.mem_erase_iff.mp hp
    obtain ⟨hid, hp'⟩ := h.slot p hmem
    have hother : (σ.s.process p).id ≠ (σ.s.process process).id := by
      intro heq
      rw [heq, hslot] at hp'
      exact hne hp'.symm
    rw [Function.update_of_ne hother]
    exact ⟨hid, hp'⟩
  · intro i hi hused
    have hother : i ≠ (σ.s.process process).id := by
      rintro rfl
      simp at hused
    rw [Function.update_of_ne hother] at hused ⊢
    obtain ⟨hmem, hid⟩ := h.owner i hi hused
    refine ⟨h.nodup.mem_erase_iff.mpr ⟨fun heq => ?_, hmem⟩, rfl⟩
    rw [heq] at hid
    exact hother hid.symm

theorem free (h : σ.Consistent) {process : ℕ} (hlive : process ∈ σ.live) {k : KMem}
    (hheap : k.HoldsAll (σ.live.erase process)) :
    TableState.Consistent ⟨k, processFree σ.s process, σ.live.erase process⟩ := by
  obtain ⟨hslot, howner⟩ := h.unlinked hlive
  set list := Function.update σ.s.processList (σ.s.process process).id 0 with hlist
  obtain ⟨hlist', hrecords, hcurrent⟩ : (processFree σ.s process).processList = list ∧
      (processFree σ.s process).process = σ.s.process ∧
      (σ.live.erase process ≠ [] → (processFree σ.s process).currentProcess ∈ σ.live.erase process) := by
    rw [processFree_eq (h.task process hlive), processUnlink]
    dsimp only
    split_ifs with hcur
    · obtain ⟨hl, hr, hany⟩ := processSwitchToAny_cases
        { σ.s with tasks := removeFromTaskList σ.s.tasks (σ.s.process process).task, processList := list }
      refine ⟨hl, hr, fun hne => ?_⟩
      rcases hany with ⟨i, hi, hused, hnow⟩ | hnone
      · rw [hnow]
        dsimp only at hused ⊢
        rw [(howner i hi hused).2]
        exact (howner i hi hused).1
      · -- a live process has a slot
        obtain ⟨p, hp⟩ := List.exists_mem_of_ne_nil _ hne
        obtain ⟨hid, hpslot⟩ := hslot p hp
        have hzero : list (σ.s.process p).id = 0 := hnone _ hid
        rw [hzero] at hpslot
        exact absurd hpslot.symm (h.ne_zero (List.mem_of_mem_erase hp))
    · refine ⟨rfl, rfl, fun _ => h.nodup.mem_erase_iff.mpr ⟨fun heq => hcur heq.symm, ?_⟩⟩
      exact h.current fun hnil => by simp [hnil] at hlive
  constructor
  · exact hheap
  · exact h.nodup.erase process
  · intro p hp
    simp only [hlist', hrecords]
    exact hslot p hp
  · intro i hi hused
    simp only [hlist', hrecords] at hused ⊢
    obtain ⟨hmem, heq⟩ := howner i hi hused
    rw [heq]
    exact ⟨hmem, (h.owner i hi fun h0 => h.ne_zero (List.mem_of_mem_erase hmem) h0).2⟩
  · exact hcurrent
  · intro p hp
    simp only [hrecords]
    exact h.task p (List.mem_of_mem_erase hp)

theorem step {σ' : TableState} (h : σ.Consistent) (hstep : TableStep σ σ') : σ'.Consistent := by
  cases hstep with
  | load input k _ _ _ _ hprocess hload hres hheap => exact h.load hprocess hload hres hheap
  | loadWithArgs input k _ _ _ _ hprocess hload hres hheap => exact h.load hprocess hload hres hheap
  | free process k _ hlive hheap => exact h.free hlive hheap

theorem run {σ' : TableState} (h : σ.Consistent) (hrun : Relation.ReflTransGen TableStep σ σ') : σ'.Consistent := by
  induction hrun with
  | refl => exact h
  | tail _ hstep ih => exact ih.step hstep

theorem initial {k : KMem} (hk : k.Coherent) : TableState.Consistent ⟨k, Processes.initial, []⟩ :=
  ⟨⟨hk, by simp⟩, List.nodup_nil, by simp, fun i _ hused => absurd rfl hused, fun h => absurd rfl h,
    by simp⟩

theorem existsUnique_slot (h : σ.Consistent) {p : ℕ} (hp : p ∈ σ.live) :
    ∃! i, i < zhiosMaxProcess ∧ σ.s.processList i = p := by
  refine ⟨(σ.s.process p).id, h.slot p hp, fun i hi => ?_⟩
  obtain ⟨hlt, rfl⟩ := hi
  exact (h.owner i hlt (h.ne_zero hp)).2.symm

end TableState.Consistent

/-- In every state of every run the table, the ids and the live processes agree, a
new process gets the lowest free slot, loads are refused exactly without one, and the
current process is live. -/
theorem processTable_invariant (k : KMem) (hk : k.Coherent) (σ : TableState)
    (hrun : Relation.ReflTransGen TableStep ⟨k, Processes.initial, []⟩ σ) :
    (∀ i < zhiosMaxProcess, σ.s.processList i ≠ 0 →
      (σ.s.process (σ.s.processList i)).id = i ∧ σ.s.processList i ∈ σ.live) ∧
    (∀ p ∈ σ.live, ∃! i, i < zhiosMaxProcess ∧ σ.s.processList i = p) ∧
    (∀ input res process s', loadProcess σ.s input = some (res, process, s') → 0 < res →
      process = input.process ∧ ∃ i, Registered σ.s input.process i s') ∧
    ((∀ input, loadProcess σ.s input = some (maxProcessReached, 0, σ.s)) ↔
      ∀ i < zhiosMaxProcess, σ.s.processList i ≠ 0) ∧
    (∀ input : LoadInput, input.fileType ≠ maxProcessReached →
      ((loadProcess σ.s input).map Prod.fst = some maxProcessReached ↔
        ∀ i < zhiosMaxProcess, σ.s.processList i ≠ 0)) ∧
    (σ.live ≠ [] → σ.s.currentProcess ∈ σ.live) := by
  have h := (TableState.Consistent.initial hk).run hrun
  refine ⟨fun i hi hused => (h.owner i hi hused).symm, fun p hp => h.existsUnique_slot hp,
    fun input res process s' hload hres => loadProcess_registered hload hres, loadProcess_refuses_all_iff σ.s,
    fun input hstatus => loadProcess_refused_iff hstatus, h.current⟩

theorem processTable_invariant_first :
    ∃ process s', processLoadAndSwitch Processes.initial
        ⟨(kzalloc ⟨freshKernelHeap, fun _ => 0⟩ sizeofProcess).1, 8, 16, 24, 1⟩ = some (1, process, s') ∧
      ∃! i, i < zhiosMaxProcess ∧ s'.processList i = process := by
  have hheap := (freshKernelHeap_wellFormed fun _ => 0).coherent
  have hne : (kzalloc ⟨freshKernelHeap, fun _ => 0⟩ sizeofProcess).1 ≠ 0 := by
    have hrun : freshKernelHeap.HasFreeRun (blocksFor sizeofProcess) :=
      ⟨0, by simp [blocksFor, sizeofProcess], fun k _ _ => by simp [Heap.FreeAt, heapGetEntryType, heapBlockFree]⟩
    obtain ⟨s, -, -, heq, -⟩ := (freshKernelHeap_wellFormed fun _ => 0).kzalloc (by decide) (by decide) hrun
    have hpos := (freshKernelHeap_wellFormed fun _ => 0).start_pos
    rw [heq]
    dsimp only at hpos ⊢
    omega
  have hheld := hheap.held_kzalloc (show 1 ≤ sizeofProcess by decide) (by decide) hne
  have hkept := hheap.kzalloc sizeofProcess
  set p := (kzalloc ⟨freshKernelHeap, fun _ => 0⟩ sizeofProcess).1 with hp
  have hslot : getProcessFreeSlot Processes.initial = 0 := by decide
  obtain ⟨s', hload⟩ : ∃ s', processLoadAndSwitch Processes.initial ⟨p, 8, 16, 24, 1⟩ = some (1, p, s') := by
    simp [processLoadAndSwitch, loadProcess, hslot, hne, createTask_eq, maxProcessReached]
  have hfirst := TableStep.load ⟨⟨freshKernelHeap, fun _ => 0⟩, Processes.initial, []⟩ ⟨p, 8, 16, 24, 1⟩ _ 1 p s'
    rfl hp hload (by decide) ⟨hkept, by simpa using hheld⟩
  obtain ⟨-, hslots, -⟩ := processTable_invariant _ hheap _ (.single hfirst)
  exact ⟨p, s', hload, hslots _ List.mem_cons_self⟩

end Zhios
