import Zhios.Task.Keyboard
import Zhios.Task.Scheduler

/-! The keyboard driver of `src/keyboard/classic.c` under the scheduler: interrupts,
reads, loads and exits in any order. What is typed goes to the process that was
loaded last and is still live, and stays with it while others run. -/
namespace Zhios
open Machine

def classicKeyboardCapslockKey : UInt8 := 0x3A
def keyReleased : UInt8 := 0x80

def keyboardScanSet1 : List UInt8 :=
  [0x00, 0x1B, 49, 50, 51, 52, 53,
    54, 55, 56, 57, 48, 45, 61,
    0x08, 9, 81, 87, 69, 82, 84,
    89, 85, 73, 79, 80, 91, 93,
    0x0D, 0x00, 65, 83, 68, 70, 71,
    72, 74, 75, 76, 59, 39, 96,
    0x00, 92, 90, 88, 67, 86, 66,
    78, 77, 44, 46, 47, 0x00, 42,
    0x00, 0x20, 0x00, 0x00, 0x00, 0x00,
    0x00, 0x00, 0x00, 0x00, 0x00, 0x00,
    0x00, 55, 56, 57, 45, 52, 53,
    54, 43, 49, 50, 51, 48, 46]

/-- The test lets the index behind the table through; `beyond` is the byte there. -/
def classicGetKeyFromScancode (beyond : UInt8) (capslockOn : Bool) (scanCode : UInt8) : UInt8 :=
  if keyboardScanSet1.length < scanCode.toNat then 0
  else
    let c := (keyboardScanSet1 ++ [beyond]).getD scanCode.toNat 0
    if capslockOn = false ∧ 65 ≤ c ∧ c ≤ 90 then c + 32 else c

/-- The kernel's state and the state of Caps Lock after the interrupt. -/
def classicKeyboardInterruptHandler (beyond : UInt8) (s : Processes) (capslockOn : Bool) (scancode : UInt8) :
    Processes × Bool :=
  if scancode &&& keyReleased ≠ 0 then (s, capslockOn)
  else
    let capslockOn := if scancode = classicKeyboardCapslockKey then !capslockOn else capslockOn
    let c := classicGetKeyFromScancode beyond capslockOn scancode
    (if c ≠ 0 then keyboardPush s c else s, capslockOn)

def getKeyFromKeyboard (s : Processes) : ℤ × Processes :=
  let r := keyboardPop s
  (r.1.toInt8.toInt, r.2)

def capslockAfter (capslockOn : Bool) (scancode : UInt8) : Bool :=
  if scancode = classicKeyboardCapslockKey then !capslockOn else capslockOn

def keyTyped (beyond : UInt8) (capslockOn : Bool) (scancode : UInt8) : Option UInt8 :=
  if scancode &&& keyReleased ≠ 0 then none
  else
    let c := classicGetKeyFromScancode beyond (capslockAfter capslockOn scancode) scancode
    if c ≠ 0 then some c else none

theorem keyTyped_ne_zero {beyond : UInt8} {capslockOn : Bool} {scancode c : UInt8}
    (h : keyTyped beyond capslockOn scancode = some c) : c ≠ 0 := by
  simp only [keyTyped] at h
  split_ifs at h with hrelease hkey
  obtain rfl := Option.some.inj h
  exact hkey

/-- Caps Lock is no release code, so the early return does not miss it. -/
theorem classicKeyboardInterruptHandler_eq (beyond : UInt8) (s : Processes) (capslockOn : Bool) (scancode : UInt8) :
    classicKeyboardInterruptHandler beyond s capslockOn scancode =
      ((keyTyped beyond capslockOn scancode).elim s (keyboardPush s), capslockAfter capslockOn scancode) := by
  by_cases hrelease : scancode &&& keyReleased ≠ 0
  · have hcaps : scancode ≠ classicKeyboardCapslockKey := by
      rintro rfl
      exact absurd hrelease (by decide)
    simp only [classicKeyboardInterruptHandler, keyTyped, capslockAfter, if_pos hrelease, if_neg hcaps,
      Option.elim_none]
  · simp only [classicKeyboardInterruptHandler, keyTyped, if_neg hrelease, ← capslockAfter.eq_def]
    by_cases hkey : classicGetKeyFromScancode beyond (capslockAfter capslockOn scancode) scancode ≠ 0
    · rw [if_pos hkey, if_pos hkey, Option.elim_some]
    · rw [if_neg hkey, if_neg hkey, Option.elim_none]

namespace Nested
variable {s : Processes} {live : List ℕ} {p : ℕ}

theorem setBuffer (h : Nested s live) (p : ℕ) (b : KeyboardBuffer) :
    Nested (s.setProcess p { s.process p with keyboardBuffer := b }) live := by
  have hfields : ∀ a, ((s.setProcess p { s.process p with keyboardBuffer := b }).process a).task = (s.process a).task ∧
      ((s.setProcess p { s.process p with keyboardBuffer := b }).process a).id = (s.process a).id := by
    intro a
    simp only [Processes.setProcess, Function.update_apply]
    split_ifs with heq
    · subst heq
      exact ⟨rfl, rfl⟩
    · exact ⟨rfl, rfl⟩
  have htasks : (s.setProcess p { s.process p with keyboardBuffer := b }).tasksOf live = s.tasksOf live :=
    List.map_congr_left fun a _ => (hfields a).1
  constructor
  · rw [htasks]
    exact h.taskList
  · exact h.null
  · exact h.nodup
  · rw [htasks]
    exact h.taskNull
  · rw [htasks]
    exact h.taskNodup
  · intro a ha
    rw [(hfields a).1]
    exact h.owner a ha
  · exact h.slot
  · exact h.length_le
  · intro i a hi
    rw [(hfields a).2]
    exact h.id i a hi
  · intro a ha
    rw [(hfields a).1]
    exact h.current a ha
  · exact h.running

/-- The last process loaded is the one keys are pushed to and read by. -/
theorem serves (h : Nested s live) (hlast : live.getLast? = some p) : s.Serves p := by
  have hmem := List.mem_of_getLast? hlast
  obtain ⟨htask, hcurrent⟩ := h.current p hlast
  constructor
  · exact hcurrent
  · rintro rfl
    exact h.null hmem
  · intro hzero
    apply h.taskNull
    rw [← hzero, htask]
    exact List.mem_map_of_mem hmem
  · rw [htask]
    exact h.owner p hmem

end Nested

theorem isr80hExitProcessCommand_process (s : Processes) : (isr80hExitProcessCommand s).process = s.process := by
  have hunlink : ∀ (s : Processes) p, (processUnlink s p).process = s.process := by
    intro s p
    simp only [processUnlink, processSwitchToAny, processSwitch]
    split_ifs
    · split <;> rfl
    · rfl
  have hfree : ∀ p, (processFree s p).process = s.process := by
    intro p
    unfold processFree
    split
    · rfl
    · exact hunlink _ p
  simp only [isr80hExitProcessCommand]
  split_ifs
  · exact hfree _
  · split <;> exact hfree _

theorem isr80hLoadProcessCommand_process (s : Processes) (input : LoadInput) {p : ℕ} (hp : p ≠ input.process) :
    (isr80hLoadProcessCommand s input).process p = s.process p := by
  have hload : ∀ r, loadProcess s input = some r → r.2.2.process p = s.process p := by
    intro r h
    simp only [loadProcess, Processes.setProcess] at h
    split_ifs at h
    · cases h
      rfl
    · cases h
      exact Function.update_of_ne hp ..
    all_goals
      obtain ⟨t, -, rfl⟩ := Option.map_eq_some_iff.mp h
      simp [hp]
  unfold isr80hLoadProcessCommand
  cases hswitch : processLoadWithArgs s input with
  | none => rfl
  | some r =>
    obtain ⟨r', hr', heq⟩ := Option.map_eq_some_iff.mp hswitch
    have hsame : r.2.2.process p = s.process p := by
      rw [← hload r' hr', ← heq]
      split_ifs <;> rfl
    simp only
    split_ifs <;> exact hsame

theorem KernelRun.exec_process {r : KernelRun} (op : KernelOp) (hallows : r.Allows op) {p : ℕ} (hp : p ∈ r.live) :
    (r.exec op).s.process p = r.s.process p := by
  cases op with
  | load input =>
    have hne : p ≠ input.process := fun heq => hallows.2.2.1 (heq ▸ hp)
    exact isr80hLoadProcessCommand_process r.s input hne
  | exit => exact congrFun (isr80hExitProcessCommand_process r.s) p
  | exception => exact congrFun (isr80hExitProcessCommand_process r.s) p

/-- The process that an event has just added to the live ones. -/
def KernelRun.created (r : KernelRun) : KernelOp → Option ℕ
  | .load input => if input.succeeds r.s then some input.process else none
  | _ => none

theorem KernelRun.exec_created {r : KernelRun} (h : Nested r.s r.live) {op : KernelOp} (hmemory : r.EnoughMemory op)
    {p : ℕ} (hcreated : r.created op = some p) :
    ((r.exec op).s.process p).keyboardBuffer = Process.zero.keyboardBuffer := by
  cases op with
  | load input =>
    obtain ⟨hprocess, htask, -, hstack⟩ := hmemory
    simp only [KernelRun.created] at hcreated
    split_ifs at hcreated with hloaded
    obtain rfl := Option.some.inj hcreated
    obtain ⟨hroom, hfile⟩ := (h.succeeds_iff hprocess htask hstack).mp hloaded
    simp only [KernelRun.exec]
    rw [h.load_state hroom hfile hprocess htask hstack]
    simp only [Function.update_self]
    rfl
  | exit => cases hcreated
  | exception => cases hcreated

theorem KernelRun.mem_live {r : KernelRun} {op : KernelOp} {p : ℕ} (hp : p ∈ (r.exec op).live) :
    p ∈ r.live ∨ r.created op = some p := by
  cases op with
  | load input =>
    simp only [KernelRun.exec] at hp
    simp only [KernelRun.created]
    split_ifs at hp ⊢
    · simpa [eq_comm] using List.mem_append.mp hp
    · exact Or.inl hp
  | exit => exact Or.inl (List.mem_of_mem_erase hp)
  | exception => exact Or.inl (List.mem_of_mem_erase hp)

/-- A kernel event, a keyboard interrupt, or the system call that reads a key. -/
inductive InputOp
  | kernel (op : KernelOp)
  | interrupt (scancode : UInt8)
  | getKey

/-- The kernel and the driver, with the characters typed for each process and not
read yet, and the number of all typed for it. -/
structure InputRun where
  run : KernelRun
  capslockOn : Bool
  unread : ℕ → List UInt8
  pushed : ℕ → ℕ

namespace InputRun

/-- The process that was loaded last and is still live. -/
def front (t : InputRun) : ℕ := t.run.live.getLastD 0

section
variable (beyond : UInt8)

def typed (t : InputRun) (scancode : UInt8) : List UInt8 := (keyTyped beyond t.capslockOn scancode).toList

def exec (t : InputRun) : InputOp → InputRun
  | .kernel op =>
    { t with
      run := t.run.exec op
      unread := (t.run.created op).elim t.unread fun p => Function.update t.unread p []
      pushed := (t.run.created op).elim t.pushed fun p => Function.update t.pushed p 0 }
  | .interrupt scancode =>
    let r := classicKeyboardInterruptHandler beyond t.run.s t.capslockOn scancode
    { run := ⟨r.1, t.run.live⟩
      capslockOn := r.2
      unread := Function.update t.unread t.front (t.unread t.front ++ t.typed beyond scancode)
      pushed := Function.update t.pushed t.front (t.pushed t.front + (t.typed beyond scancode).length) }
  | .getKey =>
    { t with
      run := ⟨(getKeyFromKeyboard t.run.s).2, t.run.live⟩
      unread := Function.update t.unread t.front (t.unread t.front).tail }

/-- The kernel has not stopped, its own events are those under which the scheduler
and the process layer agree, and nothing is typed into a full buffer. -/
def Allowed (t : InputRun) : InputOp → Prop
  | .kernel op => t.run.Allows op ∧ t.run.EnoughMemory op ∧ t.run.AtMostTwo op
  | .interrupt scancode => t.run.s.halted = false ∧
      (t.typed beyond scancode ≠ [] → (t.unread t.front).length < zhiosMaxKeyboardBufferSize)
  | .getKey => t.run.s.halted = false

instance (r : KernelRun) (op : KernelOp) : Decidable (r.EnoughMemory op) :=
  match op with
  | .load _ => inferInstanceAs (Decidable (_ ∧ _ ∧ _ ∧ _))
  | .exit => inferInstanceAs (Decidable True)
  | .exception => inferInstanceAs (Decidable True)

instance (t : InputRun) (op : InputOp) : Decidable (t.Allowed beyond op) :=
  match op with
  | .kernel _ => inferInstanceAs (Decidable (_ ∧ _ ∧ _))
  | .interrupt _ => inferInstanceAs (Decidable (_ ∧ _))
  | .getKey => inferInstanceAs (Decidable (_ = _))

/-- A read returns the oldest unread character typed for the process in front, or 0
and changes nothing; no event touches what was typed for a process that is not. -/
def Delivers (t : InputRun) (op : InputOp) : Prop :=
  (op = .getKey → (getKeyFromKeyboard t.run.s).1 = ((t.unread t.front).headD 0).toInt8.toInt ∧
    (t.unread t.front = [] → (getKeyFromKeyboard t.run.s).2 = t.run.s)) ∧
  ∀ p ∈ t.run.live, p ≠ t.front →
    ((t.exec beyond op).run.s.process p).keyboardBuffer = (t.run.s.process p).keyboardBuffer

/-- No process reads with nothing unread once its ring has been filled. -/
def FirstLap (t : InputRun) : InputOp → Prop
  | .getKey => t.unread t.front = [] → t.pushed t.front < zhiosMaxKeyboardBufferSize
  | _ => True

end

/-- Every live process's buffer holds what was typed for it. -/
structure Tracks (t : InputRun) : Prop where
  nested : Nested t.run.s t.run.live
  live : t.run.live ≠ []
  holds : ∀ p ∈ t.run.live, (t.run.s.process p).keyboardBuffer.Holds (t.unread p) (t.pushed p)

/-- The kernel has stopped for good, or the buffers are right. -/
def Good (t : InputRun) : Prop := t.run.s.halted = true ∨ t.Tracks

/-- The queue of the process in front, as one keyboard buffer is followed. -/
def typing (t : InputRun) : Typing := ⟨t.run.s, t.unread t.front, t.pushed t.front⟩

variable {t : InputRun} {beyond : UInt8}

theorem Good.tracks (h : t.Good) (hrunning : t.run.s.halted = false) : t.Tracks :=
  h.resolve_left (by simp [hrunning])

theorem Tracks.getLast? (h : t.Tracks) : t.run.live.getLast? = some t.front := by
  rw [front, List.getLastD_eq_getLast?, List.getLast?_eq_some_getLast h.live, Option.getD_some]

theorem Tracks.front_mem (h : t.Tracks) : t.front ∈ t.run.live := List.mem_of_getLast? h.getLast?

theorem Tracks.serves (h : t.Tracks) : t.run.s.Serves t.front := h.nested.serves h.getLast?

theorem Tracks.typing (h : t.Tracks) : t.typing.Tracks t.front := ⟨h.serves, h.holds _ h.front_mem⟩

theorem Tracks.withBuffer (h : t.Tracks) {s : Processes} {b : KeyboardBuffer}
    (hs : s = t.run.s.setProcess t.front { t.run.s.process t.front with keyboardBuffer := b })
    {unread : ℕ → List UInt8} {pushed : ℕ → ℕ} {capslockOn : Bool} (hb : b.Holds (unread t.front) (pushed t.front))
    (hunread : ∀ p, p ≠ t.front → unread p = t.unread p) (hpushed : ∀ p, p ≠ t.front → pushed p = t.pushed p) :
    Tracks ⟨⟨s, t.run.live⟩, capslockOn, unread, pushed⟩ := by
  subst hs
  constructor
  · exact h.nested.setBuffer _ _
  · exact h.live
  · intro p hp
    rcases eq_or_ne p t.front with rfl | hne
    · simpa [Processes.setProcess] using hb
    · simp only [Processes.setProcess, Function.update_of_ne hne, hunread p hne, hpushed p hne]
      exact h.holds p hp

theorem Allowed.running {op : InputOp} (h : t.Allowed beyond op) : t.run.s.halted = false := by
  cases op with
  | kernel op =>
    cases op with
    | load input => exact h.1.1
    | exit => exact h.1
    | exception => exact h.1
  | interrupt scancode => exact h.1
  | getKey => exact h

theorem setProcess_buffer (s : Processes) {p q : ℕ} (v : Process) (h : q ≠ p) :
    ((s.setProcess p v).process q).keyboardBuffer = (s.process q).keyboardBuffer := by
  simp only [Processes.setProcess, Function.update_of_ne h]

theorem exec_interrupt (scancode : UInt8) : (t.exec beyond (.interrupt scancode)).run.s =
    (keyTyped beyond t.capslockOn scancode).elim t.run.s (keyboardPush t.run.s) := by
  simp only [exec, classicKeyboardInterruptHandler_eq]

theorem delivers_iff (h : t.Tracks) {op : InputOp} (ha : t.Allowed beyond op) :
    t.Delivers beyond op ↔ t.FirstLap op := by
  have hserves := h.serves
  cases op with
  | kernel op =>
    refine iff_of_true ⟨nofun, fun p hp _ => ?_⟩ trivial
    simp only [exec, KernelRun.exec_process op ha.1 hp]
  | interrupt scancode =>
    refine iff_of_true ⟨nofun, fun p _ hne => ?_⟩ trivial
    rw [exec_interrupt]
    cases htyped : keyTyped beyond t.capslockOn scancode with
    | none => rfl
    | some c =>
      rw [Option.elim_some, keyboardPush_eq hserves (keyTyped_ne_zero htyped)]
      exact setProcess_buffer _ _ hne
  | getKey =>
    have hfifo := Typing.fifo_iff_firstLap h.typing .pop
    constructor
    · rintro ⟨hread, -⟩
      obtain ⟨hchar, hstill⟩ := hread rfl
      refine hfifo.mp ⟨?_, hstill⟩
      have hinj := Int8.toInt_inj.mp hchar
      exact congrArg Int8.toUInt8 hinj
    · intro hlap
      obtain ⟨hchar, hstill⟩ := hfifo.mpr hlap
      refine ⟨fun _ => ⟨congrArg (fun c : UInt8 => c.toInt8.toInt) hchar, hstill⟩, fun p _ hne => ?_⟩
      change ((keyboardPop t.run.s).2.process p).keyboardBuffer = _
      rw [keyboardPop_eq hserves]
      dsimp only
      split_ifs
      · rfl
      · exact setProcess_buffer _ _ hne

theorem tracks_kernel (h : t.Tracks) {op : KernelOp} (ha : t.Allowed beyond (.kernel op)) :
    (t.exec beyond (.kernel op)).Good := by
  obtain ⟨hallows, hmemory, htwo⟩ := ha
  obtain ⟨hagree, hgood⟩ := KernelRun.exec_agree (Or.inr ⟨h.nested, h.live⟩) hallows hmemory
  rcases hgood (hagree.mpr htwo) with hhalted | ⟨hnested, hlive⟩
  · exact Or.inl hhalted
  refine Or.inr ⟨hnested, hlive, fun p hp => ?_⟩
  simp only [exec]
  rcases eq_or_ne (t.run.created op) (some p) with hcreated | hother
  · rw [KernelRun.exec_created h.nested hmemory hcreated, hcreated, Option.elim_some, Option.elim_some,
      Function.update_self, Function.update_self]
    exact KeyboardBuffer.Holds.zero
  · have hmem := (KernelRun.mem_live hp).resolve_right hother
    have hholds := h.holds p hmem
    rw [KernelRun.exec_process op hallows hmem]
    cases hcreated : t.run.created op with
    | none => exact hholds
    | some q =>
      have hne : p ≠ q := by
        rintro rfl
        exact hother hcreated
      rwa [Option.elim_some, Option.elim_some, Function.update_of_ne hne, Function.update_of_ne hne]

theorem tracks_interrupt (h : t.Tracks) {scancode : UInt8} (ha : t.Allowed beyond (.interrupt scancode)) :
    (t.exec beyond (.interrupt scancode)).Tracks := by
  simp only [exec, classicKeyboardInterruptHandler_eq, typed]
  cases htyped : keyTyped beyond t.capslockOn scancode with
  | none =>
    simp only [Option.elim_none, Option.toList_none, List.append_nil, List.length_nil, Nat.add_zero,
      Function.update_eq_self]
    exact ⟨h.nested, h.live, h.holds⟩
  | some c =>
    have hc := keyTyped_ne_zero htyped
    have hroom := ha.2 (by simp [typed, htyped])
    refine h.withBuffer (keyboardPush_eq h.serves hc) ?_ (fun p hne => Function.update_of_ne hne ..)
      (fun p hne => Function.update_of_ne hne ..)
    rw [Function.update_self, Function.update_self]
    exact (h.holds _ h.front_mem).push hroom hc

theorem tracks_getKey (h : t.Tracks) (hlap : t.FirstLap .getKey) : (t.exec beyond .getKey).Tracks := by
  have hholds := h.holds _ h.front_mem
  simp only [exec, getKeyFromKeyboard, keyboardPop_eq h.serves]
  cases hunread : t.unread t.front with
  | nil =>
    rw [hunread] at hholds
    rw [if_pos (hholds.empty_iff.mpr (hlap hunread)), List.tail_nil, ← hunread, Function.update_eq_self]
    exact ⟨h.nested, h.live, h.holds⟩
  | cons c rest =>
    rw [hunread] at hholds
    have hc : c ≠ 0 := hholds.nonzero c List.mem_cons_self
    rw [hholds.front, if_neg hc]
    refine h.withBuffer rfl ?_ (fun p hne => Function.update_of_ne hne ..) (fun _ _ => rfl)
    rw [Function.update_self]
    exact hholds.pop

theorem good_exec (h : t.Tracks) {op : InputOp} (ha : t.Allowed beyond op) (hlap : t.FirstLap op) :
    (t.exec beyond op).Good := by
  cases op with
  | kernel op => exact tracks_kernel h ha
  | interrupt scancode => exact Or.inr (tracks_interrupt h ha)
  | getKey => exact Or.inr (tracks_getKey h hlap)

def boot (input : LoadInput) : InputRun :=
  ⟨⟨kernelMain Processes.initial input, [input.process]⟩, false, fun _ => [], fun _ => 0⟩

end InputRun

theorem kernelMain_buffer {input : LoadInput} (hfile : 0 < input.fileType) (hprocess : input.process ≠ 0)
    (htask : input.task ≠ 0)
    (hstack : input.stack ≠ 0) :
    ((kernelMain Processes.initial input).process input.process).keyboardBuffer = Process.zero.keyboardBuffer := by
  have hload := Nested.initial.processLoadAndSwitch_eq (by decide) hfile hprocess htask hstack
  simp only [kernelMain, hload, if_neg (not_lt.mpr hfile.le)]
  split <;> simp only [Function.update_self] <;> rfl

theorem InputRun.boot_good {input : LoadInput} (hfile : 0 < input.fileType)
    (hboot : input.process ≠ 0 ∧ input.task ≠ 0 ∧ input.pageDirectory ≠ 0 ∧ input.stack ≠ 0) :
    (InputRun.boot input).Good := by
  obtain ⟨hprocess, htask, hdirectory, hstack⟩ := hboot
  refine Or.inr ⟨kernelMain_nested hfile hprocess htask hdirectory hstack, by simp [InputRun.boot], fun p hp => ?_⟩
  obtain rfl : p = input.process := by simpa [InputRun.boot] using hp
  rw [InputRun.boot, kernelMain_buffer hfile hprocess htask hstack]
  exact KeyboardBuffer.Holds.zero

/-- From boot, over every interleaving of key presses, reads, loads, exits and
faults in which processes end only while at most two are live, each read returns the
oldest character typed for its process and no other process's input is touched,
exactly as long as no process reads an empty ring after its first lap. -/
theorem input_delivered_iff (beyond : UInt8) (input : LoadInput) (hfile : 0 < input.fileType)
    (hboot : input.process ≠ 0 ∧ input.task ≠ 0 ∧ input.pageDirectory ≠ 0 ∧ input.stack ≠ 0) (ops : List InputOp)
    (hallowed : Each (InputRun.exec beyond) (InputRun.Allowed beyond) (InputRun.boot input) ops) :
    Each (InputRun.exec beyond) (InputRun.Delivers beyond) (InputRun.boot input) ops ↔
      Each (InputRun.exec beyond) InputRun.FirstLap (InputRun.boot input) ops := by
  have hgood := InputRun.boot_good hfile hboot
  refine each_iff_each (G := InputRun.Good) ?_ ?_ hgood hallowed
  · exact fun t op hg ha => InputRun.delivers_iff (hg.tracks ha.running) ha
  · exact fun t op hg ha hlap => InputRun.good_exec (hg.tracks ha.running) ha hlap

/-- A key for the shell, which then starts a program; two keys and Caps Lock for the
program, which reads one of them and ends; the shell reads its own. -/
theorem input_delivered_shell :
    Each (InputRun.exec 0) (InputRun.Delivers 0) (InputRun.boot ⟨0x1000, 0x2000, 1, 0x3000, 1⟩)
      [.interrupt 0x1E, .kernel (.load ⟨0x4000, 0x5000, 2, 0x6000, 1⟩), .interrupt 0x30, .interrupt 0x3A,
        .interrupt 0x2E, .getKey, .kernel .exit, .getKey] := by
  refine (input_delivered_iff 0 _ (by decide) (by decide) _ ?_).mpr ?_
  · refine ⟨?_, ?_, ?_, ?_, ?_, ?_, ?_, ?_, trivial⟩ <;> decide +kernel
  · refine ⟨trivial, trivial, trivial, trivial, trivial, ?_, trivial, ?_, trivial⟩ <;>
      exact fun _ => by decide +kernel

end Zhios
