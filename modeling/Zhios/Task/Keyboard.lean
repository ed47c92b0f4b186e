import Zhios.Task.Process
import Zhios.Machine.Ring
import Zhios.Machine.Run

/-! The keyboard buffer of a process against the queue it stands for. The buffer
has no count: an empty ring is told from a full one by the zero in the slot to be
read next, and `keyboard_pop` never puts that zero back. -/
namespace Zhios
open Machine

/-- `process` is both the current process and the process of the current task, so
that pushes and pops meet in its buffer. -/
structure Processes.Serves (s : Processes) (process : ℕ) : Prop where
  currentProcess : s.currentProcess = process
  process_ne : process ≠ 0
  currentTask_ne : s.tasks.currentTask ≠ 0
  owner : (s.tasks.task s.tasks.currentTask).process = process

theorem Processes.Serves.setProcess {s : Processes} {process : ℕ} (h : s.Serves process) (v : Process) :
    (s.setProcess process v).Serves process :=
  ⟨h.currentProcess, h.process_ne, h.currentTask_ne, h.owner⟩

def KeyboardBuffer.pushed (b : KeyboardBuffer) (c : UInt8) : KeyboardBuffer :=
  { b with
    buffer := Function.update b.buffer (keyboardGetTailIndex b) c
    tail := int32 (b.tail + 1) }

def KeyboardBuffer.popped (b : KeyboardBuffer) : KeyboardBuffer := { b with head := int32 (b.head + 1) }

theorem keyboardPush_eq {s : Processes} {process : ℕ} (h : s.Serves process) {c : UInt8} (hc : c ≠ 0) :
    keyboardPush s c = s.setProcess process
      { s.process process with keyboardBuffer := (s.process process).keyboardBuffer.pushed c } := by
  obtain ⟨rfl, hprocess, -, -⟩ := h
  unfold keyboardPush
  rw [if_neg hprocess, if_neg hc]
  rfl

theorem keyboardPop_eq {s : Processes} {process : ℕ} (h : s.Serves process) :
    keyboardPop s =
      let b := (s.process process).keyboardBuffer
      let res := b.buffer (keyboardGetHeadIndex b)
      if res = 0 then (0, s)
      else (res, s.setProcess process { s.process process with keyboardBuffer := b.popped }) := by
  obtain ⟨-, -, htask, rfl⟩ := h
  unfold keyboardPop
  rw [if_neg htask]
  rfl

/-- Counting on past the range of an `int` keeps the slot, since the ring divides
the address space of the counter. -/
theorem uint32_int32_succ_mod (x : ℤ) :
    uint32 (int32 (x + 1)) % zhiosMaxKeyboardBufferSize =
      (uint32 x % zhiosMaxKeyboardBufferSize + 1) % zhiosMaxKeyboardBufferSize := by
  unfold uint32 int32 zhiosMaxKeyboardBufferSize
  omega

/-- The buffer holds the unread characters after `pushed` pushes. Slots are zero
until the first lap has reached them and never again. -/
structure KeyboardBuffer.Holds (b : KeyboardBuffer) (unread : List UInt8) (pushed : ℕ) : Prop where
  ring : Ring zhiosMaxKeyboardBufferSize b.buffer pushed unread
  nonzero : ∀ c ∈ unread, c ≠ 0
  tailIndex : keyboardGetTailIndex b = pushed % zhiosMaxKeyboardBufferSize
  headIndex : keyboardGetHeadIndex b = (pushed - unread.length) % zhiosMaxKeyboardBufferSize
  used : ∀ j < zhiosMaxKeyboardBufferSize, b.buffer j ≠ 0 ↔ j < pushed

namespace KeyboardBuffer.Holds
variable {b : KeyboardBuffer} {unread : List UInt8} {pushed : ℕ} {c : UInt8}

theorem zero : KeyboardBuffer.Holds Process.zero.keyboardBuffer [] 0 := by
  constructor
  · exact Ring.nil ..
  · simp
  · simp [keyboardGetTailIndex, Process.zero, uint32]
  · simp [keyboardGetHeadIndex, Process.zero, uint32]
  · simp [Process.zero]

theorem push (h : b.Holds unread pushed) (hroom : unread.length < zhiosMaxKeyboardBufferSize)
    (hc : c ≠ 0) : (b.pushed c).Holds (unread ++ [c]) (pushed + 1) := by
  have htail := h.tailIndex
  constructor
  · have hring := h.ring.push hroom c
    rwa [← htail] at hring
  · intro a ha
    rcases List.mem_append.mp ha with hold | hnew
    · exact h.nonzero a hold
    · rwa [List.mem_singleton.mp hnew]
  · unfold keyboardGetTailIndex at htail ⊢
    simp only [KeyboardBuffer.pushed, uint32_int32_succ_mod, htail]
    exact Nat.mod_add_mod ..
  · rw [List.length_append, List.length_singleton, Nat.add_sub_add_right]
    exact h.headIndex
  · intro j hj
    have hused := h.used j hj
    simp only [KeyboardBuffer.pushed, htail, Function.update_apply]
    -- The slot written is behind the frontier of the first lap, or is the frontier.
    split_ifs with hslot
    · refine iff_of_true hc ?_
      have := Nat.mod_le pushed zhiosMaxKeyboardBufferSize
      omega
    · rw [hused]
      constructor
      · omega
      · intro hlt
        by_contra hge
        obtain rfl : j = pushed := by omega
        exact hslot (Nat.mod_eq_of_lt hj).symm

theorem front (h : b.Holds (c :: unread) pushed) : b.buffer (keyboardGetHeadIndex b) = c := by
  rw [h.headIndex]
  exact h.ring.front

theorem pop (h : b.Holds (c :: unread) pushed) : b.popped.Holds unread pushed := by
  have hhead := h.headIndex
  have hle := h.ring.length_le_written
  simp only [List.length_cons] at hhead hle
  constructor
  · exact h.ring.pop
  · exact fun a ha => h.nonzero a (List.mem_cons_of_mem _ ha)
  · exact h.tailIndex
  · unfold keyboardGetHeadIndex at hhead ⊢
    simp only [KeyboardBuffer.popped, uint32_int32_succ_mod, hhead, Nat.mod_add_mod]
    congr 1
    omega
  · exact h.used

/-- With nothing unread, the slot under the head is still zero exactly during the
first lap. -/
theorem empty_iff (h : b.Holds [] pushed) :
    b.buffer (keyboardGetHeadIndex b) = 0 ↔ pushed < zhiosMaxKeyboardBufferSize := by
  have hlt : pushed % zhiosMaxKeyboardBufferSize < zhiosMaxKeyboardBufferSize :=
    Nat.mod_lt _ (by decide)
  have hused := h.used _ hlt
  rw [h.headIndex, List.length_nil, Nat.sub_zero, ← not_iff_not, ← ne_eq, hused]
  rcases Nat.lt_or_ge pushed zhiosMaxKeyboardBufferSize with hfirst | hlapped
  · rw [Nat.mod_eq_of_lt hfirst]
    omega
  · omega

end KeyboardBuffer.Holds

inductive KeyboardOp
  | push (c : UInt8)
  | pop

/-- The kernel's state with the queue the buffer stands for beside it: the pushed
characters that no pop has been asked for yet, and the number of all pushes. -/
structure Typing where
  state : Processes
  unread : List UInt8
  pushed : ℕ

namespace Typing

def exec (t : Typing) : KeyboardOp → Typing
  | .push c => ⟨keyboardPush t.state c, t.unread ++ [c], t.pushed + 1⟩
  | .pop => ⟨(keyboardPop t.state).2, t.unread.tail, t.pushed⟩

/-- Characters are non-zero and never more than the buffer has slots for. -/
def Allowed (t : Typing) : KeyboardOp → Prop
  | .push c => c ≠ 0 ∧ t.unread.length < zhiosMaxKeyboardBufferSize
  | .pop => True

/-- A pop takes the oldest unread character, and finds nothing and moves nothing
when there is none. -/
def Fifo (t : Typing) : KeyboardOp → Prop
  | .push _ => True
  | .pop => (keyboardPop t.state).1 = t.unread.headD 0 ∧
      (t.unread = [] → (keyboardPop t.state).2 = t.state)

/-- No pop is made with nothing unread once the ring has been filled. -/
def FirstLap (t : Typing) : KeyboardOp → Prop
  | .push _ => True
  | .pop => t.unread = [] → t.pushed < zhiosMaxKeyboardBufferSize

/-- The buffer of `process` holds what it should. -/
structure Tracks (t : Typing) (process : ℕ) : Prop where
  serves : t.state.Serves process
  holds : (t.state.process process).keyboardBuffer.Holds t.unread t.pushed

variable {t : Typing} {process : ℕ}

theorem fifo_iff_firstLap (h : t.Tracks process) (op : KeyboardOp) : t.Fifo op ↔ t.FirstLap op := by
  cases op with
  | push c => exact Iff.rfl
  | pop =>
    have hholds := h.holds
    simp only [Fifo, FirstLap, keyboardPop_eq h.serves]
    cases hunread : t.unread with
    | nil =>
      rw [hunread] at hholds
      rw [← hholds.empty_iff]
      split_ifs with hzero
      · simp [hzero]
      · simp [hzero]
    | cons c rest =>
      rw [hunread] at hholds
      have hc : c ≠ 0 := hholds.nonzero c List.mem_cons_self
      rw [hholds.front, if_neg hc]
      simp

theorem tracks_exec (h : t.Tracks process) (op : KeyboardOp) (hallowed : t.Allowed op)
    (hlap : t.FirstLap op) : (t.exec op).Tracks process := by
  have hholds := h.holds
  cases op with
  | push c =>
    obtain ⟨hc, hroom⟩ := hallowed
    simp only [exec, keyboardPush_eq h.serves hc]
    constructor
    · exact h.serves.setProcess _
    · simpa [Processes.setProcess] using hholds.push hroom hc
  | pop =>
    simp only [exec, keyboardPop_eq h.serves]
    cases hunread : t.unread with
    | nil =>
      rw [hunread] at hholds
      rw [if_pos (hholds.empty_iff.mpr (hlap hunread))]
      exact ⟨h.serves, hholds⟩
    | cons c rest =>
      rw [hunread] at hholds
      have hc : c ≠ 0 := hholds.nonzero c List.mem_cons_self
      rw [hholds.front, if_neg hc]
      constructor
      · exact h.serves.setProcess _
      · simpa [Processes.setProcess] using hholds.pop

theorem each_fifo_iff (h : t.Tracks process) {ops : List KeyboardOp} (hallowed : Each exec Allowed t ops) :
    Each exec Fifo t ops ↔ Each exec FirstLap t ops :=
  each_iff_each (G := fun t => t.Tracks process) (fun _ op ht _ => fifo_iff_firstLap ht op)
    (fun _ op ht ha hd => tracks_exec ht op ha hd) h hallowed

/-- A process that has just been loaded: its record is cleared. -/
def start (s : Processes) : Typing := ⟨s, [], 0⟩

theorem start_tracks {s : Processes} (hserves : s.Serves process)
    (hfresh : (s.process process).keyboardBuffer = Process.zero.keyboardBuffer) :
    (start s).Tracks process := by
  constructor
  · exact hserves
  · simpa only [start, hfresh] using KeyboardBuffer.Holds.zero

end Typing

/-- Over every run from a cleared buffer, the buffer is a queue exactly as long as
nobody reads the empty ring after its first lap. -/
theorem keyboard_fifo_iff (s : Processes) (process : ℕ) (ops : List KeyboardOp)
    (hserves : s.Serves process)
    (hfresh : (s.process process).keyboardBuffer = Process.zero.keyboardBuffer)
    (hallowed : Each Typing.exec Typing.Allowed (Typing.start s) ops) :
    Each Typing.exec Typing.Fifo (Typing.start s) ops ↔
      Each Typing.exec Typing.FirstLap (Typing.start s) ops :=
  Typing.each_fifo_iff (Typing.start_tracks hserves hfresh) hallowed

/-- One task, at address 1, whose process, at address 2, is the current one. -/
def soleProcess : Processes :=
  ⟨⟨1, 1, 1, fun _ => ⟨0, 0, 0, 2⟩, 0⟩, 2, fun _ => 0, fun _ => Process.zero, false⟩

theorem soleProcess_serves : soleProcess.Serves 2 := ⟨rfl, by decide, by decide, rfl⟩

theorem keyboard_fifo_typed :
    Each Typing.exec Typing.Fifo (Typing.start soleProcess) [.push 97, .push 98, .pop, .pop, .pop] := by
  apply (keyboard_fifo_iff soleProcess 2 _ soleProcess_serves rfl ?_).mpr
  · simp [Each, Typing.FirstLap, Typing.exec, Typing.start, zhiosMaxKeyboardBufferSize]
  · simp [Each, Typing.Allowed, Typing.exec, Typing.start, zhiosMaxKeyboardBufferSize]

/-- `n` characters, each read before the next is typed, and one read more. -/
def typeAndRead : ℕ → List KeyboardOp
  | 0 => [.pop]
  | n + 1 => .push 97 :: .pop :: typeAndRead n

theorem typeAndRead_allowed (n : ℕ) (t : Typing) (h : t.unread = []) :
    Each Typing.exec Typing.Allowed t (typeAndRead n) := by
  induction n generalizing t with
  | zero => exact ⟨trivial, trivial⟩
  | succ n ih =>
    refine ⟨⟨by decide, by simp [h, zhiosMaxKeyboardBufferSize]⟩, trivial, ih _ ?_⟩
    simp [Typing.exec, h]

theorem typeAndRead_firstLap (n : ℕ) (t : Typing) (h : t.unread = [])
    (hlap : Each Typing.exec Typing.FirstLap t (typeAndRead n)) :
    t.pushed + n < zhiosMaxKeyboardBufferSize := by
  induction n generalizing t with
  | zero => exact hlap.1 h
  | succ n ih =>
    have hrest := ih _ (by simp [Typing.exec, h]) hlap.2.2
    simp only [Typing.exec] at hrest
    omega

/-- After 1024 characters typed and read, one more read returns a stale one. -/
theorem keyboard_stale : soleProcess.Serves 2 ∧
    (soleProcess.process 2).keyboardBuffer = Process.zero.keyboardBuffer ∧
    Each Typing.exec Typing.Allowed (Typing.start soleProcess) (typeAndRead 1024) ∧
    ¬ Each Typing.exec Typing.Fifo (Typing.start soleProcess) (typeAndRead 1024) := by
  have hallowed := typeAndRead_allowed 1024 (Typing.start soleProcess) rfl
  refine ⟨soleProcess_serves, rfl, hallowed, fun hfifo => ?_⟩
  have htracks := Typing.start_tracks soleProcess_serves rfl
  have hlap := typeAndRead_firstLap 1024 _ rfl ((Typing.each_fifo_iff htracks hallowed).mp hfifo)
  simp [Typing.start, zhiosMaxKeyboardBufferSize] at hlap

end Zhios
