import Zhios.Machine.Memory

/-! The registers of a task: the frame an interrupt leaves on the kernel stack
(`src/interrupts/interrupts.asm`), the copy `save_state` makes of it, and the byte
offsets by which `restore_task` (`src/task/task.asm`) reads that copy. -/
namespace Zhios
open Machine

/-- The user-visible state of the processor. -/
structure Cpu where
  edi : UInt32
  esi : UInt32
  ebp : UInt32
  ebx : UInt32
  edx : UInt32
  ecx : UInt32
  eax : UInt32
  eip : UInt32
  cs : UInt32
  eflags : UInt32
  esp : UInt32
  ss : UInt32
  deriving DecidableEq, Repr

structure InterruptFrame where
  edi : UInt32
  esi : UInt32
  ebp : UInt32
  reserved : UInt32
  ebx : UInt32
  edx : UInt32
  ecx : UInt32
  eax : UInt32
  ip : UInt32
  cs : UInt32
  flags : UInt32
  esp : UInt32
  ss : UInt32
  deriving DecidableEq, Repr

/-- The fields in the order of `struct Registers`. -/
structure Registers where
  edi : UInt32
  esi : UInt32
  ebp : UInt32
  ebx : UInt32
  edx : UInt32
  ecx : UInt32
  eax : UInt32
  ip : UInt32
  cs : UInt32
  flags : UInt32
  esp : UInt32
  ss : UInt32
  deriving DecidableEq, Repr

def userDataSegment : UInt32 := 0x23
def userCodeSegment : UInt32 := 0x1B

/-- `tss.esp0`, where the processor starts the stack of an interrupt. -/
def kernelStack : ℕ := 0x600000

/-- What the processor pushes on an interrupt from user mode. Some exceptions add an
error code, for which the frame has no field. -/
def Cpu.interruptWords (cpu : Cpu) (errorCode : Option UInt32) : List UInt32 :=
  [cpu.ss, cpu.esp, cpu.eflags, cpu.cs, cpu.eip] ++ errorCode.toList

/-- What `pushad` pushes when the stack pointer is `esp`. -/
def Cpu.pushadWords (cpu : Cpu) (esp : UInt32) : List UInt32 :=
  [cpu.eax, cpu.ecx, cpu.edx, cpu.ebx, esp, cpu.ebp, cpu.esi, cpu.edi]

/-- The memory after the entry code of `isr80h` and of the `interrupt` macro up to
`push esp`, and the pointer that is pushed. -/
def interruptEntry (m : Mem) (cpu : Cpu) (errorCode : Option UInt32) : Mem × ℕ :=
  let esp := kernelStack - 4 * (cpu.interruptWords errorCode).length
  let m := pushWords m kernelStack (cpu.interruptWords errorCode)
  let words := cpu.pushadWords (UInt32.ofNat esp)
  (pushWords m esp words, esp - 4 * words.length)

/-- The frame at `a`, by the offsets of its fields. -/
def InterruptFrame.load (m : Mem) (a : ℕ) : InterruptFrame :=
  let word (offset : ℕ) := UInt32.ofNat (load32 m (a + offset))
  { edi := word 0
    esi := word 4
    ebp := word 8
    reserved := word 12
    ebx := word 16
    edx := word 20
    ecx := word 24
    eax := word 28
    ip := word 32
    cs := word 36
    flags := word 40
    esp := word 44
    ss := word 48 }

def saveState (frame : InterruptFrame) : Registers :=
  { edi := frame.edi
    esi := frame.esi
    ebx := frame.ebx
    edx := frame.edx
    ecx := frame.ecx
    eax := frame.eax
    ebp := frame.ebp
    esp := frame.esp
    cs := frame.cs
    ip := frame.ip
    ss := frame.ss
    flags := frame.flags }

/-- The packed record as it lies in memory. -/
def Registers.words (r : Registers) : List UInt32 :=
  [r.edi, r.esi, r.ebp, r.ebx, r.edx, r.ecx, r.eax, r.ip, r.cs, r.flags, r.esp, r.ss]

/-- `[ebx + offset]` with the record at `ebx`. -/
def Registers.word (r : Registers) (offset : ℕ) : UInt32 := r.words.getD (offset / 4) 0

/-- `restore_task` up to its `iretd`, which takes the five words pushed last. -/
def restoreTask (r : Registers) : Cpu :=
  let eflags := r.word 36 ||| 0x200
  { ebp := r.word 8
    ss := r.word 44
    esp := r.word 40
    eflags := eflags
    cs := r.word 32
    eip := r.word 28
    edi := r.word 0
    esi := r.word 4
    edx := r.word 16
    ecx := r.word 20
    eax := r.word 24
    ebx := r.word 12 }

/-- The registers a new task starts with: `init_task`, with the entry point of the
program and the stack pointer that its arguments leave. -/
def initRegisters (ip esp : UInt32) : Registers :=
  { edi := 0
    esi := 0
    ebp := esp
    ebx := 0
    edx := 0
    ecx := 0
    eax := 0
    ip := ip
    cs := userCodeSegment
    flags := 0
    esp := esp
    ss := userDataSegment }

/-- The frame that is found on the kernel stack. -/
def Cpu.frame (cpu : Cpu) : InterruptFrame :=
  { edi := cpu.edi
    esi := cpu.esi
    ebp := cpu.ebp
    reserved := UInt32.ofNat (kernelStack - 20)
    ebx := cpu.ebx
    edx := cpu.edx
    ecx := cpu.ecx
    eax := cpu.eax
    ip := cpu.eip
    cs := cpu.cs
    flags := cpu.eflags
    esp := cpu.esp
    ss := cpu.ss }

/-- The pushes of the processor and of `pushad` in one list, without an error code. -/
def Cpu.entryWords (cpu : Cpu) : List UInt32 :=
  cpu.interruptWords none ++ cpu.pushadWords (UInt32.ofNat (kernelStack - 20))

theorem interruptEntry_eq (m : Mem) (cpu : Cpu) :
    interruptEntry m cpu none = (pushWords m kernelStack cpu.entryWords, kernelStack - 52) := by
  rw [Cpu.entryWords, pushWords_append]
  rfl

theorem word_interruptEntry (m : Mem) (cpu : Cpu) {i : ℕ} (hi : i < 13) :
    UInt32.ofNat (load32 (interruptEntry m cpu none).1 ((interruptEntry m cpu none).2 + (48 - 4 * i))) =
      cpu.entryWords.getD i 0 := by
  have hlen : cpu.entryWords.length = 13 := rfl
  have hword := load32_pushWords m kernelStack cpu.entryWords (by rw [hlen]; decide) (hi.trans_eq hlen.symm)
  have haddr : kernelStack - 52 + (48 - 4 * i) = kernelStack - 4 * (i + 1) := by
    unfold kernelStack
    omega
  rw [interruptEntry_eq, haddr, hword, UInt32.ofNat_toNat, List.getD_eq_getElem _ _ (hi.trans_eq hlen.symm)]

theorem interruptFrame_load (m : Mem) (cpu : Cpu) :
    InterruptFrame.load (interruptEntry m cpu none).1 (interruptEntry m cpu none).2 = cpu.frame := by
  have hfield := fun i hi => word_interruptEntry m cpu (i := i) hi
  simp only [InterruptFrame.load, Cpu.frame, InterruptFrame.mk.injEq]
  exact ⟨hfield 12 (by decide), hfield 11 (by decide), hfield 10 (by decide), hfield 9 (by decide),
    hfield 8 (by decide), hfield 7 (by decide), hfield 6 (by decide), hfield 5 (by decide),
    hfield 4 (by decide), hfield 3 (by decide), hfield 2 (by decide), hfield 1 (by decide),
    hfield 0 (by decide)⟩

/-- The three layouts agree: a task is resumed with the registers it was
interrupted with, and with interrupts enabled. -/
theorem restoreTask_saveState (cpu : Cpu) :
    restoreTask (saveState cpu.frame) = { cpu with eflags := cpu.eflags ||| 0x200 } := rfl

end Zhios
