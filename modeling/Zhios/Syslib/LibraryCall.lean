import Zhios.Interrupts.SystemCall

/-! The functions of the user library that make the system calls: `syslib/src/stdio/stdio.asm`,
`syslib/src/stdlib/stdlib.asm`, `syslib/src/proc/proc.asm`. -/
namespace Zhios
open Machine X86 Isr80h

inductive LibraryCall
  | print
  | systemGetchar
  | systemPutchar
  | systemMalloc
  | systemFree
  | systemStartProcess
  | systemExitProcess
  deriving DecidableEq, Repr

namespace LibraryCall
variable {σ : Type*}

def enter : LibraryCall → List (Instr σ)
  | .print => [.push .ebp, .mov .ebp .esp, .pushMem .esp 8, .movImm .eax 1]
  | .systemGetchar => [.push .ebp, .movImm .eax 3]
  | .systemPutchar => [.push .ebp, .mov .ebp .esp, .pushMem .ebp 8, .movImm .eax 2]
  | .systemMalloc => [.push .ebp, .mov .ebp .esp, .pushMem .ebp 8, .movImm .eax 4]
  | .systemFree => [.push .ebp, .mov .ebp .esp, .pushMem .ebp 8, .movImm .eax 5]
  | .systemStartProcess => [.push .ebp, .mov .ebp .esp, .movImm .eax 6, .pushMem .ebp 8]
  | .systemExitProcess => [.push .ebp, .mov .ebp .esp, .movImm .eax 7]

def takesArgument : LibraryCall → Bool
  | .systemGetchar | .systemExitProcess => false
  | _ => true

def leave (call : LibraryCall) : List (Instr σ) :=
  if call.takesArgument then [.addImm .esp 4, .pop .ebp, .ret] else [.pop .ebp, .ret]

def code (call : LibraryCall) : List (Instr σ) := call.enter ++ [.int 0x80] ++ call.leave

def command : LibraryCall → ℕ
  | .print => 1
  | .systemPutchar => 2
  | .systemGetchar => 3
  | .systemMalloc => 4
  | .systemFree => 5
  | .systemStartProcess => 6
  | .systemExitProcess => 7

/-- The words that a function pushes: the caller's frame, and its argument again. -/
def words (call : LibraryCall) (s : X86 σ) (E : ℕ) : List UInt32 :=
  s.reg .ebp :: if call.takesArgument then [s.word (E + 4)] else []

end LibraryCall

/-- The caller's stack, with the return address on top, has room for a call, and is apart from
the kernel's data and the words an entry pushes. -/
def UserStack (E : ℕ) : Prop :=
  0x200008 ≤ E ∧ (E + 8 ≤ kernelStack - 60 ∨ kernelStack + 8 ≤ E) ∧ E + 8 < 2 ^ 32

section Call
variable {σ : Type*} (alu : UInt32 → UInt32 → UInt32 → UInt32) (trap : ℕ → X86 σ → Option (X86 σ)) {s : X86 σ} {E : ℕ}

variable {st : KernelStatics} (commands : Commands σ) {c : Compiled σ}

end Call

/-- A call, with the processor at its start and behind it. -/
structure CallEvent (σ : Type*) where
  call : LibraryCall
  before : X86 σ
  after : X86 σ

/-- User code up to its next call of the library, if there is one. -/
abbrev UserProgram (σ : Type*) := X86 σ → Option (X86 σ × LibraryCall)

section Run
variable {σ : Type*}

/-- User code keeps to its own ring, data segments and memory, and calls the library on a stack of
its own. -/
def UserProgram.Keeps (program : UserProgram σ) (st : KernelStatics) : Prop :=
  ∀ s t call, program s = some (t, call) → s.level = 3 → t.level = 3 ∧ t.sreg = s.sreg ∧
    t.world = s.world ∧ (∀ x, st.Static x → t.mem x = s.mem x) ∧ ∃ E, t.reg .esp = UInt32.ofNat E ∧ UserStack E

/-- The kernel has served a call: with its argument, on memory as the caller has left it, and
with the result for the caller, which goes on behind the call with its registers. -/
def CallEvent.Served (e : CallEvent σ) (h : SystemHandlers σ) : Prop :=
  ∃ (E : ℕ) (view : Mem) (items : ℕ → UInt32), e.before.reg .esp = UInt32.ofNat E ∧
    (∀ x, (x < E - 8 ∨ E ≤ x) → (x < kernelStack - 60 ∨ kernelStack ≤ x) → view x = e.before.mem x) ∧
    (e.call.takesArgument → items 0 = e.before.word (E + 4)) ∧
    h.command e.call.command view items e.before.world = some (e.after.reg .eax, e.after.world) ∧
    e.after.eip = e.before.word E ∧ e.after.reg .esp = UInt32.ofNat (E + 4) ∧ e.after.sreg = e.before.sreg ∧
    ∀ r, r ≠ .eax → r ≠ .esp → e.after.reg r = e.before.reg r

variable {st : KernelStatics} (alu : UInt32 → UInt32 → UInt32 → UInt32) {h : SystemHandlers σ} {commands : Commands σ}
  {c : Compiled σ} {program : UserProgram σ} {handler : ℕ → UInt32}

end Run

end Zhios
