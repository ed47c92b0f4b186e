import Zhios.Interrupts.Entry
import Zhios.Machine.Word

/-! System calls, through the gate of the processor and the dispatcher of the kernel and back:
`isr80h` of `src/interrupts/interrupts.asm`, `isr80h_handler` of `src/interrupts/interrupts.c`,
`src/isr80h/isr80h.c`. Memory is what the page directory of the running task shows. -/
namespace Zhios
open Machine X86

def zhiosMaxIsr80hCommands : ℕ := 1024

namespace Isr80h
variable {σ : Type*}

/-- A command finds memory and the items of the user's stack. One that resumes another task
does not come back. -/
abbrev Command (σ : Type*) := Mem → (ℕ → UInt32) → σ → Option (UInt32 × σ)

abbrev Commands (σ : Type*) := ℤ → Option (Command σ)

def handleCommand (isr80hCommands : Commands σ) (command : ℤ) : Command σ := fun m items w =>
  if command < 0 ∨ zhiosMaxIsr80hCommands ≤ command then some (0, w)
  else match isr80hCommands command with
    | none => some (0, w)
    | some handler => handler m items w

/-- The commands of the kernel, apart from `sum`. -/
structure SystemHandlers (σ : Type*) where
  terminalOutput : Command σ
  putchar : Command σ
  getKeyFromKeyboard : Command σ
  isr80hMallocCommand : Command σ
  isr80hFreeCommand : Command σ
  isr80hLoadProcessCommand : Command σ
  isr80hExitProcessCommand : Command σ

def sum : Command σ := fun _ items w => some (items 0 + items 1, w)

/-- What a call of each number is to do. -/
def SystemHandlers.command (h : SystemHandlers σ) (n : ℤ) : Command σ :=
  if n = 0 then sum
  else if n = 1 then h.terminalOutput
  else if n = 2 then h.putchar
  else if n = 3 then h.getKeyFromKeyboard
  else if n = 4 then h.isr80hMallocCommand
  else if n = 5 then h.isr80hFreeCommand
  else if n = 6 then h.isr80hLoadProcessCommand
  else if n = 7 then h.isr80hExitProcessCommand
  else fun _ _ w => some (0, w)

/-- `task_get_stack_item` -/
def stackItem (m : Mem) (esp : UInt32) (index : ℕ) : UInt32 :=
  UInt32.ofNat (load32 m (esp + 4 * UInt32.ofNat index).toNat)

/-- `isr80h_handler(command, frame)`, with its arguments on top of the stack: the registers
are saved, and the command is looked up. -/
def handler (st : KernelStatics) (isr80hCommands : Commands σ) (c : Compiled σ) : X86 σ → Option (X86 σ) :=
  betweenPages st.registers fun s =>
    let esp := (s.reg .esp).toNat
    let command := int32 (load32 s.mem esp)
    let registers := saveState (InterruptFrame.load s.mem (load32 s.mem (esp + 4)))
    (handleCommand isr80hCommands command s.mem (stackItem s.mem registers.esp) s.world).map fun r =>
      { s with
        reg := Function.update (Function.update (Function.update s.reg .ecx (c.ecx s)) .edx (c.edx s)) .eax r.1
        eflags := c.eflags s
        mem := c.mem s
        world := r.2 }

def code (st : KernelStatics) (isr80hCommands : Commands σ) (c : Compiled σ) : List (Instr σ) :=
  [.pushad, .push .esp, .push .eax, .call (handler st isr80hCommands c), .store st.retValue .eax, .addImm .esp 8,
    .popad, .load .eax st.retValue, .iretd]

/-- What the user code in `s` asks the dispatcher for. -/
def served (isr80hCommands : Commands σ) (s : X86 σ) : σ → Option (UInt32 × σ) :=
  let m := entryMem s (s.reg .eax)
  handleCommand isr80hCommands (int32 (s.reg .eax).toNat) m (stackItem m (s.reg .esp))

section Gate
variable {st : KernelStatics} (alu : UInt32 → UInt32 → UInt32 → UInt32) (commands : Commands σ) {c : Compiled σ}
  {s : X86 σ}

/-- What the handler finds and what it leaves, when the entry code has called it. -/
theorem handler_eq {h k : X86 σ} {address : ℕ → UInt32} (hk : k = { h with sreg := fun _ => kernelDataSelector })
    (hesp : h.reg .esp = UInt32.ofNat (kernelStack - 60)) (hmem : h.mem = entryMem s (s.reg .eax))
    (hlevel : h.level = 0) (htabled : st.Tabled h.mem address) (hafter : st.Tabled (c.mem k) address) :
    handler st commands c h =
      (served commands s h.world).map
        fun r => { h with
          reg := Function.update (Function.update (Function.update h.reg .ecx (c.ecx k)) .edx (c.edx k)) .eax r.1
          eflags := c.eflags k
          sreg := fun _ => userDataSegment
          mem := c.mem k
          world := r.2 } := by
  have hat : (UInt32.ofNat (kernelStack - 60)).toNat = kernelStack - 60 := toNat_ofNat (by decide)
  have hnext : kernelStack - 60 + 4 = kernelStack - 56 := by decide
  rw [handler, htabled.betweenPages_eq hlevel, ← hk]
  · simp only [hk, hesp, hmem, hat, hnext, arguments_entryMem.1, arguments_entryMem.2, frame_entryMem, Option.map_map]
    rfl
  · rw [← hk]
    intro t ht
    obtain ⟨r, -, rfl⟩ := Option.map_eq_some_iff.mp ht
    exact ⟨hafter, by rw [hk]; exact hlevel⟩

/-- The way back to user code: the frame's registers, but the result in `eax`. -/
theorem run_restore {t : X86 σ} (hesp : t.reg .esp = UInt32.ofNat (kernelStack - 52)) (hlevel : t.level = 0)
    (hframe : InterruptFrame.load t.mem (kernelStack - 52) = (cpuOf s).frame) (huser : s.level = 3) :
    run alu (fun _ _ => none) [.popad, .load .eax st.retValue, .iretd] t = some { s with
      reg := Function.update s.reg .eax (UInt32.ofNat (load32 t.mem st.retValue))
      sreg := t.sreg
      mem := t.mem
      world := t.world } := by
  rw [run, exec_popad_frame alu _ hframe hesp, Option.bind_some, run, exec, Option.bind_some, run,
    exec_iretd_frame alu (cpuOf s).frame ?_ ?_ ?_ huser, Option.bind_some, run]
  · congr 2
    funext r
    cases r <;> rfl
  · exact hframe
  · rfl
  · exact hlevel

theorem run_exit {t : X86 σ} (hesp : t.reg .esp = UInt32.ofNat (kernelStack - 60)) (hlevel : t.level = 0)
    (hframe : InterruptFrame.load t.mem (kernelStack - 52) = (cpuOf s).frame) (huser : s.level = 3) :
    run alu (fun _ _ => none) [.store st.retValue .eax, .addImm .esp 8, .popad, .load .eax st.retValue, .iretd] t =
      some { s with
        reg := Function.update s.reg .eax (t.reg .eax)
        sreg := t.sreg
        mem := store32 t.mem st.retValue (t.reg .eax).toNat
        world := t.world } := by
  have hret : st.retValue + 4 ≤ 0x200000 := st.below.2.2.2
  have hframe' : InterruptFrame.load (store32 t.mem st.retValue (t.reg .eax).toNat) (kernelStack - 52) =
      (cpuOf s).frame := by
    rw [← hframe]
    apply interruptFrame_congr
    intro x hlo hhi
    exact store32_outside _ _ (by unfold kernelStack at hlo; omega)
  have hadd : UInt32.ofNat (kernelStack - 60) + 8 = UInt32.ofNat (kernelStack - 52) := by decide
  rw [run, exec, Option.bind_some, run, exec, Option.bind_some, run_restore alu ?_ ?_ ?_ ?_]
  · congr 2
    funext r
    cases r
    all_goals try rfl
    exact (congrArg UInt32.ofNat (load32_store32_same _ _ (UInt32.toNat_lt _))).trans UInt32.ofNat_toNat
  · rw [← hadd, ← hesp]
    exact Function.update_self Reg.esp _ t.reg
  · exact hlevel
  · exact hframe'
  · exact huser

/-- The rest, from the call of the handler to the next instruction of the user code. -/
theorem run_handled {h : X86 σ} {u : ℕ} {address : ℕ → UInt32} (htabled : st.Tabled s.mem address)
    (hkeeps : c.Keeps st) (hesp : h.reg .esp = UInt32.ofNat (kernelStack - 60)) (hlevel : h.level = 0)
    (hmem : h.mem = entryMem s (s.reg .eax)) (huser : s.level = 3) (hstack : s.reg .esp = UInt32.ofNat u) :
    ∃ after : Mem, (∀ x, st.Static x ∨ (u ≤ x ∧ x < u + 12) → after x = entryMem s (s.reg .eax) x) ∧
      run alu (fun _ _ => none) [.call (handler st commands c), .store st.retValue .eax, .addImm .esp 8, .popad,
        .load .eax st.retValue, .iretd] h =
        (served commands s h.world).map fun r => { s with
            reg := Function.update s.reg .eax r.1
            sreg := fun _ => userDataSegment
            mem := store32 after st.retValue r.1.toNat
            world := r.2 } := by
  set k : X86 σ := { h with eip := h.eip + 5, sreg := fun _ => kernelDataSelector } with hk
  have hsame : ∀ x, st.Static x ∨ (kernelStack - 52 ≤ x ∧ x < kernelStack) ∨ (u ≤ x ∧ x < u + 12) →
      c.mem k x = entryMem s (s.reg .eax) x := fun x hx =>
    (hkeeps k u (by rw [hk, hmem, frame_entryMem]; exact hstack) x hx).trans (congrFun hmem x)
  have hframe : InterruptFrame.load (c.mem k) (kernelStack - 52) = (cpuOf s).frame := by
    rw [← frame_entryMem]
    exact interruptFrame_congr fun x hlo hhi => hsame x (Or.inr (Or.inl ⟨hlo, by unfold kernelStack at hhi ⊢; omega⟩))
  have htabled' : st.Tabled (entryMem s (s.reg .eax)) address := htabled.entryMem
  refine ⟨c.mem k, fun x hx => hsame x (hx.imp_right Or.inr), ?_⟩
  have hcall : exec alu (fun _ _ => none) (.call (handler st commands c)) h =
      handler st commands c { h with eip := h.eip + 5 } := rfl
  rw [run, hcall, handler_eq commands (s := s) (h := { h with eip := h.eip + 5 }) hk hesp hmem hlevel
    (hmem ▸ htabled') (htabled'.congr fun x hx => hsame x (Or.inl hx))]
  cases served commands s h.world with
  | none => rfl
  | some r =>
    rw [Option.map_some, Option.bind_some, run_exit alu ?_ ?_ ?_ huser]
    · rfl
    · exact hesp
    · exact hlevel
    · exact hframe

/-- A system call as the user code sees it: one instruction, which puts the result in `eax`. -/
theorem trapTo_eq {handler : ℕ → UInt32} {u : ℕ} (htabled : st.Tabled s.mem handler) (huser : s.level = 3)
    (hkeeps : c.Keeps st) (hstack : s.reg .esp = UInt32.ofNat u) :
    ∃ after : Mem, (∀ x, st.Static x ∨ (u ≤ x ∧ x < u + 12) → after x = entryMem s (s.reg .eax) x) ∧
      trapTo ⟨st.gdtTable, 47, st.interruptEntries, 4095, st.tss⟩ alu (handler 0x80) (code st commands c) 0x80 s =
        (served commands s s.world).map fun r => { s with
            reg := Function.update s.reg .eax r.1
            sreg := fun _ => userDataSegment
            mem := store32 after st.retValue r.1.toNat
            world := r.2 } := by
  obtain ⟨k, h, hk, heip, hentry, hesp, hlevel, hmem, hworld⟩ := interrupt_run_entry alu (.push .eax) htabled huser
    (show 0x80 < totalInterrupts by decide)
    fun t ht => congrArg (fun w => some (X86.push { t with eip := t.eip + 1 } w)) ht
  obtain ⟨after, hafter, hrun⟩ := run_handled alu commands htabled hkeeps hesp hlevel hmem huser hstack
  have hcode : code st commands c = [.pushad, .push .esp, .push .eax] ++ [.call (Isr80h.handler st commands c),
    .store st.retValue .eax, .addImm .esp 8, .popad, .load .eax st.retValue, .iretd] := rfl
  refine ⟨after, hafter, ?_⟩
  rw [trapTo, hk, Option.bind_some, if_pos heip, hcode, run_append, hentry, Option.bind_some, hrun, hworld]

end Gate

end Isr80h

end Zhios
