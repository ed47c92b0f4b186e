import Zhios.Interrupts.Entry
import Zhios.Machine.Run

/-! Interrupts between the instructions of user code: the `interrupt` macro of
`src/interrupts/interrupts.asm`, `isr_handler` of `src/interrupts/interrupts.c`. -/
namespace Zhios
open Machine X86

namespace Isr
variable {σ : Type*}

/-- A service routine, and `task_save_current_state` before it, find the frame. A routine that
resumes another task does not come back. -/
abbrev Routine (σ : Type*) := InterruptFrame → σ → Option σ

/-- What an interrupt does to the kernel, up to the `outb` at its end. -/
def served (serviceRoutines : ℕ → Option (Routine σ)) (outb : σ → σ) (interrupt : ℕ) : Routine σ := fun frame w =>
  (match serviceRoutines interrupt with
    | none => some w
    | some routine => routine frame w).map outb

/-- `isr_handler(interrupt, frame)`, with its arguments on top of the stack. It leaves anything
in `eax`. -/
def handler (st : KernelStatics) (serviceRoutines : ℕ → Option (Routine σ)) (outb : σ → σ) (c : Compiled σ)
    (eax : X86 σ → UInt32) : X86 σ → Option (X86 σ) :=
  betweenPages st.registers fun s =>
    let esp := (s.reg .esp).toNat
    let interrupt := load32 s.mem esp
    let frame := InterruptFrame.load s.mem (load32 s.mem (esp + 4))
    (served serviceRoutines outb interrupt frame s.world).map fun w =>
      { s with
        reg := Function.update (Function.update (Function.update s.reg .ecx (c.ecx s)) .edx (c.edx s)) .eax (eax s)
        eflags := c.eflags s
        mem := c.mem s
        world := w }

def code (st : KernelStatics) (serviceRoutines : ℕ → Option (Routine σ)) (outb : σ → σ) (c : Compiled σ)
    (eax : X86 σ → UInt32) (interrupt : ℕ) : List (Instr σ) :=
  [.pushad, .push .esp, .pushImm (UInt32.ofNat interrupt), .call (handler st serviceRoutines outb c eax),
    .addImm .esp 8, .popad, .iretd]

/-- The compiled code leaves the kernel's tables, the frame and the user's memory alone. -/
def Leaves (c : Compiled σ) (st : KernelStatics) (memory : Set ℕ) : Prop :=
  ∀ (s : X86 σ) x, st.Static x ∨ (kernelStack - 52 ≤ x ∧ x < kernelStack) ∨ x ∈ memory → c.mem s x = s.mem x

section Gate
variable {st : KernelStatics} (alu : UInt32 → UInt32 → UInt32 → UInt32)
  (serviceRoutines : ℕ → Option (Routine σ)) (outb : σ → σ) {c : Compiled σ} (eax : X86 σ → UInt32) {s : X86 σ}
  {interrupt : ℕ} {memory : Set ℕ}

theorem handler_eq {h k : X86 σ} {address : ℕ → UInt32} (hk : k = { h with sreg := fun _ => kernelDataSelector })
    (hesp : h.reg .esp = UInt32.ofNat (kernelStack - 60)) (hmem : h.mem = entryMem s (UInt32.ofNat interrupt))
    (hinterrupt : interrupt < totalInterrupts) (hlevel : h.level = 0) (htabled : st.Tabled h.mem address)
    (hafter : st.Tabled (c.mem k) address) :
    handler st serviceRoutines outb c eax h =
      (served serviceRoutines outb interrupt (cpuOf s).frame h.world).map fun w => { h with
        reg := Function.update (Function.update (Function.update h.reg .ecx (c.ecx k)) .edx (c.edx k)) .eax (eax k)
        eflags := c.eflags k
        sreg := fun _ => userDataSegment
        mem := c.mem k
        world := w } := by
  have hat : (UInt32.ofNat (kernelStack - 60)).toNat = kernelStack - 60 := toNat_ofNat (by decide)
  have hnext : kernelStack - 60 + 4 = kernelStack - 56 := by decide
  have hnumber : (UInt32.ofNat interrupt).toNat = interrupt := toNat_ofNat (hinterrupt.trans (by decide))
  rw [handler, htabled.betweenPages_eq hlevel, ← hk]
  · simp only [hk, hesp, hmem, hat, hnext, arguments_entryMem.1, arguments_entryMem.2, frame_entryMem, hnumber,
      Option.map_map]
    rfl
  · rw [← hk]
    intro t ht
    obtain ⟨w, -, rfl⟩ := Option.map_eq_some_iff.mp ht
    exact ⟨hafter, by rw [hk]; exact hlevel⟩

theorem run_exit {t : X86 σ} (hesp : t.reg .esp = UInt32.ofNat (kernelStack - 60)) (hlevel : t.level = 0)
    (hframe : InterruptFrame.load t.mem (kernelStack - 52) = (cpuOf s).frame) (huser : s.level = 3) :
    run alu (fun _ _ => none) [.addImm .esp 8, .popad, .iretd] t =
      some { s with sreg := t.sreg, mem := t.mem, world := t.world } := by
  have hadd : UInt32.ofNat (kernelStack - 60) + 8 = UInt32.ofNat (kernelStack - 52) := by decide
  rw [run, exec, Option.bind_some, run, exec_popad_frame alu (cpuOf s).frame ?_ ?_, Option.bind_some, run,
    exec_iretd_frame alu (cpuOf s).frame ?_ ?_ ?_ huser, Option.bind_some, run]
  · congr 2
    funext r
    cases r <;> rfl
  · exact hframe
  · rfl
  · exact hlevel
  · exact hframe
  · rw [← hadd, ← hesp]
    exact Function.update_self Reg.esp _ t.reg

/-- An interrupt as the user code sees it: nothing. -/
theorem trapTo_eq {address : ℕ → UInt32} (htabled : st.Tabled s.mem address) (huser : s.level = 3)
    (hleaves : Leaves c st memory) (hinterrupt : interrupt < totalInterrupts) :
    ∃ after : Mem, (∀ x, st.Static x ∨ x ∈ memory → after x = entryMem s (UInt32.ofNat interrupt) x) ∧
      trapTo ⟨st.gdtTable, 47, st.interruptEntries, 4095, st.tss⟩ alu (address interrupt)
          (code st serviceRoutines outb c eax interrupt) interrupt s =
        (served serviceRoutines outb interrupt (cpuOf s).frame s.world).map fun w => { s with
          sreg := fun _ => userDataSegment, mem := after, world := w } := by
  obtain ⟨k, h, hk, heip, hentry, hesp, hlevel, hmem, hworld⟩ := interrupt_run_entry alu
    (.pushImm (UInt32.ofNat interrupt)) htabled huser hinterrupt fun t _ => rfl
  set k' : X86 σ := { h with eip := h.eip + 5, sreg := fun _ => kernelDataSelector } with hk'
  have hsame : ∀ x, st.Static x ∨ (kernelStack - 52 ≤ x ∧ x < kernelStack) ∨ x ∈ memory →
      c.mem k' x = entryMem s (UInt32.ofNat interrupt) x := fun x hx =>
    (hleaves k' x hx).trans (congrFun hmem x)
  have hframe : InterruptFrame.load (c.mem k') (kernelStack - 52) = (cpuOf s).frame := by
    rw [← frame_entryMem]
    exact interruptFrame_congr fun x hlo hhi => hsame x (Or.inr (Or.inl ⟨hlo, by unfold kernelStack at hhi ⊢; omega⟩))
  have htabled' : st.Tabled (entryMem s (UInt32.ofNat interrupt)) address := htabled.entryMem
  have hcall : exec alu (fun _ _ => none) (.call (handler st serviceRoutines outb c eax)) h =
      handler st serviceRoutines outb c eax { h with eip := h.eip + 5 } := rfl
  have hcode : code st serviceRoutines outb c eax interrupt =
      [.pushad, .push .esp, .pushImm (UInt32.ofNat interrupt)] ++
        [.call (handler st serviceRoutines outb c eax), .addImm .esp 8, .popad, .iretd] := rfl
  refine ⟨c.mem k', fun x hx => hsame x (hx.imp_right Or.inr), ?_⟩
  rw [trapTo, hk, Option.bind_some, if_pos heip, hcode, run_append, hentry, Option.bind_some, run, hcall,
    handler_eq serviceRoutines outb eax (s := s) (h := { h with eip := h.eip + 5 }) hk' hesp hmem hinterrupt hlevel
      (hmem ▸ htabled') (htabled'.congr fun x hx => hsame x (Or.inl hx)), ← hworld]
  cases served serviceRoutines outb interrupt (cpuOf s).frame h.world with
  | none => rfl
  | some w =>
    rw [Option.map_some, Option.bind_some, run_exit alu ?_ ?_ ?_ huser]
    · rfl
    · exact hesp
    · exact hlevel
    · exact hframe

end Gate

/-- Two states that a program cannot tell apart by its registers and its memory. -/
structure Agree (memory : Set ℕ) (s t : X86 σ) : Prop where
  reg : s.reg = t.reg
  eip : s.eip = t.eip
  eflags : s.eflags = t.eflags
  cs : s.cs = t.cs
  ss : s.ss = t.ss
  sreg : s.sreg = t.sreg
  mem : ∀ x ∈ memory, s.mem x = t.mem x

/-- One instruction of user code: it neither sees nor changes more than its registers and its
memory, and keeps to the data segments that it was given. -/
structure UserStep (step : X86 σ → X86 σ) (st : KernelStatics) (memory : Set ℕ) : Prop where
  agree : ∀ s t, Agree memory s t → Agree memory (step s) (step t)
  sreg : ∀ s, (step s).sreg = s.sreg
  world : ∀ s, (step s).world = s.world
  level : ∀ s : X86 σ, s.level = 3 → (step s).level = 3
  static : ∀ s x, st.Static x → (step s).mem x = s.mem x

theorem Agree.cpuOf_eq {memory : Set ℕ} {s t : X86 σ} (h : Agree memory s t) : cpuOf s = cpuOf t := by
  simp only [cpuOf, h.reg, h.eip, h.eflags, h.cs, h.ss]

section Runs
variable {st : KernelStatics} {step : X86 σ → X86 σ} {memory : Set ℕ} {address : ℕ → UInt32}

/-- A state of the interrupted run, the same program without interrupts, and the kernel. -/
structure Beside (st : KernelStatics) (memory : Set ℕ) (address : ℕ → UInt32) (s u : X86 σ) (w : σ) : Prop where
  agree : Agree memory s u
  world : s.world = w
  level : s.level = 3
  sreg : s.sreg = fun _ => userDataSegment
  tabled : st.Tabled s.mem address

theorem Beside.next (hstep : UserStep step st memory) {s u : X86 σ} {w : σ} (h : Beside st memory address s u w) :
    Beside st memory address (step s) (step u) w :=
  ⟨hstep.agree s u h.agree, (hstep.world s).trans h.world, hstep.level s h.level, (hstep.sreg s).trans h.sreg,
    h.tabled.congr (hstep.static s)⟩

/-- What boot sets up makes interrupts invisible: wherever they come between the instructions
of a program, all that it computes in its registers and its memory is what it computes
without them, and the kernel serves each interrupt with the registers that the program has at
that point. The run stops early only in a service routine that does not come back. -/
theorem interrupts_transparent (alu : UInt32 → UInt32 → UInt32 → UInt32) (st : KernelStatics) (m₀ : Mem)
    (isrPointerTable : ℕ → UInt32) (int0h isr80h : UInt32) (serviceRoutines : ℕ → Option (Routine σ)) (outb : σ → σ)
    (c : Compiled σ) (eax : X86 σ → UInt32) (memory : Set ℕ) (hleaves : Leaves c st memory)
    (hmemory : ∀ x ∈ memory, x < kernelStack - 60 ∨ kernelStack ≤ x) (step : X86 σ → X86 σ)
    (hstep : UserStep step st memory) (s : X86 σ)
    (hmem : ∀ x, st.Static x → s.mem x = (st.initInterrupts (st.initGdt m₀) isrPointerTable int0h isr80h).1 x)
    (huser : s.level = 3) (hsegments : s.sreg = fun _ => userDataSegment) (order : List (Option ℕ))
    (hexternal : ∀ i, some i ∈ order → 0x20 ≤ i ∧ i < totalInterrupts ∧ i ≠ 0x80) :
    Option.Rel (fun t w => Agree memory t (step^[order.countP Option.isNone] s) ∧ t.world = w)
      (interleave step (fun i => trapTo (st.initInterrupts (st.initGdt m₀) isrPointerTable int0h isr80h).2 alu
        (isrPointerTable i) (code st serviceRoutines outb c eax i) i) order s)
      (serveBeside step (fun i u => served serviceRoutines outb i (cpuOf u).frame) order s s.world) := by
  obtain ⟨htabled, hregisters⟩ := KernelStatics.initInterrupts_tabled st m₀ isrPointerTable int0h isr80h
  have hstart : Beside st memory (KernelStatics.handlerAddress isrPointerTable int0h isr80h) s s s.world :=
    ⟨⟨rfl, rfl, rfl, rfl, rfl, rfl, fun _ _ => rfl⟩, rfl, huser, hsegments, htabled.congr hmem⟩
  rw [hregisters]
  refine optionRel_mono (fun _ _ h => ⟨h.agree, h.world⟩) (interleave_rel (fun _ _ _ h => h.next hstep) ?_ hstart)
  intro i hi t u w h
  obtain ⟨hlo, hhi, hcall⟩ := hexternal i hi
  have haddress : KernelStatics.handlerAddress isrPointerTable int0h isr80h i = isrPointerTable i := by
    rw [KernelStatics.handlerAddress, if_neg hcall, if_neg (by omega)]
  obtain ⟨after, hafter, htrap⟩ := trapTo_eq alu serviceRoutines outb eax h.tabled h.level hleaves hhi
  rw [haddress, h.world, h.agree.cpuOf_eq] at htrap
  rw [htrap]
  cases served serviceRoutines outb i (cpuOf u).frame w with
  | none => exact Option.Rel.none
  | some w' =>
    refine Option.Rel.some ⟨⟨h.agree.reg, h.agree.eip, h.agree.eflags, h.agree.cs, h.agree.ss,
      h.sreg.symm.trans h.agree.sreg, ?_⟩, rfl, h.level, rfl, ?_⟩
    · intro x hx
      rw [← h.agree.mem x hx, ← entryMem_outside (s := t) (hmemory x hx)]
      exact hafter x (Or.inr hx)
    · refine h.tabled.congr fun x hx => ?_
      have hlt := hx.lt
      rw [← entryMem_outside (s := t) (x := x) (Or.inl (by unfold kernelStack; omega))]
      exact hafter x (Or.inl hx)

end Runs

def nop (s : X86 Unit) : X86 Unit := { s with eip := s.eip + 1 }

def stackMemory : Set ℕ := {x | 0x3FB000 ≤ x ∧ x < 0x3FF000}

theorem nop_userStep : UserStep nop kernelStatics stackMemory :=
  ⟨fun _ _ h => ⟨h.reg, congrArg (· + 1) h.eip, h.eflags, h.cs, h.ss, h.sreg, h.mem⟩, fun _ => rfl, fun _ => rfl,
    fun _ h => h, fun _ _ _ => rfl⟩

theorem stackMemory_apart (x : ℕ) (hx : x ∈ stackMemory) : x < kernelStack - 60 ∨ kernelStack ≤ x := by
  have hhi : x < 0x3FF000 := hx.2
  unfold kernelStack
  omega

theorem interrupts_transparent_keyboard :
    ∃ t, interleave nop (fun i => trapTo bootTables.2 (fun flags _ _ => flags) 0x10
        (code kernelStatics (fun _ => some fun _ w => some w) id quietFunction (fun _ => 0) i) i)
        [none, some 0x21, none] (firstUser bootTables.1) = some t ∧ t.eip = 0x400002 := by
  have hrel := interrupts_transparent (fun flags _ _ => flags) kernelStatics (fun _ => 0) (fun _ => 0x10) 0x20 0x30
    (fun _ => some fun _ w => some w) id quietFunction (fun _ => 0) stackMemory (fun _ _ _ => rfl) stackMemory_apart nop
    nop_userStep (firstUser bootTables.1)
  have hexternal : ∀ i, some i ∈ [none, some 0x21, none] → 0x20 ≤ i ∧ i < totalInterrupts ∧ i ≠ 0x80 := by
    intro i hi
    have hkeyboard : i = 0x21 := by simpa using hi
    rw [hkeyboard]
    decide
  rw [← bootTables] at hrel
  specialize hrel (fun _ _ => congrFun (firstUser_mem _) _) (firstUser_level _) rfl [none, some 0x21, none] hexternal
  rw [show serveBeside nop _ [none, some 0x21, none] _ _ = some () from rfl] at hrel
  generalize interleave nop _ _ _ = result at hrel ⊢
  cases hrel with
  | some h => exact ⟨_, rfl, h.1.eip⟩

end Isr

end Zhios
