import Zhios.Interrupts.Tables

/-! What `isr80h` and the `interrupt` macro of `src/interrupts/interrupts.asm` have in common:
the frame on the kernel's stack with two arguments for a function in C, and the way back. -/
namespace Zhios
open Machine X86

/-- What the compiled code of a function does besides: the registers and flags that a call may
change, and memory. -/
structure Compiled (σ : Type*) where
  ecx : X86 σ → UInt32
  edx : X86 σ → UInt32
  eflags : X86 σ → UInt32
  mem : X86 σ → Mem

/-- What the kernel must leave alone for the way back: its tables, the frame, and three words
on the user's stack. -/
def Compiled.Keeps {σ : Type*} (c : Compiled σ) (st : KernelStatics) : Prop :=
  ∀ (s : X86 σ) (u : ℕ), (InterruptFrame.load s.mem (kernelStack - 52)).esp = UInt32.ofNat u →
    ∀ x, st.Static x ∨ (kernelStack - 52 ≤ x ∧ x < kernelStack) ∨ (u ≤ x ∧ x < u + 12) → c.mem s x = s.mem x

/-- What `kernel_registers` of `src/kernel.asm` and `user_registers` of `src/task/task.asm` do with a
selector. -/
def dataRegisters {σ : Type*} (T : TableRegisters) (selector : UInt32) (s : X86 σ) : Option (X86 σ) := do
  let s ← s.loadSegment T .ds selector
  let s ← s.loadSegment T .es selector
  let s ← s.loadSegment T .fs selector
  s.loadSegment T .gs selector

def kernelRegisters {σ : Type*} (T : TableRegisters) : X86 σ → Option (X86 σ) := dataRegisters T kernelDataSelector

def userRegisters {σ : Type*} (T : TableRegisters) : X86 σ → Option (X86 σ) := dataRegisters T userDataSegment

/-- The body of a function between `kernel_page` and `current_task_page`. Memory is always what the
page directory of the running task shows, which the second of them loads again. -/
def betweenPages {σ : Type*} (T : TableRegisters) (body : X86 σ → Option (X86 σ)) (s : X86 σ) : Option (X86 σ) := do
  let s ← kernelRegisters T s
  let s ← body s
  userRegisters T s

/-- An interrupt: the processor finds the handler, which runs until it is back. -/
def trapTo {σ : Type*} (T : TableRegisters) (alu : UInt32 → UInt32 → UInt32 → UInt32) (address : UInt32)
    (code : List (Instr σ)) (vector : ℕ) (s : X86 σ) : Option (X86 σ) :=
  (s.interrupt T vector).bind fun k => if k.eip = address then run alu (fun _ _ => none) code k else none

/-- Memory when the function is called, with the frame and `argument`. -/
def entryMem {σ : Type*} (s : X86 σ) (argument : UInt32) : Mem :=
  pushWords (interruptEntry s.mem (cpuOf s) none).1 (kernelStack - 52) [UInt32.ofNat (kernelStack - 52), argument]

/-- The registers that `popad` takes from the frame. -/
def InterruptFrame.reg (frame : InterruptFrame) : Reg → UInt32
  | .edi => frame.edi
  | .esi => frame.esi
  | .ebp => frame.ebp
  | .esp => UInt32.ofNat (kernelStack - 20)
  | .ebx => frame.ebx
  | .edx => frame.edx
  | .ecx => frame.ecx
  | .eax => frame.eax

theorem interruptFrame_congr {m m' : Mem} {a : ℕ} (h : ∀ x, a ≤ x → x < a + 52 → m' x = m x) :
    InterruptFrame.load m' a = InterruptFrame.load m a := by
  have hword : ∀ o, o ≤ 48 → load32 m' (a + o) = load32 m (a + o) := fun o ho =>
    load32_congr fun x hlo hhi => h x (by omega) (by omega)
  simp only [InterruptFrame.load, hword 0 (by decide), hword 4 (by decide), hword 8 (by decide), hword 12 (by decide),
    hword 16 (by decide), hword 20 (by decide), hword 24 (by decide), hword 28 (by decide), hword 32 (by decide),
    hword 36 (by decide), hword 40 (by decide), hword 44 (by decide), hword 48 (by decide)]

theorem dataRegisters_eq {σ : Type*} {T : TableRegisters} {selector : UInt32} {s : X86 σ}
    (h : LoadsData T s.mem s.level (selector.toNat % 2 ^ 16)) (hlow : selector &&& 0xFFFF = selector) :
    dataRegisters T selector s = some { s with sreg := fun _ => selector } := by
  have hload : ∀ (sreg : SegReg → UInt32) dst, ({ s with sreg := sreg } : X86 σ).loadSegment T dst selector =
      some { s with sreg := Function.update sreg dst selector } := fun sreg dst => by
    rw [loadSegment, hlow]
    exact if_pos h
  have hfirst : s.loadSegment T .ds selector = some { s with sreg := Function.update s.sreg .ds selector } :=
    hload s.sreg .ds
  simp only [dataRegisters, hfirst, hload, Option.bind_eq_bind, Option.bind_some]
  congr 2
  funext r
  cases r <;> rfl

/-- With the kernel's tables both segments are found. -/
theorem KernelStatics.Tabled.betweenPages_eq {σ : Type*} {st : KernelStatics} {body : X86 σ → Option (X86 σ)}
    {s : X86 σ} {handler : ℕ → UInt32} (h : st.Tabled s.mem handler) (hlevel : s.level = 0)
    (hbody : ∀ t ∈ body { s with sreg := fun _ => kernelDataSelector }, st.Tabled t.mem handler ∧ t.level = 0) :
    betweenPages st.registers body s = (body { s with sreg := fun _ => kernelDataSelector }).map
      fun t => { t with sreg := fun _ => userDataSegment } := by
  have hkernel : kernelRegisters st.registers s = some { s with sreg := fun _ => kernelDataSelector } :=
    dataRegisters_eq (hlevel ▸ h.loadsData_selectors.1) (by decide)
  rw [betweenPages, hkernel, Option.bind_eq_bind, Option.bind_some]
  cases hrun : body { s with sreg := fun _ => kernelDataSelector } with
  | none => rfl
  | some t =>
    obtain ⟨htabled, hinner⟩ := hbody t hrun
    exact dataRegisters_eq (hinner ▸ htabled.loadsData_selectors.2) (by decide)

section Entry
variable {σ : Type*} {st : KernelStatics} (alu : UInt32 → UInt32 → UInt32 → UInt32) {s : X86 σ} {argument : UInt32}

theorem arguments_room {frame argument : UInt32} : 4 * [frame, argument].length ≤ kernelStack - 52 :=
  (by decide : 4 * 2 ≤ kernelStack - 52)

theorem entryMem_outside {x : ℕ} (hx : x < kernelStack - 60 ∨ kernelStack ≤ x) : entryMem s argument x = s.mem x := by
  unfold kernelStack at hx
  rw [entryMem, pushWords_outside _ _ arguments_room (by simp only [List.length]; unfold kernelStack; omega)]
  exact interruptEntry_outside s.mem (cpuOf s) (by unfold kernelStack; omega)

theorem KernelStatics.Tabled.entryMem {handler : ℕ → UInt32} (h : st.Tabled s.mem handler) :
    st.Tabled (Zhios.entryMem s argument) handler :=
  h.congr fun x hx => entryMem_outside (Or.inl (hx.lt.trans (by decide)))

theorem frame_entryMem : InterruptFrame.load (entryMem s argument) (kernelStack - 52) = (cpuOf s).frame := by
  rw [← interruptFrame_load s.mem (cpuOf s), interruptEntry_eq]
  apply interruptFrame_congr
  intro x hlo hhi
  rw [entryMem, pushWords_outside _ _ arguments_room (Or.inr hlo), interruptEntry_eq]

theorem arguments_entryMem : load32 (entryMem s argument) (kernelStack - 60) = argument.toNat ∧
    load32 (entryMem s argument) (kernelStack - 56) = kernelStack - 52 := by
  have hword := fun i hi => load32_pushWords (interruptEntry s.mem (cpuOf s) none).1 (kernelStack - 52)
    [UInt32.ofNat (kernelStack - 52), argument] arguments_room (i := i) hi
  exact ⟨hword 1 Nat.one_lt_two, hword 0 Nat.zero_lt_two⟩

/-- The code up to the call pushes the frame, its address, and an argument. -/
theorem run_entry (last : Instr σ) (hesp : s.reg .esp = UInt32.ofNat (kernelStack - 20))
    (hlast : ∀ t : X86 σ, t.reg .eax = s.reg .eax →
      exec alu (fun _ _ => none) last t = some (({ t with eip := t.eip + X86.sizeOf last } : X86 σ).push argument)) :
    ∃ eip, run alu (fun _ _ => none) [.pushad, .push .esp, last] s = some { s.pushad with
      eip := eip
      reg := Function.update s.reg .esp (UInt32.ofNat (kernelStack - 60))
      mem := pushWords s.pushad.mem (kernelStack - 52) [UInt32.ofNat (kernelStack - 52), argument] } := by
  have hpushad := pushad_eq hesp (by decide) (by decide)
  have hframe : Function.update s.reg .esp (UInt32.ofNat (kernelStack - 52)) .esp = UInt32.ofNat (kernelStack - 52) :=
    Function.update_self ..
  have hargument : Function.update (Function.update s.reg .esp (UInt32.ofNat (kernelStack - 52))) .esp
      (UInt32.ofNat (kernelStack - 56)) .esp = UInt32.ofNat (kernelStack - 56) := Function.update_self ..
  rw [run, exec_pushad _ _ hesp (by decide) (by decide), Option.bind_some, hpushad, run,
    exec_push _ _ hframe (by decide) (by decide), Option.bind_some, run, hlast _ ?_, Option.bind_some, run,
    push_eq (n := kernelStack - 56) ?_ (by decide) (by decide)]
  · simp only [Function.update_idem, pushWords]
    exact ⟨_, rfl⟩
  · exact hargument
  · rfl

/-- The entry of an interrupt of user code, up to the call. -/
theorem interrupt_run_entry (last : Instr σ) {handler : ℕ → UInt32} (htabled : st.Tabled s.mem handler)
    (huser : s.level = 3) {vector : ℕ} (hvector : vector < totalInterrupts)
    (hlast : ∀ t : X86 σ, t.reg .eax = s.reg .eax →
      exec alu (fun _ _ => none) last t = some (({ t with eip := t.eip + X86.sizeOf last } : X86 σ).push argument)) :
    ∃ k h, s.interrupt ⟨st.gdtTable, 47, st.interruptEntries, 4095, st.tss⟩ vector = some k ∧ k.eip = handler vector ∧
      run alu (fun _ _ => none) [.pushad, .push .esp, last] k = some h ∧
      h.reg .esp = UInt32.ofNat (kernelStack - 60) ∧ h.level = 0 ∧ h.mem = entryMem s argument ∧ h.world = s.world := by
  obtain ⟨k, hk, heip, hcs, hreg, hmem, hworld⟩ : ∃ k,
      s.interrupt ⟨st.gdtTable, 47, st.interruptEntries, 4095, st.tss⟩ vector = some k ∧ k.eip = handler vector ∧
        k.cs = 0x08 ∧ k.reg = Function.update s.reg .esp (UInt32.ofNat (kernelStack - 20)) ∧
        k.mem = pushWords s.mem kernelStack [s.ss, s.reg .esp, s.eflags, s.cs, s.eip] ∧ k.world = s.world :=
    ⟨_, (htabled.enters hvector).interrupt_eq huser (by decide), UInt32.ofNat_toNat, rfl, rfl, rfl, rfl⟩
  have hesp : k.reg .esp = UInt32.ofNat (kernelStack - 20) := by
    rw [hreg]
    exact Function.update_self Reg.esp _ s.reg
  have heax : k.reg .eax = s.reg .eax := by
    rw [hreg]
    exact Function.update_of_ne (by decide) _ _
  have hpushad := pushad_eq hesp (by decide) (by decide)
  have hlevel : ring k.cs = 0 := by
    rw [hcs]
    decide
  obtain ⟨eip, hrun⟩ := run_entry alu last hesp fun t ht => hlast t (ht.trans heax)
  refine ⟨k, _, hk, heip, hrun, Function.update_self Reg.esp _ k.reg, ?_, ?_, ?_⟩
  · rw [hpushad]
    exact hlevel
  · rw [hpushad, hreg, hmem]
    rfl
  · rw [hpushad]
    exact hworld

variable (frame : InterruptFrame) (hframe : InterruptFrame.load s.mem (kernelStack - 52) = frame)
include hframe

theorem exec_popad_frame (hesp : s.reg .esp = UInt32.ofNat (kernelStack - 52)) :
    exec alu (fun _ _ => none) .popad s = some { s with eip := s.eip + 1, reg := frame.reg } := by
  subst hframe
  rw [exec_popad _ _ hesp (by decide), popad_eq hesp (by decide)]
  congr 2

theorem exec_iretd_frame (hesp : s.reg .esp = UInt32.ofNat (kernelStack - 20)) (hlevel : s.level = 0)
    (huser : ring frame.cs = 3) :
    exec alu (fun _ _ => none) .iretd s = some { s with
      reg := Function.update s.reg .esp frame.esp
      eip := frame.ip
      cs := frame.cs
      eflags := frame.flags
      ss := frame.ss } := by
  subst hframe
  have houter : s.level < ring (s.word (kernelStack - 20 + 4)) := by
    rw [hlevel]
    exact huser.symm ▸ Nat.zero_lt_succ 2
  rw [exec_iretd _ _ hesp (by decide) houter, iretd_eq hesp (by decide) houter]
  rfl

end Entry

/-- A compiled function that puts nothing in memory. -/
def quietFunction : Compiled Unit := ⟨fun _ => 0, fun _ => 0, fun _ => 0, fun s => s.mem⟩

end Zhios
