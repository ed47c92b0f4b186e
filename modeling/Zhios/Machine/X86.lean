import Zhios.Machine.Memory

/-! A 32-bit x86 processor: registers, straight-line code over a stack in memory, and
interrupts through descriptor tables. The world is the part of the state that no
instruction touches and called functions may change. -/
namespace Machine

inductive Reg
  | eax | ecx | edx | ebx | esp | ebp | esi | edi
  deriving DecidableEq, Repr

inductive SegReg
  | ds | es | fs | gs
  deriving DecidableEq, Repr

structure X86 (σ : Type*) where
  reg : Reg → UInt32
  eip : UInt32
  eflags : UInt32
  cs : UInt32
  ss : UInt32
  sreg : SegReg → UInt32
  mem : Mem
  world : σ

/-- A descriptor of a segment: the offset of its last byte is `limit`. -/
structure Segment where
  base : ℕ
  limit : ℕ
  access : ℕ
  deriving DecidableEq, Repr

/-- The parts of a descriptor are spread over its eight bytes; the limit counts pages if the
granularity bit is set. -/
def segmentAt (m : Mem) (a : ℕ) : Segment :=
  let flags := (m (a + 6)).toNat
  let limit := load16 m a + 2 ^ 16 * (flags % 16)
  { base := load16 m (a + 2) + 2 ^ 16 * (m (a + 4)).toNat + 2 ^ 24 * (m (a + 7)).toNat
    limit := if flags / 128 = 1 then 4096 * limit + 4095 else limit
    access := (m (a + 5)).toNat }

structure Gate where
  offset : ℕ
  selector : ℕ
  access : ℕ
  deriving DecidableEq, Repr

def gateAt (m : Mem) (a : ℕ) : Gate :=
  { offset := load16 m a + 2 ^ 16 * load16 m (a + 6)
    selector := load16 m (a + 2)
    access := (m (a + 5)).toNat }

theorem segmentAt_congr {m m' : Mem} {a : ℕ} (h : ∀ x, a ≤ x → x < a + 8 → m' x = m x) :
    segmentAt m' a = segmentAt m a := by
  simp only [segmentAt, load16, h a (by omega) (by omega), h (a + 1) (by omega) (by omega),
    h (a + 2) (by omega) (by omega), h (a + 2 + 1) (by omega) (by omega), h (a + 4) (by omega) (by omega),
    h (a + 5) (by omega) (by omega), h (a + 6) (by omega) (by omega), h (a + 7) (by omega) (by omega)]

theorem gateAt_congr {m m' : Mem} {a : ℕ} (h : ∀ x, a ≤ x → x < a + 8 → m' x = m x) : gateAt m' a = gateAt m a := by
  simp only [gateAt, load16, h a (by omega) (by omega), h (a + 1) (by omega) (by omega),
    h (a + 2) (by omega) (by omega), h (a + 2 + 1) (by omega) (by omega), h (a + 5) (by omega) (by omega),
    h (a + 6) (by omega) (by omega), h (a + 6 + 1) (by omega) (by omega)]

/-- The bits that segments and gates have in common. -/
def IsPresent (access : ℕ) : Prop := access / 128 = 1

def privilege (access : ℕ) : ℕ := access / 32 % 4

instance (access : ℕ) : Decidable (IsPresent access) := inferInstanceAs (Decidable (_ = _))

/-- The access byte of a code segment, of a data segment, and of a gate that turns interrupts
off. -/
def IsCode (access : ℕ) : Prop := access / 8 % 4 = 3

def IsData (access : ℕ) : Prop := access / 8 % 4 = 2

def IsInterruptGate (access : ℕ) : Prop := access % 32 = 0xE

instance (access : ℕ) : Decidable (IsCode access) := inferInstanceAs (Decidable (_ = _))
instance (access : ℕ) : Decidable (IsData access) := inferInstanceAs (Decidable (_ = _))
instance (access : ℕ) : Decidable (IsInterruptGate access) := inferInstanceAs (Decidable (_ = _))

/-- Write the records of a table, `fuel` of them from number `i` on. -/
def storeTable (table : ℕ) (record : ℕ → List UInt8) : (fuel i : ℕ) → Mem → Mem
  | 0, _, m => m
  | fuel + 1, i, m => storeTable table record fuel (i + 1) (storeBytes m (table + 8 * i) (record i))

section StoreTable
variable {table : ℕ} {record : ℕ → List UInt8} (hlength : ∀ i, (record i).length = 8)
include hlength

theorem storeTable_outside (fuel i : ℕ) (m : Mem) {x : ℕ} (hx : x < table + 8 * i ∨ table + 8 * (i + fuel) ≤ x) :
    storeTable table record fuel i m x = m x := by
  induction fuel generalizing i m with
  | zero => rfl
  | succ fuel ih =>
    rw [storeTable, ih (i + 1) _ (by omega), storeBytes_outside]
    rw [hlength]
    omega

theorem holds_storeTable (table fuel i : ℕ) (m : Mem) {j : ℕ} (hlo : i ≤ j) (hhi : j < i + fuel) :
    Holds (storeTable table record fuel i m) (table + 8 * j) (record j) := by
  induction fuel generalizing i m with
  | zero => omega
  | succ fuel ih =>
    rw [storeTable]
    rcases eq_or_ne j i with rfl | hne
    · apply (holds_storeBytes m _ (record j)).congr
      intro x hlo hhi
      rw [hlength] at hhi
      exact storeTable_outside hlength fuel (j + 1) _ (Or.inl (by omega))
    · exact ih (i + 1) _ (by omega) (by omega)

end StoreTable

/-- The registers of the processor that point to tables: `lgdt`, `lidt`, `ltr`. -/
structure TableRegisters where
  gdt : ℕ
  gdtLimit : ℕ
  idt : ℕ
  idtLimit : ℕ
  tss : ℕ
  deriving DecidableEq, Repr

/-- `ltr`: the segment of the task state is marked as busy. -/
def loadTask (m : Mem) (a : ℕ) : Mem × ℕ := (Function.update m (a + 5) (m (a + 5) ||| 2), (segmentAt m a).base)

/-- A data segment that code of a level may use, by its selector in the global table. -/
def LoadsData (T : TableRegisters) (m : Mem) (level selector : ℕ) : Prop :=
  let segment := segmentAt m (T.gdt + 8 * (selector / 8))
  selector / 4 % 2 = 0 ∧ 8 ≤ selector ∧ 8 * (selector / 8) + 7 ≤ T.gdtLimit ∧ IsPresent segment.access ∧
    IsData segment.access ∧ level ≤ privilege segment.access ∧ selector % 4 ≤ privilege segment.access

instance (T : TableRegisters) (m : Mem) (level selector : ℕ) : Decidable (LoadsData T m level selector) :=
  inferInstanceAs (Decidable (_ ∧ _ ∧ _ ∧ _ ∧ _ ∧ _ ∧ _))

/-- Straight-line code; a called function is what it does to the state, if it comes back. What
`orImm` makes of the flags is an argument. -/
inductive Instr (σ : Type*)
  | push (r : Reg)
  | pushImm (imm : UInt32)
  | pushMem (base : Reg) (disp : UInt32)
  | pushad
  | pop (r : Reg)
  | popad
  | mov (dst src : Reg)
  | movImm (dst : Reg) (imm : UInt32)
  | store (a : ℕ) (src : Reg)
  | load (dst : Reg) (a : ℕ)
  | loadMem (dst base : Reg) (disp : UInt32)
  | loadLow (dst base : Reg) (disp : UInt32)
  | loadSegment (T : TableRegisters) (dst : SegReg) (src : Reg)
  | addImm (dst : Reg) (imm : UInt32)
  | orImm (dst : Reg) (imm : UInt32) (flags : UInt32 → UInt32 → UInt32)
  | call (f : X86 σ → Option (X86 σ))
  | int (vector : ℕ)
  | ret
  | iretd

namespace X86
variable {σ : Type*}

/-- The length of an instruction in bytes, as the assembler encodes it. -/
def sizeOf : Instr σ → UInt32
  | .push _ => 1
  | .pushImm imm => if imm < 0x80 then 2 else 5
  | .pushMem base _ => if base = .esp then 4 else 3
  | .pushad => 1
  | .pop _ => 1
  | .popad => 1
  | .mov _ _ => 2
  | .movImm _ _ => 5
  | .store _ _ => 5
  | .load _ _ => 5
  | .loadMem _ base disp => (if disp = 0 ∧ base ≠ .ebp then 2 else 3) + if base = .esp then 1 else 0
  | .loadLow _ base disp => (if disp = 0 ∧ base ≠ .ebp then 3 else 4) + if base = .esp then 1 else 0
  | .loadSegment _ _ _ => 2
  | .addImm _ _ => 3
  | .orImm dst imm _ => if imm < 0x80 then 3 else if dst = .eax then 5 else 6
  | .call _ => 5
  | .int _ => 2
  | .ret => 1
  | .iretd => 1

def set (s : X86 σ) (r : Reg) (w : UInt32) : X86 σ := { s with reg := Function.update s.reg r w }

def push (s : X86 σ) (w : UInt32) : X86 σ :=
  let esp := s.reg .esp - 4
  { s with reg := Function.update s.reg .esp esp, mem := store32 s.mem esp.toNat w.toNat }

def top (s : X86 σ) : UInt32 := UInt32.ofNat (load32 s.mem (s.reg .esp).toNat)

def drop (s : X86 σ) : X86 σ := s.set .esp (s.reg .esp + 4)

/-- A pop into the stack pointer overwrites it after it has been moved on. -/
def pop (s : X86 σ) (r : Reg) : X86 σ := s.drop.set r s.top

def ring (selector : UInt32) : ℕ := selector.toNat % 4

def level (s : X86 σ) : ℕ := ring s.cs

/-- What an interrupt clears in the flags: traps, interrupts and nesting. -/
def interruptMask : UInt32 := 0xFFFCBCFF

/-- An interrupt that the program asks for: the gate must be there and let it through, and
its code must be at least as privileged. More privileged code has a stack of its own. -/
def interrupt (T : TableRegisters) (vector : ℕ) (s : X86 σ) : Option (X86 σ) :=
  let gate := gateAt s.mem (T.idt + 8 * vector)
  let code := segmentAt s.mem (T.gdt + 8 * (gate.selector / 8))
  if 8 * vector + 7 ≤ T.idtLimit ∧ IsPresent gate.access ∧ IsInterruptGate gate.access ∧
      s.level ≤ privilege gate.access ∧ 8 * (gate.selector / 8) + 7 ≤ T.gdtLimit ∧
      IsPresent code.access ∧ IsCode code.access ∧ privilege code.access ≤ s.level then
    let inner : X86 σ :=
      if privilege code.access < s.level then
        (({ s with
          reg := Function.update s.reg .esp (UInt32.ofNat (load32 s.mem (T.tss + 4)))
          ss := UInt32.ofNat (load16 s.mem (T.tss + 8)) } : X86 σ).push s.ss).push (s.reg .esp)
      else s
    let saved := ((inner.push s.eflags).push s.cs).push s.eip
    some { saved with
      eip := UInt32.ofNat gate.offset
      cs := UInt32.ofNat (gate.selector / 4 * 4 + privilege code.access)
      eflags := s.eflags &&& interruptMask }
  else none

/-- The processor stops at a segment that the code may not use. -/
def loadSegment (T : TableRegisters) (dst : SegReg) (selector : UInt32) (s : X86 σ) : Option (X86 σ) :=
  if LoadsData T s.mem s.level (selector.toNat % 2 ^ 16) then
    some { s with sreg := Function.update s.sreg dst (selector &&& 0xFFFF) }
  else none

/-- The way back, to less privileged code with its stack. A data segment that this code may not
use is left in its register; the processor would clear it. -/
def iretd (s : X86 σ) : X86 σ :=
  let resumed : X86 σ := { s.drop.drop.drop with eip := s.top, cs := s.drop.top, eflags := s.drop.drop.top }
  if s.level < ring s.drop.top then { resumed.set .esp resumed.top with ss := resumed.drop.top } else resumed

def pushAll (s : X86 σ) : List UInt32 → X86 σ
  | [] => s
  | w :: words => (s.push w).pushAll words

def pushad (s : X86 σ) : X86 σ :=
  s.pushAll ([Reg.eax, .ecx, .edx, .ebx, .esp, .ebp, .esi, .edi].map s.reg)

/-- The saved stack pointer is passed over. -/
def popad (s : X86 σ) : X86 σ :=
  (((((((s.pop .edi).pop .esi).pop .ebp).drop.pop .ebx).pop .edx).pop .ecx).pop .eax)

section Exec
variable (alu : UInt32 → UInt32 → UInt32 → UInt32) (trap : ℕ → X86 σ → Option (X86 σ))

/-- One instruction. `alu` is what an addition makes of the flags and its operands, and
`trap` what an interrupt does until it is back. -/
def exec (i : Instr σ) (s : X86 σ) : Option (X86 σ) :=
  let s := { s with eip := s.eip + sizeOf i }
  match i with
  | .push r => some (s.push (s.reg r))
  | .pushImm imm => some (s.push imm)
  | .pushMem base disp => some (s.push (UInt32.ofNat (load32 s.mem (s.reg base + disp).toNat)))
  | .pushad => some s.pushad
  | .pop r => some (s.pop r)
  | .popad => some s.popad
  | .mov dst src => some (s.set dst (s.reg src))
  | .movImm dst imm => some (s.set dst imm)
  | .store a src => some { s with mem := store32 s.mem a (s.reg src).toNat }
  | .load dst a => some (s.set dst (UInt32.ofNat (load32 s.mem a)))
  | .loadMem dst base disp => some (s.set dst (UInt32.ofNat (load32 s.mem (s.reg base + disp).toNat)))
  | .loadLow dst base disp =>
    some (s.set dst ((s.reg dst &&& 0xFFFF0000) ||| UInt32.ofNat (load16 s.mem (s.reg base + disp).toNat)))
  | .loadSegment T dst src => s.loadSegment T dst (s.reg src)
  | .addImm dst imm => some { s.set dst (s.reg dst + imm) with eflags := alu s.eflags (s.reg dst) imm }
  | .orImm dst imm flags => some { s.set dst (s.reg dst ||| imm) with eflags := flags s.eflags (s.reg dst ||| imm) }
  | .call f => f s
  | .int vector => trap vector s
  | .ret => some { s.drop with eip := s.top }
  | .iretd => some s.iretd

def run : List (Instr σ) → X86 σ → Option (X86 σ)
  | [], s => some s
  | i :: code, s => (exec alu trap i s).bind (run code)

end Exec

section Stack
variable {s : X86 σ} {n : ℕ}

theorem toNat_ofNat (h : n < 2 ^ 32) : (UInt32.ofNat n).toNat = n := UInt32.toNat_ofNat_of_lt' h

theorem ofNat_sub_four (h : 4 ≤ n) : UInt32.ofNat n - 4 = UInt32.ofNat (n - 4) := (UInt32.ofNat_sub h).symm

theorem push_eq (hesp : s.reg .esp = UInt32.ofNat n) (hn : 4 ≤ n) (hlt : n < 2 ^ 32) (w : UInt32) :
    s.push w = { s with
      reg := Function.update s.reg .esp (UInt32.ofNat (n - 4)), mem := store32 s.mem (n - 4) w.toNat } := by
  simp only [push, hesp, ofNat_sub_four hn, toNat_ofNat ((Nat.sub_le n 4).trans_lt hlt)]

theorem pushAll_eq (hesp : s.reg .esp = UInt32.ofNat n) (hlt : n < 2 ^ 32) (words : List UInt32)
    (hn : 4 * words.length ≤ n) :
    s.pushAll words = { s with
      reg := Function.update s.reg .esp (UInt32.ofNat (n - 4 * words.length)), mem := pushWords s.mem n words } := by
  induction words generalizing s n with
  | nil => simp [pushAll, pushWords, ← hesp]
  | cons w words ih =>
    rw [List.length_cons] at hn ⊢
    have hnext : (s.push w).reg .esp = UInt32.ofNat (n - 4) := by
      rw [push_eq hesp (by omega) hlt]
      exact Function.update_self Reg.esp _ s.reg
    rw [pushAll, ih hnext (by omega) (by omega), push_eq hesp (by omega) hlt, pushWords, Function.update_idem,
      Nat.sub_sub, Nat.add_comm 4, Nat.mul_succ]

theorem pushad_eq (hesp : s.reg .esp = UInt32.ofNat n) (hlt : n < 2 ^ 32) (hn : 32 ≤ n) :
    s.pushad = { s with
      reg := Function.update s.reg .esp (UInt32.ofNat (n - 32))
      mem := pushWords s.mem n ([Reg.eax, .ecx, .edx, .ebx, .esp, .ebp, .esi, .edi].map s.reg) } :=
  pushAll_eq hesp hlt _ hn

theorem toNat_reg_update {reg : Reg → UInt32} (hlt : n < 2 ^ 32) :
    (Function.update reg Reg.esp (UInt32.ofNat n) Reg.esp).toNat = n := by
  rw [Function.update_self, toNat_ofNat hlt]

theorem drop_eq (hesp : s.reg .esp = UInt32.ofNat n) :
    s.drop = { s with reg := Function.update s.reg .esp (UInt32.ofNat (n + 4)) } := by
  rw [drop, set, hesp, UInt32.ofNat_add]
  rfl

theorem ofNat_add_four : UInt32.ofNat n + 4 = UInt32.ofNat (n + 4) := (UInt32.ofNat_add n 4).symm

/-- The words from the top of the stack on. -/
def word (s : X86 σ) (n : ℕ) : UInt32 := UInt32.ofNat (load32 s.mem n)

/-- Where the registers are found that `pushad` has saved. -/
theorem popad_eq (hesp : s.reg .esp = UInt32.ofNat n) (hlt : n + 32 < 2 ^ 32) :
    s.popad = { s with
      reg := fun
        | .edi => s.word n
        | .esi => s.word (n + 4)
        | .ebp => s.word (n + 8)
        | .esp => UInt32.ofNat (n + 32)
        | .ebx => s.word (n + 16)
        | .edx => s.word (n + 20)
        | .ecx => s.word (n + 24)
        | .eax => s.word (n + 28) } := by
  simp only [popad, pop, drop, set, top, word]
  simp (disch := first | omega | decide) only [Function.update_self, Function.update_of_ne, hesp, ofNat_add_four,
    toNat_ofNat, Nat.add_assoc, Nat.reduceAdd]
  congr 1
  funext r
  cases r <;> rfl

/-- The return from an interrupt of less privileged code. -/
theorem iretd_eq (hesp : s.reg .esp = UInt32.ofNat n) (hlt : n + 20 < 2 ^ 32)
    (houter : s.level < ring (s.word (n + 4))) :
    s.iretd = { s with
      reg := Function.update s.reg .esp (s.word (n + 12))
      eip := s.word n
      cs := s.word (n + 4)
      eflags := s.word (n + 8)
      ss := s.word (n + 16) } := by
  have hcs : s.drop.top = s.word (n + 4) := by
    rw [drop_eq hesp, top, toNat_reg_update (by omega)]
    rfl
  simp only [iretd, hcs]
  rw [if_pos houter]
  simp only [drop, set, top, word]
  simp (disch := first | omega | decide) only [Function.update_self, Function.update_idem, hesp, ofNat_add_four,
    toNat_ofNat, Nat.add_assoc, Nat.reduceAdd]

section Exec
variable (alu : UInt32 → UInt32 → UInt32 → UInt32) (trap : ℕ → X86 σ → Option (X86 σ))

theorem run_append (code rest : List (Instr σ)) (s : X86 σ) :
    run alu trap (code ++ rest) s = (run alu trap code s).bind (run alu trap rest) := by
  induction code generalizing s with
  | nil => rfl
  | cons i code ih =>
    rw [List.cons_append, run, run, Option.bind_assoc]
    exact congrArg _ (funext ih)

theorem exec_push (hesp : s.reg .esp = UInt32.ofNat n) (hn : 4 ≤ n) (hlt : n < 2 ^ 32) (r : Reg) :
    exec alu trap (.push r) s = some { s with
      eip := s.eip + 1
      reg := Function.update s.reg .esp (UInt32.ofNat (n - 4))
      mem := store32 s.mem (n - 4) (s.reg r).toNat } :=
  congrArg some (push_eq (s := { s with eip := s.eip + 1 }) hesp hn hlt (s.reg r))

theorem exec_pushad (hesp : s.reg .esp = UInt32.ofNat n) (hlt : n < 2 ^ 32) (hn : 32 ≤ n) :
    exec alu trap .pushad s = some { s.pushad with eip := s.eip + 1 } := by
  rw [exec, pushad_eq (s := { s with eip := s.eip + sizeOf .pushad }) hesp hlt hn, pushad_eq hesp hlt hn]
  rfl

theorem exec_popad (hesp : s.reg .esp = UInt32.ofNat n) (hlt : n + 32 < 2 ^ 32) :
    exec alu trap .popad s = some { s.popad with eip := s.eip + 1 } := by
  rw [exec, popad_eq (s := { s with eip := s.eip + sizeOf .popad }) hesp hlt, popad_eq hesp hlt]
  rfl

theorem exec_iretd (hesp : s.reg .esp = UInt32.ofNat n) (hlt : n + 20 < 2 ^ 32)
    (houter : s.level < ring (s.word (n + 4))) : exec alu trap .iretd s = some s.iretd := by
  rw [exec, iretd_eq (s := { s with eip := s.eip + sizeOf .iretd }) hesp hlt houter, iretd_eq hesp hlt houter]
  rfl

end Exec

end Stack

/-- The tables take an interrupt of user code to the kernel's code at `offset`, in the segment
`cs0` and on the stack `ss0:esp0`. -/
structure Enters (T : TableRegisters) (m : Mem) (vector offset cs0 ss0 esp0 : ℕ) : Prop where
  inside : 8 * vector + 7 ≤ T.idtLimit
  gate : (gateAt m (T.idt + 8 * vector)).offset = offset
  selector : (gateAt m (T.idt + 8 * vector)).selector = cs0
  present : IsPresent (gateAt m (T.idt + 8 * vector)).access
  interrupts : IsInterruptGate (gateAt m (T.idt + 8 * vector)).access
  user : privilege (gateAt m (T.idt + 8 * vector)).access = 3
  segment : cs0 % 8 = 0 ∧ cs0 + 7 ≤ T.gdtLimit
  codePresent : IsPresent (segmentAt m (T.gdt + cs0)).access
  code : IsCode (segmentAt m (T.gdt + cs0)).access
  kernel : privilege (segmentAt m (T.gdt + cs0)).access = 0
  stack : load32 m (T.tss + 4) = esp0
  stackSegment : load16 m (T.tss + 8) = ss0

/-- The processor saves what it needs to come back on the stack of the kernel. -/
theorem Enters.interrupt_eq {T : TableRegisters} {s : X86 σ} {vector offset cs0 ss0 esp0 : ℕ}
    (h : Enters T s.mem vector offset cs0 ss0 esp0) (hlevel : s.level = 3) (hroom : 20 ≤ esp0) :
    s.interrupt T vector = some { s with
      reg := Function.update s.reg .esp (UInt32.ofNat (esp0 - 20))
      mem := pushWords s.mem esp0 [s.ss, s.reg .esp, s.eflags, s.cs, s.eip]
      eip := UInt32.ofNat offset
      cs := UInt32.ofNat cs0
      ss := UInt32.ofNat ss0
      eflags := s.eflags &&& interruptMask } := by
  have hlt : esp0 < 2 ^ 32 := by
    rw [← h.stack]
    exact load32_lt _ _
  have hselector : 8 * (cs0 / 8) = cs0 := by
    have hmod := h.segment.1
    omega
  have hring : cs0 / 4 * 4 + 0 = cs0 := by omega
  simp only [interrupt, h.gate, h.selector, hselector, h.user, h.kernel, h.stack, h.stackSegment, hlevel]
  rw [if_pos ⟨h.inside, h.present, h.interrupts, le_rfl, h.segment.2, h.codePresent, h.code, Nat.zero_le 3⟩,
    if_pos (by decide), hring]
  have hpushes := pushAll_eq (s := { s with
    reg := Function.update s.reg .esp (UInt32.ofNat esp0), ss := UInt32.ofNat ss0 })
    (Function.update_self Reg.esp _ s.reg) hlt [s.ss, s.reg .esp, s.eflags, s.cs, s.eip] hroom
  rw [Function.update_idem] at hpushes
  simp only [pushAll] at hpushes
  rw [hpushes]
  rfl

end X86

end Machine
