import Zhios.Machine.X86
import Zhios.Task.Registers

/-! The tables of the processor: the segments of `src/gdt/gdt.c` and the gates of
`src/interrupts/interrupts.c`, as the kernel packs them and as the processor reads them. -/
namespace Zhios
open Machine

def zhiosTotalGdtSegments : ℕ := 6
def totalInterrupts : ℕ := 512
def kernelCodeSelector : UInt16 := 0x08
def kernelDataSelector : UInt32 := 0x10

structure GdtEntity where
  limit : UInt32
  base : UInt32
  type : UInt8
  deriving DecidableEq, Repr

structure GdtEntry where
  limit : UInt16
  baseLow : UInt16
  baseMiddle : UInt8
  access : UInt8
  flags : UInt8
  baseHigh : UInt8
  deriving DecidableEq, Repr

/-- The two bytes of a halfword. -/
def halfBytes (w : UInt16) : List UInt8 := [UInt8.ofNat w.toNat, UInt8.ofNat (w.toNat / 2 ^ 8)]

/-- The packed record as it lies in memory. -/
def GdtEntry.bytes (e : GdtEntry) : List UInt8 :=
  halfBytes e.limit ++ halfBytes e.baseLow ++ [e.baseMiddle, e.access, e.flags, e.baseHigh]

def GdtEntity.entry (entity : GdtEntity) : GdtEntry :=
  { baseLow := (entity.base &&& 0xFFFF).toUInt16
    baseMiddle := (entity.base >>> 16 &&& 0xFF).toUInt8
    baseHigh := (entity.base >>> 24 &&& 0xFF).toUInt8
    limit := (entity.limit &&& 0xFFFF).toUInt16
    flags := (entity.limit >>> 16 &&& 0x0F).toUInt8 ||| 0xC0
    access := entity.type }

/-- All but the last byte of the table is cleared first. -/
def loadEntries (m : Mem) (gdtTable : ℕ) (gdtEntities : ℕ → GdtEntity) : Mem :=
  storeTable gdtTable (fun i => (gdtEntities i).entry.bytes) zhiosTotalGdtSegments 0
    (fill m gdtTable (8 * zhiosTotalGdtSegments - 1) 0)

structure InterruptEntry where
  offset1 : UInt16
  selector : UInt16
  zero : UInt8
  typeAttr : UInt8
  offset2 : UInt16
  deriving DecidableEq, Repr

def InterruptEntry.bytes (e : InterruptEntry) : List UInt8 :=
  halfBytes e.offset1 ++ halfBytes e.selector ++ [e.zero, e.typeAttr] ++ halfBytes e.offset2

def interruptEntryTo (address : UInt32) : InterruptEntry :=
  { offset1 := (address &&& 0xFFFF).toUInt16
    selector := kernelCodeSelector
    zero := 0x00
    typeAttr := 0xEE
    offset2 := (address >>> 16 &&& 0xFFFF).toUInt16 }

def setInterrupt (m : Mem) (interruptEntries interruptNum : ℕ) (address : UInt32) : Mem :=
  storeBytes m (interruptEntries + 8 * interruptNum) (interruptEntryTo address).bytes

theorem GdtEntry.length_bytes (e : GdtEntry) : e.bytes.length = 8 := rfl

theorem InterruptEntry.length_bytes (e : InterruptEntry) : e.bytes.length = 8 := rfl

theorem load16_halfBytes {m : Mem} {a : ℕ} {w : UInt16} (h0 : m a = UInt8.ofNat w.toNat)
    (h1 : m (a + 1) = UInt8.ofNat (w.toNat / 2 ^ 8)) : load16 m a = w.toNat := by
  have hlt := w.toNat_lt
  rw [load16, h0, h1, UInt8.toNat_ofNat', UInt8.toNat_ofNat']
  omega

theorem toNat_low (w : UInt32) : (w &&& 0xFFFF).toUInt16.toNat = w.toNat % 2 ^ 16 := by
  rw [UInt32.toNat_toUInt16, UInt32.toNat_and, show (0xFFFF : UInt32).toNat = 2 ^ 16 - 1 from rfl,
    Nat.and_two_pow_sub_one_eq_mod, Nat.mod_mod]

theorem toNat_high (w : UInt32) : (w >>> 16 &&& 0xFFFF).toUInt16.toNat = w.toNat / 2 ^ 16 := by
  have hlt := w.toNat_lt
  rw [toNat_low, UInt32.toNat_shiftRight, Nat.shiftRight_eq_div_pow, show UInt32.toNat 16 % 32 = 16 from rfl]
  exact Nat.mod_eq_of_lt (by omega)

theorem toNat_byte (w : UInt32) (k : UInt32) :
    (w >>> k &&& 0xFF).toUInt8.toNat = w.toNat / 2 ^ (k.toNat % 32) % 2 ^ 8 := by
  rw [UInt32.toNat_toUInt8, UInt32.toNat_and, UInt32.toNat_shiftRight, Nat.shiftRight_eq_div_pow,
    show (0xFF : UInt32).toNat = 2 ^ 8 - 1 from rfl, Nat.and_two_pow_sub_one_eq_mod, Nat.mod_mod]

/-- The granularity bit is set whatever the limit is. -/
theorem toNat_flags (w : UInt32) :
    ((w >>> 16 &&& 0x0F).toUInt8 ||| 0xC0).toNat = 192 + w.toNat / 2 ^ 16 % 2 ^ 4 := by
  have hor : ∀ n < 16, n ||| 192 = 192 + n := by decide
  rw [UInt8.toNat_or, UInt32.toNat_toUInt8, UInt32.toNat_and, UInt32.toNat_shiftRight, Nat.shiftRight_eq_div_pow,
    show (0x0F : UInt32).toNat = 2 ^ 4 - 1 from rfl, Nat.and_two_pow_sub_one_eq_mod,
    show UInt32.toNat 16 % 32 = 16 from rfl, Nat.mod_eq_of_lt (b := 2 ^ 8) (by omega)]
  exact hor _ (Nat.mod_lt _ (by decide))

/-- The processor finds the base and the type of the entity, and a limit in pages: the upper
twelve bits of the entity's limit are lost. -/
theorem segmentAt_entry {m : Mem} {a : ℕ} {entity : GdtEntity} (h : Holds m a entity.entry.bytes) :
    segmentAt m a = ⟨entity.base.toNat, 4096 * (entity.limit.toNat % 2 ^ 20) + 4095, entity.type.toNat⟩ := by
  have hbyte : ∀ o < 8, m (a + o) = entity.entry.bytes.getD o 0 := h
  have hbase := entity.base.toNat_lt
  have hlimit : load16 m a = entity.limit.toNat % 2 ^ 16 :=
    (load16_halfBytes (hbyte 0 (by decide)) (hbyte 1 (by decide))).trans (toNat_low _)
  have hlow : load16 m (a + 2) = entity.base.toNat % 2 ^ 16 :=
    (load16_halfBytes (hbyte 2 (by decide)) (hbyte 3 (by decide))).trans (toNat_low _)
  have hmiddle : (m (a + 4)).toNat = entity.base.toNat / 2 ^ 16 % 2 ^ 8 :=
    (congrArg UInt8.toNat (hbyte 4 (by decide))).trans (toNat_byte _ _)
  have haccess : m (a + 5) = entity.type := hbyte 5 (by decide)
  have hflags : (m (a + 6)).toNat = 192 + entity.limit.toNat / 2 ^ 16 % 2 ^ 4 :=
    (congrArg UInt8.toNat (hbyte 6 (by decide))).trans (toNat_flags _)
  have hhigh : (m (a + 7)).toNat = entity.base.toNat / 2 ^ 24 % 2 ^ 8 :=
    (congrArg UInt8.toNat (hbyte 7 (by decide))).trans (toNat_byte _ _)
  simp only [segmentAt, hlimit, hlow, hmiddle, haccess, hflags, hhigh, Segment.mk.injEq, and_true]
  rw [if_pos (by omega)]
  omega

/-- It finds the address of the handler, and lets user code through. -/
theorem gateAt_entry {m : Mem} {a : ℕ} {address : UInt32} (h : Holds m a (interruptEntryTo address).bytes) :
    gateAt m a = ⟨address.toNat, 0x08, 0xEE⟩ := by
  have hbyte : ∀ o < 8, m (a + o) = (interruptEntryTo address).bytes.getD o 0 := h
  have hlow : load16 m a = address.toNat % 2 ^ 16 :=
    (load16_halfBytes (hbyte 0 (by decide)) (hbyte 1 (by decide))).trans (toNat_low _)
  have hselector : load16 m (a + 2) = kernelCodeSelector.toNat :=
    load16_halfBytes (hbyte 2 (by decide)) (hbyte 3 (by decide))
  have haccess : m (a + 5) = 0xEE := hbyte 5 (by decide)
  have hhigh : load16 m (a + 6) = address.toNat / 2 ^ 16 :=
    (load16_halfBytes (hbyte 6 (by decide)) (hbyte 7 (by decide))).trans (toNat_high _)
  simp only [gateAt, hlow, hselector, haccess, hhigh, Gate.mk.injEq]
  exact ⟨by omega, rfl, rfl⟩

/-- The kernel's static objects. The linker puts them below the boot stack. -/
structure KernelStatics where
  gdtTable : ℕ
  tss : ℕ
  interruptEntries : ℕ
  retValue : ℕ
  tss_gdt : tss + 108 ≤ gdtTable ∨ gdtTable + 48 ≤ tss
  idt_gdt : interruptEntries + 4096 ≤ gdtTable ∨ gdtTable + 48 ≤ interruptEntries
  idt_tss : interruptEntries + 4096 ≤ tss ∨ tss + 108 ≤ interruptEntries
  ret_gdt : retValue + 4 ≤ gdtTable ∨ gdtTable + 48 ≤ retValue
  ret_tss : retValue + 4 ≤ tss ∨ tss + 108 ≤ retValue
  ret_idt : retValue + 4 ≤ interruptEntries ∨ interruptEntries + 4096 ≤ retValue
  below : gdtTable + 48 ≤ 0x200000 ∧ tss + 108 ≤ 0x200000 ∧ interruptEntries + 4096 ≤ 0x200000 ∧
    retValue + 4 ≤ 0x200000

namespace KernelStatics
variable (st : KernelStatics)

def gdtEntities : ℕ → GdtEntity
  | 0 => ⟨0x00, 0x00, 0x00⟩
  | 1 => ⟨0xFFFFFFFF, 0x00, 0x9A⟩
  | 2 => ⟨0xFFFFFFFF, 0x00, 0x92⟩
  | 3 => ⟨0xFFFFFFFF, 0x00, 0xFA⟩
  | 4 => ⟨0xFFFFFFFF, 0x00, 0xF2⟩
  | _ => ⟨108, UInt32.ofNat st.tss, 0x89⟩

/-- `init_gdt` up to the load of the task register. -/
def loadTables (m : Mem) : Mem :=
  let m := loadEntries m st.gdtTable st.gdtEntities
  let m := fill m st.tss 108 0
  let m := store32 m (st.tss + 4) kernelStack
  store32 m (st.tss + 8) kernelDataSelector.toNat

/-- `lgdt` takes the size of the table less one; `ltr` finds the state segment in the table. -/
def initGdt (m : Mem) : Mem × TableRegisters :=
  let gdtLimit := 8 * zhiosTotalGdtSegments - 1
  let task := loadTask (st.loadTables m) (st.gdtTable + 0x28)
  (task.1, { gdt := st.gdtTable, gdtLimit := gdtLimit, idt := 0, idtLimit := 0, tss := task.2 })

/-- The handlers of all vectors, and those of two of them that are set again. -/
def initInterrupts (r : Mem × TableRegisters) (isrPointerTable : ℕ → UInt32) (int0h isr80h : UInt32) :
    Mem × TableRegisters :=
  let m := fill r.1 st.interruptEntries (8 * totalInterrupts) 0
  let m := storeTable st.interruptEntries (fun i => (interruptEntryTo (isrPointerTable i)).bytes) totalInterrupts 0 m
  let m := setInterrupt m st.interruptEntries 0 int0h
  let m := setInterrupt m st.interruptEntries 0x80 isr80h
  (m, { r.2 with idt := st.interruptEntries, idtLimit := 8 * totalInterrupts - 1 })

def handlerAddress (isrPointerTable : ℕ → UInt32) (int0h isr80h : UInt32) (vector : ℕ) : UInt32 :=
  if vector = 0x80 then isr80h else if vector = 0 then int0h else isrPointerTable vector

/-- The tables as the processor is to read them. The last segment is that of the task state. -/
structure Tabled (m : Mem) (handler : ℕ → UInt32) : Prop where
  segment : ∀ i < zhiosTotalGdtSegments - 1, segmentAt m (st.gdtTable + 8 * i) = ⟨(st.gdtEntities i).base.toNat,
    4096 * ((st.gdtEntities i).limit.toNat % 2 ^ 20) + 4095, (st.gdtEntities i).type.toNat⟩
  gate : ∀ vector < totalInterrupts, gateAt m (st.interruptEntries + 8 * vector) = ⟨(handler vector).toNat, 0x08, 0xEE⟩
  stack : load32 m (st.tss + 4) = kernelStack
  stackSegment : load32 m (st.tss + 8) = kernelDataSelector.toNat

variable {st}

abbrev registers (st : KernelStatics) : TableRegisters := ⟨st.gdtTable, 47, st.interruptEntries, 4095, st.tss⟩

def Static (st : KernelStatics) (x : ℕ) : Prop :=
  (st.gdtTable ≤ x ∧ x < st.gdtTable + 48) ∨ (st.tss ≤ x ∧ x < st.tss + 108) ∨
    (st.interruptEntries ≤ x ∧ x < st.interruptEntries + 4096)

theorem Static.lt {x : ℕ} (h : st.Static x) : x < 0x200000 := by
  have hbelow := st.below
  unfold Static at h
  omega

/-- As long as the tables are not written, the processor reads the same. -/
theorem Tabled.congr {m m' : Mem} {handler : ℕ → UInt32} (h : st.Tabled m handler)
    (hsame : ∀ x, st.Static x → m' x = m x) : st.Tabled m' handler := by
  constructor
  · intro i hi
    rw [← h.segment i hi]
    unfold zhiosTotalGdtSegments at hi
    exact segmentAt_congr fun x hlo hhi => hsame x (Or.inl (by omega))
  · intro vector hvector
    rw [← h.gate vector hvector]
    unfold totalInterrupts at hvector
    exact gateAt_congr fun x hlo hhi => hsame x (Or.inr (Or.inr (by omega)))
  · rw [← h.stack]
    exact load32_congr fun x hlo hhi => hsame x (Or.inr (Or.inl (by omega)))
  · rw [← h.stackSegment]
    exact load32_congr fun x hlo hhi => hsame x (Or.inr (Or.inl (by omega)))

theorem loadTables_segment (st : KernelStatics) (m : Mem) {i : ℕ} (hi : i < zhiosTotalGdtSegments) :
    segmentAt (st.loadTables m) (st.gdtTable + 8 * i) = ⟨(st.gdtEntities i).base.toNat,
      4096 * ((st.gdtEntities i).limit.toNat % 2 ^ 20) + 4095, (st.gdtEntities i).type.toNat⟩ := by
  have hstored := holds_storeTable (fun i => GdtEntry.length_bytes (st.gdtEntities i).entry) st.gdtTable
    zhiosTotalGdtSegments 0 (fill m st.gdtTable (8 * zhiosTotalGdtSegments - 1) 0) (Nat.zero_le i) (by omega)
  rw [← segmentAt_entry hstored]
  apply segmentAt_congr
  intro x hlo hhi
  have hapart := st.tss_gdt
  unfold zhiosTotalGdtSegments at hi
  simp only [loadTables]
  rw [store32_outside _ _ (by omega), store32_outside _ _ (by omega), fill_outside _ _ (by omega)]
  rfl

/-- The busy mark is in the descriptor of the task state. -/
theorem initGdt_outside (m : Mem) {x : ℕ} (hx : x < st.gdtTable + 0x28 ∨ st.gdtTable + 0x30 ≤ x) :
    (st.initGdt m).1 x = st.loadTables m x :=
  Function.update_of_ne (by omega) _ _

theorem initGdt_registers (st : KernelStatics) (m : Mem) : (st.initGdt m).2 = ⟨st.gdtTable, 47, 0, 0, st.tss⟩ := by
  have hsegment := loadTables_segment st m (i := 5) (by decide)
  have hbelow := st.below
  have htss : (UInt32.ofNat st.tss).toNat = st.tss := X86.toNat_ofNat (by omega)
  have hbase : (segmentAt (st.loadTables m) (st.gdtTable + 0x28)).base = st.tss :=
    (congrArg Segment.base hsegment).trans htss
  change TableRegisters.mk _ _ _ _ (segmentAt (st.loadTables m) (st.gdtTable + 0x28)).base = _
  rw [hbase]
  rfl

/-- The whole of what the two functions set up. -/
theorem initInterrupts_tabled (st : KernelStatics) (m : Mem) (isrPointerTable : ℕ → UInt32) (int0h isr80h : UInt32) :
    st.Tabled (st.initInterrupts (st.initGdt m) isrPointerTable int0h isr80h).1
        (handlerAddress isrPointerTable int0h isr80h) ∧
      (st.initInterrupts (st.initGdt m) isrPointerTable int0h isr80h).2 =
        ⟨st.gdtTable, 47, st.interruptEntries, 4095, st.tss⟩ := by
  have hidt := st.idt_gdt
  have hidt' := st.idt_tss
  have hregisters := initGdt_registers st m
  have hapart := st.tss_gdt
  have hsegment : ∀ i < zhiosTotalGdtSegments - 1, segmentAt (st.initGdt m).1 (st.gdtTable + 8 * i) =
      ⟨(st.gdtEntities i).base.toNat, 4096 * ((st.gdtEntities i).limit.toNat % 2 ^ 20) + 4095,
        (st.gdtEntities i).type.toNat⟩ := by
    intro i hi
    rw [← loadTables_segment st m (by omega)]
    unfold zhiosTotalGdtSegments at hi
    exact segmentAt_congr fun x hlo hhi => initGdt_outside m (Or.inl (by omega))
  have hstack : load32 (st.initGdt m).1 (st.tss + 4) = kernelStack := by
    rw [load32_congr fun x hlo hhi => initGdt_outside m (x := x) (by omega), loadTables,
      load32_store32_disjoint _ _ (by omega), load32_store32_same _ _ (by decide)]
  have hstackSegment : load32 (st.initGdt m).1 (st.tss + 8) = kernelDataSelector.toNat := by
    rw [load32_congr fun x hlo hhi => initGdt_outside m (x := x) (by omega), loadTables,
      load32_store32_same _ _ (UInt32.toNat_lt _)]
  generalize st.initGdt m = r at hregisters hsegment hstack hstackSegment ⊢
  have hlength : ∀ i, (interruptEntryTo (isrPointerTable i)).bytes.length = 8 := fun i =>
    InterruptEntry.length_bytes _
  -- Outside the gates everything is as it was.
  have hother : ∀ x, x < st.interruptEntries ∨ st.interruptEntries + 4096 ≤ x →
      (st.initInterrupts r isrPointerTable int0h isr80h).1 x = r.1 x := by
    intro x hx
    simp only [initInterrupts, setInterrupt, totalInterrupts]
    rw [storeBytes_outside, storeBytes_outside, storeTable_outside hlength _ _ _ (by omega),
      fill_outside _ _ (by omega)]
    all_goals
      rw [InterruptEntry.length_bytes]
      omega
  constructor
  · constructor
    · intro i hi
      rw [← hsegment i hi]
      unfold zhiosTotalGdtSegments at hi
      exact segmentAt_congr fun x hlo hhi => hother x (by omega)
    · intro vector hvector
      apply gateAt_entry
      have htable := holds_storeTable hlength st.interruptEntries totalInterrupts 0
        (fill r.1 st.interruptEntries (8 * totalInterrupts) 0) (Nat.zero_le vector) (by omega)
      simp only [initInterrupts, handlerAddress]
      generalize storeTable st.interruptEntries _ totalInterrupts 0 _ = m₁ at htable ⊢
      by_cases hcall : vector = 0x80
      · rw [hcall, if_pos rfl]
        exact holds_storeBytes _ _ _
      rw [if_neg hcall]
      have hlast : ∀ m' : Mem, ∀ x, st.interruptEntries + 8 * vector ≤ x → x < st.interruptEntries + 8 * vector + 8 →
          setInterrupt m' st.interruptEntries 0x80 isr80h x = m' x := by
        intro m' x hlo hhi
        apply storeBytes_outside
        rw [InterruptEntry.length_bytes]
        omega
      by_cases hfirst : vector = 0
      · rw [if_pos hfirst]
        refine Holds.congr ?_ (hlast _)
        rw [hfirst]
        exact holds_storeBytes _ _ _
      · rw [if_neg hfirst]
        refine (htable.congr ?_).congr (hlast _)
        intro x hlo hhi
        apply storeBytes_outside
        rw [InterruptEntry.length_bytes]
        omega
    · rw [← hstack]
      exact load32_congr fun x hlo hhi => hother x (by omega)
    · rw [← hstackSegment]
      exact load32_congr fun x hlo hhi => hother x (by omega)
  · simp only [initInterrupts, hregisters]
    rfl

/-- All gates lead to the kernel's code on the kernel's stack. -/
theorem Tabled.enters {m : Mem} {handler : ℕ → UInt32} (h : st.Tabled m handler) {vector : ℕ}
    (hvector : vector < totalInterrupts) :
    X86.Enters ⟨st.gdtTable, 47, st.interruptEntries, 4095, st.tss⟩ m vector (handler vector).toNat 0x08
      kernelDataSelector.toNat kernelStack := by
  have hgate : (gateAt m (st.interruptEntries + 8 * vector)).access = 0xEE :=
    congrArg Gate.access (h.gate vector hvector)
  have hcode : (segmentAt m (st.gdtTable + 0x08)).access = 0x9A := congrArg Segment.access (h.segment 1 (by decide))
  have hlimit : 8 * vector + 7 ≤ 4095 := by
    unfold totalInterrupts at hvector
    omega
  have hword : load16 m (st.tss + 8) = kernelDataSelector.toNat := by
    have hload := h.stackSegment
    have hlo := (m (st.tss + 8)).toNat_lt
    have hhi := (m (st.tss + 8 + 1)).toNat_lt
    rw [load32, show kernelDataSelector.toNat = 0x10 from rfl] at hload
    rw [load16, show kernelDataSelector.toNat = 0x10 from rfl]
    omega
  constructor
  · exact hlimit
  · exact congrArg Gate.offset (h.gate vector hvector)
  · exact congrArg Gate.selector (h.gate vector hvector)
  · rw [hgate]
    decide
  · rw [hgate]
    decide
  · rw [hgate]
    decide
  · exact ⟨rfl, (by decide : 0x08 + 7 ≤ 47)⟩
  · rw [hcode]
    decide
  · rw [hcode]
    decide
  · rw [hcode]
    decide
  · exact h.stack
  · exact hword

/-- Segment `i` of the table is a data segment for code of level 0. -/
theorem Tabled.loadsData {m : Mem} {handler : ℕ → UInt32} (h : st.Tabled m handler) (i rpl : ℕ)
    (hi : i < zhiosTotalGdtSegments - 1) (hpos : 1 ≤ i) (hdata : IsData (st.gdtEntities i).type.toNat)
    (hpresent : IsPresent (st.gdtEntities i).type.toNat) (hrpl : rpl ≤ privilege (st.gdtEntities i).type.toNat)
    (hlt : rpl < 4) : LoadsData st.registers m 0 (8 * i + rpl) := by
  have haccess : (segmentAt m (st.gdtTable + 8 * ((8 * i + rpl) / 8))).access = (st.gdtEntities i).type.toNat := by
    rw [show (8 * i + rpl) / 8 = i by omega, h.segment i hi]
  have hlimit : 8 * ((8 * i + rpl) / 8) + 7 ≤ 47 := by
    unfold zhiosTotalGdtSegments at hi
    omega
  simp only [LoadsData, haccess]
  exact ⟨by omega, by omega, hlimit, hpresent, hdata, Nat.zero_le _, by omega⟩

theorem Tabled.loadsData_selectors {m : Mem} {handler : ℕ → UInt32} (h : st.Tabled m handler) :
    LoadsData st.registers m 0 kernelDataSelector.toNat ∧ LoadsData st.registers m 0 userDataSegment.toNat := by
  have hkernel : (st.gdtEntities 2).type.toNat = 0x92 := rfl
  have huser : (st.gdtEntities 4).type.toNat = 0xF2 := rfl
  constructor
  · apply h.loadsData 2 0 (by decide) (by decide) ?_ ?_ (Nat.zero_le _) (by decide)
    · rw [hkernel]
      decide
    · rw [hkernel]
      decide
  · apply h.loadsData 4 3 (by decide) (by decide) ?_ ?_ ?_ (by decide)
    · rw [huser]
      decide
    · rw [huser]
      decide
    · rw [huser]
      decide

end KernelStatics

/-- The registers of the processor as the kernel's record has them. -/
def cpuOf {σ : Type*} (s : X86 σ) : Cpu :=
  { edi := s.reg .edi
    esi := s.reg .esi
    ebp := s.reg .ebp
    ebx := s.reg .ebx
    edx := s.reg .edx
    ecx := s.reg .ecx
    eax := s.reg .eax
    eip := s.eip
    cs := s.cs
    eflags := s.eflags
    esp := s.reg .esp
    ss := s.ss }

/-- The words that an entry pushes lie in the 52 bytes below the top of the kernel's stack. -/
theorem interruptEntry_outside (m : Mem) (cpu : Cpu) {x : ℕ} (hx : x < kernelStack - 52 ∨ kernelStack ≤ x) :
    (interruptEntry m cpu none).1 x = m x := by
  rw [interruptEntry_eq]
  exact pushWords_outside m cpu.entryWords (by change 4 * 13 ≤ kernelStack; decide) hx

/-- After `pushad`, an interrupt from user code has left the frame of `interruptEntry`. -/
theorem interrupt_pushad {σ : Type*} {st : KernelStatics} {s : X86 σ} {handler : ℕ → UInt32}
    (h : st.Tabled s.mem handler) (huser : s.level = 3) {vector : ℕ} (hvector : vector < totalInterrupts) :
    ∃ k, s.interrupt ⟨st.gdtTable, 47, st.interruptEntries, 4095, st.tss⟩ vector = some k ∧ k.level = 0 ∧
      k.eip = handler vector ∧ k.ss = kernelDataSelector ∧ k.eflags = s.eflags &&& X86.interruptMask ∧
      k.pushad = { k with
        reg := Function.update s.reg .esp (UInt32.ofNat (interruptEntry s.mem (cpuOf s) none).2)
        mem := (interruptEntry s.mem (cpuOf s) none).1 } := by
  refine ⟨_, (h.enters hvector).interrupt_eq huser (by decide), ?_, UInt32.ofNat_toNat, UInt32.ofNat_toNat, rfl, ?_⟩
  · change (UInt32.ofNat 0x08).toNat % 4 = 0
    decide
  · rw [X86.pushad_eq (n := kernelStack - 20) ?_ (by decide) (by decide)]
    · rw [Function.update_idem]
      rfl
    · exact Function.update_self Reg.esp _ s.reg

theorem Tabled.interruptEntry {st : KernelStatics} {m : Mem} {handler : ℕ → UInt32} (h : st.Tabled m handler)
    (cpu : Cpu) : st.Tabled (Zhios.interruptEntry m cpu none).1 handler := by
  apply h.congr
  intro x hx
  have hlt := hx.lt
  exact interruptEntry_outside m cpu (Or.inl (by unfold kernelStack; omega))

/-- What boot sets up works for every vector: as long as the tables are not written, an
interrupt of user code enters the handler of its vector in the kernel's ring with interrupts
off, and `pushad` completes the frame that `task_save_current_state` reads on the kernel's
stack, where no table is. -/
theorem interrupt_enters {σ : Type*} (st : KernelStatics) (m₀ : Mem) (isrPointerTable : ℕ → UInt32)
    (int0h isr80h : UInt32) (s : X86 σ)
    (hmem : ∀ x, st.Static x → s.mem x = (st.initInterrupts (st.initGdt m₀) isrPointerTable int0h isr80h).1 x)
    (huser : s.level = 3) (vector : ℕ) (hvector : vector < totalInterrupts) :
    ∃ k, s.interrupt (st.initInterrupts (st.initGdt m₀) isrPointerTable int0h isr80h).2 vector = some k ∧
      k.level = 0 ∧ k.eip = KernelStatics.handlerAddress isrPointerTable int0h isr80h vector ∧
      k.ss = kernelDataSelector ∧ k.eflags = s.eflags &&& X86.interruptMask ∧
      k.pushad.reg .esp = UInt32.ofNat (interruptEntry s.mem (cpuOf s) none).2 ∧
      InterruptFrame.load k.pushad.mem (interruptEntry s.mem (cpuOf s) none).2 = (cpuOf s).frame ∧
      ∀ x, st.Static x → k.pushad.mem x = s.mem x := by
  obtain ⟨htabled, hregisters⟩ := KernelStatics.initInterrupts_tabled st m₀ isrPointerTable int0h isr80h
  obtain ⟨k, hk, hlevel, heip, hss, hflags, hpushad⟩ := interrupt_pushad (htabled.congr hmem) huser hvector
  rw [hregisters]
  refine ⟨k, hk, hlevel, heip, hss, hflags, ?_, ?_, ?_⟩
  · rw [hpushad]
    exact Function.update_self Reg.esp _ s.reg
  · rw [hpushad]
    exact interruptFrame_load s.mem (cpuOf s)
  · intro x hx
    have hlt := hx.lt
    rw [hpushad]
    exact interruptEntry_outside s.mem (cpuOf s) (Or.inl (by unfold kernelStack; omega))

def kernelStatics : KernelStatics :=
  ⟨0x100000, 0x100030, 0x10009C, 0x10109C, by decide, by decide, by decide, by decide, by decide, by decide, by decide⟩

def firstUser (m : Mem) : X86 Unit :=
  ⟨Function.update (fun _ => 0) .esp 0x3FF000, 0x400000, 0x202, userCodeSegment, userDataSegment,
    fun _ => userDataSegment, m, ()⟩

def bootTables : Mem × TableRegisters :=
  kernelStatics.initInterrupts (kernelStatics.initGdt fun _ => 0) (fun _ => 0x10) 0x20 0x30

theorem firstUser_level (m : Mem) : (firstUser m).level = 3 := by
  change X86.ring userCodeSegment = 3
  rfl

theorem firstUser_mem (m : Mem) : (firstUser m).mem = m := rfl

theorem interrupt_enters_first : ∃ k, (firstUser bootTables.1).interrupt bootTables.2 0x80 = some k ∧ k.eip = 0x30 := by
  have henters := interrupt_enters kernelStatics (fun _ => 0) (fun _ => 0x10) 0x20 0x30 (firstUser bootTables.1)
  rw [← bootTables] at henters
  obtain ⟨k, hk, -, heip, -⟩ := henters (fun _ _ => congrFun (firstUser_mem _) _) (firstUser_level _) 0x80 (by decide)
  exact ⟨k, hk, heip⟩

end Zhios
