import Zhios.Lib.StringMemory
import Zhios.Memory.PagingRun
import Zhios.Memory.HeapPinned

/-! The arguments of a command in `src/task/process.c`: cut up and copied when a process
is loaded, and laid out on its stack for `main`. -/
namespace Zhios
open Machine

def zhiosMaxProcessArguments : ℕ := 100
def zhiosProgramStackSize : ℕ := 1024 * 16
def zhiosProgramVirtualStackAddressStart : ℕ := 0x3FF000
def zhiosProgramVirtualStackAddressEnd : ℕ := zhiosProgramVirtualStackAddressStart - zhiosProgramStackSize

def sizeofProcessParameters : ℕ := 408

theorem stackSize_eq : zhiosProgramStackSize = 0x4000 := rfl
theorem stackStart_eq : zhiosProgramVirtualStackAddressStart = 0x3FF000 := rfl
theorem stackEnd_eq : zhiosProgramVirtualStackAddressEnd = 0x3FB000 := rfl

/-- The loop of `process_init_arguments`. In a `struct ProcessParameters` the count comes
first, then the pointers, then the start address. -/
def initArgumentsLoop (params : ℕ) : (argsList : List ℕ) → (i arguments : ℕ) → Mem → Mem
  | [], _, _, m => m
  | arg :: argsList, i, arguments, m =>
    let m := store32 (strcpy m arg arguments) (params + 4 + 4 * i) arguments
    initArgumentsLoop params argsList (i + 1) (arguments + strlen m arg + 1) m

/-- The parameters and the memory after the call. Neither allocation is checked, and
`args_list` has room for a hundred pointers. -/
def processInitArguments (k : KMem) (args : ℕ) : Option (ℕ × KMem) :=
  let params := kzalloc k sizeofProcessParameters
  let arguments := kzalloc params.2 512
  let r := strToken arguments.2.mem args 0x20
  if params.1 = 0 ∨ arguments.1 = 0 ∨ zhiosMaxProcessArguments < r.1.length then none
  else
    let m := initArgumentsLoop params.1 r.1 0 arguments.1 r.2
    some (params.1, { arguments.2 with mem := store32 m params.1 r.1.length })

/-- The loop of `process_map_args_to_stack` that copies the strings. -/
def copyArguments (page params : ℕ) : (fuel i currentAddr : ℕ) → Mem → ℕ × Mem
  | 0, _, currentAddr, m => (currentAddr, m)
  | fuel + 1, i, currentAddr, m =>
    if i < load32 m params then
      let argument := load32 m (params + 4 + 4 * i)
      let currentAddr := uint32 (currentAddr - strlen m argument - 1)
      let arg := pagingGetPhysicalAddress m page currentAddr
      copyArguments page params fuel (i + 1) currentAddr (memcpy argument arg (strlen m argument + 1) m)
    else (currentAddr, m)

/-- The loop that computes the addresses of the copies once more. -/
def storeArgumentPointers (params argsPtr : ℕ) : (fuel i argStart : ℕ) → Mem → Mem
  | 0, _, _, m => m
  | fuel + 1, i, argStart, m =>
    if i < load32 m params then
      let argStart := uint32 (argStart - strlen m (load32 m (params + 4 + 4 * i)) - 1)
      storeArgumentPointers params argsPtr fuel (i + 1) argStart (store32 m (argsPtr + 4 * i) argStart)
    else m

/-- The initial `esp` and `ebp`, and memory after the call. The words are looked up
before any of them is written. -/
def processMapArgsToStack (m : Mem) (page params : ℕ) : ℕ × Mem :=
  let r := copyArguments page params (2 ^ 32) 0 zhiosProgramVirtualStackAddressStart m
  let count := load32 r.2 params
  let virtArguments := uint32 (r.1 - (count + 1) * 4)
  let virtArgv := uint32 (virtArguments - 4)
  let virtArgc := uint32 (virtArgv - 4)
  let argc := pagingGetPhysicalAddress r.2 page virtArgc
  let argv := pagingGetPhysicalAddress r.2 page virtArgv
  let argsPtr := pagingGetPhysicalAddress r.2 page virtArguments
  let m := store32 (store32 r.2 argc count) argv virtArguments
  let m := storeArgumentPointers params argsPtr (2 ^ 32) 0 zhiosProgramVirtualStackAddressStart m
  let m := store32 m (argsPtr + 4 * load32 m params) 0
  (virtArgc, store32 m (params + 404) virtArgc)

/-- What is left of the arguments from number `i` on: their strings follow one another
from `a` on, and the parameters point to them. -/
def ArgumentsAt (m : Mem) (params : ℕ) : (i a : ℕ) → List (List UInt8) → Prop
  | i, _, [] => load32 m params = i
  | i, a, s :: strings =>
    load32 m (params + 4 + 4 * i) = a ∧ StringAt m a s ∧ ArgumentsAt m params (i + 1) (a + s.length + 1) strings

namespace ArgumentsAt
variable {m m' : Mem} {params i a : ℕ} {strings : List (List UInt8)}

theorem count (h : ArgumentsAt m params i a strings) : load32 m params = i + strings.length := by
  induction strings generalizing i a with
  | nil => exact h
  | cons s strings ih =>
    rw [ih h.2.2, List.length_cons]
    omega

theorem congr (h : ArgumentsAt m params i a strings)
    (hparams : ∀ x, params ≤ x → x < params + 4 + 4 * (i + strings.length) → m' x = m x)
    (hstrings : ∀ x, a ≤ x → x < a + packedSize strings → m' x = m x) : ArgumentsAt m' params i a strings := by
  induction strings generalizing i a with
  | nil =>
    rw [ArgumentsAt, load32_congr fun x hlo hhi => hparams x hlo (by omega)]
    exact h
  | cons s strings ih =>
    rw [List.length_cons] at hparams
    rw [packedSize_cons] at hstrings
    refine ⟨?_, h.2.1.congr fun x hlo hhi => hstrings x hlo (by omega),
      ih h.2.2 (fun x hlo hhi => hparams x hlo (by omega)) fun x hlo hhi => hstrings x (by omega) (by omega)⟩
    rw [load32_congr fun x hlo hhi => hparams x (by omega) (by omega)]
    exact h.1

end ArgumentsAt

/-- Copying the fields and storing the pointers to the copies. -/
theorem initArgumentsLoop_spec (params : ℕ) {strings : List (List UInt8)} {m : Mem} {arg : ℕ} (i arguments : ℕ)
    (h : StringsAt m arg strings) (hdest : arguments + packedSize strings ≤ 2 ^ 32)
    (hcopy : arg + packedSize strings ≤ arguments ∨ arguments + packedSize strings ≤ arg)
    (hargs : params + 4 + 4 * (i + strings.length) ≤ arg ∨ arg + packedSize strings ≤ params)
    (harguments : params + 4 + 4 * (i + strings.length) ≤ arguments ∨ arguments + packedSize strings ≤ params)
    (hcount : i + strings.length < 2 ^ 32) :
    ArgumentsAt (store32 (initArgumentsLoop params (packed arg strings) i arguments m) params (i + strings.length))
        params i arguments strings ∧
      ∀ x, (x < params + 4 + 4 * i ∨ params + 4 + 4 * (i + strings.length) ≤ x) →
        (x < arguments ∨ arguments + packedSize strings ≤ x) →
        initArgumentsLoop params (packed arg strings) i arguments m x = m x := by
  induction strings generalizing m arg i arguments with
  | nil => exact ⟨load32_store32_same m params hcount, fun _ _ _ => rfl⟩
  | cons s strings ih =>
    rw [packedSize_cons] at hdest hcopy hargs harguments ⊢
    rw [List.length_cons] at hargs harguments hcount ⊢
    have hlen : (s ++ [0]).length = s.length + 1 := List.length_append
    have hcopied := strcpy_eq h.1 (by omega)
      (show arg + s.length < arguments ∨ arguments + s.length < arg by omega)
    set m₁ := store32 (strcpy m arg arguments) (params + 4 + 4 * i) arguments with hm₁
    have hout : ∀ x, (x < params + 4 + 4 * i ∨ params + 4 + 4 * i + 4 ≤ x) →
        (x < arguments ∨ arguments + s.length + 1 ≤ x) → m₁ x = m x := by
      intro x hslot hx
      rw [hm₁, store32_outside _ _ hslot, hcopied, storeBytes_outside _ (by omega)]
    have hstring : StringAt m₁ arg s := h.1.congr fun x hlo hhi => hout x (by omega) (by omega)
    have hrest : StringsAt m₁ (arg + s.length + 1) strings :=
      h.2.congr fun x hlo hhi => hout x (by omega) (by omega)
    obtain ⟨hrestAt, hframe⟩ := ih (i + 1) (arguments + s.length + 1) hrest (by omega) (by omega)
      (by omega) (by omega) (by omega)
    have hstep : initArgumentsLoop params (packed arg (s :: strings)) i arguments m =
        initArgumentsLoop params (packed (arg + s.length + 1) strings) (i + 1) (arguments + s.length + 1) m₁ := by
      rw [packed, initArgumentsLoop, ← hm₁, hstring.strlen_eq (by omega)]
    rw [hstep, show i + (strings.length + 1) = i + 1 + strings.length by omega]
    set m₂ := initArgumentsLoop params (packed (arg + s.length + 1) strings) (i + 1) (arguments + s.length + 1) m₁
    -- what the first step wrote stays
    refine ⟨⟨?_, ⟨?_, h.1.noNull⟩, hrestAt⟩, fun x hparams hx => ?_⟩
    · rw [load32_store32_disjoint _ _ (by omega), load32_congr fun x hlo hhi => hframe x (by omega) (by omega), hm₁,
        load32_store32_same _ _ (by omega)]
    · apply (holds_storeBytes m arguments (s ++ [0])).congr
      intro x hlo hhi
      rw [store32_outside _ _ (by omega), hframe x (by omega) (by omega), hm₁, store32_outside _ _ (by omega), hcopied]
    · rw [hframe x (by omega) (by omega), hout x (by omega) (by omega)]

/-- The arguments `s` have been copied out of the string at `args`. -/
structure ArgumentsCopied (k k' : KMem) (args : ℕ) (s : List UInt8) (params arguments : ℕ) : Prop where
  keeps : k.Keeps k'
  paramsUnused : k.Unused params
  argumentsUnused : k.Unused arguments
  ne : params ≠ arguments
  argumentsAt : ArgumentsAt k'.mem params 0 arguments (s.splitOn 0x20)
  frame : ∀ x, (x < args ∨ args + s.length < x) → (x < params ∨ params + 4096 ≤ x) →
    (x < arguments ∨ arguments + 4096 ≤ x) → k'.mem x = k.mem x

/-- Both allocations are served, for a string that fits and does not lie in them. -/
theorem processInitArguments_spec {k : KMem} (h : k.Coherent) {args : ℕ} {s : List UInt8}
    (hargs : StringAt k.mem args s) (hshort : s.length < 512) (hcount : s.count 0x20 < zhiosMaxProcessArguments)
    (hout : k.OutsideFree args (s.length + 1)) (hparams : (kzalloc k sizeofProcessParameters).1 ≠ 0)
    (harguments : (kzalloc (kzalloc k sizeofProcessParameters).2 512).1 ≠ 0) :
    ∃ k', processInitArguments k args = some ((kzalloc k sizeofProcessParameters).1, k') ∧
      ArgumentsCopied k k' args s (kzalloc k sizeofProcessParameters).1
        (kzalloc (kzalloc k sizeofProcessParameters).2 512).1 := by
  have h₁ := h.kzalloc sizeofProcessParameters
  have hunused := h.unused_kzalloc hparams
  have hunused' := h.unused_of_kzalloc (h₁.unused_kzalloc harguments)
  have hheld := h.held_kzalloc (by decide) (by decide) hparams
  have hne := (hheld.ne_kzalloc h₁ 512).symm
  have hmem := kzalloc_mem hparams
  have hmem' := kzalloc_mem harguments
  have hkeeps := ((KMem.Keeps.refl h).kzalloc sizeofProcessParameters).kzalloc 512
  simp only [processInitArguments]
  generalize kzalloc k sizeofProcessParameters = p at *
  generalize kzalloc p.2 512 = q at *
  have hapart := hunused.apart hunused' hne
  have hfits := hunused'.fits h
  have hsize : sizeofProcessParameters = 408 := rfl
  have hmax : zhiosMaxProcessArguments = 100 := rfl
  obtain hstring := hout _ hunused
  obtain hstring' := hout _ hunused'
  have hfill : ∀ x, (x < p.1 ∨ p.1 + 408 ≤ x) → (x < q.1 ∨ q.1 + 512 ≤ x) → q.2.mem x = k.mem x := by
    intro x hx hx'
    rw [hmem', fill_outside _ _ hx', hmem, fill_outside _ _ (by rw [hsize]; exact hx)]
  have hargs' : StringAt q.2.mem args s := hargs.congr fun x hlo hhi => hfill x (by omega) (by omega)
  obtain ⟨htoken, hfields⟩ := strToken_eq hargs' (by omega) 0x20
  have hlength := length_splitOn 0x20 s
  have hpacked := packedSize_splitOn 0x20 s
  rw [htoken]
  simp only [length_packed]
  rw [if_neg (by omega)]
  obtain ⟨hat, hframe⟩ := initArgumentsLoop_spec p.1 0 q.1 hfields (by omega)
    (by omega) (by omega) (by omega) (by omega)
  rw [Nat.zero_add] at hat
  refine ⟨_, rfl, hkeeps.withMem _, hunused, hunused', hne, hat, fun x hx hx' hx'' => ?_⟩
  have hcut : (cutUp 0x20 s).length = s.length := List.length_map ..
  change store32 _ _ _ x = _
  rw [store32_outside _ _ (by omega), hframe x (by omega) (by omega), storeBytes_outside _ (by omega),
    hfill x (by omega) (by omega)]

/-- The pages of the stack are mapped to the 16 KiB at `stack`, whatever is on it. -/
def StackMapped (m : Mem) (page stack : ℕ) : Prop :=
  ∀ m' : Mem, (∀ x, x < stack ∨ stack + zhiosProgramStackSize ≤ x → m' x = m x) →
    ∀ v, zhiosProgramVirtualStackAddressEnd ≤ v → v < zhiosProgramVirtualStackAddressStart →
      pagingGetPhysicalAddress m' page v = stack + (v - zhiosProgramVirtualStackAddressEnd)

theorem StackMapped.write {m m' : Mem} {page stack : ℕ} (h : StackMapped m page stack)
    (hout : ∀ x, x < stack ∨ stack + zhiosProgramStackSize ≤ x → m' x = m x) : StackMapped m' page stack :=
  fun m'' hout' => h m'' fun x hx => (hout' x hx).trans (hout x hx)

/-- Each string lies below the one before it, the first one below `top`. -/
def StringsBelow (m : Mem) : (top : ℕ) → List (List UInt8) → Prop
  | _, [] => True
  | top, s :: strings => StringAt m (top - (s.length + 1)) s ∧ StringsBelow m (top - (s.length + 1)) strings

/-- Their addresses. -/
def packedBelow : (top : ℕ) → List (List UInt8) → List ℕ
  | _, [] => []
  | top, s :: strings => (top - (s.length + 1)) :: packedBelow (top - (s.length + 1)) strings

theorem StringsBelow.move {m m' : Mem} {top top' : ℕ} {strings : List (List UInt8)} (h : StringsBelow m top strings)
    (hroom : packedSize strings ≤ top) (hroom' : packedSize strings ≤ top')
    (hsame : ∀ k, 1 ≤ k → k ≤ packedSize strings → m' (top' - k) = m (top - k)) : StringsBelow m' top' strings := by
  induction strings generalizing top top' with
  | nil => trivial
  | cons s strings ih =>
    rw [packedSize_cons] at hroom hroom' hsame
    have hbytes : (s ++ [0]).length = s.length + 1 := List.length_append
    refine ⟨⟨fun o ho => ?_, h.1.noNull⟩, ih h.2 (by omega) (by omega) fun k hlo hhi => ?_⟩
    · have hbyte := hsame (s.length + 1 - o) (by omega) (by omega)
      rw [← h.1.bytes o ho, show top' - (s.length + 1) + o = top' - (s.length + 1 - o) by omega, hbyte]
      congr 1
      omega
    · have hbyte := hsame (s.length + 1 + k) (by omega) (by omega)
      rwa [← Nat.sub_sub top' (s.length + 1) k, ← Nat.sub_sub top (s.length + 1) k] at hbyte

theorem StringsBelow.stringAt {m : Mem} {top : ℕ} {strings : List (List UInt8)} (h : StringsBelow m top strings)
    {j : ℕ} (hj : j < strings.length) : StringAt m ((packedBelow top strings).getD j 0) (strings.getD j []) := by
  induction strings generalizing top j with
  | nil => exact absurd hj (Nat.not_lt_zero j)
  | cons s strings ih =>
    cases j with
    | zero => exact h.1
    | succ j => exact ih h.2 (Nat.lt_of_succ_lt_succ hj)

/-- The `n` bytes from `a` on, as cells of the stack. -/
def stackExtent (a n : ℕ) : Extent := ⟨(a : ℤ) - zhiosProgramVirtualStackAddressEnd, n⟩

/-- The cells of strings that lie below one another. -/
def belowExtents : (top : ℕ) → List (List UInt8) → List Extent
  | _, [] => []
  | top, s :: strings =>
    stackExtent (top - (s.length + 1)) (s.length + 1) :: belowExtents (top - (s.length + 1)) strings

theorem belowExtents_eq (top : ℕ) (strings : List (List UInt8)) :
    ((List.range strings.length).map fun i =>
      stackExtent ((packedBelow top strings).getD i 0) ((strings.getD i []).length + 1)) =
    belowExtents top strings := by
  induction strings generalizing top with
  | nil => rfl
  | cons s strings ih =>
    rw [List.length_cons, List.range_succ_eq_map, List.map_cons, List.map_map, belowExtents, ← ih]
    rfl

theorem layout_belowExtents (top : ℕ) (strings : List (List UInt8))
    (hroom : zhiosProgramVirtualStackAddressEnd + packedSize strings ≤ top)
    (htop : top ≤ zhiosProgramVirtualStackAddressStart) :
    Layout zhiosProgramStackSize (belowExtents top strings) ∧ ∀ e ∈ belowExtents top strings,
      (top : ℤ) - packedSize strings - zhiosProgramVirtualStackAddressEnd ≤ e.start ∧
        e.start + e.length ≤ top - zhiosProgramVirtualStackAddressEnd := by
  induction strings generalizing top with
  | nil => exact ⟨Layout.nil _, fun e he => absurd he List.not_mem_nil⟩
  | cons s strings ih =>
    rw [packedSize_cons] at hroom ⊢
    obtain ⟨hlayout, hbounds⟩ := ih (top - (s.length + 1)) (by omega) (by omega)
    rw [stackEnd_eq] at hroom hbounds ⊢
    rw [stackStart_eq] at htop
    rw [stackSize_eq] at hlayout ⊢
    rw [belowExtents, stackExtent, stackEnd_eq]
    refine ⟨hlayout.cons_apart (Nat.le_add_left 1 s.length) (by simp only; omega) fun f hf => Or.inr ?_,
      List.forall_mem_cons.mpr ⟨?_, ?_⟩⟩
    · have hbound := (hbounds f hf).2
      simp only
      omega
    · simp only
      omega
    · intro e he
      have hbound := hbounds e he
      omega

section
variable {m : Mem} {page params stack a i : ℕ} {strings : List (List UInt8)}

/-- The parameters and the strings from `a` on lie outside the stack. -/
structure StackApart (stack params a size : ℕ) : Prop where
  params : params + sizeofProcessParameters ≤ stack ∨ stack + zhiosProgramStackSize ≤ params
  strings : a + size ≤ stack ∨ stack + zhiosProgramStackSize ≤ a

theorem copyArguments_spec (fuel current : ℕ) (hstack : StackMapped m page stack)
    (hargs : ArgumentsAt m params i a strings) (hapart : StackApart stack params a (packedSize strings))
    (hcount : i + strings.length ≤ zhiosMaxProcessArguments) (hfuel : strings.length < fuel)
    (hroom : zhiosProgramVirtualStackAddressEnd + packedSize strings ≤ current)
    (hcurrent : current ≤ zhiosProgramVirtualStackAddressStart) :
    ∃ m', copyArguments page params fuel i current m = (current - packedSize strings, m') ∧
      (∀ x, x + packedSize strings < stack + (current - zhiosProgramVirtualStackAddressEnd) ∨
        stack + (current - zhiosProgramVirtualStackAddressEnd) ≤ x → m' x = m x) ∧
      StringsBelow m' (stack + (current - zhiosProgramVirtualStackAddressEnd)) strings := by
  induction strings generalizing m i a fuel current with
  | nil =>
    obtain ⟨fuel, rfl⟩ : ∃ f, fuel = f + 1 := ⟨fuel - 1, by omega⟩
    have hdone : load32 m params = i := hargs.count
    refine ⟨m, ?_, fun _ _ => rfl, trivial⟩
    rw [copyArguments, if_neg (by omega)]
    rfl
  | cons s strings ih =>
    obtain ⟨fuel, rfl⟩ : ∃ f, fuel = f + 1 := ⟨fuel - 1, by omega⟩
    obtain ⟨hpointer, hstring, hrest⟩ := hargs
    obtain ⟨hparams, hstrings⟩ := hapart
    rw [packedSize_cons] at hstrings hroom ⊢
    rw [List.length_cons] at hcount hfuel
    simp only [stackStart_eq, stackEnd_eq, stackSize_eq, sizeofProcessParameters, zhiosMaxProcessArguments] at *
    have hbytes : (s ++ [0]).length = s.length + 1 := List.length_append
    have haddress : uint32 ((current : ℤ) - s.length - 1) = current - (s.length + 1) := by
      unfold uint32
      omega
    have hphysical := hstack m (fun _ _ => rfl) (current - (s.length + 1)) (by simp only [stackEnd_eq]; omega)
      (by simp only [stackStart_eq]; omega)
    rw [stackEnd_eq] at hphysical
    have hlt : i < load32 m params := by
      have hcount := hrest.count
      omega
    set arg := stack + (current - (s.length + 1) - 0x3FB000) with harg
    have hcopied : memcpy a arg (s.length + 1) m = storeBytes m arg (s ++ [0]) := by
      rw [← hbytes]
      exact memcpy_eq hstring.bytes (by omega)
    set m₁ := storeBytes m arg (s ++ [0]) with hm₁
    have hout : ∀ x, x < arg ∨ arg + (s.length + 1) ≤ x → m₁ x = m x :=
      fun x hx => storeBytes_outside m (by rwa [hbytes])
    have hstack₁ : StackMapped m₁ page stack := by
      apply hstack.write
      rw [stackSize_eq]
      exact fun x hx => hout x (by omega)
    have hrest₁ : ArgumentsAt m₁ params (i + 1) (a + s.length + 1) strings :=
      hrest.congr (fun x hlo hhi => hout x (by omega)) fun x hlo hhi => hout x (by omega)
    obtain ⟨m₂, hrun, hframe, hbelow⟩ := ih fuel (current - (s.length + 1)) hstack₁ hrest₁
      ⟨hparams, by rw [stackSize_eq]; omega⟩ (by omega) (by omega) (by omega) (by omega)
    have htop : stack + (current - 0x3FB000) - (s.length + 1) = arg := by omega
    refine ⟨m₂, ?_, fun x hx => ?_, ⟨?_, hstring.noNull⟩, ?_⟩
    · rw [copyArguments, if_pos hlt]
      simp only [hpointer, hstring.strlen_eq (show s.length < 2 ^ 32 by omega), haddress, hphysical, hcopied]
      rw [hrun, show current - (s.length + 1) - packedSize strings = current - (s.length + 1 + packedSize strings) by
        omega]
    · rw [hframe x (by omega), hout x (by omega)]
    · rw [htop]
      exact (holds_storeBytes m arg (s ++ [0])).congr fun x hlo hhi => hframe x (by omega)
    · rw [htop]
      exact hbelow

theorem storeArgumentPointers_spec {argsPtr : ℕ} (fuel argStart : ℕ) (hargs : ArgumentsAt m params i a strings)
    (hparams : params + 4 + 4 * (i + strings.length) ≤ argsPtr + 4 * i ∨ argsPtr + 4 * (i + strings.length) ≤ params)
    (hstrings : a + packedSize strings ≤ argsPtr + 4 * i ∨ argsPtr + 4 * (i + strings.length) ≤ a)
    (hfuel : strings.length < fuel) (hroom : packedSize strings ≤ argStart) (hlt : argStart < 2 ^ 32) :
    (∀ x, x < argsPtr + 4 * i ∨ argsPtr + 4 * (i + strings.length) ≤ x →
        storeArgumentPointers params argsPtr fuel i argStart m x = m x) ∧
      ∀ j < strings.length, load32 (storeArgumentPointers params argsPtr fuel i argStart m) (argsPtr + 4 * (i + j)) =
        (packedBelow argStart strings).getD j 0 := by
  induction strings generalizing m i a fuel argStart with
  | nil =>
    obtain ⟨fuel, rfl⟩ : ∃ f, fuel = f + 1 := ⟨fuel - 1, by omega⟩
    have hdone : load32 m params = i := hargs.count
    rw [storeArgumentPointers, if_neg (by omega)]
    exact ⟨fun _ _ => rfl, fun j hj => absurd hj (Nat.not_lt_zero j)⟩
  | cons s strings ih =>
    obtain ⟨fuel, rfl⟩ : ∃ f, fuel = f + 1 := ⟨fuel - 1, by omega⟩
    obtain ⟨hpointer, hstring, hrest⟩ := hargs
    rw [packedSize_cons] at hstrings hroom
    rw [List.length_cons] at hparams hstrings hfuel ⊢
    have hcount := hrest.count
    have haddress : uint32 ((argStart : ℤ) - s.length - 1) = argStart - (s.length + 1) := by
      unfold uint32
      omega
    set m₁ := store32 m (argsPtr + 4 * i) (argStart - (s.length + 1)) with hm₁
    have hrest₁ : ArgumentsAt m₁ params (i + 1) (a + s.length + 1) strings :=
      hrest.congr (fun x hlo hhi => store32_outside m _ (by omega)) fun x hlo hhi => store32_outside m _ (by omega)
    have hstep : storeArgumentPointers params argsPtr (fuel + 1) i argStart m =
        storeArgumentPointers params argsPtr fuel (i + 1) (argStart - (s.length + 1)) m₁ := by
      rw [storeArgumentPointers, if_pos (by omega)]
      simp only [hpointer, hstring.strlen_eq (show s.length < 2 ^ 32 by omega), haddress, ← hm₁]
    obtain ⟨hframe, hwords⟩ := ih fuel (argStart - (s.length + 1)) hrest₁ (by omega) (by omega)
      (by omega) (by omega) (by omega)
    rw [hstep]
    refine ⟨fun x hx => ?_, fun j hj => ?_⟩
    · rw [hframe x (by omega), hm₁, store32_outside m _ (by omega)]
    · cases j with
      | zero =>
        rw [load32_congr fun x hlo hhi => hframe x (by omega), hm₁, Nat.add_zero i, load32_store32_same m _ (by omega)]
        rfl
      | succ j =>
        rw [packedBelow, List.getD_cons_succ, ← hwords j (by omega), show i + (j + 1) = i + 1 + j by omega]

/-- What the stack takes up: the strings, the pointers with their null, and two words. -/
def argumentsSize (strings : List (List UInt8)) : ℕ := packedSize strings + 4 * (strings.length + 1) + 8

/-- The stack at `stack` as `main` expects it, with `esp` at the count. -/
structure StackLaidOut (m : Mem) (stack esp : ℕ) (strings : List (List UInt8)) : Prop where
  argc : load32 m (stack + (esp - zhiosProgramVirtualStackAddressEnd)) = strings.length
  argv : load32 m (stack + (esp - zhiosProgramVirtualStackAddressEnd) + 4) = esp + 8
  pointers : ∀ j < strings.length, load32 m (stack + (esp - zhiosProgramVirtualStackAddressEnd) + 8 + 4 * j) =
    (packedBelow zhiosProgramVirtualStackAddressStart strings).getD j 0
  null : load32 m (stack + (esp - zhiosProgramVirtualStackAddressEnd) + 8 + 4 * strings.length) = 0
  stringsBelow : StringsBelow m (stack + zhiosProgramStackSize) strings

theorem processMapArgsToStack_spec (hstack : StackMapped m page stack) (hargs : ArgumentsAt m params 0 a strings)
    (hapart : StackApart stack params a (packedSize strings)) (hcount : strings.length ≤ zhiosMaxProcessArguments)
    (hroom : argumentsSize strings ≤ zhiosProgramStackSize) :
    ∃ m', processMapArgsToStack m page params =
        (zhiosProgramVirtualStackAddressStart - argumentsSize strings, m') ∧
      (∀ x, (x < stack ∨ stack + zhiosProgramStackSize ≤ x) →
        (x < params ∨ params + sizeofProcessParameters ≤ x) → m' x = m x) ∧
      StackLaidOut m' stack (zhiosProgramVirtualStackAddressStart - argumentsSize strings) strings := by
  have hparams := hapart.params
  have hstrings := hapart.strings
  have hsize : argumentsSize strings = packedSize strings + 4 * (strings.length + 1) + 8 := rfl
  have hbytes : sizeofProcessParameters = 408 := rfl
  have hmax : zhiosMaxProcessArguments = 100 := rfl
  rw [stackSize_eq] at hparams hstrings hroom
  obtain ⟨fuel, hfuel⟩ : ∃ f, f = 2 ^ 32 := ⟨2 ^ 32, rfl⟩
  obtain ⟨m₁, hcopy, hframe₁, hbelow⟩ := copyArguments_spec fuel
    zhiosProgramVirtualStackAddressStart hstack hargs hapart (by omega) (by omega)
    (by rw [stackStart_eq, stackEnd_eq]; omega) le_rfl
  rw [stackStart_eq, stackEnd_eq] at hframe₁ hbelow
  rw [stackStart_eq] at hcopy
  rw [stackStart_eq, stackSize_eq]
  have hstack₁ : StackMapped m₁ page stack := by
    apply hstack.write
    rw [stackSize_eq]
    exact fun x hx => hframe₁ x (by omega)
  have hargs₁ : ArgumentsAt m₁ params 0 a strings :=
    hargs.congr (fun x hlo hhi => hframe₁ x (by omega)) fun x hlo hhi => hframe₁ x (by omega)
  have hcount₁ : load32 m₁ params = strings.length := by
    rw [hargs₁.count, Nat.zero_add]
  -- the three addresses, and the one block they are translated into
  obtain ⟨esp, hesp⟩ : ∃ esp, esp = 0x3FF000 - argumentsSize strings := ⟨_, rfl⟩
  obtain ⟨q, hq⟩ : ∃ q, q = stack + (esp - 0x3FB000) := ⟨_, rfl⟩
  rw [← hesp]
  have hvirtual : uint32 (((0x3FF000 - packedSize strings : ℕ) : ℤ) - ((strings.length : ℤ) + 1) * 4) = esp + 8 := by
    unfold uint32
    omega
  have hargv : uint32 (((esp + 8 : ℕ) : ℤ) - 4) = esp + 4 := by
    unfold uint32
    omega
  have hargc : uint32 (((esp + 4 : ℕ) : ℤ) - 4) = esp := by
    unfold uint32
    omega
  have hphysical : ∀ o ≤ 8, pagingGetPhysicalAddress m₁ page (esp + o) = q + o := by
    intro o ho
    rw [hstack₁ m₁ (fun _ _ => rfl) (esp + o) (by rw [stackEnd_eq]; omega) (by rw [stackStart_eq]; omega), stackEnd_eq]
    omega
  have hq0 : pagingGetPhysicalAddress m₁ page esp = q := hphysical 0 (by omega)
  have hrun : processMapArgsToStack m page params = (esp,
      store32 (store32 (storeArgumentPointers params (q + 8) fuel 0 0x3FF000
        (store32 (store32 m₁ q strings.length) (q + 4) (esp + 8))) (q + 8 + 4 * load32
          (storeArgumentPointers params (q + 8) fuel 0 0x3FF000
            (store32 (store32 m₁ q strings.length) (q + 4) (esp + 8))) params) 0) (params + 404) esp) := by
    simp only [processMapArgsToStack, ← hfuel, stackStart_eq, hcopy, hcount₁, hvirtual, hargv, hargc, hq0,
      hphysical 4 (by omega), hphysical 8 (by omega)]
  -- what is written after the strings lies between `esp` and them
  set m₂ := store32 (store32 m₁ q strings.length) (q + 4) (esp + 8) with hm₂
  have hframe₂ : ∀ x, x < q ∨ q + 8 ≤ x → m₂ x = m₁ x := by
    intro x hx
    rw [hm₂, store32_outside _ _ (by omega), store32_outside _ _ (by omega)]
  have hargs₂ : ArgumentsAt m₂ params 0 a strings :=
    hargs₁.congr (fun x hlo hhi => hframe₂ x (by omega)) fun x hlo hhi => hframe₂ x (by omega)
  obtain ⟨hframe₃, hwords⟩ := storeArgumentPointers_spec fuel 0x3FF000 hargs₂
    (show params + 4 + 4 * (0 + strings.length) ≤ q + 8 + 4 * 0 ∨ q + 8 + 4 * (0 + strings.length) ≤ params by omega)
    (by omega) (by omega) (by omega) (by decide)
  set m₃ := storeArgumentPointers params (q + 8) fuel 0 0x3FF000 m₂ with hm₃
  have hcount₃ : load32 m₃ params = strings.length := by
    rw [load32_congr fun x hlo hhi => hframe₃ x (by omega), hargs₂.count, Nat.zero_add]
  rw [hcount₃] at hrun
  set m₄ := store32 m₃ (q + 8 + 4 * strings.length) 0 with hm₄
  refine ⟨_, hrun, fun x hx hx' => ?_, ⟨?_, ?_, fun j hj => ?_, ?_, ?_⟩⟩
  · rw [store32_outside _ _ (by omega), hm₄, store32_outside _ _ (by omega), hframe₃ x (by omega), hframe₂ x (by omega),
      hframe₁ x (by omega)]
  · rw [stackEnd_eq, ← hq, load32_store32_disjoint _ _ (by omega), hm₄, load32_store32_disjoint _ _ (by omega),
      load32_congr fun x hlo hhi => hframe₃ x (by omega), hm₂, load32_store32_disjoint _ _ (by omega),
      load32_store32_same _ _ (by omega)]
  · rw [stackEnd_eq, ← hq, load32_store32_disjoint _ _ (by omega), hm₄, load32_store32_disjoint _ _ (by omega),
      load32_congr fun x hlo hhi => hframe₃ x (by omega), hm₂, load32_store32_same _ _ (by omega)]
  · have hword := hwords j hj
    rw [Nat.zero_add] at hword
    rw [stackEnd_eq, ← hq, load32_store32_disjoint _ _ (by omega), hm₄, load32_store32_disjoint _ _ (by omega), hword,
      stackStart_eq]
  · rw [stackEnd_eq, ← hq, load32_store32_disjoint _ _ (by omega), hm₄, load32_store32_same _ _ (by decide)]
  · rw [stackSize_eq]
    apply hbelow.move (by omega) (by omega)
    intro k hlo hhi
    rw [store32_outside _ _ (by omega), hm₄, store32_outside _ _ (by omega), hframe₃ _ (by omega),
      hframe₂ _ (by omega)]

end

/-- Memory as a process sees it. -/
def virtualMem (m : Mem) (page : ℕ) : Mem := fun v => m (pagingGetPhysicalAddress m page v)

/-- The two words at `esp`, the pointers and the strings. -/
def argumentExtents (m : Mem) (esp : ℕ) (strings : List (List UInt8)) : List Extent :=
  stackExtent esp 4 :: stackExtent (esp + 4) 4 ::
    stackExtent (load32 m (esp + 4)) (4 * (strings.length + 1)) ::
    (List.range strings.length).map fun i =>
      stackExtent (load32 m (load32 m (esp + 4) + 4 * i)) ((strings.getD i []).length + 1)

/-- What `main` finds at `esp`, in the memory of its process, for the command `s`. -/
structure ArgumentsSeen (m : Mem) (esp : ℕ) (s : List UInt8) : Prop where
  argc : load32 m esp = s.count 0x20 + 1
  null : load32 m (load32 m (esp + 4) + 4 * (s.count 0x20 + 1)) = 0
  argument : ∀ i < s.count 0x20 + 1, StringAt m (load32 m (load32 m (esp + 4) + 4 * i)) ((s.splitOn 0x20).getD i [])
  layout : Layout zhiosProgramStackSize (argumentExtents m esp (s.splitOn 0x20))

theorem StackLaidOut.seen {m : Mem} {page stack : ℕ} {s : List UInt8} (hstack : StackMapped m page stack)
    (hroom : argumentsSize (s.splitOn 0x20) ≤ zhiosProgramStackSize)
    (h : StackLaidOut m stack (zhiosProgramVirtualStackAddressStart - argumentsSize (s.splitOn 0x20))
      (s.splitOn 0x20)) :
    ArgumentsSeen (virtualMem m page) (zhiosProgramVirtualStackAddressStart - argumentsSize (s.splitOn 0x20)) s := by
  have hlength := length_splitOn 0x20 s
  generalize hstrs : s.splitOn 0x20 = strings at *
  have hsize : argumentsSize strings = packedSize strings + 4 * (strings.length + 1) + 8 := rfl
  obtain ⟨hargc, hargv, hpointers, hnull, hstrings⟩ := h
  rw [stackSize_eq] at hroom hstrings
  rw [stackEnd_eq] at hargc hargv hpointers hnull
  rw [stackStart_eq] at hargc hargv hpointers hnull ⊢
  obtain ⟨esp, hesp⟩ : ∃ esp, esp = 0x3FF000 - argumentsSize strings := ⟨_, rfl⟩
  rw [← hesp] at hargc hargv hpointers hnull ⊢
  obtain ⟨q, hq⟩ : ∃ q, q = stack + (esp - 0x3FB000) := ⟨_, rfl⟩
  rw [← hq] at hargc hargv hpointers hnull
  have hbyte : ∀ o < argumentsSize strings, virtualMem m page (esp + o) = m (q + o) := by
    intro o ho
    rw [virtualMem, hstack m (fun _ _ => rfl) (esp + o) (by rw [stackEnd_eq]; omega) (by rw [stackStart_eq]; omega),
      stackEnd_eq, show stack + (esp + o - 0x3FB000) = q + o by omega]
  have hword : ∀ o, o + 4 ≤ argumentsSize strings → load32 (virtualMem m page) (esp + o) = load32 m (q + o) := by
    intro o ho
    apply load32_move
    intro k hk
    rw [Nat.add_assoc, hbyte (o + k) (by omega), Nat.add_assoc]
  have hargv' : load32 (virtualMem m page) (esp + 4) = esp + 8 := by
    rw [hword 4 (by omega), hargv]
  have hpointer : ∀ j < strings.length, load32 (virtualMem m page) (esp + 8 + 4 * j) =
      (packedBelow 0x3FF000 strings).getD j 0 := by
    intro j hj
    rw [Nat.add_assoc, hword _ (by omega), ← Nat.add_assoc, hpointers j hj]
  have hbelow : StringsBelow (virtualMem m page) 0x3FF000 strings := by
    apply hstrings.move (by omega) (by omega)
    intro k hlo hhi
    rw [show 0x3FF000 - k = esp + (argumentsSize strings - k) by omega, hbyte _ (by omega),
      show q + (argumentsSize strings - k) = stack + 0x4000 - k by omega]
  constructor
  · rw [← hlength, ← hargc]
    exact hword 0 (by omega)
  · rw [← hlength, hargv', Nat.add_assoc, hword _ (by omega), ← Nat.add_assoc, hnull]
  · intro i hi
    rw [← hlength] at hi
    rw [hargv', hpointer i hi, hstrs]
    exact hbelow.stringAt hi
  · have hextents : ((List.range strings.length).map fun i =>
        stackExtent (load32 (virtualMem m page) (load32 (virtualMem m page) (esp + 4) + 4 * i))
          ((strings.getD i []).length + 1)) = belowExtents 0x3FF000 strings := by
      rw [← belowExtents_eq]
      apply List.map_congr_left
      intro i hi
      rw [hargv', hpointer i (List.mem_range.mp hi)]
    obtain ⟨hlayout, hbounds⟩ := layout_belowExtents 0x3FF000 strings
      (by rw [stackEnd_eq]; omega) (by rw [stackStart_eq])
    rw [hstrs, argumentExtents, hextents, hargv']
    simp only [stackExtent, stackEnd_eq, stackSize_eq] at hlayout hbounds ⊢
    -- the pointers lie below the strings, and the two words below the pointers
    refine ((hlayout.cons_apart ?_ ?_ fun f hf => Or.inl ?_).cons_apart ?_ ?_ ?_).cons_apart ?_ ?_ ?_
    · simp only
      omega
    · simp only
      omega
    · have hbound := (hbounds f hf).1
      simp only
      omega
    · exact Nat.le_add_left 1 3
    · simp only
      omega
    · refine List.forall_mem_cons.mpr ⟨?_, fun f hf => ?_⟩
      · simp only
        omega
      · have hbound := (hbounds f hf).1
        simp only
        omega
    · exact Nat.le_add_left 1 3
    · simp only
      omega
    · refine List.forall_mem_cons.mpr ⟨?_, List.forall_mem_cons.mpr ⟨?_, fun f hf => ?_⟩⟩
      · simp only
        omega
      · simp only
        omega
      · have hbound := (hbounds f hf).1
        simp only
        omega

/-- The page tables map the stack onto the 16 KiB at `stack`, and do not lie in them. -/
structure StackPlaced (m : Mem) (page : ℕ) (c : Chunk) (F : ℕ → ℕ) (stack : ℕ) : Prop where
  chunkAt : ChunkAt m page c F
  block : ∀ a, c.IsBlock page a → a % 4096 = 0 ∧ a + 4096 ≤ 2 ^ 32
  mapped : ∀ P, zhiosProgramVirtualStackAddressEnd / 4096 ≤ P → P < zhiosProgramVirtualStackAddressStart / 4096 →
    F P &&& 0xfffff000 = stack + 4096 * (P - zhiosProgramVirtualStackAddressEnd / 4096)
  apart : ∀ a, c.IsBlock page a → a + 4096 ≤ stack ∨ stack + zhiosProgramStackSize ≤ a

theorem StackPlaced.congr {m m' : Mem} {page : ℕ} {c : Chunk} {F : ℕ → ℕ} {stack : ℕ}
    (h : StackPlaced m page c F stack) (hsame : ∀ a, c.IsBlock page a → ∀ x, a ≤ x → x < a + 4096 → m' x = m x) :
    StackPlaced m' page c F stack :=
  ⟨h.chunkAt.congr fun a ha _ _ => load32_congr fun x _ _ => hsame a ha x (by omega) (by omega), h.block, h.mapped,
    h.apart⟩

theorem StackPlaced.stackMapped {m : Mem} {page : ℕ} {c : Chunk} {F : ℕ → ℕ} {stack : ℕ}
    (h : StackPlaced m page c F stack) : StackMapped m page stack := by
  intro m' hout v hlo hhi
  have hat : ChunkAt m' page c F := by
    refine (h.congr fun a ha x hlo hhi => hout x ?_).chunkAt
    have hapart := h.apart a ha
    omega
  have hmapped := h.mapped (v / 4096) (Nat.div_le_div_right hlo) (by
    rw [stackStart_eq] at hhi ⊢
    omega)
  rw [stackStart_eq] at hhi
  rw [stackEnd_eq] at hlo hmapped ⊢
  rw [hat.pagingGetPhysicalAddress_eq h.block (by omega), hmapped]
  omega

/-- The arguments of a command of at most 99 characters reach `main`, whatever happened to
the rest of memory between copying them and laying out the stack. -/
theorem processArguments_seen (k : KMem) (hheap : k.Coherent) (args : ℕ) (s : List UInt8)
    (hargs : StringAt k.mem args s) (hlen : s.length ≤ 99) (hout : k.OutsideFree args (s.length + 1))
    (hparams : (kzalloc k sizeofProcessParameters).1 ≠ 0)
    (harguments : (kzalloc (kzalloc k sizeofProcessParameters).2 512).1 ≠ 0) :
    ∃ params arguments k', processInitArguments k args = some (params, k') ∧ k.Unused params ∧ k.Unused arguments ∧
      ∀ (m : Mem) (page : ℕ) (c : Chunk) (F : ℕ → ℕ) (stack : ℕ), StackPlaced m page c F stack →
        k.OutsideFree stack zhiosProgramStackSize → (∀ a, c.IsBlock page a → k.OutsideFree a 4096) →
        (∀ x, params ≤ x ∧ x < params + 4096 ∨ arguments ≤ x ∧ x < arguments + 4096 → m x = k'.mem x) →
        ArgumentsSeen (virtualMem (processMapArgsToStack m page params).2 page)
          (processMapArgsToStack m page params).1 s := by
  have hcount : s.count 0x20 ≤ s.length := List.count_le_length
  have hbytes : sizeofProcessParameters = 408 := rfl
  obtain ⟨k', hrun, hcopied⟩ := processInitArguments_spec hheap hargs (by omega)
    (by unfold zhiosMaxProcessArguments; omega) hout hparams harguments
  refine ⟨_, _, k', hrun, hcopied.paramsUnused, hcopied.argumentsUnused, ?_⟩
  intro m page c F stack hplaced hstack hchunk hkept
  have hlength := length_splitOn 0x20 s
  have hpacked := packedSize_splitOn 0x20 s
  have hat : ArgumentsAt m (kzalloc k sizeofProcessParameters).1 0
      (kzalloc (kzalloc k sizeofProcessParameters).2 512).1 (s.splitOn 0x20) :=
    hcopied.argumentsAt.congr (fun x hlo hhi => hkept x (by omega)) fun x hlo hhi => hkept x (by omega)
  have hroom : argumentsSize (s.splitOn 0x20) ≤ zhiosProgramStackSize := by
    rw [argumentsSize, stackSize_eq]
    omega
  have hapart : StackApart stack (kzalloc k sizeofProcessParameters).1
      (kzalloc (kzalloc k sizeofProcessParameters).2 512).1 (packedSize (s.splitOn 0x20)) := by
    have hone := hstack _ hcopied.paramsUnused
    have htwo := hstack _ hcopied.argumentsUnused
    constructor <;> omega
  obtain ⟨m', hmap, hframe, hlaid⟩ := processMapArgsToStack_spec hplaced.stackMapped hat hapart
    (by unfold zhiosMaxProcessArguments; omega) hroom
  rw [hmap]
  refine hlaid.seen (hplaced.congr fun a ha x hlo hhi => hframe x ?_ ?_).stackMapped hroom
  · have hapart := hplaced.apart a ha
    omega
  · have hone := hchunk a ha _ hcopied.paramsUnused
    omega

theorem ChunkAt.mapStack {m : Mem} {page : ℕ} {c : Chunk} {F : ℕ → ℕ} {stack : ℕ} (h : ChunkAt m page c F)
    (hs : c.Separate page) (hblock : ∀ a, c.IsBlock page a → a % 4096 = 0 ∧ a + 4096 ≤ 2 ^ 32)
    (haligned : stack % 4096 = 0) (hfits : stack + zhiosProgramStackSize ≤ 2 ^ 32)
    (hapart : ∀ a, c.IsBlock page a → a + 4096 ≤ stack ∨ stack + zhiosProgramStackSize ≤ a) :
    ∃ F', StackPlaced (mapPageRange m page zhiosProgramVirtualStackAddressEnd stack zhiosProgramStackSize
        (pagingIsPresent ||| pagingAccessFromAll ||| pagingIsWritable)).2 page c F' stack := by
  rw [stackSize_eq] at hfits
  have hint : int32 ((0x4000 : ℕ) : ℤ) = (0x4000 : ℕ) := int32_of_bounds (by decide) (by decide)
  have hpages : pagesFor 0x4000 = 5 := by decide
  have hmapped := h.mapFrames hs hblock (show 7 < 4096 by decide) 5 0x3FB000 stack (by decide) (by decide) (by omega)
    haligned (by decide)
  rw [stackEnd_eq, stackSize_eq, ← hint, mapPageRange_pages _ _ _ _ haligned (by decide), hpages]
  refine ⟨_, hmapped.2, hblock, fun P hlo hhi => ?_, hapart⟩
  rw [stackEnd_eq] at hlo ⊢
  rw [stackStart_eq] at hhi
  have hindex : pageIndex (0x3FB000 / 4096) P = P - 0x3FB := by
    unfold pageIndex
    omega
  rw [remapFrames, hindex, if_pos (by omega), or_and_page_mask (by omega) (by decide) (by omega)]
  omega

def twoWords : List UInt8 := [0x61, 0x20, 0x62]

/-- The command `a b` in memory below the heap, and a stack there too. -/
theorem processArguments_seen_twoWords : ∃ k params k' m page esp,
    StringAt k.mem 0x9000 twoWords ∧ processInitArguments k 0x9000 = some (params, k') ∧
      (processMapArgsToStack m page params).1 = esp ∧
      ArgumentsSeen (virtualMem (processMapArgsToStack m page params).2 page) esp twoWords := by
  have hempty : Layout.used ([] : List Extent) = 0 := rfl
  have hwf₀ := freshKernelHeap_wellFormed fun _ => 0
  obtain ⟨page, k₁, hnew, -, hfilled⟩ := pagingNewChunk_succeeds hwf₀ 5 (by rw [hempty, freshKernelHeap_total]; decide)
  obtain ⟨live, c, hc⟩ := pagingNewChunk_spec hwf₀ (by decide) hnew
  have hstart : k₁.heap.startAddress = heapAddress := hc.region.start_eq.trans freshKernelHeap_startAddress
  have hbelow : ∀ a, k₁.Unused a ∨ c.IsBlock page a → heapAddress ≤ a := by
    rintro a (⟨b, rfl, -⟩ | ha)
    · unfold KMem.blockAddress
      omega
    · obtain ⟨b, rfl, -⟩ := (hc.owned a ha).held hc.wellFormed
      unfold KMem.blockAddress
      omega
  have hheap : heapAddress = 0x1000000 := rfl
  obtain ⟨k, hk⟩ : ∃ k : KMem, k = { k₁ with mem := storeBytes k₁.mem 0x9000 (twoWords ++ [0]) } := ⟨_, rfl⟩
  have hcoherent : k.Coherent := hk ▸ hc.wellFormed.coherent.withMem _
  have hstring : StringAt k.mem 0x9000 twoWords := ⟨hk ▸ holds_storeBytes _ _ _, by decide⟩
  have hwf : k.WellFormed live := hk ▸ hc.wellFormed.withMem _
  have hfilled₁ : k.heap.Filled 1026 := by
    rw [hk]
    exact hfilled 0 freshKernelHeap_filled
  have htotal : k.heap.total = 25600 := by
    rw [hk]
    exact hc.region.total_eq.trans freshKernelHeap_total
  obtain ⟨p, k₂, live₂, hp, hpne, h₂, hfilled₂⟩ := hwf.serves_filled hfilled₁ (by omega) sizeofProcessParameters
    (by decide) (by decide)
  obtain ⟨q, k₃, live₃, hq, hqne, -⟩ := h₂.wellFormed.serves_filled hfilled₂ (by rw [h₂.region.total_eq]; omega) 512
    (by decide) (by decide)
  have hunused : ∀ a, k.Unused a → k₁.Unused a := fun a ha => by rwa [hk] at ha
  obtain ⟨params, arguments, k', hrun, hparams, harguments, hseen⟩ := processArguments_seen k hcoherent 0x9000 twoWords
    hstring (by decide) (fun a ha => by
      have hlow := hbelow a (Or.inl (hunused a ha))
      have hlen : twoWords.length = 3 := rfl
      omega) (by rwa [hp]) (by rwa [hp, hq])
  -- the stack is mapped behind what was copied
  have hheld : ∀ a, c.IsBlock page a → k.OutsideFree a 4096 := by
    intro a ha
    have houtside := ((hc.owned a ha).held hc.wellFormed).outsideFree
    exact fun b hb => houtside b (hunused b hb)
  have hblock : ∀ a, c.IsBlock page a → a % 4096 = 0 ∧ a + 4096 ≤ 2 ^ 32 :=
    fun a ha => ⟨(hc.owned a ha).aligned hc.wellFormed, (hc.owned a ha).lt hc.wellFormed⟩
  have hchunk : ChunkAt k.mem page c (identityMap 5) := by
    refine hc.chunkAt.congr fun a ha j hj => load32_congr fun x hlo hhi => ?_
    have hlow := hbelow a (Or.inr ha)
    have hlen : (twoWords ++ [0]).length = 4 := rfl
    rw [hk]
    exact storeBytes_outside _ (by omega)
  obtain ⟨F, hplaced⟩ := hchunk.mapStack hc.separate hblock (show 0x800000 % 4096 = 0 by decide) (by decide)
    fun a ha => by
    have hlow := hbelow a (Or.inr ha)
    rw [stackSize_eq]
    omega
  obtain ⟨m₀, hm₀⟩ : ∃ m₀, m₀ = (mapPageRange k.mem page zhiosProgramVirtualStackAddressEnd 0x800000
    zhiosProgramStackSize (pagingIsPresent ||| pagingAccessFromAll ||| pagingIsWritable)).2 := ⟨_, rfl⟩
  rw [← hm₀] at hplaced
  obtain ⟨m, hm⟩ : ∃ m : Mem, m = fun x =>
      if params ≤ x ∧ x < params + 4096 ∨ arguments ≤ x ∧ x < arguments + 4096 then k'.mem x else m₀ x := ⟨_, rfl⟩
  have hplaced' : StackPlaced m page c F 0x800000 := by
    refine hplaced.congr fun a ha x hlo hhi => ?_
    have hone := hheld a ha params hparams
    have htwo := hheld a ha arguments harguments
    rw [hm]
    exact if_neg (by omega)
  refine ⟨k, params, k', m, page, _, hstring, hrun, rfl, hseen m page c F 0x800000 hplaced' (fun b hb => ?_) hheld ?_⟩
  · have hlow := hbelow b (Or.inl (hunused b hb))
    rw [stackSize_eq]
    omega
  · intro x hx
    rw [hm]
    exact if_pos hx

end Zhios
