import Zhios.Lib.ObjectStrings
import Zhios.Fs.Path
import Zhios.Task.Arguments

/-! The buffers that a command of the shell passes through: `isr80h_load_process_command`
of `src/isr80h/process.c` and what `load_process` does with its strings. -/
namespace Zhios
open Machine

/-- The locals of `isr80h_load_process_command` and its literals, and what the loaded
process has: the block of its arguments and its file name. -/
inductive CommandText
  | buffer | path | copy | binDirectory | elfExtension | arguments | filename
  deriving DecidableEq

/-- The arrays of pointers to the fields of the command. -/
inductive CommandPointers
  | arguments | argsList | commandArguments
  deriving DecidableEq

/-- `buffer` and `copy` are taken with the byte behind them, where `copy_string_from_task`
puts the null of a string of a hundred characters. -/
def CommandText.size : CommandText → ℕ
  | buffer | copy => zhiosMaxPath + 1
  | path | filename => zhiosMaxPath
  | binDirectory => 8
  | elfExtension => 5
  | arguments => 512

def CommandPointers.size (_ : CommandPointers) : ℕ := zhiosMaxProcessArguments

structure CommandMemory where
  text : Objects CommandText.size UInt8
  pointers : Objects CommandPointers.size (Place CommandText)

namespace CommandMemory

/-- The loop of `process_init_arguments` for the last `fuel` of the fields. -/
def initArguments : (fuel i : ℕ) → (arguments : Place CommandText) → CommandMemory → Option CommandMemory
  | 0, _, _, s => some s
  | fuel + 1, i, arguments, s =>
    (s.pointers.load ⟨.argsList, i⟩).bind fun arg =>
      (strcpyIn s.text arg arguments).bind fun text =>
        (s.pointers.store ⟨.commandArguments, i⟩ arguments).bind fun pointers =>
          (strlenIn text arg).bind fun len =>
            initArguments fuel (i + 1) (arguments.step (len + 1)) ⟨text, pointers⟩

def processInitArguments (s : CommandMemory) (args : Place CommandText) : Option CommandMemory :=
  (strTokenIn s.text s.pointers args ⟨.argsList, 0⟩ 0x20).bind fun r =>
    initArguments r.1 0 ⟨.arguments, 0⟩ ⟨r.2.1, r.2.2⟩

/-- The strings of `load_process`, whose allocations are served. -/
def loadProcess (s : CommandMemory) (filename arguments : Place CommandText) : Option CommandMemory :=
  (s.processInitArguments arguments).bind fun s =>
    (strcpyIn s.text filename ⟨.filename, 0⟩).map fun text => { s with text := text }

/-- A copy of the command is cut up at the spaces. -/
def commandTokens (s : CommandMemory) : Option CommandMemory :=
  (strcpyIn s.text ⟨.buffer, 0⟩ ⟨.copy, 0⟩).bind fun text =>
    (strTokenIn text s.pointers ⟨.copy, 0⟩ ⟨.arguments, 0⟩ 0x20).map fun r => ⟨r.2.1, r.2.2⟩

/-- The path of the program that the command in `buffer` names. -/
def commandPath (s : CommandMemory) : Option CommandMemory :=
  s.commandTokens.bind fun s =>
    (s.pointers.load ⟨.arguments, 0⟩).bind fun first =>
      (strcatIn s.text ⟨.binDirectory, 0⟩ first ⟨.path, 0⟩).bind fun text =>
        (strcatIn text ⟨.path, 0⟩ ⟨.elfExtension, 0⟩ ⟨.path, 0⟩).map fun text => { s with text := text }

/-- `loads` tells whether there is a program at the path: without one `load_process` gives
up before it looks at the arguments. -/
def isr80hLoadProcessCommand (s : CommandMemory) (loads : Bool) : Option CommandMemory :=
  s.commandPath.bind fun s => if loads then s.loadProcess ⟨.path, 0⟩ ⟨.buffer, 0⟩ else some s

end CommandMemory

def binDirectory : List UInt8 := [0x30, 0x3A, 0x2F, 0x62, 0x69, 0x6E, 0x2F]

def elfExtension : List UInt8 := [0x2E, 0x65, 0x6C, 0x66]

def firstField (command : List UInt8) : List UInt8 := (command.splitOn 0x20).headD []

def programPath (command : List UInt8) : List UInt8 := binDirectory ++ firstField command ++ elfExtension

namespace CommandMemory

/-- The command has been copied from the task. -/
structure Delivered (s : CommandMemory) (command : List UInt8) : Prop where
  buffer : StringIn s.text ⟨.buffer, 0⟩ command
  binDirectory : StringIn s.text ⟨.binDirectory, 0⟩ binDirectory
  elfExtension : StringIn s.text ⟨.elfExtension, 0⟩ elfExtension

/-- No array is too small, whether or not there is a program: the path is complete, and so
is the file name of the process. -/
def Suffice (s : CommandMemory) (command : List UInt8) : Prop :=
  ∀ loads, ∃ s', s.isr80hLoadProcessCommand loads = some s' ∧
    StringIn s'.text ⟨.path, 0⟩ (programPath command) ∧
    (loads = true → StringIn s'.text ⟨.filename, 0⟩ (programPath command))

/-- What the path and the fields leave room for. -/
def Short (command : List UInt8) : Prop :=
  (firstField command).length ≤ 88 ∧ command.count 0x20 ≤ 99

variable {s : CommandMemory} {command : List UInt8}

/-- The tokens fit unless there are a hundred spaces. -/
theorem commandTokens_cases (h : s.Delivered command) :
    (99 < command.count 0x20 ∧ s.commandTokens = none) ∨
      (command.count 0x20 ≤ 99 ∧ ∃ s', s.commandTokens = some s' ∧
        s'.pointers.load ⟨.arguments, 0⟩ = some ⟨.copy, 0⟩ ∧ StringIn s'.text ⟨.copy, 0⟩ (firstField command) ∧
        ∀ o t, o ≠ .copy → StringIn s.text ⟨o, 0⟩ t → StringIn s'.text ⟨o, 0⟩ t) := by
  obtain ⟨field, fields, hsplit⟩ := splitOn_eq_cons 0x20 command
  have hcopied := h.buffer.strcpyIn_eq ⟨.copy, 0⟩ (by decide) (Nat.zero_le _)
  have hinside : 0 + command.length < CommandText.size .copy := h.buffer.inside
  rw [if_pos hinside] at hcopied
  have hcopy : StringIn (Objects.putAll ⟨.copy, 0⟩ (command ++ [0]) s.text) ⟨.copy, 0⟩ command :=
    StringIn.putAll _ h.buffer.noNull hinside
  have htoken := hcopy.strTokenIn_eq s.pointers ⟨.arguments, 0⟩ 0x20 (Nat.zero_le _)
  have hroom : CommandPointers.size .arguments = 100 := rfl
  rw [commandTokens, hcopied, Option.bind_some, htoken]
  simp only [hroom]
  by_cases hcount : command.count 0x20 ≤ 99
  · have hfields := hcopy.fields 0x20
    rw [hsplit] at hfields ⊢
    rw [if_pos (by omega)]
    refine Or.inr ⟨hcount, _, rfl, ?_, ?_, fun o t hne ht => ?_⟩
    · have hholds := Objects.holds_putAll (m := s.pointers) ⟨.arguments, 0⟩ (packedIn ⟨.copy, 0⟩ (field :: fields))
      rw [Objects.load_eq (by decide)]
      exact congrArg some hholds.1
    · rw [firstField, hsplit]
      exact hfields.1
    · exact (ht.elsewhere ⟨.copy, 0⟩ _ hne).elsewhere ⟨.copy, 0⟩ _ hne
  · rw [if_neg (by omega)]
    exact Or.inl ⟨by omega, rfl⟩

/-- The path is built if it fits and the pointers to the fields do. -/
theorem commandPath_cases (h : s.Delivered command) :
    (¬ Short command ∧ s.commandPath = none) ∨
      (Short command ∧ ∃ s', s.commandPath = some s' ∧ StringIn s'.text ⟨.path, 0⟩ (programPath command) ∧
        StringIn s'.text ⟨.buffer, 0⟩ command) := by
  rcases commandTokens_cases h with ⟨hcount, hnone⟩ | ⟨hcount, s₁, hsome, hload, hfirst, hkept⟩
  · refine Or.inl ⟨fun hshort => ?_, ?_⟩
    · have hspaces := hshort.2
      omega
    · rw [commandPath, hnone, Option.bind_none]
  have hbin := hkept _ _ (by decide) h.binDirectory
  have helf := hkept _ _ (by decide) h.elfExtension
  have hcat := hbin.strcatIn_eq hfirst ⟨.path, 0⟩ (by decide) (by decide) (Nat.zero_le _)
  rw [commandPath, hsome, Option.bind_some, hload, Option.bind_some, hcat]
  have hroom : CommandText.size .path = 100 := rfl
  have hlength : binDirectory.length = 7 := rfl
  simp only [hroom, hlength]
  by_cases hfits : 0 + (7 + (firstField command).length) < 100
  · have hpath : StringIn (Objects.putAll ⟨.path, 0⟩ (binDirectory ++ firstField command ++ [0]) s₁.text) ⟨.path, 0⟩
        (binDirectory ++ firstField command) := by
      refine StringIn.putAll _ ?_ ?_
      · rw [List.mem_append, not_or]
        exact ⟨by decide, hfirst.noNull⟩
      · rw [List.length_append, hlength]
        exact hfits
    have happend := hpath.strcatIn_self (helf.elsewhere ⟨.path, 0⟩ _ (by decide)) (by decide)
    have hlengths : (binDirectory ++ firstField command).length + elfExtension.length =
        (firstField command).length + 11 := by
      rw [List.length_append, hlength, show elfExtension.length = 4 from rfl]
      omega
    rw [if_pos hfits, Option.bind_some, happend]
    simp only [hroom, hlengths]
    by_cases hboth : (firstField command).length ≤ 88
    · rw [if_pos (by omega)]
      refine Or.inr ⟨⟨hboth, hcount⟩, _, rfl, hpath.append (by decide) ?_, ?_⟩
      · change 0 + _ + _ < 100
        omega
      · have hbuffer := (hkept _ _ (by decide) h.buffer).elsewhere ⟨.path, 0⟩
          (binDirectory ++ firstField command ++ [0]) (by decide)
        exact hbuffer.elsewhere _ _ (show CommandText.buffer ≠ CommandText.path by decide)
    · rw [if_neg (by omega)]
      exact Or.inl ⟨fun hshort => hboth hshort.1, rfl⟩
  · rw [if_neg hfits, Option.bind_none]
    refine Or.inl ⟨fun hshort => ?_, rfl⟩
    have hfield := hshort.1
    omega

/-- The arguments are copied where there is room for them and for the pointers to the
copies. -/
theorem initArguments_returns {fields : List (List UInt8)} {p arguments : Place CommandText} {i : ℕ}
    {s : CommandMemory} (hfields : StringsIn s.text p fields) (hne : p.object ≠ arguments.object)
    (htokens : s.pointers.Holds ⟨.argsList, i⟩ (packedIn p fields)) (hcount : i + fields.length ≤ 100)
    (hroom : arguments.offset + packedSize fields ≤ arguments.object.size) :
    ∃ s', initArguments fields.length i arguments s = some s' ∧
      ∀ q t, q.object ≠ arguments.object → StringIn s.text q t → StringIn s'.text q t := by
  induction fields generalizing p arguments i s with
  | nil => exact ⟨s, rfl, fun _ _ _ ht => ht⟩
  | cons field fields ih =>
    rw [packedSize_cons] at hroom
    rw [List.length_cons] at hcount ⊢
    have hload : s.pointers.load ⟨.argsList, i⟩ = some p := by
      rw [Objects.load_eq (show i < 100 by omega)]
      exact congrArg some htokens.1
    have hcopied := hfields.1.strcpyIn_eq arguments hne (by omega)
    rw [if_pos (by omega)] at hcopied
    have hkept := hfields.1.elsewhere arguments (field ++ [0]) hne
    have hstored : s.pointers.store ⟨.commandArguments, i⟩ arguments =
        some (s.pointers.put ⟨.commandArguments, i⟩ arguments) := Objects.store_eq (show i < 100 by omega) _
    rw [initArguments, hload, Option.bind_some, hcopied, Option.bind_some, hstored, Option.bind_some,
      hkept.strlenIn_eq, Option.bind_some]
    set s₁ : CommandMemory := ⟨Objects.putAll arguments (field ++ [0]) s.text,
      s.pointers.put ⟨.commandArguments, i⟩ arguments⟩ with hs₁
    have hrest : StringsIn s₁.text (p.step (field.length + 1)) fields :=
      hfields.2.congr fun q hq => Objects.cell_putAll_object fun heq => hne (hq.symm.trans heq)
    have hpointers : s₁.pointers.Holds ⟨.argsList, i + 1⟩ (packedIn (p.step (field.length + 1)) fields) :=
      htokens.2.congr fun j _ => Objects.cell_put_of_ne (by simp [Place.step]) _
    have hnext : (arguments.step (field.length + 1)).offset + packedSize fields ≤
        (arguments.step (field.length + 1)).object.size := by
      rw [Place.step_offset, Place.step_object]
      omega
    have hobject : (p.step (field.length + 1)).object ≠ (arguments.step (field.length + 1)).object := hne
    obtain ⟨s', hs', hsame⟩ := ih hrest hobject hpointers (by omega) hnext
    exact ⟨s', hs', fun q t hq ht => hsame q t hq (ht.elsewhere arguments _ hq)⟩

/-- As many pointers as the path left room for are enough for the arguments too. -/
theorem processInitArguments_returns (h : StringIn s.text ⟨.buffer, 0⟩ command) (hcount : command.count 0x20 ≤ 99) :
    ∃ s', s.processInitArguments ⟨.buffer, 0⟩ = some s' ∧
      ∀ q t, q.object ≠ .buffer → q.object ≠ .arguments → StringIn s.text q t → StringIn s'.text q t := by
  have htoken := h.strTokenIn_eq s.pointers ⟨.argsList, 0⟩ 0x20 (Nat.zero_le _)
  have hroom : CommandPointers.size .argsList = 100 := rfl
  have hinside : 0 + command.length < 101 := h.inside
  simp only [hroom] at htoken
  rw [if_pos (by omega)] at htoken
  have hpacked := packedSize_splitOn 0x20 command
  have hlength := length_splitOn 0x20 command
  rw [processInitArguments, htoken, Option.bind_some, ← hlength]
  have hholds := Objects.holds_putAll (m := s.pointers) ⟨.argsList, 0⟩ (packedIn ⟨.buffer, 0⟩ (command.splitOn 0x20))
  have harguments : 0 + packedSize (command.splitOn 0x20) ≤ CommandText.size .arguments := by
    change 0 + _ ≤ 512
    omega
  have hne : (⟨.buffer, 0⟩ : Place CommandText).object ≠ (⟨.arguments, 0⟩ : Place CommandText).object := by decide
  obtain ⟨s', hs', hsame⟩ := initArguments_returns (s := ⟨_, _⟩) (h.fields 0x20) hne hholds (by omega) harguments
  exact ⟨s', hs', fun q t hbuffer harguments ht => hsame q t harguments (ht.elsewhere ⟨.buffer, 0⟩ _ hbuffer)⟩

/-- The file name is as long as the path. -/
theorem loadProcess_returns (h : StringIn s.text ⟨.buffer, 0⟩ command) (hcount : command.count 0x20 ≤ 99)
    {path : List UInt8} (hpath : StringIn s.text ⟨.path, 0⟩ path) :
    ∃ s', s.loadProcess ⟨.path, 0⟩ ⟨.buffer, 0⟩ = some s' ∧ StringIn s'.text ⟨.path, 0⟩ path ∧
      StringIn s'.text ⟨.filename, 0⟩ path := by
  obtain ⟨s₁, hs₁, hsame⟩ := processInitArguments_returns h hcount
  have hpath₁ := hsame ⟨.path, 0⟩ path (by decide) (by decide) hpath
  have hcopied := hpath₁.strcpyIn_eq ⟨.filename, 0⟩ (by decide) (Nat.zero_le _)
  have hinside : 0 + path.length < CommandText.size .filename := hpath.inside
  rw [if_pos hinside] at hcopied
  rw [loadProcess, hs₁, Option.bind_some, hcopied]
  exact ⟨_, rfl, hpath₁.elsewhere ⟨.filename, 0⟩ _ (by decide), StringIn.putAll _ hpath.noNull hinside⟩

/-- What does not fit leaves an array. -/
theorem Suffice.short (h : s.Delivered command) (hsuffice : s.Suffice command) : Short command := by
  rcases commandPath_cases h with ⟨-, hnone⟩ | ⟨hshort, -⟩
  · obtain ⟨s', hs', -⟩ := hsuffice false
    rw [isr80hLoadProcessCommand, hnone, Option.bind_none] at hs'
    exact absurd hs'.symm (Option.some_ne_none s')
  · exact hshort

/-- The buffers suffice for the commands whose first field leaves room in the path for the
directory, the extension and the null, and whose fields are a hundred at most. -/
theorem isr80hLoadProcessCommand_suffice_iff (h : s.Delivered command) : s.Suffice command ↔ Short command := by
  refine ⟨Suffice.short h, fun hshort loads => ?_⟩
  rcases commandPath_cases h with ⟨hlong, -⟩ | ⟨-, s₁, hsome, hpath, hbuffer⟩
  · exact absurd hshort hlong
  rw [isr80hLoadProcessCommand, hsome, Option.bind_some]
  cases loads with
  | false => exact ⟨s₁, rfl, hpath, fun hloads => absurd hloads (by decide)⟩
  | true =>
    obtain ⟨s', hs', hpath', hfilename⟩ := loadProcess_returns hbuffer hshort.2 hpath
    exact ⟨s', hs', hpath', fun _ => hfilename⟩

/-- The memory before the call. -/
def literals : Objects CommandText.size UInt8 :=
  Objects.putAll ⟨.binDirectory, 0⟩ (Zhios.binDirectory ++ [0])
    (Objects.putAll ⟨.elfExtension, 0⟩ (Zhios.elfExtension ++ [0]) ⟨fun _ => 0⟩)

/-- The memory when `copy_string_from_task` has delivered a command. -/
def deliver (command : List UInt8) : CommandMemory :=
  ⟨Objects.putAll ⟨.buffer, 0⟩ (command ++ [0]) literals, ⟨fun _ => ⟨.buffer, 0⟩⟩⟩

theorem deliver_delivered (hnull : 0 ∉ command) (hlength : command.length ≤ zhiosMaxPath) :
    (deliver command).Delivered command := by
  have hbin : StringIn literals ⟨.binDirectory, 0⟩ Zhios.binDirectory := StringIn.putAll _ (by decide) (by decide)
  have helf : StringIn literals ⟨.elfExtension, 0⟩ Zhios.elfExtension := by
    refine StringIn.elsewhere ?_ _ _ (by decide)
    exact StringIn.putAll _ (by decide) (by decide)
  refine ⟨StringIn.putAll _ hnull ?_, hbin.elsewhere _ _ (by decide), helf.elsewhere _ _ (by decide)⟩
  change 0 + command.length < zhiosMaxPath + 1
  omega

theorem isr80hLoadProcessCommand_suffice_blank :
    (deliver [0x62, 0x6C, 0x61, 0x6E, 0x6B, 0x20, 0x61]).Suffice [0x62, 0x6C, 0x61, 0x6E, 0x6B, 0x20, 0x61] :=
  (isr80hLoadProcessCommand_suffice_iff (deliver_delivered (by decide) (by decide))).mpr (by
    unfold Short
    decide)

/-- A name of 89 characters, and a hundred spaces. -/
theorem isr80hLoadProcessCommand_overruns :
    ¬ (deliver (List.replicate 89 0x61)).Suffice (List.replicate 89 0x61) ∧
      ¬ (deliver (List.replicate 100 0x20)).Suffice (List.replicate 100 0x20) := by
  constructor
  · intro hsuffice
    have hshort := hsuffice.short (deliver_delivered (by decide) (by decide))
    have hfield : firstField (List.replicate 89 0x61) = List.replicate 89 0x61 := by
      rw [firstField, List.splitOn_eq_singleton (by decide), List.headD_cons]
    have hlength := hshort.1
    rw [hfield, List.length_replicate] at hlength
    exact absurd hlength (by decide)
  · intro hsuffice
    have hcount := (hsuffice.short (deliver_delivered (by decide) (by decide))).2
    rw [List.count_replicate_self] at hcount
    exact absurd hcount (by decide)

end CommandMemory

end Zhios
