import Zhios.Lib.ObjectStrings

/-! `arg_parse` of `syslib/src/command/argparser.c`, which makes a linked list of the fields
of a command. -/
namespace Zhios
open Machine

/-- The caller's command, the local copy of it, and the `argument` of each node. -/
inductive ArgText
  | command | temp | argument (i : ℕ)
  deriving DecidableEq

def ArgText.size (commandSize : ℕ) : ArgText → ℕ
  | command => commandSize
  | temp => 1024
  | argument _ => 512

def tokensSize (_ : Unit) : ℕ := 16

def sizeofCommandArgument : ℕ := 516

/-- The nodes are numbered in the array that `malloc` returns; a null pointer is no number. -/
structure ArgMemory (commandSize : ℕ) where
  text : Objects (ArgText.size commandSize) UInt8
  tokens : Objects tokensSize (Place ArgText)
  nodesSize : ℕ
  next : ℕ → Option ℕ

namespace ArgMemory
variable {commandSize : ℕ}

/-- A node lies inside the allocated array. -/
def Inside (s : ArgMemory commandSize) (i : ℕ) : Prop := sizeofCommandArgument * (i + 1) ≤ s.nodesSize

instance (s : ArgMemory commandSize) (i : ℕ) : Decidable (s.Inside i) := inferInstanceAs (Decidable (_ ≤ _))

/-- Zeroed memory for the nodes, as large as it was asked for. -/
def malloc (s : ArgMemory commandSize) (size : ℕ) : ArgMemory commandSize :=
  { s with
    text := ⟨fun p => match p.object with
      | .argument _ => 0
      | _ => s.text.cell p⟩
    nodesSize := size
    next := fun _ => none }

def linkFrom (next : ℕ → Option ℕ) (prev : Option ℕ) (current : ℕ) : ℕ → Option ℕ :=
  match prev with
  | some prev => Function.update next prev (some current)
  | none => next

/-- The loop over the last `fuel` tokens. -/
def argParseLoop : (fuel i current : ℕ) → (prev : Option ℕ) → ArgMemory commandSize → Option (ArgMemory commandSize)
  | 0, _, _, _, s => some s
  | fuel + 1, i, current, prev, s =>
    (s.tokens.load ⟨(), i⟩).bind fun token =>
      if s.Inside current then
        (strcpyIn s.text token ⟨.argument current, 0⟩).bind fun text =>
          argParseLoop fuel (i + 1) (current + 1) (some current)
            { s with text := text, next := linkFrom s.next prev current }
      else none

/-- The root of the list, and memory. -/
def argParse (s : ArgMemory commandSize) : Option (ℕ × ArgMemory commandSize) :=
  (strcpyIn s.text ⟨.command, 0⟩ ⟨.temp, 0⟩).bind fun text =>
    (strTokenIn text s.tokens ⟨.temp, 0⟩ ⟨(), 0⟩ 0x20).bind fun r =>
      (argParseLoop r.1 0 0 none
        (malloc { s with text := r.2.1, tokens := r.2.2 } (sizeofCommandArgument * r.1))).map fun s => (0, s)

/-- The list that begins with a node has these arguments and ends with a null pointer. -/
def LinkedFrom (s : ArgMemory commandSize) : Option ℕ → List (List UInt8) → Prop
  | none, [] => True
  | some i, field :: fields => s.Inside i ∧ StringIn s.text ⟨.argument i, 0⟩ field ∧ LinkedFrom s (s.next i) fields
  | _, _ => False

/-- `arg_parse` stays inside its arrays and returns the list of the fields. -/
def Splits (s : ArgMemory commandSize) (command : List UInt8) : Prop :=
  ∃ root s', s.argParse = some (root, s') ∧ LinkedFrom s' (some root) (command.splitOn 0x20)

/-- What the arrays leave room for. -/
def Fits (command : List UInt8) : Prop :=
  command.count 0x20 ≤ 15 ∧ ∀ field ∈ command.splitOn 0x20, field.length ≤ 511

instance (command : List UInt8) : Decidable (Fits command) := inferInstanceAs (Decidable (_ ∧ _))

/-- The node from which the fields are to be linked, if there is one. -/
def firstNode (i : ℕ) (fields : List (List UInt8)) : Option ℕ := if fields = [] then none else some i

variable {s : ArgMemory commandSize} {command : List UInt8} {fields : List (List UInt8)} {p : Place ArgText} {i : ℕ}
  {prev : Option ℕ}

/-- What the loop finds: the tokens, room for the nodes, and nothing behind the last node. -/
structure Ready (s : ArgMemory commandSize) (i : ℕ) (prev : Option ℕ) (p : Place ArgText)
    (fields : List (List UInt8)) : Prop where
  strings : StringsIn s.text p fields
  source : p.object = .temp
  tokens : s.tokens.Holds ⟨(), i⟩ (packedIn p fields)
  count : i + fields.length ≤ 16
  nodes : sizeofCommandArgument * (i + fields.length) ≤ s.nodesSize
  prev_lt : ∀ j, prev = some j → j < i
  clear : ∀ j, i ≤ j ∨ prev = some j → s.next j = none

/-- After the turn that stores a field. -/
structure Stored (s s₁ : ArgMemory commandSize) (i : ℕ) (prev : Option ℕ) (field : List UInt8) : Prop where
  argument : StringIn s₁.text ⟨.argument i, 0⟩ field
  nodesSize : s₁.nodesSize = s.nodesSize
  text : ∀ q : Place ArgText, q.object ≠ .argument i → s₁.text.cell q = s.text.cell q
  linked : ∀ j, prev = some j → s₁.next j = some i
  next : ∀ j, prev ≠ some j → s₁.next j = s.next j

theorem Ready.inside {field : List UInt8} (h : s.Ready i prev p (field :: fields)) : s.Inside i := by
  have hnodes := h.nodes
  rw [List.length_cons] at hnodes
  exact le_trans (Nat.mul_le_mul_left _ (by omega)) hnodes

theorem Ready.token {field : List UInt8} (h : s.Ready i prev p (field :: fields)) :
    s.tokens.load ⟨(), i⟩ = some p := by
  have hcount := h.count
  rw [List.length_cons] at hcount
  have hroom : i < tokensSize () := by
    change i < 16
    omega
  rw [Objects.load_eq hroom]
  exact congrArg some h.tokens.1

theorem linkFrom_prev {j : ℕ} (next : ℕ → Option ℕ) (hprev : prev = some j) (current : ℕ) :
    linkFrom next prev current j = some current := by
  rw [hprev]
  exact Function.update_self ..

theorem linkFrom_of_ne {j : ℕ} (next : ℕ → Option ℕ) (hprev : prev ≠ some j) (current : ℕ) :
    linkFrom next prev current j = next j := by
  cases prev with
  | none => rfl
  | some k => exact Function.update_of_ne (fun heq => hprev (congrArg some heq.symm)) ..

theorem Ready.strcpyIn_eq {field : List UInt8} (h : s.Ready i prev p (field :: fields)) :
    strcpyIn s.text p ⟨.argument i, 0⟩ =
      if field.length ≤ 511 then some (Objects.putAll ⟨.argument i, 0⟩ (field ++ [0]) s.text) else none := by
  have hne : p.object ≠ .argument i := by
    rw [h.source]
    exact nofun
  have hcopied := h.strings.1.strcpyIn_eq ⟨.argument i, 0⟩ hne (Nat.zero_le _)
  have hroom : ArgText.size commandSize (.argument i) = 512 := rfl
  simp only [hroom] at hcopied
  rw [hcopied]
  exact if_congr (by omega) rfl rfl

theorem Ready.overflows {field : List UInt8} (h : s.Ready i prev p (field :: fields)) (hlong : 511 < field.length)
    (fuel : ℕ) : argParseLoop (fuel + 1) i i prev s = none := by
  rw [argParseLoop, h.token, Option.bind_some, if_pos h.inside, h.strcpyIn_eq, if_neg (Nat.not_le.mpr hlong),
    Option.bind_none]

theorem Ready.turn {field : List UInt8} (h : s.Ready i prev p (field :: fields)) (hshort : field.length ≤ 511)
    (fuel : ℕ) : ∃ s₁, argParseLoop (fuel + 1) i i prev s = argParseLoop fuel (i + 1) (i + 1) (some i) s₁ ∧
      s.Stored s₁ i prev field ∧ s₁.Ready (i + 1) (some i) (p.step (field.length + 1)) fields := by
  have hne : p.object ≠ .argument i := by
    rw [h.source]
    exact nofun
  have hcount := h.count
  have hnodes := h.nodes
  rw [List.length_cons] at hcount hnodes
  have hother : ∀ q : Place ArgText, q.object ≠ .argument i →
      (Objects.putAll ⟨.argument i, 0⟩ (field ++ [0]) s.text).cell q = s.text.cell q := fun _ hq =>
    Objects.cell_putAll_object hq
  have hargument : StringIn (Objects.putAll ⟨.argument i, 0⟩ (field ++ [0]) s.text) ⟨.argument i, 0⟩ field := by
    refine StringIn.putAll _ h.strings.1.noNull ?_
    change 0 + field.length < 512
    omega
  have hstrings : StringsIn (Objects.putAll ⟨.argument i, 0⟩ (field ++ [0]) s.text) (p.step (field.length + 1))
      fields :=
    h.strings.2.congr fun q hq => hother q (hq.symm ▸ hne)
  have hstored : s.Stored ⟨Objects.putAll ⟨.argument i, 0⟩ (field ++ [0]) s.text, s.tokens, s.nodesSize,
      linkFrom s.next prev i⟩ i prev field :=
    ⟨hargument, rfl, hother, fun j hj => linkFrom_prev s.next hj i, fun j hj => linkFrom_of_ne s.next hj i⟩
  refine ⟨_, ?_, hstored, hstrings, h.source, h.tokens.2, by omega, ?_, ?_, ?_⟩
  · rw [argParseLoop, h.token, Option.bind_some, if_pos h.inside, h.strcpyIn_eq, if_pos hshort, Option.bind_some]
  · rwa [Nat.add_assoc, Nat.add_comm 1]
  · exact fun j hj => Option.some.inj hj ▸ Nat.lt_succ_self _
  · intro j hj
    -- The node before this one now has a successor, but it is in front of what is still to come.
    have hle : i ≤ j := by
      rcases hj with hle | heq
      · omega
      · exact (Option.some.inj heq).le
    have hprev : prev ≠ some j := fun heq => absurd (h.prev_lt j heq) (Nat.not_lt.mpr hle)
    rw [hstored.next j hprev]
    exact h.clear j (Or.inl hle)

/-- What the loop leaves. -/
structure Linked (s s' : ArgMemory commandSize) (i : ℕ) (prev : Option ℕ) (fields : List (List UInt8)) : Prop where
  nodesSize : s'.nodesSize = s.nodesSize
  list : LinkedFrom s' (firstNode i fields) fields
  linked : ∀ j, prev = some j → s'.next j = firstNode i fields
  next : ∀ j < i, prev ≠ some j → s'.next j = s.next j
  text : ∀ q : Place ArgText, (∀ j, i ≤ j → q.object ≠ .argument j) → s'.text.cell q = s.text.cell q

theorem Stored.linked_cons {s s₁ s' : ArgMemory commandSize} {field : List UInt8} (hstored : s.Stored s₁ i prev field)
    (hinside : s.Inside i) (hprev : ∀ j, prev = some j → j < i) (h : s₁.Linked s' (i + 1) (some i) fields) :
    s.Linked s' i prev (field :: fields) := by
  have hsize : s'.nodesSize = s.nodesSize := h.nodesSize.trans hstored.nodesSize
  refine ⟨hsize, ⟨?_, ?_, ?_⟩, ?_, ?_, ?_⟩
  · rw [Inside, hsize]
    exact hinside
  · refine hstored.argument.congr fun o _ => h.text _ fun j hj heq => ?_
    have hindex := ArgText.argument.inj heq
    omega
  · rw [h.linked i rfl]
    exact h.list
  · intro j hj
    have hlt := hprev j hj
    rw [h.next j (by omega) fun heq => absurd (Option.some.inj heq) (by omega), hstored.linked j hj]
    rfl
  · intro j hlt hj
    rw [h.next j (by omega) fun heq => absurd (Option.some.inj heq) (by omega), hstored.next j hj]
  · intro q hq
    rw [h.text q fun j hj => hq j (by omega), hstored.text q (hq i le_rfl)]

theorem Ready.loop (h : s.Ready i prev p fields) :
    ((∃ field ∈ fields, 511 < field.length) ∧ argParseLoop fields.length i i prev s = none) ∨
      ((∀ field ∈ fields, field.length ≤ 511) ∧
        ∃ s', argParseLoop fields.length i i prev s = some s' ∧ s.Linked s' i prev fields) := by
  induction fields generalizing s i prev p with
  | nil =>
    refine Or.inr ⟨fun _ hmem => absurd hmem List.not_mem_nil, s, rfl, rfl, trivial, ?_, fun _ _ _ => rfl,
      fun _ _ => rfl⟩
    exact fun j hj => h.clear j (Or.inr hj)
  | cons field fields ih =>
    by_cases hshort : field.length ≤ 511
    · obtain ⟨s₁, hturn, hstored, hready⟩ := h.turn hshort fields.length
      rw [List.length_cons, hturn]
      rcases ih hready with ⟨⟨long, hmem, hlong⟩, hnone⟩ | ⟨hall, s', hs', hlinked⟩
      · exact Or.inl ⟨⟨long, List.mem_cons_of_mem _ hmem, hlong⟩, hnone⟩
      · exact Or.inr ⟨List.forall_mem_cons.mpr ⟨hshort, hall⟩, s', hs', hstored.linked_cons h.inside h.prev_lt hlinked⟩
    · exact Or.inl ⟨⟨field, List.mem_cons_self, Nat.lt_of_not_le hshort⟩, h.overflows (Nat.lt_of_not_le hshort) _⟩

/-- Memory when the loop begins: the copy is cut up, and the nodes are allocated. -/
def loopStart (s : ArgMemory commandSize) (command : List UInt8) : ArgMemory commandSize :=
  malloc { s with
    text := Objects.putAll ⟨.temp, 0⟩ (cutUp 0x20 command) (Objects.putAll ⟨.temp, 0⟩ (command ++ [0]) s.text)
    tokens := Objects.putAll ⟨(), 0⟩ (packedIn ⟨.temp, 0⟩ (command.splitOn 0x20)) s.tokens }
    (sizeofCommandArgument * (command.count 0x20 + 1))

theorem stringIn_temp (m : Objects (ArgText.size commandSize) UInt8) (hnull : 0 ∉ command)
    (hlen : command.length < 1024) : StringIn (Objects.putAll ⟨.temp, 0⟩ (command ++ [0]) m) ⟨.temp, 0⟩ command := by
  refine StringIn.putAll _ hnull ?_
  change 0 + command.length < 1024
  omega

theorem argParse_eq (h : StringIn s.text ⟨.command, 0⟩ command) (hlen : command.length < 1024) :
    s.argParse =
      if command.count 0x20 ≤ 15 then
        (argParseLoop (command.splitOn 0x20).length 0 0 none (s.loopStart command)).map fun s => (0, s)
      else none := by
  have hcopied := h.strcpyIn_eq ⟨.temp, 0⟩ nofun (Nat.zero_le _)
  have hroom : ArgText.size commandSize .temp = 1024 := rfl
  have hcut := (stringIn_temp s.text h.noNull hlen).strTokenIn_eq s.tokens ⟨(), 0⟩ 0x20 (Nat.zero_le _)
  have htokens : tokensSize () = 16 := rfl
  have hfields : (command.splitOn 0x20).length = command.count 0x20 + 1 := length_splitOn ..
  simp only [hroom] at hcopied
  simp only [htokens] at hcut
  rw [if_pos (by omega)] at hcopied
  rw [argParse, hcopied, Option.bind_some, hcut, hfields]
  by_cases hfew : command.count 0x20 ≤ 15
  · rw [if_pos (by omega), if_pos hfew, Option.bind_some]
    rfl
  · rw [if_neg (by omega), if_neg hfew, Option.bind_none]

theorem ready_loopStart (hnull : 0 ∉ command) (hlen : command.length < 1024) (hfew : command.count 0x20 ≤ 15) :
    (s.loopStart command).Ready 0 none ⟨.temp, 0⟩ (command.splitOn 0x20) := by
  have hfields : (command.splitOn 0x20).length = command.count 0x20 + 1 := length_splitOn ..
  refine ⟨((stringIn_temp s.text hnull hlen).fields 0x20).congr ?_, rfl, Objects.holds_putAll .., by omega, ?_, nofun,
    fun _ _ => rfl⟩
  · rintro ⟨_, offset⟩ rfl
    rfl
  · rw [hfields, Nat.zero_add]
    rfl

theorem Fits.splits (hfits : Fits command) (h : StringIn s.text ⟨.command, 0⟩ command) (hlen : command.length < 1024) :
    s.Splits command := by
  rcases (ready_loopStart (s := s) h.noNull hlen hfits.1).loop with ⟨⟨long, hmem, hlong⟩, _⟩ | ⟨_, s', hs', hlinked⟩
  · exact absurd hlong (Nat.not_lt.mpr (hfits.2 long hmem))
  · have hlist := hlinked.list
    rw [firstNode, if_neg (List.splitOn_ne_nil _ _)] at hlist
    refine ⟨0, s', ?_, hlist⟩
    rw [argParse_eq h hlen, if_pos hfits.1, hs', Option.map_some]

theorem Splits.fits (hsplits : s.Splits command) (h : StringIn s.text ⟨.command, 0⟩ command)
    (hlen : command.length < 1024) : Fits command := by
  obtain ⟨root, s', hparse, _⟩ := hsplits
  rw [argParse_eq h hlen] at hparse
  by_cases hfew : command.count 0x20 ≤ 15
  · rw [if_pos hfew] at hparse
    rcases (ready_loopStart (s := s) h.noNull hlen hfew).loop with ⟨_, hnone⟩ | ⟨hshort, _⟩
    · rw [hnone, Option.map_none] at hparse
      exact absurd hparse nofun
    · exact ⟨hfew, hshort⟩
  · rw [if_neg hfew] at hparse
    exact absurd hparse nofun

/-- The arrays are what limits the commands that are split. -/
theorem argParse_splits_iff (h : StringIn s.text ⟨.command, 0⟩ command) (hlen : command.length < 1024) :
    s.Splits command ↔ Fits command :=
  ⟨fun hsplits => hsplits.fits h hlen, fun hfits => hfits.splits h hlen⟩

def typed (commandSize : ℕ) (command : List UInt8) : ArgMemory commandSize where
  text := Objects.putAll ⟨.command, 0⟩ (command ++ [0]) ⟨fun _ => 0⟩
  tokens := ⟨fun _ => ⟨.temp, 0⟩⟩
  nodesSize := 0
  next := fun _ => none

theorem stringIn_typed (hnull : 0 ∉ command) (hroom : command.length < commandSize) :
    StringIn (typed commandSize command).text ⟨.command, 0⟩ command := by
  refine StringIn.putAll _ hnull ?_
  change 0 + command.length < commandSize
  omega

theorem argParse_splits_ls :
    (typed 6 [0x6C, 0x73, 0x20, 0x20, 0x61]).Splits [0x6C, 0x73, 0x20, 0x20, 0x61] ↔
      Fits [0x6C, 0x73, 0x20, 0x20, 0x61] :=
  argParse_splits_iff (stringIn_typed (by decide) (by decide)) (by decide)

/-- Sixteen spaces, or one word of 512 letters. -/
theorem argParse_spaces_word :
    (¬ ∀ s : ArgMemory 17, StringIn s.text ⟨.command, 0⟩ (List.replicate 16 0x20) →
      s.Splits (List.replicate 16 0x20)) ∧
    (¬ ∀ s : ArgMemory 513, StringIn s.text ⟨.command, 0⟩ (List.replicate 512 0x78) →
      s.Splits (List.replicate 512 0x78)) := by
  constructor
  · intro hall
    have htyped : StringIn (typed 17 (List.replicate 16 0x20)).text ⟨.command, 0⟩ (List.replicate 16 0x20) :=
      stringIn_typed (by decide) (by decide)
    have hfits := (hall _ htyped).fits htyped (by decide)
    exact absurd hfits.1 (by decide)
  · intro hall
    have hword : ∀ c : UInt8, c ≠ 0x78 → c ∉ List.replicate 512 0x78 := fun c hne hmem =>
      hne (List.eq_of_mem_replicate hmem)
    have hlength : (List.replicate 512 (0x78 : UInt8)).length = 512 := List.length_replicate ..
    have htyped : StringIn (typed 513 (List.replicate 512 0x78)).text ⟨.command, 0⟩ (List.replicate 512 0x78) :=
      stringIn_typed (hword 0 (by decide)) (by omega)
    have hfields : (List.replicate 512 (0x78 : UInt8)).splitOn 0x20 = [List.replicate 512 0x78] :=
      List.splitOn_eq_singleton (hword 0x20 (by decide))
    have hfits := (hall _ htyped).fits htyped (by omega)
    have hshort := hfits.2 (List.replicate 512 0x78) (by rw [hfields]; exact List.mem_singleton_self _)
    omega

end ArgMemory

end Zhios
