import Zhios.Syslib.Itoa

/-! `printf` of `syslib/src/stdio/stdio.c`. What it emits is what it hands to `putchar` and
`print`. -/
namespace Zhios
open Machine

def percent : UInt8 := 0x25

/-- A variable argument: an `int`, or a pointer to characters. -/
inductive Argument (ι : Type*)
  | int (num : ℤ)
  | string (str : Place ι)

/-- Memory, the arguments that are still to come, what was emitted, and the places of the format
that were read. -/
structure Printing {ι : Type*} (size : ι → ℕ) where
  m : Objects size UInt8
  args : List (Argument ι)
  out : List UInt8
  reads : List (Place ι)

def charOf (num : ℤ) : UInt8 := UInt8.ofNat (num % 256).toNat

section Definitions
variable {ι : Type*} {size : ι → ℕ}

def Printing.emit (s : Printing size) (str : List UInt8) : Printing size := { s with out := s.out ++ str }

/-- `*p`, for a pointer into the format. -/
def Printing.read (s : Printing size) (p : Place ι) : Option (UInt8 × Printing size) :=
  (s.m.load p).map fun c => (c, { s with reads := p :: s.reads })

variable [DecidableEq ι] (text : ι)

/-- The switch over the character behind a '%'. -/
def printfSwitch (s : Printing size) (c : UInt8) : Option (Printing size) :=
  if c = 0x64 then
    match s.args with
    | .int ival :: args =>
      (itoa text ival s.m).bind fun r =>
        (cstringIn r.2 r.1).map fun str => { s with m := r.2, args := args }.emit str
    | _ => none
  else if c = 0x73 then
    match s.args with
    | .string sval :: args => (cstringIn s.m sval).map fun str => { s with args := args }.emit str
    | _ => none
  else if c = 0x63 then
    match s.args with
    | .int cval :: args => some ({ s with args := args }.emit [charOf cval])
    | _ => none
  else some (s.emit [c])

/-- The loop over the format. -/
def printfLoop : (fuel : ℕ) → (p : Place ι) → Printing size → Option (Printing size)
  | 0, _, _ => none
  | fuel + 1, p, s =>
    (s.read p).bind fun r =>
      if r.1 = 0 then some r.2
      else if r.1 ≠ percent then printfLoop fuel (p.step 1) (r.2.emit [r.1])
      else (r.2.read (p.step 1)).bind fun r => (printfSwitch text r.2 r.1).bind (printfLoop fuel (p.step 2))

def printf (fmt : Place ι) (args : List (Argument ι)) (m : Objects size UInt8) : Option (Printing size) :=
  printfLoop text (size fmt.object) fmt ⟨m, args, [], []⟩

end Definitions

/-- What a piece of a format asks for. -/
inductive Item (ι : Type*)
  | plain (c : UInt8)
  | int (num : ℤ)
  | string (str : Place ι)
  | char (num : ℤ)
  | dangling

/-- Some characters of a format with what they ask for. -/
structure Piece (ι : Type*) where
  spec : List UInt8
  item : Item ι

/-- The pieces of a format, with one argument of the right kind for each conversion. -/
inductive Pieces {ι : Type*} : List UInt8 → List (Argument ι) → List (Piece ι) → Prop
  | nil : Pieces [] [] []
  | plain {c : UInt8} {format : List UInt8} {args : List (Argument ι)} {pieces : List (Piece ι)} (hc : c ≠ percent)
      (rest : Pieces format args pieces) : Pieces (c :: format) args (⟨[c], .plain c⟩ :: pieces)
  | int {format : List UInt8} {args : List (Argument ι)} {pieces : List (Piece ι)} (num : ℤ)
      (rest : Pieces format args pieces) :
      Pieces (percent :: 0x64 :: format) (.int num :: args) (⟨[percent, 0x64], .int num⟩ :: pieces)
  | string {format : List UInt8} {args : List (Argument ι)} {pieces : List (Piece ι)} (str : Place ι)
      (rest : Pieces format args pieces) :
      Pieces (percent :: 0x73 :: format) (.string str :: args) (⟨[percent, 0x73], .string str⟩ :: pieces)
  | char {format : List UInt8} {args : List (Argument ι)} {pieces : List (Piece ι)} (num : ℤ)
      (rest : Pieces format args pieces) :
      Pieces (percent :: 0x63 :: format) (.int num :: args) (⟨[percent, 0x63], .char num⟩ :: pieces)
  | other {c : UInt8} {format : List UInt8} {args : List (Argument ι)} {pieces : List (Piece ι)}
      (hc : c ≠ 0x64 ∧ c ≠ 0x73 ∧ c ≠ 0x63) (rest : Pieces format args pieces) :
      Pieces (percent :: c :: format) args (⟨[percent, c], .plain c⟩ :: pieces)
  | dangling : Pieces [percent] [] [⟨[percent], .dangling⟩]

section Expansion
variable {ι : Type*} {size : ι → ℕ}

/-- An argument as it can be passed: an `int`, or a string. -/
def Argument.Valid (m : Objects size UInt8) : Argument ι → Prop
  | .int num => intMin ≤ num ∧ num < 2 ^ 31
  | .string str => ∃ s, StringIn m str s

/-- What a piece stands for, with the strings as they are in `m`. -/
def Piece.expand (m : Objects size UInt8) (piece : Piece ι) : List UInt8 :=
  match piece.item with
  | .plain c => [c]
  | .int num => decimal num
  | .string str => (cstringIn m str).getD []
  | .char num => [charOf num]
  | .dangling => []

variable [DecidableEq ι] (text : ι)

/-- A number at the end of the buffer that all numbers share. -/
def writeNumber (num : ℤ) (m : Objects size UInt8) : Objects size UInt8 :=
  Objects.putAll ⟨text, 11 - (decimal num).length⟩ (decimal num ++ [0]) m

/-- No part of the format and no string is changed by the numbers that are printed before it. -/
def Kept (m₀ : Objects size UInt8) : (p : Place ι) → List (Piece ι) → Objects size UInt8 → Prop
  | p, [], m => m.cell p = 0
  | p, piece :: pieces, m => m.Holds p piece.spec ∧
    match piece.item with
    | .int num => Kept m₀ (p.step piece.spec.length) pieces (writeNumber text num m)
    | .string str => cstringIn m str = cstringIn m₀ str ∧ Kept m₀ (p.step piece.spec.length) pieces m
    | _ => Kept m₀ (p.step piece.spec.length) pieces m

/-- The format does not end with a '%', no number is the smallest `int`, and nothing is lost in
the buffer of the numbers. -/
structure Printable (m₀ : Objects size UInt8) (p : Place ι) (pieces : List (Piece ι)) (m : Objects size UInt8) :
    Prop where
  complete : ∀ piece ∈ pieces, piece.item ≠ .dangling
  numbers : ∀ piece ∈ pieces, piece.item ≠ .int intMin
  kept : Kept text m₀ p pieces m

end Expansion

section Numbers
variable {ι : Type*} {size : ι → ℕ} {text : ι} {m₀ m : Objects size UInt8} {lo : ℕ} {p : Place ι} {s : List UInt8}

/-- From `lo` on, the buffer has numbers at its end. Nothing else has changed. -/
structure Numbered (text : ι) (m₀ m : Objects size UInt8) (lo : ℕ) : Prop where
  same : ∀ q : Place ι, ¬(q.object = text ∧ lo ≤ q.offset) → m.cell q = m₀.cell q
  digits : ∀ i, lo ≤ i → i < 11 → Numeric (m.cell ⟨text, i⟩)
  null : lo ≤ 11 → m.cell ⟨text, 11⟩ = 0

namespace Numbered

theorem refl (text : ι) (m : Objects size UInt8) : Numbered text m m 12 := by
  refine ⟨fun _ _ => rfl, fun i hlo hhi => ?_, fun hlo => ?_⟩ <;> omega

theorem putAll [DecidableEq ι] (h : Numbered text m₀ m lo) {loc : ℕ} (hend : loc + s.length = 11)
    (hs : ∀ c ∈ s, Numeric c) : Numbered text m₀ (Objects.putAll ⟨text, loc⟩ (s ++ [0]) m) (min lo loc) := by
  have hnew := Objects.holds_append.mp (Objects.holds_putAll (m := m) ⟨text, loc⟩ (s ++ [0]))
  refine ⟨fun q hq => ?_, fun i hlo hhi => ?_, fun _ => ?_⟩
  · rw [Objects.cell_putAll]
    · exact h.same q fun hold => hq ⟨hold.1, (min_le_left ..).trans hold.2⟩
    · rintro i - rfl
      exact hq ⟨rfl, (min_le_right ..).trans (Nat.le_add_right ..)⟩
  · by_cases hi : loc ≤ i
    · have hlt : i - loc < s.length := by omega
      have hcell := Objects.holds_iff.mp hnew.1 (i - loc) hlt
      rw [Place.step, Nat.add_sub_cancel' hi] at hcell
      rw [hcell]
      exact hs _ (List.getElem_mem hlt)
    · rw [Objects.cell_putAll]
      · exact h.digits i (by omega) hhi
      · intro j _ heq
        have hoffset := congrArg Place.offset heq
        simp only [Place.step_offset] at hoffset
        omega
  · have hcell := hnew.2.1
    rwa [Place.step, hend] at hcell

theorem tail (h : Numbered text m₀ m lo) (htext : size text = 12) (hchanged : p.object = text ∧ lo ≤ p.offset)
    (hhi : p.offset ≤ 11) : ∃ s, StringIn m p s ∧ p.offset + s.length = 11 ∧ ∀ c ∈ s, Numeric c := by
  obtain ⟨n, hn⟩ := Nat.exists_eq_add_of_le' hhi
  induction n generalizing p with
  | zero =>
    have hoffset : p.offset = 11 := by omega
    have hp : p = ⟨text, 11⟩ := Place.ext hchanged.1 hoffset
    have hnull : m.cell p = 0 := hp ▸ h.null (hchanged.2.trans hhi)
    have hinside : p.offset < size p.object := by
      rw [hchanged.1]
      omega
    exact ⟨[], ⟨⟨hnull, trivial⟩, List.not_mem_nil, hinside⟩, hoffset, fun c hc => absurd hc List.not_mem_nil⟩
  | succ n ih =>
    have hdigit : Numeric (m.cell p) := by
      have hp : p = ⟨text, p.offset⟩ := Place.ext hchanged.1 rfl
      rw [hp]
      exact h.digits p.offset hchanged.2 (by omega)
    have hnext : p.offset + 1 + n = 11 := by omega
    obtain ⟨s, hs, hend, hnumeric⟩ := @ih (p.step 1) ⟨hchanged.1, hchanged.2.trans (Nat.le_succ _)⟩
      (Nat.le.intro hnext) (by rw [Place.step_offset]; omega)
    refine ⟨m.cell p :: s, hs.cons rfl (fun heq => ?_), ?_, List.forall_mem_cons.mpr ⟨hdigit, hnumeric⟩⟩
    · rw [heq] at hdigit
      exact absurd hdigit (by decide)
    · rw [Place.step_offset] at hend
      rw [List.length_cons]
      omega

theorem string (h : Numbered text m₀ m lo) (htext : size text = 12) (hs : StringIn m₀ p s) :
    ∃ t, StringIn m p t ∧ s.length ≤ t.length := by
  have hinside := hs.inside
  induction s generalizing p with
  | nil =>
    by_cases hchanged : p.object = text ∧ lo ≤ p.offset
    · rw [hchanged.1, htext] at hinside
      obtain ⟨t, ht, -⟩ := h.tail htext hchanged (by omega)
      exact ⟨t, ht, Nat.zero_le _⟩
    · exact ⟨[], ⟨⟨(h.same p hchanged).trans hs.bytes.1, trivial⟩, List.not_mem_nil, hinside⟩, le_rfl⟩
  | cons c s ih =>
    by_cases hchanged : p.object = text ∧ lo ≤ p.offset
    · rw [hchanged.1, htext] at hinside
      obtain ⟨t, ht, hend, -⟩ := h.tail htext hchanged (by omega)
      exact ⟨t, ht, by omega⟩
    · obtain ⟨t, ht, hlength⟩ := ih hs.tail hs.tail.inside
      exact ⟨c :: t, ht.cons ((h.same p hchanged).trans hs.bytes.1) hs.load_head.2, Nat.succ_le_succ hlength⟩

end Numbered
end Numbers

section Loop
variable {ι : Type*} {size : ι → ℕ} {s s' : Printing size} {p : Place ι}

theorem Printing.read_eq (hinside : p.offset < size p.object) :
    s.read p = some (s.m.cell p, { s with reads := p :: s.reads }) := by
  rw [Printing.read, Objects.load_eq hinside]
  rfl

variable [DecidableEq ι] {text : ι} {fuel : ℕ}

theorem printfLoop_null (hinside : p.offset < size p.object) (hcell : s.m.cell p = 0) :
    printfLoop text (fuel + 1) p s = some { s with reads := p :: s.reads } := by
  rw [printfLoop, Printing.read_eq hinside, Option.bind_some]
  exact if_pos hcell

theorem printfLoop_char {c : UInt8} (hinside : p.offset < size p.object) (hcell : s.m.cell p = c) (hnull : c ≠ 0)
    (hc : c ≠ percent) :
    printfLoop text (fuel + 1) p s =
      printfLoop text fuel (p.step 1) { s with out := s.out ++ [c], reads := p :: s.reads } := by
  rw [printfLoop, Printing.read_eq hinside, Option.bind_some, hcell, if_neg hnull, if_pos hc]
  rfl

theorem printfLoop_percent {c : UInt8} (hinside : p.offset + 1 < size p.object) (hcell : s.m.cell p = percent)
    (hnext : s.m.cell (p.step 1) = c) :
    printfLoop text (fuel + 1) p s =
      (printfSwitch text { s with reads := p.step 1 :: p :: s.reads } c).bind (printfLoop text fuel (p.step 2)) := by
  have hhead : p.offset < size p.object := by omega
  have hnull : percent ≠ 0 := by decide
  rw [printfLoop, Printing.read_eq hhead, Option.bind_some, hcell, if_neg hnull, if_neg (not_not.mpr rfl),
    Printing.read_eq hinside, Option.bind_some, hnext]

theorem printfSwitch_other {c : UInt8} (hc : c ≠ 0x64 ∧ c ≠ 0x73 ∧ c ≠ 0x63) :
    printfSwitch text s c = some (s.emit [c]) := by
  rw [printfSwitch, if_neg hc.1, if_neg hc.2.1, if_neg hc.2.2]

theorem printfSwitch_reads {c : UInt8} (h : printfSwitch text s c = some s') : s'.reads = s.reads := by
  unfold printfSwitch at h
  split_ifs at h
  · split at h
    · obtain ⟨r, -, h⟩ := Option.bind_eq_some_iff.mp h
      obtain ⟨str, -, rfl⟩ := Option.map_eq_some_iff.mp h
      rfl
    · exact absurd h (Option.some_ne_none _).symm
  · split at h
    · obtain ⟨str, -, rfl⟩ := Option.map_eq_some_iff.mp h
      rfl
    · exact absurd h (Option.some_ne_none _).symm
  · split at h
    · obtain rfl := Option.some.inj h
      rfl
    · exact absurd h (Option.some_ne_none _).symm
  · obtain rfl := Option.some.inj h
    rfl

/-- What was read is not forgotten, and the first character is always read. -/
theorem printfLoop_reads (h : printfLoop text fuel p s = some s') : p ∈ s'.reads ∧ ∀ q ∈ s.reads, q ∈ s'.reads := by
  induction fuel generalizing p s with
  | zero => exact absurd h (Option.some_ne_none _).symm
  | succ fuel ih =>
    rw [printfLoop] at h
    obtain ⟨r, hread, h⟩ := Option.bind_eq_some_iff.mp h
    obtain ⟨c, -, rfl⟩ := Option.map_eq_some_iff.mp hread
    suffices hreads : ∀ q ∈ p :: s.reads, q ∈ s'.reads from
      ⟨hreads p List.mem_cons_self, fun q hq => hreads q (List.mem_cons_of_mem _ hq)⟩
    split_ifs at h
    · obtain rfl := Option.some.inj h
      exact fun q hq => hq
    · exact (ih h).2
    · obtain ⟨r, hread, h⟩ := Option.bind_eq_some_iff.mp h
      obtain ⟨c, -, rfl⟩ := Option.map_eq_some_iff.mp hread
      obtain ⟨t, hswitch, h⟩ := Option.bind_eq_some_iff.mp h
      intro q hq
      apply (ih h).2
      rw [printfSwitch_reads hswitch]
      exact List.mem_cons_of_mem _ hq

variable (text) in
/-- A format without a '%' is emitted as it is. -/
theorem printfLoop_plain {str : List UInt8} (h : StringIn s.m p str) (hplain : percent ∉ str)
    (hfuel : str.length < fuel) :
    ∃ reads, printfLoop text fuel p s = some { s with out := s.out ++ str, reads := reads } ∧
      p.step str.length ∈ reads := by
  induction str generalizing p s fuel with
  | nil =>
    obtain ⟨fuel, rfl⟩ : ∃ f, fuel = f + 1 := ⟨fuel - 1, by omega⟩
    refine ⟨p :: s.reads, ?_, List.mem_cons_self⟩
    rw [printfLoop_null h.inside h.bytes.1, List.append_nil]
  | cons c str ih =>
    obtain ⟨fuel, rfl⟩ : ∃ f, fuel = f + 1 := ⟨fuel - 1, by omega⟩
    rw [List.length_cons] at hfuel
    rw [List.mem_cons, not_or] at hplain
    have hinside := h.inside
    obtain ⟨reads, hrun, hmem⟩ := @ih { s with out := s.out ++ [c], reads := p :: s.reads } (p.step 1) fuel h.tail
      hplain.2 (Nat.lt_of_succ_lt_succ hfuel)
    refine ⟨reads, ?_, ?_⟩
    · rw [printfLoop_char (by omega) h.bytes.1 h.load_head.2 (Ne.symm hplain.1), hrun, List.append_assoc]
      rfl
    · rwa [Place.step_step, Nat.add_comm] at hmem

end Loop

/-- Pieces that are each as long as they should be, or longer, are right together only if each of them
is right. -/
theorem flatten_inj {α : Type*} {l l' : List (List α)} (h : List.Forall₂ (fun a b => a.length ≤ b.length) l l')
    (heq : l'.flatten = l.flatten) : l' = l := by
  have hlengths {l l' : List (List α)} (h : List.Forall₂ (fun a b => a.length ≤ b.length) l l') :
      l.flatten.length ≤ l'.flatten.length := by
    induction h with
    | nil => exact le_rfl
    | cons hab _ ih =>
      rw [List.flatten_cons, List.flatten_cons, List.length_append, List.length_append]
      exact Nat.add_le_add hab ih
  induction h with
  | nil => rfl
  | @cons a b l l' hab hrest ih =>
    have htotal := congrArg List.length heq
    have htail := hlengths hrest
    simp only [List.flatten_cons, List.length_append] at htotal
    obtain ⟨hhead, hflat⟩ := List.append_inj heq (by omega)
    rw [hhead, ih hflat]

section Printed
variable {ι : Type*} {size : ι → ℕ} [DecidableEq ι] {text : ι} {m₀ m m' : Objects size UInt8} {p : Place ι}
  {piece : Piece ι} {pieces : List (Piece ι)} {str out out' : List UInt8}

/-- What was emitted from a place of the format on: for each piece at least as much as it stands for,
and just that only if nothing goes wrong. -/
def Printed (text : ι) (m₀ : Objects size UInt8) (p : Place ι) (pieces : List (Piece ι)) (m : Objects size UInt8)
    (out out' : List UInt8) : Prop :=
  ∃ emitted, out' = out ++ emitted.flatten ∧
    List.Forall₂ (fun a b => a.length ≤ b.length) (pieces.map (Piece.expand m₀) ++ [[]]) emitted ∧
      (emitted = pieces.map (Piece.expand m₀) ++ [[]] → Printable text m₀ p pieces m)

theorem Printed.nil (hend : m.cell p = 0) (out : List UInt8) : Printed text m₀ p [] m out out := by
  refine ⟨[[]], (List.append_nil _).symm, List.Forall₂.cons le_rfl List.Forall₂.nil, fun _ => ⟨?_, ?_, hend⟩⟩
  · exact fun piece hmem => absurd hmem List.not_mem_nil
  · exact fun piece hmem => absurd hmem List.not_mem_nil

theorem Printed.cons (h : Printed text m₀ (p.step piece.spec.length) pieces m' (out ++ str) out')
    (hlength : (piece.expand m₀).length ≤ str.length)
    (hpiece : str = piece.expand m₀ → Printable text m₀ (p.step piece.spec.length) pieces m' →
      Printable text m₀ p (piece :: pieces) m) :
    Printed text m₀ p (piece :: pieces) m out out' := by
  obtain ⟨emitted, hout, hlengths, hright⟩ := h
  refine ⟨str :: emitted, ?_, List.Forall₂.cons hlength hlengths, fun heq => ?_⟩
  · rw [hout, List.flatten_cons, List.append_assoc]
  · obtain ⟨hstr, hrest⟩ := List.cons_eq_cons.mp heq
    exact hpiece hstr (hright hrest)

theorem Printed.printable (h : Printed text m₀ p pieces m out out')
    (hout : out' = out ++ pieces.flatMap (Piece.expand m₀)) : Printable text m₀ p pieces m := by
  obtain ⟨emitted, hemitted, hlengths, hright⟩ := h
  refine hright (flatten_inj hlengths ?_)
  rw [List.flatten_append, ← List.flatMap_def, List.flatten_singleton, List.append_nil]
  exact List.append_cancel_left (hemitted.symm.trans hout)

theorem Printable.tail (h : Printable text m₀ p (piece :: pieces) m)
    (hkept : Kept text m₀ (p.step piece.spec.length) pieces m') :
    Printable text m₀ (p.step piece.spec.length) pieces m' :=
  ⟨fun piece hmem => h.complete piece (List.mem_cons_of_mem _ hmem),
    fun piece hmem => h.numbers piece (List.mem_cons_of_mem _ hmem), hkept⟩

theorem Printable.cons (h : Printable text m₀ (p.step piece.spec.length) pieces m')
    (hcomplete : piece.item ≠ .dangling) (hnumber : piece.item ≠ .int intMin)
    (hkept : Kept text m₀ p (piece :: pieces) m) : Printable text m₀ p (piece :: pieces) m :=
  ⟨List.forall_mem_cons.mpr ⟨hcomplete, h.complete⟩, List.forall_mem_cons.mpr ⟨hnumber, h.numbers⟩, hkept⟩

end Printed

section Runs
variable {ι : Type*} {size : ι → ℕ} {text : ι} {m₀ m : Objects size UInt8} {p : Place ι} {lo fuel : ℕ}
  {format tail out : List UInt8} {args : List (Argument ι)} {pieces : List (Piece ι)} {reads : List (Place ι)}
  {s : Printing size}

theorem StringIn.expand_eq (h : StringIn m p tail) (spec : List UInt8) : Piece.expand m ⟨spec, .string p⟩ = tail := by
  simp only [Piece.expand, h.cstringIn_eq, Option.getD_some]

theorem step_room {n : ℕ} (h : size p.object ≤ p.offset + (fuel + 1)) (hn : 1 ≤ n) :
    size (p.step n).object ≤ (p.step n).offset + fuel := by
  rw [Place.step_object, Place.step_offset]
  omega

theorem step_end (p : Place ι) (spec format : List UInt8) :
    (p.step spec.length).offset + format.length = p.offset + (spec ++ format).length := by
  rw [Place.step_offset, List.length_append, Nat.add_assoc]

theorem reads_conversion {c : UInt8} {bound : ℕ} (hbound : p.offset + (percent :: c :: format).length = bound)
    (hreads : ∀ q ∈ reads, q.offset ≤ bound) : ∀ q ∈ p.step 1 :: p :: reads, q.offset ≤ bound := by
  rw [List.length_cons, List.length_cons] at hbound
  refine List.forall_mem_cons.mpr ⟨?_, List.forall_mem_cons.mpr ⟨by omega, hreads⟩⟩
  rw [Place.step_offset]
  omega

theorem StringIn.held {c : UInt8} (hfmt : StringIn m₀ p (percent :: c :: format))
    (hsame : ∀ q : Place ι, q.object ≠ text → m.cell q = m₀.cell q) (hp : p.object ≠ text) :
    m.Holds p [percent, c] :=
  ⟨(hsame p hp).trans hfmt.bytes.1, (hsame (p.step 1) hp).trans hfmt.bytes.2.1, trivial⟩

variable [DecidableEq ι]

/-- Characters that replace as many characters of the format and come out as they are. -/
theorem Pieces.printed_tail (h : Pieces format args pieces) (hargs : args = []) (hlength : tail.length = format.length)
    (hheld : m.Holds p (tail ++ [0])) (out : List UInt8) : Printed text m₀ p pieces m out (out ++ tail) := by
  induction h generalizing p tail out with
  | nil =>
    obtain rfl := List.length_eq_zero_iff.mp hlength
    rw [List.append_nil]
    exact Printed.nil hheld.1 out
  | @plain c _ _ _ _ _ ih =>
    obtain ⟨d, tail, rfl⟩ := List.exists_cons_of_length_eq_add_one hlength
    rw [List.append_cons]
    refine Printed.cons (ih hargs (Nat.succ.inj hlength) hheld.2 (out ++ [d])) le_rfl fun heq hrest => ?_
    exact hrest.cons nofun nofun ⟨⟨hheld.1.trans (List.singleton_inj.mp heq), trivial⟩, hrest.kept⟩
  | int | string | char => exact absurd hargs (List.cons_ne_nil _ _)
  | @other c _ _ _ _ _ ih =>
    obtain ⟨d, tail, rfl⟩ := List.exists_cons_of_length_eq_add_one hlength
    obtain ⟨e, tail, rfl⟩ := List.exists_cons_of_length_eq_add_one (Nat.succ.inj hlength)
    rw [show out ++ d :: e :: tail = out ++ [d, e] ++ tail by simp]
    refine Printed.cons (ih hargs (Nat.succ.inj (Nat.succ.inj hlength)) hheld.2.2 (out ++ [d, e])) (Nat.le_succ 1)
      fun heq => ?_
    exact absurd (List.cons_eq_cons.mp heq).2 (List.cons_ne_nil _ _)
  | dangling =>
    obtain ⟨d, tail, rfl⟩ := List.exists_cons_of_length_eq_add_one hlength
    obtain rfl := List.length_eq_zero_iff.mp (Nat.succ.inj hlength)
    refine Printed.cons (Printed.nil hheld.2.1 (out ++ [d])) (Nat.zero_le _) fun heq => ?_
    exact absurd heq (List.cons_ne_nil _ _)

theorem Pieces.printed_changed (h : Pieces format args pieces) (htext : size text = 12) (hfmt : StringIn m₀ p format)
    (hnum : Numbered text m₀ m lo) (hchanged : p.object = text ∧ lo ≤ p.offset)
    (hfuel : size p.object ≤ p.offset + fuel)
    (hrun : printfLoop text fuel p ⟨m, args, out, reads⟩ = some s) (hargs : s.args = [])
    (hreads : ∀ q ∈ s.reads, q.offset ≤ p.offset + format.length) : Printed text m₀ p pieces m out s.out := by
  have hinside := hfmt.inside
  rw [hchanged.1, htext] at hinside hfuel
  obtain ⟨tail, htail, hend, hnumeric⟩ := hnum.tail htext hchanged (by omega)
  have hplain : percent ∉ tail := fun hmem => absurd (hnumeric _ hmem) (by decide)
  obtain ⟨reads', heq, hlast⟩ := printfLoop_plain text (s := ⟨m, args, out, reads⟩) htail hplain
    (by omega : tail.length < fuel)
  rw [heq] at hrun
  obtain rfl := Option.some.inj hrun
  have hnull := hreads _ hlast
  rw [Place.step_offset] at hnull
  exact h.printed_tail hargs (by omega) htail.bytes out

/-- Behind the last '%' in front of the changed part of the buffer, no argument is taken. -/
theorem args_of_changed (htext : size text = 12) (hnum : Numbered text m₀ m lo) (hpercent : m.cell p = percent)
    (hchanged : (p.step 1).object = text ∧ lo ≤ (p.step 1).offset) (hinside : p.offset + 1 < 11)
    (hfuel : size p.object ≤ p.offset + fuel) (hrun : printfLoop text fuel p ⟨m, args, out, reads⟩ = some s) :
    s.args = args := by
  have hobject : size p.object = 12 := (congrArg size hchanged.1).trans htext
  obtain ⟨fuel, rfl⟩ : ∃ f, fuel = f + 1 := ⟨fuel - 1, by omega⟩
  obtain ⟨tail, htail, hend, hnumeric⟩ := hnum.tail htext hchanged hinside.le
  rw [Place.step_offset] at hend
  cases tail with
  | nil =>
    rw [List.length_nil] at hend
    omega
  | cons c tail =>
    obtain ⟨hc, hrest⟩ := List.forall_mem_cons.mp hnumeric
    have hother : c ≠ 0x64 ∧ c ≠ 0x73 ∧ c ≠ 0x63 := by
      refine ⟨?_, ?_, ?_⟩ <;> rintro rfl <;> exact absurd hc (by decide)
    have hplain : percent ∉ tail := fun hmem => absurd (hrest _ hmem) (by decide)
    rw [List.length_cons] at hend
    have hnext : StringIn m (p.step 2) tail := htail.tail
    rw [printfLoop_percent (by omega) hpercent htail.bytes.1, printfSwitch_other hother, Option.bind_some] at hrun
    obtain ⟨reads', heq, -⟩ := printfLoop_plain text
      (s := Printing.emit ⟨m, args, out, p.step 1 :: p :: reads⟩ [c]) hnext hplain (by omega : tail.length < fuel)
    rw [heq] at hrun
    obtain rfl := Option.some.inj hrun
    rfl

/-- A conversion takes its argument only if it is read as it was written. -/
theorem printfLoop_conversion {c : UInt8} {arg : Argument ι} {m' : Objects size UInt8} {str : List UInt8}
    (htext : size text = 12) (hnum : Numbered text m₀ m lo) (hfmt : StringIn m₀ p (percent :: c :: format))
    (hsame : ¬(p.object = text ∧ lo ≤ p.offset)) (hfuel : size p.object ≤ p.offset + fuel)
    (hrun : printfLoop text fuel p ⟨m, arg :: args, out, reads⟩ = some s) (hargs : s.args = [])
    (hswitch : ∀ reads, printfSwitch text ⟨m, arg :: args, out, reads⟩ c = some ⟨m', args, out ++ str, reads⟩) :
    m.Holds p [percent, c] ∧ ∃ fuel reads, size (p.step 2).object ≤ (p.step 2).offset + fuel ∧
      printfLoop text fuel (p.step 2) ⟨m', args, out ++ str, reads⟩ = some s := by
  have hpercent := (hnum.same p hsame).trans hfmt.bytes.1
  have hinside := hfmt.tail.inside
  rw [Place.step_offset, Place.step_object, List.length_cons] at hinside
  have hcell : m.cell (p.step 1) = c := by
    by_cases hchanged : (p.step 1).object = text ∧ lo ≤ (p.step 1).offset
    · rw [show p.object = text from hchanged.1, htext] at hinside
      rw [args_of_changed htext hnum hpercent hchanged (by omega) hfuel hrun] at hargs
      exact absurd hargs (List.cons_ne_nil _ _)
    · exact (hnum.same _ hchanged).trans hfmt.tail.bytes.1
  obtain ⟨fuel, rfl⟩ : ∃ f, fuel = f + 1 := ⟨fuel - 1, by omega⟩
  rw [printfLoop_percent (by omega) hpercent hcell] at hrun
  rw [hswitch, Option.bind_some] at hrun
  exact ⟨⟨hpercent, hcell, trivial⟩, fuel, _, step_room hfuel one_le_two, hrun⟩

theorem length_itoa_step {num : ℤ} (hlo : intMin ≤ num) (hhi : num < 2 ^ 31) :
    11 - (decimal num).length + (itoaNumeral num).length = 11 := by
  have hlength := length_decimal hlo hhi
  rw [length_itoaNumeral]
  omega

theorem printfSwitch_int {num : ℤ} (hlo : intMin ≤ num) (hhi : num < 2 ^ 31) (htext : size text = 12) :
    printfSwitch text ⟨m, .int num :: args, out, reads⟩ 0x64 =
      some ⟨Objects.putAll ⟨text, 11 - (decimal num).length⟩ (itoaNumeral num ++ [0]) m, args, out ++ itoaNumeral num,
        reads⟩ := by
  have hend := length_itoa_step hlo hhi
  have hinside : 11 - (decimal num).length + (itoaNumeral num).length < size text := by omega
  have hstr := StringIn.putAll m (p := ⟨text, 11 - (decimal num).length⟩) (zero_notMem_itoaNumeral num) hinside
  simp only [printfSwitch, if_true, itoa_eq hlo hhi htext, Option.bind_some, hstr.cstringIn_eq, Option.map_some,
    Printing.emit]

theorem printfSwitch_string {str : Place ι} {t : List UInt8} (hstr : cstringIn m str = some t) :
    printfSwitch text ⟨m, .string str :: args, out, reads⟩ 0x73 = some ⟨m, args, out ++ t, reads⟩ := by
  rw [printfSwitch, if_neg (by decide), if_pos rfl]
  simp only [hstr, Option.map_some, Printing.emit]

theorem printfSwitch_char (num : ℤ) :
    printfSwitch text ⟨m, .int num :: args, out, reads⟩ 0x63 = some ⟨m, args, out ++ [charOf num], reads⟩ := by
  rw [printfSwitch, if_neg (by decide), if_neg (by decide), if_pos rfl]
  rfl

/-- What a run emits that takes all arguments and stays inside the format. -/
theorem Pieces.printed (h : Pieces format args pieces) (htext : size text = 12) (hfmt : StringIn m₀ p format)
    (hvalid : ∀ arg ∈ args, arg.Valid m₀) (hnum : Numbered text m₀ m lo) (hfuel : size p.object ≤ p.offset + fuel)
    (hrun : printfLoop text fuel p ⟨m, args, out, reads⟩ = some s) (hargs : s.args = [])
    (hreads : ∀ q ∈ s.reads, q.offset ≤ p.offset + format.length) : Printed text m₀ p pieces m out s.out := by
  induction h generalizing p m lo fuel out reads with
  | nil =>
    by_cases hchanged : p.object = text ∧ lo ≤ p.offset
    · exact Pieces.nil.printed_changed htext hfmt hnum hchanged hfuel hrun hargs hreads
    have hcell := (hnum.same p hchanged).trans hfmt.bytes.1
    have hinside : p.offset < size p.object := hfmt.inside
    obtain ⟨fuel, rfl⟩ : ∃ f, fuel = f + 1 := ⟨fuel - 1, by omega⟩
    rw [printfLoop_null hinside hcell] at hrun
    obtain rfl := Option.some.inj hrun
    exact Printed.nil hcell out
  | @plain c format _ _ hc rest ih =>
    by_cases hchanged : p.object = text ∧ lo ≤ p.offset
    · exact (rest.plain hc).printed_changed htext hfmt hnum hchanged hfuel hrun hargs hreads
    have hcell := (hnum.same p hchanged).trans hfmt.bytes.1
    have hinside := hfmt.inside
    obtain ⟨fuel, rfl⟩ : ∃ f, fuel = f + 1 := ⟨fuel - 1, by omega⟩
    rw [printfLoop_char (by omega) hcell hfmt.load_head.2 hc] at hrun
    have hbound := step_end p [c] format
    refine Printed.cons (ih hfmt.tail hvalid hnum (step_room hfuel le_rfl) hrun fun q hq => ?_) le_rfl fun _ hrest => ?_
    · exact (hreads q hq).trans_eq hbound.symm
    · exact hrest.cons nofun nofun ⟨⟨hcell, trivial⟩, hrest.kept⟩
  | @int format _ _ num rest ih =>
    obtain ⟨⟨hlo, hhi⟩, hvalid⟩ := List.forall_mem_cons.mp hvalid
    by_cases hchanged : p.object = text ∧ lo ≤ p.offset
    · exact (rest.int num).printed_changed htext hfmt hnum hchanged hfuel hrun hargs hreads
    obtain ⟨hheld, fuel, reads, hroom, hrun⟩ := printfLoop_conversion htext hnum hfmt hchanged hfuel hrun hargs
      fun _ => printfSwitch_int hlo hhi htext
    have hnext := hnum.putAll (length_itoa_step hlo hhi) fun _ => numeric_of_mem_itoaNumeral
    have hbound := step_end p [percent, 0x64] format
    refine Printed.cons (ih hfmt.tail.tail hvalid hnext hroom hrun fun q hq => ?_) (length_itoaNumeral num).ge
      fun heq hrest => ?_
    · exact (hreads q hq).trans_eq hbound.symm
    · have hmin : num ≠ intMin := (itoaNumeral_eq_decimal_iff num).mp heq
      rw [heq] at hrest
      exact hrest.cons nofun (fun hitem => hmin (Item.int.inj hitem)) ⟨hheld, hrest.kept⟩
  | @string format _ _ str rest ih =>
    obtain ⟨⟨t, ht⟩, hvalid⟩ := List.forall_mem_cons.mp hvalid
    by_cases hchanged : p.object = text ∧ lo ≤ p.offset
    · exact (rest.string str).printed_changed htext hfmt hnum hchanged hfuel hrun hargs hreads
    obtain ⟨t', ht', hlength⟩ := hnum.string htext ht
    obtain ⟨hheld, fuel, reads, hroom, hrun⟩ := printfLoop_conversion htext hnum hfmt hchanged hfuel hrun hargs
      fun _ => printfSwitch_string ht'.cstringIn_eq
    have hbound := step_end p [percent, 0x73] format
    have hexpand := ht.expand_eq [percent, 0x73]
    refine Printed.cons (ih hfmt.tail.tail hvalid hnum hroom hrun fun q hq => ?_) (hexpand ▸ hlength)
      fun heq hrest => ?_
    · exact (hreads q hq).trans_eq hbound.symm
    · rw [hexpand] at heq
      refine hrest.cons nofun nofun ⟨hheld, ?_, hrest.kept⟩
      rw [ht'.cstringIn_eq, ht.cstringIn_eq, heq]
  | @char format _ _ num rest ih =>
    obtain ⟨-, hvalid⟩ := List.forall_mem_cons.mp hvalid
    by_cases hchanged : p.object = text ∧ lo ≤ p.offset
    · exact (rest.char num).printed_changed htext hfmt hnum hchanged hfuel hrun hargs hreads
    obtain ⟨hheld, fuel, reads, hroom, hrun⟩ := printfLoop_conversion htext hnum hfmt hchanged hfuel hrun hargs
      fun _ => printfSwitch_char num
    have hbound := step_end p [percent, 0x63] format
    refine Printed.cons (ih hfmt.tail.tail hvalid hnum hroom hrun fun q hq => ?_) le_rfl fun _ hrest => ?_
    · exact (hreads q hq).trans_eq hbound.symm
    · exact hrest.cons nofun nofun ⟨hheld, hrest.kept⟩
  | @other c format _ _ hc rest ih =>
    by_cases hchanged : p.object = text ∧ lo ≤ p.offset
    · exact (rest.other hc).printed_changed htext hfmt hnum hchanged hfuel hrun hargs hreads
    have hpercent := (hnum.same p hchanged).trans hfmt.bytes.1
    have hinside := hfmt.tail.inside
    rw [Place.step_offset, Place.step_object, List.length_cons] at hinside
    -- a number that was printed can only leave another character without a conversion here
    have hother : m.cell (p.step 1) ≠ 0x64 ∧ m.cell (p.step 1) ≠ 0x73 ∧ m.cell (p.step 1) ≠ 0x63 := by
      by_cases hsecond : (p.step 1).object = text ∧ lo ≤ (p.step 1).offset
      · rw [show p.object = text from hsecond.1, htext] at hinside
        have hdigit := hnum.digits (p.step 1).offset hsecond.2 (by rw [Place.step_offset]; omega)
        rw [← hsecond.1] at hdigit
        refine ⟨?_, ?_, ?_⟩ <;> intro heq <;> exact absurd (heq ▸ hdigit) (by decide)
      · rw [hnum.same _ hsecond, hfmt.tail.bytes.1]
        exact hc
    obtain ⟨fuel, rfl⟩ : ∃ f, fuel = f + 1 := ⟨fuel - 1, by omega⟩
    rw [printfLoop_percent (by omega) hpercent rfl, printfSwitch_other hother, Option.bind_some] at hrun
    have hbound := step_end p [percent, c] format
    refine Printed.cons (ih hfmt.tail.tail hvalid hnum (step_room hfuel one_le_two) hrun fun q hq => ?_) le_rfl
      fun heq hrest => ?_
    · exact (hreads q hq).trans_eq hbound.symm
    · exact hrest.cons nofun nofun ⟨⟨hpercent, List.singleton_inj.mp heq, trivial⟩, hrest.kept⟩
  | dangling =>
    by_cases hchanged : p.object = text ∧ lo ≤ p.offset
    · exact Pieces.dangling.printed_changed htext hfmt hnum hchanged hfuel hrun hargs hreads
    have hpercent := (hnum.same p hchanged).trans hfmt.bytes.1
    have hinside := hfmt.inside
    rw [List.length_singleton] at hinside hreads
    obtain ⟨fuel, rfl⟩ : ∃ f, fuel = f + 1 := ⟨fuel - 1, by omega⟩
    rw [printfLoop_percent hinside hpercent rfl] at hrun
    obtain ⟨t, -, hrun⟩ := Option.bind_eq_some_iff.mp hrun
    have hpast := hreads _ (printfLoop_reads hrun).1
    rw [Place.step_offset] at hpast
    omega

/-- A '%' with a character behind it that is read as it was written. -/
theorem printfLoop_held {c : UInt8} {args' : List (Argument ι)} {m' : Objects size UInt8} {str : List UInt8}
    (hfmt : StringIn m₀ p (percent :: c :: format)) (hheld : m.Holds p [percent, c])
    (hfuel : size p.object ≤ p.offset + fuel)
    (hswitch : ∀ reads, printfSwitch text ⟨m, args, out, reads⟩ c = some ⟨m', args', out ++ str, reads⟩) :
    ∃ fuel', size (p.step 2).object ≤ (p.step 2).offset + fuel' ∧ printfLoop text fuel p ⟨m, args, out, reads⟩ =
      printfLoop text fuel' (p.step 2) ⟨m', args', out ++ str, p.step 1 :: p :: reads⟩ := by
  have hinside := hfmt.tail.inside
  rw [Place.step_offset, Place.step_object, List.length_cons] at hinside
  obtain ⟨fuel, rfl⟩ : ∃ f, fuel = f + 1 := ⟨fuel - 1, by omega⟩
  refine ⟨fuel, step_room hfuel one_le_two, ?_⟩
  rw [printfLoop_percent (by omega) hheld.1 hheld.2.1, hswitch, Option.bind_some]

theorem Pieces.prints (h : Pieces format args pieces) (htext : size text = 12) (hfmt : StringIn m₀ p format)
    (hvalid : ∀ arg ∈ args, arg.Valid m₀) (hfuel : size p.object ≤ p.offset + fuel)
    (hprintable : Printable text m₀ p pieces m) {bound : ℕ} (hbound : p.offset + format.length = bound)
    (hreads : ∀ q ∈ reads, q.offset ≤ bound) {target : List UInt8}
    (htarget : out ++ pieces.flatMap (Piece.expand m₀) = target) :
    ∃ s, printfLoop text fuel p ⟨m, args, out, reads⟩ = some s ∧ s.args = [] ∧ s.out = target ∧
      ∀ q ∈ s.reads, q.offset ≤ bound := by
  induction h generalizing p m fuel out reads with
  | nil =>
    have hinside : p.offset < size p.object := hfmt.inside
    have hcell : m.cell p = 0 := hprintable.kept
    obtain ⟨fuel, rfl⟩ : ∃ f, fuel = f + 1 := ⟨fuel - 1, by omega⟩
    rw [printfLoop_null hinside hcell]
    exact ⟨_, rfl, rfl, (List.append_nil _).symm.trans htarget, List.forall_mem_cons.mpr ⟨hbound.le, hreads⟩⟩
  | @plain c format _ _ hc rest ih =>
    obtain ⟨⟨hcell, -⟩, hkept⟩ := hprintable.kept
    have hinside := hfmt.inside
    have hend := (step_end p [c] format).trans hbound
    obtain ⟨fuel, rfl⟩ : ∃ f, fuel = f + 1 := ⟨fuel - 1, by omega⟩
    rw [printfLoop_char (by omega) hcell hfmt.load_head.2 hc]
    rw [List.flatMap_cons, ← List.append_assoc] at htarget
    exact ih hfmt.tail hvalid (step_room hfuel le_rfl) (hprintable.tail hkept) hend
      (List.forall_mem_cons.mpr ⟨by omega, hreads⟩) htarget
  | @int format _ _ num rest ih =>
    obtain ⟨⟨hlo, hhi⟩, hvalid⟩ := List.forall_mem_cons.mp hvalid
    obtain ⟨hheld, hkept⟩ := hprintable.kept
    have hnumeral : itoaNumeral num = decimal num :=
      (itoaNumeral_eq_decimal_iff num).mpr fun hmin =>
        hprintable.numbers _ List.mem_cons_self (congrArg Item.int hmin)
    obtain ⟨fuel, hroom, hrun⟩ := printfLoop_held hfmt hheld hfuel fun _ => printfSwitch_int hlo hhi htext
    rw [List.flatMap_cons, ← List.append_assoc] at htarget
    rw [hrun, hnumeral]
    exact ih hfmt.tail.tail hvalid hroom (hprintable.tail hkept) ((step_end p [percent, 0x64] format).trans hbound)
      (reads_conversion hbound hreads) htarget
  | @string format _ _ str rest ih =>
    obtain ⟨⟨t, ht⟩, hvalid⟩ := List.forall_mem_cons.mp hvalid
    obtain ⟨hheld, hsame, hkept⟩ := hprintable.kept
    rw [ht.cstringIn_eq] at hsame
    obtain ⟨fuel, hroom, hrun⟩ := printfLoop_held hfmt hheld hfuel fun _ => printfSwitch_string hsame
    rw [List.flatMap_cons, ← List.append_assoc, ht.expand_eq] at htarget
    rw [hrun]
    exact ih hfmt.tail.tail hvalid hroom (hprintable.tail hkept) ((step_end p [percent, 0x73] format).trans hbound)
      (reads_conversion hbound hreads) htarget
  | @char format _ _ num rest ih =>
    obtain ⟨-, hvalid⟩ := List.forall_mem_cons.mp hvalid
    obtain ⟨hheld, hkept⟩ := hprintable.kept
    obtain ⟨fuel, hroom, hrun⟩ := printfLoop_held hfmt hheld hfuel fun _ => printfSwitch_char num
    rw [List.flatMap_cons, ← List.append_assoc] at htarget
    rw [hrun]
    exact ih hfmt.tail.tail hvalid hroom (hprintable.tail hkept) ((step_end p [percent, 0x63] format).trans hbound)
      (reads_conversion hbound hreads) htarget
  | @other c format _ _ hc rest ih =>
    obtain ⟨hheld, hkept⟩ := hprintable.kept
    obtain ⟨fuel, hroom, hrun⟩ := printfLoop_held hfmt hheld hfuel fun _ => printfSwitch_other hc
    rw [List.flatMap_cons, ← List.append_assoc] at htarget
    rw [hrun]
    exact ih hfmt.tail.tail hvalid hroom (hprintable.tail hkept) ((step_end p [percent, c] format).trans hbound)
      (reads_conversion hbound hreads) htarget
  | dangling => exact absurd rfl (hprintable.complete _ List.mem_cons_self)

/-- `printf` emits what the format stands for, takes every argument, and reads no more than the
format and its null. -/
def Expands (text : ι) (fmt : Place ι) (format : List UInt8) (args : List (Argument ι)) (pieces : List (Piece ι))
    (m : Objects size UInt8) : Prop :=
  ∃ s, printf text fmt args m = some s ∧ s.args = [] ∧ s.out = pieces.flatMap (Piece.expand m) ∧
    ∀ q ∈ s.reads, q.offset ≤ fmt.offset + format.length

theorem Pieces.printable (h : Pieces format args pieces) (htext : size text = 12) (hfmt : StringIn m p format)
    (hvalid : ∀ arg ∈ args, arg.Valid m) (hexpands : Expands text p format args pieces m) :
    Printable text m p pieces m := by
  obtain ⟨s, hrun, hargs, hout, hreads⟩ := hexpands
  have hprinted := h.printed htext hfmt hvalid (Numbered.refl text m) (Nat.le_add_left ..) hrun hargs hreads
  exact hprinted.printable hout

/-- The format and the strings lie outside the buffer of the numbers. -/
theorem Pieces.kept (h : Pieces format args pieces) (hfmt : StringIn m₀ p format) (hvalid : ∀ arg ∈ args, arg.Valid m₀)
    (hp : p.object ≠ text) (hstrings : ∀ str, .string str ∈ args → str.object ≠ text)
    (hsame : ∀ q : Place ι, q.object ≠ text → m.cell q = m₀.cell q) : Kept text m₀ p pieces m := by
  induction h generalizing p m with
  | nil => exact (hsame p hp).trans hfmt.bytes.1
  | plain _ _ ih => exact ⟨⟨(hsame p hp).trans hfmt.bytes.1, trivial⟩, ih hfmt.tail hvalid hp hstrings hsame⟩
  | int num _ ih =>
    refine ⟨hfmt.held hsame hp, ih hfmt.tail.tail (List.forall_mem_cons.mp hvalid).2 hp
      (fun str hmem => hstrings str (List.mem_cons_of_mem _ hmem)) fun q hq => ?_⟩
    exact (Objects.cell_putAll_object hq).trans (hsame q hq)
  | string str _ ih =>
    obtain ⟨⟨t, ht⟩, hvalid⟩ := List.forall_mem_cons.mp hvalid
    have hstr := hstrings str List.mem_cons_self
    have hkept : StringIn m str t := ht.congr fun i _ => hsame _ hstr
    refine ⟨hfmt.held hsame hp, ?_, ih hfmt.tail.tail hvalid hp
      (fun str hmem => hstrings str (List.mem_cons_of_mem _ hmem)) hsame⟩
    rw [hkept.cstringIn_eq, ht.cstringIn_eq]
  | char num _ ih =>
    exact ⟨hfmt.held hsame hp, ih hfmt.tail.tail (List.forall_mem_cons.mp hvalid).2 hp
      (fun str hmem => hstrings str (List.mem_cons_of_mem _ hmem)) hsame⟩
  | other _ _ ih => exact ⟨hfmt.held hsame hp, ih hfmt.tail.tail hvalid hp hstrings hsame⟩
  | dangling => exact ⟨⟨(hsame p hp).trans hfmt.bytes.1, trivial⟩, (hsame (p.step 1) hp).trans hfmt.tail.bytes.1⟩

/-- `printf` expands its format, unless one of three things goes wrong. -/
theorem printf_iff (htext : size text = 12) (hfmt : StringIn m p format) (hpieces : Pieces format args pieces)
    (hvalid : ∀ arg ∈ args, arg.Valid m) :
    Expands text p format args pieces m ↔ Printable text m p pieces m := by
  constructor
  · exact hpieces.printable htext hfmt hvalid
  · intro hprintable
    exact hpieces.prints htext hfmt hvalid (Nat.le_add_left ..) hprintable rfl (fun q hq => absurd hq List.not_mem_nil)
      (List.nil_append _)

end Runs

def numbersAndFormat : Bool → ℕ
  | false => 12
  | true => 5

def withFormat (format : List UInt8) : Objects numbersAndFormat UInt8 :=
  Objects.putAll ⟨true, 0⟩ (format ++ [0]) (Objects.putAll ⟨false, 10⟩ [0x37, 0] ⟨fun _ => 0⟩)

theorem stringIn_withFormat {format : List UInt8} (hnull : 0 ∉ format) (hlength : format.length < 5) :
    StringIn (withFormat format) ⟨true, 0⟩ format :=
  StringIn.putAll _ hnull ((Nat.zero_add _).trans_lt hlength)

theorem decimal_five : decimal 5 = [0x35] := by
  simp only [decimal, numeral]
  norm_num
  rfl

theorem valid_withFormat (format : List UInt8) : Argument.Valid (withFormat format) (.string ⟨false, 10⟩) := by
  have hinside : 10 + [(0x37 : UInt8)].length < numbersAndFormat false := by decide
  have hstr := StringIn.putAll (p := ⟨false, 10⟩) ⟨fun _ => 0⟩ (by decide) hinside
  exact ⟨[0x37], hstr.elsewhere ⟨true, 0⟩ (format ++ [0]) nofun⟩

/-- A format that does not come out as it should. -/
def GoesWrong (format : List UInt8) (args : List (Argument Bool)) : Prop :=
  StringIn (withFormat format) ⟨true, 0⟩ format ∧ (∀ arg ∈ args, arg.Valid (withFormat format)) ∧
    ∃ pieces, Pieces format args pieces ∧ ¬Expands false ⟨true, 0⟩ format args pieces (withFormat format)

/-- A '%' at the end, the smallest `int`, and a number that is printed as a string after another one. -/
theorem printf_goes_wrong :
    GoesWrong [0x31, 0x30, 0x30, percent] [] ∧ GoesWrong [percent, 0x64] [.int intMin] ∧
      GoesWrong [percent, 0x64, percent, 0x73] [.int 5, .string ⟨false, 10⟩] := by
  have htext : numbersAndFormat false = 12 := rfl
  refine ⟨?_, ?_, ?_⟩
  · have hpieces := ((Pieces.dangling (ι := Bool)).plain (c := 0x30) (by decide)).plain (c := 0x30) (by decide)
    refine ⟨stringIn_withFormat (by decide) (by decide), fun arg hmem => absurd hmem List.not_mem_nil, _,
      hpieces.plain (by decide), ?_⟩
    rintro ⟨s, hrun, -⟩
    have hnone : printf false ⟨true, 0⟩ [] (withFormat [0x31, 0x30, 0x30, percent]) = none := rfl
    exact absurd (hnone.symm.trans hrun) (Option.some_ne_none s).symm
  · have hfmt : StringIn (withFormat [percent, 0x64]) ⟨true, 0⟩ [percent, 0x64] :=
      stringIn_withFormat (by decide) (by decide)
    have hvalid : ∀ arg ∈ [Argument.int intMin], arg.Valid (withFormat [percent, 0x64]) :=
      List.forall_mem_singleton.mpr ⟨le_rfl, by decide⟩
    have hpieces := Pieces.int intMin (Pieces.nil (ι := Bool))
    refine ⟨hfmt, hvalid, _, hpieces, fun hexpands => ?_⟩
    exact (hpieces.printable htext hfmt hvalid hexpands).numbers _ List.mem_cons_self rfl
  · have hvalid := List.forall_mem_singleton.mpr (valid_withFormat [percent, 0x64, percent, 0x73])
    have hfive : Argument.Valid (withFormat [percent, 0x64, percent, 0x73]) (.int 5) := ⟨by decide, by decide⟩
    refine ⟨stringIn_withFormat (by decide) (by decide), List.forall_mem_cons.mpr ⟨hfive, hvalid⟩, _,
      Pieces.int 5 (Pieces.string ⟨false, 10⟩ Pieces.nil), ?_⟩
    rintro ⟨s, hrun, -, hout, -⟩
    have hprinted : (printf false ⟨true, 0⟩ [.int 5, .string ⟨false, 10⟩]
        (withFormat [percent, 0x64, percent, 0x73])).map Printing.out = some [0x35, 0x35] := rfl
    have hstring : Piece.expand (withFormat [percent, 0x64, percent, 0x73]) ⟨[percent, 0x73], .string ⟨false, 10⟩⟩ =
        [0x37] := rfl
    rw [hrun, Option.map_some, hout, List.flatMap_cons, List.flatMap_singleton, hstring] at hprinted
    simp only [Piece.expand, decimal_five] at hprinted
    exact absurd hprinted (by decide)

theorem printf_iff_percent :
    Expands false ⟨true, 0⟩ [percent, 0x64, percent, percent] [.int 5]
      [⟨[percent, 0x64], .int 5⟩, ⟨[percent, percent], .plain percent⟩]
      (withFormat [percent, 0x64, percent, percent]) := by
  have hfmt : StringIn (withFormat [percent, 0x64, percent, percent]) ⟨true, 0⟩ [percent, 0x64, percent, percent] :=
    stringIn_withFormat (by decide) (by decide)
  have hvalid : ∀ arg ∈ [Argument.int 5], arg.Valid (withFormat [percent, 0x64, percent, percent]) :=
    List.forall_mem_singleton.mpr ⟨by decide, by decide⟩
  have hpieces : Pieces [percent, 0x64, percent, percent] [Argument.int 5]
      [⟨[percent, 0x64], (.int 5 : Item Bool)⟩, ⟨[percent, percent], .plain percent⟩] :=
    Pieces.int 5 (Pieces.other (by decide) Pieces.nil)
  have htext : numbersAndFormat false = 12 := rfl
  refine (printf_iff htext hfmt hpieces hvalid).mpr ⟨?_, ?_, hpieces.kept hfmt hvalid nofun ?_ fun _ _ => rfl⟩
  · exact List.forall_mem_cons.mpr ⟨nofun, List.forall_mem_singleton.mpr nofun⟩
  · refine List.forall_mem_cons.mpr ⟨fun heq => ?_, List.forall_mem_singleton.mpr nofun⟩
    exact absurd (Item.int.inj heq) (by decide)
  · intro str hmem
    exact absurd (List.mem_singleton.mp hmem) nofun

end Zhios
