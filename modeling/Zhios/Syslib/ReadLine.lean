import Zhios.Lib.ObjectStrings

/-! `read_line` of `syslib/src/stdio/stdio.c`, which the shell reads its commands with. -/
namespace Zhios
open Machine

def backspace : UInt8 := 0x08
def carriageReturn : UInt8 := 13

/-- The next key that is not zero, and the keys behind it. -/
def getchar : List UInt8 → Option (UInt8 × List UInt8)
  | [] => none
  | val :: keys => if val = 0 then getchar keys else some (val, keys)

/-- Memory, the keys that are still to come, and what was echoed. -/
structure LineInput {ι : Type*} (size : ι → ℕ) where
  m : Objects size UInt8
  keys : List UInt8
  echoed : List UInt8

section Definitions
variable {ι : Type*} {size : ι → ℕ} [DecidableEq ι] (buffer : Place ι) (max : ℕ) (echoKey : Bool)

/-- The loop of `read_line`: where it leaves the cursor. Every turn takes a key; after a
backspace the cursor goes back by two and the loop header moves it on by one. -/
def readLineLoop : (fuel i : ℕ) → LineInput size → Option (ℕ × LineInput size)
  | 0, _, _ => none
  | fuel + 1, i, s =>
    if i < max then
      (getchar s.keys).bind fun r =>
        let key := r.1
        if key = carriageReturn then some (i, { s with keys := r.2 })
        else
          let echoed := if echoKey then s.echoed ++ [key] else s.echoed
          if key = backspace ∧ 1 ≤ i then
            (s.m.store (buffer.step (i - 1)) 0).bind fun m => readLineLoop fuel (i - 1) ⟨m, r.2, echoed⟩
          else (s.m.store (buffer.step i) key).bind fun m => readLineLoop fuel (i + 1) ⟨m, r.2, echoed⟩
    else some (i, s)

def terminateLine (r : ℕ × LineInput size) : Option (LineInput size) :=
  (r.2.m.store (buffer.step r.1) 0).map fun m => { r.2 with m := m }

def readLine (s : LineInput size) : Option (LineInput size) :=
  (readLineLoop buffer max echoKey (s.keys.length + 1) 0 s).bind (terminateLine buffer)

end Definitions

/-- The line that the keys are to leave: a backspace takes a character back if there is one,
and a carriage return, or a key that finds `max - 1` characters, ends the line. -/
def editLine (max : ℕ) : (keys line : List UInt8) → List UInt8
  | [], line => line
  | key :: keys, line =>
    if key = carriageReturn then line
    else if key = backspace then editLine max keys line.dropLast
    else if line.length + 1 < max then editLine max keys (line ++ [key])
    else line

/-- What has been typed: the line, and the number of backspaces that found it empty. -/
structure Typed where
  line : List UInt8
  stray : ℕ

namespace Typed

def key (t : Typed) (key : UInt8) : Typed :=
  if key = backspace then
    if t.line = [] then { t with stray := t.stray + 1 } else { t with line := t.line.dropLast }
  else { t with line := t.line ++ [key] }

/-- What `read_line` has in its buffer then. The first of two stray backspaces is taken for a
character, which the second one takes back. -/
def stored (t : Typed) : List UInt8 := List.replicate (t.stray % 2) backspace ++ t.line

theorem length_stored (t : Typed) : t.stored.length = t.stray % 2 + t.line.length := by
  rw [stored, List.length_append, List.length_replicate]

theorem stored_eq_nil_iff (t : Typed) : t.stored = [] ↔ t.stray % 2 = 0 ∧ t.line = [] := by
  rw [stored, List.append_eq_nil_iff, List.replicate_eq_nil_iff]

theorem stored_backspace {t : Typed} (h : t.stored ≠ []) : (t.key backspace).stored = t.stored.dropLast := by
  unfold key
  rw [if_pos rfl]
  split_ifs with hline
  · have hodd : t.stray % 2 = 1 := by
      rw [Ne, stored_eq_nil_iff] at h
      have hne : t.stray % 2 ≠ 0 := fun heven => h ⟨heven, hline⟩
      omega
    have heven : (t.stray + 1) % 2 = 0 := by omega
    simp only [stored, hline, hodd, heven]
    rfl
  · rw [stored, stored, List.dropLast_append_of_ne_nil hline]

theorem stored_key {t : Typed} {key : UInt8} (h : key ≠ backspace ∨ t.stored = []) :
    (t.key key).stored = t.stored ++ [key] := by
  unfold Typed.key
  by_cases hkey : key = backspace
  · obtain ⟨heven, hline⟩ := (stored_eq_nil_iff t).mp (h.resolve_left fun hne => hne hkey)
    have hodd : (t.stray + 1) % 2 = 1 := by omega
    rw [if_pos hkey, if_pos hline]
    simp only [stored, hline, hodd, heven, hkey]
    rfl
  · rw [if_neg hkey, stored, stored, List.append_assoc]

theorem line_backspace (t : Typed) : (t.key backspace).line = t.line.dropLast := by
  unfold Typed.key
  rw [if_pos rfl]
  split_ifs with hline
  · rw [hline, List.dropLast_nil]
  · rfl

theorem line_key (t : Typed) {key : UInt8} (h : key ≠ backspace) : (t.key key).line = t.line ++ [key] := by
  rw [Typed.key, if_neg h]

theorem zero_notMem_key {t : Typed} {key : UInt8} (h : 0 ∉ t.line) (hkey : key ≠ 0) : 0 ∉ (t.key key).line := by
  unfold Typed.key
  split_ifs
  · exact h
  · exact fun hmem => h (List.dropLast_subset _ hmem)
  · rw [List.mem_append, List.mem_singleton, not_or]
    exact ⟨h, hkey.symm⟩

end Typed

/-- The keys leave room for the null at every moment, and the backspaces that find the line
empty come in pairs. -/
def TypedWell (max : ℕ) (t : Typed) (keys : List UInt8) : Prop :=
  (∀ typed, typed <+: keys → (typed.foldl Typed.key t).stray % 2 + (typed.foldl Typed.key t).line.length < max) ∧
    (keys.foldl Typed.key t).stray % 2 = 0

instance (max : ℕ) (t : Typed) (keys : List UInt8) : Decidable (TypedWell max t keys) :=
  decidable_of_iff ((∀ typed ∈ keys.inits,
      (typed.foldl Typed.key t).stray % 2 + (typed.foldl Typed.key t).line.length < max) ∧
    (keys.foldl Typed.key t).stray % 2 = 0) (by simp only [TypedWell, List.mem_inits])

theorem typedWell_nil (max : ℕ) (t : Typed) :
    TypedWell max t [] ↔ t.stored.length < max ∧ t.stray % 2 = 0 := by
  rw [Typed.length_stored]
  refine and_congr_left' ⟨fun h => h [] List.prefix_rfl, fun h typed htyped => ?_⟩
  rwa [List.prefix_nil.mp htyped]

theorem typedWell_cons (max : ℕ) (t : Typed) (key : UInt8) (keys : List UInt8) :
    TypedWell max t (key :: keys) ↔ t.stored.length < max ∧ TypedWell max (t.key key) keys := by
  rw [Typed.length_stored, TypedWell, TypedWell, ← and_assoc]
  refine and_congr_left' ⟨fun h => ⟨h [] List.nil_prefix, fun typed htyped => ?_⟩, fun h typed htyped => ?_⟩
  · exact h (key :: typed) (List.cons_prefix_cons.mpr ⟨rfl, htyped⟩)
  · rcases List.prefix_cons_iff.mp htyped with rfl | ⟨rest, rfl, hrest⟩
    · exact h.1
    · exact h.2 rest hrest

theorem TypedWell.length_lt {max : ℕ} {t : Typed} {keys : List UInt8} (h : TypedWell max t keys) :
    t.stored.length < max := by
  rw [Typed.length_stored]
  exact h.1 [] List.nil_prefix

def typedKeys (keys : List UInt8) : List UInt8 := keys.takeWhile (· ≠ carriageReturn)

section Loop
variable {ι : Type*} {size : ι → ℕ} [DecidableEq ι] {buffer : Place ι} {max : ℕ} {echoKey : Bool}

/-- What `read_line` is to do with memory: the line is in the buffer, with its null. -/
def LeavesLine (result : Option (LineInput size)) (buffer : Place ι) (line : List UInt8) : Prop :=
  ∃ s', result = some s' ∧ StringIn s'.m buffer line

/-- The carriage return leaves the line in the buffer unless a stray backspace is there too. -/
theorem terminateLine_iff (hroom : size buffer.object = buffer.offset + max) {t : Typed} (hnull : 0 ∉ t.line)
    {s : LineInput size} (hm : s.m.Holds buffer t.stored) (hlt : t.stored.length < max) :
    LeavesLine (terminateLine buffer (t.stored.length, s)) buffer t.line ↔ t.stray % 2 = 0 := by
  have hinside : (buffer.step t.stored.length).offset < size (buffer.step t.stored.length).object := by
    rw [Place.step_offset, Place.step_object]
    omega
  have hstored : StringIn (s.m.put (buffer.step t.stored.length) 0) buffer t.stored := by
    refine ⟨hm.snoc 0, ?_, by omega⟩
    rw [Typed.stored, List.mem_append, not_or]
    exact ⟨fun hmem => absurd (List.eq_of_mem_replicate hmem) (by decide), hnull⟩
  rw [terminateLine, Objects.store_eq hinside]
  constructor
  · rintro ⟨s', hs', hline⟩
    obtain rfl := Option.some.inj hs'
    have hlength := congrArg List.length (hstored.unique hline)
    rw [Typed.length_stored] at hlength
    omega
  · intro heven
    have hline : t.stored = t.line := by rw [Typed.stored, heven, List.replicate_zero, List.nil_append]
    exact ⟨_, rfl, hline ▸ hstored⟩

theorem readLineLoop_full (hroom : size buffer.object = buffer.offset + max) {i : ℕ} (hi : max ≤ i)
    (s : LineInput size) (fuel : ℕ) :
    (readLineLoop buffer max echoKey (fuel + 1) i s).bind (terminateLine buffer) = none := by
  have houtside : size (buffer.step i).object ≤ (buffer.step i).offset := by
    rw [Place.step_offset, Place.step_object]
    omega
  rw [readLineLoop, if_neg (Nat.not_lt.mpr hi), Option.bind_some, terminateLine, Objects.store_eq_none houtside,
    Option.map_none]

omit [DecidableEq ι] in
theorem not_leavesLine_none (line : List UInt8) : ¬ LeavesLine (none : Option (LineInput size)) buffer line :=
  fun ⟨_, hnone, _⟩ => Option.some_ne_none _ hnone.symm

theorem readLineLoop_return {t : Typed} {s : LineInput size} {keys : List UInt8} {fuel : ℕ}
    (hkey : getchar s.keys = some (carriageReturn, keys)) (hlt : t.stored.length < max) :
    readLineLoop buffer max echoKey (fuel + 1) t.stored.length s =
      some (t.stored.length, ⟨s.m, keys, s.echoed⟩) := by
  rw [readLineLoop, if_pos hlt, hkey, Option.bind_some]
  exact if_pos rfl

variable (echoKey) in
theorem readLineLoop_key (fuel : ℕ) (hroom : size buffer.object = buffer.offset + max) {t : Typed}
    {s : LineInput size} {key : UInt8} {keys : List UInt8} (hm : s.m.Holds buffer t.stored)
    (hkey : getchar s.keys = some (key, keys)) (hcr : key ≠ carriageReturn) (hlt : t.stored.length < max) :
    ∃ s', s'.keys = keys ∧ s'.m.Holds buffer (t.key key).stored ∧
      readLineLoop buffer max echoKey (fuel + 1) t.stored.length s =
        readLineLoop buffer max echoKey fuel (t.key key).stored.length s' := by
  have hinside : ∀ i ≤ t.stored.length, (buffer.step i).offset < size (buffer.step i).object := by
    intro i hi
    rw [Place.step_offset, Place.step_object]
    omega
  rw [readLineLoop, if_pos hlt, hkey, Option.bind_some]
  simp only [if_neg hcr]
  by_cases hback : key = backspace ∧ 1 ≤ t.stored.length
  · -- the last character goes
    obtain ⟨rfl, hpos⟩ := hback
    have hne : t.stored ≠ [] := List.ne_nil_of_length_pos hpos
    have hlength : (t.key backspace).stored.length = t.stored.length - 1 := by
      rw [Typed.stored_backspace hne, List.length_dropLast]
    have hkept : (s.m.put (buffer.step (t.stored.length - 1)) 0).Holds buffer (t.key backspace).stored := by
      rw [Typed.stored_backspace hne]
      have hall := hm
      rw [← List.dropLast_append_getLast hne, Objects.holds_append] at hall
      refine hall.1.put (fun i hi heq => ?_) 0
      rw [List.length_dropLast] at hi
      rw [Place.step_inj] at heq
      omega
    rw [if_pos ⟨rfl, hpos⟩, Objects.store_eq (hinside _ (Nat.sub_le _ _)), Option.bind_some, hlength]
    exact ⟨_, rfl, hkept, rfl⟩
  · -- the key is stored
    have hstored : key ≠ backspace ∨ t.stored = [] := by
      rw [← List.length_eq_zero_iff]
      by_cases hkey : key = backspace
      · have hempty : ¬ 1 ≤ t.stored.length := fun hpos => hback ⟨hkey, hpos⟩
        exact Or.inr (by omega)
      · exact Or.inl hkey
    have hkept : (s.m.put (buffer.step t.stored.length) key).Holds buffer (t.key key).stored := by
      rw [Typed.stored_key hstored]
      exact hm.snoc key
    have hlength : (t.key key).stored.length = t.stored.length + 1 := by
      rw [Typed.stored_key hstored, List.length_append, List.length_singleton]
    rw [if_neg hback, Objects.store_eq (hinside _ le_rfl), Option.bind_some, hlength]
    exact ⟨_, rfl, hkept, rfl⟩

theorem readLineLoop_iff (hroom : size buffer.object = buffer.offset + max) {keys : List UInt8} (hkeys : 0 ∉ keys)
    (hreturn : carriageReturn ∈ keys) {t : Typed} (hnull : 0 ∉ t.line) {s : LineInput size} (hs : s.keys = keys)
    (hm : s.m.Holds buffer t.stored) {fuel : ℕ} (hfuel : keys.length < fuel) :
    LeavesLine ((readLineLoop buffer max echoKey fuel t.stored.length s).bind (terminateLine buffer)) buffer
      (editLine max keys t.line) ↔ TypedWell max t (typedKeys keys) := by
  induction keys generalizing t s fuel with
  | nil => exact absurd hreturn List.not_mem_nil
  | cons key keys ih =>
    obtain ⟨fuel, rfl⟩ : ∃ f, fuel = f + 1 := ⟨fuel - 1, by omega⟩
    rw [List.length_cons] at hfuel
    rw [List.mem_cons, not_or] at hkeys
    have hkey : getchar s.keys = some (key, keys) := by rw [hs, getchar, if_neg (Ne.symm hkeys.1)]
    by_cases hlt : t.stored.length < max
    swap
    · rw [readLineLoop_full hroom (Nat.not_lt.mp hlt)]
      exact iff_of_false (not_leavesLine_none _) fun h => hlt h.length_lt
    by_cases hcr : key = carriageReturn
    · subst hcr
      rw [readLineLoop_return hkey hlt, Option.bind_some, editLine, if_pos rfl, typedKeys,
        List.takeWhile_cons_of_neg (by simp), typedWell_nil, and_iff_right hlt]
      exact terminateLine_iff hroom hnull (s := ⟨s.m, keys, s.echoed⟩) hm hlt
    obtain ⟨s', hs', hheld, hloop⟩ := readLineLoop_key echoKey fuel hroom hm hkey hcr hlt
    have hrest : carriageReturn ∈ keys := (List.mem_cons.mp hreturn).resolve_left (Ne.symm hcr)
    have hih := ih hkeys.2 hrest (Typed.zero_notMem_key hnull (Ne.symm hkeys.1)) hs' hheld
      (Nat.lt_of_succ_lt_succ hfuel)
    rw [hloop, editLine, if_neg hcr, typedKeys, List.takeWhile_cons_of_pos (by simp [hcr]), typedWell_cons,
      and_iff_right hlt]
    by_cases hback : key = backspace
    · rw [if_pos hback, ← Typed.line_backspace, ← hback]
      exact hih
    rw [if_neg hback]
    by_cases hmore : t.line.length + 1 < max
    · rw [if_pos hmore, ← Typed.line_key t hback]
      exact hih
    · have hfull : max ≤ (t.key key).stored.length := by
        have hline := congrArg List.length (Typed.line_key t hback)
        rw [List.length_append, List.length_singleton] at hline
        rw [Typed.length_stored]
        omega
      obtain ⟨fuel, rfl⟩ : ∃ f, fuel = f + 1 := ⟨fuel - 1, by omega⟩
      rw [if_neg hmore, readLineLoop_full hroom hfull]
      exact iff_of_false (not_leavesLine_none _) fun h => absurd h.length_lt (Nat.not_lt.mpr hfull)

/-- `read_line` leaves the line, and stores nothing outside its buffer, exactly when the keys
are typed well. -/
theorem readLine_iff (hroom : size buffer.object = buffer.offset + max) (s : LineInput size) (hkeys : 0 ∉ s.keys)
    (hreturn : carriageReturn ∈ s.keys) :
    LeavesLine (readLine buffer max echoKey s) buffer (editLine max s.keys []) ↔
      TypedWell max ⟨[], 0⟩ (typedKeys s.keys) :=
  readLineLoop_iff (t := ⟨[], 0⟩) hroom hkeys hreturn List.not_mem_nil rfl trivial (Nat.lt_succ_self _)

end Loop

def lineInput (max : ℕ) (keys : List UInt8) : LineInput fun _ : Unit => max := ⟨⟨fun _ => 0⟩, keys, []⟩

theorem readLine_iff_ls :
    LeavesLine (readLine ⟨(), 0⟩ 1024 true (lineInput 1024 [0x6C, 0x73, 0x78, 8, 13])) ⟨(), 0⟩ [0x6C, 0x73] :=
  (readLine_iff (Nat.zero_add _).symm (lineInput 1024 [0x6C, 0x73, 0x78, 8, 13]) (by decide) (by decide)).mpr
    (by decide)

/-- A backspace at the start of the line, and two characters for a buffer of two bytes. -/
theorem readLine_goes_wrong :
    ¬ LeavesLine (readLine ⟨(), 0⟩ 1024 true (lineInput 1024 [8, 0x6C, 0x73, 13])) ⟨(), 0⟩
        (editLine 1024 [8, 0x6C, 0x73, 13] []) ∧
      ¬ LeavesLine (readLine ⟨(), 0⟩ 2 true (lineInput 2 [0x6C, 0x73, 13])) ⟨(), 0⟩
        (editLine 2 [0x6C, 0x73, 13] []) := by
  have hiff : ∀ (max : ℕ) (keys : List UInt8), 0 ∉ keys → carriageReturn ∈ keys →
      (LeavesLine (readLine ⟨(), 0⟩ max true (lineInput max keys)) ⟨(), 0⟩ (editLine max keys []) ↔
        TypedWell max ⟨[], 0⟩ (typedKeys keys)) := by
    intro max keys hkeys hreturn
    have hroom : max = 0 + max := (Nat.zero_add max).symm
    exact readLineLoop_iff (t := ⟨[], 0⟩) hroom hkeys hreturn List.not_mem_nil rfl trivial (Nat.lt_succ_self _)
  rw [hiff _ _ (by decide) (by decide), hiff _ _ (by decide) (by decide)]
  decide

end Zhios
