import Zhios.Lib.StringMemory
import Zhios.Machine.Objects

/-! The functions of `lib/src/string.c` on strings that lie in objects of their own: an
array that is too small for what is stored ends the call without a result. -/
namespace Zhios
open Machine

section Definitions
variable {ι κ : Type*} {size : ι → ℕ} {room : κ → ℕ}

def strlenLoop (m : Objects size UInt8) : (fuel : ℕ) → Place ι → (len : ℕ) → Option ℕ
  | 0, _, _ => none
  | fuel + 1, str, len =>
    (m.load str).bind fun c => if c = 0 then some len else strlenLoop m fuel (str.step 1) (len + 1)

def strlenIn (m : Objects size UInt8) (str : Place ι) : Option ℕ := strlenLoop m (size str.object) str 0

/-- The string at a place, looked for through at most `fuel` bytes. -/
def cstringLoop (m : Objects size UInt8) : (fuel : ℕ) → Place ι → Option (List UInt8)
  | 0, _ => none
  | fuel + 1, str =>
    (m.load str).bind fun c => if c = 0 then some [] else (cstringLoop m fuel (str.step 1)).map (c :: ·)

def cstringIn (m : Objects size UInt8) (str : Place ι) : Option (List UInt8) := cstringLoop m (size str.object) str

variable [DecidableEq ι] [DecidableEq κ]

/-- The loop that `strcpy` and `strcat` have in common: where it stops to write, and the
memory. -/
def copyLoop : (fuel : ℕ) → (src dest : Place ι) → Objects size UInt8 → Option (Place ι × Objects size UInt8)
  | 0, _, _, _ => none
  | fuel + 1, src, dest, m =>
    (m.load src).bind fun c =>
      if c = 0 then some (dest, m) else (m.store dest c).bind (copyLoop fuel (src.step 1) (dest.step 1))

def strcpyIn (m : Objects size UInt8) (src dest : Place ι) : Option (Objects size UInt8) :=
  (copyLoop (size src.object) src dest m).bind fun r => r.2.store r.1 0

def strcatIn (m : Objects size UInt8) (s1 s2 dest : Place ι) : Option (Objects size UInt8) :=
  (copyLoop (size s1.object) s1 dest m).bind fun first =>
    (copyLoop (size s2.object) s2 first.1 first.2).bind fun second => second.2.store second.1 0

/-- The loop of `str_token` over the `fuel` bytes from `str` on. -/
def strTokenLoopIn (delimiter : UInt8) (tokens : Place κ) : (fuel : ℕ) → (str : Place ι) → (tokenCount : ℕ) →
    Objects size UInt8 → Objects room (Place ι) → Option (ℕ × Objects size UInt8 × Objects room (Place ι))
  | 0, _, tokenCount, m, pointers => some (tokenCount, m, pointers)
  | fuel + 1, str, tokenCount, m, pointers =>
    (m.load str).bind fun c =>
      if c = delimiter then
        (m.store str 0).bind fun m =>
          (pointers.store (tokens.step tokenCount) (str.step 1)).bind
            (strTokenLoopIn delimiter tokens fuel (str.step 1) (tokenCount + 1) m)
      else strTokenLoopIn delimiter tokens fuel (str.step 1) tokenCount m pointers

def strTokenIn (m : Objects size UInt8) (pointers : Objects room (Place ι)) (str : Place ι) (tokens : Place κ)
    (delimiter : UInt8) : Option (ℕ × Objects size UInt8 × Objects room (Place ι)) :=
  (strlenIn m str).bind fun len =>
    (pointers.store tokens str).bind (strTokenLoopIn delimiter tokens len str 1 m)

end Definitions

/-- The string `s` is at a place, and its null is still inside the object. -/
structure StringIn {ι : Type*} {size : ι → ℕ} (m : Objects size UInt8) (p : Place ι) (s : List UInt8) : Prop where
  bytes : m.Holds p (s ++ [0])
  noNull : 0 ∉ s
  inside : p.offset + s.length < size p.object

namespace StringIn
variable {ι : Type*} {size : ι → ℕ} {m m' : Objects size UInt8} {p : Place ι} {c : UInt8} {s t : List UInt8}

theorem congr (h : StringIn m p s) (hsame : ∀ i ≤ s.length, m'.cell (p.step i) = m.cell (p.step i)) :
    StringIn m' p s := by
  refine ⟨h.bytes.congr fun i hi => hsame i ?_, h.noNull, h.inside⟩
  rw [List.length_append, List.length_singleton] at hi
  omega

theorem load_null (h : StringIn m p []) : m.load p = some 0 := by
  rw [Objects.load_eq h.inside, h.bytes.1]

theorem load_head (h : StringIn m p (c :: s)) : m.load p = some c ∧ c ≠ 0 := by
  have hinside := h.inside
  rw [List.length_cons] at hinside
  rw [Objects.load_eq (by omega), h.bytes.1]
  exact ⟨rfl, fun heq => h.noNull (heq ▸ List.mem_cons_self)⟩

theorem tail (h : StringIn m p (c :: s)) : StringIn m (p.step 1) s := by
  refine ⟨h.bytes.2, fun hmem => h.noNull (List.mem_cons_of_mem _ hmem), ?_⟩
  have hinside := h.inside
  rw [List.length_cons] at hinside
  rw [Place.step_offset, Place.step_object]
  omega

theorem cons (hcell : m.cell p = c) (hc : c ≠ 0) (h : StringIn m (p.step 1) s) : StringIn m p (c :: s) := by
  refine ⟨⟨hcell, h.bytes⟩, ?_, ?_⟩
  · rw [List.mem_cons, not_or]
    exact ⟨hc.symm, h.noNull⟩
  · have hinside := h.inside
    rw [Place.step_offset, Place.step_object] at hinside
    rw [List.length_cons]
    omega

theorem unique (h : StringIn m p s) (h' : StringIn m p t) : s = t := by
  induction s generalizing p t with
  | nil =>
    cases t with
    | nil => rfl
    | cons d t =>
      obtain ⟨hload, hne⟩ := h'.load_head
      rw [h.load_null] at hload
      exact absurd (Option.some.inj hload).symm hne
  | cons c s ih =>
    obtain ⟨hload, hne⟩ := h.load_head
    cases t with
    | nil =>
      rw [h'.load_null] at hload
      exact absurd (Option.some.inj hload).symm hne
    | cons d t =>
      rw [h'.load_head.1] at hload
      rw [Option.some.inj hload, ih h.tail h'.tail]

theorem strlenLoop_eq (h : StringIn m p s) {fuel : ℕ} (hfuel : s.length < fuel) (len : ℕ) :
    strlenLoop m fuel p len = some (len + s.length) := by
  induction s generalizing p fuel len with
  | nil =>
    obtain ⟨fuel, rfl⟩ : ∃ f, fuel = f + 1 := ⟨fuel - 1, by omega⟩
    rw [strlenLoop, h.load_null]
    rfl
  | cons c s ih =>
    obtain ⟨fuel, rfl⟩ : ∃ f, fuel = f + 1 := ⟨fuel - 1, by omega⟩
    obtain ⟨hload, hne⟩ := h.load_head
    rw [List.length_cons] at hfuel
    rw [strlenLoop, hload, Option.bind_some, if_neg hne, ih h.tail (by omega), List.length_cons, Nat.add_assoc,
      Nat.add_comm 1]

theorem cstringLoop_eq (h : StringIn m p s) {fuel : ℕ} (hfuel : s.length < fuel) : cstringLoop m fuel p = some s := by
  induction s generalizing p fuel with
  | nil =>
    obtain ⟨fuel, rfl⟩ : ∃ f, fuel = f + 1 := ⟨fuel - 1, by omega⟩
    rw [cstringLoop, h.load_null, Option.bind_some, if_pos rfl]
  | cons c s ih =>
    obtain ⟨fuel, rfl⟩ : ∃ f, fuel = f + 1 := ⟨fuel - 1, by omega⟩
    obtain ⟨hload, hne⟩ := h.load_head
    rw [List.length_cons] at hfuel
    rw [cstringLoop, hload, Option.bind_some, if_neg hne, ih h.tail (by omega), Option.map_some]

theorem cstringIn_eq (h : StringIn m p s) : cstringIn m p = some s := by
  have hinside := h.inside
  exact h.cstringLoop_eq (by omega)

theorem strlenIn_eq (h : StringIn m p s) : strlenIn m p = some s.length := by
  have hinside := h.inside
  rw [strlenIn, h.strlenLoop_eq (by omega), Nat.zero_add]

variable [DecidableEq ι] {dest : Place ι}

theorem putAll (m : Objects size UInt8) (hnull : 0 ∉ s) (hinside : p.offset + s.length < size p.object) :
    StringIn (Objects.putAll p (s ++ [0]) m) p s :=
  ⟨Objects.holds_putAll .., hnull, hinside⟩

theorem elsewhere (h : StringIn m p s) (dest : Place ι) (values : List UInt8) (hne : p.object ≠ dest.object) :
    StringIn (Objects.putAll dest values m) p s :=
  h.congr fun _ _ => Objects.cell_putAll_object hne

theorem append (h : StringIn m p s) (hnull : 0 ∉ t) (hinside : p.offset + s.length + t.length < size p.object) :
    StringIn (Objects.putAll (p.step s.length) (t ++ [0]) m) p (s ++ t) := by
  refine ⟨?_, ?_, ?_⟩
  · rw [List.append_assoc, Objects.holds_append]
    refine ⟨(Objects.holds_append.mp h.bytes).1.congr fun i hi => Objects.cell_putAll fun j _ heq => ?_,
      Objects.holds_putAll ..⟩
    rw [Place.step_step, Place.step_inj] at heq
    omega
  · rw [List.mem_append, not_or]
    exact ⟨h.noNull, hnull⟩
  · rw [List.length_append]
    omega

/-- Copying to another object: the characters in front of the null. -/
theorem copyLoop_eq (h : StringIn m p s) {fuel : ℕ} (hfuel : s.length < fuel) (hne : p.object ≠ dest.object)
    (hdest : dest.offset ≤ size dest.object) :
    copyLoop fuel p dest m =
      if dest.offset + s.length ≤ size dest.object then some (dest.step s.length, Objects.putAll dest s m)
      else none := by
  induction s generalizing m p dest fuel with
  | nil =>
    obtain ⟨fuel, rfl⟩ : ∃ f, fuel = f + 1 := ⟨fuel - 1, by omega⟩
    rw [copyLoop, h.load_null, Option.bind_some, if_pos rfl, List.length_nil, if_pos (by omega)]
    rfl
  | cons c s ih =>
    obtain ⟨fuel, rfl⟩ : ∃ f, fuel = f + 1 := ⟨fuel - 1, by omega⟩
    obtain ⟨hload, hc⟩ := h.load_head
    rw [List.length_cons] at hfuel ⊢
    rw [copyLoop, hload, Option.bind_some, if_neg hc]
    rcases hdest.lt_or_eq with hlt | heq
    · have hrest : StringIn (m.put dest c) (p.step 1) s := by
        refine h.tail.congr fun i _ => Objects.cell_put_of_ne (fun heq => hne ?_) c
        rw [← heq]
        rfl
      have hobject : (p.step 1).object ≠ (dest.step 1).object := hne
      have hnext : (dest.step 1).offset ≤ size (dest.step 1).object := hlt
      rw [Objects.store_eq hlt, Option.bind_some, ih hrest (by omega) hobject hnext, Place.step_offset,
        Place.step_object, Place.step_step, Objects.putAll, Nat.add_assoc, Nat.add_comm 1]
    · rw [Objects.store_eq_none heq.ge, Option.bind_none, if_neg (by omega)]

theorem copyLoop_self (h : StringIn m p s) {fuel : ℕ} (hfuel : s.length < fuel) :
    copyLoop fuel p p m = some (p.step s.length, m) := by
  induction s generalizing p fuel with
  | nil =>
    obtain ⟨fuel, rfl⟩ : ∃ f, fuel = f + 1 := ⟨fuel - 1, by omega⟩
    rw [copyLoop, h.load_null, Option.bind_some, if_pos rfl]
    rfl
  | cons c s ih =>
    obtain ⟨fuel, rfl⟩ : ∃ f, fuel = f + 1 := ⟨fuel - 1, by omega⟩
    obtain ⟨hload, hc⟩ := h.load_head
    have hinside := h.inside
    have hsame : m.put p c = m := by
      rw [← h.bytes.1, Objects.put_self]
    rw [List.length_cons] at hfuel hinside
    rw [copyLoop, hload, Option.bind_some, if_neg hc, Objects.store_eq (by omega), Option.bind_some, hsame,
      ih h.tail (by omega), Place.step_step, List.length_cons, Nat.add_comm 1]

theorem store_null (m : Objects size UInt8) (dest : Place ι) (s : List UInt8) :
    (Objects.putAll dest s m).store (dest.step s.length) 0 =
      if dest.offset + s.length < size dest.object then some (Objects.putAll dest (s ++ [0]) m) else none := by
  rw [Objects.putAll_append]
  rfl

theorem strcpyIn_eq (h : StringIn m p s) (dest : Place ι) (hne : p.object ≠ dest.object)
    (hdest : dest.offset ≤ size dest.object) :
    strcpyIn m p dest =
      if dest.offset + s.length < size dest.object then some (Objects.putAll dest (s ++ [0]) m) else none := by
  have hinside := h.inside
  rw [strcpyIn, h.copyLoop_eq (by omega) hne hdest]
  by_cases hfits : dest.offset + s.length ≤ size dest.object
  · rw [if_pos hfits, Option.bind_some, store_null]
  · rw [if_neg hfits, if_neg (by omega), Option.bind_none]

theorem strcatIn_eq {q : Place ι} (h : StringIn m p s) (h' : StringIn m q t) (dest : Place ι)
    (hne : p.object ≠ dest.object) (hne' : q.object ≠ dest.object) (hdest : dest.offset ≤ size dest.object) :
    strcatIn m p q dest =
      if dest.offset + (s.length + t.length) < size dest.object then
        some (Objects.putAll dest (s ++ t ++ [0]) m) else none := by
  have hinside := h.inside
  have hinside' := h'.inside
  rw [strcatIn, h.copyLoop_eq (by omega) hne hdest]
  by_cases hfits : dest.offset + s.length ≤ size dest.object
  · have hkept := h'.elsewhere dest s hne'
    have hobject : q.object ≠ (dest.step s.length).object := hne'
    have hnext : (dest.step s.length).offset ≤ size (dest.step s.length).object := hfits
    rw [if_pos hfits, Option.bind_some, hkept.copyLoop_eq (by omega) hobject hnext, Place.step_offset,
      Place.step_object, ← Objects.putAll_append, Place.step_step, ← List.length_append, Nat.add_assoc,
      ← List.length_append]
    by_cases hboth : dest.offset + (s ++ t).length ≤ size dest.object
    · rw [if_pos hboth, Option.bind_some, store_null]
    · rw [if_neg hboth, if_neg (by omega), Option.bind_none]
  · rw [if_neg hfits, if_neg (by omega), Option.bind_none]

/-- A string that lies elsewhere, appended to one that stays where it is. -/
theorem strcatIn_self {q : Place ι} (h : StringIn m p s) (h' : StringIn m q t) (hne : q.object ≠ p.object) :
    strcatIn m p q p =
      if p.offset + (s.length + t.length) < size p.object then
        some (Objects.putAll (p.step s.length) (t ++ [0]) m) else none := by
  have hinside := h.inside
  have hinside' := h'.inside
  have hobject : q.object ≠ (p.step s.length).object := hne
  have hend : (p.step s.length).offset ≤ size (p.step s.length).object := hinside.le
  rw [strcatIn, h.copyLoop_self (by omega), Option.bind_some, h'.copyLoop_eq (by omega) hobject hend, Place.step_offset,
    Place.step_object, ← Nat.add_assoc]
  by_cases hfits : p.offset + s.length + t.length ≤ size p.object
  · rw [if_pos hfits, Option.bind_some, store_null]
    rfl
  · rw [if_neg hfits, if_neg (by omega), Option.bind_none]

end StringIn

/-- The places of strings that follow one another. -/
def packedIn {ι : Type*} : Place ι → List (List UInt8) → List (Place ι)
  | _, [] => []
  | p, s :: strings => p :: packedIn (p.step (s.length + 1)) strings

/-- The strings follow one another from a place on. -/
def StringsIn {ι : Type*} {size : ι → ℕ} (m : Objects size UInt8) : Place ι → List (List UInt8) → Prop
  | _, [] => True
  | p, s :: strings => StringIn m p s ∧ StringsIn m (p.step (s.length + 1)) strings

@[simp] theorem length_packedIn {ι : Type*} (p : Place ι) (strings : List (List UInt8)) :
    (packedIn p strings).length = strings.length := by
  induction strings generalizing p with
  | nil => rfl
  | cons s strings ih => rw [packedIn, List.length_cons, List.length_cons, ih]

theorem StringsIn.congr {ι : Type*} {size : ι → ℕ} {m m' : Objects size UInt8} {p : Place ι}
    {strings : List (List UInt8)} (h : StringsIn m p strings)
    (hsame : ∀ q : Place ι, q.object = p.object → m'.cell q = m.cell q) : StringsIn m' p strings := by
  induction strings generalizing p with
  | nil => trivial
  | cons s strings ih => exact ⟨h.1.congr fun i _ => hsame _ rfl, ih h.2 hsame⟩

section Token
variable {ι κ : Type*} {size : ι → ℕ} {room : κ → ℕ} {delimiter : UInt8} {m : Objects size UInt8} {str : Place ι}
  {s : List UInt8}

theorem cutUp_cons (delimiter c : UInt8) (s : List UInt8) :
    cutUp delimiter (c :: s) = (if c = delimiter then 0 else c) :: cutUp delimiter s := rfl

/-- A string that has been cut up is its fields. -/
theorem stringsIn_cutUp (h : m.Holds str (cutUp delimiter s ++ [0])) (hnull : 0 ∉ s)
    (hinside : str.offset + s.length < size str.object) : StringsIn m str (s.splitOn delimiter) := by
  induction s generalizing str with
  | nil => exact ⟨⟨h, List.not_mem_nil, hinside⟩, trivial⟩
  | cons c s ih =>
    rw [List.mem_cons, not_or] at hnull
    rw [List.length_cons] at hinside
    obtain ⟨hc, hrest⟩ := h
    have hnext : (str.step 1).offset + s.length < size (str.step 1).object := by
      rw [Place.step_offset, Place.step_object]
      omega
    have hfields := ih hrest hnull.2 hnext
    simp only at hc
    rw [splitOn_cons]
    split_ifs at hc ⊢
    · exact ⟨⟨⟨hc, trivial⟩, List.not_mem_nil, by rw [List.length_nil]; omega⟩, hfields⟩
    · obtain ⟨field, fields, heq⟩ := splitOn_eq_cons delimiter s
      rw [heq] at hfields ⊢
      have hfirst := hfields.1.inside
      rw [Place.step_offset, Place.step_object] at hfirst
      refine ⟨⟨⟨hc, hfields.1.bytes⟩, ?_, ?_⟩, ?_⟩
      · rw [List.mem_cons, not_or]
        exact ⟨hnull.1, hfields.1.noNull⟩
      · rw [List.length_cons]
        omega
      · have hplace := hfields.2
        rwa [Place.step_step, Nat.add_comm 1] at hplace

variable [DecidableEq ι] [DecidableEq κ] {tokens : Place κ}

/-- The tokens are the fields of the string, as far as there is room for their places. -/
theorem strTokenLoopIn_eq {pointers : Objects room (Place ι)} {tokenCount : ℕ} (h : m.Holds str s)
    (hinside : str.offset + s.length ≤ size str.object)
    (hroom : tokens.offset + tokenCount ≤ room tokens.object) :
    strTokenLoopIn delimiter tokens s.length str tokenCount m pointers =
      if tokens.offset + (tokenCount + s.count delimiter) ≤ room tokens.object then
        some (tokenCount + s.count delimiter, Objects.putAll str (cutUp delimiter s) m,
          Objects.putAll (tokens.step tokenCount) (packedIn str (s.splitOn delimiter)).tail pointers)
      else none := by
  induction s generalizing m str tokenCount pointers with
  | nil =>
    rw [List.count_nil, Nat.add_zero, if_pos hroom]
    rfl
  | cons c s ih =>
    obtain ⟨field, fields, heq⟩ := splitOn_eq_cons delimiter s
    rw [List.length_cons] at hinside ⊢
    have hnext : (str.step 1).offset + s.length ≤ size (str.step 1).object := by
      rw [Place.step_offset, Place.step_object]
      omega
    rw [strTokenLoopIn, Objects.load_eq (by omega), h.1, Option.bind_some, splitOn_cons]
    by_cases hc : c = delimiter
    · have hcount : (c :: s).count delimiter = s.count delimiter + 1 := by rw [hc, List.count_cons_self]
      have hrest : (m.put str 0).Holds (str.step 1) s := by
        refine h.2.congr fun i _ => Objects.cell_put_of_ne (fun heq => ?_) 0
        have hoffset := congrArg Place.offset heq
        simp only [Place.step_offset] at hoffset
        omega
      rw [if_pos hc, if_pos hc, Objects.store_eq (by omega), Option.bind_some, hcount]
      rcases hroom.lt_or_eq with hlt | hfull
      · rw [Objects.store_eq hlt, Option.bind_some, ih hrest hnext (by omega), Nat.add_assoc,
          Nat.add_comm 1, heq, cutUp_cons, if_pos hc]
        rfl
      · rw [Objects.store_eq_none hfull.ge, Option.bind_none, if_neg (by omega)]
    · have hcount : (c :: s).count delimiter = s.count delimiter := List.count_cons_of_ne hc
      have hsame : m.put str c = m := by
        rw [← h.1, Objects.put_self]
      rw [if_neg hc, if_neg hc, hcount, ih h.2 hnext hroom, heq,
        cutUp_cons, if_neg hc, Objects.putAll, hsame, List.modifyHead_cons, packedIn, packedIn, List.length_cons,
        Place.step_step, Nat.add_comm 1]
      rfl

theorem StringIn.strTokenIn_eq (h : StringIn m str s) (pointers : Objects room (Place ι)) (tokens : Place κ)
    (delimiter : UInt8) (hroom : tokens.offset ≤ room tokens.object) :
    strTokenIn m pointers str tokens delimiter =
      if tokens.offset + (s.count delimiter + 1) ≤ room tokens.object then
        some (s.count delimiter + 1, Objects.putAll str (cutUp delimiter s) m,
          Objects.putAll tokens (packedIn str (s.splitOn delimiter)) pointers)
      else none := by
  obtain ⟨field, fields, heq⟩ := splitOn_eq_cons delimiter s
  rw [strTokenIn, h.strlenIn_eq, Option.bind_some]
  rcases hroom.lt_or_eq with hlt | hfull
  · rw [Objects.store_eq hlt, Option.bind_some, strTokenLoopIn_eq (Objects.holds_append.mp h.bytes).1 h.inside.le hlt,
      Nat.add_comm 1, heq]
    rfl
  · rw [Objects.store_eq_none hfull.ge, Option.bind_none, if_neg (by omega)]

theorem StringIn.fields (h : StringIn m str s) (delimiter : UInt8) :
    StringsIn (Objects.putAll str (cutUp delimiter s) m) str (s.splitOn delimiter) := by
  have hcut : (cutUp delimiter s).length = s.length := List.length_map ..
  refine stringsIn_cutUp (Objects.holds_append.mpr ⟨Objects.holds_putAll .., ?_⟩) h.noNull h.inside
  rw [hcut]
  refine (Objects.holds_append.mp h.bytes).2.congr fun i _ => Objects.cell_putAll fun j hj heq => ?_
  rw [Place.step_step, Place.step_inj] at heq
  omega

end Token

end Zhios
