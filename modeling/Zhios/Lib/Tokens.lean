import Zhios.Lib.ObjectStrings

/-! The tokens of `str_token` are the string cut at its delimiters. -/
namespace Zhios
open Machine

section
variable {ι : Type*} {size : ι → ℕ}

/-- A token: a string of its own, found at its place in the buffer as it was before. -/
structure TokenAt (m m' : Objects size UInt8) (str : Place ι) (length : ℕ) (delimiter : UInt8) (q : Place ι)
    (field : List UInt8) : Prop where
  string : StringIn m' q field
  original : m.Holds q field
  free : delimiter ∉ field
  object : q.object = str.object
  first : str.offset ≤ q.offset
  last : q.offset + field.length ≤ str.offset + length

/-- The tokens of a string, in order, and nothing lost but the delimiters. -/
structure Tokenised (m m' : Objects size UInt8) (str : Place ι) (s : List UInt8) (delimiter : UInt8)
    (places : List (Place ι)) (fields : List (List UInt8)) : Prop where
  count : fields.length = 1 + s.count delimiter
  tokens : List.Forall₂ (TokenAt m m' str s.length delimiter) places fields
  order : places.Pairwise fun p q => p.offset < q.offset
  joined : [delimiter].intercalate fields = s

variable {m m' : Objects size UInt8} {p q str : Place ι} {delimiter : UInt8} {fields : List (List UInt8)} {length : ℕ}

theorem notMem_of_mem_splitOn {s field : List UInt8} (h : field ∈ s.splitOn delimiter) : delimiter ∉ field := by
  induction s generalizing field with
  | nil =>
    rw [List.splitOn_nil, List.mem_singleton] at h
    rw [h]
    exact List.not_mem_nil
  | cons c s ih =>
    obtain ⟨first, rest, heq⟩ := splitOn_eq_cons delimiter s
    rw [splitOn_cons] at h
    split_ifs at h with hc
    · rcases List.mem_cons.mp h with rfl | hmem
      · exact List.not_mem_nil
      · exact ih hmem
    · rw [heq] at h ih
      rw [List.modifyHead_cons] at h
      rcases List.mem_cons.mp h with rfl | hmem
      · rw [List.mem_cons, not_or]
        exact ⟨fun h => hc h.symm, ih List.mem_cons_self⟩
      · exact ih (List.mem_cons_of_mem _ hmem)

theorem offset_le_of_mem_packedIn (h : q ∈ packedIn p fields) : p.offset ≤ q.offset := by
  induction fields generalizing p with
  | nil => exact absurd h List.not_mem_nil
  | cons field fields ih =>
    rcases List.mem_cons.mp h with rfl | hmem
    · exact le_rfl
    · exact (Nat.le_add_right ..).trans (ih hmem)

theorem pairwise_packedIn (p : Place ι) (fields : List (List UInt8)) :
    (packedIn p fields).Pairwise fun p q => p.offset < q.offset := by
  induction fields generalizing p with
  | nil => exact List.Pairwise.nil
  | cons field fields ih =>
    refine List.pairwise_cons.mpr ⟨fun q hq => ?_, ih _⟩
    have hlater := offset_le_of_mem_packedIn hq
    rw [Place.step_offset] at hlater
    omega

/-- The induction over the fields: each begins behind the delimiter of the one before. -/
theorem tokenAt_packedIn (hstrings : StringsIn m' p fields) (horiginal : m.Holds p ([delimiter].intercalate fields))
    (hfree : ∀ field ∈ fields, delimiter ∉ field) (hobject : p.object = str.object) (hfirst : str.offset ≤ p.offset)
    (hlast : p.offset + ([delimiter].intercalate fields).length ≤ str.offset + length) :
    List.Forall₂ (TokenAt m m' str length delimiter) (packedIn p fields) fields := by
  induction fields generalizing p with
  | nil => exact List.Forall₂.nil
  | cons field fields ih =>
    obtain ⟨hfield, hfields⟩ := List.forall_mem_cons.mp hfree
    cases fields with
    | nil =>
      rw [List.intercalate_singleton] at horiginal hlast
      exact List.Forall₂.cons ⟨hstrings.1, horiginal, hfield, hobject, hfirst, hlast⟩ List.Forall₂.nil
    | cons next fields =>
      rw [List.intercalate_cons_cons, List.append_assoc, Objects.holds_append] at horiginal
      rw [List.intercalate_cons_cons, List.append_assoc, List.length_append, List.length_append, List.length_singleton]
        at hlast
      refine List.Forall₂.cons ⟨hstrings.1, horiginal.1, hfield, hobject, hfirst, by omega⟩ ?_
      apply ih hstrings.2 _ hfields hobject
      · rw [Place.step_offset]
        omega
      · rw [Place.step_offset]
        omega
      · have hrest := (Objects.holds_append.mp horiginal.2).2
        rwa [Place.step_step] at hrest

end

section
variable {ι κ : Type*} {size : ι → ℕ} {room : κ → ℕ} [DecidableEq ι] [DecidableEq κ] {m : Objects size UInt8}
  {str : Place ι} {s : List UInt8}

/-- `str_token` returns the number of tokens, and joining them gives back the string. -/
theorem strTokenIn_tokenised (h : StringIn m str s) (pointers : Objects room (Place ι)) (tokens : Place κ)
    (delimiter : UInt8) (hroom : tokens.offset + (1 + s.count delimiter) ≤ room tokens.object) :
    ∃ m' pointers' places fields,
      strTokenIn m pointers str tokens delimiter = some (1 + s.count delimiter, m', pointers') ∧
        pointers'.Holds tokens places ∧ Tokenised m m' str s delimiter places fields := by
  have hjoined : [delimiter].intercalate (s.splitOn delimiter) = s := List.intercalate_splitOn delimiter
  have hrun := h.strTokenIn_eq pointers tokens delimiter (by omega)
  rw [if_pos (by omega), Nat.add_comm _ 1] at hrun
  refine ⟨_, _, packedIn str (s.splitOn delimiter), s.splitOn delimiter, hrun, Objects.holds_putAll .., ?_, ?_,
    pairwise_packedIn .., hjoined⟩
  · rw [length_splitOn, Nat.add_comm]
  · apply tokenAt_packedIn (h.fields delimiter) _ (fun field => notMem_of_mem_splitOn) rfl le_rfl
    · rw [hjoined]
    · rw [hjoined]
      exact (Objects.holds_append.mp h.bytes).1

def letters : Objects (fun _ : Unit => 4) UInt8 := Objects.putAll ⟨(), 0⟩ [0x61, 0x20, 0x62, 0] ⟨fun _ => 0⟩

theorem stringIn_letters : StringIn letters ⟨(), 0⟩ [0x61, 0x20, 0x62] :=
  ⟨Objects.holds_putAll .., by decide, by decide⟩

theorem letters_tokenised :
    ∃ (m' : Objects (fun _ : Unit => 4) UInt8) (pointers' : Objects (fun _ : Unit => 2) (Place Unit))
      (places : List (Place Unit)) (fields : List (List UInt8)),
      strTokenIn letters ⟨fun _ => ⟨(), 0⟩⟩ ⟨(), 0⟩ ⟨(), 0⟩ 0x20 =
          some (1 + [0x61, 0x20, 0x62].count 0x20, m', pointers') ∧
        pointers'.Holds ⟨(), 0⟩ places ∧ Tokenised letters m' ⟨(), 0⟩ [0x61, 0x20, 0x62] 0x20 places fields :=
  strTokenIn_tokenised stringIn_letters ⟨fun _ => ⟨(), 0⟩⟩ ⟨(), 0⟩ 0x20 (by decide)

end

end Zhios
