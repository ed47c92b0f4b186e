import Zhios.Fs.Fat16
import Zhios.Lib.StringMemory
import Mathlib.Data.List.TakeWhile

/-! The names of directory entries. The two fields of an entry hold no null, so the
string functions that read them go on into the fields behind. -/
namespace Zhios
open Machine

/-- `get_fat16_filename` on memory, with the address of the literal `"."`. -/
def getFat16FilenameAt (m : Mem) (entry filename dot : ℕ) : Mem :=
  let m := rstripAt m entry filename
  if m (entry + 8) ≠ 0x00 ∧ m (entry + 8) ≠ 0x20 then
    let m := strcatAt m filename dot filename
    let m := strcatAt m filename (entry + 8) filename
    rstripAt m filename filename
  else m

/-- The strings that start at the two fields of an entry, and a buffer that they and the
literal stay clear of. -/
structure FilenameCall (m : Mem) (entry filename dot : ℕ) (s t : List UInt8) : Prop where
  name : StringAt m entry s
  extension : StringAt m (entry + 8) t
  literal : StringAt m dot [0x2E]
  short : s.length + t.length + 1 < 2 ^ 32
  name_apart : entry + s.length < filename ∨ filename + s.length + t.length + 1 < entry
  extension_apart : entry + 8 + t.length < filename ∨ filename + s.length + t.length + 1 < entry + 8
  literal_apart : dot + 1 < filename ∨ filename + s.length + t.length + 1 < dot

/-- The three calls on the buffer leave in it what they do to strings. -/
theorem FilenameCall.getFat16FilenameAt {m : Mem} {entry filename dot : ℕ} {s t : List UInt8}
    (h : FilenameCall m entry filename dot s t) :
    StringAt (getFat16FilenameAt m entry filename dot) filename (getFat16Filename m entry) := by
  have hshort := h.short
  have hname := h.name_apart
  have hextension := h.extension_apart
  have hliteral := h.literal_apart
  have hle := length_rstrip_le s
  have hstripped := zero_notMem_rstrip h.name.noNull
  have hdot : (0 : UInt8) ∉ [(0x2E : UInt8)] := by decide
  have h₁ : StringAt (storeBytes m filename (rstrip s ++ [0])) filename (rstrip s) :=
    stringAt_storeBytes m filename hstripped
  have hfirst : storeBytes m filename (rstrip s ++ [0]) (entry + 8) = m (entry + 8) :=
    storeBytes_outside m (by rw [List.length_append, List.length_singleton]; omega)
  have hliteral₁ : StringAt (storeBytes m filename (rstrip s ++ [0])) dot [0x2E] := by
    refine h.literal.congr fun x hlo hhi => storeBytes_outside m ?_
    rw [List.length_singleton] at hhi
    rw [List.length_append, List.length_singleton]
    omega
  have hextension₁ : StringAt (storeBytes m filename (rstrip s ++ [0])) (entry + 8) t := by
    refine h.extension.congr fun x hlo hhi => storeBytes_outside m ?_
    rw [List.length_append, List.length_singleton]
    omega
  have hstrip : rstripAt m entry filename = storeBytes m filename (rstrip s ++ [0]) :=
    rstripAt_eq h.name (by omega) (by omega)
  have hs : cstring m entry = s := h.name.cstring_eq (by omega)
  have ht : cstring m (entry + 8) = t := h.extension.cstring_eq (by omega)
  simp only [Zhios.getFat16FilenameAt, getFat16Filename, hstrip, hs, ht, hfirst]
  generalize storeBytes m filename (rstrip s ++ [0]) = m₁ at *
  split_ifs with hstart
  · have h₂ := h₁.append hdot
    have hextension₂ : StringAt (storeBytes m₁ (filename + (rstrip s).length) ([0x2E] ++ [0])) (entry + 8) t := by
      refine hextension₁.congr fun x hlo hhi => storeBytes_outside m₁ ?_
      simp only [List.length_append, List.length_singleton]
      omega
    have hlength : (rstrip s ++ [0x2E]).length = (rstrip s).length + 1 := by simp
    rw [strcatAt_self h₁ hliteral₁ (by omega) (by decide) (by rw [List.length_singleton]; omega)]
    generalize storeBytes m₁ (filename + (rstrip s).length) ([0x2E] ++ [0]) = m₂ at *
    have h₃ := h₂.append h.extension.noNull
    rw [strcatAt_self h₂ hextension₂ (by omega) (by omega) (by omega)]
    exact h₃.rstripAt (by rw [List.length_append]; omega)
  · exact h₁

/-- The entry spells out a short name in its two fields, which are padded with spaces. -/
structure ShortNameAt (m : Mem) (entry : ℕ) (name extension : List UInt8) : Prop where
  name_pos : 1 ≤ name.length
  name_le : name.length ≤ 8
  extension_le : extension.length ≤ 3
  name_plain : ∀ c ∈ name, c ≠ 0x00 ∧ c ≠ 0x20
  extension_plain : ∀ c ∈ extension, c ≠ 0x00 ∧ c ≠ 0x20
  nameField : slice m entry 8 = name ++ List.replicate (8 - name.length) 0x20
  extensionField : slice m (entry + 8) 3 = extension ++ List.replicate (3 - extension.length) 0x20

/-- The name as it is written in a path. -/
def shortName (name extension : List UInt8) : List UInt8 :=
  if extension = [] then name else name ++ 0x2E :: extension

/-- There is no extension, or both fields end in front of what follows them: the name in
a space of its own field, the extension in one or at the attribute. -/
def FieldsEnd (m : Mem) (entry : ℕ) (name extension : List UInt8) : Prop :=
  extension = [] ∨
    name.length < 8 ∧ (extension.length < 3 ∨ m (entry + 11) = 0x00 ∨ m (entry + 11) = 0x20)

theorem cstringAux_slice (m : Mem) (fuel a n : ℕ) (h : ∀ c ∈ slice m a n, c ≠ 0) :
    cstringAux m (n + fuel) a = slice m a n ++ cstringAux m fuel (a + n) := by
  induction n generalizing a with
  | zero => simp [slice]
  | succ n ih =>
    have hsplit : slice m a (n + 1) = m a :: slice m (a + 1) n := by
      rw [Nat.add_comm n 1, ← slice_append]
      simp [slice]
    rw [hsplit, List.forall_mem_cons] at h
    rw [Nat.add_right_comm, cstringAux, if_neg h.1, ih (a + 1) h.2, hsplit, List.cons_append,
      show a + 1 + n = a + (n + 1) by omega]

theorem rstrip_append {w : List UInt8} (hw : ∀ c ∈ w, c ≠ 0x00 ∧ c ≠ 0x20) (rest : List UInt8) :
    rstrip (w ++ rest) = w ++ rstrip rest :=
  List.takeWhile_append_of_pos fun c hc => by simpa using (hw c hc).2

theorem rstrip_field {w : List UInt8} (hw : ∀ c ∈ w, c ≠ 0x00 ∧ c ≠ 0x20) (pad : ℕ) (rest : List UInt8) :
    rstrip (w ++ List.replicate pad 0x20 ++ rest) = w ++ if pad = 0 then rstrip rest else [] := by
  rw [List.append_assoc, rstrip_append hw]
  cases pad with
  | zero => rfl
  | succ pad => simp [List.replicate_succ, rstrip_cons]

theorem rstrip_cstringAux_eq_nil (m : Mem) (fuel a : ℕ) :
    rstrip (cstringAux m (fuel + 1) a) = [] ↔ m a = 0x00 ∨ m a = 0x20 := by
  rw [cstringAux]
  split_ifs with hnull
  · simp [hnull, rstrip]
  · rw [rstrip_cons]
    split_ifs with hspace <;> simp [hnull, hspace]

namespace ShortNameAt
variable {m : Mem} {entry : ℕ} {name extension : List UInt8}

theorem extension_run (h : ShortNameAt m entry name extension) (fuel : ℕ) :
    cstringAux m (3 + fuel) (entry + 8) =
      extension ++ List.replicate (3 - extension.length) 0x20 ++ cstringAux m fuel (entry + 11) := by
  rw [cstringAux_slice, h.extensionField]
  rw [h.extensionField]
  intro c hc
  rcases List.mem_append.mp hc with hc | hc
  · exact (h.extension_plain c hc).1
  · rw [List.eq_of_mem_replicate hc]
    decide

theorem name_run (h : ShortNameAt m entry name extension) (fuel : ℕ) :
    cstringAux m (8 + fuel) entry = name ++ List.replicate (8 - name.length) 0x20 ++ cstringAux m fuel (entry + 8) := by
  rw [cstringAux_slice, h.nameField]
  rw [h.nameField]
  intro c hc
  rcases List.mem_append.mp hc with hc | hc
  · exact (h.name_plain c hc).1
  · rw [List.eq_of_mem_replicate hc]
    decide

/-- What the driver takes for the name: a name of eight characters runs on into the
extension, and an extension of three into the attribute. -/
theorem rstrip_name (h : ShortNameAt m entry name extension) :
    rstrip (cstring m entry) = name ++ if 8 - name.length = 0 then
      extension ++
        (if 3 - extension.length = 0 then rstrip (cstringAux m (2 ^ 32 - 11) (entry + 11)) else []) else [] := by
  rw [cstring]
  nth_rewrite 1 [show 2 ^ 32 = 8 + (3 + (2 ^ 32 - 11)) by rfl]
  rw [h.name_run, rstrip_field h.name_plain, h.extension_run, rstrip_field h.extension_plain]

theorem rstrip_extension (h : ShortNameAt m entry name extension) :
    rstrip (cstring m (entry + 8)) = extension ++
      if 3 - extension.length = 0 then rstrip (cstringAux m (2 ^ 32 - 3) (entry + 11)) else [] := by
  rw [cstring]
  nth_rewrite 1 [show 2 ^ 32 = 3 + (2 ^ 32 - 3) by rfl]
  rw [h.extension_run, rstrip_field h.extension_plain]

theorem extension_start (h : ShortNameAt m entry name extension) :
    m (entry + 8) ≠ 0x00 ∧ m (entry + 8) ≠ 0x20 ↔ extension ≠ [] := by
  have hfirst : (slice m (entry + 8) 3)[0]? = some (m (entry + 8)) := getElem?_slice m (by decide)
  rw [h.extensionField] at hfirst
  cases hext : extension with
  | nil =>
    subst hext
    have hspace : m (entry + 8) = 0x20 := (Option.some.inj hfirst).symm
    simp [hspace]
  | cons c rest =>
    subst hext
    have hc : m (entry + 8) = c := (Option.some.inj hfirst).symm
    rw [hc]
    exact iff_of_true (h.extension_plain c List.mem_cons_self) (by simp)

theorem getFat16Filename_eq_iff (h : ShortNameAt m entry name extension) :
    getFat16Filename m entry = shortName name extension ↔ FieldsEnd m entry name extension := by
  have hle := h.name_le
  have hextension := h.extension_le
  have hend := rstrip_cstringAux_eq_nil m (2 ^ 32 - 4) (entry + 11)
  rw [show 2 ^ 32 - 4 + 1 = 2 ^ 32 - 3 by rfl] at hend
  unfold FieldsEnd shortName getFat16Filename
  by_cases hnone : extension = []
  · rw [if_neg (mt h.extension_start.mp (not_not.mpr hnone)), if_pos hnone, h.rstrip_name, hnone]
    simp
  · have hplain : ∀ c ∈ rstrip (cstring m entry) ++ [0x2E], c ≠ 0x00 ∧ c ≠ 0x20 := by
      intro c hc
      rcases List.mem_append.mp hc with hc | hc
      · refine ⟨fun h0 => zero_notMem_rstrip (zero_notMem_cstring m entry) (h0 ▸ hc), ?_⟩
        simpa using List.mem_takeWhile_imp hc
      · rw [List.mem_singleton.mp hc]
        decide
    rw [if_pos (h.extension_start.mpr hnone), if_neg hnone, or_iff_right hnone]
    rw [strcat, strcat, rstrip_append hplain, h.rstrip_extension, h.rstrip_name]
    by_cases hfull : name.length < 8
    · rw [if_neg (by omega), List.append_nil, List.append_assoc, List.append_cancel_left_eq, List.singleton_append,
        List.cons.injEq, List.append_right_eq_self, and_iff_right rfl, and_iff_right hfull]
      by_cases hlong : extension.length < 3
      · rw [if_neg (by omega)]
        exact iff_of_true rfl (Or.inl hlong)
      · rw [if_pos (by omega), hend, or_iff_right hlong]
    · refine iff_of_false (fun heq => ?_) fun hand => hfull hand.1
      have hlength := congrArg List.length heq
      have hpos := List.length_pos_of_ne_nil hnone
      rw [if_pos (by omega)] at hlength
      simp only [List.length_append, List.length_cons] at hlength
      omega

end ShortNameAt

/-- Short names are decoded exactly when there is no extension, or the name leaves a space
in its field and the extension one in its own or has the attribute 0x00 or 0x20 behind it;
and that is also what is found in the buffer. -/
theorem getFat16Filename_decodes (m : Mem) (entry : ℕ) (name extension : List UInt8)
    (h : ShortNameAt m entry name extension) :
    (getFat16Filename m entry = shortName name extension ↔ FieldsEnd m entry name extension) ∧
      ∀ filename dot s t, FilenameCall m entry filename dot s t →
        (StringAt (getFat16FilenameAt m entry filename dot) filename (shortName name extension) ↔
          FieldsEnd m entry name extension) := by
  refine ⟨h.getFat16Filename_eq_iff, fun filename dot s t hcall => ?_⟩
  rw [← h.getFat16Filename_eq_iff]
  constructor
  · exact fun hname => hcall.getFat16FilenameAt.unique hname
  · intro heq
    rw [← heq]
    exact hcall.getFat16FilenameAt

def readmeEntry : List UInt8 :=
  [0x52, 0x45, 0x41, 0x44, 0x4D, 0x45, 0x20, 0x20, 0x54, 0x58, 0x54, 0x20]

/-- `README.TXT`, with the literal `"."` at address 16: the name is returned, and it is
what the calls on a buffer at address 32 leave there. -/
theorem getFat16Filename_readme :
    getFat16Filename (bufferOf (readmeEntry ++ [0, 0, 0, 0, 0x2E]) fun _ => 0) 0 =
        [0x52, 0x45, 0x41, 0x44, 0x4D, 0x45, 0x2E, 0x54, 0x58, 0x54] ∧
      StringAt (getFat16FilenameAt (bufferOf (readmeEntry ++ [0, 0, 0, 0, 0x2E]) fun _ => 0) 0 32 16) 32
        [0x52, 0x45, 0x41, 0x44, 0x4D, 0x45, 0x2E, 0x54, 0x58, 0x54] := by
  have hname : ShortNameAt (bufferOf (readmeEntry ++ [0, 0, 0, 0, 0x2E]) fun _ => 0) 0
      [0x52, 0x45, 0x41, 0x44, 0x4D, 0x45] [0x54, 0x58, 0x54] := by
    constructor <;> decide +kernel
  have hcall : FilenameCall (bufferOf (readmeEntry ++ [0, 0, 0, 0, 0x2E]) fun _ => 0) 0 32 16
      readmeEntry [0x54, 0x58, 0x54, 0x20] := by
    constructor
    · exact ⟨by unfold Holds; decide, by decide⟩
    · exact ⟨by unfold Holds; decide, by decide⟩
    · exact ⟨by unfold Holds; decide, by decide⟩
    all_goals decide
  obtain ⟨hreturned, hstored⟩ := getFat16Filename_decodes _ 0 _ _ hname
  exact ⟨hreturned.mpr (Or.inr (by decide)), (hstored 32 16 _ _ hcall).mpr (Or.inr (by decide))⟩

def terminalEntry : List UInt8 :=
  [0x54, 0x45, 0x52, 0x4D, 0x49, 0x4E, 0x41, 0x4C, 0x45, 0x4C, 0x46, 0x20]

/-- A name that fills its field is decoded together with the extension. -/
theorem getFat16Filename_terminal :
    ShortNameAt (bufferOf terminalEntry fun _ => 0) 0
        [0x54, 0x45, 0x52, 0x4D, 0x49, 0x4E, 0x41, 0x4C] [0x45, 0x4C, 0x46] ∧
      getFat16Filename (bufferOf terminalEntry fun _ => 0) 0 =
        [0x54, 0x45, 0x52, 0x4D, 0x49, 0x4E, 0x41, 0x4C, 0x45, 0x4C, 0x46, 0x2E, 0x45, 0x4C, 0x46] ∧
      getFat16Filename (bufferOf terminalEntry fun _ => 0) 0 ≠
        shortName [0x54, 0x45, 0x52, 0x4D, 0x49, 0x4E, 0x41, 0x4C] [0x45, 0x4C, 0x46] := by
  have hname : StringAt (bufferOf terminalEntry fun _ => 0) 0 terminalEntry := ⟨by unfold Holds; decide, by decide⟩
  have hextension : StringAt (bufferOf terminalEntry fun _ => 0) 8 [0x45, 0x4C, 0x46, 0x20] :=
    ⟨by unfold Holds; decide, by decide⟩
  have hdecoded : getFat16Filename (bufferOf terminalEntry fun _ => 0) 0 =
      [0x54, 0x45, 0x52, 0x4D, 0x49, 0x4E, 0x41, 0x4C, 0x45, 0x4C, 0x46, 0x2E, 0x45, 0x4C, 0x46] := by
    rw [getFat16Filename, hname.cstring_eq (by decide), hextension.cstring_eq (by decide)]
    decide
  refine ⟨by constructor <;> decide +kernel, hdecoded, ?_⟩
  rw [hdecoded]
  decide

end Zhios
