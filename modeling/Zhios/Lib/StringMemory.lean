import Zhios.Lib.CString

/-! The functions of `lib/src/string.c` and `lib/src/memory.c` that write strings, on
memory itself: where a string is copied from and to, and which bytes are overwritten. -/
namespace Zhios
open Machine

def strlen (m : Mem) (str : ℕ) : ℕ := (cstring m str).length

/-- Copies byte by byte, the null included. -/
def strcpyLoop : (fuel src dest : ℕ) → Mem → Mem
  | 0, _, _, m => m
  | fuel + 1, src, dest, m =>
    if m src = 0 then Function.update m dest 0
    else strcpyLoop fuel (src + 1) (dest + 1) (Function.update m dest (m src))

def strcpy (m : Mem) (src dest : ℕ) : Mem := strcpyLoop (2 ^ 32) src dest m

/-- The loop of `rstrip`, with `fuel` bytes of the string left. -/
def rstripLoop : (fuel s1 s2 : ℕ) → Mem → Mem
  | 0, _, s2, m => Function.update m s2 0
  | fuel + 1, s1, s2, m =>
    if m s1 = 0 ∨ m s1 = 0x20 then Function.update m s2 0
    else rstripLoop fuel (s1 + 1) (s2 + 1) (Function.update m s2 (m s1))

/-- `rstrip`, which takes the length of the string before it writes. -/
def rstripAt (m : Mem) (s1 s2 : ℕ) : Mem := rstripLoop (strlen m s1) s1 s2 m

/-- One of the two loops of `strcat`: where it stops to write, and the memory. -/
def strcatLoop : (fuel src dest : ℕ) → Mem → ℕ × Mem
  | 0, _, dest, m => (dest, m)
  | fuel + 1, src, dest, m =>
    if m src = 0 then (dest, m) else strcatLoop fuel (src + 1) (dest + 1) (Function.update m dest (m src))

def strcatAt (m : Mem) (s1 s2 dest : ℕ) : Mem :=
  let first := strcatLoop (2 ^ 32) s1 dest m
  let second := strcatLoop (2 ^ 32) s2 first.1 first.2
  Function.update second.2 second.1 0

/-- `ptr1` is the source. -/
def memcpy : (ptr1 ptr2 count : ℕ) → Mem → Mem
  | _, _, 0, m => m
  | ptr1, ptr2, count + 1, m => memcpy (ptr1 + 1) (ptr2 + 1) count (Function.update m ptr2 (m ptr1))

/-- The loop of `str_token` over the `fuel` bytes from `a` on. -/
def strTokenLoop (delimiter : UInt8) : (fuel a : ℕ) → List ℕ → Mem → List ℕ × Mem
  | 0, _, tokens, m => (tokens, m)
  | fuel + 1, a, tokens, m =>
    if m a = delimiter then strTokenLoop delimiter fuel (a + 1) (tokens ++ [a + 1]) (Function.update m a 0)
    else strTokenLoop delimiter fuel (a + 1) tokens m

/-- The pointers that are stored in `tokens`. The string is cut up in place. -/
def strToken (m : Mem) (str : ℕ) (delimiter : UInt8) : List ℕ × Mem :=
  strTokenLoop delimiter (strlen m str) str [str] m

/-- The string `s` is at `a`, with its null. -/
structure StringAt (m : Mem) (a : ℕ) (s : List UInt8) : Prop where
  bytes : Holds m a (s ++ [0])
  noNull : 0 ∉ s

namespace StringAt
variable {m m' : Mem} {a : ℕ} {c : UInt8} {s : List UInt8}

theorem congr (h : StringAt m a s) (hsame : ∀ x, a ≤ x → x ≤ a + s.length → m' x = m x) : StringAt m' a s := by
  refine ⟨h.bytes.congr fun x hlo hhi => hsame x hlo ?_, h.noNull⟩
  rw [List.length_append, List.length_singleton] at hhi
  omega

theorem head (h : StringAt m a (c :: s)) : m a = c ∧ c ≠ 0 :=
  ⟨(holds_cons.mp h.bytes).1, fun heq => h.noNull (heq ▸ List.mem_cons_self)⟩

theorem tail (h : StringAt m a (c :: s)) : StringAt m (a + 1) s :=
  ⟨(holds_cons.mp h.bytes).2, fun hmem => h.noNull (List.mem_cons_of_mem _ hmem)⟩

theorem null (h : StringAt m a s) : m (a + s.length) = 0 := by
  rw [h.bytes s.length (by simp)]
  simp

theorem cstringAux_eq (h : StringAt m a s) {fuel : ℕ} (hfuel : s.length < fuel) : cstringAux m fuel a = s := by
  induction s generalizing a fuel with
  | nil =>
    obtain ⟨fuel, rfl⟩ : ∃ f, fuel = f + 1 := ⟨fuel - 1, by omega⟩
    have hnull : m a = 0 := h.null
    rw [cstringAux, if_pos hnull]
  | cons c s ih =>
    obtain ⟨fuel, rfl⟩ : ∃ f, fuel = f + 1 := ⟨fuel - 1, by omega⟩
    obtain ⟨hc, hne⟩ := h.head
    rw [List.length_cons] at hfuel
    rw [cstringAux, if_neg (by rw [hc]; exact hne), hc, ih h.tail (by omega)]

theorem cstring_eq (h : StringAt m a s) (hlen : s.length < 2 ^ 32) : cstring m a = s := h.cstringAux_eq hlen

theorem strlen_eq (h : StringAt m a s) (hlen : s.length < 2 ^ 32) : strlen m a = s.length := by
  rw [strlen, h.cstring_eq hlen]

end StringAt

theorem strcpyLoop_eq {m : Mem} {src dest fuel : ℕ} {s : List UInt8} (h : StringAt m src s) (hfuel : s.length < fuel)
    (hapart : src + s.length < dest ∨ dest + s.length < src) :
    strcpyLoop fuel src dest m = storeBytes m dest (s ++ [0]) := by
  induction s generalizing m src dest fuel with
  | nil =>
    obtain ⟨fuel, rfl⟩ : ∃ f, fuel = f + 1 := ⟨fuel - 1, by omega⟩
    have hnull : m src = 0 := h.null
    rw [strcpyLoop, if_pos hnull, List.nil_append, storeBytes_singleton]
  | cons c s ih =>
    obtain ⟨fuel, rfl⟩ : ∃ f, fuel = f + 1 := ⟨fuel - 1, by omega⟩
    obtain ⟨hc, hne⟩ := h.head
    rw [List.length_cons] at hfuel hapart
    have hrest : StringAt (Function.update m dest c) (src + 1) s :=
      h.tail.congr fun x hlo hhi => Function.update_of_ne (by omega) ..
    rw [strcpyLoop, if_neg (by rw [hc]; exact hne), hc, ih hrest (by omega) (by omega), List.cons_append,
      storeBytes_cons]

theorem strcpy_eq {m : Mem} {src dest : ℕ} {s : List UInt8} (h : StringAt m src s) (hlen : s.length < 2 ^ 32)
    (hapart : src + s.length < dest ∨ dest + s.length < src) :
    strcpy m src dest = storeBytes m dest (s ++ [0]) := strcpyLoop_eq h hlen hapart

theorem StringAt.unique {m : Mem} {a : ℕ} {s t : List UInt8} (hs : StringAt m a s) (ht : StringAt m a t) : s = t := by
  have hlong := ht.cstringAux_eq (show t.length < s.length + t.length + 1 by omega)
  rwa [hs.cstringAux_eq (by omega)] at hlong

theorem StringAt.append {m : Mem} {a : ℕ} {s t : List UInt8} (h : StringAt m a s) (ht : 0 ∉ t) :
    StringAt (storeBytes m (a + s.length) (t ++ [0])) a (s ++ t) := by
  refine ⟨fun o ho => ?_, by rw [List.mem_append, not_or]; exact ⟨h.noNull, ht⟩⟩
  rw [List.append_assoc] at ho ⊢
  rw [List.length_append] at ho
  by_cases hin : o < s.length
  · rw [storeBytes_outside _ (by omega), h.bytes o (by rw [List.length_append]; omega),
      List.getD_append _ _ _ _ hin, List.getD_append _ _ _ _ hin]
  · rw [storeBytes, if_pos (by omega), List.getD_append_right s _ _ _ (by omega),
      show a + o - (a + s.length) = o - s.length by omega]

/-- A string that was written where there was none. -/
theorem stringAt_storeBytes (m : Mem) (a : ℕ) {s : List UInt8} (hs : 0 ∉ s) :
    StringAt (storeBytes m a (s ++ [0])) a s := ⟨holds_storeBytes m a _, hs⟩

theorem rstrip_cons (c : UInt8) (s : List UInt8) : rstrip (c :: s) = if c = 0x20 then [] else c :: rstrip s := by
  rw [rstrip, List.takeWhile_cons]
  by_cases hc : c = 0x20 <;> simp [hc, rstrip]

theorem rstripLoop_eq {m : Mem} {src dest : ℕ} {s : List UInt8} (h : StringAt m src s)
    (hapart : src + s.length < dest ∨ dest + s.length < src) :
    rstripLoop s.length src dest m = storeBytes m dest (rstrip s ++ [0]) := by
  induction s generalizing m src dest with
  | nil => exact (storeBytes_singleton m dest 0).symm
  | cons c s ih =>
    obtain ⟨hc, hne⟩ := h.head
    rw [List.length_cons] at hapart
    rw [List.length_cons, rstripLoop, hc, rstrip_cons]
    by_cases hspace : c = 0x20
    · rw [if_pos (Or.inr hspace), if_pos hspace, List.nil_append, storeBytes_singleton]
    · have hrest : StringAt (Function.update m dest c) (src + 1) s :=
        h.tail.congr fun x hlo hhi => Function.update_of_ne (by omega) ..
      rw [if_neg (not_or.mpr ⟨hne, hspace⟩), if_neg hspace, ih hrest (by omega), List.cons_append, storeBytes_cons]

/-- Stripping a string in place cuts it off. -/
theorem rstripLoop_self {m : Mem} {a : ℕ} {s : List UInt8} (h : StringAt m a s) :
    rstripLoop s.length a a m = Function.update m (a + (rstrip s).length) 0 := by
  induction s generalizing a with
  | nil => rfl
  | cons c s ih =>
    obtain ⟨hc, hne⟩ := h.head
    rw [List.length_cons, rstripLoop, hc, rstrip_cons]
    by_cases hspace : c = 0x20
    · rw [if_pos (Or.inr hspace), if_pos hspace, List.length_nil, Nat.add_zero]
    · have hsame : Function.update m a c = m := by
        rw [← hc]
        exact Function.update_eq_self a m
      rw [if_neg (not_or.mpr ⟨hne, hspace⟩), if_neg hspace, hsame, ih h.tail, List.length_cons,
        show a + 1 + (rstrip s).length = a + ((rstrip s).length + 1) by omega]

theorem rstripAt_eq {m : Mem} {src dest : ℕ} {s : List UInt8} (h : StringAt m src s) (hlen : s.length < 2 ^ 32)
    (hapart : src + s.length < dest ∨ dest + s.length < src) :
    rstripAt m src dest = storeBytes m dest (rstrip s ++ [0]) := by
  rw [rstripAt, h.strlen_eq hlen, rstripLoop_eq h hapart]

theorem StringAt.rstripAt {m : Mem} {a : ℕ} {s : List UInt8} (h : StringAt m a s) (hlen : s.length < 2 ^ 32) :
    StringAt (rstripAt m a a) a (rstrip s) := by
  have hprefix : rstrip s <+: s := List.takeWhile_prefix _
  obtain ⟨rest, hrest⟩ := hprefix
  rw [Zhios.rstripAt, h.strlen_eq hlen, rstripLoop_self h]
  refine ⟨fun o ho => ?_, zero_notMem_rstrip h.noNull⟩
  rw [List.length_append, List.length_singleton] at ho
  by_cases hin : o < (rstrip s).length
  · have hle := length_rstrip_le s
    rw [Function.update_of_ne (by omega), h.bytes o (by rw [List.length_append]; omega),
      List.getD_append _ _ _ _ (by omega), List.getD_append _ _ _ _ hin]
    nth_rewrite 1 [← hrest]
    exact List.getD_append _ _ _ _ hin
  · obtain rfl : o = (rstrip s).length := by omega
    rw [Function.update_self, List.getD_append_right _ _ _ _ le_rfl, Nat.sub_self]
    rfl

theorem strcatLoop_eq {m : Mem} {src dest fuel : ℕ} {s : List UInt8} (h : StringAt m src s) (hfuel : s.length < fuel)
    (hapart : src + s.length < dest ∨ dest + s.length ≤ src) :
    strcatLoop fuel src dest m = (dest + s.length, storeBytes m dest s) := by
  induction s generalizing m src dest fuel with
  | nil =>
    obtain ⟨fuel, rfl⟩ : ∃ f, fuel = f + 1 := ⟨fuel - 1, by omega⟩
    have hnull : m src = 0 := h.null
    rw [strcatLoop, if_pos hnull, storeBytes_nil]
    rfl
  | cons c s ih =>
    obtain ⟨fuel, rfl⟩ : ∃ f, fuel = f + 1 := ⟨fuel - 1, by omega⟩
    obtain ⟨hc, hne⟩ := h.head
    rw [List.length_cons] at hfuel hapart
    have hrest : StringAt (Function.update m dest c) (src + 1) s :=
      h.tail.congr fun x hlo hhi => Function.update_of_ne (by omega) ..
    rw [strcatLoop, if_neg (by rw [hc]; exact hne), hc, ih hrest (by omega) (by omega), storeBytes_cons,
      List.length_cons, Nat.add_assoc, Nat.add_comm 1]

/-- The first loop of `strcat` when the string is already in its place. -/
theorem strcatLoop_self {m : Mem} {a fuel : ℕ} {s : List UInt8} (h : StringAt m a s) (hfuel : s.length < fuel) :
    strcatLoop fuel a a m = (a + s.length, m) := by
  induction s generalizing a fuel with
  | nil =>
    obtain ⟨fuel, rfl⟩ : ∃ f, fuel = f + 1 := ⟨fuel - 1, by omega⟩
    have hnull : m a = 0 := h.null
    rw [strcatLoop, if_pos hnull]
    rfl
  | cons c s ih =>
    obtain ⟨fuel, rfl⟩ : ∃ f, fuel = f + 1 := ⟨fuel - 1, by omega⟩
    obtain ⟨hc, hne⟩ := h.head
    have hsame : Function.update m a c = m := by
      rw [← hc]
      exact Function.update_eq_self a m
    rw [List.length_cons] at hfuel
    rw [strcatLoop, if_neg (by rw [hc]; exact hne), hc, hsame, ih h.tail (by omega), List.length_cons, Nat.add_assoc,
      Nat.add_comm 1]

/-- Appending a string that lies elsewhere to one that stays in its place. -/
theorem strcatAt_self {m : Mem} {dest s2 : ℕ} {s t : List UInt8} (hs : StringAt m dest s) (ht : StringAt m s2 t)
    (hslen : s.length < 2 ^ 32) (htlen : t.length < 2 ^ 32)
    (hapart : s2 + t.length < dest + s.length ∨ dest + s.length + t.length ≤ s2) :
    strcatAt m dest s2 dest = storeBytes m (dest + s.length) (t ++ [0]) := by
  simp only [strcatAt, strcatLoop_self hs hslen, strcatLoop_eq ht htlen hapart]
  rw [← storeBytes_singleton]
  funext x
  simp only [storeBytes, List.length_append, List.length_singleton]
  by_cases hlast : x = dest + s.length + t.length
  · rw [if_pos (by omega), if_pos (by omega), List.getD_append_right _ _ _ _ (by omega), hlast, Nat.sub_self,
      show dest + s.length + t.length - (dest + s.length) - t.length = 0 by omega]
  · rw [if_neg (by omega)]
    by_cases hin : dest + s.length ≤ x ∧ x < dest + s.length + t.length
    · rw [if_pos hin, if_pos (by omega), List.getD_append _ _ _ _ (by omega)]
    · rw [if_neg hin, if_neg (by omega)]

theorem memcpy_eq {m : Mem} {ptr1 ptr2 : ℕ} {bytes : List UInt8} (h : Holds m ptr1 bytes)
    (hapart : ptr1 + bytes.length ≤ ptr2 ∨ ptr2 + bytes.length ≤ ptr1) :
    memcpy ptr1 ptr2 bytes.length m = storeBytes m ptr2 bytes := by
  induction bytes generalizing m ptr1 ptr2 with
  | nil => exact (storeBytes_nil m ptr2).symm
  | cons b bytes ih =>
    obtain ⟨hb, hrest⟩ := holds_cons.mp h
    rw [List.length_cons] at hapart
    have hrest : Holds (Function.update m ptr2 b) (ptr1 + 1) bytes :=
      hrest.congr fun x hlo hhi => Function.update_of_ne (by omega) ..
    rw [List.length_cons, memcpy, hb, ih hrest (by omega), storeBytes_cons]

def packedSize (strings : List (List UInt8)) : ℕ := (strings.map fun s => s.length + 1).sum

@[simp] theorem packedSize_nil : packedSize [] = 0 := rfl

@[simp] theorem packedSize_cons (s : List UInt8) (strings : List (List UInt8)) :
    packedSize (s :: strings) = s.length + 1 + packedSize strings := rfl

/-- The addresses of strings that follow one another from `a` on. -/
def packed : (a : ℕ) → List (List UInt8) → List ℕ
  | _, [] => []
  | a, s :: strings => a :: packed (a + s.length + 1) strings

/-- The strings follow one another from `a` on. -/
def StringsAt (m : Mem) : (a : ℕ) → List (List UInt8) → Prop
  | _, [] => True
  | a, s :: strings => StringAt m a s ∧ StringsAt m (a + s.length + 1) strings

theorem StringsAt.congr {m m' : Mem} {a : ℕ} {strings : List (List UInt8)} (h : StringsAt m a strings)
    (hsame : ∀ x, a ≤ x → x < a + packedSize strings → m' x = m x) : StringsAt m' a strings := by
  induction strings generalizing a with
  | nil => trivial
  | cons s strings ih =>
    rw [packedSize_cons] at hsame
    exact ⟨h.1.congr fun x hlo hhi => hsame x hlo (by omega), ih h.2 fun x hlo hhi => hsame x (by omega) (by omega)⟩

@[simp] theorem length_packed (a : ℕ) (strings : List (List UInt8)) : (packed a strings).length = strings.length := by
  induction strings generalizing a with
  | nil => rfl
  | cons s strings ih => rw [packed, List.length_cons, List.length_cons, ih]

/-- The delimiters of a string are overwritten with nulls. -/
def cutUp (delimiter : UInt8) (s : List UInt8) : List UInt8 := s.map fun c => if c = delimiter then 0 else c

theorem splitOn_cons (delimiter c : UInt8) (s : List UInt8) :
    (c :: s).splitOn delimiter =
      if c = delimiter then [] :: s.splitOn delimiter else (s.splitOn delimiter).modifyHead (List.cons c) := by
  rw [List.splitOn, List.splitOnP_cons_eq_if_modifyHead]
  simp only [beq_iff_eq]
  rfl

theorem splitOn_eq_cons (delimiter : UInt8) (s : List UInt8) :
    ∃ field fields, s.splitOn delimiter = field :: fields :=
  List.exists_cons_of_ne_nil (List.splitOnP_ne_nil _ s)

theorem length_splitOn (delimiter : UInt8) (s : List UInt8) :
    (s.splitOn delimiter).length = s.count delimiter + 1 := by
  induction s with
  | nil => rfl
  | cons c s ih =>
    rw [splitOn_cons, List.count_cons]
    by_cases hc : c = delimiter
    · simp [hc, ih]
    · simp [hc, ih]

theorem packedSize_splitOn (delimiter : UInt8) (s : List UInt8) :
    packedSize (s.splitOn delimiter) = s.length + 1 := by
  induction s with
  | nil => rfl
  | cons c s ih =>
    obtain ⟨field, fields, heq⟩ := splitOn_eq_cons delimiter s
    rw [splitOn_cons, List.length_cons]
    rw [heq, packedSize_cons] at ih
    split_ifs
    · rw [packedSize_cons, heq, packedSize_cons, List.length_nil]
      omega
    · rw [heq, List.modifyHead_cons, packedSize_cons, List.length_cons]
      omega

/-- The tokens are the fields of the string, which lie where the string was. -/
theorem strTokenLoop_eq {delimiter : UInt8} {m : Mem} {a : ℕ} {s : List UInt8} {tokens : List ℕ} (h : Holds m a s) :
    strTokenLoop delimiter s.length a tokens m =
      (tokens ++ (packed a (s.splitOn delimiter)).tail, storeBytes m a (cutUp delimiter s)) := by
  induction s generalizing m a tokens with
  | nil =>
    rw [List.length_nil, strTokenLoop, List.splitOn_nil, packed, packed, List.tail_cons, List.append_nil]
    exact congrArg _ (storeBytes_nil m a).symm
  | cons c s ih =>
    obtain ⟨hc, hrest⟩ := holds_cons.mp h
    obtain ⟨field, fields, heq⟩ := splitOn_eq_cons delimiter s
    rw [List.length_cons, strTokenLoop, hc, cutUp, List.map_cons, storeBytes_cons, splitOn_cons]
    split_ifs with hdelimiter
    · have hrest : Holds (Function.update m a 0) (a + 1) s :=
        hrest.congr fun x hlo _ => Function.update_of_ne (by omega) ..
      rw [ih hrest, heq, packed, packed, List.tail_cons, List.length_nil, List.append_assoc]
      rfl
    · have hsame : Function.update m a c = m := by
        rw [← hc]
        exact Function.update_eq_self a m
      rw [ih hrest, heq, List.modifyHead_cons, packed, packed, List.tail_cons, List.tail_cons, List.length_cons, hsame,
        cutUp, show a + 1 + field.length + 1 = a + (field.length + 1) + 1 by omega]

/-- A string that has been cut up is its fields. -/
theorem stringsAt_cutUp {delimiter : UInt8} {m : Mem} {a : ℕ} {s : List UInt8}
    (h : Holds m a (cutUp delimiter s ++ [0])) (hnull : 0 ∉ s) : StringsAt m a (s.splitOn delimiter) := by
  induction s generalizing a with
  | nil => exact ⟨⟨h, List.not_mem_nil⟩, trivial⟩
  | cons c s ih =>
    rw [List.mem_cons, not_or] at hnull
    obtain ⟨hc, hrest⟩ := holds_cons.mp h
    have hfields := ih hrest hnull.2
    simp only at hc
    rw [splitOn_cons]
    split_ifs at hc ⊢
    · refine ⟨⟨?_, List.not_mem_nil⟩, hfields⟩
      exact holds_cons.mpr ⟨hc, fun o ho => absurd ho (Nat.not_lt_zero o)⟩
    · obtain ⟨field, fields, heq⟩ := splitOn_eq_cons delimiter s
      rw [heq] at hfields ⊢
      rw [List.modifyHead_cons]
      refine ⟨⟨holds_cons.mpr ⟨hc, hfields.1.bytes⟩, ?_⟩, ?_⟩
      · rw [List.mem_cons, not_or]
        exact ⟨hnull.1, hfields.1.noNull⟩
      · rw [List.length_cons, show a + (field.length + 1) + 1 = a + 1 + field.length + 1 by omega]
        exact hfields.2

/-- `str_token` on a string: the pointers to its fields, which it leaves behind in place
of the string. -/
theorem strToken_eq {m : Mem} {str : ℕ} {s : List UInt8} (h : StringAt m str s) (hlen : s.length < 2 ^ 32)
    (delimiter : UInt8) :
    strToken m str delimiter = (packed str (s.splitOn delimiter), storeBytes m str (cutUp delimiter s)) ∧
      StringsAt (storeBytes m str (cutUp delimiter s)) str (s.splitOn delimiter) := by
  obtain ⟨field, fields, heq⟩ := splitOn_eq_cons delimiter s
  have hcut : (cutUp delimiter s).length = s.length := List.length_map ..
  have hbytes : Holds m str s := fun o ho => by
    rw [h.bytes o (by rw [List.length_append]; omega), List.getD_append _ _ _ _ ho]
  constructor
  · rw [strToken, h.strlen_eq hlen, strTokenLoop_eq hbytes, heq]
    rfl
  · refine stringsAt_cutUp (fun o ho => ?_) h.noNull
    rw [List.length_append, hcut, List.length_singleton] at ho
    by_cases hin : o < s.length
    · rw [storeBytes, if_pos (by omega), Nat.add_sub_cancel_left, List.getD_append _ _ _ _ (by omega)]
    · obtain rfl : o = s.length := by omega
      rw [storeBytes_outside _ (by omega), h.null, List.getD_append_right _ _ _ _ (by omega), hcut, Nat.sub_self]
      rfl

end Zhios
