import Mathlib.Tactic
import Mathlib.Data.Nat.Bitwise

/-! Byte-addressed memory with little-endian 32-bit words, and the bit masks that
split a word into a page base and an in-page part. -/
namespace Machine

abbrev Mem := ℕ → UInt8

def load16 (m : Mem) (a : ℕ) : ℕ := (m a).toNat + 2 ^ 8 * (m (a + 1)).toNat

def load32 (m : Mem) (a : ℕ) : ℕ :=
  (m a).toNat + 2 ^ 8 * (m (a + 1)).toNat + 2 ^ 16 * (m (a + 2)).toNat + 2 ^ 24 * (m (a + 3)).toNat

def store32 (m : Mem) (a w : ℕ) : Mem := fun x =>
  if a ≤ x ∧ x < a + 4 then UInt8.ofNat (w / 2 ^ (8 * (x - a))) else m x

def fill (m : Mem) (a n : ℕ) (b : UInt8) : Mem := fun x =>
  if a ≤ x ∧ x < a + n then b else m x

def storeBytes (m : Mem) (a : ℕ) (bytes : List UInt8) : Mem := fun x =>
  if a ≤ x ∧ x < a + bytes.length then bytes.getD (x - a) 0 else m x

def wordBytes (w : ℕ) : List UInt8 :=
  [UInt8.ofNat w, UInt8.ofNat (w / 2 ^ 8), UInt8.ofNat (w / 2 ^ 16), UInt8.ofNat (w / 2 ^ 24)]

theorem load32_lt (m : Mem) (a : ℕ) : load32 m a < 2 ^ 32 := by
  have h0 := (m a).toNat_lt
  have h1 := (m (a + 1)).toNat_lt
  have h2 := (m (a + 2)).toNat_lt
  have h3 := (m (a + 3)).toNat_lt
  unfold load32
  omega

theorem load32_byte (m : Mem) (a : ℕ) {b : ℕ} (hb : b < 4) :
    m (a + b) = UInt8.ofNat (load32 m a / 2 ^ (8 * b)) := by
  have h0 := (m a).toNat_lt
  have h1 := (m (a + 1)).toNat_lt
  have h2 := (m (a + 2)).toNat_lt
  have h3 := (m (a + 3)).toNat_lt
  apply UInt8.toNat_inj.mp
  rw [UInt8.toNat_ofNat']
  unfold load32
  interval_cases b <;> try rw [Nat.add_zero]
  all_goals omega

theorem load32_congr {m m' : Mem} {a : ℕ} (h : ∀ x, a ≤ x → x < a + 4 → m' x = m x) :
    load32 m' a = load32 m a := by
  simp only [load32, h a (by omega) (by omega), h (a + 1) (by omega) (by omega),
    h (a + 2) (by omega) (by omega), h (a + 3) (by omega) (by omega)]

theorem load32_move {m m' : Mem} {a a' : ℕ} (h : ∀ k < 4, m' (a' + k) = m (a + k)) : load32 m' a' = load32 m a := by
  have hfirst : m' a' = m a := h 0 (by omega)
  simp only [load32, hfirst, h 1 (by omega), h 2 (by omega), h 3 (by omega)]

theorem store32_outside (m : Mem) (w : ℕ) {a x : ℕ} (h : x < a ∨ a + 4 ≤ x) :
    store32 m a w x = m x := if_neg (by omega)

theorem fill_outside (m : Mem) (b : UInt8) {a n x : ℕ} (h : x < a ∨ a + n ≤ x) :
    fill m a n b x = m x := if_neg (by omega)

theorem store32_load32 (m : Mem) (a : ℕ) : store32 m a (load32 m a) = m := by
  funext x
  unfold store32
  split_ifs with h
  · have hbyte := load32_byte m a (show x - a < 4 by omega)
    rw [show a + (x - a) = x by omega] at hbyte
    exact hbyte.symm
  · rfl

theorem load32_store32_same (m : Mem) (a : ℕ) {w : ℕ} (hw : w < 2 ^ 32) :
    load32 (store32 m a w) a = w := by
  have hb : ∀ k, k < 4 → (store32 m a w (a + k)).toNat = w / 2 ^ (8 * k) % 2 ^ 8 := by
    intro k hk
    rw [store32, if_pos (by omega), show a + k - a = k by omega]
    simp
  have h0 := hb 0 (by omega)
  have h1 := hb 1 (by omega)
  have h2 := hb 2 (by omega)
  have h3 := hb 3 (by omega)
  simp only [Nat.add_zero] at h0
  unfold load32
  rw [h0, h1, h2, h3]
  norm_num
  omega

theorem load32_store32_disjoint (m : Mem) (w : ℕ) {a b : ℕ} (h : a + 4 ≤ b ∨ b + 4 ≤ a) :
    load32 (store32 m a w) b = load32 m b :=
  load32_congr fun x _ _ => store32_outside m w (by omega)

def Holds (m : Mem) (a : ℕ) (bytes : List UInt8) : Prop := ∀ o < bytes.length, m (a + o) = bytes.getD o 0

theorem holds_storeBytes (m : Mem) (a : ℕ) (bytes : List UInt8) : Holds (storeBytes m a bytes) a bytes := by
  intro o ho
  rw [storeBytes, if_pos (by omega), Nat.add_sub_cancel_left]

theorem holds_cons {m : Mem} {a : ℕ} {b : UInt8} {bytes : List UInt8} :
    Holds m a (b :: bytes) ↔ m a = b ∧ Holds m (a + 1) bytes := by
  constructor
  · intro h
    refine ⟨h 0 (Nat.zero_lt_succ _), fun o ho => ?_⟩
    have hnext := h (o + 1) (Nat.succ_lt_succ ho)
    rwa [List.getD_cons_succ, Nat.add_comm o 1, ← Nat.add_assoc] at hnext
  · rintro ⟨hfirst, hrest⟩ o ho
    cases o with
    | zero => exact hfirst
    | succ o =>
      rw [List.getD_cons_succ, Nat.add_comm o 1, ← Nat.add_assoc]
      exact hrest o (Nat.lt_of_succ_lt_succ ho)

theorem Holds.congr {m m' : Mem} {a : ℕ} {bytes : List UInt8} (h : Holds m a bytes)
    (hsame : ∀ x, a ≤ x → x < a + bytes.length → m' x = m x) : Holds m' a bytes := by
  intro o ho
  rw [hsame (a + o) (by omega) (by omega), h o ho]

theorem storeBytes_outside (m : Mem) {a x : ℕ} {bytes : List UInt8} (h : x < a ∨ a + bytes.length ≤ x) :
    storeBytes m a bytes x = m x := if_neg (by omega)

theorem storeBytes_cons (m : Mem) (a : ℕ) (b : UInt8) (bytes : List UInt8) :
    storeBytes m a (b :: bytes) = storeBytes (Function.update m a b) (a + 1) bytes := by
  funext x
  simp only [storeBytes, List.length_cons]
  rcases lt_trichotomy x a with hlt | rfl | hgt
  · rw [if_neg (by omega), if_neg (by omega), Function.update_of_ne (by omega)]
  · rw [if_pos (by omega), if_neg (by omega), Nat.sub_self, Function.update_self]
    rfl
  · rw [Function.update_of_ne (by omega)]
    by_cases hin : x < a + 1 + bytes.length
    · rw [if_pos (by omega), if_pos (by omega), show x - a = x - (a + 1) + 1 by omega, List.getD_cons_succ]
    · rw [if_neg (by omega), if_neg (by omega)]

@[simp] theorem storeBytes_nil (m : Mem) (a : ℕ) : storeBytes m a [] = m := by
  funext x
  exact storeBytes_outside m (by simp only [List.length_nil]; omega)

theorem storeBytes_singleton (m : Mem) (a : ℕ) (b : UInt8) : storeBytes m a [b] = Function.update m a b := by
  rw [storeBytes_cons, storeBytes_nil]

theorem Holds.load32_eq {m : Mem} {a : ℕ} {bytes : List UInt8} (h : Holds m a bytes) {o : ℕ}
    (ho : o + 4 ≤ bytes.length) : load32 m (a + o) = load32 (fun x => bytes.getD x 0) o := by
  simp only [load32, Nat.add_assoc]
  rw [h o (by omega), h (o + 1) (by omega), h (o + 2) (by omega), h (o + 3) (by omega)]

theorem Holds.load16_eq {m : Mem} {a : ℕ} {bytes : List UInt8} (h : Holds m a bytes) {o : ℕ}
    (ho : o + 2 ≤ bytes.length) : load16 m (a + o) = load16 (fun x => bytes.getD x 0) o := by
  simp only [load16, Nat.add_assoc]
  rw [h o (by omega), h (o + 1) (by omega)]

/-- Push words on a stack that grows down from `sp`, the first one first. -/
def pushWords (m : Mem) : (sp : ℕ) → (words : List UInt32) → Mem
  | _, [] => m
  | sp, w :: words => pushWords (store32 m (sp - 4) w.toNat) (sp - 4) words

theorem pushWords_append (m : Mem) (sp : ℕ) (words more : List UInt32) :
    pushWords m sp (words ++ more) = pushWords (pushWords m sp words) (sp - 4 * words.length) more := by
  induction words generalizing m sp with
  | nil => rfl
  | cons w words ih =>
    rw [List.cons_append, pushWords, ih, pushWords, List.length_cons, Nat.sub_sub]
    congr 2
    omega

theorem load32_pushWords_above (m : Mem) {sp a : ℕ} (words : List UInt32) (hroom : 4 * words.length ≤ sp)
    (h : sp ≤ a) : load32 (pushWords m sp words) a = load32 m a := by
  induction words generalizing m sp with
  | nil => rfl
  | cons w words ih =>
    rw [List.length_cons] at hroom
    rw [pushWords, ih _ (by omega) (by omega), load32_store32_disjoint m _ (by omega)]

/-- The word pushed as number `i` lies below the `i` words before it. -/
theorem load32_pushWords (m : Mem) (sp : ℕ) (words : List UInt32) (hroom : 4 * words.length ≤ sp) {i : ℕ}
    (hi : i < words.length) : load32 (pushWords m sp words) (sp - 4 * (i + 1)) = words[i].toNat := by
  induction words generalizing m sp i with
  | nil => simp at hi
  | cons w words ih =>
    rw [List.length_cons] at hroom hi
    cases i with
    | zero =>
      rw [pushWords, load32_pushWords_above _ words (by omega) (by omega)]
      exact load32_store32_same m _ w.toNat_lt
    | succ i =>
      have hrest := ih (store32 m (sp - 4) w.toNat) (sp - 4) (by omega) (show i < words.length by omega)
      rw [pushWords, List.getElem_cons_succ, ← hrest]
      congr 1
      omega

theorem pushWords_outside (m : Mem) {sp x : ℕ} (words : List UInt32) (hroom : 4 * words.length ≤ sp)
    (hx : x < sp - 4 * words.length ∨ sp ≤ x) : pushWords m sp words x = m x := by
  induction words generalizing m sp with
  | nil => rfl
  | cons w words ih =>
    rw [List.length_cons] at hroom hx
    rw [pushWords, ih _ (by omega) (by omega), store32_outside _ _ (by omega)]

/-- Words in two aligned pages are the same word or do not overlap. -/
theorem load32_store32_page (m : Mem) {a b i j w : ℕ} (ha : a % 4096 = 0) (hb : b % 4096 = 0)
    (hi : i < 1024) (hj : j < 1024) (hw : w < 2 ^ 32) :
    load32 (store32 m (a + 4 * i) w) (b + 4 * j) =
      if a = b ∧ i = j then w else load32 m (b + 4 * j) := by
  split_ifs with h
  · rw [h.1, h.2, load32_store32_same m _ hw]
  · exact load32_store32_disjoint m w (by omega)

/-- Clearing part of one page leaves the words of every other page. -/
theorem load32_fill_page (m : Mem) (v : UInt8) {a b j n : ℕ} (ha : a % 4096 = 0) (hb : b % 4096 = 0)
    (hab : a ≠ b) (hn : n ≤ 4096) (hj : j < 1024) :
    load32 (fill m a n v) (b + 4 * j) = load32 m (b + 4 * j) :=
  load32_congr fun x _ _ => fill_outside m v (by omega)

def slice (m : Mem) (a n : ℕ) : List UInt8 := (List.range n).map fun i => m (a + i)

theorem slice_append (m : Mem) (a n n' : ℕ) : slice m a n ++ slice m (a + n) n' = slice m a (n + n') := by
  simp only [slice, List.range_add, List.map_append, List.map_map, Function.comp_def, Nat.add_assoc]

theorem getElem?_slice (m : Mem) {a n i : ℕ} (hi : i < n) : (slice m a n)[i]? = some (m (a + i)) := by
  simp [slice, hi]

/-- The mask `0xfffff000` keeps the page base of a word. -/
theorem and_page_mask {x : ℕ} (hx : x < 2 ^ 32) : x &&& 0xfffff000 = 4096 * (x / 4096) := by
  have hm : 0xfffff000 = (2 ^ 20 - 1) <<< 12 := rfl
  have hr : 4096 * (x / 4096) = (x >>> 12) <<< 12 := by
    rw [Nat.shiftLeft_eq, Nat.shiftRight_eq_div_pow]
    omega
  rw [hm, hr]
  apply Nat.eq_of_testBit_eq
  intro i
  simp only [Nat.testBit_and, Nat.testBit_shiftLeft, Nat.testBit_shiftRight,
    Nat.testBit_two_pow_sub_one]
  by_cases h12 : 12 ≤ i
  · rw [show 12 + (i - 12) = i by omega]
    by_cases h32 : i < 32
    · simp [h12, show i - 12 < 20 by omega]
    · have hlarge : x.testBit i = false :=
        Nat.testBit_lt_two_pow (hx.trans_le (Nat.pow_le_pow_right (by omega) (by omega)))
      simp [hlarge]
  · simp [h12]

/-- In-page flags and an aligned base do not share bits. -/
theorem or_page_flags {a f : ℕ} (ha : a % 4096 = 0) (hf : f < 4096) : a ||| f = a + f := by
  have h := Nat.two_pow_add_eq_or_of_lt (i := 12) hf (a / 4096)
  rw [show 2 ^ 12 * (a / 4096) = a by omega] at h
  exact h.symm

theorem or_and_page_mask {a f : ℕ} (ha : a % 4096 = 0) (hf : f < 4096) (hlt : a < 2 ^ 32) :
    (a ||| f) &&& 0xfffff000 = a := by
  rw [or_page_flags ha hf, and_page_mask (by omega)]
  omega

end Machine
