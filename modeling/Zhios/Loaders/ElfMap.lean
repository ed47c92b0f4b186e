import Zhios.Loaders.Elf
import Zhios.Memory.PagingChunk

/-! The page tables after an ELF file is mapped. Every header of the table is mapped,
each to one page more than its whole pages, so what a page ends up with is decided by
the last header whose pages include it. -/
namespace Zhios
open Machine

namespace ElfProgramHeader

/-- The pages of the header's range are counted from its first one. -/
def firstPage (h : ElfProgramHeader) : ℕ := h.pVaddr / 4096

def pages (h : ElfProgramHeader) : ℕ := pagesFor h.pMemsz

def writable (h : ElfProgramHeader) : Bool := h.pFlags &&& pfW != 0

def isLoad (h : ElfProgramHeader) : Bool := h.pType == ptLoad

/-- `map_page_range` is called with a range that includes page `P`. -/
def covers (h : ElfProgramHeader) (P : ℕ) : Bool := decide (pageIndex h.firstPage P < h.pages)

/-- The physical page that the header maps page `P` to. -/
def frame (h : ElfProgramHeader) (elfMemory P : ℕ) : ℕ :=
  (elfGetPheaderPhyAddress elfMemory h / 4096 + pageIndex h.firstPage P) % 2 ^ 20

/-- Some address of the segment lies on page `P`. -/
def Touches (h : ElfProgramHeader) (P : ℕ) : Prop := ∃ k < h.pMemsz, uint32 (h.pVaddr + k) / 4096 = P

end ElfProgramHeader

/-- The last header of the table that maps page `P`. -/
def coveringHeader (headers : List ElfProgramHeader) (P : ℕ) : Option ElfProgramHeader :=
  lastMatch (·.covers P) headers

/-- The headers that the loop of `process_map_memory_to_elf` reads, each as it is when
the loop comes to it. A table inside the file is not written in between. -/
def pheadersFrom (page elfMemory : ℕ) : (fuel i : ℕ) → Mem → List ElfProgramHeader
  | 0, _, _ => []
  | fuel + 1, i, m =>
    if i < (elfGetHeader m elfMemory).ePhnum then
      let pheader := elfGetPheader m elfMemory i
      pheader :: pheadersFrom page elfMemory fuel (i + 1) (mapPheader m page elfMemory pheader).2
    else []

def elfPheaders (m : Mem) (page elfMemory : ℕ) : List ElfProgramHeader :=
  pheadersFrom page elfMemory (2 ^ 16) 0 m

theorem pheadersFrom_take (page elfMemory n fuel i : ℕ) (m : Mem) (hn : n ≤ fuel) :
    (pheadersFrom page elfMemory fuel i m).take n = pheadersFrom page elfMemory n i m := by
  induction n generalizing fuel i m with
  | zero => rfl
  | succ n ih =>
    obtain ⟨fuel, rfl⟩ : ∃ f, fuel = f + 1 := ⟨fuel - 1, by omega⟩
    simp only [pheadersFrom]
    split_ifs
    · rw [List.take_succ_cons, ih fuel (i + 1) _ (by omega)]
    · rfl

theorem pheadersFrom_length_le (page elfMemory fuel i : ℕ) (m : Mem) :
    (pheadersFrom page elfMemory fuel i m).length ≤ fuel := by
  induction fuel generalizing i m with
  | zero => exact le_rfl
  | succ fuel ih =>
    simp only [pheadersFrom]
    split_ifs
    · exact Nat.succ_le_succ (ih _ _)
    · exact Nat.zero_le _

/-- The flat map after one header. -/
def remapPheader (elfMemory : ℕ) (F : ℕ → ℕ) (h : ElfProgramHeader) : ℕ → ℕ := fun P =>
  if h.covers P then 4096 * h.frame elfMemory P ||| pheaderFlags h else F P

def remapElf (elfMemory : ℕ) (F : ℕ → ℕ) (headers : List ElfProgramHeader) : ℕ → ℕ :=
  headers.foldl (remapPheader elfMemory) F

theorem remapElf_apply (elfMemory : ℕ) (F : ℕ → ℕ) (headers : List ElfProgramHeader) (P : ℕ) :
    remapElf elfMemory F headers P =
      (coveringHeader headers P).elim (F P) fun h => 4096 * h.frame elfMemory P ||| pheaderFlags h :=
  foldl_lastMatch ElfProgramHeader.covers (fun h P => 4096 * h.frame elfMemory P ||| pheaderFlags h) headers F P

theorem alginToLowerPage_aligned (a : ℕ) : alginToLowerPage a % 4096 = 0 := by
  unfold alginToLowerPage pagingPageSize
  omega

theorem alginToLowerPage_page (a : ℕ) : alginToLowerPage a / 4096 = a / 4096 := by
  unfold alginToLowerPage pagingPageSize
  omega

theorem alginToLowerPage_le (a : ℕ) : alginToLowerPage a ≤ a := Nat.sub_le ..

theorem pheaderFlags_eq (h : ElfProgramHeader) : pheaderFlags h = if h.writable then 7 else 5 := by
  unfold pheaderFlags ElfProgramHeader.writable
  by_cases hw : h.pFlags &&& pfW = 0 <;> simp [hw] <;> rfl

theorem pheaderFlags_lt (h : ElfProgramHeader) : pheaderFlags h < 4096 := by
  rw [pheaderFlags_eq]
  split_ifs <;> omega

theorem pagesFor_le (size : ℕ) : pagesFor size ≤ 2 ^ 20 := by
  unfold pagesFor
  split_ifs <;> omega

theorem mapPheader_eq (m : Mem) (page elfMemory : ℕ) (h : ElfProgramHeader) :
    mapPheader m page elfMemory h = mapPageLoop page (pheaderFlags h) h.pages (alginToLowerPage h.pVaddr)
      (alginToLowerPage (elfGetPheaderPhyAddress elfMemory h)) 0 m :=
  mapPageRange_pages m page _ _ (alginToLowerPage_aligned _) h.pMemsz_lt

section
variable {m : Mem} {page : ℕ} {c : Chunk} {F : ℕ → ℕ} (elfMemory : ℕ)

theorem ChunkAt.mapPheader (hs : c.Separate page)
    (hblock : ∀ a, c.IsBlock page a → a % 4096 = 0 ∧ a + 4096 ≤ 2 ^ 32) (h : ChunkAt m page c F)
    (header : ElfProgramHeader) :
    (Zhios.mapPheader m page elfMemory header).1 = 0 ∧
      ChunkAt (Zhios.mapPheader m page elfMemory header).2 page c (remapPheader elfMemory F header) := by
  have hv := (alginToLowerPage_le header.pVaddr).trans_lt header.pVaddr_lt
  have hp := (alginToLowerPage_le (elfGetPheaderPhyAddress elfMemory header)).trans_lt (uint32_lt _)
  have hmapped := h.mapFrames hs hblock (pheaderFlags_lt header) header.pages _ _ hv
    (alginToLowerPage_aligned _) hp (alginToLowerPage_aligned _) (pagesFor_le _)
  rw [alginToLowerPage_page, alginToLowerPage_page] at hmapped
  rw [mapPheader_eq]
  refine ⟨hmapped.1, hmapped.2.withMap fun P _ => ?_⟩
  simp only [remapPheader, remapFrames, ElfProgramHeader.covers, ElfProgramHeader.frame, decide_eq_true_eq]
  rfl

theorem ChunkAt.mapPheader_outside (hs : c.Separate page)
    (hblock : ∀ a, c.IsBlock page a → a % 4096 = 0 ∧ a + 4096 ≤ 2 ^ 32) (h : ChunkAt m page c F)
    (header : ElfProgramHeader) {x : ℕ} (hx : ∀ i < 1024, x < c.table i ∨ c.table i + 4096 ≤ x) :
    (Zhios.mapPheader m page elfMemory header).2 x = m x := by
  have hv := (alginToLowerPage_le header.pVaddr).trans_lt header.pVaddr_lt
  have hp := (alginToLowerPage_le (elfGetPheaderPhyAddress elfMemory header)).trans_lt (uint32_lt _)
  rw [mapPheader_eq]
  exact h.mapFrames_outside hs hblock (pheaderFlags_lt header) header.pages _ _ hv (alginToLowerPage_aligned _)
    hp (alginToLowerPage_aligned _) hx

/-- The loop does not fail, and leaves the flat map that its headers spell out; it
writes nothing but the tables. -/
theorem ChunkAt.mapPheaders (hs : c.Separate page)
    (hblock : ∀ a, c.IsBlock page a → a % 4096 = 0 ∧ a + 4096 ≤ 2 ^ 32) (h : ChunkAt m page c F)
    (fuel i : ℕ) :
    (Zhios.mapPheaders page elfMemory fuel i 0 m).1 = 0 ∧
      ChunkAt (Zhios.mapPheaders page elfMemory fuel i 0 m).2 page c
        (remapElf elfMemory F (pheadersFrom page elfMemory fuel i m)) ∧
      ∀ x, (∀ j < 1024, x < c.table j ∨ c.table j + 4096 ≤ x) →
        (Zhios.mapPheaders page elfMemory fuel i 0 m).2 x = m x := by
  induction fuel generalizing i m F with
  | zero => exact ⟨rfl, h, fun _ _ => rfl⟩
  | succ fuel ih =>
    simp only [Zhios.mapPheaders, pheadersFrom]
    split_ifs with hin hneg
    · rw [(h.mapPheader elfMemory hs hblock _).1] at hneg
      exact absurd hneg (by omega)
    · obtain ⟨hres, hafter⟩ := h.mapPheader elfMemory hs hblock (elfGetPheader m elfMemory i)
      obtain ⟨hok, hrest, hframe⟩ := ih hafter (i + 1)
      rw [hres]
      refine ⟨hok, hrest, fun x hx => ?_⟩
      rw [hframe x hx, h.mapPheader_outside elfMemory hs hblock _ hx]
    · exact ⟨rfl, h, fun _ _ => rfl⟩

end

/-- The ELF header and the program headers lie outside the tables of the chunk. -/
structure ElfApart (m : Mem) (c : Chunk) (elfMemory : ℕ) : Prop where
  header : ∀ o < 52, ∀ j < 1024, elfMemory + o < c.table j ∨ c.table j + 4096 ≤ elfMemory + o
  table : ∀ i < (elfGetHeader m elfMemory).ePhnum, ∀ o < 32, ∀ j < 1024,
    uint32 (elfGetPheaderStart m elfMemory + sizeofElfProgramHeader * i) + o < c.table j ∨
      c.table j + 4096 ≤ uint32 (elfGetPheaderStart m elfMemory + sizeofElfProgramHeader * i) + o

theorem elfGetHeader_congr {m m' : Mem} {elfMemory : ℕ} (h : ∀ o < 52, m' (elfMemory + o) = m (elfMemory + o)) :
    (elfGetHeader m' elfMemory).ePhnum = (elfGetHeader m elfMemory).ePhnum ∧
      (elfGetHeader m' elfMemory).ePhoff = (elfGetHeader m elfMemory).ePhoff := by
  constructor
  · simp only [elfGetHeader, load16, Nat.add_assoc]
    rw [h 44 (by omega), h 45 (by omega)]
  · apply load32_congr
    intro x hlo hhi
    have hx := h (x - elfMemory) (by omega)
    rwa [show elfMemory + (x - elfMemory) = x by omega] at hx

theorem ElfProgramHeader.load_congr {m m' : Mem} {a : ℕ} (h : ∀ o < 32, m' (a + o) = m (a + o)) :
    ElfProgramHeader.load m' a = ElfProgramHeader.load m a := by
  have hword : ∀ o, o + 4 ≤ 32 → load32 m' (a + o) = load32 m (a + o) := by
    intro o ho
    apply load32_congr
    intro x hlo hhi
    have hx := h (x - a) (by omega)
    rwa [show a + (x - a) = x by omega] at hx
  simp only [ElfProgramHeader.load, ElfProgramHeader.mk.injEq]
  exact ⟨hword 0 (by omega), hword 4 (by omega), hword 8 (by omega), hword 16 (by omega), hword 20 (by omega),
    hword 24 (by omega)⟩

section
variable {m m₀ : Mem} {page elfMemory : ℕ} {c : Chunk} {F : ℕ → ℕ}

/-- A table that the loop does not write to is read as it was at first. -/
theorem ElfApart.pheadersFrom_eq (happart : ElfApart m₀ c elfMemory) (hs : c.Separate page)
    (hblock : ∀ a, c.IsBlock page a → a % 4096 = 0 ∧ a + 4096 ≤ 2 ^ 32) (h : ChunkAt m page c F)
    (hsame : ∀ x, (∀ j < 1024, x < c.table j ∨ c.table j + 4096 ≤ x) → m x = m₀ x) (fuel i : ℕ)
    (hfuel : (elfGetHeader m₀ elfMemory).ePhnum ≤ i + fuel) :
    pheadersFrom page elfMemory fuel i m =
      (List.range' i ((elfGetHeader m₀ elfMemory).ePhnum - i)).map (elfGetPheader m₀ elfMemory) := by
  induction fuel generalizing i m F with
  | zero =>
    rw [pheadersFrom, show (elfGetHeader m₀ elfMemory).ePhnum - i = 0 by omega]
    rfl
  | succ fuel ih =>
    obtain ⟨hphnum, hphoff⟩ := elfGetHeader_congr fun o ho => hsame _ (happart.header o ho)
    have hstart : elfGetPheaderStart m elfMemory = elfGetPheaderStart m₀ elfMemory := by
      unfold elfGetPheaderStart
      rw [hphoff]
    simp only [pheadersFrom, hphnum]
    split_ifs with hin
    · have hread : elfGetPheader m elfMemory i = elfGetPheader m₀ elfMemory i := by
        unfold elfGetPheader
        rw [hstart]
        exact ElfProgramHeader.load_congr fun o ho => hsame _ (happart.table i hin o ho)
      obtain ⟨hn, hrange⟩ : ∃ n, (elfGetHeader m₀ elfMemory).ePhnum - i = n + 1 ∧
          (elfGetHeader m₀ elfMemory).ePhnum - (i + 1) = n := ⟨_, by omega, rfl⟩
      rw [ih (h.mapPheader elfMemory hs hblock _).2 (fun x hx => ?_) (i + 1) (by omega), hrange.1, hrange.2,
        List.range'_succ, List.map_cons, hread]
      rw [h.mapPheader_outside elfMemory hs hblock _ hx, hsame x hx]
    · rw [show (elfGetHeader m₀ elfMemory).ePhnum - i = 0 by omega]
      rfl

theorem ElfApart.elfPheaders_eq (happart : ElfApart m c elfMemory) (hs : c.Separate page)
    (hblock : ∀ a, c.IsBlock page a → a % 4096 = 0 ∧ a + 4096 ≤ 2 ^ 32) (h : ChunkAt m page c F) :
    elfPheaders m page elfMemory =
      (List.range (elfGetHeader m elfMemory).ePhnum).map (elfGetPheader m elfMemory) := by
  have hphnum : (elfGetHeader m elfMemory).ePhnum ≤ 0 + 2 ^ 16 := by
    have h0 := (m (elfMemory + 44)).toNat_lt
    have h1 := (m (elfMemory + 44 + 1)).toNat_lt
    simp only [elfGetHeader, load16]
    omega
  rw [elfPheaders, happart.pheadersFrom_eq hs hblock h (fun _ _ => rfl) _ 0 hphnum, List.range_eq_range',
    Nat.sub_zero]

end

/-- Only the first byte of the signature is compared. -/
theorem elfIsValidSignature_eq (header : ElfHeader) : elfIsValidSignature header = (header.eIdent 0 == 0x7f) := by
  unfold elfIsValidSignature elfSignature
  by_cases h : header.eIdent 0 = 0x7f
  · simp [memcmp, h]
  · simp only [memcmp, List.length_cons, Int.toNat_zero, List.getD_cons_zero, ne_eq, Ne.symm h, not_false_eq_true,
      if_true, beq_eq_false_iff_ne.mpr h]
    split_ifs <;> rfl

theorem elfValidateLoad_congr {h h' : ElfHeader} (hident : ∀ i < 6, h.eIdent i = h'.eIdent i)
    (htype : h.eType = h'.eType) (hentry : h.eEntry = h'.eEntry) (hphoff : h.ePhoff = h'.ePhoff) :
    elfValidateLoad h = elfValidateLoad h' := by
  simp only [elfValidateLoad, elfIsValidSignature_eq, elfIsValidClass, elfIsValidEncoding, elfHasProgramHeader,
    elfIsExecutable, hident 0 (by omega), hident 4 (by omega), hident 5 (by omega), htype, hentry, hphoff]

/-- What is checked of a file is in its first 52 bytes. -/
theorem elfValidateLoad_at {m : Mem} {a : ℕ} {bytes : List UInt8} (hm : Holds m a bytes) (hlen : 52 ≤ bytes.length) :
    elfValidateLoad (elfGetHeader m a) = elfValidateLoad (elfGetHeader (fun x => bytes.getD x 0) 0) := by
  apply elfValidateLoad_congr
  · intro i hi
    simp only [elfGetHeader, hm i (by omega), Nat.zero_add]
  · exact hm.load16_eq (by omega)
  · exact hm.load32_eq (by omega)
  · exact hm.load32_eq (by omega)

/-- The bytes are an accepted ELF file with these program headers right behind the ELF
header. -/
structure ElfImage (bytes : List UInt8) (headers : List ElfProgramHeader) : Prop where
  length : 52 + 32 * headers.length ≤ bytes.length
  accepted : elfValidateLoad (elfGetHeader (fun x => bytes.getD x 0) 0) = 0
  phoff : (elfGetHeader (fun x => bytes.getD x 0) 0).ePhoff = 52
  phnum : (elfGetHeader (fun x => bytes.getD x 0) 0).ePhnum = headers.length
  read : (List.range headers.length).map (fun i => ElfProgramHeader.load (fun x => bytes.getD x 0) (52 + 32 * i)) =
    headers

namespace ElfImage
variable {m : Mem} {a : ℕ} {bytes : List UInt8} {headers : List ElfProgramHeader}

theorem accepted_at (h : ElfImage bytes headers) (hm : Holds m a bytes) : elfValidateLoad (elfGetHeader m a) = 0 := by
  have hlen := h.length
  rw [elfValidateLoad_at hm (by omega), h.accepted]

theorem phnum_at (h : ElfImage bytes headers) (hm : Holds m a bytes) :
    (elfGetHeader m a).ePhnum = headers.length := by
  have hlen := h.length
  rw [← h.phnum]
  exact hm.load16_eq (by omega)

theorem start_at (h : ElfImage bytes headers) (hm : Holds m a bytes) (ha : a + bytes.length ≤ 2 ^ 32) {i : ℕ}
    (hi : i < headers.length) :
    uint32 (elfGetPheaderStart m a + sizeofElfProgramHeader * i) = a + (52 + 32 * i) := by
  have hlen := h.length
  have hphoff : (elfGetHeader m a).ePhoff = 52 := by
    rw [← h.phoff]
    exact hm.load32_eq (by omega)
  have hstart := uint32_of_bounds (x := (a : ℤ) + 52) (by positivity) (by omega)
  have haddress := uint32_of_bounds (x := ((a + 52 : ℕ) : ℤ) + 32 * i) (by positivity) (by push_cast; omega)
  unfold elfGetPheaderStart sizeofElfProgramHeader
  rw [hphoff, if_neg (by decide), show uint32 ((a : ℤ) + ((52 : ℕ) : ℤ)) = a + 52 by push_cast; omega]
  push_cast at haddress ⊢
  omega

theorem pheaders_at (h : ElfImage bytes headers) (hm : Holds m a bytes) (ha : a + bytes.length ≤ 2 ^ 32)
    {page : ℕ} {c : Chunk} {F : ℕ → ℕ} (hs : c.Separate page)
    (hblock : ∀ b, c.IsBlock page b → b % 4096 = 0 ∧ b + 4096 ≤ 2 ^ 32) (hat : ChunkAt m page c F)
    (hout : ∀ o < bytes.length, ∀ j < 1024, a + o < c.table j ∨ c.table j + 4096 ≤ a + o) :
    elfPheaders m page a = headers := by
  have hlen := h.length
  have hphnum := h.phnum_at hm
  have happart : ElfApart m c a := by
    refine ⟨fun o ho => hout o (by omega), fun i hi o ho => ?_⟩
    rw [hphnum] at hi
    rw [h.start_at hm ha hi, Nat.add_assoc]
    exact hout _ (by omega)
  rw [happart.elfPheaders_eq hs hblock hat, hphnum, ← h.read, List.length_map, List.length_range]
  apply List.map_congr_left
  intro i hi
  have hi := List.mem_range.mp hi
  unfold elfGetPheader
  rw [h.start_at hm ha hi]
  simp only [ElfProgramHeader.load, ElfProgramHeader.mk.injEq, Nat.add_assoc]
  refine ⟨hm.load32_eq ?_, hm.load32_eq ?_, hm.load32_eq ?_, hm.load32_eq ?_, hm.load32_eq ?_, hm.load32_eq ?_⟩ <;>
    omega

end ElfImage

end Zhios
