import Zhios.Loaders.ElfMap
import Zhios.Memory.PagingRun

/-! What the segments of an ELF file get: where their bytes are found, and which pages
change besides. -/
namespace Zhios
open Machine

def taskPageFlags : ℕ := pagingIsPresent ||| pagingAccessFromAll

/-- The memory holds the chunk `c` at `page` as `paging_new_chunk` leaves it for a task. -/
structure FreshChunk (m : Mem) (page : ℕ) (c : Chunk) : Prop where
  separate : c.Separate page
  block : ∀ a, c.IsBlock page a → a % 4096 = 0 ∧ a + 4096 ≤ 2 ^ 32
  chunkAt : ChunkAt m page c (identityMap taskPageFlags)

theorem NewChunk.freshChunk {k k' : KMem} {live live' : List Extent} {page : ℕ} {c : Chunk}
    (h : NewChunk k k' live live' page taskPageFlags c) : FreshChunk k'.mem page c :=
  ⟨h.separate, fun a ha => ⟨(h.owned a ha).aligned h.wellFormed, (h.owned a ha).lt h.wellFormed⟩, h.chunkAt⟩

theorem FreshChunk.storeBytes {m : Mem} {page : ℕ} {c : Chunk} (h : FreshChunk m page c) {a : ℕ}
    {bytes : List UInt8} (hout : ∀ b, c.IsBlock page b → a + bytes.length ≤ b ∨ b + 4096 ≤ a) :
    FreshChunk (Machine.storeBytes m a bytes) page c := by
  refine ⟨h.separate, h.block, h.chunkAt.congr fun b hb j hj => load32_congr fun x hlo hhi => if_neg ?_⟩
  have hapart := hout b hb
  omega

theorem exists_freshChunk : ∃ m page c, FreshChunk m page c ∧ ∀ a, c.IsBlock page a → heapAddress ≤ a := by
  have hwf := freshKernelHeap_wellFormed fun _ => 0
  obtain ⟨page, k', hnew, -⟩ := pagingNewChunk_succeeds hwf taskPageFlags (by simp [Layout.used])
  obtain ⟨live', c, hc⟩ := pagingNewChunk_spec hwf (by decide) hnew
  refine ⟨k'.mem, page, c, hc.freshChunk, fun a ha => ?_⟩
  obtain ⟨s, hs, hat⟩ := hc.owned a ha
  have hlo := (hc.wellFormed.tiling.layout.inside _ hs).1
  have hstart : k'.heap.startAddress = heapAddress := hc.region.start_eq.trans freshKernelHeap_startAddress
  rw [hstart] at hat
  simp only at hlo
  omega

/-- The physical page behind page `P`: the last header that maps it decides, and
without one it is `P` itself. -/
def elfFrame (headers : List ElfProgramHeader) (elfMemory P : ℕ) : ℕ :=
  (coveringHeader headers P).elim P (·.frame elfMemory P)

/-- Whether page `P` is writable, decided in the same way. -/
def elfWritable (headers : List ElfProgramHeader) (P : ℕ) : Bool :=
  (coveringHeader headers P).elim false ElfProgramHeader.writable

theorem elfFrame_lt (headers : List ElfProgramHeader) (elfMemory : ℕ) {P : ℕ} (hP : P < 2 ^ 20) :
    elfFrame headers elfMemory P < 2 ^ 20 := by
  unfold elfFrame
  cases coveringHeader headers P with
  | none => exact hP
  | some h =>
    rw [Option.elim_some, ElfProgramHeader.frame]
    exact Nat.mod_lt _ (Nat.two_pow_pos 20)

theorem remapElf_eq (headers : List ElfProgramHeader) (elfMemory P : ℕ) :
    remapElf elfMemory (identityMap taskPageFlags) headers P =
      4096 * elfFrame headers elfMemory P ||| if elfWritable headers P then 7 else 5 := by
  have hflags : taskPageFlags = 5 := rfl
  rw [remapElf_apply, identityMap, hflags]
  unfold elfFrame elfWritable
  cases coveringHeader headers P with
  | none => simp
  | some h => rw [Option.elim_some, Option.elim_some, Option.elim_some, pheaderFlags_eq]

theorem entry_writable (f : ℕ) (w : Bool) :
    (4096 * f ||| if w then 7 else 5) &&& pagingIsWritable ≠ 0 ↔ w = true := by
  have hbit : ∀ x : ℕ, x &&& pagingIsWritable ≠ 0 ↔ x / 2 % 2 = 1 := by
    intro x
    have hand := Nat.and_two_pow x 1
    have htest := Nat.testBit_eq_decide_div_mod_eq (x := x) (i := 1)
    rw [show pagingIsWritable = 2 ^ 1 from rfl, hand, htest]
    by_cases hx : x / 2 ^ 1 % 2 = 1 <;> simp_all
  rw [hbit, or_page_flags (by omega) (by split_ifs <;> omega)]
  cases w <;> simp <;> omega

section
variable {m : Mem} {page : ℕ} {c : Chunk} (file : ElfFile)

theorem FreshChunk.mapped (h : FreshChunk m page c) :
    ChunkAt (processMapMemoryToElf m page file).2 page c
      (remapElf file.elfMemory (identityMap taskPageFlags) (elfPheaders m page file.elfMemory)) := by
  unfold processMapMemoryToElf elfPheaders
  exact (h.chunkAt.mapPheaders file.elfMemory h.separate h.block _ 0).2.1

theorem FreshChunk.getPage_mapped (h : FreshChunk m page c) {v : ℕ} (hv : v < 2 ^ 32) :
    getPage (processMapMemoryToElf m page file).2 (pagingGetDirectory (processMapMemoryToElf m page file).2 page) v =
      4096 * elfFrame (elfPheaders m page file.elfMemory) file.elfMemory (v / 4096) |||
        if elfWritable (elfPheaders m page file.elfMemory) (v / 4096) then 7 else 5 := by
  rw [(h.mapped file).getPage_eq h.block hv, remapElf_eq]

theorem FreshChunk.physicalAddress_mapped (h : FreshChunk m page c) {v : ℕ} (hv : v < 2 ^ 32) :
    pagingGetPhysicalAddress (processMapMemoryToElf m page file).2 page v =
      4096 * elfFrame (elfPheaders m page file.elfMemory) file.elfMemory (v / 4096) + v % 4096 := by
  have hlt := elfFrame_lt (elfPheaders m page file.elfMemory) file.elfMemory (P := v / 4096) (by omega)
  rw [(h.mapped file).pagingGetPhysicalAddress_eq h.block hv, remapElf_eq, or_and_page_mask]
  · omega
  · split_ifs <;> omega
  · omega

end

/-- The files the loader is written for: accepted, in an aligned buffer of `size`
bytes, with every loadable segment inside it, at the same place in its pages as in the
file, and alone on its pages. -/
structure ElfPlaced (header : ElfHeader) (headers : List ElfProgramHeader) (elfMemory size : ℕ) : Prop where
  accepted : elfValidateLoad header = 0
  aligned : elfMemory % 4096 = 0
  fits : elfMemory + size ≤ 2 ^ 32
  congruent : ∀ h ∈ headers, h.isLoad → h.pVaddr % 4096 = h.pOffset % 4096
  inside : ∀ h ∈ headers, h.isLoad → h.pOffset + h.pMemsz ≤ size
  disjoint : headers.Pairwise fun h j => h.isLoad ∨ j.isLoad → ∀ P, ¬ (h.Touches P ∧ j.Touches P)

/-- The segment is found byte for byte, with its own write permission. -/
def MappedExactly (m : Mem) (page elfMemory : ℕ) (h : ElfProgramHeader) : Prop :=
  ∀ k < h.pMemsz, pagingGetPhysicalAddress m page (uint32 (h.pVaddr + k)) = elfMemory + h.pOffset + k ∧
    (getPage m (pagingGetDirectory m page) (uint32 (h.pVaddr + k)) &&& pagingIsWritable ≠ 0 ↔ h.pFlags &&& pfW ≠ 0)

/-- On every page of the segment the header that decides maps as its own would. -/
def OwnPages (headers : List ElfProgramHeader) (elfMemory : ℕ) (h : ElfProgramHeader) : Prop :=
  ∀ P, h.Touches P → elfFrame headers elfMemory P = h.frame elfMemory P ∧ elfWritable headers P = h.writable

/-- The position of an address in the pages from that of `v` on. -/
theorem pageIndex_add {v k : ℕ} (hv : v < 2 ^ 32) (hk : v % 4096 + k < 2 ^ 32) :
    pageIndex (v / 4096) (uint32 (v + k) / 4096) = (v % 4096 + k) / 4096 := by
  have hpage : uint32 (v + k) / 4096 = (v / 4096 + (v % 4096 + k) / 4096) % 2 ^ 20 := by
    unfold uint32
    omega
  unfold pageIndex
  omega

/-- Where the segment's own header maps its addresses. -/
theorem ElfProgramHeader.frame_eq (h : ElfProgramHeader) {elfMemory k : ℕ} (haligned : elfMemory % 4096 = 0)
    (hcongruent : h.pVaddr % 4096 = h.pOffset % 4096) (hfits : elfMemory + h.pOffset + h.pMemsz ≤ 2 ^ 32)
    (hk : k < h.pMemsz) :
    4096 * h.frame elfMemory (uint32 (h.pVaddr + k) / 4096) + uint32 (h.pVaddr + k) % 4096 =
      elfMemory + h.pOffset + k := by
  have hbase : elfGetPheaderPhyAddress elfMemory h = elfMemory + h.pOffset := by
    have hcast := uint32_of_bounds (x := (elfMemory : ℤ) + h.pOffset) (by positivity) (by omega)
    unfold elfGetPheaderPhyAddress
    omega
  have hindex := pageIndex_add h.pVaddr_lt (show h.pVaddr % 4096 + k < 2 ^ 32 by omega)
  have hlow : uint32 (h.pVaddr + k) % 4096 = (h.pVaddr + k) % 4096 := by
    unfold uint32
    omega
  unfold ElfProgramHeader.frame ElfProgramHeader.firstPage
  rw [hbase, hindex, hlow, Nat.mod_eq_of_lt (by omega)]
  omega

theorem ElfProgramHeader.writable_iff (h : ElfProgramHeader) : h.writable = true ↔ h.pFlags &&& pfW ≠ 0 := by
  simp [ElfProgramHeader.writable]

theorem FreshChunk.mappedExactly_iff {m : Mem} {page : ℕ} {c : Chunk} (hfresh : FreshChunk m page c)
    (file : ElfFile) {h : ElfProgramHeader} (haligned : file.elfMemory % 4096 = 0)
    (hcongruent : h.pVaddr % 4096 = h.pOffset % 4096) (hfits : file.elfMemory + h.pOffset + h.pMemsz ≤ 2 ^ 32) :
    MappedExactly (processMapMemoryToElf m page file).2 page file.elfMemory h ↔
      OwnPages (elfPheaders m page file.elfMemory) file.elfMemory h := by
  have hbyte : ∀ k < h.pMemsz,
      (pagingGetPhysicalAddress (processMapMemoryToElf m page file).2 page (uint32 (h.pVaddr + k)) =
          file.elfMemory + h.pOffset + k ∧
        (getPage (processMapMemoryToElf m page file).2
          (pagingGetDirectory (processMapMemoryToElf m page file).2 page) (uint32 (h.pVaddr + k)) &&&
            pagingIsWritable ≠ 0 ↔ h.pFlags &&& pfW ≠ 0)) ↔
      elfFrame (elfPheaders m page file.elfMemory) file.elfMemory (uint32 (h.pVaddr + k) / 4096) =
          h.frame file.elfMemory (uint32 (h.pVaddr + k) / 4096) ∧
        elfWritable (elfPheaders m page file.elfMemory) (uint32 (h.pVaddr + k) / 4096) = h.writable := by
    intro k hk
    have hframe := h.frame_eq haligned hcongruent hfits hk
    rw [hfresh.physicalAddress_mapped file (uint32_lt _), hfresh.getPage_mapped file (uint32_lt _),
      entry_writable, ← h.writable_iff, Bool.eq_iff_iff (b := h.writable)]
    apply and_congr_left'
    constructor <;> intro heq <;> omega
  constructor
  · intro hmapped P hP
    obtain ⟨k, hk, rfl⟩ := hP
    exact (hbyte k hk).mp (hmapped k hk)
  · intro hown k hk
    exact (hbyte k hk).mpr (hown _ ⟨k, hk, rfl⟩)

/-- The segments of an accepted file are mapped byte for byte exactly when on each of
their pages the last header that covers it agrees with the segment's own. A header
covers one page more than `p_memsz` has whole pages, wherever in a page it starts. -/
theorem elf_mapped_iff (m : Mem) (page : ℕ) (c : Chunk) (hfresh : FreshChunk m page c) (file : ElfFile) (size : ℕ)
    (hplaced : ElfPlaced (elfGetHeader m file.elfMemory) (elfPheaders m page file.elfMemory) file.elfMemory size) :
    (∀ h ∈ elfPheaders m page file.elfMemory, h.isLoad →
      MappedExactly (processMapMemoryToElf m page file).2 page file.elfMemory h) ↔
    ∀ h ∈ elfPheaders m page file.elfMemory, h.isLoad →
      OwnPages (elfPheaders m page file.elfMemory) file.elfMemory h := by
  have hiff : ∀ h ∈ elfPheaders m page file.elfMemory, h.isLoad →
      (MappedExactly (processMapMemoryToElf m page file).2 page file.elfMemory h ↔
        OwnPages (elfPheaders m page file.elfMemory) file.elfMemory h) := by
    intro h hmem hload
    have hinside := hplaced.inside h hmem hload
    have hfits := hplaced.fits
    exact hfresh.mappedExactly_iff file hplaced.aligned (hplaced.congruent h hmem hload) (by omega)
  exact forall_congr' fun h => forall_congr' fun hmem => forall_congr' fun hload => hiff h hmem hload

def elfBytes (entry : ℕ) (pheaders : List (List ℕ)) : List UInt8 :=
  [0x7f, 0x45, 0x4c, 0x46, 1, 1, 0, 0, 0, 0, 0, 0, 0, 0, 0, 0, 2, 0, 3, 0] ++
    [1, entry, 52, 0, 0].flatMap wordBytes ++
    [52, 0, 32, 0, UInt8.ofNat pheaders.length, 0, 0, 0, 0, 0, 0, 0] ++ (pheaders.flatMap id).flatMap wordBytes

theorem ElfImage.exists_mapped {bytes : List UInt8} {headers : List ElfProgramHeader} (h : ElfImage bytes headers)
    (hlen : bytes.length ≤ 0x800000) :
    ∃ m page c, FreshChunk m page c ∧ elfValidateLoad (elfGetHeader m 0x800000) = 0 ∧
      elfPheaders m page 0x800000 = headers := by
  obtain ⟨m, page, c, hfresh, hhigh⟩ := exists_freshChunk
  have hbelow : ∀ b, c.IsBlock page b → 0x800000 + bytes.length ≤ b := by
    intro b hb
    have hb := hhigh b hb
    unfold heapAddress at hb
    omega
  have hstored := hfresh.storeBytes (a := 0x800000) fun b hb => Or.inl (hbelow b hb)
  have hholds := holds_storeBytes m 0x800000 bytes
  refine ⟨_, page, c, hstored, h.accepted_at hholds, ?_⟩
  apply h.pheaders_at hholds (by omega) hstored.separate hstored.block hstored.chunkAt
  intro o ho j hj
  have hj := hbelow _ (Or.inr (Or.inr ⟨j, hj, rfl⟩))
  exact Or.inl (by omega)

def elfFileAt (elfMemory : ℕ) : ElfFile := ⟨0, elfMemory, 0, 0, 0, 0⟩

def smallSegment : ElfProgramHeader := ⟨1, 0, 0x400000, 84, 84, 5, by decide, by decide, by decide, by decide⟩

theorem smallElf_image : ElfImage (elfBytes 0x400034 [[1, 0, 0x400000, 0x400000, 84, 84, 5, 0x1000]])
    [smallSegment] := by
  constructor <;> decide

theorem smallSegment_touches {P : ℕ} (h : smallSegment.Touches P) : P = 0x400 := by
  obtain ⟨k, hk, rfl⟩ := h
  simp only [smallSegment] at hk ⊢
  unfold uint32
  omega

theorem elf_mapped_iff_small : ∃ m page c, FreshChunk m page c ∧ elfPheaders m page 0x800000 = [smallSegment] ∧
    MappedExactly (processMapMemoryToElf m page (elfFileAt 0x800000)).2 page 0x800000 smallSegment := by
  obtain ⟨m, page, c, hfresh, haccepted, hheaders⟩ := smallElf_image.exists_mapped (by decide)
  have hplaced : ElfPlaced (elfGetHeader m 0x800000) (elfPheaders m page 0x800000) 0x800000 84 := by
    rw [hheaders]
    exact ⟨haccepted, by decide, by decide, by decide, by decide, List.pairwise_singleton ..⟩
  have hall := (elf_mapped_iff m page c hfresh (elfFileAt 0x800000) 84 hplaced).mpr
  simp only [elfFileAt, hheaders, List.forall_mem_singleton] at hall
  refine ⟨m, page, c, hfresh, hheaders, hall (fun _ P hP => ?_) rfl⟩
  rw [smallSegment_touches hP]
  have hcovering : coveringHeader [smallSegment] 0x400 = some smallSegment := by decide
  rw [elfFrame, elfWritable, hcovering]
  exact ⟨rfl, rfl⟩

/-- A segment in the middle of a page whose last bytes lie on the next one, and the
stack header that linkers emit. -/
def unalignedSegment : ElfProgramHeader :=
  ⟨1, 0x800, 0x400800, 0xA00, 0xA00, 6, by decide, by decide, by decide, by decide⟩
def stackHeader : ElfProgramHeader := ⟨0x6474E551, 0, 0, 0, 0, 6, by decide, by decide, by decide, by decide⟩

theorem unalignedElf_image : ElfImage (elfBytes 0x400800 [[1, 0x800, 0x400800, 0x400800, 0xA00, 0xA00, 6, 0x1000],
    [0x6474E551, 0, 0, 0, 0, 0, 6, 16]]) [unalignedSegment, stackHeader] := by
  constructor <;> decide

theorem unalignedElf_not_mapped : ∃ m page c, FreshChunk m page c ∧
    ElfPlaced (elfGetHeader m 0x800000) (elfPheaders m page 0x800000) 0x800000 0x1200 ∧
    ¬ ∀ h ∈ elfPheaders m page 0x800000, h.isLoad →
      MappedExactly (processMapMemoryToElf m page (elfFileAt 0x800000)).2 page 0x800000 h := by
  obtain ⟨m, page, c, hfresh, haccepted, hheaders⟩ := unalignedElf_image.exists_mapped (by decide)
  refine ⟨m, page, c, hfresh, ?_, fun hall => ?_⟩
  · rw [hheaders]
    refine ⟨haccepted, by decide, by decide, by decide, by decide, ?_⟩
    have hnone : ∀ P, ¬ stackHeader.Touches P := by
      rintro P ⟨k, hk, -⟩
      exact absurd hk (Nat.not_lt_zero k)
    simp only [List.pairwise_cons, List.mem_singleton, forall_eq, List.not_mem_nil, false_implies, implies_true,
      List.Pairwise.nil, and_true]
    exact fun _ P hP => hnone P hP.2
  · have hmapped := hall unalignedSegment (by simp [hheaders]) rfl
    have hown := (hfresh.mappedExactly_iff (elfFileAt 0x800000) (h := unalignedSegment) (by decide) (by decide)
      (by decide)).mp hmapped
    have htouches : unalignedSegment.Touches 0x401 := by
      refine ⟨0x800, by decide, ?_⟩
      simp only [unalignedSegment]
      unfold uint32
      omega
    have hframe := (hown 0x401 htouches).1
    have hcovering : coveringHeader [unalignedSegment, stackHeader] 0x401 = none := by decide
    have hown : unalignedSegment.frame 0x800000 0x401 = 0x801 := by
      simp only [ElfProgramHeader.frame, elfGetPheaderPhyAddress, unalignedSegment]
      unfold uint32
      decide
    simp only [elfFileAt, hheaders] at hframe
    rw [hown, elfFrame, hcovering] at hframe
    exact absurd hframe (by decide)

/-- Every entry that the loader changed belongs to a loadable segment and to the part
of the address space that programs have. -/
def ChangesOnlySegments (before after : Mem) (page : ℕ) (headers : List ElfProgramHeader) : Prop :=
  ∀ P < 2 ^ 20, getPage after (pagingGetDirectory after page) (4096 * P) ≠
      getPage before (pagingGetDirectory before page) (4096 * P) →
    (∃ h ∈ headers, h.isLoad ∧ h.Touches P) ∧ zhiosProgramVirtualAddress ≤ 4096 * P

/-- A header leaves the entry of page `P` of a fresh chunk as it is. -/
def ElfProgramHeader.MapsToItself (h : ElfProgramHeader) (elfMemory P : ℕ) : Prop :=
  h.frame elfMemory P = P ∧ h.writable = false

theorem entry_eq_iff (f P : ℕ) (w : Bool) :
    (4096 * f ||| if w then 7 else 5) = 4096 * P ||| 5 ↔ f = P ∧ w = false := by
  rw [or_page_flags (by omega) (by split_ifs <;> omega), or_page_flags (by omega) (by omega)]
  cases w
  · simp
  · simp only [if_true, Bool.true_eq_false, and_false, iff_false]
    omega

theorem FreshChunk.changed_iff {m : Mem} {page : ℕ} {c : Chunk} (hfresh : FreshChunk m page c) (file : ElfFile)
    {P : ℕ} (hP : P < 2 ^ 20) :
    getPage (processMapMemoryToElf m page file).2 (pagingGetDirectory (processMapMemoryToElf m page file).2 page)
        (4096 * P) ≠ getPage m (pagingGetDirectory m page) (4096 * P) ↔
      ∃ h, coveringHeader (elfPheaders m page file.elfMemory) P = some h ∧ ¬ h.MapsToItself file.elfMemory P := by
  have hpage : 4096 * P / 4096 = P := by omega
  have hflags : taskPageFlags = 5 := rfl
  rw [hfresh.getPage_mapped file (by omega), hfresh.chunkAt.getPage_eq hfresh.block (by omega), hpage,
    identityMap, hflags, ne_eq, entry_eq_iff]
  unfold elfFrame elfWritable
  cases coveringHeader (elfPheaders m page file.elfMemory) P with
  | none => simp
  | some h =>
    -- not by unfolding, which computes the frame
    rw [Option.elim_some, Option.elim_some, ← ElfProgramHeader.MapsToItself]
    simp

/-- Mapping a file changes the pages of its own loadable segments only, exactly when
every page in the range of any header is one of those or maps to itself anyway. -/
theorem elf_changes_iff (m : Mem) (page : ℕ) (c : Chunk) (hfresh : FreshChunk m page c) (file : ElfFile) :
    ChangesOnlySegments m (processMapMemoryToElf m page file).2 page (elfPheaders m page file.elfMemory) ↔
      ∀ P < 2 ^ 20, ∀ h, coveringHeader (elfPheaders m page file.elfMemory) P = some h →
        (∃ j ∈ elfPheaders m page file.elfMemory, j.isLoad ∧ j.Touches P) ∧ zhiosProgramVirtualAddress ≤ 4096 * P ∨
          h.MapsToItself file.elfMemory P := by
  unfold ChangesOnlySegments
  refine forall_congr' fun P => forall_congr' fun hP => ?_
  rw [hfresh.changed_iff file hP]
  constructor
  · intro honly h hcovering
    by_cases hself : h.MapsToItself file.elfMemory P
    · exact Or.inr hself
    · exact Or.inl (honly ⟨h, hcovering, hself⟩)
  · intro hall hchanged
    obtain ⟨h, hcovering, hself⟩ := hchanged
    exact (hall h hcovering).resolve_right hself

theorem elf_changes_iff_small : ∃ m page c, FreshChunk m page c ∧ elfPheaders m page 0x800000 = [smallSegment] ∧
    ChangesOnlySegments m (processMapMemoryToElf m page (elfFileAt 0x800000)).2 page [smallSegment] := by
  obtain ⟨m, page, c, hfresh, -, hheaders⟩ := smallElf_image.exists_mapped (by decide)
  have hiff := elf_changes_iff m page c hfresh (elfFileAt 0x800000)
  simp only [elfFileAt, hheaders] at hiff
  refine ⟨m, page, c, hfresh, hheaders, hiff.mpr fun P hP h hcovering => Or.inl ?_⟩
  obtain ⟨hmem, hcovers⟩ := lastMatch_some hcovering
  obtain rfl := List.mem_singleton.mp hmem
  obtain rfl : P = 0x400 := by
    have hindex : pageIndex 0x400 P < 1 := of_decide_eq_true hcovers
    unfold pageIndex at hindex
    omega
  refine ⟨⟨smallSegment, List.mem_singleton.mpr rfl, rfl, 0, by decide, ?_⟩, by decide⟩
  simp only [smallSegment]
  unfold uint32
  omega

/-- The stack header takes page zero from the kernel. -/
theorem unalignedElf_changes_page_zero : ∃ m page c, FreshChunk m page c ∧
    elfValidateLoad (elfGetHeader m 0x800000) = 0 ∧
    ¬ ChangesOnlySegments m (processMapMemoryToElf m page (elfFileAt 0x800000)).2 page
      (elfPheaders m page 0x800000) := by
  obtain ⟨m, page, c, hfresh, haccepted, hheaders⟩ := unalignedElf_image.exists_mapped (by decide)
  refine ⟨m, page, c, hfresh, haccepted, fun honly => ?_⟩
  have hcovering : coveringHeader [unalignedSegment, stackHeader] 0 = some stackHeader := by decide
  have hchanged := (hfresh.changed_iff (elfFileAt 0x800000) (P := 0) (by decide)).mpr
    ⟨stackHeader, by simp only [elfFileAt, hheaders, hcovering], fun hself => absurd hself.2 (by decide)⟩
  exact absurd (honly 0 (by decide) hchanged).2 (by decide)

end Zhios
