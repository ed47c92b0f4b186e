import Zhios.Loaders.ElfLoad

/-! What a loaded ELF file sees of its buffer. The buffer is as long as the file on disk,
and the headers of the file say what is mapped of it and of the memory behind it. -/
namespace Zhios
open Machine

/-- Whatever header is mapped, its pages are found inside the `blocks` heap blocks from
`elfMemory` on when it has been. -/
def StaysInside (m : Mem) (page elfMemory blocks : ℕ) : Prop :=
  ∀ i h, (elfPheaders m page elfMemory)[i]? = some h → ∀ P < 2 ^ 20, h.covers P →
    let a := pagingGetPhysicalAddress (mapPheaders page elfMemory (i + 1) 0 0 m).2 page (4096 * P)
    elfMemory ≤ a ∧ a + 4096 ≤ elfMemory + 4096 * blocks

/-- Right after a header is mapped, its pages are where it says. -/
theorem FreshChunk.after_header {m : Mem} {page : ℕ} {c : Chunk} (hfresh : FreshChunk m page c) {elfMemory i : ℕ}
    {h : ElfProgramHeader} (hi : (elfPheaders m page elfMemory)[i]? = some h) {P : ℕ} (hP : P < 2 ^ 20)
    (hcovers : h.covers P) :
    pagingGetPhysicalAddress (mapPheaders page elfMemory (i + 1) 0 0 m).2 page (4096 * P) =
      4096 * h.frame elfMemory P := by
  obtain ⟨hlt, hget⟩ := List.getElem?_eq_some_iff.mp hi
  have hshort := pheadersFrom_length_le page elfMemory (2 ^ 16) 0 m
  have htake : pheadersFrom page elfMemory (i + 1) 0 m = (elfPheaders m page elfMemory).take i ++ [h] := by
    rw [← pheadersFrom_take page elfMemory (i + 1) (2 ^ 16) 0 m (by unfold elfPheaders at hlt; omega), ← elfPheaders,
      List.take_add_one, hi]
    rfl
  have hmapped := (hfresh.chunkAt.mapPheaders elfMemory hfresh.separate hfresh.block (i + 1) 0).2.1
  have hpage : 4096 * P / 4096 = P := by omega
  rw [hmapped.pagingGetPhysicalAddress_eq hfresh.block (by omega), htake, hpage, remapElf, List.foldl_append,
    List.foldl_cons, List.foldl_nil, remapPheader, if_pos hcovers, or_and_page_mask (by omega) (pheaderFlags_lt h)]
  · omega
  · have hframe : h.frame elfMemory P < 2 ^ 20 := Nat.mod_lt _ (Nat.two_pow_pos 20)
    omega

theorem ElfProgramHeader.inside_iff (h : ElfProgramHeader) {elfMemory blocks : ℕ} (haligned : elfMemory % 4096 = 0)
    (hpos : elfMemory ≠ 0) (hfits : elfMemory + 4096 * blocks ≤ 2 ^ 32) :
    (∀ P < 2 ^ 20, h.covers P → elfMemory ≤ 4096 * h.frame elfMemory P ∧
        4096 * h.frame elfMemory P + 4096 ≤ elfMemory + 4096 * blocks) ↔
      0x7FFFF000 ≤ h.pMemsz ∨ h.pOffset / 4096 + h.pMemsz / 4096 < blocks := by
  obtain ⟨E, rfl⟩ : ∃ E, elfMemory = 4096 * E := ⟨elfMemory / 4096, by omega⟩
  have hoffset := h.pOffset_lt
  have hfirst : h.firstPage < 2 ^ 20 := by
    have hv := h.pVaddr_lt
    unfold ElfProgramHeader.firstPage
    omega
  have hbase : elfGetPheaderPhyAddress (4096 * E) h / 4096 = (E + h.pOffset / 4096) % 2 ^ 20 := by
    unfold elfGetPheaderPhyAddress uint32
    omega
  have hframe : ∀ P, h.frame (4096 * E) P = (E + h.pOffset / 4096 + pageIndex h.firstPage P) % 2 ^ 20 := by
    intro P
    rw [ElfProgramHeader.frame, hbase, Nat.mod_add_mod]
  have hcovers : ∀ P, h.covers P = true ↔ pageIndex h.firstPage P < pagesFor h.pMemsz :=
    fun P => decide_eq_true_iff
  simp only [hframe, hcovers, pagesFor]
  constructor
  · intro hall
    by_contra hnot
    rw [not_or, not_le, not_lt] at hnot
    rw [if_pos hnot.1] at hall
    -- the page that is one too far, or the first one
    obtain ⟨i, hi, hbad⟩ : ∃ i ≤ h.pMemsz / 4096, ¬ (E ≤ (E + h.pOffset / 4096 + i) % 2 ^ 20 ∧
        (E + h.pOffset / 4096 + i) % 2 ^ 20 < E + blocks) := by
      by_cases hin : h.pOffset / 4096 < blocks
      · exact ⟨blocks - h.pOffset / 4096, by omega, by omega⟩
      · exact ⟨0, by omega, by omega⟩
    have hindex : pageIndex h.firstPage ((h.firstPage + i) % 2 ^ 20) = i := by
      have hmemsz := h.pMemsz_lt
      unfold pageIndex
      omega
    have hinside := hall ((h.firstPage + i) % 2 ^ 20) (Nat.mod_lt _ (Nat.two_pow_pos 20)) (by omega)
    rw [hindex] at hinside
    omega
  · intro hcond P hP hindex
    split_ifs at hindex with hsmall
    · have hlt := hcond.resolve_left (by omega)
      rw [Nat.mod_eq_of_lt (by omega)]
      omega
    · exact absurd hindex (Nat.not_lt_zero _)

theorem FreshChunk.staysInside_iff {m : Mem} {page : ℕ} {c : Chunk} (hfresh : FreshChunk m page c)
    {elfMemory blocks : ℕ} (haligned : elfMemory % 4096 = 0) (hpos : elfMemory ≠ 0)
    (hfits : elfMemory + 4096 * blocks ≤ 2 ^ 32) :
    StaysInside m page elfMemory blocks ↔ ∀ h ∈ elfPheaders m page elfMemory,
      0x7FFFF000 ≤ h.pMemsz ∨ h.pOffset / 4096 + h.pMemsz / 4096 < blocks := by
  constructor
  · intro hinside h hmem
    obtain ⟨i, hi⟩ := List.mem_iff_getElem?.mp hmem
    refine (h.inside_iff haligned hpos hfits).mp fun P hP hcovers => ?_
    have hpage := hinside i h hi P hP hcovers
    rwa [hfresh.after_header hi hP hcovers] at hpage
  · intro hcond i h hi P hP hcovers
    have hpage := (h.inside_iff haligned hpos hfits).mpr (hcond h (List.mem_of_getElem? hi)) P hP hcovers
    rwa [← hfresh.after_header hi hP hcovers] at hpage

/-- A loaded file stays inside its own buffer exactly when the rounded range of every
program header does. -/
theorem elf_staysInside_iff (s : FileState) (live : List Extent) (hheap : s.kmem.WellFormed live)
    (filename : List UInt8) (stale : ℕ) (opened : FileState) (size : ℕ) (bytes : List UInt8) (file : ElfFile)
    (s' : FileState) (hloaded : ElfLoaded s filename stale opened size bytes file s') (m : Mem) (page : ℕ)
    (c : Chunk) (hfresh : FreshChunk m page c) :
    StaysInside m page file.elfMemory (blocksFor size) ↔ ∀ h ∈ elfPheaders m page file.elfMemory,
      0x7FFFF000 ≤ h.pMemsz ∨ h.pOffset / 4096 + h.pMemsz / 4096 < blocksFor size := by
  have haligned := hloaded.aligned hheap.coherent hheap.start_aligned
  have hfits := hloaded.fits
  apply hfresh.staysInside_iff haligned hloaded.buffer
  unfold blocksFor
  omega

theorem elf_staysInside_iff_bss : ∃ opened file s' m page c,
    ElfLoaded (bssState ⟨freshKernelHeap, fun _ => 0⟩) oneFilePath 0 opened 84 bssElf file s' ∧
      FreshChunk m page c ∧ elfPheaders m page file.elfMemory = [bssSegment] ∧
      (StaysInside m page file.elfMemory (blocksFor 84) ↔ ∀ h ∈ elfPheaders m page file.elfMemory,
        0x7FFFF000 ≤ h.pMemsz ∨ h.pOffset / 4096 + h.pMemsz / 4096 < blocksFor 84) := by
  have hwf := freshKernelHeap_wellFormed fun _ => 0
  obtain ⟨opened, file, s', m, page, c, hloaded, hfresh, -, hheaders, -⟩ := bssElf_chunk hwf freshKernelHeap_room
  exact ⟨opened, file, s', m, page, c, hloaded, hfresh, hheaders,
    elf_staysInside_iff _ _ hwf _ _ _ _ _ _ _ hloaded m page c hfresh⟩

/-- The segment is a page long, and its second page is not in the one block of the file. -/
theorem bssElf_not_inside : ∃ opened file s' m page c,
    ElfLoaded (bssState ⟨freshKernelHeap, fun _ => 0⟩) oneFilePath 0 opened 84 bssElf file s' ∧
      FreshChunk m page c ∧ ¬ StaysInside m page file.elfMemory (blocksFor 84) := by
  have hwf := freshKernelHeap_wellFormed fun _ => 0
  obtain ⟨opened, file, s', m, page, c, hloaded, hfresh, -, hheaders, -⟩ := bssElf_chunk hwf freshKernelHeap_room
  refine ⟨opened, file, s', m, page, c, hloaded, hfresh, ?_⟩
  have haligned := hloaded.aligned hwf.coherent hwf.start_aligned
  have hfits := hloaded.fits
  rw [hfresh.staysInside_iff haligned hloaded.buffer (by unfold blocksFor; omega), hheaders,
    List.forall_mem_singleton]
  decide

/-- Memory once the tables of the chunk spell out `F`. -/
def Chunk.byteAt (c : Chunk) (F : ℕ → ℕ) (m : Mem) (a : ℕ) : UInt8 :=
  match findSlot (fun i => decide (c.table i ≤ a ∧ a < c.table i + 4096)) 1024 0 with
  | some i => UInt8.ofNat (F (1024 * i + (a - c.table i) / 4) / 2 ^ (8 * ((a - c.table i) % 4)))
  | none => m a

theorem ChunkAt.byteAt_eq {m m' : Mem} {page : ℕ} {c : Chunk} {F : ℕ → ℕ} (h : ChunkAt m' page c F)
    (hout : ∀ x, (∀ j < 1024, x < c.table j ∨ c.table j + 4096 ≤ x) → m' x = m x) (a : ℕ) :
    m' a = c.byteAt F m a := by
  unfold Chunk.byteAt
  cases hfind : findSlot (fun i => decide (c.table i ≤ a ∧ a < c.table i + 4096)) 1024 0 with
  | none =>
    apply hout
    intro j hj
    have hnot := (findSlot_eq_none_iff _ _ _).mp hfind j (Nat.zero_le j) (by omega)
    rw [decide_eq_false_iff_not] at hnot
    omega
  | some i =>
    obtain ⟨-, hi, hin, -⟩ := (findSlot_eq_some_iff _ _ _ _).mp hfind
    rw [decide_eq_true_iff] at hin
    have hword := h.tableWord i (by omega) ((a - c.table i) / 4) (by omega)
    have hbyte := load32_byte m' (c.table i + 4 * ((a - c.table i) / 4)) (b := (a - c.table i) % 4) (by omega)
    rw [hword, show c.table i + 4 * ((a - c.table i) / 4) + (a - c.table i) % 4 = a by omega] at hbyte
    exact hbyte

theorem Chunk.byteAt_outside (c : Chunk) (F : ℕ → ℕ) (m : Mem) {a : ℕ}
    (h : ∀ j < 1024, a < c.table j ∨ c.table j + 4096 ≤ a) : c.byteAt F m a = m a := by
  have hnone : findSlot (fun i => decide (c.table i ≤ a ∧ a < c.table i + 4096)) 1024 0 = none := by
    apply (findSlot_eq_none_iff _ _ _).mpr
    intro j _ hj
    have hout := h j (by omega)
    exact decide_eq_false (by omega)
  rw [Chunk.byteAt, hnone]

/-- Physical memory when the file is about to be mapped: in the buffer the bytes of the
file, zeros where the read came short of `size`, and behind `size` what was there before
the buffer was allocated. -/
def loadedMemory (m before : Mem) (elfMemory size : ℕ) (bytes : List UInt8) : Mem := fun a =>
  if elfMemory ≤ a ∧ a < elfMemory + 4096 * blocksFor size then
    if a < elfMemory + bytes.length then bytes.getD (a - elfMemory) 0
    else if a < elfMemory + size then 0
    else before a
  else m a

theorem ElfLoaded.memory_eq {s : FileState} {filename : List UInt8} {stale : ℕ} {opened : FileState} {size : ℕ}
    {bytes : List UInt8} {file : ElfFile} {s' : FileState} (h : ElfLoaded s filename stale opened size bytes file s')
    {m : Mem} (hkept : ∀ o < 4096 * blocksFor size, m (file.elfMemory + o) = s'.kmem.mem (file.elfMemory + o)) :
    m = loadedMemory m opened.kmem.mem file.elfMemory size bytes := by
  obtain ⟨haddress, hmem⟩ := h.result
  have hne := h.buffer
  rw [haddress] at hne
  funext a
  unfold loadedMemory
  split_ifs with hin hfile hsize
  · have ha := hkept (a - file.elfMemory) (by omega)
    rw [show file.elfMemory + (a - file.elfMemory) = a by omega] at ha
    rw [ha, hmem, storeBytes, if_pos ⟨hin.1, hfile⟩]
  · have ha := hkept (a - file.elfMemory) (by omega)
    rw [show file.elfMemory + (a - file.elfMemory) = a by omega] at ha
    rw [ha, hmem, storeBytes, if_neg (by omega), kzalloc_mem hne, ← haddress, fill, if_pos ⟨hin.1, hsize⟩]
  · have ha := hkept (a - file.elfMemory) (by omega)
    rw [show file.elfMemory + (a - file.elfMemory) = a by omega] at ha
    rw [ha, hmem, storeBytes, if_neg (by omega), kzalloc_mem hne, ← haddress, fill, if_neg (by omega)]
  · rfl

/-- The loadable segments whose memory is larger than their part of the file, at the
start of a page. -/
structure ElfProgramHeader.HasTail (h : ElfProgramHeader) : Prop where
  isLoad : h.isLoad
  longer : h.pFilesz < h.pMemsz
  vaddr : h.pVaddr % 4096 = 0
  offset : h.pOffset % 4096 = 0

/-- Every byte of a segment that is not in the file reads as zero. -/
def TailsZero (m : Mem) (page : ℕ) (headers : List ElfProgramHeader) : Prop :=
  ∀ h ∈ headers, h.HasTail → ∀ k, h.pFilesz ≤ k → k < h.pMemsz →
    m (pagingGetPhysicalAddress m page (uint32 (h.pVaddr + k))) = 0

def elfAddress (headers : List ElfProgramHeader) (elfMemory v : ℕ) : ℕ :=
  4096 * elfFrame headers elfMemory (v / 4096) + v % 4096

theorem FreshChunk.byte_mapped {m : Mem} {page : ℕ} {c : Chunk} (hfresh : FreshChunk m page c) (file : ElfFile)
    {v : ℕ} (hv : v < 2 ^ 32) :
    (processMapMemoryToElf m page file).2
        (pagingGetPhysicalAddress (processMapMemoryToElf m page file).2 page v) =
      c.byteAt (remapElf file.elfMemory (identityMap taskPageFlags) (elfPheaders m page file.elfMemory)) m
        (elfAddress (elfPheaders m page file.elfMemory) file.elfMemory v) := by
  rw [hfresh.physicalAddress_mapped file hv, ← elfAddress]
  refine (hfresh.mapped file).byteAt_eq (fun x hx => ?_) _
  unfold processMapMemoryToElf
  exact (hfresh.chunkAt.mapPheaders file.elfMemory hfresh.separate hfresh.block _ 0).2.2 x hx

/-- After a file is loaded and mapped, the tails of its segments are zero exactly when
the bytes that happen to be mapped there are: bytes of the file that follow the segment
or, behind the end of the file, whatever the heap or other memory held. -/
theorem elf_tailsZero_iff (s : FileState) (filename : List UInt8) (stale : ℕ) (opened : FileState) (size : ℕ)
    (bytes : List UInt8) (file : ElfFile) (s' : FileState)
    (hloaded : ElfLoaded s filename stale opened size bytes file s') (m : Mem) (page : ℕ) (c : Chunk)
    (hfresh : FreshChunk m page c)
    (hkept : ∀ o < 4096 * blocksFor size, m (file.elfMemory + o) = s'.kmem.mem (file.elfMemory + o)) :
    TailsZero (processMapMemoryToElf m page file).2 page (elfPheaders m page file.elfMemory) ↔
      ∀ h ∈ elfPheaders m page file.elfMemory, h.HasTail → ∀ k, h.pFilesz ≤ k → k < h.pMemsz →
        c.byteAt (remapElf file.elfMemory (identityMap taskPageFlags) (elfPheaders m page file.elfMemory))
          (loadedMemory m opened.kmem.mem file.elfMemory size bytes)
          (elfAddress (elfPheaders m page file.elfMemory) file.elfMemory (uint32 (h.pVaddr + k))) = 0 := by
  unfold TailsZero
  rw [← hloaded.memory_eq hkept]
  simp only [hfresh.byte_mapped file (uint32_lt _)]

/-- What is mapped behind the start of a segment at the start of a file of 84 bytes. -/
theorem Chunk.byteAt_file {m : Mem} {page : ℕ} {c : Chunk} {elfMemory : ℕ} (haligned : elfMemory % 4096 = 0)
    (hfits : elfMemory + 84 ≤ 2 ^ 32)
    (hapart : ∀ a, c.IsBlock page a → a + 4096 ≤ elfMemory ∨ elfMemory + 4096 ≤ a) {h : ElfProgramHeader}
    (hcovering : coveringHeader [h] 0x400 = some h) (hoffset : h.pOffset = 0) (hvaddr : h.pVaddr = 0x400000)
    (F : ℕ → ℕ) (before : Mem) {bytes : List UInt8} (hlength : bytes.length = 84) {k : ℕ} (hk : k < 84) :
    c.byteAt F (loadedMemory m before elfMemory 84 bytes) (elfAddress [h] elfMemory (0x400000 + k)) =
      bytes.getD k 0 := by
  have hpage : (0x400000 + k) / 4096 = 0x400 := by omega
  have hframe : elfFrame [h] elfMemory 0x400 = elfMemory / 4096 := by
    have hphysical := uint32_of_bounds (x := (elfMemory : ℤ) + (0 : ℕ)) (by omega) (by omega)
    rw [elfFrame, hcovering, Option.elim_some, ElfProgramHeader.frame, elfGetPheaderPhyAddress, hoffset]
    simp only [ElfProgramHeader.firstPage, pageIndex, hvaddr]
    omega
  have hblocks : blocksFor 84 = 1 := by decide
  rw [elfAddress, hpage, hframe, show 4096 * (elfMemory / 4096) + (0x400000 + k) % 4096 = elfMemory + k by omega,
    Chunk.byteAt_outside]
  · rw [loadedMemory, if_pos (by omega), if_pos (by omega), Nat.add_sub_cancel_left]
  · intro j hj
    have htable := hapart (c.table j) (.inr (.inr ⟨j, hj, rfl⟩))
    omega

/-- A segment of 16 bytes, of which the file holds the first twelve of its header. -/
def paddingSegment : ElfProgramHeader :=
  ⟨1, 0, 0x400000, 12, 16, 6, smallSegment.pOffset_lt, smallSegment.pVaddr_lt, by decide, bssSegment.pFilesz_lt⟩

def paddingElf : List UInt8 := elfBytes 0x400000 [[1, 0, 0x400000, 0x400000, 12, 16, 6, 0x1000]]

theorem paddingElf_image : ElfImage paddingElf [paddingSegment] := by
  constructor <;> decide

/-- Its tail falls on the padding of `e_ident`, which is zero. -/
theorem elf_tailsZero_iff_padding : ∃ opened file s' m page c,
    ElfLoaded ⟨⟨freshKernelHeap, fun _ => 0⟩, some (fileDisk paddingElf), fun _ => none⟩ oneFilePath 0 opened 84
        paddingElf file s' ∧
      FreshChunk m page c ∧ paddingSegment ∈ elfPheaders m page file.elfMemory ∧ paddingSegment.HasTail ∧
      TailsZero (processMapMemoryToElf m page file).2 page (elfPheaders m page file.elfMemory) := by
  have hwf := freshKernelHeap_wellFormed fun _ => 0
  obtain ⟨opened, file, s', m, page, c, hloaded, hfresh, hkept, hheaders, hapart⟩ :=
    paddingElf_image.chunk (by decide) hwf freshKernelHeap_room
  refine ⟨opened, file, s', m, page, c, hloaded, hfresh, by simp [hheaders], by constructor <;> decide,
    (elf_tailsZero_iff _ _ _ _ _ _ _ _ hloaded m page c hfresh hkept).mpr ?_⟩
  rw [hheaders, List.forall_mem_singleton]
  intro _ k hlo hhi
  have hlo : 12 ≤ k := hlo
  have hhi : k < 16 := hhi
  have haddress := uint32_of_bounds (x := ((0x400000 : ℕ) : ℤ) + (k : ℕ)) (by omega) (by omega)
  rw [show uint32 ((paddingSegment.pVaddr : ℤ) + (k : ℕ)) = 0x400000 + k from Int.ofNat.inj haddress,
    Chunk.byteAt_file (hloaded.aligned hwf.coherent hwf.start_aligned) hloaded.fits hapart (by decide) rfl rfl _ _
      (by decide) (by omega)]
  interval_cases k <;> rfl

/-- Behind the 16 bytes of the segment the process sees the file's `e_type`. -/
theorem bssElf_tail_not_zero : ∃ opened file s' m page c,
    ElfLoaded (bssState ⟨freshKernelHeap, fun _ => 0⟩) oneFilePath 0 opened 84 bssElf file s' ∧
      FreshChunk m page c ∧ bssSegment ∈ elfPheaders m page file.elfMemory ∧ bssSegment.HasTail ∧
      (processMapMemoryToElf m page file).2
        (pagingGetPhysicalAddress (processMapMemoryToElf m page file).2 page 0x400010) = 2 ∧
      ¬ TailsZero (processMapMemoryToElf m page file).2 page (elfPheaders m page file.elfMemory) := by
  have hwf := freshKernelHeap_wellFormed fun _ => 0
  obtain ⟨opened, file, s', m, page, c, hloaded, hfresh, hkept, hheaders, hapart⟩ :=
    bssElf_chunk hwf freshKernelHeap_room
  have hmem : bssSegment ∈ elfPheaders m page file.elfMemory := by simp [hheaders]
  have htail : bssSegment.HasTail := by constructor <;> decide
  have hbyte : (processMapMemoryToElf m page file).2
      (pagingGetPhysicalAddress (processMapMemoryToElf m page file).2 page 0x400010) = 2 := by
    rw [hfresh.byte_mapped file (by decide), hheaders, hloaded.memory_eq hkept,
      Chunk.byteAt_file (k := 16) (hloaded.aligned hwf.coherent hwf.start_aligned) hloaded.fits hapart (by decide) rfl
        rfl _ _ (by decide) (by decide)]
    decide
  refine ⟨opened, file, s', m, page, c, hloaded, hfresh, hmem, htail, hbyte, fun hzero => ?_⟩
  have haddress := uint32_of_bounds (x := ((0x400000 : ℕ) : ℤ) + (16 : ℕ)) (by decide) (by decide)
  have hseen := hzero bssSegment hmem htail 16 (by decide) (by decide)
  have haddress : uint32 ((bssSegment.pVaddr : ℤ) + (16 : ℕ)) = 0x400010 := Int.ofNat.inj haddress
  rw [haddress, hbyte] at hseen
  exact absurd hseen (by decide)

end Zhios
