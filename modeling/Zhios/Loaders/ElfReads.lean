import Zhios.Loaders.ElfLoad

/-! Which bytes the loader takes for the headers of an ELF file. Neither the length of the
file nor the place of the table of program headers is checked. -/
namespace Zhios
open Machine

def sizeofElfHeader : ℕ := 52

/-- Where `elf_get_pheader` finds a program header. -/
def elfPheaderAddress (m : Mem) (header index : ℕ) : ℕ :=
  uint32 (elfGetPheaderStart m header + sizeofElfProgramHeader * index)

/-- The addresses of the headers that `elf_process_pheaders` looks at. -/
def elfProcessPheadersReads (m : Mem) (elfMemory : ℕ) : List ℕ :=
  (List.range (elfGetHeader m elfMemory).ePhnum).map (elfPheaderAddress m elfMemory)

/-- The addresses of those that the loop of `process_map_memory_to_elf` looks at. -/
def mapPheadersReads (page elfMemory : ℕ) : (fuel i : ℕ) → Mem → List ℕ
  | 0, _, _ => []
  | fuel + 1, i, m =>
    if i < (elfGetHeader m elfMemory).ePhnum then
      let r := mapPheader m page elfMemory (elfGetPheader m elfMemory i)
      elfPheaderAddress m elfMemory i :: if r.1 < 0 then [] else mapPheadersReads page elfMemory fuel (i + 1) r.2
    else []

def processMapMemoryToElfReads (m : Mem) (page elfMemory : ℕ) : List ℕ :=
  mapPheadersReads page elfMemory (2 ^ 16) 0 m

/-- The `n` bytes from `a` on are bytes of the file. -/
def WithinFile (elfMemory size a n : ℕ) : Prop := elfMemory ≤ a ∧ a + n ≤ elfMemory + size

/-- The headers of a file are bytes of it: the ELF header, the program headers that are
scanned when it is loaded, and those that are looked at when it is mapped. -/
structure HeadersInFile (loaded mapped : Mem) (page elfMemory size : ℕ) : Prop where
  header : WithinFile elfMemory size elfMemory sizeofElfHeader
  scanned : ∀ a ∈ elfProcessPheadersReads loaded elfMemory, WithinFile elfMemory size a sizeofElfProgramHeader
  mapped : ∀ a ∈ processMapMemoryToElfReads mapped page elfMemory, WithinFile elfMemory size a sizeofElfProgramHeader

/-- The file has room for its ELF header and for the table that this places. -/
def TableFits (size : ℕ) (bytes : List UInt8) : Prop :=
  let header := elfGetHeader (fun a => bytes.getD a 0) 0
  sizeofElfHeader ≤ size ∧ (header.ePhnum = 0 ∨ header.ePhoff + sizeofElfProgramHeader * header.ePhnum ≤ size)

theorem elfPheaderAddress_congr {m m' : Mem} {elfMemory : ℕ} (h : ∀ o < 52, m' (elfMemory + o) = m (elfMemory + o))
    (index : ℕ) : elfPheaderAddress m' elfMemory index = elfPheaderAddress m elfMemory index := by
  rw [elfPheaderAddress, elfPheaderAddress, elfGetPheaderStart, elfGetPheaderStart, (elfGetHeader_congr h).2]

theorem elfPheaderAddress_eq {m : Mem} {elfMemory : ℕ} (hphoff : (elfGetHeader m elfMemory).ePhoff ≠ 0) (index : ℕ) :
    elfPheaderAddress m elfMemory index =
      (elfMemory + (elfGetHeader m elfMemory).ePhoff + sizeofElfProgramHeader * index) % 2 ^ 32 := by
  rw [elfPheaderAddress, elfGetPheaderStart, if_neg hphoff]
  unfold uint32
  push_cast
  omega

/-- A table whose entries all lie in the file lies there as a whole: its addresses cannot
get back into the file from above the address space without leaving it first. -/
theorem table_withinFile_iff {elfMemory size phoff phnum : ℕ} (hpos : elfMemory ≠ 0) (hfits : elfMemory + size ≤ 2 ^ 32)
    (hphoff : phoff < 2 ^ 32) :
    (∀ i < phnum, WithinFile elfMemory size ((elfMemory + phoff + sizeofElfProgramHeader * i) % 2 ^ 32)
        sizeofElfProgramHeader) ↔
      phnum = 0 ∨ phoff + sizeofElfProgramHeader * phnum ≤ size := by
  unfold WithinFile sizeofElfProgramHeader
  constructor
  · intro hall
    induction phnum with
    | zero => exact Or.inl rfl
    | succ n ih =>
      have hlast := hall n (Nat.lt_succ_self n)
      rcases ih fun i hi => hall i (Nat.lt_succ_of_lt hi) with rfl | hbefore
      · right
        omega
      · right
        omega
  · rintro (rfl | htable) i hi
    · exact absurd hi (Nat.not_lt_zero i)
    · rw [Nat.mod_eq_of_lt (by omega)]
      omega

section
variable {m m₀ : Mem} {page elfMemory : ℕ} {c : Chunk} {F : ℕ → ℕ}

/-- Mapping does not move the table, so its headers are looked up where they were found
when the file was loaded. -/
theorem mapPheadersReads_mem (hs : c.Separate page)
    (hblock : ∀ a, c.IsBlock page a → a % 4096 = 0 ∧ a + 4096 ≤ 2 ^ 32) (h : ChunkAt m page c F)
    (hheader : ∀ o < 52, m (elfMemory + o) = m₀ (elfMemory + o))
    (hapart : ∀ o < 52, ∀ j < 1024, elfMemory + o < c.table j ∨ c.table j + 4096 ≤ elfMemory + o) (fuel i : ℕ) {a : ℕ}
    (ha : a ∈ mapPheadersReads page elfMemory fuel i m) : a ∈ elfProcessPheadersReads m₀ elfMemory := by
  induction fuel generalizing i m F with
  | zero => exact absurd ha List.not_mem_nil
  | succ fuel ih =>
    have hphnum := (elfGetHeader_congr hheader).1
    simp only [mapPheadersReads] at ha
    split_ifs at ha with hin hneg
    · rw [List.mem_singleton] at ha
      rw [elfProcessPheadersReads, List.mem_map]
      exact ⟨i, List.mem_range.mpr (hphnum ▸ hin), by rw [ha, elfPheaderAddress_congr hheader]⟩
    · rcases List.mem_cons.mp ha with rfl | hrest
      · rw [elfProcessPheadersReads, List.mem_map]
        exact ⟨i, List.mem_range.mpr (hphnum ▸ hin), (elfPheaderAddress_congr hheader i).symm⟩
      · refine ih (h.mapPheader elfMemory hs hblock _).2 (fun o ho => ?_) (i + 1) hrest
        rw [h.mapPheader_outside elfMemory hs hblock _ (hapart o ho), hheader o ho]
    · exact absurd ha List.not_mem_nil

end

namespace ElfLoaded
variable {s : FileState} {filename : List UInt8} {stale : ℕ} {opened : FileState} {size : ℕ} {bytes : List UInt8}
  {file : ElfFile} {s' : FileState}

theorem accepted (h : ElfLoaded s filename stale opened size bytes file s') :
    elfValidateLoad (elfGetHeader s'.kmem.mem file.elfMemory) = 0 := by
  obtain ⟨res, hload⟩ := h.load
  obtain ⟨fd, opened', r, stat, n, t, -, -, -, -, -, -, hprocess, hres, hclose⟩ := elfLoad_steps hload
  have hmem := congrArg (·.2.elfMemory) hprocess
  have hstatus := congrArg Prod.fst hprocess
  simp only [(elfProcessLoaded_elfMemory _ _).1] at hmem
  rw [fclose_mem hclose, ← hmem]
  by_contra hrefused
  have hneg : elfValidateLoad (elfGetHeader t.kmem.mem (kzalloc opened'.kmem stat.size).1) = -EINFORMAT := by
    unfold elfValidateLoad at hrefused ⊢
    split_ifs at hrefused ⊢ <;> simp_all
  have hbelow : (-EINFORMAT : ℤ) < 0 := by decide
  simp only [elfProcessLoaded, hneg, if_pos hbelow] at hstatus
  omega

theorem ePhoff_ne (h : ElfLoaded s filename stale opened size bytes file s') :
    (elfGetHeader s'.kmem.mem file.elfMemory).ePhoff ≠ 0 := by
  intro hzero
  have haccepted := h.accepted
  simp [elfValidateLoad, elfHasProgramHeader, hzero, EINFORMAT] at haccepted

/-- The buffer holds the file, and zeros where the read came short of it. -/
theorem byte_eq (h : ElfLoaded s filename stale opened size bytes file s') {o : ℕ} (ho : o < size) :
    s'.kmem.mem (file.elfMemory + o) = bytes.getD o 0 := by
  obtain ⟨haddress, hmem⟩ := h.result
  have hne := h.buffer
  rw [haddress] at hne
  rw [hmem, storeBytes]
  split_ifs with hin
  · rw [Nat.add_sub_cancel_left]
  · rw [kzalloc_mem hne, ← haddress, fill, if_pos (by omega), List.getD_eq_default _ _ (by omega)]

theorem header_eq (h : ElfLoaded s filename stale opened size bytes file s') (hsize : sizeofElfHeader ≤ size) :
    (elfGetHeader s'.kmem.mem file.elfMemory).ePhnum = (elfGetHeader (fun a => bytes.getD a 0) 0).ePhnum ∧
      (elfGetHeader s'.kmem.mem file.elfMemory).ePhoff = (elfGetHeader (fun a => bytes.getD a 0) 0).ePhoff := by
  unfold sizeofElfHeader at hsize
  constructor
  · simp only [elfGetHeader, load16, Nat.add_assoc, Nat.zero_add]
    rw [h.byte_eq (by omega), h.byte_eq (by omega)]
  · have hword : load32 s'.kmem.mem (file.elfMemory + 28) = load32 (fun a => bytes.getD a 0) (0 + 28) := by
      refine load32_move fun k hk => ?_
      rw [Nat.add_assoc, h.byte_eq (by omega), Nat.zero_add]
    exact hword

/-- The scan stays in the file exactly when the table that it reads ends there. -/
theorem scanned_iff (h : ElfLoaded s filename stale opened size bytes file s') :
    (∀ a ∈ elfProcessPheadersReads s'.kmem.mem file.elfMemory,
        WithinFile file.elfMemory size a sizeofElfProgramHeader) ↔
      (elfGetHeader s'.kmem.mem file.elfMemory).ePhnum = 0 ∨
        (elfGetHeader s'.kmem.mem file.elfMemory).ePhoff +
          sizeofElfProgramHeader * (elfGetHeader s'.kmem.mem file.elfMemory).ePhnum ≤ size := by
  have hphoff : (elfGetHeader s'.kmem.mem file.elfMemory).ePhoff < 2 ^ 32 := load32_lt _ _
  rw [elfProcessPheadersReads, List.forall_mem_map]
  simp only [List.mem_range, elfPheaderAddress_eq h.ePhoff_ne]
  exact table_withinFile_iff h.buffer h.fits hphoff

end ElfLoaded

/-- The headers that are used of a file are bytes of it exactly when the file says so: what
is checked of it does not keep them there. -/
theorem elf_headersInFile_iff (s : FileState) (filename : List UInt8) (stale : ℕ) (opened : FileState) (size : ℕ)
    (bytes : List UInt8) (file : ElfFile) (s' : FileState)
    (hloaded : ElfLoaded s filename stale opened size bytes file s') (m : Mem) (page : ℕ) (c : Chunk)
    (hfresh : FreshChunk m page c)
    (hkept : ∀ o < 4096 * blocksFor size, m (file.elfMemory + o) = s'.kmem.mem (file.elfMemory + o))
    (hapart : ∀ a, c.IsBlock page a →
      a + 4096 ≤ file.elfMemory ∨ file.elfMemory + 4096 * blocksFor size ≤ a) :
    HeadersInFile s'.kmem.mem m page file.elfMemory size ↔ TableFits size bytes := by
  constructor
  · intro hin
    have hsize : sizeofElfHeader ≤ size := by
      have hheader := hin.header.2
      omega
    have htable := hloaded.scanned_iff.mp hin.scanned
    rw [(hloaded.header_eq hsize).1, (hloaded.header_eq hsize).2] at htable
    exact ⟨hsize, htable⟩
  · rintro ⟨hsize, htable⟩
    rw [← (hloaded.header_eq hsize).1, ← (hloaded.header_eq hsize).2] at htable
    have hscanned := hloaded.scanned_iff.mpr htable
    refine ⟨⟨le_rfl, by omega⟩, hscanned, fun a ha => hscanned a ?_⟩
    have hroom : 52 ≤ 4096 * blocksFor size := by
      unfold sizeofElfHeader at hsize
      unfold blocksFor
      omega
    refine mapPheadersReads_mem hfresh.separate hfresh.block hfresh.chunkAt (fun o ho => hkept o (by omega))
      (fun o ho j hj => ?_) _ 0 ha
    have htableApart := hapart (c.table j) (Or.inr (Or.inr ⟨j, hj, rfl⟩))
    omega

/-- The table of one header ends with the file. -/
theorem elf_headersInFile_iff_bss : ∃ opened file s' m page c,
    ElfLoaded (bssState ⟨freshKernelHeap, fun _ => 0⟩) oneFilePath 0 opened 84 bssElf file s' ∧
      FreshChunk m page c ∧ (HeadersInFile s'.kmem.mem m page file.elfMemory 84 ↔ TableFits 84 bssElf) ∧
      TableFits 84 bssElf := by
  obtain ⟨opened, file, s', m, page, c, hloaded, hfresh, hkept, -, hapart⟩ :=
    bssElf_chunk (freshKernelHeap_wellFormed fun _ => 0) freshKernelHeap_room
  have hblocks : 4096 * blocksFor 84 = 4096 := by decide
  refine ⟨opened, file, s', m, page, c, hloaded, hfresh, elf_headersInFile_iff _ _ _ _ _ _ _ _ hloaded m page c hfresh
    hkept (by rwa [hblocks]), by decide, Or.inr (by decide)⟩

/-- The file of one segment, except that it speaks of two program headers. -/
def twoHeadersElf : List UInt8 := bssElf.set 44 2

/-- The second of them is 32 bytes behind the end of the file. -/
theorem twoHeadersElf_not_inFile : ∃ opened file s' m page c,
    ElfLoaded ⟨⟨freshKernelHeap, fun _ => 0⟩, some (fileDisk twoHeadersElf), fun _ => none⟩ oneFilePath 0 opened 84
        twoHeadersElf file s' ∧
      FreshChunk m page c ∧ file.elfMemory + 84 ∈ elfProcessPheadersReads s'.kmem.mem file.elfMemory ∧
      ¬ HeadersInFile s'.kmem.mem m page file.elfMemory 84 := by
  have haccepted : elfValidateLoad (elfGetHeader (fun x => twoHeadersElf.getD x 0) 0) = 0 := by decide
  obtain ⟨opened, file, s', m, page, c, hloaded, hfresh, -, -, hlt, -⟩ := fileDisk_chunk (by decide)
    (fun m a hm => (elfValidateLoad_at hm (by decide)).trans haccepted) (freshKernelHeap_wellFormed fun _ => 0)
    freshKernelHeap_room
  obtain ⟨hphnum, hphoff⟩ := hloaded.header_eq (by decide)
  have hread : file.elfMemory + 84 ∈ elfProcessPheadersReads s'.kmem.mem file.elfMemory := by
    rw [elfProcessPheadersReads, hphnum, List.mem_map]
    refine ⟨1, by decide, ?_⟩
    rw [elfPheaderAddress_eq hloaded.ePhoff_ne, hphoff,
      show (elfGetHeader (fun a => twoHeadersElf.getD a 0) 0).ePhoff = 52 by decide]
    unfold sizeofElfProgramHeader
    omega
  refine ⟨opened, file, s', m, page, c, hloaded, hfresh, hread, fun hin => ?_⟩
  have hend := (hin.scanned _ hread).2
  unfold sizeofElfProgramHeader at hend
  omega

end Zhios
