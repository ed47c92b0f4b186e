import Zhios.Task.ProcessMapping
import Zhios.Task.ProcessEnd

/-! The address space that a process starts with: what its page tables let it write to. -/
namespace Zhios
open Machine

/-- The tables let user code store at a physical address: somewhere the processor finds the flags
in the word of the directory and in the entry of the table. -/
def UserWrites (m : Mem) (page a : ℕ) : Prop :=
  ∃ v < 2 ^ 32, load32 m (pagingGetDirectory m page + 4 * (pagingGetIndex v).1) &&& userFlags = userFlags ∧
    getPage m (pagingGetDirectory m page) v &&& userFlags = userFlags ∧ pagingGetPhysicalAddress m page v = a

section
variable {m : Mem} {page : ℕ} {c : Chunk} {stack : ℕ}

theorem spaceFrame_lt (program : ProgramData) (hstack : StackBlock page c stack) {P : ℕ} (hP : P < 2 ^ 20) :
    spaceFrame program m page stack P < 2 ^ 20 := by
  have hfits := hstack.fits
  have haligned := hstack.aligned
  rw [stackSize_eq] at hfits
  unfold spaceFrame
  split_ifs with hpage
  · unfold StackPage at hpage
    omega
  · cases program with
    | elf file => exact elfFrame_lt _ _ hP
    | binary ptr size =>
      unfold ProgramData.frame
      dsimp only
      split_ifs
      · exact Nat.mod_lt _ (Nat.two_pow_pos 20)
      · exact hP

/-- The map read backwards: what can be stored to is the stack, the page behind it and what the
loader made writable. -/
theorem ChunkAt.userWrites {m' : Mem} {program : ProgramData} (hat : ChunkAt m' page c (fun P =>
      4096 * spaceFrame program m page stack P ||| if spaceWritable program m page P then 7 else 5))
    (hdirectory : ∀ i < 1024, load32 m' (c.directory + 4 * i) &&& userFlags = userFlags)
    (hblock : ∀ a, c.IsBlock page a → a % 4096 = 0 ∧ a + 4096 ≤ 2 ^ 32) (hstack : StackBlock page c stack) (a : ℕ) :
    UserWrites m' page a ↔ stack ≤ a ∧ a < stack + zhiosProgramStackSize + 4096 ∨
      ∃ P < 2 ^ 20, ¬ StackPage P ∧ program.writable m page P ∧ a / 4096 = program.frame m page P := by
  have hwrites : ∀ {v : ℕ}, v < 2 ^ 32 →
      (getPage m' (pagingGetDirectory m' page) v &&& userFlags = userFlags ↔
        spaceWritable program m page (v / 4096)) := by
    intro v hv
    rw [hat.getPage_eq hblock hv]
    exact entry_userFlags _ _
  have haddress : ∀ {v : ℕ}, v < 2 ^ 32 →
      pagingGetPhysicalAddress m' page v = 4096 * spaceFrame program m page stack (v / 4096) + v % 4096 := by
    intro v hv
    have hlt : spaceFrame program m page stack (v / 4096) < 2 ^ 20 := spaceFrame_lt program hstack (by omega)
    rw [hat.pagingGetPhysicalAddress_eq hblock hv, or_and_page_mask]
    · omega
    · split_ifs <;> omega
    · omega
  have hfits := hstack.fits
  have haligned := hstack.aligned
  rw [stackSize_eq] at hfits ⊢
  constructor
  · rintro ⟨v, hv, -, hwrite, rfl⟩
    have hwritable := (hwrites hv).mp hwrite
    rw [haddress hv]
    by_cases hpage : StackPage (v / 4096)
    · left
      rw [spaceFrame, if_pos hpage]
      obtain ⟨hlo, hhi⟩ := hpage
      omega
    · right
      rw [spaceWritable, decide_eq_false hpage, Bool.false_or] at hwritable
      rw [spaceFrame, if_neg hpage]
      exact ⟨v / 4096, by omega, hpage, hwritable, by omega⟩
  · rintro (⟨hlo, hhi⟩ | ⟨P, hP, hpage, hwritable, hframe⟩)
    · have hquotient : (4096 * (0x3FB + (a / 4096 - stack / 4096)) + a % 4096) / 4096 =
          0x3FB + (a / 4096 - stack / 4096) := by omega
      have hpage : StackPage (0x3FB + (a / 4096 - stack / 4096)) := ⟨by omega, by omega⟩
      have hv : 4096 * (0x3FB + (a / 4096 - stack / 4096)) + a % 4096 < 2 ^ 32 := by omega
      refine ⟨4096 * (0x3FB + (a / 4096 - stack / 4096)) + a % 4096, hv, hat.directoryFlags hdirectory hv,
        (hwrites hv).mpr ?_, ?_⟩
      · rw [hquotient, spaceWritable, decide_eq_true hpage, Bool.true_or]
      · rw [haddress hv, hquotient, spaceFrame, if_pos hpage]
        omega
    · have hquotient : (4096 * P + a % 4096) / 4096 = P := by omega
      have hv : 4096 * P + a % 4096 < 2 ^ 32 := by omega
      refine ⟨4096 * P + a % 4096, hv, hat.directoryFlags hdirectory hv, (hwrites hv).mpr ?_, ?_⟩
      · rw [hquotient, spaceWritable, decide_eq_false hpage, Bool.false_or]
        exact hwritable
      · rw [haddress hv, hquotient, spaceFrame, if_neg hpage, ← hframe]
        omega

end

namespace KernelState

/-- What a process that was just loaded can write to, whatever else the kernel has done since it
booted: its stack, the page behind the stack, and the pages of its file that the last header
for a page makes writable. It can write to nothing else in memory. -/
theorem load_address_space (σ : KernelState) (hbooted : σ.Booted) (hregion : bootKmem.SameRegion σ.file.kmem)
    (filename : List UInt8) (arguments stale : ℕ) (hargs : arguments ≠ 0 → σ.ArgumentsKept filename arguments stale)
    (res : ℤ) (process : ℕ) (σ' : KernelState)
    (hload : σ.loadProcess filename arguments stale = some (res, process, σ')) (hres : 0 < res) :
    ∃ σ₁ program, σ.acquireProcess filename arguments stale = some (res, process, σ₁) ∧
      (σ'.data process).programData = some program ∧
      ∀ a, UserWrites σ'.file.kmem.mem (σ'.memory process).pageDirectory a ↔
        (σ'.data process).stack ≤ a ∧ a < (σ'.data process).stack + zhiosProgramStackSize + 4096 ∨
          ∃ P < 2 ^ 20, ¬ StackPage P ∧ program.writable σ₁.file.kmem.mem (σ'.memory process).pageDirectory P ∧
            a / 4096 = program.frame σ₁.file.kmem.mem (σ'.memory process).pageDirectory P := by
  obtain ⟨σ₁, hacquire, -⟩ := loadProcess_outcome hload
  have hout := acquireProcess_outcome hacquire
  have hslot : ¬ σ.Full := by
    intro hfull
    rw [loadProcess_full hfull] at hload
    cases hload
    exact absurd hres (by decide)
  have hheap := hbooted (hout.mounted hslot)
  obtain ⟨hprocess, program, file, page, k, parameters, k', hacquires, hacquired⟩ := hout.of_nonneg hheap hres.le
  obtain ⟨s, hread⟩ : ∃ s, arguments ≠ 0 → ArgumentsRead file.kmem arguments s := by
    by_cases hnull : arguments = 0
    · exact ⟨[], fun hne => absurd hnull hne⟩
    · obtain ⟨s, hread⟩ := hargs hnull _ hacquires.load
      exact ⟨s, fun _ => hread⟩
  obtain ⟨hpage, hprogram, hstackAt, c, hfresh, hstack, hmapped, hopen, -⟩ :=
    hacquires.mapped hheap hregion hread hload hres hacquire hacquired hprocess
  rw [hpage, hprogram, hstackAt]
  exact ⟨σ₁, program, hacquire, rfl, hmapped.chunkAt.userWrites hopen hfresh.block hstack⟩

end KernelState

theorem load_address_space_bss : ∃ res process σ' σ₁ program,
    (KernelState.boot bssDisk).loadProcess oneFilePath 0 0 = some (res, process, σ') ∧
      (KernelState.boot bssDisk).acquireProcess oneFilePath 0 0 = some (res, process, σ₁) ∧
      (σ'.data process).programData = some program ∧
      ∀ a, UserWrites σ'.file.kmem.mem (σ'.memory process).pageDirectory a ↔
        (σ'.data process).stack ≤ a ∧ a < (σ'.data process).stack + zhiosProgramStackSize + 4096 ∨
          ∃ P < 2 ^ 20, ¬ StackPage P ∧ program.writable σ₁.file.kmem.mem (σ'.memory process).pageDirectory P ∧
            a / 4096 = program.frame σ₁.file.kmem.mem (σ'.memory process).pageDirectory P := by
  obtain ⟨file, s', page, k, k', hacquires, -⟩ := bssElf_acquires
  obtain ⟨σ', hload⟩ := hacquires.loadProcess
  have hspace := KernelState.load_address_space _ (KernelState.boot_booted bssDisk) (.refl bootKmem) oneFilePath 0 0
    (fun hne => absurd rfl hne) _ _ σ' hload (ProgramData.fileType_pos _)
  obtain ⟨σ₁, program', hacquire, hdata, hwrites⟩ := hspace
  exact ⟨_, _, σ', σ₁, program', hload, hacquire, hdata, hwrites⟩

end Zhios
