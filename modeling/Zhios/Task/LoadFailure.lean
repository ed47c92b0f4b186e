import Zhios.Task.Load
import Zhios.Loaders.ElfBuffer

/-! Loads that fail. A load that is refused for want of a slot changes nothing; one
that fails later leaves blocks of the heap taken, or is not defined at all. -/
namespace Zhios
open Machine

theorem KMem.Leaks.not_sameFree {k k' : KMem} (h : k.Leaks k') : ¬ k.heap.SameFree k'.heap := by
  intro hsame
  obtain ⟨p, ⟨b, rfl, hlt, hfree⟩, hheld⟩ := h.leaked
  rw [← h.keeps.region.blockAddress] at hheld
  exact hheld.not_freeAt ((hsame b hlt).mp hfree)

theorem fopen_unmounted {s s' : FileState} {filename mode : List UInt8} {stale : ℕ} {fd : ℤ} (hv : s.volume = none)
    (h : fopen s filename mode stale = some (fd, s')) : fd < 0 := by
  by_contra hnonneg
  obtain ⟨path, k, v, d, k', id, -, -, hmounted, -⟩ := fopen_nonneg h (by omega)
  rw [hv] at hmounted
  cases hmounted

/-- The failed load then closes a file that was never opened. -/
theorem loadData_unmounted {s : FileState} {filename : List UInt8} {stale : ℕ} (hv : s.volume = none) :
    loadData s filename stale = none := by
  have helf : elfLoad s filename stale = none := by
    by_contra hsome
    obtain ⟨r, hr⟩ := Option.ne_none_iff_exists'.mp hsome
    unfold elfLoad at hr
    obtain ⟨⟨fd, t⟩, hopen, hr⟩ := Option.bind_eq_some_iff.mp hr
    have hneg := fopen_unmounted (show (FileState.volume { s with kmem := (kzalloc s.kmem sizeofElfFile).2 }) = none
      from hv) hopen
    simp only [elfLoadFailed, if_pos hneg.le, if_neg hneg.ne, fclose_nonpos hneg.le] at hr
    simp at hr
  rw [loadData, helf]
  rfl

namespace KernelState
variable {σ σ' : KernelState} {filename : List UInt8} {arguments stale : ℕ} {res : ℤ} {process : ℕ}

/-- The kernel heap is as booting leaves it, once a disk is mounted. -/
def Booted (σ : KernelState) : Prop := σ.file.volume ≠ none → σ.file.kmem.Booted

def Full (σ : KernelState) : Prop := ∀ i < zhiosMaxProcess, σ.processes.processList i ≠ 0

/-- A kernel that has booted from some volume and started nothing. -/
def boot (v : FatDisk) : KernelState :=
  ⟨⟨bootKmem, some v, fun _ => none⟩, Processes.initial, fun _ => initRegisters 0 0, fun _ => ProcessData.zero⟩

theorem boot_booted (v : FatDisk) : (boot v).Booted := by
  obtain ⟨-, -, -, -, hbooted⟩ := bootKmem_wellFormed
  exact fun _ => hbooted

theorem Outcome.mounted (h : Outcome σ filename arguments stale res process σ') (hslot : ¬ σ.Full) :
    σ.file.volume ≠ none := by
  intro hv
  have hnone : ∀ k, loadData { σ.file with kmem := k } filename stale = none := fun k => loadData_unmounted hv
  cases h with
  | full hfull => exact hslot hfull
  | notLoaded _ file _ hprocess hload => exact absurd (hload.symm.trans (hnone _)) (by simp)
  | noStack program file page k _ hprocess hload => exact absurd (hload.symm.trans (hnone _)) (by simp)
  | acquired program file page k parameters k' _ hacquires =>
    exact absurd (hacquires.load.symm.trans (hnone _)) (by simp)

/-- A load that fails with a slot left leaks. -/
theorem Outcome.leaks (h : Outcome σ filename arguments stale res process σ') (hbooted : σ.file.kmem.Booted)
    (hslot : ¬ σ.Full) (hres : res < 0) : σ.file.kmem.Leaks σ'.file.kmem := by
  have hcoherent := hbooted.coherent
  have hfirst := KMem.Keeps.kzalloc (.refl hcoherent) sizeofProcess
  cases h with
  | full hfull => exact absurd hfull hslot
  | notLoaded _ file _ hprocess hload hfile =>
    have hleaks := (loadData_failed (hbooted.kzalloc sizeofProcess) hload).2
    rw [hfile]
    exact hleaks.kfree hbooted hfirst (fun p hp => hcoherent.unused_of_kzalloc hp)
      (hcoherent.held_kzalloc (by decide) (by decide) hprocess) ((KMem.Keeps.refl hcoherent).not_held _)
  | noStack program file page k _ hprocess hload hchunk hfile =>
    have hloaded := (loadData_loaded (hbooted.kzalloc sizeofProcess) hload).1
    have htask := hloaded.kzalloc sizeofTask
    obtain ⟨blocks, -, hpage⟩ := pagingNewChunk_takes htask.coherent hchunk
    have hall := (htask.trans hpage.keeps).kzalloc zhiosProgramStackSize
    rw [hfile]
    refine ⟨(hfirst.trans hall).above, _, hcoherent.unused_kzalloc hprocess, hall.held _ ?_⟩
    exact hcoherent.held_kzalloc (by decide) (by decide) hprocess
  | acquired program =>
    have hpos := program.fileType_pos
    omega

theorem loadProcess_full (h : σ.Full) : σ.loadProcess filename arguments stale = some (maxProcessReached, 0, σ) := by
  have hslot := (getProcessFreeSlot_eq_max_iff σ.processes).mpr h
  simp only [loadProcess, acquireProcess, if_pos hslot, Option.map_some]
  exact congrArg some (if_pos (by decide))

/-- `MAX_PROCESS_REACHED` is returned for want of a slot, or because `load_data` returned it. -/
theorem loadProcess_max_iff (h : σ.loadProcess filename arguments stale = some (res, process, σ')) :
    res = maxProcessReached ↔ σ.Full ∨ ∃ file, loadData { σ.file with kmem := (kzalloc σ.file.kmem sizeofProcess).2 }
      filename stale = some (.inl maxProcessReached, file) := by
  obtain ⟨σ₁, hacquire, -⟩ := loadProcess_outcome h
  have hout := acquireProcess_outcome hacquire
  constructor
  · intro hres
    cases hout with
    | full hfull => exact Or.inl hfull
    | notLoaded _ file _ hprocess hload => exact Or.inr ⟨file, hres ▸ hload⟩
    | noStack => exact absurd hres (by decide)
    | acquired program =>
      have hpos := program.fileType_pos
      rw [hres] at hpos
      exact absurd hpos (by decide)
  · rintro (hfull | ⟨file, hstatus⟩)
    · rw [loadProcess_full hfull] at h
      cases h
      rfl
    · cases hout with
      | full => rfl
      | notLoaded _ file _ hprocess hload =>
        cases hload.symm.trans hstatus
        rfl
      | noStack program file page k _ hprocess hload => cases hload.symm.trans hstatus
      | acquired program file page k parameters k' _ hacquires => cases hacquires.load.symm.trans hstatus

end KernelState

theorem bootKmem_process : (kzalloc bootKmem sizeofProcess).1 ≠ 0 ∧ ∃ live,
    (kzalloc bootKmem sizeofProcess).2.WellFormed live ∧ Layout.used live = 4 ∧
      (kzalloc bootKmem sizeofProcess).2.heap.total = 25600 := by
  obtain ⟨live, hwf, hused, htotal, -⟩ := bootKmem_wellFormed
  have hrun := hwf.hasFreeRun (n := blocksFor sizeofProcess) (by rw [hused, htotal]; decide)
  obtain ⟨s, -, -, heq, hwf₁⟩ := hwf.kzalloc (by decide) (by decide) hrun
  have hpos := hwf.start_pos
  refine ⟨?_, _, hwf₁, ?_, ?_⟩
  · rw [heq]
    simp only
    omega
  · have hblocks : blocksFor sizeofProcess = 3 := rfl
    simp only [Layout.used] at hused
    simp only [Layout.used, List.map_cons, List.sum_cons, hused, hblocks]
  · rw [(kzalloc_region bootKmem sizeofProcess).total_eq, htotal]

end Zhios
