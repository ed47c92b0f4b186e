import Zhios.Loaders.ElfSegments
import Zhios.Machine.Least

/-! The bounds of an image, which `elf_process_pheaders` keeps with 0 for a bound that is not set. -/
namespace Zhios
open Machine

def ElfProgramHeader.fileEnd (h : ElfProgramHeader) : ℕ := h.pVaddr + h.pFilesz

/-- A segment of a program. -/
structure ElfProgramHeader.Proper (h : ElfProgramHeader) : Prop where
  first : zhiosProgramVirtualAddress ≤ h.pVaddr
  last : h.fileEnd < 2 ^ 32

def elfTable (m : Mem) (elfMemory : ℕ) : List ElfProgramHeader :=
  (List.range (elfGetHeader m elfMemory).ePhnum).map (elfGetPheader m elfMemory)

def loadSegments (headers : List ElfProgramHeader) : List ElfProgramHeader := headers.filter ElfProgramHeader.isLoad

namespace ElfFile

/-- The lower bounds are unset, or those of a segment. -/
def BaseOf (file : ElfFile) : Option ElfProgramHeader → Prop
  | none => file.virtualBaseAddress = 0
  | some h => h.Proper ∧ file.virtualBaseAddress = h.pVaddr ∧
      file.physicalStartAddress = uint32 (file.elfMemory + h.pOffset)

/-- The upper bounds are unset, or those of a segment. -/
def EndOf (file : ElfFile) : Option ElfProgramHeader → Prop
  | none => file.virtualEndAddress = 0
  | some h => h.Proper ∧ file.virtualEndAddress = h.fileEnd ∧
      file.physicalEndAddress = uint32 (file.elfMemory + h.pOffset + h.pFilesz)

/-- A later end comes first. -/
def endKey (h : ElfProgramHeader) : ℕᵒᵈ := OrderDual.toDual h.fileEnd

variable {file : ElfFile} {low high : Option ElfProgramHeader} {h : ElfProgramHeader}

theorem BaseOf.congr {file' : ElfFile} (h : file.BaseOf low)
    (hbase : file'.virtualBaseAddress = file.virtualBaseAddress)
    (hstart : file'.physicalStartAddress = file.physicalStartAddress) (hmemory : file'.elfMemory = file.elfMemory) :
    file'.BaseOf low := by
  cases low with
  | none => exact hbase.trans h
  | some b =>
    rw [BaseOf, hbase, hstart, hmemory]
    exact h

theorem EndOf.congr {file' : ElfFile} (h : file.EndOf high) (hend : file'.virtualEndAddress = file.virtualEndAddress)
    (hstop : file'.physicalEndAddress = file.physicalEndAddress) (hmemory : file'.elfMemory = file.elfMemory) :
    file'.EndOf high := by
  cases high with
  | none => exact hend.trans h
  | some b =>
    rw [EndOf, hend, hstop, hmemory]
    exact h

theorem BaseOf.test (hlow : file.BaseOf low) (h : ElfProgramHeader) :
    (h.pVaddr ≤ file.virtualBaseAddress ∨ file.virtualBaseAddress = 0) ∧
        keepLeast ElfProgramHeader.pVaddr low h = some h ∨
      ¬ (h.pVaddr ≤ file.virtualBaseAddress ∨ file.virtualBaseAddress = 0) ∧
        keepLeast ElfProgramHeader.pVaddr low h = low := by
  cases low with
  | none => exact Or.inl ⟨Or.inr hlow, rfl⟩
  | some b =>
    obtain ⟨hproper, hbase, _⟩ := hlow
    have hfirst : 0x400000 ≤ b.pVaddr := hproper.first
    rw [keepLeast, hbase]
    by_cases hle : h.pVaddr ≤ b.pVaddr
    · exact Or.inl ⟨Or.inl hle, if_pos hle⟩
    · exact Or.inr ⟨by omega, if_neg hle⟩

theorem EndOf.test (hhigh : file.EndOf high) (h : ElfProgramHeader) :
    (file.virtualEndAddress ≤ h.fileEnd ∨ file.virtualEndAddress = 0) ∧ keepLeast endKey high h = some h ∨
      ¬ (file.virtualEndAddress ≤ h.fileEnd ∨ file.virtualEndAddress = 0) ∧ keepLeast endKey high h = high := by
  cases high with
  | none => exact Or.inl ⟨Or.inr hhigh, rfl⟩
  | some b =>
    obtain ⟨hproper, hend, _⟩ := hhigh
    have hfirst : 0x400000 ≤ b.pVaddr := hproper.first
    have hpos : 0 < b.fileEnd := by
      rw [ElfProgramHeader.fileEnd]
      omega
    rw [keepLeast, hend]
    by_cases hle : b.fileEnd ≤ h.fileEnd
    · exact Or.inl ⟨Or.inl hle, if_pos hle⟩
    · exact Or.inr ⟨by omega, if_neg hle⟩

theorem processPtLoad (hlow : file.BaseOf low) (hhigh : file.EndOf high) (hh : h.Proper) :
    (elfProcessPtLoad file h).BaseOf (keepLeast ElfProgramHeader.pVaddr low h) ∧
      (elfProcessPtLoad file h).EndOf (keepLeast endKey high h) ∧
      (elfProcessPtLoad file h).elfMemory = file.elfMemory := by
  have hend : uint32 (h.pVaddr + h.pFilesz) = h.fileEnd := by
    have hword := uint32_of_bounds (Int.natCast_nonneg h.fileEnd) (Int.ofNat_lt.mpr hh.last)
    rw [ElfProgramHeader.fileEnd] at hword ⊢
    exact_mod_cast hword
  rw [elfProcessPtLoad]
  simp only [hend]
  rcases hlow.test h with ⟨hbase, hkeep⟩ | ⟨hbase, hkeep⟩ <;>
    rcases hhigh.test h with ⟨hlast, hkeep'⟩ | ⟨hlast, hkeep'⟩ <;>
    simp only [hbase, hlast, hkeep, hkeep', if_true, if_false]
  · exact ⟨⟨hh, rfl, rfl⟩, ⟨hh, rfl, rfl⟩, trivial⟩
  · exact ⟨⟨hh, rfl, rfl⟩, hhigh.congr rfl rfl rfl, trivial⟩
  · exact ⟨hlow.congr rfl rfl rfl, ⟨hh, rfl, rfl⟩, trivial⟩
  · exact ⟨hlow, hhigh, trivial⟩

theorem processPheaders (headers : List ElfProgramHeader) (hlow : file.BaseOf low) (hhigh : file.EndOf high)
    (hproper : ∀ h ∈ loadSegments headers, h.Proper) :
    (headers.foldl elfProcessPheader file).BaseOf
        ((loadSegments headers).foldl (keepLeast ElfProgramHeader.pVaddr) low) ∧
      (headers.foldl elfProcessPheader file).EndOf ((loadSegments headers).foldl (keepLeast endKey) high) ∧
      (headers.foldl elfProcessPheader file).elfMemory = file.elfMemory := by
  induction headers generalizing file low high with
  | nil => exact ⟨hlow, hhigh, rfl⟩
  | cons h headers ih =>
    rw [loadSegments, List.filter_cons, ElfProgramHeader.isLoad] at hproper ⊢
    rw [List.foldl_cons, elfProcessPheader]
    by_cases hload : h.pType = ptLoad
    · rw [if_pos (beq_iff_eq.mpr hload)] at hproper ⊢
      obtain ⟨hh, hrest⟩ := List.forall_mem_cons.mp hproper
      obtain ⟨hlow', hhigh', hmemory⟩ := processPtLoad hlow hhigh hh
      rw [if_pos hload, List.foldl_cons, List.foldl_cons, ← hmemory]
      exact ih hlow' hhigh' hrest
    · rw [if_neg (mt beq_iff_eq.mp hload)] at hproper ⊢
      rw [if_neg hload]
      exact ih hlow hhigh hproper

end ElfFile

/-- The bounds of an image are those of segments that attain them. -/
structure ImageBounds (segments : List ElfProgramHeader) (elfMemory : ℕ) (file : ElfFile) : Prop where
  first : ∃ h ∈ segments, (∀ g ∈ segments, h.pVaddr ≤ g.pVaddr) ∧ file.virtualBaseAddress = h.pVaddr ∧
    file.physicalStartAddress = uint32 (elfMemory + h.pOffset)
  last : ∃ h ∈ segments, (∀ g ∈ segments, g.pVaddr + g.pFilesz ≤ h.pVaddr + h.pFilesz) ∧
    file.virtualEndAddress = h.pVaddr + h.pFilesz ∧
    file.physicalEndAddress = uint32 (elfMemory + h.pOffset + h.pFilesz)

theorem ImageBounds.perm {segments segments' : List ElfProgramHeader} {elfMemory elfMemory' : ℕ} {file file' : ElfFile}
    (h : ImageBounds segments elfMemory file) (h' : ImageBounds segments' elfMemory' file')
    (hperm : segments.Perm segments') :
    file'.virtualBaseAddress = file.virtualBaseAddress ∧ file'.virtualEndAddress = file.virtualEndAddress := by
  obtain ⟨low, hlow, hleast, hbase, _⟩ := h.first
  obtain ⟨low', hlow', hleast', hbase', _⟩ := h'.first
  obtain ⟨high, hhigh, hgreatest, hend, _⟩ := h.last
  obtain ⟨high', hhigh', hgreatest', hend', _⟩ := h'.last
  have hbases : LeastOf ElfProgramHeader.pVaddr segments low := ⟨hlow, hleast⟩
  have hends : LeastOf ElfFile.endKey segments high := ⟨hhigh, hgreatest⟩
  rw [hbase, hbase', hend, hend']
  exact ⟨(hbases.key_eq ⟨hlow', hleast'⟩ hperm).symm,
    OrderDual.toDual.injective (hends.key_eq ⟨hhigh', hgreatest'⟩ hperm).symm⟩

theorem elfProcessPheaders_eq (m : Mem) (file : ElfFile) :
    (elfProcessPheaders m file).2 = (elfTable m file.elfMemory).foldl elfProcessPheader file := by
  have hstep : ∀ (file : ElfFile) (pheader : ElfProgramHeader),
      (elfProcessPheader file pheader).elfMemory = file.elfMemory := by
    intro file pheader
    unfold elfProcessPheader elfProcessPtLoad
    simp only []
    split_ifs <;> rfl
  have hloop : ∀ (l : List ℕ) (file : ElfFile),
      l.foldl (fun file i => elfProcessPheader file (elfGetPheader m file.elfMemory i)) file =
        (l.map (elfGetPheader m file.elfMemory)).foldl elfProcessPheader file := by
    intro l
    induction l with
    | nil => exact fun file => rfl
    | cons i l ih =>
      intro file
      rw [List.foldl_cons, List.map_cons, List.foldl_cons, ih, hstep]
  exact hloop _ file

theorem elfProcessPheaders_imageBounds {m : Mem} {file : ElfFile} (hbase : file.virtualBaseAddress = 0)
    (hend : file.virtualEndAddress = 0) (hproper : ∀ h ∈ loadSegments (elfTable m file.elfMemory), h.Proper)
    (hne : loadSegments (elfTable m file.elfMemory) ≠ []) :
    ImageBounds (loadSegments (elfTable m file.elfMemory)) file.elfMemory (elfProcessPheaders m file).2 := by
  have hunset : file.BaseOf none := hbase
  have hunset' : file.EndOf none := hend
  obtain ⟨hlow, hhigh, hmemory⟩ := ElfFile.processPheaders (elfTable m file.elfMemory) hunset hunset' hproper
  obtain ⟨low, hlow', hleast⟩ := foldl_keepLeast_none ElfProgramHeader.pVaddr hne
  obtain ⟨high, hhigh', hgreatest⟩ := foldl_keepLeast_none ElfFile.endKey hne
  rw [hlow'] at hlow
  rw [hhigh'] at hhigh
  rw [elfProcessPheaders_eq]
  refine ⟨⟨low, hleast.mem, hleast.le, hlow.2.1, ?_⟩, ⟨high, hgreatest.mem, hgreatest.le, hhigh.2.1, ?_⟩⟩
  · rw [hlow.2.2, hmemory]
  · rw [hhigh.2.2, hmemory]

/-- The bounds of an image are those of its segments, and the order of the headers does not matter. -/
theorem elfProcessPheaders_bounds {m : Mem} {file : ElfFile} (hbase : file.virtualBaseAddress = 0)
    (hend : file.virtualEndAddress = 0) (hproper : ∀ h ∈ loadSegments (elfTable m file.elfMemory), h.Proper)
    (hne : loadSegments (elfTable m file.elfMemory) ≠ []) :
    ImageBounds (loadSegments (elfTable m file.elfMemory)) file.elfMemory (elfProcessPheaders m file).2 ∧
      ∀ (m' : Mem) (file' : ElfFile), file'.virtualBaseAddress = 0 → file'.virtualEndAddress = 0 →
        (elfTable m file.elfMemory).Perm (elfTable m' file'.elfMemory) →
        (elfProcessPheaders m' file').2.virtualBaseAddress = (elfProcessPheaders m file).2.virtualBaseAddress ∧
          (elfProcessPheaders m' file').2.virtualEndAddress = (elfProcessPheaders m file).2.virtualEndAddress := by
  have hbounds := elfProcessPheaders_imageBounds hbase hend hproper hne
  refine ⟨hbounds, fun m' file' hbase' hend' hperm => ?_⟩
  have hsegments : (loadSegments (elfTable m file.elfMemory)).Perm (loadSegments (elfTable m' file'.elfMemory)) :=
    hperm.filter _
  apply hbounds.perm (elfProcessPheaders_imageBounds hbase' hend' _ _) hsegments
  · exact fun h hmem => hproper h (hsegments.mem_iff.mpr hmem)
  · intro hnil
    rw [hnil] at hsegments
    exact hne hsegments.eq_nil

def dataFirst : Mem := fun x =>
  (elfBytes 0x400034 [[1, 0x1000, 0x401000, 0x401000, 64, 64, 6, 0x1000], [0x6474E551, 0, 0, 0, 0, 0, 6, 16],
    [1, 0, 0x400000, 0x400000, 84, 84, 5, 0x1000]]).getD x 0

theorem dataFirst_bounds :
    ImageBounds (loadSegments (elfTable dataFirst 0)) 0 (elfProcessPheaders dataFirst (elfFileAt 0)).2 ∧
      ∀ (m' : Mem) (file' : ElfFile), file'.virtualBaseAddress = 0 → file'.virtualEndAddress = 0 →
        (elfTable dataFirst 0).Perm (elfTable m' file'.elfMemory) →
        (elfProcessPheaders m' file').2.virtualBaseAddress =
            (elfProcessPheaders dataFirst (elfFileAt 0)).2.virtualBaseAddress ∧
          (elfProcessPheaders m' file').2.virtualEndAddress =
            (elfProcessPheaders dataFirst (elfFileAt 0)).2.virtualEndAddress := by
  have hsegments : loadSegments (elfTable dataFirst 0) =
      [⟨1, 0x1000, 0x401000, 64, 64, 6, by decide, by decide, by decide, by decide⟩, smallSegment] := by
    decide +kernel
  apply @elfProcessPheaders_bounds dataFirst (elfFileAt 0) rfl rfl
  · intro h hmem
    rw [elfFileAt, hsegments] at hmem
    rcases List.mem_cons.mp hmem with rfl | hmem
    · exact ⟨by decide, by decide⟩
    · rw [List.mem_singleton.mp hmem]
      exact ⟨by decide, by decide⟩
  · rw [elfFileAt, hsegments]
    exact List.cons_ne_nil _ _

end Zhios
