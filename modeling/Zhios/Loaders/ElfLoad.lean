import Zhios.Loaders.ElfSegments
import Zhios.Fs.FileLeak

/-! ELF files that are loaded from the disk. -/
namespace Zhios
open Machine

theorem fopenFailed_neg {s s' : FileState} {path : Option RootPath} {stale : ℕ} {res fd : ℤ}
    (h : fopenFailed s path stale res = some (fd, s')) : fd = res := by
  unfold fopenFailed at h
  split_ifs at h
  exact (congrArg Prod.fst (Option.some.inj h)).symm

theorem fopen_nonneg {s s' : FileState} {filename mode : List UInt8} {stale : ℕ} {fd : ℤ}
    (h : fopen s filename mode stale = some (fd, s')) (hnonneg : 0 ≤ fd) :
    ∃ path k v d k' id, parsePath s.kmem filename = some (some path, k) ∧ path.driveNumber = 0 ∧
      s.volume = some v ∧ fat16Open k v path.root (getFileModeFromString mode) = some (d, k') ∧
      newFileDescriptor { s with kmem := k' } d = some (id, s') ∧ fd = id.getD 0 := by
  unfold fopen at h
  obtain ⟨⟨path, k⟩, hparse, h⟩ := Option.bind_eq_some_iff.mp h
  cases path with
  | none => exact absurd (fopenFailed_neg h) (by unfold EINARG; omega)
  | some path =>
    simp only at h
    split_ifs at h with hroot hmode hdrive
    · exact absurd (fopenFailed_neg h) (by unfold EINARG; omega)
    · exact absurd (congrArg Prod.fst (Option.some.inj h)) (by unfold EINARG; simp only; omega)
    · exact absurd (fopenFailed_neg h) (by unfold EIO; omega)
    · cases hv : s.volume with
      | none =>
        rw [hv] at h
        exact absurd (fopenFailed_neg h) (by unfold EIO; omega)
      | some v =>
        rw [hv] at h
        obtain ⟨⟨d, k'⟩, hopen, h⟩ := Option.bind_eq_some_iff.mp h
        obtain ⟨⟨id, t⟩, hnew, heq⟩ := Option.map_eq_some_iff.mp h
        obtain ⟨hfd, rfl⟩ := Prod.mk.inj heq
        exact ⟨path, k, v, d, k', id, hparse, not_not.mp hdrive, rfl, hopen, hnew, hfd.symm⟩

/-- A call of `fopen` that returns a descriptor got it from the file system. -/
theorem fopen_positive {s s' : FileState} {filename mode : List UInt8} {stale : ℕ} {fd : ℤ}
    (h : fopen s filename mode stale = some (fd, s')) (hpos : 0 < fd) :
    ∃ path k v d k', parsePath s.kmem filename = some (some path, k) ∧ s.volume = some v ∧
      fat16Open k v path.root (getFileModeFromString mode) = some (d, k') ∧
      newFileDescriptor { s with kmem := k' } d = some (some fd, s') := by
  obtain ⟨path, k, v, d, k', id, hparse, -, hv, hopen, hnew, rfl⟩ := fopen_nonneg h hpos.le
  refine ⟨path, k, v, d, k', hparse, hv, hopen, ?_⟩
  cases id with
  | none => exact absurd hpos (lt_irrefl 0)
  | some id => exact hnew

/-- Opening a file in the file system, whether or not there is one. -/
theorem fat16Open_keeps {k k' : KMem} {v : FatDisk} {path : List PathNode} {mode : FileMode}
    {d : Option Fat16Descriptor} (h : k.Coherent) (hopen : fat16Open k v path mode = some (d, k')) : k.Keeps k' := by
  simp only [fat16Open] at hopen
  split_ifs at hopen with hmode hnull
  · cases hopen
    exact .refl h
  · cases hopen
    exact (KMem.Keeps.refl h).kzalloc _
  · obtain ⟨⟨item, t⟩, hget, heq⟩ := Option.bind_eq_some_iff.mp hopen
    have hfirst := (KMem.Fresh.nil (.refl h)).kzalloc sizeofFat16Descriptor (by decide) (by decide) hnull
    have hfound := hfirst.trans (findItem_found hfirst.keeps.coherent hget).keeps
    cases item with
    | none =>
      cases heq
      exact hfound.keeps.kfree (hfound.held _ (by simp)).boundary (hfound.fresh _ (by simp))
    | some item =>
      simp only at heq
      split_ifs at heq
      cases heq
      exact hfound.keeps

theorem newFileDescriptor_some {s s' : FileState} {d : Option Fat16Descriptor} {fd : ℤ}
    (h : newFileDescriptor s d = some (some fd, s')) :
    ∃ i < zhiosMaxFileDescriptors, fd = (i : ℤ) + 1 ∧ (kzalloc s.kmem sizeofFileDescriptor).1 ≠ 0 ∧
      s' = { s with
        kmem := (kzalloc s.kmem sizeofFileDescriptor).2
        fileDescriptors := Function.update s.fileDescriptors i
          (some ⟨(kzalloc s.kmem sizeofFileDescriptor).1, i + 1, d⟩) } := by
  unfold newFileDescriptor at h
  cases hfree : freeSlot s with
  | none => simp [hfree] at h
  | some i =>
    obtain ⟨-, hlt, -, -⟩ := (findSlot_eq_some_iff _ _ _ _).mp hfree
    simp only [hfree] at h
    split_ifs at h with hnull
    obtain ⟨hid, hs⟩ := Prod.mk.inj (Option.some.inj h)
    exact ⟨i, by omega, (Option.some.inj hid).symm, hnull, hs.symm⟩

/-- Opening a file releases nothing. -/
theorem fopen_keeps {s s' : FileState} {filename mode : List UInt8} {stale : ℕ} {fd : ℤ} (hheap : s.kmem.Coherent)
    (h : fopen s filename mode stale = some (fd, s')) (hpos : 0 < fd) : s.kmem.Keeps s'.kmem := by
  obtain ⟨path, k, v, d, k', hparse, -, hopen, hnew⟩ := fopen_positive h hpos
  obtain ⟨i, -, -, -, rfl⟩ := newFileDescriptor_some hnew
  obtain ⟨hpath, -⟩ := parsePath_fresh hheap hparse
  have hopened := fat16Open_keeps hpath.keeps.coherent hopen
  exact (hpath.keeps.trans hopened).kzalloc sizeofFileDescriptor

/-- A load of `file` that succeeded: the state once the file was open, its size on disk
and the bytes that were read. -/
structure ElfLoaded (s : FileState) (filename : List UInt8) (stale : ℕ) (opened : FileState) (size : ℕ)
    (bytes : List UInt8) (file : ElfFile) (s' : FileState) : Prop where
  load : ∃ res, elfLoad s filename stale = some (res, some file, s')
  steps : ∃ fd r stat desc d v n d',
    fopen { s with kmem := (kzalloc s.kmem sizeofElfFile).2 } filename [0x72] stale = some (fd, opened) ∧
      fstat opened fd = some (r, some stat) ∧ stat.size = size ∧ openFile opened fd = some (desc, d) ∧
      opened.volume = some v ∧ fat16Read v d (int32 size) = some (n, bytes, d')
  buffer : file.elfMemory ≠ 0
  fits : file.elfMemory + size ≤ 2 ^ 32

theorem elfProcessLoaded_elfMemory (m : Mem) (file : ElfFile) :
    (elfProcessLoaded m file).2.elfMemory = file.elfMemory ∧ (elfProcessLoaded m file).2.address = file.address := by
  have hstep : ∀ (file : ElfFile) (pheader : ElfProgramHeader),
      (elfProcessPheader file pheader).elfMemory = file.elfMemory ∧
        (elfProcessPheader file pheader).address = file.address := by
    intro file pheader
    unfold elfProcessPheader elfProcessPtLoad
    simp only []
    split_ifs <;> exact ⟨rfl, rfl⟩
  have hloop : ∀ (l : List ℕ) (file : ElfFile),
      (l.foldl (fun file i => elfProcessPheader file (elfGetPheader m file.elfMemory i)) file).elfMemory =
          file.elfMemory ∧
        (l.foldl (fun file i => elfProcessPheader file (elfGetPheader m file.elfMemory i)) file).address =
          file.address := by
    intro l
    induction l with
    | nil => exact fun file => ⟨rfl, rfl⟩
    | cons i l ih =>
      intro file
      rw [List.foldl_cons, (ih _).1, (ih _).2]
      exact hstep file _
  unfold elfProcessLoaded elfProcessPheaders
  simp only []
  split_ifs
  · exact ⟨rfl, rfl⟩
  · exact hloop _ file

theorem fclose_mem {s s' : FileState} {fd : ℤ} (h : fclose s fd = some s') : s'.kmem.mem = s.kmem.mem := by
  unfold fclose at h
  obtain ⟨⟨desc, d⟩, -, h⟩ := Option.bind_eq_some_iff.mp h
  obtain rfl := Option.some.inj h
  simp only [freeFileDescriptor, kfree_mem, fat16Close]
  split <;> rfl

theorem elfLoadFailed_none {s s' : FileState} {elfFile elfMemory : ℕ} {fd res r : ℤ} {file : Option ElfFile}
    (h : elfLoadFailed s elfFile elfMemory fd res = some (r, file, s')) : file = none := by
  unfold elfLoadFailed at h
  by_cases hfd : fd = 0
  · rw [if_pos hfd] at h
    obtain ⟨-, hrest⟩ := Prod.mk.inj (Option.some.inj h)
    exact (congrArg Prod.fst hrest).symm
  · rw [if_neg hfd] at h
    obtain ⟨t, -, heq⟩ := Option.map_eq_some_iff.mp h
    exact (congrArg (·.2.1) heq).symm

/-- The calls of a load that succeeded. -/
theorem elfLoad_steps {s s' : FileState} {filename : List UInt8} {stale : ℕ} {res : ℤ} {file : ElfFile}
    (h : elfLoad s filename stale = some (res, some file, s')) :
    ∃ fd opened r stat n t,
      fopen { s with kmem := (kzalloc s.kmem sizeofElfFile).2 } filename [0x72] stale = some (fd, opened) ∧
      0 < fd ∧ fstat opened fd = some (r, some stat) ∧ (kzalloc s.kmem sizeofElfFile).1 ≠ 0 ∧
      fread { opened with kmem := (kzalloc opened.kmem stat.size).2 } fd (kzalloc opened.kmem stat.size).1
        (int32 stat.size) = some (n, t) ∧ 0 ≤ n ∧
      elfProcessLoaded t.kmem.mem ⟨(kzalloc s.kmem sizeofElfFile).1, (kzalloc opened.kmem stat.size).1, 0, 0, 0, 0⟩ =
        (res, file) ∧ 0 ≤ res ∧ fclose t fd = some s' := by
  unfold elfLoad at h
  obtain ⟨⟨fd, opened⟩, hopen, h⟩ := Option.bind_eq_some_iff.mp h
  simp only [] at h
  by_cases hfd : fd ≤ 0
  · rw [if_pos hfd] at h
    exact absurd (elfLoadFailed_none h) (by simp)
  rw [if_neg hfd] at h
  obtain ⟨⟨r, stat⟩, hstat, h⟩ := Option.bind_eq_some_iff.mp h
  cases stat with
  | none => exact absurd (elfLoadFailed_none h) (by simp)
  | some stat =>
    simp only [] at h
    by_cases hnull : (kzalloc s.kmem sizeofElfFile).1 = 0
    · rw [if_pos hnull] at h
      cases h
    rw [if_neg hnull] at h
    obtain ⟨⟨n, t⟩, hread, h⟩ := Option.bind_eq_some_iff.mp h
    simp only [] at h
    by_cases hn : n < 0
    · rw [if_pos hn] at h
      exact absurd (elfLoadFailed_none h) (by simp)
    rw [if_neg hn] at h
    split_ifs at h with hres
    · exact absurd (elfLoadFailed_none h) (by simp)
    · obtain ⟨t', hclose, heq⟩ := Option.map_eq_some_iff.mp h
      obtain ⟨hres', hrest⟩ := Prod.mk.inj heq
      obtain ⟨hfile, rfl⟩ := Prod.mk.inj hrest
      refine ⟨fd, opened, r, stat, n, t, hopen, by omega, hstat, hnull, hread, by omega, ?_, by omega, hclose⟩
      rw [← hres', ← Option.some.inj hfile]

theorem fread_eq {s s' : FileState} {fd size n : ℤ} {buffer : ℕ} {desc : FileDescriptor} {d : Fat16Descriptor}
    {v : FatDisk} {r : ℤ} {bytes : List UInt8} {d' : Fat16Descriptor}
    (h : fread s fd buffer size = some (n, s')) (hn : 0 ≤ n) (hfile : openFile s fd = some (desc, d))
    (hv : s.volume = some v) (hread : fat16Read v d size = some (r, bytes, d')) :
    s'.kmem = { s.kmem with mem := storeBytes s.kmem.mem buffer bytes } := by
  unfold fread at h
  split_ifs at h with hargs
  · obtain ⟨hneg, -⟩ := Prod.mk.inj (Option.some.inj h)
    unfold EINARG at hneg
    omega
  · simp only [hfile, hv, hread, Option.bind_eq_bind, Option.bind_some] at h
    obtain ⟨-, hs⟩ := Prod.mk.inj (Option.some.inj h)
    rw [← hs]
    rfl

namespace ElfLoaded
variable {s : FileState} {filename : List UInt8} {stale : ℕ} {opened : FileState} {size : ℕ} {bytes : List UInt8}
  {file : ElfFile} {s' : FileState}

theorem result (h : ElfLoaded s filename stale opened size bytes file s') :
    file.elfMemory = (kzalloc opened.kmem size).1 ∧
      s'.kmem.mem = storeBytes (kzalloc opened.kmem size).2.mem file.elfMemory bytes := by
  obtain ⟨res, hload⟩ := h.load
  obtain ⟨fd, r, stat, desc, d, v, n, d', hopen, hstat, rfl, hfile, hv, hread⟩ := h.steps
  obtain ⟨fd', opened', r', stat', n', t, hopen', -, hstat', -, hfread, hn, hprocess, -, hclose⟩ := elfLoad_steps hload
  rw [hopen] at hopen'
  cases hopen'
  rw [hstat] at hstat'
  cases hstat'
  have hmem := congrArg (·.2.elfMemory) hprocess
  simp only [(elfProcessLoaded_elfMemory _ _).1] at hmem
  refine ⟨hmem.symm, ?_⟩
  rw [fclose_mem hclose, fread_eq hfread hn hfile hv hread, hmem]

theorem aligned (h : ElfLoaded s filename stale opened size bytes file s') (hheap : s.kmem.Coherent)
    (hstart : s.kmem.heap.startAddress % 4096 = 0) : file.elfMemory % 4096 = 0 := by
  obtain ⟨res, hload⟩ := h.load
  obtain ⟨fd, r, stat, desc, d, v, n, d', hopen, hstat, rfl, hfile, hv, hread⟩ := h.steps
  obtain ⟨fd', opened', r', stat', n', t, hopen', hpos, -⟩ := elfLoad_steps hload
  rw [hopen] at hopen'
  cases hopen'
  have hkeeps := fopen_keeps (hheap.kzalloc sizeofElfFile) hopen hpos
  have hregion := (kzalloc_region s.kmem sizeofElfFile).trans hkeeps.region
  rw [h.result.1]
  apply hkeeps.coherent.kzalloc_aligned
  rw [hregion.start_eq]
  exact hstart

end ElfLoaded

section Opened
variable {s : FileState} {i : ℕ} {d : Fat16Descriptor} {k' : KMem}

theorem FileState.opened_live (hi : i < zhiosMaxFileDescriptors) (k : KMem) :
    FileState.Live { (s.opened i d k') with kmem := k } ((i : ℤ) + 1)
      ⟨(kzalloc k' sizeofFileDescriptor).1, i + 1, some d⟩ := by
  refine ⟨by omega, by omega, ?_⟩
  rw [show ((i : ℤ) + 1 - 1).toNat = i by omega]
  exact (s.opened_slot i i d k').trans (if_pos rfl)

/-- The size of a file that was just opened can be asked for, if its name fits. -/
theorem FileState.opened_fstat (hi : i < zhiosMaxFileDescriptors) {a c : ℕ} {entry : List UInt8}
    (hitem : d.item = .file a c entry) (hc : c ≠ 0)
    (hname : ∀ after, filenameFits (bufferOf entry after) 0 = true) :
    ∃ stat, fstat (s.opened i d k') ((i : ℤ) + 1) = some (0, some stat) ∧ stat.size = fileSize entry := by
  have hentry : d.entry = some entry := by simp [Fat16Descriptor.entry, hitem, hc]
  refine ⟨{
    filename := getFat16Filename (bufferOf entry fun j => (s.opened i d k').kmem.mem (c + j)) 0
    readOnly := entry.getD 11 0 &&& attrReadOnly ≠ 0
    size := fileSize entry }, ?_, rfl⟩
  rw [fstat, getFileDescriptor_live (FileState.opened_live hi _)]
  simp [fat16Stat, hitem, hentry, hname]

end Opened

/-- A load of a file that can be opened, read and accepted. -/
theorem OpensFile.elfLoaded {s : FileState} {filename : List UInt8} (stale : ℕ) {d : Fat16Descriptor} {k' : KMem}
    {i : ℕ} {v : FatDisk} {a c size : ℕ} {entry : List UInt8} {n : ℤ} {bytes : List UInt8} {d' : Fat16Descriptor}
    (h : OpensFile { s with kmem := (kzalloc s.kmem sizeofElfFile).2 } filename [0x72] d k')
    (hne : (kzalloc s.kmem sizeofElfFile).1 ≠ 0) (hslot : freeSlot s = some i) (hv : s.volume = some v)
    (hitem : d.item = .file a c entry) (hc : c ≠ 0)
    (hname : ∀ after, filenameFits (bufferOf entry after) 0 = true) (hsize : fileSize entry = size)
    (hint : int32 size ≠ 0) (hread : fat16Read v d (int32 size) = some (n, bytes, d'))
    (hd' : d'.item = d.item) (hn : 0 ≤ n)
    {k : KMem} (hk : (kzalloc k' sizeofFileDescriptor).2 = k) (hbuffer : (kzalloc k size).1 ≠ 0)
    (hfits : (kzalloc k size).1 + size ≤ 2 ^ 32)
    (haccepted : elfValidateLoad (elfGetHeader (storeBytes (kzalloc k size).2.mem (kzalloc k size).1 bytes)
      (kzalloc k size).1) = 0) :
    ∃ opened file s', ElfLoaded s filename stale opened size bytes file s' ∧ file.elfMemory = (kzalloc k size).1 ∧
      s'.kmem = [c, a, (kzalloc k' sizeofFileDescriptor).1].foldl kfree
        { (kzalloc k size).2 with mem := storeBytes (kzalloc k size).2.mem (kzalloc k size).1 bytes } := by
  set s₁ : FileState := { s with kmem := (kzalloc s.kmem sizeofElfFile).2 } with hs₁
  set opened := s₁.opened i d k' with hopened
  set desc : FileDescriptor := ⟨(kzalloc k' sizeofFileDescriptor).1, i + 1, some d⟩ with hdesc
  obtain ⟨-, hi, -, -⟩ := (findSlot_eq_some_iff _ _ _ _).mp hslot
  have hopen : fopen s₁ filename [0x72] stale = some ((i : ℤ) + 1, opened) := h.fopen_slot hslot stale
  have hlive : ∀ kmem, FileState.Live { opened with kmem := kmem } ((i : ℤ) + 1) desc :=
    FileState.opened_live (by omega)
  have hfile := fun kmem => openFile_live (hlive kmem) rfl
  obtain ⟨stat, hstat, hstatSize⟩ : ∃ stat, fstat (s₁.opened i d k') ((i : ℤ) + 1) = some (0, some stat) ∧
      stat.size = fileSize entry := FileState.opened_fstat (by omega) hitem hc hname
  rw [hsize] at hstatSize
  have hvolume : opened.volume = some v := hv
  have hkmem : opened.kmem = k := hk
  set b := kzalloc k size with hb
  set m := storeBytes b.2.mem b.1 bytes with hm
  obtain ⟨t, hfread, htmem, htclose⟩ : ∃ t, fread { opened with kmem := b.2 } ((i : ℤ) + 1) b.1 (int32 size) =
      some (n, t) ∧ t.kmem = { b.2 with mem := m } ∧
      ∃ s', fclose t ((i : ℤ) + 1) = some s' ∧ s'.kmem = [c, a, desc.address].foldl kfree t.kmem := by
    refine ⟨{ (FileState.setPrivateData { opened with kmem := b.2 } ((i : ℤ) + 1) desc d') with
      kmem := { b.2 with mem := m } }, ?_, rfl, ?_⟩
    · rw [fread, if_neg (by omega), hfile b.2]
      simp only [hvolume, hread, Option.bind_eq_bind, Option.bind_some]
      rfl
    · have hslot' : FileState.Live { (FileState.setPrivateData { opened with kmem := b.2 } ((i : ℤ) + 1) desc d') with
          kmem := { b.2 with mem := m } } ((i : ℤ) + 1) { desc with privateData := some d' } :=
        ⟨by omega, by omega, Function.update_self ..⟩
      exact ⟨_, fclose_live hslot' rfl rfl (hd'.trans hitem), rfl⟩
  obtain ⟨s', hclose, hs'⟩ := htclose
  have hprocess : (elfProcessLoaded t.kmem.mem ⟨(kzalloc s.kmem sizeofElfFile).1, b.1, 0, 0, 0, 0⟩).1 = 0 := by
    rw [htmem, elfProcessLoaded]
    simp only [haccepted, lt_irrefl, if_false, elfProcessPheaders]
  set r := elfProcessLoaded t.kmem.mem ⟨(kzalloc s.kmem sizeofElfFile).1, b.1, 0, 0, 0, 0⟩ with hr
  have hmemory : r.2.elfMemory = b.1 := (elfProcessLoaded_elfMemory _ _).1
  refine ⟨opened, r.2, s', ⟨⟨r.1, ?_⟩, ⟨_, _, stat, desc, d, v, n, d', hopen, hstat, hstatSize, hfile opened.kmem,
    hvolume, hread⟩, hmemory ▸ hbuffer, hmemory ▸ hfits⟩, hmemory, ?_⟩
  · rw [elfLoad]
    simp only [← hs₁, hopen, Option.bind_eq_bind, Option.bind_some]
    rw [if_neg (by omega), hstat, Option.bind_some]
    simp only [hstatSize, hkmem, ← hb]
    rw [if_neg hne, hfread, Option.bind_some]
    simp only [← hr]
    rw [if_neg (by omega), if_neg (by omega), hclose, Option.map_some]
  · rw [hs', htmem]

/-- A segment of a whole page of which the file holds 16 bytes. -/
def bssSegment : ElfProgramHeader :=
  ⟨1, 0, 0x400000, 16, 4096, 6, smallSegment.pOffset_lt, smallSegment.pVaddr_lt, by decide, by decide⟩

def bssElf : List UInt8 := elfBytes 0x400034 [[1, 0, 0x400000, 0x400000, 16, 4096, 6, 0x1000]]

theorem bssElf_image : ElfImage bssElf [bssSegment] := by
  constructor <;> decide

def bssEntry : Mem := fun k => if k = 28 then 84 else oneFileEntry k

def bssDisk : FatDisk :=
  ⟨⟨fun k => if 49664 ≤ k then bssElf.getD (k - 49664) 0 else if 33280 ≤ k then bssEntry (k - 33280)
      else oneFileDisk.disk.image k, fun _ _ => 0⟩, ⟨⟨1, 1, 2, 512, 32⟩, ⟨bssEntry, 1, 65, 97⟩⟩⟩

def bssState (k : KMem) : FileState := ⟨k, some bssDisk, fun _ => none⟩

theorem bssDisk_found : findItemInDirectory bssDisk.fsPrivate.rootDirectory [0x41] = some (some 0) := by
  decide +kernel

theorem bssDisk_entry : fileSize (directoryEntry bssDisk.fsPrivate.rootDirectory 0) = 84 ∧
    getFirstCluster (directoryEntry bssDisk.fsPrivate.rootDirectory 0) = 2 := by
  refine ⟨by decide, ?_⟩
  have hcluster := int32_of_bounds (x := 2) (by decide) (by decide)
  rw [getFirstCluster]
  exact hcluster

/-- The volume of `bssDisk` with another file of that size. -/
def fileDisk (bytes : List UInt8) : FatDisk :=
  ⟨⟨fun k => if 49664 ≤ k then bytes.getD (k - 49664) 0 else if 33280 ≤ k then bssEntry (k - 33280)
      else oneFileDisk.disk.image k, fun _ _ => 0⟩, ⟨⟨1, 1, 2, 512, 32⟩, ⟨bssEntry, 1, 65, 97⟩⟩⟩

theorem fileDisk_slice {bytes : List UInt8} (hlength : bytes.length = 84) :
    slice (fileDisk bytes).disk.image 49664 84 = bytes := by
  apply List.ext_getElem
  · rw [slice, List.length_map, List.length_range, hlength]
  · intro i hi hi'
    have hin : 49664 ≤ 49664 + i := Nat.le_add_right ..
    simp only [slice, List.getElem_map, List.getElem_range, fileDisk, if_pos hin, Nat.add_sub_cancel_left]
    exact List.getD_eq_getElem _ _ hi'

/-- The first cluster holds the start of the file. -/
theorem getClusterForOffset_zero (v : FatDisk) (cluster : ℤ) : getClusterForOffset v cluster 0 = cluster := by
  rw [getClusterForOffset, Int.zero_tdiv, Int.toNat_zero, clusterWalk]

theorem fileDisk_read {bytes : List UInt8} (hlength : bytes.length = 84) {d : Fat16Descriptor} {a c : ℕ}
    (hitem : d.item = .file a c (directoryEntry bssDisk.fsPrivate.rootDirectory 0)) (hc : c ≠ 0) (hpos : d.pos = 0) :
    ∃ d', fat16Read (fileDisk bytes) d (int32 (84 : ℕ)) = some (84, bytes, d') ∧ d'.item = d.item := by
  have hentry : d.entry = some (directoryEntry bssDisk.fsPrivate.rootDirectory 0) := by
    simp [Fat16Descriptor.entry, hitem, hc]
  have hsize : int32 ((84 : ℕ) : ℤ) = 84 := int32_of_bounds (by decide) (by decide)
  have hzero : int32 ((0 : ℕ) : ℤ) = 0 := int32_of_bounds (by decide) (by decide)
  have hsector : clusterToSector (fileDisk bytes).fsPrivate 2 = 97 := int32_of_bounds (x := 97) (by decide) (by decide)
  have hstart : int32 (97 * (zhiosDiskSectorSize : ℤ) + 0) = ((49664 : ℕ) : ℤ) :=
    int32_of_bounds (x := 49664) (by decide) (by decide)
  have hread : (diskStreamRead (fileDisk bytes).disk ((49664 : ℕ) : ℤ) 84).1 = bytes := by
    have haligned := diskStreamRead_aligned (fileDisk bytes).disk (show 49664 % 512 = 0 by decide)
      (show 49664 + 84 < 2 ^ 31 by decide)
    exact (congrArg Prod.fst haligned).trans (fileDisk_slice hlength)
  have hload : loadEntriesFromCluster (fileDisk bytes) 2 0 84 = (84, bytes) := by
    have hwalk : getClusterForOffset (fileDisk bytes) 2 0 = 2 := getClusterForOffset_zero _ _
    have hwhole : ¬ ((fileDisk bytes).clusterBytes : ℤ) < 84 := by
      have hroot : (fileDisk bytes).fsPrivate = bssDisk.fsPrivate := rfl
      rw [FatDisk.clusterBytes, hroot]
      decide
    change readEntriesLoop (fileDisk bytes) (84 + 1) 2 0 84 = _
    rw [readEntriesLoop]
    simp only [hwalk, hsector, Int.zero_tmod, hstart, if_neg hwhole, hread]
    exact if_neg (by decide)
  rw [fat16Read, hentry, Option.map_some, bssDisk_entry.2, hpos, hsize, hzero, hload]
  exact ⟨_, rfl, rfl⟩

/-- The blocks of an open file in the root directory, of its slot and of a buffer. -/
theorem rootFile_blocks {k : KMem} {live : List Extent} (h : k.WellFormed live) (v : FatDisk) (size : ℕ)
    (hsize : 1 ≤ size) (hle : size ≤ 4096) (hroom : Layout.used live + 5 ≤ k.heap.total) :
    ∃ d a c k₁ slot k₂ buffer k₃ live',
      rootFileDescriptor v k = (⟨d, .file a c (directoryEntry v.fsPrivate.rootDirectory 0), 0⟩, k₁) ∧
      kzalloc k₁ sizeofFileDescriptor = (slot, k₂) ∧ kzalloc k₂ size = (buffer, k₃) ∧ c ≠ 0 ∧ buffer ≠ 0 ∧
      k₃.WellFormed live' ∧ Layout.used live' = Layout.used live + 5 ∧ k.SameRegion k₃ ∧
      [c, a, slot, buffer].Nodup ∧ ∀ p ∈ [c, a, slot, buffer], k₃.Owns live' p := by
  obtain ⟨d, k₁, live₁, hd, -, h₁⟩ := h.serves sizeofFat16Descriptor (by decide) (by decide) (by omega)
  have hused₁ := h₁.used_eq
  have htotal₁ := h₁.region.total_eq
  obtain ⟨a, k₂, live₂, ha, -, h₂⟩ := h₁.wellFormed.serves sizeofFat16Item (by decide) (by decide) (by omega)
  have hused₂ := h₂.used_eq
  have htotal₂ := h₂.region.total_eq
  obtain ⟨c, k₃, live₃, hc, hcne, h₃⟩ := h₂.wellFormed.serves fat16EntrySize (by decide) (by decide) (by omega)
  have hused₃ := h₃.used_eq
  have htotal₃ := h₃.region.total_eq
  obtain ⟨slot, k₄, live₄, hslot, -, h₄⟩ := h₃.wellFormed.serves sizeofFileDescriptor (by decide) (by decide)
    (by omega)
  have hused₄ := h₄.used_eq
  have htotal₄ := h₄.region.total_eq
  obtain ⟨buffer, k₅, live₅, hbuffer, hbne, h₅⟩ := h₄.wellFormed.serves size hsize hle (by omega)
  have hused₅ := h₅.used_eq
  refine ⟨d, a, c, k₃, slot, k₄, buffer, k₅, live₅, ?_, hslot, hbuffer, hcne, hbne, h₅.wellFormed, by omega,
    h₁.region.trans (h₂.region.trans (h₃.region.trans (h₄.region.trans h₅.region))), ?_, ?_⟩
  · simp only [rootFileDescriptor, hd, ha, hc]
  · have hca : c ≠ a := fun heq => h₃.fresh (heq ▸ h₂.owned)
    have hslot : ∀ p, k₃.Owns live₃ p → p ≠ slot := fun p hp heq => h₄.fresh (heq ▸ hp)
    have hbuffer : ∀ p, k₄.Owns live₄ p → p ≠ buffer := fun p hp heq => h₅.fresh (heq ▸ hp)
    have hcs := hslot c h₃.owned
    have has := hslot a (h₃.mono _ h₂.owned)
    have hcb := hbuffer c (h₄.mono _ h₃.owned)
    have hab := hbuffer a (h₄.mono _ (h₃.mono _ h₂.owned))
    have hsb := hbuffer slot h₄.owned
    simp [hca, hcs, has, hcb, hab, hsb]
  · intro p hp
    simp only [List.mem_cons, List.not_mem_nil, or_false] at hp
    rcases hp with rfl | rfl | rfl | rfl
    · exact h₅.mono _ (h₄.mono _ h₃.owned)
    · exact h₅.mono _ (h₄.mono _ (h₃.mono _ h₂.owned))
    · exact h₅.mono _ h₄.owned
    · exact h₅.owned

/-- Any file of that size that the loader accepts is loaded, and its buffer is one block of
the heap. -/
theorem fileDisk_loaded {bytes : List UInt8} (hlength : bytes.length = 84)
    (haccepted : ∀ m a, Holds m a bytes → elfValidateLoad (elfGetHeader m a) = 0) {k₀ : KMem} {live₀ : List Extent}
    (h₀ : k₀.WellFormed live₀) (hroom : Layout.used live₀ + 1036 ≤ k₀.heap.total) :
    ∃ opened file s' live, ElfLoaded ⟨k₀, some (fileDisk bytes), fun _ => none⟩ oneFilePath 0 opened 84 bytes file s' ∧
      s'.kmem.WellFormed live ∧ s'.kmem.Owns live file.elfMemory ∧ Layout.used live ≤ Layout.used live₀ + 10 ∧
      s'.kmem.heap.total = k₀.heap.total ∧ Holds s'.kmem.mem file.elfMemory bytes := by
  set s₀ : FileState := ⟨k₀, some (fileDisk bytes), fun _ => none⟩ with hs₀
  have hroot : (fileDisk bytes).fsPrivate = bssDisk.fsPrivate := rfl
  have hfile : ¬ (directoryEntry bssDisk.fsPrivate.rootDirectory 0).getD 11 0 &&& attrDirectory ≠ 0 := by decide
  have hclosed : (directoryEntry bssDisk.fsPrivate.rootDirectory 0).getD 12 0 = 0 := by decide
  obtain ⟨e, ke, live₁, he, hene, h₁⟩ := h₀.serves sizeofElfFile (by decide) (by decide) (by omega)
  have hused₁ := h₁.used_eq
  have htotal₁ := h₁.region.total_eq
  obtain ⟨k, live₂, h₂, hopens⟩ := rootFile_opens (s := { s₀ with kmem := ke }) (v := fileDisk bytes) h₁.wellFormed rfl
    bssDisk_found hfile hclosed (by simp only; omega)
  have hused₂ := h₂.used_eq
  have htotal₂ := h₂.region.total_eq.trans htotal₁
  obtain ⟨d, a, c, k₁, slot, k₂, buffer, k₃, live₃, hd, hslot, hbuffer, hc, hbne, hwf, hused₃, hregion, hnodup,
    howned⟩ := rootFile_blocks h₂.wellFormed (fileDisk bytes) 84 (by decide) (by decide) (by omega)
  rw [hd, hroot] at hopens
  have hlt := (howned buffer (by simp)).lt hwf
  have hsize : int32 ((84 : ℕ) : ℤ) ≠ 0 := by
    rw [int32_of_bounds (by decide) (by decide)]
    decide
  obtain ⟨d', hread, hd'⟩ := fileDisk_read hlength
    (d := ⟨d, .file a c (directoryEntry bssDisk.fsPrivate.rootDirectory 0), 0⟩) rfl hc rfl
  obtain ⟨opened, file, s', hloaded, hmemory, hs'⟩ := OpensFile.elfLoaded (s := s₀) 0 (i := 0) (k := k₂)
    (by simpa only [hs₀, he] using hopens) (by simpa only [hs₀, he] using hene) rfl rfl rfl hc
    (fun after => (rootEntry_closed hclosed after).filenameFits) bssDisk_entry.1 hsize hread hd' (by decide)
    (by rw [hslot]) (by rw [hbuffer]; exact hbne) (by rw [hbuffer]; omega) (haccepted _ _ (holds_storeBytes _ _ _))
  simp only [hbuffer, hslot] at hmemory hs'
  -- closing the file gives back three of the blocks
  obtain ⟨hthree, hlast⟩ := List.nodup_append.mp (show ([c, a, slot] ++ [buffer]).Nodup from hnodup)
  obtain ⟨live, hwf', hused, hregion', howned'⟩ := (hwf.withMem (storeBytes k₃.mem buffer bytes)).kfree_all
    [c, a, slot] hthree fun p hp => howned p (List.mem_append_left [buffer] hp)
  have htotal := hregion'.total_eq.trans hregion.total_eq
  refine ⟨opened, file, s', live, hloaded, hs' ▸ hwf', ?_, ?_, ?_, ?_⟩
  · rw [hs', hmemory]
    exact howned' buffer (howned buffer (by simp)) fun hin => hlast.2 buffer hin buffer List.mem_cons_self rfl
  · rw [List.length_cons] at hused
    omega
  · rw [hs', htotal]
    omega
  · rw [hs', hmemory]
    exact holds_storeBytes _ _ _

/-- That load, followed by a new chunk for the process: the chunk is fresh, and the buffer is
as the load left it. -/
theorem fileDisk_chunk {bytes : List UInt8} (hlength : bytes.length = 84)
    (haccepted : ∀ m a, Holds m a bytes → elfValidateLoad (elfGetHeader m a) = 0) {k₀ : KMem} {live₀ : List Extent}
    (h₀ : k₀.WellFormed live₀) (hroom : Layout.used live₀ + 1036 ≤ k₀.heap.total) :
    ∃ opened file s' m page c,
      ElfLoaded ⟨k₀, some (fileDisk bytes), fun _ => none⟩ oneFilePath 0 opened 84 bytes file s' ∧
      FreshChunk m page c ∧ (∀ o < 4096 * blocksFor 84, m (file.elfMemory + o) = s'.kmem.mem (file.elfMemory + o)) ∧
      Holds m file.elfMemory bytes ∧ file.elfMemory + 4096 ≤ 2 ^ 32 ∧
      ∀ a, c.IsBlock page a → a + 4096 ≤ file.elfMemory ∨ file.elfMemory + 4096 ≤ a := by
  obtain ⟨opened, file, s', live, hloaded, hwf, howned, hused, htotal, hholds⟩ :=
    fileDisk_loaded hlength haccepted h₀ hroom
  obtain ⟨page, k', hnew, -⟩ := pagingNewChunk_succeeds hwf taskPageFlags (by omega)
  obtain ⟨live', c, hchunk⟩ := pagingNewChunk_spec hwf (by decide) hnew
  have hfresh := hchunk.freshChunk
  have haligned := howned.aligned hwf
  have hapart : ∀ a, c.IsBlock page a → a + 4096 ≤ file.elfMemory ∨ file.elfMemory + 4096 ≤ a := by
    intro a ha
    have hne : a ≠ file.elfMemory := fun heq => hchunk.fresh a ha (heq ▸ howned)
    have hblock := (hfresh.block a ha).1
    omega
  have hkept : ∀ o < 4096 * blocksFor 84, k'.mem (file.elfMemory + o) = s'.kmem.mem (file.elfMemory + o) := by
    intro o ho
    have hword := hchunk.frame file.elfMemory howned (o / 4) (by unfold blocksFor at ho; omega)
    have hnew := load32_byte k'.mem (file.elfMemory + 4 * (o / 4)) (b := o % 4) (by omega)
    have hold := load32_byte s'.kmem.mem (file.elfMemory + 4 * (o / 4)) (b := o % 4) (by omega)
    rw [hword, ← hold, Nat.add_assoc, Nat.div_add_mod] at hnew
    exact hnew
  have hblocks : 4096 * blocksFor 84 = 4096 := by decide
  refine ⟨opened, file, s', k'.mem, page, c, hloaded, hfresh, hkept, fun o ho => ?_, howned.lt hwf, hapart⟩
  rw [hkept o (by omega), hholds o ho]

theorem bssElf_loaded {k₀ : KMem} {live₀ : List Extent} (h₀ : k₀.WellFormed live₀)
    (hroom : Layout.used live₀ + 1036 ≤ k₀.heap.total) :
    ∃ opened file s' live, ElfLoaded (bssState k₀) oneFilePath 0 opened 84 bssElf file s' ∧
      s'.kmem.WellFormed live ∧ s'.kmem.Owns live file.elfMemory ∧ Layout.used live ≤ Layout.used live₀ + 10 ∧
      s'.kmem.heap.total = k₀.heap.total ∧ Holds s'.kmem.mem file.elfMemory bssElf :=
  fileDisk_loaded (by decide) (fun _ _ => bssElf_image.accepted_at) h₀ hroom

/-- Of an image the chunk then sees the headers. -/
theorem ElfImage.chunk {bytes : List UInt8} {headers : List ElfProgramHeader} (himage : ElfImage bytes headers)
    (hlength : bytes.length = 84) {k₀ : KMem} {live₀ : List Extent} (h₀ : k₀.WellFormed live₀)
    (hroom : Layout.used live₀ + 1036 ≤ k₀.heap.total) :
    ∃ opened file s' m page c,
      ElfLoaded ⟨k₀, some (fileDisk bytes), fun _ => none⟩ oneFilePath 0 opened 84 bytes file s' ∧
      FreshChunk m page c ∧ (∀ o < 4096 * blocksFor 84, m (file.elfMemory + o) = s'.kmem.mem (file.elfMemory + o)) ∧
      elfPheaders m page file.elfMemory = headers ∧
      ∀ a, c.IsBlock page a → a + 4096 ≤ file.elfMemory ∨ file.elfMemory + 4096 ≤ a := by
  obtain ⟨opened, file, s', m, page, c, hloaded, hfresh, hkept, hholds, hlt, hapart⟩ :=
    fileDisk_chunk hlength (fun _ _ => himage.accepted_at) h₀ hroom
  refine ⟨opened, file, s', m, page, c, hloaded, hfresh, hkept, ?_, hapart⟩
  refine himage.pheaders_at hholds (by omega) hfresh.separate hfresh.block hfresh.chunkAt fun o ho j hj => ?_
  have htable := hapart (c.table j) (.inr (.inr ⟨j, hj, rfl⟩))
  omega

theorem bssElf_chunk {k₀ : KMem} {live₀ : List Extent} (h₀ : k₀.WellFormed live₀)
    (hroom : Layout.used live₀ + 1036 ≤ k₀.heap.total) :
    ∃ opened file s' m page c, ElfLoaded (bssState k₀) oneFilePath 0 opened 84 bssElf file s' ∧
      FreshChunk m page c ∧ (∀ o < 4096 * blocksFor 84, m (file.elfMemory + o) = s'.kmem.mem (file.elfMemory + o)) ∧
      elfPheaders m page file.elfMemory = [bssSegment] ∧
      ∀ a, c.IsBlock page a → a + 4096 ≤ file.elfMemory ∨ file.elfMemory + 4096 ≤ a :=
  bssElf_image.chunk (by decide) h₀ hroom

theorem freshKernelHeap_room : Layout.used ([] : List Extent) + 1036 ≤ freshKernelHeap.total := by
  rw [freshKernelHeap_total]
  decide

end Zhios
