import Zhios.Fs.File
import Zhios.Fs.FatChain

/-! What a call of `fopen` owes its caller, and when it delivers. A null pointer from
the file system passes for a descriptor, a full table is reported as zero, and the
error paths in front of the file system read a pointer that was never set. -/
namespace Zhios
open Machine

def Resolves (s : FileState) (filename mode : List UInt8) : Prop :=
  ∃ path k v d k', parsePath s.kmem filename = some (some path, k) ∧ s.volume = some v ∧
    fat16Open k v path.root (getFileModeFromString mode) = some (some d, k')

structure ShouldOpen (s : FileState) (filename mode : List UInt8) : Prop where
  valid : pathIsValidFormat filename = true
  component : components (filename.drop 2) ≠ []
  readMode : mode.head? = some 0x72
  drive : pathGetDriveNumber filename = 0
  slot : ∃ i < zhiosMaxFileDescriptors, s.fileDescriptors i = none
  resolves : Resolves s filename mode

/-- A positive id for the calls that should open a file, and for all others a negative status and
an unchanged table. -/
def OpenContract (s : FileState) (filename mode : List UInt8) (stale : ℕ) : Prop :=
  ∃ res s', fopen s filename mode stale = some (res, s') ∧ (0 < res ↔ ShouldOpen s filename mode) ∧
    (¬ ShouldOpen s filename mode → res < 0 ∧ s'.fileDescriptors = s.fileDescriptors)

/-- The call fails before the file system is asked, on a way that looks at the
uninitialised pointer. -/
def FailsEarly (s : FileState) (filename mode : List UInt8) : Prop :=
  pathIsValidFormat filename = false ∨ components (filename.drop 2) = [] ∨
    getFileModeFromString mode ≠ .invalid ∧ (pathGetDriveNumber filename ≠ 0 ∨ s.volume = none)

/-- The call gets as far as the file system. -/
def AsksVolume (s : FileState) (filename mode : List UInt8) : Prop :=
  pathIsValidFormat filename = true ∧ components (filename.drop 2) ≠ [] ∧
    getFileModeFromString mode ≠ .invalid ∧ pathGetDriveNumber filename = 0 ∧ s.volume ≠ none

/-- There is an item, a free slot, and a block for the descriptor. -/
def DescriptorReady (s : FileState) (filename mode : List UInt8) : Prop :=
  (∃ i < zhiosMaxFileDescriptors, s.fileDescriptors i = none) ∧
    ∃ path k v d k', parsePath s.kmem filename = some (some path, k) ∧ s.volume = some v ∧
      fat16Open k v path.root (getFileModeFromString mode) = some (some d, k') ∧
      (kzalloc k' sizeofFileDescriptor).1 ≠ 0

/-- The path could be stored, the uninitialised pointer is null where it is looked
at, and whenever the file system is asked it has the file. -/
def OpenCondition (s : FileState) (filename mode : List UInt8) (stale : ℕ) : Prop :=
  parsePath s.kmem filename ≠ none ∧ (FailsEarly s filename mode → stale = 0) ∧
    (AsksVolume s filename mode → DescriptorReady s filename mode)

theorem strncmp_one (s : List UInt8) {c : UInt8} (hc : c ≠ 0) : strncmp s [c] 1 = 0 ↔ s.head? = some c := by
  cases s with
  | nil =>
    have hpos : c.toNat ≠ 0 := fun h => hc (UInt8.toNat_inj.mp h)
    simp [strncmp, compareUpTo, hc.symm, hpos]
  | cons a s =>
    rw [strncmp, compareUpTo_cons]
    simp only [id_eq, List.head?_cons, Option.some.injEq, compareUpTo, ite_self]
    split_ifs with h
    · exact iff_of_true rfl h
    · exact iff_of_false (fun h0 => h (UInt8.toNat_inj.mp (by omega))) h

theorem getFileModeFromString_eq_read_iff (mode : List UInt8) :
    getFileModeFromString mode = .read ↔ mode.head? = some 0x72 := by
  rw [← strncmp_one mode (by decide), getFileModeFromString]
  split_ifs with h <;> simp [h]

theorem freeSlot_eq_none_iff (s : FileState) :
    freeSlot s = none ↔ ¬ ∃ i < zhiosMaxFileDescriptors, s.fileDescriptors i = none := by
  rw [freeSlot, findSlot_eq_none_iff]
  simp [Option.isSome_iff_ne_none]

/-- A new descriptor takes the first free slot, and there is none in a full table. -/
theorem newFileDescriptor_cases {s s' : FileState} {d : Option Fat16Descriptor} {id : Option ℤ}
    (h : newFileDescriptor s d = some (id, s')) :
    (freeSlot s = none ∧ id = none) ∨
      ∃ i : ℕ, freeSlot s = some i ∧ (kzalloc s.kmem sizeofFileDescriptor).1 ≠ 0 ∧ id = some ((i : ℤ) + 1) := by
  cases hslot : freeSlot s with
  | none =>
    simp only [newFileDescriptor, hslot] at h
    cases h
    exact Or.inl ⟨rfl, rfl⟩
  | some i =>
    simp only [newFileDescriptor, hslot] at h
    split_ifs at h with hnull
    cases h
    exact Or.inr ⟨i, rfl, hnull, rfl⟩

theorem newFileDescriptor_free {s : FileState} {i : ℕ} (h : freeSlot s = some i) (d : Option Fat16Descriptor)
    (hne : (kzalloc s.kmem sizeofFileDescriptor).1 ≠ 0) :
    ∃ s', newFileDescriptor s d = some (some ((i : ℤ) + 1), s') := by
  simp only [newFileDescriptor, h, if_neg hne]
  exact ⟨_, rfl⟩

theorem fat16Open_mode {k k' : KMem} {v : FatDisk} {path : List PathNode} {mode : FileMode}
    {d : Fat16Descriptor} (h : fat16Open k v path mode = some (some d, k')) : mode = .read := by
  by_contra hmode
  simp [fat16Open, hmode] at h

section
variable {s : FileState} {filename mode : List UInt8} {stale : ℕ}

theorem FailsEarly.not_asksVolume (h : FailsEarly s filename mode) : ¬ AsksVolume s filename mode := by
  intro hasks
  obtain ⟨hvalid, hcomponent, hmode, hdrive, hv⟩ := hasks
  rcases h with hinvalid | hempty | ⟨-, hdrive' | hv'⟩
  · simp [hvalid] at hinvalid
  · exact hcomponent hempty
  · exact hdrive' hdrive
  · exact hv hv'

theorem ShouldOpen.asksVolume (h : ShouldOpen s filename mode) : AsksVolume s filename mode := by
  obtain ⟨path, k, v, d, k', -, hv, -⟩ := h.resolves
  refine ⟨h.valid, h.component, ?_, h.drive, by simp [hv]⟩
  rw [(getFileModeFromString_eq_read_iff mode).mpr h.readMode]
  decide

/-- On the early error paths everything comes down to the uninitialised pointer. -/
theorem openContract_of_failsEarly {k : KMem} {path : Option RootPath} {res : ℤ}
    (hparse : parsePath s.kmem filename ≠ none) (hearly : FailsEarly s filename mode) (hres : res < 0)
    (hfopen : fopen s filename mode stale = fopenFailed { s with kmem := k } path stale res) :
    OpenContract s filename mode stale ↔ OpenCondition s filename mode stale := by
  have hasks := hearly.not_asksVolume
  have hno : ¬ ShouldOpen s filename mode := fun h => hasks h.asksVolume
  have hcondition : OpenCondition s filename mode stale ↔ stale = 0 :=
    ⟨fun h => h.2.1 hearly, fun h => ⟨hparse, fun _ => h, fun h' => absurd h' hasks⟩⟩
  rw [hcondition, OpenContract, hfopen]
  unfold fopenFailed
  split_ifs with hstale
  · simp [hstale]
  · simp only [not_not.mp hstale, iff_true]
    exact ⟨res, _, rfl, iff_of_false (by omega) hno, fun _ => ⟨hres, rfl⟩⟩

theorem fopen_asked {path : RootPath} {k : KMem} {v : FatDisk}
    (hparse : parsePath s.kmem filename = some (some path, k)) (hroot : path.root ≠ [])
    (hmode : getFileModeFromString mode ≠ .invalid) (hdrive : path.driveNumber = 0) (hv : s.volume = some v) :
    fopen s filename mode stale =
      (fat16Open k v path.root (getFileModeFromString mode)).bind fun d =>
        (newFileDescriptor { s with kmem := d.2 } d.1).map fun f => (f.1.getD 0, f.2) := by
  simp [fopen, hparse, hroot, hmode, hdrive, hv]

/-- Once the file system is asked, everything depends on its answer. -/
theorem openContract_of_asked {path : RootPath} {k : KMem} {v : FatDisk}
    (hparse : parsePath s.kmem filename = some (some path, k)) (hroot : path.root ≠ [])
    (hmode : getFileModeFromString mode ≠ .invalid) (hdrive : path.driveNumber = 0) (hv : s.volume = some v) :
    OpenContract s filename mode stale ↔ DescriptorReady s filename mode := by
  have hresolves : Resolves s filename mode ↔
      ∃ d k', fat16Open k v path.root (getFileModeFromString mode) = some (some d, k') := by
    simp [Resolves, hparse, hv]
  have hready : DescriptorReady s filename mode ↔ (∃ i < zhiosMaxFileDescriptors, s.fileDescriptors i = none) ∧
      ∃ d k', fat16Open k v path.root (getFileModeFromString mode) = some (some d, k') ∧
        (kzalloc k' sizeofFileDescriptor).1 ≠ 0 := by
    simp [DescriptorReady, hparse, hv]
  obtain ⟨hvalid, hnumber, hnames⟩ := parsePath_some hparse
  rw [OpenContract, fopen_asked hparse hroot hmode hdrive hv, hready]
  constructor
  · intro hcontract
    obtain ⟨res, s', hcall, -, hfail⟩ := hcontract
    obtain ⟨⟨d, k'⟩, hopen, hmap⟩ := Option.bind_eq_some_iff.mp hcall
    obtain ⟨⟨id, s''⟩, hnew, heq⟩ := Option.map_eq_some_iff.mp hmap
    cases heq
    have hcases := newFileDescriptor_cases hnew
    -- no status on this way is negative, so the call must have been one that should succeed
    have hnonneg : ¬ id.getD 0 < 0 := by
      rcases hcases with ⟨-, rfl⟩ | ⟨i, -, -, rfl⟩
      · simp
      · simp only [Option.getD_some]
        omega
    have hshould : ShouldOpen s filename mode := by
      by_contra hno
      exact hnonneg (hfail hno).1
    obtain ⟨d', k'', hopen'⟩ := hresolves.mp hshould.resolves
    obtain ⟨rfl, rfl⟩ : d = some d' ∧ k' = k'' := by
      rw [hopen] at hopen'
      cases hopen'
      exact ⟨rfl, rfl⟩
    rcases hcases with ⟨hfull, -⟩ | ⟨i, -, hblock, -⟩
    · exact absurd hshould.slot ((freeSlot_eq_none_iff s).mp hfull)
    · exact ⟨hshould.slot, d', k', hopen', hblock⟩
  · intro hprepared
    obtain ⟨hslot, d, k', hopen, hblock⟩ := hprepared
    obtain ⟨i, hi⟩ : ∃ i, freeSlot s = some i := by
      rw [← Option.ne_none_iff_exists']
      exact fun hfull => (freeSlot_eq_none_iff s).mp hfull hslot
    obtain ⟨s', hnew⟩ := newFileDescriptor_free (s := { s with kmem := k' }) hi (some d) hblock
    have hshould : ShouldOpen s filename mode :=
      { valid := hvalid
        component := fun h => hroot (List.map_eq_nil_iff.mp (hnames.trans h))
        readMode := (getFileModeFromString_eq_read_iff mode).mp (fat16Open_mode hopen)
        drive := hnumber ▸ hdrive
        slot := hslot
        resolves := hresolves.mpr ⟨d, k', hopen⟩ }
    refine ⟨(i : ℤ) + 1, s', by simp [hopen, hnew], iff_of_true (by omega) hshould, fun h => absurd hshould h⟩

/-- When a call of `fopen` does what its caller relies on. -/
theorem fopen_contract_iff (s : FileState) (filename mode : List UInt8) (stale : ℕ) :
    OpenContract s filename mode stale ↔ OpenCondition s filename mode stale := by
  cases hparse : parsePath s.kmem filename with
  | none =>
    refine iff_of_false ?_ fun h => h.1 hparse
    intro hcontract
    obtain ⟨res, s', hcall, -⟩ := hcontract
    simp [fopen, hparse] at hcall
  | some r =>
    obtain ⟨path, k⟩ := r
    have hstored : parsePath s.kmem filename ≠ none := by simp [hparse]
    cases path with
    | none =>
      have hfopen : fopen s filename mode stale = fopenFailed { s with kmem := k } none stale (- EINARG) := by
        simp [fopen, hparse]
      exact openContract_of_failsEarly hstored (Or.inl (parsePath_null hparse)) (by decide) hfopen
    | some path =>
      obtain ⟨hvalid, hnumber, hnames⟩ := parsePath_some hparse
      by_cases hroot : path.root = []
      · have hfopen : fopen s filename mode stale =
            fopenFailed { s with kmem := k } (some path) stale (- EINARG) := by
          simp [fopen, hparse, hroot]
        have hempty : components (filename.drop 2) = [] := by rw [← hnames, hroot, List.map_nil]
        exact openContract_of_failsEarly hstored (Or.inr (Or.inl hempty)) (by decide) hfopen
      have hcomponent : components (filename.drop 2) ≠ [] :=
        fun h => hroot (List.map_eq_nil_iff.mp (hnames.trans h))
      by_cases hmode : getFileModeFromString mode = .invalid
      · have hfopen : fopen s filename mode stale = some (- EINARG, { s with kmem := k }) := by
          simp [fopen, hparse, hroot, hmode]
        have hasks : ¬ AsksVolume s filename mode := fun h => h.2.2.1 hmode
        have hno : ¬ ShouldOpen s filename mode := fun h => hasks h.asksVolume
        have hearly : ¬ FailsEarly s filename mode := by
          simp [FailsEarly, hvalid, hcomponent, hmode]
        exact iff_of_true
          ⟨- EINARG, _, hfopen, iff_of_false (by decide) hno, fun _ => ⟨by decide, rfl⟩⟩
          ⟨hstored, fun h => absurd h hearly, fun h => absurd h hasks⟩
      by_cases hdrive : path.driveNumber = 0
      · cases hv : s.volume with
        | none =>
          have hfopen : fopen s filename mode stale =
              fopenFailed { s with kmem := k } (some path) stale (- EIO) := by
            simp [fopen, hparse, hroot, hmode, hv]
          exact openContract_of_failsEarly hstored (Or.inr (Or.inr ⟨hmode, Or.inr hv⟩)) (by decide) hfopen
        | some v =>
          have hearly : ¬ FailsEarly s filename mode := by
            simp [FailsEarly, hvalid, hcomponent, ← hnumber, hdrive, hv]
          have hasks : AsksVolume s filename mode :=
            ⟨hvalid, hcomponent, hmode, hnumber ▸ hdrive, by simp [hv]⟩
          rw [openContract_of_asked hparse hroot hmode hdrive hv]
          exact ⟨fun h => ⟨hstored, fun h' => absurd h' hearly, fun _ => h⟩, fun h => h.2.2 hasks⟩
      · have hfopen : fopen s filename mode stale =
            fopenFailed { s with kmem := k } (some path) stale (- EIO) := by
          simp [fopen, hparse, hroot, hmode, hdrive]
        exact openContract_of_failsEarly hstored
          (Or.inr (Or.inr ⟨hmode, Or.inl (hnumber ▸ hdrive)⟩)) (by decide) hfopen

end

theorem findItem_empty (v : FatDisk) {directory : Fat16Directory} (h : directory.total = 0) (node : PathNode)
    (k : KMem) : findItem v [node] directory k = some (none, k) := by
  have hnone : findItemInDirectory directory node.name = some none := by
    rw [findItemInDirectory, h]
    rfl
  simp [findItem, searchDirectory, hnone]

def emptyDisk : FatDisk :=
  ⟨⟨fun k => if k = 13 ∨ k = 14 then 1 else if k = 16 ∨ k = 18 then 2 else if k = 22 then 32
      else if k = 38 then 0x29 else 0, fun _ _ => 0⟩, smallVolume⟩

def emptyDiskState : FileState := ⟨⟨freshKernelHeap, fun _ => 0⟩, some emptyDisk, fun _ => none⟩

def noFile : List UInt8 := [0x30, 0x3A, 0x2F, 0x6E, 0x6F, 0x66, 0x69, 0x6C, 0x65]

/-- A file that is not there is opened as descriptor 1. -/
theorem fopen_opens_missing_file :
    (∃ s', fopen emptyDiskState noFile [0x72] 0 = some (1, s')) ∧ ¬ ShouldOpen emptyDiskState noFile [0x72] ∧
      ¬ OpenContract emptyDiskState noFile [0x72] 0 := by
  have hcomponents : components (noFile.drop 2) = [noFile.drop 3] := by decide
  have hmode : getFileModeFromString [0x72] = .read := by decide
  have hwf := freshKernelHeap_wellFormed fun _ => 0
  obtain ⟨path, k, live, hparse, hserved⟩ := parsePath_served hwf noFile (by decide)
    (by simp [hcomponents, Layout.used])
  obtain ⟨-, hnumber, hnames⟩ := parsePath_some hparse
  obtain ⟨node, hnode⟩ : ∃ node, path.root = [node] := by
    rw [hcomponents] at hnames
    exact (List.map_eq_singleton_iff.mp hnames).imp fun _ h => h.1
  have hdrive : path.driveNumber = 0 := hnumber.trans (by decide)
  have hroom : Layout.used live + 1 < k.heap.total := by
    rw [hserved.used_eq, hserved.region.total_eq]
    simp [hcomponents, Layout.used]
  obtain ⟨hne, -⟩ := kzalloc_served hserved.wellFormed sizeofFat16Descriptor (by decide) (by decide) (by omega)
  obtain ⟨hfreed, hregion⟩ := hserved.wellFormed.kzalloc_kfree sizeofFat16Descriptor (by decide) (by decide)
    (by omega)
  have hopen : fat16Open k emptyDisk path.root .read = some (none,
      kfree (kzalloc k sizeofFat16Descriptor).2 (kzalloc k sizeofFat16Descriptor).1) := by
    simp [fat16Open, hne, getFat16DirectoryItem, hnode,
      findItem_empty emptyDisk (show emptyDisk.fsPrivate.rootDirectory.total = 0 from rfl)]
  obtain ⟨hblock, -⟩ := kzalloc_served hfreed sizeofFileDescriptor (by decide) (by decide)
    (by rw [hregion.total_eq]; omega)
  obtain ⟨s', hnew⟩ := newFileDescriptor_free (s := { emptyDiskState with
    kmem := kfree (kzalloc k sizeofFat16Descriptor).2 (kzalloc k sizeofFat16Descriptor).1 })
    (i := 0) rfl none hblock
  have hparse' : parsePath emptyDiskState.kmem noFile = some (some path, k) := hparse
  have hcall : fopen emptyDiskState noFile [0x72] 0 = some (1, s') := by
    rw [fopen_asked hparse' (by simp [hnode]) (by decide) hdrive (v := emptyDisk) rfl, hmode, hopen,
      Option.bind_some, hnew]
    rfl
  have hno : ¬ ShouldOpen emptyDiskState noFile [0x72] := by
    intro h
    obtain ⟨path', k', v, d, k'', hpath, hv, hopened⟩ := h.resolves
    rw [hparse'] at hpath
    cases hpath
    cases hv
    rw [hmode, hopen] at hopened
    cases hopened
  refine ⟨⟨s', hcall⟩, hno, ?_⟩
  intro hcontract
  obtain ⟨res, s'', hcall', hpos, -⟩ := hcontract
  rw [hcall] at hcall'
  cases hcall'
  exact hno (hpos.mp (by decide))

end Zhios
