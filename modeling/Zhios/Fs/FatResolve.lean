import Zhios.Fs.FatOpen
import Zhios.Fs.FatDirectory
import Zhios.Memory.HeapPinned

/-! Mounting a volume with `fat16_resolve`. One byte of the boot sector is checked, and
everything else is taken as it is. The root directory is loaded by the size the boot sector
gives, and counted up to the first empty slot wherever that is. -/
namespace Zhios
open Machine

def fat16BootSignature : UInt8 := 0x29
def sizeofFat16Header : ℕ := 62
def sizeofFat16Private : ℕ := 92

/-- The header fields by their offsets in the boot sector. -/
def headerFields (header : Mem) : Fat16PrimaryHeader where
  sectorsPerCluster := header 13
  reservedSectorCount := UInt16.ofNat (load16 header 14)
  numberOfFat := header 16
  rootEntryCount := UInt16.ofNat (load16 header 17)
  sectorsPerFat := UInt16.ofNat (load16 header 22)

/-- `boot_signature` lies behind the primary header. -/
def verifySignature (header : Mem) : ℤ := if header 38 ≠ fat16BootSignature then - EINARG else 0

/-- The stream is written to without a check that there is one. -/
def diskStreamOpen (k : KMem) : Option (ℕ × KMem) :=
  let stream := kzalloc k sizeofDiskStream
  if stream.1 = 0 then none else some stream

def initFat16Private (k : KMem) : Option KMem :=
  (diskStreamOpen k).bind fun s => (diskStreamOpen s.2).bind fun s => (diskStreamOpen s.2).map (·.2)

/-- `init_root_directory` with its allocations. The directory is missing where its buffer
could not be allocated. -/
def initRootDirectoryAlloc (k : KMem) (d : Disk) (h : Fat16PrimaryHeader) : Option (Option Fat16Directory × KMem) :=
  let entries := kzalloc k (h.rootEntryCount.toNat * fat16EntrySize)
  if entries.1 = 0 then some (none, entries.2)
  else
    (countEntriesAlloc entries.2 d (rootDirectorySectorStart h)).bind fun t =>
      (initRootDirectory d h fun i => entries.2.mem (entries.1 + i)).map fun directory => (some directory, t.2)

/-- The status, the volume that is then mounted, and the heap. There is no result where a
stream could not be allocated and where the slots of the root have no end. -/
def fat16Resolve (k : KMem) (d : Disk) : Option (ℤ × Option FatDisk × KMem) :=
  let p := kzalloc k sizeofFat16Private
  if p.1 = 0 then none
  else
    (initFat16Private p.2).bind fun k => (diskStreamOpen k).bind fun stream =>
      let header := bufferOf (diskStreamRead d 0 sizeofFat16Header).1 fun _ => 0
      if verifySignature header ≠ 0 then
        some (verifySignature header, none, kfree (kfree stream.2 stream.1) p.1)
      else
        (initRootDirectoryAlloc stream.2 d (headerFields header)).map fun r =>
          match r.1 with
          | none => (- EMEM, none, kfree (kfree r.2 stream.1) p.1)
          | some root => (0, some ⟨d, ⟨headerFields header, root⟩⟩, kfree r.2 stream.1)

theorem resolveHeader_eq (d : Disk) {i : ℕ} (hi : i < sizeofFat16Header) :
    bufferOf (diskStreamRead d 0 sizeofFat16Header).1 (fun _ => 0) i = d.image i := by
  have hread := diskStreamRead_within d (show 1 ≤ sizeofFat16Header by decide)
    (show 0 % 512 + sizeofFat16Header ≤ 512 by decide) (by decide)
  rw [Nat.cast_zero] at hread
  rw [hread, bufferOf_slice _ _ hi, Nat.zero_add]

theorem resolveHeader_fields (d : Disk) :
    headerFields (bufferOf (diskStreamRead d 0 sizeofFat16Header).1 fun _ => 0) = headerFields d.image := by
  simp only [headerFields, load16, resolveHeader_eq d (show 13 < sizeofFat16Header by decide),
    resolveHeader_eq d (show 14 < sizeofFat16Header by decide),
    resolveHeader_eq d (show 14 + 1 < sizeofFat16Header by decide),
    resolveHeader_eq d (show 16 < sizeofFat16Header by decide),
    resolveHeader_eq d (show 17 < sizeofFat16Header by decide),
    resolveHeader_eq d (show 17 + 1 < sizeofFat16Header by decide),
    resolveHeader_eq d (show 22 < sizeofFat16Header by decide),
    resolveHeader_eq d (show 22 + 1 < sizeofFat16Header by decide)]

/-- A mounted volume: what of the boot sector it rests on, and how its root was counted. -/
structure Accepted (d : Disk) (v : FatDisk) : Prop where
  disk : v.disk = d
  signature : d.image 38 = fat16BootSignature
  header : v.fsPrivate.fatHeader = headerFields d.image
  root : ∃ after, initRootDirectory d (headerFields d.image) after = some v.fsPrivate.rootDirectory

theorem fat16Resolve_accepted {k k' : KMem} {d : Disk} {v : FatDisk} {res : ℤ}
    (h : fat16Resolve k d = some (res, some v, k')) : Accepted d v := by
  simp only [fat16Resolve] at h
  split_ifs at h with hprivate hsignature
  · obtain ⟨k₁, -, h⟩ := Option.bind_eq_some_iff.mp h
    obtain ⟨stream, -, h⟩ := Option.bind_eq_some_iff.mp h
    simp at h
  obtain ⟨k₁, -, h⟩ := Option.bind_eq_some_iff.mp h
  obtain ⟨stream, -, h⟩ := Option.bind_eq_some_iff.mp h
  obtain ⟨r, hroot, h⟩ := Option.map_eq_some_iff.mp h
  rw [resolveHeader_fields] at hroot h
  simp only [initRootDirectoryAlloc] at hroot
  split_ifs at hroot with hentries
  · cases hroot
    simp at h
  · obtain ⟨t, -, hroot⟩ := Option.bind_eq_some_iff.mp hroot
    obtain ⟨directory, hdirectory, rfl⟩ := Option.map_eq_some_iff.mp hroot
    cases h
    refine ⟨rfl, ?_, rfl, _, hdirectory⟩
    rw [not_not, verifySignature, resolveHeader_eq d (by decide)] at hsignature
    by_contra hother
    rw [if_pos hother] at hsignature
    exact absurd hsignature (by decide)

theorem initRootDirectory_eq_some {d : Disk} {h : Fat16PrimaryHeader} {after : Mem} {root : Fat16Directory}
    (hroot : initRootDirectory d h after = some root) :
    ∃ total : ℕ, getTotalEntriesForDirectory d (rootDirectorySectorStart h) = some total ∧ root.total = total ∧
      root.endingSectorPos =
        rootDirectorySectorStart h + h.rootEntryCount.toNat * fat16EntrySize / zhiosDiskSectorSize ∧
      root.directoryItem = bufferOf (diskStreamRead d (int32 (rootDirectorySectorStart h * zhiosDiskSectorSize))
        (h.rootEntryCount.toNat * fat16EntrySize)).1 after := by
  simp only [initRootDirectory] at hroot
  cases htotal : getTotalEntriesForDirectory d (rootDirectorySectorStart h) with
  | none =>
    rw [htotal] at hroot
    cases hroot
  | some total =>
    rw [htotal] at hroot
    cases hroot
    exact ⟨total, rfl, rfl, rfl, rfl⟩

namespace Accepted
variable {d : Disk} {v : FatDisk}

def rootPos (v : FatDisk) : ℤ := rootDirectorySectorStart v.fsPrivate.fatHeader * zhiosDiskSectorSize

theorem total_eq (h : Accepted d v) : ∃ n, EndsAt (slotBytes d (rootPos v)) n ∧
    v.fsPrivate.rootDirectory.total = liveSlots (slotBytes d (rootPos v)) n := by
  obtain ⟨after, hroot⟩ := h.root
  obtain ⟨total, htotal, hcounted, -, -⟩ := initRootDirectory_eq_some hroot
  rw [getTotalEntriesForDirectory, countEntries_eq_some_iff] at htotal
  obtain ⟨n, -, hends, hn⟩ := htotal
  rw [rootPos, h.header]
  exact ⟨n, hends, by rw [hcounted, hn, Nat.zero_add]⟩

theorem endingSectorPos_eq (h : Accepted d v) : v.fsPrivate.rootDirectory.endingSectorPos =
    rootDirectorySectorStart v.fsPrivate.fatHeader +
      v.fsPrivate.fatHeader.rootEntryCount.toNat * fat16EntrySize / zhiosDiskSectorSize := by
  obtain ⟨after, hroot⟩ := h.root
  obtain ⟨total, -, -, hending, -⟩ := initRootDirectory_eq_some hroot
  rw [hending, h.header]

end Accepted

section
variable {k : KMem} {live : List Extent} {d : Disk} {h : Fat16PrimaryHeader} {total : ℕ}

theorem diskStreamOpen_served (hwf : k.WellFormed live) (hroom : Layout.used live < k.heap.total) :
    ∃ a k' live', diskStreamOpen k = some (a, k') ∧ k.FreshBlock k' live live' a sizeofDiskStream := by
  obtain ⟨a, k', live', heq, hne, hfresh⟩ := hwf.serves sizeofDiskStream (by decide) (by decide) hroom
  refine ⟨a, k', live', ?_, hfresh⟩
  simp only [diskStreamOpen, heq, if_neg hne]

theorem initFat16Private_served (hwf : k.WellFormed live) (hroom : Layout.used live + 3 ≤ k.heap.total) :
    ∃ k' live', initFat16Private k = some k' ∧ k.Served k' live live' 3 := by
  obtain ⟨a₁, k₁, live₁, hopen₁, h₁⟩ := diskStreamOpen_served hwf (by omega)
  have hused₁ := h₁.used_eq
  have htotal₁ := h₁.region.total_eq
  obtain ⟨a₂, k₂, live₂, hopen₂, h₂⟩ := diskStreamOpen_served h₁.wellFormed (by omega)
  have hused₂ := h₂.used_eq
  have htotal₂ := h₂.region.total_eq
  obtain ⟨a₃, k₃, live₃, hopen₃, h₃⟩ := diskStreamOpen_served h₂.wellFormed (by omega)
  have hused₃ := h₃.used_eq
  refine ⟨k₃, live₃, ?_, h₃.wellFormed, by omega, h₁.region.trans (h₂.region.trans h₃.region)⟩
  simp only [initFat16Private, hopen₁, hopen₂, hopen₃, Option.bind_some, Option.map_some]

theorem initRootDirectoryAlloc_served (hwf : k.WellFormed live) (hroom : Layout.used live + 2 ≤ k.heap.total)
    (hpos : 1 ≤ h.rootEntryCount.toNat) (hblock : h.rootEntryCount.toNat ≤ 128)
    (htotal : getTotalEntriesForDirectory d (rootDirectorySectorStart h) = some total) :
    ∃ root k' live', initRootDirectoryAlloc k d h = some (some root, k') ∧ k.Served k' live live' 1 ∧
      ∀ b, k.Owns live b → k'.Owns live' b := by
  obtain ⟨a, k₁, live₁, heq, hne, h₁⟩ := hwf.serves (h.rootEntryCount.toNat * fat16EntrySize)
    (by unfold fat16EntrySize; omega) (by unfold fat16EntrySize; omega) (by omega)
  have hused₁ := h₁.used_eq
  have htotal₁ := h₁.region.total_eq
  obtain ⟨hstream, -⟩ := kzalloc_served h₁.wellFormed sizeofDiskStream (by decide) (by decide) (by omega)
  obtain ⟨hfreed, hregion⟩ := h₁.wellFormed.kzalloc_kfree sizeofDiskStream (by decide) (by decide) (by omega)
  obtain ⟨root, hroot⟩ : ∃ root, initRootDirectory d h (fun i => k₁.mem (a + i)) = some root := by
    rw [initRootDirectory, htotal]
    exact ⟨_, rfl⟩
  refine ⟨root, _, live₁, ?_, ⟨hfreed, hused₁, h₁.region.trans hregion⟩, fun b hb => ?_⟩
  · simp only [initRootDirectoryAlloc, heq, if_neg hne, countEntriesAlloc, if_neg hstream, htotal, hroot,
      Option.map_some, Option.bind_some]
  · obtain ⟨e, he, hat⟩ := h₁.mono b hb
    exact ⟨e, he, by rw [hat, hregion.start_eq]⟩

/-- With memory for a few blocks, a signed boot sector over such a root is accepted, and five
blocks stay taken. -/
theorem fat16Resolve_accepts (hwf : k.WellFormed live) (hroom : Layout.used live + 8 ≤ k.heap.total)
    (hsignature : d.image 38 = fat16BootSignature) (hpos : 1 ≤ (headerFields d.image).rootEntryCount.toNat)
    (hblock : (headerFields d.image).rootEntryCount.toNat ≤ 128)
    (htotal : getTotalEntriesForDirectory d (rootDirectorySectorStart (headerFields d.image)) = some total) :
    ∃ v k' live', fat16Resolve k d = some (0, some v, k') ∧ k.Served k' live live' 5 := by
  have hverified : verifySignature (bufferOf (diskStreamRead d 0 sizeofFat16Header).1 fun _ => 0) = 0 := by
    rw [verifySignature, resolveHeader_eq d (by decide), if_neg (not_not.mpr hsignature)]
  obtain ⟨a₁, k₁, live₁, heq₁, hne₁, h₁⟩ := hwf.serves sizeofFat16Private (by decide) (by decide) (by omega)
  have hused₁ := h₁.used_eq
  have htotal₁ := h₁.region.total_eq
  obtain ⟨k₂, live₂, hinit, h₂⟩ := initFat16Private_served h₁.wellFormed (by omega)
  have hused₂ := h₂.used_eq
  have htotal₂ := h₂.region.total_eq
  obtain ⟨a₃, k₃, live₃, hopen, h₃⟩ := diskStreamOpen_served h₂.wellFormed (by omega)
  have hused₃ := h₃.used_eq
  have htotal₃ := h₃.region.total_eq
  obtain ⟨root, k₄, live₄, hroot, h₄, hmono⟩ :=
    initRootDirectoryAlloc_served h₃.wellFormed (by omega) hpos hblock htotal
  have hused₄ := h₄.used_eq
  obtain ⟨live₅, hwf₅, hused₅, -⟩ := (hmono a₃ h₃.owned).kfree h₄.wellFormed
  refine ⟨⟨d, ⟨headerFields d.image, root⟩⟩, kfree k₄ a₃, live₅, ?_, hwf₅, by omega,
    h₁.region.trans (h₂.region.trans (h₃.region.trans (h₄.region.trans (kfree_region k₄ a₃))))⟩
  simp only [fat16Resolve, heq₁, if_neg hne₁, hinit, hopen, hverified, resolveHeader_fields, hroot, Option.bind_some,
    Option.map_some, ne_eq, not_true, if_false]

end

/-- The search of the root stays inside the entries that were loaded for it. -/
def ScanInside (v : FatDisk) : Prop :=
  v.fsPrivate.rootDirectory.total ≤ v.fsPrivate.fatHeader.rootEntryCount.toNat ∧
    ∀ i : ℕ, i < v.fsPrivate.rootDirectory.total →
      fat16EntrySize * (i + 1) ≤ fat16EntrySize * v.fsPrivate.fatHeader.rootEntryCount.toNat

/-- There is an empty slot in the region of `r` slots or right behind it, or else what is
in use between the region and the first empty slot is not more than what is deleted in the
region. -/
def RegionEnds (b : ℕ → UInt8) (r : ℕ) : Prop :=
  (∃ j ≤ r, b j = 0x00) ∨ ∀ n, EndsAt b n → liveSlots (fun j => b (r + j)) (n - r) ≤ deletedSlots b r

theorem liveSlots_add (b : ℕ → UInt8) (r n : ℕ) :
    liveSlots b (r + n) = liveSlots b r + liveSlots (fun j => b (r + j)) n := by
  simp only [liveSlots, List.range_add, List.countP_append, List.countP_map, Function.comp_def]

theorem liveSlots_le_iff {b : ℕ → UInt8} {n : ℕ} (h : EndsAt b n) (r : ℕ) : liveSlots b n ≤ r ↔ RegionEnds b r := by
  unfold RegionEnds
  by_cases hin : n ≤ r
  · have hle := liveSlots_le b n
    exact iff_of_true (by omega) (Or.inl ⟨n, hin, h.1⟩)
  · have hnone : ¬ ∃ j ≤ r, b j = 0x00 := by
      rintro ⟨j, hj, hempty⟩
      exact hin ((h.2 (show b j = 0x00 from hempty)).trans hj)
    have hsum := deletedSlots_add_liveSlots b r
    have hadd := liveSlots_add b r (n - r)
    rw [show r + (n - r) = n by omega] at hadd
    rw [or_iff_right hnone]
    constructor
    · intro hle m hm
      obtain rfl := h.unique hm
      omega
    · intro hall
      have hlive := hall n h
      omega

/-- On every volume that is accepted, the root is searched inside its loaded entries
exactly when it ends in its region, or is counted short by enough deleted slots. -/
theorem fat16Resolve_scanInside_iff (k k' : KMem) (d : Disk) (v : FatDisk) (res : ℤ)
    (h : fat16Resolve k d = some (res, some v, k')) :
    ScanInside v ↔ RegionEnds (slotBytes d (Accepted.rootPos v)) v.fsPrivate.fatHeader.rootEntryCount.toNat := by
  obtain ⟨n, hends, htotal⟩ := (fat16Resolve_accepted h).total_eq
  rw [← liveSlots_le_iff hends, ScanInside, htotal]
  constructor
  · rintro ⟨hle, -⟩
    exact_mod_cast hle
  · intro hle
    refine ⟨by exact_mod_cast hle, fun i hi => Nat.mul_le_mul_left _ ?_⟩
    omega

def smallRoot (sectorsPerCluster : UInt8) (slots : Mem) : Disk :=
  ⟨fun k => if k = 13 then sectorsPerCluster else if k = 14 then 1 else if k = 16 then 2 else if k = 17 then 16
    else if k = 22 then 32 else if k = 38 then 0x29 else if 33280 ≤ k then slots (k - 33280) else 0, fun _ _ => 0⟩

section SmallRoot
variable (spc : UInt8) (slots : Mem)

theorem smallRoot_header : headerFields (smallRoot spc slots).image = ⟨spc, 1, 2, 16, 32⟩ := rfl

theorem smallRoot_start : rootDirectorySectorStart (headerFields (smallRoot spc slots).image) = 65 := by
  rw [smallRoot_header]
  simp only [rootDirectorySectorStart]
  decide

theorem smallRoot_slot (j : ℕ) :
    (smallRoot spc slots).image (zhiosDiskSectorSize * 65 + fat16EntrySize * j) = slots (fat16EntrySize * j) := by
  unfold smallRoot zhiosDiskSectorSize
  simp only
  rw [if_neg (by omega), if_neg (by omega), if_neg (by omega), if_neg (by omega), if_neg (by omega), if_neg (by omega),
    if_pos (by omega), show 512 * 65 + fat16EntrySize * j - 33280 = fat16EntrySize * j by omega]

variable {slots} {n : ℕ} (hends : EndsAt (fun j => slots (fat16EntrySize * j)) n) (hn : n < 2 ^ 20)
include hends hn

theorem smallRoot_accepted : ∃ v k' live', fat16Resolve ⟨freshKernelHeap, fun _ => 0⟩ (smallRoot spc slots) =
    some (0, some v, k') ∧ KMem.Served ⟨freshKernelHeap, fun _ => 0⟩ k' [] live' 5 := by
  have hread : ∀ j ≤ n,
      slots (fat16EntrySize * j) = slotBytes (smallRoot spc slots) ((65 : ℤ) * zhiosDiskSectorSize) j := by
    intro j hj
    rw [show (65 : ℤ) * zhiosDiskSectorSize = ((zhiosDiskSectorSize * 65 : ℕ) : ℤ) by decide,
      slotBytes_image _ (by decide) (by unfold zhiosDiskSectorSize fat16EntrySize; omega), smallRoot_slot]
  have htotal : getTotalEntriesForDirectory (smallRoot spc slots) 65 =
      some (liveSlots (slotBytes (smallRoot spc slots) ((65 : ℤ) * zhiosDiskSectorSize)) n) := by
    rw [getTotalEntriesForDirectory, countEntries_eq_some_iff]
    exact ⟨n, by omega, hends.congr hread, (Nat.zero_add _).symm⟩
  exact fat16Resolve_accepts (freshKernelHeap_wellFormed _) (by simp [Layout.used]) rfl
    (by rw [smallRoot_header]; exact (by decide : 1 ≤ (16 : UInt16).toNat))
    (by rw [smallRoot_header]; exact (by decide : (16 : UInt16).toNat ≤ 128)) htotal

omit hends in
theorem smallRoot_slotBytes {v : FatDisk} (h : Accepted (smallRoot spc slots) v) {j : ℕ} (hj : j ≤ n) :
    slotBytes (smallRoot spc slots) (Accepted.rootPos v) j = slots (fat16EntrySize * j) := by
  have hpos : Accepted.rootPos v = ((zhiosDiskSectorSize * 65 : ℕ) : ℤ) := by
    rw [Accepted.rootPos, h.header, smallRoot_start]
    decide
  rw [hpos, slotBytes_image _ (by decide) (by unfold zhiosDiskSectorSize fat16EntrySize; omega), smallRoot_slot]

theorem smallRoot_total {v : FatDisk} (h : Accepted (smallRoot spc slots) v) :
    v.fsPrivate.rootDirectory.total = liveSlots (fun j => slots (fat16EntrySize * j)) n := by
  have hsame : ∀ j ≤ n, slots (fat16EntrySize * j) = slotBytes (smallRoot spc slots) (Accepted.rootPos v) j :=
    fun j hj => (smallRoot_slotBytes spc hn h hj).symm
  obtain ⟨m, hm, htotal⟩ := h.total_eq
  obtain rfl := hm.unique (hends.congr hsame)
  rw [htotal, liveSlots_congr fun j hj => hsame j hj.le]

omit hends hn in
theorem smallRoot_item {v : FatDisk} (h : Accepted (smallRoot spc slots) v) {k : ℕ} (hk : k < 512) :
    v.fsPrivate.rootDirectory.directoryItem k = slots k := by
  obtain ⟨after, hroot⟩ := h.root
  obtain ⟨total, -, -, -, hitem⟩ := initRootDirectory_eq_some hroot
  have hpos : int32 ((65 : ℤ) * zhiosDiskSectorSize) = ((33280 : ℕ) : ℤ) := int32_of_bounds (by decide) (by decide)
  have hsize : ((headerFields (smallRoot spc slots).image).rootEntryCount.toNat : ℤ) * fat16EntrySize =
      ((512 : ℕ) : ℤ) := by
    rw [smallRoot_header]
    rfl
  rw [hitem, smallRoot_start, hpos, hsize, diskStreamRead_aligned _ (by decide) (by decide), bufferOf_slice _ _ hk]
  unfold smallRoot
  simp only
  rw [if_neg (by omega), if_neg (by omega), if_neg (by omega), if_neg (by omega), if_neg (by omega), if_neg (by omega),
    if_pos (by omega), Nat.add_sub_cancel_left]

omit hends hn in
theorem smallRoot_endingSectorPos {v : FatDisk} (h : Accepted (smallRoot spc slots) v) :
    v.fsPrivate.rootDirectory.endingSectorPos = 66 := by
  have hsectors : ((16 : UInt16).toNat : ℤ) * fat16EntrySize / zhiosDiskSectorSize = 1 := by decide
  rw [h.endingSectorPos_eq, h.header, smallRoot_start, smallRoot_header, hsectors]
  rfl

theorem smallRoot_find {v : FatDisk} (h : Accepted (smallRoot spc slots) v) (hin : n ≤ 16)
    (hclosed : ∀ j < n, EntryClosed slots (fat16EntrySize * j)) (name : List UInt8) :
    findItemInDirectory v.fsPrivate.rootDirectory name =
      some (findSlot (nameMatches slots name) (liveSlots (fun j => slots (fat16EntrySize * j)) n) 0) := by
  have hle := liveSlots_le (fun j => slots (fat16EntrySize * j)) n
  have hsame : ∀ j < n, ∀ k < fat16EntrySize, slots (fat16EntrySize * j + k) =
      v.fsPrivate.rootDirectory.directoryItem (fat16EntrySize * j + k) := by
    intro j hj k hk
    refine (smallRoot_item spc h ?_).symm
    unfold fat16EntrySize at *
    omega
  rw [findItemInDirectory, smallRoot_total spc hends hn h, Int.toNat_natCast, findSlotIf_of_ok]
  · refine congrArg some (findSlot_congr fun j _ hj => ?_)
    rw [nameMatches, nameMatches, getFat16Filename_congr (hsame j (by omega)) (hclosed j (by omega))]
  · intro j _ hj
    obtain ⟨o, hlo, hhi, hzero⟩ := hclosed j (by omega)
    exact EntryClosed.filenameFits ⟨o, hlo, hhi, (hsame j (by omega) o hhi).symm.trans hzero⟩

omit hends hn in
theorem smallRoot_entry {v : FatDisk} (h : Accepted (smallRoot spc slots) v) {j : ℕ} (hj : j < 16) :
    directoryEntry v.fsPrivate.rootDirectory j = slice slots (fat16EntrySize * j) fat16EntrySize := by
  apply List.map_congr_left
  intro k hk
  have hk := List.mem_range.mp hk
  apply smallRoot_item spc h
  unfold fat16EntrySize at *
  omega

end SmallRoot

theorem smallRoot_oneEntry (spc : UInt8) {slots : Mem} {name : List UInt8} (hfirst : slots 0 ≠ 0x00)
    (hempty : slots 32 = 0x00) (hlive : slots 0 ≠ 0xE5) (hclosed : slots 12 = 0) (hname : nameMatches slots name 0) :
    ∃ v k' live', fat16Resolve ⟨freshKernelHeap, fun _ => 0⟩ (smallRoot spc slots) = some (0, some v, k') ∧
      KMem.Served ⟨freshKernelHeap, fun _ => 0⟩ k' [] live' 5 ∧
      findItemInDirectory v.fsPrivate.rootDirectory name = some (some 0) ∧
      directoryEntry v.fsPrivate.rootDirectory 0 = slice slots 0 fat16EntrySize := by
  have hends : EndsAt (fun j => slots (fat16EntrySize * j)) 1 := .one hfirst hempty
  obtain ⟨v, k', live', hresolve, hserved⟩ := smallRoot_accepted spc hends (by decide)
  have haccepted := fat16Resolve_accepted hresolve
  have hone : liveSlots (fun j => slots (fat16EntrySize * j)) 1 = 1 := by
    rw [liveSlots_succ, Nat.mul_zero, if_neg hlive]
    rfl
  refine ⟨v, k', live', hresolve, hserved, ?_, smallRoot_entry spc haccepted (by decide)⟩
  have hslots : ∀ j < 1, EntryClosed slots (fat16EntrySize * j) := by
    intro j hj
    obtain rfl : j = 0 := by omega
    exact ⟨12, by decide, by decide, hclosed⟩
  rw [smallRoot_find spc hends (by decide) haccepted (by decide) hslots, hone, findSlot, if_pos hname]

def usedSlots (n : ℕ) : Mem := fun k => if k < fat16EntrySize * n then 0x41 else 0

theorem usedSlots_endsAt (n : ℕ) : EndsAt (fun j => usedSlots n (fat16EntrySize * j)) n := by
  refine ⟨if_neg (lt_irrefl _), fun j hj => ?_⟩
  by_contra hlt
  push Not at hlt
  have hempty : usedSlots n (fat16EntrySize * j) = 0x00 := hj
  rw [usedSlots, if_pos (by unfold fat16EntrySize; omega)] at hempty
  exact absurd hempty (by decide)

theorem fat16Resolve_scanInside_three : ∃ v k', fat16Resolve ⟨freshKernelHeap, fun _ => 0⟩ (smallRoot 1 (usedSlots 3)) =
    some (0, some v, k') ∧ ScanInside v := by
  obtain ⟨v, k', -, hresolve, -⟩ := smallRoot_accepted 1 (usedSlots_endsAt 3) (by decide)
  have haccepted := fat16Resolve_accepted hresolve
  refine ⟨v, k', hresolve, ?_⟩
  refine (fat16Resolve_scanInside_iff ⟨freshKernelHeap, fun _ => 0⟩ k' (smallRoot 1 (usedSlots 3)) v 0 hresolve).mpr
    (Or.inl ⟨3, ?_, ?_⟩)
  · rw [haccepted.header, smallRoot_header]
    decide
  · rw [smallRoot_slotBytes 1 (n := 3) (by decide) haccepted le_rfl]
    decide

/-- A root whose 16 entries are in use, with data behind it: one slot more is searched. -/
theorem fat16Resolve_full_root : ∃ v k', fat16Resolve ⟨freshKernelHeap, fun _ => 0⟩ (smallRoot 1 (usedSlots 17)) =
    some (0, some v, k') ∧ v.fsPrivate.fatHeader.rootEntryCount = 16 ∧ v.fsPrivate.rootDirectory.total = 17 ∧
      ¬ ScanInside v := by
  obtain ⟨v, k', -, hresolve, -⟩ := smallRoot_accepted 1 (usedSlots_endsAt 17) (by decide)
  have haccepted := fat16Resolve_accepted hresolve
  have hcount : v.fsPrivate.fatHeader.rootEntryCount = 16 := by rw [haccepted.header, smallRoot_header]
  have htotal : v.fsPrivate.rootDirectory.total = 17 := by
    rw [smallRoot_total 1 (usedSlots_endsAt 17) (by decide) haccepted]
    decide
  refine ⟨v, k', hresolve, hcount, htotal, fun hinside => ?_⟩
  have hle := hinside.1
  rw [htotal, hcount] at hle
  exact absurd hle (by decide)

end Zhios
