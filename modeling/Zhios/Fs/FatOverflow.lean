import Zhios.Fs.FatResolve

/-! Byte positions of the data area. Sectors, positions and the stream are signed 32-bit
numbers, so that everything from byte 2^31 on is out of reach of the driver. -/
namespace Zhios
open Machine

def exactSector (v : FatDisk) (c : ℕ) : ℤ :=
  v.fsPrivate.rootDirectory.endingSectorPos + ((c : ℤ) - 2) * v.fsPrivate.fatHeader.sectorsPerCluster.toNat

def exactPosition (v : FatDisk) (c r : ℕ) : ℤ := exactSector v c * zhiosDiskSectorSize + r

/-- The sectors of the volume by its boot sector: `total_sectors`, or `sectors_long` where
that is zero. -/
def volumeSectors (d : Disk) : ℕ := if load16 d.image 19 ≠ 0 then load16 d.image 19 else load32 d.image 32

/-- A byte of a data cluster that lies within the volume. -/
structure DataByte (d : Disk) (v : FatDisk) (c r : ℕ) : Prop where
  sectors : 1 ≤ v.fsPrivate.fatHeader.sectorsPerCluster.toNat ∧ v.fsPrivate.fatHeader.sectorsPerCluster.toNat ≤ 128
  cluster : 2 ≤ c ∧ c ≤ 0xFFEF
  inside : exactSector v c + v.fsPrivate.fatHeader.sectorsPerCluster.toNat ≤ volumeSectors d
  offset : r < v.clusterBytes

def startPosition (v : FatDisk) (c r : ℕ) : ℤ :=
  int32 (clusterToSector v.fsPrivate c * zhiosDiskSectorSize + r)

/-- What is computed on the way to the byte is exact: its sector, its position, the position
of the stream when a read from further in front comes to it, and the sector of the disk. -/
structure PositionExact (v : FatDisk) (c r : ℕ) : Prop where
  sector : clusterToSector v.fsPrivate c = exactSector v c
  start : startPosition v c r = exactPosition v c r
  stream : ∀ n ≤ r, (diskStreamRead v.disk (startPosition v c (r - n)) n).2 = exactPosition v c r
  block : (uint32 ((startPosition v c r).tdiv zhiosDiskSectorSize) : ℤ) = exactPosition v c r / zhiosDiskSectorSize

section
variable {d : Disk} {v : FatDisk} {c r : ℕ}

theorem Accepted.exactSector_nonneg (h : Accepted d v) (hc : 2 ≤ c) : 0 ≤ exactSector v c := by
  have hroot : 0 ≤ v.fsPrivate.rootDirectory.endingSectorPos := by
    rw [h.endingSectorPos_eq]
    unfold rootDirectorySectorStart
    positivity
  have hbehind : 0 ≤ ((c : ℤ) - 2) * v.fsPrivate.fatHeader.sectorsPerCluster.toNat :=
    mul_nonneg (by omega) (by omega)
  exact add_nonneg hroot hbehind

theorem positionExact_of_lt (hsector : 0 ≤ exactSector v c) (hlt : exactPosition v c r < 2 ^ 31) :
    PositionExact v c r := by
  obtain ⟨p, hp⟩ : ∃ p : ℕ, exactSector v c * zhiosDiskSectorSize = p :=
    Int.eq_ofNat_of_zero_le (mul_nonneg hsector (by positivity))
  have hcluster : clusterToSector v.fsPrivate c = exactSector v c := by
    have hbound : exactSector v c < 2 ^ 31 := by
      unfold exactPosition zhiosDiskSectorSize at *
      omega
    exact int32_of_bounds (le_trans (by decide) hsector) hbound
  have hexact : ∀ q : ℕ, exactPosition v c q = ((p + q : ℕ) : ℤ) := by
    intro q
    rw [exactPosition, hp, Nat.cast_add]
  rw [hexact] at hlt
  have hstart : ∀ q ≤ r, startPosition v c q = ((p + q : ℕ) : ℤ) := by
    intro q hq
    rw [startPosition, hcluster, hp, int32_of_bounds (by omega) (by omega), Nat.cast_add]
  refine ⟨hcluster, ?_, fun n hn => ?_, ?_⟩
  · rw [hstart r le_rfl, hexact]
  · rw [hstart _ (Nat.sub_le r n), diskStreamRead_pos _ (by omega), hexact]
    congr 1
    omega
  · rw [hstart r le_rfl, hexact, Int.tdiv_eq_ediv_of_nonneg (by omega)]
    unfold zhiosDiskSectorSize
    exact uint32_of_bounds (by omega) (by omega)

end

/-- On every accepted volume, for every byte of every data cluster in it: the position of
the byte is computed exactly when it is below 2 GiB. -/
theorem positionExact_iff (k k' : KMem) (d : Disk) (v : FatDisk) (res : ℤ) (c r : ℕ)
    (h : fat16Resolve k d = some (res, some v, k')) (hbyte : DataByte d v c r) :
    PositionExact v c r ↔ exactPosition v c r < 2 ^ 31 := by
  constructor
  · intro hexact
    rw [← hexact.start]
    unfold startPosition int32
    omega
  · exact positionExact_of_lt ((fat16Resolve_accepted h).exactSector_nonneg hbyte.cluster.1)

/-- A disk with the boot sector of `boot.asm`: clusters of 64 KiB on 0x773594 sectors. -/
def bootVolume : Disk :=
  ⟨fun k => if k = 13 then 128 else if k = 14 then 200 else if k = 16 then 2 else if k = 17 then 64
    else if k = 23 then 1 else if k = 32 then 0x94 else if k = 33 then 0x35 else if k = 34 then 0x77
    else if k = 38 then 0x29 else 0, fun _ _ => 0⟩

theorem bootVolume_header : headerFields bootVolume.image = ⟨128, 200, 2, 64, 256⟩ := by decide

theorem bootVolume_accepted : ∃ v k', fat16Resolve ⟨freshKernelHeap, fun _ => 0⟩ bootVolume = some (0, some v, k') ∧
    v.fsPrivate.fatHeader = ⟨128, 200, 2, 64, 256⟩ ∧ v.fsPrivate.rootDirectory.endingSectorPos = 716 := by
  have hstart : rootDirectorySectorStart ⟨128, 200, 2, 64, 256⟩ = 712 := by decide
  have hfirst : slotBytes bootVolume ((712 : ℤ) * zhiosDiskSectorSize) 0 = 0x00 := by
    rw [show (712 : ℤ) * zhiosDiskSectorSize = ((364544 : ℕ) : ℤ) by decide, slotBytes_image _ (by decide) (by decide)]
    decide
  have htotal : getTotalEntriesForDirectory bootVolume (rootDirectorySectorStart (headerFields bootVolume.image)) =
      some 0 := by
    rw [bootVolume_header, hstart, getTotalEntriesForDirectory, countEntries_eq_some_iff]
    exact ⟨0, by decide, EndsAt.zero_iff.mpr hfirst, by decide⟩
  obtain ⟨v, k', -, hresolve, -⟩ := fat16Resolve_accepts (freshKernelHeap_wellFormed fun _ => 0) (by simp [Layout.used])
    (d := bootVolume) rfl (by rw [bootVolume_header]; decide) (by rw [bootVolume_header]; decide) htotal
  have haccepted := fat16Resolve_accepted hresolve
  have hheader := haccepted.header.trans bootVolume_header
  refine ⟨v, k', hresolve, hheader, ?_⟩
  rw [haccepted.endingSectorPos_eq, hheader, hstart]
  decide

theorem positionExact_first_byte : ∃ v k', fat16Resolve ⟨freshKernelHeap, fun _ => 0⟩ bootVolume =
    some (0, some v, k') ∧ PositionExact v 2 0 := by
  obtain ⟨v, k', hresolve, hheader, hending⟩ := bootVolume_accepted
  have hbyte : DataByte bootVolume v 2 0 := by
    refine ⟨?_, by decide, ?_, ?_⟩
    · rw [hheader]
      decide
    · rw [exactSector, hending, hheader]
      decide
    · rw [FatDisk.clusterBytes, hheader]
      decide
  refine ⟨v, k', hresolve,
    (positionExact_iff ⟨freshKernelHeap, fun _ => 0⟩ k' bootVolume v 0 2 0 hresolve hbyte).mpr ?_⟩
  rw [exactPosition, exactSector, hending, hheader]
  decide

/-- Cluster 32765 of it starts behind 2 GiB. The driver seeks to a negative position, and
asks for a sector that is not on the disk. -/
theorem positionExact_fails_behind_2GiB : ∃ v k', fat16Resolve ⟨freshKernelHeap, fun _ => 0⟩ bootVolume =
    some (0, some v, k') ∧ DataByte bootVolume v 32765 0 ∧ exactPosition v 32765 0 = 2147522560 ∧
      startPosition v 32765 0 = -2147444736 ∧ uint32 ((startPosition v 32765 0).tdiv zhiosDiskSectorSize) = 4290773068 ∧
      ¬ PositionExact v 32765 0 := by
  obtain ⟨v, k', hresolve, hheader, hending⟩ := bootVolume_accepted
  have hsector : exactSector v 32765 = 4194380 := by
    rw [exactSector, hending, hheader]
    decide
  have hcluster : clusterToSector v.fsPrivate ((32765 : ℕ) : ℤ) = 4194380 := by
    rw [← hsector]
    exact int32_of_bounds (by rw [← exactSector, hsector]; decide) (by rw [← exactSector, hsector]; decide)
  have hstart : startPosition v 32765 0 = -2147444736 := by
    rw [startPosition, hcluster]
    unfold int32 zhiosDiskSectorSize
    decide
  have hexact : exactPosition v 32765 0 = 2147522560 := by
    rw [exactPosition, hsector]
    decide
  refine ⟨v, k', hresolve, ⟨?_, by decide, ?_, ?_⟩, hexact, hstart, ?_, fun h => ?_⟩
  · rw [hheader]
    decide
  · rw [hsector, hheader]
    decide
  · rw [FatDisk.clusterBytes, hheader]
    decide
  · rw [hstart]
    unfold uint32 zhiosDiskSectorSize
    decide
  · have hsame := h.start
    rw [hstart, hexact] at hsame
    exact absurd hsame (by decide)

end Zhios
