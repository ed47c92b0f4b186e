import Zhios.Fs.Fat16

/-! The walk along a cluster chain, against the on-disk format. The table lookup is
off by one entry, so that the walk is right for every table only where it takes no
step at all. -/
namespace Zhios
open Machine

/-- The entry of cluster `c` as the format lays it out. -/
def fatEntry (v : FatDisk) (c : ℕ) : ℕ :=
  let a := v.fsPrivate.fatHeader.reservedSectorCount.toNat * zhiosDiskSectorSize + 2 * c
  (v.disk.image a).toNat + 256 * (v.disk.image (a + 1)).toNat

/-- An entry that names a next cluster: neither free, reserved, bad nor the end of
a chain. -/
def IsLink (e : ℕ) : Prop := 2 ≤ e ∧ e ≤ 0xFFEF

instance (e : ℕ) : Decidable (IsLink e) := inferInstanceAs (Decidable (_ ∧ _))

/-- The cluster `n` links behind `c`, if all the entries followed are links. -/
def chainFrom (v : FatDisk) : (n c : ℕ) → Option ℕ
  | 0, c => some c
  | n + 1, c => if IsLink (fatEntry v c) then chainFrom v n (fatEntry v c) else none

/-- What `get_cluster_for_offset` should return. -/
def WalkCorrect (v : FatDisk) (c offset : ℕ) : Prop :=
  match chainFrom v (offset / v.clusterBytes) c with
  | some d => getClusterForOffset v c offset = d
  | none => getClusterForOffset v c offset < 0

/-- The table of `v` ends below 2 GiB at least up to the entry of `c`. -/
def EntryInRange (v : FatDisk) (c : ℕ) : Prop :=
  v.fsPrivate.fatHeader.reservedSectorCount.toNat * 512 + 2 * c + 2 ≤ 2 ^ 31

instance (v : FatDisk) (c : ℕ) : Decidable (EntryInRange v c) := inferInstanceAs (Decidable (_ ≤ _))

/-- The lookup reads the entry in front of the one it should. -/
theorem getFatEntry_eq (v : FatDisk) {c : ℕ} (hc : 1 ≤ c) (hrange : EntryInRange v c) :
    getFatEntry v c = fatEntry v (c - 1) := by
  unfold EntryInRange at hrange
  have hfat : uint32 ((v.fsPrivate.fatHeader.reservedSectorCount.toNat : ℤ) * zhiosDiskSectorSize) =
      v.fsPrivate.fatHeader.reservedSectorCount.toNat * 512 := by
    have := uint32_of_bounds (x := (v.fsPrivate.fatHeader.reservedSectorCount.toNat : ℤ) * 512)
      (by positivity) (by omega)
    unfold zhiosDiskSectorSize
    push_cast
    omega
  have hoffset : uint32 (int32 (((c : ℤ) - 1) * 2)) = 2 * (c - 1) := by
    have hint : int32 (((c : ℤ) - 1) * 2) = ((c : ℤ) - 1) * 2 := int32_of_bounds (by omega) (by omega)
    have := uint32_of_bounds (x := ((c : ℤ) - 1) * 2) (by omega) (by omega)
    rw [hint]
    omega
  have hpos : fatEntryPos v c =
      ((v.fsPrivate.fatHeader.reservedSectorCount.toNat * 512 + 2 * (c - 1) : ℕ) : ℤ) := by
    simp only [fatEntryPos, hfat, hoffset]
    rw [int32_of_bounds] <;> push_cast <;> omega
  have hread : diskStreamRead v.disk
      ((v.fsPrivate.fatHeader.reservedSectorCount.toNat * 512 + 2 * (c - 1) : ℕ) : ℤ) ((2 : ℕ) : ℤ) = _ :=
    diskStreamRead_within v.disk (by omega) (by omega) (by omega)
  simp only [getFatEntry, hpos]
  rw [show (2 : ℤ) = ((2 : ℕ) : ℤ) from rfl, hread]
  simp [slice, fatEntry, zhiosDiskSectorSize, List.range_succ]

theorem endsChain_zero : endsChain 0 = true := rfl

theorem walkCorrect_of_lt {v : FatDisk} {c offset : ℕ} (h : offset < v.clusterBytes) :
    WalkCorrect v c offset := by
  have hsteps : offset / v.clusterBytes = 0 := Nat.div_eq_of_lt h
  have hcount : ((offset : ℤ).tdiv v.clusterBytes).toNat = 0 := by
    rw [Int.tdiv_eq_ediv_of_nonneg (by omega), ← Int.natCast_ediv, hsteps]
    rfl
  simp only [WalkCorrect, hsteps, chainFrom, getClusterForOffset, hcount, clusterWalk]

/-- A table in which the entry in front of `c` is free and all others link to `d`. -/
def trapImage (h : Fat16PrimaryHeader) (c d : ℕ) : Mem := fun k =>
  if k / 2 = h.reservedSectorCount.toNat * 256 + (c - 1) then 0
  else if k % 2 = 0 then UInt8.ofNat (d % 256) else UInt8.ofNat (d / 256)

theorem fatEntry_trapImage {v : FatDisk} {c d : ℕ} (hd : d < 2 ^ 16)
    (himage : v.disk.image = trapImage v.fsPrivate.fatHeader c d) (j : ℕ) :
    fatEntry v j = if j = c - 1 then 0 else d := by
  have hword : ∀ b < 2, trapImage v.fsPrivate.fatHeader c d
      (v.fsPrivate.fatHeader.reservedSectorCount.toNat * 512 + 2 * j + b) =
      if j = c - 1 then 0 else if b = 0 then UInt8.ofNat (d % 256) else UInt8.ofNat (d / 256) := by
    intro b hb
    have hhalf : (v.fsPrivate.fatHeader.reservedSectorCount.toNat * 512 + 2 * j + b) / 2 =
        v.fsPrivate.fatHeader.reservedSectorCount.toNat * 256 + j := by omega
    have hparity : (v.fsPrivate.fatHeader.reservedSectorCount.toNat * 512 + 2 * j + b) % 2 = b := by
      omega
    simp only [trapImage, hhalf, hparity, Nat.add_left_cancel_iff]
  have h0 := hword 0 (by omega)
  have h1 := hword 1 (by omega)
  rw [Nat.add_zero] at h0
  simp only [fatEntry, himage, zhiosDiskSectorSize, h0, h1]
  by_cases hj : j = c - 1
  · simp only [if_pos hj]
    rfl
  · simp only [if_neg hj, if_true, one_ne_zero, if_false, UInt8.toNat_ofNat']
    omega

theorem chainFrom_trapImage {v : FatDisk} {c d : ℕ} (hd : IsLink d) (hdc : d ≠ c - 1)
    (himage : v.disk.image = trapImage v.fsPrivate.fatHeader c d) (n : ℕ) :
    chainFrom v n d = some d := by
  have hentry : fatEntry v d = d := by
    rw [fatEntry_trapImage (by unfold IsLink at hd; omega) himage, if_neg hdc]
  induction n with
  | zero => rfl
  | succ n ih => rw [chainFrom, hentry, if_pos hd, ih]

/-- For every header with clusters, every start cluster in range and every offset,
the walk is right on all tables exactly when the offset lies in the first cluster. -/
theorem walkCorrect_iff (p : Fat16Private) (hspc : 1 ≤ p.fatHeader.sectorsPerCluster.toNat) (c offset : ℕ)
    (hc : 2 ≤ c) (hrange : p.fatHeader.reservedSectorCount.toNat * 512 + 2 * c + 2 ≤ 2 ^ 31) :
    (∀ disk : Disk, WalkCorrect ⟨disk, p⟩ c offset) ↔
      offset < p.fatHeader.sectorsPerCluster.toNat * zhiosDiskSectorSize := by
  constructor
  · intro hall
    by_contra hge
    obtain ⟨d, hd, hdc⟩ : ∃ d, IsLink d ∧ d ≠ c - 1 := by
      by_cases hsmall : c ≤ 0xFFEF
      · exact ⟨c, ⟨hc, hsmall⟩, by omega⟩
      · exact ⟨2, by decide, by omega⟩
    let v : FatDisk := ⟨⟨trapImage p.fatHeader c d, fun _ _ => 0⟩, p⟩
    have hbytes : 1 ≤ v.clusterBytes := Nat.mul_pos hspc (by decide)
    have hlink : d < 2 ^ 16 := by unfold IsLink at hd; omega
    have hsteps : 0 < offset / v.clusterBytes := Nat.div_pos (not_lt.mp hge) hbytes
    obtain ⟨n, hn⟩ : ∃ n, offset / v.clusterBytes = n + 1 := ⟨offset / v.clusterBytes - 1, by omega⟩
    have hcount : ((offset : ℤ).tdiv v.clusterBytes).toNat = n + 1 := by
      rw [Int.tdiv_eq_ediv_of_nonneg (by omega), ← Int.natCast_ediv, hn]
      rfl
    have hfirst : fatEntry v c = d := by
      rw [fatEntry_trapImage hlink rfl, if_neg (by omega)]
    have hread : getFatEntry v c = 0 := by
      rw [getFatEntry_eq v (by omega) hrange, fatEntry_trapImage hlink rfl, if_pos rfl]
      rfl
    have hwalk : getClusterForOffset v c offset = - EIO := by
      simp only [getClusterForOffset, hcount, clusterWalk, hread, endsChain_zero, if_true]
    have hchain : chainFrom v (offset / v.clusterBytes) c = some d := by
      rw [hn, chainFrom, hfirst, if_pos hd, chainFrom_trapImage hd hdc rfl]
    have hcorrect := hall v.disk
    simp only [WalkCorrect] at hcorrect
    rw [show (⟨v.disk, p⟩ : FatDisk) = v from rfl, hchain, hwalk] at hcorrect
    unfold EIO at hcorrect
    simp only at hcorrect
    omega
  · exact fun hlt disk => walkCorrect_of_lt hlt

/-- One sector to a cluster and one reserved sector, as a private record. -/
def smallVolume : Fat16Private := ⟨⟨1, 1, 2, 512, 32⟩, ⟨fun _ => 0, 0, 65, 97⟩⟩

theorem walkCorrect_iff_small :
    (∀ disk : Disk, WalkCorrect ⟨disk, smallVolume⟩ 2 511) ∧
      ¬ ∀ disk : Disk, WalkCorrect ⟨disk, smallVolume⟩ 2 512 :=
  ⟨(walkCorrect_iff smallVolume (by decide) 2 511 (by decide) (by decide)).mpr (by decide),
    fun h => absurd ((walkCorrect_iff smallVolume (by decide) 2 512 (by decide) (by decide)).mp h)
      (by decide)⟩

/-- The usual first entries of a table: media byte, end mark, and a file of two
clusters that starts at cluster 2. -/
def twoClusterFile : FatDisk :=
  ⟨⟨fun k => [0xF8, 0xFF, 0xFF, 0xFF, 0x03, 0x00, 0xFF, 0xFF].getD (k - 512) 0, fun _ _ => 0⟩, smallVolume⟩

theorem twoClusterFile_walk_fails :
    chainFrom twoClusterFile (512 / twoClusterFile.clusterBytes) 2 = some 3 ∧
      getClusterForOffset twoClusterFile 2 512 = -3 ∧ ¬ WalkCorrect twoClusterFile 2 512 := by
  have hchain : chainFrom twoClusterFile (512 / twoClusterFile.clusterBytes) 2 = some 3 := by decide
  have hread : getFatEntry twoClusterFile 2 = 0xFFFF :=
    (getFatEntry_eq twoClusterFile (c := 2) (by decide) (by decide)).trans (by decide)
  have hwalk : getClusterForOffset twoClusterFile 2 512 = -3 := by
    have hcount : ((512 : ℤ).tdiv twoClusterFile.clusterBytes).toNat = 1 := by decide
    simp only [getClusterForOffset, hcount, clusterWalk, hread]
    rfl
  refine ⟨hchain, hwalk, fun hcorrect => ?_⟩
  simp only [WalkCorrect, hchain] at hcorrect
  exact absurd (hcorrect.symm.trans hwalk) (by decide)

end Zhios
