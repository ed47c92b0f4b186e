import Zhios.Fs.FatChain

/-! Reads along a cluster chain. The request is cut into pieces of one cluster from
wherever it starts, so a piece that does not start at a cluster boundary runs past
the end of its cluster. -/
namespace Zhios
open Machine

def clusterPos (v : FatDisk) (c : ℕ) : ℕ :=
  ((v.fsPrivate.rootDirectory.endingSectorPos +
    ((c : ℤ) - 2) * v.fsPrivate.fatHeader.sectorsPerCluster.toNat) * zhiosDiskSectorSize).toNat

/-- The cluster lies behind the root directory, and it and a further cluster end
below 2 GiB. -/
def ClusterInRange (v : FatDisk) (c : ℕ) : Prop :=
  0 ≤ v.fsPrivate.rootDirectory.endingSectorPos +
      ((c : ℤ) - 2) * v.fsPrivate.fatHeader.sectorsPerCluster.toNat ∧
    clusterPos v c + 2 * v.clusterBytes < 2 ^ 31

instance (v : FatDisk) (c : ℕ) : Decidable (ClusterInRange v c) := inferInstanceAs (Decidable (_ ∧ _))

/-- Byte `k` of the file whose clusters are `chain`. -/
def fileByte (v : FatDisk) (chain : ℕ → ℕ) (k : ℕ) : UInt8 :=
  v.disk.image (clusterPos v (chain (k / v.clusterBytes)) + k % v.clusterBytes)

/-- Byte `k` of a request from `offset` on as the pieces deliver it. -/
def pieceByte (v : FatDisk) (chain : ℕ → ℕ) (offset k : ℕ) : UInt8 :=
  v.disk.image (clusterPos v (chain (offset / v.clusterBytes + k / v.clusterBytes)) +
    (offset % v.clusterBytes + k % v.clusterBytes))

/-- For every piece of the request, `get_cluster_for_offset` finds its cluster in
the chain, and that cluster is in range. -/
def PiecesFound (v : FatDisk) (cluster : ℤ) (chain : ℕ → ℕ) (offset size : ℕ) : Prop :=
  ∀ i, i * v.clusterBytes < size →
    getClusterForOffset v cluster ((offset + i * v.clusterBytes : ℕ) : ℤ) =
        chain (offset / v.clusterBytes + i) ∧
      ClusterInRange v (chain (offset / v.clusterBytes + i))

/-- What `read_entries` owes its caller. -/
def ReadCorrect (v : FatDisk) (cluster : ℤ) (chain : ℕ → ℕ) (offset size : ℕ) : Prop :=
  readEntries v cluster offset size = ((size : ℤ), (List.range size).map fun k => fileByte v chain (offset + k))

/-- Wherever a piece runs past the end of its cluster, the disk holds there what the
next cluster of the chain holds. -/
def OverrunsAgree (v : FatDisk) (chain : ℕ → ℕ) (offset size : ℕ) : Prop :=
  ∀ k < size, v.clusterBytes ≤ offset % v.clusterBytes + k % v.clusterBytes →
    v.disk.image (clusterPos v (chain (offset / v.clusterBytes + k / v.clusterBytes)) +
        (offset % v.clusterBytes + k % v.clusterBytes)) =
      v.disk.image (clusterPos v (chain (offset / v.clusterBytes + k / v.clusterBytes + 1)) +
        (offset % v.clusterBytes + k % v.clusterBytes - v.clusterBytes))

/-- Every piece that runs past the end of its cluster is followed in the chain by
the next cluster on the disk. -/
def FollowsOn (v : FatDisk) (chain : ℕ → ℕ) (offset size : ℕ) : Prop :=
  ∀ i, i * v.clusterBytes + (v.clusterBytes - offset % v.clusterBytes) < size →
    0 < offset % v.clusterBytes →
    chain (offset / v.clusterBytes + i + 1) = chain (offset / v.clusterBytes + i) + 1

section
variable {v : FatDisk}

theorem clusterBytes_aligned : v.clusterBytes % 512 = 0 := by
  unfold FatDisk.clusterBytes zhiosDiskSectorSize
  omega

theorem clusterToSector_eq {c : ℕ} (h : ClusterInRange v c) :
    clusterToSector v.fsPrivate c * zhiosDiskSectorSize = (clusterPos v c : ℤ) := by
  obtain ⟨h0, h1⟩ := h
  unfold clusterPos zhiosDiskSectorSize at *
  unfold clusterToSector
  generalize v.fsPrivate.rootDirectory.endingSectorPos +
    ((c : ℤ) - 2) * v.fsPrivate.fatHeader.sectorsPerCluster.toNat = sector at h0 h1 ⊢
  rw [int32_of_bounds (x := sector) (by omega) (by omega)]
  push_cast at *
  omega

theorem startPos_eq {c r : ℕ} (h : ClusterInRange v c) (hr : r < v.clusterBytes) :
    int32 (clusterToSector v.fsPrivate c * zhiosDiskSectorSize + r) = ((clusterPos v c + r : ℕ) : ℤ) := by
  have hbelow := h.2
  rw [clusterToSector_eq h, int32_of_bounds (by omega) (by omega), Nat.cast_add]

theorem piece_eq {c r n : ℕ} (h : ClusterInRange v c) (hr : r < v.clusterBytes) (ha : r % 512 = 0)
    (hn : n ≤ v.clusterBytes) :
    (diskStreamRead v.disk (int32 (clusterToSector v.fsPrivate c * zhiosDiskSectorSize + r)) n).1 =
      slice v.disk.image (clusterPos v c + r) n := by
  have hpos := h.2
  have hpa : clusterPos v c % 512 = 0 := by
    unfold clusterPos zhiosDiskSectorSize
    omega
  rw [startPos_eq h hr, diskStreamRead_aligned v.disk (by omega) (by omega)]

theorem pieceByte_step (hcb : 1 ≤ v.clusterBytes) (chain : ℕ → ℕ) (offset k : ℕ) :
    pieceByte v chain offset (v.clusterBytes + k) = pieceByte v chain (offset + v.clusterBytes) k := by
  have hdiv : (v.clusterBytes + k) / v.clusterBytes = k / v.clusterBytes + 1 := by
    rw [Nat.add_comm, Nat.add_div_right _ hcb]
  have hoff : (offset + v.clusterBytes) / v.clusterBytes = offset / v.clusterBytes + 1 :=
    Nat.add_div_right _ hcb
  rw [pieceByte, pieceByte, hdiv, hoff, Nat.add_mod_right, Nat.add_mod_left,
    show offset / v.clusterBytes + (k / v.clusterBytes + 1) =
      offset / v.clusterBytes + 1 + k / v.clusterBytes by omega]

theorem PiecesFound.mono {cluster : ℤ} {chain : ℕ → ℕ} {offset size size' : ℕ}
    (h : PiecesFound v cluster chain offset size) (hle : size' ≤ size) :
    PiecesFound v cluster chain offset size' := fun i hi => h i (hi.trans_le hle)

theorem PiecesFound.first {cluster : ℤ} {chain : ℕ → ℕ} {offset size : ℕ}
    (h : PiecesFound v cluster chain offset size) (hsize : 0 < size) :
    getClusterForOffset v cluster offset = chain (offset / v.clusterBytes) ∧
      ClusterInRange v (chain (offset / v.clusterBytes)) := by
  have hfirst := h 0 (by rwa [Nat.zero_mul])
  rwa [Nat.zero_mul, Nat.add_zero, Nat.add_zero] at hfirst

theorem PiecesFound.next {cluster : ℤ} {chain : ℕ → ℕ} {offset size : ℕ} (hcb : 1 ≤ v.clusterBytes)
    (h : PiecesFound v cluster chain offset size) :
    PiecesFound v cluster chain (offset + v.clusterBytes) (size - v.clusterBytes) := by
  intro i hi
  have hnext := h (i + 1) (by rw [Nat.succ_mul]; omega)
  rw [Nat.add_div_right _ hcb, Nat.add_assoc, Nat.add_assoc, Nat.add_comm 1 i]
  rw [Nat.succ_mul, Nat.add_comm (i * v.clusterBytes)] at hnext
  exact hnext

def pieceRead (v : FatDisk) (cluster offset n : ℤ) : List UInt8 :=
  (diskStreamRead v.disk (int32 (clusterToSector v.fsPrivate (getClusterForOffset v cluster offset) *
    zhiosDiskSectorSize + offset.tmod v.clusterBytes)) n).1

theorem pieceRead_eq (hcb : 1 ≤ v.clusterBytes) {cluster : ℤ} {chain : ℕ → ℕ} {offset n : ℕ}
    (ha : offset % 512 = 0) (hn : n ≤ v.clusterBytes)
    (hrange : ClusterInRange v (chain (offset / v.clusterBytes)))
    (hfound : getClusterForOffset v cluster offset = chain (offset / v.clusterBytes)) :
    pieceRead v cluster offset n = (List.range n).map fun k => pieceByte v chain offset k := by
  have hmod : (offset : ℤ).tmod v.clusterBytes = ((offset % v.clusterBytes : ℕ) : ℤ) := by
    rw [Int.tmod_eq_emod_of_nonneg (by omega)]
    rfl
  have hra : offset % v.clusterBytes % 512 = 0 := by
    rw [Nat.mod_mod_of_dvd offset (Nat.dvd_of_mod_eq_zero clusterBytes_aligned)]
    exact ha
  rw [pieceRead, hfound, hmod, piece_eq hrange (Nat.mod_lt offset hcb) hra hn, slice]
  apply List.map_congr_left
  intro k hk
  have hk : k < v.clusterBytes := (List.mem_range.mp hk).trans_le hn
  rw [pieceByte, Nat.div_eq_of_lt hk, Nat.mod_eq_of_lt hk, Nat.add_zero, Nat.add_assoc]

theorem readEntriesLoop_last (fuel : ℕ) (cluster offset : ℤ) {size : ℤ} (h : ¬ (v.clusterBytes : ℤ) < size) :
    readEntriesLoop v (fuel + 1) cluster offset size = (size, pieceRead v cluster offset size) := by
  have hdone : ¬ 0 < size - size := by rw [sub_self]; exact lt_irrefl 0
  simp only [readEntriesLoop, if_neg h, if_neg hdone, pieceRead]

theorem readEntriesLoop_more (fuel : ℕ) (cluster offset : ℤ) {size : ℤ} (h : (v.clusterBytes : ℤ) < size) :
    readEntriesLoop v (fuel + 1) cluster offset size =
      let r := readEntriesLoop v fuel cluster (int32 (offset + v.clusterBytes)) (size - v.clusterBytes)
      (v.clusterBytes + r.1, pieceRead v cluster offset v.clusterBytes ++ r.2) := by
  simp only [readEntriesLoop, if_pos h, if_pos (sub_pos.mpr h), pieceRead]

theorem readEntriesLoop_eq (hcb : 1 ≤ v.clusterBytes) (cluster : ℤ) (chain : ℕ → ℕ)
    (fuel offset size : ℕ) (hfuel : size < fuel) (ha : offset % 512 = 0)
    (hend : offset + size < 2 ^ 31) (hp : PiecesFound v cluster chain offset size) :
    readEntriesLoop v fuel cluster offset size =
      ((size : ℤ), (List.range size).map fun k => pieceByte v chain offset k) := by
  induction fuel generalizing offset size with
  | zero => omega
  | succ fuel ih =>
    by_cases hlarge : v.clusterBytes < size
    · obtain ⟨hfirst, hrange⟩ := hp.first (Nat.zero_lt_of_lt hlarge)
      have hpiece := pieceRead_eq hcb ha le_rfl hrange hfirst
      have hstep : int32 ((offset : ℤ) + (v.clusterBytes : ℤ)) = ((offset + v.clusterBytes : ℕ) : ℤ) := by
        rw [int32_of_bounds (by omega) (by omega), Nat.cast_add]
      have hrest := ih (offset + v.clusterBytes) (size - v.clusterBytes) (by omega)
        (by rw [Nat.add_mod, ha, clusterBytes_aligned]) (by omega) (hp.next hcb)
      rw [readEntriesLoop_more _ _ _ (Nat.cast_lt.mpr hlarge), hpiece, hstep, ← Nat.cast_sub hlarge.le, hrest]
      have hsplit : List.range size =
          List.range v.clusterBytes ++ (List.range (size - v.clusterBytes)).map (v.clusterBytes + ·) := by
        rw [← List.range_add, Nat.add_sub_cancel' hlarge.le]
      rw [hsplit, List.map_append, List.map_map]
      simp only [Function.comp_def, pieceByte_step hcb, ← Nat.cast_add, Nat.add_sub_cancel' hlarge.le]
    · rw [readEntriesLoop_last _ _ _ (mt Nat.cast_lt.mp hlarge)]
      rcases Nat.eq_zero_or_pos size with rfl | hpos
      · rw [pieceRead, Nat.cast_zero, diskStreamRead_zero]
        rfl
      · obtain ⟨hfirst, hrange⟩ := hp.first hpos
        rw [pieceRead_eq hcb ha (not_lt.mp hlarge) hrange hfirst]

theorem fileByte_eq (hcb : 1 ≤ v.clusterBytes) (chain : ℕ → ℕ) (offset k : ℕ) :
    fileByte v chain (offset + k) =
      if v.clusterBytes ≤ offset % v.clusterBytes + k % v.clusterBytes then
        v.disk.image (clusterPos v (chain (offset / v.clusterBytes + k / v.clusterBytes + 1)) +
          (offset % v.clusterBytes + k % v.clusterBytes - v.clusterBytes))
      else pieceByte v chain offset k := by
  rw [fileByte, Nat.add_div hcb, Nat.add_mod_eq_ite]
  split_ifs with h
  · rfl
  · rw [pieceByte, Nat.add_zero]

/-- The request is answered as it should be exactly when the overruns do no harm. -/
theorem readCorrect_iff_overruns (hcb : 1 ≤ v.clusterBytes) {cluster : ℤ} {chain : ℕ → ℕ}
    {offset size : ℕ} (ha : offset % 512 = 0) (hend : offset + size < 2 ^ 31)
    (hp : PiecesFound v cluster chain offset size) :
    ReadCorrect v cluster chain offset size ↔ OverrunsAgree v chain offset size := by
  have hread : readEntries v cluster offset size = _ :=
    readEntriesLoop_eq hcb cluster chain ((size : ℤ).toNat + 1) offset size (by omega) ha hend hp
  rw [ReadCorrect, hread, Prod.mk.injEq, List.map_inj_left]
  constructor
  · rintro ⟨-, hbytes⟩ k hk hover
    have := hbytes k (List.mem_range.mpr hk)
    rwa [fileByte_eq hcb, if_pos hover] at this
  · intro hagree
    refine ⟨rfl, fun k hk => ?_⟩
    rw [fileByte_eq hcb]
    split_ifs with hover
    · exact hagree k (List.mem_range.mp hk) hover
    · rfl

theorem clusterPos_add {c : ℕ} (h : ClusterInRange v c) (i : ℕ) :
    clusterPos v (c + i) = clusterPos v c + i * v.clusterBytes := by
  obtain ⟨h0, -⟩ := h
  unfold clusterPos FatDisk.clusterBytes zhiosDiskSectorSize at *
  generalize v.fsPrivate.fatHeader.sectorsPerCluster.toNat = spc at h0 ⊢
  have hnext : (((c + i : ℕ) : ℤ) - 2) * spc = ((c : ℤ) - 2) * spc + ((i * spc : ℕ) : ℤ) := by
    push_cast
    ring
  rw [hnext, ← Nat.mul_assoc]
  generalize ((c : ℤ) - 2) * spc = behind at h0 ⊢
  omega

theorem clusterPos_succ {c : ℕ} (h : ClusterInRange v c) :
    clusterPos v (c + 1) = clusterPos v c + v.clusterBytes := by
  rw [clusterPos_add h, Nat.one_mul]

theorem overrun_piece (hcb : 1 ≤ v.clusterBytes) {offset size k : ℕ} (hk : k < size)
    (hover : v.clusterBytes ≤ offset % v.clusterBytes + k % v.clusterBytes) :
    k / v.clusterBytes * v.clusterBytes + (v.clusterBytes - offset % v.clusterBytes) < size ∧
      0 < offset % v.clusterBytes := by
  have hk' := Nat.div_add_mod' k v.clusterBytes
  have hlt := Nat.mod_lt k hcb
  generalize v.clusterBytes = cb at *
  omega

/-- On consecutive clusters the bytes behind the end are those of the next cluster. -/
theorem FollowsOn.overrunsAgree (hcb : 1 ≤ v.clusterBytes) {cluster : ℤ} {chain : ℕ → ℕ} {offset size : ℕ}
    (hp : PiecesFound v cluster chain offset size) (h : FollowsOn v chain offset size) :
    OverrunsAgree v chain offset size := by
  intro k hk hover
  obtain ⟨hpiece, hinside⟩ := overrun_piece hcb hk hover
  have hrange := (hp (k / v.clusterBytes) ((Nat.div_mul_le_self k _).trans_lt hk)).2
  rw [h _ hpiece hinside, clusterPos_succ hrange, Nat.add_assoc, Nat.add_sub_cancel' hover]

/-- A read that starts at a cluster boundary, or ends in its first cluster, has no
overrun. -/
theorem followsOn_of_single {chain : ℕ → ℕ} {offset size : ℕ}
    (h : offset % v.clusterBytes = 0 ∨ offset % v.clusterBytes + size ≤ v.clusterBytes) :
    FollowsOn v chain offset size := by
  intro i hi hinside
  generalize i * v.clusterBytes = start at hi
  generalize v.clusterBytes = cb at *
  omega

/-- A disk that differs from that of `v` in the data area only. -/
def SameTables (v : FatDisk) (disk : Disk) : Prop :=
  ∀ a : ℕ, (a : ℤ) < v.fsPrivate.rootDirectory.endingSectorPos * zhiosDiskSectorSize →
    disk.image a = v.disk.image a

theorem dataStart_le_clusterPos {c : ℕ} (hc : 2 ≤ c) :
    v.fsPrivate.rootDirectory.endingSectorPos * zhiosDiskSectorSize ≤ clusterPos v c := by
  have hbehind : 0 ≤ ((c : ℤ) - 2) * v.fsPrivate.fatHeader.sectorsPerCluster.toNat :=
    mul_nonneg (by omega) (by omega)
  unfold clusterPos zhiosDiskSectorSize
  omega

theorem clusterPos_ne {c d : ℕ} (hspc : 1 ≤ v.fsPrivate.fatHeader.sectorsPerCluster.toNat)
    (hstart : 0 ≤ v.fsPrivate.rootDirectory.endingSectorPos) (hc : 2 ≤ c) (hd : 2 ≤ d) (hne : d ≠ c) :
    clusterPos v d ≠ clusterPos v c := by
  intro heq
  apply hne
  unfold clusterPos zhiosDiskSectorSize at heq
  have hspc' : (v.fsPrivate.fatHeader.sectorsPerCluster.toNat : ℤ) ≠ 0 := by omega
  have hc' : 0 ≤ ((c : ℤ) - 2) * v.fsPrivate.fatHeader.sectorsPerCluster.toNat :=
    mul_nonneg (by omega) (by omega)
  have hd' : 0 ≤ ((d : ℤ) - 2) * v.fsPrivate.fatHeader.sectorsPerCluster.toNat :=
    mul_nonneg (by omega) (by omega)
  have hmul : ((d : ℤ) - 2) * v.fsPrivate.fatHeader.sectorsPerCluster.toNat =
      ((c : ℤ) - 2) * v.fsPrivate.fatHeader.sectorsPerCluster.toNat := by omega
  have := mul_right_cancel₀ hspc' hmul
  omega

/-- Over all contents of the data area, the reads are right exactly when the chain
follows on wherever a piece runs past the end of its cluster. -/
theorem readCorrect_all_iff (hspc : 1 ≤ v.fsPrivate.fatHeader.sectorsPerCluster.toNat)
    (hstart : 0 ≤ v.fsPrivate.rootDirectory.endingSectorPos) {cluster : ℤ} {chain : ℕ → ℕ}
    (hchain : ∀ i, 2 ≤ chain i) {offset size : ℕ} (ha : offset % 512 = 0) (hend : offset + size < 2 ^ 31)
    (hp : ∀ disk, SameTables v disk → PiecesFound ⟨disk, v.fsPrivate⟩ cluster chain offset size) :
    (∀ disk, SameTables v disk → ReadCorrect ⟨disk, v.fsPrivate⟩ cluster chain offset size) ↔
      FollowsOn v chain offset size := by
  have hcb : 1 ≤ v.clusterBytes := Nat.mul_pos hspc (by decide)
  constructor
  · intro hall i hi hinside
    by_contra hne
    -- the piece reads at `a` what the file has at `b`: let the two bytes differ
    let a := clusterPos v (chain (offset / v.clusterBytes + i)) + v.clusterBytes
    let b := clusterPos v (chain (offset / v.clusterBytes + i + 1))
    let disk : Disk := ⟨fun x => if x = a then v.disk.image b + 1 else v.disk.image x, v.disk.beyond⟩
    have hrange : ClusterInRange v (chain (offset / v.clusterBytes + i)) :=
      (hp v.disk (fun _ _ => rfl) i (lt_of_le_of_lt (Nat.le_add_right _ _) hi)).2
    have hab : b ≠ a := by
      have hnext := clusterPos_ne hspc hstart (Nat.le_succ_of_le (hchain (offset / v.clusterBytes + i)))
        (hchain (offset / v.clusterBytes + i + 1)) hne
      rwa [clusterPos_succ hrange] at hnext
    have hsame : SameTables v disk := by
      intro x hx
      apply if_neg
      intro hxa
      have hdata := dataStart_le_clusterPos (v := v) (hchain (offset / v.clusterBytes + i))
      exact absurd (hxa ▸ hx) (not_lt.mpr (hdata.trans (Nat.cast_le.mpr (Nat.le_add_right _ _))))
    have hoverruns := (readCorrect_iff_overruns (v := ⟨disk, v.fsPrivate⟩) hcb ha hend
      (hp disk hsame)).mp (hall disk hsame)
    have hlt : v.clusterBytes - offset % v.clusterBytes < v.clusterBytes := Nat.sub_lt hcb hinside
    have hdiv : (i * v.clusterBytes + (v.clusterBytes - offset % v.clusterBytes)) / v.clusterBytes = i := by
      rw [Nat.mul_comm, Nat.mul_add_div hcb, Nat.div_eq_of_lt hlt, Nat.add_zero]
    have hmod : (i * v.clusterBytes + (v.clusterBytes - offset % v.clusterBytes)) % v.clusterBytes =
        v.clusterBytes - offset % v.clusterBytes := by
      rw [Nat.mul_comm, Nat.mul_add_mod, Nat.mod_eq_of_lt hlt]
    have hend : offset % v.clusterBytes + (v.clusterBytes - offset % v.clusterBytes) = v.clusterBytes :=
      Nat.add_sub_cancel' (Nat.mod_lt offset hcb).le
    have hbyte : disk.image a = disk.image b := by
      have := hoverruns _ hi (by
        change v.clusterBytes ≤ offset % v.clusterBytes + _ % v.clusterBytes
        rw [hmod, hend])
      change disk.image (clusterPos v (chain (offset / v.clusterBytes + _ / v.clusterBytes)) +
          (offset % v.clusterBytes + _ % v.clusterBytes)) =
        disk.image (clusterPos v (chain (offset / v.clusterBytes + _ / v.clusterBytes + 1)) +
          (offset % v.clusterBytes + _ % v.clusterBytes - v.clusterBytes)) at this
      rwa [hdiv, hmod, hend, Nat.sub_self, Nat.add_zero] at this
    have ha : disk.image a = v.disk.image b + 1 := if_pos rfl
    have hb : disk.image b = v.disk.image b := if_neg hab
    rw [ha, hb] at hbyte
    exact absurd hbyte (by simp)
  · intro h disk hsame
    exact (readCorrect_iff_overruns (v := ⟨disk, v.fsPrivate⟩) hcb ha hend (hp disk hsame)).mpr
      (FollowsOn.overrunsAgree (v := ⟨disk, v.fsPrivate⟩) hcb (hp disk hsame) h)

/-- What a read at a sector boundary delivers: it is right exactly when its overruns
do no harm, on consecutive clusters it is, and nothing less than that will do for all
contents of the data area. -/
theorem readEntries_follows_chain_iff (hspc : 1 ≤ v.fsPrivate.fatHeader.sectorsPerCluster.toNat)
    (cluster : ℤ) (chain : ℕ → ℕ) (offset size : ℕ) (ha : offset % 512 = 0)
    (hend : offset + size < 2 ^ 31) (hp : PiecesFound v cluster chain offset size) :
    (ReadCorrect v cluster chain offset size ↔ OverrunsAgree v chain offset size) ∧
      (FollowsOn v chain offset size → ReadCorrect v cluster chain offset size) ∧
      (0 ≤ v.fsPrivate.rootDirectory.endingSectorPos → (∀ i, 2 ≤ chain i) →
        (∀ disk, SameTables v disk → PiecesFound ⟨disk, v.fsPrivate⟩ cluster chain offset size) →
        ((∀ disk, SameTables v disk → ReadCorrect ⟨disk, v.fsPrivate⟩ cluster chain offset size) ↔
          FollowsOn v chain offset size)) := by
  have hcb : 1 ≤ v.clusterBytes := Nat.mul_pos hspc (by decide)
  have hiff := readCorrect_iff_overruns hcb ha hend hp
  exact ⟨hiff, fun h => hiff.mpr (h.overrunsAgree hcb hp),
    fun hstart hchain hall => readCorrect_all_iff hspc hstart hchain ha hend hall⟩

end

/-- A file of two clusters of two sectors, the clusters 2 and 5. -/
def splitFile : FatDisk :=
  ⟨⟨fun k => if k < 1024 then [0xF8, 0xFF, 0xFF, 0xFF, 5, 0, 0, 0, 0, 0, 0xFF, 0xFF].getD (k - 512) 0
      else if k < 50688 then 1 else if k < 52736 then 2 else 3, fun _ _ => 0⟩,
    ⟨⟨2, 1, 2, 512, 32⟩, ⟨fun _ => 0, 0, 65, 97⟩⟩⟩

def splitChain (i : ℕ) : ℕ := if i = 0 then 2 else 5

theorem splitFile_piecesFound (offset : ℕ) (h : offset < 1024) :
    PiecesFound splitFile 2 splitChain offset 1024 := by
  intro i hi
  have hcb : splitFile.clusterBytes = 1024 := rfl
  rw [hcb] at hi
  obtain rfl : i = 0 := by omega
  have hcount : ((offset : ℤ).tdiv splitFile.clusterBytes).toNat = 0 := by
    rw [hcb, Int.tdiv_eq_ediv_of_nonneg (by omega)]
    omega
  have hfirst : offset / splitFile.clusterBytes = 0 := by
    rw [hcb]
    omega
  rw [Nat.zero_mul, Nat.add_zero, hfirst, getClusterForOffset, hcount]
  exact ⟨rfl, by decide⟩

theorem splitFile_read_whole_cluster :
    ReadCorrect splitFile 2 splitChain 0 1024 ∧ ¬ OverrunsAgree splitFile splitChain 512 1024 ∧
      ¬ ReadCorrect splitFile 2 splitChain 512 1024 := by
  have hover : ¬ OverrunsAgree splitFile splitChain 512 1024 := by
    intro h
    exact absurd (h 512 (by decide) (by decide)) (by decide)
  have hwhole := readEntries_follows_chain_iff (v := splitFile) (by decide) 2 splitChain 0 1024 (by decide)
    (by decide) (splitFile_piecesFound _ (by decide))
  have hsplit := readEntries_follows_chain_iff (v := splitFile) (by decide) 2 splitChain 512 1024 (by decide)
    (by decide) (splitFile_piecesFound _ (by decide))
  exact ⟨hwhole.2.1 (followsOn_of_single (by decide)), hover, fun h => hover (hsplit.1.mp h)⟩

/-- The second half of a read from the middle of cluster 2 comes from cluster 3. -/
theorem splitFile_read_overruns :
    chainFrom splitFile 1 2 = some (splitChain 1) ∧ PiecesFound splitFile 2 splitChain 512 1024 ∧
      ¬ ReadCorrect splitFile 2 splitChain 512 1024 := by
  have hp := splitFile_piecesFound 512 (by decide)
  refine ⟨by decide, hp, fun h => ?_⟩
  have hagree := (readCorrect_iff_overruns (by decide) (by decide) (by decide) hp).mp h
  exact absurd (hagree 512 (by decide) (by decide)) (by decide)

end Zhios
