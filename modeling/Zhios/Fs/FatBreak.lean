import Zhios.Fs.FilePosition

/-! Reads over a broken chain. The lookup of a cluster reports the break in place of the
cluster, the reader takes it for one, and the piece is read from in front of the data. -/
namespace Zhios
open Machine

def stepOffset (v : FatDisk) (x : ℤ) (i : ℕ) : ℤ := int32 (x + i * v.clusterBytes)

/-- Step `i` of a read of `size` bytes is the first that looks a cluster up in vain. -/
structure BreaksAt (v : FatDisk) (cluster x size : ℤ) (i : ℕ) : Prop where
  divides : 1 ≤ v.clusterBytes
  reached : i = 0 ∨ (i : ℤ) * v.clusterBytes < size
  broken : getClusterForOffset v cluster (stepOffset v x i) < 0
  first : ∀ j < i, 0 ≤ getClusterForOffset v cluster (stepOffset v x j)

/-- The read ends in an error or with the steps in front of the break, and it has written
and moved on by no more than that. -/
def BreakReported (v : FatDisk) (d : Fat16Descriptor) (size : ℤ) (i : ℕ) : Prop :=
  ∃ res bytes d', fat16Read v d size = some (res, bytes, d') ∧ (res < 0 ∨ res = (i : ℤ) * v.clusterBytes) ∧
    bytes.length ≤ i * v.clusterBytes ∧ d'.pos = uint32 (d.pos + bytes.length)

section
variable {v : FatDisk}

theorem stepOffset_zero (x : ℤ) : stepOffset v x 0 = int32 x := by
  rw [stepOffset, Nat.cast_zero, zero_mul, add_zero]

theorem stepOffset_succ (x : ℤ) (i : ℕ) :
    stepOffset v (x + v.clusterBytes) i = stepOffset v x (i + 1) := by
  rw [stepOffset, stepOffset]
  push_cast
  ring_nf

theorem readEntriesLoop_drop (hcb : 1 ≤ v.clusterBytes) (cluster : ℤ) (i fuel : ℕ) (x : ℤ) {size : ℕ}
    (hfuel : size < fuel + i) (hreached : i * v.clusterBytes < size) :
    (readEntriesLoop v (fuel + i) cluster (int32 x) size).2.drop (i * v.clusterBytes) =
      (readEntriesLoop v fuel cluster (stepOffset v x i) ((size - i * v.clusterBytes : ℕ) : ℤ)).2 := by
  induction i generalizing x size with
  | zero => rw [Nat.zero_mul, List.drop_zero, stepOffset_zero, Nat.sub_zero, Nat.add_zero]
  | succ i ih =>
    have hstep : (i + 1) * v.clusterBytes = v.clusterBytes + i * v.clusterBytes := by ring
    have hlarge : v.clusterBytes < size := by
      rw [hstep] at hreached
      omega
    have hrest := ih (x + v.clusterBytes) (show size - v.clusterBytes < fuel + i by omega) (by omega)
    have hbytes := pieceRead_length (v := v) cluster (int32 x) v.clusterBytes
    rw [← Nat.add_assoc, readEntriesLoop_more _ _ _ (Nat.cast_lt.mpr hlarge), int32_int32_add,
      ← Nat.cast_sub hlarge.le, hstep]
    simp only
    rw [← List.drop_drop, List.drop_left' hbytes, hrest, stepOffset_succ, Nat.sub_sub]

theorem readEntries_step (hcb : 1 ≤ v.clusterBytes) (cluster x : ℤ) {i size : ℕ}
    (hreached : i * v.clusterBytes < size) :
    ((readEntries v cluster (int32 x) size).2.drop (i * v.clusterBytes)).take v.clusterBytes =
      pieceRead v cluster (stepOffset v x i) ((min v.clusterBytes (size - i * v.clusterBytes) : ℕ) : ℤ) := by
  have hi : i ≤ i * v.clusterBytes := Nat.le_mul_of_pos_right i hcb
  have hdrop := readEntriesLoop_drop hcb cluster i (size - i + 1) x (by omega) hreached
  rw [show size - i + 1 + i = (size : ℤ).toNat + 1 by omega] at hdrop
  rw [readEntries, hdrop]
  generalize size - i * v.clusterBytes = rest
  by_cases hlarge : v.clusterBytes < rest
  · rw [readEntriesLoop_more _ _ _ (Nat.cast_lt.mpr hlarge), min_eq_left hlarge.le]
    exact List.take_left' (pieceRead_length _ _ _)
  · rw [readEntriesLoop_last _ _ _ (mt Nat.cast_lt.mp hlarge), min_eq_right (not_lt.mp hlarge)]
    exact List.take_of_length_le (by rw [pieceRead_length]; omega)

end

/-- For every volume, every open file and every position: a break at any step of a read is
reported exactly when there was nothing to read. -/
theorem fat16Read_break_iff (v : FatDisk) (d : Fat16Descriptor) (entry : List UInt8) (size : ℤ) (i : ℕ)
    (hentry : d.entry = some entry) (hlo : -2 ^ 31 ≤ size) (hhi : size < 2 ^ 31)
    (hbreak : BreaksAt v (getFirstCluster entry) d.pos size i) : BreakReported v d size i ↔ size = 0 := by
  have hcb := hbreak.divides
  have hread : fat16Read v d size = some ((readEntries v (getFirstCluster entry) (int32 d.pos) size).1,
      (readEntries v (getFirstCluster entry) (int32 d.pos) size).2,
      { d with pos := uint32 (d.pos + (readEntries v (getFirstCluster entry) (int32 d.pos) size).1) }) := by
    rw [fat16Read, hentry]
    rfl
  rcases lt_trichotomy size 0 with hneg | rfl | hpos
  · -- nothing is written, but the position moves back
    rw [readEntries_neg v _ _ hneg] at hread
    refine iff_of_false ?_ hneg.ne
    rintro ⟨res, bytes, d', hread', -, -, hmoved⟩
    rw [hread] at hread'
    cases hread'
    simp only [List.length_nil, Nat.cast_zero] at hmoved
    unfold uint32 at hmoved
    omega
  · obtain ⟨hcount, hlength⟩ := readEntries_count hcb (getFirstCluster entry) (int32 d.pos) 0
    rw [Nat.cast_zero] at hcount hlength
    obtain rfl : i = 0 := by
      rcases hbreak.reached with hi | hi
      · exact hi
      · exact absurd hi (not_lt.mpr (by positivity))
    refine iff_of_true ⟨_, _, _, hread, Or.inr ?_, ?_, ?_⟩ rfl
    · rw [hcount, Nat.cast_zero, zero_mul]
    · rw [hlength, Nat.zero_mul]
    · rw [hcount, hlength, Nat.cast_zero]
  · obtain ⟨n, rfl⟩ : ∃ n : ℕ, size = n := ⟨size.toNat, by omega⟩
    have hcount := (readEntries_count hcb (getFirstCluster entry) (int32 d.pos) n).1
    refine iff_of_false ?_ hpos.ne'
    rintro ⟨res, bytes, d', hread', hres, -, -⟩
    rw [hread] at hread'
    cases hread'
    rw [hcount] at hres
    rcases hbreak.reached with rfl | hi
    · rw [Nat.cast_zero, zero_mul] at hres
      omega
    · omega

/-- A file of 1024 bytes from cluster 2 on, with an empty table and data from sector 97 on. -/
def brokenFile : FatDisk := ⟨⟨fun k => if k < 49664 then 0 else 0x41, fun _ _ => 0⟩, smallVolume⟩

def brokenEntry : List UInt8 :=
  [0x41, 0x20, 0x20, 0x20, 0x20, 0x20, 0x20, 0x20, 0x20, 0x20, 0x20, 0, 0, 0, 0, 0,
    0, 0, 0, 0, 0, 0, 0, 0, 0, 0, 2, 0, 0, 4, 0, 0]

def brokenDescriptor : Fat16Descriptor := ⟨0x01000000, .file 0x01001000 0x01002000 brokenEntry, 0⟩

theorem brokenFile_lookup : getClusterForOffset brokenFile 2 512 = - EIO := by
  have hread : getFatEntry brokenFile 2 = 0 :=
    (getFatEntry_eq brokenFile (c := 2) (by decide) (by decide)).trans (by decide)
  have hcount : ((512 : ℤ).tdiv brokenFile.clusterBytes).toNat = 1 := by decide
  simp only [getClusterForOffset, hcount, clusterWalk, hread, endsChain_zero, if_true]

theorem brokenEntry_cluster : getFirstCluster brokenEntry = 2 := int32_of_bounds (by decide) (by decide)

theorem brokenFile_breaks : BreaksAt brokenFile (getFirstCluster brokenEntry) brokenDescriptor.pos 1024 1 := by
  have hone : stepOffset brokenFile (brokenDescriptor.pos : ℤ) 1 = 512 := int32_of_bounds (by decide) (by decide)
  have hzero : stepOffset brokenFile (brokenDescriptor.pos : ℤ) 0 = 0 := int32_of_bounds (by decide) (by decide)
  refine ⟨by decide, Or.inr (by decide), ?_, fun j hj => ?_⟩
  · rw [brokenEntry_cluster, hone, brokenFile_lookup]
    decide
  · obtain rfl : j = 0 := by omega
    rw [brokenEntry_cluster, hzero]
    decide

/-- A read of no bytes behind the break. -/
theorem fat16Read_break_none : BreakReported brokenFile { brokenDescriptor with pos := 512 } 0 0 := by
  refine (fat16Read_break_iff brokenFile { brokenDescriptor with pos := 512 } brokenEntry 0 0 rfl (by decide)
    (by decide) ⟨by decide, Or.inl rfl, ?_, fun j hj => absurd hj (Nat.not_lt_zero j)⟩).mpr rfl
  have hstep : stepOffset brokenFile ((512 : ℕ) : ℤ) 0 = 512 := int32_of_bounds (by decide) (by decide)
  rw [brokenEntry_cluster, hstep, brokenFile_lookup]
  decide

/-- The chain breaks behind the first cluster. All 1024 bytes are reported as read, and the
second half of them is sector 92, which lies in the root directory. -/
theorem fat16Read_through_break :
    BreaksAt brokenFile (getFirstCluster brokenEntry) brokenDescriptor.pos 1024 1 ∧
      ¬ BreakReported brokenFile brokenDescriptor 1024 1 ∧
      ∃ bytes d', fat16Read brokenFile brokenDescriptor 1024 = some (1024, bytes, d') ∧ d'.pos = 1024 ∧
        bytes.drop 512 = slice brokenFile.disk.image (92 * zhiosDiskSectorSize) 512 := by
  have hsize : ((1024 : ℕ) : ℤ) = 1024 := rfl
  obtain ⟨hcount, hlength⟩ := readEntries_count (v := brokenFile) (by decide) (getFirstCluster brokenEntry)
    (int32 brokenDescriptor.pos) 1024
  rw [hsize] at hcount hlength
  have hread : fat16Read brokenFile brokenDescriptor 1024 = some (1024,
      (readEntries brokenFile (getFirstCluster brokenEntry) (int32 brokenDescriptor.pos) 1024).2,
      { brokenDescriptor with pos := 1024 }) := by
    have hpos : uint32 ((brokenDescriptor.pos : ℤ) + 1024) = 1024 := by
      have hzero : brokenDescriptor.pos = 0 := rfl
      rw [hzero]
      unfold uint32
      omega
    have hentry : brokenDescriptor.entry = some brokenEntry := by decide
    simp only [fat16Read, hentry, Option.map_some, loadEntriesFromCluster, hcount, hpos]
  refine ⟨brokenFile_breaks, ?_, _, _, hread, rfl, ?_⟩
  · rintro ⟨res, bytes, d', hread', hres, -, -⟩
    obtain ⟨rfl, -⟩ := Prod.mk.inj (Option.some.inj (hread.symm.trans hread'))
    rcases hres with hres | hres
    · exact absurd hres (by decide)
    · exact absurd hres (by decide)
  · have hstep := readEntries_step (v := brokenFile) (by decide) (getFirstCluster brokenEntry) brokenDescriptor.pos
      (show 1 * brokenFile.clusterBytes < 1024 by decide)
    have hoffset : stepOffset brokenFile (brokenDescriptor.pos : ℤ) 1 = 512 := int32_of_bounds (by decide) (by decide)
    have hsector : clusterToSector brokenFile.fsPrivate (- EIO) = 92 := int32_of_bounds (by decide) (by decide)
    have hstart : int32 ((92 : ℤ) * zhiosDiskSectorSize + (512 : ℤ).tmod brokenFile.clusterBytes) =
        ((92 * zhiosDiskSectorSize : ℕ) : ℤ) := int32_of_bounds (by decide) (by decide)
    have hpiece : min brokenFile.clusterBytes (1024 - 1 * brokenFile.clusterBytes) = 512 := by decide
    have hdrop : 1 * brokenFile.clusterBytes = 512 := by decide
    have hall : ((readEntries brokenFile (getFirstCluster brokenEntry) (int32 brokenDescriptor.pos) 1024).2.drop
        512).length ≤ brokenFile.clusterBytes := by
      rw [List.length_drop, hlength]
      decide
    rw [hoffset, pieceRead, brokenEntry_cluster, brokenFile_lookup, hsector, hstart, hsize, hpiece, hdrop,
      diskStreamRead_aligned _ (by decide) (by decide), ← brokenEntry_cluster, List.take_of_length_le hall] at hstep
    dsimp only at hstep
    rw [hstep]

end Zhios
