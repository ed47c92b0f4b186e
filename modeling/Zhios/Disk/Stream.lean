import Zhios.Machine.Word
import Zhios.Machine.Memory

/-! Reading the disk byte by byte: `src/disk/disk.c` and `src/disk/stream.c`. A
read copies out of a sector buffer on the stack and does not check that it stays
inside, so the bytes behind the buffer are part of the model. -/
namespace Zhios
open Machine

def zhiosDiskSectorSize : ℕ := 512

/-- The contents of the disk, and what a read at a stream position finds behind
the end of its sector buffer. -/
structure Disk where
  image : Mem
  beyond : ℤ → ℤ → UInt8

def diskReadBlock (d : Disk) (lba i : ℕ) : UInt8 := d.image (zhiosDiskSectorSize * lba + i)

def streamBuffer (d : Disk) (pos i : ℤ) : UInt8 :=
  if 0 ≤ i ∧ i < zhiosDiskSectorSize then
    diskReadBlock d (uint32 (pos.tdiv zhiosDiskSectorSize)) i.toNat
  else d.beyond pos i

/-- The bytes one call copies out of its buffer. -/
def streamChunk (d : Disk) (pos : ℤ) (n : ℕ) : List UInt8 :=
  (List.range n).map fun i : ℕ => streamBuffer d pos (pos.tmod zhiosDiskSectorSize + i)

/-- The recursion of `disk_stream_read` on the bytes left, with the bytes written
to `out` and the position it ends at. -/
def streamRead (d : Disk) : (fuel : ℕ) → (pos total : ℤ) → List UInt8 × ℤ
  | 0, pos, _ => ([], pos)
  | fuel + 1, pos, total =>
    if total ≤ 0 then ([], pos)
    else
      let totalToRead := if zhiosDiskSectorSize < total then (zhiosDiskSectorSize : ℤ) else total
      let chunk := streamChunk d pos totalToRead.toNat
      let pos := int32 (pos + totalToRead)
      if zhiosDiskSectorSize < total then
        let r := streamRead d fuel pos (total - zhiosDiskSectorSize)
        (chunk ++ r.1, r.2)
      else (chunk, pos)

/-- The controller never reports an error, so neither does a read: the bytes
written and the new position. -/
def diskStreamRead (d : Disk) (pos total : ℤ) : List UInt8 × ℤ := streamRead d total.toNat pos total

theorem diskStreamRead_zero (d : Disk) (pos : ℤ) : diskStreamRead d pos 0 = ([], pos) := rfl

/-- Inside one sector the buffer holds the disk's bytes. -/
theorem streamChunk_eq (d : Disk) {pos n : ℕ} (h : pos % 512 + n ≤ 512) (hpos : pos < 2 ^ 31) :
    streamChunk d pos n = slice d.image pos n := by
  rw [streamChunk, slice]
  apply List.map_congr_left
  intro i hi
  have hi := List.mem_range.mp hi
  have hdiv : (pos : ℤ).tdiv zhiosDiskSectorSize = ((pos / 512 : ℕ) : ℤ) := by
    rw [zhiosDiskSectorSize, Int.tdiv_eq_ediv_of_nonneg (by omega)]
    rfl
  have hmod : (pos : ℤ).tmod zhiosDiskSectorSize = ((pos % 512 : ℕ) : ℤ) := by
    rw [zhiosDiskSectorSize, Int.tmod_eq_emod_of_nonneg (by omega)]
    rfl
  have hsector : uint32 ((pos / 512 : ℕ) : ℤ) = pos / 512 := by
    have := uint32_of_bounds (x := ((pos / 512 : ℕ) : ℤ)) (by positivity) (by omega)
    omega
  rw [streamBuffer, hmod, if_pos (by unfold zhiosDiskSectorSize; omega), hdiv, hsector, diskReadBlock]
  congr 1
  unfold zhiosDiskSectorSize
  omega

section
variable (d : Disk) (fuel : ℕ)

theorem streamRead_last (pos : ℤ) {n : ℕ} (hn : 1 ≤ n) (h : n ≤ 512) :
    streamRead d (fuel + 1) pos n = (streamChunk d pos n, int32 (pos + n)) := by
  have hsmall : ¬ (zhiosDiskSectorSize : ℤ) < n := by unfold zhiosDiskSectorSize; omega
  have hpositive : ¬ (n : ℤ) ≤ 0 := by omega
  simp only [streamRead, if_neg hsmall, if_neg hpositive, Int.toNat_natCast]

theorem streamRead_more (pos : ℤ) {n : ℕ} (h : 512 < n) :
    streamRead d (fuel + 1) pos n =
      let r := streamRead d fuel (int32 (pos + (512 : ℕ))) ((n - 512 : ℕ) : ℤ)
      (streamChunk d pos 512 ++ r.1, r.2) := by
  have hlarge : (zhiosDiskSectorSize : ℤ) < n := by unfold zhiosDiskSectorSize; omega
  have hpositive : ¬ (n : ℤ) ≤ 0 := by omega
  have hrest : (n : ℤ) - zhiosDiskSectorSize = ((n - 512 : ℕ) : ℤ) := by
    unfold zhiosDiskSectorSize
    omega
  simp only [streamRead, if_pos hlarge, if_neg hpositive, hrest]
  rfl

/-- The position a call leaves, without overflow. -/
theorem int32_add_natCast {pos n : ℕ} (h : pos + n < 2 ^ 31) : int32 ((pos : ℤ) + n) = ((pos + n : ℕ) : ℤ) := by
  rw [int32_of_bounds (by omega) (by omega), Nat.cast_add]

theorem diskStreamRead_within {pos n : ℕ} (hn : 1 ≤ n) (h : pos % 512 + n ≤ 512) (hpos : pos + n < 2 ^ 31) :
    diskStreamRead d pos n = (slice d.image pos n, ((pos + n : ℕ) : ℤ)) := by
  obtain ⟨m, rfl⟩ : ∃ m, n = m + 1 := ⟨n - 1, by omega⟩
  rw [diskStreamRead, Int.toNat_natCast, streamRead_last d m pos hn (by omega), streamChunk_eq d h (by omega),
    int32_add_natCast hpos]

/-- A read ends behind what it has read, wherever it starts. -/
theorem streamRead_pos (pos n : ℕ) (hfuel : n ≤ fuel) (hpos : pos + n < 2 ^ 31) :
    (streamRead d fuel pos n).2 = ((pos + n : ℕ) : ℤ) := by
  induction fuel generalizing pos n with
  | zero =>
    obtain rfl : n = 0 := by omega
    rfl
  | succ fuel ih =>
    rcases Nat.eq_zero_or_pos n with rfl | hn
    · rfl
    rcases le_or_gt n 512 with hlast | hmore
    · rw [streamRead_last d fuel pos hn hlast, int32_add_natCast hpos]
    · rw [streamRead_more d fuel pos hmore, int32_add_natCast (by omega)]
      dsimp only
      rw [ih (pos + 512) (n - 512) (by omega) (by omega), Nat.add_assoc, Nat.add_sub_cancel' hmore.le]

theorem streamRead_length (pos : ℤ) (n : ℕ) (hfuel : n ≤ fuel) : (streamRead d fuel pos n).1.length = n := by
  induction fuel generalizing pos n with
  | zero =>
    obtain rfl : n = 0 := by omega
    rfl
  | succ fuel ih =>
    rcases Nat.eq_zero_or_pos n with rfl | hn
    · rfl
    rcases le_or_gt n 512 with hlast | hmore
    · rw [streamRead_last d fuel pos hn hlast, streamChunk, List.length_map, List.length_range]
    · rw [streamRead_more d fuel pos hmore]
      dsimp only
      rw [List.length_append, ih _ (n - 512) (by omega), streamChunk, List.length_map, List.length_range]
      omega

/-- The byte of the disk at a position of a stream: a negative one leads to one of the last
sectors that an unsigned number can name. -/
def diskByte (x : ℤ) : UInt8 :=
  diskReadBlock d (uint32 ((int32 (x - x % zhiosDiskSectorSize)).tdiv zhiosDiskSectorSize))
    (x % zhiosDiskSectorSize).toNat

theorem diskByte_eq {x : ℕ} (hx : x < 2 ^ 31) : diskByte d x = d.image x := by
  have hstart : int32 ((x : ℤ) - x % zhiosDiskSectorSize) = ((512 * (x / 512) : ℕ) : ℤ) := by
    unfold zhiosDiskSectorSize
    rw [int32_of_bounds] <;> omega
  have hdiv : ((512 * (x / 512) : ℕ) : ℤ).tdiv zhiosDiskSectorSize = ((x / 512 : ℕ) : ℤ) := by
    rw [zhiosDiskSectorSize, Int.tdiv_eq_ediv_of_nonneg (by omega)]
    omega
  have hsector : uint32 ((x / 512 : ℕ) : ℤ) = x / 512 := by
    have := uint32_of_bounds (x := ((x / 512 : ℕ) : ℤ)) (by positivity) (by omega)
    omega
  rw [diskByte, hstart, hdiv, hsector, diskReadBlock]
  congr 1
  unfold zhiosDiskSectorSize
  omega

/-- A call that starts at a sector, which may have a negative number. -/
theorem streamChunk_sector {x : ℤ} (hx : x % 512 = 0) {n : ℕ} (hn : n ≤ 512) :
    streamChunk d (int32 x) n = (List.range n).map fun i : ℕ => diskByte d (x + i) := by
  apply List.map_congr_left
  intro i hi
  have hi := List.mem_range.mp hi
  have hmod : (int32 x).tmod zhiosDiskSectorSize = 0 := by
    have hdvd : (512 : ℤ) ∣ int32 x := by
      unfold int32
      omega
    exact Int.tmod_eq_zero_of_dvd hdvd
  have hoffset : (x + i) % zhiosDiskSectorSize = i := by
    unfold zhiosDiskSectorSize
    omega
  rw [streamBuffer, hmod, if_pos (by unfold zhiosDiskSectorSize; omega), diskByte, hoffset, zero_add,
    add_sub_cancel_right]

/-- From the start of a sector a read delivers the disk's bytes, whatever the position wraps to. -/
theorem streamRead_sector (x : ℤ) (n : ℕ) (hfuel : n ≤ fuel) (hx : x % 512 = 0) :
    (streamRead d fuel (int32 x) n).1 = (List.range n).map fun i : ℕ => diskByte d (x + i) := by
  induction fuel generalizing x n with
  | zero =>
    obtain rfl : n = 0 := by omega
    rfl
  | succ fuel ih =>
    rcases Nat.eq_zero_or_pos n with rfl | hn
    · rfl
    rcases le_or_gt n 512 with hlast | hmore
    · rw [streamRead_last d fuel _ hn hlast]
      exact streamChunk_sector d hx hlast
    · have hsplit : List.range n = List.range 512 ++ (List.range (n - 512)).map (512 + ·) := by
        rw [← List.range_add, Nat.add_sub_cancel' hmore.le]
      rw [streamRead_more d fuel _ hmore, int32_int32_add]
      dsimp only
      rw [ih (x + (512 : ℕ)) (n - 512) (by omega) (by omega), streamChunk_sector d hx le_rfl, hsplit, List.map_append,
        List.map_map]
      simp only [Function.comp_def, Nat.cast_add, add_assoc]

theorem streamRead_aligned (pos n : ℕ) (hfuel : n ≤ fuel) (h : pos % 512 = 0) (hpos : pos + n < 2 ^ 31) :
    (streamRead d fuel pos n).1 = slice d.image pos n := by
  have hread := streamRead_sector d fuel pos n hfuel (by omega)
  rw [int32_of_bounds (by omega) (by omega)] at hread
  rw [hread, slice]
  apply List.map_congr_left
  intro i hi
  have hi := List.mem_range.mp hi
  rw [← Nat.cast_add, diskByte_eq d (by omega)]

theorem diskStreamRead_pos {pos n : ℕ} (hpos : pos + n < 2 ^ 31) :
    (diskStreamRead d pos n).2 = ((pos + n : ℕ) : ℤ) := streamRead_pos d _ pos n (by simp) hpos

theorem diskStreamRead_aligned {pos n : ℕ} (h : pos % 512 = 0) (hpos : pos + n < 2 ^ 31) :
    diskStreamRead d pos n = (slice d.image pos n, ((pos + n : ℕ) : ℤ)) :=
  Prod.ext (streamRead_aligned d _ pos n (by simp) h hpos) (diskStreamRead_pos d hpos)

end

/-- The buffer accesses of a read, each with the position of the call that makes it. -/
def streamAccesses : (fuel : ℕ) → (pos total : ℤ) → List (ℤ × ℤ)
  | 0, _, _ => []
  | fuel + 1, pos, total =>
    if total ≤ 0 then []
    else
      let totalToRead := if zhiosDiskSectorSize < total then (zhiosDiskSectorSize : ℤ) else total
      let chunk := (List.range totalToRead.toNat).map fun i : ℕ => (pos, pos.tmod zhiosDiskSectorSize + i)
      let pos := int32 (pos + totalToRead)
      if zhiosDiskSectorSize < total then chunk ++ streamAccesses fuel pos (total - zhiosDiskSectorSize)
      else chunk

def diskStreamAccesses (pos total : ℤ) : List (ℤ × ℤ) := streamAccesses total.toNat pos total

/-- The read delivers the disk's bytes, stays inside its buffer and moves the
position past what it read. -/
structure ReadsDisk (d : Disk) (pos total : ℕ) : Prop where
  bytes : (diskStreamRead d pos total).1 = slice d.image pos total
  inside : ∀ a ∈ diskStreamAccesses pos total, 0 ≤ a.2 ∧ a.2 < zhiosDiskSectorSize
  pos_eq : (diskStreamRead d pos total).2 = ((pos + total : ℕ) : ℤ)

/-- The first call alone reaches `buffer[512]` when it starts inside a sector and
has more to read than is left of it. -/
theorem diskStreamAccesses_past_end {pos total : ℕ} (hpos : pos % 512 ≠ 0) (htotal : 512 < pos % 512 + total) :
    ((pos : ℤ), (512 : ℤ)) ∈ diskStreamAccesses pos total := by
  obtain ⟨fuel, hfuel⟩ : ∃ fuel, total = fuel + 1 := ⟨total - 1, by omega⟩
  have hmod : (pos : ℤ).tmod zhiosDiskSectorSize = ((pos % 512 : ℕ) : ℤ) := by
    rw [zhiosDiskSectorSize, Int.tmod_eq_emod_of_nonneg (by omega)]
    rfl
  have hpositive : ¬ (total : ℤ) ≤ 0 := by omega
  have hchunk : ∀ n : ℕ, 512 - pos % 512 < n →
      ((pos : ℤ), (512 : ℤ)) ∈ (List.range n).map fun i : ℕ => ((pos : ℤ), ((pos % 512 : ℕ) : ℤ) + i) := by
    intro n hn
    apply List.mem_map.mpr
    exact ⟨512 - pos % 512, List.mem_range.mpr hn, by rw [Prod.mk.injEq]; exact ⟨rfl, by omega⟩⟩
  have hlt := Nat.mod_lt pos (show 0 < 512 by decide)
  rw [diskStreamAccesses, Int.toNat_natCast, hfuel, streamAccesses, ← hfuel, if_neg hpositive, hmod]
  by_cases hlarge : (zhiosDiskSectorSize : ℤ) < total
  · simp only [if_pos hlarge]
    exact List.mem_append_left _ (hchunk _ (by unfold zhiosDiskSectorSize; omega))
  · simp only [if_neg hlarge]
    exact hchunk _ (by omega)

/-- From the start of a sector every call stays inside its buffer. -/
theorem streamAccesses_aligned (fuel pos n : ℕ) (h : pos % 512 = 0) (hpos : pos + n < 2 ^ 31) :
    ∀ a ∈ streamAccesses fuel pos n, 0 ≤ a.2 ∧ a.2 < zhiosDiskSectorSize := by
  induction fuel generalizing pos n with
  | zero => simp [streamAccesses]
  | succ fuel ih =>
    have hmod : (pos : ℤ).tmod zhiosDiskSectorSize = 0 := by
      rw [zhiosDiskSectorSize, Int.tmod_eq_emod_of_nonneg (by omega)]
      omega
    have hchunk : ∀ m : ℕ, m ≤ 512 →
        ∀ a ∈ (List.range m).map fun i : ℕ => ((pos : ℤ), 0 + (i : ℤ)), 0 ≤ a.2 ∧ a.2 < zhiosDiskSectorSize := by
      intro m hm a ha
      obtain ⟨i, hi, rfl⟩ := List.mem_map.mp ha
      have hi := List.mem_range.mp hi
      unfold zhiosDiskSectorSize
      simp only
      omega
    intro a ha
    rw [streamAccesses, hmod] at ha
    split_ifs at ha with hzero hlarge
    · simp at ha
    · have hsector : 512 < n := by unfold zhiosDiskSectorSize at hlarge; omega
      have hnext : int32 ((pos : ℤ) + (zhiosDiskSectorSize : ℤ)) = ((pos + 512 : ℕ) : ℤ) := by
        rw [int32_of_bounds] <;> unfold zhiosDiskSectorSize <;> omega
      have hrest : (n : ℤ) - zhiosDiskSectorSize = ((n - 512 : ℕ) : ℤ) := by
        unfold zhiosDiskSectorSize
        omega
      dsimp only at ha
      rw [hnext, hrest] at ha
      rcases List.mem_append.mp ha with ha | ha
      · exact hchunk _ (by decide) a ha
      · exact ih (pos + 512) (n - 512) (by omega) (by omega) a ha
    · exact hchunk _ (by unfold zhiosDiskSectorSize at hlarge; omega) a ha

/-- Inside one sector the only call stays inside its buffer. -/
theorem diskStreamAccesses_within {pos n : ℕ} (h : pos % 512 + n ≤ 512) :
    ∀ a ∈ diskStreamAccesses pos n, 0 ≤ a.2 ∧ a.2 < zhiosDiskSectorSize := by
  have hmod : (pos : ℤ).tmod zhiosDiskSectorSize = ((pos % 512 : ℕ) : ℤ) := by
    rw [zhiosDiskSectorSize, Int.tmod_eq_emod_of_nonneg (by omega)]
    rfl
  intro a ha
  rcases Nat.eq_zero_or_pos n with rfl | hn
  · simp [diskStreamAccesses, streamAccesses] at ha
  obtain ⟨m, rfl⟩ : ∃ m, n = m + 1 := ⟨n - 1, by omega⟩
  have hsmall : ¬ (zhiosDiskSectorSize : ℤ) < ((m + 1 : ℕ) : ℤ) := by unfold zhiosDiskSectorSize; omega
  have hpositive : ¬ ((m + 1 : ℕ) : ℤ) ≤ 0 := by omega
  rw [diskStreamAccesses, Int.toNat_natCast, streamAccesses, if_neg hpositive, hmod] at ha
  simp only [if_neg hsmall, Int.toNat_natCast] at ha
  obtain ⟨i, hi, rfl⟩ := List.mem_map.mp ha
  have hi := List.mem_range.mp hi
  unfold zhiosDiskSectorSize
  simp only
  omega

/-- A read is right exactly when it starts at a sector boundary or ends within the
sector it starts in. -/
theorem diskStreamRead_readsDisk_iff (d : Disk) (pos total : ℕ) (hpos : pos + total < 2 ^ 31) :
    ReadsDisk d pos total ↔ pos % 512 = 0 ∨ pos % 512 + total ≤ 512 := by
  constructor
  · intro h
    by_contra hout
    push Not at hout
    have hlast := (h.inside _ (diskStreamAccesses_past_end hout.1 hout.2)).2
    exact absurd hlast (lt_irrefl _)
  · rintro (haligned | hwithin)
    · have hread := diskStreamRead_aligned d haligned hpos
      exact ⟨by rw [hread], streamAccesses_aligned _ pos total haligned hpos, by rw [hread]⟩
    · rcases Nat.eq_zero_or_pos total with rfl | htotal
      · have hread : diskStreamRead d pos ((0 : ℕ) : ℤ) = ([], (pos : ℤ)) := diskStreamRead_zero d pos
        exact ⟨by rw [hread]; rfl, diskStreamAccesses_within hwithin, by rw [hread, Nat.add_zero]⟩
      · have hread := diskStreamRead_within d htotal hwithin hpos
        exact ⟨by rw [hread], diskStreamAccesses_within hwithin, by rw [hread]⟩

theorem diskStreamRead_readsDisk_sectors : ReadsDisk ⟨fun a => UInt8.ofNat a, fun _ _ => 1⟩ 1024 3000 :=
  (diskStreamRead_readsDisk_iff _ 1024 3000 (by decide)).mpr (Or.inl (by decide))

/-- Four bytes across the end of a sector: the last two come from behind the buffer. -/
theorem diskStreamRead_straddles :
    ((510 : ℤ), (512 : ℤ)) ∈ diskStreamAccesses (510 : ℕ) (4 : ℕ) ∧
      ¬ ReadsDisk ⟨fun _ => 0, fun _ _ => 1⟩ 510 4 := by
  have hpast := diskStreamAccesses_past_end (show 510 % 512 ≠ 0 by decide) (show 512 < 510 % 512 + 4 by decide)
  exact ⟨hpast, fun h => absurd (h.inside _ hpast).2 (by decide)⟩

end Zhios
