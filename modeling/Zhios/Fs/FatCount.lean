import Zhios.Fs.Fat16
import Mathlib.Order.Bounds.Basic

/-! The counting loop over the slots of a directory. It knows no end but the first empty
slot, wherever that is, and the slots are what the stream reads one after the other. -/
namespace Zhios
open Machine

/-- The first byte of slot `j` behind the position `x`, as the stream reads it. -/
def slotBytes (d : Disk) (x : ℤ) (j : ℕ) : UInt8 :=
  (diskStreamRead d (int32 (x + fat16EntrySize * j)) fat16EntrySize).1.getD 0 0

def EndsAt (b : ℕ → UInt8) (n : ℕ) : Prop := IsLeast {j | b j = 0x00} n

def liveSlots (b : ℕ → UInt8) (n : ℕ) : ℕ := (List.range n).countP fun j => b j != 0xE5

def deletedSlots (b : ℕ → UInt8) (n : ℕ) : ℕ := (List.range n).countP fun j => b j == 0xE5

namespace EndsAt
variable {b : ℕ → UInt8} {m n : ℕ}

theorem unique (h : EndsAt b m) (h' : EndsAt b n) : m = n := IsLeast.unique h h'

theorem zero_iff : EndsAt b 0 ↔ b 0 = 0x00 := ⟨fun h => h.1, fun h => ⟨h, fun _ _ => Nat.zero_le _⟩⟩

theorem succ_iff (h : b 0 ≠ 0x00) : EndsAt b (n + 1) ↔ EndsAt (fun j => b (j + 1)) n := by
  constructor
  · rintro ⟨hempty, hleast⟩
    exact ⟨hempty, fun j hj => Nat.le_of_succ_le_succ (hleast (show b (j + 1) = 0x00 from hj))⟩
  · rintro ⟨hempty, hleast⟩
    refine ⟨hempty, fun j hj => ?_⟩
    cases j with
    | zero => exact absurd hj h
    | succ j => exact Nat.succ_le_succ (hleast (show b (j + 1) = 0x00 from hj))

theorem of_zero (h : EndsAt b n) (h0 : b 0 = 0x00) : n = 0 := h.unique (zero_iff.mpr h0)

theorem one (h0 : b 0 ≠ 0x00) (h1 : b 1 = 0x00) : EndsAt b 1 := (succ_iff h0).mpr (zero_iff.mpr h1)

theorem exists_le (h : b m = 0x00) : ∃ n ≤ m, EndsAt b n :=
  ⟨Nat.find ⟨m, h⟩, Nat.find_min' ⟨m, h⟩ h, Nat.find_spec ⟨m, h⟩, fun _ hj => Nat.find_min' ⟨m, h⟩ hj⟩

end EndsAt

theorem deletedSlots_add_liveSlots (b : ℕ → UInt8) (n : ℕ) : deletedSlots b n + liveSlots b n = n := by
  have hsplit := List.length_eq_countP_add_countP (fun j => b j == 0xE5) (l := List.range n)
  simp only [List.length_range, Bool.not_eq_true, Bool.decide_eq_false] at hsplit
  exact hsplit.symm

theorem liveSlots_le (b : ℕ → UInt8) (n : ℕ) : liveSlots b n ≤ n := by
  have := deletedSlots_add_liveSlots b n
  omega

theorem liveSlots_succ (b : ℕ → UInt8) (n : ℕ) :
    liveSlots b (n + 1) = (if b 0 = 0xE5 then 0 else 1) + liveSlots (fun j => b (j + 1)) n := by
  simp only [liveSlots, List.range_succ_eq_map, List.countP_cons, List.countP_map, Function.comp_def,
    Nat.succ_eq_add_one, bne_iff_ne, ne_eq, ite_not]
  exact Nat.add_comm _ _

theorem liveSlots_congr {b b' : ℕ → UInt8} {n : ℕ} (h : ∀ j < n, b j = b' j) : liveSlots b n = liveSlots b' n := by
  apply List.countP_congr
  intro j hj
  rw [h j (List.mem_range.mp hj)]

theorem EndsAt.congr {b b' : ℕ → UInt8} {n : ℕ} (h : EndsAt b n) (hsame : ∀ j ≤ n, b j = b' j) : EndsAt b' n := by
  refine ⟨(hsame n le_rfl).symm.trans h.1, fun j hj => ?_⟩
  by_contra hlt
  push Not at hlt
  exact absurd (h.2 (show b j = 0x00 from (hsame j hlt.le).trans hj)) (by omega)

theorem slotRead_pos (d : Disk) (pos : ℤ) :
    (diskStreamRead d pos fat16EntrySize).2 = int32 (pos + fat16EntrySize) := rfl

theorem slotBytes_succ (d : Disk) (x : ℤ) (j : ℕ) :
    slotBytes d x (j + 1) = slotBytes d (x + fat16EntrySize) j := by
  rw [slotBytes, slotBytes]
  congr 3
  push_cast
  ring_nf

/-- The loop ends exactly when there is an empty slot, and then with the number of slots in
front of it that are not deleted. -/
theorem countEntries_eq_some_iff (d : Disk) (fuel : ℕ) (x : ℤ) (i t : ℕ) :
    countEntries d fuel (int32 x) i = some t ↔
      ∃ n < fuel, EndsAt (slotBytes d x) n ∧ t = i + liveSlots (slotBytes d x) n := by
  induction fuel generalizing x i with
  | zero => simp [countEntries]
  | succ fuel ih =>
    have hfirst : (diskStreamRead d (int32 x) fat16EntrySize).1.getD 0 0 = slotBytes d x 0 := by
      rw [slotBytes, Nat.cast_zero, mul_zero, add_zero]
    have hshift : (fun j => slotBytes d x (j + 1)) = slotBytes d (x + fat16EntrySize) :=
      funext fun j => slotBytes_succ d x j
    simp only [countEntries, hfirst, slotRead_pos, int32_int32_add]
    by_cases hempty : slotBytes d x 0 = 0x00
    · rw [if_pos hempty, Option.some.injEq]
      constructor
      · rintro rfl
        exact ⟨0, Nat.succ_pos _, EndsAt.zero_iff.mpr hempty, rfl⟩
      · rintro ⟨n, -, hends, rfl⟩
        rw [hends.of_zero hempty]
        rfl
    · -- the loop goes on behind the first slot
      have hstep : ∀ c, countEntries d fuel (int32 (x + fat16EntrySize)) c = some t ↔
          ∃ n < fuel, EndsAt (slotBytes d x) (n + 1) ∧ t = c + liveSlots (slotBytes d (x + fat16EntrySize)) n := by
        intro c
        rw [ih]
        simp only [EndsAt.succ_iff hempty, hshift]
      have hall : (∃ n < fuel + 1, EndsAt (slotBytes d x) n ∧ t = i + liveSlots (slotBytes d x) n) ↔
          ∃ n < fuel, EndsAt (slotBytes d x) (n + 1) ∧ t = i + liveSlots (slotBytes d x) (n + 1) := by
        constructor
        · rintro ⟨n, hn, hends, ht⟩
          cases n with
          | zero => exact absurd hends.1 hempty
          | succ n => exact ⟨n, Nat.lt_of_succ_lt_succ hn, hends, ht⟩
        · rintro ⟨n, hn, hends, ht⟩
          exact ⟨n + 1, Nat.succ_lt_succ hn, hends, ht⟩
      rw [if_neg hempty, hall]
      simp only [liveSlots_succ, hshift]
      split_ifs with hdeleted
      · simp only [hstep, Nat.zero_add]
      · simp only [hstep, Nat.add_assoc]

/-- Below 2 GiB a slot that does not cross a sector is read as it is on the disk. -/
theorem slotBytes_image (d : Disk) {pos j : ℕ} (haligned : pos % fat16EntrySize = 0)
    (hbelow : pos + fat16EntrySize * j < 2 ^ 31) : slotBytes d pos j = d.image (pos + fat16EntrySize * j) := by
  have hpos : int32 ((pos : ℤ) + fat16EntrySize * j) = ((pos + fat16EntrySize * j : ℕ) : ℤ) := by
    have hnonneg : (0 : ℤ) ≤ pos + fat16EntrySize * j := by positivity
    rw [int32_of_bounds (by linarith) (by exact_mod_cast hbelow)]
    push_cast
    rfl
  have hchunk : streamChunk d ((pos + fat16EntrySize * j : ℕ) : ℤ) fat16EntrySize =
      slice d.image (pos + fat16EntrySize * j) fat16EntrySize :=
    streamChunk_eq d (by unfold fat16EntrySize at *; omega) hbelow
  have hread : (diskStreamRead d ((pos + fat16EntrySize * j : ℕ) : ℤ) fat16EntrySize).1 =
      streamChunk d ((pos + fat16EntrySize * j : ℕ) : ℤ) fat16EntrySize := rfl
  rw [slotBytes, hpos, hread, hchunk]
  rfl

/-- For every disk and every start sector behind which there is an empty slot below 2 GiB:
the count ends, with the number of slots in front of the first empty one that are not
deleted. -/
theorem getTotalEntriesForDirectory_count (d : Disk) (startSector : ℕ)
    (h : ∃ j, zhiosDiskSectorSize * startSector + fat16EntrySize * j < 2 ^ 31 ∧
      d.image (zhiosDiskSectorSize * startSector + fat16EntrySize * j) = 0x00) :
    ∃ n, EndsAt (fun j => d.image (zhiosDiskSectorSize * startSector + fat16EntrySize * j)) n ∧
      getTotalEntriesForDirectory d startSector =
        some (liveSlots (fun j => d.image (zhiosDiskSectorSize * startSector + fat16EntrySize * j)) n) := by
  obtain ⟨j, hbelow, hempty⟩ := h
  obtain ⟨n, hnj, hends⟩ :=
    EndsAt.exists_le (b := fun j => d.image (zhiosDiskSectorSize * startSector + fat16EntrySize * j)) hempty
  have hread : ∀ i ≤ n, d.image (zhiosDiskSectorSize * startSector + fat16EntrySize * i) =
      slotBytes d ((startSector : ℤ) * zhiosDiskSectorSize) i := by
    intro i hi
    have hstart : (startSector : ℤ) * zhiosDiskSectorSize = ((zhiosDiskSectorSize * startSector : ℕ) : ℤ) := by
      push_cast
      ring
    rw [hstart]
    refine (slotBytes_image d ?_ ?_).symm
    · unfold zhiosDiskSectorSize fat16EntrySize
      omega
    · unfold fat16EntrySize at hbelow ⊢
      omega
  refine ⟨n, hends, ?_⟩
  rw [getTotalEntriesForDirectory, countEntries_eq_some_iff]
  refine ⟨n, ?_, hends.congr hread, ?_⟩
  · unfold fat16EntrySize at hbelow
    omega
  · rw [Nat.zero_add]
    exact liveSlots_congr fun i hi => hread i hi.le

/-- A directory at sector 1 whose first slot is deleted and whose next two are in use. -/
theorem getTotalEntriesForDirectory_two : getTotalEntriesForDirectory
    ⟨fun k => if k = 512 then 0xE5 else if k = 544 ∨ k = 576 then 0x41 else 0, fun _ _ => 0⟩ (1 : ℕ) = some 2 := by
  obtain ⟨n, hends, htotal⟩ := getTotalEntriesForDirectory_count
    ⟨fun k => if k = 512 then 0xE5 else if k = 544 ∨ k = 576 then 0x41 else 0, fun _ _ => 0⟩ 1 ⟨3, by decide, by decide⟩
  have hthree : EndsAt (fun j =>
      (fun k : ℕ => if k = 512 then (0xE5 : UInt8) else if k = 544 ∨ k = 576 then 0x41 else 0)
        (zhiosDiskSectorSize * 1 + fat16EntrySize * j)) 3 := by
    refine ⟨by decide, fun j hj => ?_⟩
    by_contra hlt
    push Not at hlt
    interval_cases j <;> exact absurd hj (by decide)
  obtain rfl := hends.unique hthree
  rw [htotal]
  decide

end Zhios
