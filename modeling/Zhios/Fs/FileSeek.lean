import Zhios.Fs.FilePosition

/-! Seeks relative to the current position. `fseek` adds the offset to a zero of its own and
not to the position, so that `SEEK_CURRENT` does what `SEEK_BEGIN` does. -/
namespace Zhios
open Machine

/-- A call that moves the position of an open file. -/
inductive FileMove
  | seekBegin (offset : ℤ)
  | seekCurrent (offset : ℤ)
  | read (buffer : ℕ) (size : ℤ) (hint : -2 ^ 31 ≤ size)

def InFile (n : ℕ) (target : ℤ) : Prop := 0 ≤ target ∧ target < n

instance (n : ℕ) (target : ℤ) : Decidable (InFile n target) := inferInstanceAs (Decidable (_ ∧ _))

/-- A seek to `target` from position `p` of a file of `n` bytes, with its result. -/
def SeeksTo (n p : ℕ) (target res : ℤ) (p' : ℕ) : Prop :=
  if InFile n target then res = 0 ∧ (p' : ℤ) = target else res < 0 ∧ p' = p

namespace FileMove

def call (s : FileState) (fd : ℤ) : FileMove → Option (ℤ × FileState)
  | seekBegin offset => fseek s fd offset .seekBegin
  | seekCurrent offset => fseek s fd offset .seekCurrent
  | read buffer size _ => fread s fd buffer size

/-- What the call owes at position `p`. A relative seek adds to the position, and so does a
read what it returns. -/
def Owes (n p : ℕ) (res : ℤ) (p' : ℕ) : FileMove → Prop
  | seekBegin offset => SeeksTo n p offset res p'
  | seekCurrent offset => SeeksTo n p (p + offset) res p'
  | read _ _ _ => (p' : ℤ) = p + max res 0

/-- The sum so far with the move added, where the last `SEEK_BEGIN` starts it anew. -/
def addTo (n p : ℕ) : FileMove → ℕ
  | seekBegin offset => if InFile n offset then offset.toNat else p
  | seekCurrent offset => if InFile n (p + offset) then (p + offset).toNat else p
  | read _ size _ => p + size.toNat

/-- A relative seek is at the start of the file, or out of it with its offset as well. No
negative offset is as an unsigned number inside the file. -/
def Meets (n p : ℕ) : FileMove → Prop
  | seekBegin offset => InFile n offset ∨ n ≤ uint32 offset
  | seekCurrent offset => (p = 0 ∧ InFile n offset) ∨ (¬ InFile n (p + offset) ∧ n ≤ uint32 offset)
  | read _ size _ => 0 ≤ size ∧ p + size < 2 ^ 32

end FileMove

/-- Every call of the sequence does what it owes, and the next one starts at the sum. -/
def FollowsMoves (fd : ℤ) (v : FatDisk) (entry : List UInt8) : List FileMove → FileState → ℕ → Prop
  | [], s, p => s.OpenAt fd v entry p
  | m :: ms, s, p => ∃ res s', m.call s fd = some (res, s') ∧
      m.Owes (fileSize entry) p res (m.addTo (fileSize entry) p) ∧
      s'.OpenAt fd v entry (m.addTo (fileSize entry) p) ∧
      FollowsMoves fd v entry ms s' (m.addTo (fileSize entry) p)

/-- Every call of the sequence meets its condition at the sum of those before it. -/
def MovesMeet (n : ℕ) : List FileMove → ℕ → Prop
  | [], _ => True
  | m :: ms, p => m.Meets n p ∧ MovesMeet n ms (m.addTo n p)

section
variable {s s' : FileState} {fd : ℤ} {v : FatDisk} {entry : List UInt8} {p : ℕ}

theorem InFile.toNat {n : ℕ} {target : ℤ} (h : InFile n target) : (target.toNat : ℤ) = target :=
  Int.toNat_of_nonneg h.1

theorem InFile.lt {n : ℕ} {target : ℤ} (h : InFile n target) : target.toNat < n := by
  have := h.toNat
  have := h.2
  omega

theorem FileMove.addTo_lt {m : FileMove} (hp : p < 2 ^ 32) (h : m.Meets (fileSize entry) p) :
    m.addTo (fileSize entry) p < 2 ^ 32 := by
  have hsize := fileSize_lt entry
  cases m with
  | seekBegin offset =>
    rw [addTo]
    split_ifs with hin
    · exact hin.lt.trans hsize
    · exact hp
  | seekCurrent offset =>
    rw [addTo]
    split_ifs with hin
    · exact hin.lt.trans hsize
    · exact hp
  | read buffer size hint =>
    obtain ⟨h0, hlt⟩ := h
    rw [addTo]
    omega

/-- A seek reaches its target exactly when the offset is the target, or neither lies in
the file. -/
theorem FileState.OpenAt.seeksTo_iff (h : s.OpenAt fd v entry p) (offset target : ℤ) {mode : FileSeekMode}
    (hmode : mode ≠ .seekEnd) :
    (∃ res s', Zhios.fseek s fd offset mode = some (res, s') ∧
        SeeksTo (fileSize entry) p target res (if InFile (fileSize entry) target then target.toNat else p) ∧
        s'.OpenAt fd v entry (if InFile (fileSize entry) target then target.toNat else p)) ↔
      if InFile (fileSize entry) target then (uint32 offset : ℤ) = target else fileSize entry ≤ uint32 offset := by
  obtain ⟨t, hcall, hafter⟩ := h.seek offset hmode
  unfold SeeksTo
  by_cases hin : InFile (fileSize entry) target
  · simp only [if_pos hin]
    constructor
    · rintro ⟨res, s', hcall', ⟨hzero, -⟩, hopen⟩
      obtain ⟨rfl, rfl⟩ := Prod.mk.inj (Option.some.inj (hcall.symm.trans hcall'))
      have hlt : ¬ fileSize entry ≤ uint32 offset := fun hle => by
        rw [if_pos hle] at hzero
        exact absurd hzero (by decide)
      rw [if_neg hlt] at hafter
      rw [hafter.pos_eq hopen, hin.toNat]
    · intro heq
      have hlt : ¬ fileSize entry ≤ uint32 offset := by
        have := hin.2
        omega
      rw [if_neg hlt] at hcall hafter
      have hpos : target.toNat = uint32 offset := by rw [← heq, Int.toNat_natCast]
      exact ⟨0, t, hcall, ⟨rfl, hin.toNat⟩, hpos ▸ hafter⟩
  · simp only [if_neg hin, and_true]
    constructor
    · rintro ⟨res, s', hcall', hneg, -⟩
      obtain ⟨rfl, rfl⟩ := Prod.mk.inj (Option.some.inj (hcall.symm.trans hcall'))
      by_contra hlt
      rw [if_neg hlt] at hneg
      exact absurd hneg (lt_irrefl 0)
    · intro hle
      rw [if_pos hle] at hcall hafter
      exact ⟨- EIO, t, hcall, by decide, hafter⟩

theorem FileState.OpenAt.read_iff (h : s.OpenAt fd v entry p) (hcb : 1 ≤ v.clusterBytes) (hp : p < 2 ^ 32)
    (buffer : ℕ) {size : ℤ} (hint : -2 ^ 31 ≤ size) :
    (∃ res s', Zhios.fread s fd buffer size = some (res, s') ∧ ((p + size.toNat : ℕ) : ℤ) = p + max res 0 ∧
        s'.OpenAt fd v entry (p + size.toNat)) ↔ 0 ≤ size ∧ p + size < 2 ^ 32 := by
  by_cases hzero : size = 0
  · have hcall : Zhios.fread s fd buffer size = some (- EINARG, s) := if_pos (Or.inl hzero)
    refine iff_of_true ⟨_, _, hcall, ?_, ?_⟩ (by omega)
    · unfold EINARG
      omega
    · rwa [show p + size.toNat = p by omega]
  · obtain ⟨t, hcall, hafter, -⟩ := h.fread hcb buffer hzero
    constructor
    · rintro ⟨res, s', hcall', -, hopen⟩
      obtain ⟨rfl, rfl⟩ := Prod.mk.inj (Option.some.inj (hcall.symm.trans hcall'))
      have hpos := hafter.pos_eq hopen
      unfold uint32 at hpos
      omega
    · rintro ⟨h0, hlt⟩
      have hpos : uint32 (p + size) = p + size.toNat := by
        unfold uint32
        omega
      exact ⟨size, t, hcall, by omega, hpos ▸ hafter⟩

theorem FileState.OpenAt.owes_iff (h : s.OpenAt fd v entry p) (hcb : 1 ≤ v.clusterBytes) (hp : p < 2 ^ 32)
    (m : FileMove) :
    (∃ res s', m.call s fd = some (res, s') ∧ m.Owes (fileSize entry) p res (m.addTo (fileSize entry) p) ∧
        s'.OpenAt fd v entry (m.addTo (fileSize entry) p)) ↔ m.Meets (fileSize entry) p := by
  have hsize := fileSize_lt entry
  cases m with
  | seekBegin offset =>
    have hseek := h.seeksTo_iff offset offset (show FileSeekMode.seekBegin ≠ .seekEnd by decide)
    simp only [FileMove.call, FileMove.Owes, FileMove.addTo, FileMove.Meets]
    rw [hseek]
    split_ifs with hin
    · unfold InFile uint32 at *
      omega
    · unfold InFile uint32 at *
      omega
  | seekCurrent offset =>
    have hseek := h.seeksTo_iff offset (p + offset) (show FileSeekMode.seekCurrent ≠ .seekEnd by decide)
    simp only [FileMove.call, FileMove.Owes, FileMove.addTo, FileMove.Meets]
    rw [hseek]
    split_ifs with hin
    · unfold InFile uint32 at *
      omega
    · unfold InFile uint32 at *
      omega
  | read buffer size hint => exact h.read_iff hcb hp buffer hint

end

/-- For every open file at any position and every sequence of seeks and reads: each call
does what it owes and starts at the sum of the moves before it exactly when each of them
meets its condition there. -/
theorem fseek_moves_iff (s : FileState) (fd : ℤ) (v : FatDisk) (entry : List UInt8) (p : ℕ)
    (hcb : 1 ≤ v.clusterBytes) (hp : p < 2 ^ 32) (h : s.OpenAt fd v entry p) (ms : List FileMove) :
    FollowsMoves fd v entry ms s p ↔ MovesMeet (fileSize entry) ms p := by
  induction ms generalizing s p with
  | nil => exact iff_of_true h trivial
  | cons m ms ih =>
    rw [FollowsMoves, MovesMeet, ← h.owes_iff hcb hp m]
    constructor
    · rintro ⟨res, s', hcall, howes, hopen, hrest⟩
      have hmeets := (h.owes_iff hcb hp m).mp ⟨res, s', hcall, howes, hopen⟩
      exact ⟨⟨res, s', hcall, howes, hopen⟩, (ih s' _ (FileMove.addTo_lt hp hmeets) hopen).mp hrest⟩
    · rintro ⟨⟨res, s', hcall, howes, hopen⟩, hrest⟩
      have hmeets := (h.owes_iff hcb hp m).mp ⟨res, s', hcall, howes, hopen⟩
      exact ⟨res, s', hcall, howes, hopen, (ih s' _ (FileMove.addTo_lt hp hmeets) hopen).mpr hrest⟩

theorem fseek_moves_smallFile : FollowsMoves 1 splitFile smallEntry
    [.seekCurrent 30, .read 0x400000 10 (by decide), .seekBegin 0, .seekCurrent 99] smallFile 0 := by
  refine (fseek_moves_iff smallFile 1 splitFile smallEntry 0 (by decide) (by decide) smallFile_open _).mpr ?_
  exact ⟨Or.inl (by decide), ⟨by decide, by decide⟩, Or.inl (by decide), Or.inl (by decide), trivial⟩

/-- Ten bytes into the file, a seek by twenty ends at byte 20. -/
theorem fseek_current_absolute :
    ∃ s₁ s₂, fseek smallFile 1 10 .seekBegin = some (0, s₁) ∧ s₁.OpenAt 1 splitFile smallEntry 10 ∧
      fseek s₁ 1 20 .seekCurrent = some (0, s₂) ∧ s₂.OpenAt 1 splitFile smallEntry 20 ∧
      InFile (fileSize smallEntry) (10 + 20) ∧
      ¬ FollowsMoves 1 splitFile smallEntry [.seekBegin 10, .seekCurrent 20] smallFile 0 := by
  have hten : uint32 10 = 10 := by unfold uint32; omega
  have htwenty : uint32 20 = 20 := by unfold uint32; omega
  obtain ⟨s₁, hcall₁, hopen₁⟩ := smallFile_open.seek 10 (show FileSeekMode.seekBegin ≠ .seekEnd by decide)
  rw [hten, smallEntry_size, if_neg (by decide)] at hcall₁ hopen₁
  obtain ⟨s₂, hcall₂, hopen₂⟩ := hopen₁.seek 20 (show FileSeekMode.seekCurrent ≠ .seekEnd by decide)
  rw [htwenty, smallEntry_size, if_neg (by decide)] at hcall₂ hopen₂
  refine ⟨s₁, s₂, hcall₁, hopen₁, hcall₂, hopen₂, by decide, ?_⟩
  rintro ⟨res, s', hcall, -, -, res', s'', hcall', -, hopen', -⟩
  obtain ⟨-, rfl⟩ := Prod.mk.inj (Option.some.inj (hcall₁.symm.trans hcall))
  obtain ⟨-, rfl⟩ := Prod.mk.inj (Option.some.inj (hcall₂.symm.trans hcall'))
  exact absurd (hopen₂.pos_eq hopen') (by decide)

end Zhios
