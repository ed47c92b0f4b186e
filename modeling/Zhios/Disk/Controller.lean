import Zhios.Machine.Port
import Zhios.Disk.Stream

/-! The disk driver of `src/disk/disk.c`, the sector loader of `src/boot/boot.asm`,
and `disk_stream_read` on top of the driver. The drive is whatever is behind the
ports; the loops that wait for it take the number of status reads they may make. -/
namespace Zhios
open Machine

section
variable {σ : Type*} (p : Ports σ)

/-- The bit of the status register that says that data can be read. -/
def dataRequest (c : UInt8) : Bool := c &&& 0x08 != 0

/-- The loop of `disk_read_sector` over the sectors still to be read. -/
def readSectors (polls : ℕ) : ℕ → σ → Option (List UInt16 × σ)
  | 0, s => some ([], s)
  | n + 1, s =>
    match p.poll 0x1F7 dataRequest polls s with
    | none => none
    | some s =>
      let r := p.readWords 0x1F0 256 s
      match readSectors polls n r.2 with
      | none => none
      | some rest => some (r.1 ++ rest.1, rest.2)

def diskReadSector (polls lba : ℕ) (total : ℤ) (s : σ) : Option (List UInt16 × σ) :=
  let s := p.outb s 0x1F6 (UInt8.ofNat (lba >>> 24 ||| 0xE0))
  let s := p.outb s 0x1F2 (UInt8.ofNat (uint32 total))
  let s := p.outb s 0x1F3 (UInt8.ofNat (lba &&& 0xFF))
  let s := p.outb s 0x1F4 (UInt8.ofNat (lba >>> 8))
  let s := p.outb s 0x1F5 (UInt8.ofNat (lba >>> 16))
  let s := p.outb s 0x1F7 0x20
  readSectors p polls total.toNat s

/-- The loop `.next_sector` of the boot loader: `ecx` is tested after a sector has
been read. -/
def nextSector (polls : ℕ) : (fuel ecx : ℕ) → σ → Option (List UInt16 × σ)
  | 0, _, _ => none
  | fuel + 1, ecx, s =>
    match p.poll 0x1F7 dataRequest polls s with
    | none => none
    | some s =>
      let r := p.readWords 0x1F0 256 s
      let ecx := uint32 ((ecx : ℤ) - 1)
      if ecx = 0 then some r
      else
        match nextSector polls fuel ecx r.2 with
        | none => none
        | some rest => some (r.1 ++ rest.1, rest.2)

/-- `lba_read` with the sector in `eax` and the count in `ecx`; `out dx, al` sends
the low byte of `eax`. -/
def lbaRead (polls fuel eax ecx : ℕ) (s : σ) : Option (List UInt16 × σ) :=
  let ebx := eax
  let s := p.outb s 0x1F6 (UInt8.ofNat (eax >>> 24 ||| 0xE0))
  let s := p.outb s 0x1F2 (UInt8.ofNat ecx)
  let s := p.outb s 0x1F3 (UInt8.ofNat ebx)
  let s := p.outb s 0x1F4 (UInt8.ofNat (ebx >>> 8))
  let s := p.outb s 0x1F5 (UInt8.ofNat (ebx >>> 16))
  let s := p.outb s 0x1F7 0x20
  nextSector p polls fuel ecx s

variable {p}

theorem readSectors_succ (polls n : ℕ) (s : σ) : readSectors p polls (n + 1) s =
    (p.poll 0x1F7 dataRequest polls s).bind fun s =>
      let r := p.readWords 0x1F0 256 s
      (readSectors p polls n r.2).map fun rest => (r.1 ++ rest.1, rest.2) := by
  rw [readSectors]
  cases p.poll 0x1F7 dataRequest polls s with
  | none => rfl
  | some s =>
    simp only [Option.bind_some]
    cases readSectors p polls n (p.readWords 0x1F0 256 s).2 with
    | none => rfl
    | some rest => rfl

/-- The two loops read alike, whatever is behind the ports. -/
theorem nextSector_eq (polls fuel : ℕ) {ecx : ℕ} (hpositive : 0 < ecx) (hword : ecx < 2 ^ 32)
    (hfuel : ecx ≤ fuel) (s : σ) : nextSector p polls fuel ecx s = readSectors p polls ecx s := by
  induction fuel generalizing ecx s with
  | zero => omega
  | succ fuel ih =>
    obtain ⟨n, rfl⟩ : ∃ n, ecx = n + 1 := ⟨ecx - 1, by omega⟩
    have hdec : uint32 (((n + 1 : ℕ) : ℤ) - 1) = n := by
      have := uint32_of_bounds (x := ((n + 1 : ℕ) : ℤ) - 1) (by omega) (by omega)
      omega
    rw [nextSector, readSectors]
    cases p.poll 0x1F7 dataRequest polls s with
    | none => rfl
    | some s =>
      simp only [hdec]
      rcases Nat.eq_zero_or_pos n with rfl | hn
      · simp [readSectors]
      · rw [if_neg hn.ne', ih hn (by omega) (by omega)]

theorem readSectors_mono {polls more n : ℕ} {s : σ} {r : List UInt16 × σ} (h : readSectors p polls n s = some r)
    (hle : polls ≤ more) : readSectors p more n s = some r := by
  induction n generalizing s r with
  | zero => exact h
  | succ n ih =>
    rw [readSectors_succ] at h ⊢
    obtain ⟨t, hpoll, hrest⟩ := Option.bind_eq_some_iff.mp h
    obtain ⟨rest, hread, rfl⟩ := Option.map_eq_some_iff.mp hrest
    rw [Ports.poll_mono hpoll hle]
    simp only [Option.bind_some, ih hread, Option.map_some]

end

/-- The words of `total` sectors from `lba` on. -/
def sectorWords (sector : ℕ → ℕ → UInt16) (lba total : ℕ) : List UInt16 :=
  (List.range' lba total).flatMap fun k => (List.range 256).map (sector k)

section
variable {σ : Type*} {p : Ports σ} {sector : ℕ → ℕ → UInt16} (d : Drive p sector)

theorem sector_reads {lba left n : ℕ} {s : σ} (h : d.busy lba left n s) :
    ∃ polls t, p.poll 0x1F7 dataRequest polls s = some t ∧
      (p.readWords 0x1F0 256 t).1 = (List.range 256).map (sector lba) ∧
      d.data lba left 256 (p.readWords 0x1F0 256 t).2 := by
  have hends : ∃ polls t, p.poll 0x1F7 dataRequest polls s = some t ∧ d.data lba left 0 t :=
    Ports.poll_ends (fun n s => d.in_status lba left n s) h
  obtain ⟨polls, t, hpoll, hready⟩ := hends
  have hread := Ports.readWords_eq (fun i hi s => d.in_word lba left i s hi) 256 0 (le_refl 256) hready
  rw [← List.range_eq_range', Nat.zero_add] at hread
  exact ⟨polls, t, hpoll, hread⟩

theorem readSectors_reads (left : ℕ) {lba n : ℕ} {s : σ} (h : d.busy lba (left + 1) n s) :
    ∃ polls t f, readSectors p polls (left + 1) s = some (sectorWords sector lba (left + 1), t) ∧ d.idle f t := by
  induction left generalizing lba n s with
  | zero =>
    obtain ⟨polls, t, hpoll, hwords, hdata⟩ := sector_reads d h
    obtain ⟨f, hidle⟩ := d.next_sector lba 0 _ hdata
    refine ⟨polls, _, f, ?_, hidle⟩
    have hwords' : sectorWords sector lba (0 + 1) = (p.readWords 0x1F0 256 t).1 := by simp [sectorWords, hwords]
    rw [readSectors_succ, hpoll, hwords']
    simp [readSectors]
  | succ left ih =>
    obtain ⟨polls, t, hpoll, hwords, hdata⟩ := sector_reads d h
    obtain ⟨m, hbusy⟩ := d.next_sector lba (left + 1) _ hdata
    obtain ⟨polls', u, f, hrest, hidle⟩ := ih hbusy
    have hpoll' := Ports.poll_mono hpoll (le_max_left polls polls')
    have hrest' := readSectors_mono hrest (le_max_right polls polls')
    refine ⟨max polls polls', u, f, ?_, hidle⟩
    rw [readSectors_succ, hpoll']
    simp only [Option.bind_some, hrest', Option.map_some, hwords]
    rw [sectorWords, List.range'_succ, List.flatMap_cons]
    rfl

def readTaskFile (lba : ℕ) (total : ℤ) : TaskFile where
  drive := UInt8.ofNat (lba >>> 24 ||| 0xE0)
  count := UInt8.ofNat (uint32 total)
  low := UInt8.ofNat (lba &&& 0xFF)
  mid := UInt8.ofNat (lba >>> 8)
  high := UInt8.ofNat (lba >>> 16)

/-- The top four bits of a sector number and the bits that select the drive. -/
theorem driveSelect_toNat {n : ℕ} (h : n < 16) : (UInt8.ofNat (n ||| 0xE0)).toNat = 0xE0 + n := by
  interval_cases n <;> decide

theorem readTaskFile_selects {lba : ℕ} (total : ℤ) (h : lba < 2 ^ 28) :
    (readTaskFile lba total).lba = lba ∧ (readTaskFile lba total).SelectsFirst := by
  have htop : lba >>> 24 < 16 := by
    rw [Nat.shiftRight_eq_div_pow]
    omega
  have hdrive := driveSelect_toNat htop
  have hlow : lba &&& 0xFF = lba % 2 ^ 8 := Nat.and_two_pow_sub_one_eq_mod lba 8
  constructor
  · simp only [TaskFile.lba, readTaskFile]
    rw [hdrive, hlow]
    simp only [UInt8.toNat_ofNat', Nat.shiftRight_eq_div_pow] at htop ⊢
    omega
  · simp only [TaskFile.SelectsFirst, readTaskFile, hdrive]
    omega

theorem readTaskFile_sectors {lba total : ℕ} (hpositive : 1 ≤ total) (h : total ≤ 256) :
    (readTaskFile lba total).sectors = total := by
  have htotal : uint32 (total : ℤ) = total := by
    have := uint32_of_bounds (x := (total : ℤ)) (by omega) (by omega)
    omega
  simp only [TaskFile.sectors, readTaskFile, htotal, ← UInt8.toNat_inj, UInt8.toNat_ofNat']
  split_ifs with hzero
  · change total % 2 ^ 8 = 0 at hzero
    omega
  · change ¬ total % 2 ^ 8 = 0 at hzero
    omega

/-- A request for 1 to 256 sectors below the 28-bit limit is served, and leaves the
drive ready for the next. -/
theorem diskReadSector_reads {f : TaskFile} {s : σ} (h : d.idle f s) {lba total : ℕ} (hpositive : 1 ≤ total)
    (htotal : total ≤ 256) (hlba : lba < 2 ^ 28) :
    ∃ polls t f', diskReadSector p polls lba total s = some (sectorWords sector lba total, t) ∧ d.idle f' t := by
  have hset := d.out_high _ _ (UInt8.ofNat (lba >>> 16)) (d.out_mid _ _ (UInt8.ofNat (lba >>> 8))
    (d.out_low _ _ (UInt8.ofNat (lba &&& 0xFF)) (d.out_count _ _ (UInt8.ofNat (uint32 (total : ℤ)))
      (d.out_drive _ _ (UInt8.ofNat (lba >>> 24 ||| 0xE0)) h))))
  obtain ⟨haddress, hselects⟩ := readTaskFile_selects (total : ℤ) hlba
  obtain ⟨n, hbusy⟩ := d.out_read (readTaskFile lba total) _ hset hselects
  rw [haddress, readTaskFile_sectors hpositive htotal] at hbusy
  obtain ⟨left, rfl⟩ : ∃ m, total = m + 1 := ⟨total - 1, by omega⟩
  exact readSectors_reads d left hbusy

end

/-- A drive that needs three status reads before each sector. -/
inductive SimDrive
  | idle (f : TaskFile)
  | busy (lba left n : ℕ)
  | data (lba left i : ℕ)

namespace SimDrive

def start : SimDrive := .idle ⟨0xE0, 0, 0, 0, 0⟩

def word (lba left i : ℕ) : SimDrive :=
  if i < 256 then .data lba left i else if left ≤ 1 then start else .busy (lba + 1) (left - 1) 2

def command (f : TaskFile) (port : ℕ) (v : UInt8) : SimDrive :=
  if port = 0x1F6 then .idle { f with drive := v }
  else if port = 0x1F2 then .idle { f with count := v }
  else if port = 0x1F3 then .idle { f with low := v }
  else if port = 0x1F4 then .idle { f with mid := v }
  else if port = 0x1F5 then .idle { f with high := v }
  else if port = 0x1F7 then .busy f.lba f.sectors 2
  else .idle f

def ports (sector : ℕ → ℕ → UInt16) : Ports SimDrive where
  insb
    | .busy lba left 0, _ => (0x58, .data lba left 0)
    | .busy lba left (n + 1), _ => (0xD0, .busy lba left n)
    | s, _ => (0x50, s)
  insw
    | .data lba left i, _ => (sector lba i, word lba left (i + 1))
    | s, _ => (0xFFFF, s)
  outb
    | .idle f, port, v => command f port v
    | s, _, _ => s

def drive (sector : ℕ → ℕ → UInt16) : Drive (ports sector) sector where
  idle f s := s = .idle f
  busy lba left n s := s = .busy lba left n
  data lba left i s := s = word lba left i
  out_drive := by rintro f s v rfl; rfl
  out_count := by rintro f s v rfl; rfl
  out_low := by rintro f s v rfl; rfl
  out_mid := by rintro f s v rfl; rfl
  out_high := by rintro f s v rfl; rfl
  out_read := by
    rintro f s rfl _
    exact ⟨2, rfl⟩
  in_status := by
    rintro lba left n s rfl
    cases n with
    | zero =>
      have hready : ((0x58 : UInt8) &&& 0x08 != 0) = true := by decide
      exact (if_pos hready).mpr rfl
    | succ n =>
      have hbusy : ¬ ((0xD0 : UInt8) &&& 0x08 != 0) = true := by decide
      exact (if_neg hbusy).mpr ⟨n, Nat.lt_succ_self n, rfl⟩
  in_word := by
    rintro lba left i s hi rfl
    simp [ports, word, hi]
  next_sector := by
    rintro lba left s rfl
    split_ifs with hlast
    · exact ⟨_, by rw [word, hlast]; rfl⟩
    · exact ⟨2, by simp [word, hlast]⟩

end SimDrive

section
variable {σ : Type*} (p : Ports σ)

/-- Requests made one after the other, each for some sectors from one on. -/
def readAll (polls : ℕ) : List (ℕ × ℕ) → σ → Option (List (List UInt16) × σ)
  | [], s => some ([], s)
  | r :: requests, s =>
    (diskReadSector p polls r.1 r.2 s).bind fun first =>
      (readAll polls requests first.2).map fun rest => (first.1 :: rest.1, rest.2)

variable {p}

theorem diskReadSector_mono {polls more lba : ℕ} {total : ℤ} {s : σ} {r : List UInt16 × σ}
    (h : diskReadSector p polls lba total s = some r) (hle : polls ≤ more) :
    diskReadSector p more lba total s = some r := readSectors_mono h hle

/-- Over every sequence of requests the driver returns the sectors asked for, each
whole and in order, once it may poll often enough. -/
theorem readAll_eq {sector : ℕ → ℕ → UInt16} (d : Drive p sector) (requests : List (ℕ × ℕ))
    (hrequests : ∀ r ∈ requests, 1 ≤ r.2 ∧ r.2 ≤ 256 ∧ r.1 + r.2 ≤ 2 ^ 28) {f : TaskFile} {s : σ} (h : d.idle f s) :
    ∃ polls t f', d.idle f' t ∧ ∀ more, polls ≤ more →
      readAll p more requests s = some (requests.map fun r => sectorWords sector r.1 r.2, t) := by
  induction requests generalizing f s with
  | nil => exact ⟨0, s, f, h, fun _ _ => rfl⟩
  | cons r requests ih =>
    obtain ⟨hpositive, htotal, hlba⟩ := hrequests r List.mem_cons_self
    have haddress : r.1 < 2 ^ 28 := by omega
    obtain ⟨polls, t, f', hfirst, hidle⟩ := diskReadSector_reads d h hpositive htotal haddress
    obtain ⟨polls', u, f'', hlast, hrest⟩ := ih (fun r hr => hrequests r (List.mem_cons_of_mem _ hr)) hidle
    refine ⟨max polls polls', u, f'', hlast, fun more hmore => ?_⟩
    have hfirst' := diskReadSector_mono hfirst (le_trans (le_max_left ..) hmore)
    have hrest' := hrest more (le_trans (le_max_right ..) hmore)
    rw [readAll, hfirst']
    simp only [Option.bind_some, hrest', Option.map_some, List.map_cons]

theorem readAll_sim : ∃ polls t f', (SimDrive.drive fun lba i => UInt16.ofNat (lba + i)).idle f' t ∧
    ∀ more, polls ≤ more → readAll (SimDrive.ports fun lba i => UInt16.ofNat (lba + i)) more
      [(2, 100), (500, 1), (0, 256)] SimDrive.start =
        some ([(2, 100), (500, 1), (0, 256)].map fun r =>
          sectorWords (fun lba i => UInt16.ofNat (lba + i)) r.1 r.2, t) :=
  readAll_eq (SimDrive.drive _) _ (by simp) (show SimDrive.start = .idle _ from rfl)

/-- The loader of the boot sector is the kernel's driver: they send the same bytes
to the same ports and read the same words, whatever is behind the ports. -/
theorem lbaRead_eq_diskReadSector (p : Ports σ) (polls fuel lba : ℕ) {total : ℕ} (hpositive : 1 ≤ total)
    (hword : total < 2 ^ 31) (hfuel : total ≤ fuel) (s : σ) :
    lbaRead p polls fuel lba total s = diskReadSector p polls lba total s := by
  have hlow : UInt8.ofNat (lba &&& 0xFF) = UInt8.ofNat lba := by
    apply UInt8.toNat_inj.mp
    have hand : lba &&& 0xFF = lba % 2 ^ 8 := Nat.and_two_pow_sub_one_eq_mod lba 8
    simp [hand]
  have hcount : uint32 (total : ℤ) = total := by
    have := uint32_of_bounds (x := (total : ℤ)) (by omega) (by omega)
    omega
  simp only [lbaRead, diskReadSector, hlow, hcount, Int.toNat_natCast]
  exact nextSector_eq polls fuel hpositive (by omega) hfuel _

theorem lbaRead_kernel : lbaRead (SimDrive.ports fun _ _ => 7) 3 100 2 (100 : ℕ) SimDrive.start =
    diskReadSector (SimDrive.ports fun _ _ => 7) 3 2 (100 : ℕ) SimDrive.start :=
  lbaRead_eq_diskReadSector _ 3 100 2 (by decide) (by decide) (by decide) _

end

/-- Byte `i` of words stored one behind the other. -/
def wordsByte (words : List UInt16) (i : ℕ) : UInt8 :=
  let w := words.getD (i / 2) 0
  if i % 2 = 0 then w.toUInt8 else (w >>> 8).toUInt8

/-- The bytes of the disk whose sectors have these words. -/
def diskImage (sector : ℕ → ℕ → UInt16) : Mem := fun a =>
  wordsByte (sectorWords sector (a / zhiosDiskSectorSize) 1) (a % zhiosDiskSectorSize)

section
variable {σ : Type*} (p : Ports σ)

/-- What one call copies out of a buffer that holds `words`, with `beyond` behind it. -/
def portChunk (beyond : ℤ → ℤ → UInt8) (words : List UInt16) (pos : ℤ) (n : ℕ) : List UInt8 :=
  let offset := pos.tmod zhiosDiskSectorSize
  (List.range n).map fun i : ℕ =>
    if 0 ≤ offset + i ∧ offset + i < zhiosDiskSectorSize then wordsByte words (offset + i).toNat
    else beyond pos (offset + i)

/-- `disk_stream_read` with the driver's reads in it: the bytes written to `out`, the
new position, and the devices' state. -/
def streamReadPort (beyond : ℤ → ℤ → UInt8) (polls : ℕ) :
    (fuel : ℕ) → (pos total : ℤ) → σ → Option ((List UInt8 × ℤ) × σ)
  | 0, pos, _, s => some (([], pos), s)
  | fuel + 1, pos, total, s =>
    if total ≤ 0 then some (([], pos), s)
    else
      (diskReadSector p polls (uint32 (pos.tdiv zhiosDiskSectorSize)) 1 s).bind fun r =>
        let totalToRead := if zhiosDiskSectorSize < total then (zhiosDiskSectorSize : ℤ) else total
        let chunk := portChunk beyond r.1 pos totalToRead.toNat
        let pos := int32 (pos + totalToRead)
        if zhiosDiskSectorSize < total then
          (streamReadPort beyond polls fuel pos (total - zhiosDiskSectorSize) r.2).map fun rest =>
            ((chunk ++ rest.1.1, rest.1.2), rest.2)
        else some ((chunk, pos), r.2)

variable {p} {sector : ℕ → ℕ → UInt16} (beyond : ℤ → ℤ → UInt8)

theorem diskReadBlock_image {lba i : ℕ} (h : i < zhiosDiskSectorSize) :
    diskReadBlock ⟨diskImage sector, beyond⟩ lba i = wordsByte (sectorWords sector lba 1) i := by
  unfold zhiosDiskSectorSize at h
  have hdiv : (512 * lba + i) / 512 = lba := by omega
  have hmod : (512 * lba + i) % 512 = i := by omega
  simp only [diskReadBlock, diskImage, zhiosDiskSectorSize, hdiv, hmod]

theorem portChunk_image (pos : ℤ) (n : ℕ) :
    portChunk beyond (sectorWords sector (uint32 (pos.tdiv zhiosDiskSectorSize)) 1) pos n =
      streamChunk ⟨diskImage sector, beyond⟩ pos n := by
  apply List.map_congr_left
  intro i _
  rw [streamBuffer]
  split_ifs with hinside
  · rw [diskReadBlock_image beyond (by omega)]
  · rfl

theorem streamReadPort_eq (d : Drive p sector) (fuel pos n : ℕ) (hpos : pos + n < 2 ^ 31) {f : TaskFile} {s : σ}
    (h : d.idle f s) : ∃ polls t f', d.idle f' t ∧ ∀ more, polls ≤ more →
      streamReadPort p beyond more fuel pos n s = some (streamRead ⟨diskImage sector, beyond⟩ fuel pos n, t) := by
  induction fuel generalizing pos n f s with
  | zero => exact ⟨0, s, f, h, fun _ _ => rfl⟩
  | succ fuel ih =>
    rcases Nat.eq_zero_or_pos n with rfl | hn
    · exact ⟨0, s, f, h, fun _ _ => rfl⟩
    have hsector : uint32 ((pos : ℤ).tdiv zhiosDiskSectorSize) < 2 ^ 28 := by
      rw [zhiosDiskSectorSize, Int.tdiv_eq_ediv_of_nonneg (by omega)]
      have := uint32_of_bounds (x := (pos : ℤ) / (512 : ℕ)) (by positivity) (by omega)
      omega
    obtain ⟨polls, t, f', hfirst, hidle⟩ := diskReadSector_reads d h (le_refl 1) (by decide) hsector
    have hpositive : ¬ (n : ℤ) ≤ 0 := by omega
    rcases le_or_gt n 512 with hlast | hmore
    · have hsmall : ¬ (zhiosDiskSectorSize : ℤ) < n := by unfold zhiosDiskSectorSize; omega
      refine ⟨polls, t, f', hidle, fun more hle => ?_⟩
      have hfirst' := diskReadSector_mono hfirst hle
      rw [Nat.cast_one] at hfirst'
      rw [streamReadPort, if_neg hpositive, hfirst']
      simp only [Option.bind_some, if_neg hsmall, portChunk_image, streamRead, if_neg hpositive]
    · have hlarge : (zhiosDiskSectorSize : ℤ) < n := by unfold zhiosDiskSectorSize; omega
      have hnext : int32 ((pos : ℤ) + (zhiosDiskSectorSize : ℤ)) = ((pos + 512 : ℕ) : ℤ) := by
        rw [int32_of_bounds] <;> unfold zhiosDiskSectorSize <;> omega
      have hleft : (n : ℤ) - zhiosDiskSectorSize = ((n - 512 : ℕ) : ℤ) := by
        unfold zhiosDiskSectorSize
        omega
      obtain ⟨polls', u, f'', hidle', hrest⟩ := ih (pos + 512) (n - 512) (by omega) hidle
      refine ⟨max polls polls', u, f'', hidle', fun more hle => ?_⟩
      have hfirst' := diskReadSector_mono hfirst (le_trans (le_max_left ..) hle)
      have hrest' := hrest more (le_trans (le_max_right ..) hle)
      rw [Nat.cast_one] at hfirst'
      rw [streamReadPort, if_neg hpositive, hfirst']
      simp only [Option.bind_some, if_pos hlarge, portChunk_image, hnext, hleft, hrest', Option.map_some, streamRead,
        if_neg hpositive]

end

/-- `disk_stream_read` at `pos`, its recursion being on the bytes left. -/
def diskStreamReadPort {σ : Type*} (p : Ports σ) (beyond : ℤ → ℤ → UInt8) (polls : ℕ) (pos total : ℤ) (s : σ) :
    Option ((List UInt8 × ℤ) × σ) := streamReadPort p beyond polls total.toNat pos total s

/-- What `disk_stream_read` gets from the drive is what it gets from the disk's image:
below the file system the disk is the bytes of its sectors. -/
theorem diskStreamReadPort_eq {σ : Type*} {p : Ports σ} {sector : ℕ → ℕ → UInt16} (d : Drive p sector)
    (beyond : ℤ → ℤ → UInt8) (pos total : ℕ) (hpos : pos + total < 2 ^ 31) {f : TaskFile} {s : σ} (h : d.idle f s) :
    ∃ polls t f', d.idle f' t ∧ ∀ more, polls ≤ more →
      diskStreamReadPort p beyond more pos total s = some (diskStreamRead ⟨diskImage sector, beyond⟩ pos total, t) :=
  streamReadPort_eq beyond d _ pos total hpos h

theorem diskStreamReadPort_sim : ∃ polls t f', (SimDrive.drive fun lba i => UInt16.ofNat (lba + i)).idle f' t ∧
    ∀ more, polls ≤ more →
      diskStreamReadPort (SimDrive.ports fun lba i => UInt16.ofNat (lba + i)) (fun _ _ => 0) more (1024 : ℕ) (700 : ℕ)
        SimDrive.start =
        some (diskStreamRead ⟨diskImage fun lba i => UInt16.ofNat (lba + i), fun _ _ => 0⟩ (1024 : ℕ) (700 : ℕ), t) :=
  diskStreamReadPort_eq (SimDrive.drive _) _ 1024 700 (by decide) (show SimDrive.start = .idle _ from rfl)

end Zhios
