import Zhios.Fs.File
import Zhios.Fs.FatRead
import Mathlib.Logic.Relation

/-! The position of an open file over runs of `fread` and `fseek`. A seek is checked
against the size of the file, a read is not: it delivers as many bytes as it is
asked for. -/
namespace Zhios
open Machine

/-- The id is open on the file of `entry` on the mounted volume, at position `pos`. -/
structure FileState.OpenAt (s : FileState) (fd : ℤ) (v : FatDisk) (entry : List UInt8) (pos : ℕ) : Prop where
  volume : s.volume = some v
  opened : ∃ desc d address item, openFile s fd = some (desc, d) ∧ d.item = .file address item entry ∧
    item ≠ 0 ∧ d.pos = pos

theorem fileSize_lt (entry : List UInt8) : fileSize entry < 2 ^ 32 := load32_lt _ _

section
variable {v : FatDisk}

theorem pieceRead_length (cluster offset : ℤ) (n : ℕ) : (pieceRead v cluster offset n).length = n := by
  rw [pieceRead, diskStreamRead]
  exact streamRead_length _ _ _ n (by simp)

/-- A read never comes short, wherever the chain ends. -/
theorem readEntriesLoop_count (hcb : 1 ≤ v.clusterBytes) (fuel : ℕ) (cluster offset : ℤ) (size : ℕ)
    (hfuel : size < fuel) : (readEntriesLoop v fuel cluster offset size).1 = size ∧
      (readEntriesLoop v fuel cluster offset size).2.length = size := by
  induction fuel generalizing offset size with
  | zero => omega
  | succ fuel ih =>
    by_cases hlarge : v.clusterBytes < size
    · have hrest := ih (int32 (offset + v.clusterBytes)) (size - v.clusterBytes) (by omega)
      rw [readEntriesLoop_more _ _ _ (Nat.cast_lt.mpr hlarge), ← Nat.cast_sub hlarge.le]
      dsimp only
      rw [hrest.1, List.length_append, hrest.2, pieceRead_length]
      omega
    · rw [readEntriesLoop_last _ _ _ (mt Nat.cast_lt.mp hlarge)]
      exact ⟨rfl, pieceRead_length cluster offset size⟩

theorem readEntries_count (hcb : 1 ≤ v.clusterBytes) (cluster offset : ℤ) (size : ℕ) :
    (readEntries v cluster offset size).1 = size ∧ (readEntries v cluster offset size).2.length = size :=
  readEntriesLoop_count hcb _ cluster offset size (by omega)

/-- Less than no bytes are read as that many. -/
theorem readEntries_neg (v : FatDisk) (cluster offset : ℤ) {size : ℤ} (h : size < 0) :
    readEntries v cluster offset size = (size, []) := by
  have hfuel : size.toNat + 1 = 0 + 1 := by omega
  have hnot : ¬ (v.clusterBytes : ℤ) < size := by omega
  have hcount : size.toNat = 0 := by omega
  rw [readEntries, hfuel, readEntriesLoop_last _ _ _ hnot, pieceRead, diskStreamRead, hcount]
  rfl

theorem readEntries_fst (hcb : 1 ≤ v.clusterBytes) (cluster offset size : ℤ) :
    (readEntries v cluster offset size).1 = size := by
  rcases lt_or_ge size 0 with hneg | hnonneg
  · rw [readEntries_neg v _ _ hneg]
  · obtain ⟨n, rfl⟩ := Int.eq_ofNat_of_zero_le hnonneg
    exact (readEntries_count hcb cluster offset n).1

/-- The pieces of a request from `offset` on are read from where they lie: they start
at sector boundaries and their overruns do no harm, or the request ends in its first
sector. -/
def ReadInPlace (v : FatDisk) (chain : ℕ → ℕ) (offset size : ℕ) : Prop :=
  (offset % 512 = 0 ∧ OverrunsAgree v chain offset size) ∨ offset % 512 + size ≤ 512

theorem readEntries_within (hcb : 1 ≤ v.clusterBytes) {cluster : ℤ} {chain : ℕ → ℕ} {offset size : ℕ}
    (hsize : 1 ≤ size) (h : offset % 512 + size ≤ 512) (hp : PiecesFound v cluster chain offset size) :
    ReadCorrect v cluster chain offset size := by
  obtain ⟨hfirst, hrange⟩ := hp.first hsize
  have haligned := clusterBytes_aligned (v := v)
  have hlt := Nat.mod_lt offset hcb
  have hinside : offset % v.clusterBytes + size ≤ v.clusterBytes := by
    have hdvd := Nat.mod_mod_of_dvd offset (Nat.dvd_of_mod_eq_zero haligned)
    generalize v.clusterBytes = cb at *
    omega
  have hsmall : ¬ (v.clusterBytes : ℤ) < size := by omega
  have hmod : (offset : ℤ).tmod v.clusterBytes = ((offset % v.clusterBytes : ℕ) : ℤ) := by
    rw [Int.tmod_eq_emod_of_nonneg (by omega)]
    rfl
  have hstart : clusterPos v (chain (offset / v.clusterBytes)) % 512 = 0 := by
    unfold clusterPos zhiosDiskSectorSize
    omega
  have hsector : offset % v.clusterBytes % 512 = offset % 512 :=
    Nat.mod_mod_of_dvd offset (Nat.dvd_of_mod_eq_zero haligned)
  have hbound := hrange.2
  rw [ReadCorrect, readEntries, readEntriesLoop_last _ _ _ hsmall, pieceRead, hfirst, hmod, startPos_eq hrange hlt,
    diskStreamRead_within v.disk hsize (by omega) (by omega), slice]
  refine congrArg (Prod.mk _) (List.map_congr_left fun k hk => ?_)
  have hk := List.mem_range.mp hk
  rw [fileByte, Nat.add_div hcb, Nat.add_mod_eq_ite, Nat.div_eq_of_lt (show k < v.clusterBytes by omega),
    Nat.mod_eq_of_lt (show k < v.clusterBytes by omega), if_neg (by omega), if_neg (by omega), Nat.add_zero,
    Nat.add_assoc]

theorem ReadInPlace.readCorrect (hcb : 1 ≤ v.clusterBytes) {cluster : ℤ} {chain : ℕ → ℕ} {offset size : ℕ}
    (h : ReadInPlace v chain offset size) (hsize : 1 ≤ size) (hend : offset + size < 2 ^ 31)
    (hp : PiecesFound v cluster chain offset size) : ReadCorrect v cluster chain offset size := by
  rcases h with ⟨haligned, hagree⟩ | hwithin
  · exact (readCorrect_iff_overruns hcb haligned hend hp).mpr hagree
  · exact readEntries_within hcb hsize hwithin hp

end

section
variable {s s' : FileState} {fd : ℤ} {v : FatDisk} {entry : List UInt8} {pos : ℕ}

theorem openFile_slot {desc : FileDescriptor} {d : Fat16Descriptor} (h : openFile s fd = some (desc, d)) :
    1 ≤ fd ∧ fd ≤ zhiosMaxFileDescriptors ∧ s.fileDescriptors (fd - 1).toNat = some desc ∧
      desc.privateData = some d := by
  unfold openFile at h
  obtain ⟨found, hget, h⟩ := Option.bind_eq_some_iff.mp h
  obtain ⟨desc', hfound, h⟩ := Option.bind_eq_some_iff.mp h
  obtain ⟨d', hdata, h⟩ := Option.bind_eq_some_iff.mp h
  obtain ⟨rfl, rfl⟩ := Prod.mk.inj (Option.some.inj h)
  rw [hfound] at hget
  unfold getFileDescriptor at hget
  split_ifs at hget with hlarge hsmall
  · cases hget
  · exact ⟨by omega, by omega, Option.some.inj hget, hdata⟩

theorem openFile_of_slot {desc : FileDescriptor} {d : Fat16Descriptor} (hlo : 1 ≤ fd)
    (hhi : fd ≤ zhiosMaxFileDescriptors) (hslot : s.fileDescriptors (fd - 1).toNat = some desc)
    (hdata : desc.privateData = some d) : openFile s fd = some (desc, d) := by
  have hlarge : ¬ (zhiosMaxFileDescriptors : ℤ) < fd := by omega
  have hsmall : ¬ fd < 1 := by omega
  simp only [openFile, getFileDescriptor, if_neg hlarge, if_neg hsmall, hslot, hdata, Option.bind_eq_bind,
    Option.bind_some]

theorem openFile_setPrivateData {desc : FileDescriptor} {d : Fat16Descriptor} (h : openFile s fd = some (desc, d))
    (d' : Fat16Descriptor) :
    openFile (s.setPrivateData fd desc d') fd = some ({ desc with privateData := some d' }, d') := by
  obtain ⟨hlo, hhi, -, -⟩ := openFile_slot h
  exact openFile_of_slot hlo hhi (by simp [FileState.setPrivateData]) rfl

/-- A read moves the position on by what it was asked for, and stores as many bytes. -/
theorem FileState.OpenAt.fread (h : s.OpenAt fd v entry pos) (hcb : 1 ≤ v.clusterBytes) (buffer : ℕ) {size : ℤ}
    (hsize : size ≠ 0) : ∃ s', Zhios.fread s fd buffer size = some (size, s') ∧
      s'.OpenAt fd v entry (uint32 (pos + size)) ∧
      Holds s'.kmem.mem buffer (readEntries v (getFirstCluster entry) (int32 pos) size).2 := by
  obtain ⟨desc, d, address, item, hopen, hitem, hne, rfl⟩ := h.opened
  have hpos := (openFile_slot hopen).1
  have hentry : d.entry = some entry := by simp [Fat16Descriptor.entry, hitem, hne]
  have hcount := readEntries_fst hcb (getFirstCluster entry) (int32 d.pos) size
  have hguard : ¬ (size = 0 ∨ fd < 0) := by omega
  have hread : fat16Read v d size = some (size, (readEntries v (getFirstCluster entry) (int32 d.pos) size).2,
      { d with pos := uint32 (d.pos + size) }) := by
    simp only [fat16Read, hentry, Option.map_some, loadEntriesFromCluster, hcount]
  have hafter := openFile_setPrivateData hopen { d with pos := uint32 (d.pos + size) }
  refine ⟨{ s.setPrivateData fd desc { d with pos := uint32 (d.pos + size) } with kmem := { s.kmem with
    mem := storeBytes s.kmem.mem buffer (readEntries v (getFirstCluster entry) (int32 d.pos) size).2 } }, ?_, ?_, ?_⟩
  · simp only [Zhios.fread, if_neg hguard, hopen, h.volume, hread, Option.bind_eq_bind, Option.bind_some]
    rfl
  · exact ⟨h.volume, _, _, address, item, hafter, hitem, hne, rfl⟩
  · exact holds_storeBytes _ _ _

/-- Either mode moves to the offset as an unsigned number if that lies in the file. -/
theorem FileState.OpenAt.seek (h : s.OpenAt fd v entry pos) (offset : ℤ) {mode : FileSeekMode}
    (hmode : mode ≠ .seekEnd) :
    ∃ s', Zhios.fseek s fd offset mode = some (if fileSize entry ≤ uint32 offset then - EIO else 0, s') ∧
      s'.OpenAt fd v entry (if fileSize entry ≤ uint32 offset then pos else uint32 offset) := by
  obtain ⟨desc, d, address, item, hopen, hitem, hne, rfl⟩ := h.opened
  have hentry : d.entry = some entry := by simp [Fat16Descriptor.entry, hitem, hne]
  have hcall : Zhios.fseek s fd offset mode =
      (fat16Seek d offset).map fun r => (r.1, s.setPrivateData fd desc r.2) := by
    cases mode with
    | seekEnd => exact absurd rfl hmode
    | seekBegin | seekCurrent =>
      simp only [Zhios.fseek, hopen, Option.bind_eq_bind, Option.bind_some]
      cases fat16Seek d offset <;> rfl
  rw [hcall]
  simp only [fat16Seek, hitem, hentry, Option.map_some]
  split_ifs with hout
  · exact ⟨_, rfl, h.volume, _, d, address, item, openFile_setPrivateData hopen d, hitem, hne, rfl⟩
  · exact ⟨_, rfl, h.volume, _, _, address, item, openFile_setPrivateData hopen _, rfl, hne, rfl⟩

theorem FileState.OpenAt.fseek (h : s.OpenAt fd v entry pos) {offset res : ℤ} {mode : FileSeekMode}
    (hseek : Zhios.fseek s fd offset mode = some (res, s')) :
    s'.OpenAt fd v entry pos ∨ ∃ pos' < fileSize entry, s'.OpenAt fd v entry pos' := by
  by_cases hmode : mode = .seekEnd
  · rw [hmode] at hseek
    cases hseek
    exact Or.inl h
  · obtain ⟨t, heq, hafter⟩ := h.seek offset hmode
    rw [heq] at hseek
    obtain ⟨-, rfl⟩ := Prod.mk.inj (Option.some.inj hseek)
    split_ifs at hafter with hout
    · exact Or.inl hafter
    · exact Or.inr ⟨uint32 offset, not_le.mp hout, hafter⟩

theorem FileState.OpenAt.pos_eq {pos' : ℕ} (h : s.OpenAt fd v entry pos) (h' : s.OpenAt fd v entry pos') :
    pos = pos' := by
  obtain ⟨desc, d, -, -, hopen, -, -, rfl⟩ := h.opened
  obtain ⟨desc', d', -, -, hopen', -, -, rfl⟩ := h'.opened
  rw [hopen] at hopen'
  obtain ⟨-, rfl⟩ := Prod.mk.inj (Option.some.inj hopen')
  rfl

/-- One call on the open file: a read that asks for no more than is left of it, or any
seek. -/
inductive FileStep (fd : ℤ) (v : FatDisk) (entry : List UInt8) : FileState → FileState → Prop
  | read (s s' : FileState) (pos buffer size : ℕ) (res : ℤ) (hopen : s.OpenAt fd v entry pos) (hsize : 1 ≤ size)
      (hfits : pos + size ≤ fileSize entry) (hread : fread s fd buffer size = some (res, s')) :
      FileStep fd v entry s s'
  | seek (s s' : FileState) (offset res : ℤ) (mode : FileSeekMode) (hseek : fseek s fd offset mode = some (res, s')) :
      FileStep fd v entry s s'

/-- The id is open at a position inside the file. -/
def FileState.Inside (s : FileState) (fd : ℤ) (v : FatDisk) (entry : List UInt8) : Prop :=
  ∃ pos ≤ fileSize entry, s.OpenAt fd v entry pos

theorem FileState.Inside.step (h : s.Inside fd v entry) (hcb : 1 ≤ v.clusterBytes) (hs : FileStep fd v entry s s') :
    s'.Inside fd v entry := by
  cases hs with
  | read pos buffer size res hopen hsize hfits hread =>
    have hlt := fileSize_lt entry
    obtain ⟨t, heq, hafter, -⟩ := hopen.fread hcb buffer (show (size : ℤ) ≠ 0 by omega)
    rw [heq] at hread
    obtain ⟨-, rfl⟩ := Prod.mk.inj (Option.some.inj hread)
    have hpos : uint32 ((pos : ℤ) + size) = pos + size := by unfold uint32; omega
    rw [hpos] at hafter
    exact ⟨pos + size, hfits, hafter⟩
  | seek offset res mode hseek =>
    obtain ⟨pos, hle, hopen⟩ := h
    rcases hopen.fseek hseek with hstay | ⟨pos', hlt, hmoved⟩
    · exact ⟨pos, hle, hstay⟩
    · exact ⟨pos', hlt.le, hmoved⟩

theorem FileState.Inside.run (h : s.Inside fd v entry) (hcb : 1 ≤ v.clusterBytes)
    (hrun : Relation.ReflTransGen (FileStep fd v entry) s s') : s'.Inside fd v entry := by
  induction hrun with
  | refl => exact h
  | tail _ hs ih => exact ih.step hcb hs

/-- A read delivers bytes of the file, from the position on, and leaves the position
inside. -/
def FileState.ReadsInside (s : FileState) (fd : ℤ) (v : FatDisk) (entry : List UInt8) (chain : ℕ → ℕ)
    (pos buffer size : ℕ) : Prop :=
  ∃ (n : ℕ) (s' : FileState), fread s fd buffer size = some ((n : ℤ), s') ∧ pos + n ≤ fileSize entry ∧
    s'.OpenAt fd v entry (pos + n) ∧
    Holds s'.kmem.mem buffer ((List.range n).map fun k => fileByte v chain (pos + k))

theorem FileState.OpenAt.readsInside_iff (h : s.OpenAt fd v entry pos) (hcb : 1 ≤ v.clusterBytes) (chain : ℕ → ℕ)
    (buffer : ℕ) {size : ℕ} (hsize : 1 ≤ size) (hend : pos + size < 2 ^ 31)
    (hp : PiecesFound v (getFirstCluster entry) chain pos size) (hplace : ReadInPlace v chain pos size) :
    s.ReadsInside fd v entry chain pos buffer size ↔ pos + size ≤ fileSize entry := by
  obtain ⟨t, heq, hafter, hbytes⟩ := h.fread hcb buffer (show (size : ℤ) ≠ 0 by omega)
  constructor
  · rintro ⟨n, s', hread, hle, -⟩
    rw [heq] at hread
    have hn := (Prod.mk.inj (Option.some.inj hread)).1
    omega
  · intro hfits
    have hpos : uint32 ((pos : ℤ) + size) = pos + size := by unfold uint32; omega
    have hint : int32 (pos : ℤ) = pos := int32_of_bounds (by omega) (by omega)
    have hcorrect : readEntries v (getFirstCluster entry) pos size = _ :=
      hplace.readCorrect hcb hsize hend hp
    rw [hpos] at hafter
    rw [hint, hcorrect] at hbytes
    exact ⟨size, t, heq, hfits, hafter, hbytes⟩

/-- In every run whose reads ask for no more than is left of the file, the position
stays inside it, and a further read whose pieces are read in place delivers bytes of
the file, and only those, exactly when it asks for no more than is left. -/
theorem filePosition_inside (s₀ s : FileState) (fd : ℤ) (v : FatDisk) (entry : List UInt8) (hcb : 1 ≤ v.clusterBytes)
    (hopen : s₀.OpenAt fd v entry 0) (hrun : Relation.ReflTransGen (FileStep fd v entry) s₀ s) :
    ∃ pos, s.OpenAt fd v entry pos ∧ pos ≤ fileSize entry ∧
      ∀ (chain : ℕ → ℕ) (buffer size : ℕ), 1 ≤ size → pos + size < 2 ^ 31 →
        PiecesFound v (getFirstCluster entry) chain pos size → ReadInPlace v chain pos size →
        (s.ReadsInside fd v entry chain pos buffer size ↔ pos + size ≤ fileSize entry) := by
  have hstart : s₀.Inside fd v entry := ⟨0, Nat.zero_le _, hopen⟩
  obtain ⟨pos, hle, hnow⟩ := hstart.run hcb hrun
  exact ⟨pos, hnow, hle, fun chain buffer size hsize hend hp hplace =>
    hnow.readsInside_iff hcb chain buffer hsize hend hp hplace⟩

end

def smallEntry : List UInt8 :=
  [0x41, 0x20, 0x20, 0x20, 0x20, 0x20, 0x20, 0x20, 0x20, 0x20, 0x20, 0, 0, 0, 0, 0,
    0, 0, 0, 0, 0, 0, 0, 0, 0, 0, 2, 0, 100, 0, 0, 0]

def smallFile : FileState :=
  ⟨⟨freshKernelHeap, fun _ => 0⟩, some splitFile, fun i =>
    if i = 0 then some ⟨0x01001000, 1, some ⟨0x01000000, .file 0x01002000 0x01003000 smallEntry, 0⟩⟩ else none⟩

theorem smallFile_open : smallFile.OpenAt 1 splitFile smallEntry 0 :=
  ⟨rfl, _, _, _, _, rfl, rfl, by decide, rfl⟩

theorem smallEntry_size : fileSize smallEntry = 100 := by decide

theorem smallFile_reads_whole : smallFile.ReadsInside 1 splitFile smallEntry splitChain 0 0x400000 100 := by
  obtain ⟨pos, hopen, -, hiff⟩ := filePosition_inside smallFile smallFile 1 splitFile smallEntry (by decide)
    smallFile_open .refl
  obtain rfl := hopen.pos_eq smallFile_open
  have hcluster : getFirstCluster smallEntry = 2 := int32_of_bounds (by decide) (by decide)
  have hp : PiecesFound splitFile (getFirstCluster smallEntry) splitChain 0 100 := by
    rw [hcluster]
    exact (splitFile_piecesFound 0 (by decide)).mono (by decide)
  exact (hiff splitChain 0x400000 100 (by decide) (by decide) hp (Or.inr (by decide))).mpr (by decide)

/-- 200 bytes are read from it, and the position ends up behind it. -/
theorem smallFile_reads_past_end : ∃ s', fread smallFile 1 0x400000 200 = some (200, s') ∧
    s'.OpenAt 1 splitFile smallEntry 200 ∧ fileSize smallEntry = 100 := by
  obtain ⟨s', hread, hopen, -⟩ := smallFile_open.fread (by decide) 0x400000 (show (200 : ℤ) ≠ 0 by decide)
  have hpos : uint32 (((0 : ℕ) : ℤ) + 200) = 200 := by unfold uint32; omega
  rw [hpos] at hopen
  exact ⟨s', hread, hopen, smallEntry_size⟩

end Zhios
