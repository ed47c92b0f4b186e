import Zhios.Fs.FatResolve
import Zhios.Fs.FilePosition
import Zhios.Loaders.ElfLoad

/-! What loading a program does to the kernel heap. A load that succeeds keeps every
allocation there was and hands out new ones; one that fails leaves a block of the
parsed path behind. -/
namespace Zhios
open Machine

/-- The kernel heap once a disk is mounted. Its first block holds the private data of
the file system, which is never given back. -/
structure KMem.Booted (k : KMem) : Prop where
  coherent : k.Coherent
  start_aligned : k.heap.startAddress % 4096 = 0
  first : k.Held (k.blockAddress 0)

/-- The kernel heap when a disk has been mounted on a fresh kernel. -/
def bootKmem : KMem := (kzalloc ⟨freshKernelHeap, fun _ => 0⟩ sizeofFat16Private).2

theorem bootKmem_wellFormed : ∃ live, bootKmem.WellFormed live ∧ Layout.used live = 1 ∧
    bootKmem.heap.total = 25600 ∧ bootKmem.Booted := by
  have hwf := freshKernelHeap_wellFormed fun _ => 0
  have hrun : freshKernelHeap.FreeRun 0 1 := ⟨by simp, fun k _ _ => by
    simp [Heap.FreeAt, heapGetEntryType, heapBlockFree]⟩
  obtain ⟨s, -, hmin, heq, hboot⟩ := hwf.kzalloc (show 1 ≤ sizeofFat16Private by decide) (by decide) ⟨0, hrun⟩
  obtain rfl : s = 0 := Nat.le_zero.mp (hmin 0 hrun)
  have hne : (kzalloc ⟨freshKernelHeap, fun _ => 0⟩ sizeofFat16Private).1 ≠ 0 := by
    rw [heq]
    simp
  have hheld := hwf.coherent.held_kzalloc (by decide) (by decide) hne
  have htotal : bootKmem.heap.total = 25600 := by simp [bootKmem, heq]
  refine ⟨_, hboot, by decide, htotal, hboot.coherent, hboot.start_aligned, ?_⟩
  have hstart : (kzalloc ⟨freshKernelHeap, fun _ => 0⟩ sizeofFat16Private).1 = bootKmem.blockAddress 0 := by
    simp [bootKmem, heq, KMem.blockAddress]
  rwa [← hstart]

/-- As `KMem.Keeps`, but for the first block: a release of the null pointer may run
into it from below. -/
structure KMem.KeepsAbove (k k' : KMem) : Prop where
  coherent : k'.Coherent
  region : k.SameRegion k'
  held : ∀ p, k.Held p → p ≠ k.blockAddress 0 → k'.Held p

theorem KMem.Keeps.above {k k' : KMem} (h : k.Keeps k') : k.KeepsAbove k' :=
  ⟨h.coherent, h.region, fun p hp _ => h.held p hp⟩

/-- A block that was free before is in use now, and nothing that was held above the
first block is lost. -/
structure KMem.Leaks (k k' : KMem) : Prop where
  keeps : k.KeepsAbove k'
  leaked : ∃ p, k.Unused p ∧ k'.Held p

theorem KMem.Booted.unused_ne_first {k : KMem} (h : k.Booted) {p : ℕ} (hp : k.Unused p) : p ≠ k.blockAddress 0 := by
  obtain ⟨b, rfl, -, hfree⟩ := hp
  intro heq
  obtain rfl : b = 0 := by
    unfold KMem.blockAddress at heq
    omega
  exact h.first.not_freeAt hfree

theorem KMem.Held.kfree_null {k : KMem} {p : ℕ} (hp : k.Held p) (h : k.Coherent)
    (haligned : k.heap.startAddress % 4096 = 0) (hne : p ≠ k.blockAddress 0) : (Zhios.kfree k 0).Held p := by
  obtain ⟨b, rfl, hb⟩ := hp
  have hlt := hb.lt
  have hnull := h.null_outside haligned
  refine ⟨b, ((kfree_region k 0).blockAddress b).symm, hb.heapFree (by omega) (Or.inr ?_)⟩
  rcases Nat.eq_zero_or_pos b with rfl | hpos
  · exact absurd rfl hne
  · exact hpos

theorem KMem.Coherent.kfree_null {k : KMem} (h : k.Coherent) (haligned : k.heap.startAddress % 4096 = 0) :
    (Zhios.kfree k 0).Coherent := by
  obtain ⟨htotal, hstart⟩ := kfree_region k 0
  refine ⟨by rw [htotal]; exact h.total_le, by rw [hstart]; exact h.start_pos,
    by rw [htotal, hstart]; exact h.fits, ?_⟩
  rcases h.null_outside haligned with hneg | hpast
  · exact h.apart.heapFree (Or.inl hneg.le)
  · obtain ⟨n, hentry, hgoes⟩ := heapFree_cases k.heap 0
    intro b hpos hlt hfree
    have hsame : ∀ i : ℤ, i < k.heap.total → (Zhios.kfree k 0).heap.entry i = k.heap.entry i := by
      intro i hi
      rw [kfree_heap, hentry, if_neg (by omega)]
    rw [htotal] at hlt
    rw [Heap.FreeAt, hsame b (by omega)] at hfree
    rw [Heap.GoesOn, hsame _ (by omega)]
    exact h.apart b hpos hlt hfree

namespace KMem.KeepsAbove
variable {k k' k'' : KMem} {p : ℕ}

theorem trans (h : k.KeepsAbove k') (h' : k'.KeepsAbove k'') : k.KeepsAbove k'' := by
  refine ⟨h'.coherent, h.region.trans h'.region, fun p hp hne => h'.held p (h.held p hp hne) ?_⟩
  rwa [h.region.blockAddress]

theorem kfree (h : k.KeepsAbove k') (hp : k'.Boundary p) (hnew : ¬ k.Held p) : k.KeepsAbove (Zhios.kfree k' p) :=
  ⟨h.coherent.kfree hp, h.region.trans (kfree_region k' p), fun q hq hne =>
    (h.held q hq hne).kfree h.coherent hp fun heq => hnew (heq ▸ hq)⟩

/-- A block that is given back at once, whether or not it was handed out. -/
theorem kzalloc_kfree (h : k.KeepsAbove k') (haligned : k.heap.startAddress % 4096 = 0) (size : ℕ) :
    k.KeepsAbove (Zhios.kfree (Zhios.kzalloc k' size).2 (Zhios.kzalloc k' size).1) := by
  have hregion := h.region.trans (kzalloc_region k' size)
  have hcoherent := h.coherent.kzalloc size
  have hheld : ∀ q, k.Held q → q ≠ k.blockAddress 0 → (Zhios.kzalloc k' size).2.Held q :=
    fun q hq hne => (h.held q hq hne).kzalloc h.coherent size
  by_cases hnull : (Zhios.kzalloc k' size).1 = 0
  · rw [hnull]
    have haligned' : (Zhios.kzalloc k' size).2.heap.startAddress % 4096 = 0 := by rwa [hregion.start_eq]
    refine ⟨hcoherent.kfree_null haligned', hregion.trans (kfree_region _ _), fun q hq hne => ?_⟩
    exact (hheld q hq hne).kfree_null hcoherent haligned' (by rwa [hregion.blockAddress])
  · have hboundary := h.coherent.boundary_kzalloc hnull
    refine ⟨hcoherent.kfree hboundary, hregion.trans (kfree_region _ _), fun q hq hne => ?_⟩
    exact (hheld q hq hne).kfree hcoherent hboundary ((h.held q hq hne).ne_kzalloc h.coherent size)

end KMem.KeepsAbove

theorem KMem.Fresh.of_subset {k k' : KMem} {ptrs some : List ℕ} (h : k.Fresh k' ptrs) (hnodup : some.Nodup)
    (hsub : some ⊆ ptrs) : k.Fresh k' some :=
  ⟨h.keeps, hnodup, fun p hp => h.held p (hsub hp), fun p hp => h.fresh p (hsub hp)⟩

theorem newFileDescriptor_none {s s' : FileState} {d : Option Fat16Descriptor}
    (h : newFileDescriptor s d = some (none, s')) :
    s'.kmem = kfree (kzalloc s.kmem sizeofFileDescriptor).2 (kzalloc s.kmem sizeofFileDescriptor).1 := by
  unfold newFileDescriptor at h
  cases hfree : freeSlot s with
  | none =>
    simp only [hfree] at h
    obtain ⟨-, hs⟩ := Prod.mk.inj (Option.some.inj h)
    rw [← hs]
  | some i =>
    simp only [hfree] at h
    split_ifs at h
    cases h

/-- The file `fd` was opened after the heap `k`, its blocks and `kept` are allocations
made since. -/
def OpenedSince (k : KMem) (t : FileState) (fd : ℤ) (kept : List ℕ) : Prop :=
  ∃ i address a c entry, fd = ((i : ℕ) : ℤ) + 1 ∧ OpenAt t i address (.file a c entry) t.kmem.heap ∧
    k.Fresh t.kmem ([c, a, address] ++ kept)

section
variable {s s₁ : FileState} {filename : List UInt8} {stale : ℕ} {fd : ℤ}

theorem fopen_zero (h : s.kmem.Booted) (hopen : fopen s filename [0x72] stale = some (0, s₁)) :
    s.kmem.Leaks s₁.kmem := by
  obtain ⟨path, k, v, d, k', id, hparse, -, -, hread, hnew, hid⟩ := fopen_nonneg hopen le_rfl
  obtain ⟨hpath, hunused⟩ := parsePath_fresh h.coherent hparse
  have hfound := fat16Open_keeps hpath.keeps.coherent hread
  have hkmem : s₁.kmem = kfree (kzalloc k' sizeofFileDescriptor).2 (kzalloc k' sizeofFileDescriptor).1 := by
    rcases id with - | fd
    · have hnone := newFileDescriptor_none hnew
      exact hnone
    · obtain ⟨i, -, heq, -⟩ := newFileDescriptor_some hnew
      simp only [Option.getD_some] at hid
      omega
  rw [hkmem]
  have haligned : k.heap.startAddress % 4096 = 0 := by
    rw [hpath.keeps.region.start_eq]
    exact h.start_aligned
  have hrest := hfound.above.kzalloc_kfree haligned sizeofFileDescriptor
  refine ⟨hpath.keeps.above.trans hrest, path.address, hunused, ?_⟩
  apply hrest.held _ (hpath.held _ (by simp))
  rw [hpath.keeps.region.blockAddress]
  exact h.unused_ne_first hunused

/-- A file that was opened and can be queried: the blocks that closing it gives back,
and the path that stays. -/
theorem fopen_opened (h : s.kmem.Coherent) (hopen : fopen s filename [0x72] stale = some (fd, s₁)) (hpos : 0 < fd)
    {r : ℤ} {stat : FileStat} (hstat : fstat s₁ fd = some (r, some stat)) :
    ∃ path, s.kmem.Unused path ∧ OpenedSince s.kmem s₁ fd [path] := by
  obtain ⟨path, k, v, d, k', hparse, hv, hread, hnew⟩ := fopen_positive hopen hpos
  obtain ⟨i, hlt, rfl, hserved, rfl⟩ := newFileDescriptor_some hnew
  have hslot : getFileDescriptor { s with
      kmem := (kzalloc k' sizeofFileDescriptor).2
      fileDescriptors := Function.update s.fileDescriptors i
        (some ⟨(kzalloc k' sizeofFileDescriptor).1, i + 1, d⟩) } ((i : ℤ) + 1) =
      some (some ⟨(kzalloc k' sizeofFileDescriptor).1, i + 1, d⟩) := by
    rw [getFileDescriptor, if_neg (by omega), if_neg (by omega)]
    simp
  obtain ⟨d, rfl, a, c, entry, hitem, hc⟩ : ∃ d₀, d = some d₀ ∧ ∃ a c entry, d₀.item = .file a c entry ∧ c ≠ 0 := by
    unfold fstat at hstat
    simp only [hslot, Option.bind_eq_bind, Option.bind_some] at hstat
    obtain ⟨d₀, hd, hrest⟩ := Option.bind_eq_some_iff.mp hstat
    obtain ⟨t, ht, -⟩ := Option.bind_eq_some_iff.mp hrest
    refine ⟨d₀, hd, ?_⟩
    unfold fat16Stat at ht
    cases hitem : d₀.item with
    | directory address directory => simp [hitem] at ht
    | file a c entry =>
      refine ⟨a, c, entry, rfl, fun hnull => ?_⟩
      simp [hitem, Fat16Descriptor.entry, hnull] at ht
  obtain ⟨hpath, hunused⟩ := parsePath_fresh h hparse
  have hfresh := ((hpath.append (fat16Open_fresh hpath.keeps.coherent hread hitem hc)).kzalloc
    sizeofFileDescriptor (by decide) (by decide) hserved)
  refine ⟨path.address, hunused, i, (kzalloc k' sizeofFileDescriptor).1, a, c, entry, rfl,
    ⟨hlt, by simp [hv], ⟨a, c, entry, rfl, hc⟩, ⟨d, ?_, hitem⟩, rfl⟩, ?_⟩
  · simp
  · have hnodup := hfresh.nodup
    apply hfresh.of_subset
    · simp only [List.cons_append, List.nil_append, List.nodup_cons, List.mem_cons, List.not_mem_nil, or_false,
        not_or] at hnodup ⊢
      tauto
    · intro p
      simp only [List.cons_append, List.nil_append, List.mem_cons, List.not_mem_nil, or_false]
      tauto

theorem fopen_fstat (hopen : fopen s filename [0x72] stale = some (fd, s₁)) (hpos : 0 < fd) {r : ℤ}
    {stat : Option FileStat} (hstat : fstat s₁ fd = some (r, stat)) : r = 0 ∧ ∃ stat', stat = some stat' := by
  obtain ⟨path, k, v, d, k', -, -, -, hnew⟩ := fopen_positive hopen hpos
  obtain ⟨i, hlt, rfl, -, rfl⟩ := newFileDescriptor_some hnew
  unfold fstat getFileDescriptor at hstat
  rw [if_neg (by omega), if_neg (by omega)] at hstat
  simp only [add_sub_cancel_right, Int.toNat_natCast, Function.update_self, Option.bind_eq_bind,
    Option.bind_some] at hstat
  obtain ⟨d₀, -, hrest⟩ := Option.bind_eq_some_iff.mp hstat
  obtain ⟨t, -, heq⟩ := Option.bind_eq_some_iff.mp hrest
  obtain ⟨rfl, rfl⟩ := Prod.mk.inj (Option.some.inj heq)
  exact ⟨rfl, t, rfl⟩

end

theorem OpenAt.withKmem {t : FileState} {i address : ℕ} {item : Fat16Item} {heap : Heap}
    (h : OpenAt t i address item heap) (k : KMem) : OpenAt { t with kmem := k } i address item k.heap :=
  ⟨h.inside, h.mounted, h.file, h.slot, rfl⟩

theorem KMem.Keeps.ofHeap {k k' k'' : KMem} (h : k.Keeps k') (heq : k''.heap = k'.heap) : k.Keeps k'' := by
  have hmem : k'' = { k' with mem := k''.mem } := congrArg (KMem.mk · k''.mem) heq
  rw [hmem]
  exact h.withMem _

namespace OpenedSince
variable {k k' : KMem} {s t : FileState} {fd : ℤ} {kept : List ℕ}

theorem fresh (h : OpenedSince k t fd kept) : k.Fresh t.kmem kept := by
  obtain ⟨i, address, a, c, entry, -, -, hfresh⟩ := h
  exact hfresh.of_subset (List.nodup_append.mp hfresh.nodup).2.1 (List.subset_append_right _ _)

theorem keeps (h : OpenedSince k s fd kept) (hk : s.kmem.Keeps k') : OpenedSince k { s with kmem := k' } fd kept := by
  obtain ⟨i, address, a, c, entry, hfd, hopen, hfresh⟩ := h
  exact ⟨i, address, a, c, entry, hfd, hopen.withKmem k', hfresh.trans hk⟩

theorem kzalloc (h : OpenedSince k s fd kept) {size : ℕ} (hsize : 1 ≤ size) (hblocks : blocksFor size < 2 ^ 20)
    (hne : (Zhios.kzalloc s.kmem size).1 ≠ 0) :
    OpenedSince k { s with kmem := (Zhios.kzalloc s.kmem size).2 } fd ((Zhios.kzalloc s.kmem size).1 :: kept) := by
  obtain ⟨i, address, a, c, entry, hfd, hopen, hfresh⟩ := h
  refine ⟨i, address, a, c, entry, hfd, hopen.withKmem _, ?_⟩
  have hmore := hfresh.kzalloc size hsize hblocks hne
  have hperm : ((Zhios.kzalloc s.kmem size).1 :: ([c, a, address] ++ kept)).Perm
      ([c, a, address] ++ (Zhios.kzalloc s.kmem size).1 :: kept) := List.perm_middle.symm
  exact hmore.of_subset (hperm.nodup_iff.mp hmore.nodup) hperm.symm.subset

theorem read (h : OpenedSince k s fd kept) {buffer : ℕ} {size r : ℤ}
    (hread : fread { s with kmem := k' } fd buffer size = some (r, t)) :
    t.kmem.heap = k'.heap ∧ ∀ k'', s.kmem.Keeps k'' → OpenedSince k { t with kmem := k'' } fd kept := by
  obtain ⟨i, address, a, c, entry, rfl, hopen, hfresh⟩ := h
  have haccess : accessFile { s with kmem := k' } ((i : ℤ) + 1) (.read buffer size) = some t := by
    rw [accessFile, hread, Option.map_some]
  have hopen' := (hopen.withKmem k').access haccess
  exact ⟨hopen'.heap_eq, fun k'' hk'' => ⟨i, address, a, c, entry, rfl, hopen'.withKmem k'', hfresh.trans hk''⟩⟩

/-- What was allocated before the file was opened counts too. -/
theorem since {k₀ : KMem} {ptrs : List ℕ} (h : OpenedSince k t fd kept) (hfirst : k₀.Fresh k ptrs) :
    OpenedSince k₀ t fd (kept ++ ptrs) := by
  obtain ⟨i, address, a, c, entry, hfd, hopen, hfresh⟩ := h
  exact ⟨i, address, a, c, entry, hfd, hopen, by simpa only [List.append_assoc] using hfirst.append hfresh⟩

theorem release {p : ℕ} (h : OpenedSince k t fd (kept ++ [p])) :
    OpenedSince k { t with kmem := kfree t.kmem p } fd kept := by
  obtain ⟨i, address, a, c, entry, hfd, hopen, hfresh⟩ := h
  refine ⟨i, address, a, c, entry, hfd, hopen.withKmem _, ?_⟩
  have hperm : (([c, a, address] ++ (kept ++ [p])).Perm ([p] ++ ([c, a, address] ++ kept))) := by
    rw [← List.append_assoc]
    exact List.perm_append_comm
  exact (hfresh.of_subset (hperm.nodup_iff.mp hfresh.nodup) hperm.symm.subset).release

/-- Closing the file gives back its own blocks. -/
theorem close (h : OpenedSince k t fd kept) {s' : FileState} (hclose : fclose t fd = some s') :
    k.Fresh s'.kmem kept := by
  obtain ⟨i, address, a, c, entry, rfl, hopen, hfresh⟩ := h
  obtain ⟨d, hlive, hitem⟩ := hopen.live
  rw [fclose_live hlive rfl rfl hitem] at hclose
  obtain rfl := Option.some.inj hclose
  exact hfresh.release

end OpenedSince

/-- A read that reports no error was one of at least a byte. -/
theorem fread_size {s t : FileState} {fd size n : ℤ} {buffer : ℕ} (h : fread s fd buffer size = some (n, t))
    (hn : 0 ≤ n) : 0 < size := by
  unfold fread at h
  split_ifs at h with hargs
  · obtain ⟨hneg, -⟩ := Prod.mk.inj (Option.some.inj h)
    unfold EINARG at hneg
    omega
  · obtain ⟨⟨desc, d⟩, -, h⟩ := Option.bind_eq_some_iff.mp h
    obtain ⟨v, -, h⟩ := Option.bind_eq_some_iff.mp h
    obtain ⟨⟨res, bytes, d'⟩, hread, h⟩ := Option.bind_eq_some_iff.mp h
    obtain ⟨hres, -⟩ := Prod.mk.inj (Option.some.inj h)
    obtain ⟨entry, -, heq⟩ := Option.map_eq_some_iff.mp hread
    have hcount := congrArg Prod.fst heq
    by_contra hsize
    rw [loadEntriesFromCluster, readEntries_neg v _ _ (by omega)] at hcount
    dsimp only at hcount
    omega

theorem FileStat.size_lt {s : FileState} {fd r : ℤ} {stat : FileStat} (h : fstat s fd = some (r, some stat)) :
    stat.size < 2 ^ 32 := by
  unfold fstat at h
  obtain ⟨desc, -, h⟩ := Option.bind_eq_some_iff.mp h
  cases desc with
  | none => simp at h
  | some desc =>
    obtain ⟨d, -, h⟩ := Option.bind_eq_some_iff.mp h
    obtain ⟨t, ht, h⟩ := Option.bind_eq_some_iff.mp h
    obtain ⟨-, hstat⟩ := Prod.mk.inj (Option.some.inj h)
    obtain rfl := Option.some.inj hstat
    unfold fat16Stat at ht
    split at ht
    · cases ht
    · obtain ⟨entry, -, ht⟩ := Option.bind_eq_some_iff.mp ht
      simp only at ht
      split_ifs at ht
      obtain rfl := Option.some.inj ht
      change fileSize entry < 2 ^ 32
      exact load32_lt _ _

/-- A buffer into which a read went is an allocation of at least a block. -/
theorem readBuffer_blocks {size : ℕ} (hlt : size < 2 ^ 32) (hpos : 0 < int32 size) :
    1 ≤ size ∧ blocksFor size < 2 ^ 20 := by
  unfold int32 at hpos
  unfold blocksFor
  omega

theorem KMem.Booted.kzalloc {k : KMem} (h : k.Booted) (size : ℕ) : (Zhios.kzalloc k size).2.Booted := by
  have hregion := kzalloc_region k size
  refine ⟨h.coherent.kzalloc size, by rw [hregion.start_eq]; exact h.start_aligned, ?_⟩
  rw [hregion.blockAddress]
  exact h.first.kzalloc h.coherent size

theorem fclose_nonpos {s : FileState} {fd : ℤ} (h : fd ≤ 0) : fclose s fd = none := by
  simp [fclose, openFile, getFileDescriptor, zhiosMaxFileDescriptors, show ¬ (256 : ℤ) < fd by omega,
    show fd < 1 by omega]

theorem elfLoadFailed_heap {s s' : FileState} {k : KMem} {elfFile elfMemory : ℕ} {fd res r : ℤ} {file : Option ElfFile}
    {kept : List ℕ} (hpos : 0 < fd) (hne : elfFile ≠ 0)
    (hopen : OpenedSince k { s with kmem := if elfMemory = 0 then s.kmem else kfree s.kmem elfMemory } fd
      (kept ++ [elfFile])) (h : elfLoadFailed s elfFile elfMemory fd res = some (r, file, s')) :
    r = res ∧ k.Fresh s'.kmem kept := by
  simp only [elfLoadFailed, if_neg hne, if_neg hpos.ne'] at h
  obtain ⟨t, hclose, heq⟩ := Option.map_eq_some_iff.mp h
  obtain rfl : t = s' := congrArg (·.2.2) heq
  exact ⟨(congrArg Prod.fst heq).symm, hopen.release.close hclose⟩

theorem KMem.Unused.not_held {k : KMem} {p : ℕ} (h : k.Unused p) : ¬ k.Held p := by
  obtain ⟨b, rfl, -, hfree⟩ := h
  exact fun hheld => hheld.not_freeAt hfree

theorem KMem.Leaks.kfree {k k' k'' : KMem} (h : k'.Leaks k'') (hbooted : k.Booted) (hkeeps : k.Keeps k')
    (hunused : ∀ p, k'.Unused p → k.Unused p) {q : ℕ} (hq : k'.Held q) (hnew : ¬ k.Held q) :
    k.Leaks (Zhios.kfree k'' q) := by
  obtain ⟨p, hp, hheld⟩ := h.leaked
  have hne : q ≠ k'.blockAddress 0 := by
    rw [hkeeps.region.blockAddress]
    exact fun heq => hnew (heq ▸ hbooted.first)
  have hboundary := (h.keeps.held q hq hne).boundary
  refine ⟨(hkeeps.above.trans h.keeps).kfree hboundary hnew, p, hunused p hp, ?_⟩
  exact hheld.kfree h.keeps.coherent hboundary fun heq => hp.not_held (heq ▸ hq)

section Elf
variable {s s' : FileState} {filename : List UInt8} {stale : ℕ} {res : ℤ}

/-- An ELF load that fails leaves the parsed path. Where the table was full, it may
have released the null pointer. -/
theorem elfLoad_failed (h : s.kmem.Booted) (hload : elfLoad s filename stale = some (res, none, s')) :
    res < 0 ∧ ((res = - EIO ∧ s.kmem.Leaks s'.kmem) ∨
      ∃ path, s.kmem.Unused path ∧ s.kmem.Fresh s'.kmem [path]) := by
  have hfirst := h.kzalloc sizeofElfFile
  unfold elfLoad at hload
  obtain ⟨⟨fd, opened⟩, hopen, hload⟩ := Option.bind_eq_some_iff.mp hload
  simp only [] at hload
  by_cases hfd : fd ≤ 0
  · rw [if_pos hfd, elfLoadFailed] at hload
    by_cases hzero : fd = 0
    · subst hzero
      rw [if_pos rfl] at hload
      obtain ⟨hres, hstate⟩ := Prod.mk.inj (Option.some.inj hload)
      obtain rfl := (Prod.mk.inj hstate).2
      refine ⟨by rw [← hres]; decide, Or.inl ⟨hres.symm, ?_⟩⟩
      have hleak := fopen_zero hfirst hopen
      have hkeeps := (KMem.Keeps.refl h.coherent).kzalloc sizeofElfFile
      simp only [if_true]
      split_ifs with hnull
      · obtain ⟨p, hp, hheld⟩ := hleak.leaked
        exact ⟨hkeeps.above.trans hleak.keeps, p, h.coherent.unused_of_kzalloc hp, hheld⟩
      · exact hleak.kfree h hkeeps (fun p hp => h.coherent.unused_of_kzalloc hp)
          (h.coherent.held_kzalloc (by decide) (by decide) hnull) ((KMem.Keeps.refl h.coherent).not_held _)
    · rw [if_neg hzero, fclose_nonpos hfd] at hload
      simp at hload
  · rw [if_neg hfd] at hload
    obtain ⟨⟨r, stat⟩, hstat, hload⟩ := Option.bind_eq_some_iff.mp hload
    obtain ⟨rfl, stat, rfl⟩ := fopen_fstat hopen (by omega) hstat
    obtain ⟨path, hunused, hopened⟩ := fopen_opened hfirst.coherent hopen (by omega) hstat
    simp only [] at hload
    by_cases hnull : (kzalloc s.kmem sizeofElfFile).1 = 0
    · rw [if_pos hnull] at hload
      cases hload
    rw [if_neg hnull] at hload
    have helf := (KMem.Fresh.nil (.refl h.coherent)).kzalloc sizeofElfFile (by decide) (by decide) hnull
    obtain ⟨⟨n, t⟩, hread, hload⟩ := Option.bind_eq_some_iff.mp hload
    obtain ⟨hheap, hrest⟩ := hopened.read hread
    have hfree : opened.kmem.Keeps (if (kzalloc opened.kmem stat.size).1 = 0 then t.kmem
        else kfree t.kmem (kzalloc opened.kmem stat.size).1) := by
      have hkeeps := KMem.Keeps.refl hopened.fresh.keeps.coherent
      split_ifs with hbuffer
      · exact (hkeeps.kzalloc stat.size).ofHeap hheap
      · apply ((hkeeps.kzalloc stat.size).kfree (hkeeps.coherent.boundary_kzalloc hbuffer) (hkeeps.not_held _)).ofHeap
        rw [kfree_heap, hheap, kfree_heap]
    have hafter := (hrest _ hfree).since helf
    have hfailed : ∀ r < 0, elfLoadFailed t (kzalloc s.kmem sizeofElfFile).1 (kzalloc opened.kmem stat.size).1 fd r =
        some (res, none, s') → res < 0 ∧ ((res = - EIO ∧ s.kmem.Leaks s'.kmem) ∨
          ∃ path, s.kmem.Unused path ∧ s.kmem.Fresh s'.kmem [path]) := by
      intro r hr hcall
      obtain ⟨hres, hfresh⟩ := elfLoadFailed_heap (by omega) hnull hafter hcall
      exact ⟨by omega, Or.inr ⟨path, h.coherent.unused_of_kzalloc hunused, hfresh⟩⟩
    simp only [] at hload
    split_ifs at hload with hn hr
    · exact hfailed _ hn hload
    · exact hfailed _ hr hload
    · obtain ⟨u, -, heq⟩ := Option.map_eq_some_iff.mp hload
      simp at heq

/-- A file that was loaded: its record, and its buffer unless that is null. -/
theorem elfLoad_loaded (h : s.kmem.Coherent) {file : ElfFile}
    (hload : elfLoad s filename stale = some (res, some file, s')) :
    s.kmem.Fresh s'.kmem [file.address] ∧ (file.elfMemory = 0 ∨ s'.kmem.Held file.elfMemory) := by
  obtain ⟨fd, opened, r, stat, n, t, hopen, hpos, hstat, hnull, hread, hn, hprocess, -, hclose⟩ := elfLoad_steps hload
  obtain ⟨path, -, hopened⟩ := fopen_opened (h.kzalloc sizeofElfFile) hopen hpos hstat
  have helf := (KMem.Fresh.nil (.refl h)).kzalloc sizeofElfFile (by decide) (by decide) hnull
  obtain ⟨hheap, hrest⟩ := hopened.read hread
  have hfile : file.address = (kzalloc s.kmem sizeofElfFile).1 ∧
      file.elfMemory = (kzalloc opened.kmem stat.size).1 := by
    have hsame := elfProcessLoaded_elfMemory t.kmem.mem
      ⟨(kzalloc s.kmem sizeofElfFile).1, (kzalloc opened.kmem stat.size).1, 0, 0, 0, 0⟩
    rw [hprocess] at hsame
    exact ⟨hsame.2, hsame.1⟩
  rw [hfile.1, hfile.2]
  by_cases hbuffer : (kzalloc opened.kmem stat.size).1 = 0
  · have hkeeps := (KMem.Keeps.refl hopened.fresh.keeps.coherent).kzalloc stat.size
    have hfresh := ((hrest t.kmem (hkeeps.ofHeap hheap)).since helf).close hclose
    exact ⟨hfresh.of_subset (List.nodup_singleton _) (by simp), Or.inl hbuffer⟩
  · obtain ⟨hsize, hblocks⟩ := readBuffer_blocks (FileStat.size_lt hstat) (fread_size hread hn)
    have hserved := hopened.kzalloc hsize hblocks hbuffer
    have hread' := (hserved.read hread).2 t.kmem ((KMem.Keeps.refl hserved.fresh.keeps.coherent).ofHeap hheap)
    have hfresh := (hread'.since helf).close hclose
    exact ⟨hfresh.of_subset (List.nodup_singleton _) (by simp), Or.inr (hfresh.held _ (by simp))⟩

theorem loadBinary_heap (h : s.kmem.Coherent) {ptr size : ℕ}
    (hload : loadBinary s filename stale = some (res, ptr, size, s')) :
    (res < 0 ∧ s.kmem.Keeps s'.kmem) ∨ (res = 0 ∧ s.kmem.Fresh s'.kmem [ptr]) := by
  unfold loadBinary at hload
  obtain ⟨⟨fd, opened⟩, hopen, hload⟩ := Option.bind_eq_some_iff.mp hload
  simp only [] at hload
  by_cases hfd : fd ≤ 0
  · by_cases hzero : fd = 0
    · rw [if_pos hzero, fclose_nonpos hfd] at hload
      cases hload
    · rw [if_neg hzero] at hload
      obtain ⟨⟨r, stat⟩, hstat, -⟩ := Option.bind_eq_some_iff.mp hload
      rw [fstat, getFileDescriptor, if_neg (by unfold zhiosMaxFileDescriptors; omega), if_pos (by omega)] at hstat
      cases hstat
  · rw [if_neg (by omega)] at hload
    obtain ⟨⟨r, stat⟩, hstat, hload⟩ := Option.bind_eq_some_iff.mp hload
    obtain ⟨rfl, stat, rfl⟩ := fopen_fstat hopen (by omega) hstat
    obtain ⟨path, -, hopened⟩ := fopen_opened h hopen (by omega) hstat
    have hkeeps := KMem.Keeps.refl hopened.fresh.keeps.coherent
    simp only [] at hload
    by_cases hbuffer : (kzalloc opened.kmem stat.size).1 = 0
    · rw [if_pos hbuffer] at hload
      obtain ⟨u, hclose, heq⟩ := Option.map_eq_some_iff.mp hload
      obtain ⟨rfl, -, -, rfl⟩ : - EMEM = res ∧ 0 = ptr ∧ 0 = size ∧ u = s' := by simpa using heq
      exact Or.inl ⟨by decide, ((hopened.keeps (hkeeps.kzalloc stat.size)).close hclose).keeps⟩
    rw [if_neg hbuffer] at hload
    obtain ⟨⟨n, t⟩, hread, hload⟩ := Option.bind_eq_some_iff.mp hload
    obtain ⟨hheap, hrest⟩ := hopened.read hread
    simp only [] at hload
    split_ifs at hload with hn
    · obtain ⟨u, hclose, heq⟩ := Option.map_eq_some_iff.mp hload
      obtain ⟨rfl, -, -, rfl⟩ : - EIO = res ∧ 0 = ptr ∧ 0 = size ∧ u = s' := by simpa using heq
      have hfree : opened.kmem.Keeps (kfree t.kmem (kzalloc opened.kmem stat.size).1) := by
        apply ((hkeeps.kzalloc stat.size).kfree (hkeeps.coherent.boundary_kzalloc hbuffer) (hkeeps.not_held _)).ofHeap
        rw [kfree_heap, hheap, kfree_heap]
      exact Or.inl ⟨by decide, ((hrest _ hfree).close hclose).keeps⟩
    · obtain ⟨u, hclose, heq⟩ := Option.map_eq_some_iff.mp hload
      obtain ⟨rfl, rfl, -, rfl⟩ : 0 = res ∧ (kzalloc opened.kmem stat.size).1 = ptr ∧ stat.size = size ∧ u = s' := by
        simpa using heq
      obtain ⟨hsize, hblocks⟩ := readBuffer_blocks (FileStat.size_lt hstat) (fread_size hread (by omega))
      have hserved := hopened.kzalloc hsize hblocks hbuffer
      have hread' := (hserved.read hread).2 t.kmem ((KMem.Keeps.refl hserved.fresh.keeps.coherent).ofHeap hheap)
      exact Or.inr ⟨rfl, (hread'.close hclose).of_subset (List.nodup_singleton _) (by simp)⟩

def ProgramData.pointers : ProgramData → List ℕ
  | .elf file => [file.elfMemory, file.address]
  | .binary ptr _ => [ptr]

/-- A program that was loaded: its allocations, where they are not null, and all
others are kept. -/
theorem loadData_loaded (h : s.kmem.Booted) {program : ProgramData}
    (hload : loadData s filename stale = some (.inr program, s')) :
    s.kmem.Keeps s'.kmem ∧ ∀ p ∈ program.pointers, p = 0 ∨ s'.kmem.Held p := by
  unfold loadData at hload
  obtain ⟨⟨res, file, t⟩, helf, hload⟩ := Option.bind_eq_some_iff.mp hload
  simp only [] at hload
  by_cases hformat : res = - EINFORMAT
  · rw [if_pos hformat] at hload
    have hfirst : s.kmem.Keeps t.kmem := by
      cases file with
      | some file => exact (elfLoad_loaded h.coherent helf).1.keeps
      | none =>
        rcases (elfLoad_failed h helf).2 with ⟨hres, -⟩ | ⟨path, -, hfresh⟩
        · rw [hres] at hformat
          exact absurd hformat (by decide)
        · exact hfresh.keeps
    obtain ⟨⟨res', ptr, size, u⟩, hbinary, heq⟩ := Option.bind_eq_some_iff.mp hload
    simp only [Option.some.injEq, Prod.mk.injEq] at heq
    obtain ⟨hres, rfl⟩ := heq
    rcases loadBinary_heap hfirst.coherent hbinary with ⟨hneg, -⟩ | ⟨rfl, hfresh⟩
    · rw [if_pos hneg] at hres
      cases hres
    · rw [if_neg (lt_irrefl 0)] at hres
      obtain rfl := Sum.inr.inj hres
      exact ⟨hfirst.trans hfresh.keeps, fun p hp => Or.inr (hfresh.held p hp)⟩
  · rw [if_neg hformat] at hload
    cases file with
    | none => simp at hload
    | some file =>
      simp only [Option.some.injEq, Prod.mk.injEq, Sum.inr.injEq] at hload
      obtain ⟨rfl, rfl⟩ := hload
      obtain ⟨hfresh, hmemory⟩ := elfLoad_loaded h.coherent helf
      refine ⟨hfresh.keeps, fun p hp => ?_⟩
      simp only [ProgramData.pointers, List.mem_cons, List.not_mem_nil, or_false] at hp
      rcases hp with rfl | rfl
      · exact hmemory
      · exact Or.inr (hfresh.held _ (by simp))

/-- Every load that fails leaks. -/
theorem loadData_failed (h : s.kmem.Booted) (hload : loadData s filename stale = some (.inl res, s')) :
    res < 0 ∧ s.kmem.Leaks s'.kmem := by
  have hleak : ∀ {t path}, s.kmem.Unused path → s.kmem.Fresh t [path] → s.kmem.Leaks t :=
    fun hunused hfresh => ⟨hfresh.keeps.above, _, hunused, hfresh.held _ (by simp)⟩
  unfold loadData at hload
  obtain ⟨⟨res', file, t⟩, helf, hload⟩ := Option.bind_eq_some_iff.mp hload
  simp only [] at hload
  cases file with
  | some file =>
    obtain ⟨fd, opened, r, stat, n, v, -, -, -, -, -, -, -, hres, -⟩ := elfLoad_steps helf
    rw [if_neg (by unfold EINFORMAT; omega)] at hload
    simp at hload
  | none =>
    obtain ⟨hneg, hfailed⟩ := elfLoad_failed h helf
    by_cases hformat : res' = - EINFORMAT
    · rw [if_pos hformat] at hload
      obtain ⟨⟨r, ptr, size, u⟩, hbinary, heq⟩ := Option.bind_eq_some_iff.mp hload
      simp only [Option.some.injEq, Prod.mk.injEq] at heq
      obtain ⟨hstatus, rfl⟩ := heq
      rcases hfailed with ⟨hres, -⟩ | ⟨path, hunused, hfresh⟩
      · rw [hres] at hformat
        exact absurd hformat (by decide)
      rcases loadBinary_heap hfresh.keeps.coherent hbinary with ⟨hr, hkeeps⟩ | ⟨rfl, -⟩
      · rw [if_pos hr] at hstatus
        obtain rfl := Sum.inl.inj hstatus
        exact ⟨hr, hleak hunused (hfresh.trans hkeeps)⟩
      · simp at hstatus
    · rw [if_neg hformat] at hload
      simp only [Option.some.injEq, Prod.mk.injEq, Sum.inl.injEq] at hload
      obtain ⟨rfl, rfl⟩ := hload
      rcases hfailed with ⟨-, hleaks⟩ | ⟨path, hunused, hfresh⟩
      · exact ⟨hneg, hleaks⟩
      · exact ⟨hneg, hleak hunused hfresh⟩

end Elf

end Zhios
