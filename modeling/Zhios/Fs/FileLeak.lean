import Zhios.Fs.FileTable

/-! What is left of an open file after it is closed. `fopen` frees the parsed path
only when it fails, so its blocks stay taken whatever is done with the file. -/
namespace Zhios
open Machine

/-- A call on an open file that neither opens nor closes it. -/
inductive FileAccess
  | read (buffer : ℕ) (size : ℤ)
  | seek (offset : ℤ) (mode : FileSeekMode)
  | stat

def accessFile (s : FileState) (fd : ℤ) : FileAccess → Option FileState
  | .read buffer size => (fread s fd buffer size).map (·.2)
  | .seek offset mode => (fseek s fd offset mode).map (·.2)
  | .stat => (fstat s fd).map fun _ => s

def accessAll (fd : ℤ) : List FileAccess → FileState → Option FileState
  | [], s => some s
  | a :: rest, s => (accessFile s fd a).bind (accessAll fd rest)

theorem fat16Read_item (v : FatDisk) (size : ℤ) {d : Fat16Descriptor} {entry : List UInt8}
    (h : d.entry = some entry) :
    ∃ res bytes d', fat16Read v d size = some (res, bytes, d') ∧ d'.item = d.item := by
  rw [fat16Read, h]
  exact ⟨_, _, _, rfl, rfl⟩

theorem fat16Seek_item (pos : ℤ) {d : Fat16Descriptor} {entry : List UInt8} (h : d.entry = some entry) :
    ∃ res d', fat16Seek d pos = some (res, d') ∧ d'.item = d.item := by
  unfold fat16Seek
  split
  · exact ⟨_, d, rfl, rfl⟩
  · rw [h, Option.map_some]
    split_ifs
    · exact ⟨_, d, rfl, rfl⟩
    · exact ⟨_, _, rfl, rfl⟩

/-- Slot `i` is the descriptor at `address` of the open file `item`, over the block
table `heap`. -/
structure OpenAt (s : FileState) (i address : ℕ) (item : Fat16Item) (heap : Heap) : Prop where
  inside : i < zhiosMaxFileDescriptors
  mounted : s.volume ≠ none
  file : ∃ a c entry, item = .file a c entry ∧ c ≠ 0
  slot : ∃ d, s.fileDescriptors i = some ⟨address, i + 1, some d⟩ ∧ d.item = item
  heap_eq : s.kmem.heap = heap

namespace OpenAt
variable {s : FileState} {i address : ℕ} {item : Fat16Item} {heap : Heap}

theorem live (h : OpenAt s i address item heap) :
    ∃ d, s.Live (i + 1) ⟨address, i + 1, some d⟩ ∧ d.item = item := by
  obtain ⟨d, hslot, hitem⟩ := h.slot
  have hinside := h.inside
  exact ⟨d, ⟨by omega, by omega, by simpa using hslot⟩, hitem⟩

theorem entry (h : OpenAt s i address item heap) {d : Fat16Descriptor} (hd : d.item = item) :
    ∃ entry, d.entry = some entry := by
  obtain ⟨a, c, entry, hitem, hc⟩ := h.file
  exact ⟨entry, by simp [Fat16Descriptor.entry, hd, hitem, hc]⟩

theorem setPrivateData (h : OpenAt s i address item heap) (d : Fat16Descriptor) {d' : Fat16Descriptor}
    (hd : d'.item = item) (m : Mem) :
    OpenAt { s.setPrivateData (i + 1) ⟨address, i + 1, some d⟩ d' with kmem := { s.kmem with mem := m } }
      i address item heap := by
  refine ⟨h.inside, h.mounted, h.file, ⟨d', ?_, hd⟩, h.heap_eq⟩
  simp [FileState.setPrivateData]

theorem access (h : OpenAt s i address item heap) {a : FileAccess} {s' : FileState}
    (haccess : accessFile s (i + 1) a = some s') : OpenAt s' i address item heap := by
  obtain ⟨d, hlive, hitem⟩ := h.live
  obtain ⟨entry, hentry⟩ := h.entry hitem
  obtain ⟨v, hv⟩ := Option.ne_none_iff_exists'.mp h.mounted
  have hopen := openFile_live hlive rfl
  cases a with
  | read buffer size =>
    by_cases hsize : size = 0
    · simp only [accessFile, fread, hsize, true_or, if_true, Option.map_some] at haccess
      cases haccess
      exact h
    · obtain ⟨res, bytes, d', hread, hd'⟩ := fat16Read_item v size hentry
      have hcall : accessFile s (i + 1) (.read buffer size) =
          some { s.setPrivateData (i + 1) ⟨address, i + 1, some d⟩ d' with
            kmem := { s.kmem with mem := storeBytes s.kmem.mem buffer bytes } } := by
        rw [accessFile, fread, if_neg (by omega)]
        simp [hopen, hv, hread, FileState.setPrivateData]
      obtain rfl := Option.some.inj (haccess.symm.trans hcall)
      exact h.setPrivateData d (hd'.trans hitem) (storeBytes s.kmem.mem buffer bytes)
  | seek offset mode =>
    obtain ⟨res, d', hseek, hd'⟩ := fat16Seek_item offset hentry
    cases mode with
    | seekEnd =>
      cases haccess
      exact h
    | seekBegin | seekCurrent =>
      simp only [accessFile, fseek, hopen, hseek, Option.bind_eq_bind, Option.bind_some, Option.map_some] at haccess
      cases haccess
      exact h.setPrivateData d (hd'.trans hitem) s.kmem.mem
  | stat =>
    obtain ⟨-, -, rfl⟩ := Option.map_eq_some_iff.mp haccess
    exact h

theorem accessAll (h : OpenAt s i address item heap) {accesses : List FileAccess} {s' : FileState}
    (haccess : Zhios.accessAll (i + 1) accesses s = some s') : OpenAt s' i address item heap := by
  induction accesses generalizing s with
  | nil =>
    cases haccess
    exact h
  | cons a rest ih =>
    obtain ⟨s₁, hfirst, hrest⟩ := Option.bind_eq_some_iff.mp haccess
    exact ih (h.access hfirst) hrest

end OpenAt

def Heap.SameFree (heap heap' : Heap) : Prop :=
  ∀ i : ℕ, i < heap.total → (heap.FreeAt i ↔ heap'.FreeAt i)

/-- The call sequence of one use of a file, and whether it leaves the free blocks as
they were. -/
def OpenCloseNeutral (s : FileState) (filename mode : List UInt8) (stale : ℕ)
    (accesses : List FileAccess) : Prop :=
  ∃ fd s₁ s₂ s₃, fopen s filename mode stale = some (fd, s₁) ∧ accessAll fd accesses s₁ = some s₂ ∧
    fclose s₂ fd = some s₃ ∧ s.kmem.heap.SameFree s₃.kmem.heap

/-- The block of the parsed path was free before the call and is taken after the
file is closed. -/
theorem fopen_fclose_path {s : FileState} (h : s.kmem.Coherent) {filename mode : List UInt8} (stale : ℕ)
    {d : Fat16Descriptor} {k' : KMem} (hopens : OpensFile s filename mode d k') {i : ℕ}
    (hslot : freeSlot s = some i) (accesses : List FileAccess) :
    ∃ s₁, fopen s filename mode stale = some ((i : ℤ) + 1, s₁) ∧
      ∀ s₂, accessAll ((i : ℤ) + 1) accesses s₁ = some s₂ → ∃ s₃, fclose s₂ (i + 1) = some s₃ ∧
        ∃ b < s.kmem.heap.total, s.kmem.heap.FreeAt b ∧ ¬ s₃.kmem.heap.FreeAt b := by
  obtain ⟨path, k, v, hparse, -, hv, hopen⟩ := hopens.found
  obtain ⟨a, c, entry, hitem, hc⟩ := hopens.file
  obtain ⟨hpath, b, hb, hlt, hfree⟩ := parsePath_fresh h hparse
  obtain ⟨-, hinside, -, -⟩ := (findSlot_eq_some_iff _ _ _ _).mp hslot
  have hpathHeld := hpath.held path.address (by simp)
  -- what is allocated after the path is none of its blocks
  have hrest := (fat16Open_fresh hpath.keeps.coherent hopen hitem hc).kzalloc
    sizeofFileDescriptor (by decide) (by decide) hopens.served
  have hat : OpenAt (s.opened i d k') i (kzalloc k' sizeofFileDescriptor).1 d.item
      (kzalloc k' sizeofFileDescriptor).2.heap := by
    refine ⟨by omega, by simp [FileState.opened, hv], ⟨a, c, entry, hitem, hc⟩, ⟨d, ?_, rfl⟩, rfl⟩
    rw [FileState.opened_slot, if_pos rfl]
  refine ⟨_, hopens.fopen_slot hslot stale, fun s₂ haccess => ?_⟩
  have hat₂ := hat.accessAll haccess
  obtain ⟨d₂, hlive, hitem₂⟩ := hat₂.live
  refine ⟨_, fclose_live hlive rfl rfl (hitem₂.trans hitem), b, hlt, hfree, ?_⟩
  have hheap : s₂.kmem = { (kzalloc k' sizeofFileDescriptor).2 with mem := s₂.kmem.mem } :=
    congrArg (KMem.mk · s₂.kmem.mem) hat₂.heap_eq
  have hnodup := hrest.nodup
  simp only [List.nodup_cons, List.mem_cons, List.not_mem_nil, or_false, not_or] at hnodup
  rw [hheap]
  obtain ⟨-, hregion, hkept⟩ := (hrest.keeps.coherent.withMem s₂.kmem.mem).kfree_all
    [c, a, (kzalloc k' sizeofFileDescriptor).1]
    (by simp [hnodup.2.1.1, Ne.symm hnodup.1.1, Ne.symm hnodup.1.2.1])
    (by simpa using ⟨hrest.held c (by simp), hrest.held a (by simp), hrest.held _ (by simp)⟩)
  have hother : path.address ∉ [c, a, (kzalloc k' sizeofFileDescriptor).1] := by
    intro hmem
    apply hrest.fresh path.address ?_ hpathHeld
    simp only [List.mem_cons, List.not_mem_nil, or_false] at hmem ⊢
    tauto
  have hheld := hkept path.address (hrest.keeps.held _ hpathHeld) hother
  apply KMem.Held.not_freeAt
  have hregion' := (hpath.keeps.region.trans hrest.keeps.region).trans ⟨hregion.total_eq, hregion.start_eq⟩
  rwa [hb, ← hregion'.blockAddress] at hheld

/-- Whatever is opened and however it is used, closing it does not give back all
blocks that opening it took. -/
theorem fopen_fclose_not_neutral (s : FileState) (hheap : s.kmem.Coherent) (filename mode : List UInt8)
    (stale : ℕ) (accesses : List FileAccess) (d : Fat16Descriptor) (k' : KMem)
    (hopens : OpensFile s filename mode d k')
    (hslot : ∃ i < zhiosMaxFileDescriptors, s.fileDescriptors i = none) :
    ¬ OpenCloseNeutral s filename mode stale accesses := by
  obtain ⟨i, hi⟩ : ∃ i, freeSlot s = some i := by
    rw [← Option.ne_none_iff_exists']
    exact fun hfull => (freeSlot_eq_none_iff s).mp hfull hslot
  obtain ⟨s₁, hopen, hleaves⟩ := fopen_fclose_path hheap stale hopens hi accesses
  intro hneutral
  obtain ⟨fd, t₁, t₂, t₃, hopen', haccess, hclose, hsame⟩ := hneutral
  rw [hopen] at hopen'
  cases hopen'
  obtain ⟨s₃, hclose', b, hlt, hfree, htaken⟩ := hleaves t₂ haccess
  rw [hclose'] at hclose
  cases hclose
  exact htaken ((hsame b hlt).mp hfree)

theorem fopen_fclose_not_neutral_oneFile :
    ¬ OpenCloseNeutral oneFileState oneFilePath [0x72] 0 [.stat, .read 0 5] := by
  obtain ⟨d, k', hopens⟩ := oneFileState_opens
  exact fopen_fclose_not_neutral oneFileState oneFileState_coherent oneFilePath [0x72] 0 _ d k' hopens
    ⟨0, by decide, rfl⟩

/-- Opening and closing the only file of a fresh kernel takes a block for good. -/
theorem oneFile_leaks : ∃ s₁ s₂, fopen oneFileState oneFilePath [0x72] 0 = some (1, s₁) ∧
    fclose s₁ 1 = some s₂ ∧ ¬ oneFileState.kmem.heap.SameFree s₂.kmem.heap := by
  obtain ⟨d, k', hopens⟩ := oneFileState_opens
  obtain ⟨s₁, hopen, hleaves⟩ := fopen_fclose_path oneFileState_coherent 0 hopens (i := 0) rfl []
  obtain ⟨s₃, hclose, b, hlt, hfree, htaken⟩ := hleaves s₁ rfl
  exact ⟨s₁, s₃, hopen, hclose, fun hsame => htaken ((hsame b hlt).mp hfree)⟩

end Zhios
