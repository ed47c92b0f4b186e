import Zhios.Memory.PagingChunk

/-! Runs of the paging interface over any number of chunks. The state carries the
flat maps the chunks stand for; every run keeps memory and flat maps in step. -/
namespace Zhios
open Machine

/-- The kernel's memory, and for each chunk the flat map it should represent. -/
structure PagingState where
  k : KMem
  maps : ℕ → Option (ℕ → ℕ)

def PagingState.remap (σ : PagingState) (page v w : ℕ) : ℕ → Option (ℕ → ℕ) :=
  Function.update σ.maps page ((σ.maps page).map fun F => Function.update F (v / 4096) w)

/-- One call: a chunk is built, or an aligned page of an existing chunk is set. -/
inductive PagingStep : PagingState → PagingState → Prop
  | newChunk (σ : PagingState) (flags page : ℕ) (k' : KMem) (hf : flags < 256)
      (hnew : pagingNewChunk σ.k flags = some (page, k')) :
      PagingStep σ ⟨k', Function.update σ.maps page (some (identityMap flags))⟩
  | setPage (σ : PagingState) (page v w : ℕ) (hpage : (σ.maps page).isSome) (hv : v < 2 ^ 32)
      (ha : v % 4096 = 0) (hw : w < 2 ^ 32) :
      PagingStep σ
        ⟨{ σ.k with mem := (setPage σ.k.mem (pagingGetDirectory σ.k.mem page) v w).2 }, σ.remap page v w⟩
  | mapPage (σ : PagingState) (page v p flags : ℕ) (hpage : (σ.maps page).isSome) (hv : v < 2 ^ 32)
      (ha : v % 4096 = 0) (hp : p < 2 ^ 32) (hpa : p % 4096 = 0) (hf : flags < 4096) :
      PagingStep σ
        ⟨{ σ.k with mem := (mapPage σ.k.mem page v p flags).2 }, σ.remap page v (p ||| flags)⟩

/-- Every chunk has its own live blocks, whose words spell out its flat map. -/
structure PagingState.Represented (σ : PagingState) (live : List Extent) (chunk : ℕ → Chunk) :
    Prop where
  wellFormed : σ.k.WellFormed live
  owned : ∀ page F, σ.maps page = some F → ∀ a, (chunk page).IsBlock page a → σ.k.Owns live a
  separate : ∀ page F, σ.maps page = some F → (chunk page).Separate page
  apart : ∀ p q F G, p ≠ q → σ.maps p = some F → σ.maps q = some G →
    ∀ a, (chunk p).IsBlock p a → ¬ (chunk q).IsBlock q a
  chunkAt : ∀ page F, σ.maps page = some F → ChunkAt σ.k.mem page (chunk page) F

namespace PagingState.Represented
variable {σ : PagingState} {live : List Extent} {chunk : ℕ → Chunk}

theorem empty {k : KMem} (h : k.WellFormed live) :
    PagingState.Represented ⟨k, fun _ => none⟩ live chunk :=
  ⟨h, by simp, by simp, by simp, by simp⟩

theorem block (h : σ.Represented live chunk) {page : ℕ} {F : ℕ → ℕ} (hF : σ.maps page = some F) (a : ℕ)
    (ha : (chunk page).IsBlock page a) : a % 4096 = 0 ∧ a + 4096 ≤ 2 ^ 32 :=
  ⟨(h.owned page F hF a ha).aligned h.wellFormed, (h.owned page F hF a ha).lt h.wellFormed⟩

theorem getPage_eq (h : σ.Represented live chunk) {page v : ℕ} {F : ℕ → ℕ}
    (hF : σ.maps page = some F) (hv : v < 2 ^ 32) :
    getPage σ.k.mem (pagingGetDirectory σ.k.mem page) v = F (v / 4096) :=
  (h.chunkAt page F hF).getPage_eq (h.block hF) hv

theorem pagingGetPhysicalAddress_eq (h : σ.Represented live chunk) {page v : ℕ} {F : ℕ → ℕ}
    (hF : σ.maps page = some F) (hv : v < 2 ^ 32) :
    pagingGetPhysicalAddress σ.k.mem page v = (F (v / 4096) &&& 0xfffff000) + v % 4096 :=
  (h.chunkAt page F hF).pagingGetPhysicalAddress_eq (h.block hF) hv

theorem setPage (h : σ.Represented live chunk) {page v w : ℕ} (hpage : (σ.maps page).isSome)
    (hv : v < 2 ^ 32) (ha : v % 4096 = 0) (hw : w < 2 ^ 32) :
    PagingState.Represented
      ⟨{ σ.k with mem := (Zhios.setPage σ.k.mem (pagingGetDirectory σ.k.mem page) v w).2 },
        σ.remap page v w⟩ live chunk := by
  obtain ⟨F, hF⟩ := Option.isSome_iff_exists.mp hpage
  have hd := directoryIndex_lt hv
  have hmaps : σ.remap page v w =
      Function.update σ.maps page (some (Function.update F (v / 4096) w)) := by
    rw [PagingState.remap, hF]
    rfl
  have hsome : ∀ q G, σ.remap page v w q = some G → ∃ G', σ.maps q = some G' := by
    intro q G hG
    by_cases hq : q = page
    · exact ⟨F, hq ▸ hF⟩
    · rw [hmaps, Function.update_of_ne hq] at hG
      exact ⟨G, hG⟩
  rw [(h.chunkAt page F hF).setPage_eq (h.block hF) hv ha]
  refine ⟨h.wellFormed.withMem _, fun q G hG => ?_, fun q G hG => ?_, fun p q G H hne hG hH => ?_,
    fun q G hG => ?_⟩
  · obtain ⟨G', hG'⟩ := hsome q G hG
    exact h.owned q G' hG'
  · obtain ⟨G', hG'⟩ := hsome q G hG
    exact h.separate q G' hG'
  · obtain ⟨G', hG'⟩ := hsome p G hG
    obtain ⟨H', hH'⟩ := hsome q H hH
    exact h.apart p q G' H' hne hG' hH'
  · have hblock : (chunk page).IsBlock page ((chunk page).table (pagingGetIndex v).1) :=
      Or.inr (Or.inr ⟨_, hd, rfl⟩)
    simp only [hmaps] at hG
    by_cases hq : q = page
    · subst hq
      rw [Function.update_self, Option.some.injEq] at hG
      rw [← hG, ← pagingGetIndex_page (v := v)]
      exact (h.chunkAt q F hF).store (h.separate q F hF) (h.block hF) hd tableIndex_lt hw
    · rw [Function.update_of_ne hq] at hG
      exact (h.chunkAt q G hG).store_outside (h.block hG) (h.block hF _ hblock).1
        (h.apart page q F G (Ne.symm hq) hF hG _ hblock) tableIndex_lt hw

theorem newChunk (h : σ.Represented live chunk) {flags page : ℕ} {k' : KMem} (hf : flags < 256)
    (hnew : pagingNewChunk σ.k flags = some (page, k')) :
    ∃ live' chunk', PagingState.Represented
      ⟨k', Function.update σ.maps page (some (identityMap flags))⟩ live' chunk' := by
  obtain ⟨live', c, hc⟩ := pagingNewChunk_spec h.wellFormed hf hnew
  have hother : ∀ q G, q ≠ page →
      Function.update σ.maps page (some (identityMap flags)) q = some G → σ.maps q = some G :=
    fun q G hq hG => by rwa [Function.update_of_ne hq] at hG
  have hclash : ∀ q G, σ.maps q = some G → ∀ a, (chunk q).IsBlock q a → ¬ c.IsBlock page a :=
    fun q G hG a ha hca => hc.fresh a hca (h.owned q G hG a ha)
  refine ⟨live', Function.update chunk page c, hc.wellFormed, fun q G hG => ?_, fun q G hG => ?_,
    fun p q G H hne hG hH => ?_, fun q G hG => ?_⟩
  · by_cases hq : q = page
    · subst hq
      rw [Function.update_self]
      exact hc.owned
    · rw [Function.update_of_ne hq]
      exact fun a ha => hc.mono a (h.owned q G (hother q G hq hG) a ha)
  · by_cases hq : q = page
    · subst hq
      rw [Function.update_self]
      exact hc.separate
    · rw [Function.update_of_ne hq]
      exact h.separate q G (hother q G hq hG)
  · by_cases hp : p = page
    · subst hp
      rw [Function.update_self, Function.update_of_ne (Ne.symm hne)]
      exact fun a ha hqa => hclash q H (hother q H (Ne.symm hne) hH) a hqa ha
    · by_cases hq : q = page
      · subst hq
        rw [Function.update_self, Function.update_of_ne hne]
        exact hclash p G (hother p G hne hG)
      · rw [Function.update_of_ne hp, Function.update_of_ne hq]
        exact h.apart p q G H hne (hother p G hp hG) (hother q H hq hH)
  · by_cases hq : q = page
    · subst hq
      simp only [Function.update_self, Option.some.injEq] at hG
      rw [Function.update_self, ← hG]
      exact hc.chunkAt
    · have hG := hother q G hq hG
      rw [Function.update_of_ne hq]
      exact (h.chunkAt q G hG).congr fun a ha j hj => hc.frame a (h.owned q G hG a ha) j hj

theorem newChunk_getPage (h : σ.Represented live chunk) {flags page q u : ℕ} {k' : KMem}
    (hf : flags < 256) (hnew : pagingNewChunk σ.k flags = some (page, k'))
    (hq : (σ.maps q).isSome) (hu : u < 2 ^ 32) :
    getPage k'.mem (pagingGetDirectory k'.mem q) u =
      getPage σ.k.mem (pagingGetDirectory σ.k.mem q) u := by
  obtain ⟨G, hG⟩ := Option.isSome_iff_exists.mp hq
  obtain ⟨live', c, hc⟩ := pagingNewChunk_spec h.wellFormed hf hnew
  have hat := (h.chunkAt q G hG).congr fun a ha j hj => hc.frame a (h.owned q G hG a ha) j hj
  rw [hat.getPage_eq (h.block hG) hu, h.getPage_eq hG hu]

theorem setPage_getPage (h : σ.Represented live chunk) {page v w q u : ℕ}
    (hpage : (σ.maps page).isSome) (hq : (σ.maps q).isSome) (hv : v < 2 ^ 32) (ha : v % 4096 = 0)
    (hw : w < 2 ^ 32) (hu : u < 2 ^ 32) (hne : q ≠ page ∨ u / 4096 ≠ v / 4096) :
    getPage (Zhios.setPage σ.k.mem (pagingGetDirectory σ.k.mem page) v w).2
        (pagingGetDirectory (Zhios.setPage σ.k.mem (pagingGetDirectory σ.k.mem page) v w).2 q) u =
      getPage σ.k.mem (pagingGetDirectory σ.k.mem q) u := by
  obtain ⟨G, hG⟩ := Option.isSome_iff_exists.mp hq
  have hafter := h.setPage hpage hv ha hw
  rw [h.getPage_eq hG hu]
  by_cases hqp : q = page
  · subst hqp
    have hmap : σ.remap q v w q = some (Function.update G (v / 4096) w) := by
      rw [PagingState.remap, Function.update_self, hG]
      rfl
    rw [hafter.getPage_eq hmap hu, Function.update_of_ne (hne.resolve_left fun hn => hn rfl)]
  · have hmap : σ.remap page v w q = some G := by
      rw [PagingState.remap, Function.update_of_ne hqp, hG]
    exact hafter.getPage_eq hmap hu

theorem step (h : σ.Represented live chunk) {σ' : PagingState} (hs : PagingStep σ σ') :
    ∃ live' chunk', σ'.Represented live' chunk' := by
  cases hs with
  | newChunk flags page k' hf hnew => exact h.newChunk hf hnew
  | setPage page v w hpage hv ha hw => exact ⟨live, chunk, h.setPage hpage hv ha hw⟩
  | mapPage page v p flags hpage hv ha hp hpa hf =>
    refine ⟨live, chunk, ?_⟩
    rw [mapPage_eq σ.k.mem page flags ha hpa]
    exact h.setPage hpage hv ha (Nat.or_lt_two_pow hp (by omega))

end PagingState.Represented

theorem PagingState.represented_run {k : KMem} {live : List Extent} (h : k.WellFormed live)
    {σ : PagingState} (hrun : Relation.ReflTransGen PagingStep ⟨k, fun _ => none⟩ σ) :
    ∃ live' chunk, σ.Represented live' chunk := by
  induction hrun with
  | refl => exact ⟨live, fun _ => ⟨0, fun _ => 0⟩, .empty h⟩
  | tail _ hs ih =>
    obtain ⟨live', chunk, hrep⟩ := ih
    exact hrep.step hs

/-- Two-level tables refine flat page maps. In every run from a tiled heap, each
chunk reads back the value last stored for a page, translation adds the in-page
offset, a fresh chunk is the identity on all addresses, and building a chunk or
storing into one page changes no other page of any chunk. -/
theorem paging_refines_flat_maps (k : KMem) (live : List Extent) (h : k.WellFormed live)
    (σ : PagingState) (hrun : Relation.ReflTransGen PagingStep ⟨k, fun _ => none⟩ σ) :
    (∀ page F, σ.maps page = some F → ∀ v < 2 ^ 32,
      getPage σ.k.mem (pagingGetDirectory σ.k.mem page) v = F (v / 4096) ∧
      pagingGetPhysicalAddress σ.k.mem page v = (F (v / 4096) &&& 0xfffff000) + v % 4096) ∧
    (∀ flags page k', flags < 256 → pagingNewChunk σ.k flags = some (page, k') →
      (∀ v < 2 ^ 32, getPage k'.mem (pagingGetDirectory k'.mem page) v = (v - v % 4096) ||| flags ∧
        pagingGetPhysicalAddress k'.mem page v = v) ∧
      ∀ q, (σ.maps q).isSome → ∀ u < 2 ^ 32, getPage k'.mem (pagingGetDirectory k'.mem q) u =
        getPage σ.k.mem (pagingGetDirectory σ.k.mem q) u) ∧
    (∀ page v w q u, (σ.maps page).isSome → (σ.maps q).isSome → v < 2 ^ 32 → v % 4096 = 0 →
      w < 2 ^ 32 → u < 2 ^ 32 → (q ≠ page ∨ u / 4096 ≠ v / 4096) →
      ∀ mem', mem' = (setPage σ.k.mem (pagingGetDirectory σ.k.mem page) v w).2 ∨
        (∃ p flags, p < 2 ^ 32 ∧ p % 4096 = 0 ∧ flags < 4096 ∧
          mem' = (mapPage σ.k.mem page v p flags).2) →
      getPage mem' (pagingGetDirectory mem' q) u =
        getPage σ.k.mem (pagingGetDirectory σ.k.mem q) u) := by
  obtain ⟨live', chunk, hrep⟩ := PagingState.represented_run h hrun
  refine ⟨fun page F hF v hv => ⟨hrep.getPage_eq hF hv, hrep.pagingGetPhysicalAddress_eq hF hv⟩,
    fun flags page k' hf hnew => ⟨fun v hv => ?_, fun q hq u hu => ?_⟩, ?_⟩
  · obtain ⟨live'', chunk', hrep'⟩ := hrep.newChunk hf hnew
    have hmap : Function.update σ.maps page (some (identityMap flags)) page =
        some (identityMap flags) := Function.update_self ..
    have hbase : 4096 * (v / 4096) = v - v % 4096 := by omega
    constructor
    · rw [hrep'.getPage_eq hmap hv, identityMap, hbase]
    · rw [hrep'.pagingGetPhysicalAddress_eq hmap hv, identityMap,
        or_and_page_mask (by omega) (by omega) (by omega)]
      omega
  · exact hrep.newChunk_getPage hf hnew hq hu
  · intro page v w q u hpage hq hv ha hw hu hne mem' hmem
    rcases hmem with rfl | ⟨p, flags, hp, hpa, hf, rfl⟩
    · exact hrep.setPage_getPage hpage hq hv ha hw hu hne
    · rw [mapPage_eq σ.k.mem page flags ha hpa]
      exact hrep.setPage_getPage hpage hq hv ha (Nat.or_lt_two_pow hp (by omega)) hu hne

theorem chunkTables_succeeds (flags directory fuel i : ℕ) (offset : ℤ) (k : KMem)
    (live : List Extent) (h : k.WellFormed live) (hroom : Layout.used live + fuel ≤ k.heap.total) :
    ∃ k' live', chunkTables flags directory fuel i offset k = some k' ∧ KMem.Served k k' live live' fuel ∧
      ∀ n, k.heap.Filled n → k'.heap.Filled (n + fuel) := by
  induction fuel generalizing i offset k live with
  | zero => exact ⟨k, live, rfl, ⟨h, rfl, rfl, rfl⟩, fun n hn => hn⟩
  | succ fuel ih =>
    have hne : (kzalloc k (4 * pagingTotalEntriesPerTable)).1 ≠ 0 :=
      h.kzalloc_ne_zero (by decide) (by decide) (by omega)
    obtain ⟨live₁, hb⟩ := h.kzalloc_block (by decide) (by decide) hne
    simp only [chunkTables, if_neg hne]
    generalize (kzalloc k (4 * pagingTotalEntriesPerTable)).1 = a at hb
    generalize (kzalloc k (4 * pagingTotalEntriesPerTable)).2 = k₁ at hb
    have hused := hb.used_eq
    have htotal := hb.region.total_eq
    have hfirst : KMem.Served k { k₁ with mem := buildTable flags directory i offset a k₁.mem } live live₁ 1 :=
      ⟨hb.wellFormed.withMem _, hused, htotal, hb.region.start_eq⟩
    obtain ⟨k', live', hk', hserved, hfilled⟩ := ih (i + 1)
      (int32 (offset + pagingTotalEntriesPerTable * pagingPageSize)) _ live₁ hfirst.wellFormed (by simp only; omega)
    refine ⟨k', live', hk', ?_, fun n hn => ?_⟩
    · rw [Nat.add_comm fuel 1]
      exact hfirst.trans hserved
    · have hnext := hfilled (n + 1) (hb.filled n hn)
      rwa [show n + 1 + fuel = n + (fuel + 1) by omega] at hnext

theorem pagingNewChunk_succeeds {k : KMem} {live : List Extent} (h : k.WellFormed live) (flags : ℕ)
    (hroom : Layout.used live + 1026 ≤ k.heap.total) :
    ∃ page k', pagingNewChunk k flags = some (page, k') ∧ (∃ live', KMem.Served k k' live live' 1026) ∧
      ∀ n, k.heap.Filled n → k'.heap.Filled (n + 1026) := by
  have hne : (kzalloc k (4 * pagingTotalEntriesPerTable)).1 ≠ 0 :=
    h.kzalloc_ne_zero (by decide) (by decide) (by omega)
  obtain ⟨live₁, hb⟩ := h.kzalloc_block (by decide) (by decide) hne
  have hused := hb.used_eq
  have htotal := hb.region.total_eq
  have hdirectory : KMem.Served k (kzalloc k (4 * pagingTotalEntriesPerTable)).2 live live₁ 1 :=
    ⟨hb.wellFormed, hused, hb.region⟩
  obtain ⟨k₂, live₂, hk₂, hserved, hfilled⟩ := chunkTables_succeeds flags
    (kzalloc k (4 * pagingTotalEntriesPerTable)).1 pagingTotalEntriesPerTable 0 0 _ live₁ hb.wellFormed
    (by simp only [pagingTotalEntriesPerTable] at *; omega)
  have hall := hdirectory.trans hserved
  have hallUsed := hall.used_eq
  have hallTotal := hall.region.total_eq
  have hne₂ : (kzalloc k₂ 4).1 ≠ 0 := hall.wellFormed.kzalloc_ne_zero (by decide) (by decide)
    (by simp only [pagingTotalEntriesPerTable] at *; omega)
  obtain ⟨live₃, hb₃⟩ := hall.wellFormed.kzalloc_block (by decide) (by decide) hne₂
  have hrecord : ∀ mem, KMem.Served k₂ { (kzalloc k₂ 4).2 with mem := mem } live₂ live₃ 1 := fun mem =>
    ⟨hb₃.wellFormed.withMem mem, hb₃.used_eq, hb₃.region.total_eq, hb₃.region.start_eq⟩
  simp only [pagingNewChunk, if_neg hne, hk₂, Option.bind_some, if_neg hne₂]
  exact ⟨_, _, rfl, ⟨live₃, hall.trans (hrecord _)⟩, fun n hn => hb₃.filled _ (hfilled _ (hb.filled n hn))⟩

/-- On the kernel heap a chunk can be built and a page of it remapped: the page
moves and its neighbour keeps its identity entry. -/
theorem paging_refines_flat_maps_kernel_heap :
    ∃ page k', pagingNewChunk ⟨freshKernelHeap, fun _ => 0⟩ 7 = some (page, k') ∧
      getPage (mapPage k'.mem page 0x1000 0x8000 7).2
        (pagingGetDirectory (mapPage k'.mem page 0x1000 0x8000 7).2 page) 0x1000 = 0x8007 ∧
      pagingGetPhysicalAddress (mapPage k'.mem page 0x1000 0x8000 7).2 page 0x1abc = 0x8abc ∧
      pagingGetPhysicalAddress (mapPage k'.mem page 0x1000 0x8000 7).2 page 0x2abc = 0x2abc := by
  have hwf := freshKernelHeap_wellFormed fun _ => 0
  obtain ⟨page, k', hnew, -⟩ := pagingNewChunk_succeeds hwf 7 (by simp [Layout.used])
  have hbuilt := PagingStep.newChunk ⟨⟨freshKernelHeap, fun _ => 0⟩, fun _ => none⟩ 7 page k'
    (by decide) hnew
  have hmapped := PagingStep.mapPage
    ⟨k', Function.update (fun _ => none) page (some (identityMap 7))⟩ page 0x1000 0x8000 7
    (by simp) (by decide) (by decide) (by decide) (by decide) (by decide)
  have hread := (paging_refines_flat_maps _ [] hwf _
    ((Relation.ReflTransGen.single hbuilt).tail hmapped)).1 page
      (Function.update (identityMap 7) 1 0x8007) (by simp [PagingState.remap])
  refine ⟨page, k', hnew, (hread 0x1000 (by decide)).1, ?_, ?_⟩
  · exact (hread 0x1abc (by decide)).2
  · exact (hread 0x2abc (by decide)).2

end Zhios
