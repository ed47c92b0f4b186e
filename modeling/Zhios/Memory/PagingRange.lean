import Zhios.Memory.PagingRun

/-! How many pages `map_page_range` maps. Its count comes from rounding the end of
the range up, and an end that is already aligned is rounded up by a whole page. -/
namespace Zhios
open Machine

/-- The pages that `size` bytes from an aligned address on touch. -/
def pageCount (size : ℕ) : ℕ := (size + 4095) / 4096

theorem pagesFor_eq (size : ℕ) : pagesFor size =
    if size < 0x7FFFF000 then (if size % 4096 = 0 then pageCount size + 1 else pageCount size) else 0 := by
  unfold pagesFor pageCount
  split_ifs <;> omega

/-- The call succeeds, the pages of the range get their entries, in order, and every
other page keeps its own. -/
def MapsExactly (mem : Mem) (page v p size flags : ℕ) : Prop :=
  (mapPageRange mem page v p size flags).1 = 0 ∧
    ∀ u < 2 ^ 32, getPage (mapPageRange mem page v p size flags).2
        (pagingGetDirectory (mapPageRange mem page v p size flags).2 page) u =
      if v ≤ u ∧ (u - v) / 4096 < pageCount size then (p + 4096 * ((u - v) / 4096)) ||| flags
      else getPage mem (pagingGetDirectory mem page) u

/-- The range ends inside a page, and not so far on that the count turns negative. -/
def EndsInsidePage (size : ℕ) : Prop := size < 2 ^ 31 - 4096 ∧ size % 4096 ≠ 0

/-- What the count gets wrong is there already: the entry behind a range of whole
pages, or, when the count is negative, all entries of the range. -/
def MissIsInvisible (mem : Mem) (page v p size flags : ℕ) : Prop :=
  if size < 2 ^ 31 - 4096 then
    getPage mem (pagingGetDirectory mem page) (uint32 (v + size)) = uint32 (p + size) ||| flags
  else
    ∀ i < pageCount size, getPage mem (pagingGetDirectory mem page) (v + 4096 * i) = (p + 4096 * i) ||| flags

theorem pageIndex_range {v u n : ℕ} (ha : v % 4096 = 0) (hv : v + 4096 * n ≤ 2 ^ 32) (hv32 : v < 2 ^ 32)
    (hu : u < 2 ^ 32) : pageIndex (v / 4096) (u / 4096) < n ↔ v ≤ u ∧ (u - v) / 4096 < n := by
  unfold pageIndex
  omega

theorem pageIndex_eq {v u : ℕ} (ha : v % 4096 = 0) (hvu : v ≤ u) (hu : u < 2 ^ 32) :
    pageIndex (v / 4096) (u / 4096) = (u - v) / 4096 := by
  unfold pageIndex
  omega

/-- The wanted map is the one that stops after the pages of the range. -/
theorem remapFrames_range {F : ℕ → ℕ} {v p u n flags : ℕ} (hva : v % 4096 = 0) (hpa : p % 4096 = 0)
    (hv : v + 4096 * n ≤ 2 ^ 32) (hp : p + 4096 * n ≤ 2 ^ 32) (hv32 : v < 2 ^ 32) (hu : u < 2 ^ 32) :
    remapFrames F (v / 4096) (p / 4096) n flags (u / 4096) =
      if v ≤ u ∧ (u - v) / 4096 < n then (p + 4096 * ((u - v) / 4096)) ||| flags else F (u / 4096) := by
  rw [remapFrames]
  simp only [pageIndex_range hva hv hv32 hu]
  split_ifs with hin
  · rw [pageIndex_eq hva hin.1 hu]
    congr 1
    omega
  · rfl

/-- One iteration more changes the entry of one page more. -/
theorem remapFrames_extra {F : ℕ → ℕ} {m f n flags : ℕ} (hm : m < 2 ^ 20) (hn : n < 2 ^ 20) :
    (∀ P < 2 ^ 20, remapFrames F m f (n + 1) flags P = remapFrames F m f n flags P) ↔
      F ((m + n) % 2 ^ 20) = 4096 * ((f + n) % 2 ^ 20) ||| flags := by
  have hlast : pageIndex m ((m + n) % 2 ^ 20) = n := by unfold pageIndex; omega
  constructor
  · intro h
    have hpage := h ((m + n) % 2 ^ 20) (by omega)
    rw [remapFrames, remapFrames, hlast, if_pos (by omega), if_neg (by omega)] at hpage
    exact hpage.symm
  · intro h P hP
    unfold remapFrames
    by_cases hlt : pageIndex m P < n
    · rw [if_pos hlt, if_pos (by omega)]
    · rw [if_neg hlt]
      split_ifs with heq
      · have hindex : pageIndex m P = n := by omega
        have hPn : P = (m + n) % 2 ^ 20 := by
          unfold pageIndex at hindex
          omega
        rw [hindex, hPn, h]
      · rfl

section
variable {mem : Mem} {page : ℕ} {c : Chunk} {F : ℕ → ℕ} {v p size flags : ℕ}

/-- Both sides as flat maps: the pages that are mapped, and the pages that should be. -/
theorem ChunkAt.mapsExactly_iff (h : ChunkAt mem page c F) (hs : c.Separate page)
    (hblock : ∀ a, c.IsBlock page a → a % 4096 = 0 ∧ a + 4096 ≤ 2 ^ 32) (hf : flags < 4096)
    (hva : v % 4096 = 0) (hpa : p % 4096 = 0) (hv32 : v < 2 ^ 32) (hp32 : p < 2 ^ 32)
    (hsize : size < 2 ^ 31) (hv : v + size ≤ 2 ^ 32) (hp : p + size ≤ 2 ^ 32) :
    MapsExactly mem page v p size flags ↔
      ∀ P < 2 ^ 20, remapFrames F (v / 4096) (p / 4096) (pagesFor size) flags P =
        remapFrames F (v / 4096) (p / 4096) (pageCount size) flags P := by
  have hint : int32 (size : ℤ) = size := int32_of_bounds (by omega) (by omega)
  have hrange : mapPageRange mem page v p size flags = Zhios.mapPageLoop page flags (pagesFor size) v p 0 mem := by
    rw [← mapPageRange_pages mem page v flags hpa (by omega), hint]
  have hle : pagesFor size ≤ 2 ^ 20 := by
    unfold pagesFor
    split_ifs <;> omega
  obtain ⟨hres, hafter⟩ := h.mapFrames hs hblock hf (pagesFor size) v p hv32 hva hp32 hpa hle
  rw [MapsExactly, hrange, and_iff_right hres]
  have hwanted : ∀ u < 2 ^ 32, (if v ≤ u ∧ (u - v) / 4096 < pageCount size then
      (p + 4096 * ((u - v) / 4096)) ||| flags else getPage mem (pagingGetDirectory mem page) u) =
      remapFrames F (v / 4096) (p / 4096) (pageCount size) flags (u / 4096) := by
    intro u hu
    rw [remapFrames_range hva hpa (by unfold pageCount; omega) (by unfold pageCount; omega) hv32 hu,
      h.getPage_eq hblock hu]
  constructor
  · intro hall P hP
    have hu := hall (4096 * P) (by omega)
    rwa [hafter.getPage_eq hblock (by omega), hwanted _ (by omega), show 4096 * P / 4096 = P by omega] at hu
  · intro hall u hu
    rw [hafter.getPage_eq hblock hu, hwanted u hu]
    exact hall (u / 4096) (by omega)

/-- For an aligned range that does not wrap around, exactly its pages are mapped if
and only if the range ends inside a page, or what is mapped wrongly was so before. -/
theorem mapPageRange_exact_iff (h : ChunkAt mem page c F) (hs : c.Separate page)
    (hblock : ∀ a, c.IsBlock page a → a % 4096 = 0 ∧ a + 4096 ≤ 2 ^ 32) (hf : flags < 4096)
    (hva : v % 4096 = 0) (hpa : p % 4096 = 0) (hv32 : v < 2 ^ 32) (hp32 : p < 2 ^ 32)
    (hsize : size < 2 ^ 31) (hv : v + size ≤ 2 ^ 32) (hp : p + size ≤ 2 ^ 32) :
    MapsExactly mem page v p size flags ↔
      EndsInsidePage size ∨ MissIsInvisible mem page v p size flags := by
  rw [h.mapsExactly_iff hs hblock hf hva hpa hv32 hp32 hsize hv hp, pagesFor_eq]
  unfold EndsInsidePage MissIsInvisible
  by_cases hlarge : size < 2 ^ 31 - 4096
  · rw [if_pos (show size < 0x7FFFF000 by omega), if_pos hlarge]
    by_cases hmul : size % 4096 = 0
    · have hcount : pageCount size < 2 ^ 20 := by unfold pageCount; omega
      have hpage : (v / 4096 + pageCount size) % 2 ^ 20 = uint32 (v + size) / 4096 := by
        unfold pageCount uint32
        omega
      have hframe : 4096 * ((p / 4096 + pageCount size) % 2 ^ 20) = uint32 (p + size) := by
        unfold pageCount uint32
        omega
      rw [if_pos hmul, remapFrames_extra (by omega) hcount, hpage, hframe, h.getPage_eq hblock (uint32_lt _)]
      exact ⟨Or.inr, fun hor => hor.resolve_left fun hin => hin.2 hmul⟩
    · rw [if_neg hmul]
      exact ⟨fun _ => Or.inl ⟨hlarge, hmul⟩, fun _ _ _ => rfl⟩
  · rw [if_neg (show ¬ size < 0x7FFFF000 by omega), if_neg hlarge]
    have hcount : v + 4096 * pageCount size ≤ 2 ^ 32 ∧ p + 4096 * pageCount size ≤ 2 ^ 32 := by
      unfold pageCount
      omega
    have hentry : ∀ i < pageCount size, remapFrames F (v / 4096) (p / 4096) (pageCount size) flags (v / 4096 + i) =
        (p + 4096 * i) ||| flags := by
      intro i hi
      have hu : remapFrames F (v / 4096) (p / 4096) (pageCount size) flags ((v + 4096 * i) / 4096) = _ :=
        remapFrames_range hva hpa hcount.1 hcount.2 hv32 (by omega)
      rwa [if_pos ⟨by omega, by omega⟩, show (v + 4096 * i) / 4096 = v / 4096 + i by omega,
        show (v + 4096 * i - v) / 4096 = i by omega] at hu
    have hpast : ∀ i < pageCount size, getPage mem (pagingGetDirectory mem page) (v + 4096 * i) = F (v / 4096 + i) := by
      intro i hi
      rw [h.getPage_eq hblock (by omega), show (v + 4096 * i) / 4096 = v / 4096 + i by omega]
    constructor
    · intro hall
      refine Or.inr fun i hi => ?_
      rw [hpast i hi, ← hentry i hi, ← hall _ (by omega)]
      exact (if_neg (by omega)).symm
    · rintro (hin | hall) P hP
      · exact absurd hin.1 hlarge
      · rw [remapFrames, if_neg (by omega), remapFrames]
        split_ifs with hin
        · have hrange := (pageIndex_range (u := 4096 * P) hva hcount.1 hv32 (by omega)).mp
            (by rwa [show 4096 * P / 4096 = P by omega])
          obtain ⟨i, rfl⟩ : ∃ i, P = v / 4096 + i := ⟨P - v / 4096, by omega⟩
          have hi : i < pageCount size := by omega
          have hindex : pageIndex (v / 4096) (v / 4096 + i) = i := by unfold pageIndex; omega
          rw [← hpast i hi, hall i hi, hindex]
          congr 1
          omega
        · rfl

end

/-- On a fresh chunk a range of 5000 bytes maps its two pages and no other. -/
theorem pagingNewChunk_mapsExactly : ∃ page k', pagingNewChunk ⟨freshKernelHeap, fun _ => 0⟩ 7 = some (page, k') ∧
    MapsExactly k'.mem page 0x1000 0x8000 5000 7 := by
  have hwf := freshKernelHeap_wellFormed fun _ => 0
  obtain ⟨page, k', hnew, -⟩ := pagingNewChunk_succeeds hwf 7 (by simp [Layout.used])
  obtain ⟨live, c, hc⟩ := pagingNewChunk_spec hwf (by decide) hnew
  refine ⟨page, k', hnew, ?_⟩
  exact (mapPageRange_exact_iff hc.chunkAt hc.separate
    (fun a ha => ⟨(hc.owned a ha).aligned hc.wellFormed, (hc.owned a ha).lt hc.wellFormed⟩)
    (by decide) (by decide) (by decide) (by decide) (by decide) (by decide) (by decide) (by decide)).mpr
      (Or.inl ⟨by decide, by decide⟩)

/-- A range of one whole page takes the page behind it along. -/
theorem mapPageRange_maps_page_behind : ∃ page k',
    pagingNewChunk ⟨freshKernelHeap, fun _ => 0⟩ 7 = some (page, k') ∧
      getPage k'.mem (pagingGetDirectory k'.mem page) 0x2000 = 0x2007 ∧
      ¬ MapsExactly k'.mem page 0x1000 0x8000 4096 7 := by
  have hwf := freshKernelHeap_wellFormed fun _ => 0
  obtain ⟨page, k', hnew, -⟩ := pagingNewChunk_succeeds hwf 7 (by simp [Layout.used])
  obtain ⟨live, c, hc⟩ := pagingNewChunk_spec hwf (by decide) hnew
  have hblock : ∀ a, c.IsBlock page a → a % 4096 = 0 ∧ a + 4096 ≤ 2 ^ 32 :=
    fun a ha => ⟨(hc.owned a ha).aligned hc.wellFormed, (hc.owned a ha).lt hc.wellFormed⟩
  refine ⟨page, k', hnew, hc.chunkAt.getPage_eq hblock (by decide), fun hexact => ?_⟩
  have hpages := (hc.chunkAt.mapsExactly_iff hc.separate hblock (by decide) (by decide) (by decide) (by decide)
    (by decide) (by decide) (by decide) (by decide)).mp hexact 2 (by decide)
  exact absurd hpages (by decide)

end Zhios
