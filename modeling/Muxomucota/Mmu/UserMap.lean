import Muxomucota.Mmu.AddressSpace
import Muxomucota.Mmu.Shm

/-!
# Mmu — mapping a list of frames

Where `vmmc_user_map_sg` puts its pages.  The two loops are a first-fit search that may skip a whole
page table at once; they find the first gap from `USER_MAP_BASE` on (`mapSgStart_found`).  Two things
go wrong afterwards: the search does not stop at `USER_MAP_TOP`, and where the gap found ends with a
page table of odd index, the `|` that makes up its end address loses the carry, and the pages are
mapped 4 MiB below the gap.
-/

namespace Muxomucota.Mmu
open Memory Pmm Lib

variable {m m' : Mem} {pd n pdi pti size base pages v f virt start : Nat} {flags : BitVec 32}
  {phys : List Nat}

/-- There is a page. -/
def Busy (m : Mem) (pd v : Nat) : Prop := m.page pd v ≠ none

/-! ### Mapping one page -/

/-- A new page table in an unused frame, whatever is in it. -/
theorem Held.addTable {k t : Nat} {w : BitVec 32} {m₁ : Mem} (h : Held m pd n)
    (ha : m.alloc = some (t, m₁)) (hpmm : m'.pmm = m₁.pmm)
    (hdir : ∀ i, m'.entry pd i = if i = k then w else m.entry pd i) (hf : frameOf w = t) :
    Held m' pd n := by
  obtain ⟨-, hs, -, hu₀, -, hu, -⟩ := alloc_spec ha
  have hne : pd ≠ t := h.dir_ne hu₀
  have hnew : ∀ i < n, isPr (m.entry pd i) = true → frameOf (m.entry pd i) ≠ t :=
    h.table_ne hu₀
  have hkeep : ∀ g, m.pmm.users g ≠ 0 → m'.pmm.users g ≠ 0 := by
    intro g hg
    rw [hpmm, hu]
    split
    · exact Nat.one_ne_zero
    · exact hg
  refine ⟨⟨fun i hi j hj => ?_, fun i hi => ?_⟩, hkeep pd h.dir, fun i hi => ?_, ?_⟩
  · rw [hdir, hdir]
    by_cases hik : i = k <;> by_cases hjk : j = k <;> simp only [hik, hjk, if_true, if_false]
    · exact fun _ _ _ => trivial
    · exact fun _ hpj hfr => absurd (hfr.symm.trans hf) (hnew j hj hpj)
    · exact fun hpi _ hfr => absurd (hfr.trans hf) (hnew i hi hpi)
    · exact h.apart i hi j hj
  · rw [hdir]
    split
    · exact fun _ => by rw [hf]; exact hne.symm
    · exact h.notDir i hi
  · rw [hdir]
    split
    · intro _
      rw [hf, hpmm, hu, if_pos rfl]
      exact Nat.one_ne_zero
    · exact fun hpr => hkeep _ (h.tables i hi hpr)
  · rw [hpmm, hs.1, hs.2]
    exact h.small

/-- A new page table that is filled first. -/
theorem Held.newTable {pt : Nat} {w lazy : BitVec 32} {m₁ : Mem} (h : Held m pd n)
    (hno : isPr (m.entry pd pdi) = false) (ha : m.alloc = some (pt, m₁)) (hw : isPr w = true)
    (hf : frameOf w = pt) (hl : isPr lazy = false) :
    Held ((m₁.setEntry pd pdi w).fillWords pt lazy) pd n ∧
      ((m₁.setEntry pd pdi w).fillWords pt lazy).entry pd pdi = w ∧
      ∀ v < n * 1024, ((m₁.setEntry pd pdi w).fillWords pt lazy).page pd v = m.page pd v := by
  obtain ⟨hram, -, -, hu₀, -⟩ := alloc_spec ha
  have hne : pd ≠ pt := h.dir_ne hu₀
  have hother : ∀ g, g ≠ pt → ∀ i, ((m₁.setEntry pd pdi w).fillWords pt lazy).entry g i =
      if g = pd ∧ i = pdi then w else m.entry g i := by
    intro g hg i
    rw [entry_congr (Ram.fillWords_frame _ _ hg), entry_setEntry, entry_congr (congrFun hram g)]
  have hdir : ∀ i, ((m₁.setEntry pd pdi w).fillWords pt lazy).entry pd i =
      if i = pdi then w else m.entry pd i := by
    intro i
    rw [hother pd hne]
    simp only [true_and]
  refine ⟨h.addTable ha rfl hdir hf, by rw [hdir, if_pos rfl], fun v hv => ?_⟩
  by_cases hvp : v / 1024 = pdi
  · have hlazy : ((m₁.setEntry pd pdi w).fillWords pt lazy).entry pt (v % 1024) = lazy :=
      Ram.entry_fillWords ..
    rw [page_absent (m := m) (by rw [hvp]; exact hno),
      page_present (by rw [hdir, if_pos hvp]; exact hw), hdir, if_pos hvp, hf, hlazy, present_eq_none]
    exact hl
  · refine page_congr (by rw [hdir, if_neg hvp]) fun hpr => ?_
    have hi : v / 1024 < n := by omega
    have hnew : frameOf (m.entry pd (v / 1024)) ≠ pt := h.table_ne hu₀ _ hi hpr
    rw [hother _ hnew, if_neg fun hc => h.notDir _ hi hpr hc.1]

theorem Held.setPage (h : Held m pd n) (hpdi : pdi < n) (hpr : isPr (m.entry pd pdi) = true)
    (pti : Nat) (w : BitVec 32) :
    Held (m.setEntry (frameOf (m.entry pd pdi)) pti w) pd n := by
  have hdir : ∀ i, (m.setEntry (frameOf (m.entry pd pdi)) pti w).entry pd i = m.entry pd i :=
    fun i => by rw [entry_setEntry, if_neg fun hc => h.notDir pdi hpdi hpr hc.1.symm]
  refine ⟨h.toSpace.setPage hpdi hpr w, h.dir, fun i hi => ?_, h.small⟩
  rw [hdir]
  exact h.tables i hi

/-- `vmmc_map_user_page_unlocked` maps one page. -/
theorem mapUserPage_page (h : Held m pd n) (hn : userPdes ≤ n) (hv : virt < physBase)
    (hm : vmmcMapUserPageUnlocked m pd virt f flags = some m') :
    Held m' pd n ∧ ∀ v < n * 1024, m'.page pd v =
      if v = virt / 4096 then some (entry f (pageFlags flags)) else m.page pd v := by
  have hk : isKernel virt = false := by simpa [isKernel] using hv
  simp only [physBase] at hv
  simp only [userPdes] at hn
  have hpdi : pdIndex virt < n := by unfold pdIndex; omega
  have hpti : ptIndex virt < 1024 := by unfold ptIndex; omega
  have hpage : pdIndex virt * 1024 + ptIndex virt = virt / 4096 := by unfold pdIndex ptIndex; omega
  have hnew : present (entry f (pageFlags flags)) = some (entry f (pageFlags flags)) :=
    present_eq_some.mpr ⟨by rw [isPr_entry]; exact isPr_pageFlags flags, rfl⟩
  unfold vmmcMapUserPageUnlocked at hm
  rw [hk] at hm
  simp only [Bool.false_eq_true, if_false] at hm
  split at hm
  · rename_i hpr
    cases hm
    refine ⟨h.setPage hpdi hpr _ _, fun v hv => ?_⟩
    rw [h.toSpace.page_setPage hpdi hpr hpti hv, hpage, hnew]
  · rename_i hpr
    have hpr : isPr (m.entry pd (pdIndex virt)) = false := by simpa using hpr
    obtain ⟨⟨pt, m₁⟩, ha, hm⟩ := Option.map_eq_some_iff.mp hm
    have hlt : pt < 2 ^ 20 := alloc_lt h.small ha
    dsimp only at hm
    generalize hfl : (mapPr ||| if lazyFlags (m.entry pd (pdIndex virt)) ≠ 0 then
      lazyFlags (m.entry pd (pdIndex virt)) else mapRw ||| mapUs) = fl at hm
    have hflags : IsFlags fl := hfl ▸
      isFlags_mapPr.or (.ite (isFlags_lazyFlags _) (isFlags_mapRw.or isFlags_mapUs))
    have hw : isPr (entry pt fl) = true := by rw [isPr_entry, ← hfl]; simp
    have hf := frameOf_entry hlt hflags
    obtain ⟨h₂, he₂, hp₂⟩ := h.newTable hpr ha hw hf (isPr_lazyFlags (m.entry pd (pdIndex virt)))
    have hpr₂ := hw
    rw [← he₂] at hpr₂
    have hf₂ := hf
    rw [← he₂] at hf₂
    rw [← hf₂] at hm
    subst hm
    refine ⟨?_, fun v hv => ?_⟩
    · have := h₂.setPage hpdi hpr₂ (ptIndex virt) (entry f (pageFlags flags))
      rwa [hf₂] at this ⊢
    · have := h₂.toSpace.page_setPage (w := entry f (pageFlags flags)) hpdi hpr₂ hpti hv
      rw [hpage, hnew, hp₂ v hv] at this
      rwa [hf₂] at this ⊢

/-- The last loop of `vmmc_user_map_sg`. -/
theorem mapFrames_page {s : Nat} (h : Held m pd n) (hn : userPdes ≤ n)
    (hs : s + phys.length ≤ userPdes * 1024) (hm : mapFrames m pd (s * 4096) phys flags = some m') :
    ∀ v < n * 1024, m'.page pd v = if s ≤ v ∧ v < s + phys.length then
      phys[v - s]?.map (entry · (pageFlags flags)) else m.page pd v := by
  simp only [userPdes] at hs
  have hrun := foldlM_rule (P := fun pre b => Held b pd n ∧
    ∀ v < n * 1024, b.page pd v = if s ≤ v ∧ v < s + pre.length then
      phys[v - s]?.map (entry · (pageFlags flags)) else m.page pd v) hm
    ⟨h, fun v _ => by rw [if_neg (by simp)]⟩ ?_
  · simpa using hrun.2
  rintro pre ⟨f, i⟩ post b b' hsplit ⟨hb, hp⟩ hstep
  have hget : phys.zipIdx[pre.length]? = some (f, i) := by rw [hsplit]; simp
  rw [List.getElem?_zipIdx, Option.map_eq_some_iff] at hget
  obtain ⟨g, hg, hgf⟩ := hget
  simp only [Nat.zero_add, Prod.mk.injEq] at hgf
  obtain ⟨rfl, rfl⟩ := hgf
  have hlt := (List.getElem?_eq_some_iff.mp hg).1
  have haddr : (s * 4096 + pre.length * 4096) % 2 ^ 32 = (s + pre.length) * 4096 := by omega
  rw [haddr] at hstep
  obtain ⟨hb', hp'⟩ := mapUserPage_page hb hn (by simp only [physBase]; omega) hstep
  refine ⟨hb', fun v hv => ?_⟩
  rw [hp' v hv, hp v hv, List.length_append, List.length_singleton,
    show (s + pre.length) * 4096 / 4096 = s + pre.length by omega]
  by_cases hvl : v = s + pre.length
  · rw [if_pos hvl, if_pos (by omega), show v - s = pre.length by omega, hg]
    rfl
  · rw [if_neg hvl]
    by_cases hin : s ≤ v ∧ v < s + pre.length
    · rw [if_pos hin, if_pos (by omega)]
    · rw [if_neg hin, if_neg (by omega)]

/-! ### The search -/

theorem scanTable_done {pt : Nat} (h : pages ≤ size) (k pti : Nat) :
    scanTable m pt pages k pti size = (pti, size) := by
  cases k with
  | zero => rfl
  | succ k => rw [scanTable, if_neg (by omega)]

/-- The search through one page table. -/
theorem scanTable_search (hpr : isPr (m.entry pd pdi) = true) {k : Nat} (hk : pti + k = 1024)
    (h : Search (Busy m pd) base pages (pdi * 1024 + pti) size) (hlt : size < pages) :
    ∃ pti' size', scanTable m (frameOf (m.entry pd pdi)) pages k pti size = (pti', size') ∧
      Search (Busy m pd) base pages (pdi * 1024 + pti') size' ∧ pti' ≤ 1024 ∧
      (size' < pages ∧ pti' = 1024 ∨ size' = pages ∧ pti < pti') := by
  induction k generalizing pti size with
  | zero => exact ⟨pti, size, rfl, h, by omega, .inl ⟨hlt, by omega⟩⟩
  | succ k ih =>
      have hpage : m.page pd (pdi * 1024 + pti) =
          present (m.entry (frameOf (m.entry pd pdi)) pti) := by
        have hi : (pdi * 1024 + pti) / 1024 = pdi := by omega
        rw [page_present (by rw [hi]; exact hpr), hi, show (pdi * 1024 + pti) % 1024 = pti by omega]
      rw [scanTable, if_pos hlt]
      by_cases hbusy : isPr (m.entry (frameOf (m.entry pd pdi)) pti) = true
      · rw [if_pos hbusy]
        have h₁ := h.reset hlt (by simp [Busy, hpage, present, hbusy])
        rw [Nat.add_assoc] at h₁
        obtain ⟨pti', size', hscan, hs, hle, hend⟩ := ih (by omega) h₁ (by omega)
        exact ⟨pti', size', hscan, hs, hle, hend.imp id fun he => ⟨he.1, by omega⟩⟩
      · rw [if_neg hbusy]
        have h₁ := h.free (k := 1) fun v hv hv' => by
          obtain rfl : v = pdi * 1024 + pti := by omega
          simp [Busy, hpage, present, hbusy]
        rw [Nat.add_assoc] at h₁
        by_cases hlt₁ : size + 1 < pages
        · obtain ⟨pti', size', hscan, hs, hle, hend⟩ := ih (by omega) h₁ hlt₁
          exact ⟨pti', size', hscan, hs, hle, hend.imp id fun he => ⟨he.1, by omega⟩⟩
        · exact ⟨pti + 1, size + 1, scanTable_done (by omega) k _, h₁, by omega,
            .inr ⟨by omega, by omega⟩⟩

/-- Where the search has stopped with a row that is long enough: in a page table with exactly the
pages asked for, or behind a directory entry without one. -/
structure Found (m : Mem) (pd base pages pdi pti size : Nat) : Prop where
  search : Search (Busy m pd) base pages (pdi * 1024 + pti) size
  inUser : pdi < userPdes
  end_pos : 0 < pti
  end_le : pti ≤ 1024
  inTable : isPr (m.entry pd pdi) = true → size = pages
  noTable : isPr (m.entry pd pdi) = false → pti = 1024 ∧ pages ≤ size ∧ size < pages + 1024

theorem Found.enough (h : Found m pd base pages pdi pti size) : pages ≤ size := by
  cases hpr : isPr (m.entry pd pdi) with
  | true => rw [h.inTable hpr]
  | false => exact (h.noTable hpr).2.1

/-- The search through the directory. -/
theorem scanDir_search {k : Nat} (pti : Nat) (hk : pdi + k = userPdes)
    (h : Search (Busy m pd) base pages (pdi * 1024) size) (hlt : size < pages) :
    ((scanDir m pd pages k pdi pti size).2.2 < pages ∧
      Search (Busy m pd) base pages (userPdes * 1024) (scanDir m pd pages k pdi pti size).2.2) ∨
      Found m pd base pages (scanDir m pd pages k pdi pti size).1
        (scanDir m pd pages k pdi pti size).2.1 (scanDir m pd pages k pdi pti size).2.2 := by
  induction k generalizing pdi pti size with
  | zero =>
      rw [show userPdes = pdi from hk.symm]
      exact .inl ⟨hlt, h⟩
  | succ k ih =>
      rw [scanDir]
      have hnext : pdi * 1024 + 1024 = (pdi + 1) * 1024 := by omega
      by_cases hpr : isPr (m.entry pd pdi) = true
      · have h₀ : Search (Busy m pd) base pages (pdi * 1024 + 0) size := by simpa using h
        obtain ⟨pti', size', hscan, hs, hle, hend⟩ :=
          scanTable_search hpr (k := 1024) (Nat.zero_add _) h₀ hlt
        simp only [hpr, if_true, hscan]
        rcases hend with ⟨hlt', rfl⟩ | ⟨rfl, hpos⟩
        · rw [if_neg (by omega)]
          rw [hnext] at hs
          exact ih _ (by omega) hs hlt'
        · rw [if_pos le_rfl]
          exact .inr ⟨hs, by omega, hpos, hle, fun _ => rfl, fun hno => absurd hpr (by simp [hno])⟩
      · have hno : isPr (m.entry pd pdi) = false := by simpa using hpr
        have hs := h.free (k := 1024) fun v hv hv' hbusy =>
          hbusy (page_absent (by rw [show v / 1024 = pdi by omega]; exact hno))
        simp only [hno, Bool.false_eq_true, if_false]
        by_cases henough : pages ≤ size + 1024
        · rw [if_pos henough]
          dsimp only
          exact .inr ⟨hs, by omega, by omega, le_rfl, fun hpr' => absurd hpr' hpr,
            fun _ => ⟨rfl, henough, by omega⟩⟩
        · rw [if_neg henough]
          rw [hnext] at hs
          exact ih _ (by omega) hs (by omega)

theorem mapSgStart_found (h : mapSgStart m pd pages = some start) (hpos : 0 < pages) :
    ∃ pdi pti size, Found m pd (userMapBase / 4096) pages pdi pti size ∧
      start = ((pdi * 0x400000 ||| pti * 0x1000) + 2 ^ 32 - size * 4096) % 2 ^ 32 := by
  unfold mapSgStart at h
  have hcount : userMapBase / 0x400000 + (physBase - userMapBase) / 0x400000 = userPdes := by decide
  have hsearch := scanDir_search 0 hcount (Search.start (Busy m pd) (userMapBase / 4096) pages) hpos
  generalize scanDir m pd pages ((physBase - userMapBase) / 0x400000) (userMapBase / 0x400000) 0 0 = r
    at h hsearch
  obtain ⟨pdi, pti, size⟩ := r
  dsimp only at h hsearch
  rcases hsearch with ⟨hlt, -⟩ | hfound
  · rw [if_pos hlt] at h
    cases h
  · have hle := hfound.enough
    rw [if_neg (by omega)] at h
    exact ⟨pdi, pti, size, hfound, (Option.some.inj h).symm⟩

/-- No `pages` pages in a row are free where `vmmc_user_map_sg` searches. -/
def NoRoom (m : Mem) (pd pages : Nat) : Prop :=
  ∀ a, userMapBase / 4096 ≤ a → a + pages ≤ physBase / 4096 → ¬ Gap (Busy m pd) a pages

/-- An empty list is put at the beginning of the area. -/
theorem mapSgStart_zero (m : Mem) (pd : Nat) : mapSgStart m pd 0 = some userMapBase := by
  have hscan : ∀ n, scanDir m pd 0 (n + 1) (userMapBase / 0x400000) 0 0 =
      if isPr (m.entry pd (userMapBase / 0x400000)) then (userMapBase / 0x400000, 0, 0)
      else (userMapBase / 0x400000, 1024, 1024) := by
    intro n
    rw [scanDir, scanTable_done le_rfl, if_pos (Nat.zero_le _)]
    split <;> rfl
  unfold mapSgStart
  rw [show (physBase - userMapBase) / 0x400000 = 191 + 1 by decide, hscan]
  by_cases hpr : isPr (m.entry pd (userMapBase / 0x400000)) = true
  · rw [if_pos hpr]; decide
  · rw [if_neg hpr]; decide

/-- The search fails if and only if there is no room. -/
theorem mapSgStart_none_iff : mapSgStart m pd pages = none ↔ NoRoom m pd pages := by
  rcases Nat.eq_zero_or_pos pages with rfl | hpos
  · rw [mapSgStart_zero]
    refine iff_of_false (by simp) fun hno => ?_
    exact hno (userMapBase / 4096) le_rfl (by decide) fun v hv hlt => by omega
  · have hcount : userMapBase / 0x400000 + (physBase - userMapBase) / 0x400000 = userPdes := by
      decide
    have hsearch := scanDir_search 0 hcount (Search.start (Busy m pd) (userMapBase / 4096) pages) hpos
    constructor
    · intro hnone a ha hend hgap
      unfold mapSgStart at hnone
      generalize scanDir m pd pages ((physBase - userMapBase) / 0x400000) (userMapBase / 0x400000) 0 0
        = r at hnone hsearch
      obtain ⟨pdi, pti, size⟩ := r
      dsimp only at hnone hsearch
      rcases hsearch with ⟨hlt, hs⟩ | hfound
      · have hle := hs.base_le
        have htop : physBase / 4096 = userPdes * 1024 := by decide
        exact hs.first a ha (by omega) hgap
      · have hle := hfound.enough
        rw [if_neg (by omega)] at hnone
        cases hnone
    · intro hno
      cases hstart : mapSgStart m pd pages with
      | none => rfl
      | some start =>
          obtain ⟨pdi, pti, size, hfound, -⟩ := mapSgStart_found hstart hpos
          have hgap := hfound.search.firstGap hfound.enough
          have hin := hfound.inUser
          have hend := hfound.end_le
          have hmin := hfound.enough
          have hle := hfound.search.base_le
          have htop : physBase / 4096 = userPdes * 1024 := by decide
          exact absurd hgap.gap (hno _ hgap.base_le (by omega))

/-! ### Where the pages end up -/

/-- The end address of the block: for a full page table behind an odd directory entry the carry is
lost. -/
theorem blockEnd_eq (hle : pti ≤ 1024) : pdi * 0x400000 ||| pti * 0x1000 =
    if pti = 1024 ∧ pdi % 2 = 1 then pdi * 0x400000 else pdi * 0x400000 + pti * 0x1000 := by
  by_cases hfull : pti = 1024
  · subst hfull
    obtain ⟨t, ht⟩ : ∃ t, t = pdi / 2 := ⟨_, rfl⟩
    have heven : 2 ^ 23 * t ||| 2 ^ 22 = 2 ^ 23 * t + 2 ^ 22 :=
      (Nat.two_pow_add_eq_or_of_lt (i := 23) (by decide) t).symm
    by_cases hodd : pdi % 2 = 1
    · rw [if_pos ⟨rfl, hodd⟩, show pdi * 0x400000 = 2 ^ 23 * t + 2 ^ 22 by omega, ← heven,
        show 1024 * 0x1000 = 2 ^ 22 by decide, Nat.or_assoc, Nat.or_self]
    · rw [if_neg fun hc => hodd hc.2, show pdi * 0x400000 = 2 ^ 23 * t by omega,
        show 1024 * 0x1000 = 2 ^ 22 by decide, heven]
  · rw [if_neg fun hc => hfull hc.1, Nat.mul_comm pdi, show 0x400000 = 2 ^ 22 by decide]
    exact (Nat.two_pow_add_eq_or_of_lt (by omega) pdi).symm

/-- The gap that ends at page `e` ends behind a directory entry of odd index: the entry has no page
table, or the gap takes the last page of it. -/
def CarryLost (m : Mem) (pd e : Nat) : Prop :=
  (e - 1) / 1024 % 2 = 1 ∧ (isPr (m.entry pd ((e - 1) / 1024)) = false ∨ e % 1024 = 0)

/-- The search finds the first gap, and maps there unless the carry is lost. -/
theorem mapSgStart_gap (h : mapSgStart m pd pages = some start) (hpos : 0 < pages) :
    ∃ a, FirstGap (Busy m pd) (userMapBase / 4096) pages a ∧ a + pages ≤ userPdes * 1024 ∧
      (CarryLost m pd (a + pages) → start = (a - 1024) * 4096) ∧
      (¬ CarryLost m pd (a + pages) → start = a * 4096) := by
  obtain ⟨pdi, pti, size, hf, rfl⟩ := mapSgStart_found h hpos
  have hle := hf.search.base_le
  have hmin := hf.enough
  have hend := hf.end_le
  have hend' := hf.end_pos
  have hin := hf.inUser
  simp only [userMapBase, userPdes] at hle hin ⊢
  rw [blockEnd_eq hf.end_le]
  refine ⟨pdi * 1024 + pti - size, hf.search.firstGap hmin, by omega, ?_⟩
  obtain ⟨hdir, hcarry⟩ : (pdi * 1024 + pti - size + pages - 1) / 1024 = pdi ∧
      (pti = 1024 ↔ isPr (m.entry pd pdi) = false ∨
        (pdi * 1024 + pti - size + pages) % 1024 = 0) := by
    cases hpr : isPr (m.entry pd pdi) with
    | true =>
        have := hf.inTable hpr
        simp only [Bool.true_eq_false, false_or]
        omega
    | false =>
        have := hf.noTable hpr
        simp only [true_or, iff_true]
        omega
  unfold CarryLost
  rw [hdir, ← hcarry]
  constructor
  · rintro ⟨hodd, hfull⟩
    rw [if_pos ⟨hfull, hodd⟩]
    omega
  · intro hok
    rw [if_neg fun hc => hok ⟨hc.2, hc.1⟩]
    omega

/-- The entry names the frame and grants what is asked for. -/
structure Granted (e : BitVec 32) (f : Nat) (flags : BitVec 32) : Prop where
  names : frameOf e = f
  write : isRw e = true ↔ flags &&& (vmmUw ||| vmmPw) ≠ 0
  user : isUs e = true ↔ flags &&& (vmmUr ||| vmmUw ||| vmmUx) ≠ 0

theorem granted_entry (hf : f < 2 ^ 20) : Granted (entry f (pageFlags flags)) f flags where
  names := frameOf_entry hf (isFlags_pageFlags flags)
  write := by
    rw [isRw_entry, pageFlags]
    by_cases h : flags &&& (vmmUw ||| vmmPw) = 0 <;> simp [h]
  user := by
    rw [isUs_entry, pageFlags]
    by_cases h : flags &&& (vmmUr ||| vmmUw ||| vmmUx) = 0 <;> simp [h]

/-- What is asked of `vmmc_user_map_sg`: the pages lie in the mapping area, were not there before,
have the frames now, and all others are as they were. -/
structure Placed (m : Mem) (pd n : Nat) (phys : List Nat) (flags : BitVec 32) (start : Nat) (m' : Mem) :
    Prop where
  aligned : start % 4096 = 0
  base_le : userMapBase ≤ start
  le_top : start + phys.length * 4096 ≤ userMapTop
  absent : Gap (Busy m pd) (start / 4096) phys.length
  mapped : ∀ i f, phys[i]? = some f → ∃ e, m'.page pd (start / 4096 + i) = some e ∧ Granted e f flags
  others : ∀ v < n * 1024, ¬ (start / 4096 ≤ v ∧ v < start / 4096 + phys.length) →
    m'.page pd v = m.page pd v

/-- **Mapping a list of frames**: the pages end up where they should if and only if the first gap in
the address space ends below `USER_MAP_TOP` and the carry of its end is not lost. -/
theorem user_map_sg_iff (h : Held m pd n) (hn : userPdes ≤ n) (hne : phys ≠ [])
    (hphys : ∀ f ∈ phys, f < 2 ^ 20) (hm : vmmcUserMapSg m pd phys flags = some (start, m'))
    (hs : start ≠ 0) :
    Placed m pd n phys flags start m' ↔
      ∃ a, FirstGap (Busy m pd) (userMapBase / 4096) phys.length a ∧
        a + phys.length ≤ userMapTop / 4096 ∧ ¬ CarryLost m pd (a + phys.length) := by
  unfold vmmcUserMapSg at hm
  split at hm
  · cases hm
    exact absurd rfl hs
  rename_i s hstart
  obtain ⟨b, hloop, hm⟩ := Option.map_eq_some_iff.mp hm
  cases hm
  obtain ⟨a, hgap, hend, hlost, hkept⟩ := mapSgStart_gap hstart (List.length_pos_iff.mpr hne)
  have hbase := hgap.base_le
  simp only [userMapBase] at hbase
  by_cases hcarry : CarryLost m pd (a + phys.length)
  · -- the page before the first gap is there
    constructor
    · intro hp
      have hbelow := hp.base_le
      have habsent := hp.absent
      rw [hlost hcarry] at hbelow habsent
      simp only [userMapBase] at hbelow
      rw [show (a - 1024) * 4096 / 4096 = a - 1024 by omega] at habsent
      exact absurd habsent (hgap.first (a - 1024) (by simp only [userMapBase]; omega) (by omega))
    · rintro ⟨a', hgap', -, hno⟩
      rw [hgap'.unique hgap] at hno
      exact absurd hcarry hno
  · have hstart' := hkept hcarry
    subst hstart'
    have hpages := mapFrames_page h hn hend hloop
    have hdiv : a * 4096 / 4096 = a := by omega
    constructor
    · intro hp
      refine ⟨a, hgap, ?_, hcarry⟩
      rw [Nat.le_div_iff_mul_le (by decide), Nat.add_mul]
      exact hp.le_top
    · rintro ⟨a', hgap', htop, -⟩
      obtain rfl := hgap'.unique hgap
      simp only [userMapTop] at htop
      refine ⟨by omega, by simp only [userMapBase]; omega, by simp only [userMapTop]; omega, ?_, ?_, ?_⟩
      · rw [hdiv]
        exact hgap.gap
      · intro i f hf
        have hlt := (List.getElem?_eq_some_iff.mp hf).1
        simp only [userPdes] at hend hn
        refine ⟨entry f (pageFlags flags), ?_, granted_entry (hphys f (List.mem_of_getElem? hf))⟩
        rw [hdiv, hpages (a' + i) (by omega), if_pos (by omega), Nat.add_sub_cancel_left, hf]
        rfl
      · intro v hv hout
        rw [hdiv] at hout
        rw [hpages v hv, if_neg hout]

/-! ### One page, beside an empty and a full page table -/

theorem mapSg_oneTable {w : BitVec 32} (hstart : mapSgStart (oneTable 768 w) 0 1 = some userMapBase) :
    vmmcUserMapSg (oneTable 768 w) 0 [3] vmmUr =
      some (userMapBase, (oneTable 768 w).setEntry 1 0 (entry 3 (pageFlags vmmUr))) := by
  have hdir : (oneTable 768 w).entry 0 (pdIndex userMapBase) =
      entry 1 (mapPr ||| mapRw ||| mapUs) := by
    rw [oneTable_dir]
    rfl
  have hmap : vmmcMapUserPageUnlocked (oneTable 768 w) 0 userMapBase 3 vmmUr =
      some ((oneTable 768 w).setEntry 1 0 (entry 3 (pageFlags vmmUr))) := by
    have hk : ¬ isKernel userMapBase = true := by decide
    have hpr : isPr (entry 1 (mapPr ||| mapRw ||| mapUs)) = true := rfl
    unfold vmmcMapUserPageUnlocked
    simp only [if_neg hk, hdir, if_pos hpr]
    rfl
  have hloop : mapFrames (oneTable 768 w) 0 userMapBase [3] vmmUr =
      some ((oneTable 768 w).setEntry 1 0 (entry 3 (pageFlags vmmUr))) := by
    unfold mapFrames
    simp only [List.zipIdx_cons, List.zipIdx_nil, List.foldlM_cons, List.foldlM_nil]
    rw [show (userMapBase + 0 * 4096) % 2 ^ 32 = userMapBase by decide, hmap]
    rfl
  unfold vmmcUserMapSg
  rw [List.length_singleton, hstart]
  simp only [hloop, Option.map_some]

/-- The first page of an empty mapping area. -/
theorem user_map_sg_first : ∃ m', Placed (oneTable 768 0) 0 1024 [3] vmmUr userMapBase m' := by
  have hnone : (oneTable 768 0).page 0 (userMapBase / 4096) = none := by
    rw [oneTable_page]
    rfl
  have hno : pages (fun _ => some 0) (oneTable 768 0) 0 (userMapBase / 4096) = none := by
    have hc : (fun _ : Nat => some 0) 0 = some 0 := rfl
    exact (pages_eq hc _).trans ((page_eq_pte (by decide)).symm.trans hnone)
  have hmap := mapSg_oneTable (mapSgStart_base (c := 0) rfl hno)
  refine ⟨_, (user_map_sg_iff (held_oneTable 768 1024 0) (by decide) (by decide) (by decide) hmap
    (by decide)).mpr ⟨userMapBase / 4096, ⟨le_rfl, fun v hv hv' => ?_, fun b hb hlt => by omega⟩,
      by decide, ?_⟩⟩
  · obtain rfl : v = userMapBase / 4096 := by
      rw [List.length_singleton] at hv'
      omega
    exact fun hbusy => hbusy hnone
  · exact fun hlost => absurd hlost.1 (by decide)

theorem scanTable_full {pt : Nat} (hfull : ∀ i, isPr (m.entry pt i) = true) (hpos : 0 < pages)
    (k pti : Nat) : scanTable m pt pages k pti 0 = (pti + k, 0) := by
  induction k generalizing pti with
  | zero => rfl
  | succ k ih =>
      rw [scanTable, if_pos hpos, if_pos (hfull pti), ih, Nat.add_assoc, Nat.add_comm 1 k]

/-- Behind a full page table the search goes on in a directory entry of odd index without a page
table, and the new page replaces the first one of the mapping area. -/
theorem map_sg_overwrites : ∃ m', Held (oneTable 768 (entry 2 mapPr)) 0 1024 ∧
    vmmcUserMapSg (oneTable 768 (entry 2 mapPr)) 0 [3] vmmUr = some (userMapBase, m') ∧
    ¬ Placed (oneTable 768 (entry 2 mapPr)) 0 1024 [3] vmmUr userMapBase m' := by
  have hscan : ∀ k, scanDir (oneTable 768 (entry 2 mapPr)) 0 1 (k + 1 + 1)
      (userMapBase / 0x400000) 0 0 = (769, 1024, 1024) := by
    intro k
    have hfull : ∀ i, isPr ((oneTable 768 (entry 2 mapPr)).entry 1 i) = true := fun i => by
      rw [oneTable_table]
      rfl
    have h₀ : (oneTable 768 (entry 2 mapPr)).entry 0 (userMapBase / 0x400000) =
        entry 1 (mapPr ||| mapRw ||| mapUs) := by
      rw [oneTable_dir]
      rfl
    have h₁ : (oneTable 768 (entry 2 mapPr)).entry 0 (userMapBase / 0x400000 + 1) = 0 := by
      rw [oneTable_dir]
      rfl
    have htab : frameOf (entry 1 (mapPr ||| mapRw ||| mapUs)) = 1 := rfl
    have hpr : isPr (entry 1 (mapPr ||| mapRw ||| mapUs)) = true := rfl
    rw [scanDir, h₀, hpr, htab]
    simp only [if_true, scanTable_full hfull Nat.one_pos]
    rw [if_neg (by decide), scanDir, h₁]
    rfl
  have hstart : mapSgStart (oneTable 768 (entry 2 mapPr)) 0 1 = some userMapBase := by
    unfold mapSgStart
    rw [show (physBase - userMapBase) / 0x400000 = 190 + 1 + 1 by decide, hscan]
    decide
  refine ⟨_, held_oneTable 768 1024 _, mapSg_oneTable hstart, fun hp => ?_⟩
  refine hp.absent (userMapBase / 4096) le_rfl (by decide) ?_
  unfold Busy
  rw [oneTable_page]
  decide

end Muxomucota.Mmu
