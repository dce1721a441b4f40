import Muxomucota.Mmu.LazyMapping

/-!
# Mmu — when `vmmc_lazy_map_area` maps its area and nothing else

It does so for every content of the free frames exactly if the area has all pages of each directory
entry without a page table that it reaches, and if the page tables it reaches allow what it grants
(`lazyMapArea_exact`).  Otherwise the rest of a new page table is what the frame held before, or the
first access maps a page that cannot be written although it was asked for.
-/

namespace Muxomucota.Mmu
open Memory Pmm Lib

variable {m m' m₀ m₁ m₂ : Mem} {pd n v t k first last virt sz : Nat} {flags : BitVec 32}

/-- A size in bytes, in whole pages. -/
def areaPages (sz : Nat) : Nat := if sz % pageSize ≠ 0 then sz / pageSize + 1 else sz / pageSize

/-- An area of user pages; the size is a `ptrdiff_t`. -/
structure UserArea (virt sz : Nat) : Prop where
  aligned : virt % 4096 = 0
  size : sz < 2 ^ 31
  below : virt + sz ≤ physBase

/-- The same frames are in use, with the same contents. -/
structure SameUsed (m m₀ : Mem) : Prop where
  pmm : m₀.pmm = m.pmm
  ram : ∀ g, m.pmm.users g ≠ 0 → m₀.ram g = m.ram g

/-- The pages from `first` to `last` are on demand unless they are present, and the others are as
before. -/
structure MappedLazily (flags : BitVec 32) (m m' : Mem) (pd first last : Nat) : Prop where
  inside : ∀ v, first ≤ v → v < last → m.page pd v = none →
    m'.status pd v = .lazy (wantsWrite flags)
  outside : ∀ v < userPdes * 1024, ¬(first ≤ v ∧ v < last) → m'.status pd v = m.status pd v

/-- Where there is no page table, the area has all the pages; and where there is one, its directory entry
allows what the area asks for. -/
structure Mappable (flags : BitVec 32) (m : Mem) (pd first last : Nat) : Prop where
  whole : ∀ v, first ≤ v → v < last → isPr (m.entry pd (v / 1024)) = false →
    first ≤ v / 1024 * 1024 ∧ v / 1024 * 1024 + 1024 ≤ last
  granted : ∀ v, first ≤ v → v < last → isPr (m.entry pd (v / 1024)) = true → m.page pd v = none →
    isUs (m.entry pd (v / 1024)) = true ∧
      (wantsWrite flags = true → isRw (m.entry pd (v / 1024)) = true)

/-! ### The area -/

theorem UserArea.last_le (h : UserArea virt sz) : virt / 4096 + areaPages sz ≤ userPdes * 1024 := by
  obtain ⟨hal, -, hle⟩ := h
  unfold areaPages pageSize
  simp only [physBase, userPdes] at *
  split <;> omega

theorem lazyMapArea_eq (m : Mem) (pd virt sz : Nat) (flags : BitVec 32) :
    vmmcLazyMapArea m pd virt sz flags =
      lazyMapLoop pd flags (areaPages sz) (pdIndex virt) (ptIndex virt) (areaPages sz) m := rfl

theorem first_eq (virt : Nat) : pdIndex virt * 1024 + ptIndex virt = virt / 4096 := by
  unfold pdIndex ptIndex
  omega

theorem lazyMapArea_filled (h : Held m pd userPdes) (harea : UserArea virt sz)
    (hm : vmmcLazyMapArea m pd virt sz flags = some m') :
    Filled flags m m' pd userPdes (virt / 4096) (virt / 4096 + areaPages sz) := by
  have hle := harea.last_le
  rw [← first_eq] at hle ⊢
  rw [lazyMapArea_eq] at hm
  exact lazyMapLoop_filled h (le_refl _) (Nat.mod_lt _ (by decide)) hle hm

/-! ### Whether it returns does not depend on the free frames -/

theorem SameUsed.sameDir (h : SameUsed m m₀) (hd : m.pmm.users pd ≠ 0) : SameDir m m₀ pd :=
  ⟨h.pmm, fun i => entry_congr (h.ram pd hd) i⟩

theorem SameUsed.sameEntries (h : SameUsed m m₀) (hheld : Held m pd n) (hv : v < n * 1024) :
    SameEntries m m₀ pd v :=
  ⟨entry_congr (h.ram pd hheld.dir) _, fun hpr => entry_congr (h.ram _ (hheld.tables _ (by omega) hpr)) _⟩

/-- Only entries of page tables are written. -/
theorem SameDir.fold (h : SameDir m m₂ pd) (ht : pd ≠ t) (w : BitVec 32) (p : BitVec 32 → Bool)
    (lo c : Nat) :
    SameDir ((List.range' lo c).foldl (fun m i => if p (m.entry t i) then m else m.setEntry t i w) m)
      ((List.range' lo c).foldl (fun m i => if p (m.entry t i) then m else m.setEntry t i w) m₂) pd := by
  obtain ⟨hpmm, hram, -⟩ := fillEntries_spec t w p lo c m
  obtain ⟨hpmm₂, hram₂, -⟩ := fillEntries_spec t w p lo c m₂
  refine ⟨hpmm₂.trans (h.pmm.trans hpmm.symm), fun i => ?_⟩
  rw [entry_congr (hram _ ht), entry_congr (hram₂ _ ht), h.dir]

theorem SameDir.lazyMapLoop :
    ∀ {fuel k pti sz : Nat} {m m₂ m' : Mem}, SameDir m m₂ pd → Held m pd n → pti < 1024 →
      k * 1024 + pti + sz ≤ n * 1024 → Mmu.lazyMapLoop pd flags fuel k pti sz m = some m' →
      ∃ m₂', Mmu.lazyMapLoop pd flags fuel k pti sz m₂ = some m₂' := by
  intro fuel
  induction fuel with
  | zero => exact fun _ _ _ _ _ => ⟨_, rfl⟩
  | succ fuel ih =>
      intro k pti sz m m₂ m' hs h hpti hn hm
      by_cases hzero : sz = 0
      · rw [hzero]
        exact ⟨_, lazyMapLoop_nothing ..⟩
      have hk : k < n := by omega
      have hfits : ∀ c, c ≤ sz → pti + c = 1024 ∨ c = sz → (k + 1) * 1024 + 0 + (sz - c) ≤ n * 1024 := by
        intro c hc hend
        rw [Nat.add_zero]
        omega
      rw [Mmu.lazyMapLoop, if_neg hzero] at hm ⊢
      rw [hs.dir]
      split at hm
      · rename_i hwhole
        obtain ⟨hno, hfull, rfl⟩ := hwhole
        rw [if_pos ⟨hno, hfull, rfl⟩]
        exact ih (hs.setEntry ..) (h.absentDir (isPr_lazyEntry flags)) hpti
          (hfits 1024 hfull (.inl (Nat.zero_add 1024))) hm
      · rename_i hwhole
        rw [if_neg hwhole]
        have hpos : 0 < min sz (1024 - pti) := by omega
        have hle : pti + min sz (1024 - pti) ≤ 1024 := by omega
        have hrest := hfits (min sz (1024 - pti)) (by omega) (by omega)
        split at hm
        · rename_i hpr
          rw [if_pos hpr]
          have hround : Filled flags m _ pd n _ _ := filled_table h hk hpr rfl hpos hle
          exact ih (hs.fold (h.notDir k hk hpr).symm _ isPr _ _) hround.held (Nat.succ_pos 1023) hrest hm
        · rename_i hpr
          rw [if_neg hpr]
          have hno : isPr (m.entry pd k) = false := by simpa using hpr
          obtain ⟨⟨t, m₁⟩, ha, hm⟩ := Option.bind_eq_some_iff.mp hm
          obtain ⟨m₃, ha₂, h₃⟩ := hs.alloc ha
          have hne : pd ≠ t := by
            rintro rfl
            exact h.dir (alloc_spec ha).2.2.2.1
          rw [ha₂, Option.bind_some]
          have hround : Filled flags m _ pd n _ _ := filled_made h hno ha hpos hle
          have hfold := (h₃.setEntry pd k (entry t (mapPr ||| mapRw ||| mapUs))).fold hne
            (lazyEntry flags) (fun _ => false) pti (min sz (1024 - pti))
          simp only [Bool.false_eq_true, if_false] at hfold
          exact ih hfold hround.held (Nat.succ_pos 1023) hrest hm

theorem SameUsed.lazyMapArea (h : SameUsed m m₀) (hheld : Held m pd userPdes) (harea : UserArea virt sz)
    (hm : vmmcLazyMapArea m pd virt sz flags = some m') :
    ∃ m₀', vmmcLazyMapArea m₀ pd virt sz flags = some m₀' := by
  have hle := harea.last_le
  rw [← first_eq] at hle
  exact (h.sameDir hheld.dir).lazyMapLoop hheld (Nat.mod_lt _ (by decide)) hle hm

/-! ### Pages -/

/-- The entries that `vmmc_lazy_map_area` writes for a page that is not present. -/
theorem statusOf_lazyEntry (flags pde : BitVec 32) (hpr : isPr pde = true) :
    statusOf pde (lazyEntry flags) =
      if isUs pde then .lazy (isRw pde && wantsWrite flags) else .absent := by
  simp [statusOf, hpr, isPr_lazyEntry, isUs_lazyEntry, isRw_lazyEntry]

theorem status_lazyDir (hdir : m'.entry pd (v / 1024) = lazyEntry flags) :
    m'.status pd v = .lazy (wantsWrite flags) := by
  have hno : isPr (m'.entry pd (v / 1024)) = false := by rw [hdir, isPr_lazyEntry]
  rw [status_noTable hno, hdir, isUs_lazyEntry, if_pos rfl, isRw_lazyEntry]

/-- A page of the area that is not present. -/
theorem Outcome.inside (h : Outcome flags m m' pd first last v) (hin : first ≤ v ∧ v < last)
    (hpage : m.page pd v = none) :
    m'.status pd v = .lazy (wantsWrite flags) ↔
      (isPr (m.entry pd (v / 1024)) = true → isUs (m.entry pd (v / 1024)) = true ∧
        (wantsWrite flags = true → isRw (m.entry pd (v / 1024)) = true)) := by
  cases h with
  | table hpr hdir hpte =>
      rw [page_present hpr, present_eq_none] at hpage
      rw [if_pos ⟨hin, hpage⟩] at hpte
      rw [Mem.status, hdir, hpte, statusOf_lazyEntry _ _ hpr]
      cases isUs (m.entry pd (v / 1024)) <;> cases isRw (m.entry pd (v / 1024)) <;>
        cases wantsWrite flags <;> simp [hpr]
  | dir hno _ hdir =>
      exact iff_of_true (status_lazyDir hdir) fun hpr => by rw [hno] at hpr; cases hpr
  | made t hno hdir hf _ hpte =>
      rw [if_pos hin] at hpte
      refine iff_of_true ?_ fun hpr => by rw [hno] at hpr; cases hpr
      rw [Mem.status, hf, hpte, hdir, statusOf_lazyEntry _ _ (by simp)]
      simp

/-- A page beside the area, under a directory entry with a page table. -/
theorem Outcome.outside (h : Outcome flags m m' pd first last v) (hout : ¬(first ≤ v ∧ v < last))
    (hpr : isPr (m.entry pd (v / 1024)) = true) : m'.status pd v = m.status pd v := by
  cases h with
  | table _ hdir hpte =>
      rw [if_neg fun hc => hout hc.1] at hpte
      rw [Mem.status, hdir, hpte]
      rfl
  | dir hno => rw [hno] at hpr; cases hpr
  | made t hno => rw [hno] at hpr; cases hpr

/-- A page beside the area, under a directory entry that had none: it gets what was in the frame. -/
theorem Outcome.stale (h : Outcome flags m m' pd first last v) (hout : ¬(first ≤ v ∧ v < last))
    (hno : isPr (m.entry pd (v / 1024)) = false) :
    ∃ t, m.pmm.users t = 0 ∧ m'.status pd v =
      statusOf (entry t (mapPr ||| mapRw ||| mapUs)) (m.entry t (v % 1024)) := by
  cases h with
  | table hpr => rw [hno] at hpr; cases hpr
  | dir _ hin => exact absurd hin hout
  | made t _ hdir hf hfree hpte =>
      refine ⟨t, hfree, ?_⟩
      rw [if_neg hout] at hpte
      rw [Mem.status, hf, hpte, hdir]

theorem touches_of_mem (hfirst : first ≤ v) (hlast : v < last) : Touches first last (v / 1024) := by
  unfold Touches
  omega

/-! ### Exactly when -/

theorem Filled.mappedLazily (h : Filled flags m m' pd userPdes first last)
    (hle : last ≤ userPdes * 1024) (hok : Mappable flags m pd first last) :
    MappedLazily flags m m' pd first last := by
  refine ⟨fun v hlo hhi hpage => ?_, fun v hv hout => ?_⟩
  · refine ((h.reached v (by omega) (touches_of_mem hlo hhi)).inside ⟨hlo, hhi⟩ hpage).mpr ?_
    exact fun hpr => hok.granted v hlo hhi hpr hpage
  · by_cases ht : Touches first last (v / 1024)
    · refine (h.reached v hv ht).outside hout ?_
      by_contra hno
      -- then the area has a page there, and so it has all of them
      have hu : ∃ u, first ≤ u ∧ u < last ∧ u / 1024 = v / 1024 := by
        refine ⟨max first (v / 1024 * 1024), ?_⟩
        unfold Touches at ht
        omega
      obtain ⟨u, hlo, hhi, hu⟩ := hu
      have hwhole := hok.whole u hlo hhi (by rw [hu]; simpa using hno)
      omega
    · exact (h.others v hv ht).status

/-- The free frames filled with one word. -/
def Mem.stale (m : Mem) (w : BitVec 32) : Mem :=
  { m with ram := fun g => if m.pmm.users g = 0 then m.ram.fillWords g w g else m.ram g }

theorem sameUsed_stale (m : Mem) (w : BitVec 32) : SameUsed m (m.stale w) :=
  ⟨rfl, fun _ hg => if_neg hg⟩

theorem stale_entry (w : BitVec 32) (hfree : m.pmm.users t = 0) (i : Nat) : (m.stale w).entry t i = w := by
  have hram : (m.stale w).ram t = m.ram.fillWords t w t := if_pos hfree
  exact (Ram.word_congr hram _).trans (Ram.entry_fillWords ..)

theorem SameUsed.mappable (h : SameUsed m m₀) (hheld : Held m pd userPdes)
    (hle : last ≤ userPdes * 1024) (hok : Mappable flags m pd first last) :
    Mappable flags m₀ pd first last := by
  have hsame : ∀ v, v < last → SameEntries m m₀ pd v := fun v hv => h.sameEntries hheld (by omega)
  refine ⟨fun v hlo hhi hno => ?_, fun v hlo hhi hpr hpage => ?_⟩
  · rw [(hsame v hhi).dir] at hno
    exact hok.whole v hlo hhi hno
  · rw [page_congr (hsame v hhi).dir (hsame v hhi).table] at hpage
    rw [(hsame v hhi).dir] at hpr ⊢
    exact hok.granted v hlo hhi hpr hpage

/-- Where the area lacks a page of a directory entry without a page table, there is a content of the free
frames that such a page does not survive. -/
theorem stale_lost (h : Held m pd userPdes) (harea : UserArea virt sz)
    (hret : ∃ m', vmmcLazyMapArea m pd virt sz flags = some m') {u : Nat} (hu : u < userPdes * 1024)
    (hout : ¬(virt / 4096 ≤ u ∧ u < virt / 4096 + areaPages sz))
    (ht : Touches (virt / 4096) (virt / 4096 + areaPages sz) (u / 1024))
    (hno : isPr (m.entry pd (u / 1024)) = false) :
    ∃ m₀ m', SameUsed m m₀ ∧ vmmcLazyMapArea m₀ pd virt sz flags = some m' ∧
      m'.status pd u ≠ m₀.status pd u := by
  -- no page where there was a page on demand, and a page on demand where there was none
  have hw : ∃ w : BitVec 32, ∀ t, statusOf (entry t (mapPr ||| mapRw ||| mapUs)) w ≠ m.status pd u := by
    rw [status_noTable hno]
    cases isUs (m.entry pd (u / 1024)) with
    | true => exact ⟨0, fun t => by simp [statusOf]⟩
    | false => exact ⟨mapUs, fun t => by simp [statusOf]⟩
  obtain ⟨w, hw⟩ := hw
  obtain ⟨m₁, hm₁⟩ := hret
  have hsame := sameUsed_stale m w
  obtain ⟨m', hm'⟩ := hsame.lazyMapArea h harea hm₁
  have hentries := hsame.sameEntries h hu
  have hfilled := lazyMapArea_filled ((hsame.sameDir h.dir).held h) harea hm'
  obtain ⟨t, hfree, hst⟩ := (hfilled.reached u hu ht).stale hout (by rw [hentries.dir]; exact hno)
  refine ⟨m.stale w, m', hsame, hm', ?_⟩
  have hfree₀ : m.pmm.users t = 0 := hfree
  rw [hst, stale_entry w hfree₀, hentries.status]
  exact hw t

/-- **`vmmc_lazy_map_area`** does what its name says for every content of the free frames exactly where the
area has all pages of the directory entries without a page table, and the other directory entries allow
what it grants. -/
theorem lazyMapArea_exact (h : Held m pd userPdes) (harea : UserArea virt sz)
    (hret : ∃ m', vmmcLazyMapArea m pd virt sz flags = some m') :
    (∀ m₀, SameUsed m m₀ → ∀ m', vmmcLazyMapArea m₀ pd virt sz flags = some m' →
      MappedLazily flags m₀ m' pd (virt / 4096) (virt / 4096 + areaPages sz)) ↔
      Mappable flags m pd (virt / 4096) (virt / 4096 + areaPages sz) := by
  have hle := harea.last_le
  refine ⟨fun hall => ⟨fun v hlo hhi hno => ?_, fun v hlo hhi hpr hpage => ?_⟩, fun hok m₀ hsame m' hm' => ?_⟩
  · by_contra hpart
    have hu : ∃ u, u / 1024 = v / 1024 ∧ ¬(virt / 4096 ≤ u ∧ u < virt / 4096 + areaPages sz) := by
      by_cases hstart : virt / 4096 ≤ v / 1024 * 1024
      · have hend : virt / 4096 + areaPages sz < v / 1024 * 1024 + 1024 :=
          Nat.lt_of_not_le fun hend => hpart ⟨hstart, hend⟩
        exact ⟨v / 1024 * 1024 + 1023, by omega, fun hc => by omega⟩
      · exact ⟨v / 1024 * 1024, by omega, by omega⟩
    obtain ⟨u, huv, hout⟩ := hu
    have hlt : u < userPdes * 1024 := by omega
    have ht := touches_of_mem hlo hhi
    rw [← huv] at ht hno
    obtain ⟨m₀, m', hsame, hm', hne⟩ := stale_lost h harea hret hlt hout ht hno
    exact hne ((hall m₀ hsame m' hm').outside u hlt hout)
  · obtain ⟨m', hm'⟩ := hret
    have hreached := (lazyMapArea_filled h harea hm').reached v (by omega) (touches_of_mem hlo hhi)
    have hinside := (hall m ⟨rfl, fun _ _ => rfl⟩ m' hm').inside v hlo hhi hpage
    exact (hreached.inside ⟨hlo, hhi⟩ hpage).mp hinside hpr
  · have hheld := (hsame.sameDir h.dir).held h
    exact (lazyMapArea_filled hheld harea hm').mappedLazily hle (hsame.mappable h hle hok)

/-! ### A new page table -/

/-- An empty directory in frame 0, and frames filled with ones. -/
def Mem.used : Mem where
  pmm := ⟨0, 4, fun f => if f = 0 then 1 else 0, 0⟩
  ram f _ := if f = 0 then 0 else 0xFF

theorem used_dir (i : Nat) : Mem.used.entry 0 i = 0 := by
  simp [Mem.used, Mem.entry, Ram.word, Ram.wordAt]

theorem held_used : Held Mem.used 0 userPdes := by
  have hno : ∀ i, isPr (Mem.used.entry 0 i) = true → False := by
    intro i hi
    rw [used_dir] at hi
    cases hi
  refine ⟨⟨fun i _ j _ hpi => (hno i hpi).elim, fun i _ hpi => (hno i hpi).elim⟩, ?_,
    fun i _ hpi => (hno i hpi).elim, ?_⟩
  · exact (by decide : ((1 : BitVec 8) &&& bitmapUsers).toNat ≠ 0)
  · exact (by decide : 0 + 4 ≤ 2 ^ 20)

/-- The first 4 MiB. -/
theorem lazyMapArea_exact_whole :
    (∃ m', vmmcLazyMapArea Mem.used 0 0 0x400000 (vmmUr ||| vmmUw) = some m') ∧
      ∀ m₀, SameUsed Mem.used m₀ → ∀ m', vmmcLazyMapArea m₀ 0 0 0x400000 (vmmUr ||| vmmUw) = some m' →
        MappedLazily (vmmUr ||| vmmUw) m₀ m' 0 (0 / 4096) (0 / 4096 + areaPages 0x400000) := by
  have harea : UserArea 0 0x400000 := ⟨by decide, by decide, by decide⟩
  have hret : ∃ m', vmmcLazyMapArea Mem.used 0 0 0x400000 (vmmUr ||| vmmUw) = some m' := ⟨_, rfl⟩
  refine ⟨hret, (lazyMapArea_exact held_used harea hret).mpr
    ⟨fun v _ hlt _ => ?_, fun v _ _ hpr => ?_⟩⟩
  · have hpages : areaPages 0x400000 = 1024 := by decide
    rw [hpages] at hlt ⊢
    omega
  · rw [used_dir] at hpr
    cases hpr

/-- The page after a lazily mapped one is whatever the frame of the new page table held. -/
theorem lazyMapArea_stale : ¬∀ m m' pd virt sz flags, Held m pd userPdes → UserArea virt sz →
    vmmcLazyMapArea m pd virt sz flags = some m' →
    MappedLazily flags m m' pd (virt / 4096) (virt / 4096 + areaPages sz) := by
  intro hall
  have harea : UserArea 0 4096 := ⟨by decide, by decide, by decide⟩
  have hexact := hall Mem.used _ 0 0 4096 (vmmUr ||| vmmUw) held_used harea rfl
  have hsame := hexact.outside 1 (by decide) (by decide)
  revert hsame
  decide

end Muxomucota.Mmu
