import Muxomucota.Mmu.Owned

/-!
# Mmu — mapping pages and page faults

What `vmmc_map_user_page`, `vmmc_do_lazy_map` and `vmmc_do_cow` do to the address space they are
called for, and that they do nothing to any other (`Keeps`).  `Faulted` lists the ways a page fault
can end; everything above argues by cases on it.
-/

namespace Muxomucota.Mmu
open Memory Pmm Lib

variable {ρ : Type} {P : Nat → Option Nat} {R : ρ → Option Nat} {d : Nat → Int} {m m' m₁ : Mem}
  {c pd pdi pti v t f : Nat} {w flags : BitVec 32}

/-- Only frames that were free have changed: one in use keeps its user count and its flag, and its
contents too unless it is a page directory or page table. -/
structure Keeps (P : Nat → Option Nat) (m m' : Mem) : Prop where
  users : ∀ g, m.pmm.users g ≠ 0 → m'.pmm.users g = m.pmm.users g
  cow : ∀ g, m'.pmm.cow g = m.pmm.cow g
  data : ∀ g, m.pmm.users g ≠ 0 → ¬ Structural P m g →
    ¬ Structural P m' g ∧ m'.ram g = m.ram g
  frames : SameFrames m.pmm m'.pmm

theorem Keeps.refl (P : Nat → Option Nat) (m : Mem) : Keeps P m m :=
  ⟨fun _ _ => rfl, fun _ => rfl, fun _ _ h => ⟨h, rfl⟩, .refl _⟩

theorem Keeps.trans (h₁ : Keeps P m m₁) (h₂ : Keeps P m₁ m') : Keeps P m m' where
  users g hg := by
    have h := h₁.users g hg
    rw [h₂.users g (by omega), h]
  cow g := (h₂.cow g).trans (h₁.cow g)
  data g hg hs := by
    obtain ⟨hs₁, hr₁⟩ := h₁.data g hg hs
    obtain ⟨hs₂, hr₂⟩ := h₂.data g (by rw [h₁.users g hg]; exact hg) hs₁
    exact ⟨hs₂, hr₂.trans hr₁⟩
  frames := h₁.frames.trans h₂.frames

theorem structural_congr (h : tables P m' = tables P m) (f : Nat) :
    Structural P m' f ↔ Structural P m f := by
  unfold Structural
  rw [h]

theorem pdIndex_lt {virt : Nat} (h : virt < physBase) : pdIndex virt < userPdes := by
  simp only [physBase, pdIndex, userPdes] at *
  omega

theorem page_eq (virt : Nat) : pdIndex virt * 1024 + ptIndex virt = virt / 4096 := by
  simp only [pdIndex, ptIndex]
  omega

theorem ptIndex_lt (virt : Nat) : ptIndex virt < 1024 := by
  simp only [ptIndex]; omega

theorem page_div (virt : Nat) : virt / 4096 / 1024 = pdIndex virt := by
  simp only [pdIndex]; omega

theorem page_mod (virt : Nat) : virt / 4096 % 1024 = ptIndex virt := rfl

/-! ### Page tables -/

/-- A new page table whose entries are all `w`. -/
def Mem.newTable (m : Mem) (pd pdi pt : Nat) (flags w : BitVec 32) : Mem :=
  (m.setEntry pd pdi (Mmu.entry pt flags)).fillWords pt w

theorem fillWords_ram (m : Mem) {f g : Nat} (w : BitVec 32) (h : g ≠ f) :
    (m.fillWords f w).ram g = m.ram g :=
  Ram.fillWords_frame _ _ h

theorem fillFrame_ram (m : Mem) {f g : Nat} (b : BitVec 8) (h : g ≠ f) :
    (m.fillFrame f b).ram g = m.ram g := by
  simp [Mem.fillFrame, Ram.fillFrame, h]

theorem fillFrame_self (m : Mem) (f : Nat) (b : BitVec 8) : (m.fillFrame f b).ram f = fun _ => b := by
  simp [Mem.fillFrame, Ram.fillFrame]

theorem copyFrame_ram (m : Mem) {f g h : Nat} (hg : g ≠ f) : (m.copyFrame f h).ram g = m.ram g := by
  simp [Mem.copyFrame, Ram.copyFrame, hg]

theorem copyFrame_self (m : Mem) (f h : Nat) : (m.copyFrame f h).ram f = m.ram h := by
  simp [Mem.copyFrame, Ram.copyFrame]

theorem entry_fillWords (m : Mem) (f : Nat) (w : BitVec 32) (i : Nat) :
    (m.fillWords f w).entry f i = w :=
  Ram.entry_fillWords ..

/-- **A new page table**, all of whose entries are absent, changes no page. -/
theorem newTable_spec {pt : Nat} (h : Owned P R d m) (hc : P c = some pd) (hpdi : pdi < userPdes)
    (hno : isPr (m.entry pd pdi) = false) (ha : m.alloc = some (pt, m₁)) (hfl : IsFlags flags)
    (hpr : isPr flags = true) (hw : isPr w = false) :
    Owned P R d (m₁.newTable pd pdi pt flags w) ∧
      tables P (m₁.newTable pd pdi pt flags w) c pdi = some pt ∧
      pages P (m₁.newTable pd pdi pt flags w) = pages P m ∧
      Keeps P m (m₁.newTable pd pdi pt flags w) ∧
      ∀ c' i, ¬ (c' = c ∧ i = pdi) →
        tables P (m₁.newTable pd pdi pt flags w) c' i = tables P m c' i := by
  obtain ⟨hram₁, hs₁, htr, hu₀, -, hu₁, hcow₁⟩ := alloc_spec ha
  obtain ⟨h₁, hlt⟩ := h.alloc ha
  have hnot : ¬ Structural P m₁ pt := by
    rw [Owned.structural_of_ram hram₁]; exact h.free_not_structural hu₀
  have hne : pt ≠ pd := by
    rintro rfl
    have := (h.solo_dir hc).1
    omega
  obtain ⟨htab₁, hpg₁⟩ := views_of_ram (P := P) hram₁
  set m' := m₁.newTable pd pdi pt flags w with hm'
  have hpde : m'.entry pd pdi = entry pt flags := by
    rw [hm', Mem.newTable, entry_congr (fillWords_ram _ _ (Ne.symm hne)), entry_setEntry]
    simp
  have hoff : ∀ j, j ≠ pdi → m'.entry pd j = m₁.entry pd j := by
    intro j hj
    rw [hm', Mem.newTable, entry_congr (fillWords_ram _ _ (Ne.symm hne)), entry_setEntry]
    simp [hj]
  have hents : ∀ i, m'.entry pt i = w := entry_fillWords _ _ _
  have hram : ∀ g, g ≠ pd → g ≠ pt → m'.ram g = m₁.ram g := by
    intro g h₁ h₂
    rw [hm', Mem.newTable, fillWords_ram _ _ h₂, setEntry_ram _ _ _ h₁]
  have hpmm : m'.pmm = m₁.pmm := by rw [hm', Mem.newTable, fillWords_pmm, setEntry_pmm]
  have htab : m'.table pd pdi = some pt :=
    table_eq_some.mpr ⟨hpdi, by rw [hpde]; simpa using hpr, by rw [hpde]; exact frameOf_entry hlt hfl⟩
  obtain ⟨hts, hps⟩ := views_dirEntry h₁ hc (.inl hnot) hram hoff
  have hpages : pages P m' = pages P m := by
    rw [← hpg₁]
    funext c' v
    rw [hps]
    split
    · rename_i hv
      obtain ⟨rfl, hv⟩ := hv
      rw [pages_eq hc, Mem.pte, Mem.pte, hv, htab]
      have hnone : m₁.table pd pdi = none := by
        rw [Mem.table, entry_congr (congrFun hram₁ pd)]
        simp [present, hno]
      rw [hnone, Option.bind_some, hents]
      simp [hw]
    · rfl
  have hstr : ∀ g, Structural P m' g → g = pt ∨ Structural P m g := fun g hg =>
    (structural_dirEntry hts htab hg).imp_right (Owned.structural_of_ram hram₁ g).mp
  refine ⟨?_, by rw [tables_eq hc]; exact htab, hpages, ?_,
    fun c' i hi => by rw [hts, if_neg hi, htab₁]⟩
  · refine h₁.dirEntry hc (.inl hnot) hram hoff (by rw [hpmm]; exact .refl _) (fun a => ?_)
      (fun a ha => h.idle a ?_) fun a ha => ?_
    · have hcount : dirCount m' pd pdi a = if pt = a then 1 else 0 := by
        rw [dirCount, htab]
        have : countIn m' pt a = 0 := by
          refine Nat.eq_zero_of_not_pos fun hpos => ?_
          obtain ⟨i, hi, hp, -⟩ := (countIn_pos_iff ..).mp hpos
          rw [hents i, hw] at hp
          cases hp
        simp only [this, Nat.add_zero]
      rw [hcount, hpmm]
      simp only [Pi.sub_apply, one_apply, eq_comm (a := pt)]
      split <;> omega
    · rw [hpmm, hu₁] at ha
      split at ha
      · cases ha
      · exact ha
    · rw [hpmm, hu₁]
      rcases hstr a ha with rfl | ha'
      · have hd := h.idle a hu₀
        have hn := h.nonneg a
        exact ⟨if_pos rfl, by omega⟩
      · have hs := h.solo a ha'
        have hne : a ≠ pt := by rintro rfl; exact h.free_not_structural hu₀ ha'
        simpa [one_apply, hne] using hs
  · refine ⟨fun g hg => ?_, fun g => by rw [hpmm, hcow₁], fun g hg hs => ⟨fun hs' => ?_, ?_⟩,
      by rw [hpmm]; exact hs₁⟩
    · rw [hpmm, hu₁, if_neg]
      rintro rfl; exact hg hu₀
    · rcases hstr g hs' with rfl | h'
      · exact hg hu₀
      · exact hs h'
    · rw [hram g, hram₁]
      · rintro rfl; exact hs (.inl ⟨c, hc⟩)
      · rintro rfl; exact hg hu₀

/-- A write to a page table leaves the contents of pages alone. -/
theorem keeps_setEntry (h : Owned P R d m) (ht : tables P m c pdi = some t) (hpti : pti < 1024) :
    Keeps P m (m.setEntry t pti w) where
  users g _ := rfl
  cow g := rfl
  data g _ hs := by
    refine ⟨fun hs' => hs ((structural_congr (views_setEntry h ht hpti).1 g).mp hs'), ?_⟩
    refine setEntry_ram _ _ _ ?_
    rintro rfl
    exact hs (.inr ⟨c, pdi, ht⟩)
  frames := .refl _

/-! ### `vmmc_map_user_page` -/

theorem isFlags_pageFlags (flags : BitVec 32) : IsFlags (pageFlags flags) := by
  unfold pageFlags
  exact (((isFlags_mapPr).or (.ite isFlags_mapRw isFlags_zero)).or
    (.ite isFlags_mapUs isFlags_zero)).or (.ite isFlags_mapNc isFlags_zero)

theorem isPr_pageFlags (flags : BitVec 32) : isPr (pageFlags flags) = true := by
  simp [pageFlags]

theorem isFlags_lazyFlags (pde : BitVec 32) : IsFlags (lazyFlags pde) :=
  .ite ((IsFlags.and_right isFlags_mapRw).or isFlags_mapUs) isFlags_zero

theorem isPr_lazyFlags (pde : BitVec 32) : isPr (lazyFlags pde) = false := by
  simp [lazyFlags]

/-- The page at `virt` is mapped to `f`, below the kernel's part of the address space. -/
theorem mapUserPage_spec {virt : Nat} (h : Owned P R d m) (hc : P c = some pd)
    (hm : vmmcMapUserPageUnlocked m pd virt f flags = some m') (hlt : f < 2 ^ 20)
    (hf : ¬ Structural P m f) (hu : m.pmm.users f ≠ 0) :
    Owned P R (d + one f) m' ∧ Keeps P m m' ∧
      (∀ c' v, pages P m' c' v = if (c' = c ∧ v = virt / 4096) ∧ virt < physBase then
        some (entry f (pageFlags flags)) else pages P m c' v) ∧
      (∀ c' i, ¬ (c' = c ∧ i = pdIndex virt) → tables P m' c' i = tables P m c' i) := by
  unfold vmmcMapUserPageUnlocked at hm
  split at hm
  · rename_i hk
    simp only [isKernel, decide_eq_true_eq] at hk
    cases hm
    refine ⟨?_, .refl _ _, fun c' v => by rw [if_neg fun h' => absurd h'.2 (by omega)],
      fun _ _ _ => rfl⟩
    refine ⟨h.covered.mono fun a => ?_, fun a => ?_, fun a ha => ?_, fun a ha => ?_, h.small⟩
    · simp only [Pi.add_apply, one_apply]; split <;> omega
    · have := h.nonneg a
      simp only [Pi.add_apply, one_apply]; split <;> omega
    · have := h.idle a ha
      simp only [Pi.add_apply, one_apply]
      split
      · rename_i haf; subst haf; exact absurd ha hu
      · omega
    · have := h.solo a ha
      simp only [Pi.add_apply, one_apply]
      split
      · rename_i haf; subst haf; exact absurd ha hf
      · omega
  · rename_i hk
    have hk : virt < physBase := by simpa [isKernel] using hk
    have hw : isPr (entry f (pageFlags flags)) = true := by
      rw [isPr_entry]; exact isPr_pageFlags flags
    have hfr : frameOf (entry f (pageFlags flags)) = f := frameOf_entry hlt (isFlags_pageFlags _)
    -- the last step, once there is a page table
    have last : ∀ {n : Mem} {t : Nat}, Owned P R d n → tables P n c (pdIndex virt) = some t →
        pages P n = pages P m → Keeps P m n →
        Owned P R (d + one f) (n.setEntry t (ptIndex virt) (entry f (pageFlags flags))) ∧
        Keeps P m (n.setEntry t (ptIndex virt) (entry f (pageFlags flags))) ∧
        (∀ c' v, pages P (n.setEntry t (ptIndex virt) (entry f (pageFlags flags))) c' v =
          if (c' = c ∧ v = virt / 4096) ∧ virt < physBase then
            some (entry f (pageFlags flags)) else pages P m c' v) := by
      intro n t hn ht hp hk'
      have hdata := hk'.data f hu hf
      have hmap := hn.map ht (ptIndex_lt virt) hw (by rw [hfr]; exact hdata.1)
        (by rw [hfr, hk'.users f hu]; exact hu)
      rw [hfr] at hmap
      refine ⟨hmap, hk'.trans (keeps_setEntry hn ht (ptIndex_lt virt)), fun c' v => ?_⟩
      rw [(views_setEntry hn ht (ptIndex_lt virt)).2, page_eq, hp]
      simp [hk, present, hw]
    simp only at hm
    split at hm
    · rename_i hpr
      cases hm
      have ht : tables P m c (pdIndex virt) = some (frameOf (m.entry pd (pdIndex virt))) := by
        rw [tables_eq hc]; exact table_eq_some.mpr ⟨pdIndex_lt hk, hpr, rfl⟩
      obtain ⟨h₁, h₂, h₃⟩ := last h ht rfl (.refl _ _)
      exact ⟨h₁, h₂, h₃, fun _ _ _ => by rw [(views_setEntry h ht (ptIndex_lt virt)).1]⟩
    · rename_i hpr
      obtain ⟨⟨pt, m₁⟩, ha, rfl⟩ := Option.map_eq_some_iff.mp hm
      have hfl : IsFlags (mapPr ||| if lazyFlags (m.entry pd (pdIndex virt)) ≠ 0 then
          lazyFlags (m.entry pd (pdIndex virt)) else mapRw ||| mapUs) :=
        isFlags_mapPr.or (.ite (isFlags_lazyFlags _) (isFlags_mapRw.or isFlags_mapUs))
      obtain ⟨hn, ht, hp, hk', hto⟩ := newTable_spec h hc (pdIndex_lt hk) (by simpa using hpr) ha hfl
        (by simp) (isPr_lazyFlags (m.entry pd (pdIndex virt)))
      obtain ⟨h₁, h₂, h₃⟩ := last hn ht hp hk'
      exact ⟨h₁, h₂, h₃, fun c' i hi => by
        rw [← hto c' i hi]
        exact congrFun (congrFun (views_setEntry hn ht (ptIndex_lt virt)).1 c') i⟩

/-- In a directory entry that was empty, user programs may read and write; other frames in use than the
directory keep what is in them. -/
theorem mapUserPage_empty {virt : Nat} (h : Owned P R d m) (hc : P c = some pd)
    (hv : virt < physBase) (hpde : m.entry pd (pdIndex virt) = 0)
    (hm : vmmcMapUserPageUnlocked m pd virt f flags = some m') :
    isUs (m'.entry pd (pdIndex virt)) = true ∧ isRw (m'.entry pd (pdIndex virt)) = true ∧
      ∀ g, m.pmm.users g ≠ 0 → g ≠ pd → m'.ram g = m.ram g := by
  have hk : ¬ isKernel virt = true := by simpa [isKernel] using hv
  unfold vmmcMapUserPageUnlocked at hm
  simp only at hm
  rw [if_neg hk, hpde, if_neg (by decide)] at hm
  obtain ⟨⟨pt, m₁⟩, ha, rfl⟩ := Option.map_eq_some_iff.mp hm
  obtain ⟨hram, -, -, hu₀, -⟩ := alloc_spec ha
  have hpt : pd ≠ pt := by
    rintro rfl
    exact h.free_not_structural hu₀ (.inl ⟨c, hc⟩)
  have hflags : (mapPr ||| if lazyFlags 0 ≠ 0 then lazyFlags 0 else mapRw ||| mapUs) =
      mapPr ||| (mapRw ||| mapUs) := by decide
  rw [entry_setEntry, if_neg fun h' => hpt h'.1, entry_congr (fillWords_ram _ _ hpt), entry_setEntry,
    if_pos ⟨rfl, rfl⟩, hflags]
  refine ⟨by simp, by simp, fun g hg hne => ?_⟩
  have hgt : g ≠ pt := by
    rintro rfl
    exact hg hu₀
  rw [setEntry_ram _ _ _ hgt, fillWords_ram _ _ hgt, setEntry_ram _ _ _ hne, hram]

/-- One free frame, for the page table, is enough. -/
theorem mapUserPage_isSome (pd virt f : Nat) (flags : BitVec 32) (hl : LookOk m.pmm) (h : 0 < freeFrames m.pmm) :
    ∃ m', vmmcMapUserPageUnlocked m pd virt f flags = some m' ∧ LookOk m'.pmm ∧
      freeFrames m.pmm ≤ freeFrames m'.pmm + 1 := by
  unfold vmmcMapUserPageUnlocked
  simp only
  split
  · exact ⟨m, rfl, hl, by omega⟩
  · split
    · exact ⟨_, rfl, hl, by rw [setEntry_pmm]; omega⟩
    · obtain ⟨pt, m₁, ha⟩ := alloc_isSome hl h
      have hlook : LookOk m₁.pmm := alloc_lookOk hl ha
      have hfree : freeFrames m₁.pmm + 1 = freeFrames m.pmm := alloc_freeFrames ha
      rw [ha]
      refine ⟨_, rfl, ?_⟩
      simp only [setEntry_pmm, fillWords_pmm]
      exact ⟨hlook, by omega⟩

/-! ### `vmmc_do_lazy_map` -/

theorem keeps_of_data (hp : m'.pmm = m.pmm) (hts : tables P m' = tables P m)
    (h : ∀ g, m.pmm.users g ≠ 0 → ¬ Structural P m g → m'.ram g = m.ram g) : Keeps P m m' :=
  ⟨fun g _ => by rw [hp], fun g => by rw [hp],
    fun g hg hs => ⟨fun hs' => hs ((structural_congr hts g).mp hs'), h g hg hs⟩,
    by rw [hp]; exact .refl _⟩

/-- After `pmm_alloc` nothing that was in use has changed. -/
theorem keeps_alloc (ha : m.alloc = some (f, m')) : Keeps P m m' := by
  obtain ⟨hram, hs, -, hu₀, -, hu, hcow⟩ := alloc_spec ha
  refine ⟨fun g hg => ?_, hcow, fun g _ hst => ⟨fun h => hst ?_, by rw [hram]⟩, hs⟩
  · rw [hu, if_neg]
    rintro rfl; exact hg hu₀
  · exact (Owned.structural_of_ram hram g).mp h

/-- The page table of a directory entry is there afterwards, and no page has changed. -/
theorem lazyTable_spec (h : Owned P R d m) (hc : P c = some pd) (hpdi : pdi < userPdes)
    (hl : lazyTable m pd pdi = some (t, m')) :
    Owned P R d m' ∧ tables P m' c pdi = some t ∧ pages P m' = pages P m ∧ Keeps P m m' := by
  unfold lazyTable at hl
  simp only at hl
  split at hl
  · rename_i hpr
    cases hl
    exact ⟨h, by rw [tables_eq hc]; exact table_eq_some.mpr ⟨hpdi, hpr, rfl⟩, rfl, .refl _ _⟩
  · rename_i hpr
    split at hl
    · cases hl
    · obtain ⟨⟨pt, m₁⟩, ha, hl⟩ := Option.map_eq_some_iff.mp hl
      simp only [Prod.mk.injEq] at hl
      obtain ⟨rfl, rfl⟩ := hl
      have hfl : IsFlags ((m.entry pd pdi &&& mapRw) ||| mapUs ||| mapPr) :=
        ((IsFlags.and_right isFlags_mapRw).or isFlags_mapUs).or isFlags_mapPr
      have hw : isPr ((m.entry pd pdi &&& mapRw) ||| mapUs) = false := by simp
      obtain ⟨h', ht, hp, hk, -⟩ := newTable_spec h hc hpdi (by simpa using hpr) ha hfl (by simp) hw
      exact ⟨h', ht, hp, hk⟩

/-- A frame that is still free afterwards has not been written to. -/
theorem lazyTable_free {t g : Nat} (h : Owned P R d m) (hc : P c = some pd)
    (hl : lazyTable m pd pdi = some (t, m')) (hg : m'.pmm.users g = 0) : m'.ram g = m.ram g := by
  unfold lazyTable at hl
  dsimp only at hl
  split at hl
  · cases hl
    rfl
  · split at hl
    · cases hl
    · obtain ⟨⟨pt, m₁⟩, ha, hl⟩ := Option.map_eq_some_iff.mp hl
      cases hl
      obtain ⟨hram, -, -, -, -, hu, -⟩ := alloc_spec ha
      rw [fillWords_pmm, setEntry_pmm, hu] at hg
      have hgt : g ≠ pt := by
        rintro rfl
        rw [if_pos rfl] at hg
        cases hg
      rw [if_neg hgt] at hg
      have hgpd : g ≠ pd := by
        rintro rfl
        exact h.free_not_structural hg (.inl ⟨c, hc⟩)
      rw [fillWords_ram _ _ hgt, setEntry_ram _ _ _ hgpd, hram]

/-- A page that was absent got a new frame. -/
structure LazyMapped (P : Nat → Option Nat) (m m' : Mem) (c address f : Nat) (w : BitVec 32) :
    Prop where
  absent : pages P m c (address / 4096) = none
  free : m.pmm.users f = 0
  names : frameOf w = f
  users : m'.pmm.users f = 1
  cow : m'.pmm.cow f = false
  mapped : ∀ c' v, pages P m' c' v = if c' = c ∧ v = address / 4096 then some w else pages P m c' v
  keeps : Keeps P m m'
  contents : ∀ off, m'.ram f off =
    if userHeritageBase ≤ address ∧ address < userHeritageTop then 0 else m.ram f off

theorem lazyMap_spec {address : Nat} {b : Bool} (h : Owned P R d m) (hc : P c = some pd)
    (ha : address < physBase) (hm : vmmcDoLazyMap m pd address = some (b, m')) :
    Owned P R d m' ∧ ((b = false ∧ pages P m' = pages P m ∧ Keeps P m m') ∨
      (b = true ∧ ∃ f w, LazyMapped P m m' c address f w)) := by
  unfold vmmcDoLazyMap at hm
  simp only at hm
  split at hm
  · cases hm
    exact ⟨h, .inl ⟨rfl, rfl, .refl _ _⟩⟩
  · obtain ⟨⟨t, m₁⟩, ht, hm⟩ := Option.bind_eq_some_iff.mp hm
    obtain ⟨h₁, ht₁, hp₁, hk₁⟩ := lazyTable_spec h hc (pdIndex_lt ha) ht
    have habs : pages P m c (address / 4096) = present (m₁.entry t (ptIndex address)) := by
      rw [← hp₁, pages_eq_bind, page_div, page_mod, ht₁]; rfl
    simp only at hm
    split at hm
    · cases hm
      exact ⟨h₁, .inl ⟨rfl, hp₁, hk₁⟩⟩
    · rename_i hpr
      obtain ⟨⟨f, m₂⟩, hf, hm⟩ := Option.map_eq_some_iff.mp hm
      obtain ⟨hram₂, -, -, hu₂, hcow₂, hus₂, -⟩ := alloc_spec hf
      obtain ⟨h₂, hlt⟩ := h₁.alloc hf
      have hk₂ : Keeps P m m₂ := hk₁.trans (keeps_alloc hf)
      obtain ⟨hts₂, hps₂⟩ := views_of_ram (P := P) hram₂
      set w := entry f ((m₂.entry t (ptIndex address) &&& mapRw) ||| mapUs ||| mapPr) with hw
      have hfl : IsFlags ((m₂.entry t (ptIndex address) &&& mapRw) ||| mapUs ||| mapPr) :=
        ((IsFlags.and_right isFlags_mapRw).or isFlags_mapUs).or isFlags_mapPr
      have hfr : frameOf w = f := frameOf_entry hlt hfl
      have hwp : isPr w = true := by simp [hw]
      have ht₂ : tables P m₂ c (pdIndex address) = some t := by rw [hts₂]; exact ht₁
      have hnot : ¬ Structural P m₂ f := by
        rw [Owned.structural_of_ram hram₂]; exact h₁.free_not_structural hu₂
      have hf₁ : m₂.pmm.users f = 1 := by rw [hus₂, if_pos rfl]
      have h₃ := h₂.map (w := w) ht₂ (ptIndex_lt address) hwp (by rw [hfr]; exact hnot)
        (by rw [hfr, hf₁]; omega)
      rw [hfr, sub_add_cancel] at h₃
      obtain ⟨hts₃, hps₃⟩ := views_setEntry (w := w) h₂ ht₂ (ptIndex_lt address)
      have htf : f ≠ t := by
        rintro rfl
        exact hnot (.inr ⟨c, _, ht₂⟩)
      have hold : (m₂.setEntry t (ptIndex address) w).ram f = m.ram f := by
        rw [setEntry_ram _ _ _ htf, hram₂, lazyTable_free h hc ht hu₂]
      -- what remains is the heritage area, where the new page is cleared
      have done : ∀ n : Mem, n.pmm = m₂.pmm →
          (∀ g, g ≠ f → n.ram g = (m₂.setEntry t (ptIndex address) w).ram g) →
          (∀ off, n.ram f off =
            if userHeritageBase ≤ address ∧ address < userHeritageTop then 0 else m.ram f off) →
          Owned P R d n ∧ LazyMapped P m n c address f w := by
        intro n hn hother hz
        have hstr : ∀ g, Structural P (m₂.setEntry t (ptIndex address) w) g →
            n.ram g = (m₂.setEntry t (ptIndex address) w).ram g := by
          intro g hg
          refine hother g ?_
          rintro rfl
          exact hnot ((structural_congr hts₃ _).mp hg)
        obtain ⟨hts₄, hps₄⟩ := views_of_data hstr
        have hfree : m.pmm.users f = 0 := by
          by_contra hne
          have := hk₁.users f hne
          omega
        refine ⟨h₃.data (by rw [hn, setEntry_pmm]) hstr, ?_, hfree, hfr, by rw [hn, hf₁], ?_,
          fun c' v => ?_, ?_, hz⟩
        · rw [habs, present_eq_none]
          simp only [not_or, Bool.not_eq_true] at hpr
          exact hpr.1
        · rw [hn, (keeps_alloc (P := P) hf).cow, hcow₂]
        · rw [hps₄, hps₃, page_eq, hps₂, hp₁]
          simp [present, hwp]
        · refine ⟨fun g hg => by rw [hn]; exact hk₂.users g hg, fun g => by rw [hn]; exact hk₂.cow g,
            fun g hg hs => ?_, by rw [hn]; exact hk₂.frames⟩
          obtain ⟨hs', hr'⟩ := hk₂.data g hg hs
          have hgf : g ≠ f := by rintro rfl; exact hg hfree
          refine ⟨fun h' => hs' ?_, ?_⟩
          · exact (structural_congr hts₃ g).mp ((structural_congr hts₄ g).mp h')
          · rw [hother g hgf, setEntry_ram, hr']
            rintro rfl
            exact hs' (.inr ⟨c, _, ht₂⟩)
      split at hm
      · rename_i hh
        simp only [Prod.mk.injEq] at hm
        obtain ⟨rfl, rfl⟩ := hm
        obtain ⟨h₄, hl⟩ := done ((m₂.setEntry t (ptIndex address) w).fillFrame f 0) rfl
          (fun g hg => fillFrame_ram _ _ hg) fun off => by rw [fillFrame_self, if_pos hh]
        exact ⟨h₄, .inr ⟨rfl, f, w, hl⟩⟩
      · rename_i hh
        simp only [Prod.mk.injEq] at hm
        obtain ⟨rfl, rfl⟩ := hm
        obtain ⟨h₄, hl⟩ := done (m₂.setEntry t (ptIndex address) w) rfl (fun _ _ => rfl)
          fun off => by rw [if_neg hh, hold]
        exact ⟨h₄, .inr ⟨rfl, f, w, hl⟩⟩

/-! ### `vmmc_do_cow` -/

/-- The only user of a page may write to it again. -/
structure CowSole (P : Nat → Option Nat) (m m' : Mem) (c address : Nat) (e : BitVec 32) : Prop where
  one_user : m.pmm.users (frameOf e) = 1
  mapped : ∀ c' v, pages P m' c' v =
    if c' = c ∧ v = address / 4096 then some (e ||| mapRw) else pages P m c' v
  users : ∀ g, m'.pmm.users g = m.pmm.users g
  cow : ∀ g, m'.pmm.cow g = if g = frameOf e then false else m.pmm.cow g
  tables : tables P m' = tables P m
  dirs : ∀ c' p, P c' = some p → m'.ram p = m.ram p
  data : ∀ g, ¬ Structural P m g → m'.ram g = m.ram g
  frames : SameFrames m.pmm m'.pmm
  look : LookOk m.pmm → LookOk m'.pmm
  room : freeFrames m'.pmm = freeFrames m.pmm

/-- One of several users of a page gets a copy. -/
structure CowCopied (P : Nat → Option Nat) (m m' : Mem) (c address f : Nat) (e : BitVec 32) :
    Prop where
  shared : 1 < m.pmm.users (frameOf e)
  free : m.pmm.users f = 0
  mapped : ∀ c' v, pages P m' c' v = if c' = c ∧ v = address / 4096 then
    some (entry f (mapPr ||| mapRw ||| mapUs)) else pages P m c' v
  users : ∀ g, m'.pmm.users g =
    if g = f then 1 else if g = frameOf e then m.pmm.users g - 1 else m.pmm.users g
  cow : ∀ g, m'.pmm.cow g = m.pmm.cow g
  unmarked : m.pmm.cow f = false
  tables : tables P m' = tables P m
  dirs : ∀ c' p, P c' = some p → m'.ram p = m.ram p
  copy : m'.ram f = m.ram (frameOf e)
  data : ∀ g, g ≠ f → ¬ Structural P m g → m'.ram g = m.ram g
  frames : SameFrames m.pmm m'.pmm
  look : LookOk m.pmm → LookOk m'.pmm
  room : freeFrames m'.pmm + 1 = freeFrames m.pmm
  small : f < 2 ^ 20

/-- An allocated frame is no page table. -/
theorem Owned.table_ne_alloc (h : Owned P R d m) (ht : tables P m c pdi = some t)
    (hf : m.alloc = some (f, m')) : t ≠ f := by
  rintro rfl
  exact h.free_not_structural (alloc_spec hf).2.2.2.1 (.inr ⟨c, pdi, ht⟩)

/-- A frame that others use too: the page gets a copy of its own. -/
theorem copyPage_spec {address : Nat} {e : BitVec 32} {m₁ m₃ : Mem} (h : Owned P R d m)
    (ht : tables P m c (pdIndex address) = some t)
    (hmaps : maps P m c (pdIndex address * 1024 + ptIndex address) = some (frameOf e))
    (hshared : 1 < m.pmm.users (frameOf e)) (hf : m.alloc = some (f, m₁))
    (hm₃ : (m₁.copyFrame f (frameOf e)).free (frameOf e) = some m₃) :
    Owned P R d (m₃.setEntry t (ptIndex address) (entry f (mapPr ||| mapRw ||| mapUs))) ∧
      CowCopied P m (m₃.setEntry t (ptIndex address) (entry f (mapPr ||| mapRw ||| mapUs))) c address
        f e := by
  obtain ⟨hram₁, hs₁, htr, hu₁, hc₁, hus₁, hcow₁⟩ := alloc_spec hf
  obtain ⟨h₁, hlt⟩ := h.alloc hf
  have hne : frameOf e ≠ f := by rintro h'; rw [h'] at hshared; omega
  have htf : t ≠ f := h.table_ne_alloc ht hf
  set m₂ := m₁.copyFrame f (frameOf e) with hm₂
  have hram₂ : ∀ g, g ≠ f → m₂.ram g = m.ram g := by
    intro g hg
    rw [hm₂, copyFrame_ram _ hg, hram₁]
  have hnotf : ¬ Structural P m f := h.free_not_structural hu₁
  have hst₂ : ∀ g, Structural P m₁ g → m₂.ram g = m₁.ram g := by
    intro g hg
    rw [Owned.structural_of_ram hram₁] at hg
    rw [hram₂ g (by rintro rfl; exact hnotf hg), hram₁]
  have h₂ : Owned P R (d - one f) m₂ := h₁.data rfl hst₂
  obtain ⟨hram₃, hs₃, -, hu₃, hcow₃⟩ := free_spec hm₃
  have hold : m₂.pmm.users (frameOf e) = m.pmm.users (frameOf e) := by
    show m₁.pmm.users _ = _
    rw [hus₁, if_neg hne]
  have h₃ := h₂.free (fun h' => by omega) hm₃
  obtain ⟨hts₁, hps₁⟩ := views_of_ram (P := P) hram₁
  have hv₂ : tables P m₂ = tables P m₁ ∧ pages P m₂ = pages P m₁ := views_of_data hst₂
  obtain ⟨hts₂, hps₂⟩ := hv₂
  obtain ⟨hts₃, hps₃⟩ := views_of_ram (P := P) hram₃
  have hts : tables P m₃ = tables P m := hts₃.trans (hts₂.trans hts₁)
  have hps : pages P m₃ = pages P m := hps₃.trans (hps₂.trans hps₁)
  have ht₃ : tables P m₃ c (pdIndex address) = some t := by rw [hts]; exact ht
  have hmaps₃ : maps P m₃ c (pdIndex address * 1024 + ptIndex address) = some (frameOf e) := by
    rw [maps, hps]; exact hmaps
  set w := entry f (mapPr ||| mapRw ||| mapUs) with hw
  have hfr : frameOf w = f := frameOf_entry hlt (by decide)
  have hwp : isPr w = true := by simp [hw]
  have hus : ∀ g, m₃.pmm.users g =
      if g = f then 1 else if g = frameOf e then m.pmm.users g - 1 else m.pmm.users g := by
    intro g
    rw [hu₃, hold]
    by_cases hge : g = frameOf e
    · simp [hge, hne]
    · rw [if_neg hge, if_neg hge]; exact hus₁ g
  obtain ⟨hts₄, hps₄⟩ := views_setEntry (w := w) h₃ ht₃ (ptIndex_lt address)
  have h₄ : Owned P R d (m₃.setEntry t (ptIndex address) w) := by
    refine h₃.setPage ht₃ (ptIndex_lt address) (fun g => ?_) (fun g hg => ?_) fun g hg => ?_
    · rw [hmaps₃]
      simp only [Pi.add_apply, Pi.sub_apply, one_apply, present, hwp, ite_true, Option.map_some,
        hfr, Option.some.injEq, eq_comm (a := f), eq_comm (a := frameOf e)]
      split_ifs <;> omega
    · refine h.idle g ?_
      rw [hus] at hg
      split_ifs at hg with h₁ h₂
      · subst h₂; omega
      · exact hg
    · exact (h.solo g ((structural_congr hts g).mp hg)).2
  refine ⟨h₄, hshared, hu₁, fun c' v => ?_, hus, fun g => ?_, hc₁, hts₄.trans hts, fun c' p hp => ?_, ?_,
    fun g hg hs => ?_, hs₁.trans hs₃, fun hl => ?_, ?_, hlt⟩
  · rw [hps₄, page_eq, hps, present, if_pos hwp]
  · rw [setEntry_pmm, hcow₃]; exact hcow₁ g
  · have hpf : p ≠ f := by
      rintro rfl
      exact hnotf (.inl ⟨c', hp⟩)
    rw [setEntry_ram _ _ _ (h.table_ne_dir ht hp).symm, hram₃, hram₂ p hpf]
  · rw [setEntry_ram _ _ _ htf.symm, hram₃, hm₂, copyFrame_self, hram₁]
  · rw [setEntry_ram, hram₃, hram₂ g hg]
    rintro rfl; exact hs (.inr ⟨c, _, ht⟩)
  · have hlook : LookOk m₂.pmm := (alloc_lookOk hl hf : LookOk m₁.pmm)
    exact (free_lookOk hlook hm₃ : LookOk m₃.pmm)
  · have halloc := alloc_freeFrames hf
    have hfree : freeFrames m₃.pmm = freeFrames m₂.pmm := free_freeFrames hm₃ (hold ▸ hshared)
    rw [hm₂, copyFrame_pmm] at hfree
    rw [setEntry_pmm, hfree]
    exact halloc

theorem doCow_spec {address : Nat} {b : Bool} (h : Owned P R d m) (hc : P c = some pd)
    (ha : address < physBase) (hm : vmmcDoCow m pd address = some (b, m')) :
    (b = false ∧ m' = m) ∨ (b = true ∧ Owned P R d m' ∧
      ∃ e, pages P m c (address / 4096) = some e ∧ isRw e = false ∧ m.pmm.cow (frameOf e) = true ∧
        (CowSole P m m' c address e ∨ ∃ f, CowCopied P m m' c address f e)) := by
  unfold vmmcDoCow at hm
  simp only at hm
  split at hm
  · cases hm; exact .inl ⟨rfl, rfl⟩
  · rename_i hpde
    have hpde : isPr (m.entry pd (pdIndex address)) = true := by simpa using hpde
    set t := frameOf (m.entry pd (pdIndex address)) with htdef
    have ht : tables P m c (pdIndex address) = some t := by
      rw [tables_eq hc]; exact table_eq_some.mpr ⟨pdIndex_lt ha, hpde, rfl⟩
    split at hm
    · cases hm; exact .inl ⟨rfl, rfl⟩
    · rename_i he
      set e := m.entry t (ptIndex address) with hedef
      simp only [not_or, Bool.not_eq_true, Bool.not_eq_false] at he
      obtain ⟨hpr, hrw⟩ := he
      have hpage : pages P m c (address / 4096) = some e :=
        pages_eq_some.mpr ⟨t, by rw [page_div]; exact ht, hpr, by rw [page_mod]⟩
      have hmaps : maps P m c (pdIndex address * 1024 + ptIndex address) = some (frameOf e) := by
        rw [page_eq, maps, hpage]; rfl
      obtain ⟨isCow, hcow, hm⟩ := Option.bind_eq_some_iff.mp hm
      have hcow' : isCow = m.pmm.cow (frameOf e) := by
        unfold pmmIsCow at hcow
        split at hcow
        · cases hcow
        · exact (Option.some.inj hcow).symm
      subst hcow'
      split at hm
      · cases hm; exact .inl ⟨rfl, rfl⟩
      · rename_i hflag
        have hflag : m.pmm.cow (frameOf e) = true := by simpa using hflag
        have hnot := h.not_structural hmaps
        split at hm
        · cases hm; exact .inl ⟨rfl, rfl⟩
        · rename_i hone
          have hone : m.pmm.users (frameOf e) = 1 := hone
          obtain ⟨m₁, hm₁, hm⟩ := Option.map_eq_some_iff.mp hm
          simp only [Prod.mk.injEq] at hm
          obtain ⟨rfl, rfl⟩ := hm
          obtain ⟨hram, hs, -, hu, hc'⟩ := markCow_spec hm₁
          have hlook : LookOk m.pmm → LookOk m₁.pmm := fun hl =>
            markCow_lookOk (m := m.setEntry t (ptIndex address) (e ||| mapRw)) hl hm₁
          have hroom := markCow_freeFrames hm₁
          obtain ⟨hts, hps⟩ := views_setEntry (w := e ||| mapRw) h ht (ptIndex_lt address)
          have h₁ := h.reflag (w := e ||| mapRw) ht (ptIndex_lt address) (by
            rw [hmaps]; simp [present, hpr])
          obtain ⟨hts', hps'⟩ := views_of_ram (P := P) hram
          refine .inr ⟨rfl, h₁.markCow hm₁, e, hpage, hrw, hflag, .inl ⟨hone, fun c' v => ?_, hu, hc',
            hts'.trans hts, fun c' p hp => ?_, fun g hg => ?_, hs, hlook, hroom⟩⟩
          · rw [hps', hps, page_eq]
            simp [present, hpr]
          · rw [hram, setEntry_ram _ _ _ (h.table_ne_dir ht hp).symm]
          · rw [hram, setEntry_ram]
            rintro rfl; exact hg (.inr ⟨c, _, ht⟩)
        · rename_i hzero hone
          have hshared : 1 < m.pmm.users (frameOf e) := by
            have h₀ : m.pmm.users (frameOf e) ≠ 0 := hzero
            have h₁ : m.pmm.users (frameOf e) ≠ 1 := hone
            omega
          obtain ⟨⟨f, m₁⟩, hf, hm⟩ := Option.bind_eq_some_iff.mp hm
          obtain ⟨m₃, hm₃, hm⟩ := Option.map_eq_some_iff.mp hm
          simp only [Prod.mk.injEq] at hm
          obtain ⟨rfl, rfl⟩ := hm
          have hent : (m₁.copyFrame f (frameOf e)).entry t (ptIndex address) = e :=
            entry_congr (by rw [copyFrame_ram _ (h.table_ne_alloc ht hf), (alloc_spec hf).1]) _
          rw [hent] at hm₃
          obtain ⟨h', hcopied⟩ := copyPage_spec h ht hmaps hshared hf hm₃
          exact .inr ⟨rfl, h', e, hpage, hrw, hflag, .inr ⟨f, hcopied⟩⟩

/-- A write to a page whose frame is marked makes the page writable, as long as there is a frame
for a copy. -/
theorem doCow_happens {address : Nat} {e : BitVec 32} (h : Owned P R d m) (hc : P c = some pd)
    (hp : pages P m c (address / 4096) = some e) (hro : isRw e = false)
    (hcow : m.pmm.cow (frameOf e) = true) (hlook : LookOk m.pmm) (hroom : 0 < freeFrames m.pmm) :
    ∃ m', vmmcDoCow m pd address = some (true, m') := by
  have hslot : slots P R m (.page c (address / 4096)) = some (frameOf e) := by
    rw [slots, maps, hp]; rfl
  have hpos := h.users_pos hslot
  obtain ⟨t, ht, hpr, rfl⟩ := pages_eq_some.mp hp
  rw [page_div, tables_eq hc] at ht
  obtain ⟨-, hpde, rfl⟩ := table_eq_some.mp ht
  rw [page_mod] at hpr hro hcow hpos
  have hread : pmmIsCow m.pmm
      (frameOf (m.entry (frameOf (m.entry pd (pdIndex address))) (ptIndex address))) = some true := by
    unfold pmmIsCow
    rw [if_neg, hcow]
    intro hz
    rw [users, hz] at hpos
    simp at hpos
  unfold vmmcDoCow
  simp only [hpde, hpr, hro, hread, not_true_eq_false, if_false, Bool.false_eq_true, or_self,
    Option.bind_some]
  split
  · rename_i hz
    have hz : m.pmm.users _ = 0 := hz
    omega
  · obtain ⟨q, hq⟩ := pmmMarkCow_isSome false hpos
    simp [Mem.markCow, hq]
  · obtain ⟨f, m₁, ha⟩ := alloc_isSome hlook hroom
    obtain ⟨hram, -, -, hu₀, -, hu, -⟩ := alloc_spec ha
    have htab : ∀ g, 0 < m.pmm.users g → g ≠ f := by
      rintro g hg rfl
      omega
    have hts : tables P m c (pdIndex address) = some (frameOf (m.entry pd (pdIndex address))) := by
      rw [tables_eq hc]; exact ht
    have hent : (m₁.copyFrame f
        (frameOf (m.entry (frameOf (m.entry pd (pdIndex address))) (ptIndex address)))).entry
          (frameOf (m.entry pd (pdIndex address))) (ptIndex address) =
        m.entry (frameOf (m.entry pd (pdIndex address))) (ptIndex address) := by
      refine entry_congr ?_ _
      rw [copyFrame_ram _ (htab _ (by rw [(h.solo_table hts).1]; omega)), hram]
    obtain ⟨m₂, hm₂⟩ := free_isSome (m := m₁.copyFrame f
        (frameOf (m.entry (frameOf (m.entry pd (pdIndex address))) (ptIndex address))))
      (f := frameOf (m.entry (frameOf (m.entry pd (pdIndex address))) (ptIndex address))) (by
        rw [copyFrame_pmm, hu, if_neg (htab _ hpos)]
        exact hpos)
    simp [ha, hent, hm₂]

/-! ### `handle_pagefault` -/

/-- **How a page fault can end**: nothing happens to any page, an absent page gets a frame, or a
write to a copy-on-write page makes the page writable, in place or as a copy. -/
inductive Faulted (P : Nat → Option Nat) (m m' : Mem) (c address : Nat) (write : Bool) : Prop where
  | nothing (same : pages P m' = pages P m) (keeps : Keeps P m m')
  | fresh (f : Nat) (w : BitVec 32) (h : LazyMapped P m m' c address f w)
  | sole (e : BitVec 32) (isWrite : write = true) (page : pages P m c (address / 4096) = some e)
      (readOnly : isRw e = false) (cow : m.pmm.cow (frameOf e) = true)
      (h : CowSole P m m' c address e)
  | copied (e : BitVec 32) (f : Nat) (isWrite : write = true)
      (page : pages P m c (address / 4096) = some e) (readOnly : isRw e = false)
      (cow : m.pmm.cow (frameOf e) = true) (h : CowCopied P m m' c address f e)

theorem fault_spec {address : Nat} {write b : Bool} (h : Owned P R d m) (hc : P c = some pd)
    (ha : address < physBase) (hm : handlePagefault m pd address write = some (b, m')) :
    Owned P R d m' ∧ Faulted P m m' c address write := by
  have lazy : ∀ {b}, vmmcDoLazyMap m pd address = some (b, m') →
      Owned P R d m' ∧ Faulted P m m' c address write := by
    intro b hl
    obtain ⟨h', ⟨-, hp, hk⟩ | ⟨-, f, w, hlm⟩⟩ := lazyMap_spec h hc ha hl
    · exact ⟨h', .nothing hp hk⟩
    · exact ⟨h', .fresh f w hlm⟩
  unfold handlePagefault at hm
  split at hm
  · rename_i hw
    rw [Option.bind_eq_some_iff] at hm
    obtain ⟨⟨b₁, m₁⟩, h₁, hm⟩ := hm
    obtain ⟨rfl, rfl⟩ | ⟨rfl, h', e, hp, hrw, hcow, hsole | ⟨f, hcopy⟩⟩ := doCow_spec h hc ha h₁
    · exact lazy (by simpa using hm)
    · simp only [ite_true, Option.some.injEq, Prod.mk.injEq] at hm
      obtain ⟨-, rfl⟩ := hm
      exact ⟨h', .sole e hw hp hrw hcow hsole⟩
    · simp only [ite_true, Option.some.injEq, Prod.mk.injEq] at hm
      obtain ⟨-, rfl⟩ := hm
      exact ⟨h', .copied e f hw hp hrw hcow hcopy⟩
  · exact lazy hm

end Muxomucota.Mmu
