import Mathlib.Algebra.BigOperators.Group.Finset.Piecewise
import Mathlib.Algebra.Order.BigOperators.Group.Finset
import Muxomucota.Mmu.Faults

/-!
# Mmu — `vmmc_clone`

What a fork does to memory: every page of the parent appears in the child, both read-only; every
frame the parent maps gets one more user for each page that maps it and the copy-on-write flag;
nothing else changes (`Cloned`).
-/

namespace Muxomucota.Mmu
open Memory Pmm Lib

variable {ρ : Type} {P : Nat → Option Nat} {R : ρ → Option Nat} {d : Nat → Int} {m m' b b' : Mem}
  {c e pd ps pdi t f : Nat} {w : BitVec 32}

/-! ### Pages of a directory entry -/

/-- How many pages of directory entry `pdi` of context `c` are mapped to `f`. -/
def pageCount (P : Nat → Option Nat) (m : Mem) (c pdi f : Nat) : Nat :=
  (List.range 1024).countP fun i => maps P m c (pdi * 1024 + i) = some f

/-- How many pages of context `c` are mapped to `f`, in the first `n` directory entries. -/
def pageSum (P : Nat → Option Nat) (m : Mem) (c n f : Nat) : Nat :=
  ∑ pdi ∈ Finset.range n, pageCount P m c pdi f

theorem maps_of_table (ht : tables P m c pdi = some t) {i : Nat} (hi : i < 1024) :
    maps P m c (pdi * 1024 + i) = (present (m.entry t i)).map frameOf := by
  rw [maps, pages_eq_bind, show (pdi * 1024 + i) / 1024 = pdi by omega, ht,
    show (pdi * 1024 + i) % 1024 = i by omega]
  rfl

theorem pageCount_of_table (ht : tables P m c pdi = some t) (f : Nat) :
    pageCount P m c pdi f = countIn m t f := by
  unfold pageCount countIn countTo
  refine List.countP_congr fun i hi => ?_
  rw [maps_of_table ht (List.mem_range.mp hi), Names, present]
  by_cases hpr : isPr (m.entry t i) = true <;> simp [hpr]

theorem pageCount_of_none (ht : tables P m c pdi = none) (f : Nat) : pageCount P m c pdi f = 0 := by
  refine List.countP_eq_zero.mpr fun i hi => ?_
  have hi := List.mem_range.mp hi
  rw [maps, pages_eq_bind, show (pdi * 1024 + i) / 1024 = pdi by omega, ht]
  simp

theorem pageCount_congr {P' : Nat → Option Nat} {c' : Nat}
    (h : ∀ v, v / 1024 = pdi → maps P' m' c' v = maps P m c v) (f : Nat) :
    pageCount P' m' c' pdi f = pageCount P m c pdi f := by
  refine List.countP_congr fun i hi => ?_
  rw [h _ (by have := List.mem_range.mp hi; omega)]

theorem pageCount_pos : 0 < pageCount P m c pdi f ↔ ∃ v, v / 1024 = pdi ∧ maps P m c v = some f := by
  rw [pageCount, List.countP_pos_iff]
  constructor
  · rintro ⟨i, hi, hm⟩
    have hi := List.mem_range.mp hi
    exact ⟨pdi * 1024 + i, by omega, by simpa using hm⟩
  · rintro ⟨v, rfl, hm⟩
    refine ⟨v % 1024, List.mem_range.mpr (by omega), ?_⟩
    rw [show v / 1024 * 1024 + v % 1024 = v by omega]
    simpa using hm

/-- A directory or page table is no page. -/
theorem pageCount_structural (h : Owned P R d m) (hf : Structural P m f) : pageCount P m c pdi f = 0 := by
  refine Nat.eq_zero_of_not_pos fun hpos => ?_
  obtain ⟨v, -, hv⟩ := pageCount_pos.mp hpos
  exact h.not_structural hv hf

/-- An unused frame is no page. -/
theorem pageCount_unused (h : Owned P R d m) (hf : m.pmm.users f = 0) : pageCount P m c pdi f = 0 := by
  refine Nat.eq_zero_of_not_pos fun hpos => ?_
  obtain ⟨v, -, hv⟩ := pageCount_pos.mp hpos
  exact h.not_held hf (.page c v) hv

theorem pageSum_pos {n : Nat} :
    0 < pageSum P m c n f ↔ ∃ v, v / 1024 < n ∧ maps P m c v = some f := by
  rw [pageSum, Finset.sum_pos_iff]
  constructor
  · rintro ⟨i, hi, hm⟩
    obtain ⟨v, rfl, hv⟩ := pageCount_pos.mp hm
    exact ⟨v, Finset.mem_range.mp hi, hv⟩
  · rintro ⟨v, hv, hm⟩
    exact ⟨v / 1024, Finset.mem_range.mpr hv, pageCount_pos.mpr ⟨v, rfl, hm⟩⟩

theorem pageSum_succ (n f : Nat) : pageSum P m c (n + 1) f = pageSum P m c n f + pageCount P m c n f :=
  Finset.sum_range_succ _ _

/-- The same sum over all pages. -/
theorem pageSum_eq (n f : Nat) :
    pageSum P m c n f = (List.range (n * 1024)).countP fun v => maps P m c v = some f := by
  induction n with
  | zero => simp [pageSum]
  | succ n ih =>
      rw [pageSum_succ, ih, Nat.succ_mul, List.range_add, List.countP_append, List.countP_map]
      rfl

/-- Every mapped page has a reference. -/
theorem pageSum_le (h : Owned P R 0 m) (n f : Nat) : pageSum P m c n f ≤ m.pmm.users f := by
  have hcount := h.covered.countP_le (a := f) (l := (List.range (n * 1024)).map (.page c))
    (List.nodup_range.map fun u v huv => by simpa using huv)
  rw [List.countP_map] at hcount
  simp only [Pi.zero_apply, add_zero, Int.toNat_natCast] at hcount
  rw [pageSum_eq]
  exact hcount

theorem page_lt {v : Nat} (h : maps P m c v = some f) : v / 1024 < userPdes := by
  obtain ⟨w, hw, -⟩ := Option.map_eq_some_iff.mp h
  obtain ⟨t, ht, -⟩ := pages_eq_some.mp hw
  obtain ⟨pd, -, ht⟩ := Option.bind_eq_some_iff.mp ht
  exact (table_eq_some.mp ht).1

theorem map_frozen_frame (x : Option (BitVec 32)) : (x.map frozen).map frameOf = x.map frameOf := by
  cases x <;> simp

theorem map_cloned_frame (x : Option (BitVec 32)) : (x.map cloned).map frameOf = x.map frameOf := by
  cases x <;> simp

/-! ### Absent directory entries -/

/-- Overwriting an absent directory entry by an absent one changes no page. -/
theorem absentEntry_spec (h : Owned P R d m) (hc : P c = some pd) (hno : tables P m c pdi = none)
    (hw : isPr w = false) :
    Owned P R d (m.setEntry pd pdi w) ∧ tables P (m.setEntry pd pdi w) = tables P m ∧
      pages P (m.setEntry pd pdi w) = pages P m ∧ Keeps P m (m.setEntry pd pdi w) := by
  have htab : (m.setEntry pd pdi w).table pd pdi = none := by
    rw [Mem.table, entry_setEntry]
    simp [present, hw]
  have hram : ∀ g, g ≠ pd → g ≠ pd → (m.setEntry pd pdi w).ram g = m.ram g :=
    fun g hg _ => setEntry_ram _ _ _ hg
  have hoff : ∀ j, j ≠ pdi → (m.setEntry pd pdi w).entry pd j = m.entry pd j := fun j hj => by
    rw [entry_setEntry, if_neg fun h' => hj h'.2]
  obtain ⟨hts, hps⟩ := views_dirEntry h hc (.inr rfl) hram hoff
  have hts : tables P (m.setEntry pd pdi w) = tables P m := by
    funext c' i
    rw [hts]
    split
    · rename_i h'; rw [h'.1, h'.2, htab, hno]
    · rfl
  have hps : pages P (m.setEntry pd pdi w) = pages P m := by
    funext c' v
    rw [pages_eq_bind, pages_eq_bind, hts]
    cases ht : tables P m c' (v / 1024) with
    | none => rfl
    | some t =>
        rw [Option.bind_some, Option.bind_some, entry_setEntry,
          if_neg fun h' => h.table_ne_dir ht hc h'.1]
  refine ⟨?_, hts, hps, ?_⟩
  · refine h.congr (funext fun s => ?_) (fun f hf => (structural_congr hts f).mp hf) (.refl _)
      (fun _ => rfl) h.idle fun f hf => (h.solo f hf).1
    cases s with
    | dir c => rfl
    | table c pdi => simp only [slots, hts]
    | page c v => simp only [slots, maps, hps]
    | ref r => rfl
  · refine keeps_of_data rfl hts fun g _ hg => setEntry_ram _ _ _ ?_
    rintro rfl; exact hg (.inl ⟨c, hc⟩)

/-! ### One directory entry -/

/-- What one round of `vmmc_clone` has done, from the context `c` to the context `e`. -/
structure ClonedEntry (P : Nat → Option Nat) (m m' : Mem) (c e pdi : Nat) : Prop where
  tables_other : ∀ c' i, ¬ (c' = e ∧ i = pdi) → tables P m' c' i = tables P m c' i
  fresh : ∀ f, tables P m' e pdi = some f → m.pmm.users f = 0
  same : tables P m c pdi = none → tables P m' e pdi = none
  child : ∀ v, v / 1024 = pdi → pages P m' e v = (pages P m c v).map cloned
  parent : ∀ v, v / 1024 = pdi → pages P m' c v = (pages P m c v).map frozen
  other : ∀ c' v, ¬ (c' = e ∧ v / 1024 = pdi) → ¬ (c' = c ∧ v / 1024 = pdi) →
    pages P m' c' v = pages P m c' v
  users : ∀ f, m'.pmm.users f = m.pmm.users f + pageCount P m c pdi f +
    if tables P m' e pdi = some f then 1 else 0
  cow : ∀ f, m'.pmm.cow f = (m.pmm.cow f || decide (0 < pageCount P m c pdi f))
  data : ∀ g, m.pmm.users g ≠ 0 → ¬ Structural P m g → ¬ Structural P m' g ∧ m'.ram g = m.ram g
  frames : SameFrames m.pmm m'.pmm
  look : LookOk m.pmm → LookOk m'.pmm
  room : freeFrames m'.pmm + (if (tables P m c pdi).isSome then 1 else 0) = freeFrames m.pmm

/-- The parent has no table there. -/
theorem cloneDirEntry_absent (h : Owned P R d b) (hc : P c = some ps) (he : P e = some pd)
    (hno : tables P b e pdi = none) (hpr : isPr (b.entry ps pdi) = false) :
    Owned P R d (b.setEntry pd pdi (b.entry ps pdi)) ∧
      ClonedEntry P b (b.setEntry pd pdi (b.entry ps pdi)) c e pdi := by
  have hnone : tables P b c pdi = none := by
    rw [tables_eq hc, Mem.table]
    simp [present, hpr]
  obtain ⟨h', hts, hps, hk⟩ := absentEntry_spec (w := b.entry ps pdi) h he hno hpr
  have hpages : ∀ v, v / 1024 = pdi → ∀ c', tables P b c' pdi = none → pages P b c' v = none := by
    rintro v rfl c' h''
    rw [pages_eq_bind, h'']; rfl
  refine ⟨h', fun _ _ _ => by rw [hts], fun f hf => ?_, fun _ => by rw [hts]; exact hno,
    fun v hv => ?_, fun v hv => ?_, fun _ _ _ _ => by rw [hps], fun f => ?_, fun f => ?_,
    fun g hg hs => ⟨(hk.data g hg hs).1, (hk.data g hg hs).2⟩, hk.frames, id, by simp [hnone]⟩
  · rw [hts, hno] at hf; cases hf
  · rw [hps, hpages v hv e hno, hpages v hv c hnone]; rfl
  · rw [hps, hpages v hv c hnone]; rfl
  · rw [pageCount_of_none hnone, hts, hno]; simp
  · rw [pageCount_of_none hnone]; simp

/-- The parent's table alone: its pages are frozen, and nothing else is different. -/
theorem frozenTable_spec {ba : Mem} (h : Owned P R d b) (ht : tables P b c pdi = some t)
    (hpmm : ba.pmm = b.pmm) (hba : ∀ g, g ≠ t → ba.ram g = b.ram g)
    (hpage : ∀ v, present (ba.entry t (v % 1024)) = (present (b.entry t (v % 1024))).map frozen) :
    Owned P R d ba ∧ tables P ba = tables P b ∧ ∀ c' v, pages P ba c' v =
      if c' = c ∧ v / 1024 = pdi then (pages P b c v).map frozen else pages P b c' v := by
  obtain ⟨htsa, hpsa⟩ := views_table h ht hba
  have hfroz : ∀ c' v, pages P ba c' v =
      if c' = c ∧ v / 1024 = pdi then (pages P b c v).map frozen else pages P b c' v := by
    intro c' v
    rw [hpsa]
    split
    · rename_i hv
      rw [hpage, pages_eq_bind, hv.2, ht, Option.bind_some]
    · rfl
  have hmapsa : maps P ba = maps P b := by
    funext c' v
    rw [maps, hfroz]
    split
    · rename_i hv; rw [map_frozen_frame, hv.1]; rfl
    · rfl
  have hslots : slots P R ba = slots P R b := by
    funext s
    cases s with
    | dir c => rfl
    | table c pdi => simp only [slots, htsa]
    | page c v => simp only [slots, hmapsa]
    | ref r => rfl
  refine ⟨h.congr hslots (fun f hf => (structural_congr htsa f).mp hf) (by rw [hpmm]; exact .refl _)
    (fun f => by rw [hpmm]) (fun f => by rw [hpmm]; exact h.idle f)
    fun f hf => by rw [hpmm]; exact (h.solo f hf).1, htsa, hfroz⟩

theorem cloneDirEntry_spec (h : Owned P R d b) (hc : P c = some ps) (he : P e = some pd)
    (hce : c ≠ e) (hpdi : pdi < userPdes) (hno : tables P b e pdi = none)
    (hstep : cloneDirEntry pd ps b pdi = some b') : Owned P R d b' ∧ ClonedEntry P b b' c e pdi := by
  have hdirs : ps ≠ pd := fun h' => hce (h.dir_inj hc (h' ▸ he))
  unfold cloneDirEntry at hstep
  split at hstep
  · rename_i hpr
    have hpr : isPr (b.entry ps pdi) = false := by simpa using hpr
    cases hstep
    exact cloneDirEntry_absent h hc he hno hpr
  · rename_i hpr
    have hpr : isPr (b.entry ps pdi) = true := by simpa using hpr
    rw [Option.bind_eq_some_iff] at hstep
    obtain ⟨⟨npt, b₁⟩, ha, hloop⟩ := hstep
    obtain ⟨hram₁, hs₁, htr, hu₀, hc₀, hu₁, hcow₁⟩ := alloc_spec ha
    set t := frameOf (b.entry ps pdi) with htdef
    have ht : tables P b c pdi = some t := by
      rw [tables_eq hc]; exact table_eq_some.mpr ⟨hpdi, hpr, rfl⟩
    set b₂ := b₁.setEntry pd pdi (entry npt (mapPr ||| mapRw ||| mapUs)) with hb₂
    have hpde : b₂.entry ps pdi = b.entry ps pdi := by
      rw [hb₂, entry_setEntry, if_neg fun h' => hdirs h'.1, entry_congr (congrFun hram₁ ps)]
    have hlt := (h.alloc ha).2
    have htpd : t ≠ pd := h.table_ne_dir ht he
    have hnot : ¬ Structural P b npt := h.free_not_structural hu₀
    have htn : t ≠ npt := by rintro h'; exact hnot (h' ▸ .inr ⟨c, pdi, ht⟩)
    have hnpd : pd ≠ npt := by rintro h'; exact hnot (h' ▸ .inl ⟨e, he⟩)
    have hloop : (List.range 1024).foldlM (cloneEntry t npt) b₂ = some b' := by
      rw [htdef, ← hpde]; exact hloop
    have hl := cloneTable_spec htn hloop
    have hram₂ : ∀ g, g ≠ pd → b₂.ram g = b.ram g := by
      intro g hg
      rw [hb₂, setEntry_ram _ _ _ hg, hram₁]
    have hent₂ : ∀ i, b₂.entry t i = b.entry t i := entry_congr (hram₂ t htpd)
    have hcount : ∀ f, countTo b₂ t f 1024 = pageCount P b c pdi f := by
      intro f
      rw [pageCount_of_table ht]
      exact countTo_congr f fun i _ => by rw [Names, Names, hent₂]
    have husers : ∀ f, b'.pmm.users f = b.pmm.users f + pageCount P b c pdi f +
        if f = npt then 1 else 0 := by
      intro f
      rw [hl.users, hcount]
      show b₁.pmm.users f + _ = _
      rw [hu₁]
      split
      · rename_i hf; subst hf; omega
      · omega
    have hmono : ∀ f, b.pmm.users f ≤ b'.pmm.users f := fun f => by rw [husers]; omega
    -- first the parent's table alone
    let ba : Mem := { pmm := b.pmm, ram := Function.update b.ram t (b'.ram t) }
    have hba : ∀ g, g ≠ t → ba.ram g = b.ram g := fun g hg => Function.update_of_ne hg _ _
    have hbat : ba.ram t = b'.ram t := Function.update_self ..
    have hpage : ∀ v, present (ba.entry t (v % 1024)) =
        (present (b.entry t (v % 1024))).map frozen := by
      intro v
      rw [entry_congr hbat, hl.done _ (by omega), hent₂]
      by_cases hp : isPr (b.entry t (v % 1024)) = true <;> simp [present, hp]
    obtain ⟨h₂, htsa, hfroz⟩ := frozenTable_spec h ht (show ba.pmm = b.pmm from rfl) hba hpage
    -- then the child's directory entry and table
    have hramb : ∀ g, g ≠ pd → g ≠ npt → b'.ram g = ba.ram g := by
      intro g hg hg'
      by_cases hgt : g = t
      · rw [hgt, hbat]
      · rw [hba g hgt, hl.ram g hgt hg', hram₂ g hg]
    have hrampd : b'.ram pd = b₂.ram pd := hl.ram pd htpd.symm hnpd
    have hoff : ∀ j, j ≠ pdi → b'.entry pd j = ba.entry pd j := by
      intro j hj
      rw [entry_congr hrampd, entry_congr (hba pd htpd.symm), hb₂, entry_setEntry,
        if_neg fun h' => hj h'.2, entry_congr (congrFun hram₁ pd)]
    have htab : b'.table pd pdi = some npt := by
      refine table_eq_some.mpr ⟨hpdi, ?_, ?_⟩ <;>
        rw [entry_congr hrampd, hb₂, entry_setEntry, if_pos ⟨rfl, rfl⟩]
      · simp
      · exact frameOf_entry hlt (by decide)
    have hnota : ¬ Structural P ba npt := fun h' => hnot ((structural_congr htsa _).mp h')
    obtain ⟨hts, hps⟩ := views_dirEntry h₂ he (.inl hnota) hramb hoff
    have hchild : ∀ v, v / 1024 = pdi → b'.pte pd v = (pages P b c v).map cloned := by
      intro v hv
      rw [Mem.pte, hv, htab, Option.bind_some, hl.child _ (by omega), hent₂, pages_eq_bind, hv, ht,
        Option.bind_some]
      by_cases hp : isPr (b.entry t (v % 1024)) = true <;> simp [present, hp]
    have hcnpt : ∀ a, countIn b' npt a = pageCount P b c pdi a := by
      intro a
      rw [← hcount]
      refine countTo_congr a fun i hi => ?_
      rw [Names, Names, hl.child i hi, isPr_cloned, frameOf_cloned]
    have hstr : ∀ g, Structural P b' g → g = npt ∨ Structural P b g := fun g hg =>
      (structural_dirEntry hts htab hg).imp_right (structural_congr htsa g).mp
    have htable : ∀ g, tables P b' e pdi = some g ↔ g = npt := by
      intro g
      rw [hts, if_pos ⟨rfl, rfl⟩, htab, Option.some.injEq, eq_comm]
    refine ⟨?_, fun c' i hi => by rw [hts, if_neg hi, htsa], fun f hf => ?_,
      fun hn => absurd (ht.symm.trans hn) (by simp), fun v hv => ?_, fun v hv => ?_, fun c' v h₁ h₂ => ?_,
      fun f => ?_, fun f => ?_, fun g hg hs => ⟨fun hs' => ?_, ?_⟩, hs₁.trans hl.frames,
      fun h' => hl.look (alloc_lookOk h' ha : LookOk b₁.pmm), ?_⟩
    · refine h₂.dirEntry he (.inl hnota) hramb hoff (hs₁.trans hl.frames) (fun a => ?_) (fun a ha => ?_)
        fun a ha => ?_
      · rw [husers, dirCount, htab]
        simp only [hcnpt, eq_comm (a := npt)]
        show (b.pmm.users a + d a : Int) + _ ≤ _
        split <;> push_cast <;> omega
      · have := hmono a
        exact h.idle a (by omega)
      · rw [husers]
        rcases hstr a ha with rfl | ha'
        · have h₁ := h.idle a hu₀
          have h₂ := h.nonneg a
          rw [pageCount_unused h hu₀, if_pos rfl, hu₀]
          exact ⟨rfl, by omega⟩
        · have h₁ := h.solo a ha'
          rw [pageCount_structural h ha', if_neg (by rintro rfl; exact hnot ha')]
          exact ⟨by omega, h₁.2⟩
    · rw [htable] at hf
      rw [hf, hu₀]
    · rw [hps, if_pos ⟨rfl, hv⟩, hchild v hv]
    · rw [hps, if_neg fun h' => hce h'.1, hfroz, if_pos ⟨rfl, hv⟩]
    · rw [hps, if_neg h₁, hfroz, if_neg h₂]
    · rw [husers]
      simp only [htable]
    · rw [hl.cow, hcount]
      show (b₁.pmm.cow f || _) = _
      rw [hcow₁]
    · rcases hstr g hs' with rfl | h'
      · exact hg hu₀
      · exact hs h'
    · rw [hramb g, hba g]
      · rintro rfl; exact hs (.inr ⟨c, pdi, ht⟩)
      · rintro rfl; exact hs (.inl ⟨e, he⟩)
      · rintro rfl; exact hg hu₀
    · have h₁ : freeFrames b₁.pmm + 1 = freeFrames b.pmm := alloc_freeFrames ha
      rw [ht, hl.room]
      exact h₁

/-- The directory that is copied does not change; in the copy only the entry of the round does, and
user programs may read and write where it has a page table. -/
theorem cloneDirEntry_dirs (h : Owned P R d b) (hc : P c = some ps) (he : P e = some pd)
    (hce : c ≠ e) (hpdi : pdi < userPdes) (hstep : cloneDirEntry pd ps b pdi = some b') :
    b'.ram ps = b.ram ps ∧ (∀ j, j ≠ pdi → b'.entry pd j = b.entry pd j) ∧
      (isPr (b.entry ps pdi) = true →
        isUs (b'.entry pd pdi) = true ∧ isRw (b'.entry pd pdi) = true) := by
  have hdirs : ps ≠ pd := fun h' => hce (h.dir_inj hc (h' ▸ he))
  unfold cloneDirEntry at hstep
  split at hstep
  · rename_i hpr
    cases hstep
    refine ⟨setEntry_ram _ _ _ hdirs, fun j hj => ?_, fun h' => absurd h' hpr⟩
    rw [entry_setEntry, if_neg fun h' => hj h'.2]
  · rename_i hpr
    obtain ⟨⟨npt, b₁⟩, ha, hloop⟩ := Option.bind_eq_some_iff.mp hstep
    obtain ⟨hram₁, -, -, hu₀, -⟩ := alloc_spec ha
    have hnot := h.free_not_structural hu₀
    have hpde : (b₁.setEntry pd pdi (entry npt (mapPr ||| mapRw ||| mapUs))).entry ps pdi =
        b.entry ps pdi := by
      rw [entry_setEntry, if_neg fun h' => hdirs h'.1, entry_congr (congrFun hram₁ ps)]
    have ht : tables P b c pdi = some (frameOf (b.entry ps pdi)) := by
      rw [tables_eq hc]; exact table_eq_some.mpr ⟨hpdi, not_not.mp hpr, rfl⟩
    have hloop : (List.range 1024).foldlM (cloneEntry (frameOf (b.entry ps pdi)) npt)
        (b₁.setEntry pd pdi (entry npt (mapPr ||| mapRw ||| mapUs))) = some b' := by
      rw [← hpde]; exact hloop
    have htn : frameOf (b.entry ps pdi) ≠ npt := by
      rintro rfl
      exact hnot (.inr ⟨c, pdi, ht⟩)
    have hpn : ∀ {c p}, P c = some p → p ≠ npt := by
      rintro c p hp rfl
      exact hnot (.inl ⟨c, hp⟩)
    have hl := cloneTable_spec htn hloop
    have hrampd := hl.ram pd (h.table_ne_dir ht he).symm (hpn he)
    refine ⟨?_, fun j hj => ?_, fun _ => ?_⟩
    · rw [hl.ram ps (h.table_ne_dir ht hc).symm (hpn hc), setEntry_ram _ _ _ hdirs, hram₁]
    · rw [entry_congr hrampd, entry_setEntry, if_neg fun h' => hj h'.2, entry_congr (congrFun hram₁ pd)]
    · rw [entry_congr hrampd, entry_setEntry, if_pos ⟨rfl, rfl⟩]
      exact ⟨by simp, by simp⟩

/-- The round ends as long as a frame is free for the page table and no user count overflows. -/
theorem cloneDirEntry_isSome (h : Owned P R 0 b) (hc : P c = some ps) (he : P e = some pd)
    (hce : c ≠ e) (hpdi : pdi < userPdes) (hlook : LookOk b.pmm)
    (hroom : (tables P b c pdi).isSome → 0 < freeFrames b.pmm)
    (hmax : ∀ f, 0 < pageCount P b c pdi f → b.pmm.users f + pageCount P b c pdi f ≤ 127) :
    ∃ b', cloneDirEntry pd ps b pdi = some b' := by
  unfold cloneDirEntry
  split
  · exact ⟨_, rfl⟩
  · rename_i hpr
    have hpr : isPr (b.entry ps pdi) = true := by simpa using hpr
    have hdirs : ps ≠ pd := fun h' => hce (h.dir_inj hc (h' ▸ he))
    set t := frameOf (b.entry ps pdi) with htdef
    have ht : tables P b c pdi = some t := by
      rw [tables_eq hc]; exact table_eq_some.mpr ⟨hpdi, hpr, rfl⟩
    obtain ⟨npt, b₁, ha⟩ := alloc_isSome hlook (hroom (by rw [ht]; rfl))
    obtain ⟨hram₁, -, -, hu₀, -, hu₁, -⟩ := alloc_spec ha
    set b₂ := b₁.setEntry pd pdi (entry npt (mapPr ||| mapRw ||| mapUs)) with hb₂
    have hpde : b₂.entry ps pdi = b.entry ps pdi := by
      rw [hb₂, entry_setEntry, if_neg fun h' => hdirs h'.1, entry_congr (congrFun hram₁ ps)]
    have htn : t ≠ npt := by
      rintro h'
      exact h.free_not_structural hu₀ (h' ▸ .inr ⟨c, pdi, ht⟩)
    have hcount : ∀ f, countIn b₂ t f = pageCount P b c pdi f := by
      intro f
      rw [pageCount_of_table ht]
      refine countTo_congr f fun i _ => ?_
      rw [Names, Names, hb₂, entry_setEntry, if_neg fun h' => h.table_ne_dir ht he h'.1,
        entry_congr (congrFun hram₁ t)]
    have hus : ∀ f, 0 < countIn b₂ t f → b₂.pmm.users f = b.pmm.users f ∧ 0 < b.pmm.users f := by
      intro f hf
      rw [hcount] at hf
      obtain ⟨v, -, hv⟩ := pageCount_pos.mp hf
      have hpos := h.users_pos (s := .page c v) hv
      refine ⟨?_, hpos⟩
      rw [hb₂, setEntry_pmm, hu₁, if_neg]
      rintro rfl
      omega
    obtain ⟨b', hb'⟩ := cloneTable_isSome (m := b₂) htn (fun f hf => by
      have := hus f hf; omega) fun f hf => by
        rw [(hus f hf).1, hcount]
        exact hmax f (by rwa [hcount] at hf)
    refine ⟨b', ?_⟩
    rw [ha, Option.bind_some]
    simp only [← hb₂, hpde]
    exact hb'

/-! ### The whole loop -/

/-- How many of the first `n` directory entries of context `c` have a page table. -/
def tableSum (P : Nat → Option Nat) (m : Mem) (c n : Nat) : Nat :=
  ∑ i ∈ Finset.range n, if (tables P m c i).isSome then 1 else 0

theorem tableSum_le_one {k : Nat} (h : ∀ i, i ≠ k → tables P m c i = none) (n : Nat) :
    tableSum P m c n ≤ 1 := by
  calc tableSum P m c n ≤ ∑ i ∈ Finset.range n, if i = k then 1 else 0 :=
        Finset.sum_le_sum fun i _ => by
          by_cases hi : i = k
          · rw [if_pos hi]; split <;> omega
          · rw [h i hi, if_neg hi]; simp
    _ ≤ 1 := by rw [Finset.sum_ite_eq']; split <;> omega

/-- What the first `n` rounds of `vmmc_clone` have done. -/
structure ClonedTo (P : Nat → Option Nat) (m : Mem) (c e n : Nat) (m' : Mem) : Prop where
  tables_other : ∀ c' i, c' ≠ e → tables P m' c' i = tables P m c' i
  fresh : ∀ i f, tables P m' e i = some f → m.pmm.users f = 0
  todo : ∀ i, n ≤ i → tables P m' e i = none
  child : ∀ v, v / 1024 < n → pages P m' e v = (pages P m c v).map cloned
  parent : ∀ v, v / 1024 < n → pages P m' c v = (pages P m c v).map frozen
  ahead : ∀ v, n ≤ v / 1024 → pages P m' c v = pages P m c v
  other : ∀ c' v, c' ≠ e → c' ≠ c → pages P m' c' v = pages P m c' v
  users : ∀ f, (¬ ∃ i, tables P m' e i = some f) →
    m'.pmm.users f = m.pmm.users f + pageSum P m c n f
  users_table : ∀ f, (∃ i, tables P m' e i = some f) → m'.pmm.users f = 1
  cow : ∀ f, m'.pmm.cow f = (m.pmm.cow f || decide (0 < pageSum P m c n f))
  data : ∀ g, m.pmm.users g ≠ 0 → ¬ Structural P m g → ¬ Structural P m' g ∧ m'.ram g = m.ram g
  frames : SameFrames m.pmm m'.pmm
  look : LookOk m.pmm → LookOk m'.pmm
  room : freeFrames m'.pmm + tableSum P m c n = freeFrames m.pmm

theorem decide_pos_or (a b : Nat) : (decide (0 < a) || decide (0 < b)) = decide (0 < a + b) := by
  rw [Bool.eq_iff_iff]
  simp only [Bool.or_eq_true, decide_eq_true_eq]
  omega

theorem clonedTo_step {n : Nat} (h : Owned P R d b) (hce : c ≠ e) (hl : ClonedTo P m c e n b)
    (hs : ClonedEntry P b b' c e n) : ClonedTo P m c e (n + 1) b' := by
  have hcount : ∀ f, pageCount P b c n f = pageCount P m c n f := fun f =>
    pageCount_congr (fun v hv => by rw [maps, maps, hl.ahead v (by omega)]) f
  have hmono : ∀ f, m.pmm.users f ≠ 0 → b.pmm.users f ≠ 0 := by
    intro f hf
    rw [hl.users f (by rintro ⟨i, hi⟩; exact hf (hl.fresh i f hi))]
    omega
  have hfresh : ∀ f, tables P b' e n = some f → m.pmm.users f = 0 := by
    intro f hf
    by_contra hne
    exact hmono f hne (hs.fresh f hf)
  have htab : ∀ i f, tables P b' e i = some f → tables P b e i = some f ∨ tables P b' e n = some f := by
    intro i f hf
    by_cases hi : i = n
    · exact .inr (hi ▸ hf)
    · rw [hs.tables_other e i fun h' => hi h'.2] at hf
      exact .inl hf
  have hkeep : ∀ i f, tables P b e i = some f → tables P b' e i = some f := by
    intro i f hf
    rwa [hs.tables_other e i]
    rintro ⟨-, rfl⟩
    rw [hl.todo i le_rfl] at hf
    cases hf
  refine ⟨fun c' i hc' => ?_, fun i f hf => ?_, fun i hi => ?_, fun v hv => ?_, fun v hv => ?_,
    fun v hv => ?_, fun c' v h₁ h₂ => ?_, fun f hf => ?_, fun f hf => ?_, fun f => ?_,
    fun g hg hst => ?_, hl.frames.trans hs.frames, fun h' => hs.look (hl.look h'), ?_⟩
  · rw [hs.tables_other c' i fun h' => hc' h'.1, hl.tables_other c' i hc']
  · exact (htab i f hf).elim (hl.fresh i f) (hfresh f)
  · rw [hs.tables_other e i (by omega), hl.todo i (by omega)]
  · rcases Nat.lt_or_ge (v / 1024) n with hlt | hge
    · rw [hs.other e v (by omega) (fun h' => hce h'.1.symm), hl.child v hlt]
    · rw [hs.child v (by omega), hl.ahead v hge]
  · rcases Nat.lt_or_ge (v / 1024) n with hlt | hge
    · rw [hs.other c v (fun h' => hce h'.1) (by omega), hl.parent v hlt]
    · rw [hs.parent v (by omega), hl.ahead v hge]
  · rw [hs.other c v (fun h' => hce h'.1) (by omega), hl.ahead v (by omega)]
  · rw [hs.other c' v (fun h' => h₁ h'.1) (fun h' => h₂ h'.1), hl.other c' v h₁ h₂]
  · have hb : ¬ ∃ i, tables P b e i = some f := by
      rintro ⟨i, hi⟩
      exact hf ⟨i, hkeep i f hi⟩
    rw [hs.users, if_neg fun h' => hf ⟨n, h'⟩, hl.users f hb, hcount, pageSum_succ]
    omega
  · obtain ⟨i, hi⟩ := hf
    have hzero : pageCount P b c n f = 0 := by
      rcases htab i f hi with h' | h'
      · exact pageCount_structural h (.inr ⟨e, i, h'⟩)
      · exact pageCount_unused h (hs.fresh f h')
    rw [hs.users, hzero]
    rcases htab i f hi with h' | h'
    · have h₁ := hl.users_table f ⟨i, h'⟩
      rw [if_neg fun h'' => by have := hs.fresh f h''; omega]
      omega
    · rw [if_pos h', hs.fresh f h']
  · rw [hs.cow, hl.cow, hcount, pageSum_succ, Bool.or_assoc, decide_pos_or]
  · obtain ⟨h₁, h₂⟩ := hl.data g hg hst
    obtain ⟨h₃, h₄⟩ := hs.data g (hmono g hg) h₁
    exact ⟨h₃, h₄.trans h₂⟩
  · have h₁ := hs.room
    have h₂ := hl.room
    rw [hl.tables_other c n hce] at h₁
    rw [tableSum, Finset.sum_range_succ, ← tableSum]
    omega

theorem clonedTo_zero (hno : ∀ i, tables P m e i = none) : ClonedTo P m c e 0 m where
  tables_other _ _ _ := rfl
  fresh i f hf := by rw [hno] at hf; cases hf
  todo i _ := hno i
  child v hv := absurd hv (by omega)
  parent v hv := absurd hv (by omega)
  ahead _ _ := rfl
  other _ _ _ _ := rfl
  users f _ := by simp [pageSum]
  users_table f hf := by obtain ⟨i, hi⟩ := hf; rw [hno] at hi; cases hi
  cow f := by simp [pageSum]
  data _ _ hs := ⟨hs, rfl⟩
  frames := .refl _
  look := id
  room := by simp [tableSum]

/-- **What `vmmc_clone` does**, from the context `c` to the fresh context `e`. -/
structure Cloned (P : Nat → Option Nat) (m m' : Mem) (c e : Nat) : Prop where
  child : ∀ v, pages P m' e v = (pages P m c v).map cloned
  parent : ∀ v, pages P m' c v = (pages P m c v).map frozen
  other : ∀ c' v, c' ≠ e → c' ≠ c → pages P m' c' v = pages P m c' v
  tables_other : ∀ c' i, c' ≠ e → tables P m' c' i = tables P m c' i
  fresh : ∀ i f, tables P m' e i = some f → m.pmm.users f = 0
  users : ∀ f, (¬ ∃ i, tables P m' e i = some f) →
    m'.pmm.users f = m.pmm.users f + pageSum P m c userPdes f
  users_table : ∀ f, (∃ i, tables P m' e i = some f) → m'.pmm.users f = 1
  cow : ∀ f, m'.pmm.cow f = true ↔ m.pmm.cow f = true ∨ ∃ v, maps P m c v = some f
  data : ∀ g, m.pmm.users g ≠ 0 → ¬ Structural P m g → ¬ Structural P m' g ∧ m'.ram g = m.ram g
  frames : SameFrames m.pmm m'.pmm

/-- All rounds of `vmmc_clone`. -/
theorem clone_rounds (h : Owned P R d m) (hc : P c = some ps) (he : P e = some pd) (hce : c ≠ e)
    (hno : ∀ i, tables P m e i = none) (hm : vmmcClone m pd ps = some m') :
    Owned P R d m' ∧ ClonedTo P m c e userPdes m' := by
  obtain ⟨h', hl⟩ := foldlM_range_rule (P := fun n b => Owned P R d b ∧ ClonedTo P m c e n b) hm
    ⟨h, clonedTo_zero hno⟩
    fun i b b' hi ⟨hb, hl⟩ hstep => by
      obtain ⟨h₁, h₂⟩ := cloneDirEntry_spec hb hc he hce hi (hl.todo i le_rfl) hstep
      exact ⟨h₁, clonedTo_step hb hce hl h₂⟩
  exact ⟨h', hl⟩

theorem clone_spec (h : Owned P R d m) (hc : P c = some ps) (he : P e = some pd) (hce : c ≠ e)
    (hno : ∀ i, tables P m e i = none) (hm : vmmcClone m pd ps = some m') :
    Owned P R d m' ∧ Cloned P m m' c e := by
  have hnone : ∀ {n : Mem} {c' v : Nat}, tables P n c' (v / 1024) = none → pages P n c' v = none := by
    intro n c' v hn
    rw [pages_eq_bind, hn]; rfl
  obtain ⟨h', hl⟩ := clone_rounds h hc he hce hno hm
  have hhigh : ∀ {n : Mem} {c' v : Nat}, ¬ v / 1024 < userPdes → pages P n c' v = none := by
    intro n c' v hv
    cases hp : pages P n c' v with
    | none => rfl
    | some w => exact absurd (page_lt (f := frameOf w) (by rw [maps, hp]; rfl)) hv
  refine ⟨h', fun v => ?_, fun v => ?_, hl.other, hl.tables_other, hl.fresh, hl.users, hl.users_table,
    fun f => ?_, hl.data, hl.frames⟩
  · by_cases hv : v / 1024 < userPdes
    · exact hl.child v hv
    · rw [hhigh hv, hhigh hv]; rfl
  · by_cases hv : v / 1024 < userPdes
    · exact hl.parent v hv
    · rw [hhigh hv, hhigh hv]; rfl
  · rw [hl.cow, Bool.or_eq_true, decide_eq_true_eq, pageSum_pos]
    refine or_congr_right ⟨?_, ?_⟩
    · rintro ⟨v, -, hv⟩
      exact ⟨v, hv⟩
    · rintro ⟨v, hv⟩
      exact ⟨v, page_lt hv, hv⟩

/-- The directory that is copied is as before, and where it has a page table, user programs may read
and write by the copy. -/
theorem clone_directories (h : Owned P R d m) (hc : P c = some ps) (he : P e = some pd) (hce : c ≠ e)
    (hno : ∀ i, tables P m e i = none) (hm : vmmcClone m pd ps = some m') :
    m'.ram ps = m.ram ps ∧ ∀ i, i < userPdes → isPr (m.entry ps i) = true →
      isUs (m'.entry pd i) = true ∧ isRw (m'.entry pd i) = true := by
  obtain ⟨-, -, hram, hdir⟩ := foldlM_range_rule
    (P := fun n b => Owned P R d b ∧ ClonedTo P m c e n b ∧ b.ram ps = m.ram ps ∧
      ∀ i, i < n → isPr (m.entry ps i) = true →
        isUs (b.entry pd i) = true ∧ isRw (b.entry pd i) = true) hm
    ⟨h, clonedTo_zero hno, rfl, fun i hi => absurd hi (by omega)⟩
    fun n b b' hn ⟨hb, hl, hram, hdir⟩ hstep => by
      obtain ⟨h₁, h₂⟩ := cloneDirEntry_spec hb hc he hce hn (hl.todo n le_rfl) hstep
      obtain ⟨hram', hother, hnew⟩ := cloneDirEntry_dirs hb hc he hce hn hstep
      refine ⟨h₁, clonedTo_step hb hce hl h₂, hram'.trans hram, fun i hi hpr => ?_⟩
      by_cases hin : i = n
      · subst hin
        exact hnew (by rwa [entry_congr hram])
      · rw [hother i hin]
        exact hdir i (by omega) hpr
  exact ⟨hram, hdir⟩

/-- `vmmc_clone` ends as long as there are frames for the page tables and no user count
overflows. -/
theorem clone_isSome (h : Owned P R 0 m) (hc : P c = some ps) (he : P e = some pd) (hce : c ≠ e)
    (hno : ∀ i, tables P m e i = none) (hlook : LookOk m.pmm)
    (hroom : tableSum P m c userPdes ≤ freeFrames m.pmm)
    (hmax : ∀ f v, maps P m c v = some f → m.pmm.users f + pageSum P m c userPdes f ≤ 127) :
    ∃ m', vmmcClone m pd ps = some m' := by
  refine (foldlM_range_total (P := fun n b => Owned P R 0 b ∧ ClonedTo P m c e n b)
    (f := cloneDirEntry pd ps) (n := userPdes) ⟨h, clonedTo_zero hno⟩ ?_).imp fun _ h => h.1
  rintro i b hi ⟨hb, hl⟩
  suffices ∃ b', cloneDirEntry pd ps b i = some b' by
    obtain ⟨b', hb'⟩ := this
    obtain ⟨h₁, h₂⟩ := cloneDirEntry_spec hb hc he hce hi (hl.todo i le_rfl) hb'
    exact ⟨b', hb', h₁, clonedTo_step hb hce hl h₂⟩
  have hmono : ∀ {k}, k ≤ userPdes → tableSum P m c k ≤ tableSum P m c userPdes := fun hk =>
    Finset.sum_le_sum_of_subset (Finset.range_mono hk)
  have hcount : ∀ f, pageCount P b c i f = pageCount P m c i f := fun f =>
    pageCount_congr (fun v hv => by rw [maps, maps, hl.ahead v (by omega)]) f
  refine cloneDirEntry_isSome hb hc he hce hi (hl.look hlook) (fun ht => ?_) fun f hf => ?_
  · -- the tables still to come have their frames
    have h₁ := hl.room
    have h₂ := hmono (show i + 1 ≤ userPdes by omega)
    rw [hl.tables_other c i hce] at ht
    rw [tableSum, Finset.sum_range_succ, ← tableSum, if_pos ht] at h₂
    omega
  · rw [hcount] at hf ⊢
    obtain ⟨v, -, hv⟩ := pageCount_pos.mp hf
    have hpos := h.users_pos (s := .page c v) hv
    have h₁ := hl.users f (by rintro ⟨j, hj⟩; have := hl.fresh j f hj; omega)
    have h₂ := hmax f v hv
    have h₃ : pageSum P m c (i + 1) f ≤ pageSum P m c userPdes f :=
      Finset.sum_le_sum_of_subset (Finset.range_mono (by omega))
    rw [pageSum_succ] at h₃
    omega

end Muxomucota.Mmu
