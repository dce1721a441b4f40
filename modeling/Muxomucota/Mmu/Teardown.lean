import Muxomucota.Mmu.Clone

/-!
# Mmu — contexts come and go

`create_vmm_context_arch` makes an address space without pages; `vmmc_clear_user` takes its pages
away and gives their frames back, but not those of the mapping area; `destroy_vmm_context` gives
the directory back too.
-/

namespace Muxomucota.Mmu
open Memory Pmm Lib

variable {ρ : Type} {P : Nat → Option Nat} {R : ρ → Option Nat} {d : Nat → Int} {m m' b b' : Mem}
  {c e pd pdi t f n : Nat} {preserve : Bool}

/-! ### `create_vmm_context_arch` -/

/-- A fresh context has no pages, and nothing in use has changed. -/
theorem create_spec {kpd : KernelDirectory} (h : Owned P R d m) (hc : P c = none)
    (hm : createVmmContextArch kpd m = some (pd, m')) :
    Owned (Function.update P c (some pd)) R d m' ∧
      tables (Function.update P c (some pd)) m' = tables P m ∧
      pages (Function.update P c (some pd)) m' = pages P m ∧
      m.pmm.users pd = 0 ∧ m'.pmm.users pd = 1 ∧
      (∀ g, g ≠ pd → m'.pmm.users g = m.pmm.users g ∧ m'.ram g = m.ram g) ∧
      (∀ g, m'.pmm.cow g = m.pmm.cow g) ∧ SameFrames m.pmm m'.pmm := by
  obtain ⟨⟨f, m₁⟩, ha, hm⟩ := Option.map_eq_some_iff.mp hm
  simp only [Prod.mk.injEq] at hm
  obtain ⟨rfl, rfl⟩ := hm
  obtain ⟨hram, hs, htr, hu₀, hc₀, hu, hcow⟩ := alloc_spec ha
  obtain ⟨h₁, hlt⟩ := h.alloc ha
  have hnot : ¬ Structural P m f := h.free_not_structural hu₀
  set m₂ : Mem := { m₁ with ram := Function.update m₁.ram f kpd.bytes } with hm₂
  have hst : ∀ g, Structural P m₁ g → m₂.ram g = m₁.ram g := by
    intro g hg
    refine Function.update_of_ne ?_ _ _
    rintro rfl
    exact hnot ((Owned.structural_of_ram hram _).mp hg)
  have h₂ : Owned P R (d - one f) m₂ := h₁.data rfl hst
  obtain ⟨hts₁, hps₁⟩ := views_of_ram (P := P) hram
  have hv₂ : tables P m₂ = tables P m₁ ∧ pages P m₂ = pages P m₁ := views_of_data hst
  obtain ⟨hts₂, hps₂⟩ := hv₂
  have hself : m₂.ram f = kpd.bytes := Function.update_self ..
  have hempty : ∀ i, m₂.table f i = none := by
    intro i
    unfold Mem.table Mem.entry Ram.word
    rw [hself]
    split
    · rename_i hi
      simp [present, kpd.user_empty i hi]
    · rfl
  have hd : (d - one f) f = -1 := by
    have h₃ := h.idle f hu₀
    have h₄ := h.nonneg f
    simp only [Pi.sub_apply, one_self]
    omega
  have hnot₂ : ¬ Structural P m₂ f := by
    rw [structural_congr (hts₂.trans hts₁)]; exact hnot
  have hu₁ : m₂.pmm.users f = 1 := by
    show m₁.pmm.users f = 1
    rw [hu, if_pos rfl]
  obtain ⟨h₃, hts₃, hps₃⟩ := h₂.addSpace hc hnot₂ hempty hu₁ hd
  rw [sub_add_cancel] at h₃
  refine ⟨h₃, hts₃.trans (hts₂.trans hts₁), hps₃.trans (hps₂.trans hps₁), hu₀, hu₁,
    fun g hg => ⟨?_, ?_⟩, hcow, hs⟩
  · show m₁.pmm.users g = _
    rw [hu, if_neg hg]
  · show Function.update _ _ _ g = _
    rw [Function.update_of_ne hg, hram]

theorem create_isSome (kpd : KernelDirectory) (hl : LookOk m.pmm) (h : 0 < freeFrames m.pmm) :
    ∃ pd m', createVmmContextArch kpd m = some (pd, m') ∧ LookOk m'.pmm ∧
      freeFrames m'.pmm + 1 = freeFrames m.pmm := by
  obtain ⟨pd, m', ha⟩ := alloc_isSome hl h
  have hfree : freeFrames m'.pmm + 1 = freeFrames m.pmm := alloc_freeFrames ha
  have hlook : LookOk m'.pmm := alloc_lookOk hl ha
  exact ⟨pd, { m' with ram := Function.update m'.ram pd kpd.bytes },
    by rw [createVmmContextArch, ha]; rfl, hlook, hfree⟩

/-! ### `vmmc_clear_user` -/

/-- The entries that `vmmc_clear_user` leaves alone. -/
def Preserved (preserve : Bool) (pdi : Nat) : Prop := preserve = true ∧ inHeritage pdi

instance (preserve : Bool) (pdi : Nat) : Decidable (Preserved preserve pdi) := by
  unfold Preserved; infer_instance

/-- How many references to `f` the first `n` rounds of `vmmc_clear_user` give back for pages. -/
def freedSum (P : Nat → Option Nat) (m : Mem) (c : Nat) (preserve : Bool) (n f : Nat) : Nat :=
  ∑ i ∈ Finset.range n,
    if Preserved preserve i ∨ inMapArea i then 0 else pageCount P m c i f

/-- What one round of `vmmc_clear_user` has done. -/
structure ClearedEntry (P : Nat → Option Nat) (m m' : Mem) (c pdi : Nat) (preserve : Bool) :
    Prop where
  tables : ∀ c' i, tables P m' c' i =
    if c' = c ∧ i = pdi ∧ ¬ Preserved preserve pdi then none else tables P m c' i
  pages : ∀ c' v, pages P m' c' v =
    if c' = c ∧ v / 1024 = pdi ∧ ¬ Preserved preserve pdi then none else pages P m c' v
  users : ∀ f, m'.pmm.users f + (if Preserved preserve pdi ∨ inMapArea pdi then 0
      else pageCount P m c pdi f) +
    (if ¬ Preserved preserve pdi ∧ Mmu.tables P m c pdi = some f then 1 else 0) = m.pmm.users f
  cow : ∀ f, m'.pmm.cow f = m.pmm.cow f
  data : ∀ g, P c ≠ some g → m'.ram g = m.ram g
  frames : SameFrames m.pmm m'.pmm

/-- There is no table. -/
theorem clearDirEntry_absent (h : Owned P R 0 b) (hc : P c = some pd)
    (hpr : isPr (b.entry pd pdi) = false) :
    Owned P R 0 (b.setEntry pd pdi mapNp) ∧
      ClearedEntry P b (b.setEntry pd pdi mapNp) c pdi preserve := by
  have hno : tables P b c pdi = none := by
    rw [tables_eq hc, Mem.table]
    simp [present, hpr]
  obtain ⟨h', hts, hps, -⟩ := absentEntry_spec (w := mapNp) h hc hno rfl
  refine ⟨h', fun c' i => ?_, fun c' v => ?_, fun f => ?_, fun _ => rfl,
    fun g hg => setEntry_ram _ _ _ ?_, .refl _⟩
  · rw [hts]
    split
    · rename_i h''; rw [h''.1, h''.2.1, hno]
    · rfl
  · rw [hps]
    split
    · rename_i h''; rw [pages_eq_bind, h''.1, h''.2.1, hno]; rfl
    · rfl
  · rw [setEntry_pmm, pageCount_of_none hno, hno]
    simp
  · rintro rfl; exact hg hc

theorem clearDirEntry_spec (h : Owned P R 0 b) (hc : P c = some pd) (hpdi : pdi < userPdes)
    (hstep : clearDirEntry pd preserve b pdi = some b') :
    Owned P R 0 b' ∧ ClearedEntry P b b' c pdi preserve := by
  unfold clearDirEntry at hstep
  split at hstep
  · rename_i hp
    cases hstep
    have hp : Preserved preserve pdi := hp
    exact ⟨h, fun _ _ => by simp [hp], fun _ _ => by simp [hp], fun _ => by simp [hp], fun _ => rfl,
      fun _ _ => rfl, .refl _⟩
  · rename_i hp
    have hp : ¬ Preserved preserve pdi := hp
    split at hstep
    · rename_i hpr
      have hpr : isPr (b.entry pd pdi) = false := by simpa using hpr
      cases hstep
      exact clearDirEntry_absent h hc hpr
    · rename_i hpr
      have hpr : isPr (b.entry pd pdi) = true := by simpa using hpr
      set t := frameOf (b.entry pd pdi) with htdef
      have htab : b.table pd pdi = some t := table_eq_some.mpr ⟨hpdi, hpr, rfl⟩
      have ht : tables P b c pdi = some t := (tables_eq hc pdi).trans htab
      rw [Option.bind_eq_some_iff] at hstep
      obtain ⟨b₁, h₁, hstep⟩ := hstep
      -- the pages' frames are given back, except in the mapping area
      have hfrees : b₁.ram = b.ram ∧ SameFrames b.pmm b₁.pmm ∧
          (∀ f, b₁.pmm.users f + (if inMapArea pdi then 0 else pageCount P b c pdi f)
            = b.pmm.users f) ∧ ∀ f, b₁.pmm.cow f = b.pmm.cow f := by
        split at h₁
        · rename_i hm
          obtain ⟨hr, hs, hu, hcow⟩ := clearTable_spec h₁
          refine ⟨hr, hs, fun f => ?_, hcow⟩
          rw [if_neg hm, pageCount_of_table ht]
          exact hu f
        · rename_i hm
          cases h₁
          refine ⟨rfl, .refl _, fun f => ?_, fun _ => rfl⟩
          rw [if_pos (not_not.mp hm)]
          rfl
      obtain ⟨hram₁, hs₁, hu₁, hcow₁⟩ := hfrees
      have ht₁ : frameOf (b₁.entry pd pdi) = t := by rw [entry_congr (congrFun hram₁ pd)]
      rw [ht₁] at hstep
      obtain ⟨b₂, h₂, rfl⟩ := Option.map_eq_some_iff.mp hstep
      obtain ⟨hram₂, hs₂, hpos, hu₂, hcow₂⟩ := free_spec h₂
      set b' := b₂.setEntry pd pdi mapNp with hb'
      have he : DirEntryEmptied P b b' c pd pdi := dirEntry_emptied h hc (hram₂.trans hram₁)
      have husers : ∀ f, b'.pmm.users f + (if inMapArea pdi then 0 else pageCount P b c pdi f) +
          (if t = f then 1 else 0) = b.pmm.users f := by
        intro f
        rw [hb', setEntry_pmm, hu₂]
        have h₃ := hu₁ f
        by_cases hf : f = t
        · subst hf
          simp only [ite_true]
          omega
        · rw [if_neg hf, if_neg (Ne.symm hf)]
          omega
      refine ⟨?_, fun c' i => ?_, fun c' v => ?_, fun f => ?_, fun f => ?_, fun g hg => he.ram g ?_,
        hs₁.trans hs₂⟩
      · refine h.dirEntry hc (.inr rfl) (fun g hg _ => he.ram g hg) he.entry (hs₁.trans hs₂)
          (fun a => ?_) (fun _ _ => le_rfl) fun a ha => ?_
        · have h₃ := husers a
          rw [dirCount, he.table, dirCount, htab]
          rw [pageCount_of_table ht] at h₃
          simp only [Pi.zero_apply]
          by_cases hta : t = a <;> simp only [hta, if_true, if_false] at h₃ ⊢ <;>
            split at h₃ <;> push_cast <;> omega
        · have hsub := he.structural h ht ha
          have h₃ := husers a
          have h₄ := (h.solo a hsub.1).1
          rw [pageCount_structural h hsub.1, if_neg (Ne.symm hsub.2)] at h₃
          refine ⟨?_, rfl⟩
          split at h₃ <;> omega
      · rw [he.tables]; simp [hp]
      · rw [he.pages]; simp [hp]
      · have h₃ := husers f
        simp only [hp, false_or, not_false_eq_true, true_and, ht, Option.some.injEq]
        exact h₃
      · rw [hb', setEntry_pmm, hcow₂, hcow₁]
      · rintro rfl; exact hg hc

/-- The round ends: every page has a reference to its frame. -/
theorem clearDirEntry_isSome (preserve : Bool) (h : Owned P R 0 b) (hc : P c = some pd) (hpdi : pdi < userPdes) :
    ∃ b', clearDirEntry pd preserve b pdi = some b' := by
  unfold clearDirEntry
  split
  · exact ⟨_, rfl⟩
  · split
    · exact ⟨_, rfl⟩
    · rename_i hpr
      have hpr : isPr (b.entry pd pdi) = true := by simpa using hpr
      set t := frameOf (b.entry pd pdi) with htdef
      have htab : b.table pd pdi = some t := table_eq_some.mpr ⟨hpdi, hpr, rfl⟩
      have ht : tables P b c pdi = some t := (tables_eq hc pdi).trans htab
      have hcount : ∀ a, countIn b t a ≤ b.pmm.users a := by
        intro a
        have h₁ := h.dirCount_le hc pdi a
        rw [dirCount, htab] at h₁
        simp only [Pi.zero_apply] at h₁
        push_cast at h₁
        omega
      -- the table itself is in none of its own entries
      have hself : countIn b t t = 0 := by
        rw [← pageCount_of_table ht]
        exact pageCount_structural h (.inr ⟨c, pdi, ht⟩)
      have hone := (h.solo_table ht).1
      have hfrees : ∃ b₁, (if ¬ inMapArea pdi then clearTable b t else some b) = some b₁ ∧
          b₁.ram = b.ram ∧ b₁.pmm.users t = 1 := by
        split
        · obtain ⟨b₁, h₁⟩ := clearTable_isSome hcount
          obtain ⟨hr, -, hu, -⟩ := clearTable_spec h₁
          exact ⟨b₁, h₁, hr, by have := hu t; omega⟩
        · exact ⟨b, rfl, rfl, hone⟩
      obtain ⟨b₁, h₁, hram, hu⟩ := hfrees
      have he : frameOf (b₁.entry pd pdi) = t := by rw [entry_congr (congrFun hram pd)]
      obtain ⟨b₂, h₂⟩ := free_isSome (m := b₁) (f := t) (by omega)
      exact ⟨_, by rw [h₁, Option.bind_some, he, h₂]; rfl⟩

/-- What the first `n` rounds of `vmmc_clear_user` have done. -/
structure ClearedTo (P : Nat → Option Nat) (m : Mem) (c : Nat) (preserve : Bool) (n : Nat)
    (m' : Mem) : Prop where
  tables : ∀ c' i, tables P m' c' i =
    if c' = c ∧ i < n ∧ ¬ Preserved preserve i then none else tables P m c' i
  pages : ∀ c' v, pages P m' c' v =
    if c' = c ∧ v / 1024 < n ∧ ¬ Preserved preserve (v / 1024) then none else pages P m c' v
  users : ∀ f, (¬ ∃ i, i < n ∧ ¬ Preserved preserve i ∧ Mmu.tables P m c i = some f) →
    m'.pmm.users f + freedSum P m c preserve n f = m.pmm.users f
  users_table : ∀ f, (∃ i, i < n ∧ ¬ Preserved preserve i ∧ Mmu.tables P m c i = some f) →
    m'.pmm.users f = 0
  cow : ∀ f, m'.pmm.cow f = m.pmm.cow f
  data : ∀ g, P c ≠ some g → m'.ram g = m.ram g
  frames : SameFrames m.pmm m'.pmm

theorem clearedTo_step (h : Owned P R 0 m) (hl : ClearedTo P m c preserve n b)
    (hs : ClearedEntry P b b' c n preserve) : ClearedTo P m c preserve (n + 1) b' := by
  have hcount : ∀ f, pageCount P b c n f = pageCount P m c n f := by
    refine pageCount_congr fun v hv => ?_
    rw [maps, maps, hl.pages, if_neg (by omega)]
  have htn : tables P b c n = tables P m c n := by rw [hl.tables, if_neg (by omega)]
  have hsum : ∀ f, freedSum P m c preserve (n + 1) f = freedSum P m c preserve n f +
      if Preserved preserve n ∨ inMapArea n then 0 else pageCount P m c n f :=
    fun f => Finset.sum_range_succ _ _
  refine ⟨fun c' i => ?_, fun c' v => ?_, fun f hf => ?_, fun f hf => ?_, fun f => ?_,
    fun g hg => ?_, hl.frames.trans hs.frames⟩
  · rw [hs.tables, hl.tables]
    split_ifs <;> grind
  · rw [hs.pages, hl.pages]
    split_ifs <;> grind
  · have h₁ := hs.users f
    have h₂ := hl.users f (by rintro ⟨i, hi, hi'⟩; exact hf ⟨i, by omega, hi'⟩)
    have h₃ : ¬ (¬ Preserved preserve n ∧ Mmu.tables P b c n = some f) := by
      rintro ⟨hp, ht⟩
      exact hf ⟨n, by omega, hp, by rw [← htn]; exact ht⟩
    rw [hcount, if_neg h₃] at h₁
    rw [hsum]
    omega
  · have h₁ := hs.users f
    by_cases hb : ∃ i, i < n ∧ ¬ Preserved preserve i ∧ Mmu.tables P m c i = some f
    · have h₂ := hl.users_table f hb
      omega
    · obtain ⟨i, hi, hp, ht⟩ := hf
      have hin : i = n := by
        by_contra hne
        exact hb ⟨i, by omega, hp, ht⟩
      subst hin
      have h₂ := hl.users f hb
      have h₃ := (h.solo_table ht).1
      have h₄ : (if ¬ Preserved preserve i ∧ Mmu.tables P b c i = some f then 1 else 0) = 1 :=
        if_pos ⟨hp, htn.trans ht⟩
      omega
  · rw [hs.cow, hl.cow]
  · rw [hs.data g hg, hl.data g hg]

/-- **What `vmmc_clear_user` does** to the context `c`. -/
structure Cleared (P : Nat → Option Nat) (m m' : Mem) (c : Nat) (preserve : Bool) : Prop where
  tables : ∀ c' i, tables P m' c' i =
    if c' = c ∧ ¬ Preserved preserve i then none else tables P m c' i
  pages : ∀ c' v, pages P m' c' v =
    if c' = c ∧ ¬ Preserved preserve (v / 1024) then none else pages P m c' v
  users : ∀ f, (¬ ∃ i, ¬ Preserved preserve i ∧ Mmu.tables P m c i = some f) →
    m'.pmm.users f + freedSum P m c preserve userPdes f = m.pmm.users f
  users_table : ∀ f, (∃ i, ¬ Preserved preserve i ∧ Mmu.tables P m c i = some f) →
    m'.pmm.users f = 0
  cow : ∀ f, m'.pmm.cow f = m.pmm.cow f
  data : ∀ g, P c ≠ some g → m'.ram g = m.ram g
  frames : SameFrames m.pmm m'.pmm

theorem table_lt (ht : tables P m c pdi = some t) : pdi < userPdes := by
  obtain ⟨pd, -, ht⟩ := Option.bind_eq_some_iff.mp ht
  exact (table_eq_some.mp ht).1

theorem clear_spec (h : Owned P R 0 m) (hc : P c = some pd)
    (hm : vmmcClearUser m pd preserve = some m') :
    Owned P R 0 m' ∧ Cleared P m m' c preserve := by
  obtain ⟨h', hl⟩ := foldlM_range_rule
    (P := fun n b => Owned P R 0 b ∧ ClearedTo P m c preserve n b) hm
    ⟨h, fun _ _ => by simp, fun _ _ => by simp, fun _ _ => by simp [freedSum],
      fun _ ⟨_, hi, _⟩ => absurd hi (by omega), fun _ => rfl, fun _ _ => rfl, .refl _⟩
    fun i b b' hi ⟨hb, hl⟩ hstep => by
      obtain ⟨h₁, h₂⟩ := clearDirEntry_spec hb hc hi hstep
      exact ⟨h₁, clearedTo_step h hl h₂⟩
  have hex : ∀ f, (∃ i, ¬ Preserved preserve i ∧ Mmu.tables P m c i = some f) ↔
      ∃ i, i < userPdes ∧ ¬ Preserved preserve i ∧ Mmu.tables P m c i = some f :=
    fun f => ⟨by rintro ⟨i, hp, ht⟩; exact ⟨i, table_lt ht, hp, ht⟩,
      by rintro ⟨i, -, hp, ht⟩; exact ⟨i, hp, ht⟩⟩
  refine ⟨h', fun c' i => ?_, fun c' v => ?_, fun f hf => hl.users f ((hex f).not.mp hf),
    fun f hf => hl.users_table f ((hex f).mp hf), hl.cow, hl.data, hl.frames⟩
  · rw [hl.tables]
    by_cases hi : i < userPdes
    · simp [hi]
    · have hnone : ∀ c', tables P m c' i = none := by
        intro c'
        cases ht : tables P m c' i with
        | none => rfl
        | some t => exact absurd (table_lt ht) hi
      rw [hnone]; simp
  · rw [hl.pages]
    by_cases hv : v / 1024 < userPdes
    · simp [hv]
    · have hnone : ∀ c', pages P m c' v = none := by
        intro c'
        cases hp : pages P m c' v with
        | none => rfl
        | some w => exact absurd (page_lt (f := frameOf w) (by rw [maps, hp]; rfl)) hv
      rw [hnone]; simp

/-- `vmmc_clear_user` always ends. -/
theorem clear_isSome (preserve : Bool) (h : Owned P R 0 m) (hc : P c = some pd) :
    ∃ m', vmmcClearUser m pd preserve = some m' := by
  refine (foldlM_range_total (P := fun _ b => Owned P R 0 b) (f := clearDirEntry pd preserve)
    (n := userPdes) h ?_).imp fun _ h => h.1
  intro i b hi hb
  obtain ⟨b', hb'⟩ := clearDirEntry_isSome preserve hb hc hi
  exact ⟨b', hb', (clearDirEntry_spec hb hc hi hb').1⟩

/-! ### `destroy_vmm_context` -/

/-- **What `destroy_vmm_context` does**: the context is gone, every page outside the mapping area
has given its frame back, and so have the page tables and the directory. -/
theorem destroy_spec (h : Owned P R 0 m) (hc : P c = some pd)
    (hm : destroyVmmContext m pd = some m') :
    Owned (Function.update P c none) R 0 m' ∧
      (∀ c' i, tables (Function.update P c none) m' c' i = if c' = c then none else tables P m c' i) ∧
      (∀ c' v, pages (Function.update P c none) m' c' v = if c' = c then none else pages P m c' v) ∧
      (∀ f, f ≠ pd → (¬ ∃ i, tables P m c i = some f) →
        m'.pmm.users f + freedSum P m c false userPdes f = m.pmm.users f) ∧
      (∀ f, (f = pd ∨ ∃ i, tables P m c i = some f) → m'.pmm.users f = 0) ∧
      (∀ f, m'.pmm.cow f = m.pmm.cow f) ∧ (∀ g, g ≠ pd → m'.ram g = m.ram g) ∧
      SameFrames m.pmm m'.pmm := by
  unfold destroyVmmContext at hm
  rw [Option.bind_eq_some_iff] at hm
  obtain ⟨m₁, h₁, hm⟩ := hm
  obtain ⟨hown, hcl⟩ := clear_spec h hc h₁
  obtain ⟨hram, hs, hpos, hu, hcow⟩ := free_spec hm
  have hp : ∀ i, ¬ Preserved false i := fun i h' => by cases h'.1
  have hts : ∀ c' i, tables P m₁ c' i = if c' = c then none else tables P m c' i := by
    intro c' i; rw [hcl.tables]; simp [hp]
  have hps : ∀ c' v, pages P m₁ c' v = if c' = c then none else pages P m c' v := by
    intro c' v; rw [hcl.pages]; simp [hp]
  have hempty : ∀ i, m₁.table pd i = none := by
    intro i; rw [← tables_eq hc, hts, if_pos rfl]
  obtain ⟨hdrop, hts₂, hps₂⟩ := hown.dropSpace hc hempty
  have hone := (hown.solo_dir hc).1
  have hd : (0 - one pd : Nat → Int) pd < 0 := by simp
  have hfin := hdrop.free (fun _ => hd) hm
  rw [sub_add_cancel] at hfin
  obtain ⟨hts₃, hps₃⟩ := views_of_ram (P := Function.update P c none) hram
  have hntab : ¬ ∃ i, ¬ Preserved false i ∧ tables P m c i = some pd :=
    by rintro ⟨i, -, hi⟩; exact h.table_ne_dir hi hc rfl
  refine ⟨hfin, fun c' i => by rw [hts₃, hts₂, hts], fun c' v => by rw [hps₃, hps₂, hps],
    fun f hf hnt => ?_, fun f hf => ?_, fun f => by rw [hcow, hcl.cow], fun g hg => ?_,
    hcl.frames.trans hs⟩
  · rw [hu, if_neg hf]
    exact hcl.users f (by rintro ⟨i, -, hi⟩; exact hnt ⟨i, hi⟩)
  · rcases hf with rfl | ⟨i, hi⟩
    · rw [hu, if_pos rfl, hone]
    · have hne := h.table_ne_dir hi hc
      rw [hu, if_neg hne]
      exact hcl.users_table f ⟨i, hp i, hi⟩
  · rw [hram]
    refine hcl.data g ?_
    rw [hc]
    exact fun h' => hg (Option.some.inj h').symm

/-- `destroy_vmm_context` always ends. -/
theorem destroy_isSome (h : Owned P R 0 m) (hc : P c = some pd) :
    ∃ m', destroyVmmContext m pd = some m' := by
  obtain ⟨m₁, h₁⟩ := clear_isSome false h hc
  obtain ⟨hown, -⟩ := clear_spec h hc h₁
  obtain ⟨m', hm'⟩ := free_isSome (m := m₁) (f := pd) (by have := (hown.solo_dir hc).1; omega)
  exact ⟨m', by rw [destroyVmmContext, h₁]; exact hm'⟩

end Muxomucota.Mmu
