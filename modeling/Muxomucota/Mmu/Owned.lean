import Muxomucota.Mmu.Spaces

/-!
# Mmu — the references one operation moves

One lemma for each kind of operation: what it does to the open references `d` of the ownership
invariant.  `pmm_alloc` and `pmm_use` take a reference that is not stored yet, a page-table entry
stores one, `pmm_free` gives one back.
-/

namespace Muxomucota.Mmu
open Memory Pmm Lib

variable {ρ : Type} {P : Nat → Option Nat} {R R' : ρ → Option Nat} {d d' : Nat → Int} {m m' : Mem}
  {c c' pd pdi pti v t f g : Nat} {w : BitVec 32}

@[simp] theorem one_self (f : Nat) : one f f = 1 := if_pos rfl

theorem one_apply (f g : Nat) : one f g = if g = f then 1 else 0 := rfl

namespace Owned

/-- Before there is any context. -/
theorem init (m : Mem) (hm : m.pmm.memBase + m.pmm.memEntries ≤ 2 ^ 20) :
    Owned (fun _ => none) (fun _ : ρ => none) 0 m := by
  have hslots : ∀ s : Slot ρ, slots (fun _ => none) (fun _ => none) m s = none := by
    intro s
    cases s <;> simp [slots, tables, maps, pages]
  refine ⟨fun f => ?_, fun f => ?_, fun _ _ => le_rfl, fun f hf => ?_, hm⟩
  · have hnone : holders (slots (fun _ => none) (fun _ : ρ => none) m) f = ∅ :=
      Set.eq_empty_of_forall_notMem fun s hs => by
        have := (hslots s).symm.trans hs
        cases this
    rw [hnone]
    simp
  · simp
  · rcases hf with ⟨c, hc⟩ | ⟨c, i, hi⟩
    · cases hc
    · simp [tables] at hi

/-- No slot changes its frame, and every frame keeps its references. -/
theorem congr (h : Owned P R d m) (hs : slots P R m' = slots P R m)
    (hst : ∀ f, Structural P m' f → Structural P m f) (hf : SameFrames m.pmm m'.pmm)
    (hn : ∀ f, m'.pmm.users f + d' f = m.pmm.users f + d f)
    (idle : ∀ f, m'.pmm.users f = 0 → d' f ≤ 0)
    (solo : ∀ f, Structural P m f → m'.pmm.users f = 1) : Owned P R d' m' where
  covered := by
    rw [hs]
    exact h.covered.mono fun f => by rw [hn]
  nonneg f := by rw [hn]; exact h.nonneg f
  idle := idle
  solo f hf := by
    have h₁ := h.solo f (hst f hf)
    have h₂ := solo f (hst f hf)
    have := hn f
    omega
  small := by rw [hf.1, hf.2]; exact h.small

theorem slots_of_ram (h : m'.ram = m.ram) : slots P R m' = slots P R m := by
  obtain ⟨ht, hp⟩ := views_of_ram (P := P) h
  funext s
  cases s with
  | dir c => rfl
  | table c pdi => simp only [slots, ht]
  | page c v => simp only [slots, maps, hp]
  | ref r => rfl

theorem structural_of_ram (h : m'.ram = m.ram) (f : Nat) : Structural P m' f ↔ Structural P m f := by
  unfold Structural
  rw [(views_of_ram h).1]

/-- A frame that nobody uses is in no slot. -/
theorem not_held (h : Owned P R d m) (hf : m.pmm.users f = 0) (s : Slot ρ) :
    slots P R m s ≠ some f :=
  fun hs => by have := h.users_pos hs; omega

theorem free_not_structural (h : Owned P R d m) (hf : m.pmm.users f = 0) : ¬ Structural P m f :=
  fun hs => by have := (h.solo f hs).1; omega

/-- The new frame is nobody's and its reference is not stored yet. -/
theorem alloc (h : Owned P R d m) (ha : m.alloc = some (f, m')) :
    Owned P R (d - one f) m' ∧ f < 2 ^ 20 := by
  obtain ⟨hram, hs, htr, hu₀, -, hu, -⟩ := alloc_spec ha
  have hd := h.idle f hu₀
  have hn := h.nonneg f
  refine ⟨h.congr (slots_of_ram hram) (fun f => (structural_of_ram hram f).mp) hs (fun g => ?_)
    (fun g hg => ?_) fun g hg => ?_, ?_⟩
  · simp only [Pi.sub_apply, one_apply, hu]
    split
    · rename_i hgf; subst hgf; omega
    · omega
  · have := h.idle g
    simp only [Pi.sub_apply, one_apply, hu] at hg ⊢
    split at hg <;> simp_all
  · rw [hu, if_neg]
    · exact (h.solo g hg).1
    · rintro rfl; exact h.free_not_structural hu₀ hg
  · exact tracked_lt h.small htr

/-- One more reference to a frame that is not a directory or table. -/
theorem use (h : Owned P R d m) (hf : ¬ Structural P m f) (hu : m.use f = some m') :
    Owned P R (d - one f) m' := by
  obtain ⟨hram, hs, hpos, -, hu, -⟩ := use_spec hu
  refine h.congr (slots_of_ram hram) (fun f => (structural_of_ram hram f).mp) hs (fun g => ?_)
    (fun g hg => ?_) fun g hg => ?_
  · simp only [Pi.sub_apply, one_apply, hu]
    split
    · rename_i hgf; subst hgf; omega
    · omega
  · have := h.idle g
    simp only [Pi.sub_apply, one_apply, hu] at hg ⊢
    split at hg <;> simp_all
  · rw [hu, if_neg]
    · exact (h.solo g hg).1
    · rintro rfl; exact hf hg

/-- A reference is given back; the last one only if it is not stored anywhere. -/
theorem free (h : Owned P R d m) (hd : m.pmm.users f = 1 → d f < 0) (hf : m.free f = some m') :
    Owned P R (d + one f) m' := by
  obtain ⟨hram, hs, hpos, hu, -⟩ := free_spec hf
  refine h.congr (slots_of_ram hram) (fun f => (structural_of_ram hram f).mp) hs (fun g => ?_)
    (fun g hg => ?_) fun g hg => ?_
  · simp only [Pi.add_apply, one_apply, hu]
    split
    · rename_i hgf; subst hgf; omega
    · omega
  · have := h.idle g
    simp only [Pi.add_apply, one_apply, hu] at hg ⊢
    split at hg
    · rename_i hgf; subst hgf
      have := hd (by omega)
      simp only [ite_true]; omega
    · simp_all
  · rw [hu, if_neg]
    · exact (h.solo g hg).1
    · rintro rfl
      have h₁ := h.solo g hg
      have := hd h₁.1
      omega

theorem markCow {flag : Bool} (h : Owned P R d m) (hf : m.markCow f flag = some m') :
    Owned P R d m' := by
  obtain ⟨hram, hs, -, hu, -⟩ := markCow_spec hf
  exact h.congr (slots_of_ram hram) (fun f => (structural_of_ram hram f).mp) hs
    (fun g => by rw [hu]) (fun g hg => h.idle g (by rwa [hu] at hg))
    fun g hg => by rw [hu]; exact (h.solo g hg).1

/-- Writing outside the directories and page tables. -/
theorem data (h : Owned P R d m) (hp : m'.pmm = m.pmm)
    (hram : ∀ g, Structural P m g → m'.ram g = m.ram g) : Owned P R d m' := by
  obtain ⟨ht, hpg⟩ := views_of_data hram
  refine h.congr (funext fun s => ?_) (fun f hf => ?_) (by rw [hp]; exact .refl _)
    (fun g => by rw [hp]) (fun g hg => h.idle g (by rwa [hp] at hg)) fun g hg => by
      rw [hp]; exact (h.solo g hg).1
  · cases s with
    | dir c => rfl
    | table c pdi => simp only [slots, ht]
    | page c v => simp only [slots, maps, hpg]
    | ref r => rfl
  · unfold Structural at hf ⊢
    rwa [ht] at hf

/-- A write to the entry of a page. -/
theorem setPage (h : Owned P R d m) (ht : tables P m c pdi = some t) (hpti : pti < 1024)
    (bal : ∀ g, d g + (if (present w).map frameOf = some g then 1 else 0) ≤
      d' g + if maps P m c (pdi * 1024 + pti) = some g then 1 else 0)
    (idle : ∀ g, m.pmm.users g = 0 → d' g ≤ 0) (solo : ∀ g, Structural P m g → d' g = 0) :
    Owned P R d' (m.setEntry t pti w) := by
  obtain ⟨hts, hps⟩ := views_setEntry (w := w) h ht hpti
  have hold : ∀ g, maps P m c (pdi * 1024 + pti) = some g → 1 ≤ m.pmm.users g + d g := by
    intro g hg
    have h₁ := h.covered.pos (i := Slot.page c (pdi * 1024 + pti)) hg
    omega
  refine ⟨?_, fun g => ?_, idle, fun g hg => ?_, h.small⟩
  · refine h.covered.change_one (.page c (pdi * 1024 + pti)) (fun s hs => ?_) fun g => ?_
    · cases s with
      | dir c => rfl
      | table c pdi => simp only [slots, hts]
      | page c' v' =>
          simp only [slots, maps, hps]
          rw [if_neg]
          rintro ⟨rfl, rfl⟩
          exact hs rfl
      | ref r => rfl
    · have hb := bal g
      have h₁ := h.nonneg g
      have h₂ := hold g
      have hnew : slots P R (m.setEntry t pti w) (.page c (pdi * 1024 + pti))
          = (present w).map frameOf := by simp [slots, maps, hps]
      rw [hnew, setEntry_pmm]
      by_cases hg : maps P m c (pdi * 1024 + pti) = some g <;>
        by_cases hg' : (present w).map frameOf = some g <;>
        simp [slots, hg, hg'] at hb h₂ ⊢ <;> omega
  · have hb := bal g
    have h₁ := h.nonneg g
    have h₂ := hold g
    rw [setEntry_pmm]
    by_cases hg : maps P m c (pdi * 1024 + pti) = some g <;> simp [hg] at hb h₂ <;>
      split_ifs at hb <;> omega
  · unfold Structural at hg
    rw [hts] at hg
    exact ⟨(h.solo g hg).1, solo g hg⟩

/-- The entry of a page gets a frame whose reference is not stored yet, or is taken later. -/
theorem map (h : Owned P R d m) (ht : tables P m c pdi = some t) (hpti : pti < 1024)
    (hw : isPr w = true) (hf : ¬ Structural P m (frameOf w)) (hu : m.pmm.users (frameOf w) ≠ 0) :
    Owned P R (d + one (frameOf w)) (m.setEntry t pti w) := by
  have hp : present w = some w := by simp [hw]
  refine h.setPage ht hpti (fun g => ?_) (fun g hg => ?_) fun g hg => ?_
  · rw [hp]
    simp only [Option.map_some, Option.some.injEq, Pi.add_apply, one_apply, eq_comm (a := frameOf w)]
    split_ifs <;> omega
  · have := h.idle g hg
    simp only [Pi.add_apply, one_apply]
    split
    · rename_i hgf; subst hgf; exact absurd hg hu
    · omega
  · have := (h.solo g hg).2
    simp only [Pi.add_apply, one_apply]
    split
    · rename_i hgf; subst hgf; exact absurd hg hf
    · omega

/-- The entry of a page is emptied; its reference is still to be given back. -/
theorem unmap (h : Owned P R d m) (ht : tables P m c pdi = some t) (hpti : pti < 1024)
    (hw : isPr w = false) (hold : maps P m c (pdi * 1024 + pti) = some f) :
    Owned P R (d - one f) (m.setEntry t pti w) := by
  have hp : present w = none := by simp [hw]
  refine h.setPage ht hpti (fun g => ?_) (fun g hg => ?_) fun g hg => ?_
  · rw [hp, hold]
    simp only [Option.map_none, reduceCtorEq, if_false, Option.some.injEq, Pi.sub_apply, one_apply,
      eq_comm (a := f)]
    split_ifs <;> omega
  · have := h.idle g hg
    simp only [Pi.sub_apply, one_apply]
    split <;> omega
  · have := (h.solo g hg).2
    simp only [Pi.sub_apply, one_apply]
    split
    · rename_i hgf; subst hgf; exact absurd hg (h.not_structural hold)
    · omega

/-- The entry of a page is emptied and its reference forgotten. -/
theorem forget (h : Owned P R d m) (ht : tables P m c pdi = some t) (hpti : pti < 1024)
    (hw : isPr w = false) : Owned P R d (m.setEntry t pti w) := by
  have hp : present w = none := by simp [hw]
  refine h.setPage ht hpti (fun g => ?_) h.idle fun g hg => (h.solo g hg).2
  rw [hp]
  simp only [Option.map_none, reduceCtorEq, if_false]
  split <;> omega

/-- The flags of a page change. -/
theorem reflag (h : Owned P R d m) (ht : tables P m c pdi = some t) (hpti : pti < 1024)
    (hw : (present w).map frameOf = maps P m c (pdi * 1024 + pti)) :
    Owned P R d (m.setEntry t pti w) :=
  h.setPage ht hpti (fun g => by rw [hw]) h.idle fun g hg => (h.solo g hg).2

end Owned

/-! ### Directory entries -/

/-- How often `a` is held through entry `pdi` of the directory in `pd`: as the page table and as
one of its pages. -/
def dirCount (m : Mem) (pd pdi a : Nat) : Nat :=
  match m.table pd pdi with
  | none => 0
  | some t => (if t = a then 1 else 0) + countIn m t a

/-- The slots of entry `pdi` of context `c`. -/
def dirSlots (ρ : Type) (c pdi : Nat) : List (Slot ρ) :=
  .table c pdi :: (List.range 1024).map fun i => .page c (pdi * 1024 + i)

theorem dirSlots_nodup (ρ : Type) (c pdi : Nat) : (dirSlots ρ c pdi).Nodup := by
  refine List.nodup_cons.mpr ⟨by simp, List.nodup_range.map fun i j hij => ?_⟩
  simpa using hij

theorem mem_dirSlots_page : Slot.page c v ∈ dirSlots ρ c pdi ↔ v / 1024 = pdi := by
  simp only [dirSlots, List.mem_cons, reduceCtorEq, List.mem_map, List.mem_range, Slot.page.injEq,
    true_and, false_or]
  constructor
  · rintro ⟨i, hi, rfl⟩; omega
  · exact fun hv => ⟨v % 1024, by omega, by omega⟩

theorem countP_dirSlots (hc : P c = some pd) (a : Nat) :
    (dirSlots ρ c pdi).countP (fun s => slots P R m s = some a) = dirCount m pd pdi a := by
  have hpage : ∀ i < 1024, maps P m c (pdi * 1024 + i) =
      ((m.table pd pdi).bind fun t => present (m.entry t i)).map frameOf := by
    intro i hi
    rw [maps, pages_eq hc, Mem.pte, show (pdi * 1024 + i) / 1024 = pdi by omega,
      show (pdi * 1024 + i) % 1024 = i by omega]
  rw [dirSlots, List.countP_cons, List.countP_map, dirCount]
  have htab : slots P R m (.table c pdi) = m.table pd pdi := tables_eq hc pdi
  rw [htab]
  cases ht : m.table pd pdi with
  | none =>
      rw [List.countP_eq_zero.mpr]
      · simp
      · intro i hi
        simp only [Function.comp_apply, slots, hpage i (List.mem_range.mp hi), ht]
        simp
  | some t =>
      have hcount : (List.range 1024).countP ((fun s => decide (slots P R m s = some a)) ∘
          fun i => Slot.page c (pdi * 1024 + i)) = countIn m t a := by
        unfold countIn countTo
        refine List.countP_congr fun i hi => ?_
        simp only [Function.comp_apply, slots, hpage i (List.mem_range.mp hi), ht, Option.bind_some,
          Names, present]
        by_cases hpr : isPr (m.entry t i) = true <;> simp [hpr]
      rw [hcount]
      simp only [Option.some.injEq, decide_eq_true_eq]
      omega

/-- A directory entry holds no more references than there are. -/
theorem Owned.dirCount_le (h : Owned P R d m) (hc : P c = some pd) (pdi a : Nat) :
    (dirCount m pd pdi a : Int) ≤ m.pmm.users a + d a := by
  have hn := h.nonneg a
  have hcount := h.covered.countP_le (a := a) (dirSlots_nodup ρ c pdi)
  rw [countP_dirSlots hc] at hcount
  omega

/-- A page table is made, filled, or taken away. -/
theorem Owned.dirEntry {pt : Nat} (h : Owned P R d m) (hc : P c = some pd)
    (hpt : ¬ Structural P m pt ∨ pt = pd) (hram : ∀ g, g ≠ pd → g ≠ pt → m'.ram g = m.ram g)
    (hoff : ∀ j, j ≠ pdi → m'.entry pd j = m.entry pd j) (hf : SameFrames m.pmm m'.pmm)
    (bal : ∀ a, (m.pmm.users a + d a) + (dirCount m' pd pdi a : Int) ≤
      (m'.pmm.users a + d' a) + dirCount m pd pdi a)
    (idle : ∀ a, m'.pmm.users a = 0 → d' a ≤ 0)
    (solo : ∀ a, Structural P m' a → m'.pmm.users a = 1 ∧ d' a = 0) : Owned P R d' m' := by
  obtain ⟨hts, hps⟩ := views_dirEntry h hc hpt hram hoff
  have hle := h.dirCount_le hc pdi
  refine ⟨?_, fun a => ?_, idle, solo, by rw [hf.1, hf.2]; exact h.small⟩
  · refine h.covered.change_list (dirSlots_nodup ρ c pdi) (fun s hs => ?_) fun a => ?_
    · cases s with
      | dir c => rfl
      | table c' i =>
          simp only [slots, hts]
          rw [if_neg]
          rintro ⟨rfl, rfl⟩
          exact hs (by simp [dirSlots])
      | page c' v =>
          simp only [slots, maps, hps]
          rw [if_neg]
          rintro ⟨rfl, hv⟩
          exact hs (mem_dirSlots_page.mpr hv)
      | ref r => rfl
    · have h₁ := bal a
      have h₂ := h.nonneg a
      have h₃ := hle a
      rw [countP_dirSlots hc, countP_dirSlots hc]
      omega
  · have h₁ := bal a
    have h₂ := hle a
    omega

/-! ### References of the kernel's own -/

/-- The references in `l` change what they hold. -/
theorem Owned.refs {l : List ρ} (h : Owned P R d m) (hl : l.Nodup) (off : ∀ r, r ∉ l → R' r = R r)
    (bal : ∀ a, d a + (l.countP fun r => R' r = some a) ≤ d' a + l.countP fun r => R r = some a)
    (idle : ∀ a, m.pmm.users a = 0 → d' a ≤ 0) (solo : ∀ a, Structural P m a → d' a = 0)
    (nonneg : ∀ a, 0 ≤ m.pmm.users a + d' a) : Owned P R' d' m := by
  have hcount : ∀ (Q : ρ → Option Nat) (a : Nat), (l.map (Slot.ref)).countP
      (fun s => slots P Q m s = some a) = l.countP fun r => Q r = some a := by
    intro Q a
    rw [List.countP_map]
    rfl
  refine ⟨?_, nonneg, idle, fun a ha => ⟨(h.solo a ha).1, solo a ha⟩, h.small⟩
  refine h.covered.change_list (l := l.map .ref) (hl.map fun r s hrs => by simpa using hrs)
    (fun s hs => ?_) fun a => ?_
  · cases s with
    | dir c => rfl
    | table c pdi => rfl
    | page c v => rfl
    | ref r => exact off r fun hr => hs (List.mem_map.mpr ⟨r, hr, rfl⟩)
  · have h₁ := bal a
    have h₂ := h.nonneg a
    have h₃ := nonneg a
    rw [hcount, hcount]
    omega

/-! ### Contexts -/

/-- A context whose directory has no page tables yet. -/
theorem Owned.addSpace (h : Owned P R d m) (hc : P c = none) (hpd : ¬ Structural P m pd)
    (hempty : ∀ i, m.table pd i = none) (hu : m.pmm.users pd = 1) (hd : d pd = -1) :
    Owned (Function.update P c (some pd)) R (d + one pd) m ∧
      tables (Function.update P c (some pd)) m = tables P m ∧
      pages (Function.update P c (some pd)) m = pages P m := by
  have hts : tables (Function.update P c (some pd)) m = tables P m := by
    funext c' i
    unfold tables
    by_cases hcc : c' = c
    · subst hcc; simp [hc, hempty]
    · simp [hcc]
  have hps : pages (Function.update P c (some pd)) m = pages P m := by
    funext c' v
    rw [pages_eq_bind, pages_eq_bind, hts]
  refine ⟨⟨?_, fun a => ?_, fun a ha => ?_, fun a ha => ?_, h.small⟩, hts, hps⟩
  · refine h.covered.change_one (.dir c) (fun s hs => ?_) fun a => ?_
    · cases s with
      | dir c' =>
          have hcc : c' ≠ c := by rintro rfl; exact hs rfl
          simp [slots, hcc]
      | table c' i => simp only [slots, hts]
      | page c' v => simp only [slots, maps, hps]
      | ref r => rfl
    · have h₁ := h.nonneg a
      simp only [slots, Function.update_self, hc, reduceCtorEq, ite_false, Option.some.injEq,
        Pi.add_apply, one_apply]
      by_cases ha : a = pd
      · subst ha; simp [hu, hd]
      · simp [ha, Ne.symm ha]
  · have h₁ := h.nonneg a
    simp only [Pi.add_apply, one_apply]
    split <;> omega
  · have h₁ := h.idle a ha
    simp only [Pi.add_apply, one_apply]
    split
    · rename_i hap; subst hap; omega
    · omega
  · unfold Structural at ha
    rw [hts] at ha
    simp only [Pi.add_apply, one_apply]
    by_cases hap : a = pd
    · subst hap; simp [hu, hd]
    · have hold : Structural P m a := by
        refine ha.imp (fun ⟨c', hc'⟩ => ⟨c', ?_⟩) id
        by_cases hcc : c' = c
        · subst hcc
          rw [Function.update_self] at hc'
          exact absurd (Option.some.inj hc').symm hap
        · rwa [Function.update_of_ne hcc] at hc'
      simpa [hap] using h.solo a hold

/-- A context whose directory has no page tables any more goes. -/
theorem Owned.dropSpace (h : Owned P R d m) (hc : P c = some pd) (hempty : ∀ i, m.table pd i = none) :
    Owned (Function.update P c none) R (d - one pd) m ∧
      tables (Function.update P c none) m = tables P m ∧
      pages (Function.update P c none) m = pages P m := by
  have hts : tables (Function.update P c none) m = tables P m := by
    funext c' i
    unfold tables
    by_cases hcc : c' = c
    · subst hcc; simp [hc, hempty]
    · simp [hcc]
  have hps : pages (Function.update P c none) m = pages P m := by
    funext c' v
    rw [pages_eq_bind, pages_eq_bind, hts]
  have hpd := h.solo_dir hc
  have hsub : ∀ a, Structural (Function.update P c none) m a → Structural P m a ∧ a ≠ pd := by
    rintro a (⟨c', hc'⟩ | ⟨c', i, ht⟩)
    · have hcc : c' ≠ c := by rintro rfl; simp at hc'
      rw [Function.update_of_ne hcc] at hc'
      exact ⟨.inl ⟨c', hc'⟩, fun hap => hcc (h.dir_inj (hap ▸ hc') hc)⟩
    · rw [hts] at ht
      exact ⟨.inr ⟨c', i, ht⟩, h.table_ne_dir ht hc⟩
  refine ⟨⟨?_, fun a => ?_, fun a ha => ?_, fun a ha => ?_, h.small⟩, hts, hps⟩
  · refine h.covered.change_one (.dir c) (fun s hs => ?_) fun a => ?_
    · cases s with
      | dir c' =>
          have hcc : c' ≠ c := by rintro rfl; exact hs rfl
          simp [slots, hcc]
      | table c' i => simp only [slots, hts]
      | page c' v => simp only [slots, maps, hps]
      | ref r => rfl
    · have h₁ := h.nonneg a
      simp only [slots, Function.update_self, hc, reduceCtorEq, ite_false, Option.some.injEq,
        Pi.sub_apply, one_apply]
      by_cases ha : a = pd
      · subst ha; simp [hpd]
      · simp [ha, Ne.symm ha]
  · have h₁ := h.nonneg a
    simp only [Pi.sub_apply, one_apply]
    split
    · rename_i hap; subst hap; omega
    · omega
  · have h₁ := h.idle a ha
    simp only [Pi.sub_apply, one_apply]
    split <;> omega
  · obtain ⟨hold, hap⟩ := hsub a ha
    simpa [one_apply, hap] using h.solo a hold

end Muxomucota.Mmu
