import Muxomucota.Mmu.Teardown

/-!
# Mmu — `vmmc_lazy_map_area`

The kernel uses it for the stack and the heritage area, which begin and end on a directory entry.
Then no page table is made, and only absent entries are written: no page changes.
-/

namespace Muxomucota.Mmu
open Memory Pmm Lib

variable {ρ : Type} {P : Nat → Option Nat} {R : ρ → Option Nat} {d : Nat → Int} {m m' : Mem}
  {c pd pdi t : Nat} {w flags : BitVec 32}

theorem isPr_lazyEntry (flags : BitVec 32) : isPr (lazyEntry flags) = false := by
  simp [lazyEntry]

/-- What a function does that touches no page. -/
structure Untouched (P : Nat → Option Nat) (R : ρ → Option Nat) (d : Nat → Int) (m m' : Mem) :
    Prop where
  owned : Owned P R d m'
  pmm : m'.pmm = m.pmm
  tables : tables P m' = tables P m
  pages : pages P m' = pages P m
  keeps : Keeps P m m'

theorem Untouched.refl (h : Owned P R d m) : Untouched P R d m m := ⟨h, rfl, rfl, rfl, .refl _ _⟩

theorem Untouched.trans {m₁ : Mem} (h₁ : Untouched P R d m m₁) (h₂ : Untouched P R d m₁ m') :
    Untouched P R d m m' :=
  ⟨h₂.owned, h₂.pmm.trans h₁.pmm, h₂.tables.trans h₁.tables, h₂.pages.trans h₁.pages,
    h₁.keeps.trans h₂.keeps⟩

/-- Overwriting an absent page by an absent one. -/
theorem untouched_setEntry {pti : Nat} (h : Owned P R d m) (ht : tables P m c pdi = some t)
    (hpti : pti < 1024) (hno : isPr (m.entry t pti) = false) (hw : isPr w = false) :
    Untouched P R d m (m.setEntry t pti w) := by
  obtain ⟨hts, hps⟩ := views_setEntry (w := w) h ht hpti
  have hpage : pages P m c (pdi * 1024 + pti) = none := by
    rw [pages_eq_bind, show (pdi * 1024 + pti) / 1024 = pdi by omega, ht,
      show (pdi * 1024 + pti) % 1024 = pti by omega]
    simp [present, hno]
  refine ⟨h.forget ht hpti hw, rfl, hts, ?_, keeps_setEntry h ht hpti⟩
  funext c' v
  rw [hps]
  split
  · rename_i hv; rw [hv.1, hv.2, hpage]; simp [hw]
  · rfl

/-- The loop over a page table that is already there. -/
theorem lazyTableLoop_spec (flags : BitVec 32) (h : Owned P R d m) (ht : tables P m c pdi = some t) {n : Nat}
    (hn : n ≤ 1024) :
    Untouched P R d m ((List.range' 0 n).foldl
      (fun m i => if isPr (m.entry t i) then m else m.setEntry t i (lazyEntry flags)) m) := by
  induction n with
  | zero => exact .refl h
  | succ n ih =>
      have hu := ih (by omega)
      rw [← List.range_eq_range', List.range_succ, List.foldl_append, List.range_eq_range']
      simp only [List.foldl_cons, List.foldl_nil]
      split
      · exact hu
      · rename_i hpr
        refine hu.trans (untouched_setEntry hu.owned (by rw [hu.tables]; exact ht) (by omega) ?_
          (isPr_lazyEntry flags))
        simpa using hpr

theorem lazyMapLoop_spec (h : Owned P R d m) (hc : P c = some pd) :
    ∀ {fuel pdi k : Nat}, pdi + k ≤ userPdes →
      ∃ m', lazyMapLoop pd flags fuel pdi 0 (1024 * k) m = some m' ∧ Untouched P R d m m' := by
  intro fuel
  induction fuel generalizing m with
  | zero => intro pdi k _; exact ⟨m, rfl, .refl h⟩
  | succ fuel ih =>
      intro pdi k hle
      rw [lazyMapLoop]
      split
      · exact ⟨m, rfl, .refl h⟩
      · rename_i hsz
        have hk : 0 < k := Nat.pos_of_ne_zero (by rintro rfl; exact hsz rfl)
        have hfull : 1024 ≤ 1024 * k := by omega
        have hmin : min (1024 * k) (1024 - 0) = 1024 := by omega
        have hrest : 1024 * k - 1024 = 1024 * (k - 1) := by omega
        have hpdi : pdi < userPdes := by omega
        have hnext : pdi + 1 + (k - 1) ≤ userPdes := by omega
        split
        · rename_i hpde
          have hno : tables P m c pdi = none := by
            rw [tables_eq hc, Mem.table]
            simp [present, hpde.1]
          obtain ⟨h₁, hts, hps, hk⟩ := absentEntry_spec h hc hno (isPr_lazyEntry flags)
          have hu : Untouched P R d m (m.setEntry pd pdi (lazyEntry flags)) := ⟨h₁, rfl, hts, hps, hk⟩
          rw [hrest]
          obtain ⟨m', hm', hu'⟩ := ih h₁ hnext
          exact ⟨m', hm', hu.trans hu'⟩
        · rename_i hpde
          have hpr : isPr (m.entry pd pdi) = true := by
            by_contra hne
            exact hpde ⟨hne, hfull, rfl⟩
          have ht : tables P m c pdi = some (frameOf (m.entry pd pdi)) := by
            rw [tables_eq hc]; exact table_eq_some.mpr ⟨hpdi, hpr, rfl⟩
          have hu := lazyTableLoop_spec flags h ht (le_refl 1024)
          obtain ⟨m', hm', hu'⟩ := ih hu.owned hnext
          rw [if_pos hpr, hmin]
          simp only [hrest]
          exact ⟨m', hm', hu.trans hu'⟩

/-- An area that begins and ends on a directory entry. -/
theorem lazyMapArea_spec (flags : BitVec 32) (virt sz : Nat) (h : Owned P R d m) (hc : P c = some pd)
    (hvirt : 0x400000 ∣ virt) (hsz : 0x400000 ∣ sz) (hle : virt + sz ≤ physBase) :
    ∃ m', vmmcLazyMapArea m pd virt sz flags = some m' ∧ Untouched P R d m m' := by
  obtain ⟨i, rfl⟩ := hvirt
  obtain ⟨j, rfl⟩ := hsz
  unfold vmmcLazyMapArea
  have hpages : (if 0x400000 * j % pageSize ≠ 0 then 0x400000 * j / pageSize + 1
      else 0x400000 * j / pageSize) = 1024 * j := by
    rw [if_neg (by simp only [pageSize]; omega)]
    simp only [pageSize]; omega
  have hpdi : pdIndex (0x400000 * i) = i := by simp only [pdIndex]; omega
  have hpti : ptIndex (0x400000 * i) = 0 := by simp only [ptIndex]; omega
  rw [hpages, hpdi, hpti]
  refine lazyMapLoop_spec h hc ?_
  simp only [physBase, userPdes] at *
  omega

end Muxomucota.Mmu
