import Muxomucota.Mmu.OnDemand

/-!
# Mmu — present, on demand, or absent

The state of a page as a user program meets it.  A page without a present entry is mapped by the first
access if the entries have `MAP_US`, and the program may write to it then if they have `MAP_RW`: both
the entry of the page and the one of the directory, or the one of the directory alone where there is no
page table yet (`doLazyMap_status`).
-/

namespace Muxomucota.Mmu
open Memory Pmm Lib

variable {m m' m₁ m₂ : Mem} {pd n i v t a : Nat} {w e : BitVec 32} {rw : Bool}

inductive Status where
  | present (e : BitVec 32)
  | lazy (rw : Bool)
  | absent
deriving DecidableEq

/-- The state of a page with these entries; the second one counts where the first has a page table. -/
def statusOf (pde pte : BitVec 32) : Status :=
  if isPr pde then
    if isPr pte then .present pte
    else if isUs pde && isUs pte then .lazy (isRw pde && isRw pte)
    else .absent
  else if isUs pde then .lazy (isRw pde)
  else .absent

/-- The state of page `v` in the address space of the directory in `pd`. -/
def Mem.status (m : Mem) (pd v : Nat) : Status :=
  statusOf (m.entry pd (v / 1024)) (m.entry (frameOf (m.entry pd (v / 1024))) (v % 1024))

theorem status_table (hpr : isPr (m.entry pd (v / 1024)) = true)
    (hno : isPr (m.entry (frameOf (m.entry pd (v / 1024))) (v % 1024)) = false) :
    m.status pd v =
      if isUs (m.entry pd (v / 1024)) &&
          isUs (m.entry (frameOf (m.entry pd (v / 1024))) (v % 1024)) then
        .lazy (isRw (m.entry pd (v / 1024)) &&
          isRw (m.entry (frameOf (m.entry pd (v / 1024))) (v % 1024)))
      else .absent := by
  rw [Mem.status, statusOf, if_pos hpr, if_neg (by rw [hno]; exact Bool.false_ne_true)]

theorem status_noTable (hno : isPr (m.entry pd (v / 1024)) = false) :
    m.status pd v =
      if isUs (m.entry pd (v / 1024)) then .lazy (isRw (m.entry pd (v / 1024))) else .absent := by
  rw [Mem.status, statusOf, if_neg (by rw [hno]; exact Bool.false_ne_true)]

theorem status_present : m.status pd v = .present e ↔ m.page pd v = some e := by
  cases hpr : isPr (m.entry pd (v / 1024)) with
  | false =>
      rw [page_absent hpr, status_noTable hpr]
      split <;> simp
  | true =>
      rw [page_present hpr]
      cases hpte : isPr (m.entry (frameOf (m.entry pd (v / 1024))) (v % 1024)) with
      | false =>
          rw [status_table hpr hpte, present_eq_none.mpr hpte]
          split <;> simp
      | true =>
          rw [Mem.status, statusOf, if_pos hpr, if_pos hpte, present_eq_some]
          simp [hpte]

/-- The pages that `vmmc_do_lazy_map` maps. -/
theorem onDemand_iff : OnDemand m pd v ↔ ∃ rw, m.status pd v = .lazy rw := by
  cases hpr : isPr (m.entry pd (v / 1024)) with
  | false =>
      rw [status_noTable hpr, OnDemand]
      cases isUs (m.entry pd (v / 1024)) <;> simp [hpr]
  | true =>
      cases hpte : isPr (m.entry (frameOf (m.entry pd (v / 1024))) (v % 1024)) with
      | false =>
          rw [status_table hpr hpte, OnDemand]
          cases isUs (m.entry pd (v / 1024)) <;>
            cases isUs (m.entry (frameOf (m.entry pd (v / 1024))) (v % 1024)) <;> simp [hpr, hpte]
      | true =>
          rw [OnDemand, Mem.status, statusOf, if_pos hpr, if_pos hpte]
          simp [hpr, hpte]

theorem SameEntries.status (h : SameEntries m m' pd v) : m'.status pd v = m.status pd v := by
  unfold Mem.status
  rw [h.dir]
  cases hpr : isPr (m.entry pd (v / 1024)) with
  | false => simp [statusOf, hpr]
  | true => rw [h.table hpr]

theorem SameEntries.trans (h : SameEntries m m₁ pd v) (h' : SameEntries m₁ m' pd v) :
    SameEntries m m' pd v where
  dir := h'.dir.trans h.dir
  table hpr := by
    have htab := h'.table (by rw [h.dir]; exact hpr)
    rw [h.dir] at htab
    exact htab.trans (h.table hpr)

/-! ### The first access -/

/-- The page table of a page on demand; where it is made here, its pages still are on demand. -/
theorem lazyTable_status (h : Held m pd userPdes)
    (hus : isUs (m.entry pd (v / 1024)) = true) (hm : lazyTable m pd (v / 1024) = some (t, m₁)) :
    Held m₁ pd userPdes ∧ isPr (m₁.entry pd (v / 1024)) = true ∧
      frameOf (m₁.entry pd (v / 1024)) = t ∧ m₁.status pd v = m.status pd v := by
  unfold lazyTable at hm
  dsimp only at hm
  split at hm
  · rename_i hpr
    cases hm
    exact ⟨h, hpr, rfl, rfl⟩
  · rename_i hno
    have hno : isPr (m.entry pd (v / 1024)) = false := by simpa using hno
    split at hm
    · cases hm
    · obtain ⟨⟨pt, m₂⟩, ha, heq⟩ := Option.map_eq_some_iff.mp hm
      cases heq
      have hlt := alloc_lt h.small ha
      have hfl : IsFlags (demandFlags (m.entry pd (v / 1024)) ||| mapPr) :=
        (isFlags_demandFlags _).or isFlags_mapPr
      have hf := frameOf_entry hlt hfl
      obtain ⟨hheld, hself, -⟩ := h.newTable hno ha (by simp) hf (isPr_demandFlags (m.entry pd (v / 1024)))
      unfold demandFlags at hheld hself hf
      have hpte : ∀ j, (((m₂.setEntry pd (v / 1024)
          (entry pt ((m.entry pd (v / 1024) &&& mapRw) ||| mapUs ||| mapPr))).fillWords pt
          ((m.entry pd (v / 1024) &&& mapRw) ||| mapUs)).entry pt j) =
          (m.entry pd (v / 1024) &&& mapRw) ||| mapUs := fun j => entry_fillWords ..
      refine ⟨hheld, by rw [hself]; simp, by rw [hself, hf], ?_⟩
      rw [status_noTable hno, if_pos hus, Mem.status, hself, hf, hpte]
      simp [statusOf]

/-- The entry that the page gets, and its right to write. -/
theorem doLazyMap_status {done : Bool} (h : Held m pd userPdes) (ha : a < physBase)
    (hst : m.status pd (a / 4096) = .lazy rw) (hm : vmmcDoLazyMap m pd a = some (done, m')) :
    done = true ∧ ∃ e, m'.page pd (a / 4096) = some e ∧
      (isRw (m'.entry pd (pdIndex a)) && isRw e) = rw := by
  have hdir : pdIndex a = a / 4096 / 1024 := by
    unfold pdIndex
    omega
  have hlow : a / 4096 / 1024 < userPdes := by
    simp only [physBase] at ha
    simp only [userPdes]
    omega
  have hod : OnDemand m pd (a / 4096) := onDemand_iff.mpr ⟨rw, hst⟩
  unfold vmmcDoLazyMap at hm
  simp only [hdir, show ptIndex a = a / 4096 % 1024 from rfl] at hm ⊢
  rw [if_neg (not_not.mpr hod.1)] at hm
  obtain ⟨⟨t, m₁⟩, ht, hm⟩ := Option.bind_eq_some_iff.mp hm
  obtain ⟨h₁, hpr, rfl, hst₁⟩ := lazyTable_status h hod.1 ht
  have hod₁ : OnDemand m₁ pd (a / 4096) := onDemand_iff.mpr ⟨rw, hst₁.trans hst⟩
  obtain ⟨hpte, hpteus⟩ := hod₁.2 hpr
  have hrw : (isRw (m₁.entry pd (a / 4096 / 1024)) &&
      isRw (m₁.entry (frameOf (m₁.entry pd (a / 4096 / 1024))) (a / 4096 % 1024))) = rw := by
    have hst₂ := hst₁.trans hst
    rw [status_table hpr hpte, hod₁.1, hpteus] at hst₂
    simpa using hst₂
  dsimp only at hm
  rw [if_neg (by rw [hpte, hpteus]; decide)] at hm
  obtain ⟨⟨f, m₂⟩, ha₂, hm⟩ := Option.map_eq_some_iff.mp hm
  obtain ⟨hram, -, -, hu₀, -⟩ := alloc_spec ha₂
  have hfd : pd ≠ f := h₁.dir_ne hu₀
  have hft : frameOf (m₁.entry pd (a / 4096 / 1024)) ≠ f :=
    h₁.table_ne hu₀ _ hlow hpr
  have htd := h₁.notDir _ hlow hpr
  generalize hw : entry f ((m₂.entry (frameOf (m₁.entry pd (a / 4096 / 1024))) (a / 4096 % 1024) &&&
    mapRw) ||| mapUs ||| mapPr) = w at hm
  have hwpr : isPr w = true := by rw [← hw]; simp
  have hwrw : isRw w = isRw (m₁.entry (frameOf (m₁.entry pd (a / 4096 / 1024))) (a / 4096 % 1024)) := by
    rw [← hw, entry_congr (congrFun hram _)]
    simp
  -- zeroing the new frame changes no entry
  have hkeep : done = true ∧ ∀ g, g ≠ f → m'.ram g =
      (m₂.setEntry (frameOf (m₁.entry pd (a / 4096 / 1024))) (a / 4096 % 1024) w).ram g := by
    dsimp only at hm
    split at hm
    · cases hm
      exact ⟨rfl, fun g hg => fillFrame_ram _ _ hg⟩
    · cases hm
      exact ⟨rfl, fun _ _ => rfl⟩
  have hdir' : m'.entry pd (a / 4096 / 1024) = m₁.entry pd (a / 4096 / 1024) := by
    rw [entry_congr (hkeep.2 _ hfd), entry_setEntry, if_neg fun hc => htd hc.1.symm,
      entry_congr (congrFun hram _)]
  refine ⟨hkeep.1, w, ?_, ?_⟩
  · rw [page_present (by rw [hdir']; exact hpr), hdir', entry_congr (hkeep.2 _ hft), entry_setEntry,
      if_pos ⟨rfl, rfl⟩]
    exact present_eq_some.mpr ⟨hwpr, rfl⟩
  · rw [hdir', hwrw]
    exact hrw

end Muxomucota.Mmu
