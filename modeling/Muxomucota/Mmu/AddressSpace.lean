import Muxomucota.Lib.FirstGap
import Muxomucota.Mmu.Spaces

/-!
# Mmu — one address space

The pages of one directory as `vmmc_address_mapped` looks them up, the kernel's part included
(`Mem.page`).  That a write to one page table changes one page needs no more than what every
directory has: its first `n` entries have page tables of their own (`Space`), and `pmm_alloc` does
not give them away (`Held`).  The contexts of a kernel have both in their user part.
-/

namespace Muxomucota.Mmu
open Memory Pmm Lib

variable {m m' : Mem} {pd n pdi pti v f : Nat} {w : BitVec 32}

/-- The present entry of page `v`, if there is a page table. -/
def Mem.page (m : Mem) (pd v : Nat) : Option (BitVec 32) :=
  if isPr (m.entry pd (v / 1024)) then
    present (m.entry (frameOf (m.entry pd (v / 1024))) (v % 1024))
  else none

/-- The first `n` entries of the directory in `pd` have page tables of their own. -/
structure Space (m : Mem) (pd n : Nat) : Prop where
  apart : ∀ i < n, ∀ j < n, isPr (m.entry pd i) = true → isPr (m.entry pd j) = true →
    frameOf (m.entry pd i) = frameOf (m.entry pd j) → i = j
  notDir : ∀ i < n, isPr (m.entry pd i) = true → frameOf (m.entry pd i) ≠ pd

/-- The directory and these page tables are in use, and an entry can name every frame. -/
structure Held (m : Mem) (pd n : Nat) : Prop extends Space m pd n where
  dir : m.pmm.users pd ≠ 0
  tables : ∀ i < n, isPr (m.entry pd i) = true → m.pmm.users (frameOf (m.entry pd i)) ≠ 0
  small : m.pmm.memBase + m.pmm.memEntries ≤ 2 ^ 20

/-- An unused frame is not the directory. -/
theorem Held.dir_ne (h : Held m pd n) (hf : m.pmm.users f = 0) : pd ≠ f := fun heq => h.dir (heq ▸ hf)

/-- An unused frame is not a page table. -/
theorem Held.table_ne (h : Held m pd n) (hf : m.pmm.users f = 0) :
    ∀ i < n, isPr (m.entry pd i) = true → frameOf (m.entry pd i) ≠ f :=
  fun i hi hpr heq => h.tables i hi hpr (heq ▸ hf)

theorem page_absent (h : isPr (m.entry pd (v / 1024)) = false) : m.page pd v = none := by
  simp [Mem.page, h]

theorem page_present (h : isPr (m.entry pd (v / 1024)) = true) :
    m.page pd v = present (m.entry (frameOf (m.entry pd (v / 1024))) (v % 1024)) := by
  simp [Mem.page, h]

/-- In the user part these are the pages that the processor sees. -/
theorem page_eq_pte (hv : v < userPdes * 1024) : m.page pd v = m.pte pd v := by
  have hi : v / 1024 < userPdes := by omega
  unfold Mem.pte
  cases hpr : isPr (m.entry pd (v / 1024)) with
  | true => rw [page_present hpr, table_eq_some.mpr ⟨hi, hpr, rfl⟩]; rfl
  | false => simp [page_absent hpr, Mem.table, present_eq_none.mpr hpr]

/-- The access flags that `vmmc_address_mapped` makes of a present entry. -/
def accessOf (e : BitVec 32) : BitVec 32 :=
  match isRw e, isUs e with
  | false, false => vmmPr ||| vmmPx
  | true,  false => vmmPr ||| vmmPw ||| vmmPx
  | false, true  => vmmPr ||| vmmPx ||| vmmUr ||| vmmUx
  | true,  true  => vmmPr ||| vmmPw ||| vmmPx ||| vmmUr ||| vmmUw ||| vmmUx

theorem accessOf_ne (e : BitVec 32) : accessOf e ≠ 0 := by
  unfold accessOf
  split <;> decide

theorem addressMapped_page (m : Mem) (pd virt : Nat) : vmmcAddressMapped m pd virt =
    (m.page pd (virt / 4096)).elim (0, 0) fun e => (accessOf e, frameOf e) := by
  have hdir : virt / 4096 / 1024 = pdIndex virt := by unfold pdIndex; omega
  unfold vmmcAddressMapped Mem.page ptIndex
  rw [hdir]
  by_cases hpd : isPr (m.entry pd (pdIndex virt)) = true
  · by_cases hpt : isPr (m.entry (frameOf (m.entry pd (pdIndex virt))) (virt / 4096 % 1024)) = true
    · simp only [hpd, hpt, present, not_true_eq_false, if_false, if_true]
      rfl
    · simp [hpd, hpt, present]
  · simp [hpd]

/-! ### What a change does -/

/-- Nothing that the address space reads changes. -/
theorem page_congr (hdir : m'.entry pd (v / 1024) = m.entry pd (v / 1024))
    (htab : isPr (m.entry pd (v / 1024)) = true →
      m'.entry (frameOf (m.entry pd (v / 1024))) (v % 1024) =
        m.entry (frameOf (m.entry pd (v / 1024))) (v % 1024)) : m'.page pd v = m.page pd v := by
  unfold Mem.page
  rw [hdir]
  split
  · rename_i hpr
    rw [htab hpr]
  · rfl

theorem page_of_ram (h : m'.ram = m.ram) (v : Nat) : m'.page pd v = m.page pd v :=
  page_congr (entry_congr (congrFun h _) _) fun _ => entry_congr (congrFun h _) _

namespace Space

theorem of_dir (h : Space m pd n) (hdir : ∀ i < n, m'.entry pd i = m.entry pd i) :
    Space m' pd n where
  apart i hi j hj := by
    rw [hdir i hi, hdir j hj]
    exact h.apart i hi j hj
  notDir i hi := by
    rw [hdir i hi]
    exact h.notDir i hi

theorem of_ram (h : Space m pd n) (hram : m'.ram = m.ram) : Space m' pd n :=
  h.of_dir fun i _ => entry_congr (congrFun hram _) i

/-- A page-table entry is written. -/
theorem setPage (h : Space m pd n) (hpdi : pdi < n) (hpr : isPr (m.entry pd pdi) = true)
    (w : BitVec 32) : Space (m.setEntry (frameOf (m.entry pd pdi)) pti w) pd n :=
  h.of_dir fun i _ => by rw [entry_setEntry, if_neg fun hc => h.notDir pdi hpdi hpr hc.1.symm]

theorem page_setPage (h : Space m pd n) (hpdi : pdi < n) (hpr : isPr (m.entry pd pdi) = true)
    (hpti : pti < 1024) (hv : v < n * 1024) :
    (m.setEntry (frameOf (m.entry pd pdi)) pti w).page pd v =
      if v = pdi * 1024 + pti then present w else m.page pd v := by
  have hne := h.notDir pdi hpdi hpr
  have hi : v / 1024 < n := by omega
  have hdir : (m.setEntry (frameOf (m.entry pd pdi)) pti w).entry pd (v / 1024) =
      m.entry pd (v / 1024) := by
    rw [entry_setEntry, if_neg fun hc => hne hc.1.symm]
  split
  · rename_i hvp
    have hv₁ : v / 1024 = pdi := by omega
    have hv₂ : v % 1024 = pti := by omega
    rw [page_present (by rw [hdir, hv₁]; exact hpr), hdir, hv₁, hv₂, entry_setEntry,
      if_pos ⟨rfl, rfl⟩]
  · rename_i hvp
    refine page_congr hdir fun hpr' => ?_
    rw [entry_setEntry, if_neg]
    rintro ⟨hf, hpt⟩
    have := h.apart _ hi _ hpdi hpr' hpr hf
    omega

/-- A directory entry without a page table. -/
theorem entry_absentDir (hw : isPr w = false) {i : Nat}
    (h : isPr ((m.setEntry pd pdi w).entry pd i) = true) :
    (m.setEntry pd pdi w).entry pd i = m.entry pd i := by
  rw [entry_setEntry] at h ⊢
  split
  · rename_i hc
    rw [if_pos hc, hw] at h
    cases h
  · rfl

theorem absentDir (h : Space m pd n) (hw : isPr w = false) : Space (m.setEntry pd pdi w) pd n := by
  refine ⟨fun i hi j hj hpi hpj => ?_, fun i hi hpi => ?_⟩
  · have heq := entry_absentDir hw hpi
    have heq' := entry_absentDir hw hpj
    rw [heq, heq']
    exact h.apart i hi j hj (heq ▸ hpi) (heq' ▸ hpj)
  · have heq := entry_absentDir hw hpi
    rw [heq]
    exact h.notDir i hi (heq ▸ hpi)

/-- A directory entry is emptied. -/
theorem clearDir (h : Space m pd n) : Space (m.setEntry pd pdi mapNp) pd n := h.absentDir rfl

theorem page_clearDir (h : Space m pd n) (hv : v < n * 1024) :
    (m.setEntry pd pdi mapNp).page pd v = if v / 1024 = pdi then none else m.page pd v := by
  split
  · rename_i hvp
    exact page_absent (by rw [entry_setEntry, if_pos ⟨rfl, hvp⟩]; rfl)
  · rename_i hvp
    refine page_congr (by rw [entry_setEntry, if_neg fun hc => hvp hc.2]) fun hpr => ?_
    rw [entry_setEntry, if_neg fun hc => h.notDir _ (by omega) hpr hc.1]

end Space

/-! ### The contexts of the kernel -/

/-- The user part of a context's directory. -/
theorem Owned.held {ρ : Type} {P : Nat → Option Nat} {R : ρ → Option Nat} {d : Nat → Int} {c : Nat}
    (h : Owned P R d m) (hc : P c = some pd) : Held m pd userPdes := by
  have htab : ∀ i < userPdes, isPr (m.entry pd i) = true →
      tables P m c i = some (frameOf (m.entry pd i)) := fun i hi hpr => by
    rw [tables_eq hc]
    exact table_eq_some.mpr ⟨hi, hpr, rfl⟩
  constructor
  · constructor
    · intro i hi j hj hpi hpj hf
      have htj := htab j hj hpj
      rw [← hf] at htj
      exact (h.table_inj (htab i hi hpi) htj).2
    · intro i hi hpi
      exact h.table_ne_dir (htab i hi hpi) hc
  · rw [(h.solo_dir hc).1]
    decide
  · intro i hi hpi
    rw [(h.solo_table (htab i hi hpi)).1]
    decide
  · exact h.small

/-- A directory in frame 0 whose entry `pdi` has a page table in frame 1, filled with `w`. -/
def oneTable (pdi : Nat) (w : BitVec 32) : Mem where
  pmm := ⟨0, 4, fun f => if f < 2 then 1 else 0, 0⟩
  ram := (Ram.fillWords (fun _ _ => 0) 1 w).setWord 0 (4 * pdi) (entry 1 (mapPr ||| mapRw ||| mapUs))

theorem oneTable_dir (pdi : Nat) (w : BitVec 32) (i : Nat) :
    (oneTable pdi w).entry 0 i = if i = pdi then entry 1 (mapPr ||| mapRw ||| mapUs) else 0 := by
  have hzero : (Ram.fillWords (fun _ _ => 0) 1 w).word 0 (4 * i) = 0 := by
    simp [Ram.word, Ram.wordAt, Ram.fillWords]
  unfold oneTable Mem.entry
  simp only [Ram.entry_setWord, true_and, hzero]

theorem oneTable_table (pdi : Nat) (w : BitVec 32) (i : Nat) : (oneTable pdi w).entry 1 i = w := by
  unfold oneTable Mem.entry
  simp only [Ram.entry_setWord, Nat.one_ne_zero, false_and, if_false, Ram.entry_fillWords]

theorem oneTable_page (w : BitVec 32) (v : Nat) :
    (oneTable pdi w).page 0 v = if v / 1024 = pdi then present w else none := by
  unfold Mem.page
  rw [oneTable_dir]
  split
  · rw [show frameOf (entry 1 (mapPr ||| mapRw ||| mapUs)) = 1 from rfl, oneTable_table]
    rfl
  · rfl

theorem held_oneTable (pdi n : Nat) (w : BitVec 32) : Held (oneTable pdi w) 0 n := by
  have hent : ∀ i, isPr ((oneTable pdi w).entry 0 i) = true →
      i = pdi ∧ frameOf ((oneTable pdi w).entry 0 i) = 1 := by
    intro i hi
    rw [oneTable_dir] at hi ⊢
    split
    · exact ⟨‹_›, rfl⟩
    · rename_i hne
      rw [if_neg hne] at hi
      cases hi
  constructor
  · constructor
    · intro i _ j _ hpi hpj _
      exact (hent i hpi).1.trans (hent j hpj).1.symm
    · intro i _ hpi
      rw [(hent i hpi).2]
      decide
  · exact (by decide : ((1 : BitVec 8) &&& bitmapUsers).toNat ≠ 0)
  · intro i _ hpi
    rw [(hent i hpi).2]
    exact (by decide : ((1 : BitVec 8) &&& bitmapUsers).toNat ≠ 0)
  · exact (by decide : 0 + 4 ≤ 2 ^ 20)

end Muxomucota.Mmu
