import Muxomucota.Mmu.AddressSpace
import Muxomucota.Mmu.Unmap

/-!
# Mmu — unmapping a range

Which pages `vmmc_user_unmap` takes away from an address space (`Emptied`), for every range, also in
the kernel's part.  The last page table of a range that ends with it is left alone, since the index
behind its last entry comes out as `0`; and a range that reaches into the last 4 MiB of the address
space is left alone altogether, since its end rounds to `0`.
-/

namespace Muxomucota.Mmu
open Memory Pmm Lib

variable {m m' m₁ : Mem} {pd n pdi pti ptiEnd lo mid hi virt length : Nat}

/-- The pages from `lo` to `hi` are gone from the first `n` page tables, and nothing else changed. -/
structure Emptied (m : Mem) (pd n lo hi : Nat) (m' : Mem) : Prop where
  space : Space m' pd n
  page : ∀ v < n * 1024, m'.page pd v = if lo ≤ v ∧ v < hi then none else m.page pd v

namespace Emptied

theorem nil (h : Space m pd n) (hle : hi ≤ lo) : Emptied m pd n lo hi m where
  space := h
  page v _ := by rw [if_neg (by omega)]

theorem trans (h₁ : Emptied m pd n lo mid m₁) (h₂ : Emptied m₁ pd n mid hi m') (hlo : lo ≤ mid)
    (hhi : mid ≤ hi) : Emptied m pd n lo hi m' where
  space := h₂.space
  page v hv := by
    rw [h₂.page v hv, h₁.page v hv]
    split_ifs <;> first | rfl | omega

theorem of_ram (h : Emptied m pd n lo hi m₁) (hram : m'.ram = m₁.ram) :
    Emptied m pd n lo hi m' where
  space := h.space.of_ram hram
  page v hv := by rw [page_of_ram hram, h.page v hv]

end Emptied

/-- Emptying one entry. -/
theorem emptied_setEntry (h : Space m pd n) (hpdi : pdi < n) (hpr : isPr (m.entry pd pdi) = true)
    (hpti : pti < 1024) : Emptied m pd n (pdi * 1024 + pti) (pdi * 1024 + pti + 1)
      (m.setEntry (frameOf (m.entry pd pdi)) pti mapNp) where
  space := h.setPage hpdi hpr mapNp
  page v hv := by
    rw [h.page_setPage hpdi hpr hpti hv]
    by_cases hvp : v = pdi * 1024 + pti
    · rw [if_pos hvp, if_pos (by omega)]
      rfl
    · rw [if_neg hvp, if_neg (by omega)]

/-- The inner loop of `vmmc_user_unmap`; the directory entry stays. -/
theorem emptied_loop (h : Space m pd n) (hpdi : pdi < n) (hpr : isPr (m.entry pd pdi) = true) {k : Nat}
    (hk : pti + k ≤ 1024) :
    ∃ m', (List.range' pti k).foldl
        (fun m' i => m'.setEntry (frameOf (m.entry pd pdi)) i mapNp) m = m' ∧
      m'.entry pd pdi = m.entry pd pdi ∧
      Emptied m pd n (pdi * 1024 + pti) (pdi * 1024 + (pti + k)) m' := by
  induction k with
  | zero => exact ⟨m, rfl, rfl, .nil h (by omega)⟩
  | succ k ih =>
      obtain ⟨m₁, h₁, he₁, hem₁⟩ := ih (by omega)
      rw [List.range'_1_concat, List.foldl_concat, h₁]
      have hpr₁ : isPr (m₁.entry pd pdi) = true := by rw [he₁]; exact hpr
      have hem₂ := emptied_setEntry hem₁.space hpdi hpr₁ (show pti + k < 1024 by omega)
      rw [he₁] at hem₂
      have hend : pdi * 1024 + (pti + (k + 1)) = pdi * 1024 + (pti + k) + 1 := by omega
      refine ⟨m₁.setEntry (frameOf (m.entry pd pdi)) (pti + k) mapNp, rfl, ?_, ?_⟩
      · rw [← he₁, entry_setEntry, if_neg]
        exact fun hc => hem₁.space.notDir pdi hpdi hpr₁ hc.1.symm
      · rw [hend]
        exact hem₁.trans hem₂ (by omega) (by omega)

/-- One round of `vmmc_user_unmap`. -/
theorem emptied_dirEntry (h : Space m pd n) (hpdi : pdi < n) (hle : pti ≤ ptiEnd)
    (hend : ptiEnd ≤ 1024) (hm : unmapDirEntry pd pdi pti ptiEnd m = some m') :
    Emptied m pd n (pdi * 1024 + pti) (pdi * 1024 + ptiEnd) m' := by
  unfold unmapDirEntry at hm
  split at hm
  · rename_i hpr
    cases hm
    refine ⟨h, fun v hv => ?_⟩
    split
    · refine page_absent ?_
      rw [show v / 1024 = pdi by omega]
      simpa using hpr
    · rfl
  · rename_i hpr
    have hpr : isPr (m.entry pd pdi) = true := by simpa using hpr
    obtain ⟨m₁, h₁, he₁, hem⟩ :=
      emptied_loop h hpdi hpr (show pti + (ptiEnd - pti) ≤ 1024 by omega)
    rw [show pti + (ptiEnd - pti) = ptiEnd by omega] at hem
    simp only [h₁] at hm
    split at hm
    · -- the whole page table goes
      rename_i hfull
      obtain ⟨rfl, rfl⟩ := hfull
      obtain ⟨m₂, hfree, rfl⟩ := Option.map_eq_some_iff.mp hm
      have hem₂ := hem.of_ram (free_spec hfree).1
      refine ⟨hem₂.space.clearDir, fun v hv => ?_⟩
      rw [hem₂.space.page_clearDir hv, hem₂.page v hv]
      split_ifs <;> first | rfl | omega
    · cases hm
      exact hem

/-! ### The whole range -/

/-- The pages that `vmmc_user_unmap` empties end here, wherever the range is. -/
def unmapStop (virt length : Nat) : Nat :=
  if 2 ^ 32 ≤ virt + length + 0x3FFFFF then virt / 4096 else unmapEnd virt length

/-- What `vmmc_user_unmap` takes away. -/
theorem userUnmap_emptied (h : Space m pd n) (hn : n ≤ 1024) (hle : virt + length ≤ n * 0x400000)
    (hm : vmmcUserUnmap m pd virt length = some m') :
    Emptied m pd n (virt / 4096) (unmapStop virt length) m' := by
  unfold unmapStop
  obtain ⟨p, hp⟩ : ∃ p, p = virt / 4096 := ⟨_, rfl⟩
  obtain ⟨q, hq⟩ : ∃ q, q = (virt + length + 4095) / 4096 := ⟨_, rfl⟩
  have hstart : virt / 0x400000 = p / 1024 := by omega
  have hpti : virt / 0x1000 % 0x400 = p % 1024 := by omega
  have hpq : p ≤ q := by omega
  have hqn : q ≤ n * 1024 := by omega
  unfold vmmcUserUnmap at hm
  by_cases hwrap : 2 ^ 32 ≤ virt + length + 0x3FFFFF
  · rw [if_pos hwrap]
    have hnone : (virt + length + 0x3FFFFF) % 2 ^ 32 / 0x400000 = 0 := by omega
    simp only [hnone, Nat.zero_sub, List.range'_zero, List.foldlM_nil, Option.pure_def,
      Option.some.injEq] at hm
    rw [← hm]
    exact .nil h le_rfl
  · rw [if_neg hwrap]
    have hptiEnd : (virt + length + 0xFFF) % 2 ^ 32 / 0x1000 % 0x400 = q % 1024 := by omega
    simp only [hstart, hpti, hptiEnd] at hm
    unfold unmapEnd
    rw [← hp, ← hq]
    by_cases hq0 : q % 1024 = 0
    · -- the last round of the loop does nothing
      have hpdiEnd : (virt + length + 0x3FFFFF) % 2 ^ 32 / 0x400000 = q / 1024 := by omega
      clear hp hq hstart hpti hptiEnd hle hwrap
      rw [hpdiEnd] at hm
      rw [if_pos hq0]
      have hrun := foldlM_range'_rule
        (P := fun i b => Emptied m pd n p (max p (min (q - 1024) (i * 1024))) b) hm
        (.nil h (by omega)) fun i b b' hi hi' hem hstep => by
          by_cases hlast : i < q / 1024 - 1
          · rw [if_pos hlast] at hstep
            have hps : i * 1024 + (if p / 1024 < i then 0 else p % 1024) =
                max p (min (q - 1024) (i * 1024)) := by
              split <;> omega
            have hpe : i * 1024 + 1024 = max p (min (q - 1024) ((i + 1) * 1024)) := by omega
            have hround := emptied_dirEntry hem.space (by omega) (by split <;> omega) le_rfl hstep
            rw [hps, hpe] at hround
            exact hem.trans hround (by omega) (by omega)
          · rw [if_neg hlast, hq0, unmapDirEntry_zero] at hstep
            cases hstep
            rwa [show min (q - 1024) ((i + 1) * 1024) = min (q - 1024) (i * 1024) by omega]
      by_cases hpe : p ≤ q - 1024
      · rwa [show max p (min (q - 1024) ((p / 1024 + (q / 1024 - p / 1024)) * 1024)) = q - 1024
          by omega] at hrun
      · rw [show max p (min (q - 1024) ((p / 1024 + (q / 1024 - p / 1024)) * 1024)) = p
          by omega] at hrun
        refine ⟨hrun.space, fun v hv => ?_⟩
        rw [hrun.page v hv, if_neg (by omega), if_neg (by omega)]
    · have hpdiEnd : (virt + length + 0x3FFFFF) % 2 ^ 32 / 0x400000 = q / 1024 + 1 := by omega
      clear hp hq hstart hpti hptiEnd hle hwrap
      rw [hpdiEnd] at hm
      rw [if_neg hq0]
      have hrun := foldlM_range'_rule
        (P := fun i b => Emptied m pd n p (max p (min q (i * 1024))) b) hm
        (.nil h (by omega)) fun i b b' hi hi' hem hstep => by
          have hps : i * 1024 + (if p / 1024 < i then 0 else p % 1024) = max p (min q (i * 1024)) := by
            split <;> omega
          have hpe : i * 1024 + (if i < q / 1024 + 1 - 1 then 1024 else q % 1024) =
              max p (min q ((i + 1) * 1024)) := by
            split <;> omega
          have hround := emptied_dirEntry hem.space (by omega) (by split <;> split <;> omega)
            (by split <;> omega) hstep
          rw [hps, hpe] at hround
          exact hem.trans hround (by omega) (by omega)
      rw [show max p (min q ((p / 1024 + (q / 1024 + 1 - p / 1024)) * 1024)) = q by omega] at hrun
      exact hrun

/-- What is asked of `vmmc_user_unmap`: the pages of the range are gone, all others are as they
were. -/
structure RangeUnmapped (m : Mem) (pd n virt length : Nat) (m' : Mem) : Prop where
  gone : ∀ v, virt / 4096 ≤ v → v * 4096 < virt + length → m'.page pd v = none
  others : ∀ v < n * 1024, ¬ (virt / 4096 ≤ v ∧ v * 4096 < virt + length) →
    m'.page pd v = m.page pd v

theorem unmapStop_le {v : Nat} (hv : virt / 4096 ≤ v) (hlt : v < unmapStop virt length) :
    v * 4096 < virt + length := by
  unfold unmapStop unmapEnd at hlt
  split_ifs at hlt <;> omega

/-- **Unmapping a range**: the pages of the range are gone and all others stay if and only if no
page was there behind the place where the function stops. -/
theorem user_unmap_iff (h : Space m pd n) (hn : n ≤ 1024) (hle : virt + length ≤ n * 0x400000)
    (hm : vmmcUserUnmap m pd virt length = some m') :
    RangeUnmapped m pd n virt length m' ↔
      ∀ v, virt / 4096 ≤ v → unmapStop virt length ≤ v → v * 4096 < virt + length →
        m.page pd v = none := by
  have hem := userUnmap_emptied h hn hle hm
  constructor
  · intro hr v hv hstop hlt
    have hgone := hr.gone v hv hlt
    rwa [hem.page v (by omega), if_neg (by omega)] at hgone
  · intro hno
    refine ⟨fun v hv hlt => ?_, fun v hv hout => ?_⟩
    · rw [hem.page v (by omega)]
      by_cases hstop : v < unmapStop virt length
      · rw [if_pos ⟨hv, hstop⟩]
      · rw [if_neg fun hc => hstop hc.2]
        exact hno v hv (by omega) hlt
    · rw [hem.page v hv, if_neg]
      rintro ⟨hlo, hhi⟩
      exact hout ⟨hlo, unmapStop_le hlo hhi⟩

/-- A page in the middle of a page table. -/
theorem user_unmap_page : ∃ m', vmmcUserUnmap (oneTable 0 (entry 2 mapPr)) 0 0x5000 4096 = some m' ∧
    RangeUnmapped (oneTable 0 (entry 2 mapPr)) 0 1024 0x5000 4096 m' := by
  obtain ⟨m', hm⟩ : ∃ m', vmmcUserUnmap (oneTable 0 (entry 2 mapPr)) 0 0x5000 4096 = some m' :=
    ⟨_, userUnmap_one (show 5 < userPdes * 1024 by decide) (by decide)⟩
  refine ⟨m', hm, (user_unmap_iff (held_oneTable 0 1024 _).toSpace le_rfl (by decide) hm).mpr ?_⟩
  intro v hlo hstop hhi
  have hstop : 6 ≤ v := hstop
  omega

/-- The last page of a page table stays. -/
theorem last_page_stays_mapped : ∃ m', Space (oneTable 0 (entry 2 mapPr)) 0 1024 ∧
    vmmcUserUnmap (oneTable 0 (entry 2 mapPr)) 0 (1023 * 4096) 4096 = some m' ∧
    m'.page 0 1023 = some (entry 2 mapPr) :=
  ⟨_, (held_oneTable 0 1024 _).toSpace, userUnmap_last (v := 1023) (by decide) (by decide), by
    rw [oneTable_page]
    rfl⟩

end Muxomucota.Mmu
