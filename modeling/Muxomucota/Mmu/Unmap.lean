import Muxomucota.Mmu.Teardown

/-!
# Mmu — `vmmc_user_unmap`

The function empties the entries of a range of pages and gives page tables back that it empties as
a whole; the frames of the pages keep their references.  It works as long as the range does not end
on a directory entry: there `pti_end` is `0`, and nothing of the last page table is emptied
(`userUnmap_last`).
-/

namespace Muxomucota.Mmu
open Memory Pmm Lib

variable {ρ : Type} {P : Nat → Option Nat} {R : ρ → Option Nat} {d : Nat → Int} {m m' m₁ : Mem}
  {c pd pdi pti t f lo mid hi : Nat}

/-- How many of the pages from `lo` up to `hi` of context `c` are mapped to `f`. -/
def rangeCount (P : Nat → Option Nat) (m : Mem) (c lo hi f : Nat) : Nat :=
  (List.range' lo (hi - lo)).countP fun v => maps P m c v = some f

theorem rangeCount_self : rangeCount P m c lo lo f = 0 := by simp [rangeCount]

theorem rangeCount_append (h₁ : lo ≤ mid) (h₂ : mid ≤ hi) :
    rangeCount P m c lo hi f = rangeCount P m c lo mid f + rangeCount P m c mid hi f := by
  have hr : List.range' lo (hi - lo) = List.range' lo (mid - lo) ++ List.range' mid (hi - mid) := by
    have := List.range'_append_1 (s := lo) (m := mid - lo) (n := hi - mid)
    rw [show lo + (mid - lo) = mid by omega, show mid - lo + (hi - mid) = hi - lo by omega] at this
    exact this.symm
  rw [rangeCount, hr, List.countP_append]
  rfl

theorem rangeCount_succ (h : lo ≤ hi) : rangeCount P m c lo (hi + 1) f =
    rangeCount P m c lo hi f + if maps P m c hi = some f then 1 else 0 := by
  rw [rangeCount_append h (Nat.le_succ hi)]
  simp [rangeCount, List.range'_one]

theorem rangeCount_congr (h : ∀ v, lo ≤ v → v < hi → maps P m' c v = maps P m c v) :
    rangeCount P m' c lo hi f = rangeCount P m c lo hi f :=
  List.countP_congr fun v hv => by
    have := List.mem_range'_1.mp hv
    rw [h v (by omega) (by omega)]

theorem rangeCount_zero (h : ∀ v, lo ≤ v → v < hi → maps P m c v = none) :
    rangeCount P m c lo hi f = 0 :=
  List.countP_eq_zero.mpr fun v hv => by
    have := List.mem_range'_1.mp hv
    rw [h v (by omega) (by omega)]
    simp

/-- **What unmapping the pages from `lo` up to `hi` does.** -/
structure Unmapped (P : Nat → Option Nat) (R : ρ → Option Nat) (d : Nat → Int) (m : Mem)
    (c lo hi : Nat) (m' : Mem) : Prop where
  owned : Owned P R (fun f => d f - rangeCount P m c lo hi f) m'
  pages : ∀ c' v, pages P m' c' v = if c' = c ∧ lo ≤ v ∧ v < hi then none else pages P m c' v
  tables : ∀ c' i t, Mmu.tables P m' c' i = some t → Mmu.tables P m c' i = some t
  users : ∀ g, ¬ Structural P m g → m'.pmm.users g = m.pmm.users g
  le : ∀ g, m'.pmm.users g ≤ m.pmm.users g
  frames : SameFrames m.pmm m'.pmm

theorem Unmapped.nil (h : Owned P R d m) (hle : hi ≤ lo) : Unmapped P R d m c lo hi m where
  owned := by
    have hz : ∀ f, rangeCount P m c lo hi f = 0 := fun f =>
      rangeCount_zero fun v h₁ h₂ => absurd h₁ (by omega)
    simp only [hz]
    simpa using h
  pages c' v := by rw [if_neg (by omega)]
  tables _ _ _ h := h
  users _ _ := rfl
  le _ := le_rfl
  frames := .refl _

/-- All empty ranges are one. -/
theorem Unmapped.empty {hi' : Nat} (h : Unmapped P R d m c lo lo m') (hle : hi' ≤ lo) :
    Unmapped P R d m c lo hi' m' where
  owned := by
    have hz : ∀ f, rangeCount P m c lo hi' f = rangeCount P m c lo lo f := fun f => by
      rw [rangeCount_self]
      exact rangeCount_zero fun v h₁ h₂ => absurd h₁ (by omega)
    simp only [hz]
    exact h.owned
  pages c' v := by rw [h.pages, if_neg (by omega), if_neg (by omega)]
  tables := h.tables
  users := h.users
  le := h.le
  frames := h.frames

/-- Pages that are not there need no unmapping. -/
theorem Unmapped.absent (h : Owned P R d m) (hno : ∀ v, lo ≤ v → v < hi → Mmu.pages P m c v = none) :
    Unmapped P R d m c lo hi m where
  owned := by
    have hz : ∀ f, rangeCount P m c lo hi f = 0 := fun f =>
      rangeCount_zero fun v h₁ h₂ => by rw [maps, hno v h₁ h₂]; rfl
    simp only [hz]
    simpa using h
  pages c' v := by
    split
    · rename_i hv; rw [hv.1, hno v hv.2.1 hv.2.2]
    · rfl
  tables _ _ _ h := h
  users _ _ := rfl
  le _ := le_rfl
  frames := .refl _

theorem Unmapped.structural (h : Unmapped P R d m c lo hi m') {g : Nat} (hg : Structural P m' g) :
    Structural P m g :=
  hg.imp id fun ⟨c', i, hi⟩ => ⟨c', i, h.tables c' i g hi⟩

theorem Unmapped.trans (h₁ : Unmapped P R d m c lo mid m₁)
    (h₂ : Unmapped P R (fun f => d f - rangeCount P m c lo mid f) m₁ c mid hi m') (hlo : lo ≤ mid)
    (hhi : mid ≤ hi) : Unmapped P R d m c lo hi m' where
  owned := by
    have hc : ∀ f, rangeCount P m₁ c mid hi f = rangeCount P m c mid hi f := fun f =>
      rangeCount_congr fun v hv₁ hv₂ => by rw [maps, maps, h₁.pages, if_neg (by omega)]
    have ho := h₂.owned
    simp only [hc] at ho
    have he : (fun f => d f - (rangeCount P m c lo hi f : Int)) =
        fun f => d f - rangeCount P m c lo mid f - rangeCount P m c mid hi f := by
      funext f
      rw [rangeCount_append hlo hhi]
      push_cast
      omega
    rw [he]
    exact ho
  pages c' v := by
    rw [h₂.pages, h₁.pages]
    split_ifs <;> first | rfl | omega
  tables c' i t ht := h₁.tables c' i t (h₂.tables c' i t ht)
  users g hg := by rw [h₂.users g fun h => hg (h₁.structural h), h₁.users g hg]
  le g := (h₂.le g).trans (h₁.le g)
  frames := h₁.frames.trans h₂.frames

/-! ### One directory entry -/

/-- Emptying one entry. -/
theorem unmapped_setEntry (h : Owned P R d m) (ht : tables P m c pdi = some t) (hpti : pti < 1024) :
    Unmapped P R d m c (pdi * 1024 + pti) (pdi * 1024 + pti + 1) (m.setEntry t pti mapNp) where
  owned := by
    have hcount : ∀ f, rangeCount P m c (pdi * 1024 + pti) (pdi * 1024 + pti + 1) f =
        if maps P m c (pdi * 1024 + pti) = some f then 1 else 0 := fun f => by
      rw [rangeCount_succ le_rfl, rangeCount_self, Nat.zero_add]
    simp only [hcount]
    have hp : (present mapNp).map frameOf = none := rfl
    refine h.setPage ht hpti (fun g => ?_) (fun g hg => ?_) fun g hg => ?_
    · rw [hp]
      simp only [reduceCtorEq, if_false]
      split <;> simp
    · have := h.idle g hg
      split <;> push_cast <;> omega
    · have h₁ := (h.solo g hg).2
      rw [if_neg fun hm => h.not_structural hm hg]
      push_cast
      omega
  pages c' v := by
    rw [(views_setEntry h ht hpti).2]
    by_cases hv : c' = c ∧ v = pdi * 1024 + pti
    · rw [if_pos hv, if_pos ⟨hv.1, by omega, by omega⟩]; rfl
    · rw [if_neg hv, if_neg fun h' => hv ⟨h'.1, by omega⟩]
  tables c' i s hs := by rwa [(views_setEntry h ht hpti).1] at hs
  users _ _ := rfl
  le _ := le_rfl
  frames := .refl _

/-- The inner loop of `vmmc_user_unmap`. -/
theorem unmapLoop_spec (h : Owned P R d m) (ht : tables P m c pdi = some t) {n : Nat}
    (hn : pti + n ≤ 1024) :
    ∃ m', (List.range' pti n).foldl (fun m i => m.setEntry t i mapNp) m = m' ∧ m'.pmm = m.pmm ∧
      tables P m' = tables P m ∧
      Unmapped P R d m c (pdi * 1024 + pti) (pdi * 1024 + (pti + n)) m' := by
  induction n with
  | zero => exact ⟨m, rfl, rfl, rfl, .nil h (by omega)⟩
  | succ n ih =>
      obtain ⟨m₁, h₁, hp₁, ht₁, hu₁⟩ := ih (by omega)
      rw [List.range'_1_concat, List.foldl_append, h₁]
      have htm : tables P m₁ c pdi = some t := by rw [ht₁]; exact ht
      have hu₂ := unmapped_setEntry hu₁.owned htm (show pti + n < 1024 by omega)
      have hend : pdi * 1024 + (pti + (n + 1)) = pdi * 1024 + (pti + n) + 1 := by omega
      refine ⟨_, rfl, hp₁, ((views_setEntry hu₁.owned htm (by omega)).1).trans ht₁, ?_⟩
      rw [hend]
      exact hu₁.trans hu₂ (by omega) (by omega)

/-- One round of `vmmc_user_unmap`. -/
theorem unmapDirEntry_spec {ptiEnd : Nat} (h : Owned P R d m) (hc : P c = some pd)
    (hpdi : pdi < userPdes) (hle : pti ≤ ptiEnd) (hend : ptiEnd ≤ 1024)
    (hm : unmapDirEntry pd pdi pti ptiEnd m = some m') :
    Unmapped P R d m c (pdi * 1024 + pti) (pdi * 1024 + ptiEnd) m' := by
  unfold unmapDirEntry at hm
  split at hm
  · rename_i hpr
    cases hm
    have hno : tables P m c pdi = none := by
      rw [tables_eq hc, Mem.table]
      simp [present, hpr]
    refine .absent h fun v h₁ h₂ => ?_
    rw [pages_eq_bind, show v / 1024 = pdi by omega, hno]
    rfl
  · rename_i hpr
    have hpr : isPr (m.entry pd pdi) = true := by simpa using hpr
    set t := frameOf (m.entry pd pdi) with htdef
    have htab : m.table pd pdi = some t := table_eq_some.mpr ⟨hpdi, hpr, rfl⟩
    have ht : tables P m c pdi = some t := (tables_eq hc pdi).trans htab
    obtain ⟨m₁, h₁, hp₁, hts₁, hu₁⟩ := unmapLoop_spec h ht (show pti + (ptiEnd - pti) ≤ 1024 by omega)
    rw [show pti + (ptiEnd - pti) = ptiEnd by omega] at hu₁
    simp only [h₁] at hm
    split at hm
    · rename_i hfull
      obtain ⟨rfl, rfl⟩ := hfull
      have hown := hu₁.owned
      have ht₁ : tables P m₁ c pdi = some t := by rw [hts₁]; exact ht
      have htab₁ : m₁.table pd pdi = some t := by rw [← tables_eq hc]; exact ht₁
      have he₁ : frameOf (m₁.entry pd pdi) = t := (table_eq_some.mp htab₁).2.2
      rw [he₁] at hm
      obtain ⟨m₂, h₂, rfl⟩ := Option.map_eq_some_iff.mp hm
      obtain ⟨hram₂, hs₂, -, hus₂, -⟩ := free_spec h₂
      have hone : m₁.pmm.users t = 1 := (hown.solo_table ht₁).1
      have he : DirEntryEmptied P m₁ (m₂.setEntry pd pdi mapNp) c pd pdi :=
        dirEntry_emptied hown hc hram₂
      have hempty : ∀ v, v / 1024 = pdi → pages P m₁ c v = none := by
        intro v hv
        rw [hu₁.pages, if_pos ⟨rfl, by omega, by omega⟩]
      have hcount : ∀ a, countIn m₁ t a = 0 := by
        intro a
        rw [← pageCount_of_table ht₁]
        refine Nat.eq_zero_of_not_pos fun hpos => ?_
        obtain ⟨v, hv, hm⟩ := pageCount_pos.mp hpos
        rw [maps, hempty v hv] at hm
        cases hm
      refine ⟨?_, fun c' v => ?_, fun c' i s hs => ?_, fun g hg => ?_, fun g => ?_,
        hu₁.frames.trans hs₂⟩
      · refine hown.dirEntry hc (.inr rfl) (fun g hg _ => he.ram g hg) he.entry hs₂ (fun a => ?_)
          (fun a ha => ?_) fun a ha => ?_
        · have hbal : m₂.pmm.users a + (if t = a then 1 else 0) = m₁.pmm.users a := by
            rw [hus₂]
            by_cases hta : a = t
            · subst hta; simp [hone]
            · simp [hta, Ne.symm hta]
          rw [dirCount, he.table, dirCount, htab₁, setEntry_pmm]
          simp only [hcount]
          rw [← hbal]
          push_cast
          omega
        · rw [setEntry_pmm, hus₂] at ha
          split at ha
          · rename_i hta
            rw [hta]
            exact le_of_eq (hown.solo_table ht₁).2
          · exact hown.idle a ha
        · obtain ⟨h₃, h₄⟩ := he.structural hown ht₁ ha
          rw [setEntry_pmm, hus₂, if_neg h₄]
          exact hown.solo a h₃
      · rw [he.pages]
        by_cases hv : c' = c ∧ v / 1024 = pdi
        · rw [if_pos hv, if_pos ⟨hv.1, by omega, by omega⟩]
        · rw [if_neg hv, hu₁.pages, if_neg fun h' => hv ⟨h'.1, by omega⟩]
      · rw [he.tables] at hs
        split at hs
        · cases hs
        · exact hu₁.tables c' i s hs
      · rw [setEntry_pmm, hus₂, if_neg]
        · exact hu₁.users g hg
        · rintro rfl
          exact hg (.inr ⟨c, pdi, ht⟩)
      · rw [setEntry_pmm, hus₂]
        have := hu₁.le g
        split
        · rename_i hgt; subst hgt; omega
        · exact this
    · cases hm
      exact hu₁

/-! ### The whole range -/

theorem unmapDirEntry_zero (pd pdi pti : Nat) (m : Mem) : unmapDirEntry pd pdi pti 0 m = some m := by
  unfold unmapDirEntry
  split
  · rfl
  · simp

/-- The pages that `vmmc_user_unmap` empties end here: where the range ends on a directory entry,
the last page table is left alone. -/
def unmapEnd (virt length : Nat) : Nat :=
  if (virt + length + 4095) / 4096 % 1024 = 0 then (virt + length + 4095) / 4096 - 1024
  else (virt + length + 4095) / 4096

section rounds

variable {p q e i : Nat}

/-- Round `i` begins where those before it have ended. -/
theorem roundStart_eq (hp : p / 1024 ≤ i) (he : i * 1024 ≤ e) :
    i * 1024 + (if p / 1024 < i then 0 else p % 1024) = max p (min e (i * 1024)) := by
  rw [Nat.min_eq_right he]
  split <;> omega

theorem roundEnd_whole (hp : p / 1024 ≤ i) (he : (i + 1) * 1024 ≤ e) :
    i * 1024 + 1024 = max p (min e ((i + 1) * 1024)) := by
  rw [Nat.min_eq_right he]
  omega

theorem roundEnd_eq (hp : p / 1024 ≤ i) (hpq : p ≤ q) (hi : i ≤ q / 1024) :
    i * 1024 + (if i < q / 1024 + 1 - 1 then 1024 else q % 1024) = max p (min q ((i + 1) * 1024)) := by
  split
  · exact roundEnd_whole hp (by omega)
  · rw [Nat.min_eq_left (by omega), Nat.max_eq_right hpq]
    omega

/-- Where the last round ends. -/
theorem lastRound_eq (hi : p / 1024 ≤ i) (hp : p ≤ e) (he : e ≤ i * 1024) :
    max p (min e ((p / 1024 + (i - p / 1024)) * 1024)) = e := by
  rw [Nat.add_sub_of_le hi, Nat.min_eq_left he, Nat.max_eq_right hp]

end rounds

/-- `vmmc_user_unmap`, below `PHYS_BASE`. -/
theorem userUnmap_spec {virt sz : Nat} (h : Owned P R d m) (hc : P c = some pd)
    (hle : virt + sz ≤ physBase) (hm : vmmcUserUnmap m pd virt sz = some m') :
    Unmapped P R d m c (virt / 4096) (unmapEnd virt sz) m' := by
  simp only [physBase] at hle
  obtain ⟨p, hp⟩ : ∃ p, p = virt / 4096 := ⟨_, rfl⟩
  obtain ⟨q, hq⟩ : ∃ q, q = (virt + sz + 4095) / 4096 := ⟨_, rfl⟩
  have hstart : virt / 0x400000 = p / 1024 := by omega
  have hpti : virt / 0x1000 % 0x400 = p % 1024 := by omega
  have hptiEnd : (virt + sz + 0xFFF) % 2 ^ 32 / 0x1000 % 0x400 = q % 1024 := by omega
  have hpq : p ≤ q := by omega
  have hq' : q ≤ userPdes * 1024 := by simp only [userPdes]; omega
  unfold vmmcUserUnmap at hm
  unfold unmapEnd
  simp only [hstart, hpti, hptiEnd] at hm
  rw [← hp, ← hq]
  by_cases hq0 : q % 1024 = 0
  · -- the last round of the loop does nothing
    have hpdiEnd : (virt + sz + 0x3FFFFF) % 2 ^ 32 / 0x400000 = q / 1024 := by omega
    clear hp hq hstart hpti hptiEnd hle
    simp only [userPdes] at hq'
    rw [hpdiEnd] at hm
    rw [if_pos hq0]
    have hrun := foldlM_range'_rule
      (P := fun i b => Unmapped P R d m c p (max p (min (q - 1024) (i * 1024))) b) hm
      (.nil h (by omega)) fun i b b' hi hi' hu hstep => by
        by_cases hlast : i < q / 1024 - 1
        · rw [if_pos hlast] at hstep
          have hps := roundStart_eq (e := q - 1024) hi (by omega)
          have hpe := roundEnd_whole (e := q - 1024) hi (by omega)
          have hround := unmapDirEntry_spec hu.owned hc (by simp only [userPdes]; omega)
            (by split <;> omega) le_rfl hstep
          rw [hps, hpe] at hround
          exact hu.trans hround (by omega) (by omega)
        · rw [if_neg hlast, hq0, unmapDirEntry_zero] at hstep
          cases hstep
          rwa [show min (q - 1024) ((i + 1) * 1024) = min (q - 1024) (i * 1024) by omega]
    by_cases hpe : p ≤ q - 1024
    · rwa [lastRound_eq (Nat.div_le_div_right hpq) hpe (by omega)] at hrun
    · rw [show max p (min (q - 1024) ((p / 1024 + (q / 1024 - p / 1024)) * 1024)) = p
        by omega] at hrun
      exact hrun.empty (by omega)
  · have hpdiEnd : (virt + sz + 0x3FFFFF) % 2 ^ 32 / 0x400000 = q / 1024 + 1 := by omega
    clear hp hq hstart hpti hptiEnd hle
    simp only [userPdes] at hq'
    rw [hpdiEnd] at hm
    rw [if_neg hq0]
    have hlen : p / 1024 ≤ q / 1024 + 1 := Nat.le_succ_of_le (Nat.div_le_div_right hpq)
    have hend : q ≤ (q / 1024 + 1) * 1024 := by
      rw [Nat.mul_comm]
      exact (Nat.lt_mul_div_succ q (by decide)).le
    have hrun := foldlM_range'_rule
      (P := fun i b => Unmapped P R d m c p (max p (min q (i * 1024))) b) hm
      (.nil h (by omega)) fun i b b' hi hi' hu hstep => by
        have hps := roundStart_eq (e := q) hi (by omega)
        have hpe := roundEnd_eq hi hpq (by omega)
        have hround := unmapDirEntry_spec hu.owned hc (by simp only [userPdes]; omega)
          (by split <;> split <;> omega) (by split <;> omega) hstep
        rw [hps, hpe] at hround
        exact hu.trans hround (by omega) (by omega)
    rwa [lastRound_eq hlen hpq hend] at hrun

/-- `pdi_end` for one page. -/
theorem pdiEnd_one {v : Nat} (hv : v < 960 * 1024) :
    (v * 4096 + 4096 + 0x3FFFFF) % 2 ^ 32 / 0x400000 = v / 1024 + 1 := by
  rw [Nat.mod_eq_of_lt (by omega)]
  omega

/-- One page that is not the last of its page table. -/
theorem userUnmap_one {v : Nat} (hv : v < userPdes * 1024) (hlast : v % 1024 ≠ 1023) :
    vmmcUserUnmap m pd (v * 4096) pageSize =
      some (if isPr (m.entry pd (v / 1024)) then
        m.setEntry (frameOf (m.entry pd (v / 1024))) (v % 1024) mapNp else m) := by
  simp only [userPdes] at hv
  have hstart : v * 4096 / 0x400000 = v / 1024 := by omega
  have hpti : v * 4096 / 0x1000 % 0x400 = v % 1024 := by omega
  have hptiEnd : (v * 4096 + 4096 + 0xFFF) % 2 ^ 32 / 0x1000 % 0x400 = v % 1024 + 1 := by omega
  have hpdiEnd := pdiEnd_one hv
  unfold vmmcUserUnmap
  simp only [pageSize, hstart, hpti, hptiEnd, hpdiEnd, Nat.add_sub_cancel_left, List.range'_one,
    List.foldlM_cons, List.foldlM_nil, Nat.lt_irrefl, if_false, Nat.add_sub_cancel]
  unfold unmapDirEntry
  by_cases hpr : isPr (m.entry pd (v / 1024)) = true
  · have hfull : ¬ (v % 1024 = 0 ∧ v % 1024 + 1 = 1024) := by omega
    simp only [hpr, if_neg hfull, if_true, Nat.add_sub_cancel_left, List.range'_one]
    simp
  · simp [hpr]

/-- The last page of a page table stays mapped. -/
theorem userUnmap_last {v : Nat} (hv : v < userPdes * 1024) (hlast : v % 1024 = 1023) :
    vmmcUserUnmap m pd (v * 4096) pageSize = some m := by
  simp only [userPdes] at hv
  have hstart : v * 4096 / 0x400000 = v / 1024 := by omega
  have hpti : v * 4096 / 0x1000 % 0x400 = 1023 := by omega
  have hptiEnd : (v * 4096 + 4096 + 0xFFF) % 2 ^ 32 / 0x1000 % 0x400 = 0 := by omega
  have hpdiEnd := pdiEnd_one hv
  unfold vmmcUserUnmap
  simp only [pageSize, hstart, hpti, hptiEnd, hpdiEnd, Nat.add_sub_cancel_left, List.range'_one,
    List.foldlM_cons, List.foldlM_nil, Nat.lt_irrefl, if_false, Nat.add_sub_cancel]
  unfold unmapDirEntry
  by_cases hpr : isPr (m.entry pd (v / 1024)) = true <;> simp [hpr]

end Muxomucota.Mmu
