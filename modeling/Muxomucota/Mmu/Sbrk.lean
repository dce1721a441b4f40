import Muxomucota.Mmu.AddressSpace
import Muxomucota.Mmu.FramesInUse

/-!
# Mmu — context_sbrk

Runs of `context_sbrk` in one process, from the start of its heap on.  Growing fills the pages from the
old end, rounded down, to the new one, rounded up; shrinking gives back the pages between the two
ends, both rounded up.  Between two calls every page of the heap is there and may be written to
(`HeapPages`).

Each page that is given back is unmapped by a `vmmc_user_unmap` of its own, which does nothing for the
last page of a page table.
-/

namespace Muxomucota.Mmu
open Memory Pmm Lib

variable {ρ : Type} {P : Nat → Option Nat} {R : ρ → Option Nat} {m m' : Mem}
  {c pd v lo n start ret : Nat} {inc : BitVec 32}

/-- The memory, and `heap_end`. -/
structure HeapState where
  mem : Mem
  heapEnd : Nat

namespace HeapState

/-- `context_sbrk`. -/
def sbrk (pd : Nat) (s : HeapState) (inc : BitVec 32) : Option (Nat × HeapState) :=
  (contextSbrk s.mem pd s.heapEnd inc).map fun r => (r.1, ⟨r.2.2, r.2.1⟩)

def step (pd : Nat) (s : HeapState) (inc : BitVec 32) : Option HeapState := (s.sbrk pd inc).map Prod.snd

end HeapState

/-! ### What is asked of a call -/

/-- The increment, rounded, keeps the end of the heap between its start and the mapping area. -/
def Within (start : Nat) (s : HeapState) (inc : BitVec 32) : Prop :=
  (start : Int) ≤ s.heapEnd + (sbrkInc inc).toInt ∧ s.heapEnd + (sbrkInc inc).toInt ≤ userMapBase

/-- Page `v` is there and may be written to. -/
def Writable (P : Nat → Option Nat) (m : Mem) (c v : Nat) : Prop :=
  ∃ w, pages P m c v = some w ∧ isRw w = true

/-- All pages that meet the heap are. -/
def HeapPages (P : Nat → Option Nat) (c start : Nat) (s : HeapState) : Prop :=
  ∀ a, start ≤ a → a < s.heapEnd → Writable P s.mem c (a / 4096)

/-- What a call should have done: every page that meets the heap can be written to, no page behind it
is left of the old heap, and where it has shrunk, the frames of these pages are given back once each. -/
structure SbrkDone (P : Nat → Option Nat) (c start : Nat) (s : HeapState) (ret : Nat)
    (s' : HeapState) : Prop where
  returns : ret = s.heapEnd
  filled : HeapPages P c start s'
  emptied : ∀ v, s'.heapEnd ≤ v * 4096 → v * 4096 < s.heapEnd → pages P s'.mem c v = none
  released : s'.heapEnd < s.heapEnd → ∀ g, s'.mem.pmm.users g +
    rangeCount P s.mem c ((s'.heapEnd + 4095) / 4096) ((s.heapEnd + 4095) / 4096) g =
      s.mem.pmm.users g

/-- No page that the heap grows over is read-only, and no page that it gives back is the last one of a
page table. -/
def Unmaps (P : Nat → Option Nat) (c : Nat) (s : HeapState) (inc : BitVec 32) : Prop :=
  if inc = 0 then True
  else if 0 ≤ (sbrkInc inc).toInt then
    ∀ v ∈ growRange s.heapEnd inc, ∀ w, pages P s.mem c v = some w → isRw w = true
  else ∀ v ∈ shrinkRange s.heapEnd inc, pages P s.mem c v ≠ none → v % 1024 ≠ 1023

/-! ### Growing -/

/-- A page that is not there gets a frame, and may be written to. -/
theorem growPage_pages (h : Owned P R 0 m) (hc : P c = some pd) (hv : v < userPdes * 1024)
    (hm : growPage m pd v = some m') : ∃ w, isRw w = true ∧
      ∀ u, pages P m' c u = if u = v then some ((pages P m c v).getD w) else pages P m c u := by
  have hbelow : v * 4096 < physBase := by
    simp only [userPdes] at hv
    simp only [physBase]
    omega
  have hdiv : v * 4096 / 4096 = v := by omega
  unfold growPage at hm
  cases hp : pages P m c v with
  | none =>
      rw [addressMapped_none hc hbelow (by rwa [hdiv]), if_pos rfl] at hm
      obtain ⟨⟨f, m₁⟩, ha, hm⟩ := Option.bind_eq_some_iff.mp hm
      obtain ⟨-, hn⟩ := freshPage_spec h hc ha rfl (fun _ _ => rfl) hm
      refine ⟨entry f (pageFlags (vmmUr ||| vmmUw)), by rw [isRw_entry]; decide, fun u => ?_⟩
      rw [hn.mapped, hdiv]
      simp only [true_and, hbelow, and_true, Option.getD_none]
  | some e =>
      obtain ⟨hne, -⟩ := addressMapped_some hc (show pages P m c (v * 4096 / 4096) = some e by rwa [hdiv])
      rw [if_neg hne] at hm
      cases hm
      refine ⟨mapRw, by decide, fun u => ?_⟩
      split
      · rename_i hu
        rw [hu, hp]
        rfl
      · rfl

/-- What growing over the pages from `lo` up to `hi` does. -/
structure Grown (P : Nat → Option Nat) (m : Mem) (c lo hi : Nat) (m' : Mem) : Prop where
  other : ∀ v, ¬ (lo ≤ v ∧ v < hi) → pages P m' c v = pages P m c v
  kept : ∀ v w, pages P m c v = some w → pages P m' c v = some w
  fresh : ∀ v, lo ≤ v → v < hi → pages P m c v = none → Writable P m' c v

theorem growRange_pages (h : Owned P R 0 m) (hc : P c = some pd) (hle : lo + n ≤ userPdes * 1024)
    (hm : (List.range' lo n).foldlM (fun m page => growPage m pd page) m = some m') :
    Owned P R 0 m' ∧ Grown P m c lo (lo + n) m' := by
  refine foldlM_range'_rule (P := fun i b => Owned P R 0 b ∧ Grown P m c lo i b) hm
    ⟨h, fun _ _ => rfl, fun _ _ hw => hw, fun v h₁ h₂ => absurd h₁ (by omega)⟩ ?_
  rintro i b b' hlo hi ⟨hb, hg⟩ hstep
  obtain ⟨w, hw, hp⟩ := growPage_pages hb hc (by omega) hstep
  have hnone : pages P b c i = pages P m c i := hg.other i (by omega)
  refine ⟨(growPage_spec hb hc hstep).1, fun v hv => ?_, fun v e he => ?_, fun v h₁ h₂ hno => ?_⟩
  · rw [hp, if_neg (by omega), hg.other v (by omega)]
  · rw [hp]
    split
    · rename_i hvi
      rw [hnone, ← hvi, he]
      rfl
    · exact hg.kept v e he
  · by_cases hvi : v = i
    · refine ⟨w, ?_, hw⟩
      rw [hp, if_pos hvi, hnone, ← hvi, hno]
      rfl
    · obtain ⟨e, he, hrw⟩ := hg.fresh v h₁ (by omega) hno
      exact ⟨e, by rw [hp, if_neg hvi, he], hrw⟩

/-! ### Shrinking -/

theorem maps_page (hc : P c = some pd) (hv : v < userPdes * 1024) :
    maps P m c v = (m.page pd v).map frameOf := by
  rw [maps, pages_eq hc, page_eq_pte hv]

/-- The frame of a page that is given back loses a user; the page goes unless it is the last one of a
page table. -/
theorem shrinkPage_page (h : Space m pd userPdes) (hv : v < userPdes * 1024)
    (hm : shrinkPage m pd v = some m') :
    Space m' pd userPdes ∧ (∀ u < userPdes * 1024, m'.page pd u =
      if u = v ∧ v % 1024 ≠ 1023 then none else m.page pd u) ∧
      ∀ g, m'.pmm.users g + (if (m.page pd v).map frameOf = some g then 1 else 0) =
        m.pmm.users g := by
  have hdiv : v * 4096 / 4096 = v := by omega
  have hpdi : v / 1024 < userPdes := by omega
  have hsplit : v / 1024 * 1024 + v % 1024 = v := by omega
  unfold shrinkPage at hm
  rw [addressMapped_page, hdiv] at hm
  cases hp : m.page pd v with
  | none =>
      rw [hp, Option.elim_none, if_neg (not_not.mpr rfl)] at hm
      cases hm
      refine ⟨h, fun u _ => ?_, fun g => by simp⟩
      split
      · rename_i hu
        rw [hu.1, hp]
      · rfl
  | some e =>
      rw [hp, Option.elim_some, if_pos (accessOf_ne e)] at hm
      dsimp only at hm
      obtain ⟨m₁, hf, hm⟩ := Option.bind_eq_some_iff.mp hm
      obtain ⟨hram, -, hpos, hu, -⟩ := free_spec hf
      have hspace := h.of_ram hram
      have hcount : ∀ g, m₁.pmm.users g + (if frameOf e = g then 1 else 0) = m.pmm.users g := by
        intro g
        rw [hu]
        by_cases hg : g = frameOf e
        · subst hg
          rw [if_pos rfl, if_pos rfl]
          omega
        · rw [if_neg hg, if_neg fun he => hg he.symm]
          rfl
      have hpr : isPr (m₁.entry pd (v / 1024)) = true := by
        rw [entry_congr (congrFun hram pd)]
        by_contra hno
        rw [page_absent (by simpa using hno)] at hp
        cases hp
      by_cases hlast : v % 1024 = 1023
      · rw [userUnmap_last hv hlast] at hm
        cases hm
        refine ⟨hspace, fun u _ => ?_, fun g => by simpa using hcount g⟩
        rw [if_neg (fun hu => hu.2 hlast), page_of_ram hram]
      · rw [userUnmap_one hv hlast, if_pos hpr] at hm
        cases hm
        refine ⟨hspace.setPage hpdi hpr mapNp, fun u hu => ?_, fun g => by simpa using hcount g⟩
        rw [hspace.page_setPage hpdi hpr (Nat.mod_lt v (by decide)) hu, hsplit, page_of_ram hram]
        by_cases huv : u = v
        · rw [if_pos huv, if_pos ⟨huv, hlast⟩]
          rfl
        · rw [if_neg huv, if_neg fun hu => huv hu.1]

/-- What giving back the pages from `lo` up to `hi` does. -/
structure GivenBack (P : Nat → Option Nat) (m : Mem) (c lo hi : Nat) (m' : Mem) : Prop where
  page : ∀ u < userPdes * 1024, pages P m' c u =
    if (lo ≤ u ∧ u < hi) ∧ u % 1024 ≠ 1023 then none else pages P m c u
  users : ∀ g, m'.pmm.users g + rangeCount P m c lo hi g = m.pmm.users g

theorem shrinkRange_pages (h : Space m pd userPdes) (hc : P c = some pd)
    (hle : lo + n ≤ userPdes * 1024)
    (hm : (List.range' lo n).foldlM (fun m page => shrinkPage m pd page) m = some m') :
    GivenBack P m c lo (lo + n) m' := by
  have hpages : ∀ b u, u < userPdes * 1024 → pages P b c u = b.page pd u := fun b u hu => by
    rw [pages_eq hc, page_eq_pte hu]
  refine (foldlM_range'_rule (P := fun i b => Space b pd userPdes ∧ GivenBack P m c lo i b) hm
    ⟨h, fun u _ => by rw [if_neg (by omega)], fun g => by rw [rangeCount_self]; rfl⟩ ?_).2
  rintro i b b' hlo hi ⟨hb, hg⟩ hstep
  obtain ⟨hs, hp, hu⟩ := shrinkPage_page hb (by omega) hstep
  have hsame : b.page pd i = m.page pd i := by
    rw [← hpages b i (by omega), ← hpages m i (by omega), hg.page i (by omega), if_neg (by omega)]
  refine ⟨hs, fun u hu' => ?_, fun g => ?_⟩
  · rw [hpages b' u hu', hp u hu', ← hpages b u hu', hg.page u hu']
    split_ifs <;> first | rfl | omega
  · have h₁ := hu g
    have h₂ := hg.users g
    rw [rangeCount_succ hlo, maps_page hc (by omega)]
    rw [hsame] at h₁
    omega

/-! ### One call -/

theorem mask_toNat (x : BitVec 32) : (x &&& ~~~0xF#32).toNat = x.toNat / 16 * 16 := by
  have hmask : (~~~0xF#32 : BitVec 32).toNat = 2 ^ 32 - 16 := rfl
  have hlt := x.isLt
  have hdiv : (x.toNat &&& (2 ^ 32 - 16)) / 2 ^ 4 = x.toNat / 2 ^ 4 % 2 ^ 28 := by
    rw [Nat.and_div_two_pow, show (2 ^ 32 - 16) / 2 ^ 4 = 2 ^ 28 - 1 by decide,
      Nat.and_two_pow_sub_one_eq_mod]
  have hmod : (x.toNat &&& (2 ^ 32 - 16)) % 2 ^ 4 = 0 := by
    rw [Nat.and_mod_two_pow, show (2 ^ 32 - 16) % 2 ^ 4 = 0 by decide, Nat.and_zero]
  rw [BitVec.toNat_and, hmask]
  omega

/-- Rounding does not make an increment zero. -/
theorem sbrkInc_ne (h : inc ≠ 0) : sbrkInc inc ≠ 0 := by
  unfold sbrkInc
  split
  · rename_i hmask
    have hlarge : inc.toNat / 16 * 16 ≠ 0 := by
      rw [← mask_toNat]
      exact fun h0 => hmask (BitVec.eq_of_toNat_eq h0)
    split
    · rename_i hup
      intro h0
      have hnat := congrArg BitVec.toNat h0
      rw [BitVec.toInt_eq_toNat_cond] at hup
      rw [mask_toNat, BitVec.toNat_add, show (0xF : BitVec 32).toNat = 15 from rfl,
        show (0 : BitVec 32).toNat = 0 from rfl] at hnat
      split at hup <;> omega
    · exact hmask
  · exact h

/-- The end of the heap moves by the rounded increment. -/
theorem heapEnd_eq {x : BitVec 32} {e : Nat} (h₀ : 0 ≤ (e : Int) + x.toInt)
    (h₁ : (e : Int) + x.toInt < 2 ^ 32) :
    (((e + x.toNat) % 2 ^ 32 : Nat) : Int) = e + x.toInt := by
  have hlt := x.isLt
  rw [BitVec.toInt_eq_toNat_cond] at h₀ h₁ ⊢
  split at h₀ <;> rename_i hx <;> simp only [hx, if_true, if_false] at h₁ ⊢ <;> omega

/-- The ways a call can go. -/
inductive Sbrk (pd : Nat) (s : HeapState) (inc : BitVec 32) (s' : HeapState) : Prop where
  | nothing (zero : inc = 0) (same : s' = s)
  | grows (ne : inc ≠ 0) (up : 0 ≤ (sbrkInc inc).toInt) (lt : s.heapEnd < s'.heapEnd)
      (range : growRange s.heapEnd inc =
        List.range' (s.heapEnd / 4096) ((s'.heapEnd + 4095) / 4096 - s.heapEnd / 4096))
      (run : (growRange s.heapEnd inc).foldlM (fun m page => growPage m pd page) s.mem = some s'.mem)
  | shrinks (ne : inc ≠ 0) (down : ¬ 0 ≤ (sbrkInc inc).toInt) (lt : s'.heapEnd < s.heapEnd)
      (range : shrinkRange s.heapEnd inc = List.range' ((s'.heapEnd + 4095) / 4096)
        ((s.heapEnd + 4095) / 4096 - (s'.heapEnd + 4095) / 4096))
      (run : (shrinkRange s.heapEnd inc).foldlM (fun m page => shrinkPage m pd page) s.mem =
        some s'.mem)

theorem sbrk_cases {s s' : HeapState} (hin : Within start s inc) (hend : s.heapEnd ≤ userMapBase)
    (h : s.sbrk pd inc = some (ret, s')) :
    ret = s.heapEnd ∧ Sbrk pd s inc s' ∧ (inc ≠ 0 → start ≤ s'.heapEnd ∧ s'.heapEnd ≤ userMapBase) := by
  have hbase : userMapBase = 0xC0000000 := rfl
  obtain ⟨⟨r, e, m'⟩, hs, heq⟩ := Option.map_eq_some_iff.mp h
  cases heq
  unfold contextSbrk at hs
  split at hs
  · rename_i hzero
    cases hs
    exact ⟨rfl, .nothing hzero rfl, fun hne => absurd hzero hne⟩
  · rename_i hne
    have hmove := heapEnd_eq (x := sbrkInc inc) (e := s.heapEnd) (by have := hin.1; omega)
      (by have := hin.2; omega)
    have hlo := hin.1
    have hhi := hin.2
    have hx : (sbrkInc inc).toInt ≠ 0 := fun h0 =>
      sbrkInc_ne hne (BitVec.eq_of_toInt_eq (by rw [h0]; rfl))
    dsimp only at hs
    generalize hnew : (s.heapEnd + (sbrkInc inc).toNat) % 2 ^ 32 = new at hs hmove
    have hceil : (new + 4095) % 2 ^ 32 = new + 4095 := by omega
    split at hs
    · rename_i hup
      obtain ⟨m₁, hm₁, heq⟩ := Option.map_eq_some_iff.mp hs
      cases heq
      refine ⟨rfl, .grows hne hup (by dsimp only; omega) ?_ hm₁, fun _ => by dsimp only; omega⟩
      rw [growRange, hnew, hceil]
    · rename_i hdown
      obtain ⟨m₁, hm₁, heq⟩ := Option.map_eq_some_iff.mp hs
      cases heq
      refine ⟨rfl, .shrinks hne hdown (by dsimp only; omega) ?_ hm₁, fun _ => by dsimp only; omega⟩
      rw [shrinkRange, hnew, hceil, show (s.heapEnd + 4095) % 2 ^ 32 = s.heapEnd + 4095 by omega]

/-- What holds between two calls. -/
structure HeapInv (P : Nat → Option Nat) (R : ρ → Option Nat) (c start : Nat) (s : HeapState) :
    Prop where
  owned : Owned P R 0 s.mem
  pages : HeapPages P c start s
  start_le : start ≤ s.heapEnd
  end_le : s.heapEnd ≤ userMapBase

variable {s s' : HeapState}

/-- A growing heap. -/
theorem grow_done_iff (h : HeapInv P R c start s) (hlt : s.heapEnd < s'.heapEnd) (hret : ret = s.heapEnd)
    (hg : Grown P s.mem c (s.heapEnd / 4096) ((s'.heapEnd + 4095) / 4096) s'.mem) :
    SbrkDone P c start s ret s' ↔ ∀ v, s.heapEnd / 4096 ≤ v → v < (s'.heapEnd + 4095) / 4096 →
      ∀ w, pages P s.mem c v = some w → isRw w = true := by
  have hstart := h.start_le
  constructor
  · intro hd v hlo hhi w hw
    obtain ⟨w', hw', hrw⟩ := hd.filled (max s.heapEnd (v * 4096)) (by omega) (by omega)
    rw [show max s.heapEnd (v * 4096) / 4096 = v by omega, hg.kept v w hw] at hw'
    cases hw'
    exact hrw
  · intro hrw
    refine ⟨hret, fun a hlo hhi => ?_, fun v h₁ h₂ => by omega, fun hlt' => by omega⟩
    by_cases hold : a < s.heapEnd
    · obtain ⟨w, hw, hw'⟩ := h.pages a hlo hold
      exact ⟨w, hg.kept _ w hw, hw'⟩
    · cases hp : pages P s.mem c (a / 4096) with
      | none => exact hg.fresh _ (by omega) (by omega) hp
      | some w => exact ⟨w, hg.kept _ w hp, hrw _ (by omega) (by omega) w hp⟩

/-- A shrinking heap. -/
theorem shrink_done_iff (h : HeapInv P R c start s) (hlt : s'.heapEnd < s.heapEnd)
    (hret : ret = s.heapEnd)
    (hg : GivenBack P s.mem c ((s'.heapEnd + 4095) / 4096) ((s.heapEnd + 4095) / 4096) s'.mem) :
    SbrkDone P c start s ret s' ↔
      ∀ v, (s'.heapEnd + 4095) / 4096 ≤ v → v < (s.heapEnd + 4095) / 4096 →
        pages P s.mem c v ≠ none → v % 1024 ≠ 1023 := by
  have hbase : userMapBase = 0xC0000000 := rfl
  have hpdes : userPdes = 960 := rfl
  have hend := h.end_le
  constructor
  · intro hd v hlo hhi hp hlast
    have hnone := hd.emptied v (by omega) (by omega)
    rw [hg.page v (by omega), if_neg (fun hc => hc.2 hlast)] at hnone
    exact hp hnone
  · intro hok
    refine ⟨hret, fun a hlo hhi => ?_, fun v h₁ h₂ => ?_, fun _ => hg.users⟩
    · obtain ⟨w, hw, hrw⟩ := h.pages a hlo (by omega)
      exact ⟨w, by rw [hg.page _ (by omega), if_neg (by omega), hw], hrw⟩
    · rw [hg.page v (by omega)]
      split
      · rfl
      · rename_i hno
        by_contra hp
        exact hno ⟨⟨by omega, by omega⟩, hok v (by omega) (by omega) hp⟩

theorem mem_pages {a b v : Nat} : v ∈ List.range' a (b - a) ↔ a ≤ v ∧ v < b := by
  rw [List.mem_range'_1]
  omega

/-- One call does what it should if and only if it meets the condition. -/
theorem sbrk_done_iff (h : HeapInv P R c start s) (hc : P c = some pd) (hin : Within start s inc)
    (hs : s.sbrk pd inc = some (ret, s')) : SbrkDone P c start s ret s' ↔ Unmaps P c s inc := by
  have hbase : userMapBase = 0xC0000000 := rfl
  have hpdes : userPdes = 960 := rfl
  have hend := h.end_le
  obtain ⟨hret, hcase, hbounds⟩ := sbrk_cases hin h.end_le hs
  unfold Unmaps
  cases hcase with
  | nothing zero same =>
      subst same
      rw [if_pos zero]
      exact iff_of_true
        ⟨hret, h.pages, fun v h₁ h₂ => by omega, fun hlt => absurd hlt (lt_irrefl _)⟩ trivial
  | grows ne up lt range run =>
      rw [if_neg ne, if_pos up]
      have hend' := (hbounds ne).2
      rw [range] at run
      obtain ⟨-, hg⟩ := growRange_pages h.owned hc (by omega) run
      rw [show s.heapEnd / 4096 + ((s'.heapEnd + 4095) / 4096 - s.heapEnd / 4096) =
        (s'.heapEnd + 4095) / 4096 by omega] at hg
      rw [grow_done_iff h lt hret hg, range]
      simp only [mem_pages, and_imp]
  | shrinks ne down lt range run =>
      rw [if_neg ne, if_neg down]
      rw [range] at run
      have hg := shrinkRange_pages (P := P) (h.owned.held hc).toSpace hc (by omega) run
      rw [show (s'.heapEnd + 4095) / 4096 + ((s.heapEnd + 4095) / 4096 - (s'.heapEnd + 4095) / 4096) =
        (s.heapEnd + 4095) / 4096 by omega] at hg
      rw [shrink_done_iff h lt hret hg, range]
      simp only [mem_pages, and_imp]

/-- A call that meets the condition keeps the invariant. -/
theorem heapInv_sbrk (h : HeapInv P R c start s) (hc : P c = some pd) (hin : Within start s inc)
    (hok : Unmaps P c s inc) (hs : s.sbrk pd inc = some (ret, s')) : HeapInv P R c start s' := by
  have hbase : userMapBase = 0xC0000000 := rfl
  have hpdes : userPdes = 960 := rfl
  have hend := h.end_le
  have hdone := (sbrk_done_iff h hc hin hs).mpr hok
  obtain ⟨-, hcase, hbounds⟩ := sbrk_cases hin h.end_le hs
  unfold Unmaps at hok
  cases hcase with
  | nothing zero same =>
      subst same
      exact h
  | grows ne up lt range run =>
      obtain ⟨hlo, hhi⟩ := hbounds ne
      exact ⟨(growRange_spec h.owned hc run).1, hdone.filled, hlo, hhi⟩
  | shrinks ne down lt range run =>
      obtain ⟨hlo, hhi⟩ := hbounds ne
      rw [if_neg ne, if_neg down] at hok
      refine ⟨(shrinkRange_spec h.owned hc (fun v hv => ⟨?_, fun hmaps => hok v hv ?_⟩) run).1,
        hdone.filled, hlo, hhi⟩
      · rw [range, mem_pages] at hv
        omega
      · exact fun hno => hmaps (by rw [maps, hno]; rfl)

/-- **context_sbrk**: after any run of calls that met the condition, the next call does what it should
if and only if it meets the condition too. -/
theorem context_sbrk_iff {m : Mem} {incs : List (BitVec 32)} (ho : Owned P R 0 m) (hc : P c = some pd)
    (hrun : Run (HeapState.step pd) (fun s inc => Within start s inc ∧ Unmaps P c s inc) ⟨m, start⟩
      incs s)
    (hin : Within start s inc) (hs : s.sbrk pd inc = some (ret, s')) :
    SbrkDone P c start s ret s' ↔ Unmaps P c s inc := by
  have hstart : start ≤ userMapBase := by
    have hle := hin.1.trans hin.2
    omega
  have hinv : HeapInv P R c start s := hrun.invariant (fun t i t' ht hok hstep => by
    obtain ⟨⟨r, t₁⟩, ht₁, rfl⟩ := Option.map_eq_some_iff.mp hstep
    exact heapInv_sbrk ht hc hok.1 hok.2 ht₁) ⟨ho, fun a h₁ h₂ => absurd h₁ (by dsimp only at h₂; omega),
      le_rfl, hstart⟩
  exact sbrk_done_iff hinv hc hin hs

/-! ### A heap of one page -/

namespace World

theorem sbrk_of_step {w : World} {x : VmmContext} {e : Nat} (hx : w.contexts c = some x)
    (h : w.toKernel.step (.sbrk c inc) = some (ret, w.toKernel.setHeapEnd c x e m')) :
    HeapState.sbrk x.cr3 ⟨w.mem, x.heapEnd⟩ inc = some (ret, ⟨m', e⟩) := by
  rw [Kernel.step, hx, Option.bind_some] at h
  obtain ⟨⟨r, e₁, m₁⟩, hs, heq⟩ := Option.map_eq_some_iff.mp h
  obtain ⟨rfl, hk⟩ := Prod.mk.inj heq
  have hmem : m₁ = m' := congrArg Kernel.mem hk
  have hctx := congrArg (Kernel.contexts · c) hk
  rw [Kernel.setHeapEnd_contexts, Kernel.setHeapEnd_contexts] at hctx
  have hend : e₁ = e := congrArg VmmContext.heapEnd (Option.some.inj hctx)
  rw [HeapState.sbrk, hs, hmem, hend]
  rfl

/-- The heap of a new process grows by page `v` and shrinks again. -/
theorem sbrk_page (hv : v < userPdes * 1024) : ∃ w x s s',
    Run step StepOk (boot 16) [.create, .setHeapTop 0 (v * 4096)] w ∧ w.contexts 0 = some x ∧
      HeapState.sbrk x.cr3 ⟨w.mem, v * 4096⟩ 4096 = some (v * 4096, s) ∧
      s.heapEnd = v * 4096 + 4096 ∧ pages w.spaces w.mem 0 v = none ∧
      pages w.spaces s.mem 0 v ≠ none ∧
      s.sbrk x.cr3 (-4096) = some (v * 4096 + 4096, s') := by
  obtain ⟨w, x, hrun, hx, htop, hpages, -, hlook, hroom, -⟩ := process_starts (v * 4096)
  have hv' : v < 983040 := hv
  have htop : x.heapEnd = v * 4096 := by omega
  obtain ⟨f, m₁, m₂, ha, hm₂, -, -, hstep, hok⟩ :=
    sbrk_grows hx htop hv (hpages v) hlook (by omega)
  obtain ⟨-, hn⟩ := freshPage_spec (inv_run boot_boot hrun).owned (spaces_of hx) ha rfl
    (fun _ _ => rfl) hm₂
  have hpage : pages w.spaces m₂ 0 v = some (entry f (pageFlags (vmmUr ||| vmmUw))) := by
    rw [hn.mapped, if_pos ⟨⟨rfl, by omega⟩, by simp only [physBase]; omega⟩]
  obtain ⟨w₁, hw₁⟩ : ∃ w₁, w₁ = w.after (.sbrk 0 4096) x.heapEnd
    (w.toKernel.setHeapEnd 0 x (v * 4096 + 4096) m₂) := ⟨_, rfl⟩
  have hx₁ : w₁.contexts 0 = some { x with heapEnd := v * 4096 + 4096 } := by
    rw [hw₁]
    exact w.toKernel.setHeapEnd_contexts 0 x _ m₂
  have hmem₁ : w₁.mem = m₂ := by rw [hw₁]; rfl
  have hmaps : maps w₁.spaces w₁.mem 0 v = some f := by
    have hspaces : w₁.spaces = w.spaces := by
      rw [hw₁]
      exact spaces_setHeapEnd w.toKernel hx _ _
    rw [hspaces, hmem₁, maps, hpage, Option.map_some, hn.names]
  have hu : 0 < w₁.mem.pmm.users f := by rw [hmem₁, hn.users]; decide
  obtain ⟨m₃, hm₃⟩ := free_isSome hu
  obtain ⟨m₄, hm₄⟩ : ∃ m₄, vmmcUserUnmap m₃ x.cr3 (v * 4096) pageSize = some m₄ := by
    by_cases hlast : v % 1024 = 1023
    · exact ⟨_, userUnmap_last hv hlast⟩
    · exact ⟨_, userUnmap_one hv hlast⟩
  have hshrink : shrinkPage w₁.mem x.cr3 v = some m₄ :=
    shrinkPage_eq (x := ⟨x.cr3, v * 4096 + 4096⟩) hx₁ hmaps (fun b hb => by
      rw [hm₃] at hb
      cases hb
      exact hm₄) hu
  have hback := sbrk_of_step hx₁ (heap_shrinks hx₁ rfl hv' hshrink)
  have hgrow := sbrk_of_step hx hstep
  rw [htop] at hgrow
  refine ⟨w, x, ⟨m₂, v * 4096 + 4096⟩, ⟨m₄, v * 4096⟩, hrun, hx, hgrow, rfl, hpages v, ?_, ?_⟩
  · rw [hpage]
    exact fun h => by cases h
  · rw [hmem₁] at hback
    exact hback

theorem within_first {m : Mem} (hv : v < 786432) : Within (v * 4096) ⟨m, v * 4096⟩ 4096 := by
  have hinc : (sbrkInc 4096).toInt = 4096 := by decide
  unfold Within userMapBase
  dsimp only
  omega

/-- The first call meets the condition, where there is no page yet. -/
theorem unmaps_first {w : World} (hv : v < 786432) (hno : pages w.spaces w.mem 0 v = none) :
    Unmaps w.spaces 0 ⟨w.mem, v * 4096⟩ 4096 := by
  have hrange : growRange (v * 4096) 4096 = [v] := by
    rw [growRange, show (sbrkInc 4096).toNat = 4096 by decide, show ((v * 4096 + 4096) % 2 ^ 32 + 4095) %
      2 ^ 32 / 4096 - v * 4096 / 4096 = 1 by omega, show v * 4096 / 4096 = v by omega]
    rfl
  rw [Unmaps, if_neg (by decide), if_pos (by decide), hrange]
  intro u hu e he
  rw [List.mem_singleton.mp hu, hno] at he
  cases he

theorem within_page {s : HeapState} (hv : v < 786432) (hend : s.heapEnd = v * 4096 + 4096) :
    Within (v * 4096) s (-4096) := by
  have hinc : (sbrkInc (-4096)).toInt = -4096 := by decide
  unfold Within userMapBase
  omega

/-- A page with a page table of its own. -/
theorem context_sbrk_page : ∃ w x s s',
    Run step StepOk (boot 16) [.create, .setHeapTop 0 0x800000] w ∧ w.contexts 0 = some x ∧
      HeapState.sbrk x.cr3 ⟨w.mem, 0x800000⟩ 4096 = some (0x800000, s) ∧
      s.sbrk x.cr3 (-4096) = some (0x801000, s') ∧
      SbrkDone w.spaces 0 0x800000 s 0x801000 s' := by
  obtain ⟨w, x, s, s', hrun, hx, hgrow, hend, hno, -, hback⟩ := sbrk_page (v := 2048) (by decide)
  refine ⟨w, x, s, s', hrun, hx, hgrow, hback, ?_⟩
  have hfirst : Within 0x800000 ⟨w.mem, 0x800000⟩ 4096 ∧
      Unmaps w.spaces 0 ⟨w.mem, 0x800000⟩ 4096 :=
    ⟨within_first (v := 2048) (by decide), unmaps_first (by decide) hno⟩
  refine (context_sbrk_iff (inv_run boot_boot hrun).owned (spaces_of hx)
    (.one hfirst (congrArg (Option.map Prod.snd) hgrow)) (within_page (by decide) hend) hback).mpr ?_
  rw [Unmaps, if_neg (by decide), if_neg (by decide), hend, shrink_one (by decide) rfl]
  intro v hv _
  rw [List.mem_singleton.mp hv]
  decide

/-- The last page of a page table. -/
theorem sbrk_keeps_last_page : ∃ w x s s',
    Run step StepOk (boot 16) [.create, .setHeapTop 0 0x7FF000] w ∧ w.contexts 0 = some x ∧
      HeapState.sbrk x.cr3 ⟨w.mem, 0x7FF000⟩ 4096 = some (0x7FF000, s) ∧
      s.sbrk x.cr3 (-4096) = some (0x800000, s') ∧
      ¬ SbrkDone w.spaces 0 0x7FF000 s 0x800000 s' := by
  obtain ⟨w, x, s, s', hrun, hx, hgrow, hend, hno, hpage, hback⟩ := sbrk_page (v := 2047) (by decide)
  refine ⟨w, x, s, s', hrun, hx, hgrow, hback, fun hdone => ?_⟩
  have hinv : HeapInv w.spaces (shmRefs w.shm w.made) 0 0x7FF000 ⟨w.mem, 0x7FF000⟩ :=
    ⟨(inv_run boot_boot hrun).owned, fun a h₁ h₂ => absurd h₁ (by dsimp only at h₂; omega), le_rfl,
      (show 0x7FF000 ≤ userMapBase by decide)⟩
  have hmeets := (sbrk_done_iff (heapInv_sbrk hinv (spaces_of hx)
    (within_first (v := 2047) (by decide)) (unmaps_first (by decide) hno) hgrow)
    (spaces_of hx) (within_page (by decide) hend) hback).mp hdone
  rw [Unmaps, if_neg (by decide), if_neg (by decide), hend, shrink_one (by decide) rfl] at hmeets
  exact hmeets 2047 (List.mem_singleton_self _) hpage rfl

end World

end Muxomucota.Mmu
