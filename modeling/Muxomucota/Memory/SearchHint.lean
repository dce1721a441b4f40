import Muxomucota.Memory.AllocAdvanced

/-!
# Memory — where `pmm_alloc` begins to search

`look_from_here` over whole runs of the physical memory manager.  It is never above a free frame
(`LookOk`), so `pmm_alloc` finds the lowest one.
-/

namespace Muxomucota.Memory
open Pmm Lib

/-- The calls that change the bitmap. -/
inductive PmmOp where
  | call (c : PmmCall)
  | allocAdvanced (length maxAddr alignment : Nat)

/-- One call; `none` where an assertion fails. -/
def Pmm.step (p : Pmm) : PmmOp → Option Pmm
  | .call c => p.call c
  | .allocAdvanced length maxAddr alignment =>
      some (pmmAllocAdvanced p length maxAddr alignment).2.1

/-- `pmm_alloc` gives the lowest free frame and changes its entry alone, and there is none where it
gives none. -/
structure AllocLowest (p : Pmm) : Prop where
  found : ∀ f q, pmmAlloc p = some (f, q) → p.Tracked f ∧ p.bitmap f = 0 ∧
    (∀ g, p.Tracked g → g < f → p.bitmap g ≠ 0) ∧ q.bitmap = Function.update p.bitmap f 1
  exhausted : pmmAlloc p = none → ∀ g, p.Tracked g → p.bitmap g ≠ 0

variable {p q : Pmm} {op : PmmOp} {ops : List PmmOp}

/-- The contiguous search only takes free entries. -/
theorem allocAdvanced_cases (p : Pmm) (length maxAddr alignment : Nat) :
    (pmmAllocAdvanced p length maxAddr alignment).2.1 = p ∨
      ∃ i, (pmmAllocAdvanced p length maxAddr alignment).2.1 = claimed p i (rowFrames length) := by
  by_cases hpos : 0 < length
  · have hs := @allocAdvanced_searched p length maxAddr alignment hpos
    rcases first_fit p (rowFrames length) (2 ^ alignment - 1) p.lookFromHere (p.lookFromHere +
        ((searchEnd p (rowFrames length) maxAddr).toNat - p.lookFromHere)) with
      ⟨i, hlook, hstop, hfirst, hfits⟩ | hnone
    · exact .inr ⟨i, (hs.found i hlook hstop hfirst hfits).2⟩
    · exact .inl (hs.absent hnone).2
  · rw [pmmAllocAdvanced, if_pos (by omega)]
    exact .inl rfl

theorem allocAdvanced_lookOk (hl : LookOk p) (length maxAddr alignment : Nat) :
    LookOk (pmmAllocAdvanced p length maxAddr alignment).2.1 := by
  rcases allocAdvanced_cases p length maxAddr alignment with heq | ⟨i, heq⟩
  · rw [heq]
    exact hl
  · rw [heq]
    refine hl.of_users ⟨rfl, rfl⟩ rfl fun g hg => ?_
    unfold claimed
    dsimp only
    split
    · decide
    · exact hg

theorem step_lookOk (hl : LookOk p) (h : p.step op = some q) : LookOk q := by
  cases op with
  | call c => exact call_lookOk hl h
  | allocAdvanced length maxAddr alignment =>
      cases h
      exact allocAdvanced_lookOk hl length maxAddr alignment

theorem lookOk_zero (h : p.lookFromHere = 0) : LookOk p := by
  rintro f ⟨hlo, -⟩ hlt
  omega

theorem run_lookOk (hl : LookOk p) (h : ops.foldlM Pmm.step p = some q) : LookOk q :=
  foldlM_rule (P := fun _ p => LookOk p) h hl fun _ _ _ _ _ _ hp hstep => step_lookOk hp hstep

/-- With a right hint the first free frame behind it is the lowest. -/
theorem allocLowest_of_lookOk (hl : LookOk p) : AllocLowest p := by
  constructor
  · intro f q h
    obtain ⟨-, htracked, hu, hc, -⟩ := pmmAlloc_spec h
    unfold pmmAlloc at h
    cases hi : p.firstFree with
    | none =>
        rw [hi] at h
        cases h
    | some i =>
        rw [hi] at h
        obtain ⟨rfl, rfl⟩ := Prod.mk.inj (Option.some.inj h)
        obtain ⟨hlook, -, hfree, hmin⟩ := firstFree_some hi
        refine ⟨htracked, hfree, fun g hg hlt => ?_, ?_⟩
        · by_cases hbelow : g < p.memBase + p.lookFromHere
          · exact hl g hg hbelow
          · have hne := hmin (g - p.memBase) (by omega) (by omega)
            rwa [show p.memBase + (g - p.memBase) = g by have := hg.1; omega] at hne
        · show Function.update p.bitmap (p.memBase + i) (p.bitmap (p.memBase + i) + 1) = _
          rw [hfree]
          rfl
  · intro h g hg hfree
    obtain ⟨i, hi, -⟩ := firstFree_isSome hl hg hfree
    rw [pmmAlloc, hi] at h
    cases h

/-- **The search hint**: after every run of calls no frame below `look_from_here` is free, and
`pmm_alloc` gives the lowest free frame. -/
theorem pmm_hint (h₀ : p.lookFromHere = 0) (h : ops.foldlM Pmm.step p = some q) :
    LookOk q ∧ AllocLowest q := by
  have hl := run_lookOk (lookOk_zero h₀) h
  exact ⟨hl, allocLowest_of_lookOk hl⟩

/-- Two frames are taken, the first is given back, and a contiguous pair is taken. -/
theorem pmm_hint_mixed : ∃ q, [PmmOp.call .alloc, .call .alloc, .call (.use 257), .call (.free 256),
      .allocAdvanced 8192 0xFFFFFFFF 12, .call (.markCow 257 true)].foldlM Pmm.step eightFree = some q ∧
    LookOk q ∧ AllocLowest q := by
  have hrun : ([PmmOp.call .alloc, .call .alloc, .call (.use 257), .call (.free 256),
      .allocAdvanced 8192 0xFFFFFFFF 12, .call (.markCow 257 true)].foldlM Pmm.step
        eightFree).isSome = true := by decide
  obtain ⟨q, hq⟩ := Option.isSome_iff_exists.mp hrun
  exact ⟨q, hq, pmm_hint rfl hq⟩

end Muxomucota.Memory
