import Muxomucota.Lib.Runs
import Muxomucota.Mmu.Vmem

/-!
# Mmu — the loops over one page table

What the inner loops of `vmmc_clone` and `vmmc_clear_user` do to a page table, to the counts and to
the flags: the loops run over the 1024 entries of a table, and for every frame the count changes by
the number of present entries that name it (`countIn`).
-/

namespace Muxomucota.Mmu
open Memory Pmm Lib

/-! ### Single operations -/

section ops

variable {m m' : Mem} {f : Nat}

theorem alloc_spec {f : Nat} (h : m.alloc = some (f, m')) :
    m'.ram = m.ram ∧ SameFrames m.pmm m'.pmm ∧ m.pmm.Tracked f ∧ m.pmm.users f = 0 ∧
      m.pmm.cow f = false ∧ (∀ g, m'.pmm.users g = if g = f then 1 else m.pmm.users g) ∧
      ∀ g, m'.pmm.cow g = m.pmm.cow g := by
  obtain ⟨⟨g, q⟩, hq, hr⟩ := Option.map_eq_some_iff.mp h
  simp only [Prod.mk.injEq] at hr
  obtain ⟨rfl, rfl⟩ := hr
  exact ⟨rfl, pmmAlloc_spec hq⟩

/-- An entry names every frame there is. -/
theorem tracked_lt (hsmall : m.pmm.memBase + m.pmm.memEntries ≤ 2 ^ 20) (h : m.pmm.Tracked f) :
    f < 2 ^ 20 :=
  Nat.lt_of_lt_of_le h.2 hsmall

theorem alloc_lt (hsmall : m.pmm.memBase + m.pmm.memEntries ≤ 2 ^ 20) (h : m.alloc = some (f, m')) :
    f < 2 ^ 20 :=
  tracked_lt hsmall (alloc_spec h).2.2.1

theorem free_spec (h : m.free f = some m') :
    m'.ram = m.ram ∧ SameFrames m.pmm m'.pmm ∧ 0 < m.pmm.users f ∧
      (∀ g, m'.pmm.users g = if g = f then m.pmm.users f - 1 else m.pmm.users g) ∧
      ∀ g, m'.pmm.cow g = m.pmm.cow g := by
  obtain ⟨q, hq, rfl⟩ := Option.map_eq_some_iff.mp h
  exact ⟨rfl, pmmFree_spec hq⟩

theorem use_spec (h : m.use f = some m') :
    m'.ram = m.ram ∧ SameFrames m.pmm m'.pmm ∧ 0 < m.pmm.users f ∧ m.pmm.users f < 127 ∧
      (∀ g, m'.pmm.users g = if g = f then m.pmm.users f + 1 else m.pmm.users g) ∧
      ∀ g, m'.pmm.cow g = m.pmm.cow g := by
  obtain ⟨q, hq, rfl⟩ := Option.map_eq_some_iff.mp h
  exact ⟨rfl, pmmUse_spec hq⟩

theorem markCow_spec {flag : Bool} (h : m.markCow f flag = some m') :
    m'.ram = m.ram ∧ SameFrames m.pmm m'.pmm ∧ 0 < m.pmm.users f ∧
      (∀ g, m'.pmm.users g = m.pmm.users g) ∧
      ∀ g, m'.pmm.cow g = if g = f then flag else m.pmm.cow g := by
  obtain ⟨q, hq, rfl⟩ := Option.map_eq_some_iff.mp h
  exact ⟨rfl, pmmMarkCow_spec hq⟩

theorem alloc_lookOk (hl : LookOk m.pmm) (h : m.alloc = some (f, m')) : LookOk m'.pmm := by
  obtain ⟨⟨g, q⟩, hq, hr⟩ := Option.map_eq_some_iff.mp h
  simp only [Prod.mk.injEq] at hr
  obtain ⟨rfl, rfl⟩ := hr
  exact pmmAlloc_lookOk hl hq

theorem use_lookOk (hl : LookOk m.pmm) (h : m.use f = some m') : LookOk m'.pmm := by
  obtain ⟨q, hq, rfl⟩ := Option.map_eq_some_iff.mp h
  exact pmmUse_lookOk hl hq

theorem markCow_lookOk {flag : Bool} (hl : LookOk m.pmm) (h : m.markCow f flag = some m') :
    LookOk m'.pmm := by
  obtain ⟨q, hq, rfl⟩ := Option.map_eq_some_iff.mp h
  exact pmmMarkCow_lookOk hl hq

theorem free_lookOk (hl : LookOk m.pmm) (h : m.free f = some m') : LookOk m'.pmm := by
  obtain ⟨q, hq, rfl⟩ := Option.map_eq_some_iff.mp h
  exact pmmFree_lookOk hl hq

theorem alloc_isSome (hl : LookOk m.pmm) (h : 0 < freeFrames m.pmm) : ∃ f m', m.alloc = some (f, m') := by
  obtain ⟨f, q, hq⟩ := pmmAlloc_isSome hl h
  exact ⟨f, { m with pmm := q }, by simp [Mem.alloc, hq]⟩

theorem alloc_freeFrames (h : m.alloc = some (f, m')) :
    freeFrames m'.pmm + 1 = freeFrames m.pmm := by
  obtain ⟨⟨g, q⟩, hq, hr⟩ := Option.map_eq_some_iff.mp h
  simp only [Prod.mk.injEq] at hr
  obtain ⟨rfl, rfl⟩ := hr
  exact pmmAlloc_freeFrames hq

theorem lookOk_boot (n : Nat) : LookOk (Mem.boot n).pmm := by
  intro f _ hlt
  exact absurd hlt (by simp [Mem.boot])

theorem use_isSome (h : 0 < m.pmm.users f) (h' : m.pmm.users f < 127) : ∃ m', m.use f = some m' := by
  obtain ⟨q, hq⟩ := pmmUse_isSome h h'
  exact ⟨{ m with pmm := q }, by simp [Mem.use, hq]⟩

theorem use_freeFrames (h : m.use f = some m') : freeFrames m'.pmm = freeFrames m.pmm := by
  obtain ⟨-, hs, hpos, -, hu, hcow⟩ := use_spec h
  refine freeFrames_congr hs fun g => ?_
  rw [bitmap_zero_iff, bitmap_zero_iff, hu, hcow]
  split
  · rename_i hg
    rw [hg]
    constructor <;> intro h' <;> omega
  · rfl

theorem markCow_freeFrames {flag : Bool} (h : m.markCow f flag = some m') :
    freeFrames m'.pmm = freeFrames m.pmm := by
  obtain ⟨-, hs, hpos, hu, hcow⟩ := markCow_spec h
  refine freeFrames_congr hs fun g => ?_
  rw [bitmap_zero_iff, bitmap_zero_iff, hu, hcow]
  split
  · rename_i hg
    rw [hg]
    constructor <;> intro h' <;> omega
  · rfl

/-- Giving up one of several references. -/
theorem free_freeFrames (h : m.free f = some m') (hshared : 1 < m.pmm.users f) :
    freeFrames m'.pmm = freeFrames m.pmm := by
  obtain ⟨-, hs, -, hu, hcow⟩ := free_spec h
  refine freeFrames_congr hs fun g => ?_
  rw [bitmap_zero_iff, bitmap_zero_iff, hu, hcow]
  split
  · rename_i hg
    rw [hg]
    constructor <;> intro h' <;> omega
  · rfl

theorem free_isSome (h : 0 < m.pmm.users f) : ∃ m', m.free f = some m' := by
  obtain ⟨q, hq⟩ := pmmFree_isSome h
  exact ⟨{ m with pmm := q }, by simp [Mem.free, hq]⟩

end ops

@[simp] theorem setEntry_pmm (m : Mem) (f i : Nat) (w : BitVec 32) :
    (m.setEntry f i w).pmm = m.pmm := rfl

@[simp] theorem fillWords_pmm (m : Mem) (f : Nat) (w : BitVec 32) :
    (m.fillWords f w).pmm = m.pmm := by
  rw [Mem.fillWords]

@[simp] theorem copyFrame_pmm (m : Mem) (f g : Nat) : (m.copyFrame f g).pmm = m.pmm := rfl

@[simp] theorem fillFrame_pmm (m : Mem) (f : Nat) (b : BitVec 8) : (m.fillFrame f b).pmm = m.pmm :=
  rfl

theorem entry_setEntry (m : Mem) (f i g j : Nat) (w : BitVec 32) :
    (m.setEntry f i w).entry g j = if g = f ∧ j = i then w else m.entry g j :=
  Ram.entry_setWord ..

theorem setEntry_ram (m : Mem) {f g : Nat} (i : Nat) (w : BitVec 32) (h : g ≠ f) :
    (m.setEntry f i w).ram g = m.ram g :=
  Ram.setWord_frame _ _ _ h

theorem entry_congr {m m' : Mem} {f : Nat} (h : m'.ram f = m.ram f) (i : Nat) :
    m'.entry f i = m.entry f i :=
  Ram.word_congr h _

/-! ### Counting in a table -/

/-- Entry `i` of the table in `t` is present and names `f`. -/
def Names (m : Mem) (t f i : Nat) : Bool := isPr (m.entry t i) && frameOf (m.entry t i) == f

/-- How many of the first `n` entries of the table in `t` name `f`. -/
def countTo (m : Mem) (t f n : Nat) : Nat := (List.range n).countP (Names m t f)

/-- How many entries of the table in `t` name `f`. -/
def countIn (m : Mem) (t f : Nat) : Nat := countTo m t f 1024

@[simp] theorem countTo_zero (m : Mem) (t f : Nat) : countTo m t f 0 = 0 := rfl

theorem countTo_succ (m : Mem) (t f n : Nat) :
    countTo m t f (n + 1) = countTo m t f n + if Names m t f n then 1 else 0 := by
  simp [countTo, List.range_succ, List.countP_append, List.countP_cons]

theorem countTo_mono (m : Mem) (t f : Nat) {n k : Nat} (h : n ≤ k) :
    countTo m t f n ≤ countTo m t f k := by
  induction h with
  | refl => exact le_rfl
  | step _ ih => rw [countTo_succ]; omega

theorem countIn_pos_iff (m : Mem) (t f : Nat) :
    0 < countIn m t f ↔ ∃ i < 1024, isPr (m.entry t i) = true ∧ frameOf (m.entry t i) = f := by
  simp [countIn, countTo, List.countP_pos_iff, Names]

theorem countTo_congr {m m' : Mem} {t t' : Nat} (f : Nat) {n : Nat}
    (h : ∀ i < n, Names m' t' f i = Names m t f i) : countTo m' t' f n = countTo m t f n :=
  List.countP_congr fun i hi => by rw [h i (List.mem_range.mp hi)]

/-! ### `vmmc_clear_user`, one table -/

/-- The loop takes one user from a frame for each entry that names it. -/
theorem clearTable_spec {m m' : Mem} {t : Nat} (h : clearTable m t = some m') :
    m'.ram = m.ram ∧ SameFrames m.pmm m'.pmm ∧
      (∀ f, m'.pmm.users f + countIn m t f = m.pmm.users f) ∧ ∀ f, m'.pmm.cow f = m.pmm.cow f := by
  unfold clearTable at h
  unfold countIn
  refine foldlM_range_rule (P := fun i (b : Mem) => b.ram = m.ram ∧ SameFrames m.pmm b.pmm ∧
    (∀ f, b.pmm.users f + countTo m t f i = m.pmm.users f) ∧ ∀ f, b.pmm.cow f = m.pmm.cow f) h
    ⟨rfl, .refl _, fun f => by simp, fun _ => rfl⟩ ?_
  rintro i b b' - ⟨hram, hs, hu, hc⟩ hb
  have he : b.entry t i = m.entry t i := entry_congr (congrFun hram t) i
  rw [he] at hb
  split at hb
  · rename_i hpr
    obtain ⟨hram', hs', hpos, hu', hc'⟩ := free_spec hb
    refine ⟨hram'.trans hram, hs.trans hs', fun f => ?_, fun f => (hc' f).trans (hc f)⟩
    have h₁ := hu f
    have h₂ := hu (frameOf (m.entry t i))
    rw [countTo_succ, hu', Names, hpr, Bool.true_and]
    by_cases hf : f = frameOf (m.entry t i)
    · subst hf; simp; omega
    · simp [hf, Ne.symm hf, h₁]
  · rename_i hpr
    cases hb
    refine ⟨hram, hs, fun f => ?_, hc⟩
    rw [countTo_succ, Names]
    simp [hpr, hu f]

/-- The loop ends if every frame has a user for each entry that names it. -/
theorem clearTable_isSome {m : Mem} {t : Nat} (h : ∀ f, countIn m t f ≤ m.pmm.users f) :
    ∃ m', clearTable m t = some m' := by
  refine (foldlM_range_total
    (P := fun i (b : Mem) => b.ram = m.ram ∧ ∀ f, b.pmm.users f + countTo m t f i = m.pmm.users f)
    (f := fun m pti => if isPr (m.entry t pti) then m.free (frameOf (m.entry t pti)) else some m)
    (n := 1024) (b := m) ⟨rfl, fun f => by simp⟩ ?_).imp fun _ h => h.1
  rintro i b hi ⟨hram, hu⟩
  have he : b.entry t i = m.entry t i := entry_congr (congrFun hram t) i
  simp only [he]
  split
  · rename_i hpr
    -- the count still to come covers this entry
    have hpos : 0 < b.pmm.users (frameOf (m.entry t i)) := by
      have h₁ := hu (frameOf (m.entry t i))
      have h₂ := h (frameOf (m.entry t i))
      have h₃ := countTo_mono m t (frameOf (m.entry t i)) (show i + 1 ≤ 1024 by omega)
      rw [countTo_succ, Names, hpr] at h₃
      simp only [Bool.true_and, beq_self_eq_true, ite_true] at h₃
      unfold countIn at h₂
      omega
    obtain ⟨q, hq⟩ := pmmFree_isSome hpos
    obtain ⟨-, -, hu', -⟩ := pmmFree_spec hq
    refine ⟨{ b with pmm := q }, by simp [Mem.free, hq], hram, fun f => ?_⟩
    have h₁ := hu f
    rw [countTo_succ, hu', Names, hpr, Bool.true_and]
    by_cases hf : f = frameOf (m.entry t i)
    · subst hf; simp; omega
    · simp [hf, Ne.symm hf, h₁]
  · rename_i hpr
    refine ⟨b, rfl, hram, fun f => ?_⟩
    rw [countTo_succ, Names]
    simp [hpr, hu f]

/-! ### `vmmc_clone`, one table -/

/-- What the loop leaves in the parent's table. -/
def frozen (w : BitVec 32) : BitVec 32 := if isPr w then w &&& ~~~mapRw else w

/-- What the loop writes to the child's table. -/
def cloned (w : BitVec 32) : BitVec 32 :=
  if isPr w then entry (frameOf w) (mapPr ||| mapUs) else w

@[simp] theorem isPr_frozen (w : BitVec 32) : isPr (frozen w) = isPr w := by
  unfold frozen; split <;> simp

@[simp] theorem frameOf_frozen (w : BitVec 32) : frameOf (frozen w) = frameOf w := by
  unfold frozen; split <;> simp

@[simp] theorem isUs_frozen (w : BitVec 32) : isUs (frozen w) = isUs w := by
  unfold frozen; split <;> simp

@[simp] theorem isPr_cloned (w : BitVec 32) : isPr (cloned w) = isPr w := by
  unfold cloned; split <;> simp_all

theorem isRw_frozen {w : BitVec 32} (h : isPr w = true) : isRw (frozen w) = false := by
  simp [frozen, h]

theorem isRw_cloned {w : BitVec 32} (h : isPr w = true) : isRw (cloned w) = false := by
  simp [cloned, h]

@[simp] theorem frameOf_cloned (w : BitVec 32) : frameOf (cloned w) = frameOf w := by
  unfold cloned
  split
  · exact frameOf_entry (frameOf_lt w) (by decide)
  · rfl

/-- The state of the clone loop after the first `i` entries. -/
structure CloneLoop (m : Mem) (spt npt i : Nat) (b : Mem) : Prop where
  frames : SameFrames m.pmm b.pmm
  child : ∀ j < i, b.entry npt j = cloned (m.entry spt j)
  done : ∀ j < i, b.entry spt j = frozen (m.entry spt j)
  todo : ∀ j, i ≤ j → b.entry spt j = m.entry spt j
  ram : ∀ F, F ≠ spt → F ≠ npt → b.ram F = m.ram F
  users : ∀ f, b.pmm.users f = m.pmm.users f + countTo m spt f i
  cow : ∀ f, b.pmm.cow f = (m.pmm.cow f || decide (0 < countTo m spt f i))
  inUse : ∀ f, 0 < countTo m spt f i → 0 < m.pmm.users f
  look : LookOk m.pmm → LookOk b.pmm

/-- A present entry: the frame gets a user and the flag, both tables get read-only entries. -/
theorem cloneLoop_present {m b : Mem} {p : Pmm} {spt npt i : Nat} (hne : spt ≠ npt)
    (hl : CloneLoop m spt npt i b) (hpr : isPr (m.entry spt i) = true)
    (hs : SameFrames b.pmm p)
    (hu : ∀ g, p.users g = if g = frameOf (m.entry spt i) then
      b.pmm.users (frameOf (m.entry spt i)) + 1 else b.pmm.users g)
    (hc : ∀ g, p.cow g = if g = frameOf (m.entry spt i) then true else b.pmm.cow g)
    (hpos : 0 < b.pmm.users (frameOf (m.entry spt i))) (hlook : LookOk b.pmm → LookOk p) :
    CloneLoop m spt npt (i + 1)
      ((({ b with pmm := p } : Mem).setEntry spt i (frozen (m.entry spt i))).setEntry npt i
        (cloned (m.entry spt i))) := by
  have hname : ∀ f, Names m spt f i = decide (f = frameOf (m.entry spt i)) := by
    intro f
    rw [Names, hpr, Bool.true_and, Bool.eq_iff_iff, beq_iff_eq, decide_eq_true_iff, eq_comm]
  constructor
  · exact hl.frames.trans hs
  · intro j hj
    rw [entry_setEntry, entry_setEntry]
    by_cases hji : j = i
    · simp [hji]
    · rw [if_neg fun h => hji h.2, if_neg fun h => hji h.2]
      exact hl.child j (by omega)
  · intro j hj
    rw [entry_setEntry, if_neg fun h => hne h.1, entry_setEntry]
    by_cases hji : j = i
    · simp [hji]
    · rw [if_neg fun h => hji h.2]
      exact hl.done j (by omega)
  · intro j hj
    rw [entry_setEntry, if_neg fun h => hne h.1, entry_setEntry, if_neg (by omega)]
    exact hl.todo j (by omega)
  · intro F h₁ h₂
    rw [setEntry_ram _ _ _ h₂, setEntry_ram _ _ _ h₁]
    exact hl.ram F h₁ h₂
  · intro f
    rw [countTo_succ, hname]
    simp only [setEntry_pmm, hu]
    by_cases hf : f = frameOf (m.entry spt i)
    · subst hf; simp [hl.users]; omega
    · simp [hf, hl.users]
  · intro f
    rw [countTo_succ, hname]
    simp only [setEntry_pmm, hc]
    by_cases hf : f = frameOf (m.entry spt i)
    · subst hf; simp
    · simp [hf, hl.cow]
  · intro f
    rw [countTo_succ, hname]
    intro hf
    by_cases hf' : f = frameOf (m.entry spt i)
    · subst hf'
      have h₁ := hl.users (frameOf (m.entry spt i))
      have h₂ := hl.inUse (frameOf (m.entry spt i))
      omega
    · exact hl.inUse f (by simpa [hf'] using hf)
  · exact fun h => hlook (hl.look h)

/-- An entry that is not present is copied as it is. -/
theorem cloneLoop_absent {m b : Mem} {spt npt i : Nat} (hne : spt ≠ npt)
    (hl : CloneLoop m spt npt i b) (hpr : isPr (m.entry spt i) = false) :
    CloneLoop m spt npt (i + 1) (b.setEntry npt i (m.entry spt i)) := by
  have hcount : ∀ f, countTo m spt f (i + 1) = countTo m spt f i := by
    intro f; rw [countTo_succ, Names, hpr]; simp
  constructor
  · exact hl.frames
  · intro j hj
    rw [entry_setEntry]
    by_cases hji : j = i
    · simp [hji, cloned, hpr]
    · rw [if_neg fun h => hji h.2]; exact hl.child j (by omega)
  · intro j hj
    rw [entry_setEntry, if_neg fun h => hne h.1]
    by_cases hji : j = i
    · rw [hji, hl.todo i le_rfl]; simp [frozen, hpr]
    · exact hl.done j (by omega)
  · intro j hj
    rw [entry_setEntry, if_neg fun h => hne h.1]
    exact hl.todo j (by omega)
  · intro F h₁ h₂
    rw [setEntry_ram _ _ _ h₂]; exact hl.ram F h₁ h₂
  · intro f; rw [hcount]; exact hl.users f
  · intro f; rw [hcount]; exact hl.cow f
  · intro f; rw [hcount]; exact hl.inUse f
  · exact hl.look

theorem cloneLoop_zero (m : Mem) (spt npt : Nat) : CloneLoop m spt npt 0 m :=
  ⟨.refl _, by simp, by simp, fun _ _ => rfl, fun _ _ _ => rfl, fun f => by simp, fun f => by simp,
    fun f => by simp, id⟩

theorem cloneEntry_step {m b b' : Mem} {spt npt i : Nat} (hne : spt ≠ npt)
    (hl : CloneLoop m spt npt i b) (h : cloneEntry spt npt b i = some b') :
    CloneLoop m spt npt (i + 1) b' := by
  unfold cloneEntry at h
  simp only [hl.todo i le_rfl] at h
  split at h
  · rename_i hpr
    cases h
    exact cloneLoop_absent hne hl (by simpa using hpr)
  · rename_i hpr
    have hpr : isPr (m.entry spt i) = true := by simpa using hpr
    obtain ⟨b₁, h₁, h⟩ := Option.bind_eq_some_iff.mp h
    obtain ⟨b₂, h₂, rfl⟩ := Option.map_eq_some_iff.mp h
    obtain ⟨hr₁, hs₁, hpos, -, hu₁, hc₁⟩ := use_spec h₁
    obtain ⟨hr₂, hs₂, -, hu₂, hc₂⟩ := markCow_spec h₂
    have he : b₂.entry spt i = m.entry spt i := by
      rw [entry_congr (congrFun (hr₂.trans hr₁) spt), hl.todo i le_rfl]
    have hb₂ : b₂ = { b with pmm := b₂.pmm } := by
      cases b₂; simp only [Mem.mk.injEq]; exact ⟨trivial, hr₂.trans hr₁⟩
    simp only [entry_setEntry, he, and_self, ite_true, frameOf_and_not_mapRw]
    have hfro : m.entry spt i &&& ~~~mapRw = frozen (m.entry spt i) := by simp [frozen, hpr]
    have hclo : entry (frameOf (m.entry spt i)) (mapPr ||| mapUs) = cloned (m.entry spt i) := by
      simp [cloned, hpr]
    rw [hfro, hclo, hb₂]
    exact cloneLoop_present hne hl hpr (hs₁.trans hs₂) (fun g => by rw [hu₂, hu₁])
      (fun g => by rw [hc₂, hc₁]) hpos fun h => markCow_lookOk (use_lookOk h h₁) h₂

/-- The clone loop over a whole table. -/
theorem cloneTable_spec {m m' : Mem} {spt npt : Nat} (hne : spt ≠ npt)
    (h : (List.range 1024).foldlM (cloneEntry spt npt) m = some m') :
    CloneLoop m spt npt 1024 m' :=
  foldlM_range_rule (P := CloneLoop m spt npt) h
    (cloneLoop_zero ..) fun _ _ _ _ hl hb => cloneEntry_step hne hl hb

/-- The clone loop uses no free frame. -/
theorem CloneLoop.room {m b : Mem} {spt npt i : Nat} (hl : CloneLoop m spt npt i b) :
    freeFrames b.pmm = freeFrames m.pmm := by
  refine freeFrames_congr hl.frames fun g => ?_
  have h₁ := hl.users g
  have h₂ := hl.inUse g
  rw [bitmap_zero_iff, bitmap_zero_iff, hl.cow]
  rcases Nat.eq_zero_or_pos (countTo m spt g i) with h₀ | h₀
  · simp [h₀, h₁]
  · have := h₂ h₀
    constructor <;> intro h <;> omega

/-- The clone loop ends if every frame it meets is in use and its count stays in seven bits. -/
theorem cloneTable_isSome {m : Mem} {spt npt : Nat} (hne : spt ≠ npt)
    (hpos : ∀ f, 0 < countIn m spt f → 0 < m.pmm.users f)
    (hmax : ∀ f, 0 < countIn m spt f → m.pmm.users f + countIn m spt f ≤ 127) :
    ∃ m', (List.range 1024).foldlM (cloneEntry spt npt) m = some m' := by
  refine (foldlM_range_total (P := CloneLoop m spt npt) (f := cloneEntry spt npt) (n := 1024) (b := m)
    (cloneLoop_zero ..) ?_).imp fun _ h => h.1
  intro i b hi hl
  suffices ∃ b', cloneEntry spt npt b i = some b' by
    obtain ⟨b', hb'⟩ := this
    exact ⟨b', hb', cloneEntry_step hne hl hb'⟩
  unfold cloneEntry
  simp only [hl.todo i le_rfl]
  split
  · exact ⟨_, rfl⟩
  · rename_i hpr
    have hpr : isPr (m.entry spt i) = true := by simpa using hpr
    have hcount : 0 < countIn m spt (frameOf (m.entry spt i)) :=
      (countIn_pos_iff ..).mpr ⟨i, hi, hpr, rfl⟩
    have hlt : countTo m spt (frameOf (m.entry spt i)) i < countIn m spt (frameOf (m.entry spt i)) := by
      have := countTo_mono m spt (frameOf (m.entry spt i)) (show i + 1 ≤ 1024 by omega)
      rw [countTo_succ, Names, hpr] at this
      simp only [Bool.true_and, beq_self_eq_true, ite_true] at this
      unfold countIn
      omega
    have h₁ := hpos _ hcount
    have h₂ := hmax _ hcount
    have h₃ := hl.users (frameOf (m.entry spt i))
    obtain ⟨q, hq⟩ := pmmUse_isSome (p := b.pmm) (f := frameOf (m.entry spt i)) (by omega) (by omega)
    have hqu : 0 < q.users (frameOf (m.entry spt i)) := by
      rw [(pmmUse_spec hq).2.2.2.1, if_pos rfl]; omega
    obtain ⟨r, hr⟩ := pmmMarkCow_isSome true hqu
    simp [Mem.use, Mem.markCow, hq, hr]

end Muxomucota.Mmu
