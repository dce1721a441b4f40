import Mathlib.Data.List.Range
import Mathlib.Tactic
import Muxomucota.Lib.Runs

/-!
# Memory — the physical memory manager

`pmm.c` keeps one byte for every page frame from `mem_base` on: seven bits of user count and the
copy-on-write flag.  A frame is named by its physical frame number; `bitmap f` is the source's
`bitmap[(paddr - mem_base) >> PAGE_SHIFT]` for the frame `f` at `paddr`.  A failed `kassert` halts
the kernel, so an operation whose assertion fails is `none`.

What each operation does to the two parts of the byte, `users` and `cow`, is stated once here
(`pmmAlloc_spec` to `pmmMarkCow_spec`); everything above uses these and never looks at bytes.
-/

namespace Muxomucota.Memory

/-- `BITMAP_COW_FLAG`. -/
def bitmapCowFlag : BitVec 8 := 1 <<< 7

/-- `BITMAP_USERS`. -/
def bitmapUsers : BitVec 8 := 0xFF &&& ~~~bitmapCowFlag

/-- The variables of `pmm.c`; `memBase` is the number of the frame at `mem_base`. -/
structure Pmm where
  memBase : Nat
  memEntries : Nat
  bitmap : Nat → BitVec 8
  lookFromHere : Nat

namespace Pmm

/-- `f` has an entry in the bitmap. -/
def Tracked (p : Pmm) (f : Nat) : Prop := p.memBase ≤ f ∧ f < p.memBase + p.memEntries

instance (p : Pmm) (f : Nat) : Decidable (p.Tracked f) := by unfold Tracked; infer_instance

/-- The user count of a frame. -/
def users (p : Pmm) (f : Nat) : Nat := (p.bitmap f &&& bitmapUsers).toNat

/-- The copy-on-write flag of a frame. -/
def cow (p : Pmm) (f : Nat) : Bool := p.bitmap f &&& bitmapCowFlag != 0

/-- The entry of `f` becomes `b`. -/
def setEntry (p : Pmm) (f : Nat) (b : BitVec 8) : Pmm :=
  { p with bitmap := Function.update p.bitmap f b }

/-- The search of `pmm_alloc`: the first free entry from `look_from_here` on. -/
def firstFree (p : Pmm) : Option Nat :=
  (List.range' p.lookFromHere (p.memEntries - p.lookFromHere)).find?
    fun i => p.bitmap (p.memBase + i) == 0

end Pmm

open Pmm

/-- `pmm_alloc`; `none` is "physical memory exhausted". -/
def pmmAlloc (p : Pmm) : Option (Nat × Pmm) :=
  match p.firstFree with
  | none   => none
  | some i =>
      let f := p.memBase + i
      some (f, { p.setEntry f (p.bitmap f + 1) with lookFromHere := i })

/-- `pmm_free`. -/
def pmmFree (p : Pmm) (f : Nat) : Option Pmm :=
  if p.bitmap f &&& bitmapUsers = 0 then none
  else
    let b := p.bitmap f - 1
    let base := f - p.memBase
    let q := p.setEntry f b
    if b = 0 ∧ p.lookFromHere > base then some { q with lookFromHere := base } else some q

/-- `pmm_use`. -/
def pmmUse (p : Pmm) (f : Nat) : Option Pmm :=
  if p.bitmap f &&& bitmapUsers = 0 then none
  else if ¬ p.bitmap f &&& bitmapUsers < bitmapUsers then none
  else some (p.setEntry f (p.bitmap f + 1))

/-- `pmm_user_count`. -/
def pmmUserCount (p : Pmm) (f : Nat) : Nat := p.users f

/-- `pmm_alloced`. -/
def pmmAlloced (p : Pmm) (f : Nat) : Bool :=
  pmmUserCount p f != 0 && decide (pmmUserCount p f < bitmapUsers.toNat)

/-- `pmm_mark_cow`. -/
def pmmMarkCow (p : Pmm) (f : Nat) (flag : Bool) : Option Pmm :=
  if p.bitmap f &&& bitmapUsers = 0 then none
  else if flag then some (p.setEntry f (p.bitmap f ||| bitmapCowFlag))
  else some (p.setEntry f (p.bitmap f &&& ~~~bitmapCowFlag))

/-- `pmm_is_cow`. -/
def pmmIsCow (p : Pmm) (f : Nat) : Option Bool :=
  if p.bitmap f &&& bitmapUsers = 0 then none else some (p.cow f)

/-- The calls about a single frame that change the bitmap. -/
inductive PmmCall where
  | alloc
  | use (f : Nat)
  | free (f : Nat)
  | markCow (f : Nat) (flag : Bool)

/-- One call; `none` if there is no frame, or an assertion fails. -/
def Pmm.call (p : Pmm) : PmmCall → Option Pmm
  | .alloc => (pmmAlloc p).map Prod.snd
  | .use f => pmmUse p f
  | .free f => pmmFree p f
  | .markCow f flag => pmmMarkCow p f flag

/-! ### The two parts of a byte -/

theorem byte_zero_iff : ∀ b : BitVec 8,
    b = 0 ↔ (b &&& bitmapUsers).toNat = 0 ∧ (b &&& bitmapCowFlag != 0) = false := by
  decide +kernel

theorem byte_dec : ∀ b : BitVec 8, b &&& bitmapUsers ≠ 0 →
    ((b - 1) &&& bitmapUsers).toNat = (b &&& bitmapUsers).toNat - 1 ∧
      ((b - 1) &&& bitmapCowFlag != 0) = (b &&& bitmapCowFlag != 0) := by
  decide +kernel

theorem byte_inc : ∀ b : BitVec 8, b &&& bitmapUsers < bitmapUsers →
    ((b + 1) &&& bitmapUsers).toNat = (b &&& bitmapUsers).toNat + 1 ∧
      ((b + 1) &&& bitmapCowFlag != 0) = (b &&& bitmapCowFlag != 0) := by
  decide +kernel

theorem byte_mark : ∀ b : BitVec 8,
    ((b ||| bitmapCowFlag) &&& bitmapUsers).toNat = (b &&& bitmapUsers).toNat ∧
      ((b ||| bitmapCowFlag) &&& bitmapCowFlag != 0) = true := by
  decide +kernel

theorem byte_unmark : ∀ b : BitVec 8,
    ((b &&& ~~~bitmapCowFlag) &&& bitmapUsers).toNat = (b &&& bitmapUsers).toNat ∧
      ((b &&& ~~~bitmapCowFlag) &&& bitmapCowFlag != 0) = false := by
  decide +kernel

theorem users_zero_iff (p : Pmm) (f : Nat) : p.bitmap f &&& bitmapUsers = 0 ↔ p.users f = 0 := by
  rw [users, ← BitVec.toNat_inj]; rfl

theorem users_lt_iff (p : Pmm) (f : Nat) :
    p.bitmap f &&& bitmapUsers < bitmapUsers ↔ p.users f < 127 := by
  rw [users, BitVec.lt_def]; rfl

theorem bitmap_zero_iff (p : Pmm) (f : Nat) : p.bitmap f = 0 ↔ p.users f = 0 ∧ p.cow f = false :=
  byte_zero_iff _

@[simp] theorem users_setEntry (p : Pmm) (f : Nat) (b : BitVec 8) (g : Nat) :
    (p.setEntry f b).users g = if g = f then (b &&& bitmapUsers).toNat else p.users g := by
  by_cases hg : g = f
  · subst hg; simp [users, setEntry]
  · simp [users, setEntry, hg]

@[simp] theorem cow_setEntry (p : Pmm) (f : Nat) (b : BitVec 8) (g : Nat) :
    (p.setEntry f b).cow g = if g = f then b &&& bitmapCowFlag != 0 else p.cow g := by
  by_cases hg : g = f
  · subst hg; simp [cow, setEntry]
  · simp [cow, setEntry, hg]

/-- The hint where to search next counts nobody. -/
@[simp] theorem users_lookFromHere (p : Pmm) (i g : Nat) :
    ({ p with lookFromHere := i } : Pmm).users g = p.users g := rfl

@[simp] theorem cow_lookFromHere (p : Pmm) (i g : Nat) :
    ({ p with lookFromHere := i } : Pmm).cow g = p.cow g := rfl

/-! ### What the operations do -/

/-- `q` covers the same frames as `p`. -/
def SameFrames (p q : Pmm) : Prop := q.memBase = p.memBase ∧ q.memEntries = p.memEntries

theorem SameFrames.tracked {p q : Pmm} (h : SameFrames p q) {f : Nat} :
    q.Tracked f ↔ p.Tracked f := by
  rw [Tracked, Tracked, h.1, h.2]

theorem SameFrames.trans {p q r : Pmm} (h₁ : SameFrames p q) (h₂ : SameFrames q r) :
    SameFrames p r :=
  ⟨h₂.1.trans h₁.1, h₂.2.trans h₁.2⟩

theorem SameFrames.refl (p : Pmm) : SameFrames p p := ⟨rfl, rfl⟩

/-- No entry below `look_from_here` is free. -/
def LookOk (p : Pmm) : Prop :=
  ∀ f, p.Tracked f → f < p.memBase + p.lookFromHere → p.bitmap f ≠ 0

section specs

variable {p q : Pmm} {f : Nat}

theorem firstFree_some {i : Nat} (h : p.firstFree = some i) :
    p.lookFromHere ≤ i ∧ i < p.memEntries ∧ p.bitmap (p.memBase + i) = 0 ∧
      ∀ j, p.lookFromHere ≤ j → j < i → p.bitmap (p.memBase + j) ≠ 0 := by
  obtain ⟨hi, k, hk, hik, hmin⟩ := List.find?_eq_some_iff_getElem.mp h
  simp only [List.length_range', List.getElem_range', Nat.one_mul] at hk hik hmin
  subst hik
  refine ⟨by omega, by omega, by simpa using hi, fun j hj hji => ?_⟩
  have := hmin (j - p.lookFromHere) (by omega)
  simpa [show p.lookFromHere + (j - p.lookFromHere) = j by omega] using this

theorem firstFree_none (h : p.firstFree = none) {i : Nat} (hi : p.lookFromHere ≤ i)
    (hi' : i < p.memEntries) : p.bitmap (p.memBase + i) ≠ 0 := by
  have hmem : i ∈ List.range' p.lookFromHere (p.memEntries - p.lookFromHere) := by
    rw [List.mem_range'_1]; omega
  simpa using List.find?_eq_none.mp h i hmem

/-- `pmm_alloc` hands out a frame that was free, with one user and no flag. -/
theorem pmmAlloc_spec (h : pmmAlloc p = some (f, q)) :
    SameFrames p q ∧ p.Tracked f ∧ p.users f = 0 ∧ p.cow f = false ∧
      (∀ g, q.users g = if g = f then 1 else p.users g) ∧ ∀ g, q.cow g = p.cow g := by
  unfold pmmAlloc at h
  cases hi : p.firstFree with
  | none => simp [hi] at h
  | some i =>
      simp only [hi, Option.some.injEq, Prod.mk.injEq] at h
      obtain ⟨rfl, rfl⟩ := h
      obtain ⟨-, hi', hfree, -⟩ := firstFree_some hi
      obtain ⟨hu, hc⟩ := (bitmap_zero_iff _ _).mp hfree
      refine ⟨⟨rfl, rfl⟩, ⟨by omega, by omega⟩, hu, hc, fun g => ?_, fun g => ?_⟩
      · simp [hfree, bitmapUsers, bitmapCowFlag]
      · by_cases hg : g = p.memBase + i
        · subst hg; rw [hc]; simp [hfree, bitmapCowFlag]
        · simp [hg]

/-- `pmm_free` takes one user away and leaves the flags. -/
theorem pmmFree_spec (h : pmmFree p f = some q) :
    SameFrames p q ∧ 0 < p.users f ∧ (∀ g, q.users g = if g = f then p.users f - 1 else p.users g) ∧
      ∀ g, q.cow g = p.cow g := by
  unfold pmmFree at h
  split at h
  · cases h
  · rename_i hu
    obtain ⟨hdec, hflag⟩ := byte_dec _ hu
    have hpos : 0 < p.users f := Nat.pos_of_ne_zero fun h₀ => hu ((users_zero_iff p f).mpr h₀)
    have key : ∀ i, (∀ g, (({ p.setEntry f (p.bitmap f - 1) with lookFromHere := i } : Pmm).users g)
        = if g = f then p.users f - 1 else p.users g) ∧
        ∀ g, ({ p.setEntry f (p.bitmap f - 1) with lookFromHere := i } : Pmm).cow g = p.cow g := by
      refine fun i => ⟨fun g => ?_, fun g => ?_⟩
      · rw [users_lookFromHere, users_setEntry, hdec]; rfl
      · rw [cow_lookFromHere, cow_setEntry, hflag]
        split
        · rename_i hg; subst hg; rfl
        · rfl
    simp only at h
    split at h <;> cases h
    · exact ⟨⟨rfl, rfl⟩, hpos, key _⟩
    · exact ⟨⟨rfl, rfl⟩, hpos, key p.lookFromHere⟩

theorem pmmFree_isSome (h : 0 < p.users f) : ∃ q, pmmFree p f = some q := by
  unfold pmmFree
  rw [if_neg fun h₀ => absurd ((users_zero_iff p f).mp h₀) (by omega)]
  simp only
  split <;> exact ⟨_, rfl⟩

/-- `pmm_use` adds one user and leaves the flags. -/
theorem pmmUse_spec (h : pmmUse p f = some q) :
    SameFrames p q ∧ 0 < p.users f ∧ p.users f < 127 ∧
      (∀ g, q.users g = if g = f then p.users f + 1 else p.users g) ∧ ∀ g, q.cow g = p.cow g := by
  unfold pmmUse at h
  split at h
  · cases h
  · rename_i hu
    split at h
    · cases h
    · rename_i hlt
      cases h
      obtain ⟨hinc, hflag⟩ := byte_inc _ (not_not.mp hlt)
      refine ⟨⟨rfl, rfl⟩, Nat.pos_of_ne_zero fun h₀ => hu ((users_zero_iff p f).mpr h₀),
        (users_lt_iff p f).mp (not_not.mp hlt), fun g => ?_, fun g => ?_⟩
      · rw [users_setEntry, hinc]; rfl
      · rw [cow_setEntry, hflag]
        split
        · rename_i hg; subst hg; rfl
        · rfl

theorem pmmUse_isSome (h : 0 < p.users f) (h' : p.users f < 127) : ∃ q, pmmUse p f = some q := by
  unfold pmmUse
  rw [if_neg fun h₀ => absurd ((users_zero_iff p f).mp h₀) (by omega),
    if_neg (not_not.mpr ((users_lt_iff p f).mpr h'))]
  exact ⟨_, rfl⟩

/-- `pmm_mark_cow` sets the flag and leaves the counts. -/
theorem pmmMarkCow_spec {flag : Bool} (h : pmmMarkCow p f flag = some q) :
    SameFrames p q ∧ 0 < p.users f ∧ (∀ g, q.users g = p.users g) ∧
      ∀ g, q.cow g = if g = f then flag else p.cow g := by
  unfold pmmMarkCow at h
  split at h
  · cases h
  · rename_i hu
    have hpos : 0 < p.users f := Nat.pos_of_ne_zero fun h₀ => hu ((users_zero_iff p f).mpr h₀)
    have same : ∀ g, (if g = f then (p.bitmap f &&& bitmapUsers).toNat else p.users g)
        = p.users g := by
      intro g
      split
      · rename_i hg; subst hg; rfl
      · rfl
    cases flag <;> cases h <;> refine ⟨⟨rfl, rfl⟩, hpos, fun g => ?_, fun g => ?_⟩
    · rw [users_setEntry, (byte_unmark _).1]; exact same g
    · rw [cow_setEntry, (byte_unmark _).2]
    · rw [users_setEntry, (byte_mark _).1]; exact same g
    · rw [cow_setEntry, (byte_mark _).2]

theorem pmmMarkCow_isSome (flag : Bool) (h : 0 < p.users f) :
    ∃ q, pmmMarkCow p f flag = some q := by
  unfold pmmMarkCow
  rw [if_neg fun h₀ => absurd ((users_zero_iff p f).mp h₀) (by omega)]
  split <;> exact ⟨_, rfl⟩

/-! ### The search hint -/

theorem pmmAlloc_lookOk (hl : LookOk p) (h : pmmAlloc p = some (f, q)) : LookOk q := by
  unfold pmmAlloc at h
  cases hi : p.firstFree with
  | none => simp [hi] at h
  | some i =>
      simp only [hi, Option.some.injEq, Prod.mk.injEq] at h
      obtain ⟨rfl, rfl⟩ := h
      obtain ⟨hle, -, -, hmin⟩ := firstFree_some hi
      intro g hg hlt
      simp only [Tracked, setEntry] at hg hlt ⊢
      rw [Function.update_of_ne (by omega)]
      -- below the old hint the entry was in use, between the hints the search passed it
      rcases Nat.lt_or_ge g (p.memBase + p.lookFromHere) with h₁ | h₁
      · exact hl g hg h₁
      · simpa [show p.memBase + (g - p.memBase) = g by omega]
          using hmin (g - p.memBase) (by omega) (by omega)

theorem pmmFree_lookOk (hl : LookOk p) (h : pmmFree p f = some q) : LookOk q := by
  unfold pmmFree at h
  split at h
  · cases h
  · simp only at h
    split at h <;> rename_i hc <;> cases h <;> intro g hg hlt <;>
      simp only [Tracked, setEntry] at hg hlt ⊢
    · rw [Function.update_of_ne (by omega)]
      exact hl g hg (by omega)
    · by_cases hgf : g = f
      · subst hgf
        rw [Function.update_self]
        exact fun h₀ => hc ⟨h₀, by omega⟩
      · rw [Function.update_of_ne hgf]
        exact hl g hg hlt

/-- A search hint stays right as long as it is not moved and no frame loses its last user. -/
theorem LookOk.of_users (hl : LookOk p) (hs : SameFrames p q)
    (hlook : q.lookFromHere = p.lookFromHere) (hu : ∀ g, p.bitmap g ≠ 0 → q.bitmap g ≠ 0) :
    LookOk q := by
  intro g hg hlt
  rw [hs.1, hlook] at hlt
  exact hu g (hl g (hs.tracked.mp hg) hlt)

theorem pmmUse_lookOk (hl : LookOk p) (h : pmmUse p f = some q) : LookOk q := by
  obtain ⟨hs, -, -, hu, hc⟩ := pmmUse_spec h
  refine hl.of_users hs ?_ fun g hg hq => hg ?_
  · unfold pmmUse at h
    split at h
    · cases h
    · split at h <;> cases h
      rfl
  · rw [bitmap_zero_iff, hu, hc] at hq
    rw [bitmap_zero_iff]
    by_cases hgf : g = f
    · simp [hgf] at hq
    · simpa [hgf] using hq

theorem pmmMarkCow_lookOk {flag : Bool} (hl : LookOk p) (h : pmmMarkCow p f flag = some q) :
    LookOk q := by
  obtain ⟨hs, hpos, hu, hc⟩ := pmmMarkCow_spec h
  refine hl.of_users hs ?_ fun g hg hq => hg ?_
  · unfold pmmMarkCow at h
    split at h
    · cases h
    · split at h <;> cases h <;> rfl
  · rw [bitmap_zero_iff, hu, hc] at hq
    rw [bitmap_zero_iff]
    by_cases hgf : g = f
    · subst hgf; omega
    · simpa [hgf] using hq

/-- Every call keeps the hint right. -/
theorem call_lookOk {c : PmmCall} (hl : LookOk p) (h : p.call c = some q) : LookOk q := by
  cases c with
  | alloc =>
      obtain ⟨⟨f, r⟩, hr, rfl⟩ := Option.map_eq_some_iff.mp h
      exact pmmAlloc_lookOk hl hr
  | use f => exact pmmUse_lookOk hl h
  | free f => exact pmmFree_lookOk hl h
  | markCow f flag => exact pmmMarkCow_lookOk hl h

/-- With a right hint the search finds a free frame whenever there is one. -/
theorem firstFree_isSome (hl : LookOk p) (hf : p.Tracked f) (hfree : p.bitmap f = 0) :
    ∃ i, p.firstFree = some i ∧ p.memBase + i ≤ f := by
  have hlook : p.memBase + p.lookFromHere ≤ f := not_lt.mp fun hlt => hl f hf hlt hfree
  obtain ⟨hf₁, hf₂⟩ := hf
  cases hi : p.firstFree with
  | none =>
      refine absurd ?_ (firstFree_none hi (i := f - p.memBase) (by omega) (by omega))
      rwa [show p.memBase + (f - p.memBase) = f by omega]
  | some i =>
      refine ⟨i, rfl, not_lt.mp fun hlt => ?_⟩
      refine (firstFree_some hi).2.2.2 (f - p.memBase) (by omega) (by omega) ?_
      rwa [show p.memBase + (f - p.memBase) = f by omega]

/-! ### Free frames -/

/-- The number of free frames. -/
def freeFrames (p : Pmm) : Nat := (List.range p.memEntries).countP fun i => p.bitmap (p.memBase + i) = 0

theorem freeFrames_congr (hs : SameFrames p q) (h : ∀ g, q.bitmap g = 0 ↔ p.bitmap g = 0) :
    freeFrames q = freeFrames p := by
  unfold freeFrames
  rw [hs.1, hs.2]
  exact List.countP_congr fun i _ => by rw [decide_eq_true_iff, decide_eq_true_iff]; exact h _

/-- As long as a frame is free, `pmm_alloc` finds one. -/
theorem pmmAlloc_isSome (hl : LookOk p) (h : 0 < freeFrames p) : ∃ f q, pmmAlloc p = some (f, q) := by
  obtain ⟨i, hi, hfree⟩ := List.countP_pos_iff.mp h
  have hi := List.mem_range.mp hi
  obtain ⟨j, hj, -⟩ := firstFree_isSome (f := p.memBase + i) hl ⟨by omega, by omega⟩
    (by simpa using hfree)
  exact ⟨_, _, by rw [pmmAlloc, hj]⟩

/-- Counting with one element less. -/
theorem countP_range_flip {a b : Nat → Bool} {k : Nat} (ha : a k = true) (hb : b k = false)
    (h : ∀ i, i ≠ k → b i = a i) :
    ∀ {n}, k < n → (List.range n).countP b + 1 = (List.range n).countP a := by
  intro n hk
  induction n with
  | zero => omega
  | succ n ih =>
      rw [List.range_succ, List.countP_append, List.countP_append]
      simp only [List.countP_cons, List.countP_nil, Nat.zero_add]
      by_cases hkn : k = n
      · subst hkn
        have hlow : (List.range k).countP b = (List.range k).countP a :=
          List.countP_congr fun i hi => by rw [h i (by have := List.mem_range.mp hi; omega)]
        simp [ha, hb, hlow]
      · have := ih (by omega)
        rw [h n (Ne.symm hkn)]
        omega

/-- `pmm_alloc` uses up one free frame. -/
theorem pmmAlloc_freeFrames (h : pmmAlloc p = some (f, q)) : freeFrames q + 1 = freeFrames p := by
  obtain ⟨hs, ⟨h₁, h₂⟩, hu, hc, hu', hc'⟩ := pmmAlloc_spec h
  unfold freeFrames
  rw [hs.1, hs.2]
  refine countP_range_flip (k := f - p.memBase) ?_ ?_ (fun i hi => ?_) (by omega)
  · rw [decide_eq_true_iff, show p.memBase + (f - p.memBase) = f by omega]
    exact (bitmap_zero_iff _ _).mpr ⟨hu, hc⟩
  · rw [decide_eq_false_iff_not, show p.memBase + (f - p.memBase) = f by omega, bitmap_zero_iff, hu',
      if_pos rfl]
    simp
  · rw [decide_eq_decide, bitmap_zero_iff, bitmap_zero_iff, hu', hc', if_neg (by omega)]

end specs

/-- The user count has seven bits. -/
theorem users_le (p : Pmm) (f : Nat) : p.users f ≤ 127 := by
  have h : ∀ b : BitVec 8, (b &&& bitmapUsers).toNat ≤ 127 := by decide +kernel
  exact h _

end Muxomucota.Memory
