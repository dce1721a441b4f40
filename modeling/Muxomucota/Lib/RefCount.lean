import Mathlib.Data.Set.Card
import Mathlib.Tactic

/-!
# Lib — reference counts

A set of *slots* `ι`, each empty or holding a resource, and a count for every resource.  The counts
*cover* the slots when a resource is held by at most as many slots as its count says.  A resource
with count zero is then held by no slot, and one with count one by at most one.

Every operation changes finitely many slots and some counts; `Covered.change` is the one rule for
all of them: for each resource, what the count loses is at most what the changed slots lose.
-/

namespace Muxomucota.Lib

variable {ι α : Type*} {s s' : ι → Option α} {n n' : α → ℕ}

/-- The slots that hold `a`. -/
def holders (s : ι → Option α) (a : α) : Set ι := {i | s i = some a}

/-- No resource is held by more slots than its count. -/
def Covered (s : ι → Option α) (n : α → ℕ) : Prop := ∀ a, (holders s a).encard ≤ n a

namespace Covered

theorem mono (h : Covered s n) (hn : ∀ a, n a ≤ n' a) : Covered s n' :=
  fun a => (h a).trans (by exact_mod_cast hn a)

/-- A resource that is not counted is not held. -/
theorem not_held {a : α} {i : ι} (h : Covered s n) (ha : n a = 0) : s i ≠ some a := by
  intro hi
  have h₀ : (holders s a).encard = 0 := by simpa [ha] using h a
  exact (Set.encard_eq_zero.mp h₀ ▸ hi : i ∈ (∅ : Set ι))

/-- A held resource is counted. -/
theorem pos {a : α} {i : ι} (h : Covered s n) (hi : s i = some a) : 0 < n a :=
  Nat.pos_of_ne_zero fun h₀ => h.not_held h₀ hi

/-- A resource with count one has one holder. -/
theorem sole {a : α} {i j : ι} (h : Covered s n) (ha : n a = 1) (hi : s i = some a)
    (hj : s j = some a) : i = j := by
  have h₁ : (holders s a).encard ≤ 1 := by simpa [ha] using h a
  exact Set.encard_le_one_iff.mp h₁ i j hi hj

/-- Two holders of one resource are counted twice. -/
theorem two_le {a : α} {i j : ι} (h : Covered s n) (hij : i ≠ j) (hi : s i = some a)
    (hj : s j = some a) : 2 ≤ n a := by
  by_contra hn
  have hpos := h.pos hi
  exact hij (h.sole (by omega) hi hj)

/-- Emptying slots costs nothing. -/
theorem forget (h : Covered s n) (hs : ∀ i a, s' i = some a → s i = some a) : Covered s' n :=
  fun a => (Set.encard_le_encard fun i hi => hs i a hi).trans (h a)

variable [DecidableEq α]

/-- Different slots that hold `a` are counted. -/
theorem countP_le {l : List ι} {a : α} (h : Covered s n) (hl : l.Nodup) :
    l.countP (fun i => s i = some a) ≤ n a := by
  classical
  have hsub : (l.countP (fun i => s i = some a) : ℕ∞) ≤ (holders s a).encard := by
    rw [List.countP_eq_length_filter, ← List.toFinset_card_of_nodup (hl.filter _),
      ← Set.encard_coe_eq_coe_finsetCard]
    refine Set.encard_le_encard fun i hi => ?_
    simp only [List.coe_toFinset, List.mem_filter, decide_eq_true_eq, Set.mem_ofPred_eq] at hi
    exact hi.2
  exact_mod_cast hsub.trans (h a)

/-- Outside the finite set `D` no slot changes; for each resource the count loses at most what the
slots of `D` lose. -/
theorem change (D : Finset ι) (h : Covered s n) (off : ∀ i, i ∉ D → s' i = s i)
    (bal : ∀ a, n a + (D.filter fun i => s' i = some a).card
      ≤ n' a + (D.filter fun i => s i = some a).card) : Covered s' n' := by
  intro a
  have split : ∀ t : ι → Option α, (holders t a).encard
      = (holders t a \ D).encard + ((D.filter fun i => t i = some a).card : ℕ∞) := by
    intro t
    have hD : holders t a ∩ D = ↑(D.filter fun i => t i = some a) := by
      ext i; simp [holders, and_comm]
    rw [← Set.encard_coe_eq_coe_finsetCard, ← hD, Set.encard_sdiff_add_encard_inter]
  have hoff : holders s' a \ D = holders s a \ D := by
    ext i
    simp only [holders, Set.mem_sdiff, Set.mem_ofPred_eq, Finset.mem_coe]
    constructor
    · rintro ⟨hi, hD⟩; exact ⟨off i hD ▸ hi, hD⟩
    · rintro ⟨hi, hD⟩; exact ⟨(off i hD).symm ▸ hi, hD⟩
  have hs := h a
  rw [split s] at hs
  rw [split s', hoff]
  obtain ⟨k, hk⟩ := ENat.ne_top_iff_exists.mp
    (ne_top_of_le_ne_top (ENat.natCast_ne_top (n a)) (le_self_add.trans hs))
  rw [← hk] at hs ⊢
  have hb := bal a
  norm_cast at hs ⊢
  omega

/-- The same with the changed slots in a list. -/
theorem change_list {l : List ι} (hl : l.Nodup) (h : Covered s n)
    (off : ∀ i, i ∉ l → s' i = s i)
    (bal : ∀ a, n a + l.countP (fun i => s' i = some a) ≤ n' a + l.countP fun i => s i = some a) :
    Covered s' n' := by
  classical
  have card : ∀ (t : ι → Option α) (a : α),
      (l.toFinset.filter fun i => t i = some a).card = l.countP fun i => t i = some a := by
    intro t a
    rw [List.countP_eq_length_filter, ← List.toFinset_card_of_nodup (hl.filter _),
      List.toFinset_filter]
    simp
  refine h.change l.toFinset (fun i hi => off i (by simpa using hi)) fun a => ?_
  rw [card, card]
  exact bal a

/-- One slot changes. -/
theorem change_one (i : ι) (h : Covered s n) (off : ∀ j, j ≠ i → s' j = s j)
    (bal : ∀ a, n a + (if s' i = some a then 1 else 0) ≤ n' a + (if s i = some a then 1 else 0)) :
    Covered s' n' := by
  refine h.change {i} (fun j hj => off j (by simpa using hj)) fun a => ?_
  have := bal a
  simp only [Finset.filter_singleton]
  split_ifs at this ⊢ <;> simp_all

end Covered

end Muxomucota.Lib
