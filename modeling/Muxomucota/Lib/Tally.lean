import Mathlib

/-!
# Lib — counting who meets a predicate

`Tally p n` says that exactly `n` indices meet `p`, where the indices may be infinitely many.  A
step of one index changes the tally by at most one; the lemmas are the ways it can change and what
the number says about the indices.
-/

namespace Muxomucota.Lib

variable {ι : Type*} {p p' : ι → Prop} {n k : ℕ} {i j : ι}

/-- Exactly `n` indices meet `p`. -/
def Tally (p : ι → Prop) (n : ℕ) : Prop := ∃ S : Finset ι, (∀ i, i ∈ S ↔ p i) ∧ S.card = n

namespace Tally

theorem zero (h : ∀ i, ¬ p i) : Tally p 0 := ⟨∅, fun i => by simp [h i], rfl⟩

theorem congr (h : Tally p n) (hp : ∀ i, p' i ↔ p i) : Tally p' n := by
  obtain ⟨S, hS, hn⟩ := h
  exact ⟨S, fun i => (hS i).trans (hp i).symm, hn⟩

/-- The number is determined. -/
theorem unique (h : Tally p n) (h' : Tally p k) : n = k := by
  obtain ⟨S, hS, rfl⟩ := h
  obtain ⟨S', hS', rfl⟩ := h'
  rw [Finset.ext fun i => (hS i).trans (hS' i).symm]

theorem pos_iff (h : Tally p n) : 0 < n ↔ ∃ i, p i := by
  obtain ⟨S, hS, rfl⟩ := h
  rw [Finset.card_pos]
  exact ⟨fun hne => hne.elim fun i hi => ⟨i, (hS i).mp hi⟩, fun hex => hex.elim fun i hi => ⟨i, (hS i).mpr hi⟩⟩

theorem pos (h : Tally p n) (hi : p i) : 0 < n := h.pos_iff.mpr ⟨i, hi⟩

theorem eq_zero (h : Tally p n) (hp : ∀ i, ¬ p i) : n = 0 := h.unique (zero hp)

/-- One index comes to meet the predicate. -/
theorem enter (h : Tally p n) (i : ι) (hi : ¬ p i) (hi' : p' i) (off : ∀ j, j ≠ i → (p' j ↔ p j)) :
    Tally p' (n + 1) := by
  classical
  obtain ⟨S, hS, rfl⟩ := h
  have hmem : i ∉ S := fun hm => hi ((hS i).mp hm)
  refine ⟨insert i S, fun j => ?_, Finset.card_insert_of_notMem hmem⟩
  rw [Finset.mem_insert, hS]
  by_cases hj : j = i
  · subst hj; simp [hi']
  · simp [hj, off j hj]

/-- One index stops meeting it. -/
theorem leave (h : Tally p n) (hi : p i) (hi' : ¬ p' i) (off : ∀ j, j ≠ i → (p' j ↔ p j)) :
    Tally p' (n - 1) := by
  classical
  obtain ⟨S, hS, rfl⟩ := h
  refine ⟨S.erase i, fun j => ?_, Finset.card_erase_of_mem ((hS i).mpr hi)⟩
  rw [Finset.mem_erase, hS]
  by_cases hj : j = i
  · subst hj; simp [hi']
  · simp [hj, off j hj]

/-- Only one index meets it. -/
theorem sole (h : Tally p 1) (hi : p i) (hj : p j) : i = j := by
  obtain ⟨S, hS, hn⟩ := h
  obtain ⟨a, rfl⟩ := Finset.card_eq_one.mp hn
  have hia := Finset.mem_singleton.mp ((hS i).mpr hi)
  have hja := Finset.mem_singleton.mp ((hS j).mpr hj)
  rw [hia, hja]

theorem two_le (h : Tally p n) (hij : i ≠ j) (hi : p i) (hj : p j) : 2 ≤ n := by
  have hpos := h.pos hi
  by_contra hn
  have h1 : n = 1 := by omega
  subst h1
  exact hij (h.sole hi hj)

/-- Another one. -/
theorem exists_ne (h : Tally p n) (hn : 2 ≤ n) (i : ι) : ∃ j, j ≠ i ∧ p j := by
  obtain ⟨S, hS, rfl⟩ := h
  obtain ⟨j, hj, hne⟩ := Finset.exists_mem_ne (show 1 < S.card from hn) i
  exact ⟨j, hne, (hS j).mp hj⟩

end Tally

/-! ### Sums over a list -/

section Sums

variable {α : Type*} {l : List α} {f g : α → ℕ}

/-- Only one summand changes. -/
theorem sum_map_shift (hl : l.Nodup) {a : α} (ha : a ∈ l) (off : ∀ b ∈ l, b ≠ a → g b = f b) :
    (l.map g).sum + f a = (l.map f).sum + g a := by
  induction l with
  | nil => cases ha
  | cons b l ih =>
      obtain ⟨hb, hl⟩ := List.nodup_cons.mp hl
      simp only [List.map_cons, List.sum_cons]
      rcases List.mem_cons.mp ha with rfl | hal
      · have hsame : l.map g = l.map f :=
          List.map_congr_left fun c hc => off c (List.mem_cons_of_mem _ hc) (by rintro rfl; exact hb hc)
        rw [hsame]
        omega
      · have hba : b ≠ a := by rintro rfl; exact hb hal
        have hrest := ih hl hal fun c hc => off c (List.mem_cons_of_mem _ hc)
        have hhead := off b List.mem_cons_self hba
        omega

theorem le_sum_map {a : α} (ha : a ∈ l) : f a ≤ (l.map f).sum :=
  List.single_le_sum (by simp) _ (List.mem_map_of_mem ha)

/-- A count is the sum of ones. -/
theorem countP_eq_sum (p : α → Prop) [DecidablePred p] (l : List α) :
    l.countP (fun a => p a) = (l.map fun a => if p a then 1 else 0).sum := by
  induction l with
  | nil => rfl
  | cons a l ih =>
      rw [List.map_cons, List.sum_cons, ← ih, List.countP_cons, Nat.add_comm]
      simp

end Sums

end Muxomucota.Lib
