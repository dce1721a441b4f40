import Mathlib.Data.List.Induction
import Mathlib.Tactic.Common

/-!
# Lib — tables of tables

Tables lie in a memory and are named by their addresses; an entry of a table is the address of another one, or
`null`.  A *position* is a root and a list of indices, and `locate` is the address that it leads to.  How far a
list of indices may go is up to `V`, the positions that there are.

* `Tables.SetAt`: one slot, a root or an entry, gets a new address with nothing below it.  Then nothing else is
  located elsewhere (`SetAt.here`, `SetAt.others`).
* `Tables.Apart`: no address is at two positions.  A slot that gets an address which is at no position keeps this
  (`Apart.set`).
-/

namespace Muxomucota.Lib

variable {κ ρ ο : Type*} [DecidableEq κ] {null : κ}

/-- The roots, and the entries of every table. -/
structure Tables (κ ρ ο : Type*) where
  root : ρ → κ
  entry : κ → ο → κ

namespace Tables

variable {t t' : Tables κ ρ ο} {V : ρ → List ο → Prop} {r r₀ : ρ} {os os₀ : List ο} {x : ο} {b : κ}

/-- Follow the indices; nothing is below `null`. -/
def follow (null : κ) (entry : κ → ο → κ) : κ → List ο → κ
  | b, [] => b
  | b, x :: os => if b = null then null else follow null entry (entry b x) os

/-- The address at a position. -/
def locate (null : κ) (t : Tables κ ρ ο) (r : ρ) (os : List ο) : κ := follow null t.entry (t.root r) os

theorem follow_concat (entry : κ → ο → κ) (b : κ) (os : List ο) (x : ο) : follow null entry b (os ++ [x]) =
    if follow null entry b os = null then null else entry (follow null entry b os) x := by
  induction os generalizing b with
  | nil => rfl
  | cons y os ih =>
      simp only [List.cons_append, follow]
      by_cases hb : b = null
      · simp [hb]
      · simp only [hb, if_false, ih]

@[simp] theorem locate_nil : t.locate null r [] = t.root r := rfl

theorem locate_concat : t.locate null r (os ++ [x]) =
    if t.locate null r os = null then null else t.entry (t.locate null r os) x :=
  follow_concat ..

/-- From `t` to `t'` the slot at a position gets the address `b`.  Nothing is below the position before or after. -/
structure SetAt (null : κ) (V : ρ → List ο → Prop) (t t' : Tables κ ρ ο) (r₀ : ρ) (os₀ : List ο) (b : κ) : Prop where
  root : os₀ = [] → t'.root r₀ = b
  entry : ∀ os x, os₀ = os ++ [x] → t.locate null r₀ os ≠ null ∧ t'.entry (t.locate null r₀ os) x = b
  roots : ∀ r, V r [] → ¬(r = r₀ ∧ os₀ = []) → t'.root r = t.root r
  entries : ∀ r os x, V r (os ++ [x]) → t.locate null r os ≠ null → ¬(r = r₀ ∧ os ++ [x] = os₀) →
    t'.entry (t.locate null r os) x = t.entry (t.locate null r os) x
  before : ∀ x, V r₀ (os₀ ++ [x]) → t.locate null r₀ (os₀ ++ [x]) = null
  after : ∀ x, V r₀ (os₀ ++ [x]) → b ≠ null → t'.entry b x = null

namespace SetAt

variable (h : SetAt null V t t' r₀ os₀ b) (hV : ∀ r os x, V r (os ++ [x]) → V r os)
include h hV

theorem locate (hp : V r os) : t'.locate null r os = b ∧ r = r₀ ∧ os = os₀ ∨
    t'.locate null r os = t.locate null r os ∧ ¬(r = r₀ ∧ os = os₀) := by
  induction os using List.reverseRecOn with
  | nil =>
      by_cases hr : r = r₀ ∧ os₀ = []
      · obtain ⟨rfl, rfl⟩ := hr
        exact .inl ⟨h.root rfl, rfl, rfl⟩
      · exact .inr ⟨h.roots r hp hr, fun e => hr ⟨e.1, e.2.symm⟩⟩
  | append_singleton os x ih =>
      rw [locate_concat, locate_concat]
      rcases ih (hV r os x hp) with ⟨hloc, rfl, rfl⟩ | ⟨hloc, hne⟩
      · -- the position is just below the new address
        refine .inr ⟨?_, fun e => absurd e.2 (by simp)⟩
        have hbefore := h.before x hp
        rw [locate_concat] at hbefore
        rw [hloc, hbefore]
        by_cases hb : b = null
        · rw [if_pos hb]
        · rw [if_neg hb, h.after x hp hb]
      · rw [hloc]
        by_cases hr : r = r₀ ∧ os ++ [x] = os₀
        · obtain ⟨rfl, rfl⟩ := hr
          obtain ⟨hb, he⟩ := h.entry os x rfl
          exact .inl ⟨by rw [if_neg hb, he], rfl, rfl⟩
        · refine .inr ⟨?_, hr⟩
          by_cases hb : t.locate null r os = null
          · rw [if_pos hb, if_pos hb]
          · rw [if_neg hb, if_neg hb, h.entries r os x hp hb hr]

theorem here (hp : V r₀ os₀) : t'.locate null r₀ os₀ = b :=
  (h.locate hV hp).elim And.left fun hne => absurd ⟨rfl, rfl⟩ hne.2

theorem others (hp : V r os) (hne : ¬(r = r₀ ∧ os = os₀)) : t'.locate null r os = t.locate null r os :=
  (h.locate hV hp).elim (fun heq => absurd heq.2 hne) And.left

end SetAt

/-- No address is at two positions. -/
def Apart (null : κ) (V : ρ → List ο → Prop) (t : Tables κ ρ ο) : Prop :=
  ∀ r os r' os', V r os → V r' os' → t.locate null r os ≠ null → t.locate null r os = t.locate null r' os' →
    r = r' ∧ os = os'

theorem Apart.set (ha : Apart null V t) (h : SetAt null V t t' r₀ os₀ b) (hV : ∀ r os x, V r (os ++ [x]) → V r os)
    (hb : b ≠ null → ∀ r os, V r os → t.locate null r os ≠ b) : Apart null V t' := by
  intro r os r' os' hp hp' hn e
  rcases h.locate hV hp with ⟨h₁, rfl, rfl⟩ | ⟨h₁, hne₁⟩ <;> rcases h.locate hV hp' with ⟨h₂, rfl, rfl⟩ | ⟨h₂, hne₂⟩
  · exact ⟨rfl, rfl⟩
  · exact absurd (by rw [← h₂, ← e, h₁]) (hb (h₁ ▸ hn) r' os' hp')
  · exact absurd (by rw [← h₁, e, h₂]) (hb (by rwa [e, h₂] at hn) r os hp)
  · exact ha r os r' os' hp hp' (h₁ ▸ hn) (by rw [← h₁, e, h₂])

end Tables

end Muxomucota.Lib
