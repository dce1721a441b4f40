import Mathlib.Data.List.Nodup
import Mathlib.Logic.Function.Basic
import Mathlib.Tactic.Common

/-!
# Lib — slots that are handed out under a lock

Threads take slots of a table for themselves, give them back, or leave them to whoever asked for
them.  The test for a free slot and its reservation are one move here; a lock stands beside the
table, and a program that refines this machine needs it to make the two one.  `Inv` is what every
move keeps: no slot has two owners, and the lock is taken exactly as long as a thread is in its
section.
-/

namespace Muxomucota.Lib

variable {τ ι : Type*}

structure Slots (τ ι : Type*) where
  owner : Option τ
  inside : τ → Bool
  used : ι → Bool
  /-- the slot a thread has reserved -/
  held : τ → Option ι
  /-- the slots that were handed out -/
  kept : List ι

namespace Slots

/-- What a thread may do. -/
inductive Move [DecidableEq τ] [DecidableEq ι] (t : τ) (a : Slots τ ι) : Slots τ ι → Prop where
  | skip : Move t a a
  | enter (h : a.owner = none) :
      Move t a { a with owner := some t, inside := Function.update a.inside t true }
  | leave (h : a.inside t = true) :
      Move t a { a with owner := none, inside := Function.update a.inside t false }
  | reserve (i : ι) (hi : a.used i = false) :
      Move t a { a with
        used := Function.update a.used i true
        held := Function.update a.held t (some i) }
  | release (i : ι) (hi : a.held t = some i) :
      Move t a { a with
        used := Function.update a.used i false
        held := Function.update a.held t none }
  | keep (i : ι) (hi : a.held t = some i) :
      Move t a { a with held := Function.update a.held t none, kept := i :: a.kept }
  /-- nobody is working on the slot -/
  | drop (i : ι) (hi : ∀ u, a.held u ≠ some i) :
      Move t a { a with used := Function.update a.used i false, kept := a.kept.erase i }

/-- No slot has two owners. -/
structure Exclusive (a : Slots τ ι) : Prop where
  threads : ∀ t u i, a.held t = some i → a.held u = some i → t = u
  handed : ∀ t i, a.held t = some i → i ∉ a.kept
  once : a.kept.Nodup

structure Inv (a : Slots τ ι) : Prop extends Exclusive a where
  owner_iff : ∀ t, a.owner = some t ↔ a.inside t = true
  held_used : ∀ t i, a.held t = some i → a.used i = true
  kept_used : ∀ i ∈ a.kept, a.used i = true

/-- The lock is free while no thread is in its section. -/
theorem Inv.owner_none {a : Slots τ ι} (h : Inv a) (hout : ∀ t, a.inside t = false) :
    a.owner = none := by
  cases ho : a.owner with
  | none => rfl
  | some t => exact absurd ((h.owner_iff t).mp ho) (by simp [hout t])

theorem Inv.owner_unique {a : Slots τ ι} (h : Inv a) {t u : τ} (ht : a.inside t = true)
    (hu : a.inside u = true) : t = u :=
  Option.some.inj (((h.owner_iff t).mpr ht).symm.trans ((h.owner_iff u).mpr hu))

/-- A slot without an owner may be marked as free. -/
theorem Inv.unused [DecidableEq ι] {a : Slots τ ι} {i : ι} (h : Inv a) (hheld : ∀ u, a.held u ≠ some i)
    (hkept : i ∉ a.kept) : Inv { a with used := Function.update a.used i false } where
  toExclusive := ⟨h.threads, h.handed, h.once⟩
  owner_iff := h.owner_iff
  held_used u j hu := by
    have hj : j ≠ i := fun hj => hheld u (hj ▸ hu)
    exact (Function.update_of_ne hj ..).trans (h.held_used u j hu)
  kept_used j hj :=
    (Function.update_of_ne (ne_of_mem_of_not_mem hj hkept) ..).trans (h.kept_used j hj)

theorem Inv.drop [DecidableEq ι] {a : Slots τ ι} {i : ι} (h : Inv a) (hi : ∀ u, a.held u ≠ some i) :
    Inv { a with used := Function.update a.used i false, kept := a.kept.erase i } := by
  have herase : Inv { a with kept := a.kept.erase i } :=
    ⟨⟨h.threads, fun u j hu hj => h.handed u j hu (List.mem_of_mem_erase hj), h.once.erase i⟩,
      h.owner_iff, h.held_used, fun j hj => h.kept_used j (List.mem_of_mem_erase hj)⟩
  exact herase.unused hi h.once.not_mem_erase

section

variable [DecidableEq τ]

theorem Inv.enter {a : Slots τ ι} {t : τ} (h : Inv a) (ho : a.owner = none) :
    Inv { a with owner := some t, inside := Function.update a.inside t true } where
  toExclusive := ⟨h.threads, h.handed, h.once⟩
  owner_iff u := by
    have hu := h.owner_iff u
    simp only [ho, Option.some.injEq] at hu ⊢
    rcases eq_or_ne u t with rfl | hne
    · simp
    · rw [Function.update_of_ne hne, ← hu]
      simp [hne.symm]
  held_used := h.held_used
  kept_used := h.kept_used

theorem Inv.leave {a : Slots τ ι} {t : τ} (h : Inv a) (ht : a.inside t = true) :
    Inv { a with owner := none, inside := Function.update a.inside t false } where
  toExclusive := ⟨h.threads, h.handed, h.once⟩
  owner_iff u := by
    rcases eq_or_ne u t with rfl | hne
    · simp
    · have hu : a.inside u ≠ true := fun hu => hne (h.owner_unique hu ht)
      simp [Function.update_of_ne hne, hu]
  held_used := h.held_used
  kept_used := h.kept_used

/-- A slot that is not used has no owner, so it may get one. -/
theorem Inv.reserve [DecidableEq ι] {a : Slots τ ι} {t : τ} {i : ι} (h : Inv a) (hi : a.used i = false) :
    Inv { a with
      used := Function.update a.used i true
      held := Function.update a.held t (some i) } := by
  have hheld : ∀ u, a.held u ≠ some i := fun u hu => by simpa [hi] using h.held_used u i hu
  have hkept : i ∉ a.kept := fun hk => by simpa [hi] using h.kept_used i hk
  have hcases : ∀ {u j}, Function.update a.held t (some i) u = some j →
      (u = t ∧ j = i) ∨ (u ≠ t ∧ j ≠ i ∧ a.held u = some j) := by
    intro u j hu
    rcases eq_or_ne u t with rfl | hne
    · exact .inl ⟨rfl, by simpa using hu.symm⟩
    · rw [Function.update_of_ne hne] at hu
      exact .inr ⟨hne, fun hj => hheld u (hj ▸ hu), hu⟩
  refine ⟨⟨?_, ?_, h.once⟩, h.owner_iff, ?_, ?_⟩
  · intro u v j hu hv
    rcases hcases hu with ⟨rfl, rfl⟩ | ⟨-, hj, hu⟩ <;> rcases hcases hv with ⟨rfl, hj'⟩ | ⟨-, hj', hv⟩
    · rfl
    · exact absurd rfl hj'
    · exact absurd hj' hj
    · exact h.threads u v j hu hv
  · intro u j hu
    rcases hcases hu with ⟨-, rfl⟩ | ⟨-, -, hu⟩
    · exact hkept
    · exact h.handed u j hu
  · intro u j hu
    rcases hcases hu with ⟨-, rfl⟩ | ⟨-, hj, hu⟩
    · exact Function.update_self ..
    · exact (Function.update_of_ne hj ..).trans (h.held_used u j hu)
  · intro j hj
    exact (Function.update_of_ne (ne_of_mem_of_not_mem hj hkept) ..).trans (h.kept_used j hj)

/-- A thread may let go of its slot. -/
theorem Inv.letGo {a : Slots τ ι} {t : τ} (h : Inv a) :
    Inv { a with held := Function.update a.held t none } := by
  have hcases : ∀ {u j}, Function.update a.held t none u = some j → a.held u = some j := by
    intro u j hu
    rcases eq_or_ne u t with rfl | hne
    · simp at hu
    · rwa [Function.update_of_ne hne] at hu
  exact ⟨⟨fun u v j hu hv => h.threads u v j (hcases hu) (hcases hv),
    fun u j hu => h.handed u j (hcases hu), h.once⟩, h.owner_iff,
    fun u j hu => h.held_used u j (hcases hu), h.kept_used⟩

/-- The holder is the only one that holds its slot. -/
theorem Inv.letGo_free {a : Slots τ ι} {t : τ} {i : ι} (h : Inv a) (hi : a.held t = some i)
    (u : τ) : Function.update a.held t none u ≠ some i := by
  intro hu
  rcases eq_or_ne u t with rfl | hne
  · simp at hu
  · rw [Function.update_of_ne hne] at hu
    exact hne (h.threads u t i hu hi)

theorem Inv.release [DecidableEq ι] {a : Slots τ ι} {t : τ} {i : ι} (h : Inv a) (hi : a.held t = some i) :
    Inv { a with
      used := Function.update a.used i false
      held := Function.update a.held t none } :=
  h.letGo.unused (h.letGo_free hi) (h.handed t i hi)

theorem Inv.keep {a : Slots τ ι} {t : τ} {i : ι} (h : Inv a) (hi : a.held t = some i) :
    Inv { a with held := Function.update a.held t none, kept := i :: a.kept } where
  threads := h.letGo.threads
  handed u j hu hj := by
    rcases List.mem_cons.mp hj with rfl | hj
    · exact h.letGo_free hi u hu
    · exact h.letGo.handed u j hu hj
  once := List.nodup_cons.mpr ⟨h.handed t i hi, h.once⟩
  owner_iff := h.owner_iff
  held_used := h.letGo.held_used
  kept_used j hj := by
    rcases List.mem_cons.mp hj with rfl | hj
    · exact h.held_used t j hi
    · exact h.kept_used j hj

/-- Every move keeps the invariant. -/
theorem Inv.move [DecidableEq ι] {a a' : Slots τ ι} {t : τ} (h : Inv a) (hm : Move t a a') : Inv a' := by
  cases hm with
  | skip => exact h
  | enter ho => exact h.enter ho
  | leave ht => exact h.leave ht
  | reserve i hi => exact h.reserve hi
  | release i hi => exact h.release hi
  | keep i hi => exact h.keep hi
  | drop i hi => exact h.drop hi

end

end Slots

end Muxomucota.Lib
