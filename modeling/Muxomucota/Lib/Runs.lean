import Mathlib.Data.List.Basic
import Mathlib.Order.Basic
import Mathlib.Tactic.Common

/-!
# Lib — runs of a partial step function

A system is a step function `step : σ → α → Option σ`: an action either takes a state to a state
or does not happen there (the program stops, or the action is not enabled).  `Run step ok s as s'`
says that the actions `as` lead from `s` to `s'` and that each of them met `ok` in the state it was
taken in.  An invariant of the steps is an invariant of the runs (`Run.invariant`).

The last section is the same rule for a loop over a list whose body may stop (`List.foldlM` in
`Option`).
-/

namespace Muxomucota.Lib

variable {σ α β : Type*}

/-- The actions `as` lead from `s` to `s'`, each taken in a state that meets `ok`. -/
inductive Run (step : σ → α → Option σ) (ok : σ → α → Prop) : σ → List α → σ → Prop where
  | refl (s : σ) : Run step ok s [] s
  | more {s s₁ s' : σ} {a : α} {as : List α}
      (ha : ok s a) (h : step s a = some s₁) (t : Run step ok s₁ as s') : Run step ok s (a :: as) s'

/-- No condition on the steps. -/
def anyStep : σ → α → Prop := fun _ _ => True

namespace Run

variable {step : σ → α → Option σ} {ok ok' : σ → α → Prop} {s s' s₁ : σ} {a : α} {as bs : List α}

theorem one (ha : ok s a) (h : step s a = some s') : Run step ok s [a] s' :=
  .more ha h (.refl _)

theorem trans (h₁ : Run step ok s as s₁) (h₂ : Run step ok s₁ bs s') :
    Run step ok s (as ++ bs) s' := by
  induction h₁ with
  | refl => exact h₂
  | more ha h _ ih => exact .more ha h (ih h₂)

theorem snoc (h₁ : Run step ok s as s₁) (ha : ok s₁ a) (h : step s₁ a = some s') :
    Run step ok s (as ++ [a]) s' :=
  h₁.trans (.one ha h)

/-- Weakening the condition on the steps. -/
theorem mono (hok : ∀ s a, ok s a → ok' s a) (h : Run step ok s as s') : Run step ok' s as s' := by
  induction h with
  | refl => exact .refl _
  | more ha h _ ih => exact .more (hok _ _ ha) h ih

/-- Steps that are taken one after the other, without a condition. -/
theorem of_foldlM (h : as.foldlM step s = some s') : Run step anyStep s as s' := by
  induction as generalizing s with
  | nil =>
      cases h
      exact .refl _
  | cons a as ih =>
      rw [List.foldlM_cons] at h
      obtain ⟨s₁, hs₁, h⟩ := Option.bind_eq_some_iff.mp h
      exact .more trivial hs₁ (ih h)

/-- Steps that are taken one after the other, where each is tested first. -/
theorem of_checked [∀ s a, Decidable (ok s a)]
    (h : as.foldlM (fun s a => if ok s a then step s a else none) s = some s') :
    Run step ok s as s' := by
  induction as generalizing s with
  | nil =>
      cases h
      exact .refl _
  | cons a as ih =>
      obtain ⟨s₁, hs₁, h⟩ := Option.bind_eq_some_iff.mp h
      dsimp only at hs₁
      split at hs₁
      · rename_i hok
        exact .more hok hs₁ (ih h)
      · cases hs₁

/-- What every step that meets `ok` preserves, every run preserves. -/
theorem invariant {I : σ → Prop} (hI : ∀ s a s', I s → ok s a → step s a = some s' → I s')
    (h : Run step ok s as s') (h₀ : I s) : I s' := by
  induction h with
  | refl => exact h₀
  | more ha h _ ih => exact ih (hI _ _ _ h₀ ha h)

/-- The same for an invariant that also speaks of the actions taken so far. -/
theorem history {I : List α → σ → Prop}
    (hI : ∀ as s a s', I as s → ok s a → step s a = some s' → I (as ++ [a]) s')
    (h : Run step ok s as s') (h₀ : I [] s) : I as s' := by
  suffices ∀ pre, I pre s → I (pre ++ as) s' from this [] h₀
  clear h₀
  induction h with
  | refl => intro pre hpre; simpa using hpre
  | more ha h _ ih =>
      intro pre hpre
      simpa using ih (pre ++ [_]) (hI _ _ _ _ hpre ha h)

/-- Two conditions that agree wherever `I` holds, which steps that meet them keep, allow the same runs. -/
theorem congr {I : σ → Prop} (hok : ∀ s a, I s → (ok s a ↔ ok' s a))
    (hI : ∀ s a s', I s → ok s a → step s a = some s' → I s') (h₀ : I s) :
    Run step ok s as s' ↔ Run step ok' s as s' := by
  constructor <;> intro h
  · induction h with
    | refl => exact .refl _
    | more ha h _ ih => exact .more ((hok _ _ h₀).mp ha) h (ih (hI _ _ _ h₀ ha h))
  · induction h with
    | refl => exact .refl _
    | more ha h _ ih =>
        have ha' := (hok _ _ h₀).mpr ha
        exact .more ha' h (ih (hI _ _ _ h₀ ha' h))

/-- Where a step keeps what is good if and only if it meets `ok`, and makes nothing good again, what a
run ends with is good if and only if all of its steps met `ok`. -/
theorem keeps_iff {I good : σ → Prop}
    (hI : ∀ s a s', I s → step s a = some s' → I s' ∧ (good s' ↔ good s ∧ ok s a))
    (h : Run step anyStep s as s') (h₀ : I s) :
    I s' ∧ (good s' ↔ good s ∧ Run step ok s as s') := by
  induction h with
  | refl s => exact ⟨h₀, fun hg => ⟨hg, .refl s⟩, And.left⟩
  | more _ h _ ih =>
      obtain ⟨hI₁, hstep⟩ := hI _ _ _ h₀ h
      obtain ⟨hI', hrest⟩ := ih hI₁
      refine ⟨hI', fun hg => ?_, fun hg => ?_⟩
      · obtain ⟨hg₁, t⟩ := hrest.mp hg
        obtain ⟨hg₀, ha⟩ := hstep.mp hg₁
        exact ⟨hg₀, .more ha h t⟩
      · obtain ⟨hg₀, hrun⟩ := hg
        cases hrun with
        | more ha h' t =>
            rw [h] at h'
            cases h'
            exact hrest.mpr ⟨hstep.mpr ⟨hg₀, ha⟩, t⟩

end Run

/-! ### Loops over a list -/

/-- Loop rule: what the body preserves, the loop preserves; `P` may speak of the part of the list
that is done. -/
theorem foldlM_rule {f : β → α → Option β} {P : List α → β → Prop} :
    ∀ {xs : List α} {b b' : β}, xs.foldlM f b = some b' → P [] b →
      (∀ pre x post b b', xs = pre ++ x :: post → P pre b → f b x = some b' → P (pre ++ [x]) b') →
      P xs b' := by
  intro xs b b' h h₀ hstep
  suffices ∀ post pre b, xs = pre ++ post → P pre b → post.foldlM f b = some b' → P xs b' from
    this xs [] b rfl h₀ h
  intro post
  induction post with
  | nil =>
      intro pre b hxs hP hf
      simp only [List.foldlM_nil, Option.pure_def, Option.some.injEq] at hf
      rw [hxs, List.append_nil, ← hf]
      exact hP
  | cons x post ih =>
      intro pre b hxs hP hf
      rw [List.foldlM_cons] at hf
      obtain ⟨b₁, hb₁, hf⟩ := Option.bind_eq_some_iff.mp hf
      exact ih (pre ++ [x]) b₁ (by simp [hxs]) (hstep pre x post b b₁ hxs hP hb₁) hf

/-- The loop rule for an invariant of the state alone. -/
theorem foldlM_invariant {f : β → α → Option β} {P : β → Prop} {xs : List α} {b b' : β}
    (h : xs.foldlM f b = some b') (h₀ : P b)
    (hstep : ∀ x ∈ xs, ∀ b b', P b → f b x = some b' → P b') : P b' :=
  foldlM_rule (P := fun _ b => P b) h h₀ fun _ x _ b b' hxs hP hf =>
    hstep x (by simp [hxs]) b b' hP hf

/-- The loop rule for a counting loop. -/
theorem foldlM_range_rule {f : β → Nat → Option β} {P : Nat → β → Prop} {n : Nat} {b b' : β}
    (h : (List.range n).foldlM f b = some b') (h₀ : P 0 b)
    (hstep : ∀ i b b', i < n → P i b → f b i = some b' → P (i + 1) b') : P n b' := by
  induction n generalizing b' with
  | zero =>
      simp only [List.range_zero, List.foldlM_nil, Option.pure_def, Option.some.injEq] at h
      exact h ▸ h₀
  | succ n ih =>
      rw [List.range_succ, List.foldlM_append] at h
      obtain ⟨b₁, hb₁, h⟩ := Option.bind_eq_some_iff.mp h
      have h : f b₁ n = some b' := by simpa using h
      exact hstep n b₁ b' (by omega) (ih hb₁ fun i b b' hi => hstep i b b' (by omega)) h

/-- The same for a loop that counts from `s`. -/
theorem foldlM_range'_rule {f : β → Nat → Option β} {P : Nat → β → Prop} {s n : Nat} {b b' : β}
    (h : (List.range' s n).foldlM f b = some b') (h₀ : P s b)
    (hstep : ∀ i b b', s ≤ i → i < s + n → P i b → f b i = some b' → P (i + 1) b') :
    P (s + n) b' := by
  rw [List.range'_eq_map_range, List.foldlM_map] at h
  refine foldlM_range_rule (P := fun i b => P (s + i) b) h h₀ fun i b b' hi hP hf => ?_
  exact hstep (s + i) b b' (by omega) (by omega) hP hf

/-- A counting loop whose body never stops from a state meeting `P` ends. -/
theorem foldlM_range_total {f : β → Nat → Option β} {P : Nat → β → Prop} {n : Nat} {b : β}
    (h₀ : P 0 b) (hstep : ∀ i b, i < n → P i b → ∃ b', f b i = some b' ∧ P (i + 1) b') :
    ∃ b', (List.range n).foldlM f b = some b' ∧ P n b' := by
  induction n with
  | zero => exact ⟨b, rfl, h₀⟩
  | succ n ih =>
      obtain ⟨b₁, hb₁, hP₁⟩ := ih fun i b hi => hstep i b (by omega)
      obtain ⟨b', hb', hP'⟩ := hstep n b₁ (by omega) hP₁
      refine ⟨b', ?_, hP'⟩
      rw [List.range_succ, List.foldlM_append, hb₁]
      simpa using hb'

/-- The same for a loop that counts from `s`. -/
theorem foldlM_range'_total {f : β → Nat → Option β} {P : Nat → β → Prop} {s n : Nat} {b : β}
    (h₀ : P s b) (hstep : ∀ i b, s ≤ i → i < s + n → P i b → ∃ b', f b i = some b' ∧ P (i + 1) b') :
    ∃ b', (List.range' s n).foldlM f b = some b' ∧ P (s + n) b' := by
  rw [List.range'_eq_map_range, List.foldlM_map]
  exact foldlM_range_total (P := fun i b => P (s + i) b) h₀ fun i b hi hP =>
    hstep (s + i) b (by omega) (by omega) hP

/-- A loop over lists one behind the other is a loop in a loop. -/
theorem foldlM_flatMap {γ : Type*} {f : β → γ → Option β} {g : α → List γ} (xs : List α) (b : β) :
    (xs.flatMap g).foldlM f b = xs.foldlM (fun b x => (g x).foldlM f b) b := by
  induction xs generalizing b with
  | nil => rfl
  | cons x xs ih =>
      rw [List.flatMap_cons, List.foldlM_append, List.foldlM_cons]
      exact congrArg (Option.bind _) (funext ih)

/-- What one step follows, a run follows: every run of `astep` is one of `step`, in states that `R` relates;
`R` may speak of the actions that are done. -/
theorem foldlM_simulates {τ : Type*} {step : σ → α → Option σ} {astep : τ → α → Option τ}
    {R : List α → σ → τ → Prop} {as : List α} {s : σ} {x x' : τ} (h : as.foldlM astep x = some x') (h₀ : R [] s x)
    (hstep : ∀ pre a post s x x', as = pre ++ a :: post → R pre s x → astep x a = some x' →
      ∃ s', step s a = some s' ∧ R (pre ++ [a]) s' x') :
    ∃ s', as.foldlM step s = some s' ∧ R as s' x' := by
  suffices ∀ post pre s x, as = pre ++ post → R pre s x → post.foldlM astep x = some x' →
      ∃ s', post.foldlM step s = some s' ∧ R as s' x' from this as [] s x rfl h₀ h
  intro post
  induction post with
  | nil =>
      intro pre s x hxs hR hf
      simp only [List.foldlM_nil, Option.pure_def, Option.some.injEq] at hf
      exact ⟨s, rfl, by rw [hxs, List.append_nil, ← hf]; exact hR⟩
  | cons a post ih =>
      intro pre s x hxs hR hf
      rw [List.foldlM_cons] at hf
      obtain ⟨x₁, hx₁, hf⟩ := Option.bind_eq_some_iff.mp hf
      obtain ⟨s₁, hs₁, hR₁⟩ := hstep pre a post s x x₁ hxs hR hx₁
      obtain ⟨s', hs', hR'⟩ := ih (pre ++ [a]) s₁ x₁ (by simp [hxs]) hR₁ hf
      exact ⟨s', by rw [List.foldlM_cons, hs₁]; exact hs', hR'⟩

/-! ### What never decreases -/

/-- Where no step takes anything away from `g`, a run leaves `g` as it was if and only if every step
does; `I` is what all states have in common. -/
theorem foldlM_conserves_iff {γ : Type*} [PartialOrder γ] {step : σ → α → Option σ}
    {ok : σ → α → Prop} {I : σ → Prop} {g : σ → γ} {as : List α} {s s' : σ}
    (hstep : ∀ a ∈ as, ∀ s s', I s → step s a = some s' →
      I s' ∧ g s ≤ g s' ∧ (g s' = g s ↔ ok s a))
    (h : as.foldlM step s = some s') (h₀ : I s) :
    g s ≤ g s' ∧ (g s' = g s ↔ Run step ok s as s') := by
  induction as generalizing s with
  | nil =>
      cases h
      exact ⟨le_rfl, iff_of_true rfl (.refl _)⟩
  | cons a as ih =>
      rw [List.foldlM_cons] at h
      obtain ⟨s₁, hs₁, h⟩ := Option.bind_eq_some_iff.mp h
      obtain ⟨hI, hle, hok⟩ := hstep a (List.mem_cons_self ..) s s₁ h₀ hs₁
      obtain ⟨hle', hrun⟩ := ih (fun b hb => hstep b (List.mem_cons_of_mem a hb)) h hI
      refine ⟨hle.trans hle', fun heq => ?_, fun hr => ?_⟩
      · have h₁ : g s₁ = g s := le_antisymm (hle'.trans heq.le) hle
        exact .more (hok.mp h₁) hs₁ (hrun.mp (heq.trans h₁.symm))
      · cases hr with
        | more ha hs₁' t =>
            rw [hs₁] at hs₁'
            cases hs₁'
            exact (hrun.mpr t).trans (hok.mpr ha)

end Muxomucota.Lib
