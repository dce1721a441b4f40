import Mathlib.Data.Fintype.Order
import Mathlib.Logic.Relation
import Muxomucota.Lib.Runs

/-!
# Lib — walking down a graph

A walk goes through the items of a node in order: an item leads to another node, which is walked first, or
it is an item to act on.  Nothing records where the walk has been.  `walk n` may go `n` nodes deep.

* `walk_ends_iff`: over finitely many nodes the walk comes to an end if and only if no node that can be
  reached can be reached from itself.
* `walk_rule`: a walk that has come to an end has acted on the items of all nodes that can be reached.
-/

namespace Muxomucota.Lib.Walk
open Relation

variable {α ι σ β : Type*} {items : α → List ι} {target : ι → Option α} {act : ι → σ → σ}
  {n k : Nat} {a b c : α} {s s' : σ}

/-- One item: down, or the act. -/
def visit (target : ι → Option α) (act : ι → σ → σ) (enter : α → σ → Option σ) (s : σ) (i : ι) :
    Option σ :=
  match target i with
  | some c => enter c s
  | none => some (act i s)

def walk (items : α → List ι) (target : ι → Option α) (act : ι → σ → σ) : Nat → α → σ → Option σ
  | 0, _, _ => none
  | n + 1, a, s => (items a).foldlM (visit target act (walk items target act n)) s

/-- An item of `a` leads to `c`. -/
def Leads (items : α → List ι) (target : ι → Option α) (a c : α) : Prop :=
  ∃ i ∈ items a, target i = some c

/-! ### The end of a walk -/

/-- No way down from `a` is longer than `n`. -/
def Shallow (items : α → List ι) (target : ι → Option α) : Nat → α → Prop
  | 0, _ => False
  | n + 1, a => ∀ c, Leads items target a c → Shallow items target n c

theorem Shallow.mono (h : Shallow items target n a) (hle : n ≤ k) : Shallow items target k a := by
  induction n generalizing k a with
  | zero => exact h.elim
  | succ n ih =>
      obtain ⟨k, rfl⟩ : ∃ k', k = k' + 1 := ⟨k - 1, by omega⟩
      exact fun c hc => ih (h c hc) (by omega)

/-- Every way that leads down shortens what is left. -/
theorem Shallow.below (h : Shallow items target n a) (hac : TransGen (Leads items target) a c) :
    ∃ k < n, Shallow items target k c := by
  induction hac with
  | single hac =>
      cases n with
      | zero => exact h.elim
      | succ n => exact ⟨n, by omega, h _ hac⟩
  | tail _ hbc ih =>
      obtain ⟨k, hk, hb⟩ := ih
      cases k with
      | zero => exact hb.elim
      | succ k => exact ⟨k, by omega, hb _ hbc⟩

theorem Shallow.not_cyclic (h : Shallow items target n a) : ¬ TransGen (Leads items target) a a := by
  induction n using Nat.strongRecOn with
  | ind n ih =>
      intro hcycle
      obtain ⟨k, hk, hbelow⟩ := h.below hcycle
      exact ih k hk hbelow hcycle

theorem Shallow.reached (h : Shallow items target n a)
    (hac : ReflTransGen (Leads items target) a c) : Shallow items target n c := by
  rcases reflTransGen_iff_eq_or_transGen.mp hac with rfl | htrans
  · exact h
  · obtain ⟨k, hk, hbelow⟩ := h.below htrans
    exact hbelow.mono hk.le

/-- Where no cycle can be reached, the way down is bounded. -/
theorem exists_shallow [Finite α] (h : ∀ b, ReflTransGen (Leads items target) a b →
    ¬ TransGen (Leads items target) b b) : ∃ n, Shallow items target n a := by
  -- the nodes that can be reached are well-founded by the way back
  let S := {b // ReflTransGen (Leads items target) a b}
  let back : S → S → Prop := fun x y => TransGen (Leads items target) y.1 x.1
  have htrans : IsTrans S back := ⟨fun _ _ _ hxy hyz => hyz.trans hxy⟩
  have hirrefl : Std.Irrefl back := ⟨fun x => h x.1 x.2⟩
  have hwf : WellFounded back := Finite.wellFounded_of_trans_of_irrefl back
  suffices ∀ x : S, ∃ n, Shallow items target n x.1 from this ⟨a, .refl⟩
  intro x
  induction x using hwf.induction with
  | _ x ih =>
      have hdown : ∀ c, ∃ n, Leads items target x.1 c → Shallow items target n c := by
        intro c
        by_cases hc : Leads items target x.1 c
        · obtain ⟨n, hn⟩ := ih ⟨c, x.2.tail hc⟩ (.single hc)
          exact ⟨n, fun _ => hn⟩
        · exact ⟨0, fun h => absurd h hc⟩
      choose depth hdepth using hdown
      obtain ⟨N, hN⟩ := Finite.exists_le depth
      exact ⟨N + 1, fun c hc => (hdepth c hc).mono (hN c)⟩

theorem foldlM_visit_isSome {enter : α → σ → Option σ} {P : α → Prop}
    (henter : ∀ c s, (enter c s).isSome ↔ P c) (is : List ι) (s : σ) :
    (is.foldlM (visit target act enter) s).isSome ↔ ∀ c, (∃ i ∈ is, target i = some c) → P c := by
  induction is generalizing s with
  | nil => simp
  | cons i is ih =>
      rw [List.foldlM_cons]
      cases hi : target i with
      | none => simp [visit, hi, ih]
      | some d =>
          have hd := henter d s
          cases he : enter d s with
          | none =>
              rw [he] at hd
              refine iff_of_false (by simp [visit, hi, he]) fun h => ?_
              exact absurd (hd.mpr (h d ⟨i, List.mem_cons_self .., hi⟩)) (by simp)
          | some s₁ =>
              rw [he] at hd
              have hP : P d := hd.mp rfl
              simp only [visit, hi, he, Option.bind_eq_bind, Option.bind_some, ih, List.mem_cons]
              refine ⟨fun h c hc => ?_, fun h c hc => ?_⟩
              · obtain ⟨j, rfl | hj, hc⟩ := hc
                · exact Option.some.inj (hi.symm.trans hc) ▸ hP
                · exact h c ⟨j, hj, hc⟩
              · obtain ⟨j, hj, hc⟩ := hc
                exact h c ⟨j, .inr hj, hc⟩

/-- Whether a walk ends does not depend on what it does. -/
theorem walk_isSome : (walk items target act n a s).isSome ↔ Shallow items target n a := by
  induction n generalizing a s with
  | zero => simp [walk, Shallow]
  | succ n ih =>
      have henter : ∀ c s, (walk items target act n c s).isSome ↔ Shallow items target n c :=
        fun _ _ => ih
      exact foldlM_visit_isSome henter (items a) s

/-- **A walk ends if and only if no cycle can be reached.** -/
theorem walk_ends_iff [Finite α] : (∃ n s', walk items target act n a s = some s') ↔
    ∀ b, ReflTransGen (Leads items target) a b → ¬ TransGen (Leads items target) b b := by
  constructor
  · rintro ⟨n, s', hw⟩ b hb
    have hshallow : Shallow items target n a := walk_isSome.mp (Option.isSome_iff_exists.mpr ⟨s', hw⟩)
    exact (hshallow.reached hb).not_cyclic
  · intro h
    obtain ⟨n, hn⟩ := exists_shallow h
    have hsome : (walk items target act n a s).isSome := walk_isSome.mpr hn
    obtain ⟨s', hw⟩ := Option.isSome_iff_exists.mp hsome
    exact ⟨n, s', hw⟩

/-! ### What a walk has done -/

/-- The act on one of the items below `a` adds `x`. -/
def Adds (items : α → List ι) (target : ι → Option α) (adds : ι → β → Prop) (a : α) (x : β) : Prop :=
  ∃ b, ReflTransGen (Leads items target) a b ∧ ∃ i ∈ items b, target i = none ∧ adds i x

theorem adds_iff {adds : ι → β → Prop} {x : β} : Adds items target adds a x ↔
    ∃ i ∈ items a, (target i = none ∧ adds i x) ∨
      ∃ c, target i = some c ∧ Adds items target adds c x := by
  constructor
  · rintro ⟨b, hb, i, hi, hadds⟩
    rcases ReflTransGen.cases_head_iff.mp hb with rfl | ⟨c, ⟨j, hj, hjc⟩, hcb⟩
    · exact ⟨i, hi, .inl hadds⟩
    · exact ⟨j, hj, .inr ⟨c, hjc, b, hcb, i, hi, hadds⟩⟩
  · rintro ⟨i, hi, hadds | ⟨c, hc, b, hb, j, hj, hadds⟩⟩
    · exact ⟨a, .refl, i, hi, hadds⟩
    · exact ⟨b, .head ⟨i, hi, hc⟩ hb, j, hj, hadds⟩

/-- **What a walk has done**: where the act on an item adds to `has` what the item adds and keeps `I`, the
walk adds what all items below its node add. -/
theorem walk_rule (I : σ → Prop) (has : σ → β → Prop) {adds : ι → β → Prop}
    (hact : ∀ i s, I s → I (act i s) ∧ ∀ x, has (act i s) x ↔ has s x ∨ adds i x)
    (hw : walk items target act n a s = some s') (h₀ : I s) :
    I s' ∧ ∀ x, has s' x ↔ has s x ∨ Adds items target adds a x := by
  induction n generalizing a s s' with
  | zero => cases hw
  | succ n ih =>
      have hrun := foldlM_rule (P := fun pre b => I b ∧ ∀ x, has b x ↔ has s x ∨
          ∃ i ∈ pre, (target i = none ∧ adds i x) ∨
            ∃ c, target i = some c ∧ Adds items target adds c x) hw
        ⟨h₀, fun x => by simp⟩ fun pre i _ b b' _ hP hstep => by
          obtain ⟨hI, hhas⟩ := hP
          unfold visit at hstep
          split at hstep
          next c hc =>
            obtain ⟨hI', hhas'⟩ := ih hstep hI
            refine ⟨hI', fun x => ?_⟩
            rw [hhas' x, hhas x]
            simp only [List.mem_append, List.mem_singleton, or_and_right, exists_or, exists_eq_left,
              hc, reduceCtorEq, false_and, false_or, Option.some.injEq, exists_eq_left', or_assoc]
          next hc =>
            cases hstep
            obtain ⟨hI', hhas'⟩ := hact i b hI
            refine ⟨hI', fun x => ?_⟩
            rw [hhas' x, hhas x]
            simp only [List.mem_append, List.mem_singleton, or_and_right, exists_or, exists_eq_left,
              hc, reduceCtorEq, true_and, false_and, exists_false, or_false, or_assoc]
      refine ⟨hrun.1, fun x => ?_⟩
      rw [hrun.2 x, adds_iff]

end Muxomucota.Lib.Walk
