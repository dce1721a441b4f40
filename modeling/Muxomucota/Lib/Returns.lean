import Mathlib.Tactic.Common

/-!
# Lib — computations that must not fail

`Returns e P` says that the computation `e` does not fail, and that its value meets `P`.  The rules
push it through a computation from the end to the beginning, as equivalences: what is left is the
exact condition under which nothing fails.

`Agrees f e o` compares such a computation with one that says less: `e` fails where `o` has no value,
and where `o` has one, that of `e` is its image under `f`.
-/

namespace Muxomucota.Lib

universe u

variable {ε : Type*} {α β α' β' : Type u} {P Q : α → Prop}

/-- `e` gives a value that meets `P`. -/
def Returns (e : Except ε α) (P : α → Prop) : Prop := ∃ a, e = .ok a ∧ P a

@[simp] theorem returns_ok {a : α} : Returns (.ok a : Except ε α) P ↔ P a := by
  constructor
  · rintro ⟨b, heq, hb⟩
    cases heq
    exact hb
  · exact fun h => ⟨a, rfl, h⟩

@[simp] theorem returns_error {x : ε} : Returns (.error x) P ↔ False := by
  constructor
  · rintro ⟨a, heq, -⟩
    cases heq
  · exact False.elim

theorem ok_bind (a : α) (f : α → Except ε β) : (Except.ok a >>= f) = f a := rfl

@[simp] theorem returns_bind {e : Except ε α} {f : α → Except ε β} {R : β → Prop} :
    Returns (e >>= f) R ↔ Returns e fun a => Returns (f a) R := by
  cases e with
  | error x => exact returns_error.trans returns_error.symm
  | ok a => exact (returns_ok (P := fun a => Returns (f a) R)).symm

theorem Returns.mono {e : Except ε α} (h : Returns e P) (hPQ : ∀ a, P a → Q a) : Returns e Q := by
  obtain ⟨a, heq, ha⟩ := h
  exact ⟨a, heq, hPQ a ha⟩

/-- A loop returns if and only if every round does. -/
theorem returns_forM {ι : Type} {xs : List ι} {f : ι → Except ε PUnit} :
    Returns (xs.forM f) (fun _ => True) ↔ ∀ x ∈ xs, Returns (f x) fun _ => True := by
  induction xs with
  | nil => exact iff_of_true ⟨_, rfl, trivial⟩ fun x hx => absurd hx List.not_mem_nil
  | cons x xs ih =>
      rw [List.forall_mem_cons, ← ih]
      show Returns (f x >>= fun _ => xs.forM f) _ ↔ _
      rw [returns_bind]
      constructor
      · rintro ⟨a, hx, hxs⟩
        exact ⟨⟨a, hx, trivial⟩, hxs⟩
      · rintro ⟨⟨a, hx, -⟩, hxs⟩
        exact ⟨a, hx, hxs⟩

/-! ### Two computations -/

/-- `e` does what `o` does, with values seen through `f`. -/
def Agrees (f : α → β) (e : Except ε β) (o : Option α) : Prop := e.toOption = o.map f

section agrees

variable {f : α → β} {g : α' → β'}

theorem agrees_ok {a : α} {b : β} (h : b = f a) : Agrees f (.ok b : Except ε β) (some a) :=
  congrArg some h

theorem agrees_error (x : ε) : Agrees f (.error x) none := rfl

theorem Agrees.bind {e : Except ε β} {o : Option α} {k : β → Except ε β'} {k' : α → Option α'}
    (h : Agrees f e o) (hk : ∀ a, Agrees g (k (f a)) (k' a)) : Agrees g (e >>= k) (o >>= k') := by
  cases o with
  | none =>
      cases e with
      | error x => rfl
      | ok b => cases h
  | some a =>
      cases e with
      | error x => cases h
      | ok b =>
          obtain rfl := Option.some.inj h
          exact hk a

end agrees

end Muxomucota.Lib
