import Muxomucota.Lib.Linked

/-!
# Lib — doubly linked lists in memory

Elements with two link fields, and a list as its two ends: `Doubly fwd bwd first last l` says that `fwd` leads
from `first` through `l`, and `bwd` from `last` through the reverse of it.  An element leaves a list when its
neighbours link past it (`Doubly.detach`), and enters it behind the last one (`Doubly.append`); the two together
move an element to the end (`Doubly.moveLast`).
-/

namespace Muxomucota.Lib

variable {α : Type*} {fwd bwd : α → Option α} {first last : Option α} {l pre post : List α} {a : α}

/-- The links lead from both ends through `l`. -/
structure Doubly (fwd bwd : α → Option α) (first last : Option α) (l : List α) : Prop where
  forth : Chain fwd first l
  back : Chain bwd last l.reverse

theorem Chain.next_eq_head (h : Chain fwd first (pre ++ a :: post)) : fwd a = post.head? := by
  have h := h.drop.tail
  cases post with
  | nil => cases hn : fwd a with
    | none => rfl
    | some b => rw [hn] at h; cases h
  | cons b post => exact h.head_eq

theorem Chain.head_eq_head (h : Chain fwd first l) : first = l.head? := by
  cases h <;> rfl

namespace Doubly

theorem nil : Doubly fwd bwd none none [] := ⟨.nil, .nil⟩

theorem symm (h : Doubly fwd bwd first last l) : Doubly bwd fwd last first l.reverse :=
  ⟨h.back, by rw [List.reverse_reverse]; exact h.forth⟩

theorem first_eq (h : Doubly fwd bwd first last l) : first = l.head? := h.forth.head_eq_head

theorem last_eq (h : Doubly fwd bwd first last l) : last = l.getLast? := by
  rw [h.back.head_eq_head, List.head?_reverse]

/-- Only the fields of the elements count. -/
theorem congr {fwd' bwd' : α → Option α} (h : Doubly fwd bwd first last l) (hf : ∀ b ∈ l, fwd' b = fwd b)
    (hb : ∀ b ∈ l, bwd' b = bwd b) : Doubly fwd' bwd' first last l :=
  ⟨h.forth.congr hf, h.back.congr fun b hm => hb b (List.mem_reverse.mp hm)⟩

variable [DecidableEq α]

/-- The element before `a` links to the one after it. -/
def skip (fwd bwd : α → Option α) (a : α) : α → Option α :=
  match bwd a with
  | none => fwd
  | some q => Function.update fwd q (fwd a)

/-- The last element, if there is one, links to `a`. -/
def link (fwd : α → Option α) (last : Option α) (a : α) : α → Option α :=
  match last with
  | none => fwd
  | some z => Function.update fwd z (some a)

theorem skip_forth (h : Doubly fwd bwd first last (pre ++ a :: post)) (hn : (pre ++ a :: post).Nodup) :
    Chain (skip fwd bwd a) (if first = some a then fwd a else first) (pre ++ post) := by
  have hb : Chain bwd last (post.reverse ++ a :: pre.reverse) := by simpa using h.back
  have hprev : bwd a = pre.getLast? := by rw [hb.next_eq_head, List.head?_reverse]
  rcases List.eq_nil_or_concat pre with rfl | ⟨pre, q, rfl⟩
  · rw [skip, hprev]
    obtain rfl := h.forth.head_eq
    simpa using h.forth.tail
  · rw [List.concat_eq_append] at *
    rw [skip, hprev, List.getLast?_concat]
    have hf : first ≠ some a := by
      rw [h.first_eq]
      intro e
      obtain ⟨b, pre', hbq⟩ := List.exists_cons_of_ne_nil (show pre ++ [q] ≠ [] by simp)
      rw [hbq] at e hn
      obtain rfl : b = a := by simpa using e
      simp at hn
    rw [if_neg hf]
    have h := h.forth
    rw [List.append_assoc, List.singleton_append] at h hn ⊢
    exact h.splice (List.nodup_middle.mp hn).notMem

/-- **Detaching**: the neighbours of an element link past it. -/
theorem detach (h : Doubly fwd bwd first last (pre ++ a :: post)) (hn : (pre ++ a :: post).Nodup) :
    Doubly (skip fwd bwd a) (skip bwd fwd a) (if first = some a then fwd a else first)
      (if last = some a then bwd a else last) (pre ++ post) := by
  refine ⟨h.skip_forth hn, ?_⟩
  have hs : Doubly bwd fwd last first (post.reverse ++ a :: pre.reverse) := by simpa using h.symm
  rw [List.reverse_append]
  refine hs.skip_forth ?_
  rw [← List.nodup_reverse] at hn
  simpa using hn

theorem link_forth (h : Chain fwd first l) (hn : (l ++ [a]).Nodup) :
    Chain (link (Function.update fwd a none) l.getLast? a) (if l.getLast? = none then some a else first) (l ++ [a]) := by
  rcases List.eq_nil_or_concat l with rfl | ⟨l, z, rfl⟩
  · refine .cons ?_
    rw [List.getLast?_nil, link, Function.update_self]
    exact .nil
  rw [List.concat_eq_append] at *
  rw [List.getLast?_concat, link, if_neg (Option.some_ne_none z)]
  induction l generalizing first with
  | nil =>
      obtain rfl := h.head_eq
      have hza : a ≠ z := by rintro rfl; simp at hn
      refine .cons ?_
      rw [Function.update_self]
      refine .cons ?_
      rw [Function.update_of_ne hza, Function.update_self]
      exact .nil
  | cons b l ih =>
      obtain rfl := h.head_eq
      simp only [List.cons_append, List.nodup_cons, List.mem_append, List.mem_singleton, not_or] at hn
      refine .cons ?_
      rw [Function.update_of_ne hn.1.1.2, Function.update_of_ne hn.1.2]
      exact ih h.tail hn.2

/-- **Appending**: a new element links back to the last one, and that one to it. -/
theorem append (h : Doubly fwd bwd first last l) (hn : (l ++ [a]).Nodup) :
    Doubly (link (Function.update fwd a none) last a) (Function.update bwd a last)
      (if last = none then some a else first) (some a) (l ++ [a]) := by
  have ha : a ∉ l.reverse := by
    rw [List.mem_reverse]
    exact fun hm => (List.nodup_append.mp hn).2.2 a hm a (by simp) rfl
  constructor
  · rw [h.last_eq]
    exact link_forth h.forth hn
  · rw [List.reverse_append]
    exact h.back.push ha

/-- An element that no list has links to nothing and can be detached. -/
theorem detach_absent (h : Doubly fwd bwd first last l) (ha : a ∉ l) (hf : fwd a = none) (hb : bwd a = none) :
    Doubly (skip fwd bwd a) (skip bwd fwd a) (if first = some a then fwd a else first)
      (if last = some a then bwd a else last) l := by
  have h₁ : first ≠ some a := fun e => ha (List.mem_of_mem_head? (h.first_eq ▸ e))
  have h₂ : last ≠ some a := fun e => ha (List.mem_of_getLast? (h.last_eq ▸ e))
  rw [skip, hb, skip, hf, if_neg h₁, if_neg h₂]
  exact h

/-- **Moving to the end**: an element, of the list or new, is detached and appended. -/
theorem moveLast (h : Doubly fwd bwd first last l) (hn : l.Nodup) (ha : a ∈ l ∨ fwd a = none ∧ bwd a = none)
    (hlast : last ≠ some a) :
    Doubly (link (Function.update (skip fwd bwd a) a none) last a) (Function.update (skip bwd fwd a) a last)
      (if last = none then some a else if first = some a then fwd a else first) (some a)
      (l.filter (· ≠ a) ++ [a]) := by
  have hd : Doubly (skip fwd bwd a) (skip bwd fwd a) (if first = some a then fwd a else first) last
      (l.filter (· ≠ a)) := by
    by_cases hm : a ∈ l
    · obtain ⟨pre, post, rfl⟩ := List.append_of_mem hm
      have hd := h.detach hn
      rw [if_neg hlast] at hd
      have hm := (List.nodup_middle.mp hn).notMem
      rw [List.mem_append, not_or] at hm
      rw [List.filter_append, List.filter_cons_of_neg (by simp), List.filter_eq_self.mpr, List.filter_eq_self.mpr]
      · exact hd
      · intro b hb
        simpa using ne_of_mem_of_not_mem hb hm.2
      · intro b hb
        simpa using ne_of_mem_of_not_mem hb hm.1
    · obtain ⟨hf, hb⟩ := ha.resolve_left hm
      have hd := h.detach_absent hm hf hb
      rw [if_neg hlast] at hd
      rw [List.filter_eq_self.mpr fun b hb => by simpa using ne_of_mem_of_not_mem hb hm]
      exact hd
  refine hd.append (List.nodup_append.mpr ⟨hn.filter _, by simp, ?_⟩)
  simp

omit [DecidableEq α] in
/-- No element links to itself. -/
theorem fwd_ne (h : Doubly fwd bwd first last l) (ha : a ∈ l) : fwd a ≠ some a := by
  obtain ⟨pre, post, rfl⟩ := List.append_of_mem ha
  exact fun e => Chain.not_loop e h.forth.drop

omit [DecidableEq α] in
theorem bwd_ne (h : Doubly fwd bwd first last l) (ha : a ∈ l) : bwd a ≠ some a :=
  h.symm.fwd_ne (List.mem_reverse.mpr ha)

/-- The last element is where it would be moved to. -/
theorem moveLast_last (h : Doubly fwd bwd first (some a) l) (hn : l.Nodup) : l.filter (· ≠ a) ++ [a] = l := by
  obtain ⟨l, rfl⟩ := List.getLast?_eq_some_iff.mp h.last_eq.symm
  have ha : a ∉ l := fun hm => (List.nodup_append.mp hn).2.2 a hm a (by simp) rfl
  rw [List.filter_append, List.filter_eq_self.mpr fun b hb => by simpa using ne_of_mem_of_not_mem hb ha]
  simp

end Doubly

end Muxomucota.Lib
