import Mathlib.Data.List.Nodup
import Mathlib.Logic.Function.Basic
import Mathlib.Tactic.Common

/-!
# Lib — linked lists in memory

Elements with one link field, `next`, and a list as its head: `Chain next head l` says that from
`head` the links lead through exactly the elements of `l` and end.  Several lists may share the
field, as long as no element is in two of them.  `unlink` is the loop over the places that hold an
address, the head and the fields, which stops at the first that holds the element's.
-/

namespace Muxomucota.Lib

variable {α : Type*} {next next' : α → Option α} {head : Option α} {l pre post : List α} {a p q : α}

/-- The links lead from the head through `l`. -/
inductive Chain (next : α → Option α) : Option α → List α → Prop where
  | nil : Chain next none []
  | cons {a : α} {l : List α} (h : Chain next (next a) l) : Chain next (some a) (a :: l)

namespace Chain

theorem unique {l' : List α} (h : Chain next head l) (h' : Chain next head l') : l = l' := by
  induction h generalizing l' with
  | nil => cases h'; rfl
  | cons _ ih =>
      cases h' with
      | cons h' => rw [ih h']

/-- Only the fields of the elements count. -/
theorem congr (h : Chain next head l) (hn : ∀ a ∈ l, next' a = next a) : Chain next' head l := by
  induction h with
  | nil => exact .nil
  | cons _ ih =>
      refine .cons ?_
      rw [hn _ List.mem_cons_self]
      exact ih fun b hb => hn b (List.mem_cons_of_mem _ hb)

/-- An element that links to itself starts no list. -/
theorem not_loop (hloop : next a = some a) : ¬ Chain next (some a) l := by
  intro h
  induction l with
  | nil => cases h
  | cons b l ih =>
      cases h with
      | cons h =>
          rw [hloop] at h
          exact ih h

theorem head_eq (h : Chain next head (a :: l)) : head = some a := by
  cases h; rfl

theorem tail (h : Chain next head (a :: l)) : Chain next (next a) l := by
  cases h with
  | cons h => exact h

/-- The links from an element lead through the rest of its list. -/
theorem drop (h : Chain next head (pre ++ a :: post)) : Chain next (some a) (a :: post) := by
  induction pre generalizing head with
  | nil =>
      obtain rfl := h.head_eq
      exact h
  | cons b pre ih => exact ih h.tail

variable [DecidableEq α]

/-- An element of no list is put in front. -/
theorem push (h : Chain next head l) (ha : a ∉ l) :
    Chain (Function.update next a head) (some a) (a :: l) := by
  refine .cons ?_
  rw [Function.update_self]
  exact h.congr fun b hb => Function.update_of_ne (by rintro rfl; exact ha hb) ..

/-- An element links past its successor. -/
theorem splice (h : Chain next head (pre ++ q :: p :: post)) (hq : q ∉ pre ++ p :: post) :
    Chain (Function.update next q (next p)) head (pre ++ q :: post) := by
  induction pre generalizing head with
  | nil =>
      obtain rfl := h.head_eq
      refine .cons ?_
      rw [Function.update_self]
      refine h.tail.tail.congr fun b hb => Function.update_of_ne ?_ ..
      rintro rfl
      exact hq (List.mem_cons_of_mem _ hb)
  | cons b pre ih =>
      obtain rfl := h.head_eq
      have hbq : b ≠ q := by rintro rfl; exact hq List.mem_cons_self
      refine .cons ?_
      rw [Function.update_of_ne hbq]
      exact ih h.tail fun hm => hq (List.mem_cons_of_mem _ hm)

end Chain

/-- Follow the links from the head to the first element that has `P`. -/
def findIn (next : α → Option α) (P : α → Bool) : Nat → Option α → Option (Option α)
  | 0, _ => none
  | _ + 1, none => some none
  | n + 1, some a => if P a then some (some a) else findIn next P n (next a)

/-- In a list the walk ends, and finds the first element that has `P`. -/
theorem Chain.findIn (h : Chain next head l) (P : α → Bool) {n : Nat} (hn : l.length < n) :
    Lib.findIn next P n head = some (l.find? P) := by
  induction h generalizing n with
  | nil =>
      obtain ⟨n, rfl⟩ := Nat.exists_eq_add_of_lt hn
      rfl
  | @cons a l _ ih =>
      obtain ⟨n, rfl⟩ := Nat.exists_eq_add_of_le' (Nat.lt_of_le_of_lt (Nat.zero_le _) hn)
      rw [Lib.findIn, List.find?_cons]
      cases P a with
      | true => rfl
      | false => exact ih (Nat.lt_of_succ_lt_succ hn)

theorem Chain.findIn_eq (h : Chain next head l) {P : α → Bool} {n : Nat} {r : Option α}
    (hf : Lib.findIn next P n head = some r) : r = l.find? P := by
  induction h generalizing n with
  | nil =>
      cases n with
      | zero => cases hf
      | succ n => exact (Option.some.inj hf).symm
  | @cons a l _ ih =>
      cases n with
      | zero => cases hf
      | succ n =>
          rw [Lib.findIn] at hf
          rw [List.find?_cons]
          cases hP : P a with
          | true =>
              rw [hP, if_pos rfl] at hf
              exact (Option.some.inj hf).symm
          | false =>
              rw [hP, if_neg Bool.false_ne_true] at hf
              exact ih hf

/-- Follow the links from the head to the first element that has `P`: is there one? -/
def meets (next : α → Option α) (P : α → Bool) (n : Nat) (head : Option α) : Option Bool :=
  (findIn next P n head).map Option.isSome

/-- In a list the walk ends. -/
theorem Chain.meets (h : Chain next head l) (P : α → Bool) {n : Nat} (hn : l.length < n) :
    Lib.meets next P n head = some (l.any P) := by
  rw [Lib.meets, h.findIn P hn, Option.map_some, List.isSome_find?]

theorem Chain.meets_eq (h : Chain next head l) {P : α → Bool} {n : Nat} {b : Bool}
    (hm : Lib.meets next P n head = some b) : b = l.any P := by
  obtain ⟨r, hr, rfl⟩ := Option.map_eq_some_iff.mp hm
  rw [h.findIn_eq hr, List.isSome_find?]

/-- The elements that the links lead through. -/
def walk (next : α → Option α) : Nat → Option α → Option (List α)
  | 0, _ => none
  | _ + 1, none => some []
  | n + 1, some a => (walk next n (next a)).map (a :: ·)

/-- What a place holds: the head, or a field. -/
def slot (next : α → Option α) (head : Option α) : Option α → Option α
  | none => head
  | some a => next a

section Unlink

variable [DecidableEq α]

/-- Go from place to place until one holds `p`, or nothing. -/
def seek (next : α → Option α) (head : Option α) (p : α) : Nat → Option α → Option (Option α)
  | 0, _ => none
  | n + 1, lp =>
      match slot next head lp with
      | none => some lp
      | some q => if q = p then some lp else seek next head p n (some q)

/-- Let the place that holds `p` hold what `p` links to. -/
def unlink (next : α → Option α) (head : Option α) (p : α) (n : Nat) :
    Option ((α → Option α) × Option α) := do
  let lp ← seek next head p n none
  if slot next head lp = some p then
    match lp with
    | none => some (next, next p)
    | some q => some (Function.update next q (next p), head)
  else some (next, head)

/-- The place at which the loop stops. -/
theorem seek_spec {n : Nat} {lp : Option α} (h : Chain next (slot next head lp) l)
    (hp : p ∈ l) (hn : l.length ≤ n) :
    ∃ pre post, l = pre ++ p :: post ∧
      ((pre = [] ∧ seek next head p n lp = some lp) ∨
        ∃ pre' q, pre = pre' ++ [q] ∧ seek next head p n lp = some (some q)) := by
  induction l generalizing n lp with
  | nil => cases hp
  | cons b l ih =>
      obtain ⟨n, rfl⟩ := Nat.exists_eq_add_of_le' (Nat.lt_of_lt_of_le (Nat.succ_pos _) hn)
      have hslot := h.head_eq
      by_cases hb : b = p
      · subst hb
        exact ⟨[], l, rfl, .inl ⟨rfl, by simp [seek, hslot]⟩⟩
      · have hmem : p ∈ l := by simpa [Ne.symm hb] using hp
        have hseek : seek next head p (n + 1) lp = seek next head p n (some b) := by
          simp [seek, hslot, hb]
        have htail : Chain next (slot next head (some b)) l := h.tail
        obtain ⟨pre, post, rfl, hcases⟩ := ih htail hmem (by simpa using hn)
        refine ⟨b :: pre, post, rfl, .inr ?_⟩
        rcases hcases with ⟨rfl, hs⟩ | ⟨pre', q, rfl, hs⟩
        · exact ⟨[], b, rfl, hseek.trans hs⟩
        · exact ⟨b :: pre', q, rfl, hseek.trans hs⟩

/-- **Unlinking**: the element, and no other, leaves the list; fields of elements of other lists stay
as they are. -/
theorem Chain.unlink {n : Nat} (h : Chain next head l) (hnd : l.Nodup) (hp : p ∈ l)
    (hn : l.length ≤ n) :
    ∃ next' head', Lib.unlink next head p n = some (next', head') ∧
      Chain next' head' (l.erase p) ∧ ∀ a, a ∉ l → next' a = next a := by
  have hstart : Chain next (slot next head none) l := h
  obtain ⟨pre, post, rfl, hcases⟩ := seek_spec hstart hp hn
  have hpre : p ∉ pre := fun hm => by
    have := (List.nodup_append'.mp hnd).2.2 hm
    exact this List.mem_cons_self
  have herase : (pre ++ p :: post).erase p = pre ++ post := by
    rw [List.erase_append_right _ hpre, List.erase_cons_head]
  rw [herase]
  rcases hcases with ⟨rfl, hs⟩ | ⟨pre', q, rfl, hs⟩
  · have hhead : head = some p := h.head_eq
    refine ⟨next, next p, ?_, h.tail, fun a _ => rfl⟩
    rw [Lib.unlink, hs]
    simp [slot, hhead]
  · have hsplit : pre' ++ [q] ++ p :: post = pre' ++ q :: p :: post := by simp
    rw [hsplit] at h hnd
    have hq : q ∉ pre' ++ p :: post := (List.nodup_middle.mp hnd).notMem
    refine ⟨Function.update next q (next p), head, ?_, ?_, fun a ha => ?_⟩
    · have hnext : next q = some p := by
        clear hs hsplit hpre hp hn herase hstart
        induction pre' generalizing head with
        | nil => exact h.tail.head_eq
        | cons b pre' ih =>
            exact ih h.tail (List.nodup_cons.mp hnd).2
              fun hm => hq (List.mem_cons_of_mem _ hm)
      rw [Lib.unlink, hs]
      simp [slot, hnext]
    · simpa using h.splice hq
    · refine Function.update_of_ne ?_ ..
      rintro rfl
      simp at ha

end Unlink

end Muxomucota.Lib
