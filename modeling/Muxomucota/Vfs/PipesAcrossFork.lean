import Mathlib.Data.List.Nodup
import Muxomucota.Vfs.Pipes

/-!
# Vfs — pipes across a fork

The kernel copies the pipe table, and only then the child asks each service for its own copies.  A
`DESTROY_PIPE` of the parent that a service handles in between destroys an object the child still
names.  If that does not happen, and no service with one ID for all pipes is involved, every
`DUPLICATE_PIPE` names a live object and in the end no object is held twice.
-/

namespace Muxomucota.Vfs
open Lib

variable {services : Int → Duplication} {s s' : State} {a : Act}

/-- The entry is in use, and not only being created. -/
def Held (s : State) (i : Nat) : Prop :=
  i < mfile ∧ (s.pipes i).pid ≠ 0 ∧ s.parent ≠ .reserved i ∧ s.parent ≠ .located i

/-- The entry was copied by `fork`, and the child has not got its own object yet. -/
def Child.Pending (c : Child) (i : Nat) : Prop := c.pos ≤ i ∧ i < mfile ∧ (c.pipes i).pid ≠ 0

/-- The child has its own object. -/
def Child.Done (c : Child) (i : Nat) : Prop := i < c.pos ∧ (c.pipes i).pid ≠ 0

/-- **The condition**: `fork` copies no pipe of a service with one ID for all, and no
`DESTROY_PIPE` is handled for an object that the child has still to ask for. -/
def StepOk (services : Int → Duplication) (s : State) : Act → Prop
  | .fork => ∀ i, Held s i → keeps services (s.pipes i) = true
  | .serviceDestroy p => ∀ c, s.child = some c → ∀ i, c.Pending i → c.pipes i ≠ p
  | _ => True

/-- The entries of the parent, the messages that destroy an object, and the child's own entries name
live objects, no object twice; the entries the child has still to ask for name live objects. -/
structure Inv (services : Int → Duplication) (s : State) : Prop where
  nodup : s.live.Nodup
  parentLive : ∀ i, Held s i → keeps services (s.pipes i) = true → s.pipes i ∈ s.live
  parentInj : ∀ i j, Held s i → Held s j → keeps services (s.pipes i) = true →
    s.pipes i = s.pipes j → i = j
  destroyLive : ∀ p ∈ s.destroys, keeps services p = true → p ∈ s.live
  destroyOnce : (s.destroys.filter (keeps services)).Nodup
  destroyApart : ∀ p ∈ s.destroys, keeps services p = true → ∀ i, Held s i → s.pipes i ≠ p
  waits : ∀ c, s.child = some c → c.waiting = true → c.Pending c.pos
  childKeeps : ∀ c, s.child = some c → ∀ i, c.Pending i ∨ c.Done i →
    keeps services (c.pipes i) = true
  pendingLive : ∀ c, s.child = some c → ∀ i, c.Pending i → c.pipes i ∈ s.live
  doneLive : ∀ c, s.child = some c → ∀ i, c.Done i → c.pipes i ∈ s.live
  doneApart : ∀ c, s.child = some c → ∀ i, c.Done i →
    c.pipes i ∉ s.destroys ∧ ∀ j, Held s j → c.pipes i ≠ s.pipes j

theorem inv_init : Inv services .init where
  nodup := List.nodup_nil
  parentLive i h := absurd rfl h.2.1
  parentInj i j h := absurd rfl h.2.1
  destroyLive p hp := by cases hp
  destroyOnce := List.nodup_nil
  destroyApart p hp := by cases hp
  waits c hc := by cases hc
  childKeeps c hc := by cases hc
  pendingLive c hc := by cases hc
  doneLive c hc := by cases hc
  doneApart c hc := by cases hc

/-! ### One step -/

/-- The parent's table changes only where it does not hold an object afterwards. -/
theorem Inv.relabel {pipes : Nat → Pipe} {parent : Parent} (h : Inv services s)
    (hheld : ∀ j, Held { s with pipes, parent } j → Held s j ∧ pipes j = s.pipes j) :
    Inv services { s with pipes, parent } where
  nodup := h.nodup
  parentLive j hj hk := by
    obtain ⟨hj, heq⟩ := hheld j hj
    dsimp only at hk ⊢
    rw [heq] at hk ⊢
    exact h.parentLive j hj hk
  parentInj i j hi hj hk heq := by
    obtain ⟨hi, heqi⟩ := hheld i hi
    obtain ⟨hj, heqj⟩ := hheld j hj
    dsimp only at hk heq
    rw [heqi] at hk heq
    rw [heqj] at heq
    exact h.parentInj i j hi hj hk heq
  destroyLive := h.destroyLive
  destroyOnce := h.destroyOnce
  destroyApart p hp hk j hj := by
    obtain ⟨hj, heq⟩ := hheld j hj
    dsimp only
    rw [heq]
    exact h.destroyApart p hp hk j hj
  waits := h.waits
  childKeeps := h.childKeeps
  pendingLive := h.pendingLive
  doneLive := h.doneLive
  doneApart c hc i hi := by
    obtain ⟨hnot, hall⟩ := h.doneApart c hc i hi
    refine ⟨hnot, fun j hj => ?_⟩
    obtain ⟨hj, heq⟩ := hheld j hj
    dsimp only
    rw [heq]
    exact hall j hj

/-- The parent changes an entry that it alone was busy with and does not hold afterwards. -/
theorem Inv.relabelAt {i : Nat} {p : Pipe} {parent : Parent} (h : Inv services s)
    (hbusy : ∀ j, j ≠ i → s.parent ≠ .reserved j ∧ s.parent ≠ .located j)
    (hnot : p.pid = 0 ∨ parent = .reserved i ∨ parent = .located i) :
    Inv services { s with pipes := Function.update s.pipes i p, parent } := by
  refine h.relabel ?_
  rintro j ⟨hlt, hused, hres, hloc⟩
  have hji : j ≠ i := by
    rintro rfl
    rcases hnot with hfree | hnot | hnot
    · simp [hfree] at hused
    · exact hres hnot
    · exact hloc hnot
  dsimp only at hused
  rw [Function.update_of_ne hji] at hused ⊢
  exact ⟨⟨hlt, hused, hbusy j hji⟩, rfl⟩

/-- A new object joins the live ones. -/
theorem mem_join {p q : Pipe} {live : List Pipe} (hq : q ∈ live) :
    q ∈ if keeps services p then p :: live else live := by
  split
  · exact List.mem_cons_of_mem _ hq
  · exact hq

theorem mem_join_self {p : Pipe} {live : List Pipe} (hp : keeps services p = true) :
    p ∈ if keeps services p then p :: live else live := by
  rw [if_pos hp]
  exact List.mem_cons_self

theorem nodup_join {p : Pipe} {live : List Pipe} (h : live.Nodup)
    (hnew : keeps services p = true → p ∉ live) :
    (if keeps services p then p :: live else live).Nodup := by
  split
  · rename_i hp
    exact List.nodup_cons.mpr ⟨hnew hp, h⟩
  · exact h

/-- The parent gets a new object. -/
theorem Inv.create {i : Nat} {p : Pipe} (h : Inv services s) (hloc : s.parent = .located i)
    (hnew : keeps services p = true → p ∉ s.live) :
    Inv services { s with
      live := if keeps services p then p :: s.live else s.live
      pipes := Function.update s.pipes i p
      parent := .idle } := by
  have hself : (Function.update s.pipes i p) i = p := Function.update_self ..
  have hoff : ∀ j, j ≠ i → (Function.update s.pipes i p) j = s.pipes j := fun j hj =>
    Function.update_of_ne hj ..
  have hheld : ∀ j, j ≠ i → Held { s with
      live := if keeps services p then p :: s.live else s.live
      pipes := Function.update s.pipes i p
      parent := .idle } j → Held s j := by
    rintro j hj ⟨hlt, hused, -⟩
    dsimp only at hused
    rw [hoff j hj] at hused
    refine ⟨hlt, hused, by rw [hloc]; nofun, ?_⟩
    rw [hloc]
    rintro ⟨⟩
    exact hj rfl
  refine ⟨nodup_join h.nodup hnew, fun j hj hk => ?_, fun j k hj hk hkeep heq => ?_,
    fun q hq hk => mem_join (h.destroyLive q hq hk), h.destroyOnce, fun q hq hk j hj => ?_,
    h.waits, h.childKeeps, fun c hc j hj => mem_join (h.pendingLive c hc j hj),
    fun c hc j hj => mem_join (h.doneLive c hc j hj), fun c hc j hj => ?_⟩
  · dsimp only at hk ⊢
    by_cases hji : j = i
    · subst hji
      rw [hself] at hk ⊢
      exact mem_join_self hk
    · rw [hoff j hji] at hk ⊢
      exact mem_join (h.parentLive j (hheld j hji hj) hk)
  · dsimp only at hkeep heq
    by_cases hji : j = i <;> by_cases hki : k = i
    · rw [hji, hki]
    · subst hji
      rw [hself] at hkeep heq
      rw [hoff k hki] at heq
      refine absurd ?_ (hnew hkeep)
      rw [heq] at hkeep ⊢
      exact h.parentLive k (hheld k hki hk) hkeep
    · subst hki
      rw [hself, hoff j hji] at heq
      rw [hoff j hji] at hkeep
      refine absurd ?_ (hnew (heq ▸ hkeep))
      rw [← heq]
      exact h.parentLive j (hheld j hji hj) hkeep
    · rw [hoff j hji] at hkeep heq
      rw [hoff k hki] at heq
      exact h.parentInj j k (hheld j hji hj) (hheld k hki hk) hkeep heq
  · dsimp only
    by_cases hji : j = i
    · subst hji
      rw [hself]
      rintro rfl
      exact hnew hk (h.destroyLive _ hq hk)
    · rw [hoff j hji]
      exact h.destroyApart q hq hk j (hheld j hji hj)
  · obtain ⟨hnot, hall⟩ := h.doneApart c hc j hj
    refine ⟨hnot, fun k hk => ?_⟩
    dsimp only
    by_cases hki : k = i
    · subst hki
      rw [hself]
      rintro heq
      have hkeep := h.childKeeps c hc j (.inr hj)
      have hlive := h.doneLive c hc j hj
      rw [heq] at hkeep hlive
      exact hnew hkeep hlive
    · rw [hoff k hki]
      exact hall k (hheld k hki hk)

/-- A `DESTROY_PIPE` sets out: what the parent held, the message names. -/
theorem Inv.destroyPipe {i : Nat} (h : Inv services s) (hidle : s.parent = .idle) (hi : i < mfile) :
    Inv services { s with
      pipes := free s.pipes i
      destroys := if (s.pipes i).pid ≠ 0 then s.pipes i :: s.destroys else s.destroys } := by
  have hheld : ∀ j, Held { s with
      pipes := free s.pipes i
      destroys := if (s.pipes i).pid ≠ 0 then s.pipes i :: s.destroys else s.destroys } j →
      Held s j ∧ free s.pipes i j = s.pipes j ∧ j ≠ i := by
    rintro j ⟨hlt, hused, -⟩
    by_cases hji : j = i
    · subst hji
      simp [free] at hused
    · have heq : free s.pipes i j = s.pipes j := Function.update_of_ne hji ..
      dsimp only at hused
      rw [heq] at hused
      exact ⟨⟨hlt, hused, by rw [hidle]; nofun, by rw [hidle]; nofun⟩, heq, hji⟩
  have hrelabel : Inv services { s with pipes := free s.pipes i, parent := s.parent } :=
    h.relabel fun j hj => ⟨(hheld j hj).1, (hheld j hj).2.1⟩
  by_cases hused : (s.pipes i).pid = 0
  · simp only [hused, ne_eq, not_true_eq_false, if_false]
    exact hrelabel
  · have hold : Held s i := ⟨hi, hused, by rw [hidle]; nofun, by rw [hidle]; nofun⟩
    simp only [ne_eq, hused, not_false_eq_true, if_true]
    refine { hrelabel with
      destroyLive := fun q hq hk => ?_
      destroyOnce := ?_
      destroyApart := fun q hq hk j hj => ?_
      doneApart := fun c hc j hj => ?_ }
    · rcases List.mem_cons.mp hq with rfl | hq
      · exact h.parentLive i hold hk
      · exact h.destroyLive q hq hk
    · rw [List.filter_cons]
      split
      · rename_i hk
        refine List.nodup_cons.mpr ⟨fun hmem => ?_, h.destroyOnce⟩
        exact h.destroyApart _ (List.mem_of_mem_filter hmem) hk i hold rfl
      · exact h.destroyOnce
    · obtain ⟨hj', heq, hji⟩ := hheld j (by simpa [hused] using hj)
      dsimp only
      rw [heq]
      rcases List.mem_cons.mp hq with rfl | hq
      · intro hsame
        exact hji (h.parentInj j i hj' hold (by rw [hsame]; exact hk) hsame)
      · exact h.destroyApart q hq hk j hj'
    · obtain ⟨hnot, hall⟩ := hrelabel.doneApart c hc j hj
      refine ⟨fun hmem => ?_, hall⟩
      rcases List.mem_cons.mp hmem with heq | hmem
      · exact (h.doneApart c hc j hj).2 i hold heq
      · exact hnot hmem

/-- A `DESTROY_PIPE` is handled: nobody else names the object. -/
theorem Inv.serviceDestroy {p : Pipe} (h : Inv services s) (hp : p ∈ s.destroys)
    (hpending : ∀ c, s.child = some c → ∀ i, c.Pending i → c.pipes i ≠ p) :
    Inv services { s with
      live := if keeps services p then s.live.erase p else s.live
      destroys := s.destroys.erase p } := by
  have hlive : ∀ q, q ∈ s.live → q ≠ p → q ∈ if keeps services p then s.live.erase p else s.live := by
    intro q hq hne
    split
    · exact (List.mem_erase_of_ne hne).mpr hq
    · exact hq
  have hgone : keeps services p = true → p ∉ s.destroys.erase p := by
    intro hk hmem
    have hcount := List.nodup_iff_count_le_one.mp h.destroyOnce p
    rw [List.count_filter hk] at hcount
    have hpos := List.count_pos_iff.mpr hmem
    rw [List.count_erase_self] at hpos
    omega
  refine ⟨?_, fun j hj hk => hlive _ (h.parentLive j hj hk) (fun heq => ?_), h.parentInj,
    fun q hq hk => hlive q (h.destroyLive q (List.mem_of_mem_erase hq) hk) ?_,
    h.destroyOnce.sublist (List.erase_sublist.filter _),
    fun q hq => h.destroyApart q (List.mem_of_mem_erase hq), h.waits, h.childKeeps,
    fun c hc j hj => hlive _ (h.pendingLive c hc j hj) (hpending c hc j hj),
    fun c hc j hj => hlive _ (h.doneLive c hc j hj) ?_, fun c hc j hj => ?_⟩
  · dsimp only
    split
    · exact h.nodup.erase p
    · exact h.nodup
  · exact h.destroyApart p hp (heq ▸ hk) j hj heq
  · rintro rfl
    exact hgone hk hq
  · rintro rfl
    exact (h.doneApart c hc j hj).1 hp
  · obtain ⟨hnot, hall⟩ := h.doneApart c hc j hj
    exact ⟨fun hmem => hnot (List.mem_of_mem_erase hmem), hall⟩

/-- The child starts with a copy of the table. -/
theorem Inv.fork (h : Inv services s) (hidle : s.parent = .idle)
    (hkeeps : ∀ i, Held s i → keeps services (s.pipes i) = true) :
    Inv services { s with child := some ⟨s.pipes, 0, false, false⟩ } := by
  have hheld : ∀ i, Child.Pending ⟨s.pipes, 0, false, false⟩ i → Held s i := fun i hi =>
    ⟨hi.2.1, hi.2.2, by rw [hidle]; nofun, by rw [hidle]; nofun⟩
  refine { h with
    waits := by rintro c ⟨⟩ ⟨⟩
    childKeeps := ?_
    pendingLive := ?_
    doneLive := ?_
    doneApart := ?_ } <;> rintro c ⟨⟩ i hi
  · rcases hi with hi | hi
    · exact hkeeps i (hheld i hi)
    · exact absurd hi.1 (Nat.not_lt_zero i)
  · exact h.parentLive i (hheld i hi) (hkeeps i (hheld i hi))
  · exact absurd hi.1 (Nat.not_lt_zero i)
  · exact absurd hi.1 (Nat.not_lt_zero i)

/-- The child goes on without changing its table. -/
theorem Inv.childMoves {c c' : Child} (h : Inv services s) (hc : s.child = some c)
    (hpipes : c'.pipes = c.pipes) (hpos : c.pos ≤ c'.pos)
    (hskip : ∀ i, i < c'.pos → i < c.pos ∨ (c.pipes i).pid = 0)
    (hwaits : c'.waiting = true → c'.Pending c'.pos) :
    Inv services { s with child := some c' } := by
  have hpending : ∀ i, c'.Pending i → c.Pending i := fun i hi =>
    ⟨Nat.le_trans hpos hi.1, hi.2.1, hpipes ▸ hi.2.2⟩
  have hdone : ∀ i, c'.Done i → c.Done i := fun i hi =>
    have hused : (c.pipes i).pid ≠ 0 := hpipes ▸ hi.2
    ⟨(hskip i hi.1).resolve_right hused, hused⟩
  refine { h with
    waits := by rintro c'' ⟨⟩; exact hwaits
    childKeeps := ?_
    pendingLive := ?_
    doneLive := ?_
    doneApart := ?_ } <;> rintro c'' ⟨⟩ i hi <;> rw [hpipes]
  · exact h.childKeeps c hc i (hi.imp (hpending i) (hdone i))
  · exact h.pendingLive c hc i (hpending i hi)
  · exact h.doneLive c hc i (hdone i hi)
  · exact h.doneApart c hc i (hdone i hi)

/-- A `DUPLICATE_PIPE` is answered with a new object. -/
theorem Inv.serviceDuplicate {c : Child} {p : Pipe} (h : Inv services s) (hc : s.child = some c)
    (hkeep : keeps services p = true) (hnew : p ∉ s.live) :
    Inv services { s with
      live := p :: s.live
      child := some { c with
        pipes := Function.update c.pipes c.pos p, pos := c.pos + 1, waiting := false } } := by
  have hoff : ∀ i, i ≠ c.pos → Function.update c.pipes c.pos p i = c.pipes i := fun i hi =>
    Function.update_of_ne hi ..
  have hpending : ∀ i, Child.Pending { c with
      pipes := Function.update c.pipes c.pos p, pos := c.pos + 1, waiting := false } i →
      i ≠ c.pos ∧ c.Pending i := by
    rintro i ⟨hpos, hlt, hused⟩
    dsimp only at hpos hused
    have hne : i ≠ c.pos := by omega
    rw [hoff i hne] at hused
    exact ⟨hne, by omega, hlt, hused⟩
  have hdone : ∀ i, Child.Done { c with
      pipes := Function.update c.pipes c.pos p, pos := c.pos + 1, waiting := false } i →
      i = c.pos ∨ (i ≠ c.pos ∧ c.Done i) := by
    rintro i ⟨hpos, hused⟩
    dsimp only at hpos hused
    by_cases hne : i = c.pos
    · exact .inl hne
    · rw [hoff i hne] at hused
      exact .inr ⟨hne, by omega, hused⟩
  refine ⟨List.nodup_cons.mpr ⟨hnew, h.nodup⟩,
    fun j hj hk => List.mem_cons_of_mem _ (h.parentLive j hj hk), h.parentInj,
    fun q hq hk => List.mem_cons_of_mem _ (h.destroyLive q hq hk), h.destroyOnce, h.destroyApart,
    by rintro c' ⟨⟩ ⟨⟩, ?_, ?_, ?_, ?_⟩ <;> rintro c' ⟨⟩ i hi <;> dsimp only
  · rcases hi with hi | hi
    · obtain ⟨hne, hi⟩ := hpending i hi
      rw [hoff i hne]
      exact h.childKeeps c hc i (.inl hi)
    · rcases hdone i hi with rfl | ⟨hne, hi⟩
      · rwa [Function.update_self]
      · rw [hoff i hne]
        exact h.childKeeps c hc i (.inr hi)
  · obtain ⟨hne, hi⟩ := hpending i hi
    rw [hoff i hne]
    exact List.mem_cons_of_mem _ (h.pendingLive c hc i hi)
  · rcases hdone i hi with rfl | ⟨hne, hi⟩
    · rw [Function.update_self]
      exact List.mem_cons_self
    · rw [hoff i hne]
      exact List.mem_cons_of_mem _ (h.doneLive c hc i hi)
  · rcases hdone i hi with rfl | ⟨hne, hi⟩
    · rw [Function.update_self]
      refine ⟨fun hmem => hnew (h.destroyLive p hmem hkeep), fun j hj heq => hnew ?_⟩
      rw [heq] at hkeep ⊢
      exact h.parentLive j hj hkeep
    · rw [hoff i hne]
      exact h.doneApart c hc i hi

theorem inv_step (h : Inv services s) (ok : StepOk services s a)
    (hs : step services s a = some s') : Inv services s' := by
  have hidle : s.parent = .idle → ∀ j : Nat, s.parent ≠ .reserved j ∧ s.parent ≠ .located j := by
    intro hidle j
    rw [hidle]
    exact ⟨nofun, nofun⟩
  have hlocated : ∀ {i}, s.parent = .located i →
      ∀ j, j ≠ i → s.parent ≠ .reserved j ∧ s.parent ≠ .located j := by
    intro i hparent j hji
    rw [hparent]
    exact ⟨nofun, by rintro ⟨⟩; exact hji rfl⟩
  cases a with
  | reserve i =>
      simp only [step, Option.ite_none_right_eq_some, Option.some.injEq] at hs
      obtain ⟨⟨hparent, -⟩, rfl⟩ := hs
      exact h.relabelAt (fun j _ => hidle hparent j) (.inr (.inl rfl))
  | locate pid =>
      simp only [step] at hs
      split at hs
      · rename_i i hparent
        have hbusy : ∀ j, j ≠ i → s.parent ≠ .reserved j ∧ s.parent ≠ .located j := by
          intro j hji
          rw [hparent]
          exact ⟨by rintro ⟨⟩; exact hji rfl, nofun⟩
        split at hs
        · obtain rfl := Option.some.inj hs
          exact h.relabelAt hbusy (.inl rfl)
        · split at hs
          · cases hs
          · obtain rfl := Option.some.inj hs
            exact h.relabelAt hbusy (.inr (.inr rfl))
      · cases hs
  | symlink =>
      simp only [step] at hs
      split at hs
      · rename_i i hparent
        obtain rfl := Option.some.inj hs
        exact h.relabelAt (hlocated hparent) (.inl rfl)
      · cases hs
  | create id =>
      simp only [step] at hs
      split at hs
      · rename_i i hparent
        split at hs
        · cases hs
        · rename_i hmay
          split at hs
          · obtain rfl := Option.some.inj hs
            exact h.relabelAt (hlocated hparent) (.inl rfl)
          · rename_i hid
            obtain rfl := Option.some.inj hs
            refine h.create hparent fun hkeep hmem => hmay ?_
            unfold mayCreate
            unfold keeps at hkeep
            split
            · rename_i hshares
              rw [hshares] at hkeep
              cases hkeep
            · simpa [hid] using hmem
      · cases hs
  | destroyPipe i =>
      simp only [step, Option.ite_none_right_eq_some, Option.some.injEq] at hs
      obtain ⟨⟨hparent, hi⟩, rfl⟩ := hs
      exact h.destroyPipe hparent hi
  | serviceDestroy p =>
      simp only [step, Option.ite_none_right_eq_some, Option.some.injEq] at hs
      obtain ⟨hp, rfl⟩ := hs
      exact h.serviceDestroy hp ok
  | fork =>
      simp only [step, Option.ite_none_right_eq_some, Option.some.injEq] at hs
      obtain ⟨⟨hparent, -⟩, rfl⟩ := hs
      exact h.fork hparent ok
  | childNext =>
      obtain ⟨c, hc, hs⟩ := Option.bind_eq_some_iff.mp hs
      split at hs
      · cases hs
      rename_i hmoves
      obtain ⟨hwait, -, hpos⟩ : c.waiting = false ∧ c.aborted = false ∧ c.pos < mfile := by
        simpa using hmoves
      split at hs
      · rename_i hskip
        obtain rfl := Option.some.inj hs
        refine h.childMoves hc rfl (Nat.le_succ _) (fun i hi => ?_) fun hw => ?_
        · dsimp only at hi
          by_cases heq : i = c.pos
          · exact .inr (heq ▸ hskip)
          · exact .inl (by omega)
        · dsimp only at hw
          rw [hwait] at hw
          cases hw
      · rename_i hused
        obtain rfl := Option.some.inj hs
        exact h.childMoves hc rfl (Nat.le_refl _) (fun i hi => .inl hi)
          fun _ => ⟨Nat.le_refl _, hpos, hused⟩
  | serviceDuplicate id =>
      obtain ⟨c, hc, hs⟩ := Option.bind_eq_some_iff.mp hs
      dsimp only at hs
      split at hs
      · cases hs
      rename_i hmay
      obtain ⟨hwait, hmay⟩ : c.waiting = true ∧
          mayDuplicate services s (c.pipes c.pos) id = true := by simpa using hmay
      split at hs
      · obtain rfl := Option.some.inj hs
        exact h.childMoves hc rfl (Nat.le_refl _) (fun i hi => .inl hi) nofun
      · rename_i hid
        have hkeep := h.childKeeps c hc c.pos (.inl (h.waits c hc hwait))
        rw [if_pos hkeep] at hs
        obtain rfl := Option.some.inj hs
        refine h.serviceDuplicate (p := { c.pipes c.pos with id }) hc hkeep ?_
        unfold mayDuplicate at hmay
        unfold keeps at hkeep
        cases hkind : services (c.pipes c.pos).pid with
        | copies =>
            rw [hkind] at hmay
            simpa [hid] using hmay
        | shares one =>
            rw [hkind] at hkeep
            cases hkeep
        | missing =>
            rw [hkind] at hmay
            exact absurd (of_decide_eq_true hmay) hid

/-- Runs that meet the condition keep the invariant. -/
theorem inv_run {acts : List Act} (h : Run (step services) (StepOk services) .init acts s) :
    Inv services s :=
  h.invariant (fun _ _ _ hI ok hs => inv_step hI ok hs) inv_init

/-- **Duplication after a fork**: in every run that meets the condition, a `DUPLICATE_PIPE` that a
service handles names an object that exists, and once the child is through, it and the parent hold
no object in common. -/
theorem duplicates_exist {acts : List Act}
    (h : Run (step services) (StepOk services) .init acts s) :
    (∀ id c, (step services s (.serviceDuplicate id)).isSome → s.child = some c →
      c.pipes c.pos ∈ s.live) ∧
    (∀ c, s.child = some c → c.pos = mfile → ∀ i j, i < mfile → (c.pipes i).pid ≠ 0 → Held s j →
      c.pipes i ≠ s.pipes j) := by
  have hI := inv_run h
  constructor
  · intro id c hsome hc
    have hwait : c.waiting = true := by
      by_contra hno
      rw [Bool.not_eq_true] at hno
      simp [step, hc, hno] at hsome
    exact hI.pendingLive c hc c.pos (hI.waits c hc hwait)
  · intro c hc hpos i j hi hused hj
    exact (hI.doneApart c hc i ⟨by omega, hused⟩).2 j hj

/-- Every service makes a new object for each pipe. -/
def allCopy : Int → Duplication := fun _ => .copies

/-- One pipe, and a fork. -/
def pipeAndFork : List Act := [.reserve 0, .locate 5, .create 100, .fork]

/-- The child has asked for its copy; the parent's pipe is still there. -/
theorem duplicates_exist_one : ∃ s c, Run (step allCopy) (StepOk allCopy) .init
    (pipeAndFork ++ [.childNext]) s ∧ s.child = some c ∧ c.pipes c.pos ∈ s.live := by
  obtain ⟨s, c, hrun, hc, hsome⟩ : ∃ s c, Run (step allCopy) (StepOk allCopy) .init
      (pipeAndFork ++ [.childNext]) s ∧ s.child = some c ∧
      (step allCopy s (.serviceDuplicate 200)).isSome :=
    ⟨_, _, .more trivial rfl (.more trivial rfl (.more trivial rfl
      (.more (fun _ _ => rfl) rfl (.one trivial rfl)))), rfl, rfl⟩
  exact ⟨s, c, hrun, hc, (duplicates_exist hrun).1 200 c hsome hc⟩

/-- The parent closes its pipe right after the fork, and the service handles that first: the child's
`DUPLICATE_PIPE` names an object that has been destroyed. -/
theorem duplicate_after_destroy : ∃ s s' c, Run (step allCopy) anyStep .init
    (pipeAndFork ++ [.destroyPipe 0, .serviceDestroy ⟨5, 100⟩, .childNext]) s ∧
    step allCopy s (.serviceDuplicate 200) = some s' ∧ s.child = some c ∧
    c.pipes c.pos = ⟨5, 100⟩ ∧ (⟨5, 100⟩ : Pipe) ∉ s.live :=
  ⟨_, _, _, .more trivial rfl (.more trivial rfl (.more trivial rfl (.more trivial rfl
    (.more trivial rfl (.more trivial rfl (.one trivial rfl)))))), rfl, rfl, rfl, by decide⟩

end Muxomucota.Vfs
