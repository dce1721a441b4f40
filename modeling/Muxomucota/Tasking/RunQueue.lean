import Muxomucota.Tasking.ProcessLists

/-!
# Tasking — the run queue

The run queue has a link field of its own, `rq_next`, so that a process can be in it and in one of the
other lists at once.  `rq_register_process` and `rq_unregister_process`
(`kernel/common/tasking/management.c`) are the only functions that write it.  A process is in the run
queue from `run_process` on until it becomes a daemon that handles no IRQ, or exits.
-/

namespace Muxomucota.Tasking
open Lib

/-- The lists over `next`, and the run queue. -/
structure Queues where
  lists : ProcessLists
  rqNext : Nat → Option Nat
  runqueue : Option Nat

namespace Queues

def init : Queues := { lists := .init, rqNext := fun _ => none, runqueue := none }

/-- `rq_register_process` -/
def rqRegister (s : Queues) (p : Nat) : Queues :=
  { s with rqNext := Function.update s.rqNext p s.runqueue, runqueue := some p }

/-- `rq_unregister_process`; no loop over an intact queue takes more steps. -/
def rqUnregister (s : Queues) (p : Nat) : Option Queues :=
  (unlink s.rqNext s.runqueue p s.lists.fresh).map fun r => { s with rqNext := r.1, runqueue := r.2 }

end Queues

/-- One step, with what it does to the run queue. -/
def queueStep (s : Queues) (a : ListAct) : Option Queues :=
  (listStep s.lists a).bind fun lists =>
    match a with
    | .create _ _ => some { s with lists, rqNext := Function.update s.rqNext s.lists.fresh none }
    | .runProcess p => some ({ s with lists }.rqRegister p)
    | .daemonize p =>
        if (s.lists.procs p).handledIrq then some { s with lists } else { s with lists }.rqUnregister p
    | .exit p => { s with lists }.rqUnregister p
    | _ => some { s with lists }

/-- No handler of an IRQ links its process anew. -/
def QueueStepOk (s : Queues) (a : ListAct) : Prop := ListStepOk s.lists a

/-- A process that `schedule` looks at. -/
def InQueue (c : ListedProcess) : Prop :=
  c.status = .active ∨ (c.status = .daemon ∧ c.handledIrq = true)

/-- A process that has never been in one of the other lists. -/
def Unlisted (c : ListedProcess) : Prop :=
  c.status = .coma ∨ (c.status = .active ∧ c.handlingIrq = false)

/-- What holds of the run queue `rq`. -/
structure QueueOk (s : Queues) (rq : List Nat) : Prop where
  queue : Chain s.rqNext s.runqueue rq
  nodup : rq.Nodup
  mem : ∀ p, p ∈ rq ↔ InQueue (s.lists.procs p)
  unlinked : ∀ p, Unlisted (s.lists.procs p) → s.lists.next p = none

namespace QueueOk

variable {s s' : Queues} {a : ListAct} {p : Nat} {c : ListedProcess} {lists : ProcessLists}
  {ds zs xs rq rq' : List Nat}

theorem start : QueueOk .init [] where
  queue := .nil
  nodup := List.nodup_nil
  mem p := by simp [InQueue, Queues.init, ProcessLists.init, ProcessLists.newProcess]
  unlinked _ _ := rfl

/-- A process changes, and it alone may enter or leave the run queue; the others keep their links, as
long as they are in none of the other lists. -/
theorem change (h : QueueOk s rq) (hprocs : s'.lists.procs = Function.update s.lists.procs p c)
    (hq : Chain s'.rqNext s'.runqueue rq' ∧ rq'.Nodup) (hp : p ∈ rq' ↔ InQueue c)
    (hothers : ∀ q, q ≠ p → (q ∈ rq' ↔ q ∈ rq))
    (hnext : ∀ q, q ≠ p → Unlisted (s.lists.procs q) → s'.lists.next q = s.lists.next q)
    (hlink : Unlisted c → s'.lists.next p = none) : QueueOk s' rq' := by
  have hput : ∀ q, s'.lists.procs q = if q = p then c else s.lists.procs q := fun q => by
    rw [hprocs, Function.update_apply]
  refine ⟨hq.1, hq.2, fun q => ?_, fun q hu => ?_⟩
  · rw [hput]
    split
    · rename_i hqp
      rw [hqp]
      exact hp
    · rename_i hqp
      exact (hothers q hqp).trans (h.mem q)
  · rw [hput] at hu
    split at hu
    · rename_i hqp
      rw [hqp]
      exact hlink hu
    · rename_i hqp
      exact (hnext q hqp hu).trans (h.unlinked q hu)

/-- A process changes, and stays where it is. -/
theorem relabel (h : QueueOk s rq) (hin : InQueue c ↔ InQueue (s.lists.procs p))
    (hlink : Unlisted c → Unlisted (s.lists.procs p)) :
    QueueOk { s with lists := s.lists.setProc p c } rq :=
  h.change rfl ⟨h.queue, h.nodup⟩ ((h.mem p).trans hin.symm) (fun _ _ => Iff.rfl) (fun _ _ _ => rfl)
    fun hu => h.unlinked p (hlink hu)

/-- A process leaves the run queue, and may be linked anew. -/
theorem leave (h : QueueOk s rq) (hi : ListInv s.lists ds zs xs)
    (hs : { s with lists }.rqUnregister p = some s') (hp : InQueue (s.lists.procs p))
    (hprocs : lists.procs = Function.update s.lists.procs p c) (hfresh : lists.fresh = s.lists.fresh)
    (hnext : ∀ q, q ≠ p → lists.next q = s.lists.next q) (hc : ¬InQueue c) (hu : ¬Unlisted c) :
    ∃ rq', QueueOk s' rq' := by
  have hmem := (h.mem p).mpr hp
  have hlt : ∀ q ∈ rq, q < s.lists.fresh := fun q hq => hi.lt_fresh fun hcoma => by
    have hin := (h.mem q).mp hq
    simp [InQueue, hcoma] at hin
  obtain ⟨rqNext, runqueue, hun, hchain, -⟩ :=
    h.queue.unlink h.nodup hmem (ListInv.length_le h.nodup hlt)
  have herase := fun q => h.nodup.mem_erase_iff (a := q) (b := p)
  rw [Queues.rqUnregister, hfresh, hun] at hs
  cases hs
  refine ⟨rq.erase p, h.change hprocs ⟨hchain, h.nodup.erase p⟩ ?_ (fun q hq => ?_)
    (fun q hq _ => hnext q hq) fun hu' => absurd hu' hu⟩
  · exact iff_of_false (fun hin => ((herase p).mp hin).1 rfl) hc
  · exact (herase q).trans (and_iff_right hq)

end QueueOk

/-- Reaping a zombie leaves the links of the other processes alone. -/
theorem ListInv.reap_next {s s' : ProcessLists} {p : Nat} {ds zs xs : List Nat}
    (h : ListInv s ds zs xs) (hz : (s.procs p).status = .zombie) (hs : s.reap p = some s') :
    s'.procs = Function.update s.procs p { s.procs p with status := .freed } ∧
      ∀ q, (s.procs q).status ≠ .zombie → s'.next q = s.next q := by
  have hlt : ∀ q ∈ zs, q < s.fresh := fun q hq => h.lt_fresh (by simp [(h.mem_zombies q).mp hq])
  obtain ⟨next, head, hun, -, hkeep⟩ :=
    h.zombies.unlink h.zombiesNodup ((h.mem_zombies p).mpr hz) (length_le h.zombiesNodup hlt)
  rw [ProcessLists.reap, ProcessLists.unregisterZombie, hun] at hs
  cases hs
  exact ⟨rfl, fun q hq => hkeep q fun hmem => hq ((h.mem_zombies q).mp hmem)⟩

namespace QueueOk

variable {s s' : Queues} {a : ListAct} {ds zs xs rq : List Nat}

theorem create {popup zombify : Bool} (h : QueueOk s rq) (hi : ListInv s.lists ds zs xs)
    (hs : queueStep s (.create popup zombify) = some s') : QueueOk s' rq := by
  cases hs
  have hcoma := hi.old s.lists.fresh (Nat.le_refl _)
  have hout : s.lists.fresh ∉ rq := by
    rw [h.mem, InQueue, hcoma]
    simp
  have hchain : Chain (Function.update s.rqNext s.lists.fresh none) s.runqueue rq :=
    h.queue.congr fun q hq => Function.update_of_ne (by rintro rfl; exact hout hq) ..
  refine h.change (c := ProcessLists.newProcess popup zombify) rfl ⟨hchain, h.nodup⟩
    (iff_of_false hout ?_) (fun _ _ => Iff.rfl) (fun q hq _ => Function.update_of_ne hq ..)
    fun _ => Function.update_self ..
  simp [InQueue, ProcessLists.newProcess]

theorem runProcess {p : Nat} (h : QueueOk s rq) (hs : queueStep s (.runProcess p) = some s') :
    QueueOk s' (p :: rq) := by
  obtain ⟨lists, hl, hs⟩ := Option.bind_eq_some_iff.mp hs
  simp only [listStep, Option.ite_none_right_eq_some, Option.some.injEq] at hl
  obtain ⟨⟨-, hcoma⟩, rfl⟩ := hl
  cases hs
  have hout : p ∉ rq := by
    rw [h.mem, InQueue, hcoma]
    simp
  exact h.change (c := { s.lists.procs p with status := .active }) rfl
    ⟨h.queue.push hout, List.nodup_cons.mpr ⟨hout, h.nodup⟩⟩ (by simp [InQueue])
    (fun _ hq => ListInv.mem_push hq) (fun _ _ _ => rfl) fun _ => h.unlinked p (.inl hcoma)

/-- A process that becomes a daemon leaves the run queue, unless it handles an IRQ. -/
theorem daemonize {p : Nat} (h : QueueOk s rq) (hi : ListInv s.lists ds zs xs)
    (hs : queueStep s (.daemonize p) = some s') : ∃ rq', QueueOk s' rq' := by
  obtain ⟨lists, hl, hs⟩ := Option.bind_eq_some_iff.mp hs
  simp only [listStep, Option.ite_none_right_eq_some, Option.some.injEq] at hl
  obtain ⟨⟨hact, -⟩, rfl⟩ := hl
  have hnext : ∀ q, q ≠ p → (s.lists.daemonizeProcess p).next q = s.lists.next q := fun q hq =>
    Function.update_of_ne hq ..
  dsimp only at hs
  split at hs
  · rename_i hirq
    cases hs
    exact ⟨rq, h.change (c := { s.lists.procs p with status := .daemon }) rfl ⟨h.queue, h.nodup⟩
      (by simp [h.mem, InQueue, hact, hirq]) (fun _ _ => Iff.rfl) (fun q hq _ => hnext q hq)
      (by simp [Unlisted])⟩
  · rename_i hirq
    exact h.leave (c := { s.lists.procs p with status := .daemon }) hi hs (.inl hact) rfl rfl hnext
      (by simpa [InQueue] using hirq) (by simp [Unlisted])

theorem exit {p : Nat} (h : QueueOk s rq) (hi : ListInv s.lists ds zs xs)
    (hs : queueStep s (.exit p) = some s') : ∃ rq', QueueOk s' rq' := by
  obtain ⟨lists, hl, hs⟩ := Option.bind_eq_some_iff.mp hs
  simp only [listStep, Option.ite_none_right_eq_some, Option.some.injEq] at hl
  obtain ⟨hact, rfl⟩ := hl
  have hnext : ∀ q o, q ≠ p → Function.update s.lists.next p o q = s.lists.next q := fun q o hq =>
    Function.update_of_ne hq ..
  by_cases hzombie : (s.lists.procs p).popup = true ∧ (s.lists.procs p).popupZombify = false
  · rw [if_pos hzombie.1, ProcessLists.destroyThisPopupThread, if_neg (by simp [hzombie.2])] at hs
    exact h.leave (c := { s.lists.procs p with status := .destruct }) hi hs (.inl hact) rfl rfl
      (fun q => hnext q _) (by simp [InQueue]) (by simp [Unlisted])
  · have hdestroy : (if (s.lists.procs p).popup = true then s.lists.destroyThisPopupThread p
        else s.lists.destroyProcess p) = s.lists.destroyProcess p := by
      unfold ProcessLists.destroyThisPopupThread
      split_ifs <;> simp_all
    rw [hdestroy] at hs
    exact h.leave (c := { s.lists.procs p with status := .zombie, handledIrq := false }) hi hs
      (.inl hact) rfl rfl (fun q => hnext q _) (by simp [InQueue]) (by simp [Unlisted])

/-- **One step.** -/
theorem step (h : QueueOk s rq) (hi : ListInv s.lists ds zs xs) (hs : queueStep s a = some s') :
    ∃ rq', QueueOk s' rq' := by
  cases a with
  | create popup zombify => exact ⟨_, h.create hi hs⟩
  | runProcess p => exact ⟨_, h.runProcess hs⟩
  | daemonize p => exact h.daemonize hi hs
  | exit p => exact h.exit hi hs
  | handleIrq p =>
      simp only [queueStep, listStep, Option.bind_eq_some_iff, Option.ite_none_right_eq_some,
        Option.some.injEq] at hs
      obtain ⟨_, ⟨⟨hact, -, -⟩, rfl⟩, rfl⟩ := hs
      exact ⟨rq, h.relabel (by simp [InQueue, hact]) (by simp [Unlisted, hact])⟩
  | irq p =>
      simp only [queueStep, listStep, Option.bind_eq_some_iff, Option.ite_none_right_eq_some,
        Option.some.injEq] at hs
      obtain ⟨_, ⟨⟨hdaemon, hirq⟩, rfl⟩, rfl⟩ := hs
      exact ⟨rq, h.relabel (by simp [InQueue, hdaemon, hirq]) (by simp [Unlisted])⟩
  | irqHandlerExit p =>
      simp only [queueStep, listStep, Option.bind_eq_some_iff, Option.ite_none_right_eq_some,
        Option.some.injEq] at hs
      obtain ⟨_, ⟨⟨hact, -, hirq⟩, rfl⟩, rfl⟩ := hs
      exact ⟨rq, h.relabel (by simp [InQueue, hact, hirq]) (by simp [Unlisted])⟩
  | reap p =>
      simp only [queueStep, listStep, Option.bind_eq_some_iff, Option.ite_none_right_eq_some,
        Option.some.injEq] at hs
      obtain ⟨_, ⟨hzombie, hreap⟩, rfl⟩ := hs
      obtain ⟨hprocs, hnext⟩ := hi.reap_next hzombie hreap
      refine ⟨rq, h.change hprocs ⟨h.queue, h.nodup⟩ (by simp [h.mem, InQueue, hzombie])
        (fun _ _ => Iff.rfl) (fun q _ hu => hnext q fun hz => ?_) (by simp [Unlisted])⟩
      simp [Unlisted, hz] at hu
  | sweep =>
      simp only [queueStep, listStep, ProcessLists.sweep, Option.bind_eq_some_iff,
        Option.map_eq_some_iff, Option.some.injEq] at hs
      obtain ⟨_, ⟨p, hp, rfl⟩, rfl⟩ := hs
      have hdestruct : (s.lists.procs p).status = .destruct := by
        have hdead := hi.dead
        cases xs with
        | nil =>
            rw [hp] at hdead
            cases hdead
        | cons q xs =>
            obtain rfl := Option.some.inj (hp.symm.trans hdead.head_eq)
            exact (hi.mem_dead p).mp List.mem_cons_self
      exact ⟨rq, h.change (c := { s.lists.procs p with status := .freed }) rfl ⟨h.queue, h.nodup⟩
        (by simp [h.mem, InQueue, hdestruct]) (fun _ _ => Iff.rfl) (fun _ _ _ => rfl)
        (by simp [Unlisted])⟩

end QueueOk

theorem rqUnregister_lists {s s' : Queues} {p : Nat} (h : s.rqUnregister p = some s') :
    s'.lists = s.lists := by
  obtain ⟨r, -, rfl⟩ := Option.map_eq_some_iff.mp h
  rfl

/-- The lists do not depend on the run queue. -/
theorem queueStep_lists {s s' : Queues} {a : ListAct} (h : queueStep s a = some s') :
    listStep s.lists a = some s'.lists := by
  obtain ⟨lists, hl, h⟩ := Option.bind_eq_some_iff.mp h
  rw [hl]
  cases a with
  | daemonize p =>
      dsimp only at h
      split at h
      · cases h
        rfl
      · rw [rqUnregister_lists h]
  | exit p => rw [rqUnregister_lists h]
  | _ =>
      cases h
      rfl

/-- **The lists and the run queue**, as long as no handler of an IRQ links its process anew. -/
theorem queues_intact {as : List ListAct} {s : Queues} (h : Run queueStep QueueStepOk .init as s) :
    ∃ ds zs xs rq, ListInv s.lists ds zs xs ∧ QueueOk s rq := by
  refine h.invariant (I := fun s => ∃ ds zs xs rq, ListInv s.lists ds zs xs ∧ QueueOk s rq) ?_
    ⟨_, _, _, _, ListInv.start, QueueOk.start⟩
  rintro s a s' ⟨ds, zs, xs, rq, hi, hq⟩ hok hs
  obtain ⟨rq', hq'⟩ := hq.step hi hs
  obtain ⟨ds', zs', xs', hi', -⟩ := hi.step hok (queueStep_lists hs)
  exact ⟨ds', zs', xs', rq', hi', hq'⟩

end Muxomucota.Tasking
