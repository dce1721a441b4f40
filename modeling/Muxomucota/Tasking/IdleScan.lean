import Muxomucota.Tasking.RunQueue

/-!
# Tasking — the idle process

The idle process halts the processor when no process in the run queue is active, and yields otherwise
(`enter_idle_process` in `kernel/common/tasking/idle.c`).  It looks for an active process from the head
of the run queue on, but follows `next` instead of `rq_next`.  So it sees the head, and after it what the
head is linked to over the other field: nothing, or the daemons that registered before it.
-/

namespace Muxomucota.Tasking
open Lib

namespace Queues

/-- `status == PROCESS_ACTIVE` -/
def isActive (s : Queues) (p : Nat) : Bool := decide ((s.lists.procs p).status = .active)

/-- `runqueue_empty` after the loop of `enter_idle_process`, if it ends within `n` rounds. -/
def runqueueEmpty (s : Queues) (n : Nat) : Option Bool :=
  (meets s.lists.next s.isActive n s.runqueue).map not

/-- The loop ends, and it has found the run queue empty exactly if no process in it is active. -/
def ScanRight (s : Queues) : Prop :=
  ∃ n empty rq, s.runqueueEmpty n = some empty ∧ Chain s.rqNext s.runqueue rq ∧
    (empty = true ↔ ∀ p ∈ rq, s.isActive p = false)

/-- **The condition**: no process in the run queue is active, or the one at its head is, or the head is a
daemon and one that registered before it is. -/
def HeadTells (s : Queues) : Prop :=
  ∀ rq ds, Chain s.rqNext s.runqueue rq → Chain s.lists.next s.lists.daemons ds →
    (∀ p ∈ rq, s.isActive p = false) ∨
      ∃ h, s.runqueue = some h ∧ (s.isActive h = true ∨
        ∃ later earlier, ds = later ++ h :: earlier ∧ ∃ p ∈ earlier, s.isActive p = true)

end Queues

variable {s : Queues} {ds zs xs rq : List Nat}

/-- What the loop looks at: the head, and the daemons before it. -/
theorem scan_chain {h : Nat} {rest : List Nat} (hq : QueueOk s (h :: rest))
    (hi : ListInv s.lists ds zs xs) :
    (∃ later earlier, ds = later ++ h :: earlier ∧
      Chain s.lists.next s.runqueue (h :: earlier)) ∨
      h ∉ ds ∧ s.isActive h = true ∧ Chain s.lists.next s.runqueue [h] := by
  rw [hq.queue.head_eq]
  by_cases hmem : h ∈ ds
  · obtain ⟨later, earlier, rfl⟩ := List.append_of_mem hmem
    exact .inl ⟨later, earlier, rfl, hi.daemons.drop⟩
  · right
    have hin := (hq.mem h).mp List.mem_cons_self
    rw [hi.mem_daemons] at hmem
    push Not at hmem
    have hact : (s.lists.procs h).status = .active :=
      hin.resolve_right fun hd => hmem.1 hd.1
    have hnext := hq.unlinked h (.inr ⟨hact, by simpa using hmem.2 hact⟩)
    refine ⟨?_, by simpa [Queues.isActive] using hact, .cons ?_⟩
    · rw [hi.mem_daemons]
      push Not
      exact hmem
    · rw [hnext]
      exact .nil

/-- What the loop finds. -/
theorem runqueueEmpty_eq {l : List Nat} (hl : Chain s.lists.next s.runqueue l) :
    s.runqueueEmpty (l.length + 1) = some (!l.any s.isActive) ∧
      ∀ n empty, s.runqueueEmpty n = some empty → empty = !l.any s.isActive := by
  refine ⟨by rw [Queues.runqueueEmpty, hl.meets _ (Nat.lt_succ_self _)]; rfl, fun n empty hn => ?_⟩
  obtain ⟨b, hb, rfl⟩ := Option.map_eq_some_iff.mp hn
  rw [hl.meets_eq hb]

theorem scanRight_iff {l : List Nat} (hq : Chain s.rqNext s.runqueue rq)
    (hl : Chain s.lists.next s.runqueue l) :
    s.ScanRight ↔ ((∀ p ∈ l, s.isActive p = false) ↔ ∀ p ∈ rq, s.isActive p = false) := by
  obtain ⟨hends, honly⟩ := runqueueEmpty_eq hl
  have hall : (!l.any s.isActive) = true ↔ ∀ p ∈ l, s.isActive p = false := by simp
  refine ⟨?_, fun h => ⟨_, _, rq, hends, hq, hall.trans h⟩⟩
  rintro ⟨n, empty, rq', hn, hq', h⟩
  rw [hq'.unique hq, honly n empty hn, hall] at h
  exact h

/-- The loop finds an active process exactly if the head tells. -/
theorem headTells_iff {l : List Nat} {h : Nat} {rest : List Nat} (hq : QueueOk s (h :: rest))
    (hi : ListInv s.lists ds zs xs) (hl : Chain s.lists.next s.runqueue l)
    (hshape : (∃ later earlier, ds = later ++ h :: earlier ∧ l = h :: earlier) ∨
      s.isActive h = true ∧ l = [h]) :
    s.HeadTells ↔ (∀ p ∈ h :: rest, s.isActive p = false) ∨ ∃ p ∈ l, s.isActive p = true := by
  have hhead := hq.queue.head_eq
  constructor
  · intro ht
    refine (ht _ _ hq.queue hi.daemons).imp_right ?_
    rintro ⟨h', hh', hact⟩
    obtain rfl := Option.some.inj (hhead.symm.trans hh')
    have hmem : h ∈ l := by
      rcases hshape with ⟨_, _, -, rfl⟩ | ⟨-, rfl⟩ <;> exact List.mem_cons_self
    rcases hact with hact | ⟨later, earlier, hds, p, hp, hact⟩
    · exact ⟨h, hmem, hact⟩
    · -- the links lead through the same daemons
      have hchain : Chain s.lists.next (some h) (h :: earlier) := (hds ▸ hi.daemons).drop
      rw [hhead] at hl
      rw [hl.unique hchain]
      exact ⟨p, List.mem_cons_of_mem _ hp, hact⟩
  · intro hor rq' ds' hrq' hds'
    rw [hrq'.unique hq.queue, hds'.unique hi.daemons]
    refine hor.imp_right ?_
    rintro ⟨p, hp, hact⟩
    refine ⟨h, hhead, ?_⟩
    rcases hshape with ⟨later, earlier, hds, rfl⟩ | ⟨hh, -⟩
    · rcases List.mem_cons.mp hp with rfl | hp
      · exact .inl hact
      · exact .inr ⟨later, earlier, hds, p, hp, hact⟩
    · exact .inl hh

/-- **The idle process**: in every state that the kernel reaches, its loop ends, and it is right about
the run queue exactly where the head tells. -/
theorem idle_scan {as : List ListAct} (h : Run queueStep QueueStepOk .init as s) :
    (∃ n empty, s.runqueueEmpty n = some empty) ∧ (s.ScanRight ↔ s.HeadTells) := by
  obtain ⟨ds, zs, xs, rq, hi, hq⟩ := queues_intact h
  cases rq with
  | nil =>
      have hnone : s.runqueue = none := by
        have hqueue := hq.queue
        generalize s.runqueue = head at hqueue
        cases hqueue
        rfl
      have hl : Chain s.lists.next s.runqueue [] := hnone ▸ .nil
      refine ⟨⟨_, _, (runqueueEmpty_eq hl).1⟩, ?_⟩
      rw [scanRight_iff hq.queue hl]
      refine iff_of_true Iff.rfl fun rq ds hrq _ => .inl ?_
      rw [hrq.unique hq.queue]
      simp
  | cons head rest =>
      obtain ⟨l, hl, hshape⟩ : ∃ l, Chain s.lists.next s.runqueue l ∧
          ((∃ later earlier, ds = later ++ head :: earlier ∧ l = head :: earlier) ∨
            s.isActive head = true ∧ l = [head]) := by
        rcases scan_chain hq hi with ⟨later, earlier, hds, hl⟩ | ⟨-, hact, hl⟩
        · exact ⟨_, hl, .inl ⟨later, earlier, hds, rfl⟩⟩
        · exact ⟨_, hl, .inr ⟨hact, rfl⟩⟩
      refine ⟨⟨_, _, (runqueueEmpty_eq hl).1⟩, ?_⟩
      rw [scanRight_iff hq.queue hl, headTells_iff hq hi hl hshape]
      -- an active process is in the run queue, whatever it is linked to
      have hqueue : ∀ p, s.isActive p = true → p ∈ head :: rest := fun p hact =>
        (hq.mem p).mpr (.inl (by simpa [Queues.isActive] using hact))
      constructor
      · intro hiff
        by_cases hall : ∀ p ∈ l, s.isActive p = false
        · exact .inl (hiff.mp hall)
        · push Not at hall
          obtain ⟨p, hp, hact⟩ := hall
          exact .inr ⟨p, hp, by simpa using hact⟩
      · rintro (hall | ⟨p, hp, hact⟩)
        · refine iff_of_true (fun p hp => ?_) hall
          by_contra hact
          have hact : s.isActive p = true := by simpa using hact
          rw [hall p (hqueue p hact)] at hact
          cases hact
        · refine iff_of_false (fun hall => ?_) fun hall => ?_
          · rw [hall p hp] at hact
            cases hact
          · rw [hall p (hqueue p hact)] at hact
            cases hact

/-- The reaper runs, and a driver registers its IRQ handler and becomes a daemon. -/
def driverSleeps : List ListAct :=
  [.create false false, .runProcess 0, .create false false, .runProcess 1, .handleIrq 1, .daemonize 1]

theorem idle_scan_driver : ∃ s, Run queueStep QueueStepOk .init driverSleeps s ∧
    (∃ n empty, s.runqueueEmpty n = some empty) ∧ (s.ScanRight ↔ s.HeadTells) := by
  obtain ⟨s, hrun⟩ : ∃ s, Run queueStep QueueStepOk .init driverSleeps s :=
    ⟨_, .more trivial rfl (.more trivial rfl (.more trivial rfl (.more trivial rfl
      (.more trivial rfl (.one rfl rfl)))))⟩
  exact ⟨s, hrun, idle_scan hrun⟩

/-- The driver is at the head of the run queue and linked to nothing: the loop does not see the reaper. -/
theorem idle_halts_while_active : ∃ s, Run queueStep anyStep .init driverSleeps s ∧ ¬s.ScanRight := by
  obtain ⟨s, hrun, hhead, hrq₁, hrq₀, hnext, hactive, hsleeps⟩ :
      ∃ s, Run queueStep anyStep .init driverSleeps s ∧ s.runqueue = some 1 ∧
        s.rqNext 1 = some 0 ∧ s.rqNext 0 = none ∧ s.lists.next 1 = none ∧ s.isActive 0 = true ∧
        s.isActive 1 = false :=
    ⟨_, .more trivial rfl (.more trivial rfl (.more trivial rfl (.more trivial rfl
      (.more trivial rfl (.one trivial rfl))))), rfl, rfl, rfl, rfl, rfl, rfl⟩
  refine ⟨s, hrun, fun hright => ?_⟩
  have hq : Chain s.rqNext s.runqueue [1, 0] := by
    rw [hhead]
    refine .cons ?_
    rw [hrq₁]
    refine .cons ?_
    rw [hrq₀]
    exact .nil
  have hl : Chain s.lists.next s.runqueue [1] := by
    rw [hhead]
    refine .cons ?_
    rw [hnext]
    exact .nil
  have hreaper := ((scanRight_iff hq hl).mp hright).mp (by simpa using hsleeps) 0 (by simp)
  rw [hactive] at hreaper
  cases hreaper

/-- A handler that calls `SYS_DAEMONIZE` links its process to itself, and the loop does not end. -/
theorem idle_loops : ∃ s, Run queueStep anyStep .init
    [.create false false, .runProcess 0, .handleIrq 0, .daemonize 0, .irq 0, .daemonize 0] s ∧
    ∀ n, s.runqueueEmpty n = none := by
  obtain ⟨s, hrun, hhead, hnext, hsleeps⟩ : ∃ s, Run queueStep anyStep .init
      [.create false false, .runProcess 0, .handleIrq 0, .daemonize 0, .irq 0, .daemonize 0] s ∧
      s.runqueue = some 0 ∧ s.lists.next 0 = some 0 ∧ s.isActive 0 = false :=
    ⟨_, .more trivial rfl (.more trivial rfl (.more trivial rfl (.more trivial rfl
      (.more trivial rfl (.one trivial rfl))))), rfl, rfl, rfl⟩
  refine ⟨s, hrun, fun n => ?_⟩
  have hloop : ∀ n, meets s.lists.next s.isActive n (some 0) = none := by
    intro n
    induction n with
    | zero => rfl
    | succ n ih =>
        rw [meets, findIn, hsleeps, if_neg Bool.false_ne_true, hnext]
        exact ih
  rw [Queues.runqueueEmpty, hhead, hloop]
  rfl

end Muxomucota.Tasking
