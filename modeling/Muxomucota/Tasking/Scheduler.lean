import Muxomucota.Tasking.ProcessLists
import Mathlib.Data.Finset.Card
import Mathlib.Order.Interval.Finset.Nat

/-!
# Tasking — the scheduler

`schedule` of `kernel/common/tasking/scheduler.c`: a clock that counts the calls, the process that has
waited longest, and a switch target that goes before it as long as nobody has waited 42 calls.  A
process is named by its address, and the run queue is a list.  Between two calls the rest of the kernel
may do what it likes to the run queue, as long as the set of the processes that can run stays.
-/

namespace Muxomucota.Tasking
open Lib

/-- `process_t`, as far as the scheduler reads it; `esp` and `cs` are in its `cpu_state`. -/
structure SchedProcess where
  pid : Int
  pgid : Int
  status : ProcessStatus
  scheduleTick : BitVec 32
  handledIrq : Int
  handlingIrq : Bool
  freshIrq : Bool
  esp : BitVec 32
  cs : BitVec 32

/-- The scheduler: `schedule_lock`, `schedule_tick` and what it shares with the rest. -/
structure Scheduler where
  scheduleLock : Bool
  scheduleTick : BitVec 32
  procs : Nat → SchedProcess
  runqueue : List Nat
  currentProcess : Option Nat
  idleProcess : Option Nat

namespace Scheduler

def setProc (s : Scheduler) (p : Nat) (x : SchedProcess) : Scheduler :=
  { s with procs := Function.update s.procs p x }

/-- How long a process has waited. -/
def wait (s : Scheduler) (p : Nat) : BitVec 32 := s.scheduleTick - (s.procs p).scheduleTick

/-- What the loop over the run queue has found. -/
structure Scan where
  switchTarget : Option Nat
  irqProcess : Option Nat
  maxSchedDiff : BitVec 32
  eldest : Option Nat

/-- The process has an IRQ that it has not seen. -/
def SchedFresh (x : SchedProcess) : Prop :=
  0 ≤ x.handledIrq ∧ x.handlingIrq = true ∧ x.freshIrq = true

instance (x : SchedProcess) : Decidable (SchedFresh x) := by unfold SchedFresh; infer_instance

/-- One round of the loop. -/
def scanStep (s : Scheduler) (switchTo : Int) (r : Scan) (p : Nat) : Scan :=
  if (s.procs p).status ≠ .active then r
  else
    let r := if (s.procs p).pid = switchTo then { r with switchTarget := some p } else r
    let r := if SchedFresh (s.procs p) then { r with irqProcess := some p } else r
    if r.maxSchedDiff < s.wait p then { r with maxSchedDiff := s.wait p, eldest := some p } else r

/-- The loop. -/
def scan (s : Scheduler) (switchTo : Int) : Scan :=
  s.runqueue.foldl (s.scanStep switchTo) ⟨none, none, 0, none⟩

/-- The assertion about the process that is chosen: a thread is not on the stack of its process. -/
def StackOk (x : SchedProcess) : Prop := x.pid ≠ x.pgid → x.esp < 0xef000000 ∨ x.cs &&& 3 = 0

instance (x : SchedProcess) : Decidable (StackOk x) := by unfold StackOk; infer_instance

/-- The end of `schedule` with an eldest process; `none` is a failed assertion. -/
def choose (s : Scheduler) (r : Scan) (eldest : Nat) : Option (Option Nat × Scheduler) :=
  let chosen := match r.switchTarget with
    | some p => if r.maxSchedDiff < 42 then p else eldest
    | none => eldest
  let r' := match r.irqProcess with
    | some p => (p, s.setProc p { s.procs p with freshIrq := false })
    | none => (chosen, s)
  if StackOk (r'.2.procs r'.1) then some (some r'.1, { r'.2 with currentProcess := some r'.1 })
  else none

/-- `schedule`: the process, and the scheduler afterwards. -/
def schedule (s : Scheduler) (switchTo : Int) : Option (Option Nat × Scheduler) :=
  if s.scheduleLock then some (s.currentProcess, s)
  else
    match s.currentProcess.or s.idleProcess with
    | none => some (none, s)
    | some c =>
        let s := s.setProc c { s.procs c with scheduleTick := s.scheduleTick }
        let s := { s with scheduleTick := s.scheduleTick + 1 }
        let current :=
          if some c = s.idleProcess ∨ (s.procs c).status ≠ .active then s.runqueue.head? else some c
        match current with
        | none => some (s.idleProcess, { s with currentProcess := none })
        | some _ =>
            let r := s.scan switchTo
            match r.eldest with
            | none => some (s.idleProcess, { s with currentProcess := s.idleProcess })
            | some eldest => s.choose r eldest

/-- One call, in the state that the rest of the kernel has left. -/
def call (_ : Scheduler) (a : Scheduler × Int) : Option Scheduler :=
  (a.1.schedule a.2).map Prod.snd

/-- The processes in the run queue that are active. -/
def Actives (s : Scheduler) (A : Finset Nat) : Prop :=
  ∀ p, p ∈ A ↔ p ∈ s.runqueue ∧ (s.procs p).status = .active

/-- What the rest of the kernel leaves alone between two calls. -/
structure Quiet (A : Finset Nat) (s t : Scheduler) : Prop where
  lock : t.scheduleLock = s.scheduleLock
  tick : t.scheduleTick = s.scheduleTick
  current : t.currentProcess = s.currentProcess
  idle : t.idleProcess = s.idleProcess
  actives : t.Actives A
  ticks : ∀ p ∈ A, (t.procs p).scheduleTick = (s.procs p).scheduleTick
  noIrq : ∀ p ∈ A, ¬ SchedFresh (t.procs p)

/-- At the start `n` processes are active, at least one, and have waited differently long, but not
longer than `n`; the scheduler has something to start from, and nobody is in it. -/
structure Start (A : Finset Nat) (n : Nat) (s : Scheduler) : Prop where
  actives : s.Actives A
  card : A.card = n
  some_active : 0 < n
  apart : ∀ p ∈ A, ∀ q ∈ A, (s.procs p).scheduleTick = (s.procs q).scheduleTick → p = q
  waits : ∀ p ∈ A, (s.wait p).toNat ≤ n
  started : (s.currentProcess.or s.idleProcess).isSome
  unlocked : s.scheduleLock = false

/-- The next call returns an active process, if the assertion about it holds, and nobody has waited
too long. -/
structure Fair (A : Finset Nat) (n : Nat) (s : Scheduler) : Prop where
  waits : ∀ p ∈ A, (s.wait p).toNat ≤ 42 + n
  returns : ∀ t switchTo, Quiet A s t →
    (∃ p ∈ A, ¬ StackOk (t.procs p) ∧ t.schedule switchTo = none) ∨
      ∃ p ∈ A, ∃ s', t.schedule switchTo = some (some p, s')

variable {s t : Scheduler} {A : Finset Nat} {n c p : Nat} {switchTo : Int}

/-! ### The loop over the run queue -/

/-- What the loop knows after a part of the run queue. -/
structure ScanOk (s : Scheduler) (seen : List Nat) (r : Scan) : Prop where
  max : ∀ p ∈ seen, (s.procs p).status = .active → s.wait p ≤ r.maxSchedDiff
  eldest : r.eldest = none ∧ r.maxSchedDiff = 0 ∨
    ∃ e ∈ seen, (s.procs e).status = .active ∧ r.eldest = some e ∧ s.wait e = r.maxSchedDiff
  target : ∀ p, r.switchTarget = some p → p ∈ seen ∧ (s.procs p).status = .active
  irq : ∀ p, r.irqProcess = some p → p ∈ seen ∧ (s.procs p).status = .active ∧ SchedFresh (s.procs p)

theorem ScanOk.step {seen : List Nat} {r : Scan} (h : ScanOk s seen r) (switchTo : Int)
    (p : Nat) :
    ScanOk s (seen ++ [p]) (s.scanStep switchTo r p) := by
  have hold : ∀ {q}, q ∈ seen → q ∈ seen ++ [p] := fun hq => List.mem_append_left _ hq
  have hnew : p ∈ seen ++ [p] := by simp
  unfold scanStep
  split
  · rename_i hp
    refine ⟨fun q hq ha => ?_, ?_, fun q hq => ⟨hold (h.target q hq).1, (h.target q hq).2⟩,
      fun q hq => ⟨hold (h.irq q hq).1, (h.irq q hq).2⟩⟩
    · rcases List.mem_append.mp hq with hq | hq
      · exact h.max q hq ha
      · rw [List.mem_singleton.mp hq] at ha
        exact absurd ha hp
    · rcases h.eldest with hn | ⟨e, he, ha, heq, hm⟩
      · exact .inl hn
      · exact .inr ⟨e, hold he, ha, heq, hm⟩
  · rename_i hp
    have hp : (s.procs p).status = .active := not_not.mp hp
    -- the two tests before the comparison leave the maximum and the eldest alone
    generalize hr₁ : (if (s.procs p).pid = switchTo then { r with switchTarget := some p } else r) = r₁
    have h₁ : r₁.maxSchedDiff = r.maxSchedDiff ∧ r₁.eldest = r.eldest ∧
        r₁.irqProcess = r.irqProcess ∧ ∀ q, r₁.switchTarget = some q →
          q ∈ seen ++ [p] ∧ (s.procs q).status = .active := by
      subst hr₁
      split
      · exact ⟨rfl, rfl, rfl, fun q hq => by cases hq; exact ⟨hnew, hp⟩⟩
      · exact ⟨rfl, rfl, rfl, fun q hq => ⟨hold (h.target q hq).1, (h.target q hq).2⟩⟩
    dsimp only
    generalize hr₂ : (if SchedFresh (s.procs p) then { r₁ with irqProcess := some p } else r₁) = r₂
    have h₂ : r₂.maxSchedDiff = r.maxSchedDiff ∧ r₂.eldest = r.eldest ∧
        (∀ q, r₂.switchTarget = some q → q ∈ seen ++ [p] ∧ (s.procs q).status = .active) ∧
        ∀ q, r₂.irqProcess = some q →
          q ∈ seen ++ [p] ∧ (s.procs q).status = .active ∧ SchedFresh (s.procs q) := by
      obtain ⟨hm, he, hi, ht⟩ := h₁
      subst hr₂
      split
      · rename_i hf
        exact ⟨hm, he, ht, fun q hq => by cases hq; exact ⟨hnew, hp, hf⟩⟩
      · refine ⟨hm, he, ht, fun q hq => ?_⟩
        rw [hi] at hq
        exact ⟨hold (h.irq q hq).1, (h.irq q hq).2⟩
    obtain ⟨hm, he, ht, hi⟩ := h₂
    split
    · rename_i hlt
      rw [hm] at hlt
      refine ⟨fun q hq ha => ?_, .inr ⟨p, hnew, hp, rfl, rfl⟩, ht, hi⟩
      rcases List.mem_append.mp hq with hq | hq
      · have := h.max q hq ha
        rw [BitVec.le_def] at this ⊢
        rw [BitVec.lt_def] at hlt
        exact this.trans hlt.le
      · rw [List.mem_singleton.mp hq]
        exact BitVec.le_refl _
    · rename_i hle
      rw [hm, BitVec.not_lt] at hle
      refine ⟨fun q hq ha => ?_, ?_, ht, hi⟩
      · rw [hm]
        rcases List.mem_append.mp hq with hq | hq
        · exact h.max q hq ha
        · rw [List.mem_singleton.mp hq]
          exact hle
      · rw [hm, he]
        rcases h.eldest with hn | ⟨e, hmem, ha, heq, hw⟩
        · exact .inl hn
        · exact .inr ⟨e, hold hmem, ha, heq, hw⟩

theorem scan_ok (s : Scheduler) (switchTo : Int) : ScanOk s s.runqueue (s.scan switchTo) := by
  suffices ∀ l seen r, ScanOk s seen r → ScanOk s (seen ++ l) (l.foldl (s.scanStep switchTo) r) from
    this s.runqueue [] _ ⟨fun p hp => (by cases hp), .inl ⟨rfl, rfl⟩, fun p hp => (by cases hp),
      fun p hp => (by cases hp)⟩
  intro l
  induction l with
  | nil => intro seen r h; rwa [List.append_nil]
  | cons p l ih =>
      intro seen r h
      have := ih _ _ (h.step switchTo p)
      rwa [List.append_assoc, List.singleton_append] at this

/-! ### One call -/

/-- The clock goes on, and the process that ran has waited for one call. -/
def stamp (s : Scheduler) (c : Nat) : Scheduler :=
  { s.setProc c { s.procs c with scheduleTick := s.scheduleTick } with
    scheduleTick := s.scheduleTick + 1 }

theorem wait_stamp (s : Scheduler) (c p : Nat) :
    (s.stamp c).wait p = if p = c then 1 else s.wait p + 1 := by
  unfold wait stamp setProc
  dsimp only
  split
  · rename_i h
    subst h
    rw [Function.update_self]
    dsimp only
    grind
  · rename_i h
    rw [Function.update_of_ne h]
    grind

theorem stamp_procs (s : Scheduler) (c p : Nat) :
    ∃ tick, (s.stamp c).procs p = { s.procs p with scheduleTick := tick } := by
  unfold stamp setProc
  dsimp only
  by_cases h : p = c
  · subst h
    exact ⟨s.scheduleTick, Function.update_self ..⟩
  · exact ⟨(s.procs p).scheduleTick, Function.update_of_ne h ..⟩

theorem stamp_status (s : Scheduler) (c p : Nat) :
    ((s.stamp c).procs p).status = (s.procs p).status := by
  obtain ⟨tick, h⟩ := s.stamp_procs c p
  rw [h]

theorem stamp_fresh (s : Scheduler) (c p : Nat) :
    SchedFresh ((s.stamp c).procs p) ↔ SchedFresh (s.procs p) := by
  obtain ⟨tick, h⟩ := s.stamp_procs c p
  rw [h]
  rfl

theorem stamp_stackOk (s : Scheduler) (c p : Nat) :
    StackOk ((s.stamp c).procs p) ↔ StackOk (s.procs p) := by
  obtain ⟨tick, h⟩ := s.stamp_procs c p
  rw [h]
  rfl

theorem stamp_actives (h : s.Actives A) (c : Nat) : (s.stamp c).Actives A := fun p => by
  rw [stamp_status]
  exact h p

/-- The scheduler after a call that has chosen `p`. -/
def chose (s : Scheduler) (c p : Nat) : Scheduler := { s.stamp c with currentProcess := some p }

@[simp] theorem wait_chose (s : Scheduler) (c p q : Nat) : (s.chose c p).wait q = (s.stamp c).wait q :=
  rfl

/-- With something to start from and something to run, a call is the stamp, the loop and the choice. -/
theorem schedule_eq (hl : s.scheduleLock = false) (hc : s.currentProcess.or s.idleProcess = some c)
    (hq : s.runqueue ≠ []) :
    s.schedule switchTo =
      match ((s.stamp c).scan switchTo).eldest with
      | none => some (s.idleProcess, { s.stamp c with currentProcess := s.idleProcess })
      | some e => (s.stamp c).choose ((s.stamp c).scan switchTo) e := by
  obtain ⟨first, rest, hr⟩ := List.exists_cons_of_ne_nil hq
  obtain ⟨x, hx⟩ : ∃ x, (if some c = (s.stamp c).idleProcess ∨ ((s.stamp c).procs c).status ≠ .active
      then (s.stamp c).runqueue.head? else some c) = some x := by
    have : (s.stamp c).runqueue = first :: rest := hr
    rw [this]
    split
    · exact ⟨first, rfl⟩
    · exact ⟨c, rfl⟩
  unfold schedule
  rw [hl, hc]
  unfold stamp at hx ⊢
  dsimp only at hx ⊢
  rw [hx]
  rfl

/-- Without a fresh IRQ the choice is the eldest process, or the switch target if nobody has waited 42
calls. -/
theorem choose_eq {r : Scan} (e : Nat) (hirq : r.irqProcess = none) :
    ∃ p, (p = e ∨ r.switchTarget = some p ∧ r.maxSchedDiff < 42) ∧
      s.choose r e =
        if StackOk (s.procs p) then some (some p, { s with currentProcess := some p }) else none := by
  unfold choose
  rw [hirq]
  dsimp only
  cases hs : r.switchTarget with
  | none => exact ⟨e, .inl rfl, rfl⟩
  | some q =>
      dsimp only
      split
      · rename_i hlt
        exact ⟨q, .inr ⟨rfl, hlt⟩, rfl⟩
      · exact ⟨e, .inl rfl, rfl⟩

/-- A call without fresh IRQs, when somebody has waited: it chooses an active process, and the one
that has waited longest if somebody has waited 42 calls. -/
theorem schedule_spec (hl : s.scheduleLock = false)
    (hc : s.currentProcess.or s.idleProcess = some c) (ha : s.Actives A)
    (hirq : ∀ p ∈ A, ¬ SchedFresh (s.procs p)) (hw : ∃ p ∈ A, (s.stamp c).wait p ≠ 0)
    (switchTo : Int) :
    ∃ p ∈ A, ((∀ q ∈ A, ((s.stamp c).wait q).toNat ≤ ((s.stamp c).wait p).toNat) ∨
        ∀ q ∈ A, ((s.stamp c).wait q).toNat < 42) ∧
      s.schedule switchTo = if StackOk (s.procs p) then some (some p, s.chose c p) else none := by
  have ha' := stamp_actives ha c
  obtain ⟨w, hwA, hw⟩ := hw
  have hok := scan_ok (s.stamp c) switchTo
  have hmax : ∀ q ∈ A, (s.stamp c).wait q ≤ ((s.stamp c).scan switchTo).maxSchedDiff := fun q hq =>
    hok.max q ((ha' q).mp hq).1 ((ha' q).mp hq).2
  rw [schedule_eq hl hc (List.ne_nil_of_mem ((ha w).mp hwA).1)]
  rcases hok.eldest with ⟨-, hz⟩ | ⟨e, he, heA, heq, hem⟩
  · have := hmax w hwA
    rw [hz] at this
    exact absurd (BitVec.le_zero_iff.mp this) hw
  · rw [heq]
    have hn : ((s.stamp c).scan switchTo).irqProcess = none := by
      cases hp : ((s.stamp c).scan switchTo).irqProcess with
      | none => rfl
      | some p =>
          obtain ⟨hmem, hact, hf⟩ := hok.irq p hp
          exact absurd ((stamp_fresh s c p).mp hf) (hirq p ((ha' p).mpr ⟨hmem, hact⟩))
    obtain ⟨p, hp, hchoose⟩ := choose_eq (s := s.stamp c) e hn
    refine ⟨p, ?_, ?_, ?_⟩
    · rcases hp with rfl | ⟨ht, -⟩
      · exact (ha' p).mpr ⟨he, heA⟩
      · exact (ha' p).mpr (hok.target p ht)
    · rcases hp with rfl | ⟨-, hlt⟩
      · refine .inl fun q hq => ?_
        rw [hem]
        exact hmax q hq
      · refine .inr fun q hq => ?_
        have : (s.stamp c).wait q ≤ _ := hmax q hq
        rw [BitVec.le_def] at this
        rw [BitVec.lt_def] at hlt
        exact this.trans_lt hlt
    · dsimp only
      rw [hchoose]
      simp only [stamp_stackOk]
      rfl

/-! ### The bound -/

/-- What every call keeps.  From 42 on, one process less has waited so long with every further call;
the process that runs next does not count, since its wait starts again. -/
structure Bounded (A : Finset Nat) (n : Nat) (s : Scheduler) : Prop where
  card : A.card = n
  some_active : 0 < n
  waits : ∀ p ∈ A, (s.wait p).toNat ≤ 42 + n
  fewLate : n + 43 < 2 ^ 32 → ∀ k, 42 ≤ k →
    (A.filter fun p => s.currentProcess ≠ some p ∧ k ≤ (s.wait p).toNat).card ≤ n + 42 - k
  waited : (∃ c ∈ A, s.currentProcess = some c) ∨
    ∀ p ∈ A, ∀ q ∈ A, (s.procs p).scheduleTick = (s.procs q).scheduleTick → p = q
  started : (s.currentProcess.or s.idleProcess).isSome
  unlocked : s.scheduleLock = false

theorem Start.bounded (h : Start A n s) : Bounded A n s where
  card := h.card
  some_active := h.some_active
  waits p hp := (h.waits p hp).trans (Nat.le_add_left _ _)
  fewLate _ k hk := by
    have hinj : Set.InjOn (fun p => (s.wait p).toNat)
        (A.filter fun p => s.currentProcess ≠ some p ∧ k ≤ (s.wait p).toNat) := by
      intro p hp q hq heq
      have hp := (Finset.mem_filter.mp hp).1
      have hq := (Finset.mem_filter.mp hq).1
      have : s.wait p = s.wait q := BitVec.eq_of_toNat_eq heq
      refine h.apart p hp q hq ?_
      unfold wait at this
      grind
    have hsub : (A.filter fun p => s.currentProcess ≠ some p ∧ k ≤ (s.wait p).toNat).image
        (fun p => (s.wait p).toNat) ⊆ Finset.Icc k n := by
      intro w hw
      obtain ⟨p, hp, rfl⟩ := Finset.mem_image.mp hw
      obtain ⟨hpA, -, hk⟩ := Finset.mem_filter.mp hp
      exact Finset.mem_Icc.mpr ⟨hk, h.waits p hpA⟩
    have := Finset.card_le_card hsub
    rw [Finset.card_image_of_injOn hinj, Nat.card_Icc] at this
    omega
  waited := .inr h.apart
  started := h.started
  unlocked := h.unlocked

theorem Quiet.wait (h : Quiet A s t) (hp : p ∈ A) : t.wait p = s.wait p := by
  unfold Scheduler.wait
  rw [h.tick, h.ticks p hp]

/-- The rest of the kernel leaves the bound alone. -/
theorem Bounded.quiet (hb : Bounded A n s) (h : Quiet A s t) : Bounded A n t where
  card := hb.card
  some_active := hb.some_active
  waits p hp := h.wait hp ▸ hb.waits p hp
  fewLate hn k hk := by
    rw [h.current, Finset.filter_congr fun p hp => by rw [h.wait hp]]
    exact hb.fewLate hn k hk
  waited := by
    rw [h.current]
    refine hb.waited.imp id fun hap p hp q hq heq => hap p hp q hq ?_
    rwa [h.ticks p hp, h.ticks q hq] at heq
  started := by
    rw [h.current, h.idle]
    exact hb.started
  unlocked := h.lock ▸ hb.unlocked

/-- After the stamp somebody has waited. -/
theorem Bounded.some_waited (hb : Bounded A n s)
    (hc : s.currentProcess.or s.idleProcess = some c) : ∃ p ∈ A, (s.stamp c).wait p ≠ 0 := by
  by_cases hcA : c ∈ A
  · refine ⟨c, hcA, ?_⟩
    rw [wait_stamp, if_pos rfl]
    decide
  · have hapart := hb.waited.resolve_left fun ⟨x, hx, heq⟩ => by
      rw [heq, Option.some_or] at hc
      exact hcA (Option.some.inj hc ▸ hx)
    have hne : ∀ p ∈ A, (s.stamp c).wait p = s.wait p + 1 := fun p hp => by
      have : p ≠ c := fun h => hcA (h ▸ hp)
      rw [wait_stamp, if_neg this]
    obtain ⟨p, hp⟩ := Finset.card_pos.mp (hb.card ▸ hb.some_active)
    by_cases hz : s.wait p + 1 = 0
    -- a wait that wraps is longer than most of the bound, so there are two processes
    · have hw := hb.waits p hp
      have htop : s.wait p = BitVec.allOnes 32 := by
        have : s.wait p = 0 - 1 := by rw [← hz]; exact (BitVec.add_sub_cancel ..).symm
        rw [this]
        decide
      rw [htop, BitVec.toNat_allOnes] at hw
      have hn := hb.card
      obtain ⟨q, hq, hqp⟩ := Finset.exists_mem_ne (by omega : 1 < A.card) p
      refine ⟨q, hq, fun h => hqp (hapart q hq p hp ?_)⟩
      rw [hne q hq, ← hz] at h
      have : s.wait q = s.wait p := (BitVec.add_left_inj _).mp h
      unfold Scheduler.wait at this
      grind
    · exact ⟨p, hp, hne p hp ▸ hz⟩

/-- After the stamp one process more has waited so long. -/
theorem Bounded.over_stamp (hb : Bounded A n s) (hc : s.currentProcess.or s.idleProcess = some c)
    (hn : n + 43 < 2 ^ 32) {k : Nat} (hk : 43 ≤ k) :
    (A.filter fun p => k ≤ ((s.stamp c).wait p).toNat).card ≤ n + 43 - k := by
  refine (Finset.card_le_card fun p hp => ?_).trans
    ((hb.fewLate hn (k - 1) (by omega)).trans (by omega))
  obtain ⟨hpA, hw⟩ := Finset.mem_filter.mp hp
  have hpc : p ≠ c := by
    rintro rfl
    rw [wait_stamp, if_pos rfl] at hw
    exact absurd hw (by simp; omega)
  rw [wait_stamp, if_neg hpc, BitVec.toNat_add] at hw
  have := hb.waits p hpA
  rw [show (1 : BitVec 32).toNat = 1 from rfl, Nat.mod_eq_of_lt (by omega)] at hw
  refine Finset.mem_filter.mpr ⟨hpA, fun heq => hpc ?_, by omega⟩
  rw [heq, Option.some_or] at hc
  exact Option.some.inj hc

/-- A call keeps the bound, when it chooses the process that has waited longest as soon as somebody
has waited 42 calls. -/
theorem Bounded.chose (hb : Bounded A n s) (hc : s.currentProcess.or s.idleProcess = some c)
    (hp : p ∈ A) (hmax : (∀ q ∈ A, ((s.stamp c).wait q).toNat ≤ ((s.stamp c).wait p).toNat) ∨
      ∀ q ∈ A, ((s.stamp c).wait q).toNat < 42) : Bounded A n (s.chose c p) where
  card := hb.card
  some_active := hb.some_active
  waits q hq := by
    rw [wait_chose]
    by_cases hn : n + 43 < 2 ^ 32
    · have := hb.over_stamp hc hn (k := n + 43) (by omega)
      rw [Nat.sub_self, Nat.le_zero, Finset.card_eq_zero] at this
      have : ¬ n + 43 ≤ ((s.stamp c).wait q).toNat := fun h =>
        (Finset.eq_empty_iff_forall_notMem.mp this) q (Finset.mem_filter.mpr ⟨hq, h⟩)
      omega
    · have := ((s.stamp c).wait q).isLt
      omega
  fewLate hn k hk := by
    rcases Nat.eq_or_lt_of_le hk with rfl | hk
    · have := Finset.card_filter_le A
        fun q => (s.chose c p).currentProcess ≠ some q ∧ 42 ≤ ((s.chose c p).wait q).toNat
      rw [hb.card] at this
      omega
    · have hS := hb.over_stamp hc hn hk
      have hsub : (A.filter fun q => (s.chose c p).currentProcess ≠ some q ∧
          k ≤ ((s.chose c p).wait q).toNat) ⊆
          (A.filter fun q => k ≤ ((s.stamp c).wait q).toNat).erase p := by
        intro q hq
        obtain ⟨hqA, hqp, hw⟩ := Finset.mem_filter.mp hq
        exact Finset.mem_erase.mpr ⟨fun h => hqp (h ▸ rfl), Finset.mem_filter.mpr ⟨hqA, hw⟩⟩
      refine (Finset.card_le_card hsub).trans ?_
      by_cases hpS : p ∈ A.filter fun q => k ≤ ((s.stamp c).wait q).toNat
      · rw [Finset.card_erase_of_mem hpS]
        omega
      -- the chosen process has not waited so long, and then nobody has
      · have hlt : ((s.stamp c).wait p).toNat < k := by
          by_contra h
          exact hpS (Finset.mem_filter.mpr ⟨hp, by omega⟩)
        have hnone : (A.filter fun q => k ≤ ((s.stamp c).wait q).toNat) = ∅ := by
          refine Finset.filter_eq_empty_iff.mpr fun q hq => ?_
          rcases hmax with hmax | hmax
          · have := hmax q hq
            omega
          · have := hmax q hq
            omega
        rw [hnone, Finset.erase_empty]
        exact Nat.zero_le _
  waited := .inl ⟨p, hp, rfl⟩
  started := rfl
  unlocked := hb.unlocked

/-- One call: it chooses a process, and the bound holds with that process running. -/
theorem Bounded.schedule (hb : Bounded A n s) (h : Quiet A s t) (switchTo : Int) :
    ∃ p ∈ A, ∃ s', Bounded A n s' ∧
      t.schedule switchTo = if StackOk (t.procs p) then some (some p, s') else none := by
  have hb := hb.quiet h
  obtain ⟨c, hc⟩ := Option.isSome_iff_exists.mp hb.started
  obtain ⟨p, hp, hmax, heq⟩ :=
    schedule_spec hb.unlocked hc h.actives h.noIrq (hb.some_waited hc) switchTo
  exact ⟨p, hp, t.chose c p, hb.chose hc hp hmax, heq⟩

/-- Every call keeps the bound. -/
theorem Bounded.call (hb : Bounded A n s) {a : Scheduler × Int} (h : Quiet A s a.1) {s' : Scheduler}
    (hcall : call s a = some s') : Bounded A n s' := by
  obtain ⟨p, hp, s₁, hb₁, heq⟩ := hb.schedule h a.2
  unfold Scheduler.call at hcall
  rw [heq] at hcall
  split at hcall
  · cases hcall
    exact hb₁
  · cases hcall

theorem Bounded.fair (hb : Bounded A n s) : Fair A n s where
  waits := hb.waits
  returns t switchTo h := by
    obtain ⟨p, hp, s', -, heq⟩ := hb.schedule h switchTo
    by_cases hs : StackOk (t.procs p)
    · exact .inr ⟨p, hp, s', by rw [heq, if_pos hs]⟩
    · exact .inl ⟨p, hp, hs, by rw [heq, if_neg hs]⟩

/-- **The scheduler is fair.**  Nobody waits longer than 42 calls and one for each process, and every
call returns an active process, also when the clock wraps. -/
theorem schedule_fair {A : Finset Nat} {n : Nat} {s₀ s : Scheduler} {calls : List (Scheduler × Int)}
    (h₀ : Start A n s₀) (h : Run call (fun s a => Quiet A s a.1) s₀ calls s) : Fair A n s :=
  (h.invariant (I := Bounded A n) (fun _ _ _ hb hq hc => hb.call hq hc) h₀.bounded).fair

/-- A scheduler with the given run queue; the address of a process is its PID and the tick of its last
run, and its thread group is `pgid`. -/
def sample (locked : Bool) (queue : List Nat) (current idle : Option Nat) (pgid : Int) (esp : BitVec 32) :
    Scheduler where
  scheduleLock := locked
  scheduleTick := 3
  procs p := ⟨p, pgid, if p ∈ queue then .active else .destruct, p, -1, false, false, esp, 0x1b⟩
  runqueue := queue
  currentProcess := current
  idleProcess := idle

theorem sample_actives (queue : List Nat) {locked : Bool} {current idle : Option Nat} {pgid : Int}
    {esp : BitVec 32} : (sample locked queue current idle pgid esp).Actives queue.toFinset := fun p => by
  simp only [sample, List.mem_toFinset]
  exact ⟨fun h => ⟨h, if_pos h⟩, And.left⟩

theorem sample_quiet (queue : List Nat) {locked : Bool} {current idle : Option Nat} {pgid : Int}
    {esp : BitVec 32} :
    Quiet queue.toFinset (sample locked queue current idle pgid esp)
      (sample locked queue current idle pgid esp) :=
  ⟨rfl, rfl, rfl, rfl, sample_actives queue, fun _ _ => rfl, fun _ _ h => by cases h.2.1⟩

theorem schedule_fair_two :
    ∃ s, call (sample false [1, 2] (some 2) none 1 0) (sample false [1, 2] (some 2) none 1 0, 2) =
      some s ∧ Fair {1, 2} 2 s := by
  have h₀ : Start {1, 2} 2 (sample false [1, 2] (some 2) none 1 0) :=
    ⟨sample_actives [1, 2], rfl, by decide, by decide, by decide, rfl, rfl⟩
  have hq : Quiet {1, 2} (sample false [1, 2] (some 2) none 1 0)
      (sample false [1, 2] (some 2) none 1 0) := sample_quiet [1, 2]
  obtain ⟨s, hs⟩ := Option.isSome_iff_exists.mp (by decide : (call
    (sample false [1, 2] (some 2) none 1 0) (sample false [1, 2] (some 2) none 1 0, 2)).isSome)
  exact ⟨s, hs, schedule_fair h₀ (.one hq hs)⟩

/-- What keeps a call from returning an active process: there is none; the scheduler is in use, or has
nothing to start from; the process is a thread on the stack of its process. -/
theorem schedule_not_active :
    ((sample false [] (some 5) (some 5) 1 0).Actives ∅ ∧
      ((sample false [] (some 5) (some 5) 1 0).schedule 2).map Prod.fst = some (some 5)) ∧
    ((sample true [1, 2] (some 5) none 1 0).Actives {1, 2} ∧
      ((sample true [1, 2] (some 5) none 1 0).schedule 2).map Prod.fst = some (some 5)) ∧
    ((sample false [1, 2] none none 1 0).Actives {1, 2} ∧
      ((sample false [1, 2] none none 1 0).schedule 2).map Prod.fst = some none) ∧
    Start {2} 1 (sample false [2] (some 2) none 1 0xef000000) ∧
      ((sample false [2] (some 2) none 1 0xef000000).schedule 2).map Prod.fst = none := by
  refine ⟨⟨sample_actives [], by decide⟩, ⟨sample_actives [1, 2], by decide⟩,
    ⟨sample_actives [1, 2], by decide⟩, ?_, by decide⟩
  exact ⟨sample_actives [2], rfl, by decide, by decide, by decide, rfl, rfl⟩

end Scheduler

end Muxomucota.Tasking
