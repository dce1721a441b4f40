import Muxomucota.Lib.Runs
import Muxomucota.Lib.Tally
import Muxomucota.Tasking.Irqs

/-!
# Tasking — every activation of an IRQ handler is settled once

`unsettled_procs` of a line is the sum, over the handlers of the line, of what each still owes: one
for an activation that is running, and one for each time it has left its handler without that the
reaper has settled it.  A handler that calls `SYS_DAEMONIZE` while it runs leaves its activation
without owing anything for it; without such calls the sum is kept by every step.
-/

namespace Muxomucota.Tasking
open Lib

/-- **The condition**: no process calls `SYS_DAEMONIZE` while it runs its handler. -/
def IrqStepOk (s : Irqs) : IrqAct → Prop
  | .daemonize p => (s.procs p).handlingIrq = false
  | _ => True

/-- **What settlement means**: the counter is what is running plus what is not yet consumed,
`irq_settled` finds it positive wherever it is called, and a line with nothing outstanding is not
masked. -/
structure Settlement (s : Irqs) : Prop where
  count : ∀ irq, s.unsettled irq = s.runningOn irq + s.unconsumedOn irq
  registered : ∀ irq, (s.handlers irq).Nodup ∧
    ∀ p, p ∈ s.handlers irq ↔ (s.procs p).handledIrq = some irq
  exitSettles : ∀ p irq, s.Handling p → (s.procs p).handledIrq = some irq →
    (s.irqSettled irq).isSome
  reaperSettles : ∀ p, s.reaper = .settling p →
    ∃ irq, (s.procs p).handledIrq = some irq ∧ (s.irqSettled irq).isSome
  unmasked : ∀ irq, s.runningOn irq + s.unconsumedOn irq = 0 → s.masked irq = false

/-! ### What a process owes -/

/-- The unit that the reaper has settled and not yet counted. -/
def Reaper.counted (r : Reaper) (p : Nat) : Nat := if r = .counting p then 1 else 0

/-- What a process owes the counter of its line. -/
def owed (r : Reaper) (p : Nat) (c : IrqProcess) : Nat :=
  (if c.status = .active ∧ c.handlingIrq = true then 1 else 0) + (c.settleCount - r.counted p)

/-- What every process meets: only an active process handles an interrupt; whoever is no sleeping
handler owes the reaper nothing; and the reaper is only at processes it has something to do with. -/
structure Proper (r : Reaper) (p : Nat) (c : IrqProcess) : Prop where
  handling : c.handlingIrq = true →
    (c.status = .active ∧ c.handledIrq.isSome = true) ∨ c.status = .zombie
  awake : c.status ≠ .daemon ∨ c.handledIrq = none → c.settleCount = r.counted p
  settling : r = .settling p → c.status = .daemon ∧ 0 < c.settleCount ∧ c.handledIrq.isSome = true
  counting : r = .counting p → 0 < c.settleCount

/-- The invariant. -/
structure IrqInv (s : Irqs) : Prop where
  nodup : ∀ irq, (s.handlers irq).Nodup
  registered : ∀ p irq, p ∈ s.handlers irq ↔ (s.procs p).handledIrq = some irq
  count : ∀ irq, s.unsettled irq = ((s.handlers irq).map fun p => owed s.reaper p (s.procs p)).sum
  masked : ∀ irq, s.masked irq = true ↔ s.unsettled irq ≠ 0
  proper : ∀ p, Proper s.reaper p (s.procs p)

theorem irqInv_init : IrqInv .init where
  nodup irq := List.nodup_nil
  registered p irq := by simp [Irqs.init, IrqProcess.fresh]
  count irq := rfl
  masked irq := by simp [Irqs.init]
  proper p := by constructor <;> simp [Irqs.init, IrqProcess.fresh, Reaper.counted]

/-! ### Lists of handlers -/

/-- In a list without repetitions `unregister_isr_process` unlinks the process and nothing else. -/
theorem unlinkIsr_eq_erase {p : Nat} {isrs : List Nat} (h : isrs.Nodup) :
    Irqs.unlinkIsr p isrs = isrs.erase p := by
  fun_induction Irqs.unlinkIsr p isrs with
  | case1 => rfl
  | case2 => simp
  | case3 r rest ih =>
      obtain ⟨hp, hr⟩ := List.nodup_cons.mp h
      rw [ih (List.nodup_cons.mp hr).2, List.erase_cons_head,
        List.erase_of_not_mem fun hm => hp (List.mem_cons_of_mem _ hm)]
  | case4 q rest hqp ih =>
      rw [ih (List.nodup_cons.mp h).2, List.erase_cons_tail (by simpa using hqp)]

/-- A process that `common_irq_handler` has woken, or left as it was. -/
def IrqProcess.wake (c : IrqProcess) : IrqProcess :=
  if c.status = .daemon then { c with status := .active, handlingIrq := true } else c

/-- `common_irq_handler` wakes exactly the handlers of the line that sleep, and counts them. -/
theorem commonIrqHandler_eq {isrs : List Nat} (h : isrs.Nodup) (s : Irqs) :
    s.commonIrqHandler isrs =
      ({ s with procs := fun q => if q ∈ isrs then (s.procs q).wake else s.procs q },
        isrs.countP fun q => (s.procs q).status = .daemon) := by
  induction isrs generalizing s with
  | nil => simp [Irqs.commonIrqHandler]
  | cons p isrs ih =>
      obtain ⟨hp, hnd⟩ := List.nodup_cons.mp h
      rw [Irqs.commonIrqHandler]
      split
      · rename_i hd
        dsimp only
        rw [ih hnd]
        refine Prod.ext ?_ ?_
        · simp only [Irqs.setProc, Irqs.mk.injEq, and_true]
          funext q
          by_cases hqp : q = p
          · subst hqp; simp [hp, IrqProcess.wake, hd]
          · simp [hqp]
        · have hcongr : isrs.countP (fun q => decide (((Function.update s.procs p
              { s.procs p with status := .active, handlingIrq := true }) q).status = .daemon)) =
              isrs.countP (fun q => decide ((s.procs q).status = .daemon)) := by
            refine List.countP_congr fun q hq => ?_
            have hqp : q ≠ p := by rintro rfl; exact hp hq
            simp [hqp]
          simp only [Irqs.setProc, List.countP_cons, hd, decide_true, if_true]
          exact congrArg (fun n => n + 1) hcongr
      · rename_i hd
        rw [ih hnd]
        refine Prod.ext ?_ ?_
        · simp only [Irqs.mk.injEq, and_true]
          funext q
          by_cases hqp : q = p
          · subst hqp; simp [hp, IrqProcess.wake, hd]
          · simp [hqp]
        · simp [hd]

/-! ### One step -/

variable {s s' : Irqs} {p : Nat} {irq : Irq} {a : IrqAct}

theorem irqSettled_eq (h : s.unsettled irq ≠ 0) : s.irqSettled irq = some { s with
    unsettled := Function.update s.unsettled irq (s.unsettled irq - 1)
    masked := if s.unsettled irq - 1 = 0 then Function.update s.masked irq false else s.masked } :=
  if_neg h

theorem irqSettled_isSome : (s.irqSettled irq).isSome = true ↔ s.unsettled irq ≠ 0 := by
  simp [Irqs.irqSettled]

namespace IrqInv

/-- A step at which only what `p` owes changes. -/
theorem sum_shift (h : IrqInv s) (r : Reaper) (procs : Nat → IrqProcess)
    (off : ∀ q, q ≠ p → owed r q (procs q) = owed s.reaper q (s.procs q)) (irq : Irq) :
    ((s.handlers irq).map fun q => owed r q (procs q)).sum +
        (if (s.procs p).handledIrq = some irq then owed s.reaper p (s.procs p) else 0) =
      s.unsettled irq + (if (s.procs p).handledIrq = some irq then owed r p (procs p) else 0) := by
  rw [h.count irq]
  by_cases hp : (s.procs p).handledIrq = some irq
  · simp only [hp, if_true]
    exact sum_map_shift (h.nodup irq) ((h.registered p irq).mpr hp) fun q _ => off q
  · have hmem : p ∉ s.handlers irq := fun hm => hp ((h.registered p irq).mp hm)
    simp only [hp, if_false, Nat.add_zero]
    refine congrArg List.sum (List.map_congr_left fun q hq => off q ?_)
    rintro rfl
    exact hmem hq

/-- What a handler owes, its line counts. -/
theorem owed_le (h : IrqInv s) (hp : (s.procs p).handledIrq = some irq) :
    owed s.reaper p (s.procs p) ≤ s.unsettled irq := by
  rw [h.count irq]
  exact le_sum_map (f := fun q => owed s.reaper q (s.procs q)) ((h.registered p irq).mpr hp)

/-- A process changes, and keeps its line and what it owes. -/
theorem change (h : IrqInv s) {c : IrqProcess} (hirq : c.handledIrq = (s.procs p).handledIrq)
    (howed : owed s.reaper p c = owed s.reaper p (s.procs p)) (hc : Proper s.reaper p c) :
    IrqInv (s.setProc p c) where
  nodup := h.nodup
  registered q irq := by
    rw [show (s.setProc p c).handlers = s.handlers from rfl, h.registered]
    by_cases hqp : q = p
    · subst hqp; simp [Irqs.setProc, hirq]
    · simp [Irqs.setProc, hqp]
  count irq := by
    have hsum := h.sum_shift (p := p) s.reaper (Function.update s.procs p c)
      (fun q hq => by simp [hq]) irq
    simp only [Function.update_self, howed] at hsum
    exact (Nat.add_right_cancel hsum).symm
  masked := h.masked
  proper q := by
    by_cases hqp : q = p
    · subst hqp; simpa [Irqs.setProc] using hc
    · simpa [Irqs.setProc, hqp] using h.proper q

/-- A process registers for a line. -/
theorem handleIrq (h : IrqInv s) (hact : (s.procs p).status = .active)
    (hs : s.registerUserIsr irq p = some s') : IrqInv s' := by
  simp only [Irqs.registerUserIsr, Option.isSome_iff_ne_none, ne_eq, ite_not] at hs
  split at hs
  · rename_i hnone
    cases hs
    have hprop := h.proper p
    have hset : (s.procs p).settleCount = s.reaper.counted p := hprop.awake (.inr hnone)
    have hidle : (s.procs p).handlingIrq ≠ true := by
      intro hh
      rcases hprop.handling hh with ⟨-, hsome⟩ | hz
      · simp [hnone] at hsome
      · rw [hact] at hz; cases hz
    have hmem : ∀ i, p ∉ s.handlers i := fun i hm => by
      have := (h.registered p i).mp hm
      rw [hnone] at this
      cases this
    refine ⟨fun i => ?_, fun q i => ?_, fun i => ?_, h.masked, fun q => ?_⟩
    · by_cases hi : i = irq
      · subst hi
        simpa [Irqs.setProc] using ⟨hmem i, h.nodup i⟩
      · simpa [Irqs.setProc, hi] using h.nodup i
    · have hreg := h.registered q i
      by_cases hqp : q = p
      · subst hqp
        by_cases hi : i = irq
        · subst hi; simp [Irqs.setProc]
        · simpa [Irqs.setProc, hi, hmem i] using fun heq : irq = i => hi heq.symm
      · by_cases hi : i = irq
        · subst hi; simpa [Irqs.setProc, hqp] using hreg
        · simpa [Irqs.setProc, hqp, hi] using hreg
    · have hsame : (s.handlers i).map (fun q => owed s.reaper q
          (Function.update s.procs p { s.procs p with handledIrq := some irq } q)) =
          (s.handlers i).map (fun q => owed s.reaper q (s.procs q)) := by
        refine List.map_congr_left fun q hq => ?_
        have hqp : q ≠ p := by rintro rfl; exact hmem i hq
        simp [hqp]
      have hcount := h.count i
      by_cases hi : i = irq
      · subst hi
        simp only [Irqs.setProc, Function.update_self, List.map_cons, List.sum_cons]
        have hzero : owed s.reaper p { s.procs p with handledIrq := some i } = 0 := by
          simp [owed, hset, hidle]
        rw [hsame, ← hcount, hzero, Nat.zero_add]
      · simp only [Irqs.setProc, Function.update_of_ne hi]
        rw [hsame]
        exact hcount
    · by_cases hqp : q = p
      · subst hqp
        simp only [Irqs.setProc, Function.update_self]
        exact ⟨fun hh => absurd hh hidle, fun _ => hset,
          fun hr => ⟨(hprop.settling hr).1, (hprop.settling hr).2.1, rfl⟩, hprop.counting⟩
      · simpa [Irqs.setProc, hqp] using h.proper q
  · cases hs

/-- A line that is not masked has nothing unsettled: the assertion before `common_irq_handler`
holds. -/
theorem unsettled_of_not_masked (h : IrqInv s) (hm : s.masked irq = false) :
    s.unsettled irq = 0 := by
  by_contra hu
  rw [(h.masked irq).mpr hu] at hm
  cases hm

/-- An interrupt. -/
theorem interrupt (h : IrqInv s) (hm : s.masked irq = false) (hs : s.commonIsr irq = some s') :
    IrqInv s' := by
  have hu := h.unsettled_of_not_masked hm
  have hzero : ∀ q ∈ s.handlers irq, owed s.reaper q (s.procs q) = 0 := fun q hq => by
    have := h.owed_le ((h.registered q irq).mp hq)
    omega
  -- nobody who sleeps on the line owes anything, so that waking adds exactly one
  have hwake : ∀ q ∈ s.handlers irq, owed s.reaper q (s.procs q).wake =
      if (s.procs q).status = .daemon then 1 else 0 := fun q hq => by
    have hq0 := hzero q hq
    simp only [owed, Nat.add_eq_zero_iff] at hq0
    rw [IrqProcess.wake]
    split <;> simp [owed, hq0]
  simp only [Irqs.commonIsr, hu, ne_eq, not_true_eq_false, if_false,
    commonIrqHandler_eq (h.nodup irq), Option.some.injEq] at hs
  subst hs
  have hprocs : ∀ q, (if q ∈ s.handlers irq then (s.procs q).wake else s.procs q).handledIrq =
      (s.procs q).handledIrq := fun q => by
    split
    · rw [IrqProcess.wake]; split <;> rfl
    · rfl
  refine ⟨h.nodup, fun q i => ?_, fun i => ?_, fun i => ?_, fun q => ?_⟩
  · dsimp only
    rw [hprocs]
    exact h.registered q i
  · dsimp only
    by_cases hi : i = irq
    · subst hi
      rw [Function.update_self, countP_eq_sum]
      refine congrArg List.sum (List.map_congr_left fun q hq => ?_)
      rw [if_pos hq, hwake q hq]
    · rw [Function.update_of_ne hi, h.count i]
      refine congrArg List.sum (List.map_congr_left fun q hq => ?_)
      have hother : q ∉ s.handlers irq := fun hq' => by
        have hreg := (h.registered q i).mp hq
        rw [(h.registered q irq).mp hq'] at hreg
        exact hi (Option.some.inj hreg).symm
      rw [if_neg hother]
  · dsimp only
    have hmi := h.masked i
    by_cases hi : i = irq
    · subst hi
      rw [Function.update_self]
      split
      · rename_i hn; simpa using hn
      · rename_i hn; simp [hm, not_not.mp hn]
    · rw [Function.update_of_ne hi]
      split
      · rw [Function.update_of_ne hi]; exact hmi
      · exact hmi
  · dsimp only
    have hprop := h.proper q
    split
    · rename_i hq
      rw [IrqProcess.wake]
      split
      · rename_i hd
        have hq0 := hzero q hq
        have hset : (s.procs q).settleCount - s.reaper.counted q = 0 :=
          (Nat.add_eq_zero_iff.mp hq0).2
        have hle : s.reaper.counted q ≤ (s.procs q).settleCount := by
          rw [Reaper.counted]
          split
          · rename_i hr; exact hprop.counting hr
          · exact Nat.zero_le _
        have hsome : (s.procs q).handledIrq.isSome = true := by
          rw [(h.registered q irq).mp hq]; rfl
        refine ⟨fun _ => .inl ⟨rfl, hsome⟩, fun _ => by dsimp only; omega, fun hr => ?_,
          hprop.counting⟩
        have hpos := (hprop.settling hr).2.1
        have hno : s.reaper.counted q = 0 := by simp [Reaper.counted, hr]
        omega
      · exact hprop
    · exact hprop

/-- A process leaves its handler through `SYS_IRQ_HANDLER_EXIT`. -/
theorem irqHandlerExit (h : IrqInv s) (hact : (s.procs p).status = .active)
    (hs : s.daemonizeFromIrqHandler p = some s') : IrqInv s' := by
  simp only [Irqs.daemonizeFromIrqHandler] at hs
  split at hs
  · rename_i hh
    cases hs
    have hprop := h.proper p
    have hset := hprop.awake (.inl (by simp [hact]))
    refine h.change rfl ?_ ⟨fun hf => ?_, fun hor => ?_, fun _ => ⟨rfl, ?_, hh.2⟩, fun _ => ?_⟩
    · simp [owed, hact, hh.1, hset]
    · cases hf
    · rcases hor with hne | hnone
      · exact absurd rfl hne
      · dsimp only at hnone
        rw [hnone] at hh
        exact absurd hh.2 (by simp)
    · exact Nat.succ_pos _
    · exact Nat.succ_pos _
  · cases hs

/-- A process sleeps, and does not run its handler. -/
theorem daemonize (h : IrqInv s) (hact : (s.procs p).status = .active)
    (hidle : (s.procs p).handlingIrq = false) : IrqInv (s.daemonizeProcess p) := by
  have hprop := h.proper p
  have hset := hprop.awake (.inl (by simp [hact]))
  refine h.change rfl ?_ ⟨fun hh => ?_, fun _ => hset, fun hr => ?_, hprop.counting⟩
  · simp [owed, hidle]
  · simp [hidle] at hh
  · have := (hprop.settling hr).1
    rw [hact] at this
    cases this

/-- `run_process` -/
theorem runProcess (h : IrqInv s) (hcoma : (s.procs p).status = .coma) :
    IrqInv (s.setProc p { s.procs p with status := .active }) := by
  have hprop := h.proper p
  have hidle : (s.procs p).handlingIrq ≠ true := by
    intro hh
    rcases hprop.handling hh with ⟨ha, -⟩ | hz
    · rw [hcoma] at ha; cases ha
    · rw [hcoma] at hz; cases hz
  have hset := hprop.awake (.inl (by simp [hcoma]))
  refine h.change rfl ?_ ⟨fun hh => absurd hh hidle, fun _ => hset, fun hr => ?_, hprop.counting⟩
  · simp [owed, hidle]
  · have := (hprop.settling hr).1
    rw [hcoma] at this
    cases this

/-- A handler is unregistered and becomes a zombie; its line counts one less for what it owed. -/
theorem leave (h : IrqInv s) (hact : (s.procs p).status = .active)
    (hirq : (s.procs p).handledIrq = some irq) (unsettled : Irq → Nat) {masked : Irq → Bool}
    (hu : ∀ i, unsettled i + (if i = irq then owed s.reaper p (s.procs p) else 0) = s.unsettled i)
    (hm : ∀ i, masked i = true ↔ unsettled i ≠ 0) :
    IrqInv { s with
      procs := Function.update s.procs p { s.procs p with handledIrq := none, status := .zombie }
      handlers := fun i => Irqs.unlinkIsr p (s.handlers i)
      unsettled, masked } := by
  have hprop := h.proper p
  have hset := hprop.awake (.inl (by simp [hact]))
  have hunlink : ∀ i, Irqs.unlinkIsr p (s.handlers i) = (s.handlers i).erase p :=
    fun i => unlinkIsr_eq_erase (h.nodup i)
  refine ⟨fun i => ?_, fun q i => ?_, fun i => ?_, hm, fun q => ?_⟩
  · dsimp only
    rw [hunlink]
    exact (h.nodup i).erase p
  · dsimp only
    rw [hunlink, (h.nodup i).mem_erase_iff, h.registered]
    by_cases hqp : q = p
    · subst hqp; simp
    · simp [hqp]
  · dsimp only
    rw [hunlink]
    have hsame : ((s.handlers i).erase p).map (fun q => owed s.reaper q
        (Function.update s.procs p { s.procs p with handledIrq := none, status := .zombie } q)) =
        ((s.handlers i).erase p).map fun q => owed s.reaper q (s.procs q) := by
      refine List.map_congr_left fun q hq => ?_
      have hqp : q ≠ p := by rintro rfl; exact (h.nodup i).not_mem_erase hq
      simp [hqp]
    rw [hsame]
    have hcount := h.count i
    have hui := hu i
    by_cases hi : i = irq
    · subst hi
      have hsum := List.sum_map_erase (fun q => owed s.reaper q (s.procs q))
        ((h.registered p i).mpr hirq)
      rw [if_pos rfl] at hui
      omega
    · have hmem : p ∉ s.handlers i := fun hp => by
        have hreg := (h.registered p i).mp hp
        rw [hirq] at hreg
        exact hi (Option.some.inj hreg).symm
      rw [if_neg hi] at hui
      rw [List.erase_of_not_mem hmem]
      omega
  · dsimp only
    by_cases hqp : q = p
    · subst hqp
      rw [Function.update_self]
      refine ⟨fun _ => .inr rfl, fun _ => hset, fun hr => ?_, hprop.counting⟩
      have := (hprop.settling hr).1
      rw [hact] at this
      cases this
    · rw [Function.update_of_ne hqp]
      exact h.proper q

/-- What `irq_settled` leaves of the mask. -/
theorem masked_settled (h : IrqInv s) (i : Irq) :
    (if s.unsettled irq - 1 = 0 then Function.update s.masked irq false else s.masked) i = true ↔
      Function.update s.unsettled irq (s.unsettled irq - 1) i ≠ 0 := by
  have hmi := h.masked i
  by_cases hi : i = irq
  · subst hi
    rw [Function.update_self]
    split
    · rename_i hz; simp [hz]
    · rename_i hz
      rw [hmi]
      constructor
      · exact fun _ => hz
      · intro _; omega
  · rw [Function.update_of_ne hi]
    split
    · rw [Function.update_of_ne hi]; exact hmi
    · exact hmi

/-- What a running handler owes: its activation, and nothing else. -/
theorem owed_handling (h : IrqInv s) (hrun : s.Handling p) : owed s.reaper p (s.procs p) = 1 := by
  have hset := (h.proper p).awake (.inl (by simp [hrun.1]))
  simp [owed, hrun.1, hrun.2, hset]

/-- `SYS_EXIT` -/
theorem exit (h : IrqInv s) (hact : (s.procs p).status = .active)
    (hs : s.destroyProcess p = some s') : IrqInv s' := by
  have hprop := h.proper p
  have hset := hprop.awake (.inl (by simp [hact]))
  rw [Irqs.destroyProcess] at hs
  dsimp only at hs
  split at hs
  · -- no handler
    rename_i hnone
    cases hs
    have hidle : (s.procs p).handlingIrq ≠ true := by
      intro hh
      rcases hprop.handling hh with ⟨-, hsome⟩ | hz
      · simp [hnone] at hsome
      · rw [hact] at hz; cases hz
    refine h.change rfl ?_ ⟨fun _ => .inr rfl, fun _ => hset, fun hr => ?_, hprop.counting⟩
    · simp [owed, hidle]
    · have := (hprop.settling hr).1
      rw [hact] at this
      cases this
  · rename_i irq hirq
    split at hs
    · rename_i hrun
      have howed := h.owed_handling hrun
      have hpos := h.owed_le hirq
      rw [howed] at hpos
      rw [irqSettled_eq (by omega)] at hs
      simp only [Option.map_some, Option.some.injEq] at hs
      subst hs
      have hleft := h.leave hact hirq
        (Function.update s.unsettled irq (s.unsettled irq - 1)) (fun i => by
          by_cases hi : i = irq
          · subst hi; simp only [Function.update_self, if_true, howed]; omega
          · simp [hi]) h.masked_settled
      simpa [Irqs.setProc, Irqs.unregisterIsrProcess] using hleft
    · rename_i hrun
      cases hs
      have howed : owed s.reaper p (s.procs p) = 0 := by simp [owed, hrun, hset]
      have hleft := h.leave hact hirq s.unsettled (fun i => by
        rw [howed]; split <;> rfl) h.masked
      simpa [Irqs.setProc, Irqs.unregisterIsrProcess] using hleft

/-- What the process owes at which the reaper is about to settle. -/
theorem owed_settling (h : IrqInv s) (hr : s.reaper = .settling p) :
    owed s.reaper p (s.procs p) = (s.procs p).settleCount := by
  have hd := ((h.proper p).settling hr).1
  simp [owed, Reaper.counted, hd, hr]

/-- The reaper calls `irq_settled`. -/
theorem reaperSettle (h : IrqInv s) (hr : s.reaper = .settling p)
    (hs : s.reaperSettle p = some s') : IrqInv s' := by
  obtain ⟨hd, hpos, -⟩ := (h.proper p).settling hr
  rw [Irqs.reaperSettle] at hs
  split at hs
  · cases hs
  · rename_i irq hirq
    have howed := h.owed_settling hr
    have hle := h.owed_le hirq
    rw [howed] at hle
    rw [irqSettled_eq (by omega)] at hs
    simp only [Option.map_some, Option.some.injEq] at hs
    subst hs
    refine ⟨h.nodup, h.registered, fun i => ?_, h.masked_settled, fun q => ?_⟩
    · have hsum := h.sum_shift (p := p) (.counting p) s.procs
        (fun q hq => by simp [owed, Reaper.counted, hr, Ne.symm hq]) i
      have hone : owed (.counting p) p (s.procs p) + 1 = (s.procs p).settleCount := by
        simp only [owed, Reaper.counted, hd]
        simp
        omega
      dsimp only
      by_cases hi : i = irq
      · subst hi
        rw [Function.update_self]
        rw [if_pos hirq, if_pos hirq, howed] at hsum
        omega
      · have hne : (s.procs p).handledIrq ≠ some i := fun heq => by
          rw [hirq] at heq
          exact hi (Option.some.inj heq).symm
        rw [Function.update_of_ne hi]
        rw [if_neg hne, if_neg hne] at hsum
        omega
    · have hq := h.proper q
      by_cases hqp : q = p
      · subst hqp
        refine ⟨hq.handling, fun hor => ?_, fun hr' => Reaper.noConfusion hr', fun _ => hpos⟩
        rcases hor with hne | hnone
        · exact absurd hd hne
        · rw [hirq] at hnone; cases hnone
      · refine ⟨hq.handling, fun hor => ?_, fun hr' => ?_, fun hr' => ?_⟩
        · have := hq.awake hor
          simpa [Reaper.counted, hr, Ne.symm hqp] using this
        · cases hr'
        · exact absurd (Reaper.counting.inj hr') (Ne.symm hqp)

/-- The reaper counts what it has settled. -/
theorem reaperCount (h : IrqInv s) (hr : s.reaper = .counting p) : IrqInv (s.reaperCount p) := by
  have hp := h.proper p
  have hpos := hp.counting hr
  have hone : s.reaper.counted p = 1 := by simp [Reaper.counted, hr]
  have hnot : ∀ r : Reaper, r = (if (s.procs p).settleCount - 1 = 0 then .walking else .settling p) →
      ∀ q, r.counted q = 0 := by
    rintro r rfl q
    rw [Reaper.counted]
    split <;> simp
  have hoff : ∀ q, q ≠ p → s.reaper.counted q = 0 := fun q hq => by
    simp [Reaper.counted, hr, Ne.symm hq]
  refine ⟨h.nodup, fun q i => ?_, fun i => ?_, h.masked, fun q => ?_⟩
  · have hreg := h.registered q i
    by_cases hqp : q = p
    · subst hqp; simpa [Irqs.reaperCount, Irqs.setProc] using hreg
    · simpa [Irqs.reaperCount, Irqs.setProc, hqp] using hreg
  · have hsum := h.sum_shift (p := p)
      (if (s.procs p).settleCount - 1 = 0 then .walking else .settling p)
      (Function.update s.procs p
        { s.procs p with settleCount := (s.procs p).settleCount - 1 })
      (fun q hq => by simp [owed, hnot _ rfl, hoff q hq, hq]) i
    have hsame : owed (if (s.procs p).settleCount - 1 = 0 then .walking else .settling p) p
        { s.procs p with settleCount := (s.procs p).settleCount - 1 } =
        owed s.reaper p (s.procs p) := by
      simp [owed, hnot _ rfl, hone]
    rw [Function.update_self, hsame] at hsum
    exact (Nat.add_right_cancel hsum).symm
  · have hq := h.proper q
    by_cases hqp : q = p
    · subst hqp
      simp only [Irqs.reaperCount, Irqs.setProc, Function.update_self]
      refine ⟨hq.handling, fun hor => ?_, fun hr' => ?_, fun hr' => ?_⟩
      · have hset := hq.awake hor
        rw [hnot _ rfl]
        dsimp only
        omega
      · -- only a sleeping handler owes more than the unit that was counted
        have hmore : (s.procs q).settleCount - 1 ≠ 0 := by
          intro hz
          rw [if_pos hz] at hr'
          cases hr'
        have hsleeps : ¬ ((s.procs q).status ≠ .daemon ∨ (s.procs q).handledIrq = none) := by
          intro hor
          have := hq.awake hor
          omega
        obtain ⟨hd, hsome⟩ := not_or.mp hsleeps
        exact ⟨not_not.mp hd, Nat.pos_of_ne_zero hmore, Option.isSome_iff_ne_none.mpr hsome⟩
      · split at hr' <;> cases hr'
    · simp only [Irqs.reaperCount, Irqs.setProc, Function.update_of_ne hqp]
      refine ⟨hq.handling, fun hor => ?_, fun hr' => ?_, fun hr' => ?_⟩
      · rw [hnot _ rfl, hq.awake hor, hoff q hqp]
      · split at hr'
        · cases hr'
        · exact absurd (Reaper.settling.inj hr') (Ne.symm hqp)
      · split at hr' <;> cases hr'

/-- The reaper looks at a process. -/
theorem reaperCheck (h : IrqInv s) (hr : s.reaper = .walking) : IrqInv (s.reaperCheck p) := by
  rw [Irqs.reaperCheck]
  split
  · rename_i hc
    have hsame : ∀ q, Reaper.counted (.settling p) q = s.reaper.counted q := fun q => by
      simp [Reaper.counted, hr]
    refine ⟨h.nodup, h.registered, fun i => ?_, h.masked, fun q => ?_⟩
    · have hcount := h.count i
      simpa only [owed, hsame] using hcount
    · have hq := h.proper q
      refine ⟨hq.handling, fun hor => ?_, fun hr' => ?_, fun hr' => Reaper.noConfusion hr'⟩
      · dsimp only
        rw [hsame]
        exact hq.awake hor
      · obtain rfl := Reaper.settling.inj hr'
        exact ⟨hc.2.2, hc.2.1, hc.1⟩
  · exact h

/-- Every step keeps the invariant. -/
theorem step (h : IrqInv s) (hok : IrqStepOk s a) (hs : irqStep s a = some s') : IrqInv s' := by
  cases a with
  | runProcess p =>
      simp only [irqStep, Option.ite_none_right_eq_some, Option.some.injEq] at hs
      exact hs.2 ▸ h.runProcess hs.1
  | handleIrq p irq =>
      simp only [irqStep, Option.ite_none_right_eq_some] at hs
      exact h.handleIrq hs.1 hs.2
  | daemonize p =>
      simp only [irqStep, Option.ite_none_right_eq_some, Option.some.injEq] at hs
      exact hs.2 ▸ h.daemonize hs.1 hok
  | interrupt irq =>
      simp only [irqStep, Option.ite_none_left_eq_some, Bool.not_eq_true] at hs
      exact h.interrupt hs.1 hs.2
  | irqHandlerExit p =>
      simp only [irqStep, Option.ite_none_right_eq_some] at hs
      exact h.irqHandlerExit hs.1 hs.2
  | exit p =>
      simp only [irqStep, Option.ite_none_right_eq_some] at hs
      exact h.exit hs.1 hs.2
  | reaperCheck p =>
      simp only [irqStep, Option.ite_none_right_eq_some, Option.some.injEq] at hs
      exact hs.2 ▸ h.reaperCheck hs.1
  | reaperGo =>
      simp only [irqStep] at hs
      split at hs
      · cases hs
      · rename_i p hr; exact h.reaperSettle hr hs
      · rename_i p hr
        cases hs
        exact h.reaperCount hr

theorem run {as : List IrqAct} (h : Run irqStep IrqStepOk .init as s) : IrqInv s :=
  h.invariant (fun _ _ _ hi hok hs => hi.step hok hs) irqInv_init

/-- The sum of what is owed is what is running and what is not consumed. -/
theorem unsettled_eq (h : IrqInv s) (irq : Irq) :
    s.unsettled irq = s.runningOn irq + s.unconsumedOn irq := by
  rw [h.count irq, Irqs.runningOn, Irqs.unconsumedOn, countP_eq_sum, ← List.sum_map_add]
  rfl

end IrqInv

/-- **IRQ settlement**: as long as no running handler calls `SYS_DAEMONIZE`, `unsettled_procs` of a
line counts the activations that run and those the reaper has not consumed, `irq_settled` asserts
nowhere, and no line stays masked when nothing is outstanding. -/
theorem irqs_settle {as : List IrqAct} {s : Irqs} (h : Run irqStep IrqStepOk .init as s) :
    Settlement s := by
  have hinv := IrqInv.run h
  refine ⟨hinv.unsettled_eq, fun irq => ⟨hinv.nodup irq, fun p => hinv.registered p irq⟩,
    fun p irq hrun hirq => ?_, fun p hr => ?_, fun irq hzero => ?_⟩
  · have hle := hinv.owed_le hirq
    rw [hinv.owed_handling hrun] at hle
    exact irqSettled_isSome.mpr (by omega)
  · obtain ⟨-, hpos, hsome⟩ := (hinv.proper p).settling hr
    obtain ⟨irq, hirq⟩ := Option.isSome_iff_exists.mp hsome
    have hle := hinv.owed_le hirq
    rw [hinv.owed_settling hr] at hle
    exact ⟨irq, hirq, irqSettled_isSome.mpr (by omega)⟩
  · rw [← hinv.unsettled_eq irq] at hzero
    by_contra hm
    exact (hinv.masked irq).mp (by simpa using hm) hzero

/-- Two interrupts of line 5, handled by one process and settled by the reaper. -/
theorem irqs_settle_twice : ∃ s, Run irqStep IrqStepOk .init
    [.runProcess 1, .handleIrq 1 5, .daemonize 1, .interrupt 5, .irqHandlerExit 1, .reaperCheck 1,
      .reaperGo, .interrupt 5] s ∧ Settlement s := by
  obtain ⟨s, hrun⟩ : ∃ s, Run irqStep IrqStepOk .init
      [.runProcess 1, .handleIrq 1 5, .daemonize 1, .interrupt 5, .irqHandlerExit 1, .reaperCheck 1,
        .reaperGo, .interrupt 5] s :=
    ⟨_, .more trivial rfl (.more trivial rfl (.more rfl rfl (.more trivial rfl (.more trivial rfl
      (.more trivial rfl (.more trivial rfl (.one trivial rfl)))))))⟩
  exact ⟨s, hrun, irqs_settle hrun⟩

/-- A handler calls `SYS_DAEMONIZE` while it runs: nothing is running or left to consume, but the
counter stays at one and the line masked. -/
theorem daemonize_while_handling : ∃ s, Run irqStep anyStep .init
    [.runProcess 1, .handleIrq 1 5, .daemonize 1, .interrupt 5, .daemonize 1] s ∧
      s.unsettled 5 = 1 ∧ s.runningOn 5 + s.unconsumedOn 5 = 0 ∧ s.masked 5 = true :=
  ⟨_, .more trivial rfl (.more trivial rfl (.more trivial rfl (.more trivial rfl
    (.one trivial rfl)))), rfl, rfl, rfl⟩

end Muxomucota.Tasking
