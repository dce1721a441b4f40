import Mathlib.Data.List.Basic
import Mathlib.Logic.Function.Basic
import Mathlib.Tactic.Common
import Muxomucota.Lib.Runs

/-!
# Tasking — popup threads

`create_user_thread`, `set_process_popup_entry`, `popup`, `destroy_this_popup_thread`,
`destroy_process`, `fork` (`kernel/common/tasking/management.c`), as far as they touch process
groups, address spaces and popup stacks.  A popup thread runs on one of `POPUP_STACKS` stacks of the
process it was started in.  Which of them are taken is noted in a mask object, to which the
processes of a group have pointers; a popup thread has none, and gives its stack back through the
process whose PID is its PGID.

`procs` are the process structures by their PID, so that a PID in use is not given out again
(`get_new_pid`).  A process is live in the run queue or among the daemons, where `find_process`
looks for it.  The words of a mask are one row of bits; its `refcount`, which only says when it is
freed, is left out.  Each system call is one step, and there is no step where the kernel stops.
-/

namespace Muxomucota.Tasking
open Lib

/-- `POPUP_STACKS`, `POPUP_STACK_SIZE`, `USER_STACK_BASE`. -/
def popupStacks : Nat := 1024

def popupStackSize : Nat := 65536

def userStackBase : Nat := 0xE0000000

/-- Where a process is: in the run queue or among the daemons, or only waiting to be reaped or
swept. -/
inductive Life where
  | live
  | zombie
  | dead
  deriving DecidableEq, Repr

/-- `process_t`: `vmmc` and `popup_stack_mask` are the objects the pointers point to, and `stack` is
the popup stack, if any, that the thread's stack pointer is in. -/
structure Thread where
  pgid : Nat
  life : Life
  vmmc : Nat
  popupEntry : Bool
  popupStackMask : Option Nat
  popupStackIndex : Option Nat
  popupZombify : Bool
  stack : Option Nat
  deriving DecidableEq, Repr

structure Threads where
  procs : Nat → Option Thread
  masks : Nat → Nat → Bool
  nextMask : Nat
  nextVmmc : Nat

namespace Threads

def init : Threads :=
  { procs := fun _ => none, masks := fun _ _ => false, nextMask := 0, nextVmmc := 0 }

def setProc (s : Threads) (p : Nat) (c : Option Thread) : Threads :=
  { s with procs := Function.update s.procs p c }

/-- The process is live. -/
def Live (s : Threads) (p : Nat) (c : Thread) : Prop := s.procs p = some c ∧ c.life = .live

/-- `find_process` -/
def findProcess (s : Threads) (pid : Nat) : Option Thread :=
  (s.procs pid).filter fun c => c.life = .live

/-- The popup stack in which a stack that starts at `stackTop` lies. -/
def stackSlot (stackTop : Nat) : Option Nat :=
  if userStackBase < stackTop ∧ stackTop ≤ userStackBase + popupStacks * popupStackSize then
    some ((stackTop - userStackBase - 1) / popupStackSize)
  else none

/-- `create_process_from_image`: a process of its own, at the top of its stack. -/
def createProcess (s : Threads) (pid : Nat) : Option Threads :=
  if (s.procs pid).isSome then none
  else
    some { s.setProc pid (some
        { pgid := pid, life := .live, vmmc := s.nextVmmc, popupEntry := false,
          popupStackMask := none, popupStackIndex := none, popupZombify := false, stack := none })
      with nextVmmc := s.nextVmmc + 1 }

/-- `create_user_thread` and `run_process` -/
def createUserThread (s : Threads) (current : Thread) (pid stackTop : Nat) : Option Threads :=
  if (s.procs pid).isSome then none
  else
    some (s.setProc pid (some
      { pgid := current.pgid, life := .live, vmmc := current.vmmc, popupEntry := false,
        popupStackMask := current.popupStackMask, popupStackIndex := none, popupZombify := false,
        stack := stackSlot stackTop }))

/-- `set_process_popup_entry` -/
def setProcessPopupEntry (s : Threads) (p : Nat) (proc : Thread) : Threads :=
  match proc.popupStackMask with
  | some _ => s.setProc p (some { proc with popupEntry := true })
  | none =>
      { s.setProc p (some { proc with popupEntry := true, popupStackMask := some s.nextMask }) with
        masks := Function.update s.masks s.nextMask fun _ => false
        nextMask := s.nextMask + 1 }

/-- The stack that `popup` takes in this process: the first whose bit is clear. -/
def popupSlot (s : Threads) (proc : Thread) : Option Nat := do
  let m ← proc.popupStackMask
  (List.range' 0 popupStacks).find? fun i => !s.masks m i

/-- `popup`; without a mask (`EINVAL`) or a free stack (`EAGAIN`) nothing happens. -/
def popup (s : Threads) (proc : Thread) (pid : Nat) (zombify : Bool) : Option Threads :=
  match proc.popupStackMask, s.popupSlot proc with
  | some m, some k =>
      if (s.procs pid).isSome then none
      else
        some { s.setProc pid (some
            { pgid := proc.pgid, life := .live, vmmc := proc.vmmc, popupEntry := false,
              popupStackMask := none, popupStackIndex := some k, popupZombify := zombify,
              stack := some k })
          with masks := Function.update s.masks m (Function.update (s.masks m) k true) }
  | _, _ => some s

/-- `destroy_this_popup_thread`: without a group leader the assertion fails, and without a mask
there the access faults. -/
def destroyThisPopupThread (s : Threads) (p : Nat) (current : Thread) : Option Threads :=
  match current.popupStackIndex with
  | none => some s
  | some psi =>
      match s.findProcess current.pgid with
      | none => none
      | some pg =>
          match pg.popupStackMask with
          | none => none
          | some m =>
              some { s.setProc p (some
                  { current with life := if current.popupZombify then .zombie else .dead })
                with masks := Function.update s.masks m (Function.update (s.masks m) psi false) }

/-- `destroy_process` -/
def destroyProcess (s : Threads) (p : Nat) (current : Thread) : Threads :=
  s.setProc p (some { current with life := .zombie })

/-- `fork`: the child has an address space of its own, in which it runs where its parent ran, and a
mask if its parent has an entry for popups. -/
def fork (s : Threads) (current : Thread) (pid : Nat) : Option Threads :=
  if (s.procs pid).isSome then none
  else
    let child : Thread :=
      { pgid := pid, life := .live, vmmc := s.nextVmmc, popupEntry := false,
        popupStackMask := none, popupStackIndex := none, popupZombify := false,
        stack := current.stack }
    let s := { s.setProc pid (some child) with nextVmmc := s.nextVmmc + 1 }
    some (if current.popupEntry then s.setProcessPopupEntry pid child else s)

/-- `destroy_process_struct`, from `raw_waitpid` or `sweep_dead_processes`. -/
def destroyProcessStruct (s : Threads) (p : Nat) : Threads := s.setProc p none

end Threads

/-- What can happen next; a new process has the PID `pid`. -/
inductive ThreadAct where
  | createProcess (pid : Nat)
  | createThread (p pid stackTop : Nat)
  | popupEntry (p : Nat)
  | popup (target pid : Nat) (zombify : Bool)
  | popupExit (p : Nat)
  | exit (p : Nat)
  | fork (p pid : Nat)
  | reap (p : Nat)
  deriving Repr

/-- One step.  `SYS_EXIT` of a popup thread is `SYS_POPUP_EXIT`. -/
def threadStep (s : Threads) : ThreadAct → Option Threads
  | .createProcess pid => s.createProcess pid
  | .createThread p pid stackTop => do
      let c ← s.findProcess p
      s.createUserThread c pid stackTop
  | .popupEntry p => do
      let c ← s.findProcess p
      some (s.setProcessPopupEntry p c)
  | .popup target pid zombify => do
      let c ← s.findProcess target
      s.popup c pid zombify
  | .popupExit p => do
      let c ← s.findProcess p
      if c.popupStackIndex.isSome then s.destroyThisPopupThread p c else none
  | .exit p => do
      let c ← s.findProcess p
      if c.popupStackIndex.isSome then s.destroyThisPopupThread p c else some (s.destroyProcess p c)
  | .fork p pid => do
      let c ← s.findProcess p
      s.fork c pid
  | .reap p => do
      let c ← s.procs p
      if c.life = .live then none else some (s.destroyProcessStruct p)

/-! ### What the steps do -/

namespace Threads

variable {s s' : Threads} {p q pid : Nat} {c d : Thread} {a : ThreadAct}

theorem findProcess_eq_some : s.findProcess p = some c ↔ s.Live p c := by
  simp [findProcess, Live, Option.filter_eq_some_iff]

theorem Live.unique (hc : s.Live p c) (hd : s.Live p d) : c = d := by
  rw [Live, hd.1] at hc
  exact (Option.some.inj hc.1).symm

/-! What is live after one process has joined, left, or changed. -/

theorem live_join (hnew : s.procs pid = none) (hkeep : ∀ q, q ≠ pid → s'.procs q = s.procs q)
    (hpid : s'.procs pid = some c) (hc : c.life = .live) :
    s'.Live q d ↔ (q = pid ∧ d = c) ∨ s.Live q d := by
  by_cases hq : q = pid
  · subst hq
    simp only [Live, hpid, hnew, Option.some.injEq, true_and, reduceCtorEq, false_and, or_false]
    exact ⟨fun h => h.1.symm, fun h => ⟨h.symm, h ▸ hc⟩⟩
  · simp [Live, hkeep q hq, hq]

theorem live_part (hkeep : ∀ q, q ≠ p → s'.procs q = s.procs q) (hgone : ∀ d, ¬ s'.Live p d) :
    s'.Live q d ↔ q ≠ p ∧ s.Live q d := by
  by_cases hq : q = p
  · subst hq
    simpa using hgone d
  · simp [Live, hkeep q hq, hq]

theorem live_change (hkeep : ∀ q, q ≠ p → s'.procs q = s.procs q) (hp : s'.procs p = some c)
    (hc : c.life = .live) : s'.Live q d ↔ (q = p ∧ d = c) ∨ (q ≠ p ∧ s.Live q d) := by
  by_cases hq : q = p
  · subst hq
    simp only [Live, hp, Option.some.injEq, true_and, ne_eq, not_true_eq_false, false_and, or_false]
    exact ⟨fun h => h.1.symm, fun h => ⟨h.symm, h ▸ hc⟩⟩
  · simp [Live, hkeep q hq, hq]

@[simp] theorem setProc_procs (c : Option Thread) (q : Nat) :
    (s.setProc p c).procs q = if q = p then c else s.procs q := by
  simp [setProc, Function.update_apply]

@[simp] theorem setProc_masks (c : Option Thread) : (s.setProc p c).masks = s.masks := rfl

/-- `set_process_popup_entry`: the process has an entry and a mask, its own or a new one. -/
theorem setProcessPopupEntry_spec (s : Threads) (p : Nat) (c : Thread) :
    ∃ m masks nextMask, s.setProcessPopupEntry p c = { s with
        procs := Function.update s.procs p
          (some { c with popupEntry := true, popupStackMask := some m })
        masks, nextMask } ∧
      ((c.popupStackMask = some m ∧ masks = s.masks ∧ nextMask = s.nextMask) ∨
        (c.popupStackMask = none ∧ m = s.nextMask ∧ nextMask = s.nextMask + 1 ∧
          masks = Function.update s.masks s.nextMask fun _ => false)) := by
  rw [setProcessPopupEntry]
  split
  · rename_i m hm
    exact ⟨m, s.masks, s.nextMask, by rw [setProc, ← hm], .inl ⟨hm, rfl, rfl⟩⟩
  · rename_i hm
    exact ⟨s.nextMask, _, _, rfl, .inr ⟨hm, rfl, rfl, rfl⟩⟩

/-- `popup` with a mask and a free stack. -/
theorem popup_eq_some {pid : Nat} {z : Bool} (h : s.popup c pid z = some s') :
    s' = s ∨ ∃ m k, c.popupStackMask = some m ∧ s.popupSlot c = some k ∧ s.procs pid = none ∧
      s' = { s.setProc pid (some
            { pgid := c.pgid, life := .live, vmmc := c.vmmc, popupEntry := false,
              popupStackMask := none, popupStackIndex := some k, popupZombify := z,
              stack := some k })
          with masks := Function.update s.masks m (Function.update (s.masks m) k true) } := by
  rw [popup] at h
  split at h
  · rename_i m k hm hk
    simp only [Option.ite_none_left_eq_some, Option.some.injEq] at h
    exact .inr ⟨m, k, hm, hk, by simpa using h.1, h.2.symm⟩
  · exact .inl (Option.some.inj h).symm

/-- `destroy_this_popup_thread` of a popup thread. -/
theorem destroyThisPopupThread_eq_some {k : Nat} (hk : c.popupStackIndex = some k)
    (h : s.destroyThisPopupThread p c = some s') :
    ∃ pg m life, s.Live c.pgid pg ∧ pg.popupStackMask = some m ∧ life ≠ .live ∧
      s' = { s.setProc p (some { c with life })
        with masks := Function.update s.masks m (Function.update (s.masks m) k false) } := by
  rw [destroyThisPopupThread] at h
  split at h
  · rename_i hnone
    rw [hnone] at hk
    cases hk
  · rename_i psi hpsi
    obtain rfl : psi = k := Option.some.inj (hpsi.symm.trans hk)
    split at h
    · cases h
    · rename_i pg hpg
      split at h
      · cases h
      · rename_i m hm
        refine ⟨pg, m, _, findProcess_eq_some.mp hpg, hm, ?_, (Option.some.inj h).symm⟩
        split <;> simp

/-- The popup stack `popup` takes is free. -/
theorem popupSlot_free {m k : Nat} (hm : c.popupStackMask = some m) (hk : s.popupSlot c = some k) :
    s.masks m k = false := by
  simp only [popupSlot, hm, Option.bind_eq_bind, Option.bind_some] at hk
  simpa using List.find?_some hk

end Threads

end Muxomucota.Tasking
