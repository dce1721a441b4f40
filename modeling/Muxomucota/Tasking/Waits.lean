import Muxomucota.Lib.Linked

/-!
# Tasking — waiting for a process

`raw_waitpid`, `wait_for_any_child`, `destroy_process`, `destroy_this_popup_thread`, `adopt_orphans`,
`sweep_dead_processes` and `daemonize_process` (`kernel/common/tasking/management.c`).

A process structure is an address, and no address is used twice, so that `destroyed` counts how often
`destroy_process_struct` was called for it; what is read after that is what it held before.  A
waiter takes one step for each access to the structure it waits for, and keeps its address in
between; a search of a list is one step, and so is the move of an exiting process, which is made
under `schedule_lock`.

The daemons, the zombies and the dead are linked by one field, `next`; the run queue has a field of its
own and is a list here.  A process that handles an IRQ stays in the run queue when it becomes a daemon,
and its handler may make system calls while it is among the daemons.
-/

namespace Muxomucota.Tasking
open Lib

inductive TaskStatus where
  | active
  | daemon
  | zombie
  | destruct
  deriving DecidableEq, Repr

/-- `process_t`; `handledIrq` is whether `handled_irq` is a line. -/
structure Task where
  pid : Nat
  ppid : Nat
  status : TaskStatus
  handledIrq : Bool
  handlingIrq : Bool
  popup : Bool
  popupZombify : Bool
  exitInfo : Nat
  destroyed : Nat
  deriving DecidableEq, Repr

/-- Where a process is in its system call.  An explicit `SYS_WAIT` looks for a PID it was given, the
others for one they know; `child` is the structure that is waited for. -/
inductive WaitPc where
  | idle
  /-- Before `find_child_in(&zombies, current_process->pid)`. -/
  | scanning (nohang : Bool)
  /-- Before `raw_waitpid(p->pid, …)` in `wait_for_any_child`. -/
  | found (child : Nat) (nohang : Bool)
  /-- Before `find_process(pid)`. -/
  | lookup (pid : Nat) (given nohang : Bool)
  /-- Before `(proc->status != PROCESS_ZOMBIE) && (options & WNOHANG)`. -/
  | checking (child : Nat) (nohang : Bool)
  /-- Before `proc->status != PROCESS_ZOMBIE` of the loop. -/
  | watching (child : Nat)
  /-- Before `q_unregister_process(&zombies, proc)`. -/
  | unlinking (child : Nat)
  /-- Before `*status = proc->exit_info`. -/
  | reading (child : Nat)
  /-- Before `destroy_process_struct(proc)`. -/
  | destroying (child : Nat)
  /-- In `SYS_EXIT` or `SYS_POPUP_EXIT`, behind `adopt_orphans`. -/
  | leaving (exitInfo : Nat)
  deriving DecidableEq, Repr

structure Tasks where
  objs : Nat → Task
  /-- The next address `kcalloc` hands out. -/
  fresh : Nat
  runqueue : List Nat
  next : Nat → Option Nat
  daemons : Option Nat
  zombies : Option Nat
  dead : Option Nat
  pc : Nat → WaitPc

namespace Tasks

def newTask (pid ppid : Nat) (popup zombify : Bool) : Task :=
  { pid, ppid, status := .active, handledIrq := false, handlingIrq := false, popup,
    popupZombify := zombify, exitInfo := 0, destroyed := 0 }

def init : Tasks :=
  { objs := fun _ => newTask 0 0 false false, fresh := 0, runqueue := [], next := fun _ => none,
    daemons := none, zombies := none, dead := none, pc := fun _ => .idle }

def goto (s : Tasks) (w : Nat) (l : WaitPc) : Tasks :=
  { s with pc := Function.update s.pc w l }

def setObj (s : Tasks) (o : Nat) (c : Task) : Tasks :=
  { s with objs := Function.update s.objs o c }

/-- The PID is taken: `relinquish_pid` has not been called for it. -/
def pidUsed (s : Tasks) (pid : Nat) : Bool :=
  (List.range s.fresh).any fun o => (s.objs o).destroyed = 0 && (s.objs o).pid = pid

/-- A new process: `create_empty_process`, `create_user_thread` or `popup`. -/
def spawn (s : Tasks) (pid ppid : Nat) (popup zombify : Bool) : Option Tasks :=
  if s.pidUsed pid then none
  else
    some { s.setObj s.fresh (newTask pid ppid popup zombify) with
      fresh := s.fresh + 1, runqueue := s.fresh :: s.runqueue
      next := Function.update s.next s.fresh none, pc := Function.update s.pc s.fresh .idle }

/-- `find_process_in(&daemons, pid)` and `find_process_in(&zombies, pid)`; no loop over an intact list
takes more steps. -/
def findProcessIn (s : Tasks) (head : Option Nat) (pid : Nat) : Option (Option Nat) :=
  findIn s.next (fun o => (s.objs o).pid = pid) (s.fresh + 1) head

/-- `find_process` -/
def findProcess (s : Tasks) (pid : Nat) : Option (Option Nat) :=
  match s.runqueue.find? fun o => (s.objs o).pid = pid with
  | some o => some (some o)
  | none => s.findProcessIn s.daemons pid

/-- `find_process(pid)`, and else `find_process_in(&zombies, pid)`. -/
def findWaited (s : Tasks) (pid : Nat) : Option (Option Nat) :=
  (s.findProcess pid).bind fun
    | some o => some (some o)
    | none => s.findProcessIn s.zombies pid

/-- `find_child_in(&zombies, pid)` -/
def findChild (s : Tasks) (pid : Nat) : Option (Option Nat) :=
  findIn s.next (fun o => (s.objs o).ppid = pid) (s.fresh + 1) s.zombies

/-- `destroy_process_struct` -/
def destroyProcessStruct (s : Tasks) (o : Nat) : Tasks :=
  s.setObj o { s.objs o with destroyed := (s.objs o).destroyed + 1 }

/-- `adopt_orphans`: the children in the run queue, among the daemons or among the zombies go to the
parent's parent. -/
def adoptOrphans (s : Tasks) (parent : Nat) : Option Tasks := do
  let ds ← walk s.next (s.fresh + 1) s.daemons
  let zs ← walk s.next (s.fresh + 1) s.zombies
  let adopted (o : Nat) : Task :=
    if (o ∈ s.runqueue ∨ o ∈ ds ∨ o ∈ zs) ∧ (s.objs o).ppid = (s.objs parent).pid then
      { s.objs o with ppid := (s.objs parent).ppid }
    else s.objs o
  some { s with objs := adopted }

/-- The end of `destroy_process`, or of `destroy_this_popup_thread` for a popup thread that nobody
waits for. -/
def leave (s : Tasks) (o exitInfo : Nat) : Tasks :=
  let c := s.objs o
  if c.popup = true ∧ c.popupZombify = false then
    { s.setObj o { c with status := .destruct } with
      runqueue := s.runqueue.erase o, next := Function.update s.next o s.dead, dead := some o
      pc := Function.update s.pc o .idle }
  else
    { s.setObj o { c with exitInfo, status := .zombie, handledIrq := false } with
      runqueue := s.runqueue.erase o, next := Function.update s.next o s.zombies, zombies := some o
      pc := Function.update s.pc o .idle }

/-- `daemonize_process` -/
def daemonizeProcess (s : Tasks) (o : Nat) : Tasks :=
  { s.setObj o { s.objs o with status := .daemon } with
    runqueue := if (s.objs o).handledIrq then s.runqueue else s.runqueue.erase o
    next := Function.update s.next o s.daemons, daemons := some o }

/-- One step of a process in its system call. -/
def advance (s : Tasks) (w : Nat) : Option Tasks :=
  match s.pc w with
  | .idle => none
  | .scanning nohang =>
      (s.findChild (s.objs w).pid).map fun
        | some o => s.goto w (.found o nohang)
        | none => if nohang then s.goto w .idle else s
  | .found o nohang => some (s.goto w (.lookup (s.objs o).pid false nohang))
  | .lookup pid _ nohang =>
      (s.findWaited pid).map fun
        | some o => s.goto w (.checking o nohang)
        | none => s.goto w .idle
  | .checking o nohang =>
      if (s.objs o).status ≠ .zombie ∧ nohang = true then some (s.goto w .idle)
      else some (s.goto w (.watching o))
  | .watching o =>
      if (s.objs o).status ≠ .zombie then some s else some (s.goto w (.unlinking o))
  | .unlinking o =>
      (unlink s.next s.zombies o s.fresh).map fun r =>
        { s.goto w (.reading o) with next := r.1, zombies := r.2 }
  | .reading o => some (s.goto w (.destroying o))
  | .destroying o => some ((s.destroyProcessStruct o).goto w .idle)
  | .leaving exitInfo => some (s.leave w exitInfo)

/-- The process runs, and is in no system call. -/
def Running (s : Tasks) (w : Nat) : Prop :=
  w ∈ s.runqueue ∧ (s.objs w).status = .active ∧ s.pc w = .idle

instance (s : Tasks) (w : Nat) : Decidable (s.Running w) :=
  inferInstanceAs (Decidable (_ ∧ _ ∧ _))

end Tasks

/-- What can happen next. -/
inductive TaskAct where
  | spawn (pid ppid : Nat) (popup zombify : Bool)
  /-- `SYS_WAIT` with a PID. -/
  | wait (w pid : Nat) (nohang : Bool)
  /-- `SYS_WAIT` with -1. -/
  | waitAny (w : Nat) (nohang : Bool)
  /-- `SYS_IPC_POPUP` with a result to wait for. -/
  | ipcPopup (w pid : Nat)
  /-- `SYS_EXIT`, `SYS_POPUP_EXIT`. -/
  | exit (o exitInfo : Nat)
  | advance (w : Nat)
  /-- One round of `sweep_dead_processes`. -/
  | sweep
  | handleIrq (o : Nat)
  | daemonize (o : Nat)
  /-- What `common_irq_handler` does for a process when its line interrupts. -/
  | irq (o : Nat)
  | irqHandlerExit (o : Nat)
  deriving Repr

/-- One step; a system call is made by a process that runs, and an assertion that fails stops the
machine. -/
def taskStep (s : Tasks) : TaskAct → Option Tasks
  | .spawn pid ppid popup zombify => s.spawn pid ppid popup zombify
  | .wait w pid nohang => if s.Running w then some (s.goto w (.lookup pid true nohang)) else none
  | .waitAny w nohang => if s.Running w then some (s.goto w (.scanning nohang)) else none
  | .ipcPopup w pid =>
      if s.Running w then
        (s.spawn pid (s.objs w).pid true true).map fun s => s.goto w (.lookup pid false false)
      else none
  | .exit o exitInfo =>
      if s.Running o then (s.adoptOrphans o).map fun s => s.goto o (.leaving exitInfo) else none
  | .advance w => s.advance w
  | .sweep => s.dead.map fun o => { s.destroyProcessStruct o with dead := s.next o }
  | .handleIrq o =>
      if s.Running o ∧ (s.objs o).popup = false ∧ (s.objs o).handledIrq = false then
        some (s.setObj o { s.objs o with handledIrq := true })
      else none
  | .daemonize o =>
      if s.Running o ∧ (s.objs o).popup = false then some (s.daemonizeProcess o) else none
  | .irq o =>
      if (s.objs o).status = .daemon ∧ (s.objs o).handledIrq = true then
        some (s.setObj o { s.objs o with status := .active, handlingIrq := true })
      else none
  | .irqHandlerExit o =>
      if s.Running o ∧ (s.objs o).handlingIrq = true ∧ (s.objs o).handledIrq = true then
        some (s.setObj o { s.objs o with status := .daemon, handlingIrq := false })
      else none

/-- The structure a waiter has the address of. -/
def WaitPc.child : WaitPc → Option Nat
  | .found o _ | .checking o _ | .watching o | .unlinking o | .reading o | .destroying o => some o
  | _ => none

end Muxomucota.Tasking
