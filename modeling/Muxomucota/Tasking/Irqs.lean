import Mathlib

/-!
# Tasking — processes that handle an IRQ

`kernel/common/intr/isrs.c`, the IRQ part of `kernel/arch/i386/intr/int.c`, `destroy_process`,
`daemonize_process` and `daemonize_from_irq_handler` (`kernel/common/tasking/management.c`), and the
reaper (`kernel/common/tasking/idle.c`), as far as they touch `unsettled_procs`.

A process that has registered for a line sleeps as a daemon.  An interrupt wakes every sleeping
handler of its line, counts them in `unsettled_procs` and masks the line; each activation is settled
once, by the reaper after `SYS_IRQ_HANDLER_EXIT` or by `destroy_process`, and the last one unmasks
the line.  An interrupt gate runs with interrupts off, and so does not stop half-way; the reaper is
a kernel thread that an interrupt may find between `irq_settled` and the decrement of
`settle_count`, and takes its steps one by one.  A failed assertion stops the machine: there is no
step.
-/

namespace Muxomucota.Tasking

/-- `IRQ_COUNT`. -/
abbrev irqCount : Nat := 16

abbrev Irq := Fin irqCount

/-- What `status` says of a process; `PROCESS_COMA` before `run_process`. -/
inductive Status where
  | active
  | coma
  | zombie
  | daemon
  deriving DecidableEq, Repr

/-- The part of `process_t` that has to do with IRQs; `handled_irq` is `-1` for no line. -/
structure IrqProcess where
  status : Status
  handledIrq : Option Irq
  handlingIrq : Bool
  settleCount : Nat
  deriving DecidableEq, Repr

/-- Where the reaper is: at no process, before `irq_settled(p->handled_irq)`, or before the
decrement of `p->settle_count`. -/
inductive Reaper where
  | walking
  | settling (p : Nat)
  | counting (p : Nat)
  deriving DecidableEq, Repr

/-- `handlers`, without the kernel's own, which never count; `masked` is the state of
`enable_irq`. -/
structure Irqs where
  procs : Nat → IrqProcess
  handlers : Irq → List Nat
  unsettled : Irq → Nat
  masked : Irq → Bool
  reaper : Reaper

/-- A process as `kcalloc` and `create_empty_process` leave it. -/
def IrqProcess.fresh : IrqProcess :=
  { status := .coma, handledIrq := none, handlingIrq := false, settleCount := 0 }

namespace Irqs

def init : Irqs :=
  { procs := fun _ => .fresh, handlers := fun _ => [], unsettled := fun _ => 0,
    masked := fun _ => false, reaper := .walking }

def setProc (s : Irqs) (p : Nat) (c : IrqProcess) : Irqs :=
  { s with procs := Function.update s.procs p c }

/-! ### The interrupt path -/

/-- `irq_settled` -/
def irqSettled (s : Irqs) (irq : Irq) : Option Irqs :=
  if s.unsettled irq = 0 then none
  else
    let left := s.unsettled irq - 1
    some { s with
      unsettled := Function.update s.unsettled irq left
      masked := if left = 0 then Function.update s.masked irq false else s.masked }

/-- `register_user_isr` -/
def registerUserIsr (s : Irqs) (irq : Irq) (p : Nat) : Option Irqs :=
  let c := s.procs p
  if c.handledIrq.isSome then none
  else
    let s := { s with handlers := Function.update s.handlers irq (p :: s.handlers irq) }
    some (s.setProc p { c with handledIrq := some irq })

/-- The loop of `unregister_isr_process` over one list: after it has unlinked an element it goes on
behind the one that took its place. -/
def unlinkIsr (p : Nat) : List Nat → List Nat
  | [] => []
  | q :: rest =>
      if q = p then
        match rest with
        | [] => []
        | r :: rest => r :: unlinkIsr p rest
      else q :: unlinkIsr p rest

/-- `unregister_isr_process` -/
def unregisterIsrProcess (s : Irqs) (p : Nat) : Irqs :=
  let s' := { s with handlers := fun irq => unlinkIsr p (s.handlers irq) }
  s'.setProc p { s.procs p with handledIrq := none }

/-- The loop of `common_irq_handler`: wake the handlers that sleep, and count them. -/
def commonIrqHandler (s : Irqs) : List Nat → Irqs × Nat
  | [] => (s, 0)
  | p :: isrs =>
      if (s.procs p).status = .daemon then
        let woken := s.setProc p { s.procs p with status := .active, handlingIrq := true }
        let (s', n) := woken.commonIrqHandler isrs
        (s', n + 1)
      else s.commonIrqHandler isrs

/-- The IRQ branch of `i386_common_isr`. -/
def commonIsr (s : Irqs) (irq : Irq) : Option Irqs :=
  if s.unsettled irq ≠ 0 then none
  else
    let (s', n) := s.commonIrqHandler (s.handlers irq)
    some { s' with
      unsettled := Function.update s'.unsettled irq n
      masked := if n ≠ 0 then Function.update s'.masked irq true else s'.masked }

/-! ### What a process does -/

/-- `destroy_process`, up to the lists the process is in. -/
def destroyProcess (s : Irqs) (p : Nat) : Option Irqs :=
  let zombify (s : Irqs) : Irqs := s.setProc p { s.procs p with status := .zombie }
  match (s.procs p).handledIrq with
  | none => some (zombify s)
  | some irq =>
      if (s.procs p).status = .active ∧ (s.procs p).handlingIrq = true then
        (s.irqSettled irq).map fun s => zombify (s.unregisterIsrProcess p)
      else some (zombify (s.unregisterIsrProcess p))

/-- `daemonize_process`, up to the lists the process is in. -/
def daemonizeProcess (s : Irqs) (p : Nat) : Irqs :=
  s.setProc p { s.procs p with status := .daemon }

/-- `daemonize_from_irq_handler` -/
def daemonizeFromIrqHandler (s : Irqs) (p : Nat) : Option Irqs :=
  let c := s.procs p
  if c.handlingIrq = true ∧ c.handledIrq.isSome = true then
    some (s.setProc p
      { c with handlingIrq := false, settleCount := c.settleCount + 1, status := .daemon })
  else none

/-! ### The reaper -/

/-- The test of the reaper's loop over the daemons. -/
def reaperCheck (s : Irqs) (p : Nat) : Irqs :=
  let c := s.procs p
  if c.handledIrq.isSome = true ∧ 0 < c.settleCount ∧ c.status = .daemon then
    { s with reaper := .settling p }
  else s

/-- `irq_settled(p->handled_irq)` -/
def reaperSettle (s : Irqs) (p : Nat) : Option Irqs :=
  match (s.procs p).handledIrq with
  | none => none
  | some irq => (s.irqSettled irq).map fun s => { s with reaper := .counting p }

/-- `while (__sync_sub_and_fetch(&p->settle_count, 1))` -/
def reaperCount (s : Irqs) (p : Nat) : Irqs :=
  let c := s.procs p
  let left := c.settleCount - 1
  { s.setProc p { c with settleCount := left } with
    reaper := if left = 0 then .walking else .settling p }

end Irqs

/-! ### Runs -/

/-- What can happen next.  Which processes the reaper meets in the daemons list is left open. -/
inductive IrqAct where
  | runProcess (p : Nat)
  | handleIrq (p : Nat) (irq : Irq)
  | daemonize (p : Nat)
  | interrupt (irq : Irq)
  | irqHandlerExit (p : Nat)
  | exit (p : Nat)
  | reaperCheck (p : Nat)
  | reaperGo
  deriving Repr

/-- One step: a process that makes a system call is active, and a masked line does not
interrupt. -/
def irqStep (s : Irqs) : IrqAct → Option Irqs
  | .runProcess p =>
      if (s.procs p).status = .coma then some (s.setProc p { s.procs p with status := .active })
      else none
  | .handleIrq p irq => if (s.procs p).status = .active then s.registerUserIsr irq p else none
  | .daemonize p => if (s.procs p).status = .active then some (s.daemonizeProcess p) else none
  | .interrupt irq => if s.masked irq then none else s.commonIsr irq
  | .irqHandlerExit p =>
      if (s.procs p).status = .active then s.daemonizeFromIrqHandler p else none
  | .exit p => if (s.procs p).status = .active then s.destroyProcess p else none
  | .reaperCheck p => if s.reaper = .walking then some (s.reaperCheck p) else none
  | .reaperGo =>
      match s.reaper with
      | .walking => none
      | .settling p => s.reaperSettle p
      | .counting p => some (s.reaperCount p)

/-! ### Activations -/

namespace Irqs

/-- The process runs its handler: `common_irq_handler` woke it, and it has not left it. -/
def Handling (s : Irqs) (p : Nat) : Prop :=
  (s.procs p).status = .active ∧ (s.procs p).handlingIrq = true

instance (s : Irqs) (p : Nat) : Decidable (s.Handling p) := inferInstanceAs (Decidable (_ ∧ _))

/-- The unit of `settle_count` that the reaper has settled and not yet counted. -/
def counted (s : Irqs) (p : Nat) : Nat := if s.reaper = .counting p then 1 else 0

/-- How often the process has left its handler without that the reaper has settled it. -/
def unconsumed (s : Irqs) (p : Nat) : Nat := (s.procs p).settleCount - s.counted p

/-- The handler activations of a line that are still running. -/
def runningOn (s : Irqs) (irq : Irq) : Nat := (s.handlers irq).countP fun p => s.Handling p

/-- Those that have ended, and that the reaper has not consumed. -/
def unconsumedOn (s : Irqs) (irq : Irq) : Nat := ((s.handlers irq).map s.unconsumed).sum

end Irqs

end Muxomucota.Tasking
