import Muxomucota.Lib.Runs
import Mathlib.Logic.Function.Basic

/-!
# Vfs — pipe tables and the services behind them

`create_pipe`, `destroy_pipe`, `fork` and `duplicate_all_pipes` of the user library, with the
services they send messages to.  A table entry names a service and an object there; what is done
under `_pipe_allocation_lock` is one step.  A `CREATE_PIPE` or `DUPLICATE_PIPE` message is waited
for, a `DESTROY_PIPE` message is not: it is on its way until the service handles it.
-/

namespace Muxomucota.Vfs

/-- `__MFILE`. -/
def mfile : Nat := 32

/-- An entry of `_pipes`, also the object it names; the PID 0 is a free entry. -/
structure Pipe where
  pid : Int
  id : Nat
  deriving DecidableEq

/-- What a service's `service_duplicate_pipe` does: it makes a new object, it gives out the one ID
of all its pipes, or it is missing and answers 0. -/
inductive Duplication where
  | copies | shares (id : Nat) | missing
  deriving DecidableEq

/-- What the parent is doing: nothing, or creating the pipe of an entry. -/
inductive Parent where
  | idle
  /-- the entry is marked as used -/
  | reserved (i : Nat)
  /-- the entry names the service, `CREATE_PIPE` is not sent yet -/
  | located (i : Nat)
  deriving DecidableEq

/-- The child inside `duplicate_all_pipes`. -/
structure Child where
  pipes : Nat → Pipe
  /-- the loop's `i` -/
  pos : Nat
  /-- the `DUPLICATE_PIPE` message for that entry is sent -/
  waiting : Bool
  /-- `assert(_pipes[i].id)` has failed -/
  aborted : Bool

structure State where
  /-- the objects that were created and not destroyed -/
  live : List Pipe
  pipes : Nat → Pipe
  parent : Parent
  /-- the `DESTROY_PIPE` messages on their way -/
  destroys : List Pipe
  child : Option Child

def State.init : State := ⟨[], fun _ => ⟨0, 0⟩, .idle, [], none⟩

inductive Act where
  /-- `create_pipe`, the first free entry is marked with the PID 1 -/
  | reserve (i : Nat)
  /-- `find_daemon_by_name` -/
  | locate (pid : Int)
  /-- `IS_SYMLINK` is answered with another path: the entry is free again -/
  | symlink
  /-- `CREATE_PIPE` is handled and answered -/
  | create (id : Nat)
  | destroyPipe (i : Nat)
  /-- `DESTROY_PIPE` is handled -/
  | serviceDestroy (p : Pipe)
  | fork
  /-- the next round of `duplicate_all_pipes` -/
  | childNext
  /-- `DUPLICATE_PIPE` is handled and answered -/
  | serviceDuplicate (id : Nat)
  deriving DecidableEq

/-- The service keeps an object for the pipe. -/
def keeps (services : Int → Duplication) (p : Pipe) : Bool :=
  match services p.pid with
  | .shares _ => false
  | _ => true

/-- `_pipes[i].pid = 0`. -/
def free (pipes : Nat → Pipe) (i : Nat) : Nat → Pipe :=
  Function.update pipes i { pipes i with pid := 0 }

/-- An answer a service may give to `CREATE_PIPE`: no pipe, the ID of all its pipes, or an object
that is not there yet. -/
def mayCreate (services : Int → Duplication) (s : State) (p : Pipe) : Bool :=
  match services p.pid with
  | .shares id => p.id = 0 ∨ p.id = id
  | _ => p.id = 0 ∨ p ∉ s.live

/-- An answer a service may give to `DUPLICATE_PIPE` for `p`. -/
def mayDuplicate (services : Int → Duplication) (s : State) (p : Pipe) (id : Nat) : Bool :=
  match services p.pid with
  | .copies => id ≠ 0 ∧ (⟨p.pid, id⟩ : Pipe) ∉ s.live
  | .shares _ => id = p.id
  | .missing => id = 0

def step (services : Int → Duplication) (s : State) : Act → Option State
  | .reserve i =>
      if s.parent = .idle ∧ i < mfile ∧ (s.pipes i).pid = 0 ∧ ∀ j < i, (s.pipes j).pid ≠ 0 then
        some { s with
          pipes := Function.update s.pipes i { s.pipes i with pid := 1 }, parent := .reserved i }
      else none
  | .locate pid =>
      match s.parent with
      | .reserved i =>
          if pid < 0 then some { s with pipes := free s.pipes i, parent := .idle }
          else if pid = 0 then none
          else some { s with
            pipes := Function.update s.pipes i { s.pipes i with pid }, parent := .located i }
      | _ => none
  | .symlink =>
      match s.parent with
      | .located i => some { s with pipes := free s.pipes i, parent := .idle }
      | _ => none
  | .create id =>
      match s.parent with
      | .located i =>
          let p : Pipe := { s.pipes i with id }
          if ¬ mayCreate services s p then none
          else if id = 0 then
            some { s with
              pipes := Function.update s.pipes i ⟨0, 0⟩, parent := .idle }
          else some { s with
            live := if keeps services p then p :: s.live else s.live,
            pipes := Function.update s.pipes i p, parent := .idle }
      | _ => none
  | .destroyPipe i =>
      if s.parent = .idle ∧ i < mfile then
        some { s with
          pipes := free s.pipes i,
          destroys := if (s.pipes i).pid ≠ 0 then s.pipes i :: s.destroys else s.destroys }
      else none
  | .serviceDestroy p =>
      if p ∈ s.destroys then
        some { s with
          live := if keeps services p then s.live.erase p else s.live,
          destroys := s.destroys.erase p }
      else none
  | .fork =>
      if s.parent = .idle ∧ s.child.isNone then
        some { s with child := some ⟨s.pipes, 0, false, false⟩ }
      else none
  | .childNext => do
      let c ← s.child
      if c.waiting ∨ c.aborted ∨ mfile ≤ c.pos then none
      else if (c.pipes c.pos).pid = 0 then some { s with child := some { c with pos := c.pos + 1 } }
      else some { s with child := some { c with waiting := true } }
  | .serviceDuplicate id => do
      let c ← s.child
      let p := c.pipes c.pos
      let p' : Pipe := { p with id }
      if ¬ c.waiting ∨ ¬ mayDuplicate services s p id then none
      else if id = 0 then
        some { s with child := some { c with waiting := false, aborted := true } }
      else some { s with
        live := if keeps services p then p' :: s.live else s.live,
        child := some { c with
          pipes := Function.update c.pipes c.pos p', pos := c.pos + 1, waiting := false } }

end Muxomucota.Vfs
