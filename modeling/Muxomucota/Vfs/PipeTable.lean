import Muxomucota.Lib.Runs
import Muxomucota.Lib.Slots
import Muxomucota.Sync.Rwl
import Muxomucota.Vfs.Pipes

/-!
# Vfs — threads at the pipe table

`create_pipe`, `duplicate_pipe` and `destroy_pipe` of the user library, called by the threads of
one process, one access to `_pipes` or `_pipe_allocation_lock` at a time.  A thread is named by its
number and its process ID is `getpid` of it.  What comes from outside (whether `extract_path`
accepts the path, the daemon's process ID, the answers of the services) comes with the action.

`returned` is no variable of the program: the entries that calls have returned and `destroy_pipe`
has not freed since.
-/

namespace Muxomucota.Vfs.PipeTable

open Muxomucota.Lib Muxomucota.Sync

/-- The calls that reserve an entry: `create_pipe` with or without `O_NOFOLLOW`, `duplicate_pipe` of
a pipe. -/
inductive Request where
  | create (nofollow : Bool)
  | duplicate (pipe : Int)
  deriving DecidableEq

/-- Where a thread stands; `i` is the loop's entry. -/
inductive Pc where
  | idle
  /-- `duplicate_pipe`: the test of its arguments -/
  | check (pipe dest : Int)
  /-- the loop: `i < __MFILE`, then `!_pipes[i].pid` -/
  | search (r : Request) (i : Int)
  /-- `lock(&_pipe_allocation_lock)` -/
  | guard (r : Request) (i : Int)
  /-- `if (_pipes[i].pid) continue` -/
  | retest (r : Request) (i : Int)
  /-- the load of `_pipes[pipe].pid` in `duplicate_pipe` -/
  | copy (pipe i : Int)
  /-- `_pipes[i].pid = v` -/
  | mark (r : Request) (i v : Int)
  /-- `unlock(&_pipe_allocation_lock)` -/
  | unguard (r : Request) (i : Int)
  /-- `extract_path` -/
  | extract (nofollow : Bool) (i : Int)
  /-- `_pipes[i].pid = find_daemon_by_name(procname)` -/
  | locate (nofollow : Bool) (i : Int)
  /-- `_pipes[i].pid < 0` -/
  | located (nofollow : Bool) (i : Int)
  /-- `IS_SYMLINK` -/
  | link (i : Int)
  /-- the load of `_pipes[i].pid` for `CREATE_PIPE` -/
  | create (i : Int)
  /-- the load of `_pipes[pipe].id` for `DUPLICATE_PIPE` -/
  | original (pipe i : Int)
  /-- the load of `_pipes[i].pid` for `DUPLICATE_PIPE` -/
  | duplicate (id : Nat) (i : Int)
  /-- the message is sent, the answer goes to `_pipes[i].id` -/
  | await (pid i : Int)
  /-- `!_pipes[i].id` -/
  | answered (i : Int)
  /-- the entry is given back: `lock`; then the call fails or `create_pipe` is called again -/
  | backGuard (i : Int) (again : Option Request)
  /-- `_pipes[i].pid = 0` -/
  | backClear (i : Int) (again : Option Request)
  /-- `unlock` -/
  | backUnguard (again : Option Request)
  /-- `destroy_pipe`: `lock` -/
  | destroyGuard (pipe : Int)
  /-- the load of `_pipes[pipe].pid` -/
  | destroyPid (pipe : Int)
  /-- the load of `_pipes[pipe].id` -/
  | destroyId (pipe pid : Int)
  /-- `_pipes[pipe].pid = 0` -/
  | destroyClear (pipe : Int) (old : Pipe)
  /-- `unlock` -/
  | destroyUnguard (old : Pipe)
  /-- `if (pid)`, the `DESTROY_PIPE` message -/
  | destroySend (old : Pipe)
  /-- `assert(owner != mypid)` has failed -/
  | aborted
  deriving DecidableEq

structure State where
  pipes : Int → Pipe
  /-- `_pipe_allocation_lock`: its owner's process ID -/
  lock : Int
  pc : Nat → Pc
  returned : List Int

/-- The calls, the next access, and what comes from outside. -/
inductive Act where
  | createPipe (nofollow : Bool)
  | duplicatePipe (pipe dest : Int)
  | destroyPipe (pipe : Int)
  | go
  /-- `extract_path` returns -/
  | path (ok : Bool)
  /-- `find_daemon_by_name` returns: a process ID or -1 -/
  | daemon (pid : Int)
  /-- the answer to `IS_SYMLINK` -/
  | symlink (ok : Bool)
  /-- the answer to `CREATE_PIPE` or `DUPLICATE_PIPE` -/
  | object (id : Nat)
  deriving DecidableEq

namespace State

/-- The thread goes on elsewhere. -/
def goto (s : State) (t : Nat) (pc : Pc) : State := { s with pc := Function.update s.pc t pc }

def setPid (s : State) (i v : Int) : State :=
  { s with pipes := Function.update s.pipes i { s.pipes i with pid := v } }

def setId (s : State) (i : Int) (id : Nat) : State :=
  { s with pipes := Function.update s.pipes i { s.pipes i with id := id } }

/-- The compare-and-swap of `lock`: the thread gets in, goes on trying, or its assertion fails. -/
def acquire (s : State) (t : Nat) (done : Pc) : State :=
  if s.lock = 0 then { s with lock := getpid t }.goto t done
  else if s.lock = getpid t then s.goto t .aborted
  else s

def unlock (s : State) : State := { s with lock := 0 }

/-- The call returns an entry. -/
def hand (s : State) (i : Int) : State := { s with returned := i :: s.returned }

/-- The entry belongs to nobody any more. -/
def takeBack (s : State) (i : Int) : State := { s with returned := s.returned.erase i }

end State

/-- What follows the reservation of an entry. -/
def reserved : Request → Int → Pc
  | .create nofollow, i => .extract nofollow i
  | .duplicate pipe, i => .original pipe i

/-- What follows when an entry was given back. -/
def givenBack : Option Request → Pc
  | none => .idle
  | some r => .search r 0

/-- The next access of thread `t`. -/
def step (s : State) (e : Nat × Act) : Option State :=
  let t := e.1
  match s.pc t, e.2 with
  | .idle, .createPipe nofollow => some (s.goto t (.search (.create nofollow) 0))
  | .idle, .duplicatePipe pipe dest => some (s.goto t (.check pipe dest))
  | .idle, .destroyPipe pipe =>
      some (if pipe < 0 ∨ (mfile : Int) ≤ pipe then s else s.goto t (.destroyGuard pipe))
  | .check pipe dest, .go =>
      some (s.goto t (if pipe < 0 ∨ (mfile : Int) ≤ pipe ∨ (s.pipes pipe).pid = 0 then .idle
        else .search (.duplicate pipe) dest))
  | .search r i, .go =>
      some (s.goto t (if (mfile : Int) ≤ i then .idle
        else if (s.pipes i).pid = 0 then .guard r i else .search r (i + 1)))
  | .guard r i, .go => some (s.acquire t (.retest r i))
  | .retest r i, .go =>
      -- the `continue` of both functions leaves the lock as it is
      some (s.goto t (if (s.pipes i).pid ≠ 0 then .search r (i + 1) else
        match r with
        | .create nofollow => .mark (.create nofollow) i 1
        | .duplicate pipe => .copy pipe i))
  | .copy pipe i, .go => some (s.goto t (.mark (.duplicate pipe) i (s.pipes pipe).pid))
  | .mark r i v, .go => some ((s.setPid i v).goto t (.unguard r i))
  | .unguard r i, .go => some (s.unlock.goto t (reserved r i))
  | .extract nofollow i, .path ok =>
      some (s.goto t (if ok then .locate nofollow i else .backGuard i none))
  | .locate nofollow i, .daemon pid =>
      if pid = -1 ∨ 0 < pid then some ((s.setPid i pid).goto t (.located nofollow i)) else none
  | .located nofollow i, .go =>
      some (s.goto t (if (s.pipes i).pid < 0 then .backGuard i none
        else if nofollow then .create i else .link i))
  | .link i, .symlink ok =>
      some (s.goto t (if ok then .backGuard i (some (.create false)) else .create i))
  | .create i, .go => some (s.goto t (.await (s.pipes i).pid i))
  | .original pipe i, .go => some (s.goto t (.duplicate (s.pipes pipe).id i))
  | .duplicate _ i, .go => some (s.goto t (.await (s.pipes i).pid i))
  | .await _ i, .object id => some ((s.setId i id).goto t (.answered i))
  | .answered i, .go =>
      some (if (s.pipes i).id = 0 then s.goto t (.backGuard i none) else (s.hand i).goto t .idle)
  | .backGuard i again, .go => some (s.acquire t (.backClear i again))
  | .backClear i again, .go => some ((s.setPid i 0).goto t (.backUnguard again))
  | .backUnguard again, .go => some (s.unlock.goto t (givenBack again))
  | .destroyGuard pipe, .go => some (s.acquire t (.destroyPid pipe))
  | .destroyPid pipe, .go => some (s.goto t (.destroyId pipe (s.pipes pipe).pid))
  | .destroyId pipe pid, .go => some (s.goto t (.destroyClear pipe ⟨pid, (s.pipes pipe).id⟩))
  | .destroyClear pipe old, .go =>
      some (((s.setPid pipe 0).takeBack pipe).goto t (.destroyUnguard old))
  | .destroyUnguard old, .go => some (s.unlock.goto t (.destroySend old))
  | .destroySend _, .go => some (s.goto t .idle)
  | _, _ => none

/-! ### What is promised -/

/-- The thread is between `lock` and `unlock`. -/
def Pc.inSection : Pc → Bool
  | .retest .. | .copy .. | .mark .. | .unguard .. | .backClear .. | .backUnguard _
  | .destroyPid _ | .destroyId .. | .destroyClear .. | .destroyUnguard _ => true
  | _ => false

/-- The entry a call has reserved and not given back. -/
def Pc.held : Pc → Option Int
  | .unguard _ i | .extract _ i | .locate _ i | .located _ i | .link i | .create i | .original _ i
  | .duplicate _ i | .await _ i | .answered i | .backGuard i _ | .backClear i _ => some i
  | _ => none

/-- The slots of the library that a state stands for. -/
def view (s : State) : Slots Nat Int where
  owner := if s.lock = 0 then none else some (s.lock.toNat - 1)
  inside t := (s.pc t).inSection
  used i := decide ((s.pipes i).pid ≠ 0)
  held t := (s.pc t).held
  kept := s.returned

/-- The lock is free while no thread is between its `lock` and `unlock`. -/
def LockFree (s : State) : Prop := (∀ t, (s.pc t).inSection = false) → s.lock = 0

/-- The threads are outside, and the entries that are in use were each handed out once. -/
structure Start (s : State) : Prop where
  lock : s.lock = 0
  idle : ∀ t, s.pc t = .idle
  once : s.returned.Nodup
  used : ∀ i ∈ s.returned, (s.pipes i).pid ≠ 0

/-- The second test finds the entry still free; the pipe that is duplicated was not destroyed in the
meantime; and `destroy_pipe` frees an entry only when no call is at work on it. -/
def Careful (s : State) (e : Nat × Act) : Prop :=
  match s.pc e.1 with
  | .retest _ i => (s.pipes i).pid = 0
  | .copy pipe _ => (s.pipes pipe).pid ≠ 0
  | .destroyClear pipe _ => ∀ u, (s.pc u).held ≠ some pipe
  | _ => True

/-! ### One step -/

/-- An entry that is found free, until it is marked. -/
def Pc.found : Pc → Option Int
  | .copy _ i | .mark _ i _ => some i
  | _ => none

theorem Pc.inSection_of_found {p : Pc} {i : Int} (h : p.found = some i) : p.inSection = true := by
  cases p <;> first | rfl | cases h

/-- What was found free stays so until it is marked, and the mark is not zero. -/
structure Marking (s : State) : Prop where
  free : ∀ t i, (s.pc t).found = some i → (s.pipes i).pid = 0
  value : ∀ t r i v, s.pc t = .mark r i v → v ≠ 0

variable {s s' : State} {t : Nat} {a : Act}

theorem view_goto (s : State) (t : Nat) (p : Pc) :
    view (s.goto t p) = { view s with
      inside := Function.update (view s).inside t p.inSection
      held := Function.update (view s).held t p.held } := by
  have hin : (fun u => ((s.goto t p).pc u).inSection) =
      Function.update (view s).inside t p.inSection := by
    funext u
    rcases eq_or_ne u t with rfl | hne <;> simp [State.goto, view, *]
  have hheld : (fun u => ((s.goto t p).pc u).held) = Function.update (view s).held t p.held := by
    funext u
    rcases eq_or_ne u t with rfl | hne <;> simp [State.goto, view, *]
  rw [view, hin, hheld]
  rfl

theorem view_setPid (s : State) (i v : Int) :
    view (s.setPid i v) = { view s with
      used := Function.update (view s).used i (decide (v ≠ 0)) } := by
  have hused : (fun j => decide (((s.setPid i v).pipes j).pid ≠ 0)) =
      Function.update (view s).used i (decide (v ≠ 0)) := by
    funext j
    rcases eq_or_ne j i with rfl | hne <;> simp [State.setPid, view, *]
  rw [view, hused]
  rfl

theorem view_setId (s : State) (i : Int) (id : Nat) : view (s.setId i id) = view s := by
  have hused : (fun j => decide (((s.setId i id).pipes j).pid ≠ 0)) = (view s).used := by
    funext j
    rcases eq_or_ne j i with rfl | hne <;> simp [State.setId, view, *]
  rw [view, hused]
  rfl

/-- Going on inside or outside the section. -/
theorem view_goto_of {p : Pc} (hin : p.inSection = (s.pc t).inSection) :
    view (s.goto t p) = { view s with held := Function.update (view s).held t p.held } := by
  have hself : Function.update (view s).inside t (s.pc t).inSection = (view s).inside :=
    Function.update_eq_self ..
  rw [view_goto, hin, hself]

/-- Going on where neither the lock nor an entry is concerned. -/
theorem move_goto {p : Pc} (hin : p.inSection = (s.pc t).inSection)
    (hheld : p.held = (s.pc t).held) : Slots.Move t (view s) (view (s.goto t p)) := by
  have hself : Function.update (view s).held t (s.pc t).held = (view s).held :=
    Function.update_eq_self ..
  rw [view_goto_of hin, hheld, hself]
  exact .skip

/-- `lock` lets a thread in, or nothing happens; the assertion does not fail. -/
theorem move_acquire {done : Pc} (hi : (view s).Inv) (hout : (s.pc t).inSection = false)
    (hin : done.inSection = true) (hheld : done.held = (s.pc t).held) :
    Slots.Move t (view s) (view (s.acquire t done)) := by
  unfold State.acquire
  split
  · rename_i h0
    rw [view_goto, hin, hheld]
    have howner : (view s).owner = none := if_pos h0
    have hself : Function.update (view s).held t (s.pc t).held = (view s).held :=
      Function.update_eq_self ..
    have hview : view { s with lock := getpid t } = { view s with owner := some t } := by
      have hpid := getpid_pos t
      simp only [view, Slots.mk.injEq, and_true]
      rw [if_neg (by omega)]
      simp [getpid]
    rw [hview, hself]
    exact .enter howner
  · rename_i h0
    split
    · -- the owner would be inside
      rename_i hme
      have howner : (view s).owner = some t := by
        have hne : getpid t ≠ 0 := by
          have hpid := getpid_pos t
          omega
        simp only [view, hme, if_neg hne]
        simp [getpid]
      exact absurd ((hi.owner_iff t).mp howner) (by simp [view, hout])
    · exact .skip

theorem move_unlock {p : Pc} (hin : (s.pc t).inSection = true) (hout : p.inSection = false)
    (hheld : p.held = (s.pc t).held) : Slots.Move t (view s) (view (s.unlock.goto t p)) := by
  have hself : Function.update (view s).held t (s.pc t).held = (view s).held :=
    Function.update_eq_self ..
  have hview : view s.unlock = { view s with owner := none } := rfl
  rw [view_goto, hview, hout, hheld, hself]
  exact .leave hin

theorem move_mark {i v : Int} {p : Pc} (hi : (s.pipes i).pid = 0) (hv : v ≠ 0)
    (hin : p.inSection = (s.pc t).inSection) (hheld : p.held = some i) :
    Slots.Move t (view s) (view ((s.setPid i v).goto t p)) := by
  rw [view_goto_of (s := s.setPid i v) hin, view_setPid, hheld, decide_eq_true hv]
  exact .reserve i (by simpa [view] using hi)

theorem move_clear {i : Int} {p : Pc} (hi : (s.pc t).held = some i)
    (hin : p.inSection = (s.pc t).inSection) (hheld : p.held = none) :
    Slots.Move t (view s) (view ((s.setPid i 0).goto t p)) := by
  rw [view_goto_of (s := s.setPid i 0) hin, view_setPid, hheld]
  exact .release i hi

theorem move_hand {i : Int} {p : Pc} (hi : (s.pc t).held = some i)
    (hin : p.inSection = (s.pc t).inSection) (hheld : p.held = none) :
    Slots.Move t (view s) (view ((s.hand i).goto t p)) := by
  rw [view_goto_of (s := s.hand i) hin, hheld]
  exact .keep i hi

theorem move_takeBack {i : Int} {p : Pc} (hi : ∀ u, (s.pc u).held ≠ some i)
    (hin : p.inSection = (s.pc t).inSection) (hheld : p.held = (s.pc t).held) :
    Slots.Move t (view s) (view (((s.setPid i 0).takeBack i).goto t p)) := by
  have hself : Function.update (view s).held t (s.pc t).held = (view s).held :=
    Function.update_eq_self ..
  have hview : view ((s.setPid i 0).takeBack i) =
      { view (s.setPid i 0) with kept := s.returned.erase i } := rfl
  rw [view_goto_of (s := (s.setPid i 0).takeBack i) hin, hview, view_setPid, hheld, hself]
  exact .drop i hi

/-- A used entry may be given another process ID. -/
theorem move_setPid {i v : Int} {p : Pc} (hi : (s.pipes i).pid ≠ 0) (hv : v ≠ 0)
    (hin : p.inSection = (s.pc t).inSection) (hheld : p.held = (s.pc t).held) :
    Slots.Move t (view s) (view ((s.setPid i v).goto t p)) := by
  have hused : Function.update (view s).used i ((view s).used i) = (view s).used :=
    Function.update_eq_self ..
  have hview : view (s.setPid i v) = view s := by
    rw [view_setPid, decide_eq_true hv, ← decide_eq_true hi]
    exact congrArg (fun f => { view s with used := f }) hused
  rw [← hview]
  exact move_goto (s := s.setPid i v) hin hheld

/-- **One step** of a careful thread is a move of the slots. -/
theorem step_move (hi : (view s).Inv) (hm : Marking s) (ok : Careful s (t, a))
    (h : step s (t, a) = some s') : Slots.Move t (view s) (view s') := by
  have hheld {i : Int} (hp : (s.pc t).held = some i) : (s.pipes i).pid ≠ 0 := by
    simpa [view] using hi.held_used t i hp
  simp only [step] at h
  split at h <;> rename_i hpc
  all_goals try
    -- the accesses that change neither the lock nor an entry
    cases h
    repeat' split
    all_goals exact move_goto (congrArg Pc.inSection hpc).symm (congrArg Pc.held hpc).symm
  · -- a call of `destroy_pipe`
    cases h
    split
    · exact .skip
    · exact move_goto (congrArg Pc.inSection hpc).symm (congrArg Pc.held hpc).symm
  · cases h
    exact move_acquire hi (congrArg Pc.inSection hpc) rfl (congrArg Pc.held hpc).symm
  · -- the second test: the entry is still free
    rename_i r i
    cases h
    have hfree : (s.pipes i).pid = 0 := by simpa [Careful, hpc] using ok
    rw [if_neg (not_not.mpr hfree)]
    cases r <;> exact move_goto (congrArg Pc.inSection hpc).symm (congrArg Pc.held hpc).symm
  · -- the reservation
    rename_i r i v
    cases h
    have hfree : (s.pipes i).pid = 0 := hm.free t i (congrArg Pc.found hpc)
    exact move_mark hfree (hm.value t r i v hpc) (congrArg Pc.inSection hpc).symm rfl
  · rename_i r i
    cases h
    cases r <;>
      exact move_unlock (congrArg Pc.inSection hpc) rfl (congrArg Pc.held hpc).symm
  · -- the daemon's process ID
    rename_i i pid
    split at h
    · rename_i hpid
      cases h
      exact move_setPid (hheld (congrArg Pc.held hpc)) (by omega)
        (congrArg Pc.inSection hpc).symm (congrArg Pc.held hpc).symm
    · cases h
  · -- the answer with the ID
    rename_i pid i id
    cases h
    rw [← view_setId s i id]
    exact move_goto (congrArg Pc.inSection hpc).symm (congrArg Pc.held hpc).symm
  · -- the call returns the entry, or fails
    rename_i i
    cases h
    split
    · exact move_goto (congrArg Pc.inSection hpc).symm (congrArg Pc.held hpc).symm
    · exact move_hand (congrArg Pc.held hpc) (congrArg Pc.inSection hpc).symm rfl
  · cases h
    exact move_acquire hi (congrArg Pc.inSection hpc) rfl (congrArg Pc.held hpc).symm
  · cases h
    exact move_clear (congrArg Pc.held hpc) (congrArg Pc.inSection hpc).symm rfl
  · rename_i again
    cases h
    cases again <;>
      exact move_unlock (congrArg Pc.inSection hpc) rfl (congrArg Pc.held hpc).symm
  · cases h
    exact move_acquire hi (congrArg Pc.inSection hpc) rfl (congrArg Pc.held hpc).symm
  · rename_i pipe old
    cases h
    have hnone : ∀ u, (s.pc u).held ≠ some pipe := by simpa [Careful, hpc] using ok
    exact move_takeBack hnone (congrArg Pc.inSection hpc).symm (congrArg Pc.held hpc).symm
  · cases h
    exact move_unlock (congrArg Pc.inSection hpc) rfl (congrArg Pc.held hpc).symm

@[simp] theorem goto_self (s : State) (t : Nat) (p : Pc) : (s.goto t p).pc t = p :=
  Function.update_self ..

theorem goto_other {u : Nat} (hu : u ≠ t) (p : Pc) : (s.goto t p).pc u = s.pc u :=
  Function.update_of_ne hu ..

theorem acquire_other {u : Nat} (hu : u ≠ t) (p : Pc) : (s.acquire t p).pc u = s.pc u := by
  unfold State.acquire
  split
  · exact goto_other hu p
  · split
    · exact goto_other hu _
    · rfl

theorem acquire_pipes (p : Pc) : (s.acquire t p).pipes = s.pipes := by
  unfold State.acquire
  split
  · rfl
  · split <;> rfl

/-- A step moves nobody else. -/
theorem step_other {u : Nat} (hu : u ≠ t) (h : step s (t, a) = some s') : s'.pc u = s.pc u := by
  simp only [step] at h
  split at h
  all_goals try
    cases h
    first
    | exact goto_other hu _
    | exact acquire_other hu _
  · cases h
    split
    · rfl
    · exact goto_other hu _
  · split at h
    · cases h
      exact goto_other hu _
    · cases h
  · cases h
    split <;> exact goto_other hu _
  · cases h

theorem setPid_other {i j : Int} (hj : j ≠ i) (v : Int) : (s.setPid i v).pipes j = s.pipes j :=
  Function.update_of_ne hj ..

theorem setId_pid (s : State) (i j : Int) (id : Nat) :
    ((s.setId i id).pipes j).pid = (s.pipes j).pid := by
  rcases eq_or_ne j i with rfl | hj
  · simp [State.setId]
  · simp [State.setId, hj]

/-- Who changes an entry is in its section or has reserved it. -/
theorem step_pid (h : step s (t, a) = some s') (j : Int) :
    (s'.pipes j).pid = (s.pipes j).pid ∨ (s.pc t).inSection = true ∨ (s.pc t).held = some j := by
  simp only [step] at h
  split at h <;> rename_i hpc
  all_goals try exact .inr (.inl (congrArg Pc.inSection hpc))
  all_goals try
    cases h
    first
    | exact .inl rfl
    | exact .inl (by rw [acquire_pipes])
  · cases h
    split <;> exact .inl rfl
  · rename_i i pid
    split at h
    · cases h
      rcases eq_or_ne j i with rfl | hj
      · exact .inr (.inr (congrArg Pc.held hpc))
      · exact .inl (congrArg Pipe.pid (setPid_other hj pid))
    · cases h
  · cases h
    exact .inl (setId_pid ..)
  · cases h
    split <;> exact .inl rfl
  · cases h

theorem acquire_found {p : Pc} (hp : p.found = none) (ht : (s.pc t).found = none) :
    ((s.acquire t p).pc t).found = none := by
  unfold State.acquire
  split
  · rw [goto_self, hp]
  · split
    · rw [goto_self]
      rfl
    · exact ht

/-- Where a step finds an entry free, it is free, and what it will be marked with is not zero. -/
theorem step_found (hm : Marking s) (ok : Careful s (t, a)) (h : step s (t, a) = some s') :
    (s'.pc t).found = none ∨
    ∃ i, (s'.pc t).found = some i ∧ (s'.pipes i).pid = 0 ∧
      ∀ r j v, s'.pc t = .mark r j v → v ≠ 0 := by
  simp only [step] at h
  split at h <;> rename_i hpc
  all_goals try
    cases h
    repeat' split
    all_goals
      left
      rw [goto_self]
      rfl
  all_goals try
    cases h
    exact .inl (acquire_found rfl (congrArg Pc.found hpc))
  · left
    cases h
    split
    · exact congrArg Pc.found hpc
    · rw [goto_self]
      rfl
  · -- the second test
    rename_i r i
    cases h
    have hfree : (s.pipes i).pid = 0 := by simpa [Careful, hpc] using ok
    rw [if_neg (not_not.mpr hfree)]
    cases r <;> exact .inr ⟨i, by rw [goto_self]; rfl, hfree, by simp⟩
  · -- the load of the process ID
    rename_i pipe i
    cases h
    have hpid : (s.pipes pipe).pid ≠ 0 := by simpa [Careful, hpc] using ok
    refine .inr ⟨i, by rw [goto_self]; rfl, hm.free t i (congrArg Pc.found hpc), ?_⟩
    simp only [goto_self, Pc.mark.injEq]
    rintro r j v ⟨-, -, rfl⟩
    exact hpid
  · rename_i r i
    cases h
    rw [goto_self]
    cases r <;> exact .inl rfl
  · split at h
    · cases h
      rw [goto_self]
      exact .inl rfl
    · cases h
  · rename_i again
    cases h
    rw [goto_self]
    cases again <;> exact .inl rfl

/-- What was found free stays free: to mark or to clear an entry takes the lock, and a process ID
is only written to an entry that is used. -/
theorem step_marking (hi : (view s).Inv) (hm : Marking s) (ok : Careful s (t, a))
    (h : step s (t, a) = some s') : Marking s' := by
  have hother : ∀ u, u ≠ t → ∀ i, (s.pc u).found = some i → (s'.pipes i).pid = 0 := by
    intro u hu i hf
    have hfree := hm.free u i hf
    rcases step_pid h i with hpid | hin | hheld
    · rw [hpid, hfree]
    · exact absurd (hi.owner_unique (Pc.inSection_of_found hf) hin) hu
    · exact absurd hfree (by simpa [view] using hi.held_used t i hheld)
  constructor
  · intro u i hf
    rcases eq_or_ne u t with rfl | hu
    · rcases step_found hm ok h with hnone | ⟨j, hj, hfree, -⟩
      · rw [hnone] at hf
        cases hf
      · rw [hj] at hf
        cases hf
        exact hfree
    · rw [step_other hu h] at hf
      exact hother u hu i hf
  · intro u r i v hv
    rcases eq_or_ne u t with rfl | hu
    · rcases step_found hm ok h with hnone | ⟨-, -, -, hvalue⟩
      · rw [hv] at hnone
        cases hnone
      · exact hvalue r i v hv
    · rw [step_other hu h] at hv
      exact hm.value u r i v hv

/-! ### Every run -/

theorem Start.inv (h : Start s) : (view s).Inv where
  threads t u i ht _ := by simp [view, h.idle, Pc.held] at ht
  handed t i ht _ := by simp [view, h.idle, Pc.held] at ht
  once := h.once
  owner_iff t := by simp [view, h.lock, h.idle, Pc.inSection]
  held_used t i ht := by simp [view, h.idle, Pc.held] at ht
  kept_used i hi := by simpa [view] using h.used i hi

theorem Start.marking (h : Start s) : Marking s where
  free t i ht := by simp [h.idle, Pc.found] at ht
  value t r i v ht := by simp [h.idle] at ht

/-- How many steps a thread is from `unlock`. -/
def Pc.toUnlock : Pc → Nat
  | .retest .. | .destroyPid _ => 4
  | .copy .. | .destroyId .. => 3
  | .mark .. | .backClear .. | .destroyClear .. => 2
  | .unguard .. | .backUnguard _ | .destroyUnguard _ => 1
  | _ => 0

/-- Nothing holds a thread up inside its section. -/
theorem section_goes_on (hin : (s.pc t).inSection = true) :
    ∃ s', step s (t, .go) = some s' ∧ (s'.pc t).toUnlock < (s.pc t).toUnlock := by
  cases hpc : s.pc t with
  | retest r i =>
      refine ⟨_, by simp only [step, hpc]; rfl, ?_⟩
      rw [goto_self]
      split
      · simp [Pc.toUnlock]
      · cases r <;> simp [Pc.toUnlock]
  | unguard r i =>
      refine ⟨_, by simp only [step, hpc]; rfl, ?_⟩
      rw [goto_self]
      cases r <;> simp [Pc.toUnlock, reserved]
  | backUnguard again =>
      refine ⟨_, by simp only [step, hpc]; rfl, ?_⟩
      rw [goto_self]
      cases again <;> simp [Pc.toUnlock, givenBack]
  | copy | mark | backClear | destroyPid | destroyId | destroyClear | destroyUnguard =>
      refine ⟨_, by simp only [step, hpc]; rfl, ?_⟩
      rw [goto_self]
      simp [Pc.toUnlock]
  | _ =>
      rw [hpc] at hin
      cases hin

/-- The owner of the lock is on its way to `unlock`. -/
def OwnerGoesOn (s : State) : Prop :=
  s.lock ≠ 0 → ∃ t s', (s.pc t).inSection = true ∧ step s (t, .go) = some s' ∧
    (s'.pc t).toUnlock < (s.pc t).toUnlock

/-- **The pipe table** in every run of careful threads: no entry is reserved twice, whether its
call is still at work or has returned it; the lock is free while nobody is in its section, and
whoever has it goes on to release it. -/
theorem pipe_table_run {es : List (Nat × Act)} (h₀ : Start s) (h : Run step Careful s es s') :
    (view s').Exclusive ∧ LockFree s' ∧ OwnerGoesOn s' := by
  have hinv : (view s').Inv ∧ Marking s' := h.invariant (I := fun s => (view s).Inv ∧ Marking s)
    (fun _ _ _ hi ok hs =>
      ⟨hi.1.move (step_move hi.1 hi.2 ok hs), step_marking hi.1 hi.2 ok hs⟩) ⟨h₀.inv, h₀.marking⟩
  have hfree : LockFree s' := by
    intro hout
    have howner : (view s').owner = none := hinv.1.owner_none hout
    simp only [view, ite_eq_left_iff, reduceCtorEq, imp_false, not_not] at howner
    exact howner
  refine ⟨hinv.1.toExclusive, hfree, fun hlock => ?_⟩
  obtain ⟨t, hin⟩ : ∃ t, (s'.pc t).inSection = true := by
    by_contra hno
    exact hlock (hfree fun t => by simpa using not_exists.mp hno t)
  obtain ⟨s₁, hs₁, hless⟩ := section_goes_on hin
  exact ⟨t, s₁, hin, hs₁, hless⟩

/-- A process that has opened nothing. -/
def State.init : State := ⟨fun _ => ⟨0, 0⟩, 0, fun _ => .idle, []⟩

theorem State.init_start : Start .init := ⟨rfl, fun _ => rfl, List.nodup_nil, by simp [State.init]⟩

/-- Thread 0 opens a pipe. -/
def opened : List (Nat × Act) :=
  [(0, .createPipe true), (0, .go), (0, .go), (0, .go), (0, .go), (0, .go), (0, .path true),
    (0, .daemon 2), (0, .go), (0, .go), (0, .object 1), (0, .go)]

/-- Thread 1 duplicates the pipe of entry 0.  Thread 0 wants to destroy it meanwhile, waits for the lock, and
does so before the service has answered thread 1. -/
def duplicated : List (Nat × Act) :=
  [(1, .duplicatePipe 0 0), (1, .go), (1, .go), (1, .go), (1, .go), (0, .destroyPipe 0), (0, .go),
    (1, .go), (1, .go), (1, .go), (1, .go), (0, .go), (1, .go), (1, .go), (0, .go), (0, .go), (0, .go),
    (1, .object 2), (1, .go), (0, .go), (0, .go)]

theorem pipe_table_run_threads : ∃ s, Run step Careful .init (opened ++ duplicated) s ∧
    (view s).Exclusive ∧ LockFree s ∧ OwnerGoesOn s ∧ s.returned = [1] := by
  have hopened : Run step Careful .init opened _ :=
    .more trivial rfl <| .more trivial rfl <| .more trivial rfl <| .more rfl rfl <|
      .more trivial rfl <| .more trivial rfl <| .more trivial rfl <| .more trivial rfl <|
      .more trivial rfl <| .more trivial rfl <| .more trivial rfl <| .more trivial rfl (.refl _)
  obtain ⟨s, hrun, hreturned⟩ : ∃ s, Run step Careful .init (opened ++ duplicated) s ∧
      s.returned = [1] := by
    refine ⟨_, hopened.trans (.more trivial rfl <| .more trivial rfl <| .more trivial rfl <|
      .more trivial rfl <| .more trivial rfl <| .more trivial rfl <| .more trivial rfl <|
      .more rfl rfl <| .more ?copy rfl <| .more trivial rfl <| .more trivial rfl <|
      .more trivial rfl <| .more trivial rfl <| .more trivial rfl <| .more trivial rfl <|
      .more trivial rfl <| .more ?clear rfl <| .more trivial rfl <| .more trivial rfl <|
      .more trivial rfl <| .more trivial rfl (.refl _)), rfl⟩
    case copy => exact (by decide : (2 : Int) ≠ 0)
    case clear =>
      intro u
      match u with
      | 0 | 1 | _ + 2 => exact nofun
  obtain ⟨hexclusive, hfree, hgoes⟩ := pipe_table_run State.init_start hrun
  exact ⟨s, hrun, hexclusive, hfree, hgoes, hreturned⟩

/-- Thread 0 opens a pipe; then threads 1 and 2 both want its duplicate at the last entry, and both
find that one free before thread 1 takes it. -/
def race : List (Nat × Act) :=
  [(0, .createPipe true), (0, .go), (0, .go), (0, .go), (0, .go), (0, .go), (0, .path true),
    (0, .daemon 2), (0, .go), (0, .go), (0, .object 1), (0, .go),
    (1, .duplicatePipe 0 31), (1, .go), (1, .go), (2, .duplicatePipe 0 31), (2, .go), (2, .go),
    (1, .go), (1, .go), (1, .go), (1, .go), (1, .go), (1, .go), (1, .go), (1, .object 2), (1, .go),
    (2, .go), (2, .go), (2, .go)]

def raced : State := (race.foldlM step .init).getD .init

/-- Thread 2 finds the entry used under the lock, goes on without unlocking it and returns: all the
threads are outside and the lock is taken for good. -/
theorem continue_keeps_lock : Run step anyStep .init race raced ∧ (∀ t, raced.pc t = .idle) ∧
    raced.lock = getpid 2 ∧ ¬ LockFree raced := by
  have hrun : Run step anyStep .init race raced := Run.of_foldlM rfl
  have hidle : ∀ t, raced.pc t = .idle := fun t =>
    match t with
    | 0 => rfl
    | 1 => rfl
    | 2 => rfl
    | _ + 3 => rfl
  refine ⟨hrun, hidle, rfl, fun hfree => ?_⟩
  have hlock : raced.lock = 0 := hfree fun t => by rw [hidle t]; rfl
  exact absurd hlock (by decide)

end Muxomucota.Vfs.PipeTable
