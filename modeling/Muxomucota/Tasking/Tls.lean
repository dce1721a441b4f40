import Muxomucota.Mmu.Ram
import Muxomucota.Tasking.Popups

/-!
# Tasking — the IDs a thread finds in its TLS

`getpid`, `getpgid` and `getppid` read the thread's `struct tls`, which lies in user memory at the
top of its stack.  The kernel writes it through a mapping of the physical memory
(`make_process_entry`, `popup`, `fork`), or, when a process exits and its children get another
parent, through the children's user pointers (`adopt`), in the address space of the process that
exits.

An address space is what its pages are: not mapped, mapped when they are first touched, or present.
`fork` shares the present ones; who writes to a shared page gets a copy first.  (The last owner keeps
the page itself instead, which nobody can tell.)  Physical memory is one row of bytes, and `pmm_alloc`
hands out frames that were never used, whatever is in them.
-/

namespace Muxomucota.Tasking
open Lib Mmu

/-- `PAGE_SIZE` -/
def pageSize : Nat := 4096

/-- `USER_STACK_TOP`, `USER_HERITAGE_BASE`, `USER_HERITAGE_TOP`. -/
def userStackTop : Nat := 0xF0000000

def userHeritageBase : Nat := 0xBF000000

def userHeritageTop : Nat := 0xC0000000

/-- `sizeof(struct tls)`: `absolute`, `pid`, `pgid`, `ppid`, `errno`, of four bytes each. -/
def tlsSize : Nat := 20

/-- `(struct tls *)stack_top - 1` -/
def tlsBelow (stackTop : Nat) : Nat := (stackTop + 2 ^ 32 - tlsSize) % 2 ^ 32

/-- A process, as far as its IDs go: `vmmc` is the address space, `swept` says that it is a popup
thread that nobody waits for. -/
structure User where
  pgid : Nat
  ppid : Nat
  vmmc : Nat
  tls : Nat
  life : Life
  swept : Bool
  deriving DecidableEq, Repr

/-- What a page of an address space is. -/
inductive Page where
  | unmapped
  | onDemand
  | present (frame : Nat) (cow : Bool)
  deriving DecidableEq, Repr

/-- The processes by their PID, the lists that `adopt_orphans` walks (the run queue with the daemons,
and the zombies), the address spaces and the memory. -/
structure Users where
  procs : Nat → Option User
  running : List Nat
  zombies : List Nat
  pages : Nat → Nat → Page
  mem : Nat → BitVec 8
  nextFrame : Nat
  nextVmmc : Nat

/-- Storing a word. -/
def putWord (b : Nat → BitVec 8) (p : Nat) (w : BitVec 32) : Nat → BitVec 8 :=
  Ram.setWord (fun _ => b) 0 p w 0

/-- `struct tls` at the physical address `p`. -/
def putTls (b : Nat → BitVec 8) (p tls pid pgid ppid : Nat) : Nat → BitVec 8 :=
  let b := putWord b p (BitVec.ofNat 32 tls)
  let b := putWord b (p + 16) 0
  let b := putWord b (p + 4) (BitVec.ofNat 32 pid)
  let b := putWord b (p + 8) (BitVec.ofNat 32 pgid)
  putWord b (p + 12) (BitVec.ofNat 32 ppid)

namespace Users

def init : Users :=
  { procs := fun _ => none, running := [], zombies := [], pages := fun _ _ => .unmapped,
    mem := fun _ => 0, nextFrame := 0, nextVmmc := 0 }

def setProc (s : Users) (p : Nat) (c : Option User) : Users :=
  { s with procs := Function.update s.procs p c }

def setPage (s : Users) (v n : Nat) (page : Page) : Users :=
  { s with pages := Function.update s.pages v (Function.update (s.pages v) n page) }

/-! ### Memory -/

/-- The physical address behind a user address (`vmmc_address_mapped`). -/
def translate (s : Users) (v a : Nat) : Option Nat :=
  match s.pages v (a / pageSize) with
  | .present f _ => some (f * pageSize + a % pageSize)
  | _ => none

/-- `vmmc_do_lazy_map` -/
def doLazyMap (s : Users) (v a : Nat) : Users :=
  match s.pages v (a / pageSize) with
  | .onDemand =>
      { s.setPage v (a / pageSize) (.present s.nextFrame false) with nextFrame := s.nextFrame + 1 }
  | _ => s

/-- The page fault of a write; nothing helps where nothing is mapped. -/
def touch (s : Users) (v a : Nat) : Option Users :=
  match s.pages v (a / pageSize) with
  | .unmapped => none
  | .onDemand => some (s.doLazyMap v a)
  | .present _ false => some s
  | .present f true =>
      some { s.setPage v (a / pageSize) (.present s.nextFrame false) with
        nextFrame := s.nextFrame + 1
        mem := fun x =>
          if x / pageSize = s.nextFrame then s.mem (f * pageSize + x % pageSize) else s.mem x }

def userStoreByte (s : Users) (v a : Nat) (b : BitVec 8) : Option Users := do
  let s ← s.touch v a
  let p ← s.translate v a
  some { s with mem := Function.update s.mem p b }

/-- A write through a user pointer. -/
def userStoreWord (s : Users) (v a : Nat) (w : BitVec 32) : Option Users := do
  let s ← s.userStoreByte v a (w.extractLsb' 0 8)
  let s ← s.userStoreByte v (a + 1) (w.extractLsb' 8 8)
  let s ← s.userStoreByte v (a + 2) (w.extractLsb' 16 8)
  s.userStoreByte v (a + 3) (w.extractLsb' 24 8)

def byteAt (s : Users) (v a : Nat) : Option (BitVec 8) := (s.translate v a).map s.mem

/-- What a thread reads at an address. -/
def userLoadWord (s : Users) (v a : Nat) : Option (BitVec 32) := do
  let b₀ ← s.byteAt v a
  let b₁ ← s.byteAt v (a + 1)
  let b₂ ← s.byteAt v (a + 2)
  let b₃ ← s.byteAt v (a + 3)
  some (b₃ ++ b₂ ++ b₁ ++ b₀)

/-! ### Processes -/

/-- A new address space: the stacks, the heritage and the image are mapped on demand
(`process_create_basic_mappings`, `load_image_to_process`). -/
def basicMappings (image : Nat → Bool) (n : Nat) : Page :=
  if userStackBase / pageSize ≤ n ∧ n < userStackTop / pageSize then .onDemand
  else if userHeritageBase / pageSize ≤ n ∧ n < userHeritageTop / pageSize then .onDemand
  else if image n then .onDemand
  else .unmapped

/-- Where `make_process_entry` and `popup` write the TLS; without a mapping an assertion fails. -/
def makeTls (s : Users) (pid : Nat) (c : User) : Option Users := do
  let s := s.doLazyMap c.vmmc c.tls
  let p ← s.translate c.vmmc c.tls
  some { s with mem := putTls s.mem p c.tls pid c.pgid c.ppid }

/-- The process joins the run queue. -/
def register (s : Users) (pid : Nat) (c : User) : Users :=
  { s.setProc pid (some c) with running := pid :: s.running }

/-- `create_process_from_image` -/
def createProcess (s : Users) (pid : Nat) (image : Nat → Bool) : Option Users :=
  if (s.procs pid).isSome then none
  else do
    let c : User := { pgid := pid, ppid := 0, vmmc := s.nextVmmc, tls := tlsBelow userStackTop,
                      life := .live, swept := false }
    let s := { s with pages := Function.update s.pages s.nextVmmc (basicMappings image)
                      nextVmmc := s.nextVmmc + 1 }
    let s ← s.makeTls pid c
    some (s.register pid c)

/-- `create_user_thread` -/
def createUserThread (s : Users) (current : User) (pid stackTop : Nat) : Option Users :=
  if (s.procs pid).isSome then none
  else do
    let c : User := { pgid := current.pgid, ppid := current.pgid, vmmc := current.vmmc,
                      tls := tlsBelow stackTop, life := .live, swept := false }
    let s ← s.makeTls pid c
    some (s.register pid c)

/-- `popup`, on the stack `k`. -/
def popup (s : Users) (currentPid : Nat) (proc : User) (pid k : Nat) (zombify : Bool) :
    Option Users :=
  if (s.procs pid).isSome then none
  else do
    let c : User := { pgid := proc.pgid, ppid := currentPid, vmmc := proc.vmmc,
                      tls := tlsBelow (userStackBase + (k + 1) * popupStackSize), life := .live,
                      swept := !zombify }
    let s ← s.makeTls pid c
    some (s.register pid c)

/-- A page as `vmmc_clone` leaves it in both address spaces. -/
def sharePage : Page → Page
  | .present f _ => .present f true
  | page => page

/-- `fork`: `vmmc_do_lazy_map` changes nothing where the parent's page is present. -/
def fork (s : Users) (currentPid : Nat) (current : User) (pid : Nat) : Option Users :=
  if (s.procs pid).isSome then none
  else do
    let c : User := { pgid := pid, ppid := currentPid, vmmc := s.nextVmmc, tls := current.tls,
                      life := .live, swept := false }
    let shared := fun n => sharePage (s.pages current.vmmc n)
    let s := { s with
      pages := Function.update (Function.update s.pages current.vmmc shared) s.nextVmmc shared
      nextVmmc := s.nextVmmc + 1 }
    let s := s.doLazyMap c.vmmc c.tls
    let p ← s.translate c.vmmc c.tls
    let b := putWord s.mem (p + 4) (BitVec.ofNat 32 pid)
    let b := putWord b (p + 8) (BitVec.ofNat 32 pid)
    let b := putWord b (p + 12) (BitVec.ofNat 32 currentPid)
    some ({ s with mem := b }.register pid c)

/-- `exec`: the address space is cleared but for the heritage, and filled anew. -/
def exec (s : Users) (currentPid : Nat) (current : User) (image : Nat → Bool) : Option Users := do
  let c := { current with tls := tlsBelow userStackTop }
  let cleared := fun n =>
    if userHeritageBase / pageSize ≤ n ∧ n < userHeritageTop / pageSize then s.pages current.vmmc n
    else basicMappings image n
  let s := { s with pages := Function.update s.pages current.vmmc cleared }
  let s ← s.makeTls currentPid c
  some (s.setProc currentPid (some c))

/-- `adopt`, called by a process with the address space `v`. -/
def adopt (s : Users) (v parentPid q : Nat) (child : User) : Option Users :=
  (s.setProc q (some { child with ppid := parentPid })).userStoreWord v (child.tls + 12)
    (BitVec.ofNat 32 parentPid)

/-- `adopt_orphans` -/
def adoptOrphans (s : Users) (parentPid : Nat) (parent : User) : Option Users :=
  (s.running ++ s.zombies).foldlM (fun s q =>
    match s.procs q with
    | none => some s
    | some c => if c.ppid = parentPid then s.adopt parent.vmmc parent.ppid q c else some s) s

/-- `SYS_EXIT`, `SYS_POPUP_EXIT` -/
def exit (s : Users) (p : Nat) (c : User) : Option Users := do
  let s ← s.adoptOrphans p c
  let c ← s.procs p
  if c.swept then
    some { s.setProc p (some { c with life := .dead }) with running := s.running.erase p }
  else
    some { s.setProc p (some { c with life := .zombie }) with
      running := s.running.erase p, zombies := p :: s.zombies }

/-- `destroy_process_struct` -/
def destroyProcessStruct (s : Users) (p : Nat) : Users :=
  { s.setProc p none with zombies := s.zombies.erase p }

/-- The process is live. -/
def Live (s : Users) (p : Nat) (c : User) : Prop := s.procs p = some c ∧ c.life = .live

/-- A process that can make a system call. -/
def current (s : Users) (p : Nat) : Option User := (s.procs p).filter fun c => c.life = .live

end Users

/-- What can happen next; `touch` is any write of a thread to a page, without what it writes. -/
inductive UserAct where
  | createProcess (pid : Nat) (image : Nat → Bool)
  | createThread (p pid stackTop : Nat)
  | popup (p target pid k : Nat) (zombify : Bool)
  | fork (p pid : Nat)
  | exec (p : Nat) (image : Nat → Bool)
  | exit (p : Nat)
  | destroy (p : Nat)
  | touch (p a : Nat)

/-- One step. -/
def userStep (s : Users) : UserAct → Option Users
  | .createProcess pid image => s.createProcess pid image
  | .createThread p pid stackTop => do
      let c ← s.current p
      s.createUserThread c pid stackTop
  | .popup p target pid k zombify => do
      let _ ← s.current p
      let proc ← s.current target
      s.popup p proc pid k zombify
  | .fork p pid => do
      let c ← s.current p
      s.fork p c pid
  | .exec p image => do
      let c ← s.current p
      s.exec p c image
  | .exit p => do
      let c ← s.current p
      s.exit p c
  | .destroy p => do
      let c ← s.procs p
      if c.life = .live then none else some (s.destroyProcessStruct p)
  | .touch p a => do
      let c ← s.current p
      s.touch c.vmmc a

end Muxomucota.Tasking
