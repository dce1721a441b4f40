import Muxomucota.Mmu.Contexts
import Muxomucota.Lib.Runs

/-!
# Mmu — the memory of the system

The state that the memory functions share: physical memory with its bitmap, the contexts and the
shared-memory objects.  A step is one call by one process, with the checks of `syscall_krn` where
it is a system call, one page fault, or one access by a user program.  Contexts are numbered in the
order of their creation, so that a number is never used twice; a shared-memory object is named by
the pointer that `kmalloc` returned, which may come again after the object is freed.

`World` adds two ledgers that the kernel does not keep: whether the reference of `vmmc_make_shm` to
an object's frames is still out, and which contexts made or opened an object.
-/

namespace Muxomucota.Mmu
open Memory

/-- `vmm_context_t`; `cr3` is the frame of the page directory. -/
structure VmmContext where
  cr3 : Nat
  heapEnd : Nat

/-- The state of the memory management. -/
structure Kernel where
  kpd : KernelDirectory
  mem : Mem
  contexts : Nat → Option VmmContext
  nextContext : Nat
  shm : Nat → Option ShmSg

/-- The steps. -/
inductive Op where
  /-- `create_empty_process` and `process_create_basic_mappings` -/
  | create
  /-- one page of `load_image_to_process` -/
  | loadPage (c base offset : Nat) (bytes : List (BitVec 8))
  /-- `vmmc_set_heap_top` -/
  | setHeapTop (c address : Nat)
  /-- the address space of a `fork` -/
  | fork (c : Nat)
  /-- the address space of an `exec` -/
  | exec (c : Nat)
  /-- the end of a process, `destroy_vmm_context` -/
  | exit (c : Nat)
  /-- a page fault -/
  | fault (c address : Nat) (write : Bool)
  /-- a byte written by the user program -/
  | store (c address : Nat) (byte : BitVec 8)
  | sbrk (c : Nat) (inc : BitVec 32)
  | shmCreate (c id sz : Nat) (junk : Nat → Nat)
  | shmMake (c id : Nat) (areas : List (Nat × Int)) (offset : Nat)
  | shmOpen (c id : Nat) (flags : BitVec 32)
  | shmClose (c id virt : Nat) (destroy : Bool)
  | shmUnmake (c id : Nat) (destroy : Bool)

namespace Mem

/-- The entry under which a user program reads a byte. -/
def userReadable (m : Mem) (pd address : Nat) : Option (BitVec 32) :=
  if isKernel address = false ∧ isPr (m.entry pd (pdIndex address)) ∧
      isUs (m.entry pd (pdIndex address)) then
    let e := m.entry (frameOf (m.entry pd (pdIndex address))) (ptIndex address)
    if isPr e ∧ isUs e then some e else none
  else none

/-- The byte a user program reads; `none` is a page fault. -/
def userLoad (m : Mem) (pd address : Nat) : Option (BitVec 8) :=
  (m.userReadable pd address).map fun e => m.ram (frameOf e) (address % 4096)

/-- A byte written by a user program; `none` is a page fault. -/
def userStore (m : Mem) (pd address : Nat) (byte : BitVec 8) : Option Mem :=
  (m.userReadable pd address).bind fun e =>
    if isRw (m.entry pd (pdIndex address)) ∧ isRw e then
      some { m with ram := m.ram.setByte (frameOf e) (address % 4096) byte }
    else none

/-- `memcpy` into a frame. -/
def copyIn (m : Mem) (f offset : Nat) (bytes : List (BitVec 8)) : Mem :=
  { m with ram := bytes.zipIdx.foldl (fun r b => r.setByte f (offset + b.2) b.1) m.ram }

end Mem

/-- One page of `load_image_to_process`. -/
def loadImagePage (m : Mem) (pd base offset : Nat) (bytes : List (BitVec 8)) : Option Mem :=
  m.alloc.bind fun (f, m) =>
    vmmcMapUserPage (m.copyIn f offset bytes) pd base f (vmmUr ||| vmmUw ||| vmmUx)

/-- The lazy mappings of a new process, `process_create_basic_mappings`. -/
def processCreateBasicMappings (m : Mem) (pd : Nat) : Option Mem :=
  (vmmcLazyMapArea m pd userStackBase (userStackTop - userStackBase) (vmmUr ||| vmmUw)).bind fun m =>
    vmmcLazyMapArea m pd userHeritageBase (userHeritageTop - userHeritageBase) (vmmUr ||| vmmUw)

/-- What `exec` does before it loads the image. -/
def execClear (m : Mem) (pd : Nat) : Option Mem :=
  (vmmcClearUser m pd true).bind fun m =>
    vmmcLazyMapArea m pd userStackBase (userStackTop - userStackBase) (vmmUr ||| vmmUw)

namespace Kernel

/-- A fresh context. -/
def addContext (k : Kernel) (cr3 heapEnd : Nat) (m : Mem) : Kernel :=
  { k with mem := m, nextContext := k.nextContext + 1,
           contexts := Function.update k.contexts k.nextContext (some ⟨cr3, heapEnd⟩) }

/-- The end of the heap of context `c`, which was `x`. -/
def setHeapEnd (k : Kernel) (c : Nat) (x : VmmContext) (heapEnd : Nat) (m : Mem) : Kernel :=
  { k with mem := m,
           contexts := Function.update k.contexts c (some { x with heapEnd := heapEnd }) }

@[simp] theorem addContext_contexts (k : Kernel) (cr3 heapEnd : Nat) (m : Mem) :
    (k.addContext cr3 heapEnd m).contexts k.nextContext = some ⟨cr3, heapEnd⟩ :=
  Function.update_self ..

@[simp] theorem setHeapEnd_contexts (k : Kernel) (c : Nat) (x : VmmContext) (heapEnd : Nat) (m : Mem) :
    (k.setHeapEnd c x heapEnd m).contexts c = some { x with heapEnd := heapEnd } :=
  Function.update_self ..

def setShm (k : Kernel) (id : Nat) (sg : Option ShmSg) (m : Mem) : Kernel :=
  { k with mem := m, shm := Function.update k.shm id sg }

/-- One step and the value it returns to the process. -/
def step (k : Kernel) : Op → Option (Nat × Kernel)
  | .create =>
      (createVmmContextArch k.kpd k.mem).bind fun (pd, m) =>
        (processCreateBasicMappings m pd).map fun m => (0, k.addContext pd 0 m)
  | .loadPage c base offset bytes =>
      (k.contexts c).bind fun x =>
        (loadImagePage k.mem x.cr3 base offset bytes).map fun m => (0, { k with mem := m })
  | .setHeapTop c address =>
      (k.contexts c).map fun x => (0, k.setHeapEnd c x (address % 2 ^ 32) k.mem)
  | .fork c =>
      (k.contexts c).bind fun x =>
        (createVmmContextArch k.kpd k.mem).bind fun (pd, m) =>
          (vmmcClone m pd x.cr3).map fun m => (0, k.addContext pd x.heapEnd m)
  | .exec c =>
      (k.contexts c).bind fun x => (execClear k.mem x.cr3).map fun m => (0, { k with mem := m })
  | .exit c =>
      (k.contexts c).bind fun x =>
        (destroyVmmContext k.mem x.cr3).map fun m =>
          (0, { k with mem := m, contexts := Function.update k.contexts c none })
  | .fault c address write =>
      (k.contexts c).bind fun x =>
        (handlePagefault k.mem x.cr3 address write).map fun r => (r.1.toNat, { k with mem := r.2 })
  | .store c address byte =>
      (k.contexts c).bind fun x =>
        (k.mem.userStore x.cr3 address byte).map fun m => (0, { k with mem := m })
  | .sbrk c inc =>
      (k.contexts c).bind fun x =>
        (contextSbrk k.mem x.cr3 x.heapEnd inc).map fun (ret, heapEnd, m) =>
          (ret, k.setHeapEnd c x heapEnd m)
  | .shmCreate c id sz junk =>
      if (k.contexts c).isSome ∧ k.shm id = none then
        some (id, k.setShm id (some (vmmcCreateShm (sz % 2 ^ 32) junk)) k.mem)
      else none
  | .shmMake c id areas offset =>
      (k.contexts c).bind fun x =>
        -- `EINVAL`
        if areas = [] ∨ 4096 ≤ offset then some (0, k)
        else if k.shm id = none then
          (vmmcMakeShm k.mem x.cr3 areas offset).map fun (sg, m) => (id, k.setShm id (some sg) m)
        else none
  | .shmOpen c id flags =>
      (k.contexts c).bind fun x =>
        match k.shm id with
        | none    => some (0, k)
        | some sg =>
            (vmmcOpenShm k.mem x.cr3 sg flags).map fun (mapping, sg, m) =>
              (mapping, k.setShm id (some sg) m)
  | .shmClose c id virt destroy =>
      (k.contexts c).bind fun x =>
        match k.shm id with
        | none    => some (0, k)
        | some sg =>
            -- `EFAULT`
            if isValidUserMem k.mem x.cr3 ((virt + 2 ^ 32 - sg.offset) % 2 ^ 32) sg.size vmmUr then
              (vmmcCloseShm k.mem x.cr3 sg virt destroy).map fun (sg, m) => (0, k.setShm id sg m)
            else some (0, k)
  | .shmUnmake c id destroy =>
      (k.contexts c).bind fun _ =>
        match k.shm id with
        | none    => some (0, k)
        | some sg =>
            (vmmcUnmakeShm k.mem sg destroy).map fun (sg, m) => (0, k.setShm id sg m)

/-- The page directories of the live contexts. -/
def spaces (k : Kernel) (c : Nat) : Option Nat := (k.contexts c).map VmmContext.cr3

end Kernel

/-- The kernel's memory with the two ledgers. -/
structure World extends Kernel where
  /-- `vmmc_make_shm` has taken references to the frames that the object has now, and
  `vmmc_unmake_shm` has not given them back -/
  made : Nat → Bool
  /-- the contexts that made or opened the object -/
  party : Nat → List Nat

namespace World

/-- The ledger of references after a step. -/
def madeAfter (w : World) : Op → Nat → Bool
  | .shmCreate _ id _ _ => Function.update w.made id false
  | .shmMake _ id areas offset =>
      if areas = [] ∨ 4096 ≤ offset then w.made else Function.update w.made id true
  | .shmOpen _ id _ =>
      match w.shm id with
      | none    => w.made
      | some sg =>
          -- an object without users gets new frames
          if sg.keptAlive ∨ sg.users ≠ 0 then w.made else Function.update w.made id false
  | .shmUnmake _ id _ => Function.update w.made id false
  | _ => w.made

/-- The ledger of users after a step. -/
def partyAfter (w : World) (ret : Nat) : Op → Nat → List Nat
  | .shmCreate _ id _ _ => Function.update w.party id []
  | .shmMake c id areas offset =>
      if areas = [] ∨ 4096 ≤ offset then w.party else Function.update w.party id [c]
  | .shmOpen c id _ => if ret = 0 then w.party else Function.update w.party id (c :: w.party id)
  | _ => w.party

/-- One step with its entry in the ledgers. -/
def step (w : World) (op : Op) : Option World :=
  (w.toKernel.step op).map fun (ret, k) =>
    { toKernel := k, made := w.madeAfter op, party := w.partyAfter ret op }

/-- Before the first process: no contexts and no objects; the kernel may use any frames. -/
structure Boot (w : World) : Prop where
  noContexts : ∀ c, w.contexts c = none
  noShm : ∀ id, w.shm id = none
  notMade : ∀ id, w.made id = false
  addressable : w.mem.pmm.memBase + w.mem.pmm.memEntries ≤ 2 ^ 20

end World

end Muxomucota.Mmu
