import Muxomucota.Mmu.AreaBytes

/-!
# Tasking — the arguments of a process

`process_set_args` puts the argument vector, the environment vector and their strings on the stack of a
process, page by page through the frames that `vmmc_address_mapped` names, and
`process_set_initial_params` puts the parameters of `main` below them.  `kernel_map` and `kernel_unmap`
only make a frame addressable; what is mapped for the vectors is the frame `argvMap`.

The two functions map pages of the stack from two stack pointers: the first from that of the `state` it
gets, the second from `proc->cpu_state`, which is the same object for a new process but not in `exec`.
-/

namespace Muxomucota.Tasking
open Mmu Memory Lib

/-- A string: the bytes before the `0` that ends it. -/
abbrev CString := { s : List (BitVec 8) // 0 ∉ s }

/-- The bytes of a string in memory. -/
def CString.bytes (s : CString) : List (BitVec 8) := s.1 ++ [0]

def strlen (s : CString) : Nat := s.1.length

/-- `process_stack_alloc`: the stack pointer afterwards. -/
def processStackAlloc (esp size : Nat) : Nat := (esp + 2 ^ 32 - size) % 2 ^ 32

/-- The pages of `for (page = lo & ~(PAGE_SIZE - 1); page < ((hi + PAGE_SIZE - 1) & ~(PAGE_SIZE - 1));
page += PAGE_SIZE)`. -/
def pagesBetween (lo hi : Nat) : List Nat :=
  List.range' (lo / 4096) ((hi + 4095) % 2 ^ 32 / 4096 - lo / 4096)

/-- `sz`, rounded up to whole pointers. -/
def argsSize (argv envp : List CString) : Nat :=
  let sz := argv.foldl (fun sz s => sz + (strlen s + 1)) 0
  let sz := envp.foldl (fun sz s => sz + (strlen s + 1)) sz
  let sz := sz + (4 * (argv.length + 1) + 4 * (envp.length + 1))
  (sz + 3) % 2 ^ 32 / 4 * 4

/-- `kassert_exec(vmmc_address_mapped(proc->vmmc, virt, &paddr))`: the frame. -/
def mappedFrame (m : Mem) (pd virt : Nat) : Option Nat :=
  let (access, f) := vmmcAddressMapped m pd virt
  if access = 0 then none else some f

/-- What the loop over the pages of a string changes. -/
structure CopyLoop where
  mem : Mem
  copied : Nat
  outOff : Nat

/-- One round of it. -/
def copyPage (pd endP : Nat) (src : List (BitVec 8)) (st : CopyLoop) (page : Nat) : Option CopyLoop :=
  (mappedFrame st.mem pd (page * 4096)).map fun f =>
    let n := if endP ≤ page + 1 then src.length - st.copied else 4096 - st.outOff
    { mem := st.mem.copyIn f st.outOff ((src.drop st.copied).take n)
      copied := st.copied + (4096 - st.outOff), outOff := 0 }

/-- The loop that copies a string, with the `0` at its end, to `d`. -/
def copyArg (m : Mem) (pd d : Nat) (src : List (BitVec 8)) : Option Mem :=
  ((pagesBetween d (d + src.length)).foldlM
    (copyPage pd ((d + src.length + 4095) % 2 ^ 32 / 4096) src) ⟨m, 0, d % 4096⟩).map CopyLoop.mem

/-- What the loop over the vectors changes. -/
structure ArgLoop where
  mem : Mem
  d : Nat
  argvMap : Nat

/-- The string that entry `i` points to; none where the entry is `NULL`. -/
def argAt (argv envp : List CString) (i : Nat) : Option CString :=
  if i ≠ argv.length ∧ i ≠ argv.length + 1 + envp.length then
    if i < argv.length then argv[i]? else envp[i - argv.length - 1]?
  else none

/-- One round of the loop over the vectors. -/
def setArg (pd stack : Nat) (argv envp : List CString) (st : ArgLoop) (i : Nat) : Option ArgLoop :=
  let argvI := (stack + 4 * i) % 2 ^ 32
  (if argvI % 4096 = 0 then (mappedFrame st.mem pd argvI).map fun f => { st with argvMap := f }
    else some st).bind fun st =>
  match argAt argv envp i with
  | none => some { st with mem := st.mem.setEntry st.argvMap (argvI % 4096 / 4) 0 }
  | some src =>
      let m := st.mem.setEntry st.argvMap (argvI % 4096 / 4) (BitVec.ofNat 32 st.d)
      (copyArg m pd st.d src.bytes).map fun m =>
        { st with mem := m, d := (st.d + (strlen src + 1)) % 2 ^ 32 }

/-- `process_set_initial_params`; `stored` is the stack pointer of `proc->cpu_state` where that is not
the state being set up. -/
def processSetInitialParams (m : Mem) (pd : Nat) (stored : Option Nat) (esp argc argv envp : Nat) :
    Option (Mem × Nat) :=
  let initial := stored.getD esp
  let esp := (esp + 2 ^ 32 - 12) % 2 ^ 32 / 16 * 16
  (touchPages m pd (pagesBetween (stored.getD esp) initial)).bind fun m =>
    (mappedFrame m pd esp).map fun f =>
      let m := m.setEntry f (esp % 4096 / 4) (BitVec.ofNat 32 argc)
      let m := m.setEntry f (esp % 4096 / 4 + 1) (BitVec.ofNat 32 argv)
      let m := m.setEntry f (esp % 4096 / 4 + 2) (BitVec.ofNat 32 envp)
      -- `process_simulate_func_call`
      (m, processStackAlloc esp 4)

/-- `process_set_args`: the memory and the stack pointer; none where an assertion fails. -/
def processSetArgs (m : Mem) (pd : Nat) (stored : Option Nat) (esp : Nat) (argv envp : List CString) :
    Option (Mem × Nat) :=
  let stack := processStackAlloc esp (argsSize argv envp)
  let entries := argv.length + envp.length + 2
  (touchPages m pd (pagesBetween stack esp)).bind fun m =>
    (mappedFrame m pd stack).bind fun f =>
      ((List.range entries).foldlM (setArg pd stack argv envp)
        ⟨m, (stack + 4 * entries) % 2 ^ 32, f⟩).bind fun st =>
          processSetInitialParams st.mem pd stored stack argv.length stack
            ((stack + 4 * (argv.length + 1)) % 2 ^ 32)

/-! ### What is to come of it -/

/-- A vector of pointers to these strings, with `NULL` at the end. -/
def VectorAt (m : Mem) (pd a : Nat) (strings : List CString) : Prop :=
  (∀ i (hi : i < strings.length), ∃ p : BitVec 32, BytesAt m pd (a + 4 * i) (wordBytes p) ∧
    BytesAt m pd p.toNat strings[i].bytes) ∧ BytesAt m pd (a + 4 * strings.length) (wordBytes 0)

/-- **Argument passing**: the parameters of `main` are at the aligned stack top, and describe the
strings. -/
def Passed (m : Mem) (pd esp : Nat) (argv envp : List CString) : Prop :=
  16 ∣ esp + 4 ∧ BytesAt m pd (esp + 4) (wordBytes (BitVec.ofNat 32 argv.length)) ∧
    ∃ a e : BitVec 32, BytesAt m pd (esp + 8) (wordBytes a) ∧ BytesAt m pd (esp + 12) (wordBytes e) ∧
      VectorAt m pd a.toNat argv ∧ VectorAt m pd e.toNat envp

/-- The functions return, and the arguments are passed. -/
def PassesArguments (m : Mem) (pd : Nat) (stored : Option Nat) (esp : Nat) (argv envp : List CString) :
    Prop :=
  ∃ m' esp', processSetArgs m pd stored esp argv envp = some (m', esp') ∧ Passed m' pd esp' argv envp

/-- What is put on the stack: the strings, the vectors and the parameters. -/
def argsTotal (argv envp : List CString) : Nat :=
  ((argv ++ envp).map CString.bytes).flatten.length + 4 * (argv.length + envp.length + 2) + 12

/-- The parameters are in a page that is mapped: that of the vectors; or the one below, if that is mapped
already or `proc->cpu_state` is the state being set up or has its stack pointer inside of it. -/
def ParamsMapped (m : Mem) (pd : Nat) (stored : Option Nat) (stack : Nat) : Prop :=
  12 ≤ stack % 4096 ∨ ¬OnDemand m pd (stack / 4096 - 1) ∨
    ∀ e ∈ stored, e / 4096 = stack / 4096 - 1 ∧ e % 4096 ≠ 0

/-- The pages that are accessed on the way. -/
def argPages (stored : Option Nat) (esp stack : Nat) : Finset Nat :=
  (pagesBetween stack esp).toFinset ∪
    (pagesBetween (stored.getD ((stack - 12) / 16 * 16)) (stored.getD stack)).toFinset

end Muxomucota.Tasking
