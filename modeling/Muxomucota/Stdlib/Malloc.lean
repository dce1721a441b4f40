import Mathlib.Logic.Function.Basic
import Mathlib.Algebra.Group.Nat.Defs
import Mathlib.Data.Finset.Insert
import Mathlib.Data.Finset.Erase
import Mathlib.Data.List.Basic

/-!
# Stdlib — the heap

`malloc.c`, `calloc.c`, `realloc.c` and `free.c` of `lib/common/stdlib`.  A block is named by the address
of its header; a header is 16 bytes and holds the size of what is behind it.  The free list is a list of
addresses, and the next fields of the headers are its order.  Addresses and sizes have 32 bits.  What
`sbrk` does is a parameter: it takes a number of bytes and gives an address.
-/

namespace Muxomucota.Stdlib

/-- `sbrk`, on whatever is behind it; `none` does not return. -/
abbrev Sbrk (σ : Type) := σ → Nat → Option (Nat × σ)

/-- The heap: `__first_free`, the sizes in the headers and what is behind `sbrk`. -/
structure Heap (σ : Type) where
  firstFree : List Nat
  size : Nat → Nat
  system : σ

/-- Rounding of a request. -/
def roundSize (sz : Nat) : Nat :=
  let sz := if sz = 0 then 1 else sz
  if sz % 16 = 0 then sz else (sz + 15) % 2 ^ 32 / 16 * 16

/-! ### The loops -/

/-- The loop of `free`: the block goes before the first one that is not below it; `none` is a block that
is in the list already. -/
def insertFree (t : Nat) : List Nat → Option (List Nat)
  | [] => some [t]
  | f :: fs =>
      if f < t then (insertFree t fs).map (f :: ·)
      else if f = t then none
      else some (t :: f :: fs)

/-- `join_memory`, from the block `current` on; `none` is a block that reaches into the next one. -/
def joinFrom (size : Nat → Nat) (current : Nat) : List Nat → Option ((Nat → Nat) × List Nat)
  | [] => some (size, [current])
  | next :: fs =>
      if next < (current + size current + 16) % 2 ^ 32 then none
      else if (current + size current + 16) % 2 ^ 32 = next then
        joinFrom (Function.update size current ((size current + (size next + 16)) % 2 ^ 32)) current fs
      else (joinFrom size next fs).map fun r => (r.1, current :: r.2)

/-- `join_memory`. -/
def joinMemory (size : Nat → Nat) : List Nat → Option ((Nat → Nat) × List Nat)
  | [] => some (size, [])
  | current :: fs => joinFrom size current fs

/-- The loop of `malloc`: the first block that is large enough, and what becomes of the list. -/
def takeFit (size : Nat → Nat) (sz : Nat) : List Nat → Option (Nat × (Nat → Nat) × List Nat)
  | [] => none
  | t :: fs =>
      if sz ≤ size t then
        if size t - sz < 32 then some (t, size, fs)
        else
          let rest := (t + sz + 16) % 2 ^ 32
          some (t, Function.update (Function.update size rest (size t - sz - 16)) t sz, rest :: fs)
      else (takeFit size sz fs).map fun r => (r.1, r.2.1, t :: r.2.2)

/-- `align_space`: from the block at `t` to the content of one that is aligned. -/
def alignSpace (align t : Nat) : Nat :=
  let space := align - (t &&& (align - 1))
  if space ≠ 16 ∧ space < 48 then (space + align) % 2 ^ 32 else space

/-- The loop of `aligned_alloc`. -/
def alignedFit (size : Nat → Nat) (align sz : Nat) (fs : List Nat) : Option Nat :=
  fs.find? fun t => (alignSpace align t + sz) % 2 ^ 32 ≤ size t

/-! ### The heap -/

namespace Heap

variable {σ : Type}

def setSize (s : Heap σ) (t size : Nat) : Heap σ := { s with size := Function.update s.size t size }

/-- `free`; `none` is a crash. -/
def free (s : Heap σ) (ptr : Nat) : Option (Heap σ) :=
  if ptr = 0 then some s
  else do
    let fs ← insertFree ((ptr + 2 ^ 32 - 16) % 2 ^ 32) s.firstFree
    let (size, fs) ← joinMemory s.size fs
    some { s with size, firstFree := fs }

/-- A new block of `bytes` bytes. -/
def extend (sbrk : Sbrk σ) (s : Heap σ) (bytes : Nat) : Option (Nat × Heap σ) := do
  let (t, system) ← sbrk s.system (bytes % 2 ^ 32)
  if t = 0 then none else some (t, { s with system })

/-- `malloc`; `none` does not return. -/
def malloc (sbrk : Sbrk σ) (s : Heap σ) (sz : Nat) : Option (Nat × Heap σ) :=
  let sz := roundSize sz
  match takeFit s.size sz s.firstFree with
  | some (t, size, fs) => some ((t + 16) % 2 ^ 32, { s with size, firstFree := fs })
  | none => do
      let (t, s) ← s.extend sbrk (sz + 16)
      some ((t + 16) % 2 ^ 32, s.setSize t sz)

/-- `calloc`, whose `memset` stays in the block. -/
def calloc (sbrk : Sbrk σ) (s : Heap σ) (nmemb size : Nat) : Option (Nat × Heap σ) :=
  s.malloc sbrk (nmemb * size % 2 ^ 32)

/-- `realloc`, whose `memcpy` stays in the new block. -/
def realloc (sbrk : Sbrk σ) (s : Heap σ) (ptr size : Nat) : Option (Nat × Heap σ) :=
  if ptr = 0 then s.malloc sbrk size
  else if size = 0 then (s.free ptr).map fun s => (0, s)
  else if size ≤ s.size ((ptr + 2 ^ 32 - 16) % 2 ^ 32) then some (ptr, s)
  else do
    let (nmem, s) ← s.malloc sbrk size
    let s ← s.free ptr
    some (nmem, s)

/-- The block that `aligned_alloc` has found in the list: the heap, the aligned block and what is behind
it. -/
def carve (s : Heap σ) (align sz t : Nat) : Heap σ × Nat × Option Nat :=
  let osize := s.size t
  let space := alignSpace align t
  if space = 16 then
    if 32 ≤ osize - sz then
      let rest := (t + 16 + sz) % 2 ^ 32
      ((s.setSize t sz).setSize rest (osize - sz - 16), t, some rest)
    else (s, t, none)
  else
    let s := s.setSize t ((space + 2 ^ 32 - 32) % 2 ^ 32)
    let block := (t + space - 16) % 2 ^ 32
    if osize - space - sz < 16 then (s.setSize block (osize - space + 16), block, none)
    else
      let rest := (block + 16 + sz) % 2 ^ 32
      ((s.setSize block sz).setSize rest (osize - space - sz), block, some rest)

/-- The block that `aligned_alloc` has got from `sbrk`: the heap, what is before the aligned block, the
aligned block and what is behind it. -/
def carveNew (s : Heap σ) (align sz t : Nat) : Heap σ × Option Nat × Nat × Option Nat :=
  let bsize := (sz + 48 + align) % 2 ^ 32
  let space := alignSpace align t
  if space = 16 then
    let s := s.setSize t sz
    if 48 ≤ bsize - sz then (s.setSize t (bsize - 16), none, t, none)
    else
      let rest := (t + sz + 16) % 2 ^ 32
      ((s.setSize t sz).setSize rest (bsize - sz - 32), none, t, some rest)
  else
    let s := s.setSize t ((space + 2 ^ 32 - 32) % 2 ^ 32)
    let block := (t + space - 16) % 2 ^ 32
    if bsize - space - sz < 32 then (s.setSize block (bsize - space), some t, block, none)
    else
      let rest := (block + sz + 16) % 2 ^ 32
      ((s.setSize block sz).setSize rest (bsize - space - sz - 16), some t, block, some rest)

/-- What is left over is given back. -/
def freeRest (s : Heap σ) : Option Nat → Option (Heap σ)
  | none => some s
  | some rest => s.free ((rest + 16) % 2 ^ 32)

/-- `aligned_alloc`; `none` does not return. -/
def alignedAlloc (sbrk : Sbrk σ) (s : Heap σ) (align size : Nat) : Option (Nat × Heap σ) :=
  let align := if align < 16 then 16 else align
  let sz := roundSize size
  match alignedFit s.size align sz s.firstFree with
  | some t => do
      let (s, block, rest) := s.carve align sz t
      let s ← s.freeRest rest
      some ((block + 16) % 2 ^ 32, s)
  | none => do
      let (t, s) ← s.extend sbrk (sz + 48 + align)
      let (s, front, block, rest) := s.carveNew align sz t
      let s ← s.freeRest front
      let s ← s.freeRest rest
      some ((block + 16) % 2 ^ 32, s)

end Heap

end Muxomucota.Stdlib
