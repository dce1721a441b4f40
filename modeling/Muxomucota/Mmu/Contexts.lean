import Muxomucota.Mmu.Vmem

/-!
# Mmu — heap and shared memory

`context_sbrk` and the shared-memory functions of `memory/vmem.c`, with `vmmc_user_map_sg` and
`is_valid_user_mem` which they use.  A list of physical pages (`uintptr_t phys[]`) is the list of
their frames.  Where the source returns `NULL`, the result is `0`.
-/

namespace Muxomucota.Mmu
open Memory

/-- The number of pages of `sz` bytes, `(sz + PAGE_SIZE - 1) / PAGE_SIZE` in 32 bits. -/
def pagesOf (sz : Nat) : Nat := (sz + 4095) % 2 ^ 32 / 4096

/-! ### Mapping a list of frames -/

/-- The inner loop of `vmmc_user_map_sg`: over the entries of a page table from `pti` on, until
`pages` absent ones in a row are found; the first argument is the number of entries left. -/
def scanTable (m : Mem) (pt pages : Nat) : Nat → Nat → Nat → Nat × Nat
  | 0, pti, size => (pti, size)
  | n + 1, pti, size =>
      if size < pages then
        scanTable m pt pages n (pti + 1) (if isPr (m.entry pt pti) then 0 else size + 1)
      else (pti, size)

/-- The outer loop of `vmmc_user_map_sg`: where the search stops (`pdi`, `pti`) and the size of the
block found. -/
def scanDir (m : Mem) (pd pages : Nat) : Nat → Nat → Nat → Nat → Nat × Nat × Nat
  | 0, pdi, pti, size => (pdi, pti, size)
  | n + 1, pdi, _, size =>
      let r := if isPr (m.entry pd pdi) then
          scanTable m (frameOf (m.entry pd pdi)) pages 1024 0 size
        else (1024, size + 1024)
      if pages ≤ r.2 then (pdi, r.1, r.2) else scanDir m pd pages n (pdi + 1) r.1 r.2

/-- Where `vmmc_user_map_sg` puts `pages` pages; the search goes on up to `KERNEL_BASE`. -/
def mapSgStart (m : Mem) (pd pages : Nat) : Option Nat :=
  match scanDir m pd pages ((physBase - userMapBase) / 0x400000) (userMapBase / 0x400000) 0 0 with
  | (pdi, pti, size) =>
      if size < pages then none
      else
        let blockEnd := (pdi * 0x400000) ||| (pti * 0x1000)
        some ((blockEnd + 2 ^ 32 - size * 4096) % 2 ^ 32)

/-- The last loop of `vmmc_user_map_sg`. -/
def mapFrames (m : Mem) (pd start : Nat) (phys : List Nat) (flags : BitVec 32) : Option Mem :=
  phys.zipIdx.foldlM
    (fun m r => vmmcMapUserPageUnlocked m pd ((start + r.2 * 4096) % 2 ^ 32) r.1 flags) m

/-- `vmmc_user_map_sg`. -/
def vmmcUserMapSg (m : Mem) (pd : Nat) (phys : List Nat) (flags : BitVec 32) : Option (Nat × Mem) :=
  match mapSgStart m pd phys.length with
  | none       => some (0, m)
  | some start => (mapFrames m pd start phys flags).map fun m => (start, m)

/-! ### Access checks -/

/-- `is_valid_user_mem`. -/
def isValidUserMem (m : Mem) (pd start length : Nat) (flags : BitVec 32) : Bool :=
  (List.range ((length + start % 4096 + 4095) % 2 ^ 32 / 4096)).all fun i =>
    let addr := (start / 4096 * 4096 + i * 4096) % 2 ^ 32
    let flagsSet := (vmmcAddressMapped m pd addr).1
    !isKernel addr && (decide (flagsSet &&& flags = flags) ||
      -- a page that is only readable may be copy-on-write
      (decide (flags &&& (vmmUw ||| vmmPw) ≠ 0) && decide (flagsSet &&& (vmmUw ||| vmmPw) = 0)))

/-! ### `context_sbrk` -/

/-- The rounding of the increment. -/
def sbrkInc (inc : BitVec 32) : BitVec 32 :=
  if inc &&& ~~~0xF#32 ≠ 0 then
    if 0 ≤ inc.toInt then (inc + 0xF) &&& ~~~0xF#32 else inc &&& ~~~0xF#32
  else inc

/-- One page of a growing heap. -/
def growPage (m : Mem) (pd page : Nat) : Option Mem :=
  if (vmmcAddressMapped m pd (page * 4096)).1 = 0 then
    m.alloc.bind fun (f, m) => vmmcMapUserPage m pd (page * 4096) f (vmmUr ||| vmmUw)
  else some m

/-- One page of a shrinking heap. -/
def shrinkPage (m : Mem) (pd page : Nat) : Option Mem :=
  if (vmmcAddressMapped m pd (page * 4096)).1 ≠ 0 then
    (m.free (vmmcAddressMapped m pd (page * 4096)).2).bind fun m =>
      vmmcUserUnmap m pd (page * 4096) pageSize
  else some m

/-- The pages of a growing heap, from the old end rounded down to the new end rounded up. -/
def growRange (heapEnd : Nat) (inc : BitVec 32) : List Nat :=
  List.range' (heapEnd / 4096)
    (((heapEnd + (sbrkInc inc).toNat) % 2 ^ 32 + 4095) % 2 ^ 32 / 4096 - heapEnd / 4096)

/-- The pages of a shrinking heap, from the new end to the old end, both rounded up. -/
def shrinkRange (heapEnd : Nat) (inc : BitVec 32) : List Nat :=
  List.range' (((heapEnd + (sbrkInc inc).toNat) % 2 ^ 32 + 4095) % 2 ^ 32 / 4096)
    ((heapEnd + 4095) % 2 ^ 32 / 4096 -
      ((heapEnd + (sbrkInc inc).toNat) % 2 ^ 32 + 4095) % 2 ^ 32 / 4096)

/-- `context_sbrk`: the result, the new end of the heap and the memory. -/
def contextSbrk (m : Mem) (pd heapEnd : Nat) (inc : BitVec 32) : Option (Nat × Nat × Mem) :=
  if inc = 0 then some (heapEnd, heapEnd, m)
  else
    let newHeapEnd := (heapEnd + (sbrkInc inc).toNat) % 2 ^ 32
    if 0 ≤ (sbrkInc inc).toInt then
      ((growRange heapEnd inc).foldlM (fun m page => growPage m pd page) m).map
        fun m => (heapEnd, newHeapEnd, m)
    else
      ((shrinkRange heapEnd inc).foldlM (fun m page => shrinkPage m pd page) m).map
        fun m => (heapEnd, newHeapEnd, m)

/-! ### Shared memory -/

/-- `struct shm_sg`, without the checksum. -/
structure ShmSg where
  size : Nat
  users : Int
  offset : Nat
  keptAlive : Bool
  phys : List Nat

/-- The number of pages of an object. -/
def ShmSg.pages (sg : ShmSg) : Nat := pagesOf sg.size

/-- `sg->phys[0]` to `sg->phys[pages - 1]`. -/
def ShmSg.frames (sg : ShmSg) : List Nat := sg.phys.take sg.pages

/-- `vmmc_create_shm`; `junk` is what `kmalloc` leaves in `phys`. -/
def vmmcCreateShm (sz : Nat) (junk : Nat → Nat) : ShmSg :=
  { size := sz, users := 0, offset := 0, keptAlive := false,
    phys := (List.range (pagesOf sz)).map fun i => junk i % 2 ^ 20 }

/-- One page of `vmmc_make_shm` that is present: the checks, and one more reference. -/
def takeShmPage (m : Mem) (pd vaddr : Nat) : Option (Nat × Mem) :=
  let r := vmmcAddressMapped m pd vaddr
  if r.1 &&& (vmmUr ||| vmmUw) = 0 then none
  else if ¬ vaddr < physBase then none
  else if pmmAlloced m.pmm r.2 = false then none
  else (m.use r.2).map fun m => (r.2, m)

/-- One page of `vmmc_make_shm`: its frame, with one more reference. -/
def makeShmPage (m : Mem) (pd vaddr : Nat) : Option (Nat × Mem) :=
  if (vmmcAddressMapped m pd vaddr).1 = 0 then
    (vmmcDoLazyMap m pd vaddr).bind fun (done, m) => if done then takeShmPage m pd vaddr else none
  else takeShmPage m pd vaddr

/-- The pages that the lists of addresses and page counts name. -/
def makeShmPages (areas : List (Nat × Int)) : List Nat :=
  areas.flatMap fun r =>
    (List.range r.2.toNat).map fun j => (r.1 / 4096 * 4096 + j * 4096) % 2 ^ 32

/-- The page count of the object. -/
def makeShmCount (areas : List (Nat × Int)) : Int := (areas.map Prod.snd).sum

theorem length_makeShmPages {areas : List (Nat × Int)} (h : ∀ r ∈ areas, 0 ≤ r.2) :
    ((makeShmPages areas).length : Int) = makeShmCount areas := by
  induction areas with
  | nil => rfl
  | cons r areas ih =>
      have hr : 0 ≤ r.2 := h r (by simp)
      have ih := ih fun r hr => h r (by simp [hr])
      simp only [makeShmPages, makeShmCount, List.flatMap_cons, List.length_append, List.length_map,
        List.length_range, List.map_cons, List.sum_cons] at ih ⊢
      omega

/-- `vmmc_make_shm`. -/
def vmmcMakeShm (m : Mem) (pd : Nat) (areas : List (Nat × Int)) (offset : Nat) :
    Option (ShmSg × Mem) :=
  ((makeShmPages areas).foldlM
    (fun (r : List Nat × Mem) vaddr =>
      (makeShmPage r.2 pd vaddr).map fun r' => (r.1 ++ [r'.1], r'.2)) ([], m)).map fun r =>
    ({ size := (makeShmCount areas * 4096 % 2 ^ 32).toNat, users := 1, offset := offset,
       keptAlive := false, phys := r.1 }, r.2)

/-- `pmm_use` of a list of frames. -/
def useAll (m : Mem) (fs : List Nat) : Option Mem := fs.foldlM (fun m f => m.use f) m

/-- `pmm_free` of a list of frames. -/
def freeAll (m : Mem) (fs : List Nat) : Option Mem := fs.foldlM (fun m f => m.free f) m

/-- `pmm_alloc` of `n` frames. -/
def allocAll (m : Mem) (n : Nat) : Option (List Nat × Mem) :=
  (List.range n).foldlM
    (fun (r : List Nat × Mem) _ => r.2.alloc.map fun r' => (r.1 ++ [r'.1], r'.2)) ([], m)

/-- `vmmc_open_shm`: the address of the mapping, the object and the memory. -/
def vmmcOpenShm (m : Mem) (pd : Nat) (sg : ShmSg) (flags : BitVec 32) :
    Option (Nat × ShmSg × Mem) :=
  if sg.keptAlive ∨ sg.users ≠ 0 then
    (vmmcUserMapSg m pd sg.frames flags).bind fun (start, m) =>
      let mapping := (start + sg.offset) % 2 ^ 32
      if mapping = 0 then some (0, sg, m)
      else if sg.keptAlive then
        some (mapping, { sg with keptAlive := false, users := sg.users + 1 }, m)
      else (useAll m sg.frames).map fun m => (mapping, { sg with users := sg.users + 1 }, m)
  else
    (allocAll m sg.pages).bind fun (fs, m) =>
      (vmmcUserMapSg m pd fs flags).bind fun (start, m) =>
        let mapping := (start + sg.offset) % 2 ^ 32
        let sg := { sg with phys := fs }
        if mapping = 0 then (freeAll m fs).map fun m => (0, sg, m)
        else some (mapping, { sg with users := sg.users + 1 }, m)

/-- The second half of `vmmc_close_shm` and of `vmmc_unmake_shm`; the object is `none` when it is
freed. -/
def releaseShm (m : Mem) (sg : ShmSg) (destroy : Bool) : Option (Option ShmSg × Mem) :=
  let sg := { sg with users := sg.users - 1 }
  if sg.users = 0 ∧ destroy = false then some (some { sg with keptAlive := true }, m)
  else (freeAll m sg.frames).map fun m => (if sg.users = 0 then none else some sg, m)

/-- `vmmc_close_shm`. -/
def vmmcCloseShm (m : Mem) (pd : Nat) (sg : ShmSg) (virt : Nat) (destroy : Bool) :
    Option (Option ShmSg × Mem) :=
  (vmmcUserUnmap m pd ((virt + 2 ^ 32 - sg.offset) % 2 ^ 32) sg.size).bind fun m =>
    releaseShm m sg destroy

/-- `vmmc_unmake_shm`. -/
def vmmcUnmakeShm (m : Mem) (sg : ShmSg) (destroy : Bool) : Option (Option ShmSg × Mem) :=
  releaseShm m sg destroy

end Muxomucota.Mmu
