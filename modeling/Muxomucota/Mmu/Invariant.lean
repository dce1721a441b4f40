import Muxomucota.Mmu.Access
import Muxomucota.Mmu.Clone
import Muxomucota.Mmu.Objects

/-!
# Mmu — the invariant of the whole memory

`World.Inv` says that every frame in use is accounted for: the directories, page tables and pages
of the live contexts, and the references that shared-memory objects keep, are at most as many as
the user counts say.  `World.StepOk` is what a step needs to keep it that way, and `Came` says where
the frame of a page comes from.  There is one lemma for each kind of step.
-/

namespace Muxomucota.Mmu
open Memory Pmm Lib

namespace World

/-- The invariant. -/
structure Inv (w : World) : Prop where
  owned : Owned w.spaces (shmRefs w.shm w.made) 0 w.mem
  objects : ∀ id sg, w.shm id = some sg →
    sg.phys.length = sg.pages ∧ sg.offset < 4096 ∧ ∀ f ∈ sg.phys, f < 2 ^ 20
  unborn : ∀ c, w.nextContext ≤ c → w.contexts c = none

/-- **What a step needs.** -/
def StepOk (w : World) : Op → Prop
  -- `vmmc_do_cow` takes the 4 MiB entries of the kernel for page tables
  | .fault _ address _ => address < physBase
  -- `vmmc_user_unmap` leaves the last page of a page table mapped
  | .sbrk c inc => ∀ x, w.contexts c = some x → (sbrkInc inc).toInt < 0 →
      ∀ v ∈ shrinkRange x.heapEnd inc, v < userPdes * 1024 ∧
        (maps w.spaces w.mem c v ≠ none → v % 1024 ≠ 1023)
  -- the page counts are not checked
  | .shmMake _ _ areas _ => (∀ a ∈ areas, 0 ≤ a.2) ∧ makeShmCount areas < 2 ^ 20
  -- the frames may have been given back, and be in use again
  | .shmOpen _ id _ => ∀ sg, w.shm id = some sg → sg.keptAlive = false → sg.users ≠ 0 →
      ∀ f ∈ sg.phys, w.mem.pmm.users f ≠ 0 ∧ ¬ Structural w.spaces w.mem f
  -- the pages that are unmapped need not be those of the object
  | .shmClose c id virt _ => ∀ sg, w.shm id = some sg →
      (virt + 2 ^ 32 - sg.offset) % 2 ^ 32 + sg.size ≤ physBase ∧
      ∀ f, sg.phys.count f ≤ rangeCount w.spaces w.mem c ((virt + 2 ^ 32 - sg.offset) % 2 ^ 32 / 4096)
        (unmapEnd ((virt + 2 ^ 32 - sg.offset) % 2 ^ 32) sg.size) f
  -- nothing says that `vmmc_make_shm` made the object
  | .shmUnmake _ id _ => w.shm id ≠ none → w.made id = true
  | _ => True

/-- Where the frame of a page of context `c` comes from: it was a page of `c` before the step,
nobody used it, it was a page of the parent at the fork, or a frame of the object opened. -/
inductive Came (w : World) (ret : Nat) (op : Op) (c f : Nat) : Prop where
  | already (v : Nat) (h : maps w.spaces w.mem c v = some f)
  | fresh (h : w.mem.pmm.users f = 0)
  | forked (p v : Nat) (isFork : op = .fork p) (child : c = w.nextContext)
      (h : maps w.spaces w.mem p v = some f)
  | opened (id : Nat) (flags : BitVec 32) (sg : ShmSg) (isOpen : op = .shmOpen c id flags)
      (object : w.shm id = some sg) (live : sg.keptAlive = true ∨ sg.users ≠ 0) (hf : f ∈ sg.phys)
      (done : ret ≠ 0)

variable {w w' : World} {m m' : Mem} {c ret : Nat} {x : VmmContext} {op : Op} {k : Kernel}

theorem spaces_of (h : w.contexts c = some x) : w.spaces c = some x.cr3 := by
  rw [Kernel.spaces, h]; rfl

theorem spaces_none (h : w.contexts c = none) : w.spaces c = none := by
  rw [Kernel.spaces, h]; rfl

theorem spaces_addContext (k : Kernel) (cr3 heapEnd : Nat) (m : Mem) :
    (k.addContext cr3 heapEnd m).spaces = Function.update k.spaces k.nextContext (some cr3) := by
  funext c
  unfold Kernel.spaces Kernel.addContext
  by_cases hc : c = k.nextContext
  · subst hc; simp
  · simp [hc]

/-- The new heap end of a context is not seen by the page tables. -/
theorem spaces_setHeapEnd (k : Kernel) (h : k.contexts c = some x) (m : Mem) (heapEnd : Nat) :
    (k.setHeapEnd c x heapEnd m).spaces = k.spaces := by
  funext c'
  unfold Kernel.spaces Kernel.setHeapEnd
  by_cases hc : c' = c
  · subst hc; simp [h]
  · simp [hc]

theorem unborn_update (h : w.Inv) (hx : w.contexts c = some x) (y : Option VmmContext) :
    ∀ c', w.nextContext ≤ c' → Function.update w.contexts c y c' = none := by
  intro c' hc'
  have hne : c' ≠ c := by
    rintro rfl
    rw [h.unborn _ hc'] at hx
    cases hx
  rw [Function.update_of_ne hne, h.unborn _ hc']

theorem came_of_extended {m' : Mem} (hx : Extended w.spaces w.mem m') {v f : Nat}
    (hf : maps w.spaces m' c v = some f) : Came w ret op c f :=
  (hx.fresh c v f hf).elim (.already v) .fresh

/-- The world after a step of the kernel. -/
def after (w : World) (op : Op) (ret : Nat) (k : Kernel) : World :=
  { toKernel := k, made := w.madeAfter op, party := w.partyAfter ret op }

theorem step_eq (h : w.step op = some w') :
    ∃ ret k, w.toKernel.step op = some (ret, k) ∧ w' = w.after op ret k := by
  obtain ⟨⟨ret, k⟩, hk, rfl⟩ := Option.map_eq_some_iff.mp h
  exact ⟨ret, k, hk, rfl⟩

/-- The conclusion of the step lemmas. -/
def Preserved (w : World) (op : Op) (ret : Nat) (k : Kernel) : Prop :=
  (w.after op ret k).Inv ∧ ∀ c v f, maps k.spaces k.mem c v = some f → Came w ret op c f

/-! ### Processes -/

theorem create_step (h : w.Inv) (hs : w.toKernel.step .create = some (ret, k)) :
    w.Preserved .create ret k := by
  obtain ⟨⟨pd, m₁⟩, hm₁, hs⟩ := Option.bind_eq_some_iff.mp hs
  obtain ⟨m₂, hm₂, hs⟩ := Option.map_eq_some_iff.mp hs
  cases hs
  have hnone := spaces_none (h.unborn _ le_rfl)
  obtain ⟨h₁, -, hp₁, -⟩ := create_spec h.owned hnone hm₁
  obtain ⟨m', hm', hu⟩ := processCreateBasicMappings_spec h₁ (Function.update_self ..)
  rw [hm'] at hm₂
  cases hm₂
  have hsp := spaces_addContext w.toKernel pd 0 m₂
  refine ⟨⟨by rw [after, hsp]; exact hu.owned, h.objects, fun c hc => ?_⟩, fun c v f hf => ?_⟩
  · have hc : w.nextContext + 1 ≤ c := hc
    have hne : c ≠ w.nextContext := by omega
    exact (Function.update_of_ne hne _ _).trans (h.unborn c (by omega))
  · refine .already v ?_
    rwa [hsp, maps, show (w.toKernel.addContext pd 0 m₂).mem = m₂ from rfl, hu.pages, hp₁] at hf

/-- The state between the two halves of a fork: the child has a directory, and nothing else. -/
structure ForkBegun (w : World) (c : Nat) (x : VmmContext) (pd : Nat) (m : Mem) : Prop where
  owned : Owned (Function.update w.spaces w.nextContext (some pd)) (shmRefs w.shm w.made) 0 m
  parent : Function.update w.spaces w.nextContext (some pd) c = some x.cr3
  ne : c ≠ w.nextContext
  noTables : ∀ i, tables (Function.update w.spaces w.nextContext (some pd)) m w.nextContext i = none
  tables : tables (Function.update w.spaces w.nextContext (some pd)) m = tables w.spaces w.mem
  pages : pages (Function.update w.spaces w.nextContext (some pd)) m = pages w.spaces w.mem
  free : w.mem.pmm.users pd = 0
  same : ∀ g, g ≠ pd → m.pmm.users g = w.mem.pmm.users g ∧ m.ram g = w.mem.ram g
  cow : ∀ g, m.pmm.cow g = w.mem.pmm.cow g

theorem fork_begins {pd : Nat} (h : w.Inv) (hx : w.contexts c = some x)
    (hm : createVmmContextArch w.kpd w.mem = some (pd, m)) : w.ForkBegun c x pd m := by
  have hnone := spaces_none (h.unborn _ le_rfl)
  have hce : c ≠ w.nextContext := by
    rintro rfl
    rw [h.unborn _ le_rfl] at hx
    cases hx
  obtain ⟨ho, ht, hp, hfree, -, hsame, hcow, -⟩ := create_spec h.owned hnone hm
  refine ⟨ho, by rw [Function.update_of_ne hce, spaces_of hx], hce, fun i => ?_, ht, hp, hfree, hsame,
    hcow⟩
  rw [ht, tables, hnone]
  rfl

theorem fork_step (h : w.Inv) (hs : w.toKernel.step (.fork c) = some (ret, k)) :
    w.Preserved (.fork c) ret k := by
  obtain ⟨x, hx, hs⟩ := Option.bind_eq_some_iff.mp hs
  obtain ⟨⟨pd, m₁⟩, hm₁, hs⟩ := Option.bind_eq_some_iff.mp hs
  obtain ⟨m', hm', hs⟩ := Option.map_eq_some_iff.mp hs
  cases hs
  have hb := fork_begins h hx hm₁
  obtain ⟨h₂, hcl⟩ := clone_spec hb.owned hb.parent (Function.update_self ..) hb.ne hb.noTables hm'
  have hsp := spaces_addContext w.toKernel pd x.heapEnd m'
  refine ⟨⟨by rw [after, hsp]; exact h₂, h.objects, fun c' hc' => ?_⟩, fun c' v f hf => ?_⟩
  · have hc' : w.nextContext + 1 ≤ c' := hc'
    have hne : c' ≠ w.nextContext := by omega
    exact (Function.update_of_ne hne _ _).trans (h.unborn c' (by omega))
  · rw [hsp, maps, show (w.toKernel.addContext pd x.heapEnd m').mem = m' from rfl] at hf
    by_cases hchild : c' = w.nextContext
    · subst hchild
      rw [hcl.child, map_cloned_frame, hb.pages] at hf
      exact .forked c v rfl rfl hf
    · by_cases hparent : c' = c
      · subst hparent
        rw [hcl.parent, map_frozen_frame, hb.pages] at hf
        exact .already v hf
      · rw [hcl.other c' v hchild hparent, hb.pages] at hf
        exact .already v hf

theorem exec_step (h : w.Inv) (hs : w.toKernel.step (.exec c) = some (ret, k)) :
    w.Preserved (.exec c) ret k := by
  obtain ⟨x, hx, hs⟩ := Option.bind_eq_some_iff.mp hs
  obtain ⟨m', hm', hs⟩ := Option.map_eq_some_iff.mp hs
  cases hs
  obtain ⟨m₁, hcl, hu⟩ := execClear_spec h.owned (spaces_of hx) hm'
  refine ⟨⟨hu.owned, h.objects, h.unborn⟩, fun c' v f hf => ?_⟩
  have hf : maps w.spaces m' c' v = some f := hf
  rw [maps, hu.pages, hcl.pages] at hf
  split at hf
  · cases hf
  · exact .already v hf

theorem exit_step (h : w.Inv) (hs : w.toKernel.step (.exit c) = some (ret, k)) :
    w.Preserved (.exit c) ret k := by
  obtain ⟨x, hx, hs⟩ := Option.bind_eq_some_iff.mp hs
  obtain ⟨m', hm', hs⟩ := Option.map_eq_some_iff.mp hs
  cases hs
  obtain ⟨h', -, hp, -⟩ := destroy_spec h.owned (spaces_of hx) hm'
  have hsp : ({ w.toKernel with mem := m', contexts := Function.update w.contexts c none } :
      Kernel).spaces = Function.update w.spaces c none := by
    funext c'
    unfold Kernel.spaces
    by_cases hc : c' = c
    · subst hc; simp
    · simp [hc]
  refine ⟨⟨by rw [after, hsp]; exact h', h.objects, unborn_update h hx none⟩, fun c' v f hf => ?_⟩
  rw [hsp, maps, hp] at hf
  split at hf
  · cases hf
  · exact .already v hf

/-! ### Memory of one process -/

/-- A step that only takes new frames for the pages of one context. -/
theorem extended_step (h : w.Inv) (ho : Owned w.spaces (shmRefs w.shm w.made) 0 m')
    (hx : Extended w.spaces w.mem m') (hmade : w.madeAfter op = w.made)
    (hk : k = { w.toKernel with mem := m' }) : w.Preserved op ret k := by
  subst hk
  refine ⟨⟨?_, h.objects, h.unborn⟩, fun c v f hf => came_of_extended hx hf⟩
  rw [after, hmade]
  exact ho

theorem loadPage_step {base offset : Nat} {bytes : List (BitVec 8)} (h : w.Inv)
    (hs : w.toKernel.step (.loadPage c base offset bytes) = some (ret, k)) :
    w.Preserved (.loadPage c base offset bytes) ret k := by
  obtain ⟨x, hx, hs⟩ := Option.bind_eq_some_iff.mp hs
  obtain ⟨m', hm', hs⟩ := Option.map_eq_some_iff.mp hs
  cases hs
  obtain ⟨ho, f, e, hn⟩ := loadImagePage_spec h.owned (spaces_of hx) hm'
  exact extended_step h ho hn.extended rfl rfl

theorem fault_step {address : Nat} {write : Bool} (h : w.Inv)
    (ok : w.StepOk (.fault c address write))
    (hs : w.toKernel.step (.fault c address write) = some (ret, k)) :
    w.Preserved (.fault c address write) ret k := by
  obtain ⟨x, hx, hs⟩ := Option.bind_eq_some_iff.mp hs
  obtain ⟨⟨b, m'⟩, hm', hs⟩ := Option.map_eq_some_iff.mp hs
  cases hs
  obtain ⟨ho, hf⟩ := fault_spec h.owned (spaces_of hx) ok hm'
  exact extended_step h ho hf.extended rfl rfl

theorem store_step {address : Nat} {byte : BitVec 8} (h : w.Inv)
    (hs : w.toKernel.step (.store c address byte) = some (ret, k)) :
    w.Preserved (.store c address byte) ret k := by
  obtain ⟨x, hx, hs⟩ := Option.bind_eq_some_iff.mp hs
  obtain ⟨m', hm', hs⟩ := Option.map_eq_some_iff.mp hs
  cases hs
  obtain ⟨e, -, -, -, ho, hp, -, hpmm, -⟩ := userStore_spec h.owned (spaces_of hx) hm'
  exact extended_step h ho (.of_pages hp fun g hg => by rwa [hpmm]) rfl rfl

theorem setHeapTop_step {address : Nat} (h : w.Inv)
    (hs : w.toKernel.step (.setHeapTop c address) = some (ret, k)) :
    w.Preserved (.setHeapTop c address) ret k := by
  obtain ⟨x, hx, hs⟩ := Option.map_eq_some_iff.mp hs
  cases hs
  have hsp := spaces_setHeapEnd w.toKernel hx w.mem (address % 2 ^ 32)
  refine ⟨⟨?_, h.objects, unborn_update h hx _⟩, fun c' v f hf => .already v ?_⟩
  · rw [after, hsp]
    exact h.owned
  · rwa [hsp] at hf

theorem sbrk_step {inc : BitVec 32} (h : w.Inv) (ok : w.StepOk (.sbrk c inc))
    (hs : w.toKernel.step (.sbrk c inc) = some (ret, k)) : w.Preserved (.sbrk c inc) ret k := by
  obtain ⟨x, hx, hs⟩ := Option.bind_eq_some_iff.mp hs
  obtain ⟨⟨r, heapEnd, m'⟩, hm', hs⟩ := Option.map_eq_some_iff.mp hs
  cases hs
  have hc := spaces_of hx
  have hsp := spaces_setHeapEnd w.toKernel hx m' heapEnd
  suffices Owned w.spaces (shmRefs w.shm w.made) 0 m' ∧
      ∀ c' v f, maps w.spaces m' c' v = some f → Came w ret (.sbrk c inc) c' f by
    refine ⟨⟨by rw [after, hsp]; exact this.1, h.objects, unborn_update h hx _⟩,
      fun c' v f hf => ?_⟩
    rw [hsp] at hf
    exact this.2 c' v f hf
  unfold contextSbrk at hm'
  split at hm'
  · cases hm'
    exact ⟨h.owned, fun c v f hf => .already v hf⟩
  · dsimp only at hm'
    split at hm'
    · obtain ⟨b, hb, hm'⟩ := Option.map_eq_some_iff.mp hm'
      cases hm'
      obtain ⟨ho, hxt⟩ := growRange_spec h.owned hc hb
      exact ⟨ho, fun c v f hf => came_of_extended hxt hf⟩
    · rename_i hneg
      obtain ⟨b, hb, hm'⟩ := Option.map_eq_some_iff.mp hm'
      cases hm'
      obtain ⟨ho, hsh⟩ := shrinkRange_spec h.owned hc (ok x hx (not_le.mp hneg)) hb
      refine ⟨ho, fun c' v f hf => .already v ?_⟩
      rw [maps, hsh.pages] at hf
      split at hf
      · cases hf
      · exact hf

/-! ### Shared memory -/

/-- One object changes. -/
theorem setShm_step {id : Nat} {sg : Option ShmSg} {flag : Bool} {r : Nat} {m' : Mem} (h : w.Inv)
    (hk : k = w.toKernel.setShm id sg m')
    (hmade : w.madeAfter op = Function.update w.made id flag)
    (ho : ∃ d, Owned w.spaces (shmRefs w.shm w.made) d m' ∧
      ∀ g, d g + objectRefs flag sg g ≤ objectRefs (w.made id) (w.shm id) g)
    (hsg : ∀ x, sg = some x →
      x.phys.length = x.pages ∧ x.offset < 4096 ∧ ∀ f ∈ x.phys, f < 2 ^ 20)
    (hcame : ∀ c v f, maps w.spaces m' c v = some f → Came w r op c f) : w.Preserved op r k := by
  subst hk
  obtain ⟨d, ho, hbal⟩ := ho
  refine ⟨⟨?_, fun j x hx => ?_, h.unborn⟩, hcame⟩
  · rw [after, hmade]
    exact ho.storeObject hbal
  · have hx : Function.update w.shm id sg j = some x := hx
    by_cases hj : j = id
    · subst hj
      exact hsg x (by rwa [Function.update_self] at hx)
    · exact h.objects j x (by rwa [Function.update_of_ne hj] at hx)

/-- Nothing happens. -/
theorem same_step (h : w.Inv) (hk : k = w.toKernel) (hmade : w.madeAfter op = w.made) :
    w.Preserved op ret k := by
  subst hk
  refine ⟨⟨?_, h.objects, h.unborn⟩, fun c v f hf => .already v hf⟩
  rw [after, hmade]
  exact h.owned

theorem shmCreate_step {id sz : Nat} {junk : Nat → Nat} (h : w.Inv)
    (hs : w.toKernel.step (.shmCreate c id sz junk) = some (ret, k)) :
    w.Preserved (.shmCreate c id sz junk) ret k := by
  simp only [Kernel.step] at hs
  split at hs
  · cases hs
    refine setShm_step h rfl rfl ⟨0, h.owned, fun g => ?_⟩ (fun x hx => ?_)
      fun c v f hf => .already v hf
    · have := objectRefs_nonneg (w.made ret) (w.shm ret) g
      simpa [objectRefs, vmmcCreateShm] using this
    · cases hx
      refine ⟨by simp [vmmcCreateShm, ShmSg.pages], by simp [vmmcCreateShm], fun f hf => ?_⟩
      obtain ⟨i, -, rfl⟩ := List.mem_map.mp hf
      exact Nat.mod_lt _ (by decide)
  · cases hs

theorem shmMake_step {id offset : Nat} {areas : List (Nat × Int)} (h : w.Inv)
    (ok : w.StepOk (.shmMake c id areas offset))
    (hs : w.toKernel.step (.shmMake c id areas offset) = some (ret, k)) :
    w.Preserved (.shmMake c id areas offset) ret k := by
  obtain ⟨x, hx, hs⟩ := Option.bind_eq_some_iff.mp hs
  split at hs
  · rename_i hinval
    cases hs
    exact same_step h rfl (if_pos hinval)
  · rename_i hinval
    split at hs
    · rename_i hnone
      obtain ⟨⟨sg, m'⟩, hm', hs⟩ := Option.map_eq_some_iff.mp hs
      cases hs
      obtain ⟨ho, hxt, hlen, hmaps⟩ := makeShm_spec h.owned (spaces_of hx) hm'
      obtain ⟨r, -, hsg⟩ := Option.map_eq_some_iff.mp hm'
      have hsize : sg.size = (makeShmCount areas * 4096 % 2 ^ 32).toNat ∧ sg.offset = offset ∧
          sg.keptAlive = false := by
        cases hsg
        exact ⟨rfl, rfl, rfl⟩
      refine setShm_step h rfl (if_neg hinval) ⟨_, ho, fun g => ?_⟩ (fun y hy => ?_)
        fun c v f hf => came_of_extended hxt hf
      · have := objectRefs_nonneg (w.made ret) (w.shm ret) g
        simpa [objectRefs, hsize] using this
      · cases hy
        refine ⟨?_, by omega, fun f hf => ?_⟩
        · have hcount := length_makeShmPages ok.1
          have hlt := ok.2
          rw [hlen, ShmSg.pages, hsize.1, pagesOf]
          omega
        · obtain ⟨v, hv⟩ := hmaps f hf
          obtain ⟨e, -, rfl⟩ := Option.map_eq_some_iff.mp hv
          exact frameOf_lt e
    · cases hs

/-- The frames of an object that has users or is kept alive are in use. -/
theorem open_frames {id : Nat} {flags : BitVec 32} {sg : ShmSg} (h : w.Inv)
    (ok : w.StepOk (.shmOpen c id flags)) (hsg : w.shm id = some sg)
    (hlive : sg.keptAlive = true ∨ sg.users ≠ 0) (f : Nat) (hf : f ∈ sg.frames) :
    w.mem.pmm.users f ≠ 0 ∧ ¬ Structural w.spaces w.mem f ∧ f < 2 ^ 20 := by
  obtain ⟨hlen, -, hsmall⟩ := h.objects id sg hsg
  rw [frames_eq hlen] at hf
  cases hk : sg.keptAlive with
  | true =>
      obtain ⟨h₁, h₂⟩ := h.owned.kept_frame hsg hk hf
      exact ⟨h₁, h₂, hsmall f hf⟩
  | false =>
      obtain ⟨h₁, h₂⟩ := ok sg hsg hk (by simpa [hk] using hlive) f hf
      exact ⟨h₁, h₂, hsmall f hf⟩

theorem shmOpen_step {id : Nat} {flags : BitVec 32} (h : w.Inv) (ok : w.StepOk (.shmOpen c id flags))
    (hs : w.toKernel.step (.shmOpen c id flags) = some (ret, k)) :
    w.Preserved (.shmOpen c id flags) ret k := by
  obtain ⟨x, hx, hs⟩ := Option.bind_eq_some_iff.mp hs
  cases hsg : w.shm id with
  | none =>
      rw [hsg] at hs
      cases hs
      exact same_step h rfl (by simp [madeAfter, hsg])
  | some sg =>
      rw [hsg] at hs
      obtain ⟨⟨r, sg', m'⟩, hm', hs⟩ := Option.map_eq_some_iff.mp hs
      cases hs
      obtain ⟨hlen, hoff, hsmall⟩ := h.objects id sg hsg
      have hframes := frames_eq hlen
      by_cases hlive : sg.keptAlive = true ∨ sg.users ≠ 0
      · have hfs := open_frames h ok hsg hlive
        have hmade : w.madeAfter (.shmOpen c id flags) = Function.update w.made id (w.made id) := by
          simp [madeAfter, hsg, hlive]
        obtain ⟨-, ⟨rfl, rfl, rfl⟩ | ⟨hne, rfl, ⟨d, ho, hd⟩, hother, hown⟩⟩ :=
          openShm_live h.owned (spaces_of hx) hlive hoff hfs hm'
        · refine setShm_step h rfl hmade ⟨0, h.owned, fun g => ?_⟩ (fun y hy => ?_)
            fun c v f hf => .already v hf
          · simp [hsg]
          · cases hy
            exact ⟨hlen, hoff, hsmall⟩
        · refine setShm_step h rfl hmade ⟨d, ho, fun g => ?_⟩ (fun y hy => ?_) fun c' v f hf => ?_
          · have := hd g
            rw [hframes] at this
            cases hk : sg.keptAlive <;> cases hm : w.made id <;>
              simp [hsg, objectRefs, hk] at this ⊢ <;> omega
          · cases hy
            exact ⟨hlen, hoff, hsmall⟩
          · by_cases hcc : c' = c
            · subst hcc
              rcases hown v f hf with hf | hf
              · exact .already v hf
              · exact .opened id flags sg rfl hsg hlive (hframes ▸ hf) hne
            · rw [hother c' hcc] at hf
              exact .already v hf
      · have hmade : w.madeAfter (.shmOpen c id flags) = Function.update w.made id false := by
          simp only [madeAfter, hsg]
          rw [if_neg hlive]
        have hkept : sg.keptAlive = false := by simpa using fun h' => hlive (.inl h')
        obtain ⟨hxt, ⟨d, ho, hd⟩, hlen', hnew, hsg'⟩ :=
          openShm_fresh h.owned (spaces_of hx) hlive hoff hm'
        have hfields : sg'.keptAlive = false ∧ sg'.pages = sg.pages ∧ sg'.offset = sg.offset := by
          rcases hsg' with ⟨hsg', -⟩ | ⟨hsg', -⟩ <;> rw [hsg'] <;> exact ⟨hkept, rfl, rfl⟩
        refine setShm_step h rfl hmade ⟨d, ho, fun g => ?_⟩ (fun y hy => ?_)
          fun c v f hf => came_of_extended hxt hf
        · have h₁ := objectRefs_nonneg (w.made id) (w.shm id) g
          have h₂ := hd g
          have h₃ : objectRefs false (some sg') g = 0 := by simp [objectRefs, hfields.1]
          omega
        · cases hy
          exact ⟨by rw [hlen', hfields.2.1], by rw [hfields.2.2]; exact hoff,
            fun f hf => (hnew f hf).2⟩

/-- What `releaseShm` leaves of an object is still one. -/
theorem release_ok {sg : ShmSg} {sg' : Option ShmSg}
    (hok : sg.phys.length = sg.pages ∧ sg.offset < 4096 ∧ ∀ f ∈ sg.phys, f < 2 ^ 20)
    (h : ∀ x, sg' = some x → x.size = sg.size ∧ x.phys = sg.phys ∧ x.offset = sg.offset) (x : ShmSg)
    (hx : sg' = some x) : x.phys.length = x.pages ∧ x.offset < 4096 ∧ ∀ f ∈ x.phys, f < 2 ^ 20 := by
  obtain ⟨h₁, h₂, h₃⟩ := h x hx
  rw [ShmSg.pages, h₁, h₂, h₃]
  exact hok

theorem shmClose_step {id virt : Nat} {destroy : Bool} (h : w.Inv)
    (ok : w.StepOk (.shmClose c id virt destroy))
    (hs : w.toKernel.step (.shmClose c id virt destroy) = some (ret, k)) :
    w.Preserved (.shmClose c id virt destroy) ret k := by
  obtain ⟨x, hx, hs⟩ := Option.bind_eq_some_iff.mp hs
  cases hsg : w.shm id with
  | none =>
      rw [hsg] at hs
      cases hs
      exact same_step h rfl rfl
  | some sg =>
      rw [hsg] at hs
      dsimp only at hs
      split at hs
      · obtain ⟨⟨sg', m'⟩, hm', hs⟩ := Option.map_eq_some_iff.mp hs
        cases hs
        obtain ⟨m₁, hm₁, hm'⟩ := Option.bind_eq_some_iff.mp hm'
        obtain ⟨hbelow, hcover⟩ := ok sg hsg
        have hok := h.objects id sg hsg
        have hu := userUnmap_spec h.owned (spaces_of hx) hbelow hm₁
        obtain ⟨⟨d, ho, hbal⟩, hram, hfields⟩ := releaseShm_spec hu.owned hok.1 (fun g => by
          have := hcover g
          simp only [counts, Pi.zero_apply]
          omega) hm' (w.made id)
        refine setShm_step h rfl (Function.update_eq_self _ _).symm ⟨d, ho, by rwa [hsg]⟩
          (release_ok hok hfields) fun c' v f hf => .already v ?_
        rw [maps, (views_of_ram hram).2, hu.pages] at hf
        split at hf
        · cases hf
        · exact hf
      · cases hs
        exact same_step h rfl rfl

theorem shmUnmake_step {id : Nat} {destroy : Bool} (h : w.Inv)
    (ok : w.StepOk (.shmUnmake c id destroy))
    (hs : w.toKernel.step (.shmUnmake c id destroy) = some (ret, k)) :
    w.Preserved (.shmUnmake c id destroy) ret k := by
  obtain ⟨x, hx, hs⟩ := Option.bind_eq_some_iff.mp hs
  cases hsg : w.shm id with
  | none =>
      rw [hsg] at hs
      cases hs
      have hk : w.toKernel = w.toKernel.setShm id none w.mem := by
        rw [Kernel.setShm, ← hsg, Function.update_eq_self]
      exact setShm_step h hk rfl ⟨0, h.owned, fun g => by simp [objectRefs, hsg]⟩ (by simp)
        fun c v f hf => .already v hf
  | some sg =>
      rw [hsg] at hs
      obtain ⟨⟨sg', m'⟩, hm', hs⟩ := Option.map_eq_some_iff.mp hs
      cases hs
      have hok := h.objects id sg hsg
      have hmade := ok (by simp [hsg])
      obtain ⟨⟨d, ho, hbal⟩, hram, hfields⟩ := releaseShm_spec (h.owned.unmake hsg hmade) hok.1
        (fun g => by omega) hm' false
      have hbal' : ∀ g, d g + objectRefs false sg' g ≤
          objectRefs (Function.update w.made id false id) (w.shm id) g := by
        rwa [Function.update_self, hsg]
      have hstore := ho.storeObject hbal'
      rw [Function.update_idem] at hstore
      refine ⟨⟨hstore, fun j y hy => ?_, h.unborn⟩, fun c' v f hf => .already v ?_⟩
      · have hy : Function.update w.shm id sg' j = some y := hy
        by_cases hj : j = id
        · subst hj
          rw [Function.update_self] at hy
          exact release_ok hok hfields y hy
        · rw [Function.update_of_ne hj] at hy
          exact h.objects j y hy
      · have hf : maps w.spaces m' c' v = some f := hf
        rwa [maps, (views_of_ram hram).2] at hf

/-! ### Every step -/

/-- **One step keeps the invariant, and takes no page from anybody else.** -/
theorem preserved_step (h : w.Inv) (ok : w.StepOk op) (hs : w.toKernel.step op = some (ret, k)) :
    w.Preserved op ret k := by
  cases op with
  | create => exact create_step h hs
  | loadPage c base offset bytes => exact loadPage_step h hs
  | setHeapTop c address => exact setHeapTop_step h hs
  | fork c => exact fork_step h hs
  | exec c => exact exec_step h hs
  | exit c => exact exit_step h hs
  | fault c address write => exact fault_step h ok hs
  | store c address byte => exact store_step h hs
  | sbrk c inc => exact sbrk_step h ok hs
  | shmCreate c id sz junk => exact shmCreate_step h hs
  | shmMake c id areas offset => exact shmMake_step h ok hs
  | shmOpen c id flags => exact shmOpen_step h ok hs
  | shmClose c id virt destroy => exact shmClose_step h ok hs
  | shmUnmake c id destroy => exact shmUnmake_step h ok hs

theorem inv_step (h : w.Inv) (ok : w.StepOk op) (hs : w.step op = some w') : w'.Inv := by
  obtain ⟨ret, k, hk, rfl⟩ := step_eq hs
  exact (preserved_step h ok hk).1

theorem inv_boot (h : w.Boot) : w.Inv where
  owned := by
    have hsp : w.spaces = fun _ => none := funext fun c => spaces_none (h.noContexts c)
    have hrefs : shmRefs w.shm w.made = fun _ => none := by
      funext r
      cases r <;> simp [shmRefs, h.noShm]
    rw [hsp, hrefs]
    exact .init w.mem h.addressable
  objects id sg hsg := by rw [h.noShm] at hsg; cases hsg
  unborn c _ := h.noContexts c

theorem inv_run {ops : List Op} (hb : w.Boot) (h : Run step StepOk w ops w') : w'.Inv :=
  h.invariant (fun _ _ _ hi ok hs => inv_step hi ok hs) (inv_boot hb)

end World

end Muxomucota.Mmu
