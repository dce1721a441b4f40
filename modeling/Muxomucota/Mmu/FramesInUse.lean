import Muxomucota.Mmu.Invariant

/-!
# Mmu — frames that a process can access are in use

No frame of a present user page is free, as long as every step meets `World.StepOk`.  The heap
breaks it first: shrinking over the last page of a page table frees the frame and leaves it mapped.
-/

namespace Muxomucota.Mmu
open Memory Pmm Lib

namespace World

/-- **Frames that a process can access are in use**, and `pmm_alloc` does not return them. -/
theorem mapped_frames_in_use {w w' : World} {ops : List Op} (hb : w.Boot)
    (h : Run step StepOk w ops w') :
    (∀ c v f, maps w'.spaces w'.mem c v = some f → w'.mem.pmm.users f ≠ 0) ∧
      ∀ f m', w'.mem.alloc = some (f, m') → ∀ c v, maps w'.spaces w'.mem c v ≠ some f := by
  have hi := inv_run hb h
  have hused : ∀ c v f, maps w'.spaces w'.mem c v = some f → w'.mem.pmm.users f ≠ 0 := by
    intro c v f hf
    have hslot : slots w'.spaces (shmRefs w'.shm w'.made) w'.mem (.page c v) = some f := hf
    exact (hi.owned.users_pos hslot).ne'
  refine ⟨hused, fun f m' ha c v hf => hused c v f hf ?_⟩
  exact (alloc_spec ha).2.2.2.1

/-! ### A heap that grows and shrinks by one page -/

/-- No processes, no objects, and `n` free frames. -/
def boot (n : Nat) : World where
  kpd := .empty
  mem := .boot n
  contexts _ := none
  nextContext := 0
  shm _ := none
  made _ := false
  party _ := []

theorem boot_boot : (boot 16).Boot where
  noContexts _ := rfl
  noShm _ := rfl
  notMade _ := rfl
  addressable := by decide

theorem run_step {w : World} {ret : Nat} {k : Kernel} (op : Op) (ok : w.StepOk op)
    (h : w.toKernel.step op = some (ret, k)) : Run step StepOk w [op] (w.after op ret k) :=
  .one ok (by rw [step, h]; rfl)

/-- A process without pages, with its end of the heap at `top`. -/
theorem process_starts (top : Nat) :
    ∃ w x, Run step StepOk (boot 16) [.create, .setHeapTop 0 top] w ∧ w.contexts 0 = some x ∧
      x.heapEnd = top % 2 ^ 32 ∧ (∀ v, pages w.spaces w.mem 0 v = none) ∧
      (∀ i, tables w.spaces w.mem 0 i = none) ∧ LookOk w.mem.pmm ∧ freeFrames w.mem.pmm = 15 ∧
      (∀ id, w.shm id = none) ∧ w.nextContext = 1 := by
  have hfree : freeFrames (Mem.boot 16).pmm = 16 := by decide
  obtain ⟨pd, m₁, hm₁, hlook, hroom⟩ :=
    create_isSome KernelDirectory.empty (lookOk_boot 16) (by rw [hfree]; decide)
  have hnone : (boot 16).spaces 0 = none := rfl
  obtain ⟨h₁, ht₁, hp₁, -⟩ := create_spec (inv_boot boot_boot).owned hnone hm₁
  obtain ⟨m₂, hm₂, hu⟩ := processCreateBasicMappings_spec h₁ (Function.update_self ..)
  have hcreate : (boot 16).toKernel.step .create = some (0, (boot 16).addContext pd 0 m₂) := by
    have hm₁ : createVmmContextArch (boot 16).kpd (boot 16).mem = some (pd, m₁) := hm₁
    simp [Kernel.step, hm₁, hm₂]
  have hrun₁ := run_step .create trivial hcreate
  generalize hw₁ : (boot 16).after .create 0 ((boot 16).addContext pd 0 m₂) = w₁ at hrun₁
  have hx : w₁.contexts 0 = some ⟨pd, 0⟩ := by
    subst hw₁
    exact (boot 16).toKernel.addContext_contexts pd 0 m₂
  have hmem : w₁.mem = m₂ := by rw [← hw₁]; rfl
  have hsp : w₁.spaces = Function.update (boot 16).spaces 0 (some pd) := by
    rw [← hw₁]
    exact spaces_addContext ..
  have htop : w₁.toKernel.step (.setHeapTop 0 top) =
      some (0, w₁.toKernel.setHeapEnd 0 ⟨pd, 0⟩ (top % 2 ^ 32) w₁.mem) := by
    simp [Kernel.step, hx]
  refine ⟨_, ⟨pd, top % 2 ^ 32⟩, hrun₁.trans (run_step _ trivial htop),
    w₁.toKernel.setHeapEnd_contexts 0 _ _ _, rfl, fun v => ?_, fun i => ?_, ?_, ?_, ?_, ?_⟩
  · show pages (w₁.toKernel.setHeapEnd 0 ⟨pd, 0⟩ (top % 2 ^ 32) w₁.mem).spaces w₁.mem 0 v = none
    rw [spaces_setHeapEnd w₁.toKernel hx, hsp, hmem, hu.pages, hp₁, pages, hnone]
    rfl
  · show tables (w₁.toKernel.setHeapEnd 0 ⟨pd, 0⟩ (top % 2 ^ 32) w₁.mem).spaces w₁.mem 0 i = none
    rw [spaces_setHeapEnd w₁.toKernel hx, hsp, hmem, hu.tables, ht₁, tables, hnone]
    rfl
  · show LookOk w₁.mem.pmm
    rw [hmem, hu.pmm]
    exact hlook
  · show freeFrames w₁.mem.pmm = 15
    rw [hmem, hu.pmm]
    omega
  · intro id
    rw [← hw₁]
    rfl
  · show w₁.nextContext = 1
    rw [← hw₁]
    rfl

/-- A heap that ends with a page grows by one page. -/
theorem sbrk_grows {w : World} {x : VmmContext} {c v : Nat} (hx : w.contexts c = some x)
    (htop : x.heapEnd = v * 4096) (hv : v < userPdes * 1024)
    (hno : pages w.spaces w.mem c v = none) (hlook : LookOk w.mem.pmm)
    (hroom : 2 ≤ freeFrames w.mem.pmm) :
    ∃ f m₁ m₂, w.mem.alloc = some (f, m₁) ∧
      vmmcMapUserPageUnlocked m₁ x.cr3 (v * 4096) f (vmmUr ||| vmmUw) = some m₂ ∧
      LookOk m₂.pmm ∧ freeFrames w.mem.pmm ≤ freeFrames m₂.pmm + 2 ∧
      w.toKernel.step (.sbrk c 4096) =
        some (x.heapEnd, w.toKernel.setHeapEnd c x (v * 4096 + 4096) m₂) ∧
      w.StepOk (.sbrk c 4096) := by
  simp only [userPdes] at hv
  have hinc : sbrkInc 4096 = 4096 := by decide
  have hrange : growRange x.heapEnd 4096 = [v] := by
    rw [growRange, hinc, htop]
    have hn : ((v * 4096 + (4096 : BitVec 32).toNat) % 2 ^ 32 + 4095) % 2 ^ 32 / 4096 -
        v * 4096 / 4096 = 1 := by
      have : (4096 : BitVec 32).toNat = 4096 := rfl
      omega
    rw [hn, List.range'_one]
    congr
    omega
  have hbelow : v * 4096 < physBase := by simp only [physBase]; omega
  obtain ⟨f, m₁, ha⟩ := alloc_isSome hlook (by omega)
  have hfree := alloc_freeFrames ha
  obtain ⟨m₂, hm₂, hlook₂, hfree₂⟩ := mapUserPage_isSome x.cr3 (v * 4096) f (vmmUr ||| vmmUw)
    (alloc_lookOk hlook ha) (by omega)
  have hgrow : growPage w.mem x.cr3 v = some m₂ := by
    rw [growPage, addressMapped_none (spaces_of hx) hbelow (by rwa [show v * 4096 / 4096 = v by omega]),
      if_pos rfl, ha]
    exact hm₂
  have hsbrk : contextSbrk w.mem x.cr3 x.heapEnd 4096 =
      some (x.heapEnd, v * 4096 + 4096, m₂) := by
    unfold contextSbrk
    rw [if_neg (by decide), if_pos (by rw [hinc]; decide), hrange]
    simp only [List.foldlM_cons, List.foldlM_nil, hgrow, hinc, htop]
    have : (v * 4096 + (4096 : BitVec 32).toNat) % 2 ^ 32 = v * 4096 + 4096 := by
      have : (4096 : BitVec 32).toNat = 4096 := rfl
      omega
    rw [this]
    rfl
  refine ⟨f, m₁, m₂, ha, hm₂, hlook₂, by omega, ?_, fun y _ hneg => ?_⟩
  · rw [Kernel.step, hx, Option.bind_some, hsbrk]
    rfl
  · rw [hinc] at hneg
    exact absurd hneg (by decide)

/-- The page by which a heap has grown is the only new one. -/
theorem grown {w : World} {x : VmmContext} {v : Nat} (hi : w.Inv) (hx : w.contexts 0 = some x)
    (htop : x.heapEnd = v * 4096) (hv : v < userPdes * 1024) (hno : pages w.spaces w.mem 0 v = none)
    (hlook : LookOk w.mem.pmm) (hroom : 2 ≤ freeFrames w.mem.pmm) :
    ∃ w' f, Run step StepOk w [.sbrk 0 4096] w' ∧
      w'.contexts 0 = some { x with heapEnd := v * 4096 + 4096 } ∧
      maps w'.spaces w'.mem 0 v = some f ∧ w'.mem.pmm.users f = 1 ∧
      (∀ u, u ≠ v → pages w'.spaces w'.mem 0 u = pages w.spaces w.mem 0 u) ∧ LookOk w'.mem.pmm ∧
      freeFrames w.mem.pmm ≤ freeFrames w'.mem.pmm + 2 := by
  have hv' : v < 983040 := hv
  have hdiv : v * 4096 / 4096 = v := by omega
  have hbelow : v * 4096 < physBase := by simp only [physBase]; omega
  obtain ⟨f, m₁, m₂, ha, hm₂, hlook₂, hroom₂, hstep, hok⟩ := sbrk_grows hx htop hv hno hlook hroom
  obtain ⟨-, hn⟩ := freshPage_spec hi.owned (spaces_of hx) ha rfl (fun _ _ => rfl) hm₂
  refine ⟨_, f, run_step _ hok hstep, w.toKernel.setHeapEnd_contexts 0 x _ m₂, ?_, hn.users,
    fun u hu => ?_, hlook₂, hroom₂⟩
  · show maps (w.toKernel.setHeapEnd 0 x (v * 4096 + 4096) m₂).spaces m₂ 0 v = some f
    rw [spaces_setHeapEnd w.toKernel hx, maps, hn.mapped, if_pos ⟨⟨rfl, hdiv.symm⟩, hbelow⟩,
      Option.map_some, hn.names]
  · show pages (w.toKernel.setHeapEnd 0 x (v * 4096 + 4096) m₂).spaces m₂ 0 u = _
    rw [spaces_setHeapEnd w.toKernel hx, hn.mapped, if_neg fun h => hu (h.1.2.trans hdiv)]

/-- The heap grows by one page. -/
theorem heap_grows {v : Nat} (hv : v < userPdes * 1024) :
    ∃ w x f, Run step StepOk (boot 16) [.create, .setHeapTop 0 (v * 4096), .sbrk 0 4096] w ∧
      w.contexts 0 = some x ∧ x.heapEnd = v * 4096 + 4096 ∧
      maps w.spaces w.mem 0 v = some f ∧ w.mem.pmm.users f = 1 := by
  obtain ⟨w, x, hrun, hx, htop, hpages, -, hlook, hroom, -⟩ := process_starts (v * 4096)
  have hv' : v < 983040 := hv
  obtain ⟨w', f, hgrow, hx', hmaps, hu, -⟩ :=
    grown (inv_run boot_boot hrun) hx (by omega) hv (hpages v) hlook (by omega)
  exact ⟨w', _, f, hrun.trans hgrow, hx', rfl, hmaps, hu⟩

theorem shrink_end {v : Nat} (hv : v < 983040) :
    (v * 4096 + 4096 + (-4096 : BitVec 32).toNat) % 2 ^ 32 = v * 4096 := by
  have hneg : (-4096 : BitVec 32).toNat = 2 ^ 32 - 4096 := rfl
  omega

theorem shrink_one {v heapEnd : Nat} (hv : v < 983040) (htop : heapEnd = v * 4096 + 4096) :
    shrinkRange heapEnd (-4096) = [v] := by
  have hinc : sbrkInc (-4096) = -4096 := by decide
  have hneg : (-4096 : BitVec 32).toNat = 2 ^ 32 - 4096 := rfl
  have hlo : ((v * 4096 + 4096 + (-4096 : BitVec 32).toNat) % 2 ^ 32 + 4095) % 2 ^ 32 / 4096 = v := by
    omega
  have hhi : (v * 4096 + 4096 + 4095) % 2 ^ 32 / 4096 - v = 1 := by omega
  rw [shrinkRange, hinc, htop, hlo, hhi, List.range'_one]

theorem shrinkPage_eq {w : World} {x : VmmContext} {v f : Nat} {m' : Mem} (hx : w.contexts 0 = some x)
    (hmaps : maps w.spaces w.mem 0 v = some f)
    (hshrink : ∀ m₁, w.mem.free f = some m₁ → vmmcUserUnmap m₁ x.cr3 (v * 4096) pageSize = some m')
    (hu : 0 < w.mem.pmm.users f) : shrinkPage w.mem x.cr3 v = some m' := by
  obtain ⟨e, he, rfl⟩ := Option.map_eq_some_iff.mp hmaps
  have hvirt : pages w.spaces w.mem 0 (v * 4096 / 4096) = some e := by
    rw [show v * 4096 / 4096 = v by omega]
    exact he
  obtain ⟨hne, hfr⟩ := addressMapped_some (spaces_of hx) hvirt
  obtain ⟨m₁, hm₁⟩ := free_isSome hu
  rw [shrinkPage, if_pos hne, hfr, hm₁, Option.bind_some]
  exact hshrink m₁ hm₁

/-- The heap shrinks by one page. -/
theorem heap_shrinks {w : World} {x : VmmContext} {v : Nat} {m' : Mem} (hx : w.contexts 0 = some x)
    (htop : x.heapEnd = v * 4096 + 4096) (hv : v < 983040)
    (hpage : shrinkPage w.mem x.cr3 v = some m') :
    w.toKernel.step (.sbrk 0 (-4096)) =
      some (x.heapEnd, w.toKernel.setHeapEnd 0 x (v * 4096) m') := by
  have hrange : shrinkRange x.heapEnd (-4096) = [v] := shrink_one hv htop
  have hinc : sbrkInc (-4096) = -4096 := by decide
  have hsbrk : contextSbrk w.mem x.cr3 x.heapEnd (-4096) = some (x.heapEnd, v * 4096, m') := by
    unfold contextSbrk
    rw [if_neg (by decide), if_neg (by rw [hinc]; decide), hrange]
    simp only [List.foldlM_cons, List.foldlM_nil, hpage, hinc, htop, shrink_end hv]
    simp
  rw [Kernel.step, hx, Option.bind_some, hsbrk]
  rfl

/-- A heap that grows by two pages and shrinks by one: the first page stays. -/
theorem mapped_frames_in_use_sbrk : ∃ w f,
    Run step StepOk (boot 16)
      [.create, .setHeapTop 0 0x800000, .sbrk 0 4096, .sbrk 0 4096, .sbrk 0 (-4096)] w ∧
    maps w.spaces w.mem 0 2048 = some f ∧
    (∀ c v f, maps w.spaces w.mem c v = some f → w.mem.pmm.users f ≠ 0) ∧
      ∀ f m', w.mem.alloc = some (f, m') → ∀ c v, maps w.spaces w.mem c v ≠ some f := by
  obtain ⟨w₀, x₀, hrun₀, hx₀, htop₀, hpages, -, hlook₀, hroom₀, -⟩ := process_starts 0x800000
  obtain ⟨w₁, f, hgrow₁, hx₁, hmaps₁, -, hsame₁, hlook₁, hroom₁⟩ := grown (v := 2048)
    (inv_run boot_boot hrun₀) hx₀ htop₀ (by decide) (hpages _) hlook₀ (by omega)
  have hrun₁ := hrun₀.trans hgrow₁
  obtain ⟨w, g, hgrow, hx, hmaps, hu, hsame, -⟩ := grown (v := 2049) (inv_run boot_boot hrun₁) hx₁ rfl
    (by decide) ((hsame₁ _ (by decide)).trans (hpages _)) hlook₁ (by omega)
  have hrun := hrun₁.trans hgrow
  obtain ⟨m₁, hm₁⟩ := free_isSome (show 0 < w.mem.pmm.users g by omega)
  obtain ⟨m', hshrink⟩ : ∃ m', shrinkPage w.mem x₀.cr3 2049 = some m' :=
    ⟨_, shrinkPage_eq (x := ⟨x₀.cr3, 2049 * 4096 + 4096⟩) hx hmaps (fun b hb => by
      rw [hm₁] at hb
      cases hb
      exact userUnmap_one (by decide) (by decide)) (by omega)⟩
  have hok : w.StepOk (.sbrk 0 (-4096)) := by
    intro y hy _ v hv
    rw [hx] at hy
    cases hy
    rw [shrink_one (v := 2049) (by decide) rfl] at hv
    obtain rfl := List.mem_singleton.mp hv
    exact ⟨by decide, fun _ => by decide⟩
  have hall := hrun.trans (run_step _ hok (heap_shrinks hx rfl (by decide) hshrink))
  obtain ⟨-, hkept⟩ := shrinkPage_spec (inv_run boot_boot hrun).owned (spaces_of hx) (by decide)
    (fun _ => by decide) hshrink
  refine ⟨_, f, hall, ?_, mapped_frames_in_use boot_boot hall⟩
  show maps (w.toKernel.setHeapEnd 0 _ _ m').spaces m' 0 2048 = some f
  rw [spaces_setHeapEnd w.toKernel hx, maps, hkept.pages, if_neg (by simp), hsame _ (by decide)]
  exact hmaps₁

/-- The heap ends with the last page of a page table: after it has shrunk, the frame of that page is
free, and the process can still access it. -/
theorem shrunk_heap_stays_mapped : ∃ w,
    Run step anyStep (boot 16)
      [.create, .setHeapTop 0 0x7FF000, .sbrk 0 4096, .sbrk 0 (-4096)] w ∧
    ¬ ∀ c v f, maps w.spaces w.mem c v = some f → w.mem.pmm.users f ≠ 0 := by
  obtain ⟨w, x, f, hrun, hx, htop, hmaps, hu⟩ := heap_grows (v := 2047) (by decide)
  obtain ⟨m₁, hm₁⟩ := free_isSome (show 0 < w.mem.pmm.users f by omega)
  have hstep := heap_shrinks hx htop (by decide) (shrinkPage_eq hx hmaps (fun b hb => by
    rw [hm₁] at hb
    cases hb
    exact userUnmap_last (by decide) (by decide)) (by omega))
  have hrun := hrun.mono (fun _ _ _ => trivial : ∀ s a, StepOk s a → anyStep s a)
  refine ⟨_, hrun.trans (.one trivial (by rw [step, hstep]; rfl)), fun hall => ?_⟩
  obtain ⟨hram, -, -, hu₁, -⟩ := free_spec hm₁
  refine hall 0 2047 f ?_ ?_
  · show maps (w.toKernel.setHeapEnd 0 x _ m₁).spaces m₁ 0 2047 = some f
    rw [spaces_setHeapEnd w.toKernel hx, maps, (views_of_ram hram).2]
    exact hmaps
  · show m₁.pmm.users f = 0
    rw [hu₁, if_pos rfl, hu]

end World

end Muxomucota.Mmu
