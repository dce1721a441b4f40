import Muxomucota.Mmu.Forks

/-!
# Mmu — a fork and the rights to a page

A page that a process may only read stays so in the process and in its child, as long as neither
writes to it.  The first write fault makes it writable: `vmmc_clone` marks the frame of every present
page, and `vmmc_do_cow` takes the mark to mean that the page could be written to before.
-/

namespace Muxomucota.Mmu.World
open Memory Pmm Lib

variable {w w₀ w₁ w₂ w' : World} {c e v : Nat} {op : Op} {ops ops₀ : List Op}

/-- A page is present and not writable, and its frame is not marked copy-on-write. -/
def ReadOnlyPage (w : World) (c v : Nat) : Prop :=
  ∃ p, pages w.spaces w.mem c v = some p ∧ isRw p = false ∧ w.mem.pmm.cow (frameOf p) = false

/-- The page is not writable. -/
def NotWritable (w : World) (c v : Nat) : Prop :=
  ∀ p, pages w.spaces w.mem c v = some p → isRw p = false

/-- Forks, exits and page faults. -/
def NothingMapped (_ : World) : Op → Prop
  | .fork _ => True
  | .exit _ => True
  | .fault _ _ _ => True
  | _ => False

/-- **The condition**: neither of the two processes writes to the page, and page faults are below
`PHYS_BASE`. -/
def RightsOk (c e v : Nat) (_ : World) : Op → Prop
  | .fork _ => True
  | .exit _ => True
  | .fault p address write => address < physBase ∧
      ¬ (write = true ∧ (p = c ∨ p = e) ∧ address / 4096 = v)
  | _ => False

/-- What the steps keep of a process: it is one of those started, and gone, or its page is there and
not writable. -/
structure Denied (w : World) (c v : Nat) : Prop where
  started : c < w.nextContext
  page : w.contexts c = none ∨ ∃ p, pages w.spaces w.mem c v = some p ∧ isRw p = false

theorem Denied.notWritable (h : w.Denied c v) : w.NotWritable c v := by
  intro p hp
  rcases h.page with hno | ⟨p', hp', hro⟩
  · exact absurd hno (alive_of_page hp)
  · rw [hp'] at hp
    cases hp
    exact hro

/-- The page as it is in both processes after the fork. -/
theorem denied_after_fork (h : w.Inv) (hp : w.ReadOnlyPage c v) (hs : w.step (.fork c) = some w') :
    w'.Denied c v ∧ w'.Denied w.nextContext v := by
  obtain ⟨p, hp, -⟩ := hp
  have hf := step_fork h hs
  have hlt := h.lt_next (alive_of_page hp)
  have hpr : isPr p = true := by
    obtain ⟨-, -, hpr, -⟩ := pages_eq_some.mp hp
    exact hpr
  refine ⟨⟨by rw [hf.next]; omega, .inr ⟨frozen p, ?_, isRw_frozen hpr⟩⟩,
    ⟨by rw [hf.next]; omega, .inr ⟨cloned p, ?_, isRw_cloned hpr⟩⟩⟩
  · rw [hf.parent, hp]; rfl
  · rw [hf.child, hp]; rfl

theorem RightsOk.stepOk (h : RightsOk c e v w op) : w.StepOk op := by
  cases op with
  | fork p => trivial
  | exit p => trivial
  | fault p address write => exact h.1
  | _ => exact h.elim

/-- A page fault elsewhere, or one that is no write, leaves the page as it is. -/
theorem denied_fault {p q address : Nat} {write : Bool} (h : w.Inv) (hd : w.Denied p v)
    (ha : address < physBase) (hok : ¬ (write = true ∧ q = p ∧ address / 4096 = v))
    (hs : w.step (.fault q address write) = some w') : w'.Denied p v := by
  obtain ⟨m', rfl, hf⟩ := step_fault h ha hs
  refine ⟨hd.started, hd.page.imp id fun ⟨x, hx, hro⟩ => ⟨x, ?_, hro⟩⟩
  show pages w.spaces m' p v = some x
  cases hf with
  | nothing same keeps => rw [same]; exact hx
  | fresh f y hl =>
      rw [hl.mapped, if_neg]
      · exact hx
      · rintro ⟨rfl, rfl⟩
        rw [hl.absent] at hx
        cases hx
  | sole y isWrite page readOnly cow hsole =>
      rw [hsole.mapped, if_neg fun heq => hok ⟨isWrite, heq.1.symm, heq.2.symm⟩]
      exact hx
  | copied y f isWrite page readOnly cow hcopy =>
      rw [hcopy.mapped, if_neg fun heq => hok ⟨isWrite, heq.1.symm, heq.2.symm⟩]
      exact hx

/-- **One step** gives neither of the two processes the right to write. -/
theorem denied_step {p : Nat} (h : w.Inv) (hd : w.Denied p v) (hp : p = c ∨ p = e)
    (hok : RightsOk c e v w op) (hs : w.step op = some w') : w'.Denied p v := by
  cases op with
  | fork q =>
      have hf := step_fork h hs
      have hne : p ≠ w.nextContext := hd.started.ne
      refine ⟨by rw [hf.next]; exact Nat.lt_succ_of_lt hd.started, ?_⟩
      rw [hf.old p hne]
      refine hd.page.imp id fun ⟨x, hx, hro⟩ => ?_
      by_cases hpq : p = q
      · subst hpq
        obtain ⟨-, -, hpr, -⟩ := pages_eq_some.mp hx
        exact ⟨frozen x, by rw [hf.parent, hx]; rfl, isRw_frozen hpr⟩
      · exact ⟨x, by rw [hf.other p v hne hpq]; exact hx, hro⟩
  | exit q =>
      have hf := step_exit h hs
      refine ⟨hf.next ▸ hd.started, ?_⟩
      rw [hf.contexts]
      by_cases hpq : p = q
      · exact .inl (hpq ▸ Function.update_self ..)
      · rw [Function.update_of_ne hpq]
        refine hd.page.imp id fun ⟨x, hx, hro⟩ => ⟨x, ?_, hro⟩
        rw [hf.pages, if_neg hpq]
        exact hx
  | fault q address write =>
      refine denied_fault h hd hok.1 (fun hw => hok.2 ⟨hw.1, ?_, hw.2.2⟩) hs
      rw [hw.2.1]
      exact hp
  | _ => exact hok.elim

/-! ### A page opened for reading -/

/-- A process with one page, which it may only read: an object of its own, opened with `VMM_UR`. -/
theorem reader_starts : ∃ w f, Run step StepOk (boot 16)
      [.create, .setHeapTop 0 0, .shmCreate 0 1 4096 fun _ => 0, .shmOpen 0 1 vmmUr] w ∧
    (∀ v, pages w.spaces w.mem 0 v =
      if v = userMapBase / 4096 then some (entry f (pageFlags vmmUr)) else none) ∧
    f < 2 ^ 20 ∧ w.mem.pmm.users f = 1 ∧ w.mem.pmm.cow f = false ∧
    tableSum w.spaces w.mem 0 userPdes ≤ 1 ∧ LookOk w.mem.pmm ∧ 13 ≤ freeFrames w.mem.pmm ∧
    w.nextContext = 1 := by
  obtain ⟨w, x, hrun, hx, -, hpages, htabs, hlook, hroom, hshm, hnext⟩ := process_starts 0
  have hc := spaces_of hx
  have hcreate : w.toKernel.step (.shmCreate 0 1 4096 fun _ => 0) =
      some (1, w.setShm 1 (some (vmmcCreateShm 4096 fun _ => 0)) w.mem) := by
    simp [Kernel.step, hx, hshm]
  have hrun₁ := hrun.trans (run_step (.shmCreate 0 1 4096 fun _ => 0) trivial hcreate)
  have hi := (inv_run boot_boot hrun).owned
  obtain ⟨f, m₁, ha⟩ := alloc_isSome hlook (by omega)
  have hfree₁ := alloc_freeFrames ha
  obtain ⟨hram, -, -, hu₀, hcow₀, hu₁, hcow₁⟩ := alloc_spec ha
  obtain ⟨h₁, hlt⟩ := hi.alloc ha
  have hps₁ := (views_of_ram (P := w.spaces) hram).2
  have hts₁ := (views_of_ram (P := w.spaces) hram).1
  obtain ⟨m₂, hm₂, hsg, hlook₂, hfree₂⟩ := userMapSg_one (f := f) vmmUr hc
    (by rw [hps₁]; exact hpages _) (alloc_lookOk hlook ha) (by omega)
  have hone : m₁.pmm.users f = 1 := by rw [hu₁, if_pos rfl]
  have hnot : ¬ Structural w.spaces m₁ f := by
    rw [Owned.structural_of_ram hram]
    exact hi.free_not_structural hu₀
  obtain ⟨-, hk, hps, hto⟩ := mapUserPage_spec h₁ hc hm₂ hlt hnot (by omega)
  have halloc : allocAll w.mem 1 = some ([f], m₁) := by
    rw [allocAll, List.range_one, List.foldlM_cons, ha]
    rfl
  have hopen : vmmcOpenShm w.mem x.cr3 (vmmcCreateShm 4096 fun _ => 0) vmmUr =
      some (userMapBase, { vmmcCreateShm 4096 fun _ => 0 with phys := [f], users := 1 }, m₂) := by
    have hfresh : ¬ ((vmmcCreateShm 4096 fun _ => 0).keptAlive = true ∨
        (vmmcCreateShm 4096 fun _ => 0).users ≠ 0) := by decide
    have hmapped : ¬ (userMapBase + (vmmcCreateShm 4096 fun _ => 0).offset) % 2 ^ 32 = 0 := by decide
    unfold vmmcOpenShm
    rw [if_neg hfresh, show (vmmcCreateShm 4096 fun _ => 0).pages = 1 by decide, halloc,
      Option.bind_some]
    simp only [hsg, Option.bind_some]
    rw [if_neg hmapped]
    rfl
  generalize hw₁ : w.after (.shmCreate 0 1 4096 fun _ => 0) 1
    (w.setShm 1 (some (vmmcCreateShm 4096 fun _ => 0)) w.mem) = w₁ at hrun₁
  have hx₁ : w₁.contexts 0 = some x := by rw [← hw₁]; exact hx
  have hshm₁ : w₁.shm 1 = some (vmmcCreateShm 4096 fun _ => 0) := by
    rw [← hw₁]; exact Function.update_self 1 _ w.shm
  have hmem₁ : w₁.mem = w.mem := by rw [← hw₁]; rfl
  have hsp₁ : w₁.spaces = w.spaces := by rw [← hw₁]; rfl
  have hstep : w₁.toKernel.step (.shmOpen 0 1 vmmUr) = some (userMapBase,
      w₁.setShm 1 (some { vmmcCreateShm 4096 fun _ => 0 with phys := [f], users := 1 }) m₂) := by
    rw [Kernel.step, hx₁, Option.bind_some]
    simp only [hshm₁, hmem₁, hopen, Option.map_some]
  have hok : w₁.StepOk (.shmOpen 0 1 vmmUr) := by
    intro sg hsg' _ husers
    rw [hshm₁] at hsg'
    cases hsg'
    exact absurd rfl husers
  refine ⟨_, f, hrun₁.trans (run_step _ hok hstep), fun v => ?_, hlt, ?_, ?_, ?_, hlook₂, ?_, ?_⟩
  · show pages w₁.spaces m₂ 0 v = _
    rw [hsp₁, hps, hps₁, hpages]
    by_cases hv : v = userMapBase / 4096
    · rw [if_pos ⟨⟨rfl, hv⟩, by decide⟩, if_pos hv]
    · rw [if_neg fun h => hv h.1.2, if_neg hv]
  · show m₂.pmm.users f = 1
    rw [hk.users f (by omega), hone]
  · show m₂.pmm.cow f = false
    rw [hk.cow, hcow₁, hcow₀]
  · show tableSum w₁.spaces m₂ 0 userPdes ≤ 1
    rw [hsp₁]
    refine tableSum_le_one (k := pdIndex userMapBase) (fun i hi => ?_) _
    rw [hto 0 i fun h => hi h.2, hts₁, htabs]
  · show 13 ≤ freeFrames m₂.pmm
    omega
  · show w₁.nextContext = 1
    rw [← hw₁]
    exact hnext

/-- The process forks. -/
theorem reader_forks : ∃ w w₁, Run step StepOk (boot 16)
      [.create, .setHeapTop 0 0, .shmCreate 0 1 4096 fun _ => 0, .shmOpen 0 1 vmmUr] w ∧
    w.ReadOnlyPage 0 (userMapBase / 4096) ∧ w.nextContext = 1 ∧ w.step (.fork 0) = some w₁ ∧
    w₁.Inv ∧ w₁.contexts 0 ≠ none ∧ LookOk w₁.mem.pmm ∧ 0 < freeFrames w₁.mem.pmm ∧
    ∃ p, pages w₁.spaces w₁.mem 1 (userMapBase / 4096) = some p ∧ isRw p = false ∧
      w₁.mem.pmm.cow (frameOf p) = true := by
  obtain ⟨w, f, hrun, hpages, hlt, hu, hcow, htabs, hlook, hroom, hnext⟩ := reader_starts
  have hi := inv_run boot_boot hrun
  have hp : pages w.spaces w.mem 0 (userMapBase / 4096) = some (entry f (pageFlags vmmUr)) := by
    rw [hpages, if_pos rfl]
  have hframe : frameOf (entry f (pageFlags vmmUr)) = f := frameOf_entry hlt (isFlags_pageFlags _)
  have hpr : isPr (entry f (pageFlags vmmUr)) = true := by
    rw [isPr_entry]; exact isPr_pageFlags _
  have hfit : ∀ g v, maps w.spaces w.mem 0 v = some g → w.mem.pmm.users g ≤ 63 := by
    intro g v hg
    rw [maps, hpages] at hg
    split at hg
    · rw [Option.map_some, hframe] at hg
      cases hg
      omega
    · cases hg
  obtain ⟨w₁, hs, hlook₁, hroom₁⟩ := fork_happens hi (alive_of_page hp) hlook (by omega) hfit
  have hfork : w.StepOk (.fork 0) := trivial
  have hf := step_fork hi hs
  have hold : w₁.contexts 0 ≠ none := by
    rw [hf.old 0 (by omega)]
    exact alive_of_page hp
  refine ⟨w, w₁, hrun, ⟨_, hp, by rw [isRw_entry]; decide, by rw [hframe]; exact hcow⟩, hnext, hs,
    inv_step hi hfork hs, hold, hlook₁, by omega, cloned (entry f (pageFlags vmmUr)), ?_,
    isRw_cloned hpr, ?_⟩
  · rw [← hnext, hf.child, hp]; rfl
  · rw [frameOf_cloned, hframe, hf.cow]
    exact .inr ⟨_, by rw [maps, hp, Option.map_some, hframe]⟩

/-! ### The rights after a fork -/

/-- **A fork adds no rights** as long as nobody writes: in every run after it whose steps meet the
condition, the page stays read-only in the process and in its child. -/
theorem fork_adds_no_rights (hb : w₀.Boot) (h₀ : Run step StepOk w₀ ops₀ w)
    (hp : w.ReadOnlyPage c v) (hs : w.step (.fork c) = some w₁)
    (h : Run step (RightsOk c w.nextContext v) w₁ ops w₂) :
    w₂.NotWritable c v ∧ w₂.NotWritable w.nextContext v := by
  have hi := inv_run hb h₀
  have hfork : w.StepOk (.fork c) := trivial
  obtain ⟨hc, he⟩ := denied_after_fork hi hp hs
  obtain ⟨-, hc, he⟩ := h.invariant
    (I := fun u => u.Inv ∧ u.Denied c v ∧ u.Denied w.nextContext v)
    (fun u op u' ⟨hu, hc, he⟩ hok hs => ⟨inv_step hu hok.stepOk hs,
      denied_step hu hc (.inl rfl) hok hs, denied_step hu he (.inr rfl) hok hs⟩)
    ⟨inv_step hi hfork hs, hc, he⟩
  exact ⟨hc.notWritable, he.notWritable⟩

/-- The parent exits, and the child can still not write. -/
theorem fork_adds_no_rights_exit : ∃ w w₁ w₂ : World,
    w.ReadOnlyPage 0 (userMapBase / 4096) ∧ w.step (.fork 0) = some w₁ ∧
    Run step (RightsOk 0 1 (userMapBase / 4096)) w₁ [.exit 0] w₂ ∧
    w₂.NotWritable 0 (userMapBase / 4096) ∧ w₂.NotWritable 1 (userMapBase / 4096) := by
  obtain ⟨w, w₁, hrun, hp, hnext, hs, hi₁, hold, -⟩ := reader_forks
  obtain ⟨w₂, hexit⟩ := exit_happens hi₁ hold
  have hafter : Run step (RightsOk 0 w.nextContext (userMapBase / 4096)) w₁ [.exit 0] w₂ :=
    .one trivial hexit
  have hdenied := fork_adds_no_rights boot_boot hrun hp hs hafter
  rw [hnext] at hafter hdenied
  exact ⟨w, w₁, w₂, hp, hs, hafter, hdenied⟩

/-- The child writes to the page that it may only read, and from then on it may. -/
theorem fork_grants_writing :
    ¬ ∀ (w₀ w w₁ w₂ : World) (ops₀ ops : List Op) (c v : Nat), w₀.Boot →
      Run step anyStep w₀ ops₀ w → w.ReadOnlyPage c v → w.step (.fork c) = some w₁ →
      Run step NothingMapped w₁ ops w₂ → w₂.NotWritable c v ∧ w₂.NotWritable w.nextContext v := by
  intro hall
  obtain ⟨w, w₁, hrun, hp, hnext, hs, hi₁, -, hlook, hroom, p, hpage, hro, hcow⟩ := reader_forks
  obtain ⟨w₂, p', hfault, hpage', hrw⟩ := write_fault_grants hi₁ hpage hro hcow hlook hroom
  have hany := hrun.mono (fun _ _ _ => trivial : ∀ s a, StepOk s a → anyStep s a)
  have hafter : Run step NothingMapped w₁ [.fault 1 userMapBase true] w₂ := .one trivial hfault
  have hchild := (hall _ w w₁ w₂ _ _ 0 _ boot_boot hany hp hs hafter).2
  rw [hnext] at hchild
  rw [hchild p' hpage'] at hrw
  cases hrw

end Muxomucota.Mmu.World
