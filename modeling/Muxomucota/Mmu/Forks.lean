import Muxomucota.Mmu.FramesInUse

/-!
# Mmu — what a step does to the pages of the processes

A fork, an exit, a page fault and a write of a user program, each as what it changes of the pages of
all contexts.  `reads` is what a program reads at an address; `shows` is the byte that lies there,
also when the program may not read it.
-/

namespace Muxomucota.Mmu.World
open Memory Pmm Lib

variable {w w' : World} {c c' v a f : Nat} {b : BitVec 8}

/-- What a process reads at an address; `none` is a page fault. -/
def reads (w : World) (c a : Nat) : Option (BitVec 8) :=
  (w.contexts c).bind fun x => w.mem.userLoad x.cr3 a

/-- The byte at an address, if its page is present. -/
def shows (w : World) (c a : Nat) : Option (BitVec 8) :=
  (maps w.spaces w.mem c (a / 4096)).map fun f => w.mem.ram f (a % 4096)

theorem shows_of_reads (h : w.reads c a = some b) : w.shows c a = some b := by
  obtain ⟨x, hx, h⟩ := Option.bind_eq_some_iff.mp h
  obtain ⟨e, he, rfl⟩ := Option.map_eq_some_iff.mp h
  rw [shows, maps, (userReadable_pages (spaces_of hx) he).1]
  rfl

theorem alive_of_page {e : BitVec 32} (h : pages w.spaces w.mem c v = some e) :
    w.contexts c ≠ none := by
  intro hno
  rw [pages, spaces_none hno] at h
  cases h

/-- A live context is one of those that were started. -/
theorem Inv.lt_next (h : w.Inv) (hc : w.contexts c ≠ none) : c < w.nextContext := by
  by_contra hlt
  exact hc (h.unborn c (by omega))

/-! ### Fork -/

/-- **What a fork does**: the child has the parent's pages, and neither may write to them. -/
structure Forked (w w' : World) (c : Nat) : Prop where
  next : w'.nextContext = w.nextContext + 1
  old : ∀ c', c' ≠ w.nextContext → w'.contexts c' = w.contexts c'
  child : ∀ v, pages w'.spaces w'.mem w.nextContext v = (pages w.spaces w.mem c v).map cloned
  parent : ∀ v, pages w'.spaces w'.mem c v = (pages w.spaces w.mem c v).map frozen
  other : ∀ c' v, c' ≠ w.nextContext → c' ≠ c →
    pages w'.spaces w'.mem c' v = pages w.spaces w.mem c' v
  users : ∀ f, w.mem.pmm.users f ≠ 0 → (∀ v, maps w.spaces w.mem c v ≠ some f) →
    w'.mem.pmm.users f = w.mem.pmm.users f
  cow : ∀ f, w'.mem.pmm.cow f = true ↔
    w.mem.pmm.cow f = true ∨ ∃ v, maps w.spaces w.mem c v = some f
  data : ∀ c' v f, maps w.spaces w.mem c' v = some f → w'.mem.ram f = w.mem.ram f

theorem step_fork (h : w.Inv) (hs : w.step (.fork c) = some w') : w.Forked w' c := by
  obtain ⟨ret, k, hk, rfl⟩ := step_eq hs
  clear hs
  obtain ⟨x, hx, hk⟩ := Option.bind_eq_some_iff.mp hk
  obtain ⟨⟨pd, m₁⟩, hm₁, hk⟩ := Option.bind_eq_some_iff.mp hk
  obtain ⟨m', hm', hk⟩ := Option.map_eq_some_iff.mp hk
  cases hk
  have hb := fork_begins h hx hm₁
  obtain ⟨h₂, hcl⟩ := clone_spec hb.owned hb.parent (Function.update_self ..) hb.ne hb.noTables hm'
  have hsp : (w.addContext pd x.heapEnd m').spaces = _ := spaces_addContext w.toKernel pd x.heapEnd m'
  have hmaps : ∀ c' v, maps (Function.update w.spaces w.nextContext (some pd)) m₁ c' v =
      maps w.spaces w.mem c' v := fun c' v => by rw [maps, hb.pages]; rfl
  have hpd : ∀ f, w.mem.pmm.users f ≠ 0 → f ≠ pd := by
    rintro f hf rfl
    exact hf hb.free
  have hcm := hcl.cow
  refine ⟨rfl, fun c' hc' => Function.update_of_ne hc' _ _, fun v => ?_, fun v => ?_,
    fun c' v h₁ h₂ => ?_, fun f hf hno => ?_, fun f => ?_, fun c' v f hf => ?_⟩
  · show pages (w.addContext pd x.heapEnd m').spaces m' _ v = _
    rw [hsp, hcl.child, hb.pages]
  · show pages (w.addContext pd x.heapEnd m').spaces m' _ v = _
    rw [hsp, hcl.parent, hb.pages]
  · show pages (w.addContext pd x.heapEnd m').spaces m' _ v = _
    rw [hsp, hcl.other c' v h₁ h₂, hb.pages]
  · have hsame := (hb.same f (hpd f hf)).1
    have hnt : ¬ ∃ i, tables (Function.update w.spaces w.nextContext (some pd)) m' w.nextContext i =
        some f := by
      rintro ⟨i, hi⟩
      exact hf (hsame ▸ hcl.fresh i f hi)
    have hsum : pageSum (Function.update w.spaces w.nextContext (some pd)) m₁ c userPdes f = 0 := by
      refine Nat.eq_zero_of_not_pos fun hpos => ?_
      obtain ⟨v, -, hv⟩ := pageSum_pos.mp hpos
      exact hno v (hmaps c v ▸ hv)
    have hu := hcl.users f hnt
    rw [hsum, hsame] at hu
    exact hu
  · show m'.pmm.cow f = true ↔ _
    rw [hcm, hb.cow]
    simp only [hmaps]
  · have hslot : slots w.spaces (shmRefs w.shm w.made) w.mem (.page c' v) = some f := hf
    have hu := (h.owned.users_pos hslot).ne'
    obtain ⟨husers, hram⟩ := hb.same f (hpd f hu)
    have hnot : ¬ Structural (Function.update w.spaces w.nextContext (some pd)) m₁ f :=
      hb.owned.not_structural ((hmaps c' v).trans hf)
    exact (hcl.data f (by rwa [husers]) hnot).2.trans hram

/-- A fork leaves the parent's page directory as it is, lets the child's user programs read and write
where the parent has a page table, and at most doubles the users of a frame. -/
theorem fork_directories {x : VmmContext} (h : w.Inv) (hx : w.contexts c = some x)
    (hs : w.step (.fork c) = some w') : w'.mem.ram x.cr3 = w.mem.ram x.cr3 ∧
      (∃ y, w'.contexts w.nextContext = some y ∧ ∀ i, i < userPdes →
        isPr (w.mem.entry x.cr3 i) = true →
          isUs (w'.mem.entry y.cr3 i) = true ∧ isRw (w'.mem.entry y.cr3 i) = true) ∧
      ∀ g, w.mem.pmm.users g ≠ 0 → w'.mem.pmm.users g ≤ 2 * w.mem.pmm.users g := by
  obtain ⟨ret, k, hk, rfl⟩ := step_eq hs
  clear hs
  rw [Kernel.step, hx, Option.bind_some] at hk
  obtain ⟨⟨pd, m₁⟩, hm₁, hk⟩ := Option.bind_eq_some_iff.mp hk
  obtain ⟨m', hm', hk⟩ := Option.map_eq_some_iff.mp hk
  cases hk
  have hb := fork_begins h hx hm₁
  have hpd : ∀ g, w.mem.pmm.users g ≠ 0 → g ≠ pd := by
    rintro g hg rfl
    exact hg hb.free
  have hdir : w.mem.pmm.users x.cr3 ≠ 0 := by
    rw [(h.owned.solo_dir (spaces_of hx)).1]
    decide
  have hsame : m₁.ram x.cr3 = w.mem.ram x.cr3 := (hb.same _ (hpd _ hdir)).2
  obtain ⟨-, hcl⟩ := clone_spec hb.owned hb.parent (Function.update_self ..) hb.ne hb.noTables hm'
  obtain ⟨hsource, hdest⟩ :=
    clone_directories hb.owned hb.parent (Function.update_self ..) hb.ne hb.noTables hm'
  refine ⟨hsource.trans hsame, ⟨⟨pd, x.heapEnd⟩, w.addContext_contexts pd x.heapEnd m',
    fun i hi hpr => hdest i hi ?_⟩, fun g hg => ?_⟩
  · rwa [entry_congr hsame]
  have hsame := (hb.same g (hpd g hg)).1
  have hnt : ¬ ∃ i, tables (Function.update w.spaces w.nextContext (some pd)) m' w.nextContext i =
      some g := by
    rintro ⟨i, hi⟩
    exact hg (hsame ▸ hcl.fresh i g hi)
  have hu := hcl.users g hnt
  have hle := pageSum_le (c := c) hb.owned userPdes g
  show m'.pmm.users g ≤ _
  omega

/-- A fork ends as long as there are frames for the page directory and the page tables, and no user
count overflows. -/
theorem fork_happens (h : w.Inv) (hc : w.contexts c ≠ none) (hlook : LookOk w.mem.pmm)
    (hroom : tableSum w.spaces w.mem c userPdes < freeFrames w.mem.pmm)
    (hmax : ∀ f v, maps w.spaces w.mem c v = some f → w.mem.pmm.users f ≤ 63) :
    ∃ w', w.step (.fork c) = some w' ∧ LookOk w'.mem.pmm ∧
      freeFrames w'.mem.pmm + tableSum w.spaces w.mem c userPdes + 1 = freeFrames w.mem.pmm := by
  obtain ⟨x, hx⟩ := Option.ne_none_iff_exists'.mp hc
  obtain ⟨pd, m₁, hm₁, hlook₁, hfree₁⟩ := create_isSome w.kpd hlook (by omega)
  have hb := fork_begins h hx hm₁
  have hsum : tableSum (Function.update w.spaces w.nextContext (some pd)) m₁ c userPdes =
      tableSum w.spaces w.mem c userPdes := by
    unfold tableSum
    rw [hb.tables]
  have hfit : ∀ f v, maps (Function.update w.spaces w.nextContext (some pd)) m₁ c v = some f →
      m₁.pmm.users f + pageSum (Function.update w.spaces w.nextContext (some pd)) m₁ c userPdes f ≤
        127 := by
    intro f v hf
    have hf₀ : maps w.spaces w.mem c v = some f := by rwa [maps, hb.pages] at hf
    have hslot : slots w.spaces (shmRefs w.shm w.made) w.mem (.page c v) = some f := hf₀
    have hpos := h.owned.users_pos hslot
    have hne : f ≠ pd := by
      rintro rfl
      have := hb.free
      omega
    have h₂ := pageSum_le (c := c) hb.owned userPdes f
    have h₃ := hmax f v hf₀
    have h₄ := (hb.same f hne).1
    omega
  obtain ⟨m', hm'⟩ := clone_isSome hb.owned hb.parent (Function.update_self ..) hb.ne hb.noTables hlook₁
    (by rw [hsum]; omega) hfit
  obtain ⟨-, hl⟩ := clone_rounds hb.owned hb.parent (Function.update_self ..) hb.ne hb.noTables hm'
  have hs : w.toKernel.step (.fork c) = some (0, w.addContext pd x.heapEnd m') := by
    rw [Kernel.step, hx, Option.bind_some, hm₁, Option.bind_some]
    simp only [hm', Option.map_some]
  refine ⟨w.after (.fork c) 0 (w.addContext pd x.heapEnd m'), by rw [step, hs]; rfl, hl.look hlook₁, ?_⟩
  have hroom' := hl.room
  rw [hsum] at hroom'
  show freeFrames m'.pmm + _ + 1 = _
  omega

/-! ### Exit -/

/-- **What an exit does**: the pages of the process are gone. -/
structure Exited (w w' : World) (c : Nat) : Prop where
  next : w'.nextContext = w.nextContext
  contexts : w'.contexts = Function.update w.contexts c none
  pages : ∀ c' v, Mmu.pages w'.spaces w'.mem c' v =
    if c' = c then none else Mmu.pages w.spaces w.mem c' v
  users : ∀ f, w'.mem.pmm.users f ≤ w.mem.pmm.users f
  data : ∀ c' v f, maps w.spaces w.mem c' v = some f → w'.mem.ram f = w.mem.ram f

theorem step_exit (h : w.Inv) (hs : w.step (.exit c) = some w') : w.Exited w' c := by
  obtain ⟨ret, k, hk, rfl⟩ := step_eq hs
  clear hs
  obtain ⟨x, hx, hk⟩ := Option.bind_eq_some_iff.mp hk
  obtain ⟨m', hm', hk⟩ := Option.map_eq_some_iff.mp hk
  cases hk
  obtain ⟨h', -, hp, hu, hu₀, -, hram, -⟩ := destroy_spec h.owned (spaces_of hx) hm'
  have hsp : ({ w.toKernel with mem := m', contexts := Function.update w.contexts c none } :
      Kernel).spaces = Function.update w.spaces c none := by
    funext c'
    unfold Kernel.spaces
    by_cases hc : c' = c
    · subst hc; simp
    · simp [hc]
  refine ⟨rfl, rfl, fun c' v => ?_, fun f => ?_, fun c' v f hf => ?_⟩
  · show Mmu.pages ({ w.toKernel with mem := m', contexts := Function.update w.contexts c none } :
      Kernel).spaces m' c' v = _
    rw [hsp, hp]
  · show m'.pmm.users f ≤ _
    by_cases hf : f = x.cr3 ∨ ∃ i, tables w.spaces w.mem c i = some f
    · rw [hu₀ f hf]
      exact Nat.zero_le _
    · have := hu f (fun h' => hf (.inl h')) fun h' => hf (.inr h')
      omega
  · refine hram f ?_
    rintro rfl
    exact h.owned.not_structural hf (.inl ⟨c, spaces_of hx⟩)

/-- A process can always exit. -/
theorem exit_happens (h : w.Inv) (hc : w.contexts c ≠ none) : ∃ w', w.step (.exit c) = some w' := by
  obtain ⟨x, hx⟩ := Option.ne_none_iff_exists'.mp hc
  obtain ⟨m', hm'⟩ := destroy_isSome h.owned (spaces_of hx)
  refine ⟨w.after (.exit c) 0 { w.toKernel with
    mem := m', contexts := Function.update w.contexts c none }, ?_⟩
  rw [step, Kernel.step, hx, Option.bind_some, hm']
  rfl

/-! ### Page faults and writes -/

theorem step_fault {write : Bool} (h : w.Inv) (ha : a < physBase)
    (hs : w.step (.fault c a write) = some w') :
    ∃ m', w' = { w with mem := m' } ∧ Faulted w.spaces w.mem m' c a write := by
  obtain ⟨ret, k, hk, rfl⟩ := step_eq hs
  clear hs
  obtain ⟨x, hx, hk⟩ := Option.bind_eq_some_iff.mp hk
  obtain ⟨⟨done, m'⟩, hm', hk⟩ := Option.map_eq_some_iff.mp hk
  cases hk
  exact ⟨m', rfl, (fault_spec h.owned (spaces_of hx) ha hm').2⟩

/-- At a read-only page whose frame is marked a write fault ends, with the page writable or
copied. -/
theorem write_fault_happens {e : BitVec 32} (h : w.Inv)
    (hp : pages w.spaces w.mem c (a / 4096) = some e) (hro : isRw e = false)
    (hcow : w.mem.pmm.cow (frameOf e) = true) (hlook : LookOk w.mem.pmm)
    (hroom : 0 < freeFrames w.mem.pmm) :
    ∃ m', w.step (.fault c a true) = some { w with mem := m' } ∧
      (CowSole w.spaces w.mem m' c a e ∨ ∃ f, CowCopied w.spaces w.mem m' c a f e) := by
  obtain ⟨x, hx⟩ := Option.ne_none_iff_exists'.mp (alive_of_page hp)
  have ha : a < physBase := by
    have := page_lt (P := w.spaces) (m := w.mem) (c := c) (v := a / 4096) (by rw [maps, hp]; rfl)
    simp only [userPdes, physBase] at *
    omega
  obtain ⟨m', hm'⟩ := doCow_happens h.owned (spaces_of hx) hp hro hcow hlook hroom
  have hs : w.toKernel.step (.fault c a true) = some (1, { w.toKernel with mem := m' }) := by
    rw [Kernel.step, hx, Option.bind_some, handlePagefault, if_pos rfl, hm']
    rfl
  obtain ⟨hno, -⟩ | ⟨-, -, e', he', -, -, hcase⟩ := doCow_spec h.owned (spaces_of hx) ha hm'
  · cases hno
  · rw [hp] at he'
    cases he'
    exact ⟨m', by rw [step, hs]; rfl, hcase⟩

/-- Afterwards the page is writable. -/
theorem write_fault_grants {e : BitVec 32} (h : w.Inv)
    (hp : pages w.spaces w.mem c (a / 4096) = some e) (hro : isRw e = false)
    (hcow : w.mem.pmm.cow (frameOf e) = true) (hlook : LookOk w.mem.pmm)
    (hroom : 0 < freeFrames w.mem.pmm) :
    ∃ w' e', w.step (.fault c a true) = some w' ∧
      pages w'.spaces w'.mem c (a / 4096) = some e' ∧ isRw e' = true := by
  obtain ⟨m', hs, hsole | ⟨f, hcopy⟩⟩ := write_fault_happens h hp hro hcow hlook hroom
  · exact ⟨_, _, hs, (hsole.mapped c _).trans (if_pos ⟨rfl, rfl⟩), by simp⟩
  · exact ⟨_, _, hs, (hcopy.mapped c _).trans (if_pos ⟨rfl, rfl⟩), by simp⟩

/-- What a write does: the byte is in the frame of a page that may be written to. -/
structure Stored (w w' : World) (c a : Nat) (b : BitVec 8) (e : BitVec 32) : Prop where
  same : ∃ m', w' = { w with mem := m' } ∧ m'.pmm = w.mem.pmm ∧
    pages w.spaces m' = pages w.spaces w.mem
  page : pages w.spaces w.mem c (a / 4096) = some e
  writable : isRw e = true
  ram : ∀ g off, w'.mem.ram g off =
    if g = frameOf e ∧ off = a % 4096 then b else w.mem.ram g off

theorem step_store (h : w.Inv) (hs : w.step (.store c a b) = some w') :
    ∃ e, w.Stored w' c a b e := by
  obtain ⟨ret, k, hk, rfl⟩ := step_eq hs
  clear hs
  obtain ⟨x, hx, hk⟩ := Option.bind_eq_some_iff.mp hk
  obtain ⟨m', hm', hk⟩ := Option.map_eq_some_iff.mp hk
  cases hk
  obtain ⟨e, hp, hrw, -, -, hps, -, hpmm, hram⟩ := userStore_spec h.owned (spaces_of hx) hm'
  exact ⟨e, ⟨m', rfl, hpmm, hps⟩, hp, hrw, hram⟩

/-- A write leaves the page directories and page tables as they are. -/
theorem Stored.structural {e : BitVec 32} (h : w.Inv) (hs : w.Stored w' c a b e) {g : Nat}
    (hg : Structural w.spaces w.mem g) : w'.mem.ram g = w.mem.ram g := by
  funext off
  refine (hs.ram g off).trans (if_neg ?_)
  rintro ⟨rfl, -⟩
  exact h.owned.not_structural (c := c) (v := a / 4096) (by rw [maps, hs.page]; rfl) hg

/-- A write to another frame changes nothing that the process reads. -/
theorem reads_store {e : BitVec 32} (h : w.Inv) (hs : w.Stored w' c a b e) {a' : Nat}
    (hne : maps w.spaces w.mem c' (a' / 4096) ≠ some (frameOf e)) :
    w'.reads c' a' = w.reads c' a' := by
  obtain ⟨⟨m', rfl, -, -⟩, hpage, -, hram⟩ := hs
  have hdata : ∀ g, g ≠ frameOf e → m'.ram g = w.mem.ram g := by
    intro g hg
    funext off
    exact (hram g off).trans (if_neg fun h' => hg h'.1)
  have hnot : ¬ Structural w.spaces w.mem (frameOf e) :=
    h.owned.not_structural (c := c) (v := a / 4096) (by rw [maps, hpage]; rfl)
  unfold reads
  cases hx : w.contexts c' with
  | none => rfl
  | some x =>
      have hc := spaces_of hx
      have hdir : ∀ i, m'.entry x.cr3 i = w.mem.entry x.cr3 i := fun i =>
        entry_congr (hdata _ fun heq => hnot (heq ▸ .inl ⟨c', hc⟩)) i
      simp only [Option.bind_some, Mem.userLoad]
      by_cases hpr : isPr (w.mem.entry x.cr3 (pdIndex a')) = true ∧ a' < physBase
      · have ht : tables w.spaces w.mem c' (pdIndex a') =
            some (frameOf (w.mem.entry x.cr3 (pdIndex a'))) := by
          rw [tables_eq hc]
          exact table_eq_some.mpr ⟨pdIndex_lt hpr.2, hpr.1, rfl⟩
        have htab : m'.userReadable x.cr3 a' = w.mem.userReadable x.cr3 a' := by
          unfold Mem.userReadable
          rw [hdir, entry_congr (hdata _ fun heq => hnot (heq ▸ .inr ⟨c', _, ht⟩))]
        rw [htab]
        cases hr : w.mem.userReadable x.cr3 a' with
        | none => rfl
        | some p =>
            have hp := (userReadable_pages hc hr).1
            have hpf : frameOf p ≠ frameOf e := by
              rw [maps, hp] at hne
              simpa using hne
            simp only [Option.map_some, hdata _ hpf]
      · have hno : ∀ m : Mem, m.entry x.cr3 (pdIndex a') = w.mem.entry x.cr3 (pdIndex a') →
            m.userReadable x.cr3 a' = none := by
          intro m hm
          unfold Mem.userReadable
          rw [hm, if_neg]
          rintro ⟨hk, hp, -⟩
          exact hpr ⟨hp, by simpa [isKernel] using hk⟩
        rw [hno m' (hdir _), hno w.mem rfl]
        rfl

end Muxomucota.Mmu.World
