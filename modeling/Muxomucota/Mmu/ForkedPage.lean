import Muxomucota.Mmu.FirstTouch

/-!
# Mmu — a page before and after a fork

What programs do to a page that they have: a write, a write fault and a fork take place, and leave the
pages of the other processes theirs.  A process with a single page starts a family: parent and child
write to the page that they shared, each to its own, and the parent exits.
-/

namespace Muxomucota.Mmu.World
open Memory Pmm Lib

variable {w w' : World} {op : Op} {c c' a a' f : Nat} {e e' : BitVec 32} {b : BitVec 8}

/-- User programs reach the page at `a`, and write to it where the page itself allows it. -/
structure HasPage (w : World) (c a : Nat) (e : BitVec 32) : Prop where
  page : pages w.spaces w.mem c (a / 4096) = some e
  user : isUs e = true
  dir : ∀ x, w.contexts c = some x → isUs (w.mem.entry x.cr3 (pdIndex a)) = true ∧
    isRw (w.mem.entry x.cr3 (pdIndex a)) = true

/-- Another address of the page. -/
theorem HasPage.same_page (h : w.HasPage c a e) (hpage : a' / 4096 = a / 4096) :
    w.HasPage c a' e := by
  have hdir : pdIndex a' = pdIndex a := by rw [← page_div, hpage, page_div]
  exact ⟨by rw [hpage, h.page], h.user, by rw [hdir]; exact h.dir⟩

/-- The page is the same afterwards, and so is the page directory. -/
theorem HasPage.keep {m' : Mem} (h : w.HasPage c a e)
    (hpage : pages w.spaces m' c (a / 4096) = pages w.spaces w.mem c (a / 4096))
    (hdir : ∀ x, w.contexts c = some x → m'.ram x.cr3 = w.mem.ram x.cr3) :
    ({ w with mem := m' } : World).HasPage c a e := by
  refine ⟨hpage.trans h.page, h.user, fun x hx => ?_⟩
  show isUs (m'.entry x.cr3 _) = true ∧ isRw (m'.entry x.cr3 _) = true
  rw [entry_congr (hdir x hx)]
  exact h.dir x hx

theorem HasPage.maps (h : w.HasPage c a e) : maps w.spaces w.mem c (a / 4096) = some (frameOf e) := by
  rw [Mmu.maps, h.page]; rfl

/-! ### Reads and writes -/

theorem HasPage.reads (h : w.HasPage c a e) :
    w.reads c a = some (w.mem.ram (frameOf e) (a % 4096)) := by
  obtain ⟨x, hx⟩ := Option.ne_none_iff_exists'.mp (alive_of_page h.page)
  rw [World.reads, hx, Option.bind_some, Mem.userLoad,
    readable_of_page (spaces_of hx) h.page (h.dir x hx).1 h.user]
  rfl

theorem HasPage.store_happens (hi : w.Inv) (h : w.HasPage c a e) (hrw : isRw e = true)
    (b : BitVec 8) : ∃ w', w.step (.store c a b) = some w' ∧ w.Stored w' c a b e := by
  obtain ⟨x, hx⟩ := Option.ne_none_iff_exists'.mp (alive_of_page h.page)
  obtain ⟨hus, hdir⟩ := h.dir x hx
  have hstore : ∃ m', w.mem.userStore x.cr3 a b = some m' := by
    rw [Mem.userStore, readable_of_page (spaces_of hx) h.page hus h.user, Option.bind_some,
      if_pos ⟨hdir, hrw⟩]
    exact ⟨_, rfl⟩
  obtain ⟨m', hm'⟩ := hstore
  have hs : w.step (.store c a b) = some (w.after (.store c a b) 0 { w.toKernel with mem := m' }) := by
    rw [step, Kernel.step, hx, Option.bind_some, hm']
    rfl
  obtain ⟨p, hst⟩ := step_store hi hs
  have hpage := hst.page
  rw [h.page] at hpage
  cases hpage
  exact ⟨_, hs, hst⟩

/-- A write leaves the pages where they are. -/
theorem Stored.hasPage {p : BitVec 32} (hi : w.Inv) (hs : w.Stored w' c a b e)
    (h : w.HasPage c' a' p) : w'.HasPage c' a' p := by
  have hdir : ∀ x, w.contexts c' = some x → w'.mem.ram x.cr3 = w.mem.ram x.cr3 := fun x hx =>
    hs.structural hi (.inl ⟨c', spaces_of hx⟩)
  obtain ⟨⟨m', rfl, -, hps⟩, -⟩ := hs
  exact h.keep (by rw [hps]) hdir

theorem Stored.pmm (hs : w.Stored w' c a b e) : w'.mem.pmm = w.mem.pmm := by
  obtain ⟨⟨m', rfl, hpmm, -⟩, -⟩ := hs
  exact hpmm

theorem Stored.tables (hi : w.Inv) (hs : w.Stored w' c a b e) :
    tables w'.spaces w'.mem = tables w.spaces w.mem := by
  have hstr : ∀ g, Structural w.spaces w.mem g → w'.mem.ram g = w.mem.ram g := fun g hg =>
    hs.structural hi hg
  obtain ⟨⟨m', rfl, -⟩, -⟩ := hs
  have hviews := views_of_data hstr
  exact hviews.1

/-! ### Forks and write faults -/

theorem isUs_cloned (hpr : isPr e = true) : isUs (cloned e) = true := by
  rw [cloned, if_pos hpr, isUs_entry]
  decide

/-- After a fork parent and child have the page with the same frame, which is marked. -/
theorem HasPage.fork (hi : w.Inv) (h : w.HasPage c a e) (hs : w.step (.fork c) = some w') :
    w'.HasPage c a (frozen e) ∧ w'.HasPage w.nextContext a (cloned e) ∧
      w'.mem.pmm.cow (frameOf e) = true ∧ 1 < w'.mem.pmm.users (frameOf e) := by
  obtain ⟨x, hx⟩ := Option.ne_none_iff_exists'.mp (alive_of_page h.page)
  have hf := step_fork hi hs
  have hok : w.StepOk (.fork c) := trivial
  have hi' := inv_step hi hok hs
  obtain ⟨hdir, ⟨y, hy, hchild⟩, -⟩ := fork_directories hi hx hs
  have hne : c ≠ w.nextContext := (hi.lt_next (alive_of_page h.page)).ne
  obtain ⟨t, ht, hpr, -⟩ := pages_eq_some.mp h.page
  rw [page_div, tables_eq (spaces_of hx)] at ht
  obtain ⟨hlow, hpde, -⟩ := table_eq_some.mp ht
  have hparent : w'.HasPage c a (frozen e) := by
    refine ⟨by rw [hf.parent, h.page]; rfl, by rw [isUs_frozen]; exact h.user, fun x' hx' => ?_⟩
    rw [hf.old c hne, hx] at hx'
    cases hx'
    rw [entry_congr hdir]
    exact h.dir x hx
  have hnew : w'.HasPage w.nextContext a (cloned e) := by
    refine ⟨by rw [hf.child, h.page]; rfl, isUs_cloned hpr, fun y' hy' => ?_⟩
    rw [hy] at hy'
    cases hy'
    exact hchild _ hlow hpde
  refine ⟨hparent, hnew, (hf.cow _).mpr (.inr ⟨_, h.maps⟩), ?_⟩
  -- two pages have the frame
  have hpos := hi'.owned.page_pos hparent.page
  have hfirst := hparent.maps
  have hsecond := hnew.maps
  rw [frameOf_frozen] at hpos hfirst
  rw [frameOf_cloned] at hsecond
  by_contra hone
  have hsame := hi'.owned.sole (s := .page c (a / 4096)) (q := .page w.nextContext (a / 4096))
    ⟨by omega, rfl⟩ hfirst hsecond
  simp only [Slot.page.injEq] at hsame
  exact hne hsame.1

/-- **What a write fault leaves behind** at a page whose frame is marked. -/
structure Unshared (w w' : World) (c a : Nat) (e e' : BitVec 32) : Prop where
  same : ∃ m', w' = { w with mem := m' }
  own : w'.HasPage c a e' ∧ isRw e' = true
  others : ∀ {c' a' p}, c' ≠ c → w.HasPage c' a' p → w'.HasPage c' a' p
  marked : 1 < w.mem.pmm.users (frameOf e) → w'.mem.pmm.cow = w.mem.pmm.cow
  look : LookOk w'.mem.pmm
  room : freeFrames w.mem.pmm ≤ freeFrames w'.mem.pmm + 1

theorem HasPage.write_fault (hi : w.Inv) (h : w.HasPage c a e) (hro : isRw e = false)
    (hcow : w.mem.pmm.cow (frameOf e) = true) (hlook : LookOk w.mem.pmm)
    (hroom : 0 < freeFrames w.mem.pmm) :
    ∃ w' e', w.step (.fault c a true) = some w' ∧ w.Unshared w' c a e e' := by
  -- whatever happens to the page, its directory entry and the other processes' pages stay
  have after : ∀ {m' : Mem} {p : BitVec 32}, (∀ c' v, pages w.spaces m' c' v =
        if c' = c ∧ v = a / 4096 then some p else pages w.spaces w.mem c' v) →
      (∀ c' d, w.spaces c' = some d → m'.ram d = w.mem.ram d) → isUs p = true →
      ({ w with mem := m' } : World).HasPage c a p ∧ ∀ {c' a' q}, c' ≠ c → w.HasPage c' a' q →
        ({ w with mem := m' } : World).HasPage c' a' q := by
    intro m' p hmapped hdirs hus
    refine ⟨⟨(hmapped c _).trans (if_pos ⟨rfl, rfl⟩), hus, fun x hx => ?_⟩, fun {c' a' q} hne hq => ?_⟩
    · show isUs (m'.entry x.cr3 _) = true ∧ isRw (m'.entry x.cr3 _) = true
      rw [entry_congr (hdirs c _ (spaces_of hx))]
      exact h.dir x hx
    · exact hq.keep (by rw [hmapped, if_neg fun h' => hne h'.1]) fun x hx => hdirs c' _ (spaces_of hx)
  obtain ⟨m', hs, hsole | ⟨f, hcopy⟩⟩ := write_fault_happens hi h.page hro hcow hlook hroom
  · obtain ⟨hown, hothers⟩ := after hsole.mapped hsole.dirs (by simp [h.user])
    refine ⟨_, _, hs, ⟨m', rfl⟩, ⟨hown, by simp⟩, hothers, fun hshared => ?_, hsole.look hlook, ?_⟩
    · have := hsole.one_user
      omega
    · show _ ≤ freeFrames m'.pmm + 1
      rw [hsole.room]
      omega
  · obtain ⟨hown, hothers⟩ := after hcopy.mapped hcopy.dirs (by simp)
    exact ⟨_, _, hs, ⟨m', rfl⟩, ⟨hown, by simp⟩, hothers, fun _ => funext hcopy.cow, hcopy.look hlook,
      hcopy.room.ge⟩

/-! ### One process with one page -/

/-- One process with one page, which user programs may read and write. -/
structure OnePage (w : World) (f : Nat) : Prop where
  next : w.nextContext = 1
  kpd : w.kpd = .empty
  noShm : ∀ id, w.shm id = none
  pages : ∀ c v, Mmu.pages w.spaces w.mem c v =
    if c = 0 ∧ v = 2048 then some (entry f (pageFlags (vmmUr ||| vmmUw))) else none
  tables : ∀ i, i ≠ 2 → Mmu.tables w.spaces w.mem 0 i = none
  hasPage : w.HasPage 0 0x800000 (entry f (pageFlags (vmmUr ||| vmmUw)))
  small : f < 2 ^ 20
  users : w.mem.pmm.users f = 1
  look : LookOk w.mem.pmm
  room : 13 ≤ freeFrames w.mem.pmm

theorem run_withoutShm {ret : Nat} {k : Kernel} (op : Op) (ok : w.WithoutShm op)
    (h : w.toKernel.step op = some (ret, k)) : Run step WithoutShm w [op] (w.after op ret k) :=
  .one ok (by rw [step, h]; rfl)

theorem onePage_starts : ∃ w f,
    Run step WithoutShm (boot 16) [.create, .setHeapTop 0 0x800000, .sbrk 0 4096] w ∧ w.OnePage f := by
  have hfree : freeFrames (boot 16).mem.pmm = 16 := by decide
  obtain ⟨w₁, pd, hs₁, hcr⟩ :=
    create_happens (inv_boot boot_boot) rfl (lookOk_boot 16) (by rw [hfree]; decide)
  have hok₁ : (boot 16).WithoutShm .create := trivial
  have hrun₁ : Run step WithoutShm (boot 16) [.create] w₁ := .one hok₁ hs₁
  have hi₁ := inv_step (inv_boot boot_boot) hok₁.stepOk hs₁
  have hx₁ : w₁.contexts 0 = some ⟨pd, 0⟩ := by rw [hcr.contexts]; exact Function.update_self ..
  have hnone : ∀ c v, Mmu.pages w₁.spaces w₁.mem c v = none := fun c v => by rw [hcr.pages]; rfl
  have hno : ∀ c i, Mmu.tables w₁.spaces w₁.mem c i = none := fun c i => by rw [hcr.tables]; rfl
  -- the heap begins
  have htop : w₁.toKernel.step (.setHeapTop 0 0x800000) =
      some (0, w₁.toKernel.setHeapEnd 0 ⟨pd, 0⟩ (0x800000 % 2 ^ 32) w₁.mem) := by
    rw [Kernel.step, hx₁]
    rfl
  have hok₂ : w₁.WithoutShm (.setHeapTop 0 0x800000) := trivial
  have hrun₂ := hrun₁.trans (run_withoutShm _ hok₂ htop)
  have hi₂ := (inv_step hi₁ hok₂.stepOk (by rw [step, htop]; rfl) :
    (w₁.after (.setHeapTop 0 0x800000) 0 (w₁.setHeapEnd 0 ⟨pd, 0⟩ (0x800000 % 2 ^ 32) w₁.mem)).Inv)
  generalize hw₂ : w₁.after (.setHeapTop 0 0x800000) 0
    (w₁.setHeapEnd 0 ⟨pd, 0⟩ (0x800000 % 2 ^ 32) w₁.mem) = w₂ at hrun₂ hi₂
  have hx₂ : w₂.contexts 0 = some ⟨pd, 0x800000⟩ := by
    rw [← hw₂]
    exact w₁.toKernel.setHeapEnd_contexts 0 ⟨pd, 0⟩ _ w₁.mem
  have hsp₂ : w₂.spaces = w₁.spaces := by
    rw [← hw₂]
    exact spaces_setHeapEnd w₁.toKernel hx₁ _ _
  have hmem₂ : w₂.mem = w₁.mem := by rw [← hw₂]; rfl
  have hc := spaces_of hx₂
  have hroom := hcr.room
  -- and grows
  obtain ⟨f, m₁, m₂, ha, hm₂, hlook, hroom₂, hsbrk, hok⟩ := sbrk_grows (v := 2048) hx₂ rfl (by decide)
    (by rw [hsp₂, hmem₂]; exact hnone 0 _) (by rw [hmem₂]; exact hcr.look) (by rw [hmem₂]; omega)
  obtain ⟨-, hn⟩ := freshPage_spec hi₂.owned hc ha rfl (fun _ _ => rfl) hm₂
  obtain ⟨hram, -, -, hu₀, -, hu, -⟩ := alloc_spec ha
  obtain ⟨ho₁, hlt⟩ := hi₂.owned.alloc ha
  have hnot : ¬ Structural w₂.spaces m₁ f := by
    rw [Owned.structural_of_ram hram]
    exact hi₂.owned.free_not_structural hu₀
  obtain ⟨-, -, -, hto⟩ := mapUserPage_spec ho₁ hc hm₂ hlt hnot (by rw [hu, if_pos rfl]; decide)
  have hidx : pdIndex (2048 * 4096) = 2 := by simp [pdIndex]
  have hempty : m₁.entry pd (pdIndex (2048 * 4096)) = 0 := by
    rw [entry_congr (congrFun hram pd), hmem₂, hidx]
    exact hcr.empty 2 (by decide)
  obtain ⟨hus, hrw, -⟩ := mapUserPage_empty ho₁ hc (by simp [physBase]) hempty hm₂
  rw [hidx] at hto
  have hok₃ : w₂.WithoutShm (.sbrk 0 4096) := hok
  have hrun₃ := hrun₂.trans (run_withoutShm _ hok₃ hsbrk)
  have hpages : ∀ heapEnd c v,
      Mmu.pages (w₂.setHeapEnd 0 ⟨pd, 0x800000⟩ heapEnd m₂).spaces m₂ c v =
      if c = 0 ∧ v = 2048 then some (entry f (pageFlags (vmmUr ||| vmmUw))) else none := fun heapEnd c v => by
    have hpage : ((c = 0 ∧ v = 2048 * 4096 / 4096) ∧ 2048 * 4096 < physBase) ↔ c = 0 ∧ v = 2048 := by
      simp [physBase]
    rw [spaces_setHeapEnd w₂.toKernel hx₂, hn.mapped, hsp₂, hmem₂, hnone]
    exact if_congr hpage rfl rfl
  refine ⟨_, f, hrun₃, ?_, ?_, fun id => ?_, hpages _, fun i hi => ?_,
    ⟨(hpages _ 0 _).trans (if_pos ⟨rfl, by simp⟩), by rw [isUs_entry]; decide, fun x hx => ?_⟩, hlt,
    hn.users, hlook, ?_⟩
  · show w₂.nextContext = 1
    rw [← hw₂]
    exact hcr.next
  · show w₂.kpd = .empty
    rw [← hw₂]
    exact hcr.kpd
  · show w₂.shm id = none
    rw [← hw₂]
    exact congrFun hcr.shm id
  · show Mmu.tables (w₂.setHeapEnd 0 _ _ m₂).spaces m₂ 0 i = none
    rw [spaces_setHeapEnd w₂.toKernel hx₂, hto 0 i (fun h => hi h.2),
      (views_of_ram (P := w₂.spaces) hram).1, hsp₂, hmem₂, hno]
  · have hx := (w₂.toKernel.setHeapEnd_contexts 0 _ _ m₂).symm.trans hx
    cases hx
    exact ⟨hus, hrw⟩
  · show 13 ≤ freeFrames m₂.pmm
    rw [hmem₂] at hroom₂
    omega

theorem isPr_ur_uw (f : Nat) : isPr (entry f (pageFlags (vmmUr ||| vmmUw))) = true := by
  rw [isPr_entry]; exact isPr_pageFlags _

namespace OnePage

theorem frame (h : w.OnePage f) : frameOf (entry f (pageFlags (vmmUr ||| vmmUw))) = f :=
  frameOf_entry h.small (isFlags_pageFlags _)

/-- The process may write to the page. -/
theorem store (hi : w.Inv) (h : w.OnePage f) (b : BitVec 8) :
    ∃ w', w.step (.store 0 0x800000 b) = some w' ∧ w'.OnePage f := by
  obtain ⟨w', hs, hst⟩ := h.hasPage.store_happens hi (by rw [isRw_entry]; decide) b
  have hpage := hst.hasPage hi h.hasPage
  have htables := hst.tables hi
  have hpmm := hst.pmm
  obtain ⟨⟨m', rfl, -, hps⟩, -⟩ := hst
  exact ⟨_, hs, h.next, h.kpd, h.noShm, fun c v => (congrFun (congrFun hps c) v).trans (h.pages c v),
    fun i hi => (congrFun (congrFun htables 0) i).trans (h.tables i hi), hpage, h.small,
    by rw [hpmm]; exact h.users, by rw [hpmm]; exact h.look, by rw [hpmm]; exact h.room⟩

end OnePage

/-! ### A family -/

/-- The only process forks. -/
structure Forking (w w₁ : World) (e : BitVec 32) : Prop where
  next : w.nextContext = 1
  fork : w.step (.fork 0) = some w₁
  after : w₁.nextContext = 2
  kpd : w₁.kpd = .empty
  parent : w₁.HasPage 0 0x800000 (frozen e)
  child : w₁.HasPage 1 0x800000 (cloned e)
  present : isPr e = true
  marked : w₁.mem.pmm.cow (frameOf e) = true
  shared : w₁.mem.pmm.users (frameOf e) = 2
  look : LookOk w₁.mem.pmm
  room : 11 ≤ freeFrames w₁.mem.pmm

/-- The child writes to the page and gets a copy. -/
theorem Forking.copies {w₁ : World} (hi : w₁.Inv) (h : w.Forking w₁ e) :
    ∃ w₂ e₂, w₁.step (.fault 1 0x800000 true) = some w₂ ∧ w₁.Unshared w₂ 1 0x800000 (cloned e) e₂ := by
  have hroom := h.room
  exact h.child.write_fault hi (isRw_cloned h.present) (by rw [frameOf_cloned]; exact h.marked) h.look
    (by omega)

theorem fork_kpd (hs : w.step (.fork c) = some w') : w'.kpd = w.kpd := by
  obtain ⟨ret, k, hk, rfl⟩ := step_eq hs
  obtain ⟨x, -, hk⟩ := Option.bind_eq_some_iff.mp hk
  obtain ⟨r, -, hk⟩ := Option.bind_eq_some_iff.mp hk
  obtain ⟨m', -, hk⟩ := Option.map_eq_some_iff.mp hk
  cases hk
  rfl

theorem OnePage.fork (hi : w.Inv) (h : w.OnePage f) :
    ∃ w₁, w.Forking w₁ (entry f (pageFlags (vmmUr ||| vmmUw))) := by
  have hsum : tableSum w.spaces w.mem 0 userPdes ≤ 1 := tableSum_le_one h.tables _
  have hroom := h.room
  have halive := alive_of_page h.hasPage.page
  obtain ⟨w₁, hs, hlook, hroom₁⟩ := fork_happens hi halive h.look (by omega) fun g v hg => by
    rw [maps, h.pages] at hg
    split at hg
    · rw [Option.map_some, h.frame] at hg
      cases hg
      rw [h.users]
      decide
    · cases hg
  obtain ⟨x, hx⟩ := Option.ne_none_iff_exists'.mp halive
  obtain ⟨-, -, husers⟩ := fork_directories hi hx hs
  obtain ⟨hparent, hchild, hcow, hshared⟩ := h.hasPage.fork hi hs
  rw [h.next] at hchild
  have hu := h.users
  have htwice := husers f (by omega)
  rw [h.frame] at hshared
  exact ⟨w₁, h.next, hs, by rw [(step_fork hi hs).next, h.next], (fork_kpd hs).trans h.kpd, hparent,
    hchild, isPr_ur_uw f, hcow, by rw [h.frame]; omega, hlook, by omega⟩

/-- The process writes to its page and forks. -/
theorem forking_starts : ∃ w w₁ e, Run step WithoutShm (boot 16)
    [.create, .setHeapTop 0 0x800000, .sbrk 0 4096, .store 0 0x800000 7] w ∧
      w.shows 0 0x800000 = some 7 ∧ w.Forking w₁ e := by
  obtain ⟨w₀, f, hrun, h₀⟩ := onePage_starts
  have hi₀ := (sole_run boot_boot hrun).1
  obtain ⟨w, hs, h⟩ := h₀.store hi₀ 7
  have hok : w₀.WithoutShm (.store 0 0x800000 7) := trivial
  obtain ⟨w₁, h₁⟩ := h.fork (inv_step hi₀ hok.stepOk hs)
  exact ⟨w, w₁, _, hrun.snoc hok hs, shows_store hi₀ hs, h₁⟩

/-- The child gets its copy of the page and writes next to what it inherited; then the parent writes
where it wrote before the fork, and exits. -/
theorem family_runs {e : BitVec 32} {w₁ : World} (hi₁ : w₁.Inv) (h₁ : w.Forking w₁ e) :
    ∃ w₂ w₃ w₄, w₁.step (.fault 1 0x800000 true) = some w₂ ∧ w₂.step (.store 1 0x800001 8) = some w₃ ∧
      Run step (fun u op => Elsewhere 1 0x800000 u op ∧ Elsewhere 1 0x800001 u op) w₃
        [.fault 0 0x800000 true, .store 0 0x800000 9, .exit 0] w₄ ∧ w₄.contexts 1 ≠ none := by
  have hroom := h₁.room
  have hlow : 0x800000 < physBase := by decide
  -- the child
  obtain ⟨w₂, e₂, hs₂, h₂⟩ := h₁.copies hi₁
  have hroom₂ := h₂.room
  have hok₂ : w₁.StepOk (.fault 1 0x800000 true) := hlow
  have hi₂ := inv_step hi₁ hok₂ hs₂
  have hnext : w₂.HasPage 1 0x800001 e₂ := h₂.own.1.same_page rfl
  obtain ⟨w₃, hs₃, hst₃⟩ := hnext.store_happens hi₂ h₂.own.2 8
  have hok₃ : w₂.StepOk (.store 1 0x800001 8) := trivial
  have hi₃ := inv_step hi₂ hok₃ hs₃
  have hchild := hst₃.hasPage hi₂ h₂.own.1
  -- the parent
  have hparent := hst₃.hasPage hi₂ (h₂.others (by decide) h₁.parent)
  have hmarked : w₃.mem.pmm.cow (frameOf (frozen e)) = true := by
    rw [hst₃.pmm, h₂.marked (by rw [frameOf_cloned, h₁.shared]; decide), frameOf_frozen]
    exact h₁.marked
  obtain ⟨w₄, e₄, hs₄, h₄⟩ := hparent.write_fault hi₃ (isRw_frozen h₁.present) hmarked
    (by rw [hst₃.pmm]; exact h₂.look) (by rw [hst₃.pmm]; omega)
  have hok₄ : w₃.StepOk (.fault 0 0x800000 true) := hlow
  have hi₄ := inv_step hi₃ hok₄ hs₄
  obtain ⟨w₅, hs₅, hst₅⟩ := h₄.own.1.store_happens hi₄ h₄.own.2 9
  have hok₅ : w₄.StepOk (.store 0 0x800000 9) := trivial
  have hi₅ := inv_step hi₄ hok₅ hs₅
  obtain ⟨w₆, hs₆⟩ := exit_happens hi₅ (alive_of_page (hst₅.hasPage hi₄ h₄.own.1).page)
  refine ⟨w₂, w₃, w₆, hs₂, hs₃, ?_, ?_⟩
  · have hothers : ∀ (u : World) a, Elsewhere 1 a u (.fault 0 0x800000 true) ∧
        Elsewhere 1 a u (.store 0 0x800000 9) ∧ Elsewhere 1 a u (.exit 0) := fun u a =>
      ⟨⟨hlow, trivial⟩, ⟨trivial, fun h => absurd h.1 (by decide)⟩, trivial, trivial⟩
    exact ((Run.one ⟨(hothers _ _).1, (hothers _ _).1⟩ hs₄).snoc
      ⟨(hothers _ _).2.1, (hothers _ _).2.1⟩ hs₅).snoc ⟨(hothers _ _).2.2, (hothers _ _).2.2⟩ hs₆
  · rw [(step_exit hi₅ hs₆).contexts, Function.update_of_ne (by decide)]
    exact alive_of_page (hst₅.hasPage hi₄ (h₄.others (by decide) hchild)).page

/-- After all this the child finds what the parent had written by the fork, and its own byte; and a
page of the stack that nobody has touched gets a frame that nobody else has. -/
theorem fork_isolation_family :
    (∃ w w₁ w₂, Run step WithoutShm (boot 16)
        [.create, .setHeapTop 0 0x800000, .sbrk 0 4096, .store 0 0x800000 7] w ∧
      w.step (.fork 0) = some w₁ ∧
      Run step (Elsewhere 1 0x800000) w₁ [.fault 1 0x800000 true, .store 1 0x800001 8,
        .fault 0 0x800000 true, .store 0 0x800000 9, .exit 0] w₂ ∧
      w₂.Holds 1 0x800000 7 ∧ w₂.Holds 1 0x800001 8) ∧
    ∃ w w₁ f, Run step WithoutShm numbered [.create, .fork 0] w ∧
      w.step (.fault 0 userStackBase false) = some w₁ ∧
      maps w₁.spaces w₁.mem 0 (userStackBase / 4096) = some f ∧ w.mem.pmm.users f = 0 ∧
      ∀ c v, maps w₁.spaces w₁.mem c v = some f → c = 0 ∧ v = userStackBase / 4096 := by
  constructor
  · obtain ⟨w, w₁, e, hrun, hshows, h₁⟩ := forking_starts
    have hfork : w.WithoutShm (.fork 0) := trivial
    have hrun₁ := hrun.snoc hfork h₁.fork
    have hfault : w₁.WithoutShm (.fault 1 0x800000 true) := (by decide : 0x800000 < physBase)
    obtain ⟨w₂, w₃, w₄, hs₂, hs₃, hrest, hlive⟩ := family_runs (sole_run boot_boot hrun₁).1 h₁
    have hfirst : Run step (Elsewhere 1 0x800000) w₁ _ w₄ :=
      ((Run.one ⟨hfault, trivial⟩ hs₂).snoc ⟨trivial, fun h => absurd h.2 (by decide)⟩ hs₃).trans
        (hrest.mono fun _ _ h => h.1)
    obtain ⟨ops, hops, hlive'⟩ : ∃ ops, Run step (Elsewhere w.nextContext 0x800000) w₁ ops w₄ ∧
        w₄.contexts w.nextContext ≠ none := by
      rw [h₁.next]
      exact ⟨_, hfirst, hlive⟩
    have hinherited := (fork_isolation boot_boot hrun).inherited hshows h₁.fork hops hlive'
    rw [h₁.next] at hinherited
    exact ⟨w, w₁, w₄, hrun, h₁.fork, hfirst, hinherited,
      (fork_isolation boot_boot (hrun₁.snoc hfault hs₂)).own hs₃ (hrest.mono fun _ _ h => h.2) hlive⟩
  · obtain ⟨w, w₁, x, y, hrun, hfork, -, hu⟩ := untouched_fork
    have hok : w.WithoutShm (.fork 0) := trivial
    have hrun₁ := hrun.snoc hok hfork
    obtain ⟨m, g, hs, ht, -⟩ := fault_touches hu.parent hu.stack.1 hu.used.1 hu.frames hu.look
      (by rw [hu.room]; decide)
    have hno : w₁.shows 0 userStackBase = none := by
      have htable : tables w₁.spaces w₁.mem 0 (pdIndex userStackBase) = none := by
        rw [tables_eq (spaces_of hu.parent), Mem.table, hu.stack.1]
        simp [present, isPr_lazyEntry]
      rw [shows, maps, pages_eq_bind, page_div, htable]
      rfl
    obtain ⟨f, hf, -⟩ := shows_eq_some.mp
      (shows_of_reads (reads_of_load (w := { w₁ with mem := m }) hu.parent ht.load))
    obtain ⟨hfree, hown, -⟩ := (fork_isolation boot_numbered hrun₁).fresh hs (by decide) hno hf
    exact ⟨w₁, _, f, hrun₁, hs, hf, hfree, fun c v => hown c v⟩

end Muxomucota.Mmu.World
