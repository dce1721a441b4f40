import Muxomucota.Mmu.ForkedPage

/-!
# Mmu — shared memory and copy-on-write

`vmmc_make_shm` takes the frames as it finds them in the page tables, also those that a fork has left
to two processes, and `vmmc_open_shm` maps them as the caller likes.  So it is not the code that keeps
an object away from the processes that neither made nor opened it, its parties; it is what the steps
are asked for in `Guarded`: nobody else comes to see a frame of the object that a party may write to.
-/

namespace Muxomucota.Mmu
open Memory Pmm Lib

variable {ρ : Type} {P : Nat → Option Nat} {R : ρ → Option Nat} {d : Nat → Int} {m m' m₁ : Mem}
  {c pd v f : Nat} {flags : BitVec 32} {sg sg' : ShmSg}

/-! ### The pages of a mapping -/

theorem userMapSg_pages {fs : List Nat} {start : Nat} (h : Owned P R d m) (hc : P c = some pd)
    (hfs : ∀ f ∈ fs, m.pmm.users f ≠ 0 ∧ ¬ Structural P m f ∧ f < 2 ^ 20)
    (hm : vmmcUserMapSg m pd fs flags = some (start, m')) :
    NewPages P m c (fun e => ∃ f ∈ fs, e = entry f (pageFlags flags)) m' := by
  unfold vmmcUserMapSg at hm
  split at hm
  · cases hm
    exact .of_pages rfl
  · obtain ⟨b, hb, hm⟩ := Option.map_eq_some_iff.mp hm
    cases hm
    exact (mapFrames_pages h hc hfs hb).2.2

/-- The new pages after an open have the frames of the object. -/
theorem openShm_pages {ret : Nat} (h : Owned P R 0 m) (hc : P c = some pd)
    (hfs : sg.keptAlive = true ∨ sg.users ≠ 0 →
      ∀ f ∈ sg.frames, m.pmm.users f ≠ 0 ∧ ¬ Structural P m f ∧ f < 2 ^ 20)
    (hm : vmmcOpenShm m pd sg flags = some (ret, sg', m')) :
    NewPages P m c (fun e => ∃ f ∈ sg'.phys, e = entry f (pageFlags flags)) m' := by
  unfold vmmcOpenShm at hm
  split at hm
  · rename_i hlive
    obtain ⟨⟨start, m₁⟩, hmap, hm⟩ := Option.bind_eq_some_iff.mp hm
    have hnew : NewPages P m c (fun e => ∃ f ∈ sg.phys, e = entry f (pageFlags flags)) m₁ :=
      (userMapSg_pages h hc (hfs hlive) hmap).mono fun e ⟨f, hf, he⟩ =>
        ⟨f, List.mem_of_mem_take hf, he⟩
    dsimp only at hm
    split at hm
    · cases hm
      exact hnew
    · split at hm
      · cases hm
        exact hnew
      · obtain ⟨b, hb, hm⟩ := Option.map_eq_some_iff.mp hm
        cases hm
        exact hnew.trans (.of_pages (views_of_ram (useAll_ram hb)).2)
  · obtain ⟨⟨fs, m₀⟩, halloc, hm⟩ := Option.bind_eq_some_iff.mp hm
    obtain ⟨⟨start, m₁⟩, hmap, hm⟩ := Option.bind_eq_some_iff.mp hm
    obtain ⟨h₀, hram₀, -, -, hnew₀⟩ := allocAll_spec h halloc
    have hfs₀ : ∀ f ∈ fs, m₀.pmm.users f ≠ 0 ∧ ¬ Structural P m₀ f ∧ f < 2 ^ 20 := fun f hf =>
      ⟨(hnew₀ f hf).2.1, fun hs => (hnew₀ f hf).2.2.1 ((Owned.structural_of_ram hram₀ f).mp hs),
        (hnew₀ f hf).2.2.2⟩
    have hnew : NewPages P m c (fun e => ∃ f ∈ fs, e = entry f (pageFlags flags)) m₁ :=
      NewPages.trans (.of_pages (views_of_ram hram₀).2) (userMapSg_pages h₀ hc hfs₀ hmap)
    dsimp only at hm
    split at hm
    · obtain ⟨b, hb, hm⟩ := Option.map_eq_some_iff.mp hm
      cases hm
      exact hnew.trans (.of_pages (views_of_ram (freeAll_ram hb)).2)
    · cases hm
      exact hnew

/-- The pages that `vmmc_make_shm` maps have frames that nobody had. -/
theorem makeShmPage_pages {virt : Nat} (h : Owned P R d m) (hc : P c = some pd)
    (hm : makeShmPage m pd virt = some (f, m')) :
    NewPages P m c (fun e => m.pmm.users (frameOf e) = 0) m' := by
  unfold makeShmPage at hm
  split at hm
  · obtain ⟨⟨done, b⟩, hb, hm⟩ := Option.bind_eq_some_iff.mp hm
    dsimp only at hm
    split at hm
    · have ha : virt < physBase := by
        by_contra ha
        simp [takeShmPage, ha] at hm
      obtain ⟨hob, hl⟩ := lazyMap_spec h hc ha hb
      obtain ⟨-, -, -, htake, -⟩ := takeShmPage_spec hob hc hm
      rcases hl with ⟨-, hpages, -⟩ | ⟨-, g, x, hl⟩
      · exact .of_pages (htake.trans hpages)
      · refine ⟨fun c' hcc v => ?_, fun v e he => ?_⟩
        · rw [htake, hl.mapped, if_neg fun h' => hcc h'.1]
        · rw [htake, hl.mapped] at he
          split at he
          · cases he
            exact .inr (by rw [hl.names]; exact hl.free)
          · exact .inl he
    · cases hm
  · obtain ⟨-, -, -, htake, -⟩ := takeShmPage_spec h hc hm
    exact .of_pages htake

theorem makeShm_pages {areas : List (Nat × Int)} {offset : Nat} (h : Owned P R d m)
    (hc : P c = some pd) (hm : vmmcMakeShm m pd areas offset = some (sg, m')) :
    NewPages P m c (fun e => m.pmm.users (frameOf e) = 0) m' ∧
      ∀ f ∈ sg.phys, ∃ virt ∈ makeShmPages areas, maps P m' c (virt / 4096) = some f := by
  obtain ⟨r, hr, hm⟩ := Option.map_eq_some_iff.mp hm
  cases hm
  refine (foldlM_rule (P := fun pre (b : List Nat × Mem) => Owned P R (d - counts b.1) b.2 ∧
    Extended P m b.2 ∧ NewPages P m c (fun e => m.pmm.users (frameOf e) = 0) b.2 ∧
      ∀ f ∈ b.1, ∃ virt ∈ pre, maps P b.2 c (virt / 4096) = some f) hr
    ⟨by simpa using h, .refl _ _, .of_pages rfl, by simp⟩ ?_).2.2
  rintro pre virt post ⟨gs, b⟩ b' - ⟨hb, hx, hnew, hgs⟩ hstep
  obtain ⟨⟨f, b₁⟩, hb₁, rfl⟩ := Option.map_eq_some_iff.mp hstep
  obtain ⟨ho, hx', hold, hf⟩ := makeShmPage_spec hb hc hb₁
  rw [sub_sub, ← counts_singleton, ← counts_append] at ho
  have hnew' := (makeShmPage_pages hb hc hb₁).mono fun e hu =>
    (by_contra fun hne => hx.inUse _ hne hu : m.pmm.users (frameOf e) = 0)
  refine ⟨ho, hx.trans hx', hnew.trans hnew', fun g hg => ?_⟩
  rcases List.mem_append.mp hg with hg | hg
  · obtain ⟨u, hu, hmaps⟩ := hgs g hg
    exact ⟨u, by simp [hu], hold c _ g hmaps⟩
  · obtain rfl := List.mem_singleton.mp hg
    exact ⟨virt, by simp, hf⟩

namespace World

variable {w w' w₀ : World} {op : Op} {ops : List Op} {id : Nat}

/-! ### Who sees a frame, and who may write to it -/

/-- A page of the process has the frame. -/
def Sees (w : World) (c f : Nat) : Prop := ∃ v, maps w.spaces w.mem c v = some f

/-- A page of the process has the frame, and the process may write to it. -/
def MayWrite (w : World) (c f : Nat) : Prop :=
  ∃ v e, pages w.spaces w.mem c v = some e ∧ isRw e = true ∧ frameOf e = f

/-- The processes that made or opened an object, when `c` opens object `id`. -/
def partyWith (w : World) (c id : Nat) : Nat → List Nat :=
  Function.update w.party id (c :: w.party id)

/-- Where a party of an object may write to a frame of it, only parties see the frame. -/
def Confined (w : World) : Prop :=
  ∀ id sg f p, w.shm id = some sg → f ∈ sg.phys → p ∈ w.party id → w.MayWrite p f →
    ∀ c, w.Sees c f → c ∈ w.party id

/-- What a step is asked for. -/
def Guarded (w : World) : Op → Prop
  -- the child sees what its parent sees: no other party may write to it
  | .fork c => ∀ id sg f p, w.shm id = some sg → f ∈ sg.phys → p ∈ w.party id → p ≠ c →
      w.MayWrite p f → ¬ w.Sees c f
  -- where the maker may write to a frame that it gives away, nobody else sees the frame
  | .shmMake c _ areas _ => ∀ virt ∈ makeShmPages areas, ∀ f,
      maps w.spaces w.mem c (virt / 4096) = some f → w.MayWrite c f → ∀ c', w.Sees c' f → c' = c
  -- the frames have their users already, and an object that has them too may be another one
  | .shmOpen c id flags => ∀ sg, w.shm id = some sg → sg.keptAlive = true ∨ sg.users ≠ 0 →
      ∀ f ∈ sg.phys, ∀ id' sg' p, w.shm id' = some sg' → f ∈ sg'.phys → p ∈ w.partyWith c id id' →
        w.MayWrite p f ∨ p = c ∧ isRw (pageFlags flags) = true →
          ∀ c', w.Sees c' f ∨ c' = c → c' ∈ w.partyWith c id id'
  | _ => True

/-- **The condition.** -/
def ShmOk (w : World) (op : Op) : Prop := w.StepOk op ∧ w.Guarded op

theorem sees_of_page {e : BitVec 32} (h : pages w.spaces w.mem c v = some e) :
    w.Sees c (frameOf e) :=
  ⟨v, by rw [maps, h]; rfl⟩

theorem MayWrite.inUse (hi : w.Inv) (h : w.MayWrite c f) : w.mem.pmm.users f ≠ 0 := by
  obtain ⟨v, e, he, -, rfl⟩ := h
  have := hi.owned.page_pos he
  omega

theorem Sees.inUse (hi : w.Inv) (h : w.Sees c f) : w.mem.pmm.users f ≠ 0 := by
  obtain ⟨v, hv⟩ := h
  obtain ⟨e, he, rfl⟩ := Option.map_eq_some_iff.mp hv
  have := hi.owned.page_pos he
  omega

/-- A frame with one user is seen by one process. -/
theorem sees_sole {p : Nat} (hi : w.Inv) (hone : w.mem.pmm.users f = 1) (hp : w.Sees p f)
    (hc : w.Sees c f) : c = p := by
  obtain ⟨u, hu⟩ := hp
  obtain ⟨v, hv⟩ := hc
  have hsame := hi.owned.sole (s := .page c v) (q := .page p u) ⟨hone, rfl⟩ hv hu
  simp only [Slot.page.injEq] at hsame
  exact hsame.1

/-- Without a fork and an open nobody comes to see a frame that is in use. -/
theorem sees_before (hi : w.Inv) (ok : w.StepOk op) (hfork : ∀ p, op ≠ .fork p)
    (hopen : ∀ p id flags, op ≠ .shmOpen p id flags) (hs : w.step op = some w')
    (hu : w.mem.pmm.users f ≠ 0) (h : w'.Sees c f) : w.Sees c f := by
  obtain ⟨ret, k, hk, rfl⟩ := step_eq hs
  obtain ⟨v, hv⟩ := h
  cases (preserved_step hi ok hk).2 c v f hv with
  | already u h => exact ⟨u, h⟩
  | fresh h => exact absurd h hu
  | forked p u isFork child h => exact absurd isFork (hfork p)
  | opened id flags sg isOpen object live hf done => exact absurd isOpen (hopen c id flags)

/-! ### One step -/

/-- The objects with parties are the old ones, and who may write to a frame is alone with it or was
so before, together with all who see it. -/
theorem Confined.keep (hc : w.Confined)
    (hobj : ∀ id sg p, w'.shm id = some sg → p ∈ w'.party id →
      w'.party id = w.party id ∧ ∃ sg₀, w.shm id = some sg₀ ∧ sg.phys = sg₀.phys)
    (hwrite : ∀ p f, w'.MayWrite p f → (∀ c, w'.Sees c f → c = p) ∨
      w.MayWrite p f ∧ ∀ c, w'.Sees c f → w.Sees c f) : w'.Confined := by
  intro id sg f p hsg hf hp hmay c hsees
  obtain ⟨hparty, sg₀, hsg₀, hphys⟩ := hobj id sg p hsg hp
  rcases hwrite p f hmay with hsole | ⟨hmay, hback⟩
  · rw [hsole c hsees]
    exact hp
  · rw [hparty] at hp ⊢
    exact hc id sg₀ f p hsg₀ (hphys ▸ hf) hp hmay c (hback c hsees)

/-- Pages only go. -/
theorem Confined.shrink (hc : w.Confined)
    (hobj : ∀ id sg p, w'.shm id = some sg → p ∈ w'.party id →
      w'.party id = w.party id ∧ ∃ sg₀, w.shm id = some sg₀ ∧ sg.phys = sg₀.phys)
    (hp : ∀ c v e, pages w'.spaces w'.mem c v = some e → pages w.spaces w.mem c v = some e) :
    w'.Confined := by
  refine hc.keep hobj fun p f ⟨v, e, he, hrw, hf⟩ => .inr ⟨⟨v, e, hp p v e he, hrw, hf⟩, ?_⟩
  rintro c ⟨u, hu⟩
  obtain ⟨e', he', rfl⟩ := Option.map_eq_some_iff.mp hu
  exact sees_of_page (hp c u e' he')

/-- A step that only grants the right to write to pages with frames of their own. -/
theorem confined_grants (hi : w.Inv) (hc : w.Confined) (ok : w.WithoutShm op)
    (hfork : ∀ p, op ≠ .fork p) (hs : w.step op = some w') (hshm : w'.shm = w.shm)
    (hparty : w'.party = w.party) : w'.Confined := by
  have hi' := inv_step hi ok.stepOk hs
  refine hc.keep (fun id sg p hsg _ => ⟨by rw [hparty], sg, by rwa [← hshm], rfl⟩) ?_
  rintro p f ⟨v, e, he, hrw, rfl⟩
  rcases grants_step hi ok hfork hs p v e he hrw with hone | ⟨hold, -⟩
  · exact .inl fun c hsees => sees_sole hi' hone (sees_of_page he) hsees
  · have hmay : w.MayWrite p (frameOf e) := ⟨v, e, hold, hrw, rfl⟩
    refine .inr ⟨hmay, fun c hsees => ?_⟩
    refine sees_before hi ok.stepOk hfork (fun q id flags hop => ?_) hs (hmay.inUse hi) hsees
    subst hop
    exact ok

theorem confined_fork (hi : w.Inv) (hc : w.Confined) (hg : w.Guarded (.fork c))
    (hs : w.step (.fork c) = some w') (hshm : w'.shm = w.shm) (hparty : w'.party = w.party) :
    w'.Confined := by
  have hf := step_fork hi hs
  intro id sg f p hsg hmem hp ⟨v, e, he, hrw, hfr⟩ c' hsees
  rw [hshm] at hsg
  rw [hparty] at hp ⊢
  obtain ⟨-, hpc, he⟩ := hf.writable he hrw
  have hmay : w.MayWrite p f := ⟨v, e, he, hrw, hfr⟩
  -- what the child sees its parent saw, and where a party may write the parent saw nothing
  have hnot : ¬ w.Sees c f := hg id sg f p hsg hmem hp hpc hmay
  obtain ⟨u, hu⟩ := hsees
  refine hc id sg f p hsg hmem hp hmay c' ⟨u, ?_⟩
  by_cases hchild : c' = w.nextContext
  · subst hchild
    rw [maps, hf.child, map_cloned_frame] at hu
    exact absurd ⟨u, hu⟩ hnot
  · by_cases hparent : c' = c
    · subst hparent
      rw [maps, hf.parent, map_frozen_frame] at hu
      exact hu
    · rw [maps, hf.other c' u hchild hparent] at hu
      exact hu

/-- Who sees a frame after new pages, saw it before or has one of the new pages. -/
theorem sees_new {q : Nat} {new : BitVec 32 → Prop} (hsp : w'.spaces = w.spaces)
    (hn : NewPages w.spaces w.mem c new w'.mem) (h : w'.Sees q f) :
    w.Sees q f ∨ q = c ∧ ∃ e, new e ∧ frameOf e = f := by
  obtain ⟨u, hu⟩ := h
  rw [hsp] at hu
  by_cases hq : q = c
  · subst hq
    obtain ⟨e, he, rfl⟩ := Option.map_eq_some_iff.mp hu
    exact (hn.own u e he).imp sees_of_page fun h => ⟨rfl, e, h, rfl⟩
  · rw [maps, hn.other q hq] at hu
    exact .inl ⟨u, hu⟩

theorem mayWrite_new {q : Nat} {new : BitVec 32 → Prop} (hsp : w'.spaces = w.spaces)
    (hn : NewPages w.spaces w.mem c new w'.mem) (h : w'.MayWrite q f) :
    w.MayWrite q f ∨ q = c ∧ ∃ e, new e ∧ isRw e = true ∧ frameOf e = f := by
  obtain ⟨u, e, he, hrw, hf⟩ := h
  rw [hsp] at he
  by_cases hq : q = c
  · subst hq
    exact (hn.own u e he).imp (fun he => ⟨u, e, he, hrw, hf⟩) fun h => ⟨rfl, e, h, hrw, hf⟩
  · rw [hn.other q hq] at he
    exact .inl ⟨u, e, he, hrw, hf⟩

theorem MayWrite.sees (h : w.MayWrite c f) : w.Sees c f := by
  obtain ⟨v, e, he, -, rfl⟩ := h
  exact sees_of_page he

/-- Another object and its parties are as before. -/
theorem shm_other {sg : Option ShmSg} {id' : Nat} {x : ShmSg} (hne : id' ≠ id)
    (h : Function.update w.shm id sg id' = some x) : w.shm id' = some x := by
  rwa [Function.update_of_ne hne] at h

theorem confined_shmCreate {sz : Nat} {junk : Nat → Nat} (hc : w.Confined)
    (hs : w.step (.shmCreate c id sz junk) = some w') : w'.Confined := by
  obtain ⟨ret, k, hk, rfl⟩ := step_eq hs
  simp only [Kernel.step] at hk
  split at hk
  · cases hk
    refine hc.shrink (fun id' sg p hsg hp => ?_) fun _ _ _ h => h
    by_cases hid : id' = id
    · -- the new object has no parties
      subst hid
      have hp : p ∈ Function.update w.party id' [] id' := hp
      rw [Function.update_self] at hp
      cases hp
    · exact ⟨Function.update_of_ne hid _ _, sg, shm_other hid hsg, rfl⟩
  · cases hk

theorem confined_shmMake {areas : List (Nat × Int)} {offset : Nat} (hi : w.Inv) (hc : w.Confined)
    (ok : w.StepOk (.shmMake c id areas offset)) (hg : w.Guarded (.shmMake c id areas offset))
    (hs : w.step (.shmMake c id areas offset) = some w') : w'.Confined := by
  have hbefore : ∀ {q f}, w.mem.pmm.users f ≠ 0 → w'.Sees q f → w.Sees q f :=
    sees_before hi ok (by simp) (by simp) hs
  obtain ⟨ret, k, hk, hw⟩ := step_eq hs
  obtain ⟨x, hx, hk⟩ := Option.bind_eq_some_iff.mp hk
  split at hk
  · rename_i hinval
    cases hk
    subst hw
    have hparty : w.partyAfter 0 (.shmMake c id areas offset) = w.party := if_pos hinval
    exact hc.shrink (fun id' sg p hsg _ => ⟨congrFun hparty id', sg, hsg, rfl⟩) fun _ _ _ h => h
  · rename_i hinval
    split at hk
    case isFalse => cases hk
    case isTrue =>
    obtain ⟨⟨sg, m'⟩, hm', hk⟩ := Option.map_eq_some_iff.mp hk
    cases hk
    obtain ⟨hnew, hphys⟩ := makeShm_pages hi.owned (spaces_of hx) hm'
    have hsp : w'.spaces = w.spaces := by rw [hw]; rfl
    have hnew : NewPages w.spaces w.mem c (fun e => w.mem.pmm.users (frameOf e) = 0) w'.mem := by
      rw [hw]; exact hnew
    have hshm : w'.shm = Function.update w.shm id (some sg) := by rw [hw]; rfl
    have hparty : w'.party = Function.update w.party id [c] := by
      rw [hw]; exact if_neg hinval
    intro id' sg' f p hsg' hf hp hmay c' hsees
    rw [hshm] at hsg'
    rw [hparty] at hp ⊢
    have hold : ∀ q, w.mem.pmm.users f = 0 → ¬ w.Sees q f := fun q hu hq => hq.inUse hi hu
    by_cases hu : w.mem.pmm.users f = 0
    · -- a page that was mapped on the way
      obtain ⟨rfl, -⟩ := (sees_new hsp hnew hmay.sees).resolve_left (hold p hu)
      obtain ⟨rfl, -⟩ := (sees_new hsp hnew hsees).resolve_left (hold c' hu)
      exact hp
    · have hmay : w.MayWrite p f := (mayWrite_new hsp hnew hmay).resolve_right
        fun ⟨_, e, hfree, _, he⟩ => hu (he ▸ hfree)
      have hsees : w.Sees c' f := hbefore hu hsees
      by_cases hid : id' = id
      · subst hid
        rw [Function.update_self] at hsg' hp ⊢
        cases hsg'
        obtain rfl := List.mem_singleton.mp hp
        obtain ⟨virt, hvirt, hmaps⟩ := hphys f hf
        obtain ⟨e, he, rfl⟩ := Option.map_eq_some_iff.mp hmaps
        have he : pages w.spaces w.mem p (virt / 4096) = some e :=
          (hnew.own _ e (by rw [hw]; exact he)).resolve_right hu
        rw [hg virt hvirt (frameOf e) (by rw [maps, he]; rfl) hmay c' hsees]
        exact List.mem_singleton_self p
      · rw [Function.update_of_ne hid] at hp ⊢
        exact hc id' sg' f p (shm_other hid hsg') hf hp hmay c' hsees

/-- A frame that the object does not have is not looked at when the object is opened. -/
theorem confined_opened (hc : w.Confined) (hsp : w'.spaces = w.spaces)
    (hnew : NewPages w.spaces w.mem c (fun e => ∃ f ∈ sg'.phys, e = entry f (pageFlags flags)) w'.mem)
    (hsmall : ∀ f ∈ sg'.phys, f < 2 ^ 20)
    (hshm : w'.shm = Function.update w.shm id (some sg'))
    (hparty : ∀ id', id' ≠ id → w'.party id' = w.party id')
    (hin : ∀ f ∈ sg'.phys, ∀ id' x p, w'.shm id' = some x → f ∈ x.phys → p ∈ w'.party id' →
      w'.MayWrite p f → ∀ c', w'.Sees c' f → c' ∈ w'.party id') : w'.Confined := by
  intro id' x f p hx hf hp hmay c' hsees
  by_cases hmem : f ∈ sg'.phys
  · exact hin f hmem id' x p hx hf hp hmay c' hsees
  · have hno : ∀ e, (∃ g ∈ sg'.phys, e = entry g (pageFlags flags)) → frameOf e ≠ f := by
      rintro e ⟨g, hg, rfl⟩ rfl
      rw [frameOf_entry (hsmall g hg) (isFlags_pageFlags flags)] at hmem
      exact hmem hg
    have hmay : w.MayWrite p f := (mayWrite_new hsp hnew hmay).resolve_right
      fun ⟨_, e, he, _, hfe⟩ => hno e he hfe
    have hsees : w.Sees c' f := (sees_new hsp hnew hsees).resolve_right
      fun ⟨_, e, he, hfe⟩ => hno e he hfe
    have hid : id' ≠ id := by
      rintro rfl
      rw [hshm, Function.update_self] at hx
      cases hx
      exact hmem hf
    rw [hshm] at hx
    rw [hparty id' hid] at hp ⊢
    exact hc id' x f p (shm_other hid hx) hf hp hmay c' hsees

theorem partyWith_of_ne {id' : Nat} (hne : id' ≠ id) : w.partyWith c id id' = w.party id' :=
  Function.update_of_ne hne _ _

theorem confined_shmOpen (hi : w.Inv) (hc : w.Confined) (ok : w.StepOk (.shmOpen c id flags))
    (hg : w.Guarded (.shmOpen c id flags)) (hs : w.step (.shmOpen c id flags) = some w') :
    w'.Confined := by
  obtain ⟨ret, k, hk, hw⟩ := step_eq hs
  obtain ⟨x, hx, hk⟩ := Option.bind_eq_some_iff.mp hk
  cases hsg : w.shm id with
  | none =>
      rw [hsg] at hk
      cases hk
      subst hw
      exact hc.shrink (fun id' sg p hsg _ => ⟨rfl, sg, hsg, rfl⟩) fun _ _ _ h => h
  | some sg =>
      rw [hsg] at hk
      obtain ⟨⟨r, sg', m'⟩, hm', hk⟩ := Option.map_eq_some_iff.mp hk
      cases hk
      obtain ⟨hlen, hoff, hsmall⟩ := hi.objects id sg hsg
      have hnew := openShm_pages hi.owned (spaces_of hx) (open_frames hi ok hsg) hm'
      have hsp : w'.spaces = w.spaces := by rw [hw]; rfl
      have hmem : w'.mem = m' := by rw [hw]; rfl
      have hshm : w'.shm = Function.update w.shm id (some sg') := by rw [hw]; rfl
      have hparty : w'.party = if ret = 0 then w.party else w.partyWith c id := by rw [hw]; rfl
      have hother : ∀ id', id' ≠ id → w'.party id' = w.party id' := by
        intro id' hid
        rw [hparty]
        split
        · rfl
        · exact partyWith_of_ne hid
      rw [← hmem] at hnew
      by_cases hlive : sg.keptAlive = true ∨ sg.users ≠ 0
      · obtain ⟨-, ⟨rfl, rfl, rfl⟩ | ⟨hne, hsg', -⟩⟩ :=
          openShm_live hi.owned (spaces_of hx) hlive hoff (open_frames hi ok hsg hlive) hm'
        · -- there was no room for the mapping
          refine hc.shrink (fun id' y p hy _ => ⟨by rw [hparty]; rfl, y, ?_, rfl⟩) fun c v e he => ?_
          · rwa [hshm, ← hsg, Function.update_eq_self] at hy
          · rwa [hsp, hmem] at he
        · have hphys : sg'.phys = sg.phys := by rw [hsg']
          rw [if_neg hne] at hparty
          refine confined_opened hc hsp hnew (hphys ▸ hsmall) hshm hother ?_
          intro f hf id' y p hy hfy hp hmay c' hsees
          obtain ⟨y₀, hy₀, hfy₀⟩ : ∃ y₀, w.shm id' = some y₀ ∧ f ∈ y₀.phys := by
            rw [hshm] at hy
            by_cases hid : id' = id
            · subst hid
              exact ⟨sg, hsg, hphys ▸ hf⟩
            · exact ⟨y, shm_other hid hy, hfy⟩
          rw [hparty] at hp ⊢
          refine hg sg hsg hlive f (hphys ▸ hf) id' y₀ p hy₀ hfy₀ hp ?_ c' ?_
          · refine (mayWrite_new hsp hnew hmay).imp (fun h => h) fun ⟨hpc, e, ⟨g, _, he⟩, hrw, _⟩ => ⟨hpc, ?_⟩
            rwa [he, isRw_entry] at hrw
          · exact (sees_new hsp hnew hsees).imp (fun h => h) And.left
      · -- nobody has seen the new frames
        obtain ⟨-, -, -, hfree, -⟩ := openShm_fresh hi.owned (spaces_of hx) hlive hoff hm'
        refine confined_opened hc hsp hnew (fun f hf => (hfree f hf).2) hshm hother ?_
        intro f hf id' y p hy hfy hp hmay c' hsees
        have hold : ∀ q, ¬ w.Sees q f := fun q hq => hq.inUse hi (hfree f hf).1
        obtain ⟨rfl, -⟩ := (sees_new hsp hnew hmay.sees).resolve_left (hold p)
        obtain ⟨rfl, -⟩ := (sees_new hsp hnew hsees).resolve_left (hold c')
        exact hp

/-- The object is given back, and pages only go. -/
theorem confined_released {sg₀ : ShmSg} {x : Option ShmSg} (hc : w.Confined)
    (hsg : w.shm id = some sg₀) (hshm : w'.shm = Function.update w.shm id x)
    (hphys : ∀ y, x = some y → y.phys = sg₀.phys) (hparty : w'.party = w.party)
    (hp : ∀ c v e, pages w'.spaces w'.mem c v = some e → pages w.spaces w.mem c v = some e) :
    w'.Confined := by
  refine hc.shrink (fun id' y p hy _ => ⟨by rw [hparty], ?_⟩) hp
  rw [hshm] at hy
  by_cases hid : id' = id
  · subst hid
    rw [Function.update_self] at hy
    exact ⟨sg₀, hsg, hphys y hy⟩
  · exact ⟨y, shm_other hid hy, rfl⟩

theorem confined_shmClose {virt : Nat} {destroy : Bool} (hi : w.Inv) (hc : w.Confined)
    (ok : w.StepOk (.shmClose c id virt destroy))
    (hs : w.step (.shmClose c id virt destroy) = some w') : w'.Confined := by
  obtain ⟨ret, k, hk, rfl⟩ := step_eq hs
  obtain ⟨x, hx, hk⟩ := Option.bind_eq_some_iff.mp hk
  cases hsg : w.shm id with
  | none =>
      rw [hsg] at hk
      cases hk
      exact hc.shrink (fun id' sg p hsg _ => ⟨rfl, sg, hsg, rfl⟩) fun _ _ _ h => h
  | some sg =>
      rw [hsg] at hk
      dsimp only at hk
      split at hk
      · obtain ⟨⟨sg', m'⟩, hm', hk⟩ := Option.map_eq_some_iff.mp hk
        cases hk
        obtain ⟨m₁, hm₁, hm'⟩ := Option.bind_eq_some_iff.mp hm'
        obtain ⟨hram, hfields⟩ := releaseShm_fields hm'
        have hu := userUnmap_spec hi.owned (spaces_of hx) (ok sg hsg).1 hm₁
        refine confined_released hc hsg rfl (fun y hy => (hfields y hy).2.1) rfl fun c' v e he => ?_
        have he : pages w.spaces m' c' v = some e := he
        rw [(views_of_ram hram).2, hu.pages] at he
        split at he
        · cases he
        · exact he
      · cases hk
        exact hc.shrink (fun id' sg p hsg _ => ⟨rfl, sg, hsg, rfl⟩) fun _ _ _ h => h

theorem confined_shmUnmake {destroy : Bool} (hc : w.Confined)
    (hs : w.step (.shmUnmake c id destroy) = some w') : w'.Confined := by
  obtain ⟨ret, k, hk, rfl⟩ := step_eq hs
  obtain ⟨x, hx, hk⟩ := Option.bind_eq_some_iff.mp hk
  cases hsg : w.shm id with
  | none =>
      rw [hsg] at hk
      cases hk
      exact hc.shrink (fun id' sg p hsg _ => ⟨rfl, sg, hsg, rfl⟩) fun _ _ _ h => h
  | some sg =>
      rw [hsg] at hk
      obtain ⟨⟨sg', m'⟩, hm', hk⟩ := Option.map_eq_some_iff.mp hk
      cases hk
      obtain ⟨hram, hfields⟩ := releaseShm_fields hm'
      refine confined_released hc hsg rfl (fun y hy => (hfields y hy).2.1) rfl fun c' v e he => ?_
      have he : pages w.spaces m' c' v = some e := he
      rwa [(views_of_ram hram).2] at he

/-- Without shared memory the objects and their parties stay as they are. -/
theorem objects_same (ok : w.WithoutShm op) (hs : w.step op = some w') :
    w'.shm = w.shm ∧ w'.party = w.party := by
  obtain ⟨ret, k, hk, rfl⟩ := step_eq hs
  have hmap : ∀ {α : Type} {o : Option α} {g : α → Nat × Kernel}, (∀ a, (g a).2.shm = w.shm) →
      o.map g = some (ret, k) → k.shm = w.shm := by
    intro α o g hg h
    obtain ⟨a, -, ha⟩ := Option.map_eq_some_iff.mp h
    have hshm := hg a
    rwa [ha] at hshm
  cases op with
  | create =>
      obtain ⟨r, -, hk⟩ := Option.bind_eq_some_iff.mp hk
      exact ⟨hmap (fun _ => rfl) hk, rfl⟩
  | fork c =>
      obtain ⟨x, -, hk⟩ := Option.bind_eq_some_iff.mp hk
      obtain ⟨r, -, hk⟩ := Option.bind_eq_some_iff.mp hk
      exact ⟨hmap (fun _ => rfl) hk, rfl⟩
  | setHeapTop c address => exact ⟨hmap (fun _ => rfl) hk, rfl⟩
  | loadPage c base offset bytes =>
      obtain ⟨x, -, hk⟩ := Option.bind_eq_some_iff.mp hk
      exact ⟨hmap (fun _ => rfl) hk, rfl⟩
  | exec c =>
      obtain ⟨x, -, hk⟩ := Option.bind_eq_some_iff.mp hk
      exact ⟨hmap (fun _ => rfl) hk, rfl⟩
  | exit c =>
      obtain ⟨x, -, hk⟩ := Option.bind_eq_some_iff.mp hk
      exact ⟨hmap (fun _ => rfl) hk, rfl⟩
  | fault c address write =>
      obtain ⟨x, -, hk⟩ := Option.bind_eq_some_iff.mp hk
      exact ⟨hmap (fun _ => rfl) hk, rfl⟩
  | store c address byte =>
      obtain ⟨x, -, hk⟩ := Option.bind_eq_some_iff.mp hk
      exact ⟨hmap (fun _ => rfl) hk, rfl⟩
  | sbrk c inc =>
      obtain ⟨x, -, hk⟩ := Option.bind_eq_some_iff.mp hk
      exact ⟨hmap (fun _ => rfl) hk, rfl⟩
  | _ => exact ok.elim

theorem confined_withoutShm (hs : w.step op = some w') (hi : w.Inv) (hc : w.Confined)
    (ok : w.WithoutShm op) (hg : w.Guarded op) : w'.Confined := by
  obtain ⟨hshm, hparty⟩ := objects_same ok hs
  by_cases hfork : ∃ p, op = .fork p
  · obtain ⟨p, rfl⟩ := hfork
    exact confined_fork hi hc hg hs hshm hparty
  · exact confined_grants hi hc ok (fun p hp => hfork ⟨p, hp⟩) hs hshm hparty

/-- **One step** that is guarded shows no frame of an object to an outsider where a party may write. -/
theorem confined_step (hi : w.Inv) (hc : w.Confined) (ok : w.ShmOk op) (hs : w.step op = some w') :
    w'.Confined := by
  obtain ⟨ok, hg⟩ := ok
  cases op with
  | shmCreate c id sz junk => exact confined_shmCreate hc hs
  | shmMake c id areas offset => exact confined_shmMake hi hc ok hg hs
  | shmOpen c id flags => exact confined_shmOpen hi hc ok hg hs
  | shmClose c id virt destroy => exact confined_shmClose hi hc ok hs
  | shmUnmake c id destroy => exact confined_shmUnmake hc hs
  | _ => exact confined_withoutShm hs hi hc ok hg

theorem confined_boot (hb : w.Boot) : w.Confined := by
  intro id sg f p hsg
  rw [hb.noShm] at hsg
  cases hsg

theorem confined_run (hb : w₀.Boot) (h : Run step ShmOk w₀ ops w) : w.Inv ∧ w.Confined :=
  h.invariant (I := fun u => u.Inv ∧ u.Confined)
    (fun _ _ _ ⟨hi, hc⟩ ok hs => ⟨inv_step hi ok.1 hs, confined_step hi hc ok hs⟩)
    ⟨inv_boot hb, confined_boot hb⟩

/-! ### What the others read -/

/-- **Isolation of shared memory**: what a party of an object writes to the object changes nothing that
the processes read that neither made nor opened it. -/
def ShmIsolated (w : World) : Prop :=
  ∀ {id sg p a b w₁}, w.shm id = some sg → p ∈ w.party id →
    (∃ f ∈ sg.phys, maps w.spaces w.mem p (a / 4096) = some f) → w.step (.store p a b) = some w₁ →
      ∀ {c a'}, c ∉ w.party id → w₁.reads c a' = w.reads c a'

theorem Confined.isolated (hi : w.Inv) (hc : w.Confined) : w.ShmIsolated := by
  intro id sg p a b w₁ hsg hp ⟨f, hf, hmaps⟩ hs c a' hout
  obtain ⟨e, hst⟩ := step_store hi hs
  rw [maps, hst.page] at hmaps
  cases hmaps
  refine reads_store hi hst fun hsees => hout ?_
  exact hc id sg (frameOf e) p hsg hf hp ⟨_, e, hst.page, hst.writable, rfl⟩ c ⟨_, hsees⟩

/-- **Shared memory respects copy-on-write** in every run whose steps meet the condition. -/
theorem shm_isolation (hb : w₀.Boot) (h : Run step ShmOk w₀ ops w) : w.ShmIsolated :=
  (confined_run hb h).2.isolated (confined_run hb h).1

/-! ### An object made of a page that a fork has left to two processes -/

/-- Without objects, steps without shared memory are guarded, and no object comes to be. -/
theorem shmOk_run (hno : ∀ id, w.shm id = none) (h : Run step WithoutShm w ops w') :
    Run step ShmOk w ops w' ∧ ∀ id, w'.shm id = none := by
  induction h with
  | refl => exact ⟨.refl _, hno⟩
  | @more s s₁ s' op _ ok hs _ ih =>
      have hguarded : s.Guarded op := by
        cases op with
        | fork c =>
            intro id sg _ _ hsg
            rw [hno] at hsg
            cases hsg
        | shmMake c id areas offset => exact ok.elim
        | shmOpen c id flags => exact ok.elim
        | _ => trivial
      obtain ⟨hrun, hno'⟩ := ih fun id => by rw [(objects_same ok hs).1, hno]
      exact ⟨.more ⟨ok.stepOk, hguarded⟩ hs hrun, hno'⟩

/-- An object is made of a single page that is there. -/
theorem shmMake_happens {x : VmmContext} {e : BitVec 32} {virt : Nat} (hi : w.Inv)
    (hx : w.contexts c = some x) (hid : w.shm id = none)
    (hp : pages w.spaces w.mem c (virt / 4096) = some e) (hus : isUs e = true) (ha : virt < physBase)
    (hvirt : virt % 4096 = 0) (hmax : w.mem.pmm.users (frameOf e) < 127) :
    ∃ m', w.mem.use (frameOf e) = some m' ∧ w.toKernel.step (.shmMake c id [(virt, 1)] 0) =
      some (id, w.setShm id (some ⟨4096, 1, 0, false, [frameOf e]⟩) m') := by
  obtain ⟨m', hm', hmake⟩ :=
    makeShm_one (spaces_of hx) hp hus ha hvirt (hi.owned.page_pos hp) hmax
  refine ⟨m', hm', ?_⟩
  rw [Kernel.step, hx, Option.bind_some, if_neg (by simp), if_pos hid, hmake]
  rfl

/-- It is opened where the mapping area is empty. -/
theorem shmOpen_happens {x : VmmContext} (flags : BitVec 32) (hi : w.Inv) (hx : w.contexts c = some x)
    (hsg : w.shm id = some ⟨4096, 1, 0, false, [f]⟩) (hsees : ∃ p, w.Sees p f)
    (hno : pages w.spaces w.mem c (userMapBase / 4096) = none) (hlook : LookOk w.mem.pmm)
    (hroom : 0 < freeFrames w.mem.pmm) (hmax : w.mem.pmm.users f < 127) :
    ∃ m₁ m', vmmcMapUserPageUnlocked w.mem x.cr3 userMapBase f flags = some m₁ ∧
      m₁.use f = some m' ∧ w.toKernel.step (.shmOpen c id flags) =
        some (userMapBase, w.setShm id (some ⟨4096, 2, 0, false, [f]⟩) m') ∧
      ∀ c' v, pages w.spaces m' c' v = if c' = c ∧ v = userMapBase / 4096 then
        some (entry f (pageFlags flags)) else pages w.spaces w.mem c' v := by
  obtain ⟨p, v, hv⟩ := hsees
  obtain ⟨e, he, rfl⟩ := Option.map_eq_some_iff.mp hv
  have hu := hi.owned.page_pos he
  have hnot := hi.owned.not_structural hv
  obtain ⟨m₁, m', hm₁, hm', hopen⟩ := openShm_one flags hi.owned (spaces_of hx) hno hlook hroom
    (frameOf_lt e) hnot hu hmax
  obtain ⟨-, -, hp, -⟩ := mapUserPage_spec hi.owned (spaces_of hx) hm₁ (frameOf_lt e) hnot hu.ne'
  refine ⟨m₁, m', hm₁, hm', ?_, fun c' v => ?_⟩
  · rw [Kernel.step, hx, Option.bind_some]
    simp only [hsg, hopen, Option.map_some]
  · have hbelow : ((c' = c ∧ v = userMapBase / 4096) ∧ userMapBase < physBase) ↔
        c' = c ∧ v = userMapBase / 4096 := and_iff_left (by decide)
    rw [(views_of_ram (use_spec hm').1).2, hp]
    exact if_congr hbelow rfl rfl

/-- **What is there after an object was made** of a page with frame `f`. -/
structure Made (w w' : World) (c f : Nat) : Prop where
  contexts : w'.contexts = w.contexts
  ram : w'.mem.ram = w.mem.ram
  shm : w'.shm = Function.update w.shm 1 (some ⟨4096, 1, 0, false, [f]⟩)
  party : w'.party 1 = [c]
  users : w'.mem.pmm.users f = w.mem.pmm.users f + 1
  look : LookOk w'.mem.pmm
  room : freeFrames w'.mem.pmm = freeFrames w.mem.pmm

namespace Made

theorem spaces (h : w.Made w' c f) : w'.spaces = w.spaces := by
  unfold Kernel.spaces
  rw [h.contexts]

theorem pages (h : w.Made w' c f) : Mmu.pages w'.spaces w'.mem = Mmu.pages w.spaces w.mem := by
  rw [h.spaces, (views_of_ram h.ram).2]

theorem hasPage {c' a : Nat} {p : BitVec 32} (h : w.Made w' c f) (hp : w.HasPage c' a p) :
    w'.HasPage c' a p := by
  refine ⟨by rw [h.pages, hp.page], hp.user, fun x hx => ?_⟩
  rw [entry_congr (congrFun h.ram _)]
  exact hp.dir x (h.contexts ▸ hx)

theorem sees {p g : Nat} (h : w.Made w' c f) : w'.Sees p g ↔ w.Sees p g := by
  unfold Sees maps
  rw [h.pages]

end Made

theorem HasPage.make {e : BitVec 32} (hi : w.Inv) (h : w.HasPage c 0x800000 e) (hno : w.shm 1 = none)
    (hlook : LookOk w.mem.pmm) (hfew : w.mem.pmm.users (frameOf e) ≤ 2) :
    ∃ w', w.step (.shmMake c 1 [(0x800000, 1)] 0) = some w' ∧
      w.StepOk (.shmMake c 1 [(0x800000, 1)] 0) ∧ w.Made w' c (frameOf e) := by
  obtain ⟨x, hx⟩ := Option.ne_none_iff_exists'.mp (alive_of_page h.page)
  obtain ⟨m', hm', hs⟩ :=
    shmMake_happens hi hx hno h.page h.user (by decide) (by simp) (by omega)
  obtain ⟨hram, -, -, -, hu, -⟩ := use_spec hm'
  have hparty : (w.after (.shmMake c 1 [(0x800000, 1)] 0) 1
      (w.setShm 1 (some ⟨4096, 1, 0, false, [frameOf e]⟩) m')).party 1 = [c] := by
    show Function.update w.party 1 [c] 1 = [c]
    exact Function.update_self ..
  exact ⟨w.after (.shmMake c 1 [(0x800000, 1)] 0) 1
    (w.setShm 1 (some ⟨4096, 1, 0, false, [frameOf e]⟩) m'), by rw [step, hs]; rfl,
    ⟨by simp, by simp [makeShmCount]⟩, rfl, hram, rfl, hparty, (hu _).trans (if_pos rfl),
    use_lookOk hlook hm', use_freeFrames hm'⟩

/-- **What is there after the object was opened** for reading and writing. -/
structure Opened (w w' : World) (c f : Nat) (e : BitVec 32) : Prop where
  own : w'.HasPage c userMapBase e
  writable : isRw e = true
  frame : frameOf e = f
  others : ∀ {c' a p}, c' ≠ c → w.HasPage c' a p → w'.HasPage c' a p
  object : ∃ sg, w'.shm 1 = some sg ∧ f ∈ sg.phys
  party : w'.party 1 = c :: w.party 1

theorem opened_happens {x : VmmContext} (hi : w.Inv) (hx : w.contexts c = some x)
    (hdir : w.mem.entry x.cr3 (pdIndex userMapBase) = 0)
    (hno : pages w.spaces w.mem c (userMapBase / 4096) = none)
    (hsg : w.shm 1 = some ⟨4096, 1, 0, false, [f]⟩) (hsees : ∃ p, w.Sees p f)
    (hlook : LookOk w.mem.pmm) (hroom : 0 < freeFrames w.mem.pmm) (hmax : w.mem.pmm.users f < 127) :
    ∃ w' e, w.step (.shmOpen c 1 (vmmUr ||| vmmUw)) = some w' ∧
      w.StepOk (.shmOpen c 1 (vmmUr ||| vmmUw)) ∧ w.Opened w' c f e := by
  obtain ⟨m₁, m', hm₁, hm', hs, hpages⟩ :=
    shmOpen_happens (vmmUr ||| vmmUw) hi hx hsg hsees hno hlook hroom hmax
  obtain ⟨p, v, hv⟩ := hsees
  have hok : w.StepOk (.shmOpen c 1 (vmmUr ||| vmmUw)) := by
    intro sg hsg' _ _ g hg
    rw [hsg] at hsg'
    cases hsg'
    obtain rfl := List.mem_singleton.mp hg
    exact ⟨Sees.inUse hi ⟨v, hv⟩, hi.owned.not_structural hv⟩
  have hlt : f < 2 ^ 20 := (hi.objects 1 _ hsg).2.2 f (List.mem_singleton_self f)
  obtain ⟨hus, hrw, hkeep⟩ := mapUserPage_empty hi.owned (spaces_of hx) (by decide) hdir hm₁
  have hram := (use_spec hm').1
  refine ⟨_, _, by rw [step, hs]; rfl, hok,
    ⟨(hpages c _).trans (if_pos ⟨rfl, rfl⟩), by rw [isUs_entry]; decide, fun y hy => ?_⟩,
    by rw [isRw_entry]; decide, frameOf_entry hlt (isFlags_pageFlags _), fun {c' a q} hne hq => ?_,
    ⟨_, Function.update_self 1 _ w.shm, List.mem_singleton_self f⟩, ?_⟩
  · have hy : w.contexts c = some y := hy
    rw [hx] at hy
    cases hy
    show isUs (m'.entry x.cr3 _) = true ∧ isRw (m'.entry x.cr3 _) = true
    rw [entry_congr (congrFun hram _)]
    exact ⟨hus, hrw⟩
  · refine ⟨(hpages c' _).trans ?_, hq.user, fun y hy => ?_⟩
    · rw [if_neg fun h => hne h.1]
      exact hq.page
    · have hy : w.contexts c' = some y := hy
      have hused : w.mem.pmm.users y.cr3 ≠ 0 := by
        rw [(hi.owned.solo_dir (spaces_of hy)).1]
        decide
      have hdirs : y.cr3 ≠ x.cr3 := fun heq =>
        hne (hi.owned.dir_inj (spaces_of hy) (heq ▸ spaces_of hx))
      show isUs (m'.entry y.cr3 _) = true ∧ isRw (m'.entry y.cr3 _) = true
      rw [entry_congr (congrFun hram _), entry_congr (hkeep _ hused hdirs)]
      exact hq.dir y hy
  · show Function.update w.party 1 (c :: w.party 1) 1 = c :: w.party 1
    exact Function.update_self ..

/-- Parent and child have their pages, with the same frame or not, and a third process has started. -/
structure Family (w : World) (p q : BitVec 32) (pd : Nat) : Prop where
  parent : w.HasPage 0 0x800000 p
  child : w.HasPage 1 0x800000 q
  other : w.contexts 2 = some ⟨pd, 0⟩
  otherDir : w.mem.entry pd (pdIndex userMapBase) = 0
  otherPages : ∀ v, pages w.spaces w.mem 2 v = none
  few : w.mem.pmm.users (frameOf q) ≤ 2
  look : LookOk w.mem.pmm
  room : 0 < freeFrames w.mem.pmm

theorem family_starts {p q : BitVec 32} (hi : w.Inv) (hnext : w.nextContext = 2) (hkpd : w.kpd = .empty)
    (hparent : w.HasPage 0 0x800000 p) (hchild : w.HasPage 1 0x800000 q)
    (hfew : w.mem.pmm.users (frameOf q) ≤ 2) (hlook : LookOk w.mem.pmm)
    (hroom : 2 ≤ freeFrames w.mem.pmm) :
    ∃ w' pd, w.step .create = some w' ∧ w'.Family p q pd := by
  obtain ⟨w', pd, hs, hcr⟩ := create_happens hi hkpd hlook (by omega)
  have hroom' := hcr.room
  have hkeep : ∀ {c e}, w.HasPage c 0x800000 e → w'.HasPage c 0x800000 e := by
    intro c e h
    refine ⟨by rw [hcr.pages, h.page], h.user, fun x hx => ?_⟩
    have hne : c ≠ w.nextContext := (hi.lt_next (alive_of_page h.page)).ne
    rw [hcr.contexts, Function.update_of_ne hne] at hx
    have hdir : x.cr3 ≠ pd := by
      intro heq
      have hone := (hi.owned.solo_dir (spaces_of hx)).1
      have hzero := hcr.free
      rw [heq] at hone
      omega
    rw [entry_congr (hcr.ram _ hdir)]
    exact h.dir x hx
  have hfpd : frameOf q ≠ pd := by
    intro heq
    have := hi.owned.page_pos hchild.page
    have := hcr.free
    rw [heq] at *
    omega
  refine ⟨w', pd, hs, hkeep hparent, hkeep hchild, ?_, hcr.empty _ (by simp [pdIndex, userMapBase]),
    fun v => ?_, by rw [hcr.users, if_neg hfpd]; exact hfew, hcr.look, by omega⟩
  · rw [hcr.contexts, hnext]
    exact Function.update_self ..
  · have hgone : w.contexts 2 = none := hi.unborn 2 (by omega)
    rw [hcr.pages]
    by_contra hp
    obtain ⟨e, he⟩ := Option.ne_none_iff_exists'.mp hp
    exact alive_of_page he hgone

/-- The child makes an object of its page, and the third process opens it. -/
theorem Family.opens {p q : BitVec 32} {pd : Nat} (hi : w.Inv) (h : w.Family p q pd)
    (hno : w.shm 1 = none) : ∃ w₁ w₂ e,
      (w.step (.shmMake 1 1 [(0x800000, 1)] 0) = some w₁ ∧ w.StepOk (.shmMake 1 1 [(0x800000, 1)] 0) ∧
        w.Made w₁ 1 (frameOf q)) ∧
      w₁.step (.shmOpen 2 1 (vmmUr ||| vmmUw)) = some w₂ ∧ w₁.StepOk (.shmOpen 2 1 (vmmUr ||| vmmUw)) ∧
        w₁.Opened w₂ 2 (frameOf q) e := by
  obtain ⟨w₁, hs, hok, hm⟩ := h.child.make hi hno h.look h.few
  have hi₁ := inv_step hi hok hs
  have hfew := h.few
  have hroom := h.room
  obtain ⟨w₂, e, hs₂, hok₂, ho⟩ := opened_happens hi₁ (by rw [hm.contexts]; exact h.other)
    (by rw [entry_congr (congrFun hm.ram _)]; exact h.otherDir) (by rw [hm.pages]; exact h.otherPages _)
    (by rw [hm.shm]; exact Function.update_self 1 _ w.shm)
    ⟨1, hm.sees.mpr (sees_of_page h.child.page)⟩ hm.look (by rw [hm.room]; exact hroom)
    (by rw [hm.users]; omega)
  exact ⟨w₁, w₂, e, ⟨hs, hok, hm⟩, hs₂, hok₂, ho⟩

/-- A child writes to the page that it shares with its parent and so gets a copy, makes an object of
it, and a third process opens the object: what this process writes there the parent does not read. -/
theorem shm_isolation_copy : ∃ w w', Run step ShmOk (boot 16)
    [.create, .setHeapTop 0 0x800000, .sbrk 0 4096, .store 0 0x800000 7, .fork 0, .fault 1 0x800000 true,
      .create, .shmMake 1 1 [(0x800000, 1)] 0, .shmOpen 2 1 (vmmUr ||| vmmUw)] w ∧
    w.step (.store 2 userMapBase 8) = some w' ∧ w.party 1 = [2, 1] ∧ w.reads 0 0x800000 ≠ none ∧
      w'.reads 0 0x800000 = w.reads 0 0x800000 := by
  -- the family, without shared memory
  obtain ⟨w, w₁, e, hrun, -, h₁⟩ := forking_starts
  have hfork : w.WithoutShm (.fork 0) := trivial
  have hrun₁ := hrun.snoc hfork h₁.fork
  obtain ⟨w₂, q, hs₂, h₂⟩ := h₁.copies (sole_run boot_boot hrun₁).1
  have hfault : w₁.WithoutShm (.fault 1 0x800000 true) := (by decide : 0x800000 < physBase)
  have hrun₂ := hrun₁.snoc hfault hs₂
  obtain ⟨hi₂, hsole⟩ := sole_run boot_boot hrun₂
  have hone := hsole 1 _ q h₂.own.1.page h₂.own.2
  have hroom := h₁.room
  have hroom₂ := h₂.room
  have hstart : w₂.nextContext = 2 ∧ w₂.kpd = .empty := by
    obtain ⟨m', rfl⟩ := h₂.same
    exact ⟨h₁.after, h₁.kpd⟩
  obtain ⟨w₃, pd, hs₃, h₃⟩ := family_starts hi₂ hstart.1 hstart.2 (h₂.others (by decide) h₁.parent)
    h₂.own.1 (by omega) h₂.look (by omega)
  have hcreate : w₂.WithoutShm .create := trivial
  have hrun₃ := hrun₂.snoc hcreate hs₃
  obtain ⟨hi₃, hsole₃⟩ := sole_run boot_boot hrun₃
  obtain ⟨hguarded, hno⟩ := shmOk_run boot_boot.noShm hrun₃
  have hone₃ := hsole₃ 1 _ q h₃.child.page h₂.own.2
  -- nobody else sees what the child gives away
  have halone : ∀ {c}, w₃.Sees c (frameOf q) → c = 1 := fun hc =>
    sees_sole hi₃ hone₃ (sees_of_page h₃.child.page) hc
  obtain ⟨w₄, w₅, e', ⟨hs₄, hok₄, hm⟩, hs₅, hok₅, ho⟩ := h₃.opens hi₃ (hno 1)
  have hmake : w₃.Guarded (.shmMake 1 1 [(0x800000, 1)] 0) := by
    intro virt hvirt f hf hmay c' hsees
    obtain rfl : virt = 0x800000 := by simpa [makeShmPages] using hvirt
    rw [h₃.child.maps] at hf
    cases hf
    exact halone hsees
  have hopen : w₄.Guarded (.shmOpen 2 1 (vmmUr ||| vmmUw)) := by
    intro sg hsg _ f hf id sg' p hsg' _ _ _ c' hc'
    rw [hm.shm] at hsg hsg'
    rw [Function.update_self] at hsg
    cases hsg
    obtain rfl := List.mem_singleton.mp hf
    have hid : id = 1 := by
      by_contra hid
      rw [Function.update_of_ne hid, hno] at hsg'
      cases hsg'
    rw [hid, partyWith, Function.update_self, hm.party]
    rcases hc' with hsees | rfl
    · rw [halone (hm.sees.mp hsees)]
      decide
    · decide
  have hall := (hguarded.snoc ⟨hok₄, hmake⟩ hs₄).snoc ⟨hok₅, hopen⟩ hs₅
  have hi₅ := (confined_run boot_boot hall).1
  obtain ⟨w₆, hs₆, -⟩ := ho.own.store_happens hi₅ ho.writable 8
  obtain ⟨sg, hsg, hf⟩ := ho.object
  have hparty := ho.party
  rw [hm.party] at hparty
  have hreads := (ho.others (by decide) (hm.hasPage h₃.parent)).reads
  refine ⟨w₅, w₆, hall, hs₆, hparty, by rw [hreads]; simp, ?_⟩
  exact shm_isolation boot_boot hall hsg (by rw [hparty]; decide)
    ⟨_, hf, by rw [ho.own.maps, ho.frame]⟩ hs₆ (by rw [hparty]; decide)

/-- Process 2 may write to a page of object 1, and process 0, which neither made nor opened it, reads
the page. -/
structure Leaky (w : World) (e e' : BitVec 32) : Prop where
  reader : w.HasPage 0 0x800000 e
  writer : w.HasPage 2 userMapBase e'
  writable : isRw e' = true
  same : frameOf e' = frameOf e
  object : ∃ sg, w.shm 1 = some sg ∧ frameOf e ∈ sg.phys
  party : w.party 1 = [2, 1]

/-- What process 2 writes there, process 0 reads. -/
theorem Leaky.store {e e' : BitVec 32} (hi : w.Inv) (h : w.Leaky e e') (b : BitVec 8) :
    ∃ w', w.step (.store 2 userMapBase b) = some w' ∧ w'.Leaky e e' ∧
      w'.reads 0 0x800000 = some b := by
  obtain ⟨w', hs, hst⟩ := h.writer.store_happens hi h.writable b
  have hreader := hst.hasPage hi h.reader
  have hwriter := hst.hasPage hi h.writer
  have hreads : w'.reads 0 0x800000 = some b := by
    rw [hreader.reads, hst.ram, if_pos ⟨h.same.symm, by simp [userMapBase]⟩]
  obtain ⟨⟨m', rfl, -⟩, -⟩ := hst
  exact ⟨_, hs, ⟨hreader, hwriter, h.writable, h.same, h.object, h.party⟩, hreads⟩

/-- The child makes an object of the page that it shares with its parent, and the third process opens
it. -/
theorem leaky_starts : ∃ w e e', Run step StepOk (boot 16)
    [.create, .setHeapTop 0 0x800000, .sbrk 0 4096, .fork 0, .create,
      .shmMake 1 1 [(0x800000, 1)] 0, .shmOpen 2 1 (vmmUr ||| vmmUw)] w ∧ w.Leaky e e' := by
  obtain ⟨w, f, hrun, h⟩ := onePage_starts
  obtain ⟨w₁, h₁⟩ := h.fork (sole_run boot_boot hrun).1
  have hfork : w.WithoutShm (.fork 0) := trivial
  have hrun₁ := hrun.snoc hfork h₁.fork
  have hroom := h₁.room
  obtain ⟨w₂, pd, hs₂, h₂⟩ := family_starts (sole_run boot_boot hrun₁).1 h₁.after h₁.kpd h₁.parent
    h₁.child (by rw [frameOf_cloned]; exact h₁.shared.le) h₁.look (by omega)
  have hcreate : w₁.WithoutShm .create := trivial
  have hrun₂ := hrun₁.snoc hcreate hs₂
  have hno := (shmOk_run boot_boot.noShm hrun₂).2
  obtain ⟨w₃, w₄, e', ⟨hs₃, hok₃, hm⟩, hs₄, hok₄, ho⟩ := h₂.opens (sole_run boot_boot hrun₂).1 (hno 1)
  have hrun₄ := ((hrun₂.mono fun _ _ h => WithoutShm.stepOk h).snoc hok₃ hs₃).snoc hok₄ hs₄
  have hsame : frameOf (cloned (entry f (pageFlags (vmmUr ||| vmmUw)))) =
      frameOf (frozen (entry f (pageFlags (vmmUr ||| vmmUw)))) := by
    rw [frameOf_cloned, frameOf_frozen]
  refine ⟨w₄, _, e', hrun₄, ho.others (by decide) (hm.hasPage h₂.parent), ho.own, ho.writable,
    ho.frame.trans hsame, by rw [← hsame]; exact ho.object, by rw [ho.party, hm.party]⟩

/-- A page is shared by a process and its child after a fork; the child makes an object of it, and a
third process opens the object and writes to it.  The parent, which neither made nor opened the object,
reads what was written. -/
theorem opened_shm_shows_writes : ∃ w w', Run step StepOk (boot 16)
    [.create, .setHeapTop 0 0x800000, .sbrk 0 4096, .fork 0, .create, .shmMake 1 1 [(0x800000, 1)] 0,
      .shmOpen 2 1 (vmmUr ||| vmmUw), .store 2 userMapBase 0] w ∧
    w.step (.store 2 userMapBase 1) = some w' ∧ w.party 1 = [2, 1] ∧ w.reads 0 0x800000 = some 0 ∧
      w'.reads 0 0x800000 = some 1 ∧ ¬ w.ShmIsolated := by
  obtain ⟨w₀, e, e', hrun, hleaky⟩ := leaky_starts
  obtain ⟨w, hs, hleaky, hzero⟩ := hleaky.store (inv_run boot_boot hrun) 0
  have hok : w₀.StepOk (.store 2 userMapBase 0) := trivial
  have hrun := hrun.snoc hok hs
  obtain ⟨w', hs', -, hone⟩ := hleaky.store (inv_run boot_boot hrun) 1
  refine ⟨w, w', hrun, hs', hleaky.party, hzero, hone, fun hall => ?_⟩
  obtain ⟨sg, hsg, hf⟩ := hleaky.object
  have hsame : w'.reads 0 0x800000 = w.reads 0 0x800000 := hall (c := 0) (p := 2) hsg
    (by rw [hleaky.party]; simp) ⟨_, hf, by rw [hleaky.writer.maps, hleaky.same]⟩ hs'
    (by rw [hleaky.party]; simp)
  rw [hzero, hone] at hsame
  cases hsame

end World

end Muxomucota.Mmu
