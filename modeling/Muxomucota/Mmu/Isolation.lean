import Muxomucota.Mmu.Forks

/-!
# Mmu — fork isolation

Without shared memory a page that may be written to is the only one with its frame (`Sole`): a fork
takes the right to write from both sides, and `vmmc_do_cow` gives it back to the last user of a frame
or together with a copy.  So a write shows to nobody else, and what is in a present page stays there
until its process writes to it.

Where a page is only mapped on demand, there is nothing that parent and child could share: each gets
a frame of its own, with what is left in it.
-/

namespace Muxomucota.Mmu
open Memory Pmm Lib

variable {ρ : Type} {P : Nat → Option Nat} {R : ρ → Option Nat} {m m' : Mem} {c pd v f : Nat}

/-- Who may write to a page is the only user of its frame. -/
def Sole (P : Nat → Option Nat) (m : Mem) : Prop :=
  ∀ c v p, pages P m c v = some p → isRw p = true → m.pmm.users (frameOf p) = 1

/-- Each page that may be written to is new with a frame of its own, or was there, with no more users
than now. -/
def Grants (P : Nat → Option Nat) (m : Mem) (P' : Nat → Option Nat) (m' : Mem) : Prop :=
  ∀ c v p, pages P' m' c v = some p → isRw p = true → m'.pmm.users (frameOf p) = 1 ∨
    pages P m c v = some p ∧ m'.pmm.users (frameOf p) ≤ m.pmm.users (frameOf p)

theorem Owned.page_pos {e : BitVec 32} {d : Nat → Int} (h : Owned P R d m)
    (hp : pages P m c v = some e) : 0 < m.pmm.users (frameOf e) := by
  have hslot : slots P R m (.page c v) = some (frameOf e) := by rw [slots, maps, hp]; rfl
  exact h.users_pos hslot

/-- A step that grants no more keeps the writers alone. -/
theorem Sole.of_grants {P' : Nat → Option Nat} (h : Sole P m) (ho : Owned P' R 0 m')
    (hg : Grants P m P' m') : Sole P' m' := by
  intro c v p hpage hrw
  rcases hg c v p hpage hrw with hone | ⟨hold, hle⟩
  · exact hone
  · have hpos := ho.page_pos hpage
    have hone := h c v p hold hrw
    omega

namespace Grants

theorem refl (P : Nat → Option Nat) (m : Mem) : Grants P m P m :=
  fun _ _ _ hpage _ => .inr ⟨hpage, le_rfl⟩

theorem trans {P' P'' : Nat → Option Nat} {m₁ : Mem} (h₁ : Grants P m P' m₁)
    (h₂ : Grants P' m₁ P'' m') (ho : Owned P'' R 0 m') : Grants P m P'' m' := by
  intro c v p hpage hrw
  rcases h₂ c v p hpage hrw with hone | ⟨hold, hle⟩
  · exact .inl hone
  · rcases h₁ c v p hold hrw with hone | ⟨hold, hle'⟩
    · have hpos := ho.page_pos hpage
      exact .inl (by omega)
    · exact .inr ⟨hold, hle.trans hle'⟩

/-- Pages only go. -/
theorem shrink {P' : Nat → Option Nat}
    (hp : ∀ c v p, pages P' m' c v = some p → pages P m c v = some p)
    (hu : ∀ g, m'.pmm.users g ≤ m.pmm.users g) : Grants P m P' m' :=
  fun c v p hpage _ => .inr ⟨hp c v p hpage, hu _⟩

/-- Pages stay or go, and frames in use keep their user count. -/
theorem keep {P' : Nat → Option Nat} (ho : Owned P R 0 m)
    (hp : ∀ c v p, pages P' m' c v = some p → pages P m c v = some p)
    (hu : ∀ g, m.pmm.users g ≠ 0 → m'.pmm.users g = m.pmm.users g) : Grants P m P' m' := by
  intro c v p hpage hrw
  have hpos := ho.page_pos (hp c v p hpage)
  exact .inr ⟨hp c v p hpage, (hu _ hpos.ne').le⟩

theorem newPage {virt : Nat} {x : BitVec 32} (ho : Owned P R 0 m)
    (hn : NewPage P m m' c virt f x) : Grants P m P m' := by
  intro c' v p hpage hrw
  rw [hn.mapped] at hpage
  split at hpage
  · cases hpage
    exact .inl (by rw [hn.names, hn.users])
  · have hpos := ho.page_pos hpage
    exact .inr ⟨hpage, (hn.keeps.users _ hpos.ne').le⟩

theorem growPage {page : Nat} (ho : Owned P R 0 m) (hc : P c = some pd)
    (hm : growPage m pd page = some m') : Grants P m P m' := by
  unfold Mmu.growPage at hm
  split at hm
  · obtain ⟨⟨f, m₁⟩, ha, hm⟩ := Option.bind_eq_some_iff.mp hm
    exact newPage ho (freshPage_spec ho hc ha rfl (fun _ _ => rfl) hm).2
  · cases hm
    exact refl P m

theorem growRange {l : List Nat} (ho : Owned P R 0 m) (hc : P c = some pd)
    (hm : l.foldlM (fun m page => Mmu.growPage m pd page) m = some m') : Grants P m P m' := by
  obtain ⟨-, h'⟩ := foldlM_invariant (P := fun b => Owned P R 0 b ∧ Grants P m P b) hm
    ⟨ho, refl P m⟩ fun page _ b b' ⟨hb, hg⟩ hstep =>
      have hb' := (growPage_spec hb hc hstep).1
      ⟨hb', hg.trans (growPage hb hc hstep) hb'⟩
  exact h'

/-- A page fault makes a page writable that has its frame for itself. -/
theorem fault {address : Nat} {write : Bool} (ho : Owned P R 0 m)
    (hf : Faulted P m m' c address write) : Grants P m P m' := by
  cases hf with
  | nothing same keeps => exact keep ho (fun c v p hpage => same ▸ hpage) keeps.users
  | fresh f x hl =>
      intro c' v p hpage hrw
      rw [hl.mapped] at hpage
      split at hpage
      · cases hpage
        exact .inl (by rw [hl.names, hl.users])
      · have hpos := ho.page_pos hpage
        exact .inr ⟨hpage, (hl.keeps.users _ hpos.ne').le⟩
  | sole e isWrite page readOnly cow hs =>
      intro c' v p hpage hrw
      rw [hs.mapped] at hpage
      split at hpage
      · cases hpage
        exact .inl (by rw [frameOf_or_mapRw, hs.users, hs.one_user])
      · exact .inr ⟨hpage, (hs.users _).le⟩
  | copied e f isWrite page readOnly cow hs =>
      intro c' v p hpage hrw
      rw [hs.mapped] at hpage
      split at hpage
      · cases hpage
        exact .inl (by rw [frameOf_entry hs.small (by decide), hs.users, if_pos rfl])
      · refine .inr ⟨hpage, ?_⟩
        have hpos := ho.page_pos hpage
        have hfree := hs.free
        rw [hs.users]
        split
        · rename_i heq
          rw [heq] at hpos
          omega
        · split <;> omega

end Grants

namespace World

variable {w w' w₁ w₂ : World} {c' a : Nat} {b : BitVec 8} {op : Op} {ops : List Op}

/-- Steps without shared memory. -/
def WithoutShm (w : World) : Op → Prop
  | .shmCreate _ _ _ _ => False
  | .shmMake _ _ _ _ => False
  | .shmOpen _ _ _ => False
  | .shmClose _ _ _ _ => False
  | .shmUnmake _ _ _ => False
  | op => w.StepOk op

theorem WithoutShm.stepOk (h : w.WithoutShm op) : w.StepOk op := by
  cases op with
  | shmCreate _ _ _ _ => exact h.elim
  | shmMake _ _ _ _ => exact h.elim
  | shmOpen _ _ _ => exact h.elim
  | shmClose _ _ _ _ => exact h.elim
  | shmUnmake _ _ _ => exact h.elim
  | _ => exact h

theorem grants_create (h : w.Inv) (hs : w.step .create = some w') :
    Grants w.spaces w.mem w'.spaces w'.mem := by
  obtain ⟨ret, k, hk, rfl⟩ := step_eq hs
  clear hs
  obtain ⟨⟨pd, m₁⟩, hm₁, hk⟩ := Option.bind_eq_some_iff.mp hk
  obtain ⟨m₂, hm₂, hk⟩ := Option.map_eq_some_iff.mp hk
  cases hk
  obtain ⟨h₁, -, hp₁, hpd, -, hsame, -⟩ := create_spec h.owned (spaces_none (h.unborn _ le_rfl)) hm₁
  obtain ⟨m', hm', hu⟩ := processCreateBasicMappings_spec h₁ (Function.update_self ..)
  rw [hm'] at hm₂
  cases hm₂
  show Grants w.spaces w.mem (w.addContext pd 0 m₂).spaces m₂
  rw [spaces_addContext]
  refine .keep h.owned (fun c v p hpage => ?_) fun g hg => ?_
  · rwa [hu.pages, hp₁] at hpage
  · rw [hu.pmm, (hsame g _).1]
    rintro rfl
    exact hg hpd

theorem grants_sbrk {inc : BitVec 32} (h : w.Inv) (ok : w.StepOk (.sbrk c inc))
    (hs : w.step (.sbrk c inc) = some w') : Grants w.spaces w.mem w'.spaces w'.mem := by
  obtain ⟨ret, k, hk, rfl⟩ := step_eq hs
  clear hs
  obtain ⟨x, hx, hk⟩ := Option.bind_eq_some_iff.mp hk
  obtain ⟨⟨r, heapEnd, m'⟩, hm', hk⟩ := Option.map_eq_some_iff.mp hk
  cases hk
  have hc := spaces_of hx
  have hsp : (w.setHeapEnd c x heapEnd m').spaces = w.spaces :=
    spaces_setHeapEnd w.toKernel hx m' heapEnd
  show Grants w.spaces w.mem (w.setHeapEnd c x heapEnd m').spaces m'
  rw [hsp]
  unfold contextSbrk at hm'
  split at hm'
  case isTrue => cases hm'; exact .refl _ _
  case isFalse =>
    dsimp only at hm'
    split at hm'
    case isTrue =>
      obtain ⟨m₁, hm₁, hm'⟩ := Option.map_eq_some_iff.mp hm'
      cases hm'
      exact .growRange h.owned hc hm₁
    case isFalse hneg =>
      obtain ⟨m₁, hm₁, hm'⟩ := Option.map_eq_some_iff.mp hm'
      cases hm'
      obtain ⟨-, hsh⟩ := shrinkRange_spec h.owned hc (ok x hx (not_le.mp hneg)) hm₁
      refine .shrink (fun c v p hpage => ?_) hsh.le
      rw [hsh.pages] at hpage
      split at hpage
      · cases hpage
      · exact hpage

theorem grants_exec (h : w.Inv) (hs : w.step (.exec c) = some w') :
    Grants w.spaces w.mem w'.spaces w'.mem := by
  obtain ⟨ret, k, hk, rfl⟩ := step_eq hs
  clear hs
  obtain ⟨x, hx, hk⟩ := Option.bind_eq_some_iff.mp hk
  obtain ⟨m', hm', hk⟩ := Option.map_eq_some_iff.mp hk
  cases hk
  obtain ⟨m₁, hcl, hu⟩ := execClear_spec h.owned (spaces_of hx) hm'
  show Grants w.spaces w.mem w.spaces m'
  refine .shrink (fun c v p hpage => ?_) fun g => ?_
  · rw [hu.pages, hcl.pages] at hpage
    split at hpage
    · cases hpage
    · exact hpage
  · rw [hu.pmm]
    by_cases hg : ∃ i, ¬ Mmu.Preserved true i ∧ tables w.spaces w.mem c i = some g
    · rw [hcl.users_table g hg]
      exact Nat.zero_le _
    · have := hcl.users g hg
      omega

theorem grants_exit (h : w.Inv) (hs : w.step (.exit c) = some w') :
    Grants w.spaces w.mem w'.spaces w'.mem := by
  have he := step_exit h hs
  refine .shrink (fun c' v p hpage => ?_) he.users
  rw [he.pages] at hpage
  split at hpage
  · cases hpage
  · exact hpage

/-- Without forks and shared memory a step makes a page writable only if its frame has no other
user. -/
theorem grants_step (h : w.Inv) (ok : w.WithoutShm op) (hfork : ∀ c, op ≠ .fork c)
    (hs : w.step op = some w') : Grants w.spaces w.mem w'.spaces w'.mem := by
  cases op with
  | create => exact grants_create h hs
  | loadPage c base offset bytes =>
      obtain ⟨ret, k, hk, rfl⟩ := step_eq hs
      clear hs
      obtain ⟨x, hx, hk⟩ := Option.bind_eq_some_iff.mp hk
      obtain ⟨m', hm', hk⟩ := Option.map_eq_some_iff.mp hk
      cases hk
      obtain ⟨-, f, e, hn⟩ := loadImagePage_spec h.owned (spaces_of hx) hm'
      exact .newPage h.owned hn
  | setHeapTop c address =>
      obtain ⟨ret, k, hk, rfl⟩ := step_eq hs
      clear hs
      obtain ⟨x, hx, hk⟩ := Option.map_eq_some_iff.mp hk
      cases hk
      show Grants w.spaces w.mem (w.setHeapEnd c x (address % 2 ^ 32) w.mem).spaces w.mem
      rw [spaces_setHeapEnd w.toKernel hx]
      exact .refl _ _
  | fork c => exact absurd rfl (hfork c)
  | exec c => exact grants_exec h hs
  | exit c => exact grants_exit h hs
  | fault c address write =>
      obtain ⟨m', rfl, hf⟩ := step_fault h ok hs
      exact .fault h.owned hf
  | store c address byte =>
      obtain ⟨e, ⟨m', rfl, hpmm, hps⟩, -⟩ := step_store h hs
      exact .keep h.owned (fun c v p hpage => hps ▸ hpage) fun g _ => by rw [hpmm]
  | sbrk c inc => exact grants_sbrk h ok hs
  | _ => exact ok.elim

/-- After a fork neither the child nor the parent may write; the others' pages are as before. -/
theorem Forked.writable {p : BitVec 32} {v : Nat} (hf : w.Forked w' c)
    (hp : pages w'.spaces w'.mem c' v = some p) (hrw : isRw p = true) :
    c' ≠ w.nextContext ∧ c' ≠ c ∧ pages w.spaces w.mem c' v = some p := by
  by_cases hchild : c' = w.nextContext
  · subst hchild
    rw [hf.child] at hp
    obtain ⟨y, hy, rfl⟩ := Option.map_eq_some_iff.mp hp
    obtain ⟨-, -, hpr, -⟩ := pages_eq_some.mp hy
    simp [cloned, hpr] at hrw
  · by_cases hparent : c' = c
    · subst hparent
      rw [hf.parent] at hp
      obtain ⟨y, hy, rfl⟩ := Option.map_eq_some_iff.mp hp
      obtain ⟨-, -, hpr, -⟩ := pages_eq_some.mp hy
      simp [frozen, hpr] at hrw
    · rw [hf.other c' v hchild hparent] at hp
      exact ⟨hchild, hparent, hp⟩

theorem sole_fork (h : w.Inv) (hp : Sole w.spaces w.mem) (hs : w.step (.fork c) = some w') :
    Sole w'.spaces w'.mem := by
  have hf := step_fork h hs
  intro c' v p hpage hrw
  obtain ⟨-, hparent, hpage⟩ := hf.writable hpage hrw
  have hone := hp c' v p hpage hrw
  have hmaps : maps w.spaces w.mem c' v = some (frameOf p) := by rw [maps, hpage]; rfl
  rw [hf.users _ (by omega) fun u hu => ?_, hone]
  have := h.owned.sole (s := .page c' v) (q := .page c u) ⟨hone, rfl⟩ hmaps hu
  simp only [Slot.page.injEq] at this
  exact hparent this.1

/-- **The invariant is kept**: without shared memory, who may write to a page has its frame alone. -/
theorem sole_step (h : w.Inv) (hp : Sole w.spaces w.mem) (ok : w.WithoutShm op)
    (hs : w.step op = some w') : Sole w'.spaces w'.mem := by
  by_cases hfork : ∃ c, op = .fork c
  · obtain ⟨c, rfl⟩ := hfork
    exact sole_fork h hp hs
  · exact hp.of_grants (inv_step h ok.stepOk hs).owned
      (grants_step h ok (fun c hc => hfork ⟨c, hc⟩) hs)

/-! ### What is in a page -/

/-- Forks, exits, and reads and writes of the user programs below `PHYS_BASE`, with their page
faults. -/
def Accesses (_ : World) : Op → Prop
  | .fork _ => True
  | .exit _ => True
  | .fault _ address _ => address < physBase
  | .store _ _ _ => True
  | _ => False

theorem Accesses.withoutShm (h : Accesses w op) : w.WithoutShm op := by
  cases op with
  | fork c => trivial
  | exit c => trivial
  | fault c address write => exact h
  | store c address byte => trivial
  | _ => exact h.elim

/-- The process does not write to the address. -/
def NoStore (c a : Nat) : Op → Prop
  | .store c' a' _ => ¬ (c' = c ∧ a' = a)
  | _ => True

theorem shows_eq_some : w.shows c a = some b ↔
    ∃ f, maps w.spaces w.mem c (a / 4096) = some f ∧ w.mem.ram f (a % 4096) = b :=
  Option.map_eq_some_iff

theorem alive_of_shows (h : w.shows c a = some b) : w.contexts c ≠ none := by
  obtain ⟨f, hf, -⟩ := shows_eq_some.mp h
  obtain ⟨p, hp, -⟩ := Option.map_eq_some_iff.mp hf
  exact alive_of_page hp

/-- A page that stays where it is, with a frame that nobody writes to. -/
theorem shows_same (h : w.Inv) (hb : w.shows c a = some b)
    (hp : maps w'.spaces w'.mem c (a / 4096) = maps w.spaces w.mem c (a / 4096))
    (hram : ∀ f, maps w.spaces w.mem c (a / 4096) = some f → w.mem.pmm.users f ≠ 0 →
      ¬ Structural w.spaces w.mem f → w'.mem.ram f = w.mem.ram f) : w'.shows c a = some b := by
  obtain ⟨f, hf, rfl⟩ := shows_eq_some.mp hb
  have hslot : slots w.spaces (shmRefs w.shm w.made) w.mem (.page c (a / 4096)) = some f := hf
  refine shows_eq_some.mpr ⟨f, hp.trans hf, ?_⟩
  rw [hram f hf (h.owned.users_pos hslot).ne' (h.owned.not_structural hf)]

theorem shows_fault {q address : Nat} {write : Bool} (h : w.Inv) (hb : w.shows c a = some b)
    (ha : address < physBase) (hs : w.step (.fault q address write) = some w') :
    w'.shows c a = some b := by
  obtain ⟨m', rfl, hf⟩ := step_fault h ha hs
  obtain ⟨f, hf₀, rfl⟩ := shows_eq_some.mp hb
  obtain ⟨p, hp, rfl⟩ := Option.map_eq_some_iff.mp hf₀
  cases hf with
  | nothing same keeps =>
      refine shows_same h hb ?_ fun f _ hu hn => (keeps.data f hu hn).2
      show maps w.spaces m' c _ = _
      rw [maps, same]; rfl
  | fresh f x hl =>
      refine shows_same h hb ?_ fun f _ hu hn => (hl.keeps.data f hu hn).2
      show maps w.spaces m' c _ = _
      rw [maps, hl.mapped, if_neg]
      · rfl
      · rintro ⟨rfl, heq⟩
        have habs := hl.absent
        rw [← heq, hp] at habs
        cases habs
  | sole e isWrite page readOnly cow hs =>
      refine shows_same h hb ?_ fun f _ hu hn => hs.data f hn
      show maps w.spaces m' c _ = _
      rw [maps, hs.mapped]
      split
      case isTrue heq =>
        obtain ⟨rfl, heq⟩ := heq
        rw [heq, maps, page]
        simp
      case isFalse => rfl
  | copied e f isWrite page readOnly cow hs =>
      by_cases heq : c = q ∧ a / 4096 = address / 4096
      · -- the copy has what the frame has
        obtain ⟨rfl, heq⟩ := heq
        rw [heq, page] at hp
        cases hp
        refine shows_eq_some.mpr ⟨f, ?_, ?_⟩
        · show maps w.spaces m' c _ = _
          rw [maps, hs.mapped, if_pos ⟨rfl, heq⟩, Option.map_some,
            frameOf_entry hs.small (by decide)]
        · show m'.ram f _ = _
          rw [hs.copy]
      · refine shows_same h hb ?_ fun g hg hu hn => hs.data g ?_ hn
        · show maps w.spaces m' c _ = _
          rw [maps, hs.mapped, if_neg heq]; rfl
        · rintro rfl
          exact hu hs.free

/-- **One step** changes what is in a page of a process only if the process writes there, or is
gone. -/
theorem shows_step (h : w.Inv) (hp : Sole w.spaces w.mem) (ok : Accesses w op) (hno : NoStore c a op)
    (hb : w.shows c a = some b) (hs : w.step op = some w') (hlive : w'.contexts c ≠ none) :
    w'.shows c a = some b := by
  cases op with
  | fork q =>
      have hf := step_fork h hs
      have hne : c ≠ w.nextContext := (h.lt_next (alive_of_shows hb)).ne
      refine shows_same h hb ?_ fun f hf' _ _ => hf.data c _ f hf'
      by_cases hcq : c = q
      · subst hcq
        rw [maps, hf.parent, map_frozen_frame]; rfl
      · rw [maps, hf.other c _ hne hcq]; rfl
  | exit q =>
      have he := step_exit h hs
      have hcq : c ≠ q := by
        rintro rfl
        rw [he.contexts] at hlive
        exact hlive (Function.update_self ..)
      refine shows_same h hb ?_ fun f hf' _ _ => he.data c _ f hf'
      rw [maps, he.pages, if_neg hcq]; rfl
  | fault q address write => exact shows_fault h hb ok hs
  | store q address byte =>
      obtain ⟨e, ⟨m', rfl, hpmm, hps⟩, hpage, hrw, hram⟩ := step_store h hs
      obtain ⟨f, hf, rfl⟩ := shows_eq_some.mp hb
      refine shows_eq_some.mpr ⟨f, ?_, ?_⟩
      · show maps w.spaces m' c _ = _
        rw [maps, hps]; exact hf
      · show m'.ram f _ = _
        refine (hram f _).trans (if_neg ?_)
        rintro ⟨rfl, hoff⟩
        -- the writer is alone with the frame
        have hone := hp q _ e hpage hrw
        have hself : maps w.spaces w.mem q (address / 4096) = some (frameOf e) := by
          rw [maps, hpage]; rfl
        have hsame := h.owned.sole (s := .page q (address / 4096)) (q := .page c (a / 4096))
          ⟨hone, rfl⟩ hself hf
        simp only [Slot.page.injEq] at hsame
        exact hno ⟨hsame.1, by omega⟩
  | _ => exact ok.elim

/-- A context that is gone stays gone. -/
theorem started_step (h : w.Inv) (ok : Accesses w op) (hc : c < w.nextContext)
    (hs : w.step op = some w') :
    c < w'.nextContext ∧ (w.contexts c = none → w'.contexts c = none) := by
  cases op with
  | fork q =>
      have hf := step_fork h hs
      exact ⟨by rw [hf.next]; omega, fun hdead => by rw [hf.old c hc.ne]; exact hdead⟩
  | exit q =>
      have he := step_exit h hs
      refine ⟨by rw [he.next]; exact hc, fun hdead => ?_⟩
      rw [he.contexts, Function.update_apply]
      split
      · rfl
      · exact hdead
  | fault q address write =>
      obtain ⟨m', rfl, -⟩ := step_fault h ok hs
      exact ⟨hc, id⟩
  | store q address byte =>
      obtain ⟨e, ⟨m', rfl, -⟩, -⟩ := step_store h hs
      exact ⟨hc, id⟩
  | _ => exact ok.elim

theorem sole_boot (h : w.Boot) : Sole w.spaces w.mem := by
  intro c v p hp
  exact absurd (h.noContexts c) (alive_of_page hp)

/-- Without shared memory every reachable state has the two invariants. -/
theorem sole_run (hb : w.Boot) (h : Run step WithoutShm w ops w') :
    w'.Inv ∧ Sole w'.spaces w'.mem :=
  h.invariant (I := fun u => u.Inv ∧ Sole u.spaces u.mem)
    (fun _ _ _ ⟨hi, hp⟩ ok hs => ⟨inv_step hi ok.stepOk hs, sole_step hi hp ok hs⟩)
    ⟨inv_boot hb, sole_boot hb⟩

/-- The other processes' accesses, and those of the process to other addresses. -/
def Elsewhere (c a : Nat) (w : World) (op : Op) : Prop := Accesses w op ∧ NoStore c a op

/-- The byte is at the address, and nothing else is read there. -/
def Holds (w : World) (c a : Nat) (b : BitVec 8) : Prop :=
  w.shows c a = some b ∧ ∀ b', w.reads c a = some b' → b' = b

theorem holds_of_shows (h : w.shows c a = some b) : w.Holds c a b :=
  ⟨h, fun b' hb' => by
    rw [shows_of_reads hb'] at h
    exact Option.some.inj h⟩

/-- What is in a page of a process stays there in every run in which the process does not write
to it. -/
theorem shows_run (h : w.Inv) (hp : Sole w.spaces w.mem) (hb : w.shows c a = some b)
    (hrun : Run step (Elsewhere c a) w ops w') (hlive : w'.contexts c ≠ none) :
    w'.shows c a = some b := by
  obtain ⟨-, -, -, hno | hb⟩ := hrun.invariant
    (I := fun u => u.Inv ∧ Sole u.spaces u.mem ∧ c < u.nextContext ∧
      (u.contexts c = none ∨ u.shows c a = some b))
    (fun u op u' ⟨hi, hp, hc, hcase⟩ ⟨ok, hno⟩ hs => by
      have hi' := inv_step hi ok.withoutShm.stepOk hs
      obtain ⟨hlt, hdead⟩ := started_step hi ok hc hs
      refine ⟨hi', sole_step hi hp ok.withoutShm hs, hlt, ?_⟩
      rcases hcase with hgone | hb
      · exact .inl (hdead hgone)
      · by_cases hlive : u'.contexts c = none
        · exact .inl hlive
        · exact .inr (shows_step hi hp ok hno hb hs hlive))
    ⟨h, hp, h.lt_next (alive_of_shows hb), .inr hb⟩
  · exact absurd hno hlive
  · exact hb

theorem shows_store (h : w.Inv) (hs : w.step (.store c a b) = some w') : w'.shows c a = some b := by
  obtain ⟨e, ⟨m', rfl, hpmm, hps⟩, hpage, hrw, hram⟩ := step_store h hs
  refine shows_eq_some.mpr ⟨frameOf e, ?_, (hram _ _).trans (if_pos ⟨rfl, rfl⟩)⟩
  show maps w.spaces m' c _ = _
  rw [maps, hps, hpage]; rfl

theorem shows_child (h : w.Inv) (hb : w.shows c a = some b) (hs : w.step (.fork c) = some w') :
    w'.shows w.nextContext a = some b := by
  have hf := step_fork h hs
  obtain ⟨f, hf₀, rfl⟩ := shows_eq_some.mp hb
  refine shows_eq_some.mpr ⟨f, ?_, by rw [hf.data c _ f hf₀]⟩
  rw [maps, hf.child, map_cloned_frame]
  exact hf₀

/-- **Fork isolation**: a process finds what it wrote itself; a child, what was in the parent's page
at the fork; and a write changes nothing that another process reads.  A page that was not there gets a
frame of its own, zeroed in the heritage area and otherwise as it was. -/
structure Isolated (w : World) : Prop where
  own : ∀ {c a b w₁ ops w₂}, w.step (.store c a b) = some w₁ →
    Run step (Elsewhere c a) w₁ ops w₂ → w₂.contexts c ≠ none → w₂.Holds c a b
  inherited : ∀ {c a b w₁ ops w₂}, w.shows c a = some b → w.step (.fork c) = some w₁ →
    Run step (Elsewhere w.nextContext a) w₁ ops w₂ → w₂.contexts w.nextContext ≠ none →
    w₂.Holds w.nextContext a b
  apart : ∀ {c c' a a' b w₁}, w.step (.store c a b) = some w₁ → c' ≠ c →
    w₁.reads c' a' = w.reads c' a'
  fresh : ∀ {c a write w₁ f}, w.step (.fault c a write) = some w₁ → a < physBase →
    w.shows c a = none → maps w₁.spaces w₁.mem c (a / 4096) = some f →
    w.mem.pmm.users f = 0 ∧
      (∀ c' v, maps w₁.spaces w₁.mem c' v = some f → c' = c ∧ v = a / 4096) ∧
      ∀ off, w₁.mem.ram f off =
        if userHeritageBase ≤ a ∧ a < userHeritageTop then 0 else w.mem.ram f off

theorem Isolated.of_inv (h : w.Inv) (hp : Sole w.spaces w.mem) : w.Isolated where
  own := by
    intro c a b w₁ ops w₂ hs hrun hlive
    have hok : w.WithoutShm (.store c a b) := trivial
    exact holds_of_shows (shows_run (inv_step h hok.stepOk hs) (sole_step h hp hok hs)
      (shows_store h hs) hrun hlive)
  inherited := by
    intro c a b w₁ ops w₂ hb hs hrun hlive
    have hok : w.WithoutShm (.fork c) := trivial
    exact holds_of_shows (shows_run (inv_step h hok.stepOk hs) (sole_step h hp hok hs)
      (shows_child h hb hs) hrun hlive)
  apart := by
    intro c c' a a' b w₁ hs hne
    obtain ⟨e, hst⟩ := step_store h hs
    refine reads_store h hst fun hmaps => ?_
    have hself : maps w.spaces w.mem c (a / 4096) = some (frameOf e) := by rw [maps, hst.page]; rfl
    have hsame := h.owned.sole (s := .page c (a / 4096)) (q := .page c' (a' / 4096))
      ⟨hp c _ e hst.page hst.writable, rfl⟩ hself hmaps
    simp only [Slot.page.injEq] at hsame
    exact hne hsame.1.symm
  fresh := by
    intro c a write w₁ f hs ha hno hmaps
    have hok : w.StepOk (.fault c a write) := ha
    have hi := inv_step h hok hs
    obtain ⟨m', rfl, hf⟩ := step_fault h ha hs
    have hno : pages w.spaces w.mem c (a / 4096) = none := by
      rw [shows, Option.map_eq_none_iff, maps, Option.map_eq_none_iff] at hno
      exact hno
    have hmaps : maps w.spaces m' c (a / 4096) = some f := hmaps
    cases hf with
    | nothing same keeps => rw [maps, same, hno] at hmaps; cases hmaps
    | fresh g x hl =>
        rw [maps, hl.mapped, if_pos ⟨rfl, rfl⟩, Option.map_some, hl.names] at hmaps
        cases hmaps
        refine ⟨hl.free, fun c' v hv => ?_, hl.contents⟩
        have hself : maps w.spaces m' c (a / 4096) = some f := by
          rw [maps, hl.mapped, if_pos ⟨rfl, rfl⟩, Option.map_some, hl.names]
        have hsame := hi.owned.sole (s := .page c (a / 4096)) (q := .page c' v) ⟨hl.users, rfl⟩ hself hv
        simp only [Slot.page.injEq] at hsame
        exact ⟨hsame.1.symm, hsame.2.symm⟩
    | sole e isWrite page readOnly cow hs => rw [hno] at page; cases page
    | copied e g isWrite page readOnly cow hs => rw [hno] at page; cases page

/-- **Fork isolation without shared memory**, in every state that is reached. -/
theorem fork_isolation {w₀ : World} (hb : w₀.Boot) (h : Run step WithoutShm w₀ ops w) :
    w.Isolated :=
  .of_inv (sole_run hb h).1 (sole_run hb h).2

end World

end Muxomucota.Mmu
