import Muxomucota.Sync.RwlExclusion

/-!
# Sync — when the readers-writer lock gets stuck

Two readers that both call `rwl_require_w` wait for each other, and `rwl_drop_w` overwrites the
count of a reader that has just arrived and holds the guard word.  If neither happens, some thread
inside a call can always finish it: `StepOk` is that condition, and `Inv₂` what it keeps.
-/

namespace Muxomucota.Sync
open Lib

namespace Pc

/-- Inside `rwl_require_w`. -/
def upgrading : Pc → Bool
  | qCount | qTry | qYield | qCheck | qUnguard | qStore | qRelease => true
  | _ => false

/-- The first reader, between reading the count and getting the writer word. -/
def arriving : Pc → Bool
  | rStore n => n = 0
  | rWrite => true
  | _ => false

/-- In a section between two calls. -/
def inSection : Pc → Bool
  | reading | dropped | writing | upgraded => true
  | _ => false

end Pc

/-- **The condition**: a thread calls `rwl_require_w` only while no other thread is inside it, and
`rwl_drop_w` does not write the count while a first reader is arriving. -/
def StepOk (s : State) (a : Nat × Call) : Prop :=
  (a.2 = .requireW → ∀ u, u ≠ a.1 → (s.pc u).upgrading = false) ∧
    (s.pc a.1 = .dStore → ∀ u, (s.pc u).arriving = false)

/-- What the condition keeps, and that the two words always have an owner. -/
structure Inv₂ (s : State) : Prop where
  single : ∀ t u, (s.pc t).upgrading = true → (s.pc u).upgrading = true → t = u
  first : ∀ t u, (s.pc t).arriving = true → (s.pc u).holdsRead = false
  held : s.lock.writeLock ≠ 0 → ∃ t, (s.pc t).holdsWrite = true ∨ (s.pc t).holdsRead = true
  busy : s.lock.lockLock ≠ 0 → ∃ t, s.lock.lockLock = getpid t

theorem inv₂_init : Inv₂ .init where
  single t u h := by simp [State.init, Pc.upgrading] at h
  first t u h := by simp [State.init, Pc.arriving] at h
  held h := by simp [State.init] at h
  busy h := by simp [State.init] at h

/-! ### What one step of a thread can do -/

section next

variable {l l' : RwLock} {me : Int} {p p' : Pc} {c : Call}

theorem next_upgrading (h : next l me p c = some (l', p')) (hp : p'.upgrading = true) :
    p.upgrading = true ∨ c = .requireW := by
  cases p <;> cases c <;> simp only [next, reduceCtorEq, Option.some.injEq, Prod.mk.injEq] at h <;>
    grind -ring -linarith -ac [Pc.upgrading, lockWord]

/-- A reader arrives when it has read the count `0`. -/
theorem next_arriving (h : next l me p c = some (l', p')) (hp : p'.arriving = true) :
    p.arriving = true ∨ (p = .rLoad ∧ l.readerCount = 0) := by
  cases p <;> cases c <;> simp only [next, reduceCtorEq, Option.some.injEq, Prod.mk.injEq] at h <;>
    grind -ring -linarith -ac [Pc.arriving, lockWord]

/-- The ways to the read side. -/
theorem next_holdsRead (h : next l me p c = some (l', p')) (hp : p'.holdsRead = true) :
    p.holdsRead = true ∨ p = .dStore ∨ (p.holdsGuard = true ∧ p'.arriving = false) := by
  cases p <;> cases c <;> simp only [next, reduceCtorEq, Option.some.injEq, Prod.mk.injEq] at h <;>
    grind -ring -linarith -ac [Pc.holdsRead, Pc.holdsGuard, Pc.arriving, lockWord]

theorem next_lockLock (h : next l me p c = some (l', p')) :
    l'.lockLock = 0 ∨ l'.lockLock = me ∨ l'.lockLock = l.lockLock := by
  cases p <;> cases c <;> simp only [next, reduceCtorEq, Option.some.injEq, Prod.mk.injEq] at h <;>
    grind -ring -linarith -ac [lockWord]

/-- Whoever gives up its side gives up the writer word, or is not the last reader. -/
theorem next_gives (h : next l me p c = some (l', p'))
    (hp : p.holdsWrite = true ∨ p.holdsRead = true) (hrun : p' ≠ .aborted)
    (hw : p'.holdsWrite = false) (hr : p'.holdsRead = false) :
    l'.writeLock = 0 ∨ ∃ k, p = .uStore k ∧ k ≠ 1 := by
  cases p <;> cases c <;> simp only [next, reduceCtorEq, Option.some.injEq, Prod.mk.injEq] at h <;>
    grind -ring -linarith -ac [Pc.holdsRead, Pc.holdsWrite, lockWord]

/-- Whoever has no side does not change the writer word, except to make it anonymous. -/
theorem next_writeLock (h : next l me p c = some (l', p')) (hp : p.holdsWrite = false)
    (hp' : p.holdsRead = false) (hw : p'.holdsWrite = false) (hr : p'.holdsRead = false) :
    l'.writeLock = l.writeLock ∨ p = .uAnon := by
  cases p <;> cases c <;> simp only [next, reduceCtorEq, Option.some.injEq, Prod.mk.injEq] at h <;>
    grind -ring -linarith -ac [Pc.holdsRead, Pc.holdsWrite, lockWord]

end next

theorem holdsGuard_of_arriving {p : Pc} (h : p.arriving = true) : p.holdsGuard = true := by
  cases p <;> simp_all [Pc.arriving, Pc.holdsGuard]

/-! ### What one step keeps -/

section kept

variable {s : State} {t : Nat} {c : Call} {l : RwLock} {p : Pc}

/-- Only `rwl_require_w` brings a thread there. -/
theorem upgrading_kept (h₂ : Inv₂ s) (hr : next s.lock (getpid t) (s.pc t) c = some (l, p))
    (hup : c = .requireW → ∀ u, u ≠ t → (s.pc u).upgrading = false) (u v : Nat)
    (hu : (Function.update s.pc t p u).upgrading = true)
    (hv : (Function.update s.pc t p v).upgrading = true) : u = v := by
  have hback : ∀ w, (Function.update s.pc t p w).upgrading = true →
      (s.pc w).upgrading = true ∨ (w = t ∧ c = .requireW) := by
    intro w hw
    by_cases hwt : w = t
    · subst hwt
      rw [Function.update_self] at hw
      exact (next_upgrading hr hw).imp id fun hc => ⟨rfl, hc⟩
    · rw [Function.update_of_ne hwt] at hw
      exact .inl hw
  rcases hback u hu with hu₀ | ⟨rfl, hc⟩
  · rcases hback v hv with hv₀ | ⟨rfl, hc⟩
    · exact h₂.single u v hu₀ hv₀
    · by_contra hne
      rw [hup hc u hne] at hu₀
      cases hu₀
  · rcases hback v hv with hv₀ | ⟨rfl, -⟩
    · by_contra hne
      rw [hup hc v (Ne.symm hne)] at hv₀
      cases hv₀
    · rfl

/-- A reader arrives only while there is none. -/
theorem arriving_back (hr : next s.lock (getpid t) (s.pc t) c = some (l, p)) {u : Nat}
    (hu : (Function.update s.pc t p u).arriving = true) :
    (s.pc u).arriving = true ∨ (u = t ∧ s.pc t = .rLoad ∧ s.lock.readerCount = 0) := by
  by_cases hut : u = t
  · subst hut
    rw [Function.update_self] at hu
    exact (next_arriving hr hu).imp id fun h' => ⟨rfl, h'⟩
  · rw [Function.update_of_ne hut] at hu
    exact .inl hu

/-- And it keeps the others away. -/
theorem arriving_kept (h : Inv s) (h₂ : Inv₂ s)
    (hr : next s.lock (getpid t) (s.pc t) c = some (l, p))
    (hdrop : s.pc t = .dStore → ∀ u, (s.pc u).arriving = false) (u v : Nat)
    (hu : (Function.update s.pc t p u).arriving = true) :
    (Function.update s.pc t p v).holdsRead = false := by
  rw [← Bool.not_eq_true]
  intro hv
  have hu₀ := arriving_back hr hu
  by_cases hvt : v = t
  · subst hvt
    rw [Function.update_self] at hv
    rcases next_holdsRead hr hv with hv₀ | hd | ⟨hg, hna⟩
    · rcases hu₀ with hu₀ | ⟨-, hpc, -⟩
      · rw [h₂.first u v hu₀] at hv₀
        cases hv₀
      · rw [hpc] at hv₀
        cases hv₀
    · rcases hu₀ with hu₀ | ⟨-, hpc, -⟩
      · rw [hdrop hd u] at hu₀
        cases hu₀
      · rw [hpc] at hd
        cases hd
    · have hne : u ≠ v := by
        rintro rfl
        rw [Function.update_self, hna] at hu
        cases hu
      rcases hu₀ with hu₀ | ⟨he, -⟩
      · exact hne (h.guard_unique (holdsGuard_of_arriving hu₀) hg)
      · exact hne he
  · rw [Function.update_of_ne hvt] at hv
    rcases hu₀ with hu₀ | ⟨-, -, hzero⟩
    · rw [h₂.first u v hu₀] at hv
      cases hv
    · obtain ⟨n, hn, hcount, -⟩ := h.count
      have hpos := hn.pos hv
      omega

/-- Whoever gives up its side leaves the writer word to another one. -/
theorem writeLock_kept (h : Inv s) (h₂ : Inv₂ s)
    (hr : next s.lock (getpid t) (s.pc t) c = some (l, p)) (hrun : p ≠ .aborted)
    (hw : l.writeLock ≠ 0) : ∃ u, (Function.update s.pc t p u).holdsWrite = true ∨
      (Function.update s.pc t p u).holdsRead = true := by
  have hkeep : ∀ v, v ≠ t → (s.pc v).holdsWrite = true ∨ (s.pc v).holdsRead = true →
      ∃ u, (Function.update s.pc t p u).holdsWrite = true ∨
        (Function.update s.pc t p u).holdsRead = true := by
    intro v hv hside
    refine ⟨v, ?_⟩
    rwa [Function.update_of_ne hv]
  by_cases hp : p.holdsWrite = true ∨ p.holdsRead = true
  · exact ⟨t, by rwa [Function.update_self]⟩
  obtain ⟨hpw, hpr⟩ := not_or.mp hp
  rw [Bool.not_eq_true] at hpw hpr
  obtain ⟨n, hn, -, -, -, hus, huc, -⟩ := h.count
  by_cases hold : (s.pc t).holdsWrite = true ∨ (s.pc t).holdsRead = true
  · rcases next_gives hr hold hrun hpw hpr with h₀ | ⟨k, hk, hk₁⟩
    · exact absurd h₀ hw
    · have hread : (s.pc t).holdsRead = true := by rw [hk]; rfl
      have hkn := hus t k hk
      have hpos := hn.pos hread
      obtain ⟨v, hv, hside⟩ := hn.exists_ne (by omega) t
      exact hkeep v hv (.inr hside)
  · obtain ⟨how, hor⟩ := not_or.mp hold
    rw [Bool.not_eq_true] at how hor
    rcases next_writeLock hr how hor hpw hpr with h₀ | hanon
    · obtain ⟨v, hside⟩ := h₂.held (by rw [← h₀]; exact hw)
      refine hkeep v ?_ hside
      rintro rfl
      exact hold hside
    · obtain ⟨v, hside⟩ := hn.pos_iff.mp (huc t (.inr hanon))
      refine hkeep v ?_ (.inr hside)
      rintro rfl
      rw [hside] at hor
      cases hor

theorem lockLock_kept (h₂ : Inv₂ s) (hr : next s.lock (getpid t) (s.pc t) c = some (l, p))
    (hl : l.lockLock ≠ 0) : ∃ u, l.lockLock = getpid u := by
  rcases next_lockLock hr with h₀ | h₀ | h₀
  · exact absurd h₀ hl
  · exact ⟨t, h₀⟩
  · obtain ⟨u, hu⟩ := h₂.busy (h₀ ▸ hl)
    exact ⟨u, h₀.trans hu⟩

end kept

theorem inv₂_step {s s' : State} {a : Nat × Call} (h : Inv s) (h₂ : Inv₂ s) (ok : StepOk s a)
    (hs : step s a = some s') : Inv₂ s' := by
  obtain ⟨t, c⟩ := a
  obtain ⟨⟨l, p⟩, hr, rfl⟩ := Option.map_eq_some_iff.mp hs
  obtain ⟨hup, hdrop⟩ := ok
  have hrun : p ≠ .aborted := by
    have hrun := (inv_step h hs).running t
    dsimp only at hrun
    rwa [Function.update_self] at hrun
  exact ⟨upgrading_kept h₂ hr hup, arriving_kept h h₂ hr hdrop, writeLock_kept h h₂ hr hrun,
    lockLock_kept h₂ hr⟩

/-! ### Going on -/

/-- The threads inside a call can finish one of the calls by themselves. -/
def CanGoOn (s : State) : Prop :=
  ∃ acts s' t, Run step anyStep s acts s' ∧ (∀ a ∈ acts, a.2 = .go ∧ (s.pc a.1).inCall = true) ∧
    (s.pc t).inCall = true ∧ (s'.pc t).inCall = false

/-- All that is known of a state in which nobody is in a section. -/
structure Quiet (s : State) : Prop where
  inv : Inv s
  inv₂ : Inv₂ s
  outside : ∀ t, (s.pc t).inSection = false

section going

variable {s s' : State} {t u : Nat} {l : RwLock} {p : Pc}

theorem step_go (hn : next s.lock (getpid t) (s.pc t) .go = some (l, p)) :
    step s (t, .go) = some ⟨l, Function.update s.pc t p⟩ := by
  simp [step, hn]

/-- The step that leaves the call. -/
theorem CanGoOn.last (hin : (s.pc t).inCall = true)
    (hn : next s.lock (getpid t) (s.pc t) .go = some (l, p)) (hp : p.inCall = false) : CanGoOn s :=
  ⟨[(t, .go)], _, t, .one trivial (step_go hn), by simpa using hin, hin, by simpa using hp⟩

/-- A step inside the call. -/
theorem CanGoOn.more (hin : (s.pc t).inCall = true)
    (hn : next s.lock (getpid t) (s.pc t) .go = some (l, p)) (hp : p.inCall = true)
    (h : CanGoOn ⟨l, Function.update s.pc t p⟩) : CanGoOn s := by
  have hsame : ∀ u, (Function.update s.pc t p u).inCall = (s.pc u).inCall := by
    intro u
    by_cases hut : u = t
    · subst hut; simp [hin, hp]
    · simp [hut]
  obtain ⟨acts, s', u, hrun, hacts, hu, hu'⟩ := h
  refine ⟨(t, .go) :: acts, s', u, .more trivial (step_go hn) hrun, fun a ha => ?_, ?_, hu'⟩
  · rcases List.mem_cons.mp ha with rfl | ha
    · exact ⟨rfl, hin⟩
    · exact ⟨(hacts a ha).1, by rw [← hsame]; exact (hacts a ha).2⟩
  · rw [← hsame]
    exact hu

/-- A step inside a call, not the store of `rwl_drop_w`. -/
theorem Quiet.step (h : Quiet s) (hn : next s.lock (getpid t) (s.pc t) .go = some (l, p))
    (hd : s.pc t ≠ .dStore) (hp : p.inCall = true) : Quiet ⟨l, Function.update s.pc t p⟩ where
  inv := inv_step h.inv (step_go hn)
  inv₂ := inv₂_step h.inv h.inv₂ ⟨by simp, fun hpc => absurd hpc hd⟩ (step_go hn)
  outside u := by
    by_cases hut : u = t
    · subst hut
      cases p <;> simp_all [Pc.inSection, Pc.inCall]
    · simpa [hut] using h.outside u

theorem inCall_of {q : Pc} (hpc : s.pc t = q) (hq : q.inCall = true) : (s.pc t).inCall = true := by
  rw [hpc]
  exact hq

/-- One step from a known place. -/
theorem next_of {q : Pc} {r : RwLock × Pc} (hpc : s.pc t = q)
    (hn : next s.lock (getpid t) q .go = some r) : next s.lock (getpid t) (s.pc t) .go = some r := by
  rw [hpc]
  exact hn

/-- From here a thread finishes its call whatever the others do. -/
theorem goes_free (hpc : s.pc t = .rUnguard ∨ s.pc t = .uUnguard ∨ s.pc t = .qRelease ∨
    s.pc t = .wRelease ∨ s.pc t = .dStore) : CanGoOn s := by
  rcases hpc with hpc | hpc | hpc | hpc | hpc <;>
    exact .last (inCall_of hpc rfl) (next_of hpc rfl) rfl

/-- `rwl_unlock_r` does not wait once it has the guard word. -/
theorem goes_unlock {s : State} {t : Nat} (hpc : s.pc t = .uLoad ∨ (∃ k, s.pc t = .uStore k) ∨
    s.pc t = .uWrite ∨ s.pc t = .uCheck ∨ s.pc t = .uAnon) : CanGoOn s := by
  have hend : ∀ s' : State, s'.pc t = .uUnguard → CanGoOn s' := fun s' h => goes_free (.inr (.inl h))
  have hanon : ∀ s' : State, s'.pc t = .uAnon → CanGoOn s' := fun s' h =>
    .more (inCall_of h rfl) (next_of h rfl) rfl (hend _ (by simp))
  have hcheck : ∀ s' : State, s'.pc t = .uCheck → CanGoOn s' := by
    intro s' h
    by_cases hown : s'.lock.writeLock = getpid t
    · exact .more (inCall_of h rfl) (next_of h (by rw [next, if_pos hown])) rfl (hanon _ (by simp))
    · exact .more (inCall_of h rfl) (next_of h (by rw [next, if_neg hown])) rfl (hend _ (by simp))
  have hwrite : ∀ s' : State, s'.pc t = .uWrite → CanGoOn s' := fun s' h =>
    .more (inCall_of h rfl) (next_of h rfl) rfl (hend _ (by simp))
  have hstore : ∀ (s' : State) k, s'.pc t = .uStore k → CanGoOn s' := by
    intro s' k h
    by_cases hk : k - 1 = 0
    · exact .more (inCall_of h rfl) (next_of h (by rw [next, if_pos hk])) rfl (hwrite _ (by simp))
    · exact .more (inCall_of h rfl) (next_of h (by rw [next, if_neg hk])) rfl (hcheck _ (by simp))
  rcases hpc with hpc | ⟨k, hpc⟩ | hpc | hpc | hpc
  · exact .more (inCall_of hpc rfl) (next_of hpc rfl) rfl (hstore _ _ (by simp; rfl))
  · exact hstore s k hpc
  · exact hwrite s hpc
  · exact hcheck s hpc
  · exact hanon s hpc

/-- Whoever holds the write side outside a section finishes its call. -/
theorem goes_writer (h : Quiet s) (hw : (s.pc t).holdsWrite = true) : CanGoOn s := by
  have hsec := h.outside t
  cases hpc : s.pc t <;> rw [hpc] at hw hsec <;> simp [Pc.holdsWrite, Pc.inSection] at hw hsec
  case uWrite => exact goes_unlock (.inr (.inr (.inl hpc)))
  case wRelease => exact goes_free (.inr (.inr (.inr (.inl hpc))))
  case qRelease => exact goes_free (.inr (.inr (.inl hpc)))
  case dStore => exact goes_free (.inr (.inr (.inr (.inr hpc))))

/-- The compare-and-swap on a free word. -/
theorem lockWord_free {word me : Int} {done again : Pc} (h : word = 0) :
    lockWord word me done again = (me, done) := if_pos h

/-- A reader that has counted itself as the first one. -/
theorem goes_rWrite (h : Quiet s) (hpc : s.pc t = .rWrite) : CanGoOn s := by
  by_cases hfree : s.lock.writeLock = 0
  · have hn := next_of (r := ({ s.lock with writeLock := getpid t }, .rUnguard)) hpc
      (by simp only [next, lockWord_free hfree])
    exact .more (inCall_of hpc rfl) hn rfl (goes_free (t := t) (.inl (by simp)))
  · obtain ⟨u, hu | hu⟩ := h.inv₂.held hfree
    · exact goes_writer h hu
    · rw [h.inv₂.first t u (by rw [hpc]; rfl)] at hu
      cases hu

theorem goes_rStore {k : Int} (h : Quiet s) (hpc : s.pc t = .rStore k) : CanGoOn s := by
  by_cases hk : k = 0
  · have hn := next_of (r := ({ s.lock with readerCount := k + 1 }, .rWrite)) hpc
      (by rw [next, if_pos hk])
    exact .more (inCall_of hpc rfl) hn rfl
      (goes_rWrite (t := t) (h.step hn (by simp [hpc]) rfl) (by simp))
  · have hn := next_of (r := ({ s.lock with readerCount := k + 1 }, .rUnguard)) hpc
      (by rw [next, if_neg hk])
    exact .more (inCall_of hpc rfl) hn rfl (goes_free (t := t) (.inl (by simp)))

theorem goes_rLoad (h : Quiet s) (hpc : s.pc t = .rLoad) : CanGoOn s := by
  have hn := next_of (r := (s.lock, .rStore s.lock.readerCount)) hpc rfl
  exact .more (inCall_of hpc rfl) hn rfl
    (goes_rStore (t := t) (k := s.lock.readerCount) (h.step hn (by simp [hpc]) rfl) (by simp))

/-- The guard word is free: a thread that wants it takes it. -/
theorem goes_guard (h : Quiet s) (hfree : s.lock.lockLock = 0)
    (hpc : s.pc t = .rGuard ∨ s.pc t = .uGuard) : CanGoOn s := by
  rcases hpc with hpc | hpc
  · have hn := next_of (r := ({ s.lock with lockLock := getpid t }, .rLoad)) hpc
      (by simp only [next, lockWord_free hfree])
    exact .more (inCall_of hpc rfl) hn rfl
      (goes_rLoad (t := t) (h.step hn (by simp [hpc]) rfl) (by simp))
  · have hn := next_of (r := ({ s.lock with lockLock := getpid t }, .uLoad)) hpc
      (by simp only [next, lockWord_free hfree])
    exact .more (inCall_of hpc rfl) hn rfl (goes_unlock (t := t) (.inl (by simp)))

/-- The only reader takes the write side. -/
theorem goes_qStore (hpc : s.pc t = .qStore) : CanGoOn s :=
  .more (l := { s.lock with readerCount := 0 }) (p := .qRelease) (inCall_of hpc rfl)
    (next_of hpc rfl) rfl (goes_free (t := t) (.inr (.inr (.inl (by simp)))))

/-- The readers' tally of a quiet state. -/
theorem Quiet.count (h : Quiet s) (hfree : s.lock.lockLock = 0) :
    ∃ n : Nat, Tally (fun t => (s.pc t).holdsRead = true) n ∧ s.lock.readerCount = n := by
  obtain ⟨n, hn, hcount | ⟨-, -, u, hu⟩, -⟩ := h.inv.count
  · exact ⟨n, hn, hcount⟩
  · have hg := (h.inv.guard u).mpr (by rw [hu]; rfl)
    have := getpid_pos u
    omega

/-- Who does not hold the guard word. -/
theorem Quiet.unguarded (h : Quiet s) (hfree : s.lock.lockLock = 0) (u : Nat) :
    (s.pc u).holdsGuard = false := by
  rw [← Bool.not_eq_true, ← h.inv.guard u]
  have := getpid_pos u
  omega

/-- The last reader upgrades as soon as it tries. -/
theorem goes_qTry (hfree : s.lock.lockLock = 0) (hone : s.lock.readerCount = 1)
    (hpc : s.pc t = .qTry) : CanGoOn s := by
  have hn := next_of (r := ({ s.lock with lockLock := getpid t }, .qCheck)) hpc
    (by rw [next, if_pos hfree])
  refine .more (inCall_of hpc rfl) hn rfl ?_
  refine .more (t := t) (inCall_of (q := .qCheck) (Function.update_self ..) rfl)
    (next_of (r := (_, .qStore)) (Function.update_self ..) (by rw [next, if_pos hone])) rfl ?_
  exact goes_qStore (t := t) (Function.update_self ..)

theorem goes_qCount (hfree : s.lock.lockLock = 0) (hone : s.lock.readerCount = 1)
    (hpc : s.pc t = .qCount) : CanGoOn s :=
  .more (inCall_of hpc rfl)
    (next_of (r := (s.lock, .qTry)) hpc (by rw [next, if_neg (by omega)])) rfl
    (goes_qTry (t := t) hfree hone (Function.update_self ..))

theorem goes_qYield (hfree : s.lock.lockLock = 0) (hone : s.lock.readerCount = 1)
    (hpc : s.pc t = .qYield) : CanGoOn s :=
  .more (inCall_of hpc rfl) (next_of (r := (s.lock, .qCount)) hpc rfl) rfl
    (goes_qCount (t := t) hfree hone (Function.update_self ..))

/-- A reader while the guard word is free: it is on its way out, or waits for its upgrade, and then
another reader is on its way out or it is the last one. -/
theorem goes_reader (h : Quiet s) (hfree : s.lock.lockLock = 0)
    (hr : (s.pc t).holdsRead = true) : CanGoOn s := by
  have hplaces : ∀ u, (s.pc u).holdsRead = true → s.pc u = .uGuard ∨
      ((s.pc u).upgrading = true ∧ (s.pc u = .qCount ∨ s.pc u = .qTry ∨ s.pc u = .qYield)) := by
    intro u hu
    have hg := h.unguarded hfree u
    have hout := h.outside u
    cases hpc : s.pc u <;> rw [hpc] at hu hg hout <;>
      simp [Pc.holdsRead, Pc.holdsGuard, Pc.inSection, Pc.upgrading] at hu hg hout ⊢
  rcases hplaces t hr with hpc | ⟨hup, hpc⟩
  · exact goes_guard h hfree (.inr hpc)
  · obtain ⟨n, hn, hcount⟩ := h.count hfree
    have hpos := hn.pos hr
    by_cases hmany : 1 < n
    · obtain ⟨u, hut, hu⟩ := hn.exists_ne hmany t
      rcases hplaces u hu with hpc' | ⟨hup', -⟩
      · exact goes_guard h hfree (.inr hpc')
      · exact absurd (h.inv₂.single u t hup' hup) hut
    · have hone : s.lock.readerCount = 1 := by omega
      rcases hpc with hpc | hpc | hpc
      · exact goes_qCount hfree hone hpc
      · exact goes_qTry hfree hone hpc
      · exact goes_qYield hfree hone hpc

/-- Nobody holds the guard word. -/
theorem goes_unguarded (h : Quiet s) (hfree : s.lock.lockLock = 0)
    (hin : (s.pc t).inCall = true) : CanGoOn s := by
  have hg := h.unguarded hfree t
  have hrun := h.inv.running t
  by_cases hr : (s.pc t).holdsRead = true
  · exact goes_reader h hfree hr
  · cases hpc : s.pc t <;> rw [hpc] at hin hg hrun hr <;>
      simp [Pc.inCall, Pc.holdsGuard, Pc.holdsRead] at hin hg hrun hr
    case rGuard => exact goes_guard h hfree (.inl hpc)
    case wWrite =>
      by_cases hw : s.lock.writeLock = 0
      · exact .last (l := { s.lock with writeLock := getpid t }) (p := .writing)
          (inCall_of hpc rfl) (next_of hpc (by simp only [next, lockWord_free hw])) rfl
      · obtain ⟨u, hu | hu⟩ := h.inv₂.held hw
        · exact goes_writer h hu
        · exact goes_reader h hfree hu
    case wRelease => exact goes_writer h (t := t) (by rw [hpc]; rfl)
    case dStore => exact goes_writer h (t := t) (by rw [hpc]; rfl)

/-- The holder of the guard word goes on. -/
theorem goes_guarded (h : Quiet s) (hg : (s.pc t).holdsGuard = true) : CanGoOn s := by
  have hunguard : ∀ s' : State, Quiet s' → s'.pc t = .qUnguard → CanGoOn s' := by
    intro s' h' hpc
    have hn := next_of (r := ({ s'.lock with lockLock := 0 }, .qCount)) hpc rfl
    exact .more (inCall_of hpc rfl) hn rfl
      (goes_unguarded (t := t) (h'.step hn (by simp [hpc]) rfl) rfl (by simp [Pc.inCall]))
  cases hpc : s.pc t <;> rw [hpc] at hg <;> simp [Pc.holdsGuard] at hg
  case rLoad => exact goes_rLoad h hpc
  case rStore k => exact goes_rStore h hpc
  case rWrite => exact goes_rWrite h hpc
  case rUnguard => exact goes_free (.inl hpc)
  case uLoad => exact goes_unlock (.inl hpc)
  case uStore k => exact goes_unlock (.inr (.inl ⟨k, hpc⟩))
  case uWrite => exact goes_unlock (.inr (.inr (.inl hpc)))
  case uCheck => exact goes_unlock (.inr (.inr (.inr (.inl hpc))))
  case uAnon => exact goes_unlock (.inr (.inr (.inr (.inr hpc))))
  case uUnguard => exact goes_free (.inr (.inl hpc))
  case qUnguard => exact hunguard s h hpc
  case qStore => exact goes_qStore hpc
  case qRelease => exact goes_free (.inr (.inr (.inl hpc)))
  case qCheck =>
    by_cases hone : s.lock.readerCount = 1
    · exact .more (inCall_of hpc rfl)
        (next_of (r := (s.lock, .qStore)) hpc (by rw [next, if_pos hone])) rfl
        (goes_qStore (t := t) (Function.update_self ..))
    · have hn := next_of (r := (s.lock, .qUnguard)) hpc (by rw [next, if_neg hone])
      exact .more (inCall_of hpc rfl) hn rfl
        (hunguard _ (h.step hn (by simp [hpc]) rfl) (Function.update_self ..))

end going

theorem quiet_goes {s : State} {t : Nat} (h : Quiet s) (hin : (s.pc t).inCall = true) :
    CanGoOn s := by
  by_cases hfree : s.lock.lockLock = 0
  · exact goes_unguarded h hfree hin
  · obtain ⟨u, hu⟩ := h.inv₂.busy hfree
    exact goes_guarded h ((h.inv.guard u).mp hu)

/-- Runs that meet the condition keep both invariants. -/
theorem inv₂_run {acts : List (Nat × Call)} {s : State} (h : Run step StepOk .init acts s) :
    Inv s ∧ Inv₂ s :=
  h.invariant (I := fun s => Inv s ∧ Inv₂ s)
    (fun _ _ _ hI ok hs => ⟨inv_step hI.1 hs, inv₂_step hI.1 hI.2 ok hs⟩) ⟨inv_init, inv₂_init⟩

/-- **No stuck state**: in every run that meets the condition, whenever some thread is inside a call
and nobody is in a section, the threads inside calls can complete one of them by themselves. -/
theorem rwl_progress {acts : List (Nat × Call)} {s : State} (h : Run step StepOk .init acts s)
    {t : Nat} (hin : (s.pc t).inCall = true) (hout : ∀ u, (s.pc u).inSection = false) :
    CanGoOn s :=
  have ⟨hI, hI₂⟩ := inv₂_run h
  quiet_goes ⟨hI, hI₂, hout⟩ hin

/-- A step that is neither the call of `rwl_require_w` nor the store of `rwl_drop_w` meets the
condition. -/
theorem StepOk.of_ne {s : State} {a : Nat × Call} (h : a.2 ≠ .requireW ∧ s.pc a.1 ≠ .dStore) :
    StepOk s a :=
  ⟨fun hc => absurd hc h.1, fun hc => absurd hc h.2⟩

/-- Such steps, taken one after the other. -/
theorem run_plain {acts : List (Nat × Call)} {s s' : State}
    (h : acts.foldlM (fun s a => if a.2 ≠ .requireW ∧ s.pc a.1 ≠ .dStore then step s a else none) s =
      some s') : Run step StepOk s acts s' :=
  (Run.of_checked h).mono fun _ _ => StepOk.of_ne

/-- Two readers; one of them upgrades, waits for the other one and is still waiting when that one
calls `rwl_unlock_r`. -/
def upgradeBesideReader : List (Nat × Call) :=
  [(0, .lockR), (0, .go), (0, .go), (0, .go), (0, .go), (0, .go),
    (1, .lockR), (1, .go), (1, .go), (1, .go), (1, .go)] ++
    (0, .requireW) :: [(0, .go), (1, .unlockR)]

/-- The other one leaves, the upgrade succeeds and is dropped again; then this reader leaves as the
next one arrives. -/
def dropBesideReader : List (Nat × Call) :=
  [(1, .go), (1, .go), (1, .go), (1, .go), (1, .go),
    (0, .go), (0, .go), (0, .go), (0, .go), (0, .go), (0, .go), (0, .dropW)] ++
    (0, .go) :: [(1, .lockR), (0, .unlockR)]

/-- Neither gets stuck. -/
theorem rwl_progress_upgrade : ∃ s s', Run step StepOk .init upgradeBesideReader s ∧
    (s.pc 0 = .qYield ∧ s.pc 1 = .uGuard ∧ s.lock.readerCount = 2) ∧ CanGoOn s ∧
    Run step StepOk s dropBesideReader s' ∧ (s'.pc 0 = .uGuard ∧ s'.pc 1 = .rGuard) ∧ CanGoOn s' := by
  obtain ⟨s, s', hs, hs', hpc, hpc', hcount⟩ : ∃ s s', Run step StepOk .init upgradeBesideReader s ∧
      Run step StepOk s dropBesideReader s' ∧
      (∀ u, s.pc u = if u = 0 then .qYield else if u = 1 then .uGuard else .idle) ∧
      (∀ u, s'.pc u = if u = 0 then .uGuard else if u = 1 then .rGuard else .idle) ∧
      s.lock.readerCount = 2 := by
    refine ⟨_, _, (run_plain rfl).trans (.more ⟨fun _ u _ => ?_, nofun⟩ rfl (run_plain rfl)),
      (run_plain rfl).trans (.more ⟨nofun, fun _ u => ?_⟩ rfl (run_plain rfl)),
      fun u => ?_, fun u => ?_, rfl⟩
    all_goals
      match u with
      | 0 => rfl
      | 1 => rfl
      | u + 2 => rfl
  refine ⟨s, s', hs, ⟨hpc 0, hpc 1, hcount⟩, rwl_progress hs (t := 0) ?_ fun u => ?_, hs',
    ⟨hpc' 0, hpc' 1⟩, rwl_progress (hs.trans hs') (t := 0) ?_ fun u => ?_⟩
  · rw [hpc]; rfl
  · rw [hpc]
    split
    · rfl
    · split <;> rfl
  · rw [hpc']; rfl
  · rw [hpc']
    split
    · rfl
    · split <;> rfl

/-! ### Two upgrades -/

/-- Waiting in `rwl_require_w` for the other readers to leave. -/
def Pc.Waits (p : Pc) : Prop := p = .qCount ∨ p = .qYield

theorem Pc.Waits.inCall {p : Pc} (h : p.Waits) : p.inCall = true := by
  rcases h with rfl | rfl <;> rfl

/-- As long as two threads wait for each other, both go on waiting. -/
theorem waits_step {s s' : State} {a : Nat × Call} (hI : Inv s) (h0 : (s.pc 0).Waits)
    (h1 : (s.pc 1).Waits) (hs : step s a = some s') : (s'.pc 0).Waits ∧ (s'.pc 1).Waits := by
  obtain ⟨n, hn, hcount, -⟩ := hI.count
  have hread : ∀ p : Pc, p.Waits → p.holdsRead = true := by
    rintro p (rfl | rfl) <;> rfl
  have htwo := hn.two_le (i := 0) (j := 1) (by decide) (hread _ h0) (hread _ h1)
  have hmany : 1 < s.lock.readerCount := by omega
  obtain ⟨t, c⟩ := a
  obtain ⟨⟨l, p⟩, hr, rfl⟩ := Option.map_eq_some_iff.mp hs
  have hstay : (s.pc t).Waits → p.Waits := by
    rintro (hpc | hpc) <;> dsimp only at hr <;> rw [hpc] at hr <;>
      cases c <;> simp only [next, reduceCtorEq, Option.some.injEq, Prod.mk.injEq] at hr
    · rw [if_pos hmany] at hr
      exact .inr hr.2.symm
    · exact .inl hr.2.symm
  have hpc : ∀ u, (s.pc u).Waits → (Function.update s.pc t p u).Waits := by
    intro u hu
    by_cases hut : u = t
    · subst hut
      rw [Function.update_self]
      exact hstay hu
    · rwa [Function.update_of_ne hut]
  exact ⟨hpc 0 h0, hpc 1 h1⟩

/-- Two readers that upgrade: both are inside `rwl_require_w`, nobody is in a section, and whatever
happens from there on, both stay inside. -/
theorem rwl_upgrade_deadlock : ∃ acts s, Run step anyStep .init acts s ∧
    (∀ u, (s.pc u).inSection = false) ∧ (s.pc 0).inCall = true ∧
    ∀ acts' s' u, Run step anyStep s acts' s' → (s.pc u).inCall = true →
      (s'.pc u).inCall = true := by
  obtain ⟨s, hs, hpc⟩ : ∃ s, Run step anyStep .init
      [(0, .lockR), (0, .go), (0, .go), (0, .go), (0, .go), (0, .go),
        (1, .lockR), (1, .go), (1, .go), (1, .go), (1, .go), (0, .requireW), (1, .requireW)] s ∧
      ∀ u, s.pc u = if u < 2 then .qCount else .idle := by
    refine ⟨_, .more trivial rfl (.more trivial rfl (.more trivial rfl (.more trivial rfl
      (.more trivial rfl (.more trivial rfl (.more trivial rfl (.more trivial rfl
      (.more trivial rfl (.more trivial rfl (.more trivial rfl (.more trivial rfl
      (.more trivial rfl (.refl _))))))))))))), fun u => ?_⟩
    match u with
    | 0 => rfl
    | 1 => rfl
    | u + 2 => rfl
  have h0 : (s.pc 0).Waits := .inl (hpc 0)
  have h1 : (s.pc 1).Waits := .inl (hpc 1)
  refine ⟨_, s, hs, fun u => ?_, h0.inCall, fun acts' s' u hrun hu => ?_⟩
  · rw [hpc u]
    split <;> rfl
  · have hboth : Inv s' ∧ (s'.pc 0).Waits ∧ (s'.pc 1).Waits :=
      hrun.invariant (I := fun s => Inv s ∧ (s.pc 0).Waits ∧ (s.pc 1).Waits)
        (fun _ _ _ hI _ hstep => ⟨inv_step hI.1 hstep, waits_step hI.1 hI.2.1 hI.2.2 hstep⟩)
        ⟨inv_run hs, h0, h1⟩
    rw [hpc u] at hu
    match u with
    | 0 => exact hboth.2.1.inCall
    | 1 => exact hboth.2.2.inCall
    | u + 2 => cases hu

end Muxomucota.Sync
