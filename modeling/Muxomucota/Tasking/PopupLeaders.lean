import Muxomucota.Tasking.Popups

/-!
# Tasking — a popup thread finds its group leader

`destroy_this_popup_thread` gives the stack back through the process whose PID is the PGID of the
popup thread, asserts that there is one, and follows its mask.  Nothing in the kernel keeps that
process until its popup threads are gone, or makes sure that it has a mask.  As long as it stays and
popup threads are only started in groups whose leader has one, no popup thread stops the kernel when
it exits.
-/

namespace Muxomucota.Tasking
open Lib

variable {s s' : Threads} {a : ThreadAct}

/-- **The condition**: no process exits that a live popup thread has as its group leader, and
popup threads are started only in a group whose leader is found and has a mask. -/
def LeaderStepOk (s : Threads) : ThreadAct → Prop
  | .exit p | .popupExit p =>
      ∀ q c, s.Live q c → c.popupStackIndex.isSome = true → c.pgid ≠ p
  | .popup target _ _ => ∀ c, s.Live target c →
      ∃ pg, s.findProcess c.pgid = some pg ∧ pg.popupStackMask.isSome = true
  | _ => True

/-- **What is asked**: every live popup thread finds its group leader, with a mask, and exits. -/
def PopupsExit (s : Threads) : Prop :=
  ∀ p c, s.Live p c → c.popupStackIndex.isSome = true →
    (∃ pg, s.findProcess c.pgid = some pg ∧ pg.popupStackMask.isSome = true) ∧
      (threadStep s (.popupExit p)).isSome = true ∧ (threadStep s (.exit p)).isSome = true

/-- The invariant: a live popup thread has a live group leader with a mask. -/
def PopupsLed (s : Threads) : Prop :=
  ∀ q c, s.Live q c → c.popupStackIndex.isSome = true →
    ∃ pg, s.Live c.pgid pg ∧ pg.popupStackMask.isSome = true

namespace PopupsLed

/-- A new process joins, and if it is a popup thread then it has a leader. -/
theorem join {pid : Nat} {c : Thread} (h : PopupsLed s) (hnew : s.procs pid = none)
    (hkeep : ∀ q, q ≠ pid → s'.procs q = s.procs q) (hpid : s'.procs pid = some c)
    (hled : c.popupStackIndex.isSome = true →
      ∃ pg, s.Live c.pgid pg ∧ pg.popupStackMask.isSome = true) : PopupsLed s' := by
  have hstay : ∀ q d, s.Live q d → s'.Live q d := by
    rintro q d ⟨hd, hlive⟩
    have hne : q ≠ pid := by
      rintro rfl
      rw [hnew] at hd
      cases hd
    exact ⟨(hkeep q hne).trans hd, hlive⟩
  rintro q d ⟨hd, hlive⟩ hpopup
  by_cases hq : q = pid
  · subst hq
    obtain rfl := Option.some.inj (hpid.symm.trans hd)
    obtain ⟨pg, hpg, hmask⟩ := hled hpopup
    exact ⟨pg, hstay _ _ hpg, hmask⟩
  · rw [hkeep q hq] at hd
    obtain ⟨pg, hpg, hmask⟩ := h q d ⟨hd, hlive⟩ hpopup
    exact ⟨pg, hstay _ _ hpg, hmask⟩

/-- A process that leads no live popup thread goes. -/
theorem part {p : Nat} (h : PopupsLed s)
    (hkeep : ∀ q, q ≠ p → s'.procs q = s.procs q) (hgone : ∀ d, ¬ s'.Live p d)
    (hfree : ∀ q c, s.Live q c → c.popupStackIndex.isSome = true → c.pgid ≠ p) :
    PopupsLed s' := by
  rintro q d ⟨hd, hlive⟩ hpopup
  have hq : q ≠ p := by
    rintro rfl
    exact hgone d ⟨hd, hlive⟩
  rw [hkeep q hq] at hd
  obtain ⟨pg, hpg, hmask⟩ := h q d ⟨hd, hlive⟩ hpopup
  have hne := hfree q d ⟨hd, hlive⟩ hpopup
  exact ⟨pg, ⟨(hkeep _ hne).trans hpg.1, hpg.2⟩, hmask⟩

/-- A process gets an entry for popups. -/
theorem entry {p : Nat} {c : Thread} (h : PopupsLed s) (hc : s.Live p c) :
    PopupsLed (s.setProcessPopupEntry p c) := by
  obtain ⟨m, masks, nextMask, heq, -⟩ := s.setProcessPopupEntry_spec p c
  rw [heq]
  have hstay : ∀ q d, s.Live q d → d.popupStackMask.isSome = true → ∃ d', Threads.Live
      { s with
        procs := Function.update s.procs p
          (some { c with popupEntry := true, popupStackMask := some m })
        masks, nextMask } q d' ∧ d'.popupStackMask.isSome = true := by
    intro q d hd hmask
    by_cases hq : q = p
    · subst hq
      exact ⟨_, ⟨Function.update_self .., hc.2⟩, rfl⟩
    · exact ⟨d, ⟨(Function.update_of_ne hq ..).trans hd.1, hd.2⟩, hmask⟩
  rintro q d ⟨hd, hlive⟩ hpopup
  dsimp only at hd
  by_cases hq : q = p
  · subst hq
    rw [Function.update_self] at hd
    cases hd
    obtain ⟨pg, hpg, hmask⟩ := h q c hc hpopup
    exact hstay _ _ hpg hmask
  · rw [Function.update_of_ne hq] at hd
    obtain ⟨pg, hpg, hmask⟩ := h q d ⟨hd, hlive⟩ hpopup
    exact hstay _ _ hpg hmask

/-- A popup thread exits. -/
theorem popupExit {p : Nat} {c : Thread} (h : PopupsLed s) (hpopup : c.popupStackIndex.isSome = true)
    (hfree : ∀ q c, s.Live q c → c.popupStackIndex.isSome = true → c.pgid ≠ p)
    (hs : s.destroyThisPopupThread p c = some s') : PopupsLed s' := by
  obtain ⟨k, hk⟩ := Option.isSome_iff_exists.mp hpopup
  obtain ⟨pg, m, life, -, -, hlife, rfl⟩ := Threads.destroyThisPopupThread_eq_some hk hs
  refine h.part (p := p) (fun q hq => by simp [hq]) ?_ hfree
  rintro d ⟨hd, hlive⟩
  simp only [Threads.setProc_procs, if_true, Option.some.injEq] at hd
  subst hd
  exact hlife hlive

/-- Every step keeps the invariant. -/
theorem step (h : PopupsLed s) (hok : LeaderStepOk s a) (hs : threadStep s a = some s') :
    PopupsLed s' := by
  cases a with
  | createProcess pid =>
      simp only [threadStep, Threads.createProcess, Option.ite_none_left_eq_some,
        Option.some.injEq, Bool.not_eq_true, Option.isSome_eq_false_iff, Option.isNone_iff_eq_none] at hs
      obtain ⟨hnew, rfl⟩ := hs
      exact h.join hnew (fun q hq => by simp [hq]) (Function.update_self ..) (by simp)
  | createThread p pid stackTop =>
      simp only [threadStep, Option.bind_eq_bind, Option.bind_eq_some_iff, Threads.createUserThread,
        Option.ite_none_left_eq_some, Option.some.injEq, Bool.not_eq_true,
        Option.isSome_eq_false_iff, Option.isNone_iff_eq_none] at hs
      obtain ⟨c, hc, hnew, rfl⟩ := hs
      exact h.join hnew (fun q hq => by simp [hq]) (Function.update_self ..) (by simp)
  | popupEntry p =>
      simp only [threadStep, Option.bind_eq_bind, Option.bind_eq_some_iff, Option.some.injEq] at hs
      obtain ⟨c, hc, rfl⟩ := hs
      exact h.entry (Threads.findProcess_eq_some.mp hc)
  | popup target pid zombify =>
      simp only [threadStep, Option.bind_eq_bind, Option.bind_eq_some_iff] at hs
      obtain ⟨c, hc, hs⟩ := hs
      obtain rfl | ⟨m, k, hm, hk, hnew, rfl⟩ := Threads.popup_eq_some hs
      · exact h
      · obtain ⟨pg, hpg, hmask⟩ := hok c (Threads.findProcess_eq_some.mp hc)
        exact h.join hnew (fun q hq => by simp [hq]) (Function.update_self ..)
          fun _ => ⟨pg, Threads.findProcess_eq_some.mp hpg, hmask⟩
  | popupExit p =>
      simp only [threadStep, Option.bind_eq_bind, Option.bind_eq_some_iff,
        Option.ite_none_right_eq_some] at hs
      obtain ⟨c, hc, hpopup, hs⟩ := hs
      exact h.popupExit hpopup hok hs
  | exit p =>
      simp only [threadStep, Option.bind_eq_bind, Option.bind_eq_some_iff] at hs
      obtain ⟨c, hc, hs⟩ := hs
      split at hs
      · rename_i hpopup
        exact h.popupExit hpopup hok hs
      · cases hs
        refine h.part (p := p) (fun q hq => by simp [Threads.destroyProcess, hq]) ?_ hok
        rintro d ⟨hd, hlive⟩
        simp only [Threads.destroyProcess, Threads.setProc_procs, if_true, Option.some.injEq] at hd
        subst hd
        cases hlive
  | fork p pid =>
      simp only [threadStep, Option.bind_eq_bind, Option.bind_eq_some_iff, Threads.fork,
        Option.ite_none_left_eq_some, Option.some.injEq, Bool.not_eq_true,
        Option.isSome_eq_false_iff, Option.isNone_iff_eq_none] at hs
      obtain ⟨c, hc, hnew, rfl⟩ := hs
      have hchild : PopupsLed { s.setProc pid (some
          { pgid := pid, life := .live, vmmc := s.nextVmmc, popupEntry := false,
            popupStackMask := none, popupStackIndex := none, popupZombify := false,
            stack := c.stack }) with nextVmmc := s.nextVmmc + 1 } := h.join
        hnew (fun q hq => by simp [hq]) (Function.update_self ..) (by simp)
      split
      · exact hchild.entry ⟨by simp, rfl⟩
      · exact hchild
  | reap p =>
      simp only [threadStep, Option.bind_eq_bind, Option.bind_eq_some_iff,
        Option.ite_none_left_eq_some, Option.some.injEq] at hs
      obtain ⟨c, hc, hdead, rfl⟩ := hs
      intro q d hd hpopup
      have hkeep : ∀ q d, Threads.Live (s.destroyProcessStruct p) q d ↔ s.Live q d := by
        intro q d
        by_cases hq : q = p
        · subst hq
          constructor
          · rintro ⟨hd, -⟩; simp [Threads.destroyProcessStruct] at hd
          · rintro ⟨hd, hlive⟩
            obtain rfl := Option.some.inj (hc.symm.trans hd)
            exact absurd hlive hdead
        · simp [Threads.Live, Threads.destroyProcessStruct, hq]
      obtain ⟨pg, hpg, hmask⟩ := h q d ((hkeep q d).mp hd) hpopup
      exact ⟨pg, (hkeep _ _).mpr hpg, hmask⟩

end PopupsLed

/-- **Popup threads exit**: if group leaders outlive their popup threads, and popup threads are
started only where the leader has a mask, then no popup thread ever stops the kernel by exiting. -/
theorem popups_exit {as : List ThreadAct} (h : Run threadStep LeaderStepOk .init as s) :
    PopupsExit s := by
  have hled : PopupsLed s :=
    h.invariant (fun _ _ _ hi hok hs => hi.step hok hs) fun q c hc => by cases hc.1
  intro p c hc hpopup
  obtain ⟨pg, hpg, hmask⟩ := hled p c hc hpopup
  have hfind := Threads.findProcess_eq_some.mpr hpg
  obtain ⟨k, hk⟩ := Option.isSome_iff_exists.mp hpopup
  obtain ⟨m, hm⟩ := Option.isSome_iff_exists.mp hmask
  have hexit : (s.destroyThisPopupThread p c).isSome = true := by
    simp [Threads.destroyThisPopupThread, hk, hfind, hm]
  have hself := Threads.findProcess_eq_some.mpr hc
  refine ⟨⟨pg, hfind, hmask⟩, ?_, ?_⟩
  · simpa [threadStep, hself, hpopup] using hexit
  · simpa [threadStep, hself, hpopup] using hexit

/-- A process with an entry, and one popup thread in it. -/
def onePopup : List ThreadAct :=
  [.createProcess 1, .popupEntry 1, .popup 1 2 true]

theorem popups_exit_one : ∃ s, Run threadStep LeaderStepOk .init onePopup s ∧ PopupsExit s := by
  obtain ⟨s, hrun⟩ : ∃ s, Run threadStep LeaderStepOk .init onePopup s := by
    refine ⟨_, .more trivial rfl (.more trivial rfl (.one ?_ rfl))⟩
    rintro c ⟨hc, -⟩
    cases hc
    exact ⟨_, rfl, rfl⟩
  exact ⟨s, hrun, popups_exit hrun⟩

/-- The group leader exits first: its popup thread finds no leader, and the kernel stops. -/
theorem leader_exits_first : ∃ s c, Run threadStep anyStep .init (onePopup ++ [.exit 1]) s ∧
    s.Live 2 c ∧ c.popupStackIndex = some 0 ∧ s.findProcess c.pgid = none ∧
    threadStep s (.popupExit 2) = none :=
  ⟨_, _, .more trivial rfl (.more trivial rfl (.more trivial rfl (.one trivial rfl))), ⟨rfl, rfl⟩,
    rfl, rfl, rfl⟩

end Muxomucota.Tasking
