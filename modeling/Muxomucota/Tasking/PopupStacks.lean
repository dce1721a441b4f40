import Muxomucota.Tasking.Popups

/-!
# Tasking — a popup stack has one thread on it

The invariant over the live processes of a group: they share the leader's address space, whoever has
a mask has the leader's, and every popup stack that somebody runs on has its bit set there and nobody
else on it.  It breaks where `set_process_popup_entry` makes a second mask for an address space, or
a first one while somebody already runs on a popup stack.
-/

namespace Muxomucota.Tasking
open Lib

variable {s s' : Threads} {a : ThreadAct} {p q pid : Nat} {c d l : Thread}

/-- **The condition**: a mask is made only for a group leader, and not while somebody in its address
space runs on a popup stack; no thread is started on a popup stack of a process with a mask; and a
group leader that exits is the last of its group. -/
def StackStepOk (s : Threads) : ThreadAct → Prop
  | .popupEntry p => ∀ c, s.Live p c → c.popupStackMask = none →
      c.pgid = p ∧ ∀ q d, s.Live q d → d.vmmc = c.vmmc → d.stack = none
  | .createThread p _ stackTop => Threads.stackSlot stackTop = none ∨
      ∀ c q d, s.Live p c → s.Live q d → d.vmmc = c.vmmc → d.popupStackMask = none
  | .exit p => ∀ q d, s.Live q d → d.pgid = p → q = p
  | _ => True

/-- **Exclusive popup stacks**: in one address space no two live threads have the same stack, and
the one that `popup` takes has no live thread running on it. -/
structure StacksApart (s : Threads) : Prop where
  distinct : ∀ p q c d k, s.Live p c → s.Live q d → c.vmmc = d.vmmc →
    c.popupStackIndex = some k → d.popupStackIndex = some k → p = q
  unused : ∀ p q c d k, s.Live p c → s.popupSlot c = some k → s.Live q d → d.vmmc = c.vmmc →
    d.stack ≠ some k

/-- The invariant. -/
structure StackInv (s : Threads) : Prop where
  leader : ∀ p c, s.Live p c → ∃ l, s.Live c.pgid l ∧ l.pgid = c.pgid ∧ l.vmmc = c.vmmc
  space : ∀ p q c d, s.Live p c → s.Live q d → c.vmmc = d.vmmc → c.pgid = d.pgid
  vmmcLt : ∀ p c, s.Live p c → c.vmmc < s.nextVmmc
  maskLt : ∀ p c m, s.Live p c → c.popupStackMask = some m → m < s.nextMask
  shared : ∀ p c l m, s.Live p c → c.popupStackMask = some m → s.Live c.pgid l →
    l.popupStackMask = some m
  apart : ∀ p q c d m, s.Live p c → s.Live q d → c.popupStackMask = some m →
    d.popupStackMask = some m → c.pgid = d.pgid
  onStack : ∀ p c k, s.Live p c → c.popupStackIndex = some k → c.stack = some k ∧ c.pgid ≠ p
  masked : ∀ p c l, s.Live p c → c.popupStackIndex.isSome = true → s.Live c.pgid l →
    l.popupStackMask.isSome = true
  taken : ∀ p c l m k, s.Live p c → c.stack = some k → s.Live c.pgid l →
    l.popupStackMask = some m → s.masks m k = true
  alone : ∀ p q c d l k, s.Live p c → s.Live q d → c.pgid = d.pgid → c.stack = some k →
    d.stack = some k → s.Live c.pgid l → l.popupStackMask.isSome = true → p = q
  off : ∀ p c, s.Live p c → c.popupStackMask.isSome = true → c.stack = none
  entry : ∀ p c, s.Live p c → c.popupEntry = true → c.popupStackMask.isSome = true

theorem stackInv_init : StackInv .init := by
  constructor <;> intro p <;> intros <;> simp_all [Threads.Live, Threads.init]

namespace StackInv

/-- What the invariant is for. -/
theorem stacksApart (h : StackInv s) : StacksApart s where
  distinct p q c d k hc hd hspace hkc hkd := by
    obtain ⟨l, hl, -, -⟩ := h.leader p c hc
    exact h.alone p q c d l k hc hd (h.space p q c d hc hd hspace) (h.onStack p c k hc hkc).1
      (h.onStack q d k hd hkd).1 hl (h.masked p c l hc (by simp [hkc]) hl)
  unused p q c d k hc hk hd hspace hstack := by
    obtain ⟨m, hm⟩ : ∃ m, c.popupStackMask = some m := by
      cases hm : c.popupStackMask with
      | none => simp [Threads.popupSlot, hm] at hk
      | some m => exact ⟨m, rfl⟩
    obtain ⟨l, hl, -, -⟩ := h.leader p c hc
    have hpgid := h.space q p d c hd hc hspace
    have htaken := h.taken q d l m k hd hstack (hpgid ▸ hl) (h.shared p c l m hc hm hl)
    rw [Threads.popupSlot_free hm hk] at htaken
    cases htaken

/-- A process joins, as leader of a group of its own in an address space of its own. -/
theorem found (h : StackInv s) (hnew : s.procs pid = none)
    (hlive : ∀ q d, s'.Live q d ↔ (q = pid ∧ d = c) ∨ s.Live q d)
    (hmasks : s'.masks = s.masks) (hmask : s'.nextMask = s.nextMask)
    (hvmmc : s'.nextVmmc = s.nextVmmc + 1) (hpgid : c.pgid = pid) (hspace : c.vmmc = s.nextVmmc)
    (hno : c.popupStackMask = none) (hindex : c.popupStackIndex = none)
    (hentry : c.popupEntry = false) : StackInv s' := by
  have hfresh : ∀ d, ¬ s.Live pid d := fun d hd => by simp [Threads.Live, hnew] at hd
  have hpg : ∀ q d, s.Live q d → d.pgid ≠ pid := fun q d hd heq => by
    obtain ⟨l, hl, -, -⟩ := h.leader q d hd
    exact hfresh l (heq ▸ hl)
  have hvm := h.vmmcLt
  constructor
  case leader =>
    intro p d hd
    rcases (hlive p d).mp hd with ⟨rfl, rfl⟩ | hd
    · exact ⟨d, (hlive _ _).mpr (.inl ⟨hpgid, rfl⟩), rfl, rfl⟩
    · obtain ⟨l, hl, hrest⟩ := h.leader p d hd
      exact ⟨l, (hlive _ _).mpr (.inr hl), hrest⟩
  all_goals grind -ring -linarith -ac [StackInv]

/-- A thread joins a group; what is asked of it is what the invariant says of one thread. -/
theorem join (h : StackInv s) (hnew : s.procs pid = none)
    (hlive : ∀ q d, s'.Live q d ↔ (q = pid ∧ d = c) ∨ s.Live q d)
    (hmask : s'.nextMask = s.nextMask) (hvmmc : s'.nextVmmc = s.nextVmmc)
    (hmasks : ∀ m k, s.masks m k = true → s'.masks m k = true)
    (hgroup : ∃ p e, s.Live p e ∧ e.pgid = c.pgid ∧ e.vmmc = c.vmmc ∧
      (c.popupStackMask.isSome = true → c.popupStackMask = e.popupStackMask))
    (hindex : ∀ k, c.popupStackIndex = some k → c.stack = some k ∧
      ∀ l, s.Live c.pgid l → l.popupStackMask.isSome = true)
    (hstack : ∀ k l m, c.stack = some k → s.Live c.pgid l → l.popupStackMask = some m →
      s'.masks m k = true ∧ ∀ q d, s.Live q d → d.pgid = c.pgid → d.stack ≠ some k)
    (hoff : c.popupStackMask.isSome = true → c.stack = none)
    (hentry : c.popupEntry = false) : StackInv s' := by
  obtain ⟨p₀, e, he, hpgid, hspace, hshare⟩ := hgroup
  obtain ⟨l₀, hl₀, hlpgid, hlspace⟩ := h.leader p₀ e he
  have hfresh : ∀ d, ¬ s.Live pid d := fun d hd => by simp [Threads.Live, hnew] at hd
  -- the leader is there already, so that the new thread is nobody's
  have hpg : c.pgid ≠ pid := fun heq => hfresh l₀ (heq ▸ hpgid ▸ hl₀)
  have hpgs : ∀ q d, s.Live q d → d.pgid ≠ pid := fun q d hd heq => by
    obtain ⟨l, hl, -, -⟩ := h.leader q d hd
    exact hfresh l (heq ▸ hl)
  have hled : ∀ l, s'.Live c.pgid l ↔ s.Live c.pgid l := fun l => by
    rw [hlive]
    simp [hpg]
  have hleds : ∀ q d l, s.Live q d → (s'.Live d.pgid l ↔ s.Live d.pgid l) := fun q d l hd => by
    rw [hlive]
    simp [hpgs q d hd]
  constructor
  case leader =>
    intro p d hd
    rcases (hlive p d).mp hd with ⟨rfl, rfl⟩ | hd
    · exact ⟨l₀, (hled _).mpr (hpgid ▸ hl₀), hlpgid.trans hpgid, hlspace.trans hspace⟩
    · obtain ⟨l, hl, hrest⟩ := h.leader p d hd
      exact ⟨l, (hlive _ _).mpr (.inr hl), hrest⟩
  case masked =>
    intro p d l hd hi hl
    rcases (hlive p d).mp hd with ⟨rfl, rfl⟩ | hd
    · obtain ⟨k, hk⟩ := Option.isSome_iff_exists.mp hi
      exact (hindex k hk).2 l ((hled l).mp hl)
    · exact h.masked p d l hd hi ((hleds p d l hd).mp hl)
  case taken =>
    intro p d l m k hd hk hl hm
    rcases (hlive p d).mp hd with ⟨rfl, rfl⟩ | hd
    · exact (hstack k l m hk ((hled l).mp hl) hm).1
    · exact hmasks m k (h.taken p d l m k hd hk ((hleds p d l hd).mp hl) hm)
  case alone =>
    intro p q d d' l k hd hd' hsame hk hk' hl hm
    obtain ⟨m, hm⟩ := Option.isSome_iff_exists.mp hm
    rcases (hlive p d).mp hd with ⟨rfl, rfl⟩ | hd <;> rcases (hlive q d').mp hd' with ⟨rfl, rfl⟩ | hd'
    · rfl
    · exact absurd hk' ((hstack k l m hk ((hled l).mp hl) hm).2 q d' hd' hsame.symm)
    · rw [hsame] at hl
      exact absurd hk ((hstack k l m hk' ((hled l).mp hl) hm).2 p d hd hsame)
    · exact h.alone p q d d' l k hd hd' hsame hk hk' ((hleds p d l hd).mp hl) (by simp [hm])
  all_goals grind -ring -linarith -ac [StackInv]

/-- A thread that leads nobody else leaves; a bit that is cleared belongs to its own stack. -/
theorem part (h : StackInv s) (hlive : ∀ q d, s'.Live q d ↔ q ≠ p ∧ s.Live q d)
    (hmask : s'.nextMask = s.nextMask) (hvmmc : s'.nextVmmc = s.nextVmmc)
    (hlast : ∀ q d, s.Live q d → d.pgid = p → q = p)
    (hmasks : ∀ m k, s.masks m k = true → s'.masks m k = true ∨ ∃ c l, s.Live p c ∧
      c.stack = some k ∧ s.Live c.pgid l ∧ l.popupStackMask = some m) : StackInv s' := by
  have hled : ∀ q d l, s'.Live q d → (s'.Live d.pgid l ↔ s.Live d.pgid l) := fun q d l hd => by
    obtain ⟨hq, hd⟩ := (hlive q d).mp hd
    rw [hlive]
    exact and_iff_right fun heq => hq (hlast q d hd heq)
  constructor
  case taken =>
    intro q d l m k hd hk hl hm
    obtain ⟨hq, hd₀⟩ := (hlive q d).mp hd
    have hl₀ := (hled q d l hd).mp hl
    rcases hmasks m k (h.taken q d l m k hd₀ hk hl₀ hm) with hstill | ⟨c, l', hc, hkc, hl', hm'⟩
    · exact hstill
    · -- the same mask, so the same group, where the stack was that of the thread that leaves
      have hsame := h.apart _ _ l' l m hl' hl₀ hm' hm
      obtain ⟨lc, hlc, hlcpgid, -⟩ := h.leader p c hc
      obtain ⟨ld, hld, hldpgid, -⟩ := h.leader q d hd₀
      rw [hlc.unique hl'] at hlcpgid
      rw [hld.unique hl₀] at hldpgid
      rw [hlcpgid, hldpgid] at hsame
      exact absurd (h.alone q p d c l k hd₀ hc hsame.symm hk hkc hl₀ (by simp [hm])) hq
  all_goals grind -ring -linarith -ac [StackInv]

/-- A thread gets an entry for popups, and keeps its mask or, as a leader, gets a new one. -/
theorem giveEntry (h : StackInv s) (c' : Thread) (hc : s.Live p c)
    (hlive : ∀ q d, s'.Live q d ↔ (q = p ∧ d = c') ∨ (q ≠ p ∧ s.Live q d))
    (hsame : c'.pgid = c.pgid ∧ c'.vmmc = c.vmmc ∧ c'.popupStackIndex = c.popupStackIndex ∧
      c'.stack = c.stack)
    (hvmmc : s'.nextVmmc = s.nextVmmc) {m : Nat} (hm : c'.popupStackMask = some m)
    (hcases : (c.popupStackMask = some m ∧ s'.masks = s.masks ∧ s'.nextMask = s.nextMask) ∨
      (c.popupStackMask = none ∧ m = s.nextMask ∧ s'.nextMask = s.nextMask + 1 ∧
        s'.masks = Function.update s.masks s.nextMask fun _ => false))
    (hok : c.popupStackMask = none →
      c.pgid = p ∧ ∀ q d, s.Live q d → d.vmmc = c.vmmc → d.stack = none) :
    StackInv s' := by
  obtain ⟨hpgid, hspace, hindex, hstack⟩ := hsame
  have hself : s'.Live p c' := (hlive p c').mpr (.inl ⟨rfl, rfl⟩)
  rcases hcases with ⟨hold, hmasks, hnext⟩ | ⟨hold, rfl, hnext, hmasks⟩
  · constructor
    all_goals grind -ring -linarith -ac [StackInv, → Threads.Live.unique]
  · -- the leader had no mask, so nobody in the group had one
    obtain ⟨hleads, hnone⟩ := hok hold
    have hgroup : ∀ q d, s.Live q d → d.pgid = p → d.popupStackMask = none ∧ d.stack = none := by
      intro q d hd hdp
      obtain ⟨l, hl, -, hlspace⟩ := h.leader q d hd
      obtain rfl := hl.unique (hdp ▸ hc)
      refine ⟨?_, hnone q d hd hlspace.symm⟩
      by_contra hne
      obtain ⟨m', hm'⟩ := Option.ne_none_iff_exists'.mp hne
      rw [h.shared q d l m' hd hm' (hdp ▸ hc)] at hold
      cases hold
    constructor
    case taken =>
      intro q d l m k hd hk hl hm'
      have hq : q ≠ p := by
        rintro rfl
        rcases (hlive q d).mp hd with ⟨-, rfl⟩ | ⟨hne, -⟩
        · rw [hstack, (hgroup q c hc hleads).2] at hk
          cases hk
        · exact hne rfl
      have hd : s.Live q d := by
        rcases (hlive q d).mp hd with ⟨heq, -⟩ | ⟨-, hd⟩
        · exact absurd heq hq
        · exact hd
      have hother : d.pgid ≠ p := fun hdp => by
        rw [(hgroup q d hd hdp).2] at hk
        cases hk
      have hl : s.Live d.pgid l := by
        rcases (hlive _ l).mp hl with ⟨heq, -⟩ | ⟨-, hl⟩
        · exact absurd heq hother
        · exact hl
      rw [hmasks, Function.update_of_ne (Nat.ne_of_lt (h.maskLt _ l m hl hm'))]
      exact h.taken q d l m k hd hk hl hm'
    all_goals grind -ring -linarith -ac [StackInv, → Threads.Live.unique]

/-- `SYS_POPUP_ENTRY`. -/
theorem popupEntry (h : StackInv s) (hc : s.Live p c)
    (hok : c.popupStackMask = none →
      c.pgid = p ∧ ∀ q d, s.Live q d → d.vmmc = c.vmmc → d.stack = none) :
    StackInv (s.setProcessPopupEntry p c) := by
  obtain ⟨m, masks, nextMask, heq, hcases⟩ := s.setProcessPopupEntry_spec p c
  rw [heq]
  refine h.giveEntry { c with popupEntry := true, popupStackMask := some m } hc
    (fun q d => Threads.live_change (fun q hq => Function.update_of_ne hq ..)
      (Function.update_self ..) hc.2) ⟨rfl, rfl, rfl, rfl⟩ rfl rfl ?_ hok
  rcases hcases with hold | ⟨hold, hm, hnext, hmasks⟩
  · exact .inl hold
  · exact .inr ⟨hold, hm, hnext, hmasks⟩

/-- A popup thread starts, on a stack that was free. -/
theorem popup {k m : Nat} {z : Bool} (h : StackInv s) (hc : s.Live p c)
    (hm : c.popupStackMask = some m) (hfree : s.masks m k = false) (hnew : s.procs pid = none) :
    StackInv { s.setProc pid (some
        { pgid := c.pgid, life := .live, vmmc := c.vmmc, popupEntry := false,
          popupStackMask := none, popupStackIndex := some k, popupZombify := z, stack := some k })
      with masks := Function.update s.masks m (Function.update (s.masks m) k true) } := by
  have hled : ∀ l, s.Live c.pgid l → l.popupStackMask = some m := fun l hl =>
    h.shared p c l m hc hm hl
  refine h.join hnew (fun q d => Threads.live_join hnew (fun q hq => Function.update_of_ne hq ..)
      (Function.update_self ..) rfl) rfl rfl (fun m' k' hk' => ?_)
    ⟨p, c, hc, rfl, rfl, fun hs => by cases hs⟩
    (fun k' hk' => ⟨hk', fun l hl => by rw [hled l hl]; rfl⟩) (fun k' l m' hk' hl hm' => ?_)
    (fun hs => by cases hs) rfl
  · dsimp only
    simp only [Function.update_apply]
    split
    · rename_i hmm
      subst hmm
      rw [Function.update_apply]
      split
      · rfl
      · exact hk'
    · exact hk'
  · obtain rfl := Option.some.inj hk'
    obtain rfl := Option.some.inj ((hled l hl).symm.trans hm')
    refine ⟨by simp, fun q d hd hpgid hstack => ?_⟩
    have htaken := h.taken q d l m k hd hstack (hpgid ▸ hl) hm'
    rw [hfree] at htaken
    cases htaken

/-- A popup thread exits. -/
theorem popupExit (h : StackInv s) (hc : s.Live p c) (hpopup : c.popupStackIndex.isSome = true)
    (hs : s.destroyThisPopupThread p c = some s') : StackInv s' := by
  obtain ⟨k, hk⟩ := Option.isSome_iff_exists.mp hpopup
  obtain ⟨pg, m, life, hpg, hm, hlife, rfl⟩ := Threads.destroyThisPopupThread_eq_some hk hs
  obtain ⟨hstack, hpgid⟩ := h.onStack p c k hc hk
  refine h.part (p := p) (fun q d => Threads.live_part (fun q hq => Function.update_of_ne hq ..) ?_)
    rfl rfl (fun q d hd hdp => ?_) fun m' k' hk' => ?_
  · rintro d ⟨hd, hlive⟩
    simp only [Threads.setProc_procs, if_true, Option.some.injEq] at hd
    subst hd
    exact hlife hlive
  · -- a popup thread leads nobody: who leads somebody leads itself
    obtain ⟨l, hl, hlpgid, -⟩ := h.leader q d hd
    obtain rfl := hc.unique (hdp ▸ hl)
    exact absurd (hlpgid.trans hdp) hpgid
  · dsimp only
    by_cases hmm : m' = m
    · subst hmm
      by_cases hkk : k' = k
      · subst hkk
        exact .inr ⟨c, pg, hc, hstack, hpg, hm⟩
      · left
        rw [Function.update_self, Function.update_of_ne hkk]
        exact hk'
    · left
      rw [Function.update_of_ne hmm]
      exact hk'

/-- Every step keeps the invariant. -/
theorem step (h : StackInv s) (hok : StackStepOk s a) (hs : threadStep s a = some s') :
    StackInv s' := by
  cases a with
  | createProcess pid =>
      simp only [threadStep, Threads.createProcess, Option.ite_none_left_eq_some,
        Option.some.injEq, Bool.not_eq_true, Option.isSome_eq_false_iff,
        Option.isNone_iff_eq_none] at hs
      obtain ⟨hnew, rfl⟩ := hs
      exact h.found hnew (fun q d => Threads.live_join hnew
        (fun q hq => Function.update_of_ne hq ..) (Function.update_self ..) rfl) rfl rfl rfl rfl rfl
        rfl rfl rfl
  | createThread p pid stackTop =>
      simp only [threadStep, Option.bind_eq_bind, Option.bind_eq_some_iff, Threads.createUserThread,
        Option.ite_none_left_eq_some, Option.some.injEq, Bool.not_eq_true,
        Option.isSome_eq_false_iff, Option.isNone_iff_eq_none] at hs
      obtain ⟨c, hc, hnew, rfl⟩ := hs
      have hc := Threads.findProcess_eq_some.mp hc
      refine h.join hnew (fun q d => Threads.live_join hnew
          (fun q hq => Function.update_of_ne hq ..) (Function.update_self ..) rfl) rfl rfl
        (fun _ _ hk => hk) ⟨p, c, hc, rfl, rfl, fun _ => rfl⟩ (fun k hk => by cases hk)
        (fun k l m hk hl hm => ?_) (fun hmask => ?_) rfl
      · -- on a popup stack only where nobody has a mask
        rcases hok with hslot | hnone
        · rw [hslot] at hk
          cases hk
        · obtain ⟨l', hl', -, hspace⟩ := h.leader p c hc
          obtain rfl := hl'.unique hl
          rw [hnone c _ l' hc hl' hspace] at hm
          cases hm
      · rcases hok with hslot | hnone
        · exact hslot
        · dsimp only at hmask
          rw [hnone c p c hc hc rfl] at hmask
          cases hmask
  | popupEntry p =>
      simp only [threadStep, Option.bind_eq_bind, Option.bind_eq_some_iff, Option.some.injEq] at hs
      obtain ⟨c, hc, rfl⟩ := hs
      have hc := Threads.findProcess_eq_some.mp hc
      exact h.popupEntry hc (hok c hc)
  | popup target pid zombify =>
      simp only [threadStep, Option.bind_eq_bind, Option.bind_eq_some_iff] at hs
      obtain ⟨c, hc, hs⟩ := hs
      obtain rfl | ⟨m, k, hm, hk, hnew, rfl⟩ := Threads.popup_eq_some hs
      · exact h
      · exact h.popup (Threads.findProcess_eq_some.mp hc) hm (Threads.popupSlot_free hm hk) hnew
  | popupExit p =>
      simp only [threadStep, Option.bind_eq_bind, Option.bind_eq_some_iff,
        Option.ite_none_right_eq_some] at hs
      obtain ⟨c, hc, hpopup, hs⟩ := hs
      exact h.popupExit (Threads.findProcess_eq_some.mp hc) hpopup hs
  | exit p =>
      simp only [threadStep, Option.bind_eq_bind, Option.bind_eq_some_iff] at hs
      obtain ⟨c, hc, hs⟩ := hs
      split at hs
      · rename_i hpopup
        exact h.popupExit (Threads.findProcess_eq_some.mp hc) hpopup hs
      · cases hs
        refine h.part (p := p) (fun q d => Threads.live_part
          (fun q hq => Function.update_of_ne hq ..) ?_) rfl rfl hok fun _ _ hk => .inl hk
        rintro d ⟨hd, hlive⟩
        simp only [Threads.destroyProcess, Threads.setProc_procs, if_true, Option.some.injEq] at hd
        subst hd
        cases hlive
  | fork p pid =>
      simp only [threadStep, Option.bind_eq_bind, Option.bind_eq_some_iff, Threads.fork,
        Option.ite_none_left_eq_some, Option.some.injEq, Bool.not_eq_true,
        Option.isSome_eq_false_iff, Option.isNone_iff_eq_none] at hs
      obtain ⟨c, hc, hnew, rfl⟩ := hs
      have hc := Threads.findProcess_eq_some.mp hc
      have hchild : StackInv { s.setProc pid (some
          { pgid := pid, life := .live, vmmc := s.nextVmmc, popupEntry := false,
            popupStackMask := none, popupStackIndex := none, popupZombify := false,
            stack := c.stack }) with nextVmmc := s.nextVmmc + 1 } := h.found hnew
        (fun q d => Threads.live_join hnew (fun q hq => Function.update_of_ne hq ..)
          (Function.update_self ..) rfl) rfl rfl rfl rfl rfl rfl rfl rfl
      split
      · -- who has an entry has a mask, and so does not run on a popup stack
        rename_i hentry
        have hstack := h.off p c hc (h.entry p c hc hentry)
        refine hchild.popupEntry ⟨Function.update_self .., rfl⟩ fun _ => ⟨rfl, fun q d hd hspace => ?_⟩
        rcases (Threads.live_join hnew (fun q hq => Function.update_of_ne hq ..)
          (Function.update_self ..) rfl).mp hd with ⟨-, rfl⟩ | hd
        · exact hstack
        · exact absurd hspace (Nat.ne_of_lt (h.vmmcLt q d hd))
      · exact hchild
  | reap p =>
      simp only [threadStep, Option.bind_eq_bind, Option.bind_eq_some_iff,
        Option.ite_none_left_eq_some, Option.some.injEq] at hs
      obtain ⟨c, hc, hdead, rfl⟩ := hs
      refine h.part (p := p) (fun q d => Threads.live_part
          (fun q hq => Function.update_of_ne hq ..) ?_) rfl rfl (fun q d hd hdp => ?_)
        fun _ _ hk => .inl hk
      · rintro d ⟨hd, -⟩
        simp [Threads.destroyProcessStruct] at hd
      · obtain ⟨l, hl, -, -⟩ := h.leader q d hd
        obtain rfl := Option.some.inj (hc.symm.trans (hdp ▸ hl).1)
        exact absurd hl.2 hdead

end StackInv

/-- **Popup stacks are exclusive**: if masks are only made for group leaders, and not while somebody
runs on a popup stack, then no two live threads of an address space have the same popup stack, and
`popup` takes none that a live thread runs on. -/
theorem popup_stacks_apart {as : List ThreadAct} (h : Run threadStep StackStepOk .init as s) :
    StacksApart s :=
  (h.invariant (fun _ _ _ hi hok hs => hi.step hok hs) stackInv_init).stacksApart

/-- A process with an entry and two popup threads, one of which exits before a third starts. -/
def threePopups : List ThreadAct :=
  [.createProcess 1, .popupEntry 1, .popup 1 2 false, .popup 1 3 false, .popupExit 2,
    .popup 1 4 false]

theorem popup_stacks_apart_three :
    ∃ s, Run threadStep StackStepOk .init threePopups s ∧ StacksApart s := by
  obtain ⟨s, hrun⟩ : ∃ s, Run threadStep StackStepOk .init threePopups s := by
    refine ⟨_, .more trivial rfl (.more ?_ rfl (.more trivial rfl (.more trivial rfl
      (.more trivial rfl (.one trivial rfl)))))⟩
    rintro c ⟨hc, -⟩ -
    cases hc
    refine ⟨rfl, fun q d hd _ => ?_⟩
    by_cases hq : q = 1
    · subst hq
      cases hd.1
      rfl
    · simp [Threads.Live, Threads.init, hq] at hd
  exact ⟨s, hrun, popup_stacks_apart hrun⟩

/-- A thread that is not the leader calls `SYS_POPUP_ENTRY`: the address space has two masks, and
both give out the first stack. -/
theorem two_masks : ∃ s c d, Run threadStep anyStep .init
    [.createProcess 1, .createThread 1 2 0x1000, .popupEntry 1, .popupEntry 2, .popup 1 3 false,
      .popup 2 4 false] s ∧
    s.Live 3 c ∧ s.Live 4 d ∧ c.vmmc = d.vmmc ∧ c.popupStackIndex = some 0 ∧
      d.popupStackIndex = some 0 :=
  ⟨_, _, _, .more trivial rfl (.more trivial rfl (.more trivial rfl (.more trivial rfl
    (.more trivial rfl (.one trivial rfl))))), ⟨rfl, rfl⟩, ⟨rfl, rfl⟩, rfl, rfl, rfl⟩

end Muxomucota.Tasking
