import Muxomucota.Lib.Runs
import Muxomucota.Tasking.Pids

/-!
# Tasking — no PID is allocated twice

The invariant of the runs that meet `PidStepOk`: the bits of `used_pids` are the allocated PIDs, and a scan
that has not missed anything has only full words behind it.  A step changes the program counter of one thread
(`Inv.goto`); the compare-and-swaps that succeed also change one bit (`Inv.take`, `Inv.giveBack`).

A call that runs to its end is a run of one thread alone, and that meets the condition (`table_step`): so no
condition is left for calls that are not interrupted (`pids_unique_calls`), as all of them are in this kernel.
`pids_collide` is what the compare-and-swap would not prevent if they were: a run of two creations that get
the same PID.
-/

namespace Muxomucota.Tasking
open Lib

namespace Pids

variable {s s' : Pids} {t pid i bit : Nat} {pc : PidPc} {old new : Word}

structure Inv (s : Pids) : Prop where
  bits : ∀ k < maxPidCount, (s.used (k / 32)).getLsbD (k % 32) = true ↔ k + 1 ∈ s.allocated
  nodup : s.allocated.Nodup
  range : ∀ p ∈ s.allocated, 1 ≤ p ∧ p ≤ maxPidCount
  full : ∀ t, s.missed t = false → ∀ j < (s.pc t).scanned, s.used j = BitVec.allOnes 32
  word : ∀ t i, (s.pc t).word = some i → i < pidWords
  gives : ∀ t p, (s.pc t).gives = some p → p ∈ s.leaving
  apart : ∀ t u p, (s.pc t).gives = some p → (s.pc u).gives = some p → t = u
  exhausted : s.exhausted = true → s.allocated.length = maxPidCount

theorem inv_boot : Inv boot where
  bits k _ := by simp [boot, allocated]
  nodup := List.nodup_nil
  range p hp := absurd hp List.not_mem_nil
  full t _ j hj := absurd hj (Nat.not_lt_zero j)
  word t i h := by cases h
  gives t p h := by cases h
  apart t u p h := by cases h
  exhausted h := by cases h

theorem goto_pc (s : Pids) (t u : Nat) (pc : PidPc) :
    (s.goto t pc).pc u = if u = t then pc else s.pc u := Function.update_apply ..

/-- Only one thread moves, to where nothing more has been scanned or is given back. -/
theorem Inv.goto (h : Inv s)
    (hfull : s.missed t = false → ∀ j < pc.scanned, s.used j = BitVec.allOnes 32)
    (hword : ∀ i, pc.word = some i → i < pidWords)
    (hgives : ∀ p, pc.gives = some p → (s.pc t).gives = some p) : Inv (s.goto t pc) where
  bits := h.bits
  nodup := h.nodup
  range := h.range
  full u hm := by
    rw [goto_pc]
    split
    next heq => subst heq; exact hfull hm
    next => exact h.full u hm
  word u i := by
    rw [goto_pc]
    split
    · exact hword i
    · exact h.word u i
  gives u p := by
    rw [goto_pc]
    split
    · exact fun hp => h.gives t p (hgives p hp)
    · exact h.gives u p
  apart u v p := by
    have hthread : ∀ w, ((s.goto t pc).pc w).gives = some p → (s.pc w).gives = some p := by
      intro w
      rw [goto_pc]
      split
      next heq => subst heq; exact hgives p
      next => exact id
    exact fun hu hv => h.apart u v p (hthread u hu) (hthread v hv)
  exhausted := h.exhausted

theorem Inv.goto_idle (h : Inv s) : Inv (s.goto t .idle) :=
  h.goto (fun _ j hj => absurd hj (Nat.not_lt_zero j)) (fun i hi => by cases hi) fun p hp => by cases hp

/-- A free bit of the word is taken. -/
theorem Inv.take (h : Inv s) (hrun : s.exhausted = false) (hi : i < pidWords) (hpos : 1 ≤ bit)
    (hle : bit ≤ 32) (hfree : (s.used i).getLsbD (bit - 1) = false) :
    Inv (s.take t i bit (s.used i ||| bitMask (bit - 1))) := by
  have hgoto : Inv (s.goto t .idle) := h.goto_idle
  have hall : (s.take t i bit (s.used i ||| bitMask (bit - 1))).allocated =
      (i * 32 + bit) :: s.allocated := rfl
  simp only [pidWords] at hi
  have hlt : i * 32 + (bit - 1) < maxPidCount := by simp only [maxPidCount]; omega
  have hpid : i * 32 + (bit - 1) + 1 = i * 32 + bit := by omega
  have hnew : i * 32 + bit ∉ s.allocated := by
    have hbit := h.bits (i * 32 + (bit - 1)) hlt
    rw [show (i * 32 + (bit - 1)) / 32 = i by omega, show (i * 32 + (bit - 1)) % 32 = bit - 1 by omega,
      hfree, hpid] at hbit
    exact fun hmem => Bool.false_ne_true (hbit.mpr hmem)
  refine ⟨fun k hk => ?_, ?_, ?_, fun u hm j hj => ?_, hgoto.word, hgoto.gives, hgoto.apart, ?_⟩
  · rw [hall, List.mem_cons]
    show (Function.update s.used i _ (k / 32)).getLsbD (k % 32) = true ↔ _
    rw [Function.update_apply]
    split
    next heq =>
      rw [BitVec.getLsbD_or, Bool.or_eq_true, getLsbD_bitMask (by omega) (by omega), decide_eq_true_eq,
        ← heq, h.bits k hk, or_comm]
      exact or_congr_left (by omega)
    next hne =>
      rw [h.bits k hk]
      exact (or_iff_right (by omega)).symm
  · rw [hall]
    exact List.nodup_cons.mpr ⟨hnew, h.nodup⟩
  · intro p hp
    rw [hall, List.mem_cons] at hp
    rcases hp with rfl | hp
    · omega
    · exact h.range p hp
  · have hfull : s.used j = BitVec.allOnes 32 := hgoto.full u hm j hj
    show Function.update s.used i _ j = _
    rw [Function.update_apply]
    split
    next heq =>
      -- a full word has no free bit
      have hbit : bit - 1 < 32 := by omega
      rw [← heq, hfull, BitVec.getLsbD_allOnes, decide_eq_true hbit] at hfree
      cases hfree
    next => exact hfull
  · exact fun hex => absurd (hrun.symm.trans hex) Bool.false_ne_true

/-- A PID is given back, by the only thread that gives it back. -/
theorem Inv.giveBack (h : Inv s) (hrun : s.exhausted = false) (hgives : (s.pc t).gives = some pid) :
    Inv (s.giveBack t pid (s.used ((pid - 1) / 32) &&& ~~~bitMask ((pid - 1) % 32))) := by
  have hgoto : Inv (s.goto t .idle) := h.goto_idle
  have hleaving : pid ∈ s.leaving := h.gives t pid hgives
  obtain ⟨hlive, hleave, hapart⟩ := List.nodup_append.mp h.nodup
  have hall : ∀ p, p ∈ (s.giveBack t pid
      (s.used ((pid - 1) / 32) &&& ~~~bitMask ((pid - 1) % 32))).allocated ↔
        p ∈ s.allocated ∧ p ≠ pid := by
    intro p
    show p ∈ s.live ++ s.leaving.erase pid ↔ p ∈ s.live ++ s.leaving ∧ p ≠ pid
    rw [List.mem_append, List.mem_append, hleave.mem_erase_iff]
    refine ⟨?_, fun hp => ?_⟩
    · rintro (hp | ⟨hne, hp⟩)
      · exact ⟨.inl hp, fun heq => hapart p hp pid hleaving heq⟩
      · exact ⟨.inr hp, hne⟩
    · exact hp.1.imp_right fun hl => ⟨hp.2, hl⟩
  obtain ⟨hpos, hmax⟩ := h.range pid (List.mem_append_right _ hleaving)
  simp only [maxPidCount] at hmax
  refine ⟨fun k hk => ?_, ?_, fun p hp => h.range p ((hall p).mp hp).1, fun u hm j hj => ?_,
    hgoto.word, fun u p hp => ?_, hgoto.apart, ?_⟩
  · rw [hall]
    show (Function.update s.used _ _ (k / 32)).getLsbD (k % 32) = true ↔ _
    rw [Function.update_apply]
    split
    next heq =>
      rw [BitVec.getLsbD_and, BitVec.getLsbD_not, getLsbD_bitMask (by omega) (by omega),
        Bool.and_eq_true, ← heq, h.bits k hk]
      refine and_congr_right fun _ => ?_
      have hlt : k % 32 < 32 := by omega
      simp only [hlt, decide_true, Bool.true_and, Bool.not_eq_true', decide_eq_false_iff_not]
      omega
    next hne =>
      rw [h.bits k hk]
      exact (and_iff_left (by omega)).symm
  · show (s.live ++ s.leaving.erase pid).Nodup
    exact h.nodup.sublist (List.erase_sublist.append_left s.live)
  · -- the scans that have passed the word know
    obtain ⟨hm, hpassed⟩ : s.missed u = false ∧ ¬ (pid - 1) / 32 < (s.pc u).scanned := by
      have hm : (s.missed u || decide ((pid - 1) / 32 < (s.pc u).scanned)) = false := hm
      simpa using hm
    have hfull : s.used j = BitVec.allOnes 32 := hgoto.full u hm j hj
    have hscan : ((s.goto t .idle).pc u).scanned ≤ (s.pc u).scanned := by
      rw [goto_pc]
      split
      · exact Nat.zero_le _
      · exact le_rfl
    have hj : j < ((s.goto t .idle).pc u).scanned := hj
    show Function.update s.used _ _ j = _
    rw [Function.update_of_ne (by omega), hfull]
  · show p ∈ s.leaving.erase pid
    have hp' : ((s.goto t .idle).pc u).gives = some p := hp
    refine (List.mem_erase_of_ne ?_).mpr (hgoto.gives u p hp')
    rintro rfl
    -- the thread itself has stopped, and there is no other
    rw [goto_pc] at hp'
    split at hp'
    · cases hp'
    next hne => exact hne (h.apart u t p hp' hgives)
  · exact fun hex => absurd (hrun.symm.trans hex) Bool.false_ne_true

/-- A scan that has passed all words without missing anything has seen all PIDs allocated. -/
theorem Inv.all_allocated (h : Inv s) (hfull : ∀ j < pidWords, s.used j = BitVec.allOnes 32) :
    s.allocated.length = maxPidCount := by
  have hmem : ∀ p, p ∈ s.allocated ↔ p ∈ List.range' 1 maxPidCount := by
    intro p
    rw [List.mem_range'_1]
    refine ⟨fun hp => ?_, fun ⟨hpos, hlt⟩ => ?_⟩
    · have hrange := h.range p hp
      omega
    · have hk : p - 1 < maxPidCount := by omega
      have hbit := h.bits (p - 1) hk
      simp only [maxPidCount] at hk
      rw [hfull _ (by simp only [pidWords]; omega), BitVec.getLsbD_allOnes,
        decide_eq_true (by omega), Nat.sub_add_cancel hpos] at hbit
      exact hbit.mp rfl
  rw [((List.perm_ext_iff_of_nodup h.nodup List.nodup_range').mpr hmem).length_eq, List.length_range']

/-! ### One step -/

/-- A step of a thread. -/
theorem Inv.next (h : Inv s) (hrun : s.exhausted = false) (hok : PidStepOk s (.go t))
    (hs : s.next t = some s') : Inv s' := by
  have hfull := h.full t
  have hword := h.word t
  unfold Pids.next at hs
  unfold PidStepOk at hok
  cases hpc : s.pc t with
  | idle =>
      rw [hpc] at hs
      cases hs
  | test i =>
      simp only [hpc] at hs hok hfull
      split at hs
      next hend =>
        cases hs
        have hall : s.allocated.length = maxPidCount :=
          h.all_allocated fun j hj => hfull (hok hend) j (lt_of_lt_of_le hj hend)
        exact ⟨h.bits, h.nodup, h.range, h.full, h.word, h.gives, h.apart, fun _ => hall⟩
      next hlt =>
        split at hs
        · cases hs
          exact h.goto hfull (fun k hk => by cases hk; omega) fun p hp => by cases hp
        next hmax =>
          cases hs
          refine h.goto (fun hm j hj => ?_) (fun k hk => by cases hk) fun p hp => by cases hp
          rcases Nat.lt_succ_iff_lt_or_eq.mp hj with hj | rfl
          · exact hfull hm j hj
          · exact not_not.mp hmax
  | forBit i =>
      simp only [hpc] at hs hfull hword
      cases hs
      exact h.goto hfull hword fun p hp => by cases hp
  | forOld i r =>
      simp only [hpc] at hs hfull hword
      cases hs
      exact h.goto hfull hword fun p hp => by cases hp
  | forNew i r old =>
      simp only [hpc] at hs hfull hword
      cases hs
      exact h.goto hfull hword fun p hp => by cases hp
  | swap i r old w =>
      simp only [hpc] at hs hok hfull hword
      split at hs
      next heq =>
        cases hs
        obtain ⟨rfl, hr, hfree⟩ := hok heq
        obtain ⟨hpos, hle, -⟩ := ffsl_not hr
        have hmask : bitMask (ffsl (~~~r) + 31) = bitMask (ffsl (~~~r) - 1) := by
          unfold bitMask
          congr 1
          omega
        rw [hmask, ← heq]
        exact h.take hrun (hword i rfl) hpos hle (heq ▸ hfree)
      next =>
        cases hs
        exact h.goto hfull (fun k hk => by cases hk) fun p hp => by cases hp
  | giveRead p =>
      simp only [hpc] at hs
      cases hs
      refine h.goto (fun _ j hj => absurd hj (Nat.not_lt_zero j)) (fun k hk => by cases hk)
        fun q hq => ?_
      rw [hpc]
      exact hq
  | giveSwap p old =>
      simp only [hpc] at hs
      split at hs
      next heq =>
        cases hs
        rw [← heq]
        exact h.giveBack hrun (by rw [hpc]; rfl)
      next =>
        cases hs
        refine h.goto (fun _ j hj => absurd hj (Nat.not_lt_zero j)) (fun k hk => by cases hk)
          fun q hq => ?_
        rw [hpc]
        exact hq

/-- A creation begins. -/
theorem Inv.create (h : Inv s) :
    Inv { s.goto t (.test 0) with missed := Function.update s.missed t false } := by
  have hgoto : Inv (s.goto t (.test 0)) := h.goto (fun _ j hj => absurd hj (Nat.not_lt_zero j))
    (fun k hk => by cases hk) fun p hp => by cases hp
  refine ⟨h.bits, h.nodup, h.range, fun u hm j hj => ?_, hgoto.word, hgoto.gives, hgoto.apart,
    h.exhausted⟩
  have hm : Function.update s.missed t false u = false := hm
  have hj : j < ((s.goto t (.test 0)).pc u).scanned := hj
  rw [goto_pc] at hj
  split at hj
  · exact absurd hj (Nat.not_lt_zero j)
  next hne =>
    rw [Function.update_of_ne hne] at hm
    exact h.full u hm j hj

/-- A process is destroyed: its PID is still allocated. -/
theorem Inv.destroy (h : Inv s) (hlive : pid ∈ s.live) : Inv { s.goto t (.giveRead pid) with
    live := s.live.erase pid, leaving := pid :: s.leaving } := by
  have hperm : (s.live.erase pid ++ pid :: s.leaving).Perm s.allocated :=
    List.perm_middle.trans ((List.perm_cons_erase hlive).symm.append_right s.leaving)
  obtain ⟨-, -, hapart⟩ := List.nodup_append.mp h.nodup
  have hnew : ∀ u, (s.pc u).gives ≠ some pid := fun u hu =>
    hapart pid hlive pid (h.gives u pid hu) rfl
  have hthread : ∀ u p, ((s.goto t (.giveRead pid)).pc u).gives = some p →
      u = t ∧ p = pid ∨ u ≠ t ∧ (s.pc u).gives = some p := by
    intro u p
    rw [goto_pc]
    split
    next heq => exact fun hp => .inl ⟨heq, (Option.some.inj hp).symm⟩
    next hne => exact fun hp => .inr ⟨hne, hp⟩
  refine ⟨fun k hk => ?_, hperm.nodup_iff.mpr h.nodup, fun p hp => h.range p (hperm.mem_iff.mp hp),
    fun u hm j hj => ?_, fun u i hi => ?_, fun u p hp => ?_, fun u v p hu hv => ?_, fun hex => ?_⟩
  · exact (h.bits k hk).trans hperm.mem_iff.symm
  · have hj : j < ((s.goto t (.giveRead pid)).pc u).scanned := hj
    rw [goto_pc] at hj
    split at hj
    · exact absurd hj (Nat.not_lt_zero j)
    · exact h.full u hm j hj
  · have hi : ((s.goto t (.giveRead pid)).pc u).word = some i := hi
    rw [goto_pc] at hi
    split at hi
    · cases hi
    · exact h.word u i hi
  · rcases hthread u p hp with ⟨-, rfl⟩ | ⟨-, hp⟩
    · exact List.mem_cons_self ..
    · exact List.mem_cons_of_mem _ (h.gives u p hp)
  · rcases hthread u p hu with ⟨rfl, rfl⟩ | ⟨-, hu'⟩
    · rcases hthread v p hv with ⟨rfl, -⟩ | ⟨-, hv'⟩
      · rfl
      · exact absurd hv' (hnew v)
    · rcases hthread v p hv with ⟨-, rfl⟩ | ⟨-, hv'⟩
      · exact absurd hu' (hnew u)
      · exact h.apart u v p hu' hv'
  · exact hperm.length_eq.trans (h.exhausted hex)

/-- **One step** that meets the condition. -/
theorem Inv.step {a : PidAct} (h : Inv s) (hok : PidStepOk s a) (hs : s.step a = some s') : Inv s' := by
  unfold Pids.step at hs
  split at hs
  · cases hs
  next hrun =>
    have hrun : s.exhausted = false := by simpa using hrun
    cases a with
    | create t =>
        dsimp only at hs
        split at hs
        · cases hs
          exact h.create
        · cases hs
    | destroy t pid =>
        dsimp only at hs
        split at hs
        next hc =>
          cases hs
          exact h.destroy hc.2
        · cases hs
    | go t => exact h.next hrun hok hs

end Pids

/-! ### Runs -/

/-- **PIDs are unique**: in every state of a run whose steps meet the condition no PID is allocated twice,
all are from 1 to `MAX_PID_COUNT`, and if the assertion has failed, all are allocated. -/
theorem pids_unique {as : List PidAct} {s : Pids} (h : Run Pids.step PidStepOk Pids.boot as s) :
    PidsUnique s.allocated s.exhausted := by
  have hinv : s.Inv := h.invariant (fun _ _ _ hI hok hs => hI.step hok hs) Pids.inv_boot
  exact ⟨hinv.nodup, hinv.range, hinv.exhausted⟩

/-- Thread 0 creates a process, alone. -/
def createAlone : List PidAct := [.create 0, .go 0, .go 0, .go 0, .go 0, .go 0]

theorem pids_unique_alone : ∃ s, Run Pids.step PidStepOk Pids.boot createAlone s ∧
    s.allocated = [1] ∧ PidsUnique s.allocated s.exhausted := by
  let checked (s : Pids) (a : PidAct) : Option Pids := if PidStepOk s a then s.step a else none
  obtain ⟨s, hs⟩ : ∃ s, createAlone.foldlM checked Pids.boot = some s :=
    Option.isSome_iff_exists.mp (by decide)
  have hpids : (createAlone.foldlM checked Pids.boot).map Pids.allocated = some [1] := by decide
  rw [hs] at hpids
  have hrun : Run Pids.step PidStepOk Pids.boot createAlone s := .of_checked hs
  exact ⟨s, hrun, Option.some.inj hpids, pids_unique hrun⟩

/-- Thread 0 has read the word for the bit when thread 1 creates a process. -/
def createTwice : List PidAct :=
  [.create 0, .go 0, .go 0, .create 1, .go 1, .go 1, .go 1, .go 1, .go 1, .go 0, .go 0, .go 0]

/-- Both get the PID 1: the compare-and-swap of thread 0 finds the word as it has read it for `old`. -/
theorem pids_collide : ∃ s, Run Pids.step anyStep Pids.boot createTwice s ∧ s.allocated = [1, 1] ∧
    ¬ PidsUnique s.allocated s.exhausted := by
  obtain ⟨s, hs⟩ : ∃ s, createTwice.foldlM Pids.step Pids.boot = some s :=
    Option.isSome_iff_exists.mp (by decide)
  have hpids : (createTwice.foldlM Pids.step Pids.boot).map Pids.allocated = some [1, 1] := by decide
  rw [hs] at hpids
  have hpids : s.allocated = [1, 1] := Option.some.inj hpids
  refine ⟨s, Run.of_foldlM hs, hpids, fun h => ?_⟩
  have hnodup := h.unique
  rw [hpids] at hnodup
  exact absurd hnodup (by decide)

/-! ### Calls that are not interrupted -/

namespace Pids

variable {p p' : Pids} {used' : Nat → Word} {t i left pid : Nat} {pc pc' : PidPc}

@[simp] theorem goto_self (p : Pids) (t : Nat) (pc : PidPc) : (p.goto t pc).pc t = pc :=
  Function.update_self ..

@[simp] theorem goto_goto (p : Pids) (t : Nat) (pc pc' : PidPc) :
    (p.goto t pc).goto t pc' = p.goto t pc' := by
  simp only [Pids.goto, Function.update_idem]

@[simp] theorem goto_used (p : Pids) (t : Nat) (pc : PidPc) : (p.goto t pc).used = p.used := rfl

@[simp] theorem goto_missed (p : Pids) (t : Nat) (pc : PidPc) : (p.goto t pc).missed = p.missed := rfl

theorem run_go (hrun : p.exhausted = false) (hok : PidStepOk p (.go t)) (h : p.next t = some p') :
    Run Pids.step PidStepOk p [.go t] p' :=
  .one hok (by rw [Pids.step, if_neg (by simp [hrun])]; exact h)

/-- A word is tested. -/
theorem run_test (hrun : p.exhausted = false) (hi : i < pidWords) :
    Run Pids.step PidStepOk (p.goto t (.test i)) [.go t]
      (p.goto t (if p.used i ≠ BitVec.allOnes 32 then .forBit i else .test (i + 1))) := by
  refine run_go (t := t) hrun (by simp only [PidStepOk, goto_self]; omega) ?_
  simp only [Pids.next, goto_self, goto_used, goto_goto]
  rw [if_neg (by omega), ← apply_ite, ← apply_ite]

/-- The accesses of `get_new_pid` to a word with a free bit: all of them find the same. -/
theorem take_alone (hrun : p.exhausted = false) (hfree : p.used i ≠ BitVec.allOnes 32) :
    ∃ as, Run Pids.step PidStepOk (p.goto t (.forBit i)) as
      (p.take t i (ffsl (~~~p.used i)) (p.used i ||| bitMask (ffsl (~~~p.used i) + 31))) := by
  have hgo : ∀ pc p', PidStepOk (p.goto t pc) (.go t) → (p.goto t pc).next t = some p' →
      Run Pids.step PidStepOk (p.goto t pc) [.go t] p' := fun pc p' => run_go hrun
  have hbit := hgo (.forBit i) (p.goto t (.forOld i (p.used i)))
    (by simp [PidStepOk]) (by simp [Pids.next])
  have hold := hgo (.forOld i (p.used i)) (p.goto t (.forNew i (p.used i) (p.used i)))
    (by simp [PidStepOk]) (by simp [Pids.next])
  have hnew := hgo (.forNew i (p.used i) (p.used i)) (p.goto t (.swap i (p.used i) (p.used i) (p.used i)))
    (by simp [PidStepOk]) (by simp [Pids.next])
  have hswap := hgo (.swap i (p.used i) (p.used i) (p.used i))
    (p.take t i (ffsl (~~~p.used i)) (p.used i ||| bitMask (ffsl (~~~p.used i) + 31)))
    (by simp only [PidStepOk, goto_self]; exact fun _ => ⟨trivial, hfree, (ffsl_not hfree).2.2⟩)
    (by simp [Pids.next, Pids.take]; rfl)
  exact ⟨_, hbit.trans (hold.trans (hnew.trans hswap))⟩

/-- The loop of `get_new_pid`, alone: it ends with the PID of the call, or at the assertion. -/
theorem scan_alone (hrun : p.exhausted = false) (hm : p.missed t = false) (hleft : left + i = pidWords) :
    match scanPids p.used left i with
    | some (pid, used') => ∃ as, Run Pids.step PidStepOk (p.goto t (.test i)) as
        { p.goto t .idle with used := used', live := pid :: p.live }
    | none => ∃ as, Run Pids.step PidStepOk (p.goto t (.test i)) as
        { p.goto t (.test pidWords) with exhausted := true } := by
  induction left generalizing i with
  | zero =>
      obtain rfl : i = pidWords := by omega
      exact ⟨_, run_go (t := t) hrun (by simpa [PidStepOk] using hm) (by simp [Pids.next])⟩
  | succ left ih =>
      have htest := run_test (t := t) hrun (i := i) (by omega)
      rw [scanPids]
      by_cases hfree : p.used i ≠ BitVec.allOnes 32
      · rw [if_pos hfree] at htest ⊢
        obtain ⟨as, htake⟩ := take_alone (t := t) hrun hfree
        exact ⟨_, htest.trans htake⟩
      · rw [if_neg hfree] at htest ⊢
        have hrest := ih (i := i + 1) (by omega)
        split at hrest <;> obtain ⟨as, hrest⟩ := hrest <;> exact ⟨_, htest.trans hrest⟩

/-- `relinquish_pid`, alone. -/
theorem give_alone (hrun : p.exhausted = false)
    (hscan : ∀ u, (p.pc u).scanned = 0) : ∃ as, Run Pids.step PidStepOk (p.goto t (.giveRead pid)) as
      { p.goto t .idle with used := relinquishPid p.used pid, leaving := p.leaving.erase pid } := by
  have hread : Run Pids.step PidStepOk (p.goto t (.giveRead pid)) [.go t]
      (p.goto t (.giveSwap pid (p.used ((pid - 1) / 32)))) :=
    run_go (t := t) hrun (by simp [PidStepOk]) (by simp [Pids.next])
  have hback : (p.goto t (.giveSwap pid (p.used ((pid - 1) / 32)))).giveBack t pid
      (p.used ((pid - 1) / 32) &&& ~~~bitMask ((pid - 1) % 32)) =
        { p.goto t .idle with used := relinquishPid p.used pid, leaving := p.leaving.erase pid } := by
    have hmissed : ∀ u, (p.missed u || decide ((pid - 1) / 32 <
        ((p.goto t (.giveSwap pid (p.used ((pid - 1) / 32)))).pc u).scanned)) = p.missed u := by
      intro u
      have hnone : ((p.goto t (.giveSwap pid (p.used ((pid - 1) / 32)))).pc u).scanned = 0 := by
        rw [goto_pc]
        split
        · rfl
        · exact hscan u
      simp [hnone]
    simp only [Pids.giveBack, goto_goto, goto_missed, goto_used, hmissed]
    rfl
  rw [← hback]
  exact ⟨_, hread.trans (run_go (t := t) hrun (by simp [PidStepOk]) (by simp [Pids.next]))⟩

end Pids

namespace PidTable

variable {s s' : PidTable} {c : PidCall}

/-- Between two calls. -/
def toPids (s : PidTable) : Pids where
  used := s.used
  pc _ := .idle
  missed _ := false
  live := s.allocated
  leaving := []
  exhausted := s.exhausted

/-- What a run of the threads shows of the table; once the assertion has failed, a thread stands there. -/
structure Shown (s : PidTable) (p : Pids) : Prop where
  allocated : p.allocated = s.allocated
  exhausted : p.exhausted = s.exhausted
  between : s.exhausted = false → p = s.toPids

/-- **One call** is a run of one thread alone, and all of its steps meet the condition. -/
theorem table_step {c : PidCall} (hs : s.step c = some s') :
    s.exhausted = false ∧ ∃ as p, Run Pids.step PidStepOk s.toPids as p ∧ s'.Shown p := by
  unfold PidTable.step at hs
  split at hs
  · cases hs
  next hrun =>
    have hrun : s.toPids.exhausted = false := by simpa [toPids] using hrun
    have hidle : s.toPids.goto 0 .idle = s.toPids := by
      simp only [Pids.goto, toPids, Function.update_eq_self]
    refine ⟨hrun, ?_⟩
    cases c with
    | create =>
        have hcreate : Run Pids.step PidStepOk s.toPids [.create 0] (s.toPids.goto 0 (.test 0)) := by
          refine .one trivial ?_
          rw [Pids.step, if_neg (by simp [hrun])]
          simp only [Pids.goto, toPids, Function.update_eq_self, if_pos]
        have hscan := Pids.scan_alone (p := s.toPids) (t := 0) hrun rfl
          (rfl : pidWords + 0 = pidWords)
        rw [hidle] at hscan
        dsimp only at hs
        split at hs <;> next hnew =>
          cases hs
          change scanPids s.toPids.used pidWords 0 = _ at hnew
          rw [hnew] at hscan
          obtain ⟨as, hscan⟩ := hscan
          refine ⟨_, _, hcreate.trans hscan, ?_, rfl, ?_⟩
          · exact List.append_nil _
          · first | exact fun _ => rfl | exact nofun
    | destroy pid =>
        dsimp only at hs
        split at hs
        next hlive =>
          cases hs
          obtain ⟨as, hgive⟩ : ∃ as, Run Pids.step PidStepOk (Pids.goto
              { s.toPids with live := s.allocated.erase pid, leaving := [pid] } 0 (.giveRead pid)) as _ :=
            Pids.give_alone hrun fun _ => rfl
          have hdestroy : Run Pids.step PidStepOk s.toPids [.destroy 0 pid]
              ({ s.toPids with live := s.allocated.erase pid, leaving := [pid] }.goto 0 (.giveRead pid)) := by
            refine .one trivial ?_
            rw [Pids.step, if_neg (by simp [hrun])]
            exact if_pos ⟨rfl, hlive⟩
          have hleft : [pid].erase pid = [] := List.erase_cons_head ..
          refine ⟨_, _, hdestroy.trans hgive, ?_, rfl, fun _ => ?_⟩
          · show s.allocated.erase pid ++ [pid].erase pid = _
            rw [hleft, List.append_nil]
          · simp only [Pids.goto, toPids, Function.update_eq_self, hleft]
        · cases hs

/-- Whole calls, one after the other, are a run of the threads. -/
theorem table_run {cs : List PidCall} (h : Run PidTable.step anyStep boot cs s) :
    ∃ as p, Run Pids.step PidStepOk Pids.boot as p ∧ s.Shown p :=
  h.invariant (I := fun s => ∃ as p, Run Pids.step PidStepOk Pids.boot as p ∧ s.Shown p)
    (fun _ _ _ ⟨_, p, hrun, hshown⟩ _ hs => by
      obtain ⟨hbetween, as, p', hcall, hshown'⟩ := table_step hs
      rw [← hshown.between hbetween] at hcall
      exact ⟨_, p', hrun.trans hcall, hshown'⟩)
    ⟨[], Pids.boot, .refl _, rfl, rfl, fun _ => rfl⟩

end PidTable

/-- **PIDs are unique**: whatever processes are created and destroyed, in any order, no PID is allocated
twice, all are from 1 to `MAX_PID_COUNT`, and if the assertion has failed, all are allocated. -/
theorem pids_unique_calls {cs : List PidCall} {s : PidTable}
    (h : Run PidTable.step anyStep PidTable.boot cs s) : PidsUnique s.allocated s.exhausted := by
  obtain ⟨as, p, hrun, hshown⟩ := PidTable.table_run h
  rw [← hshown.allocated, ← hshown.exhausted]
  exact pids_unique hrun

/-- A word of processes and two more; two of them are destroyed and two PIDs are allocated again, the lowest
ones. -/
def createAndDestroy : List PidCall :=
  List.replicate 34 .create ++ [.destroy 33, .destroy 7, .create, .destroy 1, .create, .create]

theorem pids_unique_again : ∃ s, Run PidTable.step anyStep PidTable.boot createAndDestroy s ∧
    s.allocated.take 3 = [33, 1, 7] ∧ s.allocated.length = 34 ∧ PidsUnique s.allocated s.exhausted := by
  obtain ⟨s, hs⟩ : ∃ s, createAndDestroy.foldlM PidTable.step PidTable.boot = some s :=
    Option.isSome_iff_exists.mp (by decide +kernel)
  have hpids : (createAndDestroy.foldlM PidTable.step PidTable.boot).map
      (fun s => (s.allocated.take 3, s.allocated.length)) = some ([33, 1, 7], 34) := by decide +kernel
  rw [hs] at hpids
  obtain ⟨htake, hlength⟩ := Prod.mk.inj (Option.some.inj hpids)
  exact ⟨s, .of_foldlM hs, htake, hlength, pids_unique_calls (.of_foldlM hs)⟩

end Muxomucota.Tasking
