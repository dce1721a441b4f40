import Mathlib.Data.List.Perm.Subperm
import Muxomucota.Lib.Runs
import Muxomucota.Tasking.Waits

/-!
# Tasking — a process is reaped once, and by its parent

Nothing links a waiter to the process it waits for: it is safe because only the parent waits, and a
process has one parent, which is in one system call at a time.  `raw_waitpid` with a PID does not
ask for the parent, and takes a popup thread that the reaper will sweep for one that becomes a
zombie.  If it is only called for a child that becomes a zombie, the address a waiter keeps stays
good, whatever else exits or waits.

A process that exits in its IRQ handler is linked to the zombies without being unlinked from the
daemons, where `find_process` would find it after it was destroyed; so nobody may.
-/

namespace Muxomucota.Tasking
open Lib

variable {s s' : Tasks} {a : TaskAct} {w w' o o' : Nat} {ds zs xs ds' zs' xs' : List Nat}

/-- A popup thread that was started without waiting for it: the reaper sweeps it. -/
def Task.Unwaited (c : Task) : Prop := c.popup = true ∧ c.popupZombify = false

/-- **The condition**: what an explicit `SYS_WAIT` finds is a child of the caller, and no popup
thread that was started without waiting for it; and no process calls `SYS_EXIT` or `SYS_DAEMONIZE`
while it runs its IRQ handler. -/
def WaitStepOk (s : Tasks) : TaskAct → Prop
  | .advance w => ∀ pid nohang o, s.pc w = .lookup pid true nohang →
      s.findWaited pid = some (some o) → (s.objs o).ppid = (s.objs w).pid ∧ ¬ (s.objs o).Unwaited
  | .exit o _ | .daemonize o => (s.objs o).handlingIrq = false
  | _ => True

/-- In the run queue, or linked to the daemons, the zombies or the dead. -/
def InLists (s : Tasks) (ds zs xs : List Nat) (o : Nat) : Prop :=
  o ∈ s.runqueue ∨ o ∈ ds ∨ o ∈ zs ∨ o ∈ xs

/-- **Reaping**: nothing is destroyed twice, neither what a waiter has the address of nor what is in a
list, where a search reads it, is destroyed, and who reads the exit information is the parent. -/
structure ReapedOnce (s : Tasks) : Prop where
  once : ∀ o, (s.objs o).destroyed ≤ 1
  held : ∀ w o, (s.pc w).child = some o → (s.objs o).destroyed = 0
  listed : ∃ ds zs xs, Chain s.next s.daemons ds ∧ Chain s.next s.zombies zs ∧
    Chain s.next s.dead xs ∧ ∀ o, InLists s ds zs xs o → (s.objs o).destroyed = 0
  parent : ∀ w o, s.pc w = .reading o → (s.objs o).ppid = (s.objs w).pid

/-- Where the structure is that a waiter waits for; who exits runs no IRQ handler. -/
def Placed (s : Tasks) (ds zs : List Nat) (w : Nat) : WaitPc → Prop
  | .found o _ | .unlinking o => o ∈ zs
  | .checking o _ | .watching o => o ∈ s.runqueue ∨ o ∈ ds ∨ o ∈ zs
  | .reading o | .destroying o => (s.objs o).status = .zombie ∧ o ∉ zs
  | .leaving _ => (s.objs w).handlingIrq = false
  | _ => True

/-- A child of the process, that is or will be a zombie. -/
def ChildOf (s : Tasks) (w o : Nat) : Prop :=
  (s.objs o).ppid = (s.objs w).pid ∧ ¬ (s.objs o).Unwaited

/-- The invariant. -/
structure WaitInv (s : Tasks) (ds zs xs : List Nat) : Prop where
  daemons : Chain s.next s.daemons ds
  zombies : Chain s.next s.zombies zs
  dead : Chain s.next s.dead xs
  addr : ∀ o, InLists s ds zs xs o → o < s.fresh ∧ (s.objs o).destroyed = 0
  runs : ∀ o ∈ s.runqueue, (s.objs o).status = .active ∨ (s.objs o).status = .daemon
  serves : ∀ o, o ∈ ds ↔ (s.objs o).status = .daemon ∨
    (s.objs o).status = .active ∧ (s.objs o).handlingIrq = true
  rots : ∀ o ∈ zs, (s.objs o).status = .zombie ∧ ¬ (s.objs o).Unwaited
  ends : ∀ o ∈ xs, (s.objs o).status = .destruct ∧ (s.objs o).Unwaited
  runqueueNodup : s.runqueue.Nodup
  zombiesNodup : zs.Nodup
  deadNodup : xs.Nodup
  unborn : ∀ o, s.fresh ≤ o → (s.objs o).destroyed = 0
  pids : ∀ o o', o < s.fresh → o' < s.fresh → (s.objs o).destroyed = 0 →
    (s.objs o').destroyed = 0 → (s.objs o).pid = (s.objs o').pid → o = o'
  once : ∀ o, (s.objs o).destroyed ≤ 1
  calls : ∀ w, s.pc w ≠ .idle → w ∈ s.runqueue ∧ (s.objs w).status = .active
  holds : ∀ w o, (s.pc w).child = some o →
    o < s.fresh ∧ (s.objs o).destroyed = 0 ∧ ChildOf s w o
  placed : ∀ w, Placed s ds zs w (s.pc w)
  own : ∀ w pid nohang, s.pc w = .lookup pid false nohang →
    ∃ o, (s.objs o).pid = pid ∧ (o ∈ s.runqueue ∨ o ∈ ds ∨ o ∈ zs) ∧ ChildOf s w o

theorem waitInv_init : WaitInv .init [] [] [] := by
  constructor <;> simp [Tasks.init, Tasks.newTask, WaitPc.child, Placed, InLists, Chain.nil]

namespace WaitInv

/-- Who is in a system call has a PID of its own. -/
theorem caller_eq (h : WaitInv s ds zs xs) (hw : s.pc w ≠ .idle) (hw' : s.pc w' ≠ .idle)
    (hpid : (s.objs w).pid = (s.objs w').pid) : w = w' := by
  obtain ⟨hlt, hd⟩ := h.addr w (.inl (h.calls w hw).1)
  obtain ⟨hlt', hd'⟩ := h.addr w' (.inl (h.calls w' hw').1)
  exact h.pids w w' hlt hlt' hd hd' hpid

theorem ne_idle (hw : (s.pc w).child = some o) : s.pc w ≠ .idle := by
  intro hidle
  rw [hidle] at hw
  cases hw

/-- **One waiter**: two waiters with one address are one waiter. -/
theorem sole (h : WaitInv s ds zs xs) (hw : (s.pc w).child = some o)
    (hw' : (s.pc w').child = some o) : w = w' :=
  h.caller_eq (ne_idle hw) (ne_idle hw')
    ((h.holds w o hw).2.2.1.symm.trans (h.holds w' o hw').2.2.1)

theorem not_daemon (h : WaitInv s ds zs xs) (hact : (s.objs o).status = .active)
    (hidle : (s.objs o).handlingIrq = false) : o ∉ ds := fun hm => by
  rcases (h.serves o).mp hm with hd | ⟨-, hh⟩
  · rw [hact] at hd; cases hd
  · rw [hidle] at hh; cases hh

theorem not_rotten (h : WaitInv s ds zs xs)
    (hs : (s.objs o).status = .active ∨ (s.objs o).status = .daemon) : o ∉ zs ∧ o ∉ xs := by
  refine ⟨fun hm => ?_, fun hm => ?_⟩
  · have hz := (h.rots o hm).1
    rcases hs with hs | hs <;> rw [hs] at hz <;> cases hz
  · have hx := (h.ends o hm).1
    rcases hs with hs | hs <;> rw [hs] at hx <;> cases hx

/-- What a PID is found to be is in one of the lists, and has the PID. -/
theorem findWaited_some {pid : Nat} (h : WaitInv s ds zs xs) (hf : s.findWaited pid = some (some o)) :
    (o ∈ s.runqueue ∨ o ∈ ds ∨ o ∈ zs) ∧ (s.objs o).pid = pid := by
  have hlist : ∀ {l : List Nat}, some o = l.find? (fun o => (s.objs o).pid = pid) →
      o ∈ l ∧ (s.objs o).pid = pid := fun hl =>
    ⟨List.mem_of_find?_eq_some hl.symm, by simpa using List.find?_some hl.symm⟩
  obtain ⟨r, hr, hf⟩ := Option.bind_eq_some_iff.mp hf
  cases r with
  | some o' =>
      cases hf
      unfold Tasks.findProcess at hr
      split at hr
      · rename_i hfind
        cases hr
        exact (hlist hfind.symm).imp_left .inl
      · exact (hlist (h.daemons.findIn_eq hr)).imp_left fun hm => .inr (.inl hm)
  | none => exact (hlist (h.zombies.findIn_eq hf)).imp_left fun hm => .inr (.inr hm)

/-- Only a process's place in its system call changes. -/
theorem goto (h : WaitInv s ds zs xs) {l : WaitPc}
    (hw : l ≠ .idle → w ∈ s.runqueue ∧ (s.objs w).status = .active)
    (hl : ∀ o, l.child = some o → o < s.fresh ∧ (s.objs o).destroyed = 0 ∧ ChildOf s w o)
    (hp : Placed s ds zs w l)
    (hown : ∀ pid nohang, l = .lookup pid false nohang →
      ∃ o, (s.objs o).pid = pid ∧ (o ∈ s.runqueue ∨ o ∈ ds ∨ o ∈ zs) ∧ ChildOf s w o) :
    WaitInv (s.goto w l) ds zs xs := by
  have hplaced : ∀ v l', Placed (s.goto w l) ds zs v l' ↔ Placed s ds zs v l' := fun v l' => by
    cases l' <;> rfl
  refine { h with calls := fun v hv => ?_, holds := fun v o hv => ?_, placed := fun v => ?_,
                  own := fun v pid nohang hv => ?_ }
  all_goals
    by_cases hvw : v = w
    · subst hvw
      simp only [Tasks.goto, Function.update_self] at *
      first | exact hw hv | exact hl _ hv | exact (hplaced _ _).mpr hp | exact hown _ _ hv
    · simp only [Tasks.goto, Function.update_of_ne hvw] at *
      first | exact h.calls v hv | exact h.holds v _ hv | exact (hplaced _ _).mpr (h.placed v) |
        exact h.own v _ _ hv

theorem idle (h : WaitInv s ds zs xs) (w : Nat) : WaitInv (s.goto w .idle) ds zs xs :=
  h.goto (fun hne => absurd rfl hne) (fun c hc => by cases hc) trivial fun pid nohang hl => by cases hl

theorem pid_free {pid : Nat} (hp : s.pidUsed pid = false) (hlt : o < s.fresh)
    (hd : (s.objs o).destroyed = 0) : (s.objs o).pid ≠ pid := by
  intro heq
  have : s.pidUsed pid = true := by
    simp only [Tasks.pidUsed, List.any_eq_true, List.mem_range, Bool.and_eq_true,
      decide_eq_true_eq]
    exact ⟨o, hlt, hd, heq⟩
  rw [hp] at this
  cases this

/-- A new process. -/
theorem spawn {pid ppid : Nat} {popup zombify : Bool} (h : WaitInv s ds zs xs)
    (hs : s.spawn pid ppid popup zombify = some s') : WaitInv s' ds zs xs := by
  simp only [Tasks.spawn, Option.ite_none_left_eq_some, Option.some.injEq, Bool.not_eq_true] at hs
  obtain ⟨hfree, rfl⟩ := hs
  have hlt : ∀ o, InLists s ds zs xs o → o ≠ s.fresh := fun o ho => Nat.ne_of_lt (h.addr o ho).1
  have hobj : ∀ o, o ≠ s.fresh →
      Function.update s.objs s.fresh (Tasks.newTask pid ppid popup zombify) o = s.objs o := fun o ho =>
    Function.update_of_ne ho ..
  have hchain : ∀ {head l}, Chain s.next head l → s.fresh ∉ l →
      Chain (Function.update s.next s.fresh none) head l := fun hc hm =>
    hc.congr fun _ hb => Function.update_of_ne (ne_of_mem_of_not_mem hb hm) ..
  have hcaller : ∀ v, s.pc v ≠ .idle → v ≠ s.fresh := fun v hv => hlt v (.inl (h.calls v hv).1)
  have hpc : ∀ v, Function.update s.pc s.fresh .idle v = s.pc v := fun v => by
    by_cases hv : v = s.fresh
    · subst hv
      rw [Function.update_self]
      by_contra hne
      exact hcaller _ (Ne.symm hne) rfl
    · exact Function.update_of_ne hv ..
  have hchild : ∀ v o, s.pc v ≠ .idle → o ≠ s.fresh → ChildOf s v o → ChildOf
      { s.setObj s.fresh (Tasks.newTask pid ppid popup zombify) with
        fresh := s.fresh + 1, runqueue := s.fresh :: s.runqueue
        next := Function.update s.next s.fresh none
        pc := Function.update s.pc s.fresh .idle } v o := fun v o hv ho hc => by
    simpa only [ChildOf, Tasks.setObj, hobj _ ho, hobj _ (hcaller v hv)] using hc
  refine
    { daemons := hchain h.daemons fun hm => hlt _ (.inr (.inl hm)) rfl
      zombies := hchain h.zombies fun hm => hlt _ (.inr (.inr (.inl hm))) rfl
      dead := hchain h.dead fun hm => hlt _ (.inr (.inr (.inr hm))) rfl
      addr := fun o ho => ?_, runs := fun o ho => ?_, serves := fun o => ?_, rots := fun o ho => ?_
      ends := fun o ho => ?_, runqueueNodup := ?_, zombiesNodup := h.zombiesNodup
      deadNodup := h.deadNodup, unborn := fun o ho => ?_, pids := fun o o' ho ho' hd hd' heq => ?_
      once := fun o => ?_, calls := fun v hv => ?_, holds := fun v o hv => ?_
      placed := fun v => ?_, own := fun v pid' nohang hv => ?_ }
  · dsimp only [Tasks.setObj]
    by_cases hof : o = s.fresh
    · subst hof
      exact ⟨Nat.lt_succ_self _, by rw [Function.update_self]; rfl⟩
    · obtain ⟨hlt, hd⟩ := h.addr o (ho.imp_left fun hm => (List.mem_cons.mp hm).resolve_left hof)
      exact ⟨Nat.lt_succ_of_lt hlt, by rw [hobj o hof]; exact hd⟩
  · dsimp only [Tasks.setObj]
    rcases List.mem_cons.mp ho with rfl | ho
    · rw [Function.update_self]
      exact .inl rfl
    · rw [hobj o (hlt o (.inl ho))]
      exact h.runs o ho
  · dsimp only [Tasks.setObj]
    by_cases hof : o = s.fresh
    · subst hof
      rw [Function.update_self]
      exact iff_of_false (fun hm => hlt _ (.inr (.inl hm)) rfl) (by simp [Tasks.newTask])
    · rw [hobj o hof]
      exact h.serves o
  · dsimp only [Tasks.setObj]
    rw [hobj o (hlt o (.inr (.inr (.inl ho))))]
    exact h.rots o ho
  · dsimp only [Tasks.setObj]
    rw [hobj o (hlt o (.inr (.inr (.inr ho))))]
    exact h.ends o ho
  · exact List.nodup_cons.mpr ⟨fun hm => hlt _ (.inl hm) rfl, h.runqueueNodup⟩
  · dsimp only [Tasks.setObj] at ho ⊢
    rw [hobj o (by omega)]
    exact h.unborn o (by omega)
  · dsimp only [Tasks.setObj] at ho ho' hd hd' heq
    by_cases hof : o = s.fresh <;> by_cases hof' : o' = s.fresh
    · rw [hof, hof']
    · rw [hobj o' hof'] at hd' heq
      rw [hof, Function.update_self] at heq
      exact absurd heq.symm (pid_free hfree (by omega) hd')
    · rw [hobj o hof] at hd heq
      rw [hof', Function.update_self] at heq
      exact absurd heq (pid_free hfree (by omega) hd)
    · rw [hobj o hof] at hd heq
      rw [hobj o' hof'] at hd' heq
      exact h.pids o o' (by omega) (by omega) hd hd' heq
  · dsimp only [Tasks.setObj]
    by_cases hof : o = s.fresh
    · subst hof
      rw [Function.update_self]
      exact Nat.zero_le _
    · rw [hobj o hof]
      exact h.once o
  · dsimp only [Tasks.setObj] at hv ⊢
    rw [hpc] at hv
    rw [hobj v (hcaller v hv)]
    exact (h.calls v hv).imp_left (List.mem_cons_of_mem _)
  · dsimp only at hv
    rw [hpc] at hv
    obtain ⟨holt, hd, hc⟩ := h.holds v o hv
    refine ⟨Nat.lt_succ_of_lt holt, ?_, hchild v o (ne_idle hv) (Nat.ne_of_lt holt) hc⟩
    dsimp only [Tasks.setObj]
    rw [hobj o (Nat.ne_of_lt holt)]
    exact hd
  · dsimp only
    rw [hpc]
    have hp := h.placed v
    have hheld := h.holds v
    cases hl : s.pc v with
    | reading o | destroying o =>
        rw [hl] at hp hheld
        refine ⟨?_, hp.2⟩
        dsimp only [Tasks.setObj]
        rw [hobj o (Nat.ne_of_lt (hheld o rfl).1)]
        exact hp.1
    | checking o | watching o =>
        rw [hl] at hp
        exact hp.imp_left (List.mem_cons_of_mem _)
    | found o | unlinking o => rw [hl] at hp; exact hp
    | leaving info =>
        rw [hl] at hp
        dsimp only [Placed, Tasks.setObj]
        rw [hobj v (hcaller v (by rw [hl]; exact WaitPc.noConfusion))]
        exact hp
    | _ => trivial
  · dsimp only at hv
    rw [hpc] at hv
    obtain ⟨o, hpid, hin, hc⟩ := h.own v pid' nohang hv
    have hof : o ≠ s.fresh := hlt o (hin.imp_right (Or.imp_right .inl))
    refine ⟨o, ?_, hin.imp_left (List.mem_cons_of_mem _),
      hchild v o (by rw [hv]; exact WaitPc.noConfusion) hof hc⟩
    dsimp only [Tasks.setObj]
    rw [hobj o hof]
    exact hpid

/-- Children change their parent: nobody who waits is the one they leave. -/
theorem adopt (h : WaitInv s ds zs xs) (ho : o ∈ s.runqueue) (hidle : s.pc o = .idle)
    (hs : s.adoptOrphans o = some s') : WaitInv s' ds zs xs ∧ s'.runqueue = s.runqueue ∧
      (s'.objs o).status = (s.objs o).status ∧ (s'.objs o).handlingIrq = (s.objs o).handlingIrq := by
  obtain ⟨l, -, hs⟩ := Option.bind_eq_some_iff.mp hs
  obtain ⟨l', -, hs⟩ := Option.bind_eq_some_iff.mp hs
  cases hs
  generalize hnew : (fun c => if (c ∈ s.runqueue ∨ c ∈ l ∨ c ∈ l') ∧ (s.objs c).ppid = (s.objs o).pid then
    { s.objs c with ppid := (s.objs o).ppid } else s.objs c) = objs
  have hsame : ∀ c, (objs c).pid = (s.objs c).pid ∧ (objs c).status = (s.objs c).status ∧
      (objs c).destroyed = (s.objs c).destroyed ∧ (objs c).handlingIrq = (s.objs c).handlingIrq ∧
      ((objs c).Unwaited ↔ (s.objs c).Unwaited) := fun c => by
    rw [← hnew]
    dsimp only
    split <;> exact ⟨rfl, rfl, rfl, rfl, Iff.rfl⟩
  have hchild : ∀ w c, s.pc w ≠ .idle → ChildOf s w c → ChildOf { s with objs } w c := by
    rintro w c hw ⟨hpp, hun⟩
    obtain ⟨hlt, hd⟩ := h.addr w (.inl (h.calls w hw).1)
    obtain ⟨hlto, hdo⟩ := h.addr o (.inl ho)
    have hne : (s.objs c).ppid ≠ (s.objs o).pid := fun heq => by
      obtain rfl := h.pids w o hlt hlto hd hdo (hpp.symm.trans heq)
      exact hw hidle
    refine ⟨?_, fun hu => hun ((hsame c).2.2.2.2.mp hu)⟩
    dsimp only
    rw [(hsame w).1, ← hnew]
    dsimp only
    rw [if_neg fun hc => hne hc.2]
    exact hpp
  refine ⟨
    { h with
      addr := fun c hc => ?_, runs := fun c hc => ?_, serves := fun c => ?_, rots := fun c hc => ?_
      ends := fun c hc => ?_, unborn := fun c hc => ?_, pids := fun c c' hc hc' hd hd' heq => ?_
      once := fun c => ?_, calls := fun v hv => ?_, holds := fun v c hv => ?_
      placed := fun v => ?_, own := fun v pid nohang hv => ?_ }, rfl, (hsame o).2.1, (hsame o).2.2.2.1⟩
  · dsimp only; rw [(hsame c).2.2.1]; exact h.addr c hc
  · dsimp only; rw [(hsame c).2.1]; exact h.runs c hc
  · dsimp only; rw [(hsame c).2.1, (hsame c).2.2.2.1]; exact h.serves c
  · dsimp only; rw [(hsame c).2.1, (hsame c).2.2.2.2]; exact h.rots c hc
  · dsimp only; rw [(hsame c).2.1, (hsame c).2.2.2.2]; exact h.ends c hc
  · dsimp only; rw [(hsame c).2.2.1]; exact h.unborn c hc
  · dsimp only at hd hd' heq
    rw [(hsame c).2.2.1] at hd
    rw [(hsame c').2.2.1] at hd'
    rw [(hsame c).1, (hsame c').1] at heq
    exact h.pids c c' hc hc' hd hd' heq
  · dsimp only; rw [(hsame c).2.2.1]; exact h.once c
  · dsimp only; rw [(hsame v).2.1]; exact h.calls v hv
  · obtain ⟨hlt, hd, hc⟩ := h.holds v c hv
    exact ⟨hlt, (hsame c).2.2.1.trans hd, hchild v c (ne_idle hv) hc⟩
  · have hp := h.placed v
    change Placed _ ds zs v (s.pc v)
    cases hl : s.pc v with
    | reading c | destroying c =>
        rw [hl] at hp
        exact ⟨(hsame c).2.1.trans hp.1, hp.2⟩
    | leaving info => rw [hl] at hp; exact (hsame v).2.2.2.1.trans hp
    | found c | unlinking c | checking c | watching c => rw [hl] at hp; exact hp
    | _ => trivial
  · obtain ⟨c, hpid, hin, hc⟩ := h.own v pid nohang hv
    exact ⟨c, (hsame c).1.trans hpid, hin,
      hchild v c (by rw [show s.pc v = _ from hv]; exact WaitPc.noConfusion) hc⟩

/-- A process that is in no system call afterwards changes, and it alone may change its place; one that
is or will be a zombie stays in the run queue, with the daemons or with the zombies. -/
theorem change {t : Task} (h : WaitInv s ds zs xs)
    (hobjs : s'.objs = Function.update s.objs o t) (hfresh : s'.fresh = s.fresh)
    (hpc : s'.pc = Function.update s.pc o .idle)
    (hsame : t.pid = (s.objs o).pid ∧ t.ppid = (s.objs o).ppid ∧
      t.destroyed = (s.objs o).destroyed ∧ (t.Unwaited ↔ (s.objs o).Unwaited))
    (hlive : InLists s ds zs xs o)
    (hstatus : (s.objs o).status = .active ∨ (s.objs o).status = .daemon)
    (hds : Chain s'.next s'.daemons ds') (hzs : Chain s'.next s'.zombies zs' ∧ zs'.Nodup)
    (hxs : Chain s'.next s'.dead xs' ∧ xs'.Nodup) (hrq : s'.runqueue.Nodup)
    (hstay : ∀ c, c ≠ o → (c ∈ s'.runqueue ↔ c ∈ s.runqueue) ∧ (c ∈ ds' ↔ c ∈ ds) ∧
      (c ∈ zs' ↔ c ∈ zs) ∧ (c ∈ xs' ↔ c ∈ xs))
    (hr : o ∈ s'.runqueue → t.status = .active ∨ t.status = .daemon)
    (hd : o ∈ ds' ↔ t.status = .daemon ∨ t.status = .active ∧ t.handlingIrq = true)
    (hz : o ∈ zs' → t.status = .zombie ∧ ¬ t.Unwaited)
    (hx : o ∈ xs' → t.status = .destruct ∧ t.Unwaited)
    (hin : ¬ t.Unwaited → o ∈ s'.runqueue ∨ o ∈ ds' ∨ o ∈ zs') : WaitInv s' ds' zs' xs' := by
  obtain ⟨hpid, hppid, hdestroyed, hun⟩ := hsame
  obtain ⟨hlt, hd₀⟩ := h.addr o hlive
  have hoz := (h.not_rotten hstatus).1
  have hself : s'.objs o = t := by rw [hobjs, Function.update_self]
  have hother : ∀ c, c ≠ o → s'.objs c = s.objs c := fun c hc => by
    rw [hobjs, Function.update_of_ne hc]
  -- what the others read of `o` has not changed
  have hread : ∀ c, (s'.objs c).pid = (s.objs c).pid ∧ (s'.objs c).ppid = (s.objs c).ppid ∧
      (s'.objs c).destroyed = (s.objs c).destroyed ∧
      ((s'.objs c).Unwaited ↔ (s.objs c).Unwaited) := fun c => by
    by_cases hc : c = o
    · subst hc
      rw [hself]
      exact ⟨hpid, hppid, hdestroyed, hun⟩
    · rw [hother c hc]
      exact ⟨rfl, rfl, rfl, Iff.rfl⟩
  have hchild : ∀ v c, ChildOf s v c → ChildOf s' v c := fun v c hc =>
    ⟨(hread c).2.1.trans (hc.1.trans (hread v).1.symm), fun hu => hc.2 ((hread c).2.2.2.mp hu)⟩
  -- where a child is that is or will be a zombie
  have hmoves : ∀ c, ¬ (s.objs c).Unwaited → c ∈ s.runqueue ∨ c ∈ ds ∨ c ∈ zs →
      c ∈ s'.runqueue ∨ c ∈ ds' ∨ c ∈ zs' := fun c hu hc => by
    by_cases hco : c = o
    · subst hco
      exact hin fun hu' => hu (hun.mp hu')
    · obtain ⟨hr, hd, hz, -⟩ := hstay c hco
      rwa [hr, hd, hz]
  have hcall : ∀ v, s'.pc v ≠ .idle → v ≠ o ∧ s'.pc v = s.pc v := fun v hv => by
    rw [hpc] at hv ⊢
    by_cases hvo : v = o
    · subst hvo
      exact absurd (Function.update_self ..) hv
    · exact ⟨hvo, Function.update_of_ne hvo ..⟩
  refine
    { daemons := hds, zombies := hzs.1, dead := hxs.1
      addr := fun c hc => ?_, runs := fun c hc => ?_, serves := fun c => ?_, rots := fun c hc => ?_
      ends := fun c hc => ?_, runqueueNodup := hrq, zombiesNodup := hzs.2, deadNodup := hxs.2
      unborn := fun c hc => ?_, pids := fun c d hc hc' hd hd' heq => ?_
      once := fun c => ?_, calls := fun v hv => ?_, holds := fun v c hv => ?_
      placed := fun v => ?_, own := fun v pid nohang hv => ?_ }
  · rw [hfresh, (hread c).2.2.1]
    by_cases hco : c = o
    · subst hco; exact ⟨hlt, hd₀⟩
    · obtain ⟨hr, hd, hz, hx⟩ := hstay c hco
      rw [InLists, hr, hd, hz, hx] at hc
      exact h.addr c hc
  · by_cases hco : c = o
    · subst hco; rw [hself]; exact hr hc
    · rw [hother c hco]; exact h.runs c ((hstay c hco).1.mp hc)
  · by_cases hco : c = o
    · subst hco; rw [hself]; exact hd
    · rw [hother c hco]; exact (hstay c hco).2.1.trans (h.serves c)
  · by_cases hco : c = o
    · subst hco; rw [hself]; exact hz hc
    · rw [hother c hco]; exact h.rots c ((hstay c hco).2.2.1.mp hc)
  · by_cases hco : c = o
    · subst hco; rw [hself]; exact hx hc
    · rw [hother c hco]; exact h.ends c ((hstay c hco).2.2.2.mp hc)
  · rw [(hread c).2.2.1]; exact h.unborn c (hfresh ▸ hc)
  · rw [(hread c).2.2.1] at hd
    rw [(hread d).2.2.1] at hd'
    rw [(hread c).1, (hread d).1] at heq
    exact h.pids c d (hfresh ▸ hc) (hfresh ▸ hc') hd hd' heq
  · rw [(hread c).2.2.1]; exact h.once c
  · obtain ⟨hvo, hsame⟩ := hcall v hv
    rw [hother v hvo, (hstay v hvo).1]
    exact h.calls v (hsame ▸ hv)
  · obtain ⟨-, hsame⟩ := hcall v (ne_idle hv)
    obtain ⟨hlt, hd, hc⟩ := h.holds v c (hsame ▸ hv)
    exact ⟨hfresh ▸ hlt, (hread c).2.2.1.trans hd, hchild v c hc⟩
  · by_cases hidle : s'.pc v = .idle
    · rw [hidle]
      trivial
    obtain ⟨hvo, hsame⟩ := hcall v hidle
    have hp := h.placed v
    have hheld := h.holds v
    rw [hsame]
    cases hl : s.pc v with
    | found c | unlinking c =>
        rw [hl] at hp
        exact (hstay c fun heq => hoz (heq ▸ hp)).2.2.1.mpr hp
    | checking c | watching c =>
        rw [hl] at hp hheld
        exact hmoves c (hheld c rfl).2.2.2 hp
    | reading c | destroying c =>
        rw [hl] at hp
        have hrotten : (s.objs c).status = .zombie := hp.1
        have hco : c ≠ o := fun heq => by
          rw [heq] at hrotten
          rcases hstatus with hst | hst <;> rw [hst] at hrotten <;> cases hrotten
        exact ⟨by rw [hother c hco]; exact hrotten, fun hm => hp.2 ((hstay c hco).2.2.1.mp hm)⟩
    | leaving info =>
        rw [hl] at hp
        dsimp only [Placed]
        rw [hother v hvo]
        exact hp
    | _ => trivial
  · obtain ⟨-, hsame⟩ := hcall v (by rw [hv]; exact WaitPc.noConfusion)
    obtain ⟨c, hpid, hin, hc⟩ := h.own v pid nohang (hsame ▸ hv)
    exact ⟨c, (hread c).1.trans hpid, hmoves c hc.2 hin, hchild v c hc⟩

/-- What linking `o` anew does to the lists it is not in. -/
theorem apart {head t : Option Nat} {l : List Nat} (hc : Chain s.next head l) (ho : o ∉ l) :
    Chain (Function.update s.next o t) head l :=
  hc.congr fun _ hb => Function.update_of_ne (ne_of_mem_of_not_mem hb ho) ..

/-- A process that exits leaves the run queue; if somebody may wait for it, it is a zombie then. -/
theorem leave {info : Nat} (h : WaitInv s ds zs xs) (hpc : s.pc o = .leaving info) :
    ∃ zs' xs', WaitInv (s.leave o info) ds zs' xs' := by
  obtain ⟨ho, hact⟩ := h.calls o (by rw [hpc]; exact WaitPc.noConfusion)
  have hhandler := h.placed o
  rw [hpc] at hhandler
  have hd := h.not_daemon hact hhandler
  obtain ⟨hz, hx⟩ := h.not_rotten (.inl hact)
  have hrun : ∀ c, c ≠ o → (c ∈ s.runqueue.erase o ↔ c ∈ s.runqueue) := fun c hc =>
    List.mem_erase_of_ne hc
  have hgone : o ∉ s.runqueue.erase o := h.runqueueNodup.not_mem_erase
  rw [Tasks.leave]
  dsimp only
  split
  · rename_i hun
    exact ⟨zs, o :: xs, h.change (t := { s.objs o with status := .destruct }) rfl rfl rfl
      ⟨rfl, rfl, rfl, Iff.rfl⟩ (.inl ho) (.inl hact) (apart h.daemons hd)
      ⟨apart h.zombies hz, h.zombiesNodup⟩ ⟨h.dead.push hx, List.nodup_cons.mpr ⟨hx, h.deadNodup⟩⟩
      (h.runqueueNodup.erase o) (fun c hc => ⟨hrun c hc, Iff.rfl, Iff.rfl, by simp [hc]⟩)
      (fun hm => absurd hm hgone) (iff_of_false hd (by simp)) (fun hm => absurd hm hz)
      (fun _ => ⟨rfl, hun⟩) fun hnot => absurd hun hnot⟩
  · rename_i hun
    exact ⟨o :: zs, xs, h.change
      (t := { s.objs o with exitInfo := info, status := .zombie, handledIrq := false }) rfl rfl rfl
      ⟨rfl, rfl, rfl, Iff.rfl⟩ (.inl ho) (.inl hact) (apart h.daemons hd)
      ⟨h.zombies.push hz, List.nodup_cons.mpr ⟨hz, h.zombiesNodup⟩⟩ ⟨apart h.dead hx, h.deadNodup⟩
      (h.runqueueNodup.erase o) (fun c hc => ⟨hrun c hc, Iff.rfl, by simp [hc], Iff.rfl⟩)
      (fun hm => absurd hm hgone) (iff_of_false hd (by simp)) (fun _ => ⟨rfl, hun⟩)
      (fun hm => absurd hm hx) fun _ => .inr (.inr List.mem_cons_self)⟩

/-- A process becomes a daemon; one that handles an IRQ stays in the run queue. -/
theorem daemonize (h : WaitInv s ds zs xs) (hrun : s.Running o)
    (hhandler : (s.objs o).handlingIrq = false) :
    WaitInv (s.daemonizeProcess o) (o :: ds) zs xs := by
  obtain ⟨ho, hact, hidle⟩ := hrun
  have hd := h.not_daemon hact hhandler
  obtain ⟨hz, hx⟩ := h.not_rotten (.inl hact)
  have hpc : s.pc = Function.update s.pc o .idle := by rw [← hidle, Function.update_eq_self]
  refine h.change (t := { s.objs o with status := .daemon }) rfl rfl hpc ⟨rfl, rfl, rfl, Iff.rfl⟩
    (.inl ho) (.inl hact) (h.daemons.push hd) ⟨apart h.zombies hz, h.zombiesNodup⟩
    ⟨apart h.dead hx, h.deadNodup⟩ ?_ (fun c hc => ⟨?_, by simp [hc], Iff.rfl, Iff.rfl⟩)
    (fun _ => .inr rfl) (by simp) (fun hm => absurd hm hz) (fun hm => absurd hm hx)
    fun _ => .inr (.inl List.mem_cons_self)
  · dsimp only [Tasks.daemonizeProcess]
    split
    · exact h.runqueueNodup
    · exact h.runqueueNodup.erase o
  · dsimp only [Tasks.daemonizeProcess]
    split
    · exact Iff.rfl
    · exact List.mem_erase_of_ne hc

/-- A process changes, and stays where it is. -/
theorem relabel {t : Task} (h : WaitInv s ds zs xs) (hidle : s.pc o = .idle)
    (hlive : InLists s ds zs xs o)
    (hstatus : (s.objs o).status = .active ∨ (s.objs o).status = .daemon)
    (hsame : t.pid = (s.objs o).pid ∧ t.ppid = (s.objs o).ppid ∧
      t.destroyed = (s.objs o).destroyed ∧ (t.Unwaited ↔ (s.objs o).Unwaited))
    (hr : t.status = .active ∨ t.status = .daemon)
    (hd : o ∈ ds ↔ t.status = .daemon ∨ t.status = .active ∧ t.handlingIrq = true) :
    WaitInv (s.setObj o t) ds zs xs := by
  obtain ⟨hz, hx⟩ := h.not_rotten hstatus
  have hpc : s.pc = Function.update s.pc o .idle := by rw [← hidle, Function.update_eq_self]
  exact h.change rfl rfl hpc hsame hlive hstatus h.daemons ⟨h.zombies, h.zombiesNodup⟩
    ⟨h.dead, h.deadNodup⟩ h.runqueueNodup (fun _ _ => ⟨Iff.rfl, Iff.rfl, Iff.rfl, Iff.rfl⟩)
    (fun _ => hr) hd (fun hm => absurd hm hz) (fun hm => absurd hm hx)
    fun _ => hlive.imp_right fun hm => hm.imp_right fun hm => hm.resolve_right hx

/-- A waiter takes its child from the zombies; nobody else has its address. -/
theorem unlink (h : WaitInv s ds zs xs) (hpc : s.pc w = .unlinking o)
    (hs : s.advance w = some s') : WaitInv s' ds (zs.erase o) xs := by
  have hchild : (s.pc w).child = some o := by rw [hpc]; rfl
  have hz : o ∈ zs := by
    have hp := h.placed w
    rw [hpc] at hp
    exact hp
  have hlen : zs.length ≤ s.fresh := by
    have hsub : zs ⊆ List.range s.fresh := fun q hq =>
      List.mem_range.mpr (h.addr q (.inr (.inr (.inl hq)))).1
    simpa using (List.Nodup.subperm h.zombiesNodup hsub).length_le
  obtain ⟨next, head, hun, hchain, hkeep⟩ := h.zombies.unlink h.zombiesNodup hz hlen
  simp only [Tasks.advance, hpc, hun, Option.map_some, Option.some.injEq] at hs
  subst hs
  have hmem : ∀ c, c ∈ zs.erase o ↔ c ≠ o ∧ c ∈ zs := fun c => h.zombiesNodup.mem_erase_iff
  have hsole : ∀ v, v ≠ w → (s.pc v).child ≠ some o := fun v hv hc => hv (h.sole hc hchild)
  have hpc' : ∀ v, v ≠ w → Function.update s.pc w (.reading o) v = s.pc v := fun v hv =>
    Function.update_of_ne hv ..
  refine
    { h with
      daemons := h.daemons.congr fun c hc => hkeep c fun hcz => ?_, zombies := hchain
      dead := h.dead.congr fun c hc => hkeep c fun hcz => ?_
      addr := fun c hc => ?_, rots := fun c hc => h.rots c ((hmem c).mp hc).2
      zombiesNodup := h.zombiesNodup.erase o
      calls := fun v hv => ?_, holds := fun v c hv => ?_, placed := fun v => ?_
      own := fun v pid nohang hv => ?_ }
  · have hrot := (h.rots c hcz).1
    rcases (h.serves c).mp hc with hst | ⟨hst, -⟩ <;> rw [hrot] at hst <;> cases hst
  · have hrot := (h.rots c hcz).1
    rw [(h.ends c hc).1] at hrot
    cases hrot
  · exact h.addr c (hc.imp_right (Or.imp_right (Or.imp_left fun hc => ((hmem c).mp hc).2)))
  · by_cases hvw : v = w
    · exact h.calls v (by rw [hvw, hpc]; exact WaitPc.noConfusion)
    · exact h.calls v (hpc' v hvw ▸ hv)
  · by_cases hvw : v = w
    · subst hvw
      simp only [Tasks.goto, Function.update_self] at hv
      exact h.holds v c (hchild.trans hv)
    · exact h.holds v c (hpc' v hvw ▸ hv)
  · by_cases hvw : v = w
    · subst hvw
      simp only [Tasks.goto, Function.update_self]
      exact ⟨(h.rots o hz).1, fun hm => ((hmem o).mp hm).1 rfl⟩
    · have hp := h.placed v
      have hother := hsole v hvw
      dsimp only [Tasks.goto]
      rw [hpc' v hvw]
      cases hl : s.pc v with
      | found c | unlinking c =>
          rw [hl] at hp hother
          exact (hmem c).mpr ⟨fun heq => hother (congrArg some heq), hp⟩
      | checking c | watching c =>
          rw [hl] at hp hother
          exact hp.imp_right (Or.imp_right fun hc =>
            (hmem c).mpr ⟨fun heq => hother (congrArg some heq), hc⟩)
      | reading c | destroying c =>
          rw [hl] at hp
          exact ⟨hp.1, fun hm => hp.2 ((hmem c).mp hm).2⟩
      | leaving info => rw [hl] at hp; exact hp
      | _ => trivial
  · by_cases hvw : v = w
    · subst hvw
      simp only [Tasks.goto, Function.update_self] at hv
      cases hv
    · have hlook : s.pc v = .lookup pid false nohang := (hpc' v hvw).symm.trans hv
      obtain ⟨c, hpid, hin, hc⟩ := h.own v pid nohang hlook
      -- whose child it is waits for it, and so is not the one that looks it up
      have hco : c ≠ o := fun heq => by
        subst heq
        refine hvw (h.caller_eq (by rw [hlook]; exact WaitPc.noConfusion) (ne_idle hchild) ?_)
        exact hc.1.symm.trans (h.holds w c hchild).2.2.1
      exact ⟨c, hpid, hin.imp_right (Or.imp_right fun hm => (hmem c).mpr ⟨hco, hm⟩), hc⟩

/-- A structure that is in no list, and that nobody has the address of, is destroyed. -/
theorem destroy (h : WaitInv s ds zs xs) (hd : (s.objs o).destroyed = 0) (hlt : o < s.fresh)
    (hnot : ¬ InLists s ds zs xs o) (hheld : ∀ v, (s.pc v).child ≠ some o) :
    WaitInv (s.destroyProcessStruct o) ds zs xs := by
  have hobj : ∀ c, c ≠ o → (s.destroyProcessStruct o).objs c = s.objs c := fun c hc =>
    Function.update_of_ne hc ..
  have hself : (s.destroyProcessStruct o).objs o = { s.objs o with destroyed := 1 } := by
    simp [Tasks.destroyProcessStruct, Tasks.setObj, hd]
  have hne : ∀ c, InLists s ds zs xs c → c ≠ o := fun c hc heq => hnot (heq ▸ hc)
  have hcaller : ∀ v, s.pc v ≠ .idle → v ≠ o := fun v hv => hne v (.inl (h.calls v hv).1)
  have hchild : ∀ v c, s.pc v ≠ .idle → c ≠ o → ChildOf s v c →
      ChildOf (s.destroyProcessStruct o) v c := fun v c hv hc hch => by
    rw [ChildOf, hobj c hc, hobj v (hcaller v hv)]
    exact hch
  refine
    { daemons := h.daemons, zombies := h.zombies, dead := h.dead
      addr := fun c hc => ?_, runs := fun c hc => ?_, serves := fun c => ?_, rots := fun c hc => ?_
      ends := fun c hc => ?_, runqueueNodup := h.runqueueNodup, zombiesNodup := h.zombiesNodup
      deadNodup := h.deadNodup, unborn := fun c hc => ?_, pids := fun c d hc hc' hd hd' heq => ?_
      once := fun c => ?_, calls := fun v hv => ?_, holds := fun v c hv => ?_
      placed := fun v => ?_, own := fun v pid nohang hv => ?_ }
  · rw [hobj c (hne c hc)]
    exact h.addr c hc
  · rw [hobj c (hne c (.inl hc))]; exact h.runs c hc
  · by_cases hco : c = o
    · subst hco; rw [hself]; exact h.serves c
    · rw [hobj c hco]; exact h.serves c
  · rw [hobj c (hne c (.inr (.inr (.inl hc))))]; exact h.rots c hc
  · rw [hobj c (hne c (.inr (.inr (.inr hc))))]; exact h.ends c hc
  · rw [hobj c fun heq => by subst heq; exact absurd hc (Nat.not_le.mpr hlt)]
    exact h.unborn c hc
  · have hco : c ≠ o := fun heq => by subst heq; rw [hself] at hd; cases hd
    have hdo : d ≠ o := fun heq => by subst heq; rw [hself] at hd'; cases hd'
    rw [hobj c hco] at hd heq
    rw [hobj d hdo] at hd' heq
    exact h.pids c d hc hc' hd hd' heq
  · by_cases hco : c = o
    · subst hco; simp only [hself, Nat.le_refl]
    · rw [hobj c hco]; exact h.once c
  · rw [hobj v (hcaller v hv)]
    exact h.calls v hv
  · have hco : c ≠ o := fun heq => hheld v (heq ▸ hv)
    obtain ⟨hclt, hcd, hch⟩ := h.holds v c hv
    exact ⟨hclt, by rw [hobj c hco]; exact hcd, hchild v c (ne_idle hv) hco hch⟩
  · have hp := h.placed v
    have hother := hheld v
    change Placed _ ds zs v (s.pc v)
    cases hl : s.pc v with
    | reading c | destroying c =>
        rw [hl] at hp hother
        exact ⟨by rw [hobj c fun heq => hother (congrArg some heq)]; exact hp.1, hp.2⟩
    | found c | unlinking c | checking c | watching c => rw [hl] at hp; exact hp
    | leaving info =>
        rw [hl] at hp
        dsimp only [Placed]
        rw [hobj v (hcaller v (by rw [hl]; exact WaitPc.noConfusion))]
        exact hp
    | _ => trivial
  · obtain ⟨c, hpid, hin, hc⟩ := h.own v pid nohang hv
    have hco : c ≠ o := hne c (hin.imp_right (Or.imp_right .inl))
    have hvi : s.pc v ≠ .idle := by
      rw [show s.pc v = _ from hv]
      exact WaitPc.noConfusion
    exact ⟨c, by rw [hobj c hco]; exact hpid, hin, hchild v c hvi hco hc⟩

/-- The waiter destroys what it waited for. -/
theorem reap (h : WaitInv s ds zs xs) (hpc : s.pc w = .destroying o) :
    WaitInv ((s.destroyProcessStruct o).goto w .idle) ds zs xs := by
  have hchild : (s.pc w).child = some o := by rw [hpc]; rfl
  obtain ⟨hlt, hd, -⟩ := h.holds w o hchild
  have hp : (s.objs o).status = .zombie ∧ o ∉ zs := by
    have hp := h.placed w
    rw [hpc] at hp
    exact hp
  refine (h.idle w).destroy (o := o) hd hlt (fun hm => ?_) fun v hv => ?_
  · rcases hm with hm | hm | hm | hm
    · rcases h.runs o hm with hst | hst <;> rw [hp.1] at hst <;> cases hst
    · rcases (h.serves o).mp hm with hst | ⟨hst, -⟩ <;> rw [hp.1] at hst <;> cases hst
    · exact hp.2 hm
    · have hst := (h.ends o hm).1
      rw [hp.1] at hst
      cases hst
  · simp only [Tasks.goto] at hv
    by_cases hvw : v = w
    · subst hvw
      rw [Function.update_self] at hv
      cases hv
    · rw [Function.update_of_ne hvw] at hv
      exact hvw (h.sole hv hchild)

/-- The reaper destroys the first of the dead. -/
theorem sweep {rest : List Nat} (h : WaitInv s ds zs (o :: rest)) :
    WaitInv { s.destroyProcessStruct o with dead := s.next o } ds zs rest := by
  obtain ⟨hrest, hnd⟩ := List.nodup_cons.mp h.deadNodup
  obtain ⟨hlt, hd⟩ := h.addr o (.inr (.inr (.inr List.mem_cons_self)))
  obtain ⟨hst, hun⟩ := h.ends o List.mem_cons_self
  have hless : WaitInv { s with dead := s.next o } ds zs rest :=
    { h with
      dead := h.dead.tail
      addr := fun c hc =>
        h.addr c (hc.imp_right (Or.imp_right (Or.imp_right (List.mem_cons_of_mem _))))
      ends := fun c hc => h.ends c (List.mem_cons_of_mem _ hc), deadNodup := hnd
      placed := fun v => by
        have hp := h.placed v
        change Placed _ ds zs v (s.pc v)
        cases hl : s.pc v <;> rw [hl] at hp <;> exact hp }
  refine hless.destroy (o := o) hd hlt (fun hm => ?_) fun v hv => (h.holds v o hv).2.2.2 hun
  rcases hm with hm | hm | hm | hm
  · rcases h.runs o hm with hst' | hst' <;> rw [hst] at hst' <;> cases hst'
  · rcases (h.serves o).mp hm with hst' | ⟨hst', -⟩ <;> rw [hst] at hst' <;> cases hst'
  · rw [(h.rots o hm).1] at hst
    cases hst
  · exact hrest hm

/-- One step of a process in its system call. -/
theorem advance (h : WaitInv s ds zs xs) (hok : WaitStepOk s (.advance w))
    (hs : s.advance w = some s') : ∃ zs' xs', WaitInv s' ds zs' xs' := by
  have hp := h.placed w
  have hheld := h.holds w
  have hrun : s.pc w ≠ .idle → w ∈ s.runqueue ∧ (s.objs w).status = .active := h.calls w
  cases hpc : s.pc w with
  | idle => simp [Tasks.advance, hpc] at hs
  | scanning nohang =>
      have hw := hrun (by rw [hpc]; exact WaitPc.noConfusion)
      simp only [Tasks.advance, hpc] at hs
      obtain ⟨r, hr, rfl⟩ := Option.map_eq_some_iff.mp hs
      cases r with
      | some o =>
          have hfind := h.zombies.findIn_eq hr
          have hz : o ∈ zs := List.mem_of_find?_eq_some hfind.symm
          obtain ⟨hlt, hd⟩ := h.addr o (.inr (.inr (.inl hz)))
          have hpp : (s.objs o).ppid = (s.objs w).pid := by simpa using List.find?_some hfind.symm
          exact ⟨zs, xs, h.goto (fun _ => hw)
            (fun c hc => by cases hc; exact ⟨hlt, hd, hpp, (h.rots o hz).2⟩) hz
            fun pid n hl => by cases hl⟩
      | none =>
          refine ⟨zs, xs, ?_⟩
          dsimp only
          split
          · exact h.idle w
          · exact h
  | found o nohang =>
      have hw := hrun (by rw [hpc]; exact WaitPc.noConfusion)
      simp only [Tasks.advance, hpc, Option.some.injEq] at hs
      subst hs
      rw [hpc] at hp hheld
      refine ⟨zs, xs, h.goto (fun _ => hw) (fun c hc => by cases hc) trivial fun pid n hl => ?_⟩
      cases hl
      exact ⟨o, rfl, .inr (.inr hp), (hheld o rfl).2.2⟩
  | lookup pid given nohang =>
      have hw := hrun (by rw [hpc]; exact WaitPc.noConfusion)
      simp only [Tasks.advance, hpc] at hs
      obtain ⟨r, hfind, rfl⟩ := Option.map_eq_some_iff.mp hs
      cases r with
      | some o =>
          obtain ⟨hin, hpid⟩ := h.findWaited_some hfind
          obtain ⟨hlt, hd⟩ := h.addr o (hin.imp_right (Or.imp_right .inl))
          have hchild : ChildOf s w o := by
            cases given with
            | true => exact hok pid nohang o hpc hfind
            | false =>
                -- the process that was meant is still there, and has the PID alone
                obtain ⟨o', hpid', hin', hc'⟩ := h.own w pid nohang hpc
                obtain ⟨hlt', hd'⟩ := h.addr o' (hin'.imp_right (Or.imp_right .inl))
                obtain rfl := h.pids o' o hlt' hlt hd' hd (hpid'.trans hpid.symm)
                exact hc'
          exact ⟨zs, xs, h.goto (fun _ => hw) (fun c hc => by cases hc; exact ⟨hlt, hd, hchild⟩) hin
            fun pid n hl => by cases hl⟩
      | none => exact ⟨zs, xs, h.idle w⟩
  | checking o nohang =>
      have hw := hrun (by rw [hpc]; exact WaitPc.noConfusion)
      simp only [Tasks.advance, hpc] at hs
      rw [hpc] at hp hheld
      split at hs
      · cases hs
        exact ⟨zs, xs, h.idle w⟩
      · cases hs
        exact ⟨zs, xs, h.goto (fun _ => hw) hheld hp fun pid n hl => by cases hl⟩
  | watching o =>
      have hw := hrun (by rw [hpc]; exact WaitPc.noConfusion)
      simp only [Tasks.advance, hpc] at hs
      rw [hpc] at hp hheld
      split at hs
      · cases hs
        exact ⟨zs, xs, h⟩
      · rename_i hz
        cases hs
        have hz : (s.objs o).status = .zombie := not_not.mp hz
        refine ⟨zs, xs, h.goto (fun _ => hw) hheld ?_ fun pid n hl => by cases hl⟩
        rcases hp with hr | hd | hin
        · rcases h.runs o hr with hst | hst <;> rw [hz] at hst <;> cases hst
        · rcases (h.serves o).mp hd with hst | ⟨hst, -⟩ <;> rw [hz] at hst <;> cases hst
        · exact hin
  | unlinking o => exact ⟨_, _, h.unlink hpc hs⟩
  | reading o =>
      have hw := hrun (by rw [hpc]; exact WaitPc.noConfusion)
      simp only [Tasks.advance, hpc, Option.some.injEq] at hs
      subst hs
      rw [hpc] at hp hheld
      exact ⟨zs, xs, h.goto (fun _ => hw) hheld hp fun pid n hl => by cases hl⟩
  | destroying o =>
      simp only [Tasks.advance, hpc, Option.some.injEq] at hs
      exact ⟨zs, xs, hs ▸ h.reap hpc⟩
  | leaving info =>
      simp only [Tasks.advance, hpc, Option.some.injEq] at hs
      exact hs ▸ h.leave hpc

/-- Every step keeps the invariant. -/
theorem step (h : WaitInv s ds zs xs) (hok : WaitStepOk s a) (hs : taskStep s a = some s') :
    ∃ ds' zs' xs', WaitInv s' ds' zs' xs' := by
  cases a with
  | spawn pid ppid popup zombify => exact ⟨ds, zs, xs, h.spawn hs⟩
  | wait w pid nohang =>
      simp only [taskStep, Option.ite_none_right_eq_some, Option.some.injEq] at hs
      obtain ⟨⟨hw, hact, -⟩, rfl⟩ := hs
      exact ⟨ds, zs, xs, h.goto (fun _ => ⟨hw, hact⟩) (fun c hc => by cases hc) trivial
        fun pid n hl => by cases hl⟩
  | waitAny w nohang =>
      simp only [taskStep, Option.ite_none_right_eq_some, Option.some.injEq] at hs
      obtain ⟨⟨hw, hact, -⟩, rfl⟩ := hs
      exact ⟨ds, zs, xs, h.goto (fun _ => ⟨hw, hact⟩) (fun c hc => by cases hc) trivial
        fun pid n hl => by cases hl⟩
  | ipcPopup w pid =>
      simp only [taskStep, Option.ite_none_right_eq_some, Option.map_eq_some_iff] at hs
      obtain ⟨⟨hw, hact, -⟩, s₁, hs₁, rfl⟩ := hs
      have hne : w ≠ s.fresh := Nat.ne_of_lt (h.addr w (.inl hw)).1
      have h₁ := h.spawn hs₁
      simp only [Tasks.spawn, Option.ite_none_left_eq_some, Option.some.injEq] at hs₁
      obtain ⟨-, rfl⟩ := hs₁
      refine ⟨ds, zs, xs, h₁.goto (fun _ => ⟨List.mem_cons_of_mem _ hw, ?_⟩)
        (fun c hc => by cases hc) trivial fun pid n hl => ?_⟩
      · simp only [Tasks.setObj, Function.update_of_ne hne, hact]
      · cases hl
        refine ⟨s.fresh, ?_, .inl List.mem_cons_self, ?_, ?_⟩
        · simp [Tasks.setObj, Tasks.newTask]
        · simp [Tasks.setObj, Tasks.newTask, Function.update_of_ne hne]
        · simp [Tasks.setObj, Tasks.newTask, Task.Unwaited]
  | exit o info =>
      simp only [taskStep, Option.ite_none_right_eq_some, Option.map_eq_some_iff] at hs
      obtain ⟨⟨ho, hact, hidle⟩, s₁, hs₁, rfl⟩ := hs
      obtain ⟨h₁, hrun, hstatus, hhandler⟩ := h.adopt ho hidle hs₁
      exact ⟨ds, zs, xs, h₁.goto (fun _ => ⟨hrun ▸ ho, hstatus.trans hact⟩)
        (fun c hc => by cases hc) (hhandler.trans hok) fun pid n hl => by cases hl⟩
  | advance w =>
      obtain ⟨zs', xs', h'⟩ := h.advance hok hs
      exact ⟨ds, zs', xs', h'⟩
  | sweep =>
      obtain ⟨o, ho, rfl⟩ := Option.map_eq_some_iff.mp hs
      cases xs with
      | nil =>
          have hdead := h.dead
          rw [ho] at hdead
          cases hdead
      | cons q rest =>
          obtain rfl := Option.some.inj (ho.symm.trans h.dead.head_eq)
          exact ⟨ds, zs, rest, h.sweep⟩
  | handleIrq o =>
      simp only [taskStep, Option.ite_none_right_eq_some, Option.some.injEq] at hs
      obtain ⟨⟨⟨ho, hact, hidle⟩, -, -⟩, rfl⟩ := hs
      exact ⟨ds, zs, xs, h.relabel hidle (.inl ho) (.inl hact) ⟨rfl, rfl, rfl, Iff.rfl⟩ (.inl hact)
        (h.serves o)⟩
  | daemonize o =>
      simp only [taskStep, Option.ite_none_right_eq_some, Option.some.injEq] at hs
      obtain ⟨⟨hrun, -⟩, rfl⟩ := hs
      exact ⟨o :: ds, zs, xs, h.daemonize hrun hok⟩
  | irq o =>
      simp only [taskStep, Option.ite_none_right_eq_some, Option.some.injEq] at hs
      obtain ⟨⟨hd, -⟩, rfl⟩ := hs
      have hmem : o ∈ ds := (h.serves o).mpr (.inl hd)
      have hidle : s.pc o = .idle := by
        by_contra hne
        have hact := (h.calls o hne).2
        rw [hd] at hact
        cases hact
      exact ⟨ds, zs, xs, h.relabel hidle (.inr (.inl hmem)) (.inr hd) ⟨rfl, rfl, rfl, Iff.rfl⟩
        (.inl rfl) (iff_of_true hmem (.inr ⟨rfl, rfl⟩))⟩
  | irqHandlerExit o =>
      simp only [taskStep, Option.ite_none_right_eq_some, Option.some.injEq] at hs
      obtain ⟨⟨⟨ho, hact, hidle⟩, hhandler, -⟩, rfl⟩ := hs
      have hmem : o ∈ ds := (h.serves o).mpr (.inr ⟨hact, hhandler⟩)
      exact ⟨ds, zs, xs, h.relabel hidle (.inl ho) (.inl hact) ⟨rfl, rfl, rfl, Iff.rfl⟩ (.inr rfl)
        (iff_of_true hmem (.inl rfl))⟩

end WaitInv

/-- **Processes are reaped once, by their parent**: if an explicit `SYS_WAIT` only finds a child of
its caller that becomes a zombie, and nobody exits or becomes a daemon in an IRQ handler, then whatever
waits and exits, no structure is destroyed twice or used after that, and only the parent reads the exit
information. -/
theorem reaped_once {as : List TaskAct} (h : Run taskStep WaitStepOk .init as s) :
    ReapedOnce s := by
  obtain ⟨ds, zs, xs, hinv⟩ := h.invariant (I := fun s => ∃ ds zs xs, WaitInv s ds zs xs)
    (fun _ _ _ ⟨_, _, _, hi⟩ hok hs => hi.step hok hs) ⟨[], [], [], waitInv_init⟩
  exact
    { once := hinv.once
      held := fun w o hw => (hinv.holds w o hw).2.1
      listed := ⟨ds, zs, xs, hinv.daemons, hinv.zombies, hinv.dead, fun o ho => (hinv.addr o ho).2⟩
      parent := fun w o hw => (hinv.holds w o (by rw [hw]; rfl)).2.2.1 }

/-- Process 3 handles an IRQ as a daemon.  Process 1 waits for its child 2, which exits meanwhile; then
it waits for it again, and a search of all lists finds nothing. -/
def parentAndDaemon : List TaskAct :=
  [.spawn 1 0 false false, .spawn 2 1 false false, .spawn 3 1 false false, .handleIrq 2, .daemonize 2,
    .irq 2, .wait 0 2 false, .advance 0, .exit 1 7, .advance 0, .irqHandlerExit 2, .advance 1,
    .advance 0, .advance 0, .advance 0, .advance 0, .wait 0 2 true, .advance 0]

theorem reaped_once_child : ∃ s, Run taskStep WaitStepOk .init parentAndDaemon s ∧ ReapedOnce s := by
  obtain ⟨s, hrun⟩ : ∃ s, Run taskStep WaitStepOk .init parentAndDaemon s := by
    refine ⟨_, .more trivial rfl (.more trivial rfl (.more trivial rfl (.more trivial rfl
      (.more rfl rfl (.more trivial rfl (.more trivial rfl (.more ?found rfl (.more rfl rfl
      (.more ?_ rfl (.more trivial rfl (.more ?_ rfl (.more ?_ rfl (.more ?_ rfl (.more ?_ rfl
      (.more ?_ rfl (.more trivial rfl (.one ?gone rfl)))))))))))))))))⟩
    case found =>
      rintro pid nohang o hpc hfind
      cases hpc
      cases hfind
      exact ⟨rfl, fun hu => by cases hu.1⟩
    case gone =>
      rintro pid nohang o hpc hfind
      cases hpc
      cases hfind
    all_goals
      rintro pid nohang o hpc
      cases hpc
  exact ⟨s, hrun, reaped_once hrun⟩

/-- Process 3 waits for process 2 as well, which is a child of process 1: it reads the exit
information, and process 1 still has the address of what it has destroyed. -/
theorem stranger_reaps : ∃ s s', Run taskStep anyStep .init
    [.spawn 1 0 false false, .spawn 2 1 false false, .spawn 3 0 false false, .wait 0 2 false,
      .advance 0, .wait 2 2 false, .advance 2, .exit 1 7, .advance 1, .advance 2, .advance 2,
      .advance 2] s ∧
    s.pc 2 = .reading 1 ∧ (s.objs 1).ppid ≠ (s.objs 2).pid ∧
    Run taskStep anyStep s [.advance 2, .advance 2] s' ∧
    (s'.pc 0).child = some 1 ∧ (s'.objs 1).destroyed = 1 :=
  ⟨_, _, .more trivial rfl (.more trivial rfl (.more trivial rfl (.more trivial rfl
    (.more trivial rfl (.more trivial rfl (.more trivial rfl (.more trivial rfl (.more trivial rfl
    (.more trivial rfl (.more trivial rfl (.one trivial rfl))))))))))), rfl, by decide,
    .more trivial rfl (.one trivial rfl), rfl, rfl⟩

end Muxomucota.Tasking
