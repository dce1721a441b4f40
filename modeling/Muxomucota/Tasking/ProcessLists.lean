import Mathlib.Data.List.Perm.Subperm
import Muxomucota.Lib.Linked
import Muxomucota.Lib.Runs

/-!
# Tasking — the lists of processes

`q_register_process`, `q_unregister_process` and their callers
(`kernel/common/tasking/management.c`): `daemonize_process`, `destroy_process`,
`destroy_this_popup_thread`, `raw_waitpid`, `sweep_dead_processes`.

The daemons, the zombies and the dead are lists over one link field, `next`; the run queue has a
field of its own and is left out.  A process that handles an IRQ stays in the run queue when it
becomes a daemon, and so runs, woken by `common_irq_handler`, while it is in the list of the daemons.
Then `SYS_DAEMONIZE` and `SYS_EXIT` link it anew without unlinking it.
-/

namespace Muxomucota.Tasking
open Lib

/-- `status`; `freed` after `destroy_process_struct`. -/
inductive ProcessStatus where
  | active
  | coma
  | zombie
  | daemon
  | destruct
  | freed
  deriving DecidableEq, Repr

/-- What decides about the lists: whether `handled_irq` is a line, `handling_irq`, whether it is a
popup thread, and `popup_zombify`. -/
structure ListedProcess where
  status : ProcessStatus
  handledIrq : Bool
  handlingIrq : Bool
  popup : Bool
  popupZombify : Bool
  deriving DecidableEq, Repr

structure ProcessLists where
  procs : Nat → ListedProcess
  /-- The next address `kcalloc` hands out. -/
  fresh : Nat
  next : Nat → Option Nat
  daemons : Option Nat
  zombies : Option Nat
  dead : Option Nat

namespace ProcessLists

/-- `kcalloc` -/
def newProcess (popup zombify : Bool) : ListedProcess :=
  { status := .coma, handledIrq := false, handlingIrq := false, popup, popupZombify := zombify }

def init : ProcessLists :=
  { procs := fun _ => newProcess false false, fresh := 0, next := fun _ => none, daemons := none,
    zombies := none, dead := none }

def setProc (s : ProcessLists) (p : Nat) (c : ListedProcess) : ProcessLists :=
  { s with procs := Function.update s.procs p c }

/-- `q_register_process(&daemons, proc)` -/
def registerDaemon (s : ProcessLists) (p : Nat) : ProcessLists :=
  { s with next := Function.update s.next p s.daemons, daemons := some p }

/-- `q_register_process(&zombies, proc)` -/
def registerZombie (s : ProcessLists) (p : Nat) : ProcessLists :=
  { s with next := Function.update s.next p s.zombies, zombies := some p }

/-- `q_register_process(&dead, proc)` -/
def registerDead (s : ProcessLists) (p : Nat) : ProcessLists :=
  { s with next := Function.update s.next p s.dead, dead := some p }

/-- `q_unregister_process(&zombies, proc)`; no loop over an intact list takes more steps. -/
def unregisterZombie (s : ProcessLists) (p : Nat) : Option ProcessLists :=
  (unlink s.next s.zombies p s.fresh).map fun r => { s with next := r.1, zombies := r.2 }

/-- `daemonize_process` -/
def daemonizeProcess (s : ProcessLists) (p : Nat) : ProcessLists :=
  (s.registerDaemon p).setProc p { s.procs p with status := .daemon }

/-- `destroy_process` -/
def destroyProcess (s : ProcessLists) (p : Nat) : ProcessLists :=
  (s.registerZombie p).setProc p { s.procs p with status := .zombie, handledIrq := false }

/-- `destroy_this_popup_thread` -/
def destroyThisPopupThread (s : ProcessLists) (p : Nat) : ProcessLists :=
  if (s.procs p).popupZombify then s.destroyProcess p
  else (s.registerDead p).setProc p { s.procs p with status := .destruct }

/-- The end of `raw_waitpid`. -/
def reap (s : ProcessLists) (p : Nat) : Option ProcessLists :=
  (s.unregisterZombie p).map fun s => s.setProc p { s.procs p with status := .freed }

/-- One round of `sweep_dead_processes`. -/
def sweep (s : ProcessLists) : Option ProcessLists :=
  s.dead.map fun p => { s.setProc p { s.procs p with status := .freed } with dead := s.next p }

end ProcessLists

/-- What can happen next. -/
inductive ListAct where
  | create (popup zombify : Bool)
  | runProcess (p : Nat)
  | handleIrq (p : Nat)
  | daemonize (p : Nat)
  | irq (p : Nat)
  | irqHandlerExit (p : Nat)
  | exit (p : Nat)
  | reap (p : Nat)
  | sweep
  deriving DecidableEq, Repr

/-- One step: a process that makes a system call is active, and an assertion that fails stops the
machine.  `irq p` is what `common_irq_handler` does for `p` when its line interrupts. -/
def listStep (s : ProcessLists) : ListAct → Option ProcessLists
  | .create popup zombify =>
      some { s.setProc s.fresh (ProcessLists.newProcess popup zombify) with
        fresh := s.fresh + 1, next := Function.update s.next s.fresh none }
  | .runProcess p =>
      if p < s.fresh ∧ (s.procs p).status = .coma then
        some (s.setProc p { s.procs p with status := .active })
      else none
  | .handleIrq p =>
      if (s.procs p).status = .active ∧ (s.procs p).popup = false ∧
          (s.procs p).handledIrq = false then
        some (s.setProc p { s.procs p with handledIrq := true })
      else none
  | .daemonize p =>
      if (s.procs p).status = .active ∧ (s.procs p).popup = false then
        some (s.daemonizeProcess p)
      else none
  | .irq p =>
      if (s.procs p).status = .daemon ∧ (s.procs p).handledIrq = true then
        some (s.setProc p { s.procs p with status := .active, handlingIrq := true })
      else none
  | .irqHandlerExit p =>
      if (s.procs p).status = .active ∧ (s.procs p).handlingIrq = true ∧
          (s.procs p).handledIrq = true then
        some (s.setProc p { s.procs p with status := .daemon, handlingIrq := false })
      else none
  | .exit p =>
      if (s.procs p).status = .active then
        some (if (s.procs p).popup then s.destroyThisPopupThread p else s.destroyProcess p)
      else none
  | .reap p => if (s.procs p).status = .zombie then s.reap p else none
  | .sweep => s.sweep

/-! ### The lists stay lists -/

/-- **Intact lists**: they are finite, and no process is in two places. -/
def ListsIntact (s : ProcessLists) : Prop :=
  ∃ ds zs xs, Chain s.next s.daemons ds ∧ Chain s.next s.zombies zs ∧ Chain s.next s.dead xs ∧
    (ds ++ zs ++ xs).Nodup

/-- **Daemons stay**: a step takes no process from the daemons but one that it destroys. -/
def DaemonsStay (s : ProcessLists) (a : ListAct) : Prop :=
  ∀ s', listStep s a = some s' → ∀ ds ds', Chain s.next s.daemons ds →
    Chain s'.next s'.daemons ds' → ∀ p ∈ ds, p ∈ ds' ∨ a = .exit p

/-- **The condition**: no process calls `SYS_DAEMONIZE` or `SYS_EXIT` while it runs its handler. -/
def ListStepOk (s : ProcessLists) : ListAct → Prop
  | .daemonize p | .exit p => (s.procs p).handlingIrq = false
  | _ => True

/-- The invariant: the lists are intact, and `status` and `handling_irq` say where a process is. -/
structure ListInv (s : ProcessLists) (ds zs xs : List Nat) : Prop where
  daemons : Chain s.next s.daemons ds
  zombies : Chain s.next s.zombies zs
  dead : Chain s.next s.dead xs
  daemonsNodup : ds.Nodup
  zombiesNodup : zs.Nodup
  deadNodup : xs.Nodup
  mem_daemons : ∀ p, p ∈ ds ↔ (s.procs p).status = .daemon ∨
    ((s.procs p).status = .active ∧ (s.procs p).handlingIrq = true)
  mem_zombies : ∀ p, p ∈ zs ↔ (s.procs p).status = .zombie
  mem_dead : ∀ p, p ∈ xs ↔ (s.procs p).status = .destruct
  old : ∀ p, s.fresh ≤ p → (s.procs p).status = .coma
  sleeping : ∀ p, (s.procs p).status = .coma → (s.procs p).handlingIrq = false

namespace ListInv

variable {s s' : ProcessLists} {a : ListAct} {p : Nat} {c : ListedProcess} {ds zs xs : List Nat}

theorem start : ListInv .init [] [] [] := by
  constructor <;> simp [ProcessLists.init, ProcessLists.newProcess, Chain.nil]

/-- A process is in one list at most. -/
theorem nodup (h : ListInv s ds zs xs) : (ds ++ zs ++ xs).Nodup := by
  rw [List.nodup_append', List.nodup_append']
  refine ⟨⟨h.daemonsNodup, h.zombiesNodup, fun p hd hz => ?_⟩, h.deadNodup, fun p hp hx => ?_⟩
  · rw [h.mem_zombies] at hz
    rw [h.mem_daemons, hz] at hd
    simp at hd
  · rw [h.mem_dead] at hx
    rcases List.mem_append.mp hp with hd | hz
    · rw [h.mem_daemons, hx] at hd
      simp at hd
    · rw [h.mem_zombies, hx] at hz
      cases hz

/-- A process changes, and it alone may change its place. -/
theorem change {ds' zs' xs' : List Nat} (h : ListInv s ds zs xs) (hp : p < s.fresh)
    (hprocs : s'.procs = Function.update s.procs p c) (hfresh : s'.fresh = s.fresh)
    (hc : c.status ≠ .coma) (hds : Chain s'.next s'.daemons ds' ∧ ds'.Nodup)
    (hzs : Chain s'.next s'.zombies zs' ∧ zs'.Nodup) (hxs : Chain s'.next s'.dead xs' ∧ xs'.Nodup)
    (hd : p ∈ ds' ↔ c.status = .daemon ∨ (c.status = .active ∧ c.handlingIrq = true))
    (hz : p ∈ zs' ↔ c.status = .zombie) (hx : p ∈ xs' ↔ c.status = .destruct)
    (hothers : ∀ q, q ≠ p → (q ∈ ds' ↔ q ∈ ds) ∧ (q ∈ zs' ↔ q ∈ zs) ∧ (q ∈ xs' ↔ q ∈ xs)) :
    ListInv s' ds' zs' xs' := by
  have hput : ∀ {P : Nat → ListedProcess → Prop}, P p c → (∀ q, q ≠ p → P q (s.procs q)) →
      ∀ q, P q (s'.procs q) := by
    intro P hpc hpq q
    rw [hprocs, Function.update_apply]
    split
    · rename_i hqp
      exact hqp ▸ hpc
    · rename_i hqp
      exact hpq q hqp
  exact
    { daemons := hds.1, zombies := hzs.1, dead := hxs.1
      daemonsNodup := hds.2, zombiesNodup := hzs.2, deadNodup := hxs.2
      mem_daemons := hput (P := fun q d => q ∈ ds' ↔
          d.status = .daemon ∨ (d.status = .active ∧ d.handlingIrq = true)) hd fun q hq =>
        (hothers q hq).1.trans (h.mem_daemons q)
      mem_zombies := hput (P := fun q d => q ∈ zs' ↔ d.status = .zombie) hz fun q hq =>
        (hothers q hq).2.1.trans (h.mem_zombies q)
      mem_dead := hput (P := fun q d => q ∈ xs' ↔ d.status = .destruct) hx fun q hq =>
        (hothers q hq).2.2.trans (h.mem_dead q)
      old := hput (P := fun q d => s'.fresh ≤ q → d.status = .coma)
        (fun hle => absurd (hfresh ▸ hle) (Nat.not_le.mpr hp)) fun q _ hle => h.old q (hfresh ▸ hle)
      sleeping := hput (P := fun _ d => d.status = .coma → d.handlingIrq = false)
        (fun hcoma => absurd hcoma hc) fun q _ => h.sleeping q }

/-- A process changes, and stays where it is. -/
theorem relabel (h : ListInv s ds zs xs) (hp : p < s.fresh)
    (hd : (c.status = .daemon ∨ (c.status = .active ∧ c.handlingIrq = true)) ↔ p ∈ ds)
    (hz : c.status = .zombie ↔ p ∈ zs) (hx : c.status = .destruct ↔ p ∈ xs)
    (hc : c.status ≠ .coma) : ListInv (s.setProc p c) ds zs xs :=
  h.change hp rfl rfl hc ⟨h.daemons, h.daemonsNodup⟩ ⟨h.zombies, h.zombiesNodup⟩
    ⟨h.dead, h.deadNodup⟩ hd.symm hz.symm hx.symm fun _ _ => ⟨Iff.rfl, Iff.rfl, Iff.rfl⟩

/-- A running process that is not handling an IRQ is in no list. -/
theorem not_mem (h : ListInv s ds zs xs) (hact : (s.procs p).status = .active)
    (hidle : (s.procs p).handlingIrq = false) : p ∉ ds ∧ p ∉ zs ∧ p ∉ xs := by
  rw [h.mem_daemons, h.mem_zombies, h.mem_dead]
  simp [hact, hidle]

theorem lt_fresh (h : ListInv s ds zs xs) (hp : (s.procs p).status ≠ .coma) : p < s.fresh :=
  Nat.not_le.mp fun hle => hp (h.old p hle)

/-- What linking `p` anew does to the lists it is not in. -/
theorem apart (hp : p ∉ ds) {head o : Option Nat} (hc : Chain s.next head ds) :
    Chain (Function.update s.next p o) head ds :=
  hc.congr fun b hb => Function.update_of_ne (by rintro rfl; exact hp hb) ..

/-- In front of a list, nobody else changes its place. -/
theorem mem_push {q : Nat} (hq : q ≠ p) : q ∈ p :: ds ↔ q ∈ ds := by
  rw [List.mem_cons]
  exact or_iff_right hq

theorem daemonize (h : ListInv s ds zs xs) (hact : (s.procs p).status = .active)
    (hidle : (s.procs p).handlingIrq = false) :
    ListInv (s.daemonizeProcess p) (p :: ds) zs xs := by
  obtain ⟨hd, hz, hx⟩ := h.not_mem hact hidle
  exact h.change (c := { s.procs p with status := .daemon }) (h.lt_fresh (by simp [hact])) rfl rfl
    (by simp) ⟨h.daemons.push hd, List.nodup_cons.mpr ⟨hd, h.daemonsNodup⟩⟩
    ⟨apart hz h.zombies, h.zombiesNodup⟩ ⟨apart hx h.dead, h.deadNodup⟩ (by simp) (by simp [hz])
    (by simp [hx]) fun _ hq => ⟨mem_push hq, Iff.rfl, Iff.rfl⟩

theorem destroyProcess (h : ListInv s ds zs xs) (hact : (s.procs p).status = .active)
    (hidle : (s.procs p).handlingIrq = false) :
    ListInv (s.destroyProcess p) ds (p :: zs) xs := by
  obtain ⟨hd, hz, hx⟩ := h.not_mem hact hidle
  exact h.change (c := { s.procs p with status := .zombie, handledIrq := false })
    (h.lt_fresh (by simp [hact])) rfl rfl (by simp) ⟨apart hd h.daemons, h.daemonsNodup⟩
    ⟨h.zombies.push hz, List.nodup_cons.mpr ⟨hz, h.zombiesNodup⟩⟩ ⟨apart hx h.dead, h.deadNodup⟩
    (by simp [hd]) (by simp) (by simp [hx]) fun _ hq => ⟨Iff.rfl, mem_push hq, Iff.rfl⟩

/-- A popup thread exits: it is a zombie, or dead. -/
theorem popupExit (h : ListInv s ds zs xs) (hact : (s.procs p).status = .active)
    (hidle : (s.procs p).handlingIrq = false) :
    ∃ zs' xs', ListInv (s.destroyThisPopupThread p) ds zs' xs' := by
  rw [ProcessLists.destroyThisPopupThread]
  split
  · exact ⟨_, _, h.destroyProcess hact hidle⟩
  · obtain ⟨hd, hz, hx⟩ := h.not_mem hact hidle
    exact ⟨zs, p :: xs, h.change (c := { s.procs p with status := .destruct })
      (h.lt_fresh (by simp [hact])) rfl rfl (by simp) ⟨apart hd h.daemons, h.daemonsNodup⟩
      ⟨apart hz h.zombies, h.zombiesNodup⟩
      ⟨h.dead.push hx, List.nodup_cons.mpr ⟨hx, h.deadNodup⟩⟩ (by simp [hd]) (by simp [hz])
      (by simp) fun _ hq => ⟨Iff.rfl, Iff.rfl, mem_push hq⟩⟩

/-- A list of addresses below a bound is no longer than the bound. -/
theorem length_le {l : List Nat} {n : Nat} (hnd : l.Nodup) (hlt : ∀ q ∈ l, q < n) :
    l.length ≤ n := by
  have hsub : l ⊆ List.range n := fun q hq => List.mem_range.mpr (hlt q hq)
  simpa using (List.Nodup.subperm hnd hsub).length_le

theorem reap (h : ListInv s ds zs xs) (hz : (s.procs p).status = .zombie) :
    ∃ s', s.reap p = some s' ∧ ListInv s' ds (zs.erase p) xs := by
  have hmem : p ∈ zs := (h.mem_zombies p).mpr hz
  have hlt : ∀ q ∈ zs, q < s.fresh := fun q hq => h.lt_fresh (by simp [(h.mem_zombies q).mp hq])
  obtain ⟨next, head, hun, hchain, hkeep⟩ :=
    h.zombies.unlink h.zombiesNodup hmem (length_le h.zombiesNodup hlt)
  have hds : ∀ q ∈ ds, next q = s.next q := fun q hq => hkeep q fun hq' => by
    rw [h.mem_zombies] at hq'
    rw [h.mem_daemons, hq'] at hq
    simp at hq
  have hxs : ∀ q ∈ xs, next q = s.next q := fun q hq => hkeep q fun hq' => by
    rw [h.mem_zombies] at hq'
    rw [h.mem_dead, hq'] at hq
    cases hq
  have hreap : s.reap p = some (ProcessLists.setProc { s with next, zombies := head } p
      { s.procs p with status := .freed }) := by
    rw [ProcessLists.reap, ProcessLists.unregisterZombie, hun]
    rfl
  have hd : p ∉ ds := by rw [h.mem_daemons]; simp [hz]
  have hx : p ∉ xs := by rw [h.mem_dead]; simp [hz]
  have herase := fun q => h.zombiesNodup.mem_erase_iff (a := q) (b := p)
  exact ⟨_, hreap, h.change (c := { s.procs p with status := .freed }) (hlt p hmem) rfl rfl
    (by simp) ⟨h.daemons.congr hds, h.daemonsNodup⟩ ⟨hchain, h.zombiesNodup.erase p⟩
    ⟨h.dead.congr hxs, h.deadNodup⟩ (by simp [hd]) (by simp [herase]) (by simp [hx])
    fun q hq => ⟨Iff.rfl, (herase q).trans (and_iff_right hq), Iff.rfl⟩⟩

theorem sweep (h : ListInv s ds zs xs) (hs : s.sweep = some s') :
    ∃ xs', ListInv s' ds zs xs' := by
  simp only [ProcessLists.sweep, Option.map_eq_some_iff] at hs
  obtain ⟨p, hp, rfl⟩ := hs
  cases xs with
  | nil =>
      have hdead := h.dead
      rw [hp] at hdead
      cases hdead
  | cons q xs =>
      obtain rfl := Option.some.inj (hp.symm.trans h.dead.head_eq)
      have hst := (h.mem_dead p).mp List.mem_cons_self
      obtain ⟨hpx, hnd⟩ := List.nodup_cons.mp h.deadNodup
      have hd : p ∉ ds := by rw [h.mem_daemons]; simp [hst]
      have hz : p ∉ zs := by rw [h.mem_zombies]; simp [hst]
      exact ⟨xs, h.change (c := { s.procs p with status := .freed })
        (h.lt_fresh (by simp [hst])) rfl rfl (by simp) ⟨h.daemons, h.daemonsNodup⟩
        ⟨h.zombies, h.zombiesNodup⟩ ⟨h.dead.tail, hnd⟩ (by simp [hd]) (by simp [hz])
        (by simp [hpx]) fun _ hq => ⟨Iff.rfl, Iff.rfl, (mem_push hq).symm⟩⟩

theorem create {popup zombify : Bool} (h : ListInv s ds zs xs) :
    ListInv { s.setProc s.fresh (ProcessLists.newProcess popup zombify) with
      fresh := s.fresh + 1, next := Function.update s.next s.fresh none } ds zs xs := by
  have hcoma := h.old s.fresh (Nat.le_refl _)
  have hd : s.fresh ∉ ds := by rw [h.mem_daemons]; simp [hcoma]
  have hz : s.fresh ∉ zs := by rw [h.mem_zombies]; simp [hcoma]
  have hx : s.fresh ∉ xs := by rw [h.mem_dead]; simp [hcoma]
  refine { h with
    daemons := apart hd h.daemons, zombies := apart hz h.zombies, dead := apart hx h.dead
    mem_daemons := fun q => ?_, mem_zombies := fun q => ?_, mem_dead := fun q => ?_
    old := fun q hq => ?_, sleeping := fun q hq => ?_ }
  all_goals
    by_cases hqf : q = s.fresh
    · subst hqf
      simp_all [ProcessLists.setProc, ProcessLists.newProcess]
    · simp only [ProcessLists.setProc, Function.update_of_ne hqf] at *
      first | exact h.mem_daemons q | exact h.mem_zombies q | exact h.mem_dead q |
        exact h.old q (Nat.le_of_succ_le hq) | exact h.sleeping q hq

/-- **One step**: the lists stay intact, and the daemons daemons. -/
theorem step (h : ListInv s ds zs xs) (hok : ListStepOk s a) (hs : listStep s a = some s') :
    ∃ ds' zs' xs', ListInv s' ds' zs' xs' ∧ ∀ p ∈ ds, p ∈ ds' := by
  cases a with
  | create popup zombify =>
      cases hs
      exact ⟨_, _, _, h.create, fun _ hp => hp⟩
  | runProcess p =>
      simp only [listStep, Option.ite_none_right_eq_some, Option.some.injEq] at hs
      obtain ⟨⟨hlt, hcoma⟩, rfl⟩ := hs
      refine ⟨_, _, _, h.relabel hlt ?_ ?_ ?_ (by simp), fun _ hp => hp⟩
      · rw [h.mem_daemons]; simp [hcoma, h.sleeping p hcoma]
      · rw [h.mem_zombies]; simp [hcoma]
      · rw [h.mem_dead]; simp [hcoma]
  | handleIrq p =>
      simp only [listStep, Option.ite_none_right_eq_some, Option.some.injEq] at hs
      obtain ⟨⟨hact, -, -⟩, rfl⟩ := hs
      exact ⟨_, _, _, h.relabel (h.lt_fresh (by simp [hact])) (h.mem_daemons p).symm
        (h.mem_zombies p).symm (h.mem_dead p).symm (by simp [hact]), fun _ hp => hp⟩
  | daemonize p =>
      simp only [listStep, Option.ite_none_right_eq_some, Option.some.injEq] at hs
      obtain ⟨⟨hact, -⟩, rfl⟩ := hs
      exact ⟨_, _, _, h.daemonize hact hok, fun _ hp => List.mem_cons_of_mem _ hp⟩
  | irq p =>
      simp only [listStep, Option.ite_none_right_eq_some, Option.some.injEq] at hs
      obtain ⟨⟨hd, -⟩, rfl⟩ := hs
      refine ⟨_, _, _, h.relabel (h.lt_fresh (by simp [hd])) ?_ ?_ ?_ (by simp), fun _ hp => hp⟩
      · rw [h.mem_daemons]; simp [hd]
      · rw [h.mem_zombies]; simp [hd]
      · rw [h.mem_dead]; simp [hd]
  | irqHandlerExit p =>
      simp only [listStep, Option.ite_none_right_eq_some, Option.some.injEq] at hs
      obtain ⟨⟨hact, hh, -⟩, rfl⟩ := hs
      refine ⟨_, _, _, h.relabel (h.lt_fresh (by simp [hact])) ?_ ?_ ?_ (by simp),
        fun _ hp => hp⟩
      · rw [h.mem_daemons]; simp [hact, hh]
      · rw [h.mem_zombies]; simp [hact]
      · rw [h.mem_dead]; simp [hact]
  | exit p =>
      simp only [listStep, Option.ite_none_right_eq_some, Option.some.injEq] at hs
      obtain ⟨hact, rfl⟩ := hs
      split
      · obtain ⟨zs', xs', hinv⟩ := h.popupExit hact hok
        exact ⟨_, _, _, hinv, fun _ hp => hp⟩
      · exact ⟨_, _, _, h.destroyProcess hact hok, fun _ hp => hp⟩
  | reap p =>
      simp only [listStep, Option.ite_none_right_eq_some] at hs
      obtain ⟨s₁, hs₁, hinv⟩ := h.reap hs.1
      obtain rfl := Option.some.inj (hs₁.symm.trans hs.2)
      exact ⟨_, _, _, hinv, fun _ hp => hp⟩
  | sweep =>
      obtain ⟨xs', hinv⟩ := h.sweep hs
      exact ⟨_, _, _, hinv, fun _ hp => hp⟩

end ListInv

/-- **The lists of processes stay intact**: as long as no process calls `SYS_DAEMONIZE` or
`SYS_EXIT` while it runs its IRQ handler, the three lists are finite, no process is in two places,
and no step takes a process from the daemons that it does not destroy. -/
theorem lists_intact {as : List ListAct} {s : ProcessLists}
    (h : Run listStep ListStepOk .init as s) :
    ListsIntact s ∧ ∀ a, ListStepOk s a → DaemonsStay s a := by
  have hinv : ∃ ds zs xs, ListInv s ds zs xs := by
    refine h.invariant (I := fun s => ∃ ds zs xs, ListInv s ds zs xs) ?_ ⟨_, _, _, ListInv.start⟩
    rintro s a s' ⟨ds, zs, xs, hi⟩ hok hs
    obtain ⟨ds', zs', xs', hi', -⟩ := hi.step hok hs
    exact ⟨ds', zs', xs', hi'⟩
  obtain ⟨ds, zs, xs, hi⟩ := hinv
  refine ⟨⟨ds, zs, xs, hi.daemons, hi.zombies, hi.dead, hi.nodup⟩, ?_⟩
  intro a hok s' hs ds₁ ds' hds₁ hds' p hp
  obtain ⟨ds₂, zs₂, xs₂, hi', hsub⟩ := hi.step hok hs
  rw [hds₁.unique hi.daemons] at hp
  rw [hds'.unique hi'.daemons]
  exact .inl (hsub p hp)

/-- Two daemons, one of which handles an IRQ, runs its handler and sleeps again. -/
def twoDaemons : List ListAct :=
  [.create false false, .create false false, .runProcess 0, .runProcess 1, .handleIrq 0,
    .daemonize 0, .daemonize 1, .irq 0]

theorem lists_intact_two : ∃ s, Run listStep ListStepOk .init twoDaemons s ∧ ListsIntact s := by
  obtain ⟨s, hrun⟩ : ∃ s, Run listStep ListStepOk .init twoDaemons s :=
    ⟨_, .more trivial rfl (.more trivial rfl (.more trivial rfl (.more trivial rfl
      (.more trivial rfl (.more rfl rfl (.more rfl rfl (.one trivial rfl)))))))⟩
  exact ⟨s, hrun, (lists_intact hrun).1⟩

/-- The handler of the daemon that is first in the list calls `SYS_DAEMONIZE`: it links to itself,
and the list has no end. -/
theorem daemonize_links_to_itself : ∃ s, Run listStep anyStep .init
    [.create false false, .runProcess 0, .handleIrq 0, .daemonize 0, .irq 0, .daemonize 0] s ∧
    ¬ ListsIntact s := by
  obtain ⟨s, hrun, hhead, hnext⟩ : ∃ s, Run listStep anyStep .init
      [.create false false, .runProcess 0, .handleIrq 0, .daemonize 0, .irq 0, .daemonize 0] s ∧
      s.daemons = some 0 ∧ s.next 0 = some 0 :=
    ⟨_, .more trivial rfl (.more trivial rfl (.more trivial rfl (.more trivial rfl
      (.more trivial rfl (.one trivial rfl))))), rfl, rfl⟩
  refine ⟨s, hrun, ?_⟩
  rintro ⟨ds, zs, xs, hd, -⟩
  rw [hhead] at hd
  exact Chain.not_loop hnext hd

end Muxomucota.Tasking
