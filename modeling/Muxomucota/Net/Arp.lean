import Muxomucota.Net.Ip
import Muxomucota.Lib.Runs
import Mathlib.Logic.Function.Basic

/-!
# Net — address resolution

`arp_resolve` and `arp_incoming` of `progs/common/ip/arp.c`.  A reply goes through `reply_mac` and
`reply_ip`: `arp_incoming` writes them in several steps, and `arp_resolve` polls the one and then reads
the other.  A 64-bit variable is read and written in two halves.  Resolvers take turns with `arp_lock`,
but give it back before they read `reply_mac`; `arp_incoming` runs under the lock of `incoming`.
-/

namespace Muxomucota.Net
open Lib

/-- `struct arp_packet`, in host order; the first byte of a hardware address is the lowest. -/
structure ArpPacket where
  hwaddrtype : Half
  protoaddrtype : Half
  operation : Half
  senderhwaddr : BitVec 48
  senderprotoaddr : Word
  targethwaddr : BitVec 48
  targetprotoaddr : Word
  deriving DecidableEq

/-- The two variables, `reply_mac` as its halves. -/
structure ReplyVars where
  ip : Word
  low : Word
  high : Word
  deriving DecidableEq

def ReplyVars.mac (r : ReplyVars) : BitVec 64 := r.high ++ r.low

/-- A write to one of them. -/
inductive ReplyStore where
  | ip (value : Word)
  | low (value : Word)
  | high (value : Word)
  deriving DecidableEq

def ReplyVars.store (r : ReplyVars) : ReplyStore → ReplyVars
  | .ip value => { r with ip := value }
  | .low value => { r with low := value }
  | .high value => { r with high := value }

/-- The writes of one assignment to `reply_mac`. -/
def storeMac (mac : BitVec 64) : List ReplyStore :=
  [.low (mac.extractLsb' 0 32), .high (mac.extractLsb' 32 32)]

/-- `reply_mac` after `n` rounds of the loop. -/
def macRounds (hwaddr : BitVec 48) : Nat → BitVec 64
  | 0 => 0
  | n + 1 => macRounds hwaddr n ||| (hwaddr.extractLsb' (n * 8) 8).setWidth 64 <<< (n * 8)

/-- What `arp_incoming` writes for a packet: something for a reply only. -/
def replyStores (pkt : ArpPacket) : List ReplyStore :=
  if pkt.hwaddrtype ≠ 1 ∨ pkt.protoaddrtype ≠ 0x0800 ∨ pkt.operation ≠ 2 then []
  else (List.range 7).flatMap (fun n => storeMac (macRounds pkt.senderhwaddr n)) ++
    [.ip pkt.senderprotoaddr]

/-- A reply that was received. -/
structure Reply where
  ifc : Interface
  ip : Word
  mac : BitVec 64
  deriving DecidableEq

def ArpPacket.reply (pkt : ArpPacket) (ifc : Interface) : Reply :=
  { ifc, ip := pkt.senderprotoaddr, mac := pkt.senderhwaddr.setWidth 64 }

/-- Where a call of `arp_resolve` is. -/
inductive Resolver where
  | idle
  /-- in the loop, with `arp_lock` -/
  | polling (ifc : Interface) (ip : Word)
  /-- before the test behind the loop, with `arp_lock` -/
  | testing (ifc : Interface) (ip : Word)
  /-- before the first half of `reply_mac` is read -/
  | reading (ifc : Interface) (ip : Word)
  /-- before the second half is read -/
  | halfway (ifc : Interface) (ip : Word) (low : Word)
  | returned (ifc : Interface) (ip : Word) (mac : BitVec 64)

/-- The IP service; `heard` and `last` are what came in and what is stored. -/
structure ArpState where
  vars : ReplyVars
  /-- the writes that `arp_incoming` has still to make for a reply -/
  storing : Option (Reply × List ReplyStore)
  /-- `arp_lock` is taken -/
  locked : Bool
  resolvers : Nat → Resolver
  heard : List Reply
  last : Option Reply

/-- The steps of the threads. -/
inductive ArpOp where
  /-- `arp_incoming` gets a packet -/
  | incoming (ifc : Interface) (pkt : ArpPacket)
  /-- `arp_incoming` makes one write -/
  | store
  /-- `arp_resolve` is called -/
  | resolve (t : Nat) (ifc : Interface) (ip : Word)
  /-- the loop ends; `timeout` says whether the time is up -/
  | poll (t : Nat) (timeout : Bool)
  /-- the test behind the loop -/
  | test (t : Nat)
  /-- one half of `reply_mac` is read -/
  | read (t : Nat)

namespace ArpState

def setResolver (s : ArpState) (t : Nat) (r : Resolver) : ArpState :=
  { s with resolvers := Function.update s.resolvers t r }

@[simp] theorem setResolver_resolvers (s : ArpState) (t : Nat) (r : Resolver) :
    (s.setResolver t r).resolvers = Function.update s.resolvers t r := rfl

def step (s : ArpState) : ArpOp → Option ArpState
  | .incoming ifc pkt =>
      if s.storing.isSome then none
      else if replyStores pkt = [] then some s
      else some { s with storing := some (pkt.reply ifc, replyStores pkt),
                         heard := pkt.reply ifc :: s.heard }
  | .store =>
      match s.storing with
      | some (r, [x]) => some { s with vars := s.vars.store x, storing := none, last := some r }
      | some (r, x :: xs) => some { s with vars := s.vars.store x, storing := some (r, xs) }
      | _ => none
  | .resolve t ifc ip =>
      match s.resolvers t with
      | .polling _ _ | .testing _ _ | .reading _ _ | .halfway _ _ _ => none
      | _ => if s.locked then none else some ({ s with locked := true }.setResolver t (.polling ifc ip))
  | .poll t timeout =>
      match s.resolvers t with
      | .polling ifc ip =>
          if s.vars.ip = ip ∨ timeout then some (s.setResolver t (.testing ifc ip)) else none
      | _ => none
  | .test t =>
      match s.resolvers t with
      | .testing ifc ip =>
          let s := { s with locked := false }
          if s.vars.ip ≠ ip then some (s.setResolver t (.returned ifc ip 0))
          else some (s.setResolver t (.reading ifc ip))
      | _ => none
  | .read t =>
      match s.resolvers t with
      | .reading ifc ip => some (s.setResolver t (.halfway ifc ip s.vars.low))
      | .halfway ifc ip low => some (s.setResolver t (.returned ifc ip (s.vars.high ++ low)))
      | _ => none

/-- Before the first packet. -/
def start : ArpState :=
  { vars := ⟨0, 0, 0⟩, storing := none, locked := false, resolvers := fun _ => .idle, heard := [],
    last := none }

/-- Every answer was in a reply. -/
def AnswersHeard (s : ArpState) : Prop :=
  ∀ t ifc ip mac, s.resolvers t = .returned ifc ip mac → mac ≠ 0 → ⟨ifc, ip, mac⟩ ∈ s.heard

/-- A resolver is past its test and has not returned. -/
def Resolver.Committed : Resolver → Prop
  | .reading _ _ => True
  | .halfway _ _ _ => True
  | _ => False

/-- Nothing is written between a resolver's test and its return, and the test finds the address only
while no reply is being stored and the last one came in on the resolver's interface. -/
def Undisturbed (s : ArpState) : ArpOp → Prop
  | .store => ∀ t, ¬ Resolver.Committed (s.resolvers t)
  | .test t => ∀ ifc ip, s.resolvers t = .testing ifc ip → s.vars.ip = ip →
      s.storing = none ∧ ∀ r, s.last = some r → r.ifc = ifc
  | _ => True

end ArpState

/-! ### One reply -/

/-- The loop puts the bytes where they belong. -/
theorem macRounds_six (hwaddr : BitVec 48) : macRounds hwaddr 6 = hwaddr.setWidth 64 := by
  apply BitVec.eq_of_getLsbD_eq
  intro i hi
  have hbyte : ∀ n, ((hwaddr.extractLsb' (n * 8) 8).setWidth 64 <<< (n * 8) : BitVec 64).getLsbD i =
      (decide (n * 8 ≤ i ∧ i < n * 8 + 8) && hwaddr.getLsbD i) := by
    intro n
    simp only [BitVec.getLsbD_shiftLeft, BitVec.getLsbD_setWidth, BitVec.getLsbD_extractLsb', hi]
    by_cases hlo : n * 8 ≤ i
    · by_cases hhi : i < n * 8 + 8
      · have : n * 8 + (i - n * 8) = i := by omega
        simp [hlo, hhi, this, show i - n * 8 < 8 by omega, show i - n * 8 < 64 by omega]
      · simp [hlo, hhi, show ¬ i - n * 8 < 8 by omega]
    · simp [hlo, show i < n * 8 by omega]
  simp only [macRounds, BitVec.getLsbD_or, hbyte, BitVec.getLsbD_setWidth, hi]
  by_cases h48 : i < 48
  · cases hwaddr.getLsbD i
    · simp
    · simp
      omega
  · simp [BitVec.getLsbD_of_ge hwaddr i (by omega)]

theorem mac_halves (mac : BitVec 64) : mac.extractLsb' 32 32 ++ mac.extractLsb' 0 32 = mac := by
  apply BitVec.eq_of_getLsbD_eq
  intro i hi
  simp only [BitVec.getLsbD_append, BitVec.getLsbD_extractLsb']
  split
  · rename_i h
    simp [h]
  · rename_i h
    simp [show i - 32 < 32 by omega, show 32 + (i - 32) = i by omega]

/-- After all the writes for a reply the variables hold what it says. -/
theorem replyStores_final {pkt : ArpPacket} (ifc : Interface) (v : ReplyVars)
    (h : replyStores pkt ≠ []) :
    ((replyStores pkt).foldl ReplyVars.store v).ip = (pkt.reply ifc).ip ∧
      ((replyStores pkt).foldl ReplyVars.store v).mac = (pkt.reply ifc).mac := by
  have hreply : replyStores pkt =
      (List.range 7).flatMap (fun n => storeMac (macRounds pkt.senderhwaddr n)) ++
        [.ip pkt.senderprotoaddr] := by
    rw [replyStores] at h ⊢
    split
    · rename_i hno
      rw [if_pos hno] at h
      exact absurd rfl h
    · rfl
  have hrange : List.range 7 = [0, 1, 2, 3, 4, 5, 6] := rfl
  rw [hreply, hrange]
  simp only [List.flatMap_cons, List.flatMap_nil, storeMac, List.append_nil, List.cons_append,
    List.nil_append, List.foldl_cons, List.foldl_nil, ReplyVars.store, ReplyVars.mac,
    ArpPacket.reply, true_and, ← macRounds_six]
  exact mac_halves _

namespace ArpState

variable {s s' : ArpState} {op : ArpOp} {ops : List ArpOp}

/-- What is read now would be a right answer. -/
def Right (s : ArpState) (ifc : Interface) (ip : Word) : Prop :=
  s.vars.mac ≠ 0 → ⟨ifc, ip, s.vars.mac⟩ ∈ s.heard

/-- The variables are those of the last reply, or will be those of the one that is being stored; a
resolver past its test reads a right answer. -/
structure Inv (s : ArpState) : Prop where
  first : s.storing = none → s.last = none → s.vars.mac = 0
  stored : ∀ r, s.storing = none → s.last = some r →
    r ∈ s.heard ∧ s.vars.ip = r.ip ∧ s.vars.mac = r.mac
  storing : ∀ r xs, s.storing = some (r, xs) →
    r ∈ s.heard ∧ (xs.foldl ReplyVars.store s.vars).ip = r.ip ∧
      (xs.foldl ReplyVars.store s.vars).mac = r.mac
  reading : ∀ t ifc ip, s.resolvers t = .reading ifc ip → s.Right ifc ip
  halfway : ∀ t ifc ip low, s.resolvers t = .halfway ifc ip low →
    low = s.vars.low ∧ s.Right ifc ip
  returned : s.AnswersHeard

theorem inv_start : Inv start where
  first _ _ := rfl
  stored r _ h := by cases h
  storing r xs h := by cases h
  reading t ifc ip h := by cases h
  halfway t ifc ip low h := by cases h
  returned t ifc ip mac h := by cases h

/-- A resolver goes on to a place where it knows what it has to. -/
theorem Inv.setResolver {t : Nat} {r : Resolver} (h : s.Inv)
    (hread : ∀ ifc ip, r = .reading ifc ip → s.Right ifc ip)
    (hhalf : ∀ ifc ip low, r = .halfway ifc ip low → low = s.vars.low ∧ s.Right ifc ip)
    (hret : ∀ ifc ip mac, r = .returned ifc ip mac → mac ≠ 0 → ⟨ifc, ip, mac⟩ ∈ s.heard) :
    Inv (s.setResolver t r) := by
  have hcases : ∀ {t' r'}, (s.setResolver t r).resolvers t' = r' → r = r' ∨ s.resolvers t' = r' := by
    intro t' r' h'
    by_cases ht : t' = t
    · subst ht
      rw [setResolver_resolvers, Function.update_self] at h'
      exact .inl h'
    · rw [setResolver_resolvers, Function.update_of_ne ht] at h'
      exact .inr h'
  exact ⟨h.first, h.stored, h.storing,
    fun t' ifc ip h' => (hcases h').elim (hread ifc ip) (h.reading t' ifc ip),
    fun t' ifc ip low h' => (hcases h').elim (hhalf ifc ip low) (h.halfway t' ifc ip low),
    fun t' ifc ip mac h' => (hcases h').elim (hret ifc ip mac) (h.returned t' ifc ip mac)⟩

/-- `arp_lock` does not matter for it. -/
theorem Inv.setLocked (h : s.Inv) (b : Bool) : Inv { s with locked := b } := { h with }

theorem inv_incoming {ifc : Interface} {pkt : ArpPacket} (h : s.Inv)
    (hs : s.step (.incoming ifc pkt) = some s') : s'.Inv := by
  rw [step] at hs
  split at hs
  · cases hs
  · split at hs
    · cases hs; exact h
    · rename_i hne
      cases hs
      refine ⟨fun h' => (by cases h'), fun r h' => (by cases h'), fun r xs hr => ?_,
        fun t i a ht hm => List.mem_cons_of_mem _ (h.reading t i a ht hm),
        fun t i a low ht => ⟨(h.halfway t i a low ht).1, fun hm =>
          List.mem_cons_of_mem _ ((h.halfway t i a low ht).2 hm)⟩,
        fun t i a mac ht hm => List.mem_cons_of_mem _ (h.returned t i a mac ht hm)⟩
      cases hr
      exact ⟨List.mem_cons_self, replyStores_final ifc s.vars hne⟩

theorem inv_store (h : s.Inv) (ok : s.Undisturbed .store) (hs : s.step .store = some s') :
    s'.Inv := by
  have hno : ∀ t, ¬ Resolver.Committed (s.resolvers t) := ok
  have hread : ∀ t ifc ip, s.resolvers t ≠ .reading ifc ip := fun t ifc ip heq =>
    hno t (by rw [heq]; trivial)
  have hhalf : ∀ t ifc ip low, s.resolvers t ≠ .halfway ifc ip low := fun t ifc ip low heq =>
    hno t (by rw [heq]; trivial)
  rw [step] at hs
  split at hs
  · rename_i r x hst
    cases hs
    have hr := h.storing r [x] hst
    refine ⟨fun _ h' => (by cases h'), fun r' _ h' => ?_, fun r' xs h' => (by cases h'),
      fun t ifc ip ht => absurd ht (hread t ifc ip),
      fun t ifc ip low ht => absurd ht (hhalf t ifc ip low), h.returned⟩
    cases h'
    exact hr
  · rename_i r x xs _ hst
    cases hs
    have hr := h.storing r (x :: xs) hst
    refine ⟨fun h' => (by cases h'), fun r' h' => (by cases h'), fun r' xs' h' => ?_,
      fun t ifc ip ht => absurd ht (hread t ifc ip),
      fun t ifc ip low ht => absurd ht (hhalf t ifc ip low), h.returned⟩
    cases h'
    exact hr
  · cases hs

theorem inv_test {t : Nat} (h : s.Inv) (ok : s.Undisturbed (.test t))
    (hs : s.step (.test t) = some s') : s'.Inv := by
  rw [step] at hs
  split at hs
  · rename_i ifc ip ht
    dsimp only at hs
    split at hs
    · cases hs
      refine (h.setLocked false).setResolver (fun _ _ h' => by cases h')
        (fun _ _ _ h' => by cases h') fun _ _ _ h' hm => ?_
      cases h'
      exact absurd rfl hm
    · rename_i hip
      cases hs
      have hip : s.vars.ip = ip := not_not.mp hip
      obtain ⟨hidle, hifc⟩ := ok ifc ip ht hip
      have hright : s.Right ifc ip := by
        intro hm
        cases hl : s.last with
        | none => exact absurd (h.first hidle hl) hm
        | some r =>
            obtain ⟨hmem, hrip, hmac⟩ := h.stored r hidle hl
            have heq : (⟨ifc, ip, s.vars.mac⟩ : Reply) = r := by
              rw [hmac, ← hip, hrip, ← hifc r hl]
            rwa [heq]
      refine (h.setLocked false).setResolver (fun _ _ h' => ?_) (fun _ _ _ h' => by cases h')
        fun _ _ _ h' => by cases h'
      cases h'
      exact hright
  · cases hs

theorem inv_read {t : Nat} (h : s.Inv) (hs : s.step (.read t) = some s') : s'.Inv := by
  rw [step] at hs
  split at hs
  · rename_i ifc ip ht
    cases hs
    refine h.setResolver (fun _ _ h' => by cases h') (fun _ _ _ h' => ?_) fun _ _ _ h' => by cases h'
    cases h'
    exact ⟨rfl, h.reading t ifc ip ht⟩
  · rename_i ifc ip low ht
    cases hs
    refine h.setResolver (fun _ _ h' => by cases h') (fun _ _ _ h' => by cases h') fun _ _ _ h' hm => ?_
    cases h'
    obtain ⟨rfl, hright⟩ := h.halfway t ifc ip low ht
    exact hright hm
  · cases hs

theorem inv_step (h : s.Inv) (ok : s.Undisturbed op) (hs : s.step op = some s') : s'.Inv := by
  cases op with
  | incoming ifc pkt => exact inv_incoming h hs
  | store => exact inv_store h ok hs
  | resolve t ifc ip =>
      rw [step] at hs
      split at hs <;> try cases hs
      split at hs <;> cases hs
      exact (h.setLocked true).setResolver (fun _ _ h' => by cases h') (fun _ _ _ h' => by cases h')
        fun _ _ _ h' => by cases h'
  | poll t timeout =>
      rw [step] at hs
      split at hs
      · split at hs <;> cases hs
        exact h.setResolver (fun _ _ h' => by cases h') (fun _ _ _ h' => by cases h')
          fun _ _ _ h' => by cases h'
      · cases hs
  | test t => exact inv_test h ok hs
  | read t => exact inv_read h hs

/-- **Answers match the question** in every run in which the resolvers are undisturbed. -/
theorem answers_heard (h : Run step Undisturbed start ops s) : s.AnswersHeard :=
  (h.invariant (fun _ _ _ hi ok hs => inv_step hi ok hs) inv_start).returned

/-- A reply is stored while nobody reads. -/
theorem stored_run (r : Reply) : ∀ (xs : List ReplyStore) (x : ReplyStore) (s : ArpState),
    s.storing = some (r, x :: xs) → (∀ t, ¬ Resolver.Committed (s.resolvers t)) →
    Run step Undisturbed s (List.replicate (xs.length + 1) .store)
      { s with vars := (x :: xs).foldl ReplyVars.store s.vars, storing := none, last := some r } := by
  intro xs
  induction xs with
  | nil =>
      intro x s hst hno
      refine .one hno ?_
      rw [step, hst]
      rfl
  | cons y ys ih =>
      intro x s hst hno
      have hstep : s.step .store = some { s with vars := s.vars.store x, storing := some (r, y :: ys) } := by
        rw [step, hst]
      exact .more hno hstep (ih y { s with vars := s.vars.store x, storing := some (r, y :: ys) } rfl hno)

def ifc₀ : Interface := { name := 0, ip := 1 }

/-- A reply from `ip`. -/
def replyFrom (ip : Word) (hwaddr : BitVec 48) : ArpPacket :=
  { hwaddrtype := 1, protoaddrtype := 0x0800, operation := 2, senderhwaddr := hwaddr,
    senderprotoaddr := ip, targethwaddr := 0, targetprotoaddr := 1 }

/-- A call that takes what is there. -/
def resolveOps (ip : Word) : List ArpOp :=
  [.resolve 0 ifc₀ ip, .poll 0 false, .test 0, .read 0, .read 0]

/-- A reply comes in, and its address is asked for. -/
theorem answers_heard_one : ∃ ops s, Run step Undisturbed start ops s ∧
    s.resolvers 0 = .returned ifc₀ 5 7 ∧ s.AnswersHeard := by
  let r := (replyFrom 5 7).reply ifc₀
  let s₁ : ArpState := { start with storing := some (r, replyStores (replyFrom 5 7)), heard := [r] }
  have hin : start.step (.incoming ifc₀ (replyFrom 5 7)) = some s₁ := rfl
  have hidle : ∀ t, ¬ Resolver.Committed (s₁.resolvers t) := fun t h => h
  have hstores := stored_run r (replyStores (replyFrom 5 7)).tail (.low 0) s₁ rfl hidle
  let s₂ : ArpState := { s₁ with vars := ⟨5, 7, 0⟩, storing := none, last := some r }
  have htest : ∀ s : ArpState, s.storing = none → s.last = some r → s.resolvers 0 = .testing ifc₀ 5 →
      s.Undisturbed (.test 0) := by
    intro s hst hlast hres ifc ip ht _
    rw [hres] at ht
    cases ht
    exact ⟨hst, fun r' hr' => by rw [hlast] at hr'; cases hr'; rfl⟩
  have hasks : Run step Undisturbed s₂ (resolveOps 5) _ :=
    .more trivial rfl (.more trivial rfl (.more (htest _ rfl rfl rfl) rfl (.more trivial rfl
      (.more trivial rfl (.refl _)))))
  have hrun := (Run.more trivial hin hstores).trans hasks
  refine ⟨_, _, hrun, ?_, answers_heard hrun⟩
  have hmac : (0#32 ++ 7#32 : BitVec 64) = 7 := by decide
  rw [setResolver_resolvers, Function.update_self]
  exact congrArg (Resolver.returned ifc₀ 5) hmac

/-- While a second reply is being stored, all but its address, the first one is asked for. -/
def mixedOps : List ArpOp :=
  [.incoming ifc₀ (replyFrom 5 7)] ++ List.replicate 15 .store ++
    [.incoming ifc₀ (replyFrom 6 8)] ++ List.replicate 14 .store ++ resolveOps 5

/-- The answer is that of another host. -/
theorem answer_of_another : ¬ ∀ (ops : List ArpOp) (s : ArpState), Run step anyStep start ops s →
    s.AnswersHeard := by
  intro hall
  obtain ⟨s, hs⟩ := Option.isSome_iff_exists.mp (by decide : (mixedOps.foldlM step start).isSome)
  have hanswer : (mixedOps.foldlM step start).map (fun s => s.resolvers 0) =
      some (.returned ifc₀ 5 8) := by rfl
  have hheard : (mixedOps.foldlM step start).map heard =
      some [⟨ifc₀, 6, 8⟩, ⟨ifc₀, 5, 7⟩] := by rfl
  rw [hs, Option.map_some, Option.some.injEq] at hanswer hheard
  have hmem := hall _ _ (Run.of_foldlM hs) 0 ifc₀ 5 8 hanswer (by decide)
  rw [hheard] at hmem
  revert hmem
  decide

end ArpState

end Muxomucota.Net
