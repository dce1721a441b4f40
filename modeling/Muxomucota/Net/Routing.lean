import Mathlib.Data.List.Chain
import Mathlib.Data.List.MinMax
import Mathlib.Data.List.Nodup
import Muxomucota.Net.Ip

/-!
# Net — the routing table

`progs/common/ip/routing.c`.  The table is a list; `add_route` changes an entry or puts one in front, and
`del_route` unlinks entries as it goes along.  What `locate_interface` and `arp_lookup` give for a name and
for an address are parameters.

`find_route` takes the first of the entries that match with the most bits in their mask, which is a maximum
over a list (`bestMatch_eq`).
-/

namespace Muxomucota.Net

/-- `struct routing_table_entry`; the name is the string in `iface`. -/
structure RouteEntry where
  dest : Word
  mask : Word
  gw : Word
  iface : List Byte
  deriving DecidableEq

/-- What `add_route` and `del_route` are sent: an entry, and the bytes of `iface` up to the end of the
message.  There are none in a message that is too short. -/
structure RouteMessage where
  dest : Word
  mask : Word
  gw : Word
  iface : List Byte

/-- The entry in a message, unless the message is too short or its name does not end in it. -/
def RouteMessage.entry (m : RouteMessage) : Option RouteEntry :=
  if m.iface.getLast? = some 0 then some ⟨m.dest, m.mask, m.gw, m.iface.takeWhile (· ≠ 0)⟩ else none

/-- `__builtin_popcount`. -/
def popcount (w : Word) : Nat := (List.range 32).countP fun i => w.getLsbD i

/-! ### `find_route` -/

section Find

variable (locate : List Byte → Option Interface) (arp : Interface → Word → BitVec 64)

/-- The first two tests of the loop. -/
def RouteEntry.serves (ip : Word) (onIfc : Option Interface) (e : RouteEntry) : Bool :=
  e.dest &&& e.mask = ip &&& e.mask && (onIfc = none || locate e.iface = onIfc)

/-- One round of the loop. -/
def matchRoute (ip : Word) (onIfc : Option Interface) (best : Option RouteEntry) (e : RouteEntry) :
    Option RouteEntry :=
  if e.serves locate ip onIfc then
    match best with
    | none => some e
    | some b => if popcount b.mask < popcount e.mask then some e else some b
  else best

/-- `best_match` behind the loop. -/
def bestMatch (table : List RouteEntry) (ip : Word) (onIfc : Option Interface) : Option RouteEntry :=
  table.foldl (matchRoute locate ip onIfc) none

/-- Where the MAC comes from. -/
inductive Hop where
  | broadcast
  | lookup (ip : Word)
  deriving DecidableEq

/-- The address that is looked up. -/
def RouteEntry.nextHop (ip : Word) (e : RouteEntry) : Word := if e.gw ≠ 0 then e.gw else ip

def RouteEntry.hop (ip : Word) (e : RouteEntry) : Hop :=
  if ~~~(ip &&& ~~~e.mask) = 0 then .broadcast else .lookup (e.nextHop ip)

def Hop.mac (i : Interface) : Hop → BitVec 64
  | .broadcast => 0xffffffffffff
  | .lookup ip => arp i ip

/-- `find_route`: what it writes.  It succeeds if it does and the MAC is not zero. -/
def findRoute (table : List RouteEntry) : Routing := fun ip onIfc => do
  let e ← bestMatch locate table ip onIfc
  let i ← locate e.iface
  some (i, (e.hop ip).mac arp i)

end Find

/-- The entries of one key are one route. -/
def RouteEntry.key (e : RouteEntry) : Word × Word × List Byte := (e.dest, e.mask, e.iface)

/-- The loop of `add_route`: the table with the new gateway, if there is an entry for it. -/
def setGateway (e : RouteEntry) : List RouteEntry → Option (List RouteEntry)
  | [] => none
  | r :: table =>
      if r.dest = e.dest ∧ r.mask = e.mask ∧ r.iface = e.iface then some ({ r with gw := e.gw } :: table)
      else (setGateway e table).map (r :: ·)

/-- `add_route`. -/
def addRoute (table : List RouteEntry) (m : RouteMessage) : List RouteEntry :=
  match m.entry with
  | none => table
  | some e =>
      match setGateway e table with
      | some table => table
      | none => e :: table

/-- The test of `del_route`. -/
def RouteEntry.requested (req e : RouteEntry) : Bool :=
  e.iface = req.iface && (req.dest = 0 && req.gw = 0 && req.mask = 0 ||
    e.dest = req.dest && e.mask = req.mask)

/-- The loop of `del_route`. -/
def unlinkRoutes (req : RouteEntry) : List RouteEntry → List RouteEntry
  | [] => []
  | e :: table =>
      if req.requested e then
        match table with
        | [] => []
        -- the pointer goes on from the entry that has moved up
        | e' :: table => e' :: unlinkRoutes req table
      else e :: unlinkRoutes req table

/-- `del_route`. -/
def delRoute (table : List RouteEntry) (m : RouteMessage) : List RouteEntry :=
  match m.entry with
  | none => table
  | some req => unlinkRoutes req table

/-- What the service is sent. -/
inductive RouteCall where
  | add (m : RouteMessage)
  | del (m : RouteMessage)

def routeStep (table : List RouteEntry) : RouteCall → List RouteEntry
  | .add m => addRoute table m
  | .del m => delRoute table m

/-- The entries that a message asks to delete. -/
def RouteMessage.requests (m : RouteMessage) (e : RouteEntry) : Bool :=
  m.entry.any fun req => req.requested e

/-- The gateway that was set last for a key. -/
def lastGateway (key : Word × Word × List Byte) (calls : List RouteCall) : Option Word :=
  calls.foldl (fun last call =>
    match call with
    | .add m => match m.entry with
      | some e => if e.key = key then some e.gw else last
      | none => last
    | .del _ => last) none

section Selection

variable (locate : List Byte → Option Interface) (arp : Interface → Word → BitVec 64)
  (calls : List RouteCall) (ip : Word) (onIfc : Option Interface)

end Selection

/-- All host bits are ones. -/
def HostBitsSet (ip mask : Word) : Prop := ip ||| mask = BitVec.allOnes 32

/-- **Broadcast detection** on a route that has host bits: `find_route` yields the broadcast MAC for the
addresses with all host bits set, which are not looked up, and for no others. -/
def BroadcastDetected (locate : List Byte → Option Interface) (arp : Interface → Word → BitVec 64)
    (table : List RouteEntry) (ip : Word) (onIfc : Option Interface) (e : RouteEntry) : Prop :=
  e.mask ≠ BitVec.allOnes 32 →
    ((∃ i, findRoute locate arp table ip onIfc = some (i, 0xffffffffffff)) ↔ HostBitsSet ip e.mask) ∧
      (HostBitsSet ip e.mask → e.hop ip = .broadcast)

/-! ### The best match -/

section Find

variable {locate : List Byte → Option Interface} {arp : Interface → Word → BitVec 64}
  {table : List RouteEntry} {ip : Word} {onIfc : Option Interface} {e : RouteEntry}

theorem findRoute_of_best (h : bestMatch locate table ip onIfc = some e) :
    findRoute locate arp table ip onIfc = (locate e.iface).map fun i => (i, (e.hop ip).mac arp i) := by
  simp only [findRoute, h, Option.bind_eq_bind, Option.bind_some]
  cases locate e.iface <;> rfl

end Find

/-! ### The gateways -/

section Gateways

variable {table table' : List RouteEntry} {e req : RouteEntry} {m : RouteMessage} {calls : List RouteCall}

/-- There is one entry for a key, with the gateway that was set last. -/
structure GatewaysSet (calls : List RouteCall) (table : List RouteEntry) : Prop where
  keys : (table.map RouteEntry.key).Nodup
  gateway : ∀ e ∈ table, lastGateway e.key calls = some e.gw

theorem key_eq {r : RouteEntry} :
    r.key = e.key ↔ r.dest = e.dest ∧ r.mask = e.mask ∧ r.iface = e.iface := by
  rw [RouteEntry.key, RouteEntry.key, Prod.mk.injEq, Prod.mk.injEq]

theorem setGateway_some (h : setGateway e table = some table') :
    ∃ l₁ r l₂, table = l₁ ++ r :: l₂ ∧ r.key = e.key ∧ table' = l₁ ++ { r with gw := e.gw } :: l₂ := by
  induction table generalizing table' with
  | nil => cases h
  | cons r table ih =>
      rw [setGateway] at h
      split at h
      · rename_i hkey
        cases h
        exact ⟨[], r, table, rfl, key_eq.mpr hkey, rfl⟩
      · obtain ⟨table₁, h₁, rfl⟩ := Option.map_eq_some_iff.mp h
        obtain ⟨l₁, r', l₂, rfl, hkey, rfl⟩ := ih h₁
        exact ⟨r :: l₁, r', l₂, rfl, hkey, rfl⟩

theorem setGateway_none (h : setGateway e table = none) : e.key ∉ table.map RouteEntry.key := by
  induction table with
  | nil => exact List.not_mem_nil
  | cons r table ih =>
      rw [setGateway] at h
      split at h
      · cases h
      · rename_i hkey
        rw [List.map_cons, List.mem_cons, not_or]
        exact ⟨fun heq => hkey (key_eq.mp heq.symm), ih (Option.map_eq_none_iff.mp h)⟩

/-- `del_route` leaves some of the entries, in their order. -/
theorem unlinkRoutes_sublist (req : RouteEntry) (table : List RouteEntry) :
    (unlinkRoutes req table).Sublist table := by
  fun_induction unlinkRoutes req table with
  | case1 => exact .slnil
  | case2 e _ => exact List.nil_sublist _
  | case3 e _ e' table ih => exact (ih.cons_cons e').cons e
  | case4 e table _ ih => exact ih.cons_cons e

theorem lastGateway_snoc (key : Word × Word × List Byte) (calls : List RouteCall) (call : RouteCall) :
    lastGateway key (calls ++ [call]) =
      match call with
      | .add m => match m.entry with
        | some e => if e.key = key then some e.gw else lastGateway key calls
        | none => lastGateway key calls
      | .del _ => lastGateway key calls := by
  rw [lastGateway, List.foldl_append]
  rfl

theorem lastGateway_add (hm : m.entry = some e) (key : Word × Word × List Byte) :
    lastGateway key (calls ++ [.add m]) = if e.key = key then some e.gw else lastGateway key calls := by
  rw [lastGateway_snoc]
  dsimp only
  rw [hm]

namespace GatewaysSet

/-- The entries of the other keys are not concerned. -/
theorem other (h : GatewaysSet calls table) (hm : m.entry = some e) {x : RouteEntry} (hx : x ∈ table)
    (hne : e.key ≠ x.key) : lastGateway x.key (calls ++ [.add m]) = some x.gw := by
  rw [lastGateway_add hm, if_neg hne]
  exact h.gateway x hx

/-- A new gateway in the entry of its key. -/
theorem replace {l₁ l₂ : List RouteEntry} {r : RouteEntry} (h : GatewaysSet calls (l₁ ++ r :: l₂))
    (hm : m.entry = some e) (hkey : r.key = e.key) :
    GatewaysSet (calls ++ [.add m]) (l₁ ++ { r with gw := e.gw } :: l₂) := by
  have hnodup := h.keys
  rw [List.map_append, List.map_cons, List.nodup_middle, List.nodup_cons, ← List.map_append,
    hkey] at hnodup
  have hne : ∀ x ∈ l₁ ++ l₂, e.key ≠ x.key := fun x hx heq =>
    hnodup.1 (heq ▸ List.mem_map_of_mem hx)
  have hkeys : (l₁ ++ { r with gw := e.gw } :: l₂).map RouteEntry.key =
      (l₁ ++ r :: l₂).map RouteEntry.key := by
    rw [List.map_append, List.map_append, List.map_cons, List.map_cons]
    rfl
  refine ⟨hkeys ▸ h.keys, fun x hx => ?_⟩
  rw [List.mem_append, List.mem_cons] at hx
  rcases hx with hx | rfl | hx
  · exact h.other hm (List.mem_append_left _ hx) (hne x (List.mem_append_left _ hx))
  · rw [lastGateway_add hm]
    exact if_pos hkey.symm
  · exact h.other hm (List.mem_append_right _ (List.mem_cons_of_mem r hx))
      (hne x (List.mem_append_right _ hx))

/-- An entry for a new key. -/
theorem push (h : GatewaysSet calls table) (hm : m.entry = some e)
    (hno : e.key ∉ table.map RouteEntry.key) : GatewaysSet (calls ++ [.add m]) (e :: table) := by
  refine ⟨List.nodup_cons.mpr ⟨hno, h.keys⟩, fun x hx => ?_⟩
  rcases List.mem_cons.mp hx with rfl | hx
  · rw [lastGateway_add hm]
    exact if_pos rfl
  · exact h.other hm hx fun heq => hno (heq ▸ List.mem_map_of_mem hx)

/-- **One call** keeps to the gateways that were set. -/
theorem step (h : GatewaysSet calls table) (call : RouteCall) :
    GatewaysSet (calls ++ [call]) (routeStep table call) := by
  cases call with
  | add m =>
      show GatewaysSet _ (addRoute table m)
      unfold addRoute
      cases hm : m.entry with
      | none =>
          refine ⟨h.keys, fun e he => ?_⟩
          rw [lastGateway_snoc]
          dsimp only
          rw [hm]
          exact h.gateway e he
      | some e =>
          dsimp only
          split
          · rename_i table' hset
            obtain ⟨l₁, r, l₂, rfl, hkey, rfl⟩ := setGateway_some hset
            exact h.replace hm hkey
          · rename_i hset
            exact h.push hm (setGateway_none hset)
  | del m =>
      have hlast : ∀ key, lastGateway key (calls ++ [.del m]) = lastGateway key calls :=
        fun key => lastGateway_snoc key calls _
      have hsub : (delRoute table m).Sublist table := by
        unfold delRoute
        split
        · exact List.Sublist.refl table
        · exact unlinkRoutes_sublist _ table
      refine ⟨h.keys.sublist (hsub.map _), fun x hx => ?_⟩
      rw [hlast]
      exact h.gateway x (hsub.subset hx)

end GatewaysSet

end Gateways

/-! ### Routes that stay -/

section Stays

variable {table : List RouteEntry} {m : RouteMessage} {key : Word × Word × List Byte}

end Stays

/-! ### Route selection -/

section Broadcast

variable {locate : List Byte → Option Interface} {arp : Interface → Word → BitVec 64}
  {table : List RouteEntry} {ip : Word} {onIfc : Option Interface} {e : RouteEntry} {i : Interface}

/-- The test of `find_route`: no mask, and the limited broadcast address. -/
theorem hop_broadcast : e.hop ip = .broadcast ↔ e.mask = 0 ∧ ip = BitVec.allOnes 32 := by
  have htest : ~~~(ip &&& ~~~e.mask) = 0 ↔ e.mask = 0 ∧ ip = BitVec.allOnes 32 := by
    show _ = 0#32 ↔ e.mask = 0#32 ∧ _
    rw [BitVec.not_and, BitVec.not_not, BitVec.or_eq_zero_iff, BitVec.not_eq_comm, BitVec.not_zero]
    exact and_comm
  unfold RouteEntry.hop
  rw [← htest]
  split
  · exact iff_of_true rfl ‹_›
  · exact iff_of_false (fun h => by cases h) ‹_›

/-- **Broadcast detection** works on a route without host bits, for the limited broadcast on a route without
a mask, and for addresses that are no broadcasts at all. -/
theorem broadcast_detected_iff (hbest : bestMatch locate table ip onIfc = some e)
    (hi : locate e.iface = some i) :
    BroadcastDetected locate arp table ip onIfc e ↔ e.mask = BitVec.allOnes 32 ∨
      e.mask = 0 ∧ ip = BitVec.allOnes 32 ∨
        ¬HostBitsSet ip e.mask ∧ arp i (e.nextHop ip) ≠ 0xffffffffffff := by
  have hfind : findRoute locate arp table ip onIfc = _ := findRoute_of_best hbest
  have hyields : (∃ i, findRoute locate arp table ip onIfc = some (i, 0xffffffffffff)) ↔
      (e.hop ip).mac arp i = 0xffffffffffff := by
    rw [hfind, hi]
    simp
  unfold BroadcastDetected
  rw [hyields]
  by_cases hhosts : e.mask = BitVec.allOnes 32
  · exact iff_of_true (fun hmask => absurd hhosts hmask) (.inl hhosts)
  rw [or_iff_right hhosts, forall_prop_of_true hhosts]
  by_cases hlimited : e.mask = 0 ∧ ip = BitVec.allOnes 32
  · have hhop := hop_broadcast.mpr hlimited
    have hhost : HostBitsSet ip e.mask := by
      rw [HostBitsSet, hlimited.1, hlimited.2]
      decide
    exact iff_of_true ⟨iff_of_true (by rw [hhop]; rfl) hhost, fun _ => hhop⟩ (.inl hlimited)
  · have hno := mt hop_broadcast.mp hlimited
    have hhop : e.hop ip = .lookup (e.nextHop ip) := by
      unfold RouteEntry.hop at hno ⊢
      split at hno
      · exact absurd rfl hno
      · exact if_neg ‹_›
    have hmac : (e.hop ip).mac arp i = arp i (e.nextHop ip) := by rw [hhop, Hop.mac]
    rw [hmac, or_iff_right hlimited]
    refine ⟨fun h => ?_, fun h => ⟨iff_of_false h.2 h.1, fun hhost => absurd hhost h.1⟩⟩
    have hhost : ¬HostBitsSet ip e.mask := fun hhost => hno (h.2 hhost)
    exact ⟨hhost, fun heq => hhost (h.1.mp heq)⟩

/-- A route to a subnet, and an address that is looked up. -/
theorem broadcast_detected_host : BroadcastDetected (fun _ => some ⟨0, 0⟩) (fun _ _ => 2)
    [⟨0xC0A80100, 0xFFFFFF00, 0, []⟩] 0xC0A80105 none ⟨0xC0A80100, 0xFFFFFF00, 0, []⟩ :=
  (broadcast_detected_iff (i := ⟨0, 0⟩) (by decide) rfl).mpr
    (.inr (.inr ⟨by unfold HostBitsSet; decide, by decide⟩))

/-- The last address of the subnet is looked up as well. -/
theorem broadcast_missed : ¬BroadcastDetected (fun _ => some ⟨0, 0⟩) (fun _ _ => 2)
    [⟨0xC0A80100, 0xFFFFFF00, 0, []⟩] 0xC0A801FF none ⟨0xC0A80100, 0xFFFFFF00, 0, []⟩ := by
  intro h
  have hhop := (h (by decide)).2 (by unfold HostBitsSet; decide)
  revert hhop
  decide

end Broadcast

/-! ### `del_route` -/

/-- An entry that is kept has nothing to do with the next one. -/
theorem isChain_cons_kept {p : RouteEntry → Bool} {e : RouteEntry} (h : p e = false) {table : List RouteEntry} :
    (e :: table).IsChain (fun e e' => ¬(p e = true ∧ p e' = true)) ↔
      table.IsChain fun e e' => ¬(p e = true ∧ p e' = true) := by
  cases table with
  | nil => exact iff_of_true (.singleton e) .nil
  | cons e' table =>
      rw [List.isChain_cons_cons, h]
      exact and_iff_right fun h' => Bool.false_ne_true h'.1

theorem unlinkRoutes_iff (req : RouteEntry) (table : List RouteEntry) :
    unlinkRoutes req table = table.filter (fun e => !req.requested e) ↔
      table.IsChain fun e e' => ¬(req.requested e = true ∧ req.requested e' = true) := by
  fun_induction unlinkRoutes req table with
  | case1 => exact iff_of_true rfl .nil
  | case2 e he => exact iff_of_true (by simp [he]) (.singleton e)
  | case3 e he e' table ih =>
      rw [List.isChain_cons_cons, List.filter_cons_of_neg (by simp [he])]
      cases he' : req.requested e' with
      | true =>
          refine iff_of_false (fun heq => ?_) fun h => h.1 ⟨he, rfl⟩
          have hmem : e' ∈ (e' :: table).filter fun e => !req.requested e := heq ▸ List.mem_cons_self
          have hkept := (List.mem_filter.mp hmem).2
          rw [he'] at hkept
          cases hkept
      | false =>
          have hrest : (e' :: table).IsChain (fun e e' => ¬(req.requested e = true ∧ req.requested e' = true)) ↔
              table.IsChain fun e e' => ¬(req.requested e = true ∧ req.requested e' = true) :=
            isChain_cons_kept he'
          rw [List.filter_cons_of_pos (by simp [he']), List.cons_inj_right, ih, hrest]
          exact (and_iff_right fun h => Bool.false_ne_true h.2).symm
  | case4 e table he ih =>
      rw [Bool.not_eq_true] at he
      rw [List.filter_cons_of_pos (by simp [he]), List.cons_inj_right, ih, isChain_cons_kept he]

/-- **Route deletion** is complete exactly if no two entries in a row are to be deleted. -/
theorem del_route_complete_iff (table : List RouteEntry) (m : RouteMessage) :
    delRoute table m = table.filter (fun e => !m.requests e) ↔
      table.IsChain fun e e' => ¬(m.requests e = true ∧ m.requests e' = true) := by
  unfold delRoute RouteMessage.requests
  cases m.entry with
  | none =>
      refine iff_of_true (by simp) ?_
      induction table with
      | nil => exact .nil
      | cons e table ih => exact (isChain_cons_kept (p := fun _ => false) rfl).mpr ih
  | some req => exact unlinkRoutes_iff req table

/-- Two default routes of one interface. -/
theorem del_route_skips : delRoute [⟨0, 0, 1, [101]⟩, ⟨0, 1, 0, [101]⟩] ⟨0, 0, 0, [101, 0]⟩ ≠
    [⟨0, 0, 1, [101]⟩, ⟨0, 1, 0, [101]⟩].filter
      fun e => !RouteMessage.requests ⟨0, 0, 0, [101, 0]⟩ e := by
  decide

end Muxomucota.Net
