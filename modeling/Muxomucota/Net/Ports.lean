import Muxomucota.Net.Tcp
import Muxomucota.Net.Udp
import Muxomucota.Lib.Runs
import Mathlib.Data.List.Nodup
import Mathlib.Logic.Function.Iterate

/-!
# Net — the local ports

`get_user_port` is the same in `tcp.c` and `udp.c`: a counter that goes round, without a look at the
ports that are in use.  A connection is kept in a list, so a pipe is named by its place there.  An
attempt to connect that fails is a creation and a destruction.
-/

namespace Muxomucota.Net
open Lib

variable {κ : Type} {port : κ → Half} {make : Nat → Word × Half → Half → κ}

/-- The part of a service that hands out ports. -/
structure PortService (κ : Type) where
  portCounter : Half
  connections : List κ

/-- `get_user_port`: the port, and the counter afterwards. -/
def getUserPort (portCounter : Half) : Half × Half :=
  if portCounter < 0xffff then (portCounter, portCounter + 1) else (portCounter, 1024)

/-- What `service_create_pipe` of the TCP service makes; `id` is its address. -/
def newTcpConnection (id : Nat) (dest : Word × Half) (port : Half) : TcpConnection :=
  { id, ip := 0, destIp := dest.1, port, destPort := dest.2, status := .closed, seq := 0, ack := 0,
    owner := -1, signal := false, window := defaultWindow, inqueue := [], outqueue := [] }

/-- What `service_create_pipe` of the UDP service makes. -/
def newUdpConnection (_ : Nat) (dest : Word × Half) (port : Half) : UdpConnection :=
  { destIp := dest.1, port, destPort := dest.2, inqueue := [] }

/-- Creations and destructions of pipes. -/
inductive PipeOp where
  /-- `service_create_pipe`; a path that names no destination is `none` -/
  | create (id : Nat) (dest : Option (Word × Half))
  /-- `service_destroy_pipe` of the pipe at a place in the list -/
  | destroy (i : Nat)

/-- One call of a service whose connections `make` makes. -/
def pipeStep (make : Nat → Word × Half → Half → κ) (s : PortService κ) :
    PipeOp → Option (PortService κ)
  | .create _ none => some s
  | .create id (some dest) =>
      let r := getUserPort s.portCounter
      some { portCounter := r.2, connections := make id dest r.1 :: s.connections }
  | .destroy i =>
      if i < s.connections.length then some { s with connections := s.connections.eraseIdx i }
      else none

/-- The pipes of the TCP service. -/
def tcpPipeStep : PortService TcpConnection → PipeOp → Option (PortService TcpConnection) :=
  pipeStep newTcpConnection

/-- The pipes of the UDP service. -/
def udpPipeStep : PortService UdpConnection → PipeOp → Option (PortService UdpConnection) :=
  pipeStep newUdpConnection

/-- A service when it starts. -/
def PortService.start : PortService κ := { portCounter := 1024, connections := [] }

/-- No two connections have the same port. -/
def PortService.Unique (port : κ → Half) (s : PortService κ) : Prop :=
  (s.connections.map port).Nodup

/-- A pipe is created only when the port whose turn it is is free. -/
def PortFree (port : κ → Half) (s : PortService κ) : PipeOp → Prop
  | .create _ (some _) => ∀ c ∈ s.connections, port c ≠ s.portCounter
  | _ => True

theorem getUserPort_fst (n : Half) : (getUserPort n).1 = n := by
  unfold getUserPort
  split <;> rfl

/-- A creation keeps the ports apart exactly if the port whose turn it is is free. -/
theorem unique_create {s s' : PortService κ} {id : Nat} {dest : Word × Half}
    (hmake : ∀ id d p, port (make id d p) = p) (h : s.Unique port)
    (hs : pipeStep make s (.create id (some dest)) = some s') :
    s'.Unique port ↔ PortFree port s (.create id (some dest)) := by
  cases hs
  simp only [PortService.Unique, List.map_cons, hmake, getUserPort_fst, List.nodup_cons,
    List.mem_map, not_exists, not_and, PortFree, and_iff_left_iff_imp]
  exact fun _ => h

theorem unique_step {s s' : PortService κ} {op : PipeOp} (hmake : ∀ id d p, port (make id d p) = p)
    (h : s.Unique port) (ok : PortFree port s op) (hs : pipeStep make s op = some s') :
    s'.Unique port := by
  cases op with
  | create id dest =>
      cases dest with
      | none => cases hs; exact h
      | some dest => exact (unique_create hmake h hs).mpr ok
  | destroy i =>
      rw [pipeStep] at hs
      split at hs
      · cases hs
        exact h.sublist ((List.eraseIdx_sublist _ _).map port)
      · cases hs

theorem unique_run {s : PortService κ} {ops : List PipeOp}
    (hmake : ∀ id d p, port (make id d p) = p)
    (h : Run (pipeStep make) (PortFree port) .start ops s) : s.Unique port :=
  h.invariant (fun _ _ _ hi ok hs => unique_step hmake hi ok hs) List.nodup_nil

/-- **Ports are unique** in the TCP and in the UDP service, in every run that creates a pipe only when
the port whose turn it is is free. -/
theorem ports_unique (ops ops' : List PipeOp) (s : PortService TcpConnection)
    (t : PortService UdpConnection) :
    (Run tcpPipeStep (PortFree TcpConnection.port) .start ops s → s.Unique TcpConnection.port) ∧
    (Run udpPipeStep (PortFree UdpConnection.port) .start ops' t →
      t.Unique UdpConnection.port) := by
  have htcp : ∀ id d p, TcpConnection.port (newTcpConnection id d p) = p := fun _ _ _ => rfl
  have hudp : ∀ id d p, UdpConnection.port (newUdpConnection id d p) = p := fun _ _ _ => rfl
  exact ⟨fun h => unique_run htcp h, fun h => unique_run hudp h⟩

/-- Two pipes of each service. -/
theorem ports_unique_two : ∃ s t,
    Run tcpPipeStep (PortFree TcpConnection.port) .start
      [.create 0 (some (0, 0)), .create 1 (some (0, 0))] s ∧ s.Unique TcpConnection.port ∧
    Run udpPipeStep (PortFree UdpConnection.port) .start
      [.create 0 (some (0, 0)), .create 1 (some (0, 0))] t ∧ t.Unique UdpConnection.port := by
  have hrun₁ : Run tcpPipeStep (PortFree TcpConnection.port) .start
      [.create 0 (some (0, 0)), .create 1 (some (0, 0))] _ :=
    .more (fun c hc => by cases hc) rfl (.more (by unfold PortFree; decide) rfl (.refl _))
  have hrun₂ : Run udpPipeStep (PortFree UdpConnection.port) .start
      [.create 0 (some (0, 0)), .create 1 (some (0, 0))] _ :=
    .more (fun c hc => by cases hc) rfl (.more (by unfold PortFree; decide) rfl (.refl _))
  exact ⟨_, _, hrun₁, (ports_unique _ [] _ .start).1 hrun₁, hrun₂,
    (ports_unique [] _ .start _).2 hrun₂⟩

/-! ### Once around -/

/-- The counter after `k` allocations. -/
def counterAfter (k : Nat) : Half := .ofNat 16 (1024 + k % 64512)

theorem getUserPort_counter (k : Nat) :
    (getUserPort (counterAfter k)).2 = counterAfter (k + 1) := by
  have hmod : (k + 1) % 64512 = if k % 64512 = 64511 then 0 else k % 64512 + 1 := by
    split <;> omega
  have hlt : counterAfter k < 0xffff ↔ k % 64512 ≠ 64511 := by
    rw [BitVec.lt_def, counterAfter, BitVec.toNat_ofNat]
    have : (0xffff : Half).toNat = 65535 := rfl
    omega
  rw [getUserPort]
  split
  · rename_i h
    rw [counterAfter, counterAfter, hmod, if_neg (hlt.mp h)]
    apply BitVec.eq_of_toNat_eq
    have : (1 : Half).toNat = 1 := rfl
    simp only [BitVec.toNat_add, BitVec.toNat_ofNat]
    omega
  · rename_i h
    rw [hlt, not_not] at h
    show (1024 : Half) = counterAfter (k + 1)
    rw [counterAfter, hmod, if_pos h]
    rfl

/-- Short-lived connections beside a long-lived one. -/
theorem short_lived (c : TcpConnection) (k n : Nat) :
    ∃ ops, Run tcpPipeStep (fun s _ => s.connections.length < 64512)
      ⟨counterAfter k, [c]⟩ ops ⟨counterAfter (k + n), [c]⟩ := by
  induction n with
  | zero => exact ⟨[], .refl _⟩
  | succ n ih =>
      obtain ⟨ops, h⟩ := ih
      have hcreate : tcpPipeStep ⟨counterAfter (k + n), [c]⟩ (.create 1 (some (0, 0))) =
          some ⟨counterAfter (k + n + 1), [newTcpConnection 1 (0, 0) (counterAfter (k + n)), c]⟩ := by
        simp only [tcpPipeStep, pipeStep, getUserPort_counter, getUserPort_fst]
      have hone : [c].length < 64512 := by simp
      refine ⟨ops ++ [.create 1 (some (0, 0))] ++ [.destroy 0], (h.snoc hone hcreate).snoc ?_ rfl⟩
      simp

/-- After 64512 creations a connection that is still open shares its port with a new one. -/
theorem port_twice : ¬ ∀ (ops : List PipeOp) (s : PortService TcpConnection),
    Run tcpPipeStep (fun s _ => s.connections.length < 64512) .start ops s →
      s.Unique TcpConnection.port := by
  intro hall
  obtain ⟨ops, h⟩ := short_lived (newTcpConnection 0 (0, 0) 1024) 1 64511
  have hfirst : tcpPipeStep .start (.create 0 (some (0, 0))) =
      some ⟨counterAfter 1, [newTcpConnection 0 (0, 0) 1024]⟩ := rfl
  have hlast : tcpPipeStep ⟨counterAfter (1 + 64511), [newTcpConnection 0 (0, 0) 1024]⟩
      (.create 2 (some (0, 0))) = some ⟨counterAfter 64513,
        [newTcpConnection 2 (0, 0) 1024, newTcpConnection 0 (0, 0) 1024]⟩ := rfl
  have hrun := (Run.more (by decide) hfirst h).snoc (by simp) hlast
  have := hall _ _ hrun
  simp [PortService.Unique, newTcpConnection] at this

end Muxomucota.Net
