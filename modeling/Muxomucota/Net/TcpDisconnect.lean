import Muxomucota.Lib.Runs
import Muxomucota.Net.TcpPackets

/-!
# Net — closing a TCP connection

`tcp_disconnect`, step by step, while segments come in.  Each access to the volatile status is a step
of its own, and so is each half of `flush_all_queues`.  A segment comes in between two steps as a
whole.

Two things are left over when it returns: a connection that listens goes on listening, and what was in
the output queue is never freed.
-/

namespace Muxomucota.Net
open Lib

/-- Where `tcp_disconnect` is; both ends of it send a RST and close the connection. -/
inductive DisconnectPc where
  | flushIn | flushOut | notClosed | notListen | synSent | synRcvd
  | isOpen | setFinSent | isFinRcvd | setClosed | sendFin
  | timer | waitClosed (timeout : Int) | waitTime (timeout : Int) | lastCheck
  | sendRst | close | done
  deriving DecidableEq

/-- A connection, and where `tcp_disconnect` is with it. -/
structure Disconnecting where
  pc : DisconnectPc
  session : Session

/-- A step of `tcp_disconnect`, when `elapsed_ms` is `now`. -/
def disconnectStep (now : Int) (s : Session) : DisconnectPc → Option Disconnecting
  | .flushIn => some ⟨.flushOut, s.flushInqueue⟩
  | .flushOut => some ⟨.notClosed, s.flushOutqueue⟩
  | .notClosed => some ⟨if s.conn.status = .closed then .done else .notListen, s⟩
  | .notListen => some ⟨if s.conn.status = .listen then .done else .synSent, s⟩
  | .synSent => some ⟨if s.conn.status = .synSent then .sendRst else .synRcvd, s⟩
  | .synRcvd => some ⟨if s.conn.status = .synRcvd then .sendRst else .isOpen, s⟩
  | .isOpen => some ⟨if s.conn.status = .opened then .setFinSent else .isFinRcvd, s⟩
  | .setFinSent => some ⟨.sendFin, s.setStatus .finSent⟩
  | .isFinRcvd => some ⟨if s.conn.status = .finRcvd then .setClosed else .sendFin, s⟩
  | .setClosed => some ⟨.sendFin, s.setStatus .closed⟩
  | .sendFin => some ⟨.timer, (s.sendTcpPacket now (tcpFin ||| tcpAck) []).1⟩
  | .timer => some ⟨.waitClosed (now + rtt), s⟩
  | .waitClosed timeout => some ⟨if s.conn.status = .closed then .lastCheck else .waitTime timeout, s⟩
  | .waitTime timeout => some ⟨if now < timeout then .waitClosed timeout else .lastCheck, s⟩
  | .lastCheck => some ⟨if s.conn.status = .closed then .done else .sendRst, s⟩
  | .sendRst => some ⟨.close, (s.sendTcpPacket now tcpRst []).1⟩
  | .close => some ⟨.done, s.setStatus .closed⟩
  | .done => none

/-- What happens: a step, or a segment for the connection. -/
inductive DisconnectEvent where
  | run (now : Int)
  | segment (now : Int) (seg : Segment)

namespace Disconnecting

/-- The run ends with the return. -/
def step (d : Disconnecting) : DisconnectEvent → Option Disconnecting
  | .run now => disconnectStep now d.session d.pc
  | .segment now seg =>
      if d.pc = .done then none
      else (d.session.incomingAt now seg).map fun r => ⟨d.pc, r.1⟩

end Disconnecting

/-- The packets of the two queues. -/
def Session.queued (s : Session) : List Nat := addrs s.inqueue ++ addrs s.outqueue

/-- The packets of a connection are at different addresses, and none has been freed. -/
structure Session.Fresh (s : Session) : Prop where
  nodup : s.queued.Nodup
  below : ∀ a ∈ s.queued, a < s.next
  unfreed : ∀ a ∈ s.queued, a ∉ s.freed

/-- What should be left when `tcp_disconnect` returns: a closed connection, none of the packets in
`old` in a queue, and each of them freed once. -/
structure Disconnected (old : List Nat) (s : Session) : Prop where
  closed : s.conn.status = .closed
  unqueued : ∀ a ∈ old, a ∉ s.queued
  freed : ∀ a ∈ old, s.freed.count a = 1

/-- The condition: the connection does not listen when that is asked, and none of the packets is in the
output queue when it is flushed, here or because of a RST. -/
def Settles (old : List Nat) (d : Disconnecting) : DisconnectEvent → Prop
  | .run _ => (d.pc = .flushOut → ∀ a ∈ old, a ∉ addrs d.session.outqueue) ∧
      (d.pc = .notListen → d.session.conn.status ≠ .listen)
  | .segment _ seg => ∀ a ∈ old, a ∉ d.session.dropped seg

/-! ### One step -/

/-- What all states of a run have in common. -/
structure DisconnectInv (old : List Nat) (d : Disconnecting) : Prop where
  below : ∀ a ∈ old, a < d.session.next
  once : ∀ a ∈ old, d.session.count a ≤ 1
  inq : d.pc ≠ .flushIn → ∀ a ∈ old, a ∉ addrs d.session.inqueue
  outq : d.pc ≠ .flushIn → d.pc ≠ .flushOut → ∀ a ∈ old, a ∉ addrs d.session.outqueue

/-- Nothing has gone wrong so far. -/
structure OnCourse (old : List Nat) (d : Disconnecting) : Prop where
  count : ∀ a ∈ old, d.session.count a = 1
  closed : d.pc = .done → d.session.conn.status = .closed

/-- A step of `tcp_disconnect` behind the flushing. -/
structure LaterStep (d d' : Disconnecting) : Prop where
  moved : ∀ a < d.session.next, d.session.Moved a 0 d'.session
  pc : d'.pc ≠ .flushIn ∧ d'.pc ≠ .flushOut
  closed : d'.pc = .done → (d'.session.conn.status = .closed ↔
    ¬ (d.pc = .notListen ∧ d.session.conn.status = .listen))
  listens : d.pc = .notListen → d.session.conn.status = .listen → d'.pc = .done

variable {old : List Nat} {d d' : Disconnecting} {s : Session} {pc pc' : DisconnectPc} {now : Int}
  {seg : Segment} {e : DisconnectEvent}

/-- A step that only goes on. -/
theorem LaterStep.goes (hpc : pc' ≠ .flushIn ∧ pc' ≠ .flushOut) (hdone : pc' ≠ .done)
    (hlisten : pc = .notListen → s.conn.status ≠ .listen) : LaterStep ⟨pc, s⟩ ⟨pc', s⟩ where
  moved a _ := .refl a s
  pc := hpc
  closed h := absurd h hdone
  listens h₁ h₂ := absurd h₂ (hlisten h₁)

/-- A step that sets the status and goes on. -/
theorem LaterStep.sets (status : TcpStatus) (hpc : pc' ≠ .flushIn ∧ pc' ≠ .flushOut)
    (hclosed : pc' = .done → status = .closed) (hlisten : pc ≠ .notListen) :
    LaterStep ⟨pc, s⟩ ⟨pc', s.setStatus status⟩ where
  moved a _ := .of_conn a s _
  pc := hpc
  closed h := iff_of_true (hclosed h) fun hc => hlisten hc.1
  listens h := absurd h hlisten

/-- A step that sends a packet and goes on. -/
theorem LaterStep.sends (now : Int) (flags : Byte) (hpc : pc' ≠ .flushIn ∧ pc' ≠ .flushOut)
    (hdone : pc' ≠ .done) (hlisten : pc ≠ .notListen) :
    LaterStep ⟨pc, s⟩ ⟨pc', (s.sendTcpPacket now flags []).1⟩ where
  moved _ ha := Session.sendTcpPacket_moved now flags [] ha
  pc := hpc
  closed h := absurd h hdone
  listens h := absurd h hlisten

/-- A step that finds the connection closed and returns. -/
theorem LaterStep.returns (hclosed : s.conn.status = .closed) (hlisten : pc ≠ .notListen) :
    LaterStep ⟨pc, s⟩ ⟨.done, s⟩ where
  moved a _ := .refl a s
  pc := by simp
  closed _ := iff_of_true hclosed fun hc => hlisten hc.1
  listens h := absurd h hlisten

theorem disconnectStep_later (hin : pc ≠ .flushIn) (hout : pc ≠ .flushOut)
    (h : disconnectStep now s pc = some d') : LaterStep ⟨pc, s⟩ d' := by
  cases pc with
  | flushIn => exact absurd rfl hin
  | flushOut => exact absurd rfl hout
  | done => cases h
  | notClosed =>
      cases h
      split
      · rename_i hclosed
        exact .returns hclosed (by decide)
      · exact .goes (by decide) (by decide) (by simp)
  | notListen =>
      cases h
      split
      · rename_i hlisten
        refine ⟨fun a _ => .refl a s, by simp, fun _ => ?_, fun _ _ => rfl⟩
        exact iff_of_false (fun hc => by rw [hlisten] at hc; cases hc) fun hc => hc ⟨rfl, hlisten⟩
      · rename_i hlisten
        exact .goes (by decide) (by decide) fun _ => hlisten
  | synSent | synRcvd | isOpen | isFinRcvd | waitClosed _ | waitTime _ =>
      cases h
      split
      · exact .goes (by simp) (by simp) (by simp)
      · exact .goes (by simp) (by simp) (by simp)
  | lastCheck =>
      cases h
      split
      · rename_i hclosed
        exact .returns hclosed (by decide)
      · exact .goes (by decide) (by decide) (by simp)
  | setFinSent | setClosed =>
      cases h
      exact .sets _ (by decide) (by decide) (by decide)
  | close =>
      cases h
      exact .sets _ (by decide) (fun _ => rfl) (by decide)
  | sendFin | sendRst =>
      cases h
      exact .sends now _ (by decide) (by decide) (by decide)
  | timer =>
      cases h
      exact .goes (by simp) (by simp) (by simp)

/-- What a step that drops `lost` means for the packets. -/
theorem DisconnectInv.moved {lost : Nat → Nat} (h : DisconnectInv old d) (d' : Disconnecting)
    (hm : ∀ a ∈ old, d.session.Moved a (lost a) d'.session)
    (hin : d'.pc ≠ .flushIn → d.pc = .flushIn → ∀ a ∈ old, a ∉ addrs d'.session.inqueue)
    (hout : d'.pc ≠ .flushIn → d'.pc ≠ .flushOut → d.pc = .flushIn ∨ d.pc = .flushOut →
      ∀ a ∈ old, a ∉ addrs d'.session.outqueue) :
    DisconnectInv old d' ∧ ((∀ a ∈ old, d'.session.count a = 1) ↔
      (∀ a ∈ old, d.session.count a = 1) ∧ ∀ a ∈ old, lost a = 0) := by
  refine ⟨⟨fun a ha => ?_, fun a ha => ?_, fun hpc a ha => ?_, fun hpc hpc' a ha => ?_⟩, ?_⟩
  · exact (h.below a ha).trans_le (hm a ha).next
  · have hcount := (hm a ha).count
    have hle := h.once a ha
    omega
  · by_cases hfirst : d.pc = .flushIn
    · exact hin hpc hfirst a ha
    · exact fun hq => h.inq hfirst a ha ((hm a ha).inq hq)
  · by_cases hflush : d.pc = .flushIn ∨ d.pc = .flushOut
    · exact hout hpc hpc' hflush a ha
    · exact fun hq => h.outq (fun hc => hflush (.inl hc)) (fun hc => hflush (.inr hc)) a ha
        ((hm a ha).outq hq)
  · constructor
    · intro hone
      have hboth : ∀ a ∈ old, d.session.count a = 1 ∧ lost a = 0 := fun a ha => by
        have hcount := (hm a ha).count
        have hle := h.once a ha
        have h₁ := hone a ha
        omega
      exact ⟨fun a ha => (hboth a ha).1, fun a ha => (hboth a ha).2⟩
    · rintro ⟨hone, hlost⟩ a ha
      have hcount := (hm a ha).count
      have h₁ := hone a ha
      have h₂ := hlost a ha
      omega

/-- A step keeps the invariant, and stays on course if and only if it meets the condition. -/
theorem disconnect_step (h : DisconnectInv old d) (hs : d.step e = some d') :
    DisconnectInv old d' ∧ (OnCourse old d' ↔ OnCourse old d ∧ Settles old d e) := by
  cases e with
  | segment now seg =>
      rw [Disconnecting.step] at hs
      split at hs
      · cases hs
      rename_i hdone
      obtain ⟨⟨s', out⟩, hinc, heq⟩ := Option.map_eq_some_iff.mp hs
      cases heq
      obtain ⟨hinv, hcount⟩ := h.moved ⟨d.pc, s'⟩
        (fun a ha => Session.incomingAt_moved (h.below a ha) hinc)
        (fun h₁ h₂ => absurd h₂ h₁) fun h₁ h₂ h₃ => absurd h₃ (not_or.mpr ⟨h₁, h₂⟩)
      refine ⟨hinv, fun hc => ?_, fun hc => ?_⟩
      · obtain ⟨hone, hlost⟩ := hcount.mp hc.count
        exact ⟨⟨hone, fun hpc => absurd hpc hdone⟩, fun a ha => List.count_eq_zero.mp (hlost a ha)⟩
      · refine ⟨hcount.mpr ⟨hc.1.count, fun a ha => List.count_eq_zero.mpr (hc.2 a ha)⟩,
          fun hpc => absurd hpc hdone⟩
  | run now =>
      have hs : disconnectStep now d.session d.pc = some d' := hs
      by_cases hin : d.pc = .flushIn
      · rw [hin] at hs
        cases hs
        obtain ⟨hinv, hcount⟩ := h.moved ⟨.flushOut, d.session.flushInqueue⟩
          (fun a _ => Session.flushInqueue_moved a d.session) (fun _ _ _ _ => List.not_mem_nil)
          fun _ h₂ => absurd rfl h₂
        refine ⟨hinv, fun hc => ⟨⟨(hcount.mp hc.count).1, fun hpc => ?_⟩, ?_⟩, fun hc => ?_⟩
        · rw [hin] at hpc
          cases hpc
        · rw [Settles, hin]
          exact ⟨fun hpc => (by cases hpc), fun hpc => (by cases hpc)⟩
        · exact ⟨hcount.mpr ⟨hc.1.count, fun _ _ => rfl⟩, fun hpc => (by cases hpc)⟩
      by_cases hout : d.pc = .flushOut
      · rw [hout] at hs
        cases hs
        obtain ⟨hinv, hcount⟩ := h.moved ⟨.notClosed, d.session.flushOutqueue⟩
          (fun a ha => Session.flushOutqueue_moved (h.inq hin a ha))
          (fun _ h₂ => absurd h₂ hin) fun _ _ _ _ _ => List.not_mem_nil
        refine ⟨hinv, fun hc => ?_, fun hc => ?_⟩
        · obtain ⟨hone, hlost⟩ := hcount.mp hc.count
          refine ⟨⟨hone, fun hpc => ?_⟩, fun _ a ha => List.count_eq_zero.mp (hlost a ha), fun hpc => ?_⟩
          · rw [hout] at hpc
            cases hpc
          · rw [hout] at hpc
            cases hpc
        · refine ⟨hcount.mpr ⟨hc.1.count, fun a ha => ?_⟩, fun hpc => (by cases hpc)⟩
          exact List.count_eq_zero.mpr (hc.2.1 hout a ha)
      -- the rest moves no packet that was there before
      have hl := disconnectStep_later hin hout hs
      have hnot : d.pc ≠ .done := fun hpc => by
        rw [hpc] at hs
        cases hs
      obtain ⟨hinv, hcount⟩ := h.moved d' (fun a ha => hl.moved a (h.below a ha))
        (fun _ h₂ => absurd h₂ hin) fun _ _ h₃ => absurd h₃ (not_or.mpr ⟨hin, hout⟩)
      refine ⟨hinv, fun hc => ?_, fun hc => ?_⟩
      · refine ⟨⟨(hcount.mp hc.count).1, fun hpc => absurd hpc hnot⟩, fun hpc => absurd hpc hout,
          fun hpc hlisten => ?_⟩
        have hdone := hl.listens hpc hlisten
        exact (hl.closed hdone).mp (hc.closed hdone) ⟨hpc, hlisten⟩
      · exact ⟨hcount.mpr ⟨hc.1.count, fun _ _ => rfl⟩,
          fun hdone => (hl.closed hdone).mpr fun hpc => hc.2.2 hpc.1 hpc.2⟩

/-! ### From the call to the return -/

theorem disconnectInv_start (h : s.Fresh) :
    DisconnectInv s.queued ⟨.flushIn, s⟩ ∧ OnCourse s.queued ⟨.flushIn, s⟩ := by
  have hone : ∀ a ∈ s.queued, s.count a = 1 := fun a ha => by
    rw [Session.count, ← List.count_append, List.count_eq_zero.mpr (h.unfreed a ha), Nat.add_zero]
    exact List.count_eq_one_of_mem h.nodup ha
  refine ⟨⟨h.below, fun a ha => (hone a ha).le, fun hpc => absurd rfl hpc, fun hpc => absurd rfl hpc⟩,
    hone, fun hpc => ?_⟩
  cases hpc

/-- **tcp_disconnect**: a run from the call to the return leaves what it should if and only if all of its
steps met the condition. -/
theorem tcp_disconnect_iff {s : Session} {events : List DisconnectEvent} {d : Disconnecting}
    (hfresh : s.Fresh) (hrun : Run Disconnecting.step anyStep ⟨.flushIn, s⟩ events d)
    (hdone : d.pc = .done) :
    Disconnected s.queued d.session ↔
      Run Disconnecting.step (Settles s.queued) ⟨.flushIn, s⟩ events d := by
  obtain ⟨hinv₀, hgood₀⟩ := disconnectInv_start hfresh
  obtain ⟨hinv, hiff⟩ := hrun.keeps_iff (fun d e d' hd hs => disconnect_step hd hs) hinv₀
  have hq : ∀ a ∈ s.queued, a ∉ d.session.queued := fun a ha hm => by
    rcases List.mem_append.mp hm with hm | hm
    · exact hinv.inq (by rw [hdone]; decide) a ha hm
    · exact hinv.outq (by rw [hdone]; decide) (by rw [hdone]; decide) a ha hm
  have hcount : ∀ a ∈ s.queued, d.session.count a = d.session.freed.count a := fun a ha => by
    have hno := hq a ha
    rw [Session.queued, List.mem_append, not_or] at hno
    rw [Session.count, List.count_eq_zero.mpr hno.1, List.count_eq_zero.mpr hno.2]
    omega
  refine Iff.trans ⟨fun hd => ?_, fun hc => ?_⟩ (hiff.trans (and_iff_right hgood₀))
  · exact ⟨fun a ha => (hcount a ha).trans (hd.freed a ha), fun _ => hd.closed⟩
  · exact ⟨hc.closed hdone, hq, fun a ha => (hcount a ha).symm.trans (hc.count a ha)⟩

/-! ### A connection with one packet -/

/-- A connection with these queues. -/
def disconnectFrom (status : TcpStatus) (inqueue outqueue : List AllocPacket) : Session where
  conn := { id := 1, ip := 1, destIp := 2, port := 1024, destPort := 80, status, seq := 1, ack := 0,
            owner := -1, signal := false, window := defaultWindow, inqueue := [], outqueue := [] }
  inqueue := inqueue
  outqueue := outqueue
  next := 1
  freed := []

/-- A packet with one byte. -/
def oneBytePacket : AllocPacket where
  addr := 0
  packet := { lastTimeSent := 0, seqEnd := 1, readOffset := 0
              packet := { srcPort := 80, destPort := 1024, seq := 0, ack := 0, hdrlen := 0x50, flags := 0,
                          window := 0, checksum := 0, urgentptr := 0, rest := [0x61] } }

theorem settles_run (old : List Nat) (d : Disconnecting) (now : Int) (h₁ : d.pc ≠ .flushOut)
    (h₂ : d.pc ≠ .notListen) : Settles old d (.run now) :=
  ⟨fun h => absurd h h₁, fun h => absurd h h₂⟩

/-- A connection that waits for an answer, with a packet in its input queue. -/
theorem tcp_disconnect_opening : ∃ d,
    Run Disconnecting.step anyStep ⟨.flushIn, disconnectFrom .synSent [oneBytePacket] []⟩
      (List.replicate 7 (.run 0)) d ∧ d.pc = .done ∧
      Disconnected (disconnectFrom .synSent [oneBytePacket] []).queued d.session := by
  have hfresh : (disconnectFrom .synSent [oneBytePacket] []).Fresh :=
    ⟨by decide, by decide, by decide⟩
  obtain ⟨d, hrun, hdone⟩ : ∃ d, Run Disconnecting.step
      (Settles (disconnectFrom .synSent [oneBytePacket] []).queued)
      ⟨.flushIn, disconnectFrom .synSent [oneBytePacket] []⟩ (List.replicate 7 (.run 0)) d ∧
        d.pc = .done := by
    have hother := fun d => settles_run (disconnectFrom .synSent [oneBytePacket] []).queued d 0
    exact ⟨_, .more (hother _ (by decide) (by decide)) rfl <|
      .more ⟨fun _ _ _ => List.not_mem_nil, fun h => absurd h (by decide)⟩ rfl <|
      .more (hother _ (by decide) (by decide)) rfl <|
      .more ⟨fun h => absurd h (by decide), fun _ => by decide⟩ rfl <|
      .more (hother _ (by decide) (by decide)) rfl <|
      .more (hother _ (by decide) (by decide)) rfl <|
      .one (hother _ (by decide) (by decide)) rfl, rfl⟩
  have hany := hrun.mono (fun _ _ _ => trivial : ∀ d e, Settles _ d e → anyStep d e)
  exact ⟨d, hany, hdone, (tcp_disconnect_iff hfresh hany hdone).mpr hrun⟩

/-- The same with the packet in the output queue, where it is never freed; and a connection without
packets that listens, and goes on listening. -/
theorem disconnect_leaves_over :
    (∃ d, Run Disconnecting.step anyStep ⟨.flushIn, disconnectFrom .synSent [] [oneBytePacket]⟩
      (List.replicate 7 (.run 0)) d ∧ d.pc = .done ∧
      ¬ Disconnected (disconnectFrom .synSent [] [oneBytePacket]).queued d.session) ∧
    ∃ d, Run Disconnecting.step anyStep ⟨.flushIn, disconnectFrom .listen [] []⟩
      (List.replicate 4 (.run 0)) d ∧ d.pc = .done ∧
      ¬ Disconnected (disconnectFrom .listen [] []).queued d.session := by
  refine ⟨⟨_, .of_foldlM rfl, rfl, fun h => ?_⟩, _, .of_foldlM rfl, rfl, fun h => ?_⟩
  · exact absurd (h.freed 0 (by decide)) (by decide)
  · exact absurd h.closed (by decide)

end Muxomucota.Net
