import Mathlib.Data.List.Count
import Muxomucota.Lib.Runs
import Muxomucota.Net.TcpAcknowledge

/-!
# Net — receiving into a buffer

`service_stream_recv`.  A blocking call turns around `tcp_receive` until it has as many bytes as were
asked for, and gives it the same buffer and the same size every time.  So the bytes are where they
belong, and not too many, if and only if at most one turn finds any (`stored_in_order_iff`).
-/

namespace Muxomucota.Net
open Lib

/-- What a turn of the loop finds: the connection when it calls `tcp_receive`, and its status
afterwards.  Other threads run all the time. -/
structure Turn where
  conn : TcpConnection
  status : TcpStatus

/-- A call of `service_stream_recv`: what it has written at the offsets of the caller's buffer, the
sum it will return, all bytes it has got in their order, whether it goes on, and whether it leaves
`ENOTCONN` behind. -/
structure Receiving where
  buffer : Nat → Option Byte
  recvd : BitVec 64
  received : List Byte
  waiting : Bool
  notConn : Bool

/-- Nothing is written yet. -/
def Receiving.start : Receiving where
  buffer := fun _ => none
  recvd := 0
  received := []
  waiting := true
  notConn := false

/-- `STATUS_OPEN` or `STATUS_FIN_SENT`. -/
def Turn.connected (t : Turn) : Bool := t.status = .opened ∨ t.status = .finSent

/-- One turn of `service_stream_recv`; `tcp_receive` takes the size as a `size_t`. -/
def recvTurn (size : BitVec 64) (nonblock : Bool) (r : Receiving) (t : Turn) : Option Receiving :=
  if r.waiting then do
    let (_, bytes) ← tcpReceive t.conn (size.setWidth 32)
    let recvd := r.recvd + .ofNat 64 bytes.length
    some
      { buffer := fun i => bytes[i]?.or (r.buffer i)
        recvd
        received := r.received ++ bytes
        waiting := !nonblock && recvd < size && t.connected
        notConn := !nonblock && !t.connected }
  else none

/-- The call keeps to the caller's buffer and has each byte in its place. -/
structure Receiving.StoredInOrder (size : BitVec 64) (r : Receiving) : Prop where
  returned : r.recvd ≤ size
  inside : ∀ i, size.toNat ≤ i → r.buffer i = none
  stored : ∀ i b, r.received[i]? = some b → r.buffer i = some b

/-- `remaining`. -/
def Packet.remaining (p : Packet) (lastSeqEnd : Word) : Word :=
  p.packet.dataSz - p.readOffset - (lastSeqEnd - p.seq)

/-- The queue has something to read up to the acknowledgement. -/
def readable (ack : Word) : List Packet → Word → Bool
  | [], _ => false
  | p :: queue, lastSeqEnd =>
      if p.ahead ack then false
      else if p.packet.dataSz = 0 then readable ack queue p.seqEnd
      else if p.remaining lastSeqEnd ≠ 0#32 then true
      else
        match queue with
        | [] => false
        | _ :: queue => readable ack queue p.seqEnd

/-- The turn finds something that it can take. -/
def Turn.readable (size : BitVec 64) (t : Turn) : Bool :=
  size.setWidth 32 ≠ 0#32 ∧ Net.readable t.conn.ack t.conn.inqueue (firstSeq t.conn.inqueue)

variable {ack lastSeqEnd n : Word} {queue queue' : List Packet} {bytes : List Byte} {c c' : TcpConnection}
  {size : BitVec 64} {nonblock : Bool} {r r' : Receiving} {t : Turn} {turns : List Turn} {k : Nat}

/-! ### What one call copies -/

theorem copySz_le (p : Packet) (lastSeqEnd n : Word) : copySz p lastSeqEnd n ≤ n := by
  unfold copySz
  dsimp only
  split
  · exact BitVec.le_refl n
  · rename_i h
    exact BitVec.not_lt.mp h

/-- It never copies more than it was asked for. -/
theorem receiveLoop_length : ∀ {queue : List Packet} {lastSeqEnd n : Word} {queue' bytes},
    receiveLoop ack queue lastSeqEnd n = some (queue', bytes) → bytes.length ≤ n.toNat
  | [], lastSeqEnd, n, queue', bytes, h => by
      obtain ⟨-, rfl⟩ := Prod.mk.inj (Option.some.inj h)
      exact Nat.zero_le _
  | p :: queue, lastSeqEnd, n, queue', bytes, h => by
      have hle := copySz_le p lastSeqEnd n
      have hcopied : (copied p (copySz p lastSeqEnd n)).length ≤ (copySz p lastSeqEnd n).toNat :=
        List.length_take_le _ _
      have hsub := BitVec.toNat_sub_of_le hle
      rw [BitVec.le_def] at hle
      rw [receiveLoop] at h
      split at h
      · obtain ⟨-, rfl⟩ := Prod.mk.inj (Option.some.inj h)
        exact Nat.zero_le _
      split at h
      · cases h
      dsimp only at h
      split at h
      · obtain ⟨⟨queue₁, bytes₁⟩, hloop, h⟩ := Option.bind_eq_some_iff.mp h
        obtain ⟨-, rfl⟩ := Prod.mk.inj (Option.some.inj h)
        exact receiveLoop_length hloop
      split at h
      · cases h
      split at h
      · cases queue with
        | nil =>
            obtain ⟨-, rfl⟩ := Prod.mk.inj (Option.some.inj h)
            exact hcopied.trans hle
        | cons q queue =>
            obtain ⟨⟨queue₁, bytes₁⟩, hloop, h⟩ := Option.bind_eq_some_iff.mp h
            obtain ⟨-, rfl⟩ := Prod.mk.inj (Option.some.inj h)
            have hrest : bytes₁.length ≤ _ := receiveLoop_length hloop
            show (_ ++ bytes₁).length ≤ _
            rw [List.length_append]
            omega
      · obtain ⟨⟨queue₁, bytes₁⟩, hloop, h⟩ := Option.bind_eq_some_iff.mp h
        obtain ⟨-, rfl⟩ := Prod.mk.inj (Option.some.inj h)
        have hrest : bytes₁.length ≤ _ := receiveLoop_length hloop
        show (_ ++ bytes₁).length ≤ _
        rw [List.length_append]
        omega

theorem copySz_eq_zero {p : Packet} (hn : n ≠ 0#32) :
    copySz p lastSeqEnd n = 0#32 ↔ p.remaining lastSeqEnd = 0#32 := by
  show (if n < p.remaining lastSeqEnd then n else p.remaining lastSeqEnd) = 0#32 ↔ _
  split
  · rename_i hlt
    refine iff_of_false hn fun hzero => ?_
    rw [hzero, BitVec.lt_def] at hlt
    exact Nat.not_lt_zero _ hlt
  · rfl

/-- A packet without anything left is drained. -/
theorem drained_of_remaining {p : Packet} (h : p.remaining lastSeqEnd = 0#32) :
    p.drained lastSeqEnd = true := by
  rw [Packet.drained, decide_eq_true_eq]
  rw [Packet.remaining] at h
  grind

/-- It copies something if and only if there is something to read. -/
theorem receiveLoop_readable (hn : n ≠ 0#32) :
    ∀ {queue : List Packet} {lastSeqEnd : Word} {queue' bytes},
      receiveLoop ack queue lastSeqEnd n = some (queue', bytes) →
        (bytes ≠ [] ↔ readable ack queue lastSeqEnd = true)
  | [], lastSeqEnd, queue', bytes, h => by
      obtain ⟨-, rfl⟩ := Prod.mk.inj (Option.some.inj h)
      simp [readable]
  | p :: queue, lastSeqEnd, queue', bytes, h => by
      rw [receiveLoop] at h
      rw [readable.eq_def]
      dsimp only at h ⊢
      split at h
      · obtain ⟨-, rfl⟩ := Prod.mk.inj (Option.some.inj h)
        rename_i hahead
        simp [hahead]
      rename_i hahead
      rw [if_neg hahead]
      split at h
      · cases h
      split at h
      · rename_i hdata
        obtain ⟨⟨queue₁, bytes₁⟩, hloop, h⟩ := Option.bind_eq_some_iff.mp h
        obtain ⟨-, rfl⟩ := Prod.mk.inj (Option.some.inj h)
        rw [if_pos hdata]
        exact receiveLoop_readable hn hloop
      rename_i hdata
      rw [if_neg hdata]
      by_cases hrem : p.remaining lastSeqEnd = 0#32
      · -- nothing is left of the packet, it is unlinked and the next one passed over
        have hzero := (copySz_eq_zero hn).mpr hrem
        have hnone : copied p 0#32 = [] := List.take_zero
        rw [hzero, hnone, BitVec.add_zero, if_neg (by simp), BitVec.sub_zero,
          if_pos (drained_of_remaining hrem)] at h
        rw [if_neg (not_not.mpr hrem)]
        cases queue with
        | nil =>
            obtain ⟨-, rfl⟩ := Prod.mk.inj (Option.some.inj h)
            simp
        | cons q queue =>
            obtain ⟨⟨queue₁, bytes₁⟩, hloop, h⟩ := Option.bind_eq_some_iff.mp h
            obtain ⟨-, rfl⟩ := Prod.mk.inj (Option.some.inj h)
            exact receiveLoop_readable hn hloop
      · rw [if_pos hrem]
        split at h
        · cases h
        rename_i hlen
        have hpos : copySz p lastSeqEnd n ≠ 0#32 := (copySz_eq_zero hn).not.mpr hrem
        have hsome : copied p (copySz p lastSeqEnd n) ≠ [] := by
          intro hnil
          rw [hnil] at hlen
          exact hpos (BitVec.eq_of_toNat_eq (Nat.le_zero.mp (Nat.not_lt.mp hlen)))
        refine iff_of_true ?_ rfl
        split at h
        · cases queue with
          | nil =>
              obtain ⟨-, rfl⟩ := Prod.mk.inj (Option.some.inj h)
              exact hsome
          | cons q queue =>
              obtain ⟨⟨queue₁, bytes₁⟩, -, h⟩ := Option.bind_eq_some_iff.mp h
              obtain ⟨-, rfl⟩ := Prod.mk.inj (Option.some.inj h)
              exact List.append_ne_nil_of_left_ne_nil hsome _
        · obtain ⟨⟨queue₁, bytes₁⟩, -, h⟩ := Option.bind_eq_some_iff.mp h
          obtain ⟨-, rfl⟩ := Prod.mk.inj (Option.some.inj h)
          exact List.append_ne_nil_of_left_ne_nil hsome _

theorem tcpReceive_loop (h : tcpReceive c n = some (c', bytes)) :
    ∃ queue', receiveLoop c.ack c.inqueue (firstSeq c.inqueue) n = some (queue', bytes) := by
  obtain ⟨⟨queue', bytes'⟩, hloop, h⟩ := Option.bind_eq_some_iff.mp h
  obtain ⟨-, rfl⟩ := Prod.mk.inj (Option.some.inj h)
  exact ⟨queue', hloop⟩

/-- What a turn does, with the bytes that it gets. -/
theorem recvTurn_spec (h : recvTurn size nonblock r t = some r') : ∃ bytes : List Byte,
    (bytes ≠ [] ↔ t.readable size = true) ∧ bytes.length ≤ (size.setWidth 32).toNat ∧
      r'.recvd = r.recvd + .ofNat 64 bytes.length ∧ r'.received = r.received ++ bytes ∧
      r'.buffer = fun i => bytes[i]?.or (r.buffer i) := by
  unfold recvTurn at h
  split at h
  · obtain ⟨⟨c', bytes⟩, hbytes, h⟩ := Option.bind_eq_some_iff.mp h
    obtain rfl := Option.some.inj h
    obtain ⟨queue', hloop⟩ := tcpReceive_loop hbytes
    have hlen := receiveLoop_length hloop
    refine ⟨bytes, ?_, hlen, rfl, rfl, rfl⟩
    rw [Turn.readable, decide_eq_true_eq]
    by_cases hsize : size.setWidth 32 = 0#32
    · rw [hsize] at hlen
      exact iff_of_false (not_not.mpr (List.eq_nil_of_length_eq_zero (Nat.le_zero.mp hlen)))
        fun hread => hread.1 hsize
    · rw [receiveLoop_readable hsize hloop, and_iff_right hsize]
  · cases h

/-! ### The turns of a call -/

/-- Everything came at once. -/
structure Receiving.Whole (size : BitVec 64) (r : Receiving) : Prop where
  recvd : r.recvd = .ofNat 64 r.received.length
  length : r.received.length ≤ (size.setWidth 32).toNat
  buffer : r.buffer = fun i => r.received[i]?

/-- A piece lies over another: fewer offsets are written than bytes have come in. -/
def Receiving.Overlaid (r : Receiving) : Prop :=
  ∃ n < r.received.length, ∀ i, n ≤ i → r.buffer i = none

/-- The call after turns of which `k` found something. -/
structure Receiving.Taken (size : BitVec 64) (k : Nat) (r : Receiving) : Prop where
  empty : r.received = [] ↔ k = 0
  one : k ≤ 1 → r.Whole size
  more : 1 < k → r.Overlaid

theorem Receiving.taken_start (size : BitVec 64) : Receiving.start.Taken size 0 where
  empty := iff_of_true rfl rfl
  one _ := ⟨rfl, Nat.zero_le _, funext fun _ => rfl⟩
  more h := absurd h (by omega)

/-- A turn that finds nothing changes nothing. -/
theorem Receiving.Taken.idle (hr : r.Taken size k) (hrecvd : r'.recvd = r.recvd)
    (hreceived : r'.received = r.received) (hbuffer : r'.buffer = r.buffer) : r'.Taken size k where
  empty := hreceived ▸ hr.empty
  one hk := by
    obtain ⟨h₁, h₂, h₃⟩ := hr.one hk
    exact ⟨by rw [hrecvd, hreceived, h₁], hreceived ▸ h₂, by rw [hbuffer, hreceived, h₃]⟩
  more hk := by
    obtain ⟨n, hn, hnone⟩ := hr.more hk
    exact ⟨n, hreceived ▸ hn, hbuffer ▸ hnone⟩

/-- The first bytes are whole, all others lie over them. -/
theorem Receiving.Taken.found (hr : r.Taken size k) (hbytes : bytes ≠ [])
    (hlen : bytes.length ≤ (size.setWidth 32).toNat)
    (hrecvd : r'.recvd = r.recvd + .ofNat 64 bytes.length)
    (hreceived : r'.received = r.received ++ bytes)
    (hbuffer : r'.buffer = fun i => bytes[i]?.or (r.buffer i)) : r'.Taken size (k + 1) where
  empty := iff_of_false (by rw [hreceived]; exact List.append_ne_nil_of_right_ne_nil _ hbytes)
    (Nat.succ_ne_zero k)
  one hk := by
    obtain rfl : k = 0 := by omega
    have hnil : r.received = [] := hr.empty.mpr rfl
    obtain ⟨h₁, -, h₃⟩ := hr.one (Nat.zero_le 1)
    rw [hnil, List.nil_append] at hreceived
    rw [hnil] at h₁ h₃
    refine ⟨?_, hreceived ▸ hlen, ?_⟩
    · rw [hrecvd, h₁, hreceived]
      exact BitVec.zero_add _
    · rw [hbuffer, h₃, hreceived]
      funext i
      simp
  more hk := by
    have hpos : 0 < bytes.length := List.length_pos_iff.mpr hbytes
    have hover : ∃ n, n < (r.received ++ bytes).length ∧ bytes.length ≤ n ∧
        ∀ i, n ≤ i → r.buffer i = none := by
      rw [List.length_append]
      by_cases hone : 1 < k
      · obtain ⟨n, hn, hnone⟩ := hr.more hone
        exact ⟨max n bytes.length, by omega, by omega, fun i hi => hnone i (by omega)⟩
      · have hsome : 0 < r.received.length :=
          List.length_pos_iff.mpr (hr.empty.not.mpr (by omega))
        refine ⟨max r.received.length bytes.length, by omega, by omega, fun i hi => ?_⟩
        rw [(hr.one (by omega)).buffer]
        exact List.getElem?_eq_none (by omega)
    obtain ⟨n, hn, hle, hnone⟩ := hover
    refine ⟨n, hreceived ▸ hn, fun i hi => ?_⟩
    rw [hbuffer]
    dsimp only
    rw [List.getElem?_eq_none (by omega), hnone i hi]
    rfl

theorem Receiving.Taken.turn (hr : r.Taken size k) (h : recvTurn size nonblock r t = some r') :
    r'.Taken size (k + if t.readable size then 1 else 0) := by
  obtain ⟨bytes, hiff, hlen, hrecvd, hreceived, hbuffer⟩ := recvTurn_spec h
  by_cases hread : t.readable size = true
  · rw [if_pos hread]
    exact hr.found (hiff.mpr hread) hlen hrecvd hreceived hbuffer
  · have hnil : bytes = [] := not_not.mp (hiff.not.mpr hread)
    rw [if_neg hread]
    subst hnil
    exact hr.idle (hrecvd.trans (BitVec.add_zero _)) (hreceived.trans (List.append_nil _)) hbuffer

/-- The turns of a whole call. -/
theorem taken_turns (h : Run (recvTurn size nonblock) anyStep .start turns r) :
    r.Taken size (turns.countP (Turn.readable size)) := by
  refine h.history (I := fun turns r => r.Taken size (turns.countP (Turn.readable size))) ?_
    (Receiving.taken_start size)
  intro turns r t r' hr _ ht
  rw [List.countP_append, List.countP_singleton]
  exact hr.turn ht

/-- Bytes that came at once are in their places. -/
theorem Receiving.Whole.storedInOrder (h : r.Whole size) : r.StoredInOrder size := by
  have hmod : (size.setWidth 32).toNat ≤ size.toNat := by
    rw [BitVec.toNat_setWidth]
    exact Nat.mod_le _ _
  have hlen := h.length
  have hlt := size.isLt
  refine ⟨?_, fun i hi => ?_, fun i b hb => ?_⟩
  · rw [h.recvd, BitVec.le_def, BitVec.toNat_ofNat, Nat.mod_eq_of_lt (by omega)]
    omega
  · rw [h.buffer]
    exact List.getElem?_eq_none (by omega)
  · rw [h.buffer]
    exact hb

theorem Receiving.Overlaid.not_storedInOrder (h : r.Overlaid) : ¬ r.StoredInOrder size := by
  obtain ⟨n, hn, hnone⟩ := h
  intro hstored
  have hbyte := hstored.stored n _ (List.getElem?_eq_getElem hn)
  rw [hnone n le_rfl] at hbyte
  cases hbyte

/-- **Receiving**: at every point of a call, all that came in is in its place and the sum is no more
than what was asked for, if and only if at most one of its turns found anything to read. -/
theorem stored_in_order_iff (h : Run (recvTurn size nonblock) anyStep .start turns r) :
    r.StoredInOrder size ↔ turns.countP (Turn.readable size) ≤ 1 := by
  have htaken := taken_turns h
  constructor
  · intro hstored
    by_contra hmore
    exact (htaken.more (Nat.not_le.mp hmore)).not_storedInOrder hstored
  · exact fun hk => (htaken.one hk).storedInOrder

/-- The open connection with a packet from `seq` on that has been acknowledged. -/
def withData (seq : Word) (data : List Byte) : TcpConnection :=
  let s : Segment := { lastByte with seq, flags := tcpAck, rest := data }
  { openToTen with ack := s.seqEnd, inqueue := [receivedPacket s] }

/-- One byte, while the call waits for two. -/
theorem stored_in_order_byte : ∃ r,
    Run (recvTurn 2 false) anyStep .start [⟨withData 1 [7], .opened⟩] r ∧ r.StoredInOrder 2 := by
  obtain ⟨r, hr⟩ : ∃ r, recvTurn 2 false .start ⟨withData 1 [7], .opened⟩ = some r := ⟨_, rfl⟩
  exact ⟨r, .one trivial hr, (stored_in_order_iff (.one trivial hr)).mpr (by decide)⟩

/-- A byte, and two more after it: the second piece lies over the first, and the sum is three. -/
theorem second_piece_overwrites : ∃ r,
    Run (recvTurn 2 false) anyStep .start
      [⟨withData 1 [7], .opened⟩, ⟨withData 2 [8, 9], .opened⟩] r ∧
    r.received = [7, 8, 9] ∧ r.recvd = 3 ∧ r.buffer 0 = some 8 ∧ ¬ r.StoredInOrder 2 := by
  refine ⟨_, .more trivial rfl (.one trivial rfl), by decide, by decide, by decide, fun h => ?_⟩
  have hsum := h.returned
  revert hsum
  decide

end Muxomucota.Net
