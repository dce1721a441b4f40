import Mathlib.Algebra.Group.Nat.Defs
import Mathlib.Data.List.Forall2
import Mathlib.Data.List.Sort
import Muxomucota.Lib.Runs
import Muxomucota.Lib.Tiling
import Muxomucota.Net.Tcp

/-!
# Net — the byte stream of a TCP connection

A peer's stream comes to a connection in segments, each with a piece of it, in any order and as
often as the network likes; `tcp_receive` is called in between with any size.  The bytes are in
order as long as every piece comes once and every read takes the first packet whole: the queue then
is `ready ++ later`, where `ready` tiles what is acknowledged and not yet read, and `later` lies
beyond a gap.

Sequence numbers wrap and positions in the stream do not: `seqAt` takes a position to its number.
-/

namespace Muxomucota.Net

open Lib

/-! ### Positions and sequence numbers -/

/-- The sequence number of position `k`, if position 0 has `base`. -/
def seqAt (base : Word) (k : Nat) : Word := base + .ofNat 32 k

section seqAt

variable {base : Word} {j k : Nat}

theorem seqAt_add (n : Word) : seqAt base k + n = seqAt base (k + n.toNat) := by
  apply BitVec.eq_of_toNat_eq
  simp only [seqAt, BitVec.toNat_add, BitVec.toNat_ofNat]
  omega

theorem seqAt_sub (h : j ≤ k) (hlt : k < j + 2 ^ 32) :
    (seqAt base k - seqAt base j).toNat = k - j := by
  simp only [seqAt, BitVec.toNat_sub, BitVec.toNat_add, BitVec.toNat_ofNat]
  omega

theorem seqAt_sub_back (h : j < k) (hlt : k < j + 2 ^ 32) :
    (seqAt base j - seqAt base k).toNat = 2 ^ 32 - (k - j) := by
  simp only [seqAt, BitVec.toNat_sub, BitVec.toNat_add, BitVec.toNat_ofNat]
  omega

/-- `seq - ack < 0x40000000` for a position that is not too far ahead. -/
theorem near_ahead (h : j ≤ k) (hlt : k < j + 2 ^ 30) :
    seqAt base k - seqAt base j < 0x40000000#32 := by
  rw [BitVec.lt_def, seqAt_sub h (by omega)]
  show k - j < 2 ^ 30
  omega

/-- The same test fails for a position that is not too far behind. -/
theorem not_near_behind (h : j < k) (hlt : k < j + 2 ^ 31) :
    ¬ seqAt base j - seqAt base k < 0x40000000#32 := by
  rw [BitVec.lt_def, seqAt_sub_back h (by omega)]
  show ¬ 2 ^ 32 - (k - j) < 2 ^ 30
  omega

theorem seqAt_ne (h : j < k) (hlt : k < j + 2 ^ 32) : seqAt base j ≠ seqAt base k := by
  intro heq
  have hsub : (seqAt base k - seqAt base j).toNat = k - j := seqAt_sub (Nat.le_of_lt h) hlt
  rw [heq, BitVec.sub_self, BitVec.toNat_zero] at hsub
  omega

end seqAt

/-! ### Pieces of the stream -/

/-- The bytes of the stream from `start` on, up to `stop`. -/
structure Piece where
  start : Nat
  stop : Nat

/-- The segment carries a piece of the stream, and neither SYN nor RST. -/
structure Carries (stream : List Byte) (base : Word) (x : Piece) (s : Segment) : Prop where
  seq : s.seq = seqAt base x.start
  data : s.bytes.drop s.hdrBytes.toNat = (stream.take x.stop).drop x.start
  nonempty : x.start < x.stop
  inside : x.stop ≤ stream.length
  header : ¬ s.size < s.hdrBytes
  /-- the length of an IP packet has 16 bits -/
  short : 20 + s.rest.length < 2 ^ 16
  noSyn : s.has tcpSyn = false
  noRst : s.has tcpRst = false

namespace Carries

variable {stream : List Byte} {base : Word} {x : Piece} {s : Segment}

theorem length_bytes (s : Segment) : s.bytes.length = 20 + s.rest.length := by
  simp [Segment.bytes, TcpHeader.bytes, be16, be32]
  omega

theorem size_toNat (h : Carries stream base x s) : s.size.toNat = s.bytes.length := by
  have hshort := h.short
  rw [length_bytes, Segment.size, BitVec.toNat_ofNat]
  omega

/-- `data_sz` is the length of the piece. -/
theorem dataSz_toNat (h : Carries stream base x s) : s.dataSz.toNat = x.stop - x.start := by
  have hdata := congrArg List.length h.data
  have hheader := h.header
  have hlt := s.hdrBytes.isLt
  have hlt' := s.size.isLt
  rw [List.length_drop, ← h.size_toNat, List.length_drop, List.length_take,
    Nat.min_eq_left h.inside] at hdata
  rw [BitVec.lt_def] at hheader
  rw [Segment.dataSz, BitVec.toNat_sub]
  omega

theorem dataSz_pos (h : Carries stream base x s) : s.dataSz ≠ 0 := by
  intro hzero
  have hlen := h.dataSz_toNat
  have hpos := h.nonempty
  rw [hzero] at hlen
  have : (0 : Word).toNat = 0 := rfl
  omega

theorem length_lt (h : Carries stream base x s) : x.stop < x.start + 2 ^ 16 := by
  have hlen := h.dataSz_toNat
  have hdata := congrArg List.length h.data
  have hshort := h.short
  rw [List.length_drop, length_bytes, List.length_drop, List.length_take,
    Nat.min_eq_left h.inside] at hdata
  omega

/-- `seq_end` belongs to the end of the piece. -/
theorem seqEnd (h : Carries stream base x s) : s.seqEnd = seqAt base x.stop := by
  have hpos := h.nonempty
  have hsize : s.seqSize = s.dataSz := if_neg fun hz => h.dataSz_pos hz.1
  rw [Segment.seqEnd, hsize, h.seq, seqAt_add, h.dataSz_toNat]
  congr 1
  omega

end Carries

/-- A packet in the queue of which nothing was read. -/
structure Stored (stream : List Byte) (base : Word) (p : Packet) (x : Piece) : Prop where
  carries : Carries stream base x p.packet
  seqEnd : p.seqEnd = seqAt base x.stop
  unread : p.readOffset = 0

theorem Stored.seq {stream : List Byte} {base : Word} {p : Packet} {x : Piece}
    (h : Stored stream base p x) : p.seq = seqAt base x.start := h.carries.seq

/-! ### The tests of the loops -/

section tests

variable {stream : List Byte} {base : Word} {p : Packet} {x : Piece} {a : Nat} {c : TcpConnection}

/-- A packet that is acknowledged is no news for `handle_inqueue`, and no reason to stop. -/
theorem Stored.passed (h : Stored stream base p x) (hack : c.ack = seqAt base a)
    (ha : x.stop ≤ a) (hlt : a < x.start + 2 ^ 31) :
    continues c p = false ∧ ¬ p.seq - c.ack < 0x40000000#32 := by
  have hpos := h.carries.nonempty
  refine ⟨?_, ?_⟩
  · simp only [continues, decide_eq_false_iff_not, hack, h.seqEnd, not_and]
    intro _ hne
    have hstop : x.stop < a := by
      rcases Nat.lt_or_eq_of_le ha with hlt | rfl
      · exact hlt
      · exact absurd rfl hne
    exact not_near_behind hstop (by omega)
  · rw [hack, h.seq]
    exact not_near_behind (by omega) hlt

/-- The packet at the acknowledgement continues the stream. -/
theorem Stored.continues (h : Stored stream base p x) (hack : c.ack = seqAt base x.start) :
    continues c p = true := by
  have hpos := h.carries.nonempty
  have hlen := h.carries.length_lt
  simp only [Net.continues, decide_eq_true_eq, hack, h.seq, h.seqEnd]
  exact ⟨near_ahead (Nat.le_refl _) (by omega), seqAt_ne hpos (by omega),
    near_ahead (by omega) (by omega)⟩

/-- The packet behind a gap stops the loop. -/
theorem Stored.gap (h : Stored stream base p x) (hack : c.ack = seqAt base a) (ha : a < x.start)
    (hlt : x.stop < a + 2 ^ 30) :
    Net.continues c p = false ∧ p.seq - c.ack < 0x40000000#32 := by
  have hpos := h.carries.nonempty
  refine ⟨?_, ?_⟩
  · simp only [Net.continues, decide_eq_false_iff_not, hack, h.seq, not_and]
    intro hnear
    exact absurd hnear (not_near_behind ha (by omega))
  · rw [hack, h.seq]
    exact near_ahead (by omega) (by omega)

/-- `tcp_receive` stops at what is not acknowledged. -/
theorem Stored.ahead (h : Stored stream base p x) (ha : a < x.stop) (hlt : x.stop < a + 2 ^ 30) :
    p.ahead (seqAt base a) = true := by
  simp only [Packet.ahead, decide_eq_true_eq, h.seqEnd]
  exact ⟨(seqAt_ne ha (by omega)).symm, near_ahead (by omega) hlt⟩

theorem Stored.not_ahead (h : Stored stream base p x) (ha : x.stop ≤ a)
    (hlt : a < x.stop + 2 ^ 31) : p.ahead (seqAt base a) = false := by
  simp only [Packet.ahead, decide_eq_false_iff_not, h.seqEnd, not_and]
  intro hne
  have hstop : x.stop < a := by
    rcases Nat.lt_or_eq_of_le ha with hlt | rfl
    · exact hlt
    · exact absurd rfl hne
  exact not_near_behind hstop hlt

/-- The packet has data, so it is not unlinked before it is read. -/
theorem Stored.not_bare (h : Stored stream base p x) : p.bare = false := by
  simp only [Packet.bare, decide_eq_false_iff_not]
  intro heq
  refine h.carries.dataSz_pos ?_
  rw [Segment.dataSz, heq, BitVec.sub_self]
  rfl

theorem Stored.takePacket (h : Stored stream base p x) (now : Int) (c : TcpConnection) :
    ∃ c' out fin, takePacket now c p = some (c', out, fin) ∧ c'.ack = seqAt base x.stop := by
  simp only [Net.takePacket, h.carries.noRst, h.carries.noSyn, Bool.false_eq_true, if_false]
  split
  · split <;> exact ⟨_, _, _, rfl, h.seqEnd⟩
  · exact ⟨_, _, _, rfl, h.seqEnd⟩

end tests

/-! ### The input queue -/

section queue

variable {stream : List Byte} {base : Word} {c : TcpConnection} {queue : List Packet}
  {xs ready later : List Piece} {a r : Nat}

/-- What waits in the queue while `[r, a)` is acknowledged and not read. -/
structure Queued (r a : Nat) (ready later : List Piece) : Prop where
  tiles : Tiles Piece.start Piece.stop r ready a
  gap : ∀ x ∈ later, a < x.start
  apart : later.Pairwise fun x y => x.stop ≤ y.start
  near : ∀ x ∈ ready ++ later, x.start < x.stop ∧ x.stop < r + 2 ^ 30

theorem Queued.le (h : Queued r a ready later) : r ≤ a := h.tiles.le

theorem Queued.ready_near (h : Queued r a ready later) {x : Piece} (hx : x ∈ ready) :
    x.stop ≤ a ∧ a < x.start + 2 ^ 31 := by
  obtain ⟨hr, -, ha⟩ := h.tiles.mem hx
  rcases h.tiles.last with heq | ⟨y, hy, heq⟩
  · omega
  · have := (h.near y (List.mem_append_left _ hy)).2
    omega

/-- The loop passes over what is acknowledged. -/
theorem inqueueLoop_ready (now : Int) {c : TcpConnection} (hack : c.ack = seqAt base a) :
    ∀ {front : List Packet} {xs : List Piece}, List.Forall₂ (Stored stream base) front xs →
      (∀ x ∈ xs, x.stop ≤ a ∧ a < x.start + 2 ^ 31) →
      inqueueLoop now (front ++ queue) c = (inqueueLoop now queue c).map
        fun r => (r.1, front ++ r.2.1, r.2.2)
  | [], _, _, _ => by
      rw [List.nil_append]
      cases inqueueLoop now queue c <;> rfl
  | p :: front, _, .cons (b := x) hp hfront, hxs => by
      obtain ⟨ha, hlt⟩ := hxs x List.mem_cons_self
      obtain ⟨hcont, hstop⟩ := hp.passed hack ha hlt
      rw [List.cons_append, inqueueLoop, if_neg (by simp [hcont]), if_neg hstop,
        inqueueLoop_ready now hack hfront fun y hy => hxs y (List.mem_cons_of_mem _ hy)]
      cases inqueueLoop now queue c <;> rfl

/-- From the acknowledgement on the loop takes whatever follows without a gap. -/
theorem inqueueLoop_later (now : Int) : ∀ {queue : List Packet} {xs : List Piece}
    {c : TcpConnection} {a : Nat}, List.Forall₂ (Stored stream base) queue xs →
      c.ack = seqAt base a → (∀ x ∈ xs, a ≤ x.start ∧ x.stop < a + 2 ^ 30) →
      (xs.Pairwise fun x y => x.stop ≤ y.start) →
      ∃ c' out fin a' ys zs, inqueueLoop now queue c = some (c', queue, out, fin) ∧
        c'.ack = seqAt base a' ∧ xs = ys ++ zs ∧ Tiles Piece.start Piece.stop a ys a' ∧
        ∀ x ∈ zs, a' < x.start
  | [], _, c, a, .nil, hack, _, _ =>
      ⟨c, [], false, a, [], [], rfl, hack, rfl, rfl, by simp⟩
  | p :: queue, x :: xs, c, a, .cons hp hqueue, hack, hxs, hapart => by
      obtain ⟨hle, hlt⟩ := hxs x List.mem_cons_self
      have hpos := hp.carries.nonempty
      obtain ⟨hfirst, hrest⟩ := List.pairwise_cons.mp hapart
      rcases Nat.lt_or_eq_of_le hle with hgap | rfl
      · -- there is a gap
        obtain ⟨hcont, hstop⟩ := hp.gap hack hgap (by omega)
        refine ⟨c, [], false, a, [], x :: xs, ?_, hack, rfl, rfl, ?_⟩
        · rw [inqueueLoop, if_neg (by simp [hcont]), if_pos hstop]
        · intro y hy
          rcases List.mem_cons.mp hy with rfl | hy
          · exact hgap
          · have := hfirst y hy
            omega
      · obtain ⟨c₁, out₁, fin₁, htake, hack₁⟩ := hp.takePacket now c
        obtain ⟨c', out, fin, a', ys, zs, hloop, hack', rfl, htiles, hzs⟩ :=
          inqueueLoop_later now hqueue hack₁
            (fun y hy => ⟨hfirst y hy, by have := (hxs y (List.mem_cons_of_mem _ hy)).2; omega⟩) hrest
        refine ⟨c', out₁ ++ out, fin₁ || fin, a', x :: ys, zs, ?_, hack', rfl,
          ⟨rfl, hpos, htiles⟩, hzs⟩
        simp only [inqueueLoop, hp.continues hack, if_true, htake, Option.bind_eq_bind,
          Option.bind_some, hp.not_bare, Bool.false_eq_true, if_false, hloop]

/-- The place of a piece among the others. -/
def placeOf (x : Piece) (xs : List Piece) : List Piece :=
  xs.orderedInsert (fun x y => x.start < y.start) x

/-- Packets are put where their pieces belong if their numbers compare like the positions. -/
theorem insertPacket_stored {p : Packet} {x : Piece} (hp : Stored stream base p x) :
    ∀ {queue : List Packet} {xs : List Piece}, List.Forall₂ (Stored stream base) queue xs →
      List.Forall₂ (fun q (y : Piece) => q.seq ≤ p.seq ↔ y.start ≤ x.start) queue xs →
      List.Forall₂ (Stored stream base) (insertPacket p queue) (placeOf x xs)
  | [], _, .nil, _ => .cons hp .nil
  | q :: queue, y :: ys, .cons hq hqueue, .cons horder horders => by
      rw [insertPacket, placeOf, List.orderedInsert_cons]
      by_cases hle : y.start ≤ x.start
      · rw [if_pos (horder.mpr hle), if_neg (Nat.not_lt.mpr hle)]
        exact .cons hq (insertPacket_stored hp hqueue horders)
      · rw [if_neg (mt horder.mp hle), if_pos (Nat.not_le.mp hle)]
        exact .cons hp (.cons hq hqueue)

theorem mem_placeOf {x y : Piece} : y ∈ placeOf x xs ↔ y = x ∨ y ∈ xs := List.mem_orderedInsert _

/-- A piece goes behind those that begin before it. -/
theorem placeOf_append {x : Piece} (h : ∀ y ∈ ready, y.start ≤ x.start) :
    placeOf x (ready ++ later) = ready ++ placeOf x later := by
  induction ready with
  | nil => rfl
  | cons y ready ih =>
      have hy : ¬ x.start < y.start := Nat.not_lt.mpr (h y List.mem_cons_self)
      rw [List.cons_append, placeOf, List.orderedInsert_cons, if_neg hy]
      exact congrArg (y :: ·) (ih fun z hz => h z (List.mem_cons_of_mem _ hz))

/-- Pieces stay apart. -/
theorem placeOf_apart {x : Piece} (hx : x.start < x.stop) (hpos : ∀ y ∈ xs, y.start < y.stop)
    (hapart : ∀ y ∈ xs, x.stop ≤ y.start ∨ y.stop ≤ x.start)
    (h : xs.Pairwise fun x y => x.stop ≤ y.start) :
    (placeOf x xs).Pairwise fun x y => x.stop ≤ y.start := by
  induction xs with
  | nil => exact List.pairwise_singleton _ _
  | cons y ys ih =>
      obtain ⟨hfirst, hrest⟩ := List.pairwise_cons.mp h
      have hy := hpos y List.mem_cons_self
      have hxy := hapart y List.mem_cons_self
      rw [placeOf, List.orderedInsert_cons]
      split
      · rename_i hlt
        have hstop : x.stop ≤ y.start := by omega
        refine List.pairwise_cons.mpr ⟨fun z hz => ?_, h⟩
        rcases List.mem_cons.mp hz with rfl | hz
        · exact hstop
        · have := hfirst z hz
          omega
      · rename_i hle
        have hstop : y.stop ≤ x.start := by omega
        refine List.pairwise_cons.mpr ⟨fun z hz => ?_, ih
          (fun z hz => hpos z (List.mem_cons_of_mem _ hz))
          (fun z hz => hapart z (List.mem_cons_of_mem _ hz)) hrest⟩
        rcases mem_placeOf.mp hz with rfl | hz
        · exact hstop
        · exact hfirst z hz

theorem Queued.start_near (h : Queued r a ready later) {x : Piece} (hx : x ∈ ready ++ later) :
    r ≤ x.start ∧ x.start < x.stop ∧ x.stop < r + 2 ^ 30 := by
  refine ⟨?_, h.near x hx⟩
  rcases List.mem_append.mp hx with hx | hx
  · exact (h.tiles.mem hx).1
  · have := h.gap x hx
    have := h.le
    omega

/-! ### A segment arrives -/

/-- How far a sequence number is from the first byte that was not read. -/
def offset (base : Word) (r : Nat) (seq : Word) : Nat := (seq - seqAt base r).toNat

theorem offset_seqAt {k : Nat} (h : r ≤ k) (hlt : k < r + 2 ^ 30) :
    offset base r (seqAt base k) = k - r := seqAt_sub h (by omega)

theorem compare_stored {seq : Word} {k : Nat} (hk : r ≤ k) (hlt : k < r + 2 ^ 30)
    (hseq : seq = seqAt base k) :
    ∀ {queue : List Packet} {xs : List Piece}, List.Forall₂ (Stored stream base) queue xs →
      (∀ y ∈ xs, r ≤ y.start ∧ y.start < r + 2 ^ 30) →
      (∀ q ∈ queue, q.seq ≤ seq ↔ offset base r q.seq ≤ offset base r seq) →
      List.Forall₂ (fun q (y : Piece) => q.seq ≤ seq ↔ y.start ≤ k) queue xs
  | [], _, .nil, _, _ => .nil
  | q :: queue, y :: ys, .cons hq hqueue, hys, horder => by
      obtain ⟨hy, hylt⟩ := hys y List.mem_cons_self
      refine .cons ?_ (compare_stored hk hlt hseq hqueue
        (fun z hz => hys z (List.mem_cons_of_mem _ hz))
        fun z hz => horder z (List.mem_cons_of_mem _ hz))
      rw [horder q List.mem_cons_self, hq.seq, hseq, offset_seqAt hy hylt, offset_seqAt hk hlt]
      omega

/-- A segment without SYN leaves the acknowledgement and the input queue alone at first. -/
theorem noteSegment_stream {s : Segment} (hsyn : s.has tcpSyn = false) (c : TcpConnection) :
    (noteSegment s c).ack = c.ack ∧ (noteSegment s c).inqueue = c.inqueue := by
  simp only [noteSegment, hsyn, Bool.false_eq_true, false_and, if_false]
  split <;> exact ⟨rfl, rfl⟩

/-- What `handle_inqueue` makes of the queue is what its loop makes of it. -/
theorem handleInqueue_of_loop {now : Int} {c' : TcpConnection} {queue' : List Packet}
    {out : List Out} {fin : Bool}
    (h : inqueueLoop now c.inqueue c = some (c', queue', out, fin)) :
    ∃ c₂ out₂, handleInqueue now c = some (c₂, out₂) ∧ c₂.ack = c'.ack ∧ c₂.inqueue = queue' := by
  simp only [handleInqueue, h, Option.bind_eq_bind, Option.bind_some]
  split <;> exact ⟨_, _, rfl, rfl, rfl⟩

/-- A new piece, at or behind the acknowledgement and apart from all that waits. -/
theorem incomingAt_piece {now : Int} {s : Segment} {x : Piece}
    (hqueue : List.Forall₂ (Stored stream base) c.inqueue (ready ++ later))
    (hq : Queued r a ready later) (hack : c.ack = seqAt base a) (hs : Carries stream base x s)
    (hport : s.destPort = c.port) (hax : a ≤ x.start) (hnear : x.stop < r + 2 ^ 30)
    (hapart : ∀ y ∈ later, x.stop ≤ y.start ∨ y.stop ≤ x.start)
    (horder : ∀ q ∈ c.inqueue, q.seq ≤ s.seq ↔ offset base r q.seq ≤ offset base r s.seq) :
    ∃ c' out ready' later' a', incomingAt now s c = some (c', out) ∧
      List.Forall₂ (Stored stream base) c'.inqueue (ready' ++ later') ∧
      Queued r a' ready' later' ∧ c'.ack = seqAt base a' ∧ a ≤ a' ∧
      ready' ++ later' = placeOf x (ready ++ later) := by
  obtain ⟨hack₁, hqueue₁⟩ := noteSegment_stream hs.noSyn c
  have hr := hq.le
  have hpos := hs.nonempty
  let p : Packet := { lastTimeSent := 0, seqEnd := s.seqEnd, readOffset := 0, packet := s }
  have hp : Stored stream base p x := ⟨hs, hs.seqEnd, rfl⟩
  -- the packet is put behind the acknowledged ones
  have hinsert := insertPacket_stored hp hqueue <|
    compare_stored (Nat.le_trans hr hax) (by omega) hs.seq hqueue
      (fun y hy => ⟨(hq.start_near hy).1, by have := hq.start_near hy; omega⟩) horder
  have hplace : placeOf x (ready ++ later) = ready ++ placeOf x later :=
    placeOf_append fun y hy => by
      have := hq.start_near (List.mem_append_left _ hy)
      have := (hq.ready_near hy).1
      omega
  rw [hplace] at hinsert
  obtain ⟨front, back, hsplit, hfront, hback⟩ :
      ∃ front back, insertPacket p c.inqueue = front ++ back ∧
        List.Forall₂ (Stored stream base) front ready ∧
        List.Forall₂ (Stored stream base) back (placeOf x later) :=
    ⟨_, _, (List.take_append_drop _ _).symm, List.forall₂_take_append _ _ _ hinsert,
      List.forall₂_drop_append _ _ _ hinsert⟩
  -- and the loop goes as far as there is no gap
  have hlater : ∀ y ∈ placeOf x later, a ≤ y.start ∧ y.stop < r + 2 ^ 30 := by
    intro y hy
    rcases mem_placeOf.mp hy with rfl | hy
    · exact ⟨hax, hnear⟩
    · exact ⟨Nat.le_of_lt (hq.gap y hy), (hq.near y (List.mem_append_right _ hy)).2⟩
  have hsorted := placeOf_apart hpos (fun y hy => (hq.near y (List.mem_append_right _ hy)).1)
    hapart hq.apart
  let c₁ : TcpConnection := { noteSegment s c with inqueue := insertPacket p (noteSegment s c).inqueue }
  have hack₂ : c₁.ack = seqAt base a := hack₁.trans hack
  obtain ⟨c', out, fin, a', ys, zs, hloop, hack', hyz, htiles, hgap⟩ :=
    inqueueLoop_later now hback hack₂
      (fun y hy => ⟨(hlater y hy).1, by have := (hlater y hy).2; omega⟩) hsorted
  have hwhole : inqueueLoop now c₁.inqueue c₁ = some (c', front ++ back, out, fin) := by
    rw [show c₁.inqueue = front ++ back by rw [← hsplit, ← hqueue₁],
      inqueueLoop_ready now hack₂ hfront fun y hy => hq.ready_near hy, hloop]
    rfl
  obtain ⟨c₂, out₂, hhandle, hack₃, hqueue₂⟩ := handleInqueue_of_loop hwhole
  have hdata : ¬ (s.dataSz = 0 ∧ ¬ s.has (tcpFin ||| tcpSyn ||| tcpRst) = true) :=
    fun h => hs.dataSz_pos h.1
  refine ⟨c₂, if c₂.signal then out₂ ++ [.signal c₂.owner c₂.id] else out₂, ready ++ ys, zs, a',
    ?_, ?_, ⟨hq.tiles.append htiles, hgap, ?_, ?_⟩, hack₃.trans hack', htiles.le, ?_⟩
  · rw [incomingAt, if_neg (not_not.mpr hport)]
    simp only [hs.noRst, Bool.false_eq_true, if_false]
    rw [if_neg hdata]
    show (handleInqueue now c₁).bind _ = _
    rw [hhandle]
    rfl
  · rw [hqueue₂, List.append_assoc, ← hyz]
    exact List.rel_append hfront hback
  · rw [hyz] at hsorted
    exact (List.pairwise_append.mp hsorted).2.1
  · intro y hy
    rw [List.append_assoc, ← hyz, List.mem_append] at hy
    rcases hy with hy | hy
    · exact hq.near y (List.mem_append_left _ hy)
    · rcases mem_placeOf.mp hy with rfl | hy
      · exact ⟨hpos, hnear⟩
      · exact hq.near y (List.mem_append_right _ hy)
  · rw [hplace, List.append_assoc, ← hyz]

/-! ### A read -/

/-- Behind a gap there is nothing to read. -/
theorem receiveLoop_later (hqueue : List.Forall₂ (Stored stream base) queue xs)
    (hxs : ∀ x ∈ xs, a < x.stop ∧ x.stop < a + 2 ^ 30) (last size : Word) :
    receiveLoop (seqAt base a) queue last size = some (queue, []) := by
  cases hqueue with
  | nil => rfl
  | cons hp _ =>
      obtain ⟨ha, hlt⟩ := hxs _ List.mem_cons_self
      rw [receiveLoop, if_pos (hp.ahead ha hlt)]

/-- `assert(p->size >= (p->packet->hdrlen >> 4) * 4)` holds, and there is data. -/
theorem Stored.header {p : Packet} {x : Piece} (hp : Stored stream base p x) :
    ¬ p.packet.size < p.packet.hdrBytes ∧ p.packet.dataSz ≠ 0 :=
  ⟨hp.carries.header, hp.carries.dataSz_pos⟩

/-- A read of nothing changes nothing; `last` is not so that a packet looks drained. -/
theorem receiveLoop_zero : ∀ {queue : List Packet} {ready : List Piece} {lo : Nat} {last : Word},
    List.Forall₂ (Stored stream base) queue (ready ++ later) →
      Tiles Piece.start Piece.stop lo ready a → (∀ x ∈ ready, a < x.start + 2 ^ 31) →
      (∀ x ∈ later, a < x.stop ∧ x.stop < a + 2 ^ 30) →
      ((last - seqAt base lo).toNat = 0 ∨ 2 ^ 16 ≤ (last - seqAt base lo).toNat) →
      receiveLoop (seqAt base a) queue last 0 = some (queue, [])
  | queue, [], _, last, hqueue, _, _, hlater, _ => receiveLoop_later hqueue hlater last 0
  | p :: queue, x :: ready, lo, last, .cons hp hqueue, ⟨hlo, _, htiles⟩, hnear, hlater, hlast => by
      have hstop := htiles.le
      have hahead : p.ahead (seqAt base a) = false :=
        hp.not_ahead hstop (by have := hnear x List.mem_cons_self; have := hp.carries.nonempty; omega)
      obtain ⟨hheader, hdata⟩ := hp.header
      have hcopy : copySz p last 0 = 0 := by
        simp only [copySz]
        split
        · rfl
        · rename_i h
          exact BitVec.eq_of_toNat_eq (by
            rw [BitVec.lt_def] at h
            have : (0 : Word).toNat = 0 := rfl
            omega)
      have hsame : ({ p with readOffset := p.readOffset + 0 } : Packet) = p := by
        rw [show p.readOffset + 0 = p.readOffset from BitVec.add_zero _]
      have hdrained : p.drained last = false := by
        simp only [Packet.drained, decide_eq_false_iff_not, hp.unread, hp.seq, hlo]
        intro heq
        have hlen := hp.carries.dataSz_toNat
        have hpos := hp.carries.nonempty
        have hlt := hp.carries.length_lt
        rw [heq, show (0 : Word) + last = last from BitVec.zero_add _] at hlen
        omega
      have hnext : receiveLoop (seqAt base a) queue p.seqEnd 0 = some (queue, []) :=
        receiveLoop_zero hqueue htiles (fun y hy => hnear y (List.mem_cons_of_mem _ hy)) hlater
          (.inl (by rw [hp.seqEnd, BitVec.sub_self]; rfl))
      rw [receiveLoop, if_neg (by simp [hahead]), if_neg hheader, if_neg hdata]
      simp only [hcopy, hsame, hdrained, show (0 : Word) - 0 = 0 from rfl, hnext]
      simp [copied]

/-- What a read of the whole first packet copies. -/
theorem Stored.whole {p : Packet} {x : Piece} (hp : Stored stream base p x) {size : Word}
    (hsize : p.packet.dataSz ≤ size) :
    copySz p p.seq size = p.packet.dataSz ∧
      copied p p.packet.dataSz = (stream.take x.stop).drop x.start ∧
      (copied p p.packet.dataSz).length = p.packet.dataSz.toNat ∧
      ({ p with readOffset := p.readOffset + p.packet.dataSz } : Packet).drained p.seq = true := by
  have hlen : ((stream.take x.stop).drop x.start).length = p.packet.dataSz.toNat := by
    rw [hp.carries.dataSz_toNat, List.length_drop, List.length_take,
      Nat.min_eq_left hp.carries.inside]
  have hcopied : copied p p.packet.dataSz = (stream.take x.stop).drop x.start := by
    rw [copied, hp.carries.data]
    exact List.take_of_length_le (Nat.le_of_eq hlen)
  have hremaining : p.packet.dataSz - p.readOffset - (p.seq - p.seq) = p.packet.dataSz := by
    rw [hp.unread, BitVec.sub_self]
    simp
  refine ⟨?_, hcopied, by rw [hcopied, hlen], ?_⟩
  · simp only [copySz, hremaining]
    rw [if_neg]
    rw [BitVec.lt_def, BitVec.le_def] at *
    omega
  · simp only [Packet.drained, decide_eq_true_eq]
    rw [show ({ p with readOffset := p.readOffset + p.packet.dataSz } : Packet).seq = p.seq from rfl,
      hp.unread, BitVec.add_sub_cancel]
    simp

/-- The read takes nothing, or the first acknowledged packet whole; and unless it takes just that
one, there is at most one more. -/
def ReadsWhole (c : TcpConnection) (size : Word) : Prop :=
  size = 0 ∨ match c.inqueue.takeWhile fun p => !p.ahead c.ack with
    | [] => True
    | p :: queue => p.packet.dataSz ≤ size ∧ (size = p.packet.dataSz ∨ queue.length ≤ 1)

/-- The acknowledged packets are those at the front. -/
theorem takeWhile_ready {front back : List Packet}
    (hfront : List.Forall₂ (Stored stream base) front ready)
    (hback : List.Forall₂ (Stored stream base) back later)
    (hready : ∀ x ∈ ready, x.stop ≤ a ∧ a < x.start + 2 ^ 31)
    (hlater : ∀ x ∈ later, a < x.stop ∧ x.stop < a + 2 ^ 30) :
    (front ++ back).takeWhile (fun p => !p.ahead (seqAt base a)) = front := by
  induction hfront with
  | nil =>
      cases hback with
      | nil => rfl
      | cons hp _ =>
          obtain ⟨ha, hlt⟩ := hlater _ List.mem_cons_self
          simp [hp.ahead ha hlt]
  | cons hp _ ih =>
      obtain ⟨ha, hlt⟩ := hready _ List.mem_cons_self
      have hpos := hp.carries.nonempty
      rw [List.cons_append, List.takeWhile_cons_of_pos (by simp [hp.not_ahead ha (by omega)]),
        ih fun y hy => hready y (List.mem_cons_of_mem _ hy)]

/-- The `last_seq_end` that `tcp_receive` begins with. -/
def firstSeq : List Packet → Word
  | p :: _ => p.seq
  | [] => 0

theorem tcpReceive_of_loop {size : Word} {queue' : List Packet} {bytes : List Byte}
    (h : receiveLoop c.ack c.inqueue (firstSeq c.inqueue) size = some (queue', bytes)) :
    tcpReceive c size = some ({ c with inqueue := queue' }, bytes) := by
  rw [tcpReceive]
  show (receiveLoop c.ack c.inqueue (firstSeq c.inqueue) size).bind _ = _
  rw [h]
  rfl

/-- A read that takes packets whole hands out the first piece. -/
theorem tcpReceive_whole {size : Word}
    (hqueue : List.Forall₂ (Stored stream base) c.inqueue (ready ++ later))
    (hq : Queued r a ready later) (hack : c.ack = seqAt base a) (hsize : ReadsWhole c size) :
    tcpReceive c size = some (c, []) ∨
    ∃ x rest c', ready = x :: rest ∧ c'.ack = c.ack ∧
      tcpReceive c size = some (c', (stream.take x.stop).drop x.start) ∧
      List.Forall₂ (Stored stream base) c'.inqueue (rest ++ later) := by
  have hlater : ∀ x ∈ later, a < x.stop ∧ x.stop < a + 2 ^ 30 := by
    intro x hx
    have := hq.near x (List.mem_append_right _ hx)
    have := hq.gap x hx
    have := hq.le
    omega
  obtain ⟨front, back, hsplit, hfront, hback⟩ :
      ∃ front back, c.inqueue = front ++ back ∧ List.Forall₂ (Stored stream base) front ready ∧
        List.Forall₂ (Stored stream base) back later :=
    ⟨_, _, (List.take_append_drop _ _).symm, List.forall₂_take_append _ _ _ hqueue,
      List.forall₂_drop_append _ _ _ hqueue⟩
  simp only [ReadsWhole, hack, hsplit,
    takeWhile_ready hfront hback (fun x hx => hq.ready_near hx) hlater] at hsize
  cases hfront with
  | nil =>
      have hloop : receiveLoop c.ack c.inqueue (firstSeq c.inqueue) size = some (c.inqueue, []) := by
        rw [hack, hsplit]
        exact receiveLoop_later hback hlater _ size
      exact .inl (tcpReceive_of_loop hloop)
  | @cons p x front rest hp hfront =>
      have hfirst : firstSeq c.inqueue = p.seq := by rw [hsplit]; rfl
      obtain ⟨hlo, hpos, htiles⟩ := hq.tiles
      have hnear : ∀ y ∈ x :: rest, a < y.start + 2 ^ 31 := fun y hy => (hq.ready_near hy).2
      rcases hsize with rfl | ⟨hle, hsize⟩
      · left
        have hzero : (p.seq - seqAt base r).toNat = 0 := by
          rw [hp.seq, hlo, BitVec.sub_self]
          rfl
        refine tcpReceive_of_loop ?_
        rw [hack, hfirst]
        exact receiveLoop_zero hqueue hq.tiles hnear hlater (.inl hzero)
      · right
        obtain ⟨hcopy, hcopied, hlength, hdrained⟩ := hp.whole hle
        have hahead : p.ahead (seqAt base a) = false :=
          hp.not_ahead (hq.ready_near List.mem_cons_self).1
            (by have := hnear x List.mem_cons_self; omega)
        obtain ⟨hheader, hdata⟩ := hp.header
        -- the next packet is passed over, and the ones behind it are not looked at
        have hbehind : ∀ q queue, front ++ back = q :: queue →
            receiveLoop (seqAt base a) queue p.seqEnd (size - p.packet.dataSz) =
              some (queue, []) := by
          intro q queue heq
          cases hfront with
          | nil =>
              rw [List.nil_append] at heq
              subst heq
              cases hback with
              | cons _ hback =>
                  exact receiveLoop_later hback
                    (fun y hy => hlater y (List.mem_cons_of_mem _ hy)) _ _
          | @cons q' y front rest hq' hfront =>
              obtain ⟨rfl, rfl⟩ := List.cons.inj heq
              obtain ⟨hlo', hpos', htiles'⟩ := htiles
              rcases hsize with rfl | hshort
              · have hbefore : (p.seqEnd - seqAt base y.stop).toNat = 2 ^ 32 - (y.stop - x.stop) := by
                  rw [hp.seqEnd]
                  exact seqAt_sub_back (by omega) (by have := hq'.carries.length_lt; omega)
                rw [BitVec.sub_self]
                refine receiveLoop_zero (List.rel_append hfront hback) htiles'
                  (fun z hz => hnear z (by simp [hz])) hlater (.inr ?_)
                have := hq'.carries.length_lt
                omega
              · have hnone : front = [] := by
                  cases front with
                  | nil => rfl
                  | cons => simp at hshort
                subst hnone
                cases hfront
                exact receiveLoop_later hback hlater _ _
        have hloop : receiveLoop c.ack c.inqueue (firstSeq c.inqueue) size =
            some (front ++ back, (stream.take x.stop).drop x.start) := by
          rw [hack, hfirst, hsplit, List.cons_append, receiveLoop, if_neg (by simp [hahead]),
            if_neg hheader, if_neg hdata]
          simp only [hcopy, hlength, Nat.lt_irrefl, if_false, hdrained, if_true]
          cases htail : front ++ back with
          | nil => rw [hcopied]
          | cons q queue =>
              simp only [hbehind q queue htail]
              simp [hcopied]
        exact ⟨x, rest, { c with inqueue := front ++ back }, rfl, rfl, tcpReceive_of_loop hloop,
          List.rel_append hfront hback⟩

end queue

/-! ### Every run -/

/-- A connection, the bytes that the reads have returned, and the pieces that have come (which the
service does not note). -/
structure StreamState where
  conn : TcpConnection
  received : List Byte
  got : List Piece

def StreamState.start (c : TcpConnection) : StreamState := ⟨c, [], []⟩

inductive StreamOp where
  /-- a segment comes in, with a piece of the stream or with nothing -/
  | arrive (now : Int) (x : Option Piece) (s : Segment)
  /-- `tcp_receive` -/
  | read (size : Word)

def streamStep (w : StreamState) : StreamOp → Option StreamState
  | .arrive now x s => (incomingAt now s w.conn).map fun r =>
      { w with conn := r.1, got := x.toList ++ w.got }
  | .read size => (tcpReceive w.conn size).map fun r =>
      { w with conn := r.1, received := w.received ++ r.2 }

/-- What comes in belongs to the peer's stream, or is an acknowledgement and nothing else. -/
def OfStream (stream : List Byte) (base : Word) (w : StreamState) : StreamOp → Prop
  | .arrive _ (some x) s => s.destPort = w.conn.port ∧ Carries stream base x s
  | .arrive _ none s => s.dataSz = 0 ∧ s.has (tcpFin ||| tcpSyn ||| tcpRst) = false
  | .read _ => True

/-- No byte of a segment has come before, the segment ends less than 1 GiB behind the last byte that
was read, and its number compares with those in the queue like the places in the stream; and a read
takes packets whole. -/
def Orderly (base : Word) (w : StreamState) : StreamOp → Prop
  | .arrive _ (some x) s =>
      (∀ y ∈ w.got, x.stop ≤ y.start ∨ y.stop ≤ x.start) ∧ x.stop < w.received.length + 2 ^ 30 ∧
        ∀ q ∈ w.conn.inqueue, q.seq ≤ s.seq ↔
          offset base w.received.length q.seq ≤ offset base w.received.length s.seq
  | .arrive _ none _ => True
  | .read size => ReadsWhole w.conn size

/-- What has come is read, waits to be read, or waits behind a gap. -/
structure StreamInv (stream : List Byte) (base : Word) (w : StreamState) (ready later : List Piece)
    (a : Nat) : Prop where
  queue : List.Forall₂ (Stored stream base) w.conn.inqueue (ready ++ later)
  queued : Queued w.received.length a ready later
  ack : w.conn.ack = seqAt base a
  known : ∀ x ∈ ready ++ later, x ∈ w.got
  covered : ∀ k < a, ∃ x ∈ w.got, x.start ≤ k ∧ k < x.stop
  inOrder : w.received <+: stream

section runs

variable {stream : List Byte} {base : Word} {w : StreamState} {ready later : List Piece} {a : Nat}

theorem StreamInv.start {c : TcpConnection} (hempty : c.inqueue = []) (hack : c.ack = base) :
    StreamInv stream base (.start c) [] [] 0 where
  queue := by rw [show (StreamState.start c).conn = c from rfl, hempty]; exact .nil
  queued := ⟨rfl, by simp, .nil, by simp⟩
  ack := hack.trans (by simp [seqAt])
  known := by simp
  covered k hk := absurd hk (Nat.not_lt_zero k)
  inOrder := List.nil_prefix

theorem StreamInv.arrive (h : StreamInv stream base w ready later a) {now : Int} {x : Piece}
    {s : Segment} (hs : OfStream stream base w (.arrive now (some x) s))
    (ok : Orderly base w (.arrive now (some x) s)) :
    ∃ w', streamStep w (.arrive now (some x) s) = some w' ∧
      ∃ ready' later' a', StreamInv stream base w' ready' later' a' := by
  obtain ⟨hport, hcarries⟩ := hs
  obtain ⟨hnew, hnear, horder⟩ := ok
  have hpos := hcarries.nonempty
  -- all that is acknowledged has come before
  have hax : a ≤ x.start := by
    by_contra hlt
    obtain ⟨y, hy, hle, hlt⟩ := h.covered x.start (by omega)
    have := hnew y hy
    omega
  obtain ⟨c', out, ready', later', a', hin, hqueue, hqueued, hack, hle, hplace⟩ :=
    incomingAt_piece h.queue h.queued h.ack hcarries hport hax hnear
      (fun y hy => hnew y (h.known y (List.mem_append_right _ hy))) horder
  have hknown : ∀ y ∈ ready' ++ later', y ∈ x :: w.got := by
    intro y hy
    rw [hplace, mem_placeOf] at hy
    rcases hy with rfl | hy
    · exact List.mem_cons_self
    · exact List.mem_cons_of_mem _ (h.known y hy)
  refine ⟨⟨c', w.received, x :: w.got⟩, by rw [streamStep, hin]; rfl, ready', later', a', hqueue,
    hqueued, hack, hknown, fun k hk => ?_, h.inOrder⟩
  by_cases hka : k < a
  · obtain ⟨y, hy, hin⟩ := h.covered k hka
    exact ⟨y, List.mem_cons_of_mem _ hy, hin⟩
  · obtain ⟨y, hy, hin⟩ := hqueued.tiles.cover (by have := h.queued.le; omega) hk
    exact ⟨y, hknown y (List.mem_append_left _ hy), hin⟩

/-- An acknowledgement does not come to the input queue. -/
theorem StreamInv.acknowledge (h : StreamInv stream base w ready later a) {now : Int} {s : Segment}
    (hs : OfStream stream base w (.arrive now none s)) :
    ∃ w', streamStep w (.arrive now none s) = some w' ∧
      StreamInv stream base w' ready later a := by
  obtain ⟨hdata, hflags⟩ := hs
  have hbits : ∀ f : Byte, (f &&& (tcpFin ||| tcpSyn ||| tcpRst) != 0) = false →
      (f &&& tcpSyn != 0) = false ∧ (f &&& tcpRst != 0) = false := by decide
  obtain ⟨hsyn, hrst⟩ := hbits s.flags hflags
  obtain ⟨hack, hqueue⟩ := noteSegment_stream (s := s) hsyn w.conn
  by_cases hport : s.destPort = w.conn.port
  · have hin : incomingAt now s w.conn = some (noteSegment s w.conn, []) := by
      rw [incomingAt, if_neg (not_not.mpr hport)]
      simp only [show s.has tcpRst = false from hrst, Bool.false_eq_true, if_false]
      rw [if_pos ⟨hdata, by simp [hflags]⟩]
    exact ⟨⟨noteSegment s w.conn, w.received, w.got⟩, by rw [streamStep, hin]; rfl,
      by rw [hqueue]; exact h.queue, h.queued, hack.trans h.ack, h.known, h.covered, h.inOrder⟩
  · have hin : incomingAt now s w.conn = some (w.conn, []) := by rw [incomingAt, if_pos hport]
    exact ⟨w, by rw [streamStep, hin]; rfl, h⟩

theorem StreamInv.read (h : StreamInv stream base w ready later a) {size : Word}
    (ok : Orderly base w (.read size)) :
    ∃ w', streamStep w (.read size) = some w' ∧
      ∃ ready' later' a', StreamInv stream base w' ready' later' a' := by
  rcases tcpReceive_whole h.queue h.queued h.ack ok with
    hnone | ⟨x, rest, c', rfl, hack, hread, hqueue⟩
  · exact ⟨⟨w.conn, w.received ++ [], w.got⟩, by rw [streamStep, hnone]; rfl, ready, later, a,
      by rw [List.append_nil]; exact ⟨h.queue, h.queued, h.ack, h.known, h.covered, h.inOrder⟩⟩
  · obtain ⟨hlo, hpos, htiles⟩ := h.queued.tiles
    -- the piece goes on where the bytes read before end
    have hreceived : w.received ++ (stream.take x.stop).drop x.start = stream.take x.stop := by
      have hbefore := List.prefix_iff_eq_take.mp h.inOrder
      have htake : w.received = (stream.take x.stop).take x.start := by
        rw [List.take_take, Nat.min_eq_left (by omega), hlo]
        exact hbefore
      rw [htake]
      exact List.take_append_drop _ _
    have hlen : (w.received ++ (stream.take x.stop).drop x.start).length = x.stop := by
      have hinside : x.stop ≤ stream.length := by
        obtain ⟨p, -, hp, -⟩ := List.forall₂_cons_right_iff.mp h.queue
        exact hp.carries.inside
      rw [hreceived, List.length_take, Nat.min_eq_left hinside]
    refine ⟨⟨c', _, w.got⟩, by rw [streamStep, hread]; rfl, rest, later, a, hqueue, ?_,
      hack.trans h.ack, fun y hy => h.known y (List.mem_cons_of_mem _ hy), h.covered, ?_⟩
    · rw [hlen]
      refine ⟨htiles, h.queued.gap, h.queued.apart, fun y hy => ?_⟩
      have := h.queued.near y (List.mem_cons_of_mem _ hy)
      exact ⟨this.1, by omega⟩
    · rw [hreceived]
      exact List.take_prefix _ _

theorem StreamInv.step (h : StreamInv stream base w ready later a) {op : StreamOp}
    (hs : OfStream stream base w op) (ok : Orderly base w op) :
    ∃ w', streamStep w op = some w' ∧
      ∃ ready' later' a', StreamInv stream base w' ready' later' a' := by
  cases op with
  | arrive now x s =>
      cases x with
      | some x => exact h.arrive hs ok
      | none =>
          obtain ⟨w', hstep, hi⟩ := h.acknowledge hs
          exact ⟨w', hstep, ready, later, a, hi⟩
  | read size => exact h.read ok

/-- **The stream comes through** in every run of orderly arrivals and reads: what the reads return
is a prefix of it; and the service does not stop at the next such step. -/
theorem tcp_stream_in_order {c : TcpConnection} {ops : List StreamOp} (hempty : c.inqueue = [])
    (hack : c.ack = base)
    (h : Run streamStep (fun w op => OfStream stream base w op ∧ Orderly base w op) (.start c) ops w) :
    w.received <+: stream ∧
      ∀ op, OfStream stream base w op → Orderly base w op → (streamStep w op).isSome := by
  have hinv : ∃ ready later a, StreamInv stream base w ready later a := by
    refine h.invariant (I := fun w => ∃ ready later a, StreamInv stream base w ready later a)
      ?_ ⟨[], [], 0, .start hempty hack⟩
    rintro w op w' ⟨ready, later, a, hi⟩ ⟨hs, ok⟩ hstep
    obtain ⟨w₁, hstep₁, hi₁⟩ := hi.step hs ok
    cases hstep.symm.trans hstep₁
    exact hi₁
  obtain ⟨ready, later, a, hi⟩ := hinv
  refine ⟨hi.inOrder, fun op hs ok => ?_⟩
  obtain ⟨w', hstep, -⟩ := hi.step hs ok
  rw [hstep]
  rfl

end runs

/-- An open connection to a peer whose stream begins at 0, and its first segment. -/
def openConnection : TcpConnection :=
  { id := 0, ip := 1, destIp := 2, port := 1024, destPort := 80, status := .opened, seq := 0,
    ack := 0, owner := 1, signal := false, window := defaultWindow, inqueue := [], outqueue := [] }

def twoBytes : Segment :=
  { srcPort := 80, destPort := 1024, seq := 0, ack := 0, hdrlen := 0x50, flags := tcpAck,
    window := 16384, checksum := 0, urgentptr := 0, rest := [1, 2] }

theorem twoBytes_carries : Carries [1, 2] 0 ⟨0, 2⟩ twoBytes where
  seq := rfl
  data := rfl
  nonempty := by decide
  inside := by decide
  header := by decide
  short := by decide
  noSyn := rfl
  noRst := rfl

/-- The packet of `twoBytes` when `n` bytes of it have been read. -/
def twoBytesRead (n : Word) : Packet :=
  { lastTimeSent := 0, seqEnd := 2, readOffset := n, packet := twoBytes }

/-- The segment behind it. -/
def nextTwoBytes : Segment := { twoBytes with seq := 2, rest := [3, 4] }

def nextTwoBytesUnread : Packet :=
  { lastTimeSent := 0, seqEnd := 4, readOffset := 0, packet := nextTwoBytes }

/-- The connection after an acknowledgement of the first `n` bytes, while `queue` waits to be read. -/
def acknowledged (n : Word) (checksum : Half) (queue : List Packet) : TcpConnection :=
  let acknowledgement : Segment :=
    { srcPort := 1024, destPort := 80, seq := 0, ack := n, hdrlen := 0x50, flags := tcpAck,
      window := 16384, checksum, urgentptr := 0, rest := [] }
  { openConnection with
    ack := n, inqueue := queue
    outqueue := [{ lastTimeSent := 0, seqEnd := 0, readOffset := 0, packet := acknowledgement }] }

/-- The second segment comes first, and each is read whole. -/
theorem two_segments_exchanged :
    incomingAt 0 nextTwoBytes openConnection =
        some (acknowledged 0 27522 [nextTwoBytesUnread], []) ∧
      incomingAt 1 twoBytes (acknowledged 0 27522 [nextTwoBytesUnread]) =
        some (acknowledged 4 27518 [twoBytesRead 0, nextTwoBytesUnread], []) ∧
      tcpReceive (acknowledged 4 27518 [twoBytesRead 0, nextTwoBytesUnread]) 2 =
        some (acknowledged 4 27518 [nextTwoBytesUnread], [1, 2]) ∧
      tcpReceive (acknowledged 4 27518 [nextTwoBytesUnread]) 2 =
        some (acknowledged 4 27518 [], [3, 4]) := by
  decide +kernel

theorem tcp_stream_in_order_two : ∃ w,
    Run streamStep (fun w op => OfStream [1, 2, 3, 4] 0 w op ∧ Orderly 0 w op) (.start openConnection)
      [.arrive 0 (some ⟨2, 4⟩) nextTwoBytes, .arrive 1 (some ⟨0, 2⟩) twoBytes, .read 2, .read 2] w ∧
    w.received = [1, 2, 3, 4] ∧ w.received <+: [1, 2, 3, 4] := by
  have hfirst : Carries [1, 2, 3, 4] 0 ⟨0, 2⟩ twoBytes :=
    ⟨rfl, rfl, by decide, by decide, by decide, by decide, rfl, rfl⟩
  have hnext : Carries [1, 2, 3, 4] 0 ⟨2, 4⟩ nextTwoBytes :=
    ⟨rfl, rfl, by decide, by decide, by decide, by decide, rfl, rfl⟩
  obtain ⟨h₁, h₂, h₃, h₄⟩ := two_segments_exchanged
  have hstep₁ : streamStep (.start openConnection) (.arrive 0 (some ⟨2, 4⟩) nextTwoBytes) =
      some ⟨acknowledged 0 27522 [nextTwoBytesUnread], [], [⟨2, 4⟩]⟩ := by
    rw [streamStep, StreamState.start, h₁]; rfl
  have hstep₂ : streamStep ⟨acknowledged 0 27522 [nextTwoBytesUnread], [], [⟨2, 4⟩]⟩
      (.arrive 1 (some ⟨0, 2⟩) twoBytes) =
      some ⟨acknowledged 4 27518 [twoBytesRead 0, nextTwoBytesUnread], [], [⟨0, 2⟩, ⟨2, 4⟩]⟩ := by
    rw [streamStep, h₂]; rfl
  have hstep₃ : streamStep ⟨acknowledged 4 27518 [twoBytesRead 0, nextTwoBytesUnread], [],
      [⟨0, 2⟩, ⟨2, 4⟩]⟩ (.read 2) =
      some ⟨acknowledged 4 27518 [nextTwoBytesUnread], [1, 2], [⟨0, 2⟩, ⟨2, 4⟩]⟩ := by
    rw [streamStep, h₃]; rfl
  have hstep₄ : streamStep ⟨acknowledged 4 27518 [nextTwoBytesUnread], [1, 2], [⟨0, 2⟩, ⟨2, 4⟩]⟩
      (.read 2) = some ⟨acknowledged 4 27518 [], [1, 2, 3, 4], [⟨0, 2⟩, ⟨2, 4⟩]⟩ := by
    rw [streamStep, h₄]; rfl
  have hrun : Run streamStep (fun w op => OfStream [1, 2, 3, 4] 0 w op ∧ Orderly 0 w op)
      (.start openConnection)
      [.arrive 0 (some ⟨2, 4⟩) nextTwoBytes, .arrive 1 (some ⟨0, 2⟩) twoBytes, .read 2, .read 2] _ :=
    .more ⟨⟨rfl, hnext⟩, nofun, by decide, nofun⟩ hstep₁
      (.more ⟨⟨rfl, hfirst⟩, by decide, by decide, by decide⟩ hstep₂
      (.more ⟨trivial, .inr ⟨by decide, .inl rfl⟩⟩ hstep₃
      (.one ⟨trivial, .inr ⟨by decide, .inl rfl⟩⟩ hstep₄)))
  have hempty : openConnection.inqueue = [] := rfl
  have hack : openConnection.ack = 0 := rfl
  exact ⟨_, hrun, rfl, (tcp_stream_in_order hempty hack hrun).1⟩

theorem twoBytes_arrive : ∃ c out, incomingAt 0 twoBytes openConnection = some (c, out) ∧
    c.ack = 2 ∧ c.inqueue = [twoBytesRead 0] :=
  ⟨_, _, rfl, rfl, rfl⟩

/-- Two reads of one byte each: the second returns the first byte again. -/
theorem partial_read_repeats : ∃ ops w, Run streamStep (OfStream [1, 2] 0) (.start openConnection)
    ops w ∧ w.received = [1, 1] ∧ ¬ w.received <+: [1, 2] := by
  obtain ⟨c, out, harrive, hack, hqueue⟩ := twoBytes_arrive
  have hfirst : tcpReceive c 1 = some ({ c with inqueue := [twoBytesRead 1] }, [1]) :=
    tcpReceive_of_loop (by rw [hack, hqueue]; rfl)
  have hsecond : tcpReceive { c with inqueue := [twoBytesRead 1] } 1 =
      some ({ c with inqueue := [] }, [1]) :=
    tcpReceive_of_loop (by dsimp only; rw [hack]; rfl)
  have h₁ : streamStep (.start openConnection) (.arrive 0 (some ⟨0, 2⟩) twoBytes) =
      some ⟨c, [], [⟨0, 2⟩]⟩ := by
    rw [streamStep, StreamState.start, harrive]
    rfl
  have h₂ : streamStep ⟨c, [], [⟨0, 2⟩]⟩ (.read 1) =
      some ⟨{ c with inqueue := [twoBytesRead 1] }, [1], [⟨0, 2⟩]⟩ := by
    rw [streamStep, hfirst]
    rfl
  have h₃ : streamStep ⟨{ c with inqueue := [twoBytesRead 1] }, [1], [⟨0, 2⟩]⟩ (.read 1) =
      some ⟨{ c with inqueue := [] }, [1, 1], [⟨0, 2⟩]⟩ := by
    rw [streamStep, hsecond]
    rfl
  refine ⟨[.arrive 0 (some ⟨0, 2⟩) twoBytes, .read 1, .read 1], _,
    .more ⟨rfl, twoBytes_carries⟩ h₁ (.more trivial h₂ (.more trivial h₃ (.refl _))), rfl, ?_⟩
  show ¬ ([1, 1] : List Byte) <+: [1, 2]
  decide

end Muxomucota.Net
