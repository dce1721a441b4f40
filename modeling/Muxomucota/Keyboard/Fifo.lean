import Muxomucota.Lib.Ring
import Muxomucota.Keyboard.Driver

/-!
# Keyboard — the FIFO

`ps2-keyboard.c`: `fifo_buffer` with its two indices, and the functions that work on it.  Each takes
`fifo_lock` for as long as it runs, so that the calls of all threads come one after the other.  They are
compared with a queue of bytes that keeps the last 1023 (`Queue`).

* `Fifo.calls_refine`: any calls answer as the queue does, and the ring then holds what the queue holds.
* `fifo_is_queue`: the same from the start of the driver on, with what the next call would answer.
* `fifoWrite_driver`: the list that the driver's model keeps is what the ring holds.
-/

namespace Muxomucota.Keyboard
open Muxomucota.Lib

/-- `EOF` -/
def eof : Int := -1

/-! ### The ring -/

/-- The static variables; the memory for the buffer comes from `malloc`. -/
structure Fifo where
  buffer : Vector Byte 1024
  readIdx : Nat
  writeIdx : Nat
  read_lt : readIdx < 1024
  write_lt : writeIdx < 1024

/-- The flags of a pipe: `F_PRESSURE`, `F_READABLE`, `F_WRITABLE`, and those the keyboard does not know. -/
inductive Flag where
  | pressure
  | readable
  | writable
  | other
  deriving DecidableEq

namespace Fifo

/-- `fifo_init`: what the memory holds is anything. -/
def init (buffer : Vector Byte 1024) : Fifo where
  buffer := buffer
  readIdx := 0
  writeIdx := 0
  read_lt := by decide
  write_lt := by decide

def advanceRead (f : Fifo) : Fifo :=
  { f with readIdx := (f.readIdx + 1) % 1024, read_lt := Nat.mod_lt _ (by decide) }

def fifoWrite (f : Fifo) (c : Byte) : Fifo :=
  let f := { f with
    buffer := f.buffer.set f.writeIdx c f.write_lt
    writeIdx := (f.writeIdx + 1) % 1024
    write_lt := Nat.mod_lt _ (by decide) }
  -- an overflow discards the oldest entry
  if f.writeIdx = f.readIdx then f.advanceRead else f

def fifoRead (f : Fifo) : Int × Fifo :=
  if f.readIdx = f.writeIdx then (eof, f)
  else ((f.buffer.get ⟨f.readIdx, f.read_lt⟩).toNat, f.advanceRead)

def fifoEof (f : Fifo) : Bool × Fifo :=
  if f.readIdx = f.writeIdx then (false, f)
  else
    let c := f.buffer.get ⟨f.readIdx, f.read_lt⟩
    (c = 255, if c = 255 then f.advanceRead else f)

/-- `service_pipe_get_flag`; `none` is 0 with `EINVAL`. -/
def pipeGetFlag (f : Fifo) : Flag → Option Nat × Fifo
  | .pressure => (some ((f.writeIdx + 1024 - f.readIdx) % 1024), f)
  | .readable => (some (!f.fifoEof.1).toNat, f.fifoEof.2)
  | .writable => (some 0, f)
  | .other => (none, f)

/-- The bytes that have been written and not been read, in order. -/
def contents (f : Fifo) : List Byte :=
  Ring.contents f.buffer.get f.readIdx f.writeIdx f.read_lt

end Fifo

/-! ### The queue -/

/-- A queue of bytes. -/
abbrev Queue := List Byte

namespace Queue

/-- The last 1023 are kept. -/
def write (q : Queue) (c : Byte) : Queue := (q ++ [c]).rtake 1023

def read : Queue → Int × Queue
  | [] => (eof, [])
  | c :: q => (c.toNat, q)

/-- The head goes if it is the mark. -/
def takeMark (q : Queue) : Bool × Queue :=
  if q.head? = some 255 then (true, q.tail) else (false, q)

def getFlag (q : Queue) : Flag → Option Nat × Queue
  | .pressure => (some q.length, q)
  | .readable => (some (!q.takeMark.1).toNat, q.takeMark.2)
  | .writable => (some 0, q)
  | .other => (none, q)

end Queue

/-! ### Calls -/

inductive Call where
  | write (c : Byte)
  | read
  | eof
  | getFlag (flag : Flag)

/-- What a call returns. -/
inductive Reply where
  | done
  | int (n : Int)
  | bool (b : Bool)
  | flag (value : Option Nat)
  deriving DecidableEq

def Fifo.call (f : Fifo) : Call → Reply × Fifo
  | .write c => (.done, f.fifoWrite c)
  | .read => (.int f.fifoRead.1, f.fifoRead.2)
  | .eof => (.bool f.fifoEof.1, f.fifoEof.2)
  | .getFlag flag => (.flag (f.pipeGetFlag flag).1, (f.pipeGetFlag flag).2)

def Queue.call (q : Queue) : Call → Reply × Queue
  | .write c => (.done, q.write c)
  | .read => (.int q.read.1, q.read.2)
  | .eof => (.bool q.takeMark.1, q.takeMark.2)
  | .getFlag flag => (.flag (q.getFlag flag).1, (q.getFlag flag).2)

/-- The replies to the calls, and what is there after them. -/
def Fifo.calls (f : Fifo) : List Call → List Reply × Fifo
  | [] => ([], f)
  | call :: calls =>
      let (reply, f) := f.call call
      let (replies, f) := f.calls calls
      (reply :: replies, f)

def Queue.calls (q : Queue) : List Call → List Reply × Queue
  | [] => ([], q)
  | call :: calls =>
      let (reply, q) := q.call call
      let (replies, q) := Queue.calls q calls
      (reply :: replies, q)

/-! ### One call -/

namespace Fifo

theorem contents_init (buffer : Vector Byte 1024) : (init buffer).contents = [] :=
  (Ring.contents_eq_nil_iff _ (init buffer).read_lt (init buffer).write_lt).mpr rfl

theorem length_contents (f : Fifo) :
    f.contents.length = (f.writeIdx + 1024 - f.readIdx) % 1024 :=
  Ring.length_window _ f.read_lt

/-- One slot stays free. -/
theorem length_contents_le (f : Fifo) : f.contents.length ≤ 1023 := by
  have hlt : Ring.used 1024 f.readIdx f.writeIdx < 1024 := Ring.used_lt f.read_lt
  have hlen : f.contents.length = Ring.used 1024 f.readIdx f.writeIdx := f.length_contents
  omega

theorem contents_of_eq {f : Fifo} (h : f.readIdx = f.writeIdx) : f.contents = [] :=
  (Ring.contents_eq_nil_iff _ f.read_lt f.write_lt).mpr h

theorem contents_of_ne {f : Fifo} (h : f.readIdx ≠ f.writeIdx) :
    f.contents = f.buffer.get ⟨f.readIdx, f.read_lt⟩ :: f.advanceRead.contents :=
  Ring.contents_read _ f.read_lt f.write_lt h

theorem get_set (buffer : Vector Byte 1024) {i : Nat} (hi : i < 1024) (c : Byte) :
    (buffer.set i c hi).get = Function.update buffer.get ⟨i, hi⟩ c := by
  funext j
  rcases eq_or_ne j ⟨i, hi⟩ with rfl | hne
  · rw [Function.update_self]
    exact Vector.getElem_set_self hi
  · rw [Function.update_of_ne hne]
    exact Vector.getElem_set_ne hi j.isLt fun h => hne (Fin.ext h.symm)

theorem contents_fifoWrite (f : Fifo) (c : Byte) :
    (f.fifoWrite c).contents = Queue.write f.contents c := by
  have hlen : (f.contents ++ [c]).length = Ring.used 1024 f.readIdx f.writeIdx + 1 := by
    rw [List.length_append, length_contents]
    rfl
  rw [fifoWrite, Queue.write]
  split
  next h =>
    -- the writer has met the reader: all but one slot were used
    have hused := Ring.used_of_next_write f.read_lt f.write_lt h
    rw [rtake_of_length_eq (by omega)]
    show Ring.contents (f.buffer.set f.writeIdx c f.write_lt).get _ _ _ = _
    rw [get_set]
    exact Ring.contents_overflow _ f.read_lt f.write_lt (by decide) h c
  next h =>
    have hle := Ring.used_next_write f.read_lt f.write_lt h
    have hlt := Ring.used_lt f.read_lt (w := Ring.next 1024 f.writeIdx)
    rw [rtake_of_length_le (by omega)]
    show Ring.contents (f.buffer.set f.writeIdx c f.write_lt).get _ _ _ = _
    rw [get_set]
    exact Ring.contents_write _ f.read_lt f.write_lt h c

theorem fifoRead_refines (f : Fifo) :
    (f.fifoRead.1, f.fifoRead.2.contents) = Queue.read f.contents := by
  unfold fifoRead
  split
  next h => rw [contents_of_eq h]; rfl
  next h => rw [contents_of_ne h]; rfl

theorem fifoEof_refines (f : Fifo) :
    (f.fifoEof.1, f.fifoEof.2.contents) = Queue.takeMark f.contents := by
  unfold fifoEof Queue.takeMark
  split
  next h => simp [contents_of_eq h]
  next h =>
    rw [contents_of_ne h]
    by_cases hc : f.buffer.get ⟨f.readIdx, f.read_lt⟩ = 255#8
    · simp [hc]
    · simp [hc, contents_of_ne h]

theorem pipeGetFlag_refines (f : Fifo) (flag : Flag) :
    ((f.pipeGetFlag flag).1, (f.pipeGetFlag flag).2.contents) = Queue.getFlag f.contents flag := by
  cases flag with
  | pressure => exact congrArg (fun n => (some n, f.contents)) f.length_contents.symm
  | readable =>
      have h := f.fifoEof_refines
      simp only [pipeGetFlag, Queue.getFlag, ← h]
  | writable => rfl
  | other => rfl

theorem call_refines (f : Fifo) (call : Call) :
    ((f.call call).1, (f.call call).2.contents) = Queue.call f.contents call := by
  cases call with
  | write c => exact congrArg (Prod.mk Reply.done) (f.contents_fifoWrite c)
  | read => simp only [Fifo.call, Queue.call, ← f.fifoRead_refines]
  | eof => simp only [Fifo.call, Queue.call, ← f.fifoEof_refines]
  | getFlag flag => simp only [Fifo.call, Queue.call, ← f.pipeGetFlag_refines flag]

/-! ### Calls one after the other -/

theorem calls_refine (f : Fifo) (calls : List Call) :
    ((f.calls calls).1, (f.calls calls).2.contents) = Queue.calls f.contents calls := by
  induction calls generalizing f with
  | nil => rfl
  | cons call calls ih => simp only [Fifo.calls, Queue.calls, ← f.call_refines call, ← ih]

/-- After nothing but writes the last 1023 bytes of all are there. -/
theorem contents_writes (f : Fifo) (cs : List Byte) :
    (cs.foldl fifoWrite f).contents = (f.contents ++ cs).rtake 1023 := by
  induction cs generalizing f with
  | nil => rw [List.foldl_nil, List.append_nil, rtake_of_length_le f.length_contents_le]
  | cons c cs ih =>
      rw [List.foldl_cons, ih, contents_fifoWrite, Queue.write, rtake_rtake_append,
        List.append_assoc, List.singleton_append]

/-- A byte that is read is not `EOF`. -/
theorem fifoRead_eof_iff (f : Fifo) : f.fifoRead.1 = eof ↔ f.contents = [] := by
  rw [congrArg Prod.fst f.fifoRead_refines]
  cases f.contents with
  | nil => exact iff_of_true rfl rfl
  | cons c q => exact iff_of_false (by simp [Queue.read, eof]) (by simp)

end Fifo

/-- **The FIFO is a queue**: from the start of the driver on any calls answer as the queue of the last
1023 bytes does, and the ring holds what the queue holds. -/
theorem fifo_is_queue (buffer : Vector Byte 1024) (calls : List Call) :
    ((Fifo.init buffer).calls calls).1 = (Queue.calls [] calls).1 ∧
      ∃ f, ((Fifo.init buffer).calls calls).2 = f ∧ f.contents = (Queue.calls [] calls).2 ∧
        f.contents.length ≤ 1023 ∧
        (∀ c, (f.fifoWrite c).contents = (f.contents ++ [c]).rtake 1023) ∧
        (f.fifoRead.1 = eof ↔ f.contents = []) ∧
        (∀ c q, f.contents = c :: q → f.fifoRead.1 = c.toNat ∧ f.fifoRead.2.contents = q) ∧
        (f.pipeGetFlag .pressure).1 = some f.contents.length ∧
        (f.fifoEof.1 ↔ f.contents.head? = some 255) ∧
        f.fifoEof.2.contents =
          if f.contents.head? = some 255 then f.contents.tail else f.contents := by
  have h := (Fifo.init buffer).calls_refine calls
  rw [Fifo.contents_init] at h
  refine ⟨congrArg Prod.fst h, _, rfl, congrArg Prod.snd h, Fifo.length_contents_le _,
    fun c => Fifo.contents_fifoWrite _ c, Fifo.fifoRead_eof_iff _, fun c q hq => ?_, ?_, ?_, ?_⟩
  · have hread := Fifo.fifoRead_refines ((Fifo.init buffer).calls calls).2
    rw [hq] at hread
    exact ⟨congrArg Prod.fst hread, congrArg Prod.snd hread⟩
  · rw [Fifo.length_contents]
    rfl
  · rw [congrArg Prod.fst (Fifo.fifoEof_refines ((Fifo.init buffer).calls calls).2), Queue.takeMark]
    split <;> simp_all
  · refine (congrArg Prod.snd (Fifo.fifoEof_refines ((Fifo.init buffer).calls calls).2)).trans ?_
    rw [Queue.takeMark]
    split <;> rfl

/-! ### The driver's list -/

theorem fifoWrite_driver (f : Fifo) (d : Driver) (h : d.fifo = f.contents) (c : Byte) :
    (d.fifoWrite c).fifo = (f.fifoWrite c).contents := by
  have hle := f.length_contents_le
  rw [Fifo.contents_fifoWrite, Queue.write, Driver.fifoWrite, h]
  show (if (f.contents ++ [c]).length = 1024 then _ else _) = _
  split
  next hlen => exact (rtake_of_length_eq hlen).symm
  next hlen =>
    refine (rtake_of_length_le ?_).symm
    rw [List.length_append, List.length_singleton] at hlen ⊢
    omega

end Muxomucota.Keyboard
