import Mathlib.Data.BitVec
import Mathlib.Logic.Function.Basic
import Mathlib.Tactic.Common

/-!
# Tasking — `get_new_pid` and `relinquish_pid`

`management.c`.  The kernel runs on one processor and is not preempted (the timer switches tasks only when it
interrupts a process), and neither function yields, so a call runs to its end before the next one begins:
that is `PidTable.step`, and `getNewPid` and `relinquishPid` are the two functions.

`Pids.step` is the same code one access to `used_pids` at a time, with any thread taking its step in between,
which the compare-and-swaps are there for: `get_new_pid` reads a word four times, for the test, for the bit,
for `old` and for `new`, before it compares and swaps; `relinquish_pid` reads it once.  There a PID is
allocated from the compare-and-swap that takes it to the one that gives it back: first it is that of a process
(`live`), then the process is destroyed and `relinquish_pid` runs for it, once (`leaving`).  What `missed` says
of a scan no code reads.
-/

namespace Muxomucota.Tasking

/-- `unsigned long` -/
abbrev Word := BitVec 32

def maxPidCount : Nat := 65536

/-- `MAX_PID_COUNT / LONG_BIT` -/
def pidWords : Nat := 2048

/-- `ffsl` -/
def ffsl (w : Word) : Nat := ((List.range 32).find? fun k => w.getLsbD k).elim 0 (· + 1)

/-- `1 << k`; of a `k` that is too large, or -1, the processor takes the last five bits. -/
def bitMask (k : Nat) : Word := (1 : Word) <<< (k % 32)

/-! ### Whole calls -/

/-- The loop of `get_new_pid`, from word `i` on with `left` words to go: the PID and the new `used_pids`, or
`none` where the assertion behind the loop fails.  Nothing writes between the read for `old` and the
compare-and-swap, so it succeeds. -/
def scanPids (used : Nat → Word) : Nat → Nat → Option (Nat × (Nat → Word))
  | 0, _ => none
  | left + 1, i =>
      if used i ≠ BitVec.allOnes 32 then
        let bit := ffsl (~~~used i)
        some (i * 32 + bit, Function.update used i (used i ||| bitMask (bit + 31))) -- `bit - 1`
      else scanPids used left (i + 1)

def getNewPid (used : Nat → Word) : Option (Nat × (Nat → Word)) := scanPids used pidWords 0

def relinquishPid (used : Nat → Word) (pid : Nat) : Nat → Word :=
  let old := used ((pid - 1) / 32)
  Function.update used ((pid - 1) / 32) (old &&& ~~~bitMask ((pid - 1) % 32))

/-- `used_pids`, the PIDs of the processes there are, and whether the assertion has failed; then nothing runs
any more. -/
structure PidTable where
  used : Nat → Word
  allocated : List Nat
  exhausted : Bool

def PidTable.boot : PidTable := ⟨fun _ => 0, [], false⟩

inductive PidCall where
  /-- A process is created. -/
  | create
  /-- The process with this PID is destroyed. -/
  | destroy (pid : Nat)
  deriving DecidableEq

def PidTable.step (s : PidTable) (c : PidCall) : Option PidTable :=
  if s.exhausted then none
  else match c with
    | .create =>
        match getNewPid s.used with
        | some (pid, used) => some { s with used, allocated := pid :: s.allocated }
        | none => some { s with exhausted := true }
    | .destroy pid =>
        if pid ∈ s.allocated then
          some { s with used := relinquishPid s.used pid, allocated := s.allocated.erase pid }
        else none

/-! ### One access at a time -/

/-- Where a thread stands. -/
inductive PidPc where
  | idle
  /-- `get_new_pid`: `used_pids[i] != ULONG_MAX` -/
  | test (i : Nat)
  /-- `ffsl(~used_pids[i])` -/
  | forBit (i : Nat)
  /-- `old = used_pids[i]` -/
  | forOld (i : Nat) (bitRead : Word)
  /-- `new = used_pids[i] | ...` -/
  | forNew (i : Nat) (bitRead old : Word)
  /-- `__sync_bool_compare_and_swap(&used_pids[i], old, new)` -/
  | swap (i : Nat) (bitRead old newRead : Word)
  /-- `relinquish_pid`: `old = used_pids[(pid - 1) / LONG_BIT]` -/
  | giveRead (pid : Nat)
  /-- `__sync_bool_compare_and_swap(&used_pids[(pid - 1) / LONG_BIT], old, new)` -/
  | giveSwap (pid : Nat) (old : Word)
  deriving DecidableEq

namespace PidPc

/-- How many words the scan has passed. -/
def scanned : PidPc → Nat
  | .test i | .forBit i | .forOld i _ | .forNew i _ _ | .swap i _ _ _ => i
  | _ => 0

/-- The word that is to be changed. -/
def word : PidPc → Option Nat
  | .forBit i | .forOld i _ | .forNew i _ _ | .swap i _ _ _ => some i
  | _ => none

/-- The PID that is given back. -/
def gives : PidPc → Option Nat
  | .giveRead pid | .giveSwap pid _ => some pid
  | _ => none

end PidPc

structure Pids where
  used : Nat → Word
  pc : Nat → PidPc
  /-- Since the scan of the thread has begun, a PID of a word that it has passed has been given back. -/
  missed : Nat → Bool
  live : List Nat
  leaving : List Nat
  /-- The assertion behind the loop has failed; nothing runs any more. -/
  exhausted : Bool

/-- No process, and `used_pids` all zeros. -/
def Pids.boot : Pids where
  used _ := 0
  pc _ := .idle
  missed _ := false
  live := []
  leaving := []
  exhausted := false

inductive PidAct where
  /-- A thread creates a process. -/
  | create (t : Nat)
  /-- A thread destroys the process with this PID. -/
  | destroy (t pid : Nat)
  /-- A thread takes its next step. -/
  | go (t : Nat)
  deriving DecidableEq

namespace Pids

def allocated (s : Pids) : List Nat := s.live ++ s.leaving

def goto (s : Pids) (t : Nat) (pc : PidPc) : Pids := { s with pc := Function.update s.pc t pc }

/-- A compare-and-swap of `get_new_pid` that has taken a PID. -/
def take (s : Pids) (t i bit : Nat) (new : Word) : Pids :=
  { s.goto t .idle with used := Function.update s.used i new, live := (i * 32 + bit) :: s.live }

/-- A compare-and-swap of `relinquish_pid` that has given a PID back. -/
def giveBack (s : Pids) (t pid : Nat) (new : Word) : Pids :=
  { s.goto t .idle with
    used := Function.update s.used ((pid - 1) / 32) new
    leaving := s.leaving.erase pid
    missed := fun u => s.missed u || (pid - 1) / 32 < (s.pc u).scanned }

/-- The next step of a thread. -/
def next (s : Pids) (t : Nat) : Option Pids :=
  match s.pc t with
  | .idle => none
  | .test i =>
      if pidWords ≤ i then some { s with exhausted := true }
      else if s.used i ≠ BitVec.allOnes 32 then some (s.goto t (.forBit i))
      else some (s.goto t (.test (i + 1)))
  | .forBit i => some (s.goto t (.forOld i (s.used i)))
  | .forOld i bitRead => some (s.goto t (.forNew i bitRead (s.used i)))
  | .forNew i bitRead old => some (s.goto t (.swap i bitRead old (s.used i)))
  | .swap i bitRead old newRead =>
      let bit := ffsl (~~~bitRead)
      let new := newRead ||| bitMask (bit + 31) -- `bit - 1`
      if s.used i = old then some (s.take t i bit new) else some (s.goto t (.test i))
  | .giveRead pid => some (s.goto t (.giveSwap pid (s.used ((pid - 1) / 32))))
  | .giveSwap pid old =>
      let new := old &&& ~~~bitMask ((pid - 1) % 32)
      if s.used ((pid - 1) / 32) = old then some (s.giveBack t pid new)
      else some (s.goto t (.giveRead pid))

def step (s : Pids) (a : PidAct) : Option Pids :=
  if s.exhausted then none
  else match a with
    | .create t =>
        if s.pc t = .idle then
          some { s.goto t (.test 0) with missed := Function.update s.missed t false }
        else none
    | .destroy t pid =>
        if s.pc t = .idle ∧ pid ∈ s.live then
          some { s.goto t (.giveRead pid) with live := s.live.erase pid, leaving := pid :: s.leaving }
        else none
    | .go t => s.next t

end Pids

/-- **The condition**: when the compare-and-swap of a creation succeeds, what has been read for `old` is what
has been read for `new`, and in what has been read for the bit a bit was free, the lowest of which is free
there too; and a scan that finds nothing has not passed a word to which a PID has been given back since. -/
def PidStepOk (s : Pids) : PidAct → Prop
  | .go t =>
      match s.pc t with
      | .swap i bitRead old newRead => s.used i = old →
          newRead = old ∧ bitRead ≠ BitVec.allOnes 32 ∧ old.getLsbD (ffsl (~~~bitRead) - 1) = false
      | .test i => pidWords ≤ i → s.missed t = false
      | _ => True
  | _ => True

instance (s : Pids) (a : PidAct) : Decidable (PidStepOk s a) := by
  cases a with
  | go t => unfold PidStepOk; dsimp only; split <;> infer_instance
  | _ => exact isTrue trivial

/-- What is expected: no PID is allocated twice, all are in range, and the assertion fails only when all are
allocated. -/
structure PidsUnique (allocated : List Nat) (exhausted : Bool) : Prop where
  unique : allocated.Nodup
  range : ∀ p ∈ allocated, 1 ≤ p ∧ p ≤ maxPidCount
  exhausted : exhausted = true → allocated.length = maxPidCount

/-! ### Bits of a word -/

theorem getLsbD_bitMask {j k : Nat} (hj : j < 32) (hk : k < 32) :
    (bitMask k).getLsbD j = decide (j = k) := by
  unfold bitMask
  have hone : ∀ i, (1 : Word).getLsbD i = decide (i = 0) := fun i => by
    rw [show (1 : Word) = 1#32 from rfl, BitVec.getLsbD_one]
    simp
  rw [Nat.mod_eq_of_lt hk, BitVec.getLsbD_shiftLeft, hone]
  by_cases h : j = k
  · simp [h, hk]
  · have hlt : j < k ∨ j - k ≠ 0 := by omega
    rcases hlt with hlt | hne <;> simp [*]

/-- The lowest free bit of a word that is not full. -/
theorem ffsl_not {w : Word} (h : w ≠ BitVec.allOnes 32) :
    1 ≤ ffsl (~~~w) ∧ ffsl (~~~w) ≤ 32 ∧ w.getLsbD (ffsl (~~~w) - 1) = false := by
  unfold ffsl
  cases hfind : (List.range 32).find? fun k => (~~~w).getLsbD k with
  | none =>
      refine absurd (BitVec.eq_of_getLsbD_eq fun i hi => ?_) h
      have hfull := List.find?_eq_none.mp hfind i (List.mem_range.mpr hi)
      rw [BitVec.getLsbD_allOnes]
      simpa [hi] using hfull
  | some k =>
      have hk := List.mem_range.mp (List.mem_of_find?_eq_some hfind)
      have hfree : (~~~w).getLsbD k = true := List.find?_some (p := fun k => (~~~w).getLsbD k) hfind
      rw [Option.elim_some]
      exact ⟨by omega, by omega, by simpa [hk] using hfree⟩

end Muxomucota.Tasking
