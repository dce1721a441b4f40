import Muxomucota.Lib.Runs
import Mathlib.Logic.Function.Basic

/-!
# Sync — the readers-writer lock

`lib/common/system/rwl_lock.c`, one atomic step at a time.  `rwl->reader_count++` is a load and a
store, `lock` is a loop around one compare-and-swap, and every other statement is one access.
A thread is named by its number, its process ID is one more: the IDs of different threads differ
and all are positive, so `-1` is nobody's.

A program counter is where a thread stands: outside, inside one of the calls, or in a section
between two calls.
-/

namespace Muxomucota.Sync

/-- `rw_lock_t`. -/
structure RwLock where
  writeLock : Int
  lockLock : Int
  readerCount : Int
  deriving DecidableEq

/-- `getpid`. -/
def getpid (t : Nat) : Int := t + 1

@[simp] theorem getpid_inj {t u : Nat} : getpid t = getpid u ↔ t = u := by
  unfold getpid; omega

theorem getpid_pos (t : Nat) : 0 < getpid t := by
  unfold getpid; omega

/-- Where a thread stands. -/
inductive Pc where
  | idle
  /-- `rwl_lock_r`: `lock(&rwl->lock_lock)` -/
  | rGuard
  /-- `rwl->reader_count++`, the load -/
  | rLoad
  /-- the store of `n + 1` -/
  | rStore (n : Int)
  /-- `lock(&rwl->write_lock)` -/
  | rWrite
  /-- `unlock(&rwl->lock_lock)` -/
  | rUnguard
  /-- between `rwl_lock_r` and the next call -/
  | reading
  /-- `rwl_unlock_r`: `lock(&rwl->lock_lock)` -/
  | uGuard
  /-- `--rwl->reader_count`, the load -/
  | uLoad
  /-- the store of `n - 1` -/
  | uStore (n : Int)
  /-- `unlock(&rwl->write_lock)` -/
  | uWrite
  /-- `rwl->write_lock == getpid()` -/
  | uCheck
  /-- `rwl->write_lock = -1` -/
  | uAnon
  /-- `unlock(&rwl->lock_lock)` -/
  | uUnguard
  /-- `rwl_lock_w`: `lock(&rwl->write_lock)` -/
  | wWrite
  /-- between `rwl_lock_w` and `rwl_unlock_w` -/
  | writing
  /-- `rwl_unlock_w`: `unlock(&rwl->write_lock)` -/
  | wRelease
  /-- `rwl_require_w`: `rwl->reader_count > 1` -/
  | qCount
  /-- `trylock(&rwl->lock_lock)` -/
  | qTry
  /-- `yield_to(rwl->write_lock)` -/
  | qYield
  /-- `rwl->reader_count == 1` -/
  | qCheck
  /-- `unlock(&rwl->lock_lock)` in the loop -/
  | qUnguard
  /-- `rwl->reader_count = 0` -/
  | qStore
  /-- `unlock(&rwl->lock_lock)` after the loop -/
  | qRelease
  /-- between `rwl_require_w` and the next call -/
  | upgraded
  /-- `rwl_drop_w`: `rwl->reader_count = 1` -/
  | dStore
  /-- between `rwl_drop_w` and `rwl_unlock_r` -/
  | dropped
  /-- `assert(owner != mypid)` has failed -/
  | aborted
  deriving DecidableEq

/-- The calls, and `go` for the next step inside a call. -/
inductive Call where
  | lockR | unlockR | lockW | unlockW | requireW | dropW | go
  deriving DecidableEq

/-- The compare-and-swap of `lock` on a word: the new word, and whether the loop ends, goes on or
the assertion fails. -/
def lockWord (word me : Int) (done again : Pc) : Int × Pc :=
  if word = 0 then (me, done) else if word = me then (word, .aborted) else (word, again)

/-- The next atomic step of a thread with process ID `me`. -/
def next (l : RwLock) (me : Int) : Pc → Call → Option (RwLock × Pc)
  | .idle, .lockR => some (l, .rGuard)
  | .idle, .lockW => some (l, .wWrite)
  | .rGuard, .go =>
      let r := lockWord l.lockLock me .rLoad .rGuard
      some ({ l with lockLock := r.1 }, r.2)
  | .rLoad, .go => some (l, .rStore l.readerCount)
  | .rStore n, .go =>
      some ({ l with readerCount := n + 1 }, if n = 0 then .rWrite else .rUnguard)
  | .rWrite, .go =>
      let r := lockWord l.writeLock me .rUnguard .rWrite
      some ({ l with writeLock := r.1 }, r.2)
  | .rUnguard, .go => some ({ l with lockLock := 0 }, .reading)
  | .reading, .unlockR => some (l, .uGuard)
  | .reading, .requireW => some (l, .qCount)
  | .uGuard, .go =>
      let r := lockWord l.lockLock me .uLoad .uGuard
      some ({ l with lockLock := r.1 }, r.2)
  | .uLoad, .go => some (l, .uStore l.readerCount)
  | .uStore n, .go =>
      some ({ l with readerCount := n - 1 }, if n - 1 = 0 then .uWrite else .uCheck)
  | .uWrite, .go => some ({ l with writeLock := 0 }, .uUnguard)
  | .uCheck, .go => some (l, if l.writeLock = me then .uAnon else .uUnguard)
  | .uAnon, .go => some ({ l with writeLock := -1 }, .uUnguard)
  | .uUnguard, .go => some ({ l with lockLock := 0 }, .idle)
  | .wWrite, .go =>
      let r := lockWord l.writeLock me .writing .wWrite
      some ({ l with writeLock := r.1 }, r.2)
  | .writing, .unlockW => some (l, .wRelease)
  | .wRelease, .go => some ({ l with writeLock := 0 }, .idle)
  | .qCount, .go => some (l, if 1 < l.readerCount then .qYield else .qTry)
  | .qTry, .go =>
      if l.lockLock = 0 then some ({ l with lockLock := me }, .qCheck) else some (l, .qYield)
  | .qYield, .go => some (l, .qCount)
  | .qCheck, .go => some (l, if l.readerCount = 1 then .qStore else .qUnguard)
  | .qUnguard, .go => some ({ l with lockLock := 0 }, .qCount)
  | .qStore, .go => some ({ l with readerCount := 0 }, .qRelease)
  | .qRelease, .go => some ({ l with lockLock := 0 }, .upgraded)
  | .upgraded, .unlockW => some (l, .wRelease)
  | .upgraded, .dropW => some (l, .dStore)
  | .dStore, .go => some ({ l with readerCount := 1 }, .dropped)
  | .dropped, .unlockR => some (l, .uGuard)
  | _, _ => none

/-- The lock and all threads. -/
structure State where
  lock : RwLock
  pc : Nat → Pc

/-- `RW_LOCK_INITIALIZER`, and no thread near the lock. -/
def State.init : State := ⟨⟨0, 0, 0⟩, fun _ => .idle⟩

/-- Thread `a.1` takes one step. -/
def step (s : State) (a : Nat × Call) : Option State :=
  (next s.lock (getpid a.1) (s.pc a.1) a.2).map fun r => ⟨r.1, Function.update s.pc a.1 r.2⟩

namespace Pc

/-- Between `lock(&rwl->lock_lock)` and `unlock(&rwl->lock_lock)`. -/
def holdsGuard : Pc → Bool
  | rLoad | rStore _ | rWrite | rUnguard | uLoad | uStore _ | uWrite | uCheck | uAnon | uUnguard
  | qCheck | qUnguard | qStore | qRelease => true
  | _ => false

/-- Holds the read side. -/
def holdsRead : Pc → Bool
  | rUnguard | reading | uGuard | uLoad | uStore _ | qCount | qTry | qYield | qCheck | qUnguard
  | qStore | dropped => true
  | _ => false

/-- Holds the write side, or is the last reader on its way to release it. -/
def holdsWrite : Pc → Bool
  | writing | wRelease | qRelease | upgraded | dStore | uWrite => true
  | _ => false

/-- In a write section. -/
def writeSection : Pc → Bool
  | writing | upgraded => true
  | _ => false

/-- In a read section, or waiting for its upgrade. -/
def readSection : Pc → Bool
  | reading | dropped | qCount | qTry | qYield => true
  | _ => false

/-- Inside an `rwl_*` call. -/
def inCall : Pc → Bool
  | idle | reading | dropped | writing | upgraded => false
  | _ => true

end Pc

end Muxomucota.Sync
