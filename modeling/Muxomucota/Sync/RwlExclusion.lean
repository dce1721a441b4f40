import Muxomucota.Lib.Tally
import Muxomucota.Sync.Rwl

/-!
# Sync — the readers-writer lock excludes

The invariant over all threads.  The guard word names the thread between `lock` and `unlock` of it.
The writer word is not zero as long as somebody holds either side, and whoever holds the write side
is alone.  The reader count is the number of threads that hold the read side, up to a reader that
has counted itself and waits for the writer word; `rwl_drop_w` may overwrite what that reader
counted, which is why the invariant does not say that the two are equal.
-/

namespace Muxomucota.Sync
open Lib

/-- The invariant. -/
structure Inv (s : State) : Prop where
  guard : ∀ t, s.lock.lockLock = getpid t ↔ (s.pc t).holdsGuard = true
  alone : ∀ t u, (s.pc t).holdsWrite = true → u ≠ t →
    (s.pc u).holdsWrite = false ∧ (s.pc u).holdsRead = false
  apart : ∀ t, (s.pc t).holdsWrite = true → (s.pc t).holdsRead = false
  taken : ∀ t, (s.pc t).holdsWrite = true ∨ (s.pc t).holdsRead = true → s.lock.writeLock ≠ 0
  owner : ∀ t, s.lock.writeLock = getpid t →
    (s.pc t).holdsWrite = true ∨ (s.pc t).holdsRead = true ∨ s.pc t = .uCheck ∨ s.pc t = .uAnon
  count : ∃ n : Nat, Tally (fun t => (s.pc t).holdsRead = true) n ∧
    (s.lock.readerCount = n ∨ (s.lock.readerCount = 1 ∧ n = 0 ∧ ∃ t, s.pc t = .rWrite)) ∧
    (∀ t k, s.pc t = .rStore k → k = n ∨ (k = 0 ∧ n = 1)) ∧
    (∀ t, s.pc t = .rWrite → s.lock.readerCount = 1 ∧ n ≤ 1) ∧
    (∀ t k, s.pc t = .uStore k → k = n) ∧
    (∀ t, s.pc t = .uCheck ∨ s.pc t = .uAnon → 0 < n) ∧
    (∀ t, s.pc t = .qStore → n = 1)
  running : ∀ t, s.pc t ≠ .aborted

/-- A step of one thread leaves the other threads where they are. -/
theorem State.pc_elsewhere (s : State) (t : Nat) (p : Pc) :
    ∀ u, u ≠ t → s.pc u = Function.update s.pc t p u :=
  fun _ hu => (Function.update_of_ne hu p s.pc).symm

theorem inv_init : Inv .init where
  guard t := by
    have := getpid_pos t
    simp [State.init, Pc.holdsGuard]
    omega
  alone t u h := by simp [State.init, Pc.holdsWrite] at h
  apart t h := by simp [State.init, Pc.holdsWrite] at h
  taken t h := by simp [State.init, Pc.holdsWrite, Pc.holdsRead] at h
  owner t h := by
    have := getpid_pos t
    simp [State.init] at h
    omega
  count := ⟨0, .zero fun t => by simp [State.init, Pc.holdsRead], by simp [State.init],
    by simp [State.init], by simp [State.init], by simp [State.init], by simp [State.init]⟩
  running t := by simp [State.init]

namespace Inv

variable {s s' : State} {t u : Nat} {c : Call} {l : RwLock} {p q : Pc}

/-- Where the reader count is being changed, or what was read of it is still to be used. -/
def Plain (p : Pc) : Prop :=
  (∀ k, p ≠ .rStore k) ∧ p ≠ .rWrite ∧ (∀ k, p ≠ .uStore k) ∧ p ≠ .uCheck ∧ p ≠ .uAnon ∧
    p ≠ .qStore ∧ p ≠ .aborted

/-- What a place holds. -/
def Holds (p : Pc) (g w r : Bool) : Prop :=
  p.holdsGuard = g ∧ p.holdsWrite = w ∧ p.holdsRead = r

/-- A step that changes no word and no side. -/
theorem quiet (h : Inv s) (hpc : s.pc t = q) (hg : p.holdsGuard = q.holdsGuard)
    (hw : p.holdsWrite = q.holdsWrite) (hr : p.holdsRead = q.holdsRead)
    (hold : Plain q) (hp : Plain p) : Inv ⟨s.lock, Function.update s.pc t p⟩ := by
  subst hpc
  obtain ⟨n, hn, hcount, hrs, hrw, hus, huc, hqs⟩ := h.count
  obtain ⟨hguard, halone, hapart, htaken, howner, -, hrun⟩ := h
  unfold Plain at hold hp
  have hoff := s.pc_elsewhere t p
  refine ⟨?_, ?_, ?_, ?_, ?_, ⟨n, hn.congr ?_, ?_, ?_, ?_, ?_, ?_, ?_⟩, ?_⟩ <;> grind -ring -linarith -ac

/-- The guard word is taken. -/
theorem take (h : Inv s) (hpc : s.pc t = q) (hfree : s.lock.lockLock = 0)
    (hg : p.holdsGuard = true) (hw : p.holdsWrite = q.holdsWrite) (hr : p.holdsRead = q.holdsRead)
    (hold : Plain q) (hp : Plain p) :
    Inv ⟨{ s.lock with lockLock := getpid t }, Function.update s.pc t p⟩ := by
  subst hpc
  obtain ⟨n, hn, hcount, hrs, hrw, hus, huc, hqs⟩ := h.count
  obtain ⟨hguard, halone, hapart, htaken, howner, -, hrun⟩ := h
  have hpid := getpid_pos
  have hinj := @getpid_inj
  unfold Plain at hold hp
  have hoff := s.pc_elsewhere t p
  refine ⟨?_, ?_, ?_, ?_, ?_, ⟨n, hn.congr ?_, ?_, ?_, ?_, ?_, ?_, ?_⟩, ?_⟩ <;> grind -ring -linarith -ac

/-- The guard word is released. -/
theorem release (h : Inv s) (hpc : s.pc t = q) (hheld : q.holdsGuard = true)
    (hg : p.holdsGuard = false) (hw : p.holdsWrite = q.holdsWrite) (hr : p.holdsRead = q.holdsRead)
    (hold : Plain q) (hp : Plain p) :
    Inv ⟨{ s.lock with lockLock := 0 }, Function.update s.pc t p⟩ := by
  subst hpc
  obtain ⟨n, hn, hcount, hrs, hrw, hus, huc, hqs⟩ := h.count
  obtain ⟨hguard, halone, hapart, htaken, howner, -, hrun⟩ := h
  have hpid := getpid_pos
  have hinj := @getpid_inj
  unfold Plain at hold hp
  have hoff := s.pc_elsewhere t p
  refine ⟨?_, ?_, ?_, ?_, ?_, ⟨n, hn.congr ?_, ?_, ?_, ?_, ?_, ?_, ?_⟩, ?_⟩ <;> grind -ring -linarith -ac

/-- Two threads do not hold the guard word. -/
theorem guard_unique (h : Inv s) (ht : (s.pc t).holdsGuard = true) (hu : (s.pc u).holdsGuard = true) :
    t = u :=
  getpid_inj.mp (((h.guard t).mpr ht).symm.trans ((h.guard u).mpr hu))

/-- While one thread holds the guard word, the count is nobody else's business. -/
theorem others_plain (h : Inv s) (ht : (s.pc t).holdsGuard = true) (u : Nat) (hu : u ≠ t) :
    Plain (s.pc u) := by
  have hg : (s.pc u).holdsGuard = false := by
    rw [← Bool.not_eq_true]
    exact fun hg => hu (h.guard_unique hg ht)
  have hrun := h.running u
  cases hpc : s.pc u <;> simp_all [Pc.holdsGuard, Plain]

/-- Where there is a reader, nobody holds the write side. -/
theorem no_writer (h : Inv s) (ht : (s.pc t).holdsRead = true) (u : Nat) :
    (s.pc u).holdsWrite = false := by
  by_contra hu
  rw [Bool.not_eq_false] at hu
  by_cases htu : t = u
  · subst htu
    rw [h.apart t hu] at ht
    cases ht
  · rw [(h.alone u t hu htu).2] at ht
    cases ht

/-- The writer word is taken by `rwl_lock_w`: nobody held either side. -/
theorem takeWrite (h : Inv s) (hfree : s.lock.writeLock = 0) (hold : s.pc t = .wWrite) :
    Inv ⟨{ s.lock with writeLock := getpid t }, Function.update s.pc t .writing⟩ := by
  obtain ⟨n, hn, hcount, hrs, hrw, hus, huc, hqs⟩ := h.count
  obtain ⟨hguard, halone, hapart, htaken, howner, -, hrun⟩ := h
  have hpid := getpid_pos
  have hinj := @getpid_inj
  have hfrom : Holds (s.pc t) false false false := by rw [hold]; exact ⟨rfl, rfl, rfl⟩
  have hto : Holds .writing false true false := ⟨rfl, rfl, rfl⟩
  have hoff := s.pc_elsewhere t .writing
  refine ⟨?_, ?_, ?_, ?_, ?_, ⟨n, hn.congr ?_, ?_, ?_, ?_, ?_, ?_, ?_⟩, ?_⟩ <;>
    grind -ring -linarith -ac [Holds]

/-- The writer word is released by its holder. -/
theorem releaseWrite (h : Inv s) (hpc : s.pc t = q) (hold : q.holdsWrite = true)
    (hg : p.holdsGuard = q.holdsGuard) (hw : p.holdsWrite = false) (hr : p.holdsRead = false)
    (hplain : Plain q) (hp : Plain p) :
    Inv ⟨{ s.lock with writeLock := 0 }, Function.update s.pc t p⟩ := by
  subst hpc
  obtain ⟨n, hn, hcount, hrs, hrw, hus, huc, hqs⟩ := h.count
  obtain ⟨hguard, halone, hapart, htaken, howner, -, hrun⟩ := h
  have hpid := getpid_pos
  unfold Plain at hplain hp
  have hoff := s.pc_elsewhere t p
  refine ⟨?_, ?_, ?_, ?_, ?_, ⟨n, hn.congr ?_, ?_, ?_, ?_, ?_, ?_, ?_⟩, ?_⟩ <;> grind -ring -linarith -ac

/-- The reader count is read under the guard word by an arriving reader. -/
theorem loadJoin (h : Inv s) (hold : s.pc t = .rLoad) :
    Inv ⟨s.lock, Function.update s.pc t (.rStore s.lock.readerCount)⟩ := by
  have hothers := h.others_plain (t := t) (by rw [hold]; rfl)
  obtain ⟨n, hn, hcount, hrs, hrw, hus, huc, hqs⟩ := h.count
  obtain ⟨hguard, halone, hapart, htaken, howner, -, hrun⟩ := h
  have hfrom : Holds (s.pc t) true false false := by rw [hold]; exact ⟨rfl, rfl, rfl⟩
  have hto : Holds (.rStore s.lock.readerCount) true false false := ⟨rfl, rfl, rfl⟩
  have hoff := s.pc_elsewhere t (.rStore s.lock.readerCount)
  refine ⟨?_, ?_, ?_, ?_, ?_, ⟨n, hn.congr ?_, ?_, ?_, ?_, ?_, ?_, ?_⟩, ?_⟩ <;>
    grind -ring -linarith -ac [Holds, Plain]

/-- The reader count is read under the guard word by a leaving reader. -/
theorem loadLeave (h : Inv s) (hold : s.pc t = .uLoad) :
    Inv ⟨s.lock, Function.update s.pc t (.uStore s.lock.readerCount)⟩ := by
  have hothers := h.others_plain (t := t) (by rw [hold]; rfl)
  obtain ⟨n, hn, hcount, hrs, hrw, hus, huc, hqs⟩ := h.count
  obtain ⟨hguard, halone, hapart, htaken, howner, -, hrun⟩ := h
  have hfrom : Holds (s.pc t) true false true := by rw [hold]; exact ⟨rfl, rfl, rfl⟩
  have hto : Holds (.uStore s.lock.readerCount) true false true := ⟨rfl, rfl, rfl⟩
  have hpos : n ≠ 0 := (hn.pos hfrom.2.2).ne'
  have hoff := s.pc_elsewhere t (.uStore s.lock.readerCount)
  refine ⟨?_, ?_, ?_, ?_, ?_, ⟨n, hn.congr ?_, ?_, ?_, ?_, ?_, ?_, ?_⟩, ?_⟩ <;>
    grind -ring -linarith -ac [Holds, Plain]

/-- A reader that is not the first counts itself. -/
theorem join {k : Int} (h : Inv s) (hold : s.pc t = .rStore k) (hk : k ≠ 0) :
    Inv ⟨{ s.lock with readerCount := k + 1 }, Function.update s.pc t .rUnguard⟩ := by
  have hothers := h.others_plain (t := t) (by rw [hold]; rfl)
  obtain ⟨n, hn, hcount, hrs, hrw, hus, huc, hqs⟩ := h.count
  have hkn : k = n := (hrs t k hold).resolve_right fun hz => hk hz.1
  obtain ⟨v, hv⟩ := hn.pos_iff.mp (by omega)
  have hnone := h.no_writer hv
  obtain ⟨hguard, halone, hapart, htaken, howner, -, hrun⟩ := h
  have hfrom : Holds (s.pc t) true false false := by rw [hold]; exact ⟨rfl, rfl, rfl⟩
  have hto : Holds .rUnguard true false true := ⟨rfl, rfl, rfl⟩
  have hoff := s.pc_elsewhere t .rUnguard
  refine ⟨?_, ?_, ?_, ?_, ?_, ⟨n + 1, hn.enter t ?_ ?_ ?_, ?_, ?_, ?_, ?_, ?_, ?_⟩, ?_⟩ <;>
    grind -ring -linarith -ac [Holds, Plain]

/-- The first reader counts itself, and still needs the writer word. -/
theorem arrive (h : Inv s) (hold : s.pc t = .rStore 0) :
    Inv ⟨{ s.lock with readerCount := 0 + 1 }, Function.update s.pc t .rWrite⟩ := by
  have hothers := h.others_plain (t := t) (by rw [hold]; rfl)
  obtain ⟨n, hn, hcount, hrs, hrw, hus, huc, hqs⟩ := h.count
  obtain ⟨hguard, halone, hapart, htaken, howner, -, hrun⟩ := h
  have hfrom : Holds (s.pc t) true false false := by rw [hold]; exact ⟨rfl, rfl, rfl⟩
  have hto : Holds .rWrite true false false := ⟨rfl, rfl, rfl⟩
  have hoff := s.pc_elsewhere t .rWrite
  have hwaits : ∃ u, Function.update s.pc t .rWrite u = .rWrite := ⟨t, by simp⟩
  refine ⟨?_, ?_, ?_, ?_, ?_, ⟨n, hn.congr ?_, ?_, ?_, ?_, ?_, ?_, ?_⟩, ?_⟩ <;>
    grind -ring -linarith -ac [Holds, Plain]

/-- The first reader gets the writer word. -/
theorem enter (h : Inv s) (hfree : s.lock.writeLock = 0) (hold : s.pc t = .rWrite) :
    Inv ⟨{ s.lock with writeLock := getpid t }, Function.update s.pc t .rUnguard⟩ := by
  have hothers := h.others_plain (t := t) (by rw [hold]; rfl)
  obtain ⟨n, hn, hcount, hrs, hrw, hus, huc, hqs⟩ := h.count
  have hzero : n = 0 := hn.eq_zero fun u hu => h.taken u (.inr hu) hfree
  obtain ⟨hguard, halone, hapart, htaken, howner, -, hrun⟩ := h
  have hpid := getpid_pos
  have hinj := @getpid_inj
  have hfrom : Holds (s.pc t) true false false := by rw [hold]; exact ⟨rfl, rfl, rfl⟩
  have hto : Holds .rUnguard true false true := ⟨rfl, rfl, rfl⟩
  have hoff := s.pc_elsewhere t .rUnguard
  refine ⟨?_, ?_, ?_, ?_, ?_, ⟨n + 1, hn.enter t ?_ ?_ ?_, ?_, ?_, ?_, ?_, ?_, ?_⟩, ?_⟩ <;>
    grind -ring -linarith -ac [Holds, Plain]

/-- A reader takes itself off the count; the last one has the writer word to itself. -/
theorem depart {k : Int} (h : Inv s) (hold : s.pc t = .uStore k) :
    Inv ⟨{ s.lock with readerCount := k - 1 },
      Function.update s.pc t (if k - 1 = 0 then .uWrite else .uCheck)⟩ := by
  have hothers := h.others_plain (t := t) (by rw [hold]; rfl)
  have hread : (s.pc t).holdsRead = true := by rw [hold]; rfl
  have hnone := h.no_writer hread
  obtain ⟨n, hn, hcount, hrs, hrw, hus, huc, hqs⟩ := h.count
  have hkn := hus t k hold
  have hpos := hn.pos hread
  have hsole : n = 1 → ∀ u, (s.pc u).holdsRead = true → u = t := by
    rintro rfl u hu
    exact hn.sole hu hread
  obtain ⟨hguard, halone, hapart, htaken, howner, -, hrun⟩ := h
  have hfrom : Holds (s.pc t) true false true := by rw [hold]; exact ⟨rfl, rfl, rfl⟩
  have hto : Holds .uWrite true true false := ⟨rfl, rfl, rfl⟩
  have hto₂ : Holds .uCheck true false false := ⟨rfl, rfl, rfl⟩
  have hoff := fun p => s.pc_elsewhere t p
  split <;> refine ⟨?_, ?_, ?_, ?_, ?_, ⟨n - 1, hn.leave hread ?_ ?_, ?_, ?_, ?_, ?_, ?_, ?_⟩, ?_⟩ <;>
    grind -ring -linarith -ac [Holds, Plain]

/-- The writer word is made anonymous. -/
theorem anonymous (h : Inv s) (hold : s.pc t = .uAnon) :
    Inv ⟨{ s.lock with writeLock := -1 }, Function.update s.pc t .uUnguard⟩ := by
  have hothers := h.others_plain (t := t) (by rw [hold]; rfl)
  obtain ⟨n, hn, hcount, hrs, hrw, hus, huc, hqs⟩ := h.count
  obtain ⟨hguard, halone, hapart, htaken, howner, -, hrun⟩ := h
  have hpid := getpid_pos
  have hfrom : Holds (s.pc t) true false false := by rw [hold]; exact ⟨rfl, rfl, rfl⟩
  have hto : Holds .uUnguard true false false := ⟨rfl, rfl, rfl⟩
  have hoff := s.pc_elsewhere t .uUnguard
  refine ⟨?_, ?_, ?_, ?_, ?_, ⟨n, hn.congr ?_, ?_, ?_, ?_, ?_, ?_, ?_⟩, ?_⟩ <;>
    grind -ring -linarith -ac [Holds, Plain]

/-- `rwl->write_lock == getpid()`. -/
theorem check (h : Inv s) (hold : s.pc t = .uCheck) :
    Inv ⟨s.lock, Function.update s.pc t
      (if s.lock.writeLock = getpid t then .uAnon else .uUnguard)⟩ := by
  have hothers := h.others_plain (t := t) (by rw [hold]; rfl)
  obtain ⟨n, hn, hcount, hrs, hrw, hus, huc, hqs⟩ := h.count
  obtain ⟨hguard, halone, hapart, htaken, howner, -, hrun⟩ := h
  have hfrom : Holds (s.pc t) true false false := by rw [hold]; exact ⟨rfl, rfl, rfl⟩
  have hto : Holds .uAnon true false false := ⟨rfl, rfl, rfl⟩
  have hto₂ : Holds .uUnguard true false false := ⟨rfl, rfl, rfl⟩
  have hoff := fun p => s.pc_elsewhere t p
  split <;> refine ⟨?_, ?_, ?_, ?_, ?_, ⟨n, hn.congr ?_, ?_, ?_, ?_, ?_, ?_, ?_⟩, ?_⟩ <;>
    grind -ring -linarith -ac [Holds, Plain]

/-- `rwl->reader_count == 1`, under the guard word. -/
theorem single (h : Inv s) (hold : s.pc t = .qCheck) (hone : s.lock.readerCount = 1) :
    Inv ⟨s.lock, Function.update s.pc t .qStore⟩ := by
  have hothers := h.others_plain (t := t) (by rw [hold]; rfl)
  obtain ⟨n, hn, hcount, hrs, hrw, hus, huc, hqs⟩ := h.count
  obtain ⟨hguard, halone, hapart, htaken, howner, -, hrun⟩ := h
  have hfrom : Holds (s.pc t) true false true := by rw [hold]; exact ⟨rfl, rfl, rfl⟩
  have hto : Holds .qStore true false true := ⟨rfl, rfl, rfl⟩
  have hoff := s.pc_elsewhere t .qStore
  refine ⟨?_, ?_, ?_, ?_, ?_, ⟨n, hn.congr ?_, ?_, ?_, ?_, ?_, ?_, ?_⟩, ?_⟩ <;>
    grind -ring -linarith -ac [Holds, Plain]

/-- The only reader becomes the writer. -/
theorem upgrade (h : Inv s) (hold : s.pc t = .qStore) :
    Inv ⟨{ s.lock with readerCount := 0 }, Function.update s.pc t .qRelease⟩ := by
  have hothers := h.others_plain (t := t) (by rw [hold]; rfl)
  have hread : (s.pc t).holdsRead = true := by rw [hold]; rfl
  have hnone := h.no_writer hread
  obtain ⟨n, hn, hcount, hrs, hrw, hus, huc, hqs⟩ := h.count
  have hsole : ∀ u, (s.pc u).holdsRead = true → u = t := by
    obtain rfl := hqs t hold
    exact fun u hu => hn.sole hu hread
  obtain ⟨hguard, halone, hapart, htaken, howner, -, hrun⟩ := h
  have hfrom : Holds (s.pc t) true false true := by rw [hold]; exact ⟨rfl, rfl, rfl⟩
  have hto : Holds .qRelease true true false := ⟨rfl, rfl, rfl⟩
  have hoff := s.pc_elsewhere t .qRelease
  refine ⟨?_, ?_, ?_, ?_, ?_, ⟨n - 1, hn.leave hread ?_ ?_, ?_, ?_, ?_, ?_, ?_, ?_⟩, ?_⟩ <;>
    grind -ring -linarith -ac [Holds, Plain]

/-- The writer becomes a reader again, and counts itself whatever was counted before. -/
theorem downgrade (h : Inv s) (hold : s.pc t = .dStore) :
    Inv ⟨{ s.lock with readerCount := 1 }, Function.update s.pc t .dropped⟩ := by
  have hwrite : (s.pc t).holdsWrite = true := by rw [hold]; rfl
  obtain ⟨n, hn, hcount, hrs, hrw, hus, huc, hqs⟩ := h.count
  have hzero : n = 0 := by
    refine hn.eq_zero fun u hu => ?_
    rw [h.no_writer hu t] at hwrite
    cases hwrite
  have hno : ∀ u, (s.pc u).holdsRead = false := fun u => by
    rw [← Bool.not_eq_true]
    intro hu
    have := hn.pos hu
    omega
  have hleaves : ∀ u k, s.pc u ≠ .uStore k := fun u k hu => by
    have hr := hno u
    rw [hu] at hr
    cases hr
  have hlast : ∀ u, s.pc u ≠ .qStore := fun u hu => by
    have hr := hno u
    rw [hu] at hr
    cases hr
  obtain ⟨hguard, halone, hapart, htaken, howner, -, hrun⟩ := h
  have hfrom : Holds (s.pc t) false true false := by rw [hold]; exact ⟨rfl, rfl, rfl⟩
  have hto : Holds .dropped false false true := ⟨rfl, rfl, rfl⟩
  have hoff := s.pc_elsewhere t .dropped
  refine ⟨?_, ?_, ?_, ?_, ?_, ⟨n + 1, hn.enter t ?_ ?_ ?_, ?_, ?_, ?_, ?_, ?_, ?_⟩, ?_⟩ <;>
    grind -ring -linarith -ac [Holds]

/-- A thread that spins changes nothing. -/
theorem spin (h : Inv s) (hpc : s.pc t = p) : Inv ⟨s.lock, Function.update s.pc t p⟩ := by
  subst hpc
  rw [Function.update_eq_self]
  exact h

/-- `lock(&rwl->lock_lock)`. -/
theorem lockGuard {done : Pc} (h : Inv s) (hpc : s.pc t = p) (hg : p.holdsGuard = false)
    (hg' : done.holdsGuard = true) (hw : done.holdsWrite = p.holdsWrite)
    (hr : done.holdsRead = p.holdsRead) (hp : Plain p) (hdone : Plain done) :
    Inv ⟨{ s.lock with lockLock := (lockWord s.lock.lockLock (getpid t) done p).1 },
      Function.update s.pc t (lockWord s.lock.lockLock (getpid t) done p).2⟩ := by
  unfold lockWord
  split
  · rename_i hfree
    exact h.take hpc hfree hg' hw hr hp hdone
  · split
    · rename_i hown
      rw [h.guard, hpc, hg] at hown
      cases hown
    · exact h.spin hpc

/-- `lock(&rwl->write_lock)`. -/
theorem lockWrite {done : Pc} (h : Inv s) (hpc : s.pc t = p)
    (hno : p.holdsWrite = false ∧ p.holdsRead = false ∧ p ≠ .uCheck ∧ p ≠ .uAnon)
    (hdone : s.lock.writeLock = 0 →
      Inv ⟨{ s.lock with writeLock := getpid t }, Function.update s.pc t done⟩) :
    Inv ⟨{ s.lock with writeLock := (lockWord s.lock.writeLock (getpid t) done p).1 },
      Function.update s.pc t (lockWord s.lock.writeLock (getpid t) done p).2⟩ := by
  unfold lockWord
  split
  · rename_i hfree
    exact hdone hfree
  · split
    · rename_i hown
      have howner := h.owner t hown
      rw [hpc] at howner
      simp [hno] at howner
    · exact h.spin hpc

end Inv

/-- **One step keeps the invariant.** -/
theorem inv_step {s s' : State} {a : Nat × Call} (h : Inv s) (hs : step s a = some s') : Inv s' := by
  obtain ⟨t, c⟩ := a
  obtain ⟨r, hr, rfl⟩ := Option.map_eq_some_iff.mp hs
  dsimp only at hr ⊢
  cases hpc : s.pc t with
  | idle =>
      rw [hpc] at hr
      cases c <;> simp only [next, reduceCtorEq, Option.some.injEq] at hr
      · subst hr
        exact h.quiet hpc rfl rfl rfl (by simp [Inv.Plain]) (by simp [Inv.Plain])
      · subst hr
        exact h.quiet hpc rfl rfl rfl (by simp [Inv.Plain]) (by simp [Inv.Plain])
  | rGuard =>
      rw [hpc] at hr
      cases c <;> simp only [next, reduceCtorEq, Option.some.injEq] at hr
      subst hr
      exact h.lockGuard hpc rfl rfl rfl rfl (by simp [Inv.Plain]) (by simp [Inv.Plain])
  | rLoad =>
      rw [hpc] at hr
      cases c <;> simp only [next, reduceCtorEq, Option.some.injEq] at hr
      subst hr
      exact h.loadJoin hpc
  | rStore k =>
      rw [hpc] at hr
      cases c <;> simp only [next, reduceCtorEq, Option.some.injEq] at hr
      subst hr
      by_cases hk : k = 0
      · subst hk
        rw [if_pos rfl]
        exact h.arrive hpc
      · rw [if_neg hk]
        exact h.join hpc hk
  | rWrite =>
      rw [hpc] at hr
      cases c <;> simp only [next, reduceCtorEq, Option.some.injEq] at hr
      subst hr
      exact h.lockWrite hpc (by simp [Pc.holdsWrite, Pc.holdsRead]) fun hfree => h.enter hfree hpc
  | rUnguard =>
      rw [hpc] at hr
      cases c <;> simp only [next, reduceCtorEq, Option.some.injEq] at hr
      subst hr
      exact h.release hpc rfl rfl rfl rfl (by simp [Inv.Plain]) (by simp [Inv.Plain])
  | reading =>
      rw [hpc] at hr
      cases c <;> simp only [next, reduceCtorEq, Option.some.injEq] at hr
      · subst hr
        exact h.quiet hpc rfl rfl rfl (by simp [Inv.Plain]) (by simp [Inv.Plain])
      · subst hr
        exact h.quiet hpc rfl rfl rfl (by simp [Inv.Plain]) (by simp [Inv.Plain])
  | uGuard =>
      rw [hpc] at hr
      cases c <;> simp only [next, reduceCtorEq, Option.some.injEq] at hr
      subst hr
      exact h.lockGuard hpc rfl rfl rfl rfl (by simp [Inv.Plain]) (by simp [Inv.Plain])
  | uLoad =>
      rw [hpc] at hr
      cases c <;> simp only [next, reduceCtorEq, Option.some.injEq] at hr
      subst hr
      exact h.loadLeave hpc
  | uStore k =>
      rw [hpc] at hr
      cases c <;> simp only [next, reduceCtorEq, Option.some.injEq] at hr
      subst hr
      exact h.depart hpc
  | uWrite =>
      rw [hpc] at hr
      cases c <;> simp only [next, reduceCtorEq, Option.some.injEq] at hr
      subst hr
      exact h.releaseWrite hpc rfl rfl rfl rfl (by simp [Inv.Plain]) (by simp [Inv.Plain])
  | uCheck =>
      rw [hpc] at hr
      cases c <;> simp only [next, reduceCtorEq, Option.some.injEq] at hr
      subst hr
      exact h.check hpc
  | uAnon =>
      rw [hpc] at hr
      cases c <;> simp only [next, reduceCtorEq, Option.some.injEq] at hr
      subst hr
      exact h.anonymous hpc
  | uUnguard =>
      rw [hpc] at hr
      cases c <;> simp only [next, reduceCtorEq, Option.some.injEq] at hr
      subst hr
      exact h.release hpc rfl rfl rfl rfl (by simp [Inv.Plain]) (by simp [Inv.Plain])
  | wWrite =>
      rw [hpc] at hr
      cases c <;> simp only [next, reduceCtorEq, Option.some.injEq] at hr
      subst hr
      exact h.lockWrite hpc (by simp [Pc.holdsWrite, Pc.holdsRead]) fun hfree =>
        h.takeWrite hfree hpc
  | writing =>
      rw [hpc] at hr
      cases c <;> simp only [next, reduceCtorEq, Option.some.injEq] at hr
      subst hr
      exact h.quiet hpc rfl rfl rfl (by simp [Inv.Plain]) (by simp [Inv.Plain])
  | wRelease =>
      rw [hpc] at hr
      cases c <;> simp only [next, reduceCtorEq, Option.some.injEq] at hr
      subst hr
      exact h.releaseWrite hpc rfl rfl rfl rfl (by simp [Inv.Plain]) (by simp [Inv.Plain])
  | qCount =>
      rw [hpc] at hr
      cases c <;> simp only [next, reduceCtorEq, Option.some.injEq] at hr
      subst hr
      split <;> exact h.quiet hpc rfl rfl rfl (by simp [Inv.Plain]) (by simp [Inv.Plain])
  | qTry =>
      rw [hpc] at hr
      cases c <;> simp only [next, reduceCtorEq] at hr
      split at hr
      · rename_i hfree
        cases hr
        exact h.take hpc hfree rfl rfl rfl (by simp [Inv.Plain]) (by simp [Inv.Plain])
      · cases hr
        exact h.quiet hpc rfl rfl rfl (by simp [Inv.Plain]) (by simp [Inv.Plain])
  | qYield =>
      rw [hpc] at hr
      cases c <;> simp only [next, reduceCtorEq, Option.some.injEq] at hr
      subst hr
      exact h.quiet hpc rfl rfl rfl (by simp [Inv.Plain]) (by simp [Inv.Plain])
  | qCheck =>
      rw [hpc] at hr
      cases c <;> simp only [next, reduceCtorEq, Option.some.injEq] at hr
      subst hr
      by_cases hone : s.lock.readerCount = 1
      · rw [if_pos hone]
        exact h.single hpc hone
      · rw [if_neg hone]
        exact h.quiet hpc rfl rfl rfl (by simp [Inv.Plain]) (by simp [Inv.Plain])
  | qUnguard =>
      rw [hpc] at hr
      cases c <;> simp only [next, reduceCtorEq, Option.some.injEq] at hr
      subst hr
      exact h.release hpc rfl rfl rfl rfl (by simp [Inv.Plain]) (by simp [Inv.Plain])
  | qStore =>
      rw [hpc] at hr
      cases c <;> simp only [next, reduceCtorEq, Option.some.injEq] at hr
      subst hr
      exact h.upgrade hpc
  | qRelease =>
      rw [hpc] at hr
      cases c <;> simp only [next, reduceCtorEq, Option.some.injEq] at hr
      subst hr
      exact h.release hpc rfl rfl rfl rfl (by simp [Inv.Plain]) (by simp [Inv.Plain])
  | upgraded =>
      rw [hpc] at hr
      cases c <;> simp only [next, reduceCtorEq, Option.some.injEq] at hr
      · subst hr
        exact h.quiet hpc rfl rfl rfl (by simp [Inv.Plain]) (by simp [Inv.Plain])
      · subst hr
        exact h.quiet hpc rfl rfl rfl (by simp [Inv.Plain]) (by simp [Inv.Plain])
  | dStore =>
      rw [hpc] at hr
      cases c <;> simp only [next, reduceCtorEq, Option.some.injEq] at hr
      subst hr
      exact h.downgrade hpc
  | dropped =>
      rw [hpc] at hr
      cases c <;> simp only [next, reduceCtorEq, Option.some.injEq] at hr
      subst hr
      exact h.quiet hpc rfl rfl rfl (by simp [Inv.Plain]) (by simp [Inv.Plain])
  | aborted => exact absurd hpc (h.running t)

theorem inv_run {s : State} {acts : List (Nat × Call)} (h : Run step anyStep .init acts s) : Inv s :=
  h.invariant (fun _ _ _ hi _ hs => inv_step hi hs) inv_init

/-- **Mutual exclusion**: while a thread is in a write section, no other thread is in a read or
write section. -/
theorem rwl_exclusion {s : State} {acts : List (Nat × Call)} {t u : Nat}
    (h : Run step anyStep .init acts s) (hw : (s.pc t).writeSection = true) (hne : u ≠ t) :
    (s.pc u).writeSection = false ∧ (s.pc u).readSection = false := by
  have hi := inv_run h
  have hwrite : ∀ p : Pc, p.writeSection = true → p.holdsWrite = true := by
    intro p hp
    cases p <;> simp_all [Pc.writeSection, Pc.holdsWrite]
  have hread : ∀ p : Pc, p.readSection = true → p.holdsRead = true := by
    intro p hp
    cases p <;> simp_all [Pc.readSection, Pc.holdsRead]
  obtain ⟨h₁, h₂⟩ := hi.alone t u (hwrite _ hw) hne
  refine ⟨?_, ?_⟩
  · by_contra hu
    rw [hwrite _ (by simpa using hu)] at h₁
    cases h₁
  · by_contra hu
    rw [hread _ (by simpa using hu)] at h₂
    cases h₂

/-- A writer, and a reader that has to wait. -/
theorem rwl_exclusion_two : ∃ s, Run step anyStep .init
      [(0, .lockW), (0, .go), (1, .lockR), (1, .go), (1, .go), (1, .go), (1, .go)] s ∧
    (s.pc 1).writeSection = false ∧ (s.pc 1).readSection = false := by
  obtain ⟨s, hs, hw⟩ : ∃ s, Run step anyStep .init
      [(0, .lockW), (0, .go), (1, .lockR), (1, .go), (1, .go), (1, .go), (1, .go)] s ∧
      (s.pc 0).writeSection = true :=
    ⟨_, .more trivial rfl (.more trivial rfl (.more trivial rfl (.more trivial rfl
      (.more trivial rfl (.more trivial rfl (.more trivial rfl (.refl _))))))), rfl⟩
  exact ⟨s, hs, rwl_exclusion hs hw (by decide)⟩

end Muxomucota.Sync
