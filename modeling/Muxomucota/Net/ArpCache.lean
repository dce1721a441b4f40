import Muxomucota.Lib.Lru
import Muxomucota.Net.Wire
import Mathlib.Algebra.Group.Nat.Defs

/-!
# Net — the ARP cache

`arp_lookup` of `progs/common/ip/arp.c`, for calls that do not overlap.  What `arp_resolve` gives is a
parameter of a call.  The cache is a map that forgets what was used least recently: `last_usage` puts its
entries in an order, in which their keys are the `latest` 32 that were looked up (`ArpCache.Holds`).
-/

namespace Muxomucota.Net
open Lib

variable {ι : Type*}

/-- `ARP_CACHE_SIZE`. -/
def arpCacheSize : Nat := 32

/-- `struct cache_entry` with an interface; `ι` is what a `struct interface *` may be besides `NULL`. -/
structure CacheEntry (ι : Type*) where
  i : ι
  ip : Word
  mac : BitVec 64
  lastUsage : Int

/-- What is looked up. -/
structure ArpKey (ι : Type*) where
  i : ι
  ip : Word
  deriving DecidableEq

def CacheEntry.key (e : CacheEntry ι) : ArpKey ι := ⟨e.i, e.ip⟩

/-- `arp_cache` and `usage_counter`; `none` is an entry without an interface. -/
structure ArpCache (ι : Type*) where
  slots : List (Option (CacheEntry ι))
  usageCounter : Int

/-- As it is in the beginning. -/
def ArpCache.init : ArpCache ι := ⟨List.replicate arpCacheSize none, 0⟩

/-- `__sync_fetch_and_add(&usage_counter, 1)`, on an `int`. -/
def ArpCache.nextUsage (s : ArpCache ι) : Int := (s.usageCounter + 1).bmod (2 ^ 32)

/-- The first loop of `arp_lookup`, from the slot `n` on. -/
def findEntry [DecidableEq ι] (key : ArpKey ι) :
    Nat → List (Option (CacheEntry ι)) → Option (Nat × CacheEntry ι)
  | _, [] => none
  | n, none :: slots => findEntry key (n + 1) slots
  | n, some e :: slots => if e.key = key then some (n, e) else findEntry key (n + 1) slots

/-- The second loop, from the slot `n` on: `oldest_i` behind it. -/
def findOldest : (oldest : Int) → (oldestI n : Nat) → List (Option (CacheEntry ι)) → Nat
  | _, oldestI, _, [] => oldestI
  -- such an entry has a `last_usage` too, but the loop ends there
  | _, _, n, none :: _ => n
  | oldest, oldestI, n, some e :: slots =>
      if e.lastUsage < oldest then findOldest e.lastUsage n (n + 1) slots
      else findOldest oldest oldestI (n + 1) slots

/-- An entry is written into a slot, with the next number as its last use. -/
def ArpCache.use (s : ArpCache ι) (n : Nat) (key : ArpKey ι) (mac : BitVec 64) : ArpCache ι :=
  { slots := s.slots.set n (some ⟨key.i, key.ip, mac, s.usageCounter⟩), usageCounter := s.nextUsage }

/-- `arp_lookup`; `resolved` is what `arp_resolve` gives if it is called. -/
def arpLookup [DecidableEq ι] (s : ArpCache ι) (key : ArpKey ι) (resolved : BitVec 64) :
    ArpCache ι × BitVec 64 :=
  match findEntry key 0 s.slots with
  | some (n, e) => (s.use n key e.mac, e.mac)
  | none =>
      if resolved = 0 then (s, 0)
      else (s.use (findOldest s.usageCounter 0 0 s.slots) key resolved, resolved)

/-! ### The loops -/

theorem forall_some_cons {P : CacheEntry ι → Prop} {a : CacheEntry ι}
    {slots : List (Option (CacheEntry ι))} :
    (∀ e, some e ∈ some a :: slots → P e) ↔ P a ∧ ∀ e, some e ∈ slots → P e := by
  simp only [List.mem_cons, Option.some.injEq, forall_eq_or_imp]

/-- The search ends at the first empty slot, or finds the oldest entry if there is one older than
`oldest`. -/
theorem findOldest_cases (slots : List (Option (CacheEntry ι))) (oldest : Int) (oldestI n : Nat) :
    (∃ j, slots[j]? = some none ∧ findOldest oldest oldestI n slots = n + j) ∨
      none ∉ slots ∧ ((∀ e, some e ∈ slots → oldest ≤ e.lastUsage) ∧
          findOldest oldest oldestI n slots = oldestI ∨
        ∃ j v, slots[j]? = some (some v) ∧ v.lastUsage < oldest ∧
          (∀ e, some e ∈ slots → v.lastUsage ≤ e.lastUsage) ∧
          findOldest oldest oldestI n slots = n + j) := by
  induction slots generalizing oldest oldestI n with
  | nil =>
      exact .inr ⟨List.not_mem_nil, .inl ⟨fun e he => absurd he List.not_mem_nil, rfl⟩⟩
  | cons slot slots ih =>
      cases slot with
      | none => exact .inl ⟨0, rfl, rfl⟩
      | some e =>
          rw [findOldest]
          split
          · rename_i hlt
            rcases ih e.lastUsage n (n + 1) with ⟨j, hj, heq⟩ | ⟨hfull, hrest⟩
            · exact .inl ⟨j + 1, hj, by omega⟩
            refine .inr ⟨by simpa using hfull, .inr ?_⟩
            rcases hrest with ⟨hmin, heq⟩ | ⟨j, v, hj, hv, hmin, heq⟩
            · exact ⟨0, e, rfl, hlt, forall_some_cons.mpr ⟨Int.le_refl _, hmin⟩, heq⟩
            · exact ⟨j + 1, v, hj, Int.lt_trans hv hlt,
                forall_some_cons.mpr ⟨Int.le_of_lt hv, hmin⟩, by omega⟩
          · rename_i hle
            rcases ih oldest oldestI (n + 1) with ⟨j, hj, heq⟩ | ⟨hfull, hrest⟩
            · exact .inl ⟨j + 1, hj, by omega⟩
            refine .inr ⟨by simpa using hfull, ?_⟩
            rcases hrest with ⟨hmin, heq⟩ | ⟨j, v, hj, hv, hmin, heq⟩
            · exact .inl ⟨forall_some_cons.mpr ⟨Int.not_lt.mp hle, hmin⟩, heq⟩
            · exact .inr ⟨j + 1, v, hj, hv,
                forall_some_cons.mpr ⟨Int.le_trans (Int.le_of_lt hv) (Int.not_lt.mp hle), hmin⟩,
                by omega⟩

section

variable [DecidableEq ι]

theorem findEntry_some {key : ArpKey ι} {slots : List (Option (CacheEntry ι))} {n m : Nat}
    {e : CacheEntry ι} (h : findEntry key n slots = some (m, e)) :
    e.key = key ∧ ∃ j, m = n + j ∧ slots[j]? = some (some e) := by
  induction slots generalizing n with
  | nil => exact absurd h (Option.some_ne_none _).symm
  | cons slot slots ih =>
      have hnext : findEntry key (n + 1) slots = some (m, e) →
          e.key = key ∧ ∃ j, m = n + j ∧ (slot :: slots)[j]? = some (some e) := by
        intro h
        obtain ⟨hkey, j, hm, hj⟩ := ih h
        exact ⟨hkey, j + 1, by omega, hj⟩
      cases slot with
      | none => exact hnext h
      | some e' =>
          rw [findEntry] at h
          split at h
          · rename_i hkey
            obtain ⟨rfl, rfl⟩ := Prod.mk.inj (Option.some.inj h)
            exact ⟨hkey, 0, rfl, rfl⟩
          · exact hnext h

theorem findEntry_none {key : ArpKey ι} {slots : List (Option (CacheEntry ι))} {n : Nat}
    (h : findEntry key n slots = none) : ∀ e, some e ∈ slots → e.key ≠ key := by
  induction slots generalizing n with
  | nil => exact fun e he => absurd he List.not_mem_nil
  | cons slot slots ih =>
      cases slot with
      | none =>
          intro e he
          rcases List.mem_cons.mp he with he | he
          · exact absurd he (Option.some_ne_none e)
          · exact ih h e he
      | some e' =>
          rw [findEntry] at h
          split at h
          · exact absurd h (Option.some_ne_none _)
          · rename_i hkey
            exact forall_some_cons.mpr ⟨hkey, ih h⟩

end

/-! ### The order of the entries -/

/-- The slots hold the entries `es`, the one that was used least recently first. -/
structure ArpCache.Holds (s : ArpCache ι) (es : List (CacheEntry ι)) : Prop where
  size : s.slots.length = arpCacheSize
  entries : s.slots.reduceOption.Perm es
  order : es.Pairwise fun a b => a.lastUsage < b.lastUsage
  counter : ∀ e ∈ es, e.lastUsage < s.usageCounter

namespace ArpCache.Holds

variable {s : ArpCache ι} {es rest : List (CacheEntry ι)} {n : Nat} {slot : Option (CacheEntry ι)}

theorem init : (ArpCache.init : ArpCache ι).Holds [] where
  size := List.length_replicate
  entries := by rw [ArpCache.init, List.reduceOption_replicate_none]
  order := .nil
  counter := fun _ he => absurd he List.not_mem_nil

theorem mem_iff (h : s.Holds es) {e : CacheEntry ι} : some e ∈ s.slots ↔ e ∈ es := by
  rw [← List.reduceOption_mem_iff]
  exact h.entries.mem_iff

/-- An entry that is written comes last, and what was in its slot is gone. -/
theorem use (h : s.Holds es) (hslot : s.slots[n]? = some slot) (hes : es.Perm (slot.toList ++ rest))
    (hsub : rest.Sublist es) (hnext : s.usageCounter < s.nextUsage) (key : ArpKey ι)
    (mac : BitVec 64) :
    (s.use n key mac).Holds (rest ++ [⟨key.i, key.ip, mac, s.usageCounter⟩]) where
  size := (List.length_set ..).trans h.size
  entries := by
    obtain ⟨hn, hget⟩ := List.getElem?_eq_some_iff.mp hslot
    have hold := reduceOption_set hn slot
    rw [← hget, List.set_getElem_self, hget] at hold
    have hothers : (s.slots.eraseIdx n).reduceOption.Perm rest :=
      (List.perm_append_left_iff _).mp (hold.symm.trans (h.entries.trans hes))
    exact (reduceOption_set hn _).trans ((hothers.cons _).trans (List.perm_append_singleton ..).symm)
  order := by
    refine List.pairwise_append.mpr ⟨h.order.sublist hsub, List.pairwise_singleton .., ?_⟩
    intro a ha b hb
    rw [List.mem_singleton.mp hb]
    exact h.counter a (hsub.subset ha)
  counter := by
    intro e he
    rcases List.mem_append.mp he with he | he
    · exact Int.lt_trans (h.counter e (hsub.subset he)) hnext
    · rw [List.mem_singleton.mp he]
      exact hnext

/-- **The slot that is taken** is an empty one, or that of the entry that was used least recently. -/
theorem oldest_slot (h : s.Holds es) :
    ∃ slot, s.slots[findOldest s.usageCounter 0 0 s.slots]? = some slot ∧
      es.Perm (slot.toList ++ es.rtake (arpCacheSize - 1)) := by
  have hlen := h.entries.length_eq
  rcases findOldest_cases s.slots s.usageCounter 0 0 with ⟨j, hj, heq⟩ | ⟨hfull, hrest⟩
  · have hroom : es.length < arpCacheSize := by
      rw [← hlen, ← h.size]
      exact List.reduceOption_length_lt_iff.mpr (List.mem_of_getElem? hj)
    refine ⟨none, by rw [heq, Nat.zero_add, hj], ?_⟩
    rw [rtake_of_length_le (Nat.le_sub_one_of_lt hroom)]
    exact .refl _
  · have hall : es.length = arpCacheSize := by
      refine Nat.le_antisymm ?_ (Nat.le_of_not_lt fun hlt => hfull ?_)
      · rw [← hlen, ← h.size]
        exact List.reduceOption_length_le _
      · rw [← hlen, ← h.size] at hlt
        exact List.reduceOption_length_lt_iff.mp hlt
    obtain ⟨a, tl, rfl⟩ := List.exists_cons_of_length_eq_add_one hall
    have ha : a ∈ a :: tl := List.mem_cons_self ..
    rcases hrest with ⟨hmin, -⟩ | ⟨j, v, hj, -, hmin, heq⟩
    · exact absurd (h.counter a ha) (Int.not_lt.mpr (hmin a (h.mem_iff.mpr ha)))
    have hva : v = a := by
      rcases List.mem_cons.mp (h.mem_iff.mp (List.mem_of_getElem? hj)) with hva | hv
      · exact hva
      · exact absurd (List.rel_of_pairwise_cons h.order hv)
          (Int.not_lt.mpr (hmin a (h.mem_iff.mpr ha)))
    refine ⟨some v, by rw [heq, Nat.zero_add, hj], ?_⟩
    rw [List.rtake, hall, hva]
    exact .refl _

end ArpCache.Holds

/-! ### What was looked up -/

/-- A call; `resolved` is what `arp_resolve` gives in it. -/
structure ArpCall (ι : Type*) where
  key : ArpKey ι
  resolved : BitVec 64

/-- What a call returned, and whether it called `arp_resolve`. -/
structure ArpAnswer (ι : Type*) where
  key : ArpKey ι
  mac : BitVec 64
  asked : Bool

/-- The keys that were looked up with success. -/
def found (log : List (ArpAnswer ι)) : List (ArpKey ι) := (log.filter (·.mac ≠ 0)).map (·.key)

/-- The last call of `arp_resolve` for the key gave the MAC. -/
def LastResolved (log : List (ArpAnswer ι)) (key : ArpKey ι) (mac : BitVec 64) : Prop :=
  ∃ before after, log = before ++ ⟨key, mac, true⟩ :: after ∧
    ∀ a ∈ after, a.key = key → a.asked = false

theorem LastResolved.snoc {log : List (ArpAnswer ι)} {key : ArpKey ι} {mac : BitVec 64}
    (h : LastResolved log key mac) {a : ArpAnswer ι} (ha : a.key = key → a.asked = false) :
    LastResolved (log ++ [a]) key mac := by
  obtain ⟨before, after, rfl, hafter⟩ := h
  refine ⟨before, after ++ [a], by rw [List.append_assoc, List.cons_append], ?_⟩
  intro b hb
  rcases List.mem_append.mp hb with hb | hb
  · exact hafter b hb
  · rw [List.mem_singleton.mp hb]
    exact ha

theorem found_length_le (log : List (ArpAnswer ι)) : (found log).length ≤ log.length := by
  rw [found, List.length_map]
  exact List.length_filter_le ..

theorem found_snoc (log : List (ArpAnswer ι)) (a : ArpAnswer ι) :
    found (log ++ [a]) = if a.mac = 0 then found log else found log ++ [a.key] := by
  unfold found
  rw [List.filter_append, List.map_append]
  by_cases h : a.mac = 0
  · rw [if_pos h, List.filter_singleton, decide_eq_false (not_not.mpr h)]
    exact List.append_nil _
  · rw [if_neg h, List.filter_singleton, decide_eq_true h]
    rfl

section

variable [DecidableEq ι]

def arpAnswer (s : ArpCache ι) (c : ArpCall ι) : ArpAnswer ι :=
  ⟨c.key, (arpLookup s c.key c.resolved).2, (findEntry c.key 0 s.slots).isNone⟩

/-- The invariant: the entries are those of the latest keys, each with what it was resolved to. -/
structure ArpCache.Records (s : ArpCache ι) (log : List (ArpAnswer ι)) (es : List (CacheEntry ι)) :
    Prop extends s.Holds es where
  keys : es.map CacheEntry.key = latest arpCacheSize (found log)
  macs : ∀ e ∈ es, e.mac ≠ 0 ∧ LastResolved log e.key e.mac
  counted : s.usageCounter = (found log).length

/-- One more use of a key, which is in `es` or was resolved just now. -/
theorem ArpCache.Records.use {s : ArpCache ι} {log : List (ArpAnswer ι)}
    {es : List (CacheEntry ι)} {n : Nat} {slot : Option (CacheEntry ι)} (h : s.Records log es)
    (a : ArpAnswer ι) (rest : List (CacheEntry ι)) (hlen : log.length + 1 < 2 ^ 31) (hslot : s.slots[n]? = some slot)
    (hes : es.Perm (slot.toList ++ rest)) (hsub : rest.Sublist es)
    (hkeys : rest.map CacheEntry.key =
      ((es.map CacheEntry.key).erase a.key).rtake (arpCacheSize - 1))
    (hmac : a.mac ≠ 0) (hlast : LastResolved (log ++ [a]) a.key a.mac) :
    ∃ es', (s.use n a.key a.mac).Records (log ++ [a]) es' := by
  have hfound : found (log ++ [a]) = found log ++ [a.key] := by rw [found_snoc, if_neg hmac]
  have hnext : s.nextUsage = s.usageCounter + 1 := by
    have hle := found_length_le log
    rw [ArpCache.nextUsage, h.counted]
    exact Int.bmod_eq_of_le (by omega) (by omega)
  refine ⟨rest ++ [⟨a.key.i, a.key.ip, a.mac, s.usageCounter⟩],
    h.toHolds.use hslot hes hsub (by omega) a.key a.mac, ?_, ?_, ?_⟩
  · rw [List.map_append, hkeys, h.keys, hfound]
    exact (latest_snoc (arpCacheSize - 1) (found log) a.key).symm
  · intro e he
    rcases List.mem_append.mp he with he | he
    · have hne : a.key ≠ e.key := by
        intro heq
        have hmem : e.key ∈ rest.map CacheEntry.key := List.mem_map_of_mem he
        rw [hkeys, ← heq] at hmem
        exact (h.keys ▸ latest_nodup _ _ : (es.map CacheEntry.key).Nodup).not_mem_erase
          (List.mem_of_mem_drop hmem)
      obtain ⟨hmac', hlast'⟩ := h.macs e (hsub.subset he)
      exact ⟨hmac', hlast'.snoc fun heq => absurd heq hne⟩
    · rw [List.mem_singleton.mp he]
      exact ⟨hmac, hlast⟩
  · rw [hfound, List.length_append, List.length_singleton]
    change s.nextUsage = _
    rw [hnext, h.counted]
    rfl

/-- **A call keeps the invariant.** -/
theorem ArpCache.Records.lookup {s : ArpCache ι} {log : List (ArpAnswer ι)}
    {es : List (CacheEntry ι)} (h : s.Records log es) (hlen : log.length + 1 < 2 ^ 31)
    (c : ArpCall ι) :
    ∃ es', (arpLookup s c.key c.resolved).1.Records (log ++ [arpAnswer s c]) es' := by
  unfold arpAnswer arpLookup
  cases hfind : findEntry c.key 0 s.slots with
  | some entry =>
      obtain ⟨n, e⟩ := entry
      obtain ⟨hkey, j, rfl, hj⟩ := findEntry_some hfind
      rw [Nat.zero_add]
      have hmem := h.mem_iff.mp (List.mem_of_getElem? hj)
      obtain ⟨hmac, hlast⟩ := h.macs e hmem
      obtain ⟨pre, post, rfl⟩ := List.append_of_mem hmem
      refine h.use ⟨c.key, e.mac, false⟩ (pre ++ post) hlen hj List.perm_middle
        ((List.sublist_cons_self e post).append_left pre) ?_ hmac ?_
      · have hkeys : (pre ++ e :: post).map CacheEntry.key =
            pre.map CacheEntry.key ++ c.key :: post.map CacheEntry.key := by
          rw [List.map_append, List.map_cons, hkey]
        have hnodup := latest_nodup arpCacheSize (found log)
        have hsize := latest_length_le arpCacheSize (found log)
        rw [← h.keys, hkeys] at hnodup hsize
        have hnot : c.key ∉ pre.map CacheEntry.key := fun hpre =>
          List.disjoint_of_nodup_append hnodup hpre (List.mem_cons_self ..)
        rw [List.length_append, List.length_cons] at hsize
        have hrest : (pre.map CacheEntry.key ++ post.map CacheEntry.key).length ≤
            arpCacheSize - 1 := by
          rw [List.length_append]
          exact Nat.le_sub_one_of_lt hsize
        rw [hkeys, List.erase_append_right _ hnot, List.erase_cons_head, rtake_of_length_le hrest,
          List.map_append]
      · rw [← hkey]
        exact hlast.snoc fun _ => rfl
  | none =>
      have hnone := findEntry_none hfind
      dsimp only
      split
      · rename_i hzero
        refine ⟨es, h.toHolds, ?_, fun e he => ?_, ?_⟩
        · rw [found_snoc, if_pos rfl, h.keys]
        · obtain ⟨hmac, hlast⟩ := h.macs e he
          exact ⟨hmac, hlast.snoc fun heq => absurd heq.symm (hnone e (h.mem_iff.mpr he))⟩
        · rw [found_snoc, if_pos rfl, h.counted]
      · rename_i hmac
        obtain ⟨slot, hslot, hes⟩ := h.oldest_slot
        have hkey : c.key ∉ es.map CacheEntry.key := by
          intro hmem
          obtain ⟨e, he, heq⟩ := List.mem_map.mp hmem
          exact hnone e (h.mem_iff.mpr he) heq
        refine h.use ⟨c.key, c.resolved, true⟩ _ hlen hslot hes (List.drop_sublist ..) ?_ hmac
          ⟨log, [], rfl, fun _ ha => absurd ha List.not_mem_nil⟩
        rw [List.erase_of_not_mem hkey, List.rtake, List.rtake, List.map_drop, List.length_map]

end

end Muxomucota.Net
