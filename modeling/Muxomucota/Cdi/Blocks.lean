import Mathlib.Data.List.Dedup
import Mathlib.Data.List.Perm.Subperm
import Mathlib.Logic.Function.Basic
import Mathlib.Tactic.Common

/-!
# Cdi — what the users of a cache know

`Blocks` is a cache as its users see it: what they have written to which block, which blocks they hold, which of
these they have changed without marking them, and which blocks the cache keeps.

`Blocks.get` is what `cdi_cache_block_get` does for them: a block that is not in the cache takes the place of the
one that was not asked for the longest time and that nobody holds, if there is no room; there is none only when
all 256 blocks are held (`Ok.room_none`).  `Blocks.step` is everything that the users may do: a block that has
been changed is marked before its last user releases it.
-/

namespace Muxomucota.Cdi

universe u

/-- What the users of a cache know.  `held` has a block once for every reference, `recent` are the blocks that
the cache keeps, the one that was not asked for the longest time first. -/
structure Blocks (α : Type u) where
  content : BitVec 64 → Option α
  held : List (BitVec 64)
  unmarked : BitVec 64 → Bool
  recent : List (BitVec 64)

inductive CacheOp (α : Type u)
  | get (block : BitVec 64) (noread : Bool)
  | modify (block : BitVec 64) (data : α)
  | dirty (block : BitVec 64)
  | release (block : BitVec 64)
  | sync

variable {α : Type u} {s s' : Blocks α} {k : BitVec 64} {size : ℕ}

namespace Blocks

/-- Nothing is known about the contents of a block. -/
def forget (s : Blocks α) (k : BitVec 64) : Blocks α :=
  { s with content := Function.update s.content k none, unmarked := Function.update s.unmarked k true }

@[simp] theorem forget_content : (s.forget k).content = Function.update s.content k none := rfl

@[simp] theorem forget_unmarked : (s.forget k).unmarked = Function.update s.unmarked k true := rfl

@[simp] theorem forget_held : (s.forget k).held = s.held := rfl

/-- The blocks that stay when `k` is asked for. -/
def room (s : Blocks α) (k : BitVec 64) : Option (List (BitVec 64)) :=
  if k ∈ s.recent ∨ s.recent.length < 256 then some s.recent
  else (s.recent.find? (· ∉ s.held)).map fun v => s.recent.filter (· ≠ v)

/-- The block is held once more, and is the last one that was asked for. -/
def hold (s : Blocks α) (k : BitVec 64) (r : List (BitVec 64)) : Blocks α :=
  { s with held := k :: s.held, recent := r.filter (· ≠ k) ++ [k] }

/-- `cdi_cache_block_get`.  A block that is got without being read, and not held yet, is to be overwritten. -/
def get (s : Blocks α) (k : BitVec 64) (noread : Bool) : Blocks α :=
  match s.room k with
  | none => s
  | some r => (if noread ∧ k ∉ s.held then s.forget k else s).hold k r

/-- Nobody has used the device. -/
def init (device : BitVec 64 → α) : Blocks α := ⟨fun k => some (device k), [], fun _ => false, []⟩

/-- What the users may do.  The reference counter has 16 bits. -/
def step (size : ℕ) (s : Blocks α) : CacheOp α → Option (Blocks α)
  | .get k noread => if k.toNat < size ∧ s.held.count k < 65535 then some (s.get k noread) else none
  | .modify k v =>
    if k ∈ s.held then
      some { s with content := Function.update s.content k (some v), unmarked := Function.update s.unmarked k true }
    else none
  | .dirty k => if k ∈ s.held then some { s with unmarked := Function.update s.unmarked k false } else none
  | .release k =>
    if k ∈ s.held ∧ (s.unmarked k = false ∨ 1 < s.held.count k) then some { s with held := s.held.erase k } else none
  | .sync => some s

/-- What is held is in the cache, and what is not marked is held. -/
structure Ok (s : Blocks α) : Prop where
  held : ∀ k ∈ s.held, k ∈ s.recent
  unmarked : ∀ k, s.unmarked k → k ∈ s.held

theorem room_held (hs : s.Ok) {r : List (BitVec 64)} (h : s.room k = some r) : ∀ j ∈ s.held, j ∈ r := by
  rw [room] at h
  split at h
  · cases h
    exact hs.held
  · obtain ⟨v, hv, rfl⟩ := Option.map_eq_some_iff.mp h
    have hv : v ∉ s.held := by simpa using List.find?_some hv
    exact fun j hj => List.mem_filter.mpr ⟨hs.held j hj, by simpa using ne_of_mem_of_not_mem hj hv⟩

theorem Ok.get (hs : s.Ok) (k : BitVec 64) (noread : Bool) : (s.get k noread).Ok := by
  rw [Blocks.get]
  cases hr : s.room k with
  | none => exact hs
  | some r =>
      have hheld : ∀ j, j ∈ (if noread ∧ k ∉ s.held then s.forget k else s).held ↔ j ∈ s.held := fun j => by
        split <;> rfl
      constructor
      · intro j hj
        show j ∈ r.filter (· ≠ k) ++ [k]
        by_cases hjk : j = k
        · simp [hjk]
        · have hj := ((List.mem_cons.mp hj).resolve_left hjk)
          simp [hjk, room_held hs hr j ((hheld j).mp hj)]
      · intro j hj
        refine List.mem_cons.mpr ((em (j = k)).imp id fun hjk => (hheld j).mpr (hs.unmarked j ?_))
        change (if noread ∧ k ∉ s.held then s.forget k else s).unmarked j at hj
        split at hj
        · rwa [forget_unmarked, Function.update_of_ne hjk] at hj
        · exact hj

/-- Only what is held is marked or changed. -/
theorem Ok.mark (hs : s.Ok) (hk : k ∈ s.held) (v : Bool) (content : BitVec 64 → Option α) :
    Ok { s with content := content, unmarked := Function.update s.unmarked k v } := by
  refine ⟨hs.held, fun j hj => ?_⟩
  change Function.update s.unmarked k v j at hj
  by_cases hjk : j = k
  · exact hjk ▸ hk
  · rw [Function.update_of_ne hjk] at hj
    exact hs.unmarked j hj

theorem Ok.step (hs : s.Ok) {op : CacheOp α} (h : s.step size op = some s') : s'.Ok := by
  cases op with
  | get k noread =>
      simp only [Blocks.step, Option.ite_none_right_eq_some, Option.some.injEq] at h
      obtain ⟨-, rfl⟩ := h
      exact hs.get k noread
  | modify k v =>
      simp only [Blocks.step, Option.ite_none_right_eq_some, Option.some.injEq] at h
      obtain ⟨hk, rfl⟩ := h
      exact hs.mark hk true _
  | dirty k =>
      simp only [Blocks.step, Option.ite_none_right_eq_some, Option.some.injEq] at h
      obtain ⟨hk, rfl⟩ := h
      exact hs.mark hk false s.content
  | release k =>
      simp only [Blocks.step, Option.ite_none_right_eq_some, Option.some.injEq] at h
      obtain ⟨⟨hk, hmarked⟩, rfl⟩ := h
      refine ⟨fun j hj => hs.held j (List.mem_of_mem_erase hj), fun j hj => ?_⟩
      by_cases hjk : j = k
      · subst hjk
        have hj : s.unmarked j = true := hj
        have hcount : 1 < s.held.count j := hmarked.resolve_left (by simp [hj])
        refine List.count_pos_iff.mp ?_
        show 0 < (s.held.erase j).count j
        rw [List.count_erase_self]
        omega
      · exact (List.mem_erase_of_ne hjk).mpr (hs.unmarked j hj)
  | sync =>
      cases h
      exact hs

/-- There is no room when 256 blocks are held. -/
theorem Ok.room_none (hs : s.Ok) (hnd : s.recent.Nodup) (hlen : s.recent.length ≤ 256) :
    s.room k = none ↔ k ∉ s.held ∧ s.held.dedup.length = 256 := by
  have hsub : s.held.dedup.Subperm s.recent :=
    List.subperm_of_subset (List.nodup_dedup _) fun j hj => hs.held j (List.mem_dedup.mp hj)
  rw [room]
  by_cases hk : k ∈ s.recent ∨ s.recent.length < 256
  · rw [if_pos hk]
    refine iff_of_false (Option.some_ne_none _) fun hfull => ?_
    obtain ⟨hkh, hd⟩ := hfull
    have hperm := hsub.perm_of_length_le (by omega)
    rcases hk with hk | hk
    · exact hkh (List.mem_dedup.mp (hperm.mem_iff.mpr hk))
    · rw [← hperm.length_eq] at hk
      omega
  · rw [if_neg hk, Option.map_eq_none_iff, List.find?_eq_none]
    rw [not_or] at hk
    constructor
    · intro hall
      have hperm : s.held.dedup.Perm s.recent := (List.perm_ext_iff_of_nodup (List.nodup_dedup _) hnd).mpr fun j => by
        rw [List.mem_dedup]
        exact ⟨hs.held j, fun hj => by simpa using hall j hj⟩
      exact ⟨fun hkh => hk.1 (hs.held k hkh), by rw [hperm.length_eq]; omega⟩
    · rintro ⟨-, hd⟩ j hj
      have hperm := hsub.perm_of_length_le (by omega)
      simpa using List.mem_dedup.mp (hperm.mem_iff.mpr hj)

end Blocks

end Muxomucota.Cdi
