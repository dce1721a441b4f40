import Muxomucota.Cdi.CacheGet

/-!
# Cdi — a cache in use

The users of a cache get blocks, change them, mark what they have changed, and release them again.  Every such
run of `Blocks` is a run of the cache and its device (`cache_step_shows`), in which

* a block that is held has the contents that were written last (`cache_shows_writes`);
* `cdi_cache_sync` brings everything that is marked to the device (`cache_sync_writes`);
* a block can be got unless 256 other blocks are held, and without the device if it is one of those that were
  asked for last (`cache_serves`).

This holds while no callback fails.  A block that cannot be read is freed, but stays in the tree if it is new, so
that the next user gets the freed block (`failed_read_stays`).
-/

namespace Muxomucota.Cdi
open Lib

universe u

variable {ι δ α : Type u} [DecidableEq ι] {env : Backing ι δ α} {content : δ → BitVec 64 → α} {size n : ℕ}
  {c : Cache ι δ α} {l m : List ι} {b : ι} {k : BitVec 64} {s s' : Blocks α}

/-- A cache and the blocks that its users have got. -/
structure CacheUsers (ι δ α : Type u) where
  cache : Cache ι δ α
  handle : BitVec 64 → Option ι

namespace CacheUsers

def create (c : Cache ι δ α) : CacheUsers ι δ α := ⟨c.cdiCacheCreate, fun _ => none⟩

def step (env : Backing ι δ α) (n : ℕ) (u : CacheUsers ι δ α) : CacheOp α → Option (CacheUsers ι δ α)
  | .get k noread => do
    match ← u.cache.cdiCacheBlockGet env n k noread with
    | (c, none) => some { u with cache := c }
    | (c, some b) => some ⟨c, Function.update u.handle k (some b)⟩
  | .modify k v => (u.handle k).map fun b => { u with cache := { u.cache with data := Function.update u.cache.data b v } }
  | .dirty k => (u.handle k).map fun b => { u with cache := u.cache.cdiCacheBlockDirty b }
  | .release k => (u.handle k).map fun b => { u with cache := u.cache.cdiCacheBlockRelease b }
  | .sync => (u.cache.cdiCacheSync env n).map fun c => { u with cache := c }

end CacheUsers

/-- The cache is what the users know, and every block that they hold is where they have got it. -/
def CacheUsers.Shows (u : CacheUsers ι δ α) (content : δ → BitVec 64 → α) (size : ℕ) (s : Blocks α) : Prop :=
  ∃ l m, u.cache.Shows content size l m s ∧ ∀ k ∈ s.held, ∃ b ∈ l, u.cache.number b = k ∧ u.handle k = some b

omit [DecidableEq ι] in
theorem create_shows (c : Cache ι δ α) (content : δ → BitVec 64 → α) (size : ℕ) :
    (CacheUsers.create c).Shows content size (.init (content c.prvData)) := by
  refine ⟨[], [], ⟨⟨⟨.nil, rfl, trivial, trivial, rfl, List.Pairwise.nil⟩, rfl, rfl, rfl, Nat.zero_le _, by simp,
    fun b hb => ?_, by simp⟩, ⟨fun k hk => ?_, by simp, fun k _ v hv => ?_, by simp, by simp⟩, .nil, List.nodup_nil,
    fun b => Iff.rfl, rfl⟩, by simp [Blocks.init]⟩
  · simp [CacheUsers.create, Cache.cdiCacheCreate] at hb
  · exact absurd rfl (Cache.inReadBuffer_iff.mp hk).1
  · exact Option.some.inj hv

/-! ### One step -/

namespace Cache.Shows

variable (h : c.Shows content size l m s) (hb : b ∈ l)
include h hb

theorem modify (v : α) : Shows { c with data := Function.update c.data b v } content size l m
    { s with
      content := Function.update s.content (c.number b) (some v)
      unmarked := Function.update s.unmarked (c.number b) true } := by
  have hs := h.sound
  have hc := h.coherent
  have hne : ∀ {x}, x ∈ l → x ≠ b → c.number x ≠ c.number b := fun hx hxb e => hxb (hs.number_inj hx hb e)
  refine ⟨⟨hs.tree, hs.mask, hs.used, hs.count, hs.room, hs.live, hs.hints, hs.small⟩,
    ⟨hc.buffer, fun x hx w hw => ?_, fun j hj w hw => ?_, fun x hx hd hu => ?_, hc.refs⟩, h.lru, h.nodup, h.mem, h.recent⟩
  · change Function.update s.content (c.number b) (some v) (c.number x) = some w at hw
    show Function.update c.data b v x = w
    by_cases hxb : x = b
    · rw [hxb, Function.update_self] at hw ⊢
      exact Option.some.inj hw
    · rw [Function.update_of_ne (hne hx hxb)] at hw
      rw [Function.update_of_ne hxb]
      exact hc.cached x hx w hw
  · change Function.update s.content (c.number b) (some v) j = some w at hw
    have hjb : j ≠ c.number b := (hj b hb).symm
    rw [Function.update_of_ne hjb] at hw
    exact hc.uncached j hj w hw
  · change Function.update s.unmarked (c.number b) true (c.number x) = false at hu
    show content c.prvData (c.number x) = Function.update c.data b v x
    by_cases hxb : x = b
    · rw [hxb, Function.update_self] at hu
      cases hu
    · rw [Function.update_of_ne (hne hx hxb)] at hu
      rw [Function.update_of_ne hxb]
      exact hc.clean x hx hd hu

theorem dirty : (c.cdiCacheBlockDirty b).Shows content size l m
    { s with unmarked := Function.update s.unmarked (c.number b) false } := by
  have hs := h.sound
  have hc := h.coherent
  refine ⟨⟨hs.tree, hs.mask, hs.used, hs.count, hs.room, hs.live, hs.hints, hs.small⟩,
    ⟨hc.buffer, hc.cached, hc.uncached, fun x hx hd hu => ?_, hc.refs⟩, h.lru, h.nodup, h.mem, h.recent⟩
  change Function.update c.dirty b true x = false at hd
  change Function.update s.unmarked (c.number b) false (c.number x) = false at hu
  by_cases hxb : x = b
  · rw [hxb, Function.update_self] at hd
    cases hd
  · rw [Function.update_of_ne hxb] at hd
    rw [Function.update_of_ne fun e => hxb (hs.number_inj hx hb e)] at hu
    exact hc.clean x hx hd hu

theorem release (hheld : c.number b ∈ s.held) : (c.cdiCacheBlockRelease b).Shows content size l m
    { s with held := s.held.erase (c.number b) } := by
  have hs := h.sound
  have hc := h.coherent
  refine ⟨⟨hs.tree, hs.mask, hs.used, hs.count, hs.room, hs.live, hs.hints, hs.small⟩,
    ⟨hc.buffer, hc.cached, hc.uncached, hc.clean, fun x hx => ?_⟩, h.lru, h.nodup, h.mem, h.recent⟩
  have hx' := hc.refs x hx
  show (Function.update c.refCount b (c.refCount b - 1) x).toNat = (s.held.erase (c.number b)).count (c.number x)
  by_cases hxb : x = b
  · have hpos := List.count_pos_iff.mpr hheld
    rw [hxb] at hx' ⊢
    rw [Function.update_self, List.count_erase_self]
    rw [← hx'] at hpos ⊢
    bv_omega
  · rw [Function.update_of_ne hxb, List.count_erase_of_ne fun e => hxb (hs.number_inj hx hb e), hx']

end Cache.Shows

/-- Whatever the users may do, the cache does. -/
theorem cache_step_shows (hr : Reliable env content size) (hn : 256 < n) {u : CacheUsers ι δ α} {op : CacheOp α}
    (hu : u.Shows content size s) (hs : s.Ok) (h : s.step size op = some s') :
    ∃ u', u.step env n op = some u' ∧ u'.Shows content size s' := by
  obtain ⟨l, m, hc, hh⟩ := hu
  cases op with
  | get k noread =>
      simp only [Blocks.step, Option.ite_none_right_eq_some, Option.some.injEq] at h
      obtain ⟨⟨hk, hcount⟩, rfl⟩ := h
      rcases Cache.cdiCacheBlockGet_spec hr hc hn hk hcount hs.held hs.unmarked noread with
        ⟨hroom, hget⟩ | ⟨b, c', l', m', hroom, hget, hgot⟩
      · refine ⟨u, ?_, l, m, ?_, ?_⟩
        · rw [CacheUsers.step, hget]
          rfl
        · rwa [Blocks.get, hroom]
        · rwa [Blocks.get, hroom]
      · refine ⟨⟨c', Function.update u.handle k (some b)⟩, ?_, l', m', hgot.shows, fun j hj => ?_⟩
        · rw [CacheUsers.step, hget]
          rfl
        by_cases hjk : j = k
        · exact ⟨b, hgot.mem, hgot.number.trans hjk.symm, by rw [hjk]; exact Function.update_self ..⟩
        · obtain ⟨r, hr'⟩ := Option.isSome_iff_exists.mp hroom
          have hj : j ∈ s.held := by
            rw [Blocks.get, hr'] at hj
            have hj := (List.mem_cons.mp hj).resolve_left hjk
            split at hj <;> exact hj
          obtain ⟨x, hx, rfl, hxh⟩ := hh j hj
          obtain ⟨hx', hnum⟩ := hgot.others x hx hj
          exact ⟨x, hx', hnum, (Function.update_of_ne hjk ..).trans hxh⟩
  | modify k v =>
      simp only [Blocks.step, Option.ite_none_right_eq_some, Option.some.injEq] at h
      obtain ⟨hk, rfl⟩ := h
      obtain ⟨b, hb, rfl, hbh⟩ := hh k hk
      refine ⟨⟨_, u.handle⟩, ?_, l, m, hc.modify hb v, hh⟩
      rw [CacheUsers.step, hbh]
      rfl
  | dirty k =>
      simp only [Blocks.step, Option.ite_none_right_eq_some, Option.some.injEq] at h
      obtain ⟨hk, rfl⟩ := h
      obtain ⟨b, hb, rfl, hbh⟩ := hh k hk
      refine ⟨⟨_, u.handle⟩, ?_, l, m, hc.dirty hb, hh⟩
      rw [CacheUsers.step, hbh]
      rfl
  | release k =>
      simp only [Blocks.step, Option.ite_none_right_eq_some, Option.some.injEq] at h
      obtain ⟨⟨hk, -⟩, rfl⟩ := h
      obtain ⟨b, hb, rfl, hbh⟩ := hh k hk
      refine ⟨⟨_, u.handle⟩, ?_, l, m, hc.release hb hk, fun j hj => hh j (List.mem_of_mem_erase hj)⟩
      rw [CacheUsers.step, hbh]
      rfl
  | sync =>
      obtain rfl := Option.some.inj h
      obtain ⟨r, d, dirty, hsync, hcoh, -⟩ := Cache.cdiCacheSync_spec hr hc.sound hc.coherent hn
      have hsound := hc.sound
      refine ⟨⟨{ u.cache with readBuffer := r, prvData := d, dirty := dirty }, u.handle⟩, ?_, l, m,
        ⟨⟨hsound.tree, hsound.mask, hsound.used, hsound.count, hsound.room, hsound.live, hsound.hints, hsound.small⟩,
          hcoh, hc.lru, hc.nodup, hc.mem, hc.recent⟩, hh⟩
      rw [CacheUsers.step, hsync]
      rfl

/-! ### A device in memory -/

/-- A device of `size` blocks in memory; blocks are numbered as they are allocated. -/
def ramDisk (size : ℕ) : Backing ℕ (BitVec 64 → ℕ) ℕ where
  readBlock d k count _ := (d, min count (size - k.toNat), Vector.ofFn fun i => d (k + BitVec.ofNat 64 i))
  writeBlock d k v := (Function.update d k v, true)
  malloc live := live.foldr max 0 + 1

theorem le_foldr_max {live : List ℕ} {b : ℕ} (hb : b ∈ live) : b ≤ live.foldr max 0 := by
  induction live with
  | nil => cases hb
  | cons a live ih =>
      rcases List.mem_cons.mp hb with rfl | hb
      · exact le_max_left ..
      · exact (ih hb).trans (le_max_right ..)

theorem ramDisk_reliable (size : ℕ) : Reliable (ramDisk size) id size where
  malloc live hm := absurd (le_foldr_max hm) (Nat.not_succ_le_self _)
  keeps _ _ _ := rfl
  reads _ _ _ := min_le_left ..
  first d k buffer hk := lt_min (by decide) (by omega)
  copies d k buffer i hi _ := by simp [ramDisk]
  writes _ _ _ _ := rfl
  succeeds _ _ _ _ := rfl

/-- A cache for a device on which every block has its own number. -/
def emptyCache : Cache ℕ (BitVec 64 → ℕ) ℕ where
  blockCount := 0
  blocksUsed := 0
  prvData k := k.toNat
  tree := ⟨none, 0, fun _ => ⟨none, none, none, 0⟩, fun _ => 0⟩
  lruFirst := none
  lruLast := none
  readBuffer := Vector.replicate READBUF_SZ 0
  readBufferBlock := 0
  readBufferCnt := 0
  hints := Vector.replicate HINTCNT none
  prevHint := 0
  data _ := 0
  refCount _ := 0
  dirty _ := false
  lruNext _ := none
  lruPrev _ := none
  live := []

/-- A block is changed and released, and got again. -/
def changeThree : List (CacheOp ℕ) := [.get 3 false, .modify 3 7, .dirty 3, .release 3, .get 5 false, .get 3 false]

theorem changeThree_runs : ∃ s, changeThree.foldlM (Blocks.step 8) (.init (id emptyCache.prvData)) = some s ∧
    s.content 3 = some 7 ∧ s.content 4 = some 4 ∧ s.unmarked 3 = false ∧ s.unmarked 4 = false ∧ s.held = [3, 5] ∧
    s.recent = [5, 3] :=
  ⟨_, rfl, rfl, rfl, rfl, rfl, rfl, rfl⟩

/-! ### Runs -/

section results

variable {ops : List (CacheOp α)}

theorem cache_run_shows (hr : Reliable env content size) (hn : 256 < n) (c : Cache ι δ α)
    (h : ops.foldlM (Blocks.step size) (.init (content c.prvData)) = some s) :
    ∃ u, ops.foldlM (CacheUsers.step env n) (.create c) = some u ∧ u.Shows content size s ∧ s.Ok :=
  foldlM_simulates (R := fun _ (u : CacheUsers ι δ α) s => u.Shows content size s ∧ s.Ok) h
    ⟨create_shows c content size, by simp [Blocks.init], by simp [Blocks.init]⟩ fun _ _ _ _ _ _ _ hR hs =>
      (cache_step_shows hr hn hR.1 hR.2 hs).imp fun _ hu => ⟨hu.1, hu.2, hR.2.step hs⟩

/-- A block that is held has the contents that were written to it last. -/
theorem cache_shows_writes (hr : Reliable env content size) (hn : 256 < n) (c : Cache ι δ α)
    (h : ops.foldlM (Blocks.step size) (.init (content c.prvData)) = some s) :
    ∃ u, ops.foldlM (CacheUsers.step env n) (.create c) = some u ∧
      ∀ k ∈ s.held, ∃ b, u.handle k = some b ∧ u.cache.number b = k ∧ ∀ v, s.content k = some v → u.cache.data b = v := by
  obtain ⟨u, hu, ⟨l, m, hc, hh⟩, -⟩ := cache_run_shows hr hn c h
  refine ⟨u, hu, fun k hk => ?_⟩
  obtain ⟨b, hb, rfl, hbh⟩ := hh k hk
  exact ⟨b, hbh, rfl, hc.coherent.cached b hb⟩

theorem cache_shows_writes_three : ∃ u b,
    changeThree.foldlM (CacheUsers.step (ramDisk 8) 257) (.create emptyCache) = some u ∧ u.handle 3 = some b ∧
      u.cache.data b = 7 := by
  obtain ⟨s, hs, h₃, -, -, -, hheld, -⟩ := changeThree_runs
  obtain ⟨u, hu, h⟩ := cache_shows_writes (ramDisk_reliable 8) (n := 257) (by decide) emptyCache hs
  obtain ⟨b, hb, -, hv⟩ := h 3 (by rw [hheld]; decide)
  exact ⟨u, b, hu, hb, hv 7 h₃⟩

/-- After `cdi_cache_sync` the device has everything that was written and marked. -/
theorem cache_sync_writes (hr : Reliable env content size) (hn : 256 < n) (c : Cache ι δ α)
    (h : ops.foldlM (Blocks.step size) (.init (content c.prvData)) = some s) :
    ∃ u c', ops.foldlM (CacheUsers.step env n) (.create c) = some u ∧ u.cache.cdiCacheSync env n = some c' ∧
      ∀ k v, s.content k = some v → s.unmarked k = false → content c'.prvData k = v := by
  obtain ⟨u, hu, ⟨l, m, hc, -⟩, -⟩ := cache_run_shows hr hn c h
  obtain ⟨r, d, dirty, hsync, hcoh, hclean⟩ := Cache.cdiCacheSync_spec hr hc.sound hc.coherent hn
  refine ⟨u, _, hu, hsync, fun k v hv hk => ?_⟩
  by_cases hin : ∃ b ∈ l, u.cache.number b = k
  · obtain ⟨b, hb, rfl⟩ := hin
    exact (hcoh.clean b hb (hclean b hb) hk).trans (hcoh.cached b hb v hv)
  · exact hcoh.uncached k (fun b hb e => hin ⟨b, hb, e⟩) v hv

theorem cache_sync_writes_three : ∃ u c',
    changeThree.foldlM (CacheUsers.step (ramDisk 8) 257) (.create emptyCache) = some u ∧
      u.cache.cdiCacheSync (ramDisk 8) 257 = some c' ∧ c'.prvData 3 = 7 ∧ c'.prvData 4 = 4 := by
  obtain ⟨s, hs, h₃, h₄, hu₃, hu₄, -⟩ := changeThree_runs
  obtain ⟨u, c', hu, hc, h⟩ := cache_sync_writes (ramDisk_reliable 8) (n := 257) (by decide) emptyCache hs
  exact ⟨u, c', hu, hc, h 3 7 h₃ hu₃, h 4 4 h₄ hu₄⟩

/-- A block is refused only when 256 others are held.  One of those that were asked for last comes without the
device. -/
theorem cache_serves (hr : Reliable env content size) (hn : 256 < n) (c : Cache ι δ α)
    (h : ops.foldlM (Blocks.step size) (.init (content c.prvData)) = some s) :
    ∃ u, ops.foldlM (CacheUsers.step env n) (.create c) = some u ∧ s.recent.Nodup ∧ s.recent.length ≤ 256 ∧
      ∀ k noread, k.toNat < size → s.held.count k < 65535 →
        ∃ c' r, u.cache.cdiCacheBlockGet env n k noread = some (c', r) ∧
          (r = none ↔ k ∉ s.held ∧ s.held.dedup.length = 256) ∧ (k ∈ s.recent → c'.prvData = u.cache.prvData) := by
  obtain ⟨u, hu, ⟨l, m, hc, -⟩, hs⟩ := cache_run_shows hr hn c h
  have hnd := hc.nodup_recent
  have hlen : s.recent.length ≤ 256 := hc.length_recent ▸ hc.sound.room
  refine ⟨u, hu, hnd, hlen, fun k noread hk hcount => ?_⟩
  rcases Cache.cdiCacheBlockGet_spec hr hc hn hk hcount hs.held hs.unmarked noread with
    ⟨hroom, hget⟩ | ⟨b, c', l', m', hroom, hget, hgot⟩
  · exact ⟨_, none, hget, iff_of_true rfl ((hs.room_none hnd hlen).mp hroom), fun _ => rfl⟩
  · refine ⟨c', some b, hget, ?_, hgot.device⟩
    rw [← hs.room_none hnd hlen]
    obtain ⟨r, hr'⟩ := Option.isSome_iff_exists.mp hroom
    simp [hr']

theorem cache_serves_three : ∃ u,
    changeThree.foldlM (CacheUsers.step (ramDisk 8) 257) (.create emptyCache) = some u ∧
      ∃ c' r, u.cache.cdiCacheBlockGet (ramDisk 8) 257 3 false = some (c', r) ∧ r ≠ none ∧
        c'.prvData = u.cache.prvData := by
  obtain ⟨s, hs, -, -, -, -, hheld, hrecent⟩ := changeThree_runs
  obtain ⟨u, hu, -, -, h⟩ := cache_serves (ramDisk_reliable 8) (n := 257) (by decide) emptyCache hs
  obtain ⟨c', r, hget, hr, hdev⟩ := h 3 false (by decide) (by rw [hheld]; decide)
  exact ⟨u, hu, c', r, hget, fun e => (hr.mp e).1 (by rw [hheld]; decide), hdev (by rw [hrecent]; decide)⟩

/-- A new block that cannot be read is freed but stays in the tree: whoever asks for it next gets it. -/
theorem failed_read_stays (hr : Reliable env content size) (hn : 256 < n) (c : Cache ι δ α)
    (h : ops.foldlM (Blocks.step size) (.init (content c.prvData)) = some s) :
    ∃ u, ops.foldlM (CacheUsers.step env n) (.create c) = some u ∧
      ∀ k, k ∉ s.recent → s.recent.length < 256 → u.cache.inReadBuffer k = false →
        (env.readBlock u.cache.prvData k READBUF_SZ u.cache.readBuffer).2.1 = 0 →
        ∃ c' b, u.cache.cdiCacheBlockGet env n k false = some (c', none) ∧ b ∉ c'.live ∧
          ∀ noread, ∃ c'', c'.cdiCacheBlockGet env n k noread = some (c'', some b) := by
  obtain ⟨u, hu, ⟨l, m, hc, -⟩, hs⟩ := cache_run_shows hr hn c h
  refine ⟨u, hu, fun k hk hlen hbuf hread => ?_⟩
  have hkl : ∀ a ∈ l, u.cache.number a ≠ k := fun a ha e => hk (hc.mem_recent.mpr ⟨a, ha, e⟩)
  have hsound := hc.sound
  have hshows : u.cache.Shows content (2 ^ 64) l m s :=
    ⟨⟨hsound.tree, hsound.mask, hsound.used, hsound.count, hsound.room, hsound.live, hsound.hints,
      fun b _ => (u.cache.number b).isLt⟩, hc.coherent, hc.lru, hc.nodup, hc.mem, hc.recent⟩
  obtain ⟨c₁, b, l', hmake, hroom, -, hfreed⟩ :=
    Cache.makeRoom_new hr.malloc hshows hn hkl (fun hm => hk (hs.held k hm)) k.isLt (hc.length_recent ▸ hlen)
  have hnum : c₁.number b = k := by rw [hroom.number, Function.update_self]
  have hlookup : c₁.lookup n k = some (some b) := by
    rw [Cache.lookup_spec hroom.sound hn, ← hnum, hroom.sound.find_eq hroom.mem]
  have hfind : l.find? (fun b => u.cache.number b == k) = none :=
    List.find?_eq_none.mpr fun a ha => by simpa using hkl a ha
  have hsame : c₁.inReadBuffer k = u.cache.inReadBuffer k ∧ c₁.prvData = u.cache.prvData ∧
      c₁.readBuffer = u.cache.readBuffer := by
    rw [Cache.makeRoom, if_pos (by rw [hsound.used, hsound.count]; exact hc.length_recent ▸ hlen)] at hmake
    obtain ⟨t, -, e⟩ := Option.bind_eq_some_iff.mp hmake
    cases e
    exact ⟨rfl, rfl, rfl⟩
  have hload : ∃ c₂, c₁.loadBlock env b = some (c₂, false) ∧ c₂.live = c₁.live ∧ c₂.lookup n k = c₁.lookup n k := by
    rw [Cache.loadBlock, hnum, hsame.1, hbuf, if_neg Bool.false_ne_true, hsame.2.1, hsame.2.2]
    simp only [hread, if_true]
    exact ⟨_, rfl, rfl, rfl⟩
  obtain ⟨c₂, hload, hlive, hlookup₂⟩ := hload
  refine ⟨{ c₂ with blocksUsed := c₂.blocksUsed - 1, live := c₂.live.erase b }, b, ?_, ?_, fun noread => ?_⟩
  · rw [Cache.cdiCacheBlockGet, Cache.lookup_spec hsound hn, hfind]
    show (u.cache.makeRoom env n k).bind _ = _
    rw [hmake]
    show Cache.fillBlock env n c₁ b false false = _
    rw [Cache.fillBlock, if_neg Bool.false_ne_true, hload]
    rfl
  · rw [hlive]
    exact hfreed
  · have hagain : Cache.lookup n { c₂ with blocksUsed := c₂.blocksUsed - 1, live := c₂.live.erase b } k = some (some b) :=
      hlookup₂.trans hlookup
    rw [Cache.cdiCacheBlockGet, hagain]
    exact ⟨_, rfl⟩

theorem failed_read_stays_eight :
    ∃ c' b, emptyCache.cdiCacheCreate.cdiCacheBlockGet (ramDisk 8) 257 8 false = some (c', none) ∧ b ∉ c'.live ∧
      ∀ noread, ∃ c'', c'.cdiCacheBlockGet (ramDisk 8) 257 8 noread = some (c'', some b) := by
  have hs : [].foldlM (Blocks.step 8) (.init (id emptyCache.prvData)) = some (.init (id emptyCache.prvData)) := rfl
  obtain ⟨u, hu, h⟩ := failed_read_stays (ramDisk_reliable 8) (n := 257) (by decide) emptyCache hs
  obtain rfl := Option.some.inj hu
  exact h 8 (by decide) (by decide) rfl rfl

end results

end Muxomucota.Cdi
