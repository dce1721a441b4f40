import Muxomucota.Cdi.Blocks
import Muxomucota.Cdi.Cache
import Muxomucota.Cdi.TreeRuns
import Muxomucota.Lib.DoublyLinked

/-!
# Cdi — what a cache holds, and writing it back

A cache is *coherent* with what its users know (`Coherent`) when a block in the cache has the contents that they
know, when every other block has them on the device, and when no block but an unmarked one differs from the device
without being dirty.

`Sound` is what does not depend on the contents: the tree, the hints and the counters agree on which blocks there
are.  Writing back keeps both and leaves no block dirty (`cdiCacheSync_spec`).
-/

namespace Muxomucota.Cdi
open Lib

universe u

variable {ι δ α : Type u} {env : Backing ι δ α} {content : δ → BitVec 64 → α} {size n : ℕ}
  {c c' : Cache ι δ α} {l m : List ι} {b : ι} {k : BitVec 64}

/-- What the callbacks and `malloc` promise for a device of `size` blocks.  A read may end early, but not before
the first block of the device. -/
structure Reliable (env : Backing ι δ α) (content : δ → BitVec 64 → α) (size : ℕ) : Prop where
  malloc : ∀ live, env.malloc live ∉ live
  keeps : ∀ d k buffer, content (env.readBlock d k READBUF_SZ buffer).1 = content d
  reads : ∀ d k buffer, (env.readBlock d k READBUF_SZ buffer).2.1 ≤ READBUF_SZ
  first : ∀ d k buffer, k.toNat < size → 0 < (env.readBlock d k READBUF_SZ buffer).2.1
  copies : ∀ d k buffer i, (h : i < READBUF_SZ) → i < (env.readBlock d k READBUF_SZ buffer).2.1 →
    (env.readBlock d k READBUF_SZ buffer).2.2[i] = content d (k + BitVec.ofNat 64 i)
  writes : ∀ d k v, k.toNat < size → content (env.writeBlock d k v).1 = Function.update (content d) k v
  succeeds : ∀ d k v, k.toNat < size → (env.writeBlock d k v).2 = true

/-- The blocks of the cache are those of the list. -/
structure Cache.Sound (c : Cache ι δ α) (size : ℕ) (l : List ι) : Prop where
  tree : Represents c.tree l
  mask : c.tree.keyMask = .allOnes 64
  used : c.blocksUsed = l.length
  count : c.blockCount = 256
  room : l.length ≤ 256
  live : ∀ b ∈ l, b ∈ c.live
  hints : ∀ b, some b ∈ c.hints.toList → b ∈ l
  small : ∀ b ∈ l, (c.number b).toNat < size

/-- What is in the read buffer is on the device. -/
def Cache.BufferFresh (c : Cache ι δ α) (content : δ → BitVec 64 → α) : Prop :=
  ∀ k, c.inReadBuffer k → c.readBuffer[(k - c.readBufferBlock).toNat]? = some (content c.prvData k)

/-- The blocks have the contents that their users know. -/
structure Cache.Coherent (c : Cache ι δ α) (content : δ → BitVec 64 → α) (l : List ι) (s : Blocks α) : Prop where
  buffer : c.BufferFresh content
  cached : ∀ b ∈ l, ∀ v, s.content (c.number b) = some v → c.data b = v
  uncached : ∀ k, (∀ b ∈ l, c.number b ≠ k) → ∀ v, s.content k = some v → content c.prvData k = v
  clean : ∀ b ∈ l, c.dirty b = false → s.unmarked (c.number b) = false → content c.prvData (c.number b) = c.data b
  refs : ∀ b ∈ l, (c.refCount b).toNat = s.held.count (c.number b)

namespace Cache

theorem Sound.keyOf (h : c.Sound size l) (b : ι) : c.tree.keyOf b = (c.number b).toNat := by
  rw [Tree.keyOf, Tree.getKey, h.mask, BitVec.and_allOnes, number]

/-- No two blocks have the same number. -/
theorem Sound.number_inj (h : c.Sound size l) {b b' : ι} (hb : b ∈ l) (hb' : b' ∈ l) (e : c.number b = c.number b') :
    b = b' := by
  obtain ⟨-, -, -, -, -, hrise⟩ := h.tree
  by_contra hne
  rw [Rising, List.pairwise_iff_getElem] at hrise
  obtain ⟨i, hi, rfl⟩ := List.mem_iff_getElem.mp hb
  obtain ⟨j, hj, rfl⟩ := List.mem_iff_getElem.mp hb'
  have hk : c.tree.keyOf l[i] = c.tree.keyOf l[j] := by rw [h.keyOf, h.keyOf, e]
  rcases Nat.lt_trichotomy i j with hij | rfl | hij
  · exact (hrise i j hi hj hij).ne hk
  · exact hne rfl
  · exact (hrise j i hj hi hij).ne' hk

theorem Sound.nodup (h : c.Sound size l) : l.Nodup := by
  obtain ⟨-, -, -, -, -, hrise⟩ := h.tree
  exact hrise.nodup

/-- The loops end. -/
theorem Sound.enough (h : c.Sound size l) (hn : 256 < n) : Enough n l := by
  have h₁ : (l.length + 1) ^ 4 ≤ 257 ^ 4 := Nat.pow_le_pow_left (Nat.succ_le_succ h.room) 4
  have h₂ : (2 : ℕ) ^ 256 ≤ 2 ^ n := Nat.pow_le_pow_right (by decide) hn.le
  have h₃ : (257 : ℕ) ^ 4 < 2 ^ 256 := by norm_num
  exact lt_of_le_of_lt h₁ (lt_of_lt_of_le h₃ h₂)

/-! ### One block -/

theorem inReadBuffer_iff : c.inReadBuffer k ↔
    c.readBufferBlock ≠ INVBLKNUM ∧ c.readBufferBlock ≤ k ∧ k < c.readBufferBlock + BitVec.ofNat 64 c.readBufferCnt := by
  simp [inReadBuffer]

/-- The read buffer follows a block that is written. -/
theorem refreshReadBuffer_spec (hf : c.BufferFresh content) (b : ι) :
    ∃ r, c.refreshReadBuffer b = some { c with readBuffer := r } ∧
      ∀ d, content d = Function.update (content c.prvData) (c.number b) (c.data b) →
        ∀ dirty, BufferFresh { c with readBuffer := r, prvData := d, dirty := dirty } content := by
  rw [refreshReadBuffer]
  by_cases hin : c.inReadBuffer (c.number b)
  · obtain ⟨hi, -⟩ := Vector.getElem?_eq_some_iff.mp (hf _ hin)
    rw [if_pos hin, dif_pos hi]
    refine ⟨_, rfl, fun d hd dirty k hk => ?_⟩
    show (c.readBuffer.set _ (c.data b) hi)[(k - c.readBufferBlock).toNat]? = some (content d k)
    rw [hd, Vector.getElem?_set]
    by_cases hkb : k = c.number b
    · rw [hkb, if_pos rfl, Function.update_self]
    · have hne : (c.number b - c.readBufferBlock).toNat ≠ (k - c.readBufferBlock).toNat := fun e =>
        hkb (by have := BitVec.eq_of_toNat_eq e; bv_omega)
      rw [if_neg hne, Function.update_of_ne hkb]
      exact hf k hk
  · rw [if_neg hin]
    refine ⟨c.readBuffer, rfl, fun d hd dirty k hk => ?_⟩
    show c.readBuffer[(k - c.readBufferBlock).toNat]? = some (content d k)
    have hkb : k ≠ c.number b := fun e => hin (e ▸ hk)
    rw [hd, Function.update_of_ne hkb]
    exact hf k hk

variable [DecidableEq ι]

/-- One block is written back, if it is dirty. -/
theorem cacheSyncBlock_spec (hr : Reliable env content size) (hs : c.Sound size l) {s : Blocks α}
    (hc : c.Coherent content l s) (hb : b ∈ l) :
    ∃ r d, c.cacheSyncBlock env b =
        some ({ c with readBuffer := r, prvData := d, dirty := Function.update c.dirty b false }, true) ∧
      Coherent { c with readBuffer := r, prvData := d, dirty := Function.update c.dirty b false } content l s := by
  rw [cacheSyncBlock]
  cases hd : c.dirty b with
  | false =>
      have he : { c with dirty := Function.update c.dirty b false } = c := by rw [← hd, Function.update_eq_self]
      refine ⟨c.readBuffer, c.prvData, ?_, ?_⟩
      · rw [he]; rfl
      · rw [he]; exact hc
  | true =>
      obtain ⟨r, hr', hfresh⟩ := refreshReadBuffer_spec hc.buffer b
      have hw := hr.writes c.prvData (c.number b) (c.data b) (hs.small b hb)
      have hok := hr.succeeds c.prvData (c.number b) (c.data b) (hs.small b hb)
      refine ⟨r, (env.writeBlock c.prvData (c.number b) (c.data b)).1, ?_, hfresh _ hw _, hc.cached, fun k hk v hv => ?_,
        fun b' hb' hd' hu => ?_, hc.refs⟩
      · rw [hr']
        show (if (env.writeBlock c.prvData (c.number b) (c.data b)).2 then _ else _) = _
        rw [if_pos hok]
        rfl
      · have hkb : k ≠ c.number b := (hk b hb).symm
        show content _ k = v
        rw [hw, Function.update_of_ne hkb]
        exact hc.uncached k hk v hv
      · show content _ (c.number b') = c.data b'
        rw [hw]
        by_cases hbb : b' = b
        · rw [hbb, Function.update_self]
        · rw [Function.update_of_ne fun e => hbb (hs.number_inj hb' hb e)]
          refine hc.clean b' hb' ?_ hu
          exact (Function.update_of_ne hbb ..).symm.trans hd'

/-! ### All blocks -/

theorem cacheSyncBlock_tree {r : Bool} (h : c.cacheSyncBlock env b = some (c', r)) : c'.tree = c.tree := by
  rw [cacheSyncBlock] at h
  split at h
  · cases h; rfl
  · obtain ⟨c₁, h₁, h⟩ := Option.bind_eq_some_iff.mp h
    have ht : c₁.tree = c.tree := by
      rw [refreshReadBuffer] at h₁
      split at h₁
      · split at h₁
        · cases h₁; rfl
        · cases h₁
      · cases h₁; rfl
    dsimp only at h
    split at h <;> cases h <;> exact ht

/-- The loop takes the blocks that `tree_prev` leads to. -/
theorem syncLoop_eq {j : ℕ} {o : Option ι} {bs : List ι} (h : c.tree.visits .left n j o = some bs) :
    c.syncLoop env n j o = bs.foldlM (fun c b => (c.cacheSyncBlock env b).map Prod.fst) c := by
  induction j generalizing c o bs with
  | zero =>
      rw [Tree.visits] at h
      rw [syncLoop, Tree.treePrev]
      obtain ⟨a, ha, h⟩ := Option.bind_eq_some_iff.mp h
      rw [ha]
      cases a with
      | none => cases h; rfl
      | some a => cases h
  | succ j ih =>
      rw [Tree.visits] at h
      rw [syncLoop, Tree.treePrev]
      obtain ⟨a, ha, h⟩ := Option.bind_eq_some_iff.mp h
      rw [ha]
      cases a with
      | none => cases h; rfl
      | some a =>
          obtain ⟨bs, hbs, h⟩ := Option.bind_eq_some_iff.mp h
          cases h
          rw [List.foldlM_cons]
          show (c.cacheSyncBlock env a).bind _ = ((c.cacheSyncBlock env a).map Prod.fst).bind _
          cases hsync : c.cacheSyncBlock env a with
          | none => rfl
          | some r =>
              have htree : r.1.tree = c.tree := cacheSyncBlock_tree hsync
              exact ih (by rw [htree]; exact hbs)

/-- **Writing back**: afterwards no block is dirty, and nothing but the device, the read buffer and the marks
has changed. -/
theorem cdiCacheSync_spec (hr : Reliable env content size) (hs : c.Sound size l) {s : Blocks α}
    (hc : c.Coherent content l s) (hn : 256 < n) :
    ∃ r d dirty, c.cdiCacheSync env n = some { c with readBuffer := r, prvData := d, dirty := dirty } ∧
      Coherent { c with readBuffer := r, prvData := d, dirty := dirty } content l s ∧ ∀ b ∈ l, dirty b = false := by
  have hv := (visits_all hs.tree (hs.enough hn) (hs.room.trans hn.le)).2
  rw [cdiCacheSync, syncLoop_eq hv]
  suffices ∀ bs : List ι, (∀ b ∈ bs, b ∈ l) → ∀ c : Cache ι δ α, c.Sound size l → c.Coherent content l s →
      ∃ r d dirty, bs.foldlM (fun c b => (c.cacheSyncBlock env b).map Prod.fst) c =
          some { c with readBuffer := r, prvData := d, dirty := dirty } ∧
        Coherent { c with readBuffer := r, prvData := d, dirty := dirty } content l s ∧
        ∀ b, b ∈ bs ∨ c.dirty b = false → dirty b = false by
    obtain ⟨r, d, dirty, h, hc, hd⟩ := this l.reverse (fun b hb => List.mem_reverse.mp hb) c hs hc
    exact ⟨r, d, dirty, h, hc, fun b hb => hd b (.inl (List.mem_reverse.mpr hb))⟩
  intro bs
  induction bs with
  | nil => exact fun _ c _ hc => ⟨c.readBuffer, c.prvData, c.dirty, rfl, hc, fun b hb => by simpa using hb⟩
  | cons a bs ih =>
      intro hl c hs hc
      obtain ⟨r₁, d₁, h₁, hc₁⟩ := cacheSyncBlock_spec hr hs hc (hl a List.mem_cons_self)
      obtain ⟨r, d, dirty, h, hc', hd⟩ := ih (fun b hb => hl b (List.mem_cons_of_mem _ hb))
        { c with readBuffer := r₁, prvData := d₁, dirty := Function.update c.dirty a false }
        ⟨hs.tree, hs.mask, hs.used, hs.count, hs.room, hs.live, hs.hints, hs.small⟩ hc₁
      refine ⟨r, d, dirty, ?_, hc', fun b hb => hd b ?_⟩
      · rw [List.foldlM_cons, h₁]
        exact h
      · rcases hb with hb | hb
        · rcases List.mem_cons.mp hb with rfl | hb
          · exact .inr (Function.update_self ..)
          · exact .inl hb
        · by_cases hba : b = a
          · exact .inr (by rw [hba]; exact Function.update_self ..)
          · exact .inr ((Function.update_of_ne hba ..).trans hb)

/-! ### The block to replace -/

omit [DecidableEq ι] in
theorem firstUnused_spec {o : Option ι} (h : Chain c.lruPrev o m) (hn : m.length < n) :
    c.firstUnused n o = some (m.find? fun b => c.refCount b == 0) := by
  induction h generalizing n with
  | nil =>
      obtain ⟨n, rfl⟩ := Nat.exists_eq_add_of_lt hn
      rfl
  | @cons a l _ ih =>
      obtain ⟨n, rfl⟩ := Nat.exists_eq_add_of_le' (Nat.lt_of_le_of_lt (Nat.zero_le _) hn)
      rw [firstUnused]
      by_cases ha : c.refCount a = 0
      · rw [if_neg (not_not.mpr ha), List.find?_cons_of_pos (by simpa using ha)]
      · rw [if_pos ha, List.find?_cons_of_neg (by simpa using ha)]
        exact ih (Nat.lt_of_succ_lt_succ hn)

/-- The block is the first of the list that nobody holds; it is not dirty any more. -/
theorem findReplaceable_spec (hr : Reliable env content size) (hs : c.Sound size l) {s : Blocks α}
    (hc : c.Coherent content l s) (hn : 256 < n) (hm : Chain c.lruPrev c.lruFirst m) (hlen : m.length < n) :
    ∃ r d dirty, c.findReplaceable env n =
        some ({ c with readBuffer := r, prvData := d, dirty := dirty }, m.find? fun b => c.refCount b == 0) ∧
      Coherent { c with readBuffer := r, prvData := d, dirty := dirty } content l s ∧
      ∀ b ∈ l, m.find? (fun b => c.refCount b == 0) = some b → dirty b = false := by
  rw [findReplaceable, firstUnused_spec hm hlen]
  cases hf : m.find? fun b => c.refCount b == 0 with
  | none => exact ⟨c.readBuffer, c.prvData, c.dirty, rfl, hc, fun b _ hb => by cases hb⟩
  | some b =>
      cases hd : c.dirty b with
      | false =>
          refine ⟨c.readBuffer, c.prvData, c.dirty, ?_, hc, fun b' _ hb' => ?_⟩
          · simp [hd]
          · cases hb'; exact hd
      | true =>
          obtain ⟨r, d, dirty, h, hc', hdirty⟩ := cdiCacheSync_spec hr hs hc hn
          refine ⟨r, d, dirty, ?_, hc', fun b' hb' _ => hdirty b' hb'⟩
          simp [hd, h]

end Cache

end Muxomucota.Cdi
