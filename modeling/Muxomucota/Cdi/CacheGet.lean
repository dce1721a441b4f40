import Muxomucota.Cdi.CacheSync

/-!
# Cdi — getting a block from the cache

`cdi_cache_block_get` looks a block up by the hints and the tree, makes room for it if it is not there, and reads
it.  It does what `Blocks.get` says (`cdiCacheBlockGet_spec`), and returns a block with the number that was asked
for.
-/

namespace Muxomucota.Cdi
open Lib

universe u

variable {ι δ α : Type u} {env : Backing ι δ α} {content : δ → BitVec 64 → α} {size n : ℕ} {c : Cache ι δ α}
  {l m : List ι} {b : ι} {k : BitVec 64} {s : Blocks α}

/-- The cache holds the blocks of `l`, in the order of their last use in `m`, and they are what `s` says. -/
structure Cache.Shows (c : Cache ι δ α) (content : δ → BitVec 64 → α) (size : ℕ) (l m : List ι) (s : Blocks α) :
    Prop where
  sound : c.Sound size l
  coherent : c.Coherent content l s
  lru : Doubly c.lruPrev c.lruNext c.lruFirst c.lruLast m
  nodup : m.Nodup
  mem : ∀ b, b ∈ m ↔ b ∈ l
  recent : m.map c.number = s.recent

namespace Cache

/-! ### Finding a block -/

theorem Sound.find_eq (h : c.Sound size l) (hb : b ∈ l) : l.find? (fun x => c.number x == c.number b) = some b := by
  cases hf : l.find? fun x => c.number x == c.number b with
  | none => exact absurd (List.find?_eq_none.mp hf b hb) (by simp)
  | some x => rw [h.number_inj (List.mem_of_find?_eq_some hf) hb (by simpa using List.find?_some hf)]

theorem getHint_some (h : c.Sound size l) (hg : c.getHint k = some b) : b ∈ l ∧ c.number b = k := by
  obtain ⟨hint, hm, hh⟩ := List.exists_of_findSome?_eq_some hg
  obtain ⟨rfl, hb⟩ := Option.filter_eq_some_iff.mp hh
  exact ⟨h.hints b hm, by simpa using hb⟩

theorem lookup_spec (h : c.Sound size l) (hn : 256 < n) (k : BitVec 64) :
    c.lookup n k = some (l.find? fun b => c.number b == k) := by
  rw [lookup]
  cases hg : c.getHint k with
  | some b =>
      obtain ⟨hb, rfl⟩ := getHint_some h hg
      rw [h.find_eq hb]
  | none =>
      have hkey : c.tree.getKey = c.number := by
        funext a
        rw [Tree.getKey, h.mask, BitVec.and_allOnes, number]
      show c.tree.treeSearch n k = _
      rw [treeSearch_spec h.tree (h.enough hn).search, hkey]

/-! ### Making room -/

variable [DecidableEq ι]

/-- A node gets a new number while it is inserted. -/
theorem treeInsert_number {t : Tree ι} (h : Represents t l) (hb : b ∉ l) (hmask : t.keyMask = .allOnes 64)
    (hk : ∀ a ∈ l, t.sortKey a ≠ k) (hn : Enough n l) :
    ∃ t' l', Tree.treeInsert n { t with sortKey := Function.update t.sortKey b k } b = some t' ∧ Represents t' l' ∧
      l'.Perm (b :: l) ∧ t'.sortKey = Function.update t.sortKey b k ∧ t'.keyMask = .allOnes 64 := by
  have hr : Represents { t with sortKey := Function.update t.sortKey b k } l :=
    h.congr_key rfl rfl fun a ha => by
      simp [Tree.keyOf, Tree.getKey, ne_of_mem_of_not_mem ha hb]
  obtain ⟨t', ht', hr', ho⟩ := treeInsert_spec hr hb hn
  refine ⟨t', _, ht', hr', ?_, ho.sortKey, ho.keyMask.trans hmask⟩
  rw [inserted, if_neg]
  · exact List.perm_orderedInsert ..
  · rintro ⟨a, ha, e⟩
    have hab : a ≠ b := ne_of_mem_of_not_mem ha hb
    have e := BitVec.eq_of_toNat_eq e
    simp only [Tree.getKey, hmask, BitVec.and_allOnes, Function.update_self, Function.update_of_ne hab] at e
    exact hk a ha e

/-- What is there when room for a block has been made: `b` has the number, everything else is as it was. -/
structure Room (c : Cache ι δ α) (content : δ → BitVec 64 → α) (size : ℕ) (l m : List ι) (s : Blocks α) (k : BitVec 64)
    (c' : Cache ι δ α) (b : ι) (l' : List ι) : Prop where
  sound : c'.Sound size l'
  coherent : c'.Coherent content l' (s.forget k)
  lru : Doubly c'.lruPrev c'.lruNext c'.lruFirst c'.lruLast m
  links : b ∈ m ∨ c'.lruPrev b = none ∧ c'.lruNext b = none
  mem : b ∈ l'
  others : ∀ x, x ≠ b → (x ∈ l' ↔ x ∈ l)
  number : c'.number = Function.update c.number b k
  clean : c'.dirty b = false
  device : ∀ v, s.content k = some v → content c'.prvData k = v

/-- There are less than 256 blocks: a new one. -/
theorem makeRoom_new (hmalloc : ∀ live, env.malloc live ∉ live) (h : c.Shows content size l m s) (hn : 256 < n)
    (hk : ∀ a ∈ l, c.number a ≠ k) (hheld : k ∉ s.held) (hsize : k.toNat < size) (hroom : l.length < 256) :
    ∃ c' b l', c.makeRoom env n k = some (c', some (b, false)) ∧ Room c content size l m s k c' b l' ∧ b ∉ l ∧
      b ∉ c'.live.erase b := by
  have hs := h.sound
  have hc := h.coherent
  set b := env.malloc c.live with hb
  have hbl : b ∉ l := fun hm => hmalloc c.live (hs.live b hm)
  have hbm : b ∉ m := fun hm => hbl ((h.mem b).mp hm)
  obtain ⟨t', l', ht', hr', hperm, hkey, hmask⟩ := treeInsert_number hs.tree hbl hs.mask hk (hs.enough hn)
  have hmem : ∀ x, x ∈ l' ↔ x = b ∨ x ∈ l := fun x => hperm.mem_iff.trans List.mem_cons
  have hnumber : ∀ x, x ∈ l → t'.sortKey x = c.number x := fun x hx => by
    rw [hkey, Function.update_of_ne (ne_of_mem_of_not_mem hx hbl)]
    rfl
  have hnew : t'.sortKey b = k := by rw [hkey, Function.update_self]
  rw [makeRoom, if_pos (by rw [hs.used, hs.count]; exact hroom)]
  simp only [newBlock, ← hb, ht']
  refine ⟨_, b, l', rfl, ?_, hbl, by simpa using hmalloc c.live⟩
  refine ⟨⟨hr', hmask, ?_, hs.count, ?_, ?_, ?_, ?_⟩, ⟨hc.buffer, ?_, ?_, ?_, ?_⟩, ?_, ?_, ?_, ?_, ?_, ?_, ?_⟩
  · show c.blocksUsed + 1 = _
    rw [hperm.length_eq, hs.used, List.length_cons]
  · rw [hperm.length_eq]
    exact hroom
  · intro x hx
    exact ((hmem x).mp hx).elim (fun e => e ▸ List.mem_cons_self) fun hx => List.mem_cons_of_mem _ (hs.live x hx)
  · exact fun x hx => (hmem x).mpr (.inr (hs.hints x hx))
  · intro x hx
    show (t'.sortKey x).toNat < size
    rcases (hmem x).mp hx with rfl | hx
    · rwa [hnew]
    · rw [hnumber x hx]
      exact hs.small x hx
  · intro x hx v hv
    change (Function.update s.content k none) (t'.sortKey x) = some v at hv
    rcases (hmem x).mp hx with rfl | hx
    · rw [hnew, Function.update_self] at hv
      cases hv
    · rw [hnumber x hx, Function.update_of_ne (hk x hx)] at hv
      exact hc.cached x hx v hv
  · intro j hj v hv
    have hjk : j ≠ k := fun e => hj b ((hmem b).mpr (.inl rfl)) (hnew.trans e.symm)
    change (Function.update s.content k none) j = some v at hv
    rw [Function.update_of_ne hjk] at hv
    exact hc.uncached j (fun x hx => hnumber x hx ▸ hj x ((hmem x).mpr (.inr hx))) v hv
  · intro x hx hd hu
    change (Function.update s.unmarked k true) (t'.sortKey x) = false at hu
    show content c.prvData (t'.sortKey x) = _
    rcases (hmem x).mp hx with rfl | hx
    · rw [hnew, Function.update_self] at hu
      cases hu
    · change (Function.update c.dirty b false) x = false at hd
      rw [hnumber x hx, Function.update_of_ne (hk x hx)] at hu
      rw [Function.update_of_ne (ne_of_mem_of_not_mem hx hbl)] at hd
      rw [hnumber x hx]
      exact hc.clean x hx hd hu
  · intro x hx
    show (Function.update c.refCount b 0 x).toNat = s.held.count (t'.sortKey x)
    rcases (hmem x).mp hx with rfl | hx
    · rw [hnew, Function.update_self, List.count_eq_zero.mpr hheld]
      rfl
    · rw [Function.update_of_ne (ne_of_mem_of_not_mem hx hbl), hnumber x hx]
      exact hc.refs x hx
  · exact h.lru.congr (fun x hx => Function.update_of_ne (ne_of_mem_of_not_mem hx hbm) ..)
      fun x hx => Function.update_of_ne (ne_of_mem_of_not_mem hx hbm) ..
  · exact .inr ⟨Function.update_self .., Function.update_self ..⟩
  · exact (hmem b).mpr (.inl rfl)
  · exact fun x hx => (hmem x).trans (or_iff_right hx)
  · exact funext fun x => congrFun hkey x
  · exact Function.update_self ..
  · exact hc.uncached k hk

/-- There are 256 blocks, and `b` is the first that nobody holds: it gets the number. -/
theorem makeRoom_replace (hr : Reliable env content size) (h : c.Shows content size l m s) (hn : 256 < n)
    (hk : ∀ a ∈ l, c.number a ≠ k) (hheld : k ∉ s.held) (hsize : k.toNat < size) (hroom : ¬ l.length < 256)
    (hf : m.find? (fun b => c.refCount b == 0) = some b) (hu : s.unmarked (c.number b) = false) :
    ∃ c' l', c.makeRoom env n k = some (c', some (b, true)) ∧ Room c content size l m s k c' b l' := by
  have hs := h.sound
  have hlen : m.length < n := by
    rw [((List.perm_ext_iff_of_nodup h.nodup hs.nodup).mpr h.mem).length_eq]
    exact hs.room.trans_lt hn
  have hbm := List.mem_of_find?_eq_some hf
  have hbl := (h.mem b).mp hbm
  obtain ⟨r, d, dirty, hfind, hc, hdirty⟩ := findReplaceable_spec hr hs h.coherent hn h.lru.forth hlen
  obtain ⟨t₁, ht₁, hr₁, ho₁⟩ := treeRemove_spec hs.tree hbl (hs.enough hn)
  have hb₁ : b ∉ l.erase b := hs.nodup.not_mem_erase
  have hk₁ : ∀ a ∈ l.erase b, t₁.sortKey a ≠ k := fun a ha => by
    rw [ho₁.sortKey]
    exact hk a (List.mem_of_mem_erase ha)
  have henough : Enough n (l.erase b) := lt_of_le_of_lt
    (Nat.pow_le_pow_left (Nat.succ_le_succ List.length_erase_le) 4) (hs.enough hn)
  obtain ⟨t', l', ht', hr', hperm, hkey, hmask⟩ :=
    treeInsert_number hr₁ hb₁ (ho₁.keyMask.trans hs.mask) hk₁ henough
  have hperm : l'.Perm l := hperm.trans (List.perm_cons_erase hbl).symm
  have hnumber : t'.sortKey = Function.update c.number b k := by rw [hkey, ho₁.sortKey]; rfl
  have hold : ∀ x, x ≠ b → t'.sortKey x = c.number x := fun x hx => by rw [hnumber, Function.update_of_ne hx]
  have hnew : t'.sortKey b = k := by rw [hnumber, Function.update_self]
  have hrefs : c.refCount b = 0 := by simpa using List.find?_some hf
  rw [makeRoom, if_neg (by rw [hs.used, hs.count]; exact hroom), hfind, hf]
  refine ⟨{ c with readBuffer := r, prvData := d, dirty := dirty, tree := t' }, l', ?_, ?_⟩
  · show (c.tree.treeRemove n b).bind _ = _
    rw [ht₁]
    show (Tree.treeInsert n { t₁ with sortKey := Function.update t₁.sortKey b k } b).bind _ = _
    rw [ht']
    rfl
  refine ⟨⟨hr', hmask, ?_, hs.count, ?_, ?_, ?_, ?_⟩, ⟨hc.buffer, ?_, ?_, ?_, ?_⟩, h.lru, .inl hbm,
    hperm.mem_iff.mpr hbl, fun x _ => hperm.mem_iff, hnumber, hdirty b hbl hf, hc.uncached k hk⟩
  · exact hs.used.trans hperm.length_eq.symm
  · exact hperm.length_eq.trans_le hs.room
  · exact fun x hx => hs.live x (hperm.mem_iff.mp hx)
  · exact fun x hx => hperm.mem_iff.mpr (hs.hints x hx)
  · intro x hx
    show (t'.sortKey x).toNat < size
    by_cases hxb : x = b
    · rwa [hxb, hnew]
    · rw [hold x hxb]
      exact hs.small x (hperm.mem_iff.mp hx)
  · intro x hx v hv
    change (Function.update s.content k none) (t'.sortKey x) = some v at hv
    by_cases hxb : x = b
    · rw [hxb, hnew, Function.update_self] at hv
      cases hv
    · have hx := hperm.mem_iff.mp hx
      rw [hold x hxb, Function.update_of_ne (hk x hx)] at hv
      exact hc.cached x hx v hv
  · intro j hj v hv
    have hjk : j ≠ k := fun e => hj b (hperm.mem_iff.mpr hbl) (hnew.trans e.symm)
    change (Function.update s.content k none) j = some v at hv
    rw [Function.update_of_ne hjk] at hv
    by_cases hjb : j = c.number b
    · -- the block that was replaced had been written back
      have hclean := hc.clean b hbl (hdirty b hbl hf) hu
      rw [hjb] at hv ⊢
      exact hclean.trans (hc.cached b hbl v hv)
    · refine hc.uncached j (fun x hx e => ?_) v hv
      by_cases hxb : x = b
      · exact hjb (hxb ▸ e.symm)
      · exact hj x (hperm.mem_iff.mpr hx) ((hold x hxb).trans e)
  · intro x hx hd hu
    change (Function.update s.unmarked k true) (t'.sortKey x) = false at hu
    show content d (t'.sortKey x) = _
    by_cases hxb : x = b
    · rw [hxb, hnew, Function.update_self] at hu
      cases hu
    · have hx := hperm.mem_iff.mp hx
      rw [hold x hxb, Function.update_of_ne (hk x hx)] at hu
      rw [hold x hxb]
      exact hc.clean x hx hd hu
  · intro x hx
    show (c.refCount x).toNat = s.held.count (t'.sortKey x)
    by_cases hxb : x = b
    · rw [hxb, hnew, hrefs, List.count_eq_zero.mpr hheld]
      rfl
    · rw [hold x hxb]
      exact hc.refs x (hperm.mem_iff.mp hx)

/-! ### Loading -/

omit [DecidableEq ι] in
/-- After a read the buffer holds what is on the device. -/
theorem bufferFresh_read (hr : Reliable env content size) (c : Cache ι δ α) (k : BitVec 64) :
    BufferFresh { c with
      prvData := (env.readBlock c.prvData k READBUF_SZ c.readBuffer).1
      readBufferBlock := k
      readBufferCnt := (env.readBlock c.prvData k READBUF_SZ c.readBuffer).2.1
      readBuffer := (env.readBlock c.prvData k READBUF_SZ c.readBuffer).2.2 } content := by
  intro j hj
  obtain ⟨-, hle, hlt⟩ := inReadBuffer_iff.mp hj
  have hcnt := hr.reads c.prvData k c.readBuffer
  have hi : (j - k).toNat < (env.readBlock c.prvData k READBUF_SZ c.readBuffer).2.1 := by
    have hsz : READBUF_SZ = 128 := rfl
    simp only at hle hlt
    generalize (env.readBlock c.prvData k READBUF_SZ c.readBuffer).2.1 = cnt at hcnt hlt ⊢
    rw [hsz] at hcnt
    bv_omega
  show (env.readBlock c.prvData k READBUF_SZ c.readBuffer).2.2[(j - k).toNat]? = _
  rw [Vector.getElem?_eq_getElem (hi.trans_le hcnt), hr.copies _ _ _ _ _ hi, hr.keeps]
  congr 2
  bv_omega

/-- The block gets the contents that the device has. -/
theorem loadBlock_spec (hr : Reliable env content size) (hs : c.Sound size l) (hc : c.Coherent content l (s.forget k))
    (hb : b ∈ l) (hk : c.number b = k) (hd : c.dirty b = false)
    (hdev : ∀ v, s.content k = some v → content c.prvData k = v) :
    ∃ r rb cnt d data, c.loadBlock env b = some ({ c with
          readBuffer := r, readBufferBlock := rb, readBufferCnt := cnt, prvData := d, data := data }, true) ∧
      Coherent { c with
          readBuffer := r, readBufferBlock := rb, readBufferCnt := cnt, prvData := d, data := data } content l s := by
  -- the block gets what the device holds, and the device stays as it is
  have key : ∀ r rb cnt d, BufferFresh { c with
        readBuffer := r, readBufferBlock := rb, readBufferCnt := cnt, prvData := d } content →
      content d = content c.prvData → Coherent { c with
          readBuffer := r, readBufferBlock := rb, readBufferCnt := cnt, prvData := d
          data := Function.update c.data b (content d k) } content l s := by
    intro r rb cnt d hf hd'
    refine ⟨hf, fun x hx v hv => ?_, fun j hj v hv => ?_, fun x hx hdx hux => ?_, hc.refs⟩
    · show Function.update c.data b (content d k) x = v
      by_cases hxb : x = b
      · subst hxb
        rw [Function.update_self, hd']
        exact hdev v (hk ▸ hv)
      · rw [Function.update_of_ne hxb]
        refine hc.cached x hx v ?_
        show Function.update s.content k none (c.number x) = some v
        rw [Function.update_of_ne fun e => hxb (hs.number_inj hx hb (e.trans hk.symm))]
        exact hv
    · have hjk : j ≠ k := fun e => hj b hb (hk.trans e.symm)
      show content d j = v
      rw [hd']
      refine hc.uncached j hj v ?_
      show Function.update s.content k none j = some v
      rw [Function.update_of_ne hjk]
      exact hv
    · show content d (c.number x) = Function.update c.data b (content d k) x
      by_cases hxb : x = b
      · rw [hxb, Function.update_self, hk]
      · rw [Function.update_of_ne hxb, hd']
        refine hc.clean x hx hdx ?_
        show Function.update s.unmarked k true (c.number x) = false
        rw [Function.update_of_ne fun e => hxb (hs.number_inj hx hb (e.trans hk.symm))]
        exact hux
  rw [loadBlock, hk]
  by_cases hin : c.inReadBuffer k
  · rw [if_pos hin, copyFromBuffer, hk, hc.buffer k hin]
    exact ⟨_, _, _, _, _, rfl, key _ _ _ _ hc.buffer rfl⟩
  · have hfresh := bufferFresh_read hr c k
    have hcnt := hr.first c.prvData k c.readBuffer (hk ▸ hs.small b hb)
    have hlen := hcnt.trans_le (hr.reads c.prvData k c.readBuffer)
    have hcopy := hr.copies c.prvData k c.readBuffer 0 hlen hcnt
    rw [if_neg hin]
    refine ⟨_, _, _, _, _, ?_, key _ k _ _ hfresh (hr.keeps ..)⟩
    simp only [if_neg hcnt.ne']
    rw [copyFromBuffer]
    have hzero : (k - k).toNat = 0 := by simp
    simp only [number] at hk ⊢
    rw [hk, hzero, Vector.getElem?_eq_getElem hlen, hcopy, hr.keeps]
    simp

/-! ### Giving out -/

theorem touchLru_eq (hp : c.lruNext b ≠ some b) : c.touchLru b =
    { c with
      lruNext := Function.update (Doubly.skip c.lruNext c.lruPrev b) b c.lruLast
      lruPrev := Doubly.link (Function.update (Doubly.skip c.lruPrev c.lruNext b) b none) c.lruLast b
      lruFirst := if c.lruLast = none then some b else if c.lruFirst = some b then c.lruPrev b else c.lruFirst
      lruLast := some b } := by
  have hu : c.unlinkLru b = { c with
      lruNext := Doubly.skip c.lruNext c.lruPrev b
      lruPrev := Doubly.skip c.lruPrev c.lruNext b } := by
    cases hp' : c.lruNext b with
    | none => cases hq' : c.lruPrev b <;> simp [unlinkLru, Doubly.skip, hp', hq']
    | some p =>
        have hbp : b ≠ p := fun e => hp (by rw [hp', e])
        cases hq' : c.lruPrev b <;> simp [unlinkLru, Doubly.skip, hp', hq', Function.update_of_ne hbp]
  have hprev : Doubly.skip c.lruPrev c.lruNext b b = c.lruPrev b := by
    cases hp' : c.lruNext b with
    | none => simp [Doubly.skip, hp']
    | some p =>
        have hbp : b ≠ p := fun e => hp (by rw [hp', e])
        simp [Doubly.skip, hp', Function.update_of_ne hbp]
  rw [touchLru, hu]
  cases hl : c.lruLast with
  | none => rfl
  | some z =>
      simp only [hprev]
      rfl

/-- The list after a block has been given out. -/
theorem giveOut_eq (hlru : Doubly c.lruPrev c.lruNext c.lruFirst c.lruLast m) (hnd : m.Nodup)
    (hlinks : b ∈ m ∨ c.lruPrev b = none ∧ c.lruNext b = none) :
    ∃ i hints next prev first, c.giveOut b = { c with
        prevHint := i, hints := hints, refCount := Function.update c.refCount b (c.refCount b + 1)
        lruNext := next, lruPrev := prev, lruFirst := first, lruLast := some b } ∧
      (∀ x, x ∈ hints.toList → x ∈ c.hints.toList ∨ x = some b) ∧
      Doubly prev next first (some b) (m.filter (· ≠ b) ++ [b]) := by
  have hi : (c.prevHint + 1) % HINTCNT < HINTCNT := Nat.mod_lt _ (by decide)
  have hhints : ∀ x, x ∈ (c.hints.set _ (some b) hi).toList → x ∈ c.hints.toList ∨ x = some b :=
    fun x hx => List.mem_or_eq_of_mem_set (by rwa [Vector.toList_set] at hx)
  let c₁ : Cache ι δ α := { c with
    prevHint := (c.prevHint + 1) % HINTCNT
    hints := c.hints.set _ (some b) hi
    refCount := Function.update c.refCount b (c.refCount b + 1) }
  have he : c.giveOut b = if c.lruLast = some b then c₁ else c₁.touchLru b := rfl
  by_cases hlast : c.lruLast = some b
  · have hm := hlru
    rw [hlast] at hm
    refine ⟨(c.prevHint + 1) % HINTCNT, _, c.lruNext, c.lruPrev, c.lruFirst, ?_, hhints, ?_⟩
    · rw [he, if_pos hlast]
      show c₁ = { c₁ with lruLast := some b }
      rw [← show c₁.lruLast = some b from hlast]
    · rw [hm.moveLast_last hnd]
      exact hm
  · have hp : c.lruNext b ≠ some b := by
      rcases hlinks with hb | ⟨-, hb⟩
      · exact hlru.bwd_ne hb
      · simp [hb]
    refine ⟨(c.prevHint + 1) % HINTCNT, _, _, _, _, ?_, hhints, hlru.moveLast hnd hlinks hlast⟩
    rw [he, if_neg hlast]
    exact touchLru_eq (c := c₁) hp

/-- **Giving out** a block of the cache: it is held once more and the last of the list. -/
theorem giveOut_spec (hs : c.Sound size l) (hc : c.Coherent content l s)
    (hlru : Doubly c.lruPrev c.lruNext c.lruFirst c.lruLast m) (hnd : m.Nodup)
    (hlinks : b ∈ m ∨ c.lruPrev b = none ∧ c.lruNext b = none) (hb : b ∈ l) (hm : ∀ x, x ≠ b → (x ∈ m ↔ x ∈ l))
    {r : List (BitVec 64)} (hrecent : (m.filter (· ≠ b)).map c.number = r.filter (· ≠ c.number b))
    (hcount : s.held.count (c.number b) < 65535) :
    (c.giveOut b).Shows content size l (m.filter (· ≠ b) ++ [b]) (s.hold (c.number b) r) ∧
      (c.giveOut b).number = c.number ∧ (c.giveOut b).prvData = c.prvData := by
  obtain ⟨i, hints, next, prev, first, he, hhints, hd⟩ := giveOut_eq hlru hnd hlinks
  rw [he]
  refine ⟨⟨⟨hs.tree, hs.mask, hs.used, hs.count, hs.room, hs.live, fun x hx => ?_, hs.small⟩,
    ⟨hc.buffer, hc.cached, hc.uncached, hc.clean, fun x hx => ?_⟩, hd, ?_, fun x => ?_, ?_⟩, rfl, rfl⟩
  · rcases hhints _ hx with hx | hx
    · exact hs.hints x hx
    · exact Option.some.inj hx ▸ hb
  · have hx' := hc.refs x hx
    show (Function.update c.refCount b (c.refCount b + 1) x).toNat = (c.number b :: s.held).count (c.number x)
    by_cases hxb : x = b
    · rw [hxb] at hx' ⊢
      rw [Function.update_self, List.count_cons_self, ← hx']
      rw [← hx'] at hcount
      bv_omega
    · rw [Function.update_of_ne hxb, hx', List.count_cons_of_ne fun e => hxb (hs.number_inj hx hb e.symm)]
  · exact List.nodup_append.mpr ⟨hnd.filter _, by simp, by simp⟩
  · by_cases hxb : x = b
    · simp [hxb, hb]
    · simp [hxb, hm x hxb]
  · show (m.filter (· ≠ b) ++ [b]).map c.number = r.filter (· ≠ c.number b) ++ [c.number b]
    rw [List.map_append, hrecent]
    rfl

/-! ### All together -/

namespace Shows

variable (h : c.Shows content size l m s)
include h

omit [DecidableEq ι] in
theorem mem_recent : k ∈ s.recent ↔ ∃ b ∈ l, c.number b = k := by
  rw [← h.recent, List.mem_map]
  simp only [h.mem]

omit [DecidableEq ι] in
theorem length_recent : s.recent.length = l.length := by
  rw [← h.recent, List.length_map, ((List.perm_ext_iff_of_nodup h.nodup h.sound.nodup).mpr h.mem).length_eq]

omit [DecidableEq ι] in
theorem nodup_recent : s.recent.Nodup := by
  rw [← h.recent]
  exact h.nodup.map_on fun x hx y hy => h.sound.number_inj ((h.mem x).mp hx) ((h.mem y).mp hy)

/-- Without a block the list has the numbers without its number. -/
theorem filter_recent (hb : b ∈ l) : (m.filter (· ≠ b)).map c.number = s.recent.filter (· ≠ c.number b) := by
  rw [← h.recent, List.filter_map]
  refine congrArg _ (List.filter_congr fun x hx => ?_)
  have hiff : c.number x = c.number b ↔ x = b :=
    ⟨h.sound.number_inj ((h.mem x).mp hx) hb, fun e => by rw [e]⟩
  simp [hiff]

omit [DecidableEq ι] in
/-- The first block that nobody refers to has the first number that nobody holds. -/
theorem find_recent : (m.find? fun b => c.refCount b == 0).map c.number = s.recent.find? (· ∉ s.held) := by
  rw [← h.recent, List.find?_map]
  refine congrArg _ ?_
  have hm : ∀ b ∈ m, b ∈ l := fun b => (h.mem b).mp
  have hrefs := h.coherent.refs
  clear h
  induction m with
  | nil => rfl
  | cons a m ih =>
      have ha : (c.refCount a == 0) = decide (c.number a ∉ s.held) := by
        rw [beq_eq_decide, decide_eq_decide, ← List.count_eq_zero, ← hrefs a (hm a List.mem_cons_self),
          ← BitVec.toNat_inj]
        rfl
      rw [List.find?_cons, List.find?_cons, ih fun b hb => hm b (List.mem_cons_of_mem _ hb), ha]
      rfl

end Shows

omit [DecidableEq ι] in
theorem Coherent.forget (hc : c.Coherent content l s) (k : BitVec 64) : c.Coherent content l (s.forget k) := by
  have hv : ∀ {j v}, (s.forget k).content j = some v → s.content j = some v := fun {j v} hv => by
    by_cases hj : j = k
    · rw [hj, Blocks.forget_content, Function.update_self] at hv
      cases hv
    · rwa [Blocks.forget_content, Function.update_of_ne hj] at hv
  refine ⟨hc.buffer, fun b hb v h => hc.cached b hb v (hv h), fun j hj v h => hc.uncached j hj v (hv h),
    fun b hb hd hu => hc.clean b hb hd ?_, hc.refs⟩
  by_cases hj : c.number b = k
  · rw [hj, Blocks.forget_unmarked, Function.update_self] at hu
    cases hu
  · rwa [Blocks.forget_unmarked, Function.update_of_ne hj] at hu

/-- What `cdi_cache_block_get` has done when it returns a block. -/
structure Got (c : Cache ι δ α) (content : δ → BitVec 64 → α) (size : ℕ) (l : List ι) (s : Blocks α) (k : BitVec 64)
    (noread : Bool) (c' : Cache ι δ α) (b : ι) (l' m' : List ι) : Prop where
  shows : c'.Shows content size l' m' (s.get k noread)
  mem : b ∈ l'
  number : c'.number b = k
  others : ∀ x ∈ l, c.number x ∈ s.held → x ∈ l' ∧ c'.number x = c.number x
  device : k ∈ s.recent → c'.prvData = c.prvData

/-- A block that is in the cache. -/
theorem get_hit (h : c.Shows content size l m s) (hb : b ∈ l) (noread : Bool)
    (hcount : s.held.count (c.number b) < 65535) :
    ∃ m', Got c content size l s (c.number b) noread (c.giveOut b) b l m' := by
  have hrecent : c.number b ∈ s.recent := h.mem_recent.mpr ⟨b, hb, rfl⟩
  have hget : s.get (c.number b) noread =
      (if noread ∧ c.number b ∉ s.held then s.forget (c.number b) else s).hold (c.number b) s.recent := by
    rw [Blocks.get, Blocks.room, if_pos (.inl hrecent)]
  have hc : c.Coherent content l (if noread ∧ c.number b ∉ s.held then s.forget (c.number b) else s) := by
    split
    · exact h.coherent.forget _
    · exact h.coherent
  have hheld : (if noread ∧ c.number b ∉ s.held then s.forget (c.number b) else s).held = s.held := by
    split <;> rfl
  obtain ⟨hshows, hnumber, hdev⟩ := giveOut_spec h.sound hc h.lru h.nodup (.inl ((h.mem b).mpr hb)) hb
    (fun x _ => h.mem x) (h.filter_recent hb) (by rw [hheld]; exact hcount)
  exact ⟨_, ⟨hget ▸ hshows, hb, congrFun hnumber b, fun x hx _ => ⟨hx, congrFun hnumber x⟩, fun _ => hdev⟩⟩

/-- A block for which room has been made, `r` being the blocks that stay. -/
theorem get_room (hr : Reliable env content size) (h : c.Shows content size l m s) {c' : Cache ι δ α} {l' : List ι}
    (hroom : Room c content size l m s k c' b l') (hk : k ∉ s.recent) (hheld : ∀ j ∈ s.held, j ∈ s.recent)
    {r : List (BitVec 64)} (hr' : s.room k = some r)
    (hrecent : (m.filter (· ≠ b)).map c.number = r.filter (· ≠ k)) (hb : b ∉ l ∨ c.number b ∉ s.held)
    (noread inTree : Bool) :
    ∃ c'' m', c'.fillBlock env n b inTree noread = some (c'', some b) ∧
      Got c content size l s k noread c'' b l' m' := by
  have hk' : k ∉ s.held := fun hm => hk (hheld k hm)
  have hnum : c'.number b = k := by rw [hroom.number, Function.update_self]
  have hsame : ∀ x, x ≠ b → c'.number x = c.number x := fun x hx => by rw [hroom.number, Function.update_of_ne hx]
  have hmem : ∀ x, x ≠ b → (x ∈ m ↔ x ∈ l') := fun x hx => (h.mem x).trans (hroom.others x hx).symm
  have hrecent : (m.filter (· ≠ b)).map c'.number = r.filter (· ≠ c'.number b) := by
    rw [hnum, ← hrecent]
    exact List.map_congr_left fun x hx => hsame x (by simpa using (List.mem_filter.mp hx).2)
  have hcount : s.held.count k < 65535 := by rw [List.count_eq_zero.mpr hk']; decide
  have hothers : ∀ x ∈ l, c.number x ∈ s.held → x ∈ l' ∧ c'.number x = c.number x := fun x hx hxh => by
    have hxb : x ≠ b := by
      rintro rfl
      exact hb.elim (fun hb => hb hx) fun hb => hb hxh
    exact ⟨(hroom.others x hxb).mpr hx, hsame x hxb⟩
  have hget : s.get k noread = (if noread then s.forget k else s).hold k r := by
    rw [Blocks.get, hr']
    simp [hk']
  cases noread with
  | true =>
      obtain ⟨hshows, hnumber, -⟩ := giveOut_spec hroom.sound hroom.coherent hroom.lru h.nodup hroom.links hroom.mem
        hmem hrecent (hnum ▸ hcount)
      rw [hnum] at hshows
      exact ⟨_, _, rfl, hget ▸ hshows, hroom.mem, (congrFun hnumber b).trans hnum,
        fun x hx hxh => ⟨(hothers x hx hxh).1, (congrFun hnumber x).trans (hothers x hx hxh).2⟩, fun hm => absurd hm hk⟩
  | false =>
      obtain ⟨buf, rb, cnt, d, data, hload, hc⟩ := loadBlock_spec hr hroom.sound hroom.coherent hroom.mem hnum hroom.clean
        hroom.device
      have hs := hroom.sound
      obtain ⟨hshows, hnumber, -⟩ := giveOut_spec (c := { c' with
          readBuffer := buf, readBufferBlock := rb, readBufferCnt := cnt, prvData := d, data := data })
        ⟨hs.tree, hs.mask, hs.used, hs.count, hs.room, hs.live, hs.hints, hs.small⟩ hc hroom.lru h.nodup hroom.links
        hroom.mem hmem hrecent (show s.held.count (c'.number b) < 65535 from hnum ▸ hcount)
      change Shows _ content size l' _ (s.hold (c'.number b) r) at hshows
      rw [hnum] at hshows
      refine ⟨_, _, ?_, hget ▸ hshows, hroom.mem, (congrFun hnumber b).trans hnum,
        fun x hx hxh => ⟨(hothers x hx hxh).1, (congrFun hnumber x).trans (hothers x hx hxh).2⟩, fun hm => absurd hm hk⟩
      rw [fillBlock, hload]
      rfl

/-- **Getting a block**: there is one if the users of the cache leave room for it. -/
theorem cdiCacheBlockGet_spec (hr : Reliable env content size) (h : c.Shows content size l m s) (hn : 256 < n)
    (hsize : k.toNat < size) (hcount : s.held.count k < 65535) (hheld : ∀ j ∈ s.held, j ∈ s.recent)
    (hu : ∀ j, s.unmarked j → j ∈ s.held) (noread : Bool) :
    s.room k = none ∧ c.cdiCacheBlockGet env n k noread = some (c, none) ∨
    ∃ b c' l' m', (s.room k).isSome ∧ c.cdiCacheBlockGet env n k noread = some (c', some b) ∧
      Got c content size l s k noread c' b l' m' := by
  rw [cdiCacheBlockGet, lookup_spec h.sound hn]
  cases hf : l.find? fun b => c.number b == k with
  | some b =>
      have hb := List.mem_of_find?_eq_some hf
      obtain rfl : c.number b = k := by simpa using List.find?_some hf
      obtain ⟨m', hgot⟩ := get_hit h hb noread hcount
      refine .inr ⟨b, _, l, m', ?_, rfl, hgot⟩
      rw [Blocks.room, if_pos (.inl (h.mem_recent.mpr ⟨b, hb, rfl⟩))]
      rfl
  | none =>
      have hk : ∀ a ∈ l, c.number a ≠ k := fun a ha => by simpa using List.find?_eq_none.mp hf a ha
      have hkr : k ∉ s.recent := fun hm => by
        obtain ⟨b, hb, e⟩ := h.mem_recent.mp hm
        exact hk b hb e
      have hkh : k ∉ s.held := fun hm => hkr (hheld k hm)
      by_cases hlen : l.length < 256
      · have hroom : s.room k = some s.recent := by
          rw [Blocks.room, if_pos (.inr (h.length_recent ▸ hlen))]
        obtain ⟨c', b, l', hmake, hr', hb, -⟩ := makeRoom_new hr.malloc h hn hk hkh hsize hlen
        have hbm : b ∉ m := fun hm => hb ((h.mem b).mp hm)
        have hrecent : (m.filter (· ≠ b)).map c.number = s.recent.filter (· ≠ k) := by
          rw [List.filter_eq_self.mpr fun x hx => by simpa using ne_of_mem_of_not_mem hx hbm, h.recent,
            List.filter_eq_self.mpr fun x hx => by simpa using ne_of_mem_of_not_mem hx hkr]
        obtain ⟨c'', m', hdone, hgot⟩ := get_room (n := n) hr h hr' hkr hheld hroom hrecent (.inl hb) noread false
        refine .inr ⟨b, c'', l', m', by rw [hroom]; rfl, ?_, hgot⟩
        show (c.makeRoom env n k).bind _ = _
        rw [hmake]
        exact hdone
      · have hroom : s.room k = (s.recent.find? (· ∉ s.held)).map fun v => s.recent.filter (· ≠ v) := by
          rw [Blocks.room, if_neg]
          rw [h.length_recent]
          exact fun hor => hor.elim hkr hlen
        have hfind := h.find_recent
        have hlast : m.length < n := by
          rw [((List.perm_ext_iff_of_nodup h.nodup h.sound.nodup).mpr h.mem).length_eq]
          exact h.sound.room.trans_lt hn
        cases hb : m.find? fun b => c.refCount b == 0 with
        | none =>
            rw [hb, Option.map_none] at hfind
            refine .inl ⟨by rw [hroom, ← hfind]; rfl, ?_⟩
            show (c.makeRoom env n k).bind _ = _
            rw [makeRoom, if_neg (by rw [h.sound.used, h.sound.count]; exact hlen), findReplaceable,
              firstUnused_spec h.lru.forth hlast, hb]
            rfl
        | some b =>
            rw [hb, Option.map_some] at hfind
            rw [← hfind, Option.map_some] at hroom
            have hbh : c.number b ∉ s.held := by simpa using List.find?_some hfind.symm
            have hbu : s.unmarked (c.number b) = false := by
              by_contra hne
              exact hbh (hu _ (by simpa using hne))
            have hbl := (h.mem b).mp (List.mem_of_find?_eq_some hb)
            obtain ⟨c', l', hmake, hr'⟩ := makeRoom_replace hr h hn hk hkh hsize hlen hb hbu
            have hrecent : (m.filter (· ≠ b)).map c.number = (s.recent.filter (· ≠ c.number b)).filter (· ≠ k) := by
              rw [h.filter_recent hbl]
              exact (List.filter_eq_self.mpr fun x hx => by
                simpa using ne_of_mem_of_not_mem (List.mem_filter.mp hx).1 hkr).symm
            obtain ⟨c'', m', hdone, hgot⟩ := get_room (n := n) hr h hr' hkr hheld hroom hrecent (.inr hbh) noread true
            refine .inr ⟨b, c'', l', m', by rw [hroom]; rfl, ?_, hgot⟩
            show (c.makeRoom env n k).bind _ = _
            rw [hmake]
            exact hdone

end Cache

end Muxomucota.Cdi
