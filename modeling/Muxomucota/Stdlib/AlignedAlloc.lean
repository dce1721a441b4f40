import Muxomucota.Stdlib.Client
import Mathlib.Data.Finset.Basic

/-!
# Stdlib — aligned blocks

`aligned_alloc` cuts a block out of a free one, or out of new memory, and gives back what is before and
behind it.  It does not take a free block off the list that lies right as it is, and what is before the
block may be too small for a header; without these two, all calls keep the blocks apart.
-/

namespace Muxomucota.Stdlib
open Lib

variable {σ : Type} {sbrk : Sbrk σ} {brk : σ → Nat} {base p sz t align : Nat} {s s' : Heap σ}
  {live : Finset Nat} {bs : List Block}

/-- The blocks at `t` and `u` do not overlap, headers included. -/
def Apart (s : Heap σ) (t u : Nat) : Prop := t + 16 + s.size t ≤ u ∨ u + 16 + s.size u ≤ t

/-- The blocks of the caller and the free ones are apart, and the free list is in order. -/
structure Separate (c : Client σ) : Prop where
  live : ∀ p ∈ c.live, ∀ q ∈ c.live, p ≠ q → Apart c.heap (p - 16) (q - 16)
  free : ∀ p ∈ c.live, ∀ t ∈ c.heap.firstFree, Apart c.heap (p - 16) t
  sorted : c.heap.firstFree.Pairwise (· < ·)
  taken : ∀ p ∈ c.live, p - 16 ∉ c.heap.firstFree

/-- A call of `aligned_alloc` does not go wrong: a free block that it uses does not lie right already,
and with an alignment of 16 it does not use blocks that are not at multiples of 16. -/
def CarvesOk (brk : σ → Nat) (c : Client σ) : HeapCall → Prop
  | .alignedAlloc align size =>
      match alignedFit c.heap.size (max align 16) (roundSize size) c.heap.firstFree with
      | some t => 16 < align ∧ ¬ align ∣ t + 16
      | none => 16 < align ∨ 16 ∣ brk c.heap.system
  | _ => True

theorem Layout.separate {c : Client σ} (h : Layout brk base c.heap c.live bs) : Separate c := by
  have hapart : ∀ {a b : Block}, a ∈ bs → b ∈ bs → a ≠ b → Apart c.heap a.addr b.addr := by
    intro a b ha hb hne
    have := (h.tiles.apart ha hb).resolve_left hne
    unfold Apart
    rw [h.sizes a ha, h.sizes b hb]
    exact this
  have hfree : ∀ p ∈ c.live, ∀ t ∈ c.heap.firstFree, Apart c.heap (p - 16) t := by
    intro p hp t ht
    obtain ⟨a, ha, rfl⟩ := (h.live p).mp hp
    rw [h.firstFree] at ht
    obtain ⟨b, hb, hf, rfl⟩ := mem_frees.mp ht
    obtain ⟨hma, hu⟩ := mem_useds.mp ha
    rw [Nat.add_sub_cancel]
    refine hapart hma hb fun heq => ?_
    rw [heq, hf] at hu
    cases hu
  refine ⟨fun p hp q hq hne => ?_, hfree, ?_, fun p hp hmem => ?_⟩
  · obtain ⟨a, ha, rfl⟩ := (h.live p).mp hp
    obtain ⟨b, hb, rfl⟩ := (h.live q).mp hq
    rw [Nat.add_sub_cancel, Nat.add_sub_cancel]
    exact hapart (mem_useds.mp ha).1 (mem_useds.mp hb).1 fun heq => hne (heq ▸ rfl)
  · rw [h.firstFree]
    exact List.pairwise_map.mpr (h.tiles.sorted.sublist List.filter_sublist)
  · have := hfree p hp _ hmem
    unfold Apart at this
    omega

/-! ### `align_space` -/

theorem alignSpace_eq {k : Nat} (hk : align = 2 ^ k) (t : Nat) :
    alignSpace align t =
      if align - t % align ≠ 16 ∧ align - t % align < 48 then (align - t % align + align) % 2 ^ 32
      else align - t % align := by
  subst hk
  rw [alignSpace, Nat.and_two_pow_sub_one_eq_mod]

/-- A block lies right when there is just a header before its content. -/
theorem alignSpace_bounds {k : Nat} (hk : align = 2 ^ k) (h16 : 16 ≤ align)
    (hlt : align + 48 < 2 ^ 32) (t : Nat) :
    alignSpace align t < align + 48 ∧
      (align ∣ t + 16 ∧ alignSpace align t = 16 ∨
        ¬ align ∣ t + 16 ∧ 16 < alignSpace align t ∧ (16 < align → 32 ≤ alignSpace align t)) := by
  have hr : t % align < align := Nat.mod_lt _ (by omega)
  have h32 : 16 < align → 32 ≤ align := fun h => by
    rw [hk] at h ⊢
    have : 4 < k := (Nat.pow_lt_pow_iff_right (by decide : 1 < 2)).mp h
    exact Nat.pow_le_pow_right (by decide : 0 < 2) this
  have hdvd : align ∣ t + 16 ↔ t % align + 16 = align := by
    rw [Nat.dvd_iff_mod_eq_zero, ← Nat.mod_add_mod]
    by_cases hle : align ≤ t % align + 16
    · rw [Nat.mod_eq_sub_mod hle, Nat.mod_eq_of_lt (by omega)]
      omega
    · rw [Nat.mod_eq_of_lt (by omega)]
      omega
  rw [alignSpace_eq hk, hdvd]
  split <;> omega

theorem alignedFit_some {size : Nat → Nat} {fs : List Nat} (h : alignedFit size align sz fs = some t) :
    t ∈ fs ∧ (alignSpace align t + sz) % 2 ^ 32 ≤ size t :=
  ⟨List.mem_of_find?_eq_some h, by simpa using List.find?_some h⟩

/-! ### Carving -/

/-- What is left over is given back. -/
theorem Layout.freeRest {rest : Nat} (h : Layout brk base s (insert (rest + 16) live) bs)
    (hn : rest + 16 ∉ live) (hlt : rest + 16 < 2 ^ 32) :
    ∃ s' bs', s.freeRest (some rest) = some s' ∧ Layout brk base s' live bs' ∧
      ∀ x, s.size x ≤ s'.size x := by
  obtain ⟨s', bs', hf, -, h', -, hgrows⟩ := h.free (Finset.mem_insert_self _ _)
  rw [Finset.erase_insert hn] at h'
  refine ⟨s', bs', ?_, h', hgrows⟩
  rw [Heap.freeRest, Nat.mod_eq_of_lt hlt, hf]

@[simp] theorem setSize_self (s : Heap σ) (t n : Nat) : (s.setSize t n).size t = n :=
  Function.update_self ..

theorem setSize_of_ne (s : Heap σ) {t u : Nat} (n : Nat) (h : u ≠ t) : (s.setSize t n).size u = s.size u :=
  Function.update_of_ne h ..

/-- A free block that does not lie right is cut. -/
theorem Layout.carve (h : Layout brk base s live bs) (ht : t ∈ s.firstFree)
    (hspace : 32 ≤ alignSpace align t) (hfit : alignSpace align t + sz ≤ s.size t) :
    ∃ s₁ rest s' bs', s.carve align sz t = (s₁, t + alignSpace align t - 16, rest) ∧
      s₁.freeRest rest = some s' ∧ t + alignSpace align t < 2 ^ 32 ∧
      t + alignSpace align t ∉ live ∧
      Layout brk base s' (insert (t + alignSpace align t) live) bs' ∧ ∀ x, s₁.size x ≤ s'.size x := by
  obtain ⟨xs, ys, hfs⟩ := List.append_of_mem ht
  obtain ⟨pre, b, post, rfl, hf, rfl, rfl, rfl⟩ := frees_split (h.firstFree.symm.trans hfs)
  have hmem : b ∈ pre ++ b :: post := by simp
  have hsize := h.sizes b hmem
  have hbounds := h.tiles.mem hmem
  have htop := h.top
  have hbstop : b.stop = b.addr + 16 + b.size := rfl
  have hnot := fun p => h.notMem_inside (p := p) hmem hf
  unfold Heap.carve
  dsimp only
  generalize alignSpace align b.addr = space at hspace hfit ⊢
  rw [hsize] at hfit ⊢
  rw [if_neg (by omega), Nat.mod_eq_of_lt (by omega : b.addr + space - 16 < 2 ^ 32),
    (by omega : (space + 2 ^ 32 - 32) % 2 ^ 32 = space - 32)]
  have hblock : b.addr + space - 16 + 16 = b.addr + space := by omega
  by_cases hrest : b.size - space - sz < 16
  -- nothing is left behind the block
  · rw [if_pos hrest]
    have hmid : BlocksTile b.addr
        [⟨b.addr, space - 32, false⟩, ⟨b.addr + space - 16, b.size - space + 16, true⟩] b.stop := by
      simp only [Tiles, Block.stop, true_and]
      omega
    refine ⟨_, none, _, _, rfl, rfl, by omega, hnot _ (by omega) (by omega),
      h.splice hf hmid ?_ rfl ?_ ?_ ?_ fun p => ?_, fun _ => Nat.le_refl _⟩
    · exact List.isChain_cons.mpr ⟨fun y hy => .inr (by cases hy; rfl), .singleton _⟩
    · intro c hc
      rcases List.mem_cons.mp hc with rfl | hc
      · rw [setSize_of_ne _ _ (by omega : b.addr ≠ b.addr + space - 16), setSize_self]
      · rw [List.mem_singleton.mp hc, setSize_self]
    · intro x hx
      rw [setSize_of_ne _ _ (by omega), setSize_of_ne _ _ (by omega)]
    · change s.firstFree = _
      rw [hfs]
      simp [frees]
    · simp [useds, hblock, eq_comm, or_comm]
  -- the end of the block is given back
  · rw [if_neg hrest,
      (by omega : (b.addr + space - 16 + 16 + sz) % 2 ^ 32 = b.addr + space + sz)]
    generalize hs₁ : ((s.setSize b.addr (space - 32)).setSize (b.addr + space - 16) sz).setSize
      (b.addr + space + sz) (b.size - space - sz) = s₁
    have hmid : BlocksTile b.addr
        [⟨b.addr, space - 32, false⟩, ⟨b.addr + space - 16, sz, true⟩,
          ⟨b.addr + space + sz, b.size - space - sz, true⟩] b.stop := by
      simp only [Tiles, Block.stop, true_and]
      omega
    have hsizes : ∀ c ∈ ([⟨b.addr, space - 32, false⟩, ⟨b.addr + space - 16, sz, true⟩,
        ⟨b.addr + space + sz, b.size - space - sz, true⟩] : List Block), s₁.size c.addr = c.size := by
      intro c hc
      subst hs₁
      rcases List.mem_cons.mp hc with rfl | hc
      · rw [setSize_of_ne _ _ (by omega : b.addr ≠ b.addr + space + sz),
          setSize_of_ne _ _ (by omega : b.addr ≠ b.addr + space - 16), setSize_self]
      rcases List.mem_cons.mp hc with rfl | hc
      · rw [setSize_of_ne _ _ (by omega : b.addr + space - 16 ≠ b.addr + space + sz), setSize_self]
      · rw [List.mem_singleton.mp hc, setSize_self]
    have hlay : Layout brk base s₁ (insert (b.addr + space + sz + 16) (insert (b.addr + space) live))
        (pre ++ [⟨b.addr, space - 32, false⟩, ⟨b.addr + space - 16, sz, true⟩,
          ⟨b.addr + space + sz, b.size - space - sz, true⟩] ++ post) := by
      refine h.splice hf hmid ?_ (hs₁ ▸ rfl) hsizes (fun x hx => ?_) ?_ fun p => ?_
      · exact List.isChain_cons.mpr ⟨fun y hy => .inr (by cases hy; rfl),
          List.isChain_cons.mpr ⟨fun _ _ => .inl rfl, .singleton _⟩⟩
      · subst hs₁
        rw [setSize_of_ne _ _ (by omega), setSize_of_ne _ _ (by omega),
          setSize_of_ne _ _ (by omega)]
      · subst hs₁
        change s.firstFree = _
        rw [hfs]
        simp [frees]
      · simp [useds, hblock, eq_comm, or_comm, or_left_comm, or_assoc]
    have hne : b.addr + space + sz + 16 ∉ insert (b.addr + space) live := by
      rw [Finset.mem_insert]
      rintro (heq | hp)
      · omega
      · exact hnot _ (by omega) (by omega) hp
    obtain ⟨s', bs', hfree, hl, hgrows⟩ := hlay.freeRest hne (by omega)
    exact ⟨_, _, s', bs', rfl, hfree, by omega, hnot _ (by omega) (by omega), hl, hgrows⟩

/-- A block at the end of the memory that nobody has a pointer into. -/
theorem Layout.new_notMem (h : Layout brk base s live bs) (hp : brk s.system + 16 ≤ p) : p ∉ live := by
  intro hmem
  obtain ⟨c, hc, rfl⟩ := (h.live p).mp hmem
  have := h.tiles.mem (mem_useds.mp hc).1
  have hcstop : c.stop = c.addr + 16 + c.size := rfl
  omega

/-- New memory is cut. -/
theorem Layout.carveNew {x : σ} (h : Layout brk base s live bs)
    (hx : brk x = brk s.system + (sz + 48 + align)) (hxlt : brk x < 2 ^ 32)
    (hspace : alignSpace align (brk s.system) = 16 ∨ 32 ≤ alignSpace align (brk s.system))
    (hlt : alignSpace align (brk s.system) < align + 48) :
    ∃ s₁ front rest s' s'' bs', { s with system := x }.carveNew align sz (brk s.system) =
        (s₁, front, brk s.system + alignSpace align (brk s.system) - 16, rest) ∧
      s₁.freeRest front = some s' ∧ s'.freeRest rest = some s'' ∧
      brk s.system + alignSpace align (brk s.system) < 2 ^ 32 ∧
      brk s.system + alignSpace align (brk s.system) ∉ live ∧
      Layout brk base s'' (insert (brk s.system + alignSpace align (brk s.system)) live) bs' ∧
      ∀ a, s₁.size a ≤ s''.size a := by
  have hnot := fun p => h.new_notMem (p := p)
  unfold Heap.carveNew
  dsimp only
  generalize alignSpace align (brk s.system) = space at hspace hlt ⊢
  generalize ht : brk s.system = t at hx hnot ⊢
  rw [Nat.mod_eq_of_lt (by omega : sz + 48 + align < 2 ^ 32)]
  rcases hspace with rfl | hspace
  -- the new memory lies right, and is one block
  · rw [if_pos rfl, if_pos (by omega)]
    have hmid : BlocksTile (brk s.system) [⟨t, sz + 48 + align - 16, true⟩] (brk x) := by
      simp only [Tiles, Block.stop]
      omega
    refine ⟨_, none, none, _, _, _, rfl, rfl, rfl, by omega, hnot _ (by omega),
      h.extend rfl hmid hxlt ?_ ?_ ?_ rfl fun p => ?_, fun _ => Nat.le_refl _⟩
    · intro c hc
      rw [List.mem_singleton.mp hc]
    · intro c hc
      rw [List.mem_singleton.mp hc, setSize_self]
    · intro a ha
      rw [setSize_of_ne _ _ (by omega), setSize_of_ne _ _ (by omega)]
    · simp [eq_comm, or_comm]
  rw [if_neg (by omega), Nat.mod_eq_of_lt (by omega : t + space - 16 < 2 ^ 32),
    (by omega : (space + 2 ^ 32 - 32) % 2 ^ 32 = space - 32)]
  have hblock : t + space - 16 + 16 = t + space := by omega
  by_cases hrest : sz + 48 + align - space - sz < 32
  -- the part in front of the block is given back
  · rw [if_pos hrest]
    generalize hs₁ : ({ s with system := x }.setSize t (space - 32)).setSize (t + space - 16)
      (sz + 48 + align - space) = s₁
    have hmid : BlocksTile (brk s.system)
        [⟨t, space - 32, true⟩, ⟨t + space - 16, sz + 48 + align - space, true⟩] (brk x) := by
      simp only [Tiles, Block.stop]
      omega
    have hlay : Layout brk base s₁ (insert (t + 16) (insert (t + space) live))
        (bs ++ [⟨t, space - 32, true⟩, ⟨t + space - 16, sz + 48 + align - space, true⟩]) := by
      refine h.extend (hs₁ ▸ rfl) hmid hxlt ?_ ?_ (fun a ha => ?_) (hs₁ ▸ rfl) fun p => ?_
      · simp
      · subst hs₁
        intro c hc
        rcases List.mem_cons.mp hc with rfl | hc
        · rw [setSize_of_ne _ _ (by omega : t ≠ t + space - 16), setSize_self]
        · rw [List.mem_singleton.mp hc, setSize_self]
      · subst hs₁
        rw [setSize_of_ne _ _ (by omega), setSize_of_ne _ _ (by omega)]
      · simp [hblock, eq_comm, or_comm, or_left_comm, or_assoc]
    have hne : t + 16 ∉ insert (t + space) live := by
      rw [Finset.mem_insert]
      rintro (heq | hp)
      · omega
      · exact hnot _ (by omega) hp
    obtain ⟨s', bs', hfree, hl, hgrows⟩ := hlay.freeRest hne (by omega)
    exact ⟨s₁, some t, none, s', s', bs', rfl, hfree, rfl, by omega, hnot _ (by omega), hl, hgrows⟩
  -- and the part behind it
  · rw [if_neg hrest, (by omega : (t + space - 16 + sz + 16) % 2 ^ 32 = t + space + sz)]
    generalize hs₁ : (({ s with system := x }.setSize t (space - 32)).setSize (t + space - 16)
      sz).setSize (t + space + sz) (sz + 48 + align - space - sz - 16) = s₁
    have hmid : BlocksTile (brk s.system)
        [⟨t, space - 32, true⟩, ⟨t + space - 16, sz, true⟩,
          ⟨t + space + sz, sz + 48 + align - space - sz - 16, true⟩] (brk x) := by
      simp only [Tiles, Block.stop]
      omega
    have hlay : Layout brk base s₁
        (insert (t + 16) (insert (t + space + sz + 16) (insert (t + space) live)))
        (bs ++ [⟨t, space - 32, true⟩, ⟨t + space - 16, sz, true⟩,
          ⟨t + space + sz, sz + 48 + align - space - sz - 16, true⟩]) := by
      refine h.extend (hs₁ ▸ rfl) hmid hxlt ?_ ?_ (fun a ha => ?_) (hs₁ ▸ rfl) fun p => ?_
      · simp
      · subst hs₁
        intro c hc
        rcases List.mem_cons.mp hc with rfl | hc
        · rw [setSize_of_ne _ _ (by omega : t ≠ t + space + sz),
            setSize_of_ne _ _ (by omega : t ≠ t + space - 16), setSize_self]
        rcases List.mem_cons.mp hc with rfl | hc
        · rw [setSize_of_ne _ _ (by omega : t + space - 16 ≠ t + space + sz), setSize_self]
        · rw [List.mem_singleton.mp hc, setSize_self]
      · subst hs₁
        rw [setSize_of_ne _ _ (by omega), setSize_of_ne _ _ (by omega), setSize_of_ne _ _ (by omega)]
      · simp [hblock, eq_comm, or_comm, or_left_comm, or_assoc]
    have hne : t + 16 ∉ insert (t + space + sz + 16) (insert (t + space) live) := by
      rw [Finset.mem_insert, Finset.mem_insert]
      rintro (heq | heq | hp)
      · omega
      · omega
      · exact hnot _ (by omega) hp
    have hne' : t + space + sz + 16 ∉ insert (t + space) live := by
      rw [Finset.mem_insert]
      rintro (heq | hp)
      · omega
      · exact hnot _ (by omega) hp
    obtain ⟨s', bs', hfree, hl, hgrows⟩ := hlay.freeRest hne (by omega)
    obtain ⟨s'', bs'', hfree', hl', hgrows'⟩ := hl.freeRest hne' (by omega)
    exact ⟨s₁, some t, some _, s', s'', bs'', rfl, hfree, hfree', by omega, hnot _ (by omega), hl',
      fun a => (hgrows a).trans (hgrows' a)⟩

/-! ### All calls -/

/-- `aligned_alloc` gives the caller a block that it does not have, at a multiple of the alignment. -/
theorem Layout.alignedAlloc {size : Nat} {c : Client σ} (hb : Contiguous sbrk brk)
    (h : Layout brk base c.heap c.live bs) (hv : Valid c (.alignedAlloc align size))
    (hok : CarvesOk brk c (.alignedAlloc align size))
    (ha : c.heap.alignedAlloc sbrk align size = some (p, s')) :
    p ∉ c.live ∧ ∃ bs', Layout brk base s' (insert p c.live) bs' := by
  obtain ⟨⟨k, hk⟩, -, hsz⟩ := hv
  have hmax : (if align < 16 then 16 else align) = max align 16 := by split <;> omega
  obtain ⟨k', hk'⟩ : ∃ k', max align 16 = 2 ^ k' := by
    rcases Nat.le_total align 16 with hle | hle
    · exact ⟨4, max_eq_right hle⟩
    · exact ⟨k, (max_eq_left hle).trans hk⟩
  have hbounds := alignSpace_bounds hk' (le_max_right _ _) (by omega)
  unfold Heap.alignedAlloc at ha
  dsimp only at ha
  rw [hmax] at ha
  dsimp only [CarvesOk] at hok
  cases hfit : alignedFit c.heap.size (max align 16) (roundSize size) c.heap.firstFree with
  | some t =>
      rw [hfit] at ha hok
      dsimp only at ha hok
      obtain ⟨h16, hdvd⟩ := hok
      rw [max_eq_left h16.le] at hfit ha hbounds hsz
      obtain ⟨hlt, hspace⟩ := hbounds t
      obtain ⟨-, -, hspace⟩ := hspace.resolve_left fun hd => hdvd hd.1
      obtain ⟨hmem, hle⟩ := alignedFit_some hfit
      rw [Nat.mod_eq_of_lt (by omega)] at hle
      obtain ⟨s₁, rest, s₂, bs', hcarve, hfree, hptr, hnot, hl, -⟩ :=
        h.carve hmem (hspace h16) hle
      rw [hcarve] at ha
      obtain ⟨s₃, hs₃, ha⟩ := Option.bind_eq_some_iff.mp ha
      have hblock : t + alignSpace align t - 16 + 16 = t + alignSpace align t := by
        have := hspace h16
        omega
      rw [hblock, Nat.mod_eq_of_lt hptr] at ha
      cases ha
      cases hfree.symm.trans hs₃
      exact ⟨hnot, bs', hl⟩
  | none =>
      rw [hfit] at ha hok
      dsimp only at ha hok
      obtain ⟨⟨t, s₀⟩, he, ha⟩ := Option.bind_eq_some_iff.mp ha
      obtain ⟨⟨t', x⟩, hs, he⟩ := Option.bind_eq_some_iff.mp he
      dsimp only at he
      split at he
      · cases he
      cases he
      rw [Nat.mod_eq_of_lt hsz] at hs
      obtain ⟨rfl, hx⟩ := hb.grows hs
      obtain ⟨hlt, hcase⟩ := hbounds (brk c.heap.system)
      have hspace : alignSpace (max align 16) (brk c.heap.system) = 16 ∨
          32 ≤ alignSpace (max align 16) (brk c.heap.system) := by
        rcases hcase with ⟨-, heq⟩ | ⟨hd, -, hle⟩
        · exact .inl heq
        · rcases hok with h16 | h16
          · exact .inr (hle (by omega))
          · rcases Nat.lt_or_ge 16 align with h16' | h16'
            · exact .inr (hle (by omega))
            · rw [max_eq_right h16'] at hd
              exact absurd (Nat.dvd_add h16 (Nat.dvd_refl 16)) hd
      obtain ⟨s₁, front, rest, s₂, s₃, bs', hcarve, hf₁, hf₂, hptr, hnot, hl, -⟩ :=
        h.carveNew hx (hb.addr x) hspace hlt
      rw [hcarve] at ha
      obtain ⟨s₄, hs₄, ha⟩ := Option.bind_eq_some_iff.mp ha
      cases hf₁.symm.trans hs₄
      obtain ⟨s₅, hs₅, ha⟩ := Option.bind_eq_some_iff.mp ha
      cases hf₂.symm.trans hs₅
      have hblock : brk c.heap.system + alignSpace (max align 16) (brk c.heap.system) - 16 + 16 =
          brk c.heap.system + alignSpace (max align 16) (brk c.heap.system) := by omega
      dsimp only at ha
      rw [hblock, Nat.mod_eq_of_lt hptr] at ha
      cases ha
      exact ⟨hnot, bs', hl⟩

/-- `realloc` of what the caller has. -/
theorem Layout.realloc {size ptr : Nat} (hb : Contiguous sbrk brk) (h : Layout brk base s live bs)
    (hp : ptr = 0 ∨ ptr ∈ live) (hsz : NoWrap size) (hr : s.realloc sbrk ptr size = some (p, s')) :
    ∃ bs', Layout brk base s' (if p = 0 then live.erase ptr else insert p (live.erase ptr)) bs' := by
  unfold Heap.realloc at hr
  by_cases hp0 : ptr = 0
  · rw [if_pos hp0] at hr
    obtain ⟨-, bs', h'⟩ := h.malloc hb hsz.2 hr
    have hne : p ≠ 0 := fun heq => h'.zero_notMem (heq ▸ Finset.mem_insert_self _ _)
    rw [if_neg hne, hp0, Finset.erase_eq_of_notMem h.zero_notMem]
    exact ⟨bs', h'⟩
  have hp := hp.resolve_left hp0
  rw [if_neg hp0] at hr
  by_cases hs0 : size = 0
  · rw [if_pos hs0] at hr
    obtain ⟨s₁, hf, heq⟩ := Option.map_eq_some_iff.mp hr
    cases heq
    rw [if_pos rfl]
    exact h.free_call (.inr hp) hf
  rw [if_neg hs0] at hr
  split at hr
  -- the block is large enough
  · cases hr
    rw [if_neg hp0, Finset.insert_erase hp]
    exact ⟨bs, h⟩
  -- a new block, and the old one is given back
  · obtain ⟨⟨q, s₁⟩, hm, hr⟩ := Option.bind_eq_some_iff.mp hr
    obtain ⟨s₂, hf, hr⟩ := Option.bind_eq_some_iff.mp hr
    cases hr
    obtain ⟨hnot, bs₁, h₁⟩ := h.malloc hb hsz.2 hm
    have hne : p ≠ 0 := fun heq => h₁.zero_notMem (heq ▸ Finset.mem_insert_self _ _)
    have hpp : p ≠ ptr := fun heq => hnot (heq ▸ hp)
    rw [if_neg hne, ← Finset.erase_insert_of_ne hpp]
    exact h₁.free_call (.inr (Finset.mem_insert_of_mem hp)) hf

/-- Every call keeps the layout. -/
theorem call_step (hb : Contiguous sbrk brk) {c c' : Client σ} {a : HeapCall}
    (h : ∃ bs, Layout brk base c.heap c.live bs) (hv : Valid c a) (hok : CarvesOk brk c a)
    (hs : clientStep sbrk c a = some c') : ∃ bs, Layout brk base c'.heap c'.live bs := by
  obtain ⟨bs, h⟩ := h
  cases a with
  | malloc sz => exact plain_step hb ⟨bs, h⟩ hv trivial hs
  | free ptr => exact plain_step hb ⟨bs, h⟩ hv trivial hs
  | calloc nmemb size =>
      obtain ⟨⟨p, heap⟩, hm, hs⟩ := Option.bind_eq_some_iff.mp hs
      cases hs
      rw [Heap.calloc, Nat.mod_eq_of_lt hv.1] at hm
      exact (h.malloc hb hv.2.2 hm).2
  | realloc ptr size =>
      obtain ⟨⟨p, heap⟩, hm, hs⟩ := Option.bind_eq_some_iff.mp hs
      cases hs
      exact h.realloc hb hv.1 hv.2 hm
  | alignedAlloc align size =>
      obtain ⟨⟨p, heap⟩, hm, hs⟩ := Option.bind_eq_some_iff.mp hs
      cases hs
      exact (h.alignedAlloc hb hv hok hm).2

/-- **The blocks stay apart.**  In every run from an empty heap in which `aligned_alloc` does not go
wrong, the blocks of the caller are apart from each other and from the free ones. -/
theorem heap_separate {σ : Type} {sbrk : Sbrk σ} {brk : σ → Nat} (hb : Contiguous sbrk brk) {x : σ}
    {junk : Nat → Nat} {c : Client σ} {calls : List HeapCall}
    (h : Run (clientStep sbrk) (fun c a => Valid c a ∧ CarvesOk brk c a) (Client.start x junk) calls c) :
    Separate c := by
  obtain ⟨bs, hl⟩ := h.invariant (I := fun c => ∃ bs, Layout brk (brk x) c.heap c.live bs)
    (fun _ _ _ hI hok hs => call_step hb hI hok.1 hok.2 hs) ⟨[], layout_start hb x junk⟩
  exact hl.separate

/-- A block with an alignment of 64 from the list. -/
theorem heap_separate_aligned : ∃ c,
    Run (clientStep bump) (fun c a => Valid c a ∧ CarvesOk BitVec.toNat c a)
      (Client.start 4096 fun _ => 7) [.malloc 200, .free 4112, .alignedAlloc 64 20] c ∧
    Separate c := by
  have hm : NoWrap 200 := by decide
  have hv : ∀ c : Client (BitVec 32), Valid c (.alignedAlloc 64 20) := fun _ =>
    ⟨⟨6, rfl⟩, by decide, by decide⟩
  have h : Run (clientStep bump) (fun c a => Valid c a ∧ CarvesOk BitVec.toNat c a)
      (Client.start 4096 fun _ => 7) [.malloc 200, .free 4112, .alignedAlloc 64 20] _ :=
    .more ⟨hm, trivial⟩ rfl (.more ⟨.inr (by decide), trivial⟩ rfl
      (.one ⟨hv _, by decide, by decide⟩ rfl))
  exact ⟨_, h, heap_separate bump_contiguous h⟩

/-- A free block that lies right is given to the caller and stays on the list. -/
theorem aligned_block_stays_free : ∃ c,
    Run (clientStep bump) Valid (Client.start 4096 fun _ => 7)
      [.malloc 40, .free 4112, .alignedAlloc 16 8] c ∧
    4112 ∈ c.live ∧ 4096 ∈ c.heap.firstFree ∧ ¬ Separate c := by
  have hm : NoWrap 40 := by decide
  have hlive : ∀ c : Client (BitVec 32), 4112 ∈ c.live → 4096 ∈ c.heap.firstFree → ¬ Separate c :=
    fun c hl hf h => h.taken 4112 hl hf
  refine ⟨_, .more hm rfl (.more (.inr (by decide)) rfl
    (.one ⟨⟨4, rfl⟩, by decide, by decide⟩ rfl)), by decide, by decide, ?_⟩
  exact hlive _ (by decide) (by decide)

end Muxomucota.Stdlib
