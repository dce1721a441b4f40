import Muxomucota.Lib.Runs
import Muxomucota.Stdlib.Blocks

/-!
# Stdlib — a client of the heap

A caller that frees what it has and nothing else.  `sbrk` gives it contiguous memory.  Then the blocks
tile all of that memory whatever the caller does, and when it has nothing left, one free block does.
-/

namespace Muxomucota.Stdlib
open Lib

variable {σ : Type} {sbrk : Sbrk σ} {brk : σ → Nat} {base p sz t : Nat} {s s' : Heap σ}
  {live : Finset Nat} {bs : List Block}

/-- `sbrk` goes on where it left off, at `brk`, and nobody else uses it. -/
structure Contiguous (sbrk : Sbrk σ) (brk : σ → Nat) : Prop where
  addr : ∀ x, brk x < 2 ^ 32
  grows : ∀ {x bytes t x'}, sbrk x bytes = some (t, x') → t = brk x ∧ brk x' = brk x + bytes

/-- The caller: the heap, and the pointers it has. -/
structure Client (σ : Type) where
  heap : Heap σ
  live : Finset Nat

/-- What a caller calls. -/
inductive HeapCall where
  | malloc (sz : Nat)
  | calloc (nmemb size : Nat)
  | realloc (ptr size : Nat)
  | alignedAlloc (align size : Nat)
  | free (ptr : Nat)

/-- One call. -/
def clientStep (sbrk : Sbrk σ) (c : Client σ) : HeapCall → Option (Client σ)
  | .malloc sz => do
      let (p, heap) ← c.heap.malloc sbrk sz
      some { heap, live := insert p c.live }
  | .calloc nmemb size => do
      let (p, heap) ← c.heap.calloc sbrk nmemb size
      some { heap, live := insert p c.live }
  | .realloc ptr size => do
      let (p, heap) ← c.heap.realloc sbrk ptr size
      some { heap, live := if p = 0 then c.live.erase ptr else insert p (c.live.erase ptr) }
  | .alignedAlloc align size => do
      let (p, heap) ← c.heap.alignedAlloc sbrk align size
      some { heap, live := insert p c.live }
  | .free ptr => do
      let heap ← c.heap.free ptr
      some { heap, live := c.live.erase ptr }

/-- The sums of `malloc` do not wrap. -/
def NoWrap (sz : Nat) : Prop := (sz % 16 ≠ 0 → sz + 15 < 2 ^ 32) ∧ roundSize sz + 16 < 2 ^ 32

instance (sz : Nat) : Decidable (NoWrap sz) := by unfold NoWrap; infer_instance

/-- The arguments are valid. -/
def Valid (c : Client σ) : HeapCall → Prop
  | .malloc sz => NoWrap sz
  | .calloc nmemb size => nmemb * size < 2 ^ 32 ∧ NoWrap (nmemb * size)
  | .realloc ptr size => (ptr = 0 ∨ ptr ∈ c.live) ∧ NoWrap size
  | .alignedAlloc align size =>
      (∃ k, align = 2 ^ k) ∧ NoWrap size ∧ roundSize size + 48 + max align 16 < 2 ^ 32
  | .free ptr => ptr = 0 ∨ ptr ∈ c.live

/-- A new heap. -/
def Client.start (x : σ) (junk : Nat → Nat) : Client σ := ⟨⟨[], junk, x⟩, ∅⟩

theorem layout_start (hb : Contiguous sbrk brk) (x : σ) (junk : Nat → Nat) :
    Layout brk (brk x) (Client.start x junk).heap (Client.start x junk).live [] where
  tiles := rfl
  top := hb.addr x
  sizes _ h := by cases h
  firstFree := rfl
  live p := ⟨fun h => absurd h (Finset.notMem_empty p), fun ⟨_, h, _⟩ => by cases h⟩
  coalesced := .nil

/-! ### `malloc` -/

/-- What `malloc` takes from the list. -/
theorem takeFit_some {size size' : Nat → Nat} {fs fs' : List Nat}
    (h : takeFit size sz fs = some (t, size', fs')) :
    ∃ xs ys, fs = xs ++ t :: ys ∧ sz ≤ size t ∧
      (size t - sz < 32 ∧ size' = size ∧ fs' = xs ++ ys ∨
        32 ≤ size t - sz ∧
          size' = Function.update (Function.update size ((t + sz + 16) % 2 ^ 32)
            (size t - sz - 16)) t sz ∧
          fs' = xs ++ (t + sz + 16) % 2 ^ 32 :: ys) := by
  induction fs generalizing fs' with
  | nil => cases h
  | cons f fs ih =>
      rw [takeFit] at h
      by_cases hle : sz ≤ size f
      · rw [if_pos hle] at h
        by_cases hlt : size f - sz < 32
        · rw [if_pos hlt] at h
          cases h
          exact ⟨[], fs, rfl, hle, .inl ⟨hlt, rfl, rfl⟩⟩
        · rw [if_neg hlt] at h
          cases h
          exact ⟨[], fs, rfl, hle, .inr ⟨Nat.not_lt.mp hlt, rfl, rfl⟩⟩
      · rw [if_neg hle] at h
        obtain ⟨⟨t', size₁, fs₁⟩, hr, heq⟩ := Option.map_eq_some_iff.mp h
        dsimp only at heq
        cases heq
        obtain ⟨xs, ys, rfl, hle, hcase⟩ := ih hr
        refine ⟨f :: xs, ys, rfl, hle, hcase.imp ?_ ?_⟩
        · rintro ⟨hlt, hs, rfl⟩
          exact ⟨hlt, hs, rfl⟩
        · rintro ⟨hlt, hs, rfl⟩
          exact ⟨hlt, hs, rfl⟩

/-- Nobody has a pointer into a free block. -/
theorem Layout.notMem_inside {b : Block} {p : Nat} (h : Layout brk base s live bs) (hmem : b ∈ bs)
    (hf : b.used = false) (hlo : b.addr + 16 ≤ p) (hhi : p ≤ b.stop) : p ∉ live := by
  intro hp
  obtain ⟨c, hc, rfl⟩ := (h.live p).mp hp
  obtain ⟨hcmem, hu⟩ := mem_useds.mp hc
  have hcstop : c.stop = c.addr + 16 + c.size := rfl
  rcases h.tiles.apart hcmem hmem with rfl | hle | hle
  · rw [hu] at hf
    cases hf
  · omega
  · omega

/-- A block from the free list. -/
theorem Layout.take {size' : Nat → Nat} {fs : List Nat} (h : Layout brk base s live bs)
    (ht : takeFit s.size sz s.firstFree = some (t, size', fs)) :
    (t + 16) % 2 ^ 32 ∉ live ∧ ∃ bs',
      Layout brk base { s with size := size', firstFree := fs } (insert ((t + 16) % 2 ^ 32) live) bs' := by
  obtain ⟨xs, ys, hfs, hle, hcase⟩ := takeFit_some ht
  obtain ⟨pre, b, post, rfl, hf, rfl, rfl, rfl⟩ := frees_split (h.firstFree.symm.trans hfs)
  have hmem : b ∈ pre ++ b :: post := by simp
  have hsize := h.sizes b hmem
  have hbounds := h.tiles.mem hmem
  have htop := h.top
  have hbstop : b.stop = b.addr + 16 + b.size := rfl
  rw [Nat.mod_eq_of_lt (by omega : b.addr + 16 < 2 ^ 32)]
  refine ⟨h.notMem_inside hmem hf (Nat.le_refl _) (Nat.le_add_right _ _), ?_⟩
  rcases hcase with ⟨-, rfl, rfl⟩ | ⟨hrest, rfl, rfl⟩
  -- all of the block
  · have hmid : BlocksTile b.addr [{ b with used := true }] b.stop := ⟨rfl, hbounds.2.1, rfl⟩
    refine ⟨_, h.splice hf hmid (.singleton _) rfl ?_ (fun _ _ => rfl) ?_ fun p => ?_⟩
    · intro c hc
      rw [List.mem_singleton.mp hc]
      exact hsize
    · simp [frees]
    · simp [useds, eq_comm, or_comm]
  -- the beginning of the block
  · rw [hsize] at hrest ⊢
    rw [Nat.mod_eq_of_lt (by omega : b.addr + sz + 16 < 2 ^ 32)]
    have hmid : BlocksTile b.addr [⟨b.addr, sz, true⟩, ⟨b.addr + sz + 16, b.size - sz - 16, false⟩]
        b.stop := by
      simp only [Tiles, Block.stop, true_and]
      omega
    refine ⟨_, h.splice hf hmid ?_ rfl ?_ ?_ ?_ fun p => ?_⟩
    · exact List.isChain_cons.mpr ⟨fun _ _ => .inl rfl, .singleton _⟩
    · intro c hc
      rcases List.mem_cons.mp hc with rfl | hc
      · exact Function.update_self ..
      · rw [List.mem_singleton.mp hc]
        dsimp only
        rw [Function.update_of_ne (by omega), Function.update_self]
    · intro x hx
      have h₁ : x ≠ b.addr := by omega
      have h₂ : x ≠ b.addr + sz + 16 := by omega
      exact (Function.update_of_ne h₁ ..).trans (Function.update_of_ne h₂ ..)
    · simp [frees]
    · simp [useds, eq_comm, or_comm]

/-- A block from `sbrk`. -/
theorem Layout.extend_one (hb : Contiguous sbrk brk) (h : Layout brk base s live bs)
    (hlt : sz + 16 < 2 ^ 32) (he : s.extend sbrk (sz + 16) = some (t, s')) :
    (t + 16) % 2 ^ 32 ∉ live ∧ ∃ bs',
      Layout brk base (s'.setSize t sz) (insert ((t + 16) % 2 ^ 32) live) bs' := by
  obtain ⟨⟨t', x⟩, hs, he⟩ := Option.bind_eq_some_iff.mp he
  dsimp only at he
  split at he
  · cases he
  cases he
  rw [Nat.mod_eq_of_lt hlt] at hs
  obtain ⟨rfl, hx⟩ := hb.grows hs
  have hxlt := hb.addr x
  rw [Nat.mod_eq_of_lt (by omega : brk s.system + 16 < 2 ^ 32)]
  refine ⟨fun hmem => ?_, ?_⟩
  · obtain ⟨c, hc, heq⟩ := (h.live _).mp hmem
    have := h.tiles.mem (mem_useds.mp hc).1
    have hcstop : c.stop = c.addr + 16 + c.size := rfl
    omega
  have hmid : BlocksTile (brk s.system) [⟨brk s.system, sz, true⟩] (brk x) := by
    simp only [Tiles, Block.stop, true_and]
    omega
  refine ⟨_, h.extend rfl hmid hxlt ?_ ?_ ?_ rfl fun p => ?_⟩
  · intro c hc
    rw [List.mem_singleton.mp hc]
  · intro c hc
    rw [List.mem_singleton.mp hc]
    exact Function.update_self ..
  · intro a ha
    exact Function.update_of_ne (by omega) ..
  · simp [eq_comm, or_comm]

/-- `malloc` gives the caller a block that it does not have. -/
theorem Layout.malloc (hb : Contiguous sbrk brk) (h : Layout brk base s live bs)
    (hsz : roundSize sz + 16 < 2 ^ 32) (hm : s.malloc sbrk sz = some (p, s')) :
    p ∉ live ∧ ∃ bs', Layout brk base s' (insert p live) bs' := by
  unfold Heap.malloc at hm
  dsimp only at hm
  split at hm
  · rename_i t size fs ht
    cases hm
    exact h.take ht
  · obtain ⟨⟨t, s₁⟩, he, hm⟩ := Option.bind_eq_some_iff.mp hm
    cases hm
    exact h.extend_one hb hsz he

theorem Layout.zero_notMem (h : Layout brk base s live bs) : 0 ∉ live := fun hmem => by
  obtain ⟨c, -, heq⟩ := (h.live 0).mp hmem
  omega

/-- `free` of what the caller has, or of no pointer. -/
theorem Layout.free_call (h : Layout brk base s live bs) (hp : p = 0 ∨ p ∈ live)
    (hf : s.free p = some s') : ∃ bs', Layout brk base s' (live.erase p) bs' := by
  rcases hp with rfl | hp
  · rw [Heap.free, if_pos rfl] at hf
    cases hf
    rw [Finset.erase_eq_of_notMem h.zero_notMem]
    exact ⟨bs, h⟩
  · obtain ⟨s₁, bs', heq, -, h', -⟩ := h.free hp
    rw [heq] at hf
    cases hf
    exact ⟨bs', h'⟩

/-! ### Heap restoration -/

/-- A call of `malloc` or `free`. -/
def HeapCall.Plain : HeapCall → Prop
  | .malloc _ | .free _ => True
  | _ => False

/-- With nothing in use the free list is one block, which covers everything there is. -/
theorem Layout.uniform (h : Layout brk base s ∅ bs) :
    brk s.system = base ∧ s.firstFree = [] ∨
      s.firstFree = [base] ∧ base + 16 + s.size base = brk s.system := by
  have hfree : ∀ b ∈ bs, b.used = false := fun b hb => by
    cases hu : b.used with
    | false => rfl
    | true =>
        have := (h.live (b.addr + 16)).mpr ⟨b, mem_useds.mpr ⟨hb, hu⟩, rfl⟩
        exact absurd this (Finset.notMem_empty _)
  cases bs with
  | nil => exact .inl ⟨h.tiles.symm, h.firstFree⟩
  | cons b bs =>
      have hb := hfree b List.mem_cons_self
      obtain ⟨rfl, -, htiles⟩ := h.tiles
      cases bs with
      | nil =>
          have hsize := h.sizes b List.mem_cons_self
          refine .inr ⟨by rw [h.firstFree, frees_cons_free hb, frees_nil], ?_⟩
          rw [hsize]
          exact htiles
      | cons c bs =>
          have := (List.isChain_cons.mp h.coalesced).1 c rfl
          rw [hb, hfree c (by simp)] at this
          simp at this

/-- Every call of `malloc` and `free` keeps the layout. -/
theorem plain_step (hb : Contiguous sbrk brk) {c c' : Client σ} {a : HeapCall}
    (h : ∃ bs, Layout brk base c.heap c.live bs) (hv : Valid c a) (hp : a.Plain)
    (hs : clientStep sbrk c a = some c') : ∃ bs, Layout brk base c'.heap c'.live bs := by
  obtain ⟨bs, h⟩ := h
  cases a with
  | malloc sz =>
      obtain ⟨⟨p, heap⟩, hm, hs⟩ := Option.bind_eq_some_iff.mp hs
      cases hs
      exact (h.malloc hb hv.2 hm).2
  | free ptr =>
      obtain ⟨heap, hf, hs⟩ := Option.bind_eq_some_iff.mp hs
      cases hs
      exact h.free_call hv hf
  | calloc _ _ => cases hp
  | realloc _ _ => cases hp
  | alignedAlloc _ _ => cases hp

/-- **The heap is restored.**  After any calls of `malloc` and `free` the blocks tile what was obtained
and no free ones are neighbours; `free` does not crash; and with everything freed, the free list is a
single block that covers everything, if anything was obtained. -/
theorem heap_restored {σ : Type} {sbrk : Sbrk σ} {brk : σ → Nat} (hb : Contiguous sbrk brk) {x : σ}
    {junk : Nat → Nat} {c : Client σ} {calls : List HeapCall}
    (h : Run (clientStep sbrk) (fun c a => Valid c a ∧ a.Plain) (Client.start x junk) calls c) :
    (∃ bs, Layout brk (brk x) c.heap c.live bs) ∧ (∀ p ∈ c.live, (c.heap.free p).isSome) ∧
      (c.live = ∅ → brk c.heap.system = brk x ∧ c.heap.firstFree = [] ∨
        c.heap.firstFree = [brk x] ∧ brk x + 16 + c.heap.size (brk x) = brk c.heap.system) := by
  obtain ⟨bs, hl⟩ := h.invariant (I := fun c => ∃ bs, Layout brk (brk x) c.heap c.live bs)
    (fun _ _ _ hI hok hs => plain_step hb hI hok.1 hok.2 hs) ⟨[], layout_start hb x junk⟩
  refine ⟨⟨bs, hl⟩, fun p hp => ?_, fun hempty => ?_⟩
  · obtain ⟨s', -, hf, -⟩ := hl.free hp
    rw [hf]
    rfl
  · rw [hempty] at hl
    exact hl.uniform

/-- The simplest `sbrk`: a break that moves up. -/
def bump : Sbrk (BitVec 32) := fun x bytes =>
  if x.toNat + bytes < 2 ^ 32 then some (x.toNat, x + .ofNat 32 bytes) else none

theorem bump_contiguous : Contiguous bump BitVec.toNat where
  addr x := x.isLt
  grows {x bytes t x'} h := by
    unfold bump at h
    split at h
    · rename_i hlt
      cases h
      refine ⟨rfl, ?_⟩
      rw [BitVec.toNat_add, BitVec.toNat_ofNat]
      omega
    · cases h

/-- Three blocks are taken, and given back, the one in the middle last. -/
theorem heap_restored_three : ∃ c,
    Run (clientStep bump) (fun c a => Valid c a ∧ a.Plain) (Client.start 4096 fun _ => 7)
      [.malloc 5, .malloc 20, .malloc 5, .free 4112, .free 4192, .free 4144] c ∧
    (c.heap.system.toNat = 4096 ∧ c.heap.firstFree = [] ∨
      c.heap.firstFree = [4096] ∧ 4096 + 16 + c.heap.size 4096 = c.heap.system.toNat) := by
  have hv : NoWrap 5 := by decide
  have hv' : NoWrap 20 := by decide
  have h : Run (clientStep bump) (fun c a => Valid c a ∧ a.Plain) (Client.start 4096 fun _ => 7)
      [.malloc 5, .malloc 20, .malloc 5, .free 4112, .free 4192, .free 4144] _ :=
    .more ⟨hv, trivial⟩ rfl (.more ⟨hv', trivial⟩ rfl (.more ⟨hv, trivial⟩ rfl
      (.more ⟨.inr (by decide), trivial⟩ rfl (.more ⟨.inr (by decide), trivial⟩ rfl
      (.one ⟨.inr (by decide), trivial⟩ rfl)))))
  exact ⟨_, h, (heap_restored bump_contiguous h).2.2 (by decide)⟩

end Muxomucota.Stdlib
