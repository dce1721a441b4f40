import Muxomucota.Lib.Tiling
import Muxomucota.Stdlib.Malloc
import Mathlib.Data.List.Chain

/-!
# Stdlib — the blocks of the heap

What `sbrk` has given is tiled by blocks, used ones and free ones.  The free list is the free ones in
order, and no two of them are neighbours.  Taking a block and giving one back keep that.
-/

namespace Muxomucota.Stdlib
open Lib

/-- A block: the address of its header, the size of its content, and whether somebody has it. -/
structure Block where
  addr : Nat
  size : Nat
  used : Bool
  deriving DecidableEq

/-- The end of a block. -/
def Block.stop (b : Block) : Nat := b.addr + 16 + b.size

/-- The blocks tile `[lo, hi)`. -/
abbrev BlocksTile : Nat → List Block → Nat → Prop := Tiles Block.addr Block.stop

/-- The addresses of the free blocks. -/
def frees (bs : List Block) : List Nat := (bs.filter (!·.used)).map Block.addr

/-- The used blocks. -/
def useds (bs : List Block) : List Block := bs.filter (·.used)

/-- No two neighbours are free. -/
def Coalesced (bs : List Block) : Prop := bs.IsChain fun a b => a.used = true ∨ b.used = true

@[simp] theorem frees_nil : frees [] = [] := rfl

theorem frees_cons_free {b : Block} (h : b.used = false) (bs : List Block) :
    frees (b :: bs) = b.addr :: frees bs := by
  simp [frees, h]

theorem frees_cons_used {b : Block} (h : b.used = true) (bs : List Block) :
    frees (b :: bs) = frees bs := by
  simp [frees, h]

@[simp] theorem frees_append (xs ys : List Block) : frees (xs ++ ys) = frees xs ++ frees ys := by
  simp [frees]

theorem useds_cons_free {b : Block} (h : b.used = false) (bs : List Block) :
    useds (b :: bs) = useds bs := by
  simp [useds, h]

theorem useds_cons_used {b : Block} (h : b.used = true) (bs : List Block) :
    useds (b :: bs) = b :: useds bs := by
  simp [useds, h]

@[simp] theorem useds_append (xs ys : List Block) : useds (xs ++ ys) = useds xs ++ useds ys := by
  simp [useds]

theorem mem_frees {a : Nat} {bs : List Block} :
    a ∈ frees bs ↔ ∃ b ∈ bs, b.used = false ∧ b.addr = a := by
  simp only [frees, List.mem_map, List.mem_filter, Bool.not_eq_true', and_assoc]

theorem mem_useds {b : Block} {bs : List Block} : b ∈ useds bs ↔ b ∈ bs ∧ b.used = true :=
  List.mem_filter

/-! ### Joining neighbours -/

/-- What joining the free blocks of `bs` makes: `bs'`, with the sizes `size'`. -/
structure Joined (size : Nat → Nat) (lo hi : Nat) (bs : List Block) (size' : Nat → Nat)
    (bs' : List Block) : Prop where
  tiles : BlocksTile lo bs' hi
  sizes : ∀ b ∈ bs', size' b.addr = b.size
  useds : useds bs' = useds bs
  coalesced : Coalesced bs'
  before : ∀ x, x < lo → size' x = size x
  grows : ∀ x, size x ≤ size' x

theorem frees_ge {lo hi a : Nat} {bs : List Block} (h : BlocksTile lo bs hi) (ha : a ∈ frees bs) :
    lo ≤ a := by
  obtain ⟨b, hb, -, rfl⟩ := mem_frees.mp ha
  exact (h.mem hb).1

/-- With nothing to join the loop goes on to the next block. -/
theorem joinFrom_skip {size : Nat → Nat} {current : Nat} {fs : List Nat}
    (hlt : current + size current + 16 < 2 ^ 32)
    (h : ∀ f ∈ fs, current + size current + 16 < f) :
    joinFrom size current fs = (joinMemory size fs).map fun r => (r.1, current :: r.2) := by
  cases fs with
  | nil => rfl
  | cons f fs =>
      have := h f List.mem_cons_self
      rw [joinFrom, Nat.mod_eq_of_lt hlt, if_neg (by omega), if_neg (by omega)]
      rfl

/-- A used block in front of what is joined. -/
theorem Joined.cons_used {size size' : Nat → Nat} {lo hi : Nat} {a : Block} {bs bs' : List Block}
    (hu : a.used = true) (ha : a.addr = lo) (hlt : lo < a.stop) (hsa : size a.addr = a.size)
    (h : Joined size a.stop hi bs size' bs') : Joined size lo hi (a :: bs) size' (a :: bs') where
  tiles := ⟨ha, hlt, h.tiles⟩
  sizes b hb := by
    rcases List.mem_cons.mp hb with rfl | hb
    · rw [h.before _ (ha ▸ hlt), hsa]
    · exact h.sizes b hb
  useds := by rw [useds_cons_used hu, useds_cons_used hu, h.useds]
  coalesced := List.isChain_cons.mpr ⟨fun _ _ => .inl hu, h.coalesced⟩
  before x hx := h.before x (Nat.lt_trans hx hlt)
  grows := h.grows

/-- A free block in front of a used one. -/
theorem Joined.cons_free {size size' : Nat → Nat} {lo hi : Nat} {a b : Block} {bs bs' : List Block}
    (hf : a.used = false) (hu : b.used = true) (ha : a.addr = lo) (hlt : lo < a.stop)
    (hb : b.addr = a.stop) (hsa : size a.addr = a.size)
    (h : Joined size a.stop hi (b :: bs) size' bs') :
    Joined size lo hi (a :: b :: bs) size' (a :: bs') where
  tiles := ⟨ha, hlt, h.tiles⟩
  sizes c hc := by
    rcases List.mem_cons.mp hc with rfl | hc
    · rw [h.before _ (ha ▸ hlt), hsa]
    · exact h.sizes c hc
  useds := by rw [useds_cons_free hf, useds_cons_free hf, h.useds]
  coalesced := by
    refine List.isChain_cons.mpr ⟨fun c hc => .inr ?_, h.coalesced⟩
    -- the used block is still there, so it is the first one
    have hmem : b ∈ bs' := by
      have : b ∈ Stdlib.useds bs' := h.useds ▸ mem_useds.mpr ⟨List.mem_cons_self, hu⟩
      exact (mem_useds.mp this).1
    obtain ⟨ds, rfl⟩ : ∃ ds, bs' = c :: ds := by
      cases bs' with
      | nil => cases hc
      | cons d ds => exact ⟨ds, by rw [Option.some.inj hc]⟩
    obtain ⟨hc', hclt, hds⟩ := h.tiles
    rcases List.mem_cons.mp hmem with rfl | hmem
    · exact hu
    · have := (hds.mem hmem).1
      omega
  before x hx := h.before x (Nat.lt_trans hx hlt)
  grows := h.grows

/-- Two free blocks become one. -/
theorem Joined.merge {size size' : Nat → Nat} {lo hi n : Nat} {a b : Block} {bs bs' : List Block}
    (hf : a.used = false) (hfb : b.used = false) (ha : a.addr = lo) (hn : size a.addr ≤ n)
    (h : Joined (Function.update size a.addr n) lo hi ({ a with size := n } :: bs) size' bs') :
    Joined size lo hi (a :: b :: bs) size' bs' where
  tiles := h.tiles
  sizes := h.sizes
  useds := by
    rw [h.useds, useds_cons_free hf, useds_cons_free hfb,
      useds_cons_free (b := { a with size := n }) hf]
  coalesced := h.coalesced
  before x hx := by rw [h.before x hx, Function.update_of_ne (by omega)]
  grows x := by
    refine Nat.le_trans ?_ (h.grows x)
    by_cases hx : x = a.addr
    · rw [hx, Function.update_self]
      exact hn
    · rw [Function.update_of_ne hx]

/-- `join_memory` joins all neighbours that are free. -/
theorem joinMemory_spec : ∀ {lo hi : Nat} {bs : List Block} {size : Nat → Nat},
    BlocksTile lo bs hi → hi < 2 ^ 32 → (∀ b ∈ bs, size b.addr = b.size) →
      ∃ size' bs', joinMemory size (frees bs) = some (size', frees bs') ∧
        Joined size lo hi bs size' bs'
  | lo, hi, [], size, h, _, hs => ⟨size, [], rfl, h, hs, rfl, .nil, fun _ _ => rfl, fun _ => Nat.le_refl _⟩
  | lo, hi, a :: bs, size, ⟨ha, hlt, h⟩, hhi, hs => by
      have hsa := hs a List.mem_cons_self
      have hsbs : ∀ b ∈ bs, size b.addr = b.size := fun b hb => hs b (List.mem_cons_of_mem _ hb)
      have hstop : a.addr + size a.addr + 16 = a.stop := by rw [hsa, Block.stop]; omega
      by_cases hu : a.used = true
      · obtain ⟨size', bs', heq, hj⟩ := joinMemory_spec h hhi hsbs
        refine ⟨size', a :: bs', ?_, hj.cons_used hu ha hlt hsa⟩
        rw [frees_cons_used hu, frees_cons_used hu, heq]
      rw [Bool.not_eq_true] at hu
      rw [frees_cons_free hu, joinMemory]
      cases bs with
      | nil =>
          refine ⟨size, [a], by rw [frees_cons_free hu]; rfl, ⟨ha, hlt, h⟩, hs, rfl, ?_, fun _ _ => rfl,
            fun _ => Nat.le_refl _⟩
          exact .singleton a
      | cons b bs =>
          have hb : b.addr = a.stop := h.1
          have hblt := h.2.1
          have hble := h.2.2.le
          by_cases hub : b.used = true
          · obtain ⟨size', bs', heq, hj⟩ := joinMemory_spec h hhi hsbs
            refine ⟨size', a :: bs', ?_, hj.cons_free hu hub ha hlt hb hsa⟩
            rw [frees_cons_used hub] at heq ⊢
            rw [joinFrom_skip (by omega), heq, frees_cons_free hu, Option.map_some]
            intro f hf
            have := frees_ge h.2.2 hf
            omega
          · rw [Bool.not_eq_true] at hub
            have hsb := hsbs b List.mem_cons_self
            have hbstop : b.stop = b.addr + 16 + b.size := rfl
            have hastop : a.stop = a.addr + 16 + a.size := rfl
            have hn : (size a.addr + (size b.addr + 16)) % 2 ^ 32 = a.size + (b.size + 16) := by
              rw [hsa, hsb]
              omega
            have htiles : BlocksTile lo ({ a with size := a.size + (b.size + 16) } :: bs) hi := by
              refine ⟨ha, ?_, ?_⟩
              · change lo < a.addr + 16 + (a.size + (b.size + 16))
                omega
              · have : ({ a with size := a.size + (b.size + 16) } : Block).stop = b.stop := by
                  change a.addr + 16 + (a.size + (b.size + 16)) = _
                  omega
                rw [this]
                exact h.2.2
            have hsizes : ∀ c ∈ { a with size := a.size + (b.size + 16) } :: bs,
                Function.update size a.addr (a.size + (b.size + 16)) c.addr = c.size := by
              intro c hc
              rcases List.mem_cons.mp hc with rfl | hc
              · exact Function.update_self ..
              · have := (h.2.2.mem hc).1
                rw [Function.update_of_ne (by omega), hsbs c (List.mem_cons_of_mem _ hc)]
            obtain ⟨size', bs', heq, hj⟩ := joinMemory_spec htiles hhi hsizes
            refine ⟨size', bs', ?_, hj.merge hu hub ha (by omega)⟩
            rw [frees_cons_free (b := { a with size := a.size + (b.size + 16) }) hu, joinMemory] at heq
            rw [frees_cons_free hub, joinFrom, hstop, Nat.mod_eq_of_lt (by omega), if_neg (by omega),
              if_pos hb.symm, hn, heq]
termination_by _ _ bs => bs.length

/-! ### The layout -/

/-- The heap consists of the blocks `bs` from `base` on, the caller has the contents at `live`, and `brk`
says where `sbrk` will go on. -/
structure Layout {σ : Type} (brk : σ → Nat) (base : Nat) (s : Heap σ) (live : Finset Nat)
    (bs : List Block) : Prop where
  tiles : BlocksTile base bs (brk s.system)
  top : brk s.system < 2 ^ 32
  sizes : ∀ b ∈ bs, s.size b.addr = b.size
  firstFree : s.firstFree = frees bs
  live : ∀ p, p ∈ live ↔ ∃ b ∈ useds bs, b.addr + 16 = p
  coalesced : Coalesced bs

section

variable {σ : Type} {brk : σ → Nat} {base p : Nat} {s s' : Heap σ} {live : Finset Nat}
  {bs pre post : List Block} {b : Block}

theorem coalesced_append {xs ys : List Block} :
    Coalesced (xs ++ ys) ↔ Coalesced xs ∧ Coalesced ys ∧
      ∀ x ∈ xs.getLast?, ∀ y ∈ ys.head?, x.used = true ∨ y.used = true :=
  List.isChain_append

/-- The loop of `free` finds the place in the order. -/
theorem insertFree_between {t : Nat} : ∀ {xs ys : List Nat}, (∀ x ∈ xs, x < t) → (∀ y ∈ ys, t < y) →
    insertFree t (xs ++ ys) = some (xs ++ t :: ys)
  | [], [], _, _ => rfl
  | [], y :: ys, _, hy => by
      have := hy y List.mem_cons_self
      rw [List.nil_append, insertFree, if_neg (by omega), if_neg (by omega)]
      rfl
  | x :: xs, ys, hx, hy => by
      rw [List.cons_append, insertFree, if_pos (hx x List.mem_cons_self),
        insertFree_between (fun z hz => hx z (List.mem_cons_of_mem _ hz)) hy]
      rfl

/-- The header of a pointer that the caller has. -/
theorem Layout.mem_live (h : Layout brk base s live bs) (hp : p ∈ live) :
    ∃ pre b post, bs = pre ++ b :: post ∧ b.used = true ∧ b.addr + 16 = p ∧ p < 2 ^ 32 := by
  obtain ⟨b, hb, rfl⟩ := (h.live p).mp hp
  obtain ⟨hmem, hu⟩ := mem_useds.mp hb
  obtain ⟨pre, post, rfl⟩ := List.append_of_mem hmem
  have := h.tiles.mem hmem
  have hstop : b.stop = b.addr + 16 + b.size := rfl
  have := h.top
  exact ⟨pre, b, post, rfl, hu, rfl, by omega⟩

/-- `free` gives a block back that the caller has, and leaves the others that it has as they are.  No header
gets a smaller size. -/
theorem Layout.free (h : Layout brk base s live bs) (hp : p ∈ live) :
    ∃ s' bs', s.free p = some s' ∧ s'.system = s.system ∧ Layout brk base s' (live.erase p) bs' ∧
      (∀ c ∈ useds bs, c.addr + 16 ≠ p → c ∈ useds bs') ∧ ∀ x, s.size x ≤ s'.size x := by
  obtain ⟨pre, b, post, rfl, hu, rfl, hlt⟩ := h.mem_live hp
  obtain ⟨hpre, hpost⟩ := h.tiles.around
  have hbstop : b.stop = b.addr + 16 + b.size := rfl
  -- the block is put in the list
  have hinsert : insertFree b.addr s.firstFree =
      some (frees (pre ++ { b with used := false } :: post)) := by
    rw [h.firstFree, frees_append, frees_cons_used hu, frees_append,
      frees_cons_free (b := { b with used := false }) rfl]
    refine insertFree_between (fun x hx => ?_) fun y hy => ?_
    · obtain ⟨c, hc, -, rfl⟩ := mem_frees.mp hx
      have := hpre c hc
      have hcstop : c.stop = c.addr + 16 + c.size := rfl
      omega
    · obtain ⟨c, hc, -, rfl⟩ := mem_frees.mp hy
      have := hpost c hc
      omega
  have htiles : BlocksTile base (pre ++ { b with used := false } :: post) (brk s.system) := by
    have hone : BlocksTile b.addr [{ b with used := false }] b.stop :=
      ⟨rfl, (by omega : b.addr < b.stop), rfl⟩
    have := h.tiles.splice hone
    rwa [List.append_assoc] at this
  have hsizes : ∀ c ∈ pre ++ { b with used := false } :: post, s.size c.addr = c.size := by
    intro c hc
    rcases List.mem_append.mp hc with hc | hc
    · exact h.sizes c (List.mem_append_left _ hc)
    · rcases List.mem_cons.mp hc with rfl | hc
      · exact h.sizes b (by simp)
      · exact h.sizes c (by simp [hc])
  -- and joined with its neighbours
  obtain ⟨size', bs', hjoin, hj⟩ := joinMemory_spec htiles h.top hsizes
  refine ⟨{ s with size := size', firstFree := frees bs' }, bs', ?_, rfl,
    ⟨hj.tiles, h.top, hj.sizes, rfl, fun q => ?_, hj.coalesced⟩, fun c hc hne => ?_, hj.grows⟩
  · have haddr : (b.addr + 16 + 2 ^ 32 - 16) % 2 ^ 32 = b.addr := by omega
    rw [Heap.free, if_neg (by omega), haddr, hinsert, Option.bind_eq_bind, Option.bind_some, hjoin]
    rfl
  · rw [Finset.mem_erase, h.live, hj.useds, useds_append, useds_append, useds_cons_used hu,
      useds_cons_free (b := { b with used := false }) rfl]
    constructor
    · rintro ⟨hne, c, hc, rfl⟩
      refine ⟨c, ?_, rfl⟩
      rcases List.mem_append.mp hc with hc | hc
      · exact List.mem_append_left _ hc
      · rcases List.mem_cons.mp hc with rfl | hc
        · exact absurd rfl hne
        · exact List.mem_append_right _ hc
    · rintro ⟨c, hc, rfl⟩
      have hcstop : c.stop = c.addr + 16 + c.size := rfl
      rcases List.mem_append.mp hc with hc | hc
      · have := hpre c (mem_useds.mp hc).1
        exact ⟨by omega, c, List.mem_append_left _ hc, rfl⟩
      · have := hpost c (mem_useds.mp hc).1
        exact ⟨by omega, c, List.mem_append_right _ (List.mem_cons_of_mem _ hc), rfl⟩
  · rw [useds_append, useds_cons_used hu] at hc
    rw [hj.useds, useds_append, useds_cons_free (b := { b with used := false }) rfl]
    rcases List.mem_append.mp hc with hc | hc
    · exact List.mem_append_left _ hc
    · rcases List.mem_cons.mp hc with rfl | hc
      · exact absurd rfl hne
      · exact List.mem_append_right _ hc

/-- A free block is replaced by blocks that tile what it covered, with no two free neighbours. -/
theorem Layout.splice {live' : Finset Nat} {mid : List Block}
    (h : Layout brk base s live (pre ++ b :: post)) (hf : b.used = false)
    (hmid : BlocksTile b.addr mid b.stop) (hco : Coalesced mid) (hsys : s'.system = s.system)
    (hsizes : ∀ c ∈ mid, s'.size c.addr = c.size)
    (hframe : ∀ x, x < b.addr ∨ b.stop ≤ x → s'.size x = s.size x)
    (hfree : s'.firstFree = frees (pre ++ mid ++ post))
    (hlive : ∀ p, p ∈ live' ↔ p ∈ live ∨ ∃ c ∈ useds mid, c.addr + 16 = p) :
    Layout brk base s' live' (pre ++ mid ++ post) where
  tiles := hsys ▸ h.tiles.splice hmid
  top := hsys ▸ h.top
  sizes c hc := by
    obtain ⟨hpre, hpost⟩ := h.tiles.around
    rw [List.append_assoc] at hc
    rcases List.mem_append.mp hc with hc | hc
    · have := hpre c hc
      have hcstop : c.stop = c.addr + 16 + c.size := rfl
      rw [hframe _ (.inl (by omega))]
      exact h.sizes c (List.mem_append_left _ hc)
    rcases List.mem_append.mp hc with hc | hc
    · exact hsizes c hc
    · rw [hframe _ (.inr (hpost c hc))]
      exact h.sizes c (List.mem_append_right _ (List.mem_cons_of_mem _ hc))
  firstFree := hfree
  live p := by
    rw [hlive, h.live, useds_append, useds_append, useds_append, useds_cons_free hf]
    simp only [List.mem_append, or_and_right, exists_or]
    exact or_right_comm
  coalesced := by
    -- the neighbours of a free block are used
    obtain ⟨hcpre, hcb, hleft⟩ := coalesced_append.mp h.coalesced
    obtain ⟨hright, hcpost⟩ := List.isChain_cons.mp hcb
    have hlast : ∀ x ∈ pre.getLast?, x.used = true := fun x hx =>
      (hleft x hx b rfl).resolve_right (by rw [hf]; decide)
    have hfirst : ∀ y ∈ post.head?, y.used = true := fun y hy =>
      (hright y hy).resolve_left (by rw [hf]; decide)
    rw [coalesced_append, coalesced_append]
    exact ⟨⟨hcpre, hco, fun x hx _ _ => .inl (hlast x hx)⟩, hcpost,
      fun _ _ y hy => .inr (hfirst y hy)⟩

/-- More from `sbrk`, as used blocks. -/
theorem Layout.extend {live' : Finset Nat} {mid : List Block} {x : σ}
    (h : Layout brk base s live bs) (hs' : s'.system = x)
    (hmid : BlocksTile (brk s.system) mid (brk x)) (htop : brk x < 2 ^ 32)
    (hused : ∀ c ∈ mid, c.used = true) (hsizes : ∀ c ∈ mid, s'.size c.addr = c.size)
    (hframe : ∀ a, a < brk s.system → s'.size a = s.size a) (hfree : s'.firstFree = s.firstFree)
    (hlive : ∀ p, p ∈ live' ↔ p ∈ live ∨ ∃ c ∈ mid, c.addr + 16 = p) :
    Layout brk base s' live' (bs ++ mid) where
  tiles := by
    rw [hs']
    exact h.tiles.append hmid
  top := hs' ▸ htop
  sizes c hc := by
    rcases List.mem_append.mp hc with hc | hc
    · have := h.tiles.mem hc
      rw [hframe _ (by omega)]
      exact h.sizes c hc
    · exact hsizes c hc
  firstFree := by
    have : mid.filter (!·.used) = [] := by
      rw [List.filter_eq_nil_iff]
      intro c hc
      rw [hused c hc]
      decide
    rw [hfree, h.firstFree, frees_append, frees, frees, this, List.map_nil, List.append_nil]
  live p := by
    have : useds mid = mid := List.filter_eq_self.mpr hused
    rw [hlive, h.live, useds_append, this]
    simp only [List.mem_append, or_and_right, exists_or]
  coalesced := by
    have hmid : Coalesced mid := by
      clear hmid hsizes hlive
      induction mid with
      | nil => exact .nil
      | cons c mid ih =>
          exact List.isChain_cons.mpr ⟨fun _ _ => .inl (hused c List.mem_cons_self),
            ih fun d hd => hused d (List.mem_cons_of_mem _ hd)⟩
    refine coalesced_append.mpr ⟨h.coalesced, hmid, fun _ _ y hy => .inr ?_⟩
    exact hused y (List.mem_of_mem_head? hy)

/-- A free block and what is around it, from its place in the free list. -/
theorem frees_split {t : Nat} {xs ys : List Nat} : ∀ {bs : List Block}, frees bs = xs ++ t :: ys →
    ∃ pre b post, bs = pre ++ b :: post ∧ b.used = false ∧ b.addr = t ∧ frees pre = xs ∧
      frees post = ys := by
  intro bs h
  obtain ⟨fs, gs, hbs, rfl, hgs⟩ := List.map_eq_append_iff.mp h
  obtain ⟨g, gs', rfl, rfl, rfl⟩ := List.map_eq_cons_iff.mp hgs
  obtain ⟨pre, rest, rfl, rfl, hrest⟩ := List.filter_eq_append_iff.mp hbs
  obtain ⟨skip, post, rfl, hskip, hb, rfl⟩ := List.filter_eq_cons_iff.mp hrest
  refine ⟨pre ++ skip, g, post, by simp, by simpa using hb, rfl, ?_, rfl⟩
  have : skip.filter (!·.used) = [] := List.filter_eq_nil_iff.mpr hskip
  rw [frees_append, frees, frees, this, List.map_nil, List.append_nil]

end

end Muxomucota.Stdlib
