import Muxomucota.Stdlib.AlignedGeometry

/-!
# Stdlib — pages from the heap

`aligned_alloc(PAGE_SIZE, PAGE_SIZE)`.  If the first free block that has room for a page has it right behind
its header, the page is returned and stays free: the next call returns it again, and `free` crashes.  Otherwise
the page belongs to the caller, and lies where nobody had anything.
-/

namespace Muxomucota.Stdlib
open Lib

variable {σ : Type} {sbrk : Sbrk σ} {brk : σ → Nat} {base p t a : Nat} {s s' : Heap σ}
  {live live' : Finset Nat} {bs bs' : List Block}

/-- The block that a page will be taken from stays on the list. -/
def PageReused (s : Heap σ) : Prop :=
  ∃ t, alignedFit s.size 4096 4096 s.firstFree = some t ∧ 4096 ∣ t + 16

/-- Where `n` pages may come from: free blocks, and what `sbrk` gives next. -/
def Unowned (brk : σ → Nat) (n : Nat) (s : Heap σ) (a : Nat) : Prop :=
  (∃ t ∈ s.firstFree, t ≤ a ∧ a < t + 16 + s.size t) ∨
    brk s.system ≤ a ∧ a < brk s.system + n * 8240

/-! ### Blocks with no free neighbours -/

/-- A free block in front ends where the next used one begins, so not before another one does. -/
theorem stop_le_of_free {lo hi : Nat} {b b' : Block} (h : BlocksTile lo (b :: bs) hi)
    (h' : BlocksTile lo (b' :: bs') hi) (hc : Coalesced (b :: bs)) (hf : b.used = false)
    (hf' : b'.used = false) (hu : ∀ c ∈ useds (b :: bs), c ∈ useds (b' :: bs')) : b'.stop ≤ b.stop := by
  obtain ⟨-, -, ht⟩ := h
  obtain ⟨-, -, ht'⟩ := h'
  cases bs with
  | nil => exact ht'.le.trans (Nat.le_of_eq (Eq.symm ht))
  | cons n bs =>
      have hn : n.used = true := ((List.isChain_cons.mp hc).1 n rfl).resolve_left (by rw [hf]; decide)
      have hmem := mem_useds.mp (hu n (mem_useds.mpr ⟨by simp, hn⟩))
      rcases List.mem_cons.mp hmem.1 with rfl | hmem'
      · rw [hf'] at hn
        cases hn
      · have hstart := (ht'.mem hmem').1
        have haddr := ht.1
        omega

/-- The used blocks say what the other ones are. -/
theorem coalesced_unique {lo hi : Nat} (h : BlocksTile lo bs hi) (h' : BlocksTile lo bs' hi)
    (hc : Coalesced bs) (hc' : Coalesced bs') (hu : ∀ c, c ∈ useds bs ↔ c ∈ useds bs') : bs = bs' := by
  induction bs generalizing lo bs' with
  | nil =>
      cases bs' with
      | nil => rfl
      | cons b' bs' =>
          have hend : lo = hi := h
          have hle := h'.2.2.le
          have hlt := h'.2.1
          omega
  | cons b bs ih =>
      cases bs' with
      | nil =>
          have hend : lo = hi := h'
          have hle := h.2.2.le
          have hlt := h.2.1
          omega
      | cons b' bs' =>
          obtain ⟨hb, hlt, ht⟩ := id h
          obtain ⟨hb', hlt', ht'⟩ := id h'
          -- a used block in front is in front of both
          have hfirst : b.used = true → b = b' := fun hbu => by
            have hmem := (mem_useds.mp ((hu b).mp (mem_useds.mpr ⟨by simp, hbu⟩))).1
            refine (List.mem_cons.mp hmem).resolve_right fun hmem' => ?_
            have hstart := (ht'.mem hmem').1
            omega
          have hfirst' : b'.used = true → b' = b := fun hbu => by
            have hmem := (mem_useds.mp ((hu b').mpr (mem_useds.mpr ⟨by simp, hbu⟩))).1
            refine (List.mem_cons.mp hmem).resolve_right fun hmem' => ?_
            have hstart := (ht.mem hmem').1
            omega
          have hhead : b = b' := by
            cases hbu : b.used with
            | true => exact hfirst hbu
            | false =>
                cases hbu' : b'.used with
                | true => exact (hfirst' hbu').symm
                | false =>
                    have hle := stop_le_of_free h h' hc hbu hbu' fun c hmem => (hu c).mp hmem
                    have hge := stop_le_of_free h' h hc' hbu' hbu fun c hmem => (hu c).mpr hmem
                    have hstop : b.stop = b.addr + 16 + b.size := rfl
                    have hstop' : b'.stop = b'.addr + 16 + b'.size := rfl
                    have haddr : b.addr = b'.addr := hb.trans hb'.symm
                    have hsize : b.size = b'.size := by omega
                    cases b
                    cases b'
                    simp_all
          subst hhead
          have htail : bs = bs' := by
            refine ih ht ht' (List.isChain_cons.mp hc).2 (List.isChain_cons.mp hc').2 fun c => ?_
            have hcu := hu c
            rw [mem_useds, mem_useds, List.mem_cons, List.mem_cons] at hcu
            rw [mem_useds, mem_useds]
            constructor
            · rintro ⟨hmem, hused⟩
              refine ⟨(hcu.mp ⟨.inr hmem, hused⟩).1.resolve_left fun heq => ?_, hused⟩
              have hstart := (ht.mem hmem).1
              rw [heq] at hstart
              omega
            · rintro ⟨hmem, hused⟩
              refine ⟨(hcu.mpr ⟨.inr hmem, hused⟩).1.resolve_left fun heq => ?_, hused⟩
              have hstart := (ht'.mem hmem).1
              rw [heq] at hstart
              omega
          rw [htail]

/-! ### `free` of what is free -/

/-- Between two free blocks there is a used one. -/
theorem frees_apart {lo hi : Nat} {size : Nat → Nat} (h : BlocksTile lo bs hi) (hc : Coalesced bs)
    (hs : ∀ b ∈ bs, size b.addr = b.size) : (frees bs).Pairwise fun a b => a + size a + 16 < b := by
  induction bs generalizing lo with
  | nil => exact .nil
  | cons b bs ih =>
      obtain ⟨-, -, ht⟩ := h
      have htail := ih ht (List.isChain_cons.mp hc).2 fun c hmem => hs c (List.mem_cons_of_mem b hmem)
      cases hbu : b.used with
      | true =>
          rw [frees_cons_used hbu]
          exact htail
      | false =>
          rw [frees_cons_free hbu, List.pairwise_cons]
          refine ⟨fun f hf => ?_, htail⟩
          obtain ⟨c, hmem, hcf, rfl⟩ := mem_frees.mp hf
          have hsize := hs b (by simp)
          have hstop : b.stop = b.addr + 16 + b.size := rfl
          cases bs with
          | nil => cases hmem
          | cons n bs =>
              have hn := ((List.isChain_cons.mp hc).1 n rfl).resolve_left (by rw [hbu]; decide)
              obtain ⟨hstart, hlt, ht⟩ := ht
              rcases List.mem_cons.mp hmem with rfl | hmem
              · rw [hcf] at hn
                cases hn
              · have hafter := (ht.mem hmem).1
                omega

/-- The loop of `free` stops at a block that is in the list. -/
theorem insertFree_again {xs ys : List Nat} (hxs : ∀ x ∈ xs, x < t) :
    insertFree t (xs ++ t :: ys) = none := by
  induction xs with
  | nil => rw [List.nil_append, insertFree, if_neg (Nat.lt_irrefl t), if_pos rfl]
  | cons x xs ih =>
      rw [List.cons_append, insertFree, if_pos (hxs x (by simp)),
        ih fun y hy => hxs y (List.mem_cons_of_mem x hy)]
      rfl

/-- `join_memory` stops at a block that reaches into the next one. -/
theorem joinMemory_overlap {size : Nat → Nat} {fs ys : List Nat} {f x : Nat}
    (hfs : (fs ++ [f]).Pairwise fun a b => a + size a + 16 < b)
    (hlt : ∀ a ∈ fs ++ [f], a + size a + 16 < 2 ^ 32) (hx : x < f + size f + 16) :
    joinMemory size (fs ++ f :: x :: ys) = none := by
  induction fs with
  | nil =>
      have hlt := hlt f (by simp)
      rw [List.nil_append, joinMemory, joinFrom, Nat.mod_eq_of_lt hlt, if_pos hx]
  | cons a fs ih =>
      have ih := ih (List.pairwise_cons.mp hfs).2 fun b hb => hlt b (List.mem_cons_of_mem a hb)
      have ha := hlt a (by simp)
      rw [List.cons_append, joinMemory]
      cases fs with
      | nil =>
          have hf := (List.pairwise_cons.mp hfs).1 f (by simp)
          rw [List.nil_append] at ih ⊢
          rw [joinMemory] at ih
          rw [joinFrom, Nat.mod_eq_of_lt ha, if_neg (by omega), if_neg (by omega), ih]
          rfl
      | cons b fs =>
          have hb := (List.pairwise_cons.mp hfs).1 b (by simp)
          rw [List.cons_append] at ih ⊢
          rw [joinMemory] at ih
          rw [joinFrom, Nat.mod_eq_of_lt ha, if_neg (by omega), if_neg (by omega), ih]
          rfl

/-- `free` crashes on a block that lies in a free one. -/
theorem Layout.free_inside {b : Block} {x : Nat} (h : Layout brk base s live bs) (hmem : b ∈ bs)
    (hf : b.used = false) (hlo : b.addr ≤ x) (hhi : x < b.stop) : s.free (x + 16) = none := by
  obtain ⟨pre, post, rfl⟩ := List.append_of_mem hmem
  have hbounds := h.tiles.mem hmem
  have htop := h.top
  have hstop : b.stop = b.addr + 16 + b.size := rfl
  have hapart := frees_apart h.tiles h.coalesced h.sizes
  have hfree := h.firstFree
  rw [frees_append, frees_cons_free hf] at hapart hfree
  rw [Heap.free, if_neg (by omega), (by omega : (x + 16 + 2 ^ 32 - 16) % 2 ^ 32 = x), hfree]
  obtain ⟨hpre, hpost, hcross⟩ := List.pairwise_append.mp hapart
  have hbefore : ∀ f ∈ frees pre, f < b.addr := fun f hmem => by
    have hlt := hcross f hmem b.addr (by simp)
    omega
  rcases Nat.eq_or_lt_of_le hlo with rfl | hlo
  · rw [insertFree_again hbefore]
    rfl
  · have hsize := h.sizes b hmem
    have hinsert : insertFree x (frees pre ++ b.addr :: frees post) =
        some (frees pre ++ b.addr :: x :: frees post) := by
      rw [← List.singleton_append, ← List.append_assoc, insertFree_between, List.append_assoc]
      · rfl
      · intro f hmem
        rcases List.mem_append.mp hmem with hmem | hmem
        · exact (hbefore f hmem).trans hlo
        · rw [List.mem_singleton.mp hmem]
          exact hlo
      · intro f hmem
        have hlt := (List.pairwise_cons.mp hpost).1 f hmem
        omega
    have hsplit : frees pre ++ b.addr :: frees post = (frees pre ++ [b.addr]) ++ frees post := by simp
    rw [hsplit] at hapart hfree
    have hlt : ∀ a ∈ frees pre ++ [b.addr], a + s.size a + 16 < 2 ^ 32 := fun a hmem => by
      have hroom := h.firstFree_lt (hfree ▸ List.mem_append_left _ hmem)
      omega
    rw [hinsert, Option.bind_eq_bind, Option.bind_some,
      joinMemory_overlap (List.pairwise_append.mp hapart).1 hlt (by omega)]
    rfl

/-! ### What is in use -/

/-- What is free later, or is the caller's only later, was free, or has come from `sbrk`. -/
theorem Layout.unowned_of {c : Block} {n : Nat} (h : Layout brk base s live bs) (h' : Layout brk base s' live' bs')
    (hlive : live ⊆ live') (hgrows : ∀ b ∈ useds bs, s.size b.addr ≤ s'.size b.addr)
    (hbrk : brk s'.system ≤ brk s.system + n * 8240) (hc : c ∈ bs')
    (hnew : c.used = false ∨ c.addr + 16 ∉ live) (hlo : c.addr ≤ a) (hhi : a < c.stop) :
    Unowned brk n s a := by
  have hin := h'.tiles.mem hc
  rcases Nat.lt_or_ge a (brk s.system) with hold | hold
  · obtain ⟨b, hb, hblo, hbhi⟩ := h.tiles.cover (by omega : base ≤ a) hold
    have hbstop : b.stop = b.addr + 16 + b.size := rfl
    have hsize := h.sizes b hb
    cases hbu : b.used with
    | false =>
        have hmem : b.addr ∈ s.firstFree := h.firstFree ▸ mem_frees.mpr ⟨b, hb, hbu, rfl⟩
        exact .inl ⟨b.addr, hmem, hblo, by omega⟩
    -- the block is still in use, and there is another one
    | true =>
        have hbu' := mem_useds.mpr ⟨hb, hbu⟩
        have hbl : b.addr + 16 ∈ live := (h.live _).mpr ⟨b, hbu', rfl⟩
        obtain ⟨b', hb', haddr⟩ := (h'.live _).mp (hlive hbl)
        obtain ⟨hmem', hused'⟩ := mem_useds.mp hb'
        have haddr : b'.addr = b.addr := by omega
        have hsize' := h'.sizes b' hmem'
        have hgrows := hgrows b hbu'
        rw [haddr] at hsize'
        have hbstop' : b'.stop = b'.addr + 16 + b'.size := rfl
        exfalso
        rcases h'.tiles.apart hc hmem' with rfl | hle | hle
        · rcases hnew with hnew | hnew
          · rw [hused'] at hnew
            cases hnew
          · rw [haddr] at hnew
            exact hnew hbl
        · omega
        · omega
  · exact .inr ⟨hold, by omega⟩

/-! ### Sizes that stay -/

/-- Cutting a free block writes into that block alone. -/
theorem carve_frame {align sz x : Nat} (hspace : 16 ≤ alignSpace align t)
    (hfit : alignSpace align t + sz ≤ s.size t) (hlt : t + 16 + s.size t < 2 ^ 32)
    (hx : x < t ∨ t + 16 + s.size t ≤ x) : (s.carve align sz t).1.size x = s.size x := by
  unfold Heap.carve
  dsimp only
  generalize alignSpace align t = space at hspace hfit ⊢
  have hxt : x ≠ t := by omega
  have hblock : (t + space - 16) % 2 ^ 32 = t + space - 16 := Nat.mod_eq_of_lt (by omega)
  have hxb : x ≠ t + space - 16 := by omega
  split_ifs with h16 hrest hrest
  · rw [Nat.mod_eq_of_lt (by omega : t + 16 + sz < 2 ^ 32), setSize_of_ne _ _ (by omega),
      setSize_of_ne _ _ hxt]
  · rfl
  · rw [hblock, setSize_of_ne _ _ hxb, setSize_of_ne _ _ hxt]
  · rw [hblock, Nat.mod_eq_of_lt (by omega : t + space - 16 + 16 + sz < 2 ^ 32),
      setSize_of_ne _ _ (by omega), setSize_of_ne _ _ hxb, setSize_of_ne _ _ hxt]

/-- Cutting new memory writes into that memory alone. -/
theorem carveNew_frame (align sz : Nat) {x : Nat} (hspace : 16 ≤ alignSpace align t)
    (hbound : alignSpace align t < align + 48) (hlt : t + (sz + 48 + align) < 2 ^ 32) (hx : x < t) :
    (s.carveNew align sz t).1.size x = s.size x := by
  unfold Heap.carveNew
  dsimp only
  generalize alignSpace align t = space at hspace hbound ⊢
  have hxt : x ≠ t := by omega
  have hblock : (t + space - 16) % 2 ^ 32 = t + space - 16 := Nat.mod_eq_of_lt (by omega)
  have hxb : x ≠ t + space - 16 := by omega
  have hsum : (sz + 48 + align) % 2 ^ 32 = sz + 48 + align := Nat.mod_eq_of_lt (by omega)
  rw [hsum]
  split_ifs with h16 hrest hrest
  · rw [setSize_of_ne _ _ hxt, setSize_of_ne _ _ hxt]
  · omega
  · rw [hblock, setSize_of_ne _ _ hxb, setSize_of_ne _ _ hxt]
  · rw [hblock, Nat.mod_eq_of_lt (by omega : t + space - 16 + sz + 16 < 2 ^ 32),
      setSize_of_ne _ _ (by omega), setSize_of_ne _ _ hxb, setSize_of_ne _ _ hxt]

theorem freeRest_system {rest : Option Nat} (h : s.freeRest rest = some s') : s'.system = s.system := by
  cases rest with
  | none =>
      cases h
      rfl
  | some rest => exact free_system h

/-! ### A page -/

/-- A page that the caller gets: it is a block of its own, and what was in use stays so. -/
structure PageTaken (brk : σ → Nat) (base : Nat) (s : Heap σ) (live : Finset Nat) (bs : List Block)
    (p : Nat) (s' : Heap σ) : Prop where
  notMem : p ∉ live
  layout : ∃ bs', Layout brk base s' (insert p live) bs'
  aligned : 4096 ∣ p
  size : 4096 ≤ s'.size (p - 16)
  grows : ∀ b ∈ useds bs, s.size b.addr ≤ s'.size b.addr
  brk_ge : brk s.system ≤ brk s'.system
  brk_le : brk s'.system ≤ brk s.system + 8240

theorem roundSize_page : roundSize 4096 = 4096 := by decide

theorem page_bounds (t : Nat) : alignSpace 4096 t < 4096 + 48 ∧
    (4096 ∣ t + 16 ∧ alignSpace 4096 t = 16 ∨ ¬4096 ∣ t + 16 ∧ 32 ≤ alignSpace 4096 t) := by
  obtain ⟨hlt, hcase⟩ := alignSpace_bounds (k := 12) rfl (by decide) (by decide) t
  exact ⟨hlt, hcase.imp id fun h => ⟨h.1, h.2.2 (by decide)⟩⟩

/-- The block for a page. -/
theorem pageFit_some (h : alignedFit s.size 4096 4096 s.firstFree = some t) :
    t ∈ s.firstFree ∧ alignSpace 4096 t + 4096 ≤ s.size t := by
  obtain ⟨hmem, hle⟩ := alignedFit_some h
  have hlt := (page_bounds t).1
  rw [Nat.mod_eq_of_lt (by omega)] at hle
  exact ⟨hmem, hle⟩

/-- A used block lies outside of a free one. -/
theorem Layout.used_outside {b : Block} (h : Layout brk base s live bs) (ht : t ∈ s.firstFree)
    (hb : b ∈ useds bs) : b.addr < t ∨ t + 16 + s.size t ≤ b.addr := by
  rw [h.firstFree] at ht
  obtain ⟨f, hf, hff, rfl⟩ := mem_frees.mp ht
  obtain ⟨hmem, hu⟩ := mem_useds.mp hb
  have hsize := h.sizes f hf
  have hbounds := h.tiles.mem hmem
  have hstop : f.stop = f.addr + 16 + f.size := rfl
  rcases h.tiles.apart hmem hf with rfl | hle | hle
  · rw [hff] at hu
    cases hu
  · exact .inl (by omega)
  · exact .inr (by omega)

/-- A page from a free block. -/
theorem Layout.page_free (h : Layout brk base s live bs)
    (hfit : alignedFit s.size 4096 4096 s.firstFree = some t) (hnot : ¬4096 ∣ t + 16)
    (ha : s.alignedAlloc sbrk 4096 4096 = some (p, s')) :
    (∀ b ∈ useds bs, s.size b.addr ≤ s'.size b.addr) ∧ s'.system = s.system := by
  obtain ⟨hmem, hle⟩ := pageFit_some hfit
  have hspace := ((page_bounds t).2.resolve_left fun h => hnot h.1).2
  obtain ⟨s₁, rest, s₂, bs', hcarve, hfree, -, -, -, hgrows⟩ := h.carve hmem hspace hle
  unfold Heap.alignedAlloc at ha
  dsimp only at ha
  rw [if_neg (by decide), roundSize_page, hfit] at ha
  dsimp only at ha
  rw [hcarve] at ha
  obtain ⟨s₃, hs₃, ha⟩ := Option.bind_eq_some_iff.mp ha
  cases hfree.symm.trans hs₃
  cases ha
  have hs₁ : s₁ = (s.carve 4096 4096 t).1 := by rw [hcarve]
  refine ⟨fun b hb => ?_, ?_⟩
  · have hframe := carve_frame (by omega) hle (h.firstFree_lt hmem) (h.used_outside hmem hb)
    rw [← hs₁] at hframe
    rw [← hframe]
    exact hgrows b.addr
  · rw [freeRest_system hfree, hs₁]
    unfold Heap.carve
    dsimp only
    split_ifs <;> rfl

/-- A page from new memory. -/
theorem Layout.page_new (hb : SignedBreak sbrk brk) (h : Layout brk base s live bs)
    (hfit : alignedFit s.size 4096 4096 s.firstFree = none)
    (ha : s.alignedAlloc sbrk 4096 4096 = some (p, s')) :
    (∀ b ∈ useds bs, s.size b.addr ≤ s'.size b.addr) ∧ brk s'.system = brk s.system + 8240 := by
  unfold Heap.alignedAlloc at ha
  dsimp only at ha
  rw [if_neg (by decide), roundSize_page, hfit] at ha
  dsimp only at ha
  obtain ⟨⟨t, s₀⟩, he, ha⟩ := Option.bind_eq_some_iff.mp ha
  obtain ⟨⟨t', x⟩, hs, he⟩ := Option.bind_eq_some_iff.mp he
  dsimp only at he
  split at he
  · cases he
  cases he
  obtain ⟨rfl, hx⟩ := hb.moves hs
  have hx : brk x = brk s.system + (4096 + 48 + 4096) := by
    rw [toInt_small (by decide)] at hx
    omega
  have haddr := hb.addr x
  obtain ⟨hlt, hcase⟩ := page_bounds (brk s.system)
  obtain ⟨s₁, front, rest, s₂, s₃, bs', hcarve, hf₁, hf₂, -, -, -, hgrows⟩ :=
    h.carveNew hx haddr (hcase.imp And.right And.right) hlt
  dsimp only at ha
  rw [hcarve] at ha
  obtain ⟨s₄, hs₄, ha⟩ := Option.bind_eq_some_iff.mp ha
  cases hf₁.symm.trans hs₄
  obtain ⟨s₅, hs₅, ha⟩ := Option.bind_eq_some_iff.mp ha
  cases hf₂.symm.trans hs₅
  cases ha
  have hs₁ : s₁ = ({ s with system := x }.carveNew 4096 4096 (brk s.system)).1 := by rw [hcarve]
  refine ⟨fun b hbu => ?_, ?_⟩
  · have hin := h.tiles.mem (mem_useds.mp hbu).1
    have hframe := carveNew_frame (s := { s with system := x }) 4096 4096
      (t := brk s.system) (x := b.addr) (by omega) hlt (by omega) (by omega)
    rw [← hs₁] at hframe
    exact hframe.symm.le.trans (hgrows b.addr)
  · rw [freeRest_system hf₂, freeRest_system hf₁, hs₁, ← hx]
    unfold Heap.carveNew
    dsimp only
    split_ifs <;> rfl

/-- The page of a block that does not stay on the list. -/
theorem Layout.page (hb : SignedBreak sbrk brk) (h : Layout brk base s live bs) (hnot : ¬PageReused s)
    (ha : s.alignedAlloc sbrk 4096 4096 = some (p, s')) : PageTaken brk base s live bs p s' := by
  have hup : s.alignedAlloc (upward sbrk) 4096 4096 = some (p, s') := by
    rw [← ha, Heap.alignedAlloc, Heap.alignedAlloc, extend_upward _ (by decide)]
  have hvalid : Valid (⟨s, live⟩ : Client σ) (.alignedAlloc 4096 4096) :=
    ⟨⟨12, rfl⟩, by decide, by decide⟩
  obtain ⟨hcarves, hstraight, hgrows, hge, hle⟩ :
      CarvesOk brk (⟨s, live⟩ : Client σ) (.alignedAlloc 4096 4096) ∧ Straight brk s 4096 4096 ∧
        (∀ b ∈ useds bs, s.size b.addr ≤ s'.size b.addr) ∧ brk s.system ≤ brk s'.system ∧
          brk s'.system ≤ brk s.system + 8240 := by
    have hmax : max 4096 16 = 4096 := rfl
    simp only [CarvesOk, Straight, hmax, roundSize_page]
    cases hfit : alignedFit s.size 4096 4096 s.firstFree with
    | some t =>
        have hdvd : ¬4096 ∣ t + 16 := fun hd => hnot ⟨t, hfit, hd⟩
        obtain ⟨hgrows, hsys⟩ := h.page_free hfit hdvd ha
        rw [hsys]
        exact ⟨⟨by decide, hdvd⟩, .inl (by decide), hgrows, Nat.le_refl _, Nat.le_add_right _ _⟩
    | none =>
        obtain ⟨hgrows, hbrk⟩ := h.page_new hb hfit ha
        have htop := hb.addr s'.system
        exact ⟨.inl (by decide), ⟨.inl (by decide), by decide, by omega⟩, hgrows, by omega, hbrk.le⟩
  obtain ⟨hmem, bs', hl⟩ := h.alignedAlloc (c := ⟨s, live⟩) hb.contiguous hvalid hcarves hup
  have hgeo := (geometric_iff hb.wrapping h ⟨12, rfl⟩ (by decide) (by decide) ha).mpr hstraight
  obtain ⟨b, hbu, hbp⟩ := (hl.live p).mp (Finset.mem_insert_self p live)
  have hlt := hl.size_lt hbu
  have htop := hl.top
  have hheader := hgeo.header
  rw [(by omega : (p + 2 ^ 32 - 16) % 2 ^ 32 = p - 16)] at hheader
  exact ⟨hmem, ⟨bs', hl⟩, hgeo.aligned, hheader, hgrows, hge, hle⟩

/-- The page of a block that stays on the list: everything is as it was. -/
theorem Layout.page_reused (sbrk : Sbrk σ) (h : Layout brk base s live bs)
    (hfit : alignedFit s.size 4096 4096 s.firstFree = some t) (hdvd : 4096 ∣ t + 16) :
    ∃ s', s.alignedAlloc sbrk 4096 4096 = some (t + 16, s') ∧ Layout brk base s' live bs ∧
      s'.system = s.system := by
  obtain ⟨hmem, hle⟩ := pageFit_some hfit
  have hspace := ((page_bounds t).2.resolve_right fun h => h.1 hdvd).2
  rw [hspace] at hle
  have hlt := h.firstFree_lt hmem
  obtain ⟨xs, ys, hfs⟩ := List.append_of_mem hmem
  obtain ⟨pre, b, post, rfl, hf, rfl, rfl, rfl⟩ := frees_split (h.firstFree.symm.trans hfs)
  have hb : b ∈ pre ++ b :: post := by simp
  have hsize := h.sizes b hb
  have hbounds := h.tiles.mem hb
  have hbstop : b.stop = b.addr + 16 + b.size := rfl
  unfold Heap.alignedAlloc
  dsimp only
  rw [if_neg (by decide), roundSize_page, hfit]
  dsimp only
  unfold Heap.carve
  dsimp only
  rw [if_pos hspace, hsize]
  rw [hsize] at hle hlt
  split_ifs with hrest
  -- the end of the block is cut off, given back, and joined to it again
  · rw [Nat.mod_eq_of_lt (by omega : b.addr + 16 + 4096 < 2 ^ 32)]
    generalize hs₁ : (s.setSize b.addr 4096).setSize (b.addr + 16 + 4096) (b.size - 4096 - 16) = s₁
    have hmid : BlocksTile b.addr
        [⟨b.addr, 4096, false⟩, ⟨b.addr + 16 + 4096, b.size - 4096 - 16, true⟩] b.stop := by
      simp only [Tiles, Block.stop, true_and]
      omega
    have hlay : Layout brk base s₁ (insert (b.addr + 16 + 4096 + 16) live)
        (pre ++ [⟨b.addr, 4096, false⟩, ⟨b.addr + 16 + 4096, b.size - 4096 - 16, true⟩] ++ post) := by
      subst hs₁
      refine h.splice hf hmid ?_ rfl ?_ (fun x hx => ?_) ?_ fun p => ?_
      · exact List.isChain_cons.mpr ⟨fun y hy => .inr (by cases hy; rfl), .singleton _⟩
      · intro c hc
        rcases List.mem_cons.mp hc with rfl | hc
        · rw [setSize_of_ne _ _ (by omega : b.addr ≠ b.addr + 16 + 4096), setSize_self]
        · rw [List.mem_singleton.mp hc, setSize_self]
      · rw [setSize_of_ne _ _ (by omega), setSize_of_ne _ _ (by omega)]
      · change s.firstFree = _
        rw [hfs]
        simp [frees]
      · simp [useds, eq_comm, or_comm]
    have hnot : b.addr + 16 + 4096 + 16 ∉ live := h.notMem_inside hb hf (by omega) (by omega)
    obtain ⟨s₂, bs₂, hfree, hsys, hl, hkept, -⟩ := hlay.free (Finset.mem_insert_self _ live)
    rw [Finset.erase_insert hnot] at hl
    have hsys₁ : s₁.system = s.system := by rw [← hs₁]; rfl
    have hold : ∀ c ∈ useds (pre ++ b :: post), c ∈ useds bs₂ := fun c hc => by
      refine hkept c ?_ fun heq => hnot (heq ▸ (h.live _).mpr ⟨c, hc, rfl⟩)
      rw [useds_append, useds_cons_free hf] at hc
      rw [useds_append, useds_append]
      exact List.mem_append.mpr ((List.mem_append.mp hc).imp (List.mem_append_left _) id)
    have hsame : bs₂ = pre ++ b :: post := by
      have htiles := hl.tiles
      rw [hsys, hsys₁] at htiles
      refine coalesced_unique htiles h.tiles hl.coalesced h.coalesced fun c => ⟨fun hc => ?_, hold c⟩
      obtain ⟨c', hc', haddr⟩ := (h.live _).mp ((hl.live _).mpr ⟨c, hc, rfl⟩)
      have hmem := (mem_useds.mp hc).1
      have hmem' := (mem_useds.mp (hold c' hc')).1
      have hlt₁ := (htiles.mem hmem).2.1
      have hlt₂ := (htiles.mem hmem').2.1
      rcases htiles.apart hmem hmem' with rfl | hle' | hle'
      · exact hc'
      · omega
      · omega
    refine ⟨s₂, ?_, hsame ▸ hl, hsys.trans hsys₁⟩
    rw [Heap.freeRest, Nat.mod_eq_of_lt (by omega), hfree]
    simp only [Option.bind_eq_bind, Option.bind_some, Option.some.injEq, Prod.mk.injEq, and_true]
    omega
  · refine ⟨s, ?_, h, rfl⟩
    rw [Heap.freeRest]
    simp only [Option.bind_eq_bind, Option.bind_some, Option.some.injEq, Prod.mk.injEq, and_true]
    omega

/-! ### Where pages are -/

/-- The page is in a block, which has nothing of what the caller had. -/
theorem PageTaken.block (ht : PageTaken brk base s live bs p s') :
    ∃ bs' b, Layout brk base s' (insert p live) bs' ∧ b ∈ useds bs' ∧ b.addr + 16 = p ∧ 4096 ≤ b.size := by
  obtain ⟨bs', hl⟩ := ht.layout
  obtain ⟨b, hb, hp⟩ := (hl.live p).mp (Finset.mem_insert_self p live)
  have hsize := ht.size
  rw [(by omega : p - 16 = b.addr), hl.sizes b (mem_useds.mp hb).1] at hsize
  exact ⟨bs', b, hl, hb, hp, hsize⟩

theorem PageTaken.unowned (h : Layout brk base s live bs) (ht : PageTaken brk base s live bs p s')
    (hlo : p ≤ a) (hhi : a < p + 4096) : Unowned brk 1 s a := by
  obtain ⟨bs', b, hl, hb, hp, hsize⟩ := ht.block
  have hbstop : b.stop = b.addr + 16 + b.size := rfl
  have hle := ht.brk_le
  exact h.unowned_of hl (Finset.subset_insert p live) ht.grows (by omega) (mem_useds.mp hb).1
    (.inr (hp ▸ ht.notMem)) (by omega) (by omega)

/-- A page that stays on the list. -/
theorem unowned_reused (hfit : alignedFit s.size 4096 4096 s.firstFree = some t) (hdvd : 4096 ∣ t + 16)
    (hlo : t + 16 ≤ a) (hhi : a < t + 16 + 4096) : Unowned brk 1 s a := by
  obtain ⟨hmem, hle⟩ := pageFit_some hfit
  exact .inl ⟨t, hmem, by omega, by omega⟩

/-- What is unowned after a page has been taken was so before, and is not in the page. -/
theorem PageTaken.unowned_after (h : Layout brk base s live bs) (ht : PageTaken brk base s live bs p s')
    (hu : Unowned brk 1 s' a) : Unowned brk 2 s a ∧ (a < p ∨ p + 4096 ≤ a) := by
  obtain ⟨bs', b, hl, hb, hp, hsize⟩ := ht.block
  have hbstop : b.stop = b.addr + 16 + b.size := rfl
  have hle := ht.brk_le
  have hge := ht.brk_ge
  have hbin := hl.size_lt hb
  rcases hu with ⟨f, hf, hflo, hfhi⟩ | ⟨hlo, hhi⟩
  · have hout := hl.used_outside hf hb
    rw [hl.firstFree] at hf
    obtain ⟨c, hc, hcf, rfl⟩ := mem_frees.mp hf
    have hcsize := hl.sizes c hc
    have hcstop : c.stop = c.addr + 16 + c.size := rfl
    have hbb := mem_useds.mp hb
    refine ⟨h.unowned_of hl (Finset.subset_insert p live) ht.grows (by omega) hc (.inl hcf) hflo
      (by omega), ?_⟩
    rcases hl.tiles.apart hc hbb.1 with rfl | hle' | hle'
    · rw [hbb.2] at hcf
      cases hcf
    · omega
    · omega
  · exact ⟨.inr ⟨by omega, by omega⟩, by omega⟩

theorem Unowned.mono {m n : Nat} (hmn : m ≤ n) (h : Unowned brk m s a) : Unowned brk n s a := by
  rcases h with h | ⟨hlo, hhi⟩
  · exact .inl h
  · refine .inr ⟨hlo, Nat.lt_of_lt_of_le hhi (Nat.add_le_add_left ?_ _)⟩
    exact Nat.mul_le_mul_right _ hmn

/-- Whatever block it comes from, a page lies at a page boundary and where nobody has anything. -/
theorem Layout.page_spec (hb : SignedBreak sbrk brk) (h : Layout brk base s live bs)
    (ha : s.alignedAlloc sbrk 4096 4096 = some (p, s')) :
    4096 ∣ p ∧ (∀ a, p ≤ a → a < p + 4096 → Unowned brk 1 s a) ∧
      ∃ live' bs', Layout brk base s' live' bs' := by
  by_cases hreused : PageReused s
  · obtain ⟨t, hfit, hdvd⟩ := hreused
    obtain ⟨s₁, ha₁, hl, -⟩ := h.page_reused sbrk hfit hdvd
    cases ha₁.symm.trans ha
    exact ⟨hdvd, fun a hlo hhi => unowned_reused hfit hdvd hlo hhi, live, bs, hl⟩
  · have ht := h.page hb hreused ha
    obtain ⟨bs', hl⟩ := ht.layout
    exact ⟨ht.aligned, fun a hlo hhi => ht.unowned h hlo hhi, insert p live, bs', hl⟩

/-- There is a page if `sbrk` has memory for it. -/
theorem Layout.page_exists {x : σ} (hb : SignedBreak sbrk brk) (h : Layout brk base s live bs)
    (hs : sbrk s.system 8240 = some (t, x)) (ht : t ≠ 0) :
    ∃ p s', s.alignedAlloc sbrk 4096 4096 = some (p, s') := by
  unfold Heap.alignedAlloc
  dsimp only
  rw [if_neg (by decide), roundSize_page]
  cases hfit : alignedFit s.size 4096 4096 s.firstFree with
  | some f =>
      by_cases hdvd : 4096 ∣ f + 16
      · obtain ⟨s', ha, -⟩ := h.page_reused sbrk hfit hdvd
        unfold Heap.alignedAlloc at ha
        dsimp only at ha
        rw [if_neg (by decide), roundSize_page, hfit] at ha
        exact ⟨_, _, ha⟩
      · obtain ⟨hmem, hle⟩ := pageFit_some hfit
        have hspace := ((page_bounds f).2.resolve_left fun h => hdvd h.1).2
        obtain ⟨s₁, rest, s₂, bs', hcarve, hfree, -⟩ := h.carve hmem hspace hle
        dsimp only
        rw [hcarve, hfree]
        exact ⟨_, _, rfl⟩
  | none =>
      obtain ⟨rfl, hx⟩ := hb.moves hs
      have hx : brk x = brk s.system + (4096 + 48 + 4096) := by
        rw [toInt_small (by decide)] at hx
        omega
      obtain ⟨hlt, hcase⟩ := page_bounds (brk s.system)
      obtain ⟨s₁, front, rest, s₂, s₃, bs', hcarve, hf₁, hf₂, -⟩ :=
        h.carveNew hx (hb.addr x) (hcase.imp And.right And.right) hlt
      have hextend : s.extend sbrk (4096 + 48 + 4096) = some (brk s.system, { s with system := x }) := by
        rw [Heap.extend, Nat.mod_eq_of_lt (by decide), hs]
        exact if_neg ht
      dsimp only
      rw [hextend, Option.bind_eq_bind, Option.bind_some, hcarve, hf₁, Option.bind_eq_bind, Option.bind_some,
        hf₂]
      exact ⟨_, _, rfl⟩

/-- After a page that stays on the list comes the same one. -/
theorem Layout.page_again (h : Layout brk base s live bs) (h' : Layout brk base s' live bs)
    (hfit : alignedFit s.size 4096 4096 s.firstFree = some t) :
    alignedFit s'.size 4096 4096 s'.firstFree = some t := by
  have hsame : ∀ f ∈ s.firstFree, s'.size f = s.size f := fun f hf => by
    rw [h.firstFree] at hf
    obtain ⟨b, hb, -, rfl⟩ := mem_frees.mp hf
    rw [h'.sizes b hb, h.sizes b hb]
  rw [← hfit, alignedFit, alignedFit, h'.firstFree.trans h.firstFree.symm]
  refine List.find?_congr fun f hf => ?_
  rw [hsame f hf]

/-! ### Giving pages back -/

/-- What was free is free after another block has been given back. -/
theorem Layout.free_still {b : Block} {x : Nat} (h : Layout brk base s live bs) (hp : p ∈ live)
    (hfree : s.free p = some s') (hb : b ∈ bs) (hf : b.used = false) (hlo : b.addr ≤ x) (hhi : x < b.stop) :
    s'.free (x + 16) = none := by
  obtain ⟨s₁, bs₁, heq, hsys, hl, hkept, -⟩ := h.free hp
  cases heq.symm.trans hfree
  have hbin := h.tiles.mem hb
  obtain ⟨c, hc, hclo, hchi⟩ := hl.tiles.cover (by omega : base ≤ x) (by rw [hsys]; omega)
  cases hcu : c.used with
  | false => exact hl.free_inside hc hcu hclo hchi
  -- a used block has been there before
  | true =>
      exfalso
      have hmem := Finset.mem_erase.mp ((hl.live _).mpr ⟨c, mem_useds.mpr ⟨hc, hcu⟩, rfl⟩)
      obtain ⟨c', hc', haddr⟩ := (h.live _).mp hmem.2
      have hold := mem_useds.mp (hkept c' hc' (haddr.trans_ne hmem.1))
      have hlt := (hl.tiles.mem hc).2.1
      have hlt' := (hl.tiles.mem hold.1).2.1
      have hsame : c = c' := by
        rcases hl.tiles.apart hc hold.1 with heq | hle | hle
        · exact heq
        · omega
        · omega
      subst hsame
      rcases h.tiles.apart (mem_useds.mp hc').1 hb with rfl | hle | hle
      · rw [hf] at hcu
        cases hcu
      · omega
      · omega

/-- A page that stays on the list cannot be given back. -/
theorem Layout.free_reused (sbrk : Sbrk σ) (h : Layout brk base s live bs) (hreused : PageReused s) :
    ∃ t s' b, s.alignedAlloc sbrk 4096 4096 = some (t + 16, s') ∧ Layout brk base s' live bs ∧ b ∈ bs ∧
      b.used = false ∧ b.addr = t ∧ alignedFit s.size 4096 4096 s.firstFree = some t ∧ 4096 ∣ t + 16 ∧
        s'.free (t + 16) = none := by
  obtain ⟨t, hfit, hdvd⟩ := hreused
  obtain ⟨s', ha, hl, -⟩ := h.page_reused sbrk hfit hdvd
  have hmem := (pageFit_some hfit).1
  rw [h.firstFree] at hmem
  obtain ⟨b, hb, hf, haddr⟩ := mem_frees.mp hmem
  have hlt := (h.tiles.mem hb).2.1
  exact ⟨t, s', b, ha, hl, hb, hf, haddr, hfit, hdvd,
    hl.free_inside hb hf (Nat.le_of_eq haddr) (by omega)⟩

/-- A page can be given back. -/
theorem PageTaken.free (ht : PageTaken brk base s live bs p s') :
    ∃ s₁ bs₁, s'.free p = some s₁ ∧ Layout brk base s₁ live bs₁ := by
  obtain ⟨bs', hl⟩ := ht.layout
  obtain ⟨s₁, bs₁, hfree, -, hl₁, -, -⟩ := hl.free (Finset.mem_insert_self p live)
  rw [Finset.erase_insert ht.notMem] at hl₁
  exact ⟨s₁, bs₁, hfree, hl₁⟩

end Muxomucota.Stdlib
