import Muxomucota.Lib.Runs
import Muxomucota.Memory.Kmalloc

/-!
# Memory — krealloc

The blocks of the kernel through any run of `kmalloc`, `kfree` and `krealloc`.  The header of a live
block always stands for the number of its frames, so `kfree` is right; but where a block stays,
`krealloc` forgets that the header takes four bytes, and where it moves, the old block is never
freed.  What it should do it does if and only if the new size and the header fit the frames that the
block has.
-/

namespace Muxomucota.Memory
open Mmu Pmm Lib

variable {s s' : KernelMem} {b c : Block} {size i j f : Nat} {r : Realloc}

/-! ### Runs -/

/-- Kernel memory, and the blocks that are live. -/
structure KernelHeap where
  heap : KernelMem
  blocks : List Block

inductive HeapAct where
  | kmalloc (size : Nat)
  | kfree (i : Nat)
  | krealloc (i size : Nat)
  /-- anything else that happens to memory and the window -/
  | elsewhere (s : KernelMem)

/-- The block behind the address that `krealloc` returns. -/
def Block.after (b : Block) (size : Nat) (r : Realloc) : Block := r.fresh.getD { b with size := size }

namespace KernelHeap

/-- One call, on block `i` of the list. -/
def step (h : KernelHeap) : HeapAct → Option KernelHeap
  | .kmalloc size => (kmalloc h.heap size).map fun r => ⟨r.2, r.1 :: h.blocks⟩
  | .kfree i => h.blocks[i]?.bind fun b =>
      (kfree h.heap b.ptr).map fun s => ⟨s, h.blocks.eraseIdx i⟩
  | .krealloc i size => h.blocks[i]?.bind fun b =>
      (krealloc h.heap b.ptr size).map fun r => ⟨r.heap, b.after size r :: h.blocks.eraseIdx i⟩
  | .elsewhere s => some ⟨s, h.blocks⟩

/-- A change that leaves the entries, the counts and the headers of live blocks alone. -/
structure Spares (h : KernelHeap) (s : KernelMem) : Prop where
  same : SameFrames h.heap.mem.pmm s.mem.pmm
  entries : ∀ b ∈ h.blocks, ∀ j < b.frames.length, s.kpt (b.first + j) = h.heap.kpt (b.first + j)
  users : ∀ b ∈ h.blocks, ∀ f ∈ b.frames, s.mem.pmm.users f = h.heap.mem.pmm.users f
  headers : ∀ b ∈ h.blocks, ∀ f, b.frames[0]? = some f →
    s.mem.ram.word f 0 = h.heap.mem.ram.word f 0

/-- The size that `krealloc` gets leaves room for the header below 4 GiB. -/
def SizesFit (h : KernelHeap) : HeapAct → Prop
  | .krealloc _ size => size + 4 < 2 ^ 32
  | .elsewhere s => h.Spares s
  | _ => True

/-- Live blocks have their frames to themselves. -/
structure Inv (h : KernelHeap) : Prop where
  live : ∀ b ∈ h.blocks, Live h.heap b
  apart : h.blocks.Pairwise fun b c => b.frames.Disjoint c.frames
  small : h.heap.mem.pmm.memBase + h.heap.mem.pmm.memEntries ≤ 2 ^ 20

variable {h : KernelHeap} {bs : List Block}

theorem Inv.perm (hi : Inv ⟨s, bs⟩) {bs' : List Block} (hp : bs.Perm bs') : Inv ⟨s, bs'⟩ where
  live b hb := hi.live b (hp.mem_iff.mpr hb)
  apart := (hp.pairwise_iff fun hd => hd.symm).mp hi.apart
  small := hi.small

/-- A block of the list, in front. -/
theorem Inv.front (hi : Inv h) (hb : h.blocks[i]? = some b) :
    Inv ⟨h.heap, b :: h.blocks.eraseIdx i⟩ := by
  obtain ⟨hlt, rfl⟩ := List.getElem?_eq_some_iff.mp hb
  exact hi.perm (List.getElem_cons_eraseIdx_perm hlt).symm

theorem Inv.tail (hi : Inv ⟨s, b :: bs⟩) : Inv ⟨s, bs⟩ where
  live c hc := hi.live c (List.mem_cons_of_mem b hc)
  apart := (List.pairwise_cons.mp hi.apart).2
  small := hi.small

theorem Inv.disjoint (hi : Inv ⟨s, b :: bs⟩) (hc : c ∈ bs) : b.frames.Disjoint c.frames :=
  (List.pairwise_cons.mp hi.apart).1 c hc

end KernelHeap

/-- Entry `v` of the window belongs to the block. -/
def Block.Covers (b : Block) (v : Nat) : Prop := b.first ≤ v ∧ v < b.first + b.frames.length

theorem Live.covers (h : Live s b) {v : Nat} (hv : b.Covers v) :
    ∃ f ∈ b.frames, s.kpt v = entry f kernelFlags := by
  have hlt : v - b.first < b.frames.length := by
    have := hv.2
    have := hv.1
    omega
  have hf := List.getElem?_eq_getElem hlt
  refine ⟨_, List.getElem_mem hlt, ?_⟩
  have hent := h.entries _ _ hf
  rwa [Nat.add_sub_cancel' hv.1] at hent

theorem Live.not_np (h : Live s b) {v : Nat} (hv : b.Covers v) : s.kpt v ≠ mapNp := by
  obtain ⟨f, -, he⟩ := h.covers hv
  intro hnp
  have hpr := isPr_kernelEntry f
  rw [← he, hnp] at hpr
  cases hpr

/-- Blocks with different frames have different entries. -/
theorem Live.apart (hb : Live s b) (hc : Live s c) (hd : b.frames.Disjoint c.frames) {v : Nat}
    (hv : c.Covers v) : ¬ b.Covers v := by
  intro hv'
  obtain ⟨f, hf, he⟩ := hb.covers hv'
  obtain ⟨g, hg, he'⟩ := hc.covers hv
  have hfg := congrArg frameOf (he.symm.trans he')
  rw [frameOf_entry (hb.small f hf) isFlags_kernelFlags,
    frameOf_entry (hc.small g hg) isFlags_kernelFlags] at hfg
  exact hd hf (hfg ▸ hg)

theorem Block.covers_add (hj : j < b.frames.length) : b.Covers (b.first + j) :=
  ⟨by omega, by omega⟩

namespace KernelHeap

variable {h h' : KernelHeap} {bs : List Block}

/-- A new block. -/
theorem Inv.add (hi : Inv ⟨s, bs⟩) (ha : Allocated s size b s') : Inv ⟨s', b :: bs⟩ := by
  have hfresh : ∀ c ∈ bs, b.frames.Disjoint c.frames := by
    intro c hc f hf hf'
    have hu := (hi.live c hc).users f hf'
    rw [ha.fresh f hf] at hu
    cases hu
  refine ⟨fun c hc => ?_, List.pairwise_cons.mpr ⟨hfresh, hi.apart⟩, ?_⟩
  · rcases List.mem_cons.mp hc with rfl | hc
    · exact ha.live
    · have hlive := hi.live c hc
      refine hlive.of_same (fun j hj => ha.kpt _ fun hv => ?_) (fun f hf => ?_) fun f hf => ?_
      · refine hlive.not_np (Block.covers_add hj) ?_
        have hfree := ha.free (c.first + j - b.first) (by omega)
        rwa [Nat.add_sub_cancel' hv.1] at hfree
      · rw [ha.users, if_neg fun hf' => hfresh c hc hf' hf]
      · exact Ram.word_congr
          (ha.ram f fun hf' => hfresh c hc hf' (List.mem_of_getElem? hf)) 0
  · have hsmall : s.mem.pmm.memBase + s.mem.pmm.memEntries ≤ 2 ^ 20 := hi.small
    show s'.mem.pmm.memBase + s'.mem.pmm.memEntries ≤ 2 ^ 20
    rwa [ha.same.1, ha.same.2]

/-- A block is freed. -/
theorem Inv.remove (hi : Inv ⟨s, b :: bs⟩) (hf : Freed s b s') : Inv ⟨s', bs⟩ := by
  have hb := hi.live b (List.mem_cons_self ..)
  refine ⟨fun c hc => ?_, hi.tail.apart, ?_⟩
  · have hlive := hi.live c (List.mem_cons_of_mem b hc)
    have hd := hi.disjoint hc
    refine hlive.of_same (fun j hj => ?_) (fun f hf' => ?_) fun f hf' => ?_
    · rw [hf.kpt]
      exact if_neg (hb.apart hlive hd (Block.covers_add hj))
    · rw [hf.users, if_neg fun hmem => hd hmem hf']
    · rw [hf.ram]
  · have hsmall : s.mem.pmm.memBase + s.mem.pmm.memEntries ≤ 2 ^ 20 := hi.small
    show s'.mem.pmm.memBase + s'.mem.pmm.memEntries ≤ 2 ^ 20
    rwa [hf.same.1, hf.same.2]

/-- The bytes of a block change, or its size. -/
theorem Inv.change (hi : Inv ⟨s, b :: bs⟩) (hlive : Live s' c) (hframes : c.frames = b.frames)
    (hkpt : s'.kpt = s.kpt) (hpmm : s'.mem.pmm = s.mem.pmm)
    (hram : ∀ g, g ∉ b.frames → s'.mem.ram g = s.mem.ram g) : Inv ⟨s', c :: bs⟩ := by
  refine ⟨fun d hd => ?_, ?_, ?_⟩
  · rcases List.mem_cons.mp hd with rfl | hd
    · exact hlive
    · refine (hi.live d (List.mem_cons_of_mem b hd)).of_same (fun j _ => by rw [hkpt])
        (fun f _ => by rw [hpmm]) fun f hf => ?_
      exact Ram.word_congr (hram f fun hf' => hi.disjoint hd hf' (List.mem_of_getElem? hf)) 0
  · refine List.pairwise_cons.mpr ⟨fun d hd => ?_, hi.tail.apart⟩
    rw [hframes]
    exact hi.disjoint hd
  · have hsmall : s.mem.pmm.memBase + s.mem.pmm.memEntries ≤ 2 ^ 20 := hi.small
    show s'.mem.pmm.memBase + s'.mem.pmm.memEntries ≤ 2 ^ 20
    rwa [hpmm]

theorem Inv.elsewhere (hi : Inv h) (hs : h.Spares s) : Inv ⟨s, h.blocks⟩ where
  live b hb := (hi.live b hb).of_same (hs.entries b hb) (hs.users b hb) (hs.headers b hb)
  apart := hi.apart
  small := by
    have hsmall := hi.small
    show s.mem.pmm.memBase + s.mem.pmm.memEntries ≤ 2 ^ 20
    rwa [hs.same.1, hs.same.2]

end KernelHeap

/-! ### What krealloc does -/

/-- The block stays: only the header may change. -/
structure Stays (s : KernelMem) (b : Block) (r : Realloc) : Prop where
  fresh : r.fresh = none
  ptr : r.ptr = b.ptr
  copied : r.copied = 0
  live : Live r.heap b
  kpt : r.heap.kpt = s.kpt
  pmm : r.heap.mem.pmm = s.mem.pmm
  ram : ∀ g, g ∉ b.frames → r.heap.mem.ram g = s.mem.ram g
  kept : ∀ i, i + 4 < 4096 * b.frames.length → r.heap.load (b.ptr + i) = s.load (b.ptr + i)

/-- The block moves: there is a new one, and the bytes that the old header names go there. -/
structure Moves (s : KernelMem) (b : Block) (size csz : Nat) (r : Realloc) (c : Block)
    (s₁ : KernelMem) : Prop where
  fresh : r.fresh = some c
  ptr : r.ptr = c.ptr
  copied : r.copied = csz
  le : csz ≤ size
  alloc : kmalloc s size = some (c, s₁)
  copy : s₁.memcpy c.ptr b.ptr csz = some r.heap

theorem stays_refl (h : Live s b) : Stays s b ⟨b.ptr, none, 0, s⟩ :=
  ⟨rfl, rfl, rfl, h, rfl, rfl, fun _ _ => rfl, fun _ _ => rfl⟩

theorem stays_setHeader (h : Live s b) (hf : b.frames[0]? = some f) {w : BitVec 32}
    (hw : frameCount w.toNat = b.frames.length) :
    Stays s b ⟨b.ptr, none, 0, { s with mem := { s.mem with ram := s.mem.ram.setWord f 0 w } }⟩ := by
  refine ⟨rfl, rfl, rfl, h.setHeader hf hw, rfl, rfl, fun g hg => ?_, fun i hi => ?_⟩
  · exact Ram.setWord_frame _ 0 _ fun heq => hg (heq ▸ List.mem_of_getElem? hf)
  · have hj : (i + 4) / 4096 < b.frames.length := by omega
    have hg := List.getElem?_eq_getElem hj
    have hoff : (b.ptr + i) % 4096 = (i + 4) % 4096 := by
      rw [h.ptr]
      unfold hmemBase
      omega
    rw [KernelMem.load, KernelMem.load, (h.setHeader hf hw).frameAt_ptr hg, h.frameAt_ptr hg,
      Option.map_some, Option.map_some, hoff]
    dsimp only
    rw [Ram.setWord_apply]
    -- a byte of the first frame lies behind the header
    have hbehind : b.frames[(i + 4) / 4096] = f → 4 ≤ (i + 4) % 4096 := by
      intro heq
      obtain ⟨hl, he⟩ := List.getElem?_eq_some_iff.mp hf
      have hzero := (h.nodup.getElem_inj_iff).mp (heq.trans he.symm)
      omega
    rw [if_neg fun hc => by have := hbehind hc.1; omega,
      if_neg fun hc => by have := hbehind hc.1; omega,
      if_neg fun hc => by have := hbehind hc.1; omega,
      if_neg fun hc => by have := hbehind hc.1; omega]

/-- What `krealloc` of a live block comes to; `w` is its header. -/
theorem krealloc_cases (h : Live s b) (hf : b.frames[0]? = some f)
    (hk : krealloc s b.ptr size = some r) (hsize : size < 2 ^ 32) :
    (size < (s.mem.ram.word f 0).toNat ∨ frameCount size = b.frames.length) ∧ Stays s b r ∨
      frameCount size ≠ b.frames.length ∧
        ∃ c s₁, Moves s b size (s.mem.ram.word f 0).toNat r c s₁ := by
  rw [krealloc, if_neg h.ptr_ne, if_neg (by rw [h.headerOf_mod]; decide), h.loadWord_header hf,
    Option.bind_some, h.header f hf] at hk
  split at hk
  · rename_i hlt
    cases hk
    exact .inl ⟨.inl hlt, stays_refl h⟩
  · rename_i hle
    split at hk
    · rename_i hcount
      rw [h.storeWord_header hf, Option.map_some] at hk
      cases hk
      refine .inl ⟨.inr hcount.symm, stays_setHeader h hf ?_⟩
      rw [BitVec.toNat_ofNat, Nat.mod_eq_of_lt hsize]
      exact hcount.symm
    · rename_i hcount
      obtain ⟨⟨c, s₁⟩, halloc, hk⟩ := Option.bind_eq_some_iff.mp hk
      obtain ⟨s₂, hcopy, rfl⟩ := Option.map_eq_some_iff.mp hk
      exact .inr ⟨Ne.symm hcount, c, s₁, rfl, rfl, rfl, by omega, halloc, hcopy⟩

/-- Where the header says that the size fits, the block stays. -/
theorem krealloc_stays (h : Live s b) (hf : b.frames[0]? = some f)
    (hstay : size < (s.mem.ram.word f 0).toNat ∨ frameCount size = b.frames.length) :
    ∃ r, krealloc s b.ptr size = some r := by
  rw [krealloc, if_neg h.ptr_ne, if_neg (by rw [h.headerOf_mod]; decide), h.loadWord_header hf,
    Option.bind_some, h.header f hf]
  by_cases hlt : size < (s.mem.ram.word f 0).toNat
  · exact ⟨_, if_pos hlt⟩
  · have hcount := hstay.resolve_left hlt
    rw [if_neg hlt, if_pos hcount.symm, h.storeWord_header hf]
    exact ⟨_, rfl⟩

/-- A size that fits with the header keeps the block where it is. -/
theorem stays_of_fits (h : Live s b) (hf : b.frames[0]? = some f)
    (hfit : size + 4 ≤ 4096 * b.frames.length) :
    size < (s.mem.ram.word f 0).toNat ∨ frameCount size = b.frames.length := by
  by_cases hlt : size < (s.mem.ram.word f 0).toNat
  · exact .inl hlt
  · have hhead := h.header f hf
    have hfits := h.fits
    have hn : kptEntries = 63488 := by decide
    refine .inr ?_
    unfold frameCount at hhead ⊢
    omega

namespace Moves

variable {csz : Nat} {s₁ : KernelMem}

/-- The bytes that are copied fit the new block. -/
theorem fits (hm : Moves s b size csz r c s₁) (ha : Allocated s size c s₁)
    (hsize : size + 4 < 2 ^ 32) : csz + 4 ≤ 4096 * c.frames.length := by
  have hpos := ha.live.pos
  have hcount := ha.count
  have hle := hm.le
  unfold frameCount at hcount
  omega

/-- The old block is still there. -/
theorem old_kept (hm : Moves s b size csz r c s₁) (ha : Allocated s size c s₁) (hb : Live s b) :
    r.heap.kpt b.first ≠ mapNp ∧ r.ptr ≠ b.ptr := by
  have hpos := hb.pos
  have hcov : b.Covers b.first := ⟨le_rfl, by omega⟩
  have hout : ¬ c.Covers b.first := by
    intro hv
    have hfree := ha.free (b.first - c.first) (by have := hv.1; have := hv.2; omega)
    rw [Nat.add_sub_cancel' hv.1] at hfree
    exact hb.not_np hcov hfree
  refine ⟨?_, fun heq => hout ?_⟩
  · rw [memcpy_kpt hm.copy, ha.kpt _ hout]
    exact hb.not_np hcov
  · have hfirst : c.first = b.first := by
      rw [Block.first, ← hm.ptr, heq, Block.first]
    have := ha.live.pos
    exact ⟨by omega, by omega⟩

end Moves

/-! ### Every run -/

namespace KernelHeap

variable {h h' : KernelHeap} {a : HeapAct} {as : List HeapAct}

theorem Inv.stays {bs : List Block} (hi : Inv ⟨s, b :: bs⟩) (hs : Stays s b r) :
    Inv ⟨r.heap, b.after size r :: bs⟩ := by
  have hafter : b.after size r = { b with size := size } := by
    rw [Block.after, hs.fresh, Option.getD_none]
  rw [hafter]
  exact hi.change (hs.live.of_size size) rfl hs.kpt hs.pmm hs.ram

theorem Inv.moves {bs : List Block} {csz : Nat} {s₁ : KernelMem} (hi : Inv ⟨s, b :: bs⟩)
    (hm : Moves s b size csz r c s₁) (hsize : size + 4 < 2 ^ 32) :
    Inv ⟨r.heap, b.after size r :: bs⟩ := by
  have ha := kmalloc_spec hi.small hm.alloc
  obtain ⟨hlive, hkpt, hpmm, hram⟩ := memcpy_block ha.live (hm.fits ha hsize) hm.copy
  have hafter : b.after size r = c := by rw [Block.after, hm.fresh, Option.getD_some]
  rw [hafter]
  have hall : Inv ⟨r.heap, c :: b :: bs⟩ := (hi.add ha).change hlive rfl hkpt hpmm hram
  exact (hall.perm (.swap b c bs)).tail

/-- One call keeps the blocks as they should be. -/
theorem Inv.step (hi : Inv h) (ok : h.SizesFit a) (hs : h.step a = some h') : Inv h' := by
  cases a with
  | kmalloc size =>
      obtain ⟨⟨b, s⟩, halloc, rfl⟩ := Option.map_eq_some_iff.mp hs
      exact Inv.add (s := h.heap) ⟨hi.live, hi.apart, hi.small⟩ (kmalloc_spec hi.small halloc)
  | kfree i =>
      obtain ⟨b, hb, hs⟩ := Option.bind_eq_some_iff.mp hs
      obtain ⟨s, hfree, rfl⟩ := Option.map_eq_some_iff.mp hs
      obtain ⟨s', hs', hfreed⟩ := kfree_spec (hi.live b (List.mem_of_getElem? hb))
      rw [hfree] at hs'
      cases hs'
      exact (hi.front hb).remove hfreed
  | krealloc i size =>
      obtain ⟨b, hb, hs⟩ := Option.bind_eq_some_iff.mp hs
      obtain ⟨r, hr, rfl⟩ := Option.map_eq_some_iff.mp hs
      have hlive := hi.live b (List.mem_of_getElem? hb)
      have hsize : size + 4 < 2 ^ 32 := ok
      obtain ⟨f, hf⟩ := hlive.exists_head
      rcases krealloc_cases hlive hf hr (by omega) with ⟨-, hstays⟩ | ⟨-, c, s₁, hmoves⟩
      · exact (hi.front hb).stays hstays
      · exact (hi.front hb).moves hmoves hsize
  | elsewhere s =>
      cases hs
      exact hi.elsewhere ok

theorem inv_run {s₀ : KernelMem} (hsmall : s₀.mem.pmm.memBase + s₀.mem.pmm.memEntries ≤ 2 ^ 20)
    (hrun : Run step SizesFit ⟨s₀, []⟩ as h) : Inv h :=
  hrun.invariant (fun _ _ _ hi ok hs => hi.step ok hs) ⟨by simp, .nil, hsmall⟩

end KernelHeap

/-- The block's entries are empty, and nobody uses its frames. -/
structure Released (s : KernelMem) (b : Block) : Prop where
  entries : ∀ j < b.frames.length, s.kpt (b.first + j) = mapNp
  frames : ∀ f ∈ b.frames, s.mem.pmm.users f = 0

/-- What is asked of `krealloc`. -/
structure ReallocOk (s : KernelMem) (b : Block) (size : Nat) (r : Realloc) : Prop where
  live : Live r.heap (b.after size r)
  ptr : (b.after size r).ptr = r.ptr
  /-- the pages of the block hold the header and as many bytes as were asked for -/
  room : size + 4 ≤ 4096 * (b.after size r).frames.length
  kept : ∀ i < min b.size size, r.heap.load (r.ptr + i) = s.load (b.ptr + i)
  copied : r.copied ≤ b.size
  released : r.ptr ≠ b.ptr → Released r.heap b
  freed : ∃ s', kfree r.heap r.ptr = some s' ∧ Freed r.heap (b.after size r) s'

/-- `krealloc` returns, with a result as it should be. -/
def KreallocOk (s : KernelMem) (b : Block) (size : Nat) : Prop :=
  ∃ r, krealloc s b.ptr size = some r ∧ ReallocOk s b size r

/-- The block stays where it is and has room, or `krealloc` does not do what it should. -/
theorem kreallocOk_iff (hi : KernelHeap.Inv ⟨s, [b]⟩) (hsize : size < 2 ^ 32) :
    KreallocOk s b size ↔ size + 4 ≤ 4096 * b.frames.length := by
  have hb := hi.live b (List.mem_singleton_self b)
  obtain ⟨f, hf⟩ := hb.exists_head
  constructor
  · rintro ⟨r, hr, hok⟩
    rcases krealloc_cases hb hf hr hsize with ⟨-, hstays⟩ | ⟨-, c, s₁, hmoves⟩
    · have hroom := hok.room
      rwa [Block.after, hstays.fresh, Option.getD_none] at hroom
    · have ha := kmalloc_spec hi.small hmoves.alloc
      obtain ⟨hthere, hne⟩ := hmoves.old_kept ha hb
      have hgone := (hok.released hne).entries 0 hb.pos
      rw [Nat.add_zero] at hgone
      exact absurd hgone hthere
  · intro hfit
    have hstay := stays_of_fits hb hf hfit
    obtain ⟨r, hr⟩ := krealloc_stays hb hf hstay
    rcases krealloc_cases hb hf hr hsize with ⟨-, hs⟩ | ⟨hne, c, s₁, hm⟩
    · have hafter : b.after size r = { b with size := size } := by
        rw [Block.after, hs.fresh, Option.getD_none]
      have hlive : Live r.heap (b.after size r) := by
        rw [hafter]
        exact hs.live.of_size size
      have hptr : (b.after size r).ptr = r.ptr := by rw [hafter, hs.ptr]
      refine ⟨r, hr, hlive, hptr, by rwa [hafter], fun i hi => ?_, ?_, fun hne => ?_, ?_⟩
      · rw [hs.ptr]
        exact hs.kept i (by omega)
      · rw [hs.copied]
        exact Nat.zero_le _
      · exact absurd hs.ptr hne
      · rw [← hptr]
        exact kfree_spec hlive
    · rcases hstay with hlt | hcount
      · have := hm.le
        omega
      · exact absurd hcount hne

/-- **krealloc**: for any block that is live after any run of calls, and any new size, `krealloc` does
what it should if and only if the size and the header fit the frames that the block has. -/
theorem krealloc_iff {s₀ : KernelMem} {h : KernelHeap} {as : List HeapAct}
    (hsmall : s₀.mem.pmm.memBase + s₀.mem.pmm.memEntries ≤ 2 ^ 20)
    (hrun : Run KernelHeap.step KernelHeap.SizesFit ⟨s₀, []⟩ as h) (hb : b ∈ h.blocks)
    (hsize : size < 2 ^ 32) :
    KreallocOk h.heap b size ↔ size + 4 ≤ 4096 * b.frames.length := by
  have hi := KernelHeap.inv_run hsmall hrun
  refine kreallocOk_iff ⟨fun c hc => ?_, List.pairwise_singleton _ b, hi.small⟩ hsize
  obtain rfl := List.mem_singleton.mp hc
  exact hi.live c hb

/-! ### A block of one page -/

/-- Sixteen free frames and an empty window. -/
def emptyHeap : KernelMem := ⟨Mem.boot 16, fun _ => mapNp⟩

/-- A block that fits one page, as the first one. -/
theorem kmalloc_first (hsize : size < 4092) :
    ∃ b s, kmalloc emptyHeap size = some (b, s) ∧ b.frames.length = 1 := by
  have hcount : frameCount ((size + 4) % 2 ^ 32) = 1 := by
    unfold frameCount
    omega
  obtain ⟨m, halloc⟩ : ∃ m, allocAll emptyHeap.mem 1 = some ([0], m) := ⟨_, rfl⟩
  have hmap : kernelMapNc emptyHeap.kpt [entry 0 0] =
      .ok (hmemBase, emptyHeap.kpt.fill 0 1 (listEntries [entry 0 0])) := by
    rw [kernelMapNc, if_pos List.length_singleton, Kpt.scanOne_free _ (by decide) rfl,
      Kpt.fill_one _ 0 (listEntries [entry 0 0]), ok_bind]
    rfl
  have hpr : isPr (emptyHeap.kpt.fill 0 1 (listEntries [entry 0 0])
      ((hmemBase - hmemBase) / 4096)) = true := by
    rw [Nat.sub_self, Nat.zero_div, Kpt.fill, if_pos ⟨le_rfl, by decide⟩]
    rfl
  obtain ⟨s, hstore⟩ : ∃ s, (KernelMem.mk m (emptyHeap.kpt.fill 0 1
      (listEntries [entry 0 0]))).storeWord hmemBase (.ofNat 32 ((size + 4) % 2 ^ 32)) = some s := by
    rw [KernelMem.storeWord, KernelMem.frameAt, if_pos ⟨le_rfl, by decide, hpr⟩]
    exact ⟨_, rfl⟩
  refine ⟨⟨hmemBase + 4, size, [0]⟩, s, ?_, rfl⟩
  unfold kmalloc
  dsimp only
  rw [hcount, halloc, Option.bind_some]
  dsimp only
  rw [show [0].map (entry · 0) = [entry 0 0] from rfl, hmap, Except.toOption, Option.bind_some]
  dsimp only
  rw [hstore]
  rfl

theorem run_kmalloc (hsize : size < 4092) : ∃ h b,
    Run KernelHeap.step KernelHeap.SizesFit ⟨emptyHeap, []⟩ [.kmalloc size] h ∧
      h.blocks = [b] ∧ b.frames.length = 1 := by
  obtain ⟨b, s, halloc, hlen⟩ := kmalloc_first hsize
  have hstep : KernelHeap.step ⟨emptyHeap, []⟩ (.kmalloc size) = some ⟨s, [b]⟩ := by
    rw [KernelHeap.step, halloc]
    rfl
  exact ⟨⟨s, [b]⟩, b, .one trivial hstep, rfl, hlen⟩

/-- A block of 10 bytes grows to a hundred. -/
theorem krealloc_grows : ∃ h b,
    Run KernelHeap.step KernelHeap.SizesFit ⟨emptyHeap, []⟩ [.kmalloc 10] h ∧ b ∈ h.blocks ∧
      KreallocOk h.heap b 100 := by
  obtain ⟨h, b, hrun, hb, hlen⟩ := run_kmalloc (show 10 < 4092 by decide)
  have hmem : b ∈ h.blocks := hb ▸ List.mem_singleton_self b
  exact ⟨h, b, hrun, hmem, (krealloc_iff (by decide) hrun hmem (by decide)).mpr (by omega)⟩

/-- The same block stays in its page for 4093 bytes, though there is room for 4092, and is never freed
when it moves for 5000. -/
theorem krealloc_forgets_header : ∃ h b,
    Run KernelHeap.step KernelHeap.SizesFit ⟨emptyHeap, []⟩ [.kmalloc 10] h ∧ b ∈ h.blocks ∧
      ¬ KreallocOk h.heap b 4093 ∧ ¬ KreallocOk h.heap b 5000 := by
  obtain ⟨h, b, hrun, hb, hlen⟩ := run_kmalloc (show 10 < 4092 by decide)
  have hi : KernelHeap.Inv ⟨h.heap, [b]⟩ := hb ▸ KernelHeap.inv_run (by decide) hrun
  refine ⟨h, b, hrun, hb ▸ List.mem_singleton_self b, fun hok => ?_, fun hok => ?_⟩
  · have := (kreallocOk_iff hi (by decide)).mp hok
    omega
  · have := (kreallocOk_iff hi (by decide)).mp hok
    omega

end Muxomucota.Memory
