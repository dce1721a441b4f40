import Muxomucota.Mmu.FrameLists
import Muxomucota.Mmu.KernelWindow

/-!
# Memory — kmalloc

`kmalloc`, `kfree` and `krealloc` over the frames of the physical memory manager and the kernel
window.  A block is a row of pages in the window; its first four bytes are the header, in which
`kmalloc` stores the size and four, and `krealloc`, where the block stays, the size alone.  The
frames of a block are kept beside it (`Block`).

A function is `none` when an assertion fails, when an address without a page is accessed (also where
`kernel_map_nc` returns `NULL`), and when `kernel_map_nc` leaves its table.
-/

namespace Muxomucota.Memory
open Mmu Pmm Lib

/-- Physical memory, and the page tables of the kernel window. -/
structure KernelMem where
  mem : Mem
  kpt : Kpt

namespace KernelMem

/-- The frame behind an address of the window. -/
def frameAt (s : KernelMem) (virt : Nat) : Option Nat :=
  if hmemBase ≤ virt ∧ virt < unmpBase ∧ isPr (s.kpt ((virt - hmemBase) / 4096)) = true then
    some (frameOf (s.kpt ((virt - hmemBase) / 4096)))
  else none

def load (s : KernelMem) (virt : Nat) : Option (BitVec 8) :=
  (s.frameAt virt).map fun f => s.mem.ram f (virt % 4096)

def store (s : KernelMem) (virt : Nat) (b : BitVec 8) : Option KernelMem :=
  (s.frameAt virt).map fun f =>
    { s with mem := { s.mem with ram := s.mem.ram.setByte f (virt % 4096) b } }

/-- Reading a word that lies in one page. -/
def loadWord (s : KernelMem) (virt : Nat) : Option (BitVec 32) :=
  (s.frameAt virt).map fun f => s.mem.ram.word f (virt % 4096)

/-- Writing a word that lies in one page. -/
def storeWord (s : KernelMem) (virt : Nat) (w : BitVec 32) : Option KernelMem :=
  (s.frameAt virt).map fun f =>
    { s with mem := { s.mem with ram := s.mem.ram.setWord f (virt % 4096) w } }

/-- `memcpy`. -/
def memcpy (s : KernelMem) (dst src n : Nat) : Option KernelMem :=
  (List.range n).foldlM
    (fun s i => (s.load (src + i)).bind fun b => s.store (dst + i) b) s

/-- `pmm_free(kernel_unmap(virt, PAGE_SIZE))`. -/
def freePage (s : KernelMem) (virt : Nat) : Option KernelMem :=
  (kernelUnmap s.kpt virt 4096).toOption.bind fun (phys, k) =>
    if phys % 4096 ≠ 0 then none else (s.mem.free (phys / 4096)).map fun m => ⟨m, k⟩

end KernelMem

/-- What `kmalloc` gave: the address, the size that was asked for last, and the frames. -/
structure Block where
  ptr : Nat
  size : Nat
  frames : List Nat

/-- The first entry of a block in `kpt`. -/
def Block.first (b : Block) : Nat := (b.ptr - hmemBase) / 4096

/-- `(size + PAGE_SIZE) >> PAGE_SHIFT`. -/
def frameCount (size : Nat) : Nat := (size + 4096) % 2 ^ 32 / 4096

/-- `(size_t *)ptr - 1`. -/
def headerOf (ptr : Nat) : Nat := (ptr + 2 ^ 32 - 4) % 2 ^ 32

/-- `kmalloc`. -/
def kmalloc (s : KernelMem) (size : Nat) : Option (Block × KernelMem) :=
  let sz := (size + 4) % 2 ^ 32
  (allocAll s.mem (frameCount sz)).bind fun (pageframes, m) =>
    (kernelMapNc s.kpt (pageframes.map (entry · 0))).toOption.bind fun (mem, k) =>
      ((KernelMem.mk m k).storeWord mem (.ofNat 32 sz)).map fun s => (⟨mem + 4, size, pageframes⟩, s)

/-- `kfree`. -/
def kfree (s : KernelMem) (ptr : Nat) : Option KernelMem :=
  if ptr = 0 then some s
  else if headerOf ptr % 4096 ≠ 0 then none
  else (s.loadWord (headerOf ptr)).bind fun size =>
    (List.range (frameCount size.toNat)).foldlM
      (fun s i => s.freePage (headerOf ptr + i * 4096)) s

/-- What `krealloc` returns and leaves: the address, the block that it allocated if it did, how many
bytes it copied from the old address on, and memory. -/
structure Realloc where
  ptr : Nat
  fresh : Option Block
  copied : Nat
  heap : KernelMem

/-- `krealloc`. -/
def krealloc (s : KernelMem) (ptr size : Nat) : Option Realloc :=
  if ptr = 0 then (kmalloc s size).map fun (b, s) => ⟨b.ptr, some b, 0, s⟩
  else if headerOf ptr % 4096 ≠ 0 then none
  else (s.loadWord (headerOf ptr)).bind fun csz =>
    if size < csz.toNat then some ⟨ptr, none, 0, s⟩
    else if frameCount csz.toNat = frameCount size then
      (s.storeWord (headerOf ptr) (.ofNat 32 size)).map fun s => ⟨ptr, none, 0, s⟩
    else
      (kmalloc s size).bind fun (b, s) =>
        (s.memcpy b.ptr ptr csz.toNat).map fun s => ⟨b.ptr, some b, csz.toNat, s⟩

/-! ### Blocks -/

variable {s s' : KernelMem} {b c : Block} {size i j f n o src : Nat}

/-- The pages of the block are in the window, its frames belong to nobody else, and the header gives
their number. -/
structure Live (s : KernelMem) (b : Block) : Prop where
  ptr : b.ptr = hmemBase + b.first * 4096 + 4
  pos : 0 < b.frames.length
  fits : b.first + b.frames.length ≤ kptEntries
  entries : ∀ j f, b.frames[j]? = some f → s.kpt (b.first + j) = entry f kernelFlags
  small : ∀ f ∈ b.frames, f < 2 ^ 20
  nodup : b.frames.Nodup
  users : ∀ f ∈ b.frames, s.mem.pmm.users f = 1
  header : ∀ f, b.frames[0]? = some f →
    frameCount (s.mem.ram.word f 0).toNat = b.frames.length

theorem isFlags_kernelFlags : IsFlags kernelFlags := by decide

theorem isPr_kernelEntry (f : Nat) : isPr (entry f kernelFlags) = true := by
  rw [isPr_entry]
  rfl

namespace Live

/-- A block does not see changes elsewhere. -/
theorem of_same (h : Live s b)
    (hkpt : ∀ j < b.frames.length, s'.kpt (b.first + j) = s.kpt (b.first + j))
    (husers : ∀ f ∈ b.frames, s'.mem.pmm.users f = s.mem.pmm.users f)
    (hheader : ∀ f, b.frames[0]? = some f → s'.mem.ram.word f 0 = s.mem.ram.word f 0) :
    Live s' b where
  ptr := h.ptr
  pos := h.pos
  fits := h.fits
  entries j f hf := by
    rw [hkpt j (List.getElem?_eq_some_iff.mp hf).1]
    exact h.entries j f hf
  small := h.small
  nodup := h.nodup
  users f hf := (husers f hf).trans (h.users f hf)
  header f hf := by
    rw [hheader f hf]
    exact h.header f hf

theorem of_size (h : Live s b) (size : Nat) : Live s { b with size := size } :=
  ⟨h.ptr, h.pos, h.fits, h.entries, h.small, h.nodup, h.users, h.header⟩

/-- The frame behind an address of the block. -/
theorem frameAt (h : Live s b) (hf : b.frames[j]? = some f) (ho : o < 4096) :
    s.frameAt (hmemBase + (b.first + j) * 4096 + o) = some f := by
  have hj := (List.getElem?_eq_some_iff.mp hf).1
  have hfits := h.fits
  have hn : kptEntries = 63488 := by decide
  have hidx : (hmemBase + (b.first + j) * 4096 + o - hmemBase) / 4096 = b.first + j := by omega
  rw [KernelMem.frameAt, hidx, h.entries j f hf, isPr_kernelEntry,
    frameOf_entry (h.small f (List.mem_of_getElem? hf)) isFlags_kernelFlags,
    if_pos ⟨by omega, by unfold hmemBase unmpBase; omega, rfl⟩]

/-- The byte at distance `i` from the pointer lies in page `(i + 4) / 4096`. -/
theorem frameAt_ptr (h : Live s b) (hf : b.frames[(i + 4) / 4096]? = some f) :
    s.frameAt (b.ptr + i) = some f := by
  have hat := h.frameAt (o := (i + 4) % 4096) hf (Nat.mod_lt _ (by decide))
  rwa [show b.ptr + i = hmemBase + (b.first + (i + 4) / 4096) * 4096 + (i + 4) % 4096 by
    rw [h.ptr]; omega]

theorem headerOf_eq (h : Live s b) : headerOf b.ptr = hmemBase + b.first * 4096 := by
  have hfits := h.fits
  have hn : kptEntries = 63488 := by decide
  rw [headerOf, h.ptr]
  unfold hmemBase
  omega

theorem headerOf_mod (h : Live s b) : headerOf b.ptr % 4096 = 0 := by
  rw [h.headerOf_eq]
  unfold hmemBase
  omega

theorem ptr_ne (h : Live s b) : b.ptr ≠ 0 := by
  rw [h.ptr]
  omega

theorem exists_head (h : Live s b) : ∃ f, b.frames[0]? = some f :=
  ⟨_, List.getElem?_eq_getElem h.pos⟩

theorem frameAt_header (h : Live s b) (hf : b.frames[0]? = some f) :
    s.frameAt (headerOf b.ptr) = some f := by
  have hat := h.frameAt (o := 0) hf (by decide)
  rwa [Nat.add_zero, Nat.add_zero, ← h.headerOf_eq] at hat

theorem loadWord_header (h : Live s b) (hf : b.frames[0]? = some f) :
    s.loadWord (headerOf b.ptr) = some (s.mem.ram.word f 0) := by
  rw [KernelMem.loadWord, h.frameAt_header hf, Option.map_some, h.headerOf_mod]

theorem storeWord_header (h : Live s b) (hf : b.frames[0]? = some f) (w : BitVec 32) :
    s.storeWord (headerOf b.ptr) w =
      some { s with mem := { s.mem with ram := s.mem.ram.setWord f 0 w } } := by
  rw [KernelMem.storeWord, h.frameAt_header hf, Option.map_some, h.headerOf_mod]

/-- A new size in the header that stands for as many frames. -/
theorem setHeader (h : Live s b) (hf : b.frames[0]? = some f) {w : BitVec 32}
    (hw : frameCount w.toNat = b.frames.length) :
    Live { s with mem := { s.mem with ram := s.mem.ram.setWord f 0 w } } b where
  ptr := h.ptr
  pos := h.pos
  fits := h.fits
  entries := h.entries
  small := h.small
  nodup := h.nodup
  users := h.users
  header g hg := by
    rw [hf] at hg
    cases hg
    rw [Ram.word_setWord_self]
    exact hw

end Live

/-! ### Freeing -/

theorem fill_snoc (k : Kpt) (a n : Nat) (w : BitVec 32) :
    (k.fill a n fun _ => w).fill (a + n) 1 (fun _ => w) = k.fill a (n + 1) fun _ => w := by
  funext v
  unfold Kpt.fill
  by_cases hv : v = a + n
  · rw [if_pos (by omega), if_pos (by omega)]
  · rw [if_neg (by omega)]
    by_cases hin : a ≤ v ∧ v < a + n
    · rw [if_pos hin, if_pos (by omega)]
    · rw [if_neg hin, if_neg (by omega)]

/-- What `kfree` leaves of a block. -/
structure Freed (s : KernelMem) (b : Block) (s' : KernelMem) : Prop where
  ram : s'.mem.ram = s.mem.ram
  same : SameFrames s.mem.pmm s'.mem.pmm
  kpt : s'.kpt = s.kpt.fill b.first b.frames.length fun _ => mapNp
  users : ∀ g, s'.mem.pmm.users g = if g ∈ b.frames then 0 else s.mem.pmm.users g

/-- One page: its entry is emptied and its frame freed. -/
theorem freePage_eq {a g : Nat} (ha : a < kptEntries) (hkpt : s.kpt a = entry g kernelFlags)
    (hg : g < 2 ^ 20) {m : Mem} (hm : s.mem.free g = some m) :
    s.freePage (hmemBase + a * 4096) = some ⟨m, s.kpt.fill a 1 fun _ => mapNp⟩ := by
  have hidx : (hmemBase + a * 4096 - hmemBase) / 4096 = a := by omega
  have hmod : (hmemBase + a * 4096) % 4096 = 0 := by
    unfold hmemBase
    omega
  have hone : kernelPages (hmemBase + a * 4096) 4096 = 1 := by
    rw [kernelPages_eq (by omega), hmod]
  have hunmap : kernelUnmap s.kpt (hmemBase + a * 4096) 4096 =
      .ok (g * 4096, s.kpt.fill a 1 fun _ => mapNp) := by
    rw [kernelUnmap_eq (by omega) (by rwa [hidx]) (by rw [hidx, hone]; omega), hidx, hone, hkpt,
      hmod, frameOf_entry hg isFlags_kernelFlags, Nat.add_zero]
  rw [KernelMem.freePage, hunmap, Except.toOption, Option.bind_some]
  dsimp only
  rw [if_neg (by omega), show g * 4096 / 4096 = g by omega, hm]
  rfl

/-- `kfree` releases the frames of the block and its entries in the window. -/
theorem kfree_spec (h : Live s b) : ∃ s', kfree s b.ptr = some s' ∧ Freed s b s' := by
  obtain ⟨f, hf⟩ := h.exists_head
  have hfits := h.fits
  have hloop : ∃ s', (List.range b.frames.length).foldlM
      (fun s i => s.freePage (headerOf b.ptr + i * 4096)) s = some s' ∧
      (s'.mem.ram = s.mem.ram ∧ SameFrames s.mem.pmm s'.mem.pmm ∧
        s'.kpt = (s.kpt.fill b.first b.frames.length fun _ => mapNp) ∧
        ∀ g, s'.mem.pmm.users g =
          if g ∈ b.frames.take b.frames.length then 0 else s.mem.pmm.users g) := by
    refine foldlM_range_total (P := fun i (t : KernelMem) => t.mem.ram = s.mem.ram ∧
      SameFrames s.mem.pmm t.mem.pmm ∧ t.kpt = (s.kpt.fill b.first i fun _ => mapNp) ∧
        ∀ g, t.mem.pmm.users g = if g ∈ b.frames.take i then 0 else s.mem.pmm.users g)
      ⟨rfl, .refl _, ?_, by simp⟩ ?_
    · funext v
      rw [Kpt.fill, if_neg (by omega)]
    rintro i t hi ⟨hram, hsame, hkpt, hus⟩
    obtain ⟨g, hg⟩ : ∃ g, b.frames[i]? = some g := ⟨_, List.getElem?_eq_getElem hi⟩
    have hmem := List.mem_of_getElem? hg
    have hnot : g ∉ b.frames.take i := by
      intro hin
      obtain ⟨j, hj, hjg⟩ := List.mem_take_iff_getElem.mp hin
      have hgi := (List.getElem?_eq_some_iff.mp hg).2
      have hji := (h.nodup.getElem_inj_iff).mp (hjg.trans hgi.symm)
      omega
    have hu : t.mem.pmm.users g = 1 := by rw [hus, if_neg hnot, h.users g hmem]
    obtain ⟨m, hm⟩ := free_isSome (m := t.mem) (f := g) (by omega)
    obtain ⟨hram', hsame', -, hus', -⟩ := free_spec hm
    have hkpti : t.kpt (b.first + i) = entry g kernelFlags := by
      rw [hkpt, Kpt.fill, if_neg (by omega), h.entries i g hg]
    have hpage := freePage_eq (by omega) hkpti (h.small g hmem) hm
    refine ⟨⟨m, t.kpt.fill (b.first + i) 1 fun _ => mapNp⟩, ?_, hram'.trans hram,
      hsame.trans hsame', by rw [hkpt, fill_snoc], fun x => ?_⟩
    · rw [h.headerOf_eq, Nat.add_assoc, ← Nat.add_mul]
      exact hpage
    · have htake : b.frames.take (i + 1) = b.frames.take i ++ [g] := by
        rw [List.take_add_one, hg]
        rfl
      dsimp only
      rw [hus', hu, hus, htake]
      by_cases hx : x = g <;> simp [hx]
  obtain ⟨s', hrun, hram, hsame, hkpt, hus⟩ := hloop
  rw [List.take_length] at hus
  refine ⟨s', ?_, hram, hsame, hkpt, hus⟩
  rw [kfree, if_neg h.ptr_ne, if_neg (by rw [h.headerOf_mod]; decide), h.loadWord_header hf,
    Option.bind_some, h.header f hf]
  exact hrun

/-! ### Allocating -/

/-- What `kmalloc` does: the block's frames and entries were free, and nothing else changes. -/
structure Allocated (s : KernelMem) (size : Nat) (b : Block) (s' : KernelMem) : Prop where
  live : Live s' b
  size_eq : b.size = size
  count : b.frames.length = frameCount ((size + 4) % 2 ^ 32)
  free : ∀ j < b.frames.length, s.kpt (b.first + j) = mapNp
  kpt : ∀ v, ¬ (b.first ≤ v ∧ v < b.first + b.frames.length) → s'.kpt v = s.kpt v
  fresh : ∀ f ∈ b.frames, s.mem.pmm.users f = 0
  users : ∀ g, s'.mem.pmm.users g = if g ∈ b.frames then 1 else s.mem.pmm.users g
  ram : ∀ g, g ∉ b.frames → s'.mem.ram g = s.mem.ram g
  same : SameFrames s.mem.pmm s'.mem.pmm

theorem kmalloc_spec (hsmall : s.mem.pmm.memBase + s.mem.pmm.memEntries ≤ 2 ^ 20)
    (h : kmalloc s size = some (b, s')) : Allocated s size b s' := by
  obtain ⟨⟨fs, m⟩, halloc, h⟩ := Option.bind_eq_some_iff.mp h
  obtain ⟨⟨virt, k⟩, hmap, h⟩ := Option.bind_eq_some_iff.mp h
  obtain ⟨s₁, hstore, heq⟩ := Option.map_eq_some_iff.mp h
  cases heq
  obtain ⟨ht, hlen⟩ := allocAll_taken halloc
  have hmap : kernelMapNc s.kpt (fs.map (entry · 0)) = .ok (virt, k) := by
    cases hr : kernelMapNc s.kpt (fs.map (entry · 0)) with
    | error x => rw [hr] at hmap; cases hmap
    | ok r => rw [hr] at hmap; exact congrArg _ (Option.some.inj hmap)
  have hn : kptEntries = 63488 := by decide
  obtain ⟨f, hat, hs₁⟩ := Option.map_eq_some_iff.mp hstore
  rcases kernelMapNc_ok hmap with ⟨rfl, -⟩ | ⟨a, rfl, ha, hfit, hfirst, hfree, rfl⟩
  · rw [KernelMem.frameAt, if_neg (by unfold hmemBase; omega)] at hat
    cases hat
  rw [List.length_map] at hfit hfree hat
  have hidx : (hmemBase + a * 4096 - hmemBase) / 4096 = a := by omega
  have hsmall' : ∀ g ∈ fs, g < 2 ^ 20 := by
    intro g hg
    have htr := (ht.fresh g hg).2
    unfold Tracked at htr
    omega
  -- without frames the header would lie in a page that is not there
  have hpos : 0 < fs.length := by
    by_contra hzero
    have hin : isPr (s.kpt.fill a fs.length (listEntries (fs.map (entry · 0))) a) = true := by
      have := (Option.ite_none_right_eq_some.mp hat).1.2.2
      rwa [hidx] at this
    rw [Kpt.fill, if_neg (by omega), hfirst] at hin
    exact absurd hin (by decide)
  have hentries : ∀ j g, fs[j]? = some g →
      s.kpt.fill a fs.length (listEntries (fs.map (entry · 0))) (a + j) = entry g kernelFlags := by
    intro j g hg
    have hj := (List.getElem?_eq_some_iff.mp hg).1
    rw [Kpt.fill, if_pos (by omega), Nat.add_sub_cancel_left, listEntries, List.getD_eq_getElem?_getD,
      List.getElem?_map, hg]
    simp [entry]
  have hhead : fs[0]? = some f := by
    obtain ⟨g, hg⟩ : ∃ g, fs[0]? = some g := ⟨_, List.getElem?_eq_getElem hpos⟩
    have hfr := (Option.ite_none_right_eq_some.mp hat).2
    rw [hidx] at hfr
    dsimp only at hfr
    have hent := hentries 0 g hg
    rw [Nat.add_zero] at hent
    rw [hent, frameOf_entry (hsmall' g (List.mem_of_getElem? hg)) isFlags_kernelFlags] at hfr
    exact hg.trans hfr
  have hmod : (hmemBase + a * 4096) % 4096 = 0 := by
    unfold hmemBase
    omega
  rw [hmod, List.length_map] at hs₁
  subst hs₁
  have hfirst : (Block.mk (hmemBase + a * 4096 + 4) size fs).first = a := by
    unfold Block.first
    dsimp only
    omega
  refine ⟨⟨by rw [hfirst], hpos, by rw [hfirst]; exact hfit, ?_, hsmall', ht.nodup,
    fun g hg => by rw [ht.users, if_pos hg], fun g hg => ?_⟩, rfl, hlen, by rwa [hfirst],
    fun v hv => ?_, fun g hg => (ht.fresh g hg).1, ht.users, fun g hg => ?_, ht.frames⟩
  · rw [hfirst]
    exact hentries
  · rw [hhead] at hg
    cases hg
    rw [Ram.word_setWord_self, BitVec.toNat_ofNat, Nat.mod_mod]
    exact hlen.symm
  · rw [hfirst] at hv
    exact if_neg hv
  · rw [← ht.ram]
    exact Ram.setWord_frame _ 0 _ fun heq => hg (heq ▸ List.mem_of_getElem? hhead)

/-- `memcpy` does not touch the window's page tables. -/
theorem memcpy_kpt {dst : Nat} (h : s.memcpy dst src n = some s') : s'.kpt = s.kpt := by
  refine foldlM_invariant (P := fun (t : KernelMem) => t.kpt = s.kpt) h rfl ?_
  intro i _ t t' ht hstep
  obtain ⟨x, -, hstore⟩ := Option.bind_eq_some_iff.mp hstep
  obtain ⟨f, -, rfl⟩ := Option.map_eq_some_iff.mp hstore
  exact ht

/-- `memcpy` into a block changes only its frames, and not the header. -/
theorem memcpy_block (h : Live s b) (hn : n + 4 ≤ 4096 * b.frames.length)
    (hc : s.memcpy b.ptr src n = some s') :
    Live s' b ∧ s'.kpt = s.kpt ∧ s'.mem.pmm = s.mem.pmm ∧
      ∀ g, g ∉ b.frames → s'.mem.ram g = s.mem.ram g := by
  obtain ⟨f₀, hf₀⟩ := h.exists_head
  refine foldlM_range_rule (P := fun _ (t : KernelMem) => Live t b ∧ t.kpt = s.kpt ∧
    t.mem.pmm = s.mem.pmm ∧ ∀ g, g ∉ b.frames → t.mem.ram g = s.mem.ram g) hc
    ⟨h, rfl, rfl, fun _ _ => rfl⟩ ?_
  rintro i t t' hi ⟨hlive, hkpt, hpmm, hram⟩ hstep
  obtain ⟨x, -, hstore⟩ := Option.bind_eq_some_iff.mp hstep
  have hj : (i + 4) / 4096 < b.frames.length := by omega
  obtain ⟨f, hf⟩ : ∃ f, b.frames[(i + 4) / 4096]? = some f := ⟨_, List.getElem?_eq_getElem hj⟩
  rw [KernelMem.store, hlive.frameAt_ptr hf, Option.map_some] at hstore
  cases hstore
  have hoff : (b.ptr + i) % 4096 = (i + 4) % 4096 := by
    rw [h.ptr]
    unfold hmemBase
    omega
  refine ⟨hlive.of_same (fun _ _ => rfl) (fun _ _ => rfl) fun g hg => ?_, hkpt, hpmm,
    fun g hg => ?_⟩
  · -- in the first frame the bytes lie behind the header
    have hbyte : ∀ o < 4, t.mem.ram.setByte f ((b.ptr + i) % 4096) x g o = t.mem.ram g o := by
      intro o ho
      rw [Ram.setByte_apply, if_neg]
      rintro ⟨rfl, rfl⟩
      have hzero : (i + 4) / 4096 = 0 := by
        obtain ⟨hl₁, he₁⟩ := List.getElem?_eq_some_iff.mp hf
        obtain ⟨hl₂, he₂⟩ := List.getElem?_eq_some_iff.mp hg
        exact (h.nodup.getElem_inj_iff).mp (he₁.trans he₂.symm)
      omega
    simp only [Ram.word, Ram.wordAt, hbyte 0 (by decide), hbyte 1 (by decide),
      hbyte 2 (by decide), hbyte 3 (by decide), Nat.zero_add]
  · rw [← hram g hg]
    exact Ram.setByte_frame _ _ _ fun heq => hg (heq ▸ List.mem_of_getElem? hf)

end Muxomucota.Memory
