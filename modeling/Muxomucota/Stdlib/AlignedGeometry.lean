import Muxomucota.Stdlib.SizeContract

/-!
# Stdlib — the pieces of an aligned block

`aligned_alloc` cuts an area, a free block or new memory, into at most three pieces: what is before the
aligned block, the block, and what is behind it.  Each has a header, and the sizes in the headers are to
make the pieces cover the area.
-/

namespace Muxomucota.Stdlib
open Lib

variable {σ : Type} {sbrk : Sbrk σ} {brk : σ → Nat} {base p sz t align : Nat} {s s' : Heap σ}
  {live : Finset Nat} {bs : List Block}

/-- The pieces of an area, with the sizes in their headers. -/
def pieces (size : Nat → Nat) (front : Option Nat) (block : Nat) (rest : Option Nat) : List Block :=
  (front.toList ++ block :: rest.toList).map fun a => ⟨a, size a, a = block⟩

/-- The pieces that the free block at `t` is cut into cover it. -/
def CoversFree (s : Heap σ) (align sz t : Nat) : Prop :=
  let (s₁, block, rest) := s.carve align sz t
  BlocksTile t (pieces s₁.size (if block = t then none else some t) block rest) (t + 16 + s.size t)

/-- The pieces that new memory is cut into cover it. -/
def CoversNew (brk : σ → Nat) (s : Heap σ) (align sz t : Nat) (x : σ) : Prop :=
  let (s₁, front, block, rest) := { s with system := x }.carveNew align sz t
  BlocksTile t (pieces s₁.size front block rest) (brk x)

/-- The pieces cover the area that a call uses; `sbrk` gives none for a negative number. -/
def Covers (sbrk : Sbrk σ) (brk : σ → Nat) (s : Heap σ) (align sz : Nat) : Prop :=
  match alignedFit s.size align sz s.firstFree with
  | some t => CoversFree s align sz t
  | none => ∃ t x, upward sbrk s.system (sz + 48 + align) = some (t, x) ∧ CoversNew brk s align sz t x

/-- What is to come of a call that returns `p`. -/
structure Geometric (sbrk : Sbrk σ) (brk : σ → Nat) (s : Heap σ) (align size p : Nat) (s' : Heap σ) :
    Prop where
  aligned : max align 16 ∣ p
  header : size ≤ s'.size ((p + 2 ^ 32 - 16) % 2 ^ 32)
  covers : Covers sbrk brk s (max align 16) (roundSize size)

/-- The alignment is above 16, or the area begins at a multiple of 16; and new memory is a positive
number of bytes that leaves the end of the heap an address. -/
def Straight (brk : σ → Nat) (s : Heap σ) (align size : Nat) : Prop :=
  match alignedFit s.size (max align 16) (roundSize size) s.firstFree with
  | some t => 16 < align ∨ 16 ∣ t
  | none => (16 < align ∨ 16 ∣ brk s.system) ∧ roundSize size + 48 + max align 16 < 2 ^ 31 ∧
      brk s.system + (roundSize size + 48 + max align 16) < 2 ^ 32

/-! ### The distance -/

/-- The content of the aligned block lies right. -/
theorem alignSpace_dvd {k : Nat} (hk : align = 2 ^ k) (hpos : 0 < align) (hlt : align + 48 < 2 ^ 32)
    (t : Nat) : align ∣ t + alignSpace align t := by
  have hr : t % align < align := Nat.mod_lt _ hpos
  have hle : t % align ≤ t := Nat.mod_le _ _
  have hfirst : align ∣ t + (align - t % align) := by
    have hsplit : t + (align - t % align) = t - t % align + align := by omega
    rw [hsplit]
    exact Nat.dvd_add (Nat.dvd_sub_mod t) (Nat.dvd_refl align)
  rw [alignSpace_eq hk]
  split_ifs
  · rw [Nat.mod_eq_of_lt (by omega), ← Nat.add_assoc]
    exact Nat.dvd_add hfirst (Nat.dvd_refl align)
  · exact hfirst

/-- With an alignment of 16 the distance does not leave room for a header in front. -/
theorem alignSpace_sixteen (h : ¬16 ∣ t + 16) : 16 < alignSpace 16 t ∧ alignSpace 16 t < 32 := by
  have heq := @alignSpace_eq 16 4 rfl t
  split_ifs at heq <;> omega

/-- The three distances: just a header, room for one in front, and neither. -/
theorem distance_cases {k : Nat} (hk : align = 2 ^ k) (h16 : 16 ≤ align) (hal : align + 48 < 2 ^ 32)
    (t : Nat) :
    alignSpace align t = 16 ∧ 16 ∣ t ∨ 32 ≤ alignSpace align t ∧ 16 < align ∨
      (16 < alignSpace align t ∧ alignSpace align t < 32) ∧ ¬(16 < align ∨ 16 ∣ t) := by
  have hdvd : 16 ∣ align := by
    have hpow : 2 ^ 4 ≤ 2 ^ k := hk ▸ h16
    rw [hk]
    exact Nat.pow_dvd_pow 2 ((Nat.pow_le_pow_iff_right (by decide : 1 < 2)).mp hpow)
  rcases (alignSpace_bounds hk h16 hal t).2 with ⟨hright, hspace⟩ | ⟨hnot, -, hroom⟩
  · exact .inl ⟨hspace, (Nat.dvd_add_left (Nat.dvd_refl 16)).mp (hdvd.trans hright)⟩
  rcases Nat.lt_or_ge 16 align with habove | hbelow
  · exact .inr (.inl ⟨hroom habove, habove⟩)
  · obtain rfl : align = 16 := Nat.le_antisymm hbelow h16
    refine .inr (.inr ⟨alignSpace_sixteen hnot, ?_⟩)
    rintro (h | h)
    · exact absurd h (Nat.lt_irrefl 16)
    · exact hnot (Nat.dvd_add h (Nat.dvd_refl 16))

/-! ### Pieces -/

variable {size : Nat → Nat} {block rest hi : Nat} {behind : Option Nat}

theorem tiles_block (h : t + 16 + size t = hi) : BlocksTile t (pieces size none t none) hi :=
  ⟨rfl, (by omega : t < t + 16 + size t), h⟩

theorem tiles_behind (hrest : t + 16 + size t = rest) (h : rest + 16 + size rest = hi) :
    BlocksTile t (pieces size none t (some rest)) hi := by
  simp only [pieces, Option.toList, List.nil_append, List.map_cons, List.map_nil, Tiles, Block.stop,
    true_and]
  omega

/-- The piece in front ends where the block begins. -/
theorem tiles_front :
    BlocksTile t (pieces size (some t) block behind) hi ↔
      t + 16 + size t = block ∧ BlocksTile block (pieces size none block behind) hi := by
  refine ⟨fun ⟨_, _, h⟩ => ?_, ?_⟩
  · obtain rfl : block = t + 16 + size t := h.1
    exact ⟨rfl, h⟩
  · rintro ⟨rfl, h⟩
    exact ⟨rfl, (by omega : t < t + 16 + size t), h⟩

/-! ### Free blocks -/

/-- A free block that lies right is cut in two, or is used as it is. -/
theorem carve_straight (hspace : alignSpace align t = 16) (hfit : 16 + sz ≤ s.size t)
    (hlt : t + 16 + s.size t < 2 ^ 32) :
    ∃ s₁ rest, s.carve align sz t = (s₁, t, rest) ∧ sz ≤ s₁.size t ∧
      BlocksTile t (pieces s₁.size none t rest) (t + 16 + s.size t) := by
  unfold Heap.carve
  dsimp only
  rw [hspace, if_pos rfl]
  split_ifs with hrest
  · rw [Nat.mod_eq_of_lt (by omega : t + 16 + sz < 2 ^ 32)]
    refine ⟨_, _, rfl, ?_, ?_⟩
    · rw [setSize_of_ne _ _ (by omega), setSize_self]
    · refine tiles_behind ?_ ?_
      · rw [setSize_of_ne _ _ (by omega : t ≠ t + 16 + sz), setSize_self]
      · rw [setSize_self]
        omega
  · exact ⟨_, _, rfl, by omega, tiles_block rfl⟩

/-- One that does not is cut with room for a header in front. -/
theorem carve_shifted (hspace : 32 ≤ alignSpace align t) (hfit : alignSpace align t + sz ≤ s.size t)
    (hlt : t + 16 + s.size t < 2 ^ 32) :
    ∃ s₁ rest, s.carve align sz t = (s₁, t + alignSpace align t - 16, rest) ∧
      sz ≤ s₁.size (t + alignSpace align t - 16) ∧
      BlocksTile t (pieces s₁.size (some t) (t + alignSpace align t - 16) rest) (t + 16 + s.size t) := by
  unfold Heap.carve
  dsimp only
  generalize alignSpace align t = space at hspace hfit ⊢
  rw [if_neg (by omega), Nat.mod_eq_of_lt (by omega : t + space - 16 < 2 ^ 32),
    (by omega : (space + 2 ^ 32 - 32) % 2 ^ 32 = space - 32)]
  split_ifs with hrest
  · refine ⟨_, _, rfl, ?_, ?_⟩
    · rw [setSize_self]
      omega
    · refine tiles_front.mpr ⟨?_, tiles_block ?_⟩
      · rw [setSize_of_ne _ _ (by omega : t ≠ t + space - 16), setSize_self]
        omega
      · rw [setSize_self]
        omega
  · rw [(by omega : (t + space - 16 + 16 + sz) % 2 ^ 32 = t + space + sz)]
    refine ⟨_, _, rfl, ?_, ?_⟩
    · rw [setSize_of_ne _ _ (by omega), setSize_self]
    · refine tiles_front.mpr ⟨?_, tiles_behind ?_ ?_⟩
      · rw [setSize_of_ne _ _ (by omega : t ≠ t + space + sz),
          setSize_of_ne _ _ (by omega : t ≠ t + space - 16), setSize_self]
        omega
      · rw [setSize_of_ne _ _ (by omega : t + space - 16 ≠ t + space + sz), setSize_self]
        omega
      · rw [setSize_self]
        omega

/-- One that does not, and leaves no room for a header: the size in front wraps. -/
theorem carve_narrow (hlo : 16 < alignSpace align t) (hhi : alignSpace align t < 32)
    (hfit : alignSpace align t + sz ≤ s.size t) (hlt : t + 16 + s.size t < 2 ^ 32) :
    ∃ s₁ rest, s.carve align sz t = (s₁, t + alignSpace align t - 16, rest) ∧
      s₁.size t = alignSpace align t + 2 ^ 32 - 32 := by
  unfold Heap.carve
  dsimp only
  generalize alignSpace align t = space at hlo hhi hfit ⊢
  rw [if_neg (by omega), Nat.mod_eq_of_lt (by omega : t + space - 16 < 2 ^ 32),
    (by omega : (space + 2 ^ 32 - 32) % 2 ^ 32 = space + 2 ^ 32 - 32)]
  split_ifs with hrest
  · refine ⟨_, _, rfl, ?_⟩
    rw [setSize_of_ne _ _ (by omega), setSize_self]
  · refine ⟨_, _, rfl, ?_⟩
    rw [setSize_of_ne _ _ (by omega), setSize_of_ne _ _ (by omega), setSize_self]

/-- A free block is covered exactly if it begins at a multiple of 16 or the alignment is larger. -/
theorem coversFree_iff {k : Nat} (hk : align = 2 ^ k) (h16 : 16 ≤ align) (hal : align + 48 < 2 ^ 32)
    (hfit : alignSpace align t + sz ≤ s.size t) (hlt : t + 16 + s.size t < 2 ^ 32) :
    CoversFree s align sz t ↔ 16 < align ∨ 16 ∣ t := by
  rw [CoversFree]
  rcases distance_cases hk h16 hal t with ⟨hspace, hdvd⟩ | ⟨hspace, habove⟩ | ⟨⟨hlo, hhi⟩, hnot⟩
  · obtain ⟨s₁, rest, hcarve, -, htiles⟩ := carve_straight hspace (hspace ▸ hfit) hlt
    rw [hcarve]
    dsimp only
    rw [if_pos rfl]
    exact iff_of_true htiles (.inr hdvd)
  · obtain ⟨s₁, rest, hcarve, -, htiles⟩ := carve_shifted hspace hfit hlt
    rw [hcarve]
    dsimp only
    rw [if_neg (by omega)]
    exact iff_of_true htiles (.inl habove)
  · obtain ⟨s₁, rest, hcarve, hsize⟩ := carve_narrow hlo hhi hfit hlt
    rw [hcarve]
    dsimp only
    rw [if_neg (by omega)]
    refine iff_of_false (fun htiles => ?_) hnot
    have hfront := (tiles_front.mp htiles).1
    omega

/-! ### New memory -/

/-- New memory that lies right is one block. -/
theorem carveNew_straight (hspace : alignSpace align t = 16) (hlt : t + (sz + 48 + align) < 2 ^ 32) :
    ∃ s₁, s.carveNew align sz t = (s₁, none, t, none) ∧ sz ≤ s₁.size t ∧
      BlocksTile t (pieces s₁.size none t none) (t + (sz + 48 + align)) := by
  unfold Heap.carveNew
  dsimp only
  rw [hspace, if_pos rfl, Nat.mod_eq_of_lt (by omega : sz + 48 + align < 2 ^ 32), if_pos (by omega)]
  refine ⟨_, rfl, ?_, ?_⟩
  · rw [setSize_self]
    omega
  · refine tiles_block ?_
    rw [setSize_self]
    omega

/-- New memory that does not is cut with room for a header in front. -/
theorem carveNew_shifted (hspace : 32 ≤ alignSpace align t) (hhi : alignSpace align t < align + 48)
    (hlt : t + (sz + 48 + align) < 2 ^ 32) :
    ∃ s₁ rest, s.carveNew align sz t = (s₁, some t, t + alignSpace align t - 16, rest) ∧
      sz ≤ s₁.size (t + alignSpace align t - 16) ∧
      BlocksTile t (pieces s₁.size (some t) (t + alignSpace align t - 16) rest)
        (t + (sz + 48 + align)) := by
  unfold Heap.carveNew
  dsimp only
  generalize alignSpace align t = space at hspace hhi ⊢
  rw [if_neg (by omega), Nat.mod_eq_of_lt (by omega : t + space - 16 < 2 ^ 32),
    Nat.mod_eq_of_lt (by omega : sz + 48 + align < 2 ^ 32),
    (by omega : (space + 2 ^ 32 - 32) % 2 ^ 32 = space - 32)]
  split_ifs with hrest
  · refine ⟨_, _, rfl, ?_, ?_⟩
    · rw [setSize_self]
      omega
    · refine tiles_front.mpr ⟨?_, tiles_block ?_⟩
      · rw [setSize_of_ne _ _ (by omega : t ≠ t + space - 16), setSize_self]
        omega
      · rw [setSize_self]
        omega
  · rw [(by omega : (t + space - 16 + sz + 16) % 2 ^ 32 = t + space + sz)]
    refine ⟨_, _, rfl, ?_, ?_⟩
    · rw [setSize_of_ne _ _ (by omega), setSize_self]
    · refine tiles_front.mpr ⟨?_, tiles_behind ?_ ?_⟩
      · rw [setSize_of_ne _ _ (by omega : t ≠ t + space + sz),
          setSize_of_ne _ _ (by omega : t ≠ t + space - 16), setSize_self]
        omega
      · rw [setSize_of_ne _ _ (by omega : t + space - 16 ≠ t + space + sz), setSize_self]
        omega
      · rw [setSize_self]
        omega

/-- And if there is no room, the size in front wraps. -/
theorem carveNew_narrow (hlo : 16 < alignSpace align t) (hhi : alignSpace align t < 32)
    (hlt : t + (sz + 48 + align) < 2 ^ 32) :
    ∃ s₁ rest, s.carveNew align sz t = (s₁, some t, t + alignSpace align t - 16, rest) ∧
      s₁.size t = alignSpace align t + 2 ^ 32 - 32 := by
  unfold Heap.carveNew
  dsimp only
  generalize alignSpace align t = space at hlo hhi ⊢
  rw [if_neg (by omega), Nat.mod_eq_of_lt (by omega : t + space - 16 < 2 ^ 32),
    (by omega : (space + 2 ^ 32 - 32) % 2 ^ 32 = space + 2 ^ 32 - 32)]
  split_ifs with hrest
  · refine ⟨_, _, rfl, ?_⟩
    rw [setSize_of_ne _ _ (by omega), setSize_self]
  · refine ⟨_, _, rfl, ?_⟩
    rw [setSize_of_ne _ _ (by omega), setSize_of_ne _ _ (by omega), setSize_self]

/-- New memory is covered exactly if the end of the heap stays an address and, again, the memory begins at
a multiple of 16 or the alignment is larger. -/
theorem coversNew_iff {k : Nat} {x : σ} (hb : WrappingBreak sbrk brk) (hk : align = 2 ^ k)
    (h16 : 16 ≤ align) (hmod : (sz + 48 + align) % 16 = 0) (hsum : sz + 48 + align < 2 ^ 32)
    (hs : sbrk s.system (sz + 48 + align) = some (t, x)) :
    CoversNew brk s align sz t x ↔
      (16 < align ∨ 16 ∣ brk s.system) ∧ brk s.system + (sz + 48 + align) < 2 ^ 32 := by
  obtain ⟨rfl, hx⟩ := hb.moves hmod hs
  have haddr := hb.addr s.system
  rw [CoversNew]
  rcases Nat.lt_or_ge (brk s.system + (sz + 48 + align)) (2 ^ 32) with hlt | hge
  · rw [Nat.mod_eq_of_lt hlt] at hx
    rw [hx]
    rcases distance_cases hk h16 (by omega) (brk s.system) with
      ⟨hspace, hdvd⟩ | ⟨hspace, habove⟩ | ⟨⟨hlo, hhi⟩, hnot⟩
    · obtain ⟨s₁, hcarve, -, htiles⟩ := carveNew_straight (s := { s with system := x }) hspace hlt
      rw [hcarve]
      exact iff_of_true htiles ⟨.inr hdvd, hlt⟩
    · have hbound := (alignSpace_bounds hk h16 (by omega) (brk s.system)).1
      obtain ⟨s₁, rest, hcarve, -, htiles⟩ :=
        carveNew_shifted (s := { s with system := x }) hspace hbound hlt
      rw [hcarve]
      exact iff_of_true htiles ⟨.inl habove, hlt⟩
    · obtain ⟨s₁, rest, hcarve, hsize⟩ := carveNew_narrow (s := { s with system := x }) hlo hhi hlt
      rw [hcarve]
      refine iff_of_false (fun htiles => ?_) fun h => hnot h.1
      have hfront := (tiles_front.mp htiles).1
      omega
  -- the end of the heap has started again at zero
  · refine iff_of_false (fun htiles => ?_) fun h => absurd h.2 (Nat.not_lt.mpr hge)
    have hle := Tiles.le htiles
    omega

/-! ### The call -/

/-- Giving back what is behind a free block that lies right: no header gets a smaller size. -/
theorem Layout.carve_grows {s₁ : Heap σ} {block : Nat} {rest : Option Nat}
    (h : Layout brk base s live bs) (ht : t ∈ s.firstFree) (hspace : alignSpace align t = 16)
    (hfit : 16 + sz ≤ s.size t) (hcarve : s.carve align sz t = (s₁, block, rest))
    (hrest : s₁.freeRest rest = some s') : ∀ x, s₁.size x ≤ s'.size x := by
  obtain ⟨xs, ys, hfs⟩ := List.append_of_mem ht
  obtain ⟨pre, b, post, rfl, hf, rfl, rfl, rfl⟩ := frees_split (h.firstFree.symm.trans hfs)
  have hmem : b ∈ pre ++ b :: post := by simp
  have hsize := h.sizes b hmem
  have hbounds := h.tiles.mem hmem
  have htop := h.top
  have hbstop : b.stop = b.addr + 16 + b.size := rfl
  unfold Heap.carve at hcarve
  dsimp only at hcarve
  rw [hspace, if_pos rfl] at hcarve
  split_ifs at hcarve with hlarge
  · rw [hsize] at hcarve hfit hlarge
    rw [Nat.mod_eq_of_lt (by omega : b.addr + 16 + sz < 2 ^ 32)] at hcarve
    obtain ⟨hs₁, hcarve⟩ := Prod.mk.inj hcarve
    obtain ⟨-, rfl⟩ := Prod.mk.inj hcarve
    have hmid : BlocksTile b.addr
        [⟨b.addr, sz, false⟩, ⟨b.addr + 16 + sz, b.size - sz - 16, true⟩] b.stop := by
      simp only [Tiles, Block.stop, true_and]
      omega
    have hlay : Layout brk base s₁ (insert (b.addr + 16 + sz + 16) live)
        (pre ++ [⟨b.addr, sz, false⟩, ⟨b.addr + 16 + sz, b.size - sz - 16, true⟩] ++ post) := by
      subst hs₁
      refine h.splice hf hmid ?_ rfl ?_ (fun x hx => ?_) ?_ fun p => ?_
      · exact List.isChain_cons.mpr ⟨fun y hy => .inr (by cases hy; rfl), .singleton _⟩
      · intro c hc
        rcases List.mem_cons.mp hc with rfl | hc
        · rw [setSize_of_ne _ _ (by omega : b.addr ≠ b.addr + 16 + sz), setSize_self]
        · rw [List.mem_singleton.mp hc, setSize_self]
      · rw [setSize_of_ne _ _ (by omega), setSize_of_ne _ _ (by omega)]
      · change s.firstFree = _
        rw [hfs]
        simp [frees]
      · simp [useds, eq_comm, or_comm]
    have hnot : b.addr + 16 + sz + 16 ∉ live := h.notMem_inside hmem hf (by omega) (by omega)
    obtain ⟨s₂, -, hfree, -, hgrows⟩ := hlay.freeRest hnot (by omega)
    cases hfree.symm.trans hrest
    exact hgrows
  · cases hcarve
    cases hrest
    exact fun _ => Nat.le_refl _

/-- The call on a free block. -/
theorem Layout.geometric_free {k size : Nat} {s₁ : Heap σ} {block : Nat} {rest : Option Nat}
    (h : Layout brk base s live bs) (hk : align = 2 ^ k) (h16 : 16 ≤ align)
    (hal : align + 48 < 2 ^ 32) (ht : t ∈ s.firstFree) (hfit : alignSpace align t + sz ≤ s.size t)
    (hcarve : s.carve align sz t = (s₁, block, rest)) (hrest : s₁.freeRest rest = some s')
    (hok : 16 < align ∨ 16 ∣ t) (hsize : size ≤ sz) :
    align ∣ (block + 16) % 2 ^ 32 ∧ size ≤ s'.size (((block + 16) % 2 ^ 32 + 2 ^ 32 - 16) % 2 ^ 32) := by
  have hlt := h.firstFree_lt ht
  have hdvd := alignSpace_dvd hk (by omega) hal t
  rcases distance_cases hk h16 hal t with ⟨hspace, -⟩ | ⟨hspace, -⟩ | ⟨-, hnot⟩
  · obtain ⟨s₂, rest₂, hcarve₂, hheader, -⟩ :=
      carve_straight hspace (hspace ▸ hfit : 16 + sz ≤ s.size t) hlt
    cases hcarve₂.symm.trans hcarve
    have hgrows := h.carve_grows ht hspace (hspace ▸ hfit) hcarve hrest t
    have hback : ((t + 16) % 2 ^ 32 + 2 ^ 32 - 16) % 2 ^ 32 = t := by omega
    rw [hback, Nat.mod_eq_of_lt (by omega)]
    rw [hspace] at hdvd
    exact ⟨hdvd, (hsize.trans hheader).trans hgrows⟩
  · obtain ⟨s₂, rest₂, hcarve₂, hheader, -⟩ := carve_shifted hspace hfit hlt
    cases hcarve₂.symm.trans hcarve
    obtain ⟨s₃, rest₃, s₄, bs', hcarve₃, hfree, -, -, -, hgrows⟩ := h.carve ht hspace hfit
    cases hcarve₃.symm.trans hcarve
    cases hfree.symm.trans hrest
    have hptr : (t + alignSpace align t - 16 + 16) % 2 ^ 32 = t + alignSpace align t := by omega
    have hback : (t + alignSpace align t + 2 ^ 32 - 16) % 2 ^ 32 = t + alignSpace align t - 16 := by omega
    rw [hptr, hback]
    exact ⟨hdvd, (hsize.trans hheader).trans (hgrows _)⟩
  · exact absurd hok hnot

/-- The call on new memory. -/
theorem Layout.geometric_new {k size : Nat} {x : σ} {s₁ s₂ : Heap σ} {block : Nat}
    {front rest : Option Nat} (h : Layout brk base s live bs) (hk : align = 2 ^ k) (h16 : 16 ≤ align)
    (hx : brk x = brk s.system + (sz + 48 + align)) (haddr : brk x < 2 ^ 32)
    (hcarve : { s with system := x }.carveNew align sz (brk s.system) = (s₁, front, block, rest))
    (hfront : s₁.freeRest front = some s₂) (hrest : s₂.freeRest rest = some s')
    (hok : 16 < align ∨ 16 ∣ brk s.system) (hsize : size ≤ sz) :
    align ∣ (block + 16) % 2 ^ 32 ∧ size ≤ s'.size (((block + 16) % 2 ^ 32 + 2 ^ 32 - 16) % 2 ^ 32) := by
  have hbound := (alignSpace_bounds hk h16 (by omega) (brk s.system)).1
  have hdvd := alignSpace_dvd hk (by omega) (by omega) (brk s.system)
  have hcase : alignSpace align (brk s.system) = 16 ∨ 32 ≤ alignSpace align (brk s.system) := by
    rcases distance_cases hk h16 (by omega) (brk s.system) with ⟨hspace, -⟩ | ⟨hspace, -⟩ | ⟨-, hnot⟩
    · exact .inl hspace
    · exact .inr hspace
    · exact absurd hok hnot
  obtain ⟨s₃, front₃, rest₃, s₄, s₅, bs', hcarve₃, hfront₃, hrest₃, -, -, -, hgrows⟩ :=
    h.carveNew hx haddr hcase hbound
  cases hcarve₃.symm.trans hcarve
  cases hfront₃.symm.trans hfront
  cases hrest₃.symm.trans hrest
  have hheader : sz ≤ s₁.size (brk s.system + alignSpace align (brk s.system) - 16) := by
    rcases hcase with hspace | hspace
    · obtain ⟨s₆, hcarve₆, hheader, -⟩ :=
        carveNew_straight (s := { s with system := x }) hspace
          (hx ▸ haddr : brk s.system + (sz + 48 + align) < 2 ^ 32)
      obtain ⟨rfl, -⟩ := Prod.mk.inj (hcarve₆.symm.trans hcarve)
      rwa [hspace, Nat.add_sub_cancel]
    · obtain ⟨s₆, rest₆, hcarve₆, hheader, -⟩ :=
        carveNew_shifted (s := { s with system := x }) hspace hbound (hx ▸ haddr)
      cases hcarve₆.symm.trans hcarve
      exact hheader
  generalize alignSpace align (brk s.system) = space at hbound hdvd hcase hheader ⊢
  have hptr : (brk s.system + space - 16 + 16) % 2 ^ 32 = brk s.system + space := by omega
  have hback : (brk s.system + space + 2 ^ 32 - 16) % 2 ^ 32 = brk s.system + space - 16 := by omega
  rw [hptr, hback]
  exact ⟨hdvd, (hsize.trans hheader).trans (hgrows _)⟩

theorem NoWrap.le_roundSize (h : NoWrap sz) : sz ≤ roundSize sz := by
  obtain ⟨hsum, hround⟩ := h
  unfold roundSize at hround ⊢
  dsimp only at hround ⊢
  split_ifs at hround ⊢ <;> omega

/-- **The geometry** of `aligned_alloc`: the pointer, the header and the pieces are right exactly if there
is room for a header in front of the block or no need for one, and the new memory is there. -/
theorem geometric_iff {σ : Type} {sbrk : Sbrk σ} {brk : σ → Nat} {base align size p : Nat}
    {s s' : Heap σ} {live : Finset Nat} {bs : List Block} (hb : WrappingBreak sbrk brk)
    (h : Layout brk base s live bs) (hk : ∃ k, align = 2 ^ k) (hsize : NoWrap size)
    (hsum : roundSize size + 48 + max align 16 < 2 ^ 32)
    (ha : s.alignedAlloc sbrk align size = some (p, s')) :
    Geometric sbrk brk s align size p s' ↔ Straight brk s align size := by
  have hmax : (if align < 16 then 16 else align) = max align 16 := by split <;> omega
  have habove : 16 < max align 16 ↔ 16 < align := by omega
  have hmod : (roundSize size + 48 + max align 16) % 16 = 0 := by
    have hdvd := sixteen_dvd_max hk
    have hround := roundSize_mod size
    omega
  obtain ⟨k, hk⟩ : ∃ k, max align 16 = 2 ^ k := by
    obtain ⟨k, rfl⟩ := hk
    rcases Nat.le_total (2 ^ k) 16 with hle | hle
    · exact ⟨4, max_eq_right hle⟩
    · exact ⟨k, max_eq_left hle⟩
  have h16 : 16 ≤ max align 16 := le_max_right _ _
  have hround := hsize.le_roundSize
  unfold Heap.alignedAlloc at ha
  dsimp only at ha
  rw [hmax] at ha
  cases hfit : alignedFit s.size (max align 16) (roundSize size) s.firstFree with
  | some t =>
      obtain ⟨hmem, hle⟩ := alignedFit_some hfit
      have hbound := (alignSpace_bounds hk h16 (by omega) t).1
      rw [Nat.mod_eq_of_lt (by omega)] at hle
      have hcovers : Covers sbrk brk s (max align 16) (roundSize size) ↔ 16 < max align 16 ∨ 16 ∣ t := by
        rw [Covers, hfit]
        exact coversFree_iff hk h16 (by omega) hle (h.firstFree_lt hmem)
      have hstraight : Straight brk s align size ↔ 16 < max align 16 ∨ 16 ∣ t := by
        rw [Straight, hfit, habove]
      rw [hfit] at ha
      dsimp only at ha
      generalize hcarve : s.carve (max align 16) (roundSize size) t = cut at ha
      obtain ⟨s₁, block, rest⟩ := cut
      obtain ⟨s₂, hrest, ha⟩ := Option.bind_eq_some_iff.mp ha
      cases ha
      rw [hstraight]
      refine ⟨fun hg => hcovers.mp hg.covers, fun hok => ?_⟩
      obtain ⟨hdvd, hheader⟩ := h.geometric_free hk h16 (by omega) hmem hle hcarve hrest hok hround
      exact ⟨hdvd, hheader, hcovers.mpr hok⟩
  | none =>
      rw [hfit] at ha
      dsimp only at ha
      obtain ⟨⟨t, s₀⟩, he, ha⟩ := Option.bind_eq_some_iff.mp ha
      obtain ⟨⟨t', x⟩, hs, he⟩ := Option.bind_eq_some_iff.mp he
      dsimp only at he
      split at he
      · cases he
      cases he
      rw [Nat.mod_eq_of_lt hsum] at hs
      have hnew := coversNew_iff hb hk h16 hmod hsum hs
      have hcovers : Covers sbrk brk s (max align 16) (roundSize size) ↔ Straight brk s align size := by
        rw [Covers, Straight, hfit, upward, hs, ← habove]
        dsimp only
        rw [and_left_comm, ← hnew]
        split_ifs with hlt
        · constructor
          · rintro ⟨t', x', heq, hcovers⟩
            cases heq
            exact ⟨hlt, hcovers⟩
          · exact fun h => ⟨t, x, rfl, h.2⟩
        · refine iff_of_false ?_ fun h => hlt h.1
          rintro ⟨_, _, heq, _⟩
          exact heq
      refine ⟨fun hg => hcovers.mp hg.covers, fun hok => ?_⟩
      have hcut := hok
      rw [Straight, hfit, ← habove] at hcut
      obtain ⟨hright, -, hlt⟩ := hcut
      obtain ⟨rfl, hx⟩ := hb.moves hmod hs
      rw [Nat.mod_eq_of_lt hlt] at hx
      dsimp only at ha
      generalize hcarve : { s with system := x }.carveNew (max align 16) (roundSize size)
        (brk s.system) = cut at ha
      obtain ⟨s₁, front, block, rest⟩ := cut
      obtain ⟨s₂, hfront, ha⟩ := Option.bind_eq_some_iff.mp ha
      obtain ⟨s₃, hrest, ha⟩ := Option.bind_eq_some_iff.mp ha
      cases ha
      obtain ⟨hdvd, hheader⟩ := h.geometric_new hk h16 hx (hb.addr x) hcarve hfront hrest hright hround
      exact ⟨hdvd, hheader, hcovers.mpr hok⟩

/-- Twenty bytes at a multiple of 64, on a new heap. -/
theorem geometric_new_heap : ∃ p s',
    (Client.start (4096 : BitVec 32) fun _ => 7).heap.alignedAlloc wrappingBump 64 20 = some (p, s') ∧
      Geometric wrappingBump BitVec.toNat (Client.start 4096 fun _ => 7).heap 64 20 p s' := by
  have hl := layout_start wrappingBump_break.contiguous (4096 : BitVec 32) fun _ => 7
  refine ⟨4160, _, rfl, ?_⟩
  exact (geometric_iff wrappingBump_break hl ⟨6, rfl⟩ (by decide) (by decide) rfl).mpr
    ⟨.inl (by decide), by decide, by decide⟩

/-- A heap that begins at `0x1005`: the piece in front of the block has 2^32 - 5 bytes. -/
theorem front_wraps : ∃ s',
    (Client.start (0x1005 : BitVec 32) fun _ => 7).heap.alignedAlloc wrappingBump 16 8 =
        some (0x1020, s') ∧
      ¬Geometric wrappingBump BitVec.toNat (Client.start 0x1005 fun _ => 7).heap 16 8 0x1020 s' := by
  refine ⟨_, rfl, fun hg => ?_⟩
  obtain ⟨t, x, hs, hcovers⟩ : ∃ t x, upward wrappingBump 0x1005 80 = some (t, x) ∧
      CoversNew BitVec.toNat (Client.start 0x1005 fun _ => 7).heap 16 16 t x := hg.covers
  have hs' : wrappingBump 0x1005 80 = some (t, x) := hs
  have hnew := (coversNew_iff (k := 4) wrappingBump_break rfl (by decide) (by decide) (by decide) hs').mp
    hcovers
  exact absurd hnew.1 (by decide)

end Muxomucota.Stdlib
