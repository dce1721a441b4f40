import Mathlib.Data.List.GetD
import Muxomucota.Mmu.OnDemand
import Muxomucota.Tasking.LoadWindow

/-!
# Tasking — what is in memory after loading

After `load_image_to_process` a byte of a segment is in the page of its address, unless a later block
has the same page.  Every block gets a frame of its own, and the page is then in the frame of the last
block: where two segments share a page, the first one's part of it is lost, and what was in the free
frame before is there instead.
-/

namespace Muxomucota.Tasking
open Mmu Memory Lib

/-! ### Segments and their pages -/

/-- The byte belongs to the segment. -/
def ProgramHeader.Has (p : ProgramHeader) (a : Nat) : Prop := p.pVaddr ≤ a ∧ a < p.pVaddr + p.pMemsz

/-- Two segments have no address in common. -/
def ProgramHeader.Apart (p q : ProgramHeader) : Prop := ∀ a, p.Has a → ¬ q.Has a

/-- Two segments have no page in common. -/
def ProgramHeader.PagesApart (p q : ProgramHeader) : Prop :=
  ∀ a b, p.Has a → q.Has b → a / 4096 ≠ b / 4096

/-- What should be at byte `k` of a segment. -/
def ProgramHeader.byteAt (p : ProgramHeader) (image : Image) (k : Nat) : BitVec 8 :=
  if k < min p.pFilesz p.pMemsz then image (p.pOffset + k) else 0

/-- A page for user programs with `byte` at the address. -/
def Reads (m : Mem) (pd a : Nat) (byte : BitVec 8) : Prop :=
  ∃ e, m.page pd (a / 4096) = some e ∧ isUs e = true ∧ m.ram (frameOf e) (a % 4096) = byte

/-- Every byte of every segment is where it should be. -/
def Loaded (image : Image) (m : Mem) (pd : Nat) : Prop :=
  ∀ p ∈ image.segments, ∀ k < p.pMemsz, Reads m pd (p.pVaddr + k) (p.byteAt image k)

variable {m m' m₂ : Mem} {image : Image} {pd v a : Nat} {b x : LoadBlock} {bs done : List LoadBlock}

/-- User programs read it. -/
theorem Reads.userLoad {byte : BitVec 8} (h : Reads m pd a byte) (ha : a < physBase)
    (hus : UserDir m pd userPdes) : m.userLoad pd a = some byte := by
  obtain ⟨e, hpage, huser, hbyte⟩ := h
  have hpr : isPr (m.entry pd (a / 4096 / 1024)) = true := by
    by_contra hno
    rw [page_absent (Bool.not_eq_true _ ▸ hno)] at hpage
    cases hpage
  have hlt : a / 4096 / 1024 < userPdes := by
    unfold physBase at ha
    unfold userPdes
    omega
  rw [UserPage.load ⟨hpage, huser, hus _ hlt hpr⟩ ha, hbyte]

/-! ### The blocks of a segment -/

theorem LoadBlock.bytes_length (image : Image) (b : LoadBlock) : (b.bytes image).length = b.length := by
  rw [LoadBlock.bytes, List.length_map, List.length_range]

theorem LoadBlock.bytes_getD (image : Image) (b : LoadBlock) {i : Nat} (h : i < b.length) :
    (b.bytes image).getD i 0 = if i < b.copied then image (b.source + i) else 0 := by
  unfold LoadBlock.bytes
  rw [List.getD_eq_getElem _ _ (by rwa [List.length_map, List.length_range]), List.getElem_map,
    List.getElem_range]

/-- Where the block of a byte is. -/
def LoadBlock.Covers (b : LoadBlock) (a : Nat) : Prop :=
  b.base / 4096 = a / 4096 ∧ b.ofs ≤ a % 4096 ∧ a % 4096 < b.ofs + b.length

theorem blocksFrom_zero (n base ofs remFsz source : Nat) : blocksFrom n base ofs 0 remFsz source = [] := by
  cases n with
  | zero => rfl
  | succ n => rw [blocksFrom, if_pos rfl]

instance (b : LoadBlock) (a : Nat) : Decidable (b.Covers a) := by
  unfold LoadBlock.Covers
  infer_instance

/-- Every block begins with a page, and its bytes are bytes of the segment. -/
theorem blocksFrom_within {n base ofs remMsz remFsz source : Nat} (hofs : ofs < 4096)
    (hbase : base % 4096 = 0) (htop : base + ofs + remMsz ≤ physBase) :
    ∀ b ∈ blocksFrom n base ofs remMsz remFsz source, base ≤ b.base ∧ b.base < physBase ∧
      ∀ a, b.Covers a → base + ofs ≤ a ∧ a < base + ofs + remMsz := by
  unfold physBase at htop ⊢
  induction n generalizing base ofs remMsz remFsz source with
  | zero => exact fun b hb => absurd hb List.not_mem_nil
  | succ n ih =>
      intro b hb
      rw [blocksFrom] at hb
      split at hb
      · exact absurd hb List.not_mem_nil
      · rename_i hpos
        rcases List.mem_cons.mp hb with rfl | hb
        · dsimp only
          refine ⟨le_rfl, by omega, ?_⟩
          rintro a ⟨hpage, hlo, hhi⟩
          dsimp only at hpage hlo hhi
          omega
        · by_cases hmore : remMsz - min (4096 - ofs) remMsz = 0
          · rw [hmore, blocksFrom_zero] at hb
            exact absurd hb List.not_mem_nil
          · have hnext : (base + 4096) % 2 ^ 32 = base + 4096 := by omega
            rw [hnext] at hb
            obtain ⟨hle, hlt, hin⟩ := ih (by decide) (by omega) (by omega) b hb
            refine ⟨by omega, hlt, fun a ha => ?_⟩
            have := hin a ha
            omega

/-- The blocks of a segment are in different pages. -/
theorem blocksFrom_pages {n base ofs remMsz remFsz source : Nat} (hofs : ofs < 4096)
    (hbase : base % 4096 = 0) (htop : base + ofs + remMsz ≤ physBase) :
    (blocksFrom n base ofs remMsz remFsz source).Pairwise fun x y => x.base / 4096 ≠ y.base / 4096 := by
  induction n generalizing base ofs remMsz remFsz source with
  | zero => exact .nil
  | succ n ih =>
      rw [blocksFrom]
      split
      · exact .nil
      · dsimp only
        by_cases hmore : remMsz - min (4096 - ofs) remMsz = 0
        · rw [hmore, blocksFrom_zero]
          exact List.pairwise_singleton ..
        · have hnext : (base + 4096) % 2 ^ 32 = base + 4096 := by
            unfold physBase at htop
            omega
          rw [hnext]
          have htop' : base + 4096 + 0 + (remMsz - min (4096 - ofs) remMsz) ≤ physBase := by omega
          refine .cons (fun b hb => ?_) (ih (by decide) (by omega) htop')
          have := (blocksFrom_within (by decide) (by omega) htop' b hb).1
          dsimp only
          omega

/-- Every byte of a segment is in a block. -/
theorem blocksFrom_byte {n base ofs remMsz remFsz source : Nat} (hofs : ofs < 4096)
    (hbase : base % 4096 = 0) (htop : base + ofs + remMsz ≤ physBase) (hmsz : remMsz ≤ n)
    (hfsz : remFsz ≤ remMsz) {k : Nat} (hk : k < remMsz) :
    ∃ b ∈ blocksFrom n base ofs remMsz remFsz source, b.Covers (base + ofs + k) ∧
      (b.bytes image).getD ((base + ofs + k) % 4096 - b.ofs) 0 =
        if k < remFsz then image (source + k) else 0 := by
  induction n generalizing base ofs remMsz remFsz source k with
  | zero => omega
  | succ n ih =>
      rw [blocksFrom, if_neg (by omega)]
      dsimp only
      by_cases hin : k < min (4096 - ofs) remMsz
      · refine ⟨_, List.mem_cons_self, ⟨by dsimp only; omega, by dsimp only; omega, by dsimp only; omega⟩,
          ?_⟩
        rw [show (base + ofs + k) % 4096 - ofs = k by omega, LoadBlock.bytes_getD _ _ hin]
        dsimp only
        by_cases hf : k < remFsz
        · rw [if_pos (by omega), if_pos hf]
        · rw [if_neg (by omega), if_neg hf]
      · have hnext : (base + 4096) % 2 ^ 32 = base + 4096 := by
          unfold physBase at htop
          omega
        rw [hnext]
        obtain ⟨b, hb, hcov, hbyte⟩ := @ih (base + 4096) 0 (remMsz - min (4096 - ofs) remMsz)
          (remFsz - min (min (4096 - ofs) remMsz) remFsz)
          (source + min (min (4096 - ofs) remMsz) remFsz) (by decide) (by omega) (by omega) (by omega)
          (by omega) (k - min (4096 - ofs) remMsz) (by omega)
        rw [show base + 4096 + 0 + (k - min (4096 - ofs) remMsz) = base + ofs + k by omega] at hcov hbyte
        refine ⟨b, List.mem_cons_of_mem _ hb, hcov, hbyte.trans ?_⟩
        by_cases hf : k < remFsz
        · rw [if_pos (by omega), if_pos hf, show source + min (min (4096 - ofs) remMsz) remFsz +
            (k - min (4096 - ofs) remMsz) = source + k by omega]
        · rw [if_neg (by omega), if_neg hf]

section segment

variable {p : ProgramHeader} (hp : p.pVaddr + p.pMemsz ≤ physBase)
include hp

theorem segment_top : p.pVaddr / 4096 * 4096 + p.pVaddr % 4096 + p.pMemsz ≤ physBase := by
  rw [Nat.div_add_mod']
  exact hp

theorem blocks_within : ∀ b ∈ p.blocks, b.base < physBase ∧ ∀ a, b.Covers a → p.Has a := by
  intro b hb
  have h := blocksFrom_within (Nat.mod_lt _ (by decide)) (Nat.mul_mod_left _ _) (segment_top hp) b hb
  rw [Nat.div_add_mod'] at h
  exact ⟨h.2.1, h.2.2⟩

theorem blocks_pages : p.blocks.Pairwise fun x y => x.base / 4096 ≠ y.base / 4096 :=
  blocksFrom_pages (Nat.mod_lt _ (by decide)) (Nat.mul_mod_left _ _) (segment_top hp)

theorem blocks_byte {k : Nat} (hk : k < p.pMemsz) : ∃ b ∈ p.blocks, b.Covers (p.pVaddr + k) ∧
    (b.bytes image).getD ((p.pVaddr + k) % 4096 - b.ofs) 0 = p.byteAt image k := by
  obtain ⟨b, hb, hcov, hbyte⟩ := @blocksFrom_byte image p.pMemsz _ _ _ (min p.pFilesz p.pMemsz) p.pOffset
    (Nat.mod_lt _ (by decide)) (Nat.mul_mod_left _ _) (segment_top hp) le_rfl (Nat.min_le_right _ _) k hk
  rw [Nat.div_add_mod'] at hcov hbyte
  exact ⟨b, hb, hcov, hbyte⟩

end segment

/-! ### The last block of a page -/

/-- The last of the blocks that are in page `v`. -/
def LastOf (done : List LoadBlock) (v : Nat) (b : LoadBlock) : Prop :=
  ∃ pre post, done = pre ++ b :: post ∧ b.base / 4096 = v ∧ ∀ x ∈ post, x.base / 4096 ≠ v

theorem LastOf.mem (h : LastOf done v b) : b ∈ done := by
  obtain ⟨pre, post, rfl, -⟩ := h
  exact List.mem_append_right _ List.mem_cons_self

theorem LastOf.append_left (h : LastOf done v b) (pre : List LoadBlock) : LastOf (pre ++ done) v b := by
  obtain ⟨l, post, rfl, hv, hpost⟩ := h
  exact ⟨pre ++ l, post, (List.append_assoc ..).symm, hv, hpost⟩

theorem LastOf.snoc (h : LastOf (done ++ [x]) v b) :
    b = x ∧ x.base / 4096 = v ∨ x.base / 4096 ≠ v ∧ LastOf done v b := by
  obtain ⟨pre, post, heq, hv, hpost⟩ := h
  rcases post.eq_nil_or_concat with rfl | ⟨post, y, rfl⟩
  · obtain ⟨-, hx⟩ := List.append_inj' heq rfl
    obtain rfl := List.singleton_inj.mp hx
    exact .inl ⟨rfl, hv⟩
  · rw [List.concat_eq_append] at heq hpost
    have hsplit : done ++ [x] = (pre ++ b :: post) ++ [y] := by
      rw [heq, List.append_assoc, List.cons_append]
    obtain ⟨rfl, hx⟩ := List.append_inj' hsplit rfl
    obtain rfl := List.singleton_inj.mp hx
    exact .inr ⟨hpost x (List.mem_append_right _ List.mem_cons_self), pre, post, rfl, hv, fun y hy =>
      hpost y (List.mem_append_left _ hy)⟩

/-- A page of a block has a last block. -/
theorem lastOf_exists (h : ∃ b ∈ done, b.base / 4096 = v) : ∃ b, LastOf done v b := by
  induction done with
  | nil =>
      obtain ⟨b, hb, -⟩ := h
      exact absurd hb List.not_mem_nil
  | cons x done ih =>
      by_cases hlater : ∃ b ∈ done, b.base / 4096 = v
      · obtain ⟨b, hb⟩ := ih hlater
        exact ⟨b, hb.append_left [x]⟩
      · obtain ⟨b, hb, hv⟩ := h
        rcases List.mem_cons.mp hb with rfl | hb
        · exact ⟨b, [], done, rfl, hv, fun y hy heq => hlater ⟨y, hy, heq⟩⟩
        · exact absurd ⟨b, hb, hv⟩ hlater

/-! ### What the loop leaves in memory -/

/-- The page of a block `b`, if no later block has it: it is in a frame that was free, with the bytes of
the block and, around them, what was in the frame. -/
structure PageOf (m₀ m : Mem) (pd : Nat) (image : Image) (b : LoadBlock) (f : Nat) : Prop where
  free : m₀.pmm.users f = 0
  frame_lt : f < 2 ^ 20
  isData : IsData m pd userPdes f
  page : m.page pd (b.base / 4096) = some (entry f (pageFlags (vmmUr ||| vmmUw ||| vmmUx)))
  bytes : ∀ o, m.ram f o =
    if b.ofs ≤ o ∧ o < b.ofs + b.length then (b.bytes image).getD (o - b.ofs) 0 else m₀.ram f o

/-- After the blocks `done`. -/
structure Filled (m₀ m : Mem) (pd : Nat) (image : Image) (done : List LoadBlock) : Prop where
  held : Held m pd userPdes
  mapped : Mapped m₀ m pd userPdes
  pages : ∀ v b, LastOf done v b → ∃ f, PageOf m₀ m pd image b f

theorem Filled.nil (h : Held m pd userPdes) : Filled m m pd image [] where
  held := h
  mapped := ⟨fun _ hg => ⟨hg, rfl⟩, fun _ hg => hg, fun _ _ => rfl⟩
  pages := by
    rintro v b ⟨pre, post, heq, -⟩
    exact absurd heq.symm (List.append_ne_nil_of_right_ne_nil pre (List.cons_ne_nil b post))

/-- One block. -/
theorem Filled.snoc (h : Filled m m₂ pd image done) (hdone : ∀ y ∈ done, y.base < physBase)
    (hb : b.base < physBase) (hm : plainBlock image pd m₂ b = some m') :
    Filled m m' pd image (done ++ [b]) := by
  obtain ⟨hheld, hmapped, -, f, hfree, hlt, hdata, hpage, hbytes⟩ :=
    loadImagePage_contents h.held le_rfl hb hm
  have hin : ∀ y : LoadBlock, y.base < physBase → y.base / 4096 < userPdes * 1024 := by
    intro y hy
    unfold physBase at hy
    unfold userPdes
    omega
  refine ⟨hheld, h.mapped.trans hmapped, fun v x hx => ?_⟩
  rcases hx.snoc with ⟨rfl, -⟩ | ⟨hne, hx⟩
  · refine ⟨f, not_not.mp fun hne => h.mapped.used f hne hfree, hlt, hdata, ?_, fun o => ?_⟩
    · rw [hpage _ (hin x hb), if_pos rfl]
    · rw [hbytes, LoadBlock.bytes_length, h.mapped.free f hfree]
  · obtain ⟨g, hg⟩ := h.pages v x hx
    obtain ⟨hdata', hkeep⟩ := hmapped.data g hg.isData
    have hv : x.base / 4096 = v := by
      obtain ⟨-, -, -, hv, -⟩ := hx
      exact hv
    refine ⟨g, hg.free, hg.frame_lt, hdata', ?_, fun o => ?_⟩
    · rw [hpage _ (hin x (hdone x hx.mem)), if_neg (fun heq => hne (heq.symm.trans hv)), hg.page]
    · rw [hkeep, hg.bytes]

/-- All blocks. -/
theorem blocks_filled (h : Held m pd userPdes) (hbs : ∀ b ∈ bs, b.base < physBase)
    (hm : bs.foldlM (plainBlock image pd) m = some m') : Filled m m' pd image bs := by
  refine foldlM_rule (P := fun done m₂ => Filled m m₂ pd image done) hm (.nil h) ?_
  intro pre x post m₁ m₂ hsplit hfilled hstep
  refine hfilled.snoc (fun y hy => hbs y ?_) (hbs x ?_) hstep
  · rw [hsplit]
    exact List.mem_append_left _ hy
  · rw [hsplit]
    exact List.mem_append_right _ List.mem_cons_self

/-- The frames that are taken do not depend on what is in memory. -/
theorem blocks_same (h : Held m pd userPdes) (hs : SameDir m m₂ pd) (hbs : ∀ b ∈ bs, b.base < physBase)
    (hm : bs.foldlM (plainBlock image pd) m = some m') :
    ∃ m₂', bs.foldlM (plainBlock image pd) m₂ = some m₂' := by
  induction bs generalizing m m₂ with
  | nil => exact ⟨m₂, rfl⟩
  | cons b bs ih =>
      rw [List.foldlM_cons] at hm
      obtain ⟨m₁, hm₁, hm⟩ := Option.bind_eq_some_iff.mp hm
      obtain ⟨hb, hbs⟩ := List.forall_mem_cons.mp hbs
      obtain ⟨m₃, hm₃, hs₃⟩ := hs.loadImagePage h.dir hm₁
      obtain ⟨m₂', hm₂'⟩ := ih (loadImagePage_contents h le_rfl hb hm₁).1 hs₃ hbs hm
      exact ⟨m₂', by rw [List.foldlM_cons, plainBlock, hm₃]; exact hm₂'⟩

/-- What is read in a page is what the last block has put there, or what was in the frame. -/
theorem Filled.reads (h : Filled m m' pd image done) (hb : LastOf done (a / 4096) b) :
    ∃ f, m.pmm.users f = 0 ∧ ∀ byte, Reads m' pd a byte ↔
      (if b.Covers a then (b.bytes image).getD (a % 4096 - b.ofs) 0 else m.ram f (a % 4096)) = byte := by
  obtain ⟨f, hf⟩ := h.pages _ b hb
  obtain ⟨-, -, -, hv, -⟩ := hb
  have hframe : frameOf (entry f (pageFlags (vmmUr ||| vmmUw ||| vmmUx))) = f :=
    frameOf_entry hf.frame_lt (isFlags_pageFlags _)
  have hcov : b.Covers a ↔ b.ofs ≤ a % 4096 ∧ a % 4096 < b.ofs + b.length := and_iff_right hv
  have hpage := hf.page
  rw [hv] at hpage
  refine ⟨f, hf.free, fun byte => ⟨?_, fun hbyte => ⟨_, hpage, ?_, ?_⟩⟩⟩
  · rintro ⟨e, he, -, hbyte⟩
    rw [hpage] at he
    obtain rfl := Option.some.inj he
    rw [← hbyte, hframe, hf.bytes]
    simp only [hcov]
  · rw [isUs_entry]
    decide
  · rw [hframe, hf.bytes, ← hbyte]
    simp only [hcov]

/-! ### Segments that share a page -/

/-- A relation that holds of every element and those behind it. -/
theorem pairwise_of_split {α : Type*} {R : α → α → Prop} {l : List α}
    (h : ∀ pre x post, l = pre ++ x :: post → ∀ y ∈ post, R x y) : l.Pairwise R := by
  induction l with
  | nil => exact .nil
  | cons x l ih =>
      refine .cons (h [] x l rfl) (ih fun pre y post heq => h (x :: pre) y post ?_)
      rw [heq, List.cons_append]

theorem pairwise_split {α : Type*} {R : α → α → Prop} {pre post : List α} {x : α}
    (h : (pre ++ x :: post).Pairwise R) : ∀ y ∈ post, R x y :=
  (List.pairwise_cons.mp (List.pairwise_append.mp h).2.1).1

theorem load_blocks {r : Nat × Nat} (hload : loadImageToProcess image pd m = some (some r, m')) :
    image.checkProcessFileImage = true ∧ image.blocks.foldlM (plainBlock image pd) m = some m' := by
  have hcheck : image.checkProcessFileImage = true := by
    by_contra hno
    rw [loadImageToProcess, if_pos hno] at hload
    cases hload
  rw [loadImageToProcess_blocks image pd m hcheck] at hload
  obtain ⟨m₁, hm₁, heq⟩ := Option.map_eq_some_iff.mp hload
  cases heq
  exact ⟨hcheck, hm₁⟩

section image

variable (hbelow : ∀ p ∈ image.segments, p.pVaddr + p.pMemsz ≤ physBase)
include hbelow

theorem blocks_below : ∀ b ∈ image.blocks, b.base < physBase := by
  intro b hb
  obtain ⟨p, hp, hb⟩ := List.mem_flatMap.mp hb
  exact (blocks_within (hbelow p hp) b hb).1

/-- Where no two segments share a page, the block of a byte is the last of its page. -/
theorem loaded_of_apart (h : Filled m m' pd image image.blocks)
    (hpages : image.segments.Pairwise ProgramHeader.PagesApart) : Loaded image m' pd := by
  intro p hp k hk
  obtain ⟨pre, post, hsplit⟩ := List.append_of_mem hp
  obtain ⟨b, hb, hcov, hbyte⟩ := @blocks_byte image p (hbelow p hp) k hk
  obtain ⟨l, r, hblocks⟩ := List.append_of_mem hb
  have hown := blocks_pages (hbelow p hp)
  rw [hblocks] at hown
  rw [hsplit] at hpages
  have hlast : LastOf image.blocks ((p.pVaddr + k) / 4096) b := by
    refine ⟨pre.flatMap ProgramHeader.blocks ++ l, r ++ post.flatMap ProgramHeader.blocks, ?_, hcov.1,
      fun x hx => ?_⟩
    · rw [Image.blocks, hsplit, List.flatMap_append, List.flatMap_cons, hblocks]
      simp only [List.append_assoc, List.cons_append]
    · rcases List.mem_append.mp hx with hx | hx
      · rw [← hcov.1]
        exact (pairwise_split hown x hx).symm
      · -- a block of a later segment that has the page has a byte in it
        obtain ⟨q, hq, hx⟩ := List.mem_flatMap.mp hx
        have hqs : q ∈ image.segments := by
          rw [hsplit]
          exact List.mem_append_right _ (List.mem_cons_of_mem p hq)
        have hfits := image.blocks_fit x (List.mem_flatMap.mpr ⟨q, hqs, hx⟩)
        have hxcov : x.Covers (x.base / 4096 * 4096 + x.ofs) := by
          have hpos := hfits.pos
          have hpage := hfits.page
          refine ⟨by omega, by omega, by omega⟩
        have hne := pairwise_split hpages q hq (p.pVaddr + k) _ ⟨by omega, by omega⟩
          ((blocks_within (hbelow q hqs) x hx).2 _ hxcov)
        rw [← hxcov.1] at hne
        exact hne.symm
  obtain ⟨f, -, hreads⟩ := h.reads hlast
  exact (hreads _).mpr (by rw [if_pos hcov, hbyte])

/-- The memory with other bytes in the free frames. -/
def refill (m : Mem) (byte : BitVec 8) : Ram :=
  fun g o => if m.pmm.users g = 0 then byte else m.ram g o

/-- Where two segments share a page, a byte of the first is what was in the frame of the last block. -/
theorem apart_of_loaded (h : Held m pd userPdes) (hdisj : image.segments.Pairwise ProgramHeader.Apart)
    (hblocks : image.blocks.foldlM (plainBlock image pd) m = some m')
    (hall : ∀ byte m₂, image.blocks.foldlM (plainBlock image pd)
      { m with ram := refill m byte } = some m₂ → Loaded image m₂ pd) :
    image.segments.Pairwise ProgramHeader.PagesApart := by
  refine pairwise_of_split fun pre p post hsplit q hq a b hpa hqb hpage => ?_
  have hps : p ∈ image.segments := by
    rw [hsplit]
    exact List.mem_append_right _ List.mem_cons_self
  have hlater : ∀ q ∈ post, q ∈ image.segments := by
    intro q hq
    rw [hsplit]
    exact List.mem_append_right _ (List.mem_cons_of_mem p hq)
  obtain ⟨y, hy, hycov, -⟩ := @blocks_byte image q (hbelow q (hlater q hq)) (b - q.pVaddr) (by
    have := hqb.2
    have := hqb.1
    omega)
  rw [show q.pVaddr + (b - q.pVaddr) = b by have := hqb.1; omega] at hycov
  obtain ⟨x, hx⟩ := @lastOf_exists (a / 4096) (post.flatMap ProgramHeader.blocks)
    ⟨y, List.mem_flatMap.mpr ⟨q, hq, hy⟩, hycov.1.trans hpage.symm⟩
  have hlast : LastOf image.blocks (a / 4096) x := by
    have hwhole := hx.append_left (pre.flatMap ProgramHeader.blocks ++ p.blocks)
    rw [Image.blocks, hsplit, List.flatMap_append, List.flatMap_cons]
    rwa [List.append_assoc] at hwhole
  have hout : ¬ x.Covers a := by
    intro hcov
    obtain ⟨q', hq', hx'⟩ := List.mem_flatMap.mp hx.mem
    rw [hsplit] at hdisj
    exact pairwise_split hdisj q' hq' a hpa ((blocks_within (hbelow q' (hlater q' hq')) x hx').2 a hcov)
  -- the free frames hold another byte
  have hsame : SameDir m { m with ram := refill m (p.byteAt image (a - p.pVaddr) + 1) } pd := by
    refine ⟨rfl, fun i => entry_congr ?_ i⟩
    funext o
    exact if_neg h.dir
  obtain ⟨m₂, hm₂⟩ := blocks_same h hsame (blocks_below hbelow) hblocks
  obtain ⟨f, hfree, hreads⟩ :=
    (blocks_filled (hsame.held h) (blocks_below hbelow) hm₂).reads hlast
  have hbyte := hall _ m₂ hm₂ p hps (a - p.pVaddr) (by
    have := hpa.2
    have := hpa.1
    omega)
  rw [show p.pVaddr + (a - p.pVaddr) = a by have := hpa.1; omega] at hbyte
  have heq := (hreads _).mp hbyte
  rw [if_neg hout] at heq
  have hfill : ({ m with ram := refill m (p.byteAt image (a - p.pVaddr) + 1) } : Mem).ram f (a % 4096) =
      p.byteAt image (a - p.pVaddr) + 1 := if_pos hfree
  rw [hfill] at heq
  generalize p.byteAt image (a - p.pVaddr) = byte at heq
  exact absurd heq (by decide +revert)

/-- **ELF loading contents**: whatever the free frames hold, every byte of every segment is where it
should be, if and only if no two segments share a page. -/
theorem load_contents_iff (h : Held m pd userPdes)
    (hdisj : image.segments.Pairwise ProgramHeader.Apart) {r : Nat × Nat}
    (hload : loadImageToProcess image pd m = some (some r, m')) :
    (∀ ram : Ram, (∀ g, m.pmm.users g ≠ 0 → ram g = m.ram g) → ∀ r₂ m₂,
        loadImageToProcess image pd { m with ram := ram } = some (some r₂, m₂) → Loaded image m₂ pd) ↔
      image.segments.Pairwise ProgramHeader.PagesApart := by
  obtain ⟨hcheck, hblocks⟩ := load_blocks hload
  constructor
  · intro hall
    refine apart_of_loaded hbelow h hdisj hblocks fun byte m₂ hm₂ => ?_
    refine hall (refill m byte) (fun g hg => funext fun o => if_neg hg) (image.top, image.eEntry) m₂ ?_
    rw [loadImageToProcess_blocks image pd _ hcheck, hm₂]
    rfl
  · intro hpages ram hram r₂ m₂ hm₂
    have hsame : SameDir m { m with ram := ram } pd := ⟨rfl, fun i => entry_congr (hram pd h.dir) i⟩
    exact loaded_of_apart hbelow
      (blocks_filled (hsame.held h) (blocks_below hbelow) (load_blocks hm₂).2) hpages

end image

/-! ### Two segments in one page -/

/-- Segments of one byte at `0x1000` and at `second`. -/
def twoByteImage (second : BitVec 32) : Image := fun off =>
  [0x7f, 0x45, 0x4c, 0x46, 1, 1, 1, 0, 0, 0, 0, 0, 0, 0, 0, 0, 2, 0, 3, 0, 1, 0, 0, 0, 0, 0x10, 0, 0,
    52, 0, 0, 0, 0, 0, 0, 0, 0, 0, 0, 0, 52, 0, 32, 0, 2, 0, 0, 0, 0, 0, 0, 0,
    1, 0, 0, 0, 116, 0, 0, 0, 0, 0x10, 0, 0, 0, 0, 0, 0, 1, 0, 0, 0, 1, 0, 0, 0,
    0, 0, 0, 0, 0, 0, 0, 0,
    1, 0, 0, 0, 117, 0, 0, 0, second.extractLsb' 0 8, second.extractLsb' 8 8, second.extractLsb' 16 8,
    second.extractLsb' 24 8, 0, 0, 0, 0, 1, 0, 0, 0, 1, 0, 0, 0,
    0, 0, 0, 0, 0, 0, 0, 0, 0x90, 0x91].getD off 0

/-- What is read at an address, if there is a page. -/
def pageByte (m : Mem) (pd a : Nat) : Option (BitVec 8) :=
  (m.page pd (a / 4096)).map fun e => m.ram (frameOf e) (a % 4096)

theorem Reads.pageByte {byte : BitVec 8} (h : Reads m pd a byte) : pageByte m pd a = some byte := by
  obtain ⟨e, hpage, -, hbyte⟩ := h
  rw [Tasking.pageByte, hpage, Option.map_some, hbyte]

/-- In two pages both bytes are there. -/
theorem load_two_pages : ∃ r m', loadImageToProcess (twoByteImage 0x2001) 0 (oneTable 0 0) =
    some (some r, m') ∧ Loaded (twoByteImage 0x2001) m' 0 := by
  have hsegments : (twoByteImage 0x2001).segments =
      [⟨1, 116, 0x1000, 1, 1⟩, ⟨1, 117, 0x2001, 1, 1⟩] := by decide
  have hok : (loadImageToProcess (twoByteImage 0x2001) 0 (oneTable 0 0)).map
      (fun r => r.1.isSome) = some true := by decide
  obtain ⟨⟨r, m'⟩, hload, hr⟩ := Option.map_eq_some_iff.mp hok
  obtain ⟨r, rfl⟩ := Option.isSome_iff_exists.mp hr
  refine ⟨r, m', hload, (load_contents_iff (fun p hp => ?_) (held_oneTable 0 _ 0) ?_ hload).mpr ?_
    (oneTable 0 0).ram (fun _ _ => rfl) r m' hload⟩
  · rw [hsegments] at hp
    rcases List.mem_pair.mp hp with rfl | rfl <;> decide
  · rw [hsegments]
    refine List.pairwise_pair.mpr fun a hp hq => ?_
    have := hp.2
    have := hq.1
    dsimp only at *
    omega
  · rw [hsegments]
    refine List.pairwise_pair.mpr fun a b hp hq => ?_
    have := hp.2
    have := hq.1
    dsimp only at *
    omega

/-- In one page the first byte is lost. -/
theorem shared_page_lost : (twoByteImage 0x1001).checkProcessFileImage = true ∧
    (∀ p ∈ (twoByteImage 0x1001).segments, p.pVaddr + p.pMemsz ≤ physBase) ∧
    (twoByteImage 0x1001).segments.Pairwise ProgramHeader.Apart ∧ Held (oneTable 0 0) 0 userPdes ∧
    ∃ r m', loadImageToProcess (twoByteImage 0x1001) 0 (oneTable 0 0) = some (some r, m') ∧
      ¬ Loaded (twoByteImage 0x1001) m' 0 := by
  have hsegments : (twoByteImage 0x1001).segments =
      [⟨1, 116, 0x1000, 1, 1⟩, ⟨1, 117, 0x1001, 1, 1⟩] := by decide
  have hok : (loadImageToProcess (twoByteImage 0x1001) 0 (oneTable 0 0)).map
      (fun r => (r.1.isSome, pageByte r.2 0 0x1000)) = some (true, some 0) := by decide
  obtain ⟨⟨r, m'⟩, hload, hr⟩ := Option.map_eq_some_iff.mp hok
  obtain ⟨hr, hbyte⟩ := Prod.mk.inj hr
  obtain ⟨r, rfl⟩ := Option.isSome_iff_exists.mp hr
  refine ⟨by decide, fun p hp => ?_, ?_, held_oneTable 0 _ 0, r, m', hload, fun hloaded => ?_⟩
  · rw [hsegments] at hp
    rcases List.mem_pair.mp hp with rfl | rfl <;> decide
  · rw [hsegments]
    refine List.pairwise_pair.mpr fun a hp hq => ?_
    have := hp.2
    have := hq.1
    dsimp only at *
    omega
  · have hfirst := hloaded ⟨1, 116, 0x1000, 1, 1⟩ (by
      rw [hsegments]
      exact List.mem_cons_self) 0 (by decide)
    rw [show ProgramHeader.byteAt ⟨1, 116, 0x1000, 1, 1⟩ (twoByteImage 0x1001) 0 = 0x90 from rfl] at hfirst
    have hread := hfirst.pageByte
    rw [hbyte] at hread
    exact absurd hread (by decide)

end Muxomucota.Tasking
