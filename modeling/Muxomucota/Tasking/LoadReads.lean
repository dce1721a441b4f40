import Muxomucota.Lib.Returns
import Muxomucota.Tasking.LoadWindow

/-!
# Tasking — what the loader reads of a file

`check_process_file_image` and `load_image_to_process`, called by `exec` for a file, with every access
to the file.  A field of a header is read at a 32-bit address that wraps around.  The computation stops
at the first read that is not inside the file, with its offset.

The loader is never told how long the file is.  It stays inside if the fields and the segments that
the file names are in it (`FileInside`), and what it does then depends on the file alone
(`load_covered`).
-/

namespace Muxomucota.Tasking
open Mmu Memory Lib

/-! ### The reads -/

/-- The file at its address. -/
def imageOf (file : List (BitVec 8)) : Image := fun off => file.getD off 0

/-- A read of `length` bytes. -/
def reads (file : List (BitVec 8)) (off length : Nat) : Except Nat Unit :=
  if off + length ≤ file.length then .ok () else .error off

/-- A comparison of `check_process_file_image`: the field, and what it must be. -/
structure HeaderTest where
  off : Nat
  length : Nat
  holds : Image → Bool

/-- The comparisons in their order. -/
def headerTests : List HeaderTest :=
  [⟨0, 1, fun f => f 0 = 0x7f⟩, ⟨1, 1, fun f => f 1 = 0x45⟩, ⟨2, 1, fun f => f 2 = 0x4c⟩,
    ⟨3, 1, fun f => f 3 = 0x46⟩, ⟨4, 1, fun f => f 4 = 1⟩, ⟨6, 1, fun f => f 6 = 1⟩,
    ⟨5, 1, fun f => f 5 = 1⟩, ⟨16, 2, fun f => f.half 16 = 2⟩, ⟨18, 2, fun f => f.half 18 = 3⟩]

/-- The comparisons up to the first that fails. -/
def runTests (file : List (BitVec 8)) : List HeaderTest → Except Nat Bool
  | [] => .ok true
  | t :: ts => do
      reads file t.off t.length
      if t.holds (imageOf file) then runTests file ts else .ok false

/-- `check_process_file_image`. -/
def checkReads (file : List (BitVec 8)) : Except Nat Bool := runTests file headerTests

/-- The offset of a field of `phdr[i]`. -/
def Image.phdrField (image : Image) (i field : Nat) : Nat :=
  (image.ePhoff + 32 * i + field) % 2 ^ 32

/-- `phdr[i]`, at an address that wraps around. -/
def Image.phdrAt (image : Image) (i : Nat) : ProgramHeader where
  pType := image.word (image.phdrField i 0)
  pOffset := image.word (image.phdrField i 4)
  pVaddr := image.word (image.phdrField i 8)
  pFilesz := image.word (image.phdrField i 16)
  pMemsz := image.word (image.phdrField i 20)

/-- The `memcpy` of a block. -/
def blockReads (file : List (BitVec 8)) (b : LoadBlock) : Except Nat Unit :=
  if b.copied = 0 then .ok () else reads file (b.source % 2 ^ 32) b.copied

/-- One program header. -/
def segmentReads (file : List (BitVec 8)) (i : Nat) : Except Nat Unit := do
  reads file ((imageOf file).phdrField i 0) 4
  if ((imageOf file).phdrAt i).pType ≠ 1 then .ok ()
  else do
    reads file ((imageOf file).phdrField i 8) 4
    reads file ((imageOf file).phdrField i 20) 4
    reads file ((imageOf file).phdrField i 16) 4
    reads file ((imageOf file).phdrField i 4) 4
    ((imageOf file).phdrAt i).blocks.forM (blockReads file)

/-- `load_image_to_process`. -/
def loadReads (file : List (BitVec 8)) : Except Nat Unit := do
  if ¬ (← checkReads file) then .ok ()
  else do
    reads file 28 4
    reads file 44 2
    (List.range (imageOf file).ePhnum).forM (segmentReads file)
    reads file 24 4

/-- `exec`: the file is checked, copied and loaded. -/
def execReads (file : List (BitVec 8)) : Except Nat Unit := do
  if ¬ (← checkReads file) then .ok ()
  else do
    reads file 0 file.length
    loadReads file

/-! ### What a file must have inside -/

/-- A comparison that is made: those before it hold. -/
def Reached (image : Image) (ts : List HeaderTest) (t : HeaderTest) : Prop :=
  ∃ pre post, ts = pre ++ t :: post ∧ ∀ u ∈ pre, u.holds image

/-- What is copied of a segment lies in the first `n` bytes. -/
def ProgramHeader.DataInside (p : ProgramHeader) (n : Nat) : Prop :=
  0 < min p.pFilesz p.pMemsz → p.pOffset + min p.pFilesz p.pMemsz ≤ n

/-- The fields of a program header that are used, and the part of its segment that is copied. -/
structure SegmentInside (file : List (BitVec 8)) (i : Nat) : Prop where
  type : (imageOf file).phdrField i 0 + 4 ≤ file.length
  fields : ((imageOf file).phdrAt i).pType = 1 →
    ∀ field ∈ [4, 8, 16, 20], (imageOf file).phdrField i field + 4 ≤ file.length
  data : ((imageOf file).phdrAt i).pType = 1 →
    ((imageOf file).phdrAt i).DataInside file.length

/-- Every field that is compared is in the file; and if the file is accepted, so are the rest of its
header and its segments. -/
structure FileInside (file : List (BitVec 8)) : Prop where
  header : ∀ t, Reached (imageOf file) headerTests t → t.off + t.length ≤ file.length
  rest : (imageOf file).checkProcessFileImage → 46 ≤ file.length
  segments : (imageOf file).checkProcessFileImage →
    ∀ i < (imageOf file).ePhnum, SegmentInside file i

variable {file : List (BitVec 8)} {image image' : Image} {i pd off length : Nat} {m : Mem}

theorem returns_reads {P : Unit → Prop} :
    Returns (reads file off length) P ↔ off + length ≤ file.length ∧ P () := by
  unfold reads
  split
  · rename_i h
    exact returns_ok.trans (and_iff_right h).symm
  · rename_i h
    exact returns_error.trans (iff_of_false id fun hin => h hin.1)

/-! ### The header -/

theorem checkProcessFileImage_eq (image : Image) :
    image.checkProcessFileImage = headerTests.all (·.holds image) := by
  simp only [Image.checkProcessFileImage, headerTests, List.all_cons, List.all_nil, Bool.and_true,
    Bool.decide_and]

theorem reached_cons {t u : HeaderTest} {ts : List HeaderTest} :
    Reached image (t :: ts) u ↔ u = t ∨ t.holds image ∧ Reached image ts u := by
  constructor
  · rintro ⟨pre, post, heq, hpre⟩
    cases pre with
    | nil =>
        obtain ⟨rfl, -⟩ := List.cons.inj heq
        exact .inl rfl
    | cons x pre =>
        obtain ⟨rfl, htail⟩ := List.cons.inj heq
        obtain ⟨ht, hpre⟩ := List.forall_mem_cons.mp hpre
        exact .inr ⟨ht, pre, post, htail, hpre⟩
  · rintro (rfl | ⟨ht, pre, post, rfl, hpre⟩)
    · exact ⟨[], ts, rfl, fun x hx => absurd hx List.not_mem_nil⟩
    · exact ⟨t :: pre, post, rfl, List.forall_mem_cons.mpr ⟨ht, hpre⟩⟩

theorem returns_runTests {P : Bool → Prop} (ts : List HeaderTest) :
    Returns (runTests file ts) P ↔
      (∀ t, Reached (imageOf file) ts t → t.off + t.length ≤ file.length) ∧
        P (ts.all (·.holds (imageOf file))) := by
  induction ts with
  | nil =>
      refine returns_ok.trans (and_iff_right ?_).symm
      rintro t ⟨pre, post, heq, -⟩
      exact absurd heq.symm (List.append_ne_nil_of_right_ne_nil pre (List.cons_ne_nil t post))
  | cons t ts ih =>
      rw [runTests, returns_bind, returns_reads, List.all_cons]
      simp only [reached_cons, forall_eq_or_imp, and_imp, and_assoc]
      refine and_congr_right fun _ => ?_
      by_cases ht : t.holds (imageOf file)
      · rw [if_pos ht, ih]
        simp only [ht, Bool.true_and, forall_const]
      · rw [if_neg ht, returns_ok]
        simp only [ht, Bool.false_and, Bool.false_eq_true, false_imp_iff, implies_true, true_and]

theorem returns_checkReads {P : Bool → Prop} :
    Returns (checkReads file) P ↔
      (∀ t, Reached (imageOf file) headerTests t → t.off + t.length ≤ file.length) ∧
        P (imageOf file).checkProcessFileImage := by
  rw [checkReads, returns_runTests, checkProcessFileImage_eq]

/-! ### The segments -/

/-- The blocks of a segment are copied one behind the other. -/
theorem blocksFrom_inside {n : Nat} (hn : n < 2 ^ 32) {k base ofs remMsz remFsz source : Nat}
    (hofs : ofs < 4096) (hfsz : remFsz ≤ remMsz) (hmsz : remMsz ≤ k) (hsource : source < 2 ^ 32) :
    (∀ b ∈ blocksFrom k base ofs remMsz remFsz source,
        b.copied ≠ 0 → b.source % 2 ^ 32 + b.copied ≤ n) ↔ (0 < remFsz → source + remFsz ≤ n) := by
  induction k generalizing base ofs remMsz remFsz source with
  | zero => exact iff_of_true (fun b hb => absurd hb List.not_mem_nil) fun _ => by omega
  | succ k ih =>
      rw [blocksFrom]
      split
      · exact iff_of_true (fun b hb => absurd hb List.not_mem_nil) fun _ => by omega
      · rw [List.forall_mem_cons]
        dsimp only
        rw [Nat.mod_eq_of_lt hsource]
        have ih := fun hlt => @ih ((base + 4096) % 2 ^ 32) 0 (remMsz - min (4096 - ofs) remMsz)
          (remFsz - min (min (4096 - ofs) remMsz) remFsz)
          (source + min (min (4096 - ofs) remMsz) remFsz) (by decide) (by omega) (by omega) hlt
        constructor
        · rintro ⟨hhead, htail⟩ hpos
          have hin := hhead (by omega)
          have := (ih (by omega)).mp htail
          omega
        · intro h
          refine ⟨fun _ => by omega, (ih ?_).mpr fun _ => by omega⟩
          by_cases hpos : 0 < remFsz
          · have := h hpos
            omega
          · omega

theorem word_lt (image : Image) (off : Nat) : image.word off < 2 ^ 32 := BitVec.isLt _

theorem blocks_inside {p : ProgramHeader} (hlen : file.length < 2 ^ 32) (hp : p.pOffset < 2 ^ 32) :
    Returns (p.blocks.forM (blockReads file)) (fun _ => True) ↔ p.DataInside file.length := by
  have hcopied := @blocksFrom_inside _ hlen p.pMemsz (p.pVaddr / 4096 * 4096) (p.pVaddr % 4096)
    p.pMemsz (min p.pFilesz p.pMemsz) p.pOffset (Nat.mod_lt _ (by decide)) (Nat.min_le_right _ _)
    le_rfl hp
  rw [returns_forM, ProgramHeader.DataInside, ← hcopied, ProgramHeader.blocks]
  refine forall₂_congr fun b _ => ?_
  unfold blockReads
  split
  · rename_i h
    exact returns_ok.trans (iff_of_true trivial fun hne => absurd h hne)
  · rename_i h
    exact returns_reads.trans ((and_iff_left trivial).trans ⟨fun hin _ => hin, fun hin => hin h⟩)

theorem segment_inside (hlen : file.length < 2 ^ 32) :
    Returns (segmentReads file i) (fun _ => True) ↔ SegmentInside file i := by
  rw [segmentReads, returns_bind, returns_reads]
  by_cases hp : ((imageOf file).phdrAt i).pType = 1
  · rw [if_neg (not_not.mpr hp)]
    have hoffset : ((imageOf file).phdrAt i).pOffset < 2 ^ 32 := word_lt _ _
    simp only [returns_bind, returns_reads, blocks_inside hlen hoffset]
    constructor
    · rintro ⟨htype, hvaddr, hmemsz, hfilesz, hoffset, hdata⟩
      refine ⟨htype, fun _ => ?_, fun _ => hdata⟩
      simp only [List.forall_mem_cons, List.not_mem_nil, false_imp_iff, implies_true, and_true]
      exact ⟨hoffset, hvaddr, hfilesz, hmemsz⟩
    · rintro ⟨htype, hfields, hdata⟩
      have hfields := hfields hp
      exact ⟨htype, hfields 8 (by decide), hfields 20 (by decide), hfields 16 (by decide),
        hfields 4 (by decide), hdata hp⟩
  · rw [if_pos hp, returns_ok]
    exact ⟨fun h => ⟨h.1, fun h1 => absurd h1 hp, fun h1 => absurd h1 hp⟩, fun h => ⟨h.type, trivial⟩⟩

/-! ### The whole file -/

theorem loadReads_inside (hlen : file.length < 2 ^ 32) :
    Returns (loadReads file) (fun _ => True) ↔ FileInside file := by
  rw [loadReads, returns_bind, returns_checkReads]
  by_cases hok : (imageOf file).checkProcessFileImage
  · rw [if_neg (not_not.mpr hok)]
    simp only [returns_bind, returns_reads]
    constructor
    · rintro ⟨hheader, -, hphnum, a, hsegments, -⟩
      refine ⟨hheader, fun _ => hphnum, fun _ i hi => ?_⟩
      exact (segment_inside hlen).mp (returns_forM.mp ⟨a, hsegments, trivial⟩ i (List.mem_range.mpr hi))
    · rintro ⟨hheader, hrest, hsegments⟩
      have hrest := hrest hok
      obtain ⟨a, ha, -⟩ := returns_forM.mpr fun i hi =>
        (segment_inside hlen).mpr (hsegments hok i (List.mem_range.mp hi))
      exact ⟨hheader, by omega, by omega, a, ha, by omega, trivial⟩
  · rw [if_pos hok, returns_ok]
    exact ⟨fun h => ⟨h.1, fun hyes => absurd hyes hok, fun hyes => absurd hyes hok⟩,
      fun h => ⟨h.header, trivial⟩⟩

/-- **ELF loading inside the file**: `exec` reads only bytes of the file if and only if the fields
and the segments that the file names are in it. -/
theorem exec_reads_inside_iff (hlen : file.length < 2 ^ 32) :
    Returns (execReads file) (fun _ => True) ↔ FileInside file := by
  rw [execReads, returns_bind, returns_checkReads]
  by_cases hok : (imageOf file).checkProcessFileImage
  · rw [if_neg (not_not.mpr hok), returns_bind, returns_reads, loadReads_inside hlen, Nat.zero_add]
    exact ⟨fun h => h.2.2, fun h => ⟨h.header, le_rfl, h⟩⟩
  · rw [if_pos hok, returns_ok]
    exact ⟨fun h => ⟨h.1, fun hyes => absurd hyes hok, fun hyes => absurd hyes hok⟩,
      fun h => ⟨h.header, trivial⟩⟩

/-! ### What the loader does depends on what it reads -/

/-- The image begins with the file. -/
def Covers (image : Image) (file : List (BitVec 8)) : Prop :=
  ∀ off < file.length, image off = imageOf file off

theorem Covers.word (h : Covers image file) (hin : off + 4 ≤ file.length) :
    image.word off = (imageOf file).word off := by
  unfold Image.word Ram.wordAt
  rw [h (off + 3) (by omega), h (off + 2) (by omega), h (off + 1) (by omega), h off (by omega)]

theorem Covers.half (h : Covers image file) (hin : off + 2 ≤ file.length) :
    image.half off = (imageOf file).half off := by
  unfold Image.half
  rw [h (off + 1) (by omega), h off (by omega)]

/-- A comparison depends on its field. -/
theorem Covers.holds (h : Covers image file) :
    ∀ t ∈ headerTests, t.off + t.length ≤ file.length → t.holds image = t.holds (imageOf file) := by
  simp only [headerTests, List.forall_mem_cons, List.not_mem_nil, false_imp_iff, implies_true, and_true]
  refine ⟨?_, ?_, ?_, ?_, ?_, ?_, ?_, ?_, ?_⟩ <;> intro hin
  all_goals first | rw [h _ hin] | rw [h.half hin]

theorem Covers.tests (h : Covers image file) {ts : List HeaderTest} (hts : ∀ t ∈ ts, t ∈ headerTests)
    (hin : ∀ t, Reached (imageOf file) ts t → t.off + t.length ≤ file.length) :
    ts.all (·.holds image) = ts.all (·.holds (imageOf file)) := by
  induction ts with
  | nil => rfl
  | cons t ts ih =>
      obtain ⟨ht, hts⟩ := List.forall_mem_cons.mp hts
      rw [List.all_cons, List.all_cons, h.holds t ht (hin t (reached_cons.mpr (.inl rfl)))]
      by_cases hh : t.holds (imageOf file)
      · rw [ih hts fun u hu => hin u (reached_cons.mpr (.inr ⟨hh, hu⟩))]
      · rw [Bool.not_eq_true] at hh
        rw [hh, Bool.false_and, Bool.false_and]

theorem Image.phdr_eq (h : image.phdrField i 0 + 24 ≤ 2 ^ 32) : image.phdr i = image.phdrAt i := by
  have hfield : ∀ field < 24,
      (image.ePhoff + 32 * i) % 2 ^ 32 + field = image.phdrField i field := by
    intro field hlt
    unfold Image.phdrField at h ⊢
    omega
  rw [Image.phdr, Image.phdrAt, ← hfield 0 (by decide), ← hfield 4 (by decide),
    ← hfield 8 (by decide), ← hfield 16 (by decide), ← hfield 20 (by decide)]
  rfl

/-- The segments are those of the file. -/
theorem Covers.segments (h : Covers image file) (hlen : file.length + 32 ≤ 2 ^ 32)
    (hfile : FileInside file) (hok : (imageOf file).checkProcessFileImage) :
    image.segments = (imageOf file).segments := by
  have hrest := hfile.rest hok
  have hphoff : image.ePhoff = (imageOf file).ePhoff := h.word (by omega)
  have hphnum : image.ePhnum = (imageOf file).ePhnum := h.half (by omega)
  have hfield : ∀ i field, image.phdrField i field = (imageOf file).phdrField i field := by
    intro i field
    rw [Image.phdrField, hphoff, Image.phdrField]
  unfold Image.segments
  rw [hphnum, List.filter_map, List.filter_map]
  have hphdr : ∀ i < (imageOf file).ePhnum, image.phdr i = image.phdrAt i ∧
      (imageOf file).phdr i = (imageOf file).phdrAt i ∧
      (image.phdrAt i).pType = ((imageOf file).phdrAt i).pType := by
    intro i hi
    have htype := (hfile.segments hok i hi).type
    refine ⟨Image.phdr_eq (by rw [hfield]; omega), Image.phdr_eq (by omega), ?_⟩
    show image.word (image.phdrField i 0) = _
    rw [hfield, h.word htype]
    rfl
  have hfilter : (List.range (imageOf file).ePhnum).filter
        ((fun p : ProgramHeader => decide (p.pType = 1)) ∘ image.phdr) =
      (List.range (imageOf file).ePhnum).filter
        ((fun p : ProgramHeader => decide (p.pType = 1)) ∘ (imageOf file).phdr) := by
    refine List.filter_congr fun i hi => ?_
    obtain ⟨himage, hfile', htype⟩ := hphdr i (List.mem_range.mp hi)
    rw [Function.comp_apply, Function.comp_apply, himage, hfile', htype]
  rw [hfilter]
  refine List.map_congr_left fun i hi => ?_
  obtain ⟨hi, hload⟩ := List.mem_filter.mp hi
  obtain ⟨himage, hfile', htype⟩ := hphdr i (List.mem_range.mp hi)
  have hload : ((imageOf file).phdrAt i).pType = 1 := by
    rw [← hfile']
    exact of_decide_eq_true hload
  have hfields := (hfile.segments hok i (List.mem_range.mp hi)).fields hload
  rw [himage, hfile']
  unfold Image.phdrAt at htype ⊢
  rw [ProgramHeader.mk.injEq]
  simp only [hfield] at htype ⊢
  exact ⟨htype, h.word (hfields 4 (by decide)), h.word (hfields 8 (by decide)),
    h.word (hfields 16 (by decide)), h.word (hfields 20 (by decide))⟩

/-- What is copied of a block is a part of what is copied of its segment. -/
theorem blocksFrom_source {n base ofs remMsz remFsz source : Nat} :
    ∀ b ∈ blocksFrom n base ofs remMsz remFsz source,
      source ≤ b.source ∧ b.source + b.copied ≤ source + remFsz := by
  induction n generalizing base ofs remMsz remFsz source with
  | zero => exact fun b hb => absurd hb List.not_mem_nil
  | succ n ih =>
      intro b hb
      rw [blocksFrom] at hb
      split at hb
      · exact absurd hb List.not_mem_nil
      · rcases List.mem_cons.mp hb with rfl | hb
        · dsimp only
          omega
        · have := ih b hb
          omega

theorem Covers.bytes (h : Covers image file) (hfile : FileInside file)
    (hok : (imageOf file).checkProcessFileImage) {b : LoadBlock} (hb : b ∈ (imageOf file).blocks)
    (hlen : file.length + 32 ≤ 2 ^ 32) : b.bytes image = b.bytes (imageOf file) := by
  obtain ⟨p, hp, hb⟩ := List.mem_flatMap.mp hb
  obtain ⟨hp, hload⟩ := List.mem_filter.mp hp
  obtain ⟨i, hi, rfl⟩ := List.mem_map.mp hp
  have hin := hfile.segments hok i (List.mem_range.mp hi)
  have heq : (imageOf file).phdr i = (imageOf file).phdrAt i := Image.phdr_eq (by
    have := hin.type
    omega)
  rw [heq] at hb hload
  have hdata := hin.data (of_decide_eq_true hload)
  unfold ProgramHeader.DataInside at hdata
  have hsource := blocksFrom_source b hb
  refine List.map_congr_left fun k _ => ?_
  split
  · exact h _ (by omega)
  · rfl

theorem foldlM_plainBlock {bs : List LoadBlock} (h : ∀ b ∈ bs, b.bytes image = b.bytes image') (m : Mem) :
    bs.foldlM (plainBlock image pd) m = bs.foldlM (plainBlock image' pd) m := by
  induction bs generalizing m with
  | nil => rw [List.foldlM_nil, List.foldlM_nil]
  | cons b bs ih =>
      obtain ⟨hb, hbs⟩ := List.forall_mem_cons.mp h
      rw [List.foldlM_cons, List.foldlM_cons, plainBlock, plainBlock, hb]
      exact Option.bind_congr fun m₁ _ => ih hbs m₁

/-- **What is behind the file does not matter** where all that is read is inside. -/
theorem load_covered (h : Covers image file) (hlen : file.length + 32 ≤ 2 ^ 32)
    (hfile : FileInside file) :
    loadImageToProcess image pd m = loadImageToProcess (imageOf file) pd m := by
  have hcheck : image.checkProcessFileImage = (imageOf file).checkProcessFileImage := by
    rw [checkProcessFileImage_eq, checkProcessFileImage_eq]
    exact h.tests (fun t ht => ht) hfile.header
  by_cases hok : (imageOf file).checkProcessFileImage
  · have hsegments := h.segments hlen hfile hok
    have hrest := hfile.rest hok
    rw [loadImageToProcess_blocks image pd m (hcheck.trans hok),
      loadImageToProcess_blocks (imageOf file) pd m hok, Image.blocks, Image.top, hsegments,
      show image.eEntry = (imageOf file).eEntry from h.word (by omega)]
    refine congrArg _ (foldlM_plainBlock (fun b hb => ?_) m)
    exact h.bytes hfile hok hb hlen
  · rw [loadImageToProcess, loadImageToProcess, if_pos hok, if_pos (by rw [hcheck]; exact hok)]

/-! ### A file that ends before its segment -/

/-- The image of one segment of one byte, cut off. -/
def oneByteFile (n : Nat) : List (BitVec 8) := (List.range n).map (oneByteImage 1)

/-- The whole file is loaded without a read outside. -/
theorem exec_reads_byte : Returns (execReads (oneByteFile 85)) fun _ => True :=
  (exec_reads_inside_iff (by decide)).mpr ((loadReads_inside (by decide)).mp ⟨(), rfl, trivial⟩)

/-- Without its last byte it is accepted, and the byte behind it is copied. -/
theorem byte_behind_file : (oneByteFile 84).length = 84 ∧
    (imageOf (oneByteFile 84)).checkProcessFileImage = true ∧
    execReads (oneByteFile 84) = .error 84 ∧ ¬ Returns (execReads (oneByteFile 84)) fun _ => True := by
  have hout : execReads (oneByteFile 84) = .error 84 := rfl
  refine ⟨rfl, rfl, hout, ?_⟩
  rw [hout]
  exact returns_error.mp

end Muxomucota.Tasking
