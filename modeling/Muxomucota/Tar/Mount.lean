import Muxomucota.Tar.Archive

/-!
# Tar — what a mounted archive looks like

`service_stream_send` finds the node of an entry through `final`, which it sets only when it creates
one.  So an archive is loaded if no entry names a node that is there already, and its nodes carry what
the entries say, up to times that do not fit into an `int`.
-/

namespace Muxomucota.Tar

variable {tar ptr : List Byte} {off n : Nat} {e : Entry} {l l' : Loading}

/-! ### Numbers -/

theorem parse_digits : ∀ (digits : List Nat) (v : Nat), (∀ d ∈ digits, d < 8) →
    (digits.map fun d => BitVec.ofNat 8 (48 + d)).foldl
        (fun (val : BitVec 32) c => (val <<< 3) + c.setWidth 32 - 48) (.ofNat 32 v) =
      .ofNat 32 (v * 8 ^ digits.length + Nat.ofDigits 8 digits.reverse) := by
  intro digits
  induction digits with
  | nil => intro v _; simp
  | cons d digits ih =>
      intro v hd
      have hchar : ∀ d < 8, (BitVec.ofNat 8 (48 + d)).setWidth 32 = BitVec.ofNat 32 (48 + d) := by
        decide
      have hstep : (BitVec.ofNat 32 v <<< 3) + (BitVec.ofNat 8 (48 + d)).setWidth 32 - 48 =
          BitVec.ofNat 32 (v * 8 + d) := by
        rw [hchar d (hd d List.mem_cons_self)]
        have h48 : (48 : BitVec 32).toNat = 48 := rfl
        apply BitVec.eq_of_toNat_eq
        simp only [BitVec.toNat_sub, BitVec.toNat_add, BitVec.toNat_shiftLeft, BitVec.toNat_ofNat,
          Nat.shiftLeft_eq, h48]
        omega
      rw [List.map_cons, List.foldl_cons, hstep, ih _ fun x hx => hd x (List.mem_cons_of_mem _ hx),
        List.reverse_cons, Nat.ofDigits_append, Nat.ofDigits_singleton, List.length_reverse,
        List.length_cons, pow_succ]
      congr 1
      ring

theorem parse_octal (h : Octal ptr n) : parseTarNumber ptr = .ofNat 32 n := by
  obtain ⟨digits, hd, rfl, rfl⟩ := h
  rw [parseTarNumber, List.dropLast_concat]
  simpa using parse_digits digits 0 hd

/-- A number is less than what its field has room for. -/
theorem Octal.lt {len : Nat} (h : Octal ptr n) (hlen : ptr.length ≤ len + 1) : n < 8 ^ len := by
  obtain ⟨digits, hd, rfl, rfl⟩ := h
  have hlt := Nat.ofDigits_lt_base_pow_length (b := 8) (l := digits.reverse) (by decide)
    (by simpa using hd)
  simp only [List.length_append, List.length_map, List.length_singleton] at hlen
  rw [List.length_reverse] at hlt
  exact lt_of_lt_of_le hlt (Nat.pow_le_pow_right (by decide) (by omega))

/-- A block count in bytes, as the pointer arithmetic has it. -/
theorem blocks_toNat {sz : Nat} (h : sz + 511 < 2 ^ 32) :
    ((BitVec.ofNat 32 sz + 511) &&& ~~~511 : BitVec 32).toNat = (sz + 511) / 512 * 512 := by
  have hshift : ∀ x : BitVec 32, x &&& ~~~511#32 = (x >>> 9) <<< 9 := by
    intro x
    apply BitVec.eq_of_getLsbD_eq
    intro i hi
    have hmask : (511 : Nat).testBit i = decide (i < 9) := by
      rw [show (511 : Nat) = 2 ^ 9 - 1 by rfl, Nat.testBit_two_pow_sub_one]
    simp only [BitVec.getLsbD_and, BitVec.getLsbD_not, BitVec.getLsbD_ofNat, hmask,
      BitVec.getLsbD_shiftLeft, BitVec.getLsbD_ushiftRight]
    by_cases h9 : i < 9
    · simp [h9, hi]
    · simp [h9, hi, show 9 + (i - 9) = i by omega]
  rw [show (511 : BitVec 32) = 511#32 from rfl, hshift]
  simp only [BitVec.toNat_shiftLeft, BitVec.toNat_ushiftRight, BitVec.toNat_add, BitVec.toNat_ofNat,
    Nat.shiftLeft_eq, Nat.shiftRight_eq_div_pow]
  omega

/-- A time that does not fit into an `int` comes out wrong. -/
theorem mtime_iff {t : Nat} (ht : t < 8 ^ 11) :
    ((BitVec.ofNat 32 t).signExtend 64).toNat = t ↔ t < 2 ^ 31 := by
  rw [BitVec.toNat_signExtend]
  simp only [BitVec.toNat_setWidth, BitVec.toNat_ofNat, BitVec.msb_eq_decide, decide_eq_true_eq]
  split <;> omega

/-! ### One entry -/

theorem EntryAt.header (h : EntryAt tar off e) : headerAt tar off = some
    { filename := e.name, mode := field tar (off + 100) 8, uid := field tar (off + 108) 8,
      gid := field tar (off + 116) 8, size := field tar (off + 124) 12,
      mtime := field tar (off + 136) 12 } := by
  obtain ⟨rest, hname⟩ := h.name
  have hlong : ¬ (tar.length < off + 148 ∨ 0 ∉ e.name ++ 0 :: rest) := by
    have := h.complete
    simp
    omega
  have htake : (e.name ++ 0 :: rest).takeWhile (· != 0) = e.name := by
    rw [List.takeWhile_append_of_pos]
    · simp
    · intro b hb
      have : b ≠ 0 := by rintro rfl; exact h.noNul hb
      simpa using this
  rw [headerAt]
  simp only [hname, if_neg hlong, htake]

/-- What a node carries after an entry. -/
theorem EntryAt.carries (h : EntryAt tar off e) (hfits : tar.length ≤ 0xf0000000)
    {header : TarHeader} (hh : headerAt tar off = some header) {data : Option Data}
    (hdata : data.elim [] Data.bytes = e.data) :
    Carries (header.fill data .blank) e ↔ e.mtime < 2 ^ 31 := by
  rw [h.header] at hh
  cases hh
  have hsize := h.complete
  have hlen : ∀ o k, (field tar o k).length ≤ k := fun o k => by
    rw [field, List.length_take]; exact Nat.min_le_left _ _
  have huid := h.uid.lt (hlen _ _)
  have hgid := h.gid.lt (hlen _ _)
  have htime := h.mtime.lt (hlen _ _)
  rw [← mtime_iff htime]
  refine ⟨fun hc => ?_, fun ht => ⟨?_, ?_, ?_, ?_, ?_, ?_⟩⟩
  · have := hc.mtime
    rwa [TarHeader.fill, parse_octal h.mtime] at this
  · simp only [TarHeader.fill, parse_octal h.size, BitVec.toNat_ofNat]
    omega
  · simp only [TarHeader.fill, parse_octal h.mode]
  · simp only [TarHeader.fill, parse_octal h.uid, BitVec.toNat_ofNat]
    omega
  · simp only [TarHeader.fill, parse_octal h.gid, BitVec.toNat_ofNat]
    omega
  · simp only [TarHeader.fill, parse_octal h.mtime]
    exact ht
  · simpa [TarHeader.fill, Attributes.blank] using hdata

/-- The tree after a new entry: the nodes on the way are there, the last one carries what the entry
says, and nothing else has changed. -/
structure Added (t t' : Tree) (e : Entry) : Prop where
  attr : ∃ a, t'.find e.path = some a ∧ (Carries a e ↔ e.mtime < 2 ^ 31)
  other : ∀ path, path ≠ e.path → t'.find path =
    (t.find path).or (if path ≠ [] ∧ path <+: e.path then some .blank else none)

theorem EntryAt.crash (h : EntryAt tar off e) (hold : l.tree.find e.path ≠ none) :
    loadEntry tar off l = none := by
  have hfinal : (l.tree.makeNodes (components e.name)).2 = none := by
    rw [Tree.makeNodes_final, if_neg fun h => hold h.2]
  rw [loadEntry, h.header, Option.bind_some]
  simp only [hfinal, Option.bind_none]

theorem EntryAt.load (h : EntryAt tar off e) (hfits : tar.length ≤ 0xf0000000)
    (hnew : l.tree.find e.path = none) :
    ∃ l', loadEntry tar off l = some (l', off + 512 + (e.size + 511) / 512 * 512) ∧
      Added l.tree l'.tree e := by
  have hsize := h.complete
  have hpath : e.path ≠ [] := components_ne_nil_iff.mpr h.component
  have hfinal : (l.tree.makeNodes (components e.name)).2 = some e.path := by
    rw [Tree.makeNodes_final, if_pos ⟨hpath, hnew⟩]
    rfl
  have hnext : (off + 512 + ((BitVec.ofNat 32 e.size + 511) &&& ~~~511 : BitVec 32).toNat) % 2 ^ 32 =
      off + 512 + (e.size + 511) / 512 * 512 := by
    rw [blocks_toNat (by omega)]
    omega
  have hadded : ∀ header data, headerAt tar off = some header →
      data.elim [] Data.bytes = e.data →
      Added l.tree ((l.tree.makeNodes (components e.name)).1.update (header.fill data) e.path) e := by
    intro header data hh hdata
    refine ⟨⟨header.fill data .blank, ?_, h.carries hfits hh hdata⟩, fun path hne => ?_⟩
    · rw [Tree.find_update, if_pos rfl, Tree.find_makeNodes, hnew, Option.none_or,
        if_pos ⟨hpath, List.prefix_rfl⟩]
      rfl
    · rw [Tree.find_update, if_neg hne, Tree.find_makeNodes]
      rfl
  have hzero : BitVec.ofNat 32 e.size = 0 ↔ e.size = 0 := by
    rw [← BitVec.toNat_inj, BitVec.toNat_ofNat]
    have : (0 : BitVec 32).toNat = 0 := rfl
    omega
  rw [loadEntry, h.header, Option.bind_some]
  simp only [hfinal, Option.bind_some, parse_octal h.size, hnext, hzero]
  split
  · rename_i hz
    refine ⟨_, rfl, hadded _ none h.header ?_⟩
    rw [← h.data, hz]
    simp [field]
  · have hin : ¬ tar.length < off + 512 + (BitVec.ofNat 32 e.size).toNat := by
      rw [BitVec.toNat_ofNat]
      omega
    have hsz : (BitVec.ofNat 32 e.size).toNat = e.size := by
      rw [BitVec.toNat_ofNat]
      omega
    rw [if_neg hin, hsz]
    exact ⟨_, rfl, hadded _ (some _) h.header h.data⟩

/-! ### The whole archive -/

/-- The tree after the entries `es`, none of which named a node that was there. -/
structure Holds (es : List Entry) (t : Tree) : Prop where
  nodes : ∀ path, t.find path ≠ none ↔ path ≠ [] ∧ ∃ e ∈ es, path <+: e.path
  attr : ∀ e ∈ es, ∃ a, t.find e.path = some a ∧ (Carries a e ↔ e.mtime < 2 ^ 31)

theorem holds_nil : Holds [] .null where
  nodes path := by simp
  attr := by simp

theorem Holds.snoc {es : List Entry} {t t' : Tree} (h : Holds es t) (hnew : t.find e.path = none)
    (hpath : e.path ≠ []) (ha : Added t t' e) : Holds (es ++ [e]) t' where
  nodes path := by
    by_cases hp : path = e.path
    · obtain ⟨a, hfind, -⟩ := ha.attr
      subst hp
      simp [hfind, hpath]
    · rw [ha.other path hp]
      have hn := h.nodes path
      simp only [List.mem_append, List.mem_singleton, or_and_right, exists_or, exists_eq_left]
      cases hf : t.find path with
      | some a =>
          simp only [hf, ne_eq, reduceCtorEq, not_false_eq_true, true_iff] at hn
          simp [hn.1, hn.2]
      | none =>
          simp only [hf, ne_eq, not_true_eq_false, false_iff, not_and] at hn
          split <;> simp_all
  attr e' he' := by
    rcases List.mem_append.mp he' with he' | he'
    · obtain ⟨a, hfind, hc⟩ := h.attr e' he'
      have hne : e'.path ≠ e.path := fun heq => by rw [heq, hnew] at hfind; cases hfind
      exact ⟨a, by rw [ha.other _ hne, hfind, Option.some_or], hc⟩
    · rw [List.mem_singleton.mp he']
      exact ha.attr

theorem EntriesAt.length_le : ∀ {es : List Entry} {off : Nat}, EntriesAt tar off es →
    es.length ≤ tar.length - off := by
  intro es
  induction es with
  | nil => intro off _; exact Nat.zero_le _
  | cons e es ih =>
      rintro off ⟨he, hes⟩
      have h₁ := he.complete
      have h₂ := ih hes
      rw [List.length_cons]
      omega

/-- No entry names a node that an earlier one has brought with it. -/
def Unclashing (es : List Entry) : Prop := es.Pairwise fun a b => ¬ b.path <+: a.path

/-- The loop goes on until an entry names a node that is there already. -/
theorem loadLoop_spec (hfits : tar.length ≤ 0xf0000000) :
    ∀ {es before : List Entry} {n off : Nat} {l : Loading}, es.length < n → EntriesAt tar off es →
      Holds before l.tree → Unclashing before →
      (Unclashing (before ++ es) ∧
        ∃ l', loadLoop tar n off l = some l' ∧ Holds (before ++ es) l'.tree) ∨
      (¬ Unclashing (before ++ es) ∧ loadLoop tar n off l = none) := by
  intro es
  induction es with
  | nil =>
      intro before n off l hn hend hl hb
      obtain ⟨n, rfl⟩ : ∃ r, n = r + 1 := ⟨n - 1, by simp at hn; omega⟩
      have hstop : ¬ (off < tar.length ∧ tar[off]? ≠ some 0) := by
        rintro ⟨hlt, hne⟩
        rcases hend with hend | hend
        · omega
        · exact hne hend
      rw [List.append_nil, loadLoop, if_neg hstop]
      exact .inl ⟨hb, l, rfl, hl⟩
  | cons e es ih =>
      rintro before n off l hn ⟨he, hes⟩ hl hb
      obtain ⟨n, rfl⟩ : ∃ r, n = r + 1 := ⟨n - 1, by simp at hn; omega⟩
      have hgo : off < tar.length ∧ tar[off]? ≠ some 0 := by
        obtain ⟨rest, hname⟩ := he.name
        obtain ⟨b, hbn, -⟩ := he.component
        have hlt : off < tar.length := by have := he.complete; omega
        refine ⟨hlt, fun hz => he.noNul ?_⟩
        have hhead : (field tar off 100).head? = tar[off]? := by
          rw [field, List.head?_take, if_neg (by decide), List.head?_drop]
        rw [hname, hz] at hhead
        cases hn : e.name with
        | nil => rw [hn] at hbn; cases hbn
        | cons c cs =>
            rw [hn] at hhead
            simp only [List.cons_append, List.head?_cons, Option.some.injEq] at hhead
            simp [hhead]
      have hpath : e.path ≠ [] := components_ne_nil_iff.mpr he.component
      rw [loadLoop, if_pos hgo]
      by_cases hnew : l.tree.find e.path = none
      · obtain ⟨l₁, hl₁, hadd⟩ := he.load hfits hnew
        have hb₁ : Unclashing (before ++ [e]) := by
          refine List.pairwise_append.mpr ⟨hb, List.pairwise_singleton _ _, fun a ha b hb hpre => ?_⟩
          rw [List.mem_singleton.mp hb] at hpre
          exact (hl.nodes e.path).mpr ⟨hpath, a, ha, hpre⟩ hnew
        have hrest := @ih (before ++ [e]) n _ l₁ (by simpa using hn) hes (hl.snoc hnew hpath hadd) hb₁
        rw [List.append_assoc, List.singleton_append] at hrest
        rw [hl₁, Option.bind_some]
        exact hrest
      · refine .inr ⟨fun hun => ?_, by rw [he.crash hnew, Option.bind_none]⟩
        obtain ⟨-, a, ha, hpre⟩ := (hl.nodes e.path).mp hnew
        exact (List.pairwise_append.mp hun).2.2 a ha e List.mem_cons_self hpre

/-- **The mounted tree**: the nodes are those that the entries name, with the directories on the way,
and each carries what the last entry of its name says. -/
structure Mounted (es : List Entry) (t : Tree) : Prop where
  nodes : ∀ path, t.find path ≠ none ↔ path ≠ [] ∧ ∃ e ∈ es, path <+: e.path
  last : ∀ before e after, es = before ++ e :: after → (∀ e' ∈ after, e'.path ≠ e.path) →
    ∃ a, t.find e.path = some a ∧ Carries a e

/-- **An archive is mounted** as it says exactly if no entry names a node that an earlier one has
brought with it, and no time is too late. -/
theorem mount_iff {es : List Entry} (h : WellFormed tar es) (buffers : Nat) :
    (∃ l, mount tar buffers = some l ∧ Mounted es l.tree) ↔
      Unclashing es ∧ ∀ e ∈ es, e.mtime < 2 ^ 31 := by
  have hlen : es.length < tar.length + 1 := by
    have := h.entries.length_le
    omega
  have hrun := loadLoop_spec h.fits (l := ⟨.null, buffers⟩) hlen h.entries holds_nil List.Pairwise.nil
  rw [List.nil_append] at hrun
  rcases hrun with ⟨hun, l, hl, hholds⟩ | ⟨hun, hl⟩
  · refine ⟨?_, fun ⟨_, htime⟩ => ⟨l, hl, hholds.nodes, fun before e after hes _ => ?_⟩⟩
    · rintro ⟨l', hl', hm⟩
      rw [mount, hl] at hl'
      cases hl'
      refine ⟨hun, fun e he => ?_⟩
      obtain ⟨before, after, rfl⟩ := List.append_of_mem he
      have hdiff : ∀ e' ∈ after, e'.path ≠ e.path := by
        intro e' he' heq
        have hpair := (List.pairwise_append.mp hun).2.1
        exact (List.pairwise_cons.mp hpair).1 e' he' (heq ▸ List.prefix_rfl)
      obtain ⟨a, hfind, hc⟩ := hm.last before e after rfl hdiff
      obtain ⟨a', hfind', hiff⟩ := hholds.attr e he
      rw [hfind'] at hfind
      cases hfind
      exact hiff.mp hc
    · have he : e ∈ es := by rw [hes]; simp
      obtain ⟨a, hfind, hiff⟩ := hholds.attr e he
      exact ⟨a, hfind, hiff.mpr (htime e he)⟩
  · refine ⟨fun ⟨l, hl', _⟩ => ?_, fun h => absurd h.1 hun⟩
    rw [mount, hl] at hl'
    cases hl'

/-! ### Two small archives -/

/-- The number zero. -/
def zeros (len : Nat) : List Byte := List.replicate len 0x30 ++ [0]

/-- A name with NULs behind it. -/
def padded (name : CString) : List Byte := name ++ List.replicate (100 - name.length) 0

/-- The block of an empty file of nobody, from 1970. -/
def emptyFile (name : CString) : List Byte :=
  padded name ++ (zeros 7 ++ (zeros 7 ++ (zeros 7 ++ (zeros 11 ++ (zeros 11 ++
    List.replicate 364 0)))))

/-- The entry that it is. -/
def Entry.empty (name : CString) : Entry :=
  { name, mode := 0, uid := 0, gid := 0, size := 0, mtime := 0, data := [] }

/-- `d/f`. -/
def contentsName : CString := [0x64, slash, 0x66]
/-- `d/`. -/
def directoryName : CString := [0x64, slash]

theorem octal_zeros (len : Nat) : Octal (zeros len) 0 := by
  refine ⟨List.replicate len 0, by simp, ?_, by simp [zeros]⟩
  induction len with
  | zero => rfl
  | succ len ih =>
      rw [List.replicate_succ, List.reverse_cons, Nat.ofDigits_append, ← ih]
      simp

@[simp] theorem length_zeros (len : Nat) : (zeros len).length = len + 1 := by simp [zeros]

theorem length_padded {name : CString} (h : name.length < 100) : (padded name).length = 100 := by
  simp [padded]
  omega

theorem length_emptyFile {name : CString} (h : name.length < 100) :
    (emptyFile name).length = 512 := by
  simp only [emptyFile, List.length_append, length_padded h, length_zeros, List.length_replicate]

theorem entryAt_emptyFile {name : CString} (before after : List Byte) (h : name.length < 100)
    (hnul : 0 ∉ name) (hcomp : ∃ b ∈ name, b ≠ slash) :
    EntryAt (before ++ (emptyFile name ++ after)) before.length (.empty name) := by
  have hfield : ∀ (a b c : List Byte), emptyFile name ++ after = a ++ (b ++ c) →
      field (before ++ (emptyFile name ++ after)) (before.length + a.length) b.length = b := by
    intro a b c heq
    rw [field, heq, ← List.append_assoc, ← List.length_append, List.drop_left, List.take_left]
  have hoctal : ∀ (a c : List Byte) (o len : Nat), emptyFile name ++ after =
      a ++ (zeros len ++ c) → a.length = o →
      Octal (field (before ++ (emptyFile name ++ after)) (before.length + o) (len + 1)) 0 := by
    intro a c o len heq ha
    have hmid := hfield a (zeros len) c heq
    rw [length_zeros, ha] at hmid
    rw [hmid]
    exact octal_zeros len
  have hpad := length_padded h
  have hlen := length_emptyFile h
  have hall : emptyFile name ++ after = padded name ++ (zeros 7 ++ (zeros 7 ++ (zeros 7 ++
      (zeros 11 ++ (zeros 11 ++ (List.replicate 364 0 ++ after)))))) := by
    simp only [emptyFile, List.append_assoc]
  have hname := hfield [] (padded name) _ hall
  rw [hpad] at hname
  refine ⟨⟨List.replicate (99 - name.length) 0, ?_⟩, hnul, hcomp, hoctal _ _ 100 7 hall hpad,
    hoctal (padded name ++ zeros 7) _ 108 7 (by rw [hall, List.append_assoc]) ?_,
    hoctal (padded name ++ (zeros 7 ++ zeros 7)) _ 116 7 (by simp only [hall, List.append_assoc]; rfl) ?_,
    hoctal (padded name ++ (zeros 7 ++ (zeros 7 ++ zeros 7))) _ 124 11
      (by simp only [hall, List.append_assoc]; rfl) ?_,
    hoctal (padded name ++ (zeros 7 ++ (zeros 7 ++ (zeros 7 ++ zeros 11)))) _ 136 11
      (by simp only [hall, List.append_assoc]; rfl) ?_, ?_, by simp [field, Entry.empty]⟩
  · refine hname.trans ?_
    rw [padded, ← List.replicate_succ, show 100 - name.length = 99 - name.length + 1 by omega]
    rfl
  all_goals simp only [List.length_append, hpad, hlen, length_zeros, Entry.empty]
  omega

theorem wellFormed_two {first second : CString} (h₁ : first.length < 100) (hnul₁ : 0 ∉ first)
    (hcomp₁ : ∃ b ∈ first, b ≠ slash) (h₂ : second.length < 100) (hnul₂ : 0 ∉ second)
    (hcomp₂ : ∃ b ∈ second, b ≠ slash) :
    WellFormed (emptyFile first ++ emptyFile second) [.empty first, .empty second] := by
  have hlen₁ := length_emptyFile h₁
  have hlen₂ := length_emptyFile h₂
  have he₁ := entryAt_emptyFile [] (emptyFile second) h₁ hnul₁ hcomp₁
  have he₂ := entryAt_emptyFile (emptyFile first) [] h₂ hnul₂ hcomp₂
  rw [List.nil_append] at he₁
  rw [List.append_nil, hlen₁] at he₂
  have hsize : ∀ name, (Entry.empty name).size = 0 := fun _ => rfl
  refine ⟨⟨he₁, ?_⟩, ?_⟩
  · rw [hsize]
    refine ⟨he₂, .inl ?_⟩
    rw [hsize, List.length_append, hlen₁, hlen₂]
  · rw [List.length_append, hlen₁, hlen₂]
    decide

/-- A directory and then its contents are mounted. -/
theorem mount_directory_first : ∃ l, mount (emptyFile directoryName ++ emptyFile contentsName) 0 = some l ∧
    Mounted [.empty directoryName, .empty contentsName] l.tree :=
  (mount_iff (wellFormed_two (by decide) (by decide) ⟨0x64, by decide, by decide⟩ (by decide) (by decide)
    ⟨0x64, by decide, by decide⟩) 0).mpr
    ⟨List.pairwise_pair.mpr (by decide), by simp [Entry.empty]⟩

theorem wellFormed_directory : WellFormed (emptyFile contentsName ++ emptyFile directoryName)
    [.empty contentsName, .empty directoryName] :=
  wellFormed_two (by decide) (by decide) ⟨0x64, by decide, by decide⟩ (by decide) (by decide)
    ⟨0x64, by decide, by decide⟩

/-- A directory after its contents: `final` is `NULL`. -/
theorem directory_after_contents : ¬ ∀ (tar : List Byte) (es : List Entry) (buffers : Nat),
    WellFormed tar es → ∃ l, mount tar buffers = some l ∧ Mounted es l.tree := by
  intro hall
  obtain ⟨l, hl, -⟩ := hall _ _ 0 wellFormed_directory
  have hclash : ¬ Unclashing ([] ++ [.empty contentsName, .empty directoryName]) := by
    intro hun
    refine (List.pairwise_cons.mp hun).1 (.empty directoryName) (by simp) ?_
    decide
  have hlen : [Entry.empty contentsName, .empty directoryName].length <
      (emptyFile contentsName ++ emptyFile directoryName).length + 1 := by
    have := wellFormed_directory.entries.length_le
    omega
  rcases loadLoop_spec (l := ⟨.null, 0⟩) wellFormed_directory.fits hlen
    wellFormed_directory.entries holds_nil List.Pairwise.nil with ⟨hun, -⟩ | ⟨-, hnone⟩
  · exact hclash hun
  · rw [mount, hnone] at hl
    cases hl

end Muxomucota.Tar
