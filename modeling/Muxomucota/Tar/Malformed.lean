import Muxomucota.Tar.Mount

/-!
# Tar — archives of any bytes

The loop of `service_stream_send` on bytes that need not be an archive.  A name goes on to the first NUL,
wherever that is, and `STRTOK_FOREACH` writes into it before the numbers are read, so the memory is part of
the state.  `none` is a read behind what has been received, or the dereference of a `NULL` pointer.
-/

namespace Muxomucota.Tar

/-! ### The loop -/

/-- What `STRTOK_FOREACH` leaves of a string, in at most `n` rounds: the slash behind a component becomes
a NUL. -/
def cutTokens : Nat → CString → CString
  | 0, string => string
  | n + 1, string =>
      let token := string.dropWhile (· == slash)
      let rest := token.dropWhile (· != slash)
      if rest = [] then string
      else string.takeWhile (· == slash) ++ token.takeWhile (· != slash) ++ 0 :: cutTokens n rest.tail

/-- The string at `off`, up to its NUL. -/
def stringFrom (mem : List Byte) (off : Nat) : Option CString :=
  let rest := mem.drop off
  if 0 ∈ rest then some (rest.takeWhile (· != 0)) else none

/-- The memory after the components of the name at `off` have been taken. -/
def cutAt (mem : List Byte) (off : Nat) (name : CString) : List Byte :=
  mem.take off ++ cutTokens (name.length + 1) name ++ mem.drop (off + name.length)

/-- The field of a number; its last byte is not read. -/
def numberAt (mem : List Byte) (ptr length : Nat) : List Byte := field mem ptr (length - 1) ++ [0]

/-- The header at `off` of which `filename` has been read. -/
def rawHeader (mem : List Byte) (off : Nat) (filename : CString) : TarHeader :=
  { filename, mode := numberAt mem (off + 100) 8, uid := numberAt mem (off + 108) 8,
    gid := numberAt mem (off + 116) 8, size := numberAt mem (off + 124) 12,
    mtime := numberAt mem (off + 136) 12 }

/-- What the loop works on. -/
structure RawLoading where
  mem : List Byte
  tree : Tree
  buffers : Nat

/-- One round of the loop, and where the next header is. -/
def rawEntry (off : Nat) (l : RawLoading) : Option (RawLoading × Nat) :=
  (stringFrom l.mem off).bind fun filename =>
    let mem := cutAt l.mem off filename
    let r := l.tree.makeNodes (components filename)
    r.2.bind fun final =>
      if mem.length < off + 147 then none
      else
        let header := rawHeader mem off filename
        let sz := parseTarNumber header.size
        let next := (off + 512 + ((sz + 511) &&& ~~~511).toNat) % 2 ^ 32
        if sz = 0 then some (⟨mem, r.1.update (header.fill none) final, l.buffers⟩, next)
        else if mem.length < off + 512 + sz.toNat then none
        else
          let data : Data := { buffer := l.buffers, bytes := field mem (off + 512) sz.toNat }
          some (⟨mem, r.1.update (header.fill data) final, l.buffers + 1⟩, next)

/-- At most `n` rounds of the loop. -/
def rawLoop : Nat → Nat → RawLoading → Option RawLoading
  | 0, _, _ => none
  | n + 1, off, l =>
      if off < l.mem.length ∧ l.mem[off]? ≠ some 0 then
        (rawEntry off l).bind fun r => rawLoop n r.2 r.1
      else some l

/-- The loop over what has been received; `malloc` has no memory for more than an address space. -/
def rawMount (n : Nat) (tar : List Byte) (buffers : Nat) : Option RawLoading :=
  if tar.length ≤ 0xf0000000 then rawLoop n 0 ⟨tar, .null, buffers⟩ else none

/-! ### What is asked of it -/

/-- No node says that it has more bytes than have been copied for it. -/
def SizesCopied (t : Tree) : Prop :=
  ∀ path a, t.find path = some a → a.sz.toNat ≤ (a.data.elim [] Data.bytes).length

/-- The loop ends, without a read behind the archive, and the sizes are right. -/
def SafelyLoaded (tar : List Byte) (buffers : Nat) : Prop :=
  ∃ n l, rawMount n tar buffers = some l ∧ SizesCopied l.tree

/-- The size in the header at `off`, of which `name` is the name. -/
def sizeAt (mem : List Byte) (off : Nat) (name : CString) : BitVec 32 :=
  parseTarNumber (numberAt (cutAt mem off name) (off + 124) 12)

/-- All that is read of an entry is there, and its name has a component. -/
structure RawEntryAt (mem : List Byte) (off : Nat) (name : CString) : Prop where
  ends : ∃ rest, mem.drop off = name ++ 0 :: rest
  noNul : 0 ∉ name
  component : ∃ b ∈ name, b ≠ slash
  header : off + 147 ≤ mem.length
  data : sizeAt mem off name ≠ 0 → off + 512 + (sizeAt mem off name).toNat ≤ mem.length

/-- There are entries of these names from `off` on, and then the end; each is read after the names before
it have been cut. -/
def RawEntries : List Byte → Nat → List CString → Prop
  | mem, off, [] => mem.length ≤ off ∨ mem[off]? = some 0
  | mem, off, name :: names => RawEntryAt mem off name ∧
      RawEntries (cutAt mem off name) (off + 512 + ((sizeAt mem off name).toNat + 511) / 512 * 512) names

/-- No name is that of a node that an earlier one has brought with it. -/
def NewNames (names : List CString) : Prop :=
  names.Pairwise fun a b => ¬ components b <+: components a

/-! ### Names -/

variable {mem tar : List Byte} {off next n : Nat} {name : CString} {l l' : RawLoading}

theorem length_cutTokens (n : Nat) (string : CString) :
    (cutTokens n string).length = string.length := by
  induction n generalizing string with
  | zero => rfl
  | succ n ih =>
      simp only [cutTokens]
      split
      · rfl
      · rename_i hrest
        have hskip := congrArg List.length
          (List.takeWhile_append_dropWhile (p := (· == slash)) (l := string))
        have htoken := congrArg List.length
          (List.takeWhile_append_dropWhile (p := (· != slash)) (l := string.dropWhile (· == slash)))
        have hpos := List.length_pos_iff.mpr hrest
        rw [List.length_append] at hskip htoken
        rw [List.length_append, List.length_append, List.length_cons, ih, List.length_tail]
        omega

theorem length_cutAt (h : ∃ rest, mem.drop off = name ++ 0 :: rest) :
    (cutAt mem off name).length = mem.length := by
  obtain ⟨rest, h⟩ := h
  have hlen := congrArg List.length h
  rw [List.length_drop, List.length_append, List.length_cons] at hlen
  rw [cutAt, List.length_append, List.length_append, length_cutTokens, List.length_take, List.length_drop]
  omega

theorem stringFrom_iff : stringFrom mem off = some name ↔
    (∃ rest, mem.drop off = name ++ 0 :: rest) ∧ 0 ∉ name := by
  simp only [stringFrom]
  constructor
  · intro h
    split at h
    · rename_i hmem
      cases h
      have hsplit := List.takeWhile_append_dropWhile (p := (· != 0)) (l := mem.drop off)
      refine ⟨?_, fun h0 => by simpa using List.mem_takeWhile_imp h0⟩
      cases hd : (mem.drop off).dropWhile (· != 0) with
      | nil =>
          have := List.dropWhile_eq_nil_iff.mp hd 0 hmem
          simp at this
      | cons c rest =>
          have hc : c = 0 := by
            have hne : (mem.drop off).dropWhile (· != 0) ≠ [] := hd ▸ List.cons_ne_nil c rest
            have hhead := List.head_dropWhile_not (· != 0) hne
            simp only [hd, List.head_cons] at hhead
            simpa using hhead
          rw [hd, hc] at hsplit
          exact ⟨rest, hsplit.symm⟩
    · cases h
  · rintro ⟨⟨rest, h⟩, h0⟩
    rw [h, if_pos (by simp), List.takeWhile_append_of_pos]
    · simp
    · intro b hb
      have : b ≠ 0 := by rintro rfl; exact h0 hb
      simpa using this

/-! ### One entry -/

/-- The state after an entry. -/
def RawLoading.add (l : RawLoading) (off : Nat) (name : CString) : RawLoading :=
  let mem := cutAt l.mem off name
  let header := rawHeader mem off name
  let sz := sizeAt l.mem off name
  let data : Data := { buffer := l.buffers, bytes := field mem (off + 512) sz.toNat }
  { mem
    tree := (l.tree.makeNodes (components name)).1.update
      (header.fill (if sz = 0 then none else some data)) (components name)
    buffers := if sz = 0 then l.buffers else l.buffers + 1 }

/-- The next header, where the size is that of bytes that are there. -/
theorem nextHeader_toNat {sz : BitVec 32} (hfits : mem.length ≤ 0xf0000000)
    (hoff : off + 147 ≤ mem.length) (hsz : sz ≠ 0 → off + 512 + sz.toNat ≤ mem.length) :
    (off + 512 + ((sz + 511) &&& ~~~511).toNat) % 2 ^ 32 =
      off + 512 + (sz.toNat + 511) / 512 * 512 := by
  have hcases : sz.toNat = 0 ∨ off + 512 + sz.toNat ≤ mem.length := by
    by_cases h : sz = 0
    · exact .inl (by rw [h]; rfl)
    · exact .inr (hsz h)
  have hfew : sz.toNat + 511 < 2 ^ 32 := by omega
  have hblocks := blocks_toNat hfew
  rw [BitVec.ofNat_toNat, BitVec.setWidth_eq] at hblocks
  rw [hblocks]
  omega

theorem rawEntry_eq (hends : ∃ rest, l.mem.drop off = name ++ 0 :: rest) (hnul : 0 ∉ name) :
    rawEntry off l =
      if components name ≠ [] ∧ l.tree.find (components name) = none then
        if off + 147 ≤ l.mem.length ∧
            (sizeAt l.mem off name ≠ 0 → off + 512 + (sizeAt l.mem off name).toNat ≤ l.mem.length) then
          some (l.add off name, (off + 512 + ((sizeAt l.mem off name + 511) &&& ~~~511).toNat) % 2 ^ 32)
        else none
      else none := by
  have hsize : parseTarNumber (rawHeader (cutAt l.mem off name) off name).size =
      sizeAt l.mem off name := rfl
  rw [rawEntry, stringFrom_iff.mpr ⟨hends, hnul⟩]
  simp only [Option.bind_some, Tree.makeNodes_final, length_cutAt hends]
  split
  · rw [Option.bind_some]
    by_cases hheader : off + 147 ≤ l.mem.length
    · rw [if_neg (Nat.not_lt.mpr hheader)]
      simp only [hsize, hheader, true_and]
      by_cases hz : sizeAt l.mem off name = 0
      · rw [if_pos hz, if_pos fun h => absurd hz h]
        simp only [RawLoading.add, if_pos hz]
      · rw [if_neg hz]
        by_cases hdata : off + 512 + (sizeAt l.mem off name).toNat ≤ l.mem.length
        · rw [if_neg (Nat.not_lt.mpr hdata), if_pos fun _ => hdata]
          simp only [RawLoading.add, if_neg hz]
        · rw [if_pos (Nat.lt_of_not_le hdata), if_neg fun h => hdata (h hz)]
    · rw [if_pos (Nat.lt_of_not_le hheader), if_neg fun h => hheader h.1]
  · rfl

/-- A round goes on behind an entry that is all there and whose node is new. -/
theorem rawEntry_iff (hfits : l.mem.length ≤ 0xf0000000) : rawEntry off l = some (l', next) ↔
    ∃ name, RawEntryAt l.mem off name ∧ l.tree.find (components name) = none ∧ l' = l.add off name ∧
      next = off + 512 + ((sizeAt l.mem off name).toNat + 511) / 512 * 512 := by
  constructor
  · intro h
    obtain ⟨name, hname, -⟩ := Option.bind_eq_some_iff.mp h
    obtain ⟨hends, hnul⟩ := stringFrom_iff.mp hname
    rw [rawEntry_eq hends hnul] at h
    split at h
    · rename_i hnew
      split at h
      · rename_i hin
        cases h
        exact ⟨name, ⟨hends, hnul, components_ne_nil_iff.mp hnew.1, hin.1, hin.2⟩, hnew.2, rfl,
          nextHeader_toNat hfits hin.1 hin.2⟩
      · cases h
    · cases h
  · rintro ⟨name, he, hnew, rfl, rfl⟩
    rw [rawEntry_eq he.ends he.noNul, if_pos ⟨components_ne_nil_iff.mpr he.component, hnew⟩,
      if_pos ⟨he.header, he.data⟩, nextHeader_toNat hfits he.header he.data]

/-- A node that is new starts blank. -/
theorem find_makeNodes_new {t : Tree} {parts : List CString} (hparts : parts ≠ [])
    (hnew : t.find parts = none) : (t.makeNodes parts).1.find parts = some .blank := by
  rw [Tree.find_makeNodes, hnew, Option.none_or, if_pos ⟨hparts, List.prefix_rfl⟩]

/-- The nodes of the entries with these names. -/
def NodesOf (names : List CString) (t : Tree) : Prop :=
  ∀ path, t.find path ≠ none ↔ path ≠ [] ∧ ∃ name ∈ names, path <+: components name

/-- An entry brings its node and those on the way. -/
theorem NodesOf.add {names : List CString} (h : NodesOf names l.tree)
    (hpath : components name ≠ []) (hnew : l.tree.find (components name) = none) :
    NodesOf (names ++ [name]) (l.add off name).tree := by
  intro path
  have hold := h path
  simp only [List.mem_append, List.mem_singleton, or_and_right, exists_or, exists_eq_left]
  rw [RawLoading.add, Tree.find_update]
  split
  · rename_i hp
    subst hp
    rw [find_makeNodes_new hpath hnew]
    exact iff_of_true (by simp) ⟨hpath, .inr List.prefix_rfl⟩
  · rw [Tree.find_makeNodes]
    cases hf : l.tree.find path with
    | some a =>
        have ⟨hne, hmem⟩ := hold.mp (by simp [hf])
        exact iff_of_true (by simp) ⟨hne, .inl hmem⟩
    | none =>
        have hnot : ¬ (path ≠ [] ∧ ∃ name ∈ names, path <+: components name) := fun h =>
          hold.mpr h hf
        rw [Option.none_or]
        split
        · rename_i hway
          exact iff_of_true (by simp) ⟨hway.1, .inr hway.2⟩
        · rename_i hway
          refine iff_of_false (by simp) ?_
          rintro ⟨hne, h | h⟩
          · exact hnot ⟨hne, h⟩
          · exact hway ⟨hne, h⟩

/-- A new node has the bytes that its size says. -/
theorem SizesCopied.add (h : SizesCopied l.tree) (he : RawEntryAt l.mem off name)
    (hnew : l.tree.find (components name) = none) : SizesCopied (l.add off name).tree := by
  intro path a ha
  rw [RawLoading.add, Tree.find_update] at ha
  split at ha
  · rename_i hp
    rw [hp, find_makeNodes_new (components_ne_nil_iff.mpr he.component) hnew, Option.map_some,
      Option.some.injEq] at ha
    subst ha
    have hsz : ∀ data, ((rawHeader (cutAt l.mem off name) off name).fill data .blank).sz =
        sizeAt l.mem off name := fun _ => rfl
    rw [hsz]
    split
    · rename_i hz
      rw [hz]
      exact Nat.zero_le _
    · rename_i hz
      have hdata := he.data hz
      simp only [TarHeader.fill, Option.some_or, Option.elim_some, field, List.length_take,
        List.length_drop, length_cutAt he.ends]
      omega
  · rw [Tree.find_makeNodes] at ha
    rcases Option.or_eq_some_iff.mp ha with ha | ⟨-, ha⟩
    · exact h path a ha
    · split at ha
      · cases ha
        exact Nat.zero_le _
      · cases ha

/-! ### The loop -/

theorem rawLoop_step (hgo : off < l.mem.length ∧ l.mem[off]? ≠ some 0) :
    rawLoop (n + 1) off l = (rawEntry off l).bind fun r => rawLoop n r.2 r.1 := by
  rw [rawLoop, if_pos hgo]

/-- There is a byte of a name where an entry begins. -/
theorem RawEntryAt.begins (he : RawEntryAt mem off name) : off < mem.length ∧ mem[off]? ≠ some 0 := by
  obtain ⟨rest, hends⟩ := he.ends
  obtain ⟨b, hb, -⟩ := he.component
  have hheader := he.header
  refine ⟨by omega, fun hz => he.noNul ?_⟩
  have hhead : (mem.drop off).head? = some 0 := by rw [List.head?_drop, hz]
  rw [hends] at hhead
  cases hname : name with
  | nil => rw [hname] at hb; cases hb
  | cons c cs =>
      rw [hname] at hhead
      simp only [List.cons_append, List.head?_cons, Option.some.injEq] at hhead
      simp [hhead]

/-- What a loop that ends has read: entries with new names, and then the end. -/
theorem entries_of_rawLoop {before : List CString} (hfits : l.mem.length ≤ 0xf0000000)
    (hl : NodesOf before l.tree) (hb : NewNames before) (h : rawLoop n off l = some l') :
    ∃ names, RawEntries l.mem off names ∧ NewNames (before ++ names) := by
  induction n generalizing off l before with
  | zero => cases h
  | succ n ih =>
      by_cases hgo : off < l.mem.length ∧ l.mem[off]? ≠ some 0
      · rw [rawLoop_step hgo] at h
        obtain ⟨⟨l₁, next⟩, hl₁, h⟩ := Option.bind_eq_some_iff.mp h
        obtain ⟨name, he, hnew, rfl, rfl⟩ := (rawEntry_iff hfits).mp hl₁
        have hpath := components_ne_nil_iff.mpr he.component
        have hb₁ : NewNames (before ++ [name]) := by
          refine List.pairwise_append.mpr ⟨hb, List.pairwise_singleton _ _, fun a ha b hb hpre => ?_⟩
          rw [List.mem_singleton.mp hb] at hpre
          exact (hl _).mpr ⟨hpath, a, ha, hpre⟩ hnew
        obtain ⟨names, hnames, hall⟩ :=
          ih ((length_cutAt he.ends).trans_le hfits) (hl.add hpath hnew) hb₁ h
        rw [List.append_assoc, List.singleton_append] at hall
        exact ⟨name :: names, ⟨he, hnames⟩, hall⟩
      · refine ⟨[], ?_, by rwa [List.append_nil]⟩
        rw [RawEntries]
        by_cases hlt : off < l.mem.length
        · exact .inr (by_contra fun hz => hgo ⟨hlt, hz⟩)
        · exact .inl (by omega)

/-- Entries with new names are loaded, and the sizes are right. -/
theorem rawLoop_of_entries : ∀ {names before : List CString} {off : Nat} {l : RawLoading},
    l.mem.length ≤ 0xf0000000 → NodesOf before l.tree → SizesCopied l.tree →
    RawEntries l.mem off names → NewNames (before ++ names) →
    ∃ n l', rawLoop n off l = some l' ∧ SizesCopied l'.tree := by
  intro names
  induction names with
  | nil =>
      intro before off l _ _ hsizes hend _
      refine ⟨1, l, ?_, hsizes⟩
      rw [rawLoop, if_neg]
      rintro ⟨hlt, hne⟩
      rcases hend with hend | hend
      · omega
      · exact hne hend
  | cons name names ih =>
      rintro before off l hfits hl hsizes ⟨he, hrest⟩ hall
      have hpath := components_ne_nil_iff.mpr he.component
      have hnew : l.tree.find (components name) = none := by
        by_contra hold
        obtain ⟨-, a, ha, hpre⟩ := (hl _).mp hold
        exact (List.pairwise_append.mp hall).2.2 a ha name List.mem_cons_self hpre
      rw [← List.singleton_append, ← List.append_assoc] at hall
      obtain ⟨n, l', hl', hcopied⟩ := ih ((length_cutAt he.ends).trans_le hfits) (hl.add hpath hnew)
        (hsizes.add he hnew) hrest hall
      refine ⟨n + 1, l', ?_, hcopied⟩
      rw [rawLoop_step he.begins, (rawEntry_iff hfits).mpr ⟨name, he, hnew, rfl, rfl⟩]
      exact hl'

/-- **Bytes are loaded safely** exactly if they are at most what an address space has room for, and are
entries that are all there, each with a name that ends and has a component and brings a new node, and then
the end. -/
theorem safelyLoaded_iff (tar : List Byte) (buffers : Nat) :
    SafelyLoaded tar buffers ↔
      tar.length ≤ 0xf0000000 ∧ ∃ names, RawEntries tar 0 names ∧ NewNames names := by
  have hnull : NodesOf [] .null := fun path => by simp
  constructor
  · rintro ⟨n, l, hl, -⟩
    rw [rawMount] at hl
    split at hl
    · rename_i hfits
      exact ⟨hfits, entries_of_rawLoop hfits hnull List.Pairwise.nil hl⟩
    · cases hl
  · rintro ⟨hfits, names, hnames, hall⟩
    obtain ⟨n, l, hl, hsizes⟩ := rawLoop_of_entries (l := ⟨tar, .null, buffers⟩) hfits
      hnull (fun path a ha => by simp at ha) hnames hall
    exact ⟨n, l, by rw [rawMount, if_pos hfits, hl], hsizes⟩

/-- One byte: its name has no end. -/
theorem oneByte_not_safelyLoaded : ¬ SafelyLoaded [0x61] 0 := by
  rintro ⟨n, l, hl, -⟩
  cases n with
  | zero => cases hl
  | succ n => cases hl

/-! ### Where the names are short -/

/-- Behind the name, the memory is as it was. -/
theorem drop_cutAt {k : Nat} (hoff : off ≤ mem.length) (hk : name.length ≤ k) :
    (cutAt mem off name).drop (off + k) = mem.drop (off + k) := by
  have hfront : (mem.take off ++ cutTokens (name.length + 1) name).length = off + name.length := by
    rw [List.length_append, length_cutTokens, List.length_take]
    omega
  rw [cutAt, List.drop_append, List.drop_eq_nil_of_le (by omega), hfront, List.drop_drop, List.nil_append]
  congr 1
  omega

/-- A field that is there has its last byte for nothing. -/
theorem parse_numberAt {ptr length : Nat} (h : ptr + length ≤ mem.length) (hlen : 0 < length) :
    parseTarNumber (numberAt mem ptr length) = parseTarNumber (field mem ptr length) := by
  rw [parseTarNumber, parseTarNumber, numberAt, List.dropLast_concat, List.dropLast_eq_take]
  simp only [field, List.length_take, List.length_drop, List.take_take]
  congr 2
  omega

/-- A header as the loop over archives has it. -/
theorem stringFrom_of_headerAt {header : TarHeader} (hmem : mem.drop off = tar.drop off)
    (h : headerAt tar off = some header) : off + 148 ≤ tar.length ∧ header.filename.length < 100 ∧
      stringFrom mem off = some header.filename := by
  rw [headerAt] at h
  split at h
  · cases h
  · rename_i hin
    cases h
    rw [not_or, not_not, Nat.not_lt] at hin
    have hshort : ((field tar off 100).takeWhile (· != 0)).length ≠ (field tar off 100).length := by
      intro heq
      have hall := List.takeWhile_eq_self_iff.mp ((List.takeWhile_prefix _).eq_of_length heq) 0 hin.2
      simp at hall
    have hle := (List.takeWhile_prefix (p := (· != 0)) (l := field tar off 100)).length_le
    have h100 : (field tar off 100).length ≤ 100 := by
      rw [field, List.length_take]
      exact Nat.min_le_left _ _
    refine ⟨hin.1, by simp only; omega, ?_⟩
    have hsplit : tar.drop off = field tar off 100 ++ (tar.drop off).drop 100 :=
      (List.take_append_drop 100 _).symm
    simp only [stringFrom, hmem]
    rw [hsplit, if_pos (List.mem_append_left _ hin.2), List.takeWhile_append, if_neg hshort]

/-- A round of the loop over archives is a round with the memory cut in a name that lies behind. -/
theorem rawEntry_of_loadEntry {r r' : Loading} (hfits : tar.length ≤ 0xf0000000)
    (hlen : mem.length = tar.length) (hmem : mem.drop off = tar.drop off)
    (h : loadEntry tar off r = some (r', next)) :
    ∃ mem', rawEntry off ⟨mem, r.tree, r.buffers⟩ = some (⟨mem', r'.tree, r'.buffers⟩, next) ∧
      mem'.length = tar.length ∧ mem'.drop next = tar.drop next := by
  obtain ⟨header, hheader, h⟩ := Option.bind_eq_some_iff.mp h
  obtain ⟨hin, hshort, hname⟩ := stringFrom_of_headerAt hmem hheader
  obtain ⟨final, hfinal, h⟩ := Option.bind_eq_some_iff.mp h
  have hcut := (length_cutAt (stringFrom_iff.mp hname).1).trans hlen
  have hbehind : ∀ k, 100 ≤ k →
      (cutAt mem off header.filename).drop (off + k) = tar.drop (off + k) := by
    intro k hk
    rw [drop_cutAt (by omega) (by omega), ← List.drop_drop, hmem, List.drop_drop]
  have hfield : ∀ k len, 100 ≤ k → field (cutAt mem off header.filename) (off + k) len =
      field tar (off + k) len := fun k len hk => by rw [field, hbehind k hk, field]
  have hnumber : ∀ k len, 100 ≤ k → 0 < len → k + len ≤ 148 →
      parseTarNumber (numberAt (cutAt mem off header.filename) (off + k) len) =
        parseTarNumber (field tar (off + k) len) := fun k len hk hpos hle => by
    rw [parse_numberAt (by omega) hpos, hfield k len hk]
  obtain ⟨hmode, huid, hgid, hsz, hmtime⟩ : header.mode = field tar (off + 100) 8 ∧
      header.uid = field tar (off + 108) 8 ∧ header.gid = field tar (off + 116) 8 ∧
      header.size = field tar (off + 124) 12 ∧ header.mtime = field tar (off + 136) 12 := by
    rw [headerAt] at hheader
    split at hheader
    · cases hheader
    · cases hheader
      exact ⟨rfl, rfl, rfl, rfl, rfl⟩
  have hfill : ∀ data, (rawHeader (cutAt mem off header.filename) off header.filename).fill data =
      header.fill data := by
    intro data
    funext final
    simp only [TarHeader.fill, rawHeader, hmode, huid, hgid, hsz, hmtime,
      hnumber 100 8 (by decide) (by decide) (by decide), hnumber 108 8 (by decide) (by decide) (by decide),
      hnumber 116 8 (by decide) (by decide) (by decide), hnumber 124 12 (by decide) (by decide) (by decide),
      hnumber 136 12 (by decide) (by decide) (by decide)]
    rfl
  have hsize : parseTarNumber (rawHeader (cutAt mem off header.filename) off header.filename).size =
      parseTarNumber header.size := congrArg (fun f => (f .blank).sz) (hfill none)
  have hdata := hfield 512 (parseTarNumber header.size).toNat (by decide)
  have hnext : ∀ sz : BitVec 32, (sz ≠ 0 → off + 512 + sz.toNat ≤ tar.length) →
      (cutAt mem off header.filename).drop ((off + 512 + ((sz + 511) &&& ~~~511).toNat) % 2 ^ 32) =
        tar.drop ((off + 512 + ((sz + 511) &&& ~~~511).toNat) % 2 ^ 32) := by
    intro sz hsz
    rw [nextHeader_toNat hfits (by omega) hsz, Nat.add_assoc]
    exact hbehind _ (by omega)
  simp only [rawEntry, hname, Option.bind_some, hfinal, hcut,
    if_neg (by omega : ¬ tar.length < off + 147), hsize, hfill, hdata]
  simp only at h
  split at h
  · rename_i hz
    cases h
    rw [if_pos hz]
    exact ⟨_, rfl, hcut, hnext _ fun h => absurd hz h⟩
  · rename_i hz
    split at h
    · cases h
    · rename_i hdone
      cases h
      rw [if_neg hz, if_neg hdone]
      exact ⟨_, rfl, hcut, hnext _ fun _ => Nat.le_of_not_lt hdone⟩

/-- What the loop over archives makes, the loop on any bytes makes. -/
theorem rawLoop_of_loadLoop {r r' : Loading} (hfits : tar.length ≤ 0xf0000000)
    (hlen : mem.length = tar.length) (hmem : mem.drop off = tar.drop off)
    (h : loadLoop tar n off r = some r') :
    ∃ mem', rawLoop n off ⟨mem, r.tree, r.buffers⟩ = some ⟨mem', r'.tree, r'.buffers⟩ := by
  induction n generalizing mem off r with
  | zero => cases h
  | succ n ih =>
      have hhead : mem[off]? = tar[off]? := by
        rw [← List.head?_drop, hmem, List.head?_drop]
      simp only [loadLoop, rawLoop, hlen, hhead] at h ⊢
      split at h
      · rename_i hgo
        obtain ⟨⟨r₁, next⟩, hr₁, h⟩ := Option.bind_eq_some_iff.mp h
        obtain ⟨mem₁, hraw, hlen₁, hmem₁⟩ := rawEntry_of_loadEntry hfits hlen hmem hr₁
        rw [if_pos hgo, hraw]
        exact ih hlen₁ hmem₁ h
      · rename_i hstop
        cases h
        rw [if_neg hstop]
        exact ⟨mem, rfl⟩

/-- An archive that `mount` loads is loaded the same way. -/
theorem rawMount_of_mount {buffers : Nat} {r : Loading} (hfits : tar.length ≤ 0xf0000000)
    (h : mount tar buffers = some r) :
    ∃ mem, rawMount (tar.length + 1) tar buffers = some ⟨mem, r.tree, r.buffers⟩ := by
  obtain ⟨mem, hmem⟩ := rawLoop_of_loadLoop hfits rfl rfl h
  exact ⟨mem, by rw [rawMount, if_pos hfits, hmem]⟩

end Muxomucota.Tar
