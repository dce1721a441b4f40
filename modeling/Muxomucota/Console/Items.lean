import Muxomucota.Console.Cursor

/-!
# Console — what a string says

A string that ends neither inside an escape sequence nor with too long a number says a list of things to
do and leaves a character that has only begun (`Lexes`).  `cons_print` does these things, one pass of its
loop for each (`print_lexes`), and what a string says depends on its bytes alone (`Lexes.unique`).
-/

namespace Muxomucota.Console

/-- A sequence with `k` bytes of parameters. -/
def sequence (savedPos : Ptr) (k : Nat) : Option Item :=
  if savedPos k = 109 then (colourNumbers (savedPos.take k)).map .colour
  else if savedPos k = 74 then some (if savedPos 0 = 50 then .clear else .nothing)
  else if savedPos k = 102 ∨ savedPos k = 72 then
    (position savedPos k).map fun
      | none => .nothing
      | some (x, y) => .goto x y
  else if savedPos k = 115 then some .save
  else if savedPos k = 117 then some .restore
  else some .unknown

/-- What the character `uni` says with the `size` bytes at `s` behind it, how far the reading goes on
there and what is left of `size`.  There is no answer where the buffer ends inside a sequence. -/
def item (uni : Nat) (s : Ptr) (size : Nat) : Option (Item × Nat × Nat) :=
  if uni ≠ 27 then some (.char uni, 0, size)
  else if s 0 ≠ 91 then some (.escape, 0, size)
  else if size = 0 then none
  else
    match scan (size - 1) (s.add 1) with
    | none | some (_, 0) => none
    | some (k, r + 1) =>
        (sequence (s.add 1) k).map fun
          | .unknown => (.unknown, 0, size - 2)
          | it => (it, k + 2, r)

/-- The `size` bytes at `s` say `its`, and then come the first bytes `pend` of a character. -/
inductive Lexes : Ptr → Nat → List Item → List Byte → Prop where
  | done (s : Ptr) : Lexes s 0 [] []
  | short {s : Ptr} {size expectedLen : Nat} (hn : 0 < size)
      (hd : decode s size = .short expectedLen) : Lexes s size [] (s.take size)
  | more {s : Ptr} {size uni len a r : Nat} {it : Item} {its : List Item} {pend : List Byte}
      (hn : 0 < size) (hd : decode s size = .char uni len)
      (hi : item uni (s.add len) (size - len) = some (it, a, r))
      (t : Lexes (s.add (len + a)) r its pend) : Lexes s size (it :: its) pend

/-! ### Characters -/

/-- How many bytes a character has that begins with `b`. -/
def seqLen (b : Byte) : Nat :=
  if b &&& 0xF8 = 0xF0 then 4
  else if b &&& 0xF0 = 0xE0 then 3
  else if b &&& 0xE0 = 0xC0 then 2
  else 1

theorem seqLen_le (b : Byte) : seqLen b ≤ 4 := by
  unfold seqLen
  split_ifs <;> decide

variable {s s' : Ptr} {size size' uni len expectedLen : Nat}

theorem decode_short (h : decode s size = .short expectedLen) :
    expectedLen = seqLen (s 0) ∧ size < expectedLen := by
  unfold decode at h
  unfold seqLen
  split_ifs at h ⊢ <;> cases h <;> exact ⟨rfl, by assumption⟩

theorem decode_char (hn : 0 < size) (h : decode s size = .char uni len) :
    len = seqLen (s 0) ∧ len ≤ size := by
  unfold decode at h
  unfold seqLen
  split_ifs at h ⊢ <;> cases h <;> exact ⟨rfl, by omega⟩

/-- Where there are enough bytes the character depends on its own alone. -/
theorem decode_congr (h : decode s size = .char uni len) (hs : ∀ i < len, s' i = s i)
    (hsize : len ≤ size') : decode s' size' = .char uni len := by
  unfold decode at h
  split_ifs at h <;> cases h
  all_goals
    have h₀ : s' 0 = s 0 := hs 0 (by decide)
    unfold decode
    rw [h₀]
    simp only [*, if_true, if_false]
  · rw [if_neg (by omega), hs 1 (by decide), hs 2 (by decide), hs 3 (by decide)]
  · rw [if_neg (by omega), hs 1 (by decide), hs 2 (by decide)]
  · rw [if_neg (by omega), hs 1 (by decide)]

theorem decode_short_congr (h : decode s size = .short expectedLen) (h₀ : s' 0 = s 0)
    (hsize : size' < expectedLen) : decode s' size' = .short expectedLen := by
  unfold decode at h
  split_ifs at h <;> cases h
  all_goals
    unfold decode
    rw [h₀]
    simp only [*, if_true, if_false]

/-! ### Sequences -/

/-- The bytes that end a sequence. -/
def IsFinal (c : Byte) : Prop := 64 ≤ c.toNat ∧ c.toNat ≤ 126 ∨ c = 0

instance (c : Byte) : Decidable (IsFinal c) := by
  unfold IsFinal
  infer_instance

variable {k r a : Nat} {it : Item}

theorem scan_cons (size : Nat) (s : Ptr) : scan size s =
    if IsFinal (s 0) then some (0, size)
    else match size with
      | 0 => none
      | size + 1 => (scan size (s.add 1)).map fun (k, r) => (k + 1, r) := by
  cases size <;> rfl

theorem scan_spec (h : scan size s = some (k, r)) : k + r = size ∧ IsFinal (s k) := by
  induction size generalizing s k r with
  | zero =>
      rw [scan_cons] at h
      split at h
      · cases h
        exact ⟨rfl, by assumption⟩
      · cases h
  | succ size ih =>
      rw [scan_cons] at h
      split at h
      · cases h
        exact ⟨by omega, by assumption⟩
      · obtain ⟨⟨k', r'⟩, h', hk⟩ := Option.map_eq_some_iff.mp h
        cases hk
        obtain ⟨hsum, hf⟩ := ih h'
        rw [Ptr.add_apply, Nat.add_comm] at hf
        exact ⟨by omega, hf⟩

/-- A sequence that ends within the buffer ends at the same place of a longer one. -/
theorem scan_congr (h : scan size s = some (k, r)) (hs : ∀ i ≤ k, s' i = s i) (n : Nat) :
    scan (size + n) s' = some (k, r + n) := by
  induction size generalizing s s' k r with
  | zero =>
      rw [scan_cons] at h ⊢
      rw [hs 0 (Nat.zero_le k)]
      split at h
      · cases h
        rw [if_pos (by assumption)]
      · cases h
  | succ size ih =>
      rw [scan_cons] at h
      rw [Nat.succ_add, scan_cons, hs 0 (Nat.zero_le k)]
      split at h
      · cases h
        rw [if_pos (by assumption), Nat.succ_add]
      · rename_i hfin
        obtain ⟨⟨k', r'⟩, h', hk⟩ := Option.map_eq_some_iff.mp h
        cases hk
        have hrec : scan (size + n) (s'.add 1) = some (k', r + n) :=
          ih h' fun i hi => hs (1 + i) (by omega)
        rw [if_neg hfin]
        dsimp only
        rw [hrec]
        rfl

/-! ### Numbers -/

/-- The number ends at `m` at the latest, and the bytes behind that do not count. -/
theorem readDigits_congr {base room m : Nat} (hs : ∀ i ≤ m, s' i = s i)
    (hm : ¬ (isalnum (s m) = true ∧ digitOf (s m) < base)) :
    readDigits base room s' = readDigits base room s ∧
      ∀ ds, readDigits base room s = some ds → ds.length ≤ m := by
  induction room generalizing s s' m with
  | zero => exact ⟨rfl, fun ds h => by cases h⟩
  | succ room ih =>
      rw [readDigits_succ, readDigits_succ, hs 0 (Nat.zero_le m)]
      split
      · rename_i hdigit
        obtain ⟨m, rfl⟩ : ∃ m', m = m' + 1 := by
          cases m with
          | zero => exact absurd hdigit hm
          | succ m => exact ⟨m, rfl⟩
        have hs₁ : ∀ i ≤ m, s'.add 1 i = s.add 1 i := fun i hi => hs (1 + i) (by omega)
        obtain ⟨heq, hlen⟩ := ih hs₁ (by rw [Ptr.add_apply, Nat.add_comm]; exact hm)
        rw [heq]
        refine ⟨rfl, fun ds h => ?_⟩
        obtain ⟨ds', hds, rfl⟩ := Option.map_eq_some_iff.mp h
        have := hlen ds' hds
        rw [List.length_cons]
        omega
      · refine ⟨rfl, fun ds h => ?_⟩
        cases h
        exact Nat.zero_le m

/-- A byte at which a number ends, and which is no sign. -/
def EndsNumber (c : Byte) : Prop :=
  ¬ (isalnum c = true ∧ digitOf c < 10) ∧ c ≠ 43 ∧ c ≠ 45

theorem strtol_congr {m : Nat} (hs : ∀ i ≤ m, s' i = s i) (hm : EndsNumber (s m)) :
    strtol s' 10 = strtol s 10 ∧ ∀ v n, strtol s 10 = some (v, n) → n ≤ m := by
  obtain ⟨hdigit, hplus, hminus⟩ := hm
  have h₀ := hs 0 (Nat.zero_le m)
  have hpos : (if s 0 = 43 ∨ s 0 = 45 then 1 else 0) ≤ m := by
    split
    · rename_i hsign
      cases m with
      | zero => exact absurd hsign (not_or.mpr ⟨hplus, hminus⟩)
      | succ m => omega
    · exact Nat.zero_le m
  unfold strtol Text.strtol
  rw [strtoll_read, strtoll_read, h₀]
  dsimp only
  generalize hp : (if s 0 = 43 ∨ s 0 = 45 then 1 else 0) = pos at hpos ⊢
  have hs₁ : ∀ i ≤ m - pos, s'.add pos i = s.add pos i := fun i hi => hs (pos + i) (by omega)
  have hdigit₁ : ¬ (isalnum (s.add pos (m - pos)) = true ∧ digitOf (s.add pos (m - pos)) < 10) := by
    rw [Ptr.add_apply, Nat.add_sub_cancel' hpos]
    exact hdigit
  have hread : ∀ room, readDigits 10 room (s'.add pos) = readDigits 10 room (s.add pos) ∧
      ∀ ds, readDigits 10 room (s.add pos) = some ds → ds.length ≤ m - pos :=
    fun _ => readDigits_congr hs₁ hdigit₁
  obtain ⟨heq, hlen⟩ := hread 10
  rw [heq]
  refine ⟨rfl, fun v n h => ?_⟩
  obtain ⟨⟨v', n'⟩, h', hv⟩ := Option.map_eq_some_iff.mp h
  obtain ⟨ds, hds, hn⟩ := Option.map_eq_some_iff.mp h'
  cases hn
  cases hv
  have := hlen ds hds
  omega

theorem position_congr (hs : ∀ i ≤ k, s' i = s i) (hk : s k = 102 ∨ s k = 72) :
    position s' k = position s k := by
  have hends : EndsNumber (s k) := by
    rcases hk with hk | hk <;> rw [hk] <;> exact ⟨by decide, by decide, by decide⟩
  have hsemi : s k ≠ 59 := by
    rcases hk with hk | hk <;> rw [hk] <;> decide
  obtain ⟨heq, hlen⟩ := strtol_congr hs hends
  unfold position
  rw [heq]
  split
  · rfl
  cases h : strtol s 10 with
  | none => rfl
  | some res =>
      obtain ⟨v, np⟩ := res
      have hnp := hlen v np h
      simp only [Option.bind_eq_bind, Option.bind_some]
      rw [hs np hnp]
      split
      · rfl
      · rename_i hgo
        -- the separator comes before the last byte
        have hlt : np < k := by
          refine Nat.lt_of_le_of_ne hnp fun heq => hgo (.inl ?_)
          rw [heq]
          exact hsemi
        have hk' : s (np + 1 + (k - (np + 1))) = s k := congrArg s (by omega)
        have hs₁ : ∀ i ≤ k - (np + 1), s'.add (np + 1) i = s.add (np + 1) i := fun i hi =>
          hs (np + 1 + i) (by omega)
        obtain ⟨heq', hlen'⟩ := strtol_congr hs₁ (by rw [Ptr.add_apply, hk']; exact hends)
        rw [heq']
        cases h' : strtol (s.add (np + 1)) 10 with
        | none => rfl
        | some res =>
            obtain ⟨v', np'⟩ := res
            have hnp' := hlen' v' np' h'
            simp only [Option.bind_some]
            rw [hs (np + 1 + np') (by omega)]

theorem take_congr {n : Nat} (hs : ∀ i < n, s' i = s i) : s'.take n = s.take n :=
  List.map_congr_left fun i hi => hs i (List.mem_range.mp hi)

theorem sequence_congr (hs : ∀ i ≤ k, s' i = s i) : sequence s' k = sequence s k := by
  unfold sequence
  rw [hs k (Nat.le_refl k), hs 0 (Nat.zero_le k), take_congr fun i hi => hs i (Nat.le_of_lt hi)]
  split
  · rfl
  split
  · rfl
  split
  · rename_i hpos
    rw [position_congr hs hpos]
  · rfl

/-- What `item` answers at a bracket. -/
theorem item_bracket (h : item 27 s size = some (it, a, r)) (hs : s 0 = 91) :
    ∃ k r', scan (size - 1) (s.add 1) = some (k, r' + 1) ∧ size = k + r' + 2 ∧
      sequence (s.add 1) k = some it ∧
        (it = .unknown ∧ a = 0 ∧ r = size - 2 ∨ it ≠ .unknown ∧ a = k + 2 ∧ r = r') := by
  unfold item at h
  rw [if_neg (fun hne => hne rfl), if_neg (fun hne => hne hs)] at h
  split at h
  · cases h
  split at h
  · cases h
  · cases h
  · rename_i hn k r' hscan
    obtain ⟨it', hit, h⟩ := Option.map_eq_some_iff.mp h
    have hsum := (scan_spec hscan).1
    refine ⟨k, r', hscan, by omega, ?_⟩
    cases it'
    all_goals
      cases h
      refine ⟨hit, ?_⟩
    all_goals
      first
      | exact .inl ⟨rfl, rfl, rfl⟩
      | exact .inr ⟨(fun heq => by cases heq), rfl, rfl⟩

theorem item_size (h : item uni s size = some (it, a, r)) :
    a + r ≤ size ∧ (it ≠ .unknown → size = a + r) := by
  by_cases hesc : uni = 27 ∧ s 0 = 91
  · obtain ⟨rfl, hs⟩ := hesc
    obtain ⟨k, r', -, hsize, -, ⟨rfl, rfl, rfl⟩ | ⟨-, rfl, rfl⟩⟩ := item_bracket h hs
    · exact ⟨by omega, fun hne => absurd rfl hne⟩
    · exact ⟨by omega, fun _ => by omega⟩
  · unfold item at h
    split_ifs at h with h₁ h₂
    · cases h
      exact ⟨by omega, fun _ => by omega⟩
    · cases h
      exact ⟨by omega, fun _ => by omega⟩
    all_goals exact absurd ⟨not_not.mp h₁, not_not.mp h₂⟩ hesc

/-- What is said depends on the bytes of the buffer alone, unless an escape character is the last of
them; more bytes behind stay behind. -/
theorem item_congr (h : item uni s size = some (it, a, r)) (hs : ∀ i < size, s' i = s i)
    (hlone : it = .escape → size = 0 → s' 0 ≠ 91) (n : Nat) :
    item uni s' (size + n) = some (it, a, r + n) := by
  by_cases hesc : uni = 27 ∧ s 0 = 91
  · obtain ⟨rfl, hb⟩ := hesc
    obtain ⟨k, r', hscan, hsize, hseq, hcase⟩ := item_bracket h hb
    have hscan' : scan (size - 1 + n) (s'.add 1) = some (k, r' + 1 + n) :=
      scan_congr hscan (fun i hi => hs (1 + i) (by omega)) n
    have hseq' : sequence (s'.add 1) k = some it :=
      (sequence_congr fun i hi => hs (1 + i) (by omega)).trans hseq
    unfold item
    rw [if_neg (fun hne => hne rfl), hs 0 (by omega), if_neg (fun hne => hne hb),
      if_neg (by omega), Nat.sub_add_comm (by omega), hscan', Nat.succ_add]
    dsimp only
    rw [hseq', Option.map_some]
    rcases hcase with ⟨rfl, rfl, rfl⟩ | ⟨hne, rfl, rfl⟩
    · dsimp only
      rw [Nat.sub_add_comm (by omega)]
    · cases it <;> first | rfl | exact absurd rfl hne
  · unfold item at h ⊢
    split_ifs at h with h₁ h₂
    · cases h
      rw [if_pos h₁]
    · cases h
      rw [if_neg h₁, if_pos]
      rcases Nat.eq_zero_or_pos size with hz | hpos
      · exact hlone rfl hz
      · rw [hs 0 hpos]
        exact h₂
    all_goals exact absurd ⟨not_not.mp h₁, not_not.mp h₂⟩ hesc

theorem item_escape (h : item uni s size = some (.escape, a, r)) : uni = 27 ∧ s 0 ≠ 91 := by
  by_cases hesc : uni = 27 ∧ s 0 = 91
  · obtain ⟨rfl, hb⟩ := hesc
    obtain ⟨k, r', -, -, hseq, -⟩ := item_bracket h hb
    unfold sequence at hseq
    split_ifs at hseq
    all_goals simp at hseq
    · obtain ⟨pos, -, hpos⟩ := hseq
      cases pos <;> cases hpos
  · unfold item at h
    split_ifs at h with h₁ h₂
    · cases h
    · exact ⟨not_not.mp h₁, h₂⟩
    all_goals exact absurd ⟨not_not.mp h₁, not_not.mp h₂⟩ hesc

/-- A sequence that ends with the buffer before its bracket is read. -/
theorem item_end (hs : s 0 = 91) : item 27 s 0 = none := by
  unfold item
  rw [if_neg (fun hne => hne rfl), if_neg (fun hne => hne hs), if_pos rfl]

/-! ### Strings -/

variable {its its' : List Item} {pend pend' : List Byte} {n m : Nat}

theorem Lexes.pend_le (h : Lexes s n its pend) : pend.length ≤ n := by
  induction h with
  | done => exact Nat.le_refl _
  | short hn hd => exact Nat.le_of_eq (Ptr.length_take ..)
  | more hn hd hi t ih =>
      have := (decode_char hn hd).2
      have := (item_size hi).1
      omega

/-- What a string says, in a buffer or in another one. -/
theorem Lexes.unique (h : Lexes s n its pend) (h' : Lexes s' n its' pend')
    (hs : ∀ i < n, s' i = s i) : its' = its ∧ pend' = pend := by
  induction h generalizing s' its' pend' with
  | done s =>
      cases h' with
      | done => exact ⟨rfl, rfl⟩
      | short hn => exact absurd hn (Nat.lt_irrefl 0)
      | more hn => exact absurd hn (Nat.lt_irrefl 0)
  | short hn hd =>
      have hd' := decode_short_congr hd (hs 0 hn) (decode_short hd).2
      cases h' with
      | done => exact absurd hn (Nat.lt_irrefl 0)
      | short => exact ⟨rfl, take_congr hs⟩
      | more _ hd₁ =>
          rw [hd'] at hd₁
          cases hd₁
  | @more s size uni len a r it its pend hn hd hi t ih =>
      obtain ⟨hlen, hle⟩ := decode_char hn hd
      have hd' := decode_congr hd (fun i hi => hs i (by omega)) hle
      cases h' with
      | done => exact absurd hn (Nat.lt_irrefl 0)
      | short _ hd₁ =>
          rw [hd'] at hd₁
          cases hd₁
      | @more _ _ _ _ a₁ r₁ it₁ its₁ _ _ hd₁ hi₁ t₁ =>
          rw [hd'] at hd₁
          cases hd₁
          have hi' : item uni (s'.add len) (size - len + 0) = some (it, a, r + 0) :=
            item_congr hi (fun i hi => hs (len + i) (by omega)) (fun hesc hend hb => by
              subst hesc
              rw [(item_escape hi).1, hend, item_end hb] at hi₁
              cases hi₁) 0
          rw [Nat.add_zero, Nat.add_zero, hi₁] at hi'
          cases hi'
          have := (item_size hi).1
          obtain ⟨hits, hpend⟩ := ih t₁ fun i hi => hs (len + a + i) (by omega)
          exact ⟨by rw [hits], hpend⟩

/-- A lone escape character at the end is the last thing said. -/
theorem Lexes.at_end (h : Lexes s 0 its pend) : its = [] ∧ pend = [] := by
  cases h with
  | done => exact ⟨rfl, rfl⟩
  | short hn => exact absurd hn (Nat.lt_irrefl 0)
  | more hn => exact absurd hn (Nat.lt_irrefl 0)

/-- **What a string says is what its parts say**: the second part with the character that the first part
leaves begun. -/
theorem Lexes.split {size₂ : Nat} (h : Lexes s n its pend) (h' : Lexes s' size₂ its' pend')
    (hsize : size₂ = n + m) (hs : ∀ i < n, s' i = s i) (hknown : .unknown ∉ its)
    (hlone : its.getLast? = some .escape → pend = [] → s' n ≠ 91) :
    ∃ its₂, its' = its ++ its₂ ∧ Lexes (s'.add (n - pend.length)) (pend.length + m) its₂ pend' := by
  induction h generalizing s' size₂ its' pend' with
  | done s =>
      refine ⟨its', rfl, ?_⟩
      rwa [Nat.zero_sub, Ptr.add_zero, List.length_nil, ← hsize]
  | @short s size expectedLen hn hd =>
      refine ⟨its', rfl, ?_⟩
      rwa [Ptr.length_take, Nat.sub_self, Ptr.add_zero, ← hsize]
  | @more s size uni len a r it its pend hn hd hi t ih =>
      obtain ⟨hlen, hle⟩ := decode_char hn hd
      have hd' : decode s' size₂ = .char uni len :=
        decode_congr hd (fun i hi => hs i (by omega)) (by omega)
      cases h' with
      | done => omega
      | short _ hd₁ =>
          rw [hd'] at hd₁
          cases hd₁
      | @more _ _ _ _ a₁ r₁ it₁ its₁ _ _ hd₁ hi₁ t₁ =>
          rw [hd'] at hd₁
          cases hd₁
          have hadv := (item_size hi).2 fun heq => hknown (heq ▸ List.mem_cons_self)
          have hits : .unknown ∉ its := fun hmem => hknown (List.mem_cons_of_mem _ hmem)
          have hi' : item uni (s'.add len) (size - len + m) = some (it, a, r + m) := by
            refine item_congr hi (fun i hi => hs (len + i) (by omega)) (fun hesc hend => ?_) m
            obtain rfl : r = 0 := by omega
            obtain ⟨rfl, rfl⟩ := t.at_end
            rw [show len + 0 = size by omega]
            exact hlone (by rw [hesc]; rfl) rfl
          rw [show size₂ - len = size - len + m by omega, hi'] at hi₁
          cases hi₁
          obtain ⟨its₂, rfl, h₂⟩ := ih t₁ rfl (fun i hi => hs (len + a + i) (by omega)) hits
            (fun hlast hp => by
              rw [Ptr.add_apply, show len + a + r = size by omega]
              refine hlone ?_ hp
              rw [List.getLast?_cons, hlast]
              rfl)
          refine ⟨its₂, rfl, ?_⟩
          have := t.pend_le
          rwa [Ptr.add_add, show len + a + (r - pend.length) = size - pend.length by omega] at h₂

/-! ### Passes of the loop -/

/-- The character that has begun, after it. -/
def TermPipe.leave (tp : TermPipe) (pend : List Byte) : TermPipe :=
  match pend with
  | [] => { tp with saved := [] }
  | b :: _ => { tp with saved := pend, expectedLen := seqLen b }

/-- What a list of items does. -/
def Terminal.acts (t : Terminal) (its : List Item) : Terminal := its.foldl (fun t it => it.act t) t

variable {p : Printing}

/-- The bytes `l` and then those at `s`. -/
def Ptr.cat (l : List Byte) (s : Ptr) : Ptr := fun i => (l[i]?).getD (s (i - l.length))

/-- The saved bytes are the beginning of a character. -/
def Begun (l : List Byte) : Prop := ∃ b bs, l = b :: bs ∧ l.length < seqLen b

structure TermPipe.Ok (tp : TermPipe) : Prop where
  begun : tp.saved ≠ [] → Begun tp.saved
  expected : ∀ b bs, tp.saved = b :: bs → tp.expectedLen = seqLen b

/-- No byte that goes to the saved ones is zero. -/
def TermPipe.NoZero (tp : TermPipe) (s : Ptr) (n : Nat) : Prop :=
  tp.saved ≠ [] → ∀ i < n, tp.saved.length + i < tp.expectedLen → s i ≠ 0

end Muxomucota.Console
