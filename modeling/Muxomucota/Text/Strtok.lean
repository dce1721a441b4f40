import Muxomucota.Console.Strings

/-!
# Text — `strtok_r`

`string/strtok.c` and `string/strstr.c` of the user library.  A pointer is an offset into the buffer of
the string, and the buffer is the string and its NUL byte: what lies around it is not there to be read.

The `strstr` of this library finds the first byte that is one of a set, and `strtok_r` goes on from it by
the length of the string that spells the set.  That length is an `int`; added to a pointer of 32 bits it
is the length itself.

The kernel's `strtok` is the same text over the kernel's `strstr`, so `strtokBy` takes the one to search with.
With one delimiter `strtok_r` takes one piece after the other off its string (`strtok_pieces`).
-/

namespace Muxomucota.Text

open Console

/-- Whether a byte is in a set is decided as the loop of `strstr` does. -/
local instance (c : Byte) (set : List Byte) : Decidable (c ∈ set) :=
  decidable_of_iff (set.any (c = ·)) (by simp)

/-! ### The code -/

/-- The loop of `strstr`, over the cells from `s1` on; `none` is a read outside the buffer. -/
def strstrFrom (s2 : List Byte) : (s1 : Nat) → List Byte → Option (Option Nat)
  | _, [] => none
  | s1, c :: cs =>
      if c = 0 then some none else if c ∈ s2 then some (some s1) else strstrFrom s2 (s1 + 1) cs

def strstr (mem : List Byte) (s1 : Nat) (s2 : List Byte) : Option (Option Nat) :=
  strstrFrom s2 s1 (mem.drop s1)

/-- The first loop of `strtok_r` over a `strstr`, at most `n` rounds of it: what it leaves in `string1` and
`tok`. -/
def skipDelims (find : List Byte → Nat → List Byte → Option (Option Nat)) (mem string2 : List Byte) :
    (n : Nat) → Nat → Option (Nat × Option Nat)
  | 0, _ => none
  | n + 1, string1 => do
      let tok ← find mem string1 string2
      if tok = some string1 then skipDelims find mem string2 n (string1 + string2.length)
      else some (string1, tok)

/-- `strtok_r` over a `strstr`: the token, the buffer and what is in `saveptr`. -/
def strtokBy (find : List Byte → Nat → List Byte → Option (Option Nat)) (n : Nat) (mem : List Byte)
    (string1 : Option Nat) (string2 : List Byte) (saveptr : Option Nat) :
    Option (Option Nat × List Byte × Option Nat) :=
  match string1.or saveptr with
  | none => some (none, mem, saveptr)
  | some string1 => do
      let (string1, tok) ← skipDelims find mem string2 n string1
      let c ← mem[string1]?
      if c = 0 then some (none, mem, none)
      else match tok with
        | none => some (some string1, mem, none)
        | some tok => some (some string1, mem.set tok 0, some (tok + string2.length))

/-- `strtok_r`, over the `strstr` beside it. -/
def strtokR := strtokBy strstr

/-- The string at a pointer. -/
def stringAt (mem : List Byte) (p : Nat) : List Byte := (mem.drop p).takeWhile (· ≠ 0)

/-- The tokens of the first call, at `string1`, and of the calls with NULL after it, at most `n` calls of
at most `n` rounds. -/
def strtokCalls (string2 : List Byte) : (n : Nat) → List Byte → Option Nat → Option Nat →
    Option (List (List Byte))
  | 0, _, _, _ => none
  | n + 1, mem, string1, saveptr => do
      let (tok, mem, saveptr) ← strtokR n mem string1 string2 saveptr
      match tok with
      | none => some []
      | some tok => (strtokCalls string2 n mem none saveptr).map (stringAt mem tok :: ·)

/-! ### The purpose -/

/-- The maximal runs of bytes that are not in the set. -/
def runs (delims s : List Byte) : List (List Byte) :=
  (s.splitOnP (· ∈ delims)).filter (· ≠ [])

/-- Every maximal run of bytes of the set is a multiple of the set's length long. -/
def DelimsInStep (delims s : List Byte) : Prop :=
  ∀ run ∈ s.splitOnP (· ∉ delims), delims.length ∣ run.length

instance (delims s : List Byte) : Decidable (DelimsInStep delims s) :=
  inferInstanceAs (Decidable (∀ run ∈ s.splitOnP (· ∉ delims), delims.length ∣ run.length))

/-- What the calls give, on the string that is left: a token is what lies before the next byte of the set,
and from such a byte the search goes on by the length of the set. -/
inductive Tokens (delims : List Byte) : List Byte → List (List Byte) → Prop
  | done : Tokens delims [] []
  | skip {c : Byte} {t : List Byte} {ts : List (List Byte)} (hc : c ∈ delims)
      (hroom : delims.length ≤ (c :: t).length)
      (h : Tokens delims ((c :: t).drop delims.length) ts) : Tokens delims (c :: t) ts
  | last {w : List Byte} (hne : w ≠ []) (hw : ∀ c ∈ w, c ∉ delims) : Tokens delims w [w]
  | token {w u : List Byte} {e : Byte} {ts : List (List Byte)} (hne : w ≠ [])
      (hw : ∀ c ∈ w, c ∉ delims) (he : e ∈ delims) (hroom : delims.length ≤ (e :: u).length)
      (h : Tokens delims ((e :: u).drop delims.length) ts) : Tokens delims (w ++ e :: u) (w :: ts)

/-! ### The calls -/

section Calls

variable {delims mem : List Byte}

theorem strstrFrom_miss : ∀ {t : List Byte} {p : Nat}, 0 ∉ t → (∀ c ∈ t, c ∉ delims) →
    strstrFrom delims p (t ++ [0]) = some none := by
  intro t
  induction t with
  | nil => intro p _ _; rfl
  | cons c t ih =>
      intro p h0 ht
      rw [List.mem_cons, not_or] at h0
      rw [List.forall_mem_cons] at ht
      rw [List.cons_append, strstrFrom, if_neg (Ne.symm h0.1), if_neg ht.1]
      exact ih h0.2 ht.2

theorem strstrFrom_hit : ∀ {w u : List Byte} {e : Byte} {p : Nat}, 0 ∉ w ++ e :: u →
    (∀ c ∈ w, c ∉ delims) → e ∈ delims →
    strstrFrom delims p ((w ++ e :: u) ++ [0]) = some (some (p + w.length)) := by
  intro w u e
  induction w with
  | nil =>
      intro p h0 _ he
      have hne : e ≠ 0 := fun h => h0 (by simp [h])
      rw [List.nil_append, List.cons_append, strstrFrom, if_neg hne, if_pos he]
      rfl
  | cons c w ih =>
      intro p h0 hw he
      rw [List.cons_append, List.mem_cons, not_or] at h0
      rw [List.forall_mem_cons] at hw
      rw [List.cons_append, List.cons_append, strstrFrom, if_neg (Ne.symm h0.1), if_neg hw.1,
        ih h0.2 hw.2 he, List.length_cons]
      congr 2
      omega

/-- No byte of a string is one of the sort, or there is a first one. -/
theorem first_of (p : Byte → Prop) (t : List Byte) : (∀ c ∈ t, ¬ p c) ∨
    ∃ w e u, t = w ++ e :: u ∧ (∀ c ∈ w, ¬ p c) ∧ p e := by
  induction t with
  | nil => exact Or.inl (by simp)
  | cons c t ih =>
      by_cases hc : p c
      · exact Or.inr ⟨[], c, t, rfl, by simp, hc⟩
      · rcases ih with ht | ⟨w, e, u, rfl, hw, he⟩
        · exact Or.inl (List.forall_mem_cons.mpr ⟨hc, ht⟩)
        · exact Or.inr ⟨c :: w, e, u, rfl, List.forall_mem_cons.mpr ⟨hc, hw⟩, he⟩

section Strtok

variable {find : List Byte → Nat → List Byte → Option (Option Nat)} {n k p : Nat}
  {string1 saveptr : Option Nat}

theorem skipDelims_mono : ∀ {n k p : Nat} {r : Nat × Option Nat},
    skipDelims find mem delims n p = some r → n ≤ k → skipDelims find mem delims k p = some r := by
  intro n
  induction n with
  | zero => intro k p r h; cases h
  | succ n ih =>
      intro k p r h hk
      obtain ⟨k, rfl⟩ : ∃ j, k = j + 1 := ⟨k - 1, by omega⟩
      rw [skipDelims, Option.bind_eq_bind, Option.bind_eq_some_iff] at h ⊢
      obtain ⟨tok, htok, h⟩ := h
      refine ⟨tok, htok, ?_⟩
      by_cases heq : tok = some p
      · rw [if_pos heq] at h ⊢
        exact ih h (by omega)
      · rw [if_neg heq] at h ⊢
        exact h

/-- The loop stops where the search does not find its own start. -/
theorem skipDelims_stop {tok : Option Nat} (h : find mem p delims = some tok) (hne : tok ≠ some p) :
    skipDelims find mem delims (n + 1) p = some (p, tok) := by
  rw [skipDelims, h, Option.bind_eq_bind, Option.bind_some, if_neg hne]

theorem skipDelims_go (h : find mem p delims = some (some p)) :
    skipDelims find mem delims (n + 1) p = skipDelims find mem delims n (p + delims.length) := by
  rw [skipDelims, h, Option.bind_eq_bind, Option.bind_some, if_pos rfl]

theorem strtokBy_mono {r : Option Nat × List Byte × Option Nat}
    (h : strtokBy find n mem string1 delims saveptr = some r) (hk : n ≤ k) :
    strtokBy find k mem string1 delims saveptr = some r := by
  rw [strtokBy] at h ⊢
  rcases hp : string1.or saveptr with _ | p
  · rw [hp] at h
    exact h
  · rw [hp] at h
    dsimp only at h ⊢
    rw [Option.bind_eq_bind, Option.bind_eq_some_iff] at h ⊢
    obtain ⟨q, hq, h⟩ := h
    exact ⟨q, skipDelims_mono hq hk, h⟩

/-- A call whose first loop stops at a cell of the buffer. -/
theorem strtokBy_stop {q : Nat} {tok : Option Nat} {c : Byte} (hp : string1.or saveptr = some p)
    (hskip : skipDelims find mem delims n p = some (q, tok)) (hcell : mem[q]? = some c) :
    strtokBy find n mem string1 delims saveptr =
      if c = 0 then some (none, mem, none)
      else match tok with
        | none => some (some q, mem, none)
        | some tok => some (some q, mem.set tok 0, some (tok + delims.length)) := by
  rw [strtokBy, hp]
  dsimp only
  rw [hskip]
  dsimp only [Option.bind_eq_bind, Option.bind_some]
  rw [hcell]
  rfl

end Strtok

theorem strtokCalls_mono : ∀ {n k : Nat} {mem : List Byte} {string1 saveptr : Option Nat}
    {ts : List (List Byte)}, strtokCalls delims n mem string1 saveptr = some ts → n ≤ k →
    strtokCalls delims k mem string1 saveptr = some ts := by
  intro n
  induction n with
  | zero => intro k mem string1 saveptr ts h; cases h
  | succ n ih =>
      intro k mem string1 saveptr ts h hk
      obtain ⟨k, rfl⟩ : ∃ j, k = j + 1 := ⟨k - 1, by omega⟩
      rw [strtokCalls, Option.bind_eq_bind, Option.bind_eq_some_iff] at h ⊢
      obtain ⟨⟨tok, mem', save'⟩, hr, h⟩ := h
      refine ⟨(tok, mem', save'), strtokBy_mono hr (by omega), ?_⟩
      cases tok with
      | none => exact h
      | some tok =>
          dsimp only at h ⊢
          rw [Option.map_eq_some_iff] at h ⊢
          obtain ⟨ts', hts, h⟩ := h
          exact ⟨ts', ih hts (by omega), h⟩

/-- The next search starts at what is left, or outside the buffer. -/
theorem drop_step {p : Nat} {t : List Byte} (k : Nat) (hmem : mem.drop p = t ++ [0]) :
    (k ≤ t.length ∧ mem.drop (p + k) = t.drop k ++ [0]) ∨
      (t.length < k ∧ mem.drop (p + k) = []) := by
  rw [← List.drop_drop, hmem]
  rcases Nat.lt_or_ge t.length k with hk | hk
  · exact Or.inr ⟨hk, List.drop_eq_nil_of_le (by simp only [List.length_append, List.length_singleton]; omega)⟩
  · exact Or.inl ⟨hk, List.drop_append_of_le_length hk⟩

theorem skipDelims_outside {p : Nat} (hmem : mem.drop p = []) :
    ∀ {n : Nat}, skipDelims strstr mem delims n p = none
  | 0 => rfl
  | n + 1 => by rw [skipDelims, strstr, hmem]; rfl

/-- The search stops where it starts at a byte of the set, and nowhere else. -/
theorem strstr_here {p : Nat} {t : List Byte} (hmem : mem.drop p = t ++ [0]) (h0 : 0 ∉ t)
    (h : strstr mem p delims = some (some p)) : ∃ c u, t = c :: u ∧ c ∈ delims := by
  rw [strstr, hmem] at h
  rcases first_of (· ∈ delims) t with ht | ⟨w, e, u, rfl, hw, he⟩
  · rw [strstrFrom_miss h0 ht] at h
    cases h
  · rw [strstrFrom_hit h0 hw he, Option.some.injEq, Option.some.injEq] at h
    rw [List.length_eq_zero_iff.mp (by omega : w.length = 0)]
    exact ⟨e, u, rfl, he⟩

/-- The first loop goes over bytes of the set, as `Tokens` does. -/
theorem skipDelims_tokens : ∀ {n p p' : Nat} {tok : Option Nat} {t : List Byte},
    skipDelims strstr mem delims n p = some (p', tok) → mem.drop p = t ++ [0] → 0 ∉ t →
    ∃ t', mem.drop p' = t' ++ [0] ∧ 0 ∉ t' ∧ strstr mem p' delims = some tok ∧ tok ≠ some p' ∧
      ∀ ts, Tokens delims t' ts → Tokens delims t ts := by
  intro n
  induction n with
  | zero => intro p p' tok t h; cases h
  | succ n ih =>
      intro p p' tok t h hmem h0
      rw [skipDelims, Option.bind_eq_bind, Option.bind_eq_some_iff] at h
      obtain ⟨tok', htok, h⟩ := h
      by_cases heq : tok' = some p
      · rw [if_pos heq] at h
        subst heq
        obtain ⟨c, u, rfl, hc⟩ := strstr_here hmem h0 htok
        rcases drop_step delims.length hmem with ⟨hroom, hnext⟩ | ⟨-, hout⟩
        · obtain ⟨t', hmem', h0', hstr, hne, htokens⟩ :=
            ih h hnext fun hz => h0 (List.mem_of_mem_drop hz)
          exact ⟨t', hmem', h0', hstr, hne, fun ts hts => .skip hc hroom (htokens ts hts)⟩
        · rw [skipDelims_outside hout] at h
          cases h
      · rw [if_neg heq] at h
        cases h
        exact ⟨t, hmem, h0, htok, heq, fun ts hts => hts⟩

/-- A call that stops at `p`. -/
theorem strtokR_stop {n p : Nat} {string1 saveptr tok : Option Nat} {c : Byte} {u : List Byte}
    (hp : string1.or saveptr = some p) (hmem : mem.drop p = c :: u)
    (hstr : strstr mem p delims = some tok) (hne : tok ≠ some p) :
    strtokR (n + 1) mem string1 delims saveptr =
      if c = 0 then some (none, mem, none)
      else match tok with
        | none => some (some p, mem, none)
        | some tok => some (some p, mem.set tok 0, some (tok + delims.length)) := by
  have hcell : mem[p]? = some c := by rw [← List.head?_drop, hmem, List.head?_cons]
  exact strtokBy_stop hp (skipDelims_stop hstr hne) hcell

theorem head_cell {p : Nat} {t : List Byte} (hmem : mem.drop p = t ++ [0]) :
    mem[p]? = (t ++ [0]).head? := by
  rw [← hmem, List.head?_drop]

theorem stringAt_eq {p : Nat} {w u : List Byte} (hmem : mem.drop p = w ++ 0 :: u) (h0 : 0 ∉ w) :
    stringAt mem p = w := by
  rw [stringAt, hmem, List.takeWhile_append_of_pos]
  · simp
  · intro c hc
    exact decide_eq_true fun h => h0 (h ▸ hc)

/-- The byte behind a token becomes its NUL byte. -/
theorem drop_set {p : Nat} {w u : List Byte} {e : Byte} (hmem : mem.drop p = (w ++ e :: u) ++ [0]) :
    (mem.set (p + w.length) 0).drop p = w ++ 0 :: (u ++ [0]) := by
  rw [List.drop_set, if_neg (by omega), hmem, Nat.add_sub_cancel_left, List.append_assoc,
    List.set_append_right _ _ (Nat.le_refl _), Nat.sub_self]
  rfl

theorem drop_set_behind {p k : Nat} (hk : p < k) : (mem.set p 0).drop k = mem.drop k := by
  rw [List.drop_set, if_pos hk]

end Calls

theorem strtokCalls_outside {delims mem : List Byte} {string1 saveptr : Option Nat} {p : Nat}
    (hp : string1.or saveptr = some p) (hmem : mem.drop p = []) :
    ∀ {n : Nat}, strtokCalls delims n mem string1 saveptr = none
  | 0 => rfl
  | n + 1 => by rw [strtokCalls, strtokR, strtokBy, hp]; dsimp only; rw [skipDelims_outside hmem]; rfl

theorem strtokCalls_null {delims mem : List Byte} {n : Nat} {ts : List (List Byte)}
    (h : strtokCalls delims n mem none none = some ts) : ts = [] := by
  cases n with
  | zero => cases h
  | succ n => cases h; rfl

/-- What the calls give is what `Tokens` says. -/
theorem tokens_of_calls {delims : List Byte} : ∀ {n p : Nat} {mem : List Byte}
    {string1 saveptr : Option Nat} {t : List Byte} {ts : List (List Byte)},
    strtokCalls delims n mem string1 saveptr = some ts → string1.or saveptr = some p →
    mem.drop p = t ++ [0] → 0 ∉ t → delims ≠ [] → Tokens delims t ts := by
  intro n
  induction n with
  | zero => intro p mem string1 saveptr t ts h; cases h
  | succ n ih =>
      intro p mem string1 saveptr t ts h hp hmem h0 hd
      rw [strtokCalls, Option.bind_eq_bind, Option.bind_eq_some_iff] at h
      obtain ⟨⟨tok, mem', save'⟩, hr, h⟩ := h
      rw [strtokR, strtokBy, hp] at hr
      dsimp only at hr
      rw [Option.bind_eq_bind, Option.bind_eq_some_iff] at hr
      obtain ⟨⟨q, found⟩, hskip, hr⟩ := hr
      obtain ⟨t', hq, h0', hstr, hne, htokens⟩ := skipDelims_tokens hskip hmem h0
      refine htokens ts ?_
      rw [head_cell hq] at hr
      have hlen : 0 < delims.length := List.length_pos_iff.mpr hd
      cases t' with
      | nil =>
          cases hr
          cases h
          exact .done
      | cons c t' =>
          have hc : c ≠ 0 := fun hz => h0' (hz ▸ List.mem_cons_self)
          rw [List.cons_append, List.head?_cons, Option.bind_eq_bind, Option.bind_some,
            if_neg hc] at hr
          rw [strstr, hq] at hstr
          rcases first_of (· ∈ delims) (c :: t') with ht | ⟨w, e, u, hsplit, hw, he⟩
          · -- No byte of the set is left: the token is the rest of the string.
            rw [strstrFrom_miss h0' ht] at hstr
            cases hstr
            cases hr
            obtain ⟨ts', hts, rfl⟩ := Option.map_eq_some_iff.mp h
            rw [strtokCalls_null hts, stringAt_eq (w := c :: t') hq h0']
            exact .last (List.cons_ne_nil _ _) ht
          · -- The token ends at `e`, and the next call starts the length of the set behind it.
            rw [hsplit] at hq h0' hstr ⊢
            rw [strstrFrom_hit h0' hw he] at hstr
            cases hstr
            cases hr
            obtain ⟨ts', hts, rfl⟩ := Option.map_eq_some_iff.mp h
            have hwne : w ≠ [] := by
              rintro rfl
              exact hne rfl
            have he' : mem.drop (q + w.length) = (e :: u) ++ [0] := by
              rw [← List.drop_drop, hq, List.append_assoc, List.drop_left]
            have h0w : 0 ∉ w ∧ 0 ∉ e :: u := by
              rwa [List.mem_append, not_or] at h0'
            rw [stringAt_eq (drop_set hq) h0w.1]
            have hset : (mem.set (q + w.length) 0).drop (q + w.length + delims.length) =
                mem.drop (q + w.length + delims.length) := drop_set_behind (by omega)
            rcases drop_step delims.length he' with ⟨hroom, hnext⟩ | ⟨-, hout⟩
            · refine .token hwne hw he hroom ?_
              exact ih hts rfl (hset.trans hnext) (fun hz => h0w.2 (List.mem_of_mem_drop hz)) hd
            · rw [strtokCalls_outside rfl (hset.trans hout)] at hts
              cases hts

/-- What `Tokens` says is what the calls give. -/
theorem calls_of_tokens {delims t : List Byte} {ts : List (List Byte)} (h : Tokens delims t ts)
    (hd : delims ≠ []) : ∀ {p : Nat} {mem : List Byte} {string1 saveptr : Option Nat},
    string1.or saveptr = some p → mem.drop p = t ++ [0] → 0 ∉ t →
    ∃ n, strtokCalls delims n mem string1 saveptr = some ts := by
  have hlen : 0 < delims.length := List.length_pos_iff.mpr hd
  induction h with
  | done =>
      intro p mem string1 saveptr hp hmem _
      have hstr : strstr mem p delims = some none := by
        rw [strstr, hmem]
        rfl
      refine ⟨2, ?_⟩
      rw [strtokCalls, strtokR_stop hp hmem hstr (Option.some_ne_none p).symm]
      rfl
  | @skip c t ts hc hroom _ ih =>
      intro p mem string1 saveptr hp hmem h0
      have hnext : mem.drop (p + delims.length) = (c :: t).drop delims.length ++ [0] := by
        rw [← List.drop_drop, hmem, List.drop_append_of_le_length hroom]
      have hstr : strstr mem p delims = some (some p) := by
        rw [strstr, hmem]
        exact strstrFrom_hit (w := []) h0 (by simp) hc
      obtain ⟨n, hn⟩ := @ih (p + delims.length) mem (some (p + delims.length)) none rfl hnext
        fun hz => h0 (List.mem_of_mem_drop hz)
      obtain ⟨n, rfl⟩ : ∃ m, n = m + 1 := by
        cases n with
        | zero => cases hn
        | succ n => exact ⟨n, rfl⟩
      refine ⟨n + 2, ?_⟩
      rw [strtokCalls, Option.bind_eq_bind, Option.bind_eq_some_iff] at hn ⊢
      obtain ⟨⟨tok, mem', save'⟩, hr, hn⟩ := hn
      refine ⟨(tok, mem', save'), ?_, ?_⟩
      · rw [strtokR, strtokBy, hp]
        dsimp only
        rw [skipDelims_go hstr]
        exact hr
      · cases tok with
        | none => exact hn
        | some tok =>
            dsimp only at hn ⊢
            rw [Option.map_eq_some_iff] at hn ⊢
            obtain ⟨ts', hts, hn⟩ := hn
            exact ⟨ts', strtokCalls_mono hts (Nat.le_succ n), hn⟩
  | @last w hne hw =>
      intro p mem string1 saveptr hp hmem h0
      obtain ⟨c, w, rfl⟩ := List.exists_cons_of_ne_nil hne
      have hc : c ≠ 0 := fun hz => h0 (hz ▸ List.mem_cons_self)
      have hstr : strstr mem p delims = some none := by
        rw [strstr, hmem]
        exact strstrFrom_miss h0 hw
      refine ⟨2, ?_⟩
      rw [strtokCalls, strtokR_stop hp hmem hstr (Option.some_ne_none p).symm, if_neg hc,
        Option.bind_eq_bind, Option.bind_some]
      dsimp only
      rw [@stringAt_eq mem p (c :: w) [] hmem h0]
      rfl
  | @token w u e ts hne hw he hroom _ ih =>
      intro p mem string1 saveptr hp hmem h0
      have hpos : 0 < w.length := List.length_pos_iff.mpr hne
      have hstr : strstr mem p delims = some (some (p + w.length)) := by
        rw [strstr, hmem]
        exact strstrFrom_hit h0 hw he
      have he' : mem.drop (p + w.length) = (e :: u) ++ [0] := by
        rw [← List.drop_drop, hmem, List.append_assoc, List.drop_left]
      have h0w : 0 ∉ w ∧ 0 ∉ e :: u := by
        rwa [List.mem_append, not_or] at h0
      have hnext : (mem.set (p + w.length) 0).drop (p + w.length + delims.length) =
          (e :: u).drop delims.length ++ [0] := by
        rw [drop_set_behind (by omega), ← List.drop_drop, he', List.drop_append_of_le_length hroom]
      obtain ⟨n, hn⟩ := @ih (p + w.length + delims.length) (mem.set (p + w.length) 0) none
        (some (p + w.length + delims.length)) rfl hnext fun hz => h0w.2 (List.mem_of_mem_drop hz)
      obtain ⟨c, w', rfl⟩ := List.exists_cons_of_ne_nil hne
      have hc : c ≠ 0 := fun hz => h0w.1 (hz ▸ List.mem_cons_self)
      refine ⟨n + 2, ?_⟩
      rw [strtokCalls, strtokR_stop hp hmem hstr (by rw [Ne, Option.some.injEq]; omega), if_neg hc,
        Option.bind_eq_bind, Option.bind_some]
      dsimp only
      rw [stringAt_eq (drop_set hmem) h0w.1, strtokCalls_mono hn (Nat.le_succ n)]
      rfl

/-! ### Runs -/

section Runs

variable {delims : List Byte}

theorem runs_delim {e : Byte} {t : List Byte} (he : e ∈ delims) :
    runs delims (e :: t) = runs delims t := by
  rw [runs, ← List.nil_append (e :: t), List.splitOnP_append_cons [] t (decide_eq_true he)]
  rfl

theorem runs_delims {g t : List Byte} (hg : ∀ c ∈ g, c ∈ delims) :
    runs delims (g ++ t) = runs delims t := by
  induction g with
  | nil => rfl
  | cons e g ih =>
      rw [List.forall_mem_cons] at hg
      rw [List.cons_append, runs_delim hg.1, ih hg.2]

theorem runs_last {w : List Byte} (hne : w ≠ []) (hw : ∀ c ∈ w, c ∉ delims) :
    runs delims w = [w] := by
  rw [runs, List.splitOnP_eq_singleton fun c hc => decide_eq_false (hw c hc)]
  simp [hne]

theorem runs_token {w u : List Byte} {e : Byte} (hne : w ≠ []) (hw : ∀ c ∈ w, c ∉ delims)
    (he : e ∈ delims) : runs delims (w ++ e :: u) = w :: runs delims (e :: u) := by
  rw [runs_delim he, runs, List.splitOnP_append_cons_of_forall_mem
    (fun c hc => decide_eq_false (hw c hc)) e (decide_eq_true he), List.filter_cons_of_pos (by simpa)]
  rfl

theorem length_behind {w u : List Byte} (e : Byte) (hne : w ≠ []) :
    (e :: u).length < (w ++ e :: u).length := by
  have hpos := List.length_pos_iff.mpr hne
  rw [List.length_append]
  omega

/-- A string is nothing, or starts with a byte of the set, or is a run, or starts with a run that a byte of
the set ends. -/
theorem pieces_induction (delims : List Byte) {motive : List Byte → Prop} (nil : motive [])
    (delim : ∀ e t, e ∈ delims → motive t → motive (e :: t))
    (last : ∀ w, w ≠ [] → (∀ c ∈ w, c ∉ delims) → motive w)
    (token : ∀ w e u, w ≠ [] → (∀ c ∈ w, c ∉ delims) → e ∈ delims → motive (e :: u) →
      motive (w ++ e :: u)) (t : List Byte) : motive t := by
  induction hlen : t.length using Nat.strongRecOn generalizing t with
  | _ n ih =>
      subst hlen
      rcases t with _ | ⟨c, t⟩
      · exact nil
      rcases first_of (· ∈ delims) (c :: t) with hall | ⟨w, e, u, hsplit, hw, he⟩
      · exact last _ (List.cons_ne_nil c t) hall
      rcases w with _ | ⟨c', w⟩
      · obtain ⟨rfl, rfl⟩ := List.cons.inj hsplit
        exact delim c t he (ih _ (by simp) t rfl)
      · rw [hsplit] at ih ⊢
        exact token _ e u (List.cons_ne_nil c' w) hw he 
          (ih _ (length_behind e (List.cons_ne_nil c' w)) _ rfl)

/-- Every byte that is not in the set is in one of the runs. -/
theorem length_runs (t : List Byte) :
    (runs delims t).flatten.length = t.countP (· ∉ delims) := by
  have hfree : ∀ {w : List Byte}, (∀ c ∈ w, c ∉ delims) → w.countP (· ∉ delims) = w.length :=
    fun hw => List.countP_eq_length.mpr (by simpa using hw)
  induction t using pieces_induction delims with
  | nil => rfl
  | delim e t he ih => rw [runs_delim he, ih, List.countP_cons_of_neg (by simpa)]
  | last w hne hw => rw [runs_last hne hw, hfree hw]; simp
  | token w e u hne hw he ih =>
      rw [runs_token hne hw he, List.flatten_cons, List.length_append, ih, List.countP_append, hfree hw]

theorem inStep_token {w t : List Byte} (hw : ∀ c ∈ w, c ∉ delims) :
    DelimsInStep delims (w ++ t) ↔ DelimsInStep delims t := by
  induction w with
  | nil => rfl
  | cons c w ih =>
      rw [List.forall_mem_cons] at hw
      rw [← ih hw.2, DelimsInStep, List.cons_append, ← List.nil_append (c :: (w ++ t)),
        List.splitOnP_append_cons [] (w ++ t) (decide_eq_true hw.1)]
      simp [DelimsInStep]

theorem inStep_nil : DelimsInStep delims [] := by
  intro run hrun
  rw [List.mem_singleton.mp hrun]
  exact Nat.dvd_zero _

theorem inStep_delims {g v : List Byte} (hg : ∀ c ∈ g, c ∈ delims) (hv : ∀ c ∈ v.head?, c ∉ delims) :
    DelimsInStep delims (g ++ v) ↔ delims.length ∣ g.length ∧ DelimsInStep delims v := by
  rcases v with _ | ⟨c, u⟩
  · rw [List.append_nil, and_iff_left inStep_nil, DelimsInStep,
      List.splitOnP_eq_singleton (by simpa using hg), List.forall_mem_singleton]
  · have hc : c ∉ delims := hv c rfl
    have htoken := @inStep_token delims [c] u (by simpa using hc)
    rw [List.singleton_append] at htoken
    rw [htoken, DelimsInStep, List.splitOnP_append_cons_of_forall_mem (by simpa using hg) c
      (decide_eq_true hc), List.forall_mem_cons]
    rfl

end Runs

/-! ### The tokens and the runs -/

section TokensRuns

variable {delims : List Byte}

theorem tokens_delim {e : Byte} {t : List Byte} {ts : List (List Byte)} (he : e ∈ delims) :
    Tokens delims (e :: t) ts ↔
      delims.length ≤ (e :: t).length ∧ Tokens delims ((e :: t).drop delims.length) ts := by
  refine ⟨fun h => ?_, fun ⟨hroom, h⟩ => .skip he hroom h⟩
  generalize hs : e :: t = s at h
  cases h with
  | done => cases hs
  | skip hc hroom h => exact ⟨hroom, h⟩
  | last hne hw => exact absurd he (hw e (hs ▸ List.mem_cons_self))
  | @token w u e' ts hne hw he' hroom h =>
      obtain ⟨c, w, rfl⟩ := List.exists_cons_of_ne_nil hne
      obtain ⟨rfl, -⟩ := List.cons.inj hs
      exact absurd he (hw e List.mem_cons_self)

theorem tokens_token {w u : List Byte} {e : Byte} {ts : List (List Byte)} (hne : w ≠ [])
    (hw : ∀ c ∈ w, c ∉ delims) (he : e ∈ delims) :
    Tokens delims (w ++ e :: u) (w :: ts) ↔ Tokens delims (e :: u) ts := by
  rw [tokens_delim he]
  refine ⟨fun h => ?_, fun ⟨hroom, h⟩ => .token hne hw he hroom h⟩
  generalize hs : w ++ e :: u = s at h
  cases h with
  | skip hc =>
      obtain ⟨c, w, rfl⟩ := List.exists_cons_of_ne_nil hne
      obtain ⟨rfl, -⟩ := List.cons.inj hs
      exact absurd hc (hw c List.mem_cons_self)
  | last _ hfree => exact absurd he (hfree e (hs ▸ by simp))
  | token _ _ _ hroom h =>
      obtain ⟨rfl, rfl⟩ := List.cons.inj (List.append_cancel_left hs)
      exact ⟨hroom, h⟩

/-- The tokens hold no more than what is not in the set. -/
theorem length_tokens {t : List Byte} {ts : List (List Byte)} (h : Tokens delims t ts) :
    ts.flatten.length ≤ t.countP (· ∉ delims) := by
  induction h with
  | done => exact Nat.zero_le _
  | skip _ _ _ ih => exact Nat.le_trans ih (List.drop_sublist _ _).countP_le
  | @last w _ hw =>
      rw [List.countP_eq_length.mpr (by simpa using hw)]
      simp
  | @token w u e ts _ hw _ _ _ ih =>
      rw [List.flatten_cons, List.length_append, List.countP_append,
        List.countP_eq_length.mpr (by simpa using hw)]
      exact Nat.add_le_add_left (Nat.le_trans ih (List.drop_sublist _ _).countP_le) _

/-- A string that starts with a byte of the set, cut behind its first bytes of the set. -/
theorem leading_delims {e : Byte} {t : List Byte} (he : e ∈ delims) :
    ∃ g v, e :: t = g ++ v ∧ g ≠ [] ∧ (∀ c ∈ g, c ∈ delims) ∧ ∀ c ∈ v.head?, c ∉ delims := by
  rcases first_of (· ∉ delims) (e :: t) with hall | ⟨g, c, u, hsplit, hg, hc⟩
  · exact ⟨e :: t, [], (List.append_nil _).symm, List.cons_ne_nil _ _,
      fun c hc => not_not.mp (hall c hc), by simp⟩
  · refine ⟨g, c :: u, hsplit, ?_, fun c hc => not_not.mp (hg c hc), by simpa using hc⟩
    rintro rfl
    obtain ⟨rfl, -⟩ := List.cons.inj hsplit
    exact hc he

/-- **The tokens are the runs exactly where the bytes of the set come in step.** -/
theorem tokens_runs_iff (hd : delims ≠ []) (t : List Byte) :
    Tokens delims t (runs delims t) ↔ DelimsInStep delims t := by
  have hpos : 0 < delims.length := List.length_pos_iff.mpr hd
  induction hlen : t.length using Nat.strongRecOn generalizing t with
  | _ n ih =>
      subst hlen
      rcases t with _ | ⟨e, t⟩
      · exact iff_of_true .done inStep_nil
      by_cases he : e ∈ delims
      · obtain ⟨g, v, hsplit, hg0, hg, hv⟩ := leading_delims (t := t) he
        have hgpos : 0 < g.length := List.length_pos_iff.mpr hg0
        rw [tokens_delim he, hsplit, inStep_delims hg hv]
        rw [hsplit] at ih
        rcases Nat.lt_or_ge g.length delims.length with hlt | hge
        · -- The step takes a byte that is not in the set, or leaves the string.
          refine iff_of_false ?_ fun h => absurd (Nat.le_of_dvd hgpos h.1) (by omega)
          rintro ⟨hroom, h⟩
          have hcount := length_tokens h
          rw [length_runs, List.drop_append, List.drop_eq_nil_of_le (Nat.le_of_lt hlt),
            List.nil_append, List.countP_append, List.countP_eq_zero.mpr (by simpa using hg),
            Nat.zero_add] at hcount
          rcases v with _ | ⟨c, v⟩
          · simp at hroom
            omega
          · obtain ⟨k, hk⟩ : ∃ k, delims.length - g.length = k + 1 :=
              ⟨delims.length - g.length - 1, by omega⟩
            rw [hk, List.drop_succ_cons, List.countP_cons_of_pos (by simpa using hv)] at hcount
            have hle : (v.drop k).countP (· ∉ delims) ≤ v.countP (· ∉ delims) :=
              (List.drop_sublist k v).countP_le
            omega
        · have hdrop : (g ++ v).drop delims.length = g.drop delims.length ++ v :=
            List.drop_append_of_le_length hge
          have hg' : ∀ c ∈ g.drop delims.length, c ∈ delims := fun c hc => hg c (List.mem_of_mem_drop hc)
          have hmod : delims.length ∣ g.length - delims.length ↔ delims.length ∣ g.length :=
            Nat.dvd_sub_iff_left hge (Nat.dvd_refl _)
          have hnext := ih _ (by rw [List.length_drop, List.length_append]; omega)
            ((g ++ v).drop delims.length) rfl
          rw [hdrop, runs_delims hg', inStep_delims hg' hv, List.length_drop, hmod] at hnext
          rw [hdrop, runs_delims hg, and_iff_right (by rw [List.length_append]; omega)]
          exact hnext
      · rcases first_of (· ∈ delims) (e :: t) with hall | ⟨w, e', u, hsplit, hw, he'⟩
        · rw [runs_last (List.cons_ne_nil e t) hall, ← List.append_nil (e :: t), inStep_token hall]
          exact iff_of_true (by rw [List.append_nil]; exact .last (List.cons_ne_nil e t) hall)
            inStep_nil
        · have hw0 : w ≠ [] := by
            rintro rfl
            obtain ⟨rfl, -⟩ := List.cons.inj hsplit
            exact he he'
          have hwpos : 0 < w.length := List.length_pos_iff.mpr hw0
          rw [hsplit] at ih ⊢
          rw [runs_token hw0 hw he', tokens_token hw0 hw he', inStep_token hw]
          exact ih _ (length_behind e' hw0) (e' :: u) rfl

end TokensRuns

/-! ### `strtok_r` -/

/-- The first call is given the string, and the calls after it NULL. -/
def Tokenizes (delims s : List Byte) (ts : List (List Byte)) : Prop :=
  ∃ n, strtokCalls delims n (s ++ [0]) (some 0) none = some ts

/-- **`strtok_r` gives the maximal runs, and stays inside the string, exactly where every run of delimiters
is a multiple of the length of the delimiter string long.** -/
theorem strtok_runs_iff {delims s : List Byte} (hs : 0 ∉ s) (hd : delims ≠ []) :
    Tokenizes delims s (runs delims s) ↔ DelimsInStep delims s := by
  rw [← tokens_runs_iff hd]
  constructor
  · rintro ⟨n, hn⟩
    exact tokens_of_calls hn rfl rfl hs hd
  · intro h
    exact calls_of_tokens h hd rfl rfl hs

theorem strtok_runs_witness : Tokenizes [44] [97, 44, 44, 98] [[97], [98]] :=
  (strtok_runs_iff (by decide) (by decide)).mpr (by decide)

/-- With one delimiter the runs are the pieces that are not empty. -/
theorem runs_pieces (d : Byte) (s : List Byte) : runs [d] s = (s.splitOn d).filter (· ≠ []) := by
  have hd : (fun c => decide (c ∈ [d])) = (· == d) := by
    funext c
    rw [Bool.eq_iff_iff, decide_eq_true_iff, List.mem_singleton, beq_iff_eq]
  rw [runs, hd, List.splitOn]

/-- **One piece after the other** is what `strtok_r` gives with one delimiter. -/
theorem strtok_pieces {d : Byte} {s : List Byte} {n : Nat} (h0 : 0 ∉ s) (hn : s.length < n) :
    Tokenizes [d] s (Lib.takePieces d n (some s)) := by
  have hone : DelimsInStep [d] s := fun run _ => Nat.one_dvd run.length
  have htokens := (tokens_runs_iff (List.cons_ne_nil d []) s).mpr hone
  rw [runs_pieces, ← Lib.takePieces_eq hn] at htokens
  exact calls_of_tokens htokens (List.cons_ne_nil d []) rfl rfl h0

/-- Of `a,bc`, the delimiters `, ` leave `a` and `c`. -/
theorem strtok_loses : Tokenizes [44, 32] [97, 44, 98, 99] [[97], [99]] ∧
    ¬ Tokenizes [44, 32] [97, 44, 98, 99] (runs [44, 32] [97, 44, 98, 99]) := by
  refine ⟨⟨3, by decide⟩, ?_⟩
  rintro ⟨n, hn⟩
  have htokens := tokens_of_calls hn rfl rfl (by decide) (by decide)
  exact absurd ((tokens_runs_iff (by decide) _).mp htokens) (by decide)

end Muxomucota.Text
