import Muxomucota.Text.Strchr
import Mathlib.Tactic.SplitIfs

/-!
# Vfs — `__simplify_path`

The first function of `vfs/create_pipe.c`.  It rewrites a path in place.  The memory is the path and what
is given around it, and a pointer is an offset into it; a function that reads or writes outside the memory
gives `none`.  The loops take a number of rounds that they may make.
-/

namespace Muxomucota.Vfs

open Console
open Text (strlen strchr)

def slash : Byte := 0x2f
def dot : Byte := 0x2e

/-! ### The code -/

/-- `memmove(d, s, last - s)`. -/
def memmove (mem : List Byte) (d s last : Nat) : Option (List Byte) :=
  if s ≤ last ∧ last ≤ mem.length ∧ d ≤ s then
    some (mem.take d ++ ((mem.drop s).take (last - s) ++ mem.drop (d + (last - s))))
  else none

/-- `*p = c`. -/
def store (mem : List Byte) (p : Nat) (c : Byte) : Option (List Byte) :=
  if p < mem.length then some (mem.set p c) else none

/-- `while (part[1] == '/')`. -/
def dropSlashes (last part : Nat) : (n : Nat) → List Byte → Bool → Option (List Byte × Bool)
  | 0, _, _ => none
  | n + 1, mem, changed => do
      let c ← mem[part + 1]?
      if c = slash then do
        let mem ← memmove mem (part + 1) (part + 2) last
        dropSlashes last part n mem true
      else some (mem, changed)

/-- `while ((part[1] == '.') && (part[2] == '/'))`. -/
def dropDots (last part : Nat) : (n : Nat) → List Byte → Bool → Option (List Byte × Bool)
  | 0, _, _ => none
  | n + 1, mem, changed => do
      let c ← mem[part + 1]?
      if c = dot then do
        let d ← mem[part + 2]?
        if d = slash then do
          let mem ← memmove mem (part + 1) (part + 3) last
          dropDots last part n mem true
        else some (mem, changed)
      else some (mem, changed)

/-- `(part[1] == '.') && !part[2]`. -/
def endsInDot (mem : List Byte) (part : Nat) : Option Bool := do
  let c ← mem[part + 1]?
  if c = dot then do
    let d ← mem[part + 2]?
    some (d = 0)
  else some false

/-- `part[3]`, if `(part[1] == '.') && (part[2] == '.') && ((part[3] == '/') || !part[3])`. -/
def parentAt (mem : List Byte) (part : Nat) : Option (Option Byte) := do
  let c ← mem[part + 1]?
  if c = dot then do
    let d ← mem[part + 2]?
    if d = dot then do
      let e ← mem[part + 3]?
      some (if e = slash ∨ e = 0 then some e else none)
    else some none
  else some none

/-- `while ((prev > path) && (*prev != '/')) prev--`. -/
def searchBack (mem : List Byte) (path : Nat) : (prev : Nat) → Option Nat
  | 0 => some 0
  | prev + 1 =>
      if path < prev + 1 then do
        let c ← mem[prev + 1]?
        if c ≠ slash then searchBack mem path prev else some (prev + 1)
      else some (prev + 1)

/-- The loop for the parents: what it leaves in `part`, too. -/
def dropParents (path last : Nat) : (n : Nat) → List Byte → (part : Nat) → Bool →
    Option (List Byte × Nat × Bool)
  | 0, _, _, _ => none
  | n + 1, mem, part, changed => do
      let some c ← parentAt mem part | some (mem, part, changed)
      -- `part - 1` is before the memory
      if part = 0 then none
      else do
        let prev ← searchBack mem path (part - 1)
        let p ← mem[prev]?
        if p ≠ slash then some (mem, part, changed)
        else if c ≠ 0 then do
          let mem ← memmove mem (prev + 1) (part + 4) last
          dropParents path last n mem prev true
        else do
          let mem ← store mem prev 0
          some (mem, prev, true)

/-- The loop of `__simplify_path`. -/
def simplifyLoop (path last : Nat) : (n : Nat) → List Byte → (part : Option Nat) → Option (List Byte)
  | 0, _, _ => none
  | _ + 1, mem, none => some mem
  | n + 1, mem, some part => do
      let (mem, changed) ← dropSlashes last part n mem false
      let c ← mem[part + 1]?
      if c = 0 then store mem part 0
      else do
        let (mem, changed) ← dropDots last part n mem changed
        if ← endsInDot mem part then store mem part 0
        else do
          let (mem, part, changed) ← dropParents path last n mem part changed
          let part ← strchr mem (if changed then part else part + 1) slash
          simplifyLoop path last n mem part

/-- `__simplify_path`. -/
def simplifyPath (n : Nat) (mem : List Byte) (path : Nat) : Option (List Byte) := do
  let len ← strlen mem path
  let part ← strchr mem path slash
  simplifyLoop path (path + (len + 1)) n mem part

/-! ### The purpose -/

/-- The string at the start of a memory. -/
def stringIn (mem : List Byte) : List Byte := mem.takeWhile (· ≠ 0)

/-- The `..` of a path. -/
def parent : List Byte := [dot, dot]

/-- One component: nothing and `.` stay where one is, and `..` goes to the parent, which the root is of
itself. -/
def enter (stack : List (List Byte)) (c : List Byte) : List (List Byte) :=
  if c = [] ∨ c = [dot] then stack
  else if c = parent then stack.dropLast
  else stack ++ [c]

/-- The names that a path comes down to. -/
def resolved (s : List Byte) : List (List Byte) := (s.splitOn slash).foldl enter []

/-- Names, each with a slash before it. -/
def pathText (stack : List (List Byte)) : List Byte := stack.flatMap (slash :: ·)

/-- No `..` of a path is met at the root, `depth` names below it. -/
def StaysBelow : (depth : Nat) → List (List Byte) → Prop
  | _, [] => True
  | depth, c :: cs =>
      if c = [] ∨ c = [dot] then StaysBelow depth cs
      else if c = parent then depth ≠ 0 ∧ StaysBelow (depth - 1) cs
      else StaysBelow (depth + 1) cs

/-- Names with a slash before each, and none of them empty, `.` or `..`. -/
def Canonical (p : List Byte) : Prop :=
  ∃ comps, p = pathText comps ∧ ∀ c ∈ comps, c ≠ [] ∧ c ≠ [dot] ∧ c ≠ parent ∧ slash ∉ c

/-- What is to come of a path: with enough rounds the function returns, it has stayed inside the string, and
what it leaves is canonical and is what the components come down to. -/
def Simplifies (s : List Byte) : Prop :=
  ∃ N, ∀ n ≥ N, ∃ mem, simplifyPath n (s ++ [0]) 0 = some mem ∧ Canonical (stringIn mem) ∧
    stringIn mem = pathText (resolved s)

/-! ### Components -/

/-- The components that matter. -/
def names (s : List Byte) : List (List Byte) :=
  (s.splitOn slash).filter fun c => c ≠ [] ∧ c ≠ [dot]

theorem names_last {c : List Byte} (hc : slash ∉ c) (hne : c ≠ []) (hdot : c ≠ [dot]) :
    names c = [c] := by
  rw [names, List.splitOn_eq_singleton hc]
  simp [hne, hdot]

theorem names_first {c r : List Byte} (hc : slash ∉ c) (hne : c ≠ []) (hdot : c ≠ [dot]) :
    names (c ++ slash :: r) = c :: names r := by
  rw [names, List.splitOn_append_cons_self_of_not_mem hc,
    List.filter_cons_of_pos (by simp [hne, hdot])]
  rfl

theorem names_nil : names [] = [] := by decide

theorem names_dot : names [dot] = [] := by decide

theorem names_slash (r : List Byte) : names (slash :: r) = names r := by
  have h : ([] ++ slash :: r).splitOn slash = [] :: r.splitOn slash :=
    List.splitOn_append_cons_self_of_not_mem (by simp) r
  rw [names, ← List.nil_append (slash :: r), h, List.filter_cons_of_neg (by simp)]
  rfl

theorem names_dot_slash (r : List Byte) : names (dot :: slash :: r) = names r := by
  have h : ([dot] ++ slash :: r).splitOn slash = [dot] :: r.splitOn slash :=
    List.splitOn_append_cons_self_of_not_mem (by decide) r
  have hcons : dot :: slash :: r = [dot] ++ slash :: r := rfl
  rw [names, hcons, h, List.filter_cons_of_neg (by simp)]
  rfl

/-! ### The memory -/

section Memory

variable {A B R J : List Byte} {last : Nat}

theorem cell_rest (A B : List Byte) (i : Nat) :
    (A ++ slash :: B)[A.length + 1 + i]? = B[i]? := by
  rw [List.getElem?_append_right (by omega), Nat.add_assoc, Nat.add_sub_cancel_left, Nat.add_comm 1,
    List.getElem?_cons_succ]

/-- What lies behind `B` moves up to the end of `A`. -/
theorem memmove_spec (hlast : A.length + (B.length + (R.length + 1)) ≤ last)
    (hmem : last ≤ (A ++ (B ++ (R ++ 0 :: J))).length) :
    ∃ J', memmove (A ++ (B ++ (R ++ 0 :: J))) A.length (A.length + B.length) last =
        some (A ++ (R ++ 0 :: J')) ∧ J'.length = B.length + J.length := by
  obtain ⟨k, rfl⟩ : ∃ k, last = A.length + (B.length + (R.length + 1)) + k :=
    ⟨_, (Nat.add_sub_cancel' hlast).symm⟩
  have hdrop : (A ++ (B ++ (R ++ 0 :: J))).drop (A.length + B.length) = R ++ 0 :: J := by
    rw [← List.drop_drop, List.drop_left, List.drop_left]
  have hcount : A.length + (B.length + (R.length + 1)) + k - (A.length + B.length) =
      R.length + (1 + k) := by omega
  have htake : (R ++ 0 :: J).take (R.length + (1 + k)) = R ++ 0 :: J.take k := by
    rw [List.take_length_add_append, Nat.add_comm 1, List.take_succ_cons]
  rw [memmove, if_pos ⟨by omega, hmem, by omega⟩, hdrop, List.take_left, hcount, htake]
  refine ⟨J.take k ++ (A ++ (B ++ (R ++ 0 :: J))).drop (A.length + (R.length + (1 + k))), ?_, ?_⟩
  · rw [List.append_assoc, List.cons_append]
  · simp only [List.length_append, List.length_cons, List.length_take, List.length_drop] at hmem ⊢
    omega

/-- The same behind the slash at `part`. -/
theorem memmove_rest {b : List Byte} (hlast : A.length + 1 + ((b ++ R).length + 1) ≤ last)
    (hmem : last ≤ (A ++ slash :: ((b ++ R) ++ 0 :: J)).length) :
    ∃ J', memmove (A ++ slash :: ((b ++ R) ++ 0 :: J)) (A.length + 1) (A.length + 1 + b.length) last =
        some (A ++ slash :: (R ++ 0 :: J')) ∧ J'.length = b.length + J.length := by
  have hsplit : ∀ X, A ++ slash :: X = (A ++ [slash]) ++ X := fun X => by
    rw [List.append_assoc, List.singleton_append]
  have hlen : (A ++ [slash]).length = A.length + 1 := by
    rw [List.length_append, List.length_singleton]
  rw [hsplit, List.append_assoc b] at hmem ⊢
  rw [List.length_append] at hlast
  have h := @memmove_spec (A ++ [slash]) b R J last (by rw [hlen]; omega) hmem
  rw [hlen] at h
  obtain ⟨J', h, hJ⟩ := h
  exact ⟨J', by rw [h, List.append_assoc, List.singleton_append], hJ⟩

end Memory

/-! ### Slashes and dots -/

/-- What the loops for the slashes and the dots make of what is behind the slash at `part`. -/
structure Shrinks (rest junk : List Byte) (changed : Bool) (rest' junk' : List Byte) (changed' : Bool) :
    Prop where
  suffix : rest' <:+ rest
  size : rest'.length + junk'.length = rest.length + junk.length
  names : names rest' = names rest
  same : changed' = false → rest' = rest ∧ changed = false
  less : changed' = true → changed = true ∨ rest'.length < rest.length

theorem Shrinks.refl (rest junk : List Byte) (changed : Bool) :
    Shrinks rest junk changed rest junk changed :=
  ⟨List.suffix_refl _, rfl, rfl, fun h => ⟨rfl, h⟩, fun h => Or.inl h⟩

/-- A round takes something off that does not matter. -/
theorem Shrinks.round {b rest junk junk₁ rest' junk' : List Byte} {changed changed' : Bool}
    (hb : b ≠ []) (hsize : junk₁.length = b.length + junk.length)
    (hnames : Vfs.names (b ++ rest) = Vfs.names rest)
    (h : Shrinks rest junk₁ true rest' junk' changed') :
    Shrinks (b ++ rest) junk changed rest' junk' changed' := by
  have hpos := List.length_pos_iff.mpr hb
  have hle := h.suffix.length_le
  have hsum := h.size
  refine ⟨h.suffix.trans (List.suffix_append _ _), ?_, h.names.trans hnames.symm, fun hno => ?_,
    fun _ => Or.inr ?_⟩
  · rw [List.length_append]
    omega
  · exact absurd (h.same hno).2 (by simp)
  · rw [List.length_append]
    omega

/-- Two rounds, of which one may have changed something. -/
theorem less_trans {n₁ n₂ n₃ : Nat} {c₁ c₂ c₃ : Bool} (hle : n₂ ≤ n₁) (hle' : n₃ ≤ n₂)
    (h : c₂ = true → c₁ = true ∨ n₂ < n₁) (h' : c₃ = true → c₂ = true ∨ n₃ < n₂) (hyes : c₃ = true) :
    c₁ = true ∨ n₃ < n₁ := by
  rcases h' hyes with hc | hlt
  · exact (h hc).imp_right (Nat.lt_of_le_of_lt hle')
  · exact Or.inr (Nat.lt_of_lt_of_le hlt hle)

theorem Shrinks.trans {r₁ j₁ r₂ j₂ r₃ j₃ : List Byte} {c₁ c₂ c₃ : Bool}
    (h : Shrinks r₁ j₁ c₁ r₂ j₂ c₂) (h' : Shrinks r₂ j₂ c₂ r₃ j₃ c₃) : Shrinks r₁ j₁ c₁ r₃ j₃ c₃ := by
  refine ⟨h'.suffix.trans h.suffix, h'.size.trans h.size, h'.names.trans h.names, fun hno => ?_,
    less_trans h.suffix.length_le h'.suffix.length_le h.less h'.less⟩
  obtain ⟨rfl, hc⟩ := h'.same hno
  exact h.same hc

section Loops

variable {A : List Byte} {last : Nat}

theorem dropSlashes_spec : ∀ {n : Nat} {rest junk : List Byte} {changed : Bool}, rest.length < n →
    A.length + 1 + (rest.length + 1) ≤ last → last ≤ (A ++ slash :: (rest ++ 0 :: junk)).length →
    ∃ rest' junk' changed', Shrinks rest junk changed rest' junk' changed' ∧
      rest'.head? ≠ some slash ∧
      dropSlashes last A.length n (A ++ slash :: (rest ++ 0 :: junk)) changed =
        some (A ++ slash :: (rest' ++ 0 :: junk'), changed') := by
  intro n
  induction n with
  | zero => intro rest junk changed hn; cases hn
  | succ n ih =>
      intro rest junk changed hn hlast hmem
      rw [dropSlashes, ← Nat.add_zero (A.length + 1), cell_rest, Nat.add_zero]
      rcases rest with _ | ⟨c, rest⟩
      · exact ⟨[], junk, changed, Shrinks.refl _ _ _, by simp, rfl⟩
      by_cases hc : c = slash
      · subst hc
        obtain ⟨junk₁, hmove, hjunk⟩ := @memmove_rest A rest junk last [slash] hlast hmem
        have hlen : (A ++ slash :: (rest ++ 0 :: junk₁)).length =
            (A ++ slash :: ((slash :: rest) ++ 0 :: junk)).length := by
          simp only [List.length_append, List.length_cons, List.length_nil, hjunk]
          omega
        have hcons : (slash :: rest).length = rest.length + 1 := rfl
        obtain ⟨rest', junk', changed', hshrinks, hhead, hloop⟩ :=
          @ih rest junk₁ true (by omega) (by omega) (by rw [hlen]; exact hmem)
        refine ⟨rest', junk', changed', ?_, hhead, ?_⟩
        · exact Shrinks.round (List.cons_ne_nil _ []) hjunk (names_slash rest) hshrinks
        · rw [List.cons_append, List.getElem?_cons_zero, Option.bind_eq_bind, Option.bind_some, if_pos rfl]
          exact (congrArg (Option.bind · _) hmove).trans hloop
      · refine ⟨c :: rest, junk, changed, Shrinks.refl _ _ _, by simpa using hc, ?_⟩
        rw [List.cons_append, List.getElem?_cons_zero, Option.bind_eq_bind, Option.bind_some, if_neg hc]

theorem dropDots_spec : ∀ {n : Nat} {rest junk : List Byte} {changed : Bool}, rest.length < n →
    A.length + 1 + (rest.length + 1) ≤ last → last ≤ (A ++ slash :: (rest ++ 0 :: junk)).length →
    ∃ rest' junk' changed', Shrinks rest junk changed rest' junk' changed' ∧
      (∀ r, rest' ≠ dot :: slash :: r) ∧
      dropDots last A.length n (A ++ slash :: (rest ++ 0 :: junk)) changed =
        some (A ++ slash :: (rest' ++ 0 :: junk'), changed') := by
  intro n
  induction n with
  | zero => intro rest junk changed hn; cases hn
  | succ n ih =>
      intro rest junk changed hn hlast hmem
      rw [dropDots, ← Nat.add_zero (A.length + 1), cell_rest, Nat.add_zero]
      have hcell : (A ++ slash :: (rest ++ 0 :: junk))[A.length + 2]? = (rest ++ 0 :: junk)[1]? :=
        cell_rest A _ 1
      rw [hcell]
      rcases rest with _ | ⟨c, _ | ⟨d, rest⟩⟩
      · exact ⟨[], junk, changed, Shrinks.refl _ _ _, by simp, rfl⟩
      · refine ⟨[c], junk, changed, Shrinks.refl _ _ _, by simp, ?_⟩
        by_cases hc : c = dot
        · subst hc
          rfl
        · rw [List.cons_append, List.getElem?_cons_zero, Option.bind_eq_bind, Option.bind_some,
            if_neg hc]
      rw [List.cons_append, List.cons_append, List.getElem?_cons_zero, Option.bind_eq_bind,
        Option.bind_some, List.getElem?_cons_succ, List.getElem?_cons_zero]
      by_cases hcd : c = dot ∧ d = slash
      · obtain ⟨rfl, rfl⟩ := hcd
        obtain ⟨junk₁, hmove, hjunk⟩ := @memmove_rest A rest junk last [dot, slash] hlast hmem
        have hlen : (A ++ slash :: (rest ++ 0 :: junk₁)).length =
            (A ++ slash :: ((dot :: slash :: rest) ++ 0 :: junk)).length := by
          simp only [List.length_append, List.length_cons, List.length_nil, hjunk]
          omega
        have hcons : (dot :: slash :: rest).length = rest.length + 2 := rfl
        obtain ⟨rest', junk', changed', hshrinks, hstop, hloop⟩ :=
          @ih rest junk₁ true (by omega) (by omega) (by rw [hlen]; exact hmem)
        refine ⟨rest', junk', changed', ?_, hstop, ?_⟩
        · exact Shrinks.round (List.cons_ne_nil _ [slash]) hjunk (names_dot_slash rest) hshrinks
        · rw [if_pos rfl, Option.bind_eq_bind, Option.bind_some, if_pos rfl]
          exact (congrArg (Option.bind · _) hmove).trans hloop
      · refine ⟨c :: d :: rest, junk, changed, Shrinks.refl _ _ _, ?_, ?_⟩
        · rintro r hr
          cases hr
          exact hcd ⟨rfl, rfl⟩
        · by_cases hc : c = dot
          · rw [if_pos hc, Option.bind_eq_bind, Option.bind_some, if_neg fun h => hcd ⟨hc, h⟩]
            rfl
          · rw [if_neg hc]
            rfl

theorem endsInDot_eq {rest junk : List Byte} (h0 : 0 ∉ rest) :
    endsInDot (A ++ slash :: (rest ++ 0 :: junk)) A.length = some (rest = [dot] : Bool) := by
  have hcell : (A ++ slash :: (rest ++ 0 :: junk))[A.length + 2]? = (rest ++ 0 :: junk)[1]? :=
    cell_rest A _ 1
  rw [endsInDot, ← Nat.add_zero (A.length + 1), cell_rest, Nat.add_zero, hcell]
  rcases rest with _ | ⟨c, _ | ⟨d, rest⟩⟩
  · rfl
  · by_cases hc : c = dot
    · subst hc
      rfl
    · rw [List.cons_append, List.getElem?_cons_zero, Option.bind_eq_bind, Option.bind_some, if_neg hc]
      simp [hc]
  · have hd : d ≠ 0 := fun h => h0 (by simp [h])
    rw [List.cons_append, List.cons_append, List.getElem?_cons_zero, Option.bind_eq_bind,
      Option.bind_some, List.getElem?_cons_succ, List.getElem?_cons_zero]
    by_cases hc : c = dot
    · rw [if_pos hc, Option.bind_some]
      simpa using hd
    · rw [if_neg hc]
      simp

end Loops

/-! ### Parents -/

section ParentAt

variable {A : List Byte}

theorem parentAt_slash (r junk : List Byte) :
    parentAt (A ++ slash :: ((dot :: dot :: slash :: r) ++ 0 :: junk)) A.length = some (some slash) := by
  have h1 := cell_rest A ((dot :: dot :: slash :: r) ++ 0 :: junk) 0
  have h2 := cell_rest A ((dot :: dot :: slash :: r) ++ 0 :: junk) 1
  have h3 := cell_rest A ((dot :: dot :: slash :: r) ++ 0 :: junk) 2
  rw [parentAt]
  simp only [Nat.add_assoc, Nat.reduceAdd] at h1 h2 h3 ⊢
  rw [h1, h2, h3]
  rfl

theorem parentAt_end (junk : List Byte) :
    parentAt (A ++ slash :: (parent ++ 0 :: junk)) A.length = some (some 0) := by
  have h1 := cell_rest A (parent ++ 0 :: junk) 0
  have h2 := cell_rest A (parent ++ 0 :: junk) 1
  have h3 := cell_rest A (parent ++ 0 :: junk) 2
  rw [parentAt]
  simp only [Nat.add_assoc, Nat.reduceAdd] at h1 h2 h3 ⊢
  rw [h1, h2, h3]
  rfl

theorem parentAt_other {rest : List Byte} (junk : List Byte) (h0 : 0 ∉ rest) (hend : rest ≠ parent)
    (hslash : ∀ r, rest ≠ dot :: dot :: slash :: r) :
    parentAt (A ++ slash :: (rest ++ 0 :: junk)) A.length = some none := by
  have h1 := cell_rest A (rest ++ 0 :: junk) 0
  have h2 := cell_rest A (rest ++ 0 :: junk) 1
  have h3 := cell_rest A (rest ++ 0 :: junk) 2
  rw [parentAt]
  simp only [Nat.add_assoc, Nat.reduceAdd] at h1 h2 h3 ⊢
  rw [h1, h2, h3]
  rcases rest with _ | ⟨c, _ | ⟨d, _ | ⟨e, rest⟩⟩⟩
  · rfl
  · by_cases hc : c = dot
    · subst hc
      rfl
    · simp [hc]
  · by_cases hc : c = dot
    · by_cases hd : d = dot
      · exact absurd (by rw [hc, hd]; rfl) hend
      · simp [hc, hd]
    · simp [hc]
  · by_cases hc : c = dot
    · by_cases hd : d = dot
      · have he : e ≠ slash := fun h => hslash rest (by rw [hc, hd, h])
        have he0 : e ≠ 0 := fun h => h0 (by simp [h])
        simpa [hc, hd, he] using he0
      · simp [hc, hd]
    · simp [hc]

end ParentAt

/-- The slash before the last name. -/
theorem searchBack_spec {P w B : List Byte} {path : Nat} (hpath : path ≤ P.length) (hc : slash ∉ w) :
    ∀ j ≤ w.length, searchBack (P ++ slash :: (w ++ B)) path (P.length + j) = some P.length := by
  intro j
  induction j with
  | zero =>
      intro _
      rw [Nat.add_zero]
      rcases hP : P.length with _ | k
      · rfl
      · have hcell : (P ++ slash :: (w ++ B))[k + 1]? = some slash := by
          rw [← hP, List.getElem?_append_right (Nat.le_refl _), Nat.sub_self, List.getElem?_cons_zero]
        rw [searchBack, hcell]
        split_ifs <;> rfl
  | succ j ih =>
      intro hj
      have hcell : (P ++ slash :: (w ++ B))[P.length + j + 1]? = some w[j] := by
        have h := cell_rest P (w ++ B) j
        rw [List.getElem?_append_left hj, List.getElem?_eq_getElem hj] at h
        rw [← h]
        congr 1
        omega
      have hne : w[j] ≠ slash := fun h => hc (h ▸ List.getElem_mem hj)
      rw [← Nat.add_assoc, searchBack, if_pos (by omega), hcell, Option.bind_eq_bind, Option.bind_some,
        if_pos hne]
      exact ih (by omega)

theorem searchBack_stop (mem : List Byte) {path prev : Nat} (h : prev ≤ path) :
    searchBack mem path prev = some prev := by
  cases prev with
  | zero => rfl
  | succ prev => rw [searchBack, if_neg (by omega)]

end Muxomucota.Vfs
