import Muxomucota.Text.Strtok

/-!
# Text — the two `strstr`

`strstr` of the kernel, `kernel/common/lib/string.c`, beside that of the user library.  The kernel's finds
the first occurrence of a string.  The user library's finds the first byte that is in the other string:
the two agree exactly where an occurrence has begun by then (`strstr_agree_iff`).
-/

namespace Muxomucota.Text

open Console

/-! ### The code -/

/-- The inner loop of the kernel's `strstr`: whether it comes to the end of `s2`; `none` is a read outside
the buffer. -/
def matchesHere : (s1 s2 : List Byte) → Option Bool
  | _, [] => some true
  | [], _ :: _ => none
  | c :: cs, d :: ds => if c = d then matchesHere cs ds else some false

/-- The outer loop, over the cells from `s1` on. -/
def kernelStrstrFrom (s2 : List Byte) : (s1 : Nat) → List Byte → Option (Option Nat)
  | _, [] => none
  | s1, c :: cs =>
      if c = 0 then some none
      else (matchesHere (c :: cs) s2).bind fun found =>
        if found then some (some s1) else kernelStrstrFrom s2 (s1 + 1) cs

def kernelStrstr (mem : List Byte) (s1 : Nat) (s2 : List Byte) : Option (Option Nat) :=
  kernelStrstrFrom s2 s1 (mem.drop s1)

/-! ### The purpose -/

/-- Where `s2` first stands in `s1`, if it does. -/
def FirstAt (s1 s2 : List Byte) : Option Nat → Prop
  | some p => s2 <+: s1.drop p ∧ ∀ q < p, ¬s2 <+: s1.drop q
  | none => ∀ q, ¬s2 <+: s1.drop q

/-- Both find the first occurrence. -/
def StrstrAgree (s1 s2 : List Byte) : Prop :=
  ∃ r, kernelStrstr (s1 ++ [0]) 0 s2 = some r ∧ strstr (s1 ++ [0]) 0 s2 = some r ∧ FirstAt s1 s2 r

/-- No byte of `s2` stands in `s1` before the first occurrence. -/
def BeginsFirst (s1 s2 : List Byte) : Prop :=
  ∀ q c, s1[q]? = some c → c ∈ s2 → ∃ p ≤ q, s2 <+: s1.drop p

section Search

variable {s1 s2 : List Byte}

/-! ### Occurrences -/

theorem FirstAt.unique {r r' : Option Nat} (h : FirstAt s1 s2 r) (h' : FirstAt s1 s2 r') : r = r' := by
  cases r with
  | none =>
      cases r' with
      | none => rfl
      | some p => exact absurd h'.1 (h p)
  | some p =>
      cases r' with
      | none => exact absurd h.1 (h' p)
      | some p' =>
          rcases Nat.lt_trichotomy p p' with hlt | rfl | hgt
          · exact absurd h.1 (h'.2 p hlt)
          · rfl
          · exact absurd h'.1 (h.2 p' hgt)

/-- An occurrence begins with a byte of the string. -/
theorem mem_of_occurrence {p : Nat} (hne : s2 ≠ []) (h : s2 <+: s1.drop p) :
    ∃ c, s1[p]? = some c ∧ c ∈ s2 := by
  obtain ⟨c, t, rfl⟩ := List.exists_cons_of_ne_nil hne
  obtain ⟨u, hu⟩ := h
  refine ⟨c, ?_, List.mem_cons_self⟩
  have hhead := congrArg (·[0]?) hu
  simpa using hhead.symm

/-- One byte further on. -/
theorem FirstAt.cons {c : Byte} {r : Option Nat} (h : FirstAt s1 s2 r) (hno : ¬s2 <+: c :: s1) :
    FirstAt (c :: s1) s2 (r.map (· + 1)) := by
  cases r with
  | none =>
      intro q
      cases q with
      | zero => exact hno
      | succ q => exact h q
  | some p =>
      refine ⟨h.1, fun q hq => ?_⟩
      cases q with
      | zero => exact hno
      | succ q => exact h.2 q (Nat.lt_of_succ_lt_succ hq)

/-! ### The kernel -/

theorem matchesHere_eq (h : 0 ∉ s2) : ∀ {s1 : List Byte}, matchesHere (s1 ++ [0]) s2 =
    some (decide (s2 <+: s1)) := by
  induction s2 with
  | nil =>
      intro s1
      simp [matchesHere]
  | cons d t ih =>
      intro s1
      rw [List.mem_cons, not_or] at h
      cases s1 with
      | nil =>
          rw [List.nil_append, matchesHere, if_neg h.1, decide_eq_false]
          exact fun hpre => List.cons_ne_nil d t (List.prefix_nil.mp hpre)
      | cons c s1 =>
          rw [List.cons_append, matchesHere, ih h.2]
          by_cases hcd : c = d
          · subst hcd
            simp
          · rw [if_neg hcd, decide_eq_false]
            exact fun hpre => hcd (List.cons_prefix_cons.mp hpre).1.symm

theorem kernelStrstrFrom_spec (h : 0 ∉ s2) (hne : s2 ≠ []) (h0 : 0 ∉ s1) (p : Nat) :
    ∃ r, kernelStrstrFrom s2 p (s1 ++ [0]) = some (r.map (p + ·)) ∧ FirstAt s1 s2 r := by
  induction s1 generalizing p with
  | nil =>
      refine ⟨none, rfl, fun q hq => hne ?_⟩
      rwa [List.drop_nil, List.prefix_nil] at hq
  | cons c s1 ih =>
      rw [List.mem_cons, not_or] at h0
      rw [List.cons_append, kernelStrstrFrom, if_neg (Ne.symm h0.1), ← List.cons_append, matchesHere_eq h,
        Option.bind_some]
      by_cases hpre : s2 <+: c :: s1
      · rw [if_pos (decide_eq_true hpre)]
        exact ⟨some 0, rfl, hpre, fun q hq => absurd hq (Nat.not_lt_zero q)⟩
      · obtain ⟨r, hr, hfirst⟩ := ih h0.2 (p + 1)
        rw [if_neg (by rw [decide_eq_false hpre]; decide), hr]
        refine ⟨r.map (· + 1), ?_, hfirst.cons hpre⟩
        cases r with
        | none => rfl
        | some q =>
            rw [Option.map_some, Option.map_some, Option.map_some, Nat.add_right_comm, Nat.add_assoc]

/-- **The kernel's `strstr`** finds the first occurrence. -/
theorem kernelStrstr_spec (h : 0 ∉ s2) (hne : s2 ≠ []) (h0 : 0 ∉ s1) :
    ∃ r, kernelStrstr (s1 ++ [0]) 0 s2 = some r ∧ FirstAt s1 s2 r := by
  obtain ⟨r, hr, hfirst⟩ := kernelStrstrFrom_spec h hne h0 0
  have hmap : r.map (0 + ·) = r := by simp
  rw [hmap] at hr
  exact ⟨r, hr, hfirst⟩

/-! ### The user library -/

/-- The user library's `strstr` is right exactly where the first byte found begins an occurrence. -/
theorem strstr_first_iff (hne : s2 ≠ []) (h0 : 0 ∉ s1) :
    (∃ r, strstr (s1 ++ [0]) 0 s2 = some r ∧ FirstAt s1 s2 r) ↔ BeginsFirst s1 s2 := by
  rcases first_of (· ∈ s2) s1 with hno | ⟨w, e, u, rfl, hw, he⟩
  · refine iff_of_true ⟨none, strstrFrom_miss h0 hno, fun q hq => ?_⟩ fun q c hq hc => ?_
    · obtain ⟨c, hc, hmem⟩ := mem_of_occurrence hne hq
      exact hno c (List.mem_of_getElem? hc) hmem
    · exact absurd hc (hno c (List.mem_of_getElem? hq))
  · have hfound : strstr ((w ++ e :: u) ++ [0]) 0 s2 = some (some w.length) := by
      rw [strstr, List.drop_zero, strstrFrom_hit h0 hw he, Nat.zero_add]
    have hbefore : ∀ q c, (w ++ e :: u)[q]? = some c → c ∈ s2 → w.length ≤ q := by
      intro q c hq hc
      by_contra hlt
      rw [List.getElem?_append_left (by omega)] at hq
      exact hw c (List.mem_of_getElem? hq) hc
    refine ⟨?_, fun h => ⟨_, hfound, ?_⟩⟩
    · rintro ⟨r, hr, hfirst⟩ q c hq hc
      rw [hfound] at hr
      cases hr
      exact ⟨w.length, hbefore q c hq hc, hfirst.1⟩
    · have hno : ∀ q < w.length, ¬s2 <+: (w ++ e :: u).drop q := by
        intro q hq hpre
        obtain ⟨c, hc, hmem⟩ := mem_of_occurrence hne hpre
        exact absurd (hbefore q c hc hmem) (by omega)
      obtain ⟨p, hp, hpre⟩ := h w.length e (by simp) he
      obtain rfl | hlt := Nat.eq_or_lt_of_le hp
      · exact ⟨hpre, hno⟩
      · exact absurd hpre (hno p hlt)

/-- **The two `strstr`** agree exactly if no byte of the string stands before its first occurrence. -/
theorem strstr_agree_iff (h : 0 ∉ s2) (hne : s2 ≠ []) (h0 : 0 ∉ s1) :
    StrstrAgree s1 s2 ↔ BeginsFirst s1 s2 := by
  obtain ⟨r, hr, hfirst⟩ := kernelStrstr_spec h hne h0
  rw [← strstr_first_iff hne h0]
  constructor
  · rintro ⟨r', -, hr', hfirst'⟩
    exact ⟨r', hr', hfirst'⟩
  · rintro ⟨r', hr', hfirst'⟩
    obtain rfl := hfirst.unique hfirst'
    exact ⟨r, hr, hr', hfirst⟩

/-- `bc` in `abc`. -/
theorem strstr_agree_abc : StrstrAgree [97, 98, 99] [98, 99] := by
  refine (strstr_agree_iff (by decide) (by decide) (by decide)).mpr fun q c hq hc => ?_
  match q, hq with
  | 0, hq => cases hq; exact absurd hc (by decide)
  | 1, _ => exact ⟨1, Nat.le_refl _, by decide⟩
  | 2, _ => exact ⟨1, by decide, by decide⟩

/-- `ba` in `ab`: the user library finds it. -/
theorem strstr_differ : ¬StrstrAgree [97, 98] [98, 97] := by
  rintro ⟨r, hkernel, huser, -⟩
  have hnone : kernelStrstr ([97, 98] ++ [0]) 0 [98, 97] = some none := by decide
  have hzero : strstr ([97, 98] ++ [0]) 0 [98, 97] = some (some 0) := by decide
  rw [hkernel, ← huser, hzero] at hnone
  cases hnone

/-- Any string of one byte is found. -/
theorem beginsFirst_byte (s1 : List Byte) (c : Byte) : BeginsFirst s1 [c] := by
  intro q d hq hd
  obtain rfl := List.mem_singleton.mp hd
  refine ⟨q, Nat.le_refl _, s1.drop (q + 1), ?_⟩
  obtain ⟨hlt, hget⟩ := List.getElem?_eq_some_iff.mp hq
  rw [List.singleton_append, List.drop_eq_getElem_cons hlt, hget]

end Search

end Muxomucota.Text
