import Muxomucota.Boot.Strings

/-!
# Boot — splitting a command line

The kernel counts the tokens of a command line with `strtok_count` and collects them with `strtok_array`
(`main` in `kernel/common/init/init.c`).  The first counts delimiters, and the second skips them: the
tokens are the pieces between delimiters that are not empty (`tokenLoop_spec`).
-/

namespace Muxomucota.Boot
open Console (Byte)
open Text (strchr strchrFrom kernelStrstr skipDelims skipDelims_stop skipDelims_go strtokBy_stop)
open Lib

variable {d : Byte} {mem pre post t ds v w : List Byte} {n p : Nat} {tok : Option Nat}

/-! ### One token -/

theorem skipDelims_spec (hd₀ : d ≠ 0) (hds : ∀ c ∈ ds, c = d) (hmem : mem.drop p = ds ++ v)
    (hstr : kernelStrstr mem (p + ds.length) [d] = some tok) (hne : tok ≠ some (p + ds.length))
    (hn : ds.length < n) : skipDelims kernelStrstr mem [d] n p = some (p + ds.length, tok) := by
  induction ds generalizing p n with
  | nil =>
      obtain ⟨n, rfl⟩ := Nat.exists_eq_add_of_lt hn
      simp only [List.length_nil, Nat.add_zero] at hstr hne ⊢
      exact skipDelims_stop hstr hne
  | cons c ds ih =>
      obtain ⟨n, rfl⟩ := Nat.exists_eq_add_of_lt (Nat.lt_of_le_of_lt (Nat.zero_le _) hn)
      obtain ⟨rfl, hds⟩ := List.forall_mem_cons.mp hds
      have hhere : kernelStrstr mem p [c] = some (some p) := by
        rw [kernelStrstr, hmem, List.cons_append, kernelStrstr_single, if_neg hd₀, if_pos rfl]
      have hnext : mem.drop (p + 1) = ds ++ v := by
        rw [← List.drop_drop, hmem]
        rfl
      have hlen : p + (c :: ds).length = p + 1 + ds.length := by
        rw [List.length_cons, Nat.add_assoc, Nat.add_comm 1]
      rw [hlen] at hstr hne ⊢
      rw [Nat.zero_add, skipDelims_go hhere]
      exact ih hds hnext hstr hne (by rw [List.length_cons] at hn; omega)

/-- A call that finds the token, or the end, behind the delimiters `ds`. -/
theorem strtok_spec {string1 nextToken : Option Nat} {c : Byte} {u : List Byte} (hd₀ : d ≠ 0)
    (hp : string1.or nextToken = some p) (hds : ∀ c ∈ ds, c = d) (hmem : mem.drop p = ds ++ c :: u)
    (hstr : kernelStrstr mem (p + ds.length) [d] = some tok) (hne : tok ≠ some (p + ds.length))
    (hn : ds.length < n) :
    strtok n mem string1 [d] nextToken =
      if c = 0 then some (none, mem, none)
      else match tok with
        | none => some (some (p + ds.length), mem, none)
        | some tok => some (some (p + ds.length), mem.set tok 0, some (tok + 1)) := by
  have hcell : mem[p + ds.length]? = some c := by
    rw [← List.head?_drop, ← List.drop_drop, hmem, List.drop_left, List.head?_cons]
  exact strtokBy_stop hp (skipDelims_spec hd₀ hds hmem hstr hne hn) hcell

/-- The last call, or the one before it. -/
theorem strtok_last {string1 nextToken : Option Nat} (hd₀ : d ≠ 0) (hp : string1.or nextToken = some p)
    (hds : ∀ c ∈ ds, c = d) (hmem : mem.drop p = ds ++ (w ++ 0 :: post)) (h0 : 0 ∉ w) (hw : d ∉ w)
    (hn : ds.length < n) : strtok n mem string1 [d] nextToken =
      if w = [] then some (none, mem, none) else some (some (p + ds.length), mem, none) := by
  have hstr : kernelStrstr mem (p + ds.length) [d] = some none := by
    rw [kernelStrstr, ← List.drop_drop, hmem, List.drop_left, kernelStrstr_miss h0 hw]
  cases w with
  | nil => rw [strtok_spec hd₀ hp hds hmem hstr (Option.some_ne_none _).symm hn, if_pos rfl, if_pos rfl]
  | cons c w =>
      have hc : c ≠ 0 := fun hc => h0 (hc ▸ List.mem_cons_self)
      rw [strtok_spec hd₀ hp hds hmem hstr (Option.some_ne_none _).symm hn, if_neg hc,
        if_neg (List.cons_ne_nil _ _)]

/-- A call that finds a token and the delimiter behind it. -/
theorem strtok_token {string1 nextToken : Option Nat} {u : List Byte} (hd₀ : d ≠ 0)
    (hp : string1.or nextToken = some p) (hds : ∀ c ∈ ds, c = d)
    (hmem : mem.drop p = ds ++ (w ++ d :: u)) (h0 : 0 ∉ w) (hw : d ∉ w) (hne : w ≠ [])
    (hn : ds.length < n) : strtok n mem string1 [d] nextToken =
      some (some (p + ds.length), mem.set (p + ds.length + w.length) 0,
        some (p + ds.length + w.length + 1)) := by
  have hstr : kernelStrstr mem (p + ds.length) [d] = some (some (p + ds.length + w.length)) := by
    rw [kernelStrstr, ← List.drop_drop, hmem, List.drop_left, kernelStrstr_hit hd₀ h0 hw]
  obtain ⟨c, w, rfl⟩ := List.exists_cons_of_ne_nil hne
  have hc : c ≠ 0 := fun hc => h0 (hc ▸ List.mem_cons_self)
  have hbehind : some (p + ds.length + (c :: w).length) ≠ some (p + ds.length) := by
    rw [ne_eq, Option.some.injEq, List.length_cons]
    omega
  rw [strtok_spec hd₀ hp hds hmem hstr hbehind hn, if_neg hc]

/-- The delimiters at the beginning. -/
theorem leading_delims (d : Byte) (t : List Byte) :
    ∃ ds v, t = ds ++ v ∧ (∀ c ∈ ds, c = d) ∧ v.head? ≠ some d := by
  induction t with
  | nil => exact ⟨[], [], rfl, by simp, by simp⟩
  | cons c t ih =>
      by_cases hc : c = d
      · obtain ⟨ds, v, rfl, hds, hv⟩ := ih
        exact ⟨c :: ds, v, rfl, List.forall_mem_cons.mpr ⟨hc, hds⟩, hv⟩
      · exact ⟨[], c :: t, rfl, by simp, by simpa using hc⟩

/-! ### All tokens -/

theorem tokenLoop_null (d : Byte) (hn : 0 < n) (mem : List Byte) :
    tokenLoop [d] n mem none none = some ([], mem) := by
  obtain ⟨n, rfl⟩ := Nat.exists_eq_add_of_lt hn
  rfl

/-- **The tokens** are the pieces that are not empty, and what lies before the string stays. -/
theorem tokenLoop_spec (hd₀ : d ≠ 0) : ∀ {n : Nat} {pre t : List Byte} {string1 nextToken : Option Nat},
    string1.or nextToken = some pre.length → 0 ∉ t → t.length + 2 ≤ n →
    ∃ es t', tokenLoop [d] n (pre ++ (t ++ 0 :: post)) string1 nextToken = some (es, pre ++ t') ∧
      es.length = ((t.splitOn d).filter (· ≠ [])).length ∧ ∀ e ∈ es, IsToken d (pre ++ t') e := by
  intro n
  induction n with
  | zero => intro pre t string1 nextToken _ _ hn; omega
  | succ n ih =>
      intro pre t string1 nextToken hp h0 hn
      obtain ⟨ds, v, rfl, hds, hv⟩ := leading_delims d t
      rw [List.mem_append, not_or] at h0
      rw [List.length_append] at hn
      rw [filter_splitOn_delims hds, List.append_assoc, tokenLoop]
      have hmem : (pre ++ (ds ++ (v ++ 0 :: post))).drop pre.length = ds ++ (v ++ 0 :: post) :=
        List.drop_left
      by_cases hdv : d ∈ v
      · -- the token ends at the next delimiter, which becomes its NUL byte
        obtain ⟨w, u, rfl, hw⟩ := List.eq_append_cons_of_mem hdv
        have hne : w ≠ [] := by
          rintro rfl
          exact hv rfl
        rw [List.mem_append, not_or, List.mem_cons, not_or] at h0
        rw [List.length_append, List.length_cons] at hn
        rw [List.append_assoc, List.cons_append] at hmem ⊢
        have hset : (pre ++ (ds ++ (w ++ d :: (u ++ 0 :: post)))).set
            (pre.length + ds.length + w.length) 0 =
            (pre ++ (ds ++ (w ++ [0]))) ++ (u ++ 0 :: post) := by
          have hsplit : pre ++ (ds ++ (w ++ d :: (u ++ 0 :: post))) =
              (pre ++ ds ++ w) ++ d :: (u ++ 0 :: post) := by simp only [List.append_assoc]
          rw [hsplit, ← List.length_append, ← List.length_append, List.set_append_right _ _ (le_refl _),
            Nat.sub_self, List.set_cons_zero]
          simp only [List.append_assoc, List.singleton_append]
        have hlen : pre.length + ds.length + w.length + 1 = (pre ++ (ds ++ (w ++ [0]))).length := by
          simp only [List.length_append, List.length_singleton]
          omega
        rw [strtok_token hd₀ hp hds hmem h0.2.1 hw hne (by omega), hset, hlen]
        obtain ⟨es, u', hes, hcount, htokens⟩ := @ih (pre ++ (ds ++ (w ++ [0]))) u none _ rfl h0.2.2.2
          (by omega)
        have hmem' : (pre ++ (ds ++ (w ++ [0]))) ++ u' = pre ++ (ds ++ (w ++ 0 :: u')) := by
          simp only [List.append_assoc, List.singleton_append]
        rw [hmem'] at hes htokens
        refine ⟨(pre.length + ds.length) :: es, ds ++ (w ++ 0 :: u'), ?_, ?_, ?_⟩
        · rw [Option.bind_eq_bind, Option.bind_some]
          dsimp only
          rw [hes]
          rfl
        · rw [List.splitOn_append_cons_self_of_not_mem hw, List.filter_cons_of_pos (by simpa using hne),
            List.length_cons, List.length_cons, hcount]
        · refine List.forall_mem_cons.mpr ⟨⟨w, u', hne, h0.2.1, hw, ?_⟩, htokens⟩
          rw [← List.drop_drop, List.drop_left, List.drop_left]
      · rw [strtok_last hd₀ hp hds hmem h0.2 hdv (by omega), List.splitOn_eq_singleton hdv]
        split
        · rename_i hnil
          refine ⟨[], ds ++ (v ++ 0 :: post), rfl, ?_, by simp⟩
          rw [hnil]
          rfl
        · rename_i hne
          refine ⟨[pre.length + ds.length], ds ++ (v ++ 0 :: post), ?_, ?_, ?_⟩
          · rw [Option.bind_eq_bind, Option.bind_some]
            dsimp only
            rw [tokenLoop_null d (by omega)]
            rfl
          · rw [List.filter_cons_of_pos (by simpa using hne)]
            rfl
          · refine List.forall_mem_singleton.mpr ⟨v, post, hne, h0.2, hdv, ?_⟩
            rw [← List.drop_drop, List.drop_left, List.drop_left]

/-! ### Counting -/

theorem strchr_single (d : Byte) {c : Byte} (hc : c ≠ 0) :
    strchr ([d] ++ [0]) 0 c = some (if d = c then some 0 else none) := by
  rw [strchr, List.drop_zero, List.singleton_append, strchrFrom, strchrFrom, if_neg (Ne.symm hc), if_pos rfl]
  split
  · rfl
  · exact ite_id _

theorem countFrom_spec (d : Byte) (post : List Byte) : ∀ {t : List Byte}, 0 ∉ t →
    countFrom [d] (t ++ 0 :: post) = some (t.count d)
  | [], _ => rfl
  | c :: t, h0 => by
      rw [List.mem_cons, not_or] at h0
      rw [List.cons_append, countFrom, if_neg (Ne.symm h0.1), strchr_single d (Ne.symm h0.1),
        countFrom_spec d post h0.2]
      dsimp only [Option.bind_eq_bind, Option.bind_some]
      by_cases hc : d = c
      · rw [if_pos hc, if_pos (Option.some_ne_none 0), hc, List.count_cons_self]
      · rw [if_neg hc, if_neg (not_not.mpr rfl), List.count_cons_of_ne (Ne.symm hc)]

/-- `strtok_array` writes `strtok_count` entries, and each points to a token. -/
def SplitsExactly (d : Byte) (mem : List Byte) (nextToken : Option Nat) : Prop :=
  ∃ argc array mem', strtokCount mem 0 [d] = some argc ∧
    strtokArray mem 0 [d] nextToken = some (array, mem') ∧ array.length = argc ∧
    ∀ tok ∈ array, IsToken d mem' tok

/-- **Splitting a command line**: the array that `strtok_count` sizes is filled, and not overrun, exactly
if the delimiters separate something. -/
theorem splits_exactly_iff {str post : List Byte} {d : Byte} (nextToken : Option Nat) (h0 : 0 ∉ str)
    (hd : d ≠ 0) : SplitsExactly d (str ++ 0 :: post) nextToken ↔ Separated d str := by
  obtain ⟨es, mem', hes, hlen, htokens⟩ := @tokenLoop_spec d post hd
    ((str ++ 0 :: post).length + 1) [] str (some 0) nextToken rfl h0 (by simp)
  have hcount : strtokCount (str ++ 0 :: post) 0 [d] = some (str.count d + 1) := by
    rw [strtokCount, List.drop_zero, countFrom_spec d post h0, Option.map_some]
  have harray : strtokArray (str ++ 0 :: post) 0 [d] nextToken = some (es, mem') := hes
  rw [← length_filter_splitOn, ← hlen]
  constructor
  · rintro ⟨argc, array, _, hargc, harray', heq, -⟩
    rw [hcount] at hargc
    rw [harray] at harray'
    cases hargc
    cases harray'
    exact heq
  · exact fun heq => ⟨_, _, _, hcount, harray, heq, htokens⟩

/-- `"a b"` -/
theorem splits_exactly_two : SplitsExactly 32 ([97, 32, 98] ++ 0 :: []) none :=
  (splits_exactly_iff none (by decide) (by decide)).mpr
    ⟨by decide, by decide, by decide, by decide⟩

/-- The empty string has one entry in the array, and `strtok_array` writes none. -/
theorem empty_line_splits : ¬∀ (str post : List Byte) (d : Byte) (nextToken : Option Nat), 0 ∉ str →
    d ≠ 0 → SplitsExactly d (str ++ 0 :: post) nextToken := by
  intro hall
  obtain ⟨argc, array, mem', hargc, harray, hlen, -⟩ := hall [] [] 32 none (by decide) (by decide)
  cases hargc
  cases harray
  cases hlen

end Muxomucota.Boot
