import Mathlib.Data.List.GetD
import Mathlib.Data.List.Sigma

/-!
# Stdlib — the environment

`getenv`, `setenv`, `putenv` and `unsetenv`.  `environ` is an array of strings, NULL where there is none;
the entry of a name is the first one that begins with the name and a `=`.  What is asked of the allocator
is a parameter of each call.

The entries are settings of a map as long as no two are of one name, and each call changes that map as it
should (`EnvCall.run_spec`).
-/

namespace Muxomucota.Stdlib

/-- A string: the bytes before its `0`. -/
abbrev Chars := List (BitVec 8)

/-- `environ`. -/
abbrev Environ := Option (List Chars)

/-- How a call fails: with -1 and `EINVAL`, with -1, or in a write through NULL. -/
inductive EnvFailure where
  | einval | noMemory | nullWrite

/-! ### The code -/

/-- `!strncmp(s1, s2, n)`. -/
def sameFirst : (s1 s2 : Chars) → (n : Nat) → Bool
  | _, _, 0 => true
  | [], [], _ + 1 => true
  | c :: s1, d :: s2, n + 1 => c = d && sameFirst s1 s2 n
  | [], _ :: _, _ + 1 => false
  | _ :: _, [], _ + 1 => false

/-- The test that all loops over the environment make; 61 is `=`. -/
def isSetting (name : Chars) (len : Nat) (entry : Chars) : Bool :=
  sameFirst entry name len && entry[len]? = some 61

/-- `getenv`; `none` is a read through NULL. -/
def getenv (environ : Environ) (name : Chars) : Option (Option Chars) :=
  environ.map fun env => (env.find? (isSetting name name.length)).map (·.drop (name.length + 1))

/-- `putenv`; `grown` says whether `realloc` succeeds. -/
def putenv (environ : Environ) (string : Chars) (grown : Bool) : Except EnvFailure Environ :=
  let equalSign := string.findIdx? (· = 61)
  let len := equalSign.getD string.length
  let freeVar := equalSign.isNone
  let env := environ.getD []
  match env.findIdx? (isSetting string len) with
  | some i =>
      if ¬freeVar then .ok (some (env.set i string))
      else .ok (some ((env.set i (env.getD (env.length - 1) [])).take (env.length - 1)))
  | none =>
      if freeVar then .ok environ
      else if grown then .ok (some (env ++ [string]))
      else .error .noMemory

/-- `setenv`; `allocated` says whether `malloc` succeeds. -/
def setenv (environ : Environ) (name value : Option Chars) (overwrite grown allocated : Bool) :
    Except EnvFailure Environ :=
  match name, value with
  | some name, some value =>
      if name = [] ∨ 61 ∈ name ∨ value = [] then .error .einval
      else
        let env := environ.getD []
        match env.findIdx? (isSetting name name.length) with
        | some i =>
            if ¬overwrite then .ok environ
            else if allocated then .ok (some (env.set i (name ++ 61 :: value)))
            else .error .nullWrite
        | none =>
            if ¬grown then .error .noMemory
            else if allocated then .ok (some (env ++ [name ++ 61 :: value]))
            else .error .nullWrite
  | _, _ => .error .einval

/-- `unsetenv`; it does not look at what `putenv` returns. -/
def unsetenv (environ : Environ) (name : Option Chars) : Except EnvFailure Environ :=
  match name with
  | some name =>
      if name = [] ∨ 61 ∈ name then .error .einval
      else match putenv environ name false with
        | .ok environ => .ok environ
        | .error _ => .ok environ
  | none => .error .einval

/-- `clearenv`. -/
def clearenv (_ : Environ) : Environ := none

/-- What a program calls. -/
inductive EnvCall where
  | setenv (name value : Option Chars) (overwrite grown allocated : Bool)
  | putenv (string : Chars) (grown : Bool)
  | unsetenv (name : Option Chars)

def EnvCall.run (environ : Environ) : EnvCall → Except EnvFailure Environ
  | .setenv name value overwrite grown allocated =>
      Stdlib.setenv environ name value overwrite grown allocated
  | .putenv string grown => Stdlib.putenv environ string grown
  | .unsetenv name => Stdlib.unsetenv environ name

/-! ### The map -/

def nameOf (entry : Chars) : Chars := entry.takeWhile (· ≠ 61)

def valueOf (entry : Chars) : Chars := (entry.dropWhile (· ≠ 61)).tail

/-- What an entry sets. -/
def settingOf (entry : Chars) : Option (Sigma fun _ : Chars => Chars) :=
  if 61 ∈ entry then some ⟨nameOf entry, valueOf entry⟩ else none

def settings (env : List Chars) : List (Sigma fun _ : Chars => Chars) := env.filterMap settingOf

def UniqueNames (environ : Environ) : Prop := (settings (environ.getD [])).NodupKeys

/-- The value of each name. -/
def values (environ : Environ) (name : Chars) : Option Chars :=
  (settings (environ.getD [])).dlookup name

/-- What a call does to the values. -/
def EnvCall.effect (values : Chars → Option Chars) : EnvCall → Chars → Option Chars
  | .setenv (some name) (some value) overwrite _ _ =>
      if ¬overwrite ∧ (values name).isSome then values
      else Function.update values name (some value)
  | .putenv string _ =>
      if 61 ∈ string then Function.update values (nameOf string) (some (valueOf string))
      else Function.update values string none
  | .unsetenv (some name) => Function.update values name none
  | _ => values

/-- A call that sets a name. -/
def EnvCall.sets : EnvCall → Bool
  | .setenv .. => true
  | .putenv string _ => 61 ∈ string
  | .unsetenv _ => false

/-- **The environment as a map**: names are unique, and a name has the value of its last setting. -/
def EnvironmentMap (environ : Environ) (calls : List EnvCall) (environ' : Environ) : Prop :=
  UniqueNames environ' ∧ ∀ name, 61 ∉ name →
    getenv environ' name = some (calls.foldl EnvCall.effect (values environ) name)

/-! ### Entries -/

variable {environ environ' : Environ} {env l₁ l₂ : List Chars} {e name value r : Chars}

theorem isSetting_iff : isSetting (name ++ r) name.length e = true ↔ ∃ v, e = name ++ 61 :: v := by
  induction name generalizing e with
  | nil =>
      cases e with
      | nil => simp [isSetting]
      | cons c e => simp [isSetting, sameFirst]
  | cons d name ih =>
      cases e with
      | nil => simp [isSetting, sameFirst]
      | cons c e =>
          have hstep : isSetting (d :: name ++ r) (d :: name).length (c :: e) =
              (decide (c = d) && isSetting (name ++ r) name.length e) := by
            simp [isSetting, sameFirst, Bool.and_assoc]
          rw [hstep, Bool.and_eq_true, ih, decide_eq_true_iff]
          simp [eq_comm]

theorem isSetting_name : isSetting name name.length e = true ↔ ∃ v, e = name ++ 61 :: v := by
  rw [← isSetting_iff (r := []), List.append_nil]

theorem settingOf_entry (h : 61 ∉ name) (value : Chars) : settingOf (name ++ 61 :: value) = some ⟨name, value⟩ := by
  have hall : ∀ c ∈ name, decide (c ≠ 61) = true := fun c hc => by
    rw [decide_eq_true_iff]
    rintro rfl
    exact h hc
  rw [settingOf, if_pos (by simp), nameOf, valueOf, List.takeWhile_append_of_pos hall,
    List.dropWhile_append_of_pos hall]
  simp

/-- An entry is split at its first `=`. -/
theorem settingOf_cases (e : Chars) : 61 ∉ e ∧ settingOf e = none ∨
    ∃ name value, 61 ∉ name ∧ e = name ++ 61 :: value ∧ settingOf e = some ⟨name, value⟩ := by
  by_cases hmem : 61 ∈ e
  · obtain ⟨name, value, he, hname⟩ := List.eq_append_cons_of_mem hmem
    exact .inr ⟨name, value, hname, he, he ▸ settingOf_entry hname value⟩
  · exact .inl ⟨hmem, if_neg hmem⟩

/-- The entries of a name. -/
theorem setting_iff (h : 61 ∉ name) :
    (∃ v, e = name ++ 61 :: v) ↔ ∃ v, settingOf e = some ⟨name, v⟩ := by
  constructor
  · rintro ⟨v, rfl⟩
    exact ⟨v, settingOf_entry h v⟩
  · rintro ⟨v, he⟩
    rcases settingOf_cases e with ⟨-, hnone⟩ | ⟨name', value, -, rfl, hsome⟩
    · rw [hnone] at he
      cases he
    · rw [hsome] at he
      cases he
      exact ⟨v, rfl⟩

/-- The name is not among these entries. -/
theorem notMem_keys (h : 61 ∉ name) (hno : ∀ e ∈ env, ¬∃ v, e = name ++ 61 :: v) :
    name ∉ (settings env).keys := by
  intro hmem
  obtain ⟨v, hv⟩ := List.exists_of_mem_keys hmem
  obtain ⟨e, he, hset⟩ := List.mem_filterMap.mp hv
  exact hno e he ((setting_iff h).mpr ⟨v, hset⟩)

theorem settings_append : settings (l₁ ++ l₂) = settings l₁ ++ settings l₂ := List.filterMap_append

theorem settings_cons (h : settingOf e = some ⟨name, value⟩) :
    settings (e :: env) = ⟨name, value⟩ :: settings env := by
  rw [settings, List.filterMap_cons, h]
  rfl

/-- **`getenv`** gives the value of a name. -/
theorem getenv_eq (h : 61 ∉ name) : getenv (some env) name = some (values (some env) name) := by
  refine congrArg some ?_
  show (env.find? _).map _ = (settings env).dlookup name
  induction env with
  | nil => rfl
  | cons e env ih =>
      rw [List.find?_cons]
      by_cases hset : isSetting name name.length e = true
      · obtain ⟨v, rfl⟩ := isSetting_name.mp hset
        rw [hset, settings_cons (settingOf_entry h v), List.dlookup_cons_eq]
        simp
      · have hno := mt isSetting_name.mpr hset
        rw [Bool.not_eq_true] at hset
        rw [hset]
        refine ih.trans ?_
        rcases settingOf_cases e with ⟨-, hnone⟩ | ⟨name', value, -, rfl, hsome⟩
        · rw [settings, settings, List.filterMap_cons, hnone]
        · rw [settings_cons hsome, List.dlookup_cons_ne]
          rintro rfl
          exact hno ⟨value, rfl⟩

/-! ### The calls -/

theorem dlookup_middle {s₁ s₂ : List (Sigma fun _ : Chars => Chars)} (hno : name ∉ s₁.keys) (m : Chars) :
    (s₁ ++ ⟨name, value⟩ :: s₂).dlookup m = if m = name then some value else (s₁ ++ s₂).dlookup m := by
  induction s₁ with
  | nil =>
      split
      · rename_i hm
        rw [hm, List.nil_append, List.dlookup_cons_eq]
      · rename_i hm
        rw [List.nil_append, List.dlookup_cons_ne _ _ hm, List.nil_append]
  | cons s s₁ ih =>
      rw [List.keys_cons, List.mem_cons, not_or] at hno
      rw [List.cons_append, List.cons_append]
      by_cases hm : m = s.1
      · obtain ⟨a, b⟩ := s
        obtain rfl : m = a := hm
        rw [List.dlookup_cons_eq, List.dlookup_cons_eq, if_neg (Ne.symm hno.1)]
      · rw [List.dlookup_cons_ne _ _ hm, List.dlookup_cons_ne _ _ hm]
        exact ih hno.2

/-- The first entry of a name, and what is around it. -/
theorem first_setting (h : 61 ∉ name) {i : Nat}
    (hi : env.findIdx? (isSetting (name ++ r) name.length) = some i) :
    ∃ l₁ v l₂, env = l₁ ++ (name ++ 61 :: v) :: l₂ ∧ l₁.length = i ∧ name ∉ (settings l₁).keys := by
  obtain ⟨hlt, hset, hbefore⟩ := List.findIdx?_eq_some_iff_getElem.mp hi
  obtain ⟨v, hv⟩ := isSetting_iff.mp hset
  refine ⟨env.take i, v, env.drop (i + 1), ?_, List.length_take_of_le (Nat.le_of_lt hlt), notMem_keys h fun e he => ?_⟩
  · rw [← hv, List.getElem_cons_drop, List.take_append_drop]
  · obtain ⟨j, hj, rfl⟩ := List.mem_take_iff_getElem.mp he
    have hno := hbefore j (by omega)
    rwa [Bool.not_eq_true, ← Bool.not_eq_true, isSetting_iff] at hno

/-- An entry is the value of its name, and the others are found as without it. -/
theorem values_middle (h : 61 ∉ name) (henv : environ.getD [] = l₁ ++ (name ++ 61 :: value) :: l₂)
    (hno : name ∉ (settings l₁).keys) (m : Chars) :
    values environ m = if m = name then some value else (settings l₁ ++ settings l₂).dlookup m := by
  rw [values, henv, settings_append, settings_cons (settingOf_entry h value), dlookup_middle hno]

/-- Only an environment that is there has entries. -/
theorem isSome_of_entry (henv : environ.getD [] = l₁ ++ e :: l₂) : environ.isSome = true := by
  cases environ with
  | none => exact absurd henv.symm (List.append_ne_nil_of_right_ne_nil _ (List.cons_ne_nil _ _))
  | some env => rfl

/-- The name has no entry. -/
theorem no_setting (h : 61 ∉ name) (hi : env.findIdx? (isSetting (name ++ r) name.length) = none) :
    name ∉ (settings env).keys := by
  refine notMem_keys h fun e he => ?_
  have hno := List.findIdx?_eq_none_iff.mp hi e he
  rwa [← Bool.not_eq_true, isSetting_iff] at hno

theorem uniqueNames_middle {entry entry' : Chars} {value' : Chars}
    (hset : settingOf entry = some ⟨name, value⟩) (hset' : settingOf entry' = some ⟨name, value'⟩)
    (hu : UniqueNames (some (l₁ ++ entry :: l₂))) : UniqueNames (some (l₁ ++ entry' :: l₂)) := by
  have hu : (settings (l₁ ++ entry :: l₂)).NodupKeys := hu
  show (settings (l₁ ++ entry' :: l₂)).NodupKeys
  rw [settings_append, settings_cons hset, List.nodupKeys_middle, List.nodupKeys_cons] at hu
  rw [settings_append, settings_cons hset', List.nodupKeys_middle, List.nodupKeys_cons]
  exact hu

/-- What a call that is accepted does. -/
structure Did (environ environ' : Environ) (after : Chars → Option Chars) (set : Bool) : Prop where
  unique : UniqueNames environ'
  values : values environ' = after
  isSome : environ'.isSome = (environ.isSome || set)

/-- An entry is set in place of the one with its name. -/
theorem replaced (h : 61 ∉ name) (hu : UniqueNames environ) {i : Nat}
    (hi : (environ.getD []).findIdx? (isSetting (name ++ r) name.length) = some i) :
    Did environ (some ((environ.getD []).set i (name ++ 61 :: value)))
      (Function.update (values environ) name (some value)) true := by
  obtain ⟨l₁, v, l₂, henv, rfl, hno⟩ := first_setting h hi
  have hold := settingOf_entry h v
  have hnew := settingOf_entry h value
  have hset : (environ.getD []).set l₁.length (name ++ 61 :: value) = l₁ ++ (name ++ 61 :: value) :: l₂ := by
    rw [henv, List.set_append_right _ _ (Nat.le_refl _), Nat.sub_self, List.set_cons_zero]
  rw [hset]
  refine ⟨uniqueNames_middle hold hnew (by rw [UniqueNames, henv] at hu; exact hu), ?_, by simp⟩
  funext m
  rw [values_middle h (Option.getD_some ..) hno, Function.update_apply, values_middle h henv hno]
  split <;> rfl

/-- An entry is added. -/
theorem added (h : 61 ∉ name) (hu : UniqueNames environ)
    (hi : (environ.getD []).findIdx? (isSetting (name ++ r) name.length) = none) :
    Did environ (some (environ.getD [] ++ [name ++ 61 :: value]))
      (Function.update (values environ) name (some value)) true := by
  have hno := no_setting h hi
  have hnew := settingOf_entry h value
  have hsettings : settings (environ.getD [] ++ [name ++ 61 :: value]) =
      settings (environ.getD []) ++ ⟨name, value⟩ :: [] := by
    rw [settings_append, settings_cons hnew]
    rfl
  refine ⟨?_, ?_, by simp⟩
  · show (settings (environ.getD [] ++ [name ++ 61 :: value])).NodupKeys
    rw [hsettings, List.nodupKeys_middle, List.append_nil, List.nodupKeys_cons]
    exact ⟨hno, hu⟩
  · funext m
    rw [values, Option.getD_some, hsettings, dlookup_middle hno, List.append_nil, Function.update_apply]
    rfl

/-- The last entry is put in place of one, and taken from the end. -/
theorem removed_perm (l₁ l₂ : List Chars) (e : Chars) :
    List.Perm (((l₁ ++ e :: l₂).set l₁.length ((l₁ ++ e :: l₂).getD ((l₁ ++ e :: l₂).length - 1) [])).take
      ((l₁ ++ e :: l₂).length - 1)) (l₁ ++ l₂) := by
  rw [List.set_append_right _ _ (Nat.le_refl _), Nat.sub_self, List.set_cons_zero, List.length_append,
    List.length_cons, Nat.add_succ_sub_one]
  rcases List.eq_nil_or_concat l₂ with rfl | ⟨l₃, x, rfl⟩
  · simp
  · rw [List.concat_eq_append]
    have hlast : (l₁ ++ e :: (l₃ ++ [x])).getD (l₁.length + (l₃ ++ [x]).length) [] = x := by
      rw [List.getD_append_right _ _ _ _ (Nat.le_add_right ..), Nat.add_sub_cancel_left, List.length_append,
        List.length_singleton, List.getD_cons_succ, List.getD_append_right _ _ _ _ (Nat.le_refl _),
        Nat.sub_self]
      rfl
    rw [hlast, List.take_length_add_append, List.length_append, List.length_singleton,
      List.take_succ_cons, List.take_left]
    exact List.Perm.append_left l₁ (List.perm_append_singleton x l₃).symm

/-- An entry is removed. -/
theorem removed (h : 61 ∉ name) (hu : UniqueNames environ) {i : Nat}
    (hi : (environ.getD []).findIdx? (isSetting (name ++ r) name.length) = some i) :
    Did environ (some (((environ.getD []).set i
        ((environ.getD []).getD ((environ.getD []).length - 1) [])).take ((environ.getD []).length - 1)))
      (Function.update (values environ) name none) false := by
  obtain ⟨l₁, v, l₂, henv, rfl, hno⟩ := first_setting h hi
  have hold := settingOf_entry h v
  have hperm := removed_perm l₁ l₂ (name ++ 61 :: v)
  have hsome := isSome_of_entry henv
  have hright := values_middle h henv hno
  rw [UniqueNames, henv, settings_append, settings_cons hold, List.nodupKeys_middle,
    List.nodupKeys_cons] at hu
  rw [henv]
  have hsettings := List.Perm.filterMap settingOf hperm
  change (settings _).Perm (settings (l₁ ++ l₂)) at hsettings
  rw [settings_append] at hsettings
  have hunique := (List.perm_nodupKeys hsettings).mpr hu.2
  refine ⟨hunique, ?_, by simp [hsome]⟩
  funext m
  rw [values, Option.getD_some, List.perm_dlookup m hunique hsettings, Function.update_apply, hright]
  split
  · rename_i hm
    rw [hm]
    exact List.dlookup_eq_none.mpr hu.1
  · rfl

/-- Nothing is to be removed. -/
theorem unchanged (h : 61 ∉ name) (hu : UniqueNames environ)
    (hi : (environ.getD []).findIdx? (isSetting (name ++ r) name.length) = none) :
    Did environ environ (Function.update (values environ) name none) false := by
  refine ⟨hu, ?_, by simp⟩
  funext m
  rw [Function.update_apply]
  split
  · rename_i hm
    rw [hm]
    exact List.dlookup_eq_none.mpr (no_setting h hi)
  · rfl

theorem no_equal_sign (h : 61 ∉ name) : name.findIdx? (fun c => decide (c = 61)) = none := by
  rw [List.findIdx?_eq_none_iff]
  intro c hc
  exact decide_eq_false fun heq => h (heq ▸ hc)

/-- `putenv` of a string without `=`. -/
theorem putenv_unset (h : 61 ∉ name) (grown : Bool) (hu : UniqueNames environ) :
    ∃ environ', putenv environ name grown = .ok environ' ∧
      Did environ environ' (Function.update (values environ) name none) false := by
  have hequal : name.findIdx? (fun c => decide (c = 61)) = none := no_equal_sign h
  have hname : isSetting name name.length = isSetting (name ++ []) name.length := by rw [List.append_nil]
  unfold putenv
  rw [hequal]
  dsimp only [Option.getD_none, Option.isNone_none]
  rw [hname]
  split
  · rename_i i hi
    exact ⟨_, rfl, removed h hu hi⟩
  · rename_i hi
    exact ⟨_, rfl, unchanged h hu hi⟩

/-- `putenv` of a string with `=`. -/
theorem putenv_set (h : 61 ∉ name) {grown : Bool} (hu : UniqueNames environ)
    (hrun : putenv environ (name ++ 61 :: value) grown = .ok environ') :
    Did environ environ' (Function.update (values environ) name (some value)) true := by
  have hbefore : name.findIdx? (fun c => decide (c = 61)) = none := no_equal_sign h
  have hequal : (name ++ 61 :: value).findIdx? (fun c => decide (c = 61)) = some name.length := by
    rw [List.findIdx?_append, hbefore, List.findIdx?_cons]
    simp
  unfold putenv at hrun
  rw [hequal] at hrun
  dsimp only [Option.getD_some, Option.isNone_some] at hrun
  split at hrun
  · rename_i i hi
    cases hrun
    exact replaced h hu hi
  · rename_i hi
    cases grown with
    | false => cases hrun
    | true =>
        cases hrun
        exact added h hu hi

theorem setenv_spec {overwrite grown allocated : Bool} (hu : UniqueNames environ)
    (hrun : setenv environ (some name) (some value) overwrite grown allocated = .ok environ') :
    Did environ environ' (if ¬overwrite ∧ (values environ name).isSome then values environ
      else Function.update (values environ) name (some value)) true := by
  unfold setenv at hrun
  dsimp only at hrun
  split at hrun
  · cases hrun
  · rename_i hvalid
    have h : 61 ∉ name := fun hmem => hvalid (.inr (.inl hmem))
    have hname : isSetting name name.length = isSetting (name ++ []) name.length := by rw [List.append_nil]
    rw [hname] at hrun
    split at hrun
    · rename_i i hi
      obtain ⟨l₁, v, l₂, henv, -, hno⟩ := first_setting h hi
      have hsome : values environ name = some v := (values_middle h henv hno name).trans (if_pos rfl)
      have hold := isSome_of_entry henv
      rw [hsome]
      cases overwrite with
      | false =>
          cases hrun
          exact ⟨hu, rfl, by simp [hold]⟩
      | true =>
          cases allocated with
          | false => cases hrun
          | true =>
              cases hrun
              exact replaced h hu hi
    · rename_i hi
      have hnone : values environ name = none := List.dlookup_eq_none.mpr (no_setting h hi)
      rw [hnone, if_neg (by simp)]
      cases grown with
      | false => cases hrun
      | true =>
          cases allocated with
          | false => cases hrun
          | true =>
              cases hrun
              exact added h hu hi

theorem unsetenv_spec (hu : UniqueNames environ) (hrun : unsetenv environ (some name) = .ok environ') :
    Did environ environ' (Function.update (values environ) name none) false := by
  unfold unsetenv at hrun
  dsimp only at hrun
  split at hrun
  · cases hrun
  · rename_i hvalid
    obtain ⟨env, henv, hdid⟩ := putenv_unset (fun hmem => hvalid (.inr hmem)) false hu
    rw [henv] at hrun
    cases hrun
    exact hdid

/-- **One call** does to the map what it is for. -/
theorem EnvCall.run_spec {call : EnvCall} (hu : UniqueNames environ)
    (hrun : call.run environ = .ok environ') :
    Did environ environ' (call.effect (values environ)) call.sets := by
  cases call with
  | setenv name value overwrite grown allocated =>
      cases name with
      | none => cases hrun
      | some name =>
          cases value with
          | none => cases hrun
          | some value => exact setenv_spec hu hrun
  | putenv string grown =>
      change Stdlib.putenv environ string grown = _ at hrun
      rw [effect, sets]
      rcases settingOf_cases string with ⟨hno, -⟩ | ⟨name, value, h, rfl, hset⟩
      · obtain ⟨env, henv, hdid⟩ := putenv_unset hno grown hu
        rw [henv] at hrun
        cases hrun
        rw [if_neg hno, decide_eq_false hno]
        exact hdid
      · have hmem : 61 ∈ name ++ 61 :: value := by simp
        rw [settingOf, if_pos hmem] at hset
        simp only [Option.some.injEq, Sigma.mk.injEq, heq_eq_eq] at hset
        rw [if_pos hmem, hset.1, hset.2, decide_eq_true hmem]
        exact putenv_set h hu hrun
  | unsetenv name =>
      cases name with
      | none => cases hrun
      | some name => exact unsetenv_spec hu hrun

/-- **Accepted calls** in a row. -/
theorem calls_spec {calls : List EnvCall} (hu : UniqueNames environ)
    (hrun : calls.foldlM EnvCall.run environ = .ok environ') :
    Did environ environ' (calls.foldl EnvCall.effect (values environ)) (calls.any EnvCall.sets) := by
  induction calls generalizing environ with
  | nil =>
      cases hrun
      exact ⟨hu, rfl, by simp⟩
  | cons call calls ih =>
      rw [List.foldlM_cons] at hrun
      cases hcall : call.run environ with
      | error e =>
          rw [hcall] at hrun
          cases hrun
      | ok env =>
          rw [hcall] at hrun
          have hfirst := EnvCall.run_spec hu hcall
          have hrest := ih hfirst.unique hrun
          refine ⟨hrest.unique, ?_, ?_⟩
          · rw [hrest.values, hfirst.values]
            rfl
          · rw [hrest.isSome, hfirst.isSome, List.any_cons, Bool.or_assoc]

/-- **The environment is a map** exactly if there is one: `getenv` does not look whether `environ` is
NULL. -/
theorem environment_map_iff {calls : List EnvCall} (hu : UniqueNames environ)
    (hrun : calls.foldlM EnvCall.run environ = .ok environ') :
    EnvironmentMap environ calls environ' ↔ environ ≠ none ∨ ∃ call ∈ calls, call.sets := by
  obtain ⟨hunique, hvalues, hsome⟩ := calls_spec hu hrun
  have hcond : (environ ≠ none ∨ ∃ call ∈ calls, call.sets) ↔ environ'.isSome := by
    rw [hsome, Bool.or_eq_true, List.any_eq_true, Option.isSome_iff_ne_none]
  rw [hcond]
  refine ⟨fun h => ?_, fun h => ⟨hunique, fun name hname => ?_⟩⟩
  · cases environ' with
    | none => cases h.2 [] List.not_mem_nil
    | some env => rfl
  · obtain ⟨env, rfl⟩ := Option.isSome_iff_exists.mp h
    rw [getenv_eq hname, hvalues]

/-- `A=1` and `AB=2`, and then `A` is gone. -/
theorem environment_map_prefix : EnvironmentMap (some [])
    [.setenv (some [65]) (some [49]) true true true, .putenv [65, 66, 61, 50] true, .unsetenv (some [65])]
    (some [[65, 66, 61, 50]]) :=
  (environment_map_iff (show UniqueNames (some []) from List.nodupKeys_nil) rfl).mpr
    (.inl (Option.some_ne_none _))

/-- After `clearenv`, `getenv` reads through NULL. -/
theorem getenv_null : UniqueNames (clearenv (some [])) ∧
    [EnvCall.unsetenv (some [65])].foldlM EnvCall.run (clearenv (some [])) = .ok none ∧
    ¬EnvironmentMap (clearenv (some [])) [.unsetenv (some [65])] none := by
  refine ⟨List.nodupKeys_nil, rfl, fun h => ?_⟩
  cases h.2 [65] (by decide)

end Muxomucota.Stdlib
