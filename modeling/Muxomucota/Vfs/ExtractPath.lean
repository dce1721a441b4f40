import Muxomucota.Vfs.CanonicalPath
import Mathlib.Algebra.Order.Ring.Nat

/-!
# Vfs — `extract_path`, and the buffers of `create_pipe`

The rest of the path handling in `vfs/create_pipe.c`.  The two arrays that `create_pipe` makes are memories
of their own, and a store outside one gives `none`.
-/

namespace Muxomucota.Vfs

open Console

def colon : Byte := 0x3a
def openBracket : Byte := 0x28
def closeBracket : Byte := 0x29

/-! ### The code -/

/-- The flags of `vfs.h` for `create_pipe`; `O_RDWR` is two of them and `O_BLOCKING` is none. -/
inductive OpenFlag where
  | rdonly | wronly | creat | justStat | trunc | append | nofollow | nonblock | creatMountPoint
  deriving DecidableEq, Repr

def OpenFlag.value : OpenFlag → Nat
  | .rdonly => 2 ^ 0
  | .wronly => 2 ^ 1
  | .creat => 2 ^ 2
  | .justStat => 2 ^ 3
  | .trunc => 2 ^ 4
  | .append => 2 ^ 5
  | .nofollow => 2 ^ 6
  | .nonblock | .creatMountPoint => 2 ^ 16

/-- Flags that are or'ed. -/
def flagsValue (flags : List OpenFlag) : Nat := (flags.map OpenFlag.value).foldr (· ||| ·) 0

/-- An `int` in memory. -/
def intBytes (v : Nat) : List Byte := (List.range 4).map fun i => BitVec.ofNat 8 (v / 2 ^ (8 * i))

/-- `strcpy(mem + d, s)`. -/
def strcpy (mem : List Byte) (d : Nat) (s : List Byte) : Option (List Byte) :=
  if d + (s.length + 1) ≤ mem.length then
    some (mem.take d ++ (s ++ 0 :: mem.drop (d + (s.length + 1))))
  else none

/-- The loop over the service name, up to `stop`: the rest of the path, and the buffer with the name and
where it ends in it. -/
def copyName (stop : Byte) : List Byte → List Byte → (p : Nat) → Option (List Byte × List Byte × Nat)
  | [], service, p => some ([], service, p)
  | c :: cs, service, p =>
      if c = stop then some (c :: cs, service, p)
      else do
        let service ← store service p c
        copyName stop cs service (p + 1)

/-- `strcpy(relpath, fullpath)` and `__simplify_path(relpath)`, with `relpath` behind the flags. -/
def putRelpath (n : Nat) (fullpath service relpath : List Byte) :
    Option (Bool × List Byte × List Byte) := do
  let relpath ← strcpy relpath 4 fullpath
  let relpath ← simplifyPath n relpath 4
  some (true, service, relpath)

/-- What may follow a name. -/
def pathFollows : List Byte → Bool
  | [] => true
  | c :: _ => c = slash

/-- What is behind a slash. -/
def skipSlash : List Byte → Option (List Byte)
  | [] => none
  | c :: cs => if c = slash then some cs else none

/-- What is behind the `)` or the `:/`, if the path is as it is to be there. -/
def behindName (brackets : Bool) (rest : List Byte) : Option (List Byte) :=
  (if brackets then some rest else skipSlash rest).filter pathFollows

/-- `extract_path` behind the service name; the first byte is its `)` or `:`. -/
def extractBehind (n : Nat) (brackets : Bool) (service relpath : List Byte) :
    List Byte → Option (Bool × List Byte × List Byte)
  | [] => some (false, service, relpath)
  | _ :: rest =>
      (behindName brackets rest).elim (some (false, service, relpath)) fun fullpath =>
        putRelpath n fullpath service relpath

/-- `extract_path` from the service name on. -/
def extractNamed (n : Nat) (brackets : Bool) (fullpath service relpath : List Byte) :
    Option (Bool × List Byte × List Byte) := do
  let (rest, service, p) ← copyName (if brackets then closeBracket else colon) fullpath service 0
  let service ← store service p 0
  extractBehind n brackets service relpath rest

/-- Whether the first colon is right before the first slash. -/
def schemed (fullpath : List Byte) : Bool :=
  (fullpath.findIdx? (· = colon)).any fun i => fullpath.findIdx? (· = slash) = some (i + 1)

/-- The name that an absolute path stands for. -/
def rootName : List Byte := [0x72, 0x6f, 0x6f, 0x74]

/-- `extract_path`. -/
def extractPath (cwd : Option (List Byte)) : (n : Nat) → (fullpath service relpath : List Byte) →
    Option (Bool × List Byte × List Byte)
  | 0, _, _, _ => none
  | _ + 1, [], service, relpath => some (false, service, relpath)
  | n + 1, c :: cs, service, relpath =>
      if c = slash then do
        let service ← strcpy service 0 rootName
        putRelpath n (c :: cs) service relpath
      else if c = openBracket then extractNamed n true cs service relpath
      else if schemed (c :: cs) then extractNamed n false (c :: cs) service relpath
      else
        cwd.elim (some (false, service, relpath)) fun path =>
          extractPath cwd n (path ++ slash :: c :: cs) service relpath

/-- `len` of `create_pipe`. -/
def procnameLen (path : List Byte) : Nat := max path.length 4

/-- `relpath_maxlen`. -/
def relpathMaxlen (cwd : Option (List Byte)) (path : List Byte) : Nat :=
  (cwd.elim 0 fun cwd => cwd.length + 1) + procnameLen path + 1 + 4

/-- The start of `create_pipe`, with what its two arrays hold first. -/
def resolvePath (n : Nat) (cwd : Option (List Byte)) (path : List Byte) (flags : List OpenFlag)
    (procname relpath : List Byte) : Option (Bool × List Byte × List Byte) :=
  extractPath cwd n path procname (intBytes (flagsValue flags) ++ relpath.drop 4)

/-! ### The purpose -/

/-- A path that has a service name in it: `/…`, `(name)…` or `name:/…`. -/
def NamesService : List Byte → Prop
  | [] => False
  | c :: cs => c = slash ∨ c = openBracket ∨ schemed (c :: cs)

/-- What is to come of a path: with enough rounds the function returns, and it has stored nothing outside
the two arrays. -/
def StaysInBuffers (cwd : Option (List Byte)) (path : List Byte) (flags : List OpenFlag) : Prop :=
  ∀ procname relpath, procname.length = procnameLen path + 1 → relpath.length = relpathMaxlen cwd path →
    ∃ N, ∀ n ≥ N, (resolvePath n cwd path flags procname relpath).isSome

/-- The service name of a path that has one. -/
def serviceName : List Byte → List Byte
  | [] => []
  | c :: cs =>
      if c = slash then rootName
      else if c = openBracket then cs.takeWhile (· ≠ closeBracket)
      else (c :: cs).takeWhile (· ≠ colon)

/-- A relative path, and a service name in the working directory that is longer than the array made from
the path. -/
def NameTooLong (cwd : Option (List Byte)) (path : List Byte) : Prop :=
  path ≠ [] ∧ ¬NamesService path ∧
    ∃ cwd', cwd = some cwd' ∧ procnameLen path < (serviceName (cwd' ++ slash :: path)).length

/-! ### The flags in front of the path -/

theorem flagsValue_lt (flags : List OpenFlag) : flagsValue flags < 2 ^ 24 := by
  induction flags with
  | nil => exact Nat.two_pow_pos 24
  | cons f flags ih =>
      have hf : f.value < 2 ^ 24 := by cases f <;> decide
      exact Nat.or_lt_two_pow hf ih

/-- The byte in front of `relpath` is not a slash. -/
theorem flags_last (flags : List OpenFlag) : (intBytes (flagsValue flags)).getLast? ≠ some slash := by
  have hlast : (intBytes (flagsValue flags)).getLast? =
      some (BitVec.ofNat 8 (flagsValue flags / 2 ^ 24)) := rfl
  rw [hlast, Nat.div_eq_of_lt (flagsValue_lt flags)]
  decide

/-! ### Copies -/

section Copies

variable {stop : Byte}

theorem store_some {mem : List Byte} {p : Nat} (c : Byte) (h : p < mem.length) :
    store mem p c = some (mem.set p c) := by
  rw [store, if_pos h]

/-- A name that fits, but maybe for its end. -/
theorem copyName_some : ∀ {full service : List Byte} {p : Nat},
    p + (full.takeWhile (· ≠ stop)).length ≤ service.length →
    ∃ service', copyName stop full service p =
        some (full.dropWhile (· ≠ stop), service', p + (full.takeWhile (· ≠ stop)).length) ∧
      service'.length = service.length := by
  intro full
  induction full with
  | nil => exact fun _ => ⟨_, rfl, rfl⟩
  | cons c cs ih =>
      intro service p h
      by_cases hc : c = stop
      · rw [List.takeWhile_cons_of_neg (by simpa using hc), List.dropWhile_cons_of_neg (by simpa using hc),
          copyName, if_pos hc]
        exact ⟨service, rfl, rfl⟩
      · rw [List.takeWhile_cons_of_pos (by simpa using hc), List.length_cons] at h ⊢
        rw [List.dropWhile_cons_of_pos (by simpa using hc), copyName, if_neg hc,
          store_some c (by omega), Option.bind_eq_bind, Option.bind_some]
        obtain ⟨service', hrun, hlen⟩ := @ih (service.set p c) (p + 1) (by rw [List.length_set]; omega)
        refine ⟨service', ?_, hlen.trans List.length_set⟩
        rw [hrun]
        congr 3
        omega

/-- A name that does not fit. -/
theorem copyName_none : ∀ {full service : List Byte} {p : Nat}, p ≤ service.length →
    service.length < p + (full.takeWhile (· ≠ stop)).length → copyName stop full service p = none := by
  intro full
  induction full with
  | nil =>
      intro service p hp h
      exact absurd h (Nat.not_lt.mpr hp)
  | cons c cs ih =>
      intro service p hp h
      by_cases hc : c = stop
      · rw [List.takeWhile_cons_of_neg (by simpa using hc)] at h
        exact absurd h (Nat.not_lt.mpr hp)
      · rw [List.takeWhile_cons_of_pos (by simpa using hc), List.length_cons] at h
        rw [copyName, if_neg hc, store]
        split_ifs with hroom
        · rw [Option.bind_eq_bind, Option.bind_some]
          exact ih (by rw [List.length_set]; omega) (by rw [List.length_set]; omega)
        · rfl

theorem behindName_some {brackets : Bool} {rest f : List Byte} (h : behindName brackets rest = some f) :
    f <:+ rest ∧ (f = [] ∨ f.head? = some slash) := by
  have hfollows : pathFollows f = true → f = [] ∨ f.head? = some slash := by
    intro hf
    cases f with
    | nil => exact Or.inl rfl
    | cons c cs => exact Or.inr (congrArg some (of_decide_eq_true hf))
  rw [behindName, Option.filter_eq_some_iff] at h
  refine ⟨?_, hfollows h.2⟩
  cases brackets with
  | true => exact Option.some.inj h.1 ▸ List.suffix_refl _
  | false =>
      cases rest with
      | nil => cases h.1
      | cons c cs =>
          have hskip : skipSlash (c :: cs) = some f := h.1
          rw [skipSlash] at hskip
          split_ifs at hskip
          exact Option.some.inj hskip ▸ List.suffix_cons c cs

end Copies

section Buffers

variable {n : Nat} {flags : List OpenFlag} {fullpath service B : List Byte}

theorem followAll_keep (s : List Byte) (stack : List (List Byte)) :
    ∃ stack', followAll true stack s = some stack' := by
  rw [followAll]
  induction names s generalizing stack with
  | nil => exact ⟨stack, rfl⟩
  | cons c cs ih =>
      obtain ⟨next, hnext⟩ : ∃ next, follow true stack c = some next := by
        rw [follow, if_pos rfl]
        split_ifs <;> exact ⟨_, rfl⟩
      rw [List.foldlM_cons, hnext]
      exact ih next

/-- A path that fits in behind the flags. -/
theorem putRelpath_some (hs : fullpath = [] ∨ fullpath.head? = some slash) (h0 : 0 ∉ fullpath)
    (hroom : fullpath.length + 1 ≤ B.length) (hn : fullpath.length < n) :
    (putRelpath n fullpath service (intBytes (flagsValue flags) ++ B)).isSome := by
  have hcopy : strcpy (intBytes (flagsValue flags) ++ B) 4 fullpath =
      some (intBytes (flagsValue flags) ++ (fullpath ++ 0 :: B.drop (fullpath.length + 1))) := by
    have hlen : (intBytes (flagsValue flags)).length = 4 := rfl
    rw [strcpy, if_pos (by rw [List.length_append]; omega), ← hlen, List.take_left, ← List.drop_drop,
      List.drop_left]
  obtain ⟨stack, hstack⟩ := followAll_keep fullpath []
  have hleaves := @simplifyPath_leaves (intBytes (flagsValue flags)) (flags_last flags) fullpath
    (B.drop (fullpath.length + 1)) hs h0 n hn
  have hkeep : followAll (intBytes (flagsValue flags) ≠ []) [] fullpath = some stack := hstack
  rw [hkeep] at hleaves
  rcases hleaves with ⟨_, junk, -, hrun⟩ | ⟨hnone, -⟩
  · have hrun' : simplifyPath n (intBytes (flagsValue flags) ++
      (fullpath ++ 0 :: B.drop (fullpath.length + 1))) 4 = _ := hrun
    rw [putRelpath, hcopy, Option.bind_eq_bind, Option.bind_some, hrun']
    rfl
  · cases hnone

/-- With room for the rest of the path, it is the name that has to fit. -/
theorem extractNamed_some {brackets : Bool} (h0 : 0 ∉ fullpath) (hroom : fullpath.length + 1 ≤ B.length)
    (hn : fullpath.length < n) :
    (extractNamed n brackets fullpath service (intBytes (flagsValue flags) ++ B)).isSome ↔
      (fullpath.takeWhile (· ≠ if brackets then closeBracket else colon)).length < service.length := by
  generalize hstop : (if brackets then closeBracket else colon) = stop
  rw [extractNamed, hstop]
  rcases Nat.lt_or_ge service.length (fullpath.takeWhile (· ≠ stop)).length with hlong | hfits
  · rw [copyName_none (Nat.zero_le _) (by rwa [Nat.zero_add])]
    exact iff_of_false (by simp) (by omega)
  · obtain ⟨service', hcopy, hlen⟩ := @copyName_some stop fullpath service 0 (by rwa [Nat.zero_add])
    rw [hcopy, Option.bind_eq_bind, Option.bind_some, Nat.zero_add]
    dsimp only
    rw [store, hlen]
    split_ifs with hend
    · refine iff_of_true ?_ hend
      rw [Option.bind_eq_bind, Option.bind_some]
      have hsub : fullpath.dropWhile (· ≠ stop) <:+ fullpath := List.dropWhile_suffix _
      rcases hrest : fullpath.dropWhile (· ≠ stop) with _ | ⟨c, rest⟩
      · rfl
      rw [hrest] at hsub
      rw [extractBehind]
      rcases hbehind : behindName brackets rest with _ | f
      · rfl
      · obtain ⟨hf, hshape⟩ := behindName_some hbehind
        have hall : f <:+ fullpath := (hf.trans (List.suffix_cons c rest)).trans hsub
        have hle := hall.length_le
        exact putRelpath_some hshape (fun h => h0 (hall.subset h)) (by omega) (by omega)
    · exact iff_of_false (by simp) hend

end Buffers

/-! ### Service names -/

theorem schemed_append {full : List Byte} (t : List Byte) (h : schemed full) : schemed (full ++ t) := by
  rw [schemed] at h ⊢
  rcases hcolon : full.findIdx? (· = colon) with _ | i
  · rw [hcolon] at h
    cases h
  · rw [hcolon, Option.any_some, decide_eq_true_eq] at h
    have hcolon' : (full ++ t).findIdx? (· = colon) = some i := by
      rw [List.findIdx?_append, hcolon, Option.some_or]
    have hslash' : (full ++ t).findIdx? (· = slash) = some (i + 1) := by
      rw [List.findIdx?_append, h, Option.some_or]
    rw [hcolon', Option.any_some, hslash']
    exact decide_eq_true rfl

theorem namesService_append {full : List Byte} (t : List Byte) (h : NamesService full) :
    NamesService (full ++ t) := by
  cases full with
  | nil => exact h.elim
  | cons c cs => exact h.imp_right (Or.imp_right (schemed_append t))

/-- The name of a path that has one fits, or the function leaves the array. -/
theorem extractPath_named {cwd : Option (List Byte)} {n : Nat} {flags : List OpenFlag}
    {full service B : List Byte} (hnames : NamesService full) (h0 : 0 ∉ full)
    (hroom : full.length + 1 ≤ B.length) (hn : full.length < n) :
    (extractPath cwd (n + 1) full service (intBytes (flagsValue flags) ++ B)).isSome ↔
      (serviceName full).length < service.length := by
  rcases full with _ | ⟨c, cs⟩
  · exact hnames.elim
  rw [List.length_cons] at hroom hn
  by_cases hslash : c = slash
  · rw [extractPath, if_pos hslash, serviceName, if_pos hslash, strcpy, Nat.zero_add]
    split_ifs with hname
    · refine iff_of_true ?_ hname
      exact putRelpath_some (Or.inr (congrArg some hslash)) h0 hroom hn
    · exact iff_of_false (by simp) hname
  by_cases hbracket : c = openBracket
  · rw [extractPath, if_neg hslash, if_pos hbracket, serviceName, if_neg hslash, if_pos hbracket]
    exact extractNamed_some (fun h => h0 (List.mem_cons_of_mem c h)) (by omega) (by omega)
  · have hschemed : schemed (c :: cs) := (hnames.resolve_left hslash).resolve_left hbracket
    rw [extractPath, if_neg hslash, if_neg hbracket, if_pos hschemed, serviceName, if_neg hslash,
      if_neg hbracket]
    exact extractNamed_some h0 hroom hn

/-- A path without a service name goes on with the working directory. -/
theorem extractPath_relative {cwd : Option (List Byte)} {n : Nat} {path service relpath : List Byte}
    (hne : path ≠ []) (hrelative : ¬NamesService path) :
    extractPath cwd (n + 1) path service relpath =
      cwd.elim (some (false, service, relpath)) fun dir =>
        extractPath cwd n (dir ++ slash :: path) service relpath := by
  obtain ⟨c, cs, rfl⟩ := List.exists_cons_of_ne_nil hne
  obtain ⟨hslash, hrest⟩ := not_or.mp hrelative
  obtain ⟨hbracket, hschemed⟩ := not_or.mp hrest
  rw [extractPath, if_neg hslash, if_neg hbracket, if_neg hschemed]

/-- `chdir` resolves its path with no working directory, and so keeps only one that names a service. -/
theorem namesService_of_extract {n : Nat} {path service relpath service' relpath' : List Byte}
    (h : extractPath none n path service relpath = some (true, service', relpath')) :
    NamesService path := by
  by_contra hrelative
  cases n with
  | zero => cases h
  | succ n =>
      by_cases hne : path = []
      · rw [hne] at h
        cases h
      · rw [extractPath_relative hne hrelative] at h
        cases h

theorem serviceName_length {path : List Byte} : (serviceName path).length ≤ procnameLen path := by
  rw [procnameLen]
  cases path with
  | nil => exact Nat.zero_le _
  | cons c cs =>
      rw [serviceName]
      split_ifs
      · exact Nat.le_max_right _ _
      · have h := (List.takeWhile_prefix (l := cs) (· ≠ closeBracket)).length_le
        rw [List.length_cons]
        omega
      · have h := (List.takeWhile_prefix (l := c :: cs) (· ≠ colon)).length_le
        omega

section Resolve

variable {cwd : Option (List Byte)} {path : List Byte} {flags : List OpenFlag}

/-- One call, with rounds for the working directory and the path. -/
theorem resolvePath_some {n : Nat} {procname relpath : List Byte} (hcwd : ∀ c ∈ cwd, NamesService c)
    (h0 : 0 ∉ path) (hcwd0 : ∀ c ∈ cwd, 0 ∉ c) (hprocname : procname.length = procnameLen path + 1)
    (hrelpath : relpath.length = relpathMaxlen cwd path)
    (hn : (cwd.elim 0 List.length) + path.length + 4 ≤ n) :
    (resolvePath n cwd path flags procname relpath).isSome ↔ ¬NameTooLong cwd path := by
  obtain ⟨n, rfl⟩ : ∃ m, n = m + 1 := ⟨n - 1, by omega⟩
  have hlen : path.length ≤ procnameLen path := Nat.le_max_left _ _
  have hB : (relpath.drop 4).length = (cwd.elim 0 fun c => c.length + 1) + procnameLen path + 1 := by
    rw [List.length_drop, hrelpath, relpathMaxlen, Nat.add_sub_cancel]
  rw [resolvePath]
  by_cases hne : path = []
  · rw [hne]
    exact iff_of_true rfl fun h => h.1 rfl
  by_cases hnames : NamesService path
  · refine iff_of_true ?_ fun h => h.2.1 hnames
    refine (extractPath_named hnames h0 (by omega) (by omega)).mpr ?_
    rw [hprocname]
    exact Nat.lt_succ_of_le serviceName_length
  rw [extractPath_relative hne hnames]
  cases cwd with
  | none => exact iff_of_true rfl fun ⟨_, _, _, h, _⟩ => by cases h
  | some dir =>
      rw [Option.elim_some] at hn hB ⊢
      have hfull : (dir ++ slash :: path).length = dir.length + 1 + path.length := by
        rw [List.length_append, List.length_cons]
        omega
      have hfull0 : 0 ∉ dir ++ slash :: path := by
        rw [List.mem_append, List.mem_cons]
        rintro (h | h | h)
        · exact hcwd0 dir rfl h
        · exact absurd h (by decide)
        · exact h0 h
      obtain ⟨n, rfl⟩ : ∃ m, n = m + 1 := ⟨n - 1, by omega⟩
      rw [extractPath_named (namesService_append _ (hcwd dir rfl)) hfull0 (by omega) (by omega), hprocname,
        Nat.lt_succ_iff, ← Nat.not_lt]
      refine not_congr ⟨fun h => ⟨hne, hnames, dir, rfl, h⟩, ?_⟩
      rintro ⟨-, -, dir', hdir, h⟩
      rwa [Option.some.inj hdir]

/-- **The arrays of `create_pipe`** are left exactly by a relative path for which the working directory
supplies a service name that is longer than the path (and than `root`). -/
theorem staysInBuffers_iff (hcwd : ∀ c ∈ cwd, NamesService c) (h0 : 0 ∉ path) (hcwd0 : ∀ c ∈ cwd, 0 ∉ c) :
    StaysInBuffers cwd path flags ↔ ¬NameTooLong cwd path := by
  constructor
  · intro h
    obtain ⟨N, hN⟩ := h (List.replicate (procnameLen path + 1) 0)
      (List.replicate (relpathMaxlen cwd path) 0) List.length_replicate List.length_replicate
    exact (resolvePath_some hcwd h0 hcwd0 List.length_replicate List.length_replicate
      (Nat.le_max_right N _)).mp (hN _ (Nat.le_max_left _ _))
  · intro h procname relpath hprocname hrelpath
    exact ⟨_, fun n hn => (resolvePath_some hcwd h0 hcwd0 hprocname hrelpath hn).mpr h⟩

end Resolve

/-- In `/tmp`, `a` is `(root)/tmp/a`. -/
theorem relative_to_tmp :
    StaysInBuffers (some [slash, 0x74, 0x6d, 0x70]) [0x61] [.rdonly] :=
  (staysInBuffers_iff (by simp [NamesService]) (by decide) (by simp [slash])).mpr (by
    rintro ⟨-, -, dir, hdir, h⟩
    obtain rfl := Option.some.inj hdir
    exact absurd h (by decide))

/-- In `(devfs)`, `a` overruns `procname` by one byte. -/
theorem relative_to_devfs :
    ¬StaysInBuffers (some [openBracket, 0x64, 0x65, 0x76, 0x66, 0x73, closeBracket]) [0x61] [.rdonly] := by
  intro h
  obtain ⟨N, hN⟩ := h (List.replicate 5 0) (List.replicate 17 0) rfl rfl
  refine (resolvePath_some (by simp [NamesService]) (by decide) (by simp [openBracket, closeBracket])
    rfl rfl (Nat.le_max_right N 12)).mp (hN _ (Nat.le_max_left N 12)) ⟨by decide, ?_, _, rfl, by decide⟩
  rintro (h | h | h) <;> exact absurd h (by decide)

end Muxomucota.Vfs
