import Muxomucota.Vfs.SimplifyPath
import Muxomucota.Lib.Runs
import Mathlib.Data.List.MinMax
import Mathlib.Data.List.Nodup
import Mathlib.Logic.Function.Basic

/-!
# Vfs — the root mapper

`progs/common/root-mapper/root-mapper.c`: the list of the mounts and what a path is a link to.  A path is
the list of its components, between slashes; the link is made of the last mount on the longest base whose
components the path begins with.  The link goes into a page that `create_pipe` shares with the service, however
long it is.

`mounts` keeps every mount, the last one at the end; the service reads `entries` alone.
-/

namespace Muxomucota.Vfs
open Console Lib

/-! ### The service -/

/-- `struct entry`. -/
structure Entry where
  base : List Byte
  dest : List Byte
  deriving DecidableEq

structure RootMapper where
  entries : List Entry
  /-- `struct mount_point_in_creation`, by handle: its path. -/
  points : Nat → Option (List Byte)
  handles : Nat
  mounts : List Entry

inductive MapperErrno where
  | enoent
  | einval
  deriving DecidableEq

def oCreatMountPoint : BitVec 32 := 1 <<< 16
def fMountFile : BitVec 32 := 1

namespace RootMapper

def empty : RootMapper := { entries := [], points := fun _ => none, handles := 0, mounts := [] }

def addPoint (s : RootMapper) (path : List Byte) : RootMapper :=
  { s with points := Function.update s.points s.handles (some path), handles := s.handles + 1 }

/-- `service_create_pipe`. -/
def createPipe (s : RootMapper) (path : List Byte) (flags : BitVec 32) :
    Except MapperErrno RootMapper :=
  if flags &&& oCreatMountPoint = 0 then .error .enoent else .ok (s.addPoint path)

end RootMapper

/-- The loop over the entries, which replaces the one with the base or appends one. -/
def setDest (base dest : List Byte) : List Entry → List Entry
  | [] => [⟨base, dest⟩]
  | e :: es => if e.base = base then ⟨base, dest⟩ :: es else e :: setDest base dest es

/-- The condition in the loop of `service_is_symlink`, but for the length. -/
def Entry.covers (relpath : List Byte) (e : Entry) : Bool :=
  e.base.isPrefixOf relpath &&
    (relpath[e.base.length]? = none || relpath[e.base.length]? = some slash)

/-- One round: `best_match_len` is -1 where there is no `best_match`. -/
def matchEntry (relpath : List Byte) (bestMatch : Option Entry) (e : Entry) : Option Entry :=
  let bestMatchLen : Int := match bestMatch with
    | none => -1
    | some e => e.base.length
  if bestMatchLen < e.base.length ∧ e.covers relpath = true then some e else bestMatch

/-- How many bytes `linkpath` has: `shm_create(4096)` in `create_pipe`. -/
def linkpathSize : Nat := 4096

/-- `strcpy(linkpath, s)`; `none` is a store behind the page. -/
def strcpyLinkpath (s : List Byte) : Option (List Byte) := if s.length < linkpathSize then some s else none

/-- `strcat(linkpath, s)`. -/
def strcatLinkpath (linkpath s : List Byte) : Option (List Byte) := strcpyLinkpath (linkpath ++ s)

/-- `service_is_symlink`: `linkpath`, if it answers true. -/
def serviceIsSymlink (entries : List Entry) (relpath : List Byte) : Option (Option (List Byte)) :=
  match entries.foldl (matchEntry relpath) none with
  | none => some none
  | some e => do
      let linkpath ← strcpyLinkpath e.dest
      let linkpath ← strcatLinkpath linkpath (relpath.drop e.base.length)
      some (some linkpath)

namespace RootMapper

/-- `service_stream_send`: how many bytes it takes. -/
def streamSend (s : RootMapper) (id : Nat) (data : List Byte) (flags : BitVec 32) :
    Option (Except MapperErrno (Nat × RootMapper)) :=
  if flags ≠ fMountFile then some (.error .einval)
  else if data.getLast? ≠ some 0 then some (.error .einval)
  else (s.points id).map fun base =>
    let dest := data.takeWhile (· ≠ 0)
    .ok (data.length,
      { s with entries := setDest base dest s.entries, mounts := s.mounts ++ [⟨base, dest⟩] })

/-- The calls. -/
inductive Call where
  | create (path : List Byte) (flags : BitVec 32)
  | duplicate (id : Nat)
  | destroy (id : Nat)
  | send (id : Nat) (data : List Byte) (flags : BitVec 32)

/-- One call; one that fails changes nothing, and a handle that is not there is not used. -/
def step (s : RootMapper) : Call → Option RootMapper
  | .create path flags => some ((s.createPipe path flags).toOption.getD s)
  | .duplicate id => (s.points id).map s.addPoint
  | .destroy id => (s.points id).map fun _ => { s with points := Function.update s.points id none }
  | .send id data flags => (s.streamSend id data flags).map fun r => (r.toOption.map Prod.snd).getD s

end RootMapper

/-! ### What a path is a link to -/

/-- The components of a path. -/
def pathComponents (path : List Byte) : List (List Byte) := path.splitOn slash

/-- The base of the mount is a beginning of the path, component by component. -/
def Entry.IsAbove (e : Entry) (path : List Byte) : Prop :=
  pathComponents e.base <+: pathComponents path

/-- The last mount on its base. -/
def IsCurrent (mounts : List Entry) (e : Entry) : Prop :=
  ∃ before after, mounts = before ++ e :: after ∧ ∀ e' ∈ after, e'.base ≠ e.base

/-- The mount that decides on a path. -/
structure Decides (mounts : List Entry) (path : List Byte) (e : Entry) : Prop where
  current : IsCurrent mounts e
  above : e.IsAbove path
  longest : ∀ e' ∈ mounts, e'.IsAbove path →
    (pathComponents e'.base).length ≤ (pathComponents e.base).length

/-- **Mount resolution** of a path: the service answers, a path is a link if and only if a mounted base is a
beginning of it, component by component, and the link is the last destination of the longest such base, and
the rest of the path. -/
def Resolved (s : RootMapper) (relpath : List Byte) : Prop :=
  ∃ answer, serviceIsSymlink s.entries relpath = some answer ∧
    (answer.isSome = true ↔ ∃ e ∈ s.mounts, e.IsAbove relpath) ∧
    ∀ link, answer = some link →
      ∃ e rest, Decides s.mounts relpath e ∧ relpath = e.base ++ rest ∧ link = e.dest ++ rest

theorem intercalate_append {sep : List Byte} {xs ys : List (List Byte)} (hx : xs ≠ []) (hy : ys ≠ []) :
    sep.intercalate (xs ++ ys) = sep.intercalate xs ++ (sep ++ sep.intercalate ys) := by
  induction xs with
  | nil => exact absurd rfl hx
  | cons x xs ih =>
      by_cases hxs : xs = []
      · subst hxs
        rw [List.singleton_append, List.intercalate_cons_of_ne_nil hy, List.intercalate_singleton,
          List.append_assoc]
      · rw [List.cons_append, List.intercalate_cons_of_ne_nil (by simp [hxs]), ih hxs,
          List.intercalate_cons_of_ne_nil hxs]
        simp only [List.append_assoc]

/-- A base is above a path if the path goes on behind it with a slash or not at all. -/
theorem isAbove_iff (e : Entry) (path : List Byte) :
    e.IsAbove path ↔ ∃ rest, path = e.base ++ rest ∧ (rest = [] ∨ rest.head? = some slash) := by
  have hjoin : ∀ p : List Byte, [slash].intercalate (pathComponents p) = p := fun p =>
    List.intercalate_splitOn slash
  constructor
  · rintro ⟨cs, hcs⟩
    have hpath := hjoin path
    rw [← hcs] at hpath
    by_cases hnil : cs = []
    · rw [hnil, List.append_nil, hjoin] at hpath
      exact ⟨[], by rw [hpath, List.append_nil], .inl rfl⟩
    · have hbase : pathComponents e.base ≠ [] := List.splitOn_ne_nil _ _
      rw [intercalate_append hbase hnil, hjoin] at hpath
      exact ⟨_, hpath.symm, .inr rfl⟩
  · rintro ⟨rest, rfl, rfl | hrest⟩
    · rw [List.append_nil]
      exact List.prefix_rfl
    · cases rest with
      | nil => cases hrest
      | cons c rest =>
          cases hrest
          rw [Entry.IsAbove, pathComponents, pathComponents, List.splitOn_append_cons_self]
          exact List.prefix_append _ _

/-! ### The search -/

/-- The loop looks for the components. -/
theorem covers_iff (relpath : List Byte) (e : Entry) :
    e.covers relpath = true ↔ e.IsAbove relpath := by
  rw [isAbove_iff, Entry.covers, Bool.and_eq_true, List.isPrefixOf_iff_prefix]
  constructor
  · rintro ⟨⟨rest, rfl⟩, hnext⟩
    refine ⟨rest, rfl, ?_⟩
    rw [List.getElem?_append_right (Nat.le_refl _), Nat.sub_self, ← List.head?_eq_getElem?] at hnext
    simpa using hnext
  · rintro ⟨rest, rfl, hrest⟩
    refine ⟨List.prefix_append _ _, ?_⟩
    rw [List.getElem?_append_right (Nat.le_refl _), Nat.sub_self, ← List.head?_eq_getElem?]
    simpa using hrest

/-- The loop finds a maximum. -/
theorem foldl_matchEntry (entries : List Entry) (relpath : List Byte) :
    entries.foldl (matchEntry relpath) none =
      (entries.filter (·.covers relpath)).argmax fun e => e.base.length := by
  rw [List.argmax, List.foldl_filter]
  congr 1
  funext best e
  unfold matchEntry
  cases best with
  | none =>
      by_cases h : e.covers relpath = true
      · have hlen : (-1 : Int) < e.base.length := by omega
        rw [if_pos h]
        exact if_pos ⟨hlen, h⟩
      · rw [if_neg h]
        exact if_neg fun h' => h h'.2
  | some b =>
      by_cases h : e.covers relpath = true
      · rw [if_pos h]
        by_cases hlt : b.base.length < e.base.length
        · have hargmax : List.argAux (fun b c : Entry => c.base.length < b.base.length) (some b) e =
              some e := if_pos hlt
          rw [hargmax]
          exact if_pos ⟨Int.ofNat_lt.mpr hlt, h⟩
        · have hargmax : List.argAux (fun b c : Entry => c.base.length < b.base.length) (some b) e =
              some b := if_neg hlt
          rw [hargmax]
          exact if_neg fun h' => hlt (Int.ofNat_lt.mp h'.1)
      · rw [if_neg h]
        exact if_neg fun h' => h h'.2

/-- Of two bases above a path the longer one has the more components. -/
theorem components_length_le {e e' : Entry} {path : List Byte} (h : e.IsAbove path)
    (h' : e'.IsAbove path) (hle : e'.base.length ≤ e.base.length) :
    (pathComponents e'.base).length ≤ (pathComponents e.base).length := by
  rcases List.prefix_or_prefix_of_prefix h h' with hpre | hpre
  · obtain ⟨rest, heq, -⟩ := (isAbove_iff e e'.base).mp hpre
    have hrest : rest = [] := by
      rw [heq, List.length_append] at hle
      exact List.length_eq_zero_iff.mp (by omega)
    rw [heq, hrest, List.append_nil]
  · exact hpre.length_le

/-! ### The mounts and the entries -/

/-- There is one entry for a base, with the last destination. -/
structure RootMapper.Ok (s : RootMapper) : Prop where
  unique : (s.entries.map Entry.base).Nodup
  current : ∀ e, e ∈ s.entries ↔ IsCurrent s.mounts e

theorem isCurrent_snoc {mounts : List Entry} {e m : Entry} :
    IsCurrent (mounts ++ [m]) e ↔ e = m ∨ (e.base ≠ m.base ∧ IsCurrent mounts e) := by
  constructor
  · rintro ⟨before, after, heq, hlast⟩
    rcases List.eq_nil_or_concat' after with rfl | ⟨after, m', rfl⟩
    · exact .inl (List.append_singleton_inj.mp heq).2.symm
    · rw [← List.cons_append, ← List.append_assoc, List.append_singleton_inj] at heq
      obtain ⟨rfl, rfl⟩ := heq
      refine .inr ⟨fun h => hlast m (by simp) h.symm, before, after, rfl, fun e' he' => ?_⟩
      exact hlast e' (by simp [he'])
  · rintro (rfl | ⟨hne, before, after, rfl, hlast⟩)
    · exact ⟨mounts, [], rfl, fun e' he' => absurd he' List.not_mem_nil⟩
    · refine ⟨before, after ++ [m], by simp, fun e' he' => ?_⟩
      rcases List.mem_append.mp he' with he' | he'
      · exact hlast e' he'
      · rw [List.mem_singleton.mp he']
        exact hne.symm

/-- Every base that was mounted has a last mount. -/
theorem exists_current {mounts : List Entry} {e : Entry} (h : e ∈ mounts) :
    ∃ e', IsCurrent mounts e' ∧ e'.base = e.base := by
  induction mounts using List.reverseRecOn with
  | nil => cases h
  | append_singleton mounts m ih =>
      by_cases heq : e.base = m.base
      · exact ⟨m, isCurrent_snoc.mpr (.inl rfl), heq.symm⟩
      · rcases List.mem_append.mp h with h | h
        · obtain ⟨e', hcur, hbase⟩ := ih h
          exact ⟨e', isCurrent_snoc.mpr (.inr ⟨fun hb => heq (hbase.symm.trans hb), hcur⟩), hbase⟩
        · exact absurd (congrArg Entry.base (List.mem_singleton.mp h)) heq

theorem IsCurrent.mem {mounts : List Entry} {e : Entry} (h : IsCurrent mounts e) : e ∈ mounts := by
  obtain ⟨before, after, rfl, -⟩ := h
  simp

section setDest

variable {base dest : List Byte} {entries : List Entry}

theorem setDest_bases (h : (entries.map Entry.base).Nodup) :
    ((setDest base dest entries).map Entry.base).Nodup ∧
      ∀ b, b ∈ (setDest base dest entries).map Entry.base ↔ b = base ∨ b ∈ entries.map Entry.base := by
  induction entries with
  | nil => simp [setDest]
  | cons e es ih =>
      rw [List.map_cons, List.nodup_cons] at h
      obtain ⟨hnodup, hmem⟩ := ih h.2
      rw [setDest]
      split
      · rename_i heq
        subst heq
        exact ⟨List.nodup_cons.mpr h, fun b => by simp⟩
      · rename_i hne
        refine ⟨List.nodup_cons.mpr ⟨fun hin => ?_, hnodup⟩, fun b => ?_⟩
        · rcases (hmem e.base).mp hin with hb | hb
          · exact hne hb
          · exact h.1 hb
        · rw [List.map_cons, List.mem_cons, hmem b, List.map_cons, List.mem_cons]
          exact or_left_comm

/-- The entry for the base is the new one, and the others are as they were. -/
theorem mem_setDest (h : (entries.map Entry.base).Nodup) (e : Entry) :
    e ∈ setDest base dest entries ↔ e = ⟨base, dest⟩ ∨ (e.base ≠ base ∧ e ∈ entries) := by
  induction entries with
  | nil => simp [setDest]
  | cons e' es ih =>
      rw [List.map_cons, List.nodup_cons] at h
      rw [setDest]
      split
      · rename_i heq
        subst heq
        have hrest : ∀ e ∈ es, e.base ≠ e'.base := fun e he hb =>
          h.1 (hb ▸ List.mem_map_of_mem he)
        constructor
        · intro he
          rcases List.mem_cons.mp he with rfl | he
          · exact .inl rfl
          · exact .inr ⟨hrest e he, List.mem_cons_of_mem _ he⟩
        · rintro (rfl | ⟨hne, he⟩)
          · exact List.mem_cons_self
          · rcases List.mem_cons.mp he with rfl | he
            · exact absurd rfl hne
            · exact List.mem_cons_of_mem _ he
      · rename_i hne
        rw [List.mem_cons, ih h.2, List.mem_cons]
        constructor
        · rintro (rfl | rfl | ⟨hb, he⟩)
          · exact .inr ⟨hne, .inl rfl⟩
          · exact .inl rfl
          · exact .inr ⟨hb, .inr he⟩
        · rintro (rfl | ⟨hb, rfl | he⟩)
          · exact .inr (.inl rfl)
          · exact .inl rfl
          · exact .inr (.inr ⟨hb, he⟩)

end setDest

namespace RootMapper

variable {s s' : RootMapper}

theorem ok_empty : empty.Ok where
  unique := List.nodup_nil
  current e := by
    refine iff_of_false List.not_mem_nil ?_
    rintro ⟨before, after, heq, -⟩
    exact List.append_ne_nil_of_right_ne_nil before (List.cons_ne_nil e after) heq.symm

/-- A mount that is made. -/
theorem Ok.mount (h : s.Ok) (base dest : List Byte) :
    Ok { s with entries := setDest base dest s.entries, mounts := s.mounts ++ [⟨base, dest⟩] } where
  unique := (setDest_bases h.unique).1
  current e := by
    rw [mem_setDest h.unique, isCurrent_snoc, h.current]

theorem Ok.step {c : Call} (h : s.Ok) (hs : s.step c = some s') : s'.Ok := by
  cases c with
  | create path flags =>
      cases hs
      unfold createPipe
      split
      · exact h
      · exact ⟨h.unique, h.current⟩
  | duplicate id =>
      obtain ⟨path, -, rfl⟩ := Option.map_eq_some_iff.mp hs
      exact ⟨h.unique, h.current⟩
  | destroy id =>
      obtain ⟨path, -, rfl⟩ := Option.map_eq_some_iff.mp hs
      exact ⟨h.unique, h.current⟩
  | send id data flags =>
      obtain ⟨r, hr, rfl⟩ := Option.map_eq_some_iff.mp hs
      unfold streamSend at hr
      split at hr
      · cases hr
        exact h
      · split at hr
        · cases hr
          exact h
        · obtain ⟨base, -, rfl⟩ := Option.map_eq_some_iff.mp hr
          exact h.mount base _

/-- The entry that the loop ends with decides on the path. -/
theorem Ok.decides (h : s.Ok) {relpath : List Byte} {e : Entry}
    (hbest : s.entries.foldl (matchEntry relpath) none = some e) : Decides s.mounts relpath e := by
  rw [foldl_matchEntry] at hbest
  obtain ⟨hmem, hcovers⟩ := List.mem_filter.mp (List.argmax_mem hbest)
  have habove := (covers_iff relpath e).mp hcovers
  refine ⟨(h.current e).mp hmem, habove, fun e' he' habove' => ?_⟩
  obtain ⟨e'', hcur, hbase⟩ := exists_current he'
  rw [Entry.IsAbove, ← hbase] at habove'
  have hle : e''.base.length ≤ e.base.length := List.le_of_mem_argmax
    (f := fun e : Entry => e.base.length)
    (List.mem_filter.mpr ⟨(h.current e'').mpr hcur, (covers_iff relpath e'').mpr habove'⟩) hbest
  rw [← hbase]
  exact components_length_le habove habove' hle

/-- There is one iff a mount is above the path. -/
theorem Ok.best_none (h : s.Ok) (relpath : List Byte) :
    s.entries.foldl (matchEntry relpath) none = none ↔ ∀ e ∈ s.mounts, ¬ e.IsAbove relpath := by
  rw [foldl_matchEntry, List.argmax_eq_none, List.filter_eq_nil_iff]
  constructor
  · intro hnone e he habove
    obtain ⟨e', hcur, hbase⟩ := exists_current he
    refine hnone e' ((h.current e').mpr hcur) ((covers_iff relpath e').mpr ?_)
    rw [Entry.IsAbove, hbase]
    exact habove
  · intro hnone e he hcovers
    exact hnone e ((h.current e).mp he).mem ((covers_iff relpath e).mp hcovers)

/-- Only one mount decides. -/
theorem Ok.decides_unique (h : s.Ok) {relpath : List Byte} {e e' : Entry}
    (he : Decides s.mounts relpath e) (he' : Decides s.mounts relpath e') : e = e' := by
  have hlen : (pathComponents e.base).length = (pathComponents e'.base).length :=
    le_antisymm (he'.longest e he.current.mem he.above) (he.longest e' he'.current.mem he'.above)
  have hcomponents : pathComponents e.base = pathComponents e'.base :=
    (List.prefix_of_prefix_length_le he.above he'.above hlen.le).eq_of_length hlen
  have hbase : e.base = e'.base := by
    rw [← (List.intercalate_splitOn slash : _ = e.base), ← (List.intercalate_splitOn slash : _ = e'.base)]
    exact congrArg _ hcomponents
  exact List.inj_on_of_nodup_map h.unique ((h.current e).mpr he.current) ((h.current e').mpr he'.current) hbase

/-- The link has to fit into the page, and its beginning does then. -/
theorem serviceIsSymlink_some {entries : List Entry} {relpath : List Byte} {e : Entry}
    (hbest : entries.foldl (matchEntry relpath) none = some e) :
    serviceIsSymlink entries relpath =
      if (e.dest ++ relpath.drop e.base.length).length < linkpathSize then
        some (some (e.dest ++ relpath.drop e.base.length))
      else none := by
  simp only [serviceIsSymlink, hbest, strcatLinkpath, strcpyLinkpath, Option.bind_eq_bind]
  by_cases hdest : e.dest.length < linkpathSize
  · rw [if_pos hdest, Option.bind_some]
    split <;> rfl
  · rw [if_neg hdest, if_neg, Option.bind_none]
    rw [List.length_append]
    omega

theorem ok_run {calls : List Call} (h : Run step anyStep empty calls s) : s.Ok :=
  h.invariant (fun _ _ _ hi _ hs => hi.step hs) ok_empty

/-- What the service answers is right: after any calls, a path is a link if and only if a mounted base is a
beginning of it, component by component; and the link is the last destination of the longest such base, and
the rest of the path. -/
theorem mount_resolution {calls : List Call} (h : Run step anyStep empty calls s) {relpath : List Byte}
    {answer : Option (List Byte)} (hanswer : serviceIsSymlink s.entries relpath = some answer) :
    (answer.isSome = true ↔ ∃ e ∈ s.mounts, e.IsAbove relpath) ∧
      ∀ link, answer = some link →
        ∃ e rest, Decides s.mounts relpath e ∧ relpath = e.base ++ rest ∧ link = e.dest ++ rest := by
  have hok := ok_run h
  cases hbest : s.entries.foldl (matchEntry relpath) none with
  | none =>
      have hno := (hok.best_none relpath).mp hbest
      rw [serviceIsSymlink, hbest] at hanswer
      cases hanswer
      exact ⟨iff_of_false Bool.false_ne_true fun ⟨e, he, habove⟩ => hno e he habove, nofun⟩
  | some e =>
      have hdec := hok.decides hbest
      obtain ⟨rest, rfl, -⟩ := (isAbove_iff e relpath).mp hdec.above
      rw [serviceIsSymlink_some hbest, List.drop_left] at hanswer
      split at hanswer
      · cases hanswer
        refine ⟨iff_of_true rfl ⟨e, hdec.current.mem, hdec.above⟩, fun link hlink => ?_⟩
        cases hlink
        exact ⟨e, rest, hdec, rfl, rfl⟩
      · cases hanswer

/-- **Mount resolution**, after any calls: a path is resolved if and only if its link, where it is one, fits
into the page with the NUL byte behind it. -/
theorem mount_resolution_iff {calls : List Call} (h : Run step anyStep empty calls s)
    (relpath : List Byte) : Resolved s relpath ↔
      ∀ e rest, Decides s.mounts relpath e → relpath = e.base ++ rest →
        (e.dest ++ rest).length < linkpathSize := by
  have hok := ok_run h
  have hanswers : Resolved s relpath ↔ ∃ answer, serviceIsSymlink s.entries relpath = some answer :=
    exists_congr fun answer => and_iff_left_of_imp fun ha => mount_resolution h ha
  rw [hanswers]
  cases hbest : s.entries.foldl (matchEntry relpath) none with
  | none =>
      exact iff_of_true ⟨none, by rw [serviceIsSymlink, hbest]⟩ fun e rest he _ =>
        absurd he.above ((hok.best_none relpath).mp hbest e he.current.mem)
  | some e =>
      have hdec := hok.decides hbest
      obtain ⟨rest, rfl, -⟩ := (isAbove_iff e relpath).mp hdec.above
      rw [serviceIsSymlink_some hbest, List.drop_left]
      constructor
      · rintro ⟨answer, hanswer⟩ e' rest' he' heq
        obtain rfl := hok.decides_unique hdec he'
        obtain rfl := List.append_cancel_left heq
        by_contra hlong
        rw [if_neg hlong] at hanswer
        cases hanswer
      · intro hshort
        exact ⟨_, if_pos (hshort e rest hdec rfl)⟩

/-- Two mounts: the empty base and `/a`. -/
def twoMounts : List Call :=
  [.create [] oCreatMountPoint, .send 0 [0x78, 0] fMountFile,
    .create [slash, 0x61] oCreatMountPoint, .send 1 [0x79, 0] fMountFile]

/-- The path is `/a/b`. -/
theorem mount_resolution_two : ∃ s, Run step anyStep empty twoMounts s ∧
    serviceIsSymlink s.entries [slash, 0x61, slash, 0x62] = some (some [0x79, slash, 0x62]) ∧
    Resolved s [slash, 0x61, slash, 0x62] := by
  have hrun : Run step anyStep empty twoMounts _ :=
    .more trivial rfl (.more trivial rfl (.more trivial rfl (.more trivial rfl (.refl _))))
  refine ⟨_, hrun, by decide, (mount_resolution_iff hrun _).mpr fun e rest he heq => ?_⟩
  have hlen := congrArg List.length heq
  rw [List.length_append] at hlen
  have hdest : e.dest.length ≤ 1 := by
    have hall : ∀ e ∈ [(⟨[], [0x78]⟩ : Entry), ⟨[slash, 0x61], [0x79]⟩], e.dest.length ≤ 1 := by decide
    exact hall e he.current.mem
  have hfour : [slash, 0x61, slash, (0x62 : Byte)].length = 4 := rfl
  rw [List.length_append, linkpathSize]
  omega

/-- A path of 4095 bytes whose link is one byte longer. -/
theorem mount_link_too_long : ¬ ∀ (calls : List Call) (s : RootMapper) (relpath : List Byte),
    Run step anyStep empty calls s → Resolved s relpath := by
  intro hall
  have hrun : Run step anyStep empty [.create [] oCreatMountPoint, .send 0 [0x78, 0] fMountFile] _ :=
    .more trivial rfl (.more trivial rfl (.refl _))
  obtain ⟨answer, hanswer, -⟩ := hall _ _ (slash :: List.replicate 4094 0x61) hrun
  have hlen : (slash :: List.replicate 4094 (0x61 : Byte)).length = 4095 := by
    rw [List.length_cons, List.length_replicate]
  have hbest : [(⟨[], [0x78]⟩ : Entry)].foldl (matchEntry (slash :: List.replicate 4094 0x61)) none =
      some ⟨[], [0x78]⟩ := rfl
  have hsym := hanswer.symm.trans (serviceIsSymlink_some hbest)
  generalize slash :: List.replicate 4094 (0x61 : Byte) = path at hlen hsym
  rw [if_neg] at hsym
  · cases hsym
  · rw [List.length_nil, List.drop_zero, List.length_append, hlen]
    decide

end RootMapper

end Muxomucota.Vfs
