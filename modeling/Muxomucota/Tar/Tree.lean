import Muxomucota.Lib.Pieces
import Mathlib.Data.List.TakeWhile
import Mathlib.Tactic.Common

/-!
# Tar — the tree of a mounted archive

`struct tar_node` of `progs/common/tar/tar.c` and the walks over it: along the siblings to a name,
and from a node to its children.  A C string is the list of its characters; `strtok_r` takes the
components of a path off it.
-/

namespace Muxomucota.Tar
open Lib

abbrev Byte := BitVec 8

instance : LawfulBEq Byte := inferInstance

/-- A string without the NUL behind it. -/
abbrev CString := List Byte

def slash : Byte := 0x2f

/-! ### `strtok_r` -/

/-- `strtok_r` with a delimiter of one character: the token, and what it leaves in `saveptr`. -/
def strtokR (delim : Byte) : Option CString → Option CString × Option CString := takePiece delim

/-- `STRTOK_FOREACH`, at most `n` rounds of it. -/
def strtokForeach (delim : Byte) : (n : Nat) → Option CString → List CString := takePieces delim

/-- The components of a path. -/
def components (path : CString) : List CString :=
  strtokForeach slash (path.length + 1) (some path)

/-- A name of slashes alone has no components. -/
theorem components_ne_nil_iff {path : CString} : components path ≠ [] ↔ ∃ b ∈ path, b ≠ slash := by
  rw [components, strtokForeach, takePieces, takePiece]
  dsimp only
  by_cases hskip : path.dropWhile (· = slash) = []
  · rw [if_pos hskip]
    refine iff_of_false (not_not.mpr rfl) ?_
    rintro ⟨b, hb, hne⟩
    exact hne (by simpa using List.dropWhile_eq_nil_iff.mp hskip b hb)
  · rw [if_neg hskip]
    refine iff_of_true (List.cons_ne_nil _ _) ?_
    by_contra hall
    refine hskip (List.dropWhile_eq_nil_iff.mpr fun b hb => ?_)
    by_contra hne
    exact hall ⟨b, hb, by simpa using hne⟩

/-! ### Nodes -/

/-- What `data` points to: a buffer of its own. -/
structure Data where
  buffer : Nat
  bytes : List Byte
  deriving DecidableEq

/-- The fields of a `struct tar_node` besides its name and its links. -/
structure Attributes where
  data : Option Data
  sz : BitVec 32
  mode : BitVec 32
  uid : BitVec 32
  gid : BitVec 32
  mtime : BitVec 64
  deriving DecidableEq

/-- `struct tar_node *`. -/
inductive Tree where
  | null
  | node (name : CString) (attr : Attributes) (sibling children : Tree)
  deriving DecidableEq

def sIfmt : BitVec 32 := 0o3770000
def sIfreg : BitVec 32 := 0o200000
def sIfdir : BitVec 32 := 0o40000
def sIrwxu : BitVec 32 := 0o700
def sIrwxg : BitVec 32 := 0o70
def sIrwxo : BitVec 32 := 0o7

/-- What a new node starts with. -/
def Attributes.blank : Attributes :=
  { data := none, sz := 0, mode := sIfdir ||| sIrwxu ||| sIrwxg ||| sIrwxo, uid := 0, gid := 0,
    mtime := 0 }

namespace Tree

/-- The node that a list of components names. -/
def find : Tree → List CString → Option Attributes
  | _, [] => none
  | null, _ :: _ => none
  | node name attr sibling children, part :: parts =>
      if name = part then
        match parts with
        | [] => some attr
        | part' :: parts' => children.find (part' :: parts')
      else sibling.find (part :: parts)

/-- `*tp` and its siblings up to the one with the name, which is created where there is none, and what
`rest` does with its children; `final` (by its components) stays `NULL` unless a node is created. -/
def makeNode (part : CString) (rest : Tree → Tree × Option (List CString)) :
    Tree → Tree × Option (List CString)
  | null =>
      let r := rest null
      (node part .blank null r.1, some (part :: r.2.getD []))
  | node name attr sibling children =>
      if name = part then
        let r := rest children
        (node name attr sibling r.1, r.2.map (part :: ·))
      else
        let r := makeNode part rest sibling
        (node name attr r.1 children, r.2)

/-- The loop over the components: the tree, and `final`. -/
def makeNodes : List CString → Tree → Tree × Option (List CString)
  | [], tree => (tree, none)
  | part :: parts, tree => makeNode part (makeNodes parts) tree

/-- A write through `final`. -/
def update (f : Attributes → Attributes) : Tree → List CString → Tree
  | null, _ => null
  | tree, [] => tree
  | node name attr sibling children, part :: parts =>
      if name = part then
        match parts with
        | [] => node name (f attr) sibling children
        | part' :: parts' => node name attr sibling (children.update f (part' :: parts'))
      else node name attr (sibling.update f (part :: parts)) children

@[simp] theorem find_nil (t : Tree) : t.find [] = none := by cases t <;> rfl

@[simp] theorem find_null (path : List CString) : null.find path = none := by cases path <;> rfl

theorem find_node {name part : CString} {attr : Attributes} {sibling children : Tree}
    {parts : List CString} :
    (node name attr sibling children).find (part :: parts) =
      if name = part then (if parts = [] then some attr else children.find parts)
      else sibling.find (part :: parts) := by
  cases parts <;> rfl

theorem update_node {f : Attributes → Attributes} {name part : CString} {attr : Attributes}
    {sibling children : Tree} {parts : List CString} :
    (node name attr sibling children).update f (part :: parts) =
      if name = part then
        (if parts = [] then node name (f attr) sibling children
          else node name attr sibling (children.update f parts))
      else node name attr (sibling.update f (part :: parts)) children := by
  cases parts <;> rfl

/-- The nodes on the way are there afterwards, and those that were there are as they were. -/
theorem find_makeNodes (parts path : List CString) (t : Tree) :
    (makeNodes parts t).1.find path =
      (t.find path).or (if path ≠ [] ∧ path <+: parts then some .blank else none) := by
  induction parts generalizing t path with
  | nil =>
      rw [if_neg fun h => h.1 (List.prefix_nil.mp h.2), Option.or_none]
      rfl
  | cons part parts ih =>
      cases path with
      | nil => simp
      | cons p path =>
          have hbegins : (p :: path ≠ [] ∧ p :: path <+: part :: parts) ↔
              p = part ∧ path <+: parts := by simp [List.cons_prefix_cons]
          simp only [hbegins, makeNodes]
          induction t with
          | null =>
              simp only [makeNode, find_node, find_null, ih, Option.none_or]
              grind
          | node name attr sibling children ihs _ =>
              simp only [makeNode]
              split
              · rename_i hname
                simp only [find_node, ih]
                grind
              · rename_i hname
                simp only [find_node, ihs]
                grind

/-- `final` is the last node of the path if that is new, and `NULL` if it was there. -/
theorem makeNodes_final (parts : List CString) (t : Tree) :
    (makeNodes parts t).2 =
      if parts ≠ [] ∧ t.find parts = none then some parts else none := by
  induction parts generalizing t with
  | nil => rfl
  | cons part parts ih =>
      rw [makeNodes]
      induction t with
      | null =>
          simp only [makeNode, ih, find_null]
          cases parts <;> simp
      | node name attr sibling children ihs _ =>
          simp only [makeNode]
          split
          · rename_i hname
            simp only [ih, find_node, if_pos hname]
            cases parts with
            | nil => simp
            | cons part' parts => split <;> simp_all
          · rename_i hname
            simp only [ihs, find_node, if_neg hname]

theorem find_update (f : Attributes → Attributes) (path path' : List CString) (t : Tree) :
    (t.update f path).find path' =
      if path' = path then (t.find path').map f else t.find path' := by
  induction path generalizing t path' with
  | nil =>
      have hsame : t.update f [] = t := by cases t <;> rfl
      rw [hsame]
      split
      · rename_i h; subst h; simp
      · rfl
  | cons part parts ih =>
      cases path' with
      | nil => simp
      | cons p path' =>
          induction t with
          | null => simp [update]
          | node name attr sibling children ihs _ =>
              rw [update_node]
              split
              · rename_i hname
                split
                · rename_i hparts
                  subst hparts
                  simp only [find_node]
                  grind
                · simp only [find_node, ih]
                  grind
              · rename_i hname
                simp only [find_node, ihs]
                grind

end Tree

end Muxomucota.Tar
