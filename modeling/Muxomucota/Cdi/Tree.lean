import Mathlib.Data.BitVec
import Muxomucota.Lib.Trees

/-!
# Cdi — trees

The AVL trees of `tyndur-tree.c`.  An object carries its `struct tree_item` and its key; object and item are
one address here.  `&tree->root`, `&item->left` and `&item->right` are places (`Link`), so that `*pitem` is
read and written as in the source.

A function is `none` when it follows a null pointer; every loop may turn `n` times and is `none` when that
does not end it.  Where the source has a case and its mirror image, the side is a parameter.
-/

namespace Muxomucota.Cdi
open Lib

/-- `struct tree_item`. -/
@[ext] structure TreeItem (ι : Type*) where
  parent : Option ι
  left : Option ι
  right : Option ι
  balance : ℤ

/-- `tree_t`, the items and the keys of the objects. -/
structure Tree (ι : Type*) where
  root : Option ι
  keyMask : BitVec 64
  items : ι → TreeItem ι
  sortKey : ι → BitVec 64

/-- A place that holds the address of an item. -/
inductive Link (ι : Type*)
  | root
  | child (side : Side) (item : ι)

variable {ι : Type*} [DecidableEq ι]

/-- `item->left` or `item->right`. -/
def TreeItem.child (i : TreeItem ι) : Side → Option ι
  | .left => i.left
  | .right => i.right

def TreeItem.setChild (i : TreeItem ι) (s : Side) (c : Option ι) : TreeItem ι :=
  match s with
  | .left => { i with left := c }
  | .right => { i with right := c }

namespace Tree

/-- `get_key`. -/
def getKey (t : Tree ι) (item : ι) : BitVec 64 := t.sortKey item &&& t.keyMask

/-- `tree_do_init`. -/
def treeDoInit (t : Tree ι) : Tree ι := { t with root := none, keyMask := BitVec.allOnes 64 }

/-! ### Reading and writing -/

def update (t : Tree ι) (a : ι) (f : TreeItem ι → TreeItem ι) : Tree ι :=
  { t with items := Function.update t.items a (f (t.items a)) }

def setParent (t : Tree ι) (a : ι) (p : Option ι) : Tree ι := t.update a fun i => { i with parent := p }

def setBalance (t : Tree ι) (a : ι) (b : ℤ) : Tree ι := t.update a fun i => { i with balance := b }

/-- The place as an lvalue: `*link`. -/
def get (t : Tree ι) : Link ι → Option ι
  | .root => t.root
  | .child s a => (t.items a).child s

def put (t : Tree ι) (l : Link ι) (v : Option ι) : Tree ι :=
  match l with
  | .root => { t with root := v }
  | .child s a => t.update a (·.setChild s v)

/-- `if (v) v->parent = p;` -/
def hang (t : Tree ι) (v p : Option ι) : Tree ι :=
  match v with
  | none => t
  | some a => t.setParent a p

/-! ### Searching -/

/-- The loop of `do_search`: `res` and `current_key` at its end. -/
def searchLoop (t : Tree ι) (key : BitVec 64) :
    ℕ → Option ι → BitVec 64 → Option ι → Option (Option ι × BitVec 64)
  | _, res, currentKey, none => some (res, currentKey)
  | 0, _, _, some _ => none
  | n + 1, _, _, some current =>
    let currentKey := t.getKey current
    if key = currentKey then some (some current, currentKey)
    else if key < currentKey then searchLoop t key n (some current) currentKey (t.items current).left
    else searchLoop t key n (some current) currentKey (t.items current).right

/-- `do_search`: whether the key was found, and `*node`. -/
def doSearch (n : ℕ) (t : Tree ι) (key : BitVec 64) : Option (Bool × Option ι) :=
  (t.searchLoop key n none (key - 1) t.root).map fun (node, currentKey) => (key == currentKey, node)

/-- `tree_search`. -/
def treeSearch (n : ℕ) (t : Tree ι) (key : BitVec 64) : Option (Option ι) :=
  (t.doSearch n key).map fun (found, ret) => if found then ret else none

/-! ### The balance -/

def adjustBalance (value : ℤ) : ℕ → Tree ι → ι → Option (Tree ι)
  | 0, t, item => if (t.items item).parent = none then some t else none
  | n + 1, t, item =>
    match (t.items item).parent with
    | none => some t
    | some p =>
      let b := (t.items p).balance
      if (t.items p).left = some item then
        let t := t.setBalance p (b - value)
        if 0 < b ∨ 0 < b - value then some t else adjustBalance value n t p
      else
        let t := t.setBalance p (b + value)
        if b < 0 ∨ b + value < 0 then some t else adjustBalance value n t p

/-- Turns the node at the place down to the side, and its child on the other side up. -/
def rotate (s : Side) (t : Tree ι) (link : Link ι) : Option (Tree ι) := do
  let item ← t.get link
  let tmp ← (t.items item).child s.other
  let inner := (t.items tmp).child s
  let t := t.setParent tmp (t.items item).parent
  let t := t.setParent item (some tmp)
  let t := t.hang inner (some item)
  let t := t.put (.child s.other item) inner
  let t := t.put (.child s tmp) (some item)
  return t.put link (some tmp)

def rotateLeft : Tree ι → Link ι → Option (Tree ι) := rotate .left
def rotateRight : Tree ι → Link ι → Option (Tree ι) := rotate .right

/-- `link_from_parent`. -/
def linkFromParent (t : Tree ι) (item : ι) : Link ι :=
  match (t.items item).parent with
  | none => .root
  | some p => if (t.items p).left = some item then .child .left p else .child .right p

/-- What `rebalance` does at an item that leans to the side `s` by two levels.  To the right the balance is
positive, to the left all signs are turned round. -/
def straighten (s : Side) (n : ℕ) (t : Tree ι) (item : ι) (pitem : Link ι) : Option (Tree ι) := do
  let tmp ← (t.items item).child s
  let b := s.sign * (t.items tmp).balance
  if 0 < b then
    let t ← t.rotate s.other pitem
    -- `*pitem` is `tmp` now
    ((t.setBalance item 0).setBalance tmp 0).adjustBalance (-1) n tmp
  else if b = 0 then
    let t ← t.rotate s.other pitem
    return (t.setBalance item s.sign).setBalance tmp (-s.sign)
  else
    let t ← t.rotate s (.child s item)
    let t ← t.rotate s.other pitem
    let mid ← t.get pitem
    let t := t.setBalance item (if s.sign * (t.items mid).balance = 1 then -s.sign else 0)
    let t := t.setBalance tmp (if s.sign * (t.items mid).balance = -1 then s.sign else 0)
    (t.setBalance mid 0).adjustBalance (-1) n mid

/-- One turn of the loop of `rebalance`. -/
def rebalanceItem (n : ℕ) (t : Tree ι) (item : ι) : Option (Tree ι) :=
  let pitem := t.linkFromParent item
  if 2 ≤ (t.items item).balance then t.straighten .right n item pitem
  else if (t.items item).balance ≤ -2 then t.straighten .left n item pitem
  else some t

def rebalance : ℕ → Tree ι → Option ι → Option (Tree ι)
  | _, t, none => some t
  | 0, _, some _ => none
  | n + 1, t, some item => do
    let t ← t.rebalanceItem n item
    rebalance n t (t.items item).parent

/-! ### Inserting and removing -/

def treeInsert (n : ℕ) (t : Tree ι) (node : ι) : Option (Tree ι) :=
  let newKey := t.getKey node
  let t := t.update node fun i => { i with left := none, right := none, balance := 0 }
  if t.root = none then some { t.setParent node none with root := some node }
  else do
    let (found, parent) ← t.doSearch n newKey
    if found then some t
    else
      let t := t.setParent node parent
      let p ← parent
      let t := t.put (.child (if newKey < t.getKey p then .left else .right) p) (some node)
      let t ← t.adjustBalance 1 n node
      t.rebalance n (some node)

/-- The last item on the side, from `current` on. -/
def outermost (s : Side) (t : Tree ι) : ℕ → ι → Option ι
  | n, current =>
    match (t.items current).child s with
    | none => some current
    | some c =>
      match n with
      | 0 => none
      | n + 1 => outermost s t n c

/-- `tree_remove` of an item with at most one child, which takes its place. -/
def replaceBy (n : ℕ) (t : Tree ι) (item : ι) (child : Option ι) : Option (Tree ι) := do
  let pitem := t.linkFromParent item
  let t ← t.adjustBalance (-1) n item
  let t := t.put pitem child
  let t := t.hang child (t.items item).parent
  t.rebalance n (t.items item).parent

/-- `tree_remove` of an item with two children: `subst` takes over what the item holds. -/
def takeOver (t : Tree ι) (item subst : ι) : Tree ι :=
  let i := t.items item
  let t := t.update subst fun _ =>
    ⟨i.parent, if i.left = some subst then none else i.left, i.right, i.balance⟩
  let t := t.hang (t.items subst).left (some subst)
  t.hang (t.items subst).right (some subst)

/-- The same, when `subst` was a child of the item. -/
def shrinkLeft (n : ℕ) (t : Tree ι) (subst : ι) (oldLeft : Option ι) : Option (Tree ι) :=
  let t := t.setBalance subst ((t.items subst).balance + 1)
  let t := t.put (.child .left subst) oldLeft
  (if (t.items subst).balance ≤ 0 then t.adjustBalance (-1) n subst else some t) >>= fun t =>
    t.rebalance n (some subst)

/-- The same, when `subst` was a child of another item. -/
def shrinkRight (n : ℕ) (t : Tree ι) (oldParent : ι) (oldLeft : Option ι) : Option (Tree ι) :=
  let t := t.hang oldLeft (some oldParent)
  let t := t.setBalance oldParent ((t.items oldParent).balance - 1)
  (if 0 ≤ (t.items oldParent).balance then t.adjustBalance (-1) n oldParent else some t) >>= fun t =>
    t.rebalance n (some oldParent)

def substitute (n : ℕ) (t : Tree ι) (item subst : ι) : Option (Tree ι) :=
  let pitem := t.linkFromParent item
  let psubst := t.linkFromParent subst
  let oldLeft := (t.items subst).left
  let oldParent := (t.items subst).parent
  let t := ((t.takeOver item subst).put psubst oldLeft).put pitem (some subst)
  oldParent.bind fun p =>
    if p = item then t.shrinkLeft n subst oldLeft else t.shrinkRight n p oldLeft

def treeRemove (n : ℕ) (t : Tree ι) (node : ι) : Option (Tree ι) :=
  match (t.items node).left, (t.items node).right with
  | none, none => t.replaceBy n node none
  | some l, none => t.replaceBy n node (some l)
  | none, some r => t.replaceBy n node (some r)
  | some l, some _ => do
    let subst ← t.outermost .right n l
    t.substitute n node subst

/-! ### One after the other -/

/-- `do old = current; current = current->parent; while (current && current->left == old);` -/
def climb (s : Side) (t : Tree ι) : ℕ → ι → Option (Option ι)
  | 0, _ => none
  | n + 1, old =>
    match (t.items old).parent with
    | none => some none
    | some current => if (t.items current).child s = some old then climb s t n current else some (some current)

/-- `tree_prev` with the left side, `tree_next` with the right: `NULL` has the last item on the other side as
its neighbour. -/
def neighbour (s : Side) (n : ℕ) (t : Tree ι) (node : Option ι) : Option (Option ι) :=
  match node with
  | none =>
    match t.root with
    | none => some none
    | some current => (t.outermost s.other n current).map some
  | some current =>
    match (t.items current).child s with
    | none => t.climb s n current
    | some c => (t.outermost s.other n c).map some

def treePrev : ℕ → Tree ι → Option ι → Option (Option ι) := neighbour .left
def treeNext : ℕ → Tree ι → Option ι → Option (Option ι) := neighbour .right

end Tree

end Muxomucota.Cdi
