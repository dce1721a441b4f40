import Muxomucota.Cdi.Tree

/-!
# Cdi — the block cache

`cache.c`: blocks of a device, at most `block_count` of them, in a tree by their numbers and in a list by their
last use, with a read buffer and eight hints.  The contents of a block are one value of `α`; `struct block` and
its fields are functions of its address, and `cdi.number` is the key that the tree sorts by.

The callbacks and `malloc` are those of a `Backing`.  `prvData` is what the callbacks work on, so a call takes it
and gives it back.  As in the trees, a function is `none` when it follows a null pointer, leaves the read buffer,
or when a loop does not end within `n` turns.  The messages of `puts` are left out.
-/

namespace Muxomucota.Cdi

universe u

/-- `INVBLKNUM`: `~0UL`, in 32 bits. -/
def INVBLKNUM : BitVec 64 := 0xffffffff

def READBUF_SZ : ℕ := 128

def HINTCNT : ℕ := 8

/-- The callbacks of a cache, and `malloc`, which returns an address that is not in use. -/
structure Backing (ι δ α : Type u) where
  readBlock : δ → BitVec 64 → (count : ℕ) → Vector α count → δ × ℕ × Vector α count
  writeBlock : δ → BitVec 64 → α → δ × Bool
  malloc : List ι → ι

/-- `struct cache` and the blocks.  `live` are the blocks that are allocated. -/
structure Cache (ι δ α : Type u) where
  blockCount : ℕ
  blocksUsed : ℕ
  prvData : δ
  tree : Tree ι
  lruFirst : Option ι
  lruLast : Option ι
  readBuffer : Vector α READBUF_SZ
  readBufferBlock : BitVec 64
  readBufferCnt : ℕ
  hints : Vector (Option ι) HINTCNT
  prevHint : ℕ
  data : ι → α
  refCount : ι → BitVec 16
  dirty : ι → Bool
  lruNext : ι → Option ι
  lruPrev : ι → Option ι
  live : List ι

namespace Cache

variable {ι δ α : Type u} [DecidableEq ι]

/-- `b->cdi.number`. -/
def number (c : Cache ι δ α) (b : ι) : BitVec 64 := c.tree.sortKey b

/-- `cdi_cache_create`: what the fields held before stands for the memory that `malloc` returns. -/
def cdiCacheCreate (c : Cache ι δ α) : Cache ι δ α :=
  { c with
    blockCount := 256
    blocksUsed := 0
    readBufferBlock := INVBLKNUM
    readBufferCnt := 0
    lruFirst := none
    lruLast := none
    tree := c.tree.treeDoInit
    prevHint := 0
    hints := Vector.replicate HINTCNT none }

/-! ### Writing back -/

/-- The read buffer holds the block: the test of `cache_sync_block`, and what `load_block` tests the opposite of. -/
def inReadBuffer (c : Cache ι δ α) (block : BitVec 64) : Bool :=
  c.readBufferBlock ≠ INVBLKNUM ∧ c.readBufferBlock ≤ block ∧ block < c.readBufferBlock + BitVec.ofNat 64 c.readBufferCnt

/-- `memcpy` into the read buffer. -/
def refreshReadBuffer (c : Cache ι δ α) (b : ι) : Option (Cache ι δ α) :=
  if c.inReadBuffer (c.number b) then
    if h : (c.number b - c.readBufferBlock).toNat < READBUF_SZ then
      some { c with readBuffer := c.readBuffer.set (c.number b - c.readBufferBlock).toNat (c.data b) h }
    else none
  else some c

/-- `cache_sync_block`. -/
def cacheSyncBlock (env : Backing ι δ α) (c : Cache ι δ α) (b : ι) : Option (Cache ι δ α × Bool) :=
  if !c.dirty b then some (c, true)
  else do
    let c ← c.refreshReadBuffer b
    let (prvData, ok) := env.writeBlock c.prvData (c.number b) (c.data b)
    let c := { c with prvData := prvData }
    if ok then some ({ c with dirty := Function.update c.dirty b false }, true) else some (c, false)

/-- The loop of `cdi_cache_sync`, which may find `k` more blocks. -/
def syncLoop (env : Backing ι δ α) (n : ℕ) : ℕ → Cache ι δ α → Option ι → Option (Cache ι δ α)
  | k, c, b => do
    match ← c.tree.treePrev n b with
    | none => some c
    | some b =>
      match k with
      | 0 => none
      | k + 1 =>
        let (c, _) ← c.cacheSyncBlock env b
        syncLoop env n k c (some b)

/-- `cdi_cache_sync`, which always returns 1. -/
def cdiCacheSync (env : Backing ι δ α) (n : ℕ) (c : Cache ι δ α) : Option (Cache ι δ α) := syncLoop env n n c none

/-! ### Replacing -/

/-- The loop of `find_replaceable`: the first block that nobody refers to. -/
def firstUnused (c : Cache ι δ α) : ℕ → Option ι → Option (Option ι)
  | 0, _ => none
  | _ + 1, none => some none
  | n + 1, some b => if c.refCount b ≠ 0 then c.firstUnused n (c.lruPrev b) else some (some b)

/-- `find_replaceable`. -/
def findReplaceable (env : Backing ι δ α) (n : ℕ) (c : Cache ι δ α) : Option (Cache ι δ α × Option ι) := do
  match ← c.firstUnused n c.lruFirst with
  | none => some (c, none)
  | some b =>
    if c.dirty b then
      let c ← c.cdiCacheSync env n
      some (c, some b)
    else some (c, some b)

/-- `get_hint`. -/
def getHint (c : Cache ι δ α) (block : BitVec 64) : Option ι :=
  c.hints.toList.findSome? fun hint => hint.filter fun b => c.number b == block

/-- `put_hint`. -/
def putHint (c : Cache ι δ α) (block : ι) : Cache ι δ α :=
  let i := (c.prevHint + 1) % HINTCNT
  { c with prevHint := i, hints := c.hints.set i (some block) (Nat.mod_lt _ (by decide)) }

/-! ### Loading -/

/-- `memcpy` from the read buffer. -/
def copyFromBuffer (c : Cache ι δ α) (b : ι) : Option (Cache ι δ α) := do
  let v ← c.readBuffer[(c.number b - c.readBufferBlock).toNat]?
  some { c with data := Function.update c.data b v }

/-- `load_block`. -/
def loadBlock (env : Backing ι δ α) (c : Cache ι δ α) (b : ι) : Option (Cache ι δ α × Bool) :=
  if c.inReadBuffer (c.number b) then (c.copyFromBuffer b).map (·, true)
  else
    let (prvData, cnt, buffer) := env.readBlock c.prvData (c.number b) READBUF_SZ c.readBuffer
    let c := { c with prvData := prvData, readBufferBlock := c.number b, readBufferCnt := cnt, readBuffer := buffer }
    if cnt = 0 then some (c, false) else (c.copyFromBuffer b).map (·, true)

/-- A new block, with `memset(b, 0, sizeof(*b))`. -/
def newBlock (env : Backing ι δ α) (c : Cache ι δ α) (blocknum : BitVec 64) : Cache ι δ α × ι :=
  let b := env.malloc c.live
  ({ c with
      tree := { c.tree with sortKey := Function.update c.tree.sortKey b blocknum }
      refCount := Function.update c.refCount b 0
      dirty := Function.update c.dirty b false
      lruNext := Function.update c.lruNext b none
      lruPrev := Function.update c.lruPrev b none
      live := b :: c.live }, b)

/-- The block that the new number gets, and `in_tree`. -/
def makeRoom (env : Backing ι δ α) (n : ℕ) (c : Cache ι δ α) (blocknum : BitVec 64) :
    Option (Cache ι δ α × Option (ι × Bool)) :=
  if c.blocksUsed < c.blockCount then do
    let (c, b) := c.newBlock env blocknum
    let tree ← c.tree.treeInsert n b
    some ({ c with tree := tree, blocksUsed := c.blocksUsed + 1 }, some (b, false))
  else do
    match ← c.findReplaceable env n with
    | (c, none) => some (c, none)
    | (c, some b) =>
      let tree ← c.tree.treeRemove n b
      let tree ← Tree.treeInsert n { tree with sortKey := Function.update tree.sortKey b blocknum } b
      some ({ c with tree := tree }, some (b, true))

/-- The neighbours of a block in the list are linked with each other. -/
def unlinkLru (c : Cache ι δ α) (b : ι) : Cache ι δ α :=
  let c := match c.lruNext b with
    | none => c
    | some p => { c with lruPrev := Function.update c.lruPrev p (c.lruPrev b) }
  match c.lruPrev b with
  | none => c
  | some q => { c with lruNext := Function.update c.lruNext q (c.lruNext b) }

/-- A block that could not be read is freed. -/
def dropBlock (n : ℕ) (c : Cache ι δ α) (b : ι) (inTree : Bool) : Option (Cache ι δ α) :=
  let freed (c : Cache ι δ α) := { c with blocksUsed := c.blocksUsed - 1, live := c.live.erase b }
  if inTree then do
    let tree ← c.tree.treeRemove n b
    some (freed (unlinkLru { c with tree := tree } b))
  else some (freed c)

/-! ### Using blocks -/

/-- The block becomes the last one of the list. -/
def touchLru (c : Cache ι δ α) (b : ι) : Cache ι δ α :=
  let c := c.unlinkLru b
  let first := if c.lruFirst = some b then c.lruPrev b else c.lruFirst
  let next := Function.update c.lruNext b c.lruLast
  let prev := Function.update c.lruPrev b none
  match c.lruLast with
  | none => { c with lruNext := next, lruPrev := prev, lruFirst := some b, lruLast := some b }
  | some z =>
    { c with lruNext := next, lruPrev := Function.update prev z (some b), lruFirst := first, lruLast := some b }

/-- What is done with every block that is given out. -/
def giveOut (c : Cache ι δ α) (b : ι) : Cache ι δ α :=
  let c := c.putHint b
  let c := { c with refCount := Function.update c.refCount b (c.refCount b + 1) }
  if c.lruLast = some b then c else c.touchLru b

/-- `get_hint`, and `tree_search` without one. -/
def lookup (n : ℕ) (c : Cache ι δ α) (blocknum : BitVec 64) : Option (Option ι) :=
  match c.getHint blocknum with
  | some b => some (some b)
  | none => c.tree.treeSearch n blocknum

/-- A block that was not in the cache is read, unless `noread` is set, and given out. -/
def fillBlock (env : Backing ι δ α) (n : ℕ) (c : Cache ι δ α) (b : ι) (inTree noread : Bool) :
    Option (Cache ι δ α × Option ι) :=
  if noread then some (c.giveOut b, some b)
  else do
    match ← c.loadBlock env b with
    | (c, true) => some (c.giveOut b, some b)
    | (c, false) =>
      let c ← c.dropBlock n b inTree
      some (c, none)

/-- `cdi_cache_block_get`. -/
def cdiCacheBlockGet (env : Backing ι δ α) (n : ℕ) (c : Cache ι δ α) (blocknum : BitVec 64) (noread : Bool) :
    Option (Cache ι δ α × Option ι) := do
  match ← c.lookup n blocknum with
  | some b => some (c.giveOut b, some b)
  | none =>
    match ← c.makeRoom env n blocknum with
    | (c, none) => some (c, none)
    | (c, some (b, inTree)) => c.fillBlock env n b inTree noread

/-- `cdi_cache_block_release`. -/
def cdiCacheBlockRelease (c : Cache ι δ α) (b : ι) : Cache ι δ α :=
  { c with refCount := Function.update c.refCount b (c.refCount b - 1) }

/-- `cdi_cache_block_dirty`. -/
def cdiCacheBlockDirty (c : Cache ι δ α) (b : ι) : Cache ι δ α := { c with dirty := Function.update c.dirty b true }

end Cache

end Muxomucota.Cdi
