import Muxomucota.Tar.Tree
import Mathlib.Data.Nat.Digits.Defs
import Mathlib.Data.List.GetD

/-!
# Tar — loading an archive

The loop of `service_stream_send` over the headers of an archive that lies in memory.  `none` is the
dereference of a `NULL` pointer or a read behind the archive.  `WellFormed` says of the bytes that
they are an archive of a list of entries.
-/

namespace Muxomucota.Tar

/-- `len` bytes from `off` on. -/
def field (tar : List Byte) (off len : Nat) : List Byte := (tar.drop off).take len

/-- The fields of `struct tar_header` that are read; `filename` ends before its NUL. -/
structure TarHeader where
  filename : CString
  mode : List Byte
  uid : List Byte
  gid : List Byte
  size : List Byte
  mtime : List Byte

/-- A header in memory; `none` where a field lies behind the archive or `filename` has no NUL. -/
def headerAt (tar : List Byte) (off : Nat) : Option TarHeader :=
  let filename := field tar off 100
  if tar.length < off + 148 ∨ 0 ∉ filename then none
  else some
    { filename := filename.takeWhile (· != 0), mode := field tar (off + 100) 8,
      uid := field tar (off + 108) 8, gid := field tar (off + 116) 8,
      size := field tar (off + 124) 12, mtime := field tar (off + 136) 12 }

/-- `parse_tar_number`; a `char` is unsigned, an `int` wraps. -/
def parseTarNumber (ptr : List Byte) : BitVec 32 :=
  ptr.dropLast.foldl (fun val c => (val <<< 3) + c.setWidth 32 - 48) 0

/-- `mode` with a file type. -/
def withType (mode : BitVec 32) (isdir : Bool) : BitVec 32 :=
  if mode &&& sIfmt = 0 then mode ||| (if isdir then sIfdir else sIfreg) else mode

/-- What the loop has made so far: the tree, and how many buffers. -/
structure Loading where
  tree : Tree
  buffers : Nat

/-- The writes to `final`; `data` is a new buffer, and `none` where `sz` is zero. -/
def TarHeader.fill (header : TarHeader) (data : Option Data) (final : Attributes) : Attributes :=
  { data := data.or final.data
    sz := parseTarNumber header.size
    mode := withType (parseTarNumber header.mode) (header.filename.getLast? = some slash)
    uid := parseTarNumber header.uid
    gid := parseTarNumber header.gid
    mtime := (parseTarNumber header.mtime).signExtend 64 }

/-- One round of the loop, and where the next header is. -/
def loadEntry (tar : List Byte) (off : Nat) (l : Loading) : Option (Loading × Nat) :=
  (headerAt tar off).bind fun header =>
    let r := l.tree.makeNodes (components header.filename)
    r.2.bind fun final =>
      let sz := parseTarNumber header.size
      let next := (off + 512 + ((sz + 511) &&& ~~~511).toNat) % 2 ^ 32
      if sz = 0 then some (⟨r.1.update (header.fill none) final, l.buffers⟩, next)
      else if tar.length < off + 512 + sz.toNat then none
      else
        let data : Data := { buffer := l.buffers, bytes := field tar (off + 512) sz.toNat }
        some (⟨r.1.update (header.fill data) final, l.buffers + 1⟩, next)

/-- At most `n` rounds of the loop. -/
def loadLoop (tar : List Byte) : Nat → Nat → Loading → Option Loading
  | 0, _, _ => none
  | n + 1, off, l =>
      if off < tar.length ∧ tar[off]? ≠ some 0 then
        (loadEntry tar off l).bind fun r => loadLoop tar n r.2 r.1
      else some l

/-- The tree of an archive; `buffers` are in use already. -/
def mount (tar : List Byte) (buffers : Nat) : Option Loading :=
  loadLoop tar (tar.length + 1) 0 ⟨.null, buffers⟩

/-! ### Well-formed archives -/

/-- A zero-padded octal number with a NUL behind it. -/
def Octal (ptr : List Byte) (n : Nat) : Prop :=
  ∃ digits : List Nat, (∀ d ∈ digits, d < 8) ∧ n = Nat.ofDigits 8 digits.reverse ∧
    ptr = digits.map (fun d => .ofNat 8 (48 + d)) ++ [0]

/-- What an entry of an archive says. -/
structure Entry where
  name : CString
  mode : Nat
  uid : Nat
  gid : Nat
  size : Nat
  mtime : Nat
  data : List Byte

/-- The components of its name. -/
def Entry.path (e : Entry) : List CString := components e.name

/-- The entry `e` is at `off`. -/
structure EntryAt (tar : List Byte) (off : Nat) (e : Entry) : Prop where
  name : ∃ rest, field tar off 100 = e.name ++ 0 :: rest
  noNul : 0 ∉ e.name
  component : ∃ b ∈ e.name, b ≠ slash
  mode : Octal (field tar (off + 100) 8) e.mode
  uid : Octal (field tar (off + 108) 8) e.uid
  gid : Octal (field tar (off + 116) 8) e.gid
  size : Octal (field tar (off + 124) 12) e.size
  mtime : Octal (field tar (off + 136) 12) e.mtime
  complete : off + 512 + e.size ≤ tar.length
  data : field tar (off + 512) e.size = e.data

/-- The bytes from `off` on are these entries, each padded to whole blocks, and then the end. -/
def EntriesAt (tar : List Byte) : Nat → List Entry → Prop
  | off, [] => tar.length ≤ off ∨ tar[off]? = some 0
  | off, e :: es => EntryAt tar off e ∧ EntriesAt tar (off + 512 + (e.size + 511) / 512 * 512) es

/-- An archive of these entries, which fits into an address space. -/
structure WellFormed (tar : List Byte) (entries : List Entry) : Prop where
  entries : EntriesAt tar 0 entries
  fits : tar.length ≤ 0xf0000000

/-- What a node should carry. -/
structure Carries (a : Attributes) (e : Entry) : Prop where
  sz : a.sz.toNat = e.size
  mode : a.mode = withType (.ofNat 32 e.mode) (e.name.getLast? = some slash)
  uid : a.uid.toNat = e.uid
  gid : a.gid.toNat = e.gid
  mtime : a.mtime.toNat = e.mtime
  data : (a.data.elim [] Data.bytes) = e.data

end Muxomucota.Tar
