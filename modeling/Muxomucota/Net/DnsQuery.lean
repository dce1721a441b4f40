import Muxomucota.Net.Wire
import Mathlib.Algebra.GroupWithZero.Nat
import Mathlib.Tactic.SplitIfs

/-!
# Net — the question of the DNS service

The first part of `update_ip` (`progs/common/dns/dns.c`), which puts the question into its buffer of 2048
bytes: byte after byte, with the length of a label in front of it.  The bytes that are there so far are a
list, and a store behind the buffer gives `none`.
-/

namespace Muxomucota.Net

def dnsDot : Byte := 0x2e

/-! ### The code -/

/-- `buf[o++] = b`. -/
def putByte (buf : List Byte) (b : Byte) : Option (List Byte) :=
  if buf.length < 2048 then some (buf ++ [b]) else none

/-- `buf[o++] = i - j; for (; j < i; j++) buf[o++] = dname[j];` -/
def putLabel (dname : List Byte) (i j : Nat) (buf : List Byte) : Option (List Byte) := do
  let buf ← putByte buf (.ofNat 8 (i - j))
  ((dname.drop j).take (i - j)).foldlM putByte buf

/-- The loop over the name, with what is behind `i`, and the last label. -/
def putName (dname : List Byte) : List Byte → (i j : Nat) → List Byte → Option (List Byte)
  | [], i, j, buf => if i - j ≠ 0 then putLabel dname i j buf else some buf
  | c :: cs, i, j, buf =>
      if c = dnsDot then do
        let buf ← putLabel dname i j buf
        putName dname cs (i + 1) (i + 1) buf
      else putName dname cs (i + 1) j buf

/-- Query 0: a standard query with one question. -/
def dnsHeader : List Byte := [0, 0, 1, 0, 0, 1, 0, 0, 0, 0, 0, 0]

/-- A host address, in the class of the Internet. -/
def typeAndClass : List Byte := [0, 1, 0, 1]

/-- The first `o` bytes of the buffer. -/
def dnsBuffer (dname : List Byte) : Option (List Byte) := do
  let buf ← dnsHeader.foldlM putByte []
  let buf ← putName dname dname 0 0 buf
  (0 :: typeAndClass).foldlM putByte buf

/-- What `update_ip` sends for a name; over TCP the length comes before it. -/
def dnsQuery (dname : List Byte) (useTcp : Bool) : Option (List Byte) :=
  (dnsBuffer dname).map fun buf => if useTcp then be16 (.ofNat 16 buf.length) ++ buf else buf

/-! ### The rules for labels -/

/-- The labels of a name: what stands between its dots, and nothing behind a dot at its end. -/
def nameLabels (dname : List Byte) : List (List Byte) :=
  let labels := dname.splitOn dnsDot
  if labels.getLast? = some [] then labels.dropLast else labels

/-- The bytes `bs` are a name with these labels, and `rest`. -/
inductive Encodes : List Byte → List (List Byte) → List Byte → Prop where
  | root (rest : List Byte) : Encodes (0 :: rest) [] rest
  | label {l bs rest : List Byte} {ls : List (List Byte)} (hpos : 0 < l.length) (hlong : l.length ≤ 63)
      (t : Encodes bs ls rest) : Encodes (.ofNat 8 l.length :: (l ++ bs)) (l :: ls) rest

/-- A query with one question, for the addresses of the name. -/
def IsQuery (dname query : List Byte) : Prop :=
  ∃ question, query = dnsHeader ++ question ∧ Encodes question (nameLabels dname) typeAndClass

/-- The query stays inside the buffer and asks for the name. -/
def AsksFor (dname : List Byte) (useTcp : Bool) : Prop :=
  ∃ query, query.length ≤ 2048 ∧ IsQuery dname query ∧
    dnsQuery dname useTcp = some (if useTcp then be16 (.ofNat 16 query.length) ++ query else query)

/-- How many bytes a label takes. -/
def labelSize (l : List Byte) : Nat := l.length + 1

/-- The condition: the labels have from 1 to 63 bytes, and the question has room. -/
structure Askable (dname : List Byte) : Prop where
  labels : ∀ l ∈ nameLabels dname, 0 < l.length ∧ l.length ≤ 63
  room : 12 + ((nameLabels dname).map labelSize).sum + 5 ≤ 2048

/-! ### Stores -/

variable {dname buf bs : List Byte}

/-- Stores have room or not. -/
theorem foldlM_putByte (bs : List Byte) : ∀ {buf : List Byte}, buf.length ≤ 2048 →
    bs.foldlM putByte buf = if buf.length + bs.length ≤ 2048 then some (buf ++ bs) else none := by
  induction bs with
  | nil =>
      intro buf h
      rw [List.foldlM_nil, List.append_nil]
      exact (if_pos h).symm
  | cons b bs ih =>
      intro buf h
      rw [List.foldlM_cons, putByte]
      by_cases hroom : buf.length < 2048
      · rw [if_pos hroom, Option.bind_eq_bind, Option.bind_some,
          ih (by rw [List.length_append]; exact hroom)]
        rw [List.append_assoc, List.singleton_append, List.length_append, List.length_singleton,
          List.length_cons, Nat.add_assoc, Nat.add_comm 1]
      · rw [if_neg hroom, if_neg (by rw [List.length_cons]; omega)]
        rfl

/-- A label as the loop stores it. -/
def labelBytes (l : List Byte) : List Byte := .ofNat 8 l.length :: l

/-- What the loop stores for labels. -/
def labelsBytes (ls : List (List Byte)) : List Byte := ls.flatMap labelBytes

theorem length_labelsBytes (ls : List (List Byte)) :
    (labelsBytes ls).length = (ls.map labelSize).sum := List.length_flatMap

theorem putLabel_eq {i j : Nat} {l : List Byte} (hl : (dname.drop j).take (i - j) = l)
    (hlen : l.length = i - j) (buf : List Byte) :
    putLabel dname i j buf = (labelBytes l).foldlM putByte buf := by
  rw [putLabel, labelBytes, List.foldlM_cons, hl, hlen]

/-! ### The loop -/

theorem splitOn_ne_nil (l : List Byte) : l.splitOn dnsDot ≠ [] := List.splitOn_ne_nil _ _

/-- The labels behind a label and its dot. -/
theorem nameLabels_dot {l cs : List Byte} (h : dnsDot ∉ l) :
    nameLabels (l ++ dnsDot :: cs) = l :: nameLabels cs := by
  have hne := splitOn_ne_nil cs
  rw [nameLabels, nameLabels, List.splitOn_append_cons_self_of_not_mem h]
  simp only [List.getLast?_cons_of_ne_nil hne, List.dropLast_cons_of_ne_nil hne]
  split <;> rfl

theorem nameLabels_last {l : List Byte} (h : dnsDot ∉ l) :
    nameLabels l = if l = [] then [] else [l] := by
  rw [nameLabels, List.splitOn_eq_singleton h]
  simp only [List.getLast?_singleton, Option.some.injEq, List.dropLast_singleton]

/-- The loop stores the labels: `l` is what is behind `j` of the label it is in. -/
theorem putName_eq : ∀ {cs l buf : List Byte} {i j : Nat}, dname.drop j = l ++ cs → i = j + l.length →
    dnsDot ∉ l → putName dname cs i j buf = (labelsBytes (nameLabels (l ++ cs))).foldlM putByte buf := by
  intro cs
  induction cs with
  | nil =>
      intro l buf i j hdrop hi hdot
      have htake : (dname.drop j).take (i - j) = l := by
        rw [hdrop, List.append_nil, hi, Nat.add_sub_cancel_left, List.take_length]
      rw [List.append_nil, nameLabels_last hdot, putName]
      have hlen : l.length = i - j := by omega
      by_cases hl : l = []
      · rw [if_pos hl, if_neg (by rw [← hlen, hl]; exact fun h => h rfl)]
        rfl
      · have hpos := List.length_pos_iff.mpr hl
        rw [if_neg hl, if_pos (by omega), putLabel_eq htake hlen, labelsBytes, List.flatMap_singleton]
  | cons c cs ih =>
      intro l buf i j hdrop hi hdot
      rw [putName]
      by_cases hc : c = dnsDot
      · subst hc
        have htake : (dname.drop j).take (i - j) = l := by
          rw [hdrop, hi, Nat.add_sub_cancel_left, List.take_left]
        have hnext : dname.drop (i + 1) = [] ++ cs := by
          rw [hi, Nat.add_assoc, ← List.drop_drop, hdrop, List.drop_append]
          simp
        rw [if_pos rfl, putLabel_eq htake (by omega), nameLabels_dot hdot, labelsBytes,
          List.flatMap_cons, List.foldlM_append]
        refine congrArg _ (funext fun buf => ?_)
        rw [ih hnext (Nat.add_zero _).symm List.not_mem_nil, List.nil_append, labelsBytes]
      · have hnext : dname.drop j = (l ++ [c]) ++ cs := by rw [hdrop, List.append_assoc]; rfl
        rw [if_neg hc, ih hnext (by rw [List.length_append, hi]; rfl), List.append_assoc]
        · rfl
        · rw [List.mem_append, List.mem_singleton]
          exact not_or.mpr ⟨hdot, fun h => hc h.symm⟩

/-- Everything that is stored. -/
def questionBytes (dname : List Byte) : List Byte :=
  labelsBytes (nameLabels dname) ++ 0 :: typeAndClass

theorem dnsBuffer_eq (dname : List Byte) : dnsBuffer dname =
    if (dnsHeader ++ questionBytes dname).length ≤ 2048 then some (dnsHeader ++ questionBytes dname)
    else none := by
  have hname (buf : List Byte) : putName dname dname 0 0 buf =
      (labelsBytes (nameLabels dname)).foldlM putByte buf :=
    putName_eq (l := []) rfl rfl List.not_mem_nil
  have hstores : dnsBuffer dname = (dnsHeader ++ questionBytes dname).foldlM putByte [] := by
    rw [dnsBuffer, questionBytes, List.foldlM_append]
    refine congrArg _ (funext fun buf => ?_)
    rw [List.foldlM_append, hname]
  rw [hstores, foldlM_putByte _ (Nat.zero_le _), List.length_nil, Nat.zero_add, List.nil_append]

/-! ### The theorem -/

theorem encodes_labels {rest : List Byte} : ∀ {ls : List (List Byte)},
    (∀ l ∈ ls, 0 < l.length ∧ l.length ≤ 63) → Encodes (labelsBytes ls ++ 0 :: rest) ls rest := by
  intro ls
  induction ls with
  | nil => exact fun _ => .root rest
  | cons l ls ih =>
      intro h
      obtain ⟨hpos, hlong⟩ := h l List.mem_cons_self
      have ht := ih fun l' hl' => h l' (List.mem_cons_of_mem l hl')
      rw [labelsBytes, List.flatMap_cons, List.append_assoc]
      exact .label hpos hlong ht

theorem Encodes.sizes {rest : List Byte} {ls : List (List Byte)} (h : Encodes bs ls rest) :
    ∀ l ∈ ls, 0 < l.length ∧ l.length ≤ 63 := by
  induction h with
  | root => exact fun l hl => absurd hl List.not_mem_nil
  | label hpos hlong _ ih =>
      intro l' hl'
      rcases List.mem_cons.mp hl' with rfl | hl'
      · exact ⟨hpos, hlong⟩
      · exact ih l' hl'

theorem length_questionBytes (dname : List Byte) :
    (dnsHeader ++ questionBytes dname).length =
      12 + ((nameLabels dname).map labelSize).sum + 5 := by
  have hheader : dnsHeader.length = 12 := rfl
  have htail : (0 :: typeAndClass).length = 5 := rfl
  rw [questionBytes, List.length_append, List.length_append, length_labelsBytes, hheader, htail,
    Nat.add_assoc]

/-- **When the question is the name.**  What is sent for a name stays inside the buffer and decodes to the
labels of the name, followed by the type and the class, exactly if these are labels and have room. -/
theorem asksFor_iff (dname : List Byte) (useTcp : Bool) : AsksFor dname useTcp ↔ Askable dname := by
  constructor
  · rintro ⟨query, hlen, ⟨question, -, henc⟩, hsent⟩
    refine ⟨henc.sizes, ?_⟩
    rw [← length_questionBytes]
    by_contra hlong
    rw [dnsQuery, dnsBuffer_eq, if_neg hlong] at hsent
    cases hsent
  · rintro ⟨hlabels, hroom⟩
    rw [← length_questionBytes] at hroom
    refine ⟨dnsHeader ++ questionBytes dname, hroom, ⟨_, rfl, encodes_labels hlabels⟩, ?_⟩
    rw [dnsQuery, dnsBuffer_eq, if_pos hroom]
    rfl

/-- The question for `a..b` has an empty label in it, which ends the name. -/
theorem emptyLabel_not_asked : ¬ AsksFor [0x61, dnsDot, dnsDot, 0x62] false := by
  rintro ⟨query, -, ⟨question, -, henc⟩, -⟩
  exact absurd (henc.sizes [] (by decide)).1 (by decide)

end Muxomucota.Net
