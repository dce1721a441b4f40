import Muxomucota.Console.Strings
import Mathlib.Tactic.SplitIfs

/-!
# Text — `vsnprintf`

`stdio/vsnprintf.c`.  `int` and `size_t` have 32 bits and wrap.  The buffer is the `n` bytes that are given,
and a write outside it gives `none`.  The argument list is a list of words, of double words and of
strings, and an argument of another sort than the conversion takes gives `none`; so do `%n` and the
conversions of floating-point numbers, which are not modelled.
-/

namespace Muxomucota.Text

open Console

/-- A character of the source. -/
def ch (c : Char) : Byte := BitVec.ofNat 8 c.toNat

/-- `int` and `size_t`. -/
abbrev CInt := BitVec 32

/-- `va_arg`: a word is an `int` or a `long` or a pointer, a double word a `long long`; a string is what is
before its NUL byte. -/
inductive Arg where
  | word (v : BitVec 32)
  | dword (v : BitVec 64)
  | string (s : Option (List Byte))

/-- `'h'`, `'l'`, `'L'`, and `'#'` for two of the last. -/
inductive Qualifier where
  | none | h | l | L | ll
  deriving DecidableEq

/-- What stands between the `%` and the conversion. -/
structure Spec where
  flags : Nat
  fieldWidth : CInt
  precision : CInt
  qualifier : Qualifier

/-- The variables of the output: `osize`, `str` and the buffer. -/
structure Out where
  osize : CInt
  str : Nat
  buffer : List Byte

namespace Out

/-- `if (osize++ < n) *(str++) = c`. -/
def put (n : CInt) (c : Byte) (o : Out) : Option Out :=
  if o.osize.toNat < n.toNat then
    if o.str < o.buffer.length then
      some { osize := o.osize + 1, str := o.str + 1, buffer := o.buffer.set o.str c }
    else none
  else some { o with osize := o.osize + 1 }

def putAll (n : CInt) : List Byte → Out → Option Out
  | [], o => some o
  | c :: cs, o => do
      let o ← o.put n c
      putAll n cs o

/-- The body of a loop that puts the same character. -/
def putN (n : CInt) (c : Byte) (k : Nat) (o : Out) : Option Out := putAll n (List.replicate k c) o

end Out

/-! ### Reading the format -/

/-- The loop for the flags; it ends at the first character that is none. -/
def readFlags : List Byte → (flags : Nat) → Nat × List Byte
  | [], flags => (flags, [])
  | c :: format, flags =>
      if c = ch '-' then readFlags format (flags ||| 0x10)
      else if c = ch '+' then readFlags format (flags ||| 0x04)
      else if c = ch ' ' then readFlags format (flags ||| 0x08)
      else if c = ch '#' then readFlags format (flags ||| 0x20)
      else if c = ch '0' then readFlags format (flags ||| 0x01)
      else (flags, c :: format)

/-- `skip_atoi`. -/
def skipAtoi : List Byte → (i : CInt) → CInt × List Byte
  | [], i => (i, [])
  | c :: s, i =>
      if isdigit c then skipAtoi s (i * 10 + BitVec.ofNat 32 c.toNat - 48) else (i, c :: s)

/-- `va_arg(argptr, int)`. -/
def wordArg : List Arg → Option (CInt × List Arg)
  | .word v :: args => some (v, args)
  | _ => none

/-- `va_arg(argptr, char *)`. -/
def stringArg : List Arg → Option (Option (List Byte) × List Arg)
  | .string s :: args => some (s, args)
  | _ => none

/-- `*format`, which is 0 at the end. -/
def char (format : List Byte) : Byte := format.headD 0

def readWidth (flags : Nat) (format : List Byte) (args : List Arg) :
    Option (Nat × CInt × List Byte × List Arg) :=
  if isdigit (char format) then
    let (fieldWidth, format) := skipAtoi format 0
    some (flags, fieldWidth, format, args)
  else if char format = ch '*' then do
    let (fieldWidth, args) ← wordArg args
    if fieldWidth.toInt < 0 then some (flags ||| 0x10, -fieldWidth, format.tail, args)
    else some (flags, fieldWidth, format.tail, args)
  else some (flags, -1, format, args)

/-- What stands behind a dot. -/
def precisionValue (format : List Byte) (args : List Arg) : Option (CInt × List Byte × List Arg) :=
  if isdigit (char format) then
    let (precision, format) := skipAtoi format 0
    some (precision, format, args)
  else if char format = ch '*' then do
    let (precision, args) ← wordArg args
    some (precision, format.tail, args)
  else some (-1, format, args)

def readPrecision (format : List Byte) (args : List Arg) : Option (CInt × List Byte × List Arg) :=
  if char format = ch '.' then do
    let (precision, format, args) ← precisionValue format.tail args
    some (if precision.toInt < 0 then 0 else precision, format, args)
  else some (-1, format, args)

def readQualifier (format : List Byte) : Qualifier × List Byte :=
  if char format = ch 'h' then (.h, format.tail)
  else if char format = ch 'l' then
    if char format.tail = ch 'l' then (.ll, format.tail.tail) else (.l, format.tail)
  else if char format = ch 'L' then
    if char format.tail = ch 'L' then (.ll, format.tail.tail) else (.L, format.tail)
  else (.none, format)

/-- From behind the `%` to the conversion. -/
def readSpec (format : List Byte) (args : List Arg) : Option (Spec × List Byte × List Arg) := do
  let (flags, format) := readFlags format 0
  let (flags, fieldWidth, format, args) ← readWidth flags format args
  let (precision, format, args) ← readPrecision format args
  let (qualifier, format) := readQualifier format
  some ({ flags, fieldWidth, precision, qualifier }, format, args)

/-! ### Numbers -/

/-- `digits[d]`. -/
def digitChar (upper : Bool) (d : Nat) : Byte :=
  BitVec.ofNat 8 (if d < 10 then 48 + d else if upper then 55 + d else 87 + d)

/-- The loop that takes the digits off a number, the last one first; `tmp` has room for 66. -/
def digitLoop (base : Nat) : (room : Nat) → Nat → List Nat
  | 0, _ => []
  | room + 1, num => if num = 0 then [] else num % base :: digitLoop base room (num / base)

/-- What `number` has worked out when it begins to write. -/
structure Field where
  type : Nat
  sign : Option Byte
  mark : List Byte
  size : CInt
  precision : CInt
  tmp : List Byte

/-- The sign of `num`, `num` without it and the room that is left. -/
def takeSign (type : Nat) (num : BitVec 64) (size : CInt) : Option Byte × BitVec 64 × CInt :=
  if type &&& 0x02 = 0 then (none, num, size)
  else if num.toInt < 0 then (some (ch '-'), -num, size - 1)
  else if type &&& 0x04 ≠ 0 then (some (ch '+'), num, size - 1)
  else if type &&& 0x08 ≠ 0 then (some (ch ' '), num, size - 1)
  else (none, num, size)

/-- The first part of `number`. -/
def numberField (num : BitVec 64) (base : Nat) (size precision : CInt) (type : Nat) : Option Field :=
  let upper : Bool := type &&& 0x40 ≠ 0
  let type := if type &&& 0x10 ≠ 0 then type &&& 0xFE else type
  if base < 2 ∨ 36 < base then none
  else
    let (sign, num, size) := takeSign type num size
    let mark : List Byte :=
      if type &&& 0x20 = 0 then []
      else if base = 8 then [ch '0']
      else if base = 16 then [ch '0', digitChar upper 33]
      else []
    let tmp := if num = 0 then [ch '0'] else (digitLoop base 66 num.toNat).map (digitChar upper)
    let precision :=
      if precision.toInt < tmp.length then BitVec.ofNat 32 tmp.length else precision
    some { type, sign, mark, size := size - BitVec.ofNat 32 mark.length - precision, precision, tmp }

/-- `while (size-- > 0)`: the rounds, and what is left in `size`. -/
def rounds (size : CInt) : Nat := size.toInt.toNat
def afterRounds (size : CInt) : CInt := if 0 < size.toInt then -1 else size - 1

/-- The second part of `number`. -/
def writeField (n : CInt) (f : Field) (o : Out) : Option Out := do
  let (size, o) ←
    if f.type &&& 0x11 = 0 then do
      let o ← o.putN n (ch ' ') (rounds f.size)
      some (afterRounds f.size, o)
    else some (f.size, o)
  let o ← o.putAll n f.sign.toList
  let o ← o.putAll n f.mark
  let (size, o) ←
    if f.type &&& 0x10 = 0 then do
      let o ← o.putN n (if f.type &&& 0x01 ≠ 0 then ch '0' else ch ' ') (rounds size)
      some (afterRounds size, o)
    else some (size, o)
  let o ← o.putN n (ch '0') (f.precision.toInt - f.tmp.length).toNat
  let o ← o.putAll n f.tmp.reverse
  o.putN n (ch ' ') (rounds size)

def number (n : CInt) (num : BitVec 64) (base : Nat) (size precision : CInt) (type : Nat) (o : Out) :
    Option Out := do
  let f ← numberField num base size precision type
  writeField n f o

/-! ### Conversions -/

/-- How an integer is to be converted: its base and what has been put and set before. -/
structure Integer where
  base : Nat
  flags : Nat
  fieldWidth : CInt
  qualifier : Qualifier
  put : List Byte

/-- The cases of the `switch` for integers, of `%P` and `%p` too; `none` is another conversion. -/
def integerOf (spec : Spec) (conv : Byte) : Option Integer :=
  let { flags, fieldWidth, qualifier, .. } := spec
  let pointer (fieldWidth : CInt) (flags : Nat) (qualifier : Qualifier) : Integer :=
    let (fieldWidth, flags) := if fieldWidth = -1 then (8, flags ||| 0x01) else (fieldWidth, flags)
    let qualifier := if qualifier = .none then .l else qualifier
    { base := 16, flags := flags ||| 0x40, fieldWidth, qualifier, put := [ch '0', ch 'x'] }
  if conv = ch 'P' then
    if fieldWidth = -1 then some (pointer 16 (flags ||| 0x01) .ll) else some (pointer fieldWidth flags .ll)
  else if conv = ch 'p' then some (pointer fieldWidth flags qualifier)
  else if conv = ch 'o' then some { base := 8, flags, fieldWidth, qualifier, put := [] }
  else if conv = ch 'X' then
    some { base := 16, flags := flags ||| 0x40, fieldWidth, qualifier, put := [] }
  else if conv = ch 'x' then some { base := 16, flags, fieldWidth, qualifier, put := [] }
  else if conv = ch 'd' ∨ conv = ch 'i' then
    some { base := 10, flags := flags ||| 0x02, fieldWidth, qualifier, put := [] }
  else if conv = ch 'u' then some { base := 10, flags, fieldWidth, qualifier, put := [] }
  else none

/-- The argument of an integer conversion, in `num`. -/
def fetch (flags : Nat) : Qualifier → List Arg → Option (BitVec 64 × List Arg)
  | .l, .word v :: args => some (v.setWidth 64, args)
  | .h, .word v :: args =>
      if flags &&& 0x02 ≠ 0 then some ((v &&& 0xFFFF).signExtend 64, args)
      else some ((v &&& 0xFFFF).setWidth 64, args)
  | .ll, .dword v :: args => some (v, args)
  | .none, .word v :: args | .L, .word v :: args =>
      if flags &&& 0x02 ≠ 0 then some (v.signExtend 64, args) else some (v.setWidth 64, args)
  | _, _ => none

/-- `%c`. -/
def putChar (n : CInt) (spec : Spec) (v : CInt) (o : Out) : Option Out := do
  let before := spec.fieldWidth - 1
  let (fieldWidth, o) ←
    if spec.flags &&& 0x01 = 0 then do
      let o ← o.putN n (ch ' ') (rounds before)
      some (if 0 < before.toInt then 0 else before, o)
    else some (spec.fieldWidth, o)
  let o ← o.put n (v.setWidth 8)
  o.putN n (ch ' ') (rounds (fieldWidth - 1))

/-- The loop of `%s`: the pointer goes on only when the character is written. -/
def stringLoop (n : CInt) : (len : Nat) → List Byte → Out → Option Out
  | 0, _, o => some o
  | len + 1, s, o => do
      let rest := if o.osize.toNat < n.toNat then s.tail else s
      let o ← o.put n (char s)
      stringLoop n len rest o

/-- What `%s` has in `s` and `len`. -/
def stringOf (precision : CInt) (s : Option (List Byte)) : List Byte × CInt :=
  let s := s.getD [ch '<', ch 'N', ch 'U', ch 'L', ch 'L', ch '>']
  (s, BitVec.ofNat 32 (min s.length precision.toNat))

/-- `while (len < field_width--)`. -/
def roundsFrom (len fieldWidth : CInt) : Nat := (fieldWidth.toInt - len.toInt).toNat

/-- `%s`. -/
def putString (n : CInt) (spec : Spec) (s : Option (List Byte)) (o : Out) : Option Out := do
  let (s, len) := stringOf spec.precision s
  let (fieldWidth, o) ←
    if spec.flags &&& 0x10 = 0 then do
      let o ← o.putN n (ch ' ') (roundsFrom len spec.fieldWidth)
      some (if len.toInt < spec.fieldWidth.toInt then len - 1 else spec.fieldWidth - 1, o)
    else some (spec.fieldWidth, o)
  let o ← stringLoop n len.toInt.toNat s o
  o.putN n (ch ' ') (roundsFrom len fieldWidth)

/-- `%n`, and `%E`, `%e`, `%F`, `%f`, `%G` and `%g`. -/
def isUnmodelled (conv : Byte) : Bool :=
  [ch 'n', ch 'E', ch 'e', ch 'F', ch 'f', ch 'G', ch 'g'].any (conv = ·)

/-- One conversion. -/
def convert (n : CInt) (spec : Spec) (conv : Byte) (args : List Arg) (o : Out) :
    Option (List Arg × Out) :=
  if conv = ch 'c' then do
    let (v, args) ← wordArg args
    let o ← putChar n spec v o
    some (args, o)
  else if conv = ch 's' then do
    let (s, args) ← stringArg args
    let o ← putString n spec s o
    some (args, o)
  else if isUnmodelled conv then none
  else match integerOf spec conv with
    | some i => do
        let o ← o.putAll n i.put
        let (num, args) ← fetch i.flags i.qualifier args
        let o ← number n num i.base i.fieldWidth spec.precision i.flags o
        some (args, o)
    | none => do
        let o ← if conv ≠ ch '%' then o.put n (ch '%') else some o
        let o ← if conv ≠ 0 then o.put n conv else some o
        some (args, o)

/-! ### The loop over the format -/

theorem readFlags_le : ∀ {format : List Byte} {flags : Nat},
    (readFlags format flags).2.length ≤ format.length := by
  intro format
  induction format with
  | nil => intro flags; exact Nat.le_refl _
  | cons c format ih =>
      intro flags
      have hcons : (c :: format).length = format.length + 1 := rfl
      rw [readFlags]
      split_ifs
      all_goals first | exact Nat.le_refl _ | exact Nat.le_succ_of_le ih

theorem skipAtoi_le : ∀ {s : List Byte} {i : CInt}, (skipAtoi s i).2.length ≤ s.length := by
  intro s
  induction s with
  | nil => intro i; exact Nat.le_refl _
  | cons c s ih =>
      intro i
      rw [skipAtoi]
      split_ifs
      · exact Nat.le_succ_of_le ih
      · exact Nat.le_refl _

theorem tail_le (format : List Byte) : format.tail.length ≤ format.length := by
  rw [List.length_tail]
  exact Nat.sub_le _ _

theorem readWidth_le {flags flags' : Nat} {format format' : List Byte} {args args' : List Arg}
    {width : CInt} (h : readWidth flags format args = some (flags', width, format', args')) :
    format'.length ≤ format.length := by
  rw [readWidth] at h
  split_ifs at h
  · cases h
    exact skipAtoi_le
  · obtain ⟨⟨w, rest⟩, -, h⟩ := Option.bind_eq_some_iff.mp h
    dsimp only at h
    split_ifs at h <;> cases h <;> exact tail_le _
  · cases h
    exact Nat.le_refl _

theorem precisionValue_le {format format' : List Byte} {args args' : List Arg} {precision : CInt}
    (h : precisionValue format args = some (precision, format', args')) :
    format'.length ≤ format.length := by
  rw [precisionValue] at h
  split_ifs at h
  · cases h
    exact skipAtoi_le
  · obtain ⟨⟨w, rest⟩, -, h⟩ := Option.bind_eq_some_iff.mp h
    cases h
    exact tail_le _
  · cases h
    exact Nat.le_refl _

theorem readPrecision_le {format format' : List Byte} {args args' : List Arg} {precision : CInt}
    (h : readPrecision format args = some (precision, format', args')) :
    format'.length ≤ format.length := by
  rw [readPrecision] at h
  split_ifs at h
  · obtain ⟨⟨p, f, a⟩, hp, h⟩ := Option.bind_eq_some_iff.mp h
    cases h
    exact Nat.le_trans (precisionValue_le hp) (tail_le _)
  · cases h
    exact Nat.le_refl _

theorem readQualifier_le (format : List Byte) : (readQualifier format).2.length ≤ format.length := by
  rw [readQualifier]
  split_ifs
  all_goals first
    | exact Nat.le_refl _
    | exact tail_le _
    | exact Nat.le_trans (tail_le _) (tail_le _)

theorem readSpec_le {format rest : List Byte} {args args' : List Arg} {spec : Spec}
    (h : readSpec format args = some (spec, rest, args')) : rest.length ≤ format.length := by
  rw [readSpec, Option.bind_eq_bind] at h
  obtain ⟨⟨flags, width, f, a⟩, hw, h⟩ := Option.bind_eq_some_iff.mp h
  obtain ⟨⟨precision, f', a'⟩, hp, h⟩ := Option.bind_eq_some_iff.mp h
  cases h
  exact Nat.le_trans (readQualifier_le _)
    (Nat.le_trans (readPrecision_le hp) (Nat.le_trans (readWidth_le hw) readFlags_le))

/-- The loop over the format. -/
def formatLoop (n : CInt) (format : List Byte) (args : List Arg) (o : Out) : Option Out :=
  match format with
  | [] => some o
  | c :: format =>
      if c ≠ ch '%' then do
        let o ← o.put n c
        formatLoop n format args o
      else
        match h : readSpec format args with
        | none => none
        | some (spec, rest, args) => do
            let (args, o) ← convert n spec (char rest) args o
            have := readSpec_le h
            formatLoop n rest.tail args o
termination_by format.length
decreasing_by
  · simp
  · rw [List.length_tail, List.length_cons]
    omega

/-- `format`, or what stands for NULL. -/
def formatOf (format : Option (List Byte)) : List Byte :=
  format.getD [ch '<', ch 'N', ch 'U', ch 'L', ch 'L', ch '>']

/-- `vsnprintf`: what it returns, and the buffer. -/
def vsnprintf (buffer : List Byte) (n : CInt) (format : Option (List Byte)) (args : List Arg) :
    Option (CInt × List Byte) := do
  let o ← formatLoop n (formatOf format) args { osize := 1, str := 0, buffer }
  let osize := o.osize - 1
  if osize.toNat ≤ n.toNat then
    if o.str < o.buffer.length then some (osize, o.buffer.set o.str 0) else none
  else some (osize, o.buffer)

end Muxomucota.Text
