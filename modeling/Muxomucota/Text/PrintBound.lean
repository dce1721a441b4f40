import Muxomucota.Text.Vsnprintf

/-!
# Text — what `vsnprintf` leaves in the buffer

The full output of a format is a list of characters that knows nothing of a buffer (`outputText`).  Every
function of `vsnprintf` emits its part of it: with room for the count, it puts these characters one after
the other, and in any case it counts them (`Emits`).
-/

namespace Muxomucota.Text

open Console

/-! ### The full output -/

/-- What `number` writes. -/
def fieldText (f : Field) : List Byte :=
  let left := if f.type &&& 0x11 = 0 then List.replicate (rounds f.size) (ch ' ') else []
  let size := if f.type &&& 0x11 = 0 then afterRounds f.size else f.size
  let pad := if f.type &&& 0x01 ≠ 0 then ch '0' else ch ' '
  let fill := if f.type &&& 0x10 = 0 then List.replicate (rounds size) pad else []
  let size := if f.type &&& 0x10 = 0 then afterRounds size else size
  left ++ (f.sign.toList ++ (f.mark ++ (fill ++
    (List.replicate (f.precision.toInt - f.tmp.length).toNat (ch '0') ++
      (f.tmp.reverse ++ List.replicate (rounds size) (ch ' '))))))

/-- What `%c` writes. -/
def charText (spec : Spec) (v : CInt) : List Byte :=
  let before := spec.fieldWidth - 1
  let left := if spec.flags &&& 0x01 = 0 then List.replicate (rounds before) (ch ' ') else []
  let fieldWidth :=
    if spec.flags &&& 0x01 = 0 then if 0 < before.toInt then 0 else before else spec.fieldWidth
  left ++ (v.setWidth 8 :: List.replicate (rounds (fieldWidth - 1)) (ch ' '))

/-- What `%s` writes. -/
def stringText (spec : Spec) (s : Option (List Byte)) : List Byte :=
  let (s, len) := stringOf spec.precision s
  let left :=
    if spec.flags &&& 0x10 = 0 then List.replicate (roundsFrom len spec.fieldWidth) (ch ' ') else []
  let fieldWidth :=
    if spec.flags &&& 0x10 = 0 then
      if len.toInt < spec.fieldWidth.toInt then len - 1 else spec.fieldWidth - 1
    else spec.fieldWidth
  left ++ (s.take len.toInt.toNat ++ List.replicate (roundsFrom len fieldWidth) (ch ' '))

/-- What a conversion writes, and the arguments behind its own. -/
def convertText (spec : Spec) (conv : Byte) (args : List Arg) : Option (List Byte × List Arg) :=
  if conv = ch 'c' then do
    let (v, args) ← wordArg args
    some (charText spec v, args)
  else if conv = ch 's' then do
    let (s, args) ← stringArg args
    some (stringText spec s, args)
  else if isUnmodelled conv then none
  else match integerOf spec conv with
    | some i => do
        let (num, args) ← fetch i.flags i.qualifier args
        let f ← numberField num i.base i.fieldWidth spec.precision i.flags
        some (i.put ++ fieldText f, args)
    | none =>
        some ((if conv ≠ ch '%' then [ch '%'] else []) ++ (if conv ≠ 0 then [conv] else []), args)

/-- The full output; `none` is an argument that does not match, or a conversion that is not modelled. -/
def outputText (format : List Byte) (args : List Arg) : Option (List Byte) :=
  match format with
  | [] => some []
  | c :: format =>
      if c ≠ ch '%' then (outputText format args).map (c :: ·)
      else
        match h : readSpec format args with
        | none => none
        | some (spec, rest, args) => do
            let (text, args) ← convertText spec (char rest) args
            have := readSpec_le h
            (outputText rest.tail args).map (text ++ ·)
termination_by format.length
decreasing_by
  · simp
  · rw [List.length_tail, List.length_cons]
    omega

/-- A format without conversions is its own output. -/
theorem outputText_plain {args : List Arg} : ∀ {format : List Byte}, (∀ c ∈ format, c ≠ ch '%') →
    outputText format args = some format := by
  intro format
  induction format with
  | nil => intro _; rw [outputText]
  | cons c format ih =>
      intro h
      rw [List.forall_mem_cons] at h
      rw [outputText, if_pos h.1, ih h.2]
      rfl

/-- A format that begins with a conversion. -/
theorem outputText_conversion {format rest : List Byte} {args args' : List Arg} {spec : Spec}
    (h : readSpec format args = some (spec, rest, args')) :
    outputText (ch '%' :: format) args = (convertText spec (char rest) args').bind fun r =>
      (outputText rest.tail r.2).map (r.1 ++ ·) := by
  rw [outputText, if_neg (not_not.mpr rfl)]
  split
  · rename_i hnone
    rw [h] at hnone
    cases hnone
  · rename_i spec' rest' args₂ hsome
    rw [h] at hsome
    cases hsome
    rfl

/-! ### Emitting -/

/-- `f` puts the characters of `text`, as far as the count goes, and counts all of them. -/
structure Emits (n : CInt) (f : Out → Option Out) (text : List Byte) : Prop where
  puts : ∀ o, o.osize.toNat + text.length < 2 ^ 32 → f o = o.putAll n text
  counts : ∀ o o', f o = some o' → o'.osize = o.osize + BitVec.ofNat 32 text.length

section Emit

variable {n : CInt}

theorem put_osize {o o' : Out} {c : Byte} (h : o.put n c = some o') : o'.osize = o.osize + 1 := by
  rw [Out.put] at h
  split_ifs at h <;> cases h <;> rfl

theorem putAll_osize : ∀ {text : List Byte} {o o' : Out}, o.putAll n text = some o' →
    o'.osize = o.osize + BitVec.ofNat 32 text.length := by
  intro text
  induction text with
  | nil =>
      intro o o' h
      cases h
      simp
  | cons c text ih =>
      intro o o' h
      obtain ⟨o₁, h₁, h⟩ := Option.bind_eq_some_iff.mp h
      rw [ih h, put_osize h₁, List.length_cons, BitVec.add_assoc, Nat.add_comm, BitVec.ofNat_add]
      rfl

theorem putAll_append (a b : List Byte) (o : Out) :
    o.putAll n (a ++ b) = (o.putAll n a).bind fun o => o.putAll n b := by
  induction a generalizing o with
  | nil => rfl
  | cons c a ih =>
      rw [List.cons_append, Out.putAll, Out.putAll, Option.bind_eq_bind, Option.bind_assoc]
      exact congrArg _ (funext ih)

theorem emits_putAll (text : List Byte) : Emits n (fun o => o.putAll n text) text :=
  ⟨fun _ _ => rfl, fun _ _ => putAll_osize⟩

/-- One thing after the other. -/
theorem Emits.comp {f g : Out → Option Out} {a b : List Byte} (hf : Emits n f a) (hg : Emits n g b) :
    Emits n (fun o => (f o).bind g) (a ++ b) := by
  refine ⟨fun o ho => ?_, fun o o' h => ?_⟩
  · rw [List.length_append] at ho
    rw [putAll_append, hf.puts o (by omega)]
    rcases hmid : o.putAll n a with _ | o₁
    · rfl
    · have hsize := putAll_osize hmid
      have hcount : o₁.osize.toNat = o.osize.toNat + a.length := by
        rw [hsize, BitVec.toNat_add, BitVec.toNat_ofNat]
        omega
      exact hg.puts o₁ (by omega)
  · obtain ⟨o₁, h₁, h⟩ := Option.bind_eq_some_iff.mp h
    rw [hg.counts o₁ o' h, hf.counts o o₁ h₁, BitVec.add_assoc, List.length_append, BitVec.ofNat_add]

theorem emits_nil : Emits n some [] := emits_putAll []

theorem emits_put (c : Byte) : Emits n (fun o => o.put n c) [c] := by
  have h := @emits_putAll n [c]
  simpa only [Out.putAll, Option.bind_eq_bind, Option.bind_some, Option.bind_fun_some] using h

theorem emits_putN (c : Byte) (k : Nat) : Emits n (fun o => o.putN n c k) (List.replicate k c) :=
  emits_putAll _

theorem Emits.congr {f g : Out → Option Out} {a : List Byte} (hf : Emits n f a)
    (heq : ∀ o, g o = f o) : Emits n g a := by
  have h : g = f := funext heq
  exact h ▸ hf

theorem Emits.ifThen {f : Out → Option Out} {a : List Byte} (hf : Emits n f a) (c : Prop)
    [Decidable c] : Emits n (fun o => if c then f o else some o) (if c then a else []) := by
  by_cases hc : c
  · simpa only [if_pos hc] using hf
  · simpa only [if_neg hc] using emits_nil

/-! ### The functions -/

theorem writeField_emits (f : Field) : Emits n (writeField n f) (fieldText f) := by
  refine Emits.congr (((emits_putN (ch ' ') (rounds f.size)).ifThen _).comp
    ((emits_putAll f.sign.toList).comp ((emits_putAll f.mark).comp
      (((emits_putN _ _).ifThen _).comp ((emits_putN (ch '0') _).comp
        ((emits_putAll f.tmp.reverse).comp (emits_putN (ch ' ') _))))))) fun o => ?_
  rw [writeField]
  by_cases hleft : f.type &&& 0x11 = 0 <;> by_cases hfill : f.type &&& 0x10 = 0 <;>
    simp only [hleft, hfill, if_true, if_false, Option.bind_eq_bind, Option.bind_some]

theorem putChar_emits (spec : Spec) (v : CInt) :
    Emits n (putChar n spec v) (charText spec v) := by
  refine Emits.congr (((emits_putN (ch ' ') (rounds (spec.fieldWidth - 1))).ifThen _).comp
    ((emits_put (v.setWidth 8)).comp (emits_putN (ch ' ') _))) fun o => ?_
  rw [putChar]
  by_cases hleft : spec.flags &&& 0x01 = 0 <;>
    simp only [hleft, if_true, if_false, Option.bind_eq_bind, Option.bind_some]

/-- Where the count has reached `n`, nothing is written any more. -/
theorem put_full {o : Out} (c : Byte) (h : n.toNat ≤ o.osize.toNat) :
    o.put n c = some { o with osize := o.osize + 1 } := if_neg (Nat.not_lt.mpr h)

theorem toNat_succ {o : CInt} (h : o.toNat + 1 < 2 ^ 32) : (o + 1).toNat = o.toNat + 1 := by
  rw [BitVec.toNat_add]
  exact Nat.mod_eq_of_lt h

theorem putAll_full : ∀ {text : List Byte} {o : Out}, n.toNat ≤ o.osize.toNat →
    o.osize.toNat + text.length < 2 ^ 32 →
    o.putAll n text = some { o with osize := o.osize + BitVec.ofNat 32 text.length } := by
  intro text
  induction text with
  | nil => intro o _ _; simp [Out.putAll]
  | cons c text ih =>
      intro o hn hlen
      rw [List.length_cons] at hlen
      have hsucc := @toNat_succ o.osize (by omega)
      rw [Out.putAll, put_full c hn, Option.bind_eq_bind, Option.bind_some,
        ih (by dsimp only; omega) (by dsimp only; omega), List.length_cons, BitVec.add_assoc,
        Nat.add_comm text.length, BitVec.ofNat_add]
      rfl

theorem stringLoop_osize : ∀ {len : Nat} {s : List Byte} {o o' : Out},
    stringLoop n len s o = some o' → o'.osize = o.osize + BitVec.ofNat 32 len := by
  intro len
  induction len with
  | zero =>
      intro s o o' h
      cases h
      simp
  | succ len ih =>
      intro s o o' h
      obtain ⟨o₁, h₁, h⟩ := Option.bind_eq_some_iff.mp h
      rw [ih h, put_osize h₁, BitVec.add_assoc, Nat.add_comm len, BitVec.ofNat_add]
      rfl

theorem stringLoop_full : ∀ {len : Nat} {s : List Byte} {o : Out}, n.toNat ≤ o.osize.toNat →
    o.osize.toNat + len < 2 ^ 32 →
    stringLoop n len s o = some { o with osize := o.osize + BitVec.ofNat 32 len } := by
  intro len
  induction len with
  | zero => intro s o _ _; simp [stringLoop]
  | succ len ih =>
      intro s o hn hlen
      have hsucc := @toNat_succ o.osize (by omega)
      rw [stringLoop, put_full _ hn, Option.bind_eq_bind, Option.bind_some,
        ih (by dsimp only; omega) (by dsimp only; omega), BitVec.add_assoc,
        Nat.add_comm len, BitVec.ofNat_add]
      rfl

/-- The loop of `%s` puts the string: its pointer stays behind only when nothing more is written. -/
theorem stringLoop_puts : ∀ {len : Nat} {s : List Byte} {o : Out}, len ≤ s.length →
    o.osize.toNat + len < 2 ^ 32 → stringLoop n len s o = o.putAll n (s.take len) := by
  intro len
  induction len with
  | zero => intro s o _ _; rfl
  | succ len ih =>
      intro s o hs hlen
      rcases s with _ | ⟨c, s⟩
      · cases hs
      rcases Nat.lt_or_ge o.osize.toNat n.toNat with hlt | hge
      · rw [stringLoop, if_pos hlt, List.take_succ_cons, Out.putAll]
        refine Option.bind_congr fun o₁ h₁ => ?_
        have hsize := put_osize h₁
        have hsucc := @toNat_succ o.osize (by omega)
        exact ih (Nat.le_of_succ_le_succ hs) (by rw [hsize]; omega)
      · have hlen' : ((c :: s).take (len + 1)).length = len + 1 := List.length_take_of_le hs
        rw [stringLoop_full hge hlen, putAll_full hge (by rw [hlen']; exact hlen), hlen']

theorem toInt_le (x : CInt) : x.toInt.toNat ≤ x.toNat := by
  rw [BitVec.toInt_eq_toNat_cond]
  split <;> omega

theorem stringOf_len (precision : CInt) (s : Option (List Byte)) :
    (stringOf precision s).2.toInt.toNat ≤ (stringOf precision s).1.length := by
  rw [stringOf]
  refine Nat.le_trans (toInt_le _) ?_
  rw [BitVec.toNat_ofNat]
  exact Nat.le_trans (Nat.mod_le _ _) (Nat.min_le_left _ _)

theorem putString_emits (spec : Spec) (s : Option (List Byte)) :
    Emits n (putString n spec s) (stringText spec s) := by
  have hlen := stringOf_len spec.precision s
  rcases hs : stringOf spec.precision s with ⟨s', len⟩
  rw [hs] at hlen
  have hloop : Emits n (stringLoop n len.toInt.toNat s') (s'.take len.toInt.toNat) := by
    have htake : (s'.take len.toInt.toNat).length = len.toInt.toNat := List.length_take_of_le hlen
    refine ⟨fun o ho => stringLoop_puts hlen (by omega), fun o o' h => ?_⟩
    rw [htake]
    exact stringLoop_osize h
  have htext : stringText spec s =
      (if spec.flags &&& 0x10 = 0 then List.replicate (roundsFrom len spec.fieldWidth) (ch ' ') else []) ++
        (s'.take len.toInt.toNat ++ List.replicate (roundsFrom len
          (if spec.flags &&& 0x10 = 0 then
            if len.toInt < spec.fieldWidth.toInt then len - 1 else spec.fieldWidth - 1
          else spec.fieldWidth)) (ch ' ')) := by
    rw [stringText, hs]
  rw [htext]
  refine Emits.congr (((emits_putN (ch ' ') (roundsFrom len spec.fieldWidth)).ifThen _).comp
    (hloop.comp (emits_putN (ch ' ') _))) fun o => ?_
  rw [putString, hs]
  by_cases hleft : spec.flags &&& 0x10 = 0 <;>
    simp only [hleft, if_true, if_false, Option.bind_eq_bind, Option.bind_some]

theorem number_emits {num : BitVec 64} {base type : Nat} {size precision : CInt} {f : Field}
    (h : numberField num base size precision type = some f) :
    Emits n (number n num base size precision type) (fieldText f) :=
  (writeField_emits f).congr fun o => by rw [number, h]; rfl

theorem bind_pair (r : Option Out) (args : List Arg) :
    (r.bind fun o => some (args, o)) = r.map fun o => (args, o) := by
  cases r <;> rfl

/-- A conversion emits its text and goes on with the arguments behind its own. -/
theorem convert_emits {spec : Spec} {conv : Byte} {args args' : List Arg} {text : List Byte}
    (h : convertText spec conv args = some (text, args')) :
    ∃ f, (∀ o, convert n spec conv args o = (f o).map fun o => (args', o)) ∧ Emits n f text := by
  rw [convertText] at h
  by_cases hc : conv = ch 'c'
  · rw [if_pos hc] at h
    obtain ⟨⟨v, rest⟩, hv, h⟩ := Option.bind_eq_some_iff.mp h
    cases h
    refine ⟨putChar n spec v, fun o => ?_, putChar_emits spec v⟩
    rw [convert, if_pos hc, hv]
    exact bind_pair _ _
  rw [if_neg hc] at h
  by_cases hs : conv = ch 's'
  · rw [if_pos hs] at h
    obtain ⟨⟨s, rest⟩, hv, h⟩ := Option.bind_eq_some_iff.mp h
    cases h
    refine ⟨putString n spec s, fun o => ?_, putString_emits spec s⟩
    rw [convert, if_neg hc, if_pos hs, hv]
    exact bind_pair _ _
  rw [if_neg hs] at h
  by_cases hu : isUnmodelled conv = true
  · rw [if_pos hu] at h
    cases h
  rw [if_neg hu] at h
  rcases hi : integerOf spec conv with _ | i
  · rw [hi] at h
    cases h
    refine ⟨_, fun o => ?_, ((emits_put (ch '%')).ifThen (conv ≠ ch '%')).comp
      ((emits_put conv).ifThen (conv ≠ 0))⟩
    rw [convert, if_neg hc, if_neg hs, if_neg hu, hi, ← bind_pair, Option.bind_assoc]
    dsimp only [Option.bind_eq_bind]
    split_ifs <;> rfl
  · rw [hi] at h
    obtain ⟨⟨num, rest⟩, hnum, h⟩ := Option.bind_eq_some_iff.mp h
    obtain ⟨f, hf, h⟩ := Option.bind_eq_some_iff.mp h
    cases h
    refine ⟨_, fun o => ?_, (emits_putAll i.put).comp (number_emits hf)⟩
    rw [convert, if_neg hc, if_neg hs, if_neg hu, hi, ← bind_pair, Option.bind_assoc]
    dsimp only
    rw [hnum]
    rfl

/-- The loop emits the full output. -/
theorem formatLoop_emits {format : List Byte} {args : List Arg} {text : List Byte}
    (h : outputText format args = some text) : Emits n (formatLoop n format args) text := by
  induction hlen : format.length using Nat.strongRecOn generalizing format args text with
  | _ k ih =>
      subst hlen
      rcases format with _ | ⟨c, format⟩
      · rw [outputText] at h
        cases h
        exact emits_nil.congr fun o => by rw [formatLoop]
      rw [outputText] at h
      by_cases hc : c ≠ ch '%'
      · rw [if_pos hc] at h
        obtain ⟨rest, hrest, rfl⟩ := Option.map_eq_some_iff.mp h
        refine ((emits_put c).comp (ih _ (by simp) hrest rfl)).congr fun o => ?_
        rw [formatLoop, if_pos hc]
        rfl
      · rw [if_neg hc] at h
        split at h
        · cases h
        · rename_i spec rest args' hspec
          obtain ⟨⟨text₁, args₂⟩, hconv, h⟩ := Option.bind_eq_some_iff.mp h
          obtain ⟨text₂, hrest, rfl⟩ := Option.map_eq_some_iff.mp h
          have hle := readSpec_le hspec
          have hshort : rest.tail.length < (c :: format).length := by
            rw [List.length_tail, List.length_cons]
            omega
          obtain ⟨f, hf, hemits⟩ := @convert_emits n _ _ _ _ _ hconv
          refine (hemits.comp (ih _ hshort hrest rfl)).congr fun o => ?_
          rw [formatLoop, if_neg hc]
          split
          · rename_i hnone
            rw [hspec] at hnone
            cases hnone
          · rename_i spec' rest' args₃ hspec'
            rw [hspec] at hspec'
            cases hspec'
            rw [hf, Option.bind_eq_bind, Option.bind_map]
            rfl

end Emit

/-! ### The buffer -/

section Buffer

variable {buffer : List Byte} {n : CInt} {text : List Byte}

/-- The variables when the characters of `done` have been put. -/
def outAfter (buffer : List Byte) (n : CInt) (done : List Byte) : Out where
  osize := BitVec.ofNat 32 (1 + done.length)
  str := min (n.toNat - 1) done.length
  buffer := done.take (n.toNat - 1) ++ buffer.drop (min (n.toNat - 1) done.length)

theorem outAfter_put {done : List Byte} (c : Byte) (hbuf : buffer.length = n.toNat)
    (hlen : 1 + done.length < 2 ^ 32) :
    (outAfter buffer n done).put n c = some (outAfter buffer n (done ++ [c])) := by
  have hsize : (BitVec.ofNat 32 (1 + done.length)).toNat = 1 + done.length := by
    rw [BitVec.toNat_ofNat]
    exact Nat.mod_eq_of_lt hlen
  have hnext : (outAfter buffer n done).osize + 1 = BitVec.ofNat 32 (1 + (done ++ [c]).length) := by
    rw [outAfter, List.length_append, List.length_singleton, ← Nat.add_assoc, BitVec.ofNat_add _ 1]
    rfl
  rcases Nat.lt_or_ge (1 + done.length) n.toNat with hlt | hge
  · obtain ⟨k, hk⟩ : ∃ k, n.toNat = k + 1 := ⟨n.toNat - 1, by omega⟩
    have hmin : min (n.toNat - 1) done.length = done.length := by omega
    have hmin' : min (n.toNat - 1) (done ++ [c]).length = done.length + 1 := by
      rw [List.length_append, List.length_singleton]
      omega
    have hdrop : buffer.drop done.length =
        buffer[done.length] :: buffer.drop (done.length + 1) := List.drop_eq_getElem_cons (by omega)
    have htake : done.take (n.toNat - 1) = done := List.take_of_length_le (by omega)
    have htake' : (done ++ [c]).take (n.toNat - 1) = done ++ [c] :=
      List.take_of_length_le (by rw [List.length_append, List.length_singleton]; omega)
    rw [Out.put, hnext, if_pos (by rw [outAfter, hsize]; exact hlt)]
    rw [outAfter, outAfter, hmin, hmin', htake, htake', hdrop,
      if_pos (by simp only [List.length_append, List.length_cons]; omega),
      List.set_append_right _ _ (Nat.le_refl _), Nat.sub_self, List.set_cons_zero, List.append_assoc]
    rfl
  · have hmin : min (n.toNat - 1) done.length = n.toNat - 1 := by omega
    have hmin' : min (n.toNat - 1) (done ++ [c]).length = n.toNat - 1 := by
      rw [List.length_append]
      omega
    rw [put_full c (by rw [outAfter, hsize]; exact hge), hnext, outAfter, outAfter, hmin, hmin',
      List.take_append_of_le_length (by omega)]

theorem outAfter_putAll : ∀ {text done : List Byte}, buffer.length = n.toNat →
    (done ++ text).length < 2 ^ 32 →
    (outAfter buffer n done).putAll n text = some (outAfter buffer n (done ++ text)) := by
  intro text
  induction text with
  | nil => intro done _ _; rw [List.append_nil]; rfl
  | cons c text ih =>
      intro done hbuf hlen
      rw [List.length_append, List.length_cons] at hlen
      rw [Out.putAll, outAfter_put c hbuf (by omega), Option.bind_eq_bind, Option.bind_some,
        ih hbuf (by rw [List.length_append, List.length_append, List.length_singleton]; omega),
        List.append_assoc, List.singleton_append]

theorem outAfter_nil : outAfter buffer n [] = { osize := 1, str := 0, buffer } := by
  rw [outAfter, List.length_nil, Nat.min_zero, List.take_nil, List.drop_zero, List.nil_append]
  rfl

theorem toNat_pos (hn : n ≠ 0) : 0 < n.toNat :=
  Nat.pos_of_ne_zero fun h => hn (BitVec.eq_of_toNat_eq h)

/-- The first part of the buffer is output, the rest is as it was. -/
theorem outAfter_take : (outAfter buffer n text).buffer.take (min (n.toNat - 1) text.length) =
    text.take (n.toNat - 1) := by
  rw [outAfter]
  exact List.take_left' List.length_take

theorem outAfter_rest : (outAfter buffer n text).buffer[min (n.toNat - 1) text.length]? =
    buffer[min (n.toNat - 1) text.length]? := by
  rw [outAfter, List.getElem?_append_right (Nat.le_of_eq List.length_take), List.length_take,
    Nat.sub_self, List.getElem?_drop, Nat.add_zero]

theorem length_outAfter (hbuf : buffer.length = n.toNat) :
    (outAfter buffer n text).buffer.length = n.toNat := by
  rw [outAfter, List.length_append, List.length_take, List.length_drop, hbuf]
  omega

end Buffer

/-- What is to come of a call: it stays in the `n` bytes, returns the length of the full output, and leaves
as much of it as there is room for, with a NUL byte behind it. -/
def PrintsWithin (buffer : List Byte) (n : CInt) (format : Option (List Byte)) (args : List Arg)
    (text : List Byte) : Prop :=
  ∃ ret buffer', vsnprintf buffer n format args = some (ret, buffer') ∧ ret.toInt = text.length ∧
    (n ≠ 0 → buffer'.take (min (n.toNat - 1) text.length) = text.take (n.toNat - 1) ∧
      buffer'[min (n.toNat - 1) text.length]? = some 0)

section Bound

variable {buffer : List Byte} {n : CInt} {format : Option (List Byte)} {args : List Arg}
  {text : List Byte}

/-- What is returned, also when the count has wrapped. -/
theorem vsnprintf_ret {ret : CInt} {buffer' : List Byte}
    (hout : outputText (formatOf format) args = some text)
    (h : vsnprintf buffer n format args = some (ret, buffer')) :
    ret = BitVec.ofNat 32 text.length := by
  obtain ⟨o, ho, h⟩ := Option.bind_eq_some_iff.mp h
  have hsize : o.osize - 1 = BitVec.ofNat 32 text.length := by
    rw [(formatLoop_emits hout).counts _ _ ho, BitVec.add_comm]
    exact BitVec.add_sub_cancel _ _
  dsimp only at h
  split_ifs at h <;> cases h <;> exact hsize

/-- The end of `vsnprintf`, when the count has not wrapped. -/
theorem vsnprintf_eq (hbuf : buffer.length = n.toNat)
    (hout : outputText (formatOf format) args = some text) (hlen : text.length < 2 ^ 31) :
    vsnprintf buffer n format args =
      if text.length ≤ n.toNat then
        if min (n.toNat - 1) text.length < n.toNat then
          some (BitVec.ofNat 32 text.length,
            (outAfter buffer n text).buffer.set (min (n.toNat - 1) text.length) 0)
        else none
      else some (BitVec.ofNat 32 text.length, (outAfter buffer n text).buffer) := by
  have hstart : (outAfter buffer n []).osize.toNat + text.length < 2 ^ 32 := by
    have hone : (outAfter buffer n []).osize.toNat = 1 := rfl
    omega
  have hloop := (@formatLoop_emits n _ _ _ hout).puts _ hstart
  rw [outAfter_putAll hbuf (by rw [List.nil_append]; omega), List.nil_append, outAfter_nil] at hloop
  have hsize : (outAfter buffer n text).osize - 1 = BitVec.ofNat 32 text.length := by
    rw [outAfter, BitVec.ofNat_add, BitVec.add_comm]
    exact BitVec.add_sub_cancel _ _
  have hnat : (BitVec.ofNat 32 text.length).toNat = text.length := by
    rw [BitVec.toNat_ofNat]
    exact Nat.mod_eq_of_lt (by omega)
  rw [vsnprintf, hloop, Option.bind_eq_bind, Option.bind_some]
  dsimp only
  rw [hsize, hnat, length_outAfter hbuf]
  rfl

/-- The string in a buffer that is larger than the output. -/
theorem vsnprintf_string (hbuf : buffer.length = n.toNat)
    (hout : outputText (formatOf format) args = some text) (hlen : text.length < 2 ^ 31)
    (hfit : text.length < n.toNat) (h0 : 0 ∉ text) :
    ∃ buffer', vsnprintf buffer n format args = some (BitVec.ofNat 32 text.length, buffer') ∧
      buffer'.takeWhile (· ≠ 0) = text := by
  have hmin : min (n.toNat - 1) text.length = text.length := by omega
  obtain ⟨b, rest, hrest⟩ : ∃ b rest, buffer.drop text.length = b :: rest :=
    ⟨_, _, List.drop_eq_getElem_cons (by omega)⟩
  rw [vsnprintf_eq hbuf hout hlen, if_pos (by omega), if_pos (by omega), hmin]
  refine ⟨_, rfl, ?_⟩
  rw [outAfter, hmin, List.take_of_length_le (by omega), hrest,
    List.set_append_right _ _ (Nat.le_refl _), Nat.sub_self, List.set_cons_zero,
    List.takeWhile_append_of_pos]
  · simp
  · intro c hc
    exact decide_eq_true fun h => h0 (h ▸ hc)

/-- **`vsnprintf` keeps to its buffer and terminates it exactly when the output has no more characters than
the buffer has bytes** (or the last byte was 0 before), is not empty where the buffer is, and has a length
that is an `int`. -/
theorem vsnprintf_within_iff (hbuf : buffer.length = n.toNat)
    (hout : outputText (formatOf format) args = some text) :
    PrintsWithin buffer n format args text ↔ text.length < 2 ^ 31 ∧
      if n = 0 then text ≠ []
      else text.length ≤ n.toNat ∨ buffer[n.toNat - 1]? = some 0 := by
  constructor
  · rintro ⟨ret, buffer', h, hret, hbytes⟩
    have hlen : text.length < 2 ^ 31 := by
      have hlt := @BitVec.toInt_lt 32 ret
      omega
    refine ⟨hlen, ?_⟩
    rw [vsnprintf_eq hbuf hout hlen] at h
    by_cases hn : n = 0
    · rw [if_pos hn]
      rintro rfl
      subst hn
      cases h
    · rw [if_neg hn]
      have hpos : 0 < n.toNat := toNat_pos hn
      by_cases hle : text.length ≤ n.toNat
      · exact Or.inl hle
      · rw [if_neg hle] at h
        cases h
        have hzero := (hbytes hn).2
        rw [outAfter_rest, Nat.min_eq_left (by omega)] at hzero
        exact Or.inr hzero
  · rintro ⟨hlen, hcond⟩
    have hret : (BitVec.ofNat 32 text.length).toInt = text.length := by
      have hnat : (BitVec.ofNat 32 text.length).toNat = text.length := by
        rw [BitVec.toNat_ofNat]
        exact Nat.mod_eq_of_lt (by omega)
      rw [BitVec.toInt_eq_toNat_of_lt (by rw [hnat]; omega), hnat]
    rw [PrintsWithin, vsnprintf_eq hbuf hout hlen]
    by_cases hn : n = 0
    · rw [if_pos hn] at hcond
      have hpos := List.length_pos_iff.mpr hcond
      subst hn
      have hzero : (0 : CInt).toNat = 0 := rfl
      rw [hzero, if_neg (by omega)]
      exact ⟨_, _, rfl, hret, fun h => absurd rfl h⟩
    · rw [if_neg hn] at hcond
      have hpos : 0 < n.toNat := toNat_pos hn
      have hlt : min (n.toNat - 1) text.length < n.toNat := by omega
      by_cases hle : text.length ≤ n.toNat
      · rw [if_pos hle, if_pos hlt]
        refine ⟨_, _, rfl, hret, fun _ => ⟨?_, ?_⟩⟩
        · rw [List.take_set_of_le (Nat.le_refl _), outAfter_take]
        · rw [List.getElem?_set_self (by rw [length_outAfter hbuf]; exact hlt)]
      · rw [if_neg hle]
        refine ⟨_, _, rfl, hret, fun _ => ⟨outAfter_take, ?_⟩⟩
        rw [outAfter_rest, Nat.min_eq_left (by omega)]
        exact hcond.resolve_left hle

end Bound

theorem two_of_three : PrintsWithin [1, 1, 1] 3 (some [ch 'a', ch 'b']) [] [ch 'a', ch 'b'] :=
  (vsnprintf_within_iff rfl (outputText_plain (by decide))).mpr (by decide)

/-- `abc` leaves two bytes without a NUL byte, and nothing at all is written to no bytes. -/
theorem unterminated :
    ¬ PrintsWithin [1, 1] 2 (some [ch 'a', ch 'b', ch 'c']) [] [ch 'a', ch 'b', ch 'c'] ∧
    ¬ PrintsWithin [] 0 (some []) [] [] := by
  have habc : outputText (formatOf (some [ch 'a', ch 'b', ch 'c'])) [] =
    some [ch 'a', ch 'b', ch 'c'] := outputText_plain (by decide)
  have hnil : outputText (formatOf (some [])) [] = some [] := outputText_plain (by decide)
  refine ⟨?_, ?_⟩
  · rintro ⟨ret, buffer', h, -, hbytes⟩
    rw [vsnprintf_eq rfl habc (by decide)] at h
    cases h
    exact absurd (hbytes (by decide)).2 (by decide)
  · rintro ⟨ret, buffer', h, -, -⟩
    rw [vsnprintf_eq rfl hnil (by decide)] at h
    cases h

end Muxomucota.Text
