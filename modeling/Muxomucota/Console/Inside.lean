import Muxomucota.Console.Bounded

/-!
# Console — what is read inside the input

Where a number, a position, a sequence or a character ends inside the input, the checked functions answer
what the others do.  So a pass goes on with what `item` says (`dispatch_of_item`), and where it goes on
`item` has said so, but for a sequence with an unknown last byte behind the end of `size`
(`dispatch_again`).
-/

namespace Muxomucota.Console

def Item.isUnknown : Item → Bool
  | .unknown => true
  | _ => false

namespace Bounded

variable {l : List Byte} {size k r base room m uni len a : Nat} {it : Item} {p q : Printing}

/-! ### What is inside is read -/

theorem getElem?_ofList {i : Nat} (h : i < l.length) : l[i]? = some (Ptr.ofList l i) := by
  simp [Ptr.ofList, h]

@[simp] theorem ofList_drop (l : List Byte) (n : Nat) : Ptr.ofList (l.drop n) = (Ptr.ofList l).add n := by
  funext i
  simp [Ptr.ofList]

theorem ofList_append {i : Nat} (h : i < l.length) (l' : List Byte) :
    Ptr.ofList (l ++ l') i = Ptr.ofList l i := by
  simp only [Ptr.ofList, List.getD_eq_getElem?_getD]
  rw [List.getElem?_append_left h]

theorem ofList_tail (l : List Byte) : Ptr.ofList l.tail = (Ptr.ofList l).add 1 := by
  rw [← List.drop_one, ofList_drop]

theorem readDigits_inside (hm : m < l.length)
    (hend : ¬ (isalnum (Ptr.ofList l m) = true ∧ digitOf (Ptr.ofList l m) < base)) :
    Text.readDigits base room l = readDigits base room (.ofList l) := by
  induction room generalizing l m with
  | zero => rfl
  | succ room ih =>
      cases l with
      | nil => exact absurd hm (Nat.not_lt_zero m)
      | cons c l =>
          have hc : Ptr.ofList (c :: l) 0 = c := rfl
          rw [Text.readDigits, readDigits_succ, hc]
          split
          · rename_i hdigit
            cases m with
            | zero => exact absurd hdigit hend
            | succ m =>
                have htail : (Ptr.ofList (c :: l)).add 1 = .ofList l := (ofList_tail (c :: l)).symm
                rw [htail, ih (Nat.lt_of_succ_lt_succ hm) hend]
          · rfl

theorem strtol_inside (hm : m < l.length) (hend : EndsNumber (Ptr.ofList l m)) :
    Text.strtol l 10 = strtol (.ofList l) 10 := by
  obtain ⟨hdigit, hplus, hminus⟩ := hend
  have hpos : (if Ptr.ofList l 0 = 43 ∨ Ptr.ofList l 0 = 45 then 1 else 0) ≤ m := by
    split
    · rename_i hsign
      cases m with
      | zero => exact absurd hsign (not_or.mpr ⟨hplus, hminus⟩)
      | succ m => omega
    · exact Nat.zero_le m
  have hread := @Text.strtoll_read 10 (by decide) (by decide) l
  rw [Nat.cast_ofNat, getElem?_ofList (Nat.lt_of_le_of_lt (Nat.zero_le m) hm), Option.bind_some] at hread
  rw [strtol, Text.strtol, Text.strtol, hread, strtoll_read]
  dsimp only
  generalize (if Ptr.ofList l 0 = 43 ∨ Ptr.ofList l 0 = 45 then 1 else 0) = pos at hpos ⊢
  rw [readDigits_inside (m := m - pos) (by rw [List.length_drop]; omega), ofList_drop]
  · rw [ofList_drop, Ptr.add_apply, Nat.add_sub_cancel' hpos]
    exact hdigit

theorem position_inside (hk : k < l.length) (hf : Ptr.ofList l k = 102 ∨ Ptr.ofList l k = 72) :
    position l k = Console.position (.ofList l) k := by
  have hends : EndsNumber (Ptr.ofList l k) := by
    rcases hf with hf | hf <;> rw [hf] <;> exact ⟨by decide, by decide, by decide⟩
  have hsemi : Ptr.ofList l k ≠ 59 := by
    rcases hf with hf | hf <;> rw [hf] <;> decide
  unfold position Console.position
  rw [strtol_inside hk hends]
  split
  · rfl
  cases h : strtol (.ofList l) 10 with
  | none => rfl
  | some res =>
      obtain ⟨v, np⟩ := res
      have hnp := (strtol_congr (fun _ _ => rfl) hends).2 v np h
      simp only [Option.bind_eq_bind, Option.bind_some,
        getElem?_ofList (Nat.lt_of_le_of_lt hnp hk)]
      split
      · rfl
      rename_i hgo
      have hlt : np < k := by
        refine Nat.lt_of_le_of_ne hnp fun heq => hgo (.inl ?_)
        rw [heq]
        exact hsemi
      have hk' : Ptr.ofList (l.drop (np + 1)) (k - (np + 1)) = Ptr.ofList l k := by
        rw [ofList_drop, Ptr.add_apply, Nat.add_sub_cancel' hlt]
      have hends' : EndsNumber (Ptr.ofList (l.drop (np + 1)) (k - (np + 1))) := hk' ▸ hends
      rw [strtol_inside (by rw [List.length_drop]; omega) hends', ofList_drop]
      cases h' : strtol ((Ptr.ofList l).add (np + 1)) 10 with
      | none => rfl
      | some res =>
          obtain ⟨v', np'⟩ := res
          rw [ofList_drop] at hends'
          have hnp' := (strtol_congr (fun _ _ => rfl) hends').2 v' np' h'
          simp only [Option.bind_some, getElem?_ofList (i := np + 1 + np') (l := l) (by omega)]

theorem scan_inside (h : Console.scan size (.ofList l) = some (k, r)) (hk : k < l.length) :
    scan size l = some (some (k, r)) := by
  induction l generalizing size k r with
  | nil => exact absurd hk (Nat.not_lt_zero k)
  | cons c l ih =>
      have hc : Ptr.ofList (c :: l) 0 = c := rfl
      rw [scan_cons, hc] at h
      cases size with
      | zero =>
          simp only [scan]
          split at h
          · rename_i hfin
            cases h
            rw [if_pos hfin]
          · cases h
      | succ size =>
          simp only [scan]
          split at h
          · rename_i hfin
            cases h
            rw [if_pos hfin]
          · rename_i hfin
            obtain ⟨⟨k', r'⟩, h', heq⟩ := Option.map_eq_some_iff.mp h
            cases heq
            have htail : (Ptr.ofList (c :: l)).add 1 = .ofList l := (ofList_tail (c :: l)).symm
            rw [if_neg hfin, ih (htail ▸ h') (Nat.lt_of_succ_lt_succ hk)]
            rfl

theorem decode_inside (hpos : 0 < l.length)
    (h : size < seqLen (Ptr.ofList l 0) ∨ seqLen (Ptr.ofList l 0) ≤ l.length) :
    decode l size = some (Console.decode (.ofList l) size) := by
  unfold decode Console.decode
  unfold seqLen at h
  rw [getElem?_ofList hpos]
  dsimp only [Option.bind_eq_bind, Option.bind_some]
  split_ifs at h ⊢
  all_goals first | rfl | omega | skip
  · rw [getElem?_ofList (by omega), getElem?_ofList (by omega), getElem?_ofList (by omega)]
    rfl
  · rw [getElem?_ofList (by omega), getElem?_ofList (by omega)]
    rfl
  · rw [getElem?_ofList (by omega)]
    rfl

/-- The bytes of a character are inside. -/
theorem decode_length (h : decode l size = some (.char uni len)) : 0 < len ∧ len ≤ l.length := by
  have hlt : ∀ {i : Nat} {b : Byte}, l[i]? = some b → i < l.length := fun h =>
    (List.getElem?_eq_some_iff.mp h).1
  obtain ⟨b, hb, h⟩ := Option.bind_eq_some_iff.mp h
  have h₀ := hlt hb
  split at h
  · split at h
    · cases h
    · obtain ⟨b₁, -, h⟩ := Option.bind_eq_some_iff.mp h
      obtain ⟨b₂, -, h⟩ := Option.bind_eq_some_iff.mp h
      obtain ⟨b₃, hb₃, h⟩ := Option.bind_eq_some_iff.mp h
      cases h
      exact ⟨by decide, hlt hb₃⟩
  split at h
  · split at h
    · cases h
    · obtain ⟨b₁, -, h⟩ := Option.bind_eq_some_iff.mp h
      obtain ⟨b₂, hb₂, h⟩ := Option.bind_eq_some_iff.mp h
      cases h
      exact ⟨by decide, hlt hb₂⟩
  split at h
  · split at h
    · cases h
    · obtain ⟨b₁, hb₁, h⟩ := Option.bind_eq_some_iff.mp h
      cases h
      exact ⟨by decide, hlt hb₁⟩
  split at h
  all_goals
    cases h
    exact ⟨by decide, h₀⟩

/-! ### What an escape sequence says -/

/-- Where the loop goes on. -/
def Outcome.go : Outcome → Option Printing
  | .again p => some p
  | _ => none

theorem go_eq {x : Option Outcome} (h : x.bind Outcome.go = some q) : x = some (.again q) := by
  obtain ⟨o, rfl, ho⟩ := Option.bind_eq_some_iff.mp h
  cases o with
  | again p => exact congrArg (some ∘ Outcome.again) (Option.some.inj ho)
  | stop | early => cases ho

theorem next_go (p : Printing) :
    p.next.go = if p.size = 0 then none else some { p with s := p.s.tail, size := p.size - 1 } := by
  unfold Printing.next
  split <;> rfl

/-- At the last byte of a sequence. -/
theorem escape_sequence (hb : p.s[0]? = some 91) (hz : p.size ≠ 0)
    (hscan : scan (p.size - 1) p.s.tail = some (some (k, r))) (hk : k < p.s.tail.length) :
    (escape p).bind Outcome.go = (sequence (.ofList p.s.tail) k).bind fun it =>
      if it.isUnknown then some { p with size := sizeAdd r (k - 1) }
      else if r = 0 then none
      else some { toTerminal := it.act p.toTerminal, s := p.s.drop (k + 2), size := r - 1 } := by
  have htake : (Ptr.ofList p.s.tail).take k = p.s.tail.take k :=
    (Holds.ofList p.s.tail).take (Nat.le_of_lt hk)
  have hbehind : (p.s.tail.drop k).tail = p.s.drop (k + 2) := by
    rw [← List.drop_one, List.drop_drop, ← List.drop_one, List.drop_drop]
    congr 1
    omega
  have hgo : ∀ t : Terminal, ({ toTerminal := t, s := p.s.tail.drop k, size := r } : Printing).next.go =
      if r = 0 then none else some { toTerminal := t, s := p.s.drop (k + 2), size := r - 1 } := fun t => by
    rw [next_go, ← hbehind]
  unfold escape sequence
  simp only [hb, Option.bind_eq_bind, Option.bind_some, ne_eq, not_true_eq_false, if_false, if_neg hz, hscan,
    getElem?_ofList hk, getElem?_ofList (i := 0) (l := p.s.tail) (by omega), htake]
  split
  · cases colourNumbers (p.s.tail.take k) with
    | none => rfl
    | some nums => exact hgo _
  split
  · split
    · exact hgo _
    · exact hgo _
  split
  · -- a position is looked at after `size`
    rename_i hpos
    rw [position_inside hk hpos]
    cases r with
    | zero =>
        cases Console.position (.ofList p.s.tail) k with
        | none => rfl
        | some pos => cases pos <;> rfl
    | succ r =>
        cases Console.position (.ofList p.s.tail) k with
        | none => rfl
        | some pos =>
            cases pos with
            | none => exact hgo _
            | some xy => exact hgo _
  split
  · exact hgo _
  split
  · exact hgo _
  · rfl

theorem item_of_scan {s : Ptr} (hb : s 0 = 91) (hz : size ≠ 0)
    (hscan : Console.scan (size - 1) (s.add 1) = some (k, r + 1)) (hseq : sequence (s.add 1) k = some it) :
    item 27 s size = some (if it.isUnknown then (.unknown, 0, size - 2) else (it, k + 2, r)) := by
  rw [item, if_neg (fun hne => hne rfl), if_neg (fun hne => hne hb), if_neg hz, hscan]
  dsimp only
  rw [hseq]
  cases it <;> rfl

/-- A sequence that does not end the call: its last byte is known and counted in `size`, or it is unknown and the
bracket is read again. -/
theorem escape_again (hn : p.size < 2 ^ 32) (h : escape p = some (.again q)) : p.s ≠ [] ∧
    ((∃ it a r, it.isUnknown = false ∧ item 27 (.ofList p.s) p.size = some (it, a, r) ∧ a ≤ p.s.length ∧
      q = { toTerminal := it.act p.toTerminal, s := p.s.drop a, size := r }) ∨
    (p.s[0]? = some 91 ∧ 0 < p.size ∧ q = { p with size := sizeAdd p.size (-2) } ∧
      (p.size = p.s.length → item 27 (.ofList p.s) p.size = some (.unknown, 0, p.size - 2)))) := by
  obtain ⟨c, hc, h'⟩ := Option.bind_eq_some_iff.mp h
  have hne : p.s ≠ [] := by
    rintro heq
    rw [heq] at hc
    cases hc
  refine ⟨hne, ?_⟩
  have h₀ : Ptr.ofList p.s 0 = c := Holds.ofList p.s 0 c hc
  split at h'
  · rename_i hb
    cases h'
    refine .inl ⟨.escape, 0, p.size, rfl, ?_, Nat.zero_le _, by rw [List.drop_zero]; rfl⟩
    rw [item, if_neg (fun hne => hne rfl), if_pos (h₀.symm ▸ hb)]
  rename_i hb
  obtain rfl : c = 91 := not_not.mp hb
  split at h'
  · cases h'
  rename_i hz
  obtain ⟨res, hscan, h'⟩ := Option.bind_eq_some_iff.mp h'
  cases res with
  | none => cases h'
  | some kr =>
      obtain ⟨k, r⟩ := kr
      dsimp only at h'
      obtain ⟨c, hc', -⟩ := Option.bind_eq_some_iff.mp h'
      have hk : k < p.s.tail.length := (List.getElem?_eq_some_iff.mp hc').1
      have hscan' := scan_shows hscan (.ofList p.s.tail)
      have hsum := (scan_spec hscan').1
      have hgo := escape_sequence hc hz hscan hk
      rw [h, Option.bind_some] at hgo
      obtain ⟨it, hseq, hit⟩ := Option.bind_eq_some_iff.mp hgo.symm
      rw [List.length_tail] at hk
      rw [ofList_tail] at hscan' hseq
      have hitem : r ≠ 0 → item 27 (.ofList p.s) p.size =
          some (if it.isUnknown then (.unknown, 0, p.size - 2) else (it, k + 2, r - 1)) := fun hr => by
        obtain ⟨r, rfl⟩ := Nat.exists_eq_succ_of_ne_zero hr
        exact item_of_scan h₀ hz hscan' hseq
      split at hit
      · rename_i hu
        have hback : sizeAdd r (k - 1) = sizeAdd p.size (-2) := by
          unfold sizeAdd
          omega
        cases hit
        refine .inr ⟨hc, by omega, by rw [hback], fun hfull => ?_⟩
        rw [hitem (by omega), if_pos hu]
      · rename_i hu
        split at hit
        · cases hit
        · rename_i hr
          cases hit
          refine .inl ⟨it, k + 2, r - 1, Bool.eq_false_iff.mpr hu, ?_, by omega, rfl⟩
          rw [hitem hr, if_neg hu]

theorem escape_of_item (hn : p.size < 2 ^ 32) (hsize : p.size ≤ p.s.length) (hne : p.s ≠ [])
    (h : item 27 (.ofList p.s) p.size = some (it, a, r)) :
    escape p = some (.again { toTerminal := it.act p.toTerminal, s := p.s.drop a, size := r }) := by
  have hc := getElem?_ofList (l := p.s) (List.length_pos_iff.mpr hne)
  by_cases hb : Ptr.ofList p.s 0 = 91
  · obtain ⟨k, r', hscan, hlen, hseq, hcase⟩ := item_bracket h hb
    have hk : k < p.s.tail.length := by
      rw [List.length_tail]
      omega
    rw [← ofList_tail] at hscan hseq
    have hgo := escape_sequence (hb ▸ hc) (by omega) (scan_inside hscan hk) hk
    rw [hseq, Option.bind_some] at hgo
    apply go_eq
    rw [hgo]
    obtain ⟨rfl, rfl, rfl⟩ | ⟨hknown, rfl, rfl⟩ := hcase
    · have hback : sizeAdd (r' + 1) (k - 1) = p.size - 2 := by
        unfold sizeAdd
        omega
      have hu : Item.unknown.isUnknown = true := rfl
      rw [if_pos hu, hback, List.drop_zero]
      rfl
    · have hu : ¬ it.isUnknown = true := fun hu => hknown (by cases it <;> first | rfl | cases hu)
      rw [if_neg hu, if_neg (Nat.succ_ne_zero r)]
      rfl
  · have hitem : some (Item.escape, 0, p.size) = some (it, a, r) := by
      rw [← h, item, if_neg (fun hne => hne rfl), if_pos hb]
    cases hitem
    unfold escape
    rw [hc, List.drop_zero]
    exact if_pos hb

theorem next_stop (p : Printing) : p.next ≠ .stop q k := by
  unfold Printing.next
  split <;> exact fun h => by cases h

/-- A sequence does not end the loop. -/
theorem escape_stop : escape p ≠ some (.stop q k) := by
  intro h
  obtain ⟨c, -, h⟩ := Option.bind_eq_some_iff.mp h
  split at h
  · cases h
  split at h
  · cases h
  obtain ⟨res, -, h⟩ := Option.bind_eq_some_iff.mp h
  split at h
  · cases h
  obtain ⟨c, -, h⟩ := Option.bind_eq_some_iff.mp h
  split at h
  · obtain ⟨nums, -, h⟩ := Option.bind_eq_some_iff.mp h
    exact next_stop _ (Option.some.inj h)
  split at h
  · obtain ⟨c, -, h⟩ := Option.bind_eq_some_iff.mp h
    split at h
    · exact next_stop _ (Option.some.inj h)
    · exact next_stop _ (Option.some.inj h)
  split at h
  · split at h
    · obtain ⟨pos, -, h⟩ := Option.bind_eq_some_iff.mp h
      cases pos <;> cases h
    · exact next_stop _ (Option.some.inj h)
  split at h
  · exact next_stop _ (Option.some.inj h)
  split at h
  · exact next_stop _ (Option.some.inj h)
  · cases h

theorem dispatch_again (hn : p.size < 2 ^ 32) (h : dispatch uni p = some (.again q)) :
    (∃ it a r, it.isUnknown = false ∧ item uni (.ofList p.s) p.size = some (it, a, r) ∧ a ≤ p.s.length ∧
      (it = .escape → p.s ≠ []) ∧
      q = { toTerminal := it.act p.toTerminal, s := p.s.drop a, size := r }) ∨
    (uni = 27 ∧ p.s[0]? = some 91 ∧ 0 < p.size ∧ q = { p with size := sizeAdd p.size (-2) } ∧
      (p.size = p.s.length → item 27 (.ofList p.s) p.size = some (.unknown, 0, p.size - 2))) := by
  unfold dispatch at h
  split at h
  · rename_i hesc
    subst hesc
    obtain ⟨hne, ⟨it, a, r, hu, hitem, ha, hq⟩ | hunknown⟩ := escape_again hn h
    · exact .inl ⟨it, a, r, hu, hitem, ha, fun _ => hne, hq⟩
    · exact .inr ⟨rfl, hunknown⟩
  · rename_i hesc
    cases h
    refine .inl ⟨.char uni, 0, p.size, rfl, if_pos hesc, Nat.zero_le _, (fun heq => by cases heq), ?_⟩
    rw [List.drop_zero]
    rfl

theorem dispatch_of_item (hn : p.size < 2 ^ 32) (hsize : p.size ≤ p.s.length)
    (h : item uni (.ofList p.s) p.size = some (it, a, r)) (hne : it = .escape → p.s ≠ []) :
    dispatch uni p =
      some (.again { toTerminal := it.act p.toTerminal, s := p.s.drop a, size := r }) := by
  unfold dispatch
  split
  · rename_i hesc
    subst hesc
    refine escape_of_item hn hsize ?_ h
    by_contra hnil
    -- behind the last byte there is no bracket
    have hitem : some (Item.escape, 0, p.size) = some (it, a, r) := by
      rw [← h, item, if_neg (fun hne => hne rfl), if_pos]
      rw [hnil]
      decide
    cases hitem
    exact hne rfl hnil
  · rename_i hesc
    rw [item, if_pos hesc] at h
    cases h
    rw [List.drop_zero]
    rfl

theorem dispatch_stop : dispatch uni p ≠ some (.stop q k) := by
  unfold dispatch
  split
  · exact escape_stop
  · exact fun h => by cases h

end Bounded

end Muxomucota.Console
