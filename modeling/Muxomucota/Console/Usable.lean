import Muxomucota.Console.Inside

/-!
# Console — the calls that leave the console usable

A call leaves the console usable (`Usable`) if it reads its input alone, lets the lock go, and returns how
much it has consumed or saved.  It does so for the inputs that say something to their end
(`console_usable_iff`): the loop has read what `Lexes` says (`loop_ends`) and reads all of it
(`loop_of_lexes`), and a begun character is read as if it stood in the input (`body_resumed`).
-/

namespace Muxomucota.Console

/-- How many sequences have a last byte that is unknown. -/
def unknowns (its : List Item) : Nat := its.countP Item.isUnknown

/-- The rest of the character that has begun is there, without a zero, and the input goes on behind it. -/
def TermPipe.Resumes (tp : TermPipe) (s : List Byte) : Prop :=
  tp.saved ≠ [] →
    tp.expectedLen - tp.saved.length < s.length ∧ 0 ∉ s.take (tp.expectedLen - tp.saved.length)

/-- **The condition.**  A character that has begun is resumed, and with it the input says something: it ends
neither inside an escape sequence nor behind a lone escape character, and it leaves two bytes of a character
begun for every sequence whose last byte is unknown. -/
def TermPipe.ReadsWhole (tp : TermPipe) (s : List Byte) : Prop :=
  tp.Resumes s ∧ ∃ its pend, Lexes (.ofList (tp.saved ++ s)) (tp.saved.length + s.length) its pend ∧
    (its.getLast? = some .escape → pend ≠ []) ∧ 2 * unknowns its = pend.length

namespace Bounded

variable {l : List Byte} {size k r m uni len a : Nat} {it : Item} {its : List Item} {pend : List Byte}
  {p q : Printing}

/-! ### The loop -/

theorem body_char (hs : p.tp.saved = []) (hd : decode p.s p.size = some (.char uni len)) :
    body p = dispatch uni { p with s := p.s.drop len, size := p.size - len } := by
  rw [body, if_pos hs, hd]
  rfl

theorem unknowns_cons (it : Item) (its : List Item) :
    unknowns (it :: its) = unknowns its + if it.isUnknown then 1 else 0 := List.countP_cons

/-- An unknown sequence leaves two bytes less in `size` than there are. -/
theorem item_count {s : Ptr} (h : item uni s size = some (it, a, r)) :
    a + r + 2 * (if it.isUnknown then 1 else 0) = size := by
  cases hu : it.isUnknown with
  | false => exact ((item_size h).2 fun heq => by rw [heq] at hu; cases hu).symm
  | true =>
      obtain rfl : it = .unknown := by cases it <;> first | rfl | cases hu
      by_cases hesc : uni = 27 ∧ s 0 = 91
      · obtain ⟨rfl, hb⟩ := hesc
        obtain ⟨k, r', -, hsize, -, ⟨-, rfl, rfl⟩ | ⟨hne, -, -⟩⟩ := item_bracket h hb
        · rw [if_pos rfl]
          omega
        · exact absurd rfl hne
      · unfold item at h
        split_ifs at h with h₁ h₂
        all_goals first | cases h | exact absurd ⟨not_not.mp h₁, not_not.mp h₂⟩ hesc

/-- What a loop that is left has read: with `u` sequences unknown, and two bytes that `size` lacks for each. -/
structure Ends (p q : Printing) (kept u : Nat) : Prop where
  size : q.size = kept
  inside : kept ≤ q.s.length
  short : kept < 4
  count : (q.s.length + p.size) % 2 ^ 32 = (p.s.length + kept + 2 * u) % 2 ^ 32
  few : 2 * u ≤ p.s.length
  bracket : p.s[0]? = some 91 → 2 * u + 1 ≤ p.s.length
  reads : u = 0 ∨ u = 1 ∧ p.size = p.s.length → ∃ its pend, Lexes (.ofList p.s) p.size its pend ∧
    pend.length = kept ∧ unknowns its = u ∧ (its = [] → q.s = p.s) ∧
    (its.getLast? = some .escape → pend = [] → q.s ≠ [])

theorem Ends.known {p₁ : Printing} {kept u : Nat} (h : Ends p₁ q kept u) (hpos : 0 < p.size)
    (hd : Console.decode (.ofList p.s) p.size = .char uni len) (hlen : 0 < len ∧ len ≤ p.s.length)
    (hu : it.isUnknown = false) (hi : item uni (.ofList (p.s.drop len)) (p.size - len) = some (it, a, r))
    (ha : a ≤ (p.s.drop len).length) (hlone : it = .escape → p.s.drop len ≠ [])
    (hs : p₁.s = (p.s.drop len).drop a) (hsize : p₁.size = r) : Ends p q kept u := by
  have hle := (decode_char hpos hd).2
  have hadv := (item_size hi).2 fun heq => by
    rw [heq] at hu
    cases hu
  have hl : p₁.s.length = p.s.length - len - a := by
    rw [hs, List.length_drop, List.length_drop]
  rw [List.length_drop] at ha
  have hcount := h.count
  have hfew := h.few
  refine ⟨h.size, h.inside, h.short, by omega, by omega, fun _ => by omega, fun hcase => ?_⟩
  obtain ⟨its, pend, hlex, hkept, hunk, hnil, hlast⟩ := h.reads (by omega)
  rw [hs, ofList_drop, ofList_drop, Ptr.add_add, hsize] at hlex
  rw [ofList_drop] at hi
  refine ⟨it :: its, pend, .more hpos hd hi hlex, hkept, ?_, (fun heq => by cases heq), fun hesc hpend => ?_⟩
  · rw [unknowns, List.countP_cons_of_neg (by simp [hu])]
    exact hunk
  · cases its with
    | nil =>
        obtain rfl : it = .escape := Option.some.inj hesc
        rw [hnil rfl, hs]
        obtain ⟨rfl, hb⟩ := item_escape hi
        rw [item, if_neg (fun hne => hne rfl), if_pos hb] at hi
        cases hi
        exact hlone rfl
    | cons it' its =>
        rw [List.getLast?_cons_cons] at hesc
        exact hlast hesc hpend

theorem Ends.unknown {p₁ : Printing} {kept u : Nat} (h : Ends p₁ q kept u) (hpos : 0 < p.size)
    (hn : p.size < 2 ^ 32)
    (hd : Console.decode (.ofList p.s) p.size = .char 27 len) (hlen : 0 < len ∧ len ≤ p.s.length)
    (hb : (p.s.drop len)[0]? = some 91) (hz : 0 < p.size - len)
    (hi : p.size - len = (p.s.drop len).length →
      item 27 (.ofList (p.s.drop len)) (p.size - len) = some (.unknown, 0, p.size - len - 2))
    (hs : p₁.s = p.s.drop len) (hsize : p₁.size = sizeAdd (p.size - len) (-2)) : Ends p q kept (u + 1) := by
  have hle := (decode_char hpos hd).2
  have hl : p₁.s.length = p.s.length - len := by rw [hs, List.length_drop]
  have hcount := h.count
  have hfew := h.bracket (hs ▸ hb)
  rw [List.length_drop] at hi
  refine ⟨h.size, h.inside, h.short, ?_, by omega, fun hfirst => ?_, fun hcase => ?_⟩
  · rw [hsize, hl] at hcount
    unfold sizeAdd at hcount
    omega
  · -- a bracket is no escape character
    have h₀ : Ptr.ofList p.s 0 = 91 := Holds.ofList p.s 0 91 hfirst
    unfold Console.decode at hd
    rw [h₀] at hd
    cases hd
  · obtain ⟨rfl, hfull⟩ : u = 0 ∧ p.size = p.s.length := by omega
    obtain ⟨its, pend, hlex, hkept, hunk, hnil, hlast⟩ := h.reads (.inl rfl)
    have hitem := hi (by omega)
    have hback : sizeAdd (p.size - len) (-2) = p.size - len - 2 := by
      unfold sizeAdd
      have := (item_bracket hitem (Holds.ofList _ 0 91 hb))
      omega
    rw [hs, hsize, hback, ofList_drop] at hlex
    rw [ofList_drop] at hitem
    refine ⟨.unknown :: its, pend, .more hpos hd hitem hlex, hkept, ?_, (fun heq => by cases heq),
      fun hesc hpend => ?_⟩
    · rw [unknowns, List.countP_cons_of_pos rfl]
      exact congrArg (· + 1) hunk
    · cases its with
      | nil => cases hesc
      | cons it' its =>
          rw [List.getLast?_cons_cons] at hesc
          exact hlast hesc hpend

/-- **A loop that is left has read its input alone.** -/
theorem loop_ends {n kept : Nat} (h : loop n p = some (.stop q kept)) (hs : p.tp.saved = [])
    (hn : p.size < 2 ^ 32) : ∃ u, Ends p q kept u := by
  induction n generalizing p with
  | zero => cases h
  | succ n ih =>
      obtain ⟨o, ho, h⟩ := Option.bind_eq_some_iff.mp h
      unfold pass at ho
      split at ho
      · rename_i hz
        cases ho
        cases h
        refine ⟨0, hz, Nat.zero_le _, by decide, by rw [hz], Nat.zero_le _, fun hb => ?_, fun _ => ?_⟩
        · exact (List.getElem?_eq_some_iff.mp hb).1
        · refine ⟨[], [], ?_, rfl, rfl, fun _ => rfl, fun hesc => by cases hesc⟩
          rw [hz]
          exact .done _
      · rename_i hz
        have hpos := Nat.pos_of_ne_zero hz
        rw [body, if_pos hs] at ho
        obtain ⟨d, hd, ho⟩ := Option.bind_eq_some_iff.mp ho
        have hd' := decode_shows hd (.ofList p.s)
        cases d with
        | short e =>
            obtain ⟨rfl, hfew⟩ := decode_short hd'
            have hle := seqLen_le (Ptr.ofList p.s 0)
            dsimp only [save] at ho
            split at ho
            · rename_i hin
              cases ho
              cases h
              refine ⟨0, rfl, hin, by omega, rfl, Nat.zero_le _, fun hb => ?_, fun _ => ?_⟩
              · exact (List.getElem?_eq_some_iff.mp hb).1
              exact ⟨[], _, .short hpos hd', Ptr.length_take .., rfl, fun _ => rfl, fun hesc => by cases hesc⟩
            · cases ho
        | char uni len =>
            have hlen := decode_length hd
            cases o with
            | early => cases h
            | stop => exact absurd ho dispatch_stop
            | again p₁ =>
                have hn' : p.size - len < 2 ^ 32 := by omega
                obtain ⟨it, a, r, hu, hi, ha, hlone, rfl⟩ | ⟨rfl, hb, hz, rfl, hi⟩ :=
                  dispatch_again (p := { p with s := p.s.drop len, size := p.size - len }) hn' ho
                · have hr := (item_size hi).1
                  dsimp only at hr
                  obtain ⟨u, hends⟩ := ih h ((act_pending it p.toTerminal).1.trans hs) (by dsimp only; omega)
                  exact ⟨u, hends.known hpos hd' hlen hu hi ha hlone rfl rfl⟩
                · have hback : sizeAdd (p.size - len) (-2) < 2 ^ 32 := by
                    unfold sizeAdd
                    omega
                  obtain ⟨u, hends⟩ := ih h hs hback
                  exact ⟨u + 1, hends.unknown hpos hn hd' hlen hb hz hi rfl rfl⟩

/-- A string that says something is read to its end. -/
theorem loop_of_lexes (h : Lexes (.ofList p.s) p.size its pend) (hs : p.tp.saved = []) (hn : p.size < 2 ^ 32)
    (hsize : p.size ≤ p.s.length)
    (hlone : its.getLast? = some .escape → pend = [] → p.size < p.s.length ∨ 0 < unknowns its) :
    ∃ q, loop (its.length + 1) p = some (.stop q pend.length) ∧ q.size = pend.length ∧
      q.s.length + p.size = p.s.length + pend.length + 2 * unknowns its := by
  generalize hps : Ptr.ofList p.s = s, hpn : p.size = n at h
  induction h generalizing p with
  | done s =>
      refine ⟨p, ?_, hpn, rfl⟩
      simp only [loop, pass, hpn, if_true]
      rfl
  | @short s size e hpos hd =>
      subst hps hpn
      obtain ⟨rfl, hfew⟩ := decode_short hd
      have hbody : body p = some (.stop { p with
          tp := { p.tp with saved := p.s.take p.size, expectedLen := seqLen (Ptr.ofList p.s 0) } } p.size) := by
        rw [body, if_pos hs, decode_inside (Nat.lt_of_lt_of_le hpos hsize) (.inl hfew), hd]
        exact if_pos hsize
      rw [List.length_nil, loop, pass, if_neg (Nat.ne_of_gt hpos), hbody, Ptr.length_take]
      exact ⟨_, rfl, rfl, rfl⟩
  | @more s size uni len a r it its pend hpos hd hi t ih =>
      subst hps hpn
      obtain ⟨hlen, hle⟩ := decode_char hpos hd
      have hr := (item_size hi).1
      rw [← ofList_drop] at hi
      have hne : it = .escape → p.s.drop len ≠ [] := by
        rintro rfl hnil
        have hz : p.s.length ≤ len := List.drop_eq_nil_iff.mp hnil
        obtain rfl : r = 0 := by omega
        obtain ⟨rfl, rfl⟩ := t.at_end
        have hmore := hlone rfl rfl
        rw [unknowns_cons] at hmore
        exact absurd hmore (by simp [unknowns, Item.isUnknown]; omega)
      have hbody : body p = some (.again
          { toTerminal := it.act p.toTerminal, s := (p.s.drop len).drop a, size := r }) := by
        have hd' : decode p.s p.size = _ := decode_inside (Nat.lt_of_lt_of_le hpos hsize) (.inr (by omega))
        rw [body_char hs (hd'.trans (congrArg some hd))]
        exact dispatch_of_item (p := { p with s := p.s.drop len, size := p.size - len })
          (by dsimp only; omega) (by dsimp only; rw [List.length_drop]; omega) hi hne
      have hcount := item_count hi
      have hlen₁ : ((p.s.drop len).drop a).length = p.s.length - len - a := by
        rw [List.length_drop, List.length_drop]
      obtain ⟨q, hq, hqs, hqc⟩ := ih
        (p := { toTerminal := it.act p.toTerminal, s := (p.s.drop len).drop a, size := r })
        ((act_pending ..).1.trans hs) (by dsimp only; omega) (by dsimp only; omega)
        (fun hesc hpend => by
          have hmore := hlone (by
            cases its with
            | nil => cases hesc
            | cons it' its => rw [List.getLast?_cons_cons]; exact hesc) hpend
          rw [unknowns_cons] at hmore
          dsimp only
          omega)
        (by rw [ofList_drop, ofList_drop, Ptr.add_add]) rfl
      refine ⟨q, ?_, hqs, ?_⟩
      · rw [List.length_cons, loop, pass, if_neg (Nat.ne_of_gt hpos), hbody]
        exact hq
      · dsimp only at hqc
        rw [unknowns_cons]
        omega

/-! ### A character that has begun -/

theorem refill_whole {e rem : Nat} {saved : List Byte} (hk : k < l.length) (hz : 0 ∉ l.take k) (hrem : k ≤ rem)
    (he : saved.length + k = e) : refill e rem l saved = some (l.drop k, saved ++ l.take k) := by
  induction k generalizing l rem saved with
  | zero =>
      cases l with
      | nil => exact absurd hk (Nat.not_lt_zero 0)
      | cons c l =>
          rw [List.take_zero, List.append_nil]
          cases rem with
          | zero => rfl
          | succ rem => exact if_neg fun hgo => by omega
  | succ k ih =>
      cases l with
      | nil => exact absurd hk (Nat.not_lt_zero _)
      | cons c l =>
          obtain ⟨rem, rfl⟩ := Nat.exists_eq_succ_of_ne_zero (n := rem) (by omega)
          rw [List.take_succ_cons, List.mem_cons, not_or] at hz
          have hgo : c ≠ 0 ∧ saved.length < e := ⟨fun heq => hz.1 heq.symm, by omega⟩
          rw [refill, if_pos hgo, ih (Nat.lt_of_succ_lt_succ hk) hz.2 (Nat.le_of_succ_le_succ hrem)
            (by rw [List.length_append, List.length_singleton]; omega), List.append_assoc]
          rfl

theorem whole_of_full {e : Nat} {saved : List Byte} (he : e ≤ saved.length) (hpos : 0 < l.length) :
    e - saved.length < l.length ∧ 0 ∉ l.take (e - saved.length) := by
  rw [Nat.sub_eq_zero_of_le he]
  exact ⟨hpos, List.not_mem_nil⟩

theorem whole_of_refill {e rem : Nat} {saved saved' l' : List Byte}
    (h : refill e rem l saved = some (l', saved')) (he : e ≤ saved'.length) :
    e - saved.length < l.length ∧ 0 ∉ l.take (e - saved.length) := by
  induction l generalizing rem saved with
  | nil => cases rem <;> cases h
  | cons c l ih =>
      cases rem with
      | zero =>
          cases h
          exact whole_of_full he (Nat.succ_pos l.length)
      | succ rem =>
          simp only [refill] at h
          split at h
          · rename_i hgo
            obtain ⟨hlt, hz⟩ := ih h
            rw [List.length_append, List.length_singleton] at hlt hz
            obtain ⟨j, hj⟩ : ∃ j, e - saved.length = j + 1 := ⟨e - (saved.length + 1), by omega⟩
            obtain rfl : j = e - (saved.length + 1) := by omega
            rw [hj, List.take_succ_cons, List.mem_cons, List.length_cons]
            exact ⟨Nat.succ_lt_succ hlt, not_or.mpr ⟨fun heq => hgo.1 heq.symm, hz⟩⟩
          · cases h
            exact whole_of_full he (Nat.succ_pos l.length)

/-- The same with the bytes of the character back in the input. -/
def Printing.resumed (p : Printing) : Printing :=
  { p with tp := { p.tp with saved := [] }, s := p.tp.saved ++ p.s, size := p.tp.saved.length + p.size }

/-- A character that is complete is the same with more bytes behind it. -/
theorem decode_front {front : List Byte} (hpos : 0 < front.length)
    (hlen : seqLen (Ptr.ofList front 0) = front.length) (hsize : front.length ≤ size) (back : List Byte) :
    ∃ uni, decode front size = some (.char uni front.length) ∧
      decode (front ++ back) size = some (.char uni front.length) := by
  have hfront : decode front size = _ := decode_inside hpos (.inr (Nat.le_of_eq hlen))
  cases hd : Console.decode (.ofList front) size with
  | short e =>
      obtain ⟨rfl, hfew⟩ := decode_short hd
      omega
  | char uni len =>
      obtain ⟨rfl, -⟩ := decode_char (by omega) hd
      rw [hlen] at hd
      have hsame : Console.decode (.ofList (front ++ back)) size = .char uni front.length :=
        decode_congr hd (fun i hi => ofList_append hi back) hsize
      refine ⟨uni, hfront.trans (congrArg some hd), ?_⟩
      refine (decode_inside ?_ (.inr ?_)).trans (congrArg some hsame)
      · rw [List.length_append]
        omega
      · rw [ofList_append hpos, hlen, List.length_append]
        omega

theorem body_resumed (hok : p.tp.Ok) (hr : p.tp.Resumes p.s) (hsize : p.size = p.s.length)
    (hn : p.size + 4 ≤ 2 ^ 32) : body p = body p.resumed := by
  by_cases hs : p.tp.saved = []
  · have hp : p.resumed = p := by
      unfold Printing.resumed
      simp only [hs, List.nil_append, List.length_nil, Nat.zero_add]
      rw [← hs]
    rw [hp]
  obtain ⟨b, bs, hb, hlt⟩ := hok.begun hs
  have he := hok.expected b bs hb
  have hle := seqLen_le b
  obtain ⟨hk, hz⟩ := hr hs
  generalize hlack : p.tp.expectedLen - p.tp.saved.length = k at hk hz
  have hrefill : refill p.tp.expectedLen p.size p.s p.tp.saved =
      some (p.s.drop k, p.tp.saved ++ p.s.take k) := refill_whole hk hz (by omega) (by omega)
  have hadd : sizeAdd p.size p.tp.saved.length = p.tp.saved.length + p.size := by
    unfold sizeAdd
    omega
  have hlen : (p.tp.saved ++ p.s.take k).length = seqLen b := by
    rw [List.length_append, List.length_take]
    omega
  have h₀ : Ptr.ofList (p.tp.saved ++ p.s.take k) 0 = b := by
    rw [hb]
    rfl
  have hroom : (p.tp.saved ++ p.s.take k).length ≤ p.tp.saved.length + p.size := by omega
  obtain ⟨uni, hfront, hwhole⟩ := decode_front (by omega) (by rw [h₀, hlen]) hroom (p.s.drop k)
  have hsplit : p.tp.saved ++ p.s = p.tp.saved ++ p.s.take k ++ p.s.drop k := by
    rw [List.append_assoc, List.take_append_drop]
  rw [← hsplit] at hwhole
  have hbehind : (p.tp.saved ++ p.s).drop (p.tp.saved ++ p.s.take k).length = p.s.drop k := by
    rw [hsplit, List.drop_left]
  rw [body_char (p := p.resumed) rfl hwhole, body, if_neg hs, hrefill]
  simp only [Printing.resumed, Option.bind_eq_bind, Option.bind_some, hadd, hbehind]
  rw [if_neg (by omega), hfront]
  rfl

theorem saved_length {tp : TermPipe} (hok : tp.Ok) : tp.saved.length < 4 := by
  by_cases hs : tp.saved = []
  · rw [hs]
    decide
  · obtain ⟨b, bs, -, hlt⟩ := hok.begun hs
    exact Nat.lt_of_lt_of_le hlt (seqLen_le b)

/-- A loop that does not resume the character leaves more in `size` than there was. -/
theorem loop_resumes {n kept : Nat} (h : loop n p = some (.stop q kept)) (hpos : 0 < p.size) :
    p.tp.Resumes p.s ∨ p.tp.saved ≠ [] ∧ q.size = sizeAdd p.size p.tp.saved.length := by
  by_cases hs : p.tp.saved = []
  · exact .inl fun hne => absurd hs hne
  cases n with
  | zero => cases h
  | succ n =>
      obtain ⟨o, ho, h⟩ := Option.bind_eq_some_iff.mp h
      rw [pass, if_neg (Nat.ne_of_gt hpos), body, if_neg hs] at ho
      obtain ⟨⟨l, saved⟩, hrefill, ho⟩ := Option.bind_eq_some_iff.mp ho
      dsimp only at ho
      split at ho
      · cases ho
        cases h
        exact .inr ⟨hs, rfl⟩
      · rename_i hfull
        exact .inl fun _ => whole_of_refill hrefill (Nat.le_of_not_lt hfull)

theorem loop_resumed (hok : p.tp.Ok) (hr : p.tp.Resumes p.s) (hsize : p.size = p.s.length) (hpos : 0 < p.size)
    (hn : p.size + 4 ≤ 2 ^ 32) (n : Nat) : loop n p = loop n p.resumed := by
  cases n with
  | zero => rfl
  | succ n =>
      have hpos' : p.resumed.size ≠ 0 := by
        dsimp only [Printing.resumed]
        omega
      rw [loop, loop, pass, pass, if_neg (Nat.ne_of_gt hpos), if_neg hpos', body_resumed hok hr hsize hn]

/-! ### The lock -/

def Outcome.printing : Outcome → Printing
  | .again p | .stop p _ | .early p => p

theorem Outcome.Shows.terminal {o : Outcome} {o' : Console.Outcome} (h : o.Shows o') :
    o'.printing.toTerminal = o.printing.toTerminal := by
  cases o <;> cases o' <;> first | exact Printing.Shows.terminal h | exact h | exact h.elim

theorem dispatch_steady {o : Outcome} (hp : p.toTerminal.Steady) (h : dispatch uni p = some o) :
    o.printing.toTerminal.Steady := by
  obtain ⟨o', ho', hshows⟩ := dispatch_shows h
    (q := { toTerminal := p.toTerminal, s := .ofList p.s, size := p.size }) ⟨rfl, rfl, .ofList p.s⟩
  obtain ⟨it, hit, -⟩ := dispatch_acts ho'
  rw [← hshows.terminal, hit]
  exact hp.act it

theorem save_steady {o : Outcome} {e : Nat} (hp : p.toTerminal.Steady) (h : save p e = some o) :
    o.printing.toTerminal.Steady := by
  unfold save at h
  split at h
  · cases h
    exact ⟨hp.lock, hp.output⟩
  · cases h

theorem body_steady {o : Outcome} (hp : p.toTerminal.Steady) (h : body p = some o) :
    o.printing.toTerminal.Steady := by
  unfold body at h
  split at h
  · obtain ⟨d, -, h⟩ := Option.bind_eq_some_iff.mp h
    cases d with
    | short e => exact save_steady hp h
    | char uni len => exact dispatch_steady (p := { p with s := p.s.drop len, size := p.size - len }) hp h
  · obtain ⟨⟨s, saved⟩, -, h⟩ := Option.bind_eq_some_iff.mp h
    dsimp only at h
    split at h
    · cases h
      exact ⟨hp.lock, hp.output⟩
    · obtain ⟨d, -, h⟩ := Option.bind_eq_some_iff.mp h
      cases d with
      | short e =>
          refine save_steady ?_ h
          exact ⟨hp.lock, hp.output⟩
      | char uni len =>
          refine dispatch_steady ?_ h
          exact ⟨hp.lock, hp.output⟩

/-- Until the loop is left the lock is held. -/
theorem loop_steady {n : Nat} {o : Outcome} (hp : p.toTerminal.Steady) (h : loop n p = some o) :
    o.printing.toTerminal.Steady := by
  induction n generalizing p with
  | zero => cases h
  | succ n ih =>
      obtain ⟨o₁, ho₁, h⟩ := Option.bind_eq_some_iff.mp h
      have hsteady : o₁.printing.toTerminal.Steady := by
        unfold pass at ho₁
        split at ho₁
        · cases ho₁
          exact hp
        · exact body_steady hp ho₁
      cases o₁ with
      | again p₁ => exact ih hsteady h
      | stop p₁ kept =>
          cases h
          exact hsteady
      | early p₁ =>
          cases h
          exact hsteady

/-! ### Usable consoles -/

variable {tp : TermPipe} {con : Display} {s : List Byte}

/-- The call returns and has read its input alone; the lock is free, and the count says how much of the input has
been consumed or saved. -/
def Usable (tp : TermPipe) (con : Display) (s : List Byte) : Prop :=
  ∃ passes res, consPrint passes tp con s = some res ∧ res.con.screen.outputLock = false ∧
    res.ret ≤ s.length ∧ res.ret + res.rest.length = s.length + res.kept

theorem consPrint_of_stop {n kept : Nat} (hlock : con.screen.outputLock = false)
    (h : loop n (.start tp con.screen s) = some (.stop q kept)) :
    ∃ res, consPrint n tp con s = some res ∧ res.con.screen.outputLock = false ∧
      res.ret = (s.length + 2 ^ 32 - q.size) % 2 ^ 32 ∧ res.rest = q.s ∧ res.kept = kept := by
  rw [consPrint, hlock, if_neg Bool.false_ne_true, h]
  exact ⟨_, rfl, rfl, rfl, rfl, rfl⟩

theorem usable_nil (hlock : con.screen.outputLock = false) : Usable tp con [] := by
  have hloop : loop 1 (.start tp con.screen []) = some (.stop (.start tp con.screen []) 0) := rfl
  obtain ⟨res, hres, hfree, hret, hrest, hkept⟩ := consPrint_of_stop hlock hloop
  refine ⟨1, res, hres, hfree, ?_, ?_⟩
  · simp [hret, Printing.start]
  · simp [hret, hrest, hkept, Printing.start]

/-- What is left begun has come with the input. -/
theorem pend_le_input (hok : tp.Ok) (hr : tp.Resumes s)
    (h : Lexes (.ofList (tp.saved ++ s)) (tp.saved.length + s.length) its pend) : pend.length ≤ s.length := by
  by_cases hs : tp.saved = []
  · have := h.pend_le
    rw [hs, List.length_nil] at this
    omega
  obtain ⟨b, bs, hb, hlt⟩ := hok.begun hs
  have he := hok.expected b bs hb
  have hk := (hr hs).1
  have h₀ : Ptr.ofList (tp.saved ++ s) 0 = b := by
    rw [hb]
    rfl
  generalize htotal : tp.saved.length + s.length = total at h
  cases h with
  | done => omega
  | short _ hd =>
      have := decode_short hd
      rw [h₀] at this
      omega
  | more hpos hd hi t =>
      have hlen := (decode_char hpos hd).1
      have := t.pend_le
      have := (item_size hi).1
      rw [h₀] at hlen
      omega

theorem usable_of_readsWhole (hok : tp.Ok) (hlock : con.screen.outputLock = false) (hn : s.length + 4 ≤ 2 ^ 32)
    (hpos : 0 < s.length) (h : tp.ReadsWhole s) : Usable tp con s := by
  obtain ⟨hr, its, pend, hlex, hlone, hcount⟩ := h
  have hsaved := saved_length hok
  have hpend := pend_le_input hok hr hlex
  obtain ⟨q, hq, hqs, hqc⟩ := loop_of_lexes (p := (Printing.start tp con.screen s).resumed) hlex rfl
    (by dsimp only [Printing.resumed, Printing.start]; omega)
    (Nat.le_of_eq List.length_append.symm) fun hesc hnil => absurd hnil (hlone hesc)
  rw [← loop_resumed (p := .start tp con.screen s) hok hr rfl hpos hn] at hq
  dsimp only [Printing.resumed, Printing.start] at hqc
  rw [List.length_append] at hqc
  obtain ⟨res, hres, hfree, hret, hrest, hkept⟩ := consPrint_of_stop hlock hq
  refine ⟨its.length + 1, res, hres, hfree, ?_, ?_⟩
  · rw [hret]
    omega
  · rw [hret, hrest, hkept]
    omega

theorem readsWhole_of_usable (hok : tp.Ok) (hn : s.length + 4 ≤ 2 ^ 32) (hpos : 0 < s.length)
    (h : Usable tp con s) : tp.ReadsWhole s := by
  obtain ⟨n, res, hres, hfree, hle, hcount⟩ := h
  unfold consPrint at hres
  split at hres
  · cases hres
  obtain ⟨o, ho, hres⟩ := Option.bind_eq_some_iff.mp hres
  cases o with
  | again => cases hres
  | early q =>
      -- the lock is kept
      cases hres
      have hheld := (loop_steady ⟨rfl, rfl⟩ ho).lock
      exact absurd (hheld.symm.trans hfree) Bool.noConfusion
  | stop q kept =>
      cases hres
      dsimp only at hle hcount
      have hsaved := saved_length hok
      have hr : tp.Resumes s := by
        refine (loop_resumes ho hpos).resolve_right fun hfew => ?_
        obtain ⟨hs, hsize⟩ := hfew
        have hsome : 0 < tp.saved.length := List.length_pos_iff.mpr hs
        dsimp only [Printing.start, sizeAdd] at hsize
        -- the count is less than 0 then
        omega
      rw [loop_resumed (p := .start tp con.screen s) hok hr rfl hpos hn] at ho
      obtain ⟨u, hends⟩ := loop_ends ho rfl (by dsimp only [Printing.resumed, Printing.start]; omega)
      have hsize := hends.size
      have hinside := hends.inside
      have hshort := hends.short
      have hends_count := hends.count
      have hfew := hends.few
      dsimp only [Printing.resumed, Printing.start] at hends_count hfew
      rw [List.length_append] at hends_count hfew
      have hrest : q.s.length = 2 * kept := by omega
      have htwo : 2 * u = kept := by omega
      obtain ⟨its, pend, hlex, hlen, hunk, -, hlast⟩ := hends.reads (by
        dsimp only [Printing.resumed, Printing.start]
        rw [List.length_append]
        omega)
      refine ⟨hr, its, pend, hlex, fun hesc hnil => hlast hesc hnil ?_, by omega⟩
      rw [← hlen, hnil] at hrest
      exact List.length_eq_zero_iff.mp hrest

/-- **What `cons_print` gets along with.** -/
theorem console_usable_iff (hok : tp.Ok) (hlock : con.screen.outputLock = false) (hn : s.length + 4 ≤ 2 ^ 32) :
    Usable tp con s ↔ s = [] ∨ tp.ReadsWhole s := by
  rcases Nat.eq_zero_or_pos s.length with hz | hpos
  · obtain rfl := List.length_eq_zero_iff.mp hz
    exact ⟨fun _ => .inl rfl, fun _ => usable_nil hlock⟩
  · constructor
    · exact fun h => .inr (readsWhole_of_usable hok hn hpos h)
    · rintro (rfl | h)
      · exact usable_nil hlock
      · exact usable_of_readsWhole hok hlock hn hpos h

/-- A colour and a letter. -/
theorem console_usable_colour :
    Usable .new (Machine.boot fun _ => 0).toDisplay [27, 91, 49, 109, 72] := by
  have hlex : Lexes (.ofList [27, 91, 49, 109, 72]) 5 [.colour [1], .char 72] [] :=
    .more (by decide) rfl rfl (.more (by decide) rfl rfl (.done _))
  have hwhole : TermPipe.new.ReadsWhole [27, 91, 49, 109, 72] :=
    ⟨fun hne => absurd rfl hne, _, _, hlex, fun hesc => (by cases hesc), rfl⟩
  exact (console_usable_iff (.fresh rfl) rfl (by decide)).mpr (.inr hwhole)

/-- A begun character is not counted, behind a begun sequence a byte is read that is not there, and behind an
unknown sequence the call returns with the lock held. -/
theorem console_not_usable :
    ¬ Usable .new (Machine.boot fun _ => 0).toDisplay [0xC3] ∧
    ¬ Usable .new (Machine.boot fun _ => 0).toDisplay [27, 91] ∧
    ¬ Usable .new (Machine.boot fun _ => 0).toDisplay [27, 91, 88, 27, 91, 109] := by
  refine ⟨?_, ?_, ?_⟩
  · rintro ⟨_ | n, res, h, -, -, hcount⟩
    · cases h
    · cases h
      exact absurd hcount (by decide)
  · rintro ⟨_ | n, res, h, -⟩
    · cases h
    · cases h
  · rintro ⟨_ | _ | _ | _ | n, res, h, hfree, -⟩
    · cases h
    · cases h
    · cases h
    · cases h
    · cases h
      cases hfree

end Bounded

end Muxomucota.Console
