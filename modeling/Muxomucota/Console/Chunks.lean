import Muxomucota.Console.Items

/-!
# Console — a string in two parts

A call of `cons_print` does what the begun character and its bytes say, and leaves begun what they leave
(`call_lexes`).  So two calls do what one does, under the condition `Splits`, which says where the code
reads on behind the end of a buffer, returns with the lock held, or loses bytes.
-/

namespace Muxomucota.Console

open Muxomucota.Lib

variable {s s' : Ptr} {n m : Nat} {its : List Item} {pend : List Byte} {p : Printing}

/-! ### One call -/

/-- The terminal without the character that has begun. -/
def Terminal.fresh (t : Terminal) : Terminal := { t with tp := { t.tp with saved := [] } }

def TermPipe.expect (e : Nat) (tp : TermPipe) : TermPipe := { tp with expectedLen := e }

/-- The same terminal with another stale `expected_len`. -/
def Terminal.expect (e : Nat) (t : Terminal) : Terminal := { t with tp := t.tp.expect e }

variable {e : Nat} {t : Terminal}

/-- Between the items the lock is held and `output` is at the cursor. -/
structure Terminal.Steady (t : Terminal) : Prop where
  lock : t.screen.outputLock = true
  output : t.output = recalcPos t.screen.x t.screen.y

theorem lineDown_lock (sc : Screen) : (Terminal.lineDown sc).outputLock = sc.outputLock := by
  have hf := Screen.Filled.scrollDown { sc with y := sc.y + 1 }
  unfold Terminal.lineDown
  dsimp only
  generalize ({ sc with y := sc.y + 1 } : Screen).scrollDown = sc' at hf ⊢
  have hl := hf.lock
  split
  · exact hl
  · rfl

theorem goRight_steady (hl : t.screen.outputLock = true)
    (ho : t.output = recalcPos t.screen.x t.screen.y + 1) : t.goRight.Steady := by
  unfold recalcPos at ho
  unfold Terminal.goRight
  dsimp only
  split
  · obtain ⟨hx₁, hy₁, -⟩ := Terminal.lineDown_spec { t.screen with x := t.screen.x + 1 - 80 }
    refine ⟨(lineDown_lock _).trans hl, ?_⟩
    dsimp only [recalcPos] at hx₁ hy₁ ⊢
    rw [hx₁, hy₁]
    split <;> omega
  · refine ⟨hl, ?_⟩
    dsimp only [recalcPos]
    omega

theorem Terminal.Steady.character (h : t.Steady) (uni : Nat) : (t.character uni).Steady := by
  have hput : ∀ uni, (t.put uni).Steady := fun uni =>
    goRight_steady h.lock (congrArg (· + 1) h.output)
  unfold Terminal.character
  split_ifs
  · exact ⟨(lineDown_lock _).trans h.lock, rfl⟩
  · exact ⟨h.lock, rfl⟩
  · exact ⟨h.lock, rfl⟩
  · exact ⟨h.lock, rfl⟩
  · exact ⟨h.lock, rfl⟩
  · exact h
  · exact hput 32
  · exact hput uni

theorem Terminal.Steady.act (h : t.Steady) (it : Item) : (it.act t).Steady := by
  cases it with
  | char uni => exact h.character uni
  | clear =>
      have hf := Screen.Filled.clrscr t.screen t.tp.fg t.tp.bg
      refine ⟨hf.lock.trans h.lock, ?_⟩
      simp only [Item.act]
      rw [hf.x, hf.y]
      exact h.output
  | goto | restore => exact ⟨h.lock, rfl⟩
  | colour | escape | save | nothing | unknown => exact ⟨h.lock, h.output⟩

theorem Terminal.Steady.acts (h : t.Steady) (its : List Item) : (t.acts its).Steady := by
  induction its generalizing t with
  | nil => exact h
  | cons it its ih => exact ih (h.act it)

theorem Lexes.begun (h : Lexes s n its pend) (hp : pend ≠ []) : Begun pend := by
  induction h with
  | done => exact absurd rfl hp
  | @short s size expectedLen hn hd =>
      obtain ⟨k, rfl⟩ := Nat.exists_eq_succ_of_ne_zero (Nat.ne_of_gt hn)
      obtain ⟨rfl, hlt⟩ := decode_short hd
      exact ⟨s 0, (s.add 1).take k, Ptr.take_succ .., by rw [Ptr.length_take]; exact hlt⟩
  | more _ _ _ _ ih => exact ih hp

theorem leave_ok (tp : TermPipe) (h : pend ≠ [] → Begun pend) : (tp.leave pend).Ok := by
  cases pend with
  | nil => exact ⟨fun hne => absurd rfl hne, fun _ _ heq => by cases heq⟩
  | cons b bs => exact ⟨fun _ => h (List.cons_ne_nil b bs), fun _ _ heq => by cases heq; rfl⟩

@[simp] theorem leave_saved (tp : TermPipe) : (tp.leave pend).saved = pend := by
  cases pend <;> rfl

theorem TermPipe.Ok.congr {tp tp' : TermPipe} (h : tp.Ok) (hs : tp'.saved = tp.saved)
    (he : tp'.expectedLen = tp.expectedLen) : tp'.Ok where
  begun := hs ▸ h.begun
  expected b bs heq := he.trans (h.expected b bs (hs ▸ heq))

theorem TermPipe.Ok.fresh {tp : TermPipe} (hs : tp.saved = []) : tp.Ok where
  begun hne := absurd hs hne
  expected b bs heq := by rw [hs] at heq; cases heq

theorem refill_cases (e : Nat) (rem : Nat) (s : Ptr) (saved : List Byte) :
    ∃ k ≤ rem, (refill e rem s saved).2 = saved ++ s.take k := by
  induction rem generalizing s saved with
  | zero => exact ⟨0, Nat.le_refl 0, (List.append_nil _).symm⟩
  | succ rem ih =>
      rw [refill]
      split
      · obtain ⟨k, hk, heq⟩ := ih (s.add 1) (saved ++ [s 0])
        refine ⟨k + 1, by omega, ?_⟩
        rw [heq, Ptr.take_succ, List.append_assoc]
        rfl
      · exact ⟨0, Nat.zero_le _, (List.append_nil _).symm⟩

theorem dispatch_pending {o : Outcome} {uni : Nat} (ho : dispatch uni p = some o) :
    o.printing.tp.saved = p.tp.saved := by
  obtain ⟨it, hit, -⟩ := dispatch_acts ho
  rw [hit]
  exact (act_pending it _).1

/-- A pass leaves the beginning of a character, or none if the loop goes on. -/
theorem body_pending {o : Outcome} (h : p.tp.Ok) (hn : p.tp.saved ≠ [] → p.size + 4 ≤ 2 ^ 32)
    (ho : body p = some o) :
    o.printing.tp.Ok ∧ ∀ q, o = .again q → q.tp.saved = [] := by
  have hdone : ∀ {uni : Nat} {q : Printing}, q.tp.saved = [] → dispatch uni q = some o →
      o.printing.tp.Ok ∧ ∀ q, o = .again q → q.tp.saved = [] := by
    intro uni q hq ho
    have hsaved := (dispatch_pending ho).trans hq
    refine ⟨.fresh hsaved, ?_⟩
    rintro q rfl
    exact hsaved
  unfold body at ho
  split at ho
  · rename_i hs
    split at ho
    · rename_i e hd
      cases ho
      refine ⟨?_, fun q hq => by cases hq⟩
      rcases Nat.eq_zero_or_pos p.size with hzero | hpos
      · refine .fresh ?_
        rw [Outcome.printing, hzero]
        rfl
      · have hok := leave_ok p.tp (Lexes.short hpos hd).begun
        obtain ⟨k, hk⟩ := Nat.exists_eq_succ_of_ne_zero (Nat.ne_of_gt hpos)
        refine hok.congr (leave_saved _).symm ?_
        rw [hk, Ptr.take_succ]
        exact (decode_short hd).1
    · refine hdone ?_ ho
      exact hs
  · rename_i hs
    obtain ⟨b, bs, hb, hlt⟩ := h.begun hs
    have he := h.expected b bs hb
    have hle := seqLen_le b
    have hsize := hn hs
    obtain ⟨k, hk, hsaved⟩ := refill_cases p.tp.expectedLen p.size p.s p.tp.saved
    have hlen := congrArg List.length hsaved
    rw [List.length_append, Ptr.length_take] at hlen
    have hadd : sizeAdd p.size p.tp.saved.length = p.size + p.tp.saved.length := by
      unfold sizeAdd
      omega
    rw [hadd] at ho
    dsimp only at ho
    split at ho
    · rename_i hfew
      cases ho
      refine ⟨⟨fun _ => ⟨b, bs ++ p.s.take k, ?_, ?_⟩, fun b' bs' heq => ?_⟩, fun q hq => by cases hq⟩
      · rw [Outcome.printing, hsaved, hb]
        rfl
      · rw [← he]
        exact hfew
      · rw [Outcome.printing, hsaved, hb] at heq
        cases heq
        exact he
    · rename_i hfull
      split at ho
      · rename_i e hd
        obtain ⟨rfl, hshort⟩ := decode_short hd
        have h₀ : Ptr.ofList (refill p.tp.expectedLen p.size p.s p.tp.saved).2 0 = b := by
          rw [hsaved, hb]
          rfl
        rw [h₀] at hshort
        omega
      · exact hdone rfl ho

namespace Machine

variable {m m' : Machine} {textMem : Int → BitVec 16} {ops : List Op}

/-- A buffer and the saved bytes of a pipe are different places of the address space, and a pipe is not
destroyed while a call works on it. -/
def Sound (m : Machine) : Op → Prop
  | .print _ _ size => size + 4 ≤ 2 ^ 32
  | .destroy id => ∀ c, m.running = some c → c.id ≠ id
  | _ => True

structure PipesOk (m : Machine) : Prop where
  pipes : ∀ id tp, m.pipes id = some tp → tp.Ok
  running : ∀ c, m.running = some c →
    ∃ tp, m.pipes c.id = some tp ∧ (tp.saved ≠ [] → c.size + 4 ≤ 2 ^ 32)

theorem setPipe_same (m : Machine) (id : Nat) (tp : Option TermPipe) :
    (m.setPipe id tp).pipes id = tp := Function.update_self ..

theorem setPipe_other {id id' : Nat} (tp : Option TermPipe) (h : id' ≠ id) :
    (m.setPipe id tp).pipes id' = m.pipes id' := Function.update_of_ne h ..

theorem setPipe_ok {id : Nat} {tp : TermPipe} (h : ∀ id tp, m.pipes id = some tp → tp.Ok)
    (htp : tp.Ok) (id' : Nat) (t : TermPipe) (ht : (m.setPipe id (some tp)).pipes id' = some t) :
    t.Ok := by
  by_cases hid : id' = id
  · rw [hid, setPipe_same] at ht
    cases ht
    exact htp
  · rw [setPipe_other _ hid] at ht
    exact h id' t ht

/-- A pipe that appears is not the one that a call works on. -/
theorem PipesOk.appear {id : Nat} {tp : TermPipe} (h : m.PipesOk) (hnone : m.pipes id = none)
    (htp : tp.Ok) : (m.setPipe id (some tp)).PipesOk where
  pipes := setPipe_ok h.pipes htp
  running c hc := by
    obtain ⟨t, ht, hsize⟩ := h.running c hc
    refine ⟨t, (setPipe_other _ ?_).trans ht, hsize⟩
    rintro heq
    rw [heq, hnone] at ht
    cases ht

theorem PipesOk.step {op : Op} (h : m.PipesOk) (hok : m.Sound op) (hs : m.step op = some m') :
    m'.PipesOk := by
  obtain ⟨-, hs⟩ := step_act hs
  cases op with
  | create id =>
      simp only [act] at hs
      split at hs
      · rename_i hid
        cases hs
        exact h.appear hid.2 (.fresh rfl)
      · cases hs
  | duplicate id new =>
      simp only [act] at hs
      split at hs
      · rename_i hid
        obtain ⟨tp, htp, rfl⟩ := Option.map_eq_some_iff.mp hs
        exact h.appear hid.2 (h.pipes id tp htp)
      · cases hs
  | destroy id =>
      cases hs
      refine ⟨fun id' t ht => ?_, fun c hc => ?_⟩
      · by_cases hid : id' = id
        · rw [hid, setPipe_same] at ht
          cases ht
        · rw [setPipe_other _ hid] at ht
          exact h.pipes id' t ht
      · obtain ⟨t, ht, hsize⟩ := h.running c hc
        exact ⟨t, (setPipe_other _ (hok c hc)).trans ht, hsize⟩
  | print id s size =>
      simp only [act] at hs
      split at hs
      · cases hs
      · rename_i hfree
        cases hs
        refine ⟨h.pipes, fun c hc => ?_⟩
        cases hc
        obtain ⟨tp, htp⟩ := Option.ne_none_iff_exists'.mp fun hnone => hfree (.inr hnone)
        exact ⟨tp, htp, fun _ => hok⟩
  | pass =>
      obtain ⟨c, tp, hc, htp, ⟨-, rfl⟩ | ⟨o, ho, rfl⟩⟩ := stepPass_cases hs
      · exact ⟨h.pipes, h.running⟩
      obtain ⟨t, ht, hsize⟩ := h.running c hc
      rw [htp] at ht
      cases ht
      unfold Console.pass at ho
      split at ho
      · cases ho
        exact ⟨setPipe_ok h.pipes (h.pipes _ _ htp), fun c' hc' => by cases hc'⟩
      · obtain ⟨hpend, hnone⟩ := body_pending (h.pipes _ _ htp) hsize ho
        cases o with
        | again q =>
            refine ⟨setPipe_ok h.pipes hpend, fun c' hc' => ?_⟩
            cases hc'
            exact ⟨q.tp, setPipe_same .., fun hne => absurd (hnone q rfl) hne⟩
        | stop q => exact ⟨setPipe_ok h.pipes hpend, fun c' hc' => by cases hc'⟩
        | early q => exact ⟨setPipe_ok h.pipes hpend, fun c' hc' => by cases hc'⟩

/-- What a pipe has saved is nothing or the beginning of a character. -/
theorem pipes_ok {id : Nat} {tp : TermPipe} (h : Run step Sound (boot textMem) ops m)
    (hp : m.pipes id = some tp) : tp.Ok :=
  (h.invariant (I := PipesOk) (fun _ _ _ hi hok hs => hi.step hok hs)
    ⟨fun _ _ h => (by cases h), fun _ h => (by cases h)⟩).pipes id tp hp

end Machine

/-! ### Two calls -/

/-- The call ends with these results, after enough passes. -/
def Prints (tp : TermPipe) (con : Display) (s : Ptr) (n : Nat) (tp' : TermPipe) (con' : Display) : Prop :=
  ∃ passes ret, consPrint passes tp con s n = some (ret, tp', con')

/-- The pipe, but for an `expected_len` that nothing expects. -/
def TermPipe.view (tp : TermPipe) : TermPipe := tp.expect (if tp.saved = [] then 0 else tp.expectedLen)

/-- The call reads its bytes and no others: they say `its` and leave `pend` begun. -/
def TermPipe.Reads (tp : TermPipe) (s : Ptr) (n : Nat) (its : List Item) (pend : List Byte) : Prop :=
  tp.NoZero s n ∧ Lexes (.cat tp.saved s) (tp.saved.length + n) its pend

/-- What the terminal works on when a call begins. -/
def Display.terminal (con : Display) (tp : TermPipe) : Terminal :=
  { tp := { tp with saved := [] }, screen := { con.screen with outputLock := true }
    output := recalcPos con.screen.x con.screen.y }

/-- What a call leaves when the terminal ends in `t`. -/
def Terminal.closed (t : Terminal) : Display :=
  { screen := { t.screen with outputLock := false }, shown := t.screen.displayCursor }

theorem loop_mono {k : Nat} {o : Outcome} (h : loop n p = some o) (hk : n ≤ k) :
    loop k p = some o := by
  induction n generalizing p k with
  | zero => cases h
  | succ n ih =>
      obtain ⟨k, rfl⟩ := Nat.exists_eq_succ_of_ne_zero (n := k) (by omega)
      obtain ⟨o₁, ho₁, h⟩ := Option.bind_eq_some_iff.mp h
      rw [loop, ho₁]
      cases o₁ with
      | again q => exact ih h (by omega)
      | stop q => exact h
      | early q => exact h

theorem consPrint_mono {k : Nat} {tp : TermPipe} {con : Display} {res : Nat × TermPipe × Display}
    (h : consPrint n tp con s m = some res) (hk : n ≤ k) : consPrint k tp con s m = some res := by
  unfold consPrint at h ⊢
  split at h
  · cases h
  · rename_i hlock
    obtain ⟨o, ho, h⟩ := Option.bind_eq_some_iff.mp h
    rw [if_neg hlock, loop_mono ho hk]
    exact h

/-- A call has one result. -/
theorem Prints.unique {tp tp' : TermPipe} {con con' : Display} {k ret : Nat}
    (h : Prints tp con s n tp' con') {res : TermPipe × Display}
    (hres : consPrint k tp con s n = some (ret, res)) : (tp', con') = res := by
  obtain ⟨passes, ret', hp⟩ := h
  have h₁ := consPrint_mono hp (Nat.le_add_right passes k)
  rw [consPrint_mono hres (Nat.le_add_left k passes)] at h₁
  cases h₁
  rfl

end Muxomucota.Console
