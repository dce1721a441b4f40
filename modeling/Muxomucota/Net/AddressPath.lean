import Muxomucota.Net.Ports
import Muxomucota.Text.PrintNumbers

/-!
# Net — the path of a pipe

`service_create_pipe` of the UDP and of the TCP service takes a path `/a.b.c.d:p` apart with `strtol`,
which takes signs and numerals without digits too.  The two copies differ in where the port begins and in
the byte order.  The path is a string in its buffer; `none` goes outside the digits of `strtol`.
-/

namespace Muxomucota.Net

open Text
open Console (isdigit digitOf)

/-! ### The code -/

/-- `strtol(s, &end, 10)`: the value and `end`. -/
def strtol (mem : List Byte) (s : Nat) : Option (Int × Nat) :=
  (Text.strtol (mem.drop s) 10).map fun (val, n) => (val, s + n)

/-- The rounds of the loop of `get_ip`, each with what has to stand behind its number; a result of -1 is
`none`. -/
def getIpRounds (mem : List Byte) : (stops : List Byte) → (ip : Word) → (s : Nat) →
    Option (Option (Word × Nat))
  | [], ip, s => some (some (ip, s - 1))
  | stop :: stops, ip, s => do
      let (val, s) ← strtol mem s
      let c ← mem[s]?
      if val < 0 ∨ 255 < val ∨ c ≠ stop then some none
      else getIpRounds mem stops (ip <<< 8 ||| .ofInt 32 val) (s + 1)

/-- What has to stand behind the four octets. -/
def ipStops : List Byte := [ch '.', ch '.', ch '.', ch ':']

/-- `get_ip`: the address, and where its end pointer stands. -/
def getIp (mem : List Byte) (s : Nat) : Option (Option (Word × Nat)) :=
  getIpRounds mem ipStops 0 s

/-- `htonl`. -/
def htonl (w : Word) : Word :=
  word (w.extractLsb' 0 8) (w.extractLsb' 8 8) (w.extractLsb' 16 8) (w.extractLsb' 24 8)

/-- `errno`. -/
inductive Errno where
  | enoent
  deriving DecidableEq

/-- The second half of `service_create_pipe`: the port, at `relpath`. -/
def readPort (mem : List Byte) (destIp : Word) (relpath : Nat) :
    Option (Except Errno (Word × Half)) := do
  let (val, relpath) ← strtol mem relpath
  let c ← mem[relpath]?
  if val < 0 ∨ 0xffff < val ∨ c ≠ 0 then some (.error .enoent)
  else some (.ok (destIp, .ofInt 16 val))

/-- What it does with the result of `get_ip`: the port is read `portAt` behind the end pointer, and `order`
is what is done to the address. -/
def behindIp (portAt : Nat) (order : Word → Word) (mem : List Byte) :
    Option (Word × Nat) → Option (Except Errno (Word × Half))
  | none => some (.error .enoent)
  | some (ip, relpath) => readPort mem (order ip) (relpath + portAt)

/-- What `service_create_pipe` takes from a path: `dest_ip` and `dest_port`. -/
def createDest (portAt : Nat) (order : Word → Word) (path : List Byte) :
    Option (Except Errno (Word × Half)) := do
  let mem := path ++ [0]
  let c ← mem[0]?
  if c = 0 then some (.ok (0, 0))
  else (getIp mem 1).bind (behindIp portAt order mem)

/-- The TCP service, up to `tcp_connect`. -/
def tcpDest (path : List Byte) : Option (Except Errno (Word × Half)) := createDest 1 id path

/-- The UDP service: the connection, for the port that `get_user_port` gives. -/
def udpCreatePipe (path : List Byte) (port : Half) : Option (Except Errno UdpConnection) :=
  (createDest 0 htonl path).map fun r => r.map fun dest => newUdpConnection 0 dest port

/-! ### The purpose -/

/-- `/a.b.c.d:p`, without leading zeros. -/
def addressText (a b c d : Byte) (p : Half) : List Byte :=
  ch '/' :: (decimalText a.toNat ++ ch '.' :: (decimalText b.toNat ++ ch '.' ::
    (decimalText c.toNat ++ ch '.' :: (decimalText d.toNat ++ ch ':' :: decimalText p.toNat))))

/-- A decimal number up to `max`, of any number of digits. -/
def IsDecimal (max : Nat) (f : List Byte) : Prop :=
  f ≠ [] ∧ (∀ c ∈ f, isdigit c = true) ∧ Nat.ofDigits 10 (f.map digitOf).reverse ≤ max

/-- Four octets and a port in decimal. -/
def DottedQuad (path : List Byte) : Prop :=
  ∃ a b c d p, IsDecimal 255 a ∧ IsDecimal 255 b ∧ IsDecimal 255 c ∧ IsDecimal 255 d ∧
    IsDecimal 65535 p ∧
    path = ch '/' :: (a ++ ch '.' :: (b ++ ch '.' :: (c ++ ch '.' :: (d ++ ch ':' :: p))))

/-- The UDP service takes a well-formed path to the same destination as the TCP service, and both reject
what is not an address. -/
def AddressPath (path : List Byte) : Prop :=
  (∀ a b c d p, path = addressText a b c d p → ∀ port, ∃ f, udpCreatePipe path port = some (.ok f) ∧
    tcpDest path = some (.ok (f.destIp, f.destPort))) ∧
  (¬ DottedQuad path → (∀ port, udpCreatePipe path port = some (.error .enoent)) ∧
    tcpDest path = some (.error .enoent))

/-! ### What is accepted -/

/-- What is behind the numeral at the start of a text. -/
def behind (t : List Byte) : List Byte :=
  t.drop ((numeralOf 10 t).start + (numeralOf 10 t).digits.length)

/-- A numeral, perhaps with a sign and perhaps without digits, that `strtol` can hold. -/
structure Fits (max : Int) (t : List Byte) : Prop where
  digits : (numeralOf 10 t).digits.length < 10
  low : 0 ≤ (numeralOf 10 t).value
  high : (numeralOf 10 t).value ≤ max

/-- Numerals up to 255 with their stops, and one up to 65535 at the end. -/
def Lenient : (stops : List Byte) → List Byte → Prop
  | [], t => Fits 65535 t ∧ behind t = []
  | stop :: stops, t => Fits 255 t ∧ ∃ t', behind t = stop :: t' ∧ Lenient stops t'

/-- A numeral of ten digits or more, behind numerals up to 255 with their stops. -/
def Overlong : (stops : List Byte) → List Byte → Prop
  | [], t => 10 ≤ (numeralOf 10 t).digits.length
  | stop :: stops, t => 10 ≤ (numeralOf 10 t).digits.length ∨
      Fits 255 t ∧ ∃ t', behind t = stop :: t' ∧ Overlong stops t'

/-! ### `strtol` -/

section Strtol

variable {mem t : List Byte} {s : Nat}

theorem numeral_start (t : List Byte) : (numeralOf 10 t).start = signLength t := rfl

theorem numeral_digits (t : List Byte) :
    (numeralOf 10 t).digits = (digitRun 10 (t.drop (signLength t))).map digitOf := rfl

theorem numeral_length_le (t : List Byte) :
    (numeralOf 10 t).start + (numeralOf 10 t).digits.length ≤ t.length := by
  have hsign := signLength_le t
  have hrun : (digitRun 10 (t.drop (signLength t))).length ≤ (t.drop (signLength t)).length :=
    (List.takeWhile_sublist _).length_le
  rw [List.length_drop] at hrun
  rw [numeral_start, numeral_digits, List.length_map]
  omega

/-- Nine digits are a small number. -/
theorem numeral_small (h : (numeralOf 10 t).digits.length < 10) :
    -10 ^ 9 < (numeralOf 10 t).value ∧ (numeralOf 10 t).value < 10 ^ 9 := by
  have hdigits : ∀ d ∈ (numeralOf 10 t).digits.reverse, d < 10 := by
    intro d hd
    rw [List.mem_reverse, numeral_digits] at hd
    obtain ⟨c, hc, rfl⟩ := List.mem_map.mp hd
    have hrun := List.all_eq_true.mp List.all_takeWhile c hc
    exact (of_decide_eq_true hrun).2
  have hlt := Nat.ofDigits_lt_base_pow_length (by decide : 1 < 10) hdigits
  have hpow : 10 ^ (numeralOf 10 t).digits.reverse.length ≤ 10 ^ 9 :=
    Nat.pow_le_pow_right (by decide) (by rw [List.length_reverse]; omega)
  have hbase : (numeralOf 10 t).base = 10 := rfl
  unfold Numeral.value
  rw [hbase]
  split <;> omega

theorem detected_ten (t : List Byte) : ¬ Undetected 10 t := fun h => absurd h.1 (by decide)

/-- Ten digits or more lead out of the array. -/
theorem strtol_overlong (h : mem.drop s = t ++ [0]) (hlen : 10 ≤ (numeralOf 10 t).digits.length) :
    strtol mem s = none := by
  have hnone := strtoll_many (.inr (by decide)) (detected_ten t) hlen
  rw [Nat.cast_ofNat] at hnone
  rw [strtol, Text.strtol, h, hnone]
  rfl

theorem strtol_numeral (h : mem.drop s = t ++ [0]) (hlen : (numeralOf 10 t).digits.length < 10) :
    ∃ s', strtol mem s = some ((numeralOf 10 t).value, s') ∧ mem.drop s' = behind t ++ [0] := by
  have hsome := strtoll_few (.inr (by decide)) (detected_ten t) hlen
  rw [Nat.cast_ofNat] at hsome
  obtain ⟨hlow, hhigh⟩ := numeral_small hlen
  refine ⟨s + ((numeralOf 10 t).start + (numeralOf 10 t).digits.length), ?_, ?_⟩
  · rw [strtol, h, strtol_holds hsome (by rw [longMin]; omega) (by rw [longMax]; omega)]
    rfl
  · rw [← List.drop_drop, h, List.drop_append_of_le_length (numeral_length_le t)]
    rfl

/-- The cell where the numeral ends. -/
theorem cell_behind {s' : Nat} (h : mem.drop s' = t ++ [0]) :
    mem[s']? = some (t.headD 0) := by
  have hcell : (mem.drop s')[0]? = (t ++ [0])[0]? := by rw [h]
  rw [List.getElem?_drop, Nat.add_zero] at hcell
  rw [hcell]
  cases t <;> rfl

end Strtol

/-! ### `service_create_pipe` -/

section Create

variable {mem path t : List Byte} {stops : List Byte} {s : Nat} {ip : Word}

/-- The second half, with a numeral that `strtol` can hold. -/
theorem readPort_eq (h : mem.drop s = t ++ [0]) (hlt : (numeralOf 10 t).digits.length < 10)
    (ip : Word) :
    readPort mem ip s =
      if (numeralOf 10 t).value < 0 ∨ 0xffff < (numeralOf 10 t).value ∨ (behind t).headD 0 ≠ 0 then
        some (.error .enoent)
      else some (.ok (ip, .ofInt 16 (numeralOf 10 t).value)) := by
  obtain ⟨s', hs', hdrop⟩ := strtol_numeral h hlt
  rw [readPort, hs', Option.bind_eq_bind, Option.bind_some]
  dsimp only
  rw [cell_behind hdrop]
  rfl

/-- One round, with a numeral that `strtol` can hold. -/
theorem getIpRounds_cons (h : mem.drop s = t ++ [0]) (hlt : (numeralOf 10 t).digits.length < 10)
    (stop : Byte) (stops : List Byte) (ip : Word) :
    ∃ s', mem.drop s' = behind t ++ [0] ∧ getIpRounds mem (stop :: stops) ip s =
      if (numeralOf 10 t).value < 0 ∨ 255 < (numeralOf 10 t).value ∨ (behind t).headD 0 ≠ stop then
        some none
      else getIpRounds mem stops (ip <<< 8 ||| .ofInt 32 (numeralOf 10 t).value) (s' + 1) := by
  obtain ⟨s', hs', hdrop⟩ := strtol_numeral h hlt
  refine ⟨s', hdrop, ?_⟩
  rw [getIpRounds, hs', Option.bind_eq_bind, Option.bind_some]
  dsimp only
  rw [cell_behind hdrop]
  rfl

/-- A string has no byte that ends it. -/
theorem headD_eq_zero {u : List Byte} (h0 : 0 ∉ u) : u.headD 0 = 0 ↔ u = [] := by
  cases u with
  | nil => exact iff_of_true rfl rfl
  | cons c u =>
      refine iff_of_false (fun hc => h0 ?_) (List.cons_ne_nil c u)
      rw [List.headD_cons] at hc
      exact hc ▸ List.mem_cons_self ..

/-- The port is the rest of the path. -/
theorem readPort_cases (h : mem.drop s = t ++ [0]) (h0 : 0 ∉ t) (ip : Word) :
    (readPort mem ip s = none ∧ Overlong [] t) ∨
      (∃ dest, readPort mem ip s = some (.ok dest) ∧ Lenient [] t) ∨
      (readPort mem ip s = some (.error .enoent) ∧ ¬ Overlong [] t ∧ ¬ Lenient [] t) := by
  rcases Nat.lt_or_ge (numeralOf 10 t).digits.length 10 with hlt | hge
  · have hend : (behind t).headD 0 = 0 ↔ behind t = [] :=
      headD_eq_zero fun hmem => h0 (List.mem_of_mem_drop hmem)
    rw [readPort_eq h hlt]
    split
    · rename_i hbad
      refine .inr (.inr ⟨rfl, Nat.not_le.mpr hlt, ?_⟩)
      rintro ⟨hfits, hb⟩
      rcases hbad with hbad | hbad | hbad
      · exact absurd hfits.low (Int.not_le.mpr hbad)
      · exact absurd hfits.high (Int.not_le.mpr hbad)
      · exact hbad (hend.mpr hb)
    · rename_i hgood
      simp only [not_or, Int.not_lt, not_not] at hgood
      exact .inr (.inl ⟨_, rfl, ⟨hlt, hgood.1, hgood.2.1⟩, hend.mp hgood.2.2⟩)
  · refine .inl ⟨?_, hge⟩
    rw [readPort, strtol_overlong h hge]
    rfl

/-- The rest of the path from a number on, for the TCP service. -/
theorem rounds_cases (h : mem.drop s = t ++ [0]) (h0 : 0 ∉ t) (hs : 0 < s) (hstops : 0 ∉ stops)
    (order : Word → Word) (ip : Word) :
    ((getIpRounds mem stops ip s).bind (behindIp 1 order mem) = none ∧ Overlong stops t) ∨
      (∃ dest, (getIpRounds mem stops ip s).bind (behindIp 1 order mem) = some (.ok dest) ∧
        Lenient stops t) ∨
      ((getIpRounds mem stops ip s).bind (behindIp 1 order mem) = some (.error .enoent) ∧
        ¬ Overlong stops t ∧ ¬ Lenient stops t) := by
  induction stops generalizing s t ip with
  | nil =>
      rw [getIpRounds, Option.bind_some, behindIp, Nat.sub_add_cancel hs]
      exact readPort_cases h h0 (order ip)
  | cons stop stops ih =>
      rw [List.mem_cons, not_or] at hstops
      rcases Nat.lt_or_ge (numeralOf 10 t).digits.length 10 with hlt | hge
      swap
      · refine .inl ⟨?_, .inl hge⟩
        rw [getIpRounds, strtol_overlong h hge]
        rfl
      obtain ⟨s', hdrop, hround⟩ := getIpRounds_cons h hlt stop stops ip
      rw [hround]
      split
      · rename_i hbad
        have hnot : ¬ (Fits 255 t ∧ ∃ t', behind t = stop :: t') := by
          rintro ⟨hfits, t', hb⟩
          rcases hbad with hbad | hbad | hbad
          · exact absurd hfits.low (Int.not_le.mpr hbad)
          · exact absurd hfits.high (Int.not_le.mpr hbad)
          · exact hbad (by rw [hb, List.headD_cons])
        refine .inr (.inr ⟨rfl, ?_, ?_⟩)
        · rintro (hge | ⟨hfits, t', hb, -⟩)
          · exact absurd hge (Nat.not_le.mpr hlt)
          · exact hnot ⟨hfits, t', hb⟩
        · rintro ⟨hfits, t', hb, -⟩
          exact hnot ⟨hfits, t', hb⟩
      · rename_i hgood
        simp only [not_or, Int.not_lt, not_not] at hgood
        obtain ⟨hlow, hhigh, hhead⟩ := hgood
        have hfits : Fits 255 t := ⟨hlt, hlow, hhigh⟩
        cases hb : behind t with
        | nil =>
            rw [hb] at hhead
            exact absurd hhead hstops.1
        | cons c t' =>
            rw [hb, List.headD_cons] at hhead
            subst hhead
            have hnext : mem.drop (s' + 1) = t' ++ [0] := by
              rw [← List.drop_drop, hdrop, hb]
              rfl
            have h0' : 0 ∉ t' := fun hmem =>
              h0 (List.mem_of_mem_drop (hb ▸ List.mem_cons_of_mem c hmem : 0 ∈ behind t))
            have hlenient : Lenient (c :: stops) t ↔ Lenient stops t' := by
              simp only [Lenient, hfits, hb, List.cons.injEq, true_and, exists_eq_left']
            have hoverlong : Overlong (c :: stops) t ↔ Overlong stops t' := by
              simp only [Overlong, Nat.not_le.mpr hlt, hfits, hb, List.cons.injEq, true_and,
                exists_eq_left', false_or]
            rw [hlenient, hoverlong]
            exact ih hnext h0' (Nat.succ_pos s') hstops.2 _

/-- The end pointer of `get_ip` is at the last stop. -/
theorem getIpRounds_end {stop : Byte} {r : Nat} {ip' : Word}
    (h : getIpRounds mem (stop :: stops) ip s = some (some (ip', r))) :
    mem[r]? = (stop :: stops).getLast? := by
  induction stops generalizing stop s ip with
  | nil =>
      rw [getIpRounds] at h
      obtain ⟨⟨val, s'⟩, -, h⟩ := Option.bind_eq_some_iff.mp h
      obtain ⟨c, hc, h⟩ := Option.bind_eq_some_iff.mp h
      split at h
      · cases h
      · rename_i hgood
        simp only [not_or, not_not] at hgood
        cases h
        exact hc.trans (congrArg some hgood.2.2)
  | cons stop' stops ih =>
      rw [getIpRounds] at h
      obtain ⟨⟨val, s'⟩, -, h⟩ := Option.bind_eq_some_iff.mp h
      obtain ⟨c, hc, h⟩ := Option.bind_eq_some_iff.mp h
      split at h
      · cases h
      · rw [ih h, List.getLast?_cons_cons]

/-- `strtol` at the colon reads nothing. -/
theorem strtol_colon (h : mem[s]? = some (ch ':')) : strtol mem s = some (0, s) := by
  obtain ⟨hs, hget⟩ := List.getElem?_eq_some_iff.mp h
  rw [strtol, List.drop_eq_getElem_cons hs, hget]
  rfl

/-- The UDP service reads the port at the colon, and rejects the address. -/
theorem readPort_colon (h : mem[s]? = some (ch ':')) : readPort mem ip s = some (.error .enoent) := by
  rw [readPort, strtol_colon h, Option.bind_eq_bind, Option.bind_some]
  dsimp only
  rw [h]
  rfl

/-- What the path is, if it is not empty. -/
theorem createDest_cons {c : Byte} (hc : c ≠ 0) (portAt : Nat) (order : Word → Word) :
    createDest portAt order (c :: t) =
      (getIp (c :: t ++ [0]) 1).bind (behindIp portAt order (c :: t ++ [0])) := by
  rw [createDest, List.cons_append, List.getElem?_cons_zero, Option.bind_eq_bind, Option.bind_some,
    if_neg hc]

/-- **The TCP service**: a path that is not empty leads out of an array, is accepted or is rejected. -/
theorem tcpDest_cases {c : Byte} (h0 : 0 ∉ c :: t) :
    (tcpDest (c :: t) = none ∧ Overlong ipStops t) ∨
      (∃ dest, tcpDest (c :: t) = some (.ok dest) ∧ Lenient ipStops t) ∨
      (tcpDest (c :: t) = some (.error .enoent) ∧
        ¬ Overlong ipStops t ∧
        ¬ Lenient ipStops t) := by
  rw [List.mem_cons, not_or] at h0
  rw [tcpDest, createDest_cons (Ne.symm h0.1)]
  exact rounds_cases rfl h0.2 Nat.one_pos (by decide) id 0

/-- **The UDP service** rejects every path that is not empty, unless it is led out of an array. -/
theorem udp_rejects {c : Byte} (h0 : 0 ∉ c :: t) :
    createDest 0 htonl (c :: t) = some (.error .enoent) ∨
      createDest 0 htonl (c :: t) = none ∧ Overlong ipStops t := by
  have hc : c ≠ 0 := fun hc => h0 (hc ▸ List.mem_cons_self ..)
  rw [createDest_cons hc]
  cases hip : getIp (c :: t ++ [0]) 1 with
  | none =>
      have hnone : tcpDest (c :: t) = none := by
        rw [tcpDest, createDest_cons hc, hip]
        rfl
      rcases tcpDest_cases h0 with ⟨-, hlong⟩ | ⟨dest, hok, -⟩ | ⟨herr, -⟩
      · exact .inr ⟨rfl, hlong⟩
      · exact absurd (hnone.symm.trans hok) (Option.some_ne_none _).symm
      · exact absurd (hnone.symm.trans herr) (Option.some_ne_none _).symm
  | some r =>
      cases r with
      | none => exact .inl rfl
      | some r =>
          obtain ⟨ip, relpath⟩ := r
          exact .inl (readPort_colon (getIpRounds_end hip))

end Create

/-! ### Well-formed paths -/

section WellFormed

variable {mem rest stops : List Byte} {s v : Nat}

theorem digitRun_append {ds : List Nat} (hds : ∀ d ∈ ds, d < 10) (hrest : digitRun 10 rest = []) :
    digitRun 10 (ds.map (digitChar false) ++ rest) = ds.map (digitChar false) := by
  induction ds with
  | nil => exact hrest
  | cons d ds ih =>
      rw [List.forall_mem_cons] at hds
      rw [List.map_cons, List.cons_append, digitRun_cons _ _, ih hds.2]
      · rw [Console.isalnum, isdigit_digitChar hds.1, Bool.or_true]
      · rw [digitOf_digitChar hds.1]
        exact hds.1

/-- A decimal number is the numeral at its start. -/
theorem numeralOf_decimal (v : Nat) (hrest : digitRun 10 rest = []) :
    numeralOf 10 (decimalText v ++ rest) = ⟨false, 10, 0, (decimals v).reverse⟩ := by
  have hds : ∀ d ∈ (decimals v).reverse, d < 10 := fun d hd => decimals_lt (List.mem_reverse.mp hd)
  have htext : decimalText v = (decimals v).reverse.map (digitChar false) := by
    rw [decimalText, if_neg (by omega), List.nil_append, Int.natAbs_natCast, List.map_reverse]
  obtain ⟨d, ds, hcons⟩ := List.exists_cons_of_ne_nil
    (List.reverse_ne_nil_iff.mpr (decimals_ne_nil v))
  have hsign : ∀ c, isdigit c = false → (decimalText v ++ rest).head? ≠ some c := by
    rintro c hc hhead
    rw [htext, hcons] at hhead
    cases hhead
    rw [isdigit_digitChar (hds d (hcons ▸ List.mem_cons_self ..))] at hc
    cases hc
  have hstart : signLength (decimalText v ++ rest) = 0 :=
    if_neg (not_or.mpr ⟨hsign 43 (by decide), hsign 45 (by decide)⟩)
  rw [numeralOf, detectBase, if_pos (by decide), hstart]
  dsimp only
  rw [Nat.add_zero, List.drop_zero, htext, digitRun_append hds hrest, map_digitOf hds, ← htext,
    decide_eq_false (hsign 45 (by decide))]

/-- What a number of the path is read as. -/
theorem decimal_field (hv : v < 10 ^ 9) (hrest : digitRun 10 rest = []) :
    (numeralOf 10 (decimalText v ++ rest)).digits.length < 10 ∧
      (numeralOf 10 (decimalText v ++ rest)).value = v ∧ behind (decimalText v ++ rest) = rest := by
  have hlen : (decimals v).length ≤ 9 := by
    rw [decimals]
    split
    · decide
    · exact (Nat.digits_length_le_iff (by decide) v).mpr hv
  have htext : (decimalText v).length = (decimals v).length := by
    rw [decimalText, if_neg (by omega), List.nil_append, Int.natAbs_natCast, List.length_reverse,
      List.length_map]
  rw [behind, numeralOf_decimal v hrest]
  refine ⟨?_, ?_, ?_⟩
  · rw [List.length_reverse]
    exact Nat.lt_succ_of_le hlen
  · rw [Numeral.value, if_neg Bool.false_ne_true, List.reverse_reverse, ofDigits_decimals]
  · rw [List.length_reverse, Nat.zero_add, ← htext, List.drop_left]

/-- A round that reads an octet. -/
theorem getIpRounds_octet {stop : Byte} (h : mem.drop s = decimalText v ++ stop :: rest ++ [0])
    (hv : v ≤ 255) (hstop : digitRun 10 (stop :: rest) = [])
    (stops : List Byte) (ip : Word) :
    ∃ s', mem.drop (s' + 1) = rest ++ [0] ∧ getIpRounds mem (stop :: stops) ip s =
      getIpRounds mem stops (ip <<< 8 ||| .ofNat 32 v) (s' + 1) := by
  obtain ⟨hlt, hvalue, hbehind⟩ := decimal_field (by omega : v < 10 ^ 9) hstop
  obtain ⟨s', hdrop, hround⟩ := getIpRounds_cons h hlt stop stops ip
  rw [hbehind] at hdrop hround
  refine ⟨s', ?_, ?_⟩
  · rw [← List.drop_drop, hdrop]
    rfl
  · have hgood : ¬ ((v : Int) < 0 ∨ 255 < (v : Int) ∨ stop ≠ stop) := by
      rintro (hlow | hhigh | hne)
      · omega
      · omega
      · exact hne rfl
    rw [hround, hvalue, List.headD_cons, if_neg hgood, BitVec.ofInt_natCast]

theorem octets_word (a b c d : Byte) :
    ((((0 : Word) <<< 8 ||| a.setWidth 32) <<< 8 ||| b.setWidth 32) <<< 8 ||| c.setWidth 32) <<< 8 |||
      d.setWidth 32 = word a b c d := by
  ext i hi
  simp only [word, BitVec.getElem_or, BitVec.getElem_shiftLeft, BitVec.getElem_setWidth]
  grind

/-- `get_ip` reads the address that a path names, up to the colon. -/
theorem getIp_octets {a b c d : Byte}
    (h : mem.drop s = decimalText a.toNat ++ ch '.' :: (decimalText b.toNat ++ ch '.' ::
      (decimalText c.toNat ++ ch '.' :: (decimalText d.toNat ++ ch ':' :: rest))) ++ [0]) :
    ∃ s', mem.drop (s' + 1) = rest ++ [0] ∧ getIp mem s = some (some (word a b c d, s')) := by
  have hdot : ∀ rest, digitRun 10 (ch '.' :: rest) = [] := fun rest =>
    digitRun_stop fun h => absurd h (by decide)
  have hcolon : ∀ rest, digitRun 10 (ch ':' :: rest) = [] := fun rest =>
    digitRun_stop fun h => absurd h (by decide)
  have hbyte : ∀ x : Byte, x.toNat ≤ 255 := fun x => Nat.le_of_lt_succ x.isLt
  obtain ⟨s₁, h₁, hround₁⟩ := getIpRounds_octet h (hbyte a) (hdot _) [ch '.', ch '.', ch ':'] 0
  obtain ⟨s₂, h₂, hround₂⟩ := getIpRounds_octet h₁ (hbyte b) (hdot _) [ch '.', ch ':'] _
  obtain ⟨s₃, h₃, hround₃⟩ := getIpRounds_octet h₂ (hbyte c) (hdot _) [ch ':'] _
  obtain ⟨s₄, h₄, hround₄⟩ := getIpRounds_octet h₃ (hbyte d) (hcolon _) [] _
  refine ⟨s₄, h₄, ?_⟩
  rw [getIp, ipStops, hround₁, hround₂, hround₃, hround₄, getIpRounds, Nat.add_sub_cancel]
  simp only [BitVec.ofNat_toNat, octets_word]

/-- **The TCP service** reads the destination that a well-formed path names. -/
theorem tcpDest_address (a b c d : Byte) (p : Half) :
    tcpDest (addressText a b c d p) = some (.ok (word a b c d, p)) := by
  have hp : p.toNat < 10 ^ 9 := Nat.lt_trans p.isLt (by decide)
  obtain ⟨s, hs, hip⟩ := @getIp_octets (addressText a b c d p ++ [0]) (decimalText p.toNat) 1 a b c d rfl
  obtain ⟨hlt, hvalue, hbehind⟩ := decimal_field hp (rfl : digitRun 10 [] = [])
  rw [List.append_nil] at hlt hvalue hbehind
  have hgood : ¬ ((p.toNat : Int) < 0 ∨ 0xffff < (p.toNat : Int) ∨ ([] : List Byte).headD 0 ≠ 0) := by
    rintro (hlow | hhigh | hne)
    · omega
    · have := p.isLt
      omega
    · exact hne rfl
  have hport := readPort_eq hs hlt (word a b c d)
  rw [hvalue, hbehind, if_neg hgood, BitVec.ofInt_natCast, BitVec.ofNat_toNat,
    BitVec.setWidth_eq] at hport
  rw [addressText] at hip hport
  rw [tcpDest, addressText, createDest_cons (by decide), hip, Option.bind_some]
  exact hport

end WellFormed

/-- **When a path is taken as it should be.**  No well-formed path is: the UDP service rejects it.  Any
other path is rejected by both services, unless it is empty, or `strtol` takes its fields for numbers in
their ranges, or comes to a field of ten digits. -/
theorem address_path_iff {path : List Byte} (h0 : 0 ∉ path) :
    AddressPath path ↔ (∀ a b c d p, path ≠ addressText a b c d p) ∧
      (DottedQuad path ∨ ∃ x t, path = x :: t ∧ ¬ Lenient ipStops t ∧ ¬ Overlong ipStops t) := by
  constructor
  · rintro ⟨haccept, hreject⟩
    refine ⟨fun a b c d p hpath => ?_, or_iff_not_imp_left.mpr fun hquad => ?_⟩
    · obtain ⟨f, hf, -⟩ := haccept a b c d p hpath 0
      obtain ⟨r, hr, hmap⟩ := Option.map_eq_some_iff.mp hf
      rw [hpath] at hr h0
      rcases udp_rejects h0 with herr | ⟨hnone, -⟩
      · obtain rfl := Option.some.inj (herr.symm.trans hr)
        cases hmap
      · exact absurd (hnone.symm.trans hr) (Option.some_ne_none _).symm
    · obtain ⟨-, htcp⟩ := hreject hquad
      cases path with
      | nil => exact absurd htcp (by decide)
      | cons x t =>
          rcases tcpDest_cases h0 with ⟨hnone, -⟩ | ⟨dest, hok, -⟩ | ⟨-, hlong, hlenient⟩
          · exact absurd (hnone.symm.trans htcp) (Option.some_ne_none _).symm
          · exact nomatch hok.symm.trans htcp
          · exact ⟨x, t, rfl, hlenient, hlong⟩
  · rintro ⟨hnot, hrest⟩
    refine ⟨fun a b c d p hpath => absurd hpath (hnot a b c d p), fun hquad => ?_⟩
    obtain ⟨x, t, rfl, hlenient, hlong⟩ := hrest.resolve_left hquad
    constructor
    · intro port
      rcases udp_rejects h0 with herr | ⟨-, hlong'⟩
      · rw [udpCreatePipe, herr]
        rfl
      · exact absurd hlong' hlong
    · rcases tcpDest_cases h0 with ⟨-, hlong'⟩ | ⟨dest, -, hlenient'⟩ | ⟨herr, -⟩
      · exact absurd hlong' hlong
      · exact absurd hlenient' hlenient
      · exact herr

/-- A name is rejected. -/
theorem address_path_name : AddressPath [ch '/', ch 'a'] := by
  have hbehind : ∀ t', behind [ch 'a'] ≠ ch '.' :: t' := by
    intro t' hb
    have hhead : (behind [ch 'a']).head? = some (ch '.') := by rw [hb, List.head?_cons]
    exact absurd hhead (by decide)
  refine (address_path_iff (by decide)).mpr ⟨fun a b c d p hpath => ?_, .inr ⟨_, _, rfl, ?_, ?_⟩⟩
  · have hlen := congrArg List.length hpath
    simp only [addressText, List.length_cons, List.length_append, List.length_nil] at hlen
    omega
  · rintro ⟨-, t', hb, -⟩
    exact hbehind t' hb
  · rintro (hlong | ⟨-, t', hb, -⟩)
    · exact absurd hlong (by decide)
    · exact hbehind t' hb

/-- `/1.2.3.4:80`. -/
theorem udp_rejects_address : ¬ AddressPath (addressText 1 2 3 4 80) := by
  intro h
  obtain ⟨f, hf, -⟩ := h.1 1 2 3 4 80 rfl 0
  have herr : udpCreatePipe (addressText 1 2 3 4 80) 0 = some (.error .enoent) := by decide
  exact nomatch herr.symm.trans hf

end Muxomucota.Net
