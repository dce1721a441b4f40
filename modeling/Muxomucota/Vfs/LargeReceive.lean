import Muxomucota.Vfs.LargeTransfer

/-!
# Vfs — large reads

What the service stores is in the buffer when `stream_recv` returns: in the pages of the caller that are
shared it is there at once, and from the new pages it is copied back before they are given back.
-/

namespace Muxomucota.Vfs
open Lib Stdlib

variable {σ : Type} {sbrk : Sbrk σ} {brk : σ → Nat} {s s' s₁ s₂ : Heap σ} {mem mem' : Contents}
  {data size i k a : Nat} {first last : Option Nat} {base : Nat} {live : Finset Nat} {bs : List Block}

/-! ### Storing -/

/-- Bytes that are stored at addresses that differ are there afterwards, and nothing else has changed. -/
theorem store_spec (r : Shm) (bytes : List (BitVec 8)) (k : Nat) (mem : Contents)
    (hin : ∀ j < bytes.length, r.address (k + j) ≠ none)
    (hinj : ∀ i < bytes.length, ∀ j < bytes.length, r.address (k + i) = r.address (k + j) → i = j) :
    ∃ mem', r.store bytes k mem = some mem' ∧
      (∀ j a, ∀ hj : j < bytes.length, r.address (k + j) = some a → mem' a = bytes[j]) ∧
        ∀ a, (∀ j < bytes.length, r.address (k + j) ≠ some a) → mem' a = mem a := by
  induction bytes generalizing k mem with
  | nil => exact ⟨mem, rfl, fun j a hj => absurd hj (Nat.not_lt_zero j), fun a _ => rfl⟩
  | cons b bytes ih =>
      obtain ⟨a₀, ha₀⟩ := Option.ne_none_iff_exists'.mp (hin 0 (by simp))
      rw [Nat.add_zero] at ha₀
      have hshift : ∀ j, r.address (k + 1 + j) = r.address (k + (j + 1)) := fun j => by
        rw [Nat.add_assoc, Nat.add_comm 1 j]
      obtain ⟨mem', hstore, hbytes, hrest⟩ := ih (k + 1) (Function.update mem a₀ b)
        (fun j hj => hshift j ▸ hin (j + 1) (by simpa using hj))
        (fun i hi j hj heq => by
          rw [hshift, hshift] at heq
          have := hinj (i + 1) (by simpa using hi) (j + 1) (by simpa using hj) heq
          omega)
      refine ⟨mem', ?_, fun j a hj ha => ?_, fun a ha => ?_⟩
      · rw [Shm.store, ha₀, Option.bind_some, hstore]
      · cases j with
        | zero =>
            rw [Nat.add_zero, ha₀, Option.some.injEq] at ha
            rw [hrest a, ← ha, Function.update_self]
            · rfl
            · intro j hj heq
              rw [hshift, ← ha, ← ha₀] at heq
              have := hinj (j + 1) (by simpa using hj) 0 (by simp) (by rw [heq, Nat.add_zero])
              omega
        | succ j =>
            exact hbytes j a (by simpa using hj) (by rw [hshift, ha])
      · rw [hrest a fun j hj => hshift j ▸ ha (j + 1) (by simpa using hj), Function.update_of_ne]
        rintro rfl
        exact ha 0 (by simp) (by rw [Nat.add_zero, ha₀])

/-! ### Copying back -/

/-- What is copied back from a new page. -/
def copyIf (page : Option Nat) (dst size : Nat) (mem : Contents) : Contents :=
  match page with
  | none => mem
  | some page => memcpy mem dst (page + dst % 4096) size

/-- The loop that copies back also gives the new pages back. -/
theorem copyBack_made :
    (madeLists recvFill mem data size first last s).alloced.foldlM copyBack (s, mem') =
      ((first.toList ++ last.toList).foldlM Heap.free s).map fun s' =>
        (s', copyIf last (lastPage data size) (4096 - (pagesEnd data size - data - size))
          (copyIf first data (4096 - data % 4096) mem')) := by
  have hone : ∀ (s : Heap σ) (mem : Contents) (b : Bounce), [b].foldlM copyBack (s, mem) =
      (s.free b.page).map fun s' => (s', memcpy mem b.dst (b.page + b.dst % 4096) b.size) := fun s mem b => by
    rw [List.foldlM_cons]
    simp only [List.foldlM_nil, Option.pure_def, Option.bind_eq_bind, Option.bind_fun_some, copyBack]
  cases first with
  | none =>
      cases last with
      | none => rfl
      | some q =>
          refine (hone s mem' _).trans ?_
          simp only [Option.toList, List.nil_append, List.foldlM_cons, List.foldlM_nil, Option.pure_def,
            Option.bind_eq_bind, Option.bind_fun_some, copyIf]
  | some p =>
      cases last with
      | none =>
          refine (hone s mem' _).trans ?_
          simp only [Option.toList, List.append_nil, List.foldlM_cons, List.foldlM_nil, Option.pure_def,
            Option.bind_eq_bind, Option.bind_fun_some, copyIf]
      | some q =>
          have htwo : (madeLists recvFill mem data size (some p) (some q) s).alloced =
              ⟨p, data, 4096 - data % 4096⟩ ::
                [⟨q, lastPage data size, 4096 - (pagesEnd data size - data - size)⟩] := rfl
          rw [htwo, List.foldlM_cons]
          simp only [hone, copyBack, Option.toList, List.singleton_append, List.foldlM_cons, List.foldlM_nil,
            Option.pure_def, Option.bind_eq_bind, Option.bind_fun_some, copyIf]
          cases s.free p with
          | none => rfl
          | some s₁ => rfl

/-! ### Where the bytes are -/

/-- A byte of the buffer is in its own place, in the first new page or in the last one. -/
theorem byte_address (mem : Contents) (first last : Option Nat) (s : Heap σ) (hsize : 12288 ≤ size) {j : Nat}
    (hj : j < size) :
    ∃ a, ((madeLists recvFill mem data size first last s).shm data size).address (data % 4096 + j) = some a ∧
      (a = data + j ∧ (first ≠ none → 4096 ≤ data % 4096 + j) ∧ (last ≠ none → data + j < lastPage data size) ∨
        (∃ p, first = some p ∧ data % 4096 + j < 4096 ∧ a = p + (data % 4096 + j)) ∨
          ∃ q, last = some q ∧ lastPage data size ≤ data + j ∧ a = q + (data + j - lastPage data size)) := by
  obtain ⟨hi, hbyte⟩ := shared_byte data hsize hj
  obtain ⟨hend, hpages⟩ := pagesEnd_eq data hsize
  have hstart := pagesStart_eq data
  have hlp : lastPage data size = pagesStart data + (pageCount data size - 1) * 4096 := rfl
  have hdiv := Nat.div_add_mod (data % 4096 + j) 4096
  refine ⟨_, by rw [made_address, if_pos hi], ?_⟩
  rcases sharedPage_cases first last hsize hi with
    ⟨h₀, hs⟩ | ⟨h₀, hl, hs⟩ | ⟨h₀, h₁, hs⟩
  · rw [hs]
    rw [h₀] at hbyte
    cases first with
    | none => exact .inl ⟨by rw [Option.getD_none]; omega, fun h => absurd rfl h, fun _ => by omega⟩
    | some p => exact .inr (.inl ⟨p, rfl, by omega, by rw [Option.getD_some]; omega⟩)
  · rw [hs]
    rw [hl, ← hlp] at hbyte
    cases last with
    | none => exact .inl ⟨by rw [Option.getD_none]; omega, fun _ => by omega, fun h => absurd rfl h⟩
    | some q => exact .inr (.inr ⟨q, rfl, by omega, by rw [Option.getD_some]; omega⟩)
  · rw [hs]
    exact .inl ⟨by omega, fun _ => by omega, fun _ => by omega⟩

/-- The bytes of the buffer are at addresses that differ. -/
theorem byte_address_inj (hsize : 12288 ≤ size) (hown : OwnBuffer brk s data size)
    (hb : Bounced brk s data size first last) {i j : Nat} (hi : i < size) (hj : j < size)
    (heq : ((madeLists recvFill mem data size first last s').shm data size).address (data % 4096 + i) =
      ((madeLists recvFill mem data size first last s').shm data size).address (data % 4096 + j)) : i = j := by
  obtain ⟨hend, hpages⟩ := pagesEnd_eq data hsize
  obtain ⟨hle, hlt, -⟩ := eae_eq data size
  have hlp : lastPage data size = pagesStart data + (pageCount data size - 1) * 4096 := rfl
  obtain ⟨a, ha, hcase⟩ := byte_address mem first last s' hsize hi
  obtain ⟨b, hb', hcase'⟩ := byte_address mem first last s' hsize hj
  obtain rfl : a = b := Option.some.inj (ha.symm.trans (heq.trans hb'))
  have hfirst := fun k (hk : k < size) p hp =>
    hb.first_off (a := data + k) (p := p) hown hp (by omega) (by omega)
  have hlast := fun k (hk : k < size) q hq =>
    hb.last_off (a := data + k) (q := q) hown hq (by omega) (by omega)
  rcases hcase with ⟨h₁, -, -⟩ | ⟨p, hp, hp₁, hp₂⟩ | ⟨q, hq, hq₁, hq₂⟩
  · rcases hcase' with ⟨h₂, -, -⟩ | ⟨p, hp, hp₁, hp₂⟩ | ⟨q, hq, hq₁, hq₂⟩
    · omega
    · have hoff := hfirst i hi p hp
      omega
    · have hoff := hlast i hi q hq
      omega
  · rcases hcase' with ⟨h₂, -, -⟩ | ⟨p', hp', hp₁', hp₂'⟩ | ⟨q, hq, hq₁, hq₂⟩
    · have hoff := hfirst j hj p hp
      omega
    · cases hp.symm.trans hp'
      omega
    · have hoff := hb.apart p q hp hq
      omega
  · rcases hcase' with ⟨h₂, -, -⟩ | ⟨p, hp, hp₁, hp₂⟩ | ⟨q', hq', hq₁', hq₂'⟩
    · have hoff := hlast j hj q hq
      omega
    · have hoff := hb.apart p q hp hq
      omega
    · cases hq.symm.trans hq'
      omega

theorem recvFill_page (mem : Contents) (page src ofs bcn eae a : Nat) (_ : ofs + bcn + eae = 4096)
    (h : a < page ∨ page + 4096 ≤ a) : recvFill mem page src ofs bcn eae a = mem a :=
  recvFill_outside h

theorem memcpy_outside {dst src n : Nat} (h : a < dst ∨ dst + n ≤ a) : memcpy mem dst src n a = mem a :=
  if_neg (by omega)

theorem memcpy_inside {dst src n : Nat} (hlo : dst ≤ a) (hhi : a < dst + n) :
    memcpy mem dst src n a = mem (src + (a - dst)) := if_pos ⟨hlo, hhi⟩

theorem copyIf_outside {page : Option Nat} {dst n : Nat} (h : page ≠ none → a < dst ∨ dst + n ≤ a) :
    copyIf page dst n mem a = mem a := by
  cases page with
  | none => rfl
  | some p => exact memcpy_outside (h (by simp))

/-- What has been stored is in the buffer when the new pages have been copied back, and nothing else that the
caller has is changed. -/
theorem received (mem : Contents) (s' : Heap σ) (hsize : 12288 ≤ size) (hown : OwnBuffer brk s data size)
    (hb : Bounced brk s data size first last) {bytes : List (BitVec 8)} (hlen : bytes.length ≤ size) :
    ∃ mem', ((madeLists recvFill mem data size first last s').shm data size).store bytes (data % 4096)
        (madeLists recvFill mem data size first last s').mem = some mem' ∧
      let mem'' := copyIf last (lastPage data size) (4096 - (pagesEnd data size - data - size))
        (copyIf first data (4096 - data % 4096) mem')
      (∀ j (hj : j < bytes.length), mem'' (data + j) = bytes[j]) ∧
        ∀ a, a < data ∨ data + size ≤ a → ¬Unowned brk 2 s a → mem'' a = mem a := by
  obtain ⟨hend, hpages⟩ := pagesEnd_eq data hsize
  obtain ⟨hle, hlt, -⟩ := eae_eq data size
  have hstart := pagesStart_eq data
  have hlp : lastPage data size = pagesStart data + (pageCount data size - 1) * 4096 := rfl
  have hps : pagesStart data = data / 4096 * 4096 := rfl
  obtain ⟨mem', hstore, hbytes, hrest⟩ := store_spec
    ((madeLists recvFill mem data size first last s').shm data size) bytes (data % 4096)
    (madeLists recvFill mem data size first last s').mem
    (fun j hj => by
      obtain ⟨a, ha, -⟩ := byte_address mem first last s' hsize (hj.trans_le hlen)
      rw [ha]
      exact Option.some_ne_none a)
    fun i hi j hj heq => byte_address_inj hsize hown hb (hi.trans_le hlen) (hj.trans_le hlen) heq
  refine ⟨mem', hstore, fun j hj => ?_, fun a hout hu => ?_⟩
  · have hjs := hj.trans_le hlen
    obtain ⟨a, ha, hcase⟩ := byte_address mem first last s' hsize hjs
    have hval := hbytes j a hj ha
    rcases hcase with ⟨rfl, hfirst, hlast⟩ | ⟨p, rfl, hin, rfl⟩ | ⟨q, rfl, hin, rfl⟩
    -- in its own place
    · rw [copyIf_outside fun hne => .inl (hlast hne),
        copyIf_outside fun hne => .inr (by have := hfirst hne; omega)]
      exact hval
    -- in the first page
    · rw [copyIf_outside fun _ => .inl (by omega), copyIf, memcpy_inside (by omega) (by omega),
        (by omega : p + data % 4096 + (data + j - data) = p + (data % 4096 + j))]
      exact hval
    -- in the last page
    · have hoff : ∀ x, data ≤ x → x < data + size → x < q ∨ q + 4096 ≤ x := fun x hlo hhi =>
        hb.last_off hown rfl hlo hhi
      have hx : q + (data + j - lastPage data size) < data ∨
          data + (4096 - data % 4096) ≤ q + (data + j - lastPage data size) := by
        by_contra hcon
        have hq := hoff (q + (data + j - lastPage data size)) (by omega) (by omega)
        omega
      rw [copyIf, memcpy_inside (by omega) (by omega),
        (by omega : q + lastPage data size % 4096 + (data + j - lastPage data size) =
          q + (data + j - lastPage data size)), copyIf_outside fun _ => hx]
      exact hval
  · have hpage : ∀ p, (∀ b, p ≤ b → b < p + 4096 → Unowned brk 2 s b) → a < p ∨ p + 4096 ≤ a := by
      intro p hp
      by_contra hin
      exact hu (hp a (by omega) (by omega))
    rw [copyIf_outside fun _ => by omega, copyIf_outside fun _ => by omega, hrest a]
    · exact made_outside recvFill_page (fun p hp => hpage p (hb.firstPage p hp).2)
        fun q hq => hpage q (hb.lastPage q hq).2
    · intro j hj heq
      obtain ⟨b, hb', hcase⟩ := byte_address mem first last s' hsize (hj.trans_le hlen)
      obtain rfl : a = b := Option.some.inj (heq.symm.trans hb')
      have hjs := hj.trans_le hlen
      rcases hcase with ⟨rfl, -, -⟩ | ⟨p, hp, hin, rfl⟩ | ⟨q, hq, hin, rfl⟩
      · omega
      · have hoff := hpage p (hb.firstPage p hp).2
        omega
      · have hoff := hpage q (hb.lastPage q hq).2
        omega

/-! ### The heap -/

theorem sendServed_of_recvServed (hs : RecvServed sbrk s (bouncePages data size)) :
    SendServed sbrk s (bouncePages data size) := by
  rcases bouncePages_cases data size with ⟨-, -, hn⟩ | ⟨-, -, hn⟩ | ⟨-, -, hn⟩ | ⟨-, -, hn⟩
  · rw [hn]
    trivial
  · rw [hn] at hs ⊢
    obtain ⟨-, p, s₁, ha, -⟩ := hs
    exact ⟨p, s₁, ha⟩
  · rw [hn] at hs ⊢
    obtain ⟨-, p, s₁, ha, -⟩ := hs
    exact ⟨p, s₁, ha⟩
  · rw [hn] at hs ⊢
    obtain ⟨hnot, p, s₁, ha, -, q, s₂, ha', -⟩ := hs
    exact ⟨hnot, p, s₁, q, s₂, ha, ha'⟩

/-- The pages that a served receiver gets can be given back. -/
theorem frees_of_recvServed (hb : SignedBreak sbrk brk) (h : Layout brk base s live bs)
    (hs : RecvServed sbrk s (bouncePages data size))
    (hfirst : bounceIf sbrk (data % 4096 ≠ 0) s = some (first, s₁))
    (hlast : bounceIf sbrk ((data + size) % 4096 ≠ 0) s₁ = some (last, s₂)) :
    ∃ s₃, (first.toList ++ last.toList).foldlM Heap.free s₂ = some s₃ := by
  have hone : ∀ {p : Nat} {s s' : Heap σ}, s.free p = some s' → [p].foldlM Heap.free s = some s' :=
    fun {p s s'} hfree => by
      rw [List.foldlM_cons, hfree]
      rfl
  rcases bouncePages_cases data size with ⟨h₁, h₂, hn⟩ | ⟨h₁, h₂, hn⟩ | ⟨h₁, h₂, hn⟩ | ⟨h₁, h₂, hn⟩
  · rw [bounceIf_not (not_not.mpr h₁)] at hfirst
    cases hfirst
    rw [bounceIf_not (not_not.mpr h₂)] at hlast
    cases hlast
    exact ⟨s, rfl⟩
  · obtain ⟨p, rfl, ha⟩ := bounceIf_some h₁ hfirst
    rw [bounceIf_not (not_not.mpr h₂)] at hlast
    cases hlast
    rw [hn] at hs
    obtain ⟨hnot, -⟩ := hs
    obtain ⟨s₃, -, hfree, -⟩ := (h.page hb hnot ha).free
    exact ⟨s₃, hone hfree⟩
  · rw [bounceIf_not (not_not.mpr h₁)] at hfirst
    cases hfirst
    obtain ⟨q, rfl, ha⟩ := bounceIf_some h₂ hlast
    rw [hn] at hs
    obtain ⟨hnot, -⟩ := hs
    obtain ⟨s₃, -, hfree, -⟩ := (h.page hb hnot ha).free
    exact ⟨s₃, hone hfree⟩
  · obtain ⟨p, rfl, ha₁⟩ := bounceIf_some h₁ hfirst
    obtain ⟨q, rfl, ha₂⟩ := bounceIf_some h₂ hlast
    rw [hn] at hs
    obtain ⟨hnot, p', s', ha', hnot', -⟩ := hs
    cases ha'.symm.trans ha₁
    have ht₁ := h.page hb hnot ha₁
    obtain ⟨bs₁, hl₁⟩ := ht₁.layout
    have ht₂ := hl₁.page hb hnot' ha₂
    obtain ⟨bs₂, hl₂⟩ := ht₂.layout
    have hne : q ≠ p := fun heq => ht₂.notMem (heq ▸ Finset.mem_insert_self p live)
    obtain ⟨s₃, bs₃, hfree, -, hl₃, -⟩ := hl₂.free (p := p) (by simp)
    obtain ⟨s₄, -, hfree', -⟩ := hl₃.free (p := q) (Finset.mem_erase.mpr ⟨hne, by simp⟩)
    refine ⟨s₄, ?_⟩
    change ([p] ++ [q]).foldlM Heap.free s₂ = some s₄
    rw [List.foldlM_append, hone hfree]
    exact hone hfree'

/-- Where a page stays on the list, it cannot be given back. -/
theorem recvServed_of_frees (hb : SignedBreak sbrk brk) (h : Layout brk base s live bs) {s₃ : Heap σ}
    (hfirst : bounceIf sbrk (data % 4096 ≠ 0) s = some (first, s₁))
    (hlast : bounceIf sbrk ((data + size) % 4096 ≠ 0) s₁ = some (last, s₂))
    (hfrees : (first.toList ++ last.toList).foldlM Heap.free s₂ = some s₃) :
    RecvServed sbrk s (bouncePages data size) := by
  have hhead : ∀ {p : Nat} {ps : List Nat} {s s' : Heap σ}, (p :: ps).foldlM Heap.free s = some s' →
      ∃ s'', s.free p = some s'' ∧ ps.foldlM Heap.free s'' = some s' := fun {p ps s s'} hfold => by
    rw [List.foldlM_cons] at hfold
    exact Option.bind_eq_some_iff.mp hfold
  have hsingle : ∀ {p : Nat} {s' s'' : Heap σ}, s.alignedAlloc sbrk 4096 4096 = some (p, s') →
      s'.free p = some s'' → ¬PageReused s := fun {p s' s''} ha hfree hreused => by
    obtain ⟨t, s₁, b, ha', -, -, -, -, -, -, hnone⟩ := h.free_reused sbrk hreused
    cases ha'.symm.trans ha
    rw [hnone] at hfree
    cases hfree
  rcases bouncePages_cases data size with ⟨h₁, h₂, hn⟩ | ⟨h₁, h₂, hn⟩ | ⟨h₁, h₂, hn⟩ | ⟨h₁, h₂, hn⟩
  · rw [hn]
    trivial
  · obtain ⟨p, rfl, ha⟩ := bounceIf_some h₁ hfirst
    rw [bounceIf_not (not_not.mpr h₂)] at hlast
    cases hlast
    obtain ⟨s'', hfree, -⟩ := hhead hfrees
    rw [hn]
    exact ⟨hsingle ha hfree, p, s₁, ha, trivial⟩
  · rw [bounceIf_not (not_not.mpr h₁)] at hfirst
    cases hfirst
    obtain ⟨q, rfl, ha⟩ := bounceIf_some h₂ hlast
    obtain ⟨s'', hfree, -⟩ := hhead hfrees
    rw [hn]
    exact ⟨hsingle ha hfree, q, s₂, ha, trivial⟩
  · obtain ⟨p, rfl, ha₁⟩ := bounceIf_some h₁ hfirst
    obtain ⟨q, rfl, ha₂⟩ := bounceIf_some h₂ hlast
    obtain ⟨s₄, hfree, hrest⟩ := hhead hfrees
    obtain ⟨s₅, hfree', -⟩ := hhead hrest
    have hnot : ¬PageReused s := fun hreused => by
      obtain ⟨t, s', b, ha', hl', hbm, hbf, haddr, hfit, hdvd, -⟩ := h.free_reused sbrk hreused
      cases ha'.symm.trans ha₁
      obtain ⟨t', s'', b', ha'', hl'', -, -, -, hfit', -, hnone⟩ :=
        hl'.free_reused sbrk ⟨t, h.page_again hl' hfit, hdvd⟩
      cases ha''.symm.trans ha₂
      cases (h.page_again hl' hfit).symm.trans hfit'
      rw [hnone] at hfree
      cases hfree
    have ht := h.page hb hnot ha₁
    obtain ⟨bs₁, hl₁⟩ := ht.layout
    have hnot' : ¬PageReused s₁ := fun hreused => by
      obtain ⟨t, s', b, ha', hl', hbm, hbf, haddr, hfit, hdvd, -⟩ := hl₁.free_reused sbrk hreused
      cases ha'.symm.trans ha₂
      have hlt := (hl₁.tiles.mem hbm).2.1
      have hnone := hl'.free_still (Finset.mem_insert_self p live) hfree hbm hbf (x := t)
        (Nat.le_of_eq haddr) (by omega)
      rw [hnone] at hfree'
      cases hfree'
    rw [hn]
    exact ⟨hnot, p, s₁, ha₁, hnot', q, s₂, ha₂, trivial⟩

/-! ### The calls -/

/-- A large read returns with the bytes in the buffer exactly if there are pages for its ends and none of them
stays on the free list. -/
theorem recvsRight_iff (hb : SignedBreak sbrk brk) (h : Layout brk base s live bs)
    (hown : OwnBuffer brk s data size) (hsize : 12288 ≤ size) :
    RecvsRight sbrk brk s data size ↔ RecvServed sbrk s (bouncePages data size) := by
  constructor
  · intro hrecv
    obtain ⟨s', mem', hcall, -, -⟩ := hrecv (fun _ => 0) [] (Nat.zero_le size)
    obtain ⟨l, hl, hcall⟩ := Option.bind_eq_some_iff.mp hcall
    obtain ⟨first, s₁, last, s₂, hfirst, hlast, rfl⟩ := pageLists_some hsize hl
    obtain ⟨mem'', -, hcall⟩ := Option.bind_eq_some_iff.mp hcall
    have hheap : (madeLists recvFill (fun _ => 0) data size first last s₂).heap = s₂ := rfl
    rw [hheap, copyBack_made] at hcall
    obtain ⟨s₃, hfrees, -⟩ := Option.map_eq_some_iff.mp hcall
    exact recvServed_of_frees hb h hfirst hlast hfrees
  · intro hs mem bytes hlen
    obtain ⟨first, s₁, last, s₂, hfirst, hlast, hbounced⟩ :=
      bounced_of_served hb h (sendServed_of_recvServed hs)
    obtain ⟨s₃, hfrees⟩ := frees_of_recvServed hb h hs hfirst hlast
    obtain ⟨mem', hstore, hin, hout⟩ := received mem s₂ hsize hown hbounced hlen
    refine ⟨s₃, _, ?_, hin, hout⟩
    have hheap : (madeLists recvFill mem data size first last s₂).heap = s₂ := rfl
    rw [streamRecv, pageLists_made hsize hfirst hlast, Option.bind_some, hstore, Option.bind_some, hheap,
      copyBack_made, hfrees, Option.map_some]

/-- **Large transfers.**  In a heap that calls which keep its contract have made, the service is shown exactly
the buffer, resp. what it stores comes into the buffer and nowhere else, exactly if there are pages for the
ends of the buffer and none of them stays on the free list; for sending it is enough that the first of two
does not. -/
theorem large_transfers_iff {σ : Type} {sbrk : Sbrk σ} {brk : σ → Nat} (hb : SignedBreak sbrk brk) {x : σ}
    {junk : Nat → Nat} {c : Client σ} {calls : List HeapCall} {data size : Nat}
    (h : Run (clientStep sbrk) (Fitting brk) (Client.start x junk) calls c)
    (hown : OwnBuffer brk c.heap data size) :
    (12288 ≤ size →
      (SendsRight sbrk c.heap data size ↔ SendServed sbrk c.heap (bouncePages data size))) ∧
    (16384 ≤ size →
      (RecvsRight sbrk brk c.heap data size ↔ RecvServed sbrk c.heap (bouncePages data size))) := by
  obtain ⟨bs, hl⟩ := h.invariant (I := fun c => ∃ bs, Layout brk (brk x) c.heap c.live bs)
    (fun _ _ _ hI hok hs => fitting_step hb.wrapping hI hok hs) ⟨[], layout_start hb.contiguous x junk⟩
  exact ⟨fun hsize => sendsRight_iff hb hl hown hsize,
    fun hsize => recvsRight_iff hb hl hown (by omega)⟩

set_option maxRecDepth 20000 in
/-- A buffer that begins and ends inside a page, on a new heap. -/
theorem large_transfers_new_heap :
    SendsRight signedBump (Client.start (4096 : BitVec 32) fun _ => 7).heap 0x8001 16384 ∧
      RecvsRight signedBump BitVec.toNat (Client.start (4096 : BitVec 32) fun _ => 7).heap 0x8001 16384 := by
  generalize hc : Client.start (4096 : BitVec 32) (fun _ => 7) = c
  have hl : Layout BitVec.toNat 4096 c.heap c.live [] :=
    hc ▸ layout_start signedBump_break.contiguous (4096 : BitVec 32) fun _ => 7
  have hown : OwnBuffer BitVec.toNat c.heap 0x8001 16384 := by
    refine ⟨by decide, ?_⟩
    subst hc
    rintro a hlo hhi (⟨t, ht, -⟩ | ⟨-, hin⟩)
    · cases ht
    · have hbrk : (4096 : BitVec 32).toNat = 4096 := rfl
      simp only [Client.start, hbrk] at hin
      omega
  have hnew : ∀ s : Heap (BitVec 32), alignedFit s.size 4096 4096 s.firstFree = none → ¬PageReused s := by
    rintro s hnone ⟨t, hfit, -⟩
    rw [hnone] at hfit
    cases hfit
  have hnot : ¬PageReused c.heap := hnew _ (hc ▸ rfl)
  obtain ⟨s₁, ha₁, hfree₁, hfront, hrest, hsys₁⟩ : ∃ s₁, c.heap.alignedAlloc signedBump 4096 4096 =
      some (8192, s₁) ∧ s₁.firstFree = [4096, 12288] ∧ s₁.size 4096 = 4064 ∧ s₁.size 12288 = 32 ∧
        s₁.system = 12336#32 := by
    subst hc
    exact ⟨_, rfl, rfl, rfl, rfl, rfl⟩
  obtain ⟨bs₁, hl₁⟩ := (hl.page signedBump_break hnot ha₁).layout
  have hnot₁ : ¬PageReused s₁ := by
    refine hnew s₁ ?_
    rw [hfree₁, alignedFit, List.find?_eq_none]
    intro t ht
    rcases List.mem_pair.mp ht with rfl | rfl
    · rw [hfront]
      decide
    · rw [hrest]
      decide
  obtain ⟨q, s₂, ha₂⟩ := hl₁.page_exists (t := 12336) (x := 20576#32) signedBump_break
    (by rw [hsys₁]; rfl) (by decide)
  have htwo : bouncePages 0x8001 16384 = 2 := by decide
  have hrun : Run (clientStep signedBump) (Fitting BitVec.toNat)
      (Client.start (4096 : BitVec 32) fun _ => 7) [] c := hc ▸ .refl _
  have h := large_transfers_iff signedBump_break hrun hown
  rw [htwo] at h
  exact ⟨(h.1 (by decide)).mpr ⟨hnot, _, _, _, _, ha₁, ha₂⟩,
    (h.2 (by decide)).mpr ⟨hnot, _, _, ha₁, hnot₁, _, _, ha₂, trivial⟩⟩

/-- A free block that has a page right behind its header: both ends of the buffer go into that page. -/
theorem both_ends_in_one_page : ∃ c,
    Run (clientStep signedBump) (Fitting BitVec.toNat) (Client.start 0x100ff0 fun _ => 7)
      [.malloc 8192, .free 0x101000] c ∧
      OwnBuffer BitVec.toNat c.heap 0x200001 12288 ∧ ¬SendsRight signedBump c.heap 0x200001 12288 := by
  have hfits : Fits BitVec.toNat (Client.start (0x100ff0 : BitVec 32) fun _ => 7).heap 8192 :=
    ⟨by decide, .inr (by decide)⟩
  have hrun : ∃ c, Run (clientStep signedBump) (Fitting BitVec.toNat) (Client.start 0x100ff0 fun _ => 7)
      [.malloc 8192, .free 0x101000] c ∧ c.heap.firstFree = [0x100ff0] ∧ c.heap.size 0x100ff0 = 8192 ∧
        c.heap.system = 0x103000 :=
    ⟨_, .more hfits rfl (.one (.inr (by decide)) rfl), rfl, rfl, rfl⟩
  obtain ⟨c, hrun, hfree, hblock, hsys⟩ := hrun
  obtain ⟨bs, hl⟩ := hrun.invariant (I := fun c => ∃ bs, Layout BitVec.toNat 0x100ff0 c.heap c.live bs)
    (fun _ _ _ hI hok hs => fitting_step signedBump_break.wrapping hI hok hs)
    ⟨[], layout_start signedBump_break.contiguous 0x100ff0 fun _ => 7⟩
  have hown : OwnBuffer BitVec.toNat c.heap 0x200001 12288 := by
    refine ⟨by decide, ?_⟩
    rintro a hlo hhi (⟨t, ht, hin⟩ | ⟨-, hin⟩)
    · rw [hfree, List.mem_singleton] at ht
      rw [ht, hblock] at hin
      omega
    · have hbrk : (0x103000 : BitVec 32).toNat = 0x103000 := rfl
      rw [hsys, hbrk] at hin
      omega
  have hfit : alignedFit c.heap.size 4096 4096 c.heap.firstFree = some 0x100ff0 := by
    rw [hfree, alignedFit, List.find?_cons_of_pos]
    rw [hblock]
    decide
  refine ⟨c, hrun, hown, fun hsend => ?_⟩
  have hserved := (sendsRight_iff signedBump_break hl hown (by decide)).mp hsend
  have htwo : bouncePages 0x200001 12288 = 2 := by decide
  rw [htwo] at hserved
  exact hserved.1 ⟨_, hfit, by decide⟩

end Muxomucota.Vfs
