import Muxomucota.Stdlib.PageAlloc

/-!
# Vfs — large transfers

`stream_send` and `stream_recv` from 12288 resp. 16384 bytes on.  The pages of the caller's buffer are passed
to `shm_make`, the first and the last one as a page from `aligned_alloc` where the buffer does not begin or
end at a page boundary.  A shared memory object has its pages one behind the other, and the service finds the
data at the offset.  A buffer ends below the kernel, so no sum of addresses wraps.
-/

namespace Muxomucota.Vfs
open Lib Stdlib

abbrev Contents := Nat → BitVec 8

def memset (mem : Contents) (d : Nat) (c : BitVec 8) (n : Nat) : Contents := fun a =>
  if d ≤ a ∧ a < d + n then c else mem a

/-- Of bytes that do not overlap the copy. -/
def memcpy (mem : Contents) (d s n : Nat) : Contents := fun a =>
  if d ≤ a ∧ a < d + n then mem (s + (a - d)) else mem a

/-- `start`. -/
def pagesStart (data : Nat) : Nat := data / 4096 * 4096

/-- `end`. -/
def pagesEnd (data size : Nat) : Nat := (data + size + 4095) / 4096 * 4096

def pageCount (data size : Nat) : Nat := (pagesEnd data size - pagesStart data) / 4096

/-- A page from `aligned_alloc`: `alloced`, `alloced_dst` and `alloced_size`. -/
structure Bounce where
  page : Nat
  dst : Nat
  size : Nat

/-- The heap and the memory, and what the loop over the pages makes. -/
structure PageLists (σ : Type) where
  heap : Heap σ
  mem : Contents
  val : List Nat
  pcl : List Nat
  alloced : List Bounce
  ofs : Nat

section

variable {σ : Type}

/-- What is passed to `shm_make`. -/
structure Shm where
  pageCount : Nat
  val : List Nat
  pcl : List Nat
  ofs : Nat

/-- One round of the loop of both functions, which differ in what they do with a new page; `none` is an
`aligned_alloc` that does not return, or a third page in `alloced`. -/
def pageStep (sbrk : Sbrk σ) (fill : Contents → Nat → Nat → Nat → Nat → Nat → Contents) (data size : Nat)
    (l : PageLists σ) (i : Nat) : Option (PageLists σ) :=
  let eae := if i < pageCount data size - 1 then 0 else pagesEnd data size - data - size
  let bcn := 4096 - l.ofs - eae
  let addr := pagesStart data + i * 4096
  if l.ofs ≠ 0 ∨ eae ≠ 0 then
    if l.alloced.length = 2 then none
    else (l.heap.alignedAlloc sbrk 4096 4096).map fun r =>
      { heap := r.2, mem := fill l.mem r.1 addr l.ofs bcn eae, val := l.val ++ [r.1], pcl := l.pcl ++ [1],
        alloced := l.alloced ++ [⟨r.1, addr + l.ofs, bcn⟩], ofs := 0 }
  else some { l with val := l.val ++ [addr], pcl := l.pcl ++ [1], ofs := 0 }

/-- The loop. -/
def pageLists (sbrk : Sbrk σ) (fill : Contents → Nat → Nat → Nat → Nat → Nat → Contents) (s : Heap σ)
    (mem : Contents) (data size : Nat) : Option (PageLists σ) :=
  (List.range (pageCount data size)).foldlM (pageStep sbrk fill data size) ⟨s, mem, [], [], [], data % 4096⟩

/-- The call of `shm_make`. -/
def PageLists.shm (l : PageLists σ) (data size : Nat) : Shm :=
  { pageCount := pageCount data size, val := l.val, pcl := l.pcl, ofs := data % 4096 }

/-! ### `stream_send` -/

/-- The caller's bytes go into a new page, with zeros before and behind them. -/
def sendFill (mem : Contents) (page src ofs bcn eae : Nat) : Contents :=
  memset (memcpy (memset mem page 0 ofs) (page + ofs) (src + ofs) bcn) (page + ofs + bcn) 0 eae

/-- `stream_send` up to `shm_make`. -/
def streamSend (sbrk : Sbrk σ) (s : Heap σ) (mem : Contents) (data size : Nat) : Option (PageLists σ) :=
  pageLists sbrk sendFill s mem data size

/-! ### The shared memory -/

namespace Shm

/-- The pages in order, as many behind each address as its count says. -/
def pages (r : Shm) : List Nat :=
  ((r.val.zip r.pcl).take r.pageCount).flatMap fun p => (List.range p.2).map fun k => p.1 + k * 4096

/-- The address of a byte of the object; `none` is behind it. -/
def address (r : Shm) (k : Nat) : Option Nat := (r.pages[k / 4096]?).map fun page => page + k % 4096

/-- The service stores bytes from the `k`-th byte of the object on. -/
def store (r : Shm) : List (BitVec 8) → Nat → Contents → Option Contents
  | [], _, mem => some mem
  | b :: bytes, k, mem => (r.address k).bind fun a => r.store bytes (k + 1) (Function.update mem a b)

end Shm

/-! ### `stream_recv` -/

/-- A new page is zero. -/
def recvFill (mem : Contents) (page _src _ofs _bcn _eae : Nat) : Contents := memset mem page 0 4096

/-- One round of the loop that copies back. -/
def copyBack (p : Heap σ × Contents) (b : Bounce) : Option (Heap σ × Contents) :=
  (p.1.free b.page).map fun s => (s, memcpy p.2 b.dst (b.page + b.dst % 4096) b.size)

/-- `stream_recv`, if the service stores these bytes. -/
def streamRecv (sbrk : Sbrk σ) (s : Heap σ) (mem : Contents) (data size : Nat) (bytes : List (BitVec 8)) :
    Option (Heap σ × Contents) :=
  (pageLists sbrk recvFill s mem data size).bind fun l =>
    ((l.shm data size).store bytes (data % 4096) l.mem).bind fun mem =>
      l.alloced.foldlM copyBack (l.heap, mem)

/-! ### What is asked of them -/

/-- The service finds the caller's bytes at the offset, and no other byte of the caller. -/
structure Shows (mem : Contents) (data size : Nat) (l : PageLists σ) : Prop where
  bytes : ∀ j, j < size →
    ((l.shm data size).address (data % 4096 + j)).map l.mem = some (mem (data + j))
  others : ∀ k a, k < data % 4096 ∨ data % 4096 + size ≤ k →
    (l.shm data size).address k = some a → l.mem a = 0

/-- Whatever the contents, the service is shown them. -/
def SendsRight (sbrk : Sbrk σ) (s : Heap σ) (data size : Nat) : Prop :=
  ∀ mem, ∃ l, streamSend sbrk s mem data size = some l ∧ Shows mem data size l

/-- Whatever the contents, and whatever the service stores, it is in the buffer when the call returns, and
nothing else that the caller has is changed. -/
def RecvsRight (sbrk : Sbrk σ) (brk : σ → Nat) (s : Heap σ) (data size : Nat) : Prop :=
  ∀ mem bytes, bytes.length ≤ size → ∃ s' mem', streamRecv sbrk s mem data size bytes = some (s', mem') ∧
    (∀ j (hj : j < bytes.length), mem' (data + j) = bytes[j]) ∧
    ∀ a, a < data ∨ data + size ≤ a → ¬Unowned brk 2 s a → mem' a = mem a

/-- How many pages are not the caller's own. -/
def bouncePages (data size : Nat) : Nat :=
  (if data % 4096 = 0 then 0 else 1) + (if (data + size) % 4096 = 0 then 0 else 1)

/-- There is memory for the pages, and if two are needed, the first does not stay on the free list. -/
def SendServed (sbrk : Sbrk σ) (s : Heap σ) : Nat → Prop
  | 0 => True
  | 1 => ∃ p s', s.alignedAlloc sbrk 4096 4096 = some (p, s')
  | _ => ¬PageReused s ∧ ∃ p s' q s'', s.alignedAlloc sbrk 4096 4096 = some (p, s') ∧
      s'.alignedAlloc sbrk 4096 4096 = some (q, s'')

/-- There is memory for the pages, and none of them stays on the free list. -/
def RecvServed (sbrk : Sbrk σ) : Heap σ → Nat → Prop
  | _, 0 => True
  | s, n + 1 => ¬PageReused s ∧ ∃ p s', s.alignedAlloc sbrk 4096 4096 = some (p, s') ∧ RecvServed sbrk s' n

/-- A buffer of the caller: it ends below the kernel, and the heap has none of it to give away. -/
structure OwnBuffer (brk : σ → Nat) (s : Heap σ) (data size : Nat) : Prop where
  fits : data + size ≤ 0xf0000000
  owned : ∀ a, data ≤ a → a < data + size → ¬Unowned brk 2 s a

end

/-! ### Pages -/

variable {σ : Type} {sbrk : Sbrk σ} {brk : σ → Nat} {s s' : Heap σ} {mem mem' : Contents}
  {data size i k : Nat} {fill : Contents → Nat → Nat → Nat → Nat → Nat → Contents} {l : PageLists σ}

/-- The pages end where they should, and there are three at least. -/
theorem pagesEnd_eq (data : Nat) (hsize : 12288 ≤ size) :
    pagesEnd data size = pagesStart data + pageCount data size * 4096 ∧ 3 ≤ pageCount data size := by
  unfold pageCount pagesEnd pagesStart
  omega

theorem pagesStart_eq (data : Nat) : pagesStart data + data % 4096 = data := by
  unfold pagesStart
  omega

/-- What is left of the last page. -/
theorem eae_eq (data size : Nat) : data + size ≤ pagesEnd data size ∧ pagesEnd data size < data + size + 4096 ∧
    (pagesEnd data size = data + size ↔ (data + size) % 4096 = 0) := by
  unfold pagesEnd
  omega

/-- `aligned_alloc` where a page is needed. -/
def bounceIf (sbrk : Sbrk σ) (needed : Prop) [Decidable needed] (s : Heap σ) :
    Option (Option Nat × Heap σ) :=
  if needed then (s.alignedAlloc sbrk 4096 4096).map fun r => (some r.1, r.2) else some (none, s)

/-- What the new pages do to the memory. -/
def fillIf (fill : Contents → Nat → Nat → Nat → Nat → Nat → Contents) (page : Option Nat)
    (src ofs bcn eae : Nat) (mem : Contents) : Contents :=
  match page with
  | none => mem
  | some page => fill mem page src ofs bcn eae

/-- The address of the last page. -/
def lastPage (data size : Nat) : Nat := pagesStart data + (pageCount data size - 1) * 4096

/-- The page that is shared as the `i`-th one. -/
def sharedPage (data size : Nat) (first last : Option Nat) (i : Nat) : Nat :=
  if i = 0 then first.getD (pagesStart data)
  else if i = pageCount data size - 1 then last.getD (lastPage data size)
  else pagesStart data + i * 4096

/-- The pages in the middle are the caller's own. -/
theorem middle_steps {n : Nat} (hofs : l.ofs = 0) (hk : k + n ≤ pageCount data size - 1) :
    (List.range' k n).foldlM (pageStep sbrk fill data size) l =
      some { l with val := l.val ++ (List.range' k n).map fun i => pagesStart data + i * 4096
                    pcl := l.pcl ++ List.replicate n 1 } := by
  induction n generalizing k l with
  | zero => simp
  | succ n ih =>
      rw [List.range'_succ, List.foldlM_cons]
      have hstep : pageStep sbrk fill data size l k =
          some { l with val := l.val ++ [pagesStart data + k * 4096], pcl := l.pcl ++ [1] } := by
        simp only [pageStep, hofs, if_pos (by omega : k < pageCount data size - 1)]
        rw [if_neg (by simp), ← hofs]
      rw [hstep, Option.bind_eq_bind, Option.bind_some,
        ih (k := k + 1)
          (l := { l with val := l.val ++ [pagesStart data + k * 4096], pcl := l.pcl ++ [1] })
          hofs (by omega)]
      simp only [List.append_assoc, List.map_cons, List.singleton_append, List.replicate_succ]

/-- The first page is a new one if the buffer begins inside. -/
theorem first_step (hsize : 12288 ≤ size) :
    pageStep sbrk fill data size ⟨s, mem, [], [], [], data % 4096⟩ 0 =
      (bounceIf sbrk (data % 4096 ≠ 0) s).map fun first =>
        { heap := first.2
          mem := fillIf fill first.1 (pagesStart data) (data % 4096) (4096 - data % 4096) 0 mem
          val := [first.1.getD (pagesStart data)], pcl := [1]
          alloced := (first.1.map fun p => ⟨p, data, 4096 - data % 4096⟩).toList, ofs := 0 } := by
  have hpages := (pagesEnd_eq data hsize).2
  simp only [pageStep, bounceIf, if_pos (by omega : 0 < pageCount data size - 1), Nat.zero_mul, Nat.add_zero,
    ne_eq, not_true_eq_false, or_false]
  split_ifs with hofs hlen
  · rw [Option.map_some]
    rfl
  · cases hlen
  · rw [pagesStart_eq, Option.map_map]
    rfl

/-- The last page is a new one if the buffer ends inside. -/
theorem last_step (hofs : l.ofs = 0) (halloced : l.alloced.length ≤ 1) :
    pageStep sbrk fill data size l (pageCount data size - 1) =
      (bounceIf sbrk ((data + size) % 4096 ≠ 0) l.heap).map fun last =>
        let eae := pagesEnd data size - data - size
        { heap := last.2
          mem := fillIf fill last.1 (lastPage data size) 0 (4096 - eae) eae l.mem
          val := l.val ++ [last.1.getD (lastPage data size)], pcl := l.pcl ++ [1]
          alloced := l.alloced ++ (last.1.map fun q => ⟨q, lastPage data size, 4096 - eae⟩).toList
          ofs := 0 } := by
  obtain ⟨hle, hlt, hzero⟩ := eae_eq data size
  have heae : pagesEnd data size - data - size ≠ 0 ↔ (data + size) % 4096 ≠ 0 := by omega
  simp only [pageStep, bounceIf, hofs, if_neg (Nat.lt_irrefl (pageCount data size - 1)), ne_eq,
    not_true_eq_false, false_or, heae]
  split_ifs with hneeded hlen
  · rw [Option.map_some]
    simp [fillIf, lastPage]
  · omega
  · rw [Option.map_map]
    simp only [Nat.sub_zero, Nat.add_zero]
    rfl

/-- The loop takes a page for the beginning and one for the end, where they are needed. -/
theorem pageLists_eq (hsize : 12288 ≤ size) : pageLists sbrk fill s mem data size =
    (bounceIf sbrk (data % 4096 ≠ 0) s).bind fun first =>
      (bounceIf sbrk ((data + size) % 4096 ≠ 0) first.2).map fun last =>
        let eae := pagesEnd data size - data - size
        { heap := last.2
          mem := fillIf fill last.1 (lastPage data size) 0 (4096 - eae) eae
            (fillIf fill first.1 (pagesStart data) (data % 4096) (4096 - data % 4096) 0 mem)
          val := (List.range (pageCount data size)).map (sharedPage data size first.1 last.1)
          pcl := List.replicate (pageCount data size) 1
          alloced := (first.1.map fun p => ⟨p, data, 4096 - data % 4096⟩).toList ++
            (last.1.map fun q => ⟨q, lastPage data size, 4096 - eae⟩).toList
          ofs := 0 } := by
  have hpages := (pagesEnd_eq data hsize).2
  obtain ⟨n, hn⟩ : ∃ n, pageCount data size = n + 2 := ⟨pageCount data size - 2, by omega⟩
  have hrange : List.range (pageCount data size) = 0 :: (List.range' 1 n ++ [pageCount data size - 1]) := by
    rw [hn, List.range_eq_range', List.range'_succ, List.range'_1_concat,
      (by omega : n + 2 - 1 = 0 + 1 + n)]
  rw [pageLists, hrange, List.foldlM_cons, first_step hsize]
  cases bounceIf sbrk (data % 4096 ≠ 0) s with
  | none => rfl
  | some first =>
      rw [Option.map_some, Option.bind_eq_bind, Option.bind_some, Option.bind_some, List.foldlM_append,
        middle_steps rfl (by omega), Option.bind_eq_bind, Option.bind_some, List.foldlM_cons,
        last_step rfl (by cases first.1 <;> simp)]
      simp only [List.foldlM_nil, Option.pure_def, Option.bind_eq_bind, Option.bind_fun_some]
      refine Option.map_congr fun last _ => ?_
      have hval : [first.1.getD (pagesStart data)] ++
            ((List.range' 1 n).map fun i => pagesStart data + i * 4096) ++
            [last.1.getD (lastPage data size)] =
          (0 :: (List.range' 1 n ++ [pageCount data size - 1])).map
            (sharedPage data size first.1 last.1) := by
        have hmid : ((List.range' 1 n).map fun i => pagesStart data + i * 4096) =
            (List.range' 1 n).map (sharedPage data size first.1 last.1) := by
          refine List.map_congr_left fun i hi => ?_
          rw [List.mem_range'_1] at hi
          rw [sharedPage, if_neg (by omega), if_neg (by omega)]
        rw [hmid]
        simp only [List.map_cons, List.map_append, List.map_nil, sharedPage, if_pos,
          if_neg (by omega : ¬pageCount data size - 1 = 0), List.cons_append, List.nil_append]
      have hpcl : [1] ++ List.replicate n 1 ++ [1] = List.replicate (pageCount data size) 1 := by
        rw [hn, List.replicate_succ, List.replicate_succ']
        rfl
      rw [hval, hpcl]

/-! ### The object -/

/-- With one page behind each address, the pages are the addresses. -/
theorem pages_of_ones (val : List Nat) :
    ((val.zip (List.replicate val.length 1)).take val.length).flatMap
      (fun p => (List.range p.2).map fun k => p.1 + k * 4096) = val := by
  induction val with
  | nil => rfl
  | cons v val ih =>
      rw [List.length_cons, List.replicate_succ, List.zip_cons_cons, List.take_succ_cons,
        List.flatMap_cons, ih]
      rfl

/-- What the loop makes, with the pages it has got. -/
def madeLists (fill : Contents → Nat → Nat → Nat → Nat → Nat → Contents) (mem : Contents) (data size : Nat)
    (first last : Option Nat) (s : Heap σ) : PageLists σ :=
  let eae := pagesEnd data size - data - size
  { heap := s
    mem := fillIf fill last (lastPage data size) 0 (4096 - eae) eae
      (fillIf fill first (pagesStart data) (data % 4096) (4096 - data % 4096) 0 mem)
    val := (List.range (pageCount data size)).map (sharedPage data size first last)
    pcl := List.replicate (pageCount data size) 1
    alloced := (first.map fun p => ⟨p, data, 4096 - data % 4096⟩).toList ++
      (last.map fun q => ⟨q, lastPage data size, 4096 - eae⟩).toList
    ofs := 0 }

variable {first last : Option Nat} {s₁ s₂ : Heap σ}

theorem pageLists_made (hsize : 12288 ≤ size)
    (hfirst : bounceIf sbrk (data % 4096 ≠ 0) s = some (first, s₁))
    (hlast : bounceIf sbrk ((data + size) % 4096 ≠ 0) s₁ = some (last, s₂)) :
    pageLists sbrk fill s mem data size = some (madeLists fill mem data size first last s₂) := by
  rw [pageLists_eq hsize, hfirst, Option.bind_some, hlast]
  rfl

/-- The loop does not return where a page is not there. -/
theorem pageLists_some (hsize : 12288 ≤ size) (h : pageLists sbrk fill s mem data size = some l) :
    ∃ first s₁ last s₂, bounceIf sbrk (data % 4096 ≠ 0) s = some (first, s₁) ∧
      bounceIf sbrk ((data + size) % 4096 ≠ 0) s₁ = some (last, s₂) ∧
        l = madeLists fill mem data size first last s₂ := by
  rw [pageLists_eq hsize] at h
  obtain ⟨⟨first, s₁⟩, hfirst, h⟩ := Option.bind_eq_some_iff.mp h
  obtain ⟨⟨last, s₂⟩, hlast, rfl⟩ := Option.map_eq_some_iff.mp h
  exact ⟨first, s₁, last, s₂, hfirst, hlast, rfl⟩

theorem made_address (k : Nat) :
    ((madeLists fill mem data size first last s).shm data size).address k =
      if k / 4096 < pageCount data size then some (sharedPage data size first last (k / 4096) + k % 4096)
      else none := by
  have hpages : ((madeLists fill mem data size first last s).shm data size).pages =
      (List.range (pageCount data size)).map (sharedPage data size first last) := by
    have hones := pages_of_ones ((List.range (pageCount data size)).map (sharedPage data size first last))
    rw [List.length_map, List.length_range] at hones
    exact hones
  rw [Shm.address, hpages, List.getElem?_map]
  split_ifs with hk
  · rw [List.getElem?_range hk]
    rfl
  · rw [List.getElem?_eq_none (by simpa using hk)]
    rfl

/-! ### The new pages -/

/-- The new pages lie at page boundaries, where nobody has anything, and apart. -/
structure Bounced (brk : σ → Nat) (s : Heap σ) (data size : Nat) (first last : Option Nat) : Prop where
  firstNone : first = none ↔ data % 4096 = 0
  lastNone : last = none ↔ (data + size) % 4096 = 0
  firstPage : ∀ p, first = some p → 4096 ∣ p ∧ ∀ a, p ≤ a → a < p + 4096 → Unowned brk 2 s a
  lastPage : ∀ q, last = some q → 4096 ∣ q ∧ ∀ a, q ≤ a → a < q + 4096 → Unowned brk 2 s a
  apart : ∀ p q, first = some p → last = some q → p + 4096 ≤ q ∨ q + 4096 ≤ p

theorem bounceIf_needed {needed : Prop} [Decidable needed] (hn : needed) {p : Nat}
    (ha : s.alignedAlloc sbrk 4096 4096 = some (p, s')) : bounceIf sbrk needed s = some (some p, s') := by
  rw [bounceIf, if_pos hn, ha]
  rfl

theorem bounceIf_not {needed : Prop} [Decidable needed] (hn : ¬needed) :
    bounceIf sbrk needed s = some (none, s) := if_neg hn

/-- How many pages are needed. -/
theorem bouncePages_cases (data size : Nat) :
    data % 4096 = 0 ∧ (data + size) % 4096 = 0 ∧ bouncePages data size = 0 ∨
    data % 4096 ≠ 0 ∧ (data + size) % 4096 = 0 ∧ bouncePages data size = 1 ∨
    data % 4096 = 0 ∧ (data + size) % 4096 ≠ 0 ∧ bouncePages data size = 1 ∨
    data % 4096 ≠ 0 ∧ (data + size) % 4096 ≠ 0 ∧ bouncePages data size = 2 := by
  unfold bouncePages
  by_cases h₁ : data % 4096 = 0 <;> by_cases h₂ : (data + size) % 4096 = 0 <;> simp [h₁, h₂]

section Served

variable {base : Nat} {live : Finset Nat} {bs : List Block}

/-- A page that is the only one. -/
theorem bounced_one (hb : SignedBreak sbrk brk) (h : Layout brk base s live bs) {p : Nat}
    (ha : s.alignedAlloc sbrk 4096 4096 = some (p, s')) :
    4096 ∣ p ∧ ∀ a, p ≤ a → a < p + 4096 → Unowned brk 2 s a := by
  obtain ⟨hdvd, hu, -⟩ := h.page_spec hb ha
  exact ⟨hdvd, fun a hlo hhi => (hu a hlo hhi).mono (by decide)⟩

/-- The pages that a served sender gets. -/
theorem bounced_of_served (hb : SignedBreak sbrk brk) (h : Layout brk base s live bs)
    (hs : SendServed sbrk s (bouncePages data size)) :
    ∃ first s₁ last s₂, bounceIf sbrk (data % 4096 ≠ 0) s = some (first, s₁) ∧
      bounceIf sbrk ((data + size) % 4096 ≠ 0) s₁ = some (last, s₂) ∧ Bounced brk s data size first last := by
  rcases bouncePages_cases data size with ⟨h₁, h₂, hn⟩ | ⟨h₁, h₂, hn⟩ | ⟨h₁, h₂, hn⟩ | ⟨h₁, h₂, hn⟩
  · exact ⟨none, s, none, s, bounceIf_not (not_not.mpr h₁), bounceIf_not (not_not.mpr h₂),
      ⟨by simp [h₁], by simp [h₂], by simp, by simp, by simp⟩⟩
  · rw [hn] at hs
    obtain ⟨p, s₁, ha⟩ := hs
    refine ⟨some p, s₁, none, s₁, bounceIf_needed h₁ ha, bounceIf_not (not_not.mpr h₂),
      ⟨by simp [h₁], by simp [h₂], ?_, by simp, by simp⟩⟩
    rintro _ ⟨⟩
    exact bounced_one hb h ha
  · rw [hn] at hs
    obtain ⟨q, s₂, ha⟩ := hs
    refine ⟨none, s, some q, s₂, bounceIf_not (not_not.mpr h₁), bounceIf_needed h₂ ha,
      ⟨by simp [h₁], by simp [h₂], by simp, ?_, by simp⟩⟩
    rintro _ ⟨⟩
    exact bounced_one hb h ha
  · rw [hn] at hs
    obtain ⟨hnot, p, s₁, q, s₂, ha₁, ha₂⟩ := hs
    have ht := h.page hb hnot ha₁
    obtain ⟨bs₁, hl₁⟩ := ht.layout
    obtain ⟨hdvd, hu, -⟩ := hl₁.page_spec hb ha₂
    refine ⟨some p, s₁, some q, s₂, bounceIf_needed h₁ ha₁, bounceIf_needed h₂ ha₂,
      ⟨by simp [h₁], by simp [h₂], ?_, ?_, ?_⟩⟩
    · rintro _ ⟨⟩
      exact bounced_one hb h ha₁
    · rintro _ ⟨⟩
      exact ⟨hdvd, fun a hlo hhi => (ht.unowned_after h (hu a hlo hhi)).1⟩
    · rintro _ _ ⟨⟩ ⟨⟩
      have hout := (ht.unowned_after h (hu q (Nat.le_refl q) (by omega))).2
      have hpage := ht.aligned
      omega

end Served

/-! ### What the service is shown -/

section Fills

variable {page src ofs bcn eae a : Nat}

theorem sendFill_outside (h : a < page ∨ page + (ofs + bcn + eae) ≤ a) :
    sendFill mem page src ofs bcn eae a = mem a := by
  unfold sendFill memset memcpy
  dsimp only
  rw [if_neg (by omega), if_neg (by omega), if_neg (by omega)]

theorem sendFill_zero (hlo : page ≤ a) (hhi : a < page + (ofs + bcn + eae))
    (h : a < page + ofs ∨ page + ofs + bcn ≤ a) : sendFill mem page src ofs bcn eae a = 0 := by
  unfold sendFill memset memcpy
  dsimp only
  split_ifs <;> first | rfl | omega

theorem sendFill_inside (hlo : page + ofs ≤ a) (hhi : a < page + ofs + bcn)
    (hsrc : src + (a - page) < page ∨ page + ofs ≤ src + (a - page)) :
    sendFill mem page src ofs bcn eae a = mem (src + (a - page)) := by
  unfold sendFill memset memcpy
  dsimp only
  have hoff : src + ofs + (a - (page + ofs)) = src + (a - page) := by omega
  rw [if_neg (by omega), if_pos (by omega), hoff, if_neg (by omega)]

theorem recvFill_outside (h : a < page ∨ page + 4096 ≤ a) : recvFill mem page src ofs bcn eae a = mem a := by
  unfold recvFill memset
  rw [if_neg (by omega)]

end Fills

section Shown

variable {a : Nat}

/-- A new page has nothing of the buffer. -/
theorem Bounced.first_off (hb : Bounced brk s data size first last) (hown : OwnBuffer brk s data size) {p : Nat}
    (hp : first = some p) (hlo : data ≤ a) (hhi : a < data + size) : a < p ∨ p + 4096 ≤ a := by
  by_contra hin
  exact hown.owned a hlo hhi ((hb.firstPage p hp).2 a (by omega) (by omega))

theorem Bounced.last_off (hb : Bounced brk s data size first last) (hown : OwnBuffer brk s data size) {q : Nat}
    (hq : last = some q) (hlo : data ≤ a) (hhi : a < data + size) : a < q ∨ q + 4096 ≤ a := by
  by_contra hin
  exact hown.owned a hlo hhi ((hb.lastPage q hq).2 a (by omega) (by omega))

/-- Outside of the new pages the memory is as it was. -/
theorem made_outside (hfill : ∀ mem page src ofs bcn eae a, ofs + bcn + eae = 4096 →
      (a < page ∨ page + 4096 ≤ a) → fill mem page src ofs bcn eae a = mem a)
    (hp : ∀ p, first = some p → a < p ∨ p + 4096 ≤ a) (hq : ∀ q, last = some q → a < q ∨ q + 4096 ≤ a) :
    (madeLists fill mem data size first last s).mem a = mem a := by
  have hofs : data % 4096 < 4096 := Nat.mod_lt _ (by decide)
  obtain ⟨hle, hlt, -⟩ := eae_eq data size
  have hfirst : fillIf fill first (pagesStart data) (data % 4096) (4096 - data % 4096) 0 mem a = mem a := by
    cases first with
    | none => rfl
    | some p => exact hfill _ _ _ _ _ _ _ (by omega) (hp p rfl)
  rw [← hfirst, madeLists]
  cases last with
  | none => rfl
  | some q => exact hfill _ _ _ _ _ _ _ (by omega) (hq q rfl)

theorem sendFill_page (mem : Contents) (page src ofs bcn eae a : Nat) (htotal : ofs + bcn + eae = 4096)
    (h : a < page ∨ page + 4096 ≤ a) : sendFill mem page src ofs bcn eae a = mem a :=
  sendFill_outside (htotal.symm ▸ h)

/-- Where a byte of the buffer is in the pages. -/
theorem shared_byte (data : Nat) (hsize : 12288 ≤ size) {j : Nat} (hj : j < size) :
    (data % 4096 + j) / 4096 < pageCount data size ∧
      pagesStart data + (data % 4096 + j) / 4096 * 4096 + (data % 4096 + j) % 4096 = data + j := by
  obtain ⟨hend, hpages⟩ := pagesEnd_eq data hsize
  obtain ⟨hle, -, -⟩ := eae_eq data size
  have hstart := pagesStart_eq data
  have hdiv := Nat.div_add_mod (data % 4096 + j) 4096
  exact ⟨by omega, by omega⟩

/-- The three kinds of pages. -/
theorem sharedPage_cases (first last : Option Nat) (hsize : 12288 ≤ size) (hi : i < pageCount data size) :
    i = 0 ∧ sharedPage data size first last i = first.getD (pagesStart data) ∨
      i ≠ 0 ∧ i = pageCount data size - 1 ∧
        sharedPage data size first last i = last.getD (lastPage data size) ∨
      0 < i ∧ i < pageCount data size - 1 ∧ sharedPage data size first last i = pagesStart data + i * 4096 := by
  have hpages := (pagesEnd_eq data hsize).2
  unfold sharedPage lastPage
  split_ifs with h₀ h₁
  · exact .inl ⟨h₀, rfl⟩
  · exact .inr (.inl ⟨h₀, h₁, rfl⟩)
  · exact .inr (.inr ⟨by omega, by omega, rfl⟩)

/-- The first page keeps what it has when the last one is filled. -/
theorem made_first (hb : Bounced brk s data size first last) {p x : Nat} (hp : first = some p)
    (hx : x < 4096) : (madeLists sendFill mem data size first last s').mem (p + x) =
      sendFill mem p (pagesStart data) (data % 4096) (4096 - data % 4096) 0 (p + x) := by
  obtain ⟨hle, hlt, -⟩ := eae_eq data size
  subst hp
  rw [madeLists]
  cases hq : last with
  | none => rfl
  | some q =>
      have hapart := hb.apart p q rfl hq
      exact sendFill_page _ q _ _ _ _ _ (by omega) (by omega)

/-- What is in the last page. -/
theorem made_last {q a : Nat} (hq : last = some q) :
    (madeLists sendFill mem data size first last s').mem a =
      sendFill (fillIf sendFill first (pagesStart data) (data % 4096) (4096 - data % 4096) 0 mem) q
        (lastPage data size) 0 (4096 - (pagesEnd data size - data - size))
        (pagesEnd data size - data - size) a := by
  subst hq
  rfl

/-- The service is shown the buffer. -/
theorem shows_made (hsize : 12288 ≤ size) (hown : OwnBuffer brk s data size)
    (hb : Bounced brk s data size first last) :
    Shows mem data size (madeLists sendFill mem data size first last s') where
  bytes j hj := by
    obtain ⟨hi, hbyte⟩ := shared_byte data hsize hj
    obtain ⟨hend, hpages⟩ := pagesEnd_eq data hsize
    obtain ⟨hle, hlt, hzero⟩ := eae_eq data size
    have hstart := pagesStart_eq data
    have hlp : lastPage data size = pagesStart data + (pageCount data size - 1) * 4096 := rfl
    have hx : (data % 4096 + j) % 4096 < 4096 := Nat.mod_lt _ (by decide)
    have hfirst := fun p hp => hb.first_off (a := data + j) (p := p) hown hp (by omega) (by omega)
    have hlast := fun q hq => hb.last_off (a := data + j) (q := q) hown hq (by omega) (by omega)
    have hold : (madeLists sendFill mem data size first last s').mem (data + j) = mem (data + j) :=
      made_outside sendFill_page hfirst hlast
    rw [made_address, if_pos hi, Option.map_some, Option.some.injEq]
    rcases sharedPage_cases first last hsize hi with
      ⟨h₀, hs⟩ | ⟨h₀, hl, hs⟩ | ⟨h₀, h₁, hs⟩
    -- in the first page
    · rw [hs]
      rw [h₀] at hbyte
      cases hp : first with
      | none =>
          rw [hp] at hold
          rw [Option.getD_none, (by omega : pagesStart data + (data % 4096 + j) % 4096 = data + j)]
          exact hold
      | some p =>
          have hoff := hfirst p hp
          subst hp
          have haddr : pagesStart data + (p + (data % 4096 + j) % 4096 - p) = data + j := by omega
          rw [Option.getD_some, made_first hb rfl hx, sendFill_inside (by omega) (by omega) (by omega),
            haddr]
    -- in the last page
    · rw [hs]
      rw [hl, ← hlp] at hbyte
      cases hq : last with
      | none =>
          rw [hq] at hold
          rw [Option.getD_none, hbyte]
          exact hold
      | some q =>
          have hoff := hlast q hq
          rw [Option.getD_some, made_last rfl, sendFill_inside (by omega) (by omega) (by omega)]
          have haddr : lastPage data size + (q + (data % 4096 + j) % 4096 - q) = data + j := by omega
          rw [haddr]
          cases hp : first with
          | none => rfl
          | some p => exact sendFill_page _ p _ _ _ _ _ (by omega) (hfirst p hp)
    -- in between
    · rw [hs, hbyte]
      exact hold
  others k a hk ha := by
    obtain ⟨hend, hpages⟩ := pagesEnd_eq data hsize
    obtain ⟨hle, hlt, hzero⟩ := eae_eq data size
    have hstart := pagesStart_eq data
    have hx : k % 4096 < 4096 := Nat.mod_lt _ (by decide)
    rw [made_address] at ha
    split_ifs at ha with hi
    cases ha
    have hdiv := Nat.div_add_mod k 4096
    rcases sharedPage_cases first last hsize hi with
      ⟨h₀, hs⟩ | ⟨h₀, hl, hs⟩ | ⟨h₀, h₁, hs⟩
    · rw [hs]
      cases hp : first with
      | none =>
          have hofs := hb.firstNone.mp hp
          omega
      | some p =>
          subst hp
          rw [Option.getD_some, made_first hb rfl hx]
          exact sendFill_zero (by omega) (by omega) (by omega)
    · rw [hs]
      have hlp : lastPage data size = pagesStart data + (pageCount data size - 1) * 4096 := rfl
      cases hq : last with
      | none =>
          have hnone := hb.lastNone.mp hq
          omega
      | some q =>
          rw [Option.getD_some, made_last rfl]
          exact sendFill_zero (by omega) (by omega) (by omega)
    · omega

/-! ### Where one page is taken twice -/

variable {base : Nat} {live : Finset Nat} {bs : List Block}

/-- If the first page stays on the list, it is the last one too. -/
theorem reused_twice (sbrk : Sbrk σ) (h : Layout brk base s live bs) (hreused : PageReused s) :
    ∃ p s₁ s₂, s.alignedAlloc sbrk 4096 4096 = some (p, s₁) ∧
      s₁.alignedAlloc sbrk 4096 4096 = some (p, s₂) ∧ ∀ a, p ≤ a → a < p + 4096 → Unowned brk 2 s a := by
  obtain ⟨t, hfit, hdvd⟩ := hreused
  obtain ⟨s₁, ha₁, hl₁, -⟩ := h.page_reused sbrk hfit hdvd
  obtain ⟨s₂, ha₂, -, -⟩ := hl₁.page_reused sbrk (h.page_again hl₁ hfit) hdvd
  exact ⟨t + 16, s₁, s₂, ha₁, ha₂, fun a hlo hhi => (unowned_reused hfit hdvd hlo hhi).mono (by decide)⟩

/-- Then the first byte of the buffer is not shown. -/
theorem not_shows_twice (hsize : 12288 ≤ size) (hown : OwnBuffer brk s data size) {p : Nat}
    (hp : ∀ a, p ≤ a → a < p + 4096 → Unowned brk 2 s a)
    (hdata : mem data ≠ 0) (hrest : ∀ a, a ≠ data → mem a = 0) :
    ¬Shows mem data size (madeLists sendFill mem data size (some p) (some p) s') := by
  intro h
  obtain ⟨hend, hpages⟩ := pagesEnd_eq data hsize
  obtain ⟨hle, hlt, -⟩ := eae_eq data size
  have hstart := pagesStart_eq data
  have hofs : data % 4096 < 4096 := Nat.mod_lt _ (by decide)
  have hlp : lastPage data size = pagesStart data + (pageCount data size - 1) * 4096 := rfl
  have hbyte := h.bytes 0 (by omega)
  have hfirst : sharedPage data size (some p) (some p) 0 = p := rfl
  rw [Nat.add_zero, Nat.add_zero, made_address, Nat.div_eq_of_lt hofs, if_pos (by omega), hfirst,
    Nat.mod_mod, Option.map_some, made_last rfl, Option.some.injEq] at hbyte
  by_cases hin : data % 4096 < 4096 - (pagesEnd data size - data - size)
  · have hoff : lastPage data size + data % 4096 < p ∨ p + 4096 ≤ lastPage data size + data % 4096 := by
      by_contra hcon
      exact hown.owned (lastPage data size + data % 4096) (by omega) (by omega) (hp _ (by omega) (by omega))
    have hsub : lastPage data size + (p + data % 4096 - p) = lastPage data size + data % 4096 := by omega
    have hsame := sendFill_page mem p (pagesStart data) (data % 4096) (4096 - data % 4096) 0
      (lastPage data size + data % 4096) (by omega) hoff
    rw [sendFill_inside (by omega) (by omega) (by omega), hsub] at hbyte
    exact hdata (hbyte.symm.trans (hsame.trans (hrest _ (by omega))))
  · rw [sendFill_zero (by omega) (by omega) (by omega)] at hbyte
    exact hdata hbyte.symm

theorem bounceIf_some {needed : Prop} [Decidable needed] (hn : needed) {r : Option Nat}
    (h : bounceIf sbrk needed s = some (r, s')) : ∃ p, r = some p ∧ s.alignedAlloc sbrk 4096 4096 = some (p, s') := by
  rw [bounceIf, if_pos hn] at h
  obtain ⟨⟨p, s₁⟩, ha, h⟩ := Option.map_eq_some_iff.mp h
  cases h
  exact ⟨p, rfl, ha⟩

/-- A large buffer is shown to the service exactly if there are pages for its ends, not one for both. -/
theorem sendsRight_iff (hb : SignedBreak sbrk brk) (h : Layout brk base s live bs)
    (hown : OwnBuffer brk s data size) (hsize : 12288 ≤ size) :
    SendsRight sbrk s data size ↔ SendServed sbrk s (bouncePages data size) := by
  constructor
  · intro hsend
    obtain ⟨l, hl, hshows⟩ := hsend fun a => if a = data then 1 else 0
    obtain ⟨first, s₁, last, s₂, hfirst, hlast, rfl⟩ := pageLists_some hsize hl
    rcases bouncePages_cases data size with ⟨h₁, h₂, hn⟩ | ⟨h₁, h₂, hn⟩ | ⟨h₁, h₂, hn⟩ | ⟨h₁, h₂, hn⟩
    · rw [hn]
      trivial
    · rw [hn]
      obtain ⟨p, -, ha⟩ := bounceIf_some h₁ hfirst
      exact ⟨p, s₁, ha⟩
    · rw [hn]
      obtain ⟨q, -, ha⟩ := bounceIf_some h₂ hlast
      rw [bounceIf_not (not_not.mpr h₁)] at hfirst
      cases hfirst
      exact ⟨q, s₂, ha⟩
    · rw [hn]
      obtain ⟨p, rfl, ha₁⟩ := bounceIf_some h₁ hfirst
      obtain ⟨q, rfl, ha₂⟩ := bounceIf_some h₂ hlast
      refine ⟨fun hreused => ?_, p, s₁, q, s₂, ha₁, ha₂⟩
      obtain ⟨r, s₃, s₄, ha₃, ha₄, hu⟩ := reused_twice sbrk h hreused
      cases ha₃.symm.trans ha₁
      cases ha₄.symm.trans ha₂
      exact not_shows_twice hsize hown hu (by simp) (fun a ha => if_neg ha) hshows
  · intro hs mem
    obtain ⟨first, s₁, last, s₂, hfirst, hlast, hbounced⟩ := bounced_of_served hb h hs
    exact ⟨_, pageLists_made hsize hfirst hlast, shows_made hsize hown hbounced⟩

end Shown

end Muxomucota.Vfs
