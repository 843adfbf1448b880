import SsuOs.Alloc.Page

/-!
# The multi-page allocator

The allocator of `hw5/ealloc`: up to four pages, each mapped when the ones before it have no room,
handed out in multiples of 256 bytes by first fit.  `dealloc` goes over all pages, since its `break`
leaves the inner loop only.  For every history of calls the tables represent exactly the blocks that
were handed out and not given back, and the mapped pages are the first ones
(`represents_of_history`), as long as `mmap` does not fail.
-/

namespace SsuOs.Alloc.Pages

open Page (mapFailed Call Live)

/-- `PAGESIZE`, `MINALLOC`, `NUM` and `PNUM`. -/
abbrev pageSize : ℕ := 4096

abbrev minAlloc : ℕ := 256

abbrev num : ℕ := 16

abbrev pnum : ℕ := 4

/-- The variables `start` and `mem`, and what `mmap` returns from here on. -/
structure Heap where
  start : Fin pnum → ℕ
  mem : Fin pnum → Fin num → Mm
  mmap : ℕ → ℕ

/-- `init_alloc`, in a process whose calls of `mmap` will return `mmap 0`, `mmap 1`, … -/
def initAlloc (mmap : ℕ → ℕ) : Heap := ⟨fun _ => 0, fun _ _ => .unused minAlloc, mmap⟩

/-- `start[p] = mmap(…)`. -/
def Heap.mapPage (heap : Heap) (p : Fin pnum) : Heap :=
  { heap with
    start := Function.update heap.start p (heap.mmap 0)
    mmap := fun n => heap.mmap (n + 1) }

/-- Mark a block of `valid` bytes at slot `i` of page `p`. -/
def Heap.place (heap : Heap) (p : Fin pnum) (i : Fin num) (valid : ℕ) : Heap :=
  { heap with
    mem := Function.update heap.mem p
      (Function.update (heap.mem p) i (.block minAlloc (heap.start p) i valid)) }

/-- The search of page `p`; `next` is the rest of the loop over the pages. -/
def allocIn (size : ℤ) (p : Fin pnum) (next : Heap → ℕ × Heap) (heap : Heap) : ℕ × Heap :=
  match search minAlloc (heap.mem p) size num 0 with
  | some (i, valid) => (i * minAlloc + heap.start p, heap.place p i valid)
  | none => next heap

/-- The loop of `alloc` over the pages that remain. -/
def allocFrom (size : ℤ) : List (Fin pnum) → Heap → ℕ × Heap
  | [], heap => (0, heap)
  | p :: rest, heap =>
      if heap.start p = 0 then
        if (heap.mapPage p).start p = mapFailed then (0, heap.mapPage p)
        else allocIn size p (allocFrom size rest) (heap.mapPage p)
      else allocIn size p (allocFrom size rest) heap

/-- `alloc` returns an address, or 0 for `NULL`. -/
def alloc (heap : Heap) (size : ℤ) : ℕ × Heap :=
  if size > pageSize ∨ size.tmod 8 ≠ 0 then (0, heap)
  else allocFrom size (List.finRange pnum) heap

def dealloc (heap : Heap) (adr : ℕ) : Heap :=
  { heap with mem := fun p => release minAlloc (heap.mem p) adr }

/-! ## Histories -/

/-- A call, together with the blocks that are handed out and not given back. -/
def exec (s : Heap × List Live) : Call → Heap × List Live
  | .alloc size =>
      ((alloc s.1 size).2,
        if (alloc s.1 size).1 = 0 then s.2 else s.2 ++ [⟨(alloc s.1 size).1, size⟩])
  | .dealloc adr => (dealloc s.1 adr, s.2.filter fun a => a.adr ≠ adr)

/-- What the calls of `mmap` return in the loop of `alloc`, from page `p` on. -/
def mapsIn (size : ℤ) (p : Fin pnum) (more : Heap → List ℕ) (heap : Heap) : List ℕ :=
  match search minAlloc (heap.mem p) size num 0 with
  | some _ => []
  | none => more heap

def mapsFrom (size : ℤ) : List (Fin pnum) → Heap → List ℕ
  | [], _ => []
  | p :: rest, heap =>
      if heap.start p = 0 then
        heap.mmap 0 ::
          if (heap.mapPage p).start p = mapFailed then []
          else mapsIn size p (mapsFrom size rest) (heap.mapPage p)
      else mapsIn size p (mapsFrom size rest) heap

/-- What `mmap` returns during a call. -/
def maps (heap : Heap) : Call → List ℕ
  | .alloc size =>
      if size > pageSize ∨ size.tmod 8 ≠ 0 then [] else mapsFrom size (List.finRange pnum) heap
  | .dealloc _ => []

/-- The bytes of the block at `adr`, by the recorded size. -/
def Heap.extent (heap : Heap) (adr : ℕ) : Set ℕ :=
  {x | ∃ p i, (heap.mem p i).flag = 1 ∧ (heap.mem p i).adr = adr ∧ adr ≤ x ∧
    x < adr + (heap.mem p i).size}

/-- The live blocks are disjoint, each lies in one mapped page on a multiple of 256 bytes of it and
is as large as it has to be; the mapped pages are the first ones, in the order in which `mmap`
returned them; and no pointer but the start of a live block has any effect in `dealloc`. -/
structure Represents (mmap : ℕ → ℕ) (heap : Heap) (live : List Live) : Prop where
  disjoint : live.Pairwise fun a b => Disjoint (heap.extent a.adr) (heap.extent b.adr)
  block : ∀ a ∈ live, ∃ (p : Fin pnum) (i : Fin num) (size : ℕ), heap.start p ≠ 0 ∧
    heap.mem p i = ⟨a.adr, size, 1⟩ ∧ a.adr = heap.start p + minAlloc * i ∧
    a.adr + size ≤ heap.start p + pageSize ∧
    IsLeast {m : ℕ | 0 < m ∧ minAlloc ∣ m ∧ a.request ≤ m} size
  mapped : ∃ k ≤ pnum, ∀ p : Fin pnum, heap.start p = if p < k then mmap p else 0
  dealloc : ∀ adr, (∀ a ∈ live, a.adr ≠ adr) → dealloc heap adr = heap

/-- The first `k` calls of `mmap` return pages: they are not `NULL`, lie in the address space and do
not overlap. -/
structure PagesTo (mmap : ℕ → ℕ) (k : ℕ) : Prop where
  pos : ∀ n < k, 0 < mmap n
  inside : ∀ n < k, mmap n + pageSize ≤ 2 ^ 64
  apart : ∀ m < k, ∀ n < k, m ≠ n → mmap m + pageSize ≤ mmap n ∨ mmap n + pageSize ≤ mmap m

/-- The invariant behind `Represents`, by pages and slots. -/
structure Inv (mmap : ℕ → ℕ) (k : ℕ) (heap : Heap) (live : List Live) : Prop where
  few : k ≤ pnum
  start : ∀ p : Fin pnum, heap.start p = if p < k then mmap p else 0
  later : ∀ n, heap.mmap n = mmap (k + n)
  table : ∀ p, WellFormed minAlloc (heap.start p) (heap.mem p)
  empty : ∀ p : Fin pnum, k ≤ p → heap.mem p = fun _ => .unused minAlloc
  head : ∀ a ∈ live, ∃ p i, (heap.mem p i).flag = 1 ∧ a.adr = i * minAlloc + heap.start p ∧
    IsLeast {m : ℕ | 0 < m ∧ minAlloc ∣ m ∧ a.request ≤ m} (heap.mem p i).size
  live_of_flag : ∀ p i, (heap.mem p i).flag = 1 → ∃ a ∈ live, a.adr = i * minAlloc + heap.start p
  distinct : live.Pairwise fun a b => a.adr ≠ b.adr

/-- Each of the first `pnum` calls of `mmap` returns a page that does not overlap the others, or
fails. -/
structure MayFail (mmap : ℕ → ℕ) : Prop where
  page : ∀ n < pnum, mmap n = mapFailed ∨ (0 < mmap n ∧ mmap n + pageSize ≤ 2 ^ 64)
  apart : ∀ m < pnum, ∀ n < pnum, m ≠ n → mmap m ≠ mapFailed → mmap n ≠ mapFailed →
    mmap m + pageSize ≤ mmap n ∨ mmap n + pageSize ≤ mmap m

section Inv

variable {mmap : ℕ → ℕ} {k : ℕ} {heap : Heap} {live : List Live}

theorem PagesTo.mayFail (fresh : PagesTo mmap pnum) : MayFail mmap where
  page n hn := .inr ⟨fresh.pos n hn, fresh.inside n hn⟩
  apart m hm n hn other _ _ := fresh.apart m hm n hn other

theorem PagesTo.mono (fresh : PagesTo mmap pnum) (few : k ≤ pnum) : PagesTo mmap k where
  pos n hn := fresh.pos n (hn.trans_le few)
  inside n hn := fresh.inside n (hn.trans_le few)
  apart m hm n hn := fresh.apart m (hm.trans_le few) n (hn.trans_le few)

theorem MayFail.pagesTo (env : MayFail mmap) (few : k ≤ pnum)
    (works : ∀ n < k, mmap n ≠ mapFailed) : PagesTo mmap k where
  pos n hn := ((env.page n (hn.trans_le few)).resolve_left (works n hn)).1
  inside n hn := ((env.page n (hn.trans_le few)).resolve_left (works n hn)).2
  apart m hm n hn other :=
    env.apart m (hm.trans_le few) n (hn.trans_le few) other (works m hm) (works n hn)

theorem PagesTo.ne_mapFailed (fresh : PagesTo mmap k) {n : ℕ} (hn : n < k) :
    mmap n ≠ mapFailed := by
  have := fresh.inside n hn
  simp only [mapFailed, pageSize] at this ⊢
  omega

theorem PagesTo.succ (fresh : PagesTo mmap k) (env : MayFail mmap) (few : k < pnum)
    (works : mmap k ≠ mapFailed) : PagesTo mmap (k + 1) := by
  refine env.pagesTo few fun n hn => ?_
  rcases Nat.lt_succ_iff_lt_or_eq.1 hn with before | rfl
  · exact fresh.ne_mapFailed before
  · exact works

/-- A page with a marked slot is mapped. -/
theorem Inv.mapped_of_flag (inv : Inv mmap k heap live) {p : Fin pnum} {i : Fin num}
    (marked : (heap.mem p i).flag = 1) : p < k := by
  by_contra unmapped
  rw [inv.empty p (not_lt.1 unmapped)] at marked
  simp [Mm.unused] at marked

theorem Inv.start_pos (inv : Inv mmap k heap live) (fresh : PagesTo mmap k) {p : Fin pnum}
    (mapped : p < k) : 0 < heap.start p := by
  rw [inv.start p, if_pos mapped]
  exact fresh.pos p mapped

/-- An address tells the page and the slot of a marked block. -/
theorem Inv.slot_inj (inv : Inv mmap k heap live) (fresh : PagesTo mmap k) {p q : Fin pnum}
    {i j : Fin num} (hp : p < k) (hq : q < k)
    (same : i * minAlloc + heap.start p = j * minAlloc + heap.start q) : p = q ∧ i = j := by
  rw [inv.start p, inv.start q, if_pos hp, if_pos hq] at same
  by_cases pages : p = q
  · subst pages
    exact ⟨rfl, Alloc.slot_inj (by decide) same⟩
  · have away := fresh.apart p hp q hq fun e => pages (Fin.ext e)
    have hi : i.val < 16 := i.isLt
    have hj : j.val < 16 := j.isLt
    simp only [pageSize, minAlloc] at away same
    omega

theorem Inv.mapped_of_start (inv : Inv mmap k heap live) {p : Fin pnum}
    (mapped : heap.start p ≠ 0) : p < k := by
  by_contra later
  exact mapped ((inv.start p).trans (if_neg later))

/-- The first page that is not mapped is the next one. -/
theorem Inv.eq_of_unmapped (inv : Inv mmap k heap live) (fresh : PagesTo mmap k) {p : Fin pnum}
    (reached : p ≤ k) (unmapped : heap.start p = 0) : p.val = k := by
  refine le_antisymm reached (not_lt.1 fun mapped => ?_)
  have := inv.start_pos fresh mapped
  omega

theorem Inv.mapPage_start (inv : Inv mmap k heap live) {p : Fin pnum} (next : p.val = k) :
    (heap.mapPage p).start p = mmap p := by
  change Function.update heap.start p (heap.mmap 0) p = _
  rw [Function.update_self, inv.later, Nat.add_zero, next]

/-- The next page is mapped when all the ones before it are. -/
theorem Inv.mapPage (inv : Inv mmap k heap live) {p : Fin pnum} (next : p.val = k) :
    Inv mmap (k + 1) (heap.mapPage p) live := by
  have kept {q : Fin pnum} (other : q ≠ p) : (heap.mapPage p).start q = heap.start q :=
    Function.update_of_ne other ..
  have unmarked {q : Fin pnum} {i : Fin num} (marked : (heap.mem q i).flag = 1) : q ≠ p := by
    rintro rfl
    have := inv.mapped_of_flag marked
    omega
  refine ⟨?_, fun q => ?_, fun n => ?_, fun q => ?_, fun q later => ?_, fun a ha => ?_,
    fun q i marked => ?_, inv.distinct⟩
  · have := p.isLt
    omega
  · by_cases same : q = p
    · subst same
      rw [inv.mapPage_start next, if_pos (by omega)]
    · rw [kept same, inv.start q]
      have : q.val ≠ p.val := fun e => same (Fin.ext e)
      exact if_congr (by omega) rfl rfl
  · change heap.mmap (n + 1) = _
    rw [inv.later]
    congr 1
    omega
  · by_cases same : q = p
    · subst same
      change WellFormed minAlloc _ (heap.mem q)
      rw [inv.empty q (by omega)]
      exact .unused _
    · rw [kept same]
      exact inv.table q
  · exact inv.empty q (by omega)
  · obtain ⟨q, i, marked, hadr, hsize⟩ := inv.head a ha
    exact ⟨q, i, marked, by rw [kept (unmarked marked)]; exact hadr, hsize⟩
  · obtain ⟨a, ha, hadr⟩ := inv.live_of_flag q i marked
    exact ⟨a, ha, by rw [kept (unmarked marked)]; exact hadr⟩

/-- A block can be marked where a search has found room for it. -/
theorem Inv.place (inv : Inv mmap k heap live) (fresh : PagesTo mmap k) {p : Fin pnum}
    (mapped : p < k) {size : ℤ} {i : Fin num} {n : ℕ}
    (fits : Fits minAlloc (heap.mem p) size i n) :
    Inv mmap k (heap.place p i (minAlloc * n))
      (live ++ [⟨i * minAlloc + heap.start p, size⟩]) := by
  have unmarked := fits.unmarked
  have self : (heap.place p i (minAlloc * n)).mem p =
      Function.update (heap.mem p) i (.block minAlloc (heap.start p) i (minAlloc * n)) :=
    Function.update_self ..
  have kept {q : Fin pnum} (other : q ≠ p) :
      (heap.place p i (minAlloc * n)).mem q = heap.mem q :=
    Function.update_of_ne other ..
  have old {q : Fin pnum} {j : Fin num} (marked : (heap.mem q j).flag = 1) :
      (heap.place p i (minAlloc * n)).mem q j = heap.mem q j := by
    by_cases page : q = p
    · subst page
      rw [self, Function.update_of_ne]
      rintro rfl
      exact unmarked marked
    · rw [kept page]
  have new : (heap.place p i (minAlloc * n)).mem p i =
      .block minAlloc (heap.start p) i (minAlloc * n) := by
    rw [self, Function.update_self]
  refine ⟨inv.few, inv.start, inv.later, fun q => ?_, fun q later => ?_, fun a ha => ?_,
    fun q j marked => ?_, ?_⟩
  · by_cases page : q = p
    · subst page
      rw [self]
      exact (inv.table q).place fits
    · rw [kept page]
      exact inv.table q
  · rw [kept]
    · exact inv.empty q later
    · rintro rfl
      omega
  · rcases List.mem_append.1 ha with before | last
    · obtain ⟨q, j, marked, hadr, hsize⟩ := inv.head a before
      exact ⟨q, j, by rw [old marked]; exact marked, hadr, by rw [old marked]; exact hsize⟩
    · obtain rfl := List.mem_singleton.1 last
      exact ⟨p, i, by rw [new]; rfl, rfl, by rw [new]; exact fits.least⟩
  · by_cases here : q = p ∧ j = i
    · obtain ⟨rfl, rfl⟩ := here
      exact ⟨_, List.mem_append_right _ (List.mem_singleton_self _), rfl⟩
    · have before : (heap.mem q j).flag = 1 := by
        by_cases page : q = p
        · subst page
          rwa [self, Function.update_of_ne fun slot => here ⟨rfl, slot⟩] at marked
        · rwa [kept page] at marked
      obtain ⟨a, ha, hadr⟩ := inv.live_of_flag q j before
      exact ⟨a, List.mem_append_left _ ha, hadr⟩
  · refine List.pairwise_append.2 ⟨inv.distinct, List.pairwise_singleton .., fun a ha b hb => ?_⟩
    obtain rfl := List.mem_singleton.1 hb
    obtain ⟨q, j, marked, hadr, -⟩ := inv.head a ha
    intro clash
    rw [hadr] at clash
    obtain ⟨rfl, rfl⟩ := inv.slot_inj fresh (inv.mapped_of_flag marked) mapped clash
    exact unmarked marked

/-- A result of `alloc`: `NULL` and the same live blocks, or a new one. -/
def Allocates (mmap : ℕ → ℕ) (size : ℤ) (live : List Live) (r : ℕ × Heap) : Prop :=
  ∃ k, Inv mmap k r.2 (if r.1 = 0 then live else live ++ [⟨r.1, size⟩])

/-- What may come of the loop over the pages when `k` of them are mapped: the pages that `mmap` has
returned on the way, `ms`, are the next ones, or it has failed for one of them. -/
inductive Outcome (mmap : ℕ → ℕ) (k : ℕ) (size : ℤ) (live : List Live) (ms : List ℕ) (r : ℕ × Heap) :
    Prop
  | served (k' : ℕ) (fresh : PagesTo mmap k') (works : mapFailed ∉ ms)
      (pages : (List.range k).map mmap ++ ms = (List.range k').map mmap)
      (inv : Inv mmap k' r.2 (if r.1 = 0 then live else live ++ [⟨r.1, size⟩]))
  | failed (p : Fin pnum) (unmapped : k ≤ p) (fails : mmap p = mapFailed) (mem : mapFailed ∈ ms)
      (null : r.1 = 0) (start : r.2.start p = mapFailed)

/-- The page that was mapped first is one of those returned. -/
theorem Outcome.mapPage {size : ℤ} {ms : List ℕ} {r : ℕ × Heap} (works : mmap k ≠ mapFailed)
    (outcome : Outcome mmap (k + 1) size live ms r) :
    Outcome mmap k size live (mmap k :: ms) r := by
  cases outcome with
  | served k' fresh rest pages inv =>
    refine .served k' fresh (List.not_mem_cons_of_ne_of_not_mem works.symm rest) ?_ inv
    rw [← pages, List.range_succ, List.map_append, List.append_assoc]
    rfl
  | failed p unmapped fails mem null start =>
    exact .failed p (by omega) fails (List.mem_cons_of_mem _ mem) null start

/-- One page of the loop: it hands out a block, or leaves the page mapped for the rest. -/
theorem Inv.allocIn (inv : Inv mmap k heap live) (fresh : PagesTo mmap k) {p : Fin pnum}
    (mapped : p < k) (size : ℤ) {next : Heap → ℕ × Heap} {more : Heap → List ℕ}
    (rest : Outcome mmap k size live (more heap) (next heap)) :
    Outcome mmap k size live (mapsIn size p more heap) (Pages.allocIn size p next heap) := by
  unfold Pages.allocIn mapsIn
  rcases search_cases (inv.table p) (by decide) size with none_fits | ⟨i, n, found, fits⟩
  · rw [none_fits]
    exact rest
  · rw [found]
    have start_pos := inv.start_pos fresh mapped
    have returned : i * minAlloc + heap.start p ≠ 0 := by omega
    refine .served k fresh List.not_mem_nil (List.append_nil _) ?_
    rw [if_neg returned]
    exact inv.place fresh mapped fits

theorem Inv.allocFrom_cons (inv : Inv mmap k heap live) (fresh : PagesTo mmap k)
    (env : MayFail mmap) {p : Fin pnum} (reached : p ≤ k) (size : ℤ) {rest : List (Fin pnum)}
    (next : ∀ k' heap', Inv mmap k' heap' live → PagesTo mmap k' → p < k' →
      Outcome mmap k' size live (mapsFrom size rest heap') (allocFrom size rest heap')) :
    Outcome mmap k size live (mapsFrom size (p :: rest) heap) (allocFrom size (p :: rest) heap) := by
  rw [allocFrom, mapsFrom]
  by_cases unmapped : heap.start p = 0
  · have page := inv.eq_of_unmapped fresh reached unmapped
    have result := inv.mapPage_start page
    have returned : heap.mmap 0 = mmap k := inv.later 0
    rw [if_pos unmapped, if_pos unmapped, result, returned]
    split_ifs with fails
    · exact .failed p page.ge fails (by rw [← page, fails]; exact List.mem_singleton_self _) rfl
        (result.trans fails)
    · rw [page] at fails
      have inv' := inv.mapPage page
      have fresh' := fresh.succ env (page ▸ p.isLt) fails
      exact (inv'.allocIn fresh' (by omega) size (next _ _ inv' fresh' (by omega))).mapPage fails
  · have mapped := inv.mapped_of_start unmapped
    rw [if_neg unmapped, if_neg unmapped]
    exact inv.allocIn fresh mapped size (next _ _ inv fresh mapped)

theorem Inv.alloc_outcome (inv : Inv mmap k heap live) (fresh : PagesTo mmap k)
    (env : MayFail mmap) (size : ℤ) :
    Outcome mmap k size live (maps heap (.alloc size)) (alloc heap size) := by
  simp only [Pages.alloc, maps]
  split_ifs with refused
  · exact .served k fresh List.not_mem_nil (List.append_nil _) inv
  · change Outcome mmap k size live (mapsFrom size [0, 1, 2, 3] heap)
      (allocFrom size [0, 1, 2, 3] heap)
    refine inv.allocFrom_cons fresh env (Nat.zero_le k) size fun _ _ inv fresh reached => ?_
    refine inv.allocFrom_cons (p := 1) fresh env reached size fun _ _ inv fresh reached => ?_
    refine inv.allocFrom_cons (p := 2) fresh env reached size fun _ _ inv fresh reached => ?_
    refine inv.allocFrom_cons (p := 3) fresh env reached size fun k' _ inv fresh _ => ?_
    exact .served k' fresh List.not_mem_nil (List.append_nil _) inv

theorem Inv.alloc (inv : Inv mmap k heap live) (fresh : PagesTo mmap pnum) (size : ℤ) :
    Allocates mmap size live (alloc heap size) := by
  cases inv.alloc_outcome (fresh.mono inv.few) fresh.mayFail size with
  | served k' _ _ _ inv' => exact ⟨k', inv'⟩
  | failed p _ fails => exact absurd fails (fresh.ne_mapFailed p.isLt)

theorem Inv.dealloc_other (inv : Inv mmap k heap live) {adr : ℕ}
    (other : ∀ a ∈ live, a.adr ≠ adr) : dealloc heap adr = heap := by
  unfold Pages.dealloc
  have same (p : Fin pnum) : release minAlloc (heap.mem p) adr = heap.mem p := by
    refine release_other (inv.table p) fun i marked clash => ?_
    obtain ⟨a, ha, hadr⟩ := inv.live_of_flag p i marked
    exact other a ha (hadr.trans clash)
  simp only [same]

/-- `dealloc` of a live block unmarks its entry and leaves the other pages as they are. -/
theorem Inv.dealloc_block (inv : Inv mmap k heap live) (fresh : PagesTo mmap k) {p : Fin pnum}
    {i : Fin num} (marked : (heap.mem p i).flag = 1) (q : Fin pnum) :
    (dealloc heap (i * minAlloc + heap.start p)).mem q =
      if q = p then Function.update (heap.mem p) i (.unused minAlloc) else heap.mem q := by
  have mapped := inv.mapped_of_flag marked
  change release minAlloc (heap.mem q) _ = _
  split_ifs with page
  · subst page
    exact release_block (inv.table q) (by decide) (inv.start_pos fresh mapped) marked
  · refine release_other (inv.table q) fun j marked' clash => page ?_
    exact (inv.slot_inj fresh (inv.mapped_of_flag marked') mapped clash).1

theorem Inv.dealloc (inv : Inv mmap k heap live) (fresh : PagesTo mmap k) (adr : ℕ) :
    Inv mmap k (dealloc heap adr) (live.filter fun a => a.adr ≠ adr) := by
  by_cases known : ∃ a ∈ live, a.adr = adr
  · obtain ⟨a, ha, rfl⟩ := known
    obtain ⟨p, i, marked, hadr, -⟩ := inv.head a ha
    have tables := inv.dealloc_block fresh marked
    rw [← hadr] at tables
    -- a slot other than the freed one keeps its entry
    have kept {q : Fin pnum} {j : Fin num} (other : ¬ (q = p ∧ j = i)) :
        (Pages.dealloc heap a.adr).mem q j = heap.mem q j := by
      rw [tables]
      split_ifs with page
      · subst page
        exact Function.update_of_ne (fun slot => other ⟨rfl, slot⟩) ..
      · rfl
    refine ⟨inv.few, inv.start, inv.later, fun q => ?_, fun q later => ?_, fun b hb => ?_,
      fun q j marked' => ?_, inv.distinct.filter _⟩
    · rw [tables]
      split_ifs with page
      · subst page
        exact (inv.table q).remove i
      · exact inv.table q
    · rw [tables, if_neg]
      · exact inv.empty q later
      · rintro rfl
        have := inv.mapped_of_flag marked
        omega
    · obtain ⟨old, away⟩ : b ∈ live ∧ b.adr ≠ a.adr := by simpa using hb
      obtain ⟨q, j, marked', hadr', hsize⟩ := inv.head b old
      have other : ¬ (q = p ∧ j = i) := by
        rintro ⟨rfl, rfl⟩
        exact away (hadr'.trans hadr.symm)
      exact ⟨q, j, by rw [kept other]; exact marked', hadr', by rw [kept other]; exact hsize⟩
    · have other : ¬ (q = p ∧ j = i) := by
        rintro ⟨rfl, rfl⟩
        rw [tables, if_pos rfl, Function.update_self] at marked'
        simp [Mm.unused] at marked'
      rw [kept other] at marked'
      obtain ⟨b, hb, hadr'⟩ := inv.live_of_flag q j marked'
      refine ⟨b, ?_, hadr'⟩
      simp only [List.mem_filter, hb, true_and, decide_eq_true_eq]
      intro clash
      rw [hadr', hadr] at clash
      exact other (inv.slot_inj fresh (inv.mapped_of_flag marked') (inv.mapped_of_flag marked) clash)
  · have absent : ∀ a ∈ live, a.adr ≠ adr := fun a ha clash => known ⟨a, ha, clash⟩
    rw [inv.dealloc_other absent, List.filter_eq_self.2 fun a ha => by simpa using absent a ha]
    exact inv

theorem Inv.calls (inv : Inv mmap k heap live) (fresh : PagesTo mmap pnum) (calls : List Call) :
    ∃ k', Inv mmap k' (calls.foldl exec (heap, live)).1 (calls.foldl exec (heap, live)).2 := by
  induction calls generalizing k heap live with
  | nil => exact ⟨k, inv⟩
  | cons c calls ih =>
    cases c with
    | alloc size =>
      obtain ⟨k', inv'⟩ := inv.alloc fresh size
      exact ih inv'
    | dealloc adr => exact ih (inv.dealloc (fresh.mono inv.few) adr)

/-- A marked block ends within its page. -/
theorem Inv.table_inside (inv : Inv mmap k heap live) {p : Fin pnum} {i : Fin num}
    (marked : (heap.mem p i).flag = 1) : i * minAlloc + (heap.mem p i).size ≤ pageSize := by
  obtain ⟨n, -, bound, entry⟩ := (inv.table p).block_of_flag marked
  rw [entry]
  change i * minAlloc + minAlloc * n ≤ _
  calc i * minAlloc + minAlloc * n = minAlloc * (i + n) := by ring
    _ ≤ minAlloc * num := Nat.mul_le_mul_left _ bound

theorem Inv.disjoint (inv : Inv mmap k heap live) (fresh : PagesTo mmap k) :
    live.Pairwise fun a b => Disjoint (heap.extent a.adr) (heap.extent b.adr) := by
  refine inv.distinct.imp fun {a b} apart => Set.disjoint_left.2 ?_
  rintro x ⟨p, i, hi, ha, low, high⟩ ⟨q, j, hj, hb, low', high'⟩
  rw [← ha] at low high
  rw [← hb] at low' high'
  by_cases page : p = q
  · subst page
    obtain rfl := (inv.table p).eq_of_overlap hi hj low high low' high'
    exact apart (ha.symm.trans hb)
  · have mapped := inv.mapped_of_flag hi
    have mapped' := inv.mapped_of_flag hj
    have inside := inv.table_inside hi
    have inside' := inv.table_inside hj
    have ranges := fresh.apart p mapped q mapped' fun e => page (Fin.ext e)
    rw [(inv.table p).adr_eq hi, inv.start p, if_pos mapped] at low high
    rw [(inv.table q).adr_eq hj, inv.start q, if_pos mapped'] at low' high'
    simp only [pageSize] at ranges inside inside'
    omega

theorem Inv.represents (inv : Inv mmap k heap live) (fresh : PagesTo mmap k) :
    Represents mmap heap live where
  disjoint := inv.disjoint fresh
  block a ha := by
    obtain ⟨p, i, marked, hadr, hsize⟩ := inv.head a ha
    have inside := inv.table_inside marked
    refine ⟨p, i, (heap.mem p i).size, ?_, ?_, by rw [hadr]; ring, ?_, hsize⟩
    · exact (inv.start_pos fresh (inv.mapped_of_flag marked)).ne'
    · rw [hadr, ← (inv.table p).adr_eq marked, ← marked]
    · rw [hadr, Nat.add_comm _ (heap.start p), Nat.add_assoc]
      exact Nat.add_le_add_left inside _
  mapped := ⟨k, inv.few, inv.start⟩
  dealloc _ other := inv.dealloc_other other

theorem inv_initAlloc (mmap : ℕ → ℕ) : Inv mmap 0 (initAlloc mmap) [] :=
  ⟨Nat.zero_le _, fun _ => rfl, fun n => by rw [Nat.zero_add]; rfl, fun _ => .unused _,
    fun _ _ => rfl, by simp, fun p i marked => by simp [initAlloc, Mm.unused] at marked, .nil⟩

end Inv

/-- After `init_alloc`, in a process where `mmap` returns fresh pages, every history of `alloc` and
`dealloc` calls, with any sizes and any pointers, leaves tables that represent the live blocks. -/
theorem represents_of_history (mmap : ℕ → ℕ) (fresh : PagesTo mmap pnum) (calls : List Call) :
    Represents mmap (calls.foldl exec (initAlloc mmap, [])).1
      (calls.foldl exec (initAlloc mmap, [])).2 := by
  obtain ⟨k, inv⟩ := (inv_initAlloc mmap).calls fresh calls
  exact inv.represents (fresh.mono inv.few)

/-- A request that fits on no page mapped so far, one that is not a multiple of 256 bytes, and
pointers that are not live. -/
theorem represents_of_history_newPage :
    Represents (fun n => 0x10000 * (n + 1))
      ([.alloc 264, .alloc 4096, .dealloc 0x10100, .dealloc 0x10000].foldl exec
        (initAlloc fun n => 0x10000 * (n + 1), [])).1
      ([.alloc 264, .alloc 4096, .dealloc 0x10100, .dealloc 0x10000].foldl exec
        (initAlloc fun n => 0x10000 * (n + 1), [])).2 :=
  represents_of_history _ ⟨by decide, by decide, by decide⟩ _

end SsuOs.Alloc.Pages
