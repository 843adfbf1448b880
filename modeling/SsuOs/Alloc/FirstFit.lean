import SsuOs.Alloc.Pages

/-!
# First fit over the pages

Where `alloc` of `hw5/ealloc` puts a block: at the first hole that is large enough, by pages and
then by slots, in terms of the blocks that are live (`alloc_firstFit_pages`).
-/

namespace SsuOs.Alloc.Pages

open Page (mapFailed Call Live)

/-- The slots that a request takes: its size divided by 256, rounded up. -/
def slotsFor (size : ℤ) : ℕ := max 1 ((size + 255) / 256).toNat

/-- Slot `x` of page `p` is covered by a live block, by the size that was asked for.  The page is the
one that `mmap` has returned, or will return, for `p`. -/
def LiveAt (mmap : ℕ → ℕ) (live : List Live) (p : Fin pnum) (x : ℕ) : Prop :=
  ∃ a ∈ live, a.adr ≤ mmap p + minAlloc * x ∧
    mmap p + minAlloc * x < a.adr + minAlloc * slotsFor a.request

/-- The `k` slots from `i` on are in page `p` and covered by no live block. -/
def Hole (mmap : ℕ → ℕ) (live : List Live) (k : ℕ) (p : Fin pnum) (i : ℕ) : Prop :=
  i + k ≤ num ∧ ∀ x, i ≤ x → x < i + k → ¬ LiveAt mmap live p x

/-- The first hole, by pages and then by slots. -/
structure FirstHole (mmap : ℕ → ℕ) (live : List Live) (k : ℕ) (p : Fin pnum) (i : ℕ) : Prop where
  pages : ∀ q < p, ∀ j, ¬ Hole mmap live k q j
  least : IsLeast {i | Hole mmap live k p i} i

/-- The mapped pages are the first `k`, each at the result of its own call of `mmap`, and there were
no other calls of `mmap`. -/
structure MappedTo (mmap : ℕ → ℕ) (k : ℕ) (heap : Heap) : Prop where
  start : ∀ p : Fin pnum, heap.start p = if p < k then mmap p else 0
  later : ∀ n, heap.mmap n = mmap (k + n)

theorem isLeast_slotsFor (size : ℤ) :
    IsLeast {m : ℕ | 0 < m ∧ minAlloc ∣ m ∧ size ≤ m} (minAlloc * slotsFor size) := by
  refine isLeast_fit (by decide) (le_max_left ..) ?_ fun k low high => ?_
  · simp only [minAlloc, slotsFor]
    omega
  · simp only [minAlloc, slotsFor] at high ⊢
    omega

section FirstFit

variable {mmap : ℕ → ℕ} {k : ℕ} {heap : Heap} {live : List Live}

/-- The recorded size of a live block is the one that was asked for, in whole slots. -/
theorem Inv.size_eq (inv : Inv mmap k heap live) {a : Live} (ha : a ∈ live) :
    ∃ (p : Fin pnum) (i : Fin num), (heap.mem p i).flag = 1 ∧ p < k ∧
      a.adr = mmap p + minAlloc * i ∧ i + slotsFor a.request ≤ num ∧
      (heap.mem p i).size = minAlloc * slotsFor a.request := by
  obtain ⟨p, i, marked, hadr, least⟩ := inv.head a ha
  have mapped := inv.mapped_of_flag marked
  have size := least.unique (isLeast_slotsFor a.request)
  have inside := inv.table_inside marked
  rw [size] at inside
  rw [inv.start p, if_pos mapped] at hadr
  refine ⟨p, i, marked, mapped, by rw [hadr]; ring, ?_, size⟩
  simp only [minAlloc, pageSize, num] at inside ⊢
  omega

/-- The live blocks cover the slots that the tables say; on a page that is not mapped yet there is
none. -/
theorem Inv.liveAt_iff (inv : Inv mmap k heap live) (fresh : PagesTo mmap pnum) (p : Fin pnum)
    {x : ℕ} (inside : x < num) : LiveAt mmap live p x ↔ Covered minAlloc (heap.mem p) x := by
  constructor
  · rintro ⟨a, ha, low, high⟩
    obtain ⟨q, i, marked, -, hadr, ends, size⟩ := inv.size_eq ha
    -- a block that covers a byte of the page lies in the page
    have page : q = p := by
      by_contra other
      have ranges := fresh.apart q q.isLt p p.isLt fun e => other (Fin.ext e)
      rw [hadr] at low high
      simp only [pageSize, minAlloc, num] at low high ranges ends inside
      omega
    subst page
    rw [hadr] at low high
    simp only [minAlloc] at low high
    exact ⟨i, marked, by omega, by rw [size]; simp only [minAlloc]; omega⟩
  · rintro ⟨i, marked, low, high⟩
    obtain ⟨a, ha, hadr⟩ := inv.live_of_flag p i marked
    obtain ⟨q, j, marked', mapped, hadr', -, size⟩ := inv.size_eq ha
    have start : heap.start q = mmap q := by rw [inv.start q, if_pos mapped]
    obtain ⟨rfl, rfl⟩ : p = q ∧ i = j := by
      refine inv.slot_inj (fresh.mono inv.few) (inv.mapped_of_flag marked) mapped ?_
      rw [← hadr, hadr', start]
      ring
    rw [size] at high
    simp only [minAlloc] at high
    refine ⟨a, ha, ?_, ?_⟩ <;> simp only [hadr', minAlloc] <;> omega

theorem Inv.hole_iff (inv : Inv mmap k heap live) (fresh : PagesTo mmap pnum) (n : ℕ) (p : Fin pnum)
    (i : ℕ) : Hole mmap live n p i ↔ Room minAlloc (heap.mem p) n i := by
  refine and_congr_right fun bound => forall₃_congr fun x low high => ?_
  rw [inv.liveAt_iff fresh p (by omega)]

/-- What the loop over the pages `l` comes to: no page has room for `n` slots, or `p` is the first
one that has, a block is recorded there and no page after it has been mapped. -/
inductive Serves (n : ℕ) (heap : Heap) (l : List (Fin pnum)) (r : ℕ × Heap) : Prop
  | full (rooms : ∀ p ∈ l, ∀ i, ¬ Room minAlloc (heap.mem p) n i) (null : r.1 = 0)
  | found (p : Fin pnum) (i : Fin num) (mem : p ∈ l)
      (rooms : ∀ q ∈ l, q < p → ∀ i, ¬ Room minAlloc (heap.mem q) n i)
      (first : IsLeast {i | Room minAlloc (heap.mem p) n i} i) (mapped : r.2.start p ≠ 0)
      (adr : r.1 = r.2.start p + minAlloc * i)
      (tables : r.2.mem = Function.update heap.mem p
        (Function.update (heap.mem p) i ⟨r.1, minAlloc * n, 1⟩))
      (later : ∀ q, p < q → r.2.start q = heap.start q)

/-- Mapping a page leaves the tables as they are. -/
theorem Serves.mapPage {n : ℕ} {p : Fin pnum} {rest : List (Fin pnum)} {r : ℕ × Heap}
    (first : ∀ q ∈ rest, p < q) (serves : Serves n (heap.mapPage p) (p :: rest) r) :
    Serves n heap (p :: rest) r := by
  cases serves with
  | full rooms null => exact .full rooms null
  | found q i mem rooms least mapped adr tables later =>
    refine .found q i mem rooms least mapped adr tables fun q' after => ?_
    rw [later q' after]
    have other : q' ≠ p := by
      rintro rfl
      rcases List.mem_cons.1 mem with rfl | behind
      · exact lt_irrefl _ after
      · exact lt_asymm after (first q behind)
    exact Function.update_of_ne other ..

theorem Inv.serves_allocIn (inv : Inv mmap k heap live) (fresh : PagesTo mmap k) (size : ℤ)
    {p : Fin pnum} (mapped : p < k) {rest : List (Fin pnum)} (first : ∀ q ∈ rest, p < q)
    {next : Heap → ℕ × Heap} (serves : Serves (slotsFor size) heap rest (next heap)) :
    Serves (slotsFor size) heap (p :: rest) (Pages.allocIn size p next heap) := by
  unfold Pages.allocIn
  rcases search_firstFit (inv.table p) (by decide) (isLeast_slotsFor size) with
    ⟨none_fits, full⟩ | ⟨i, found, least⟩
  · rw [none_fits]
    cases serves with
    | full rooms null => exact .full (List.forall_mem_cons.2 ⟨full, rooms⟩) null
    | found q i mem rooms least mapped adr tables later =>
      refine .found q i (List.mem_cons_of_mem _ mem) ?_ least mapped adr tables later
      exact List.forall_mem_cons.2 ⟨fun _ => full, rooms⟩
  · rw [found]
    refine .found p i List.mem_cons_self (fun q mem before => ?_) least
      (inv.start_pos fresh mapped).ne' ?_ rfl fun _ _ => rfl
    · rcases List.mem_cons.1 mem with rfl | behind
      · exact absurd before (lt_irrefl _)
      · exact absurd before (lt_asymm (first q behind))
    · change i * minAlloc + heap.start p = heap.start p + minAlloc * i
      ring

theorem Inv.serves_cons (inv : Inv mmap k heap live) (fresh : PagesTo mmap pnum) {p : Fin pnum}
    (reached : p ≤ k) (size : ℤ) {rest : List (Fin pnum)} (first : ∀ q ∈ rest, p < q)
    (next : ∀ k' heap', Inv mmap k' heap' live → p < k' →
      Serves (slotsFor size) heap' rest (allocFrom size rest heap')) :
    Serves (slotsFor size) heap (p :: rest) (allocFrom size (p :: rest) heap) := by
  have pages := fresh.mono inv.few
  rw [allocFrom]
  split_ifs with unmapped fails
  · have page := inv.eq_of_unmapped pages reached unmapped
    rw [inv.mapPage_start page] at fails
    exact absurd fails (fresh.ne_mapFailed p.isLt)
  · have page := inv.eq_of_unmapped pages reached unmapped
    have inv' := inv.mapPage page
    have reached' : p < k + 1 := by omega
    exact (inv'.serves_allocIn (fresh.mono inv'.few) size reached' first
      (next _ _ inv' reached')).mapPage first
  · have mapped := inv.mapped_of_start unmapped
    exact inv.serves_allocIn pages size mapped first (next _ _ inv mapped)

theorem Inv.serves (inv : Inv mmap k heap live) (fresh : PagesTo mmap pnum) (size : ℤ) :
    Serves (slotsFor size) heap (List.finRange pnum)
      (allocFrom size (List.finRange pnum) heap) := by
  change Serves _ heap [0, 1, 2, 3] (allocFrom size [0, 1, 2, 3] heap)
  refine inv.serves_cons fresh (Nat.zero_le k) size (by decide) fun _ _ inv reached => ?_
  refine inv.serves_cons (p := 1) fresh reached size (by decide) fun _ _ inv reached => ?_
  refine inv.serves_cons (p := 2) fresh reached size (by decide) fun _ _ inv reached => ?_
  refine inv.serves_cons (p := 3) fresh reached size (by simp) fun _ _ _ _ => ?_
  exact .full (by simp) rfl

end FirstFit

/-- A page that is mapped keeps its start. -/
theorem allocFrom_start (size : ℤ) (l : List (Fin pnum)) {heap : Heap} {p : Fin pnum}
    (mapped : heap.start p ≠ 0) : (allocFrom size l heap).2.start p = heap.start p := by
  have page {q : Fin pnum} {next : Heap → ℕ × Heap} {heap' : Heap}
      (kept : (next heap').2.start p = heap'.start p) :
      (allocIn size q next heap').2.start p = heap'.start p := by
    unfold allocIn
    split
    · rfl
    · exact kept
  induction l generalizing heap with
  | nil => rfl
  | cons q rest ih =>
    have new (unmapped : heap.start q = 0) : (heap.mapPage q).start p = heap.start p := by
      refine Function.update_of_ne ?_ ..
      rintro rfl
      exact mapped unmapped
    rw [allocFrom]
    split_ifs with unmapped fails
    · exact new unmapped
    · rw [← new unmapped] at mapped ⊢
      exact page (ih mapped)
    · exact page (ih mapped)

/-- The heap and the live blocks after `init_alloc` and a history of calls. -/
def history (mmap : ℕ → ℕ) (calls : List Call) : Heap × List Live :=
  calls.foldl exec (initAlloc mmap, [])

/-- The pages mapped before a call stay mapped, and those that it maps are the next ones. -/
theorem Inv.mappedTo_alloc {mmap : ℕ → ℕ} {k : ℕ} {heap : Heap} {live : List Live}
    (inv : Inv mmap k heap live) (fresh : PagesTo mmap pnum) (size : ℤ) :
    MappedTo mmap k heap ∧ ∃ k', k ≤ k' ∧ MappedTo mmap k' (Pages.alloc heap size).2 := by
  refine ⟨⟨inv.start, inv.later⟩, ?_⟩
  cases inv.alloc_outcome (fresh.mono inv.few) fresh.mayFail size with
  | served k' _ _ pages inv' =>
    have lengths := congrArg List.length pages
    simp only [List.length_append, List.length_map, List.length_range] at lengths
    exact ⟨k', by omega, inv'.start, inv'.later⟩
  | failed p _ fails => exact absurd fails (fresh.ne_mapFailed p.isLt)

/-- After `init_alloc` and any history of calls, in a process where `mmap` returns fresh pages,
`alloc` is complete first fit over the four pages: for a request of at most a page and a multiple of
8 bytes it returns the first hole and records a block there and nothing else, fails exactly when
there is none, maps a page only if the pages before it have no hole, at the next result of `mmap`,
and does not map a page again. -/
theorem alloc_firstFit_pages (mmap : ℕ → ℕ) (fresh : PagesTo mmap pnum) (calls : List Call)
    {size : ℤ} (small : size ≤ pageSize) (aligned : 8 ∣ size) :
    (∀ p i, FirstHole mmap (history mmap calls).2 (slotsFor size) p i →
      (alloc (history mmap calls).1 size).1 = mmap p + minAlloc * i ∧
      (alloc (history mmap calls).1 size).2.start p = mmap p ∧
      ∀ q (j : Fin num), (alloc (history mmap calls).1 size).2.mem q j =
        if q = p ∧ j = i then ⟨mmap p + minAlloc * i, minAlloc * slotsFor size, 1⟩
        else (history mmap calls).1.mem q j) ∧
    ((alloc (history mmap calls).1 size).1 = 0 ↔
      ∀ p i, ¬ Hole mmap (history mmap calls).2 (slotsFor size) p i) ∧
    (∀ p, (history mmap calls).1.start p = 0 → (alloc (history mmap calls).1 size).2.start p ≠ 0 →
      (alloc (history mmap calls).1 size).2.start p = mmap p ∧
      ∀ q < p, ∀ i, ¬ Hole mmap (history mmap calls).2 (slotsFor size) q i) ∧
    (∀ p, (history mmap calls).1.start p ≠ 0 →
      (alloc (history mmap calls).1 size).2.start p = (history mmap calls).1.start p) ∧
    ∃ k k', k ≤ k' ∧ MappedTo mmap k (history mmap calls).1 ∧
      MappedTo mmap k' (alloc (history mmap calls).1 size).2 := by
  obtain ⟨k, inv⟩ := (inv_initAlloc mmap).calls fresh calls
  change Inv mmap k (history mmap calls).1 (history mmap calls).2 at inv
  generalize history mmap calls = s at inv ⊢
  obtain ⟨before, k', more, after⟩ := inv.mappedTo_alloc fresh size
  have start {p : Fin pnum} (mapped : (alloc s.1 size).2.start p ≠ 0) :
      (alloc s.1 size).2.start p = mmap p := by
    have page := after.start p
    split_ifs at page
    · exact page
    · exact absurd page mapped
  have hole (p : Fin pnum) (i : ℕ) := inv.hole_iff fresh (slotsFor size) p i
  have accepted := mt refused_iff.1 (not_not.2 ⟨small, aligned⟩)
  have loop : alloc s.1 size = allocFrom size (List.finRange pnum) s.1 := if_neg accepted
  have kept (p : Fin pnum) (mapped : s.1.start p ≠ 0) :
      (alloc s.1 size).2.start p = s.1.start p := by
    rw [loop]
    exact allocFrom_start size _ mapped
  have serves := inv.serves fresh size
  rw [← loop] at serves
  cases serves with
  | full rooms null =>
    have none_fits (p : Fin pnum) (i : ℕ) : ¬ Hole mmap s.2 (slotsFor size) p i := fun room =>
      rooms p (List.mem_finRange p) i ((hole p i).1 room)
    exact ⟨fun p i first => absurd first.least.1 (none_fits p i), iff_of_true null none_fits,
      fun _ _ new => ⟨start new, fun q _ => none_fits q⟩, kept, k, k', more, before, after⟩
  | found p i mem rooms least mapped adr tables later =>
    have none_before (q : Fin pnum) (before : q < p) (j : ℕ) : ¬ Hole mmap s.2 (slotsFor size) q j :=
      fun room => rooms q (List.mem_finRange q) before j ((hole q j).1 room)
    have here : Hole mmap s.2 (slotsFor size) p i := (hole p i).2 least.1
    rw [start mapped] at adr
    refine ⟨fun q j first => ?_, iff_of_false (by have := fresh.pos p p.isLt; omega)
      fun full => full p i here, fun q unmapped new => ⟨start new, fun q' before => ?_⟩, kept,
      k, k', more, before, after⟩
    · obtain rfl : q = p := by
        rcases lt_trichotomy q p with before | same | after
        · exact absurd first.least.1 (none_before q before j)
        · exact same
        · exact absurd here (first.pages p after i)
      obtain rfl : j = i :=
        le_antisymm (first.least.2 here) (least.2 ((hole q j).1 first.least.1))
      refine ⟨adr, start mapped, fun q' j => ?_⟩
      rw [tables, adr]
      by_cases page : q' = q
      · subst page
        simp only [Function.update_self, Function.update_apply, true_and, Fin.ext_iff]
      · rw [Function.update_of_ne page, if_neg fun both => page both.1]
    · have reached : q ≤ p := by
        by_contra after
        exact new ((later q (not_le.1 after)).trans unmapped)
      exact none_before q' (before.trans_le reached)

/-- The first page is full but for one slot at its start. -/
def oneSlotLeft : Heap × List Live :=
  history (fun n => 0x10000 * (n + 1)) [.alloc 256, .alloc 3840, .dealloc 0x10000]

/-- A request for two slots takes the second page, which is mapped for it. -/
theorem alloc_firstFit_pages_oneSlotLeft :
    oneSlotLeft.2 = [⟨0x10100, 3840⟩] ∧ oneSlotLeft.1.start ⟨1, by decide⟩ = 0 ∧
    FirstHole (fun n => 0x10000 * (n + 1)) oneSlotLeft.2 (slotsFor 264) ⟨1, by decide⟩ 0 ∧
    (alloc oneSlotLeft.1 264).1 = 0x20000 ∧
    (alloc oneSlotLeft.1 264).2.start ⟨1, by decide⟩ = 0x20000 := by
  have fresh : PagesTo (fun n => 0x10000 * (n + 1)) pnum := ⟨by decide, by decide, by decide⟩
  have blocks : oneSlotLeft.2 = [⟨0x10100, 3840⟩] := by decide
  have two : slotsFor 264 = 2 := by decide
  have first : FirstHole (fun n => 0x10000 * (n + 1)) oneSlotLeft.2 (slotsFor 264)
      ⟨1, by decide⟩ 0 := by
    rw [blocks, two]
    refine ⟨fun q before j => ?_, ⟨by decide, fun x low high => ?_⟩, fun i _ => Nat.zero_le i⟩
    · obtain rfl : q = ⟨0, by decide⟩ := Fin.ext (by simpa [Fin.lt_def] using before)
      rintro ⟨bound, free⟩
      -- the second slot of the two belongs to the block
      refine free (j + 1) (by omega) (by omega) ⟨_, List.mem_cons_self, ?_⟩
      have slots : slotsFor 3840 = 15 := by decide
      simp only [slots, minAlloc, num] at bound ⊢
      omega
    · rintro ⟨a, ha, low, high⟩
      obtain rfl := List.mem_singleton.1 ha
      have slots : slotsFor 3840 = 15 := by decide
      simp only [slots, minAlloc] at low high
      omega
  have served := (alloc_firstFit_pages _ fresh [.alloc 256, .alloc 3840, .dealloc 0x10000]
    (show (264 : ℤ) ≤ pageSize by decide) (by decide)).1 ⟨1, by decide⟩ 0 first
  exact ⟨blocks, by decide, first, served.1, served.2.1⟩

end SsuOs.Alloc.Pages
