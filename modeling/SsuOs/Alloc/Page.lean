import Mathlib.Data.Set.Lattice
import Mathlib.Order.CompletePartialOrder
import SsuOs.Alloc.SlotTable
import SsuOs.Base.Run

/-!
# The page allocator

The allocator of `hw5/alloc`: one page from `mmap`, handed out in multiples of 8 bytes by first
fit.  For every history of calls, the table of the allocator represents exactly the blocks that
were handed out and not given back (`represents_of_calls`), and it depends on nothing else in that
history (`history_independent`).
-/

namespace SsuOs.Alloc.Page

/-- `PAGESIZE`, `MINALLOC` and `NUM`. -/
abbrev pageSize : ℕ := 4096

abbrev minAlloc : ℕ := 8

abbrev num : ℕ := 512

/-- `MAP_FAILED`, the pointer `-1`. -/
def mapFailed : ℕ := 2 ^ 64 - 1

/-- What `mmap` may return when it is asked for a page at any address: `MAP_FAILED`, or the aligned
address of a page, which is not the null pointer. -/
def MmapReturns (p : ℕ) : Prop := p = mapFailed ∨ (0 < p ∧ pageSize ∣ p ∧ p + pageSize ≤ 2 ^ 64)

/-- The variables `start` and `mem`. -/
structure Heap where
  start : ℕ
  mem : Fin num → Mm

/-- `init_alloc`, with the result of its call of `mmap`, and its return value. -/
def initAlloc (mmap : ℕ) : ℤ × Heap :=
  (if mmap = mapFailed then 1 else 0, ⟨mmap, fun _ => .unused minAlloc⟩)

/-- `alloc` returns an address, or 0 for `NULL`. -/
def alloc (heap : Heap) (size : ℤ) : ℕ × Heap :=
  if size > pageSize ∨ size.tmod 8 ≠ 0 then (0, heap)
  else match search minAlloc heap.mem size num 0 with
    | some (i, valid) =>
        (i * minAlloc + heap.start,
          { heap with mem := Function.update heap.mem i (.block minAlloc heap.start i valid) })
    | none => (0, heap)

def dealloc (heap : Heap) (adr : ℕ) : Heap := { heap with mem := release minAlloc heap.mem adr }

/-! ## Histories -/

inductive Call where
  | alloc (size : ℤ)
  | dealloc (adr : ℕ)

/-- A block that was handed out: its address and the size that was asked for. -/
structure Live where
  adr : ℕ
  request : ℤ
  deriving DecidableEq

/-- A call, together with the blocks that are handed out and not given back. -/
def exec (s : Heap × List Live) : Call → Heap × List Live
  | .alloc size =>
      ((alloc s.1 size).2,
        if (alloc s.1 size).1 = 0 then s.2 else s.2 ++ [⟨(alloc s.1 size).1, size⟩])
  | .dealloc adr => (dealloc s.1 adr, s.2.filter fun a => a.adr ≠ adr)

/-- The bytes of the block at `adr`, by the recorded size. -/
def Heap.extent (heap : Heap) (adr : ℕ) : Set ℕ :=
  {x | ∃ i, (heap.mem i).flag = 1 ∧ (heap.mem i).adr = adr ∧ adr ≤ x ∧ x < adr + (heap.mem i).size}

/-- The live blocks are disjoint, lie in the page on multiples of 8 bytes and are as large as they
have to be; the marked entries are their first slots, and all other entries are in initial form. -/
structure Represents (heap : Heap) (live : List Live) : Prop where
  disjoint : live.Pairwise fun a b => Disjoint (heap.extent a.adr) (heap.extent b.adr)
  block : ∀ a ∈ live, ∃ i : Fin num, ∃ size, heap.mem i = ⟨a.adr, size, 1⟩ ∧
    a.adr = heap.start + minAlloc * i ∧ minAlloc ∣ a.adr ∧
    heap.start ≤ a.adr ∧ a.adr + size ≤ heap.start + pageSize ∧
    IsLeast {m : ℕ | 0 < m ∧ minAlloc ∣ m ∧ a.request ≤ m} size
  marked : ∀ i, (heap.mem i).flag = 1 ↔ ∃ a ∈ live, a.adr = heap.start + minAlloc * i
  unmarked : ∀ i : Fin num, (∀ a ∈ live, a.adr ≠ heap.start + minAlloc * i) →
    heap.mem i = ⟨0, minAlloc, 0⟩

/-- The invariant behind `Represents`, by slots. -/
structure Inv (heap : Heap) (live : List Live) : Prop where
  start_pos : 0 < heap.start
  aligned : pageSize ∣ heap.start
  table : WellFormed minAlloc heap.start heap.mem
  head : ∀ a ∈ live, ∃ i : Fin num, (heap.mem i).flag = 1 ∧ a.adr = i * minAlloc + heap.start ∧
    IsLeast {m : ℕ | 0 < m ∧ minAlloc ∣ m ∧ a.request ≤ m} (heap.mem i).size
  request : ∀ a ∈ live, 8 ∣ a.request
  live_of_flag : ∀ i, (heap.mem i).flag = 1 → ∃ a ∈ live, a.adr = i * minAlloc + heap.start
  distinct : live.Pairwise fun a b => a.adr ≠ b.adr

variable {heap : Heap} {live : List Live}

/-- `alloc` fails and changes nothing, or marks a block of the least size that holds the request, at
a slot outside all blocks and with no marked slot under it. -/
theorem alloc_cases (table : WellFormed minAlloc heap.start heap.mem) (size : ℤ) :
    alloc heap size = (0, heap) ∨
      ∃ (i : Fin num) (k : ℕ), 8 ∣ size ∧ Fits minAlloc heap.mem size i k ∧
        alloc heap size = (i * minAlloc + heap.start, { heap with
          mem := Function.update heap.mem i (.block minAlloc heap.start i (minAlloc * k)) }) := by
  unfold alloc
  split_ifs with refused
  · exact .inl rfl
  · rcases search_cases table (by decide) size with none_fits | ⟨i, k, found, fits⟩
    · rw [none_fits]
      exact .inl rfl
    · rw [found]
      exact .inr ⟨i, k, (not_not.1 (mt refused_iff.2 refused)).2, fits, rfl⟩

theorem Inv.alloc (inv : Inv heap live) (size : ℤ) :
    Inv (exec (heap, live) (.alloc size)).1 (exec (heap, live) (.alloc size)).2 := by
  obtain failed | ⟨i, k, aligned, fits, result⟩ := alloc_cases inv.table size
  · simpa [exec, failed] using inv
  have start_pos := inv.start_pos
  have unmarked := fits.unmarked
  have returned : i * minAlloc + heap.start ≠ 0 := by omega
  simp only [exec, result, returned, if_false]
  refine ⟨start_pos, inv.aligned, inv.table.place fits, fun a ha => ?_, fun a ha => ?_,
    fun x hx => ?_, ?_⟩
  · rcases List.mem_append.1 ha with old | new
    · obtain ⟨x, hx, hadr, hsize⟩ := inv.head a old
      have other : x ≠ i := fun same => unmarked (same ▸ hx)
      exact ⟨x, by simpa [other] using hx, hadr, by simpa [other] using hsize⟩
    · obtain rfl := List.mem_singleton.1 new
      exact ⟨i, by simp [Mm.block], rfl, by simpa [Mm.block] using fits.least⟩
  · rcases List.mem_append.1 ha with old | new
    · exact inv.request a old
    · obtain rfl := List.mem_singleton.1 new
      exact aligned
  · by_cases same : x = i
    · exact ⟨⟨i * minAlloc + heap.start, size⟩, by simp, by rw [same]⟩
    · obtain ⟨a, ha, hadr⟩ := inv.live_of_flag x (by simpa [same] using hx)
      exact ⟨a, List.mem_append_left _ ha, hadr⟩
  · refine List.pairwise_append.2 ⟨inv.distinct, List.pairwise_singleton .., fun a ha b hb => ?_⟩
    obtain rfl := List.mem_singleton.1 hb
    obtain ⟨x, hx, hadr, -⟩ := inv.head a ha
    intro clash
    rw [hadr] at clash
    exact unmarked (slot_inj (by decide) clash ▸ hx)

theorem Inv.dealloc (inv : Inv heap live) (adr : ℕ) :
    Inv (exec (heap, live) (.dealloc adr)).1 (exec (heap, live) (.dealloc adr)).2 := by
  have start_pos := inv.start_pos
  have kept (a : Live) : a ∈ live.filter (fun a => a.adr ≠ adr) ↔ a ∈ live ∧ a.adr ≠ adr := by
    simp
  by_cases known : ∃ i, (heap.mem i).flag = 1 ∧ i * minAlloc + heap.start = adr
  · obtain ⟨i, marked, rfl⟩ := known
    simp only [exec, Page.dealloc, release_block inv.table (by decide) start_pos marked]
    refine ⟨start_pos, inv.aligned, inv.table.remove i, fun a ha => ?_,
      fun a ha => inv.request a ((kept a).1 ha).1, fun x hx => ?_, inv.distinct.filter _⟩
    · obtain ⟨old, away⟩ := (kept a).1 ha
      obtain ⟨x, hx, hadr, hsize⟩ := inv.head a old
      have other : x ≠ i := fun same => away (by rw [hadr, same])
      exact ⟨x, by simpa [other] using hx, hadr, by simpa [other] using hsize⟩
    · by_cases same : x = i
      · simp [same, Mm.unused] at hx
      · obtain ⟨a, ha, hadr⟩ := inv.live_of_flag x (by simpa [same] using hx)
        have away : a.adr ≠ _ := fun clash => same (slot_inj (by decide) (hadr.symm.trans clash))
        exact ⟨a, (kept a).2 ⟨ha, away⟩, hadr⟩
  · -- a pointer that is not the address of a live block: nothing is filtered out
    have absent : ∀ a ∈ live, a.adr ≠ adr := by
      intro a ha clash
      obtain ⟨x, hx, hadr, -⟩ := inv.head a ha
      exact known ⟨x, hx, hadr.symm.trans clash⟩
    have same : live.filter (fun a => a.adr ≠ adr) = live :=
      List.filter_eq_self.2 fun a ha => by simpa using absent a ha
    simp only [exec, Page.dealloc, same]
    rw [release_other inv.table fun x hx clash => known ⟨x, hx, clash⟩]
    exact inv

theorem Inv.exec (inv : Inv heap live) (c : Call) :
    Inv (exec (heap, live) c).1 (Page.exec (heap, live) c).2 := by
  cases c with
  | alloc size => exact inv.alloc size
  | dealloc adr => exact inv.dealloc adr

theorem Inv.calls (inv : Inv heap live) (calls : List Call) :
    Inv (calls.foldl Page.exec (heap, live)).1 (calls.foldl Page.exec (heap, live)).2 := by
  induction calls generalizing heap live with
  | nil => exact inv
  | cons c calls ih => exact ih (inv.exec c)

theorem Inv.represents (inv : Inv heap live) : Represents heap live where
  disjoint := by
    refine inv.distinct.imp fun {a b} apart => Set.disjoint_left.2 ?_
    rintro x ⟨i, hi, ha, low, high⟩ ⟨j, hj, hb, low', high'⟩
    rw [← ha] at low high
    rw [← hb] at low' high'
    obtain rfl := inv.table.eq_of_overlap hi hj low high low' high'
    exact apart (ha.symm.trans hb)
  block a ha := by
    obtain ⟨i, marked, hadr, hsize⟩ := inv.head a ha
    obtain ⟨k, hk, bound, entry⟩ := inv.table.block_of_flag marked
    have inside : (i : ℕ) * 8 + 8 * k ≤ 512 * 8 := by simp only [num] at bound; omega
    have divides : minAlloc ∣ heap.start := dvd_trans (by decide) inv.aligned
    refine ⟨i, minAlloc * k, by rw [entry, hadr]; rfl, by rw [hadr]; ring, ?_, ?_, ?_, ?_⟩
    · rw [hadr]
      exact Nat.dvd_add (dvd_mul_left ..) divides
    · rw [hadr]
      exact Nat.le_add_left ..
    · rw [hadr]
      simp only [minAlloc, pageSize]
      omega
    · rw [entry] at hsize
      exact hsize
  marked i := by
    constructor
    · intro hi
      obtain ⟨a, ha, hadr⟩ := inv.live_of_flag i hi
      exact ⟨a, ha, by rw [hadr]; ring⟩
    · rintro ⟨a, ha, hadr⟩
      obtain ⟨x, hx, hadr', -⟩ := inv.head a ha
      have clash : x * minAlloc + heap.start = i * minAlloc + heap.start := by
        rw [← hadr', hadr]
        ring
      exact slot_inj (by decide) clash ▸ hx
  unmarked i absent := by
    refine inv.table.eq_unused fun marked => ?_
    obtain ⟨a, ha, hadr⟩ := inv.live_of_flag i marked
    exact absent a ha (by rw [hadr]; ring)

theorem inv_initAlloc {mmap : ℕ} (returns : MmapReturns mmap)
    (succeeds : (initAlloc mmap).1 = 0) : Inv (initAlloc mmap).2 [] := by
  have mapped : mmap ≠ mapFailed := by
    intro failed
    simp [initAlloc, failed] at succeeds
  obtain ⟨pos, aligned, -⟩ := returns.resolve_left mapped
  exact ⟨pos, aligned, .unused _, by simp, by simp,
    fun i hi => by simp [initAlloc, Mm.unused] at hi, .nil⟩

/-- After `init_alloc` has succeeded, every history of `alloc` and `dealloc` calls, with any sizes
and any pointers, leaves a table that represents the live blocks. -/
theorem represents_of_calls (mmap : ℕ) (returns : MmapReturns mmap)
    (succeeds : (initAlloc mmap).1 = 0) (calls : List Call) :
    Represents (calls.foldl exec ((initAlloc mmap).2, [])).1
      (calls.foldl exec ((initAlloc mmap).2, [])).2 := by
  exact ((inv_initAlloc returns succeeds).calls calls).represents

/-- A hole reused, a request of a negative size, and pointers that are not live. -/
theorem represents_of_calls_reuse :
    Represents
      ([.alloc 16, .alloc 8, .dealloc 0x7000, .alloc (-8), .dealloc 0, .dealloc 0x7004].foldl exec
        ((initAlloc 0x7000).2, [])).1
      ([.alloc 16, .alloc 8, .dealloc 0x7000, .alloc (-8), .dealloc 0, .dealloc 0x7004].foldl exec
        ((initAlloc 0x7000).2, [])).2 :=
  represents_of_calls 0x7000 (.inr ⟨by decide, by decide, by decide⟩) (by decide) _

/-! ## What a table keeps of its history -/

/-- The heap and the live blocks after `init_alloc` and a history of calls. -/
def history (mmap : ℕ) (calls : List Call) : Heap × List Live :=
  calls.foldl exec ((initAlloc mmap).2, [])

/-- What a call returns, and the heap that it leaves; `dealloc` returns nothing. -/
def Heap.call (heap : Heap) : Call → Option ℕ × Heap
  | .alloc size => ((alloc heap size).1, (alloc heap size).2)
  | .dealloc adr => (none, dealloc heap adr)

/-- The addresses of the live blocks, with the sizes that are recorded for them. -/
def recorded (s : Heap × List Live) : Set (ℕ × ℕ) :=
  {b | (∃ a ∈ s.2, a.adr = b.1) ∧ ∃ i, s.1.mem i = ⟨b.1, b.2, 1⟩}

/-- Calls that undo each other leave nothing behind: `dealloc` of what `alloc` has returned restores
the heap, `dealloc` calls commute, and blocks freed in any order leave slots in initial form. -/
structure NoResidue (mmap : ℕ) (heap : Heap) : Prop where
  restores : ∀ size, dealloc (alloc heap size).2 (alloc heap size).1 = heap
  comm : ∀ adr adr', dealloc (dealloc heap adr) adr' = dealloc (dealloc heap adr') adr
  order : ∀ adrs adrs' : List ℕ, adrs.Perm adrs' →
    adrs.foldl dealloc heap = adrs'.foldl dealloc heap
  hole : ∀ (adrs : List ℕ) (i : Fin num),
    (∃ adr ∈ adrs, heap.start + minAlloc * i ∈ heap.extent adr) →
      (adrs.foldl dealloc heap).mem i = (initAlloc mmap).2.mem i

theorem alloc_start (heap : Heap) (size : ℤ) : (alloc heap size).2.start = heap.start := by
  unfold alloc
  split_ifs
  · rfl
  · split <;> rfl

theorem foldl_exec_start (calls : List Call) (s : Heap × List Live) :
    (calls.foldl exec s).1.start = s.1.start := by
  induction calls generalizing s with
  | nil => rfl
  | cons c calls ih =>
    rw [List.foldl_cons, ih]
    cases c with
    | alloc size => exact alloc_start s.1 size
    | dealloc adr => simp only [exec, dealloc]

theorem Inv.mem_recorded (inv : Inv heap live) {i : Fin num} (marked : (heap.mem i).flag = 1) :
    ((heap.mem i).adr, (heap.mem i).size) ∈ recorded (heap, live) := by
  obtain ⟨a, ha, hadr⟩ := inv.live_of_flag i marked
  exact ⟨⟨a, ha, hadr.trans (inv.table.adr_eq marked).symm⟩, i, by rw [← marked]⟩

theorem Inv.eq_of_mem_recorded {heap' : Heap} {live' : List Live} (inv : Inv heap live)
    (inv' : Inv heap' live') (start : heap.start = heap'.start) {i : Fin num}
    (marked : (heap.mem i).flag = 1)
    (mem : ((heap.mem i).adr, (heap.mem i).size) ∈ recorded (heap', live')) :
    heap'.mem i = heap.mem i := by
  obtain ⟨-, j, entry⟩ := mem
  -- the address tells the slot
  have same : j = i := by
    have adr := inv'.table.adr_eq (i := j) (by rw [entry])
    rw [entry, inv.table.adr_eq marked, start] at adr
    exact (slot_inj (by decide) adr).symm
  rw [← same, entry, ← marked, same]

/-- The table is determined by the live blocks. -/
theorem Inv.heap_eq {heap' : Heap} {live' : List Live} (inv : Inv heap live)
    (inv' : Inv heap' live') (start : heap.start = heap'.start)
    (same : recorded (heap, live) = recorded (heap', live')) : heap = heap' := by
  have tables : heap.mem = heap'.mem := by
    refine inv.table.ext (start ▸ inv'.table) (fun i marked => ?_) fun i marked => ?_
    · exact inv.eq_of_mem_recorded inv' start marked (same ▸ inv.mem_recorded marked)
    · exact inv'.eq_of_mem_recorded inv start.symm marked (same ▸ inv'.mem_recorded marked)
  cases heap
  cases heap'
  cases start
  cases tables
  rfl

theorem Inv.dealloc_alloc (inv : Inv heap live) (size : ℤ) :
    Page.dealloc (Page.alloc heap size).2 (Page.alloc heap size).1 = heap := by
  have start_pos := inv.start_pos
  obtain failed | ⟨i, k, -, fits, result⟩ := alloc_cases inv.table size
  · -- `alloc` has returned `NULL`, which is no block's address
    rw [failed, Page.dealloc, release_other inv.table fun x _ => by omega]
  · have marked : (Function.update heap.mem i
        (.block minAlloc heap.start i (minAlloc * k)) i).flag = 1 := by
      rw [Function.update_self]
      rfl
    rw [result, Page.dealloc]
    dsimp only
    rw [release_block (inv.table.place fits) (by decide) start_pos marked, Function.update_idem,
      ← inv.table.eq_unused fits.unmarked, Function.update_eq_self]

theorem foldl_dealloc (heap : Heap) (adrs : List ℕ) :
    adrs.foldl dealloc heap = { heap with mem := adrs.foldl (release minAlloc) heap.mem } := by
  induction adrs generalizing heap with
  | nil => rfl
  | cons adr adrs ih =>
    rw [List.foldl_cons, ih, List.foldl_cons]
    simp only [dealloc]

/-- A slot under a block that is freed is not the first slot of any other block. -/
theorem Inv.hole (inv : Inv heap live) {adrs : List ℕ} {i : Fin num} {adr : ℕ} (freed : adr ∈ adrs)
    (under : heap.start + minAlloc * i ∈ heap.extent adr) :
    (adrs.foldl Page.dealloc heap).mem i = .unused minAlloc := by
  rw [foldl_dealloc]
  dsimp only
  rw [releases_apply inv.table (by decide) inv.start_pos]
  split_ifs with head
  · rfl
  · refine inv.table.eq_unused fun marked => head ?_
    obtain ⟨j, hj, rfl, low, high⟩ := under
    obtain ⟨k, hk, -, entry⟩ := inv.table.block_of_flag marked
    have slot := inv.table.adr_eq marked
    have inside : heap.start + minAlloc * i < (heap.mem i).adr + (heap.mem i).size := by
      rw [slot, entry]
      simp only [Mm.block, minAlloc]
      omega
    obtain rfl := inv.table.eq_of_overlap hj marked low high
      (by rw [slot, Nat.mul_comm, Nat.add_comm]) inside
    rwa [← slot]

theorem Inv.noResidue {mmap : ℕ} (inv : Inv heap live) : NoResidue mmap heap where
  restores := inv.dealloc_alloc
  comm adr adr' := by
    simp only [Page.dealloc, Heap.mk.injEq, true_and]
    funext i
    simp only [release_apply (inv.table.release _) (by decide) inv.start_pos,
      release_apply inv.table (by decide) inv.start_pos]
    split_ifs <;> rfl
  order adrs adrs' perm := by
    rw [foldl_dealloc, foldl_dealloc]
    congr 1
    funext i
    simp only [releases_apply inv.table (by decide) inv.start_pos, perm.mem_iff]
  hole adrs i := by
    rintro ⟨adr, freed, under⟩
    exact inv.hole freed under

/-- After `init_alloc` has succeeded, two histories that end with the same live blocks, at the same
addresses and with the same recorded sizes, end with the same table, so that all later calls return
the same; and calls that undo each other leave nothing behind. -/
theorem history_independent (mmap : ℕ) (returns : MmapReturns mmap)
    (succeeds : (initAlloc mmap).1 = 0) (calls : List Call) :
    (∀ calls', recorded (history mmap calls) = recorded (history mmap calls') →
      (history mmap calls).1 = (history mmap calls').1 ∧
        ∀ later, (answers Heap.call (history mmap calls).1 later).1 =
          (answers Heap.call (history mmap calls').1 later).1) ∧
      NoResidue mmap (history mmap calls).1 := by
  have inv (calls : List Call) : Inv (history mmap calls).1 (history mmap calls).2 :=
    (inv_initAlloc returns succeeds).calls calls
  have start (calls : List Call) : (history mmap calls).1.start = mmap := foldl_exec_start ..
  refine ⟨fun calls' same => ?_, (inv calls).noResidue⟩
  have heaps : (history mmap calls).1 = (history mmap calls').1 :=
    (inv calls).heap_eq (inv calls') ((start calls).trans (start calls').symm) same
  exact ⟨heaps, fun later => by rw [heaps]⟩

/-- A block that was split off, given back and handed out in another size. -/
theorem history_independent_reuse :
    recorded (history 0x7000 [.alloc 8]) =
        recorded (history 0x7000 [.alloc 16, .dealloc 0x7000, .alloc 8]) ∧
      (history 0x7000 [.alloc 8]).1 = (history 0x7000 [.alloc 16, .dealloc 0x7000, .alloc 8]).1 ∧
      NoResidue 0x7000 (history 0x7000 [.alloc 8]).1 := by
  have independent := history_independent 0x7000 (.inr ⟨by decide, by decide, by decide⟩) (by decide)
  have first : (alloc (history 0x7000 []).1 16).1 = 0x7000 := by decide
  have restored := (independent []).2.restores 16
  rw [first] at restored
  have undone : exec (exec (history 0x7000 []) (.alloc 16)) (.dealloc 0x7000) = history 0x7000 [] := by
    simp only [exec, first, restored]
    rfl
  have same : recorded (history 0x7000 [.alloc 8]) =
      recorded (history 0x7000 [.alloc 16, .dealloc 0x7000, .alloc 8]) :=
    congrArg (fun s => recorded (exec s (.alloc 8))) undone.symm
  exact ⟨same, ((independent _).1 _ same).1, (independent _).2⟩

/-! ## First fit -/

/-- The slots that a request takes. -/
def slotsFor (size : ℤ) : ℕ := max 1 (size / 8).toNat

/-- Slot `x` of the page at `start` is covered by a live block, by the size that was asked for. -/
def LiveAt (start : ℕ) (live : List Live) (x : ℕ) : Prop :=
  ∃ a ∈ live, a.adr ≤ start + minAlloc * x ∧
    start + minAlloc * x < a.adr + minAlloc * slotsFor a.request

/-- The `k` slots from `i` on are in the page and covered by no live block. -/
def Hole (start : ℕ) (live : List Live) (k i : ℕ) : Prop :=
  i + k ≤ num ∧ ∀ x, i ≤ x → x < i + k → ¬ LiveAt start live x

theorem isLeast_slotsFor {size : ℤ} (aligned : 8 ∣ size) :
    IsLeast {m : ℕ | 0 < m ∧ minAlloc ∣ m ∧ size ≤ m} (minAlloc * slotsFor size) := by
  have small := Int.ediv_mul_cancel aligned
  refine isLeast_fit (by decide) (le_max_left ..) ?_ fun k low high => ?_
  · simp only [minAlloc, slotsFor]
    omega
  · simp only [minAlloc, slotsFor] at high ⊢
    omega

/-- The recorded size of a live block is the one that was asked for, in whole slots. -/
theorem Inv.size_eq (inv : Inv heap live) {a : Live} (ha : a ∈ live) :
    ∃ i : Fin num, (heap.mem i).flag = 1 ∧ a.adr = i * minAlloc + heap.start ∧
      (heap.mem i).size = minAlloc * slotsFor a.request := by
  obtain ⟨i, marked, hadr, least⟩ := inv.head a ha
  exact ⟨i, marked, hadr, least.unique (isLeast_slotsFor (inv.request a ha))⟩

/-- The live blocks cover the slots that the table says. -/
theorem Inv.liveAt_iff (inv : Inv heap live) (x : ℕ) :
    LiveAt heap.start live x ↔ Covered minAlloc heap.mem x := by
  constructor
  · rintro ⟨a, ha, low, high⟩
    obtain ⟨i, marked, hadr, size⟩ := inv.size_eq ha
    rw [hadr] at low
    rw [hadr, ← size] at high
    simp only [minAlloc] at low high
    exact ⟨i, marked, by omega, by simp only [minAlloc]; omega⟩
  · rintro ⟨i, marked, low, high⟩
    obtain ⟨a, ha, hadr⟩ := inv.live_of_flag i marked
    obtain ⟨j, -, hadr', size⟩ := inv.size_eq ha
    obtain rfl : i = j := slot_inj (by decide) (hadr.symm.trans hadr')
    refine ⟨a, ha, ?_, ?_⟩
    · simp only [hadr, minAlloc]
      omega
    · rw [← size, hadr]
      simp only [minAlloc] at high ⊢
      omega

theorem Inv.hole_iff (inv : Inv heap live) (k i : ℕ) :
    Hole heap.start live k i ↔ Room minAlloc heap.mem k i := by
  simp only [Hole, Room, inv.liveAt_iff]

theorem Inv.alloc_first (inv : Inv heap live) {size : ℤ} (small : size ≤ pageSize)
    (aligned : 8 ∣ size) :
    (Page.alloc heap size = (0, heap) ∧ ∀ i, ¬ Hole heap.start live (slotsFor size) i) ∨
      ∃ i : Fin num, Page.alloc heap size = (heap.start + minAlloc * i, { heap with
          mem := Function.update heap.mem i
            ⟨heap.start + minAlloc * i, minAlloc * slotsFor size, 1⟩ }) ∧
        IsLeast {i | Hole heap.start live (slotsFor size) i} i := by
  have accepted := mt refused_iff.1 (not_not.2 ⟨small, aligned⟩)
  simp only [Page.alloc, if_neg accepted, inv.hole_iff]
  rcases search_firstFit inv.table (by decide) (isLeast_slotsFor aligned) with
    ⟨none_fits, full⟩ | ⟨i, found, first⟩
  · rw [none_fits]
    exact .inl ⟨rfl, full⟩
  · have adr : heap.start + minAlloc * i = i * minAlloc + heap.start := by ring
    rw [found]
    exact .inr ⟨i, by rw [adr]; rfl, first⟩

/-- After `init_alloc` has succeeded and any history of calls, `alloc` is complete first fit: for a
request of at most a page and a multiple of 8 bytes it returns the least slot of the mapped page
from which on enough slots are covered by no live block, and records the block there and nothing
else; it fails, without a change, exactly when there is none; all other requests fail without a
change. -/
theorem alloc_firstFit (mmap : ℕ) (returns : MmapReturns mmap) (succeeds : (initAlloc mmap).1 = 0)
    (calls : List Call) (size : ℤ) :
    (size ≤ pageSize → 8 ∣ size →
      (∀ i, IsLeast {i | Hole mmap (history mmap calls).2 (slotsFor size) i} i →
        (alloc (history mmap calls).1 size).1 = mmap + minAlloc * i ∧
        (alloc (history mmap calls).1 size).2.start = mmap ∧
        ∀ j : Fin num, (alloc (history mmap calls).1 size).2.mem j =
          if j = i then ⟨mmap + minAlloc * i, minAlloc * slotsFor size, 1⟩
          else (history mmap calls).1.mem j) ∧
      ((alloc (history mmap calls).1 size).1 = 0 ∧
          (alloc (history mmap calls).1 size).2.mem = (history mmap calls).1.mem ↔
        ∀ i, ¬ Hole mmap (history mmap calls).2 (slotsFor size) i)) ∧
    (¬ (size ≤ pageSize ∧ 8 ∣ size) →
      alloc (history mmap calls).1 size = (0, (history mmap calls).1)) := by
  have inv : Inv (history mmap calls).1 (history mmap calls).2 :=
    (inv_initAlloc returns succeeds).calls calls
  have start : (history mmap calls).1.start = mmap := foldl_exec_start ..
  constructor
  · intro small aligned
    have first := inv.alloc_first small aligned
    rw [start] at first
    rcases first with ⟨fails, full⟩ | ⟨i, result, first⟩
    · refine ⟨fun i least => absurd least.1 (full i), iff_of_true ?_ full⟩
      rw [fails]
      exact ⟨rfl, rfl⟩
    · refine ⟨fun j least => ?_, iff_of_false ?_ fun full => full i first.1⟩
      · obtain rfl := least.unique first
        rw [result]
        refine ⟨rfl, rfl, fun j => ?_⟩
        simp only [Function.update_apply, Fin.ext_iff]
      · have start_pos := inv.start_pos
        rw [result]
        dsimp only
        omega
  · intro refused
    rw [alloc, if_pos (refused_iff.2 refused)]

/-- Three blocks of which the second, of two slots, was given back. -/
def holeOfTwo : Heap × List Live :=
  history 0x7000 [.alloc 8, .alloc 16, .alloc 8, .dealloc 0x7008]

/-- A request for one slot takes the first slot of the hole. -/
theorem alloc_firstFit_reuse :
    holeOfTwo.2 = [⟨0x7000, 8⟩, ⟨0x7018, 8⟩] ∧
    IsLeast {i | Hole 0x7000 holeOfTwo.2 (slotsFor 8) i} 1 ∧
    (alloc holeOfTwo.1 8).1 = 0x7008 ∧
    ((alloc holeOfTwo.1 8).2.mem ⟨1, by decide⟩ = ⟨0x7008, 8, 1⟩) := by
  have blocks : holeOfTwo.2 = [⟨0x7000, 8⟩, ⟨0x7018, 8⟩] := by decide
  have least : IsLeast {i | Hole 0x7000 holeOfTwo.2 (slotsFor 8) i} 1 := by
    have one : slotsFor 8 = 1 := by decide
    rw [blocks, one]
    constructor
    · refine ⟨by decide, fun x low high => ?_⟩
      obtain rfl : x = 1 := by omega
      rintro ⟨a, ha, low, high⟩
      rcases List.mem_pair.1 ha with rfl | rfl <;> revert low high <;> decide
    · rintro i ⟨-, free⟩
      by_contra zero
      obtain rfl : i = 0 := by omega
      exact free 0 le_rfl (by decide) ⟨_, List.mem_cons_self, by decide, by decide⟩
  have served := ((alloc_firstFit 0x7000 (.inr ⟨by decide, by decide, by decide⟩) (by decide)
    [.alloc 8, .alloc 16, .alloc 8, .dealloc 0x7008] 8).1 (by decide) (by decide)).1 1 least
  exact ⟨blocks, least, served.1, served.2.2 ⟨1, by decide⟩⟩

end SsuOs.Alloc.Page
