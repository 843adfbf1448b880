import Mathlib.Data.Fin.Basic
import Mathlib.Data.List.FinRange
import Mathlib.Order.Bounds.Basic
import Mathlib.Tactic.Ring
import Mathlib.Tactic.Linarith

/-!
# First fit over a table of slots

Both allocators manage a page as an array of `num` entries `struct mm`, one for each `unit` bytes,
in which only the first entry of a block in use is marked.  This file has the loops they share:
the inner loop that collects free slots (`fit`), the outer loop that jumps over blocks in use
(`search`), and the loop of `dealloc` (`release`), with the shape of the tables they keep
(`WellFormed`).
-/

namespace SsuOs.Alloc

/-- `struct mm`; the address 0 is `NULL`. -/
structure Mm where
  adr : ℕ
  size : ℕ
  flag : ℕ
  deriving DecidableEq, Repr

variable {num : ℕ} (unit : ℕ)

/-- The initial form of an entry. -/
def Mm.unused : Mm := ⟨0, unit, 0⟩

/-- The inner loop of `alloc` from slot `j` on, with `valid` bytes found so far; `n` bounds its
iterations.  It gives the bytes found when they are enough. -/
def fit (mem : Fin num → Mm) (size : ℤ) : (n j valid : ℕ) → Option ℕ
  | 0, _, _ => none
  | n + 1, j, valid =>
      if h : j < num then
        if (mem ⟨j, h⟩).flag = 1 then none
        else if size ≤ valid + unit then some (valid + unit)
        else fit mem size n (j + 1) (valid + unit)
      else none

/-- The outer loop of `alloc` from slot `i` on; `n` bounds its iterations.  It gives the slot that
fits and the bytes found there. -/
def search (mem : Fin num → Mm) (size : ℤ) : (n i : ℕ) → Option (Fin num × ℕ)
  | 0, _ => none
  | n + 1, i =>
      if h : i < num then
        if (mem ⟨i, h⟩).flag = 0 then
          match fit unit mem size num i 0 with
          | some valid => some (⟨i, h⟩, valid)
          | none => search mem size n (i + 1)
        else if (mem ⟨i, h⟩).size ≠ unit then
          let i' := i + ((mem ⟨i, h⟩).size / unit - 1)
          if i' ≥ num then none else search mem size n (i' + 1)
        else search mem size n (i + 1)
      else none

/-- The entry of a block of `valid` bytes at slot `i` of the page at `start`. -/
def Mm.block (start : ℕ) (i : Fin num) (valid : ℕ) : Mm := ⟨i * unit + start, valid, 1⟩

/-- The loop of `dealloc`: the first entry with this address gets its initial form. -/
def release (mem : Fin num → Mm) (adr : ℕ) : Fin num → Mm :=
  match (List.finRange num).find? fun i => (mem i).adr = adr with
  | some i => Function.update mem i (.unused unit)
  | none => mem

/-! ## The shape of a table -/

/-- Each entry is unused or marks a block that lies in the page, and marked blocks do not
overlap. -/
structure WellFormed (start : ℕ) (mem : Fin num → Mm) : Prop where
  entry : ∀ i, mem i = .unused unit ∨
    ∃ k, 1 ≤ k ∧ i + k ≤ num ∧ mem i = .block unit start i (unit * k)
  apart : ∀ i j : Fin num, i < j → (mem i).flag = 1 → (mem j).flag = 1 →
    i * unit + (mem i).size ≤ j * unit

variable {unit} {start : ℕ} {mem : Fin num → Mm}

theorem WellFormed.unused (start : ℕ) : WellFormed unit start fun _ : Fin num => .unused unit where
  entry _ := .inl rfl
  apart _ _ _ h := by simp [Mm.unused] at h

theorem WellFormed.flag_eq (wf : WellFormed unit start mem) (i : Fin num) :
    (mem i).flag = 0 ∨ (mem i).flag = 1 := by
  rcases wf.entry i with h | ⟨k, -, -, h⟩ <;> simp [h, Mm.unused, Mm.block]

theorem WellFormed.eq_unused (wf : WellFormed unit start mem) {i : Fin num}
    (h : (mem i).flag ≠ 1) : mem i = .unused unit := by
  rcases wf.entry i with hi | ⟨k, -, -, hi⟩
  · exact hi
  · simp [hi, Mm.block] at h

theorem WellFormed.block_of_flag (wf : WellFormed unit start mem) {i : Fin num}
    (h : (mem i).flag = 1) :
    ∃ k, 1 ≤ k ∧ i + k ≤ num ∧ mem i = .block unit start i (unit * k) := by
  rcases wf.entry i with hi | hk
  · simp [hi, Mm.unused] at h
  · exact hk

/-! ## What the loops find -/

/-- The inner loop finds the least positive number of slots that hold the request, all of them
without a mark. -/
theorem fit_eq_some {size : ℤ} {n j valid v : ℕ} (h : fit unit mem size n j valid = some v) :
    ∃ k, 1 ≤ k ∧ j + k ≤ num ∧ v = valid + unit * k ∧ size ≤ v ∧
      (∀ k', 1 ≤ k' → k' < k → valid + unit * k' < size) ∧
      ∀ x : Fin num, j ≤ x → x < j + k → (mem x).flag ≠ 1 := by
  induction n generalizing j valid with
  | zero => cases h
  | succ n ih =>
    rw [fit] at h
    split_ifs at h with inside marked enough
    · cases h
      refine ⟨1, le_rfl, inside, by ring, by push_cast; exact enough, fun k' _ _ => by omega, ?_⟩
      intro x low high
      rwa [show x = ⟨j, inside⟩ from Fin.ext (by dsimp only; omega)]
    · obtain ⟨k, hk, bound, hv, hsize, least, free⟩ := ih h
      refine ⟨k + 1, by omega, by omega, by rw [hv]; ring, hsize, fun k' h1 hlt => ?_, ?_⟩
      · rcases Nat.lt_or_ge 1 k' with two | one
        · have below := least (k' - 1) (by omega) (by omega)
          obtain ⟨m, rfl⟩ := Nat.exists_eq_add_of_le' h1
          rw [Nat.add_sub_cancel] at below
          push_cast at below ⊢
          linarith
        · obtain rfl : k' = 1 := le_antisymm one h1
          push_cast
          linarith
      · intro x low high
        rcases Nat.eq_or_lt_of_le low with same | above
        · rwa [show x = ⟨j, inside⟩ from Fin.ext same.symm]
        · exact free x above (by omega)

/-- Slot `i` is not inside a marked block that starts before it. -/
def Clear (unit : ℕ) (mem : Fin num → Mm) (i : ℕ) : Prop :=
  ∀ x : Fin num, x < i → (mem x).flag = 1 → x * unit + (mem x).size ≤ i * unit

theorem Clear.succ {i : Fin num} (clear : Clear unit mem i) (h : (mem i).flag ≠ 1) :
    Clear unit mem (i + 1) := by
  intro x below marked
  rcases Nat.lt_succ_iff_lt_or_eq.1 below with lower | same
  · exact (clear x lower marked).trans (Nat.mul_le_mul_right _ (by omega))
  · exact absurd (Fin.ext same ▸ marked) h

theorem Clear.jump (wf : WellFormed unit start mem) {i : Fin num} {k : ℕ}
    (entry : mem i = .block unit start i (unit * k)) (hk : 1 ≤ k) : Clear unit mem (i + k) := by
  have span : (i : ℕ) * unit + (mem i).size = (i + k) * unit := by
    rw [entry, Mm.block]
    ring
  intro x below marked
  rcases lt_trichotomy x i with lower | same | above
  · have := wf.apart x i lower marked (by rw [entry]; rfl)
    exact this.trans (Nat.mul_le_mul_right _ (by omega))
  · rw [same, span]
  · -- a block that starts inside the block at `i` would overlap it
    have := wf.apart i x above (by rw [entry]; rfl) marked
    rw [span] at this
    obtain ⟨k', hk', -, hx⟩ := wf.block_of_flag marked
    rcases Nat.eq_zero_or_pos unit with zero | pos
    · simp [zero, hx, Mm.block]
    · have := Nat.le_of_mul_le_mul_right this pos
      omega

/-- The outer loop only stops at a slot outside all blocks, where the inner loop succeeds. -/
theorem search_eq_some (wf : WellFormed unit start mem) (pos : 0 < unit) {size : ℤ} {n i : ℕ}
    {r : Fin num × ℕ} (clear : Clear unit mem i) (h : search unit mem size n i = some r) :
    Clear unit mem r.1 ∧ fit unit mem size num r.1 0 = some r.2 := by
  induction n generalizing i with
  | zero => cases h
  | succ n ih =>
    rw [search] at h
    split_ifs at h with inside unmarked wide
    · cases found : fit unit mem size num i 0 with
      | some valid =>
        rw [found] at h
        cases h
        exact ⟨clear, found⟩
      | none =>
        rw [found] at h
        exact ih (Clear.succ (i := ⟨i, inside⟩) clear (by rw [unmarked]; decide)) h
    · obtain ⟨k, hk, bound, entry⟩ := wf.block_of_flag ((wf.flag_eq _).resolve_left unmarked)
      have jump : i + ((mem ⟨i, inside⟩).size / unit - 1) + 1 = i + k := by
        rw [entry, Mm.block, Nat.mul_div_cancel_left k pos]
        omega
      dsimp only at h
      rw [jump] at h
      split_ifs at h
      exact ih (Clear.jump (i := ⟨i, inside⟩) wf entry hk) h
    · obtain ⟨k, hk, bound, entry⟩ := wf.block_of_flag ((wf.flag_eq _).resolve_left unmarked)
      have single : k = 1 := by
        rw [not_not, entry] at wide
        exact Nat.eq_of_mul_eq_mul_left pos (wide.trans (Nat.mul_one _).symm)
      exact ih (single ▸ Clear.jump (i := ⟨i, inside⟩) wf entry hk) h

/-- The least multiple of the unit that holds the request, from the slots that the inner loop
took. -/
theorem isLeast_fit (pos : 0 < unit) {size : ℤ} {k : ℕ} (hk : 1 ≤ k) (enough : size ≤ (unit * k : ℕ))
    (least : ∀ k', 1 ≤ k' → k' < k → (0 : ℕ) + unit * k' < size) :
    IsLeast {m : ℕ | 0 < m ∧ unit ∣ m ∧ size ≤ m} (unit * k) := by
  refine ⟨⟨Nat.mul_pos pos hk, dvd_mul_right .., enough⟩, ?_⟩
  rintro _ ⟨positive, ⟨k', rfl⟩, holds⟩
  by_contra small
  have below : k' < k := lt_of_mul_lt_mul_left (not_le.1 small) (Nat.zero_le _)
  have := least k' (Nat.pos_of_mul_pos_left positive) below
  push_cast at holds this
  linarith

/-- Where a block of `k` slots for a request of `size` bytes may be marked: slot `i` is outside all
blocks, no slot of the new block is marked, and no smaller block would do. -/
structure Fits (unit : ℕ) (mem : Fin num → Mm) (size : ℤ) (i : Fin num) (k : ℕ) : Prop where
  pos : 1 ≤ k
  bound : i + k ≤ num
  clear : Clear unit mem i
  free : ∀ x : Fin num, i ≤ x → x < i + k → (mem x).flag ≠ 1
  least : IsLeast {m : ℕ | 0 < m ∧ unit ∣ m ∧ size ≤ m} (unit * k)

theorem Fits.unmarked {size : ℤ} {i : Fin num} {k : ℕ} (fits : Fits unit mem size i k) :
    (mem i).flag ≠ 1 := by
  have pos := fits.pos
  exact fits.free i le_rfl (by omega)

/-- The search finds nothing, or a place where a block for the request may be marked. -/
theorem search_cases (wf : WellFormed unit start mem) (pos : 0 < unit) (size : ℤ) :
    search unit mem size num 0 = none ∨
      ∃ i k, search unit mem size num 0 = some (i, unit * k) ∧ Fits unit mem size i k := by
  cases found : search unit mem size num 0 with
  | none => exact .inl rfl
  | some r =>
    obtain ⟨i, valid⟩ := r
    have none_before : Clear unit mem 0 := fun x hx => absurd hx (Nat.not_lt_zero x)
    obtain ⟨clear, fits⟩ := search_eq_some wf pos none_before found
    obtain ⟨k, hk, bound, rfl, enough, least, free⟩ := fit_eq_some fits
    rw [Nat.zero_add] at enough ⊢
    exact .inr ⟨i, k, rfl, hk, bound, clear, free, isLeast_fit pos hk enough least⟩

/-! ## First fit -/

/-- Slot `x` belongs to a marked block. -/
def Covered (unit : ℕ) (mem : Fin num → Mm) (x : ℕ) : Prop :=
  ∃ h : Fin num, (mem h).flag = 1 ∧ h ≤ x ∧ x * unit < h * unit + (mem h).size

/-- The `k` slots from `i` on are outside all blocks. -/
def Room (unit : ℕ) (mem : Fin num → Mm) (k i : ℕ) : Prop :=
  i + k ≤ num ∧ ∀ x, i ≤ x → x < i + k → ¬ Covered unit mem x

/-- A block covers its first slot. -/
theorem WellFormed.covered (wf : WellFormed unit start mem) (pos : 0 < unit) {i : Fin num}
    (marked : (mem i).flag = 1) : Covered unit mem i := by
  obtain ⟨k, hk, -, entry⟩ := wf.block_of_flag marked
  refine ⟨i, marked, le_rfl, ?_⟩
  rw [entry]
  exact Nat.lt_add_of_pos_right (Nat.mul_pos pos hk)

/-- There is room where the search looks for it: outside the blocks before, up to the next mark. -/
theorem room_iff (wf : WellFormed unit start mem) (pos : 0 < unit) {k i : ℕ} (hk : 1 ≤ k) :
    Room unit mem k i ↔ i + k ≤ num ∧ Clear unit mem i ∧
      ∀ x : Fin num, i ≤ x → x < i + k → (mem x).flag ≠ 1 := by
  refine and_congr_right fun bound => ⟨fun outside => ⟨?_, ?_⟩, ?_⟩
  · intro x below marked
    by_contra overlaps
    exact outside i le_rfl (by omega) ⟨x, marked, below.le, not_le.1 overlaps⟩
  · intro x low high marked
    exact outside x low high (wf.covered pos marked)
  · rintro ⟨clear, free⟩ x low high ⟨h, marked, below, inside⟩
    rcases Nat.lt_or_ge h i with before | within
    · have ends := clear h before marked
      have slots := Nat.mul_le_mul_right unit low
      omega
    · exact free h within (by omega) marked

/-- The inner loop succeeds where enough slots are free. -/
theorem fit_ne_none {size : ℤ} {n j valid k : ℕ} (hk : 1 ≤ k) (inside : j + k ≤ num)
    (enough : size ≤ (valid + unit * k : ℕ)) (bound : k ≤ n)
    (free : ∀ x : Fin num, j ≤ x → x < j + k → (mem x).flag ≠ 1) :
    fit unit mem size n j valid ≠ none := by
  induction n generalizing j valid k with
  | zero => omega
  | succ n ih =>
    have here : j < num := by omega
    rw [fit, dif_pos here, if_neg (free ⟨j, here⟩ le_rfl (by dsimp only; omega))]
    split_ifs with last
    · simp
    · -- one slot is not enough
      have more : k ≠ 1 := by
        rintro rfl
        push_cast at enough
        exact last (by linarith)
      obtain ⟨k, rfl⟩ : ∃ k', k = k' + 1 := ⟨k - 1, by omega⟩
      refine ih (k := k) (by omega) (by omega) ?_ (by omega) fun x low high =>
        free x (by omega) (by omega)
      push_cast at enough ⊢
      linarith

/-- The outer loop does not pass a slot where there is room. -/
theorem search_le (wf : WellFormed unit start mem) (pos : 0 < unit) {size : ℤ} {k t : ℕ}
    (hk : 1 ≤ k) (enough : size ≤ (unit * k : ℕ)) (inside : t + k ≤ num) (clear : Clear unit mem t)
    (free : ∀ x : Fin num, t ≤ x → x < t + k → (mem x).flag ≠ 1) {n i : ℕ} (before : i ≤ t)
    (bound : num ≤ n + i) : ∃ r, search unit mem size n i = some r ∧ r.1 ≤ t := by
  have fits : fit unit mem size num t 0 ≠ none :=
    fit_ne_none hk inside (by rwa [Nat.zero_add]) (by omega) free
  induction n generalizing i with
  | zero => omega
  | succ n ih =>
    have here : i < num := by omega
    rw [search, dif_pos here]
    split_ifs with unmarked wide
    · cases found : fit unit mem size num i 0 with
      | some valid => exact ⟨_, rfl, before⟩
      | none =>
        have passed : i ≠ t := by
          rintro rfl
          exact fits found
        exact ih (by omega) (by omega)
    all_goals
      -- the block at `i` ends before the room
      have marked := (wf.flag_eq ⟨i, here⟩).resolve_left unmarked
      obtain ⟨k', hk', bound', entry⟩ := wf.block_of_flag marked
      have passed : i < t := by
        refine lt_of_le_of_ne before fun same => ?_
        exact free ⟨i, here⟩ same.ge (by dsimp only; omega) marked
      have ends : i + k' ≤ t := by
        have := clear ⟨i, here⟩ passed marked
        rw [entry, Mm.block] at this
        refine Nat.le_of_mul_le_mul_right ?_ pos
        calc (i + k') * unit = i * unit + unit * k' := by ring
          _ ≤ t * unit := this
    · have jump : i + ((mem ⟨i, here⟩).size / unit - 1) + 1 = i + k' := by
        rw [entry, Mm.block, Nat.mul_div_cancel_left k' pos]
        omega
      dsimp only
      rw [if_neg (by omega), jump]
      exact ih ends (by omega)
    · exact ih passed (by omega)

/-- The search is first fit: it finds the least slot from which on there are enough slots outside
all blocks, and fails only if there is none. -/
theorem search_firstFit (wf : WellFormed unit start mem) (pos : 0 < unit) {size : ℤ} {k : ℕ}
    (needs : IsLeast {m : ℕ | 0 < m ∧ unit ∣ m ∧ size ≤ m} (unit * k)) :
    (search unit mem size num 0 = none ∧ ∀ i, ¬ Room unit mem k i) ∨
      ∃ i : Fin num, search unit mem size num 0 = some (i, unit * k) ∧
        IsLeast {i | Room unit mem k i} i := by
  obtain ⟨⟨positive, -, enough⟩, -⟩ := id needs
  have hk : 1 ≤ k := Nat.pos_of_mul_pos_left positive
  have reaches {t : ℕ} (room : Room unit mem k t) :
      ∃ r, search unit mem size num 0 = some r ∧ r.1 ≤ t := by
    obtain ⟨inside, clear, free⟩ := (room_iff wf pos hk).1 room
    exact search_le wf pos hk enough inside clear free (Nat.zero_le t) le_rfl
  rcases search_cases wf pos size with none_fits | ⟨i, k', found, fits⟩
  · refine .inl ⟨none_fits, fun t room => ?_⟩
    obtain ⟨r, found, -⟩ := reaches room
    rw [none_fits] at found
    cases found
  · obtain rfl : k' = k := Nat.eq_of_mul_eq_mul_left pos (fits.least.unique needs)
    refine .inr ⟨i, found, (room_iff wf pos hk).2 ⟨fits.bound, fits.clear, fits.free⟩, ?_⟩
    intro t room
    obtain ⟨r, found', le⟩ := reaches room
    rw [found] at found'
    cases found'
    exact le

/-! ## Marking and unmarking a block -/

/-- A block that starts outside all blocks and covers only unmarked slots can be marked. -/
theorem WellFormed.place (wf : WellFormed unit start mem) {size : ℤ} {i : Fin num} {k : ℕ}
    (fits : Fits unit mem size i k) :
    WellFormed unit start (Function.update mem i (.block unit start i (unit * k))) where
  entry x := by
    by_cases same : x = i
    · subst same
      exact .inr ⟨k, fits.pos, fits.bound, Function.update_self ..⟩
    · rw [Function.update_of_ne same]
      exact wf.entry x
  apart x y hxy := by
    by_cases hx : x = i <;> by_cases hy : y = i <;>
      simp only [hx, hy, Function.update_self, ne_eq, not_false_eq_true, Function.update_of_ne]
    · exact absurd (hx.trans hy.symm) hxy.ne
    · intro _ marked
      have above : (i : ℕ) ≤ y := by subst hx; exact hxy.le
      have past : i + k ≤ y := by
        by_contra inside
        exact fits.free y above (by omega) marked
      calc (i : ℕ) * unit + unit * k = (i + k) * unit := by ring
        _ ≤ y * unit := Nat.mul_le_mul_right _ past
    · intro marked _
      exact fits.clear x (hy ▸ hxy) marked
    · exact wf.apart x y hxy

theorem WellFormed.remove (wf : WellFormed unit start mem) (i : Fin num) :
    WellFormed unit start (Function.update mem i (.unused unit)) where
  entry x := by
    by_cases same : x = i
    · subst same
      exact .inl (Function.update_self ..)
    · rw [Function.update_of_ne same]
      exact wf.entry x
  apart x y hxy hx hy := by
    by_cases same : x = i
    · simp [same, Mm.unused] at hx
    · by_cases same' : y = i
      · simp [same', Mm.unused] at hy
      · rw [Function.update_of_ne same] at hx ⊢
        rw [Function.update_of_ne same'] at hy
        exact wf.apart x y hxy hx hy

/-- The address of a marked entry tells its slot. -/
theorem WellFormed.adr_eq (wf : WellFormed unit start mem) {i : Fin num}
    (marked : (mem i).flag = 1) : (mem i).adr = i * unit + start := by
  obtain ⟨k, -, -, entry⟩ := wf.block_of_flag marked
  rw [entry]
  rfl

theorem slot_inj (pos : 0 < unit) {i j : Fin num} (same : i * unit + start = j * unit + start) :
    i = j :=
  Fin.ext (Nat.eq_of_mul_eq_mul_right pos (Nat.add_right_cancel same))

/-- Two marked blocks with a common byte are one. -/
theorem WellFormed.eq_of_overlap (wf : WellFormed unit start mem) {i j : Fin num}
    (hi : (mem i).flag = 1) (hj : (mem j).flag = 1) {x : ℕ} (low : (mem i).adr ≤ x)
    (high : x < (mem i).adr + (mem i).size) (low' : (mem j).adr ≤ x)
    (high' : x < (mem j).adr + (mem j).size) : i = j := by
  rw [wf.adr_eq hi] at low high
  rw [wf.adr_eq hj] at low' high'
  rcases lt_trichotomy i j with before | same | after
  · have := wf.apart i j before hi hj
    omega
  · exact same
  · have := wf.apart j i after hj hi
    omega

/-- `dealloc` of the address of a marked block unmarks it. -/
theorem release_block (wf : WellFormed unit start mem) (pos : 0 < unit) (hstart : 0 < start)
    {i : Fin num} (marked : (mem i).flag = 1) :
    release unit mem (i * unit + start) = Function.update mem i (.unused unit) := by
  have only (x : Fin num) (hx : (mem x).adr = i * unit + start) : x = i := by
    by_cases hm : (mem x).flag = 1
    · rw [wf.adr_eq hm] at hx
      exact slot_inj pos hx
    · rw [wf.eq_unused hm] at hx
      simp only [Mm.unused] at hx
      omega
  unfold release
  cases found : (List.finRange num).find? fun x => (mem x).adr = i * unit + start with
  | some x => rw [only x (by simpa using List.find?_some found)]
  | none =>
    have := List.find?_eq_none.1 found i (List.mem_finRange i)
    simp [wf.adr_eq marked] at this

/-- `dealloc` of any other address changes nothing. -/
theorem release_other (wf : WellFormed unit start mem) {adr : ℕ}
    (other : ∀ i, (mem i).flag = 1 → i * unit + start ≠ adr) : release unit mem adr = mem := by
  unfold release
  cases found : (List.finRange num).find? fun x => (mem x).adr = adr with
  | none => rfl
  | some x =>
    have hx : (mem x).adr = adr := by simpa using List.find?_some found
    have unmarked : (mem x).flag ≠ 1 := fun hm => other x hm ((wf.adr_eq hm).symm.trans hx)
    exact (Function.update_eq_self_iff).2 (wf.eq_unused unmarked).symm

/-- `dealloc` unmarks the entry at its address, if there is one, and leaves nothing else behind. -/
theorem release_apply (wf : WellFormed unit start mem) (pos : 0 < unit) (hstart : 0 < start)
    (adr : ℕ) (i : Fin num) :
    release unit mem adr i = if i * unit + start = adr then .unused unit else mem i := by
  by_cases known : ∃ x, (mem x).flag = 1 ∧ x * unit + start = adr
  · obtain ⟨x, marked, rfl⟩ := known
    rw [release_block wf pos hstart marked, Function.update_apply]
    exact if_congr ⟨fun same => by rw [same], slot_inj pos⟩ rfl rfl
  · rw [release_other wf fun x marked clash => known ⟨x, marked, clash⟩]
    split_ifs with here
    · exact wf.eq_unused fun marked => known ⟨i, marked, here⟩
    · rfl

theorem WellFormed.release (wf : WellFormed unit start mem) (adr : ℕ) :
    WellFormed unit start (release unit mem adr) := by
  unfold Alloc.release
  cases (List.finRange num).find? fun i => (mem i).adr = adr with
  | some i => exact wf.remove i
  | none => exact wf

/-- Which entries are unmarked by a list of `dealloc` calls does not depend on their order. -/
theorem releases_apply (wf : WellFormed unit start mem) (pos : 0 < unit) (hstart : 0 < start)
    (adrs : List ℕ) (i : Fin num) :
    adrs.foldl (release unit) mem i =
      if i * unit + start ∈ adrs then .unused unit else mem i := by
  induction adrs generalizing mem with
  | nil => simp
  | cons adr adrs ih =>
    rw [List.foldl_cons, ih (wf.release adr), release_apply wf pos hstart]
    by_cases here : i * unit + start = adr <;> simp [here]

/-- A table is determined by its marked entries. -/
theorem WellFormed.ext {mem' : Fin num → Mm} (wf : WellFormed unit start mem)
    (wf' : WellFormed unit start mem')
    (marked : ∀ i, (mem i).flag = 1 → mem' i = mem i)
    (marked' : ∀ i, (mem' i).flag = 1 → mem i = mem' i) : mem = mem' := by
  funext i
  by_cases hi : (mem i).flag = 1
  · exact (marked i hi).symm
  · by_cases hi' : (mem' i).flag = 1
    · exact marked' i hi'
    · rw [wf.eq_unused hi, wf'.eq_unused hi']

/-! ## Requests -/

/-- The check with which both allocators begin. -/
theorem refused_iff {size : ℤ} {page : ℕ} :
    (size > page ∨ size.tmod 8 ≠ 0) ↔ ¬ (size ≤ page ∧ 8 ∣ size) := by
  rw [not_and_or, not_le, Int.dvd_iff_tmod_eq_zero]

end SsuOs.Alloc
