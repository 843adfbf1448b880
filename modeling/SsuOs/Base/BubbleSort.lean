import Mathlib.Order.Lattice
import Mathlib.Order.Defs.LinearOrder
import Mathlib.Data.List.Basic

/-!
# Bubble sort

Bubble sort of a list into descending order, by its two loops over indices.  The least of the first
entries is carried to the end of the part that a pass covers (`bubblePass_settled`), so that after
the last pass the list is a descending permutation of the original one (`bubbleSort_perm`,
`bubbleSort_sorted`).
-/

namespace SsuOs

variable {α : Type*} [LinearOrder α] {l : List α} {j m : ℕ}

/-- The body of the inner loop: two neighbours change places if they stand in ascending order. -/
def compareSwap (l : List α) (j : ℕ) : List α :=
  if bound : j + 1 < l.length then
    if l[j] < l[j + 1] then (l.set j l[j + 1]).set (j + 1) l[j] else l
  else l

/-- The inner loop, over the first `m + 1` entries. -/
def bubblePass (l : List α) (m : ℕ) : List α := (List.range m).foldl compareSwap l

/-- The first `n` rounds of the outer loop. -/
def bubbleRounds (l : List α) (n : ℕ) : List α :=
  (List.range n).foldl (fun queue i => bubblePass queue (l.length - i - 1)) l

def bubbleSort (l : List α) : List α := bubbleRounds l (l.length - 1)

/-! ## The entries stay the same -/

theorem compareSwap_perm (l : List α) (j : ℕ) : (compareSwap l j).Perm l := by
  unfold compareSwap
  split_ifs
  · exact List.set_set_perm _ _
  · exact .refl l
  · exact .refl l

theorem bubblePass_perm (l : List α) (m : ℕ) : (bubblePass l m).Perm l := by
  induction m with
  | zero => exact .refl l
  | succ m ih =>
    rw [bubblePass, List.range_succ, List.foldl_append]
    exact (compareSwap_perm _ m).trans ih

theorem bubbleRounds_succ (l : List α) (n : ℕ) :
    bubbleRounds l (n + 1) = bubblePass (bubbleRounds l n) (l.length - n - 1) := by
  rw [bubbleRounds, List.range_succ, List.foldl_append]
  rfl

theorem bubbleRounds_perm (l : List α) (n : ℕ) : (bubbleRounds l n).Perm l := by
  induction n with
  | zero => exact .refl l
  | succ n ih =>
    rw [bubbleRounds_succ]
    exact (bubblePass_perm _ _).trans ih

theorem bubbleSort_perm (l : List α) : (bubbleSort l).Perm l := bubbleRounds_perm l _

/-! ## The result is sorted -/

theorem compareSwap_getElem_left (bound : j + 1 < l.length) :
    (compareSwap l j)[j]? = some (max l[j] l[j + 1]) := by
  unfold compareSwap
  grind

theorem compareSwap_getElem_right (bound : j + 1 < l.length) :
    (compareSwap l j)[j + 1]? = some (min l[j] l[j + 1]) := by
  unfold compareSwap
  grind

theorem compareSwap_getElem_other {a : ℕ} (left : a ≠ j) (right : a ≠ j + 1) :
    (compareSwap l j)[a]? = l[a]? := by
  unfold compareSwap
  grind

/-- From position `k` on, every entry is in its place: it is at most all entries before it. -/
def Settled (l : List α) (k : ℕ) : Prop :=
  ∀ a b x y, a < b → k ≤ b → l[a]? = some x → l[b]? = some y → y ≤ x

/-- The entry at `j` is at most all entries before it. -/
def LeastAt (l : List α) (j : ℕ) : Prop :=
  ∀ a x y, a < j → l[a]? = some x → l[j]? = some y → y ≤ x

theorem LeastAt.compareSwap (least : LeastAt l j) (bound : j + 1 < l.length) :
    LeastAt (compareSwap l j) (j + 1) := by
  intro a x y before hx hy
  rw [compareSwap_getElem_right bound] at hy
  cases hy
  rcases Nat.lt_succ_iff_lt_or_eq.1 before with earlier | rfl
  · rw [compareSwap_getElem_other (by omega) (by omega)] at hx
    exact (min_le_left ..).trans (least a x _ earlier hx (List.getElem?_eq_getElem (by omega)))
  · rw [compareSwap_getElem_left bound] at hx
    cases hx
    exact (min_le_left ..).trans (le_max_left ..)

/-- A swap below position `k` does not change what is in place. -/
theorem Settled.compareSwap {k : ℕ} (settled : Settled l k) (below : j + 1 < k)
    (bound : j + 1 < l.length) : Settled (compareSwap l j) k := by
  intro a b x y before later hx hy
  rw [compareSwap_getElem_other (by omega) (by omega)] at hy
  have le {c : ℕ} (hc : c < l.length) (lower : c < b) : y ≤ l[c] :=
    settled c b _ y lower later (List.getElem?_eq_getElem hc) hy
  by_cases left : a = j
  · subst left
    rw [compareSwap_getElem_left bound] at hx
    cases hx
    exact (le (by omega) before).trans (le_max_left ..)
  by_cases right : a = j + 1
  · subst right
    rw [compareSwap_getElem_right bound] at hx
    cases hx
    exact le_min (le (by omega) (by omega)) (le bound before)
  · rw [compareSwap_getElem_other left right] at hx
    exact settled a b x y before later hx hy

/-- A pass over the first `m + 1` entries brings the entry at `m` in place. -/
theorem bubblePass_settled (settled : Settled l (m + 1)) (bound : m < l.length) :
    Settled (bubblePass l m) m := by
  have progress (n : ℕ) (hn : n ≤ m) :
      Settled (bubblePass l n) (m + 1) ∧ LeastAt (bubblePass l n) n := by
    induction n with
    | zero => exact ⟨settled, fun a _ _ before => by omega⟩
    | succ n ih =>
      obtain ⟨settled, least⟩ := ih (by omega)
      have length := (bubblePass_perm l n).length_eq
      rw [bubblePass, List.range_succ, List.foldl_append]
      exact ⟨settled.compareSwap (by omega) (by omega), least.compareSwap (by omega)⟩
  obtain ⟨settled, least⟩ := progress m le_rfl
  intro a b x y before later hx hy
  rcases later.eq_or_lt with rfl | further
  · exact least a x y before hx hy
  · exact settled a b x y before further hx hy

/-- After `n` rounds, the last `n` entries are in place. -/
theorem bubbleRounds_settled {n : ℕ} (rounds : n < l.length) :
    Settled (bubbleRounds l n) (l.length - n) := by
  induction n with
  | zero =>
    intro a b x y before later hx hy
    rw [bubbleRounds, List.range_zero, List.foldl_nil, List.getElem?_eq_none (by omega)] at hy
    cases hy
  | succ n ih =>
    have length := (bubbleRounds_perm l n).length_eq
    rw [bubbleRounds_succ, ← Nat.sub_sub]
    refine bubblePass_settled ?_ (by omega)
    rw [Nat.sub_add_cancel (by omega)]
    exact ih (by omega)

theorem bubbleSort_sorted (l : List α) : (bubbleSort l).Pairwise fun x y => y ≤ x := by
  refine List.pairwise_iff_getElem.2 fun a b ha hb before => ?_
  have length := (bubbleSort_perm l).length_eq
  have settled : Settled (bubbleSort l) (l.length - (l.length - 1)) :=
    bubbleRounds_settled (by omega)
  refine settled a b _ _ before (by omega) ?_ ?_
  · exact List.getElem?_eq_getElem ha
  · exact List.getElem?_eq_getElem hb

end SsuOs
