import Mathlib.Logic.Function.Basic
import Mathlib.Tactic.Common

/-!
# Ledgers of blocks

Blocks with numbers below `hi` are in use or free. Those below `lo` are always in use; every other
block in use is entered in one slot. A slot that has no block has the number 0, which is below `lo`.
-/

namespace SsuOs

variable {σ : Type*} {lo hi : ℕ}

structure Ledger (lo hi : ℕ) (slot : σ → ℕ) (marked : ℕ → Bool) : Prop where
  low : 0 < lo
  range : ∀ x, slot x ≠ 0 → lo ≤ slot x ∧ slot x < hi
  inj : ∀ x y, slot x ≠ 0 → slot x = slot y → x = y
  marked : ∀ b < hi, marked b = true ↔ b < lo ∨ ∃ x, slot x = b

namespace Ledger

variable {slot slot' : σ → ℕ} {marked marked' : ℕ → Bool} {b : ℕ} {x : σ}

theorem congr (ledger : Ledger lo hi slot marked) (slots : ∀ x, slot' x = slot x)
    (marks : ∀ b < hi, marked' b = marked b) : Ledger lo hi slot' marked' := by
  obtain rfl : slot' = slot := funext slots
  refine ⟨ledger.low, ledger.range, ledger.inj, fun b below => ?_⟩
  rw [marks b below]
  exact ledger.marked b below

/-- A free block is not entered anywhere. -/
theorem ne_of_free (ledger : Ledger lo hi slot marked) (below : b < hi) (free : marked b = false)
    (x : σ) : slot x ≠ b := by
  intro entered
  have used := (ledger.marked b below).2 (.inr ⟨x, entered⟩)
  simp [free] at used

theorem le_of_free (ledger : Ledger lo hi slot marked) (below : b < hi) (free : marked b = false) :
    lo ≤ b := by
  by_contra low
  have used := (ledger.marked b below).2 (.inl (Nat.lt_of_not_le low))
  simp [free] at used

variable [DecidableEq σ]

/-- A free block is entered in an empty slot. -/
theorem assign (ledger : Ledger lo hi slot marked) (below : b < hi) (free : marked b = false)
    (empty : slot x = 0) (slots : ∀ y, slot' y = if y = x then b else slot y)
    (marks : ∀ c < hi, marked' c = (decide (c = b) || marked c)) : Ledger lo hi slot' marked' := by
  have high := ledger.le_of_free below free
  have other := ledger.ne_of_free below free
  refine ⟨ledger.low, ?_, ?_, ?_⟩
  · intro y entered
    rw [slots] at entered ⊢
    split_ifs at entered ⊢
    · exact ⟨high, below⟩
    · exact ledger.range y entered
  · intro y z entered same
    rw [slots] at entered
    rw [slots, slots] at same
    split_ifs at entered same with hy hz hz
    · rw [hy, hz]
    · exact absurd same.symm (other z)
    · exact absurd same (other y)
    · exact ledger.inj y z entered same
  · intro c inside
    have before := ledger.marked c inside
    rw [marks c inside, Bool.or_eq_true, decide_eq_true_eq, before]
    constructor
    · rintro (rfl | low | ⟨y, entered⟩)
      · exact .inr ⟨x, by rw [slots, if_pos rfl]⟩
      · exact .inl low
      · by_cases here : y = x
        · have zero : c = 0 := by rw [← entered, here, empty]
          have low := ledger.low
          exact .inl (by omega)
        · exact .inr ⟨y, by rw [slots, if_neg here, entered]⟩
    · rintro (low | ⟨y, entered⟩)
      · exact .inr (.inl low)
      · rw [slots] at entered
        split_ifs at entered
        · exact .inl entered.symm
        · exact .inr (.inr ⟨y, entered⟩)

/-- The block of a slot becomes free. -/
theorem release (ledger : Ledger lo hi slot marked) (entered : slot x = b) (some : b ≠ 0)
    (slots : ∀ y, slot' y = if y = x then 0 else slot y)
    (marks : ∀ c < hi, marked' c = (!decide (c = b) && marked c)) : Ledger lo hi slot' marked' := by
  have high := (ledger.range x (by rwa [entered])).1
  refine ⟨ledger.low, ?_, ?_, ?_⟩
  · intro y filled
    rw [slots] at filled ⊢
    split_ifs at filled ⊢
    · exact absurd rfl filled
    · exact ledger.range y filled
  · intro y z filled same
    rw [slots] at filled
    rw [slots, slots] at same
    split_ifs at filled same with hy hz hz
    · exact absurd rfl filled
    · exact absurd rfl filled
    · exact absurd same filled
    · exact ledger.inj y z filled same
  · intro c inside
    have before := ledger.marked c inside
    rw [marks c inside, Bool.and_eq_true, Bool.not_eq_true', decide_eq_false_iff_not, before]
    constructor
    · rintro ⟨other, low | ⟨y, here⟩⟩
      · exact .inl low
      · by_cases same : y = x
        · exact absurd (by rw [← here, same, entered]) other
        · exact .inr ⟨y, by rw [slots, if_neg same, here]⟩
    · rintro (low | ⟨y, here⟩)
      · refine ⟨?_, .inl low⟩
        rintro rfl
        rw [entered] at high
        omega
      · rw [slots] at here
        split_ifs at here with same
        · have low := ledger.low
          refine ⟨?_, .inl (by omega)⟩
          rintro rfl
          exact some here.symm
        · refine ⟨?_, .inr ⟨y, here⟩⟩
          rintro rfl
          exact same (ledger.inj y x (by rw [here]; exact some) (by rw [here, entered]))

end Ledger

end SsuOs
