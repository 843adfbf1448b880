import Mathlib.Data.Fintype.Card
import Mathlib.Tactic.Common

/-!
# Counting processes

How many processes are in a state of some kind, and how the number changes when one of them goes to
another state.
-/

namespace SsuOs.Counting

variable {T α : Type*} [Fintype T]

/-- The number of processes whose state is of the kind `p`. -/
def count (p : α → Bool) (f : T → α) : ℕ := (Finset.univ.filter fun t => p (f t) = true).card

theorem count_pos {p : α → Bool} {f : T → α} : 0 < count p f ↔ ∃ t, p (f t) = true := by
  rw [count, Finset.card_pos]
  simp [Finset.Nonempty]

theorem count_eq_zero {p : α → Bool} {f : T → α} : count p f = 0 ↔ ∀ t, p (f t) = false := by
  rw [← Nat.le_zero, ← Nat.not_lt, count_pos]
  simp

/-- One process changes its state. -/
theorem count_update [DecidableEq T] (p : α → Bool) (f : T → α) (t : T) (x : α) :
    count p (Function.update f t x) + (p (f t)).toNat = count p f + (p x).toNat := by
  have split (g : T → α) : count p g =
      (p (g t)).toNat + ((Finset.univ.erase t).filter fun u => p (g u) = true).card := by
    unfold count
    rw [← Finset.insert_erase (Finset.mem_univ t), Finset.filter_insert]
    cases h : p (g t) <;> simp [h, Nat.add_comm]
  have rest : ((Finset.univ.erase t).filter fun u => p (Function.update f t x u) = true) =
      (Finset.univ.erase t).filter fun u => p (f u) = true := by
    apply Finset.filter_congr
    intro u mem
    rw [Function.update_of_ne (Finset.ne_of_mem_erase mem)]
  rw [split (Function.update f t x), split f, rest, Function.update_self]
  omega

end SsuOs.Counting
