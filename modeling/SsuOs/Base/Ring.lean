import Mathlib.Data.List.GetD
import Mathlib.Data.Nat.ModEq
import Mathlib.Data.UInt
import Mathlib.Tactic.Common

/-!
# Ring buffers with free-running counters

A buffer of `N` places that is written at `w % N` and read at `r % N`, where the 32-bit counters `r`
and `w` only ever grow and wrap at `2 ^ 32`. If `N` divides `2 ^ 32` the wrap does not matter.
-/

namespace SsuOs.Ring

variable {α : Type*} {data : ℕ → α} {N : ℕ} {r w : UInt32}

/-- What a reader finds: the places from the counter `r` to the counter `w`. -/
def queue (data : ℕ → α) (N : ℕ) (r w : UInt32) : List α :=
  (List.range (w - r).toNat).map fun k => data ((r.toNat + k) % N)

@[simp] theorem length_queue : (queue data N r w).length = (w - r).toNat := by
  simp [queue]

@[simp] theorem queue_self : queue data N r r = [] := by
  simp [queue]

theorem queue_eq_nil_iff : queue data N r w = [] ↔ r = w := by
  rw [← List.length_eq_zero_iff, length_queue]
  constructor
  · intro same
    have zero : w - r = 0 := UInt32.toNat_inj.1 same
    exact (sub_eq_zero.1 zero).symm
  · rintro rfl
    simp

/-- The place of the next write is the one after the last that is read. -/
theorem writePlace (divides : N ∣ 2 ^ 32) :
    w.toNat % N = (r.toNat + (w - r).toNat) % N := by
  have sum : w.toNat = (r.toNat + (w - r).toNat) % 2 ^ 32 := by
    rw [← UInt32.toNat_add, add_sub_cancel]
  rw [sum, Nat.mod_mod_of_dvd _ divides]

theorem toNat_succ_sub (room : (w - r).toNat < N) (small : N < 2 ^ 32) :
    (w + 1 - r).toNat = (w - r).toNat + 1 := by
  rw [show w + 1 - r = (w - r) + 1 by grind, UInt32.toNat_add]
  change ((w - r).toNat + 1) % 2 ^ 32 = _
  rw [Nat.mod_eq_of_lt (by omega)]

/-- A write appends, as long as there is room. -/
theorem queue_push (divides : N ∣ 2 ^ 32) (small : N < 2 ^ 32) (room : (w - r).toNat < N) (x : α) :
    queue (Function.update data (w.toNat % N) x) N r (w + 1) = queue data N r w ++ [x] := by
  rw [queue, toNat_succ_sub room small, List.range_succ, List.map_append, List.map_singleton,
    writePlace divides, Function.update_self]
  congr 1
  apply List.map_congr_left
  intro k below
  rw [List.mem_range] at below
  apply Function.update_of_ne
  intro same
  have modeq : k ≡ (w - r).toNat [MOD N] := Nat.ModEq.add_left_cancel' _ same
  rw [Nat.ModEq, Nat.mod_eq_of_lt room, Nat.mod_eq_of_lt (by omega)] at modeq
  omega

/-- A read takes the first. -/
theorem queue_pop (divides : N ∣ 2 ^ 32) (nonempty : r ≠ w) :
    queue data N r w = data (r.toNat % N) :: queue data N (r + 1) w := by
  have length : (w - r).toNat = (w - (r + 1)).toNat + 1 := by
    have positive : (w - r).toNat ≠ 0 := fun zero =>
      nonempty (sub_eq_zero.1 (UInt32.toNat_inj.1 zero : w - r = 0)).symm
    rw [show w - (r + 1) = w - r - 1 by grind]
    have := UInt32.toNat_sub_of_le (w - r) 1 (by
      rw [UInt32.le_iff_toNat_le]
      change 1 ≤ _
      omega)
    rw [this]
    change _ = (w - r).toNat - 1 + 1
    omega
  rw [queue, length, List.range_succ_eq_map, List.map_cons, List.map_map]
  congr 1
  apply List.map_congr_left
  intro k below
  have next : (r + 1).toNat = (r.toNat + 1) % 2 ^ 32 := UInt32.toNat_add ..
  change data ((r.toNat + (k + 1)) % N) = data (((r + 1).toNat + k) % N)
  rw [next, Nat.add_mod ((r.toNat + 1) % 2 ^ 32), Nat.mod_mod_of_dvd _ divides, ← Nat.add_mod,
    Nat.add_assoc, Nat.add_comm 1 k]

/-- The counters of a full buffer. -/
theorem eq_add_iff (small : N < 2 ^ 32) : w = r + UInt32.ofNat N ↔ (w - r).toNat = N := by
  rw [← sub_eq_iff_eq_add', ← UInt32.toNat_inj, UInt32.toNat_ofNat_of_lt' small]

end SsuOs.Ring
