import SsuOs.Base.Bytes

/-!
# Bitmaps

The bits of an array of bytes, eight to a byte, lowest bit first.
-/

namespace SsuOs.Bytes

variable {N : ℕ} {b : Bytes N} {j k : ℕ}

/-- The bit `k` of the array. -/
def bit (b : Bytes N) (k : ℕ) : Bool := (b.get (k / 8)).toBitVec.getLsbD (k % 8)

/-- `b[k/8] |= 1 << (k % 8)`. -/
def setBit (b : Bytes N) (k : ℕ) : Bytes N :=
  b.copyIn (k / 8) [⟨(b.get (k / 8)).toBitVec ||| BitVec.twoPow 8 (k % 8)⟩]

/-- `b[k/8] &= ~(1 << (k % 8))`. -/
def clearBit (b : Bytes N) (k : ℕ) : Bytes N :=
  b.copyIn (k / 8) [⟨(b.get (k / 8)).toBitVec &&& ~~~ BitVec.twoPow 8 (k % 8)⟩]

theorem get_copyIn_singleton {pos : ℕ} (inside : pos < N) (x : UInt8) (k : ℕ) :
    (b.copyIn pos [x]).get k = if k = pos then x else b.get k := by
  rw [get_copyIn (by simpa [Nat.succ_le_iff] using inside)]
  by_cases same : k = pos
  · simp [same]
  · have apart : ¬ (pos ≤ k ∧ k < pos + [x].length) := by simp; omega
    rw [if_neg apart, if_neg same]

theorem bit_setBit (inside : k / 8 < N) : (b.setBit k).bit j = (decide (j = k) || b.bit j) := by
  rw [bit, bit, setBit, get_copyIn_singleton inside]
  split_ifs with same
  · have bound : j % 8 < 8 := Nat.mod_lt _ (by decide)
    rw [BitVec.getLsbD_or, BitVec.getLsbD_twoPow, same, Bool.or_comm]
    have eq : (k % 8 = j % 8) ↔ j = k := by omega
    simp [eq, Nat.mod_lt]
  · have apart : j ≠ k := by
      rintro rfl
      exact same rfl
    simp [apart]

theorem bit_clearBit (inside : k / 8 < N) :
    (b.clearBit k).bit j = (!decide (j = k) && b.bit j) := by
  rw [bit, bit, clearBit, get_copyIn_singleton inside]
  split_ifs with same
  · have bound : j % 8 < 8 := Nat.mod_lt _ (by decide)
    rw [BitVec.getLsbD_and, BitVec.getLsbD_not, BitVec.getLsbD_twoPow, same, Bool.and_comm]
    have eq : (k % 8 = j % 8) ↔ j = k := by omega
    simp [eq, bound, Nat.mod_lt]
  · have apart : j ≠ k := by
      rintro rfl
      exact same rfl
    simp [apart]

end SsuOs.Bytes
