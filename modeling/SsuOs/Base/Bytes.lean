import SsuOs.Base.ByteFile

/-!
# Arrays of bytes

Arrays with a fixed number of bytes, as a buffer in memory or a block of a disk: copying bytes into
them and out of them, and the 32-bit words at their positions, lowest byte first.
-/

namespace SsuOs

open ByteFile

/-- An array of `N` bytes. -/
abbrev Bytes (N : ℕ) := Fin N → UInt8

namespace Bytes

variable {N : ℕ} {b : Bytes N} {pos : ℕ}

/-- The byte at position `k`, if the array has one. -/
def get (b : Bytes N) (k : ℕ) : UInt8 := if h : k < N then b ⟨k, h⟩ else 0

/-- `memmove(b + pos, data, …)`, as far as it stays in the array. -/
def copyIn (b : Bytes N) (pos : ℕ) (data : List UInt8) : Bytes N :=
  fun k => if pos ≤ k ∧ k < pos + data.length then data.getD (k - pos) 0 else b k

/-- `memmove(…, b + pos, n)`. -/
def copyOut (b : Bytes N) (pos n : ℕ) : List UInt8 := (List.range n).map fun k => b.get (pos + k)

theorem get_of_lt {k : ℕ} (inside : k < N) : b.get k = b ⟨k, inside⟩ := dif_pos inside

theorem get_copyIn {data : List UInt8} (fits : pos + data.length ≤ N) (k : ℕ) :
    (b.copyIn pos data).get k =
      if pos ≤ k ∧ k < pos + data.length then data.getD (k - pos) 0 else b.get k := by
  by_cases inside : k < N
  · rw [get_of_lt inside, get_of_lt inside]
    rfl
  · have out : ¬ (pos ≤ k ∧ k < pos + data.length) := by omega
    rw [if_neg out, get, get, dif_neg inside, dif_neg inside]

/-! ## Words -/

/-- The word at byte `pos`. -/
def word (b : Bytes N) (pos : ℕ) : UInt32 := (ofLE fun k => b.get (pos + k)).toUInt32

def setWord (b : Bytes N) (pos : ℕ) (x : UInt32) : Bytes N := b.copyIn pos (leBytes x.toInt32)

theorem word_setWord (fits : pos + 4 ≤ N) (x : UInt32) : (b.setWord pos x).word pos = x := by
  have value : ofLE (fun k => (b.setWord pos x).get (pos + k)) = x.toInt32 := by
    rw [← ofLE_leBytes x.toInt32]
    apply ofLE_congr
    intro k below
    rw [setWord, get_copyIn (by simpa using fits), if_pos (by simp; omega),
      Nat.add_sub_cancel_left]
    rfl
  rw [word, value]
  rfl

@[simp] theorem get_zero (k : ℕ) : get (fun _ => 0 : Bytes N) k = 0 := by
  unfold get
  split_ifs <;> rfl

@[simp] theorem word_zero (pos : ℕ) : word (fun _ => 0 : Bytes N) pos = 0 := by
  simp only [word, get_zero]
  rfl

/-- A word of which no byte is written is kept. -/
theorem word_copyIn_of_disjoint {data : List UInt8} {pos' : ℕ} (fits : pos + data.length ≤ N)
    (apart : pos' + 4 ≤ pos ∨ pos + data.length ≤ pos') :
    (b.copyIn pos data).word pos' = b.word pos' := by
  have bytes : ofLE (fun k => (b.copyIn pos data).get (pos' + k)) =
      ofLE fun k => b.get (pos' + k) := by
    apply ofLE_congr
    intro k below
    rw [get_copyIn fits, if_neg (by omega)]
  rw [word, word, bytes]

theorem word_setWord_of_disjoint {pos' : ℕ} (fits : pos + 4 ≤ N) (x : UInt32)
    (apart : pos' + 4 ≤ pos ∨ pos + 4 ≤ pos') : (b.setWord pos x).word pos' = b.word pos' :=
  word_copyIn_of_disjoint (by simpa using fits) (by simpa using apart)

/-- The `n` words from byte `pos` on. -/
def words (b : Bytes N) (pos n : ℕ) : List UInt32 :=
  (List.range n).map fun i => b.word (pos + 4 * i)

/-- The words `xs` stored one after the other from byte `pos` on. -/
def setWords (b : Bytes N) (pos : ℕ) : List UInt32 → Bytes N
  | [] => b
  | x :: xs => (b.setWord pos x).setWords (pos + 4) xs

theorem word_setWords_of_before {pos' : ℕ} {xs : List UInt32} (fits : pos + 4 * xs.length ≤ N)
    (before : pos' + 4 ≤ pos) : (b.setWords pos xs).word pos' = b.word pos' := by
  induction xs generalizing b pos with
  | nil => rfl
  | cons x xs ih =>
    rw [List.length_cons] at fits
    rw [setWords, ih (by omega) (by omega)]
    exact word_setWord_of_disjoint (by omega) x (.inl before)

theorem word_setWords_of_after {pos' : ℕ} {xs : List UInt32} (fits : pos + 4 * xs.length ≤ N)
    (after : pos + 4 * xs.length ≤ pos') : (b.setWords pos xs).word pos' = b.word pos' := by
  induction xs generalizing b pos with
  | nil => rfl
  | cons x xs ih =>
    rw [List.length_cons] at fits after
    rw [setWords, ih (by omega) (by omega)]
    exact word_setWord_of_disjoint (by omega) x (.inr (by omega))

theorem word_setWords {xs : List UInt32} (fits : pos + 4 * xs.length ≤ N) {i : ℕ}
    (below : i < xs.length) : (b.setWords pos xs).word (pos + 4 * i) = xs[i] := by
  induction xs generalizing b pos i with
  | nil => simp at below
  | cons x xs ih =>
    rw [List.length_cons] at fits below
    cases i with
    | zero =>
      rw [setWords, word_setWords_of_before (by omega) (by omega)]
      exact word_setWord (by omega) x
    | succ i =>
      rw [show pos + 4 * (i + 1) = pos + 4 + 4 * i by omega, setWords, ih (by omega) (by omega)]
      rfl

/-- Stored words are read back. -/
theorem words_setWords {xs : List UInt32} (fits : pos + 4 * xs.length ≤ N) :
    (b.setWords pos xs).words pos xs.length = xs := by
  apply List.ext_getElem (by simp [words])
  intro i here there
  simp only [words, List.getElem_map, List.getElem_range]
  exact word_setWords fits there

end Bytes

end SsuOs
