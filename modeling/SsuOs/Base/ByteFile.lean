import Mathlib.Data.Int.Notation
import Mathlib.Data.List.GetD
import Mathlib.Data.List.TakeDrop
import Mathlib.Tactic.Common

/-!
# Byte files

A host file as the list of its bytes, with reads and writes at a position: a read that meets the
end of the file is short, a write past the end fills the gap with zeros. Also the little-endian
layout of a 32-bit `int`.

Memory is looked at through its reader `mem : ℕ → UInt8`, so that the layout of a record can be
said once for a buffer and for a place in a file.
-/

namespace SsuOs.ByteFile

/-- The byte at position `k`, zero past the end. -/
def byteAt (f : List UInt8) (k : ℕ) : UInt8 := f.getD k 0

/-- What `read` delivers at position `pos`: `n` bytes, or fewer at the end of the file. -/
def readAt (f : List UInt8) (pos n : ℕ) : List UInt8 := (f.drop pos).take n

/-- The file after `write` has put `data` at position `pos`. -/
def writeAt (f : List UInt8) (pos : ℕ) (data : List UInt8) : List UInt8 :=
  f.takeD pos 0 ++ data ++ f.drop (pos + data.length)

/-! ## Reads and writes -/

@[simp] theorem length_writeAt (f : List UInt8) (pos : ℕ) (data : List UInt8) :
    (writeAt f pos data).length = max f.length (pos + data.length) := by
  simp only [writeAt, List.length_append, List.takeD_length, List.length_drop]
  omega

theorem byteAt_takeD (f : List UInt8) (pos k : ℕ) (below : k < pos) :
    byteAt (f.takeD pos 0) k = byteAt f k := by
  induction pos generalizing f k with
  | zero => omega
  | succ pos ih =>
    cases f with
    | nil =>
      rw [List.takeD_nil, byteAt, List.getD_replicate _ below]
      rfl
    | cons b f =>
      cases k with
      | zero => rfl
      | succ k => simpa [byteAt, List.takeD] using ih f k (by omega)

/-- A write changes the bytes of its range and no others. -/
theorem byteAt_writeAt (f : List UInt8) (pos : ℕ) (data : List UInt8) (k : ℕ) :
    byteAt (writeAt f pos data) k =
      if pos ≤ k ∧ k < pos + data.length then byteAt data (k - pos) else byteAt f k := by
  by_cases before : k < pos
  · rw [if_neg (by omega), ← byteAt_takeD f pos k before]
    simp only [writeAt, byteAt, List.append_assoc]
    rw [List.getD_append _ _ _ _ (by simpa using before)]
  · by_cases inside : k < pos + data.length
    · rw [if_pos ⟨by omega, inside⟩]
      simp only [writeAt, byteAt, List.append_assoc]
      rw [List.getD_append_right _ _ _ _ (by simp; omega), List.takeD_length,
        List.getD_append _ _ _ _ (by omega)]
    · rw [if_neg (by omega)]
      simp only [writeAt, byteAt]
      rw [List.getD_append_right _ _ _ _ (by simp; omega)]
      simp only [List.length_append, List.takeD_length, List.getD_eq_getElem?_getD,
        List.getElem?_drop]
      congr 2
      omega

theorem length_readAt (f : List UInt8) (pos n : ℕ) (within : pos + n ≤ f.length) :
    (readAt f pos n).length = n := by
  simp only [readAt, List.length_take, List.length_drop]
  omega

theorem length_readAt_short (f : List UInt8) (pos n : ℕ) (positive : 0 < n)
    (short : f.length < pos + n) : (readAt f pos n).length ≠ n := by
  simp only [readAt, List.length_take, List.length_drop]
  omega

theorem byteAt_readAt (f : List UInt8) (pos n k : ℕ) (below : k < n) :
    byteAt (readAt f pos n) k = byteAt f (pos + k) := by
  simp only [byteAt, readAt, List.getD_eq_getElem?_getD, List.getElem?_take, below, if_true,
    List.getElem?_drop]

@[simp] theorem byteAt_ofFn {n : ℕ} (g : Fin n → UInt8) (k : Fin n) :
    byteAt (List.ofFn g) k = g k := by
  simp [byteAt]

theorem byteAt_append_left {l l' : List UInt8} {k : ℕ} (below : k < l.length) :
    byteAt (l ++ l') k = byteAt l k :=
  List.getD_append _ _ _ _ below

theorem byteAt_append_right {l l' : List UInt8} {k : ℕ} (n : ℕ) (long : l.length = n) :
    byteAt (l ++ l') (n + k) = byteAt l' k := by
  rw [byteAt, List.getD_append_right _ _ _ _ (by omega), long, Nat.add_sub_cancel_left, byteAt]

/-! ## Little-endian integers -/

/-- The four bytes of an `int`, lowest first. -/
def leBytes (x : Int32) : List UInt8 :=
  [UInt8.ofNat x.toUInt32.toNat, UInt8.ofNat (x.toUInt32.toNat / 256),
    UInt8.ofNat (x.toUInt32.toNat / 65536), UInt8.ofNat (x.toUInt32.toNat / 16777216)]

/-- The `int` whose four bytes stand at the start of `mem`. -/
def ofLE (mem : ℕ → UInt8) : Int32 :=
  (UInt32.ofNat ((mem 0).toNat + 256 * (mem 1).toNat + 65536 * (mem 2).toNat +
    16777216 * (mem 3).toNat)).toInt32

theorem ofLE_leBytes (x : Int32) : ofLE (byteAt (leBytes x)) = x := by
  have bounded : x.toUInt32.toNat < 4294967296 := x.toUInt32.toNat_lt
  have digits : x.toUInt32.toNat % 256 + 256 * (x.toUInt32.toNat / 256 % 256) +
      65536 * (x.toUInt32.toNat / 65536 % 256) +
      16777216 * (x.toUInt32.toNat / 16777216 % 256) = x.toUInt32.toNat := by omega
  simp only [ofLE, byteAt, leBytes, List.getD_cons_zero, List.getD_cons_succ, UInt8.toNat_ofNat']
  rw [digits, UInt32.ofNat_toNat]
  rfl

@[simp] theorem length_leBytes (x : Int32) : (leBytes x).length = 4 := rfl

theorem ofLE_congr {mem mem' : ℕ → UInt8} (same : ∀ k < 4, mem k = mem' k) :
    ofLE mem = ofLE mem' := by
  simp only [ofLE, same 0 (by omega), same 1 (by omega), same 2 (by omega), same 3 (by omega)]

/-- An `int` that stands after `n` bytes of a record. -/
theorem ofLE_field (l l' : List UInt8) (x : Int32) (n : ℕ) (long : l.length = n) :
    ofLE (fun k => byteAt (l ++ (leBytes x ++ l')) (n + k)) = x := by
  rw [← ofLE_leBytes x]
  apply ofLE_congr
  intro k below
  rw [byteAt_append_right n long, byteAt_append_left (by simpa using below), ofLE_leBytes]

theorem toNat_toUInt32 {x : Int32} (nonneg : 0 ≤ x.toInt) : x.toUInt32.toNat = x.toInt.toNat :=
  Int32.toNat_toUInt32_of_le (Int32.le_iff_toInt_le.2 nonneg)

/-- The lowest byte of a number that is not negative. -/
theorem byteAt_leBytes_zero {x : Int32} (nonneg : 0 ≤ x.toInt) :
    byteAt (leBytes x) 0 = 0 ↔ x.toInt % 256 = 0 := by
  change UInt8.ofNat x.toUInt32.toNat = 0 ↔ _
  rw [toNat_toUInt32 nonneg, ← UInt8.toNat_inj, UInt8.toNat_ofNat']
  change x.toInt.toNat % 256 = 0 ↔ _
  omega

/-- A number whose lowest byte has been overwritten with zero. -/
theorem toInt_ofLE_clear {x : Int32} {mem : ℕ → UInt8} (nonneg : 0 ≤ x.toInt) (zero : mem 0 = 0)
    (same : ∀ k < 3, mem (k + 1) = byteAt (leBytes x) (k + 1)) :
    (ofLE mem).toInt = x.toInt - x.toInt % 256 := by
  have bound := x.toInt_lt
  have digits : 256 * (x.toInt.toNat / 256 % 256) + 65536 * (x.toInt.toNat / 65536 % 256) +
      16777216 * (x.toInt.toNat / 16777216 % 256) = x.toInt.toNat - x.toInt.toNat % 256 := by
    omega
  rw [ofLE, zero, same 0 (by decide), same 1 (by decide), same 2 (by decide)]
  simp only [byteAt, leBytes, List.getD_cons_zero, List.getD_cons_succ, UInt8.toNat_ofNat',
    toNat_toUInt32 nonneg, UInt8.toNat_zero, Nat.zero_add]
  rw [digits, UInt32.toInt32_ofNat', Int32.toInt_ofNat_of_lt (by omega)]
  omega

theorem leBytes_ofLE (mem : ℕ → UInt8) : leBytes (ofLE mem) = [mem 0, mem 1, mem 2, mem 3] := by
  have b0 := (mem 0).toNat_lt
  have b1 := (mem 1).toNat_lt
  have b2 := (mem 2).toNat_lt
  have b3 := (mem 3).toNat_lt
  have value : (ofLE mem).toUInt32.toNat = (mem 0).toNat + 256 * (mem 1).toNat +
      65536 * (mem 2).toNat + 16777216 * (mem 3).toNat := by
    change (UInt32.ofNat _).toNat = _
    rw [UInt32.toNat_ofNat_of_lt']
    change _ < 4294967296
    omega
  have digit (k : ℕ) (n : ℕ) (same : n % 256 = (mem k).toNat) : UInt8.ofNat n = mem k := by
    rw [← UInt8.toNat_inj, UInt8.toNat_ofNat']
    exact same
  rw [leBytes, value, digit 0 _ (by omega), digit 1 _ (by omega), digit 2 _ (by omega),
    digit 3 _ (by omega)]

/-- A number whose lowest byte has been overwritten with zero is 0 if it had no other byte. -/
theorem ofLE_clear_eq_zero {x : Int32} {mem : ℕ → UInt8} (zero : mem 0 = 0)
    (same : ∀ k < 3, mem (k + 1) = byteAt (leBytes x) (k + 1)) :
    ofLE mem = 0 ↔ 0 ≤ x.toInt ∧ x.toInt < 256 := by
  have value : x.toInt = if 2 * x.toUInt32.toNat < 2 ^ 32 then (x.toUInt32.toNat : ℤ) else
      (x.toUInt32.toNat : ℤ) - (2 ^ 32 : ℕ) := BitVec.toInt_eq_toNat_cond x.toBitVec
  have bounded : x.toUInt32.toNat < 4294967296 := x.toUInt32.toNat_lt
  have digits : ofLE mem = 0 ↔ mem 1 = 0 ∧ mem 2 = 0 ∧ mem 3 = 0 := by
    constructor
    · intro none
      have bytes := leBytes_ofLE mem
      rw [none, show leBytes 0 = [0, 0, 0, 0] by decide] at bytes
      simpa [eq_comm, zero] using bytes
    · rintro ⟨first, second, third⟩
      rw [ofLE, zero, first, second, third]
      rfl
  rw [digits, same 0 (by decide), same 1 (by decide), same 2 (by decide)]
  simp only [byteAt, leBytes, List.getD_cons_zero, List.getD_cons_succ, ← UInt8.toNat_inj,
    UInt8.toNat_ofNat', UInt8.toNat_zero]
  split_ifs at value <;> omega
end SsuOs.ByteFile
