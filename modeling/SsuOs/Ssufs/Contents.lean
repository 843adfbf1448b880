import SsuOs.Ssufs.Ownership

/-!
# The contents of files

The bytes of a file as positions in its blocks, what a completed write does to them for every
offset, and what a read delivers. A file is compact if its blocks are in its first slots, as many
as its size needs; writes within the file or at its end keep it so.
-/

namespace SsuOs.Ssufs

open ByteFile

/-- Byte `p` of the file with inode `i`. -/
def Store.fileByte (v : Store) (i : Fin 8) (p : ℕ) : Option Byte :=
  if inside : p < 256 then
    ((v.inode i).slot ⟨p / 64, by omega⟩).map fun b => v.block b ⟨p % 64, by omega⟩
  else none

/-- The blocks of every file are in its first slots, as many as its size needs. -/
def Compact (v : Store) : Prop :=
  ∀ i, v.inodeFlag i = inodeInUse →
    0 ≤ (v.inode i).fileSize.toInt ∧ (v.inode i).fileSize.toInt ≤ 256 ∧
      ∀ j : Fin 4, (v.inode i).directBlocks j ≠ -1 ↔ 64 * (j : ℤ) < (v.inode i).fileSize.toInt

section FileByte

variable {v v' : Store} {i : Fin 8} {j : Fin 4} {b : Fin 30}

theorem fileByte_eq (p : Fin 64) :
    v.fileByte i (64 * j + p) = ((v.inode i).slot j).map fun b => v.block b p := by
  have slot : (64 * j.val + p.val) / 64 = j.val := by omega
  have rest : (64 * j.val + p.val) % 64 = p.val := by omega
  rw [Store.fileByte, dif_pos (by omega)]
  simp only [slot, rest]

theorem fileByte_held (held : (v.inode i).slot j = some b) (p : Fin 64) :
    v.fileByte i (64 * j + p) = some (v.block b p) := by
  rw [fileByte_eq, held, Option.map_some]

/-- A position within the slots of a file, as slot and position in the block. -/
theorem position (p : ℕ) (inside : p < 256) : ∃ (j : Fin 4) (k : Fin 64), p = 64 * j + k :=
  ⟨⟨p / 64, by omega⟩, ⟨p % 64, by omega⟩, (Nat.div_add_mod p 64).symm⟩

/-- A file keeps a byte when its slot and the block behind it keep theirs. -/
theorem fileByte_congr (slot : (v'.inode i).slot j = (v.inode i).slot j)
    (block : ∀ b, (v.inode i).slot j = some b → v'.block b = v.block b) (p : Fin 64) :
    v'.fileByte i (64 * j + p) = v.fileByte i (64 * j + p) := by
  rw [fileByte_eq, fileByte_eq, slot]
  cases held : (v.inode i).slot j with
  | none => rfl
  | some b => rw [Option.map_some, Option.map_some, block b held]

end FileByte

/-- The missing slots of an inode with blocks in its first `k` slots. -/
theorem Inode.missing_eq {inode : Inode} {k lo hi : ℕ}
    (held : ∀ j : Fin 4, inode.directBlocks j ≠ -1 ↔ j.val < k) (early : lo ≤ k) (bound : hi ≤ 4) :
    inode.missing lo hi = hi - k := by
  induction hi with
  | zero => rw [missing_zero, Nat.zero_sub]
  | succ hi ih =>
    have previous := ih (by omega)
    let j : Fin 4 := ⟨hi, by omega⟩
    by_cases inside : hi < k
    · have step := missing_succ_held (.inl ((held j).2 inside) :
        inode.directBlocks j ≠ -1 ∨ j.val < lo)
      change inode.missing lo (hi + 1) = inode.missing lo hi at step
      omega
    · have empty : inode.directBlocks j = -1 := not_not.1 fun block => inside ((held j).1 block)
      have step := missing_succ_empty (show lo ≤ j from early.trans (not_lt.1 inside)) empty
      change inode.missing lo (hi + 1) = inode.missing lo hi + 1 at step
      omega

/-! ## Writing -/

namespace Request

variable {v v' : Store} {q : Request v} {t : Block} {tmp : Inode} {b : Fin 30} {i : Fin 8}
  {j k : Fin 4}

/-- A write at the end of the file. -/
theorem append (q : Request v)
    (same : (v.fileHandles q.fileHandle).offset = (v.inode q.i).fileSize) : q.o = q.f := by
  have equal := congrArg Int32.toInt same
  rw [q.offset, q.size] at equal
  exact_mod_cast equal

/-- A block of a file stands in the plan of a write only as a block of the file written to. -/
theorem Plan.holder_eq {a : ℕ} (plan : q.Plan a tmp) (owned : Owned v)
    (inUse : v.inodeFlag q.i = inodeInUse) (holder : Holder v b i k) (held : tmp.slot j = some b) :
    i = q.i ∧ k = j := by
  by_cases empty : q.inode.directBlocks j = -1
  · have free := (plan.fresh_of_slot empty held).2
    exact absurd ((owned.used holder).symm.trans free) dataBlockUsed_ne_free
  · exact owned.unique holder ⟨inUse, plan.slot_old empty held⟩

namespace Completed

/-- Other files keep their blocks. -/
theorem block_of_holder (complete : q.Completed t tmp v') (owned : Owned v)
    (inUse : v.inodeFlag q.i = inodeInUse) (other : i ≠ q.i) (holder : Holder v b i k) :
    v'.block b = v.block b :=
  complete.filled.other b fun _ _ held =>
    other (complete.plan.holder_eq owned inUse holder held).1

/-- The slots that the write does not touch keep their blocks. -/
theorem fileByte_untouched (complete : q.Completed t tmp v') (untouched : ¬ q.Touched q.past j)
    (p : Fin 64) : v'.fileByte q.i (64 * j + p) = v.fileByte q.i (64 * j + p) := by
  have same := complete.plan.slot_untouched untouched
  refine fileByte_congr (by rw [complete.inode_self]; exact same) (fun b held => ?_) p
  refine complete.filled.other b fun j' touched held' => untouched ?_
  obtain rfl := complete.plan.distinct j j' b (same.trans held) held'
  exact touched

theorem fileByte_touched (complete : q.Completed t tmp v') (touched : q.Touched q.past j)
    (p : Fin 64) : ∃ b, tmp.slot j = some b ∧
      v'.fileByte q.i (64 * j + p) = some (overlay q.buf q.o q.n j (q.base t j b) p) := by
  obtain ⟨b, held⟩ := complete.plan.held touched
  refine ⟨b, held, ?_⟩
  rw [fileByte_held (by rw [complete.inode_self]; exact held),
    complete.filled.content j b touched held]

/-- The data is in the file. -/
theorem written (complete : q.Completed t tmp v') {p : ℕ} (after : q.o ≤ p)
    (before : p < q.o + q.n) : v'.fileByte q.i p = some (q.buf (p - q.o)) := by
  have fits := q.fits
  have within := q.within
  obtain ⟨j, k, rfl⟩ := position p (by omega)
  have touched : q.Touched q.past j := by
    rw [Touched, first, past]
    omega
  obtain ⟨b, -, byte⟩ := complete.fileByte_touched touched k
  rw [byte, overlay, if_pos ⟨after, before⟩]

/-- The bytes outside the data are as they were in untouched slots, and in the slot that the write
starts inside. -/
theorem fileByte_outside (complete : q.Completed t tmp v')
    (held : ∀ j, q.inode.directBlocks j ≠ -1 ↔ 64 * j.val < q.f) {p : Fin 64}
    (kept : 64 * j < q.o ∨ ¬ q.Touched q.past j)
    (outside : ¬ (q.o ≤ 64 * j.val + p ∧ 64 * j.val + p < q.o + q.n)) :
    v'.fileByte q.i (64 * j + p) = v.fileByte q.i (64 * j + p) := by
  by_cases touched : q.Touched q.past j
  · have inside := kept.resolve_right (not_not.2 touched)
    obtain ⟨b, new, byte⟩ := complete.fileByte_touched touched p
    have old := complete.plan.slot_old ((held j).2 (lt_of_lt_of_le inside q.within)) new
    rw [byte, overlay, if_neg outside, base, if_pos inside, fileByte_held old]
  · exact complete.fileByte_untouched touched p

/-- The bytes before the data are as they were. -/
theorem before (complete : q.Completed t tmp v')
    (held : ∀ j, q.inode.directBlocks j ≠ -1 ↔ 64 * j.val < q.f) {p : ℕ} (early : p < q.o) :
    v'.fileByte q.i p = v.fileByte q.i p := by
  have fits := q.fits
  have within := q.within
  obtain ⟨j, k, rfl⟩ := position p (by omega)
  exact complete.fileByte_outside held (.inl (by omega)) (by omega)

end Completed

end Request

/-! ## Reading -/

/-- The `k` bytes of `content` from position `o`. -/
def slice (content : ℕ → Byte) (o k : ℕ) : List Byte := (List.range k).map fun p => content (o + p)

@[simp] theorem length_slice (content : ℕ → Byte) (o k : ℕ) : (slice content o k).length = k := by
  rw [slice, List.length_map, List.length_range]

theorem slice_succ (content : ℕ → Byte) (o k : ℕ) :
    slice content o (k + 1) = slice content o k ++ [content (o + k)] := by
  rw [slice, List.range_succ, List.map_append]
  rfl

/-- The byte loop in block `j` of the file, with `k` bytes left in the block. -/
theorem readBytes_slice {content : ℕ → Byte} {block : Block} {j o n k c : ℕ}
    (bytes : ∀ p : Fin 64, block p = content (64 * j + p)) (short : k ≤ 64)
    (here : o + c + k = 64 * (j + 1)) (more : c < n) :
    readBytes block n k (slice content o c) =
      (slice content o (min n (c + k)), decide (n ≤ c + k)) := by
  induction k generalizing c with
  | zero => simp [readBytes, more.le, more]
  | succ k ih =>
    have grows : slice content o c ++ [block ⟨63 - k, by omega⟩] = slice content o (c + 1) := by
      have position : 64 * j + (63 - k) = o + c := by omega
      rw [slice_succ, bytes]
      exact congrArg (fun p => slice content o c ++ [content p]) position
    rw [readBytes, grows, length_slice]
    by_cases last : c + 1 = n
    · rw [if_pos (by exact_mod_cast last), ← last, decide_eq_true (by omega), min_eq_left (by omega)]
    · rw [if_neg (by exact_mod_cast last), ih (by omega) (by omega) (by omega)]
      have total : c + 1 + k = c + (k + 1) := by omega
      rw [total]

/-- A byte loop that does not reach the end of the request. -/
theorem readBytes_short (block : Block) (buf : List Byte) {n : ℤ} {k : ℕ}
    (short : (buf.length + k : ℕ) < n) :
    ∃ stored, readBytes block n k buf = (stored, false) ∧ stored.length = buf.length + k := by
  induction k generalizing buf with
  | zero => exact ⟨buf, rfl, rfl⟩
  | succ k ih =>
    have length : (buf ++ [block ⟨63 - k, by omega⟩]).length = buf.length + 1 := by simp
    obtain ⟨stored, stops, total⟩ := ih (buf ++ [block ⟨63 - k, by omega⟩]) (by omega)
    refine ⟨stored, ?_, by omega⟩
    rw [readBytes, if_neg (by omega), stops]

section ReadLoop

variable {v : Store} {h : Fin 20} {tmp : Inode} {nbytes : Int32}

/-- The rest of a read of `n` bytes at offset `o`, when the loop arrives at slot `a` and the slots
that the read touches hold the bytes `content`. -/
theorem readLoop_slice {o n : ℕ} {content : ℕ → Byte} (count : nbytes.toInt = n) (positive : 0 < n)
    (fits : o + n ≤ 256)
    (held : ∀ j : Fin 4, 64 * j.val < o + n → ∃ b, tmp.slot j = some b ∧ v.Readable b ∧
      ∀ p : Fin 64, v.block b p = content (64 * j + p))
    {a : ℕ} {l : List (Fin 4)} (suffix : (List.finRange 4).drop a = l) (more : 64 * a < o + n) :
    readLoop h tmp nbytes l (o - 64 * a : ℕ) (slice content o (64 * a - o)) v =
      (do let _ ← ssufsLseek h nbytes
          pure (0, slice content o n) : Ssu Store (Int32 × List Byte)) v := by
  induction l generalizing a with
  | nil =>
    have past : 4 ≤ a := by simpa using suffix
    omega
  | cons j rest ih =>
    obtain ⟨rfl, suffix⟩ := of_drop_finRange suffix
    rw [readLoop]
    by_cases early : 64 * (j.val + 1) ≤ o
    · have skips : (if ((o - 64 * j.val : ℕ) : ℤ) ≠ 0 then ((o - 64 * j.val : ℕ) : ℤ) - 64 else 0) =
          (o - 64 * (j.val + 1) : ℕ) := by
        rw [if_pos (by omega)]
        omega
      have start : 64 * j.val - o = 64 * (j.val + 1) - o := by omega
      rw [if_neg (by omega), skips, start]
      exact ih suffix (by omega)
    · obtain ⟨b, slot, readable, bytes⟩ := held j more
      rw [if_pos ⟨by omega, by omega, Inode.ne_neg_one_of_slot slot⟩,
        Prog.bind_ok (readDataBlock_ok slot readable), count, Int.toNat_natCast,
        readBytes_slice bytes (by omega) (by omega) (by omega)]
      dsimp only
      by_cases last : o + n ≤ 64 * (j.val + 1)
      · rw [if_pos (decide_eq_true (by omega)), min_eq_left (by omega)]
      · have stored : min n (64 * j.val - o + (64 - (o - 64 * j.val))) = 64 * (j.val + 1) - o := by
          omega
        have offset : (0 : ℤ) = (o - 64 * (j.val + 1) : ℕ) := by omega
        rw [if_neg (by rw [decide_eq_true_eq]; omega), stored, offset]
        exact ih suffix (by omega)

/-- A read of more bytes than there are blocks for fails and leaves the state as it was. -/
theorem readLoop_short (valid : tmp.Valid)
    (readable : ∀ j b, tmp.slot j = some b → v.Readable b) {l : List (Fin 4)} (fOffset : ℤ)
    {buf : List Byte} (short : (buf.length + 64 * l.length : ℕ) < nbytes.toInt) :
    ∃ stored, readLoop h tmp nbytes l fOffset buf v = .ok ((-1, stored), v) := by
  induction l generalizing fOffset buf with
  | nil => exact ⟨buf, rfl⟩
  | cons j rest ih =>
    rw [List.length_cons] at short
    rw [readLoop]
    by_cases touches : 0 ≤ fOffset ∧ fOffset < 64 ∧ tmp.directBlocks j ≠ -1
    · obtain ⟨b, held⟩ := valid j touches.2.2
      obtain ⟨stored, stops, length⟩ := readBytes_short (v.block b) buf
        (n := nbytes.toInt) (k := 64 - fOffset.toNat) (by omega)
      rw [if_pos touches, Prog.bind_ok (readDataBlock_ok held (readable j b held)), stops]
      exact ih 0 (by omega)
    · rw [if_neg touches]
      exact ih _ (by omega)

end ReadLoop

end SsuOs.Ssufs
