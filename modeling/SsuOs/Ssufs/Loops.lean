import SsuOs.Ssufs.Ownership

/-!
# The block loops from an offset

`ssufs_read` and `ssufs_write` pass the slots before the offset and start their byte loops in the
slot that the offset lies in. This module follows the two loops from any offset, whatever inode the
handle leads to; of a write it also counts the bytes that it takes from the buffer of the caller.
-/

namespace SsuOs.Ssufs

open Prog (Ensures)

/-! ## Slots -/

theorem drop_finRange (j : Fin 4) :
    (List.finRange 4).drop j = j :: (List.finRange 4).drop (j + 1) := by
  revert j
  decide

/-- The slot that an offset lies in. -/
theorem exists_slot {o : ℤ} (low : 0 ≤ o) (high : o < 256) :
    ∃ j : Fin 4, 64 * (j : ℤ) ≤ o ∧ o < 64 * (j + 1) := by
  refine ⟨⟨(o / 64).toNat, by omega⟩, ?_, ?_⟩ <;> dsimp only <;> omega

/-! ## Reading -/

section Reading

variable {s : Machine} {h : Fin 20} {tmp : Inode} {nbytes : Int32} {buf : List Byte}

/-- The block loop passes the slots before the offset. -/
theorem readLoop_drop (k : ℕ) {l : List (Fin 4)} (short : k ≤ l.length) {fOffset : ℤ}
    (far : 64 * (k : ℤ) ≤ fOffset) (s : Machine) :
    readLoop h tmp nbytes l fOffset buf s =
      readLoop h tmp nbytes (l.drop k) (fOffset - 64 * k) buf s := by
  induction k generalizing l fOffset with
  | zero => simp
  | succ k ih =>
    cases l with
    | nil => simp at short
    | cons j rest =>
      rw [List.length_cons] at short
      push_cast at far
      rw [readLoop, if_neg (by omega), if_pos (by omega), ih (by omega) (by omega), List.drop_succ_cons]
      congr 1
      push_cast
      omega

/-- An offset outside of all slots. -/
theorem readLoop_outside {l : List (Fin 4)} {fOffset : ℤ}
    (outside : fOffset < 0 ∨ 64 * (l.length : ℤ) ≤ fOffset) (s : Machine) :
    readLoop h tmp nbytes l fOffset buf s = .ok ((-1, buf), s) := by
  induction l generalizing fOffset with
  | nil => rfl
  | cons j rest ih =>
    rw [List.length_cons] at outside
    push_cast at outside
    rw [readLoop, if_neg (by omega), if_pos (by omega)]
    exact ih (by omega)

/-- A read that starts in an empty slot goes on behind it, if it starts at the first byte. -/
theorem readLoop_empty {j : Fin 4} {o : ℤ} (low : 64 * (j : ℤ) ≤ o)
    (high : o < 64 * (j + 1)) (empty : tmp.directBlocks j = -1) (s : Machine) :
    readLoop h tmp nbytes (List.finRange 4) o [] s =
      if o = 64 * j then readLoop h tmp nbytes ((List.finRange 4).drop (j + 1)) 0 [] s
      else .ok ((-1, []), s) := by
  rw [readLoop_drop j (by simp) low, drop_finRange, readLoop, if_neg (by simp [empty])]
  split_ifs with inside start start
  · omega
  · exact readLoop_outside (by omega) s
  · rfl
  · omega

/-- A read through a handle that leads to the inode `tmp`. -/
theorem ssufsRead_of_inode {pos : ℕ}
    (reads : ssufsReadInode (s.fileHandles h).inodeNumber s = .ok (tmp, { s with pos := pos }))
    (nbytes : Int32) :
    ssufsRead h nbytes s =
      if tmp.fileSize < (s.fileHandles h).offset + nbytes then .ok ((-1, []), { s with pos := pos })
      else
        readLoop h tmp nbytes (List.finRange 4) (s.fileHandles h).offset.toInt []
          { s with pos := pos } := by
  rw [ssufsRead, Prog.bind_ok (show Disk.fileHandleArray s = _ from rfl),
    Prog.bind_ok (show Disk.readInode _ s = _ from reads), Prog.ite_apply]
  rfl

end Reading

/-! ## The bytes that a write takes -/

section Count

variable {σ : Type} [Disk σ]

/-- `writeSlot`, with the value of `curr` at the end. -/
def countSlot (fileHandle : Fin 20) (fInode : Int32) (buf : ℕ → Byte) (nbytes : Int32) (i : Fin 4)
    (next : WriteLocals → Ssu σ (Int32 × ℕ)) (locals : WriteLocals) : Ssu σ (Int32 × ℕ) := do
  let locals ← loadSlot i locals
  let (tmpBuf, curr, complete) :=
    writeBytes buf nbytes.toInt (64 - locals.fOffset.toNat) locals.tmpBuf locals.curr
  Disk.writeDataBlock (locals.tmp.directBlocks i) tmpBuf
  if complete then
    Disk.writeInode fInode { locals.tmp with fileSize := locals.tmp.fileSize + nbytes }
    let _ ← ssufsLseek fileHandle nbytes
    pure (0, curr)
  else
    next { locals with
      fOffset := 0, curr := curr, isUsed := Function.update locals.isUsed i 1,
      tmpBuf := fun _ => 0 }

/-- `writeLoop`, with the value of `curr` at the end. -/
def countLoop (fileHandle : Fin 20) (fInode : Int32) (buf : ℕ → Byte) (nbytes : Int32) :
    List (Fin 4) → WriteLocals → Ssu σ (Int32 × ℕ)
  | [], locals => pure (-1, locals.curr)
  | i :: rest, locals =>
    if 0 ≤ locals.fOffset ∧ locals.fOffset < 64 then
      if locals.tmp.directBlocks i = -1 then do
        let block ← ssufsAllocDataBlock
        let allocated := { locals with
          tmp := { locals.tmp with
            directBlocks := Function.update locals.tmp.directBlocks i block } }
        if block = -1 then
          (List.finRange 4).foldlM (rollBackSlot allocated) ()
          pure (-1, locals.curr)
        else
          countSlot fileHandle fInode buf nbytes i
            (countLoop fileHandle fInode buf nbytes rest) allocated
      else
        countSlot fileHandle fInode buf nbytes i
          (countLoop fileHandle fInode buf nbytes rest) locals
    else
      countLoop fileHandle fInode buf nbytes rest
        { locals with fOffset := if locals.fOffset ≠ 0 then locals.fOffset - 64 else 0 }

/-- `ssufs_write` with the number of bytes that it has taken from the caller's buffer. -/
def ssufsWriteCount (fileHandle : Fin 20) (buf : ℕ → Byte) (nbytes : Int32) :
    Ssu σ (Int32 × ℕ) := do
  let fileHandles ← Disk.fileHandleArray
  let handle := fileHandles fileHandle
  let tmpBuf ← Disk.uninit 64
  let rollback ← Disk.uninit 64
  let rollbackIndex ← Disk.uninit 4
  let tmp ← Disk.readInode handle.inodeNumber
  if (256 : Int32) < tmp.fileSize + nbytes then pure (-1, 0)
  else
    countLoop fileHandle handle.inodeNumber buf nbytes (List.finRange 4)
      { fOffset := handle.offset.toInt
        curr := 0
        tmpBuf := fun p => tmpBuf p
        rollback := fun p => rollback p
        rollbackIndex := ByteFile.ofLE rollbackIndex
        isUsed := fun _ => -1
        tmp := tmp }

variable {h : Fin 20} {x : Int32} {buf : ℕ → Byte} {nbytes : Int32}

theorem fst_countSlot {i : Fin 4} {next : WriteLocals → Ssu σ (Int32 × ℕ)}
    {next' : WriteLocals → Ssu σ Int32} (same : ∀ locals, Prod.fst <$> next locals = next' locals)
    (locals : WriteLocals) :
    Prod.fst <$> countSlot h x buf nbytes i next locals =
      writeSlot h x buf nbytes i next' locals := by
  simp only [countSlot, writeSlot, map_bind, Prog.map_ite, map_pure, same]

theorem fst_countLoop (l : List (Fin 4)) (locals : WriteLocals) :
    Prod.fst <$> (countLoop h x buf nbytes l locals : Ssu σ (Int32 × ℕ)) =
      writeLoop h x buf nbytes l locals := by
  induction l generalizing locals with
  | nil => rfl
  | cons i rest ih =>
    simp only [countLoop, writeLoop, map_bind, Prog.map_ite, map_pure, fst_countSlot ih, ih]

/-- Counting does not change what the write does. -/
theorem fst_ssufsWriteCount (h : Fin 20) (buf : ℕ → Byte) (nbytes : Int32) :
    Prod.fst <$> (ssufsWriteCount h buf nbytes : Ssu σ (Int32 × ℕ)) = ssufsWrite h buf nbytes := by
  simp only [ssufsWriteCount, ssufsWrite, map_bind, Prog.map_ite, map_pure, fst_countLoop]

theorem ssufsWrite_count {h : Fin 20} {buf : ℕ → Byte} {nbytes r : Int32} {s t : σ}
    (writes : ssufsWrite h buf nbytes s = .ok (r, t)) :
    ∃ counted, ssufsWriteCount h buf nbytes s = .ok (counted, t) ∧ counted.1 = r := by
  rw [← fst_ssufsWriteCount] at writes
  exact Prog.map_eq_ok writes

/-! ## Slots that a write skips or fills -/

section Loop

variable {locals : WriteLocals}

theorem countLoop_drop (k : ℕ) {l : List (Fin 4)} (short : k ≤ l.length)
    (far : 64 * (k : ℤ) ≤ locals.fOffset) (s : σ) :
    countLoop h x buf nbytes l locals s =
      countLoop h x buf nbytes (l.drop k) { locals with fOffset := locals.fOffset - 64 * k } s := by
  induction k generalizing l locals with
  | zero => simp
  | succ k ih =>
    cases l with
    | nil => simp at short
    | cons j rest =>
      rw [List.length_cons] at short
      push_cast at far
      rw [countLoop, if_neg (by omega), if_pos (by omega), ih (by omega) (by dsimp only; omega),
        List.drop_succ_cons]
      congr 2
      push_cast
      omega

theorem countLoop_outside {l : List (Fin 4)}
    (outside : locals.fOffset < 0 ∨ 64 * (l.length : ℤ) ≤ locals.fOffset) (s : σ) :
    countLoop h x buf nbytes l locals s = .ok ((-1, locals.curr), s) := by
  induction l generalizing locals with
  | nil => rfl
  | cons j rest ih =>
    rw [List.length_cons] at outside
    push_cast at outside
    rw [countLoop, if_neg (by omega), if_pos (by omega)]
    exact ih (by dsimp only; omega)

/-- A rollback before any slot has been filled does nothing. -/
theorem rollBack_unused (unused : ∀ j, locals.isUsed j ≠ 1) (l : List (Fin 4)) (s : σ) :
    l.foldlM (rollBackSlot locals) () s = .ok ((), s) := by
  induction l with
  | nil => rfl
  | cons j l ih =>
    have skips : rollBackSlot locals () j s = .ok ((), s) := by
      rw [rollBackSlot, if_neg (unused j), Prog.pure_apply]
    rw [List.foldlM_cons, Prog.bind_ok skips, ih]

/-- A byte loop with room for a byte takes one. -/
theorem writeBytes_gt (buf : ℕ → Byte) (n : ℤ) (k : ℕ) (tmpBuf : Block) (curr : ℕ) :
    curr < (writeBytes buf n (k + 1) tmpBuf curr).2.1 := by
  induction k generalizing tmpBuf curr with
  | zero =>
    rw [writeBytes]
    split_ifs
    · exact Nat.lt_succ_self curr
    · exact Nat.lt_succ_self curr
  | succ k ih =>
    rw [writeBytes]
    split_ifs
    · exact Nat.lt_succ_self curr
    · exact (Nat.lt_succ_self curr).trans (ih _ _)

theorem loadSlot_keeps (i : Fin 4) (locals : WriteLocals) (s : σ) :
    Ensures (fun _ => True) (loadSlot i locals) s fun loaded _ =>
      loaded.fOffset = locals.fOffset ∧ loaded.curr = locals.curr := by
  rw [loadSlot]
  split_ifs
  · refine .bind (.of_forall (fun _ => trivial) fun _ _ => ?_)
    exact .bind (.of_forall (fun _ => trivial) fun _ _ => .pure ⟨rfl, rfl⟩)
  · exact .pure ⟨rfl, rfl⟩

theorem countSlot_gt {i : Fin 4} {next : WriteLocals → Ssu σ (Int32 × ℕ)}
    (rest : ∀ locals s, Ensures (fun _ => True) (next locals) s fun r _ => locals.curr ≤ r.2)
    (inside : 0 ≤ locals.fOffset ∧ locals.fOffset < 64) (s : σ) :
    Ensures (fun _ => True) (countSlot h x buf nbytes i next locals) s
      fun r _ => locals.curr < r.2 := by
  refine .bind ((loadSlot_keeps i locals s).imp ?_)
  rintro loaded s' ⟨fOffset, curr⟩
  obtain ⟨k, left⟩ : ∃ k, 64 - loaded.fOffset.toNat = k + 1 :=
    ⟨63 - loaded.fOffset.toNat, by omega⟩
  have more := writeBytes_gt buf nbytes.toInt k loaded.tmpBuf loaded.curr
  rw [← left] at more
  generalize writeBytes buf nbytes.toInt (64 - loaded.fOffset.toNat) loaded.tmpBuf
    loaded.curr = result at more
  obtain ⟨block, taken, done⟩ := result
  replace more : locals.curr < taken := curr.symm.trans_lt more
  refine .bind (.of_forall (fun _ => trivial) fun _ t => ?_)
  dsimp only
  split_ifs
  · refine .bind (.of_forall (fun _ => trivial) fun _ _ => ?_)
    exact .bind (.of_forall (fun _ => trivial) fun _ _ => .pure more)
  · exact (rest _ t).imp fun r _ least => more.trans_le least

/-- A write of one byte is complete in the first slot that it fills. -/
theorem countSlot_one {i : Fin 4} {next : WriteLocals → Ssu σ (Int32 × ℕ)}
    (inside : 0 ≤ locals.fOffset ∧ locals.fOffset < 64) (start : locals.curr = 0) (s : σ) :
    Ensures (fun _ => True) (countSlot h x buf 1 i next locals) s fun r _ => r.1 = 0 := by
  refine .bind ((loadSlot_keeps i locals s).imp ?_)
  rintro loaded s' ⟨fOffset, curr⟩
  obtain ⟨k, left⟩ : ∃ k, 64 - loaded.fOffset.toNat = k + 1 :=
    ⟨63 - loaded.fOffset.toNat, by omega⟩
  have complete : (writeBytes buf (1 : Int32).toInt (64 - loaded.fOffset.toNat) loaded.tmpBuf
      loaded.curr).2.2 = true := by
    rw [left, curr, start, writeBytes, if_pos (by decide)]
  generalize writeBytes buf (1 : Int32).toInt (64 - loaded.fOffset.toNat) loaded.tmpBuf
    loaded.curr = result at complete
  obtain ⟨block, taken, done⟩ := result
  obtain rfl : done = true := complete
  refine .bind (.of_forall (fun _ => trivial) fun _ _ => ?_)
  refine .bind (.of_forall (fun _ => trivial) fun _ _ => ?_)
  exact .bind (.of_forall (fun _ => trivial) fun _ _ => .pure rfl)

/-- The count never goes down. -/
theorem countLoop_ge (l : List (Fin 4)) (locals : WriteLocals) (s : σ) :
    Ensures (fun _ => True) (countLoop h x buf nbytes l locals) s fun r _ => locals.curr ≤ r.2 := by
  induction l generalizing locals s with
  | nil => exact .pure le_rfl
  | cons i rest ih =>
    rw [countLoop]
    split_ifs with inside empty
    · refine .bind (.of_forall (fun _ => trivial) fun block t => ?_)
      dsimp only
      split_ifs
      · exact .bind (.of_forall (fun _ => trivial) fun _ _ => .pure le_rfl)
      · exact (countSlot_gt ih (by exact inside) t).imp fun _ _ => le_of_lt
    · exact (countSlot_gt ih inside s).imp fun _ _ => le_of_lt
    · exact ih _ s
    · exact ih _ s

end Loop

end Count

section Machine

variable {s : Machine} {h : Fin 20}

/-- Of the marks that say that a block is free, none is left. -/
theorem ssufsAllocDataBlock_full (long : 64 ≤ s.disk.length)
    (full : ∀ b, s.store.flag b ≠ dataBlockFree) :
    ssufsAllocDataBlock s = .ok (-1, { s with pos := 64 }) := by
  have search : ((List.finRange 30).find? fun b =>
      s.store.superblock.datablockFreelist b = dataBlockFree) = none := by
    rw [List.find?_eq_none]
    intro b _
    rw [decide_eq_true_eq]
    exact full b
  rw [ssufsAllocDataBlock,
    Prog.bind_ok (show Disk.readSuperBlock s = _ from ssufsReadSuperBlock_apply long), search]
  rfl

/-- An allocation that finds a free mark returns its block. -/
theorem ssufsAllocDataBlock_free {b : Fin 30} (long : 64 ≤ s.disk.length)
    (free : s.store.flag b = dataBlockFree) :
    Prog.Ensures (fun _ => True) ssufsAllocDataBlock s fun block _ => block ≠ -1 := by
  have number (b : Fin 30) : ofIndex b ≠ -1 := by
    revert b
    decide
  rw [ssufsAllocDataBlock]
  refine .bind (.of_ok (show Disk.readSuperBlock s = _ from ssufsReadSuperBlock_apply long) ?_)
  split
  · exact .bind (.of_forall (fun _ => trivial) fun _ _ => .pure (number _))
  · rename_i search
    rw [List.find?_eq_none] at search
    exact absurd (decide_eq_true free) (search b (List.mem_finRange b))

section Slot

variable {x : Int32} {buf : ℕ → Byte} {nbytes : Int32} {j : Fin 4} {rest : List (Fin 4)}
  {locals : WriteLocals} (long : 64 ≤ s.disk.length)
  (inside : 0 ≤ locals.fOffset ∧ locals.fOffset < 64)

include long inside

/-- A write that needs a block for the first slot that it would fill, and gets none. -/
theorem countLoop_full (empty : locals.tmp.directBlocks j = -1)
    (full : ∀ b, s.store.flag b ≠ dataBlockFree) (unused : ∀ j, locals.isUsed j ≠ 1) :
    countLoop h x buf nbytes (j :: rest) locals s = .ok ((-1, locals.curr), { s with pos := 64 }) := by
  rw [countLoop, if_pos inside, if_pos empty, Prog.bind_ok (ssufsAllocDataBlock_full long full),
    if_pos rfl]
  exact Prog.bind_ok (rollBack_unused (by exact unused) _ _)

/-- A slot that has or gets a block is filled. -/
theorem countLoop_fills {Q : Int32 × ℕ → Machine → Prop}
    (room : locals.tmp.directBlocks j = -1 → ∃ b, s.store.flag b = dataBlockFree)
    (fills : ∀ (filled : WriteLocals) t, 0 ≤ filled.fOffset ∧ filled.fOffset < 64 →
      filled.curr = locals.curr →
        Ensures (fun _ => True) (countSlot h x buf nbytes j (countLoop h x buf nbytes rest) filled) t
          Q) :
    Ensures (fun _ => True) (countLoop h x buf nbytes (j :: rest) locals) s Q := by
  rw [countLoop, if_pos inside]
  split_ifs with empty
  · obtain ⟨b, free⟩ := room empty
    refine .bind ((ssufsAllocDataBlock_free long free).imp fun block t number => ?_)
    rw [if_neg number]
    exact fills _ t inside rfl
  · exact fills _ s inside rfl

end Slot

end Machine

/-! ## Writing -/

/-- The call returns `value`, and the disk and the table of open files are as before. -/
def Refused {α : Type} (s : Machine) (result : Except Fault (α × Machine)) (value : α) : Prop :=
  ∃ t : Machine, result = .ok (value, t) ∧ t.disk = s.disk ∧ t.fileHandles = s.fileHandles

theorem refused_of_count {s : Machine} {h : Fin 20} {buf : ℕ → Byte} {nbytes : Int32}
    {r : Int32 × ℕ} (refused : Refused s (ssufsWriteCount h buf nbytes s) r) :
    Refused s (ssufsWrite h buf nbytes s) r.1 := by
  obtain ⟨t, writes, same⟩ := refused
  refine ⟨t, ?_, same⟩
  rw [← fst_ssufsWriteCount]
  exact Prog.map_ok Prod.fst writes

/-- The local variables of `ssufs_write` before its block loop, for a handle that leads to the inode
`tmp`. -/
def startLocals (s : Machine) (h : Fin 20) (tmp : Inode) : WriteLocals where
  fOffset := (s.fileHandles h).offset.toInt
  curr := 0
  tmpBuf p := s.junk p
  rollback p := s.junk (64 + p)
  rollbackIndex := ByteFile.ofLE fun k => s.junk (64 + (64 + k))
  isUsed _ := -1
  tmp := tmp

section Writing

variable {s : Machine} {h : Fin 20} {tmp : Inode} {pos : ℕ} (reads : ∀ junk,
  ssufsReadInode (s.fileHandles h).inodeNumber { s with junk := junk } =
    .ok (tmp, { s with pos := pos, junk := junk }))

include reads

theorem ssufsWriteCount_of_inode (buf : ℕ → Byte) (nbytes : Int32) :
    ∃ junk, ssufsWriteCount h buf nbytes s =
      if (256 : Int32) < tmp.fileSize + nbytes then
        .ok ((-1, 0), { s with pos := pos, junk := junk })
      else
        countLoop h (s.fileHandles h).inodeNumber buf nbytes (List.finRange 4) (startLocals s h tmp)
          { s with pos := pos, junk := junk } := by
  refine ⟨fun k => s.junk (64 + (64 + (4 + k))), ?_⟩
  rw [ssufsWriteCount, Prog.bind_ok (show Disk.fileHandleArray s = _ from rfl),
    Prog.bind_ok (show Disk.uninit 64 s = _ from rfl),
    Prog.bind_ok (show Disk.uninit 64 _ = _ from rfl),
    Prog.bind_ok (show Disk.uninit 4 _ = _ from rfl),
    Prog.bind_ok (show Disk.readInode _ _ = _ from reads _), Prog.ite_apply]
  rfl

variable (long : 64 ≤ s.disk.length)

include long

/-- The write is refused for its size, or finds no block for the slot that the offset lies in. -/
theorem ssufsWriteCount_refused {buf : ℕ → Byte} {nbytes : Int32}
    (shut : (256 : Int32) < tmp.fileSize + nbytes ∨
      ∀ j : Fin 4, 64 * (j : ℤ) ≤ (s.fileHandles h).offset.toInt →
        (s.fileHandles h).offset.toInt < 64 * (j + 1) →
          tmp.directBlocks j = -1 ∧ ∀ b, s.store.flag b ≠ dataBlockFree) :
    Refused s (ssufsWriteCount h buf nbytes s) (-1, 0) := by
  obtain ⟨junk, writes⟩ := ssufsWriteCount_of_inode reads buf nbytes
  rw [writes]
  split_ifs with large
  · exact ⟨_, rfl, rfl, rfl⟩
  replace shut := shut.resolve_left large
  by_cases inside : 0 ≤ (s.fileHandles h).offset.toInt ∧ (s.fileHandles h).offset.toInt < 256
  · obtain ⟨j, low, high⟩ := exists_slot inside.1 inside.2
    obtain ⟨empty, full⟩ := shut j low high
    rw [countLoop_drop j (by simp) low, drop_finRange]
    refine ⟨_, countLoop_full long ?_ empty full fun _ => ?_, rfl, rfl⟩
    · simp only [startLocals]
      omega
    · simp [startLocals]
  · rw [countLoop_outside (by simp [startLocals]; omega)]
    exact ⟨_, rfl, rfl, rfl⟩

/-- What happens to a write whose size is accepted, in the slot that the offset lies in: there is no
block for it, or the slot is filled. -/
theorem ssufsWriteCount_slot {buf : ℕ → Byte} {nbytes : Int32} {r : Int32 × ℕ} {t : Machine}
    {Q : Int32 × ℕ → Machine → Prop} (writes : ssufsWriteCount h buf nbytes s = .ok (r, t))
    (small : ¬ (256 : Int32) < tmp.fileSize + nbytes) {j : Fin 4}
    (low : 64 * (j : ℤ) ≤ (s.fileHandles h).offset.toInt)
    (high : (s.fileHandles h).offset.toInt < 64 * (j + 1))
    (fills : ∀ (filled : WriteLocals) t, 0 ≤ filled.fOffset ∧ filled.fOffset < 64 →
      filled.curr = 0 → Ensures (fun _ => True) (countSlot h (s.fileHandles h).inodeNumber buf nbytes j
        (countLoop h (s.fileHandles h).inodeNumber buf nbytes ((List.finRange 4).drop (j + 1)))
        filled) t Q) (unfilled : ¬ Q r t) :
    tmp.directBlocks j = -1 ∧ ∀ b, s.store.flag b ≠ dataBlockFree := by
  obtain ⟨junk, runs⟩ := ssufsWriteCount_of_inode reads buf nbytes
  rw [runs, if_neg small, countLoop_drop j (by simp) low, drop_finRange] at writes
  by_contra shut
  have room : tmp.directBlocks j = -1 → ∃ b, s.store.flag b = dataBlockFree := by
    simpa using shut
  refine unfilled ((countLoop_fills (by exact long) ?_ room fills).post writes)
  simp only [startLocals]
  omega

end Writing

end SsuOs.Ssufs
