import SsuOs.Ssufs.Ownership

/-!
# What a write can do

The effect of `ssufs_write` on the inodes and the handles, in all states whose slots are empty or
hold numbers of data blocks. Nothing is assumed about the free list of data blocks, about the file
behind the handle or about the number of bytes, so that this also covers what users do who delete
open files. A write that returns has made the file longer if there was `Room` for it, and has failed
if there was none.
-/

namespace SsuOs.Ssufs

open ByteFile

/-- Started in `v`, the code ends in `Q` or stops at a record that it finds. -/
abbrev Ends {α : Type} (x : Ssu Store α) (v : Store) (Q : α → Store → Prop) : Prop :=
  Prog.Ensures (· ≠ Fault.outsideRecords) x v Q

/-- The inodes and the handles are the same, and the image is not shorter. -/
structure Frame (v w : Store) : Prop where
  inodeFlag : w.inodeFlag = v.inodeFlag
  inode : w.inode = v.inode
  fileHandles : w.fileHandles = v.fileHandles
  length : v.length ≤ w.length

namespace Frame

variable {v w w' : Store}

theorem refl (v : Store) : Frame v v := ⟨rfl, rfl, rfl, le_rfl⟩

theorem trans (first : Frame v w) (second : Frame w w') : Frame v w' :=
  ⟨second.inodeFlag.trans first.inodeFlag, second.inode.trans first.inode,
    second.fileHandles.trans first.fileHandles, first.length.trans second.length⟩

theorem setFlag (b : Fin 30) (c : Byte) : Frame v (v.setFlag b c) := ⟨rfl, rfl, rfl, le_rfl⟩

theorem putBlock (b : Fin 30) (buf : Block) : Frame v (v.putBlock b buf) :=
  ⟨rfl, rfl, rfl, le_max_left _ _⟩

theorem readable (frame : Frame v w) {b : Fin 30} (readable : v.Readable b) : w.Readable b :=
  readable.trans frame.length

end Frame

section Records

variable {v : Store} {x : Int32} {b : Fin 30}

theorem readDataBlock_ends {Q : Block → Store → Prop} (selected : index 30 x = some b)
    (post : v.Readable b → Q (v.block b) v) : Ends (Disk.readDataBlock x) v Q := by
  by_cases readable : v.Readable b
  · exact .of_ok (readDataBlock_ok selected readable) (post readable)
  · exact .of_error (readDataBlock_fails selected readable) (by decide)

theorem check_ends {Q : Unit → Store → Prop} {p : Prop} [Decidable p] (post : p → Q () v) :
    Ends (Prog.check .outOfBounds p) v Q := by
  by_cases holds : p
  · exact .of_ok (Prog.check_pass holds v) (post holds)
  · exact .of_error (Prog.check_fail holds v) (by decide)

theorem writeDataBlock_ends {Q : Unit → Store → Prop} (selected : index 30 x = some b) {buf : Block}
    (post : Q () (v.putBlock b buf)) : Ends (Disk.writeDataBlock x buf) v Q :=
  .of_ok (writeDataBlock_apply selected buf v) post

theorem ssufsFreeDataBlock_ends {Q : Unit → Store → Prop} (selected : index 30 x = some b)
    (post : v.flag b = dataBlockUsed → Q () (v.setFlag b dataBlockFree)) :
    Ends (ssufsFreeDataBlock x) v Q := by
  by_cases used : v.flag b = dataBlockUsed
  · exact .of_ok (ssufsFreeDataBlock_apply selected used) (post used)
  · refine .of_error (e := .assertion) ?_ (by decide)
    rw [ssufsFreeDataBlock, Prog.bind_ok (show Disk.readSuperBlock v = _ from rfl), selected]
    exact Prog.bind_error (Prog.check_fail used v)

end Records

/-! ## Writing -/

theorem rollBack_ends {locals : WriteLocals} {w : Store}
    (held : ∀ j, locals.isUsed j = 1 → ∃ b, locals.tmp.slot j = some b) :
    Ends ((List.finRange 4).foldlM (rollBackSlot locals) ()) w fun _ w' => Frame w w' := by
  refine .foldlM (fun _ j _ w' frame => ?_) (Frame.refl w)
  rw [rollBackSlot]
  split_ifs with filled saved
  · obtain ⟨b, slot⟩ := held j filled
    exact writeDataBlock_ends slot (frame.trans (.putBlock b _))
  · obtain ⟨b, slot⟩ := held j filled
    refine .bind (writeDataBlock_ends slot (ssufsFreeDataBlock_ends slot fun _ => ?_))
    exact (frame.trans (.putBlock b _)).trans (.setFlag b _)
  · exact .pure frame

/-- Slot `j` has bytes of the range of `n` bytes from position `o`. -/
def Covers (o n : ℤ) (j : Fin 4) : Prop := o < 64 * (j + 1) ∧ 64 * j < o + n

/-- There is room for `nbytes` bytes at the offset of `h` in the file with inode `i`: neither its new
size nor the end of the data passes 256 bytes, and there are free blocks for the slots under the data
that have none. -/
structure Room (v : Store) (h : Fin 20) (i : Fin 8) (nbytes : Int32) : Prop where
  positive : 0 < nbytes.toInt
  size : (v.inode i).fileSize.toInt + nbytes.toInt ≤ 256
  within : (v.fileHandles h).offset.toInt + nbytes.toInt ≤ 256
  blocks : (v.inode i).missing ((v.fileHandles h).offset.toInt.toNat / 64)
    (((v.fileHandles h).offset.toInt + nbytes.toInt + 63).toNat / 64) ≤ v.freeCount

instance (v : Store) (h : Fin 20) (i : Fin 8) (nbytes : Int32) : Decidable (Room v h i nbytes) :=
  decidable_of_iff (0 < nbytes.toInt ∧ (v.inode i).fileSize.toInt + nbytes.toInt ≤ 256 ∧
      (v.fileHandles h).offset.toInt + nbytes.toInt ≤ 256 ∧
      (v.inode i).missing ((v.fileHandles h).offset.toInt.toNat / 64)
        (((v.fileHandles h).offset.toInt + nbytes.toInt + 63).toNat / 64) ≤ v.freeCount)
    ⟨fun room => ⟨room.1, room.2.1, room.2.2.1, room.2.2.2⟩,
      fun room => ⟨room.positive, room.size, room.within, room.blocks⟩⟩

/-- A write of `nbytes` bytes through `h` has made the file with inode `i` longer: the slots that it
covers hold blocks of the image, the other slots are as before. -/
structure Grown (v : Store) (h : Fin 20) (i : Fin 8) (nbytes : Int32) (w : Store) : Prop where
  room : Room v h i nbytes
  inodeFlag : w.inodeFlag = v.inodeFlag
  length : v.length ≤ w.length
  other : ∀ i', i' ≠ i → w.inode i' = v.inode i'
  name : (w.inode i).name = (v.inode i).name
  size : (w.inode i).fileSize.toInt = (v.inode i).fileSize.toInt + nbytes.toInt
  kept : ∀ j, (v.inode i).directBlocks j ≠ -1 ∨
    ¬ Covers (v.fileHandles h).offset.toInt nbytes.toInt j →
      (w.inode i).directBlocks j = (v.inode i).directBlocks j
  held : ∀ j, Covers (v.fileHandles h).offset.toInt nbytes.toInt j →
    ∃ b, (w.inode i).slot j = some b ∧ w.Readable b
  fileHandles : w.fileHandles =
    if (v.fileHandles h).offset.toInt ≤ (v.inode i).fileSize.toInt then
      Function.update v.fileHandles h
        { v.fileHandles h with offset := (v.fileHandles h).offset + nbytes }
    else v.fileHandles

/-- How a write ends that returns: it returns 0 exactly if there is room. -/
def Wrote (v : Store) (h : Fin 20) (i : Fin 8) (nbytes r : Int32) (w : Store) : Prop :=
  r = -1 ∧ ¬ Room v h i nbytes ∧ Frame v w ∨ r = 0 ∧ Grown v h i nbytes w

/-- The byte loop ends the write in this block exactly if the data ends there. -/
theorem writeBytes_curr_eq (buf : ℕ → Byte) (nbytes : ℤ) (k : ℕ) (block : Block) (curr : ℕ) :
    ((writeBytes buf nbytes k block curr).2.2 = true ↔ curr < nbytes ∧ nbytes ≤ curr + k) ∧
      ((writeBytes buf nbytes k block curr).2.2 ≠ true →
        (writeBytes buf nbytes k block curr).2.1 = curr + k) := by
  induction k generalizing block curr with
  | zero => exact ⟨⟨nofun, fun ends => by omega⟩, fun _ => rfl⟩
  | succ k ih =>
    rw [writeBytes]
    split_ifs with last
    · exact ⟨⟨fun _ => by omega, fun _ => rfl⟩, fun open_ => absurd rfl open_⟩
    · obtain ⟨ends, goes⟩ := ih (Function.update block ⟨63 - k, by omega⟩ (buf curr)) (curr + 1)
      refine ⟨ends.trans (by omega), fun more => ?_⟩
      rw [goes more]
      omega

section Write

variable {v w : Store} {h : Fin 20} {i : Fin 8} {nbytes : Int32} {o a : ℕ} {tmp : Inode}
  {locals : WriteLocals}

/-- A write through `h` to the file with inode `i` at offset `o` that passes the size check. -/
structure Attempt (v : Store) (h : Fin 20) (i : Fin 8) (nbytes : Int32) (o : ℕ) : Prop where
  selected : index 8 (v.fileHandles h).inodeNumber = some i
  offset : (v.fileHandles h).offset.toInt = o
  low : 0 ≤ (v.inode i).fileSize.toInt
  high : (v.inode i).fileSize.toInt ≤ 256
  passes : ¬ (256 : Int32) < (v.inode i).fileSize + nbytes
  valid : (v.inode i).Valid

/-- The store and the local inode when the block loop of a write at offset `o` comes to slot `a`. -/
structure Growing (v : Store) (i : Fin 8) (o a : ℕ) (tmp : Inode) (w : Store) : Prop where
  frame : Frame v w
  rest : tmp = { v.inode i with directBlocks := tmp.directBlocks }
  kept : ∀ j : Fin 4, (v.inode i).directBlocks j ≠ -1 ∨ ¬ (o / 64 ≤ j ∧ j < a) →
    tmp.directBlocks j = (v.inode i).directBlocks j
  held : ∀ j : Fin 4, o / 64 ≤ j → j < a → ∃ b, tmp.slot j = some b ∧ w.Readable b
  count : w.freeCount + (v.inode i).missing (o / 64) a = v.freeCount

/-- The local variables at this point. -/
structure Arrived (o a : ℕ) (locals : WriteLocals) : Prop where
  fOffset : locals.fOffset = (o - 64 * a : ℕ)
  curr : locals.curr = 64 * a - o
  isUsed : ∀ j : Fin 4, locals.isUsed j = 1 → o / 64 ≤ j ∧ j < a

namespace Growing

theorem start (v : Store) (i : Fin 8) (o : ℕ) (junk : ℕ → Byte) :
    Growing v i o 0 (v.inode i) { v with junk := junk } := by
  refine ⟨⟨rfl, rfl, rfl, le_rfl⟩, rfl, fun _ _ => rfl,
    fun _ _ below => absurd below (Nat.not_lt_zero _), ?_⟩
  rw [Inode.missing_zero]
  rfl

theorem pass {j : Fin 4} (growing : Growing v i o j tmp w) (early : j < o / 64) :
    Growing v i o (j + 1) tmp w := by
  refine ⟨growing.frame, growing.rest, fun k keep => growing.kept k ?_, fun k after below => ?_, ?_⟩
  · exact keep.imp_right fun out range => out (by omega)
  · exact growing.held k after (by omega)
  · rw [Inode.missing_succ_held (.inr early)]
    exact growing.count

/-- Slot `j` has the block `b`, its old one if there was one, and the block lies in the image. -/
theorem fill {j : Fin 4} {b : Fin 30} {x : Int32} (growing : Growing v i o j tmp w)
    (after : o / 64 ≤ j) (selected : index 30 x = some b)
    (old : (v.inode i).directBlocks j ≠ -1 → x = (v.inode i).directBlocks j) {w' : Store}
    (frame : Frame w w') (readable : w'.Readable b)
    (count : w'.freeCount + (v.inode i).missing (o / 64) (j + 1) = v.freeCount) :
    Growing v i o (j + 1) (tmp.setSlot j x) w' := by
  refine ⟨growing.frame.trans frame, ?_, fun k keep => ?_, fun k above below => ?_, count⟩
  · rw [Inode.setSlot, growing.rest]
  · rw [Inode.directBlocks_setSlot, Function.update_apply]
    split_ifs with same
    · subst same
      exact old (keep.resolve_right fun out => out ⟨after, Nat.lt_succ_self _⟩)
    · have apart : k.val ≠ j.val := fun clash => same (Fin.ext clash)
      exact growing.kept k (keep.imp_right fun out range => out (by omega))
  · rw [Inode.slot_setSlot]
    split_ifs with same
    · exact ⟨b, selected, readable⟩
    · have apart : k.val ≠ j.val := fun clash => same (Fin.ext clash)
      obtain ⟨c, held, readable'⟩ := growing.held k above (by omega)
      exact ⟨c, held, frame.readable readable'⟩

/-- There is no room for a write that finds no free block for slot `j`. -/
theorem not_room {j : Fin 4} (growing : Growing v i o j tmp w)
    (offset : (v.fileHandles h).offset.toInt = o) (after : o / 64 ≤ j)
    (empty : (v.inode i).directBlocks j = -1) (full : w.firstFree = none)
    (more : 64 * j < o + nbytes.toInt) : ¬ Room v h i nbytes := by
  intro room
  have blocks := room.blocks
  have taken := growing.count
  have needed : (v.inode i).missing (o / 64) (j + 1) ≤
      (v.inode i).missing (o / 64) ((o + nbytes.toInt + 63).toNat / 64) :=
    Inode.missing_mono (by omega)
  rw [offset, Int.toNat_natCast] at blocks
  rw [freeCount_of_full full] at taken
  rw [Inode.missing_succ_empty after empty] at needed
  omega

end Growing

namespace Arrived

variable {j : Fin 4}

theorem skip (arrived : Arrived o j locals) (early : j < o / 64) :
    Arrived o (j + 1)
      { locals with fOffset := if locals.fOffset ≠ 0 then locals.fOffset - 64 else 0 } := by
  have fOffset := arrived.fOffset
  have curr := arrived.curr
  refine ⟨?_, ?_, fun k used => ?_⟩
  · change (if locals.fOffset ≠ 0 then locals.fOffset - 64 else 0) = _
    split_ifs <;> omega
  · change locals.curr = _
    omega
  · have := arrived.isUsed k used
    omega

/-- Slot `j` has been filled to its end. -/
theorem next (arrived : Arrived o j locals) (after : o / 64 ≤ j) {taken : ℕ}
    (total : taken = locals.curr + (64 - locals.fOffset.toNat)) :
    Arrived o (j + 1) { locals with
      fOffset := 0, curr := taken, isUsed := Function.update locals.isUsed j 1,
      tmpBuf := fun _ => 0 } := by
  have fOffset := arrived.fOffset
  have curr := arrived.curr
  refine ⟨?_, ?_, fun k used => ?_⟩
  · change (0 : ℤ) = _
    omega
  · change taken = _
    omega
  · change Function.update locals.isUsed j 1 k = 1 at used
    rw [Function.update_apply] at used
    split_ifs at used with here
    · rw [here]
      omega
    · have := arrived.isUsed k used
      omega

end Arrived

/-- Loading the block of slot `j` changes the buffers and `rollback_index` only. -/
theorem loadSlot_ends {j : Fin 4} {b : Fin 30} {Q : WriteLocals → Store → Prop}
    (slot : locals.tmp.slot j = some b) (arrived : Arrived o a locals)
    (post : ∀ loaded, Arrived o a loaded → loaded.tmp = locals.tmp →
      loaded.isUsed = locals.isUsed →
      loaded.rollbackIndex = (if locals.fOffset = 0 then locals.rollbackIndex else ofIndex j) →
      Q loaded w) :
    Ends (loadSlot j locals) w Q := by
  rw [loadSlot]
  split_ifs with inside
  · refine .bind (readDataBlock_ends slot fun block => .bind (check_ends fun _ => ?_))
    refine .pure (post _ ?_ rfl rfl (if_neg inside).symm)
    exact ⟨arrived.fOffset, arrived.curr, arrived.isUsed⟩
  · exact .pure (post _ arrived rfl rfl (if_pos (not_not.1 inside)).symm)

/-- A round of the block loop: slot `j` lies before the offset, or there is no block for it, or it
gets one, or it has one. -/
theorem Arrived.round {j : Fin 4} {rest : List (Fin 4)} {x : Int32} {buf : ℕ → Byte}
    {Q : Int32 → Store → Prop} (arrived : Arrived o j locals)
    (skip : ∀ locals', Arrived o (j + 1) locals' → locals'.tmp = locals.tmp →
      locals'.isUsed = locals.isUsed → locals'.tmpBuf = locals.tmpBuf →
      locals'.rollbackIndex = locals.rollbackIndex → j < o / 64 →
      Ends (writeLoop h x buf nbytes rest locals') w Q)
    (full : o / 64 ≤ j → locals.tmp.directBlocks j = -1 → w.firstFree = none →
      Ends ((List.finRange 4).foldlM (rollBackSlot locals) ()) w fun _ => Q (-1))
    (take : ∀ b, o / 64 ≤ j → locals.tmp.directBlocks j = -1 → w.firstFree = some b →
      Ends (writeSlot h x buf nbytes j (writeLoop h x buf nbytes rest)
        { locals with tmp := locals.tmp.setSlot j (ofIndex b) }) (w.setFlag b dataBlockUsed) Q)
    (fill : o / 64 ≤ j → locals.tmp.directBlocks j ≠ -1 →
      Ends (writeSlot h x buf nbytes j (writeLoop h x buf nbytes rest) locals) w Q) :
    Ends (writeLoop h x buf nbytes (j :: rest) locals) w Q := by
  have fOffset := arrived.fOffset
  rw [writeLoop]
  by_cases here : 0 ≤ locals.fOffset ∧ locals.fOffset < 64
  · have after : o / 64 ≤ j := by omega
    rw [if_pos here]
    by_cases empty : locals.tmp.directBlocks j = -1
    · rw [if_pos empty]
      have alloc := ssufsAllocDataBlock_apply w
      cases free : w.firstFree with
      | none =>
        have unchanged : Function.update locals.tmp.directBlocks j (-1) =
            locals.tmp.directBlocks := by
          rw [← empty, Function.update_eq_self]
        rw [free] at alloc
        refine .bind (.of_ok alloc ?_)
        rw [if_pos rfl]
        simp only [unchanged]
        exact .bind ((full after empty free).imp fun _ _ post => .pure post)
      | some b =>
        rw [free] at alloc
        refine .bind (.of_ok alloc ?_)
        rw [if_neg (ofIndex_ne_neg_one (by norm_num) b)]
        exact take b after empty free
    · rw [if_neg empty]
      exact fill after empty
  · have early : j < o / 64 := by omega
    rw [if_neg here]
    exact skip _ (arrived.skip early) rfl rfl rfl rfl early

/-- A write is refused for its size, or comes to the block loop. -/
theorem ssufsWrite_start {Q : Int32 → Store → Prop}
    (selected : index 8 (v.fileHandles h).inodeNumber = some i)
    (offset : (v.fileHandles h).offset.toInt = o) {buf : ℕ → Byte}
    (big : ∀ junk, (256 : Int32) < (v.inode i).fileSize + nbytes → Q (-1) { v with junk := junk })
    (fits : ∀ locals junk, ¬ (256 : Int32) < (v.inode i).fileSize + nbytes → Arrived o 0 locals →
      locals.tmp = v.inode i → (∀ j, locals.isUsed j ≠ 1) →
      Ends (writeLoop h (v.fileHandles h).inodeNumber buf nbytes (List.finRange 4) locals)
        { v with junk := junk } Q) :
    Ends (ssufsWrite h buf nbytes) v Q := by
  have unused : ¬ (-1 : Int32) = 1 := by decide
  rw [ssufsWrite]
  refine .bind (.of_ok (show Disk.fileHandleArray v = _ from rfl) ?_)
  refine .bind (.of_ok (show Disk.uninit 64 v = _ from rfl) ?_)
  refine .bind (.of_ok (show Disk.uninit 64 _ = _ from rfl) ?_)
  refine .bind (.of_ok (show Disk.uninit 4 _ = _ from rfl) ?_)
  refine .bind (.of_ok (readInode_apply selected _) ?_)
  split_ifs with large
  · exact .pure (big _ large)
  · refine fits _ _ large ⟨?_, ?_, fun _ used => absurd used unused⟩ rfl fun _ => unused
    · exact offset
    · change 0 = _
      omega

/-- The new size of a file does not overflow. -/
theorem Attempt.size (attempt : Attempt v h i nbytes o) (near : o + nbytes.toInt ≤ 256) :
    ((v.inode i).fileSize + nbytes).toInt = (v.inode i).fileSize.toInt + nbytes.toInt ∧
      (v.inode i).fileSize.toInt + nbytes.toInt ≤ 256 := by
  have high := attempt.high
  have passes := attempt.passes
  have sum := toInt_add_cases (y := nbytes) attempt.low
  have bound : (256 : Int32).toInt = 256 := rfl
  rw [Int32.lt_iff_toInt_lt] at passes
  omega

/-- At the end of a write the handle is not moved exactly if it was behind the end of the file. -/
theorem Attempt.beyond_iff (attempt : Attempt v h i nbytes o) (positive : 0 < nbytes.toInt)
    (near : o + nbytes.toInt ≤ 256) :
    ((v.inode i).fileSize + nbytes = -1 ∨ (v.fileHandles h).offset + nbytes < 0 ∨
      (v.inode i).fileSize + nbytes < (v.fileHandles h).offset + nbytes) ↔
        ¬ (v.fileHandles h).offset.toInt ≤ (v.inode i).fileSize.toInt := by
  have offset := attempt.offset
  have low := attempt.low
  have size := attempt.size near
  have moved : ((v.fileHandles h).offset + nbytes).toInt = o + nbytes.toInt := by
    have sum := toInt_add_cases (x := (v.fileHandles h).offset) (y := nbytes) (by omega)
    omega
  have minus : (-1 : Int32).toInt = -1 := rfl
  have zero : (0 : Int32).toInt = 0 := rfl
  rw [Int32.lt_iff_toInt_lt, Int32.lt_iff_toInt_lt, moved, ← Int32.toInt_inj, size.1, offset]
  omega

/-- What a write that completes in slot `j` comes to. -/
theorem Growing.grown {j : Fin 4} (growing : Growing v i o (j + 1) tmp w)
    (attempt : Attempt v h i nbytes o) (more : (64 * j - o : ℕ) < nbytes.toInt)
    (last : o + nbytes.toInt ≤ 64 * (j + 1)) {w' : Store} (inodeFlag : w'.inodeFlag = w.inodeFlag)
    (inode : w'.inode = Function.update w.inode i { tmp with fileSize := tmp.fileSize + nbytes })
    (length : w'.length = w.length)
    (fileHandles : w'.fileHandles =
      if (v.fileHandles h).offset.toInt ≤ (v.inode i).fileSize.toInt then
        Function.update v.fileHandles h
          { v.fileHandles h with offset := (v.fileHandles h).offset + nbytes }
      else v.fileHandles) : Grown v h i nbytes w' := by
  have offset := attempt.offset
  have size := attempt.size (by omega)
  have here : w'.inode i = { tmp with fileSize := tmp.fileSize + nbytes } := by
    rw [inode, Function.update_self]
  have covers (k : Fin 4) :
      Covers (v.fileHandles h).offset.toInt nbytes.toInt k ↔ o / 64 ≤ k ∧ k < j.val + 1 := by
    rw [Covers, attempt.offset]
    omega
  have room : Room v h i nbytes := by
    have past : (o + nbytes.toInt + 63).toNat / 64 = j + 1 := by omega
    refine ⟨by omega, size.2, by omega, ?_⟩
    rw [attempt.offset, Int.toNat_natCast, past, ← growing.count]
    exact Nat.le_add_left ..
  refine ⟨room, inodeFlag.trans growing.frame.inodeFlag,
    length ▸ growing.frame.length, fun i' away => ?_, ?_, ?_, fun k keep => ?_, fun k range => ?_,
    fileHandles⟩
  · rw [inode, Function.update_of_ne away, growing.frame.inode]
  · rw [here, growing.rest]
  · rw [here, growing.rest]
    exact size.1
  · rw [here]
    exact growing.kept k (by rwa [covers] at keep)
  · rw [here]
    obtain ⟨above, below⟩ := (covers k).1 range
    obtain ⟨b, held, readable⟩ := growing.held k above below
    exact ⟨b, held, by rw [Store.Readable, length]; exact readable⟩

/-- The end of a write that completes in slot `j`. -/
theorem Attempt.grown {j : Fin 4} (attempt : Attempt v h i nbytes o)
    (growing : Growing v i o (j + 1) tmp w)
    (more : (64 * j - o : ℕ) < nbytes.toInt) (last : o + nbytes.toInt ≤ 64 * (j + 1)) :
    Ends (do
        Disk.writeInode (v.fileHandles h).inodeNumber
          { tmp with fileSize := tmp.fileSize + nbytes }
        let _ ← ssufsLseek h nbytes
        pure 0) w (Wrote v h i nbytes) := by
  set grown : Inode := { tmp with fileSize := tmp.fileSize + nbytes } with grown_eq
  have handles : (w.putInode i grown).fileHandles = v.fileHandles := growing.frame.fileHandles
  have self : (w.putInode i grown).inode i = grown := Function.update_self ..
  have size : grown.fileSize = (v.inode i).fileSize + nbytes := by rw [grown_eq, growing.rest]
  have seek := ssufsLseek_apply (v := w.putInode i grown) (h := h) (i := i)
    (by rw [handles]; exact attempt.selected) nbytes
  rw [handles, self, size, if_congr (attempt.beyond_iff (by omega) (by omega)) rfl rfl] at seek
  refine .bind (.of_ok (writeInode_apply attempt.selected grown w) ?_)
  split_ifs at seek with inside
  · refine .bind (.of_ok seek (.pure (.inr ⟨rfl, growing.grown attempt more last rfl rfl rfl ?_⟩)))
    rw [if_pos inside, ← handles]
    rfl
  · refine .bind (.of_ok seek (.pure (.inr ⟨rfl, growing.grown attempt more last rfl rfl rfl ?_⟩)))
    rw [if_neg inside]
    exact handles

variable {buf : ℕ → Byte}

/-- The part of a round that fills slot `j`, which holds block `b`. -/
theorem Attempt.writeSlot {j : Fin 4} {b : Fin 30} {next : WriteLocals → Ssu Store Int32}
    (attempt : Attempt v h i nbytes o) (arrived : Arrived o j locals) (after : o / 64 ≤ j)
    (slot : locals.tmp.slot j = some b)
    (more : 0 < nbytes.toInt → 64 * j < o + nbytes.toInt)
    (growing : ∀ block, Growing v i o (j + 1) locals.tmp (w.putBlock b block))
    (goes : ∀ locals' w', Arrived o (j + 1) locals' → Growing v i o (j + 1) locals'.tmp w' →
      (0 < nbytes.toInt → 64 * (j + 1) < o + nbytes.toInt) →
      Ends (next locals') w' (Wrote v h i nbytes)) :
    Ends (writeSlot h (v.fileHandles h).inodeNumber buf nbytes j next locals) w
      (Wrote v h i nbytes) := by
  refine .bind (loadSlot_ends slot arrived fun loaded arrived same _ _ => ?_)
  rw [← same] at slot growing
  have fOffset := arrived.fOffset
  have curr := arrived.curr
  obtain ⟨ends, continues⟩ := writeBytes_curr_eq buf nbytes.toInt (64 - loaded.fOffset.toNat)
    loaded.tmpBuf loaded.curr
  generalize writeBytes buf nbytes.toInt (64 - loaded.fOffset.toNat) loaded.tmpBuf loaded.curr =
    result at ends continues
  obtain ⟨block, taken, complete⟩ := result
  refine .bind (writeDataBlock_ends slot ?_)
  cases complete with
  | true =>
    have inside := ends.1 rfl
    exact attempt.grown (growing block) (by omega) (by omega)
  | false =>
    have outside := mt ends.2 nofun
    exact goes _ _ (arrived.next after (continues nofun)) (growing block) (by omega)

/-- The block loop from slot `a` on. -/
theorem Attempt.writeLoop (attempt : Attempt v h i nbytes o) {l : List (Fin 4)}
    (suffix : (List.finRange 4).drop a = l) (arrived : Arrived o a locals)
    (growing : Growing v i o a locals.tmp w)
    (more : 0 < nbytes.toInt → 64 * a < o + nbytes.toInt) :
    Ends (writeLoop h (v.fileHandles h).inodeNumber buf nbytes l locals) w
      (Wrote v h i nbytes) := by
  induction l generalizing a locals w with
  | nil =>
    have past : 4 ≤ a := by simpa using suffix
    refine .pure (.inl ⟨rfl, fun room => ?_, growing.frame⟩)
    have positive := room.positive
    have within := room.within
    have offset := attempt.offset
    omega
  | cons j rest ih =>
    obtain ⟨rfl, suffix⟩ := of_drop_finRange suffix
    have self : locals.tmp.directBlocks j = (v.inode i).directBlocks j :=
      growing.kept j (.inr fun range => lt_irrefl _ range.2)
    have goes : ∀ locals' w', Arrived o (j + 1) locals' → Growing v i o (j + 1) locals'.tmp w' →
        (0 < nbytes.toInt → 64 * (j + 1) < o + nbytes.toInt) →
        Ends (writeLoop h (v.fileHandles h).inodeNumber buf nbytes rest locals') w'
          (Wrote v h i nbytes) := fun _ _ arrived growing more => ih suffix arrived growing more
    refine arrived.round ?_ (fun after empty full => ?_) (fun b after empty free => ?_)
      fun after nonempty => ?_
    · intro locals' arrived tmp _ _ _ early
      refine goes locals' w arrived ?_ (by omega)
      rw [tmp]
      exact growing.pass early
    · refine (rollBack_ends fun k used => ?_).imp fun _ w' frame =>
        .inl ⟨rfl, fun room => ?_, growing.frame.trans frame⟩
      · obtain ⟨above, below⟩ := arrived.isUsed k used
        obtain ⟨b, held, -⟩ := growing.held k above below
        exact ⟨b, held⟩
      · exact growing.not_room attempt.offset after (self ▸ empty) full (more room.positive) room
    · have given := index_ofIndex (show 30 ≤ 2 ^ 31 by norm_num) b
      refine attempt.writeSlot ⟨arrived.fOffset, arrived.curr, arrived.isUsed⟩ after (b := b)
        ((Inode.slot_setSlot ..).trans ((if_pos rfl).trans given)) more (fun block => ?_) goes
      refine growing.fill after given (fun nonempty => ?_)
        ((Frame.setFlag b _).trans (.putBlock b block)) (Request.readable_putBlock (.inl rfl)) ?_
      · exact absurd (self.symm.trans empty) nonempty
      · have marked := freeCount_setFlag (firstFree_eq_some free)
        have taken := growing.count
        rw [Inode.missing_succ_empty after (self ▸ empty)]
        change (w.setFlag b dataBlockUsed).freeCount + _ = _
        omega
    · obtain ⟨b, held⟩ := attempt.valid j (self ▸ nonempty)
      have held' : index 30 (locals.tmp.directBlocks j) = some b := by
        rw [self]
        exact held
      refine attempt.writeSlot arrived after held' more (fun block => ?_) goes
      have filled := growing.fill after held' (fun _ => self) (.putBlock b block)
        (Request.readable_putBlock (.inl rfl)) (by
          rw [Inode.missing_succ_held (.inl (self ▸ nonempty))]
          exact growing.count)
      rwa [Inode.setSlot, Function.update_eq_self] at filled

/-- Every write that returns has made the file longer, or has found no room and has no effect on
inodes and handles. -/
theorem ssufsWrite_ends (selected : index 8 (v.fileHandles h).inodeNumber = some i)
    (offset : 0 ≤ (v.fileHandles h).offset.toInt) (low : 0 ≤ (v.inode i).fileSize.toInt)
    (high : (v.inode i).fileSize.toInt ≤ 256) (valid : (v.inode i).Valid) (buf : ℕ → Byte)
    (nbytes : Int32) : Ends (ssufsWrite h buf nbytes) v (Wrote v h i nbytes) := by
  refine ssufsWrite_start selected (Int.toNat_of_nonneg offset).symm (fun junk large => ?_)
    fun locals junk passes arrived tmp _ => ?_
  · refine .inl ⟨rfl, fun room => ?_, ⟨rfl, rfl, rfl, le_rfl⟩⟩
    have size := room.size
    have sum := toInt_add_cases (y := nbytes) low
    have bound : (256 : Int32).toInt = 256 := rfl
    rw [Int32.lt_iff_toInt_lt] at large
    omega
  · refine Attempt.writeLoop (a := 0)
      ⟨selected, (Int.toNat_of_nonneg offset).symm, low, high, passes, valid⟩ rfl arrived ?_
      fun positive => by omega
    rw [tmp]
    exact .start v i _ junk

end Write

end SsuOs.Ssufs
