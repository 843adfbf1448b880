import SsuOs.Ssufs.Attempts

/-!
# What a call can do

The effect of every call on the inodes and the handles, as `Attempts` has it for `ssufs_write`, along
the runs of users whose names have at most eight characters and whose handles are open.
-/

namespace SsuOs.Ssufs

open ByteFile

/-! ## Deleting -/

/-- The blocks behind the slots `l` of an inode were marked used in the first superblock and are
marked free in the second, which has the other marks of the first. -/
structure Releases (inode : Inode) (l : List (Fin 4)) (first last : Superblock) : Prop where
  inodeFreelist : last.inodeFreelist = first.inodeFreelist
  released : ∀ j ∈ l, ∀ b, inode.slot j = some b →
    first.datablockFreelist b = dataBlockUsed ∧ last.datablockFreelist b = dataBlockFree
  kept : ∀ b, (∀ j ∈ l, inode.slot j ≠ some b) →
    last.datablockFreelist b = first.datablockFreelist b

theorem Releases.cons {inode : Inode} {j : Fin 4} {l : List (Fin 4)} {first next last : Superblock}
    (head : Releases inode [j] first next) (tail : Releases (inode.setSlot j (-1)) l next last) :
    Releases inode (j :: l) first last := by
  have later {j' : Fin 4} {b : Fin 30} (other : j' ≠ j) (slot : inode.slot j' = some b) :
      (inode.setSlot j (-1)).slot j' = some b := by rw [Inode.slot_setSlot_of_ne other, slot]
  have unheld {b : Fin 30} (none : ∀ j' ∈ l, j' ≠ j → inode.slot j' ≠ some b) :
      ∀ j' ∈ l, (inode.setSlot j (-1)).slot j' ≠ some b := by
    intro j' member
    rw [Inode.slot_drop]
    split_ifs with same
    · exact Option.some_ne_none b ∘ Eq.symm
    · exact none j' member same
  have one := head.released j List.mem_cons_self
  refine ⟨tail.inodeFreelist.trans head.inodeFreelist, fun j' member b slot => ?_, fun b none => ?_⟩
  · by_cases here : inode.slot j = some b
    · -- the block is free by now, so that no later slot can hold it again
      refine ⟨(one b here).1, (tail.kept b (unheld fun j'' member' other slot' => ?_)).trans
        (one b here).2⟩
      have again := (tail.released j'' member' b (later other slot')).1
      exact dataBlockUsed_ne_free (again.symm.trans (one b here).2)
    · have other : j' ≠ j := fun same => here (same ▸ slot)
      have member' : j' ∈ l := (List.mem_cons.1 member).resolve_left other
      obtain ⟨used, free⟩ := tail.released j' member' b (later other slot)
      refine ⟨(head.kept b fun k only => ?_).symm.trans used, free⟩
      rw [List.mem_singleton.1 only]
      exact here
  · rw [List.forall_mem_cons] at none
    rw [tail.kept b (unheld fun j' member _ => none.2 j' member), head.kept b fun k only => ?_]
    rw [List.mem_singleton.1 only]
    exact none.1

theorem freeSlot_ends {superblock : Superblock} {inode : Inode} (valid : inode.Valid) (j : Fin 4)
    (v : Store) :
    Ends (freeSlot (superblock, inode) j) v fun r v' =>
      Releases inode [j] superblock r.1 ∧ r.2 = inode.setSlot j (-1) ∧ SameFiles v v' := by
  by_cases empty : inode.directBlocks j = -1
  · refine .of_ok (freeSlot_empty empty superblock v)
      ⟨⟨rfl, fun k only b slot => ?_, fun _ _ => rfl⟩, rfl, rfl, rfl, rfl, rfl⟩
    rw [List.mem_singleton.1 only] at slot
    exact absurd empty (Inode.ne_neg_one_of_slot slot)
  · obtain ⟨b, held⟩ := valid j empty
    simp only [freeSlot, ne_eq, empty, not_false_eq_true, if_true]
    refine .bind (.of_ok (show Disk.writeSuperBlock superblock v = _ from rfl) ?_)
    refine .bind (ssufsFreeDataBlock_ends held fun used => ?_)
    refine .bind (.of_ok (show Disk.readSuperBlock _ = _ from rfl) (.pure ?_))
    refine ⟨⟨rfl, fun k only c slot => ?_, fun c other => ?_⟩, rfl, rfl, rfl, rfl, rfl⟩
    · rw [List.mem_singleton.1 only, held] at slot
      obtain rfl := Option.some.inj slot
      exact ⟨used, Function.update_self ..⟩
    · refine Function.update_of_ne (fun same => ?_) ..
      exact other j (List.mem_singleton_self j) (same ▸ held)

theorem freeSlots_ends {superblock : Superblock} (inode : Inode) (valid : inode.Valid)
    (l : List (Fin 4)) (v : Store) :
    Ends (l.foldlM freeSlot (superblock, inode)) v fun r v' =>
      Releases inode l superblock r.1 ∧ r.2 = inode.clear l ∧ SameFiles v v' := by
  induction l generalizing superblock inode v with
  | nil =>
    exact .pure ⟨⟨rfl, by simp, fun _ _ => rfl⟩, by simp [Inode.clear], rfl, rfl, rfl, rfl⟩
  | cons j l ih =>
    rw [List.foldlM_cons]
    refine .bind ((freeSlot_ends valid j v).imp ?_)
    rintro ⟨superblock', inode'⟩ v' ⟨head, rfl, inodes, blocks, length, handles⟩
    refine (ih _ (valid.drop j) v').imp fun r v'' => ?_
    rintro ⟨tail, cleared, inodes', blocks', length', handles'⟩
    refine ⟨head.cons tail, cleared.trans (Inode.clear_drop ..), inodes'.trans inodes,
      blocks'.trans blocks, length'.trans length, handles'.trans handles⟩

/-- The file with inode `i` is gone: the inode is free, has size 0 and no blocks. -/
structure Gone (v : Store) (i : Fin 8) (w : Store) : Prop where
  inodeFlag : w.inodeFlag = Function.update v.inodeFlag i inodeFree
  inode : w.inode = Function.update v.inode i
    { v.inode i with status := 120, fileSize := 0, directBlocks := fun _ => -1 }
  fileHandles : w.fileHandles = v.fileHandles
  length : v.length ≤ w.length

/-- Freeing an inode that returns has found all its blocks in use, and leaves them free. -/
theorem ssufsFreeInode_ends {v : Store} {i : Fin 8} (valid : (v.inode i).Valid) :
    Ends (ssufsFreeInode (ofIndex i)) v fun _ w => Gone v i w ∧
      ∀ j b, (v.inode i).slot j = some b → v.flag b = dataBlockUsed ∧ w.flag b = dataBlockFree := by
  have selected := index_ofIndex (show 8 ≤ 2 ^ 31 by norm_num) i
  have small : (ofIndex i).toInt < 8 := by
    rw [toInt_ofIndex (by norm_num)]
    omega
  rw [ssufsFreeInode]
  refine .bind (.of_ok (Prog.check_pass small v) ?_)
  refine .bind (.of_ok (show Disk.readSuperBlock v = _ from rfl) ?_)
  refine .bind (.of_ok (readInode_apply selected v) ?_)
  rw [selected]
  by_cases inUse : v.inodeFlag i = inodeInUse
  · refine .bind (.of_ok (Prog.check_pass inUse v) ?_)
    refine .bind ((freeSlots_ends { v.inode i with status := 120, fileSize := 0 } valid
      (List.finRange 4) v).imp ?_)
    rintro ⟨superblock, inode⟩ v' ⟨releases, rfl, inodes, blocks, length, handles⟩
    refine .bind (.of_ok (show Disk.writeSuperBlock superblock v' = _ from rfl) ?_)
    refine .of_ok (writeInode_apply selected _ _) ⟨⟨?_, ?_, handles, length.ge⟩, fun j b slot => ?_⟩
    · exact releases.inodeFreelist
    · change Function.update v'.inode i _ = _
      simp only [inodes, Inode.clear, List.mem_finRange, if_true]
    · exact releases.released j (List.mem_finRange j) b slot
  · exact .of_error (Prog.bind_error (Prog.check_fail inUse v)) (by decide)

theorem ssufsDelete_ends {v : Store} {filename : CString} {i : Fin 8}
    (here : v.lookup filename = some i) (valid : (v.inode i).Valid) :
    Ends (ssufsDelete filename) v fun _ w => Gone v i w ∧
      ∀ j b, (v.inode i).slot j = some b → v.flag b = dataBlockUsed ∧ w.flag b = dataBlockFree := by
  have scrubs : Ends ((List.finRange 4).foldlM (scrubSlot (v.inode i)) ()) v
      fun _ w => Frame v w ∧ w.flag = v.flag := by
    refine .foldlM (fun _ j _ w frame => ?_) ⟨Frame.refl v, rfl⟩
    rw [scrubSlot]
    split_ifs with nonempty
    · obtain ⟨b, held⟩ := valid j nonempty
      refine .bind (readDataBlock_ends held fun _ => writeDataBlock_ends held ?_)
      exact ⟨frame.1.trans (.putBlock b _), frame.2⟩
    · exact .pure frame
  have ends : Ends ((List.finRange 4).foldlM (scrubSlot (v.inode i)) () >>= fun _ =>
      ssufsFreeInode (ofIndex i)) v fun _ w => Gone v i w ∧
        ∀ j b, (v.inode i).slot j = some b →
          v.flag b = dataBlockUsed ∧ w.flag b = dataBlockFree := by
    refine .bind (scrubs.imp fun _ w scrubbed => ?_)
    obtain ⟨frame, flags⟩ := scrubbed
    have valid' : (w.inode i).Valid := by
      rw [frame.inode]
      exact valid
    refine (ssufsFreeInode_ends valid').imp fun _ w' freed => ⟨⟨?_, ?_, ?_, ?_⟩, ?_⟩
    · rw [freed.1.inodeFlag, frame.inodeFlag]
    · rw [freed.1.inode, frame.inode]
    · rw [freed.1.fileHandles, frame.fileHandles]
    · exact frame.length.trans freed.1.length
    · rw [← frame.inode, ← flags]
      exact freed.2
  rw [Ends, Prog.Ensures, ssufsDelete_present here]
  exact ends

/-! ## Calls -/

/-- The name that a call is given. -/
def Call.filename : Call → Option CString
  | .create filename | .openFile filename | .delete filename => some filename
  | _ => none

/-- The handle that a call is given. -/
def Call.handle : Call → Option (Fin 20)
  | .write h _ _ | .read h _ | .lseek h _ | .close h => some h
  | _ => none

/-- The calls of a user whose names have at most `n` characters and whose handles are open. -/
def Proper (n : ℕ) (v : Store) (call : Call) : Prop :=
  (∀ filename ∈ call.filename, filename.bytes.length ≤ n) ∧ ∀ h ∈ call.handle, Opened v h

instance (n : ℕ) (v : Store) (call : Call) : Decidable (Proper n v call) :=
  inferInstanceAs (Decidable (_ ∧ _))

/-- Slots are empty or hold numbers of data blocks, sizes lie in 0 .. 256, and open handles refer to
inodes and have offsets that are not negative. -/
structure Tame (v : Store) : Prop where
  valid : ∀ i, (v.inode i).Valid
  size : ∀ i, 0 ≤ (v.inode i).fileSize.toInt ∧ (v.inode i).fileSize.toInt ≤ 256
  handle : ∀ h, (v.fileHandles h).inodeNumber = -1 ∨
    ∃ i, index 8 (v.fileHandles h).inodeNumber = some i ∧ 0 ≤ (v.fileHandles h).offset.toInt

/-- Everything that a call can do which returns. -/
inductive Effect (v : Store) : Call → Reply → Store → Prop
  | noCreate {filename : CString} : v.lookup filename ≠ none ∨ v.firstFreeInode = none →
      Effect v (.create filename) ⟨some (-1), []⟩ v
  | create {filename : CString} {i : Fin 8} : v.lookup filename = none →
      v.firstFreeInode = some i →
      Effect v (.create filename) ⟨some (ofIndex i), []⟩ (v.created i filename)
  | noOpen {filename : CString} : Effect v (.openFile filename) ⟨some (-1), []⟩ v
  | openFile {filename : CString} {i : Fin 8} {h : Fin 20} : v.lookup filename = some i →
      v.firstClosed = some h →
      Effect v (.openFile filename) ⟨some (ofIndex h), []⟩
        (v.putHandle h { offset := 0, inodeNumber := ofIndex i })
  | noWrite {h : Fin 20} {buf : ℕ → Byte} {nbytes : Int32} {i : Fin 8} {w : Store} :
      index 8 (v.fileHandles h).inodeNumber = some i → ¬ Room v h i nbytes → Frame v w →
      Effect v (.write h buf nbytes) ⟨some (-1), []⟩ w
  | write {h : Fin 20} {buf : ℕ → Byte} {nbytes : Int32} {i : Fin 8} {w : Store} :
      index 8 (v.fileHandles h).inodeNumber = some i → Grown v h i nbytes w →
      Effect v (.write h buf nbytes) ⟨some 0, []⟩ w
  | read {h : Fin 20} {nbytes : Int32} {r : Reply} : Effect v (.read h nbytes) r v
  | readSeek {h : Fin 20} {nbytes x : Int32} {r : Reply} {w : Store} :
      ssufsLseek h nbytes v = .ok (x, w) → Effect v (.read h nbytes) r w
  | lseek {h : Fin 20} {nseek x : Int32} {w : Store} : ssufsLseek h nseek v = .ok (x, w) →
      Effect v (.lseek h nseek) ⟨some x, []⟩ w
  | close {h : Fin 20} : Effect v (.close h) ⟨none, []⟩ (v.putHandle h closedHandle)
  | noDelete {filename : CString} : v.lookup filename = none →
      Effect v (.delete filename) ⟨none, []⟩ v
  | delete {filename : CString} {i : Fin 8} {w : Store} : v.lookup filename = some i →
      Gone v i w → Effect v (.delete filename) ⟨none, []⟩ w

section Exec

variable {v w : Store} {call : Call}

/-- The inode behind an open handle. -/
theorem Tame.file (tame : Tame v) {h : Fin 20} (opened : Opened v h) :
    ∃ i, index 8 (v.fileHandles h).inodeNumber = some i ∧ 0 ≤ (v.fileHandles h).offset.toInt :=
  (tame.handle h).resolve_left opened

/-- `ssufs_lseek` does nothing or moves the handle to a place within the file. -/
theorem ssufsLseek_cases {h : Fin 20} {i : Fin 8} {nseek x : Int32}
    (selected : index 8 (v.fileHandles h).inodeNumber = some i)
    (seek : ssufsLseek h nseek v = .ok (x, w)) :
    w = v ∨ ∃ offset : Int32, 0 ≤ offset.toInt ∧ offset.toInt ≤ (v.inode i).fileSize.toInt ∧
      w = v.putHandle h { v.fileHandles h with offset := offset } := by
  rw [ssufsLseek_apply selected] at seek
  split_ifs at seek with bad
  · cases seek
    exact .inl rfl
  · cases seek
    simp only [not_or, Int32.lt_iff_toInt_lt, not_lt] at bad
    exact .inr ⟨_, bad.2.1, bad.2.2, rfl⟩

/-- Every call through open handles fails an assertion or has one of the effects. -/
theorem exec_ends (tame : Tame v) (opened : ∀ h ∈ call.handle, Opened v h) :
    Ends call.exec v (Effect v call) := by
  cases call with
  | create filename =>
    rcases ssufsCreate_cases filename v with ⟨why, refused⟩ | ⟨i, absent, free, created⟩
    · exact .bind (.of_ok refused (.pure (.noCreate why)))
    · exact .bind (.of_ok created (.pure (.create absent free)))
  | openFile filename =>
    rcases ssufsOpen_cases filename v with refused | ⟨i, h, here, closed, opens⟩
    · exact .bind (.of_ok refused (.pure .noOpen))
    · exact .bind (.of_ok opens (.pure (.openFile here closed)))
  | write h buf nbytes =>
    obtain ⟨i, selected, offset⟩ := tame.file (opened h rfl)
    obtain ⟨low, high⟩ := tame.size i
    refine .bind ((ssufsWrite_ends selected offset low high (tame.valid i) buf nbytes).imp ?_)
    rintro r w (⟨rfl, full, frame⟩ | ⟨rfl, grown⟩)
    · exact .pure (.noWrite selected full frame)
    · exact .pure (.write selected grown)
  | read h nbytes =>
    obtain ⟨i, selected, -⟩ := tame.file (opened h rfl)
    rcases ssufsRead_cases selected (tame.valid i) nbytes with
      ⟨fails, -⟩ | ⟨r, w, runs, rfl | ⟨x, seek⟩⟩
    · exact .bind (.of_error fails (by decide))
    · exact .bind (.of_ok runs (.pure .read))
    · exact .bind (.of_ok runs (.pure (.readSeek seek)))
  | lseek h nseek =>
    obtain ⟨i, selected, -⟩ := tame.file (opened h rfl)
    have seek := ssufsLseek_apply selected nseek
    split_ifs at seek
    · exact .bind (.of_ok seek (.pure (.lseek seek)))
    · exact .bind (.of_ok seek (.pure (.lseek seek)))
  | close h => exact .bind (.of_ok rfl (.pure .close))
  | delete filename =>
    rcases here : v.lookup filename with _ | i
    · exact .bind (.of_ok (ssufsDelete_absent here) (.pure (.noDelete here)))
    · exact .bind ((ssufsDelete_ends here (tame.valid i)).imp fun _ w freed =>
        .pure (.delete here freed.1))

namespace Tame

theorem congr (tame : Tame v) (frame : Frame v w) : Tame w := by
  refine ⟨?_, ?_, ?_⟩
  · rw [frame.inode]
    exact tame.valid
  · rw [frame.inode]
    exact tame.size
  · rw [frame.fileHandles]
    exact tame.handle

theorem putHandle (tame : Tame v) (h : Fin 20) {handle : FileHandle}
    (fine : handle.inodeNumber = -1 ∨
      ∃ i, index 8 handle.inodeNumber = some i ∧ 0 ≤ handle.offset.toInt) :
    Tame (v.putHandle h handle) := by
  refine ⟨tame.valid, tame.size, fun h' => ?_⟩
  rw [Store.putHandle_fileHandles, Function.update_apply]
  split_ifs
  · exact fine
  · exact tame.handle h'

/-- One inode is replaced. -/
theorem putInode (tame : Tame v) {i : Fin 8} {inode : Inode}
    (inodes : w.inode = Function.update v.inode i inode) (handles : w.fileHandles = v.fileHandles)
    (valid : inode.Valid) (low : 0 ≤ inode.fileSize.toInt) (high : inode.fileSize.toInt ≤ 256) :
    Tame w := by
  refine ⟨fun i' => ?_, fun i' => ?_, handles ▸ tame.handle⟩
  · rw [inodes, Function.update_apply]
    split_ifs
    · exact valid
    · exact tame.valid i'
  · rw [inodes, Function.update_apply]
    split_ifs
    · exact ⟨low, high⟩
    · exact tame.size i'

theorem lseek (tame : Tame v) {h : Fin 20} (opened : Opened v h) {nseek x : Int32}
    (seek : ssufsLseek h nseek v = .ok (x, w)) : Tame w := by
  obtain ⟨i, selected, -⟩ := tame.file opened
  rcases ssufsLseek_cases selected seek with rfl | ⟨offset, low, -, rfl⟩
  · exact tame
  · exact tame.putHandle h (.inr ⟨i, selected, low⟩)

/-- `ssufs_lseek` changes no file. -/
theorem lseek_same (tame : Tame v) {h : Fin 20} (opened : Opened v h) {nseek x : Int32}
    (seek : ssufsLseek h nseek v = .ok (x, w)) :
    w.inodeFlag = v.inodeFlag ∧ w.inode = v.inode ∧ w.length = v.length := by
  obtain ⟨i, selected, -⟩ := tame.file opened
  rcases ssufsLseek_cases selected seek with rfl | ⟨offset, -, -, rfl⟩
  · exact ⟨rfl, rfl, rfl⟩
  · exact ⟨rfl, rfl, rfl⟩

theorem fresh (junk : ℕ → Byte) : Tame (Store.fresh junk) :=
  ⟨fun _ _ nonempty => absurd rfl nonempty,
    fun _ => show 0 ≤ (0 : Int32).toInt ∧ (0 : Int32).toInt ≤ 256 by decide, fun _ => .inl rfl⟩

end Tame

theorem Inode.strcpyName_size (inode : Inode) {filename : CString}
    (short : filename.bytes.length ≤ 8) (low : 0 ≤ inode.fileSize.toInt)
    (high : inode.fileSize.toInt ≤ 256) :
    0 ≤ (inode.strcpyName filename).fileSize.toInt ∧
      (inode.strcpyName filename).fileSize.toInt ≤ 256 := by
  rcases short.eq_or_lt with long | seven
  · rw [inode.strcpyName_fileSize long low]
    omega
  · rw [(inode.strcpyName_rest (Nat.lt_succ_iff.1 seven)).2.1]
    exact ⟨low, high⟩

/-- A new name of at most eight characters leaves the blocks and the bounds of the size. -/
theorem Tame.created (tame : Tame v) (i : Fin 8) {filename : CString}
    (short : filename.bytes.length ≤ 8) : Tame (v.created i filename) := by
  refine ⟨fun i' j nonempty => ?_, fun i' => ?_, tame.handle⟩
  · rw [Store.created_directBlocks short] at nonempty
    rw [Store.created_slot short]
    exact tame.valid i' j nonempty
  · by_cases same : i' = i
    · rw [same, Store.created_inode_self]
      exact Inode.strcpyName_size _ short (tame.size i).1 (tame.size i).2
    · rw [Store.created_inode_of_ne same]
      exact tame.size i'

/-- A write that ends within the limit on sizes does not overflow the offset. -/
theorem Grown.offset {h : Fin 20} {i : Fin 8} {nbytes : Int32} (grown : Grown v h i nbytes w)
    (low : 0 ≤ (v.fileHandles h).offset.toInt)
    (high : (v.fileHandles h).offset.toInt ≤ (v.inode i).fileSize.toInt) :
    ((v.fileHandles h).offset + nbytes).toInt =
      (v.fileHandles h).offset.toInt + nbytes.toInt := by
  have sum := toInt_add_cases (y := nbytes) low
  have fits := grown.room.size
  omega

theorem Grown.tame {h : Fin 20} {i : Fin 8} {nbytes : Int32} (grown : Grown v h i nbytes w)
    (tame : Tame v) (selected : index 8 (v.fileHandles h).inodeNumber = some i)
    (opened : Opened v h) : Tame w := by
  have positive := grown.room.positive
  have fits := grown.room.size
  obtain ⟨low, high⟩ := tame.size i
  refine ⟨fun i' => ?_, fun i' => ?_, fun h' => ?_⟩
  · by_cases same : i' = i
    · subst same
      intro j nonempty
      by_cases range : Covers (v.fileHandles h).offset.toInt nbytes.toInt j
      · obtain ⟨b, held, -⟩ := grown.held j range
        exact ⟨b, held⟩
      · rw [grown.kept j (.inr range)] at nonempty
        rw [Inode.slot, grown.kept j (.inr range)]
        exact tame.valid i' j nonempty
    · rw [grown.other i' same]
      exact tame.valid i'
  · by_cases same : i' = i
    · rw [same, grown.size]
      omega
    · rw [grown.other i' same]
      exact tame.size i'
  · rw [grown.fileHandles]
    split_ifs with inside
    · rw [Function.update_apply]
      split_ifs
      · obtain ⟨-, -, nonneg⟩ := tame.file opened
        refine .inr ⟨i, selected, ?_⟩
        change 0 ≤ ((v.fileHandles h).offset + nbytes).toInt
        rw [grown.offset nonneg inside]
        exact Int.add_nonneg nonneg positive.le
      · exact tame.handle h'
    · exact tame.handle h'

/-- Names of at most eight characters keep the bounds. -/
theorem Effect.tame {r : Reply} (effect : Effect v call r w) (tame : Tame v)
    (proper : Proper 8 v call) : Tame w := by
  cases effect with
  | noCreate _ => exact tame
  | create _ _ => exact tame.created _ (proper.1 _ rfl)
  | noOpen => exact tame
  | openFile here _ =>
    exact tame.putHandle _ (.inr ⟨_, index_ofIndex (by norm_num) _, le_rfl⟩)
  | noWrite _ _ frame => exact tame.congr frame
  | write selected grown => exact grown.tame tame selected (proper.2 _ rfl)
  | read => exact tame
  | readSeek seek => exact tame.lseek (proper.2 _ rfl) seek
  | lseek seek => exact tame.lseek (proper.2 _ rfl) seek
  | close => exact tame.putHandle _ (.inl rfl)
  | noDelete _ => exact tame
  | delete here gone =>
    exact tame.putInode gone.inode gone.fileHandles (fun j nonempty => absurd rfl nonempty)
      le_rfl (show (0 : Int32).toInt ≤ 256 by decide)

end Exec

/-! ## Written blocks -/

/-- The blocks in the slots of the inodes have been written, so that they can be read. -/
def Written (v : Store) : Prop := ∀ i j b, (v.inode i).slot j = some b → v.Readable b

section Written

variable {v w : Store} {i : Fin 8} {call : Call}

namespace Written

theorem fresh (junk : ℕ → Byte) : Written (Store.fresh junk) :=
  fun _ _ _ held => absurd rfl (Inode.ne_neg_one_of_slot held)

theorem congr (written : Written v)
    (slots : ∀ i, (w.inode i).directBlocks = (v.inode i).directBlocks)
    (length : v.length ≤ w.length) : Written w := by
  intro i j b held
  rw [Inode.slot, slots] at held
  exact (written i j b held).trans length

theorem created (written : Written v) {filename : CString} (short : filename.bytes.length ≤ 8) :
    Written (v.created i filename) :=
  written.congr (Store.created_directBlocks short) le_rfl

/-- A write leaves readable blocks in the slots that it covers. -/
theorem write (written : Written v) {h : Fin 20} {nbytes : Int32} (grown : Grown v h i nbytes w) :
    Written w := by
  intro i' j b held
  by_cases same : i' = i
  · subst same
    by_cases covers : Covers (v.fileHandles h).offset.toInt nbytes.toInt j
    · obtain ⟨b', held', readable⟩ := grown.held j covers
      obtain rfl : b' = b := Option.some.inj (held'.symm.trans held)
      exact readable
    · rw [Inode.slot, grown.kept j (.inr covers)] at held
      exact (written i' j b held).trans grown.length
  · rw [grown.other i' same] at held
    exact (written i' j b held).trans grown.length

theorem deleted (written : Written v) (gone : Gone v i w) : Written w := by
  intro i' j b held
  rw [gone.inode, Function.update_apply] at held
  split_ifs at held
  · exact absurd rfl (Inode.ne_neg_one_of_slot held)
  · exact (written i' j b held).trans gone.length

end Written

theorem Effect.written {r : Reply} (effect : Effect v call r w) (tame : Tame v)
    (proper : Proper 8 v call) (written : Written v) : Written w := by
  cases effect with
  | create _ _ => exact written.created (proper.1 _ rfl)
  | noWrite _ _ frame => exact written.congr (fun _ => by rw [frame.inode]) frame.length
  | write _ grown => exact written.write grown
  | readSeek seek | lseek seek =>
    obtain ⟨-, inode, length⟩ := tame.lseek_same (proper.2 _ rfl) seek
    exact written.congr (fun _ => by rw [inode]) length.ge
  | delete _ gone => exact written.deleted gone
  | _ => exact written.congr (fun _ => rfl) le_rfl

end Written

/-! ## Runs -/

/-- What holds of the image along every run of such a user. -/
def Calm (s : Machine) : Prop := Tame s.store ∧ 320 ≤ s.disk.length

theorem calm_format {s s₀ : Machine} (format : ssufsFormatDisk s = .ok ((), s₀)) : Calm s₀ := by
  obtain ⟨holds, long⟩ := holds_of_format format
  exact ⟨holds ▸ .fresh _, long⟩

/-- A step of a run is a step on the records. -/
theorem UserStep.stored {allowed : Store → Call → Prop} {s s' : Machine} {e : Call × Reply}
    (calm : Calm s) (step : UserStep allowed s e s') (proper : Proper 8 s.store e.1) :
    e.1.exec s.store = .ok (e.2, s'.store) ∧ 320 ≤ s'.disk.length := by
  refine (exec_implements e.1).ok calm.2 step.2 ?_
  rcases (exec_ends calm.1 proper.2).returns with ⟨f, fails, found⟩ | ⟨r, w, runs, -⟩
  · rw [fails]
    simpa using found
  · rw [runs]
    exact nofun

/-- A step of a run has one of the effects on the records. -/
theorem UserStep.effect {allowed : Store → Call → Prop} {s s' : Machine} {e : Call × Reply}
    (calm : Calm s) (step : UserStep allowed s e s') (proper : Proper 8 s.store e.1) :
    e.1.exec s.store = .ok (e.2, s'.store) ∧ Effect s.store e.1 e.2 s'.store ∧ Calm s' := by
  obtain ⟨runs, long⟩ := step.stored calm proper
  have effect : Effect s.store e.1 e.2 s'.store := by
    have ends := exec_ends calm.1 proper.2
    rwa [Ends, Prog.Ensures, runs] at ends
  exact ⟨runs, effect, effect.tame calm.1 proper, long⟩

end SsuOs.Ssufs
