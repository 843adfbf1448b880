import SsuOs.Ssufs.Effects

/-!
# The blocks of an append

A write at the end of its file takes free blocks for empty slots. If it runs out of them it gives
back those that it has filled, after it has put zeros into them; the block that it started in, if
there was one, is the slot at `rollback_index` and stays. So a write frees no block that was in use
before, and erases the blocks that it frees (`Backed.write`), for every number of bytes and also
where the size overflows.
-/

namespace SsuOs.Ssufs

/-- A block that is free in `w` was free in `v` and is as it was there, or holds zeros. -/
def Erases (v w : Store) : Prop :=
  ∀ b, w.flag b = dataBlockFree →
    v.flag b = dataBlockFree ∧ w.block b = v.block b ∨ ∀ p, w.block b p = 0

/-- What a write to the file with inode `i` does to the blocks: none that was in use is freed, and
empty slots get free blocks. -/
structure Supplied (v : Store) (i : Fin 8) (w : Store) : Prop where
  erases : Erases v w
  stays : ∀ b, v.flag b = dataBlockUsed → w.flag b = dataBlockUsed
  slots : ∀ j b, (w.inode i).slot j = some b →
    (v.inode i).slot j = some b ∨ v.flag b = dataBlockFree ∧ w.flag b = dataBlockUsed
  distinct : (w.inode i).Distinct

section Blocks

variable {v w : Store} {h : Fin 20} {i : Fin 8} {nbytes : Int32} {o a : ℕ} {tmp : Inode}
  {locals : WriteLocals} {j : Fin 4} {b : Fin 30}

/-- The blocks while the block loop of a write takes free ones for the slots of its local inode. -/
structure Taking (v : Store) (i : Fin 8) (tmp : Inode) (w : Store) : Prop where
  frame : Frame v w
  untouched : ∀ b, w.flag b = dataBlockFree → v.flag b = dataBlockFree ∧ w.block b = v.block b
  stays : ∀ b, v.flag b = dataBlockUsed → w.flag b = dataBlockUsed
  used : ∀ j b, tmp.slot j = some b → w.flag b = dataBlockUsed
  origin : ∀ j b, tmp.slot j = some b → (v.inode i).slot j = some b ∨ v.flag b = dataBlockFree
  distinct : tmp.Distinct

namespace Taking

/-- A free block is given to slot `j`. -/
theorem take (taking : Taking v i tmp w) (free : w.flag b = dataBlockFree) (j : Fin 4) :
    Taking v i (tmp.setSlot j (ofIndex b)) (w.setFlag b dataBlockUsed) := by
  have given := index_ofIndex (show 30 ≤ 2 ^ 31 by norm_num) b
  have flags (c : Fin 30) : (w.setFlag b dataBlockUsed).flag c =
      if c = b then dataBlockUsed else w.flag c := Function.update_apply ..
  have other {k : Fin 4} {c : Fin 30} (held : tmp.slot k = some c) : c ≠ b := by
    rintro rfl
    exact dataBlockUsed_ne_free ((taking.used k c held).symm.trans free)
  refine ⟨taking.frame.trans (.setFlag b _), fun c free' => ?_, fun c used => ?_,
    fun k c held => ?_, fun k c held => ?_, fun k k' c held held' => ?_⟩
  · rw [flags] at free'
    split_ifs at free'
    · exact absurd free' dataBlockUsed_ne_free
    · exact taking.untouched c free'
  · rw [flags]
    split_ifs
    · rfl
    · exact taking.stays c used
  · rw [Inode.slot_setSlot] at held
    rw [flags]
    split_ifs at held
    · rw [if_pos (Option.some.inj (given.symm.trans held)).symm]
    · rw [if_neg (other held)]
      exact taking.used k c held
  · rw [Inode.slot_setSlot] at held
    split_ifs at held
    · obtain rfl := Option.some.inj (given.symm.trans held)
      exact .inr (taking.untouched b free).1
    · exact taking.origin k c held
  · rw [Inode.slot_setSlot] at held held'
    split_ifs at held held' with here here' here'
    · exact here.trans here'.symm
    · exact absurd (Option.some.inj (given.symm.trans held)).symm (other held')
    · exact absurd (Option.some.inj (given.symm.trans held')).symm (other held)
    · exact taking.distinct k k' c held held'

/-- A block in use is filled. -/
theorem fill (taking : Taking v i tmp w) (used : w.flag b = dataBlockUsed) (buf : Block) :
    Taking v i tmp (w.putBlock b buf) := by
  refine ⟨taking.frame.trans (.putBlock b buf), fun c free => ?_, taking.stays, taking.used,
    taking.origin, taking.distinct⟩
  obtain ⟨free', same⟩ := taking.untouched c free
  refine ⟨free', Eq.trans (Function.update_of_ne ?_ ..) same⟩
  rintro rfl
  exact dataBlockUsed_ne_free (used.symm.trans free)

/-- The write ends with the slots of the local inode in the inode of the file. -/
theorem supplied (taking : Taking v i tmp w) {w' : Store} (flag : w'.flag = w.flag)
    (block : w'.block = w.block) (inode : (w'.inode i).directBlocks = tmp.directBlocks) :
    Supplied v i w' := by
  have slot (j : Fin 4) : (w'.inode i).slot j = tmp.slot j := by
    rw [Inode.slot, Inode.slot, inode]
  refine ⟨fun b free => ?_, fun b used => ?_, fun j b held => ?_, fun j j' b held held' => ?_⟩
  · rw [flag] at free
    rw [block]
    exact .inl (taking.untouched b free)
  · rw [flag]
    exact taking.stays b used
  · rw [slot] at held
    rw [flag]
    exact (taking.origin j b held).imp_right fun free => ⟨free, taking.used j b held⟩
  · rw [slot] at held held'
    exact taking.distinct j j' b held held'

end Taking

/-- A rollback at this point puts zeros into the blocks that it frees, and frees none that the file
had before. -/
structure Reverts (v : Store) (i : Fin 8) (locals : WriteLocals) : Prop where
  held : ∀ j, locals.isUsed j = 1 → ∃ b, locals.tmp.slot j = some b
  zero : ∀ j, locals.isUsed j = 1 → ∀ p, locals.tmpBuf p = 0
  restores : ∀ j, locals.isUsed j = 1 → (v.inode i).directBlocks j ≠ -1 →
    ofIndex j = locals.rollbackIndex

/-- The file with inode `i` has blocks of its own, in the slots before the offset `o`. -/
structure Backed (v : Store) (i : Fin 8) (o : ℕ) : Prop where
  valid : (v.inode i).Valid
  used : ∀ j b, (v.inode i).slot j = some b → v.flag b = dataBlockUsed
  distinct : (v.inode i).Distinct
  blocks : ∀ j : Fin 4, (v.inode i).directBlocks j ≠ -1 ↔ 64 * j.val < o

theorem Backed.start (backed : Backed v i o) (frame : Frame v w) (untouched : ∀ b,
      w.flag b = dataBlockFree → v.flag b = dataBlockFree ∧ w.block b = v.block b)
    (stays : ∀ b, v.flag b = dataBlockUsed → w.flag b = dataBlockUsed) :
    Taking v i (v.inode i) w :=
  ⟨frame, untouched, stays, fun j b held => stays b (backed.used j b held), fun _ _ => .inl,
    backed.distinct⟩

/-- A write that ends without a change of the inode. -/
theorem Backed.supplied (backed : Backed v i o) (taking : Taking v i tmp w) : Supplied v i w :=
  (backed.start taking.frame taking.untouched taking.stays).supplied rfl rfl
    (by rw [taking.frame.inode])

/-- What a rollback does. -/
theorem Backed.rollBack (backed : Backed v i o) (taking : Taking v i locals.tmp w)
    (reverts : Reverts v i locals) :
    Ends ((List.finRange 4).foldlM (rollBackSlot locals) ()) w fun _ w' => Supplied v i w' := by
  obtain ⟨w', runs, back⟩ := rollBack_apply taking.distinct (List.nodup_finRange 4)
    (fun j _ => reverts.held j) w (fun j _ _ => taking.used j)
  refine .of_ok runs ?_
  have inode : w'.inode i = v.inode i := by rw [back.inode, taking.frame.inode]
  have filled (b : Fin 30) : (∀ j ∈ List.finRange 4, locals.isUsed j = 1 →
      locals.tmp.slot j ≠ some b) ∨ ∃ j, locals.isUsed j = 1 ∧ locals.tmp.slot j = some b := by
    by_cases touched : ∃ j, locals.isUsed j = 1 ∧ locals.tmp.slot j = some b
    · exact .inr touched
    · exact .inl fun j _ used held => touched ⟨j, used, held⟩
  refine ⟨fun b free => ?_, fun b used => ?_, fun j b held => ?_, ?_⟩
  · rcases filled b with none_filled | ⟨j, used, held⟩
    · rw [back.flag_other b none_filled] at free
      rw [back.block_other b none_filled]
      exact .inl (taking.untouched b free)
    · rw [back.flag j (List.mem_finRange j) used b held] at free
      split_ifs at free with restored
      · exact absurd free dataBlockUsed_ne_free
      · rw [back.block j (List.mem_finRange j) used b held, if_neg restored]
        exact .inr (reverts.zero j used)
  · rcases filled b with none_filled | ⟨j, filled, held⟩
    · rw [back.flag_other b none_filled]
      exact taking.stays b used
    · rw [back.flag j (List.mem_finRange j) filled b held, if_pos]
      rcases taking.origin j b held with old | free
      · exact reverts.restores j filled (Inode.ne_neg_one_of_slot old)
      · exact absurd (used.symm.trans free) dataBlockUsed_ne_free
  · rw [inode] at held
    exact .inl held
  · rw [inode]
    exact backed.distinct

variable {buf : ℕ → Byte}

/-- Moving a handle ends the call with the same blocks and inodes. -/
theorem ssufsLseek_ends {Q : Int32 → Store → Prop}
    (selected : index 8 (w.fileHandles h).inodeNumber = some i) {nseek : Int32}
    (post : ∀ x fileHandles, Q x { w with fileHandles := fileHandles }) :
    Ends (ssufsLseek h nseek) w Q := by
  have seek := ssufsLseek_apply selected nseek
  split_ifs at seek
  · exact .of_ok seek (post _ w.fileHandles)
  · exact .of_ok seek (post _ _)

/-- The part of a round that fills slot `j`, which holds block `b`. -/
theorem Backed.writeSlot {next : WriteLocals → Ssu Store Int32} (backed : Backed v i o)
    (selected : index 8 (v.fileHandles h).inodeNumber = some i) (arrived : Arrived o j locals)
    (after : o / 64 ≤ j) (slot : locals.tmp.slot j = some b) (taking : Taking v i locals.tmp w)
    (reverts : Reverts v i locals)
    (goes : ∀ locals' w', Arrived o (j + 1) locals' → Taking v i locals'.tmp w' →
      Reverts v i locals' → locals'.tmp = locals.tmp → Ends (next locals') w' fun _ => Supplied v i) :
    Ends (writeSlot h (v.fileHandles h).inodeNumber buf nbytes j next locals) w
      fun _ => Supplied v i := by
  have fOffset := arrived.fOffset
  refine .bind (loadSlot_ends slot arrived fun loaded arrived same isUsed rollbackIndex => ?_)
  -- a slot that had a block is the one that the write starts in, and the first one it fills
  have restores (k : Fin 4) (filled : loaded.isUsed k = 1 ∨ k = j)
      (old : (v.inode i).directBlocks k ≠ -1) : ofIndex k = loaded.rollbackIndex := by
    have before := (backed.blocks k).1 old
    rcases filled with filled | rfl
    · have touched := arrived.isUsed k filled
      rw [rollbackIndex, if_pos (by omega)]
      exact reverts.restores k (isUsed ▸ filled) old
    · rw [rollbackIndex, if_neg (by omega)]
  rw [← same] at slot taking
  obtain ⟨-, continues⟩ := writeBytes_curr_eq buf nbytes.toInt (64 - loaded.fOffset.toNat)
    loaded.tmpBuf loaded.curr
  generalize writeBytes buf nbytes.toInt (64 - loaded.fOffset.toNat) loaded.tmpBuf loaded.curr =
    result at continues
  obtain ⟨block, taken, complete⟩ := result
  have filled := taking.fill (taking.used j b slot) block
  refine .bind (writeDataBlock_ends slot ?_)
  cases complete with
  | true =>
    refine .bind (.of_ok (writeInode_apply selected _ _) (.bind (ssufsLseek_ends (i := i) ?_ ?_)))
    · rw [Store.putInode_fileHandles, filled.frame.fileHandles]
      exact selected
    · intro x fileHandles
      refine .pure (filled.supplied rfl rfl ?_)
      change (Function.update (w.putBlock b block).inode i _ i).directBlocks = _
      rw [Function.update_self]
  | false =>
    refine goes _ _ (arrived.next after (continues nofun)) filled
      ⟨fun k used => ?_, fun _ _ _ => rfl, fun k used => restores k ?_⟩ same
    · change Function.update loaded.isUsed j 1 k = 1 at used
      rw [Function.update_apply, isUsed] at used
      split_ifs at used with here
      · rw [here]
        exact ⟨b, slot⟩
      · change ∃ b, loaded.tmp.slot k = some b
        rw [same]
        exact reverts.held k used
    · change Function.update loaded.isUsed j 1 k = 1 at used
      rw [Function.update_apply] at used
      split_ifs at used with here
      · exact .inr here
      · exact .inl used

/-- The block loop from slot `a` on. -/
theorem Backed.writeLoop (backed : Backed v i o)
    (selected : index 8 (v.fileHandles h).inodeNumber = some i) {l : List (Fin 4)}
    (suffix : (List.finRange 4).drop a = l) (arrived : Arrived o a locals)
    (taking : Taking v i locals.tmp w) (reverts : Reverts v i locals)
    (kept : ∀ j : Fin 4, a ≤ j → locals.tmp.directBlocks j = (v.inode i).directBlocks j) :
    Ends (writeLoop h (v.fileHandles h).inodeNumber buf nbytes l locals) w
      fun _ => Supplied v i := by
  induction l generalizing a locals w with
  | nil => exact .pure (backed.supplied taking)
  | cons j rest ih =>
    obtain ⟨rfl, suffix⟩ := of_drop_finRange suffix
    have self := kept j le_rfl
    refine arrived.round ?_ (fun _ _ _ => backed.rollBack taking reverts)
      (fun b after empty free => ?_) fun after nonempty => ?_
    · rintro locals' arrived tmp isUsed tmpBuf rollbackIndex -
      refine ih suffix arrived (by rwa [tmp]) ?_ fun k later => ?_
      · obtain ⟨held, zero, restores⟩ := reverts
        constructor
        · rwa [isUsed, tmp]
        · rwa [isUsed, tmpBuf]
        · rwa [isUsed, rollbackIndex]
      · rw [tmp]
        exact kept k (by omega)
    · refine backed.writeSlot selected ⟨arrived.fOffset, arrived.curr, arrived.isUsed⟩ after
        (b := b) ((Inode.slot_setSlot ..).trans ((if_pos rfl).trans ?_))
        (taking.take (firstFree_eq_some free) j) ⟨fun k used => ?_, reverts.zero,
          reverts.restores⟩ fun locals' w' arrived taking reverts same => ?_
      · exact index_ofIndex (by norm_num) b
      · obtain ⟨c, held⟩ := reverts.held k used
        refine ⟨c, (Inode.slot_setSlot_of_ne ?_ _).trans held⟩
        rintro rfl
        exact lt_irrefl _ (arrived.isUsed k used).2
      · refine ih suffix arrived taking reverts fun k later => ?_
        rw [same]
        refine (Function.update_of_ne ?_ ..).trans (kept k (by omega))
        rintro rfl
        omega
    · obtain ⟨b, held⟩ := backed.valid j (self ▸ nonempty)
      have slot : locals.tmp.slot j = some b := by
        rw [Inode.slot, self]
        exact held
      refine backed.writeSlot selected arrived after slot taking reverts
        fun locals' w' arrived taking reverts same => ?_
      refine ih suffix arrived taking reverts fun k later => ?_
      rw [same]
      exact kept k (by omega)

/-- Every write that starts at the end of its file supplies it with blocks and erases what it takes
back. -/
theorem Backed.write (backed : Backed v i o)
    (selected : index 8 (v.fileHandles h).inodeNumber = some i)
    (offset : (v.fileHandles h).offset.toInt = o) (buf : ℕ → Byte) (nbytes : Int32) :
    Ends (ssufsWrite h buf nbytes) v fun _ => Supplied v i := by
  have start (junk : ℕ → Byte) : Taking v i (v.inode i) { v with junk := junk } :=
    backed.start ⟨rfl, rfl, rfl, le_rfl⟩ (fun _ free => ⟨free, rfl⟩) fun _ used => used
  refine ssufsWrite_start selected offset (fun junk _ => backed.supplied (start junk))
    fun locals junk _ arrived tmp unused => ?_
  refine backed.writeLoop (a := 0) selected rfl arrived (tmp ▸ start junk)
    ⟨fun j used => absurd used (unused j), fun j used => absurd used (unused j),
      fun j used => absurd used (unused j)⟩ fun _ _ => by rw [tmp]

end Blocks

end SsuOs.Ssufs
