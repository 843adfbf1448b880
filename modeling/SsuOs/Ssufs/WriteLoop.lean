import SsuOs.Ssufs.WriteBlocks

/-!
# What `ssufs_write` does

A call of `ssufs_write` that passes the size check has one of four outcomes: it completes, it runs
out of data blocks and takes back what it wrote, or, where it starts inside a block, it stops at a
block that was never written or runs past the end of its buffers at one without a NUL.
`ssufsWrite_cases` describes the store after each of them, for every offset, length, set of free
blocks and contents of uninitialised memory.
-/

namespace SsuOs.Ssufs

open ByteFile

/-- A write of `n` bytes at offset `o` of the file `inode` finds no block for slot `m`: the empty
slots before it take all free blocks. -/
structure RunsOut (v : Store) (inode : Inode) (o n : ℕ) (m : Fin 4) : Prop where
  after : o / 64 ≤ m
  before : 64 * m < o + n
  empty : inode.directBlocks m = -1
  count : inode.missing (o / 64) m = v.freeCount

instance (v : Store) (inode : Inode) (o n : ℕ) (m : Fin 4) : Decidable (RunsOut v inode o n m) :=
  decidable_of_iff (o / 64 ≤ m ∧ 64 * m < o + n ∧ inode.directBlocks m = -1 ∧
      inode.missing (o / 64) m = v.freeCount)
    ⟨fun h => ⟨h.1, h.2.1, h.2.2.1, h.2.2.2⟩, fun h => ⟨h.1, h.2, h.3, h.4⟩⟩

/-- A write runs out of blocks at one slot only. -/
theorem RunsOut.le {v : Store} {inode : Inode} {o n : ℕ} {m m' : Fin 4}
    (out : RunsOut v inode o n m) (out' : RunsOut v inode o n m') : m ≤ m' := by
  by_contra later
  have grows := Inode.missing_succ_empty out'.after out'.empty
  have mono : inode.missing (o / 64) (m' + 1) ≤ inode.missing (o / 64) m :=
    Inode.missing_mono (by omega)
  rw [grows, out.count, out'.count] at mono
  omega

/-- Slot `j` counts as restored, not as new, when a write at offset `o` is taken back; `x` is what
the uninitialised `rollback_index` holds. -/
def Restores (o : ℕ) (x : Int32) (j : Fin 4) : Prop :=
  if o % 64 = 0 then ofIndex j = x else j.val = o / 64

instance (o : ℕ) (x : Int32) (j : Fin 4) : Decidable (Restores o x j) :=
  inferInstanceAs (Decidable (if o % 64 = 0 then ofIndex j = x else j.val = o / 64))

namespace Request

variable {v : Store} {q : Request v} {t saved : Block} {x : Int32} {tmp : Inode} {w : Store}

/-! ## Outcomes -/

/-- The slot after the last one that the write touches. -/
def past (q : Request v) : ℕ := (q.o + q.n + 63) / 64

/-- The write is complete, with uninitialised memory `t` in the first buffer. -/
structure Completed (q : Request v) (t : Block) (tmp : Inode) (w' : Store) : Prop where
  plan : q.Plan q.past tmp
  filled : q.Filled t q.past tmp w'
  taken : ∀ j b, q.inode.directBlocks j = -1 → tmp.slot j = some b → w'.flag b = dataBlockUsed
  flag : ∀ b, (∀ j, q.inode.directBlocks j = -1 → tmp.slot j ≠ some b) → w'.flag b = v.flag b
  count : w'.freeCount + q.inode.missing q.first q.past = v.freeCount
  inodeFlag : w'.inodeFlag = v.inodeFlag
  inode : w'.inode =
    Function.update v.inode q.i { tmp with fileSize := tmp.fileSize + q.nbytes }
  fileHandles : w'.fileHandles = Function.update v.fileHandles q.fileHandle
    { v.fileHandles q.fileHandle with offset := (v.fileHandles q.fileHandle).offset + q.nbytes }

/-- What the slot at `rollback_index` gets back, when its block is `b` and `saved` is what the
uninitialised rollback buffer holds. -/
def restored (q : Request v) (saved : Block) (b : Fin 30) : Block :=
  if q.o % 64 = 0 then saved else strcpyBlock saved (v.block b)

/-- The write has been taken back after it found no block for slot `m`. -/
structure RolledBack (q : Request v) (saved : Block) (x : Int32) (m : Fin 4) (tmp : Inode)
    (w' : Store) : Prop where
  runsOut : RunsOut v q.inode q.o q.n m
  plan : q.Plan m tmp
  flag : ∀ j b, q.Touched m j → tmp.slot j = some b →
    w'.flag b = if Restores q.o x j then dataBlockUsed else dataBlockFree
  flag_other : ∀ b, (∀ j, q.Touched m j → tmp.slot j ≠ some b) → w'.flag b = v.flag b
  block : ∀ j b, q.Touched m j → tmp.slot j = some b →
    w'.block b = if Restores q.o x j then q.restored saved b else fun _ => 0
  block_other : ∀ b, (∀ j, q.Touched m j → tmp.slot j ≠ some b) → w'.block b = v.block b
  inodeFlag : w'.inodeFlag = v.inodeFlag
  inode : w'.inode = v.inode
  fileHandles : w'.fileHandles = v.fileHandles
  length : v.length ≤ w'.length

/-- The write starts inside the block `b`, which it loads. -/
def Loads (q : Request v) (b : Fin 30) : Prop :=
  ∃ j : Fin 4, j.val = q.first ∧ 64 * j < q.o ∧
    (q.inode.slot j = some b ∨ q.inode.directBlocks j = -1 ∧ v.firstFree = some b)

theorem Loads.unique {b c : Fin 30} (loads : q.Loads b) (loads' : q.Loads c) : b = c := by
  obtain ⟨j, start, -, origin⟩ := loads
  obtain ⟨k, start', -, origin'⟩ := loads'
  obtain rfl : j = k := Fin.ext (start.trans start'.symm)
  rcases origin with held | ⟨empty, found⟩ <;> rcases origin' with held' | ⟨empty', found'⟩
  · exact Option.some.inj (held.symm.trans held')
  · exact absurd empty' (Inode.ne_neg_one_of_slot held)
  · exact absurd empty (Inode.ne_neg_one_of_slot held')
  · exact Option.some.inj (found.symm.trans found')

/-- The block that the write loads, if it loads one, can be read and copied. -/
def Loaded (q : Request v) : Prop := ∀ b, q.Loads b → v.Readable b ∧ HasNul (v.block b)

/-! ## The loop invariant -/

/-- What `rollback` and `rollback_index` hold when the loop arrives at slot `a`. -/
structure Saved (q : Request v) (saved : Block) (x : Int32) (a : ℕ) (locals : WriteLocals) :
    Prop where
  initial : q.o % 64 = 0 ∨ 64 * a ≤ q.o → locals.rollbackIndex = x ∧ locals.rollback = saved
  loaded : q.o % 64 ≠ 0 → q.o < 64 * a → ∀ j b, j.val = q.first → locals.tmp.slot j = some b →
    locals.rollbackIndex = ofIndex j ∧ locals.rollback = strcpyBlock saved (v.block b)

/-- The block loop arrives at slot `a` with bytes left to write. -/
structure Reached (q : Request v) (t saved : Block) (x : Int32) (a : ℕ) (locals : WriteLocals)
    (w : Store) : Prop where
  plan : q.Plan a locals.tmp
  marked : q.Marked a locals.tmp w
  filled : q.Filled t a locals.tmp w
  more : 64 * a < q.o + q.n
  fOffset : locals.fOffset = (q.o - 64 * a : ℕ)
  curr : locals.curr = 64 * a - q.o
  isUsed : ∀ j, locals.isUsed j = 1 ↔ q.Touched a j
  tmpBuf : locals.tmpBuf = if 64 * a ≤ q.o then t else fun _ => 0
  saves : q.Saved saved x a locals
  early : a ≤ q.first → w.length = v.length
  loaded : q.first < a → q.Loaded

/-- The slot `i` that the loop has arrived at has the block `b`, which is to be filled. -/
structure Ready (q : Request v) (t : Block) (i : Fin 4) (b : Fin 30) (locals : WriteLocals)
    (w : Store) : Prop where
  after : q.first ≤ i
  held : locals.tmp.slot i = some b
  plan : q.Plan (i + 1) locals.tmp
  marked : q.Marked (i + 1) locals.tmp w
  filled : q.Filled t i locals.tmp w
  more : 64 * i < q.o + q.n
  fOffset : locals.fOffset = (q.o - 64 * i : ℕ)
  curr : locals.curr = 64 * i - q.o
  isUsed : ∀ j, locals.isUsed j = 1 ↔ q.Touched i j

theorem first_spec (q : Request v) : 64 * q.first ≤ q.o ∧ q.o < 64 * (q.first + 1) := by
  rw [first]
  omega

/-! ## One round of the loop -/

/-- The `int` by which the handle of the request knows its inode. -/
def fInode (q : Request v) : Int32 := (v.fileHandles q.fileHandle).inodeNumber

/-- The rest of the block loop of the request. -/
def loop (q : Request v) (l : List (Fin 4)) (locals : WriteLocals) : Ssu Store Int32 :=
  writeLoop q.fileHandle q.fInode q.buf q.nbytes l locals

variable {i : Fin 4} {b : Fin 30} {locals : WriteLocals}

theorem Reached.skip (reached : q.Reached t saved x i locals w) (early : i.val < q.first)
    (rest : List (Fin 4)) :
    ∃ locals', q.loop (i :: rest) locals w = q.loop rest locals' w ∧
      q.Reached t saved x (i + 1) locals' w := by
  have bounds := q.first_spec
  have old : q.inode.directBlocks i ≠ -1 ∨ i.val < q.first := .inr early
  have far : ¬ (0 ≤ locals.fOffset ∧ locals.fOffset < 64) := by
    rw [reached.fOffset]
    omega
  refine ⟨{ locals with fOffset := (q.o - 64 * (i + 1) : ℕ) }, ?_, ?_⟩
  · rw [loop, writeLoop, if_neg far, reached.fOffset]
    congr 2
    split_ifs <;> omega
  · refine ⟨reached.plan.pass old, reached.marked.pass old, reached.filled.pass early, ?_, rfl, ?_,
      fun j => ?_, ?_, ⟨?_, ?_⟩, fun _ => reached.early early.le, fun late => by omega⟩
    · have positive := q.positive
      omega
    · change locals.curr = _
      rw [reached.curr]
      omega
    · change locals.isUsed j = 1 ↔ _
      rw [reached.isUsed, touched_succ]
      exact (or_iff_left fun here => by omega).symm
    · change locals.tmpBuf = _
      rw [reached.tmpBuf, if_pos (by omega), if_pos (by omega)]
    · exact fun _ => reached.saves.initial (.inr (by omega))
    · intro unaligned beyond
      omega

/-- Before its first slot the loop gives no block to a slot. -/
theorem Reached.firstFree_eq {a : ℕ} (reached : q.Reached t saved x a locals w)
    (early : a ≤ q.first) : w.firstFree = v.firstFree := by
  have same : w.flag = v.flag := by
    refine funext fun b => reached.marked.flag b fun j empty held => ?_
    have touched := (reached.plan.fresh_of_slot empty held).1
    have := touched.1
    have := touched.2
    omega
  rw [Store.firstFree, Store.firstFree, same]

/-- The block loop has no block to give to slot `i`. -/
theorem Reached.runsOut (reached : q.Reached t saved x i locals w) (after : q.first ≤ i)
    (empty : q.inode.directBlocks i = -1) (full : w.firstFree = none) : RunsOut v q.inode q.o q.n i := by
  refine ⟨after, reached.more, empty, ?_⟩
  have count := reached.marked.count
  rwa [freeCount_of_full full, Nat.zero_add] at count

section Saved

variable {a : ℕ} {j : Fin 4}

theorem Touched.beyond (touched : q.Touched a j) : q.o < 64 * a := by
  have bounds := q.first_spec
  have := touched.1
  have := touched.2
  omega

/-- The test of the rollback loop for the restored slot. -/
theorem Saved.index_iff (saves : q.Saved saved x a locals) (plan : q.Plan a locals.tmp)
    (touched : q.Touched a j) : ofIndex j = locals.rollbackIndex ↔ Restores q.o x j := by
  unfold Restores
  split_ifs with aligned
  · rw [(saves.initial (.inl aligned)).1]
  · let k : Fin 4 := ⟨q.first, lt_of_le_of_lt touched.1 j.isLt⟩
    obtain ⟨b, held⟩ := plan.held (j := k) ⟨le_rfl, lt_of_le_of_lt touched.1 touched.2⟩
    rw [(saves.loaded aligned touched.beyond k b rfl held).1, ofIndex_inj (by norm_num)]
    exact Fin.ext_iff

theorem Saved.rollback_eq (saves : q.Saved saved x a locals) (touched : q.Touched a j)
    (held : locals.tmp.slot j = some b) (restores : Restores q.o x j) :
    locals.rollback = q.restored saved b := by
  unfold restored
  unfold Restores at restores
  split_ifs at restores ⊢ with aligned
  · exact (saves.initial (.inl aligned)).2
  · exact (saves.loaded aligned touched.beyond j b restores held).2

end Saved

/-- A round that finds no free block takes the write back. -/
theorem Reached.rollBack (reached : q.Reached t saved x i locals w) (after : q.first ≤ i)
    (empty : q.inode.directBlocks i = -1) (full : w.firstFree = none) (rest : List (Fin 4)) :
    ∃ w', q.loop (i :: rest) locals w = .ok (-1, w') ∧ q.RolledBack saved x i locals.tmp w' := by
  have bounds := q.first_spec
  have here : 0 ≤ locals.fOffset ∧ locals.fOffset < 64 := by
    rw [reached.fOffset]
    omega
  have empty' : locals.tmp.directBlocks i = -1 := reached.plan.directBlocks_self.trans empty
  have unchanged : Function.update locals.tmp.directBlocks i (-1) = locals.tmp.directBlocks := by
    rw [← empty', Function.update_eq_self]
  have alloc : (ssufsAllocDataBlock : Ssu Store Int32) w = .ok (-1, w) := by
    rw [ssufsAllocDataBlock_apply, full]
  obtain ⟨w', runs, back⟩ := rollBack_apply reached.plan.distinct (List.nodup_finRange 4)
    (fun j _ filled => reached.plan.held ((reached.isUsed j).1 filled)) w
    (fun j _ _ b held => reached.marked.used reached.plan held)
  have filled {j : Fin 4} (touched : q.Touched i j) : locals.isUsed j = 1 :=
    (reached.isUsed j).2 touched
  refine ⟨w', ?_, reached.runsOut after empty full, reached.plan, fun j b touched held => ?_,
    fun b unheld => ?_, fun j b touched held => ?_, fun b unheld => ?_, ?_, ?_, ?_, ?_⟩
  · rw [loop, writeLoop, if_pos here, if_pos empty', Prog.bind_ok alloc, if_pos rfl]
    simp only [unchanged]
    exact Prog.bind_ok runs
  · rw [back.flag j (List.mem_finRange j) (filled touched) b held]
    simp only [reached.saves.index_iff reached.plan touched]
  · rw [back.flag_other b fun j _ filled => unheld j ((reached.isUsed j).1 filled)]
    refine reached.marked.flag b fun j empty held => ?_
    exact unheld j (reached.plan.fresh_of_slot empty held).1 held
  · rw [back.block j (List.mem_finRange j) (filled touched) b held]
    simp only [reached.saves.index_iff reached.plan touched]
    split_ifs with restores
    · exact reached.saves.rollback_eq touched held restores
    · rw [reached.tmpBuf, if_neg (by have := touched.beyond; omega)]
  · rw [back.block_other b fun j _ filled => unheld j ((reached.isUsed j).1 filled)]
    exact reached.filled.other b unheld
  · exact back.inodeFlag.trans reached.marked.inodeFlag
  · exact back.inode.trans reached.marked.inode
  · exact back.fileHandles.trans reached.marked.fileHandles
  · exact reached.filled.length.trans back.length

/-- The part of a round that fills slot `i`. -/
def fillSlot (q : Request v) (i : Fin 4) (rest : List (Fin 4)) (locals : WriteLocals) :
    Ssu Store Int32 :=
  writeSlot q.fileHandle q.fInode q.buf q.nbytes i (q.loop rest) locals

/-- A round that finds a block for slot `i` goes on to fill it. -/
theorem Reached.ready (reached : q.Reached t saved x i locals w) (after : q.first ≤ i)
    (supply : q.inode.directBlocks i = -1 → w.firstFree ≠ none) (rest : List (Fin 4)) :
    ∃ b locals' w', q.loop (i :: rest) locals w = q.fillSlot i rest locals' w' ∧
      q.Ready t i b locals' w' ∧ locals'.tmpBuf = locals.tmpBuf ∧ q.Saved saved x i locals' ∧
      w'.length = w.length ∧
      (q.inode.slot i = some b ∨ q.inode.directBlocks i = -1 ∧ w.firstFree = some b) := by
  have bounds := q.first_spec
  have here : 0 ≤ locals.fOffset ∧ locals.fOffset < 64 := by
    rw [reached.fOffset]
    omega
  by_cases empty : q.inode.directBlocks i = -1
  · have empty' : locals.tmp.directBlocks i = -1 := reached.plan.directBlocks_self.trans empty
    obtain ⟨b, found⟩ := Option.ne_none_iff_exists'.1 (supply empty)
    have alloc : (ssufsAllocDataBlock : Ssu Store Int32) w =
        .ok (ofIndex b, w.setFlag b dataBlockUsed) := by
      rw [ssufsAllocDataBlock_apply, found]
    have free := firstFree_eq_some found
    obtain ⟨unheld, free'⟩ := reached.marked.free reached.plan free
    refine ⟨b, { locals with tmp := locals.tmp.setSlot i (ofIndex b) }, w.setFlag b dataBlockUsed,
      ?_, ?_, rfl, ?_, rfl, .inr ⟨empty, found⟩⟩
    · rw [loop, writeLoop, if_pos here, if_pos empty', Prog.bind_ok alloc,
        if_neg (ofIndex_ne_neg_one (by norm_num) b)]
      rfl
    · exact ⟨after, slot_give, reached.plan.give after empty unheld free',
        reached.marked.give reached.plan after empty free, reached.filled.give b, reached.more,
        reached.fOffset, reached.curr, reached.isUsed⟩
    · refine ⟨reached.saves.initial, fun unaligned beyond j c start held => ?_⟩
      refine reached.saves.loaded unaligned beyond j c start ?_
      rwa [← Inode.slot_setSlot_of_ne (j := i) (x := ofIndex b)]
      rintro rfl
      omega
  · obtain ⟨b, held⟩ := q.valid i empty
    have nonempty : locals.tmp.directBlocks i ≠ -1 := reached.plan.directBlocks_self ▸ empty
    refine ⟨b, locals, w, ?_, ?_, rfl, reached.saves, rfl, .inl held⟩
    · rw [loop, writeLoop, if_pos here, if_neg nonempty]
      rfl
    · exact ⟨after, reached.plan.slot_kept held, reached.plan.pass (.inl empty),
        reached.marked.pass (.inl empty), reached.filled, reached.more, reached.fOffset,
        reached.curr, reached.isUsed⟩

/-- The block to be filled is as it was before the call. -/
theorem Ready.block_eq (ready : q.Ready t i b locals w) : w.block b = v.block b := by
  refine ready.filled.other b fun j touched held => ?_
  obtain rfl := ready.plan.distinct j i b held ready.held
  exact not_touched_self j touched

theorem Ready.load_fails (ready : q.Ready t i b locals w) (inside : 64 * i < q.o)
    (short : ¬ w.Readable b) : loadSlot i locals w = .error .assertion := by
  have nonzero : locals.fOffset ≠ 0 := by
    rw [ready.fOffset]
    omega
  rw [loadSlot, if_pos nonzero]
  exact Prog.bind_error (readDataBlock_fails ready.held short)

theorem Ready.load_overruns (ready : q.Ready t i b locals w) (inside : 64 * i < q.o)
    (readable : w.Readable b) (endless : ¬ HasNul (w.block b)) :
    loadSlot i locals w = .error .outOfBounds := by
  have nonzero : locals.fOffset ≠ 0 := by
    rw [ready.fOffset]
    omega
  rw [loadSlot, if_pos nonzero, Prog.bind_ok (readDataBlock_ok ready.held readable)]
  exact Prog.bind_error (Prog.check_fail endless w)

/-- Before the data goes in, the buffer holds `base`. -/
theorem Ready.load (ready : q.Ready t i b locals w) (saves : q.Saved saved x i locals)
    (buffer : locals.tmpBuf = if 64 * i ≤ q.o then t else fun _ => 0)
    (fine : 64 * i < q.o → w.Readable b ∧ HasNul (w.block b)) :
    ∃ locals', loadSlot i locals w = .ok (locals', w) ∧ q.Ready t i b locals' w ∧
      locals'.tmpBuf = q.base t i b ∧ q.Saved saved x (i + 1) locals' := by
  have bounds := q.first_spec
  have after := ready.after
  by_cases inside : 64 * i < q.o
  · have start : i.val = q.first := by omega
    have nonzero : locals.fOffset ≠ 0 := by
      rw [ready.fOffset]
      omega
    refine ⟨{ locals with
      tmpBuf := w.block b, rollback := strcpyBlock locals.rollback (w.block b),
      rollbackIndex := ofIndex i }, ?_, ?_, ?_, ?_⟩
    · obtain ⟨readable, nul⟩ := fine inside
      rw [loadSlot, if_pos nonzero, Prog.bind_ok (readDataBlock_ok ready.held readable),
        Prog.bind_ok (Prog.check_pass nul w)]
      rfl
    · exact ⟨after, ready.held, ready.plan, ready.marked, ready.filled, ready.more, ready.fOffset,
        ready.curr, ready.isUsed⟩
    · rw [base, if_pos inside]
      exact ready.block_eq
    · refine ⟨fun early => by omega, fun _ _ j c start' held => ?_⟩
      obtain rfl : j = i := Fin.ext (start'.trans start.symm)
      obtain rfl : c = b := Option.some.inj (held.symm.trans ready.held)
      exact ⟨rfl, by rw [(saves.initial (.inr inside.le)).2, ready.block_eq]⟩
  · have zero : locals.fOffset = 0 := by
      rw [ready.fOffset]
      omega
    refine ⟨locals, ?_, ready, ?_, ?_⟩
    · rw [loadSlot, if_neg (not_not.2 zero), Prog.pure_apply]
    · rw [buffer, base, if_neg inside]
      exact if_congr (by omega) rfl rfl
    · refine ⟨fun early => saves.initial ?_, fun unaligned _ j c start held => ?_⟩
      · rcases early with aligned | early
        · exact .inl aligned
        · omega
      · exact saves.loaded unaligned (by omega) j c start held

/-- A round after `loadSlot`, in terms of positions in the file. -/
theorem Ready.fillSlot_eq (ready : q.Ready t i b locals w) {before : WriteLocals}
    (loads : loadSlot i before w = .ok (locals, w)) (buffer : locals.tmpBuf = q.base t i b)
    (rest : List (Fin 4)) :
    q.fillSlot i rest before w =
      (if q.o + q.n ≤ 64 * (i + 1) then do
          Disk.writeInode q.fInode { locals.tmp with fileSize := locals.tmp.fileSize + q.nbytes }
          let _ ← ssufsLseek q.fileHandle q.nbytes
          pure 0
        else
          q.loop rest { locals with
            fOffset := 0, curr := min q.n (64 * (i + 1) - q.o),
            isUsed := Function.update locals.isUsed i 1, tmpBuf := fun _ => 0 } :
        Ssu Store Int32) (w.putBlock b (overlay q.buf q.o q.n i (q.base t i b))) := by
  have bounds := q.first_spec
  have after := ready.after
  rw [fillSlot, writeSlot, Prog.bind_ok loads, q.count, ready.fOffset, ready.curr,
    Int.toNat_natCast, writeBytes_slot q.buf q.positive (by omega) ready.more, buffer]
  simp only [Prog.bind_ok (writeDataBlock_apply ready.held _ w), decide_eq_true_eq]

/-- A round that does not complete the write goes on to the next slot. -/
theorem Ready.next (ready : q.Ready t i b locals w) {before : WriteLocals}
    (loads : loadSlot i before w = .ok (locals, w)) (buffer : locals.tmpBuf = q.base t i b)
    (saves : q.Saved saved x (i + 1) locals) (loaded : q.Loaded)
    (unfinished : 64 * (i + 1) < q.o + q.n) (rest : List (Fin 4)) :
    ∃ locals' w', q.fillSlot i rest before w = q.loop rest locals' w' ∧
      q.Reached t saved x (i + 1) locals' w' := by
  have bounds := q.first_spec
  have after := ready.after
  refine ⟨{ locals with
    fOffset := 0, curr := min q.n (64 * (i + 1) - q.o),
    isUsed := Function.update locals.isUsed i 1, tmpBuf := fun _ => 0 }, _,
    (ready.fillSlot_eq loads buffer rest).trans (by rw [if_neg (by omega)]), ready.plan,
    ready.marked.putBlock b _,
    ready.filled.fill ready.plan.distinct after ready.held, unfinished, ?_, ?_, fun j => ?_, ?_,
    ⟨saves.initial, saves.loaded⟩, fun early => by omega, fun _ => loaded⟩
  · change (0 : ℤ) = _
    omega
  · change min q.n (64 * (i.val + 1) - q.o) = _
    omega
  · change Function.update locals.isUsed i 1 j = 1 ↔ _
    rw [touched_succ, Function.update_apply]
    split_ifs with same
    · simp [same, after]
    · rw [ready.isUsed]
      exact (or_iff_left fun here => same here.1).symm
  · exact (if_neg (by omega)).symm

/-- The round that completes the write. -/
theorem Ready.complete (ready : q.Ready t i b locals w) {before : WriteLocals}
    (loads : loadSlot i before w = .ok (locals, w)) (buffer : locals.tmpBuf = q.base t i b)
    (last : q.o + q.n ≤ 64 * (i + 1)) (rest : List (Fin 4)) :
    ∃ w', q.fillSlot i rest before w = .ok (0, w') ∧ q.Completed t locals.tmp w' := by
  have more := ready.more
  have within := q.within
  have past : q.past = i + 1 := by
    rw [Request.past]
    omega
  set filled := w.putBlock b (overlay q.buf q.o q.n i (q.base t i b)) with filled_eq
  set grown : Inode := { locals.tmp with fileSize := locals.tmp.fileSize + q.nbytes } with grown_eq
  have handles : (filled.putInode q.i grown).fileHandles = v.fileHandles :=
    ready.marked.fileHandles
  have grownSize : grown.fileSize.toInt = (q.f + q.n : ℕ) := ready.plan.grown
  have moved := q.moved
  have seek : ssufsLseek q.fileHandle q.nbytes (filled.putInode q.i grown) =
      .ok (0, (filled.putInode q.i grown).putHandle q.fileHandle
        { v.fileHandles q.fileHandle with
          offset := (v.fileHandles q.fileHandle).offset + q.nbytes }) := by
    rw [ssufsLseek_apply (i := q.i) (by rw [handles]; exact q.opened), handles, if_neg]
    rw [Store.putInode_inode, Function.update_self, Int32.lt_iff_toInt_lt, Int32.lt_iff_toInt_lt,
      moved, grownSize, ← Int32.toInt_inj, grownSize]
    have minus : (-1 : Int32).toInt = -1 := rfl
    have zero : (0 : Int32).toInt = 0 := rfl
    omega
  refine ⟨(filled.putInode q.i grown).putHandle q.fileHandle
    { v.fileHandles q.fileHandle with offset := (v.fileHandles q.fileHandle).offset + q.nbytes },
    (ready.fillSlot_eq loads buffer rest).trans ?_, ?_⟩
  · rw [if_pos last]
    refine (Prog.bind_ok (writeInode_apply q.opened grown filled)).trans ?_
    exact (Prog.bind_ok seek).trans rfl
  · obtain ⟨content, other, readable, length⟩ :=
      ready.filled.fill ready.plan.distinct ready.after ready.held
    obtain ⟨taken, flag, count, inodeFlag, inode, -⟩ := ready.marked
    refine ⟨past ▸ ready.plan, past ▸ ⟨content, other, readable, length⟩, taken, flag,
      past ▸ count, inodeFlag, ?_, ?_⟩
    · rw [← inode]
      rfl
    · rw [← handles]
      rfl

/-- A write that completes does not run out of blocks. -/
theorem Completed.not_runsOut {w' : Store} (complete : q.Completed t tmp w') (m : Fin 4) :
    ¬ RunsOut v q.inode q.o q.n m := by
  intro out
  have grows := Inode.missing_succ_empty out.after out.empty
  have before := out.before
  have mono : q.inode.missing q.first (m + 1) ≤ q.inode.missing q.first q.past :=
    Inode.missing_mono (by rw [past]; omega)
  have count := complete.count
  have total : q.inode.missing q.first m = v.freeCount := out.count
  rw [first] at *
  omega

/-! ## The whole call -/

/-- How a call can end. -/
inductive Outcome (q : Request v) (t saved : Block) (x : Int32) :
    Except Fault (Int32 × Store) → Prop
  | completed {tmp : Inode} {w' : Store} :
      q.Loaded → q.Completed t tmp w' → Outcome q t saved x (.ok (0, w'))
  | rolledBack {m : Fin 4} {tmp : Inode} {w' : Store} :
      q.Loaded → q.RolledBack saved x m tmp w' → Outcome q t saved x (.ok (-1, w'))
  | unreadable {b : Fin 30} :
      q.Loads b → ¬ v.Readable b → Outcome q t saved x (.error .assertion)
  | overruns {b : Fin 30} :
      q.Loads b → v.Readable b → ¬ HasNul (v.block b) → Outcome q t saved x (.error .outOfBounds)

/-- A round that can load the block of its slot leads to the next one or completes the write. -/
theorem Ready.round (ready : q.Ready t i b locals w) (saves : q.Saved saved x i locals)
    (buffer : locals.tmpBuf = if 64 * i ≤ q.o then t else fun _ => 0)
    (fine : 64 * i < q.o → w.Readable b ∧ HasNul (w.block b)) (loaded : q.Loaded)
    (rest : List (Fin 4)) :
    (∃ locals' w', q.fillSlot i rest locals w = q.loop rest locals' w' ∧
      q.Reached t saved x (i + 1) locals' w') ∨
      ∃ tmp w', q.fillSlot i rest locals w = .ok (0, w') ∧ q.Completed t tmp w' := by
  obtain ⟨locals', loads, ready', buffer', saves'⟩ := ready.load saves buffer fine
  by_cases last : q.o + q.n ≤ 64 * (i + 1)
  · obtain ⟨w', fills, complete⟩ := ready'.complete loads buffer' last rest
    exact .inr ⟨_, w', fills, complete⟩
  · exact .inl (ready'.next loads buffer' saves' loaded (by omega) rest)

/-- A round leads to the next one or ends the call. -/
theorem Reached.round (reached : q.Reached t saved x i locals w) (rest : List (Fin 4)) :
    (∃ locals' w', q.loop (i :: rest) locals w = q.loop rest locals' w' ∧
      q.Reached t saved x (i + 1) locals' w') ∨
      q.Outcome t saved x (q.loop (i :: rest) locals w) := by
  have bounds := q.first_spec
  by_cases early : i.val < q.first
  · obtain ⟨locals', skips, reached'⟩ := reached.skip early rest
    exact .inl ⟨locals', w, skips, reached'⟩
  have after : q.first ≤ i := not_lt.1 early
  by_cases out : q.inode.directBlocks i = -1 ∧ w.firstFree = none
  · obtain ⟨w', runs, back⟩ := reached.rollBack after out.1 out.2 rest
    refine .inr (runs ▸ .rolledBack ?_ back)
    rcases after.eq_or_lt with start | late
    · rintro b ⟨j, start', -, origin⟩
      obtain rfl : j = i := Fin.ext (start'.trans start)
      rcases origin with held | ⟨-, found⟩
      · exact absurd out.1 (Inode.ne_neg_one_of_slot held)
      · rw [← reached.firstFree_eq start.ge, out.2] at found
        cases found
    · exact reached.loaded late
  obtain ⟨b, locals', w', runs, ready, buffer, saves, length, origin⟩ :=
    reached.ready after (fun empty full => out ⟨empty, full⟩) rest
  rw [reached.tmpBuf] at buffer
  rw [runs]
  -- a write that starts inside the slot loads its block, which is as it was before the call
  have loads (inside : 64 * i < q.o) :
      q.Loads b ∧ (w'.Readable b ↔ v.Readable b) ∧ (HasNul (w'.block b) ↔ HasNul (v.block b)) := by
    have start : i.val = q.first := by omega
    refine ⟨⟨i, start, inside, ?_⟩, ?_, by rw [ready.block_eq]⟩
    · rwa [reached.firstFree_eq start.le] at origin
    · rw [Store.Readable, Store.Readable, length, reached.early start.le]
  by_cases short : 64 * i < q.o ∧ ¬ w'.Readable b
  · obtain ⟨load, readable, -⟩ := loads short.1
    have fails : q.fillSlot i rest locals' w' = .error .assertion :=
      Prog.bind_error (ready.load_fails short.1 short.2)
    exact .inr (fails ▸ .unreadable load fun here => short.2 (readable.2 here))
  by_cases unended : 64 * i < q.o ∧ ¬ HasNul (w'.block b)
  · obtain ⟨load, readable, nul⟩ := loads unended.1
    have here : w'.Readable b := not_not.1 fun unreadable => short ⟨unended.1, unreadable⟩
    have fails : q.fillSlot i rest locals' w' = .error .outOfBounds :=
      Prog.bind_error (ready.load_overruns unended.1 here unended.2)
    exact .inr (fails ▸ .overruns load (readable.1 here) fun ends => unended.2 (nul.2 ends))
  have fine (inside : 64 * i < q.o) : w'.Readable b ∧ HasNul (w'.block b) :=
    ⟨not_not.1 fun unreadable => short ⟨inside, unreadable⟩,
      not_not.1 fun endless => unended ⟨inside, endless⟩⟩
  have loaded : q.Loaded := by
    rcases after.eq_or_lt with start | late
    · intro c load
      have ⟨j, start', inside, _⟩ := load
      obtain rfl : j = i := Fin.ext (start'.trans start)
      obtain ⟨load', readable, nul⟩ := loads inside
      obtain rfl := load'.unique load
      exact ⟨readable.1 (fine inside).1, nul.1 (fine inside).2⟩
    · exact reached.loaded late
  rcases ready.round saves buffer fine loaded rest with next | ⟨tmp, w₁, fills, complete⟩
  · exact .inl next
  · exact .inr (fills ▸ .completed loaded complete)

/-- The slots suffice for every write that passes the size check. -/
theorem Reached.lt_four {a : ℕ} (reached : q.Reached t saved x a locals w) : a < 4 := by
  have more := reached.more
  have fits := q.fits
  have within := q.within
  omega

/-- The loop ends in one of the outcomes. -/
theorem Reached.outcome {a : ℕ} {l : List (Fin 4)} (reached : q.Reached t saved x a locals w)
    (suffix : (List.finRange 4).drop a = l) : q.Outcome t saved x (q.loop l locals w) := by
  induction l generalizing a locals w with
  | nil =>
    have past : 4 ≤ a := by simpa using suffix
    exact absurd reached.lt_four (not_lt.2 past)
  | cons i rest ih =>
    obtain ⟨rfl, suffix⟩ := of_drop_finRange suffix
    rcases reached.round rest with ⟨locals', w', runs, reached'⟩ | ends
    · rw [runs]
      exact ih reached' suffix
    · exact ends

theorem reached_start (q : Request v) (t saved : Block) (x : Int32) (junk : ℕ → Byte) :
    q.Reached t saved x 0
      { fOffset := (v.fileHandles q.fileHandle).offset.toInt, curr := 0, tmpBuf := t,
        rollback := saved, rollbackIndex := x, isUsed := fun _ => -1, tmp := v.inode q.i }
      { v with junk := junk } := by
  have untouched (j : Fin 4) : ¬ q.Touched 0 j := fun touched => Nat.not_lt_zero _ touched.2
  constructor
  · exact .start
  · refine ⟨fun j b empty held => absurd empty (Inode.ne_neg_one_of_slot held), fun _ _ => rfl, ?_,
      rfl, rfl, rfl⟩
    rw [Inode.missing_zero]
    rfl
  · exact ⟨fun j _ touched => absurd touched (untouched j), fun _ _ => rfl,
      fun j _ touched => absurd touched (untouched j), le_rfl⟩
  · have positive := q.positive
    omega
  · exact q.offset
  · simp
  · intro j
    simp only [untouched, iff_false]
    decide
  · simp
  · refine ⟨fun _ => ⟨rfl, rfl⟩, fun _ beyond => ?_⟩
    omega
  · exact fun _ => rfl
  · exact fun late => absurd late (Nat.not_lt_zero _)

end Request

/-- What the buffer of `ssufs_write` holds before it is filled. -/
def Store.tmpBuf (v : Store) : Block := fun p => v.junk p

/-- What the rollback buffer of `ssufs_write` holds before it is filled. -/
def Store.rollback (v : Store) : Block := fun p => v.junk (64 + p)

/-- What `rollback_index` holds before it is set. -/
def Store.rollbackIndex (v : Store) : Int32 := ofLE fun k => v.junk (64 + (64 + k))

/-- A write that would make the file too long is refused. -/
theorem ssufsWrite_refused {v : Store} {h : Fin 20} {i : Fin 8}
    (selected : index 8 (v.fileHandles h).inodeNumber = some i) (buf : ℕ → Byte) {nbytes : Int32}
    (nonneg : 0 ≤ (v.inode i).fileSize.toInt)
    (big : 256 < (v.inode i).fileSize.toInt + nbytes.toInt)
    (noOverflow : (v.inode i).fileSize.toInt + nbytes.toInt < 2 ^ 31) :
    ∃ junk, ssufsWrite h buf nbytes v = .ok (-1, { v with junk := junk }) := by
  have fails : (256 : Int32) < (v.inode i).fileSize + nbytes := by
    rw [Int32.lt_iff_toInt_lt]
    have sum := toInt_add_cases (y := nbytes) nonneg
    have bound : (256 : Int32).toInt = 256 := rfl
    omega
  rw [ssufsWrite, Prog.bind_ok (show Disk.fileHandleArray v = _ from rfl),
    Prog.bind_ok (show Disk.uninit 64 v = _ from rfl),
    Prog.bind_ok (show Disk.uninit 64 _ = _ from rfl),
    Prog.bind_ok (show Disk.uninit 4 _ = _ from rfl), Prog.bind_ok (readInode_apply selected _),
    if_pos fails]
  exact ⟨_, rfl⟩

/-- A call of `ssufs_write` that passes the size check comes to its block loop. -/
theorem ssufsWrite_loop {v : Store} (q : Request v) :
    ∃ locals junk, ssufsWrite q.fileHandle q.buf q.nbytes v =
        q.loop (List.finRange 4) locals { v with junk := junk } ∧
      q.Reached v.tmpBuf v.rollback v.rollbackIndex 0 locals { v with junk := junk } := by
  have fits := q.fits
  have size : ((v.inode q.i).fileSize + q.nbytes).toInt = (q.f + q.n : ℕ) :=
    toInt_add_of_nat q.size q.count (by omega)
  have passes : ¬ (256 : Int32) < (v.inode q.i).fileSize + q.nbytes := by
    rw [Int32.lt_iff_toInt_lt, size]
    have bound : (256 : Int32).toInt = 256 := rfl
    omega
  refine ⟨_, fun k => v.junk (64 + (64 + (4 + k))), ?_,
    q.reached_start v.tmpBuf v.rollback v.rollbackIndex _⟩
  rw [ssufsWrite, Prog.bind_ok (show Disk.fileHandleArray v = _ from rfl),
    Prog.bind_ok (show Disk.uninit 64 v = _ from rfl),
    Prog.bind_ok (show Disk.uninit 64 _ = _ from rfl),
    Prog.bind_ok (show Disk.uninit 4 _ = _ from rfl), Prog.bind_ok (readInode_apply q.opened _),
    if_neg passes]
  rfl

/-- Every call of `ssufs_write` that passes the size check completes, is taken back, or stops at the
block that it loads. -/
theorem ssufsWrite_cases {v : Store} (q : Request v) :
    q.Outcome v.tmpBuf v.rollback v.rollbackIndex (ssufsWrite q.fileHandle q.buf q.nbytes v) := by
  obtain ⟨locals, junk, runs, reached⟩ := ssufsWrite_loop q
  rw [runs]
  exact reached.outcome rfl

end SsuOs.Ssufs
