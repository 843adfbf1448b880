import SsuOs.Ssufs.Sizes
import SsuOs.Ssufs.Supply

/-!
# What deleted files leave behind

`ssufs_create` takes an inode as it finds it on the disk. A new file is empty as long as no write
goes to an inode that is not in use, through a handle that has outlived its file
(`createsEmpty_of_writesFiles`).

Data blocks come back to the free list when a file is deleted and when an unfinished write is taken
back. The latter fills them with zeros; the former clears the eight bytes that `sizeof` says of a
pointer. Along a run of appends the free blocks hold nothing exactly if deleted files had nothing
behind those bytes (`erased_iff_clearsBlocks`).
-/

namespace SsuOs.Ssufs

/-! ## New files -/

/-- A call of `ssufs_create` that returns an inode leaves it without size and blocks. -/
def CreatesEmpty (e : Event Machine (Call × Reply)) : Prop :=
  ∀ filename r, e.label.1 = .create filename → e.label.2.value = some r → 0 ≤ r.toInt →
    ∃ i, index 8 r = some i ∧ (e.after.store.inode i).fileSize = 0 ∧
      ∀ j, (e.after.store.inode i).directBlocks j = -1

/-- If the call is a write that there is room for, it goes to an inode in use. -/
def WritesFiles (v : Store) : Call → Prop
  | .write h _ nbytes => ∀ i, index 8 (v.fileHandles h).inodeNumber = some i →
      Room v h i nbytes → v.inodeFlag i = inodeInUse
  | _ => True

instance (v : Store) : ∀ call : Call, Decidable (WritesFiles v call)
  | .write _ _ _ => inferInstanceAs (Decidable (∀ _, _ → _ → _))
  | .create _ | .openFile _ | .read _ _ | .lseek _ _ | .close _ | .delete _ => .isTrue trivial

/-- Inodes that are not in use have no size and no blocks. -/
def UnusedEmpty (v : Store) : Prop :=
  ∀ i, v.inodeFlag i = inodeFree → (v.inode i).fileSize = 0 ∧ ∀ j, (v.inode i).directBlocks j = -1

section NewFiles

variable {v w : Store} {call : Call} {r : Reply}

theorem UnusedEmpty.congr (unused : UnusedEmpty v) (inodeFlag : w.inodeFlag = v.inodeFlag)
    (inode : w.inode = v.inode) : UnusedEmpty w := by
  rw [UnusedEmpty, inodeFlag, inode]
  exact unused

/-- Only the inode `i` is not as before, and it is in use or empty. -/
theorem UnusedEmpty.update (unused : UnusedEmpty v) (i : Fin 8)
    (inodeFlag : ∀ i', i' ≠ i → w.inodeFlag i' = v.inodeFlag i')
    (inode : ∀ i', i' ≠ i → w.inode i' = v.inode i')
    (fine : w.inodeFlag i = inodeFree →
      (w.inode i).fileSize = 0 ∧ ∀ j, (w.inode i).directBlocks j = -1) : UnusedEmpty w := by
  intro i' free
  by_cases same : i' = i
  · subst same
    exact fine free
  · rw [inodeFlag i' same] at free
    rw [inode i' same]
    exact unused i' free

/-- Calls that write only to files keep unused inodes empty. -/
theorem Effect.unusedEmpty (effect : Effect v call r w) (tame : Tame v) (proper : Proper 7 v call)
    (files : WritesFiles v call) (unused : UnusedEmpty v) : UnusedEmpty w := by
  cases effect with
  | @create filename i _ _ =>
    refine unused.update i (fun i' other => Function.update_of_ne other ..)
      (fun i' other => Function.update_of_ne other ..) fun free => ?_
    rw [Store.created_inodeFlag, if_pos rfl] at free
    exact absurd free inodeInUse_ne_free
  | noWrite _ _ frame => exact unused.congr frame.inodeFlag frame.inode
  | @write _ _ _ i _ selected grown =>
    refine unused.update i (fun i' _ => by rw [grown.inodeFlag]) grown.other fun free => ?_
    rw [grown.inodeFlag, files i selected grown.room] at free
    exact absurd free inodeInUse_ne_free
  | readSeek seek | lseek seek =>
    obtain ⟨inodeFlag, inode, -⟩ := tame.lseek_same (proper.2 _ rfl) seek
    exact unused.congr inodeFlag inode
  | @delete _ i _ _ gone =>
    refine unused.update i (fun i' other => ?_) (fun i' other => ?_) fun _ => ?_
    · rw [gone.inodeFlag, Function.update_of_ne other]
    · rw [gone.inode, Function.update_of_ne other]
    · rw [gone.inode, Function.update_self]
      exact ⟨rfl, fun _ => rfl⟩
  | _ => exact unused.congr rfl rfl

/-- A new file gets an inode that was empty. -/
theorem Effect.createsEmpty {x y : Machine} (effect : Effect x.store call r y.store)
    (proper : Proper 7 x.store call) (unused : UnusedEmpty x.store) :
    CreatesEmpty ⟨x, (call, r), y⟩ := by
  rintro filename n rfl value nonneg
  dsimp only at value ⊢
  generalize y.store = w at effect ⊢
  cases effect with
  | noCreate =>
    cases value
    exact absurd nonneg (by decide)
  | @create _ i _ free =>
    cases value
    have short := proper.1 filename rfl
    obtain ⟨empty, bare⟩ := unused i (firstFreeInode_eq_some free)
    refine ⟨i, index_ofIndex (by norm_num) i, ?_, fun j => ?_⟩
    · rw [Store.created_fileSize short]
      exact empty
    · rw [Store.created_directBlocks (by omega)]
      exact bare j

end NewFiles

/-- Along every run with names of at most seven characters in which no write that there is room for
goes to an inode that is not in use, new files are empty. -/
theorem createsEmpty_of_writesFiles {s s₀ t : Machine} {l : List (Event Machine (Call × Reply))}
    (format : ssufsFormatDisk s = .ok ((), s₀)) (run : Run (UserStep (Proper 7)) s₀ l t)
    (files : ∀ e ∈ l, WritesFiles e.before.store e.label.1) : ∀ e ∈ l, CreatesEmpty e := by
  have start : UnusedEmpty s₀.store := by
    rw [(holds_of_format format).1]
    exact fun _ _ => ⟨rfl, fun _ => rfl⟩
  refine (run.history_of_forall
    (I := fun l x => (∀ e ∈ l, CreatesEmpty e) ∧ UnusedEmpty x.store ∧ Calm x)
    ⟨by simp, start, calm_format format⟩ ?_ files).1
  rintro l x a y ⟨empty, unused, calm⟩ step files
  obtain ⟨-, effect, calm'⟩ := step.effect calm (step.1.mono (by norm_num))
  refine ⟨?_, effect.unusedEmpty calm.1 step.1 files unused, calm'⟩
  simp only [List.forall_mem_append, List.forall_mem_singleton]
  exact ⟨empty, effect.createsEmpty step.1 unused⟩

/-- A file is written and deleted while it is open, a longer write to it is refused, and its inode is
used again. -/
theorem createsEmpty_of_writesFiles_reuse :
    ∃ s₀ l t, ssufsFormatDisk (bootWith 255) = .ok ((), s₀) ∧
      Run (UserStep (Proper 7)) s₀ l t ∧ t.store.lookup (letter 1) = some 0 ∧
        (∀ e ∈ l, WritesFiles e.before.store e.label.1) ∧ ∀ e ∈ l, CreatesEmpty e := by
  have ends : (replay (fun v call => Proper 7 v call ∧ WritesFiles v call)
      [.create (letter 0), .openFile (letter 0), .write 0 (fun _ => 65) 70, .delete (letter 0),
        .write 0 (fun _ => 66) 300, .create (letter 1)]
      (Store.fresh fun _ => 255)).map (fun v => v.lookup (letter 1)) = some (some 0) := by
    decide +kernel
  obtain ⟨v, replays, found⟩ := Option.map_eq_some_iff.1 ends
  obtain ⟨s₀, l, t, format, run, -, rfl, -⟩ := run_of_replay_fresh 255 replays
  have files : ∀ e ∈ l, WritesFiles e.before.store e.label.1 :=
    fun e member => (run.step_of_mem e member).1.2
  have proper : Run (UserStep (Proper 7)) s₀ l t := by
    refine run.mono fun x a y step => ⟨step.1.1, step.2⟩
  exact ⟨s₀, l, t, format, proper, found, files,
    createsEmpty_of_writesFiles format proper files⟩

/-- A file is deleted while it is open, and written to: the next file starts with those bytes. -/
theorem createsEmpty_fails_stale :
    ¬ ∀ s s₀ l t, ssufsFormatDisk s = .ok ((), s₀) → Run (UserStep (Proper 7)) s₀ l t →
      ∀ e ∈ l, CreatesEmpty e := by
  intro holds
  have ends : (replay (Proper 7)
      [.create (letter 0), .openFile (letter 0), .delete (letter 0), .write 0 (fun _ => 65) 10]
      (Store.fresh fun _ => 255)).map (fun v => ((Call.create (letter 1)).exec v).toOption.map
        fun result => (result.1, (result.2.inode 0).fileSize)) =
          some (some (⟨some 0, []⟩, 10)) := by
    decide +kernel
  obtain ⟨v, replays, bad⟩ := Option.map_eq_some_iff.1 ends
  obtain ⟨s₀, l, t, format, run, -, rfl, long⟩ := run_of_replay_fresh 255 replays
  cases creates : (Call.create (letter 1)).exec t.store with
  | error e =>
    rw [creates] at bad
    cases bad
  | ok result =>
    rw [creates] at bad
    obtain ⟨reply, size⟩ := Prod.mk.inj (Option.some.inj bad)
    obtain ⟨r, w⟩ := result
    obtain rfl : r = ⟨some 0, []⟩ := reply
    obtain ⟨t', runs, rfl, -⟩ := (exec_implements _).lift long creates
    have step : UserStep (Proper 7) t (.create (letter 1), ⟨some 0, []⟩) t' := by
      refine ⟨?_, runs⟩
      simp [Proper, Call.filename, Call.handle, letter]
    obtain ⟨i, selected, empty, -⟩ := holds _ s₀ _ t' format (run.snoc step) _
      (List.mem_append_right _ (List.mem_singleton_self _)) _ 0 rfl rfl (by decide)
    obtain rfl : 0 = i := Option.some.inj selected
    exact absurd (size.symm.trans empty) (by decide)

/-! ## Free blocks -/

/-- Files have blocks in use, and no block stands in two slots. Blocks in use that no file has are
allowed here: a rollback leaves some behind. -/
structure Held (v : Store) : Prop where
  used : ∀ b i j, Holder v b i j → v.flag b = dataBlockUsed
  unique : ∀ b i j i' j', Holder v b i j → Holder v b i' j' → i = i' ∧ j = j'

/-- Free blocks hold zeros. -/
def Zeroed (v : Store) : Prop := ∀ b, v.flag b = dataBlockFree → ∀ p, v.block b p = 0

/-- Writes start at the end of their file. -/
def StartsAtEnd (v : Store) : Call → Prop
  | .write h _ _ => ∀ i, index 8 (v.fileHandles h).inodeNumber = some i →
      (v.fileHandles h).offset = (v.inode i).fileSize
  | _ => True

/-- If the call deletes a file, its blocks hold zeros behind their first eight bytes. -/
def ClearsBlocks (v : Store) : Call → Prop
  | .delete filename => ∀ i, v.lookup filename = some i → ∀ j b, (v.inode i).slot j = some b →
      ∀ p : Fin 64, 8 ≤ p.val → v.block b p = 0
  | _ => True

section Calls

variable {v w : Store} {call : Call} {r : Reply} {i : Fin 8}

namespace Held

theorem congr (held : Held v) (flag : w.flag = v.flag)
    (holders : ∀ b i j, Holder w b i j → Holder v b i j) : Held w := by
  refine ⟨fun b i j holder => ?_, fun b i j i' j' first second => ?_⟩
  · rw [flag]
    exact held.used b i j (holders b i j holder)
  · exact held.unique b i j i' j' (holders b i j first) (holders b i' j' second)

theorem backed (held : Held v) (inUse : v.inodeFlag i = inodeInUse) (valid : (v.inode i).Valid)
    {o : ℕ} (blocks : ∀ j : Fin 4, (v.inode i).directBlocks j ≠ -1 ↔ 64 * j.val < o) :
    Backed v i o where
  valid := valid
  used j b slot := held.used b i j ⟨inUse, slot⟩
  distinct j j' b first second := (held.unique b i j i j' ⟨inUse, first⟩ ⟨inUse, second⟩).2
  blocks := blocks

/-- A write has supplied the file with inode `i`. -/
theorem write (held : Held v) (supplied : Supplied v i w) (inodeFlag : w.inodeFlag = v.inodeFlag)
    (other : ∀ i', i' ≠ i → w.inode i' = v.inode i') : Held w := by
  -- a block of a file was this file's before, or was free and is now one of `i`
  have origin {b : Fin 30} {i' : Fin 8} {j : Fin 4} (holder : Holder w b i' j) :
      Holder v b i' j ∨ i' = i ∧ v.flag b = dataBlockFree ∧ w.flag b = dataBlockUsed := by
    obtain ⟨inUse, slot⟩ := holder
    rw [inodeFlag] at inUse
    by_cases same : i' = i
    · subst same
      exact (supplied.slots j b slot).imp (fun old => ⟨inUse, old⟩) fun new => ⟨rfl, new⟩
    · rw [other i' same] at slot
      exact .inl ⟨inUse, slot⟩
  have apart {b : Fin 30} {i' : Fin 8} {j : Fin 4} (old : Holder v b i' j)
      (free : v.flag b = dataBlockFree) : False :=
    dataBlockUsed_ne_free ((held.used b i' j old).symm.trans free)
  refine ⟨fun b i' j holder => ?_, fun b i₁ j₁ i₂ j₂ first second => ?_⟩
  · rcases origin holder with old | ⟨-, -, used⟩
    · exact supplied.stays b (held.used b i' j old)
    · exact used
  · rcases origin first with old₁ | ⟨rfl, free₁, -⟩
    · rcases origin second with old₂ | ⟨-, free₂, -⟩
      · exact held.unique b i₁ j₁ i₂ j₂ old₁ old₂
      · exact (apart old₁ free₂).elim
    · rcases origin second with old₂ | ⟨rfl, -⟩
      · exact (apart old₂ free₁).elim
      · exact ⟨rfl, supplied.distinct j₁ j₂ b first.2 second.2⟩

/-- A new file has no blocks yet. -/
theorem created (held : Held v) (bare : ∀ j, (v.inode i).directBlocks j = -1) {filename : CString}
    (short : filename.bytes.length ≤ 7) : Held (v.created i filename) := by
  refine held.congr rfl fun b i' j holder => ?_
  obtain ⟨inUse, slot⟩ := holder
  rw [Store.created_inodeFlag] at inUse
  rw [Store.created_slot (by omega)] at slot
  split_ifs at inUse with same
  · subst same
    exact absurd (bare j) (Inode.ne_neg_one_of_slot slot)
  · exact ⟨inUse, slot⟩

theorem freed (held : Held v) (inUse : v.inodeFlag i = inodeInUse)
    (freed : Freed (scrubbed (v.inode i) (List.finRange 4) v) i w) : Held w := by
  have holders {b : Fin 30} {i' : Fin 8} {j : Fin 4} (holder : Holder w b i' j) :
      i' ≠ i ∧ Holder v b i' j := by
    obtain ⟨inUse', slot⟩ := holder
    rw [freed.inodeFlag] at inUse'
    rw [freed.inode] at slot
    by_cases same : i' = i
    · rw [same, Function.update_self] at inUse'
      exact absurd inUse'.symm inodeInUse_ne_free
    · rw [Function.update_of_ne same] at inUse' slot
      exact ⟨same, inUse', slot⟩
  refine ⟨fun b i' j holder => ?_, fun b i₁ j₁ i₂ j₂ first second => ?_⟩
  · obtain ⟨other, holder⟩ := holders holder
    rw [freed.flag, if_neg]
    · exact held.used b i' j holder
    · rintro ⟨j', slot⟩
      exact other (held.unique b i' j i j' holder ⟨inUse, slot⟩).1
  · exact held.unique b i₁ j₁ i₂ j₂ (holders first).2 (holders second).2

end Held

variable {g : Ghost} {x : Fin 8 → ℤ}

theorem supplied_of_write {h : Fin 20} {buf : ℕ → Byte} {nbytes : Int32}
    (runs : (Call.write h buf nbytes).exec v = .ok (r, w)) (tame : Tame v)
    (valid : ValidHandles g v) (sized : Sized x v) (held : Held v)
    (selected : index 8 (v.fileHandles h).inodeNumber = some i)
    (atEnd : StartsAtEnd v (.write h buf nbytes)) : Supplied v i w := by
  have refers := valid.refers selected
  have low := refers.low
  have offset : (v.fileHandles h).offset.toInt = (v.fileHandles h).offset.toInt.toNat := by omega
  have backed : Backed v i (v.fileHandles h).offset.toInt.toNat := by
    refine held.backed refers.inUse (tame.valid i) fun j => ?_
    rw [sized.blocks, ← atEnd i selected]
    omega
  have ends : Ends (Call.write h buf nbytes).exec v fun _ => Supplied v i :=
    .bind ((backed.write selected offset buf nbytes).imp fun _ _ supplied => .pure supplied)
  rwa [Ends, Prog.Ensures, runs] at ends

theorem freed_of_delete {filename : CString} (runs : (Call.delete filename).exec v = .ok (r, w))
    (tame : Tame v) (held : Held v) (here : v.lookup filename = some i) :
    Freed (scrubbed (v.inode i) (List.finRange 4) v) i w := by
  obtain ⟨inUse, -⟩ := lookup_eq_some here
  have readable : ∀ j b, (v.inode i).slot j = some b → v.Readable b := by
    intro j b slot
    by_contra short
    have fails := ssufsDelete_fails here (tame.valid i) slot short
    rw [Call.exec, Prog.bind_error fails] at runs
    cases runs
  obtain ⟨w', deletes, freed⟩ := ssufsDelete_apply here (tame.valid i)
    (fun j j' b first second => (held.unique b i j i j' ⟨inUse, first⟩ ⟨inUse, second⟩).2)
    (fun j b slot => held.used b i j ⟨inUse, slot⟩) readable
  rw [Call.exec, Prog.bind_ok deletes] at runs
  cases runs
  exact freed

theorem Effect.held (effect : Effect v call r w) (runs : call.exec v = .ok (r, w)) (tame : Tame v)
    (proper : Proper 7 v call) (valid : ValidHandles g v) (sized : Sized x v)
    (atEnd : StartsAtEnd v call) (held : Held v) : Held w := by
  cases effect with
  | @create _ i _ free =>
    refine held.created (fun j => ?_) (proper.1 _ rfl)
    have empty := sized.unused i (firstFreeInode_eq_some free)
    by_contra block
    have := (sized.blocks i j).1 block
    omega
  | noWrite selected _ frame =>
    exact held.write (supplied_of_write runs tame valid sized held selected atEnd) frame.inodeFlag
      fun i' _ => by rw [frame.inode]
  | write selected grown =>
    exact held.write (supplied_of_write runs tame valid sized held selected atEnd) grown.inodeFlag
      grown.other
  | readSeek seek | lseek seek =>
    obtain ⟨i, selected, -⟩ := tame.file (proper.2 _ rfl)
    rcases ssufsLseek_cases selected seek with rfl | ⟨offset, -, -, rfl⟩
    · exact held
    · exact held.congr rfl fun _ _ _ holder => holder
  | delete here _ =>
    exact held.freed (lookup_eq_some here).1 (freed_of_delete runs tame held here)
  | _ => exact held.congr rfl fun _ _ _ holder => holder

theorem Zeroed.congr (zeroed : Zeroed v) (flag : w.flag = v.flag) (block : w.block = v.block) :
    Zeroed w := by
  rw [Zeroed, flag, block]
  exact zeroed

theorem Supplied.zeroed (supplied : Supplied v i w) (zeroed : Zeroed v) : Zeroed w := by
  intro b free
  rcases supplied.erases b free with ⟨free', same⟩ | zero
  · rw [same]
    exact zeroed b free'
  · exact zero

/-- `ssufs_delete` leaves zeros in the blocks exactly if there was nothing else behind the bytes
that it clears. -/
theorem Freed.zeroed_iff (freed : Freed (scrubbed (v.inode i) (List.finRange 4) v) i w)
    (zeroed : Zeroed v) :
    Zeroed w ↔ ∀ j b, (v.inode i).slot j = some b → ∀ p : Fin 64, 8 ≤ p.val → v.block b p = 0 := by
  have flag (b : Fin 30) : w.flag b =
      if ∃ j, (v.inode i).slot j = some b then dataBlockFree else v.flag b := freed.flag b
  have block (b : Fin 30) : w.block b = if ∃ j ∈ List.finRange 4, (v.inode i).slot j = some b then
      memsetPointer (v.block b) else v.block b := congrFun freed.block b
  simp only [List.mem_finRange, true_and] at block
  constructor
  · intro zeroed' j b slot p behind
    have zero := zeroed' b (by rw [flag, if_pos ⟨j, slot⟩]) p
    rwa [block, if_pos ⟨j, slot⟩, memsetPointer, if_neg (by omega)] at zero
  · intro nothing b free p
    rw [flag] at free
    rw [block]
    split_ifs at free ⊢ with slot
    · obtain ⟨j, slot⟩ := slot
      rw [memsetPointer]
      split_ifs with front
      · rfl
      · exact nothing j b slot p (by omega)
    · exact zeroed b free p

theorem Effect.zeroed_iff (effect : Effect v call r w) (runs : call.exec v = .ok (r, w))
    (tame : Tame v) (proper : Proper 7 v call) (valid : ValidHandles g v) (sized : Sized x v)
    (atEnd : StartsAtEnd v call) (held : Held v) (zeroed : Zeroed v) :
    Zeroed w ↔ ClearsBlocks v call := by
  cases effect with
  | noWrite selected =>
    have supplied := supplied_of_write runs tame valid sized held selected atEnd
    exact iff_of_true (supplied.zeroed zeroed) trivial
  | write selected _ =>
    have supplied := supplied_of_write runs tame valid sized held selected atEnd
    exact iff_of_true (supplied.zeroed zeroed) trivial
  | readSeek seek | lseek seek =>
    obtain ⟨i, selected, -⟩ := tame.file (proper.2 _ rfl)
    rcases ssufsLseek_cases selected seek with rfl | ⟨offset, -, -, rfl⟩
    · exact iff_of_true zeroed trivial
    · exact iff_of_true (zeroed.congr rfl rfl) trivial
  | noDelete absent =>
    refine iff_of_true zeroed fun i here => ?_
    cases absent.symm.trans here
  | delete here _ =>
    rw [(freed_of_delete runs tame held here).zeroed_iff zeroed]
    refine ⟨fun nothing i here' => ?_, fun clears => clears _ here⟩
    obtain rfl := Option.some.inj (here.symm.trans here')
    exact nothing
  | _ => exact iff_of_true (zeroed.congr rfl rfl) trivial

end Calls

/-! ## Runs -/

/-- No call has changed the block. -/
def Untouched (l : List (Event Machine (Call × Reply))) (b : Fin 30) : Prop :=
  ∀ e ∈ l, e.after.store.block b = e.before.store.block b

/-- Every free block is as formatting left it, a hole of the image or past its end, or consists of
zeros. -/
def Erased (l : List (Event Machine (Call × Reply))) (s : Machine) : Prop :=
  ∀ b, s.store.flag b = dataBlockFree → Untouched l b ∨ ∀ p, s.store.block b p = 0

/-- The calls of a careful user who writes at the end of files only. -/
def CarefulAppend (v : Store) (call : Call) : Prop := Careful v call ∧ StartsAtEnd v call

instance (v : Store) : ∀ call : Call, Decidable (StartsAtEnd v call)
  | .write _ _ _ => inferInstanceAs (Decidable (∀ _, _ → _))
  | .create _ | .openFile _ | .read _ _ | .lseek _ _ | .close _ | .delete _ => .isTrue trivial

instance (v : Store) (call : Call) : Decidable (CarefulAppend v call) :=
  inferInstanceAs (Decidable (_ ∧ _))

/-- Blocks that no call has changed hold zeros. -/
def UntouchedZero (l : List (Event Machine (Call × Reply))) (s : Machine) : Prop :=
  ∀ b, Untouched l b → ∀ p, s.store.block b p = 0

theorem UntouchedZero.snoc {l : List (Event Machine (Call × Reply))} {x y : Machine}
    (zero : UntouchedZero l x) (a : Call × Reply) : UntouchedZero (l ++ [⟨x, a, y⟩]) y := by
  intro b untouched
  rw [Untouched, List.forall_mem_append, List.forall_mem_singleton] at untouched
  obtain ⟨before, same⟩ := untouched
  dsimp only at same
  rw [same]
  exact zero b before

theorem UntouchedZero.erased_iff {l : List (Event Machine (Call × Reply))} {s : Machine}
    (zero : UntouchedZero l s) : Erased l s ↔ Zeroed s.store :=
  ⟨fun erased b free => (erased b free).elim (zero b) id, fun zeroed b free => .inr (zeroed b free)⟩

theorem untouchedZero_format {s s₀ : Machine} (format : ssufsFormatDisk s = .ok ((), s₀)) :
    UntouchedZero [] s₀ := by
  rw [UntouchedZero, (holds_of_format format).1]
  exact fun _ _ _ => rfl

theorem StartsAtEnd.writesAtEnd {v : Store} {call : Call} (atEnd : StartsAtEnd v call) :
    WritesAtEnd v call := by
  cases call with
  | write h buf nbytes => exact fun i selected _ => atEnd i selected
  | _ => trivial

theorem held_fresh (junk : ℕ → Byte) : Held (Store.fresh junk) := by
  have none_holds {b : Fin 30} {i : Fin 8} {j : Fin 4} : ¬ Holder (Store.fresh junk) b i j :=
    fun holder => inodeInUse_ne_free holder.1.symm
  exact ⟨fun _ _ _ holder => absurd holder none_holds,
    fun _ _ _ _ _ holder _ => absurd holder none_holds⟩

/-- Along a run of a careful user who only appends, no free block holds anything that was written
exactly if every deleted file had zeros behind the first eight bytes of its blocks. -/
theorem erased_iff_clearsBlocks {s s₀ t : Machine} {l : List (Event Machine (Call × Reply))}
    (format : ssufsFormatDisk s = .ok ((), s₀)) (run : Run (UserStep CarefulAppend) s₀ l t) :
    Run.Always (UserStep CarefulAppend) s₀ l Erased ↔
      ∀ e ∈ l, ClearsBlocks e.before.store e.label.1 := by
  have calm₀ := calm_format format
  have zero₀ := untouchedZero_format format
  obtain ⟨sized₀, valid₀, held₀, zeroed₀⟩ : Sized (extents []) s₀.store ∧
      ValidHandles (ghost []) s₀.store ∧ Held s₀.store ∧ Zeroed s₀.store := by
    rw [(holds_of_format format).1]
    exact ⟨sized_fresh _, validHandles_fresh _ _, held_fresh _, fun _ _ _ => rfl⟩
  refine run.always_iff (I := fun l x => Sized (extents l) x.store ∧
    ValidHandles (ghost l) x.store ∧ Held x.store ∧ Zeroed x.store ∧ UntouchedZero l x ∧ Calm x)
    ⟨sized₀, valid₀, held₀, zeroed₀, zero₀, calm₀⟩ (zero₀.erased_iff.2 zeroed₀) ?_ ?_
  · rintro l x a y ⟨sized, valid, held, zeroed, zero, calm⟩ step clears
    obtain ⟨careful, atEnd⟩ := step.1
    have proper := careful.1.mono (show 7 ≤ 8 by norm_num)
    obtain ⟨runs, effect, calm'⟩ := step.effect calm proper
    rw [extents_snoc, ghost_snoc]
    exact ⟨effect.sized calm.1 careful.1 valid sized atEnd.writesAtEnd,
      effect.validHandles calm.1 proper valid careful.2.1,
      effect.held runs calm.1 careful.1 valid sized atEnd held,
      (effect.zeroed_iff runs calm.1 careful.1 valid sized atEnd held zeroed).2 clears, zero.snoc a,
      calm'⟩
  · rintro l x a y ⟨sized, valid, held, zeroed, zero, calm⟩ step
    obtain ⟨careful, atEnd⟩ := step.1
    obtain ⟨runs, effect, -⟩ := step.effect calm (careful.1.mono (by norm_num))
    rw [(zero.snoc a).erased_iff]
    exact effect.zeroed_iff runs calm.1 careful.1 valid sized atEnd held zeroed

/-- A file of eight bytes, behind which its block holds zeros, is deleted. -/
theorem erased_iff_clearsBlocks_eight :
    ∃ s₀ l t, ssufsFormatDisk (bootWith 0) = .ok ((), s₀) ∧
      Run (UserStep CarefulAppend) s₀ l t ∧ t.store.flag 0 = dataBlockFree ∧
        t.store.length = 384 ∧
        (Run.Always (UserStep CarefulAppend) s₀ l Erased ↔
          ∀ e ∈ l, ClearsBlocks e.before.store e.label.1) := by
  have ends : (replay CarefulAppend
      [.create (letter 0), .openFile (letter 0), .write 0 (fun _ => 65) 8, .close 0,
        .delete (letter 0)]
      (Store.fresh fun _ => 0)).map (fun v => (v.flag 0, v.length)) = some (dataBlockFree, 384) := by
    decide +kernel
  obtain ⟨v, replays, seen⟩ := Option.map_eq_some_iff.1 ends
  obtain ⟨s₀, l, t, format, run, -, rfl, -⟩ := run_of_replay_fresh 0 replays
  obtain ⟨free, length⟩ := Prod.mk.inj seen
  exact ⟨s₀, l, t, format, run, free, length, erased_iff_clearsBlocks format run⟩

/-- A file of ten bytes is deleted: the last two of them stay in the free block. -/
theorem erased_fails_tenBytes :
    ¬ ∀ s s₀ l t, ssufsFormatDisk s = .ok ((), s₀) → Run (UserStep CarefulAppend) s₀ l t →
      Erased l t := by
  intro holds
  have ends : (replay CarefulAppend
      [.create (letter 0), .openFile (letter 0), .write 0 (fun _ => 65) 10, .close 0,
        .delete (letter 0)]
      (Store.fresh fun _ => 0)).map (fun v => (v.flag 0, v.block 0 8)) =
        some (dataBlockFree, 65) := by
    decide +kernel
  obtain ⟨v, replays, seen⟩ := Option.map_eq_some_iff.1 ends
  obtain ⟨s₀, l, t, format, run, -, rfl, -⟩ := run_of_replay_fresh 0 replays
  obtain ⟨free, left⟩ := Prod.mk.inj seen
  have zero : UntouchedZero l t :=
    run.history (untouchedZero_format format) fun _ _ a _ zero _ => zero.snoc a
  have byte := zero.erased_iff.1 (holds _ s₀ l t format run) 0 free 8
  rw [left] at byte
  exact absurd byte (by decide)

end SsuOs.Ssufs
