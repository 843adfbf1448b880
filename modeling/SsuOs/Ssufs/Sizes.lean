import SsuOs.Ssufs.Handles
import SsuOs.Ssufs.Refinement

/-!
# Sizes of files

The size of a file should be the largest position that a write has reached, with a block for each of
its first slots. `ssufs_write` adds the number of bytes to the size wherever it starts, so that both
hold along a run exactly when every write that succeeds starts at the end of its file
(`sizeLaw_iff_writesAtEnd`).
-/

namespace SsuOs.Ssufs

/-! ## The law -/

/-- Reads and writes are of at least one byte. -/
def PositiveCount : Call → Prop
  | .write _ _ nbytes | .read _ nbytes => 1 ≤ nbytes.toInt
  | _ => True

instance : ∀ call : Call, Decidable (PositiveCount call)
  | .write _ _ _ | .read _ _ => inferInstanceAs (Decidable (1 ≤ _))
  | .create _ | .openFile _ | .lseek _ _ | .close _ | .delete _ => .isTrue trivial

/-- Names of at most seven characters, open handles, positive counts, and no deletion of a file that
is open. -/
def Careful (v : Store) (call : Call) : Prop :=
  Proper 7 v call ∧ DeletesClosed v call ∧ PositiveCount call

instance (v : Store) (call : Call) : Decidable (Careful v call) :=
  inferInstanceAs (Decidable (_ ∧ _ ∧ _))

/-- The ends of the files after a call that found the handles `handles` and returned `r`. -/
def recordExtent (x : Fin 8 → ℤ) (handles : Fin 20 → FileHandle) : Call → Reply → Fin 8 → ℤ
  | .create _, ⟨some r, _⟩ => fun i => if ofIndex i = r then 0 else x i
  | .write h _ nbytes, ⟨some r, _⟩ => fun i =>
      if r = 0 ∧ index 8 (handles h).inodeNumber = some i then
        max (x i) ((handles h).offset.toInt + nbytes.toInt)
      else x i
  | _, _ => x

/-- For each inode, the largest end of a successful write since it was last given to a new file, or
0. -/
def extents (l : List (Event Machine (Call × Reply))) : Fin 8 → ℤ :=
  l.foldl (fun x e => recordExtent x e.before.fileHandles e.label.1 e.label.2) fun _ => 0

theorem extents_snoc (l : List (Event Machine (Call × Reply)))
    (e : Event Machine (Call × Reply)) :
    extents (l ++ [e]) = recordExtent (extents l) e.before.fileHandles e.label.1 e.label.2 :=
  List.foldl_append ..

/-- The files have the sizes `x`, with blocks in as many of their first slots as the size needs, and
every read within the size succeeds. -/
structure SizeLaw (x : Fin 8 → ℤ) (s : Machine) : Prop where
  size : ∀ i, s.store.inodeFlag i = inodeInUse → (s.store.inode i).fileSize.toInt = x i
  blocks : ∀ i, s.store.inodeFlag i = inodeInUse → ∀ j : Fin 4,
    (s.store.inode i).directBlocks j ≠ -1 ↔ 64 * (j : ℤ) < (s.store.inode i).fileSize.toInt
  reads : ∀ h i nbytes, index 8 (s.store.fileHandles h).inodeNumber = some i → 1 ≤ nbytes.toInt →
    (s.store.fileHandles h).offset.toInt + nbytes.toInt ≤ (s.store.inode i).fileSize.toInt →
      ∃ bytes s', ssufsRead h nbytes s = .ok ((0, bytes), s')

/-- If the call is a write that there is room for, it starts at the end of its file. -/
def WritesAtEnd (v : Store) : Call → Prop
  | .write h _ nbytes => ∀ i, index 8 (v.fileHandles h).inodeNumber = some i →
      Room v h i nbytes → (v.fileHandles h).offset = (v.inode i).fileSize
  | _ => True

/-! ## Steps -/

/-- The law on the records, with nothing left behind in free inodes. -/
structure Sized (x : Fin 8 → ℤ) (v : Store) : Prop where
  unused : ∀ i, v.inodeFlag i = inodeFree → (v.inode i).fileSize.toInt = 0
  size : ∀ i, v.inodeFlag i = inodeInUse → (v.inode i).fileSize.toInt = x i
  blocks : ∀ i (j : Fin 4),
    (v.inode i).directBlocks j ≠ -1 ↔ 64 * (j : ℤ) < (v.inode i).fileSize.toInt

section Steps

variable {x : Fin 8 → ℤ} {v w : Store} {h : Fin 20} {i : Fin 8} {nbytes : Int32}

namespace Sized

theorem congr (sized : Sized x v) (inodeFlag : w.inodeFlag = v.inodeFlag)
    (inode : w.inode = v.inode) : Sized x w := by
  refine ⟨?_, ?_, ?_⟩
  · rw [inodeFlag, inode]
    exact sized.unused
  · rw [inodeFlag, inode]
    exact sized.size
  · rw [inode]
    exact sized.blocks

theorem created (sized : Sized x v) {filename : CString} (short : filename.bytes.length ≤ 7)
    (free : v.firstFreeInode = some i) :
    Sized (fun i' => if i' = i then 0 else x i') (v.created i filename) := by
  have empty := sized.unused i (firstFreeInode_eq_some free)
  refine ⟨fun i' unused => ?_, fun i' inUse => ?_, fun i' j => ?_⟩
  · rw [Store.created_inodeFlag] at unused
    split_ifs at unused
    · exact absurd unused inodeInUse_ne_free
    · rw [Store.created_fileSize short]
      exact sized.unused i' unused
  · rw [Store.created_inodeFlag] at inUse
    rw [Store.created_fileSize short]
    split_ifs at inUse ⊢ with same
    · rw [same, empty]
    · exact sized.size i' inUse
  · rw [Store.created_directBlocks (by omega), Store.created_fileSize short]
    exact sized.blocks i' j

theorem deleted (sized : Sized x v) (gone : Gone v i w) : Sized x w := by
  have inodes (i' : Fin 8) : w.inode i' = if i' = i then
      { v.inode i with status := 120, fileSize := 0, directBlocks := fun _ => -1 }
      else v.inode i' := by
    rw [gone.inode, Function.update_apply]
  refine ⟨fun i' unused => ?_, fun i' inUse => ?_, fun i' j => ?_⟩
  · rw [gone.inodeFlag, Function.update_apply] at unused
    rw [inodes]
    split_ifs at unused ⊢
    · rfl
    · exact sized.unused i' unused
  · rw [gone.inodeFlag, Function.update_apply] at inUse
    rw [inodes]
    split_ifs at inUse ⊢
    · exact absurd inUse.symm inodeInUse_ne_free
    · exact sized.size i' inUse
  · rw [inodes]
    split_ifs
    · refine iff_of_false (absurd rfl) ?_
      change ¬ 64 * (j : ℤ) < 0
      omega
    · exact sized.blocks i' j

/-- A write at the end of a file fills the slots up to its new size. -/
theorem write (sized : Sized x v) (grown : Grown v h i nbytes w)
    (append : (v.fileHandles h).offset = (v.inode i).fileSize) (inUse : v.inodeFlag i = inodeInUse) :
    Sized (fun i' => if i' = i then max (x i') ((v.fileHandles h).offset.toInt + nbytes.toInt)
      else x i') w := by
  have positive := grown.room.positive
  have size := grown.size
  have law := sized.size i inUse
  refine ⟨fun i' unused => ?_, fun i' inUse' => ?_, fun i' j => ?_⟩
  · rw [grown.inodeFlag] at unused
    have other : i' ≠ i := by
      rintro rfl
      exact inodeInUse_ne_free (inUse.symm.trans unused)
    rw [grown.other i' other]
    exact sized.unused i' unused
  · rw [grown.inodeFlag] at inUse'
    split_ifs with same
    · rw [same, size, append, ← law]
      omega
    · rw [grown.other i' same]
      exact sized.size i' inUse'
  · by_cases same : i' = i
    · subst same
      have blocks := sized.blocks i' j
      by_cases covers : Covers (v.fileHandles h).offset.toInt nbytes.toInt j
      · obtain ⟨b, held, -⟩ := grown.held j covers
        refine iff_of_true (Inode.ne_neg_one_of_slot held) ?_
        rw [size, ← append]
        exact covers.2
      · rw [grown.kept j (.inr covers), blocks, size]
        rw [Covers, append] at covers
        omega
    · rw [grown.other i' same]
      exact sized.blocks i' j

/-- Reads within the size find the blocks that the law gives them. -/
theorem sizeLaw {s : Machine} {g : Ghost} (sized : Sized x s.store)
    (valid : ValidHandles g s.store) (written : Written s.store) (calm : Calm s) : SizeLaw x s := by
  refine ⟨sized.size, fun i _ => sized.blocks i, fun h i nbytes selected positive inside => ?_⟩
  have low := (valid.refers selected).low
  have offset : (s.store.fileHandles h).offset.toInt =
      ((s.store.fileHandles h).offset.toInt.toNat : ℤ) := by omega
  have count : nbytes.toInt = (nbytes.toInt.toNat : ℤ) := by omega
  have held (j : Fin 4) (early : 64 * j.val <
      (s.store.fileHandles h).offset.toInt.toNat + nbytes.toInt.toNat) :
      ∃ b, (s.store.inode i).slot j = some b ∧ s.store.Readable b := by
    obtain ⟨b, held⟩ := calm.1.valid i j ((sized.blocks i j).2 (by omega))
    exact ⟨b, held, written i j b held⟩
  have reads := ssufsRead_within selected offset count (by omega) (by omega) (calm.1.size i).2 held
  obtain ⟨y, w, seek⟩ : ∃ y w, ssufsLseek h nbytes s.store = .ok (y, w) := by
    rw [ssufsLseek_apply selected]
    split_ifs
    · exact ⟨_, _, rfl⟩
    · exact ⟨_, _, rfl⟩
  rw [Prog.bind_ok seek] at reads
  obtain ⟨s', runs, -⟩ := (ssufsRead_implements h nbytes).lift calm.2 reads
  exact ⟨_, s', runs⟩

end Sized

/-- A call that writes only at the end of files keeps the law. -/
theorem Effect.sized {g : Ghost} {call : Call} {r : Reply} (effect : Effect v call r w)
    (tame : Tame v) (proper : Proper 7 v call) (valid : ValidHandles g v) (sized : Sized x v)
    (atEnd : WritesAtEnd v call) :
    Sized (recordExtent x v.fileHandles call r) w := by
  cases effect with
  | noCreate =>
    rw [recordExtent, ite_ofIndex_neg_one (by norm_num)]
    exact sized
  | create _ free =>
    simpa only [recordExtent, ofIndex_inj (show 8 ≤ 2 ^ 31 by norm_num)] using
      sized.created (proper.1 _ rfl) free
  | noWrite _ _ frame =>
    have failed : ¬ (-1 : Int32) = 0 := by decide
    simpa only [recordExtent, failed, false_and, if_false] using
      sized.congr frame.inodeFlag frame.inode
  | @write h buf nbytes i w selected grown =>
    simpa only [recordExtent, selected, true_and, Option.some.injEq, eq_comm] using
      sized.write grown (atEnd i selected grown.room) (valid.refers selected).inUse
  | readSeek seek | lseek seek =>
    obtain ⟨inodeFlag, inode, -⟩ := tame.lseek_same (proper.2 _ rfl) seek
    exact sized.congr inodeFlag inode
  | delete _ gone => exact sized.deleted gone
  | _ => exact sized.congr rfl rfl

/-- A call after which the sizes are the ends of the writes writes only at the end of files. -/
theorem Effect.writesAtEnd {g : Ghost} {call : Call} {r : Reply} (effect : Effect v call r w)
    (valid : ValidHandles g v) (sized : Sized x v)
    (law : ∀ i, w.inodeFlag i = inodeInUse →
      (w.inode i).fileSize.toInt = recordExtent x v.fileHandles call r i) : WritesAtEnd v call := by
  cases effect with
  | noWrite selected full =>
    intro i' selected' room
    obtain rfl := Option.some.inj (selected'.symm.trans selected)
    exact absurd room full
  | @write h buf nbytes i w selected grown =>
    intro i' selected' _
    obtain rfl : i' = i := Option.some.inj (selected'.symm.trans selected)
    have refers := valid.refers selected
    have inUse : w.inodeFlag i' = inodeInUse := by
      rw [grown.inodeFlag]
      exact refers.inUse
    have size := (law i' inUse).trans (if_pos ⟨rfl, selected⟩)
    have before := sized.size i' refers.inUse
    have high := refers.high
    have positive := grown.room.positive
    rw [grown.size] at size
    rw [← Int32.toInt_inj]
    omega
  | _ => trivial

end Steps

/-! ## Runs -/

theorem sized_fresh (junk : ℕ → Byte) : Sized (extents []) (Store.fresh junk) := by
  refine ⟨fun _ _ => rfl, fun _ _ => rfl, fun _ j => iff_of_false (absurd rfl) ?_⟩
  change ¬ 64 * (j : ℤ) < 0
  omega

/-- Along a run of a careful user, sizes are the ends of the writes, the blocks are in the first
slots, and reads within the size succeed, exactly if every write that there is room for starts at the
end of its file. -/
theorem sizeLaw_iff_writesAtEnd {s s₀ t : Machine}
    {l : List (Event Machine (Call × Reply))} (format : ssufsFormatDisk s = .ok ((), s₀))
    (run : Run (UserStep Careful) s₀ l t) :
    Run.Always (UserStep Careful) s₀ l (fun l' x => SizeLaw (extents l') x) ↔
      ∀ e ∈ l, WritesAtEnd e.before.store e.label.1 := by
  have calm₀ := calm_format format
  obtain ⟨sized₀, valid₀, written₀⟩ : Sized (extents []) s₀.store ∧
      ValidHandles (ghost []) s₀.store ∧ Written s₀.store := by
    rw [(holds_of_format format).1]
    exact ⟨sized_fresh _, validHandles_fresh _ _, .fresh _⟩
  refine run.always_iff (I := fun l x => Sized (extents l) x.store ∧
    ValidHandles (ghost l) x.store ∧ Written x.store ∧ Calm x) ⟨sized₀, valid₀, written₀, calm₀⟩
    (sized₀.sizeLaw valid₀ written₀ calm₀) ?_ ?_
  · rintro l x a y ⟨sized, valid, written, calm⟩ step atEnd
    have proper := step.1.1.mono (show 7 ≤ 8 by norm_num)
    obtain ⟨-, effect, calm'⟩ := step.effect calm proper
    rw [extents_snoc, ghost_snoc]
    exact ⟨effect.sized calm.1 step.1.1 valid sized atEnd,
      effect.validHandles calm.1 proper valid step.1.2.1, effect.written calm.1 proper written,
      calm'⟩
  · rintro l x a y ⟨sized, valid, written, calm⟩ step
    have proper := step.1.1.mono (show 7 ≤ 8 by norm_num)
    obtain ⟨-, effect, calm'⟩ := step.effect calm proper
    rw [extents_snoc]
    refine ⟨fun law => effect.writesAtEnd valid sized law.size, fun atEnd => ?_⟩
    exact (effect.sized calm.1 step.1.1 valid sized atEnd).sizeLaw
      (effect.validHandles calm.1 proper valid step.1.2.1) (effect.written calm.1 proper written)
      calm'

/-- A file is written in two parts, each at its end. -/
theorem sizeLaw_iff_writesAtEnd_twice :
    ∃ s₀ l t, ssufsFormatDisk (bootWith 255) = .ok ((), s₀) ∧
      Run (UserStep Careful) s₀ l t ∧ (t.store.inode 0).fileSize = 90 ∧
        (Run.Always (UserStep Careful) s₀ l (fun l' x => SizeLaw (extents l') x) ↔
          ∀ e ∈ l, WritesAtEnd e.before.store e.label.1) := by
  have ends : (replay Careful
      [.create (letter 0), .openFile (letter 0), .write 0 (fun k => UInt8.ofNat k) 20,
        .write 0 (fun _ => 66) 70, .lseek 0 (-90)]
      (Store.fresh fun _ => 255)).map (fun v => (v.inode 0).fileSize) = some 90 := by
    decide +kernel
  obtain ⟨v, replays, size⟩ := Option.map_eq_some_iff.1 ends
  obtain ⟨s₀, l, t, format, run, -, rfl, -⟩ := run_of_replay_fresh 255 replays
  exact ⟨s₀, l, t, format, run, size, sizeLaw_iff_writesAtEnd format run⟩

/-- A file of 60 bytes is overwritten from its start: its size becomes 120 with one block. -/
theorem sizeLaw_fails_overwrite :
    ¬ ∀ s s₀ l t, ssufsFormatDisk s = .ok ((), s₀) → Run (UserStep Careful) s₀ l t →
      SizeLaw (extents l) t := by
  intro holds
  have ends : (replay Careful
      [.create (letter 0), .openFile (letter 0), .write 0 (fun _ => 65) 60, .lseek 0 (-60),
        .write 0 (fun _ => 66) 60]
      (Store.fresh fun _ => 255)).map (fun v => (v.inodeFlag 0, (v.inode 0).fileSize,
        (v.inode 0).directBlocks 1)) = some (inodeInUse, 120, -1) := by
    decide +kernel
  obtain ⟨v, replays, bad⟩ := Option.map_eq_some_iff.1 ends
  obtain ⟨s₀, l, t, format, run, -, rfl, -⟩ := run_of_replay_fresh 255 replays
  simp only [Prod.mk.injEq] at bad
  obtain ⟨inUse, size, empty⟩ := bad
  refine ((holds _ s₀ l t format run).blocks 0 inUse 1).2 ?_ empty
  rw [size]
  decide

end SsuOs.Ssufs
