import SsuOs.Ssufs.Effects

/-!
# What open handles refer to

An open handle should refer to the file that it was opened on, at an offset within that file. Files
are told apart by their creation: `Ghost` counts how often each inode was given to a new file, and
remembers that number for each handle when it is opened. `ssufs_delete` does not look at the
handles, so that the law holds along a run exactly when no file is deleted while it is open
(`validHandles_iff_deletesClosed`).
-/

namespace SsuOs.Ssufs

/-! ## Creations -/

/-- How many calls of `ssufs_create` have returned each inode, and what that number was for the
inode of each handle when the handle was opened. -/
structure Ghost where
  creates : Fin 8 → ℕ
  opened : Fin 20 → ℕ

/-- The numbers after a call that returned `r` and left the handles `handles`. -/
def Ghost.record (g : Ghost) (handles : Fin 20 → FileHandle) : Call → Reply → Ghost
  | .create _, ⟨some r, _⟩ =>
      { g with creates := fun i => if ofIndex i = r then g.creates i + 1 else g.creates i }
  | .openFile _, ⟨some r, _⟩ =>
      { g with opened := fun h =>
          if ofIndex h = r then (index 8 (handles h).inodeNumber).elim 0 g.creates else g.opened h }
  | _, _ => g

/-- The numbers after the events `l`, from a formatted disk. -/
def ghost (l : List (Event Machine (Call × Reply))) : Ghost :=
  l.foldl (fun g e => g.record e.after.fileHandles e.label.1 e.label.2) ⟨fun _ => 0, fun _ => 0⟩

theorem ghost_snoc (l : List (Event Machine (Call × Reply)))
    (e : Event Machine (Call × Reply)) :
    ghost (l ++ [e]) = (ghost l).record e.after.fileHandles e.label.1 e.label.2 :=
  List.foldl_append ..

/-- Handle `h` refers to the file with inode `i` that it was opened on, at an offset within it. -/
structure Refers (g : Ghost) (v : Store) (h : Fin 20) (i : Fin 8) : Prop where
  selected : index 8 (v.fileHandles h).inodeNumber = some i
  inUse : v.inodeFlag i = inodeInUse
  sameCreate : g.opened h = g.creates i
  low : 0 ≤ (v.fileHandles h).offset.toInt
  high : (v.fileHandles h).offset.toInt ≤ (v.inode i).fileSize.toInt

def ValidHandles (g : Ghost) (v : Store) : Prop := ∀ h, Opened v h → ∃ i, Refers g v h i

/-- If the call deletes a file, no handle is open on it. -/
def DeletesClosed (v : Store) : Call → Prop
  | .delete filename => ∀ i, v.lookup filename = some i →
      ∀ h, index 8 (v.fileHandles h).inodeNumber ≠ some i
  | _ => True

instance (v : Store) : ∀ call : Call, Decidable (DeletesClosed v call)
  | .delete _ => inferInstanceAs (Decidable (∀ _, _ → _))
  | .create _ | .openFile _ | .write _ _ _ | .read _ _ | .lseek _ _ | .close _ => .isTrue trivial

section Effects

variable {g : Ghost} {v w : Store} {h : Fin 20} {i : Fin 8}

theorem Opened.of_index (selected : index 8 (v.fileHandles h).inodeNumber = some i) :
    Opened v h := by
  intro none
  rw [none] at selected
  cases selected

theorem ValidHandles.refers (valid : ValidHandles g v)
    (selected : index 8 (v.fileHandles h).inodeNumber = some i) : Refers g v h i := by
  obtain ⟨i', refers⟩ := valid h (.of_index selected)
  obtain rfl : i' = i := Option.some.inj (refers.selected.symm.trans selected)
  exact refers

/-- A handle that has been set refers to what it was set to. -/
theorem Refers.of_eq {handle : FileHandle} (eq : v.fileHandles h = handle)
    (selected : index 8 handle.inodeNumber = some i) (inUse : v.inodeFlag i = inodeInUse)
    (sameCreate : g.opened h = g.creates i) (low : 0 ≤ handle.offset.toInt)
    (high : handle.offset.toInt ≤ (v.inode i).fileSize.toInt) : Refers g v h i := by
  subst eq
  exact ⟨selected, inUse, sameCreate, low, high⟩

theorem Refers.congr (refers : Refers g v h i) (handle : w.fileHandles h = v.fileHandles h)
    (inodeFlag : w.inodeFlag i = v.inodeFlag i)
    (grows : (v.inode i).fileSize.toInt ≤ (w.inode i).fileSize.toInt) {g' : Ghost}
    (same : g'.opened h = g.opened h) (same' : g'.creates i = g.creates i) : Refers g' w h i := by
  refine ⟨?_, inodeFlag.trans refers.inUse, ?_, ?_, ?_⟩
  · rw [handle]
    exact refers.selected
  · rw [same, same']
    exact refers.sameCreate
  · rw [handle]
    exact refers.low
  · rw [handle]
    exact refers.high.trans grows

theorem ValidHandles.congr (valid : ValidHandles g v) (frame : Frame v w) : ValidHandles g w := by
  intro h opened
  rw [Opened, frame.fileHandles] at opened
  obtain ⟨i, refers⟩ := valid h opened
  refine ⟨i, refers.congr ?_ ?_ ?_ rfl rfl⟩
  · rw [frame.fileHandles]
  · rw [frame.inodeFlag]
  · rw [frame.inode]

/-- A handle is set to something valid, or closed. -/
theorem ValidHandles.putHandle (valid : ValidHandles g v) {handle : FileHandle} {g' : Ghost}
    (fine : handle.inodeNumber ≠ -1 → ∃ i, Refers g' (v.putHandle h handle) h i)
    (creates : g'.creates = g.creates) (others : ∀ h', h' ≠ h → g'.opened h' = g.opened h') :
    ValidHandles g' (v.putHandle h handle) := by
  intro h' opened
  by_cases same : h' = h
  · subst same
    refine fine ?_
    rwa [Opened, Store.putHandle_fileHandles, Function.update_self] at opened
  · have away : (v.putHandle h handle).fileHandles h' = v.fileHandles h' :=
      Function.update_of_ne same ..
    rw [Opened, away] at opened
    obtain ⟨i, refers⟩ := valid h' opened
    exact ⟨i, refers.congr away rfl le_rfl (others h' same) (by rw [creates])⟩

theorem ValidHandles.lseek (valid : ValidHandles g v) (opened : Opened v h) {nseek x : Int32}
    (seek : ssufsLseek h nseek v = .ok (x, w)) : ValidHandles g w := by
  obtain ⟨i, refers⟩ := valid h opened
  rcases ssufsLseek_cases refers.selected seek with rfl | ⟨offset, low, high, rfl⟩
  · exact valid
  · refine valid.putHandle (fun _ => ⟨i, ?_⟩) rfl fun _ _ => rfl
    exact .of_eq (Function.update_self ..) refers.selected refers.inUse refers.sameCreate low high

theorem ValidHandles.created (valid : ValidHandles g v) {filename : CString}
    (free : v.firstFreeInode = some i) :
    ValidHandles (g.record v.fileHandles (.create filename) ⟨some (ofIndex i), []⟩)
      (v.created i filename) := by
  intro h opened
  obtain ⟨i', refers⟩ := valid h opened
  have other : i' ≠ i := by
    rintro rfl
    exact inodeInUse_ne_free (refers.inUse.symm.trans (firstFreeInode_eq_some free))
  refine ⟨i', refers.congr ?_ ?_ ?_ ?_ ?_⟩
  · rfl
  · exact Function.update_of_ne other ..
  · rw [Store.created_inode_of_ne other]
  · rfl
  · exact if_neg fun same => other ((ofIndex_inj (by norm_num)).1 same)

theorem ValidHandles.openFile (valid : ValidHandles g v) (tame : Tame v) {filename : CString}
    (here : v.lookup filename = some i) :
    ValidHandles
      (g.record (v.putHandle h { offset := 0, inodeNumber := ofIndex i }).fileHandles
        (.openFile filename) ⟨some (ofIndex h), []⟩)
      (v.putHandle h { offset := 0, inodeNumber := ofIndex i }) := by
  have self : (v.putHandle h { offset := 0, inodeNumber := ofIndex i }).fileHandles h =
      { offset := 0, inodeNumber := ofIndex i } := Function.update_self ..
  have given := index_ofIndex (show 8 ≤ 2 ^ 31 by norm_num) i
  refine valid.putHandle (fun _ => ⟨i, ?_⟩) rfl fun h' other => ?_
  · refine .of_eq self given (lookup_eq_some here).1 ?_ le_rfl (tame.size i).1
    refine (if_pos rfl).trans ?_
    rw [self]
    dsimp only
    rw [given]
    rfl
  · exact if_neg fun same => other ((ofIndex_inj (by norm_num)).1 same)

theorem ValidHandles.write (valid : ValidHandles g v) {nbytes : Int32}
    (selected : index 8 (v.fileHandles h).inodeNumber = some i)
    (grown : Grown v h i nbytes w) : ValidHandles g w := by
  have grows (i' : Fin 8) : (v.inode i').fileSize.toInt ≤ (w.inode i').fileSize.toInt := by
    by_cases same : i' = i
    · subst same
      rw [grown.size]
      exact Int.le_add_of_nonneg_right grown.room.positive.le
    · rw [grown.other i' same]
  have refers := valid.refers selected
  have moved := grown.fileHandles
  rw [if_pos refers.high] at moved
  intro h' opened'
  by_cases same : h' = h
  · subst same
    -- the handle that wrote moves with the end of what it wrote
    have offset := grown.offset refers.low refers.high
    have self : w.fileHandles h' =
        { v.fileHandles h' with offset := (v.fileHandles h').offset + nbytes } := by
      rw [moved, Function.update_self]
    refine ⟨i, .of_eq self selected ?_ refers.sameCreate ?_ ?_⟩
    · rw [grown.inodeFlag]
      exact refers.inUse
    · rw [offset]
      exact Int.add_nonneg refers.low grown.room.positive.le
    · rw [offset, grown.size]
      exact Int.add_le_add_right refers.high _
  · have away : w.fileHandles h' = v.fileHandles h' := by
      rw [moved, Function.update_of_ne same]
    rw [Opened, away] at opened'
    obtain ⟨i₁, refers₁⟩ := valid h' opened'
    exact ⟨i₁, refers₁.congr away (by rw [grown.inodeFlag]) (grows i₁) rfl rfl⟩

theorem ValidHandles.delete (valid : ValidHandles g v)
    (closed : ∀ h, index 8 (v.fileHandles h).inodeNumber ≠ some i) (gone : Gone v i w) :
    ValidHandles g w := by
  intro h opened
  rw [Opened, gone.fileHandles] at opened
  obtain ⟨i', refers⟩ := valid h opened
  have other : i' ≠ i := by
    rintro rfl
    exact closed h refers.selected
  refine ⟨i', refers.congr ?_ ?_ ?_ rfl rfl⟩
  · rw [gone.fileHandles]
  · rw [gone.inodeFlag, Function.update_of_ne other]
  · rw [gone.inode, Function.update_of_ne other]

/-- A call that deletes no open file keeps the handles valid. -/
theorem Effect.validHandles {call : Call} {r : Reply} (effect : Effect v call r w) (tame : Tame v)
    (proper : Proper 8 v call) (valid : ValidHandles g v) (closed : DeletesClosed v call) :
    ValidHandles (g.record w.fileHandles call r) w := by
  have opened := proper.2
  cases effect with
  | noCreate =>
    rw [Ghost.record, ite_ofIndex_neg_one (by norm_num)]
    exact valid
  | create _ free => exact valid.created free
  | noOpen =>
    rw [Ghost.record, ite_ofIndex_neg_one (by norm_num)]
    exact valid
  | openFile here => exact valid.openFile tame here
  | noWrite _ _ frame => exact valid.congr frame
  | write selected grown => exact valid.write selected grown
  | read => exact valid
  | readSeek seek => exact valid.lseek (opened _ rfl) seek
  | lseek seek => exact valid.lseek (opened _ rfl) seek
  | close => exact valid.putHandle (absurd rfl) rfl fun _ _ => rfl
  | noDelete => exact valid
  | delete here gone => exact valid.delete (closed _ here) gone

/-- A call that leaves the handles valid deletes no open file. -/
theorem Effect.deletesClosed {call : Call} {r : Reply} (effect : Effect v call r w)
    (valid : ValidHandles (g.record w.fileHandles call r) w) : DeletesClosed v call := by
  cases effect with
  | @delete filename i w here gone =>
    intro i' found h selected
    rw [here] at found
    rw [← found, ← gone.fileHandles] at selected
    have inUse := (valid.refers selected).inUse
    rw [gone.inodeFlag, Function.update_self] at inUse
    exact inodeInUse_ne_free inUse.symm
  | noDelete none =>
    intro i found
    cases none.symm.trans found
  | _ => trivial

end Effects

/-! ## Runs -/

theorem Proper.mono {m n : ℕ} {v : Store} {call : Call} (proper : Proper m v call) (le : m ≤ n) :
    Proper n v call :=
  ⟨fun name given => (proper.1 name given).trans le, proper.2⟩

theorem validHandles_fresh (g : Ghost) (junk : ℕ → Byte) : ValidHandles g (Store.fresh junk) :=
  fun _ opened => absurd rfl opened

/-- Along a run with names of at most seven characters, every open handle refers to the file that it
was opened on, within its size, exactly if no file is deleted while it is open. -/
theorem validHandles_iff_deletesClosed {s s₀ t : Machine}
    {l : List (Event Machine (Call × Reply))} (format : ssufsFormatDisk s = .ok ((), s₀))
    (run : Run (UserStep (Proper 7)) s₀ l t) :
    Run.Always (UserStep (Proper 7)) s₀ l (fun l' x => ValidHandles (ghost l') x.store) ↔
      ∀ e ∈ l, DeletesClosed e.before.store e.label.1 := by
  have start : ValidHandles (ghost []) s₀.store := by
    rw [(holds_of_format format).1]
    exact validHandles_fresh _ _
  refine run.always_iff (I := fun l x => ValidHandles (ghost l) x.store ∧ Calm x)
    ⟨start, calm_format format⟩ start ?_ ?_
  · rintro l x a y ⟨valid, calm⟩ step closed
    obtain ⟨-, effect, calm'⟩ := step.effect calm (step.1.mono (by norm_num))
    rw [ghost_snoc]
    exact ⟨effect.validHandles calm.1 (step.1.mono (by norm_num)) valid closed, calm'⟩
  · rintro l x a y ⟨valid, calm⟩ step
    obtain ⟨-, effect, -⟩ := step.effect calm (step.1.mono (by norm_num))
    rw [ghost_snoc]
    exact ⟨effect.deletesClosed,
      effect.validHandles calm.1 (step.1.mono (by norm_num)) valid⟩

/-- A file is written, closed and deleted, and its inode is used again while a handle is open on
another file. -/
theorem validHandles_iff_deletesClosed_reuse :
    ∃ s₀ l t, ssufsFormatDisk (bootWith 255) = .ok ((), s₀) ∧
      Run (UserStep (Proper 7)) s₀ l t ∧ t.store.inodeFlag 0 = inodeInUse ∧
        (Run.Always (UserStep (Proper 7)) s₀ l (fun l' x => ValidHandles (ghost l') x.store) ↔
          ∀ e ∈ l, DeletesClosed e.before.store e.label.1) := by
  have ends : (replay (Proper 7)
      [.create (letter 0), .create (letter 1), .openFile (letter 0), .openFile (letter 1),
        .write 0 (fun _ => 65) 70, .close 0, .delete (letter 0), .create (letter 2),
        .openFile (letter 2)]
      (Store.fresh fun _ => 255)).map (fun v => v.inodeFlag 0) = some inodeInUse := by
    decide +kernel
  obtain ⟨v, replays, inUse⟩ := Option.map_eq_some_iff.1 ends
  obtain ⟨s₀, l, t, format, run, -, rfl, -⟩ := run_of_replay_fresh 255 replays
  exact ⟨s₀, l, t, format, run, inUse, validHandles_iff_deletesClosed format run⟩

/-- A file is opened and deleted: its handle stays open, on a free inode. -/
theorem validHandles_fails_delete :
    ¬ ∀ s s₀ l t, ssufsFormatDisk s = .ok ((), s₀) → Run (UserStep (Proper 7)) s₀ l t →
      ValidHandles (ghost l) t.store := by
  intro holds
  have ends : (replay (Proper 7)
      [.create (letter 0), .openFile (letter 0), .delete (letter 0)]
      (Store.fresh fun _ => 255)).map
        (fun v => (index 8 (v.fileHandles 0).inodeNumber, v.inodeFlag 0)) =
          some (some 0, inodeFree) := by
    decide +kernel
  obtain ⟨v, replays, bad⟩ := Option.map_eq_some_iff.1 ends
  obtain ⟨s₀, l, t, format, run, -, rfl, -⟩ := run_of_replay_fresh 255 replays
  simp only [Prod.mk.injEq] at bad
  have refers := (holds _ s₀ l t format run).refers bad.1
  exact inodeInUse_ne_free (refers.inUse.symm.trans bad.2)

end SsuOs.Ssufs
