import SsuOs.Ssufs.Ownership

/-!
# What the code leaves alone

Frame rules for the code on the byte image: the functions that read a record move the position in
the host file and nothing else, and only `ssufs_open`, `ssufs_close` and `ssufs_lseek` touch the
table of open files. So a read leaves the disk as it is, no call shortens the image, and in every
state that calls of any kind reach, an open handle has the number of an inode.
-/

namespace SsuOs.Ssufs

open Prog (Keeps)

/-! ## Reading -/

section Reading

variable {P : Machine → Prop} (seek : ∀ s pos, P s → P { s with pos := pos })

include seek

theorem keeps_lseek (offset : ℤ) : Keeps P (Machine.lseek offset) := by
  intro s kept
  change P (if 0 ≤ offset then { s with pos := offset.toNat } else s)
  split_ifs
  · exact seek s _ kept
  · exact kept

theorem keeps_record {α : Type} (offset : ℤ) (k : ℕ) (decode : List Byte → α) :
    Keeps P (do Machine.lseek offset; let tempBuf ← Machine.read k; assert (tempBuf.length = k)
                pure (decode tempBuf)) :=
  .bind (keeps_lseek seek _) fun _ => .bind (fun s kept => seek s _ kept) fun _ =>
    .bind (.check _ _) fun _ => .pure _

theorem keeps_readSuperBlock : Keeps P (Disk.readSuperBlock : Ssu Machine Superblock) := by
  change Keeps P ssufsReadSuperBlock
  unfold ssufsReadSuperBlock
  exact keeps_record seek _ _ _

theorem keeps_readInode (inodenum : Int32) :
    Keeps P (Disk.readInode inodenum : Ssu Machine Inode) := by
  change Keeps P (ssufsReadInode inodenum)
  unfold ssufsReadInode
  exact .bind (.check _ _) fun _ => keeps_record seek _ _ _

theorem keeps_readDataBlock (blocknum : Int32) :
    Keeps P (Disk.readDataBlock blocknum : Ssu Machine Block) := by
  change Keeps P (ssufsReadDataBlock blocknum)
  unfold ssufsReadDataBlock
  exact .bind (.check _ _) fun _ => keeps_record seek _ _ _

theorem keeps_openNameiFrom (superblock : Superblock) (filename : CString) (l : List (Fin 8)) :
    Keeps P (openNameiFrom superblock filename l : Ssu Machine Int32) := by
  induction l with
  | nil => exact .pure _
  | cons i rest ih =>
    rw [openNameiFrom]
    exact .ite (.bind (keeps_readInode seek _) fun _ => .ite (.pure _) ih) ih

theorem keeps_openNamei (filename : CString) :
    Keeps P (openNamei filename : Ssu Machine Int32) := by
  rw [openNamei]
  exact .ite (.pure _) (.bind (keeps_readSuperBlock seek) fun _ => keeps_openNameiFrom seek _ _ _)

variable (move : ∀ h nseek, Keeps P (ssufsLseek h nseek : Ssu Machine Int32))

include move

theorem keeps_readLoop (h : Fin 20) (tmp : Inode) (nbytes : Int32) (l : List (Fin 4)) (fOffset : ℤ)
    (buf : List Byte) : Keeps P (readLoop h tmp nbytes l fOffset buf : Ssu Machine _) := by
  induction l generalizing fOffset buf with
  | nil => exact .pure _
  | cons i rest ih =>
    rw [readLoop]
    refine .ite (.bind (keeps_readDataBlock seek _) fun _ => .ite ?_ (ih _ _)) (ih _ _)
    exact .bind (move h nbytes) fun _ => .pure _

theorem keeps_read (h : Fin 20) (nbytes : Int32) :
    Keeps P (ssufsRead h nbytes : Ssu Machine _) := by
  rw [ssufsRead]
  refine .bind (fun _ kept => kept) fun _ => .bind (keeps_readInode seek _) fun _ => .ite (.pure _) ?_
  exact keeps_readLoop seek move _ _ _ _ _ _

end Reading

section Handles

variable {P : Machine → Prop} (seek : ∀ s pos, P s → P { s with pos := pos })
  (set : ∀ h handle, Keeps P (Disk.setFileHandle h handle : Ssu Machine Unit))

include seek set

theorem keeps_seek (h : Fin 20) (nseek : Int32) :
    Keeps P (ssufsLseek h nseek : Ssu Machine Int32) := by
  rw [ssufsLseek]
  refine .bind (fun _ kept => kept) fun _ => .bind (keeps_readInode seek _) fun _ => ?_
  exact .ite (.pure _) (.bind (set _ _) fun _ => .pure _)

theorem keeps_open (filename : CString) : Keeps P (ssufsOpen filename : Ssu Machine Int32) := by
  rw [ssufsOpen]
  refine .bind (keeps_openNamei seek _) fun _ => .bind ?_ fun _ => .ite (.pure _) ?_
  · rw [ssufsAllocFileHandle]
    refine .bind (fun _ kept => kept) fun _ => ?_
    split
    · exact .pure _
    · exact .pure _
  · split
    · exact .throw _
    · exact .bind (set _ _) fun _ => .pure _

end Handles

section Disk

variable {d : List Byte}

theorem disk_seek (s : Machine) (pos : ℕ) (same : s.disk = d) :
    ({ s with pos := pos } : Machine).disk = d := same

theorem keeps_disk_set (h : Fin 20) (handle : FileHandle) :
    Keeps (fun s : Machine => s.disk = d) (Disk.setFileHandle h handle) := fun _ same => same

theorem keeps_disk_lseek (h : Fin 20) (nseek : Int32) :
    Keeps (fun s : Machine => s.disk = d) (ssufsLseek h nseek) :=
  keeps_seek disk_seek keeps_disk_set h nseek

end Disk

/-- A read leaves the disk as it is. -/
theorem ssufsRead_disk {h : Fin 20} {nbytes : Int32} {s s' : Machine} {r : Int32 × List Byte}
    (runs : ssufsRead h nbytes s = .ok (r, s')) : s'.disk = s.disk :=
  (keeps_read disk_seek keeps_disk_lseek h nbytes).post rfl runs

/-- The calls that do not write to the disk. -/
def Call.ReadsOnly : Call → Prop
  | .openFile _ | .read _ _ | .lseek _ _ | .close _ => True
  | .create _ | .write _ _ _ | .delete _ => False

theorem exec_disk {call : Call} (readsOnly : call.ReadsOnly) {s s' : Machine} {r : Reply}
    (runs : call.exec s = .ok (r, s')) : s'.disk = s.disk := by
  have keeps (x : Keeps (fun t : Machine => t.disk = s.disk) call.exec) : s'.disk = s.disk :=
    x.post rfl runs
  cases call with
  | openFile filename => exact keeps (.bind (keeps_open disk_seek keeps_disk_set _) fun _ => .pure _)
  | read h nbytes =>
    exact keeps (.bind (keeps_read disk_seek keeps_disk_lseek _ _) fun _ => .pure _)
  | lseek h nseek => exact keeps (.bind (keeps_disk_lseek _ _) fun _ => .pure _)
  | close h => exact keeps (.bind (fun _ same => same) fun _ => .pure _)
  | create filename => cases readsOnly
  | write h buf nbytes => cases readsOnly
  | delete filename => cases readsOnly

/-! ## Writing -/

/-- A property that seeks, writes to the image and uninitialised memory do not affect. -/
structure Steady (P : Machine → Prop) : Prop where
  seek : ∀ s pos, P s → P { s with pos := pos }
  write : ∀ data, Keeps P (Machine.write data)
  memory : ∀ n, Keeps P (Machine.uninit n)

section Writing

variable {P : Machine → Prop} (steady : Steady P)

include steady

theorem keeps_writeSuperBlock (superblock : Superblock) :
    Keeps P (Disk.writeSuperBlock superblock : Ssu Machine Unit) := by
  change Keeps P (ssufsWriteSuperBlock superblock)
  unfold ssufsWriteSuperBlock
  exact .bind (steady.memory _) fun _ => .bind (keeps_lseek steady.seek _) fun _ => steady.write _

theorem keeps_writeInode (inodenum : Int32) (inode : Inode) :
    Keeps P (Disk.writeInode inodenum inode : Ssu Machine Unit) := by
  change Keeps P (ssufsWriteInode inodenum inode)
  unfold ssufsWriteInode
  exact .bind (.check _ _) fun _ => .bind (keeps_lseek steady.seek _) fun _ => steady.write _

theorem keeps_writeDataBlock (blocknum : Int32) (buf : Block) :
    Keeps P (Disk.writeDataBlock blocknum buf : Ssu Machine Unit) := by
  change Keeps P (ssufsWriteDataBlock blocknum buf)
  unfold ssufsWriteDataBlock
  exact .bind (.check _ _) fun _ => .bind (keeps_lseek steady.seek _) fun _ => steady.write _

theorem keeps_allocInode : Keeps P (ssufsAllocInode : Ssu Machine Int32) := by
  rw [ssufsAllocInode]
  refine .bind (keeps_readSuperBlock steady.seek) fun _ => ?_
  split
  · exact .bind (keeps_writeSuperBlock steady _) fun _ => .pure _
  · exact .pure _

theorem keeps_allocDataBlock : Keeps P (ssufsAllocDataBlock : Ssu Machine Int32) := by
  rw [ssufsAllocDataBlock]
  refine .bind (keeps_readSuperBlock steady.seek) fun _ => ?_
  split
  · exact .bind (keeps_writeSuperBlock steady _) fun _ => .pure _
  · exact .pure _

theorem keeps_freeDataBlock (blocknum : Int32) :
    Keeps P (ssufsFreeDataBlock blocknum : Ssu Machine Unit) := by
  rw [ssufsFreeDataBlock]
  refine .bind (keeps_readSuperBlock steady.seek) fun _ => ?_
  split
  · exact .throw _
  · exact .bind (.check _ _) fun _ => keeps_writeSuperBlock steady _

theorem keeps_freeSlot (locals : Superblock × Inode) (i : Fin 4) :
    Keeps P (freeSlot locals i : Ssu Machine (Superblock × Inode)) := by
  rw [freeSlot]
  refine .ite (.bind (keeps_writeSuperBlock steady _) fun _ => ?_) (.pure _)
  refine .bind (keeps_freeDataBlock steady _) fun _ => ?_
  exact .bind (keeps_readSuperBlock steady.seek) fun _ => .pure _

theorem keeps_freeInode (inodenum : Int32) :
    Keeps P (ssufsFreeInode inodenum : Ssu Machine Unit) := by
  rw [ssufsFreeInode]
  refine .bind (.check _ _) fun _ => .bind (keeps_readSuperBlock steady.seek) fun _ => ?_
  refine .bind (keeps_readInode steady.seek _) fun _ => ?_
  split
  · exact .throw _
  · refine .bind (.check _ _) fun _ => .bind (.foldlM (keeps_freeSlot steady) _ _) fun _ => ?_
    exact .bind (keeps_writeSuperBlock steady _) fun _ => keeps_writeInode steady _ _

theorem keeps_create (filename : CString) :
    Keeps P (ssufsCreate filename : Ssu Machine Int32) := by
  rw [ssufsCreate]
  refine .bind (keeps_openNamei steady.seek _) fun _ => .ite (.pure _) ?_
  refine .bind (keeps_allocInode steady) fun _ => .ite (.pure _) ?_
  refine .bind (keeps_readInode steady.seek _) fun _ => ?_
  exact .bind (keeps_writeInode steady _ _) fun _ => .pure _

theorem keeps_scrubSlot (tmp : Inode) (u : Unit) (i : Fin 4) :
    Keeps P (scrubSlot tmp u i : Ssu Machine Unit) := by
  rw [scrubSlot]
  refine .ite (.bind (keeps_readDataBlock steady.seek _) fun _ => ?_) (.pure _)
  exact keeps_writeDataBlock steady _ _

theorem keeps_delete (filename : CString) :
    Keeps P (ssufsDelete filename : Ssu Machine Unit) := by
  rw [ssufsDelete]
  refine .bind (keeps_openNamei steady.seek _) fun _ => .ite (.pure _) ?_
  refine .bind (keeps_readInode steady.seek _) fun _ => ?_
  exact .bind (.foldlM (keeps_scrubSlot steady _) _ _) fun _ => keeps_freeInode steady _

theorem keeps_rollBackSlot (locals : WriteLocals) (u : Unit) (j : Fin 4) :
    Keeps P (rollBackSlot locals u j : Ssu Machine Unit) := by
  rw [rollBackSlot]
  refine .ite (.ite (keeps_writeDataBlock steady _ _) ?_) (.pure _)
  exact .bind (keeps_writeDataBlock steady _ _) fun _ => keeps_freeDataBlock steady _

theorem keeps_loadSlot (i : Fin 4) (locals : WriteLocals) :
    Keeps P (loadSlot i locals : Ssu Machine WriteLocals) := by
  rw [loadSlot]
  refine .ite (.bind (keeps_readDataBlock steady.seek _) fun _ => ?_) (.pure _)
  exact .bind (.check _ _) fun _ => .pure _

variable (move : ∀ h nseek, Keeps P (ssufsLseek h nseek : Ssu Machine Int32))

include move

theorem keeps_writeSlot {h : Fin 20} {x : Int32} {buf : ℕ → Byte} {nbytes : Int32} {i : Fin 4}
    {next : WriteLocals → Ssu Machine Int32} (rest : ∀ locals, Keeps P (next locals))
    (locals : WriteLocals) : Keeps P (writeSlot h x buf nbytes i next locals) := by
  rw [writeSlot]
  refine .bind (keeps_loadSlot steady _ _) fun _ => .bind (keeps_writeDataBlock steady _ _) fun _ => ?_
  refine .ite (.bind (keeps_writeInode steady _ _) fun _ => ?_) (rest _)
  exact .bind (move _ _) fun _ => .pure _

theorem keeps_writeLoop (h : Fin 20) (x : Int32) (buf : ℕ → Byte) (nbytes : Int32)
    (l : List (Fin 4)) (locals : WriteLocals) :
    Keeps P (writeLoop h x buf nbytes l locals : Ssu Machine Int32) := by
  induction l generalizing locals with
  | nil => exact .pure _
  | cons i rest ih =>
    rw [writeLoop]
    refine .ite (.ite (.bind (keeps_allocDataBlock steady) fun _ => .ite ?_ ?_) ?_) (ih _)
    · exact .bind (.foldlM (keeps_rollBackSlot steady _) _ _) fun _ => .pure _
    · exact keeps_writeSlot steady move ih _
    · exact keeps_writeSlot steady move ih _

theorem keeps_write (h : Fin 20) (buf : ℕ → Byte) (nbytes : Int32) :
    Keeps P (ssufsWrite h buf nbytes : Ssu Machine Int32) := by
  rw [ssufsWrite]
  refine .bind (fun _ kept => kept) fun _ => .bind (steady.memory _) fun _ => ?_
  refine .bind (steady.memory _) fun _ => .bind (steady.memory _) fun _ => ?_
  refine .bind (keeps_readInode steady.seek _) fun _ => ?_
  exact .ite (.pure _) (keeps_writeLoop steady move _ _ _ _ _ _)

theorem keeps_exec (opening : ∀ filename, Keeps P (ssufsOpen filename : Ssu Machine Int32))
    (closing : ∀ h, Keeps P (ssufsClose h : Ssu Machine Unit)) (call : Call) :
    Keeps P (call.exec : Ssu Machine Reply) := by
  cases call with
  | create filename => exact .bind (keeps_create steady _) fun _ => .pure _
  | openFile filename => exact .bind (opening _) fun _ => .pure _
  | write h buf nbytes => exact .bind (keeps_write steady move _ _ _) fun _ => .pure _
  | read h nbytes => exact .bind (keeps_read steady.seek move _ _) fun _ => .pure _
  | lseek h nseek => exact .bind (move _ _) fun _ => .pure _
  | close h => exact .bind (closing _) fun _ => .pure _
  | delete filename => exact .bind (keeps_delete steady _) fun _ => .pure _

end Writing

/-! ## The length of the image -/

section Long

variable {n : ℕ}

theorem steady_long : Steady fun s => n ≤ s.disk.length where
  seek _ _ long := long
  write data s long := long.trans (by
    rw [ByteFile.length_writeAt]
    exact le_max_left _ _)
  memory _ _ long := long

/-- No call shortens the image, whatever its arguments. -/
theorem UserStep.long {allowed : Store → Call → Prop} {s s' : Machine} {e : Call × Reply}
    (long : n ≤ s.disk.length) (step : UserStep allowed s e s') : n ≤ s'.disk.length := by
  have set (h : Fin 20) (handle : FileHandle) : Keeps (fun s : Machine => n ≤ s.disk.length)
      (Disk.setFileHandle h handle) := fun _ long => long
  have keeps := keeps_exec steady_long (keeps_seek steady_long.seek set)
    (keeps_open steady_long.seek set) (fun h => set h _) e.1
  exact keeps.post long step.2

end Long

/-! ## The table of open files -/

/-- Every open handle has the number of an inode. -/
def Selects (fileHandles : Fin 20 → FileHandle) : Prop :=
  ∀ h, (fileHandles h).inodeNumber ≠ -1 → ∃ i, index 8 (fileHandles h).inodeNumber = some i

theorem Selects.update {fileHandles : Fin 20 → FileHandle} (selects : Selects fileHandles)
    {h : Fin 20} {handle : FileHandle}
    (selected : handle.inodeNumber ≠ -1 → ∃ i, index 8 handle.inodeNumber = some i) :
    Selects (Function.update fileHandles h handle) := by
  intro h' opened
  rw [Function.update_apply] at opened ⊢
  split_ifs at opened ⊢
  · exact selected opened
  · exact selects h' opened

/-- The image holds all the records, and every open handle has the number of an inode. -/
theorem steady_selects : Steady fun s => 320 ≤ s.disk.length ∧ Selects s.fileHandles where
  seek _ _ kept := kept
  write data s kept := ⟨steady_long.write data s kept.1, kept.2⟩
  memory _ _ kept := kept

theorem keeps_selects_seek (h : Fin 20) (nseek : Int32) :
    Keeps (fun s : Machine => 320 ≤ s.disk.length ∧ Selects s.fileHandles) (ssufsLseek h nseek) := by
  rintro s ⟨long, selects⟩
  rw [ssufsLseek]
  refine .bind (.of_ok (show Disk.fileHandleArray s = _ from rfl) (.bind ?_))
  refine (keeps_readInode (P := fun t => t.disk = s.disk ∧ t.fileHandles = s.fileHandles)
    (fun _ _ same => same) _ s ⟨rfl, rfl⟩).imp ?_
  rintro tmp t ⟨disk, handles⟩
  have kept : 320 ≤ t.disk.length ∧ Selects t.fileHandles := by
    rw [disk, handles]
    exact ⟨long, selects⟩
  refine Keeps.ite (.pure _) (.bind (fun u kept => ?_) fun _ => .pure _) t kept
  exact ⟨kept.1, kept.2.update (selects h)⟩

/-- The lookup stays within the records, so that the records say which handle is set. -/
theorem keeps_selects_open (filename : CString) :
    Keeps (fun s : Machine => 320 ≤ s.disk.length ∧ Selects s.fileHandles) (ssufsOpen filename) := by
  rintro s ⟨long, selects⟩
  have sim : Implements (ssufsOpen filename) (ssufsOpen filename) :=
    ssufsOpen_agrees machine_agrees_store filename
  rcases ssufsOpen_cases filename s.store with refused | ⟨i, h, -, -, opened⟩
  · obtain ⟨t, returns, same, long'⟩ := sim.lift long refused
    have handles : t.fileHandles = s.fileHandles := congrArg Store.fileHandles same
    refine .of_ok returns ⟨long', ?_⟩
    rw [handles]
    exact selects
  · obtain ⟨t, returns, same, long'⟩ := sim.lift long opened
    have handles : t.fileHandles = Function.update s.fileHandles h ⟨0, ofIndex i⟩ :=
      congrArg Store.fileHandles same
    refine .of_ok returns ⟨long', ?_⟩
    rw [handles]
    exact selects.update fun _ => ⟨i, index_ofIndex (by norm_num) i⟩

theorem keeps_selects_close (h : Fin 20) :
    Keeps (fun s : Machine => 320 ≤ s.disk.length ∧ Selects s.fileHandles) (ssufsClose h) :=
  fun _ kept => ⟨kept.1, kept.2.update fun opened => absurd rfl opened⟩

theorem selects_of_format {s s₀ : Machine} (format : ssufsFormatDisk s = .ok ((), s₀)) :
    Selects s₀.fileHandles := by
  have closed : s₀.fileHandles = fun _ => closedHandle :=
    congrArg Store.fileHandles (holds_of_format format).1
  intro h opened
  rw [closed] at opened
  exact absurd rfl opened

/-- In every state that calls of any kind can reach from a formatted disk, the image holds all the
records and every open handle has the number of an inode. -/
theorem reachable_selects {s s₀ t : Machine} {l : List (Event Machine (Call × Reply))}
    (format : ssufsFormatDisk s = .ok ((), s₀)) (run : Run (UserStep fun _ _ => True) s₀ l t) :
    320 ≤ t.disk.length ∧ Selects t.fileHandles :=
  run.invariant (P := fun x => 320 ≤ x.disk.length ∧ Selects x.fileHandles)
    ⟨(holds_of_format format).2, selects_of_format format⟩ fun _ a _ kept step =>
      (keeps_exec steady_selects keeps_selects_seek keeps_selects_open keeps_selects_close a.1).post
        kept step.2

end SsuOs.Ssufs
