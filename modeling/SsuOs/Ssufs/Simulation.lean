import SsuOs.Ssufs.Ops

/-!
# Disks that agree

The code of ssufs works on the state only through the interface `Disk`. If the functions of the
interface do the same on related states of two disks, so does every call (`exec_agrees`). This
relates the bytes of the image to its records, and an image to itself to show what no call can
change.
-/

namespace SsuOs.Ssufs

open Prog (Simulates)

/-- On states that `R` relates, the functions of the interface do the same. -/
structure Agrees {σ τ : Type} [Disk σ] [Disk τ] (R : σ → τ → Prop) (lost : Fault → Prop) :
    Prop where
  readSuperBlock : Simulates R lost Disk.readSuperBlock Disk.readSuperBlock
  writeSuperBlock : ∀ superblock,
    Simulates R lost (Disk.writeSuperBlock superblock) (Disk.writeSuperBlock superblock)
  readInode : ∀ inodenum, Simulates R lost (Disk.readInode inodenum) (Disk.readInode inodenum)
  writeInode : ∀ inodenum inode,
    Simulates R lost (Disk.writeInode inodenum inode) (Disk.writeInode inodenum inode)
  readDataBlock : ∀ blocknum,
    Simulates R lost (Disk.readDataBlock blocknum) (Disk.readDataBlock blocknum)
  writeDataBlock : ∀ blocknum buf,
    Simulates R lost (Disk.writeDataBlock blocknum buf) (Disk.writeDataBlock blocknum buf)
  fileHandleArray : Simulates R lost Disk.fileHandleArray Disk.fileHandleArray
  setFileHandle : ∀ fileHandle handle,
    Simulates R lost (Disk.setFileHandle fileHandle handle) (Disk.setFileHandle fileHandle handle)
  uninit : ∀ n, Simulates R lost (Disk.uninit n) (Disk.uninit n)

variable {σ τ : Type} [Disk σ] [Disk τ] {R : σ → τ → Prop} {lost : Fault → Prop}
  (agrees : Agrees R lost)

include agrees

theorem openNameiFrom_agrees (superblock : Superblock) (filename : CString)
    (l : List (Fin 8)) :
    Simulates R lost (openNameiFrom superblock filename l)
      (openNameiFrom superblock filename l) := by
  induction l with
  | nil => exact .pure _
  | cons i rest ih =>
    refine .ite (fun _ => ?_) fun _ => ih
    exact .bind (agrees.readInode _) fun tmp => .ite (fun _ => .pure _) fun _ => ih

theorem openNamei_agrees (filename : CString) :
    Simulates R lost (openNamei filename) (openNamei filename) :=
  .ite (fun _ => .pure _) fun _ =>
    .bind agrees.readSuperBlock fun _ => openNameiFrom_agrees agrees _ _ _

theorem ssufsAllocInode_agrees : Simulates R lost ssufsAllocInode ssufsAllocInode := by
  refine .bind agrees.readSuperBlock fun superblock => ?_
  split
  · exact .bind (agrees.writeSuperBlock _) fun _ => .pure _
  · exact .pure _

theorem ssufsAllocDataBlock_agrees : Simulates R lost ssufsAllocDataBlock ssufsAllocDataBlock := by
  refine .bind agrees.readSuperBlock fun superblock => ?_
  split
  · exact .bind (agrees.writeSuperBlock _) fun _ => .pure _
  · exact .pure _

theorem ssufsFreeDataBlock_agrees (blocknum : Int32) :
    Simulates R lost (ssufsFreeDataBlock blocknum) (ssufsFreeDataBlock blocknum) := by
  refine .bind agrees.readSuperBlock fun superblock => ?_
  cases index 30 blocknum with
  | none => exact .throw _
  | some b => exact .bind (.check _ _) fun _ => agrees.writeSuperBlock _

theorem freeSlot_agrees (locals : Superblock × Inode) (i : Fin 4) :
    Simulates R lost (freeSlot locals i) (freeSlot locals i) := by
  refine .ite (fun _ => ?_) fun _ => .pure _
  refine .bind (agrees.writeSuperBlock _) fun _ => ?_
  refine .bind (ssufsFreeDataBlock_agrees agrees _) fun _ => ?_
  exact .bind agrees.readSuperBlock fun _ => .pure _

theorem ssufsFreeInode_agrees (inodenum : Int32) :
    Simulates R lost (ssufsFreeInode inodenum) (ssufsFreeInode inodenum) := by
  refine .bind (.check _ _) fun _ => .bind agrees.readSuperBlock fun superblock => ?_
  refine .bind (agrees.readInode _) fun inode => ?_
  cases index 8 inodenum with
  | none => exact .throw _
  | some i =>
    refine .bind (.check _ _) fun _ => .bind (.foldlM (freeSlot_agrees agrees) _ _) fun locals => ?_
    exact .bind (agrees.writeSuperBlock _) fun _ => agrees.writeInode _ _

theorem ssufsAllocFileHandle_agrees :
    Simulates R lost ssufsAllocFileHandle ssufsAllocFileHandle := by
  refine .bind agrees.fileHandleArray fun fileHandles => ?_
  split <;> exact .pure _

theorem ssufsOpen_agrees (filename : CString) :
    Simulates R lost (ssufsOpen filename) (ssufsOpen filename) := by
  refine .bind (openNamei_agrees agrees _) fun iNum => ?_
  refine .bind (ssufsAllocFileHandle_agrees agrees) fun handlerNum => ?_
  refine .ite (fun _ => .pure _) fun _ => ?_
  cases index 20 handlerNum with
  | none => exact .throw _
  | some h => exact .bind (agrees.setFileHandle _ _) fun _ => .pure _

theorem ssufsLseek_agrees (fileHandle : Fin 20) (nseek : Int32) :
    Simulates R lost (ssufsLseek fileHandle nseek) (ssufsLseek fileHandle nseek) := by
  refine .bind agrees.fileHandleArray fun fileHandles => ?_
  refine .bind (agrees.readInode _) fun tmp => .ite (fun _ => .pure _) fun _ => ?_
  exact .bind (agrees.setFileHandle _ _) fun _ => .pure _

theorem ssufsCreate_agrees (filename : CString) :
    Simulates R lost (ssufsCreate filename) (ssufsCreate filename) := by
  refine .bind (openNamei_agrees agrees _) fun found => .ite (fun _ => .pure _) fun _ => ?_
  refine .bind (ssufsAllocInode_agrees agrees) fun iNum => .ite (fun _ => .pure _) fun _ => ?_
  refine .bind (agrees.readInode _) fun inode => ?_
  exact .bind (agrees.writeInode _ _) fun _ => .pure _

theorem scrubSlot_agrees (tmp : Inode) (u : Unit) (i : Fin 4) :
    Simulates R lost (scrubSlot tmp u i) (scrubSlot tmp u i) :=
  .ite (fun _ => .bind (agrees.readDataBlock _) fun _ => agrees.writeDataBlock _ _)
    fun _ => .pure _

theorem ssufsDelete_agrees (filename : CString) :
    Simulates R lost (ssufsDelete filename) (ssufsDelete filename) := by
  refine .bind (openNamei_agrees agrees _) fun fInode => .ite (fun _ => .pure _) fun _ => ?_
  refine .bind (agrees.readInode _) fun tmp => ?_
  exact .bind (.foldlM (scrubSlot_agrees agrees tmp) _ _) fun _ => ssufsFreeInode_agrees agrees _

theorem readLoop_agrees (fileHandle : Fin 20) (tmp : Inode) (nbytes : Int32)
    (l : List (Fin 4)) (fOffset : ℤ) (buf : List Byte) :
    Simulates R lost (readLoop fileHandle tmp nbytes l fOffset buf)
      (readLoop fileHandle tmp nbytes l fOffset buf) := by
  induction l generalizing fOffset buf with
  | nil => exact .pure _
  | cons i rest ih =>
    refine .ite (fun _ => ?_) fun _ => ih _ _
    refine .bind (agrees.readDataBlock _) fun tmpBuf => .ite (fun _ => ?_) fun _ => ih _ _
    exact .bind (ssufsLseek_agrees agrees _ _) fun _ => .pure _

theorem ssufsRead_agrees (fileHandle : Fin 20) (nbytes : Int32) :
    Simulates R lost (ssufsRead fileHandle nbytes) (ssufsRead fileHandle nbytes) := by
  refine .bind agrees.fileHandleArray fun fileHandles => ?_
  refine .bind (agrees.readInode _) fun tmp => .ite (fun _ => .pure _) fun _ => ?_
  exact readLoop_agrees agrees _ _ _ _ _ _

theorem rollBackSlot_agrees (locals : WriteLocals) (u : Unit) (j : Fin 4) :
    Simulates R lost (rollBackSlot locals u j) (rollBackSlot locals u j) := by
  refine .ite (fun _ => .ite (fun _ => agrees.writeDataBlock _ _) fun _ => ?_) fun _ => .pure _
  exact .bind (agrees.writeDataBlock _ _) fun _ => ssufsFreeDataBlock_agrees agrees _

theorem loadSlot_agrees (i : Fin 4) (locals : WriteLocals) :
    Simulates R lost (loadSlot i locals) (loadSlot i locals) :=
  .ite (fun _ => .bind (agrees.readDataBlock _) fun _ => .bind (.check _ _) fun _ => .pure _)
    fun _ => .pure _

theorem writeSlot_agrees (fileHandle : Fin 20) (fInode : Int32) (buf : ℕ → Byte)
    (nbytes : Int32) (i : Fin 4) {next : WriteLocals → Ssu σ Int32}
    {next' : WriteLocals → Ssu τ Int32}
    (rest : ∀ locals, Simulates R lost (next locals) (next' locals))
    (locals : WriteLocals) :
    Simulates R lost (writeSlot fileHandle fInode buf nbytes i next locals)
      (writeSlot fileHandle fInode buf nbytes i next' locals) := by
  refine .bind (loadSlot_agrees agrees i locals) fun locals => ?_
  refine .bind (agrees.writeDataBlock _ _) fun _ => .ite (fun _ => ?_) fun _ => rest _
  refine .bind (agrees.writeInode _ _) fun _ => ?_
  exact .bind (ssufsLseek_agrees agrees _ _) fun _ => .pure _

theorem writeLoop_agrees (fileHandle : Fin 20) (fInode : Int32) (buf : ℕ → Byte)
    (nbytes : Int32) (l : List (Fin 4)) (locals : WriteLocals) :
    Simulates R lost (writeLoop fileHandle fInode buf nbytes l locals)
      (writeLoop fileHandle fInode buf nbytes l locals) := by
  induction l generalizing locals with
  | nil => exact .pure _
  | cons i rest ih =>
    refine .ite (fun _ => .ite (fun _ => ?_) fun _ => writeSlot_agrees agrees _ _ _ _ _ ih _)
      fun _ => ih _
    refine .bind (ssufsAllocDataBlock_agrees agrees) fun block => ?_
    refine .ite (fun _ => ?_) fun _ => writeSlot_agrees agrees _ _ _ _ _ ih _
    exact .bind (.foldlM (rollBackSlot_agrees agrees _) _ _) fun _ => .pure _

theorem ssufsWrite_agrees (fileHandle : Fin 20) (buf : ℕ → Byte) (nbytes : Int32) :
    Simulates R lost (ssufsWrite fileHandle buf nbytes) (ssufsWrite fileHandle buf nbytes) := by
  refine .bind agrees.fileHandleArray fun fileHandles => ?_
  refine .bind (agrees.uninit _) fun _ => .bind (agrees.uninit _) fun _ => ?_
  refine .bind (agrees.uninit _) fun _ => .bind (agrees.readInode _) fun tmp => ?_
  exact .ite (fun _ => .pure _) fun _ => writeLoop_agrees agrees _ _ _ _ _ _

/-- A call does the same on both. -/
theorem exec_agrees (call : Call) : Simulates R lost call.exec call.exec := by
  cases call with
  | create filename => exact .bind (ssufsCreate_agrees agrees _) fun _ => .pure _
  | openFile filename => exact .bind (ssufsOpen_agrees agrees _) fun _ => .pure _
  | write fileHandle buf nbytes => exact .bind (ssufsWrite_agrees agrees _ _ _) fun _ => .pure _
  | read fileHandle nbytes => exact .bind (ssufsRead_agrees agrees _ _) fun _ => .pure _
  | lseek fileHandle nseek => exact .bind (ssufsLseek_agrees agrees _ _) fun _ => .pure _
  | close fileHandle => exact .bind (agrees.setFileHandle _ _) fun _ => .pure _
  | delete filename => exact .bind (ssufsDelete_agrees agrees _) fun _ => .pure _

end SsuOs.Ssufs
