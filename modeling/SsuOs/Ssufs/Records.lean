import SsuOs.Ssufs.Image
import SsuOs.Ssufs.Simulation

/-!
# The image as a store of records

The disk image behaves as a superblock, 8 inodes and 30 data blocks that are read and written
independently of each other. `Machine.store` reads the records off the bytes, and every function of
ssufs on the bytes simulates the same function on the records: it returns the same value, ends in
an image of the same records, or fails the same assertion.
-/

namespace SsuOs.Ssufs

open ByteFile

/-- The records of a disk, the length of its image in bytes, the table of open files and what
uninitialised memory holds. -/
@[ext] structure Store where
  superblock : Superblock
  inode : Fin 8 → Inode
  block : Fin 30 → Block
  length : ℕ
  fileHandles : Fin 20 → FileHandle
  junk : ℕ → Byte

namespace Store

@[simps -fullyApplied] def putSuperblock (v : Store) (superblock : Superblock) : Store :=
  { v with superblock := superblock, junk := fun k => v.junk (18 + k) }

@[simps -fullyApplied] def putInode (v : Store) (i : Fin 8) (inode : Inode) : Store :=
  { v with inode := Function.update v.inode i inode }

/-- Writing a block lengthens the image up to the end of the block. -/
@[simps -fullyApplied] def putBlock (v : Store) (b : Fin 30) (buf : Block) : Store :=
  { v with block := Function.update v.block b buf, length := max v.length (64 * (6 + b)) }

@[simps -fullyApplied] def putHandle (v : Store) (h : Fin 20) (handle : FileHandle) : Store :=
  { v with fileHandles := Function.update v.fileHandles h handle }

def readSuperBlock : Ssu Store Superblock := fun v => .ok (v.superblock, v)

def writeSuperBlock (superblock : Superblock) : Ssu Store Unit := fun v =>
  .ok ((), v.putSuperblock superblock)

def readInode (inodenum : Int32) : Ssu Store Inode := do
  assert (inodenum.toInt < 8)
  match index 8 inodenum with
  | none => throw .outsideRecords
  | some i => fun v => .ok (v.inode i, v)

def writeInode (inodenum : Int32) (inode : Inode) : Ssu Store Unit := do
  assert (inodenum.toInt < 8)
  match index 8 inodenum with
  | none => throw .outsideRecords
  | some i => fun v => .ok ((), v.putInode i inode)

/-- A block past the end of the image cannot be read. -/
def readDataBlock (blocknum : Int32) : Ssu Store Block := do
  assert (blocknum.toInt < 30)
  match index 30 blocknum with
  | none => throw .outsideRecords
  | some b => fun v => if 64 * (6 + b) ≤ v.length then .ok (v.block b, v) else .error .assertion

def writeDataBlock (blocknum : Int32) (buf : Block) : Ssu Store Unit := do
  assert (blocknum.toInt < 30)
  match index 30 blocknum with
  | none => throw .outsideRecords
  | some b => fun v => .ok ((), v.putBlock b buf)

def fileHandleArray : Ssu Store (Fin 20 → FileHandle) := fun v => .ok (v.fileHandles, v)

def setFileHandle (fileHandle : Fin 20) (handle : FileHandle) : Ssu Store Unit := fun v =>
  .ok ((), v.putHandle fileHandle handle)

def uninit (n : ℕ) : Ssu Store (ℕ → Byte) := fun v =>
  .ok (v.junk, { v with junk := fun k => v.junk (n + k) })

end Store

instance : Disk Store where
  readSuperBlock := Store.readSuperBlock
  writeSuperBlock := Store.writeSuperBlock
  readInode := Store.readInode
  writeInode := Store.writeInode
  readDataBlock := Store.readDataBlock
  writeDataBlock := Store.writeDataBlock
  fileHandleArray := Store.fileHandleArray
  setFileHandle := Store.setFileHandle
  uninit := Store.uninit

/-! ## The records of an image -/

section Records

variable (disk : List Byte)

def superblockOf : Superblock := Superblock.ofBytes (byteAt disk)

def inodeOf (i : Fin 8) : Inode := Inode.ofBytes fun k => byteAt disk (64 + 32 * i + k)

def blockOf (b : Fin 30) : Block := fun p => byteAt disk (64 * (5 + b) + p)

end Records

/-- The records on the disk of a machine. -/
def Machine.store (s : Machine) : Store where
  superblock := superblockOf s.disk
  inode := inodeOf s.disk
  block := blockOf s.disk
  length := s.disk.length
  fileHandles := s.fileHandles
  junk := s.junk

/-- Reading back the bytes of a write. -/
theorem byteAt_writeAt_same (disk data : List Byte) (pos k : ℕ) (below : k < data.length) :
    byteAt (writeAt disk pos data) (pos + k) = byteAt data k := by
  rw [byteAt_writeAt, if_pos (by omega), Nat.add_sub_cancel_left]

/-- Reading bytes that a write does not reach. -/
theorem byteAt_writeAt_other (disk data : List Byte) (pos k : ℕ)
    (apart : k < pos ∨ pos + data.length ≤ k) :
    byteAt (writeAt disk pos data) k = byteAt disk k := by
  rw [byteAt_writeAt, if_neg (by omega)]

section Frames

variable (disk : List Byte)

theorem superblockOf_writeSuperblock (superblock : Superblock) (padding : List Byte) :
    superblockOf (writeAt disk 0 (superblock.bytes ++ padding)) = superblock := by
  conv_rhs => rw [← superblock.ofBytes_bytes]
  apply Superblock.ofBytes_congr
  intro k below
  have written := byteAt_writeAt_same disk (superblock.bytes ++ padding) 0 k (by simp; omega)
  rw [Nat.zero_add] at written
  rw [written, byteAt_append_left (by simpa using below)]

theorem superblockOf_writeInode (i : Fin 8) (inode : Inode) :
    superblockOf (writeAt disk (64 + 32 * i) inode.bytes) = superblockOf disk :=
  Superblock.ofBytes_congr fun k below => byteAt_writeAt_other _ _ _ _ (by omega)

theorem superblockOf_writeBlock (b : Fin 30) (buf : Block) :
    superblockOf (writeAt disk (64 * (5 + b)) (List.ofFn buf)) = superblockOf disk :=
  Superblock.ofBytes_congr fun k below => byteAt_writeAt_other _ _ _ _ (by omega)

theorem inodeOf_writeSuperblock (data : List Byte) (long : data.length = 64) :
    inodeOf (writeAt disk 0 data) = inodeOf disk := by
  funext i
  exact Inode.ofBytes_congr fun k below => byteAt_writeAt_other _ _ _ _ (by omega)

theorem inodeOf_writeInode (i : Fin 8) (inode : Inode) :
    inodeOf (writeAt disk (64 + 32 * i) inode.bytes) =
      Function.update (inodeOf disk) i inode := by
  funext j
  by_cases same : j = i
  · subst same
    rw [Function.update_self]
    conv_rhs => rw [← inode.ofBytes_bytes]
    exact Inode.ofBytes_congr fun k below => byteAt_writeAt_same _ _ _ _ (by simpa using below)
  · rw [Function.update_of_ne same]
    have apart : j.val ≠ i.val := fun clash => same (Fin.ext clash)
    refine Inode.ofBytes_congr fun k below => byteAt_writeAt_other _ _ _ _ ?_
    rw [Inode.length_bytes]
    omega

theorem inodeOf_writeBlock (b : Fin 30) (buf : Block) :
    inodeOf (writeAt disk (64 * (5 + b)) (List.ofFn buf)) = inodeOf disk := by
  funext i
  exact Inode.ofBytes_congr fun k below => byteAt_writeAt_other _ _ _ _ (by omega)

theorem blockOf_writeSuperblock (data : List Byte) (long : data.length = 64) :
    blockOf (writeAt disk 0 data) = blockOf disk := by
  funext b p
  exact byteAt_writeAt_other _ _ _ _ (by omega)

theorem blockOf_writeInode (i : Fin 8) (inode : Inode) :
    blockOf (writeAt disk (64 + 32 * i) inode.bytes) = blockOf disk := by
  funext b p
  refine byteAt_writeAt_other _ _ _ _ ?_
  rw [Inode.length_bytes]
  omega

theorem blockOf_writeBlock (b : Fin 30) (buf : Block) :
    blockOf (writeAt disk (64 * (5 + b)) (List.ofFn buf)) =
      Function.update (blockOf disk) b buf := by
  funext c p
  by_cases same : c = b
  · subst same
    rw [Function.update_self, ← byteAt_ofFn buf p]
    exact byteAt_writeAt_same _ _ _ _ (by simp)
  · rw [Function.update_of_ne same]
    have apart : c.val ≠ b.val := fun clash => same (Fin.ext clash)
    refine byteAt_writeAt_other _ _ _ _ ?_
    rw [List.length_ofFn]
    omega

end Frames

/-! ## Simulation of the record functions -/

/-- A machine whose image has at least the superblock and the inodes, with the records `v`. -/
def Holds (s : Machine) (v : Store) : Prop := s.store = v ∧ 320 ≤ s.disk.length

/-- The code on the bytes simulates the code on the records. -/
abbrev Implements {α : Type} (x : Ssu Machine α) (y : Ssu Store α) : Prop :=
  Prog.Simulates Holds (· = Fault.outsideRecords) x y

/-- A call on the bytes that returns is a call on the records that returns, unless that one gives
up. -/
theorem Implements.ok {α : Type} {x : Ssu Machine α} {y : Ssu Store α} (sim : Implements x y)
    {s s' : Machine} {a : α} (long : 320 ≤ s.disk.length) (runs : x s = .ok (a, s'))
    (tame : y s.store ≠ .error .outsideRecords) :
    y s.store = .ok (a, s'.store) ∧ 320 ≤ s'.disk.length := by
  have agrees := sim s s.store ⟨rfl, long⟩
  cases abstract : y s.store with
  | error e =>
    rw [abstract] at agrees
    rcases agrees with lost | fails
    · exact absurd (abstract.trans (congrArg _ lost)) tame
    · rw [runs] at fails
      cases fails
  | ok r =>
    obtain ⟨a', v⟩ := r
    rw [abstract] at agrees
    obtain ⟨s'', runs', holds, long'⟩ := agrees
    rw [runs] at runs'
    cases runs'
    exact ⟨by rw [holds], long'⟩

/-- A call on the records that returns is a call on the bytes that returns. -/
theorem Implements.lift {α : Type} {x : Ssu Machine α} {y : Ssu Store α} (sim : Implements x y)
    {s : Machine} {v : Store} {a : α} (long : 320 ≤ s.disk.length)
    (runs : y s.store = .ok (a, v)) :
    ∃ s', x s = .ok (a, s') ∧ s'.store = v ∧ 320 ≤ s'.disk.length := by
  have agrees := sim s s.store ⟨rfl, long⟩
  rw [runs] at agrees
  exact agrees

open Machine

theorem lseek_apply (s : Machine) {offset : ℤ} {n : ℕ} (position : offset = n) :
    lseek offset s = .ok ((), { s with pos := n }) := by
  subst position
  simp [lseek]

/-- `lseek` and `read` at a position with enough bytes behind it. -/
theorem seek_read {α : Type} (s : Machine) {offset : ℤ} {n : ℕ} (pos : ℕ) (position : offset = pos)
    (within : pos + n ≤ s.disk.length) (f : List Byte → α) :
    (do lseek offset
        let tempBuf ← read n
        assert (tempBuf.length = n)
        pure (f tempBuf) : Ssu Machine α) s =
      .ok (f (readAt s.disk pos n), { s with pos := pos + n }) := by
  have long := length_readAt s.disk pos n within
  rw [Prog.bind_ok (lseek_apply s position), Prog.bind_ok rfl, assert,
    Prog.bind_ok (Prog.check_pass long _), Prog.pure_apply]
  simp only [long]

/-- Reading past the end of the image fails the assertion. -/
theorem seek_read_short {α : Type} (s : Machine) {offset : ℤ} {n : ℕ} (pos : ℕ) (position : offset = pos)
    (positive : 0 < n) (short : s.disk.length < pos + n) (f : List Byte → α) :
    (do lseek offset
        let tempBuf ← read n
        assert (tempBuf.length = n)
        pure (f tempBuf) : Ssu Machine α) s = .error .assertion := by
  have wrong := length_readAt_short s.disk pos n positive short
  rw [Prog.bind_ok (lseek_apply s position), Prog.bind_ok rfl, assert]
  exact Prog.bind_error (Prog.check_fail wrong _)

theorem seek_write (s : Machine) {offset : ℤ} (pos : ℕ) (position : offset = pos)
    (data : List Byte) :
    (do lseek offset
        write data : Ssu Machine Unit) s =
      .ok ((), { s with disk := writeAt s.disk pos data, pos := pos + data.length }) := by
  rw [Prog.bind_ok (lseek_apply s position)]
  rfl

theorem inode_position {inodenum : Int32} {i : Fin 8} (selected : index 8 inodenum = some i) :
    64 + inodenum.toInt * 32 = ((64 + 32 * i : ℕ) : ℤ) := by
  have value := index_eq_some.1 selected
  omega

theorem block_position {blocknum : Int32} {b : Fin 30} (selected : index 30 blocknum = some b) :
    (64 * (5 + blocknum) : Int32).toInt = ((64 * (5 + b) : ℕ) : ℤ) := by
  have value := index_eq_some.1 selected
  have sum : (5 + blocknum).toInt = 5 + b := by
    rw [Int32.toInt_add, value]
    exact Int.bmod_eq_of_le (by simp; omega) (by simp; omega)
  rw [Int32.toInt_mul, sum]
  refine (Int.bmod_eq_of_le ?_ ?_).trans ?_ <;> simp <;> omega

theorem ssufsReadSuperBlock_apply {s : Machine} (long : 64 ≤ s.disk.length) :
    ssufsReadSuperBlock s = .ok (s.store.superblock, { s with pos := 64 }) := by
  have records : Superblock.ofBytes (byteAt (readAt s.disk 0 64)) = s.store.superblock :=
    Superblock.ofBytes_congr fun k below => by
      rw [byteAt_readAt _ _ _ _ (by omega), Nat.zero_add]
  rw [← records]
  exact seek_read s 0 (by rfl) (by omega) fun tempBuf => Superblock.ofBytes (byteAt tempBuf)

theorem readSuperBlock_implements : Implements ssufsReadSuperBlock Store.readSuperBlock := by
  rintro s v ⟨rfl, long⟩
  exact ⟨_, ssufsReadSuperBlock_apply (by omega), rfl, long⟩

theorem ssufsWriteSuperBlock_apply (superblock : Superblock) (s : Machine) :
    ssufsWriteSuperBlock superblock s =
      .ok ((), { s with
        disk := writeAt s.disk 0 (superblock.bytes ++ List.ofFn fun k : Fin 18 => s.junk k)
        pos := 64
        junk := fun k => s.junk (18 + k) }) := by
  rw [ssufsWriteSuperBlock, Prog.bind_ok (show uninit 18 s = _ from rfl),
    seek_write _ 0 (by rfl)]
  simp

theorem writeSuperBlock_implements (superblock : Superblock) :
    Implements (ssufsWriteSuperBlock superblock) (Store.writeSuperBlock superblock) := by
  rintro s v ⟨rfl, long⟩
  have size (padding : ℕ → Byte) :
      (superblock.bytes ++ List.ofFn fun k : Fin 18 => padding k).length = 64 := by simp
  refine ⟨_, ssufsWriteSuperBlock_apply superblock s, ?_, ?_⟩
  · ext1
    · exact superblockOf_writeSuperblock _ _ _
    · exact inodeOf_writeSuperblock _ _ (size _)
    · exact blockOf_writeSuperblock _ _ (size _)
    · simp only [Machine.store, length_writeAt, size]
      exact max_eq_left (by omega)
    · rfl
    · rfl
  · simp only [length_writeAt, size]
    omega

theorem seek_readInode {s : Machine} {inodenum : Int32} {i : Fin 8}
    (selected : index 8 inodenum = some i) (within : 64 + 32 * i + 32 ≤ s.disk.length) :
    (do lseek (64 + inodenum.toInt * 32)
        let tempBuf ← read 32
        assert (tempBuf.length = 32)
        pure (Inode.ofBytes (byteAt tempBuf)) : Ssu Machine Inode) s =
      .ok (s.store.inode i, { s with pos := 64 + 32 * i + 32 }) := by
  have records : Inode.ofBytes (byteAt (readAt s.disk (64 + 32 * i) 32)) = s.store.inode i :=
    Inode.ofBytes_congr fun k below => byteAt_readAt _ _ _ _ below
  rw [← records]
  exact seek_read s _ (inode_position selected) within fun tempBuf =>
    Inode.ofBytes (byteAt tempBuf)

theorem inode_below {inodenum : Int32} {i : Fin 8} (selected : index 8 inodenum = some i) :
    inodenum.toInt < 8 := by
  have value := index_eq_some.1 selected
  omega

theorem ssufsReadInode_apply {s : Machine} {inodenum : Int32} {i : Fin 8}
    (selected : index 8 inodenum = some i) (within : 64 + 32 * i + 32 ≤ s.disk.length) :
    ssufsReadInode inodenum s = .ok (s.store.inode i, { s with pos := 64 + 32 * i + 32 }) := by
  rw [ssufsReadInode, assert, Prog.bind_ok (Prog.check_pass (inode_below selected) s)]
  exact seek_readInode selected within

theorem ssufsWriteInode_apply {inodenum : Int32} {i : Fin 8}
    (selected : index 8 inodenum = some i) (inode : Inode) (s : Machine) :
    ssufsWriteInode inodenum inode s =
      .ok ((), { s with
        disk := writeAt s.disk (64 + 32 * i) inode.bytes
        pos := 64 + 32 * i + 32 }) := by
  rw [ssufsWriteInode, assert, Prog.bind_ok (Prog.check_pass (inode_below selected) s),
    seek_write s _ (inode_position selected), Inode.length_bytes]

theorem readInode_implements (inodenum : Int32) :
    Implements (ssufsReadInode inodenum) (Store.readInode inodenum) := by
  refine .bind (.check _ _) fun _ => ?_
  cases selected : index 8 inodenum with
  | none => exact fun _ _ _ => .inl rfl
  | some i =>
    rintro s v ⟨rfl, long⟩
    exact ⟨_, seek_readInode selected (by omega), rfl, long⟩

theorem writeInode_implements (inodenum : Int32) (inode : Inode) :
    Implements (ssufsWriteInode inodenum inode) (Store.writeInode inodenum inode) := by
  refine .bind (.check _ _) fun _ => ?_
  cases selected : index 8 inodenum with
  | none => exact fun _ _ _ => .inl rfl
  | some i =>
    rintro s v ⟨rfl, long⟩
    refine ⟨_, seek_write s _ (inode_position selected) _, ?_, ?_⟩
    · ext1
      · exact superblockOf_writeInode _ _ _
      · exact inodeOf_writeInode _ _ _
      · exact blockOf_writeInode _ _ _
      · simp only [Machine.store, length_writeAt, Inode.length_bytes]
        exact max_eq_left (by omega)
      · rfl
      · rfl
    · simp only [length_writeAt]
      omega

theorem seek_readBlock {s : Machine} {blocknum : Int32} {b : Fin 30}
    (selected : index 30 blocknum = some b) (within : 64 * (5 + b) + 64 ≤ s.disk.length) :
    (do lseek (64 * (5 + blocknum) : Int32).toInt
        let tempBuf ← read 64
        assert (tempBuf.length = 64)
        pure fun p : Fin 64 => byteAt tempBuf p : Ssu Machine Block) s =
      .ok (s.store.block b, { s with pos := 64 * (5 + b) + 64 }) := by
  have records : (fun p : Fin 64 => byteAt (readAt s.disk (64 * (5 + b)) 64) p) =
      s.store.block b := by
    funext p
    exact byteAt_readAt _ _ _ _ p.isLt
  rw [← records]
  exact seek_read (n := 64) s _ (block_position selected) within fun tempBuf (p : Fin 64) =>
    byteAt tempBuf p

theorem block_below {blocknum : Int32} {b : Fin 30} (selected : index 30 blocknum = some b) :
    blocknum.toInt < 30 := by
  have value := index_eq_some.1 selected
  omega

theorem ssufsReadDataBlock_apply {s : Machine} {blocknum : Int32} {b : Fin 30}
    (selected : index 30 blocknum = some b) (within : 64 * (5 + b) + 64 ≤ s.disk.length) :
    ssufsReadDataBlock blocknum s = .ok (s.store.block b, { s with pos := 64 * (5 + b) + 64 }) := by
  rw [ssufsReadDataBlock, assert, Prog.bind_ok (Prog.check_pass (block_below selected) s)]
  exact seek_readBlock selected within

theorem ssufsWriteDataBlock_apply {blocknum : Int32} {b : Fin 30}
    (selected : index 30 blocknum = some b) (buf : Block) (s : Machine) :
    ssufsWriteDataBlock blocknum buf s =
      .ok ((), { s with
        disk := writeAt s.disk (64 * (5 + b)) (List.ofFn buf)
        pos := 64 * (5 + b) + 64 }) := by
  rw [ssufsWriteDataBlock, assert, Prog.bind_ok (Prog.check_pass (block_below selected) s),
    seek_write s _ (block_position selected), List.length_ofFn]

theorem readDataBlock_implements (blocknum : Int32) :
    Implements (ssufsReadDataBlock blocknum) (Store.readDataBlock blocknum) := by
  refine .bind (.check _ _) fun _ => ?_
  cases selected : index 30 blocknum with
  | none => exact fun _ _ _ => .inl rfl
  | some b =>
    rintro s v ⟨rfl, long⟩
    by_cases within : 64 * (6 + b) ≤ s.disk.length
    · simp only [Machine.store, within, if_true]
      exact ⟨_, seek_readBlock selected (by omega), rfl, long⟩
    · simp only [Machine.store, within, if_false]
      exact .inr (seek_read_short s _ (block_position selected) (by omega) (by omega) _)

theorem writeDataBlock_implements (blocknum : Int32) (buf : Block) :
    Implements (ssufsWriteDataBlock blocknum buf) (Store.writeDataBlock blocknum buf) := by
  refine .bind (.check _ _) fun _ => ?_
  cases selected : index 30 blocknum with
  | none => exact fun _ _ _ => .inl rfl
  | some b =>
    rintro s v ⟨rfl, long⟩
    refine ⟨_, seek_write s _ (block_position selected) _, ?_, ?_⟩
    · ext1
      · exact superblockOf_writeBlock _ _ _
      · exact inodeOf_writeBlock _ _ _
      · exact blockOf_writeBlock _ _ _
      · simp only [Machine.store, Store.putBlock, length_writeAt, List.length_ofFn]
        congr 1
        omega
      · rfl
      · rfl
    · simp only [length_writeAt]
      omega

theorem fileHandleArray_implements :
    Implements Machine.fileHandleArray Store.fileHandleArray := by
  rintro s v ⟨rfl, long⟩
  exact ⟨s, rfl, rfl, long⟩

theorem setFileHandle_implements (fileHandle : Fin 20) (handle : FileHandle) :
    Implements (Machine.setFileHandle fileHandle handle) (Store.setFileHandle fileHandle handle) := by
  rintro s v ⟨rfl, long⟩
  exact ⟨_, rfl, rfl, long⟩

theorem uninit_implements (n : ℕ) : Implements (Machine.uninit n) (Store.uninit n) := by
  rintro s v ⟨rfl, long⟩
  exact ⟨_, rfl, rfl, long⟩

/-! ## Simulation of the file system -/

theorem machine_agrees_store : Agrees Holds (· = Fault.outsideRecords) where
  readSuperBlock := readSuperBlock_implements
  writeSuperBlock := writeSuperBlock_implements
  readInode := readInode_implements
  writeInode := writeInode_implements
  readDataBlock := readDataBlock_implements
  writeDataBlock := writeDataBlock_implements
  fileHandleArray := fileHandleArray_implements
  setFileHandle := setFileHandle_implements
  uninit := uninit_implements

theorem openNamei_implements (filename : CString) :
    Implements (openNamei filename) (openNamei filename) :=
  openNamei_agrees machine_agrees_store filename

theorem ssufsCreate_implements (filename : CString) :
    Implements (ssufsCreate filename) (ssufsCreate filename) :=
  ssufsCreate_agrees machine_agrees_store filename

theorem ssufsRead_implements (fileHandle : Fin 20) (nbytes : Int32) :
    Implements (ssufsRead fileHandle nbytes) (ssufsRead fileHandle nbytes) :=
  ssufsRead_agrees machine_agrees_store fileHandle nbytes

theorem ssufsWrite_implements (fileHandle : Fin 20) (buf : ℕ → Byte) (nbytes : Int32) :
    Implements (ssufsWrite fileHandle buf nbytes) (ssufsWrite fileHandle buf nbytes) :=
  ssufsWrite_agrees machine_agrees_store fileHandle buf nbytes

/-- Every call on the image does what it does on the records. -/
theorem exec_implements (call : Call) : Implements call.exec call.exec :=
  exec_agrees machine_agrees_store call

/-! ## The formatted disk -/

/-- The records after `ssufs_formatDisk`. -/
def Store.fresh (junk : ℕ → Byte) : Store where
  superblock := freshSuperblock junk
  inode _ := freshInode fun k => junk (2 + (18 + k))
  block _ _ := 0
  length := 320
  fileHandles _ := closedHandle
  junk k := junk (2 + (18 + (7 + k)))

/-- The loop that writes the same inode at the places `l`. -/
theorem formatInodes_apply (inode : Inode) (l : List (Fin 8)) (s : Machine) :
    ∃ s', l.foldlM (fun _ i => ssufsWriteInode (ofIndex i) inode) () s = .ok ((), s') ∧
      superblockOf s'.disk = superblockOf s.disk ∧ blockOf s'.disk = blockOf s.disk ∧
      (∀ i, inodeOf s'.disk i = if i ∈ l then inode else inodeOf s.disk i) ∧
      (s.disk.length ≤ 320 → s'.disk.length ≤ 320) ∧ s.disk.length ≤ s'.disk.length ∧
      (∀ i ∈ l, 64 + 32 * i + 32 ≤ s'.disk.length) ∧
      s'.fileHandles = s.fileHandles ∧ s'.junk = s.junk := by
  induction l generalizing s with
  | nil => exact ⟨s, rfl, rfl, rfl, by simp, id, le_rfl, by simp, rfl, rfl⟩
  | cons i l ih =>
    rw [List.foldlM_cons, Prog.bind_ok (ssufsWriteInode_apply (index_ofIndex (by norm_num) i) inode s)]
    obtain ⟨s', runs, super, blocks, inodes, bounded, grows, reaches, handles, junk⟩ :=
      ih { s with disk := writeAt s.disk (64 + 32 * i) inode.bytes, pos := 64 + 32 * i + 32 }
    simp only [length_writeAt, Inode.length_bytes] at bounded grows
    refine ⟨s', runs, super.trans (superblockOf_writeInode _ _ _),
      blocks.trans (blockOf_writeInode _ _ _), fun j => ?_, by omega, by omega, ?_, handles, junk⟩
    · rw [inodes j, inodeOf_writeInode, Function.update_apply]
      by_cases later : j ∈ l
      · simp [later]
      · by_cases same : j = i <;> simp [later, same]
    · intro j member
      rcases List.mem_cons.1 member with rfl | member
      · omega
      · exact reaches j member

theorem formatHandles_apply (l : List (Fin 20)) (s : Machine) :
    l.foldlM (fun _ i => Machine.setFileHandle i closedHandle) () s =
      .ok ((), { s with fileHandles := fun h => if h ∈ l then closedHandle else s.fileHandles h }) := by
  induction l generalizing s with
  | nil => simp
  | cons i l ih =>
    rw [List.foldlM_cons, Prog.bind_ok (show Machine.setFileHandle i closedHandle s = _ from rfl), ih]
    congr 3
    funext h
    change (if h ∈ l then closedHandle else Function.update s.fileHandles i closedHandle h) = _
    rw [Function.update_apply]
    by_cases later : h ∈ l
    · simp [later]
    · by_cases same : h = i <;> simp [later, same]

/-- `ssufs_formatDisk` never fails and leaves an empty disk, whatever there was before. -/
theorem ssufsFormatDisk_apply (s : Machine) :
    ∃ s', ssufsFormatDisk s = .ok ((), s') ∧ Holds s' (Store.fresh s.junk) := by
  set image := writeAt [] 0 ((freshSuperblock s.junk).bytes ++
    List.ofFn fun k : Fin 18 => s.junk (2 + k)) with image_eq
  have long : image.length = 64 := by simp [image_eq]
  obtain ⟨s', runs, super, blocks, inodes, bounded, -, reaches, handles, junk⟩ :=
    formatInodes_apply (freshInode fun k => s.junk (2 + (18 + k))) (List.finRange 8)
      { s with disk := image, pos := 64, junk := fun k => s.junk (2 + (18 + (7 + k))) }
  have whole : 320 ≤ s'.disk.length := reaches 7 (List.mem_finRange 7)
  have length : s'.disk.length = 320 := le_antisymm (bounded (by simp [long])) whole
  refine ⟨{ s' with
    fileHandles := fun h => if h ∈ List.finRange 20 then closedHandle else s'.fileHandles h },
    ?_, ?_, whole⟩
  · rw [ssufsFormatDisk, Prog.bind_ok (show fopen s = _ from rfl),
      Prog.bind_ok (show uninit 2 _ = _ from rfl), Prog.bind_ok (ssufsWriteSuperBlock_apply _ _),
      Prog.bind_ok (show uninit 7 _ = _ from rfl)]
    exact (Prog.bind_ok runs).trans (formatHandles_apply _ _)
  · ext1
    · exact super.trans (superblockOf_writeSuperblock _ _ _)
    · funext i
      exact (inodes i).trans (if_pos (List.mem_finRange i))
    · refine blocks.trans ?_
      rw [image_eq, blockOf_writeSuperblock _ _ (by simp)]
      rfl
    · exact length
    · funext h
      exact if_pos (List.mem_finRange h)
    · exact junk

theorem holds_of_format {s s₀ : Machine} (format : ssufsFormatDisk s = .ok ((), s₀)) :
    Holds s₀ (Store.fresh s.junk) := by
  obtain ⟨s', runs, holds⟩ := ssufsFormatDisk_apply s
  rw [runs] at format
  cases format
  exact holds

end SsuOs.Ssufs
