import SsuOs.Ssufs.Records

/-!
# Calls of the record functions

The six functions of `ssufs-disk.c` that read and write one record, in any order and on any host
file. The image behaves as a store of independent records: a record that has been written is read as
it was written last, whatever has been done with the others (`readRecord_lastWritten`).
-/

namespace SsuOs.Ssufs

open ByteFile

/-- The place of a record on the disk. -/
inductive Record
  | superblock
  | inode (i : Fin 8)
  | block (b : Fin 30)
  deriving DecidableEq

/-- What a record holds. -/
abbrev Record.Value : Record → Type
  | .superblock => Superblock
  | .inode _ => Inode
  | .block _ => Block

/-- The position in the image where a record ends. -/
def Record.stop : Record → ℕ
  | .superblock => 64
  | .inode i => 64 + 32 * i + 32
  | .block b => 64 * (5 + b) + 64

/-- `ssufs_readSuperBlock`, `ssufs_readInode` and `ssufs_readDataBlock`. -/
def readRecord : (r : Record) → Ssu Machine r.Value
  | .superblock => ssufsReadSuperBlock
  | .inode i => ssufsReadInode (ofIndex i)
  | .block b => ssufsReadDataBlock (ofIndex b)

/-- `ssufs_writeSuperBlock`, `ssufs_writeInode` and `ssufs_writeDataBlock`. -/
def writeRecord : (r : Record) → r.Value → Ssu Machine Unit
  | .superblock, superblock => ssufsWriteSuperBlock superblock
  | .inode i, inode => ssufsWriteInode (ofIndex i) inode
  | .block b, buf => ssufsWriteDataBlock (ofIndex b) buf

inductive RecordCall
  | read (r : Record)
  | write (r : Record) (v : r.Value)

def RecordCall.exec : RecordCall → Ssu Machine Unit
  | .read r => readRecord r >>= fun _ => pure ()
  | .write r v => writeRecord r v

/-- The calls one after the other. -/
def execCalls (calls : List RecordCall) : Ssu Machine Unit :=
  calls.foldlM (fun _ call => call.exec) ()

/-! ## The store of records -/

/-- What is in a store of records, as far as it has been written. -/
abbrev Known := (r : Record) → Option r.Value

def RecordCall.put (known : Known) : RecordCall → Known
  | .read _ => known
  | .write r v => Function.update known r (some v)

/-- The value that each record was given last. -/
def lastWritten (calls : List RecordCall) : Known := calls.foldl RecordCall.put fun _ => none

theorem lastWritten_snoc (calls : List RecordCall) (call : RecordCall) :
    lastWritten (calls ++ [call]) = call.put (lastWritten calls) := by
  rw [lastWritten, List.foldl_append]
  rfl

/-- The calls read only records that they have written before. -/
inductive ReadsWritten : List RecordCall → Prop
  | nil : ReadsWritten []
  | write {calls : List RecordCall} (r : Record) (v : r.Value) :
      ReadsWritten calls → ReadsWritten (calls ++ [.write r v])
  | read {calls : List RecordCall} {r : Record} {v : r.Value} :
      ReadsWritten calls → lastWritten calls r = some v → ReadsWritten (calls ++ [.read r])

/-! ## Records and bytes -/

/-- The record that the bytes of an image hold. -/
def recordOf (disk : List Byte) : (r : Record) → r.Value
  | .superblock => superblockOf disk
  | .inode i => inodeOf disk i
  | .block b => blockOf disk b

/-- A record inside the image is read as its bytes are. -/
theorem readRecord_apply {s : Machine} {r : Record} (within : r.stop ≤ s.disk.length) :
    readRecord r s = .ok (recordOf s.disk r, { s with pos := r.stop }) := by
  cases r with
  | superblock => exact ssufsReadSuperBlock_apply within
  | inode i => exact ssufsReadInode_apply (index_ofIndex (by norm_num) i) within
  | block b => exact ssufsReadDataBlock_apply (index_ofIndex (by norm_num) b) within

theorem recordOf_eq {disk : List Byte} {records : (r : Record) → r.Value}
    (superblock : superblockOf disk = records .superblock)
    (inodes : ∀ i, inodeOf disk i = records (.inode i))
    (blocks : ∀ b, blockOf disk b = records (.block b)) : recordOf disk = records := by
  funext r
  cases r with
  | superblock => exact superblock
  | inode i => exact inodes i
  | block b => exact blocks b

/-- A write puts its value in its record, leaves the other records alone and lengthens the image up
to the end of the record. -/
theorem writeRecord_apply (r : Record) (v : r.Value) (s : Machine) :
    ∃ s', writeRecord r v s = .ok ((), s') ∧ s'.disk.length = max s.disk.length r.stop ∧
      recordOf s'.disk = Function.update (recordOf s.disk) r v := by
  cases r with
  | superblock =>
    have size : (v.bytes ++ List.ofFn fun k : Fin 18 => s.junk k).length = 64 := by simp
    refine ⟨_, ssufsWriteSuperBlock_apply v s, ?_, recordOf_eq ?_ (fun i => ?_) fun b => ?_⟩
    · rw [length_writeAt, size]
      rfl
    · rw [Function.update_self]
      exact superblockOf_writeSuperblock _ _ _
    · rw [Function.update_of_ne (by simp)]
      exact congrFun (inodeOf_writeSuperblock _ _ size) i
    · rw [Function.update_of_ne (by simp)]
      exact congrFun (blockOf_writeSuperblock _ _ size) b
  | inode i =>
    refine ⟨_, ssufsWriteInode_apply (index_ofIndex (by norm_num) i) v s, ?_,
      recordOf_eq ?_ (fun j => ?_) fun b => ?_⟩
    · rw [length_writeAt, Inode.length_bytes]
      rfl
    · rw [Function.update_of_ne (by simp)]
      exact superblockOf_writeInode _ _ _
    · rw [inodeOf_writeInode]
      have others := Function.update_comp_eq_of_injective' (recordOf s.disk)
        (fun _ _ => Record.inode.inj) i v
      exact (congrFun others j).symm
    · rw [Function.update_of_ne (by simp)]
      exact congrFun (blockOf_writeInode _ _ _) b
  | block b =>
    refine ⟨_, ssufsWriteDataBlock_apply (index_ofIndex (by norm_num) b) v s, ?_,
      recordOf_eq ?_ (fun i => ?_) fun c => ?_⟩
    · rw [length_writeAt, List.length_ofFn]
      rfl
    · rw [Function.update_of_ne (by simp)]
      exact superblockOf_writeBlock _ _ _
    · rw [Function.update_of_ne (by simp)]
      exact congrFun (inodeOf_writeBlock _ _ _) i
    · rw [blockOf_writeBlock]
      have others := Function.update_comp_eq_of_injective' (recordOf s.disk)
        (fun _ _ => Record.block.inj) b v
      exact (congrFun others c).symm

/-! ## Sequences of calls -/

/-- The image holds what is known of the records. -/
def Recorded (known : Known) (disk : List Byte) : Prop :=
  ∀ r v, known r = some v → r.stop ≤ disk.length ∧ recordOf disk r = v

theorem Recorded.read {known : Known} {s : Machine} (recorded : Recorded known s.disk) {r : Record}
    {v : r.Value} (written : known r = some v) :
    readRecord r s = .ok (v, { s with pos := r.stop }) := by
  obtain ⟨within, holds⟩ := recorded r v written
  rw [readRecord_apply within, holds]

theorem Recorded.write {known : Known} {s : Machine} (recorded : Recorded known s.disk) (r : Record)
    (v : r.Value) : ∃ s', writeRecord r v s = .ok ((), s') ∧
      Recorded (Function.update known r (some v)) s'.disk := by
  obtain ⟨s', runs, length, records⟩ := writeRecord_apply r v s
  refine ⟨s', runs, fun r' v' written => ?_⟩
  rw [length, records]
  by_cases here : r' = r
  · subst here
    rw [Function.update_self] at written ⊢
    exact ⟨le_max_right _ _, Option.some.inj written⟩
  · rw [Function.update_of_ne here] at written ⊢
    obtain ⟨within, holds⟩ := recorded r' v' written
    exact ⟨within.trans (le_max_left _ _), holds⟩

theorem execCalls_snoc {calls : List RecordCall} {s s' : Machine} (call : RecordCall)
    (runs : execCalls calls s = .ok ((), s')) : execCalls (calls ++ [call]) s = call.exec s' := by
  rw [execCalls] at runs
  rw [execCalls, List.foldlM_append, Prog.bind_ok runs, List.foldlM_cons]
  exact congrFun (bind_pure call.exec) s'

theorem execCalls_recorded (s : Machine) {calls : List RecordCall} (reads : ReadsWritten calls) :
    ∃ s', execCalls calls s = .ok ((), s') ∧ Recorded (lastWritten calls) s'.disk := by
  induction reads with
  | nil => exact ⟨s, rfl, fun r v written => by cases written⟩
  | write r v _ ih =>
    obtain ⟨s', runs, recorded⟩ := ih
    obtain ⟨s'', returns, recorded'⟩ := recorded.write r v
    rw [execCalls_snoc _ runs, lastWritten_snoc]
    exact ⟨s'', returns, recorded'⟩
  | @read calls r v _ written ih =>
    obtain ⟨s', runs, recorded⟩ := ih
    rw [execCalls_snoc _ runs, lastWritten_snoc]
    exact ⟨_, Prog.bind_ok (recorded.read written), recorded⟩

/-- Calls of the six functions on any host file, which may be empty, return if they read only what
has been written; after them each record that has been written is read as it was written last. -/
theorem readRecord_lastWritten (s : Machine) {calls : List RecordCall}
    (reads : ReadsWritten calls) :
    ∃ s', execCalls calls s = .ok ((), s') ∧
      ∀ r v, lastWritten calls r = some v → ∃ s'', readRecord r s' = .ok (v, s'') := by
  obtain ⟨s', runs, recorded⟩ := execCalls_recorded s reads
  exact ⟨s', runs, fun r v written => ⟨_, recorded.read written⟩⟩

/-- On an empty file inode 3 is written, read and written again, with a write of block 0, which
leaves a gap, and of the superblock in between. -/
theorem readRecord_lastWritten_inode :
    ∃ s', execCalls [.write (.inode 3) (freshInode fun _ => 1), .write (.block 0) fun _ => 2,
          .read (.inode 3), .write (.inode 3) (freshInode fun _ => 3),
          .write .superblock (freshSuperblock fun _ => 4)]
        ⟨[], 0, fun _ => closedHandle, fun _ => 5⟩ = .ok ((), s') ∧
      ∃ s'', readRecord (.inode 3) s' = .ok (freshInode fun _ => 3, s'') := by
  have reads : ReadsWritten [.write (.inode 3) (freshInode fun _ => 1), .write (.block 0) fun _ => 2,
      .read (.inode 3), .write (.inode 3) (freshInode fun _ => 3),
      .write .superblock (freshSuperblock fun _ => 4)] :=
    .write _ _ (.write _ _ (.read (.write _ _ (.write _ _ .nil)) rfl))
  obtain ⟨s', runs, written⟩ :=
    readRecord_lastWritten ⟨[], 0, fun _ => closedHandle, fun _ => 5⟩ reads
  exact ⟨s', runs, written (.inode 3) _ rfl⟩

end SsuOs.Ssufs
