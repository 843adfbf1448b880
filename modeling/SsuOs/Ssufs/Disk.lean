import Mathlib.Algebra.Order.Ring.Int
import Mathlib.Data.Fintype.Card
import Mathlib.Data.Nat.Cast.Order.Basic
import Mathlib.Tactic.FinCases
import Mathlib.Tactic.NormNum
import SsuOs.Base.ByteFile
import SsuOs.Base.Prog

/-!
# The ssufs disk layer

The structures of `ssufs-disk.h` with their byte layout, and the functions of `ssufs-disk.c` that
work on the disk only through `ssufs_readSuperBlock`, `ssufs_readInode`, `ssufs_readDataBlock` and
their writing counterparts. Those six, the table of open files and uninitialised memory form the
interface `Disk`; it is implemented by the byte image of the host file and by a store of records.

A disk has 8 inodes and 30 data blocks of 64 bytes, a file at most 4 blocks, the table of open
files 20 entries.
-/

namespace SsuOs.Ssufs

open ByteFile

abbrev Byte := UInt8

/-- The contents of a buffer of one block. -/
abbrev Block := Fin 64 → Byte

/-- A C string: its bytes before the terminating NUL. -/
structure CString where
  bytes : List Byte
  noNul : 0 ∉ bytes
  deriving DecidableEq

/-- `INODE_FREE`, the character `x`. -/
abbrev inodeFree : Byte := 120

/-- `INODE_IN_USE`, the character `1`. -/
abbrev inodeInUse : Byte := 49

/-- `DATA_BLOCK_FREE`, the character `x`. -/
abbrev dataBlockFree : Byte := 120

/-- `DATA_BLOCK_USED`, the character `1`. -/
abbrev dataBlockUsed : Byte := 49

/-- `struct superblock_t`. -/
@[ext] structure Superblock where
  name : Fin 8 → Byte
  inodeFreelist : Fin 8 → Byte
  datablockFreelist : Fin 30 → Byte

/-- `struct inode_t`. -/
@[ext] structure Inode where
  status : Int32
  name : Fin 8 → Byte
  fileSize : Int32
  directBlocks : Fin 4 → Int32

/-- `struct filehandle_t`. -/
@[ext] structure FileHandle where
  offset : Int32
  inodeNumber : Int32
  deriving DecidableEq

/-! ## Byte layout -/

/-- The 46 bytes of a superblock in memory. -/
def Superblock.bytes (superblock : Superblock) : List Byte :=
  List.ofFn superblock.name ++ List.ofFn superblock.inodeFreelist ++
    List.ofFn superblock.datablockFreelist

/-- The superblock at the start of `mem`. -/
def Superblock.ofBytes (mem : ℕ → Byte) : Superblock where
  name i := mem i
  inodeFreelist i := mem (8 + i)
  datablockFreelist i := mem (16 + i)

/-- The 32 bytes of an inode in memory. -/
def Inode.bytes (inode : Inode) : List Byte :=
  leBytes inode.status ++ List.ofFn inode.name ++ leBytes inode.fileSize ++
    leBytes (inode.directBlocks 0) ++ leBytes (inode.directBlocks 1) ++
    leBytes (inode.directBlocks 2) ++ leBytes (inode.directBlocks 3)

/-- The inode at the start of `mem`. -/
def Inode.ofBytes (mem : ℕ → Byte) : Inode where
  status := ofLE mem
  name i := mem (4 + i)
  fileSize := ofLE fun k => mem (12 + k)
  directBlocks j := ofLE fun k => mem (16 + 4 * j + k)

@[simp] theorem Superblock.length_bytes (superblock : Superblock) :
    superblock.bytes.length = 46 := by
  simp [Superblock.bytes]

@[simp] theorem Inode.length_bytes (inode : Inode) : inode.bytes.length = 32 := by
  simp [Inode.bytes]

/-- Only the first 46 bytes of a block say what superblock it holds. -/
theorem Superblock.ofBytes_congr {mem mem' : ℕ → Byte} (same : ∀ k < 46, mem k = mem' k) :
    Superblock.ofBytes mem = Superblock.ofBytes mem' := by
  simp only [Superblock.ofBytes, Superblock.mk.injEq]
  refine ⟨?_, ?_, ?_⟩ <;> funext i <;> exact same _ (by omega)

theorem Inode.ofBytes_congr {mem mem' : ℕ → Byte} (same : ∀ k < 32, mem k = mem' k) :
    Inode.ofBytes mem = Inode.ofBytes mem' := by
  simp only [Inode.ofBytes, Inode.mk.injEq]
  refine ⟨ofLE_congr fun k below => same k (by omega), ?_,
    ofLE_congr fun k below => same _ (by omega), ?_⟩
  · funext i
    exact same _ (by omega)
  · funext j
    exact ofLE_congr fun k below => same _ (by omega)

theorem Superblock.ofBytes_bytes (superblock : Superblock) :
    Superblock.ofBytes (byteAt superblock.bytes) = superblock := by
  ext i
  · simp only [Superblock.ofBytes, Superblock.bytes, List.append_assoc]
    rw [byteAt_append_left (by simp), byteAt_ofFn]
  · simp only [Superblock.ofBytes, Superblock.bytes, List.append_assoc]
    rw [byteAt_append_right 8 (by simp), byteAt_append_left (by simp), byteAt_ofFn]
  · simp only [Superblock.ofBytes, Superblock.bytes]
    rw [byteAt_append_right 16 (by simp), byteAt_ofFn]

theorem Inode.ofBytes_bytes (inode : Inode) : Inode.ofBytes (byteAt inode.bytes) = inode := by
  obtain ⟨status, name, fileSize, directBlocks⟩ := inode
  simp only [Inode.ofBytes, Inode.bytes, Inode.mk.injEq]
  refine ⟨?_, ?_, ?_, ?_⟩
  · simpa using ofLE_field [] _ status 0 rfl
  · funext i
    simp only [List.append_assoc]
    rw [byteAt_append_right 4 (by simp), byteAt_append_left (by simp), byteAt_ofFn]
  · simpa using ofLE_field (leBytes status ++ List.ofFn name) _ fileSize 12 (by simp)
  · funext j
    fin_cases j
    · simpa using ofLE_field (leBytes status ++ List.ofFn name ++ leBytes fileSize) _
        (directBlocks 0) 16 (by simp)
    · simpa using ofLE_field (leBytes status ++ List.ofFn name ++ leBytes fileSize ++
        leBytes (directBlocks 0)) _ (directBlocks 1) 20 (by simp)
    · simpa using ofLE_field (leBytes status ++ List.ofFn name ++ leBytes fileSize ++
        leBytes (directBlocks 0) ++ leBytes (directBlocks 1)) _ (directBlocks 2) 24 (by simp)
    · simpa using ofLE_field (leBytes status ++ List.ofFn name ++ leBytes fileSize ++
        leBytes (directBlocks 0) ++ leBytes (directBlocks 1) ++ leBytes (directBlocks 2)) []
        (directBlocks 3) 28 (by simp)

/-! ## Indices -/

/-- An array index as the `int` the code computes with. -/
def ofIndex {n : ℕ} (i : Fin n) : Int32 := Int32.ofNat i

/-- The entry of an array of length `n` that an `int` selects, if it does. -/
def index (n : ℕ) (x : Int32) : Option (Fin n) :=
  if within : 0 ≤ x.toInt ∧ x.toInt < n then some ⟨x.toInt.toNat, by omega⟩ else none

theorem toInt_ofIndex {n : ℕ} (small : n ≤ 2 ^ 31) (i : Fin n) : (ofIndex i).toInt = i :=
  Int32.toInt_ofNat_of_lt (by omega)

theorem index_eq_some {n : ℕ} {x : Int32} {i : Fin n} : index n x = some i ↔ x.toInt = i := by
  unfold index
  split_ifs with within
  · rw [Option.some.injEq, Fin.ext_iff]
    change x.toInt.toNat = i.val ↔ x.toInt = i
    omega
  · constructor
    · intro none_eq
      cases none_eq
    · intro selects
      omega

theorem index_ofIndex {n : ℕ} (small : n ≤ 2 ^ 31) (i : Fin n) : index n (ofIndex i) = some i :=
  index_eq_some.2 (toInt_ofIndex small i)

theorem ofIndex_inj {n : ℕ} (small : n ≤ 2 ^ 31) {i j : Fin n} : ofIndex i = ofIndex j ↔ i = j := by
  rw [← Int32.toInt_inj, toInt_ofIndex small, toInt_ofIndex small, Fin.ext_iff, Nat.cast_inj]

/-- An addition of `int`s that does not overflow. -/
theorem toInt_add_of_nat {x y : Int32} {m n : ℕ} (left : x.toInt = m) (right : y.toInt = n)
    (small : m + n < 2 ^ 31) : (x + y).toInt = (m + n : ℕ) := by
  rw [Int32.toInt_add, left, right, Int.bmod_eq_of_le] <;> push_cast <;> omega

/-- A sum with a number that is not negative is exact or wraps around below zero. -/
theorem toInt_add_cases {x y : Int32} (nonneg : 0 ≤ x.toInt) :
    (x + y).toInt = x.toInt + y.toInt ∨ 2 ^ 31 ≤ x.toInt + y.toInt ∧ (x + y).toInt < 0 := by
  have low := y.le_toInt
  have high := y.toInt_lt
  have bound := x.toInt_lt
  rw [Int32.toInt_add, Int.bmod]
  split_ifs <;> omega

/-! ## The disk interface -/

/-- Why a call does not return: a failed `assert`, or an access out of bounds. The store of
records also stops, with `outsideRecords`, where the code reads or writes at a negative inode or
block number. -/
inductive Fault
  | assertion
  | outOfBounds
  | outsideRecords
  deriving DecidableEq

/-- The code of ssufs over a state `σ`. -/
abbrev Ssu (σ α : Type) := Prog σ Fault α

/-- `assert`. -/
def assert {σ : Type} (p : Prop) [Decidable p] : Ssu σ Unit := Prog.check .assertion p

/-- What the functions of ssufs use of the state: the six record functions, the table of open
files, and memory that nothing has initialised. `uninit n` gives the contents of the next `n`
bytes of such memory. -/
class Disk (σ : Type) where
  readSuperBlock : Ssu σ Superblock
  writeSuperBlock : Superblock → Ssu σ Unit
  readInode : Int32 → Ssu σ Inode
  writeInode : Int32 → Inode → Ssu σ Unit
  readDataBlock : Int32 → Ssu σ Block
  writeDataBlock : Int32 → Block → Ssu σ Unit
  fileHandleArray : Ssu σ (Fin 20 → FileHandle)
  setFileHandle : Fin 20 → FileHandle → Ssu σ Unit
  uninit : ℕ → Ssu σ (ℕ → Byte)

open Disk

variable {σ : Type} [Disk σ]

/-! ## Names -/

/-- `strcmp(inode->name, filename) == 0`: the comparison runs on into `file_size` and beyond when
the name has no NUL in its eight bytes. -/
def Inode.Named (inode : Inode) (filename : CString) : Prop :=
  filename.bytes ++ [0] <+: inode.bytes.drop 4

instance (inode : Inode) (filename : CString) : Decidable (inode.Named filename) :=
  inferInstanceAs (Decidable (_ <+: _))

/-- `strcpy(inode->name, filename)`. A long name overwrites the fields behind `name`; bytes past
the end of the inode are not part of the model. -/
def Inode.strcpyName (inode : Inode) (filename : CString) : Inode :=
  Inode.ofBytes (byteAt (writeAt inode.bytes 4 (filename.bytes ++ [0])))

/-- The loop of `open_namei` over the inode numbers that remain. -/
def openNameiFrom (superblock : Superblock) (filename : CString) : List (Fin 8) → Ssu σ Int32
  | [] => pure (-1)
  | i :: rest =>
    if superblock.inodeFreelist i = inodeInUse then do
      let tmp ← readInode (ofIndex i)
      if tmp.Named filename then pure (ofIndex i) else openNameiFrom superblock filename rest
    else openNameiFrom superblock filename rest

def openNamei (filename : CString) : Ssu σ Int32 := do
  if 8 < filename.bytes.length then pure (-1)
  else
    let superblock ← readSuperBlock
    openNameiFrom superblock filename (List.finRange 8)

/-! ## Free lists -/

def ssufsAllocInode : Ssu σ Int32 := do
  let superblock ← readSuperBlock
  match (List.finRange 8).find? fun i => superblock.inodeFreelist i = inodeFree with
  | some i =>
    writeSuperBlock { superblock with
      inodeFreelist := Function.update superblock.inodeFreelist i inodeInUse }
    pure (ofIndex i)
  | none => pure (-1)

def ssufsAllocDataBlock : Ssu σ Int32 := do
  let superblock ← readSuperBlock
  match (List.finRange 30).find? fun b => superblock.datablockFreelist b = dataBlockFree with
  | some b =>
    writeSuperBlock { superblock with
      datablockFreelist := Function.update superblock.datablockFreelist b dataBlockUsed }
    pure (ofIndex b)
  | none => pure (-1)

def ssufsFreeDataBlock (blocknum : Int32) : Ssu σ Unit := do
  let superblock ← readSuperBlock
  match index 30 blocknum with
  | none => throw .outOfBounds
  | some b =>
    assert (superblock.datablockFreelist b = dataBlockUsed)
    writeSuperBlock { superblock with
      datablockFreelist := Function.update superblock.datablockFreelist b dataBlockFree }

/-- One round of the loop of `ssufs_freeInode`: the superblock goes to the disk and comes back
around `ssufs_freeDataBlock`, which changes it there. -/
def freeSlot (locals : Superblock × Inode) (i : Fin 4) : Ssu σ (Superblock × Inode) := do
  let (superblock, inode) := locals
  let cleared := { inode with directBlocks := Function.update inode.directBlocks i (-1) }
  if inode.directBlocks i ≠ -1 then
    writeSuperBlock superblock
    ssufsFreeDataBlock (inode.directBlocks i)
    let superblock ← readSuperBlock
    pure (superblock, cleared)
  else pure (superblock, cleared)

def ssufsFreeInode (inodenum : Int32) : Ssu σ Unit := do
  assert (inodenum.toInt < 8)
  let superblock ← readSuperBlock
  let inode ← readInode inodenum
  match index 8 inodenum with
  | none => throw .outOfBounds
  | some i =>
    assert (superblock.inodeFreelist i = inodeInUse)
    let (superblock, inode) ← (List.finRange 4).foldlM freeSlot
      ({ superblock with inodeFreelist := Function.update superblock.inodeFreelist i inodeFree },
        { inode with status := 120, fileSize := 0 })
    writeSuperBlock superblock
    writeInode inodenum inode

end SsuOs.Ssufs
