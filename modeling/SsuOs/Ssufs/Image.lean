import SsuOs.Ssufs.Ops

/-!
# The disk image

The record functions of `ssufs-disk.c` on the bytes of the host file `ssufs`, and
`ssufs_formatDisk`. The superblock stands at position 0, inode `i` at `64 + 32 * i`, data block `b`
at `64 * (5 + b)`. The host file system has room for the image, so that `write` is never short.
-/

namespace SsuOs.Ssufs

open ByteFile

/-- The state of the process: the bytes of the host file, the position of `DISK_FD` in it, the
table of open files, and what uninitialised memory holds from here on. -/
structure Machine where
  disk : List Byte
  pos : ℕ
  fileHandles : Fin 20 → FileHandle
  junk : ℕ → Byte

namespace Machine

/-- `lseek(DISK_FD, offset, SEEK_SET)`; a negative offset is refused and the position stays. -/
def lseek (offset : ℤ) : Ssu Machine Unit := fun s =>
  .ok ((), if 0 ≤ offset then { s with pos := offset.toNat } else s)

/-- `read(DISK_FD, tempBuf, n)`, with the bytes it delivers. -/
def read (n : ℕ) : Ssu Machine (List Byte) := fun s =>
  .ok (readAt s.disk s.pos n, { s with pos := s.pos + (readAt s.disk s.pos n).length })

/-- `write(DISK_FD, tempBuf, n)` of the bytes `data`. -/
def write (data : List Byte) : Ssu Machine Unit := fun s =>
  .ok ((), { s with disk := writeAt s.disk s.pos data, pos := s.pos + data.length })

def uninit (n : ℕ) : Ssu Machine (ℕ → Byte) := fun s =>
  .ok (s.junk, { s with junk := fun k => s.junk (n + k) })

def fileHandleArray : Ssu Machine (Fin 20 → FileHandle) := fun s => .ok (s.fileHandles, s)

def setFileHandle (fileHandle : Fin 20) (handle : FileHandle) : Ssu Machine Unit := fun s =>
  .ok ((), { s with fileHandles := Function.update s.fileHandles fileHandle handle })

end Machine

open Machine

def ssufsReadSuperBlock : Ssu Machine Superblock := do
  lseek 0
  let tempBuf ← read 64
  assert (tempBuf.length = 64)
  pure (Superblock.ofBytes (byteAt tempBuf))

/-- The last 18 bytes of `tempBuf` are written as they are found on the stack. -/
def ssufsWriteSuperBlock (superblock : Superblock) : Ssu Machine Unit := do
  let padding ← uninit 18
  lseek 0
  write (superblock.bytes ++ List.ofFn fun k : Fin 18 => padding k)

def ssufsReadInode (inodenum : Int32) : Ssu Machine Inode := do
  assert (inodenum.toInt < 8)
  lseek (64 + inodenum.toInt * 32)
  let tempBuf ← read 32
  assert (tempBuf.length = 32)
  pure (Inode.ofBytes (byteAt tempBuf))

def ssufsWriteInode (inodenum : Int32) (inode : Inode) : Ssu Machine Unit := do
  assert (inodenum.toInt < 8)
  lseek (64 + inodenum.toInt * 32)
  write inode.bytes

def ssufsReadDataBlock (blocknum : Int32) : Ssu Machine Block := do
  assert (blocknum.toInt < 30)
  lseek (64 * (5 + blocknum) : Int32).toInt
  let tempBuf ← read 64
  assert (tempBuf.length = 64)
  pure fun p => byteAt tempBuf p

def ssufsWriteDataBlock (blocknum : Int32) (buf : Block) : Ssu Machine Unit := do
  assert (blocknum.toInt < 30)
  lseek (64 * (5 + blocknum) : Int32).toInt
  write (List.ofFn buf)

instance : Disk Machine where
  readSuperBlock := ssufsReadSuperBlock
  writeSuperBlock := ssufsWriteSuperBlock
  readInode := ssufsReadInode
  writeInode := ssufsWriteInode
  readDataBlock := ssufsReadDataBlock
  writeDataBlock := ssufsWriteDataBlock
  fileHandleArray := Machine.fileHandleArray
  setFileHandle := Machine.setFileHandle
  uninit := Machine.uninit

/-- `fopen("ssufs", "w+")`: an empty file. -/
def fopen : Ssu Machine Unit := fun s => .ok ((), { s with disk := [], pos := 0 })

/-- `memcpy(superblock->name, "ssufs", 8)` takes two bytes from behind the string literal. -/
def diskName (behind : ℕ → Byte) : Fin 8 → Byte := fun i =>
  byteAt [115, 115, 117, 102, 115, 0, behind 0, behind 1] i

/-- The superblock of an empty disk. -/
def freshSuperblock (behind : ℕ → Byte) : Superblock where
  name := diskName behind
  inodeFreelist _ := inodeFree
  datablockFreelist _ := dataBlockFree

/-- An unused inode; of its name only the first byte is set. -/
def freshInode (rest : ℕ → Byte) : Inode where
  status := 120
  name i := if i = 0 then 0 else rest (i.val - 1)
  fileSize := 0
  directBlocks _ := -1

/-- An unused entry of the table of open files. -/
def closedHandle : FileHandle := { offset := 0, inodeNumber := -1 }

def ssufsFormatDisk : Ssu Machine Unit := do
  fopen
  let behind ← uninit 2
  ssufsWriteSuperBlock (freshSuperblock behind)
  let rest ← uninit 7
  (List.finRange 8).foldlM (fun _ i => ssufsWriteInode (ofIndex i) (freshInode rest)) ()
  (List.finRange 20).foldlM (fun _ i => setFileHandle i closedHandle) ()

end SsuOs.Ssufs
