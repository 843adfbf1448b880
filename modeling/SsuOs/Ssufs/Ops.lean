import SsuOs.Ssufs.Disk

/-!
# The ssufs operations

The functions of `ssufs-ops.c`, over any implementation of the disk interface. Loops with early
return are recursions over the slots that remain; the inner byte loops count down the bytes that
remain in the block. A caller's buffer is a function of the position in `ssufs_write` and the list
of bytes stored so far in `ssufs_read`.
-/

namespace SsuOs.Ssufs

open ByteFile Disk

variable {σ : Type} [Disk σ]

/-! ## Handles -/

def ssufsAllocFileHandle : Ssu σ Int32 := do
  let fileHandles ← fileHandleArray
  match (List.finRange 20).find? fun i => (fileHandles i).inodeNumber = -1 with
  | some i => pure (ofIndex i)
  | none => pure (-1)

def ssufsOpen (filename : CString) : Ssu σ Int32 := do
  let iNum ← openNamei filename
  let handlerNum ← ssufsAllocFileHandle
  if iNum = -1 ∨ handlerNum = -1 then pure (-1)
  else
    match index 20 handlerNum with
    | none => throw .outOfBounds
    | some h =>
      setFileHandle h { offset := 0, inodeNumber := iNum }
      pure handlerNum

def ssufsClose (fileHandle : Fin 20) : Ssu σ Unit :=
  setFileHandle fileHandle { offset := 0, inodeNumber := -1 }

def ssufsLseek (fileHandle : Fin 20) (nseek : Int32) : Ssu σ Int32 := do
  let fileHandles ← fileHandleArray
  let handle := fileHandles fileHandle
  let tmp ← readInode handle.inodeNumber
  let offset := handle.offset + nseek
  if tmp.fileSize = -1 ∨ offset < 0 ∨ tmp.fileSize < offset then pure (-1)
  else
    setFileHandle fileHandle { handle with offset := offset }
    pure 0

/-! ## Creating and deleting files -/

def ssufsCreate (filename : CString) : Ssu σ Int32 := do
  let found ← openNamei filename
  if found ≠ -1 then pure (-1)
  else
    let iNum ← ssufsAllocInode
    if iNum = -1 then pure (-1)
    else
      let inode ← readInode iNum
      writeInode iNum ({ inode with status := 49 }.strcpyName filename)
      pure iNum

/-- `memset(buf, 0, sizeof(buf))` on a `char *`: the eight bytes of a pointer. -/
def memsetPointer (buf : Block) : Block := fun p => if p.val < 8 then 0 else buf p

/-- One round of the loop of `ssufs_delete`. -/
def scrubSlot (tmp : Inode) (_ : Unit) (i : Fin 4) : Ssu σ Unit :=
  if tmp.directBlocks i ≠ -1 then do
    let buf ← readDataBlock (tmp.directBlocks i)
    writeDataBlock (tmp.directBlocks i) (memsetPointer buf)
  else pure ()

def ssufsDelete (filename : CString) : Ssu σ Unit := do
  let fInode ← openNamei filename
  if fInode = -1 then pure ()
  else
    let tmp ← readInode fInode
    (List.finRange 4).foldlM (scrubSlot tmp) ()
    ssufsFreeInode fInode

/-! ## Reading -/

/-- The byte loop of `ssufs_read` with `k` bytes left in the block: the bytes stored so far, and
whether the request is complete. -/
def readBytes (tmpBuf : Block) (nbytes : ℤ) : ℕ → List Byte → List Byte × Bool
  | 0, buf => (buf, false)
  | k + 1, buf =>
    let stored := buf ++ [tmpBuf ⟨63 - k, by omega⟩]
    if (stored.length : ℤ) = nbytes then (stored, true) else readBytes tmpBuf nbytes k stored

/-- The block loop of `ssufs_read` over the slots that remain. -/
def readLoop (fileHandle : Fin 20) (tmp : Inode) (nbytes : Int32) :
    List (Fin 4) → ℤ → List Byte → Ssu σ (Int32 × List Byte)
  | [], _, buf => pure (-1, buf)
  | i :: rest, fOffset, buf =>
    if 0 ≤ fOffset ∧ fOffset < 64 ∧ tmp.directBlocks i ≠ -1 then do
      let tmpBuf ← readDataBlock (tmp.directBlocks i)
      let (stored, complete) := readBytes tmpBuf nbytes.toInt (64 - fOffset.toNat) buf
      if complete then
        let _ ← ssufsLseek fileHandle nbytes
        pure (0, stored)
      else readLoop fileHandle tmp nbytes rest 0 stored
    else readLoop fileHandle tmp nbytes rest (if fOffset ≠ 0 then fOffset - 64 else 0) buf

/-- The returned value and the bytes stored in the caller's buffer. -/
def ssufsRead (fileHandle : Fin 20) (nbytes : Int32) : Ssu σ (Int32 × List Byte) := do
  let fileHandles ← fileHandleArray
  let handle := fileHandles fileHandle
  let tmp ← readInode handle.inodeNumber
  if tmp.fileSize < handle.offset + nbytes then pure (-1, [])
  else readLoop fileHandle tmp nbytes (List.finRange 4) handle.offset.toInt []

/-! ## Writing -/

/-- The local variables of `ssufs_write` that its block loop changes. -/
structure WriteLocals where
  fOffset : ℤ
  curr : ℕ
  tmpBuf : Block
  rollback : Block
  rollbackIndex : Int32
  isUsed : Fin 4 → Int32
  tmp : Inode

/-- The string that starts with the block ends in it. -/
def HasNul (block : Block) : Prop := ∃ p, block p = 0

instance : DecidablePred HasNul := fun block => inferInstanceAs (Decidable (∃ p, block p = 0))

/-- `strcpy` between two buffers of a block: the bytes up to the first NUL, and that NUL. -/
def strcpyBlock (dest src : Block) : Block := fun p => if ∃ q < p, src q = 0 then dest p else src p

/-- One round of the loop that takes back an unfinished write. -/
def rollBackSlot (locals : WriteLocals) (_ : Unit) (j : Fin 4) : Ssu σ Unit :=
  if locals.isUsed j = 1 then
    if ofIndex j = locals.rollbackIndex then
      writeDataBlock (locals.tmp.directBlocks j) locals.rollback
    else do
      writeDataBlock (locals.tmp.directBlocks j) locals.tmpBuf
      ssufsFreeDataBlock (locals.tmp.directBlocks j)
  else pure ()

/-- The byte loop of `ssufs_write` with `k` bytes left in the block: the block, the bytes taken so
far, and whether the request is complete. -/
def writeBytes (buf : ℕ → Byte) (nbytes : ℤ) : ℕ → Block → ℕ → Block × ℕ × Bool
  | 0, tmpBuf, curr => (tmpBuf, curr, false)
  | k + 1, tmpBuf, curr =>
    let filled := Function.update tmpBuf ⟨63 - k, by omega⟩ (buf curr)
    if ((curr + 1 : ℕ) : ℤ) = nbytes then (filled, curr + 1, true)
    else writeBytes buf nbytes k filled (curr + 1)

/-- A write that starts inside block `i` reads it first and saves it for a rollback. -/
def loadSlot (i : Fin 4) (locals : WriteLocals) : Ssu σ WriteLocals :=
  if locals.fOffset ≠ 0 then do
    let tmpBuf ← readDataBlock (locals.tmp.directBlocks i)
    -- without a NUL, `strcpy` reads and writes past the end of the two buffers
    Prog.check .outOfBounds (HasNul tmpBuf)
    pure { locals with
      tmpBuf := tmpBuf, rollback := strcpyBlock locals.rollback tmpBuf, rollbackIndex := ofIndex i }
  else pure locals

/-- The part of a round of `ssufs_write` that fills block `i`; `next` is the rest of the loop. -/
def writeSlot (fileHandle : Fin 20) (fInode : Int32) (buf : ℕ → Byte) (nbytes : Int32) (i : Fin 4)
    (next : WriteLocals → Ssu σ Int32) (locals : WriteLocals) : Ssu σ Int32 := do
  let locals ← loadSlot i locals
  let (tmpBuf, curr, complete) :=
    writeBytes buf nbytes.toInt (64 - locals.fOffset.toNat) locals.tmpBuf locals.curr
  writeDataBlock (locals.tmp.directBlocks i) tmpBuf
  if complete then
    writeInode fInode { locals.tmp with fileSize := locals.tmp.fileSize + nbytes }
    let _ ← ssufsLseek fileHandle nbytes
    pure 0
  else
    next { locals with
      fOffset := 0, curr := curr, isUsed := Function.update locals.isUsed i 1,
      tmpBuf := fun _ => 0 }

/-- The block loop of `ssufs_write` over the slots that remain. -/
def writeLoop (fileHandle : Fin 20) (fInode : Int32) (buf : ℕ → Byte) (nbytes : Int32) :
    List (Fin 4) → WriteLocals → Ssu σ Int32
  | [], _ => pure (-1)
  | i :: rest, locals =>
    if 0 ≤ locals.fOffset ∧ locals.fOffset < 64 then
      if locals.tmp.directBlocks i = -1 then do
        let block ← ssufsAllocDataBlock
        let allocated := { locals with
          tmp := { locals.tmp with
            directBlocks := Function.update locals.tmp.directBlocks i block } }
        if block = -1 then
          (List.finRange 4).foldlM (rollBackSlot allocated) ()
          pure (-1)
        else
          writeSlot fileHandle fInode buf nbytes i
            (writeLoop fileHandle fInode buf nbytes rest) allocated
      else
        writeSlot fileHandle fInode buf nbytes i
          (writeLoop fileHandle fInode buf nbytes rest) locals
    else
      writeLoop fileHandle fInode buf nbytes rest
        { locals with fOffset := if locals.fOffset ≠ 0 then locals.fOffset - 64 else 0 }

def ssufsWrite (fileHandle : Fin 20) (buf : ℕ → Byte) (nbytes : Int32) : Ssu σ Int32 := do
  let fileHandles ← fileHandleArray
  let handle := fileHandles fileHandle
  -- the two buffers come from malloc, rollback_index is a local without initialiser
  let tmpBuf ← uninit 64
  let rollback ← uninit 64
  let rollbackIndex ← uninit 4
  let tmp ← readInode handle.inodeNumber
  if (256 : Int32) < tmp.fileSize + nbytes then pure (-1)
  else
    writeLoop fileHandle handle.inodeNumber buf nbytes (List.finRange 4)
      { fOffset := handle.offset.toInt
        curr := 0
        tmpBuf := fun p => tmpBuf p
        rollback := fun p => rollback p
        rollbackIndex := ofLE rollbackIndex
        isUsed := fun _ => -1
        tmp := tmp }

/-! ## Calls -/

/-- A call by a user of the file system. -/
inductive Call
  | create (filename : CString)
  | openFile (filename : CString)
  | write (fileHandle : Fin 20) (buf : ℕ → Byte) (nbytes : Int32)
  | read (fileHandle : Fin 20) (nbytes : Int32)
  | lseek (fileHandle : Fin 20) (nseek : Int32)
  | close (fileHandle : Fin 20)
  | delete (filename : CString)

/-- What the user sees of a call: the returned value, if the function has one, and the bytes that
a successful read delivers. -/
structure Reply where
  value : Option Int32
  data : List Byte
  deriving DecidableEq

def Call.exec : Call → Ssu σ Reply
  | .create filename => do
    let i ← ssufsCreate filename
    pure ⟨some i, []⟩
  | .openFile filename => do
    let h ← ssufsOpen filename
    pure ⟨some h, []⟩
  | .write fileHandle buf nbytes => do
    let r ← ssufsWrite fileHandle buf nbytes
    pure ⟨some r, []⟩
  | .read fileHandle nbytes => do
    let (r, buf) ← ssufsRead fileHandle nbytes
    pure ⟨some r, if r = 0 then buf else []⟩
  | .lseek fileHandle nseek => do
    let r ← ssufsLseek fileHandle nseek
    pure ⟨some r, []⟩
  | .close fileHandle => do
    ssufsClose fileHandle
    pure ⟨none, []⟩
  | .delete filename => do
    ssufsDelete filename
    pure ⟨none, []⟩

end SsuOs.Ssufs
