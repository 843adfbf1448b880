import Mathlib.Algebra.Group.Nat.Defs
import Mathlib.Data.Fintype.Card
import SsuOs.Base.Bitmap
import SsuOs.Base.Fallible
import SsuOs.Xv6Fs.Param

/-!
# Blocks, inodes and their contents

The part of `fs.c` from the free map to `writei`. The blocks of the disk are what a process finds in
the buffer cache, and a change of a block comes with the `log_write` of its buffer. A call is what a
process does with an inode it has locked; the calls of different processes come one after the other.
-/

namespace SsuOs.Xv6Fs.Inodes

/-! ## Layout of the disk -/

/-- `NDIRECT`. -/
abbrev ndirect : ℕ := 12

/-- `NINDIRECT`. -/
abbrev nindirect : ℕ := 128

/-- `MAXFILE`. -/
abbrev maxFile : ℕ := ndirect + nindirect

/-- `IPB`. -/
abbrev ipb : ℕ := 8

/-- `BPB`. -/
abbrev bpb : ℕ := 4096

/-- `NDEV`. -/
abbrev ndev : ℕ := 10

/-- The fields of `struct superblock` that the kernel uses here. -/
structure Superblock where
  size : ℕ
  ninodes : ℕ
  inodestart : ℕ
  bmapstart : ℕ

namespace Superblock

/-- `IBLOCK(i, sb)`. -/
def iblock (sb : Superblock) (i : ℕ) : ℕ := i / ipb + sb.inodestart

/-- `BBLOCK(b, sb)`. -/
def bblock (sb : Superblock) (b : ℕ) : ℕ := b / bpb + sb.bmapstart

/-- The first block after the free map. -/
def datastart (sb : Superblock) : ℕ := sb.bmapstart + (sb.size / bpb + 1)

/-- The blocks of inodes, the free map and the data follow each other, as `mkfs` lays them out. -/
structure Valid (sb : Superblock) : Prop where
  inodes : sb.ninodes / ipb + sb.inodestart < sb.bmapstart
  data : sb.datastart ≤ sb.size
  uint : sb.size < 2 ^ 32

instance (sb : Superblock) : Decidable sb.Valid :=
  decidable_of_iff (sb.ninodes / ipb + sb.inodestart < sb.bmapstart ∧ sb.datastart ≤ sb.size ∧
    sb.size < 2 ^ 32) ⟨fun h => ⟨h.1, h.2.1, h.2.2⟩, fun h => ⟨h.1, h.2, h.3⟩⟩

end Superblock

/-! ## Inodes -/

abbrev tFile : UInt16 := 2

abbrev tDev : UInt16 := 3

/-- The fields that `struct inode` and `struct dinode` have in common. -/
@[ext] structure Inode where
  type : UInt16
  major : UInt16
  minor : UInt16
  nlink : UInt16
  size : UInt32
  addrs : Fin (ndirect + 1) → UInt32
  deriving DecidableEq

/-- Two shorts that share a word, the first one in its low half. -/
def pack (lo hi : UInt16) : UInt32 := UInt32.ofNat (lo.toNat + 65536 * hi.toNat)

def low (w : UInt32) : UInt16 := UInt16.ofNat (w.toNat % 65536)

def high (w : UInt32) : UInt16 := UInt16.ofNat (w.toNat / 65536)

namespace Inode

/-- `memset(dip, 0, sizeof(*dip))`. -/
def zero : Inode := ⟨0, 0, 0, 0, 0, fun _ => 0⟩

/-- `ip->addrs[p]`. -/
def addr (ip : Inode) (p : ℕ) : ℕ := if h : p < ndirect + 1 then (ip.addrs ⟨p, h⟩).toNat else 0

def setAddr (ip : Inode) (p b : ℕ) : Inode :=
  { ip with addrs := fun q => if q.val = p then UInt32.ofNat b else ip.addrs q }

/-- The words of a `struct dinode`. -/
def words (ip : Inode) : List UInt32 :=
  pack ip.type ip.major :: pack ip.minor ip.nlink :: ip.size :: List.ofFn ip.addrs

/-- The `struct dinode` at byte `pos` of a block. -/
def read (block : Block) (pos : ℕ) : Inode where
  type := low (block.word pos)
  major := high (block.word pos)
  minor := low (block.word (pos + 4))
  nlink := high (block.word (pos + 4))
  size := block.word (pos + 8)
  addrs p := block.word (pos + 12 + 4 * p)

end Inode

/-- The byte of its block at which the inode `i` begins. -/
def inodePos (i : ℕ) : ℕ := i % ipb * 64

structure Fs where
  disk : ℕ → Block
  /-- the inode cache, with the entries that are `valid` -/
  cache : ℕ → Option Inode
  /-- the blocks given to `log_write` -/
  logged : List ℕ

inductive Panic
  /-- `balloc: out of blocks` -/
  | outOfBlocks
  | freeingFreeBlock
  /-- `ialloc: no inodes` -/
  | noInodes
  /-- `iget: no inodes` -/
  | noEntries
  /-- `ilock` -/
  | noReference
  /-- `ilock: no type` -/
  | noType
  /-- `bmap: out of range` -/
  | outOfRange
  deriving DecidableEq, Repr

namespace Fs

/-- `bread`, a change of the buffer, `log_write` and `brelse`. -/
def put (fs : Fs) (b : ℕ) (data : Block) : Fs :=
  { fs with disk := Function.update fs.disk b data, logged := b :: fs.logged }

/-- The inode `i` on the disk. -/
def load (sb : Superblock) (fs : Fs) (i : ℕ) : Inode :=
  Inode.read (fs.disk (sb.iblock i)) (inodePos i)

/-- The inode `i` as a process finds it once it has the lock. -/
def inode (sb : Superblock) (fs : Fs) (i : ℕ) : Inode := (fs.cache i).getD (fs.load sb i)

def setInode (fs : Fs) (i : ℕ) (ip : Inode) : Fs :=
  { fs with cache := Function.update fs.cache i (some ip) }

/-- The entry of `i` in the inode cache is no longer valid. -/
def forget (fs : Fs) (i : ℕ) : Fs := { fs with cache := Function.update fs.cache i none }

/-- The bit of the block `b` in the free map. -/
def marked (sb : Superblock) (fs : Fs) (b : ℕ) : Bool := (fs.disk (sb.bblock b)).bit (b % bpb)

end Fs

/-! ## The free map -/

def bzero (fs : Fs) (b : ℕ) : Fs := fs.put b fun _ => 0

-- The two loops of the source, over the blocks of the map and over the bits of one of them, go
-- through the bits of all blocks in order.
def balloc (sb : Superblock) (fs : Fs) : Except Panic (ℕ × Fs) :=
  match (List.range sb.size).find? fun b => !fs.marked sb b with
  | none => .error .outOfBlocks
  | some b =>
    .ok (b, bzero (fs.put (sb.bblock b) ((fs.disk (sb.bblock b)).setBit (b % bpb))) b)

def bfree (sb : Superblock) (fs : Fs) (b : ℕ) : Except Panic Fs :=
  if fs.marked sb b = false then .error .freeingFreeBlock
  else .ok (fs.put (sb.bblock b) ((fs.disk (sb.bblock b)).clearBit (b % bpb)))

/-! ## Inodes on the disk -/

/-- `dip` gets the fields of `ip`. -/
def store (sb : Superblock) (fs : Fs) (i : ℕ) (ip : Inode) : Fs :=
  fs.put (sb.iblock i) ((fs.disk (sb.iblock i)).setWords (inodePos i) ip.words)

def iupdate (sb : Superblock) (fs : Fs) (i : ℕ) : Fs := store sb fs i (fs.inode sb i)

/-- `ialloc` up to its `iget`. -/
def ialloc (sb : Superblock) (fs : Fs) (type : UInt16) : Except Panic (ℕ × Fs) :=
  match (List.range sb.ninodes).find? fun i =>
    decide (1 ≤ i) && decide ((fs.load sb i).type = 0) with
  | none => .error .noInodes
  | some i => .ok (i, store sb fs i { Inode.zero with type })

def ilock (sb : Superblock) (fs : Fs) (i : ℕ) : Except Panic Fs :=
  match fs.cache i with
  | some _ => .ok fs
  | none => if (fs.load sb i).type = 0 then .error .noType else .ok (fs.setInode i (fs.load sb i))

/-! ## Contents of inodes -/

/-- `if((addr = ip->addrs[p]) == 0) ip->addrs[p] = addr = balloc(ip->dev);`. -/
def addrOf (sb : Superblock) (fs : Fs) (i p : ℕ) : Except Panic (ℕ × Fs) :=
  if (fs.inode sb i).addr p = 0 then do
    let (b, fs) ← balloc sb fs
    return (b, fs.setInode i ((fs.inode sb i).setAddr p b))
  else .ok ((fs.inode sb i).addr p, fs)

/-- `a[j]` for the block `c` of indirect addresses. -/
def entryOf (sb : Superblock) (fs : Fs) (c j : ℕ) : Except Panic (ℕ × Fs) :=
  if (fs.disk c).word (4 * j) = 0 then do
    let (b, fs) ← balloc sb fs
    return (b, fs.put c ((fs.disk c).setWord (4 * j) (UInt32.ofNat b)))
  else .ok (((fs.disk c).word (4 * j)).toNat, fs)

def bmap (sb : Superblock) (fs : Fs) (i bn : ℕ) : Except Panic (ℕ × Fs) :=
  if bn < ndirect then addrOf sb fs i bn
  else if bn - ndirect < nindirect then do
    let (c, fs) ← addrOf sb fs i ndirect
    entryOf sb fs c (bn - ndirect)
  else .error .outOfRange

/-- One round of the first loop of `itrunc`. -/
def freeAddr (sb : Superblock) (i : ℕ) (fs : Fs) (p : ℕ) : Except Panic Fs :=
  if (fs.inode sb i).addr p = 0 then .ok fs
  else do
    let fs ← bfree sb fs ((fs.inode sb i).addr p)
    return fs.setInode i ((fs.inode sb i).setAddr p 0)

/-- One round of the second loop of `itrunc`, with the block `c` of indirect addresses. -/
def freeEntry (sb : Superblock) (c : ℕ) (fs : Fs) (j : ℕ) : Except Panic Fs :=
  if (fs.disk c).word (4 * j) = 0 then .ok fs
  else bfree sb fs ((fs.disk c).word (4 * j)).toNat

def itrunc (sb : Superblock) (fs : Fs) (i : ℕ) : Except Panic Fs := do
  let fs ← (List.range ndirect).foldlM (freeAddr sb i) fs
  let c := (fs.inode sb i).addr ndirect
  let fs ← if c = 0 then .ok fs
    else do
      let fs ← (List.range nindirect).foldlM (freeEntry sb c) fs
      freeAddr sb i fs ndirect
  return iupdate sb (fs.setInode i { fs.inode sb i with size := 0 }) i

/-- `last` says that this is the only reference to the entry. -/
def iput (sb : Superblock) (fs : Fs) (i : ℕ) (last : Bool) : Except Panic Fs :=
  match fs.cache i with
  | none => .ok fs
  | some ip =>
    if ip.nlink = 0 ∧ last = true then do
      let fs ← itrunc sb fs i
      let fs := iupdate sb (fs.setInode i { fs.inode sb i with type := 0 }) i
      return fs.forget i
    else .ok fs

/-- `devsw`. A device that fails to read or write returns -1. -/
structure Devices where
  read : ℕ → Option (ℕ → Option (List UInt8))
  write : ℕ → Option (List UInt8 → Option ℕ)

/-- The loop of `readi`, with the number of rounds at hand, the offset and the bytes to go. -/
def readLoop (sb : Superblock) (i : ℕ) : ℕ → ℕ → ℕ → Fs → Except Panic (List UInt8 × Fs)
  | 0, _, _, fs => .ok ([], fs)
  | fuel + 1, off, n, fs =>
    if n = 0 then .ok ([], fs)
    else do
      let (b, fs) ← bmap sb fs i (off / bsize)
      let m := min n (bsize - off % bsize)
      let data := (fs.disk b).copyOut (off % bsize) m
      let (rest, fs) ← readLoop sb i fuel (off + m) (n - m) fs
      return (data ++ rest, fs)

/-- The loop of `writei`. -/
def writeLoop (sb : Superblock) (i : ℕ) : ℕ → ℕ → List UInt8 → Fs → Except Panic Fs
  | 0, _, _, fs => .ok fs
  | fuel + 1, off, src, fs =>
    if src = [] then .ok fs
    else do
      let (b, fs) ← bmap sb fs i (off / bsize)
      let m := min src.length (bsize - off % bsize)
      let fs := fs.put b ((fs.disk b).copyIn (off % bsize) (src.take m))
      writeLoop sb i fuel (off + m) (src.drop m) fs

/-- `none` is -1. Offsets and lengths are below `2 ^ 32`, and their sum wraps around. -/
def readi (devsw : Devices) (sb : Superblock) (fs : Fs) (i off n : ℕ) :
    Except Panic (Option (List UInt8) × Fs) :=
  let ip := fs.inode sb i
  if ip.type = tDev then
    match devsw.read ip.major.toNat with
    | some device => .ok (if ip.major.toNat < ndev then device n else none, fs)
    | none => .ok (none, fs)
  else if ip.size.toNat < off ∨ (off + n) % 2 ^ 32 < off then .ok (none, fs)
  else do
    let n := if ip.size.toNat < (off + n) % 2 ^ 32 then ip.size.toNat - off else n
    let (data, fs) ← readLoop sb i n off n fs
    return (some data, fs)

def writei (devsw : Devices) (sb : Superblock) (fs : Fs) (i off : ℕ) (src : List UInt8) :
    Except Panic (Option ℕ × Fs) :=
  let ip := fs.inode sb i
  let n := src.length
  if ip.type = tDev then
    match devsw.write ip.major.toNat with
    | some device => .ok (if ip.major.toNat < ndev then device src else none, fs)
    | none => .ok (none, fs)
  else if ip.size.toNat < off ∨ (off + n) % 2 ^ 32 < off then .ok (none, fs)
  else if maxFile * bsize < (off + n) % 2 ^ 32 then .ok (none, fs)
  else do
    let fs ← writeLoop sb i n off src fs
    if 0 < n ∧ (fs.inode sb i).size.toNat < off + n then
      let ip := { fs.inode sb i with size := UInt32.ofNat (off + n) }
      return (some n, iupdate sb (fs.setInode i ip) i)
    else return (some n, fs)

end SsuOs.Xv6Fs.Inodes
