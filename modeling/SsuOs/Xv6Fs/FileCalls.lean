import Mathlib.Data.List.Find
import SsuOs.Xv6Fs.FileData
import SsuOs.Xv6Fs.FileFree

/-!
# Calls on inodes

The calls that the rest of the kernel makes on inodes, and what they are for: `Store` has files with
bytes and no blocks at all. In a consistent file system every call changes one file as the store
says and leaves the file system consistent (`FileSpecs`).
-/

namespace SsuOs.Xv6Fs.Inodes

open Superblock ByteFile

variable {sb : Superblock} {fs fs' fs₁ : Fs} {i j off n : ℕ} {src : List UInt8} {devsw : Devices}

/-! ## Calls -/

inductive Call
  | ialloc (type : UInt16)
  /-- `ilock`, new values for these fields, and `iupdate` -/
  | update (i : ℕ) (major minor nlink : UInt16)
  | read (i off n : ℕ)
  | write (i off : ℕ) (src : List UInt8)
  | iput (i : ℕ) (last : Bool)
  /-- `iget` recycles the entry of an inode -/
  | evict (i : ℕ)

inductive Reply
  | done
  | inum (i : ℕ)
  | data (r : Option (List UInt8))
  | count (r : Option ℕ)
  deriving DecidableEq

/-- The inode exists, and offsets and lengths are of type `uint`. -/
def Call.Within (sb : Superblock) : Call → Prop
  | .ialloc _ => True
  | .update i _ _ _ | .iput i _ | .evict i => i < sb.ninodes
  | .read i off n => i < sb.ninodes ∧ off < 2 ^ 32 ∧ n < 2 ^ 32
  | .write i off src => i < sb.ninodes ∧ off < 2 ^ 32 ∧ src.length < 2 ^ 32

instance (sb : Superblock) (call : Call) : Decidable (call.Within sb) := by
  cases call <;> unfold Call.Within <;> infer_instance

def exec (devsw : Devices) (sb : Superblock) (fs : Fs) : Call → Except Panic (Reply × Fs)
  | .ialloc type => do
    let (i, fs) ← ialloc sb fs type
    return (.inum i, fs)
  | .update i major minor nlink => do
    let fs ← ilock sb fs i
    return (.done, iupdate sb (fs.setInode i { fs.inode sb i with major, minor, nlink }) i)
  | .read i off n => do
    let fs ← ilock sb fs i
    let (r, fs) ← readi devsw sb fs i off n
    return (.data r, fs)
  | .write i off src => do
    let fs ← ilock sb fs i
    let (r, fs) ← writei devsw sb fs i off src
    return (.count r, fs)
  | .iput i last => do
    let fs ← iput sb fs i last
    return (.done, fs)
  | .evict i => return (.done, fs.forget i)

/-! ## Files -/

structure File where
  type : UInt16
  major : UInt16
  minor : UInt16
  nlink : UInt16
  data : List UInt8
  deriving DecidableEq

/-- The files by number, and which of them the inode cache has. -/
structure Store where
  file : ℕ → File
  valid : ℕ → Bool

namespace Store

def set (st : Store) (i : ℕ) (f : File) (valid : Bool) : Store where
  file := Function.update st.file i f
  valid := Function.update st.valid i valid

/-- What a call is for. Where the kernel panics there is no reply, and this one stands for it. -/
def exec (devsw : Devices) (ninodes : ℕ) (st : Store) : Call → Reply × Store
  | .ialloc type =>
    match (List.range ninodes).find? fun i => decide (1 ≤ i) && decide ((st.file i).type = 0) with
    | none => (.done, st)
    | some i => (.inum i, st.set i ⟨type, 0, 0, 0, []⟩ (st.valid i))
  | .update i major minor nlink => (.done, st.set i { st.file i with major, minor, nlink } true)
  | .read i off n =>
    let f := st.file i
    let r :=
      if f.type = tDev then
        if f.major.toNat < ndev then (devsw.read f.major.toNat).bind fun device => device n
        else none
      else if f.data.length < off ∨ 2 ^ 32 ≤ off + n then none
      else some (readAt f.data off n)
    (.data r, st.set i f true)
  | .write i off src =>
    let f := st.file i
    if f.type = tDev then
      (.count (if f.major.toNat < ndev then
        (devsw.write f.major.toNat).bind fun device => device src else none), st.set i f true)
    else if f.data.length < off ∨ maxFile * bsize < off + src.length then
      (.count none, st.set i f true)
    else (.count (some src.length), st.set i
      { f with data := if src = [] then f.data else writeAt f.data off src } true)
  | .iput i last =>
    let f := st.file i
    if st.valid i = true ∧ f.nlink = 0 ∧ last = true then
      (.done, st.set i { f with type := 0, data := [] } false)
    else (.done, st)
  | .evict i => (.done, st.set i (st.file i) false)

end Store

/-- The bytes of the inode up to its size. -/
def content (sb : Superblock) (fs : Fs) (i : ℕ) : List UInt8 :=
  (List.range (fs.inode sb i).size.toNat).map (byte sb fs i)

def file (sb : Superblock) (fs : Fs) (i : ℕ) : File :=
  ⟨(fs.inode sb i).type, (fs.inode sb i).major, (fs.inode sb i).minor, (fs.inode sb i).nlink,
    content sb fs i⟩

@[simp] theorem length_content : (content sb fs i).length = (fs.inode sb i).size.toNat := by
  simp [content]

theorem byteAt_content {k : ℕ} (below : k < (fs.inode sb i).size.toNat) :
    byteAt (content sb fs i) k = byte sb fs i k := by
  rw [byteAt, List.getD_eq_getElem _ _ (by simpa using below)]
  simp [content]

theorem content_eq {l : List UInt8} (length : l.length = (fs.inode sb i).size.toNat)
    (bytes : ∀ k < l.length, byteAt l k = byte sb fs i k) : content sb fs i = l := by
  apply List.ext_getElem (by simp [length])
  intro k here there
  have same := bytes k there
  rw [byteAt, List.getD_eq_getElem _ _ there] at same
  rw [same]
  simp [content]

/-! ## Consistency -/

/-- An inode is as long as it has blocks for, its copy in the cache is as on the disk, and a free
inode has no blocks. -/
structure GoodAt (sb : Superblock) (fs : Fs) (i : ℕ) : Prop where
  small : (fs.inode sb i).size.toNat ≤ maxFile * bsize
  mapped : ∀ k < (fs.inode sb i).size.toNat, slot sb fs i (slotOf (k / bsize)) ≠ 0
  synced : ∀ ip, fs.cache i = some ip → fs.load sb i = ip ∧ ip.type ≠ 0
  free : (fs.load sb i).type = 0 → (fs.inode sb i).size = 0 ∧ ∀ p < nslots, slot sb fs i p = 0

structure Good (sb : Superblock) (fs : Fs) : Prop where
  owned : Owned sb fs
  each : ∀ i < sb.ninodes, GoodAt sb fs i

theorem block_lt {k size : ℕ} (small : size ≤ maxFile * bsize) (below : k < size) :
    k / bsize < maxFile := by
  unfold maxFile ndirect nindirect bsize at *
  omega

namespace GoodAt

theorem load (good : GoodAt sb fs i) : fs.load sb i = fs.inode sb i := by
  unfold Fs.inode
  cases cached : fs.cache i with
  | none => rfl
  | some ip => exact (good.synced ip cached).1

theorem congr (good : GoodAt sb fs i) (inode : fs'.inode sb i = fs.inode sb i)
    (load : fs'.load sb i = fs.load sb i)
    (slots : ∀ p < nslots, slot sb fs' i p = slot sb fs i p)
    (synced : ∀ ip, fs'.cache i = some ip → fs'.load sb i = ip ∧ ip.type ≠ 0) :
    GoodAt sb fs' i where
  small := by rw [inode]; exact good.small
  mapped k below := by
    rw [inode] at below
    rw [slots _ (slotOf_lt (block_lt good.small below))]
    exact good.mapped k below
  synced := synced
  free none := by
    rw [load] at none
    obtain ⟨size, empty⟩ := good.free none
    exact ⟨by rw [inode, size], fun p place => by rw [slots p place, empty p place]⟩

/-- An inode that nothing was done to. -/
theorem frame (good : GoodAt sb fs i) (cache : fs'.cache i = fs.cache i)
    (load : fs'.load sb i = fs.load sb i)
    (slots : ∀ p < nslots, slot sb fs' i p = slot sb fs i p) : GoodAt sb fs' i := by
  refine good.congr (Fs.inode_congr cache load) load slots fun ip cached => ?_
  rw [cache] at cached
  rw [load]
  exact good.synced ip cached

end GoodAt

theorem content_congr (small : (fs.inode sb i).size.toNat ≤ maxFile * bsize)
    (size : (fs'.inode sb i).size = (fs.inode sb i).size)
    (bytes : ∀ k, k / bsize < maxFile → byte sb fs' i k = byte sb fs i k) :
    content sb fs' i = content sb fs i := by
  unfold content
  rw [size]
  apply List.map_congr_left
  intro k inside
  exact bytes k (block_lt small (List.mem_range.1 inside))

theorem file_congr (small : (fs.inode sb i).size.toNat ≤ maxFile * bsize)
    (inode : fs'.inode sb i = fs.inode sb i)
    (bytes : ∀ k, k / bsize < maxFile → byte sb fs' i k = byte sb fs i k) :
    file sb fs' i = file sb fs i := by
  unfold file
  rw [inode, content_congr small (by rw [inode]) bytes]

/-- A call changed the file `i` to `f` and nothing else. -/
structure Becomes (sb : Superblock) (i : ℕ) (f : File) (valid : Bool) (fs fs' : Fs) : Prop where
  good : Good sb fs'
  file : file sb fs' i = f
  valid : (fs'.cache i).isSome = valid
  others : ∀ j < sb.ninodes, j ≠ i →
    Inodes.file sb fs' j = Inodes.file sb fs j ∧ fs'.cache j = fs.cache j

/-- It is enough that the inode itself is good, and that the others keep their blocks and bytes. -/
theorem Good.becomes (good : Good sb fs) {f : File} {v : Bool} (owned : Owned sb fs')
    (self : GoodAt sb fs' i) (file : file sb fs' i = f) (valid : (fs'.cache i).isSome = v)
    (cache : ∀ j, j ≠ i → fs'.cache j = fs.cache j)
    (load : ∀ j < sb.ninodes, j ≠ i → fs'.load sb j = fs.load sb j)
    (slots : ∀ j < sb.ninodes, j ≠ i → ∀ p < nslots, slot sb fs' j p = slot sb fs j p)
    (bytes : ∀ j < sb.ninodes, j ≠ i → ∀ k, k / bsize < maxFile →
      byte sb fs' j k = byte sb fs j k) : Becomes sb i f v fs fs' := by
  refine ⟨⟨owned, fun j jnum => ?_⟩, file, valid, fun j jnum other => ⟨?_, cache j other⟩⟩
  · by_cases mine : j = i
    · rw [mine]
      exact self
    · exact (good.each j jnum).frame (cache j mine) (load j jnum mine) (slots j jnum mine)
  · apply file_congr (good.each j jnum).small
    · exact Fs.inode_congr (cache j other) (load j jnum other)
    · exact bytes j jnum other

theorem Becomes.trans {f g : File} {v w : Bool} {fs'' : Fs} (first : Becomes sb i f v fs fs')
    (second : Becomes sb i g w fs' fs'') : Becomes sb i g w fs fs'' where
  good := second.good
  file := second.file
  valid := second.valid
  others j jnum other := by
    obtain ⟨file, cache⟩ := first.others j jnum other
    obtain ⟨file', cache'⟩ := second.others j jnum other
    exact ⟨by rw [file', file], by rw [cache', cache]⟩

/-! ## The inode cache -/

/-- What a valid entry comes to, or the loss of one: the inode is the same. -/
theorem Good.recache (good : Good sb fs) {v : Bool} (inum : i < sb.ninodes)
    (disk : fs'.disk = fs.disk) (cache : ∀ j, j ≠ i → fs'.cache j = fs.cache j)
    (synced : ∀ ip, fs'.cache i = some ip → fs.load sb i = ip ∧ ip.type ≠ 0)
    (valid : (fs'.cache i).isSome = v) : Becomes sb i (file sb fs i) v fs fs' := by
  have load : ∀ j, fs'.load sb j = fs.load sb j := fun j => by rw [Fs.load, Fs.load, disk]
  have inode : ∀ j < sb.ninodes, fs'.inode sb j = fs.inode sb j := by
    intro j jnum
    by_cases mine : j = i
    · subst mine
      rw [← (good.each j jnum).load, Fs.inode, load]
      cases cached : fs'.cache j with
      | none => rfl
      | some ip => exact (synced ip cached).1.symm
    · exact Fs.inode_congr (cache j mine) (load j)
  have slots : ∀ j < sb.ninodes, ∀ p, slot sb fs' j p = slot sb fs j p := fun j jnum p =>
    slot_congr (inode j jnum) (fun _ => by rw [disk]) p
  have bytes : ∀ j < sb.ninodes, ∀ k, byte sb fs' j k = byte sb fs j k := by
    intro j jnum k
    unfold byte
    rw [slots j jnum, disk]
  apply good.becomes
  · exact good.owned.congr (fun _ _ => by rw [disk]) fun j jnum q _ => slots j jnum q
  · refine (good.each i inum).congr (inode i inum) (load i) (fun p _ => slots i inum p) ?_
    intro ip cached
    rw [load]
    exact synced ip cached
  · exact file_congr (good.each i inum).small (inode i inum) fun k _ => bytes i inum k
  · exact valid
  · exact cache
  · exact fun j _ _ => load j
  · exact fun j jnum _ p _ => slots j jnum p
  · exact fun j jnum _ k _ => bytes j jnum k

theorem ilock_spec (good : Good sb fs) (inum : i < sb.ninodes) (done : ilock sb fs i = .ok fs') :
    Becomes sb i (file sb fs i) true fs fs' ∧ (fs'.inode sb i).type ≠ 0 := by
  unfold ilock at done
  cases cached : fs.cache i with
  | some ip =>
    simp only [cached, Except.ok.injEq] at done
    subst done
    have synced := (good.each i inum).synced
    refine ⟨good.recache inum rfl (fun _ _ => rfl) synced (by simp [cached]), ?_⟩
    rw [Fs.inode, cached]
    exact (synced ip cached).2
  | none =>
    simp only [cached] at done
    split_ifs at done with free
    simp only [Except.ok.injEq] at done
    subst done
    refine ⟨good.recache inum rfl (fun j other => Function.update_of_ne other ..) ?_ ?_, ?_⟩
    · intro ip entry
      simp only [Fs.setInode, Function.update_self, Option.some.injEq] at entry
      subst entry
      exact ⟨rfl, free⟩
    · simp [Fs.setInode]
    · rw [Fs.inode_setInode]
      exact free

theorem forget_spec (good : Good sb fs) (inum : i < sb.ninodes) :
    Becomes sb i (file sb fs i) false fs (fs.forget i) := by
  refine good.recache inum rfl ?_ ?_ ?_
  · exact fun j other => Function.update_of_ne other ..
  · intro ip entry
    simp [Fs.forget] at entry
  · simp [Fs.forget]

/-- New values for the fields of an inode in use. -/
theorem saved_spec {ip : Inode} (valid : sb.Valid) (good : Good sb fs) (inum : i < sb.ninodes)
    (saved : Saved sb i ip fs fs') (size : ip.size = (fs.inode sb i).size)
    (addrs : ip.addrs = (fs.inode sb i).addrs) (used : ip.type ≠ 0) :
    Becomes sb i ⟨ip.type, ip.major, ip.minor, ip.nlink, content sb fs i⟩ true fs fs' := by
  have slots : ∀ j < sb.ninodes, ∀ p, slot sb fs' j p = slot sb fs j p := fun j jnum p =>
    saved.slot valid good.owned inum addrs jnum p
  have bytes : ∀ j < sb.ninodes, ∀ k, k / bsize < maxFile → byte sb fs' j k = byte sb fs j k :=
    fun j jnum k below => saved.byte valid good.owned inum addrs jnum below
  have small := (good.each i inum).small
  apply good.becomes
  · exact saved.owned valid good.owned inum addrs
  · refine ⟨?_, ?_, ?_, ?_⟩
    · rw [saved.inode, size]
      exact small
    · intro k below
      rw [saved.inode, size] at below
      rw [slots i inum]
      exact (good.each i inum).mapped k below
    · intro ip' cached
      rw [saved.cached] at cached
      obtain rfl := Option.some.inj cached
      exact ⟨saved.loaded, used⟩
    · intro free
      rw [saved.loaded] at free
      exact absurd free used
  · unfold file
    rw [content_congr small (by rw [saved.inode, size]) (bytes i inum), saved.inode]
  · rw [saved.cached]
    rfl
  · exact saved.cache
  · exact fun j _ other => saved.load j other
  · exact fun j jnum _ p _ => slots j jnum p
  · exact fun j jnum _ => bytes j jnum

end SsuOs.Xv6Fs.Inodes
