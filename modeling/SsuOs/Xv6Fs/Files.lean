import SsuOs.Base.Ledger
import SsuOs.Xv6Fs.Inode

/-!
# The blocks of files

Which block stands in which place: the addresses of an inode and the entries of its indirect block
are the slots of a ledger, the free map says which blocks are in use. Every function of `Inode`
keeps the ledger, and changes of the bytes of files only what it is for.
-/

namespace SsuOs.Xv6Fs.Inodes

variable {sb : Superblock} {fs fs' : Fs} {i j b c p q : ℕ} {ip : Inode}

/-! ## Inodes on the disk -/

theorem low_pack (lo hi : UInt16) : low (pack lo hi) = lo := by
  apply UInt16.toNat_inj.1
  have h := lo.toNat_lt
  have h' := hi.toNat_lt
  simp only [low, pack, UInt16.toNat_ofNat', UInt32.toNat_ofNat']
  omega

theorem high_pack (lo hi : UInt16) : high (pack lo hi) = hi := by
  apply UInt16.toNat_inj.1
  have h := lo.toNat_lt
  have h' := hi.toNat_lt
  simp only [high, pack, UInt16.toNat_ofNat', UInt32.toNat_ofNat']
  omega

namespace Inode

@[simp] theorem length_words (ip : Inode) : ip.words.length = 16 := by simp [words]

/-- An inode written to a block is read back. -/
theorem read_setWords {block : Block} {pos : ℕ} (fits : pos + 64 ≤ 512) (ip : Inode) :
    read (block.setWords pos ip.words) pos = ip := by
  have stored : ∀ k (below : k < ip.words.length),
      (block.setWords pos ip.words).word (pos + 4 * k) = ip.words[k] := fun k below =>
    Bytes.word_setWords (by rw [length_words]; exact fits) below
  have first : (block.setWords pos ip.words).word pos = pack ip.type ip.major := stored 0 (by simp)
  have second : (block.setWords pos ip.words).word (pos + 4) = pack ip.minor ip.nlink :=
    stored 1 (by simp)
  have third : (block.setWords pos ip.words).word (pos + 8) = ip.size := stored 2 (by simp)
  have fourth : ∀ p : Fin (ndirect + 1),
      (block.setWords pos ip.words).word (pos + 12 + 4 * p) = ip.addrs p := by
    intro p
    have bound : p.val < 13 := p.isLt
    rw [show pos + 12 + 4 * p.val = pos + 4 * (p + 3) by omega,
      stored (p + 3) (by rw [length_words]; omega)]
    simp only [words, List.getElem_cons_succ, List.getElem_ofFn]
  unfold read
  simp only [first, second, third, fourth, low_pack, high_pack]

/-- An inode of which no byte is written is kept. -/
theorem read_setWords_of_disjoint {block : Block} {pos pos' : ℕ} (fits : pos + 64 ≤ 512)
    (ip : Inode) (apart : pos' + 64 ≤ pos ∨ pos + 64 ≤ pos') :
    read (block.setWords pos ip.words) pos' = read block pos' := by
  have kept : ∀ k < 16, (block.setWords pos ip.words).word (pos' + 4 * k) =
      block.word (pos' + 4 * k) := by
    intro k below
    rcases apart with before | after
    · exact Bytes.word_setWords_of_before (by rw [length_words]; exact fits) (by omega)
    · apply Bytes.word_setWords_of_after
      · rw [length_words]
        exact fits
      · rw [length_words]
        omega
  have first : (block.setWords pos ip.words).word pos' = block.word pos' := kept 0 (by omega)
  have second : (block.setWords pos ip.words).word (pos' + 4) = block.word (pos' + 4) :=
    kept 1 (by omega)
  have third : (block.setWords pos ip.words).word (pos' + 8) = block.word (pos' + 8) :=
    kept 2 (by omega)
  have fourth : ∀ p : Fin (ndirect + 1),
      (block.setWords pos ip.words).word (pos' + 12 + 4 * p) = block.word (pos' + 12 + 4 * p) := by
    intro p
    have bound : p.val < 13 := p.isLt
    rw [show pos' + 12 + 4 * p.val = pos' + 4 * (p + 3) by omega]
    exact kept (p + 3) (by omega)
  unfold read
  simp only [first, second, third, fourth]

theorem addr_setAddr {b : ℕ} (place : p ≤ ndirect) (small : b < 2 ^ 32) :
    (ip.setAddr p b).addr q = if q = p then b else ip.addr q := by
  unfold addr setAddr
  split_ifs with inside same
  · simp only [same, ↓reduceIte, UInt32.toNat_ofNat']
    exact Nat.mod_eq_of_lt small
  · simp [same]
  · omega
  · rfl

end Inode

/-! ## Regions of the disk -/

namespace Superblock.Valid

theorem bmapstart_lt (sb : Superblock) : sb.bmapstart < sb.datastart :=
  Nat.lt_add_of_pos_right (Nat.succ_pos _)

theorem le_bblock (sb : Superblock) (b : ℕ) : sb.bmapstart ≤ sb.bblock b := Nat.le_add_left _ _

theorem bblock_lt (below : b < sb.size) : sb.bblock b < sb.datastart := by
  have le : b / bpb ≤ sb.size / bpb := Nat.div_le_div_right below.le
  unfold bblock datastart
  omega

theorem iblock_lt (valid : sb.Valid) (inum : i < sb.ninodes) : sb.iblock i < sb.bmapstart := by
  have inodes := valid.inodes
  have le : i / ipb ≤ sb.ninodes / ipb := Nat.div_le_div_right inum.le
  unfold iblock
  omega

end Superblock.Valid

open Superblock

namespace Fs

@[simp] theorem disk_put (fs : Fs) (b : ℕ) (data : Block) : (fs.put b data).disk b = data :=
  Function.update_self ..

theorem disk_put_of_ne (fs : Fs) (data : Block) (other : c ≠ b) :
    (fs.put b data).disk c = fs.disk c :=
  Function.update_of_ne other ..

@[simp] theorem cache_put (fs : Fs) (b : ℕ) (data : Block) : (fs.put b data).cache = fs.cache := rfl

@[simp] theorem inode_setInode (fs : Fs) (i : ℕ) (ip : Inode) :
    (fs.setInode i ip).inode sb i = ip := by
  simp [inode, setInode]

theorem inode_setInode_of_ne (fs : Fs) (ip : Inode) (other : j ≠ i) :
    (fs.setInode i ip).inode sb j = fs.inode sb j := by
  simp only [inode, setInode, Function.update_of_ne other]
  rfl

theorem load_congr (same : fs'.disk (sb.iblock i) = fs.disk (sb.iblock i)) :
    fs'.load sb i = fs.load sb i := by
  rw [load, load, same]

theorem inode_congr (cached : fs'.cache i = fs.cache i)
    (loaded : fs'.load sb i = fs.load sb i) : fs'.inode sb i = fs.inode sb i := by
  rw [inode, inode, cached, loaded]

theorem marked_congr (same : fs'.disk (sb.bblock b) = fs.disk (sb.bblock b)) :
    fs'.marked sb b = fs.marked sb b := by
  rw [marked, marked, same]

theorem bit_inside (b : ℕ) : b % bpb / 8 < bsize := by
  unfold bpb bsize
  omega

/-- The bits of the blocks in one block of the free map. -/
theorem mod_eq_iff (same : sb.bblock c = sb.bblock b) : c % bpb = b % bpb ↔ c = b := by
  unfold Superblock.bblock bpb at same
  unfold bpb
  omega

theorem marked_put_setBit (fs : Fs) :
    (fs.put (sb.bblock b) ((fs.disk (sb.bblock b)).setBit (b % bpb))).marked sb c =
      (decide (c = b) || fs.marked sb c) := by
  by_cases same : sb.bblock c = sb.bblock b
  · rw [marked, marked, same, disk_put, Bytes.bit_setBit (bit_inside b)]
    simp only [mod_eq_iff same]
  · have apart : c ≠ b := by
      rintro rfl
      exact same rfl
    rw [marked_congr (disk_put_of_ne _ _ same)]
    simp [apart]

theorem marked_put_clearBit (fs : Fs) :
    (fs.put (sb.bblock b) ((fs.disk (sb.bblock b)).clearBit (b % bpb))).marked sb c =
      (!decide (c = b) && fs.marked sb c) := by
  by_cases same : sb.bblock c = sb.bblock b
  · rw [marked, marked, same, disk_put, Bytes.bit_clearBit (bit_inside b)]
    simp only [mod_eq_iff same]
  · have apart : c ≠ b := by
      rintro rfl
      exact same rfl
    rw [marked_congr (disk_put_of_ne _ _ same)]
    simp [apart]

end Fs

/-! A change of a data block leaves inodes and the free map as they are. -/

theorem load_put (valid : sb.Valid) (region : sb.datastart ≤ b) (inum : i < sb.ninodes)
    (data : Block) : (fs.put b data).load sb i = fs.load sb i := by
  have start := Valid.bmapstart_lt sb
  have lt := valid.iblock_lt inum
  exact Fs.load_congr (Fs.disk_put_of_ne _ _ (by omega))

theorem inode_put (valid : sb.Valid) (region : sb.datastart ≤ b) (inum : i < sb.ninodes)
    (data : Block) : (fs.put b data).inode sb i = fs.inode sb i := by
  rw [Fs.inode, Fs.inode, Fs.cache_put, load_put valid region inum]

theorem marked_put (region : sb.datastart ≤ b) (inside : c < sb.size) (data : Block) :
    (fs.put b data).marked sb c = fs.marked sb c := by
  have lt := Valid.bblock_lt inside
  exact Fs.marked_congr (Fs.disk_put_of_ne _ _ (by omega))

theorem inodePos_le (i : ℕ) : inodePos i + 64 ≤ 512 := by
  unfold inodePos ipb
  omega

/-- An inode stored on the disk is read back. -/
theorem load_store : (store sb fs i ip).load sb i = ip := by
  rw [Fs.load, store, Fs.disk_put]
  exact Inode.read_setWords (inodePos_le i) ip

/-- The other inodes are kept, also those in the same block. -/
theorem load_store_of_ne (other : j ≠ i) : (store sb fs i ip).load sb j = fs.load sb j := by
  by_cases same : sb.iblock j = sb.iblock i
  · rw [Fs.load, Fs.load, store, same, Fs.disk_put]
    apply Inode.read_setWords_of_disjoint (inodePos_le i)
    unfold iblock ipb at same
    unfold inodePos ipb
    omega
  · exact Fs.load_congr (Fs.disk_put_of_ne _ _ same)

/-! ## Slots -/

/-- Places for block numbers in an inode: its addresses and the entries of its indirect block. -/
abbrev nslots : ℕ := maxFile + 1

/-- The block number in slot `p` of the inode `i`, where the entries follow the addresses. -/
def slot (sb : Superblock) (fs : Fs) (i p : ℕ) : ℕ :=
  if p ≤ ndirect then (fs.inode sb i).addr p
  else if (fs.inode sb i).addr ndirect = 0 then 0
  else ((fs.disk ((fs.inode sb i).addr ndirect)).word (4 * (p - (ndirect + 1)))).toNat

/-- The slot of block `bn` of a file. -/
def slotOf (bn : ℕ) : ℕ := if bn < ndirect then bn else bn + 1

/-- The byte `k` of the inode `i`. What has no block reads as 0. -/
def byte (sb : Superblock) (fs : Fs) (i k : ℕ) : UInt8 :=
  if slot sb fs i (slotOf (k / bsize)) = 0 then 0
  else (fs.disk (slot sb fs i (slotOf (k / bsize)))).get (k % bsize)

/-- Every block in use has its place, and the free map shows which are in use. -/
def Owned (sb : Superblock) (fs : Fs) : Prop :=
  Ledger sb.datastart sb.size (fun x : Fin sb.ninodes × Fin nslots => slot sb fs x.1 x.2)
    (fs.marked sb)

theorem slotOf_lt {bn : ℕ} (below : bn < maxFile) : slotOf bn < nslots := by
  unfold slotOf nslots
  split_ifs <;> omega

theorem slotOf_ne {bn : ℕ} : slotOf bn ≠ ndirect := by
  unfold slotOf
  split_ifs <;> omega

theorem slotOf_inj {bn bn' : ℕ} (same : slotOf bn = slotOf bn') : bn = bn' := by
  unfold slotOf at same
  split_ifs at same <;> omega

theorem slot_addr (address : p ≤ ndirect) : slot sb fs i p = (fs.inode sb i).addr p :=
  if_pos address

theorem slot_entry (entry : ndirect < p) (some : slot sb fs i ndirect ≠ 0) :
    slot sb fs i p =
      ((fs.disk (slot sb fs i ndirect)).word (4 * (p - (ndirect + 1)))).toNat := by
  rw [slot_addr le_rfl] at some ⊢
  rw [slot, if_neg (by omega), if_neg some]

theorem slot_entry_of_zero (entry : ndirect < p) (none : slot sb fs i ndirect = 0) :
    slot sb fs i p = 0 := by
  rw [slot_addr le_rfl] at none
  rw [slot, if_neg (by omega), if_pos none]

theorem slot_congr (inodes : fs'.inode sb i = fs.inode sb i)
    (blocks : slot sb fs i ndirect ≠ 0 →
      fs'.disk (slot sb fs i ndirect) = fs.disk (slot sb fs i ndirect)) (p : ℕ) :
    slot sb fs' i p = slot sb fs i p := by
  rw [slot_addr le_rfl] at blocks
  unfold slot
  rw [inodes]
  split_ifs with address none
  · rfl
  · rfl
  · rw [blocks none]

namespace Owned

variable (owned : Owned sb fs)
include owned

theorem range (inum : i < sb.ninodes) (place : p < nslots) (some : slot sb fs i p ≠ 0) :
    sb.datastart ≤ slot sb fs i p ∧ slot sb fs i p < sb.size :=
  Ledger.range owned (⟨i, inum⟩, ⟨p, place⟩) some

theorem inj (inum : i < sb.ninodes) (place : p < nslots) (jnum : j < sb.ninodes)
    (qlace : q < nslots) (some : slot sb fs i p ≠ 0) (same : slot sb fs i p = slot sb fs j q) :
    i = j ∧ p = q := by
  have eq := Ledger.inj owned (⟨i, inum⟩, ⟨p, place⟩) (⟨j, jnum⟩, ⟨q, qlace⟩) some same
  simpa using eq

theorem ne_of_free (below : b < sb.size) (free : fs.marked sb b = false) (inum : i < sb.ninodes)
    (place : p < nslots) : slot sb fs i p ≠ b :=
  Ledger.ne_of_free owned below free (⟨i, inum⟩, ⟨p, place⟩)

theorem marked_slot (inum : i < sb.ninodes) (place : p < nslots) (some : slot sb fs i p ≠ 0) :
    fs.marked sb (slot sb fs i p) = true := by
  have inside := (owned.range inum place some).2
  exact (Ledger.marked owned _ inside).2 (.inr ⟨(⟨i, inum⟩, ⟨p, place⟩), rfl⟩)

/-- The slots of other inodes stay as they are where only one inode's indirect block changes. -/
theorem slot_of_ne (inum : i < sb.ninodes) (jnum : j < sb.ninodes) (other : j ≠ i)
    (inodes : fs'.inode sb j = fs.inode sb j)
    (blocks : ∀ c, sb.datastart ≤ c → c ≠ slot sb fs i ndirect → fs.marked sb c = true →
      fs'.disk c = fs.disk c) (q : ℕ) : slot sb fs' j q = slot sb fs j q := by
  apply slot_congr inodes
  intro some
  have place : ndirect < nslots := by decide
  apply blocks _ (owned.range jnum place some).1
  · intro same
    exact other (owned.inj jnum place inum place some same).1
  · exact owned.marked_slot jnum place some

end Owned

/-! ## Allocation -/

/-- `balloc` returned `b`. -/
structure Allocated (sb : Superblock) (b : ℕ) (fs fs' : Fs) : Prop where
  below : b < sb.size
  free : fs.marked sb b = false
  data : sb.datastart ≤ b
  cache : fs'.cache = fs.cache
  logged : fs'.logged = b :: sb.bblock b :: fs.logged
  zero : fs'.disk b = fun _ => 0
  disk : ∀ c, c ≠ b → c < sb.bmapstart ∨ sb.datastart ≤ c → fs'.disk c = fs.disk c
  marks : ∀ c < sb.size, fs'.marked sb c = (decide (c = b) || fs.marked sb c)

theorem balloc_spec (owned : Owned sb fs) (done : balloc sb fs = .ok (b, fs')) :
    Allocated sb b fs fs' := by
  unfold balloc at done
  cases found : (List.range sb.size).find? fun b => !fs.marked sb b with
  | none => simp [found] at done
  | some d =>
    simp only [found, Except.ok.injEq, Prod.mk.injEq] at done
    obtain ⟨rfl, rfl⟩ := done
    have below : d < sb.size := List.mem_range.1 (List.mem_of_find?_eq_some found)
    have free : fs.marked sb d = false := by simpa using List.find?_some found
    have data : sb.datastart ≤ d := Ledger.le_of_free owned below free
    have start := Valid.le_bblock sb d
    have stop := Valid.bblock_lt below
    refine ⟨below, free, data, rfl, rfl, Fs.disk_put .., ?_, ?_⟩
    · intro c other region
      rw [bzero, Fs.disk_put_of_ne _ _ other, Fs.disk_put_of_ne _ _ (by omega)]
    · intro c inside
      have apart : sb.bblock c ≠ d := by
        have := Valid.bblock_lt inside
        omega
      rw [bzero, Fs.marked_congr (Fs.disk_put_of_ne _ _ apart)]
      exact Fs.marked_put_setBit fs

namespace Allocated

variable (new : Allocated sb b fs fs')
include new

theorem load (valid : sb.Valid) (jnum : j < sb.ninodes) : fs'.load sb j = fs.load sb j := by
  have region := valid.iblock_lt jnum
  have start := Valid.bmapstart_lt sb
  have data := new.data
  exact Fs.load_congr (new.disk _ (by omega) (.inl region))

theorem inode (valid : sb.Valid) (jnum : j < sb.ninodes) : fs'.inode sb j = fs.inode sb j :=
  Fs.inode_congr (by rw [new.cache]) (new.load valid jnum)

/-- A block in use is not the new one. -/
theorem ne_of_marked (used : fs.marked sb c = true) : c ≠ b := by
  rintro rfl
  simp [new.free] at used

end Allocated

/-- The new block `b` was entered in slot `p` of the inode `i`. -/
structure Assigned (sb : Superblock) (i p b : ℕ) (fs fs' : Fs) : Prop where
  place : p < nslots
  below : b < sb.size
  free : fs.marked sb b = false
  data : sb.datastart ≤ b
  empty : slot sb fs i p = 0
  slots : ∀ j < sb.ninodes, ∀ q < nslots,
    slot sb fs' j q = if j = i ∧ q = p then b else slot sb fs j q
  marks : ∀ c < sb.size, fs'.marked sb c = (decide (c = b) || fs.marked sb c)
  zero : fs'.disk b = fun _ => 0
  disk : ∀ c, sb.datastart ≤ c → c ≠ b → c ≠ slot sb fs i ndirect → fs'.disk c = fs.disk c
  self : ∃ addrs, fs'.inode sb i = { fs.inode sb i with addrs }
  cache : ∀ j, j ≠ i → fs'.cache j = fs.cache j
  kept : (fs.cache i).isSome → (fs'.cache i).isSome
  load : ∀ j < sb.ninodes, fs'.load sb j = fs.load sb j
  logged : ∀ c ∈ fs'.logged, c ∈ fs.logged ∨ (∃ d < sb.size, c = sb.bblock d) ∨ c = b ∨
    c = slot sb fs' i ndirect ∧ c ≠ 0

/-- The new block is entered as an address. -/
theorem Allocated.address (valid : sb.Valid) (owned : Owned sb fs) (inum : i < sb.ninodes)
    (new : Allocated sb b fs fs') (address : p ≤ ndirect) (empty : slot sb fs i p = 0) :
    Assigned sb i p b fs (fs'.setInode i ((fs'.inode sb i).setAddr p b)) := by
  have place : p < nslots := lt_of_le_of_lt address (by decide)
  have small : b < 2 ^ 32 := new.below.trans valid.uint
  have same := new.inode valid inum
  have disk : ∀ c, sb.datastart ≤ c → c ≠ b → fs'.disk c = fs.disk c := fun c region other =>
    new.disk c other (.inr region)
  refine ⟨place, new.below, new.free, new.data, empty, ?_, new.marks, new.zero,
    fun c region other _ => disk c region other, ?_, ?_, ?_, fun j jnum => new.load valid jnum, ?_⟩
  · intro j jnum q qlace
    by_cases here : j = i
    · subst here
      have direct : ∀ q ≤ ndirect, slot sb (fs'.setInode j ((fs'.inode sb j).setAddr p b)) j q =
          if q = p then b else slot sb fs j q := by
        intro q low
        rw [slot_addr low, slot_addr low, Fs.inode_setInode, Inode.addr_setAddr address small, same]
      simp only [true_and]
      by_cases low : q ≤ ndirect
      · exact direct q low
      · -- the entries: those of a new indirect block are all 0
        have entry : ndirect < q := by omega
        rw [if_neg (by omega)]
        have indirect := direct ndirect le_rfl
        split_ifs at indirect with new_indirect
        · have some : b ≠ 0 := by
            have := new.data
            have := Ledger.low owned
            omega
          have before : slot sb fs j ndirect = 0 := by rw [new_indirect, empty]
          rw [slot_entry_of_zero entry before, slot_entry entry (by rw [indirect]; exact some),
            indirect]
          change ((fs'.disk b).word _).toNat = 0
          rw [new.zero, Bytes.word_zero]
          rfl
        · by_cases none : slot sb fs j ndirect = 0
          · rw [slot_entry_of_zero entry none, slot_entry_of_zero entry (by rw [indirect, none])]
          · have here : ndirect < nslots := by decide
            have region := (owned.range inum here none).1
            have other := new.ne_of_marked (owned.marked_slot inum here none)
            rw [slot_entry entry none, slot_entry entry (by rwa [indirect]), indirect]
            change ((fs'.disk _).word _).toNat = _
            rw [disk _ region other]
    · rw [if_neg (by tauto)]
      apply owned.slot_of_ne inum jnum here
      · rw [Fs.inode_setInode_of_ne _ _ here]
        exact new.inode valid jnum
      · intro c region _ used
        exact disk c region (new.ne_of_marked used)
  · exact ⟨_, by rw [Fs.inode_setInode, same]; rfl⟩
  · intro j other
    change Function.update fs'.cache i _ j = _
    rw [Function.update_of_ne other, new.cache]
  · intro _
    simp [Fs.setInode]
  · intro c inside
    change c ∈ fs'.logged at inside
    rw [new.logged, List.mem_cons, List.mem_cons] at inside
    rcases inside with rfl | rfl | before
    · exact .inr (.inr (.inl rfl))
    · exact .inr (.inl ⟨b, new.below, rfl⟩)
    · exact .inl before

/-- The new block is entered in the indirect block. -/
theorem Allocated.entry (valid : sb.Valid) (owned : Owned sb fs) (inum : i < sb.ninodes)
    (new : Allocated sb b fs fs') {n : ℕ} (entry : n < nindirect)
    (some : slot sb fs i ndirect = c) (used : c ≠ 0)
    (empty : (fs.disk c).word (4 * n) = 0) :
    Assigned sb i (ndirect + 1 + n) b fs
      (fs'.put c ((fs'.disk c).setWord (4 * n) (UInt32.ofNat b))) := by
  have place : ndirect + 1 + n < nslots := by
    unfold nslots maxFile
    omega
  have here : ndirect < nslots := by decide
  have small : b < 2 ^ 32 := new.below.trans valid.uint
  subst some
  have region := (owned.range inum here used).1
  have other : slot sb fs i ndirect ≠ b := new.ne_of_marked (owned.marked_slot inum here used)
  have old : fs'.disk (slot sb fs i ndirect) = fs.disk (slot sb fs i ndirect) :=
    new.disk _ other (.inr region)
  have loaded : ∀ j < sb.ninodes, (fs'.put (slot sb fs i ndirect)
      ((fs'.disk (slot sb fs i ndirect)).setWord (4 * n) (UInt32.ofNat b))).load sb j =
      fs.load sb j := by
    intro j jnum
    rw [load_put valid region jnum]
    exact new.load valid jnum
  have inodes : ∀ j < sb.ninodes, (fs'.put (slot sb fs i ndirect)
      ((fs'.disk (slot sb fs i ndirect)).setWord (4 * n) (UInt32.ofNat b))).inode sb j =
      fs.inode sb j := by
    intro j jnum
    rw [inode_put valid region jnum]
    exact new.inode valid jnum
  have direct : ∀ q ≤ ndirect, slot sb (fs'.put (slot sb fs i ndirect)
      ((fs'.disk (slot sb fs i ndirect)).setWord (4 * n) (UInt32.ofNat b))) i q =
      slot sb fs i q := by
    intro q low
    rw [slot_addr low, slot_addr low, inodes i inum]
  refine ⟨place, new.below, new.free, new.data, ?_, ?_, ?_, ?_, ?_, ?_, ?_, ?_, loaded, ?_⟩
  · rw [slot_entry (by omega) used, Nat.add_sub_cancel_left, empty]
    rfl
  · intro j jnum q qlace
    by_cases mine : j = i
    · subst mine
      simp only [true_and]
      by_cases low : q ≤ ndirect
      · rw [direct q low, if_neg (by omega)]
      · have high : ndirect < q := by omega
        rw [slot_entry high (by rw [direct _ le_rfl]; exact used), direct _ le_rfl, Fs.disk_put,
          old]
        split_ifs with same
        · rw [same, Nat.add_sub_cancel_left,
            Bytes.word_setWord (by unfold bsize; unfold nindirect at entry; omega)]
          exact Nat.mod_eq_of_lt small
        · rw [slot_entry high used, Bytes.word_setWord_of_disjoint]
          · unfold bsize
            unfold nindirect at entry
            omega
          · omega
    · rw [if_neg (by tauto)]
      apply owned.slot_of_ne inum jnum mine (inodes j jnum)
      intro d data apart marked
      rw [Fs.disk_put_of_ne _ _ apart]
      exact new.disk d (new.ne_of_marked marked) (.inr data)
  · intro d inside
    rw [marked_put region inside]
    exact new.marks d inside
  · rw [Fs.disk_put_of_ne _ _ other.symm]
    exact new.zero
  · intro d data apart apart'
    rw [Fs.disk_put_of_ne _ _ apart']
    exact new.disk d apart (.inr data)
  · exact ⟨_, inodes i inum⟩
  · intro j _
    rw [Fs.cache_put, new.cache]
  · rw [Fs.cache_put, new.cache]
    exact id
  · intro d inside
    change d ∈ slot sb fs i ndirect :: fs'.logged at inside
    rw [new.logged, List.mem_cons, List.mem_cons, List.mem_cons] at inside
    rcases inside with rfl | rfl | rfl | before
    · exact .inr (.inr (.inr ⟨(direct _ le_rfl).symm, used⟩))
    · exact .inr (.inr (.inl rfl))
    · exact .inr (.inl ⟨b, new.below, rfl⟩)
    · exact .inl before

namespace Assigned

variable (new : Assigned sb i p b fs fs') (owned : Owned sb fs)
include new owned

theorem pos : b ≠ 0 := by
  have data := new.data
  have low := Ledger.low owned
  omega

variable (inum : i < sb.ninodes)
include inum

theorem keeps : Owned sb fs' := by
  apply Ledger.assign (x := (⟨i, inum⟩, ⟨p, new.place⟩)) owned new.below new.free new.empty
  · rintro ⟨j, q⟩
    rw [new.slots j j.isLt q q.isLt]
    simp only [Prod.mk.injEq, Fin.ext_iff]
  · exact new.marks

/-- The bytes of files stay as they are: the new block holds zeros, as what has no block. -/
theorem byte (jnum : j < sb.ninodes) {k : ℕ} (below : k / bsize < maxFile) :
    byte sb fs' j k = byte sb fs j k := by
  have qlace := slotOf_lt below
  have slots := new.slots j jnum _ qlace
  unfold Inodes.byte
  split_ifs at slots with here
  · obtain ⟨rfl, same⟩ := here
    rw [slots, same, new.empty, if_pos rfl, if_neg (new.pos owned), new.zero, Bytes.get_zero]
  · rw [slots]
    split_ifs with none
    · rfl
    · have apart : slot sb fs j (slotOf (k / bsize)) ≠ slot sb fs i ndirect := by
        intro same
        exact slotOf_ne (owned.inj jnum qlace inum (by decide) none same).2
      have other := owned.ne_of_free new.below new.free jnum qlace
      rw [new.disk _ (owned.range jnum qlace none).1 other apart]

end Assigned

/-! ## Growth of an inode -/

/-- The block `c` is one of the free map, or it stands in one of the slots `P` of the inode. -/
def Touched (sb : Superblock) (i : ℕ) (P : ℕ → Prop) (fs : Fs) (c : ℕ) : Prop :=
  (∃ d < sb.size, c = sb.bblock d) ∨ ∃ p < nslots, P p ∧ slot sb fs i p = c ∧ c ≠ 0

/-- The inode `i` got blocks for some of the slots `P` that were empty. -/
structure Grows (sb : Superblock) (i : ℕ) (P : ℕ → Prop) (fs fs' : Fs) : Prop where
  owned : Owned sb fs'
  slots : ∀ j < sb.ninodes, ∀ q < nslots, j ≠ i ∨ slot sb fs j q ≠ 0 →
    slot sb fs' j q = slot sb fs j q
  self : ∃ addrs, fs'.inode sb i = { fs.inode sb i with addrs }
  cache : ∀ j, j ≠ i → fs'.cache j = fs.cache j
  kept : (fs.cache i).isSome → (fs'.cache i).isSome
  load : ∀ j < sb.ninodes, fs'.load sb j = fs.load sb j
  logged : ∀ c ∈ fs'.logged, c ∈ fs.logged ∨ Touched sb i P fs' c

/-- That is all that happened: the bytes of all files are as before. -/
structure Fills (sb : Superblock) (i : ℕ) (P : ℕ → Prop) (fs fs' : Fs) : Prop
    extends Grows sb i P fs fs' where
  bytes : ∀ j < sb.ninodes, ∀ k, k / bsize < maxFile → byte sb fs' j k = byte sb fs j k

theorem Touched.mono {P Q : ℕ → Prop} (touched : Touched sb i P fs c) (le : ∀ p, P p → Q p) :
    Touched sb i Q fs c := by
  obtain map | ⟨p, place, here, same⟩ := touched
  · exact .inl map
  · exact .inr ⟨p, place, le p here, same⟩

namespace Grows

variable {P Q : ℕ → Prop}

theorem refl (owned : Owned sb fs) : Grows sb i P fs fs where
  owned := owned
  slots _ _ _ _ _ := rfl
  self := ⟨_, rfl⟩
  cache _ _ := rfl
  kept := id
  load _ _ := rfl
  logged _ inside := .inl inside

theorem mono (grows : Grows sb i P fs fs') (le : ∀ p, P p → Q p) : Grows sb i Q fs fs' :=
  { grows with logged := fun c inside => (grows.logged c inside).imp_right (·.mono le) }

theorem touched (grows : Grows sb i P fs fs') (inum : i < sb.ninodes)
    (touched : Touched sb i Q fs c) : Touched sb i Q fs' c := by
  obtain map | ⟨p, place, here, same, some⟩ := touched
  · exact .inl map
  · refine .inr ⟨p, place, here, ?_, some⟩
    rw [grows.slots i inum p place (.inr (by rwa [same])), same]

theorem trans {fs'' : Fs} (first : Grows sb i P fs fs') (second : Grows sb i P fs' fs'')
    (inum : i < sb.ninodes) : Grows sb i P fs fs'' where
  owned := second.owned
  slots j jnum q place kept := by
    have same := first.slots j jnum q place kept
    rw [second.slots j jnum q place (by rwa [same]), same]
  self := by
    obtain ⟨addrs, same⟩ := first.self
    obtain ⟨addrs', same'⟩ := second.self
    exact ⟨addrs', by rw [same', same]⟩
  cache j other := by rw [second.cache j other, first.cache j other]
  kept := second.kept ∘ first.kept
  load j jnum := by rw [second.load j jnum, first.load j jnum]
  logged c inside := by
    rcases second.logged c inside with before | here
    · exact (first.logged c before).imp_right (second.touched inum)
    · exact .inr here

end Grows

namespace Fills

variable {P : ℕ → Prop}

theorem refl (owned : Owned sb fs) : Fills sb i P fs fs where
  toGrows := .refl owned
  bytes _ _ _ _ := rfl

theorem trans {fs'' : Fs} (first : Fills sb i P fs fs') (second : Fills sb i P fs' fs'')
    (inum : i < sb.ninodes) : Fills sb i P fs fs'' where
  toGrows := first.toGrows.trans second.toGrows inum
  bytes j jnum k below := by rw [second.bytes j jnum k below, first.bytes j jnum k below]

end Fills

theorem Assigned.fills {P : ℕ → Prop} (new : Assigned sb i p b fs fs') (owned : Owned sb fs)
    (inum : i < sb.ninodes) (here : P p) (indirect : P ndirect) : Fills sb i P fs fs' where
  owned := new.keeps owned inum
  bytes j jnum k below := new.byte owned inum jnum below
  slots j jnum q place kept := by
    rw [new.slots j jnum q place, if_neg]
    rintro ⟨rfl, rfl⟩
    rcases kept with other | some
    · exact other rfl
    · exact some new.empty
  self := new.self
  cache := new.cache
  kept := new.kept
  load := new.load
  logged c inside := by
    rcases new.logged c inside with before | map | rfl | ⟨same, some⟩
    · exact .inl before
    · exact .inr (.inl map)
    · refine .inr (.inr ⟨p, new.place, here, ?_, new.pos owned⟩)
      rw [new.slots i inum p new.place, if_pos ⟨rfl, rfl⟩]
    · exact .inr (.inr ⟨ndirect, by decide, indirect, same.symm, some⟩)

theorem addrOf_spec {P : ℕ → Prop} (valid : sb.Valid) (owned : Owned sb fs) (inum : i < sb.ninodes)
    (address : p ≤ ndirect) (here : P p) (indirect : P ndirect)
    (done : addrOf sb fs i p = .ok (b, fs')) :
    Fills sb i P fs fs' ∧ slot sb fs' i p = b ∧ b ≠ 0 := by
  unfold addrOf at done
  split_ifs at done with empty
  · simp only [Fallible.bind_eq_ok, Fallible.pure_eq_ok, Prod.exists, Prod.mk.injEq] at done
    obtain ⟨d, fs₁, allocated, rfl, rfl⟩ := done
    have new := (balloc_spec owned allocated).address valid owned inum address
      (by rw [slot_addr address, empty])
    refine ⟨new.fills owned inum here indirect, ?_, new.pos owned⟩
    rw [new.slots i inum p new.place, if_pos ⟨rfl, rfl⟩]
  · simp only [Except.ok.injEq, Prod.mk.injEq] at done
    obtain ⟨rfl, rfl⟩ := done
    exact ⟨.refl owned, slot_addr address, empty⟩

theorem entryOf_spec {P : ℕ → Prop} {n : ℕ} (valid : sb.Valid) (owned : Owned sb fs)
    (inum : i < sb.ninodes) (entry : n < nindirect) (some : slot sb fs i ndirect = c) (used : c ≠ 0)
    (here : P (ndirect + 1 + n)) (indirect : P ndirect)
    (done : entryOf sb fs c n = .ok (b, fs')) :
    Fills sb i P fs fs' ∧ slot sb fs' i (ndirect + 1 + n) = b ∧ b ≠ 0 := by
  unfold entryOf at done
  split_ifs at done with empty
  · simp only [Fallible.bind_eq_ok, Fallible.pure_eq_ok, Prod.exists, Prod.mk.injEq] at done
    obtain ⟨d, fs₁, allocated, rfl, rfl⟩ := done
    have new := (balloc_spec owned allocated).entry valid owned inum entry some used empty
    refine ⟨new.fills owned inum here indirect, ?_, new.pos owned⟩
    rw [new.slots i inum _ new.place, if_pos ⟨rfl, rfl⟩]
  · simp only [Except.ok.injEq, Prod.mk.injEq] at done
    obtain ⟨rfl, rfl⟩ := done
    refine ⟨.refl owned, ?_, ?_⟩
    · subst some
      rw [slot_entry (by omega) used, Nat.add_sub_cancel_left]
    · intro zero
      exact empty (UInt32.toNat_inj.1 zero)

/-- The slots that `bmap` may fill. -/
def Around (bn p : ℕ) : Prop := p = ndirect ∨ p = slotOf bn

/-- `bmap` returns the block of its slot, which it allocates if there is none. -/
theorem bmap_spec {bn : ℕ} (valid : sb.Valid) (owned : Owned sb fs) (inum : i < sb.ninodes)
    (done : bmap sb fs i bn = .ok (b, fs')) :
    Fills sb i (Around bn) fs fs' ∧
      slot sb fs' i (slotOf bn) = b ∧ b ≠ 0 := by
  have indirect : Around bn ndirect := .inl rfl
  have here : Around bn (slotOf bn) := .inr rfl
  unfold bmap at done
  split_ifs at done with direct entry
  · have same : slotOf bn = bn := if_pos direct
    rw [same] at here ⊢
    exact addrOf_spec valid owned inum direct.le here indirect done
  · have same : slotOf bn = ndirect + 1 + (bn - ndirect) := by
      rw [slotOf, if_neg direct]
      omega
    simp only [Fallible.bind_eq_ok, Prod.exists] at done
    obtain ⟨c, fs₁, first, second⟩ := done
    rw [same] at here ⊢
    obtain ⟨fills, some, used⟩ := addrOf_spec valid owned inum le_rfl indirect indirect first
    obtain ⟨fills', entered, some'⟩ :=
      entryOf_spec valid fills.owned inum entry some used here indirect second
    exact ⟨fills.trans fills' inum, entered, some'⟩

/-- A block that is there is found, and nothing changes. -/
theorem bmap_of_mapped {bn : ℕ} (below : bn < maxFile) (some : slot sb fs i (slotOf bn) ≠ 0) :
    bmap sb fs i bn = .ok (slot sb fs i (slotOf bn), fs) := by
  unfold bmap
  split_ifs with direct entry
  · have same : slotOf bn = bn := if_pos direct
    rw [same, slot_addr direct.le] at some ⊢
    rw [addrOf, if_neg some]
  · have same : slotOf bn = ndirect + 1 + (bn - ndirect) := by
      rw [slotOf, if_neg direct]
      omega
    rw [same] at some ⊢
    have used : slot sb fs i ndirect ≠ 0 := by
      intro none
      exact some (slot_entry_of_zero (by omega) none)
    rw [slot_entry (by omega) used, Nat.add_sub_cancel_left] at some ⊢
    rw [slot_addr le_rfl] at used some ⊢
    have filled : (fs.disk ((fs.inode sb i).addr ndirect)).word (4 * (bn - ndirect)) ≠ 0 := by
      intro zero
      exact some (by rw [zero]; rfl)
    simp only [addrOf, if_neg used, bind, Except.bind, entryOf, if_neg filled]
  · unfold maxFile at below
    omega

theorem balloc_error {e : Panic} (failed : balloc sb fs = .error e) : e = .outOfBlocks := by
  unfold balloc at failed
  split at failed
  · simpa using failed.symm
  · simp at failed

theorem bmap_error {bn : ℕ} {e : Panic} (below : bn < maxFile)
    (failed : bmap sb fs i bn = .error e) : e = .outOfBlocks := by
  have address : ∀ p, addrOf sb fs i p = .error e → e = .outOfBlocks := by
    intro p failed
    unfold addrOf at failed
    split_ifs at failed
    cases first : balloc sb fs with
    | error e' =>
      simp only [first, bind, Except.bind, Except.error.injEq] at failed
      rw [← failed]
      exact balloc_error first
    | ok r => simp [first, bind, Except.bind, pure, Except.pure] at failed
  unfold bmap at failed
  split_ifs at failed with direct entry
  · exact address _ failed
  · cases first : addrOf sb fs i ndirect with
    | error e' =>
      simp only [first, bind, Except.bind, Except.error.injEq] at failed
      rw [failed] at first
      exact address _ first
    | ok r =>
      simp only [first, bind, Except.bind] at failed
      unfold entryOf at failed
      split_ifs at failed
      cases second : balloc sb r.2 with
      | error e' =>
        simp only [second, bind, Except.bind, Except.error.injEq] at failed
        rw [← failed]
        exact balloc_error second
      | ok r' => simp [second, bind, Except.bind, pure, Except.pure] at failed
  · unfold maxFile at below
    omega

end SsuOs.Xv6Fs.Inodes
