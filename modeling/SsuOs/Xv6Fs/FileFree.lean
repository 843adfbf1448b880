import Mathlib.Algebra.Order.Interval.Finset.SuccPred
import Mathlib.Data.Nat.SuccPred
import Mathlib.Order.Interval.Finset.Nat
import SsuOs.Xv6Fs.Files

/-!
# Inodes on the disk and freed inodes

`iupdate` writes the inode and nothing else. `itrunc` frees the blocks of one inode and no others,
and it cannot fail: each block that it frees is marked as used.
-/

namespace SsuOs.Xv6Fs.Inodes

open Superblock

variable {sb : Superblock} {fs fs₁ fs₂ fs' : Fs} {i j b c p n : ℕ} {ip : Inode} {F : Finset ℕ}

/-! ## Writing an inode -/

/-- Where the slots and all blocks from the free map on are the same, so are owners and bytes. -/
theorem Owned.congr (owned : Owned sb fs) (disk : ∀ c, sb.bmapstart ≤ c → fs'.disk c = fs.disk c)
    (slots : ∀ j < sb.ninodes, ∀ q < nslots, slot sb fs' j q = slot sb fs j q) : Owned sb fs' := by
  refine Ledger.congr owned (fun x => slots x.1 x.1.isLt x.2 x.2.isLt) fun c _ => ?_
  exact Fs.marked_congr (disk _ (Valid.le_bblock sb c))

theorem byte_congr (owned : Owned sb fs) (jnum : j < sb.ninodes)
    (disk : ∀ c, sb.datastart ≤ c → fs'.disk c = fs.disk c)
    (slots : ∀ q < nslots, slot sb fs' j q = slot sb fs j q) {k : ℕ} (below : k / bsize < maxFile) :
    byte sb fs' j k = byte sb fs j k := by
  have place := slotOf_lt below
  unfold byte
  rw [slots _ place]
  split_ifs with none
  · rfl
  · rw [disk _ (owned.range jnum place none).1]

/-- The inode `i` became `ip`, in the cache and on the disk. -/
structure Saved (sb : Superblock) (i : ℕ) (ip : Inode) (fs fs' : Fs) : Prop where
  cached : fs'.cache i = some ip
  loaded : fs'.load sb i = ip
  cache : ∀ j, j ≠ i → fs'.cache j = fs.cache j
  load : ∀ j, j ≠ i → fs'.load sb j = fs.load sb j
  disk : ∀ c, c ≠ sb.iblock i → fs'.disk c = fs.disk c
  logged : fs'.logged = sb.iblock i :: fs.logged

/-- `ip->… = …; iupdate(ip);`. -/
theorem saved_iupdate : Saved sb i ip fs (iupdate sb (fs.setInode i ip) i) where
  cached := Function.update_self ..
  loaded := by rw [iupdate, load_store, Fs.inode_setInode]
  cache _ other := Function.update_of_ne other ..
  load _ other := by
    rw [iupdate, load_store_of_ne other]
    rfl
  disk _ other := Fs.disk_put_of_ne _ _ other
  logged := rfl

namespace Saved

variable (saved : Saved sb i ip fs fs')
include saved

theorem inode : fs'.inode sb i = ip := by
  rw [Fs.inode, saved.cached]
  rfl

theorem inode_of_ne (other : j ≠ i) : fs'.inode sb j = fs.inode sb j :=
  Fs.inode_congr (saved.cache j other) (saved.load j other)

theorem disk_of_le (valid : sb.Valid) (inum : i < sb.ninodes) (region : sb.bmapstart ≤ c) :
    fs'.disk c = fs.disk c := by
  have lt := valid.iblock_lt inum
  exact saved.disk c (by omega)

/-- Only the addresses of an inode say where its blocks are. -/
theorem slot (valid : sb.Valid) (owned : Owned sb fs) (inum : i < sb.ninodes)
    (addrs : ip.addrs = (fs.inode sb i).addrs) (jnum : j < sb.ninodes) (q : ℕ) :
    slot sb fs' j q = slot sb fs j q := by
  have start := Valid.bmapstart_lt sb
  have place : ndirect < nslots := by decide
  by_cases mine : j = i
  · subst mine
    have same : ∀ p, (fs'.inode sb j).addr p = (fs.inode sb j).addr p := by
      intro p
      rw [saved.inode, Inode.addr, Inode.addr, addrs]
    unfold Inodes.slot
    rw [same, same]
    split_ifs with address none
    · rfl
    · rfl
    · have region := (owned.range jnum place (by rwa [slot_addr le_rfl])).1
      rw [slot_addr le_rfl] at region
      rw [saved.disk_of_le valid inum (by omega)]
  · apply slot_congr (saved.inode_of_ne mine)
    intro some
    have region := (owned.range jnum place some).1
    exact saved.disk_of_le valid inum (by omega)

theorem owned (valid : sb.Valid) (owned : Owned sb fs) (inum : i < sb.ninodes)
    (addrs : ip.addrs = (fs.inode sb i).addrs) : Owned sb fs' :=
  owned.congr (fun _ region => saved.disk_of_le valid inum region) fun _ jnum q _ =>
    saved.slot valid owned inum addrs jnum q

theorem byte (valid : sb.Valid) (owned : Owned sb fs) (inum : i < sb.ninodes)
    (addrs : ip.addrs = (fs.inode sb i).addrs) (jnum : j < sb.ninodes) {k : ℕ}
    (below : k / bsize < maxFile) : byte sb fs' j k = byte sb fs j k := by
  have start := Valid.bmapstart_lt sb
  refine byte_congr owned jnum (fun c region => ?_) (fun q _ => ?_) below
  · exact saved.disk_of_le valid inum (by omega)
  · exact saved.slot valid owned inum addrs jnum q

end Saved

/-! ## Freeing blocks -/

/-- `bfree` gave back the block `b`. -/
structure Unmarked (sb : Superblock) (b : ℕ) (fs fs' : Fs) : Prop where
  cache : fs'.cache = fs.cache
  disk : ∀ c, c < sb.bmapstart ∨ sb.datastart ≤ c → fs'.disk c = fs.disk c
  marks : ∀ c, fs'.marked sb c = (!decide (c = b) && fs.marked sb c)

theorem bfree_spec (below : b < sb.size) (used : fs.marked sb b = true) :
    ∃ fs', bfree sb fs b = .ok fs' ∧ Unmarked sb b fs fs' := by
  refine ⟨fs.put (sb.bblock b) ((fs.disk (sb.bblock b)).clearBit (b % bpb)), ?_, rfl, ?_, ?_⟩
  · rw [bfree, if_neg (by simp [used])]
  · intro c region
    have low := Valid.le_bblock sb b
    have high := Valid.bblock_lt below
    exact Fs.disk_put_of_ne _ _ (by omega)
  · intro c
    exact Fs.marked_put_clearBit fs

/-- The blocks that are left when the slots `F` of the inode `i` were freed. -/
def remaining (sb : Superblock) (i : ℕ) (F : Finset ℕ) (fs : Fs)
    (x : Fin sb.ninodes × Fin nslots) : ℕ :=
  if x.1.val = i ∧ x.2.val ∈ F then 0 else slot sb fs x.1 x.2

/-- In the middle of `itrunc`: of the blocks that the inode `i` had in `fs`, those in the slots `F`
are free. The addresses among these slots are already 0. -/
structure Cleared (sb : Superblock) (i : ℕ) (F : Finset ℕ) (fs fs₁ : Fs) : Prop where
  ledger : Ledger sb.datastart sb.size (remaining sb i F fs) (fs₁.marked sb)
  disk : ∀ c, c < sb.bmapstart ∨ sb.datastart ≤ c → fs₁.disk c = fs.disk c
  cache : ∀ j, j ≠ i → fs₁.cache j = fs.cache j
  self : ∃ addrs, fs₁.inode sb i = { fs.inode sb i with addrs }
  addrs : ∀ p ≤ ndirect, (fs₁.inode sb i).addr p = if p ∈ F then 0 else (fs.inode sb i).addr p

namespace Cleared

theorem refl (owned : Owned sb fs) : Cleared sb i ∅ fs fs where
  ledger := Ledger.congr owned (fun x => by simp [remaining]) fun _ _ => rfl
  disk _ _ := rfl
  cache _ _ := rfl
  self := ⟨_, rfl⟩
  addrs _ _ := by simp

theorem load (cleared : Cleared sb i F fs fs₁) (valid : sb.Valid) (jnum : j < sb.ninodes) :
    fs₁.load sb j = fs.load sb j :=
  Fs.load_congr (cleared.disk _ (.inl (valid.iblock_lt jnum)))

/-- A slot that was empty from the start needs no freeing. -/
theorem skip (cleared : Cleared sb i F fs fs₁) (empty : slot sb fs i p = 0) :
    Ledger sb.datastart sb.size (remaining sb i (insert p F) fs) (fs₁.marked sb) := by
  refine Ledger.congr cleared.ledger (fun x => ?_) fun _ _ => rfl
  unfold remaining
  by_cases here : x.1.val = i ∧ x.2.val = p
  · rw [if_pos ⟨here.1, by simp [here.2]⟩, here.1, here.2, empty, ite_self]
  · have same : x.1.val = i ∧ x.2.val ∈ insert p F ↔ x.1.val = i ∧ x.2.val ∈ F := by
      rw [Finset.mem_insert]
      tauto
    simp only [same]

/-- The block of a slot that was not freed is marked, so that it can be freed. -/
theorem free (cleared : Cleared sb i F fs fs₁) (inum : i < sb.ninodes) (place : p < nslots)
    (new : p ∉ F) (some : slot sb fs i p ≠ 0) :
    ∃ fs₂, bfree sb fs₁ (slot sb fs i p) = .ok fs₂ ∧ Unmarked sb (slot sb fs i p) fs₁ fs₂ ∧
      Ledger sb.datastart sb.size (remaining sb i (insert p F) fs) (fs₂.marked sb) := by
  have entered : remaining sb i F fs (⟨i, inum⟩, ⟨p, place⟩) = slot sb fs i p := by
    rw [remaining, if_neg (by tauto)]
  have inside := cleared.ledger.range (⟨i, inum⟩, ⟨p, place⟩) (by rwa [entered])
  rw [entered] at inside
  have used := (cleared.ledger.marked _ inside.2).2 (.inr ⟨_, entered⟩)
  obtain ⟨fs₂, done, unmarked⟩ := bfree_spec inside.2 used
  refine ⟨fs₂, done, unmarked, ?_⟩
  refine cleared.ledger.release entered some (fun y => ?_) fun c _ => unmarked.marks c
  unfold remaining
  simp only [Prod.ext_iff, Fin.ext_iff]
  by_cases here : y.1.val = i ∧ y.2.val = p
  · rw [if_pos here, if_pos ⟨here.1, by simp [here.2]⟩]
  · have same : y.1.val = i ∧ y.2.val ∈ insert p F ↔ y.1.val = i ∧ y.2.val ∈ F := by
      rw [Finset.mem_insert]
      tauto
    rw [if_neg here]
    simp only [same]

/-- One round with an address of the inode. -/
theorem freeAddr (cleared : Cleared sb i F fs fs₁) (valid : sb.Valid) (inum : i < sb.ninodes)
    (address : p ≤ ndirect) :
    ∃ fs₂, freeAddr sb i fs₁ p = .ok fs₂ ∧ Cleared sb i (insert p F) fs fs₂ := by
  have value := cleared.addrs p address
  unfold Inodes.freeAddr
  by_cases zero : (fs₁.inode sb i).addr p = 0
  · refine ⟨fs₁, by rw [if_pos zero], ?_, cleared.disk, cleared.cache, cleared.self, ?_⟩
    · by_cases old : p ∈ F
      · rw [Finset.insert_eq_of_mem old]
        exact cleared.ledger
      · rw [zero, if_neg old] at value
        exact cleared.skip (by rw [slot_addr address, ← value])
    · intro q low
      rw [cleared.addrs q low]
      by_cases same : q = p
      · subst same
        rw [zero] at value
        rw [← value]
        simp
      · simp [Finset.mem_insert, same]
  · have new : p ∉ F := by
      intro old
      rw [if_pos old] at value
      exact zero value
    have here : slot sb fs i p = (fs.inode sb i).addr p := slot_addr address
    rw [if_neg new, ← here] at value
    have place : p < nslots := lt_of_le_of_lt address (by decide)
    obtain ⟨fs₂, done, unmarked, ledger⟩ :=
      cleared.free inum place new (by rw [← value]; exact zero)
    have same : fs₂.inode sb i = fs₁.inode sb i :=
      Fs.inode_congr (by rw [unmarked.cache])
        (Fs.load_congr (unmarked.disk _ (.inl (valid.iblock_lt inum))))
    refine ⟨fs₂.setInode i ((fs₂.inode sb i).setAddr p 0), ?_, ledger, ?_, ?_, ?_, ?_⟩
    · rw [if_neg zero, value, done]
      rfl
    · intro c region
      exact (unmarked.disk c region).trans (cleared.disk c region)
    · intro j other
      change Function.update fs₂.cache i _ j = _
      rw [Function.update_of_ne other, unmarked.cache, cleared.cache j other]
    · obtain ⟨addrs, self⟩ := cleared.self
      exact ⟨_, by rw [Fs.inode_setInode, same, self]; rfl⟩
    · intro q low
      rw [Fs.inode_setInode, Inode.addr_setAddr address (by decide), same, cleared.addrs q low]
      by_cases here : q = p
      · simp [here]
      · simp [Finset.mem_insert, here]

/-- One round with an entry of the indirect block. -/
theorem freeEntry (cleared : Cleared sb i F fs fs₁) (valid : sb.Valid) (owned : Owned sb fs)
    (inum : i < sb.ninodes) (some : slot sb fs i ndirect = c) (used : c ≠ 0) (entry : n < nindirect)
    (new : ndirect + 1 + n ∉ F) :
    ∃ fs₂, freeEntry sb c fs₁ n = .ok fs₂ ∧ Cleared sb i (insert (ndirect + 1 + n) F) fs fs₂ := by
  have place : ndirect + 1 + n < nslots := by
    unfold nslots maxFile
    omega
  subst some
  have region := (owned.range inum (by decide) used).1
  have value : slot sb fs i (ndirect + 1 + n) =
      ((fs₁.disk (slot sb fs i ndirect)).word (4 * n)).toNat := by
    rw [slot_entry (by omega) used, Nat.add_sub_cancel_left, cleared.disk _ (.inr region)]
  have kept : ∀ q ≤ ndirect, (q ∈ insert (ndirect + 1 + n) F ↔ q ∈ F) := by
    intro q low
    rw [Finset.mem_insert, or_iff_right (by omega)]
  unfold Inodes.freeEntry
  by_cases zero : (fs₁.disk (slot sb fs i ndirect)).word (4 * n) = 0
  · refine ⟨fs₁, by rw [if_pos zero], ?_, cleared.disk, cleared.cache, cleared.self, ?_⟩
    · exact cleared.skip (by rw [value, zero]; rfl)
    · intro q low
      simp only [cleared.addrs q low, kept q low]
  · have filled : slot sb fs i (ndirect + 1 + n) ≠ 0 := by
      rw [value]
      intro none
      exact zero (UInt32.toNat_inj.1 none)
    obtain ⟨fs₂, done, unmarked, ledger⟩ := cleared.free inum place new filled
    have same : fs₂.inode sb i = fs₁.inode sb i :=
      Fs.inode_congr (by rw [unmarked.cache])
        (Fs.load_congr (unmarked.disk _ (.inl (valid.iblock_lt inum))))
    refine ⟨fs₂, by rw [if_neg zero, ← value, done], ledger, ?_, ?_, ?_, ?_⟩
    · intro d region'
      exact (unmarked.disk d region').trans (cleared.disk d region')
    · intro j other
      rw [unmarked.cache, cleared.cache j other]
    · obtain ⟨addrs, here⟩ := cleared.self
      exact ⟨addrs, by rw [same, here]⟩
    · intro q low
      simp only [same, cleared.addrs q low, kept q low]

/-- When all slots were freed or empty, the inode has no blocks, and the others have theirs. -/
theorem slots (cleared : Cleared sb i F fs fs₁) (valid : sb.Valid) (owned : Owned sb fs)
    (all : ∀ p < nslots, p ∈ F ∨ slot sb fs i p = 0) (jnum : j < sb.ninodes) (p : ℕ) :
    slot sb fs₁ j p = if j = i then 0 else slot sb fs j p := by
  split_ifs with mine
  · subst mine
    have address : ∀ q ≤ ndirect, slot sb fs₁ j q = 0 := by
      intro q low
      have value : slot sb fs j q = (fs.inode sb j).addr q := slot_addr low
      rw [slot_addr low, cleared.addrs q low]
      split_ifs with freed
      · rfl
      · rw [← value]
        exact (all q (lt_of_le_of_lt low (by decide))).resolve_left freed
    by_cases low : p ≤ ndirect
    · exact address p low
    · exact slot_entry_of_zero (by omega) (address _ le_rfl)
  · apply slot_congr (Fs.inode_congr (cleared.cache j mine) (cleared.load valid jnum))
    intro some
    exact cleared.disk _ (.inr (owned.range jnum (by decide) some).1)

theorem owned (cleared : Cleared sb i F fs fs₁) (valid : sb.Valid) (owned : Owned sb fs)
    (all : ∀ p < nslots, p ∈ F ∨ slot sb fs i p = 0) : Owned sb fs₁ := by
  refine Ledger.congr cleared.ledger (fun x => ?_) fun _ _ => rfl
  rw [cleared.slots valid owned all x.1.isLt, remaining]
  by_cases mine : x.1.val = i
  · rcases all x.2 x.2.isLt with freed | empty
    · simp only [mine, freed, and_self, if_true]
    · simp only [mine, empty, ite_self]
  · simp only [mine, false_and, if_false]

end Cleared

/-- The inode `i` lost its blocks and is empty; the others are as they were. -/
structure Emptied (sb : Superblock) (i : ℕ) (fs fs' : Fs) : Prop where
  owned : Owned sb fs'
  slots : ∀ j < sb.ninodes, ∀ p < nslots,
    slot sb fs' j p = if j = i then 0 else slot sb fs j p
  bytes : ∀ j < sb.ninodes, j ≠ i → ∀ k, k / bsize < maxFile → byte sb fs' j k = byte sb fs j k
  self : ∃ addrs, fs'.inode sb i = { fs.inode sb i with size := 0, addrs }
  cached : fs'.cache i = some (fs'.inode sb i)
  loaded : fs'.load sb i = fs'.inode sb i
  cache : ∀ j, j ≠ i → fs'.cache j = fs.cache j
  load : ∀ j < sb.ninodes, j ≠ i → fs'.load sb j = fs.load sb j

theorem Cleared.emptied (cleared : Cleared sb i F fs fs₁) (valid : sb.Valid) (owned : Owned sb fs)
    (inum : i < sb.ninodes) (all : ∀ p < nslots, p ∈ F ∨ slot sb fs i p = 0) :
    Emptied sb i fs (iupdate sb (fs₁.setInode i { fs₁.inode sb i with size := 0 }) i) := by
  have saved : Saved sb i { fs₁.inode sb i with size := 0 } fs₁ _ := saved_iupdate
  have before := cleared.owned valid owned all
  have start := Valid.bmapstart_lt sb
  have slots : ∀ j < sb.ninodes, ∀ p < nslots, slot sb
      (iupdate sb (fs₁.setInode i { fs₁.inode sb i with size := 0 }) i) j p =
      if j = i then 0 else slot sb fs j p := by
    intro j jnum p _
    rw [saved.slot valid before inum rfl jnum, cleared.slots valid owned all jnum]
  refine ⟨saved.owned valid before inum rfl, slots, ?_, ?_, ?_, ?_, ?_, ?_⟩
  · intro j jnum other k below
    refine byte_congr owned jnum (fun c region => ?_) (fun q place => ?_) below
    · rw [saved.disk_of_le valid inum (by omega)]
      exact cleared.disk c (.inr region)
    · rw [slots j jnum q place, if_neg other]
  · obtain ⟨addrs, self⟩ := cleared.self
    exact ⟨addrs, by rw [saved.inode, self]⟩
  · rw [saved.cached, saved.inode]
  · rw [saved.loaded, saved.inode]
  · intro j other
    rw [saved.cache j other, cleared.cache j other]
  · intro j jnum other
    rw [saved.load j other, cleared.load valid jnum]

/-- `itrunc` does not fail. -/
theorem itrunc_spec (valid : sb.Valid) (owned : Owned sb fs) (inum : i < sb.ninodes) :
    ∃ fs', itrunc sb fs i = .ok fs' ∧ Emptied sb i fs fs' := by
  obtain ⟨fs₁, first, cleared⟩ := Fallible.foldlM_range
    (I := fun k t => Cleared sb i (Finset.range k) fs t) (.refl owned)
    fun k (below : k < ndirect) t cleared => by
      obtain ⟨t', done, next⟩ := cleared.freeAddr valid inum below.le
      exact ⟨t', done, by rwa [Finset.range_add_one]⟩
  have value : (fs₁.inode sb i).addr ndirect = slot sb fs i ndirect := by
    rw [cleared.addrs ndirect le_rfl, if_neg Finset.notMem_range_self, slot_addr le_rfl]
  unfold itrunc
  rw [first]
  simp only [bind, Except.bind, value]
  by_cases none : slot sb fs i ndirect = 0
  · rw [if_pos none]
    refine ⟨_, rfl, cleared.emptied valid owned inum fun p _ => ?_⟩
    by_cases direct : p < ndirect
    · exact .inl (Finset.mem_range.2 direct)
    · right
      by_cases same : p = ndirect
      · rw [same, none]
      · exact slot_entry_of_zero (by omega) none
  · -- the second loop frees the entries, and the indirect block comes last
    obtain ⟨fs₂, second, cleared₂⟩ := Fallible.foldlM_range
      (I := fun k t =>
        Cleared sb i (Finset.Ico (ndirect + 1) (ndirect + 1 + k) ∪ Finset.range ndirect) fs t)
      (by simpa using cleared)
      fun k (below : k < nindirect) t cleared => by
        obtain ⟨t', done, next⟩ := cleared.freeEntry valid owned inum rfl none below
          (by simp only [Finset.mem_union, Finset.mem_Ico, Finset.mem_range]; omega)
        refine ⟨t', done, ?_⟩
        rw [← Finset.insert_union, Finset.insert_Ico_right_eq_Ico_add_one (by omega)] at next
        exact next
    obtain ⟨fs₃, third, cleared₃⟩ := cleared₂.freeAddr valid inum le_rfl
    rw [if_neg none, second]
    simp only [third]
    refine ⟨_, rfl, cleared₃.emptied valid owned inum fun p place => .inl ?_⟩
    simp only [Finset.mem_insert, Finset.mem_union, Finset.mem_Ico, Finset.mem_range]
    unfold nslots maxFile at place
    omega

end SsuOs.Xv6Fs.Inodes
