import SsuOs.Ssufs.Frames
import SsuOs.Ssufs.Loops

/-!
# Closed handles

No function of ssufs checks that a handle is open. A closed handle has inode number `-1`, which
passes the assertion of `ssufs_readInode`; the inode that it decodes are the last 32 bytes of the
superblock's block, some marks of data blocks followed by the bytes that pad the superblock. What a
call through a closed handle does depends on them: `noAccess_iff_shielded` says exactly when it does
nothing.
-/

namespace SsuOs.Ssufs

open ByteFile

/-! ## Places on the disk -/

/-- What `ssufs_readInode(-1)` takes for an inode. -/
def closedInode (disk : List Byte) : Inode := Inode.ofBytes fun k => byteAt disk (32 + k)

/-- Where `ssufs_readDataBlock(blocknum)` reads while `DISK_FD` is at `pos`, if the number is not
too large: `lseek` refuses a negative offset. -/
def blockStart (pos : ℕ) (blocknum : Int32) : ℕ :=
  if 0 ≤ (64 * (5 + blocknum) : Int32).toInt then (64 * (5 + blocknum) : Int32).toInt.toNat else pos

/-- Where `ssufs_read` reads one block after the other, from `pos` on. -/
def blockStarts : ℕ → List Int32 → List ℕ
  | _, [] => []
  | pos, blocknum :: rest =>
    if blocknum = -1 then blockStarts pos rest
    else blockStart pos blocknum :: blockStarts (blockStart pos blocknum + 64) rest

/-- The blocks can be read without a failed assertion, and lie before position `length`. -/
structure Walkable (length pos : ℕ) (blocks : List Int32) : Prop where
  number : ∀ b ∈ blocks, b ≠ -1 → b.toInt < 30
  within : ∀ p ∈ blockStarts pos blocks, p + 64 ≤ length

theorem walkable_nil (length pos : ℕ) : Walkable length pos [] :=
  ⟨by simp, by simp [blockStarts]⟩

theorem walkable_cons_empty {length pos : ℕ} {rest : List Int32} :
    Walkable length pos (-1 :: rest) ↔ Walkable length pos rest := by
  constructor
  · rintro ⟨number, within⟩
    exact ⟨fun b member => number b (List.mem_cons_of_mem _ member),
      by rwa [blockStarts, if_pos rfl] at within⟩
  · rintro ⟨number, within⟩
    refine ⟨fun b member nonempty => ?_, by rwa [blockStarts, if_pos rfl]⟩
    exact number b (List.mem_of_ne_of_mem nonempty member) nonempty

theorem walkable_cons {length pos : ℕ} {b : Int32} {rest : List Int32} (nonempty : b ≠ -1) :
    Walkable length pos (b :: rest) ↔
      (b.toInt < 30 ∧ blockStart pos b + 64 ≤ length) ∧
        Walkable length (blockStart pos b + 64) rest := by
  constructor
  · rintro ⟨number, within⟩
    rw [blockStarts, if_neg nonempty, List.forall_mem_cons] at within
    exact ⟨⟨number b List.mem_cons_self nonempty, within.1⟩,
      fun c member => number c (List.mem_cons_of_mem _ member), within.2⟩
  · rintro ⟨⟨small, inside⟩, number, within⟩
    refine ⟨List.forall_mem_cons.2 ⟨fun _ => small, number⟩, ?_⟩
    rw [blockStarts, if_neg nonempty, List.forall_mem_cons]
    exact ⟨inside, within⟩

section Reading

variable {s : Machine} {h : Fin 20} {tmp : Inode} {nbytes : Int32} {buf : List Byte}

theorem lseek_blockStart (blocknum : Int32) (s : Machine) :
    Machine.lseek (64 * (5 + blocknum) : Int32).toInt s =
      .ok ((), { s with pos := blockStart s.pos blocknum }) := by
  rw [Machine.lseek, blockStart]
  split_ifs <;> rfl

theorem ssufsReadDataBlock_ok {blocknum : Int32} (small : blocknum.toInt < 30)
    (within : blockStart s.pos blocknum + 64 ≤ s.disk.length) :
    ssufsReadDataBlock blocknum s =
      .ok (fun p => byteAt (readAt s.disk (blockStart s.pos blocknum) 64) p,
        { s with pos := blockStart s.pos blocknum + 64 }) := by
  have long := length_readAt s.disk _ 64 within
  rw [ssufsReadDataBlock, assert, Prog.bind_ok (Prog.check_pass small s),
    Prog.bind_ok (lseek_blockStart blocknum s), Prog.bind_ok rfl, assert,
    Prog.bind_ok (Prog.check_pass long _), Prog.pure_apply]
  simp only [long]

theorem ssufsReadDataBlock_fails {blocknum : Int32}
    (bad : ¬ (blocknum.toInt < 30 ∧ blockStart s.pos blocknum + 64 ≤ s.disk.length)) :
    ssufsReadDataBlock blocknum s = .error .assertion := by
  by_cases small : blocknum.toInt < 30
  · have short := length_readAt_short s.disk (blockStart s.pos blocknum) 64 (by norm_num)
      (by omega)
    rw [ssufsReadDataBlock, assert, Prog.bind_ok (Prog.check_pass small s),
      Prog.bind_ok (lseek_blockStart blocknum s), Prog.bind_ok rfl, assert]
    exact Prog.bind_error (Prog.check_fail short _)
  · exact Prog.bind_error (Prog.check_fail small s)

/-- A byte loop whose count never reaches `n` stores the whole rest of the block. -/
theorem readBytes_unending (block : Block) {n : ℤ} {k : ℕ} (short : k ≤ 64) (buf : List Byte)
    (never : n ≤ buf.length ∨ buf.length + k < n) :
    readBytes block n k buf = (buf ++ (List.ofFn block).drop (64 - k), false) := by
  induction k generalizing buf with
  | zero => simp [readBytes]
  | succ k ih =>
    have rest : (List.ofFn block).drop (63 - k) =
        block ⟨63 - k, by omega⟩ :: (List.ofFn block).drop (64 - k) := by
      rw [List.drop_eq_getElem_cons (by simp; omega), List.getElem_ofFn,
        show 63 - k + 1 = 64 - k by omega]
    have length : (buf ++ [block ⟨63 - k, by omega⟩]).length = buf.length + 1 := by simp
    push_cast at never
    rw [readBytes, if_neg (by rw [length]; omega), ih (by omega) _ (by rw [length]; omega),
      show 64 - (k + 1) = 63 - k by omega, rest, List.append_assoc]
    rfl

/-- The same for a block from position `p` of the image. -/
theorem readBytes_readAt (buf : List Byte) {n : ℤ} {p : ℕ} (within : p + 64 ≤ s.disk.length)
    (never : n ≤ buf.length ∨ buf.length + 64 < n) :
    readBytes (fun k => byteAt (readAt s.disk p 64) k) n 64 buf =
      (buf ++ readAt s.disk p 64, false) := by
  have long := length_readAt s.disk p 64 within
  have chunk : (List.ofFn fun k : Fin 64 => byteAt (readAt s.disk p 64) k) =
      readAt s.disk p 64 := by
    refine List.ext_getElem (by rw [List.length_ofFn, long]) fun k below below' => ?_
    rw [List.getElem_ofFn, byteAt, List.getD_eq_getElem _ _ below']
  rw [readBytes_unending _ le_rfl buf never, Nat.sub_self, List.drop_zero, chunk]

variable (h tmp nbytes) in
/-- The block loop over slots that start a block, with a count that is never reached, reads all the
blocks that it can read. -/
theorem readLoop_walk (l : List (Fin 4)) (buf : List Byte) (s : Machine)
    (never : nbytes.toInt ≤ buf.length ∨ (buf.length + 64 * l.length : ℕ) < nbytes.toInt)
    (walkable : Walkable s.disk.length s.pos (l.map tmp.directBlocks)) :
    ∃ pos, readLoop h tmp nbytes l 0 buf s =
      .ok ((-1, buf ++ (blockStarts s.pos (l.map tmp.directBlocks)).flatMap
        fun p => readAt s.disk p 64), { s with pos := pos }) := by
  induction l generalizing buf s with
  | nil => exact ⟨s.pos, by simp [readLoop, blockStarts]⟩
  | cons j rest ih =>
    rw [List.length_cons] at never
    rw [List.map_cons] at walkable ⊢
    rw [readLoop]
    by_cases empty : tmp.directBlocks j = -1
    · rw [empty, walkable_cons_empty] at walkable
      obtain ⟨pos, reads⟩ := ih buf s (by omega) walkable
      refine ⟨pos, ?_⟩
      rw [if_neg (by simp [empty]), if_neg (by simp), blockStarts, if_pos empty]
      exact reads
    · rw [walkable_cons empty] at walkable
      obtain ⟨⟨small, within⟩, walkable⟩ := walkable
      have bytes := readBytes_readAt buf (n := nbytes.toInt) within (by omega)
      have length : (buf ++ readAt s.disk (blockStart s.pos (tmp.directBlocks j)) 64).length =
          buf.length + 64 := by
        rw [List.length_append, length_readAt _ _ _ within]
      obtain ⟨pos, reads⟩ := ih (buf ++ readAt s.disk (blockStart s.pos (tmp.directBlocks j)) 64)
        { s with pos := blockStart s.pos (tmp.directBlocks j) + 64 } (by rw [length]; omega) walkable
      refine ⟨pos, ?_⟩
      rw [if_pos ⟨le_rfl, by norm_num, empty⟩,
        Prog.bind_ok (show Disk.readDataBlock _ s = _ from ssufsReadDataBlock_ok small within)]
      simp only [Int.toNat_zero, Nat.sub_zero, bytes]
      rw [blockStarts, if_neg empty, List.flatMap_cons, ← List.append_assoc]
      exact reads

theorem readLoop_unwalkable (l : List (Fin 4)) (buf : List Byte) (s : Machine)
    (never : nbytes.toInt ≤ buf.length ∨ (buf.length + 64 * l.length : ℕ) < nbytes.toInt)
    (unwalkable : ¬ Walkable s.disk.length s.pos (l.map tmp.directBlocks)) :
    readLoop h tmp nbytes l 0 buf s = .error .assertion := by
  induction l generalizing buf s with
  | nil => exact absurd (walkable_nil _ _) unwalkable
  | cons j rest ih =>
    rw [List.length_cons] at never
    rw [List.map_cons] at unwalkable
    rw [readLoop]
    by_cases empty : tmp.directBlocks j = -1
    · rw [empty, walkable_cons_empty] at unwalkable
      rw [if_neg (by simp [empty]), if_neg (by simp)]
      exact ih buf s (by omega) unwalkable
    · rw [walkable_cons empty] at unwalkable
      rw [if_pos ⟨le_rfl, by norm_num, empty⟩]
      by_cases here : (tmp.directBlocks j).toInt < 30 ∧
          blockStart s.pos (tmp.directBlocks j) + 64 ≤ s.disk.length
      · have bytes := readBytes_readAt buf (n := nbytes.toInt) here.2 (by omega)
        rw [Prog.bind_ok (show Disk.readDataBlock _ s = _ from ssufsReadDataBlock_ok here.1 here.2)]
        simp only [Int.toNat_zero, Nat.sub_zero, bytes]
        refine ih _ _ ?_ fun walkable => unwalkable ⟨here, walkable⟩
        rw [List.length_append, length_readAt _ _ _ here.2]
        omega
      · exact Prog.bind_error (ssufsReadDataBlock_fails here)

end Reading

/-! ## Access -/

/-- Calls through handle `h` have no effect. What a read stores in the buffer of the caller is the
same whatever the data blocks hold, which start at position 320. -/
structure NoAccess (s : Machine) (h : Fin 20) : Prop where
  lseek : ∀ nseek, Refused s (ssufsLseek h nseek s) (-1)
  read : ∀ nbytes, ∃ stored, Refused s (ssufsRead h nbytes s) (-1, stored) ∧
    ∀ disk, disk.take 320 = s.disk.take 320 → disk.length = s.disk.length →
      ∃ t, ssufsRead h nbytes { s with disk := disk } = .ok ((-1, stored), t)
  write : ∀ buf nbytes, Refused s (ssufsWrite h buf nbytes s) (-1)

/-- The bytes at the end of the superblock's block make a negative size, and an empty slot at the
offset of the handle for which there is no free data block; the slots behind it, if they can be
reached, are empty or lead to places before the data blocks. -/
structure Shielded (s : Machine) (h : Fin 20) : Prop where
  size : (closedInode s.disk).fileSize.toInt < 0
  slot : ∀ j : Fin 4, 64 * (j : ℤ) ≤ (s.fileHandles h).offset.toInt →
    (s.fileHandles h).offset.toInt < 64 * (j + 1) →
      (closedInode s.disk).directBlocks j = -1 ∧ (∀ b, s.store.flag b ≠ dataBlockFree) ∧
      ((s.fileHandles h).offset.toInt = 64 * j →
        Walkable 320 64 (((List.finRange 4).drop (j + 1)).map (closedInode s.disk).directBlocks))

section Closed

variable {s : Machine} {h : Fin 20}

theorem readInode_closed (long : 320 ≤ s.disk.length) :
    ssufsReadInode (-1) s = .ok (closedInode s.disk, { s with pos := 64 }) := by
  have small : (-1 : Int32).toInt < 8 := by decide
  have records : Inode.ofBytes (byteAt (readAt s.disk 32 32)) = closedInode s.disk :=
    Inode.ofBytes_congr fun k below => byteAt_readAt _ _ _ _ below
  rw [ssufsReadInode, assert, Prog.bind_ok (Prog.check_pass small s), ← records]
  exact seek_read s 32 (by decide) (by omega) fun tempBuf => Inode.ofBytes (byteAt tempBuf)

theorem closedInode_congr {disk disk' : List Byte} (same : disk'.take 320 = disk.take 320) :
    closedInode disk' = closedInode disk := by
  refine Inode.ofBytes_congr fun k below => ?_
  have bytes := congrArg (fun l => byteAt l (32 + k)) same
  simp only [byteAt, List.getD_eq_getElem?_getD, List.getElem?_take,
    show 32 + k < 320 by omega, if_true] at bytes ⊢
  exact bytes

theorem readAt_congr {disk disk' : List Byte} (same : disk'.take 320 = disk.take 320) {p : ℕ}
    (early : p + 64 ≤ 320) : readAt disk' p 64 = readAt disk p 64 := by
  have part (l : List Byte) : readAt l p 64 = ((l.take 320).drop p).take 64 := by
    rw [readAt, List.drop_take, List.take_take, min_eq_left (by omega)]
  rw [part, part, same]

variable (long : 320 ≤ s.disk.length) (closed : (s.fileHandles h).inodeNumber = -1)

include long closed

theorem ssufsLseek_closed (nseek : Int32) :
    ssufsLseek h nseek s =
      if (closedInode s.disk).fileSize = -1 ∨ (s.fileHandles h).offset + nseek < 0 ∨
          (closedInode s.disk).fileSize < (s.fileHandles h).offset + nseek then
        .ok (-1, { s with pos := 64 })
      else
        .ok (0, { s with
          pos := 64
          fileHandles := Function.update s.fileHandles h
            { offset := (s.fileHandles h).offset + nseek, inodeNumber := -1 } }) := by
  rw [ssufsLseek, Prog.bind_ok (show Disk.fileHandleArray s = _ from rfl), closed,
    Prog.bind_ok (show Disk.readInode (-1) s = _ from readInode_closed long), Prog.ite_apply]
  split_ifs <;> rfl

theorem ssufsRead_closed (nbytes : Int32) :
    ssufsRead h nbytes s =
      if (closedInode s.disk).fileSize < (s.fileHandles h).offset + nbytes then
        .ok ((-1, []), { s with pos := 64 })
      else
        readLoop h (closedInode s.disk) nbytes (List.finRange 4) (s.fileHandles h).offset.toInt []
          { s with pos := 64 } := by
  refine ssufsRead_of_inode ?_ nbytes
  rw [closed]
  exact readInode_closed long

/-- The same read on an image with other data blocks. -/
theorem ssufsRead_twin (nbytes : Int32) {disk : List Byte} (same : disk.take 320 = s.disk.take 320)
    (length : disk.length = s.disk.length) :
    ssufsRead h nbytes { s with disk := disk } =
      if (closedInode s.disk).fileSize < (s.fileHandles h).offset + nbytes then
        .ok ((-1, []), { s with disk := disk, pos := 64 })
      else
        readLoop h (closedInode s.disk) nbytes (List.finRange 4) (s.fileHandles h).offset.toInt []
          { s with disk := disk, pos := 64 } := by
  rw [← closedInode_congr same]
  exact ssufsRead_closed (by dsimp only; omega) (by exact closed) nbytes

theorem reads_closed (junk : ℕ → Byte) :
    ssufsReadInode (s.fileHandles h).inodeNumber { s with junk := junk } =
      .ok (closedInode s.disk, { s with pos := 64, junk := junk }) := by
  rw [closed]
  exact readInode_closed (by exact long)

end Closed

section Closed

variable {s : Machine} {h : Fin 20}

/-- A count that passes the check of `ssufs_read` against a negative size is never reached. -/
theorem count_never {size offset nbytes : Int32} (negative : size.toInt < 0)
    (passes : ¬ size < offset + nbytes) (low : 0 ≤ offset.toInt) (high : offset.toInt < 256) :
    nbytes.toInt ≤ 0 ∨ 256 < nbytes.toInt := by
  rw [Int32.lt_iff_toInt_lt] at passes
  have sum := toInt_add_cases (y := nbytes) low
  omega

theorem flatMap_chunks {f g : ℕ → List Byte} {l : List ℕ}
    (lengths : ∀ p ∈ l, (f p).length = (g p).length) (same : l.flatMap f = l.flatMap g) :
    ∀ p ∈ l, f p = g p := by
  induction l with
  | nil => simp
  | cons p l ih =>
    rw [List.flatMap_cons, List.flatMap_cons] at same
    rw [List.forall_mem_cons] at lengths ⊢
    obtain ⟨first, rest⟩ := List.append_inj same lengths.1
    exact ⟨first, ih lengths.2 rest⟩

/-- Two images that differ in the last byte of a chunk differ in the chunk. -/
theorem readAt_set {disk : List Byte} {p : ℕ} (within : p + 64 ≤ disk.length) :
    readAt (disk.set (p + 63) (byteAt disk (p + 63) + 1)) p 64 ≠ readAt disk p 64 := by
  intro same
  have bytes := congrArg (fun l => byteAt l 63) same
  simp only [byteAt_readAt _ _ _ _ (show 63 < 64 by norm_num)] at bytes
  rw [byteAt, List.getD_eq_getElem _ _ (by simp; omega), List.getElem_set_self] at bytes
  simp at bytes

theorem Walkable.mono {length length' pos : ℕ} {blocks : List Int32}
    (walkable : Walkable length pos blocks) (le : length ≤ length') :
    Walkable length' pos blocks :=
  ⟨walkable.number, fun p member => (walkable.within p member).trans le⟩

section Iff

variable (long : 320 ≤ s.disk.length) (closed : (s.fileHandles h).inodeNumber = -1)

include long closed

theorem Shielded.lseek (shielded : Shielded s h) (nseek : Int32) :
    Refused s (ssufsLseek h nseek s) (-1) := by
  have size := shielded.size
  refine ⟨{ s with pos := 64 }, ?_, rfl, rfl⟩
  rw [ssufsLseek_closed long closed, if_pos]
  simp only [Int32.lt_iff_toInt_lt]
  have zero : (0 : Int32).toInt = 0 := rfl
  omega

/-- What a read through a shielded handle stores, on the disk or on one with other data blocks. -/
theorem Shielded.read (shielded : Shielded s h) (nbytes : Int32) :
    ∃ stored, ∀ disk, disk.take 320 = s.disk.take 320 → disk.length = s.disk.length →
      ∃ pos, ssufsRead h nbytes { s with disk := disk } =
        .ok ((-1, stored), { s with disk := disk, pos := pos }) := by
  have size := shielded.size
  by_cases refused : (closedInode s.disk).fileSize < (s.fileHandles h).offset + nbytes
  · refine ⟨[], fun disk same length => ⟨64, ?_⟩⟩
    rw [ssufsRead_twin long closed nbytes same length, if_pos refused]
  by_cases inside : 0 ≤ (s.fileHandles h).offset.toInt ∧ (s.fileHandles h).offset.toInt < 256
  · obtain ⟨j, low, high⟩ := exists_slot inside.1 inside.2
    obtain ⟨empty, -, walkable⟩ := shielded.slot j low high
    have never := count_never size refused inside.1 inside.2
    by_cases start : (s.fileHandles h).offset.toInt = 64 * j
    · refine ⟨(blockStarts 64 (((List.finRange 4).drop (j + 1)).map
        (closedInode s.disk).directBlocks)).flatMap fun p => readAt s.disk p 64,
        fun disk same length => ?_⟩
      obtain ⟨pos, walks⟩ := readLoop_walk h (closedInode s.disk) nbytes
        ((List.finRange 4).drop (j + 1)) [] { s with disk := disk, pos := 64 }
        (by simp; omega) ((walkable start).mono (by dsimp only; omega))
      refine ⟨pos, ?_⟩
      rw [ssufsRead_twin long closed nbytes same length, if_neg refused,
        readLoop_empty low high empty, if_pos start, walks, List.nil_append,
        List.flatMap_congr fun p member => readAt_congr same ((walkable start).within p member)]
    · refine ⟨[], fun disk same length => ⟨64, ?_⟩⟩
      rw [ssufsRead_twin long closed nbytes same length, if_neg refused,
        readLoop_empty low high empty, if_neg start]
  · refine ⟨[], fun disk same length => ⟨64, ?_⟩⟩
    rw [ssufsRead_twin long closed nbytes same length, if_neg refused,
      readLoop_outside (by simp; omega)]

theorem Shielded.write (shielded : Shielded s h) (buf : ℕ → Byte) (nbytes : Int32) :
    Refused s (ssufsWrite h buf nbytes s) (-1) := by
  refine refused_of_count (ssufsWriteCount_refused (reads_closed long closed) (by omega)
    (.inr fun j low high => ?_))
  obtain ⟨empty, full, -⟩ := shielded.slot j low high
  exact ⟨empty, full⟩

theorem Shielded.noAccess (shielded : Shielded s h) : NoAccess s h where
  lseek := shielded.lseek long closed
  read nbytes := by
    obtain ⟨stored, reads⟩ := shielded.read long closed nbytes
    obtain ⟨pos, here⟩ := reads s.disk rfl rfl
    refine ⟨stored, ⟨_, here, rfl, rfl⟩, fun disk same length => ?_⟩
    obtain ⟨pos', there⟩ := reads disk same length
    exact ⟨_, there⟩
  write := shielded.write long closed

/-- Seeking to the start of the file fails only for a negative size. -/
theorem NoAccess.size_neg (noAccess : NoAccess s h) :
    (closedInode s.disk).fileSize.toInt < 0 := by
  obtain ⟨t, refused, -⟩ := noAccess.lseek (-(s.fileHandles h).offset)
  rw [ssufsLseek_closed long closed, Int32.add_right_neg] at refused
  have zero : (0 : Int32).toInt = 0 := rfl
  by_contra large
  rw [if_neg] at refused
  · simp at refused
  · simp only [Int32.lt_iff_toInt_lt]
    rintro (none | below | above)
    · rw [none] at large
      exact large (by decide)
    · omega
    · omega

/-- Writing one byte fails only if there is no block for it. -/
theorem NoAccess.slot_empty (noAccess : NoAccess s h) {j : Fin 4}
    (low : 64 * (j : ℤ) ≤ (s.fileHandles h).offset.toInt)
    (high : (s.fileHandles h).offset.toInt < 64 * (j + 1)) :
    (closedInode s.disk).directBlocks j = -1 ∧ ∀ b, s.store.flag b ≠ dataBlockFree := by
  have size := noAccess.size_neg long closed
  obtain ⟨t, refused, -⟩ := noAccess.write (fun _ => 0) 1
  obtain ⟨r, writes, failed⟩ := ssufsWrite_count refused
  refine ssufsWriteCount_slot (Q := fun r _ => r.1 = 0) (reads_closed long closed) (by omega) writes ?_
    low high (fun filled t inside start => countSlot_one inside start t) ?_
  · rw [Int32.lt_iff_toInt_lt]
    have one := toInt_add_cases (x := (1 : Int32)) (y := (closedInode s.disk).fileSize) (by decide)
    rw [Int32.add_comm] at one
    have values : (1 : Int32).toInt = 1 ∧ (256 : Int32).toInt = 256 := by decide
    have bounds := Int32.le_toInt (closedInode s.disk).fileSize
    omega
  · rw [failed]
    decide

/-- Reading with a count that makes no limit shows the slots behind the first one. -/
theorem NoAccess.walkable (noAccess : NoAccess s h) {j : Fin 4}
    (start : (s.fileHandles h).offset.toInt = 64 * j) :
    Walkable 320 64 (((List.finRange 4).drop (j + 1)).map (closedInode s.disk).directBlocks) := by
  have size := noAccess.size_neg long closed
  obtain ⟨empty, -⟩ := noAccess.slot_empty long closed start.ge (by omega)
  obtain ⟨nbytes, target⟩ : ∃ nbytes, (s.fileHandles h).offset + nbytes =
      (closedInode s.disk).fileSize := ⟨(closedInode s.disk).fileSize - (s.fileHandles h).offset, by
        rw [Int32.add_comm, Int32.sub_add_cancel]⟩
  have passes : ¬ (closedInode s.disk).fileSize < (s.fileHandles h).offset + nbytes := by
    rw [target, Int32.lt_iff_toInt_lt]
    exact lt_irrefl _
  have never := count_never size passes (by omega) (by omega)
  have reads {disk : List Byte} (same : disk.take 320 = s.disk.take 320)
      (length : disk.length = s.disk.length) :
      ssufsRead h nbytes { s with disk := disk } =
        readLoop h (closedInode s.disk) nbytes ((List.finRange 4).drop (j + 1)) 0 []
          { s with disk := disk, pos := 64 } := by
    rw [ssufsRead_twin long closed nbytes same length, if_neg passes,
      readLoop_empty start.ge (by omega) empty, if_pos start]
  obtain ⟨stored, ⟨t, here, -⟩, there⟩ := noAccess.read nbytes
  rw [reads rfl rfl] at here
  have walkable : Walkable s.disk.length 64
      (((List.finRange 4).drop (j + 1)).map (closedInode s.disk).directBlocks) := by
    by_contra unwalkable
    rw [readLoop_unwalkable _ _ _ (by simp; omega) unwalkable] at here
    cases here
  refine ⟨walkable.number, fun p member => ?_⟩
  by_contra late
  have within := walkable.within p member
  -- another image with the same records, whose block at `p` ends with another byte
  obtain ⟨disk, changed⟩ : ∃ disk, disk = s.disk.set (p + 63) (byteAt s.disk (p + 63) + 1) :=
    ⟨_, rfl⟩
  have same : disk.take 320 = s.disk.take 320 := by rw [changed, List.take_set_of_le (by omega)]
  have length : disk.length = s.disk.length := by rw [changed, List.length_set]
  obtain ⟨t', other⟩ := there disk same length
  rw [reads same length] at other
  have walks (disk : List Byte) (length : disk.length = s.disk.length) :=
    readLoop_walk h (closedInode s.disk) nbytes ((List.finRange 4).drop (j + 1)) []
      { s with disk := disk, pos := 64 } (by simp; omega) (by rw [length]; exact walkable)
  obtain ⟨_, walk⟩ := walks s.disk rfl
  obtain ⟨_, walk'⟩ := walks disk length
  rw [walk] at here
  rw [walk'] at other
  simp only [Except.ok.injEq, Prod.mk.injEq, true_and, List.nil_append] at here other
  have chunk := flatMap_chunks (fun q member => ?_) (other.1.trans here.1.symm) p member
  · rw [changed] at chunk
    exact readAt_set within chunk
  · have inside := walkable.within q member
    rw [length_readAt _ _ _ inside, length_readAt _ _ _ (by omega)]

theorem NoAccess.shielded (noAccess : NoAccess s h) : Shielded s h where
  size := noAccess.size_neg long closed
  slot j low high := by
    obtain ⟨empty, full⟩ := noAccess.slot_empty long closed low high
    exact ⟨empty, full, noAccess.walkable long closed⟩

end Iff

end Closed

/-! ## Runs -/

/-- In every state that calls of any kind can reach from a formatted disk, a closed handle gives no
access exactly when the last bytes of the superblock's block happen to shield it. -/
theorem noAccess_iff_shielded {s s₀ t : Machine} {l : List (Event Machine (Call × Reply))}
    (format : ssufsFormatDisk s = .ok ((), s₀)) (run : Run (UserStep fun _ _ => True) s₀ l t)
    {h : Fin 20} (closed : (t.fileHandles h).inodeNumber = -1) :
    NoAccess t h ↔ Shielded t h := by
  have long : 320 ≤ t.disk.length :=
    run.invariant (P := fun x => 320 ≤ x.disk.length) (holds_of_format format).2
      fun x a y long step => step.long long
  exact ⟨fun noAccess => noAccess.shielded long closed,
    fun shielded => shielded.noAccess long closed⟩

theorem noAccess_iff_shielded_closed :
    ∃ s₀ l t, ssufsFormatDisk (bootWith 255) = .ok ((), s₀) ∧
      Run (UserStep fun _ _ => True) s₀ l t ∧
      l.map (fun e => e.label.1) = [.create (letter 0), .openFile (letter 0), .close 0] ∧
      (t.fileHandles 0).inodeNumber = -1 ∧ (NoAccess t 0 ↔ Shielded t 0) := by
  have ends : (replay (fun _ _ => True) [.create (letter 0), .openFile (letter 0), .close 0]
      (Store.fresh fun _ => 255)).map (fun v => (v.fileHandles 0).inodeNumber) = some (-1) := by
    decide +kernel
  obtain ⟨v, replays, closed⟩ := Option.map_eq_some_iff.1 ends
  obtain ⟨s₀, l, t, format, run, made, rfl, -⟩ := run_of_replay_fresh 255 replays
  exact ⟨s₀, l, t, format, run, made, closed, noAccess_iff_shielded format run closed⟩

/-- On a formatted disk with no open file, writing one byte through handle 0 succeeds: the bytes
behind the marks, all 255, make a negative size and an empty slot, for which a block is
allocated. -/
theorem noAccess_fails_write :
    ¬ ∀ s s₀ l t, ssufsFormatDisk s = .ok ((), s₀) → Run (UserStep fun _ _ => True) s₀ l t →
      ∀ h, (t.fileHandles h).inodeNumber = -1 → NoAccess t h := by
  intro holds
  have result : ((do ssufsFormatDisk; ssufsWrite 0 (fun _ => 65) 1)
      (bootWith 255)).toOption.map Prod.fst = some 0 := by
    decide +kernel
  obtain ⟨s₀, format, fresh, -⟩ := ssufsFormatDisk_apply (bootWith 255)
  have closed : (s₀.fileHandles 0).inodeNumber = -1 :=
    congrArg (fun v : Store => (v.fileHandles 0).inodeNumber) fresh
  obtain ⟨t, refused, -⟩ := (holds _ s₀ [] s₀ format .nil _ closed).write (fun _ => 65) 1
  rw [Prog.bind_ok format, refused] at result
  have value : (-1 : Int32) = 0 := Option.some.inj result
  exact absurd value (by decide)

end SsuOs.Ssufs
