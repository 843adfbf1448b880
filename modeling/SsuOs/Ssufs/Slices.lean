import Mathlib.Algebra.BigOperators.Group.List.Basic
import Mathlib.Algebra.Group.Action.Defs
import SsuOs.Ssufs.Frames
import SsuOs.Ssufs.Loops
import SsuOs.Ssufs.Refinement

/-!
# What a read delivers

`ssufs_read` finds the block of the offset by taking 64 off until less is left, and copies byte by
byte from there. `ssufsRead_slice` says that for a file whose blocks are in place this is the slice
of the blocks put one behind the other, for every offset and every count, and that nothing but the
offset of the handle changes.
-/

namespace SsuOs.Ssufs

/-! ## The blocks of a file in a row -/

section Chunks

variable {ι : Type} {f : ι → List Byte} {l : List ι} {k : ℕ}

/-- Position `64 * k + p` of chunks of 64 bytes is position `p` from chunk `k` on. -/
theorem getElem?_chunks (full : ∀ x ∈ l.take k, (f x).length = 64) (short : k ≤ l.length) (p : ℕ) :
    (l.flatMap f)[64 * k + p]? = ((l.drop k).flatMap f)[p]? := by
  have length : ((l.take k).flatMap f).length = 64 * k := by
    rw [List.length_flatMap, List.map_congr_left full, List.map_const', List.sum_replicate,
      List.length_take, min_eq_left short, smul_eq_mul, mul_comm]
  conv_lhs => rw [← List.take_append_drop k l, List.flatMap_append]
  rw [List.getElem?_append_right (by omega), length, Nat.add_sub_cancel_left]

end Chunks

/-- The bytes of slot `j` of a file, none if the slot is empty. -/
def slotBytes (v : Store) (i : Fin 8) (j : Fin 4) : List Byte :=
  (((v.inode i).slot j).map fun b => List.ofFn (v.block b)).getD []

/-- The blocks of a file, one behind the other. -/
def fileBlocks (v : Store) (i : Fin 8) : List Byte := (List.finRange 4).flatMap (slotBytes v i)

section Blocks

variable {v : Store} {i : Fin 8} {j : Fin 4} {b : Fin 30}

theorem slotBytes_held (held : (v.inode i).slot j = some b) :
    slotBytes v i j = List.ofFn (v.block b) := by
  rw [slotBytes, held, Option.map_some, Option.getD_some]

/-- A position in a slot that has a block, behind slots that have blocks. -/
theorem getElem?_fileBlocks (before : ∀ j', j' ≤ j → ∃ b, (v.inode i).slot j' = some b)
    (p : Fin 64) : (fileBlocks v i)[64 * j.val + p.val]? = some (content v i (64 * j + p)) := by
  obtain ⟨b, held⟩ := before j le_rfl
  rw [fileBlocks, getElem?_chunks _ (by simp), drop_finRange, List.flatMap_cons,
    slotBytes_held held, List.getElem?_append_left (by simp), content, fileByte_held held,
    List.getElem?_ofFn, dif_pos p.isLt, Option.getD_some]
  · intro j' member
    obtain ⟨k, below, rfl⟩ := List.mem_take_iff_getElem.1 member
    have early : ((List.finRange 4)[k]).val < j.val := by
      rw [List.getElem_finRange]
      exact lt_of_lt_of_le below (min_le_left _ _)
    obtain ⟨b', held'⟩ := before ((List.finRange 4)[k]) early.le
    rw [slotBytes_held held', List.length_ofFn]

theorem slice_eq_fileBlocks {o n : ℕ}
    (held : ∀ j : Fin 4, 64 * j.val < o + n → ∃ b, (v.inode i).slot j = some b)
    (fits : o + n ≤ 256) : slice (content v i) o n = ((fileBlocks v i).drop o).take n := by
  have bytes (p : ℕ) (inside : p < o + n) : (fileBlocks v i)[p]? = some (content v i p) := by
    have position : 64 * (p / 64) + p % 64 = p := Nat.div_add_mod p 64
    have here := getElem?_fileBlocks (v := v) (i := i) (j := ⟨p / 64, by omega⟩)
      (fun j' early => held j' (by change j'.val ≤ p / 64 at early; omega)) ⟨p % 64, by omega⟩
    simpa only [position] using here
  refine List.ext_getElem? fun k => ?_
  rw [slice, List.getElem?_map, List.getElem?_take]
  by_cases below : k < n
  · rw [if_pos below, List.getElem?_drop, bytes (o + k) (by omega), List.getElem?_range below,
      Option.map_some]
  · rw [if_neg below, List.getElem?_eq_none (by simpa using below), Option.map_none]

end Blocks

/-! ## Reading -/

/-- Handle `h` is open on the file with inode `i`, whose blocks are as many as its size needs and
are all on the disk. -/
structure OpenFile (s : Machine) (h : Fin 20) (i : Fin 8) : Prop where
  long : 320 ≤ s.disk.length
  selected : index 8 (s.fileHandles h).inodeNumber = some i
  inUse : s.store.inodeFlag i = inodeInUse
  nonneg : 0 ≤ (s.fileHandles h).offset.toInt
  within : (s.fileHandles h).offset.toInt ≤ (s.store.inode i).fileSize.toInt
  bound : (s.store.inode i).fileSize.toInt ≤ 256
  held : ∀ j : Fin 4, 64 * (j : ℤ) < (s.store.inode i).fileSize.toInt →
    ∃ b, (s.store.inode i).slot j = some b ∧ s.store.Readable b
  empty : ∀ j : Fin 4, (s.store.inode i).fileSize.toInt ≤ 64 * (j : ℤ) →
    (s.store.inode i).directBlocks j = -1

namespace OpenFile

variable {s : Machine} {h : Fin 20} {i : Fin 8} {nbytes : Int32}

theorem block (file : OpenFile s h i) (j : Fin 4) :
    (s.store.inode i).directBlocks j = -1 ∨
      ∃ b, (s.store.inode i).slot j = some b ∧ s.store.Readable b := by
  rcases lt_or_ge (64 * (j : ℤ)) (s.store.inode i).fileSize.toInt with inside | outside
  · exact .inr (file.held j inside)
  · exact .inl (file.empty j outside)

theorem valid (file : OpenFile s h i) : (s.store.inode i).Valid := by
  intro j nonempty
  obtain ⟨b, slot, -⟩ := (file.block j).resolve_left nonempty
  exact ⟨b, slot⟩

theorem readable (file : OpenFile s h i) {j : Fin 4} {b : Fin 30}
    (slot : (s.store.inode i).slot j = some b) : s.store.Readable b := by
  obtain ⟨b', slot', readable⟩ := (file.block j).resolve_left (Inode.ne_neg_one_of_slot slot)
  rwa [Option.some.inj (slot.symm.trans slot')]

/-- A read within the file, on the records. -/
theorem read_inside (file : OpenFile s h i) (positive : 1 ≤ nbytes.toInt)
    (inside : (s.fileHandles h).offset.toInt + nbytes.toInt ≤ (s.store.inode i).fileSize.toInt) :
    ssufsRead h nbytes s.store =
      .ok ((0, ((fileBlocks s.store i).drop (s.fileHandles h).offset.toInt.toNat).take
          nbytes.toInt.toNat),
        s.store.putHandle h { s.fileHandles h with offset := (s.fileHandles h).offset + nbytes }) := by
  have nonneg := file.nonneg
  have bound := file.bound
  obtain ⟨o, offset⟩ := Int.eq_ofNat_of_zero_le nonneg
  obtain ⟨n, count⟩ := Int.eq_ofNat_of_zero_le (show 0 ≤ nbytes.toInt by omega)
  have held (j : Fin 4) (early : 64 * j.val < o + n) :
      ∃ b, (s.store.inode i).slot j = some b ∧ s.store.Readable b := file.held j (by omega)
  have moved := toInt_add_of_nat offset count (by omega)
  have fits : ¬ ((s.store.inode i).fileSize = -1 ∨ (s.fileHandles h).offset + nbytes < 0 ∨
      (s.store.inode i).fileSize < (s.fileHandles h).offset + nbytes) := by
    have zero : (0 : Int32).toInt = 0 := rfl
    simp only [Int32.lt_iff_toInt_lt, moved]
    rintro (none | negative | beyond)
    · have value : (s.store.inode i).fileSize.toInt = -1 := by rw [none]; rfl
      omega
    · omega
    · omega
  have seek := (ssufsLseek_apply (v := s.store) file.selected nbytes).trans (if_neg fits)
  rw [ssufsRead_within (v := s.store) file.selected offset count (by omega) (by omega) bound held,
    Prog.bind_ok seek, offset, count]
  simp only [Int.toNat_natCast]
  rw [← slice_eq_fileBlocks (fun j early => (held j early).imp fun b => And.left) (by omega)]
  rfl

/-- A read beyond the end of the file, on the records. -/
theorem read_beyond (file : OpenFile s h i) (positive : 1 ≤ nbytes.toInt)
    (beyond : (s.store.inode i).fileSize.toInt < (s.fileHandles h).offset.toInt + nbytes.toInt) :
    ∃ stored, ssufsRead h nbytes s.store = .ok ((-1, stored), s.store) := by
  have nonneg := file.nonneg
  have within := file.within
  obtain ⟨o, offset⟩ := Int.eq_ofNat_of_zero_le nonneg
  obtain ⟨n, count⟩ := Int.eq_ofNat_of_zero_le (show 0 ≤ nbytes.toInt by omega)
  exact ssufsRead_beyond file.selected offset (by simp only [Machine.store] at within ⊢; omega)
    file.bound file.valid (fun j b => file.readable) count (by omega)

end OpenFile

/-- A read of at least one byte through an open handle returns 0 exactly if the file has the bytes,
and then delivers them and moves the offset behind them; otherwise it returns -1. The disk and all
the other handles stay as they are. -/
theorem ssufsRead_slice {s : Machine} {h : Fin 20} {i : Fin 8} {nbytes : Int32}
    (file : OpenFile s h i) (positive : 1 ≤ nbytes.toInt) :
    ∃ r buf s', ssufsRead h nbytes s = .ok ((r, buf), s') ∧
      (r = 0 ↔ (s.fileHandles h).offset.toInt + nbytes.toInt ≤ (s.store.inode i).fileSize.toInt) ∧
      (r = 0 → buf = ((fileBlocks s.store i).drop (s.fileHandles h).offset.toInt.toNat).take
          nbytes.toInt.toNat ∧
        (s'.fileHandles h).offset.toInt = (s.fileHandles h).offset.toInt + nbytes.toInt ∧
        (s'.fileHandles h).inodeNumber = (s.fileHandles h).inodeNumber) ∧
      (r ≠ 0 → r = -1 ∧ s'.fileHandles h = s.fileHandles h) ∧
      s'.disk = s.disk ∧ ∀ h', h' ≠ h → s'.fileHandles h' = s.fileHandles h' := by
  have sim := ssufsRead_implements h nbytes
  by_cases inside : (s.fileHandles h).offset.toInt + nbytes.toInt ≤
      (s.store.inode i).fileSize.toInt
  · obtain ⟨s', runs, same, -⟩ := sim.lift file.long (file.read_inside positive inside)
    have handles : s'.fileHandles = Function.update s.fileHandles h
        { s.fileHandles h with offset := (s.fileHandles h).offset + nbytes } :=
      congrArg Store.fileHandles same
    have nonneg := file.nonneg
    have bound := file.bound
    have moved := toInt_add_cases (y := nbytes) nonneg
    refine ⟨0, _, s', runs, iff_of_true rfl inside, fun _ => ⟨rfl, ?_, ?_⟩, absurd rfl,
      ssufsRead_disk runs, fun h' other => ?_⟩
    · rw [handles, Function.update_self]
      dsimp only
      omega
    · rw [handles, Function.update_self]
    · rw [handles, Function.update_of_ne other]
  · obtain ⟨stored, fails⟩ := file.read_beyond positive (not_le.1 inside)
    obtain ⟨s', runs, same, -⟩ := sim.lift file.long fails
    have handles : s'.fileHandles = s.fileHandles := congrArg Store.fileHandles same
    have failed : (-1 : Int32) ≠ 0 := by decide
    refine ⟨-1, stored, s', runs, iff_of_false failed inside, fun done => absurd done failed,
      fun _ => ⟨rfl, by rw [handles]⟩, ssufsRead_disk runs, fun h' _ => by rw [handles]⟩

/-- A file of 100 bytes, open at offset 40. -/
theorem openFile_hundred :
    ∃ s, OpenFile s 0 0 ∧ (s.fileHandles 0).offset.toInt = 40 ∧
      (s.store.inode 0).fileSize.toInt = 100 := by
  have ends : (replay (fun _ _ => True)
      [.create (letter 0), .openFile (letter 0), .write 0 (fun k => UInt8.ofNat k) 100,
        .lseek 0 (-60)] (Store.fresh fun _ => 0)).map (fun v => decide
      (index 8 (v.fileHandles 0).inodeNumber = some 0 ∧ v.inodeFlag 0 = inodeInUse ∧
        (v.fileHandles 0).offset.toInt = 40 ∧ (v.inode 0).fileSize.toInt = 100 ∧
        ∀ j : Fin 4, (64 * (j : ℤ) < 100 → ∃ b : Fin 30,
            (v.inode 0).slot j = some b ∧ 64 * (6 + b.val) ≤ v.length) ∧
          (100 ≤ 64 * (j : ℤ) → (v.inode 0).directBlocks j = -1))) = some true := by
    decide +kernel
  obtain ⟨v, replays, holds⟩ := Option.map_eq_some_iff.1 ends
  obtain ⟨selected, inUse, offset, size, blocks⟩ := of_decide_eq_true holds
  obtain ⟨-, -, s, -, -, -, rfl, long⟩ := run_of_replay_fresh 0 replays
  refine ⟨s, ⟨long, selected, inUse, ?_, ?_, ?_, fun j early => ?_, fun j late => ?_⟩, offset, size⟩
  · exact offset.ge.trans' (by norm_num)
  · exact offset.trans_le (size.ge.trans' (by norm_num))
  · exact size.trans_le (by norm_num)
  · exact (blocks j).1 (early.trans_eq size)
  · exact (blocks j).2 (size.symm.trans_le late)

/-- Fifty bytes from offset 40 of a file of 100 bytes come from two blocks. -/
theorem ssufsRead_slice_hundred :
    ∃ s buf s', OpenFile s 0 0 ∧ ssufsRead 0 50 s = .ok ((0, buf), s') ∧
      buf = ((fileBlocks s.store 0).drop 40).take 50 ∧ (s'.fileHandles 0).offset.toInt = 90 := by
  obtain ⟨s, file, offset, size⟩ := openFile_hundred
  have count : (50 : Int32).toInt = 50 := rfl
  obtain ⟨r, buf, s', runs, succeeds, done, -⟩ :=
    ssufsRead_slice file (show 1 ≤ (50 : Int32).toInt by decide)
  rw [offset, count] at done succeeds
  obtain rfl : r = 0 := succeeds.2 (by rw [size]; norm_num)
  obtain ⟨bytes, moved, -⟩ := done rfl
  exact ⟨s, buf, s', file, runs, bytes, moved⟩

end SsuOs.Ssufs
