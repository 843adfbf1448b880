import SsuOs.Ssufs.Contents
import SsuOs.Ssufs.FileStore

/-!
# ssufs is a file store

As long as its user writes at the end of files, and either writes too much for the file or finds
enough free blocks, ssufs answers every call as the abstract `FileStore` does, or does not return: a
write that starts inside a block copies the block as a string. The proof relates the records to a
file store (`Represents`) and has one lemma for each call.
-/

namespace SsuOs.Ssufs

open ByteFile

/-! ## The relation -/

/-- The file with inode `i` is `file`: its blocks are in the first slots, have been written before,
and hold its bytes. -/
structure FileAt (v : Store) (i : Fin 8) (file : File) : Prop where
  inUse : v.inodeFlag i = inodeInUse
  named : (v.inode i).Named file.name
  shortName : file.name.bytes.length ≤ 7
  size : (v.inode i).fileSize.toInt = file.bytes.length
  held : ∀ j : Fin 4, (v.inode i).directBlocks j ≠ -1 ↔ 64 * j.val < file.bytes.length
  readable : ∀ j b, (v.inode i).slot j = some b → v.Readable b
  bytes : ∀ p < file.bytes.length, v.fileByte i p = file.bytes[p]?

def SlotAt (v : Store) (i : Fin 8) : Option File → Prop
  | none => v.inodeFlag i = inodeFree
  | some file => FileAt v i file

def HandleAt (handle : FileHandle) : Option (Fin 8 × ℕ) → Prop
  | none => handle.inodeNumber = -1
  | some (i, o) => handle.inodeNumber = ofIndex i ∧ handle.offset.toInt = o

/-- The records hold the files and open handles of the file store `a`. -/
structure Represents (v : Store) (a : FileStore) : Prop where
  consistent : Consistent v
  slot : ∀ i, SlotAt v i (a.slot i)
  handle : ∀ h, HandleAt (v.fileHandles h) (a.handle h)

/-- A file stays what it is if its inode and its blocks do. -/
theorem FileAt.congr {v v' : Store} {i : Fin 8} {file : File} (here : FileAt v i file)
    (inodeFlag : v'.inodeFlag i = v.inodeFlag i) (inode : v'.inode i = v.inode i)
    (block : ∀ j b, (v.inode i).slot j = some b → v'.block b = v.block b)
    (length : v.length ≤ v'.length) : FileAt v' i file := by
  refine ⟨inodeFlag.trans here.inUse, ?_, here.shortName, ?_, ?_, fun j b held => ?_,
    fun p inside => ?_⟩
  · rw [inode]
    exact here.named
  · rw [inode]
    exact here.size
  · rw [inode]
    exact here.held
  · rw [inode] at held
    exact le_trans (here.readable j b held) length
  · have short := file.short
    obtain ⟨j, k, rfl⟩ := position p (by omega)
    rw [fileByte_congr (by rw [inode]) (block j) k]
    exact here.bytes _ inside

/-- The same for a slot, which may be empty. -/
theorem SlotAt.congr {v v' : Store} {i : Fin 8} {file : Option File} (here : SlotAt v i file)
    (inodeFlag : v'.inodeFlag i = v.inodeFlag i) (inode : v'.inode i = v.inode i)
    (block : ∀ j b, v.inodeFlag i = inodeInUse → (v.inode i).slot j = some b →
      v'.block b = v.block b)
    (length : v.length ≤ v'.length) : SlotAt v' i file := by
  cases file with
  | none => exact inodeFlag.trans here
  | some file => exact FileAt.congr here inodeFlag inode (fun j b => block j b here.inUse) length

/-- Byte `p` of a file, as the code reads it from the blocks. -/
def content (v : Store) (i : Fin 8) (p : ℕ) : Byte := (v.fileByte i p).getD 0

theorem FileAt.slice_eq {v : Store} {i : Fin 8} {file : File} (here : FileAt v i file) {o n : ℕ}
    (inside : o + n ≤ file.bytes.length) :
    slice (content v i) o n = (file.bytes.drop o).take n := by
  refine List.ext_getElem (by simp; omega) fun k below _ => ?_
  rw [length_slice] at below
  have bound : o + k < file.bytes.length := by omega
  have byte : content v i (o + k) = file.bytes[o + k] := by
    rw [content, here.bytes _ bound, List.getElem?_eq_getElem bound, Option.getD_some]
  simpa [slice] using byte

section Read

variable {v : Store} {h : Fin 20} {i : Fin 8} {file : File} {o n : ℕ} {nbytes : Int32}

/-- A read within the size of a file delivers bytes if its blocks are there. -/
theorem ssufsRead_within (selected : index 8 (v.fileHandles h).inodeNumber = some i)
    (offset : (v.fileHandles h).offset.toInt = o) (count : nbytes.toInt = n) (positive : 0 < n)
    (inside : o + n ≤ (v.inode i).fileSize.toInt) (bound : (v.inode i).fileSize.toInt ≤ 256)
    (held : ∀ j : Fin 4, 64 * j.val < o + n → ∃ b, (v.inode i).slot j = some b ∧ v.Readable b) :
    ssufsRead h nbytes v =
      (do let _ ← ssufsLseek h nbytes
          pure (0, slice (content v i) o n) : Ssu Store (Int32 × List Byte)) v := by
  have sum := toInt_add_of_nat offset count (by omega)
  have passes : ¬ (v.inode i).fileSize < (v.fileHandles h).offset + nbytes := by
    rw [Int32.lt_iff_toInt_lt, sum]
    omega
  have blocks (j : Fin 4) (early : 64 * j.val < o + n) : ∃ b, (v.inode i).slot j = some b ∧
      v.Readable b ∧ ∀ p : Fin 64, v.block b p = content v i (64 * j + p) := by
    obtain ⟨b, slot, readable⟩ := held j early
    refine ⟨b, slot, readable, fun p => ?_⟩
    rw [content, fileByte_held slot, Option.getD_some]
  have reads := readLoop_slice (h := h) (a := 0) count positive (show o + n ≤ 256 by omega) blocks
    rfl (by omega)
  simp only [Nat.mul_zero, Nat.sub_zero, Nat.zero_sub] at reads
  rw [ssufsRead_apply selected, if_neg passes, offset]
  exact reads

/-- A read within the file delivers its bytes. -/
theorem FileAt.read_inside (here : FileAt v i file) (valid : (v.inode i).Valid)
    (selected : index 8 (v.fileHandles h).inodeNumber = some i)
    (offset : (v.fileHandles h).offset.toInt = o) (count : nbytes.toInt = n) (positive : 0 < n)
    (inside : o + n ≤ file.bytes.length) :
    ssufsRead h nbytes v =
      (do let _ ← ssufsLseek h nbytes
          pure (0, (file.bytes.drop o).take n) : Ssu Store (Int32 × List Byte)) v := by
  have short := file.short
  have size := here.size
  rw [← here.slice_eq inside]
  refine ssufsRead_within selected offset count positive (by omega) (by omega) fun j early => ?_
  obtain ⟨b, held⟩ := valid j ((here.held j).2 (by omega))
  exact ⟨b, held, here.readable j b held⟩

/-- A read beyond the end of a file fails if its blocks are there. -/
theorem ssufsRead_beyond (selected : index 8 (v.fileHandles h).inodeNumber = some i)
    (offset : (v.fileHandles h).offset.toInt = o) (within : o ≤ (v.inode i).fileSize.toInt)
    (bound : (v.inode i).fileSize.toInt ≤ 256) (valid : (v.inode i).Valid)
    (readable : ∀ j b, (v.inode i).slot j = some b → v.Readable b) (count : nbytes.toInt = n)
    (beyond : (v.inode i).fileSize.toInt < o + n) :
    ∃ stored, ssufsRead h nbytes v = .ok ((-1, stored), v) := by
  have sum := toInt_add_cases (y := nbytes) (show 0 ≤ (v.fileHandles h).offset.toInt by omega)
  rw [ssufsRead_apply selected]
  by_cases fails : (v.inode i).fileSize < (v.fileHandles h).offset + nbytes
  · exact ⟨[], if_pos fails⟩
  · -- the sum has wrapped around: the loop runs out of blocks before it has enough bytes
    rw [if_neg fails]
    refine readLoop_short valid readable _ ?_
    rw [Int32.lt_iff_toInt_lt] at fails
    simp only [List.length_nil, List.length_finRange]
    omega

theorem FileAt.read_beyond (here : FileAt v i file) (valid : (v.inode i).Valid)
    (selected : index 8 (v.fileHandles h).inodeNumber = some i)
    (offset : (v.fileHandles h).offset.toInt = o) (within : o ≤ file.bytes.length)
    (count : nbytes.toInt = n) (beyond : file.bytes.length < o + n) :
    ∃ stored, ssufsRead h nbytes v = .ok ((-1, stored), v) := by
  have short := file.short
  have size := here.size
  exact ssufsRead_beyond selected offset (by omega) (by omega) valid here.readable count (by omega)

end Read

namespace Represents

variable {v v' : Store} {a : FileStore}

theorem fresh (junk : ℕ → Byte) : Represents (Store.fresh junk) FileStore.empty where
  consistent := consistent_fresh junk
  slot _ := rfl
  handle _ := rfl

/-! ## Searches -/

theorem lookup_eq (related : Represents v a) {filename : CString}
    (short : filename.bytes.length ≤ 7) : v.lookup filename = a.lookup filename := by
  rw [Store.lookup, if_neg (by omega), FileStore.lookup]
  congr 1
  funext i
  have slot := related.slot i
  rw [decide_eq_decide]
  cases here : a.slot i with
  | none =>
    rw [here] at slot
    refine iff_of_false (fun both => ?_) (by simp)
    exact inodeInUse_ne_free (both.1.symm.trans slot)
  | some file =>
    rw [here] at slot
    rw [Option.map_some, Option.some.injEq]
    refine ⟨fun both => slot.named.unique both.2, ?_⟩
    rintro rfl
    exact ⟨slot.inUse, slot.named⟩

theorem firstFreeInode_eq (related : Represents v a) : v.firstFreeInode = a.firstEmpty := by
  rw [Store.firstFreeInode, FileStore.firstEmpty]
  congr 1
  funext i
  have slot := related.slot i
  cases here : a.slot i with
  | none =>
    rw [here] at slot
    exact decide_eq_true slot
  | some file =>
    rw [here] at slot
    exact decide_eq_false fun free => inodeInUse_ne_free (slot.inUse.symm.trans free)

theorem firstClosed_eq (related : Represents v a) : v.firstClosed = a.firstClosed := by
  rw [Store.firstClosed, FileStore.firstClosed]
  congr 1
  funext h
  have handle := related.handle h
  cases here : a.handle h with
  | none =>
    rw [here] at handle
    exact decide_eq_true handle
  | some place =>
    rw [here] at handle
    refine decide_eq_false fun closed => ?_
    exact ofIndex_ne_neg_one (by norm_num) place.1 (handle.1.symm.trans closed)

/-! ## Handles -/

theorem putHandle (related : Represents v a) {h : Fin 20} {handle : FileHandle}
    {place : Option (Fin 8 × ℕ)} (consistent : Consistent (v.putHandle h handle))
    (here : HandleAt handle place) : Represents (v.putHandle h handle) (a.putHandle h place) where
  consistent := consistent
  slot i := (related.slot i).congr rfl rfl (fun _ _ _ _ => rfl) le_rfl
  handle h' := by
    rw [Store.putHandle_fileHandles, FileStore.putHandle_handle, Function.update_apply,
      Function.update_apply]
    split_ifs
    · exact here
    · exact related.handle h'

theorem fileAt (related : Represents v a) {i : Fin 8} (inUse : v.inodeFlag i = inodeInUse) :
    ∃ file, a.slot i = some file ∧ FileAt v i file := by
  have slot := related.slot i
  cases here : a.slot i with
  | none =>
    rw [here] at slot
    exact absurd (inUse.symm.trans slot) inodeInUse_ne_free
  | some file =>
    rw [here] at slot
    exact ⟨file, rfl, slot⟩

theorem compact (related : Represents v a) : Compact v := by
  intro i inUse
  obtain ⟨file, -, fileAt⟩ := related.fileAt inUse
  have short := file.short
  rw [fileAt.size]
  refine ⟨by omega, by omega, fun j => ?_⟩
  rw [fileAt.held]
  omega

/-- The file behind an open handle. -/
theorem file (related : Represents v a) {h : Fin 20} (opened : Opened v h) :
    ∃ i o file, a.opened h = some (i, o, file) ∧ FileAt v i file ∧ o ≤ file.bytes.length ∧
      index 8 (v.fileHandles h).inodeNumber = some i ∧ HandleAt (v.fileHandles h) (some (i, o)) := by
  obtain ⟨i, selected, inUse, low, high⟩ := related.consistent.file opened
  have handle := related.handle h
  cases place : a.handle h with
  | none =>
    rw [place] at handle
    exact absurd handle opened
  | some place' =>
    obtain ⟨i', o⟩ := place'
    rw [place] at handle
    obtain rfl : i = i' := by
      rw [handle.1, index_ofIndex (by norm_num)] at selected
      exact (Option.some.inj selected).symm
    obtain ⟨file, here, fileAt⟩ := related.fileAt inUse
    refine ⟨i, o, file, ?_, fileAt, ?_, selected, handle⟩
    · rw [FileStore.opened, place, Option.bind_some, here, Option.map_some]
    · have size := fileAt.size
      have offset := handle.2
      omega

theorem openFile (related : Represents v a) {filename : CString}
    (short : filename.bytes.length ≤ 7) :
    ∃ v', ssufsOpen filename v = .ok ((a.openFile filename).1, v') ∧
      Represents v' (a.openFile filename).2 := by
  have opens := ssufsOpen_apply filename v
  rw [related.lookup_eq short, related.firstClosed_eq] at opens
  rw [FileStore.openFile]
  cases here : a.lookup filename with
  | none =>
    rw [here] at opens
    exact ⟨v, opens, related⟩
  | some i =>
    cases closed : a.firstClosed with
    | none =>
      rw [here, closed] at opens
      exact ⟨v, opens, related⟩
    | some h =>
      rw [here, closed] at opens
      obtain ⟨inUse, -⟩ := lookup_eq_some (here ▸ related.lookup_eq short)
      refine ⟨_, opens, related.putHandle (related.consistent.putHandle h (.inr ⟨i, ?_, inUse,
        le_rfl, ?_⟩)) ⟨rfl, rfl⟩⟩
      · exact index_ofIndex (by norm_num) i
      · exact (related.consistent.size i inUse).1

theorem lseek (related : Represents v a) {h : Fin 20} (opened : Opened v h) (nseek : Int32) :
    ∃ v', ssufsLseek h nseek v = .ok ((a.lseek h nseek.toInt).1, v') ∧
      Represents v' (a.lseek h nseek.toInt).2 := by
  obtain ⟨i, o, file, here, fileAt, within, selected, number, offset⟩ := related.file opened
  have short := file.short
  have size := fileAt.size
  have seek := ssufsLseek_apply selected nseek
  have moved := toInt_add_cases (y := nseek) (show 0 ≤ (v.fileHandles h).offset.toInt by omega)
  have bad : ((v.inode i).fileSize = -1 ∨ (v.fileHandles h).offset + nseek < 0 ∨
      (v.inode i).fileSize < (v.fileHandles h).offset + nseek) ↔
        ¬ (0 ≤ o + nseek.toInt ∧ o + nseek.toInt ≤ file.bytes.length) := by
    have minus : (-1 : Int32).toInt = -1 := rfl
    have zero : (0 : Int32).toInt = 0 := rfl
    rw [Int32.lt_iff_toInt_lt, Int32.lt_iff_toInt_lt, ← Int32.toInt_inj]
    omega
  rw [FileStore.lseek, here]
  dsimp only
  by_cases good : 0 ≤ o + nseek.toInt ∧ o + nseek.toInt ≤ file.bytes.length
  · rw [if_neg (bad.not.2 (not_not.2 good))] at seek
    rw [if_pos good]
    refine ⟨_, seek, related.putHandle (related.consistent.lseek opened seek) ⟨number, ?_⟩⟩
    change ((v.fileHandles h).offset + nseek).toInt = _
    omega
  · rw [if_pos (bad.2 good)] at seek
    rw [if_neg good]
    exact ⟨v, seek, related⟩

/-! ## Creating and deleting files -/

theorem create (related : Represents v a) {filename : CString}
    (short : filename.bytes.length ≤ 7) :
    ∃ v', ssufsCreate filename v = .ok ((a.create filename).1, v') ∧
      Represents v' (a.create filename).2 := by
  have creates := ssufsCreate_apply filename v
  rw [related.lookup_eq short] at creates
  rw [FileStore.create, ← related.firstFreeInode_eq]
  cases here : a.lookup filename with
  | some i =>
    rw [here] at creates
    exact ⟨v, creates, related⟩
  | none =>
    cases free : v.firstFreeInode with
    | none =>
      rw [here, free] at creates
      exact ⟨v, creates, related⟩
    | some i =>
      rw [here, free] at creates
      refine ⟨_, creates, related.consistent.create short free, fun i' => ?_, related.handle⟩
      obtain ⟨empty, bare⟩ := related.consistent.unused i (firstFreeInode_eq_some free)
      change SlotAt _ i' (Function.update a.slot i _ i')
      by_cases same : i' = i
      · subst same
        rw [Function.update_self]
        refine ⟨Function.update_self _ _ _, Store.created_named (by omega), short, ?_, fun j => ?_,
          fun j b held => ?_, fun p inside => absurd inside (Nat.not_lt_zero p)⟩
        · rw [Store.created_fileSize short, empty]
          rfl
        · rw [Store.created_directBlocks (by omega)]
          exact iff_of_false (not_not.2 (bare j)) (Nat.not_lt_zero _)
        · rw [Store.created_slot (by omega)] at held
          exact absurd (bare j) (Inode.ne_neg_one_of_slot held)
      · rw [Function.update_of_ne same]
        exact (related.slot i').congr (Function.update_of_ne same _ _)
          (Store.created_inode_of_ne same) (fun _ _ _ _ => rfl) le_rfl

theorem delete (related : Represents v a) {filename : CString}
    (short : filename.bytes.length ≤ 7)
    (closed : ∀ i, v.lookup filename = some i → ∀ h,
      index 8 (v.fileHandles h).inodeNumber ≠ some i) :
    ∃ v', ssufsDelete filename v = .ok ((), v') ∧ Represents v' (a.delete filename) := by
  rw [FileStore.delete, ← related.lookup_eq short]
  cases here : v.lookup filename with
  | none => exact ⟨v, ssufsDelete_absent here, related⟩
  | some i =>
    have owned := related.consistent.owned
    obtain ⟨inUse, -⟩ := lookup_eq_some here
    obtain ⟨file, -, fileAt⟩ := related.fileAt inUse
    obtain ⟨v', runs, freed⟩ := ssufsDelete_apply here (owned.valid inUse) (owned.distinct inUse)
      (fun j b held => owned.used ⟨inUse, held⟩) fileAt.readable
    have scrubs : Consistent (scrubbed (v.inode i) (List.finRange 4) v) :=
      related.consistent.congr rfl rfl rfl rfl
    refine ⟨v', runs, scrubs.delete inUse (closed i here) freed, fun i' => ?_, fun h => ?_⟩
    · change SlotAt _ i' (Function.update a.slot i _ i')
      by_cases same : i' = i
      · subst same
        rw [Function.update_self]
        exact (congrFun freed.inodeFlag i').trans (Function.update_self _ _ _)
      · rw [Function.update_of_ne same]
        refine (related.slot i').congr ?_ ?_ (fun j b inUse' held => ?_) freed.length.ge
        · exact (congrFun freed.inodeFlag i').trans (Function.update_of_ne same _ _)
        · exact (congrFun freed.inode i').trans (Function.update_of_ne same _ _)
        · rw [freed.block]
          refine if_neg ?_
          rintro ⟨k, -, held'⟩
          exact same (owned.unique ⟨inUse', held⟩ ⟨inUse, held'⟩).1
    · rw [freed.fileHandles]
      exact related.handle h

/-! ## Reading -/

theorem read (related : Represents v a) {h : Fin 20} (opened : Opened v h) {nbytes : Int32}
    (positive : 1 ≤ nbytes.toInt) :
    ∃ r v', ssufsRead h nbytes v = .ok (r, v') ∧
      (r.1, if r.1 = 0 then r.2 else []) = (a.read h nbytes.toInt.toNat).1 ∧
      Represents v' (a.read h nbytes.toInt.toNat).2 := by
  obtain ⟨i, o, file, here, fileAt, within, selected, number, offset⟩ := related.file opened
  have valid := related.consistent.owned.valid fileAt.inUse
  have count : nbytes.toInt = nbytes.toInt.toNat := by omega
  rw [FileStore.read, here]
  dsimp only
  by_cases inside : o + nbytes.toInt.toNat ≤ file.bytes.length
  · have reads := fileAt.read_inside valid selected offset count (by omega) inside
    obtain ⟨v', seek, related'⟩ := related.lseek opened nbytes
    have moves : a.lseek h nbytes.toInt =
        (0, a.putHandle h (some (i, o + nbytes.toInt.toNat))) := by
      rw [FileStore.lseek, here]
      dsimp only
      rw [if_pos (by omega)]
      congr
      omega
    rw [moves] at related'
    rw [if_pos inside]
    exact ⟨_, v', reads.trans (Prog.bind_ok seek), rfl, related'⟩
  · obtain ⟨stored, fails⟩ :=
      fileAt.read_beyond valid selected offset within count (not_le.1 inside)
    rw [if_neg inside]
    exact ⟨_, v, fails, rfl, related⟩

end Represents

/-! ## Writing -/

/-- Writes go to the end of the file, and make it too long or find enough free blocks. -/
def Appends (v : Store) : Call → Prop
  | .write h _ nbytes => ∀ i, index 8 (v.fileHandles h).inodeNumber = some i →
      (v.fileHandles h).offset = (v.inode i).fileSize ∧
        (256 < (v.inode i).fileSize.toInt + nbytes.toInt ∨
          ((v.inode i).fileSize.toInt + nbytes.toInt + 63) / 64 ≤
            ((v.inode i).fileSize.toInt + 63) / 64 + v.freeCount)
  | _ => True

/-- A write within the size limit that starts inside a block finds a NUL in it. -/
def FindsNul (v : Store) : Call → Prop
  | .write h _ nbytes => ∀ i (j : Fin 4) b, index 8 (v.fileHandles h).inodeNumber = some i →
      (v.inode i).fileSize.toInt + nbytes.toInt ≤ 256 →
      64 * (j : ℤ) < (v.fileHandles h).offset.toInt →
      (v.fileHandles h).offset.toInt < 64 * ((j : ℤ) + 1) →
      (v.inode i).slot j = some b → HasNul (v.block b)
  | _ => True

namespace Request

variable {v v' : Store} {q : Request v} {t : Block} {tmp : Inode} {file : File}

theorem length_eq (here : FileAt v q.i file) : file.bytes.length = q.f := by
  have size := here.size.symm.trans q.size
  exact_mod_cast size

theorem held_of_fileAt (here : FileAt v q.i file) (j : Fin 4) :
    q.inode.directBlocks j ≠ -1 ↔ 64 * j.val < q.f := by
  rw [← length_eq here]
  exact here.held j

/-- The block that an append loads is the last one of the file. -/
theorem loads_iff (here : FileAt v q.i file) (append : q.o = q.f) {b : Fin 30} :
    q.Loads b ↔ ∃ j : Fin 4, j.val = q.first ∧ 64 * j < q.o ∧ q.inode.slot j = some b := by
  refine exists_congr fun j => and_congr_right fun _ => and_congr_right fun inside => ?_
  refine or_iff_left fun missing => ?_
  exact (held_of_fileAt here j).2 (append ▸ inside) missing.1

theorem findsNul_iff (here : FileAt v q.i file) (append : q.o = q.f) :
    FindsNul v (.write q.fileHandle q.buf q.nbytes) ↔ ∀ b, q.Loads b → HasNul (v.block b) := by
  have bounds := q.first_spec
  have fits := q.fits
  simp only [FindsNul, q.offset]
  constructor
  · intro finds b loads
    obtain ⟨j, start, inside, held⟩ := (loads_iff here append).1 loads
    refine finds q.i j b q.opened ?_ (by omega) (by omega) held
    rw [q.size, q.count]
    omega
  · intro finds i j b selected _ low high held
    obtain rfl : q.i = i := Option.some.inj (q.opened.symm.trans selected)
    exact finds b ((loads_iff here append).2 ⟨j, by omega, by omega, held⟩)

/-- An append that finds enough blocks, and a NUL in the block that it starts in, completes. -/
theorem completes (q : Request v) (here : FileAt v q.i file) (append : q.o = q.f)
    (enough : (q.f + q.n + 63) / 64 ≤ (q.f + 63) / 64 + v.freeCount) :
    (FindsNul v (.write q.fileHandle q.buf q.nbytes) ∧
      ∃ tmp v', ssufsWrite q.fileHandle q.buf q.nbytes v = .ok (0, v') ∧
        q.Completed v.tmpBuf tmp v') ∨
      (¬ FindsNul v (.write q.fileHandle q.buf q.nbytes) ∧
        ssufsWrite q.fileHandle q.buf q.nbytes v = .error .outOfBounds) := by
  have held := held_of_fileAt here
  have finds := findsNul_iff here append
  have outcome := ssufsWrite_cases q
  generalize ssufsWrite q.fileHandle q.buf q.nbytes v = result at outcome
  cases outcome with
  | completed loaded complete =>
    exact .inl ⟨finds.2 fun b loads => (loaded b loads).2, _, _, rfl, complete⟩
  | @rolledBack m _ _ _ back =>
    exfalso
    have slots (j : Fin 4) : q.inode.directBlocks j ≠ -1 ↔ j.val < (q.f + 63) / 64 := by
      rw [held]
      omega
    have count := back.runsOut.count
    rw [Inode.missing_eq slots (by omega) m.isLt.le] at count
    have before := back.runsOut.before
    have empty := (slots m).not.1 (not_not.2 back.runsOut.empty)
    omega
  | @unreadable b loads short =>
    obtain ⟨j, -, -, slot⟩ := (loads_iff here append).1 loads
    exact absurd (here.readable j b slot) short
  | @overruns b loads _ endless =>
    exact .inr ⟨fun all => endless (finds.1 all b loads), rfl⟩

/-- A completed append adds the data to the file. -/
theorem Completed.fileAt (complete : q.Completed t tmp v') (here : FileAt v q.i file)
    (append : q.o = q.f) {data : List Byte} (length : data.length = q.n)
    (bytes : ∀ k < q.n, data[k]? = some (q.buf k))
    (fits : file.bytes.length + data.length ≤ 256) : FileAt v' q.i (file.append data fits) := by
  have old := length_eq here
  have held := held_of_fileAt here
  have self := complete.inode_self
  have name : tmp.name = q.inode.name := by rw [complete.plan.rest]
  have total : (file.append data fits).bytes.length = q.f + q.n := by
    rw [File.append, List.length_append, old, length]
  refine ⟨?_, ?_, here.shortName, ?_, fun j => ?_, fun j b slot => ?_, fun p inside => ?_⟩
  · rw [complete.inodeFlag]
    exact here.inUse
  · refine (Inode.named_iff here.shortName).2 ?_
    rw [self, name]
    exact (Inode.named_iff here.shortName).1 here.named
  · rw [self, total]
    exact complete.plan.grown
  · rw [self, total]
    by_cases touched : q.Touched q.past j
    · obtain ⟨b, slot⟩ := complete.plan.held touched
      refine iff_of_true (Inode.ne_neg_one_of_slot slot) ?_
      have before := touched.2
      rw [past] at before
      omega
    · change tmp.directBlocks j ≠ -1 ↔ _
      rw [complete.plan.kept j fun new => touched new.1, held]
      rw [Touched, first, past] at touched
      omega
  · rw [self] at slot
    by_cases touched : q.Touched q.past j
    · exact complete.filled.readable j b touched slot
    · have kept : q.inode.slot j = some b :=
        (complete.plan.slot_untouched touched).symm.trans slot
      exact le_trans (here.readable j b kept) complete.filled.length
  · rw [total] at inside
    change _ = (file.bytes ++ data)[p]?
    by_cases early : p < q.f
    · rw [complete.before held (append ▸ early), here.bytes p (old ▸ early),
        List.getElem?_append_left (old ▸ early)]
    · rw [complete.written (by omega) (by omega), List.getElem?_append_right (by omega),
        bytes _ (by omega), append, old]

end Request

namespace Represents

variable {v : Store} {a : FileStore} {h : Fin 20} {buf : ℕ → Byte} {nbytes : Int32}

/-- A write that is too long is refused and changes nothing but uninitialised memory. -/
theorem write_refused (related : Represents v a)
    (behaved : WellBehaved v (.write h buf nbytes)) {i : Fin 8}
    (selected : index 8 (v.fileHandles h).inodeNumber = some i)
    (big : 256 < (v.inode i).fileSize.toInt + nbytes.toInt) :
    ∃ junk, ssufsWrite h buf nbytes v = .ok (-1, { v with junk := junk }) := by
  obtain ⟨opened, -, noOverflow⟩ := behaved
  obtain ⟨i', -, file, -, fileAt, -, selected', -⟩ := related.file opened
  obtain rfl : i = i' := Option.some.inj (selected.symm.trans selected')
  have size := fileAt.size
  exact ssufsWrite_refused selected buf (by omega) big (noOverflow i selected)

/-- A call either does what it does to the file store, or copies a block without a NUL. -/
def Answers (v : Store) (a : FileStore) (call : Call) : Prop :=
  (FindsNul v call ∧
    ∃ v', call.exec v = .ok ((a.exec call).1, v') ∧ Represents v' (a.exec call).2) ∨
    (¬ FindsNul v call ∧ call.exec v = .error .outOfBounds)

theorem write (related : Represents v a) (behaved : WellBehaved v (.write h buf nbytes))
    (appends : Appends v (.write h buf nbytes)) : Answers v a (.write h buf nbytes) := by
  have ⟨opened, positive, noOverflow⟩ := behaved
  obtain ⟨i, o, file, here, fileAt, within, selected, number, offset⟩ := related.file opened
  obtain ⟨append, room⟩ := appends i selected
  set data := List.ofFn fun k : Fin nbytes.toInt.toNat => buf k with data_eq
  have length : data.length = nbytes.toInt.toNat := by rw [data_eq, List.length_ofFn]
  have size := fileAt.size
  by_cases fits : file.bytes.length + data.length ≤ 256
  · obtain ⟨q, rfl, rfl, rfl, rfl⟩ := related.consistent.owned.request buf selected fileAt.inUse
      (by omega) (by omega) positive (by omega)
    have start := q.append append
    have count := q.count
    have grows := Request.length_eq fileAt
    rcases q.completes fileAt start (by omega) with
      ⟨finds, tmp, v', runs, complete⟩ | ⟨misses, fails⟩
    · refine .inl ⟨finds, v', ?_⟩
      simp only [FileStore.exec, FileStore.write, here, ← data_eq, dif_pos fits]
      refine ⟨Prog.bind_ok runs, complete.consistent related.consistent fileAt.inUse, fun i => ?_,
        fun h' => ?_⟩
      · change SlotAt _ i (Function.update a.slot q.i _ i)
        by_cases same : i = q.i
        · subst same
          rw [Function.update_self]
          refine complete.fileAt fileAt start (by omega) (fun k below => ?_) fits
          rw [data_eq, List.getElem?_ofFn, dif_pos (by omega)]
        · rw [Function.update_of_ne same]
          refine (related.slot i).congr (congrFun complete.inodeFlag i) (complete.inode_other same)
            (fun j b inUse held => ?_) complete.filled.length
          exact complete.block_of_holder related.consistent.owned fileAt.inUse same ⟨inUse, held⟩
      · change HandleAt _ (Function.update a.handle q.fileHandle _ h')
        rw [complete.fileHandles, Function.update_apply, Function.update_apply]
        split_ifs
        · refine ⟨number, ?_⟩
          have moved := q.moved
          have place := q.offset
          change ((v.fileHandles q.fileHandle).offset + q.nbytes).toInt = _
          omega
        · exact related.handle h'
    · exact .inr ⟨misses, Prog.bind_error fails⟩
  · obtain ⟨junk, refused⟩ := related.write_refused behaved selected (by omega)
    refine .inl ⟨fun i' j b selected' small => ?_, { v with junk := junk }, ?_⟩
    · obtain rfl : i = i' := Option.some.inj (selected.symm.trans selected')
      omega
    · simp only [FileStore.exec, FileStore.write, here, ← data_eq, dif_neg fits]
      exact ⟨Prog.bind_ok refused, related.consistent.congr rfl rfl rfl rfl,
        fun i => (related.slot i).congr rfl rfl (fun _ _ _ _ => rfl) le_rfl, related.handle⟩

/-- Every call is answered as the file store answers it, or copies a block without a NUL. -/
theorem exec (related : Represents v a) {call : Call} (behaved : WellBehaved v call)
    (appends : Appends v call) : Answers v a call := by
  cases call with
  | create filename =>
    obtain ⟨v', runs, related'⟩ := related.create behaved
    exact .inl ⟨trivial, v', Prog.bind_ok runs, related'⟩
  | openFile filename =>
    obtain ⟨v', runs, related'⟩ := related.openFile behaved
    exact .inl ⟨trivial, v', Prog.bind_ok runs, related'⟩
  | write h buf nbytes => exact related.write behaved appends
  | read h nbytes =>
    obtain ⟨r, v', runs, delivers, related'⟩ := related.read behaved.1 behaved.2
    refine .inl ⟨trivial, v', (Prog.bind_ok runs).trans ?_, related'⟩
    rw [FileStore.exec, ← delivers]
    rfl
  | lseek h nseek =>
    obtain ⟨v', runs, related'⟩ := related.lseek behaved nseek
    exact .inl ⟨trivial, v', Prog.bind_ok runs, related'⟩
  | close h =>
    exact .inl ⟨trivial, _, rfl,
      related.putHandle (related.consistent.putHandle h (.inl rfl)) rfl⟩
  | delete filename =>
    obtain ⟨v', runs, related'⟩ := related.delete behaved.1 behaved.2
    exact .inl ⟨trivial, v', Prog.bind_ok runs, related'⟩

end Represents

/-! ## Runs -/

/-- The calls of a well-behaved user who only appends. -/
def AppendOnly (v : Store) (call : Call) : Prop := WellBehaved v call ∧ Appends v call

/-- What relates the image to a file store along a run. -/
def Holding (s : Machine) (a : FileStore) : Prop := Represents s.store a ∧ 320 ≤ s.disk.length

theorem holding_format {s s₀ : Machine} (format : ssufsFormatDisk s = .ok ((), s₀)) :
    Holding s₀ FileStore.empty := by
  obtain ⟨holds, long⟩ := holds_of_format format
  exact ⟨holds ▸ .fresh _, long⟩

theorem Holding.exec {s : Machine} {a : FileStore} (holding : Holding s a) {call : Call}
    (allowed : AppendOnly s.store call) :
    (FindsNul s.store call ∧
      ∃ s', call.exec s = .ok ((a.exec call).1, s') ∧ Holding s' (a.exec call).2) ∨
      (¬ FindsNul s.store call ∧ call.exec s = .error .outOfBounds) := by
  rcases holding.1.exec allowed.1 allowed.2 with ⟨finds, v', runs, related⟩ | ⟨misses, fails⟩
  · obtain ⟨s', runs', stored, long⟩ := (exec_implements call).lift holding.2 runs
    exact .inl ⟨finds, s', runs', stored ▸ related, long⟩
  · have agrees := exec_implements call s s.store ⟨rfl, holding.2⟩
    rw [fails] at agrees
    exact .inr ⟨misses, agrees.resolve_left (by decide)⟩

theorem Holding.step {s s' : Machine} {a : FileStore} (holding : Holding s a) {e : Call × Reply}
    (step : UserStep AppendOnly s e s') :
    e.2 = (a.exec e.1).1 ∧ Holding s' (a.exec e.1).2 := by
  rcases holding.exec step.1 with ⟨-, t, runs, holding'⟩ | ⟨-, fails⟩
  · have same := step.2.symm.trans runs
    simp only [Except.ok.injEq, Prod.mk.injEq] at same
    exact ⟨same.1, same.2 ▸ holding'⟩
  · cases step.2.symm.trans fails

/-- Along every run of an append-only user, the image holds the files of the store. -/
theorem holding_of_run {s s₀ t : Machine} {l : List (Event Machine (Call × Reply))}
    (format : ssufsFormatDisk s = .ok ((), s₀)) (run : Run (UserStep AppendOnly) s₀ l t) :
    l.map (fun e => e.label.2) =
        (answers FileStore.exec FileStore.empty (l.map fun e => e.label.1)).1 ∧
      Holding t (answers FileStore.exec FileStore.empty (l.map fun e => e.label.1)).2 :=
  run.answers_eq (holding_format format) fun _ _ _ _ holding step => holding.step step

/-- Along every run of an append-only user from a formatted disk, ssufs gives the answers of the
file store. A further call of such a user returns exactly if it is not a write that starts inside a
block without a NUL. A write that is too long returns `-1` and leaves the disk and the handles as
they are. -/
theorem replies_eq_fileStore {s s₀ t : Machine} {l : List (Event Machine (Call × Reply))}
    (format : ssufsFormatDisk s = .ok ((), s₀)) (run : Run (UserStep AppendOnly) s₀ l t) :
    l.map (fun e => e.label.2) =
        (answers FileStore.exec FileStore.empty (l.map fun e => e.label.1)).1 ∧
      (∀ call, AppendOnly t.store call →
        ((∃ r t', call.exec t = .ok (r, t')) ↔ FindsNul t.store call)) ∧
      ∀ h buf nbytes i, AppendOnly t.store (.write h buf nbytes) →
        index 8 (t.store.fileHandles h).inodeNumber = some i →
        256 < (t.store.inode i).fileSize.toInt + nbytes.toInt →
        ∃ t' junk, ssufsWrite h buf nbytes t = .ok (-1, t') ∧
          t'.store = { t.store with junk := junk } := by
  obtain ⟨answered, holding⟩ := holding_of_run format run
  refine ⟨answered, fun call allowed => ?_, fun h buf nbytes i allowed selected big => ?_⟩
  · rcases holding.exec allowed with ⟨finds, t', runs, -⟩ | ⟨misses, fails⟩
    · exact iff_of_true ⟨_, t', runs⟩ finds
    · refine iff_of_false ?_ misses
      rintro ⟨r, t', runs⟩
      cases fails.symm.trans runs
  · obtain ⟨junk, refused⟩ := holding.1.write_refused allowed.1 selected big
    obtain ⟨t', runs, stored, -⟩ := (ssufsWrite_implements h buf nbytes).lift holding.2 refused
    exact ⟨t', junk, runs, stored⟩

instance (v : Store) : ∀ call : Call, Decidable (Appends v call)
  | .create _ | .openFile _ | .read _ _ | .lseek _ _ | .close _ | .delete _ => .isTrue trivial
  | .write _ _ _ => inferInstanceAs (Decidable (∀ _, _ → _ ∧ _))

instance (v : Store) (call : Call) : Decidable (AppendOnly v call) :=
  inferInstanceAs (Decidable (WellBehaved v call ∧ Appends v call))

/-- Two files, the second with 70 bytes: a read across a block boundary, a write from the middle of
the second block, a write that is too long, a read past the end, and a delete. -/
def twoFiles (first second : CString) (h : Fin 20) : List Call :=
  [.create first, .create second, .openFile second, .write h (fun k => UInt8.ofNat k) 70,
    .lseek h (-10), .read h 10, .write h (fun _ => 7) 5, .write h (fun _ => 1) 200, .read h 4,
    .close h, .delete second]

theorem replies_eq_fileStore_twoFiles :
    ∃ s₀ l t, ssufsFormatDisk (bootWith 255) = .ok ((), s₀) ∧
      Run (UserStep AppendOnly) s₀ l t ∧ l.map (fun e => e.label.1) = twoFiles (letter 0) (letter 1) 0 ∧
      l.map (fun e => e.label.2) =
        [⟨some 0, []⟩, ⟨some 1, []⟩, ⟨some 0, []⟩, ⟨some 0, []⟩, ⟨some 0, []⟩,
          ⟨some 0, [60, 61, 62, 63, 64, 65, 66, 67, 68, 69]⟩, ⟨some 0, []⟩, ⟨some (-1), []⟩,
          ⟨some (-1), []⟩, ⟨none, []⟩, ⟨none, []⟩] := by
  have ends : (replay AppendOnly (twoFiles (letter 0) (letter 1) 0)
      (Store.fresh fun _ => 255)).isSome = true := by
    decide +kernel
  obtain ⟨v, replays⟩ := Option.isSome_iff_exists.1 ends
  obtain ⟨s₀, l, t, format, run, made, -⟩ := run_of_replay_fresh 255 replays
  refine ⟨s₀, l, t, format, run, made, (replies_eq_fileStore format run).1.trans ?_⟩
  rw [made]
  decide +kernel

/-- A file of ten letters, with no NUL behind them in the block, is appended to. -/
theorem returns_fails_tenLetters :
    ¬ ∀ s s₀ l t call, ssufsFormatDisk s = .ok ((), s₀) → Run (UserStep AppendOnly) s₀ l t →
      AppendOnly t.store call → ∃ r t', call.exec t = .ok (r, t') := by
  intro holds
  have ends : (replay AppendOnly
      [.create (letter 0), .openFile (letter 0), .write 0 (fun _ => 65) 10]
      (Store.fresh fun _ => 255)).map
        (fun v => decide (AppendOnly v (.write 0 (fun _ => 66) 10)) &&
          match (Call.write 0 (fun _ => 66) 10).exec v with
          | .error .outOfBounds => true
          | _ => false) = some true := by
    decide +kernel
  obtain ⟨v, replays, bad⟩ := Option.map_eq_some_iff.1 ends
  obtain ⟨s₀, l, t, format, run, -, rfl, long⟩ := run_of_replay_fresh 255 replays
  rw [Bool.and_eq_true, decide_eq_true_eq] at bad
  have fails : (Call.write 0 (fun _ => 66) 10).exec t.store = .error .outOfBounds := by
    have stops := bad.2
    split at stops
    · assumption
    · cases stops
  have agrees := exec_implements (.write 0 (fun _ => 66) 10) t t.store ⟨rfl, long⟩
  rw [fails] at agrees
  obtain ⟨r, t', runs⟩ := holds _ s₀ l t _ format run bad.1
  cases (agrees.resolve_left (by decide)).symm.trans runs

end SsuOs.Ssufs
