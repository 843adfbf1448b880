import SsuOs.Ssufs.Records

/-!
# The functions of ssufs on the records

What each function other than `ssufs_write` and `ssufs_read` does to a store of records, as an
equation for its result (`NewFiles` has `ssufs_create`). Later files cite these and do not unfold the
functions.
-/

namespace SsuOs.Ssufs

open ByteFile

namespace Store

/-- The entry of data block `b` in the free list. -/
def flag (v : Store) (b : Fin 30) : Byte := v.superblock.datablockFreelist b

/-- The entry of inode `i` in the free list. -/
def inodeFlag (v : Store) (i : Fin 8) : Byte := v.superblock.inodeFreelist i

def setFlag (v : Store) (b : Fin 30) (c : Byte) : Store :=
  v.putSuperblock { v.superblock with
    datablockFreelist := Function.update v.superblock.datablockFreelist b c }

def setInodeFlag (v : Store) (i : Fin 8) (c : Byte) : Store :=
  v.putSuperblock { v.superblock with
    inodeFreelist := Function.update v.superblock.inodeFreelist i c }

/-- The first block marked free. -/
def firstFree (v : Store) : Option (Fin 30) :=
  (List.finRange 30).find? fun b => v.flag b = dataBlockFree

/-- The first inode marked free. -/
def firstFreeInode (v : Store) : Option (Fin 8) :=
  (List.finRange 8).find? fun i => v.inodeFlag i = inodeFree

/-- The first inode in use with the name `filename`, if the name is not too long. -/
def lookup (v : Store) (filename : CString) : Option (Fin 8) :=
  if 8 < filename.bytes.length then none
  else (List.finRange 8).find? fun i =>
    v.inodeFlag i = inodeInUse ∧ (v.inode i).Named filename

/-- The first handle that is not open. -/
def firstClosed (v : Store) : Option (Fin 20) :=
  (List.finRange 20).find? fun h => (v.fileHandles h).inodeNumber = -1

variable (v : Store)

@[simp] theorem flag_setFlag (b : Fin 30) (c : Byte) :
    (v.setFlag b c).flag = Function.update v.flag b c := rfl

@[simp] theorem flag_putBlock (b : Fin 30) (buf : Block) : (v.putBlock b buf).flag = v.flag := rfl

@[simp] theorem inodeFlag_setFlag (b : Fin 30) (c : Byte) :
    (v.setFlag b c).inodeFlag = v.inodeFlag := rfl

@[simp] theorem inodeFlag_putBlock (b : Fin 30) (buf : Block) :
    (v.putBlock b buf).inodeFlag = v.inodeFlag := rfl

section SetFlag

variable (b : Fin 30) (c : Byte)

@[simp] theorem setFlag_inode : (v.setFlag b c).inode = v.inode := rfl

@[simp] theorem setFlag_block : (v.setFlag b c).block = v.block := rfl

@[simp] theorem setFlag_length : (v.setFlag b c).length = v.length := rfl

@[simp] theorem setFlag_fileHandles : (v.setFlag b c).fileHandles = v.fileHandles := rfl

end SetFlag

end Store

/-! ## Records -/

variable {v : Store}

theorem readInode_apply {x : Int32} {i : Fin 8} (selected : index 8 x = some i) (v : Store) :
    (Disk.readInode x : Ssu Store Inode) v = .ok (v.inode i, v) := by
  have small : x.toInt < 8 := by
    have value := index_eq_some.1 selected
    omega
  change Store.readInode x v = _
  rw [Store.readInode, assert, Prog.bind_ok (Prog.check_pass small v), selected]

theorem writeInode_apply {x : Int32} {i : Fin 8} (selected : index 8 x = some i) (inode : Inode)
    (v : Store) : (Disk.writeInode x inode : Ssu Store Unit) v = .ok ((), v.putInode i inode) := by
  have small : x.toInt < 8 := by
    have value := index_eq_some.1 selected
    omega
  change Store.writeInode x inode v = _
  rw [Store.writeInode, assert, Prog.bind_ok (Prog.check_pass small v), selected]

/-- The value of `ssufs_readDataBlock`, and its failure past the end of the image. -/
theorem readDataBlock_apply {x : Int32} {b : Fin 30} (selected : index 30 x = some b) (v : Store) :
    (Disk.readDataBlock x : Ssu Store Block) v =
      if 64 * (6 + b) ≤ v.length then .ok (v.block b, v) else .error .assertion := by
  have small : x.toInt < 30 := by
    have value := index_eq_some.1 selected
    omega
  change Store.readDataBlock x v = _
  rw [Store.readDataBlock, assert, Prog.bind_ok (Prog.check_pass small v), selected]

theorem writeDataBlock_apply {x : Int32} {b : Fin 30} (selected : index 30 x = some b)
    (buf : Block) (v : Store) :
    (Disk.writeDataBlock x buf : Ssu Store Unit) v = .ok ((), v.putBlock b buf) := by
  have small : x.toInt < 30 := by
    have value := index_eq_some.1 selected
    omega
  change Store.writeDataBlock x buf v = _
  rw [Store.writeDataBlock, assert, Prog.bind_ok (Prog.check_pass small v), selected]

/-! ## Free lists -/

@[simp] theorem dataBlockUsed_ne_free : dataBlockUsed ≠ dataBlockFree := by decide

@[simp] theorem inodeInUse_ne_free : inodeInUse ≠ inodeFree := by decide

theorem firstFree_eq_some {b : Fin 30} (found : v.firstFree = some b) :
    v.flag b = dataBlockFree := by
  simpa using List.find?_some found

theorem firstFree_eq_none (full : v.firstFree = none) (b : Fin 30) : v.flag b ≠ dataBlockFree := by
  simpa using List.find?_eq_none.1 full b (List.mem_finRange b)

theorem ssufsAllocDataBlock_apply (v : Store) :
    (ssufsAllocDataBlock : Ssu Store Int32) v =
      match v.firstFree with
      | some b => .ok (ofIndex b, v.setFlag b dataBlockUsed)
      | none => .ok (-1, v) := by
  rw [ssufsAllocDataBlock, Prog.bind_ok (show Disk.readSuperBlock v = _ from rfl)]
  change (match v.firstFree with
    | some b => _
    | none => _ : Ssu Store Int32) v = _
  cases v.firstFree <;> rfl

theorem ssufsFreeDataBlock_apply {x : Int32} {b : Fin 30} (selected : index 30 x = some b)
    (used : v.flag b = dataBlockUsed) :
    (ssufsFreeDataBlock x : Ssu Store Unit) v = .ok ((), v.setFlag b dataBlockFree) := by
  rw [ssufsFreeDataBlock, Prog.bind_ok (show Disk.readSuperBlock v = _ from rfl), selected]
  exact Prog.bind_ok (Prog.check_pass used v)

theorem ssufsAllocInode_apply (v : Store) :
    (ssufsAllocInode : Ssu Store Int32) v =
      match v.firstFreeInode with
      | some i => .ok (ofIndex i, v.setInodeFlag i inodeInUse)
      | none => .ok (-1, v) := by
  rw [ssufsAllocInode, Prog.bind_ok (show Disk.readSuperBlock v = _ from rfl)]
  change (match v.firstFreeInode with
    | some i => _
    | none => _ : Ssu Store Int32) v = _
  cases v.firstFreeInode <;> rfl

theorem firstFreeInode_eq_some {i : Fin 8} (found : v.firstFreeInode = some i) :
    v.inodeFlag i = inodeFree := by
  simpa using List.find?_some found

/-! ## Searches -/

/-- The `int` that a search returns: the index it found, or -1. -/
def found {n : ℕ} : Option (Fin n) → Int32
  | some i => ofIndex i
  | none => -1

theorem ofIndex_ne_neg_one {n : ℕ} (small : n ≤ 2 ^ 31) (i : Fin n) : ofIndex i ≠ -1 := by
  intro clash
  have value := toInt_ofIndex small i
  rw [clash] at value
  change (-1 : ℤ) = i at value
  omega

/-- A record of what a search returned stays as it is if the search failed. -/
theorem ite_ofIndex_neg_one {n : ℕ} {α : Type*} (small : n ≤ 2 ^ 31) (f g : Fin n → α) :
    (fun i => if ofIndex i = -1 then f i else g i) = g :=
  funext fun i => if_neg (ofIndex_ne_neg_one small i)

theorem found_eq_neg_one {n : ℕ} (small : n ≤ 2 ^ 31) {o : Option (Fin n)} :
    found o = -1 ↔ o = none := by
  cases o with
  | none => simp [found]
  | some i => simpa [found] using ofIndex_ne_neg_one small i

theorem found_eq_ofIndex {n : ℕ} (small : n ≤ 2 ^ 31) {o : Option (Fin n)} {i : Fin n} :
    found o = ofIndex i ↔ o = some i := by
  cases o with
  | none => simpa [found] using (ofIndex_ne_neg_one small i).symm
  | some i' => simpa [found] using ofIndex_inj small

theorem openNameiFrom_apply (filename : CString) (l : List (Fin 8)) (v : Store) :
    openNameiFrom v.superblock filename l v =
      .ok (found (l.find? fun i =>
        v.inodeFlag i = inodeInUse ∧ (v.inode i).Named filename), v) := by
  induction l with
  | nil => rfl
  | cons i l ih =>
    rw [openNameiFrom, Prog.ite_apply, List.find?_cons]
    by_cases used : v.superblock.inodeFreelist i = inodeInUse
    · have used' : v.inodeFlag i = inodeInUse := used
      rw [if_pos used, Prog.bind_ok (readInode_apply (index_ofIndex (by norm_num) i) v),
        Prog.ite_apply]
      by_cases named : (v.inode i).Named filename
      · simp only [named, used', and_self, decide_true, if_true]
        rfl
      · simp only [named, and_false, decide_false, if_false]
        exact ih
    · have unused : v.inodeFlag i ≠ inodeInUse := used
      rw [if_neg used, ih]
      simp only [unused, false_and, decide_false]

theorem openNamei_apply (filename : CString) (v : Store) :
    openNamei filename v = .ok (found (v.lookup filename), v) := by
  rw [openNamei, Store.lookup, Prog.ite_apply]
  split_ifs
  · rfl
  · rw [Prog.bind_ok (show Disk.readSuperBlock v = _ from rfl), openNameiFrom_apply]

theorem lookup_eq_some {filename : CString} {i : Fin 8} (here : v.lookup filename = some i) :
    v.inodeFlag i = inodeInUse ∧ (v.inode i).Named filename := by
  rw [Store.lookup] at here
  split_ifs at here
  simpa using List.find?_some here

theorem length_le_of_lookup {filename : CString} {i : Fin 8} (here : v.lookup filename = some i) :
    filename.bytes.length ≤ 8 := by
  by_contra long
  rw [Store.lookup, if_pos (by omega)] at here
  cases here

theorem lookup_eq_none {filename : CString} (short : filename.bytes.length ≤ 8) :
    v.lookup filename = none ↔
      ∀ i, v.inodeFlag i = inodeInUse → ¬ (v.inode i).Named filename := by
  rw [Store.lookup, if_neg (by omega), List.find?_eq_none]
  simp

/-- The search finds the one inode in use that has the name. -/
theorem lookup_eq_of_unique {filename : CString} {i : Fin 8} (short : filename.bytes.length ≤ 8)
    (inUse : v.inodeFlag i = inodeInUse) (named : (v.inode i).Named filename)
    (unique : ∀ i', v.inodeFlag i' = inodeInUse → (v.inode i').Named filename → i' = i) :
    v.lookup filename = some i := by
  cases here : v.lookup filename with
  | none => exact absurd named ((lookup_eq_none short).1 here i inUse)
  | some i' => rw [unique i' (lookup_eq_some here).1 (lookup_eq_some here).2]

/-! ## Handles -/

theorem ssufsAllocFileHandle_apply (v : Store) :
    (ssufsAllocFileHandle : Ssu Store Int32) v = .ok (found v.firstClosed, v) := by
  rw [ssufsAllocFileHandle, Prog.bind_ok (show Disk.fileHandleArray v = _ from rfl),
    Store.firstClosed]
  cases (List.finRange 20).find? fun h => (v.fileHandles h).inodeNumber = -1 <;> rfl

theorem ssufsOpen_apply (filename : CString) (v : Store) :
    ssufsOpen filename v =
      match v.lookup filename, v.firstClosed with
      | some i, some h => .ok (ofIndex h, v.putHandle h { offset := 0, inodeNumber := ofIndex i })
      | _, _ => .ok (-1, v) := by
  rw [ssufsOpen, Prog.bind_ok (openNamei_apply filename v),
    Prog.bind_ok (ssufsAllocFileHandle_apply v), Prog.ite_apply]
  simp only [found_eq_neg_one (show 8 ≤ 2 ^ 31 by norm_num),
    found_eq_neg_one (show 20 ≤ 2 ^ 31 by norm_num)]
  cases v.lookup filename with
  | none => rfl
  | some i =>
    cases v.firstClosed with
    | none => rfl
    | some h =>
      simp only [reduceCtorEq, or_self, if_false, found, index_ofIndex (show 20 ≤ 2 ^ 31 by norm_num)]
      rfl

theorem ssufsOpen_cases (filename : CString) (v : Store) :
    ssufsOpen filename v = .ok (-1, v) ∨
      ∃ i h, v.lookup filename = some i ∧ v.firstClosed = some h ∧
        ssufsOpen filename v =
          .ok (ofIndex h, v.putHandle h { offset := 0, inodeNumber := ofIndex i }) := by
  have opens := ssufsOpen_apply filename v
  cases here : v.lookup filename with
  | none =>
    rw [here] at opens
    exact .inl opens
  | some i =>
    cases closed : v.firstClosed with
    | none =>
      rw [here, closed] at opens
      exact .inl opens
    | some h =>
      rw [here, closed] at opens
      exact .inr ⟨i, h, rfl, rfl, opens⟩

theorem ssufsLseek_apply {h : Fin 20} {i : Fin 8}
    (selected : index 8 (v.fileHandles h).inodeNumber = some i) (nseek : Int32) :
    ssufsLseek h nseek v =
      if (v.inode i).fileSize = -1 ∨ (v.fileHandles h).offset + nseek < 0 ∨
          (v.inode i).fileSize < (v.fileHandles h).offset + nseek then .ok (-1, v)
      else .ok (0, v.putHandle h { v.fileHandles h with
        offset := (v.fileHandles h).offset + nseek }) := by
  rw [ssufsLseek, Prog.bind_ok (show Disk.fileHandleArray v = _ from rfl),
    Prog.bind_ok (readInode_apply selected v), Prog.ite_apply]
  rfl

/-! ## Slots -/

namespace Inode

/-- The data block behind slot `j`. -/
def slot (inode : Inode) (j : Fin 4) : Option (Fin 30) := index 30 (inode.directBlocks j)

/-- Every slot is -1 or the number of a data block. -/
def Valid (inode : Inode) : Prop := ∀ j, inode.directBlocks j ≠ -1 → ∃ b, inode.slot j = some b

variable {inode : Inode} {j : Fin 4} {b : Fin 30}

theorem slot_of_neg_one (empty : inode.directBlocks j = -1) : inode.slot j = none := by
  rw [slot, empty]
  decide

theorem ne_neg_one_of_slot (held : inode.slot j = some b) : inode.directBlocks j ≠ -1 := by
  intro empty
  rw [slot_of_neg_one empty] at held
  cases held

/-- An inode with another block number in slot `j`. -/
def setSlot (inode : Inode) (j : Fin 4) (x : Int32) : Inode :=
  { inode with directBlocks := Function.update inode.directBlocks j x }

@[simp] theorem directBlocks_setSlot (inode : Inode) (j : Fin 4) (x : Int32) :
    (inode.setSlot j x).directBlocks = Function.update inode.directBlocks j x := rfl

theorem slot_setSlot (inode : Inode) (j j' : Fin 4) (x : Int32) :
    (inode.setSlot j x).slot j' = if j' = j then index 30 x else inode.slot j' := by
  rw [slot, directBlocks_setSlot, Function.update_apply]
  split_ifs <;> rfl

theorem slot_setSlot_of_ne {inode : Inode} {j j' : Fin 4} (other : j' ≠ j) (x : Int32) :
    (inode.setSlot j x).slot j' = inode.slot j' := by
  rw [slot_setSlot, if_neg other]

theorem slot_drop (inode : Inode) (j j' : Fin 4) :
    (inode.setSlot j (-1)).slot j' = if j' = j then none else inode.slot j' := by
  rw [slot_setSlot]
  congr 1

theorem Valid.drop {inode : Inode} (valid : inode.Valid) (j : Fin 4) :
    (inode.setSlot j (-1)).Valid := by
  intro j' held
  by_cases same : j' = j
  · exact absurd (by simp [same]) held
  · rw [directBlocks_setSlot, Function.update_of_ne same] at held
    rw [slot_setSlot_of_ne same]
    exact valid j' held

end Inode

/-- Block `b` lies within the image. -/
def Store.Readable (v : Store) (b : Fin 30) : Prop := 64 * (6 + b) ≤ v.length

theorem readDataBlock_ok {x : Int32} {b : Fin 30} (selected : index 30 x = some b)
    (readable : v.Readable b) : (Disk.readDataBlock x : Ssu Store Block) v = .ok (v.block b, v) := by
  rw [readDataBlock_apply selected]
  exact if_pos readable

theorem readDataBlock_fails {x : Int32} {b : Fin 30} (selected : index 30 x = some b)
    (short : ¬ v.Readable b) : (Disk.readDataBlock x : Ssu Store Block) v = .error .assertion := by
  rw [readDataBlock_apply selected]
  exact if_neg short

/-- A loop over all slots that has passed `a` of them arrives at slot `a`. -/
theorem of_drop_finRange {n a : ℕ} {i : Fin n} {rest : List (Fin n)}
    (suffix : (List.finRange n).drop a = i :: rest) :
    i.val = a ∧ (List.finRange n).drop (a + 1) = rest := by
  have short : a < (List.finRange n).length := by
    by_contra past
    rw [List.drop_eq_nil_of_le (not_lt.1 past)] at suffix
    cases suffix
  rw [List.drop_eq_getElem_cons short, List.cons.injEq, List.getElem_finRange] at suffix
  exact ⟨by rw [← suffix.1]; rfl, suffix.2⟩

/-! ## Reading -/

/-- Reading changes the state at most by the `ssufs_lseek` at its end. -/
theorem readLoop_cases {h : Fin 20} {i : Fin 8} {tmp : Inode}
    (selected : index 8 (v.fileHandles h).inodeNumber = some i) (valid : tmp.Valid)
    (nbytes : Int32) (l : List (Fin 4)) (fOffset : ℤ) (buf : List Byte) :
    (readLoop h tmp nbytes l fOffset buf v = .error .assertion ∧
      ∃ j b, tmp.slot j = some b ∧ ¬ v.Readable b) ∨
      ∃ r v', readLoop h tmp nbytes l fOffset buf v = .ok (r, v') ∧
        (v' = v ∨ ∃ x, ssufsLseek h nbytes v = .ok (x, v')) := by
  induction l generalizing fOffset buf with
  | nil => exact .inr ⟨_, v, rfl, .inl rfl⟩
  | cons j l ih =>
    rw [readLoop]
    by_cases touches : 0 ≤ fOffset ∧ fOffset < 64 ∧ tmp.directBlocks j ≠ -1
    · rw [if_pos touches]
      obtain ⟨b, held⟩ := valid j touches.2.2
      by_cases readable : v.Readable b
      · rw [Prog.bind_ok (readDataBlock_ok held readable)]
        dsimp only
        rw [Prog.ite_apply]
        split_ifs
        · right
          have seek := ssufsLseek_apply selected nbytes
          split_ifs at seek
          · rw [Prog.bind_ok seek]
            exact ⟨_, v, rfl, .inl rfl⟩
          · rw [Prog.bind_ok seek]
            exact ⟨_, _, rfl, .inr ⟨0, seek⟩⟩
        · exact ih _ _
      · exact .inl ⟨Prog.bind_error (readDataBlock_fails held readable), j, b, held, readable⟩
    · rw [if_neg touches]
      exact ih _ _

theorem ssufsRead_apply {h : Fin 20} {i : Fin 8}
    (selected : index 8 (v.fileHandles h).inodeNumber = some i) (nbytes : Int32) :
    ssufsRead h nbytes v =
      if (v.inode i).fileSize < (v.fileHandles h).offset + nbytes then .ok ((-1, []), v)
      else readLoop h (v.inode i) nbytes (List.finRange 4) (v.fileHandles h).offset.toInt [] v := by
  rw [ssufsRead, Prog.bind_ok (show Disk.fileHandleArray v = _ from rfl),
    Prog.bind_ok (readInode_apply selected v), Prog.ite_apply]
  rfl

theorem ssufsRead_cases {h : Fin 20} {i : Fin 8}
    (selected : index 8 (v.fileHandles h).inodeNumber = some i) (valid : (v.inode i).Valid)
    (nbytes : Int32) :
    (ssufsRead h nbytes v = .error .assertion ∧
      ∃ j b, (v.inode i).slot j = some b ∧ ¬ v.Readable b) ∨
      ∃ r v', ssufsRead h nbytes v = .ok (r, v') ∧
        (v' = v ∨ ∃ x, ssufsLseek h nbytes v = .ok (x, v')) := by
  rw [ssufsRead_apply selected]
  split_ifs
  · exact .inr ⟨_, v, rfl, .inl rfl⟩
  · exact readLoop_cases selected valid nbytes _ _ _

/-! ## Deleting files -/

theorem memsetPointer_idem (buf : Block) : memsetPointer (memsetPointer buf) = memsetPointer buf := by
  funext p
  by_cases low : p.val < 8 <;> simp [memsetPointer, low]

/-- The blocks after `ssufs_delete` has gone over the slots `l` of an inode. -/
def scrubbed (tmp : Inode) (l : List (Fin 4)) (v : Store) : Store :=
  { v with block := fun b =>
      if ∃ j ∈ l, tmp.slot j = some b then memsetPointer (v.block b) else v.block b }

theorem scrubSlot_empty {tmp : Inode} {j : Fin 4} (empty : tmp.directBlocks j = -1) (v : Store) :
    scrubSlot tmp () j v = .ok ((), v) := by
  rw [scrubSlot, if_neg (not_not.2 empty), Prog.pure_apply]

theorem scrubSlot_held {tmp : Inode} {j : Fin 4} {b : Fin 30} (held : tmp.slot j = some b)
    (readable : v.Readable b) :
    scrubSlot tmp () j v =
      .ok ((), { v with block := Function.update v.block b (memsetPointer (v.block b)) }) := by
  rw [scrubSlot, if_pos (Inode.ne_neg_one_of_slot held),
    Prog.bind_ok (readDataBlock_ok held readable), writeDataBlock_apply held, Store.putBlock,
    max_eq_left readable]

theorem scrub_apply {tmp : Inode} (valid : tmp.Valid) (l : List (Fin 4)) (v : Store)
    (readable : ∀ j ∈ l, ∀ b, tmp.slot j = some b → v.Readable b) :
    l.foldlM (scrubSlot tmp) () v = .ok ((), scrubbed tmp l v) := by
  induction l generalizing v with
  | nil => simp [scrubbed]
  | cons j l ih =>
    have later := fun j' member => readable j' (List.mem_cons_of_mem _ member)
    rw [List.foldlM_cons]
    by_cases empty : tmp.directBlocks j = -1
    · rw [Prog.bind_ok (scrubSlot_empty empty v), ih v later]
      simp only [scrubbed, List.exists_mem_cons_iff, Inode.slot_of_neg_one empty, reduceCtorEq,
        false_or]
    · obtain ⟨b, held⟩ := valid j empty
      rw [Prog.bind_ok (scrubSlot_held held (readable j List.mem_cons_self b held))]
      refine Eq.trans (ih _ later) ?_
      simp only [scrubbed, List.exists_mem_cons_iff, held, Option.some.injEq]
      congr 3
      funext c
      by_cases first : b = c
      · subst first
        by_cases again : ∃ j ∈ l, tmp.slot j = some b <;> simp [again, memsetPointer_idem]
      · rw [Function.update_of_ne (Ne.symm first)]
        simp only [first, false_or]

/-- A block past the end of the image stops `ssufs_delete`. -/
theorem scrub_fails {tmp : Inode} (valid : tmp.Valid) {l : List (Fin 4)} {j : Fin 4} {b : Fin 30}
    (member : j ∈ l) (held : tmp.slot j = some b) (v : Store) (short : ¬ v.Readable b) :
    l.foldlM (scrubSlot tmp) () v = .error .assertion := by
  induction l generalizing v with
  | nil => cases member
  | cons j' l ih =>
    rw [List.foldlM_cons]
    by_cases empty : tmp.directBlocks j' = -1
    · rw [Prog.bind_ok (scrubSlot_empty empty v)]
      refine ih ((List.mem_cons.1 member).resolve_left ?_) v short
      rintro rfl
      exact Inode.ne_neg_one_of_slot held empty
    · obtain ⟨b', held'⟩ := valid j' empty
      by_cases readable : v.Readable b'
      · rw [Prog.bind_ok (scrubSlot_held held' readable)]
        refine ih ((List.mem_cons.1 member).resolve_left ?_) _ short
        rintro rfl
        rw [held, Option.some.injEq] at held'
        exact short (held' ▸ readable)
      · refine Prog.bind_error ?_
        rw [scrubSlot, if_pos empty]
        exact Prog.bind_error (readDataBlock_fails held' readable)

/-- Different slots hold different blocks. -/
def Inode.Distinct (inode : Inode) : Prop :=
  ∀ j j' b, inode.slot j = some b → inode.slot j' = some b → j = j'

/-- A superblock after the blocks behind the slots `l` of an inode have been freed. -/
def Superblock.release (superblock : Superblock) (inode : Inode) (l : List (Fin 4)) : Superblock :=
  { superblock with datablockFreelist := fun b =>
      if ∃ j ∈ l, inode.slot j = some b then dataBlockFree else superblock.datablockFreelist b }

/-- An inode without the slots `l`. -/
def Inode.clear (inode : Inode) (l : List (Fin 4)) : Inode :=
  { inode with directBlocks := fun j => if j ∈ l then -1 else inode.directBlocks j }

/-- The states that differ from `v` in the superblock and in uninitialised memory. -/
def SameFiles (v v' : Store) : Prop :=
  v'.inode = v.inode ∧ v'.block = v.block ∧ v'.length = v.length ∧ v'.fileHandles = v.fileHandles

theorem Inode.Distinct.drop {inode : Inode} (distinct : inode.Distinct) (j : Fin 4) :
    (inode.setSlot j (-1)).Distinct := by
  intro k k' b first second
  rw [Inode.slot_drop] at first second
  split_ifs at first second
  exact distinct k k' b first second

theorem Inode.clear_drop (inode : Inode) (j : Fin 4) (l : List (Fin 4)) :
    (inode.setSlot j (-1)).clear l = inode.clear (j :: l) := by
  simp only [Inode.clear, Inode.setSlot, List.mem_cons, Inode.mk.injEq, true_and]
  funext j'
  by_cases later : j' ∈ l
  · simp [later]
  · by_cases same : j' = j
    · simp [same]
    · simp [same, later]

theorem freeSlot_empty {inode : Inode} {j : Fin 4} (empty : inode.directBlocks j = -1)
    (superblock : Superblock) (v : Store) :
    freeSlot (superblock, inode) j v = .ok ((superblock, inode.setSlot j (-1)), v) := by
  simp only [freeSlot, empty, ne_eq, not_true_eq_false, if_false, Prog.pure_apply, Inode.setSlot]

theorem freeSlot_held {inode : Inode} {j : Fin 4} {b : Fin 30} (held : inode.slot j = some b)
    {superblock : Superblock} (used : superblock.datablockFreelist b = dataBlockUsed) (v : Store) :
    freeSlot (superblock, inode) j v =
      .ok ((((v.putSuperblock superblock).setFlag b dataBlockFree).superblock, inode.setSlot j (-1)),
        (v.putSuperblock superblock).setFlag b dataBlockFree) := by
  have marked : (v.putSuperblock superblock).flag b = dataBlockUsed := used
  simp only [freeSlot, ne_eq, Inode.ne_neg_one_of_slot held, not_false_eq_true, if_true]
  rw [Prog.bind_ok (show Disk.writeSuperBlock superblock v = _ from rfl)]
  exact Prog.bind_ok (ssufsFreeDataBlock_apply held marked)

theorem freeSlots_apply (superblock : Superblock) (inode : Inode) (valid : inode.Valid)
    (distinct : inode.Distinct) {l : List (Fin 4)} (nodup : l.Nodup)
    (used : ∀ j ∈ l, ∀ b, inode.slot j = some b → superblock.datablockFreelist b = dataBlockUsed)
    (v : Store) :
    ∃ v', l.foldlM freeSlot (superblock, inode) v =
        .ok ((superblock.release inode l, inode.clear l), v') ∧ SameFiles v v' := by
  induction l generalizing inode superblock v with
  | nil => exact ⟨v, by simp [Superblock.release, Inode.clear], rfl, rfl, rfl, rfl⟩
  | cons j l ih =>
    obtain ⟨fresh, nodup⟩ := List.nodup_cons.1 nodup
    have apart : ∀ j' ∈ l, j' ≠ j := fun j' member same => fresh (same ▸ member)
    have kept : ∀ j' ∈ l, (inode.setSlot j (-1)).slot j' = inode.slot j' := fun j' member => by
      rw [Inode.slot_setSlot_of_ne (apart j' member)]
    have others (c : Fin 30) : (∃ j' ∈ l, (inode.setSlot j (-1)).slot j' = some c) ↔
        ∃ j' ∈ l, inode.slot j' = some c :=
      exists_congr fun j' => and_congr_right fun member => by rw [kept j' member]
    rw [List.foldlM_cons]
    by_cases empty : inode.directBlocks j = -1
    · rw [Prog.bind_ok (freeSlot_empty empty superblock v)]
      obtain ⟨v', runs, same⟩ := ih superblock _ (valid.drop j) (distinct.drop j) nodup
        (fun j' member b held => used j' (List.mem_cons_of_mem _ member) b
          (kept j' member ▸ held)) v
      refine ⟨v', runs.trans ?_, same⟩
      rw [Inode.clear_drop, Superblock.release, Superblock.release]
      simp only [others, List.exists_mem_cons_iff, Inode.slot_of_neg_one empty, reduceCtorEq,
        false_or]
    · obtain ⟨b, held⟩ := valid j empty
      rw [Prog.bind_ok (freeSlot_held held (used j List.mem_cons_self b held) v)]
      obtain ⟨v', runs, same⟩ := ih
        ((v.putSuperblock superblock).setFlag b dataBlockFree).superblock _ (valid.drop j)
        (distinct.drop j) nodup (fun j' member c held' => by
          rw [kept j' member] at held'
          have other : c ≠ b := fun clash =>
            apart j' member (distinct j' j b (clash ▸ held') held)
          change Function.update superblock.datablockFreelist b dataBlockFree c = _
          rw [Function.update_of_ne other]
          exact used j' (List.mem_cons_of_mem _ member) c held')
        ((v.putSuperblock superblock).setFlag b dataBlockFree)
      refine ⟨v', runs.trans ?_, same⟩
      rw [Inode.clear_drop, Superblock.release, Superblock.release]
      congr 4
      funext c
      change (if _ then dataBlockFree else
        Function.update superblock.datablockFreelist b dataBlockFree c) = _
      simp only [others, List.exists_mem_cons_iff, held, Option.some.injEq, Function.update_apply,
        eq_comm (a := c)]
      by_cases first : b = c <;> simp [first]

/-- What `ssufs_freeInode` leaves of a store. -/
structure Freed (v : Store) (i : Fin 8) (v' : Store) : Prop where
  flag : ∀ b, v'.flag b = if ∃ j, (v.inode i).slot j = some b then dataBlockFree else v.flag b
  inodeFlag : v'.inodeFlag = Function.update v.inodeFlag i inodeFree
  inode : v'.inode = Function.update v.inode i
    { v.inode i with status := 120, fileSize := 0, directBlocks := fun _ => -1 }
  block : v'.block = v.block
  length : v'.length = v.length
  fileHandles : v'.fileHandles = v.fileHandles

theorem ssufsFreeInode_apply {i : Fin 8} (valid : (v.inode i).Valid)
    (distinct : (v.inode i).Distinct) (inUse : v.inodeFlag i = inodeInUse)
    (used : ∀ j b, (v.inode i).slot j = some b → v.flag b = dataBlockUsed) :
    ∃ v', ssufsFreeInode (ofIndex i) v = .ok ((), v') ∧ Freed v i v' := by
  have selected := index_ofIndex (show 8 ≤ 2 ^ 31 by norm_num) i
  have small : (ofIndex i).toInt < 8 := by
    rw [toInt_ofIndex (by norm_num)]
    omega
  let tmp : Inode := { v.inode i with status := 120, fileSize := 0 }
  obtain ⟨v', runs, inode, block, length, handles⟩ := freeSlots_apply
    (v.setInodeFlag i inodeFree).superblock tmp valid distinct (List.nodup_finRange 4)
    (fun j _ => used j) v
  refine ⟨(v'.putSuperblock ((v.setInodeFlag i inodeFree).superblock.release tmp
    (List.finRange 4))).putInode i (tmp.clear (List.finRange 4)), ?_, ?_⟩
  · rw [ssufsFreeInode, assert, Prog.bind_ok (Prog.check_pass small v),
      Prog.bind_ok (show Disk.readSuperBlock v = _ from rfl),
      Prog.bind_ok (readInode_apply selected v), selected]
    refine (Prog.bind_ok (Prog.check_pass inUse v)).trans ?_
    refine (Prog.bind_ok runs).trans ?_
    refine (Prog.bind_ok (show Disk.writeSuperBlock _ v' = _ from rfl)).trans ?_
    exact writeInode_apply selected _ _
  · constructor
    · intro b
      change (if ∃ j ∈ List.finRange 4, (v.inode i).slot j = some b then _ else v.flag b) = _
      simp only [List.mem_finRange, true_and]
    · rfl
    · simp only [Store.putInode_inode, Store.putSuperblock_inode, inode, Inode.clear, tmp,
        List.mem_finRange, if_true]
    · exact block
    · exact length
    · exact handles

theorem ssufsDelete_absent {filename : CString} (absent : v.lookup filename = none) :
    ssufsDelete filename v = .ok ((), v) := by
  rw [ssufsDelete, Prog.bind_ok (openNamei_apply filename v), absent, Prog.ite_apply]
  rfl

/-- The start of `ssufs_delete` on a file that exists. -/
theorem ssufsDelete_present {filename : CString} {i : Fin 8} (here : v.lookup filename = some i) :
    ssufsDelete filename v =
      ((List.finRange 4).foldlM (scrubSlot (v.inode i)) () >>= fun _ =>
        ssufsFreeInode (ofIndex i)) v := by
  have selected := index_ofIndex (show 8 ≤ 2 ^ 31 by norm_num) i
  rw [ssufsDelete, Prog.bind_ok (openNamei_apply filename v), here, Prog.ite_apply, found,
    if_neg (ofIndex_ne_neg_one (by norm_num) i), Prog.bind_ok (readInode_apply selected v)]

/-- `ssufs_delete` clears the start of the blocks of the file and frees them and the inode. -/
theorem ssufsDelete_apply {filename : CString} {i : Fin 8} (here : v.lookup filename = some i)
    (valid : (v.inode i).Valid) (distinct : (v.inode i).Distinct)
    (used : ∀ j b, (v.inode i).slot j = some b → v.flag b = dataBlockUsed)
    (readable : ∀ j b, (v.inode i).slot j = some b → v.Readable b) :
    ∃ v', ssufsDelete filename v = .ok ((), v') ∧
      Freed (scrubbed (v.inode i) (List.finRange 4) v) i v' := by
  rw [ssufsDelete_present here, Prog.bind_ok (scrub_apply valid _ v fun j _ => readable j)]
  exact ssufsFreeInode_apply (v := scrubbed (v.inode i) (List.finRange 4) v) valid distinct
    (lookup_eq_some here).1 used

theorem ssufsDelete_fails {filename : CString} {i : Fin 8} (here : v.lookup filename = some i)
    (valid : (v.inode i).Valid) {j : Fin 4} {b : Fin 30} (held : (v.inode i).slot j = some b)
    (short : ¬ v.Readable b) : ssufsDelete filename v = .error .assertion := by
  rw [ssufsDelete_present here]
  exact Prog.bind_error (scrub_fails valid (List.mem_finRange j) held v short)

end SsuOs.Ssufs
