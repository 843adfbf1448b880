import SsuOs.Base.Run
import SsuOs.Ssufs.NewFiles
import SsuOs.Ssufs.WriteLoop

/-!
# Who owns a data block

Every data block marked used should stand in exactly one slot of one file, and every slot of a file
should be empty or hold such a block (`Owned`). All calls of a well-behaved user keep this, except a
write that runs out of blocks and takes back the wrong ones: it frees every block it filled but the
one at `rollback_index`, whether the block is new or was part of the file before.
`owned_iff_keepsBlocks` says exactly which writes keep it.
-/

namespace SsuOs.Ssufs

open ByteFile

/-- Block `b` stands in slot `j` of the file with inode `i`. -/
def Holder (v : Store) (b : Fin 30) (i : Fin 8) (j : Fin 4) : Prop :=
  v.inodeFlag i = inodeInUse ∧ (v.inode i).slot j = some b

/-- The block-ownership invariant. -/
structure Owned (v : Store) : Prop where
  slots : ∀ i, v.inodeFlag i = inodeInUse → ∀ j, (v.inode i).directBlocks j = -1 ∨
    ∃ b, (v.inode i).slot j = some b ∧ v.flag b = dataBlockUsed
  owner : ∀ b, v.flag b = dataBlockUsed → ∃! ij : Fin 8 × Fin 4, Holder v b ij.1 ij.2

namespace Owned

variable {v v' : Store} {b : Fin 30} {i i' : Fin 8} {j j' : Fin 4}

theorem used (owned : Owned v) (holder : Holder v b i j) : v.flag b = dataBlockUsed := by
  rcases owned.slots i holder.1 j with empty | ⟨c, held, used⟩
  · exact absurd empty (Inode.ne_neg_one_of_slot holder.2)
  · rwa [Option.some.inj (holder.2.symm.trans held)]

theorem unique (owned : Owned v) (holder : Holder v b i j) (holder' : Holder v b i' j') :
    i = i' ∧ j = j' := by
  have same : ((i, j) : Fin 8 × Fin 4) = (i', j') :=
    (owned.owner b (owned.used holder)).unique holder holder'
  exact Prod.mk.inj same

theorem holder (owned : Owned v) (used : v.flag b = dataBlockUsed) : ∃ i j, Holder v b i j := by
  obtain ⟨ij, holder, -⟩ := owned.owner b used
  exact ⟨ij.1, ij.2, holder⟩

theorem valid (owned : Owned v) (inUse : v.inodeFlag i = inodeInUse) : (v.inode i).Valid := by
  intro j nonempty
  obtain ⟨b, held, -⟩ := (owned.slots i inUse j).resolve_left nonempty
  exact ⟨b, held⟩

theorem distinct (owned : Owned v) (inUse : v.inodeFlag i = inodeInUse) :
    (v.inode i).Distinct :=
  fun _ _ _ held held' => (owned.unique ⟨inUse, held⟩ ⟨inUse, held'⟩).2

/-- Ownership from its parts: files hold used blocks, no block twice, and every used block. -/
theorem of_holders (valid : ∀ i, v.inodeFlag i = inodeInUse → (v.inode i).Valid)
    (used : ∀ b i j, Holder v b i j → v.flag b = dataBlockUsed)
    (unique : ∀ b i j i' j', Holder v b i j → Holder v b i' j' → i = i' ∧ j = j')
    (holder : ∀ b, v.flag b = dataBlockUsed → ∃ i j, Holder v b i j) : Owned v where
  slots i inUse j := by
    by_cases empty : (v.inode i).directBlocks j = -1
    · exact .inl empty
    · obtain ⟨b, held⟩ := valid i inUse j empty
      exact .inr ⟨b, held, used b i j ⟨inUse, held⟩⟩
  owner b marked := by
    obtain ⟨i, j, held⟩ := holder b marked
    refine ⟨(i, j), held, fun ij held' => ?_⟩
    obtain ⟨rfl, rfl⟩ := unique b _ _ _ _ held held'
    rfl

/-- Ownership is kept if blocks have the same holders and the same marks. -/
theorem of_same_holders (owned : Owned v)
    (valid : ∀ i, v'.inodeFlag i = inodeInUse → (v'.inode i).Valid) (flag : v'.flag = v.flag)
    (holders : ∀ b i j, Holder v' b i j ↔ Holder v b i j) : Owned v' := by
  refine of_holders valid (fun b i j holder => ?_) (fun b i₁ j₁ i₂ j₂ first second => ?_)
    (fun b used => ?_)
  · rw [flag]
    exact owned.used ((holders b i j).1 holder)
  · exact owned.unique ((holders b i₁ j₁).1 first) ((holders b i₂ j₂).1 second)
  · rw [flag] at used
    obtain ⟨i, j, holder⟩ := owned.holder used
    exact ⟨i, j, (holders b i j).2 holder⟩

/-- Ownership depends on the free lists and the inodes only. -/
theorem congr (owned : Owned v) (flag : v'.flag = v.flag) (inodeFlag : v'.inodeFlag = v.inodeFlag)
    (inode : v'.inode = v.inode) : Owned v' := by
  refine owned.of_same_holders (fun i inUse => ?_) flag fun b i j => ?_
  · rw [inodeFlag] at inUse
    rw [inode]
    exact owned.valid inUse
  · rw [Holder, Holder, inodeFlag, inode]

end Owned

/-! ## The invariant of runs -/

/-- What holds in every state that a well-behaved user reaches through calls that keep ownership. -/
structure Consistent (v : Store) : Prop where
  owned : Owned v
  size : ∀ i, v.inodeFlag i = inodeInUse →
    0 ≤ (v.inode i).fileSize.toInt ∧ (v.inode i).fileSize.toInt ≤ 256
  unused : ∀ i, v.inodeFlag i = inodeFree →
    (v.inode i).fileSize = 0 ∧ ∀ j, (v.inode i).directBlocks j = -1
  handle : ∀ h, (v.fileHandles h).inodeNumber = -1 ∨
    ∃ i, index 8 (v.fileHandles h).inodeNumber = some i ∧ v.inodeFlag i = inodeInUse ∧
      0 ≤ (v.fileHandles h).offset.toInt ∧
      (v.fileHandles h).offset.toInt ≤ (v.inode i).fileSize.toInt

/-- The handle is open. -/
def Opened (v : Store) (h : Fin 20) : Prop := (v.fileHandles h).inodeNumber ≠ -1

/-- The calls a well-behaved user makes: names of at most 7 characters, open handles, positive
counts without overflow, no deletion of a file that is open. -/
def WellBehaved (v : Store) : Call → Prop
  | .create filename => filename.bytes.length ≤ 7
  | .openFile filename => filename.bytes.length ≤ 7
  | .write h _ nbytes => Opened v h ∧ 1 ≤ nbytes.toInt ∧
      ∀ i, index 8 (v.fileHandles h).inodeNumber = some i →
        (v.inode i).fileSize.toInt + nbytes.toInt < 2 ^ 31
  | .read h nbytes => Opened v h ∧ 1 ≤ nbytes.toInt
  | .lseek h _ => Opened v h
  | .close h => Opened v h
  | .delete filename => filename.bytes.length ≤ 7 ∧ ∀ i, v.lookup filename = some i →
      ∀ h, index 8 (v.fileHandles h).inodeNumber ≠ some i

/-- The write takes back the right blocks if it runs out of them: of the slots it has filled, it
restores those that had a block before and frees the others. -/
def KeepsBlocks (v : Store) : Call → Prop
  | .write h _ nbytes => ∀ i m, index 8 (v.fileHandles h).inodeNumber = some i →
      (v.inode i).fileSize.toInt + nbytes.toInt ≤ 256 →
      RunsOut v (v.inode i) (v.fileHandles h).offset.toInt.toNat nbytes.toInt.toNat m →
      ∀ j : Fin 4, (v.fileHandles h).offset.toInt.toNat / 64 ≤ j → j < m →
        (Restores (v.fileHandles h).offset.toInt.toNat v.rollbackIndex j ↔
          (v.inode i).directBlocks j ≠ -1)
  | _ => True

theorem consistent_fresh (junk : ℕ → Byte) : Consistent (Store.fresh junk) := by
  have unusedInode (i : Fin 8) : (Store.fresh junk).inodeFlag i ≠ inodeInUse := by
    change inodeFree ≠ inodeInUse
    decide
  constructor
  · refine .of_holders (fun i inUse => absurd inUse (unusedInode i))
      (fun b i j holder => absurd holder.1 (unusedInode i))
      (fun b i j i' j' holder _ => absurd holder.1 (unusedInode i)) (fun b used => ?_)
    exact absurd used.symm dataBlockUsed_ne_free
  · exact fun i inUse => absurd inUse (unusedInode i)
  · exact fun i _ => ⟨rfl, fun _ => rfl⟩
  · exact fun h => .inl rfl

namespace Consistent

variable {v v' : Store}

/-- The state may also differ in block contents and in uninitialised memory. -/
theorem congr (consistent : Consistent v) (flag : v'.flag = v.flag)
    (inodeFlag : v'.inodeFlag = v.inodeFlag) (inode : v'.inode = v.inode)
    (fileHandles : v'.fileHandles = v.fileHandles) : Consistent v' := by
  refine ⟨consistent.owned.congr flag inodeFlag inode, ?_, ?_, ?_⟩
  · rw [inodeFlag, inode]
    exact consistent.size
  · rw [inodeFlag, inode]
    exact consistent.unused
  · rw [inodeFlag, inode, fileHandles]
    exact consistent.handle

theorem putHandle (consistent : Consistent v) (h : Fin 20) {handle : FileHandle}
    (fine : handle.inodeNumber = -1 ∨ ∃ i, index 8 handle.inodeNumber = some i ∧
      v.inodeFlag i = inodeInUse ∧ 0 ≤ handle.offset.toInt ∧
      handle.offset.toInt ≤ (v.inode i).fileSize.toInt) : Consistent (v.putHandle h handle) := by
  refine ⟨consistent.owned.congr rfl rfl rfl, consistent.size, consistent.unused, fun h' => ?_⟩
  rw [Store.putHandle_fileHandles, Function.update_apply]
  split_ifs
  · exact fine
  · exact consistent.handle h'

/-- The file behind an open handle. -/
theorem file (consistent : Consistent v) {h : Fin 20} (opened : Opened v h) :
    ∃ i, index 8 (v.fileHandles h).inodeNumber = some i ∧ v.inodeFlag i = inodeInUse ∧
      0 ≤ (v.fileHandles h).offset.toInt ∧
      (v.fileHandles h).offset.toInt ≤ (v.inode i).fileSize.toInt :=
  (consistent.handle h).resolve_left opened

/-- A new file in an unused inode. -/
theorem create (consistent : Consistent v) {filename : CString}
    (short : filename.bytes.length ≤ 7) {i : Fin 8} (free : v.firstFreeInode = some i) :
    Consistent (v.created i filename) := by
  obtain ⟨empty, bare⟩ := consistent.unused i (firstFreeInode_eq_some free)
  have slots := Store.created_directBlocks (v := v) (i := i) (short.trans (by norm_num))
  have other {i' : Fin 8} (inUse : v.inodeFlag i' = inodeInUse) : i' ≠ i := by
    rintro rfl
    exact inodeInUse_ne_free (inUse.symm.trans (firstFreeInode_eq_some free))
  refine ⟨consistent.owned.of_same_holders (fun i' inUse => ?_) rfl fun b i' j => ?_,
    fun i' inUse => ?_, fun i' unused => ?_, fun h => ?_⟩
  · rw [Store.created_inodeFlag] at inUse
    split_ifs at inUse with same
    · subst same
      intro j nonempty
      rw [slots] at nonempty
      exact absurd (bare j) nonempty
    · rw [Store.created_inode_of_ne same]
      exact consistent.owned.valid inUse
  · rw [Holder, Holder, Store.created_inodeFlag, Store.created_slot (by omega)]
    split_ifs with same
    · subst same
      constructor
      · rintro ⟨-, held⟩
        exact absurd (bare j) (Inode.ne_neg_one_of_slot held)
      · rintro ⟨inUse, -⟩
        exact absurd rfl (other inUse)
    · rfl
  · rw [Store.created_inodeFlag] at inUse
    rw [Store.created_fileSize short]
    split_ifs at inUse with same
    · rw [same, empty]
      decide
    · exact consistent.size i' inUse
  · rw [Store.created_inodeFlag] at unused
    rw [Store.created_fileSize short, slots]
    split_ifs at unused
    · exact absurd unused inodeInUse_ne_free
    · exact consistent.unused i' unused
  · refine (consistent.handle h).imp_right fun ⟨i', selected, inUse, bounds⟩ => ?_
    refine ⟨i', selected, ?_, ?_⟩
    · rw [Store.created_inodeFlag, if_neg (other inUse)]
      exact inUse
    · rw [Store.created_fileSize short]
      exact bounds

theorem delete (consistent : Consistent v) {i : Fin 8} (present : v.inodeFlag i = inodeInUse)
    (closed : ∀ h, index 8 (v.fileHandles h).inodeNumber ≠ some i) (freed : Freed v i v') :
    Consistent v' := by
  have flags (i' : Fin 8) : v'.inodeFlag i' = if i' = i then inodeFree else v.inodeFlag i' := by
    rw [freed.inodeFlag, Function.update_apply]
  have inodes {i' : Fin 8} (other : i' ≠ i) : v'.inode i' = v.inode i' := by
    rw [freed.inode, Function.update_of_ne other]
  have inUse_iff (i' : Fin 8) :
      v'.inodeFlag i' = inodeInUse ↔ i' ≠ i ∧ v.inodeFlag i' = inodeInUse := by
    rw [flags]
    split_ifs with same
    · simp [same, Ne.symm inodeInUse_ne_free]
    · simp [same]
  have holders (b : Fin 30) (i' : Fin 8) (j : Fin 4) :
      Holder v' b i' j ↔ i' ≠ i ∧ Holder v b i' j := by
    rw [Holder, Holder, inUse_iff, and_assoc]
    exact and_congr_right fun other => by rw [inodes other]
  refine ⟨.of_holders (fun i' inUse => ?_) (fun b i' j holder => ?_) ?_ (fun b used => ?_),
    fun i' inUse => ?_, fun i' unused => ?_, fun h => ?_⟩
  · obtain ⟨other, inUse⟩ := (inUse_iff i').1 inUse
    rw [inodes other]
    exact consistent.owned.valid inUse
  · obtain ⟨other, holder⟩ := (holders b i' j).1 holder
    rw [freed.flag, if_neg, consistent.owned.used holder]
    rintro ⟨j', held⟩
    exact other (consistent.owned.unique holder ⟨present, held⟩).1
  · intro b i₁ j₁ i₂ j₂ first second
    exact consistent.owned.unique ((holders _ _ _).1 first).2 ((holders _ _ _).1 second).2
  · rw [freed.flag] at used
    split_ifs at used with held
    · exact absurd used.symm dataBlockUsed_ne_free
    · obtain ⟨i', j, holder⟩ := consistent.owned.holder used
      refine ⟨i', j, (holders b i' j).2 ⟨?_, holder⟩⟩
      rintro rfl
      exact held ⟨j, holder.2⟩
  · obtain ⟨other, inUse⟩ := (inUse_iff i').1 inUse
    rw [inodes other]
    exact consistent.size i' inUse
  · by_cases same : i' = i
    · rw [same, freed.inode, Function.update_self]
      exact ⟨rfl, fun _ => rfl⟩
    · rw [flags, if_neg same] at unused
      rw [inodes same]
      exact consistent.unused i' unused
  · rw [freed.fileHandles]
    refine (consistent.handle h).imp_right fun ⟨i', selected, inUse, bounds⟩ => ?_
    have other : i' ≠ i := by
      rintro rfl
      exact closed h selected
    exact ⟨i', selected, (inUse_iff i').2 ⟨other, inUse⟩, by rwa [inodes other]⟩

theorem lseek (consistent : Consistent v) {h : Fin 20} (opened : Opened v h) {nseek x : Int32}
    (seek : ssufsLseek h nseek v = .ok (x, v')) : Consistent v' := by
  obtain ⟨i, selected, inUse, -⟩ := consistent.file opened
  rw [ssufsLseek_apply selected] at seek
  split_ifs at seek with bad
  · cases seek
    exact consistent
  · cases seek
    simp only [not_or, Int32.lt_iff_toInt_lt, not_lt] at bad
    exact consistent.putHandle h (.inr ⟨i, selected, inUse, bad.2.1, bad.2.2⟩)

end Consistent

/-! ## Writing -/

section Write

variable {v v' : Store} {q : Request v} {tmp : Inode}

/-- The blocks of the request's inode after a completed write are marked used. -/
theorem Request.Completed.used {t : Block} (complete : q.Completed t tmp v') {j : Fin 4}
    {b : Fin 30} (held : tmp.slot j = some b) : v'.flag b = dataBlockUsed :=
  complete.plan.used complete.taken complete.flag held

/-- A block in use before a write is not given to an empty slot. -/
theorem Request.Plan.old (plan : q.Plan q.past tmp) {b : Fin 30} (used : v.flag b = dataBlockUsed)
    {j : Fin 4} (empty : q.inode.directBlocks j = -1) : tmp.slot j ≠ some b := fun held =>
  dataBlockUsed_ne_free (used.symm.trans (plan.fresh_of_slot empty held).2)

namespace Request.Completed

variable {t : Block} {b : Fin 30} {i : Fin 8} {j : Fin 4}

theorem inode_self (complete : q.Completed t tmp v') :
    v'.inode q.i = { tmp with fileSize := tmp.fileSize + q.nbytes } := by
  rw [complete.inode, Function.update_self]

theorem inode_other (complete : q.Completed t tmp v') (other : i ≠ q.i) :
    v'.inode i = v.inode i := by
  rw [complete.inode, Function.update_of_ne other]

/-- The holders of a block that was in use are the same as before. -/
theorem holder_old (complete : q.Completed t tmp v') (used : v.flag b = dataBlockUsed) :
    Holder v' b i j ↔ Holder v b i j := by
  rw [Holder, Holder, complete.inodeFlag]
  refine and_congr_right fun _ => ?_
  by_cases same : i = q.i
  · rw [same, complete.inode_self]
    refine ⟨fun held => ?_, complete.plan.slot_kept⟩
    by_cases empty : q.inode.directBlocks j = -1
    · exact absurd held (complete.plan.old used empty)
    · exact complete.plan.slot_old empty held
  · rw [complete.inode_other same]

/-- A block that was not in use can only be held by the file written to. -/
theorem holder_new (complete : q.Completed t tmp v') (owned : Owned v)
    (unused : v.flag b ≠ dataBlockUsed) (holder : Holder v' b i j) :
    i = q.i ∧ tmp.slot j = some b := by
  by_cases same : i = q.i
  · have held := holder.2
    rw [same, complete.inode_self] at held
    exact ⟨same, held⟩
  · rw [Holder, complete.inodeFlag, complete.inode_other same] at holder
    exact absurd (owned.used holder) unused

theorem owned (complete : q.Completed t tmp v') (owned : Owned v)
    (inUse : v.inodeFlag q.i = inodeInUse) : Owned v' := by
  have plan := complete.plan
  refine .of_holders (fun i inUse' => ?_) (fun b i j holder => ?_)
    (fun b i j i' j' first second => ?_) (fun b used => ?_)
  · by_cases same : i = q.i
    · rw [same, complete.inode_self]
      exact plan.valid
    · rw [complete.inodeFlag] at inUse'
      rw [complete.inode_other same]
      exact owned.valid inUse'
  · by_cases used : v.flag b = dataBlockUsed
    · rw [complete.flag b fun j empty => plan.old used empty, used]
    · exact complete.used (complete.holder_new owned used holder).2
  · by_cases used : v.flag b = dataBlockUsed
    · exact owned.unique ((complete.holder_old used).1 first) ((complete.holder_old used).1 second)
    · obtain ⟨rfl, held⟩ := complete.holder_new owned used first
      obtain ⟨rfl, held'⟩ := complete.holder_new owned used second
      exact ⟨rfl, plan.distinct j j' b held held'⟩
  · by_cases old : v.flag b = dataBlockUsed
    · obtain ⟨i, j, holder⟩ := owned.holder old
      exact ⟨i, j, (complete.holder_old old).2 holder⟩
    · by_contra unheld
      refine old (used ▸ (complete.flag b fun j _ held => unheld ⟨q.i, j, ?_, ?_⟩).symm)
      · rw [complete.inodeFlag]
        exact inUse
      · rw [complete.inode_self]
        exact held

/-- A write that completes keeps all invariants. -/
theorem consistent (complete : q.Completed t tmp v') (consistent : Consistent v)
    (inUse : v.inodeFlag q.i = inodeInUse) : Consistent v' := by
  have within := q.within
  have fits := q.fits
  have size : (v'.inode q.i).fileSize.toInt = (q.f + q.n : ℕ) := by
    rw [complete.inode_self]
    exact complete.plan.grown
  refine ⟨complete.owned consistent.owned inUse, fun i inUse' => ?_, fun i unused => ?_,
    fun h => ?_⟩
  · by_cases same : i = q.i
    · rw [same, size]
      omega
    · rw [complete.inodeFlag] at inUse'
      rw [complete.inode_other same]
      exact consistent.size i inUse'
  · rw [complete.inodeFlag] at unused
    have other : i ≠ q.i := by
      rintro rfl
      exact inodeInUse_ne_free (inUse.symm.trans unused)
    rw [complete.inode_other other]
    exact consistent.unused i unused
  · rw [complete.fileHandles, complete.inodeFlag, Function.update_apply]
    split_ifs with same
    · refine .inr ⟨q.i, q.opened, inUse, ?_, ?_⟩
      · rw [q.moved]
        omega
      · rw [size, q.moved]
        omega
    · refine (consistent.handle h).imp_right fun ⟨i, selected, inUse', low, high⟩ =>
        ⟨i, selected, inUse', low, ?_⟩
      by_cases file : i = q.i
      · rw [file, q.size] at high
        rw [file, size]
        omega
      · rw [complete.inode_other file]
        exact high

end Request.Completed

section RolledBack

variable {saved : Block} {x : Int32} {m : Fin 4}

/-- If the same blocks are in use after a write has been taken back, it has restored the slots that
had a block and freed the others. -/
theorem Request.RolledBack.restores_iff (back : q.RolledBack saved x m tmp v')
    (same : ∀ b, v'.flag b = dataBlockUsed ↔ v.flag b = dataBlockUsed) {j : Fin 4}
    (touched : q.Touched m j) : Restores q.o x j ↔ q.inode.directBlocks j ≠ -1 := by
  obtain ⟨b, held⟩ := back.plan.held touched
  have flag := back.flag j b touched held
  constructor
  · intro restores empty
    rw [if_pos restores, same, (back.plan.fresh_of_slot empty held).2] at flag
    exact dataBlockUsed_ne_free flag.symm
  · intro nonempty
    by_contra frees
    have used := q.used j b (back.plan.slot_old nonempty held)
    rw [if_neg frees, (same b).2 used] at flag
    exact dataBlockUsed_ne_free flag

theorem Request.RolledBack.flag_eq (back : q.RolledBack saved x m tmp v')
    (right : ∀ j, q.Touched m j → (Restores q.o x j ↔ q.inode.directBlocks j ≠ -1)) :
    v'.flag = v.flag := by
  funext b
  by_cases touched : ∃ j, q.Touched m j ∧ tmp.slot j = some b
  · obtain ⟨j, touched, held⟩ := touched
    rw [back.flag j b touched held, if_congr (right j touched) rfl rfl]
    split_ifs with nonempty
    · exact (q.used j b (back.plan.slot_old nonempty held)).symm
    · exact (back.plan.fresh_of_slot (not_not.1 nonempty) held).2.symm
  · exact back.flag_other b fun j here held => touched ⟨j, here, held⟩

/-- A write that is taken back keeps ownership exactly when it restores the slots that had a block
and frees the others. -/
theorem Request.RolledBack.owned_iff (back : q.RolledBack saved x m tmp v') (owned : Owned v) :
    Owned v' ↔ ∀ j, q.Touched m j → (Restores q.o x j ↔ q.inode.directBlocks j ≠ -1) := by
  constructor
  · intro owned' j
    -- a block is in use exactly if it has a holder, and the inodes are the same
    have holders {b : Fin 30} {i : Fin 8} {k : Fin 4} : Holder v' b i k ↔ Holder v b i k := by
      rw [Holder, Holder, back.inodeFlag, back.inode]
    refine back.restores_iff fun b => ⟨fun used => ?_, fun used => ?_⟩
    · obtain ⟨i, k, holder⟩ := owned'.holder used
      exact owned.used (holders.1 holder)
    · obtain ⟨i, k, holder⟩ := owned.holder used
      exact owned'.used (holders.2 holder)
  · exact fun right => owned.congr (back.flag_eq right) back.inodeFlag back.inode

end RolledBack

/-- The request that a write within the size limit makes. -/
theorem Owned.request {h : Fin 20} {nbytes : Int32} {i : Fin 8} (owned : Owned v)
    (buf : ℕ → Byte) (selected : index 8 (v.fileHandles h).inodeNumber = some i)
    (inUse : v.inodeFlag i = inodeInUse) (low : 0 ≤ (v.fileHandles h).offset.toInt)
    (high : (v.fileHandles h).offset.toInt ≤ (v.inode i).fileSize.toInt)
    (positive : 1 ≤ nbytes.toInt) (fits : (v.inode i).fileSize.toInt + nbytes.toInt ≤ 256) :
    ∃ q : Request v, q.fileHandle = h ∧ q.buf = buf ∧ q.nbytes = nbytes ∧ q.i = i :=
  ⟨{ fileHandle := h
     buf := buf
     nbytes := nbytes
     i := i
     o := (v.fileHandles h).offset.toInt.toNat
     f := (v.inode i).fileSize.toInt.toNat
     n := nbytes.toInt.toNat
     opened := selected
     offset := by omega
     size := by omega
     count := by omega
     positive := by omega
     within := by omega
     fits := by omega
     valid := owned.valid inUse
     distinct := owned.distinct inUse
     used := fun j b held => owned.used ⟨inUse, held⟩ }, rfl, rfl, rfl, rfl⟩

/-- The condition on writes, for a request. -/
theorem Request.keepsBlocks_iff (q : Request v) :
    KeepsBlocks v (.write q.fileHandle q.buf q.nbytes) ↔
      ∀ m, RunsOut v q.inode q.o q.n m → ∀ j, q.Touched m j →
        (Restores q.o v.rollbackIndex j ↔ q.inode.directBlocks j ≠ -1) := by
  have fits := q.fits
  simp only [KeepsBlocks, q.offset, q.count, Int.toNat_natCast]
  constructor
  · intro keeps m out j touched
    exact keeps q.i m q.opened (by rw [q.size]; omega) out j touched.1 touched.2
  · intro right i m selected _ out j after before
    obtain rfl : q.i = i := Option.some.inj (q.opened.symm.trans selected)
    exact right m out j ⟨after, before⟩

/-- What a well-behaved write does to ownership. -/
theorem write_cases {h : Fin 20} {buf : ℕ → Byte} {nbytes : Int32} (consistent : Consistent v)
    (behaved : WellBehaved v (.write h buf nbytes)) :
    (∃ e, ssufsWrite h buf nbytes v = .error e ∧ e ≠ .outsideRecords) ∨
      ∃ r v', ssufsWrite h buf nbytes v = .ok (r, v') ∧
        (Owned v' ↔ KeepsBlocks v (.write h buf nbytes)) ∧ (Owned v' → Consistent v') := by
  obtain ⟨opened, positive, noOverflow⟩ := behaved
  obtain ⟨i, selected, inUse, low, high⟩ := consistent.file opened
  have bounded := noOverflow i selected
  by_cases fits : (v.inode i).fileSize.toInt + nbytes.toInt ≤ 256
  · obtain ⟨q, rfl, rfl, rfl, rfl⟩ :=
      consistent.owned.request buf selected inUse low high positive fits
    have keeps := q.keepsBlocks_iff
    have outcome := ssufsWrite_cases q
    generalize ssufsWrite q.fileHandle q.buf q.nbytes v = result at outcome
    cases outcome with
    | completed _ complete =>
      have kept := complete.consistent consistent inUse
      exact .inr ⟨_, _, rfl, iff_of_true kept.owned
        (keeps.2 fun m out => absurd out (complete.not_runsOut m)), fun _ => kept⟩
    | @rolledBack m _ _ _ back =>
      refine .inr ⟨_, _, rfl, ?_, fun owned' => ?_⟩
      · rw [back.owned_iff consistent.owned, keeps]
        refine ⟨fun right m' out => ?_, fun right => right m back.runsOut⟩
        obtain rfl := le_antisymm (out.le back.runsOut) (back.runsOut.le out)
        exact right
      · refine ⟨owned', ?_, ?_, ?_⟩
        · rw [back.inodeFlag, back.inode]
          exact consistent.size
        · rw [back.inodeFlag, back.inode]
          exact consistent.unused
        · rw [back.inodeFlag, back.inode, back.fileHandles]
          exact consistent.handle
    | unreadable _ _ => exact .inl ⟨_, rfl, by decide⟩
    | overruns _ _ _ => exact .inl ⟨_, rfl, by decide⟩
  · obtain ⟨junk, refused⟩ :=
      ssufsWrite_refused selected buf (low.trans high) (not_le.1 fits) bounded
    have kept : Consistent { v with junk := junk } := consistent.congr rfl rfl rfl rfl
    refine .inr ⟨-1, _, refused, iff_of_true kept.owned fun i' m selected' fits' => ?_, fun _ => kept⟩
    obtain rfl : i = i' := Option.some.inj (selected.symm.trans selected')
    exact absurd fits' fits

end Write

/-! ## Runs -/

/-- Every call of a well-behaved user finds its records. It stops there or returns, and says exactly
when it keeps ownership. -/
theorem exec_cases {v : Store} {call : Call} (consistent : Consistent v)
    (behaved : WellBehaved v call) :
    (∃ e, call.exec v = .error e ∧ e ≠ .outsideRecords) ∨
      ∃ r v', call.exec v = .ok (r, v') ∧ (Owned v' ↔ KeepsBlocks v call) ∧
        (Owned v' → Consistent v') := by
  have keeps {r : Reply} {v' : Store} (runs : call.exec v = .ok (r, v'))
      (kept : Consistent v') (always : KeepsBlocks v call) :
      ∃ r v', call.exec v = .ok (r, v') ∧ (Owned v' ↔ KeepsBlocks v call) ∧
        (Owned v' → Consistent v') :=
    ⟨r, v', runs, iff_of_true kept.owned always, fun _ => kept⟩
  cases call with
  | create filename =>
    right
    rcases ssufsCreate_cases filename v with ⟨-, refused⟩ | ⟨i, -, free, created⟩
    · exact keeps (Prog.bind_ok refused) consistent trivial
    · exact keeps (Prog.bind_ok created) (consistent.create behaved free) trivial
  | openFile filename =>
    right
    rcases ssufsOpen_cases filename v with refused | ⟨i, h, here, closed, opened⟩
    · exact keeps (Prog.bind_ok refused) consistent trivial
    · obtain ⟨inUse, -⟩ := lookup_eq_some here
      refine keeps (Prog.bind_ok opened) (consistent.putHandle h (.inr ⟨i, ?_, inUse, le_rfl, ?_⟩))
        trivial
      · exact index_ofIndex (by norm_num) i
      · exact (consistent.size i inUse).1
  | write h buf nbytes =>
    rcases write_cases consistent behaved with ⟨e, fails, found⟩ | ⟨r, v', runs, cases⟩
    · exact .inl ⟨e, Prog.bind_error fails, found⟩
    · exact .inr ⟨_, v', Prog.bind_ok runs, cases⟩
  | read h nbytes =>
    obtain ⟨i, selected, inUse, -⟩ := consistent.file behaved.1
    rcases ssufsRead_cases selected (consistent.owned.valid inUse) nbytes with
      ⟨fails, -⟩ | ⟨r, v', runs, rfl | ⟨x, seek⟩⟩
    · exact .inl ⟨_, Prog.bind_error fails, by decide⟩
    · exact .inr (keeps (Prog.bind_ok runs) consistent trivial)
    · exact .inr (keeps (Prog.bind_ok runs) (consistent.lseek behaved.1 seek) trivial)
  | lseek h nseek =>
    obtain ⟨i, selected, -⟩ := consistent.file behaved
    have seek := ssufsLseek_apply selected nseek
    right
    split_ifs at seek
    · exact keeps (Prog.bind_ok seek) consistent trivial
    · exact keeps (Prog.bind_ok seek) (consistent.lseek behaved seek) trivial
  | close h => exact .inr (keeps rfl (consistent.putHandle h (.inl rfl)) trivial)
  | delete filename =>
    rcases here : v.lookup filename with _ | i
    · exact .inr (keeps (Prog.bind_ok (ssufsDelete_absent here)) consistent trivial)
    · obtain ⟨inUse, -⟩ := lookup_eq_some here
      have valid := consistent.owned.valid inUse
      by_cases readable : ∀ j b, (v.inode i).slot j = some b → v.Readable b
      · obtain ⟨v', runs, freed⟩ := ssufsDelete_apply here valid (consistent.owned.distinct inUse)
          (fun j b held => consistent.owned.used ⟨inUse, held⟩) readable
        have scrubs : Consistent (scrubbed (v.inode i) (List.finRange 4) v) :=
          consistent.congr rfl rfl rfl rfl
        exact .inr (keeps (Prog.bind_ok runs)
          (scrubs.delete inUse (fun h => behaved.2 i here h) freed) trivial)
      · simp only [not_forall] at readable
        obtain ⟨j, b, held, short⟩ := readable
        exact .inl ⟨_, Prog.bind_error (ssufsDelete_fails here valid held short), by decide⟩

/-- A call that returns, on the disk image, by a user who makes `allowed` calls only. -/
def UserStep (allowed : Store → Call → Prop) (s : Machine) (e : Call × Reply) (s' : Machine) :
    Prop :=
  allowed s.store e.1 ∧ e.1.exec s = .ok (e.2, s')

/-- What holds of the image along a run. -/
def Sound (s : Machine) : Prop := Consistent s.store ∧ 320 ≤ s.disk.length

theorem UserStep.cases {s s' : Machine} {e : Call × Reply} (sound : Sound s)
    (step : UserStep WellBehaved s e s') :
    (Owned s'.store ↔ KeepsBlocks s.store e.1) ∧ (Owned s'.store → Sound s') := by
  obtain ⟨behaved, runs⟩ := step
  rcases exec_cases sound.1 behaved with ⟨f, fails, found⟩ | ⟨r', v', runs', decides, kept⟩
  · have impossible := (exec_implements e.1).ok sound.2 runs (by rw [fails]; simpa using found)
    rw [fails] at impossible
    cases impossible.1
  · obtain ⟨same, long⟩ := (exec_implements e.1).ok sound.2 runs (by rw [runs']; simp)
    rw [runs'] at same
    cases same
    exact ⟨decides, fun owned => ⟨kept owned, long⟩⟩

theorem sound_format {s s₀ : Machine} (format : ssufsFormatDisk s = .ok ((), s₀)) : Sound s₀ := by
  obtain ⟨holds, long⟩ := holds_of_format format
  exact ⟨holds ▸ consistent_fresh _, long⟩

/-- Along every run of a well-behaved user from a formatted disk, all states have the ownership
invariant exactly when every write that runs out of blocks, on the way, restores those filled
slots that had a block before and frees the others. -/
theorem owned_iff_keepsBlocks {s s₀ t : Machine} {l : List (Event Machine (Call × Reply))}
    (format : ssufsFormatDisk s = .ok ((), s₀)) (run : Run (UserStep WellBehaved) s₀ l t) :
    Owned s₀.store ∧
      ((∀ e ∈ l, Owned e.after.store) ↔ ∀ e ∈ l, KeepsBlocks e.before.store e.label.1) := by
  have start := sound_format format
  refine ⟨start.1.owned, run.forall_iff_of_keeps (I := Sound)
    (G := fun e => Owned e.after.store) start ?_ fun x a y sound step => (step.cases sound).1⟩
  intro x a y sound step meets
  obtain ⟨decides, kept⟩ := step.cases sound
  exact kept (decides.2 meets)

/-! ## A run that loses blocks -/

instance (v : Store) (h : Fin 20) : Decidable (Opened v h) := inferInstanceAs (Decidable (_ ≠ _))

instance (v : Store) : ∀ call : Call, Decidable (WellBehaved v call)
  | .create _ | .openFile _ => inferInstanceAs (Decidable (_ ≤ 7))
  | .write _ _ _ => inferInstanceAs (Decidable (_ ∧ _ ∧ ∀ _, _ → _))
  | .read _ _ => inferInstanceAs (Decidable (_ ∧ _))
  | .lseek _ _ | .close _ => inferInstanceAs (Decidable (Opened _ _))
  | .delete _ => inferInstanceAs (Decidable (_ ∧ ∀ _, _ → _))

set_option synthInstance.maxSize 256 in
instance (v : Store) : ∀ call : Call, Decidable (KeepsBlocks v call)
  | .write _ _ _ => inferInstanceAs (Decidable (∀ _ _, _ → _))
  | .create _ | .openFile _ | .read _ _ | .lseek _ _ | .close _ | .delete _ => .isTrue trivial

section Replay

variable {allowed : Store → Call → Prop} [∀ v call, Decidable (allowed v call)]

/-- Make calls one after the other on the records, as long as they are allowed. -/
def replay (allowed : Store → Call → Prop) [∀ v call, Decidable (allowed v call)] :
    List Call → Store → Option Store
  | [], v => some v
  | call :: calls, v =>
    if allowed v call then
      match call.exec v with
      | .ok (_, v') => replay allowed calls v'
      | .error _ => none
    else none

/-- Calls that can be made on the records can be made on the image. -/
theorem run_of_replay {calls : List Call} {s₀ s : Machine}
    {l : List (Event Machine (Call × Reply))} {v : Store} (run : Run (UserStep allowed) s₀ l s)
    (long : 320 ≤ s.disk.length) (replays : replay allowed calls s.store = some v) :
    ∃ l' s', Run (UserStep allowed) s₀ l' s' ∧
      l'.map (fun e => e.label.1) = l.map (fun e => e.label.1) ++ calls ∧
      s'.store = v ∧ 320 ≤ s'.disk.length := by
  induction calls generalizing s l with
  | nil => exact ⟨l, s, run, (List.append_nil _).symm, Option.some.inj replays, long⟩
  | cons call calls ih =>
    rw [replay] at replays
    split_ifs at replays with fine
    cases runs : call.exec s.store with
    | error e =>
      rw [runs] at replays
      cases replays
    | ok r =>
      obtain ⟨reply, v'⟩ := r
      rw [runs] at replays
      obtain ⟨s', runs', rfl, long'⟩ := (exec_implements call).lift long runs
      have step : UserStep allowed s (call, reply) s' := ⟨fine, runs'⟩
      obtain ⟨l', t, run', made, stored, long''⟩ := ih (run.snoc step) long' replays
      refine ⟨l', t, run', ?_, stored, long''⟩
      rw [made, List.map_append, List.append_assoc]
      rfl

/-- A machine whose uninitialised memory is full of the byte `c`. -/
def bootWith (c : Byte) : Machine where
  disk := []
  pos := 0
  fileHandles _ := closedHandle
  junk _ := c

/-- What can be computed from a fresh disk is reached by a run from a formatted image. -/
theorem run_of_replay_fresh (c : Byte) {calls : List Call} {v : Store}
    (replays : replay allowed calls (Store.fresh fun _ => c) = some v) :
    ∃ s₀ l t, ssufsFormatDisk (bootWith c) = .ok ((), s₀) ∧ Run (UserStep allowed) s₀ l t ∧
      l.map (fun e => e.label.1) = calls ∧ t.store = v ∧ 320 ≤ t.disk.length := by
  obtain ⟨s₀, format, holds, long⟩ := ssufsFormatDisk_apply (bootWith c)
  obtain ⟨l, t, run, made, stored, long'⟩ := run_of_replay (l := []) .nil long (holds ▸ replays)
  exact ⟨s₀, l, t, format, run, made, stored, long'⟩

end Replay

/-- The one-letter names `a` to `h`. -/
def letter (k : Fin 8) : CString where
  bytes := [UInt8.ofNat (97 + k)]
  noNul := by revert k; decide

/-- Eight open files, seven of them with four blocks and the last one empty, which leaves two blocks
free. -/
def sevenFull : List Call :=
  (List.finRange 8).map (fun k => .create (letter k)) ++
    (List.finRange 8).map (fun k => .openFile (letter k)) ++
    (List.finRange 7).map (fun k => .write (k.castLE (by decide)) (fun _ => 65) 256)

theorem owned_iff_keepsBlocks_sevenFull :
    ∃ s₀ l t, ssufsFormatDisk (bootWith 255) = .ok ((), s₀) ∧
      Run (UserStep WellBehaved) s₀ l t ∧ t.store.freeCount = 2 ∧ Owned s₀.store ∧
        ((∀ e ∈ l, Owned e.after.store) ↔ ∀ e ∈ l, KeepsBlocks e.before.store e.label.1) := by
  have ends : (replay WellBehaved sevenFull (Store.fresh fun _ => 255)).map Store.freeCount =
      some 2 := by
    decide +kernel
  obtain ⟨v, replays, count⟩ := Option.map_eq_some_iff.1 ends
  obtain ⟨s₀, l, t, format, run, -, rfl, -⟩ := run_of_replay_fresh 255 replays
  exact ⟨s₀, l, t, format, run, count, owned_iff_keepsBlocks format run⟩

/-- The last file gets a block and is then overwritten from its start with three blocks of data,
while one block is free: its own block is freed, and the file still refers to it. -/
theorem owned_fails_overwrite_sevenFull :
    ¬ ∀ s s₀ l t, ssufsFormatDisk s = .ok ((), s₀) → Run (UserStep WellBehaved) s₀ l t →
      Owned t.store := by
  intro holds
  have ends : (replay WellBehaved (sevenFull ++
      [.write 7 (fun _ => 65) 64, .lseek 7 (-64), .write 7 (fun _ => 66) 192])
      (Store.fresh fun _ => 255)).map (fun v => (v.inodeFlag 7, (v.inode 7).slot 0, v.flag 28)) =
        some (inodeInUse, some 28, dataBlockFree) := by
    decide +kernel
  obtain ⟨v, replays, bad⟩ := Option.map_eq_some_iff.1 ends
  obtain ⟨s₀, l, t, format, run, -, rfl, -⟩ := run_of_replay_fresh 255 replays
  simp only [Prod.mk.injEq] at bad
  have used := (holds _ s₀ l t format run).used (b := 28) (i := 7) (j := 0) ⟨bad.1, bad.2.1⟩
  exact dataBlockUsed_ne_free (used.symm.trans bad.2.2)

end SsuOs.Ssufs
