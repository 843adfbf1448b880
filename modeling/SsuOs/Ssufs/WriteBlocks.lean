import SsuOs.Ssufs.Functions

/-!
# The blocks of a write

The parts of `ssufs_write`: the byte loop in one block, the loop that takes back an unfinished
write, and what giving a block to a slot (`Plan`, `Marked`) and filling it (`Filled`) do to the
store. `WriteLoop` puts them together.
-/

namespace SsuOs.Ssufs

open ByteFile

/-! ## One block -/

/-- `base` with the bytes of a write to `o .. o + n` that fall into block `j` of a file. -/
def overlay (buf : ℕ → Byte) (o n j : ℕ) (base : Block) : Block := fun p =>
  if o ≤ 64 * j + p ∧ 64 * j + p < o + n then buf (64 * j + p - o) else base p

/-- The byte loop fills the last `k` bytes of the block, as far as the data goes. -/
theorem writeBytes_apply (buf : ℕ → Byte) (n k : ℕ) (short : k ≤ 64) (tmpBuf : Block) (curr : ℕ)
    (more : curr < n) :
    writeBytes buf n k tmpBuf curr =
      (fun p : Fin 64 =>
        if 64 - k ≤ p ∧ p < 64 - k + (n - curr) then buf (curr + (p - (64 - k))) else tmpBuf p,
        min n (curr + k), decide (n ≤ curr + k)) := by
  induction k generalizing tmpBuf curr with
  | zero =>
    have past (p : Fin 64) : ¬ (64 - 0 ≤ p.val ∧ p.val < 64 - 0 + (n - curr)) := by omega
    simp only [writeBytes, past, if_false, Nat.add_zero, Nat.not_le.2 more, decide_false,
      min_eq_right more.le]
  | succ k ih =>
    have front (p : Fin 64) : p = (⟨63 - k, by omega⟩ : Fin 64) ↔ p.val = 63 - k := Fin.ext_iff
    rw [writeBytes]
    by_cases last : curr + 1 = n
    · rw [if_pos (by exact_mod_cast last), ← last]
      refine Prod.ext ?_ (Prod.ext ?_ ?_)
      · funext p
        simp only [Function.update_apply, front]
        by_cases here : p.val = 63 - k
        · rw [if_pos here, if_pos (by omega), here]
          congr 1
          omega
        · rw [if_neg here, if_neg (by omega)]
      · change curr + 1 = min (curr + 1) (curr + (k + 1))
        omega
      · exact (decide_eq_true (by omega)).symm
    · rw [if_neg (by exact_mod_cast last), ih (by omega) _ _ (by omega)]
      refine Prod.ext ?_ (Prod.ext ?_ ?_)
      · funext p
        simp only [Function.update_apply, front]
        by_cases here : p.val = 63 - k
        · rw [if_neg (by omega), if_pos here, if_pos (by omega), here]
          congr 1
          omega
        · by_cases inside : 64 - k ≤ p.val ∧ p.val < 64 - k + (n - (curr + 1))
          · rw [if_pos inside, if_pos (by omega)]
            congr 1
            omega
          · rw [if_neg inside, if_neg here, if_neg (by omega)]
      · simp only
        congr 1
        omega
      · simp only [decide_eq_decide]
        omega

/-- The byte loop in block `j` of the file, in terms of positions in the file. -/
theorem writeBytes_slot (buf : ℕ → Byte) {o n j : ℕ} (positive : 0 < n)
    (after : o < 64 * (j + 1)) (before : 64 * j < o + n) (base : Block) :
    writeBytes buf n (64 - (o - 64 * j)) base (64 * j - o) =
      (overlay buf o n j base, min n (64 * (j + 1) - o), decide (o + n ≤ 64 * (j + 1))) := by
  rw [writeBytes_apply buf n _ (by omega) base _ (by omega)]
  refine Prod.ext ?_ (Prod.ext ?_ ?_)
  · funext p
    simp only [overlay]
    by_cases inside : o ≤ 64 * j + p ∧ 64 * j + p < o + n
    · rw [if_pos (by omega), if_pos inside]
      congr 1
      omega
    · rw [if_neg (by omega), if_neg inside]
  · simp only
    congr 1
    omega
  · simp only [decide_eq_decide]
    omega

/-! ## Counting blocks -/

/-- The number of data blocks marked free. -/
def Store.freeCount (v : Store) : ℕ :=
  (Finset.univ.filter fun b => v.flag b = dataBlockFree).card

/-- The number of slots in `lo .. hi` without a block. -/
def Inode.missing (inode : Inode) (lo hi : ℕ) : ℕ :=
  (Finset.univ.filter fun j : Fin 4 =>
    lo ≤ j.val ∧ j.val < hi ∧ inode.directBlocks j = -1).card

theorem freeCount_setFlag {v : Store} {b : Fin 30} (free : v.flag b = dataBlockFree) :
    (v.setFlag b dataBlockUsed).freeCount + 1 = v.freeCount := by
  have member : b ∈ Finset.univ.filter fun b => v.flag b = dataBlockFree := by simp [free]
  have rest : (Finset.univ.filter fun c => (v.setFlag b dataBlockUsed).flag c = dataBlockFree) =
      (Finset.univ.filter fun b => v.flag b = dataBlockFree).erase b := by
    ext c
    simp only [Store.flag_setFlag, Function.update_apply, Finset.mem_filter, Finset.mem_univ,
      true_and, Finset.mem_erase]
    by_cases same : c = b <;> simp [same, dataBlockUsed_ne_free]
  rw [Store.freeCount, rest]
  exact Finset.card_erase_add_one member

theorem freeCount_of_full {v : Store} (full : v.firstFree = none) : v.freeCount = 0 := by
  rw [Store.freeCount, Finset.card_eq_zero, Finset.filter_eq_empty_iff]
  exact fun b _ => firstFree_eq_none full b

namespace Inode

variable {inode : Inode} {lo : ℕ}

theorem missing_zero (inode : Inode) (lo : ℕ) : inode.missing lo 0 = 0 := by
  rw [missing, Finset.card_eq_zero, Finset.filter_eq_empty_iff]
  exact fun j _ missing => Nat.not_lt_zero _ missing.2.1

theorem missing_succ_empty {i : Fin 4} (after : lo ≤ i) (empty : inode.directBlocks i = -1) :
    inode.missing lo (i + 1) = inode.missing lo i + 1 := by
  have grown : (Finset.univ.filter fun j : Fin 4 =>
        lo ≤ j.val ∧ j.val < i.val + 1 ∧ inode.directBlocks j = -1) =
      insert i (Finset.univ.filter fun j : Fin 4 =>
        lo ≤ j.val ∧ j.val < i.val ∧ inode.directBlocks j = -1) := by
    ext j
    simp only [Finset.mem_filter, Finset.mem_univ, true_and, Finset.mem_insert]
    by_cases same : j = i
    · simp [same, after, empty]
    · have apart : j.val ≠ i.val := fun clash => same (Fin.ext clash)
      simp only [same, false_or]
      exact and_congr_right fun _ => and_congr_left fun _ => by omega
  rw [missing, grown, Finset.card_insert_of_notMem (by simp), missing]

theorem missing_succ_held {i : Fin 4} (held : inode.directBlocks i ≠ -1 ∨ i.val < lo) :
    inode.missing lo (i + 1) = inode.missing lo i := by
  rw [missing, missing]
  congr 1
  ext j
  simp only [Finset.mem_filter, Finset.mem_univ, true_and]
  by_cases same : j = i
  · subst same
    constructor
    · rintro ⟨after, -, empty⟩
      rcases held with held | early
      · exact absurd empty held
      · omega
    · rintro ⟨-, before, -⟩
      omega
  · have apart : j.val ≠ i.val := fun clash => same (Fin.ext clash)
    exact and_congr_right fun _ => and_congr_left fun _ => by omega

theorem missing_mono {hi hi' : ℕ} (le : hi ≤ hi') : inode.missing lo hi ≤ inode.missing lo hi' :=
  Finset.card_le_card fun j member => by
    simp only [Finset.mem_filter, Finset.mem_univ, true_and] at member ⊢
    exact ⟨member.1, by omega, member.2.2⟩

end Inode

/-! ## Taking back an unfinished write -/

/-- The store after the loop that takes back a write has gone over the slots `l`: a block of a
filled slot is freed and cleared, except that the slot at `rollback_index` stays used and gets the
saved contents. -/
structure TakenBack (locals : WriteLocals) (l : List (Fin 4)) (w w' : Store) : Prop where
  flag : ∀ j ∈ l, locals.isUsed j = 1 → ∀ b, locals.tmp.slot j = some b →
    w'.flag b = if ofIndex j = locals.rollbackIndex then dataBlockUsed else dataBlockFree
  flag_other : ∀ b, (∀ j ∈ l, locals.isUsed j = 1 → locals.tmp.slot j ≠ some b) →
    w'.flag b = w.flag b
  block : ∀ j ∈ l, locals.isUsed j = 1 → ∀ b, locals.tmp.slot j = some b →
    w'.block b = if ofIndex j = locals.rollbackIndex then locals.rollback else locals.tmpBuf
  block_other : ∀ b, (∀ j ∈ l, locals.isUsed j = 1 → locals.tmp.slot j ≠ some b) →
    w'.block b = w.block b
  inodeFlag : w'.inodeFlag = w.inodeFlag
  inode : w'.inode = w.inode
  fileHandles : w'.fileHandles = w.fileHandles
  length : w.length ≤ w'.length

section RollBack

variable {locals : WriteLocals} {w : Store} {j : Fin 4} {b : Fin 30}

theorem rollBackSlot_skip (unused : locals.isUsed j ≠ 1) (w : Store) :
    rollBackSlot locals () j w = .ok ((), w) := by
  rw [rollBackSlot, if_neg unused, Prog.pure_apply]

/-- The store after block `b` of the filled slot `j` has been taken back. -/
def takeBack (locals : WriteLocals) (j : Fin 4) (b : Fin 30) (w : Store) : Store :=
  if ofIndex j = locals.rollbackIndex then w.putBlock b locals.rollback
  else (w.putBlock b locals.tmpBuf).setFlag b dataBlockFree

theorem rollBackSlot_apply (filled : locals.isUsed j = 1) (held : locals.tmp.slot j = some b)
    (used : w.flag b = dataBlockUsed) :
    rollBackSlot locals () j w = .ok ((), takeBack locals j b w) := by
  rw [rollBackSlot, if_pos filled, Prog.ite_apply, takeBack]
  split_ifs with saved
  · exact writeDataBlock_apply held _ _
  · rw [Prog.bind_ok (writeDataBlock_apply held _ _)]
    exact ssufsFreeDataBlock_apply held used

theorem takeBack_flag (used : w.flag b = dataBlockUsed) :
    (takeBack locals j b w).flag b =
      if ofIndex j = locals.rollbackIndex then dataBlockUsed else dataBlockFree := by
  unfold takeBack
  split_ifs <;> simp [used]

theorem takeBack_flag_other {c : Fin 30} (other : c ≠ b) :
    (takeBack locals j b w).flag c = w.flag c := by
  unfold takeBack
  split_ifs <;> simp [other]

theorem takeBack_block :
    (takeBack locals j b w).block b =
      if ofIndex j = locals.rollbackIndex then locals.rollback else locals.tmpBuf := by
  unfold takeBack
  split_ifs <;> simp

theorem takeBack_block_other {c : Fin 30} (other : c ≠ b) :
    (takeBack locals j b w).block c = w.block c := by
  unfold takeBack
  split_ifs <;> simp [other]

theorem takeBack_rest (locals : WriteLocals) (j : Fin 4) (b : Fin 30) (w : Store) :
    (takeBack locals j b w).inodeFlag = w.inodeFlag ∧ (takeBack locals j b w).inode = w.inode ∧
      (takeBack locals j b w).fileHandles = w.fileHandles ∧
      w.length ≤ (takeBack locals j b w).length := by
  unfold takeBack
  split_ifs <;> simp

theorem rollBack_apply (distinct : locals.tmp.Distinct) {l : List (Fin 4)} (nodup : l.Nodup)
    (held : ∀ j ∈ l, locals.isUsed j = 1 → ∃ b, locals.tmp.slot j = some b) (w : Store)
    (used : ∀ j ∈ l, locals.isUsed j = 1 → ∀ b, locals.tmp.slot j = some b →
      w.flag b = dataBlockUsed) :
    ∃ w', l.foldlM (rollBackSlot locals) () w = .ok ((), w') ∧ TakenBack locals l w w' := by
  induction l generalizing w with
  | nil => exact ⟨w, rfl, by simp, by simp, by simp, by simp, rfl, rfl, rfl, le_rfl⟩
  | cons j l ih =>
    obtain ⟨fresh, nodup⟩ := List.nodup_cons.1 nodup
    have held' := fun k member => held k (List.mem_cons_of_mem _ member)
    have used' := fun k member => used k (List.mem_cons_of_mem _ member)
    rw [List.foldlM_cons]
    by_cases filled : locals.isUsed j = 1
    · obtain ⟨b, here⟩ := held j List.mem_cons_self filled
      have apart : ∀ k ∈ l, ∀ c, locals.tmp.slot k = some c → c ≠ b := by
        rintro k member c later rfl
        exact fresh (distinct k j c later here ▸ member)
      rw [Prog.bind_ok (rollBackSlot_apply filled here (used j List.mem_cons_self filled b here))]
      obtain ⟨inodeFlag, inode, handles, length⟩ :=
        takeBack_rest locals j b w
      obtain ⟨w', runs, back⟩ := ih nodup held' (takeBack locals j b w)
        fun k member filled' c later => by
          rw [takeBack_flag_other (apart k member c later)]
          exact used' k member filled' c later
      have unheld : ∀ k ∈ l, locals.isUsed k = 1 → locals.tmp.slot k ≠ some b :=
        fun k member _ later => apart k member b later rfl
      refine ⟨w', runs, fun k member filled' c later => ?_, fun c none_holds => ?_,
        fun k member filled' c later => ?_, fun c none_holds => ?_, back.inodeFlag.trans inodeFlag,
        back.inode.trans inode, back.fileHandles.trans handles, length.trans back.length⟩
      · rcases List.mem_cons.1 member with rfl | member
        · obtain rfl : c = b := Option.some.inj (later.symm.trans here)
          rw [back.flag_other c unheld, takeBack_flag (used k List.mem_cons_self filled c here)]
        · exact back.flag k member filled' c later
      · have other : c ≠ b := by
          rintro rfl
          exact none_holds j List.mem_cons_self filled here
        rw [back.flag_other c fun k member => none_holds k (List.mem_cons_of_mem _ member),
          takeBack_flag_other other]
      · rcases List.mem_cons.1 member with rfl | member
        · obtain rfl : c = b := Option.some.inj (later.symm.trans here)
          rw [back.block_other c unheld, takeBack_block]
        · exact back.block k member filled' c later
      · have other : c ≠ b := by
          rintro rfl
          exact none_holds j List.mem_cons_self filled here
        rw [back.block_other c fun k member => none_holds k (List.mem_cons_of_mem _ member),
          takeBack_block_other other]
    · rw [Prog.bind_ok (rollBackSlot_skip filled w)]
      obtain ⟨w', runs, back⟩ := ih nodup held' w used'
      refine ⟨w', runs, ?_⟩
      have cons {P : Fin 4 → Prop} : (∀ k ∈ j :: l, locals.isUsed k = 1 → P k) ↔
          ∀ k ∈ l, locals.isUsed k = 1 → P k := by simp [filled]
      exact ⟨cons.2 back.flag, fun b => by rw [cons]; exact back.flag_other b, cons.2 back.block,
        fun b => by rw [cons]; exact back.block_other b, back.inodeFlag, back.inode,
        back.fileHandles, back.length⟩

end RollBack

/-! ## Requests -/

/-- A call of `ssufs_write` in state `v` through an open handle that passes the size check: `n`
bytes for the file behind inode `i`, which has size `f`, at offset `o`. The blocks of the inode
are different blocks in use. -/
structure Request (v : Store) where
  fileHandle : Fin 20
  buf : ℕ → Byte
  nbytes : Int32
  i : Fin 8
  o : ℕ
  f : ℕ
  n : ℕ
  opened : index 8 (v.fileHandles fileHandle).inodeNumber = some i
  offset : (v.fileHandles fileHandle).offset.toInt = o
  size : (v.inode i).fileSize.toInt = f
  count : nbytes.toInt = n
  positive : 0 < n
  within : o ≤ f
  fits : f + n ≤ 256
  valid : (v.inode i).Valid
  distinct : (v.inode i).Distinct
  used : ∀ j b, (v.inode i).slot j = some b → v.flag b = dataBlockUsed

namespace Request

variable {v : Store} (q : Request v)

/-- The inode of the request as the call finds it. -/
def inode : Inode := v.inode q.i

/-- The offset after the write. -/
theorem moved : ((v.fileHandles q.fileHandle).offset + q.nbytes).toInt = (q.o + q.n : ℕ) := by
  have fits := q.fits
  have within := q.within
  exact toInt_add_of_nat q.offset q.count (by omega)

/-- The first slot that the write touches. -/
def first : ℕ := q.o / 64

/-- Slot `j` has been touched when the loop arrives at slot `a`. -/
def Touched (a : ℕ) (j : Fin 4) : Prop := q.first ≤ j ∧ j.val < a

/-- `tmp` is the inode of the request with new blocks in the empty slots before `a`. -/
structure Plan (a : ℕ) (tmp : Inode) : Prop where
  rest : tmp = { q.inode with directBlocks := tmp.directBlocks }
  kept : ∀ j, ¬ (q.Touched a j ∧ q.inode.directBlocks j = -1) →
    tmp.directBlocks j = q.inode.directBlocks j
  fresh : ∀ j, q.Touched a j → q.inode.directBlocks j = -1 →
    ∃ b, tmp.slot j = some b ∧ v.flag b = dataBlockFree
  distinct : tmp.Distinct

/-- The superblock says what has been given to slots; inodes and handles are as they were. -/
structure Marked (a : ℕ) (tmp : Inode) (w : Store) : Prop where
  taken : ∀ j b, q.inode.directBlocks j = -1 → tmp.slot j = some b → w.flag b = dataBlockUsed
  flag : ∀ b, (∀ j, q.inode.directBlocks j = -1 → tmp.slot j ≠ some b) → w.flag b = v.flag b
  count : w.freeCount + q.inode.missing q.first a = v.freeCount
  inodeFlag : w.inodeFlag = v.inodeFlag
  inode : w.inode = v.inode
  fileHandles : w.fileHandles = v.fileHandles

variable {q} {a : ℕ} {tmp : Inode} {w : Store}

namespace Plan

theorem start : q.Plan 0 q.inode where
  rest := rfl
  kept _ _ := rfl
  fresh _ touched := absurd touched.2 (Nat.not_lt_zero _)
  distinct := q.distinct

theorem slot_kept (plan : q.Plan a tmp) {j : Fin 4} {b : Fin 30} (held : q.inode.slot j = some b) :
    tmp.slot j = some b := by
  rw [Inode.slot, plan.kept j fun new => Inode.ne_neg_one_of_slot held new.2]
  exact held

/-- A slot that had a block keeps it. -/
theorem slot_old (plan : q.Plan a tmp) {j : Fin 4} {b : Fin 30}
    (nonempty : q.inode.directBlocks j ≠ -1) (held : tmp.slot j = some b) :
    q.inode.slot j = some b := by
  obtain ⟨c, old⟩ := q.valid j nonempty
  exact old.trans ((plan.slot_kept old).symm.trans held)

theorem slot_untouched (plan : q.Plan a tmp) {j : Fin 4} (untouched : ¬ q.Touched a j) :
    tmp.slot j = q.inode.slot j := by
  rw [Inode.slot, plan.kept j fun new => untouched new.1]
  rfl

/-- The size of the file after the write. -/
theorem grown (plan : q.Plan a tmp) :
    (tmp.fileSize + q.nbytes).toInt = (q.f + q.n : ℕ) := by
  have fits := q.fits
  rw [plan.rest]
  exact toInt_add_of_nat q.size q.count (by omega)

/-- A block in a slot that was empty is new to the file. -/
theorem fresh_of_slot (plan : q.Plan a tmp) {j : Fin 4} {b : Fin 30}
    (empty : q.inode.directBlocks j = -1) (held : tmp.slot j = some b) :
    q.Touched a j ∧ v.flag b = dataBlockFree := by
  by_cases touched : q.Touched a j
  · obtain ⟨c, given, free⟩ := plan.fresh j touched empty
    obtain rfl : b = c := Option.some.inj (held.symm.trans given)
    exact ⟨touched, free⟩
  · have same := plan.kept j fun new => touched new.1
    exact absurd (same.trans empty) (Inode.ne_neg_one_of_slot held)

/-- Every slot the loop has passed holds a block. -/
theorem held (plan : q.Plan a tmp) {j : Fin 4} (touched : q.Touched a j) :
    ∃ b, tmp.slot j = some b := by
  by_cases empty : q.inode.directBlocks j = -1
  · obtain ⟨b, given, -⟩ := plan.fresh j touched empty
    exact ⟨b, given⟩
  · obtain ⟨b, held⟩ := q.valid j empty
    exact ⟨b, plan.slot_kept held⟩

theorem valid (plan : q.Plan a tmp) : tmp.Valid := by
  intro j nonempty
  by_cases new : q.Touched a j ∧ q.inode.directBlocks j = -1
  · exact plan.held new.1
  · rw [plan.kept j new] at nonempty
    obtain ⟨b, held⟩ := q.valid j nonempty
    exact ⟨b, plan.slot_kept held⟩

end Plan

theorem touched_succ {i j : Fin 4} :
    q.Touched (i + 1) j ↔ q.Touched i j ∨ (j = i ∧ q.first ≤ i) := by
  rw [Touched, Touched, Fin.ext_iff]
  omega

theorem not_touched_self (i : Fin 4) : ¬ q.Touched i i := fun touched => lt_irrefl _ touched.2

/-- The slot that the loop arrives at is as the call found it. -/
theorem Plan.directBlocks_self {i : Fin 4} (plan : q.Plan i tmp) :
    tmp.directBlocks i = q.inode.directBlocks i :=
  plan.kept i fun new => not_touched_self i new.1

/-- A slot before the first one, or one with a block, needs no new block. -/
theorem Plan.pass {i : Fin 4} (plan : q.Plan i tmp)
    (old : q.inode.directBlocks i ≠ -1 ∨ i.val < q.first) : q.Plan (i + 1) tmp := by
  have same (j : Fin 4) (new : q.Touched (i + 1) j ∧ q.inode.directBlocks j = -1) :
      q.Touched i j := by
    rcases touched_succ.1 new.1 with touched | ⟨rfl, after⟩
    · exact touched
    · rcases old with nonempty | before
      · exact absurd new.2 nonempty
      · omega
  refine ⟨plan.rest, fun j keep => plan.kept j fun new => keep ⟨?_, new.2⟩,
    fun j touched empty => plan.fresh j (same j ⟨touched, empty⟩) empty, plan.distinct⟩
  exact touched_succ.2 (.inl new.1)

theorem Marked.pass {i : Fin 4} (marked : q.Marked i tmp w)
    (old : q.inode.directBlocks i ≠ -1 ∨ i.val < q.first) : q.Marked (i + 1) tmp w :=
  { marked with
    count := by
      rw [Inode.missing_succ_held old]
      exact marked.count }

/-- If the blocks given to empty slots are marked used and no others, so is every block of the
plan. -/
theorem Plan.used (plan : q.Plan a tmp)
    (taken : ∀ j b, q.inode.directBlocks j = -1 → tmp.slot j = some b → w.flag b = dataBlockUsed)
    (flag : ∀ b, (∀ j, q.inode.directBlocks j = -1 → tmp.slot j ≠ some b) → w.flag b = v.flag b)
    {j : Fin 4} {b : Fin 30} (held : tmp.slot j = some b) : w.flag b = dataBlockUsed := by
  by_cases empty : q.inode.directBlocks j = -1
  · exact taken j b empty held
  · rw [flag b]
    · exact q.used j b (plan.slot_old empty held)
    · intro j' empty' held'
      exact empty (plan.distinct j j' b held held' ▸ empty')

theorem Marked.used (marked : q.Marked a tmp w) (plan : q.Plan a tmp) {j : Fin 4} {b : Fin 30}
    (held : tmp.slot j = some b) : w.flag b = dataBlockUsed :=
  plan.used marked.taken marked.flag held

/-- A block marked free belongs to no slot of the plan, and was free before the call. -/
theorem Marked.free (marked : q.Marked a tmp w) (plan : q.Plan a tmp) {b : Fin 30}
    (free : w.flag b = dataBlockFree) :
    (∀ j, tmp.slot j ≠ some b) ∧ v.flag b = dataBlockFree := by
  have unheld : ∀ j, tmp.slot j ≠ some b := fun j held =>
    dataBlockUsed_ne_free ((marked.used plan held).symm.trans free)
  exact ⟨unheld, (marked.flag b fun j _ => unheld j).symm.trans free⟩

section Give

variable {i : Fin 4} {b : Fin 30}

theorem slot_give : (tmp.setSlot i (ofIndex b)).slot i = some b := by
  rw [Inode.slot_setSlot, if_pos rfl, index_ofIndex (by norm_num)]

/-- An empty slot is given a free block. -/
theorem Plan.give (plan : q.Plan i tmp) (after : q.first ≤ i)
    (empty : q.inode.directBlocks i = -1) (unheld : ∀ j, tmp.slot j ≠ some b)
    (free : v.flag b = dataBlockFree) : q.Plan (i + 1) (tmp.setSlot i (ofIndex b)) := by
  have here : q.Touched (i + 1) i := touched_succ.2 (.inr ⟨rfl, after⟩)
  refine ⟨?_, fun j keep => ?_, fun j touched empty' => ?_, ?_⟩
  · rw [Inode.setSlot, plan.rest]
  · have other : j ≠ i := by
      rintro rfl
      exact keep ⟨here, empty⟩
    rw [Inode.directBlocks_setSlot, Function.update_of_ne other]
    exact plan.kept j fun new => keep ⟨touched_succ.2 (.inl new.1), new.2⟩
  · rcases touched_succ.1 touched with touched | ⟨rfl, -⟩
    · have other : j ≠ i := by
        rintro rfl
        exact not_touched_self j touched
      rw [Inode.slot_setSlot_of_ne other]
      exact plan.fresh j touched empty'
    · exact ⟨b, slot_give, free⟩
  · intro j j' c held held'
    by_cases left : j = i <;> by_cases right : j' = i
    · rw [left, right]
    · subst left
      rw [slot_give, Option.some.injEq] at held
      rw [Inode.slot_setSlot_of_ne right, ← held] at held'
      exact absurd held' (unheld j')
    · subst right
      rw [slot_give, Option.some.injEq] at held'
      rw [Inode.slot_setSlot_of_ne left, ← held'] at held
      exact absurd held (unheld j)
    · rw [Inode.slot_setSlot_of_ne left] at held
      rw [Inode.slot_setSlot_of_ne right] at held'
      exact plan.distinct j j' c held held'

theorem Marked.give (marked : q.Marked i tmp w) (plan : q.Plan i tmp) (after : q.first ≤ i)
    (empty : q.inode.directBlocks i = -1) (free : w.flag b = dataBlockFree) :
    q.Marked (i + 1) (tmp.setSlot i (ofIndex b)) (w.setFlag b dataBlockUsed) := by
  constructor
  · intro j c empty' held
    by_cases other : j = i
    · subst other
      rw [slot_give, Option.some.injEq] at held
      simp [held]
    · rw [Inode.slot_setSlot_of_ne other] at held
      rw [Store.flag_setFlag, Function.update_apply, marked.taken j c empty' held, ite_self]
  · intro c unheld
    have other : c ≠ b := by
      rintro rfl
      exact unheld i empty slot_give
    rw [Store.flag_setFlag, Function.update_of_ne other]
    refine marked.flag c fun j empty' held => ?_
    by_cases same : j = i
    · subst same
      exact Inode.ne_neg_one_of_slot held (plan.directBlocks_self.trans empty)
    · exact unheld j empty' (by rw [Inode.slot_setSlot_of_ne same, held])
  · rw [Inode.missing_succ_empty after empty, ← Nat.add_assoc, Nat.add_right_comm,
      freeCount_setFlag free]
    exact marked.count
  · exact marked.inodeFlag
  · exact marked.inode
  · exact marked.fileHandles

end Give

/-! ## Filling blocks -/

/-- What the buffer holds before the data goes into it: the old block if the write starts inside
it, uninitialised memory `t` in the first block otherwise, zeros in later blocks. -/
def base (q : Request v) (t : Block) (j : Fin 4) (b : Fin 30) : Block :=
  if 64 * j < q.o then v.block b else if 64 * j = q.o then t else fun _ => 0

/-- The blocks of the slots before `a` hold the data, other blocks are as they were. -/
structure Filled (q : Request v) (t : Block) (a : ℕ) (tmp : Inode) (w : Store) : Prop where
  content : ∀ j b, q.Touched a j → tmp.slot j = some b →
    w.block b = overlay q.buf q.o q.n j (q.base t j b)
  other : ∀ b, (∀ j, q.Touched a j → tmp.slot j ≠ some b) → w.block b = v.block b
  readable : ∀ j b, q.Touched a j → tmp.slot j = some b → w.Readable b
  length : v.length ≤ w.length

variable {t : Block} {i : Fin 4}

theorem Filled.pass (filled : q.Filled t i tmp w) (before : i.val < q.first) :
    q.Filled t (i + 1) tmp w := by
  have same (j : Fin 4) : q.Touched (i + 1) j ↔ q.Touched i j := by
    rw [touched_succ]
    exact or_iff_left fun here => by omega
  exact ⟨fun j b touched => filled.content j b ((same j).1 touched),
    fun b unheld => filled.other b fun j touched => unheld j ((same j).2 touched),
    fun j b touched => filled.readable j b ((same j).1 touched), filled.length⟩

/-- Giving a block to the next slot fills nothing. -/
theorem Filled.give (filled : q.Filled t i tmp w) (b : Fin 30) :
    q.Filled t i (tmp.setSlot i (ofIndex b)) (w.setFlag b dataBlockUsed) := by
  have same (j : Fin 4) (touched : q.Touched i j) :
      (tmp.setSlot i (ofIndex b)).slot j = tmp.slot j := by
    apply Inode.slot_setSlot_of_ne
    rintro rfl
    exact not_touched_self j touched
  refine ⟨fun j c touched held => ?_, fun c unheld => ?_, fun j c touched held => ?_,
    filled.length⟩
  · exact filled.content j c touched (same j touched ▸ held)
  · exact filled.other c fun j touched => same j touched ▸ unheld j touched
  · exact filled.readable j c touched (same j touched ▸ held)

theorem readable_putBlock {b c : Fin 30} {buf : Block} (readable : c = b ∨ w.Readable c) :
    (w.putBlock b buf).Readable c := by
  rcases readable with rfl | readable
  · exact le_max_right _ _
  · exact le_trans readable (le_max_left _ _)

/-- Writing the next block. -/
theorem Filled.fill (filled : q.Filled t i tmp w) (distinct : tmp.Distinct) (after : q.first ≤ i)
    {b : Fin 30} (held : tmp.slot i = some b) :
    q.Filled t (i + 1) tmp (w.putBlock b (overlay q.buf q.o q.n i (q.base t i b))) := by
  have other {j : Fin 4} {c : Fin 30} (touched : q.Touched i j) (held' : tmp.slot j = some c) :
      c ≠ b := by
    rintro rfl
    obtain rfl := distinct j i c held' held
    exact not_touched_self j touched
  refine ⟨fun j c touched held' => ?_, fun c unheld => ?_, fun j c touched held' => ?_,
    le_trans filled.length (le_max_left _ _)⟩
  · rcases touched_succ.1 touched with touched | ⟨rfl, -⟩
    · rw [Store.putBlock_block, Function.update_of_ne (other touched held')]
      exact filled.content j c touched held'
    · obtain rfl : c = b := Option.some.inj (held'.symm.trans held)
      rw [Store.putBlock_block, Function.update_self]
  · have apart : c ≠ b := by
      rintro rfl
      exact unheld i (touched_succ.2 (.inr ⟨rfl, after⟩)) held
    rw [Store.putBlock_block, Function.update_of_ne apart]
    exact filled.other c fun j touched => unheld j (touched_succ.2 (.inl touched))
  · rcases touched_succ.1 touched with touched | ⟨rfl, -⟩
    · exact readable_putBlock (.inr (filled.readable j c touched held'))
    · exact readable_putBlock (.inl (Option.some.inj (held'.symm.trans held)))

theorem Marked.putBlock (marked : q.Marked a tmp w) (b : Fin 30) (buf : Block) :
    q.Marked a tmp (w.putBlock b buf) :=
  ⟨marked.taken, marked.flag, marked.count, marked.inodeFlag, marked.inode, marked.fileHandles⟩

end Request

end SsuOs.Ssufs
