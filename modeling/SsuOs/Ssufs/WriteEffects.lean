import SsuOs.Ssufs.Refinement

/-!
# What a write does to the contents of files

Two properties one expects of `ssufs_write` on a disk whose files have their blocks in the first
slots: an append that finds the disk full leaves everything as it was, and a write changes the
bytes it is asked to change and no others. Both hold only sometimes. The first depends on the
uninitialised `rollback_index`, and on `strcpy` saving the old block up to its first NUL only
(`unchanged_iff_restorable`); the second on the bytes behind the data in the last block, which the
code does not read before it writes them (`framed_iff_tailKept`).
-/

namespace SsuOs.Ssufs

open ByteFile

section Contents

variable {v v' : Store}

/-- With the same inodes, files have the same contents if their blocks have the same bytes. -/
theorem contents_iff (inode : v'.inode = v.inode) :
    (∀ i, v.inodeFlag i = inodeInUse → ∀ p : ℕ, p < (v.inode i).fileSize.toInt →
        v'.fileByte i p = v.fileByte i p) ↔
      ∀ b i j, Holder v b i j → ∀ p : Fin 64, 64 * (j : ℤ) + p < (v.inode i).fileSize.toInt →
        v'.block b p = v.block b p := by
  constructor
  · intro same b i j holder p inside
    have keeps := same i holder.1 (64 * j + p) (by push_cast; exact inside)
    rw [fileByte_held holder.2, fileByte_held (by rw [inode]; exact holder.2)] at keeps
    exact Option.some.inj keeps
  · intro same i inUse p inside
    by_cases covered : p < 256
    · obtain ⟨j, k, rfl⟩ := position p covered
      rw [fileByte_eq, fileByte_eq, inode]
      refine Option.map_congr fun b held => same b i j ⟨inUse, held⟩ k ?_
      exact_mod_cast inside
    · rw [Store.fileByte, Store.fileByte, dif_neg covered, dif_neg covered]

end Contents

/-! ## Appends that find the disk full -/

/-- Free lists, inodes, handles and the contents of files are the same. -/
structure Unchanged (v v' : Store) : Prop where
  flag : v'.flag = v.flag
  inodeFlag : v'.inodeFlag = v.inodeFlag
  inode : v'.inode = v.inode
  fileHandles : v'.fileHandles = v.fileHandles
  contents : ∀ i, v.inodeFlag i = inodeInUse → ∀ p : ℕ, p < (v.inode i).fileSize.toInt →
    v'.fileByte i p = v.fileByte i p

/-- The rollback of an append to file `i` restores it. If the append starts a new block, the
uninitialised `rollback_index` must not be one of the slots that the free blocks fill. If it starts
inside a block, the bytes of that block behind a NUL must be in the uninitialised buffer. -/
def Restorable (v : Store) (i : Fin 8) : Prop :=
  let f := (v.inode i).fileSize.toInt.toNat
  if f % 64 = 0 then
    ∀ j : Fin 4, f / 64 ≤ j → j < f / 64 + v.freeCount → ofIndex j ≠ v.rollbackIndex
  else
    ∀ (j : Fin 4) (b : Fin 30), j.val = f / 64 → (v.inode i).slot j = some b →
      ∀ p : Fin 64, p < f % 64 → (∃ k < p, v.block b k = 0) → v.rollback p = v.block b p

namespace Request

variable {v v' : Store} {q : Request v} {saved : Block} {x : Int32} {m : Fin 4} {tmp : Inode}

/-- The slots of the request's file that hold a block. -/
theorem held_iff (compact : Compact v) (inUse : v.inodeFlag q.i = inodeInUse) (j : Fin 4) :
    q.inode.directBlocks j ≠ -1 ↔ 64 * j.val < q.f := by
  have blocks := (compact q.i inUse).2.2 j
  rw [q.size] at blocks
  exact blocks.trans (by omega)

namespace RolledBack

/-- The blocks of other files are not touched. -/
theorem block_of_holder (back : q.RolledBack saved x m tmp v') (owned : Owned v)
    (inUse : v.inodeFlag q.i = inodeInUse) {b : Fin 30} {i : Fin 8} {k : Fin 4}
    (holder : Holder v b i k) (apart : i = q.i → ¬ q.Touched m k) : v'.block b = v.block b := by
  refine back.block_other b fun j touched held => ?_
  obtain ⟨same, rfl⟩ := back.plan.holder_eq owned inUse holder held
  exact apart same touched

theorem flag_iff (back : q.RolledBack saved x m tmp v') :
    v'.flag = v.flag ↔
      ∀ j, q.Touched m j → (Restores q.o x j ↔ q.inode.directBlocks j ≠ -1) :=
  ⟨fun same _ => back.restores_iff fun _ => by rw [same], back.flag_eq⟩

/-- An append that starts a new block is undone if `rollback_index` is none of its slots. -/
theorem unchanged_iff_aligned (back : q.RolledBack saved v.rollbackIndex m tmp v')
    (owned : Owned v) (compact : Compact v) (inUse : v.inodeFlag q.i = inodeInUse)
    (append : q.o = q.f) (aligned : q.f % 64 = 0) : Unchanged v v' ↔ Restorable v q.i := by
  have start : 64 * q.first = q.f := by
    rw [first]
    omega
  have empty (j : Fin 4) (after : q.first ≤ j) : q.inode.directBlocks j = -1 := by
    by_contra held
    have := (held_iff compact inUse j).1 held
    omega
  have stops : m.val = q.first + v.freeCount := by
    have count := back.runsOut.count
    have after := back.runsOut.after
    have slots (j : Fin 4) : q.inode.directBlocks j ≠ -1 ↔ j.val < q.first := by
      rw [held_iff compact inUse]
      omega
    rw [← first, Inode.missing_eq slots le_rfl m.isLt.le] at count
    rw [← first] at after
    omega
  have flags : v'.flag = v.flag ↔ Restorable v q.i := by
    rw [back.flag_iff, Restorable, q.size, Int.toNat_natCast, if_pos aligned, ← append, ← first,
      ← stops]
    refine forall_congr' fun j => ⟨fun right after before same => ?_, fun right touched => ?_⟩
    · have touched : q.Touched m j := ⟨after, before⟩
      refine (right touched).1 ?_ (empty j after)
      rwa [Restores, if_pos (by omega)]
    · refine iff_of_false ?_ (not_not.2 (empty j touched.1))
      rw [Restores, if_pos (by omega)]
      exact right touched.1 touched.2
  refine ⟨fun unchanged => flags.1 unchanged.flag, fun restorable =>
    ⟨flags.2 restorable, back.inodeFlag, back.inode, back.fileHandles, ?_⟩⟩
  refine (contents_iff back.inode).2 fun b i j holder p inside => congrFun ?_ p
  refine back.block_of_holder owned inUse holder fun same touched => ?_
  rw [same, q.size] at inside
  have := touched.1
  omega

/-- An append that starts inside a block is undone if the saved block has its bytes. -/
theorem unchanged_iff_unaligned (back : q.RolledBack v.rollback x m tmp v')
    (owned : Owned v) (compact : Compact v) (inUse : v.inodeFlag q.i = inodeInUse)
    (append : q.o = q.f) (unaligned : q.f % 64 ≠ 0) : Unchanged v v' ↔ Restorable v q.i := by
  have bounds := q.first_spec
  have after := back.runsOut.after
  rw [← first] at after
  have held := held_iff (q := q) compact inUse
  have restores (j : Fin 4) : Restores q.o x j ↔ j.val = q.first := by
    rw [Restores, if_neg (by omega), first]
  have flags : v'.flag = v.flag := by
    refine back.flag_eq fun j touched => ?_
    have := touched.1
    rw [restores, held]
    omega
  have inside {j : Fin 4} (start : j.val = q.first) : q.Touched m j := by
    refine ⟨start.ge, lt_of_le_of_ne (start ▸ after) fun same => ?_⟩
    refine (held m).2 ?_ back.runsOut.empty
    omega
  have contents : (∀ b i j, Holder v b i j → ∀ p : Fin 64,
      64 * (j : ℤ) + p < (v.inode i).fileSize.toInt → v'.block b p = v.block b p) ↔
        Restorable v q.i := by
    rw [Restorable, q.size, Int.toNat_natCast, if_neg unaligned]
    constructor
    · intro same j b start slot p early nul
      have start' : j.val = q.first := by rw [start, first, append]
      have keeps := same b q.i j ⟨inUse, slot⟩ p (by rw [q.size]; omega)
      rw [back.block j b (inside start') (back.plan.slot_kept slot), if_pos ((restores j).2 start'),
        restored, if_neg (by omega), strcpyBlock, if_pos nul] at keeps
      exact keeps
    · intro saved b i j holder p early
      by_cases apart : i = q.i ∧ j.val = q.first
      · obtain ⟨rfl, start⟩ := apart
        rw [back.block j b (inside start) (back.plan.slot_kept holder.2),
          if_pos ((restores j).2 start), restored, if_neg (by omega), strcpyBlock]
        rw [q.size] at early
        split_ifs with nul
        · exact saved j b (by rw [start, first, append]) holder.2 p (by omega) nul
        · rfl
      · refine congrFun (back.block_of_holder owned inUse holder fun same touched => ?_) p
        rw [same, q.size] at early
        have := touched.1
        exact apart ⟨same, by omega⟩
  rw [← contents, ← contents_iff back.inode]
  exact ⟨fun unchanged => unchanged.contents, fun same =>
    ⟨flags, back.inodeFlag, back.inode, back.fileHandles, same⟩⟩

end RolledBack

/-- A call on the image ends as the call on the records. -/
theorem outcome_of_image {s s' : Machine} (q : Request s.store) (long : 320 ≤ s.disk.length)
    {r : Int32} (runs : ssufsWrite q.fileHandle q.buf q.nbytes s = .ok (r, s')) :
    q.Outcome s.store.tmpBuf s.store.rollback s.store.rollbackIndex (.ok (r, s'.store)) := by
  have outcome := ssufsWrite_cases q
  have kept : ssufsWrite q.fileHandle q.buf q.nbytes s.store ≠ .error .outsideRecords := by
    intro lost
    rw [lost] at outcome
    cases outcome
  obtain ⟨same, -⟩ := (ssufsWrite_implements _ _ _).ok long runs kept
  rwa [same] at outcome

end Request

/-- An append that fails for want of blocks changes nothing exactly when its rollback restores the
file. -/
theorem unchanged_iff_restorable {s s' : Machine} {h : Fin 20} {i : Fin 8} {buf : ℕ → Byte}
    {nbytes : Int32} (long : 320 ≤ s.disk.length) (owned : Owned s.store)
    (compact : Compact s.store)
    (selected : index 8 (s.store.fileHandles h).inodeNumber = some i)
    (inUse : s.store.inodeFlag i = inodeInUse)
    (append : (s.store.fileHandles h).offset = (s.store.inode i).fileSize)
    (positive : 1 ≤ nbytes.toInt)
    (fits : (s.store.inode i).fileSize.toInt + nbytes.toInt ≤ 256)
    (fails : ssufsWrite h buf nbytes s = .ok (-1, s')) :
    Unchanged s.store s'.store ↔ Restorable s.store i := by
  obtain ⟨q, rfl, rfl, rfl, rfl⟩ := owned.request buf selected inUse
    (append ▸ (compact i inUse).1) (append ▸ le_rfl) positive fits
  have start := q.append append
  cases q.outcome_of_image long fails with
  | rolledBack _ back =>
    by_cases aligned : q.f % 64 = 0
    · exact back.unchanged_iff_aligned owned compact inUse start aligned
    · exact back.unchanged_iff_unaligned owned compact inUse start aligned

/-- A write after append-only calls on a fresh disk, with uninitialised memory full of `c`, returns
and `look` holds of it. -/
def observe (c : Byte) (calls : List Call) (h : Fin 20) (buf : ℕ → Byte) (nbytes : Int32)
    (look : Store → Int32 → Store → Bool) : Bool :=
  (replay AppendOnly calls (Store.fresh fun _ => c)).any fun v =>
    match ssufsWrite h buf nbytes v with
    | .ok (r, v') => look v r v'
    | .error _ => false

theorem of_observe {c : Byte} {calls : List Call} {h : Fin 20} {buf : ℕ → Byte} {nbytes : Int32}
    {look : Store → Int32 → Store → Bool} (sees : observe c calls h buf nbytes look = true) :
    ∃ s s' a r, Holding s a ∧ ssufsWrite h buf nbytes s = .ok (r, s') ∧
      look s.store r s'.store = true := by
  obtain ⟨v, replays, sees⟩ := (Option.any_eq_true ..).1 sees
  obtain ⟨s₀, l, s, format, run, -, rfl, long⟩ := run_of_replay_fresh c replays
  cases result : ssufsWrite h buf nbytes s.store with
  | error e =>
    rw [result] at sees
    cases sees
  | ok r =>
    rw [result] at sees
    obtain ⟨s', runs, stored, -⟩ := (ssufsWrite_implements h buf nbytes).lift long result
    refine ⟨s, s', _, r.1, (holding_of_run format run).2, runs, ?_⟩
    rw [stored]
    exact sees

/-- An append of three blocks to the last file while two blocks are free, with `rollback_index` 0 by
chance: block 28 stays marked used. -/
theorem append_sevenFull :
    ∃ s s' a, Holding s a ∧ index 8 (s.store.fileHandles 7).inodeNumber = some 7 ∧
      s.store.inodeFlag 7 = inodeInUse ∧
      (s.store.fileHandles 7).offset = (s.store.inode 7).fileSize ∧
      (s.store.inode 7).fileSize = 0 ∧ ssufsWrite 7 (fun _ => 66) 192 s = .ok (-1, s') ∧
      s.store.flag 28 = dataBlockFree ∧ s'.store.flag 28 = dataBlockUsed := by
  have sees : observe 0 sevenFull 7 (fun _ => 66) 192 fun v r v' =>
      index 8 (v.fileHandles 7).inodeNumber = some 7 ∧ v.inodeFlag 7 = inodeInUse ∧
        (v.fileHandles 7).offset = 0 ∧ (v.inode 7).fileSize = 0 ∧ r = -1 ∧
        v.flag 28 = dataBlockFree ∧ v'.flag 28 = dataBlockUsed := by
    decide +kernel
  obtain ⟨s, s', a, r, holding, runs, seen⟩ := of_observe sees
  obtain ⟨selected, inUse, offset, size, rfl, free, used⟩ := of_decide_eq_true seen
  exact ⟨s, s', a, holding, selected, inUse, offset.trans size.symm, size, runs, free, used⟩

theorem unchanged_iff_restorable_sevenFull :
    ∃ s s' : Machine, Owned s.store ∧ Compact s.store ∧
      ssufsWrite 7 (fun _ => 66) 192 s = .ok (-1, s') ∧
      (Unchanged s.store s'.store ↔ Restorable s.store 7) := by
  obtain ⟨s, s', a, holding, selected, inUse, append, size, fails, -⟩ := append_sevenFull
  refine ⟨s, s', holding.1.consistent.owned, holding.1.compact, fails, ?_⟩
  refine unchanged_iff_restorable holding.2 holding.1.consistent.owned holding.1.compact selected
    inUse append (by decide) ?_ fails
  rw [size]
  decide

theorem unchanged_fails_sevenFull :
    ¬ ∀ (s s' : Machine) (h : Fin 20) (i : Fin 8) (buf : ℕ → Byte) (nbytes : Int32),
      320 ≤ s.disk.length → Owned s.store → Compact s.store →
      index 8 (s.store.fileHandles h).inodeNumber = some i → s.store.inodeFlag i = inodeInUse →
      (s.store.fileHandles h).offset = (s.store.inode i).fileSize → 1 ≤ nbytes.toInt →
      (s.store.inode i).fileSize.toInt + nbytes.toInt ≤ 256 →
      ssufsWrite h buf nbytes s = .ok (-1, s') → Unchanged s.store s'.store := by
  intro holds
  obtain ⟨s, s', a, holding, selected, inUse, append, size, fails, free, used⟩ := append_sevenFull
  have unchanged := holds s s' 7 7 _ 192 holding.2 holding.1.consistent.owned holding.1.compact
    selected inUse append (by decide) (by rw [size]; decide) fails
  rw [unchanged.flag, free] at used
  exact dataBlockUsed_ne_free used.symm

/-! ## Writes that succeed -/

theorem writeBytes_curr (buf : ℕ → Byte) (nbytes : ℤ) (k : ℕ) (block : Block) (curr : ℕ) :
    (writeBytes buf nbytes k block curr).2.1 ≤ curr + k ∧
      ((writeBytes buf nbytes k block curr).2.2 = true → nbytes ≤ curr + k) := by
  induction k generalizing block curr with
  | zero => exact ⟨le_rfl, fun complete => by cases complete⟩
  | succ k ih =>
    rw [writeBytes]
    split_ifs with last
    · refine ⟨?_, fun _ => by omega⟩
      change curr + 1 ≤ curr + (k + 1)
      omega
    · obtain ⟨taken, reaches⟩ := ih (Function.update block ⟨63 - k, by omega⟩ (buf curr)) (curr + 1)
      exact ⟨by omega, fun complete => by have := reaches complete; omega⟩

theorem pure_ne_zero {σ : Type} {s s' : σ} : (pure (-1) : Ssu σ Int32) s ≠ .ok (0, s') := by
  intro returns
  rw [Prog.pure_apply, Except.ok.injEq, Prod.mk.injEq] at returns
  exact absurd returns.1 (by decide)

section Returns

variable {σ : Type} [Disk σ]

theorem loadSlot_curr {i : Fin 4} {locals loaded : WriteLocals} {s s' : σ}
    (loads : loadSlot i locals s = .ok (loaded, s')) : loaded.curr = locals.curr := by
  rw [loadSlot, Prog.ite_apply] at loads
  split_ifs at loads
  · obtain ⟨block, s₁, -, returns⟩ := Prog.bind_eq_ok loads
    obtain ⟨-, s₂, -, returns⟩ := Prog.bind_eq_ok returns
    cases returns
    rfl
  · cases loads
    rfl

variable {h : Fin 20} {x : Int32} {buf : ℕ → Byte} {nbytes : Int32}

/-- A round takes at most 64 bytes of the data. -/
theorem writeSlot_zero {i : Fin 4} {next : WriteLocals → Ssu σ Int32} {locals : WriteLocals}
    {s s' : σ} {m : ℕ}
    (rest : ∀ later s₁, next later s₁ = .ok (0, s') → nbytes.toInt ≤ later.curr + 64 * m)
    (succeeds : writeSlot h x buf nbytes i next locals s = .ok (0, s')) :
    nbytes.toInt ≤ locals.curr + 64 * (m + 1) := by
  obtain ⟨loaded, s₁, loads, runs⟩ := Prog.bind_eq_ok succeeds
  have same := loadSlot_curr loads
  obtain ⟨taken, reaches⟩ := writeBytes_curr buf nbytes.toInt (64 - loaded.fOffset.toNat)
    loaded.tmpBuf loaded.curr
  obtain ⟨-, s₂, -, runs⟩ := Prog.bind_eq_ok runs
  rw [Prog.ite_apply] at runs
  split_ifs at runs with complete
  · have := reaches complete
    omega
  · have count : nbytes.toInt ≤ (writeBytes buf nbytes.toInt (64 - loaded.fOffset.toNat)
        loaded.tmpBuf loaded.curr).2.1 + 64 * m := rest _ _ runs
    omega

/-- A write that succeeds starts in one of the slots and has at most as many bytes as there is
room for. -/
theorem writeLoop_zero {l : List (Fin 4)} {locals : WriteLocals} {s s' : σ}
    (succeeds : writeLoop h x buf nbytes l locals s = .ok (0, s')) :
    (0 ≤ locals.fOffset ∧ locals.fOffset < 64 * l.length) ∧
      nbytes.toInt ≤ locals.curr + 64 * l.length := by
  induction l generalizing locals s with
  | nil => exact absurd succeeds pure_ne_zero
  | cons i l ih =>
    rw [writeLoop] at succeeds
    rw [List.length_cons]
    push_cast
    by_cases here : 0 ≤ locals.fOffset ∧ locals.fOffset < 64
    · refine ⟨⟨here.1, by omega⟩, ?_⟩
      have rest (later : WriteLocals) (s₁ : σ)
          (runs : writeLoop h x buf nbytes l later s₁ = .ok (0, s')) :
          nbytes.toInt ≤ later.curr + 64 * l.length := (ih runs).2
      rw [if_pos here] at succeeds
      by_cases empty : locals.tmp.directBlocks i = -1
      · rw [if_pos empty] at succeeds
        obtain ⟨block, s₁, -, runs⟩ := Prog.bind_eq_ok succeeds
        rw [Prog.ite_apply] at runs
        split_ifs at runs
        · obtain ⟨-, s₂, -, returns⟩ := Prog.bind_eq_ok runs
          exact absurd returns pure_ne_zero
        · have count := writeSlot_zero rest runs
          exact count
      · rw [if_neg empty] at succeeds
        exact writeSlot_zero rest succeeds
    · rw [if_neg here] at succeeds
      obtain ⟨inside, count⟩ := ih succeeds
      dsimp only at inside count
      split_ifs at inside <;> omega

end Returns

/-- A write succeeds only if it passes the size check, starts in one of the slots and has at most
256 bytes. -/
theorem ssufsWrite_zero_cases {s s' : Machine} {h : Fin 20} {i : Fin 8} {buf : ℕ → Byte}
    {nbytes : Int32} (long : 320 ≤ s.disk.length)
    (selected : index 8 (s.store.fileHandles h).inodeNumber = some i)
    (succeeds : ssufsWrite h buf nbytes s = .ok (0, s')) :
    ((s.store.inode i).fileSize + nbytes).toInt ≤ 256 ∧
      (0 ≤ (s.store.fileHandles h).offset.toInt ∧ (s.store.fileHandles h).offset.toInt < 256) ∧
      nbytes.toInt ≤ 256 := by
  let s₁ : Machine := { s with junk := fun k => s.junk (64 + (64 + (4 + k))) }
  rw [ssufsWrite, Prog.bind_ok (show Disk.fileHandleArray s = _ from rfl),
    Prog.bind_ok (show Disk.uninit 64 s = _ from rfl),
    Prog.bind_ok (show Disk.uninit 64 _ = _ from rfl),
    Prog.bind_ok (show Disk.uninit 4 _ = _ from rfl)] at succeeds
  have reads : Disk.readInode (s.fileHandles h).inodeNumber s₁ = _ :=
    ssufsReadInode_apply selected (by change _ ≤ s.disk.length; omega)
  replace succeeds := (Prog.bind_ok reads).symm.trans succeeds
  rw [Prog.ite_apply] at succeeds
  split_ifs at succeeds with big
  · exact absurd succeeds pure_ne_zero
  · obtain ⟨⟨low, high⟩, count⟩ := writeLoop_zero succeeds
    rw [Int32.lt_iff_toInt_lt] at big
    exact ⟨not_lt.1 big, ⟨low, high⟩, count⟩

/-- A write succeeds only at an offset that is not negative, and if the data fits into the file. -/
theorem ssufsWrite_zero {s s' : Machine} {h : Fin 20} {i : Fin 8} {buf : ℕ → Byte} {nbytes : Int32}
    (long : 320 ≤ s.disk.length)
    (selected : index 8 (s.store.fileHandles h).inodeNumber = some i)
    (nonneg : 0 ≤ (s.store.inode i).fileSize.toInt)
    (short : (s.store.inode i).fileSize.toInt ≤ 256)
    (succeeds : ssufsWrite h buf nbytes s = .ok (0, s')) :
    0 ≤ (s.store.fileHandles h).offset.toInt ∧
      (s.store.inode i).fileSize.toInt + nbytes.toInt ≤ 256 := by
  obtain ⟨fits, ⟨low, -⟩, count⟩ := ssufsWrite_zero_cases long selected succeeds
  have sum := toInt_add_cases (y := nbytes) nonneg
  exact ⟨low, by omega⟩

/-- A write of `n` bytes at offset `o` of file `i` puts the data there, and keeps the other bytes of
the file and all other files. -/
structure Framed (v v' : Store) (i : Fin 8) (o n : ℕ) (buf : ℕ → Byte) : Prop where
  written : ∀ p, o ≤ p → p < o + n → v'.fileByte i p = some (buf (p - o))
  kept : ∀ p : ℕ, p < (v.inode i).fileSize.toInt → p < o ∨ o + n ≤ p →
    v'.fileByte i p = v.fileByte i p
  others : ∀ i', i' ≠ i → v.inodeFlag i' = inodeInUse →
    v'.inodeFlag i' = inodeInUse ∧ v'.inode i' = v.inode i' ∧
      ∀ p : ℕ, p < (v.inode i').fileSize.toInt → v'.fileByte i' p = v.fileByte i' p

/-- What the file has behind the data, in the last block of a write, is what the write puts there
if it does not start inside that block: uninitialised memory if it is the first block, zeros
otherwise. -/
def TailKept (v : Store) (i : Fin 8) (o n : ℕ) : Prop :=
  ∀ (j : Fin 4) (k : Fin 64), j.val = (o + n - 1) / 64 → o ≤ 64 * j → o + n ≤ 64 * j.val + k →
    64 * (j : ℤ) + k < (v.inode i).fileSize.toInt →
    v.fileByte i (64 * j + k) = some (if o = 64 * j then v.tmpBuf k else 0)

namespace Request

variable {v v' : Store} {q : Request v} {tmp : Inode}

/-- The bytes behind the data in the last block of a write that does not start inside it. -/
theorem Completed.tail (complete : q.Completed v.tmpBuf tmp v') {j : Fin 4} {k : Fin 64}
    (last : j.val = (q.o + q.n - 1) / 64) (start : q.o ≤ 64 * j)
    (late : q.o + q.n ≤ 64 * j.val + k) :
    v'.fileByte q.i (64 * j + k) = some (if q.o = 64 * j then v.tmpBuf k else 0) := by
  have positive := q.positive
  have touched : q.Touched q.past j := by
    rw [Touched, first, past]
    omega
  obtain ⟨b, -, byte⟩ := complete.fileByte_touched touched k
  rw [byte, overlay, if_neg (by omega), base, if_neg (by omega)]
  simp only [eq_comm (a := q.o)]
  split_ifs <;> rfl

/-- The bytes behind the data that the write does not put there. -/
theorem Completed.behind (complete : q.Completed v.tmpBuf tmp v')
    (held : ∀ j, q.inode.directBlocks j ≠ -1 ↔ 64 * j.val < q.f) {j : Fin 4} {k : Fin 64}
    (late : q.o + q.n ≤ 64 * j.val + k)
    (apart : j.val ≠ (q.o + q.n - 1) / 64 ∨ 64 * j < q.o) :
    v'.fileByte q.i (64 * j + k) = v.fileByte q.i (64 * j + k) := by
  have positive := q.positive
  refine complete.fileByte_outside held ?_ (by omega)
  rw [Touched, first, past]
  omega

theorem Completed.framed_iff (complete : q.Completed v.tmpBuf tmp v') (owned : Owned v)
    (compact : Compact v) (inUse : v.inodeFlag q.i = inodeInUse) :
    Framed v v' q.i q.o q.n q.buf ↔ TailKept v q.i q.o q.n := by
  have fits := q.fits
  have held := held_iff (q := q) compact inUse
  constructor
  · intro framed j k last start late inside
    rw [← framed.kept (64 * j + k) (by push_cast; exact inside) (.inr late)]
    exact complete.tail last start late
  · intro tail
    refine ⟨fun p => complete.written, fun p inside outside => ?_, fun i other inUse' => ?_⟩
    · rw [q.size] at inside
      rcases outside with early | late
      · exact complete.before held early
      · obtain ⟨j, k, rfl⟩ := position p (by omega)
        by_cases clobbered : j.val = (q.o + q.n - 1) / 64 ∧ q.o ≤ 64 * j
        · rw [tail j k clobbered.1 clobbered.2 late (by rw [q.size]; exact_mod_cast inside)]
          exact complete.tail clobbered.1 clobbered.2 late
        · exact complete.behind held late (by omega)
    · have same := complete.inode_other other
      refine ⟨complete.inodeFlag ▸ inUse', same, fun p inside => ?_⟩
      have short := (compact i inUse').2.1
      obtain ⟨j, k, rfl⟩ := position p (by omega)
      refine fileByte_congr (by rw [same]) (fun b slot => ?_) k
      exact complete.block_of_holder owned inUse other ⟨inUse', slot⟩

end Request

/-- A write that succeeds changes the bytes it is asked to change and no others exactly when the
bytes behind the data, in a last block that is not read before, are what the buffer holds. -/
theorem framed_iff_tailKept {s s' : Machine} {h : Fin 20} {i : Fin 8} {buf : ℕ → Byte}
    {nbytes : Int32} (long : 320 ≤ s.disk.length) (owned : Owned s.store)
    (compact : Compact s.store)
    (selected : index 8 (s.store.fileHandles h).inodeNumber = some i)
    (inUse : s.store.inodeFlag i = inodeInUse)
    (within : (s.store.fileHandles h).offset.toInt ≤ (s.store.inode i).fileSize.toInt)
    (positive : 1 ≤ nbytes.toInt) (succeeds : ssufsWrite h buf nbytes s = .ok (0, s')) :
    Framed s.store s'.store i (s.store.fileHandles h).offset.toInt.toNat nbytes.toInt.toNat buf ↔
      TailKept s.store i (s.store.fileHandles h).offset.toInt.toNat nbytes.toInt.toNat := by
  obtain ⟨nonneg, short, -⟩ := compact i inUse
  obtain ⟨low, fits⟩ := ssufsWrite_zero long selected nonneg short succeeds
  obtain ⟨q, rfl, rfl, rfl, rfl⟩ := owned.request buf selected inUse low within positive fits
  rw [q.offset, q.count, Int.toNat_natCast, Int.toNat_natCast]
  cases q.outcome_of_image long succeeds with
  | completed _ complete => exact complete.framed_iff owned compact inUse

/-- A byte is written at the start of a file of ten bytes: byte 5 becomes what memory held. -/
theorem overwrite_tenBytes :
    ∃ s s' a, Holding s a ∧ index 8 (s.store.fileHandles 0).inodeNumber = some 0 ∧
      s.store.inodeFlag 0 = inodeInUse ∧ (s.store.fileHandles 0).offset = 0 ∧
      (s.store.inode 0).fileSize = 10 ∧ ssufsWrite 0 (fun _ => 66) 1 s = .ok (0, s') ∧
      s.store.fileByte 0 5 = some 65 ∧ s'.store.fileByte 0 5 = some 255 := by
  have sees : observe 255 [.create (letter 0), .openFile (letter 0), .write 0 (fun _ => 65) 10,
      .lseek 0 (-10)] 0 (fun _ => 66) 1 fun v r v' =>
        index 8 (v.fileHandles 0).inodeNumber = some 0 ∧ v.inodeFlag 0 = inodeInUse ∧
          (v.fileHandles 0).offset = 0 ∧ (v.inode 0).fileSize = 10 ∧ r = 0 ∧
          v.fileByte 0 5 = some 65 ∧ v'.fileByte 0 5 = some 255 := by
    decide +kernel
  obtain ⟨s, s', a, r, holding, runs, seen⟩ := of_observe sees
  obtain ⟨selected, inUse, offset, size, rfl, old, new⟩ := of_decide_eq_true seen
  exact ⟨s, s', a, holding, selected, inUse, offset, size, runs, old, new⟩

theorem framed_iff_tailKept_tenBytes :
    ∃ s s' : Machine, Owned s.store ∧ Compact s.store ∧
      ssufsWrite 0 (fun _ => 66) 1 s = .ok (0, s') ∧
      (Framed s.store s'.store 0 0 1 (fun _ => 66) ↔ TailKept s.store 0 0 1) := by
  obtain ⟨s, s', a, holding, selected, inUse, offset, size, succeeds, -⟩ := overwrite_tenBytes
  refine ⟨s, s', holding.1.consistent.owned, holding.1.compact, succeeds, ?_⟩
  have frame := framed_iff_tailKept holding.2 holding.1.consistent.owned holding.1.compact selected
    inUse (by rw [offset, size]; decide) (by decide) succeeds
  rw [offset] at frame
  exact frame

theorem framed_fails_tenBytes :
    ¬ ∀ (s s' : Machine) (h : Fin 20) (i : Fin 8) (buf : ℕ → Byte) (nbytes : Int32),
      320 ≤ s.disk.length → Owned s.store → Compact s.store →
      index 8 (s.store.fileHandles h).inodeNumber = some i → s.store.inodeFlag i = inodeInUse →
      (s.store.fileHandles h).offset.toInt ≤ (s.store.inode i).fileSize.toInt →
      1 ≤ nbytes.toInt → ssufsWrite h buf nbytes s = .ok (0, s') →
      Framed s.store s'.store i (s.store.fileHandles h).offset.toInt.toNat nbytes.toInt.toNat
        buf := by
  intro holds
  obtain ⟨s, s', a, holding, selected, inUse, offset, size, succeeds, old, new⟩ :=
    overwrite_tenBytes
  have framed := holds s s' 0 0 _ 1 holding.2 holding.1.consistent.owned holding.1.compact selected
    inUse (by rw [offset, size]; decide) (by decide) succeeds
  have kept := framed.kept 5 (by rw [size]; decide) (.inr (by rw [offset]; decide))
  rw [old, new] at kept
  exact absurd kept (by decide)

end SsuOs.Ssufs
