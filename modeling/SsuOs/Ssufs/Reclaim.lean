import SsuOs.Ssufs.Creation
import SsuOs.Ssufs.WriteEffects

/-!
# What a deletion gives back

`ssufs_freeInode` works on its own copy of the superblock while `ssufs_freeDataBlock` changes the
superblock on the disk. In a state with orderly files the two do not lose each other's changes:
`ssufs_delete` frees the inode and exactly the blocks of the file. Creating a file, appending to it
and deleting it gives both free lists back as they were exactly if the inode that the file gets has
no blocks left over from before: `ssufs_create` takes the inode as it finds it.
-/

namespace SsuOs.Ssufs

open Prog (Ensures)

/-! ## Deleting one file -/

/-- A state with the ownership invariant, files with different names of at most seven characters,
and all their blocks on the disk. -/
structure Orderly (s : Machine) : Prop where
  long : 320 ≤ s.disk.length
  owned : Owned s.store
  named : ∀ i, s.store.inodeFlag i = inodeInUse →
    ∃ filename : CString, filename.bytes.length ≤ 7 ∧ (s.store.inode i).Named filename
  distinct : ∀ i i' filename, s.store.inodeFlag i = inodeInUse → s.store.inodeFlag i' = inodeInUse →
    (s.store.inode i).Named filename → (s.store.inode i').Named filename → i = i'
  written : ∀ b i j, Holder s.store b i j → s.store.Readable b

/-- The file with inode `i` and its blocks are free, everything else is as it was. -/
structure Reclaimed (v : Store) (i : Fin 8) (v' : Store) : Prop where
  inodeFlag : v'.inodeFlag = Function.update v.inodeFlag i inodeFree
  flag : ∀ b, v'.flag b = if ∃ j, (v.inode i).slot j = some b then dataBlockFree else v.flag b
  size : (v'.inode i).fileSize = 0
  blocks : ∀ j, (v'.inode i).directBlocks j = -1
  inode : ∀ i', i' ≠ i → v'.inode i' = v.inode i'
  block : ∀ b i' j, i' ≠ i → Holder v b i' j → v'.block b = v.block b
  fileHandles : v'.fileHandles = v.fileHandles

/-- A deletion changes nothing on the disk and in the table of open files. -/
def DeletesNothing (s : Machine) (filename : CString) : Prop :=
  ∃ s', ssufsDelete filename s = .ok ((), s') ∧ s'.disk = s.disk ∧ s'.fileHandles = s.fileHandles

theorem ssufsDelete_implements (filename : CString) :
    Implements (ssufsDelete filename) (ssufsDelete filename) :=
  ssufsDelete_agrees machine_agrees_store filename

section Delete

variable {s : Machine} {filename : CString} {i : Fin 8}

theorem deletesNothing_of_absent (long : 320 ≤ s.disk.length)
    (absent : s.store.lookup filename = none) : DeletesNothing s filename := by
  have finds := openNamei_apply filename s.store
  rw [absent] at finds
  obtain ⟨s', runs, -⟩ := (openNamei_implements filename).lift long finds
  have kept := (keeps_openNamei (P := fun t => t.disk = s.disk ∧ t.fileHandles = s.fileHandles)
    (fun _ _ same => same) filename).post ⟨rfl, rfl⟩ runs
  refine ⟨s', ?_, kept⟩
  rw [ssufsDelete, Prog.bind_ok runs, Prog.ite_apply]
  rfl

theorem Orderly.lookup (orderly : Orderly s) (short : filename.bytes.length ≤ 7)
    (inUse : s.store.inodeFlag i = inodeInUse) (named : (s.store.inode i).Named filename) :
    s.store.lookup filename = some i :=
  lookup_eq_of_unique (by omega) inUse named fun i' inUse' named' =>
    orderly.distinct i' i filename inUse' inUse named' named

theorem Orderly.delete (orderly : Orderly s) (short : filename.bytes.length ≤ 7)
    (inUse : s.store.inodeFlag i = inodeInUse) (named : (s.store.inode i).Named filename) :
    ∃ s', ssufsDelete filename s = .ok ((), s') ∧ Reclaimed s.store i s'.store := by
  have owned := orderly.owned
  obtain ⟨v', deletes, freed⟩ := ssufsDelete_apply (orderly.lookup short inUse named)
    (owned.valid inUse) (owned.distinct inUse) (fun j b held => owned.used ⟨inUse, held⟩)
    fun j b held => orderly.written b i j ⟨inUse, held⟩
  obtain ⟨s', runs, rfl, -⟩ := (ssufsDelete_implements filename).lift orderly.long deletes
  refine ⟨s', runs, freed.inodeFlag, freed.flag, ?_, fun j => ?_, fun i' other => ?_,
    fun b i' j other holder => ?_, freed.fileHandles⟩
  · rw [freed.inode, Function.update_self]
  · rw [freed.inode, Function.update_self]
  · rw [freed.inode, Function.update_of_ne other]
    rfl
  · rw [freed.block]
    refine if_neg ?_
    rintro ⟨j', -, held⟩
    exact other (owned.unique holder ⟨inUse, held⟩).1

end Delete

/-! ## A file from its creation to its deletion -/

/-- The calls between the creation of the file with inode `i` and its deletion: writes to it at its
end, and calls that do not write. -/
def Appending (i : Fin 8) (v : Store) : Call → Prop
  | .write h _ nbytes => index 8 (v.fileHandles h).inodeNumber = some i ∧
      (v.fileHandles h).offset = (v.inode i).fileSize ∧ 1 ≤ nbytes.toInt
  | call => call.ReadsOnly

/-- Such a call, and the writes return 0. -/
def AppendStep (i : Fin 8) (s : Machine) (e : Call × Reply) (s' : Machine) : Prop :=
  UserStep (Appending i) s e s' ∧ ∀ h buf nbytes, e.1 = .write h buf nbytes → e.2.value = some 0

/-- What a file with inode `i` has of the store `v₀` from before its creation: the name, and blocks
that were free. -/
structure Lent (v₀ : Store) (i : Fin 8) (filename : CString) (v : Store) : Prop where
  inodeFlag : v.inodeFlag = Function.update v₀.inodeFlag i inodeInUse
  inode : ∀ i', i' ≠ i → v.inode i' = v₀.inode i'
  named : (v.inode i).Named filename
  valid : (v.inode i).Valid
  distinct : (v.inode i).Distinct
  held : ∀ j b, (v.inode i).slot j = some b →
    v₀.flag b = dataBlockFree ∧ v.flag b = dataBlockUsed ∧ v.Readable b
  flag : ∀ b, (∀ j, (v.inode i).slot j ≠ some b) → v.flag b = v₀.flag b

namespace Lent

variable {v₀ v v' : Store} {i : Fin 8} {filename : CString}

theorem created (bare : ∀ j, (v₀.inode i).directBlocks j = -1)
    (short : filename.bytes.length ≤ 7) : Lent v₀ i filename (v₀.created i filename) := by
  have empty (j : Fin 4) : ((v₀.created i filename).inode i).directBlocks j = -1 := by
    rw [Store.created_directBlocks (by omega)]
    exact bare j
  have none (j : Fin 4) : ((v₀.created i filename).inode i).slot j = none :=
    Inode.slot_of_neg_one (empty j)
  refine ⟨rfl, fun i' other => Store.created_inode_of_ne other, Store.created_named (by omega),
    fun j nonempty => ?_, fun j j' b held => ?_, fun j b held => ?_, fun _ _ => rfl⟩
  · exact absurd (empty j) nonempty
  · exact absurd held (by simp [none])
  · exact absurd held (by simp [none])

/-- Only the disk matters. -/
theorem congr (lent : Lent v₀ i filename v) (superblock : v'.superblock = v.superblock)
    (inode : v'.inode = v.inode) (length : v'.length = v.length) : Lent v₀ i filename v' := by
  obtain ⟨sup, ino, block, len, handles, junk⟩ := v
  obtain ⟨sup', ino', block', len', handles', junk'⟩ := v'
  obtain rfl : sup' = sup := superblock
  obtain rfl : ino' = ino := inode
  obtain rfl : len' = len := length
  exact ⟨lent.inodeFlag, lent.inode, lent.named, lent.valid, lent.distinct, lent.held, lent.flag⟩

/-- A write to the file that completes. -/
theorem write (q : Request v) {t : Block} {tmp : Inode} (complete : q.Completed t tmp v')
    (short : filename.bytes.length ≤ 7) (lent : Lent v₀ q.i filename v) :
    Lent v₀ q.i filename v' := by
  have plan := complete.plan
  have self := complete.inode_self
  have slots (j : Fin 4) : (v'.inode q.i).slot j = tmp.slot j := by
    rw [self]
    rfl
  refine ⟨complete.inodeFlag.trans lent.inodeFlag, fun i' other => ?_, ?_, ?_, ?_,
    fun j b held => ?_, fun b none => ?_⟩
  · rw [complete.inode_other other]
    exact lent.inode i' other
  · rw [Inode.named_iff short, self]
    have name : tmp.name = q.inode.name := by rw [plan.rest]
    change _ <+: List.ofFn tmp.name
    rw [name]
    exact (Inode.named_iff short).1 lent.named
  · rw [self]
    exact plan.valid
  · rw [self]
    exact plan.distinct
  · rw [slots] at held
    refine ⟨?_, complete.used held, ?_⟩
    · by_cases empty : q.inode.directBlocks j = -1
      · -- a new block was free before the write, so that the file did not hold it
        obtain ⟨-, free⟩ := plan.fresh_of_slot empty held
        rw [← lent.flag b fun j' held' => ?_]
        · exact free
        · exact dataBlockUsed_ne_free ((lent.held j' b held').2.1.symm.trans free)
      · exact (lent.held j b (plan.slot_old empty held)).1
    · by_cases touched : q.Touched q.past j
      · exact complete.filled.readable j b touched held
      · have old : q.inode.slot j = some b := (plan.slot_untouched touched).symm.trans held
        exact le_trans (lent.held j b old).2.2 complete.filled.length
  · simp only [slots] at none
    rw [complete.flag b fun j _ => none j]
    exact lent.flag b fun j held => none j (plan.slot_kept held)

/-- Deleting the file gives everything back. -/
theorem delete (lent : Lent v₀ i filename v) (short : filename.bytes.length ≤ 7)
    (free : v₀.inodeFlag i = inodeFree) (absent : v₀.lookup filename = none) :
    ∃ v', ssufsDelete filename v = .ok ((), v') ∧ v'.flag = v₀.flag ∧
      v'.inodeFlag = v₀.inodeFlag := by
  have flags (i' : Fin 8) : v.inodeFlag i' = if i' = i then inodeInUse else v₀.inodeFlag i' := by
    rw [lent.inodeFlag, Function.update_apply]
  have here : v.lookup filename = some i := by
    refine lookup_eq_of_unique (by omega) ?_ lent.named fun i' inUse named => ?_
    · rw [flags, if_pos rfl]
    · by_contra other
      rw [flags, if_neg other] at inUse
      rw [lent.inode i' other] at named
      exact (lookup_eq_none (by omega)).1 absent i' inUse named
  obtain ⟨v', deletes, freed⟩ := ssufsDelete_apply here lent.valid lent.distinct
    (fun j b held => (lent.held j b held).2.1) fun j b held => (lent.held j b held).2.2
  refine ⟨v', deletes, funext fun b => ?_, ?_⟩
  · rw [freed.flag]
    split_ifs with held
    · obtain ⟨j, slot⟩ := held
      exact (lent.held j b slot).1.symm
    · exact lent.flag b fun j slot => held ⟨j, slot⟩
  · rw [freed.inodeFlag]
    change Function.update v.inodeFlag i inodeFree = _
    rw [lent.inodeFlag, Function.update_idem, ← free, Function.update_eq_self]

end Lent

section Steps

variable {v₀ : Store} {i : Fin 8} {filename : CString}

/-- A write that returns 0 at the end of the file is a request that completes. -/
theorem Lent.append {s s' : Machine} {h : Fin 20} {buf : ℕ → Byte} {nbytes : Int32}
    (lent : Lent v₀ i filename s.store) (long : 320 ≤ s.disk.length)
    (short : filename.bytes.length ≤ 7) (appending : Appending i s.store (.write h buf nbytes))
    (succeeds : ssufsWrite h buf nbytes s = .ok (0, s')) : Lent v₀ i filename s'.store := by
  obtain ⟨selected, atEnd, positive⟩ := appending
  obtain ⟨passes, ⟨low, high⟩, count⟩ := ssufsWrite_zero_cases long selected succeeds
  rw [atEnd] at low high
  have sum := toInt_add_cases (y := nbytes) low
  let q : Request s.store :=
    { fileHandle := h
      buf := buf
      nbytes := nbytes
      i := i
      o := (s.store.inode i).fileSize.toInt.toNat
      f := (s.store.inode i).fileSize.toInt.toNat
      n := nbytes.toInt.toNat
      opened := selected
      offset := by rw [atEnd]; omega
      size := by omega
      count := by omega
      positive := by omega
      within := le_rfl
      fits := by omega
      valid := lent.valid
      distinct := lent.distinct
      used := fun j b held => (lent.held j b held).2.1 }
  cases q.outcome_of_image long succeeds with
  | completed _ complete => exact Lent.write q complete short lent

theorem AppendStep.lent {s s' : Machine} {e : Call × Reply} (long : 320 ≤ s.disk.length)
    (short : filename.bytes.length ≤ 7) (lent : Lent v₀ i filename s.store)
    (step : AppendStep i s e s') : Lent v₀ i filename s'.store := by
  obtain ⟨call, reply⟩ := e
  obtain ⟨⟨appending, runs⟩, succeeds⟩ := step
  have quiet (readsOnly : call.ReadsOnly) : Lent v₀ i filename s'.store := by
    have same := exec_disk readsOnly runs
    exact lent.congr (congrArg superblockOf same) (congrArg inodeOf same)
      (congrArg List.length same)
  cases call with
  | write h buf nbytes =>
    obtain ⟨r, t, writes, returns⟩ := Prog.bind_eq_ok runs
    cases returns
    obtain rfl : r = 0 := Option.some.inj (succeeds h buf nbytes rfl)
    exact lent.append long short appending writes
  | openFile filename' => exact quiet trivial
  | read h nbytes => exact quiet trivial
  | lseek h nseek => exact quiet trivial
  | close h => exact quiet trivial
  | create filename' => exact quiet appending
  | delete filename' => exact quiet appending

theorem lent_of_run {s t : Machine} {l : List (Event Machine (Call × Reply))}
    (long : 320 ≤ s.disk.length) (short : filename.bytes.length ≤ 7)
    (lent : Lent v₀ i filename s.store) (run : Run (AppendStep i) s l t) :
    320 ≤ t.disk.length ∧ Lent v₀ i filename t.store :=
  run.invariant (P := fun x => 320 ≤ x.disk.length ∧ Lent v₀ i filename x.store) ⟨long, lent⟩
    fun _ _ _ kept step => ⟨step.1.long kept.1, step.lent kept.1 short kept.2⟩

end Steps

/-! ## Deleting what was created -/

/-- Creating the file, any appends that succeed and deleting it give both free lists back. -/
def GivesBack (s : Machine) (filename : CString) : Prop :=
  ∀ i s₁ l s₂, ssufsCreate filename s = .ok (ofIndex i, s₁) → Run (AppendStep i) s₁ l s₂ →
    ∃ s₃, ssufsDelete filename s₂ = .ok ((), s₃) ∧ s₃.store.flag = s.store.flag ∧
      s₃.store.inodeFlag = s.store.inodeFlag

/-- If a new file is created for the name, its inode has no blocks before it. -/
def Bare (v : Store) (filename : CString) : Prop :=
  (∀ i, v.inodeFlag i = inodeInUse → ¬ (v.inode i).Named filename) →
    ∀ i, v.firstFreeInode = some i → ∀ j, (v.inode i).directBlocks j = -1

section GivesBack

variable {s : Machine} {filename : CString} (long : 320 ≤ s.disk.length)
  (short : filename.bytes.length ≤ 7)

include long

/-- The state after a creation that has given out inode `i`. -/
theorem created_of_create {s₁ : Machine} {i : Fin 8}
    (creates : ssufsCreate filename s = .ok (ofIndex i, s₁)) :
    s.store.lookup filename = none ∧ s.store.firstFreeInode = some i ∧
      s₁.store = s.store.created i filename ∧ 320 ≤ s₁.disk.length := by
  rcases ssufsCreate_cases filename s.store with ⟨-, refused⟩ | ⟨i', absent, free, created⟩
  · obtain ⟨s', runs, -⟩ := (ssufsCreate_implements filename).lift long refused
    rw [runs, Except.ok.injEq, Prod.mk.injEq] at creates
    exact absurd creates.1.symm (ofIndex_ne_neg_one (by norm_num) i)
  · obtain ⟨s', runs, store, long'⟩ := (ssufsCreate_implements filename).lift long created
    rw [runs, Except.ok.injEq, Prod.mk.injEq] at creates
    obtain ⟨number, rfl⟩ := creates
    obtain rfl := (ofIndex_inj (by norm_num)).1 number
    exact ⟨absent, free, store, long'⟩

include short

theorem Bare.givesBack (bare : Bare s.store filename) : GivesBack s filename := by
  intro i s₁ l s₂ creates run
  obtain ⟨absent, free, created, long₁⟩ := created_of_create long creates
  have empty := bare ((lookup_eq_none (by omega)).1 absent) i free
  obtain ⟨long₂, lent⟩ := lent_of_run long₁ short (created ▸ Lent.created empty short) run
  obtain ⟨v, deletes, flag, inodeFlag⟩ := lent.delete short (firstFreeInode_eq_some free) absent
  obtain ⟨s₃, runs, rfl, -⟩ := (ssufsDelete_implements filename).lift long₂ deletes
  exact ⟨s₃, runs, flag, inodeFlag⟩

/-- Deleting the file right after its creation frees the blocks that its inode had before. -/
theorem GivesBack.bare (givesBack : GivesBack s filename)
    (valid : ∀ i, s.store.firstFreeInode = some i → (s.store.inode i).Valid) :
    Bare s.store filename := by
  intro unnamed i free j
  have absent := (lookup_eq_none (show filename.bytes.length ≤ 8 by omega)).2 unnamed
  by_contra nonempty
  obtain ⟨b, slot⟩ := valid i free j nonempty
  have creates := ssufsCreate_apply filename s.store
  rw [absent, free] at creates
  obtain ⟨s₁, runs, created, long₁⟩ := (ssufsCreate_implements filename).lift long creates
  obtain ⟨s₃, deletes, flag, -⟩ := givesBack i s₁ [] s₁ runs .nil
  have here : s₁.store.lookup filename = some i := by
    rw [created]
    exact lookup_created (by omega) absent
  have blocks : (s₁.store.inode i).directBlocks = (s.store.inode i).directBlocks := by
    rw [created, Store.created_directBlocks (by omega)]
  have valid₁ : (s₁.store.inode i).Valid := by
    intro j' nonempty'
    rw [Inode.slot, blocks]
    exact valid i free j' (blocks ▸ nonempty')
  have ends := ssufsDelete_ends here valid₁
  have kept : ssufsDelete filename s₁.store ≠ .error .outsideRecords := by
    intro lost
    rw [Ends, Ensures, lost] at ends
    exact ends rfl
  obtain ⟨same, -⟩ := (ssufsDelete_implements filename).ok long₁ deletes kept
  have slot₁ : (s₁.store.inode i).slot j = some b := by
    rw [Inode.slot, blocks]
    exact slot
  obtain ⟨used, freed⟩ := (ends.post same).2 j b slot₁
  have before : s₁.store.flag b = s.store.flag b := by
    rw [created, Store.created_flag]
  rw [before, ← flag, freed] at used
  exact absurd used (by decide)

end GivesBack

/-- What `ssufs_delete` is for: it frees a file that exists and exactly what belongs to it, leaves
everything as it is if there is none, and undoes the creation of a file. -/
structure Reclaims (s : Machine) (filename : CString) : Prop where
  present : ∀ i, s.store.inodeFlag i = inodeInUse → (s.store.inode i).Named filename →
    ∃ s', ssufsDelete filename s = .ok ((), s') ∧ Reclaimed s.store i s'.store
  absent : (∀ i, s.store.inodeFlag i = inodeInUse → ¬ (s.store.inode i).Named filename) →
    DeletesNothing s filename
  givesBack : GivesBack s filename

/-- In an orderly state, a deletion gives back exactly what belongs to the file if a new file of
that name starts without blocks. The converse holds if the inode of the new file has only numbers of
blocks in its slots. -/
theorem reclaims_iff_bare {s : Machine} {filename : CString} (orderly : Orderly s)
    (short : filename.bytes.length ≤ 7) :
    (Bare s.store filename → Reclaims s filename) ∧
      ((∀ i, s.store.firstFreeInode = some i → (s.store.inode i).Valid) →
        Reclaims s filename → Bare s.store filename) := by
  refine ⟨fun bare => ⟨fun i => orderly.delete short, fun unnamed => ?_,
    bare.givesBack orderly.long short⟩, fun valid reclaims =>
      reclaims.givesBack.bare orderly.long short valid⟩
  exact deletesNothing_of_absent orderly.long ((lookup_eq_none (by omega)).2 unnamed)

/-! ## Seven files -/

/-- The files `a` to `g` with four blocks each, in the order of the inodes. -/
structure SevenFiles (v : Store) : Prop where
  inodeFlag : ∀ i : Fin 8, v.inodeFlag i = if i.val < 7 then inodeInUse else inodeFree
  named : ∀ i : Fin 8, i.val < 7 → (v.inode i).Named (letter i)
  slots : ∀ (i : Fin 8) (j : Fin 4), i.val < 7 →
    ((v.inode i).slot j).map Fin.val = some (4 * i.val + j.val)
  flag : ∀ b : Fin 30, v.flag b = if b.val < 28 then dataBlockUsed else dataBlockFree
  length : 2112 ≤ v.length

instance (v : Store) : Decidable (SevenFiles v) :=
  decidable_of_iff ((∀ i : Fin 8, v.inodeFlag i = if i.val < 7 then inodeInUse else inodeFree) ∧
    (∀ i : Fin 8, i.val < 7 → (v.inode i).Named (letter i)) ∧
    (∀ (i : Fin 8) (j : Fin 4), i.val < 7 →
      ((v.inode i).slot j).map Fin.val = some (4 * i.val + j.val)) ∧
    (∀ b : Fin 30, v.flag b = if b.val < 28 then dataBlockUsed else dataBlockFree) ∧
    2112 ≤ v.length)
    ⟨fun facts => ⟨facts.1, facts.2.1, facts.2.2.1, facts.2.2.2.1, facts.2.2.2.2⟩,
      fun seven => ⟨seven.inodeFlag, seven.named, seven.slots, seven.flag, seven.length⟩⟩

theorem letter_injective : Function.Injective letter := by decide

namespace SevenFiles

variable {v : Store} (seven : SevenFiles v)

include seven

theorem inUse_iff (i : Fin 8) : v.inodeFlag i = inodeInUse ↔ i.val < 7 := by
  rw [seven.inodeFlag]
  split_ifs with early
  · exact iff_of_true rfl early
  · exact iff_of_false inodeInUse_ne_free.symm early

theorem holder_iff (b : Fin 30) (i : Fin 8) (j : Fin 4) :
    Holder v b i j ↔ i.val < 7 ∧ b.val = 4 * i + j := by
  rw [Holder, seven.inUse_iff]
  refine and_congr_right fun early => ?_
  have slot := seven.slots i j early
  constructor
  · intro held
    rw [held] at slot
    exact Option.some.inj slot
  · intro value
    obtain ⟨c, held, same⟩ := Option.map_eq_some_iff.1 slot
    rw [held, Option.some.injEq, Fin.ext_iff]
    omega

theorem owned : Owned v := by
  have flags (b : Fin 30) : v.flag b = dataBlockUsed ↔ b.val < 28 := by
    rw [seven.flag]
    split_ifs with early
    · exact iff_of_true rfl early
    · exact iff_of_false dataBlockUsed_ne_free.symm early
  refine .of_holders (fun i inUse j _ => ?_) (fun b i j holder => ?_)
    (fun b i j i' j' first second => ?_) (fun b used => ?_)
  · obtain ⟨b, held, -⟩ := Option.map_eq_some_iff.1 (seven.slots i j ((seven.inUse_iff i).1 inUse))
    exact ⟨b, held⟩
  · rw [seven.holder_iff] at holder
    rw [flags]
    omega
  · rw [seven.holder_iff] at first second
    constructor <;> rw [Fin.ext_iff] <;> omega
  · rw [flags] at used
    refine ⟨⟨b.val / 4, by omega⟩, ⟨b.val % 4, by omega⟩, (seven.holder_iff ..).2 ⟨?_, ?_⟩⟩ <;>
      dsimp only <;> omega

end SevenFiles

theorem SevenFiles.orderly {s : Machine} (long : 320 ≤ s.disk.length)
    (seven : SevenFiles s.store) : Orderly s where
  long := long
  owned := seven.owned
  named i inUse := ⟨letter i, by simp [letter], seven.named i ((seven.inUse_iff i).1 inUse)⟩
  distinct i i' filename inUse inUse' first second := by
    have name := (seven.named i ((seven.inUse_iff i).1 inUse)).unique first
    have name' := (seven.named i' ((seven.inUse_iff i').1 inUse')).unique second
    exact letter_injective (name.trans name'.symm)
  written b i j holder := by
    have bound := seven.length
    rw [seven.holder_iff] at holder
    rw [Store.Readable]
    omega

/-- The file `h` is deleted while it is open: its inode is the first free one, and has no blocks. -/
theorem reclaims_iff_bare_lastDeleted :
    ∃ s, Orderly s ∧ s.store.firstFreeInode = some 7 ∧ Reclaims s (letter 7) := by
  have ends : (replay (fun _ _ => True) (sevenFull ++ [.delete (letter 7)])
      (Store.fresh fun _ => 255)).map (fun v => decide (SevenFiles v ∧
        v.firstFreeInode = some 7 ∧ ∀ j, (v.inode 7).directBlocks j = -1)) = some true := by
    decide +kernel
  obtain ⟨v, replays, holds⟩ := Option.map_eq_some_iff.1 ends
  obtain ⟨seven, free, empty⟩ := of_decide_eq_true holds
  obtain ⟨s₀, l, s, -, -, -, rfl, long⟩ := run_of_replay_fresh 255 replays
  have orderly := seven.orderly long
  refine ⟨s, orderly, free, (reclaims_iff_bare orderly (by decide)).1 fun _ i free' => ?_⟩
  rwa [← Option.some.inj (free.symm.trans free')]

/-- The file `h` is deleted while it is open, and then written to through the handle: one block of
data, and from its start three blocks, for which there are not enough. The last write has freed the
block that the inode of the deleted file had got, and the inode still has its number: the state is
orderly, but creating `h` and deleting it again fails an assertion. -/
theorem reclaims_fails_staleInode :
    ∃ s s₀ l t, ssufsFormatDisk s = .ok ((), s₀) ∧ Run (UserStep fun _ _ => True) s₀ l t ∧
      Orderly t ∧ ¬ Reclaims t (letter 7) := by
  have ends : (replay (fun _ _ => True) (sevenFull ++ [.delete (letter 7),
      .write 7 (fun _ => 65) 64, .lseek 7 (-64), .write 7 (fun _ => 66) 192])
      (Store.fresh fun _ => 255)).map (fun v => decide (SevenFiles v ∧
        v.firstFreeInode = some 7 ∧ v.lookup (letter 7) = none ∧
        (v.inode 7).directBlocks 0 ≠ -1 ∧ ∀ j, (v.inode 7).directBlocks j ≠ -1 →
          ((v.inode 7).slot j).isSome)) = some true := by
    decide +kernel
  obtain ⟨v, replays, holds⟩ := Option.map_eq_some_iff.1 ends
  obtain ⟨seven, free, absent, stale, valid⟩ := of_decide_eq_true holds
  obtain ⟨s₀, l, t, format, run, -, rfl, long⟩ := run_of_replay_fresh 255 replays
  refine ⟨_, s₀, l, t, format, run, seven.orderly long, fun reclaims => ?_⟩
  have bare := reclaims.givesBack.bare long (by decide) fun i free' => ?_
  · exact stale (bare ((lookup_eq_none (by decide)).1 absent) _ free _)
  · rw [← Option.some.inj (free.symm.trans free')]
    exact fun j nonempty => Option.isSome_iff_exists.1 (valid j nonempty)

end SsuOs.Ssufs
