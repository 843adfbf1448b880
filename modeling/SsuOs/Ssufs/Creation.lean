import SsuOs.Ssufs.Frames
import SsuOs.Ssufs.Names

/-!
# Creating a file and finding it

`open_namei` answers -1 for a name that is too long as well as for one that no file has, and
`ssufs_create` takes both as leave to create the file; it copies the name into the inode whatever
its length, and leaves the size as it is. `registers_iff_admits` says for which names and states the
file that `ssufs_create` reports is an empty file that `open_namei` finds.
-/

namespace SsuOs.Ssufs

open ByteFile
open Prog (Ensures)

/-! ## Refused names -/

theorem ssufsAllocInode_disk {s t : Machine} (same : t.disk = s.disk) :
    Ensures (fun _ => True) ssufsAllocInode t fun i u => i = -1 → u.disk = s.disk := by
  have reads := keeps_readSuperBlock (P := fun u => u.disk = s.disk) (fun _ _ kept => kept) t same
  rw [ssufsAllocInode]
  refine .bind (reads.imp fun superblock u kept => ?_)
  split
  · refine .bind (.of_forall (fun _ => trivial) fun _ _ => .pure fun clash => ?_)
    exact absurd clash (ofIndex_ne_neg_one (by norm_num) _)
  · exact .pure fun _ => kept

/-- A `ssufs_create` that returns -1 has only read. -/
theorem ssufsCreate_disk {s s' : Machine} {filename : CString}
    (refused : ssufsCreate filename s = .ok (-1, s')) : s'.disk = s.disk := by
  have only : Ensures (fun _ => True) (ssufsCreate filename) s
      fun r (t : Machine) => r = -1 → t.disk = s.disk := by
    rw [ssufsCreate]
    refine .bind ((keeps_openNamei (P := fun u => u.disk = s.disk) (fun _ _ kept => kept) filename
      s rfl).imp fun found t same => ?_)
    split_ifs
    · exact .pure fun _ => same
    · refine .bind ((ssufsAllocInode_disk same).imp fun i u kept => ?_)
      split_ifs with none
      · exact .pure fun _ => kept none
      · refine .bind (.of_forall (fun _ => trivial) fun _ _ => ?_)
        exact .bind (.of_forall (fun _ => trivial) fun _ _ => .pure fun clash => absurd clash none)
  exact only.post refused rfl

/-! ## New files -/

section Store

variable {filename : CString}

/-- The size of an inode is 0 once it has the name: the NUL of a name of eight characters clears the
lowest byte. -/
def Cleared (inode : Inode) (filename : CString) : Prop :=
  if filename.bytes.length ≤ 7 then inode.fileSize = 0
  else 0 ≤ inode.fileSize.toInt ∧ inode.fileSize.toInt < 256

theorem fileSize_strcpyName_iff (inode : Inode) (short : filename.bytes.length ≤ 8) :
    (inode.strcpyName filename).fileSize = 0 ↔ Cleared inode filename := by
  rw [Cleared]
  split_ifs with seven
  · rw [(inode.strcpyName_rest seven).2.1]
  · have long : filename.bytes.length = 8 := by omega
    rw [Inode.strcpyName_fileSize_eq]
    exact ofLE_clear_eq_zero (inode.strcpy_nul long) fun k below => inode.strcpy_size long below

end Store

/-! ## Agreement -/

/-- `ssufs_create` returns; a file that it reports is found by `open_namei` right afterwards and has
size 0, and if it reports none the disk is as before. -/
def Registers (s : Machine) (filename : CString) : Prop :=
  ∃ r s', ssufsCreate filename s = .ok (r, s') ∧ (0 ≤ r.toInt ∨ r = -1) ∧
    (0 ≤ r.toInt → (∃ s'', openNamei filename s' = .ok (r, s'')) ∧
      ∃ i, index 8 r = some i ∧ (s'.store.inode i).fileSize = 0) ∧
    (r = -1 → s'.disk = s.disk)

/-- No inode is free; or the name has at most eight characters, and a file has it or the inode that
a new file gets has the size 0. -/
def Admits (v : Store) (filename : CString) : Prop :=
  (∀ i, v.inodeFlag i ≠ inodeFree) ∨ filename.bytes.length ≤ 8 ∧
    ((∃ i, v.inodeFlag i = inodeInUse ∧ (v.inode i).Named filename) ∨
      ∀ i, v.firstFreeInode = some i → Cleared (v.inode i) filename)

section Machine

variable {s : Machine} {filename : CString}

/-- After a creation that is refused. -/
theorem registers_of_refused (long : 320 ≤ s.disk.length)
    (refused : ssufsCreate filename s.store = .ok (-1, s.store)) : Registers s filename := by
  obtain ⟨s', runs, -⟩ := (ssufsCreate_implements filename).lift long refused
  have negative : ¬ 0 ≤ (-1 : Int32).toInt := by decide
  exact ⟨-1, s', runs, .inr rfl, fun nonneg => absurd nonneg negative, fun _ => ssufsCreate_disk runs⟩

/-- After a creation that takes inode `i`. -/
theorem registers_created_iff (long : 320 ≤ s.disk.length) {i : Fin 8}
    (absent : s.store.lookup filename = none)
    (creates : ssufsCreate filename s.store = .ok (ofIndex i, s.store.created i filename)) :
    Registers s filename ↔ filename.bytes.length ≤ 8 ∧ Cleared (s.store.inode i) filename := by
  obtain ⟨s', runs, created, long'⟩ := (ssufsCreate_implements filename).lift long creates
  have selected := index_ofIndex (show 8 ≤ 2 ^ 31 by norm_num) i
  have nonneg : 0 ≤ (ofIndex i).toInt := by
    rw [toInt_ofIndex (by norm_num)]
    exact Int.natCast_nonneg _
  have finds := openNamei_apply filename s'.store
  obtain ⟨s'', runs', -⟩ := (openNamei_implements filename).lift long' finds
  have inode : s'.store.inode i =
      ({ s.store.inode i with status := 49 } : Inode).strcpyName filename := by
    rw [created, Store.created_inode_self]
  constructor
  · rintro ⟨r, t, runs₁, -, registered, -⟩
    cases runs.symm.trans runs₁
    obtain ⟨⟨t', found'⟩, i', selected', empty⟩ := registered nonneg
    obtain rfl : i = i' := Option.some.inj (selected.symm.trans selected')
    have same : found (s'.store.lookup filename) = ofIndex i := by
      rw [runs'] at found'
      exact congrArg Prod.fst (Except.ok.inj found')
    rw [found_eq_ofIndex (by norm_num)] at same
    have short := length_le_of_lookup same
    rw [inode, fileSize_strcpyName_iff _ short] at empty
    exact ⟨short, empty⟩
  · rintro ⟨short, cleared⟩
    refine ⟨_, s', runs, .inl nonneg, fun _ => ⟨⟨s'', ?_⟩, i, selected, ?_⟩, fun clash => ?_⟩
    · rw [runs', created, lookup_created short absent, found]
    · rw [inode]
      exact (fileSize_strcpyName_iff _ short).2 cleared
    · exact absurd clash (ofIndex_ne_neg_one (by norm_num) i)

theorem registers_iff (long : 320 ≤ s.disk.length) :
    Registers s filename ↔ Admits s.store filename := by
  rcases ssufsCreate_cases filename s.store with ⟨why, refused⟩ | ⟨i, absent, free, creates⟩
  · refine iff_of_true (registers_of_refused long refused) ?_
    rcases why with present | full
    · obtain ⟨i, here⟩ := Option.ne_none_iff_exists'.1 present
      exact .inr ⟨length_le_of_lookup here, .inl ⟨i, lookup_eq_some here⟩⟩
    · exact .inl fun i => by simpa using List.find?_eq_none.1 full i (List.mem_finRange i)
  · rw [registers_created_iff long absent creates]
    constructor
    · rintro ⟨short, cleared⟩
      refine .inr ⟨short, .inr fun i' free' => ?_⟩
      rwa [← Option.some.inj (free.symm.trans free')]
    · rintro (full | ⟨short, ⟨i', inUse, named⟩ | cleared⟩)
      · exact absurd (firstFreeInode_eq_some free) (full i)
      · exact absurd named ((lookup_eq_none short).1 absent i' inUse)
      · exact ⟨short, cleared i free⟩

end Machine

/-- In every state that calls of any kind can reach from a formatted disk, and for every name,
`ssufs_create` and `open_namei` agree exactly if the state admits the name. -/
theorem registers_iff_admits {s s₀ t : Machine} {l : List (Event Machine (Call × Reply))}
    (format : ssufsFormatDisk s = .ok ((), s₀)) (run : Run (UserStep fun _ _ => True) s₀ l t)
    (filename : CString) : Registers t filename ↔ Admits t.store filename :=
  registers_iff (reachable_selects format run).1

/-- Of two files the first is written and deleted, and a third one gets its inode. -/
theorem registers_iff_admits_third :
    ∃ s₀ l t, ssufsFormatDisk (bootWith 255) = .ok ((), s₀) ∧
      Run (UserStep fun _ _ => True) s₀ l t ∧ l.length = 6 ∧
      t.store.lookup (letter 1) = some 1 ∧ t.store.firstFreeInode = some 0 ∧
      Registers t (letter 2) := by
  have ends : (replay (fun _ _ => True)
      [.create (letter 0), .openFile (letter 0), .write 0 (fun _ => 65) 70, .create (letter 1),
        .close 0, .delete (letter 0)]
      (Store.fresh fun _ => 255)).map
        (fun v => (v.lookup (letter 1), v.firstFreeInode, (v.inode 0).fileSize)) =
          some (some 1, some 0, 0) := by
    decide +kernel
  obtain ⟨v, replays, seen⟩ := Option.map_eq_some_iff.1 ends
  obtain ⟨s₀, l, t, format, run, made, rfl, -⟩ := run_of_replay_fresh 255 replays
  simp only [Prod.mk.injEq] at seen
  obtain ⟨other, free, empty⟩ := seen
  refine ⟨s₀, l, t, format, run, by simpa using congrArg List.length made, other, free, ?_⟩
  refine (registers_iff_admits format run (letter 2)).2 (.inr ⟨by decide, .inr fun i free' => ?_⟩)
  obtain rfl := Option.some.inj (free.symm.trans free')
  exact (if_pos (by decide)).mpr empty

/-- The name `aaaaaaaaa` of nine characters. -/
def nineLetters : CString where
  bytes := List.replicate 9 97
  noNul := by decide

/-- On a formatted disk `ssufs_create` gives inode 0 to a name of nine characters, which
`open_namei` never finds. -/
theorem registers_fails_nineLetters :
    ¬ ∀ s s₀ l t, ssufsFormatDisk s = .ok ((), s₀) → Run (UserStep fun _ _ => True) s₀ l t →
      ∀ filename, Registers t filename := by
  intro holds
  obtain ⟨s₀, format, fresh, long⟩ := ssufsFormatDisk_apply (bootWith 0)
  have admits := (registers_iff long).1 (holds _ s₀ [] s₀ format .nil nineLetters)
  rw [fresh] at admits
  rcases admits with full | ⟨short, -⟩
  · exact full 0 rfl
  · exact absurd short (by decide)

end SsuOs.Ssufs
