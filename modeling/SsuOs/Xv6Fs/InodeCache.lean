import SsuOs.Xv6Fs.FileRuns

/-!
# Entries of the inode cache

`icache` has `NINODE` entries. The kernel names an inode by a pointer to its entry and counts the
pointers; an entry without any is free for another inode. What the kernel does with entries comes
down to calls on inodes by their numbers, so that a run of the one is a run of the other, and the
panics of the cache itself are the only ones that are new.
-/

namespace SsuOs.Xv6Fs.Inodes

/-! ## The cache -/

/-- The fields of `struct inode` that `icache.lock` guards. -/
structure Entry where
  inum : ℕ
  ref : ℤ
  deriving DecidableEq

/-- `ip->ref += n`. -/
def addRef (entry : Fin ninode → Entry) (e : Fin ninode) (n : ℤ) : Fin ninode → Entry :=
  Function.update entry e { entry e with ref := (entry e).ref + n }

structure Kernel where
  /-- with what the valid entries hold under the number of their inode -/
  fs : Fs
  entry : Fin ninode → Entry

namespace Kernel

/-- No entry is in use. -/
def start (fs : Fs) : Kernel := ⟨fs, fun _ => ⟨0, 0⟩⟩

-- One loop of the source looks for the inode and remembers the first entry that is free.
def iget (k : Kernel) (i : ℕ) : Except Panic (Fin ninode × Kernel) :=
  match (List.finRange ninode).find? fun e =>
    decide (0 < (k.entry e).ref) && decide ((k.entry e).inum = i) with
  | some e => .ok (e, { k with entry := addRef k.entry e 1 })
  | none =>
    match (List.finRange ninode).find? fun e => decide ((k.entry e).ref = 0) with
    | some e => .ok (e, ⟨k.fs.forget i, Function.update k.entry e ⟨i, 1⟩⟩)
    | none => .error .noEntries

end Kernel

/-- What the kernel does with entries. -/
inductive Use
  | ialloc (type : UInt16)
  | iget (i : ℕ)
  | idup (e : Fin ninode)
  | update (e : Fin ninode) (major minor nlink : UInt16)
  | read (e : Fin ninode) (off n : ℕ)
  | write (e : Fin ninode) (off : ℕ) (src : List UInt8)
  | iput (e : Fin ninode)

inductive Answer
  | entry (e : Fin ninode)
  | reply (r : Reply)
  deriving DecidableEq

/-- The inode that a call locks. -/
def Call.target : Call → Option ℕ
  | .update i _ _ _ | .read i _ _ | .write i _ _ => some i
  | _ => none

/-- The entry that is locked. -/
def Use.target : Use → Option (Fin ninode)
  | .update e _ _ _ | .read e _ _ | .write e _ _ => some e
  | _ => none

/-- Inodes exist, offsets and lengths are of type `uint`, and only a pointer to an entry in use is
copied or dropped. -/
def Use.Within (sb : Superblock) (k : Kernel) : Use → Prop
  | .ialloc _ | .update _ _ _ _ => True
  | .iget i => i < sb.ninodes
  | .idup e | .iput e => 0 < (k.entry e).ref
  | .read _ off n => off < 2 ^ 32 ∧ n < 2 ^ 32
  | .write _ off src => off < 2 ^ 32 ∧ src.length < 2 ^ 32

instance (sb : Superblock) (k : Kernel) (u : Use) : Decidable (u.Within sb k) := by
  cases u <;> unfold Use.Within <;> infer_instance

namespace Kernel

/-- A call on the inode of an entry, which locks it. -/
def locked (devsw : Devices) (sb : Superblock) (k : Kernel) (e : Fin ninode) (call : ℕ → Call) :
    Except Panic (Answer × Kernel) :=
  if (k.entry e).ref < 1 then .error .noReference
  else do
    let (r, fs) ← exec devsw sb k.fs (call (k.entry e).inum)
    return (.reply r, { k with fs })

def use (devsw : Devices) (sb : Superblock) (k : Kernel) : Use → Except Panic (Answer × Kernel)
  | .ialloc type => do
    let (i, fs) ← ialloc sb k.fs type
    let (e, k) ← iget { k with fs } i
    return (.entry e, k)
  | .iget i => do
    let (e, k) ← k.iget i
    return (.entry e, k)
  | .idup e => return (.entry e, { k with entry := addRef k.entry e 1 })
  | .update e major minor nlink => k.locked devsw sb e fun i => .update i major minor nlink
  | .read e off n => k.locked devsw sb e fun i => .read i off n
  | .write e off src => k.locked devsw sb e fun i => .write i off src
  | .iput e => do
    let fs ← iput sb k.fs (k.entry e).inum (decide ((k.entry e).ref = 1))
    return (.reply .done, { fs, entry := addRef k.entry e (-1) })

/-- A use that returns, with its answer. -/
def Step (devsw : Devices) (sb : Superblock) (k : Kernel) (u : Use × Answer) (k' : Kernel) : Prop :=
  u.1.Within sb k ∧ k.use devsw sb u.1 = .ok (u.2, k')

end Kernel

variable {sb : Superblock} {devsw : Devices} {k k' : Kernel} {entry entry' : Fin ninode → Entry}
  {d e : Fin ninode} {i : ℕ} {fs : Fs} {l : List (Event Kernel (Use × Answer))}

/-! ## Entries -/

/-- What a step does to the entries. -/
inductive Moves (sb : Superblock) (entry : Fin ninode → Entry) : (Fin ninode → Entry) → Prop
  | stays : Moves sb entry entry
  | counts (e : Fin ninode) (n : ℤ) (held : 0 < (entry e).ref) (low : -1 ≤ n) :
      Moves sb entry (addRef entry e n)
  | recycles (e : Fin ninode) (i : ℕ) (inum : i < sb.ninodes) (free : (entry e).ref = 0)
      (absent : ∀ d, 0 < (entry d).ref → (entry d).inum ≠ i) :
      Moves sb entry (Function.update entry e ⟨i, 1⟩)

/-- Counts are not negative, entries in use are of inodes on the disk, and no inode has two. -/
structure Kept (sb : Superblock) (entry : Fin ninode → Entry) : Prop where
  nonneg : ∀ e, 0 ≤ (entry e).ref
  inum : ∀ e, 0 < (entry e).ref → (entry e).inum < sb.ninodes
  once : ∀ d e, 0 < (entry d).ref → 0 < (entry e).ref → (entry d).inum = (entry e).inum → d = e

/-- Every entry in use after a change of counts was in use before, for the same inode. -/
theorem addRef_held {n : ℤ} (held : 0 < (entry e).ref) (later : 0 < (addRef entry e n d).ref) :
    0 < (entry d).ref ∧ (addRef entry e n d).inum = (entry d).inum := by
  unfold addRef at later ⊢
  by_cases mine : d = e
  · subst mine
    rw [Function.update_self]
    exact ⟨held, rfl⟩
  · rw [Function.update_of_ne mine] at later ⊢
    exact ⟨later, rfl⟩

theorem Kept.moves (kept : Kept sb entry) (moves : Moves sb entry entry') : Kept sb entry' := by
  cases moves with
  | stays => exact kept
  | counts e n held low =>
    refine ⟨fun d => ?_, fun d later => ?_, fun c d later later' same => ?_⟩
    · unfold addRef
      by_cases mine : d = e
      · rw [mine, Function.update_self]
        dsimp only
        omega
      · rw [Function.update_of_ne mine]
        exact kept.nonneg d
    · obtain ⟨before, inum⟩ := addRef_held held later
      rw [inum]
      exact kept.inum d before
    · obtain ⟨before, inum⟩ := addRef_held held later
      obtain ⟨before', inum'⟩ := addRef_held held later'
      rw [inum, inum'] at same
      exact kept.once c d before before' same
  | recycles e i inum free absent =>
    have other : ∀ d, d ≠ e → Function.update entry e ⟨i, 1⟩ d = entry d := fun d ne =>
      Function.update_of_ne ne ..
    refine ⟨fun d => ?_, fun d later => ?_, fun c d later later' same => ?_⟩
    · by_cases here : d = e
      · rw [here, Function.update_self]
        exact zero_le_one
      · rw [other d here]
        exact kept.nonneg d
    · by_cases here : d = e
      · rw [here, Function.update_self]
        exact inum
      · rw [other d here] at later ⊢
        exact kept.inum d later
    · by_cases here : c = e <;> by_cases there : d = e
      · rw [here, there]
      · rw [other d there] at later' same
        rw [here, Function.update_self] at same
        exact absurd same.symm (absent d later')
      · rw [other c here] at later same
        rw [there, Function.update_self] at same
        exact absurd same (absent c later)
      · rw [other c here] at later same
        rw [other d there] at later' same
        exact kept.once c d later later' same

/-! ## Steps -/

namespace Kernel

/-- `iget` counts one more pointer to the entry of the inode, or gives the inode a free entry. -/
theorem iget_ok (inum : i < sb.ninodes) (got : k.iget i = .ok (e, k')) :
    Moves sb k.entry k'.entry ∧ ∃ l', Run (Inodes.Step devsw sb) k.fs l' k'.fs := by
  unfold iget at got
  cases found : (List.finRange ninode).find? fun e =>
      decide (0 < (k.entry e).ref) && decide ((k.entry e).inum = i) with
  | some d =>
    simp only [found, Except.ok.injEq, Prod.mk.injEq] at got
    obtain ⟨rfl, rfl⟩ := got
    have here := List.find?_some found
    simp only [Bool.and_eq_true, decide_eq_true_eq] at here
    exact ⟨.counts d 1 here.1 (by decide), [], .nil⟩
  | none =>
    have absent : ∀ d, 0 < (k.entry d).ref → (k.entry d).inum ≠ i := by
      intro d held
      simpa [held] using List.find?_eq_none.1 found d (List.mem_finRange d)
    cases free : (List.finRange ninode).find? fun e => decide ((k.entry e).ref = 0) with
    | none => simp [found, free] at got
    | some d =>
      simp only [found, free, Except.ok.injEq, Prod.mk.injEq] at got
      obtain ⟨rfl, rfl⟩ := got
      have unused : (k.entry d).ref = 0 := by simpa using List.find?_some free
      have evicted : Inodes.Step devsw sb k.fs (.evict i, .done) (k.fs.forget i) := ⟨inum, rfl⟩
      exact ⟨.recycles d i inum unused absent, _, Run.nil.snoc evicted⟩

theorem iget_error {p : Panic} (kept : Kept sb k.entry) (failed : k.iget i = .error p) :
    p = .noEntries ∧ ∀ e, 0 < (k.entry e).ref := by
  unfold iget at failed
  split at failed
  · simp at failed
  · split at failed
    · simp at failed
    · rename_i none
      refine ⟨by simpa using failed.symm, fun e => ?_⟩
      have used : (k.entry e).ref ≠ 0 := by
        simpa using List.find?_eq_none.1 none e (List.mem_finRange e)
      have := kept.nonneg e
      omega

theorem locked_ok {call : ℕ → Call} {answer : Answer} (kept : Kept sb k.entry)
    (done : k.locked devsw sb e call = .ok (answer, k'))
    (within : ∀ i < sb.ninodes, (call i).Within sb) :
    Moves sb k.entry k'.entry ∧ ∃ l', Run (Inodes.Step devsw sb) k.fs l' k'.fs := by
  simp only [locked, Fallible.check_eq_ok, Fallible.bind_eq_ok, Fallible.pure_eq_ok, Prod.exists,
    Prod.mk.injEq] at done
  obtain ⟨held, r, fs, executed, _, rfl⟩ := done
  have inum := within _ (kept.inum e (by omega))
  have called : Inodes.Step devsw sb k.fs (call (k.entry e).inum, r) fs := ⟨inum, executed⟩
  exact ⟨.stays, _, Run.nil.snoc called⟩

/-- A step is a sequence of calls on inodes, and moves the entries. -/
theorem Step.effect {u : Use × Answer} (valid : sb.Valid) (good : Good sb k.fs)
    (kept : Kept sb k.entry) (step : Step devsw sb k u k') :
    Moves sb k.entry k'.entry ∧ ∃ l', Run (Inodes.Step devsw sb) k.fs l' k'.fs := by
  obtain ⟨u, answer⟩ := u
  obtain ⟨within, done⟩ := step
  cases u with
  | ialloc type =>
    simp only [use, Fallible.bind_eq_ok, Fallible.pure_eq_ok, Prod.exists, Prod.mk.injEq] at done
    obtain ⟨i, fs, allocated, e, k₁, got, _, rfl⟩ := done
    obtain ⟨found, _⟩ := ialloc_spec valid good allocated
    have inum : i < sb.ninodes := List.mem_range.1 (List.mem_of_find?_eq_some found)
    have first : Inodes.Step devsw sb k.fs (.ialloc type, .inum i) fs := by
      refine ⟨trivial, ?_⟩
      simp only [exec, allocated]
      rfl
    obtain ⟨moves, _, run⟩ := iget_ok inum got
    exact ⟨moves, _, (Run.nil.snoc first).append run⟩
  | iget i =>
    simp only [use, Fallible.bind_eq_ok, Fallible.pure_eq_ok, Prod.exists, Prod.mk.injEq] at done
    obtain ⟨e, k₁, got, _, rfl⟩ := done
    exact iget_ok within got
  | idup e =>
    simp only [use, Fallible.pure_eq_ok, Prod.mk.injEq] at done
    obtain ⟨_, rfl⟩ := done
    exact ⟨.counts e 1 within (by decide), [], .nil⟩
  | update e major minor nlink =>
    simp only [use] at done
    exact locked_ok kept done fun _ inum => inum
  | read e off n =>
    simp only [use] at done
    exact locked_ok kept done fun _ inum => ⟨inum, within⟩
  | write e off src =>
    simp only [use] at done
    exact locked_ok kept done fun _ inum => ⟨inum, within⟩
  | iput e =>
    simp only [use, Fallible.bind_eq_ok, Fallible.pure_eq_ok, Prod.mk.injEq] at done
    obtain ⟨fs, put, _, rfl⟩ := done
    have dropped : Inodes.Step devsw sb k.fs
        (.iput (k.entry e).inum (decide ((k.entry e).ref = 1)), .done) fs := by
      refine ⟨kept.inum e within, ?_⟩
      simp only [exec, put]
      rfl
    exact ⟨.counts e (-1) within le_rfl, _, Run.nil.snoc dropped⟩

/-! ## Runs -/

/-- A run of the kernel is a run of calls on inodes, whatever entries they stand in. -/
theorem calls_of_run (valid : sb.Valid) (good : Good sb fs)
    (run : Run (Step devsw sb) (start fs) l k) :
    Kept sb k.entry ∧ ∃ l', Run (Inodes.Step devsw sb) fs l' k.fs := by
  refine run.invariant (P := fun k => Kept sb k.entry ∧ ∃ l', Run (Inodes.Step devsw sb) fs l' k.fs)
    ⟨⟨fun _ => le_rfl, ?_, ?_⟩, [], .nil⟩ ?_
  · exact fun _ held => absurd held (lt_irrefl 0)
  · exact fun _ _ held => absurd held (lt_irrefl 0)
  · rintro k u k' ⟨kept, _, before⟩ step
    obtain ⟨moves, _, later⟩ := step.effect valid (good_of_run valid good before) kept
    exact ⟨kept.moves moves, _, before.append later⟩

/-- The panics of a call that locks its inode. -/
theorem exec_error {call : Call} {p : Panic} (good : Good sb fs) (inum : i < sb.ninodes)
    (failed : exec devsw sb fs call = .error p) (within : call.Within sb)
    (target : call.target = some i) :
    (p = .outOfBlocks ∧ ∃ off src, call = .write i off src) ∨
      (p = .noType ∧ (file sb fs i).type = 0) := by
  cases call with
  | update j major minor nlink =>
    obtain rfl := Option.some.inj target
    simp only [exec, Fallible.bind_eq_error, Fallible.pure_ne_error, and_false, exists_false,
      or_false] at failed
    exact .inr (ilock_error good inum failed)
  | read j off n =>
    obtain rfl := Option.some.inj target
    simp only [exec, Fallible.bind_eq_error, Fallible.pure_ne_error, and_false, exists_false,
      or_false] at failed
    rcases failed with unlocked | ⟨fs₁, locked, failed⟩
    · exact .inr (ilock_error good inum unlocked)
    · have good₁ := (ilock_spec good inum locked).1.good
      exact absurd failed (readi_ne_error good₁ inum within.2.1 within.2.2)
  | write j off src =>
    obtain rfl := Option.some.inj target
    simp only [exec, Fallible.bind_eq_error, Fallible.pure_ne_error, and_false, exists_false,
      or_false] at failed
    rcases failed with unlocked | ⟨fs₁, _, failed⟩
    · exact .inr (ilock_error good inum unlocked)
    · exact .inl ⟨writei_error within.2.1 within.2.2 failed, off, src, rfl⟩
  | _ => exact absurd target (by simp [Call.target])

theorem locked_error {p : Panic} {call : ℕ → Call} (good : Good sb k.fs) (kept : Kept sb k.entry)
    (failed : k.locked devsw sb e call = .error p)
    (within : ∀ i < sb.ninodes, (call i).Within sb) (target : ∀ i, (call i).target = some i) :
    (p = .outOfBlocks ∧ ∃ i off src, call i = .write i off src) ∨
      (p = .noReference ∧ (k.entry e).ref = 0) ∨
      (p = .noType ∧ (file sb k.fs (k.entry e).inum).type = 0) := by
  unfold locked at failed
  split_ifs at failed with unused
  · have := kept.nonneg e
    exact .inr (.inl ⟨by simpa using failed.symm, by omega⟩)
  · simp only [Fallible.bind_eq_error, Fallible.pure_ne_error, and_false, exists_false,
      or_false] at failed
    have inum := kept.inum e (by omega)
    rcases exec_error good inum failed (within _ inum) (target _) with ⟨rfl, write⟩ | free
    · exact .inl ⟨rfl, _, write⟩
    · exact .inr (.inr free)

/-- The panics of `fs.c`: a write finds no free block, `ialloc` finds no free inode, `ialloc` or
`iget` finds no free entry, or an inode is locked that nothing points to or that is free. Where an
entry is missing, `NINODE` different inodes are in use. -/
theorem panics_of_run {u : Use} {p : Panic} (valid : sb.Valid) (good : Good sb fs)
    (run : Run (Step devsw sb) (start fs) l k) (within : u.Within sb k)
    (failed : k.use devsw sb u = .error p) :
    (p = .outOfBlocks ∧ ∃ e off src, u = .write e off src) ∨
      (p = .noInodes ∧ (∃ type, u = .ialloc type) ∧
        ∀ i < sb.ninodes, 1 ≤ i → (file sb k.fs i).type ≠ 0) ∨
      (p = .noEntries ∧ ((∃ type, u = .ialloc type) ∨ ∃ i, u = .iget i) ∧
        (∀ e, 0 < (k.entry e).ref) ∧ Function.Injective fun e => (k.entry e).inum) ∨
      (p = .noReference ∧ ∃ e, u.target = some e ∧ (k.entry e).ref = 0) ∨
      (p = .noType ∧ ∃ e, u.target = some e ∧ (file sb k.fs (k.entry e).inum).type = 0) := by
  obtain ⟨kept, _, before⟩ := calls_of_run valid good run
  have good' := good_of_run valid good before
  have injective : (∀ e, 0 < (k.entry e).ref) → Function.Injective fun e => (k.entry e).inum :=
    fun held d e same => kept.once d e (held d) (held e) same
  cases u with
  | ialloc type =>
    simp only [use, Fallible.bind_eq_error, Fallible.pure_ne_error, and_false, exists_false,
      or_false] at failed
    rcases failed with none | ⟨⟨i, fs₁⟩, _, failed⟩
    · obtain ⟨rfl, taken⟩ := ialloc_error good' none
      exact .inr (.inl ⟨rfl, ⟨type, rfl⟩, taken⟩)
    · -- the entries are as they were before the inode was marked on the disk
      obtain ⟨rfl, held⟩ := iget_error (k := ⟨fs₁, k.entry⟩) kept failed
      exact .inr (.inr (.inl ⟨rfl, .inl ⟨type, rfl⟩, held, injective held⟩))
  | iget i =>
    simp only [use, Fallible.bind_eq_error, Fallible.pure_ne_error, and_false, exists_false,
      or_false] at failed
    obtain ⟨rfl, held⟩ := iget_error kept failed
    exact .inr (.inr (.inl ⟨rfl, .inr ⟨i, rfl⟩, held, injective held⟩))
  | idup e => exact absurd failed Fallible.pure_ne_error
  | update e major minor nlink =>
    simp only [use] at failed
    rcases locked_error good' kept failed (fun _ inum => inum) (fun _ => rfl) with
      ⟨_, _, _, _, write⟩ | ⟨rfl, unused⟩ | ⟨rfl, free⟩
    · exact absurd write (by simp)
    · exact .inr (.inr (.inr (.inl ⟨rfl, e, rfl, unused⟩)))
    · exact .inr (.inr (.inr (.inr ⟨rfl, e, rfl, free⟩)))
  | read e off n =>
    simp only [use] at failed
    rcases locked_error good' kept failed (fun _ inum => ⟨inum, within⟩) (fun _ => rfl) with
      ⟨_, _, _, _, write⟩ | ⟨rfl, unused⟩ | ⟨rfl, free⟩
    · exact absurd write (by simp)
    · exact .inr (.inr (.inr (.inl ⟨rfl, e, rfl, unused⟩)))
    · exact .inr (.inr (.inr (.inr ⟨rfl, e, rfl, free⟩)))
  | write e off src =>
    simp only [use] at failed
    rcases locked_error good' kept failed (fun _ inum => ⟨inum, within⟩) (fun _ => rfl) with
      ⟨rfl, _⟩ | ⟨rfl, unused⟩ | ⟨rfl, free⟩
    · exact .inl ⟨rfl, e, off, src, rfl⟩
    · exact .inr (.inr (.inr (.inl ⟨rfl, e, rfl, unused⟩)))
    · exact .inr (.inr (.inr (.inr ⟨rfl, e, rfl, free⟩)))
  | iput e =>
    simp only [use, Fallible.bind_eq_error, Fallible.pure_ne_error, and_false, exists_false,
      or_false] at failed
    exact absurd failed (iput_ne_error valid good' (kept.inum e within))

/-- The state after a use, if it returns with this answer. -/
def next (devsw : Devices) (sb : Superblock) (k : Kernel) (u : Use × Answer) : Option Kernel :=
  match k.use devsw sb u.1 with
  | .ok r => if u.1.Within sb k ∧ r.1 = u.2 then some r.2 else none
  | .error _ => none

theorem step_of_next {u : Use × Answer} (taken : next devsw sb k u = some k') :
    Step devsw sb k u k' := by
  unfold next at taken
  cases done : k.use devsw sb u.1 with
  | error p => simp [done] at taken
  | ok r =>
    simp only [done] at taken
    split_ifs at taken with meets
    simp only [Option.some.injEq] at taken
    exact ⟨meets.1, by rw [done, ← meets.2, ← taken]⟩

/-- A disk with more inodes than the cache has entries. -/
def wide : Superblock := ⟨20, 60, 2, 11⟩

/-- `iget` of as many inodes as there are entries, from the second on. -/
def gets : List (Use × Answer) := (List.finRange ninode).map fun e => (.iget (e.val + 2), .entry e)

/-- `ialloc` fails with an inode left. -/
theorem panics_of_run_full :
    ∃ l k p, Run (Step noDevices wide) (start (format wide)) l k ∧
      k.use noDevices wide (.ialloc tFile) = .error p ∧ p = .noEntries ∧
      (∀ e, 0 < (k.entry e).ref) ∧ (file wide k.fs 1).type = 0 := by
  obtain ⟨l, k, run, failed, free⟩ := exists_run_of_replay (next noDevices wide)
    (start (format wide)) gets
    (P := fun r => (r.2.use noDevices wide (.ialloc tFile)).toOption.isNone = true ∧
      (file wide r.2.fs 1).type = 0) (by decide +kernel)
  have run := run.mono fun _ _ _ taken => step_of_next taken
  cases done : k.use noDevices wide (.ialloc tFile) with
  | ok r => simp [done, Except.toOption] at failed
  | error p =>
    have panics := panics_of_run (u := .ialloc tFile) (by decide) (format_good (by decide)) run
      trivial done
    rcases panics with ⟨_, _, _, _, other⟩ | ⟨_, _, taken⟩ | ⟨rfl, _, held, _⟩ | ⟨_, _, other, _⟩ |
      ⟨_, _, other, _⟩
    · exact absurd other (by simp)
    · exact absurd free (taken 1 (by decide) le_rfl)
    · exact ⟨l, k, _, run, done, rfl, held, free⟩
    · exact absurd other (by simp [Use.target])
    · exact absurd other (by simp [Use.target])

end Kernel

end SsuOs.Xv6Fs.Inodes
