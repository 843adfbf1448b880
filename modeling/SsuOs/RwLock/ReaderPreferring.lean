import SsuOs.RwLock.Basic

/-!
# The reader-preferring lock

The lock of `rw_lock-r-test.c`.  `r_lock` takes the lock without any test, also from under a
writer, and `w_lock` tests its condition once, before `pthread_cond_wait`, on the only condition
variable of the lock.  A run keeps readers and writers apart exactly when no reader calls `r_lock`
while a writer holds the lock and every woken writer finds the lock free
(`reader_exclusive_iff_undisturbed`).
-/

namespace SsuOs.RwLock.ReaderPreferring

open Monitor

inductive Cond where
  | rCond
  deriving DecidableEq, Repr

/-- The critical sections of the four calls.  `wLockWoken` is the part of `w_lock` after
`pthread_cond_wait`. -/
inductive Point where
  | rLock
  | rUnlock
  | wLock
  | wLockWoken
  | wUnlock
  deriving DecidableEq, Repr

/-- `init_rwlock` leaves `write_wait` as it finds it. -/
def initRwlock (rw : Lock) : Lock := { rw with readCnt := 0, writeCnt := 0 }

def rLock (rw : Lock) : Outcome Lock Point Cond :=
  ⟨{ rw with readCnt := rw.readCnt + 1 }, [], .unlock [.rUnlock]⟩

def rUnlock (rw : Lock) : Outcome Lock Point Cond :=
  let rw' := { rw with readCnt := rw.readCnt - 1 }
  ⟨rw', if rw'.readCnt = 0 then [.signal .rCond] else [], .unlock [.rLock, .wLock]⟩

/-- The end of `w_lock`, which a waiting writer goes on with when it is woken. -/
def wLockWoken (rw : Lock) : Outcome Lock Point Cond :=
  ⟨{ rw with writeCnt := rw.writeCnt + 1 }, [], .unlock [.wUnlock]⟩

def wLock (rw : Lock) : Outcome Lock Point Cond :=
  if rw.readCnt > 0 ∨ rw.writeCnt > 0 then ⟨rw, [], .wait .rCond .wLockWoken⟩
  else wLockWoken rw

def wUnlock (rw : Lock) : Outcome Lock Point Cond :=
  let rw' := { rw with writeCnt := rw.writeCnt - 1 }
  ⟨rw', if rw'.writeCnt = 0 then [.signal .rCond] else [], .unlock [.rLock, .wLock]⟩

variable {T : Type*}

/-- Threads that call `r_lock`, `r_unlock` or `w_lock`, `w_unlock`, over and over. -/
def prog : Program T Lock Point Cond := fun _ k =>
  match k with
  | .rLock => rLock
  | .rUnlock => rUnlock
  | .wLock => wLock
  | .wLockWoken => wLockWoken
  | .wUnlock => wUnlock

/-- Every thread is about to make its first call, for reading or for writing; `rw` is the memory
that `init_rwlock` is given. -/
def initial (rw : Lock) (reads : T → Bool) : Config T Lock Point Cond :=
  ⟨initRwlock rw, fun t => .ready (if reads t then .rLock else .wLock)⟩

theorem balanced : Balanced .rUnlock .wUnlock (prog : Program T Lock Point Cond) := by
  intro t k rw x exits
  cases k with
  | wLock =>
    by_cases guard : rw.readCnt > 0 ∨ rw.writeCnt > 0 <;>
      simp only [prog, wLock, wLockWoken, guard, ↓reduceIte] at exits ⊢ <;>
      simp [Exit.threads] at exits <;> simp [exits, Thread.control]
  | rLock | wLockWoken =>
    simp [prog, rLock, wLockWoken, Exit.threads] at exits
    simp [prog, rLock, wLockWoken, exits, Thread.control]
  | rUnlock | wUnlock =>
    simp [prog, rUnlock, wUnlock, Exit.threads] at exits
    rcases exits with rfl | rfl <;> simp [prog, rUnlock, wUnlock, Thread.control]

/-- In this step no reader calls `r_lock` while a writer holds the lock, and no woken writer finds
a reader or a writer in the lock. -/
def Undisturbed (e : Event (Config T Lock Point Cond) (Label T)) : Prop :=
  ∀ t, e.label = .sect t →
    ((e.before.thread t).entry = some .rLock → ¬ e.before.shared.writeCnt > 0) ∧
    ((e.before.thread t).entry = some .wLockWoken →
      ¬ (e.before.shared.readCnt > 0 ∨ e.before.shared.writeCnt > 0))

theorem exclusive_initial (rw : Lock) (reads : T → Bool) : Exclusive (initial rw reads).shared := by
  simp [initial, initRwlock, Exclusive]

variable [Fintype T]

theorem counted_initial (rw : Lock) (reads : T → Bool) :
    Counted .rUnlock .wUnlock (initial rw reads) :=
  .of_unheld rfl rfl fun t => by cases h : reads t <;> simp [initial, Thread.control, h]

variable [DecidableEq T]

/-- From an exclusive state, a step keeps exclusion exactly when it is undisturbed. -/
theorem exclusive_step_iff {d : Discipline} {x y : Config T Lock Point Cond} {a : Label T}
    (counted : Counted .rUnlock .wUnlock x) (excl : Exclusive x.shared)
    (taken : Step d prog x a y) : Exclusive y.shared ↔ Undisturbed ⟨x, a, y⟩ := by
  have reads := counted.readCnt_nonneg
  have writes := counted.writeCnt_nonneg
  cases taken with
  | spurious => exact iff_of_true excl fun t h => by cases h
  | @sect t k th z enters told exits =>
    simp only [Undisturbed, Label.sect.injEq, forall_eq', enters, Option.some.injEq]
    simp only [Exclusive] at excl ⊢
    cases k <;> simp only [prog, reduceCtorEq, false_imp_iff, true_imp_iff, true_and, and_true,
      iff_true]
    case rLock =>
      dsimp only [rLock]
      omega
    case rUnlock =>
      dsimp only [rUnlock]
      omega
    case wLock =>
      unfold wLock wLockWoken
      split_ifs <;> dsimp only <;> omega
    case wLockWoken =>
      dsimp only [wLockWoken]
      omega
    case wUnlock =>
      dsimp only [wUnlock]
      omega

/-- A run keeps every writer apart from all other holders of the lock exactly when `r_lock` is only
called while no writer holds the lock, and each writer that comes back from `pthread_cond_wait`
finds the lock free. -/
theorem reader_exclusive_iff_undisturbed (d : Discipline) (rw : Lock) (reads : T → Bool)
    {l : List (Event (Config T Lock Point Cond) (Label T))} {s : Config T Lock Point Cond}
    (run : Run (Step d prog) (initial rw reads) l s) :
    (∀ e ∈ l, Exclusive e.after.shared) ↔ ∀ e ∈ l, Undisturbed e :=
  run.forall_after_iff (counted_initial rw reads) (exclusive_initial rw reads)
    (fun _ _ _ counted taken => counted.step balanced taken)
    (fun _ _ _ counted excl taken => exclusive_step_iff counted excl taken)

/-- A writer takes the lock, a second one waits for it, and the first gives it back. -/
def handOver {T : Type} (first second : T) : List (Move T) :=
  [⟨first, [], 0⟩, ⟨second, [], 0⟩, ⟨first, [second], 0⟩, ⟨second, [], 0⟩]

theorem reader_exclusive_iff_undisturbed_handOver :
    ∃ l s, Run (Step .strict prog) (initial ⟨0, 0, 0⟩ fun _ : Fin 2 => false) l s ∧
      s.shared = ⟨1, 0, 0⟩ ∧
      ((∀ e ∈ l, Exclusive e.after.shared) ↔ ∀ e ∈ l, Undisturbed e) := by
  have ends : ((handOver (0 : Fin 2) 1).foldlM (exec prog)
      (initial ⟨0, 0, 0⟩ fun _ => false)).map (·.shared) = some ⟨1, 0, 0⟩ := by decide
  obtain ⟨s, hs, hshared⟩ := Option.map_eq_some_iff.1 ends
  obtain ⟨l, run⟩ := run_of_exec .strict _ _ hs
  exact ⟨l, s, run, hshared, reader_exclusive_iff_undisturbed _ _ _ run⟩

/-- A reader takes the lock from under a writer: thread 0 writes, thread 1 reads. -/
theorem exclusive_fails_reader_joins_writer :
    ¬ ∀ s, Reachable (Step .strict prog) (initial ⟨0, 0, 0⟩ fun t : Fin 2 => t = 1) s →
      Exclusive s.shared := by
  intro holds
  have ends : (([⟨0, [], 0⟩, ⟨1, [], 0⟩] : List (Move (Fin 2))).foldlM (exec prog)
      (initial ⟨0, 0, 0⟩ fun t => t = 1)).map (·.shared) = some ⟨1, 0, 1⟩ := by decide
  obtain ⟨s, hs, hshared⟩ := Option.map_eq_some_iff.1 ends
  have excl := holds s (run_of_exec .strict _ _ hs)
  rw [hshared] at excl
  exact absurd excl (by decide)

end SsuOs.RwLock.ReaderPreferring
