import SsuOs.RwLock.Basic

/-!
# The writer-preferring lock

The lock of `rw_lock-w-test.c`.  Both `r_lock` and `w_lock` test their condition once, with `if`,
before `pthread_cond_wait`, and do not test it again when the wait ends.  A run keeps readers and
writers apart exactly when every woken thread happens to find the lock as it needs it
(`writer_exclusive_iff_undisturbed`); the schedule `bargingWriter` shows one that does not.
-/

namespace SsuOs.RwLock.WriterPreferring

open Monitor

inductive Cond where
  | rCond
  | wCond
  deriving DecidableEq, Repr

/-- The critical sections of the four calls.  `rLockWoken` and `wLockWoken` are the parts of
`r_lock` and `w_lock` after `pthread_cond_wait`. -/
inductive Point where
  | rLock
  | rLockWoken
  | rUnlock
  | wLock
  | wLockWoken
  | wUnlock
  deriving DecidableEq, Repr

def initRwlock : Lock := ⟨0, 0, 0⟩

/-- The end of `r_lock`, which a waiting reader goes on with when it is woken. -/
def rLockWoken (rw : Lock) : Outcome Lock Point Cond :=
  ⟨{ rw with readCnt := rw.readCnt + 1 }, [], .unlock [.rUnlock]⟩

def rLock (rw : Lock) : Outcome Lock Point Cond :=
  if rw.writeCnt > 0 ∨ rw.writeWait > 0 then ⟨rw, [], .wait .rCond .rLockWoken⟩
  else rLockWoken rw

def rUnlock (rw : Lock) : Outcome Lock Point Cond :=
  let rw' := { rw with readCnt := rw.readCnt - 1 }
  ⟨rw', if rw'.writeWait > 0 ∧ rw'.readCnt = 0 then [.signal .wCond]
      else if rw'.writeWait = 0 ∧ rw'.readCnt = 0 then [.broadcast .rCond] else [],
    .unlock [.rLock, .wLock]⟩

/-- `w_lock` from the return of `pthread_cond_wait` on. -/
def wLockWoken (rw : Lock) : Outcome Lock Point Cond :=
  ⟨{ rw with writeWait := rw.writeWait - 1, writeCnt := rw.writeCnt + 1 }, [], .unlock [.wUnlock]⟩

def wLock (rw : Lock) : Outcome Lock Point Cond :=
  if rw.readCnt > 0 ∨ rw.writeCnt > 0 then
    ⟨{ rw with writeWait := rw.writeWait + 1 }, [], .wait .wCond .wLockWoken⟩
  else ⟨{ rw with writeCnt := rw.writeCnt + 1 }, [], .unlock [.wUnlock]⟩

def wUnlock (rw : Lock) : Outcome Lock Point Cond :=
  let rw' := { rw with writeCnt := rw.writeCnt - 1 }
  ⟨rw', if rw'.writeWait > 0 then [.signal .wCond]
      else if rw'.writeWait = 0 then [.broadcast .rCond] else [],
    .unlock [.rLock, .wLock]⟩

variable {T : Type*}

/-- Threads that call `r_lock`, `r_unlock` or `w_lock`, `w_unlock`, over and over. -/
def prog : Program T Lock Point Cond := fun _ k =>
  match k with
  | .rLock => rLock
  | .rLockWoken => rLockWoken
  | .rUnlock => rUnlock
  | .wLock => wLock
  | .wLockWoken => wLockWoken
  | .wUnlock => wUnlock

/-- Every thread is about to make its first call, for reading or for writing. -/
def initial (reads : T → Bool) : Config T Lock Point Cond :=
  ⟨initRwlock, fun t => .ready (if reads t then .rLock else .wLock)⟩

/-- What a section does to the counters, and where it leaves its thread. -/
inductive Passes (rw : Lock) : Point → Lock → Thread Point Cond → Prop
  | readerWaits : Passes rw .rLock rw (.blocked .rCond .rLockWoken)
  | readerEnters : Passes rw .rLock { rw with readCnt := rw.readCnt + 1 } (.ready .rUnlock)
  | readerReturns : Passes rw .rLockWoken { rw with readCnt := rw.readCnt + 1 } (.ready .rUnlock)
  | readerLeaves {k : Point} (call : k = .rLock ∨ k = .wLock) :
      Passes rw .rUnlock { rw with readCnt := rw.readCnt - 1 } (.ready k)
  | writerWaits :
      Passes rw .wLock { rw with writeWait := rw.writeWait + 1 } (.blocked .wCond .wLockWoken)
  | writerEnters : Passes rw .wLock { rw with writeCnt := rw.writeCnt + 1 } (.ready .wUnlock)
  | writerReturns :
      Passes rw .wLockWoken
        { rw with writeWait := rw.writeWait - 1, writeCnt := rw.writeCnt + 1 } (.ready .wUnlock)
  | writerLeaves {k : Point} (call : k = .rLock ∨ k = .wLock) :
      Passes rw .wUnlock { rw with writeCnt := rw.writeCnt - 1 } (.ready k)

theorem passes_of_mem {t : T} {k : Point} {rw : Lock} {z : Thread Point Cond}
    (exits : z ∈ (prog t k rw).exit.threads) : Passes rw k (prog t k rw).shared z := by
  cases k with
  | rLock =>
    simp only [prog, rLock, rLockWoken] at exits ⊢
    split_ifs at exits ⊢
    · cases List.mem_singleton.1 exits
      exact .readerWaits
    · cases List.mem_singleton.1 exits
      exact .readerEnters
  | rLockWoken =>
    cases List.mem_singleton.1 exits
    exact .readerReturns
  | rUnlock =>
    obtain ⟨k, call, rfl⟩ := List.mem_map.1 exits
    exact .readerLeaves (by simpa using call)
  | wLock =>
    simp only [prog, wLock] at exits ⊢
    split_ifs at exits ⊢
    · cases List.mem_singleton.1 exits
      exact .writerWaits
    · cases List.mem_singleton.1 exits
      exact .writerEnters
  | wLockWoken =>
    cases List.mem_singleton.1 exits
    exact .writerReturns
  | wUnlock =>
    obtain ⟨k, call, rfl⟩ := List.mem_map.1 exits
    exact .writerLeaves (by simpa using call)

theorem balanced : Balanced .rUnlock .wUnlock (prog : Program T Lock Point Cond) := by
  intro t k rw z exits
  have passes := passes_of_mem exits
  generalize (prog t k rw).shared = rw' at passes ⊢
  cases passes with
  | readerLeaves call | writerLeaves call => rcases call with rfl | rfl <;> simp [Thread.control]
  | readerWaits | readerEnters | readerReturns | writerWaits | writerEnters | writerReturns =>
    simp [Thread.control]

/-- In this step no woken reader finds a writer in the lock, and no woken writer finds a reader or
a writer in it. -/
def Undisturbed (e : Event (Config T Lock Point Cond) (Label T)) : Prop :=
  ∀ t, e.label = .sect t →
    ((e.before.thread t).entry = some .rLockWoken → ¬ e.before.shared.writeCnt > 0) ∧
    ((e.before.thread t).entry = some .wLockWoken →
      ¬ (e.before.shared.readCnt > 0 ∨ e.before.shared.writeCnt > 0))

variable [Fintype T]

theorem counted_initial (reads : T → Bool) : Counted .rUnlock .wUnlock (initial reads) :=
  .of_unheld rfl rfl fun t => by cases h : reads t <;> simp [initial, Thread.control, h]

variable [DecidableEq T]

/-- From an exclusive state, a step keeps exclusion exactly when it is undisturbed. -/
theorem exclusive_step_iff {d : Discipline} {x y : Config T Lock Point Cond} {a : Label T}
    (counted : Counted .rUnlock .wUnlock x) (excl : Exclusive x.shared) (taken : Step d prog x a y) :
    Exclusive y.shared ↔ Undisturbed ⟨x, a, y⟩ := by
  have reads := counted.readCnt_nonneg
  have writes := counted.writeCnt_nonneg
  cases taken with
  | spurious => exact iff_of_true excl fun t h => by cases h
  | @sect t k th z enters told exits =>
    simp only [Undisturbed, Label.sect.injEq, forall_eq', enters, Option.some.injEq]
    simp only [Exclusive] at excl ⊢
    cases k <;> simp only [prog, reduceCtorEq, false_imp_iff, true_imp_iff, true_and, and_true,
      iff_true]
    case rLock =>
      unfold rLock rLockWoken
      split_ifs <;> dsimp only <;> omega
    case rLockWoken =>
      dsimp only [rLockWoken]
      omega
    case rUnlock =>
      dsimp only [rUnlock]
      omega
    case wLock =>
      unfold wLock
      split_ifs <;> dsimp only <;> omega
    case wLockWoken =>
      dsimp only [wLockWoken]
      omega
    case wUnlock =>
      dsimp only [wUnlock]
      omega

/-- A run keeps every writer apart from all other holders of the lock exactly when each thread that
comes back from `pthread_cond_wait` finds what it waited for: a reader no writer, and a writer
neither a reader nor a writer. -/
theorem writer_exclusive_iff_undisturbed (d : Discipline) (reads : T → Bool)
    {l : List (Event (Config T Lock Point Cond) (Label T))} {s : Config T Lock Point Cond}
    (run : Run (Step d prog) (initial reads) l s) :
    (∀ e ∈ l, Exclusive e.after.shared) ↔ ∀ e ∈ l, Undisturbed e :=
  run.forall_after_iff (counted_initial reads) (by decide : Exclusive initRwlock)
    (fun _ _ _ counted taken => counted.step balanced taken)
    (fun _ _ _ counted excl taken => exclusive_step_iff counted excl taken)

/-- A writer waits for another one; between the signal and the return of the waiting writer, a third
one comes in. -/
def bargingWriter {T : Type} (holder waiter third : T) : List (Move T) :=
  [⟨holder, [], 0⟩, ⟨waiter, [], 0⟩, ⟨holder, [waiter], 0⟩, ⟨third, [], 0⟩, ⟨waiter, [], 0⟩]

/-- The run of `bargingWriter` up to the return of the woken writer. -/
theorem writer_exclusive_iff_undisturbed_bargingWriter :
    ∃ l s, Run (Step .strict prog) (initial fun _ : Fin 3 => false) l s ∧
      s.shared = ⟨1, 1, 0⟩ ∧
      ((∀ e ∈ l, Exclusive e.after.shared) ↔ ∀ e ∈ l, Undisturbed e) := by
  have ends : (((bargingWriter (0 : Fin 3) 1 2).take 4).foldlM (exec prog)
      (initial fun _ => false)).map (·.shared) = some ⟨1, 1, 0⟩ := by decide
  obtain ⟨s, hs, hshared⟩ := Option.map_eq_some_iff.1 ends
  obtain ⟨l, run⟩ := run_of_exec .strict _ _ hs
  exact ⟨l, s, run, hshared, writer_exclusive_iff_undisturbed _ _ run⟩

/-- Two writers can hold the lock at once. -/
theorem exclusive_fails_bargingWriter :
    ¬ ∀ s, Reachable (Step .strict prog) (initial fun _ : Fin 3 => false) s →
      Exclusive s.shared := by
  intro holds
  have ends : ((bargingWriter (0 : Fin 3) 1 2).foldlM (exec prog)
      (initial fun _ => false)).map (·.shared) = some ⟨2, 0, 0⟩ := by decide
  obtain ⟨s, hs, hshared⟩ := Option.map_eq_some_iff.1 ends
  have excl := holds s (run_of_exec .strict _ _ hs)
  rw [hshared] at excl
  exact absurd excl (by decide)

end SsuOs.RwLock.WriterPreferring
