import SsuOs.RwLock.WriterPreferring
import SsuOs.RwLock.ReaderPreferring

/-!
# No lost wake-up in the reader-writer locks

In both locks the counters are right, and a thread sleeps only while some thread holds the lock or
is on its way back from a wait (`no_lost_wakeup`).  The step that could break this is the last
unlock, which has to wake somebody if anybody sleeps.  In the writer-preferring lock it signals a
writer as long as `write_wait` is positive; `write_wait` also counts writers that were woken
already, so that the signal may find no one to wake, but then a woken writer is on its way.
-/

namespace SsuOs.RwLock

open Monitor

section Tended

variable {T κ ν : Type*}

/-- If a thread sleeps, the lock is held or some thread is on its way back from a wait. -/
def Tended (x : Config T Lock κ ν) : Prop :=
  (∃ t, (x.thread t).Blocked) →
    (0 < x.shared.readCnt ∨ 0 < x.shared.writeCnt) ∨ ∃ t, (x.thread t).isWoken = true

section Sleepers

variable [DecidableEq ν] [DecidableEq T] {d : Discipline} {th th' : T → Thread κ ν}
  {l : List (Notice ν)} {t u : T} {z : Thread κ ν} {rw : Lock}

/-- A thread on its way back stays on its way while another one runs. -/
theorem Tended.of_woken {k : κ} (told : Notified d th l th') (ready : th t = .ready k)
    (woken : (th u).isWoken = true) : Tended ⟨rw, Function.update th' t z⟩ := by
  have other : u ≠ t := by
    rintro rfl
    rw [ready] at woken
    cases woken
  intro _
  refine .inr ⟨u, ?_⟩
  dsimp only
  rw [Function.update_of_ne other]
  exact told.isWoken woken

/-- A signal to a condition variable with a waiter puts a thread on its way back. -/
theorem Tended.of_signal {c : ν} (told : Notified d th (.signal c :: l) th')
    (awake : ¬ (th t).Blocked) (waits : ∃ u, (th u).waitsOn c = true) :
    Tended ⟨rw, Function.update th' t z⟩ := by
  obtain ⟨u, asleep, woken⟩ := told.signal_isWoken waits
  intro _
  refine .inr ⟨u, ?_⟩
  have other : u ≠ t := by
    rintro rfl
    exact awake asleep
  dsimp only
  rwa [Function.update_of_ne other]

/-- After a section that does not wait, the sleeping threads were asleep before it. -/
theorem exists_blocked (told : Notified d th l th') (active : ¬ z.Blocked)
    (asleep : ∃ u, (Function.update th' t z u).Blocked) : ∃ u, (th u).Blocked ∧ (th' u).Blocked := by
  obtain ⟨u, hu⟩ := asleep
  by_cases same : u = t
  · rw [same, Function.update_self] at hu
    exact absurd hu active
  · rw [Function.update_of_ne same] at hu
    exact ⟨u, told.eq_of_blocked hu ▸ hu, hu⟩

end Sleepers

variable [DecidableEq κ] [DecidableEq ν] [Fintype T]

/-- The threads that have returned from `r_lock` or `w_lock` and are about to enter `k`. -/
def holding (k : κ) (x : Config T Lock κ ν) : ℕ := count (fun y => decide (y = .ready k)) x.thread

/-- The counters are the numbers of threads that hold the lock, and no thread sleeps while the lock
is free and nobody is on the way back from a wait. -/
structure NoLostWakeup (rd wr : κ) (x : Config T Lock κ ν) : Prop where
  readers : x.shared.readCnt = holding rd x
  writers : x.shared.writeCnt = holding wr x
  tended : (∃ t, (x.thread t).Blocked) →
    (∃ t, x.thread t = .ready rd ∨ x.thread t = .ready wr) ∨ ∃ t, (x.thread t).isWoken = true

variable {rd wr : κ} {x : Config T Lock κ ν}

theorem countAt_eq_holding {k : κ}
    (seated : ∀ t, (x.thread t).control = some k → x.thread t = .ready k) :
    countAt k x.thread = holding k x := by
  unfold countAt holding count
  congr 1
  apply Finset.filter_congr
  intro t _
  rw [decide_eq_true_iff, decide_eq_true_iff]
  refine ⟨seated t, fun ready => ?_⟩
  rw [ready]
  rfl

theorem NoLostWakeup.of_tended (counted : Counted rd wr x)
    (seated : ∀ t, (x.thread t).control = some rd ∨ (x.thread t).control = some wr →
      ∃ k, x.thread t = .ready k) (tended : Tended x) : NoLostWakeup rd wr x := by
  have sits {k : κ} (either : k = rd ∨ k = wr) (t : T) (at_k : (x.thread t).control = some k) :
      x.thread t = .ready k := by
    obtain ⟨k', ready⟩ := seated t (by rcases either with rfl | rfl <;> simp [at_k])
    rw [ready] at at_k ⊢
    rw [Option.some.inj at_k]
  have readers := countAt_eq_holding (sits (.inl rfl))
  have writers := countAt_eq_holding (sits (.inr rfl))
  refine ⟨by rw [counted.readers, readers], by rw [counted.writers, writers], fun asleep => ?_⟩
  refine (tended asleep).imp_left fun held => ?_
  rcases held with reads | writes
  · rw [counted.readers, Nat.cast_pos] at reads
    obtain ⟨t, ht⟩ := countAt_pos.1 reads
    exact ⟨t, .inl (sits (.inl rfl) t ht)⟩
  · rw [counted.writers, Nat.cast_pos] at writes
    obtain ⟨t, ht⟩ := countAt_pos.1 writes
    exact ⟨t, .inr (sits (.inr rfl) t ht)⟩

end Tended

/-! ## The reader-preferring lock -/

namespace ReaderPreferring

/-- Only the end of `w_lock` comes after a wait. -/
def Placed : Thread Point Cond → Prop
  | .ready k => k ≠ .wLockWoken
  | .blocked _ k | .woken k => k = .wLockWoken
  | .returned => True

variable {T : Type*}

theorem placed_exits (t : T) (k : Point) (rw : Lock) :
    ∀ z ∈ (prog t k rw).exit.threads, Placed z := by
  intro z exits
  cases k with
  | wLock =>
    by_cases guard : rw.readCnt > 0 ∨ rw.writeCnt > 0 <;>
      simp [prog, wLock, wLockWoken, guard, Exit.threads] at exits <;> simp [exits, Placed]
  | rLock | wLockWoken =>
    simp [prog, rLock, wLockWoken, Exit.threads] at exits
    simp [exits, Placed]
  | rUnlock | wUnlock =>
    simp [prog, rUnlock, wUnlock, Exit.threads] at exits
    rcases exits with rfl | rfl <;> simp [Placed]

variable [DecidableEq T] {d : Discipline}

/-- An unlock that leaves the lock free signals the only condition variable. -/
theorem tended_unlock {th th' : T → Thread Point Cond} {rw : Lock} {p : Prop} [Decidable p] {t : T}
    {k : Point} (told : Notified d th (if p then [.signal .rCond] else []) th')
    (held : ¬ p → 0 < rw.readCnt ∨ 0 < rw.writeCnt) (awake : ¬ (th t).Blocked) :
    Tended ⟨rw, Function.update th' t (.ready k)⟩ := by
  intro asleep
  by_cases last : p
  · rw [if_pos last] at told
    obtain ⟨u, hu, -⟩ := exists_blocked told (by simp) asleep
    obtain ⟨c, k', hb⟩ := Thread.blocked_iff.1 hu
    exact Tended.of_signal told awake ⟨u, Thread.waitsOn_iff.2 ⟨k', hb⟩⟩ asleep
  · exact .inl (held last)

variable [Fintype T] {x y : Config T Lock Point Cond} {a : Label T}

/-- Every step leaves the lock held or a thread on its way back, if a thread sleeps. -/
theorem tended_step (counted : Counted .rUnlock .wUnlock x)
    (taken : Step d prog x a y) : Tended y := by
  have counted' := counted.step balanced taken
  have reads := counted.readCnt_nonneg
  have writes := counted.writeCnt_nonneg
  have reads' := counted'.readCnt_nonneg
  have writes' := counted'.writeCnt_nonneg
  cases taken with
  | @spurious t => exact fun _ => .inr ⟨t, by simp [Thread.isWoken]⟩
  | @sect t k th z enters told exits =>
    have awake : ¬ (x.thread t).Blocked := by
      rcases Thread.entry_eq_some.1 enters with h | h <;> simp [h]
    cases k with
    | rLock =>
      refine fun _ => .inl (.inl ?_)
      dsimp only [prog, rLock]
      omega
    | wLockWoken =>
      refine fun _ => .inl (.inr ?_)
      dsimp only [prog, wLockWoken]
      omega
    | wLock =>
      refine fun _ => .inl ?_
      dsimp only [prog]
      unfold wLock wLockWoken
      split_ifs with guard
      · exact guard
      · right
        dsimp only
        omega
    | rUnlock =>
      simp only [prog, rUnlock, Exit.threads, List.mem_map] at exits reads'
      obtain ⟨k', -, rfl⟩ := exits
      exact tended_unlock told (fun more => .inl (lt_of_le_of_ne reads' (Ne.symm more))) awake
    | wUnlock =>
      simp only [prog, wUnlock, Exit.threads, List.mem_map] at exits writes'
      obtain ⟨k', -, rfl⟩ := exits
      exact tended_unlock told (fun more => .inr (lt_of_le_of_ne writes' (Ne.symm more))) awake

theorem noLostWakeup {rw : Lock} {reads : T → Bool}
    (reached : Reachable (Step d prog) (initial rw reads) x) : NoLostWakeup .rUnlock .wUnlock x := by
  obtain ⟨l, run⟩ := reached
  obtain ⟨counted, tended⟩ : Counted .rUnlock .wUnlock x ∧ Tended x :=
    run.invariant (P := fun x => Counted .rUnlock .wUnlock x ∧ Tended x)
      ⟨counted_initial rw reads, fun ⟨t, asleep⟩ => by simp [initial] at asleep⟩
      fun _ _ _ h taken => ⟨h.1.step balanced taken, tended_step h.1 taken⟩
  have placed : ∀ t, Placed (x.thread t) := run.invariant (P := fun x => ∀ t, Placed (x.thread t))
    (fun t => by cases h : reads t <;> simp [initial, Placed, h])
    fun _ _ _ h taken => taken.threads (fun _ _ waits => waits) placed_exits h
  refine .of_tended counted (fun t at_k => ?_) tended
  have here := placed t
  cases h : x.thread t with
  | ready k => exact ⟨k, rfl⟩
  | blocked c k | woken k =>
    rw [h] at at_k here
    simp only [Thread.control, Option.some.injEq] at at_k
    rcases at_k with rfl | rfl <;> simp [Placed] at here
  | returned => simp [h, Thread.control] at at_k

end ReaderPreferring

/-! ## The writer-preferring lock -/

namespace WriterPreferring

/-- The ends of `r_lock` and `w_lock` come after a wait on the condition variable of each. -/
def Placed : Thread Point Cond → Prop
  | .ready k => k ≠ .rLockWoken ∧ k ≠ .wLockWoken
  | .blocked c k => c = .rCond ∧ k = .rLockWoken ∨ c = .wCond ∧ k = .wLockWoken
  | .woken k => k = .rLockWoken ∨ k = .wLockWoken
  | .returned => True

variable {T : Type*}

theorem placed_exits (t : T) (k : Point) (rw : Lock) :
    ∀ z ∈ (prog t k rw).exit.threads, Placed z := by
  intro z exits
  have passes := passes_of_mem exits
  generalize (prog t k rw).shared = rw' at passes
  cases passes with
  | readerLeaves call | writerLeaves call => rcases call with rfl | rfl <;> simp [Placed]
  | readerWaits | readerEnters | readerReturns | writerWaits | writerEnters | writerReturns =>
    simp [Placed]

theorem writeWait_balanced (t : T) (k : Point) (rw : Lock) :
    ∀ z ∈ (prog t k rw).exit.threads,
      (prog t k rw).shared.writeWait + (if k = .wLockWoken then 1 else 0) =
        rw.writeWait + (if z.control = some .wLockWoken then 1 else 0) := by
  intro z exits
  have passes := passes_of_mem exits
  generalize (prog t k rw).shared = rw' at passes ⊢
  cases passes with
  | readerLeaves call | writerLeaves call => rcases call with rfl | rfl <;> simp [Thread.control]
  | readerWaits | readerEnters | readerReturns | writerWaits | writerEnters | writerReturns =>
    simp [Thread.control]

variable [Fintype T] {d : Discipline} {x y : Config T Lock Point Cond} {a : Label T}

/-- `write_wait` counts the writers that are in a wait, woken or not. -/
structure Queued (x : Config T Lock Point Cond) : Prop where
  placed : ∀ t, Placed (x.thread t)
  count : x.shared.writeWait = countAt .wLockWoken x.thread

theorem Queued.initial (reads : T → Bool) : Queued (initial reads) where
  placed t := by cases h : reads t <;> simp [WriterPreferring.initial, Placed, h]
  count := by
    have none_waits : countAt .wLockWoken (WriterPreferring.initial reads).thread = 0 := by
      unfold countAt Monitor.count
      rw [Finset.card_eq_zero, Finset.filter_eq_empty_iff]
      intro t _
      cases h : reads t <;> simp [WriterPreferring.initial, h, Thread.control]
    rw [none_waits]
    rfl

/-- A writer that `write_wait` counts sleeps on `w_cond` or is on its way back. -/
theorem Queued.writer (queued : Queued x) (waits : 0 < x.shared.writeWait) :
    (∃ u, (x.thread u).waitsOn .wCond = true) ∨ ∃ u, (x.thread u).isWoken = true := by
  rw [queued.count, Nat.cast_pos] at waits
  obtain ⟨u, hu⟩ := countAt_pos.1 waits
  have here := queued.placed u
  cases h : x.thread u with
  | ready k =>
    rw [h] at hu here
    exact absurd (Option.some.inj hu) here.2
  | blocked c k =>
    rw [h] at hu here
    obtain rfl : k = .wLockWoken := Option.some.inj hu
    rcases here with ⟨-, clash⟩ | ⟨rfl, -⟩
    · cases clash
    · exact .inl ⟨u, by simp [h, Thread.waitsOn]⟩
  | woken k => exact .inr ⟨u, by simp [h, Thread.isWoken]⟩
  | returned => simp [h, Thread.control] at hu

/-- A thread that enters a section other than the end of a wait has not been woken. -/
theorem Queued.ready (queued : Queued x) {t : T} {k : Point} (enters : (x.thread t).entry = some k)
    (first : k ≠ .rLockWoken ∧ k ≠ .wLockWoken) : x.thread t = .ready k := by
  rcases Thread.entry_eq_some.1 enters with h | h
  · exact h
  · have here := queued.placed t
    rw [h] at here
    rcases here with rfl | rfl <;> simp at first

variable [DecidableEq T]

theorem Queued.step (queued : Queued x) (taken : Step d prog x a y) : Queued y where
  placed := taken.threads
    (fun _ _ waits => waits.imp And.right And.right) placed_exits queued.placed
  count := taken.counter (f := Lock.writeWait) writeWait_balanced queued.count

section Sections

variable {rw : Lock} {th : T → Thread Point Cond} {t : T} {k : Point}

/-- When a reader goes to sleep, whoever it waits for is still there. -/
theorem Queued.tended_sleep (queued : Queued x) (tended : Tended x)
    (told : Notified d x.thread [] th) (ready : x.thread t = .ready k)
    (guard : x.shared.writeCnt > 0 ∨ x.shared.writeWait > 0) (z : Thread Point Cond) :
    Tended ⟨x.shared, Function.update th t z⟩ := by
  rcases guard with writes | waiting
  · exact fun _ => .inl (.inr writes)
  · rcases queued.writer waiting with ⟨u, on⟩ | ⟨u, woken⟩
    · obtain ⟨k, hk⟩ := Thread.waitsOn_iff.1 on
      rcases tended ⟨u, by simp [hk]⟩ with held | ⟨u, woken⟩
      · exact fun _ => .inl held
      · exact .of_woken told ready woken
    · exact .of_woken told ready woken

/-- An unlock that counts waiting writers leaves one on its way back. -/
theorem Queued.tended_signal (queued : Queued x) (waits : 0 < x.shared.writeWait)
    (told : Notified d x.thread [.signal .wCond] th) (ready : x.thread t = .ready k)
    (z : Thread Point Cond) : Tended ⟨rw, Function.update th t z⟩ := by
  rcases queued.writer waits with asleep | ⟨u, woken⟩
  · exact .of_signal told (by simp [ready]) asleep
  · exact .of_woken told ready woken

/-- An unlock without waiting writers leaves nobody asleep. -/
theorem Queued.tended_broadcast (queued : Queued x) (none_waits : x.shared.writeWait = 0)
    (told : Notified d x.thread [.broadcast .rCond] th) (k : Point) :
    Tended ⟨rw, Function.update th t (.ready k)⟩ := by
  intro asleep
  obtain ⟨u, hu, hu'⟩ := exists_blocked told (by simp) asleep
  obtain ⟨c, k', hb⟩ := Thread.blocked_iff.1 hu
  have here := queued.placed u
  rw [hb] at here
  rcases here with ⟨rfl, -⟩ | ⟨-, rfl⟩
  · have cleared := told.broadcast_wakes u
    rw [told.eq_of_blocked hu', hb] at cleared
    simp [Thread.waitsOn] at cleared
  · have counted : 0 < countAt .wLockWoken x.thread := countAt_pos.2 ⟨u, by rw [hb]; rfl⟩
    have count := queued.count
    omega

end Sections

theorem tended_step (counted : Counted .rUnlock .wUnlock x) (queued : Queued x) (tended : Tended x)
    (taken : Step d prog x a y) : Tended y := by
  have counted' := counted.step balanced taken
  have reads := counted.readCnt_nonneg
  have writes := counted.writeCnt_nonneg
  have reads' := counted'.readCnt_nonneg
  have queue : 0 ≤ x.shared.writeWait := by
    rw [queued.count]
    exact Int.natCast_nonneg _
  cases taken with
  | @spurious t => exact fun _ => .inr ⟨t, by simp [Thread.isWoken]⟩
  | @sect t k th z enters told exits =>
    have ready := queued.ready enters
    cases k with
    | rLockWoken =>
      refine fun _ => .inl (.inl ?_)
      dsimp only [prog, rLockWoken]
      omega
    | wLockWoken =>
      refine fun _ => .inl (.inr ?_)
      dsimp only [prog, wLockWoken]
      omega
    | rLock =>
      by_cases guard : x.shared.writeCnt > 0 ∨ x.shared.writeWait > 0
      · have waits : prog t .rLock x.shared = ⟨x.shared, [], .wait .rCond .rLockWoken⟩ :=
          if_pos guard
        rw [waits] at told ⊢
        exact queued.tended_sleep tended told (ready (by simp)) guard z
      · refine fun _ => .inl (.inl ?_)
        dsimp only [prog]
        rw [rLock, if_neg guard]
        dsimp only [rLockWoken]
        omega
    | wLock =>
      refine fun _ => .inl ?_
      dsimp only [prog]
      unfold wLock
      split_ifs with guard
      · exact guard
      · right
        dsimp only
        omega
    | rUnlock =>
      simp only [prog, rUnlock, Exit.threads, List.mem_map] at exits told reads'
      obtain ⟨k', -, rfl⟩ := exits
      by_cases last : x.shared.readCnt - 1 = 0
      · simp only [last, and_true] at told
        rcases queue.lt_or_eq with waits | empty
        · rw [if_pos waits] at told
          exact queued.tended_signal waits told (ready (by simp)) _
        · rw [if_neg (by omega), if_pos empty.symm] at told
          exact queued.tended_broadcast empty.symm told _
      · exact fun _ => .inl (.inl (lt_of_le_of_ne reads' (Ne.symm last)))
    | wUnlock =>
      simp only [prog, wUnlock, Exit.threads, List.mem_map] at exits told
      obtain ⟨k', -, rfl⟩ := exits
      rcases queue.lt_or_eq with waits | empty
      · rw [if_pos waits] at told
        exact queued.tended_signal waits told (ready (by simp)) _
      · rw [if_neg (by omega), if_pos empty.symm] at told
        exact queued.tended_broadcast empty.symm told _

theorem noLostWakeup {reads : T → Bool} (reached : Reachable (Step d prog) (initial reads) x) :
    NoLostWakeup .rUnlock .wUnlock x := by
  obtain ⟨l, run⟩ := reached
  obtain ⟨counted, queued, tended⟩ : Counted .rUnlock .wUnlock x ∧ Queued x ∧ Tended x :=
    run.invariant (P := fun x => Counted .rUnlock .wUnlock x ∧ Queued x ∧ Tended x)
      ⟨counted_initial reads, .initial reads, fun ⟨t, asleep⟩ => by simp [initial] at asleep⟩
      fun _ _ _ h taken =>
        ⟨h.1.step balanced taken, h.2.1.step taken, tended_step h.1 h.2.1 h.2.2 taken⟩
  refine .of_tended counted (fun t at_k => ?_) tended
  have here := queued.placed t
  cases h : x.thread t with
  | ready k => exact ⟨k, rfl⟩
  | blocked c k | woken k =>
    rw [h] at at_k here
    simp only [Thread.control, Option.some.injEq] at at_k
    rcases at_k with rfl | rfl <;> simp [Placed] at here
  | returned => simp [h, Thread.control] at at_k

end WriterPreferring

/-! ## Both locks -/

/-- Under every schedule and every semantics of the condition variables, in both locks the counters
are the numbers of threads that hold the lock, and whenever a thread sleeps, some thread holds the
lock or has been woken and not yet returned. -/
theorem no_lost_wakeup {T : Type*} [DecidableEq T] [Fintype T] (d : Discipline) (rw : Lock)
    (reads : T → Bool) :
    (∀ x, Reachable (Step d ReaderPreferring.prog) (ReaderPreferring.initial rw reads) x →
      NoLostWakeup .rUnlock .wUnlock x) ∧
    ∀ x, Reachable (Step d WriterPreferring.prog) (WriterPreferring.initial reads) x →
      NoLostWakeup .rUnlock .wUnlock x :=
  ⟨fun _ => ReaderPreferring.noLostWakeup, fun _ => WriterPreferring.noLostWakeup⟩

/-- In both locks, a writer that sleeps while another one holds the lock. -/
theorem no_lost_wakeup_secondWriter :
    (∃ x, Reachable (Step .strict ReaderPreferring.prog)
        (ReaderPreferring.initial ⟨0, 0, 0⟩ fun _ : Fin 2 => false) x ∧
      (x.thread 1).isBlocked = true ∧ NoLostWakeup .rUnlock .wUnlock x) ∧
    ∃ x, Reachable (Step .strict WriterPreferring.prog)
        (WriterPreferring.initial fun _ : Fin 2 => false) x ∧
      (x.thread 1).isBlocked = true ∧ NoLostWakeup .rUnlock .wUnlock x := by
  have both := no_lost_wakeup .strict ⟨0, 0, 0⟩ fun _ : Fin 2 => false
  constructor
  · have ends : (([⟨0, [], 0⟩, ⟨1, [], 0⟩] : List (Move (Fin 2))).foldlM
        (exec ReaderPreferring.prog) (ReaderPreferring.initial ⟨0, 0, 0⟩ fun _ => false)).map
          (fun x => (x.thread 1).isBlocked) = some true := by decide
    obtain ⟨x, hx, asleep⟩ := Option.map_eq_some_iff.1 ends
    have reached := run_of_exec .strict _ _ hx
    exact ⟨x, reached, asleep, both.1 x reached⟩
  · have ends : (([⟨0, [], 0⟩, ⟨1, [], 0⟩] : List (Move (Fin 2))).foldlM
        (exec WriterPreferring.prog) (WriterPreferring.initial fun _ => false)).map
          (fun x => (x.thread 1).isBlocked) = some true := by decide
    obtain ⟨x, hx, asleep⟩ := Option.map_eq_some_iff.1 ends
    have reached := run_of_exec .strict _ _ hx
    exact ⟨x, reached, asleep, both.2 x reached⟩

end SsuOs.RwLock
