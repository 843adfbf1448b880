import SsuOs.MasterWorker.Buffer

/-!
# No lost wake-up in the master-worker program

Three facts rule out a stuck state, each of the form "while this holds, the group does not sleep
unattended" (`Attended`): workers while there is an item in the buffer, masters while the buffer is
not full, and workers once everything is consumed.  Each is kept by every section, because a
section that makes its condition true signals the group or leaves a thread of it awake.
-/

namespace SsuOs.MasterWorker

open Monitor

variable {T : Type*} {p : Params} {isMaster : T → Bool}

/-- Who must not sleep, and when. -/
structure Awake (p : Params) (isMaster : T → Bool) (x : Config T (Shared T) Point Cond) : Prop where
  someLeft : 0 < x.shared.currBufSize → Attended (isMaster · = false) x.thread
  notFull : x.shared.currBufSize < p.maxBufSize → Attended (isMaster · = true) x.thread
  allConsumed : x.shared.consumeCnt = p.totalItems → Attended (isMaster · = false) x.thread

theorem Awake.initial (buffer : ℤ → ℤ) : Awake p isMaster (initial buffer isMaster) := by
  have ready (r : T → Prop) : Attended r (MasterWorker.initial buffer isMaster).thread :=
    .inr fun t _ => by simp [MasterWorker.initial]
  exact ⟨fun _ => ready _, fun _ => ready _, fun _ => ready _⟩

theorem Placed.masters_sleep {x : Config T (Shared T) Point Cond} (placed : Placed p isMaster x) :
    SleepsOn .produce (isMaster · = true) x.thread := by
  intro t
  rw [Thread.blocked_iff]
  constructor
  · rintro ⟨master, c, k, hb⟩
    have on := placed.sleeps t c k hb
    rw [if_pos master] at on
    exact ⟨k, by rw [hb, on]⟩
  · rintro ⟨k, hb⟩
    have on := placed.sleeps t _ k hb
    refine ⟨?_, _, k, hb⟩
    by_contra worker
    rw [if_neg worker] at on
    cases on

theorem Placed.workers_sleep {x : Config T (Shared T) Point Cond} (placed : Placed p isMaster x) :
    SleepsOn .consume (isMaster · = false) x.thread := by
  intro t
  rw [Thread.blocked_iff]
  constructor
  · rintro ⟨worker, c, k, hb⟩
    have on := placed.sleeps t c k hb
    rw [if_neg (by simp [worker])] at on
    exact ⟨k, by rw [hb, on]⟩
  · rintro ⟨k, hb⟩
    have on := placed.sleeps t _ k hb
    refine ⟨?_, _, k, hb⟩
    by_contra master
    rw [if_pos (by simpa using master)] at on
    cases on

variable [DecidableEq T] {d : Discipline} {x y : Config T (Shared T) Point Cond} {a : Label T}

theorem Awake.spurious (awake : Awake p isMaster x) (t : T) (k : Point) :
    Awake p isMaster ⟨x.shared, Function.update x.thread t (.woken k)⟩ := by
  have woken {r : T → Prop} (h : Attended r x.thread) :
      Attended r (Function.update x.thread t (.woken k)) := by
    by_cases ht : r t
    · exact .of_active ht trivial
    · exact h.of_outside (.nil (d := .strict) _) ht
  exact ⟨fun h => woken (awake.someLeft h), fun h => woken (awake.notFull h),
    fun h => woken (awake.allConsumed h)⟩

/-- Every section leaves the groups attended. -/
theorem Awake.step (awake : Awake p isMaster x) (placed : Placed p isMaster x)
    (conserved : Conserved p x.shared) (taken : Step d (prog p) x a y) : Awake p isMaster y := by
  have size := conserved.currBufSize_eq
  have total := conserved.total
  cases taken with
  | spurious => exact awake.spurious _ _
  | @sect t k th z enters told exits =>
    have role := placed.entry_role enters
    have does := does_prog p t x.shared k
    generalize prog p t k x.shared = o at *
    cases does with
    | full full =>
      -- The master goes to sleep on a full buffer, and the workers are as before.
      have outside : ¬ isMaster t = false := by simp [← role, Point.master]
      refine ⟨fun h => (awake.someLeft h).of_outside told outside, fun h => ?_,
        fun h => (awake.allConsumed h).of_outside told outside⟩
      exact absurd h (not_lt.2 full)
    | produces hk more room =>
      have master : isMaster t = true := role ▸ hk
      have outside : ¬ isMaster t = false := by simp [master]
      simp only [Exit.threads, List.map_cons, List.map_nil, List.mem_singleton] at exits
      subst exits
      exact ⟨fun _ => .of_signal told placed.workers_sleep outside,
        fun _ => .of_active master trivial,
        fun _ => .of_signal told placed.workers_sleep outside⟩
    | masterEnds hk done =>
      have outside : ¬ isMaster t = false := by simp [← role, hk]
      simp only [Exit.threads, List.mem_singleton] at exits
      subst exits
      exact ⟨fun h => (awake.someLeft h).of_outside told outside,
        fun _ => .of_broadcast told placed.masters_sleep (by simp),
        fun h => (awake.allConsumed h).of_outside told outside⟩
    | empty hk _ none_left unfinished =>
      -- The worker goes to sleep, but only on an empty buffer and before the end.
      have outside : ¬ isMaster t = true := by simp [← role, hk]
      refine ⟨fun h => ?_, fun h => (awake.notFull h).of_outside told outside, fun h => ?_⟩
      · exact absurd h (not_lt.2 none_left)
      · exact absurd h unfinished
    | consumes hk some_left =>
      have worker : isMaster t = false := role ▸ hk
      simp only [Exit.threads, List.map_cons, List.map_nil, List.mem_singleton] at exits
      subst exits
      exact ⟨fun _ => .of_active worker trivial,
        fun _ => .of_signal told placed.masters_sleep (by simp [worker]),
        fun _ => .of_active worker trivial⟩
    | workerEnds hk done =>
      -- The last consumer returns with the buffer empty, after waking the other workers.
      have outside : ¬ isMaster t = true := by simp [← role, hk]
      simp only [Exit.threads, List.mem_singleton] at exits
      subst exits
      refine ⟨fun h => ?_, fun h => (awake.notFull h).of_outside told outside,
        fun _ => .of_broadcast told placed.workers_sleep (by simp)⟩
      dsimp only at h
      omega
    | skips =>
      have worker : isMaster t = false := role ▸ rfl
      simp only [Exit.threads, List.map_cons, List.map_nil, List.mem_singleton] at exits
      subst exits
      exact ⟨fun _ => .of_active worker trivial,
        fun _ => .of_signal told placed.masters_sleep (by simp [worker]),
        fun _ => .of_active worker trivial⟩

/-- No schedule leads to a state in which some thread has not returned and all such threads wait
without having been woken. -/
theorem not_stuck (p : Params) (htotal : 0 ≤ p.totalItems) (hmax : 1 ≤ p.maxBufSize)
    (buffer : ℤ → ℤ) (isMaster : T → Bool) (master : ∃ t, isMaster t = true)
    (worker : ∃ t, isMaster t = false) (d : Discipline)
    (reached : Reachable (Step d (prog p)) (initial buffer isMaster) x) : ¬ Stuck x := by
  rintro ⟨⟨t, left⟩, asleep⟩
  obtain ⟨l, run⟩ := reached
  obtain ⟨conserved, placed, awake⟩ :
      Conserved p x.shared ∧ Placed p isMaster x ∧ Awake p isMaster x :=
    run.invariant (P := fun x => Conserved p x.shared ∧ Placed p isMaster x ∧ Awake p isMaster x)
      ⟨.initial htotal buffer isMaster, .initial buffer, .initial buffer⟩
      fun _ _ _ h taken => ⟨h.1.step taken, h.2.1.step h.1 taken, h.2.2.step h.2.1 h.1 taken⟩
  obtain ⟨m, hm⟩ := master
  obtain ⟨w, hw⟩ := worker
  have size := conserved.currBufSize_eq
  have nonneg := conserved.size
  have total := conserved.total
  -- Items in the buffer would keep a worker awake, and the workers return only when none is left.
  have drained : x.shared.currBufSize ≤ 0 := by
    by_contra some_left
    have returned := (awake.someLeft (lt_of_not_ge some_left)).eq_returned asleep hw
    have used := placed.workers w hw returned
    omega
  have masters (u : T) (hu : isMaster u = true) : x.thread u = .returned :=
    (awake.notFull (by omega)).eq_returned asleep hu
  have made := placed.masters m hm (masters m hm)
  have workers (u : T) (hu : isMaster u = false) : x.thread u = .returned :=
    (awake.allConsumed (by omega)).eq_returned asleep hu
  cases ht : isMaster t with
  | true => exact left (masters t ht)
  | false => exact left (workers t ht)

/-- Both threads asleep at some time: the worker on an empty buffer, then the master on a full one
while the worker was woken. -/
theorem not_stuck_fullBuffer :
    ∃ x, Reachable (Step ⟨true, false⟩ (prog ⟨2, 1⟩)) (initial (fun _ => 7) fun t : Fin 2 => t = 0) x ∧
      (x.thread 0).Blocked ∧ ¬ Stuck x := by
  have ends : (([⟨1, [], 0⟩, ⟨0, [1], 0⟩, ⟨0, [], 0⟩] : List (Move (Fin 2))).foldlM
      (exec (prog ⟨2, 1⟩)) (initial (fun _ => 7) fun t => t = 0)).map (·.thread 0) =
        some (.blocked .produce .generateWoken) := by decide
  obtain ⟨x, hx, asleep⟩ := Option.map_eq_some_iff.1 ends
  have reached := run_of_exec ⟨true, false⟩ _ _ hx
  exact ⟨x, reached, by rw [asleep]; trivial,
    not_stuck ⟨2, 1⟩ (by decide) (by decide) _ _ ⟨0, by decide⟩ ⟨1, by decide⟩ _ reached⟩

end SsuOs.MasterWorker
