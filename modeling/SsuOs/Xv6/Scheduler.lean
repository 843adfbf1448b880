import SsuOs.Base.BubbleSort
import SsuOs.Base.Run
import Mathlib.Data.Fintype.Basic
import Mathlib.Logic.Function.Basic

/-!
# The priority scheduler of xv6

The function `scheduler` of `hw3/xv6/proc.c` on one CPU, as a transition system with the process
table. An iteration of the outer loop copies the priorities of the processes that are runnable,
sorts the copy into descending order, and makes one pass over the table for each of its entries, in
which every process that is runnable with at least that priority is dispatched.

Wherever `ptable.lock` is not held, and while a process runs, the table may change in any way.
-/

namespace SsuOs.Xv6

/-- `NPROC`. -/
abbrev nproc : ℕ := 64

/-- `enum procstate`. -/
inductive ProcState
  | unused
  | embryo
  | sleeping
  | runnable
  | running
  | zombie
  deriving DecidableEq

/-- The fields of `struct proc` that the scheduler reads or writes. -/
structure Proc where
  state : ProcState
  switchCnt : Int32
  priority : ℤ

/-- `ptable.proc`. -/
abbrev ProcTable := Fin nproc → Proc

namespace Scheduler

/-- Where the scheduler is. The array `queue` is filled up to `n`, which is its length here. -/
inductive Point
  /-- at the head of the outer loop -/
  | outer
  /-- before the sort, with the lock released -/
  | sort (queue : List ℤ)
  /-- at the head of the loop over `i`, without the lock -/
  | pass (queue : List ℤ) (i : ℕ)
  /-- at the head of the loop over the slots, with the lock -/
  | visit (queue : List ℤ) (i p : ℕ)
  /-- in `swtch`, while `p` runs -/
  | running (queue : List ℤ) (i : ℕ) (p : Fin nproc)
  deriving DecidableEq

/-- Other code may change the table. -/
def Point.unlocked : Point → Bool
  | .visit .. => false
  | _ => true

structure State where
  point : Point
  table : ProcTable

/-- The steps of the scheduler, and `env` for a change of the table by anyone else. -/
inductive Label
  | env
  | scan
  | sort
  | acquire
  | skip
  | dispatch (p : Fin nproc)
  | back
  | release
  | finish
  deriving DecidableEq

/-- The first loop: the priorities of the runnable processes, in the order of the table. -/
def gather (table : ProcTable) : List ℤ :=
  (List.finRange nproc).filterMap fun p =>
    if (table p).state = .runnable then some (table p).priority else none

/-- `queue[i]`. -/
def threshold (queue : List ℤ) (i : ℕ) : ℤ := queue.getD i 0

/-- The next step of the scheduler. -/
def next (s : State) : Label × State :=
  match s.point with
  | .outer => (.scan, ⟨.sort (gather s.table), s.table⟩)
  | .sort queue => (.sort, ⟨.pass (bubbleSort queue) 0, s.table⟩)
  | .pass queue i =>
      if i < queue.length then (.acquire, ⟨.visit queue i 0, s.table⟩)
      else (.finish, ⟨.outer, s.table⟩)
  | .visit queue i p =>
      if h : p < nproc then
        let proc := s.table ⟨p, h⟩
        if proc.state = .runnable ∧ proc.priority ≥ threshold queue i then
          (.dispatch ⟨p, h⟩, ⟨.running queue i ⟨p, h⟩,
            Function.update s.table ⟨p, h⟩ { proc with state := .running }⟩)
        else (.skip, ⟨.visit queue i (p + 1), s.table⟩)
      else (.release, ⟨.pass queue (i + 1), s.table⟩)
  | .running queue i p =>
      (.back, ⟨.visit queue i (p + 1), Function.update s.table p
        { s.table p with switchCnt := (s.table p).switchCnt + 1 }⟩)

inductive Step : State → Label → State → Prop
  | env {point : Point} (table table' : ProcTable) (unlocked : point.unlocked) :
      Step ⟨point, table⟩ .env ⟨point, table'⟩
  | own (s : State) : Step s (next s).1 (next s).2

/-- What a step can be. -/
@[elab_as_elim]
theorem Step.elim {motive : State → Label → State → Prop} {s s' : State} {a : Label}
    (taken : Step s a s')
    (env : ∀ point table table', point.unlocked → motive ⟨point, table⟩ .env ⟨point, table'⟩)
    (scan : ∀ table, motive ⟨.outer, table⟩ .scan ⟨.sort (gather table), table⟩)
    (sort : ∀ queue table,
      motive ⟨.sort queue, table⟩ .sort ⟨.pass (bubbleSort queue) 0, table⟩)
    (acquire : ∀ queue i table, i < queue.length →
      motive ⟨.pass queue i, table⟩ .acquire ⟨.visit queue i 0, table⟩)
    (finish : ∀ queue i table, queue.length ≤ i →
      motive ⟨.pass queue i, table⟩ .finish ⟨.outer, table⟩)
    (skip : ∀ queue i (p : Fin nproc) table,
      ¬ ((table p).state = .runnable ∧ (table p).priority ≥ threshold queue i) →
      motive ⟨.visit queue i p, table⟩ .skip ⟨.visit queue i (p + 1), table⟩)
    (dispatch : ∀ queue i (p : Fin nproc) table, (table p).state = .runnable →
      (table p).priority ≥ threshold queue i →
      motive ⟨.visit queue i p, table⟩ (.dispatch p)
        ⟨.running queue i p, Function.update table p { table p with state := .running }⟩)
    (back : ∀ queue i p table, motive ⟨.running queue i p, table⟩ .back
      ⟨.visit queue i (p + 1), Function.update table p
        { table p with switchCnt := (table p).switchCnt + 1 }⟩)
    (release : ∀ queue i p table, nproc ≤ p →
      motive ⟨.visit queue i p, table⟩ .release ⟨.pass queue (i + 1), table⟩) :
    motive s a s' := by
  cases taken with
  | env table table' unlocked => exact env _ table table' unlocked
  | own =>
    obtain ⟨point, table⟩ := s
    cases point with
    | outer => exact scan table
    | sort queue => exact sort queue table
    | pass queue i =>
      by_cases more : i < queue.length
      · simpa [next, more] using acquire queue i table more
      · simpa [next, more] using finish queue i table (not_lt.1 more)
    | visit queue i p =>
      by_cases slot : p < nproc
      · by_cases eligible : (table ⟨p, slot⟩).state = .runnable ∧
            (table ⟨p, slot⟩).priority ≥ threshold queue i
        · simpa only [next, slot, eligible, dite_true, if_true, and_self] using
            dispatch queue i ⟨p, slot⟩ table eligible.1 eligible.2
        · simpa only [next, slot, eligible, dite_true, if_false] using
            skip queue i ⟨p, slot⟩ table eligible
      · simpa only [next, slot, dite_false] using release queue i p table (not_lt.1 slot)
    | running queue i p => exact back queue i p table

/-! ## The thresholds of an iteration -/

theorem mem_gather {table : ProcTable} {p : Fin nproc} (runnable : (table p).state = .runnable) :
    (table p).priority ∈ gather table :=
  List.mem_filterMap.2 ⟨p, List.mem_finRange p, if_pos runnable⟩

variable {queue : List ℤ} {x : ℤ} {i j : ℕ}

theorem threshold_eq_getElem (hi : i < queue.length) : threshold queue i = queue[i] := by
  rw [threshold, List.getD_eq_getElem?_getD, List.getElem?_eq_getElem hi, Option.getD_some]

/-- The thresholds fall from pass to pass. -/
theorem threshold_le (sorted : queue.Pairwise fun x y => y ≤ x) (hij : i ≤ j)
    (hj : j < queue.length) : threshold queue j ≤ threshold queue i := by
  rcases hij.eq_or_lt with rfl | before
  · exact le_rfl
  · rw [threshold_eq_getElem hj, threshold_eq_getElem (before.trans hj)]
    exact List.pairwise_iff_getElem.1 sorted i j _ hj before

theorem exists_threshold (mem : x ∈ queue) : ∃ k < queue.length, threshold queue k = x := by
  obtain ⟨k, hk, eq⟩ := List.getElem_of_mem mem
  exact ⟨k, hk, (threshold_eq_getElem hk).trans eq⟩

/-! ## Counting -/

/-- How often `p` was dispatched. -/
def dispatches (p : Fin nproc) (l : List (Event State Label)) : ℕ :=
  l.countP fun e => e.label = .dispatch p

/-- How many steps the scheduler itself has made. -/
def ownSteps (l : List (Event State Label)) : ℕ := l.countP fun e => e.label ≠ .env

variable {l : List (Event State Label)} {e : Event State Label} {p : Fin nproc}

theorem dispatches_snoc :
    dispatches p (l ++ [e]) = dispatches p l + if e.label = .dispatch p then 1 else 0 := by
  simp [dispatches, List.countP_append, List.countP_singleton]

theorem ownSteps_snoc :
    ownSteps (l ++ [e]) = ownSteps l + if e.label ≠ .env then 1 else 0 := by
  simp [ownSteps, List.countP_append, List.countP_singleton]

theorem dispatches_pos : 0 < dispatches p l ↔ ∃ e ∈ l, e.label = .dispatch p := by
  simp [dispatches, List.countP_pos_iff]

/-! ## Quiet runs -/

/-- `yield`: the process that runs becomes runnable again. -/
def State.resume (s : State) (p : Fin nproc) : State :=
  { s with table := Function.update s.table p { s.table p with state := .runnable } }

/-- The next step of the scheduler, and a `yield` of the process that it dispatches. -/
def quietStep (r : List (Event State Label) × State) : List (Event State Label) × State :=
  match next r.2 with
  | (.dispatch p, t) =>
      (r.1 ++ [⟨r.2, .dispatch p, t⟩] ++ [⟨t, .env, t.resume p⟩], t.resume p)
  | (a, t) => (r.1 ++ [⟨r.2, a, t⟩], t)

/-- `n` steps of the scheduler in which every process that is dispatched yields at once. -/
def quietRun (s : State) (n : ℕ) : List (Event State Label) × State := quietStep^[n] ([], s)

theorem Step.unlocked_of_dispatch {s s' : State} {a : Label} (taken : Step s a s') :
    a = .dispatch p → s'.point.unlocked := by
  refine taken.elim ?_ ?_ ?_ ?_ ?_ ?_ ?dispatch ?_ ?_
  case dispatch => exact fun _ _ _ _ _ _ _ => rfl
  all_goals nofun

theorem run_quietRun (s : State) (n : ℕ) : Run Step s (quietRun s n).1 (quietRun s n).2 := by
  induction n with
  | zero => exact .nil
  | succ n ih =>
    rw [quietRun, Function.iterate_succ_apply']
    change Run Step s (quietStep (quietRun s n)).1 (quietStep (quietRun s n)).2
    have taken := Step.own (quietRun s n).2
    unfold quietStep
    split
    · next p t eq =>
      rw [eq] at taken
      exact (ih.snoc taken).snoc (.env _ _ (taken.unlocked_of_dispatch rfl))
    · next a t _ eq =>
      rw [eq] at taken
      exact ih.snoc taken

end Scheduler

end SsuOs.Xv6
