import SsuOs.Semaphore.Basic

/-!
# The toggle test

`SSU_Sem_toggle_test.c`: `main` creates the threads one by one and waits after each `pthread_create`
until the thread has announced itself on `parent`; then it lets them print one line at a time
through `child`.  Waiters are woken in the order in which they blocked, and no wait ends by itself.
Each critical section of `SSU_Sem.c` is one step, and so is each `printf`.
-/

namespace SsuOs.Semaphore

open Monitor

/-! ## Semaphores that wake their waiters in order -/

/-- An `SSU_Sem` with the queue of the waiters in `cond`. -/
structure Fifo (W : Type) where
  sem : SSUSem
  queue : List W
  deriving DecidableEq

namespace Fifo

variable {W : Type}

def init (value : Int32) : Fifo W := ⟨ssuSemInit value, []⟩

/-- `SSU_Sem_down` by `w`, and whether `w` waits in it. -/
def down (s : Fifo W) (w : W) : Fifo W × Bool :=
  let o := ssuSemDown s.sem
  match o.exit with
  | .wait .. => (⟨o.shared, s.queue ++ [w]⟩, true)
  | _ => (⟨o.shared, s.queue⟩, false)

/-- `SSU_Sem_up`, and the waiter that it wakes. -/
def up (s : Fifo W) : Fifo W × Option W :=
  let o := ssuSemUp s.sem
  if o.notices = [] then (⟨o.shared, s.queue⟩, none) else (⟨o.shared, s.queue.tail⟩, s.queue.head?)

/-- After the calls of `SSU_Sem_down` in `downs` and `ups` calls of `SSU_Sem_up`, the waiters are
those of `downs` whose turn has not come. -/
structure Serves (s : Fifo W) (downs : List W) (ups : ℕ) : Prop where
  value : s.sem.value = Int32.ofInt (ups - downs.length)
  queue : s.queue = downs.drop ups

/-- One more call of either kind does not overflow. -/
structure InRange (downs : List W) (ups : ℕ) : Prop where
  low : downs.length ≤ ups + 2147483647
  high : ups ≤ downs.length + 2147483646

variable {s : Fifo W} {downs : List W} {ups : ℕ} {w : W}

theorem down_eq : s.down w =
    if s.sem.value - 1 < 0 then (⟨⟨s.sem.value - 1⟩, s.queue ++ [w]⟩, true)
    else (⟨⟨s.sem.value - 1⟩, s.queue⟩, false) := by
  by_cases waits : s.sem.value - 1 < 0
  · simp [Fifo.down, ssuSemDown, waits]
  · simp [Fifo.down, ssuSemDown, ssuSemDownWoken, waits]

theorem up_eq : s.up =
    if s.sem.value + 1 ≤ 0 then (⟨⟨s.sem.value + 1⟩, s.queue.tail⟩, s.queue.head?)
    else (⟨⟨s.sem.value + 1⟩, s.queue⟩, none) := by
  by_cases signals : s.sem.value + 1 ≤ 0
  · simp [Fifo.up, ssuSemUp, signals]
  · simp [Fifo.up, ssuSemUp, signals]

theorem serves_init : Serves (init 0 : Fifo W) [] 0 := ⟨rfl, rfl⟩

section Serves

variable (serves : Serves s downs ups) (range : InRange downs ups)
include serves range

theorem Serves.toInt_value : s.sem.value.toInt = ups - downs.length := by
  have low := range.low
  have high := range.high
  rw [serves.value, Int32.toInt_ofInt_of_le] <;> omega

theorem Serves.sub_one_neg_iff : s.sem.value - 1 < 0 ↔ ups ≤ downs.length := by
  have value := serves.toInt_value range
  have low := range.low
  rw [Semaphore.sub_one_neg_iff (by omega), value]
  omega

theorem Serves.add_one_nonpos_iff : s.sem.value + 1 ≤ 0 ↔ ups < downs.length := by
  have value := serves.toInt_value range
  have high := range.high
  rw [Semaphore.add_one_nonpos_iff (by omega), value]
  omega

theorem Serves.down (w : W) : Serves (s.down w).1 (downs ++ [w]) ups := by
  have waits_iff := serves.sub_one_neg_iff range
  have value : s.sem.value - 1 = Int32.ofInt (ups - (downs ++ [w]).length) := by
    rw [serves.value, show (1 : Int32) = Int32.ofInt 1 from rfl, ← Int32.ofInt_sub]
    refine congrArg Int32.ofInt ?_
    rw [List.length_append, List.length_singleton]
    push_cast
    omega
  rw [down_eq]
  split_ifs with waits
  · refine ⟨value, ?_⟩
    simp only [serves.queue]
    rw [List.drop_append_of_le_length (waits_iff.1 waits)]
  · have passes := mt waits_iff.2 waits
    refine ⟨value, ?_⟩
    simp only [serves.queue]
    rw [List.drop_eq_nil_of_le (by omega), List.drop_eq_nil_of_le (by simp; omega)]

theorem Serves.waits_iff (w : W) : (s.down w).2 = true ↔ ups ≤ downs.length := by
  rw [down_eq, ← serves.sub_one_neg_iff range]
  split_ifs with waits
  · exact iff_of_true rfl waits
  · exact iff_of_false not_false waits

theorem Serves.up : Serves s.up.1 downs (ups + 1) := by
  have signals_iff := serves.add_one_nonpos_iff range
  have value : s.sem.value + 1 = Int32.ofInt ((ups + 1 : ℕ) - downs.length) := by
    rw [serves.value, show (1 : Int32) = Int32.ofInt 1 from rfl, ← Int32.ofInt_add]
    refine congrArg Int32.ofInt ?_
    push_cast
    omega
  rw [up_eq]
  split_ifs with signals
  · refine ⟨value, ?_⟩
    simp only [serves.queue, List.tail_drop]
  · have early := mt signals_iff.2 signals
    refine ⟨value, ?_⟩
    simp only [serves.queue]
    rw [List.drop_eq_nil_of_le (by omega), List.drop_eq_nil_of_le (by omega)]

theorem Serves.wakes : s.up.2 = downs[ups]? := by
  have signals_iff := serves.add_one_nonpos_iff range
  rw [up_eq]
  split_ifs with signals
  · simp only [serves.queue, List.head?_drop]
  · have early := mt signals_iff.2 signals
    exact (List.getElem?_eq_none (by omega)).symm

end Serves

end Fifo

/-! ## The program -/

/-- Where a thread is in `justprint`, with the number of the iteration. -/
inductive Justprint
  /-- before `pthread_create` -/
  | unborn
  | announce
  | down (i : ℕ)
  /-- in `pthread_cond_wait` of `SSU_Sem_down(&child)` -/
  | asleep (i : ℕ)
  | woken (i : ℕ)
  | print (i : ℕ)
  | up (i : ℕ)
  | returned
  deriving DecidableEq

/-- An iteration of one of the two loops of `main`. -/
inductive Loop
  | create (i : ℕ)
  | toggle (i : ℕ)
  deriving DecidableEq

def Loop.next : Loop → Loop
  | .create i => .create (i + 1)
  | .toggle i => .toggle (i + 1)

/-- Where `main` is: each iteration ends with `SSU_Sem_down(&parent)`. -/
inductive Main
  | head (j : Loop)
  | down (j : Loop)
  | asleep (j : Loop)
  | woken (j : Loop)
  | join
  deriving DecidableEq

/-- The program with `T` threads. -/
structure Toggle (T : ℕ) where
  child : Fifo (Fin T)
  parent : Fifo Unit
  main : Main
  thread : Fin T → Justprint
  printed : List (Fin T)

inductive ToggleLabel (T : ℕ)
  | main
  | thread (t : Fin T)
  deriving DecidableEq

namespace Toggle

variable {T : ℕ}

def initial : Toggle T where
  child := .init 0
  parent := .init 0
  main := .head (.create 0)
  thread _ := .unborn
  printed := []

def setThread (s : Toggle T) (t : Fin T) (x : Justprint) : Toggle T :=
  { s with thread := Function.update s.thread t x }

/-- `SSU_Sem_up(&parent)`. -/
def upParent (s : Toggle T) : Toggle T :=
  match s.parent.up, s.main with
  | (parent, some ()), .asleep j => { s with parent := parent, main := .woken j }
  | (parent, _), _ => { s with parent := parent }

/-- `SSU_Sem_up(&child)`. -/
def upChild (s : Toggle T) : Toggle T :=
  match s.child.up with
  | (child, none) => { s with child := child }
  | (child, some t) =>
      match s.thread t with
      | .asleep i => { s with child := child }.setThread t (.woken i)
      | _ => { s with child := child }

/-- The next step of `main`, with `N` iterations. -/
def stepMain (N : ℕ) (s : Toggle T) : Option (Toggle T) :=
  match s.main with
  | .head (.create i) =>
      if h : i < T then some { s.setThread ⟨i, h⟩ .announce with main := .down (.create i) }
      else some { s with main := .head (.toggle 0) }
  | .head (.toggle i) =>
      if i < N * T then some { s.upChild with main := .down (.toggle i) }
      else some { s with main := .join }
  | .down j =>
      let (parent, waits) := s.parent.down ()
      some { s with parent := parent, main := if waits then .asleep j else .head j.next }
  | .woken j => some { s with main := .head j.next }
  | .asleep _ | .join => none

/-- The head of the loop of `justprint`. -/
def iterate (N i : ℕ) : Justprint := if i < N then .down i else .returned

/-- The next step of the thread `t`. -/
def stepThread (N : ℕ) (s : Toggle T) (t : Fin T) : Option (Toggle T) :=
  match s.thread t with
  | .announce => some (s.upParent.setThread t (iterate N 0))
  | .down i =>
      let (child, waits) := s.child.down t
      some ({ s with child := child }.setThread t (if waits then .asleep i else .print i))
  | .woken i => some (s.setThread t (.print i))
  | .print i => some ({ s with printed := s.printed ++ [t] }.setThread t (.up i))
  | .up i => some (s.upParent.setThread t (iterate N (i + 1)))
  | .unborn | .asleep _ | .returned => none

def step (N : ℕ) (s : Toggle T) : ToggleLabel T → Option (Toggle T)
  | .main => s.stepMain N
  | .thread t => s.stepThread N t

def Step (N : ℕ) (s : Toggle T) (a : ToggleLabel T) (s' : Toggle T) : Prop := s.step N a = some s'

/-- The thread that takes the mutex of `child` in `SSU_Sem_down` in this step. -/
def takes (e : Event (Toggle T) (ToggleLabel T)) : Option (Fin T) :=
  match e.label with
  | .main => none
  | .thread t =>
      match e.before.thread t with
      | .down _ => some t
      | _ => none

/-- The calls of `SSU_Sem_down(&child)`, in the order in which they take the mutex. -/
def downs (l : List (Event (Toggle T) (ToggleLabel T))) : List (Fin T) := l.filterMap takes

theorem downs_snoc (l : List (Event (Toggle T) (ToggleLabel T)))
    (e : Event (Toggle T) (ToggleLabel T)) : downs (l ++ [e]) = downs l ++ (takes e).toList := by
  rw [downs, List.filterMap_append]
  cases h : takes e <;> simp [downs, h]

end Toggle

end SsuOs.Semaphore
