import SsuOs.Base.Monitor
import Mathlib.Tactic.Linarith
import Mathlib.Order.Lattice

/-!
# The semaphore

The semaphore of `SSU_Sem.c`.  `SSU_Sem_down` takes one off `value` first and then waits, once, if
the result is negative; `SSU_Sem_up` adds one and signals if the result is not positive.  So a
negative `value` counts the waiters that nobody has signalled yet, and this works as long as a
signal wakes exactly one of them, no wait ends by itself and the `int` does not overflow
(`accounting`).  A wait that ends without a signal lets a thread through that has no right to
(`completed_le_of_signalled`).
-/

namespace SsuOs.Semaphore

open Monitor

/-- `SSU_Sem`, without its mutex and its condition variable. -/
structure SSUSem where
  value : Int32
  deriving DecidableEq, Repr

inductive Cond where
  | cond
  deriving DecidableEq, Repr

/-- The critical sections of the two calls.  `downWoken` is the part of `SSU_Sem_down` after
`pthread_cond_wait`. -/
inductive Point where
  | down
  | downWoken
  | up
  deriving DecidableEq, Repr

def ssuSemInit (value : Int32) : SSUSem := ⟨value⟩

/-- The end of `SSU_Sem_down`, which tests nothing. -/
def ssuSemDownWoken (s : SSUSem) : Outcome SSUSem Point Cond := ⟨s, [], .unlock [.down, .up]⟩

def ssuSemDown (s : SSUSem) : Outcome SSUSem Point Cond :=
  let s' := { s with value := s.value - 1 }
  if s'.value < 0 then ⟨s', [], .wait .cond .downWoken⟩ else ssuSemDownWoken s'

def ssuSemUp (s : SSUSem) : Outcome SSUSem Point Cond :=
  let s' := { s with value := s.value + 1 }
  ⟨s', if s'.value ≤ 0 then [.signal .cond] else [], .unlock [.down, .up]⟩

variable {T : Type*}

/-- Threads that call `SSU_Sem_down` and `SSU_Sem_up` in any order. -/
def prog : Program T SSUSem Point Cond := fun _ k =>
  match k with
  | .down => ssuSemDown
  | .downWoken => ssuSemDownWoken
  | .up => ssuSemUp

/-- Every thread is about to make its first call. -/
def initial (v : Int32) (downs : T → Bool) : Config T SSUSem Point Cond :=
  ⟨ssuSemInit v, fun t => .ready (if downs t then .down else .up)⟩

/-- What a critical section does, by the point it is entered at. -/
inductive Does (s : SSUSem) : Point → Outcome SSUSem Point Cond → Prop
  | takes : 0 ≤ s.value - 1 → Does s .down ⟨⟨s.value - 1⟩, [], .unlock [.down, .up]⟩
  | waits : s.value - 1 < 0 → Does s .down ⟨⟨s.value - 1⟩, [], .wait .cond .downWoken⟩
  | returns : Does s .downWoken ⟨s, [], .unlock [.down, .up]⟩
  | raises : 0 < s.value + 1 → Does s .up ⟨⟨s.value + 1⟩, [], .unlock [.down, .up]⟩
  | signals : s.value + 1 ≤ 0 → Does s .up ⟨⟨s.value + 1⟩, [.signal .cond], .unlock [.down, .up]⟩

theorem does_prog (t : T) (k : Point) (s : SSUSem) : Does s k (prog t k s) := by
  cases k with
  | down =>
    by_cases negative : s.value - 1 < 0
    · simp only [prog, ssuSemDown, negative, if_true]
      exact .waits negative
    · simp only [prog, ssuSemDown, ssuSemDownWoken, negative, if_false]
      exact .takes (Int32.not_lt.1 negative)
  | downWoken => exact .returns
  | up =>
    by_cases waiters : s.value + 1 ≤ 0
    · simp only [prog, ssuSemUp, waiters, if_true]
      exact .signals waiters
    · simp only [prog, ssuSemUp, waiters, if_false]
      exact .raises (Int32.not_le.1 waiters)

/-! ## Values inside the range of `int` -/

theorem toInt_sub_one {x : Int32} (low : -2147483648 < x.toInt) : (x - 1).toInt = x.toInt - 1 := by
  have high := x.toInt_lt
  rw [Int32.toInt_sub, Int.bmod_eq_of_le] <;> simp <;> omega

theorem toInt_add_one {x : Int32} (high : x.toInt < 2147483647) :
    (x + 1).toInt = x.toInt + 1 := by
  have low := x.le_toInt
  rw [Int32.toInt_add, Int.bmod_eq_of_le] <;> simp <;> omega

theorem sub_one_neg_iff {x : Int32} (low : -2147483648 < x.toInt) : x - 1 < 0 ↔ x.toInt ≤ 0 := by
  rw [Int32.lt_iff_toInt_lt, toInt_sub_one low, Int32.toInt_zero]
  omega

theorem add_one_nonpos_iff {x : Int32} (high : x.toInt < 2147483647) :
    x + 1 ≤ 0 ↔ x.toInt < 0 := by
  rw [Int32.le_iff_toInt_le, toInt_add_one high, Int32.toInt_zero]
  omega

/-! ## Counting calls -/

section Calls

/-- How often a critical section was entered at `k`. -/
def entries (k : Point) (l : List (Event (Config T SSUSem Point Cond) (Label T))) : ℕ :=
  l.countP fun e => decide (entered e = some k)

/-- The calls of `SSU_Sem_up` in a history. -/
def upsPerformed (l : List (Event (Config T SSUSem Point Cond) (Label T))) : ℕ := entries .up l

def downsBegun (l : List (Event (Config T SSUSem Point Cond) (Label T))) : ℕ := entries .down l

/-- The returns from `pthread_cond_wait`. -/
def waitsReturned (l : List (Event (Config T SSUSem Point Cond) (Label T))) : ℕ :=
  entries .downWoken l

/-- The calls of `pthread_cond_signal`. -/
def signalsSent (l : List (Event (Config T SSUSem Point Cond) (Label T))) : ℕ :=
  l.countP fun e => decide (entered e = some .up ∧ (ssuSemUp e.before.shared).notices ≠ [])

/-- In this step a call of `SSU_Sem_down` returns: at once, or after a wait. -/
def completesDown (e : Event (Config T SSUSem Point Cond) (Label T)) : Bool :=
  match e.label with
  | .sect t => decide ((e.before.thread t).entry = some .down ∧ ¬ (e.after.thread t).Blocked ∨
      (e.before.thread t).entry = some .downWoken)
  | .spurious _ => false

def downsCompleted (l : List (Event (Config T SSUSem Point Cond) (Label T))) : ℕ :=
  l.countP completesDown

variable (l : List (Event (Config T SSUSem Point Cond) (Label T)))
  (e : Event (Config T SSUSem Point Cond) (Label T))

theorem entries_snoc (k : Point) :
    entries k (l ++ [e]) = entries k l + if entered e = some k then 1 else 0 := by
  unfold entries
  rw [List.countP_append, List.countP_singleton]
  simp only [decide_eq_true_eq]

theorem signalsSent_snoc :
    signalsSent (l ++ [e]) = signalsSent l +
      if entered e = some .up ∧ (ssuSemUp e.before.shared).notices ≠ [] then 1 else 0 := by
  unfold signalsSent
  rw [List.countP_append, List.countP_singleton]
  simp only [decide_eq_true_eq]

theorem downsCompleted_snoc :
    downsCompleted (l ++ [e]) = downsCompleted l + if completesDown e then 1 else 0 := by
  unfold downsCompleted
  rw [List.countP_append, List.countP_singleton]

variable {l} in
theorem upsPerformed_mono {l' : List (Event (Config T SSUSem Point Cond) (Label T))}
    (earlier : l' <+: l) : upsPerformed l' ≤ upsPerformed l :=
  earlier.sublist.countP_le

end Calls

section Threads

variable [Fintype T]

/-- The threads in `pthread_cond_wait` that have not been signalled. -/
def blocked (x : Config T SSUSem Point Cond) : ℕ := count Thread.isBlocked x.thread

/-- The threads that have been woken from `pthread_cond_wait` and not returned from it. -/
def signalled (x : Config T SSUSem Point Cond) : ℕ := count Thread.isWoken x.thread

/-- All threads in `pthread_cond_wait`. -/
def waiting (x : Config T SSUSem Point Cond) : ℕ := countAt .downWoken x.thread

theorem waiting_le (x : Config T SSUSem Point Cond) : waiting x ≤ Fintype.card T :=
  Finset.card_le_univ _

end Threads

/-- A thread is about to continue after a wait exactly if it is in one. -/
def Placed (x : Config T SSUSem Point Cond) : Prop :=
  ∀ t, (x.thread t).control = some .downWoken ↔
    ((x.thread t).Blocked ∨ (x.thread t).isWoken = true)

theorem Placed.initial (v : Int32) (downs : T → Bool) : Placed (initial v downs) := by
  intro t
  cases h : downs t <;> simp [Semaphore.initial, h, Thread.control, Thread.isWoken]

/-- A section leaves its thread ready for the next call, or waiting inside `SSU_Sem_down`. -/
theorem Does.exits {s : SSUSem} {k : Point} {o : Outcome SSUSem Point Cond} (does : Does s k o)
    {z : Thread Point Cond} (exits : z ∈ o.exit.threads) :
    (o.exit = .unlock [.down, .up] ∧ ∃ k', z = .ready k' ∧ k' ≠ .downWoken) ∨
      (o.exit = .wait .cond .downWoken ∧ z = .blocked .cond .downWoken) := by
  cases does with
  | waits =>
    right
    simpa [Exit.threads] using exits
  | takes | returns | raises | signals =>
    left
    simp only [Exit.threads, List.map_cons, List.map_nil, List.mem_cons, List.not_mem_nil,
      or_false] at exits
    rcases exits with rfl | rfl <;> simp

/-- At the start no thread is in `pthread_cond_wait`. -/
theorem waiting_initial [Fintype T] (v : Int32) (downs : T → Bool) :
    waiting (initial v downs) = 0 := by
  unfold waiting countAt count
  rw [Finset.card_eq_zero, Finset.filter_eq_empty_iff]
  intro t _
  cases h : downs t <;> simp [initial, h, Thread.control]

theorem blocked_initial [Fintype T] (v : Int32) (downs : T → Bool) :
    blocked (initial v downs) = 0 := by
  unfold blocked count
  rw [Finset.card_eq_zero, Finset.filter_eq_empty_iff]
  intro t _
  simp [initial, Thread.isBlocked]

variable [DecidableEq T] {d : Discipline} {x y : Config T SSUSem Point Cond} {a : Label T}
  {l : List (Event (Config T SSUSem Point Cond) (Label T))} {v : Int32}

theorem Placed.step (placed : Placed x) (taken : Step d prog x a y) : Placed y := by
  refine Step.threads (P := fun z : Thread Point Cond =>
      z.control = some Point.downWoken ↔ (z.Blocked ∨ z.isWoken = true))
    (fun c k before => ?_) (fun t k s z exits => ?_) placed taken
  · exact before.trans (iff_of_true (.inl trivial) (.inr rfl))
  · rcases (does_prog t k s).exits exits with ⟨-, k', rfl, other⟩ | ⟨-, rfl⟩
    · simp [Thread.control, Thread.isWoken, other]
    · exact iff_of_true rfl (.inl trivial)

theorem completesDown_sect {s : SSUSem} {t : T} {k : Point} {th : T → Thread Point Cond}
    {z : Thread Point Cond} (enters : (x.thread t).entry = some k) :
    completesDown ⟨x, .sect t, ⟨s, Function.update th t z⟩⟩ =
      decide (k = .down ∧ ¬ z.Blocked ∨ k = .downWoken) := by
  simp only [completesDown, enters, Option.some.injEq, Function.update_self]

variable [Fintype T]

theorem Placed.waiting_eq (placed : Placed x) : waiting x = signalled x + blocked x := by
  unfold waiting signalled blocked countAt
  apply count_add
  · intro t
    rw [Bool.eq_iff_iff, decide_eq_true_iff, placed t, Bool.or_eq_true, Thread.isBlocked_iff, or_comm]
  · intro t
    cases x.thread t <;> rfl

/-- A thread that was not blocked changes the number of blocked threads only by waiting. -/
theorem count_blocked_update {th : T → Thread Point Cond} {t : T} (awake : ¬ (th t).Blocked)
    (z : Thread Point Cond) :
    count Thread.isBlocked (Function.update th t z) =
      count Thread.isBlocked th + z.isBlocked.toNat := by
  have moved := count_update Thread.isBlocked th t z
  rwa [Bool.eq_false_iff.2 fun asleep => awake (Thread.isBlocked_iff.1 asleep), Bool.toNat_false,
    Nat.add_zero] at moved

/-- A strict signal wakes one of the sleeping threads, if any sleeps. -/
theorem count_blocked_signal {th th' : T → Thread Point Cond}
    (told : Notified .strict th [.signal .cond] th') :
    count Thread.isBlocked th' = count Thread.isBlocked th - 1 := by
  by_cases sleeper : ∃ t, (th t).waitsOn .cond = true
  · obtain ⟨u, k', hu, rfl⟩ := told.signal_strict sleeper
    have moved := count_update Thread.isBlocked th u (.woken k')
    rw [hu] at moved
    simp only [Thread.isBlocked, Bool.toNat_true, Bool.toNat_false] at moved
    omega
  · have none_blocked : count Thread.isBlocked th = 0 := by
      unfold count
      rw [Finset.card_eq_zero, Finset.filter_eq_empty_iff]
      intro t _ asleep
      rw [Thread.isBlocked_iff, Thread.blocked_iff] at asleep
      obtain ⟨c, k, hb⟩ := asleep
      exact sleeper ⟨t, Thread.waitsOn_iff.2 ⟨k, hb⟩⟩
    have kept : count Thread.isBlocked th' ≤ count Thread.isBlocked th := by
      refine Finset.card_le_card fun t asleep => ?_
      rw [Finset.mem_filter, Thread.isBlocked_iff] at asleep ⊢
      exact ⟨asleep.1, told.eq_of_blocked asleep.2 ▸ asleep.2⟩
    omega

/-! ## The books of a run -/

/-- The value of the semaphore, the calls so far, and the threads in `pthread_cond_wait`: those that
sleep and those that have been woken. -/
structure Books where
  value : Int32
  ups : ℕ
  downs : ℕ
  completed : ℕ
  returned : ℕ
  sent : ℕ
  asleep : ℕ
  woken : ℕ

/-- What a step may do to the books. A signal and a spurious wake-up move threads from `asleep` to
`woken`. -/
inductive Booked (d : Discipline) (b : Books) : Books → Prop
  | takes (left : 0 ≤ b.value - 1) : Booked d b
      { b with value := b.value - 1, downs := b.downs + 1, completed := b.completed + 1 }
  | waits (none_left : b.value - 1 < 0) : Booked d b
      { b with value := b.value - 1, downs := b.downs + 1, asleep := b.asleep + 1 }
  | returns (inside : 0 < b.woken) : Booked d b
      { b with completed := b.completed + 1, returned := b.returned + 1, woken := b.woken - 1 }
  | raises (no_waiter : 0 < b.value + 1) : Booked d b
      { b with value := b.value + 1, ups := b.ups + 1 }
  | signals (waiter : b.value + 1 ≤ 0) {asleep woken : ℕ}
      (all : asleep + woken = b.asleep + b.woken) (one : d = .strict → asleep = b.asleep - 1) :
      Booked d b
        { b with value := b.value + 1, ups := b.ups + 1, sent := b.sent + 1, asleep, woken }
  | wakes (allowed : d.spurious = true) {asleep woken : ℕ}
      (all : asleep + woken = b.asleep + b.woken) : Booked d b { b with asleep, woken }

def books (l : List (Event (Config T SSUSem Point Cond) (Label T)))
    (x : Config T SSUSem Point Cond) : Books where
  value := x.shared.value
  ups := upsPerformed l
  downs := downsBegun l
  completed := downsCompleted l
  returned := waitsReturned l
  sent := signalsSent l
  asleep := blocked x
  woken := signalled x

/-- Every step is booked. -/
theorem booked_step (placed : Placed x) (taken : Step d prog x a y) :
    Booked d (books l x) (books (l ++ [⟨x, a, y⟩]) y) := by
  have before := placed.waiting_eq
  have after := (placed.step taken).waiting_eq
  cases taken with
  | @sect t k th z enters told exits =>
    have awake : ¬ (x.thread t).Blocked := by
      rcases Thread.entry_eq_some.1 enters with h | h <;> simp [h]
    have sleepers : blocked ⟨(prog t k x.shared).shared, Function.update th t z⟩ =
        count Thread.isBlocked th + z.isBlocked.toNat :=
      count_blocked_update (by rwa [told.eq_of_not_blocked awake]) z
    have moved : waiting ⟨(prog t k x.shared).shared, Function.update th t z⟩ +
          (if k = .downWoken then 1 else 0) =
        waiting x + (if z.control = some .downWoken then 1 else 0) :=
      countAt_sect told enters .downWoken z
    have does := does_prog t k x.shared
    have leaves := does.exits exits
    simp only [books, upsPerformed, downsBegun, waitsReturned, entries_snoc, signalsSent_snoc,
      downsCompleted_snoc, entered_sect enters, completesDown_sect enters]
    generalize prog t k x.shared = o at *
    generalize signalled ⟨o.shared, Function.update th t z⟩ = woken at *
    generalize blocked ⟨o.shared, Function.update th t z⟩ = asleep at *
    generalize waiting ⟨o.shared, Function.update th t z⟩ = inside at *
    cases does with
    | takes left =>
      cases told
      obtain ⟨-, k', rfl, other⟩ := leaves.resolve_right (by simp)
      obtain rfl : asleep = blocked x := by simpa [blocked, Thread.isBlocked] using sleepers
      obtain rfl : woken = signalled x := by simp [Thread.control, other] at moved; omega
      simpa [books, upsPerformed, downsBegun, waitsReturned] using
        Booked.takes (d := d) (b := books l x) left
    | waits none_left =>
      cases told
      obtain ⟨-, rfl⟩ := leaves.resolve_left (by simp)
      obtain rfl : asleep = blocked x + 1 := by simpa [blocked, Thread.isBlocked] using sleepers
      obtain rfl : woken = signalled x := by simp [Thread.control] at moved; omega
      simpa [books, upsPerformed, downsBegun, waitsReturned, Thread.Blocked] using
        Booked.waits (d := d) (b := books l x) none_left
    | returns =>
      cases told
      obtain ⟨-, k', rfl, other⟩ := leaves.resolve_right (by simp)
      obtain rfl : asleep = blocked x := by simpa [blocked, Thread.isBlocked] using sleepers
      simp only [Thread.control, Option.some.injEq, other, if_true, if_false] at moved
      have some_woken : 0 < signalled x := by omega
      obtain rfl : woken = signalled x - 1 := by omega
      simpa [books, upsPerformed, downsBegun, waitsReturned] using
        Booked.returns (d := d) (b := books l x) some_woken
    | raises no_waiter =>
      cases told
      obtain ⟨-, k', rfl, other⟩ := leaves.resolve_right (by simp)
      obtain rfl : asleep = blocked x := by simpa [blocked, Thread.isBlocked] using sleepers
      obtain rfl : woken = signalled x := by simp [Thread.control, other] at moved; omega
      have silent : (ssuSemUp x.shared).notices = [] := by
        simp [ssuSemUp, Int32.not_le.2 no_waiter]
      simpa [books, upsPerformed, downsBegun, waitsReturned, silent] using
        Booked.raises (d := d) (b := books l x) no_waiter
    | signals waiter =>
      obtain ⟨-, k', rfl, other⟩ := leaves.resolve_right (by simp)
      simp only [Thread.isBlocked, Bool.toNat_false, Nat.add_zero] at sleepers
      have all : asleep + woken = blocked x + signalled x := by
        simp [Thread.control, other] at moved
        omega
      have one (strict : d = .strict) : asleep = blocked x - 1 := by
        subst strict
        rw [sleepers, count_blocked_signal told]
        rfl
      have sends : (ssuSemUp x.shared).notices ≠ [] := by
        simp [ssuSemUp, waiter]
      simpa [books, upsPerformed, downsBegun, waitsReturned, sends] using
        Booked.signals (d := d) (b := books l x) waiter all one
  | @spurious t c k allowed waits =>
    have moved := count_update (fun z : Thread Point Cond => decide (z.control = some .downWoken))
      x.thread t (.woken k)
    have same : waiting ⟨x.shared, Function.update x.thread t (.woken k)⟩ = waiting x := by
      simpa [waiting, countAt, waits, Thread.control] using moved
    simpa [books, upsPerformed, downsBegun, waitsReturned, entries_snoc, signalsSent_snoc,
      downsCompleted_snoc, entered_spurious, completesDown] using
      Booked.wakes (b := books l x) allowed (show _ = blocked x + signalled x by omega)

/-! ## The accounts -/

namespace Books

variable {b b' : Books}

/-- What the books always say: the value follows the calls, as an `int`, and a call of
`SSU_Sem_down` has returned or is in its wait. -/
structure Accounted (v : Int32) (b : Books) : Prop where
  value : b.value = Int32.ofInt (v.toInt + b.ups - b.downs)
  calls : b.downs = b.completed + b.asleep + b.woken

theorem Accounted.booked (accounted : b.Accounted v) (booked : Booked d b b') : b'.Accounted v := by
  obtain ⟨value, calls⟩ := accounted
  have one : (1 : Int32) = Int32.ofInt 1 := rfl
  cases booked with
  | takes | waits =>
    refine ⟨?_, by dsimp only; omega⟩
    rw [value, one, ← Int32.ofInt_sub]
    exact congrArg Int32.ofInt (by push_cast; omega)
  | returns | wakes => exact ⟨value, by dsimp only; omega⟩
  | raises | signals =>
    refine ⟨?_, by dsimp only; omega⟩
    rw [value, one, ← Int32.ofInt_add]
    exact congrArg Int32.ofInt (by push_cast; omega)

/-- No more calls have returned than there were units. -/
def Bounded (v : Int32) (b : Books) : Prop := (b.completed : ℤ) ≤ v.toInt + b.ups

/-- The calls and the threads that wait are few enough for an `int`. -/
structure Fits (v : Int32) (b : Books) : Prop where
  ups : v.toInt + b.ups ≤ 2147483647
  waiting : b.asleep + b.woken ≤ 2147483647

/-- The value is then the number that the calls give. -/
theorem Accounted.toInt_value (accounted : b.Accounted v) (bounded : b.Bounded v)
    (fits : b.Fits v) : b.value.toInt = v.toInt + b.ups - b.downs := by
  obtain ⟨value, calls⟩ := accounted
  have high := fits.ups
  have low := fits.waiting
  unfold Bounded at bounded
  rw [value, Int32.toInt_ofInt_of_le] <;> omega

/-- A call of `SSU_Sem_down` does not underflow. -/
theorem Accounted.low (accounted : b.Accounted v) (bounded : b.Bounded v) (fits : b.Fits v) :
    -2147483648 < b.value.toInt := by
  have value := accounted.toInt_value bounded fits
  have calls := accounted.calls
  have waiting := fits.waiting
  unfold Bounded at bounded
  omega

/-- A call of `SSU_Sem_up` does not overflow when there is room for one more. -/
theorem Accounted.high (accounted : b.Accounted v) (bounded : b.Bounded v) (fits : b.Fits v)
    (room : v.toInt + b.ups < 2147483647) : b.value.toInt < 2147483647 := by
  have value := accounted.toInt_value bounded fits
  omega

/-- A negative value is the number of threads that sleep unsignalled. -/
def Exact (b : Books) : Prop := (b.asleep : ℤ) = max 0 (-b.value.toInt)

theorem Exact.booked (exactly : b.Exact) (accounted : b.Accounted v) (bounded : b.Bounded v)
    (fits : b.Fits v) (fits' : b'.Fits v) (booked : Booked .strict b b') : b'.Exact := by
  have low := accounted.low bounded fits
  have high := accounted.high bounded fits
  have ups := fits'.ups
  unfold Exact at exactly ⊢
  cases booked with
  | takes left =>
    have positive := mt (sub_one_neg_iff low).2 (Int32.not_lt.2 left)
    rw [toInt_sub_one low]
    dsimp only
    omega
  | waits none_left =>
    have negative := (sub_one_neg_iff low).1 none_left
    rw [toInt_sub_one low]
    push_cast
    omega
  | returns => exact exactly
  | raises no_waiter =>
    push_cast at ups
    have nonneg := mt (add_one_nonpos_iff (high (by omega))).2 (Int32.not_le.2 no_waiter)
    rw [toInt_add_one (high (by omega))]
    dsimp only
    omega
  | signals waiter all one =>
    push_cast at ups
    have negative := (add_one_nonpos_iff (high (by omega))).1 waiter
    rw [toInt_add_one (high (by omega)), one rfl]
    dsimp only
    omega
  | wakes allowed => cases allowed

/-- Under strict signals the bound is kept: a thread is woken only for a unit of its own. -/
theorem Exact.bounded (exactly : b.Exact) (accounted : b.Accounted v) (bounded : b.Bounded v)
    (fits : b.Fits v) (booked : Booked .strict b b') : b'.Bounded v := by
  have value := accounted.toInt_value bounded fits
  have calls := accounted.calls
  have low := accounted.low bounded fits
  unfold Exact at exactly
  unfold Bounded at bounded ⊢
  cases booked with
  | takes left =>
    have positive := mt (sub_one_neg_iff low).2 (Int32.not_lt.2 left)
    push_cast
    omega
  | returns inside =>
    push_cast
    omega
  | waits | raises | signals | wakes =>
    push_cast
    omega

/-- Units that were taken without a wait or are left, and signals sent, come from the initial value
and the calls of `SSU_Sem_up`. -/
def Covered (v : Int32) (b : Books) : Prop :=
  (b.completed + b.sent : ℤ) + max 0 b.value.toInt = v.toInt + b.ups + b.returned

theorem Covered.booked (covered : b.Covered v) (accounted : b.Accounted v) (bounded : b.Bounded v)
    (fits : b.Fits v) (fits' : b'.Fits v) (booked : Booked d b b') : b'.Covered v := by
  have low := accounted.low bounded fits
  have high := accounted.high bounded fits
  have ups := fits'.ups
  unfold Covered at covered ⊢
  cases booked with
  | takes left =>
    have positive := mt (sub_one_neg_iff low).2 (Int32.not_lt.2 left)
    rw [toInt_sub_one low]
    push_cast
    omega
  | waits none_left =>
    have negative := (sub_one_neg_iff low).1 none_left
    rw [toInt_sub_one low]
    push_cast
    omega
  | returns =>
    push_cast
    omega
  | raises no_waiter =>
    push_cast at ups
    have nonneg := mt (add_one_nonpos_iff (high (by omega))).2 (Int32.not_le.2 no_waiter)
    rw [toInt_add_one (high (by omega))]
    push_cast
    omega
  | signals waiter =>
    push_cast at ups
    have negative := (add_one_nonpos_iff (high (by omega))).1 waiter
    rw [toInt_add_one (high (by omega))]
    push_cast
    omega
  | wakes => exact covered

end Books

/-! ## Results -/

section Runs

variable {downs : T → Bool}

/-- The books of a run fit into `int`s if the calls of `SSU_Sem_up` and the threads do. -/
theorem Placed.fits (placed : Placed x) (threads : Fintype.card T ≤ 2147483647)
    (small : v.toInt + upsPerformed l ≤ 2147483647) : (books l x).Fits v := by
  refine ⟨small, ?_⟩
  have inside := placed.waiting_eq
  have few := waiting_le x
  change blocked x + signalled x ≤ _
  omega

theorem accounted_of_run (run : Run (Step d prog) (initial v downs) l x) :
    Placed x ∧ (books l x).Accounted v := by
  refine run.history (I := fun l x => Placed x ∧ (books l x).Accounted v) ⟨.initial v downs, ?_⟩ ?_
  · constructor
    · change v = Int32.ofInt (v.toInt + (0 : ℕ) - (0 : ℕ))
      rw [Nat.cast_zero, add_zero, sub_zero, Int32.ofInt_toInt]
    · have none_waits := waiting_initial v downs
      rw [(Placed.initial v downs).waiting_eq] at none_waits
      change 0 = 0 + blocked (initial v downs) + signalled (initial v downs)
      omega
  · rintro l x a y ⟨placed, accounted⟩ taken
    exact ⟨placed.step taken, accounted.booked (booked_step placed taken)⟩

theorem exact_of_run (hv : 0 ≤ v.toInt) (threads : Fintype.card T ≤ 2147483647)
    (run : Run (Step .strict prog) (initial v downs) l x)
    (small : v.toInt + upsPerformed l ≤ 2147483647) :
    (books l x).Bounded v ∧ (books l x).Exact := by
  induction run with
  | nil =>
    refine ⟨by simpa [Books.Bounded, books, downsCompleted, upsPerformed, entries] using hv, ?_⟩
    change (blocked (initial v downs) : ℤ) = max 0 (-v.toInt)
    rw [blocked_initial]
    push_cast
    omega
  | @snoc l x y a earlier taken ih =>
    have before := upsPerformed_mono (List.prefix_append l [⟨x, a, y⟩])
    obtain ⟨bounded, exactly⟩ := ih (by omega)
    obtain ⟨placed, accounted⟩ := accounted_of_run earlier
    have fits : (books l x).Fits v := placed.fits threads (by omega)
    have fits' : (books (l ++ [⟨x, a, y⟩]) y).Fits v := (placed.step taken).fits threads small
    have booked := booked_step (l := l) placed taken
    exact ⟨exactly.bounded accounted bounded fits booked,
      exactly.booked accounted bounded fits fits' booked⟩

/-- If no wait returns without a signal of its own, the bound holds and the books are covered. -/
theorem covered_of_run (hv : 0 ≤ v.toInt) (threads : Fintype.card T ≤ 2147483647)
    (run : Run (Step d prog) (initial v downs) l x)
    (small : v.toInt + upsPerformed l ≤ 2147483647)
    (own : ∀ l', l' <+: l → waitsReturned l' ≤ signalsSent l') :
    (books l x).Bounded v ∧ (books l x).Covered v := by
  induction run with
  | nil =>
    refine ⟨by simpa [Books.Bounded, books, downsCompleted, upsPerformed, entries] using hv, ?_⟩
    change (0 + 0 : ℤ) + max 0 v.toInt = v.toInt + 0 + 0
    omega
  | @snoc l x y a earlier taken ih =>
    have before := upsPerformed_mono (List.prefix_append l [⟨x, a, y⟩])
    obtain ⟨bounded, covered⟩ :=
      ih (by omega) fun l' below => own l' (below.trans (List.prefix_append ..))
    obtain ⟨placed, accounted⟩ := accounted_of_run earlier
    have fits : (books l x).Fits v := placed.fits threads (by omega)
    have fits' : (books (l ++ [⟨x, a, y⟩]) y).Fits v := (placed.step taken).fits threads small
    have covered' := covered.booked accounted bounded fits fits' (booked_step (l := l) placed taken)
    have matched := own _ List.prefix_rfl
    refine ⟨?_, covered'⟩
    simp only [Books.Covered, Books.Bounded, books] at covered' ⊢
    omega

end Runs

/-- With strict signals and without spurious wake-ups, at most 2147483647 threads and as long as the
initial value and the calls of `SSU_Sem_up` do not add up to more than an `int` holds: the value is
the initial one plus the calls of `SSU_Sem_up` minus those of `SSU_Sem_down`, a negative value is
the number of threads that sleep unsignalled, and no more calls of `SSU_Sem_down` come through than
there were units to take. -/
theorem accounting (v : Int32) (hv : 0 ≤ v.toInt) (threads : Fintype.card T ≤ 2147483647)
    (downs : T → Bool) (run : Run (Step .strict prog) (initial v downs) l x)
    (small : v.toInt + upsPerformed l ≤ 2147483647) :
    x.shared.value.toInt = v.toInt + upsPerformed l - downsBegun l ∧
    (blocked x : ℤ) = max 0 (-x.shared.value.toInt) ∧
    (downsCompleted l + signalled x : ℤ) ≤ v.toInt + upsPerformed l ∧
    (0 ≤ x.shared.value.toInt → ∀ t, ¬ (x.thread t).Blocked) := by
  obtain ⟨placed, accounted⟩ := accounted_of_run run
  obtain ⟨bounded, exactly⟩ := exact_of_run hv threads run small
  have value : x.shared.value.toInt = v.toInt + upsPerformed l - downsBegun l :=
    accounted.toInt_value bounded (placed.fits threads small)
  have calls : downsBegun l = downsCompleted l + blocked x + signalled x := accounted.calls
  change (blocked x : ℤ) = max 0 (-x.shared.value.toInt) at exactly
  refine ⟨value, exactly, by omega, fun nonneg t asleep => ?_⟩
  have none_blocked : blocked x = 0 := by omega
  unfold blocked count at none_blocked
  rw [Finset.card_eq_zero, Finset.filter_eq_empty_iff] at none_blocked
  exact none_blocked (Finset.mem_univ t) (Thread.isBlocked_iff.2 asleep)

/-- The thread `waiter` waits, `caller` signals it, and it comes back. -/
def handOver {T : Type} (waiter caller : T) : List (Move T) :=
  [⟨waiter, [], 0⟩, ⟨caller, [waiter], 0⟩, ⟨waiter, [], 0⟩]

theorem accounting_handOver :
    ∃ l x, Run (Step .strict prog) (initial 0 fun t : Fin 2 => t = 0) l x ∧
      upsPerformed l = 1 ∧ downsCompleted l = 1 ∧
      (x.shared.value.toInt = (0 : Int32).toInt + upsPerformed l - downsBegun l ∧
        (blocked x : ℤ) = max 0 (-x.shared.value.toInt) ∧
        (downsCompleted l + signalled x : ℤ) ≤ (0 : Int32).toInt + upsPerformed l ∧
        (0 ≤ x.shared.value.toInt → ∀ t, ¬ (x.thread t).Blocked)) := by
  obtain ⟨l, x, run, ups, completed⟩ := exists_run_of_schedule .strict prog
    (initial 0 fun t : Fin 2 => t = 0) (handOver 0 1)
    (P := fun r => upsPerformed r.1 = 1 ∧ downsCompleted r.1 = 1) (by decide)
  refine ⟨l, x, run, ups, completed, accounting 0 (by decide) (by simp) _ run ?_⟩
  rw [ups]
  decide

/-- At the largest `int`, one call of `SSU_Sem_up` makes the value negative, without a waiter. -/
theorem accounting_fails_overflow :
    ¬ ∀ (v : Int32) (l : List (Event (Config (Fin 1) SSUSem Point Cond) (Label (Fin 1))))
      (x : Config (Fin 1) SSUSem Point Cond), 0 ≤ v.toInt →
      Run (Step .strict prog) (initial v fun _ => false) l x →
        x.shared.value.toInt = v.toInt + upsPerformed l - downsBegun l ∧
        (blocked x : ℤ) = max 0 (-x.shared.value.toInt) := by
  intro holds
  obtain ⟨l, x, run, value, sleepers⟩ := exists_run_of_schedule .strict prog
    (initial 2147483647 fun _ : Fin 1 => false) [⟨0, [], 0⟩]
    (P := fun r => r.2.shared.value = -2147483648 ∧ blocked r.2 = 0) (by decide)
  have exactly := (holds 2147483647 l x (by decide) run).2
  rw [value, sleepers] at exactly
  exact absurd exactly (by decide)

/-- Whatever wakes the waiters: at every moment of a run at most as many calls of `SSU_Sem_down`
have returned as there were units, if no wait has returned without a signal of its own, that is if
at every moment at most as many waits have returned as signals were sent; again for at most
2147483647 threads and as long as the calls of `SSU_Sem_up` fit. And when no unit is left, the first
return beyond the signals breaks the bound. -/
theorem completed_le_of_signalled (v : Int32) (hv : 0 ≤ v.toInt)
    (threads : Fintype.card T ≤ 2147483647) (downs : T → Bool) (d : Discipline)
    (run : Run (Step d prog) (initial v downs) l x)
    (small : v.toInt + upsPerformed l ≤ 2147483647)
    (own : ∀ l', l' <+: l → waitsReturned l' ≤ signalsSent l') :
    (∀ l', l' <+: l → (downsCompleted l' : ℤ) ≤ v.toInt + upsPerformed l') ∧
    ∀ t y, Step d prog x (.sect t) y → (x.thread t).entry = some .downWoken →
      waitsReturned l = signalsSent l → x.shared.value.toInt ≤ 0 →
        ¬ (downsCompleted (l ++ [⟨x, .sect t, y⟩]) : ℤ) ≤
          v.toInt + upsPerformed (l ++ [⟨x, .sect t, y⟩]) := by
  constructor
  · intro l' below
    obtain ⟨x', run'⟩ := run.exists_of_prefix below
    have fewer := upsPerformed_mono below
    exact (covered_of_run hv threads run' (by omega) fun l'' earlier =>
      own l'' (earlier.trans below)).1
  · intro t y taken back spent none_left
    obtain ⟨-, covered⟩ := covered_of_run hv threads run small own
    have returns : completesDown ⟨x, .sect t, y⟩ = true := by simp [completesDown, back]
    have other : entered ⟨x, .sect t, y⟩ ≠ some .up := by simp [entered, back]
    simp only [Books.Covered, books] at covered
    rw [downsCompleted_snoc, if_pos returns, upsPerformed, entries_snoc, if_neg other]
    unfold upsPerformed at covered
    push_cast
    omega

/-- The thread that waits is signalled by the other one and returns. -/
theorem completed_le_of_signalled_handOver :
    ∃ l x, Run (Step ⟨true, true⟩ prog) (initial 0 fun t : Fin 2 => t = 0) l x ∧
      waitsReturned l = 1 ∧ upsPerformed l = 1 ∧
      ∀ l', l' <+: l → (downsCompleted l' : ℤ) ≤ (0 : Int32).toInt + upsPerformed l' := by
  obtain ⟨l, x, run, returned, ups, own⟩ := exists_run_of_schedule ⟨true, true⟩ prog
    (initial 0 fun t : Fin 2 => t = 0) (handOver 0 1)
    (P := fun r => waitsReturned r.1 = 1 ∧ upsPerformed r.1 = 1 ∧
      ∀ n ≤ r.1.length, waitsReturned (r.1.take n) ≤ signalsSent (r.1.take n)) (by decide)
  refine ⟨l, x, run, returned, ups,
    (completed_le_of_signalled 0 (by decide) (by simp) _ _ run ?_ fun l' below => ?_).1⟩
  · rw [ups]
    decide
  · rw [List.prefix_iff_eq_take.1 below]
    exact own _ below.length_le

/-- A single thread waits for a unit that nobody gives, and its wait ends spuriously. -/
theorem completed_fails_spurious :
    ¬ ∀ l x, Run (Step ⟨false, true⟩ prog) (initial 0 fun _ : Fin 1 => true) l x →
      (downsCompleted l : ℤ) ≤ (0 : Int32).toInt + upsPerformed l := by
  intro holds
  let start : Config (Fin 1) SSUSem Point Cond := initial 0 fun _ => true
  have ends : ((exec prog start ⟨0, [], 0⟩).bind fun asleep =>
      (execSpurious asleep 0).bind fun woken => (exec prog woken ⟨0, [], 0⟩).map fun back =>
        (downsCompleted [⟨start, .sect 0, asleep⟩, ⟨asleep, .spurious 0, woken⟩,
            ⟨woken, .sect 0, back⟩],
          upsPerformed [⟨start, .sect 0, asleep⟩, ⟨asleep, .spurious 0, woken⟩,
            ⟨woken, .sect 0, back⟩])) = some (1, 0) := by decide
  simp only [Option.bind_eq_some_iff, Option.map_eq_some_iff, Prod.mk.injEq] at ends
  obtain ⟨asleep, waits, woken, wakes, back, returns, completed, ups⟩ := ends
  have run := ((Run.nil.snoc (exec_step ⟨false, true⟩ waits)).snoc
    (execSpurious_step rfl prog wakes)).snoc (exec_step ⟨false, true⟩ returns)
  have bound := holds _ _ run
  simp only [List.nil_append, List.cons_append, completed, ups] at bound
  exact absurd bound (by decide)

end SsuOs.Semaphore
