import SsuOs.Base.Run
import Mathlib.Data.Fintype.Card
import Mathlib.Data.Finset.Card

/-!
# Threads under one mutex with condition variables

A thread program is given by its critical sections: `prog t k s` is what thread `t`, entering at
control point `k` with the shared data `s`, does between taking the mutex and giving it up, either
by unlocking it or by waiting on a condition variable.  Since all shared data is protected by the
mutex, a step of the system is one whole section (`Step.sect`).  A waiter that was woken competes
for the mutex with every other thread, and goes on at its own control point without any check.

What a signal may wake, and whether a wait may end without one, is a parameter (`Discipline`).
-/

namespace SsuOs.Monitor

/-- Where a thread stands while the mutex is free. -/
inductive Thread (κ ν : Type*) where
  /-- About to take the mutex at control point `k`. -/
  | ready (k : κ)
  /-- Waiting on `c` and not woken yet; it will go on at `k`. -/
  | blocked (c : ν) (k : κ)
  /-- Woken, and about to take the mutex again to go on at `k`. -/
  | woken (k : κ)
  | returned
  deriving DecidableEq, Repr

inductive Notice (ν : Type*) where
  | signal (c : ν)
  | broadcast (c : ν)
  deriving DecidableEq, Repr

/-- How a critical section ends. -/
inductive Exit (κ ν : Type*) where
  /-- Unlock, and go on at one of the listed control points. -/
  | unlock (ks : List κ)
  | wait (c : ν) (k : κ)
  | finish
  deriving DecidableEq, Repr

/-- The effect of a critical section: the new shared data, the notices it sends in order, and how
it ends. -/
structure Outcome (σ κ ν : Type*) where
  shared : σ
  notices : List (Notice ν)
  exit : Exit κ ν
  deriving Repr

/-- The critical sections of the threads `T`. -/
abbrev Program (T σ κ ν : Type*) := T → κ → σ → Outcome σ κ ν

/-- The system between two critical sections. -/
@[ext] structure Config (T σ κ ν : Type*) where
  shared : σ
  thread : T → Thread κ ν

/-- The condition-variable semantics: may a signal wake more than one waiter, and may a wait end
spuriously. -/
structure Discipline where
  many : Bool
  spurious : Bool

/-- A signal wakes exactly one waiter if there is one, and no wait ends by itself. -/
def Discipline.strict : Discipline := ⟨false, false⟩

variable {T σ κ ν : Type*}

namespace Thread

/-- The control point a thread will enter next. -/
def control : Thread κ ν → Option κ
  | ready k | blocked _ k | woken k => some k
  | returned => none

/-- Waiting, and not woken. -/
def Blocked : Thread κ ν → Prop
  | blocked _ _ => True
  | _ => False

/-- Able to take the mutex as soon as it is free. -/
def Active : Thread κ ν → Prop
  | ready _ | woken _ => True
  | _ => False

instance (x : Thread κ ν) : Decidable x.Blocked := by
  cases x <;> unfold Blocked <;> infer_instance

instance (x : Thread κ ν) : Decidable x.Active := by
  cases x <;> unfold Active <;> infer_instance

/-- The control point of a thread that can take the mutex. -/
def entry : Thread κ ν → Option κ
  | ready k | woken k => some k
  | _ => none

def isBlocked : Thread κ ν → Bool
  | blocked _ _ => true
  | _ => false

/-- Woken from a wait, and not yet on its way again. -/
def isWoken : Thread κ ν → Bool
  | woken _ => true
  | _ => false

def waitsOn [DecidableEq ν] (c : ν) : Thread κ ν → Bool
  | blocked c' _ => c' = c
  | _ => false

@[simp] theorem blocked_iff {x : Thread κ ν} : x.Blocked ↔ ∃ c k, x = blocked c k := by
  cases x <;> simp [Blocked]

theorem isBlocked_iff {x : Thread κ ν} : x.isBlocked = true ↔ x.Blocked := by
  cases x <;> simp [isBlocked]

theorem active_iff {x : Thread κ ν} : x.Active ↔ ∃ k, x = ready k ∨ x = woken k := by
  cases x <;> simp [Active]

theorem entry_eq_some {x : Thread κ ν} {k : κ} :
    x.entry = some k ↔ x = ready k ∨ x = woken k := by
  cases x <;> simp [entry]

theorem waitsOn_iff [DecidableEq ν] {c : ν} {x : Thread κ ν} :
    x.waitsOn c = true ↔ ∃ k, x = blocked c k := by
  cases x <;> simp [waitsOn]

end Thread

open Thread

/-- The thread states that may follow the end of a section. -/
def Exit.threads : Exit κ ν → List (Thread κ ν)
  | unlock ks => ks.map ready
  | wait c k => [blocked c k]
  | finish => [returned]

/-- Wake the waiters selected by `W`. -/
def wake (W : T → Bool) (th : T → Thread κ ν) : T → Thread κ ν := fun t =>
  match th t with
  | blocked c k => if W t then woken k else blocked c k
  | x => x

theorem wake_eq (W : T → Bool) (th : T → Thread κ ν) (t : T) :
    wake W th t = th t ∨ ∃ c k, th t = blocked c k ∧ W t = true ∧ wake W th t = woken k := by
  unfold wake
  cases th t with
  | blocked c k => by_cases h : W t = true <;> simp [h]
  | _ => simp

/-! ## Notices -/

section Notices

variable [DecidableEq ν]

/-- `W` is a set of waiters that a signal on `c` may wake. -/
structure SignalWakes (d : Discipline) (c : ν) (th : T → Thread κ ν) (W : T → Bool) : Prop where
  waits : ∀ t, W t = true → (th t).waitsOn c = true
  wakes : (∃ t, (th t).waitsOn c = true) → ∃ t, W t = true
  single : d.many = false → ∀ t u, W t = true → W u = true → t = u

/-- The effect of a list of notices on the thread states. -/
inductive Notified (d : Discipline) :
    (T → Thread κ ν) → List (Notice ν) → (T → Thread κ ν) → Prop
  | nil (th : T → Thread κ ν) : Notified d th [] th
  | signal {th th' : T → Thread κ ν} {c : ν} {W : T → Bool} {l : List (Notice ν)} :
      SignalWakes d c th W → Notified d (wake W th) l th' → Notified d th (.signal c :: l) th'
  | broadcast {th th' : T → Thread κ ν} {c : ν} {l : List (Notice ν)} :
      Notified d (wake (fun t => (th t).waitsOn c) th) l th' → Notified d th (.broadcast c :: l) th'

/-! ## What notices leave alone -/

/-- A notice changes a thread only by waking it. -/
theorem Notified.cases {d : Discipline} {th th' : T → Thread κ ν} {l : List (Notice ν)}
    (h : Notified d th l th') (t : T) :
    th' t = th t ∨ ∃ c k, th t = blocked c k ∧ th' t = woken k := by
  induction h with
  | nil => exact .inl rfl
  | @signal th _ _ W _ _ _ ih =>
    rcases wake_eq W th t with same | ⟨c, k, hb, -, hw⟩
    · simpa only [same] using ih
    · rw [hw] at ih
      exact .inr ⟨c, k, hb, by simpa using ih⟩
  | @broadcast th _ c _ _ ih =>
    rcases wake_eq (fun t => (th t).waitsOn c) th t with same | ⟨c, k, hb, -, hw⟩
    · simpa only [same] using ih
    · rw [hw] at ih
      exact .inr ⟨c, k, hb, by simpa using ih⟩

section Notified

variable {d : Discipline} {th th' : T → Thread κ ν} {l : List (Notice ν)}

theorem Notified.control (h : Notified d th l th') (t : T) : (th' t).control = (th t).control := by
  rcases h.cases t with same | ⟨c, k, hb, hw⟩
  · rw [same]
  · rw [hb, hw]
    rfl

theorem Notified.eq_of_not_blocked (h : Notified d th l th') {t : T} (ht : ¬ (th t).Blocked) :
    th' t = th t := by
  rcases h.cases t with same | ⟨c, k, hb, -⟩
  · exact same
  · exact absurd (blocked_iff.2 ⟨c, k, hb⟩) ht

theorem Notified.eq_of_blocked (h : Notified d th l th') {t : T} (ht : (th' t).Blocked) :
    th' t = th t := by
  rcases h.cases t with same | ⟨c, k, -, hw⟩
  · exact same
  · rw [hw] at ht
    exact ht.elim

theorem Notified.active (h : Notified d th l th') {t : T} (ht : (th t).Active) :
    (th' t).Active := by
  rw [h.eq_of_not_blocked (by obtain ⟨k, hk | hk⟩ := active_iff.1 ht <;> simp [hk])]
  exact ht

/-- After a signal on `c`, a thread still waits on `c` only if another one was woken from it. -/
theorem Notified.signal_wakes {c : ν} (h : Notified d th (.signal c :: l) th')
    (ht : ∃ t, (th t).waitsOn c = true) : ∃ t, (th t).waitsOn c = true ∧ (th' t).Active := by
  cases h with
  | @signal _ _ _ W _ choice rest =>
    obtain ⟨t, hW⟩ := choice.wakes ht
    have hwait := choice.waits t hW
    obtain ⟨k, hk⟩ := waitsOn_iff.1 hwait
    have woke : wake W th t = woken k := by simp [wake, hk, hW]
    exact ⟨t, hwait, rest.active (by rw [woke]; trivial)⟩

theorem Notified.isWoken (h : Notified d th l th') {t : T} (ht : (th t).isWoken = true) :
    (th' t).isWoken = true := by
  rw [h.eq_of_not_blocked (by cases hx : th t <;> simp [hx, Thread.isWoken] at ht ⊢)]
  exact ht

/-- A signal on `c` wakes a thread, if one waits on `c`. -/
theorem Notified.signal_isWoken {c : ν} (h : Notified d th (.signal c :: l) th')
    (ht : ∃ t, (th t).waitsOn c = true) : ∃ t, (th t).Blocked ∧ (th' t).isWoken = true := by
  obtain ⟨t, waits, active⟩ := h.signal_wakes ht
  obtain ⟨k, hk⟩ := waitsOn_iff.1 waits
  refine ⟨t, by simp [hk], ?_⟩
  rcases h.cases t with same | ⟨c', k', -, hw⟩
  · rw [same, hk] at active
    exact active.elim
  · rw [hw]
    rfl

/-- After a broadcast on `c`, no thread waits on `c`. -/
theorem Notified.broadcast_wakes {c : ν} (h : Notified d th (.broadcast c :: l) th') (t : T) :
    (th' t).waitsOn c = false := by
  cases h with
  | broadcast rest =>
    by_contra hw
    rw [Bool.not_eq_false, waitsOn_iff] at hw
    obtain ⟨k, hk⟩ := hw
    have still := rest.eq_of_blocked (t := t) (blocked_iff.2 ⟨c, k, hk⟩)
    rcases wake_eq (fun t => (th t).waitsOn c) th t with same | ⟨c', k', -, -, hw'⟩
    · rw [hk, same] at still
      simp [wake, waitsOn, ← still] at same
    · rw [hk, hw'] at still
      cases still

end Notified

end Notices

/-! ## Steps -/

inductive Label (T : Type*) where
  | sect (t : T)
  | spurious (t : T)

/-- The control point of the critical section that a step runs, if it runs one. -/
def entered (e : Event (Config T σ κ ν) (Label T)) : Option κ :=
  match e.label with
  | .sect t => (e.before.thread t).entry
  | .spurious _ => none

theorem entered_sect {x y : Config T σ κ ν} {t : T} {k : κ} (enters : (x.thread t).entry = some k) :
    entered ⟨x, .sect t, y⟩ = some k := enters

theorem entered_spurious (x y : Config T σ κ ν) (t : T) : entered ⟨x, .spurious t, y⟩ = none := rfl

section Steps

variable [DecidableEq ν] [DecidableEq T]

/-- One step of the system: a thread runs a critical section, or a wait ends spuriously. -/
inductive Step (d : Discipline) (prog : Program T σ κ ν) :
    Config T σ κ ν → Label T → Config T σ κ ν → Prop
  | sect {s : Config T σ κ ν} {t : T} {k : κ} {th : T → Thread κ ν} {x : Thread κ ν} :
      (s.thread t).entry = some k →
      Notified d s.thread (prog t k s.shared).notices th →
      x ∈ (prog t k s.shared).exit.threads →
      Step d prog s (.sect t) ⟨(prog t k s.shared).shared, Function.update th t x⟩
  | spurious {s : Config T σ κ ν} {t : T} {c : ν} {k : κ} :
      d.spurious = true → s.thread t = blocked c k →
      Step d prog s (.spurious t) ⟨s.shared, Function.update s.thread t (woken k)⟩

/-- A property of single threads that waking keeps and all sections establish. -/
theorem Step.threads {d : Discipline} {prog : Program T σ κ ν} {P : Thread κ ν → Prop}
    (wakes : ∀ c k, P (blocked c k) → P (woken k))
    (exits : ∀ t k s, ∀ z ∈ (prog t k s).exit.threads, P z) {x y : Config T σ κ ν} {a : Label T}
    (all : ∀ t, P (x.thread t)) (taken : Step d prog x a y) (u : T) : P (y.thread u) := by
  cases taken with
  | @sect t k th z _ told leaves =>
    change P (Function.update th t z u)
    by_cases same : u = t
    · subst same
      rw [Function.update_self]
      exact exits u k x.shared z leaves
    · rw [Function.update_of_ne same]
      rcases told.cases u with eq | ⟨c, k', hb, hw⟩
      · rw [eq]
        exact all u
      · rw [hw]
        exact wakes c k' (hb ▸ all u)
  | @spurious t c k _ waits =>
    change P (Function.update x.thread t (woken k) u)
    by_cases same : u = t
    · subst same
      rw [Function.update_self]
      exact wakes c k (waits ▸ all u)
    · rw [Function.update_of_ne same]
      exact all u

/-- A strict signal to a condition variable with waiters wakes one of them and does nothing else. -/
theorem Notified.signal_strict {th th' : T → Thread κ ν} {c : ν}
    (h : Notified .strict th [.signal c] th') (ht : ∃ t, (th t).waitsOn c = true) :
    ∃ t k, th t = blocked c k ∧ th' = Function.update th t (woken k) := by
  cases h with
  | @signal _ _ _ W _ choice rest =>
    cases rest
    obtain ⟨t, hW⟩ := choice.wakes ht
    obtain ⟨k, hk⟩ := waitsOn_iff.1 (choice.waits t hW)
    refine ⟨t, k, hk, funext fun u => ?_⟩
    by_cases same : u = t
    · subst same
      simp [wake, hk, hW]
    · have unpicked : W u = false := by
        by_contra picked
        exact same (choice.single rfl u t (by simpa using picked) hW)
      rw [Function.update_of_ne same]
      cases hu : th u <;> simp [wake, hu, unpicked]

end Steps

/-! ## Lost wake-ups -/

/-- Some thread is left, and all threads that are left wait without having been woken. -/
def Stuck (s : Config T σ κ ν) : Prop :=
  (∃ t, s.thread t ≠ returned) ∧ ∀ t, s.thread t ≠ returned → (s.thread t).Blocked

/-- No thread of the group `r` sleeps while nobody of the group is awake. -/
def Attended (r : T → Prop) (th : T → Thread κ ν) : Prop :=
  (∃ t, r t ∧ (th t).Active) ∨ ∀ t, r t → ¬ (th t).Blocked

/-- The waiters of `c` are the sleeping threads of the group `r`. -/
def SleepsOn (c : ν) (r : T → Prop) (th : T → Thread κ ν) : Prop :=
  ∀ t, (r t ∧ (th t).Blocked) ↔ ∃ k, th t = blocked c k

namespace Attended

variable {r : T → Prop} {d : Discipline} {th th' : T → Thread κ ν} {l : List (Notice ν)} {t : T}
  {x : Thread κ ν}

/-- If all threads that are left sleep, an attended group has returned. -/
theorem eq_returned (h : Attended r th) (asleep : ∀ t, th t ≠ returned → (th t).Blocked)
    (ht : r t) : th t = returned := by
  by_contra left
  rcases h with ⟨u, -, active⟩ | none_blocked
  · have blocked := asleep u (by rintro e; rw [e] at active; exact active)
    obtain ⟨c, k, hb⟩ := blocked_iff.1 blocked
    rw [hb] at active
    exact active
  · exact none_blocked t ht (asleep t left)

variable [DecidableEq T]

/-- A thread of the group that gives up the mutex without waiting is awake. -/
theorem of_active (ht : r t) (hx : x.Active) : Attended r (Function.update th t x) :=
  .inl ⟨t, ht, by rwa [Function.update_self]⟩

variable [DecidableEq ν]

/-- Sections of threads outside the group can only wake its threads. -/
theorem of_outside (h : Attended r th) (told : Notified d th l th') (ht : ¬ r t) :
    Attended r (Function.update th' t x) := by
  have apart {u : T} (hu : r u) : u ≠ t := fun e => ht (e ▸ hu)
  rcases h with ⟨u, hu, awake⟩ | none_blocked
  · refine .inl ⟨u, hu, ?_⟩
    rw [Function.update_of_ne (apart hu)]
    exact told.active awake
  · refine .inr fun u hu => ?_
    rw [Function.update_of_ne (apart hu)]
    intro hb
    rw [told.eq_of_blocked hb] at hb
    exact none_blocked u hu hb

/-- A signal to a group that sleeps on `c` wakes one of its threads, if any sleeps. -/
theorem of_signal {c : ν} (told : Notified d th (.signal c :: l) th')
    (sleeps : SleepsOn c r th) (ht : ¬ r t) :
    Attended r (Function.update th' t x) := by
  have apart {u : T} (hu : r u) : u ≠ t := fun e => ht (e ▸ hu)
  by_cases waiting : ∃ u, (th u).waitsOn c = true
  · obtain ⟨u, hu, awake⟩ := told.signal_wakes waiting
    have member : r u := ((sleeps u).2 (waitsOn_iff.1 hu)).1
    refine .inl ⟨u, member, ?_⟩
    rwa [Function.update_of_ne (apart member)]
  · refine .inr fun u hu => ?_
    rw [Function.update_of_ne (apart hu)]
    intro hb
    rw [told.eq_of_blocked hb] at hb
    exact waiting ⟨u, waitsOn_iff.2 ((sleeps u).1 ⟨hu, hb⟩)⟩

/-- A broadcast to a group that sleeps on `c` leaves none of its threads asleep. -/
theorem of_broadcast {c : ν} (told : Notified d th (.broadcast c :: l) th')
    (sleeps : SleepsOn c r th) (hx : ¬ x.Blocked) :
    Attended r (Function.update th' t x) := by
  refine .inr fun u hu => ?_
  by_cases same : u = t
  · rwa [same, Function.update_self]
  · rw [Function.update_of_ne same]
    intro hb
    have still := told.eq_of_blocked hb
    rw [still] at hb
    obtain ⟨k, hk⟩ := (sleeps u).1 ⟨hu, hb⟩
    have cleared := told.broadcast_wakes u
    rw [still, hk] at cleared
    simp [waitsOn] at cleared

end Attended

/-! ## Counting threads -/

section Count

variable [Fintype T] (p : Thread κ ν → Bool)

/-- The number of threads whose state satisfies `p`. -/
def count (th : T → Thread κ ν) : ℕ := (Finset.univ.filter fun t => p (th t) = true).card

/-- The number of threads that will go on at control point `k`. -/
def countAt [DecidableEq κ] (k : κ) (th : T → Thread κ ν) : ℕ :=
  count (fun x => x.control = some k) th

theorem countAt_pos [DecidableEq κ] {th : T → Thread κ ν} {k : κ} :
    0 < countAt k th ↔ ∃ t, (th t).control = some k := by
  unfold countAt count
  rw [Finset.card_pos]
  simp only [Finset.Nonempty, Finset.mem_filter, Finset.mem_univ, true_and, decide_eq_true_iff]

/-- Notices do not change a count that does not tell a blocked thread from a woken one. -/
theorem Notified.count_eq [DecidableEq ν] {d : Discipline} {th th' : T → Thread κ ν}
    {l : List (Notice ν)} (h : Notified d th l th') (hp : ∀ c k, p (blocked c k) = p (woken k)) :
    count p th' = count p th := by
  unfold count
  congr 1
  refine Finset.filter_congr fun t _ => ?_
  rcases h.cases t with same | ⟨c, k, hb, hw⟩
  · rw [same]
  · rw [hb, hw, hp]

variable [DecidableEq T]

theorem count_update (th : T → Thread κ ν) (t : T) (x : Thread κ ν) :
    count p (Function.update th t x) + (p (th t)).toNat = count p th + (p x).toNat := by
  have split (f : T → Thread κ ν) : count p f =
      (p (f t)).toNat + ((Finset.univ.erase t).filter fun u => p (f u) = true).card := by
    unfold count
    rw [← Finset.insert_erase (Finset.mem_univ t), Finset.filter_insert]
    cases h : p (f t) <;> simp [h, Nat.add_comm]
  have rest : ((Finset.univ.erase t).filter fun u => p (Function.update th t x u) = true) =
      (Finset.univ.erase t).filter fun u => p (th u) = true := by
    refine Finset.filter_congr fun u hu => ?_
    rw [Function.update_of_ne (Finset.ne_of_mem_erase hu)]
  rw [split (Function.update th t x), split th, rest, Function.update_self]
  omega

/-- A count of threads in two different kinds of state. -/
theorem count_add {p q r : Thread κ ν → Bool} {th : T → Thread κ ν}
    (either : ∀ t, r (th t) = (p (th t) || q (th t))) (apart : ∀ t, (p (th t) && q (th t)) = false) :
    count r th = count p th + count q th := by
  unfold count
  rw [← Finset.card_union_of_disjoint]
  · rw [← Finset.filter_or]
    congr 1
    apply Finset.filter_congr
    intro t _
    rw [either t, Bool.or_eq_true]
  · rw [Finset.disjoint_filter]
    intro t _ first second
    have both := apart t
    rw [first, second] at both
    cases both

variable [DecidableEq ν]

/-- A section that starts at control point `k` and leaves its thread in state `x` moves one thread
from `k` to the control point of `x`. -/
theorem countAt_sect [DecidableEq κ] {d : Discipline} {th th' : T → Thread κ ν}
    {l : List (Notice ν)} (h : Notified d th l th') {t : T} {k : κ}
    (enters : (th t).entry = some k) (j : κ) (x : Thread κ ν) :
    countAt j (Function.update th' t x) + (if k = j then 1 else 0) =
      countAt j th + (if x.control = some j then 1 else 0) := by
  have before : (th' t).control = some k := by
    rw [h.control]
    rcases entry_eq_some.1 enters with hk | hk <;> simp [hk, Thread.control]
  have moved := count_update (fun x => decide (x.control = some j)) th' t x
  rw [h.count_eq _ (fun _ _ => rfl)] at moved
  simpa [countAt, before, Bool.toNat, Bool.cond_decide] using moved

/-- A variable that every section changes as it moves its thread to and from control point `j`
counts the threads there. -/
theorem Step.counter [DecidableEq κ] {d : Discipline} {prog : Program T σ κ ν} {f : σ → ℤ} {j : κ}
    (balanced : ∀ t k s, ∀ z ∈ (prog t k s).exit.threads,
      f (prog t k s).shared + (if k = j then 1 else 0) =
        f s + (if z.control = some j then 1 else 0))
    {x y : Config T σ κ ν} {a : Label T} (counts : f x.shared = countAt j x.thread)
    (taken : Step d prog x a y) : f y.shared = countAt j y.thread := by
  cases taken with
  | @sect t k th z enters told exits =>
    have change := balanced t k x.shared z exits
    have moved := countAt_sect told enters j z
    dsimp only
    split_ifs at change moved <;> omega
  | @spurious t c k allowed waits =>
    have moved := count_update (fun z : Thread κ ν => decide (z.control = some j)) x.thread t (.woken k)
    have same : countAt j (Function.update x.thread t (.woken k)) = countAt j x.thread := by
      simpa [countAt, waits, Thread.control] using moved
    dsimp only
    rw [same, counts]

end Count

/-! ## Running a schedule -/

/-- A scheduling decision: the thread that runs, the waiters its signals pick, and which of the
listed control points it goes on at. -/
structure Move (T : Type*) where
  thread : T
  wakes : List T
  next : ℕ

variable [DecidableEq ν] [DecidableEq T]

/-- End the wait of thread `t`, if it waits. -/
def execSpurious (s : Config T σ κ ν) (t : T) : Option (Config T σ κ ν) :=
  match s.thread t with
  | blocked _ k => some ⟨s.shared, Function.update s.thread t (woken k)⟩
  | _ => none

theorem execSpurious_step {d : Discipline} (allowed : d.spurious = true) (prog : Program T σ κ ν)
    {s s' : Config T σ κ ν} {t : T} (h : execSpurious s t = some s') :
    Step d prog s (.spurious t) s' := by
  unfold execSpurious at h
  split at h
  next c k waits =>
    cases h
    exact .spurious allowed waits
  next => cases h

variable [Fintype T]

def notify (th : T → Thread κ ν) : List (Notice ν) → List T → Option (T → Thread κ ν)
  | [], _ => some th
  | .broadcast c :: l, picks => notify (wake (fun t => (th t).waitsOn c) th) l picks
  | .signal c :: l, picks =>
      if ∃ t, (th t).waitsOn c = true then
        match picks with
        | t :: picks => if (th t).waitsOn c then notify (wake (fun u => u = t) th) l picks else none
        | [] => none
      else notify (wake (fun _ => false) th) l picks

def exec (prog : Program T σ κ ν) (s : Config T σ κ ν) (m : Move T) : Option (Config T σ κ ν) :=
  (s.thread m.thread).entry.bind fun k =>
    (notify s.thread (prog m.thread k s.shared).notices m.wakes).bind fun th =>
      (prog m.thread k s.shared).exit.threads[m.next]?.map fun x =>
        ⟨(prog m.thread k s.shared).shared, Function.update th m.thread x⟩

theorem notify_notified (d : Discipline) {th th' : T → Thread κ ν} {l : List (Notice ν)}
    {picks : List T} (h : notify th l picks = some th') : Notified d th l th' := by
  induction l generalizing th picks with
  | nil =>
    cases h
    exact .nil _
  | cons n l ih =>
    cases n with
    | broadcast c => exact .broadcast (ih h)
    | signal c =>
      simp only [notify] at h
      split_ifs at h with waiting
      · cases picks with
        | nil => cases h
        | cons t picks =>
          simp only [ite_eq_iff, reduceCtorEq, and_false, or_false] at h
          refine .signal ⟨fun u hu => ?_, fun _ => ⟨t, by simp⟩, fun _ u v hu hv => ?_⟩ (ih h.2)
          · rw [of_decide_eq_true hu]
            exact h.1
          · rw [of_decide_eq_true hu, of_decide_eq_true hv]
      · exact .signal ⟨by simp, fun hw => absurd hw waiting, by simp⟩ (ih h)

theorem exec_step (d : Discipline) {prog : Program T σ κ ν} {s s' : Config T σ κ ν} {m : Move T}
    (h : exec prog s m = some s') : Step d prog s (.sect m.thread) s' := by
  simp only [exec, Option.bind_eq_some_iff, Option.map_eq_some_iff] at h
  obtain ⟨k, hk, th, hth, x, hx, rfl⟩ := h
  exact .sect hk (notify_notified d hth) (List.mem_of_getElem? hx)

/-- A schedule that can be executed is a run, under every discipline. -/
theorem run_of_exec (d : Discipline) (prog : Program T σ κ ν) (moves : List (Move T))
    {s s' : Config T σ κ ν} (h : moves.foldlM (exec prog) s = some s') :
    Reachable (Step d prog) s s' := by
  induction moves using List.reverseRecOn generalizing s' with
  | nil =>
    cases h
    exact ⟨[], .nil⟩
  | append_singleton moves m ih =>
    simp only [List.foldlM_append, List.foldlM_cons, List.foldlM_nil, bind_pure] at h
    obtain ⟨t, ht, hm⟩ := Option.bind_eq_some_iff.1 h
    obtain ⟨l, run⟩ := ih ht
    exact ⟨_, run.snoc (exec_step d hm)⟩

/-- The events of a schedule, with the state that it leads to. -/
def schedule (prog : Program T σ κ ν) (s : Config T σ κ ν) (moves : List (Move T)) :
    Option (List (Event (Config T σ κ ν) (Label T)) × Config T σ κ ν) :=
  moves.foldlM
    (fun r m => (exec prog r.2 m).map fun y => (r.1 ++ [⟨r.2, .sect m.thread, y⟩], y)) ([], s)

theorem run_of_schedule (d : Discipline) {prog : Program T σ κ ν} {s s' : Config T σ κ ν}
    {moves : List (Move T)} {l : List (Event (Config T σ κ ν) (Label T))}
    (h : schedule prog s moves = some (l, s')) : Run (Step d prog) s l s' := by
  induction moves using List.reverseRecOn generalizing l s' with
  | nil =>
    cases h
    exact .nil
  | append_singleton moves m ih =>
    rw [schedule, List.foldlM_append] at h
    obtain ⟨⟨l', x⟩, earlier, last⟩ := Option.bind_eq_some_iff.1 h
    simp only [List.foldlM_cons, List.foldlM_nil, bind_pure, Option.map_eq_some_iff] at last
    obtain ⟨y, taken, ends⟩ := last
    cases ends
    exact (ih earlier).snoc (exec_step d taken)

/-- A schedule whose events and last state have `P` is a run that has `P`. -/
theorem exists_run_of_schedule (d : Discipline) (prog : Program T σ κ ν) (s : Config T σ κ ν)
    (moves : List (Move T))
    {P : List (Event (Config T σ κ ν) (Label T)) × Config T σ κ ν → Prop} [DecidablePred P]
    (meets : (schedule prog s moves).any fun r => decide (P r)) :
    ∃ l s', Run (Step d prog) s l s' ∧ P (l, s') := by
  cases runs : schedule prog s moves with
  | none => simp [runs] at meets
  | some r =>
    obtain ⟨l, s'⟩ := r
    rw [runs] at meets
    exact ⟨l, s', run_of_schedule d runs, of_decide_eq_true meets⟩

end SsuOs.Monitor
