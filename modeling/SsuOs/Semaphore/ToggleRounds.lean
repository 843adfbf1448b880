import SsuOs.Semaphore.Toggle
import Mathlib.Data.Fintype.Fin
import Mathlib.Data.List.Nodup
import Mathlib.Tactic.Linarith

/-!
# Rounds of the toggle test

The invariant of the toggle test: where `main` is tells how often each semaphore was raised and
lowered, and at most one thread, the one whose turn it is, is let through `child` at a time.
-/

namespace SsuOs.Semaphore

/-! ## The two semaphores -/

section Positions

variable (N T : ℕ)

/-- The calls of `SSU_Sem_down(&parent)` before an iteration. -/
def Loop.index : Loop → ℕ
  | .create i => i
  | .toggle i => T + i

/-- The calls of `SSU_Sem_down(&parent)` that have taken the mutex. -/
def Main.begun : Main → ℕ
  | .head j | .down j => j.index T
  | .asleep j | .woken j => j.index T + 1
  | .join => T + N * T

/-- The calls of `SSU_Sem_up(&child)`. -/
def Main.raised : Main → ℕ
  | .head (.toggle i) => i
  | .down (.toggle i) | .asleep (.toggle i) | .woken (.toggle i) => i + 1
  | .join => N * T
  | _ => 0

/-- The threads that have been created. -/
def Main.created : Main → ℕ
  | .head (.create i) => i
  | .down (.create i) | .asleep (.create i) | .woken (.create i) => i + 1
  | _ => T

/-- The bounds of the two loops. -/
def Main.Bounded : Main → Prop
  | .head (.create i) => i ≤ T
  | .head (.toggle i) => i ≤ N * T
  | .down (.create i) | .asleep (.create i) | .woken (.create i) => i < T
  | .down (.toggle i) | .asleep (.toggle i) | .woken (.toggle i) => i < N * T
  | .join => True

def Main.wake : Main → Main
  | .asleep j => .woken j
  | m => m

/-- `main` waits only for a call of `SSU_Sem_up(&parent)` that has not been made. -/
def Main.Passed (ups : ℕ) : Main → Prop
  | .asleep j => ups = j.index T
  | m => m.begun N T ≤ ups

variable (m : Main)

@[simp] theorem Main.begun_wake : m.wake.begun N T = m.begun N T := by cases m <;> rfl

@[simp] theorem Main.raised_wake : m.wake.raised N T = m.raised N T := by
  rcases m with j | j | j | j | _ <;> try cases j
  all_goals rfl

@[simp] theorem Main.created_wake : m.wake.created T = m.created T := by
  rcases m with j | j | j | j | _ <;> try cases j
  all_goals rfl

theorem Main.bounded_wake : m.wake.Bounded N T ↔ m.Bounded N T := by
  rcases m with j | j | j | j | _ <;> try cases j
  all_goals rfl

theorem Main.Passed.wake {m : Main} {ups : ℕ} (passed : m.Passed N T ups) :
    m.wake.Passed N T (ups + 1) := by
  cases m with
  | asleep j => exact (congrArg (· + 1) passed).ge
  | _ => exact Nat.le_succ_of_le passed

end Positions

/-- The semaphore `parent`, after `ups` calls of `SSU_Sem_up`. -/
structure Gate {T : ℕ} (N : ℕ) (s : Toggle T) (ups : ℕ) : Prop where
  serves : s.parent.Serves (List.replicate (s.main.begun N T) ()) ups
  passed : s.main.Passed N T ups

namespace Gate

variable {T N : ℕ} {s : Toggle T} {ups : ℕ}

/-- The calls of `SSU_Sem_down(&parent)` so far and of `SSU_Sem_up(&parent)` are close together. -/
theorem inRange (gate : Gate N s ups) (few : ups ≤ s.main.begun N T + 1) :
    Fifo.InRange (List.replicate (s.main.begun N T) ()) ups := by
  have passed : s.main.begun N T ≤ ups + 1 := by
    have passed := gate.passed
    cases at_ : s.main with
    | asleep j =>
      rw [at_] at passed
      exact (congrArg (· + 1) passed).ge
    | _ =>
      rw [at_] at passed
      exact Nat.le_succ_of_le passed
  constructor <;> rw [List.length_replicate] <;> omega

theorem upParent_eq (gate : Gate N s ups) (few : ups ≤ s.main.begun N T + 1) :
    s.upParent = { s with parent := s.parent.up.1, main := s.main.wake } := by
  have wakes := gate.serves.wakes (gate.inRange few)
  have passed := gate.passed
  obtain ⟨child, parent, main, thread, printed⟩ := s
  rcases up : parent.up with ⟨parent', woken⟩
  simp only [up] at wakes
  simp only [Toggle.upParent, up]
  cases main with
  | asleep j =>
    have first : woken = some () := by
      rw [wakes, List.getElem?_replicate, if_pos]
      exact (passed : ups = _).trans_lt (Nat.lt_succ_self _)
    rw [first]
    rfl
  | _ => cases woken <;> rfl

theorem up (gate : Gate N s ups) (few : ups ≤ s.main.begun N T + 1) :
    Gate N s.upParent (ups + 1) := by
  rw [gate.upParent_eq few]
  exact ⟨by rw [Main.begun_wake]; exact gate.serves.up (gate.inRange few), gate.passed.wake⟩

end Gate

/-! ## Rounds -/

namespace Justprint

/-- Allowed through `child`, and not back at it. -/
def active : Justprint → Bool
  | woken _ | print _ | up _ => true
  | _ => false

/-- Past the first `SSU_Sem_up(&parent)`. -/
def announced : Justprint → Bool
  | unborn | announce => false
  | _ => true

theorem iterate_cases (N i : ℕ) : Toggle.iterate N i = .down i ∨ Toggle.iterate N i = .returned := by
  unfold Toggle.iterate
  split_ifs
  · exact .inl rfl
  · exact .inr rfl

/-- A thread between two iterations has announced itself and is not let through `child`. -/
theorem iterate_idle (N i : ℕ) :
    (Toggle.iterate N i).announced = true ∧ (Toggle.iterate N i).active = false := by
  rcases iterate_cases N i with down | returned
  · rw [down]
    exact ⟨rfl, rfl⟩
  · rw [returned]
    exact ⟨rfl, rfl⟩

end Justprint

variable {T : ℕ}

/-- After `n` rounds and `ups` calls of `SSU_Sem_up(&child)`: at most one thread, whose turn it is,
has been let through `child` and has not called `SSU_Sem_up(&parent)` yet. -/
inductive Round (thread : Fin T → Justprint) (lines downs : List (Fin T)) (n ups : ℕ) : Prop
  | quiet (idle : ∀ t, (thread t).active = false) (printed : lines = downs.take n)
      (served : n ≤ downs.length) (turn : ups = n ∨ ups = n + 1 ∧ downs.length = n)
  | granted (t : Fin T) (turn : ups = n + 1) (first : downs[n]? = some t)
      (inside : ∃ i, thread t = .woken i ∨ thread t = .print i)
      (idle : ∀ u ≠ t, (thread u).active = false) (printed : lines = downs.take n)
  | printed (t : Fin T) (turn : ups = n + 1) (first : downs[n]? = some t)
      (inside : ∃ i, thread t = .up i) (idle : ∀ u ≠ t, (thread u).active = false)
      (printed : lines = downs.take (n + 1))

/-- Another thread calls `SSU_Sem_down(&child)`, and has to wait. -/
theorem Round.append {thread : Fin T → Justprint} {lines downs : List (Fin T)} {n ups : ℕ}
    (round : Round thread lines downs n ups) (t : Fin T) (waits : ups ≤ downs.length) :
    Round thread lines (downs ++ [t]) n ups := by
  cases round with
  | quiet idle printed served turn =>
    refine .quiet idle ?_ (by simp; omega) (.inl (turn.resolve_right fun late => by omega))
    rw [List.take_append_of_le_length served]
    exact printed
  | granted u turn first inside idle printed =>
    have below := (List.getElem?_eq_some_iff.1 first).1
    refine .granted u turn ?_ inside idle ?_
    · rw [List.getElem?_append_left below, first]
    · rw [List.take_append_of_le_length below.le]
      exact printed
  | printed u turn first inside idle printed =>
    have below := (List.getElem?_eq_some_iff.1 first).1
    refine .printed u turn ?_ inside idle ?_
    · rw [List.getElem?_append_left below, first]
    · rw [List.take_append_of_le_length below]
      exact printed

/-- A call of `SSU_Sem_up(&child)` that no thread has met: all rounds are over. -/
theorem Round.spare {thread : Fin T → Justprint} {lines downs : List (Fin T)} {n ups : ℕ}
    (round : Round thread lines downs n ups) (early : downs.length < ups) :
    downs.length = n ∧ ups = n + 1 ∧ (∀ u, (thread u).active = false) ∧ lines = downs.take n := by
  cases round with
  | quiet idle printed served turn =>
    rcases turn with same | ⟨turn, all⟩
    · omega
    · exact ⟨all, turn, idle, printed⟩
  | granted u turn first inside idle printed =>
    have below := (List.getElem?_eq_some_iff.1 first).1
    omega
  | printed u turn first inside idle printed =>
    have below := (List.getElem?_eq_some_iff.1 first).1
    omega

/-- `main` has called `SSU_Sem_up(&child)` for the rounds that are over, and at most once more. -/
theorem Round.ups_le {thread : Fin T → Justprint} {lines downs : List (Fin T)} {n ups : ℕ}
    (round : Round thread lines downs n ups) : n ≤ ups ∧ ups ≤ downs.length + 1 := by
  cases round with
  | quiet idle printed served turn => omega
  | granted u turn first | printed u turn first =>
    have below := (List.getElem?_eq_some_iff.1 first).1
    omega

/-- The number of threads that have announced themselves. -/
def announcedCount (s : Toggle T) : ℕ := (Finset.univ.filter fun t => (s.thread t).announced).card

/-- After the calls `downs` of `SSU_Sem_down(&child)` and `n` rounds. -/
structure Inv (N : ℕ) (s : Toggle T) (downs : List (Fin T)) (n : ℕ) : Prop where
  threads : T ≤ 2147483647
  gate : Gate N s (announcedCount s + n)
  child : s.child.Serves downs (s.main.raised N T)
  bounded : s.main.Bounded N T
  unborn : ∀ t, s.thread t = .unborn ↔ s.main.created T ≤ t
  asleep : ∀ t, (∃ i, s.thread t = .asleep i) ↔ t ∈ downs.drop (s.main.raised N T)
  nodup : (downs.drop (s.main.raised N T)).Nodup
  round : Round s.thread s.printed downs n (s.main.raised N T)

theorem announcedCount_initial : announcedCount (Toggle.initial : Toggle T) = 0 := by
  simp [announcedCount, Toggle.initial, Justprint.announced]

theorem inv_initial (N : ℕ) (threads : T ≤ 2147483647) :
    Inv N (Toggle.initial : Toggle T) [] 0 where
  threads := threads
  gate := ⟨by rw [announcedCount_initial]; exact Fifo.serves_init, Nat.zero_le _⟩
  child := Fifo.serves_init
  bounded := Nat.zero_le _
  unborn t := iff_of_true rfl (Nat.zero_le _)
  asleep t := iff_of_false (by rintro ⟨i, asleep⟩; cases asleep) (by simp)
  nodup := by simp
  round := .quiet (fun _ => rfl) rfl le_rfl (.inl rfl)

variable {N n : ℕ} {s s' : Toggle T} {downs : List (Fin T)}

/-- A thread that sleeps in `child` is there once, and at most one call of `SSU_Sem_up(&child)` has
not met its thread. -/
theorem Inv.childRange (inv : Inv N s downs n) : Fifo.InRange downs (s.main.raised N T) := by
  have asleep := inv.nodup.length_le_card
  rw [List.length_drop, Fintype.card_fin] at asleep
  have early := inv.round.ups_le.2
  have threads := inv.threads
  constructor <;> omega

theorem Main.le_begun (m : Main) (bounded : m.Bounded N T) :
    m.created T + m.raised N T ≤ m.begun N T + 1 := by
  rcases m with j | j | j | j | _ <;> try cases j
  all_goals
    simp only [Main.created, Main.raised, Main.begun, Main.Bounded, Loop.index] at bounded ⊢
    omega

/-- Only threads that were created have announced themselves. -/
theorem Inv.announcedCount_le_created (inv : Inv N s downs n) :
    announcedCount s ≤ s.main.created T := by
  have born : (Finset.univ.filter fun t => (s.thread t).announced) ⊆
      Finset.univ.filter fun t : Fin T => t.val < s.main.created T := by
    intro t announced
    simp only [Finset.mem_filter, Finset.mem_univ, true_and] at announced ⊢
    by_contra late
    rw [(inv.unborn t).2 (not_lt.1 late)] at announced
    cases announced
  refine (Finset.card_le_card born).trans ?_
  rw [Fin.card_filter_val_lt]
  exact min_le_right ..

theorem Inv.few (inv : Inv N s downs n) : announcedCount s + n ≤ s.main.begun N T + 1 := by
  have created := inv.announcedCount_le_created
  have rounds := inv.round.ups_le.1
  have calls := s.main.le_begun inv.bounded
  omega

/-- `main` moves on without touching `child` or a thread. -/
theorem Inv.move (inv : Inv N s downs n) {parent : Fifo Unit} {m : Main}
    (gate : Gate N { s with parent := parent, main := m } (announcedCount s + n))
    (raised : m.raised N T = s.main.raised N T) (created : m.created T = s.main.created T)
    (bounded : m.Bounded N T) : Inv N { s with parent := parent, main := m } downs n where
  threads := inv.threads
  gate := gate
  child := raised ▸ inv.child
  bounded := bounded
  unborn t := created ▸ inv.unborn t
  asleep t := raised ▸ inv.asleep t
  nodup := raised ▸ inv.nodup
  round := raised ▸ inv.round

theorem Loop.index_next (j : Loop) : j.next.index T = j.index T + 1 := by
  cases j <;> rfl

theorem Main.raised_next (j : Loop) : (Main.head j.next).raised N T = (Main.down j).raised N T := by
  cases j <;> rfl

theorem Main.created_next (j : Loop) : (Main.head j.next).created T = (Main.down j).created T := by
  cases j <;> rfl

theorem Main.bounded_next (j : Loop) (bounded : (Main.down j).Bounded N T) :
    (Main.head j.next).Bounded N T := by
  cases j <;> exact bounded

theorem Inv.downParent (inv : Inv N s downs n) {j : Loop} (at_ : s.main = .down j) :
    Inv N { s with
      parent := (s.parent.down ()).1
      main := if (s.parent.down ()).2 then .asleep j else .head j.next } downs n := by
  have serves := inv.gate.serves
  have passed := inv.gate.passed
  have range := inv.gate.inRange inv.few
  rw [at_] at serves passed range
  have served := serves.down range ()
  rw [← List.replicate_succ'] at served
  have waits := serves.waits_iff range ()
  rw [List.length_replicate] at waits
  have bounded := inv.bounded
  rw [at_] at bounded
  split_ifs with asleep
  · refine inv.move ⟨served, ?_⟩ (by rw [at_]; cases j <;> rfl) (by rw [at_]; cases j <;> rfl) ?_
    · exact le_antisymm (waits.1 asleep) passed
    · cases j <;> exact bounded
  · refine inv.move ⟨?_, ?_⟩ (by rw [at_, Main.raised_next]) (by rw [at_, Main.created_next])
      (Main.bounded_next j bounded)
    · change Fifo.Serves _ (List.replicate (j.next.index T) ()) _
      rw [Loop.index_next]
      exact served
    · change j.next.index T ≤ _
      rw [Loop.index_next]
      exact not_le.1 fun le => asleep (waits.2 le)

theorem Inv.returnParent (inv : Inv N s downs n) {j : Loop} (at_ : s.main = .woken j) :
    Inv N { s with main := .head j.next } downs n := by
  obtain ⟨serves, passed⟩ := inv.gate
  have bounded := inv.bounded
  rw [at_] at serves passed bounded
  refine inv.move ⟨?_, ?_⟩ (by rw [at_]; cases j <;> rfl) (by rw [at_]; cases j <;> rfl)
    (Main.bounded_next j (by cases j <;> exact bounded))
  · change Fifo.Serves _ (List.replicate (j.next.index T) ()) _
    rw [Loop.index_next]
    exact serves
  · change j.next.index T ≤ _
    rw [Loop.index_next]
    exact passed

theorem Inv.endCreate (inv : Inv N s downs n) {i : ℕ} (at_ : s.main = .head (.create i))
    (last : ¬ i < T) : Inv N { s with main := .head (.toggle 0) } downs n := by
  obtain ⟨serves, passed⟩ := inv.gate
  have bounded := inv.bounded
  rw [at_] at serves passed bounded
  obtain rfl : i = T := le_antisymm bounded (not_lt.1 last)
  exact inv.move ⟨serves, passed⟩ (by rw [at_]; rfl) (by rw [at_]; rfl) (Nat.zero_le _)

theorem Inv.endToggle (inv : Inv N s downs n) {i : ℕ} (at_ : s.main = .head (.toggle i))
    (last : ¬ i < N * T) : Inv N { s with main := .join } downs n := by
  obtain ⟨serves, passed⟩ := inv.gate
  have bounded := inv.bounded
  rw [at_] at serves passed bounded
  obtain rfl : i = N * T := le_antisymm bounded (not_lt.1 last)
  exact inv.move ⟨serves, passed⟩ (by rw [at_]; rfl) (by rw [at_]; rfl) trivial

theorem announcedCount_le (s : Toggle T) : announcedCount s ≤ T :=
  (Finset.card_filter_le _ _).trans_eq (by simp)

/-- When `main` is about to let the next thread through, all threads have announced themselves and
the last round is over. -/
theorem Inv.settled (inv : Inv N s downs n) {i : ℕ} (at_ : s.main = .head (.toggle i)) :
    n = i ∧ (∀ t, (s.thread t).active = false) ∧ s.printed = downs.take i ∧ i ≤ downs.length := by
  have passed := inv.gate.passed
  have round := inv.round
  rw [at_] at passed round
  have counted := announcedCount_le s
  change T + i ≤ announcedCount s + n at passed
  change Round s.thread s.printed downs n i at round
  cases round with
  | quiet idle printed served turn =>
    obtain rfl : n = i := by omega
    exact ⟨rfl, idle, printed, served⟩
  | granted t turn first inside idle printed => omega
  | printed t turn first inside idle printed => omega

end SsuOs.Semaphore
