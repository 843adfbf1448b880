import SsuOs.Base.Monitor
import Mathlib.Tactic.Linarith

/-!
# The reader-writer lock and its counters

The data of `struct rw_lock` and what its two implementations share.  A call is cut at
`pthread_cond_wait` into critical sections, and a thread holds the lock while it stands at the
section of the matching unlock, `rd` for a reader and `wr` for a writer.  The counters of the lock
count the threads that hold it, in every program whose sections keep the books (`Balanced`).
-/

namespace SsuOs.RwLock

open Monitor

/-- `struct rw_lock`, without its mutex and its condition variables. -/
structure Lock where
  writeCnt : ℤ
  writeWait : ℤ
  readCnt : ℤ
  deriving DecidableEq, Repr

/-- No writer holds the lock together with another writer or with a reader. -/
def Exclusive (rw : Lock) : Prop := rw.writeCnt ≤ 1 ∧ ¬ (rw.writeCnt = 1 ∧ 0 < rw.readCnt)

instance (rw : Lock) : Decidable (Exclusive rw) := by
  unfold Exclusive
  infer_instance

variable {T κ ν : Type*} [DecidableEq κ] (rd wr : κ)

/-- Each section changes the counters as it moves its thread in and out of holding the lock. -/
def Balanced (prog : Program T Lock κ ν) : Prop :=
  ∀ t k rw, ∀ x ∈ (prog t k rw).exit.threads,
    (prog t k rw).shared.readCnt + (if k = rd then 1 else 0) =
        rw.readCnt + (if x.control = some rd then 1 else 0) ∧
    (prog t k rw).shared.writeCnt + (if k = wr then 1 else 0) =
        rw.writeCnt + (if x.control = some wr then 1 else 0)

variable [Fintype T]

/-- The counters are the numbers of threads that hold the lock. -/
structure Counted (s : Config T Lock κ ν) : Prop where
  readers : s.shared.readCnt = countAt rd s.thread
  writers : s.shared.writeCnt = countAt wr s.thread

variable {rd wr}

namespace Counted

variable {s : Config T Lock κ ν}

theorem readCnt_nonneg (counted : Counted rd wr s) : 0 ≤ s.shared.readCnt := by
  rw [counted.readers]
  positivity

theorem writeCnt_nonneg (counted : Counted rd wr s) : 0 ≤ s.shared.writeCnt := by
  rw [counted.writers]
  positivity

/-- A lock that no thread holds, with its counters at zero. -/
theorem of_unheld (hr : s.shared.readCnt = 0) (hw : s.shared.writeCnt = 0)
    (unheld : ∀ t, (s.thread t).control ≠ some rd ∧ (s.thread t).control ≠ some wr) :
    Counted rd wr s where
  readers := by
    rw [hr, countAt, count, Finset.card_eq_zero.2 (Finset.filter_eq_empty_iff.2 fun t _ => ?_)]
    · rfl
    · simpa using (unheld t).1
  writers := by
    rw [hw, countAt, count, Finset.card_eq_zero.2 (Finset.filter_eq_empty_iff.2 fun t _ => ?_)]
    · rfl
    · simpa using (unheld t).2

variable [DecidableEq T] [DecidableEq ν]

theorem step {prog : Program T Lock κ ν} (balanced : Balanced rd wr prog) {d : Discipline}
    {x y : Config T Lock κ ν} {a : Label T} (counted : Counted rd wr x)
    (taken : Step d prog x a y) : Counted rd wr y where
  readers := taken.counter (f := Lock.readCnt) (fun t k rw z exits => (balanced t k rw z exits).1)
    counted.readers
  writers := taken.counter (f := Lock.writeCnt) (fun t k rw z exits => (balanced t k rw z exits).2)
    counted.writers

end Counted

end SsuOs.RwLock
