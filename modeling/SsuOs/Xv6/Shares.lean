import SsuOs.Xv6.Fairness
import Mathlib.Data.Finset.Card
import Mathlib.Data.Fintype.Basic
import Mathlib.Data.Fintype.Card

/-!
# Shares in a quiet iteration of the xv6 scheduler

If the processes that are runnable, and their priorities, are the same whenever the scheduler looks
at them, an iteration of its outer loop dispatches a process once for each runnable process with no
higher priority (`exact_shares`): there is a pass for each of them, and the sort only changes the
order of the passes.
-/

namespace SsuOs.Xv6.Scheduler

variable {table : ProcTable} {p : Fin nproc} {queue : List ℤ} {i slot : ℕ}
  {l : List (Event State Label)}

/-- The number of runnable processes with a priority of at most that of `p`. -/
def rank (table : ProcTable) (p : Fin nproc) : ℕ :=
  (Finset.univ.filter fun q : Fin nproc =>
    (table q).state = .runnable ∧ (table q).priority ≤ (table p).priority).card

/-- When the scheduler looks at a process in this event, it finds it runnable exactly if it was so
in `table`, and then with the same priority; and a process that was runnable keeps its count of
switches when others change the table. -/
structure QuietAt (table : ProcTable) (e : Event State Label) : Prop where
  ready : ∀ p, e.label ≠ .env → e.before.point.inspects p →
    ((e.before.table p).state = .runnable ↔ (table p).state = .runnable) ∧
      ((table p).state = .runnable → (e.before.table p).priority = (table p).priority)
  count : e.label = .env → ∀ p, (table p).state = .runnable →
    (e.after.table p).switchCnt = (e.before.table p).switchCnt

instance (table : ProcTable) (e : Event State Label) : Decidable (QuietAt table e) :=
  decidable_of_iff (_ ∧ _) ⟨fun ⟨ready, count⟩ => ⟨ready, count⟩, fun quiet => ⟨quiet.ready, quiet.count⟩⟩

/-! ## The passes -/

/-- The dispatches of `p` in the passes before `i`, and in pass `i` up to `slot`. -/
def share (table : ProcTable) (p : Fin nproc) (queue : List ℤ) (i slot : ℕ) : ℕ :=
  if (table p).state = .runnable then
    (queue.take i).countP (· ≤ (table p).priority) + turn (table p).priority queue i p slot
  else 0

theorem share_start : share table p queue 0 0 = 0 := by
  simp [share, turn_zero]

theorem share_succ : share table p queue i (slot + 1) = share table p queue i slot +
    if slot = p ∧ (table p).state = .runnable ∧ threshold queue i ≤ (table p).priority then 1
    else 0 := by
  simp only [share, turn_succ]
  split_ifs <;> grind

/-- The next pass. -/
theorem share_release (bound : i < queue.length) (ended : nproc ≤ slot) :
    share table p queue (i + 1) 0 = share table p queue i slot := by
  simp only [share, turn_zero, turn_end ended, List.take_add_one, List.getElem?_eq_getElem bound,
    Option.toList_some, List.countP_append, List.countP_singleton, threshold_eq_getElem bound,
    decide_eq_true_eq, Nat.add_zero]

theorem card_filter_eq_countP (f : Fin nproc → Prop) [DecidablePred f] :
    (Finset.univ.filter f).card = (List.finRange nproc).countP f := by
  rw [Fin.univ_def, List.countP_eq_length_filter]
  simp [Finset.filter, Finset.card]

/-- There is a pass for every runnable process. -/
theorem countP_gather (table : ProcTable) (p : Fin nproc) :
    (gather table).countP (· ≤ (table p).priority) = rank table p := by
  rw [rank, card_filter_eq_countP, gather, List.countP_filterMap]
  refine List.countP_congr fun q _ => ?_
  by_cases runnable : (table q).state = .runnable <;> simp [runnable]

/-- The dispatches of `p` in an iteration. -/
def fullShare (table : ProcTable) (p : Fin nproc) : ℕ :=
  if (table p).state = .runnable then rank table p else 0

theorem share_end (perm : queue.Perm (gather table)) (ended : queue.length ≤ i) :
    share table p queue i 0 = fullShare table p := by
  rw [share, turn_zero, Nat.add_zero, List.take_of_length_le ended, perm.countP_eq, countP_gather,
    fullShare]

/-! ## The dispatches -/

/-- The scheduler passes over a process that it visits only if it was not runnable, or in a pass
whose threshold is too high. -/
theorem QuietAt.not_due_of_skip {slot : Fin nproc} {s' : State} {current : ProcTable}
    (quiet : QuietAt table ⟨⟨.visit queue i slot, current⟩, .skip, s'⟩)
    (refused : ¬ ((current slot).state = .runnable ∧ (current slot).priority ≥ threshold queue i)) :
    ¬ (slot.val = p ∧ (table p).state = .runnable ∧ threshold queue i ≤ (table p).priority) := by
  rintro ⟨here, runnable, low⟩
  obtain ⟨ready, prio⟩ := quiet.ready p nofun (decide_eq_true here)
  rw [Fin.ext here] at refused
  exact refused ⟨ready.2 runnable, (prio runnable).symm ▸ low⟩

/-- It dispatches a process only if it was runnable, in a pass whose threshold is low enough. -/
theorem QuietAt.dispatch_iff_due {slot : Fin nproc} {s' : State} {current : ProcTable}
    (quiet : QuietAt table ⟨⟨.visit queue i slot, current⟩, .dispatch slot, s'⟩)
    (runnable : (current slot).state = .runnable)
    (eligible : (current slot).priority ≥ threshold queue i) :
    Label.dispatch slot = .dispatch p ↔
      slot.val = p ∧ (table p).state = .runnable ∧ threshold queue i ≤ (table p).priority := by
  constructor
  · intro same
    cases same
    obtain ⟨ready, prio⟩ := quiet.ready p nofun (decide_eq_true rfl)
    exact ⟨rfl, ready.1 runnable, prio (ready.1 runnable) ▸ eligible⟩
  · rintro ⟨here, -⟩
    rw [Fin.ext here]

theorem dispatches_silent {s s' : State} {a : Label} (other : a ≠ .dispatch p) :
    dispatches p (l ++ [⟨s, a, s'⟩]) = dispatches p l := by
  rw [dispatches_snoc, if_neg other, Nat.add_zero]

/-- How often `p` has been dispatched, at every point of the iteration. -/
def Shared (table : ProcTable) (p : Fin nproc) (l : List (Event State Label)) (s : State) : Prop :=
  match s.point with
  | .outer => dispatches p l = fullShare table p
  | .sort queue => queue = gather table ∧ dispatches p l = 0
  | .pass queue i => queue.Perm (gather table) ∧ dispatches p l = share table p queue i 0
  | .visit queue i slot => queue.Perm (gather table) ∧ i < queue.length ∧
      dispatches p l = share table p queue i slot
  | .running queue i slot => queue.Perm (gather table) ∧ i < queue.length ∧
      dispatches p l = share table p queue i (slot + 1)

theorem Shared.step {s s' : State} {a : Label} (shared : Shared table p l s) (taken : Step s a s')
    (quiet : QuietAt table ⟨s, a, s'⟩) (within : s.point ≠ .outer) :
    Shared table p (l ++ [⟨s, a, s'⟩]) s' := by
  revert shared quiet within
  refine taken.elim ?env ?scan ?sort ?acquire ?finish ?skip ?dispatch ?back ?release
  case env =>
    intro point table' table'' _ shared _ _
    have same : dispatches p (l ++ [⟨⟨point, table'⟩, .env, ⟨point, table''⟩⟩]) = dispatches p l :=
      dispatches_silent nofun
    cases point <;> simpa only [Shared, same] using shared
  case scan => exact fun _ _ _ within => absurd rfl within
  case sort =>
    rintro queue current ⟨rfl, none⟩ _ _
    refine ⟨bubbleSort_perm _, ?_⟩
    rw [dispatches_silent (by nofun), none, share_start]
  case acquire =>
    rintro queue i current more ⟨perm, count⟩ _ _
    exact ⟨perm, more, (dispatches_silent (by nofun)).trans count⟩
  case finish =>
    rintro queue i current ended ⟨perm, count⟩ _ _
    exact (dispatches_silent (by nofun)).trans (count.trans (share_end perm ended))
  case skip =>
    rintro queue i slot current refused ⟨perm, more, count⟩ quiet _
    refine ⟨perm, more, ?_⟩
    rw [dispatches_silent (by nofun), count, share_succ, if_neg (quiet.not_due_of_skip refused),
      Nat.add_zero]
  case dispatch =>
    rintro queue i slot current runnable eligible ⟨perm, more, count⟩ quiet _
    refine ⟨perm, more, ?_⟩
    rw [dispatches_snoc, count, share_succ]
    simp only [quiet.dispatch_iff_due runnable eligible]
  case back =>
    rintro queue i slot current ⟨perm, more, count⟩ _ _
    exact ⟨perm, more, (dispatches_silent (by nofun)).trans count⟩
  case release =>
    rintro queue i slot current ended ⟨perm, more, count⟩ _ _
    exact ⟨perm, (dispatches_silent (by nofun)).trans (count.trans (share_release more ended).symm)⟩

/-! ## The count of switches -/

/-- One while `p` runs. -/
def Point.pending (p : Fin nproc) : Point → ℕ
  | .running _ _ q => if q = p then 1 else 0
  | _ => 0

/-- The count is raised when a process that was dispatched is back. -/
def Counted (table : ProcTable) (p : Fin nproc) (l : List (Event State Label)) (s : State) : Prop :=
  (s.table p).switchCnt + Int32.ofNat (s.point.pending p) =
    (table p).switchCnt + Int32.ofNat (dispatches p l)

theorem Counted.step {s s' : State} {a : Label} (counted : Counted table p l s)
    (taken : Step s a s') (quiet : QuietAt table ⟨s, a, s'⟩)
    (runnable : (table p).state = .runnable) : Counted table p (l ++ [⟨s, a, s'⟩]) s' := by
  revert counted quiet
  refine taken.elim ?env ?scan ?sort ?acquire ?finish ?skip ?dispatch ?back ?release
  case env =>
    intro point table' table'' _ counted quiet
    have same := quiet.count rfl p runnable
    rw [Counted, dispatches_silent (by nofun)]
    exact same ▸ counted
  case dispatch =>
    intro queue i slot current _ _ counted _
    by_cases here : slot = p
    · subst here
      simpa [Counted, Point.pending, dispatches_snoc, Int32.ofNat_add, ← Int32.add_assoc] using counted
    · simpa [Counted, Point.pending, dispatches_snoc, here, Ne.symm here] using counted
  case back =>
    intro queue i slot current counted _
    rw [Counted, dispatches_silent (by nofun)]
    by_cases here : slot = p
    · subst here
      simpa [Counted, Point.pending] using counted
    · simpa [Counted, Point.pending, here, Ne.symm here] using counted
  all_goals
    intros
    rw [Counted, dispatches_silent (by nofun)]
    assumption

/-! ## One iteration -/

theorem Step.outer_of_scan {s s' : State} {a : Label} (taken : Step s a s') :
    a = .scan → s.point = .outer := by
  refine taken.elim ?_ ?scan ?_ ?_ ?_ ?_ ?_ ?_ ?_
  case scan => exact fun _ _ => rfl
  all_goals nofun

/-- An iteration takes a bounded number of steps of the scheduler. -/
theorem ownSteps_add_work_le {s : State} (run : Run Step (snapshot table) l s)
    (within : ∀ e ∈ l, e.before.point ≠ .outer) :
    ownSteps l + s.point.work ≤ (snapshot table).point.work := by
  refine run.history_of_forall (I := fun l x => ownSteps l + x.point.work ≤ _)
    (Nat.zero_add _).le (fun l x a y bound taken inside => ?_) within
  rw [ownSteps_snoc]
  rcases taken.work fun scan => inside (taken.outer_of_scan scan) with ⟨env, same⟩ | ⟨own, less⟩
  · rw [if_neg (not_not.2 env)]
    omega
  · rw [if_pos own]
    omega

theorem outer_of_work {point : Point} (ended : point.work = 0) : point = .outer := by
  cases point with
  | outer => rfl
  | sort | pass | visit | running =>
    simp only [Point.work] at ended
    omega

/-- In every iteration of the outer loop, from the copy of the priorities to its end, in which the
same processes are runnable with the same priorities whenever the scheduler looks at them, each of
them is dispatched as often as there are runnable processes with no higher priority, its count of
switches grows by that number, and no other process is dispatched. The iteration ends after a
bounded number of steps of the scheduler. -/
theorem exact_shares (table : ProcTable) {l : List (Event State Label)} {s : State}
    (run : Run Step (snapshot table) l s) (within : ∀ e ∈ l, e.before.point ≠ .outer)
    (quiet : ∀ e ∈ l, QuietAt table e)
    (ends : s.point = .outer ∨ (snapshot table).point.work ≤ ownSteps l) (p : Fin nproc) :
    ((table p).state = .runnable → dispatches p l = rank table p ∧
      (s.table p).switchCnt = (table p).switchCnt + Int32.ofNat (rank table p)) ∧
    ((table p).state ≠ .runnable → dispatches p l = 0) := by
  have both (e) (he : e ∈ l) : e.before.point ≠ .outer ∧ QuietAt table e :=
    ⟨within e he, quiet e he⟩
  have outer : s.point = .outer := by
    rcases ends with outer | enough
    · exact outer
    · have bound := ownSteps_add_work_le run within
      exact outer_of_work (by omega)
  have shared : Shared table p l s := by
    have start : Shared table p [] (snapshot table) := ⟨rfl, rfl⟩
    refine run.history_of_forall (I := Shared table p) start ?_ both
    exact fun l x a y shared taken both => shared.step taken both.2 both.1
  simp only [Shared, outer] at shared
  constructor
  · intro runnable
    have counted : Counted table p l s := by
      have start : Counted table p [] (snapshot table) := rfl
      refine run.history_of_forall (I := Counted table p) start ?_ quiet
      exact fun l x a y counted taken quiet => counted.step taken quiet runnable
    rw [fullShare, if_pos runnable] at shared
    rw [Counted, outer, shared] at counted
    exact ⟨shared, by simpa [Point.pending] using counted⟩
  · intro other
    rw [shared, fullShare, if_neg other]

/-- Three processes, two of them with the same priority. -/
def threeProcs : ProcTable := fun p =>
  if p.val = 0 then ⟨.runnable, 5, -1⟩
  else if p.val = 1 then ⟨.runnable, 0, 2⟩
  else if p.val = 2 then ⟨.runnable, 0, -1⟩ else ⟨.sleeping, 0, 9⟩

/-- The processes with priority -1 run twice, the other one runs three times. -/
theorem exact_shares_three :
    rank threeProcs ⟨0, by decide⟩ = 2 ∧ rank threeProcs ⟨1, by decide⟩ = 3 ∧
    ∀ p, ((threeProcs p).state = .runnable →
      dispatches p (quietRun (snapshot threeProcs) 207).1 = rank threeProcs p ∧
      ((quietRun (snapshot threeProcs) 207).2.table p).switchCnt =
        (threeProcs p).switchCnt + Int32.ofNat (rank threeProcs p)) ∧
    ((threeProcs p).state ≠ .runnable →
      dispatches p (quietRun (snapshot threeProcs) 207).1 = 0) :=
  ⟨by decide +kernel, by decide +kernel,
    exact_shares threeProcs (run_quietRun _ 207) (by decide +kernel) (by decide +kernel)
      (.inl (by decide +kernel))⟩

/-- One process, with the largest count of switches that an `int` can hold. -/
def fullCount : ProcTable := fun p =>
  if p.val = 0 then ⟨.runnable, 2147483647, 1⟩ else ⟨.sleeping, 0, 9⟩

/-- The share itself is not what the `int` grows by: in an iteration with one process its count falls
from 2147483647 to -2147483648. -/
theorem exact_shares_fails_overflow :
    ¬ ∀ (table : ProcTable) (l : List (Event State Label)) (s : State),
      Run Step (snapshot table) l s → (∀ e ∈ l, e.before.point ≠ .outer) →
      (∀ e ∈ l, QuietAt table e) → s.point = .outer → ∀ p, (table p).state = .runnable →
        (s.table p).switchCnt.toInt = (table p).switchCnt.toInt + rank table p := by
  intro holds
  have grows := holds fullCount _ _ (run_quietRun _ 69) (by decide +kernel) (by decide +kernel)
    (by decide +kernel) ⟨0, by decide⟩ rfl
  exact absurd grows (by decide +kernel)

end SsuOs.Xv6.Scheduler
