import SsuOs.Xv6.Scheduler

/-!
# Dominance and fairness of the xv6 scheduler

A process with a higher priority is never dispatched less often than one with a lower priority
(`dispatches_le`), and every process that is runnable when an iteration starts is dispatched before
it ends (`dispatched_in_iteration`).  Both are invariants of the events so far and the point of the
scheduler, whatever happens to the rest of the table.
-/

namespace SsuOs.Xv6.Scheduler

variable {l : List (Event State Label)} {queue : List ℤ} {i slot : ℕ}

/-! ## Dominance -/

/-- The step of the scheduler from this point reads the entry of `p`. -/
def Point.inspects (p : Fin nproc) : Point → Bool
  | .outer => true
  | .visit _ _ slot => slot = p
  | _ => false

/-- If the scheduler inspects `p` in this event, it finds it runnable and with this priority. -/
abbrev ReadyAt (p : Fin nproc) (prio : ℤ) (e : Event State Label) : Prop :=
  e.label ≠ .env → e.before.point.inspects p →
    (e.before.table p).state = .runnable ∧ (e.before.table p).priority = prio

theorem Step.inspects {s s' : State} {a : Label} {p : Fin nproc} (taken : Step s a s') :
    a = .dispatch p → s.point.inspects p := by
  refine taken.elim ?_ ?_ ?_ ?_ ?_ ?_ ?dispatch ?_ ?_
  case dispatch =>
    intro queue i slot table _ _ label
    cases label
    exact decide_eq_true rfl
  all_goals nofun

/-- In one of the passes before `i` the threshold was low enough for this priority. -/
def Reached (prio : ℤ) (queue : List ℤ) (i : ℕ) : Prop := ∃ k < i, threshold queue k ≤ prio

theorem Reached.of_succ {prio : ℤ} (reached : Reached prio queue (i + 1)) :
    Reached prio queue i ∨ threshold queue i ≤ prio := by
  obtain ⟨k, hk, low⟩ := reached
  rcases Nat.lt_succ_iff_lt_or_eq.1 hk with before | rfl
  · exact .inl ⟨k, before, low⟩
  · exact .inr low

/-- A pass in which the lower priority has its turn comes after one in which the higher had. -/
theorem reached_of_lower {high low : ℤ} (higher : low < high)
    (sorted : queue.Pairwise fun x y => y ≤ x) (mem : high ∈ queue)
    (eligible : threshold queue i ≤ low) : Reached high queue i := by
  obtain ⟨k, hk, eq⟩ := exists_threshold mem
  refine ⟨k, ?_, eq.le⟩
  by_contra later
  have := threshold_le sorted (not_lt.1 later) hk
  omega

/-- One if pass `i` dispatches `p` and has come past it. -/
def turn (prio : ℤ) (queue : List ℤ) (i : ℕ) (p : Fin nproc) (slot : ℕ) : ℕ :=
  if threshold queue i ≤ prio ∧ p < slot then 1 else 0

theorem turn_zero {prio : ℤ} {p : Fin nproc} : turn prio queue i p 0 = 0 :=
  if_neg fun h => Nat.not_lt_zero _ h.2

theorem turn_end {prio : ℤ} {p : Fin nproc} (ended : nproc ≤ slot) :
    turn prio queue i p slot = if threshold queue i ≤ prio then 1 else 0 := by
  have past : p < slot := p.isLt.trans_le ended
  simp only [turn, past, and_true]

theorem turn_succ {prio : ℤ} {p : Fin nproc} : turn prio queue i p (slot + 1) =
    turn prio queue i p slot + if slot = p ∧ threshold queue i ≤ prio then 1 else 0 := by
  unfold turn
  split_ifs <;> omega

/-- A process that is skipped when it is visited does not have its turn. -/
theorem ReadyAt.skip_iff {r slot : Fin nproc} {prio : ℤ} {table : ProcTable} {s' : State}
    (ready : ReadyAt r prio ⟨⟨.visit queue i slot, table⟩, .skip, s'⟩)
    (refused : ¬ ((table slot).state = .runnable ∧ (table slot).priority ≥ threshold queue i)) :
    Label.skip = .dispatch r ↔ slot.val = r ∧ threshold queue i ≤ prio := by
  refine iff_of_false nofun ?_
  rintro ⟨here, low⟩
  obtain ⟨runnable, rfl⟩ := ready nofun (decide_eq_true here)
  rw [Fin.ext here] at refused
  exact refused ⟨runnable, low⟩

theorem ReadyAt.dispatch_iff {r slot : Fin nproc} {prio : ℤ} {table : ProcTable} {s' : State}
    (ready : ReadyAt r prio ⟨⟨.visit queue i slot, table⟩, .dispatch slot, s'⟩)
    (eligible : (table slot).priority ≥ threshold queue i) :
    Label.dispatch slot = .dispatch r ↔ slot.val = r ∧ threshold queue i ≤ prio := by
  constructor
  · intro same
    cases same
    obtain ⟨-, rfl⟩ := ready nofun (decide_eq_true rfl)
    exact ⟨rfl, eligible⟩
  · rintro ⟨here, -⟩
    rw [Fin.ext here]

/-- In pass `i`, past the slots below `slot`: `q` is not ahead of `p`, and behind once the passes of
`p` have begun, up to the turns that both have had in this pass. -/
structure InPass (p q : Fin nproc) (high low : ℤ) (queue : List ℤ) (i slot : ℕ)
    (l : List (Event State Label)) : Prop where
  sorted : queue.Pairwise fun x y => y ≤ x
  mem : high ∈ queue
  even : dispatches q l + turn high queue i p slot ≤ dispatches p l + turn low queue i q slot
  ahead : Reached high queue i →
    dispatches q l + 1 + turn high queue i p slot ≤ dispatches p l + turn low queue i q slot

section Dominance

variable {p q : Fin nproc} {high low : ℤ} {e : Event State Label}

/-- An event that dispatches each of the two exactly when it is its turn. -/
theorem InPass.visit (inv : InPass p q high low queue i slot l)
    (hp : e.label = .dispatch p ↔ slot = p ∧ threshold queue i ≤ high)
    (hq : e.label = .dispatch q ↔ slot = q ∧ threshold queue i ≤ low) :
    InPass p q high low queue i (slot + 1) (l ++ [e]) := by
  have even := inv.even
  have ahead := inv.ahead
  refine ⟨inv.sorted, inv.mem, ?_, fun reached => ?_⟩
  · simp only [dispatches_snoc, turn_succ, hp, hq]
    omega
  · have := ahead reached
    simp only [dispatches_snoc, turn_succ, hp, hq]
    omega

/-- An event that dispatches neither of the two. -/
theorem InPass.silent (inv : InPass p q high low queue i slot l)
    (hp : e.label ≠ .dispatch p) (hq : e.label ≠ .dispatch q) :
    InPass p q high low queue i slot (l ++ [e]) := by
  refine ⟨inv.sorted, inv.mem, ?_, fun reached => ?_⟩
  · simpa only [dispatches_snoc, hp, hq, if_false, Nat.add_zero] using inv.even
  · simpa only [dispatches_snoc, hp, hq, if_false, Nat.add_zero] using inv.ahead reached

theorem InPass.dispatches_le (inv : InPass p q high low queue i slot l) (higher : low < high) :
    dispatches q l ≤ dispatches p l := by
  have even := inv.even
  by_cases eligible : threshold queue i ≤ low
  · have := inv.ahead (reached_of_lower higher inv.sorted inv.mem eligible)
    simp only [turn] at this
    split_ifs at this <;> omega
  · simp only [turn, eligible, false_and, if_false] at even
    omega

/-- At the end of a pass. -/
theorem InPass.release (inv : InPass p q high low queue i slot l) (higher : low < high)
    (ended : nproc ≤ slot) : InPass p q high low queue (i + 1) 0 l := by
  have even := inv.even
  have ahead := inv.ahead
  have first := reached_of_lower (i := i) higher inv.sorted inv.mem
  simp only [turn_end ended] at even ahead
  refine ⟨inv.sorted, inv.mem, ?_, fun reached => ?_⟩
  · simp only [turn_zero, Nat.add_zero]
    exact inv.dispatches_le higher
  · simp only [turn_zero, Nat.add_zero]
    by_cases eligible : threshold queue i ≤ low
    · have := ahead (first eligible)
      rw [if_pos eligible, if_pos (eligible.trans higher.le)] at this
      omega
    · rw [if_neg eligible] at even ahead
      rcases reached.of_succ with earlier | now
      · have := ahead earlier
        omega
      · rw [if_pos now] at even
        omega

/-- The invariant at every point of the scheduler. -/
def Dominates (p q : Fin nproc) (high low : ℤ) (l : List (Event State Label)) (s : State) : Prop :=
  match s.point with
  | .outer => dispatches q l ≤ dispatches p l
  | .sort queue => high ∈ queue ∧ dispatches q l ≤ dispatches p l
  | .pass queue i => InPass p q high low queue i 0 l
  | .visit queue i slot => InPass p q high low queue i slot l
  | .running queue i slot => InPass p q high low queue i (slot + 1) l

theorem Dominates.silent {s : State} (inv : Dominates p q high low l s)
    (hp : e.label ≠ .dispatch p) (hq : e.label ≠ .dispatch q) :
    Dominates p q high low (l ++ [e]) s := by
  have same {r : Fin nproc} (other : e.label ≠ .dispatch r) :
      dispatches r (l ++ [e]) = dispatches r l := by
    rw [dispatches_snoc, if_neg other, Nat.add_zero]
  unfold Dominates at inv ⊢
  split at inv
  · rwa [same hp, same hq]
  · rwa [same hp, same hq]
  · exact inv.silent hp hq
  · exact inv.silent hp hq
  · exact inv.silent hp hq

theorem Dominates.dispatches_le {s : State} (inv : Dominates p q high low l s)
    (higher : low < high) : dispatches q l ≤ dispatches p l := by
  unfold Dominates at inv
  split at inv
  · exact inv
  · exact inv.2
  · exact inv.dispatches_le higher
  · exact inv.dispatches_le higher
  · exact inv.dispatches_le higher

theorem Dominates.step {s s' : State} {a : Label} (higher : low < high)
    (inv : Dominates p q high low l s) (taken : Step s a s') (hp : ReadyAt p high ⟨s, a, s'⟩)
    (hq : ReadyAt q low ⟨s, a, s'⟩) : Dominates p q high low (l ++ [⟨s, a, s'⟩]) s' := by
  revert inv hp hq
  refine taken.elim ?env ?scan ?sort ?acquire ?finish ?skip ?dispatch ?back ?release
  case env =>
    intro point table table' _ inv _ _
    have inv' : Dominates p q high low l ⟨point, table'⟩ := inv
    exact inv'.silent nofun nofun
  case scan =>
    intro table inv hp _
    obtain ⟨runnable, prio⟩ := hp nofun rfl
    have inv' : Dominates p q high low l ⟨.sort (gather table), table⟩ :=
      ⟨prio ▸ mem_gather runnable, inv⟩
    exact inv'.silent nofun nofun
  case sort =>
    rintro queue table ⟨mem, le⟩ _ _
    have inv' : Dominates p q high low l ⟨.pass (bubbleSort queue) 0, table⟩ :=
      ⟨bubbleSort_sorted queue, (bubbleSort_perm queue).mem_iff.2 mem,
        by rwa [turn_zero, turn_zero], nofun⟩
    exact inv'.silent nofun nofun
  case acquire =>
    intro queue i table _ inv _ _
    have inv' : Dominates p q high low l ⟨.visit queue i 0, table⟩ := inv
    exact inv'.silent nofun nofun
  case finish =>
    intro queue i table _ inv _ _
    have inv' : Dominates p q high low l ⟨.outer, table⟩ := InPass.dispatches_le inv higher
    exact inv'.silent nofun nofun
  case skip =>
    intro queue i slot table refused inv hp hq
    have inv' : InPass p q high low queue i slot l := inv
    apply inv'.visit
    · exact hp.skip_iff refused
    · exact hq.skip_iff refused
  case dispatch =>
    intro queue i slot table runnable eligible inv hp hq
    have inv' : InPass p q high low queue i slot l := inv
    apply inv'.visit
    · exact hp.dispatch_iff eligible
    · exact hq.dispatch_iff eligible
  case back =>
    intro queue i slot table inv _ _
    have inv' : Dominates p q high low l ⟨.visit queue i (slot + 1), table⟩ := inv
    exact InPass.silent inv' nofun nofun
  case release =>
    intro queue i slot table ended inv _ _
    have inv' : Dominates p q high low l ⟨.pass queue (i + 1), table⟩ :=
      InPass.release inv higher ended
    exact inv'.silent nofun nofun

/-- Whatever the other processes do: counted from the head of the outer loop, `q` is at no time
dispatched more often than `p`, and its `n`-th dispatch comes after the `n`-th dispatch of `p`. -/
theorem dispatches_le_of_priority (table : ProcTable) (p q : Fin nproc) (high low : ℤ)
    (higher : low < high) {l : List (Event State Label)} {s : State}
    (run : Run Step ⟨.outer, table⟩ l s) (hp : ∀ e ∈ l, ReadyAt p high e)
    (hq : ∀ e ∈ l, ReadyAt q low e) :
    dispatches q l ≤ dispatches p l ∧
      ∀ l₁ e l₂, l = l₁ ++ e :: l₂ → e.label = .dispatch q →
        dispatches q (l₁ ++ [e]) ≤ dispatches p l₁ := by
  have invariant {l : List (Event State Label)} {s : State} (run : Run Step ⟨.outer, table⟩ l s)
      (ready : ∀ e ∈ l, ReadyAt p high e ∧ ReadyAt q low e) : Dominates p q high low l s := by
    refine run.history_of_forall le_rfl (fun l x a y inv taken ready => ?_) ready
    exact inv.step higher taken ready.1 ready.2
  have ready (e) (he : e ∈ l) : ReadyAt p high e ∧ ReadyAt q low e := ⟨hp e he, hq e he⟩
  constructor
  · exact (invariant run ready).dispatches_le higher
  · rintro l₁ e l₂ rfl label
    obtain ⟨earlier, taken⟩ := run.split
    have inv := invariant (earlier.snoc taken) fun e' he => ready e' (by
      rw [List.mem_append, List.mem_singleton] at he
      rw [List.mem_append, List.mem_cons, ← or_assoc]
      exact .inl he)
    -- `p` is not `q`, as one process does not have both priorities
    have other : e.label ≠ .dispatch p := by
      intro label'
      have inspected := taken.inspects label
      obtain rfl : q = p := by simpa [label] using label'
      obtain ⟨hp, hq⟩ := ready e (by simp)
      have := (hp (by simp [label]) inspected).2.symm.trans (hq (by simp [label]) inspected).2
      omega
    calc dispatches q (l₁ ++ [e]) ≤ dispatches p (l₁ ++ [e]) := inv.dispatches_le higher
      _ = dispatches p l₁ := by rw [dispatches_snoc, if_neg other, Nat.add_zero]

/-- Two runnable processes: the first in the table has the lower priority. -/
def twoProcs : ProcTable := fun p =>
  if p.val = 0 then ⟨.runnable, 0, 1⟩ else if p.val = 1 then ⟨.runnable, 0, 2⟩ else ⟨.unused, 0, 0⟩

/-- Both passes of an iteration: the process with the higher priority has run twice, the other one
once. -/
theorem dispatches_le_of_priority_quiet :
    dispatches ⟨0, by decide⟩ (quietRun ⟨.outer, twoProcs⟩ 138).1 ≤
        dispatches ⟨1, by decide⟩ (quietRun ⟨.outer, twoProcs⟩ 138).1 ∧
      ∀ l₁ e l₂, (quietRun ⟨.outer, twoProcs⟩ 138).1 = l₁ ++ e :: l₂ →
        e.label = .dispatch ⟨0, by decide⟩ →
        dispatches ⟨0, by decide⟩ (l₁ ++ [e]) ≤ dispatches ⟨1, by decide⟩ l₁ :=
  dispatches_le_of_priority twoProcs ⟨1, by decide⟩ ⟨0, by decide⟩ 2 1 (by decide)
    (run_quietRun _ 138) (by decide +kernel) (by decide +kernel)

example : dispatches ⟨0, by decide⟩ (quietRun ⟨.outer, twoProcs⟩ 138).1 = 1 ∧
    dispatches ⟨1, by decide⟩ (quietRun ⟨.outer, twoProcs⟩ 138).1 = 2 := by
  decide +kernel

end Dominance

/-! ## No starvation -/

/-- The state after the first loop has copied the priorities from `table`. -/
def snapshot (table : ProcTable) : State := ⟨.sort (gather table), table⟩

/-- The event leaves the priority of `p` at `prio` or above, and leaves `p` runnable unless it
dispatches it. -/
abbrev StaysReady (p : Fin nproc) (prio : ℤ) (e : Event State Label) : Prop :=
  prio ≤ (e.after.table p).priority ∧
    ((e.before.table p).state = .runnable → e.label ≠ .dispatch p →
      (e.after.table p).state = .runnable)

/-- A bound on the steps that the scheduler still makes in this iteration: two in each slot and two
around each pass. -/
def Point.work : Point → ℕ
  | .outer => 0
  | .sort queue => 2 + queue.length * (2 * nproc + 2)
  | .pass queue i => 1 + (queue.length - i) * (2 * nproc + 2)
  | .visit queue i slot =>
      2 + (queue.length - (i + 1)) * (2 * nproc + 2) + 2 * (nproc - slot)
  | .running queue i slot =>
      3 + (queue.length - (i + 1)) * (2 * nproc + 2) + 2 * (nproc - (slot + 1))

/-- Every step of the scheduler within an iteration brings its end closer. -/
theorem Step.work {s s' : State} {a : Label} (taken : Step s a s') (within : a ≠ .scan) :
    a = .env ∧ s'.point.work = s.point.work ∨ a ≠ .env ∧ s'.point.work < s.point.work := by
  revert within
  refine taken.elim ?env ?scan ?sort ?acquire ?finish ?skip ?dispatch ?back ?release
  case env => exact fun _ _ _ _ _ => .inl ⟨rfl, rfl⟩
  case scan => exact fun _ within => absurd rfl within
  case sort =>
    intro queue table _
    refine .inr ⟨nofun, ?_⟩
    simp only [Point.work, (bubbleSort_perm queue).length_eq, Nat.sub_zero]
    omega
  case acquire =>
    intro queue i table more _
    refine .inr ⟨nofun, ?_⟩
    simp only [Point.work, nproc]
    omega
  case finish => exact fun _ _ _ _ _ => .inr ⟨nofun, Nat.add_pos_left (by decide) _⟩
  case skip =>
    intro queue i slot table _ _
    have := slot.isLt
    refine .inr ⟨nofun, ?_⟩
    simp only [Point.work]
    omega
  case dispatch =>
    intro queue i slot table _ _ _
    have := slot.isLt
    refine .inr ⟨nofun, ?_⟩
    simp only [Point.work]
    omega
  case back => exact fun _ _ _ _ _ => .inr ⟨nofun, by simp only [Point.work]; omega⟩
  case release => exact fun _ _ _ _ _ _ => .inr ⟨nofun, by simp only [Point.work]; omega⟩

/-- In pass `i`, at `slot`, the visit that will dispatch `p` is still to come: in the last pass at
the latest, as its threshold is the least priority of the snapshot. -/
structure Due (p : Fin nproc) (prio : ℤ) (queue : List ℤ) (i slot : ℕ) : Prop where
  sorted : queue.Pairwise fun x y => y ≤ x
  mem : prio ∈ queue
  bound : i < queue.length
  last : i + 1 = queue.length → slot ≤ p

def Point.Awaits (p : Fin nproc) (prio : ℤ) : Point → Prop
  | .outer => False
  | .sort queue => prio ∈ queue
  | .pass queue i => Due p prio queue i 0
  | .visit queue i slot => Due p prio queue i slot
  | .running queue i slot => Due p prio queue i (slot + 1)

section Starvation

variable {p : Fin nproc} {prio : ℤ}

theorem Due.start (sorted : queue.Pairwise fun x y => y ≤ x) (mem : prio ∈ queue)
    (bound : i < queue.length) : Due p prio queue i 0 :=
  ⟨sorted, mem, bound, fun _ => Nat.zero_le _⟩

/-- In the last pass the threshold is low enough. -/
theorem Due.threshold_le (due : Due p prio queue i slot) (last : i + 1 = queue.length) :
    threshold queue i ≤ prio := by
  obtain ⟨k, hk, rfl⟩ := exists_threshold due.mem
  exact Scheduler.threshold_le due.sorted (by omega) due.bound

/-- A slot that is not the one of `p`, or that is passed over before the last pass. -/
theorem Due.next (due : Due p prio queue i slot) (other : i + 1 = queue.length → slot ≠ p) :
    Due p prio queue i (slot + 1) :=
  ⟨due.sorted, due.mem, due.bound, fun last => (due.last last).lt_of_ne (other last)⟩

theorem Point.Awaits.step {s s' : State} {a : Label} (awaits : s.point.Awaits p prio)
    (taken : Step s a s') (runnable : (s.table p).state = .runnable)
    (high : prio ≤ (s.table p).priority) : a = .dispatch p ∨ a ≠ .scan ∧ s'.point.Awaits p prio := by
  revert awaits runnable high
  refine taken.elim ?env ?scan ?sort ?acquire ?finish ?skip ?dispatch ?back ?release
  case env => exact fun _ _ _ _ awaits _ _ => .inr ⟨nofun, awaits⟩
  case scan => exact fun _ awaits => absurd awaits id
  case sort =>
    intro queue table mem _ _
    have mem' := (bubbleSort_perm queue).mem_iff.2 mem
    exact .inr ⟨nofun, .start (bubbleSort_sorted queue) mem' (List.length_pos_of_mem mem')⟩
  case acquire => exact fun _ _ _ _ due _ _ => .inr ⟨nofun, due⟩
  case finish => exact fun _ _ _ ended due _ _ => absurd due.bound (not_lt.2 ended)
  case skip =>
    intro queue i slot table refused due runnable high
    refine .inr ⟨nofun, Due.next due fun last here => refused ?_⟩
    rw [Fin.ext here]
    exact ⟨runnable, (due.threshold_le last).trans high⟩
  case dispatch =>
    intro queue i slot table _ _ due _ _
    by_cases here : slot = p
    · exact .inl (by rw [here])
    · exact .inr ⟨nofun, Due.next due fun _ same => here (Fin.ext same)⟩
  case back => exact fun _ _ _ _ due _ _ => .inr ⟨nofun, due⟩
  case release =>
    intro queue i slot table ended due _ _
    have more : i + 1 ≠ queue.length := fun last =>
      absurd (due.last last) (not_le.2 (p.isLt.trans_le ended))
    exact .inr ⟨nofun, .start due.sorted due.mem (lt_of_le_of_ne due.bound more)⟩

theorem Point.Awaits.work_pos {point : Point} (awaits : point.Awaits p prio) : 0 < point.work := by
  cases point with
  | outer => exact awaits.elim
  | sort => exact Nat.add_pos_left (by decide) _
  | pass => exact Nat.add_pos_left (by decide) _
  | visit => exact Nat.add_pos_left (Nat.add_pos_left (by decide) _) _
  | running => exact Nat.add_pos_left (Nat.add_pos_left (by decide) _) _

/-- After the events `l`, `p` still waits for its dispatch, at most `total` steps of the scheduler
from the snapshot. -/
structure Waits (p : Fin nproc) (prio : ℤ) (total : ℕ) (l : List (Event State Label)) (s : State) :
    Prop where
  runnable : (s.table p).state = .runnable
  high : prio ≤ (s.table p).priority
  awaits : s.point.Awaits p prio
  work : ownSteps l + s.point.work ≤ total

theorem Waits.step {total : ℕ} {s s' : State} {a : Label} (waits : Waits p prio total l s)
    (taken : Step s a s') (stays : StaysReady p prio ⟨s, a, s'⟩) :
    a = .dispatch p ∨ Waits p prio total (l ++ [⟨s, a, s'⟩]) s' := by
  by_cases now : a = .dispatch p
  · exact .inl now
  obtain ⟨within, awaits⟩ :=
    (waits.awaits.step taken waits.runnable waits.high).resolve_left now
  refine .inr ⟨stays.2 waits.runnable now, stays.1, awaits, ?_⟩
  have work := waits.work
  rw [ownSteps_snoc]
  rcases taken.work within with ⟨env, same⟩ | ⟨own, less⟩
  · rw [if_neg (not_not.2 env)]
    omega
  · rw [if_pos own]
    omega

end Starvation

/-- Every process that is runnable in the snapshot, stays runnable until it is dispatched and keeps
at least its priority is dispatched in the iteration, which ends after a bounded number of steps of
the scheduler. -/
theorem dispatched_in_iteration (table : ProcTable) (p : Fin nproc)
    (runnable : (table p).state = .runnable) {l : List (Event State Label)} {s : State}
    (run : Run Step (snapshot table) l s)
    (stays : ∀ e ∈ l, StaysReady p (table p).priority e)
    (ends : s.point = .outer ∨ (snapshot table).point.work ≤ ownSteps l) :
    ∃ e ∈ l, e.label = .dispatch p := by
  have start : Waits p (table p).priority (snapshot table).point.work [] (snapshot table) :=
    ⟨runnable, le_rfl, mem_gather runnable, (Nat.zero_add _).le⟩
  have invariant : 0 < dispatches p l ∨
      Waits p (table p).priority (snapshot table).point.work l s := by
    refine run.history_of_forall (I := fun l s => 0 < dispatches p l ∨ Waits _ _ _ l s)
      (.inr start) ?_ stays
    rintro l x a y (already | waits) taken stays
    · rw [dispatches_snoc]
      exact .inl (Nat.add_pos_left already _)
    · refine (waits.step taken stays).imp_left fun now => ?_
      rw [dispatches_snoc, if_pos now]
      exact Nat.succ_pos _
  rcases invariant with already | waits
  · exact dispatches_pos.1 already
  · have unfinished := waits.awaits.work_pos
    have work := waits.work
    rcases ends with outer | enough
    · rw [outer] at unfinished
      exact absurd unfinished (lt_irrefl 0)
    · omega

/-- The process with the lower priority has its turn in the last pass. -/
theorem dispatched_in_iteration_quiet :
    ∃ e ∈ (quietRun (snapshot twoProcs) 137).1, e.label = .dispatch ⟨0, by decide⟩ :=
  dispatched_in_iteration twoProcs ⟨0, by decide⟩ (by decide) (run_quietRun _ 137)
    (by decide +kernel) (.inl (by decide +kernel))

end SsuOs.Xv6.Scheduler
