import SsuOs.Xv6.Process

/-!
# What a step does to the process table

Each step of the kernel is one of a few effects on the slots (`Effect`).
-/

namespace SsuOs.Xv6

/-! ## Waking and passing on -/

/-- The process in a slot is the same, and it was woken or its state is the same. -/
structure Woken (t t' : Task) : Prop where
  pid : t'.pid = t.pid
  switchCnt : t'.switchCnt = t.switchCnt
  state : t'.state = t.state ∨ (t.state = .sleeping ∧ t'.state = .runnable)

theorem Woken.refl (t : Task) : Woken t t := ⟨rfl, rfl, .inl rfl⟩

theorem Woken.trans {t t' t'' : Task} (first : Woken t t') (second : Woken t' t'') : Woken t t'' := by
  refine ⟨second.pid.trans first.pid, second.switchCnt.trans first.switchCnt, ?_⟩
  rcases first.state with same | ⟨asleep, woken⟩
  · rw [← same]
    exact second.state
  · rcases second.state with same | ⟨asleep', -⟩
    · exact .inr ⟨asleep, same.trans woken⟩
    · rw [woken] at asleep'
      cases asleep'

section Tables

variable (chan : Chan) (cur init : Fin nproc) (table : Fin nproc → Task) (p q : Fin nproc)

theorem wakeup1_woken : Woken (table q) (wakeup1 chan table q) := by
  unfold wakeup1
  split_ifs with asleep
  · exact ⟨rfl, rfl, .inr ⟨asleep.1, rfl⟩⟩
  · exact .refl _

@[simp] theorem wakeup1_parent : (wakeup1 chan table q).parent = (table q).parent := by
  unfold wakeup1
  split_ifs <;> rfl

theorem passChild_woken : Woken (table q) (passChild cur init table p q) := by
  have passed : Woken (table q)
      (Function.update table p { table p with parent := some init } q) := by
    by_cases here : q = p
    · subst here
      rw [Function.update_self]
      exact ⟨rfl, rfl, .inl rfl⟩
    · rw [Function.update_of_ne here]
      exact .refl _
  unfold passChild
  split_ifs
  · exact passed.trans (wakeup1_woken ..)
  · exact passed
  · exact .refl _

theorem passChild_parent : (passChild cur init table p q).parent =
    if q = p ∧ (table q).parent = some cur then some init else (table q).parent := by
  have round : (passChild cur init table p q).parent =
      if (table p).parent = some cur then if q = p then some init else (table q).parent
      else (table q).parent := by
    unfold passChild
    by_cases child : (table p).parent = some cur
    · rw [if_pos child, if_pos child]
      have passed : (Function.update table p { table p with parent := some init } q).parent =
          if q = p then some init else (table q).parent := by
        rw [Function.update_apply]
        split_ifs <;> rfl
      dsimp only
      by_cases zombie : (table p).state = .zombie
      · rw [if_pos zombie, wakeup1_parent, passed]
      · rw [if_neg zombie, passed]
    · rw [if_neg child, if_neg child]
  rw [round]
  by_cases here : q = p
  · subst here
    simp
  · simp [here]

theorem foldl_passChild_woken (l : List (Fin nproc)) :
    Woken (table q) (l.foldl (passChild cur init) table q) := by
  induction l generalizing table with
  | nil => exact .refl _
  | cons p l ih => exact (passChild_woken cur init table p q).trans (ih _)

variable {cur init}

theorem foldl_passChild_parent (other : init ≠ cur) (l : List (Fin nproc)) :
    (l.foldl (passChild cur init) table q).parent =
      if q ∈ l ∧ (table q).parent = some cur then some init else (table q).parent := by
  induction l generalizing table with
  | nil => simp
  | cons p l ih =>
    rw [List.foldl_cons, ih, passChild_parent]
    by_cases child : (table q).parent = some cur
    · by_cases here : q = p
      · simp [here.symm, child, other]
      · simp [here, child]
    · simp [child]

theorem passChildren_parent (other : init ≠ cur) : (passChildren cur init table q).parent =
    if (table q).parent = some cur then some init else (table q).parent := by
  rw [passChildren, foldl_passChild_parent table q other]
  simp

end Tables

/-! ## Steps of the schedulers -/

namespace Kernel

section Running

variable {κ : Type} {s : Kernel κ} {c : κ} {p q : Fin nproc} {t : Task} {x : Activity}

@[simp] theorem setTask_self : (s.setTask p t).table p = t := Function.update_self ..

theorem setTask_of_ne (other : q ≠ p) : (s.setTask p t).table q = s.table q :=
  Function.update_of_ne other ..

@[simp] theorem setActivity_self : (s.setActivity p x).activity p = x := Function.update_self ..

theorem setActivity_of_ne (other : q ≠ p) : (s.setActivity p x).activity q = s.activity q :=
  Function.update_of_ne other ..

theorem setTask_setTask (t t' : Task) : (s.setTask p t).setTask p t' = s.setTask p t' := by
  simp [setTask]

theorem running_eq_some : s.running c = some p ↔ ∃ queue i, s.cpu c = .running queue i p := by
  unfold running
  cases s.cpu c <;> simp

end Running

variable {κ : Type} [DecidableEq κ] {s s' : Kernel κ} {c : κ} {p : Fin nproc}

/-- The scheduler counts the switch of the process that comes back. -/
theorem sched_table (on : s.running c = some p) : (s.sched c).table =
    Function.update s.table p { s.table p with switchCnt := (s.table p).switchCnt + 1 } := by
  obtain ⟨queue, i, point⟩ := running_eq_some.1 on
  funext q
  simp only [sched, schedule, point, Scheduler.next]
  by_cases here : q = p
  · subst here
    simp
  · simp [here]

theorem sched_running (on : s.running c = some p) (c' : κ) :
    (s.sched c).running c' = if c' = c then none else s.running c' := by
  obtain ⟨queue, i, point⟩ := running_eq_some.1 on
  simp only [running, sched, schedule, point, Scheduler.next]
  by_cases here : c' = c
  · subst here
    simp
  · simp [here]

/-- A scheduler that runs no process leaves the table as it is, or dispatches a process. -/
theorem schedule_cases (idle : s.running c = none) :
    ((s.schedule c).table = s.table ∧ ∀ c', (s.schedule c).running c' = s.running c') ∨
      ∃ p, (s.table p).state = .runnable ∧
        (∀ q ≠ p, (s.schedule c).table q = s.table q) ∧
        (s.schedule c).table p = { s.table p with state := .running } ∧
        ∀ c', (s.schedule c).running c' = if c' = c then some p else s.running c' := by
  have elsewhere (c' : κ) (other : c' ≠ c) : (s.schedule c).running c' = s.running c' := by
    simp [running, schedule, other]
  have quiet (table : (s.schedule c).table = s.table) (here : (s.schedule c).running c = none) :
      (s.schedule c).table = s.table ∧ ∀ c', (s.schedule c).running c' = s.running c' := by
    refine ⟨table, fun c' => ?_⟩
    by_cases same : c' = c
    · rw [same, here, idle]
    · exact elsewhere c' same
  cases point : s.cpu c with
  | outer => exact .inl (quiet (by simp [schedule, point, Scheduler.next])
      (by simp [running, schedule, point, Scheduler.next]))
  | sort queue => exact .inl (quiet (by simp [schedule, point, Scheduler.next])
      (by simp [running, schedule, point, Scheduler.next]))
  | pass queue i =>
    refine .inl (quiet ?_ ?_)
    · simp only [schedule, point, Scheduler.next]
      split_ifs <;> rfl
    · simp only [running, schedule, point, Scheduler.next, Function.update_self]
      split_ifs <;> rfl
  | visit queue i p =>
    by_cases slot : p < nproc
    · by_cases eligible : (s.table ⟨p, slot⟩).state = .runnable ∧
          (s.table ⟨p, slot⟩).priority ≥ Scheduler.threshold queue i
      · refine .inr ⟨⟨p, slot⟩, eligible.1, fun q other => ?_, ?_, fun c' => ?_⟩
        · simp [schedule, point, Scheduler.next, slot, eligible, other]
        · simp [schedule, point, Scheduler.next, slot, eligible]
        · by_cases same : c' = c
          · simp [running, schedule, point, Scheduler.next, slot, eligible, same]
          · rw [if_neg same, elsewhere c' same]
      · exact .inl (quiet (by simp [schedule, point, Scheduler.next, slot, eligible])
          (by simp [running, schedule, point, Scheduler.next, slot, eligible]))
    · exact .inl (quiet (by simp [schedule, point, Scheduler.next, slot])
        (by simp [running, schedule, point, Scheduler.next, slot]))
  | running queue i p => simp [running, point] at idle

/-- A step of a scheduler is a step of `schedule`, apart from the lock. -/
theorem scheduler_eq_some (taken : s.scheduler c = some s') :
    s.running c = none ∧ ∃ lock, s' = { s.schedule c with lock := lock } := by
  unfold scheduler at taken
  unfold running
  cases point : s.cpu c with
  | running queue i p => simp [point] at taken
  | pass queue i =>
    rw [point] at taken
    dsimp only at taken
    split_ifs at taken <;> exact ⟨rfl, _, (Option.some.inj taken).symm⟩
  | _ =>
    simp only [point] at taken
    try split_ifs at taken
    all_goals exact ⟨rfl, _, (Option.some.inj taken).symm⟩

theorem wakeup_eq_some {chan : Chan} (taken : s.step (.wakeup chan) = some s') :
    s' = { s with table := wakeup1 chan s.table } := by
  simp only [step] at taken
  split_ifs at taken
  exact (Option.some.inj taken).symm

end Kernel

/-! ## Effects -/

/-- The slot that `fork` has taken, before the assignment of its parent. -/
def Activity.early : Activity → Option (Fin nproc)
  | .kalloc np | .copyuvm np | .inherit np | .adopt np => some np
  | _ => none

/-- The slot that `fork` has taken. -/
def Activity.slot : Activity → Option (Fin nproc)
  | .publish np => some np
  | a => a.early

/-- What a step means for the lives of processes. -/
inductive Observation
  | nothing
  | forked (p np : Fin nproc)
  /-- the slot `np` is given back by a `fork` that fails -/
  | failed (np : Fin nproc)
  | exited (p : Fin nproc)
  | reaped (q : Fin nproc)
  /-- `p` gives up its CPU -/
  | left (p : Fin nproc)
  deriving DecidableEq

/-- `fork` has taken a slot or given it back, a process has exited, a child was found by `wait`, or
a CPU is back in its scheduler. -/
def observe {κ : Type} (e : Event (Kernel κ) (KernelLabel κ)) : Observation :=
  match e.label with
  | .run c a =>
      match e.before.running c with
      | none => .nothing
      | some p =>
          let left := if e.after.running c = none then .left p else .nothing
          match a with
          | .fork => (firstSlot e.before.table fun t => t.state = .unused).elim .nothing (.forked p)
          | .kalloc false | .copyuvm false => (e.before.activity p).early.elim .nothing .failed
          | .exit => .exited p
          | .wait =>
              (firstSlot e.before.table fun t => t.parent = some p ∧ t.state = .zombie).elim left .reaped
          | _ => left
  | _ => .nothing

/-- As `Woken`, with the same parent. -/
structure Calm (t t' : Task) : Prop extends Woken t t' where
  parent : t'.parent = t.parent

theorem Calm.refl (t : Task) : Calm t t := ⟨.refl t, rfl⟩

theorem Kernel.calm_setTask {κ : Type} {s : Kernel κ} {p : Fin nproc} {t : Task}
    (calm : Calm (s.table p) t) (q : Fin nproc) : Calm (s.table q) ((s.setTask p t).table q) := by
  by_cases here : q = p
  · subst here
    rwa [setTask_self]
  · rw [setTask_of_ne here]
    exact .refl _

/-- What a step can do to the slots and to the activities of the processes. -/
inductive Effect {κ : Type} [DecidableEq κ] (s : Kernel κ) (a : KernelLabel κ) (s' : Kernel κ) : Prop
  | calm (seen : observe ⟨s, a, s'⟩ = .nothing) (tasks : ∀ q, Calm (s.table q) (s'.table q))
      (nextpid : s'.nextpid = s.nextpid)
      (activity : ∀ q, s'.activity q = s.activity q ∨
        ((s.activity q).slot = none ∧ s'.activity q = .user))
      (running : ∀ c, s'.running c = s.running c)
  | dispatch (c : κ) (p : Fin nproc) (seen : observe ⟨s, a, s'⟩ = .nothing)
      (ready : (s.table p).state = .runnable) (others : ∀ q ≠ p, s'.table q = s.table q)
      (self : s'.table p = { s.table p with state := .running })
      (nextpid : s'.nextpid = s.nextpid) (activity : ∀ q, s'.activity q = s.activity q)
      (running : ∀ c', s'.running c' = if c' = c then some p else s.running c')
  | leave (c : κ) (p : Fin nproc) (seen : observe ⟨s, a, s'⟩ = .left p)
      (on : s.running c = some p) (others : ∀ q ≠ p, s'.table q = s.table q)
      (pid : (s'.table p).pid = (s.table p).pid) (parent : (s'.table p).parent = (s.table p).parent)
      (switchCnt : (s'.table p).switchCnt = (s.table p).switchCnt + 1)
      (state : (s'.table p).state = .runnable ∨ (s'.table p).state = .sleeping)
      (nextpid : s'.nextpid = s.nextpid) (activities : ∀ q ≠ p, s'.activity q = s.activity q)
      (activity : s'.activity p = s.activity p ∨
        ((s.activity p).slot = none ∧ (s'.activity p).slot = none))
      (running : ∀ c', s'.running c' = if c' = c then none else s.running c')
  | exit (c : κ) (p : Fin nproc) (seen : observe ⟨s, a, s'⟩ = .exited p)
      (on : s.running c = some p) (user : s.activity p = .user) (other : p ≠ s.initproc)
      (others : ∀ q ≠ p, Woken (s.table q) (s'.table q))
      (parent : ∀ q, (s'.table q).parent =
        if (s.table q).parent = some p then some s.initproc else (s.table q).parent)
      (pid : (s'.table p).pid = (s.table p).pid)
      (switchCnt : (s'.table p).switchCnt = (s.table p).switchCnt + 1)
      (state : (s'.table p).state = .zombie)
      (nextpid : s'.nextpid = s.nextpid) (activity : ∀ q, s'.activity q = s.activity q)
      (running : ∀ c', s'.running c' = if c' = c then none else s.running c')
  | reap (q : Fin nproc) (seen : observe ⟨s, a, s'⟩ = .reaped q)
      (zombie : (s.table q).state = .zombie)
      (others : ∀ r ≠ q, Calm (s.table r) (s'.table r)) (state : (s'.table q).state = .unused)
      (pid : (s'.table q).pid = 0) (parent : (s'.table q).parent = none)
      (nextpid : s'.nextpid = s.nextpid)
      (activity : ∀ q, s'.activity q = s.activity q ∨
        ((s.activity q).slot = none ∧ s'.activity q = .user))
      (running : ∀ c, s'.running c = s.running c)
  | alloc (c : κ) (p np : Fin nproc) (seen : observe ⟨s, a, s'⟩ = .forked p np)
      (on : s.running c = some p) (user : s.activity p = .user)
      (free : (s.table np).state = .unused) (others : ∀ q ≠ np, s'.table q = s.table q)
      (self : s'.table np = (s.table np).embryo s.nextpid) (nextpid : s'.nextpid = s.nextpid + 1)
      (activities : ∀ q ≠ p, s'.activity q = s.activity q) (activity : s'.activity p = .kalloc np)
      (running : ∀ c, s'.running c = s.running c)
  | fail (c : κ) (p np : Fin nproc) (seen : observe ⟨s, a, s'⟩ = .failed np)
      (on : s.running c = some p) (stage : (s.activity p).early = some np)
      (others : ∀ q ≠ np, s'.table q = s.table q)
      (self : s'.table np = { s.table np with state := .unused }) (nextpid : s'.nextpid = s.nextpid)
      (activities : ∀ q ≠ p, s'.activity q = s.activity q) (activity : s'.activity p = .user)
      (running : ∀ c, s'.running c = s.running c)
  | advance (c : κ) (p np : Fin nproc) (seen : observe ⟨s, a, s'⟩ = .nothing)
      (on : s.running c = some p) (stage : (s.activity p).early = some np)
      (tasks : ∀ q, Calm (s.table q) (s'.table q)) (nextpid : s'.nextpid = s.nextpid)
      (activities : ∀ q ≠ p, s'.activity q = s.activity q)
      (activity : (s'.activity p).early = some np)
      (running : ∀ c, s'.running c = s.running c)
  | adopt (c : κ) (p np : Fin nproc) (seen : observe ⟨s, a, s'⟩ = .nothing)
      (on : s.running c = some p) (stage : (s.activity p).early = some np)
      (others : ∀ q ≠ np, s'.table q = s.table q)
      (self : s'.table np = { s.table np with parent := some p }) (nextpid : s'.nextpid = s.nextpid)
      (activities : ∀ q ≠ p, s'.activity q = s.activity q) (activity : s'.activity p = .publish np)
      (running : ∀ c, s'.running c = s.running c)
  | publish (c : κ) (p np : Fin nproc) (seen : observe ⟨s, a, s'⟩ = .nothing)
      (on : s.running c = some p) (stage : s.activity p = .publish np)
      (others : ∀ q ≠ np, s'.table q = s.table q)
      (self : s'.table np = { s.table np with state := .runnable }) (nextpid : s'.nextpid = s.nextpid)
      (activities : ∀ q ≠ p, s'.activity q = s.activity q) (activity : s'.activity p = .user)
      (running : ∀ c, s'.running c = s.running c)

namespace Kernel

section Observe

variable {κ : Type} {s s' : Kernel κ} {c : κ} {p : Fin nproc} {a : Action}

/-- A step is seen when it makes its process leave its CPU, and not otherwise. -/
structure Quiet (s : Kernel κ) (c : κ) (p : Fin nproc) (a : Action) : Prop where
  stays : ∀ s' : Kernel κ, s'.running c = some p → observe ⟨s, .run c a, s'⟩ = .nothing
  leaves : ∀ s' : Kernel κ, s'.running c = none → observe ⟨s, .run c a, s'⟩ = .left p

theorem quiet (on : s.running c = some p)
    (other : a ∉ [.fork, .kalloc false, .copyuvm false, .exit, .wait]) : Quiet s c p a := by
  constructor
  · intro s' stays
    cases a <;> simp_all [observe]
  · intro s' leaves
    cases a <;> simp_all [observe]

end Observe

variable {κ : Type} [DecidableEq κ] {s s' : Kernel κ} {c : κ} {p : Fin nproc}

/-- `sched`, after the state and the activity of the process were changed. -/
theorem effect_sched {a : Action} {t : Task} {activity : Activity} (on : s.running c = some p)
    (quiet : Quiet s c p a) (pid : t.pid = (s.table p).pid)
    (parent : t.parent = (s.table p).parent) (switchCnt : t.switchCnt = (s.table p).switchCnt)
    (state : t.state = .runnable ∨ t.state = .sleeping)
    (same : activity = s.activity p ∨ ((s.activity p).slot = none ∧ activity.slot = none)) :
    Effect s (.run c a) (((s.setTask p t).setActivity p activity).sched c) := by
  have on' : ((s.setTask p t).setActivity p activity).running c = some p := on
  have running : ∀ c', (((s.setTask p t).setActivity p activity).sched c).running c' =
      if c' = c then none else s.running c' := sched_running on'
  have self : (((s.setTask p t).setActivity p activity).sched c).table p =
      { t with switchCnt := t.switchCnt + 1 } := by
    rw [sched_table on', Function.update_self]
    have now : ((s.setTask p t).setActivity p activity).table p = t := setTask_self
    rw [now]
  have now : (((s.setTask p t).setActivity p activity).sched c).activity p = activity :=
    setActivity_self
  refine .leave c p (quiet.leaves _ (by rw [running, if_pos rfl])) on
    (fun q other => ?_) (by rw [self]; exact pid) (by rw [self]; exact parent)
    (by rw [self, switchCnt]) (by rw [self]; exact state) rfl (fun q => setActivity_of_ne)
    (by rw [now]; exact same) running
  rw [sched_table on', Function.update_of_ne other]
  exact setTask_of_ne other

theorem effect_yield (on : s.running c = some p) (taken : s.yield c p = some s') :
    Effect s (.run c .yield) s' := by
  unfold yield at taken
  split_ifs at taken with allowed
  cases taken
  have same : s.setTask p { s.table p with state := .runnable } =
      (s.setTask p { s.table p with state := .runnable }).setActivity p (s.activity p) := by
    simp [setActivity, setTask]
  rw [same]
  exact effect_sched on (quiet on (by simp)) rfl rfl rfl (.inl rfl) (.inl rfl)

theorem effect_sleep {chan : Chan} (on : s.running c = some p)
    (taken : s.sleep c p chan = some s') : Effect s (.run c (.sleep chan)) s' := by
  unfold sleep at taken
  split_ifs at taken with allowed
  cases taken
  refine effect_sched on (quiet on (by simp)) rfl rfl rfl (.inr rfl) (.inr ⟨?_, rfl⟩)
  rw [allowed.2]
  rfl

/-- A step that changes at most one slot, and this in other fields; a `sleep` or `wait` may be left
on the way. -/
theorem effect_calm {a : Action} {q : Fin nproc} {t : Task} {activity : Activity}
    (on : s.running c = some p) (quiet : Quiet s c p a) (calm : Calm (s.table q) t)
    (left : activity = s.activity p ∨ ((s.activity p).slot = none ∧ activity = .user)) :
    Effect s (.run c a) ((s.setTask q t).setActivity p activity) := by
  refine .calm (quiet.stays _ on) (calm_setTask calm) rfl (fun r => ?_) fun _ => rfl
  by_cases here : r = p
  · subst here
    rw [setActivity_self]
    exact left
  · exact .inl (setActivity_of_ne here)

theorem effect_setTask {a : Action} {q : Fin nproc} {t : Task} (on : s.running c = some p)
    (quiet : Quiet s c p a) (calm : Calm (s.table q) t) :
    Effect s (.run c a) (s.setTask q t) := by
  have same : s.setTask q t = (s.setTask q t).setActivity p (s.activity p) := by
    simp [setActivity, setTask]
  rw [same]
  exact effect_calm on quiet calm (.inl rfl)

theorem effect_resume (on : s.running c = some p) (taken : s.resume p = some s') :
    Effect s (.run c .resume) s' := by
  unfold resume at taken
  split_ifs at taken with allowed
  cases taken
  refine effect_calm on (quiet on (by simp)) ⟨⟨rfl, rfl, .inl rfl⟩, rfl⟩ (.inr ⟨?_, rfl⟩)
  rw [allowed]
  rfl

theorem effect_kill {pid : Int32} (on : s.running c = some p) (taken : s.kill p pid = some s') :
    Effect s (.run c (.kill pid)) s' := by
  unfold kill at taken
  split_ifs at taken with allowed
  split at taken
  · cases taken
    refine effect_setTask on (quiet on (by simp)) ⟨⟨rfl, rfl, ?_⟩, rfl⟩
    dsimp only
    split_ifs with asleep
    · exact .inr ⟨asleep, rfl⟩
    · exact .inl rfl
  · cases taken
    exact .calm ((quiet on (by simp)).stays _ on) (fun _ => .refl _) rfl (fun _ => .inl rfl)
      fun _ => rfl

theorem effect_setPrio {n : ℤ} (on : s.running c = some p) (taken : s.setPrio p n = some s') :
    Effect s (.run c (.setPrio n)) s' := by
  unfold setPrio at taken
  split_ifs at taken
  cases taken
  exact effect_setTask on (quiet on (by simp)) ⟨⟨rfl, rfl, .inl rfl⟩, rfl⟩

theorem effect_resize {sz : UInt32} (on : s.running c = some p)
    (taken : s.resize p sz = some s') : Effect s (.run c (.resize sz)) s' := by
  unfold resize at taken
  split_ifs at taken
  cases taken
  exact effect_setTask on (quiet on (by simp)) ⟨⟨rfl, rfl, .inl rfl⟩, rfl⟩

theorem firstSlot_congr {table table' : Fin nproc → Task} {P : Task → Prop} [DecidablePred P]
    (same : ∀ q, P (table' q) ↔ P (table q)) : firstSlot table' P = firstSlot table P := by
  simp only [firstSlot, same]

theorem firstSlot_eq_some {table : Fin nproc → Task} {P : Task → Prop} [DecidablePred P]
    {q : Fin nproc} (found : firstSlot table P = some q) : P (table q) := by
  simpa using List.find?_some found

theorem effect_fork (on : s.running c = some p) (taken : s.fork p = some s') :
    Effect s (.run c .fork) s' := by
  unfold fork at taken
  split_ifs at taken with allowed
  split at taken
  · next none =>
    cases taken
    refine .calm ?_ (fun _ => .refl _) rfl (fun _ => .inl rfl) fun _ => rfl
    simp [observe, on, none]
  · next np found =>
    cases taken
    exact .alloc c p np (by simp [observe, on, found]) on allowed.2 (firstSlot_eq_some found)
      (fun q => setTask_of_ne) setTask_self rfl (fun q => setActivity_of_ne) setActivity_self
      fun _ => rfl

/-- An allocation of `fork`, which may fail. -/
theorem effect_allocation {a : Action} {np : Fin nproc} {next : Activity}
    (on : s.running c = some p) (stage : (s.activity p).early = some np)
    (stage' : next.early = some np) (ok : Bool) (a_eq : a = .kalloc ok ∨ a = .copyuvm ok) :
    Effect s (.run c a) (if ok then s.setActivity p next else s.fail p np) := by
  cases ok with
  | false =>
    refine .fail c p np ?_ on stage (fun q => setTask_of_ne) setTask_self rfl
      (fun q => setActivity_of_ne) setActivity_self fun _ => rfl
    rcases a_eq with rfl | rfl <;> simp [observe, on, stage]
  | true =>
    refine .advance c p np ?_ on stage (fun _ => .refl _) rfl (fun q => setActivity_of_ne)
      (by rw [if_pos rfl, setActivity_self, stage']) fun _ => rfl
    rcases a_eq with rfl | rfl <;> exact (quiet on (by simp)).stays _ on

theorem effect_kalloc {ok : Bool} (on : s.running c = some p)
    (taken : s.kalloc p ok = some s') : Effect s (.run c (.kalloc ok)) s' := by
  unfold kalloc at taken
  split at taken
  · next np at_ =>
    cases taken
    exact effect_allocation on (by rw [at_]; rfl) rfl ok (.inl rfl)
  · cases taken

theorem effect_copyuvm {ok : Bool} (on : s.running c = some p)
    (taken : s.copyuvm p ok = some s') : Effect s (.run c (.copyuvm ok)) s' := by
  unfold copyuvm at taken
  split at taken
  · next np at_ =>
    cases taken
    exact effect_allocation on (by rw [at_]; rfl) rfl ok (.inr rfl)
  · cases taken

theorem effect_inherit (on : s.running c = some p) (taken : s.inherit p = some s') :
    Effect s (.run c .inherit) s' := by
  unfold inherit at taken
  split at taken
  · next np at_ =>
    have stage : (s.activity p).early = some np := by rw [at_]; rfl
    cases taken
    exact .advance c p np ((quiet on (by simp)).stays _ on) on stage
      (calm_setTask ⟨⟨rfl, rfl, .inl rfl⟩, rfl⟩) rfl (fun q => setActivity_of_ne)
      (by rw [setActivity_self]; rfl) fun _ => rfl
  · cases taken

theorem effect_adopt (on : s.running c = some p) (taken : s.adopt p = some s') :
    Effect s (.run c .adopt) s' := by
  unfold adopt at taken
  split at taken
  · next np at_ =>
    cases taken
    exact .adopt c p np ((quiet on (by simp)).stays _ on) on (by rw [at_]; rfl)
      (fun q => setTask_of_ne) setTask_self rfl (fun q => setActivity_of_ne) setActivity_self
      fun _ => rfl
  · cases taken

theorem effect_publish (on : s.running c = some p) (taken : s.publish p = some s') :
    Effect s (.run c .publish) s' := by
  unfold publish at taken
  split at taken
  · next np at_ =>
    split_ifs at taken
    cases taken
    exact .publish c p np ((quiet on (by simp)).stays _ on) on at_
      (fun q => setTask_of_ne) setTask_self rfl (fun q => setActivity_of_ne) setActivity_self
      fun _ => rfl
  · cases taken

theorem effect_exit (on : s.running c = some p) (taken : s.exit c p = some s') :
    Effect s (.run c .exit) s' := by
  unfold exit at taken
  split_ifs at taken with allowed
  obtain ⟨-, user, other⟩ := allowed
  cases taken
  have on' : ({ s with table := exitTable p s.initproc s.table } : Kernel κ).running c = some p := on
  have table := sched_table on'
  have running := sched_running on'
  have woken (q : Fin nproc) : Woken (s.table q)
      (passChildren p s.initproc (wakeup1 (chanOf (s.table p).parent) s.table) q) :=
    (wakeup1_woken ..).trans (foldl_passChild_woken ..)
  have passed (q : Fin nproc) :
      (passChildren p s.initproc (wakeup1 (chanOf (s.table p).parent) s.table) q).parent =
        if (s.table q).parent = some p then some s.initproc else (s.table q).parent := by
    rw [passChildren_parent _ _ other.symm, wakeup1_parent]
  refine .exit c p ?_ on user other (fun q away => ?_) (fun q => ?_) ?_ ?_ ?_ rfl
    (fun _ => rfl) running
  · simp [observe, on]
  · rw [table, Function.update_of_ne away]
    change Woken _ (exitTable p s.initproc s.table q)
    rw [exitTable, Function.update_of_ne away]
    exact woken q
  · rw [← passed q, table]
    by_cases here : q = p
    · subst here
      simp [exitTable]
    · simp [exitTable, here]
  · rw [table, Function.update_self]
    simp only [exitTable, Function.update_self]
    exact (woken p).pid
  · rw [table, Function.update_self]
    simp only [exitTable, Function.update_self]
    rw [(woken p).switchCnt]
  · rw [table, Function.update_self]
    simp [exitTable]

theorem effect_wait (on : s.running c = some p) (taken : s.wait c p = some s') :
    Effect s (.run c .wait) s' := by
  unfold wait at taken
  split_ifs at taken with allowed
  have outside : (s.activity p).slot = none := by
    rcases allowed.2 with user | waiting
    · rw [user]
      rfl
    · rw [waiting]
      rfl
  -- the end of a `sleep` before this scan
  have tidy : ∀ q, Calm (s.table q) ((s.setTask p { s.table p with chan := .null }).table q) :=
    calm_setTask ⟨⟨rfl, rfl, .inl rfl⟩, rfl⟩
  have scan : (firstSlot (s.setTask p { s.table p with chan := .null }).table fun t =>
      t.parent = some p ∧ t.state = .zombie) =
        firstSlot s.table fun t => t.parent = some p ∧ t.state = .zombie := by
    refine firstSlot_congr fun q => ?_
    by_cases here : q = p
    · subst here
      rw [setTask_self]
    · rw [setTask_of_ne here]
  dsimp only at taken
  rw [scan] at taken
  split at taken
  · next q found =>
    cases taken
    refine .reap q (by simp [observe, on, found]) (firstSlot_eq_some found).2 (fun r away => ?_)
      ?_ ?_ ?_
      rfl (fun r => ?_) fun _ => rfl
    · change Calm _ (((s.setTask p _).setTask q _).table r)
      rw [setTask_of_ne away]
      exact tidy r
    · change (((s.setTask p _).setTask q _).table q).state = _
      rw [setTask_self]
      rfl
    · change (((s.setTask p _).setTask q _).table q).pid = _
      rw [setTask_self]
      rfl
    · change (((s.setTask p _).setTask q _).table q).parent = _
      rw [setTask_self]
      rfl
    · by_cases here : r = p
      · subst here
        exact .inr ⟨outside, setActivity_self⟩
      · exact .inl (setActivity_of_ne here)
  · next none =>
    have quiet : Quiet s c p .wait :=
      ⟨fun s' stays => by simp [observe, on, none, stays],
        fun s' leaves => by simp [observe, on, none, leaves]⟩
    split_ifs at taken
    · cases taken
      exact effect_calm on quiet ⟨⟨rfl, rfl, .inl rfl⟩, rfl⟩ (.inr ⟨outside, rfl⟩)
    · cases taken
      rw [setTask_setTask]
      exact effect_sched on quiet (tidy p).pid (tidy p).parent (tidy p).switchCnt (.inr rfl)
        (.inr ⟨outside, rfl⟩)

theorem Step.effect {a : KernelLabel κ} (taken : Step s a s') : Effect s a s' := by
  cases a with
  | schedule c =>
    obtain ⟨idle, lock, rfl⟩ := scheduler_eq_some taken
    obtain ⟨table, running⟩ | ⟨p, ready, others, self, running⟩ := schedule_cases idle
    · refine .calm rfl (fun q => ?_) rfl (fun _ => .inl rfl) running
      change Calm _ ((s.schedule c).table q)
      rw [table]
      exact .refl _
    · exact .dispatch c p rfl ready others self rfl (fun _ => rfl) running
  | wakeup chan =>
    obtain rfl := wakeup_eq_some taken
    exact .calm rfl (fun q => ⟨wakeup1_woken .., wakeup1_parent ..⟩) rfl (fun _ => .inl rfl)
      fun _ => rfl
  | run c a =>
    obtain ⟨p, on, acts⟩ := Option.bind_eq_some_iff.1 taken
    cases a with
    | yield => exact effect_yield on acts
    | sleep chan => exact effect_sleep on acts
    | resume => exact effect_resume on acts
    | fork => exact effect_fork on acts
    | kalloc ok => exact effect_kalloc on acts
    | copyuvm ok => exact effect_copyuvm on acts
    | inherit => exact effect_inherit on acts
    | adopt => exact effect_adopt on acts
    | publish => exact effect_publish on acts
    | exit => exact effect_exit on acts
    | wait => exact effect_wait on acts
    | kill pid => exact effect_kill on acts
    | setPrio n => exact effect_setPrio on acts
    | resize sz => exact effect_resize on acts

theorem Step.initproc {a : KernelLabel κ} (taken : Step s a s') : s'.initproc = s.initproc := by
  cases a with
  | schedule c =>
    obtain ⟨-, lock, rfl⟩ := scheduler_eq_some taken
    rfl
  | wakeup chan =>
    obtain rfl := wakeup_eq_some taken
    rfl
  | run c a =>
    obtain ⟨p, -, acts⟩ := Option.bind_eq_some_iff.1 taken
    cases a <;>
      simp only [act, yield, sleep, resume, fork, kalloc, copyuvm, inherit, adopt, publish, exit,
        wait, kill, setPrio, resize] at acts <;>
      (repeat' split at acts) <;> cases acts <;> rfl

end Kernel

end SsuOs.Xv6
