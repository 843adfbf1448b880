import SsuOs.Xv6.Control

/-!
# How processes start

The fields of the child of a `fork` when it is started.  `allocproc` sets `switch_cnt` and
`priority`; `killed` is as the slot had it, since only `wait` clears it, and `kill` chooses its slot
by the pid alone, also if no process has been started in it.
-/

namespace SsuOs.Xv6

/-- No switches, the default priority, and not killed. -/
structure Task.Fresh (t : Task) : Prop where
  switchCnt : t.switchCnt = 0
  priority : t.priority = 0
  killed : t.killed = false

/-- The states of a slot whose process, if any, has not been started. -/
def ProcState.vacant : ProcState → Bool
  | .unused | .embryo => true
  | _ => false

section Events

variable {κ : Type} (e : Event (Kernel κ) (KernelLabel κ))

/-- The child that a `fork` starts when it succeeds. -/
def started : Option (Fin nproc) :=
  match e.label with
  | .run c .publish => (e.before.running c).bind fun p =>
      match e.before.activity p with
      | .publish np => some np
      | _ => none
  | _ => none

/-- The slot that `kill` chooses, if its process has not been started. -/
def earlyKill : Option (Fin nproc) :=
  match e.label with
  | .run _ (.kill pid) => (firstSlot e.before.table fun t => t.pid = pid).filter fun q =>
      (e.before.table q).state.vacant
  | _ => none

end Events

/-! ## What a step does to a slot -/

/-- The slot is the same for a later `fork`, or its process has been started before. -/
inductive Stays (t t' : Task) : Prop
  | same (state : t'.state = t.state) (switchCnt : t'.switchCnt = t.switchCnt)
      (priority : t'.priority = t.priority) (killed : t'.killed = t.killed)
  | process (before : t.state.vacant = false) (after : t'.state.vacant = false)

namespace Stays

variable {t t' t'' : Task}

theorem refl (t : Task) : Stays t t := .same rfl rfl rfl rfl

theorem of_eq (same : t' = t) : Stays t t' := by
  rw [same]
  exact refl t

theorem trans (first : Stays t t') (second : Stays t' t'') : Stays t t'' := by
  cases first with
  | same state switchCnt priority killed =>
    cases second with
    | same state' switchCnt' priority' killed' =>
      exact .same (state'.trans state) (switchCnt'.trans switchCnt) (priority'.trans priority)
        (killed'.trans killed)
    | process before after => exact .process (state ▸ before) after
  | process before after =>
    cases second with
    | same state' switchCnt' priority' killed' => exact .process before (state' ▸ after)
    | process before' after' => exact .process before after'

end Stays

/-- The step starts no process and marks no vacant slot. -/
def Plain {κ : Type} (e : Event (Kernel κ) (KernelLabel κ)) : Prop :=
  earlyKill e = none ∧ started e = none

/-- A step leaves a slot to its process, or `fork` takes it, gives it back or starts its process, or
`kill` marks it too early, or `wait` clears it. -/
inductive SlotStep {κ : Type} (e : Event (Kernel κ) (KernelLabel κ)) (q : Fin nproc) : Prop
  | stays (unmarked : earlyKill e ≠ some q) (old : started e ≠ some q)
      (slot : Stays (e.before.table q) (e.after.table q))
  | taken (plain : Plain e) (free : (e.before.table q).state = .unused) (pid : Int32)
      (self : e.after.table q = (e.before.table q).embryo pid)
  | released (plain : Plain e) (embryo : (e.before.table q).state = .embryo)
      (self : e.after.table q = { e.before.table q with state := .unused })
  | starts (unmarked : earlyKill e = none) (start : started e = some q)
      (embryo : (e.before.table q).state = .embryo)
      (self : e.after.table q = { e.before.table q with state := .runnable })
  | marked (mark : earlyKill e = some q) (old : started e = none)
      (vacant : (e.before.table q).state.vacant)
      (self : e.after.table q = { e.before.table q with killed := true })
  | cleared (plain : Plain e) (zombie : (e.before.table q).state = .zombie)
      (self : e.after.table q = (e.before.table q).reaped)

theorem SlotStep.of_plain {κ : Type} {e : Event (Kernel κ) (KernelLabel κ)} {q : Fin nproc}
    (plain : Plain e) (slot : Stays (e.before.table q) (e.after.table q)) : SlotStep e q :=
  .stays (by rw [plain.1]; exact Option.some_ne_none q |>.symm)
    (by rw [plain.2]; exact Option.some_ne_none q |>.symm) slot

/-- A plain step that does more than settle one slot. -/
theorem SlotStep.of_others {κ : Type} {e : Event (Kernel κ) (KernelLabel κ)} {r : Fin nproc}
    (plain : Plain e) (others : ∀ q ≠ r, Stays (e.before.table q) (e.after.table q))
    (self : SlotStep e r) : ∀ q, SlotStep e q :=
  forall_slot (fun q away => .of_plain plain (others q away)) self

section Tables

variable (chan : Chan) (cur init : Fin nproc) (table : Fin nproc → Task) (p q : Fin nproc)

theorem wakeup1_stays : Stays (table q) (wakeup1 chan table q) := by
  unfold wakeup1
  split_ifs with asleep
  · exact .process (by rw [asleep.1]; rfl) rfl
  · exact .refl _

theorem passChild_stays : Stays (table q) (passChild cur init table p q) := by
  have passed : Stays (table q)
      (Function.update table p { table p with parent := some init } q) := by
    by_cases here : q = p
    · subst here
      rw [Function.update_self]
      exact .same rfl rfl rfl rfl
    · rw [Function.update_of_ne here]
      exact .refl _
  unfold passChild
  split_ifs
  · exact passed.trans (wakeup1_stays ..)
  · exact passed
  · exact .refl _

theorem foldl_passChild_stays (l : List (Fin nproc)) :
    Stays (table q) (l.foldl (passChild cur init) table q) := by
  induction l generalizing table with
  | nil => exact .refl _
  | cons p l ih => exact (passChild_stays cur init table p q).trans (ih _)

end Tables

namespace Kernel

variable {κ : Type} {s s' : Kernel κ} {c : κ} {p : Fin nproc}

theorem stays_setTask {t : Task} (slot : Stays (s.table p) t) :
    ∀ q, Stays (s.table q) ((s.setTask p t).table q) := by
  refine forall_slot (p := p) (fun q away => .of_eq (setTask_of_ne away)) ?_
  rwa [setTask_self]

theorem process_of_running (running : (s.table p).state = .running) :
    (s.table p).state.vacant = false := by
  rw [running]
  rfl

section Sched

variable [DecidableEq κ]

/-- A process that gives up its CPU does not become vacant. -/
theorem stays_sched (s₁ : Kernel κ) (on : s₁.running c = some p)
    (running : (s.table p).state = .running) (after : (s₁.table p).state.vacant = false)
    (others : ∀ q ≠ p, Stays (s.table q) (s₁.table q)) :
    ∀ q, Stays (s.table q) ((s₁.sched c).table q) := by
  rw [sched_table on]
  refine forall_slot (p := p) (fun q away => ?_) ?_
  · rw [Function.update_of_ne away]
    exact others q away
  · rw [Function.update_self]
    exact .process (process_of_running running) after

theorem stays_schedule (idle : s.running c = none) :
    ∀ q, Stays (s.table q) ((s.schedule c).table q) := by
  obtain ⟨table, -⟩ | ⟨p, ready, others, self, -⟩ := schedule_cases idle
  · intro q
    rw [table]
    exact .refl _
  · refine forall_slot (fun q away => .of_eq (others q away)) ?_
    rw [self]
    exact .process (by rw [ready]; rfl) rfl

/-! ### Steps of processes -/

section Actions

variable (running : (s.table p).state = .running) (on : s.running c = some p) (q : Fin nproc)

include running on

theorem slot_yield (taken : s.yield c p = some s') : SlotStep ⟨s, .run c .yield, s'⟩ q := by
  unfold yield at taken
  split_ifs at taken
  cases taken
  exact .of_plain ⟨rfl, rfl⟩ (stays_sched (s.setTask p _) on running
    (by rw [setTask_self]; rfl) (fun q away => .of_eq (setTask_of_ne away)) q)

theorem slot_sleep {chan : Chan} (taken : s.sleep c p chan = some s') :
    SlotStep ⟨s, .run c (.sleep chan), s'⟩ q := by
  unfold sleep at taken
  split_ifs at taken
  cases taken
  refine .of_plain ⟨rfl, rfl⟩ (stays_sched ((s.setTask p _).setActivity p _) on running ?_
    (fun q away => .of_eq (setTask_of_ne away)) q)
  change ((s.setTask p _).table p).state.vacant = false
  rw [setTask_self]
  rfl

theorem slot_exit (taken : s.exit c p = some s') : SlotStep ⟨s, .run c .exit, s'⟩ q := by
  unfold exit at taken
  split_ifs at taken
  cases taken
  refine .of_plain ⟨rfl, rfl⟩ (stays_sched
    { s with table := exitTable p s.initproc s.table } on running ?_ (fun q away => ?_) q)
  · change (exitTable p s.initproc s.table p).state.vacant = false
    rw [exitTable, Function.update_self]
    rfl
  · change Stays _ (exitTable p s.initproc s.table q)
    rw [exitTable, Function.update_of_ne away]
    exact (wakeup1_stays ..).trans (foldl_passChild_stays ..)

theorem slot_wait (taken : s.wait c p = some s') : SlotStep ⟨s, .run c .wait, s'⟩ q := by
  unfold wait at taken
  split_ifs at taken with allowed
  -- the end of a `sleep` before this scan
  have tidy : ∀ q, Stays (s.table q) ((s.setTask p { s.table p with chan := .null }).table q) :=
    stays_setTask (.same rfl rfl rfl rfl)
  dsimp only at taken
  split at taken
  · next r found =>
    cases taken
    have zombie := (firstSlot_eq_some found).2
    have away : r ≠ p := by
      rintro rfl
      rw [setTask_self] at zombie
      cases running.symm.trans zombie
    rw [setTask_of_ne away] at zombie
    refine .of_others (r := r) ⟨rfl, rfl⟩ (fun q other => ?_) (.cleared ⟨rfl, rfl⟩ zombie ?_) q
    · change Stays _ (((s.setTask p _).setTask r _).table q)
      rw [setTask_of_ne other]
      exact tidy q
    · change ((s.setTask p _).setTask r _).table r = _
      rw [setTask_self, setTask_of_ne away]
  · split_ifs at taken
    · cases taken
      exact .of_plain ⟨rfl, rfl⟩ (tidy q)
    · cases taken
      rw [setTask_setTask]
      refine .of_plain ⟨rfl, rfl⟩ (stays_sched ((s.setTask p _).setActivity p _) on running ?_
        (fun q away => .of_eq (setTask_of_ne away)) q)
      change ((s.setTask p _).table p).state.vacant = false
      rw [setTask_self]
      rfl

end Actions

end Sched

section Slots

variable (q : Fin nproc)

theorem slot_resume (taken : s.resume p = some s') : SlotStep ⟨s, .run c .resume, s'⟩ q := by
  unfold resume at taken
  split_ifs at taken
  cases taken
  refine .of_plain ⟨rfl, rfl⟩ (stays_setTask (s := s) ?_ q)
  exact .same rfl rfl rfl rfl

theorem slot_fork (taken : s.fork p = some s') : SlotStep ⟨s, .run c .fork, s'⟩ q := by
  unfold fork at taken
  split_ifs at taken
  split at taken
  · cases taken
    exact .of_plain ⟨rfl, rfl⟩ (.refl _)
  · next np found =>
    cases taken
    exact .of_others (r := np) ⟨rfl, rfl⟩ (fun q away => .of_eq (setTask_of_ne away))
      (.taken ⟨rfl, rfl⟩ (firstSlot_eq_some found) s.nextpid setTask_self) q

/-- An allocation of `fork`, which may fail. -/
theorem slot_allocation {a : Action} {np : Fin nproc} {next : Activity}
    (embryo : (s.table np).state = .embryo) (ok : Bool) (a_eq : a = .kalloc ok ∨ a = .copyuvm ok) :
    SlotStep ⟨s, .run c a, if ok then s.setActivity p next else s.fail p np⟩ q := by
  have plain (s' : Kernel κ) : Plain ⟨s, .run c a, s'⟩ := by
    rcases a_eq with rfl | rfl <;> exact ⟨rfl, rfl⟩
  cases ok with
  | false =>
    refine SlotStep.of_others (r := np) (plain _) (fun q away => ?_)
      (.released (plain _) embryo ?_) q
    · exact .of_eq (setTask_of_ne (s := s) away)
    · exact setTask_self (s := s)
  | true => exact .of_plain (plain _) (.refl _)

theorem slot_kalloc {ok : Bool} (control : Control s) (taken : s.kalloc p ok = some s') :
    SlotStep ⟨s, .run c (.kalloc ok), s'⟩ q := by
  unfold kalloc at taken
  split at taken
  · next np at_ =>
    cases taken
    exact slot_allocation q (control.slot p np (by rw [at_]; rfl)) ok (.inl rfl)
  · cases taken

theorem slot_copyuvm {ok : Bool} (control : Control s) (taken : s.copyuvm p ok = some s') :
    SlotStep ⟨s, .run c (.copyuvm ok), s'⟩ q := by
  unfold copyuvm at taken
  split at taken
  · next np at_ =>
    cases taken
    exact slot_allocation q (control.slot p np (by rw [at_]; rfl)) ok (.inr rfl)
  · cases taken

theorem slot_inherit (taken : s.inherit p = some s') : SlotStep ⟨s, .run c .inherit, s'⟩ q := by
  unfold inherit at taken
  split at taken
  · cases taken
    refine .of_plain ⟨rfl, rfl⟩ (stays_setTask (s := s) ?_ q)
    exact .same rfl rfl rfl rfl
  · cases taken

theorem slot_adopt (taken : s.adopt p = some s') : SlotStep ⟨s, .run c .adopt, s'⟩ q := by
  unfold adopt at taken
  split at taken
  · cases taken
    refine .of_plain ⟨rfl, rfl⟩ (stays_setTask (s := s) ?_ q)
    exact .same rfl rfl rfl rfl
  · cases taken

theorem slot_publish (control : Control s) (on : s.running c = some p)
    (taken : s.publish p = some s') : SlotStep ⟨s, .run c .publish, s'⟩ q := by
  unfold publish at taken
  split at taken
  · next np at_ =>
    split_ifs at taken
    cases taken
    have start (s' : Kernel κ) : started ⟨s, .run c .publish, s'⟩ = some np := by
      simp [started, on, at_]
    refine forall_slot (p := np) (fun q away => ?_)
      (.starts rfl (start _) (control.slot p np (by rw [at_]; rfl)) setTask_self) q
    refine .stays (by simp [earlyKill]) ?_ (.of_eq (setTask_of_ne away))
    rw [start]
    simpa using away.symm
  · cases taken

theorem slot_kill {pid : Int32} (taken : s.kill p pid = some s') :
    SlotStep ⟨s, .run c (.kill pid), s'⟩ q := by
  unfold kill at taken
  split_ifs at taken
  split at taken
  · next r found =>
    cases taken
    have mark (s' : Kernel κ) : earlyKill ⟨s, .run c (.kill pid), s'⟩ =
        (some r).filter fun q => (s.table q).state.vacant := by
      simp only [earlyKill, found]
    refine forall_slot (p := r) (fun q away => ?_) ?_ q
    · refine .stays ?_ (by simp [started]) (.of_eq (setTask_of_ne away))
      rw [mark, Option.filter_some]
      split_ifs
      · simpa using away.symm
      · simp
    · by_cases vacant : (s.table r).state.vacant
      · refine .marked (by rw [mark]; simp [vacant]) rfl vacant ?_
        have awake : (s.table r).state ≠ .sleeping := by
          intro asleep
          rw [asleep] at vacant
          cases vacant
        change (s.setTask r _).table r = _
        rw [setTask_self, if_neg awake]
      · refine .stays (by rw [mark]; simp [vacant]) (by simp [started]) (.process ?_ ?_)
        · simpa using vacant
        · change ((s.setTask r _).table r).state.vacant = false
          rw [setTask_self]
          dsimp only
          split_ifs
          · rfl
          · simpa using vacant
  · next none =>
    cases taken
    exact .of_plain ⟨by simp [earlyKill, none], rfl⟩ (.refl _)

theorem slot_setPrio {n : ℤ} (running : (s.table p).state = .running)
    (taken : s.setPrio p n = some s') : SlotStep ⟨s, .run c (.setPrio n), s'⟩ q := by
  unfold setPrio at taken
  split_ifs at taken
  cases taken
  have process := process_of_running running
  refine .of_plain ⟨rfl, rfl⟩ (stays_setTask (s := s) ?_ q)
  exact .process process process

theorem slot_resize {sz : UInt32} (taken : s.resize p sz = some s') :
    SlotStep ⟨s, .run c (.resize sz), s'⟩ q := by
  unfold resize at taken
  split_ifs at taken
  cases taken
  refine .of_plain ⟨rfl, rfl⟩ (stays_setTask (s := s) ?_ q)
  exact .same rfl rfl rfl rfl

end Slots

theorem Step.slot [DecidableEq κ] {a : KernelLabel κ} (control : Control s) (taken : Step s a s')
    (q : Fin nproc) : SlotStep ⟨s, a, s'⟩ q := by
  cases a with
  | schedule c =>
    obtain ⟨idle, lock, rfl⟩ := scheduler_eq_some taken
    exact .of_plain ⟨rfl, rfl⟩ (stays_schedule idle q)
  | wakeup chan =>
    obtain rfl := wakeup_eq_some taken
    exact .of_plain ⟨rfl, rfl⟩ (wakeup1_stays ..)
  | run c a =>
    obtain ⟨p, on, acts⟩ := Option.bind_eq_some_iff.1 taken
    have running := control.running c p on
    cases a with
    | yield => exact slot_yield running on q acts
    | sleep chan => exact slot_sleep running on q acts
    | resume => exact slot_resume q acts
    | fork => exact slot_fork q acts
    | kalloc ok => exact slot_kalloc q control acts
    | copyuvm ok => exact slot_copyuvm q control acts
    | inherit => exact slot_inherit q acts
    | adopt => exact slot_adopt q acts
    | publish => exact slot_publish q control on acts
    | exit => exact slot_exit running on q acts
    | wait => exact slot_wait running on q acts
    | kill pid => exact slot_kill q acts
    | setPrio n => exact slot_setPrio q running acts
    | resize sz => exact slot_resize q acts

end Kernel

/-! ## Runs -/

section Slots

variable {κ : Type} {e : Event (Kernel κ) (KernelLabel κ)} {q : Fin nproc}

/-- No switches and the default priority in a slot that is being filled. -/
def Task.Zeroed (t : Task) : Prop := t.state = .embryo → t.switchCnt = 0 ∧ t.priority = 0

theorem SlotStep.zeroed (step : SlotStep e q) (before : (e.before.table q).Zeroed) :
    (e.after.table q).Zeroed := by
  intro embryo
  cases step with
  | stays unmarked old slot =>
    cases slot with
    | same state switchCnt priority killed =>
      rw [switchCnt, priority]
      exact before (state.symm.trans embryo)
    | process _ after =>
      rw [embryo] at after
      cases after
  | taken plain free pid self =>
    rw [self]
    exact ⟨rfl, rfl⟩
  | marked mark old vacant self =>
    rw [self] at embryo ⊢
    exact before embryo
  | released plain _ self | starts unmarked start _ self | cleared plain zombie self =>
    rw [self] at embryo
    cases embryo

/-- A `kill` of a slot has been too early for the process that is started in it next. -/
def Task.Doomed (t : Task) : Prop := t.state.vacant ∧ t.killed

/-- A slot is doomed by a `kill` that is too early, until its process is started. -/
theorem SlotStep.doomed_iff (step : SlotStep e q)
    (clean : started e = some q → ¬ (e.before.table q).Doomed) :
    (e.after.table q).Doomed ↔ (e.before.table q).Doomed ∨ earlyKill e = some q := by
  unfold Task.Doomed at *
  cases step with
  | stays unmarked old slot =>
    rw [or_iff_left unmarked]
    cases slot with
    | same state switchCnt priority killed => rw [state, killed]
    | process before after => simp [before, after]
  | taken plain free pid self =>
    rw [self, free, plain.1]
    simp [Task.embryo, ProcState.vacant]
  | released plain embryo self =>
    rw [self, embryo, plain.1]
    simp [ProcState.vacant]
  | starts unmarked start embryo self =>
    rw [or_iff_left (by simp [unmarked])]
    refine iff_of_false ?_ (clean start)
    rw [self]
    simp [ProcState.vacant]
  | marked mark old vacant self =>
    refine iff_of_true ?_ (.inr mark)
    rw [self]
    exact ⟨vacant, rfl⟩
  | cleared plain zombie self =>
    rw [self, zombie, plain.1]
    simp [Task.reaped, ProcState.vacant]

/-- A process starts fresh exactly when its slot is not doomed. -/
theorem SlotStep.fresh_iff (step : SlotStep e q) (zeroed : (e.before.table q).Zeroed)
    (start : started e = some q) : (e.after.table q).Fresh ↔ ¬ (e.before.table q).Doomed := by
  cases step with
  | stays unmarked old slot => exact absurd start old
  | starts unmarked _ embryo self =>
    obtain ⟨switchCnt, priority⟩ := zeroed embryo
    have vacant : (e.before.table q).state.vacant := by
      rw [embryo]
      rfl
    rw [self]
    constructor
    · rintro fresh ⟨-, killed⟩
      cases fresh.killed.symm.trans killed
    · intro clean
      exact ⟨switchCnt, priority, Bool.eq_false_iff.2 fun killed => clean ⟨vacant, killed⟩⟩
  | marked mark old vacant self =>
    rw [old] at start
    cases start
  | taken plain _ _ _ | released plain _ _ | cleared plain _ _ =>
    rw [plain.2] at start
    cases start

end Slots

variable {κ : Type}

/-- The slots that are doomed after a history are those that it has marked too early. -/
structure Doom (l : List (Event (Kernel κ) (KernelLabel κ))) (s : Kernel κ) : Prop where
  control : Control s
  zeroed : ∀ q, (s.table q).Zeroed
  doomed : ∀ q, (s.table q).Doomed ↔ ∃ e ∈ l, earlyKill e = some q

theorem doom_boot : Doom [] (Kernel.boot : Kernel κ) where
  control := control_boot
  zeroed q embryo := by
    obtain ⟨-, runnable, -⟩ | ⟨-, zero⟩ := boot_cases (κ := κ) q
    · cases runnable.symm.trans embryo
    · rw [zero]
      exact ⟨rfl, rfl⟩
  doomed q := by
    refine iff_of_false ?_ (by simp)
    rintro ⟨vacant, killed⟩
    obtain ⟨-, runnable, -⟩ | ⟨-, zero⟩ := boot_cases (κ := κ) q
    · rw [runnable] at vacant
      cases vacant
    · rw [zero] at killed
      cases killed

/-- The second step does not start a process in a slot that the first marks too early. -/
def Spares (e e' : Event (Kernel κ) (KernelLabel κ)) : Prop :=
  ∀ q, earlyKill e = some q → started e' ≠ some q

instance (e e' : Event (Kernel κ) (KernelLabel κ)) : Decidable (Spares e e') :=
  decidable_of_iff ((earlyKill e).all fun q => started e' ≠ some q) <| by
    cases mark : earlyKill e <;> simp [Spares, mark]

variable {l : List (Event (Kernel κ) (KernelLabel κ))} {s s' : Kernel κ} {a : KernelLabel κ}

/-- The steps before a start spare its slot exactly when the slot is not doomed. -/
theorem Doom.spares_iff (doom : Doom l s) :
    (∀ e ∈ l, Spares e ⟨s, a, s'⟩) ↔
      ∀ q, started ⟨s, a, s'⟩ = some q → ¬ (s.table q).Doomed := by
  simp only [doom.doomed]
  constructor
  · rintro spares q start ⟨e, mem, mark⟩
    exact spares e mem q mark start
  · intro clean e mem q mark start
    exact clean q start ⟨e, mem, mark⟩

theorem Doom.step [DecidableEq κ] (doom : Doom l s) (taken : Kernel.Step s a s')
    (spares : ∀ e ∈ l, Spares e ⟨s, a, s'⟩) : Doom (l ++ [⟨s, a, s'⟩]) s' where
  control := doom.control.effect taken.effect
  zeroed q := (taken.slot doom.control q).zeroed (doom.zeroed q)
  doomed q := by
    have here := (taken.slot doom.control q).doomed_iff (doom.spares_iff.1 spares q)
    rw [here, doom.doomed]
    simp [or_and_right, exists_or]

/-- Along every run, on any CPUs, each `fork` that succeeds starts its child with no switches, the
default priority and not killed exactly if no `kill` marks a slot, before a process is started in
it, in which a process is started later. -/
theorem fresh_iff_spares [DecidableEq κ] (run : Run Kernel.Step .boot l s) :
    (∀ e ∈ l, ∀ np, started e = some np → (e.after.table np).Fresh) ↔ l.Pairwise Spares := by
  refine run.forall_iff_pairwise (I := Doom) doom_boot (fun l x a y => Doom.step) ?_
  intro l x a y doom taken
  rw [doom.spares_iff]
  refine forall₂_congr fun q start => ?_
  exact (taken.slot doom.control q).fresh_iff (doom.zeroed q) start

/-- A child is killed, exits and is waited for, and the next child gets its slot. -/
theorem fresh_iff_spares_reused :
    ∃ l s, Run Kernel.Step (.boot : Kernel Unit) l s ∧
      l.filterMap started = [⟨1, by decide⟩, ⟨1, by decide⟩] ∧
      ∀ e ∈ l, ∀ np, started e = some np → (e.after.table np).Fresh := by
  obtain ⟨l, s, run, children, spares⟩ := exists_run_of_replay Kernel.step .boot
    (firstDispatch ++ forkActions ++
      [.run () (.kill 2), .run () .yield, .schedule (), .run () .exit] ++
        List.replicate 68 (.schedule ()) ++ [.run () .wait] ++ forkActions)
    (P := fun r => r.1.filterMap started = [⟨1, by decide⟩, ⟨1, by decide⟩] ∧ r.1.Pairwise Spares)
    (by decide +kernel)
  exact ⟨l, s, run, children, (fresh_iff_spares run).2 spares⟩

/-- `kill(0)` finds the first slot that is not in use, and the next child is killed before it
starts. -/
theorem not_fresh_killZero :
    ∃ l s, Run Kernel.Step (.boot : Kernel Unit) l s ∧
      ∃ e ∈ l, ∃ np, started e = some np ∧ ¬ (e.after.table np).Fresh := by
  obtain ⟨l, s, run, e, mem, np, start, killed⟩ := exists_run_of_replay Kernel.step .boot
    (firstDispatch ++ [.run () (.kill 0)] ++ forkActions)
    (P := fun r => ∃ e ∈ r.1, ∃ np, started e = some np ∧ (e.after.table np).killed)
    (by decide +kernel)
  refine ⟨l, s, run, e, mem, np, start, fun fresh => ?_⟩
  cases fresh.killed.symm.trans killed

end SsuOs.Xv6
