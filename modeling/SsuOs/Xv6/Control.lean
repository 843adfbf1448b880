import SsuOs.Xv6.ProcessTable

/-!
# Where processes are

What holds of the slots along every run of the kernel: which processes are on a CPU, which slots are
being filled by a `fork`, and which processes are in the kernel.
-/

namespace SsuOs.Xv6

/-- The states of a process that has not exited. -/
def ProcState.alive : ProcState → Bool
  | .sleeping | .runnable | .running => true
  | _ => false

/-! ## What a step leaves alone -/

section Slots

variable {t t' : Task}

/-- The process in a slot lives on, or the state of the slot is the same. -/
def Persists (t t' : Task) : Prop := t'.state = t.state ∨ t.state.alive ∧ t'.state.alive

theorem Persists.alive (persists : Persists t t') : t'.state.alive = t.state.alive := by
  rcases persists with same | ⟨before, after⟩
  · rw [same]
  · rw [before, after]

/-- A slot without a living process keeps its state, and no slot comes to have such a state. -/
theorem Persists.state_iff {x : ProcState} (persists : Persists t t') (dead : x.alive = false) :
    t'.state = x ↔ t.state = x := by
  rcases persists with same | ⟨before, after⟩
  · rw [same]
  · constructor
    · rintro rfl
      rw [dead] at after
      cases after
    · rintro rfl
      rw [dead] at before
      cases before

theorem Woken.of_eq (same : t' = t) : Woken t t' := by
  rw [same]
  exact .refl t

theorem Woken.persists (woken : Woken t t') : Persists t t' := by
  rcases woken.state with same | ⟨asleep, awake⟩
  · exact .inl same
  · rw [Persists, asleep, awake]
    exact .inr ⟨rfl, rfl⟩

theorem Woken.running (woken : Woken t t') (running : t.state = .running) : t'.state = .running := by
  rcases woken.state with same | ⟨asleep, -⟩
  · rw [same, running]
  · rw [running] at asleep
    cases asleep

theorem alive_of_running (running : t.state = .running) : t.state.alive := by
  rw [running]
  rfl

theorem dead_of_state {x : ProcState} (state : t.state = x) (dead : x.alive = false) :
    t.state.alive = false := by
  rw [state, dead]

end Slots

namespace Activity

variable {x x' : Activity} {np : Fin nproc}

theorem slot_of_early (early : x.early = some np) : x.slot = some np := by
  cases x <;> simp_all [Activity.early, Activity.slot]

theorem of_slot_eq_none (outside : x.slot = none) : x.early = none ∧ ∀ np, x ≠ .publish np := by
  cases x <;> simp_all [Activity.early, Activity.slot]

theorem ne_publish_of_early (early : x.early = some np) (np' : Fin nproc) : x ≠ .publish np' := by
  cases x <;> simp_all [Activity.early]

/-- The `fork` that a process is in, if it is in one, has as much done as before. -/
structure SameFork (x x' : Activity) : Prop where
  early : x'.early = x.early
  publish : ∀ np, x' = .publish np ↔ x = .publish np
  slot : x'.slot = x.slot

namespace SameFork

theorem of_eq (same : x' = x) : SameFork x x' := by
  rw [same]
  exact ⟨rfl, fun _ => Iff.rfl, rfl⟩

theorem outside (before : x.slot = none) (after : x'.slot = none) : SameFork x x' := by
  obtain ⟨early, publish⟩ := of_slot_eq_none before
  obtain ⟨early', publish'⟩ := of_slot_eq_none after
  exact ⟨early'.trans early.symm, fun np => iff_of_false (publish' np) (publish np),
    after.trans before.symm⟩

theorem within (before : x.early = some np) (after : x'.early = some np) : SameFork x x' where
  early := after.trans before.symm
  publish np' := iff_of_false (ne_publish_of_early after np') (ne_publish_of_early before np')
  slot := (slot_of_early after).trans (slot_of_early before).symm

theorem of_calm (calm : x' = x ∨ x.slot = none ∧ x' = .user) : SameFork x x' := by
  rcases calm with same | ⟨before, after⟩
  · exact of_eq same
  · exact outside before (by rw [after]; rfl)

end SameFork

end Activity

/-! ## Processes, CPUs and slots -/

/-- A process on a CPU is running, on no other CPU; `fork` fills a slot of its own that is not a
process yet; and a process that is in the kernel has not exited. -/
structure Control {κ : Type} (s : Kernel κ) : Prop where
  running : ∀ c p, s.running c = some p → (s.table p).state = .running
  apart : ∀ c c' p, s.running c = some p → s.running c' = some p → c = c'
  slot : ∀ p np, (s.activity p).slot = some np → (s.table np).state = .embryo
  own : ∀ p p' np, (s.activity p).slot = some np → (s.activity p').slot = some np → p = p'
  filled : ∀ np, (s.table np).state = .embryo → ∃ p, (s.activity p).slot = some np
  busy : ∀ p, s.activity p ≠ .user → (s.table p).state.alive

variable {κ : Type} {s s' : Kernel κ}

theorem forall_slot {P : Fin nproc → Prop} {p : Fin nproc} (others : ∀ q ≠ p, P q) (self : P p)
    (q : Fin nproc) : P q := by
  by_cases here : q = p
  · rw [here]
    exact self
  · exact others q here

section Others

variable {r : Fin nproc} (others : ∀ q ≠ r, Woken (s.table q) (s'.table q))
  (dead : (s.table r).state.alive = false)

include others dead

/-- A step ends no process if the one slot that it changes does not hold a living process. -/
theorem alive_of_others (q : Fin nproc) (alive : (s.table q).state.alive) :
    (s'.table q).state.alive := by
  have away : q ≠ r := by
    rintro rfl
    rw [dead] at alive
    cases alive
  rwa [(others q away).persists.alive]

theorem running_of_others (q : Fin nproc) (running : (s.table q).state = .running) :
    (s'.table q).state = .running := by
  have away : q ≠ r := by
    rintro rfl
    rw [running] at dead
    cases dead
  exact (others q away).running running

end Others

/-! ### Processes on CPUs -/

/-- A process on a CPU is running, on no other CPU. -/
structure Placed (s : Kernel κ) : Prop where
  running : ∀ c p, s.running c = some p → (s.table p).state = .running
  apart : ∀ c c' p, s.running c = some p → s.running c' = some p → c = c'

theorem Control.placed (control : Control s) : Placed s := ⟨control.running, control.apart⟩

theorem Placed.stay (placed : Placed s) (running : ∀ c, s'.running c = s.running c)
    (states : ∀ q, (s.table q).state = .running → (s'.table q).state = .running) : Placed s' where
  running c p on := by
    rw [running] at on
    exact states p (placed.running c p on)
  apart c c' p on on' := by
    rw [running] at on on'
    exact placed.apart c c' p on on'

section Move

variable [DecidableEq κ] {c : κ} {p : Fin nproc}

/-- A process that is not running yet gets a CPU. -/
theorem Placed.enter (placed : Placed s) (ready : (s.table p).state ≠ .running)
    (others : ∀ q ≠ p, s'.table q = s.table q) (state : (s'.table p).state = .running)
    (running : ∀ c', s'.running c' = if c' = c then some p else s.running c') : Placed s' where
  running c' q on := by
    by_cases here : q = p
    · rw [here]
      exact state
    · rw [running] at on
      split_ifs at on
      · exact absurd (Option.some.inj on).symm here
      · rw [others q here]
        exact placed.running c' q on
  apart c₁ c₂ q on on' := by
    rw [running] at on on'
    split_ifs at on on' with first second second
    · rw [first, second]
    · cases on
      exact absurd (placed.running c₂ p on') ready
    · cases on'
      exact absurd (placed.running c₁ p on) ready
    · exact placed.apart c₁ c₂ q on on'

/-- A process gives up its CPU. -/
theorem Placed.leave (placed : Placed s) (on : s.running c = some p)
    (others : ∀ q ≠ p, (s.table q).state = .running → (s'.table q).state = .running)
    (running : ∀ c', s'.running c' = if c' = c then none else s.running c') : Placed s' where
  running c' q on' := by
    rw [running] at on'
    split_ifs at on' with here
    have away : q ≠ p := by
      rintro rfl
      exact here (placed.apart c' c q on' on)
    exact others q away (placed.running c' q on')
  apart c₁ c₂ q on₁ on₂ := by
    rw [running] at on₁ on₂
    split_ifs at on₁ on₂
    exact placed.apart c₁ c₂ q on₁ on₂

end Move

/-! ### Slots that are being filled -/

/-- `fork` fills a slot of its own that is not a process yet. -/
structure Filling (s : Kernel κ) : Prop where
  slot : ∀ p np, (s.activity p).slot = some np → (s.table np).state = .embryo
  own : ∀ p p' np, (s.activity p).slot = some np → (s.activity p').slot = some np → p = p'
  filled : ∀ np, (s.table np).state = .embryo → ∃ p, (s.activity p).slot = some np

theorem Control.filling (control : Control s) : Filling s :=
  ⟨control.slot, control.own, control.filled⟩

theorem Filling.stay (filling : Filling s)
    (slots : ∀ q, (s'.activity q).slot = (s.activity q).slot)
    (embryo : ∀ q, (s'.table q).state = .embryo ↔ (s.table q).state = .embryo) : Filling s' where
  slot p np := by
    rw [slots, embryo]
    exact filling.slot p np
  own p p' np := by
    rw [slots, slots]
    exact filling.own p p' np
  filled np fills := by
    obtain ⟨p, owner⟩ := filling.filled np ((embryo np).1 fills)
    exact ⟨p, (slots p).trans owner⟩

section Fork

variable {p np : Fin nproc} (filling : Filling s) (others : ∀ q ≠ np, s'.table q = s.table q)
  (activities : ∀ q ≠ p, s'.activity q = s.activity q)

include filling others activities

theorem Filling.take (outside : (s.activity p).slot = none) (free : (s.table np).state ≠ .embryo)
    (taken : (s'.activity p).slot = some np) (embryo : (s'.table np).state = .embryo) :
    Filling s' := by
  have earlier {q r : Fin nproc} (away : q ≠ p) (owner : (s'.activity q).slot = some r) :
      (s.activity q).slot = some r ∧ r ≠ np := by
    rw [activities q away] at owner
    refine ⟨owner, ?_⟩
    rintro rfl
    exact free (filling.slot q r owner)
  have target {r : Fin nproc} (owner : (s'.activity p).slot = some r) : r = np :=
    Option.some.inj (owner.symm.trans taken)
  constructor
  · intro q r owner
    by_cases here : q = p
    · subst here
      rw [target owner]
      exact embryo
    · obtain ⟨owner, away⟩ := earlier here owner
      rw [others r away]
      exact filling.slot q r owner
  · intro q q' r owner owner'
    by_cases here : q = p <;> by_cases there : q' = p
    · rw [here, there]
    · subst here
      exact absurd (target owner) (earlier there owner').2
    · subst there
      exact absurd (target owner') (earlier here owner).2
    · exact filling.own q q' r (earlier here owner).1 (earlier there owner').1
  · intro r fills
    by_cases new : r = np
    · exact ⟨p, by rw [taken, new]⟩
    · rw [others r new] at fills
      obtain ⟨q, owner⟩ := filling.filled r fills
      have away : q ≠ p := by
        rintro rfl
        rw [outside] at owner
        cases owner
      exact ⟨q, by rwa [activities q away]⟩

theorem Filling.release (stage : (s.activity p).slot = some np)
    (outside : (s'.activity p).slot = none) (gone : (s'.table np).state ≠ .embryo) :
    Filling s' := by
  have earlier {q r : Fin nproc} (owner : (s'.activity q).slot = some r) :
      (s.activity q).slot = some r ∧ r ≠ np := by
    have away : q ≠ p := by
      rintro rfl
      rw [outside] at owner
      cases owner
    rw [activities q away] at owner
    refine ⟨owner, ?_⟩
    rintro rfl
    exact away (filling.own q p r owner stage)
  constructor
  · intro q r owner
    obtain ⟨owner, away⟩ := earlier owner
    rw [others r away]
    exact filling.slot q r owner
  · intro q q' r owner owner'
    exact filling.own q q' r (earlier owner).1 (earlier owner').1
  · intro r fills
    have away : r ≠ np := by
      rintro rfl
      exact gone fills
    rw [others r away] at fills
    obtain ⟨q, owner⟩ := filling.filled r fills
    have kept : q ≠ p := by
      rintro rfl
      exact away (Option.some.inj (owner.symm.trans stage))
    exact ⟨q, by rwa [activities q kept]⟩

end Fork

/-! ### Processes in the kernel -/

/-- A process is in the kernel after the step only if it was before or is on a CPU. -/
def Enters (s s' : Kernel κ) : Prop :=
  ∀ q, s'.activity q ≠ .user → s.activity q ≠ .user ∨ ∃ c, s.running c = some q

theorem enters_of_eq (activity : ∀ q, s'.activity q = s.activity q) : Enters s s' := by
  intro q busy
  rw [activity] at busy
  exact .inl busy

theorem enters_of_calm (activity : ∀ q, s'.activity q = s.activity q ∨
    ((s.activity q).slot = none ∧ s'.activity q = .user)) : Enters s s' := by
  intro q busy
  rcases activity q with same | ⟨-, user⟩
  · rw [same] at busy
    exact .inl busy
  · exact absurd user busy

theorem enters_of_others {c : κ} {p : Fin nproc} (on : s.running c = some p)
    (activities : ∀ q ≠ p, s'.activity q = s.activity q) : Enters s s' := by
  intro q busy
  by_cases here : q = p
  · rw [here]
    exact .inr ⟨c, on⟩
  · rw [activities q here] at busy
    exact .inl busy

theorem Control.of_parts (control : Control s) (placed : Placed s') (filling : Filling s')
    (enters : Enters s s')
    (alive : ∀ q, s'.activity q ≠ .user → (s.table q).state.alive → (s'.table q).state.alive) :
    Control s' where
  running := placed.running
  apart := placed.apart
  slot := filling.slot
  own := filling.own
  filled := filling.filled
  busy q busy := by
    refine alive q busy ?_
    rcases enters q busy with before | ⟨c, on⟩
    · exact control.busy q before
    · exact alive_of_running (control.running c q on)

/-! ## The boot -/

theorem boot_cases (q : Fin nproc) :
    (q = (Kernel.boot : Kernel κ).initproc ∧ ((Kernel.boot : Kernel κ).table q).state = .runnable ∧
      ((Kernel.boot : Kernel κ).table q).pid = 1 ∧ ((Kernel.boot : Kernel κ).table q).switchCnt = 0 ∧
      ((Kernel.boot : Kernel κ).table q).parent = none ∧
      ((Kernel.boot : Kernel κ).table q).sz = Kernel.pgsize) ∨
    (q ≠ (Kernel.boot : Kernel κ).initproc ∧ (Kernel.boot : Kernel κ).table q = .zero) := by
  by_cases here : q = (Kernel.boot : Kernel κ).initproc
  · subst here
    exact .inl ⟨rfl, rfl, rfl, rfl, rfl, rfl⟩
  · have away : q ≠ ⟨0, by decide⟩ := here
    exact .inr ⟨here, Function.update_of_ne away _ fun _ => Task.zero⟩

theorem control_boot : Control (Kernel.boot : Kernel κ) where
  running c p on := by cases on
  apart c c' p on := by cases on
  slot p np taken := by cases taken
  own p p' np taken := by cases taken
  filled np embryo := by
    rcases boot_cases np with ⟨-, runnable, -⟩ | ⟨-, zero⟩
    · cases runnable.symm.trans embryo
    · rw [zero] at embryo
      cases embryo
  busy p other := absurd rfl other

/-! ## Steps -/

open Activity (SameFork)

section Slots

variable {p : Fin nproc}

theorem persists_dispatch (ready : (s.table p).state = .runnable)
    (others : ∀ q ≠ p, s'.table q = s.table q)
    (self : s'.table p = { s.table p with state := .running }) :
    ∀ q, Persists (s.table q) (s'.table q) := by
  refine forall_slot (fun q away => (Woken.of_eq (others q away)).persists) ?_
  rw [self, Persists, ready]
  exact .inr ⟨rfl, rfl⟩

theorem persists_leave (running : (s.table p).state = .running)
    (others : ∀ q ≠ p, s'.table q = s.table q)
    (state : (s'.table p).state = .runnable ∨ (s'.table p).state = .sleeping) :
    ∀ q, Persists (s.table q) (s'.table q) := by
  refine forall_slot (fun q away => (Woken.of_eq (others q away)).persists)
    (.inr ⟨alive_of_running running, ?_⟩)
  rcases state with runnable | sleeping
  · rw [runnable]
    rfl
  · rw [sleeping]
    rfl

theorem sameFork_leave (activities : ∀ q ≠ p, s'.activity q = s.activity q)
    (activity : s'.activity p = s.activity p ∨
      ((s.activity p).slot = none ∧ (s'.activity p).slot = none)) :
    ∀ q, SameFork (s.activity q) (s'.activity q) := by
  refine forall_slot (fun q away => .of_eq (activities q away)) ?_
  rcases activity with same | ⟨before, after⟩
  · exact .of_eq same
  · exact .outside before after

end Slots

variable [DecidableEq κ] {a : KernelLabel κ}

theorem Control.effect (control : Control s) (effect : Effect s a s') : Control s' := by
  have placed := control.placed
  have filling := control.filling
  cases effect with
  | calm seen tasks nextpid activity running =>
    refine control.of_parts (placed.stay running fun q => (tasks q).running)
      (filling.stay (fun q => (SameFork.of_calm (activity q)).slot) fun q => ?_)
      (enters_of_calm activity) fun q _ alive => ?_
    · exact (tasks q).persists.state_iff rfl
    · rwa [(tasks q).persists.alive]
  | dispatch c p seen ready others self nextpid activity running =>
    have persists := persists_dispatch ready others self
    refine control.of_parts (placed.enter (by simp [ready]) others (by rw [self]) running)
      (filling.stay (fun q => by rw [activity]) fun q => (persists q).state_iff rfl)
      (enters_of_eq activity) fun q _ alive => ?_
    rwa [(persists q).alive]
  | leave c p seen on others pid parent switchCnt state nextpid activities activity running =>
    have persists := persists_leave (control.running c p on) others state
    refine control.of_parts (placed.leave on (fun q away => (Woken.of_eq (others q away)).running) running)
      (filling.stay (fun q => (sameFork_leave activities activity q).slot) fun q => ?_)
      (enters_of_others on activities) fun q _ alive => ?_
    · exact (persists q).state_iff rfl
    · rwa [(persists q).alive]
  | exit c p seen on user other others parent pid switchCnt state nextpid activity running =>
    have embryo : ∀ q, (s'.table q).state = .embryo ↔ (s.table q).state = .embryo :=
      forall_slot (fun q away => (others q away).persists.state_iff rfl)
        (by simp [control.running c p on, state])
    refine control.of_parts (placed.leave on (fun q away => (others q away).running) running)
      (filling.stay (fun q => by rw [activity]) embryo) (enters_of_eq activity) fun q busy alive => ?_
    have away : q ≠ p := by
      rintro rfl
      rw [activity, user] at busy
      exact busy rfl
    rwa [(others q away).persists.alive]
  | reap r seen zombie others state pid parent nextpid activity running =>
    have woken q (away : q ≠ r) := (others q away).toWoken
    have dead := dead_of_state zombie rfl
    have embryo : ∀ q, (s'.table q).state = .embryo ↔ (s.table q).state = .embryo :=
      forall_slot (fun q away => (woken q away).persists.state_iff rfl) (by simp [zombie, state])
    exact control.of_parts (placed.stay running (running_of_others woken dead))
      (filling.stay (fun q => (SameFork.of_calm (activity q)).slot) embryo)
      (enters_of_calm activity) fun q _ => alive_of_others woken dead q
  | advance c p np seen on stage tasks nextpid activities activity running =>
    refine control.of_parts (placed.stay running fun q => (tasks q).running)
      (filling.stay (forall_slot (fun q away => by rw [activities q away])
        (SameFork.within stage activity).slot) fun q => (tasks q).persists.state_iff rfl)
      (enters_of_others on activities) fun q _ alive => ?_
    rwa [(tasks q).persists.alive]
  | adopt c p np seen on stage others self nextpid activities activity running =>
    have woken : ∀ q, Woken (s.table q) (s'.table q) :=
      forall_slot (fun q away => .of_eq (others q away)) (by rw [self]; exact ⟨rfl, rfl, .inl rfl⟩)
    have stays : (s'.activity p).slot = (s.activity p).slot := by
      rw [activity, Activity.slot_of_early stage]
      rfl
    refine control.of_parts (placed.stay running fun q => (woken q).running)
      (filling.stay (forall_slot (fun q away => by rw [activities q away]) stays)
        fun q => (woken q).persists.state_iff rfl)
      (enters_of_others on activities) fun q _ alive => ?_
    rwa [(woken q).persists.alive]
  | alloc c p np seen on user free others self nextpid activities activity running =>
    have woken q (away : q ≠ np) := Woken.of_eq (others q away)
    have dead := dead_of_state free rfl
    exact control.of_parts (placed.stay running (running_of_others woken dead))
      (filling.take others activities (by rw [user]; rfl) (by simp [free]) (by rw [activity]; rfl)
        (by rw [self]; rfl))
      (enters_of_others on activities) fun q _ => alive_of_others woken dead q
  | fail c p np seen on stage others self nextpid activities activity running =>
    have stage := Activity.slot_of_early stage
    have woken q (away : q ≠ np) := Woken.of_eq (others q away)
    have dead := dead_of_state (control.slot p np stage) rfl
    exact control.of_parts (placed.stay running (running_of_others woken dead))
      (filling.release others activities stage (by rw [activity]; rfl) (by simp [self]))
      (enters_of_others on activities) fun q _ => alive_of_others woken dead q
  | publish c p np seen on stage others self nextpid activities activity running =>
    have stage : (s.activity p).slot = some np := by rw [stage]; rfl
    have woken q (away : q ≠ np) := Woken.of_eq (others q away)
    have dead := dead_of_state (control.slot p np stage) rfl
    exact control.of_parts (placed.stay running (running_of_others woken dead))
      (filling.release others activities stage (by rw [activity]; rfl) (by simp [self]))
      (enters_of_others on activities) fun q _ => alive_of_others woken dead q

/-! ## One CPU -/

/-- The steps of the only CPU up to the dispatch of `init`. -/
def firstDispatch : List (KernelLabel Unit) := List.replicate 4 (.schedule ())

def forkActions : List (KernelLabel Unit) :=
  [.fork, .kalloc true, .copyuvm true, .inherit, .adopt, .publish].map (.run ())

end SsuOs.Xv6
