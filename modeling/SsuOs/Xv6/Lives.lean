import SsuOs.Xv6.Control

/-!
# The lives of processes

What the history of a run tells of the process in a slot: who is its parent, and how often it has
given up its CPU since its slot was taken.
-/

namespace SsuOs.Xv6

/-! ## Histories -/

variable {κ : Type} {s s' : Kernel κ}

/-- What a history tells of the process in a slot: the slot of the process that forked it, whether
that process has exited, and how often this process was back in a scheduler. -/
structure Life where
  forker : Fin nproc
  orphaned : Bool
  returned : ℕ
  deriving Inhabited

/-- The slot of the parent: `init` is the parent of the children of a process that has exited. -/
def Life.parent (life : Life) (init : Fin nproc) : Fin nproc :=
  if life.orphaned then init else life.forker

/-- The life of the process in slot `q` after an observation. -/
def Observation.record (q : Fin nproc) (life : Life) : Observation → Life
  | .nothing | .failed _ | .reaped _ => life
  | .forked p np => if q = np then ⟨p, false, 0⟩ else life
  | .exited p =>
      { life with
        orphaned := life.orphaned || life.forker = p
        returned := if q = p then life.returned + 1 else life.returned }
  | .left p => if q = p then { life with returned := life.returned + 1 } else life

/-- The lives after the events `l`, from the boot. -/
def lives (l : List (Event (Kernel κ) (KernelLabel κ))) (q : Fin nproc) : Life :=
  l.foldl (fun life e => (observe e).record q life) default

theorem lives_snoc (l : List (Event (Kernel κ) (KernelLabel κ)))
    (e : Event (Kernel κ) (KernelLabel κ)) (q : Fin nproc) :
    lives (l ++ [e]) q = (observe e).record q (lives l q) :=
  List.foldl_append ..

/-- The process `initproc` lives and has pid 1, the parent of a slot is a process that has not
exited, and it is the one that the history tells as soon as `fork` has assigned it. -/
structure Family (s : Kernel κ) (g : Fin nproc → Life) : Prop where
  init : (s.table s.initproc).state.alive ∧ (s.table s.initproc).pid = 1
  parent : ∀ q r, (s.table q).parent = some r → (s.table r).state.alive
  unused : ∀ q, (s.table q).state = .unused → (s.table q).parent = none
  early : ∀ p np, (s.activity p).early = some np → (s.table np).parent = none
  publish : ∀ p np, s.activity p = .publish np → (s.table np).parent = some p
  forking : ∀ p np, (s.activity p).slot = some np → (g np).forker = p ∧ (g np).orphaned = false
  told : ∀ q, q ≠ s.initproc → (s.table q).state.alive ∨ (s.table q).state = .zombie →
    (s.table q).parent = some ((g q).parent s.initproc)

/-- The counter of a process is the number of times that it was back in a scheduler. -/
def Counted (s : Kernel κ) (g : Fin nproc → Life) : Prop :=
  ∀ q, (s.table q).state ≠ .unused → (s.table q).switchCnt = Int32.ofNat (g q).returned

variable {g g' : Fin nproc → Life}

/-- A step that changes no parent, begins no process and ends none. -/
theorem Family.of_same (family : Family s g) (initproc : s'.initproc = s.initproc)
    (pid : (s'.table s.initproc).pid = (s.table s.initproc).pid)
    (parent : ∀ q, (s'.table q).parent = (s.table q).parent)
    (persists : ∀ q, Persists (s.table q) (s'.table q))
    (forks : ∀ q, Activity.SameFork (s.activity q) (s'.activity q))
    (lives : ∀ q, (g' q).forker = (g q).forker ∧ (g' q).orphaned = (g q).orphaned) :
    Family s' g' where
  init := by
    rw [initproc, (persists _).alive, pid]
    exact family.init
  parent q r := by
    rw [parent, (persists r).alive]
    exact family.parent q r
  unused q := by
    rw [parent, (persists q).state_iff rfl]
    exact family.unused q
  early p np := by
    rw [(forks p).early, parent]
    exact family.early p np
  publish p np := by
    rw [(forks p).publish, parent]
    exact family.publish p np
  forking p np := by
    rw [(forks p).slot, (lives np).1, (lives np).2]
    exact family.forking p np
  told q := by
    unfold Life.parent
    rw [initproc, (persists q).alive, (persists q).state_iff rfl, parent, (lives q).1, (lives q).2]
    exact family.told q

theorem Family.initproc_ne (family : Family s g) {q : Fin nproc}
    (dead : (s.table q).state.alive = false) : s.initproc ≠ q := by
  rintro rfl
  rw [family.init.1] at dead
  cases dead

/-! ## The boot -/

theorem family_boot (g : Fin nproc → Life) : Family (Kernel.boot : Kernel κ) g := by
  have orphan (q : Fin nproc) : ((Kernel.boot : Kernel κ).table q).parent = none := by
    rcases boot_cases q with ⟨-, -, -, -, parent, -⟩ | ⟨-, zero⟩
    · exact parent
    · rw [zero]
      rfl
  constructor
  · exact ⟨rfl, rfl⟩
  · intro q r child
    rw [orphan] at child
    cases child
  · exact fun q _ => orphan q
  · intro p np taken
    cases taken
  · intro p np taken
    cases taken
  · intro p np taken
    cases taken
  · intro q other live
    rcases boot_cases q with ⟨here, -⟩ | ⟨-, zero⟩
    · exact absurd here other
    · rw [zero] at live
      simp [Task.zero, ProcState.alive] at live

/-! ## Steps -/

open Activity (SameFork)

/-- The counter of a slot that a step leaves in use, if it counts no return. -/
theorem Counted.stay (counted : Counted s g) {q : Fin nproc}
    (same : (s'.table q).switchCnt = (s.table q).switchCnt)
    (returned : (g' q).returned = (g q).returned) (used : (s.table q).state ≠ .unused) :
    (s'.table q).switchCnt = Int32.ofNat (g' q).returned := by
  rw [same, returned]
  exact counted q used

/-- The counter of a process that is back in a scheduler. -/
theorem Counted.next (counted : Counted s g) {q : Fin nproc}
    (switchCnt : (s'.table q).switchCnt = (s.table q).switchCnt + 1)
    (returned : (g' q).returned = (g q).returned + 1) (used : (s.table q).state ≠ .unused) :
    (s'.table q).switchCnt = Int32.ofNat (g' q).returned := by
  rw [switchCnt, returned, counted q used]
  exact (Int32.ofNat_add ..).symm

theorem Counted.woken (counted : Counted s g) {q : Fin nproc}
    (woken : Woken (s.table q) (s'.table q)) (returned : (g' q).returned = (g q).returned)
    (used : (s'.table q).state ≠ .unused) :
    (s'.table q).switchCnt = Int32.ofNat (g' q).returned :=
  counted.stay woken.switchCnt returned (mt (woken.persists.state_iff rfl).2 used)

theorem Counted.same (counted : Counted s g) {q : Fin nproc} (same : s'.table q = s.table q)
    (returned : (g' q).returned = (g q).returned) (used : (s'.table q).state ≠ .unused) :
    (s'.table q).switchCnt = Int32.ofNat (g' q).returned :=
  counted.woken (.of_eq same) returned used

/-! ### Parents -/

/-- The process `p` exits. -/
theorem Life.parent_exit {life life' : Life} {init p : Fin nproc} (other : p ≠ init)
    (forker : life'.forker = life.forker)
    (orphaned : life'.orphaned = (life.orphaned || life.forker = p)) :
    life'.parent init = if life.parent init = p then init else life.parent init := by
  rw [Life.parent, Life.parent, orphaned, forker]
  by_cases orphan : life.orphaned
  · simp [orphan, other.symm]
  · by_cases child : life.forker = p
    · simp [orphan, child]
    · simp [orphan, child]

/-- What a process does after the step it did before, unless it is back in user code. -/
structure Released (s s' : Kernel κ) : Prop where
  early {q r} : (s'.activity q).early = some r → (s.activity q).early = some r
  publish {q r} : s'.activity q = .publish r → s.activity q = .publish r
  slot {q r} : (s'.activity q).slot = some r → (s.activity q).slot = some r

theorem Released.of_user {p : Fin nproc} (activities : ∀ q ≠ p, s'.activity q = s.activity q)
    (activity : s'.activity p = .user) : Released s s' := by
  have same (q : Fin nproc) : s'.activity q = s.activity q ∨ s'.activity q = .user :=
    forall_slot (P := fun q => s'.activity q = s.activity q ∨ s'.activity q = .user) (p := p)
      (fun q away => .inl (activities q away)) (.inr activity) q
  constructor
  · intro q r early
    rcases same q with same | user
    · rwa [← same]
    · rw [user] at early
      cases early
  · intro q r stage
    rcases same q with same | user
    · rwa [← same]
    · rw [user] at stage
      cases stage
  · intro q r slot
    rcases same q with same | user
    · rwa [← same]
    · rw [user] at slot
      cases slot

section Parents

variable {p np r : Fin nproc} (family : Family s g) (initproc : s'.initproc = s.initproc)

include family initproc

theorem Family.exit (alive : (s.table p).state.alive) (user : s.activity p = .user)
    (other : p ≠ s.initproc) (others : ∀ q ≠ p, Woken (s.table q) (s'.table q))
    (parent : ∀ q, (s'.table q).parent =
      if (s.table q).parent = some p then some s.initproc else (s.table q).parent)
    (state : (s'.table p).state = .zombie) (activity : ∀ q, s'.activity q = s.activity q)
    (lives : ∀ q, (g' q).forker = (g q).forker ∧
      (g' q).orphaned = ((g q).orphaned || (g q).forker = p)) : Family s' g' := by
  have first := others _ other.symm
  have init : (s'.table s.initproc).state.alive ∧ (s'.table s.initproc).pid = 1 := by
    rw [first.persists.alive, first.pid]
    exact family.init
  have away {q : Fin nproc} (busy : s.activity q ≠ .user) : q ≠ p := by
    rintro rfl
    exact busy user
  constructor
  · rw [initproc]
    exact init
  · intro q r child
    rw [parent] at child
    split_ifs at child with passed
    · cases child
      exact init.1
    · have apart : r ≠ p := by
        rintro rfl
        exact passed child
      rw [(others r apart).persists.alive]
      exact family.parent q r child
  · intro q unused
    have apart : q ≠ p := by
      rintro rfl
      rw [state] at unused
      cases unused
    rw [parent, family.unused q (((others q apart).persists.state_iff rfl).1 unused), if_neg nofun]
  · intro q np early
    rw [activity] at early
    rw [parent, family.early q np early, if_neg nofun]
  · intro q np stage
    rw [activity] at stage
    rw [parent, family.publish q np stage, if_neg]
    rw [Option.some.injEq]
    exact away (by simp [stage])
  · intro q np slot
    rw [activity] at slot
    obtain ⟨forker, orphaned⟩ := family.forking q np slot
    rw [(lives np).1, (lives np).2, forker, orphaned]
    refine ⟨rfl, decide_eq_false (away fun outside => ?_)⟩
    rw [outside] at slot
    cases slot
  · intro q apart live
    rw [initproc] at apart ⊢
    have before : (s.table q).state.alive ∨ (s.table q).state = .zombie := by
      by_cases here : q = p
      · rw [here]
        exact .inl alive
      · rwa [(others q here).persists.alive, (others q here).persists.state_iff rfl] at live
    rw [parent, family.told q apart before, Life.parent_exit other (lives q).1 (lives q).2]
    simp only [Option.some.injEq, apply_ite some]

variable (control : Control s)

include control

theorem Family.reap (zombie : (s.table r).state = .zombie)
    (others : ∀ q ≠ r, Calm (s.table q) (s'.table q)) (state : (s'.table r).state = .unused)
    (parent : (s'.table r).parent = none)
    (forks : ∀ q, SameFork (s.activity q) (s'.activity q)) : Family s' g := by
  have woken q (away : q ≠ r) := (others q away).toWoken
  have dead := dead_of_state zombie rfl
  have first := family.initproc_ne dead
  have slot {q np : Fin nproc} (slot : (s.activity q).slot = some np) : np ≠ r := by
    rintro rfl
    cases zombie.symm.trans (control.slot q np slot)
  constructor
  · rw [initproc, (woken _ first).persists.alive, (woken _ first).pid]
    exact family.init
  · intro q q' child
    have away : q ≠ r := by
      rintro rfl
      rw [parent] at child
      cases child
    rw [(others q away).parent] at child
    exact alive_of_others woken dead q' (family.parent q q' child)
  · refine forall_slot (fun q away unused => ?_) fun _ => parent
    rw [(others q away).parent]
    exact family.unused q (((woken q away).persists.state_iff rfl).1 unused)
  · intro q np early
    rw [(forks q).early] at early
    rw [(others np (slot (Activity.slot_of_early early))).parent]
    exact family.early q np early
  · intro q np stage
    rw [(forks q).publish] at stage
    rw [(others np (slot (by rw [stage]; rfl))).parent]
    exact family.publish q np stage
  · intro q np owner
    rw [(forks q).slot] at owner
    exact family.forking q np owner
  · refine forall_slot (p := r) (fun q away apart live => ?_) fun _ live => ?_
    · rw [initproc] at apart ⊢
      rw [(woken q away).persists.alive, (woken q away).persists.state_iff rfl] at live
      rw [(others q away).parent]
      exact family.told q apart live
    · rw [state] at live
      simp [ProcState.alive] at live

variable (others : ∀ q ≠ np, s'.table q = s.table q)
  (activities : ∀ q ≠ p, s'.activity q = s.activity q)

include others activities

theorem Family.alloc (free : (s.table np).state = .unused)
    (self : s'.table np = (s.table np).embryo s.nextpid) (activity : s'.activity p = .kalloc np)
    (lives : ∀ q, g' q = if q = np then ⟨p, false, 0⟩ else g q) : Family s' g' := by
  have woken q (away : q ≠ np) := Woken.of_eq (others q away)
  have dead := dead_of_state free rfl
  have embryo : (s'.table np).state = .embryo := by rw [self]; rfl
  have parents : ∀ q, (s'.table q).parent = (s.table q).parent :=
    forall_slot (p := np) (fun q away => by rw [others q away]) (by rw [self]; rfl)
  constructor
  · rw [initproc, others _ (family.initproc_ne dead)]
    exact family.init
  · intro q r child
    rw [parents] at child
    exact alive_of_others woken dead r (family.parent q r child)
  · refine forall_slot (p := np) (fun q away unused => ?_) fun unused => ?_
    · rw [others q away] at unused ⊢
      exact family.unused q unused
    · cases embryo.symm.trans unused
  · refine forall_slot (p := p) (fun q away r early => ?_) fun r early => ?_
    · rw [activities q away] at early
      rw [parents]
      exact family.early q r early
    · rw [activity] at early
      cases early
      rw [parents]
      exact family.unused np free
  · refine forall_slot (p := p) (fun q away r stage => ?_) fun r stage => ?_
    · rw [activities q away] at stage
      rw [parents]
      exact family.publish q r stage
    · cases activity.symm.trans stage
  · refine forall_slot (p := p) (fun q away r slot => ?_) fun r slot => ?_
    · rw [activities q away] at slot
      have apart : r ≠ np := by
        rintro rfl
        cases free.symm.trans (control.slot q r slot)
      rw [lives, if_neg apart]
      exact family.forking q r slot
    · rw [activity] at slot
      cases slot
      rw [lives, if_pos rfl]
      exact ⟨rfl, rfl⟩
  · refine forall_slot (p := np) (fun q away apart live => ?_) fun _ live => ?_
    · rw [initproc] at apart ⊢
      rw [others q away] at live ⊢
      rw [lives, if_neg away]
      exact family.told q apart live
    · rw [embryo] at live
      simp [ProcState.alive] at live

/-- The `fork` of process `p` ends, and only the state of its slot changes. -/
theorem Family.release (slot : (s.activity p).slot = some np)
    (parent : (s'.table np).parent = (s.table np).parent) (activity : s'.activity p = .user)
    (unused : (s'.table np).state = .unused → (s.table np).parent = none)
    (told : (s'.table np).state.alive ∨ (s'.table np).state = .zombie →
      (s.table np).parent = some ((g np).parent s.initproc)) : Family s' g := by
  have woken q (away : q ≠ np) := Woken.of_eq (others q away)
  have dead := dead_of_state (control.slot p np slot) rfl
  have parents : ∀ q, (s'.table q).parent = (s.table q).parent :=
    forall_slot (p := np) (fun q away => by rw [others q away]) parent
  have released : Released s s' := .of_user activities activity
  constructor
  · rw [initproc, others _ (family.initproc_ne dead)]
    exact family.init
  · intro q r child
    rw [parents] at child
    exact alive_of_others woken dead r (family.parent q r child)
  · simp only [parents]
    refine forall_slot (p := np) (fun q away unused => ?_) unused
    rw [others q away] at unused
    exact family.unused q unused
  · intro q r early
    rw [parents]
    exact family.early q r (released.early early)
  · intro q r stage
    rw [parents]
    exact family.publish q r (released.publish stage)
  · intro q r slot
    exact family.forking q r (released.slot slot)
  · rw [initproc]
    simp only [parents]
    refine forall_slot (p := np) (fun q away apart live => ?_) fun _ => told
    rw [others q away] at live
    exact family.told q apart live

theorem Family.fail (stage : (s.activity p).early = some np)
    (self : s'.table np = { s.table np with state := .unused }) (activity : s'.activity p = .user) :
    Family s' g := by
  refine family.release initproc control others activities (Activity.slot_of_early stage)
    (by rw [self]) activity (fun _ => family.early p np stage) fun live => ?_
  rw [self] at live
  simp [ProcState.alive] at live

theorem Family.adopt (alive : (s.table p).state.alive) (stage : (s.activity p).early = some np)
    (self : s'.table np = { s.table np with parent := some p })
    (activity : s'.activity p = .publish np) : Family s' g := by
  have slot := Activity.slot_of_early stage
  have embryo := control.slot p np slot
  have state : ∀ q, (s'.table q).state = (s.table q).state :=
    forall_slot (p := np) (fun q away => by rw [others q away]) (by rw [self])
  have apart {q r : Fin nproc} (away : q ≠ p) (owner : (s.activity q).slot = some r) : r ≠ np := by
    rintro rfl
    exact away (control.own q p r owner slot)
  constructor
  · rw [initproc, others _ (family.initproc_ne (dead_of_state embryo rfl))]
    exact family.init
  · refine forall_slot (p := np) (fun q away r child => ?_) fun r child => ?_
    · rw [others q away] at child
      rw [state]
      exact family.parent q r child
    · rw [self] at child
      cases child
      rw [state]
      exact alive
  · refine forall_slot (p := np) (fun q away unused => ?_) fun unused => ?_
    · rw [others q away] at unused ⊢
      exact family.unused q unused
    · rw [state, embryo] at unused
      cases unused
  · refine forall_slot (p := p) (fun q away r early => ?_) fun r early => ?_
    · rw [activities q away] at early
      rw [others r (apart away (Activity.slot_of_early early))]
      exact family.early q r early
    · rw [activity] at early
      cases early
  · refine forall_slot (p := p) (fun q away r stage => ?_) fun r stage => ?_
    · rw [activities q away] at stage
      rw [others r (apart away (by rw [stage]; rfl))]
      exact family.publish q r stage
    · cases activity.symm.trans stage
      rw [self]
  · refine forall_slot (p := p) (fun q away r slot => ?_) fun r owner => ?_
    · rw [activities q away] at slot
      exact family.forking q r slot
    · rw [activity] at owner
      cases owner
      exact family.forking p np slot
  · refine forall_slot (p := np) (fun q away apart live => ?_) fun _ live => ?_
    · rw [initproc] at apart ⊢
      rw [others q away] at live ⊢
      exact family.told q apart live
    · rw [state, embryo] at live
      simp [ProcState.alive] at live

theorem Family.publishes (stage : s.activity p = .publish np)
    (self : s'.table np = { s.table np with state := .runnable }) (activity : s'.activity p = .user) :
    Family s' g := by
  have slot : (s.activity p).slot = some np := by rw [stage]; rfl
  refine family.release initproc control others activities slot (by rw [self]) activity
    (fun unused => ?_) fun _ => ?_
  · rw [self] at unused
    cases unused
  · obtain ⟨forker, orphaned⟩ := family.forking p np slot
    rw [family.publish p np stage, Life.parent, forker, orphaned]
    rfl

end Parents

variable [DecidableEq κ] {a : KernelLabel κ}

theorem Family.effect (family : Family s g) (control : Control s) (effect : Effect s a s')
    (initproc : s'.initproc = s.initproc)
    (lives : ∀ q, g' q = (observe ⟨s, a, s'⟩).record q (g q)) : Family s' g' := by
  cases effect with
  | calm seen tasks nextpid activity running =>
    simp only [seen, Observation.record] at lives
    exact family.of_same initproc (tasks _).pid (fun q => (tasks q).parent)
      (fun q => (tasks q).persists) (fun q => .of_calm (activity q)) (by simp [lives])
  | dispatch c p seen ready others self nextpid activity running =>
    simp only [seen, Observation.record] at lives
    have pid : ∀ q, (s'.table q).pid = (s.table q).pid :=
      forall_slot (fun q away => by rw [others q away]) (by rw [self])
    have parent : ∀ q, (s'.table q).parent = (s.table q).parent :=
      forall_slot (fun q away => by rw [others q away]) (by rw [self])
    exact family.of_same initproc (pid _) parent (persists_dispatch ready others self)
      (fun q => .of_eq (activity q)) (by simp [lives])
  | leave c p seen on others pid parent switchCnt state nextpid activities activity running =>
    simp only [seen, Observation.record] at lives
    have pids : ∀ q, (s'.table q).pid = (s.table q).pid :=
      forall_slot (fun q away => by rw [others q away]) pid
    refine family.of_same initproc (pids _)
      (forall_slot (fun q away => by rw [others q away]) parent)
      (persists_leave (control.running c p on) others state) (sameFork_leave activities activity)
      fun q => ?_
    rw [lives]
    split_ifs
    · exact ⟨rfl, rfl⟩
    · exact ⟨rfl, rfl⟩
  | advance c p np seen on stage tasks nextpid activities activity running =>
    simp only [seen, Observation.record] at lives
    exact family.of_same initproc (tasks _).pid (fun q => (tasks q).parent)
      (fun q => (tasks q).persists)
      (forall_slot (fun q away => .of_eq (activities q away)) (.within stage activity))
      (by simp [lives])
  | exit c p seen on user other others parent pid switchCnt state nextpid activity running =>
    simp only [seen, Observation.record] at lives
    exact family.exit initproc (alive_of_running (control.running c p on)) user other others parent
      state activity (by simp [lives])
  | reap r seen zombie others state pid parent nextpid activity running =>
    simp only [seen, Observation.record] at lives
    obtain rfl := funext lives
    exact family.reap initproc control zombie others state parent fun q => .of_calm (activity q)
  | alloc c p np seen on user free others self nextpid activities activity running =>
    simp only [seen, Observation.record] at lives
    exact family.alloc initproc control others activities free self activity lives
  | fail c p np seen on stage others self nextpid activities activity running =>
    simp only [seen, Observation.record] at lives
    obtain rfl := funext lives
    exact family.fail initproc control others activities stage self activity
  | adopt c p np seen on stage others self nextpid activities activity running =>
    simp only [seen, Observation.record] at lives
    obtain rfl := funext lives
    exact family.adopt initproc control others activities (alive_of_running (control.running c p on))
      stage self activity
  | publish c p np seen on stage others self nextpid activities activity running =>
    simp only [seen, Observation.record] at lives
    obtain rfl := funext lives
    exact family.publishes initproc control others activities stage self activity

theorem Counted.effect (counted : Counted s g) (control : Control s) (effect : Effect s a s')
    (lives : ∀ q, g' q = (observe ⟨s, a, s'⟩).record q (g q)) : Counted s' g' := by
  cases effect with
  | calm seen tasks nextpid activity running =>
    simp only [seen, Observation.record] at lives
    exact fun q used => counted.woken (tasks q).toWoken (by rw [lives]) used
  | dispatch c p seen ready others self nextpid activity running =>
    simp only [seen, Observation.record] at lives
    refine forall_slot (fun q away => counted.same (others q away) (by rw [lives])) fun _ => ?_
    exact counted.stay (by rw [self]) (by rw [lives]) (by simp [ready])
  | leave c p seen on others pid parent switchCnt state nextpid activities activity running =>
    simp only [seen, Observation.record] at lives
    refine forall_slot (fun q away => counted.same (others q away) (by rw [lives, if_neg away]))
      fun _ => ?_
    exact counted.next switchCnt (by rw [lives, if_pos rfl]) (by simp [control.running c p on])
  | exit c p seen on user other others parent pid switchCnt state nextpid activity running =>
    simp only [seen, Observation.record] at lives
    refine forall_slot (fun q away => counted.woken (others q away) (by rw [lives, if_neg away]))
      fun _ => ?_
    exact counted.next switchCnt (by rw [lives, if_pos rfl]) (by simp [control.running c p on])
  | reap r seen zombie others state pid parent nextpid activity running =>
    simp only [seen, Observation.record] at lives
    exact forall_slot (fun q away => counted.woken (others q away).toWoken (by rw [lives]))
      fun used => absurd state used
  | alloc c p np seen on user free others self nextpid activities activity running =>
    simp only [seen, Observation.record] at lives
    refine forall_slot (fun q away => counted.same (others q away) (by rw [lives, if_neg away]))
      fun _ => ?_
    rw [self, lives, if_pos rfl]
    rfl
  | fail c p np seen on stage others self nextpid activities activity running =>
    simp only [seen, Observation.record] at lives
    exact forall_slot (fun q away => counted.same (others q away) (by rw [lives]))
      fun used => absurd (by rw [self]) used
  | advance c p np seen on stage tasks nextpid activities activity running =>
    simp only [seen, Observation.record] at lives
    exact fun q used => counted.woken (tasks q).toWoken (by rw [lives]) used
  | adopt c p np seen on stage others self nextpid activities activity running =>
    simp only [seen, Observation.record] at lives
    have embryo := control.slot p np (Activity.slot_of_early stage)
    refine forall_slot (fun q away => counted.same (others q away) (by rw [lives])) fun _ => ?_
    exact counted.stay (by rw [self]) (by rw [lives]) (by simp [embryo])
  | publish c p np seen on stage others self nextpid activities activity running =>
    simp only [seen, Observation.record] at lives
    have embryo := control.slot p np (by rw [stage]; rfl)
    refine forall_slot (fun q away => counted.same (others q away) (by rw [lives])) fun _ => ?_
    exact counted.stay (by rw [self]) (by rw [lives]) (by simp [embryo])

/-! ## Runs -/

/-- Along every run of the kernel, on any CPUs. -/
theorem lives_of_run {l : List (Event (Kernel κ) (KernelLabel κ))} (run : Run Kernel.Step .boot l s) :
    Control s ∧ Family s (lives l) ∧ Counted s (lives l) := by
  refine run.history (I := fun l s => Control s ∧ Family s (lives l) ∧ Counted s (lives l))
    ⟨control_boot, family_boot _, fun q used => ?_⟩ ?_
  · obtain ⟨-, -, -, none, -⟩ | ⟨-, zero⟩ := boot_cases q
    · exact none
    · rw [zero] at used
      exact absurd rfl used
  · rintro l x a y ⟨control, family, counted⟩ taken
    exact ⟨control.effect taken.effect,
      family.effect control taken.effect taken.initproc fun q => lives_snoc ..,
      counted.effect control taken.effect fun q => lives_snoc ..⟩

end SsuOs.Xv6
