import SsuOs.Xv6.Pids

/-!
# Process information

`get_proc_info` of `hw3/xv6/proc.c`, which looks for a slot by its pid alone: what it finds for the
pid of a process, and for any other number.
-/

namespace SsuOs.Xv6

/-- `struct processInfo`. -/
structure ProcessInfo where
  ppid : Int32
  psize : Int32
  numberContextSwitches : Int32
  deriving DecidableEq

/-- `p->parent->pid` with a null pointer. -/
inductive NullParent
  | mk
  deriving DecidableEq

/-- `get_proc_info`; the result `none` stands for `-1`. -/
def getProcInfo (table : Fin nproc → Task) (pid : Int32) : Except NullParent (Option ProcessInfo) :=
  match firstSlot table fun t => t.pid = pid with
  | none => .ok none
  | some p =>
      let info (ppid : Int32) : ProcessInfo := ⟨ppid, (table p).sz.toInt32, (table p).switchCnt⟩
      if pid = 1 then .ok (some (info 0))
      else
        match (table p).parent with
        | none => .error .mk
        | some r => .ok (some (info (table r).pid))

section Lookup

variable {table : Fin nproc → Task} {pid : Int32} {p : Fin nproc}

theorem firstSlot_pid (unique : ∀ q, (table q).pid = (table p).pid → q = p) :
    firstSlot table (fun t => t.pid = (table p).pid) = some p := by
  cases found : firstSlot table fun t => t.pid = (table p).pid with
  | none =>
    have missed := List.find?_eq_none.1 found p (List.mem_finRange p)
    simp at missed
  | some q => rw [unique q (Kernel.firstSlot_eq_some found)]

theorem getProcInfo_none (found : firstSlot table (fun t => t.pid = pid) = none) :
    getProcInfo table pid = .ok none := by
  simp [getProcInfo, found]

theorem getProcInfo_init (found : firstSlot table (fun t => t.pid = 1) = some p) :
    getProcInfo table 1 = .ok (some ⟨0, (table p).sz.toInt32, (table p).switchCnt⟩) := by
  simp [getProcInfo, found]

theorem getProcInfo_child (found : firstSlot table (fun t => t.pid = pid) = some p)
    (other : pid ≠ 1) {r : Fin nproc} (parent : (table p).parent = some r) :
    getProcInfo table pid =
      .ok (some ⟨(table r).pid, (table p).sz.toInt32, (table p).switchCnt⟩) := by
  simp [getProcInfo, found, other, parent]

theorem getProcInfo_orphan (found : firstSlot table (fun t => t.pid = pid) = some p)
    (other : pid ≠ 1) (parent : (table p).parent = none) : getProcInfo table pid = .error .mk := by
  simp [getProcInfo, found, other, parent]

end Lookup

variable {κ : Type} {s : Kernel κ} {l : List (Event (Kernel κ) (KernelLabel κ))}

/-! ## Any number -/

/-- `get_proc_info` uses a slot that is in use, follows no null pointer, and returns `-1` for a
number that is the pid of no slot in use. -/
structure FindsProcess (table : Fin nproc → Task) (pid : Int32) : Prop where
  used : ∀ info p, getProcInfo table pid = .ok (some info) →
    firstSlot table (fun t => t.pid = pid) = some p → (table p).state ≠ .unused
  parent : getProcInfo table pid ≠ .error .mk
  absent : (∀ p ∈ inUse table, (table p).pid ≠ pid) → getProcInfo table pid = .ok none

/-- The first slot in which the events `l` have left `pid`, if there is one, is not a slot that was
never used or has been reaped, which holds 0, nor one in which a `fork` with this pid has failed;
and no `fork` has still to assign its parent unless `pid` is 1. -/
def Settled (l : List (Event (Kernel κ) (KernelLabel κ))) (s : Kernel κ) (pid : Int32) : Prop :=
  ∀ p, (List.finRange nproc).find? (fun p => (slotUse l p).pid = pid) = some p →
    slotUse l p ≠ .clear ∧ slotUse l p ≠ .givenBack pid ∧
      (pid = 1 ∨ ∀ q, (s.activity q).early ≠ some p)

instance (l : List (Event (Kernel κ) (KernelLabel κ))) (s : Kernel κ) (pid : Int32) :
    Decidable (Settled l s pid) :=
  inferInstanceAs (Decidable (∀ _, _ → _))

/-- The search in the table finds the first slot in which the history has left the pid. -/
theorem firstSlot_eq_find [DecidableEq κ] (run : Run Kernel.Step .boot l s) (pid : Int32) :
    firstSlot s.table (fun t => t.pid = pid) =
      (List.finRange nproc).find? fun p => (slotUse l p).pid = pid := by
  simp only [firstSlot, (slotUse_tells run _).pid]

/-- What a slot out of use with this pid has been through. -/
theorem unused_iff_slotUse [DecidableEq κ] (run : Run Kernel.Step .boot l s) {pid : Int32}
    {p : Fin nproc} (held : (s.table p).pid = pid) :
    (s.table p).state = .unused ↔ slotUse l p = .clear ∨ slotUse l p = .givenBack pid := by
  obtain ⟨same, unused⟩ := slotUse_tells run p
  rw [held] at same
  rw [unused]
  cases use : slotUse l p with
  | clear => simp
  | taken pid' => simp [SlotUse.pid]
  | givenBack pid' =>
    rw [use] at same
    simp [same, SlotUse.pid]

/-- The parent of a slot in use is assigned, apart from `init` and from slots early in a `fork`. -/
theorem Family.exists_parent {g : Fin nproc → Life} (family : Family s g) (control : Control s)
    {p : Fin nproc} (used : (s.table p).state ≠ .unused) (other : p ≠ s.initproc)
    (settled : ∀ q, (s.activity q).early ≠ some p) : ∃ r, (s.table p).parent = some r := by
  cases state : (s.table p).state with
  | unused => exact absurd state used
  | embryo =>
    obtain ⟨q, slot⟩ := control.filled p state
    cases activity : s.activity q with
    | publish np =>
      rw [activity] at slot
      cases slot
      exact ⟨q, family.publish q p activity⟩
    | _ =>
      rw [activity] at slot
      exact absurd (by rw [activity]; exact slot) (settled q)
  | _ => exact ⟨_, family.told p other (by simp [state, ProcState.alive])⟩

/-- In every state that the kernel reaches, on any CPUs, and for every number. -/
theorem findsProcess_iff_settled [DecidableEq κ] (run : Run Kernel.Step .boot l s) (pid : Int32) :
    FindsProcess s.table pid ↔ Settled l s pid := by
  obtain ⟨control, family, -⟩ := lives_of_run run
  simp only [Settled, ← firstSlot_eq_find run, ne_eq, ← and_assoc, ← not_or]
  have free {p : Fin nproc} (found : firstSlot s.table (fun t => t.pid = pid) = some p) :=
    unused_iff_slotUse run (Kernel.firstSlot_eq_some found)
  constructor
  · rintro ⟨used, parent, -⟩ p found
    rw [← free found]
    by_cases one : pid = 1
    · subst one
      exact ⟨used _ p (getProcInfo_init found) found, .inl rfl⟩
    · cases assigned : (s.table p).parent with
      | none => exact absurd (getProcInfo_orphan found one assigned) parent
      | some r =>
        refine ⟨used _ p (getProcInfo_child found one assigned) found, .inr fun q early => ?_⟩
        cases (family.early q p early).symm.trans assigned
  · intro settled
    cases found : firstSlot s.table fun t => t.pid = pid with
    | none =>
      have result := getProcInfo_none found
      refine ⟨fun info p _ found' => ?_, by simp [result], fun _ => result⟩
      cases found.symm.trans found'
    | some p =>
      obtain ⟨used, assigned⟩ := settled p found
      rw [← free found] at used
      have held : (s.table p).pid = pid := Kernel.firstSlot_eq_some found
      refine ⟨fun info q _ found' => ?_, ?_, fun absent => ?_⟩
      · cases found.symm.trans found'
        exact used
      · by_cases one : pid = 1
        · subst one
          simp [getProcInfo_init found]
        · have other : p ≠ s.initproc := by
            rintro rfl
            exact one (held.symm.trans family.init.2)
          obtain ⟨r, parent⟩ := family.exists_parent control used other (assigned.resolve_left one)
          simp [getProcInfo_child found one parent]
      · exact absurd held (absent p ((mem_inUse _).2 used))

/-- The first child of `init`. -/
theorem findsProcess_iff_settled_child :
    ∃ l s, Run Kernel.Step (.boot : Kernel Unit) l s ∧ FindsProcess s.table 2 ∧
      getProcInfo s.table 2 = .ok (some ⟨1, 4096, 0⟩) := by
  obtain ⟨l, s, run, settled, info⟩ := exists_run_of_replay Kernel.step .boot
    (firstDispatch ++ forkActions)
    (P := fun r => Settled r.1 r.2 2 ∧ getProcInfo r.2.table 2 = .ok (some ⟨1, 4096, 0⟩))
    (by decide +kernel)
  exact ⟨l, s, run, (findsProcess_iff_settled run 2).2 settled, info⟩

/-- The number 0 at the boot, and the pid of a `fork` that fails and of one that has not assigned
the parent yet. -/
theorem not_findsProcess_unused :
    ¬ FindsProcess (.boot : Kernel Unit).table 0 ∧
    (∃ l s, Run Kernel.Step (.boot : Kernel Unit) l s ∧ (s.table ⟨1, by decide⟩).state = .unused ∧
      ¬ FindsProcess s.table 2) ∧
    ∃ l s, Run Kernel.Step (.boot : Kernel Unit) l s ∧ (s.table ⟨1, by decide⟩).state = .embryo ∧
      ¬ FindsProcess s.table 2 := by
  refine ⟨fun finds => finds.parent (by decide +kernel), ?_, ?_⟩
  · obtain ⟨l, s, run, unused, null⟩ := exists_run_of_replay Kernel.step .boot
      (firstDispatch ++ [.run () .fork, .run () (.kalloc false)])
      (P := fun r => (r.2.table ⟨1, by decide⟩).state = .unused ∧
        getProcInfo r.2.table 2 = .error .mk) (by decide +kernel)
    exact ⟨l, s, run, unused, fun finds => finds.parent null⟩
  · obtain ⟨l, s, run, embryo, null⟩ := exists_run_of_replay Kernel.step .boot
      (firstDispatch ++ [.run () .fork])
      (P := fun r => (r.2.table ⟨1, by decide⟩).state = .embryo ∧
        getProcInfo r.2.table 2 = .error .mk) (by decide +kernel)
    exact ⟨l, s, run, embryo, fun finds => finds.parent null⟩

/-! ## Sizes -/

/-- The size of every process is below `KERNBASE`, so that it is an `int` as well. -/
def Small (s : Kernel κ) : Prop := ∀ q, (s.table q).sz.toNat < 2 ^ 31

theorem toInt_toInt32 {sz : UInt32} (small : sz.toNat < 2 ^ 31) : sz.toInt32.toInt = sz.toNat := by
  have unsigned : 2 * sz.toBitVec.toNat < 2 ^ 32 := by
    change 2 * sz.toNat < 2 ^ 32
    omega
  exact BitVec.toInt_eq_toNat_of_lt unsigned

theorem Small.setTask (small : Small s) {p : Fin nproc} {t : Task} (fits : t.sz.toNat < 2 ^ 31) :
    Small (s.setTask p t) := by
  intro q
  by_cases here : q = p
  · subst here
    rwa [Kernel.setTask_self]
  · rw [Kernel.setTask_of_ne here]
    exact small q

theorem exitTable_sz (cur init : Fin nproc) (table : Fin nproc → Task) (q : Fin nproc) :
    (exitTable cur init table q).sz = (table q).sz := by
  have wakes (chan : Chan) (table : Fin nproc → Task) : (wakeup1 chan table q).sz = (table q).sz := by
    unfold wakeup1
    split_ifs <;> rfl
  have updates (table : Fin nproc → Task) (p : Fin nproc) (t : Task) (same : t.sz = (table p).sz) :
      (Function.update table p t q).sz = (table q).sz := by
    by_cases here : q = p
    · subst here
      rw [Function.update_self, same]
    · rw [Function.update_of_ne here]
  have passes (slots : List (Fin nproc)) (table : Fin nproc → Task) :
      (slots.foldl (passChild cur init) table q).sz = (table q).sz := by
    induction slots generalizing table with
    | nil => rfl
    | cons p slots ih =>
      rw [List.foldl_cons, ih]
      unfold passChild
      split_ifs
      · rw [wakes]
        refine updates table p _ ?_
        rfl
      · refine updates table p _ ?_
        rfl
      · rfl
  have passed := passes (List.finRange nproc) (wakeup1 (chanOf (table cur).parent) table)
  rw [wakes] at passed
  rw [← passed]
  unfold exitTable passChildren
  generalize (List.finRange nproc).foldl (passChild cur init) _ = passed
  refine updates passed cur _ ?_
  rfl

theorem used_of_live {p : Fin nproc}
    (live : (s.table p).state.alive ∨ (s.table p).state = .zombie) :
    (s.table p).state ≠ .unused := by
  intro unused
  simp [unused, ProcState.alive] at live

variable [DecidableEq κ]

theorem Small.step {a : KernelLabel κ} (small : Small s) (taken : s.step a = some s') : Small s' := by
  cases a with
  | schedule c =>
    obtain ⟨-, lock, rfl⟩ := Kernel.scheduler_eq_some taken
    exact small
  | wakeup chan =>
    obtain rfl := Kernel.wakeup_eq_some taken
    intro q
    change (wakeup1 chan s.table q).sz.toNat < _
    unfold wakeup1
    split_ifs
    · exact small q
    · exact small q
  | run c a =>
    obtain ⟨p, -, acts⟩ := Option.bind_eq_some_iff.1 taken
    cases a with
    | exit =>
      simp only [Kernel.act, Kernel.exit] at acts
      split_ifs at acts
      cases acts
      intro q
      change (exitTable p s.initproc s.table q).sz.toNat < _
      rw [exitTable_sz]
      exact small q
    | wait =>
      simp only [Kernel.act, Kernel.wait] at acts
      have tidy : Small (s.setTask p { s.table p with chan := .null }) := small.setTask (small p)
      repeat' split at acts
      · cases acts
        exact tidy.setTask (tidy _)
      · cases acts
        exact tidy
      · cases acts
        exact tidy.setTask (tidy p)
      · cases acts
    | resize sz =>
      simp only [Kernel.act, Kernel.resize] at acts
      split_ifs at acts with fits
      cases acts
      exact small.setTask fits.2
    | _ =>
      simp only [Kernel.act, Kernel.yield, Kernel.sleep, Kernel.resume, Kernel.fork, Kernel.kalloc,
        Kernel.copyuvm, Kernel.inherit, Kernel.adopt, Kernel.publish, Kernel.kill, Kernel.setPrio,
        Kernel.fail] at acts
      repeat' split at acts
      all_goals cases acts
      all_goals first | exact small | exact small.setTask (small _)

theorem small_of_run (run : Run Kernel.Step .boot l s) : Small s := by
  refine run.invariant (P := Small) (fun q => ?_) fun x a y small taken => small.step taken
  obtain ⟨-, -, -, -, -, page⟩ | ⟨-, zero⟩ := boot_cases q
  · rw [page]
    decide
  · rw [zero]
    decide

/-! ## Processes -/

/-- The report about the process in slot `p` after the history `l`: the pid of its parent, which has
not exited, its size, and the number of times that it was back in a scheduler, as an `int`. -/
structure Reports (l : List (Event (Kernel κ) (KernelLabel κ))) (s : Kernel κ) (p : Fin nproc)
    (info : ProcessInfo) : Prop where
  parent : (s.table p).parent = some ((lives l p).parent s.initproc)
  alive : (s.table ((lives l p).parent s.initproc)).state.alive
  ppid : info.ppid = (s.table ((lives l p).parent s.initproc)).pid
  psize : info.psize.toInt = (s.table p).sz.toNat
  switches : info.numberContextSwitches = Int32.ofNat (lives l p).returned
  exact : (lives l p).returned < 2 ^ 31 → info.numberContextSwitches.toInt = (lives l p).returned

section Process

variable {p : Fin nproc}

theorem getProcInfo_of_run (run : Run Kernel.Step .boot l s) (unwrapped : ∀ e ∈ l, Unwrapped e)
    (live : (s.table p).state.alive ∨ (s.table p).state = .zombie) (other : (s.table p).pid ≠ 1) :
    getProcInfo s.table (s.table p).pid =
      .ok (some ⟨(s.table ((lives l p).parent s.initproc)).pid, (s.table p).sz.toInt32,
        (s.table p).switchCnt⟩) := by
  obtain ⟨-, family, -⟩ := lives_of_run run
  have pids := pids_of_run run unwrapped
  have child : p ≠ s.initproc := by
    rintro rfl
    exact other family.init.2
  have found := firstSlot_pid fun q same =>
    pids.distinct q p same (same ▸ pids.pos p (used_of_live live))
  exact getProcInfo_child found other (family.told p child live)

/-- In every state that the kernel reaches, on any CPUs, before pids are used again, and for every
process other than `init`. -/
theorem getProcInfo_reports (run : Run Kernel.Step .boot l s) (unwrapped : ∀ e ∈ l, Unwrapped e)
    (live : (s.table p).state.alive ∨ (s.table p).state = .zombie) (other : (s.table p).pid ≠ 1) :
    ∃ info, getProcInfo s.table (s.table p).pid = .ok (some info) ∧ Reports l s p info := by
  obtain ⟨-, family, counted⟩ := lives_of_run run
  have child : p ≠ s.initproc := by
    rintro rfl
    exact other family.init.2
  have parent := family.told p child live
  have count := counted p (used_of_live live)
  refine ⟨_, getProcInfo_of_run run unwrapped live other, parent, family.parent p _ parent, rfl,
    toInt_toInt32 (small_of_run run p), count, fun few => ?_⟩
  rw [count]
  exact Int32.toInt_ofNat_of_lt few

end Process

/-! ## More switches than an `int` holds -/

section Loop

/-- The slot of the first child of `init`. -/
def child : Fin nproc := ⟨1, by decide⟩

/-- The child runs on the only CPU, and no other process can be dispatched. -/
structure Looping (s : Kernel Unit) : Prop where
  point : s.cpu () = .running [0] 0 child
  lock : s.lock = none
  user : s.activity child = .user
  pid : (s.table child).pid = 2
  priority : (s.table child).priority = 0
  alone : ∀ q ≠ child, (s.table q).state ≠ .runnable

namespace Kernel

/-- The kernel with its only scheduler at `point`. -/
def arrive (s : Kernel Unit) (point : Scheduler.Point) (lock : Option Unit) : Kernel Unit :=
  { s with cpu := fun _ => point, lock := lock }

variable {s : Kernel Unit} {queue : List ℤ} {i p : ℕ}

theorem update_cpu (point point' : Scheduler.Point) :
    Function.update (fun _ : Unit => point) () point' = fun _ => point' :=
  Function.update_eq_const_of_subsingleton ..

theorem scheduler_outer : (s.arrive .outer none).scheduler () =
    some (s.arrive (.sort (Scheduler.gather fun p => (s.table p).toProc)) none) := by
  simp [arrive, scheduler, schedule, Scheduler.next, update_cpu]

theorem scheduler_sort : (s.arrive (.sort queue) none).scheduler () =
    some (s.arrive (.pass (bubbleSort queue) 0) none) := by
  simp [arrive, scheduler, schedule, Scheduler.next, update_cpu]

theorem scheduler_acquire (more : i < queue.length) : (s.arrive (.pass queue i) none).scheduler () =
    some (s.arrive (.visit queue i 0) (some ())) := by
  simp [arrive, scheduler, schedule, Scheduler.next, update_cpu, more]

theorem scheduler_finish (last : queue.length ≤ i) : (s.arrive (.pass queue i) none).scheduler () =
    some (s.arrive .outer none) := by
  simp [arrive, scheduler, schedule, Scheduler.next, update_cpu, last.not_gt]

theorem scheduler_skip (slot : p < nproc) (other : (s.table ⟨p, slot⟩).state ≠ .runnable) :
    (s.arrive (.visit queue i p) (some ())).scheduler () =
      some (s.arrive (.visit queue i (p + 1)) (some ())) := by
  simp [arrive, scheduler, schedule, Scheduler.next, update_cpu, slot, other,
    Scheduler.Point.unlocked]

theorem scheduler_release : (s.arrive (.visit queue i nproc) (some ())).scheduler () =
    some (s.arrive (.pass queue (i + 1)) none) := by
  simp [arrive, scheduler, schedule, Scheduler.next, update_cpu,
    Scheduler.Point.unlocked]

theorem scheduler_dispatch {p : Fin nproc} (ready : (s.table p).state = .runnable)
    (high : Scheduler.threshold queue i ≤ (s.table p).priority) :
    (s.arrive (.visit queue i p) (some ())).scheduler () =
      some ((s.setTask p { s.table p with state := .running }).arrive (.running queue i p) none) := by
  have table : ((s.arrive (.visit queue i p) (some ())).schedule ()).table =
      (s.setTask p { s.table p with state := .running }).table := by
    funext q
    by_cases here : q = p
    · subst here
      simp [arrive, schedule, Scheduler.next, ready, high, setTask]
    · simp [arrive, schedule, Scheduler.next, ready, high, setTask, here]
  have cpu : ((s.arrive (.visit queue i p) (some ())).schedule ()).cpu =
      fun _ => .running queue i p := by
    simp [arrive, schedule, Scheduler.next, ready, high, update_cpu]
  calc (s.arrive (.visit queue i p) (some ())).scheduler ()
      = some { s with
          table := ((s.arrive (.visit queue i p) (some ())).schedule ()).table
          cpu := ((s.arrive (.visit queue i p) (some ())).schedule ()).cpu
          lock := if (((s.arrive (.visit queue i p) (some ())).schedule ()).cpu ()).unlocked then none
            else some () } := rfl
    _ = _ := by
      rw [table, cpu]
      rfl

theorem sched_eq {p : Fin nproc} (point : s.cpu () = .running queue i p) : s.sched () =
    (s.setTask p { s.table p with switchCnt := (s.table p).switchCnt + 1 }).arrive
      (.visit queue i (p + 1)) (some ()) := by
  have table := sched_table (running_eq_some.2 ⟨queue, i, point⟩)
  have cpu : (s.sched ()).cpu = fun _ => .visit queue i (p + 1) := by
    funext c
    simp [sched, schedule, point, Scheduler.next]
  calc s.sched ()
      = { s with table := (s.sched ()).table, cpu := (s.sched ()).cpu, lock := some () } := rfl
    _ = _ := by
      rw [table, cpu]
      rfl

/-- Steps of the scheduler lead from `s` to `t`. -/
def Scheduled (s t : Kernel Unit) : Prop :=
  ∃ l, Run Step s l t ∧ ∀ e ∈ l, e.label = .schedule ()

theorem Scheduled.next {t u : Kernel Unit} (steps : Scheduled s t) (taken : t.scheduler () = some u) :
    Scheduled s u := by
  obtain ⟨l, run, labels⟩ := steps
  have step : Step t (.schedule ()) u := taken
  refine ⟨_, run.snoc step, ?_⟩
  simpa [or_imp, forall_and] using labels

/-- The scheduler passes over the slots from `p` on. -/
theorem Scheduled.skips {t : Kernel Unit}
    (alone : ∀ q : Fin nproc, p ≤ q → (t.table q).state ≠ .runnable)
    (below : p ≤ nproc) (steps : Scheduled s (t.arrive (.visit queue i p) (some ()))) :
    Scheduled s (t.arrive (.visit queue i nproc) (some ())) := by
  induction n : nproc - p generalizing p with
  | zero =>
    obtain rfl : p = nproc := by omega
    exact steps
  | succ n ih =>
    have slot : p < nproc := by omega
    refine ih (fun q above => alone q (by omega)) slot (steps.next ?_) (by omega)
    exact scheduler_skip slot (alone ⟨p, slot⟩ le_rfl)

end Kernel

theorem gather_alone {table : Fin nproc → Task} (ready : (table child).state = .runnable)
    (priority : (table child).priority = 0) (alone : ∀ q ≠ child, (table q).state ≠ .runnable) :
    Scheduler.gather (fun p => (table p).toProc) = [0] := by
  have same : ∀ q, (if (table q).state = .runnable then some (table q).priority else none) =
      if q = child then some 0 else none := by
    intro q
    by_cases here : q = child
    · rw [here, if_pos ready, if_pos rfl, priority]
    · rw [if_neg (alone q here), if_neg here]
  unfold Scheduler.gather
  simp only [same]
  decide

/-- The child gives up the CPU. -/
def Kernel.backOff (s : Kernel Unit) : Kernel Unit :=
  s.setTask child
    { s.table child with state := .runnable, switchCnt := (s.table child).switchCnt + 1 }

theorem Looping.yield {s : Kernel Unit} (looping : Looping s) :
    Kernel.Step s (.run () .yield) (s.backOff.arrive (.visit [0] 0 2) (some ())) := by
  obtain ⟨point, lock, user, -⟩ := looping
  have on : s.running () = some child := by simp [Kernel.running, point]
  have left : s.yield () child = some (s.backOff.arrive (.visit [0] 0 2) (some ())) := by
    have point' : (s.setTask child { s.table child with state := .runnable }).cpu () =
        .running [0] 0 child := point
    rw [Kernel.yield, if_pos ⟨lock, by simp [user], by simp [user]⟩, Kernel.sched_eq point',
      Kernel.setTask_setTask, Kernel.setTask_self]
    rfl
  change (s.running ()).bind (fun p => s.act () p .yield) = _
  rw [on]
  exact left

/-- The child gets the CPU again. -/
theorem Looping.again {s : Kernel Unit} (looping : Looping s) :
    ∃ s', Kernel.Scheduled (s.backOff.arrive (.visit [0] 0 2) (some ())) s' ∧ Looping s' := by
  obtain ⟨-, -, user, pid, priority, alone⟩ := looping
  have self : s.backOff.table child = { s.table child with
      state := .runnable, switchCnt := (s.table child).switchCnt + 1 } := Kernel.setTask_self
  have others : ∀ q ≠ child, (s.backOff.table q).state ≠ .runnable := by
    intro q away
    rw [Kernel.backOff, Kernel.setTask_of_ne away]
    exact alone q away
  have ready : (s.backOff.table child).state = .runnable := by rw [self]
  have zero : (s.backOff.table child).priority = 0 := by rw [self]; exact priority
  have user' : s.backOff.activity child = .user := user
  generalize s.backOff = t at *
  have start : Kernel.Scheduled (t.arrive (.visit [0] 0 2) (some ()))
      (t.arrive (.visit [0] 0 2) (some ())) := ⟨[], .nil, by simp⟩
  have passed := start.skips (fun q above => others q (by rintro rfl; exact absurd above (by decide)))
    (by decide)
  have outer := (passed.next Kernel.scheduler_release).next (Kernel.scheduler_finish le_rfl)
  have sorted := (outer.next Kernel.scheduler_outer).next Kernel.scheduler_sort
  rw [gather_alone ready zero others] at sorted
  have visited := (sorted.next (Kernel.scheduler_acquire (by decide))).next
    (Kernel.scheduler_skip (by decide) (others ⟨0, by decide⟩ (by decide)))
  have single : bubbleSort [(0 : ℤ)] = [0] := rfl
  rw [single] at visited
  refine ⟨_, visited.next (Kernel.scheduler_dispatch (p := child) ready ?_), ?_⟩
  · rw [zero]
    exact le_rfl
  · have on : (t.setTask child { t.table child with state := .running }).table child =
        { t.table child with state := .running } := Kernel.setTask_self
    refine ⟨rfl, rfl, user', ?_, ?_, fun q away => ?_⟩
    · change ((t.setTask child _).table child).pid = 2
      rw [on, self]
      exact pid
    · change ((t.setTask child _).table child).priority = 0
      rw [on]
      exact zero
    · change ((t.setTask child _).table q).state ≠ _
      rw [Kernel.setTask_of_ne away]
      exact others q away

theorem observe_scheduled {e : Event (Kernel Unit) (KernelLabel Unit)} (label : e.label = .schedule ()) :
    observe e = .nothing := by
  simp [observe, label]

theorem lives_scheduled (l : List (Event (Kernel Unit) (KernelLabel Unit)))
    {l' : List (Event (Kernel Unit) (KernelLabel Unit))} (labels : ∀ e ∈ l', e.label = .schedule ())
    (q : Fin nproc) : lives (l ++ l') q = lives l q := by
  induction l' using List.reverseRecOn with
  | nil => rw [List.append_nil]
  | append_singleton l' e ih =>
    simp only [List.forall_mem_append, List.forall_mem_singleton] at labels
    rw [← List.append_assoc, lives_snoc, observe_scheduled labels.2]
    exact ih labels.1

theorem Looping.alive {s : Kernel Unit} {l : List (Event (Kernel Unit) (KernelLabel Unit))}
    (looping : Looping s) (run : Run Kernel.Step .boot l s) : (s.table child).state.alive := by
  have running := (lives_of_run run).1.running () child (by simp [Kernel.running, looping.point])
  rw [running]
  rfl

/-- The child can give up the CPU any number of times. -/
theorem exists_looping (n : ℕ) : ∃ l s, Run Kernel.Step (.boot : Kernel Unit) l s ∧ Looping s ∧
    (lives l child).returned = n ∧ ∀ e ∈ l, Unwrapped e := by
  induction n with
  | zero =>
    obtain ⟨l, s, run, ⟨point, lock, user, pid, priority, alone⟩, none, first⟩ :=
      exists_run_of_replay Kernel.step .boot
        (firstDispatch ++ forkActions ++ [.run () (.sleep (.other 0)), .schedule ()])
        (P := fun r => (r.2.cpu () = .running [0] 0 child ∧ r.2.lock = none ∧
          r.2.activity child = .user ∧ (r.2.table child).pid = 2 ∧ (r.2.table child).priority = 0 ∧
          ∀ q ≠ child, (r.2.table q).state ≠ .runnable) ∧
          (lives r.1 child).returned = 0 ∧ ∀ e ∈ r.1, 0 < e.before.nextpid) (by decide +kernel)
    exact ⟨l, s, run, ⟨point, lock, user, pid, priority, alone⟩, none,
      fun e mem p np _ => first e mem⟩
  | succ n ih =>
    obtain ⟨l, s, run, looping, returned, unwrapped⟩ := ih
    obtain ⟨s', ⟨l', scheduled, labels⟩, looping'⟩ := looping.again
    have on : s.running () = some child := by simp [Kernel.running, looping.point]
    have left : observe ⟨s, .run () .yield, s.backOff.arrive (.visit [0] 0 2) (some ())⟩ =
        .left child := (Kernel.quiet on (by simp)).leaves _ rfl
    refine ⟨_, s', (run.snoc looping.yield).append scheduled, looping', ?_, ?_⟩
    · rw [lives_scheduled _ labels, lives_snoc, left]
      simp [Observation.record, returned]
    · simp only [List.forall_mem_append, List.forall_mem_singleton]
      refine ⟨⟨unwrapped, fun p np seen => ?_⟩, fun e mem p np seen => ?_⟩
      · cases left.symm.trans seen
      · cases (observe_scheduled (labels e mem)).symm.trans seen

/-- The child has given up the CPU three times. -/
theorem getProcInfo_reports_three : ∃ l s info, Run Kernel.Step (.boot : Kernel Unit) l s ∧
    getProcInfo s.table 2 = .ok (some info) ∧ Reports l s child info ∧
    info.numberContextSwitches.toInt = 3 := by
  obtain ⟨l, s, run, looping, returned, unwrapped⟩ := exists_looping 3
  obtain ⟨info, found, reports⟩ := getProcInfo_reports run unwrapped (.inl (looping.alive run))
    (by rw [looping.pid]; decide)
  rw [looping.pid] at found
  have switches := reports.exact (by rw [returned]; decide)
  rw [returned] at switches
  exact ⟨l, s, info, run, found, reports, switches⟩

/-- After 2³¹ returns to the scheduler the number does not fit the counter. -/
theorem switches_fails_overflow : ∃ l s info, Run Kernel.Step (.boot : Kernel Unit) l s ∧
    (∀ e ∈ l, Unwrapped e) ∧ (s.table child).state.alive ∧ (s.table child).pid ≠ 1 ∧
    getProcInfo s.table (s.table child).pid = .ok (some info) ∧
    info.numberContextSwitches.toInt ≠ (lives l child).returned := by
  obtain ⟨l, s, run, looping, returned, unwrapped⟩ := exists_looping (2 ^ 31)
  have other : (s.table child).pid ≠ 1 := by
    rw [looping.pid]
    decide
  have found := getProcInfo_of_run run unwrapped (.inl (looping.alive run)) other
  refine ⟨l, s, _, run, unwrapped, looping.alive run, other, found, fun same => ?_⟩
  have bound := Int32.toInt_lt (s.table child).switchCnt
  rw [same, returned] at bound
  exact absurd bound (by decide)

end Loop

end SsuOs.Xv6
