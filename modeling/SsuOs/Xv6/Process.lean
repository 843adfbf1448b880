import Mathlib.Algebra.Group.Nat.Defs
import SsuOs.Xv6.Scheduler

/-!
# Processes of xv6

The process table of `hw3/xv6/proc.c` on any number of CPUs: each CPU runs `scheduler`, and each
process that is dispatched may call `fork`, `exit`, `wait`, `sleep`, `wakeup`, `kill` and
`set_prio`. What a function does while it holds `ptable.lock` is one step; the parts of `fork` that
run without the lock are steps of their own, and a process may be preempted between them.  A process
that was switched to releases the lock at once.
-/

namespace SsuOs.Xv6

/-- What a process can sleep on: the null pointer, the address of a slot, or any other address. -/
inductive Chan
  | null
  | slot (p : Fin nproc)
  | other (address : ℕ)
  deriving DecidableEq

/-- The fields of `struct proc` that the functions on the process table read or write. -/
structure Task extends Proc where
  pid : Int32
  parent : Option (Fin nproc)
  sz : UInt32
  chan : Chan
  killed : Bool

/-- A slot of the zeroed array. -/
def Task.zero : Task where
  state := .unused
  switchCnt := 0
  priority := 0
  pid := 0
  parent := none
  sz := 0
  chan := .null
  killed := false

/-- What a process is doing in the kernel.  The steps of `fork` after `allocproc` has taken the slot
`np` are: the allocation of the kernel stack, the copy of the address space, the assignments of `sz`
and of `parent`, and the change of the state. -/
inductive Activity
  | user
  | kalloc (np : Fin nproc)
  | copyuvm (np : Fin nproc)
  | inherit (np : Fin nproc)
  | adopt (np : Fin nproc)
  | publish (np : Fin nproc)
  /-- in `sleep`, before its return -/
  | asleep
  /-- in the `sleep` of `wait` -/
  | waiting
  deriving DecidableEq

/-- `ptable.proc`, `nextpid`, `initproc`, the CPU that holds `ptable.lock`, the scheduler of each
CPU, and the activity of each process. -/
structure Kernel (κ : Type) where
  table : Fin nproc → Task
  nextpid : Int32
  initproc : Fin nproc
  lock : Option κ
  cpu : κ → Scheduler.Point
  activity : Fin nproc → Activity

/-! ## Functions on the table -/

/-- The first slot with `P`. -/
def firstSlot (table : Fin nproc → Task) (P : Task → Prop) [DecidablePred P] : Option (Fin nproc) :=
  (List.finRange nproc).find? fun p => P (table p)

/-- `wakeup1`. -/
def wakeup1 (chan : Chan) (table : Fin nproc → Task) : Fin nproc → Task := fun q =>
  if (table q).state = .sleeping ∧ (table q).chan = chan then { table q with state := .runnable }
  else table q

/-- A pointer to a slot, as a channel. -/
def chanOf : Option (Fin nproc) → Chan
  | none => .null
  | some p => .slot p

/-- One round of the loop of `exit` that passes the children of `cur` to `init`. -/
def passChild (cur init : Fin nproc) (table : Fin nproc → Task) (p : Fin nproc) :
    Fin nproc → Task :=
  if (table p).parent = some cur then
    let passed := Function.update table p { table p with parent := some init }
    if (table p).state = .zombie then wakeup1 (.slot init) passed else passed
  else table

def passChildren (cur init : Fin nproc) (table : Fin nproc → Task) : Fin nproc → Task :=
  (List.finRange nproc).foldl (passChild cur init) table

/-- The process table after `exit` of `cur`, before `sched`. -/
def exitTable (cur init : Fin nproc) (table : Fin nproc → Task) : Fin nproc → Task :=
  let passed := passChildren cur init (wakeup1 (chanOf (table cur).parent) table)
  Function.update passed cur { passed cur with state := .zombie }

/-- The slot of a child that `wait` has found. -/
def Task.reaped (t : Task) : Task :=
  { t with pid := 0, parent := none, killed := false, state := .unused }

/-- The slot that `allocproc` has taken. -/
def Task.embryo (t : Task) (pid : Int32) : Task :=
  { t with state := .embryo, pid := pid, switchCnt := 0, priority := 0 }

namespace Kernel

variable {κ : Type} [DecidableEq κ]

def setTask (s : Kernel κ) (p : Fin nproc) (t : Task) : Kernel κ :=
  { s with table := Function.update s.table p t }

def setActivity (s : Kernel κ) (p : Fin nproc) (a : Activity) : Kernel κ :=
  { s with activity := Function.update s.activity p a }

/-- The process that the CPU `c` runs. -/
def running (s : Kernel κ) (c : κ) : Option (Fin nproc) :=
  match s.cpu c with
  | .running _ _ p => some p
  | _ => none

/-- A step of the scheduler of the CPU `c`, apart from the lock. -/
def schedule (s : Kernel κ) (c : κ) : Kernel κ :=
  let r := (Scheduler.next ⟨s.cpu c, fun p => (s.table p).toProc⟩).2
  { s with
    cpu := Function.update s.cpu c r.point
    table := fun p => { s.table p with toProc := r.table p } }

/-- The scheduler takes the lock for the first loop and for each pass, and keeps it while it visits
the slots; a process that it switches to releases it. -/
def scheduler (s : Kernel κ) (c : κ) : Option (Kernel κ) :=
  match s.cpu c with
  | .outer => if s.lock = none then some (s.schedule c) else none
  | .sort _ => some (s.schedule c)
  | .pass queue i =>
      if i < queue.length then
        if s.lock = none then some { s.schedule c with lock := some c } else none
      else some (s.schedule c)
  | .visit .. =>
      if s.lock = some c then
        some { s.schedule c with lock := if ((s.schedule c).cpu c).unlocked then none else some c }
      else none
  | .running .. => none

/-- `sched`: back to the scheduler, which goes on with the lock. -/
def sched (s : Kernel κ) (c : κ) : Kernel κ := { s.schedule c with lock := some c }

/-! ## What a process can do -/

/-- A timer interrupt; `sleep` and `wait` go on with the lock and cannot be interrupted. -/
def yield (s : Kernel κ) (c : κ) (p : Fin nproc) : Option (Kernel κ) :=
  if s.lock = none ∧ s.activity p ≠ .asleep ∧ s.activity p ≠ .waiting then
    some ((s.setTask p { s.table p with state := .runnable }).sched c)
  else none

def sleep (s : Kernel κ) (c : κ) (p : Fin nproc) (chan : Chan) : Option (Kernel κ) :=
  if s.lock = none ∧ s.activity p = .user then
    some (((s.setTask p { s.table p with chan := chan, state := .sleeping }).setActivity p
      .asleep).sched c)
  else none

/-- `sleep` after `sched`. -/
def resume (s : Kernel κ) (p : Fin nproc) : Option (Kernel κ) :=
  if s.activity p = .asleep then
    some ((s.setTask p { s.table p with chan := .null }).setActivity p .user)
  else none

/-- `allocproc` up to the release of the lock. -/
def fork (s : Kernel κ) (p : Fin nproc) : Option (Kernel κ) :=
  if s.lock = none ∧ s.activity p = .user then
    match firstSlot s.table fun t => t.state = .unused with
    | none => some s
    | some np =>
        some (({ s with nextpid := s.nextpid + 1 }.setTask np
          ((s.table np).embryo s.nextpid)).setActivity p (.kalloc np))
  else none

/-- `fork` after the failure of an allocation: the slot is given back without the lock. -/
def fail (s : Kernel κ) (p np : Fin nproc) : Kernel κ :=
  (s.setTask np { s.table np with state := .unused }).setActivity p .user

def kalloc (s : Kernel κ) (p : Fin nproc) (ok : Bool) : Option (Kernel κ) :=
  match s.activity p with
  | .kalloc np => some (if ok then s.setActivity p (.copyuvm np) else s.fail p np)
  | _ => none

def copyuvm (s : Kernel κ) (p : Fin nproc) (ok : Bool) : Option (Kernel κ) :=
  match s.activity p with
  | .copyuvm np => some (if ok then s.setActivity p (.inherit np) else s.fail p np)
  | _ => none

/-- `np->sz = curproc->sz`. -/
def inherit (s : Kernel κ) (p : Fin nproc) : Option (Kernel κ) :=
  match s.activity p with
  | .inherit np => some ((s.setTask np { s.table np with sz := (s.table p).sz }).setActivity p (.adopt np))
  | _ => none

/-- `np->parent = curproc`. -/
def adopt (s : Kernel κ) (p : Fin nproc) : Option (Kernel κ) :=
  match s.activity p with
  | .adopt np => some ((s.setTask np { s.table np with parent := some p }).setActivity p (.publish np))
  | _ => none

/-- The end of `fork`. -/
def publish (s : Kernel κ) (p : Fin nproc) : Option (Kernel κ) :=
  match s.activity p with
  | .publish np =>
      if s.lock = none then
        some ((s.setTask np { s.table np with state := .runnable }).setActivity p .user)
      else none
  | _ => none

/-- The process `initproc` may not exit. -/
def exit (s : Kernel κ) (c : κ) (p : Fin nproc) : Option (Kernel κ) :=
  if s.lock = none ∧ s.activity p = .user ∧ p ≠ s.initproc then
    some ({ s with table := exitTable p s.initproc s.table }.sched c)
  else none

/-- One scan of the table by `wait`, and what comes of it: a child is found and its slot freed, or
`wait` gives up, or it sleeps until a child exits. -/
def wait (s : Kernel κ) (c : κ) (p : Fin nproc) : Option (Kernel κ) :=
  if s.lock = none ∧ (s.activity p = .user ∨ s.activity p = .waiting) then
    let s := s.setTask p { s.table p with chan := .null }
    match firstSlot s.table fun t => t.parent = some p ∧ t.state = .zombie with
    | some q => some ((s.setTask q (s.table q).reaped).setActivity p .user)
    | none =>
        if firstSlot s.table (fun t => t.parent = some p) = none ∨ (s.table p).killed then
          some (s.setActivity p .user)
        else
          some (((s.setTask p { s.table p with chan := .slot p, state := .sleeping }).setActivity p
            .waiting).sched c)
  else none

def kill (s : Kernel κ) (p : Fin nproc) (pid : Int32) : Option (Kernel κ) :=
  if s.lock = none ∧ s.activity p = .user then
    match firstSlot s.table fun t => t.pid = pid with
    | some q =>
        some (s.setTask q { s.table q with
          killed := true
          state := if (s.table q).state = .sleeping then .runnable else (s.table q).state })
    | none => some s
  else none

def setPrio (s : Kernel κ) (p : Fin nproc) (n : ℤ) : Option (Kernel κ) :=
  if s.lock = none ∧ s.activity p = .user then
    some (s.setTask p { s.table p with priority := n })
  else none

/-- `growproc` and `exec` keep the size of a process below `KERNBASE`. -/
def resize (s : Kernel κ) (p : Fin nproc) (sz : UInt32) : Option (Kernel κ) :=
  if s.activity p = .user ∧ sz.toNat < 2 ^ 31 then some (s.setTask p { s.table p with sz := sz })
  else none

end Kernel

/-- The next step of a process. -/
inductive Action
  | yield
  | sleep (chan : Chan)
  | resume
  | fork
  | kalloc (ok : Bool)
  | copyuvm (ok : Bool)
  | inherit
  | adopt
  | publish
  | exit
  | wait
  | kill (pid : Int32)
  | setPrio (n : ℤ)
  | resize (sz : UInt32)

/-- A step of the scheduler of a CPU, a step of the process that a CPU runs, or `wakeup`, which
interrupt handlers call as well. -/
inductive KernelLabel (κ : Type)
  | schedule (c : κ)
  | run (c : κ) (a : Action)
  | wakeup (chan : Chan)

namespace Kernel

variable {κ : Type} [DecidableEq κ]

def act (s : Kernel κ) (c : κ) (p : Fin nproc) : Action → Option (Kernel κ)
  | .yield => s.yield c p
  | .sleep chan => s.sleep c p chan
  | .resume => s.resume p
  | .fork => s.fork p
  | .kalloc ok => s.kalloc p ok
  | .copyuvm ok => s.copyuvm p ok
  | .inherit => s.inherit p
  | .adopt => s.adopt p
  | .publish => s.publish p
  | .exit => s.exit c p
  | .wait => s.wait c p
  | .kill pid => s.kill p pid
  | .setPrio n => s.setPrio p n
  | .resize sz => s.resize p sz

def step (s : Kernel κ) : KernelLabel κ → Option (Kernel κ)
  | .schedule c => s.scheduler c
  | .run c a => (s.running c).bind fun p => s.act c p a
  | .wakeup chan => if s.lock = none then some { s with table := wakeup1 chan s.table } else none

def Step (s : Kernel κ) (a : KernelLabel κ) (s' : Kernel κ) : Prop := s.step a = some s'

/-- `PGSIZE`. -/
abbrev pgsize : UInt32 := 4096

/-- The kernel after `userinit`, which takes the first slot for `initproc`. -/
def boot : Kernel κ where
  table := Function.update (fun _ => .zero) ⟨0, by decide⟩
    { Task.zero.embryo 1 with sz := pgsize, state := .runnable }
  nextpid := 2
  initproc := ⟨0, by decide⟩
  lock := none
  cpu _ := .outer
  activity _ := .user

end Kernel

end SsuOs.Xv6
