import SsuOs.Base.Ring
import SsuOs.Base.Run

/-!
# Pipes

`pipe.c`: a ring of bytes between the processes that write to a pipe and those that read from it.
A step is what a process does under `p->lock`, up to its return or its sleep. Any number of
processes may hold either end, and any of them may be killed.

`PipeStream` says what arrives, and `PipeSleepers` who sleeps.
-/

namespace SsuOs.Xv6.Pipes

/-- `PIPESIZE`. -/
abbrev pipeSize : ℕ := 512

/-- `struct pipe`. The array has a byte for every index below `pipeSize`. -/
structure Pipe where
  data : ℕ → UInt8
  nread : UInt32
  nwrite : UInt32
  readopen : Bool
  writeopen : Bool

/-- What `pipealloc` sets up. -/
def pipealloc (data : ℕ → UInt8) : Pipe :=
  { data, nread := 0, nwrite := 0, readopen := true, writeopen := true }

/-- The loop of `pipewrite` until the bytes are written or the pipe is full, and the bytes that are
left. -/
def fill (p : Pipe) : List UInt8 → Pipe × List UInt8
  | [] => (p, [])
  | b :: rest =>
    if p.nwrite = p.nread + UInt32.ofNat pipeSize then (p, b :: rest)
    else
      fill { p with
        data := Function.update p.data (p.nwrite.toNat % pipeSize) b
        nwrite := p.nwrite + 1 } rest

/-- The second loop of `piperead`, and the bytes that it has stored. -/
def drain (p : Pipe) : ℕ → Pipe × List UInt8
  | 0 => (p, [])
  | n + 1 =>
    if p.nread = p.nwrite then (p, [])
    else
      let r := drain { p with nread := p.nread + 1 } n
      (r.1, p.data (p.nread.toNat % pipeSize) :: r.2)

/-- Where a process is with respect to the pipe. -/
inductive Point
  | idle
  /-- in `pipewrite` with `n`, before the bytes `rest`, sleeping on `&p->nwrite` or woken from it -/
  | writing (n : ℕ) (rest : List UInt8) (asleep : Bool)
  /-- in `piperead` with `n`, sleeping on `&p->nread` or woken from it -/
  | reading (n : ℕ) (asleep : Bool)
  deriving DecidableEq, Repr

structure System (T : Type) where
  pipe : Pipe
  proc : T → Point
  killed : T → Bool

/-- What can happen next. -/
inductive Call (T : Type)
  | write (t : T) (addr : List UInt8)
  | read (t : T) (n : ℕ)
  /-- a process that was woken goes on -/
  | resume (t : T)
  | close (writable : Bool)
  | kill (t : T)

inductive Answer
  | done
  | sleeps
  /-- the call returned -1 -/
  | failed
  /-- `pipewrite` returned `n` -/
  | wrote (n : ℕ)
  /-- `piperead` returned the number of these bytes -/
  | got (bytes : List UInt8)
  deriving DecidableEq, Repr

/-- `wakeup(&p->nread)`. -/
def Point.wakeReader : Point → Point
  | .reading n _ => .reading n false
  | p => p

/-- `wakeup(&p->nwrite)`. -/
def Point.wakeWriter : Point → Point
  | .writing n rest _ => .writing n rest false
  | p => p

/-- The bytes that a process in `pipewrite` has still to write. -/
def Point.left : Point → List UInt8
  | .writing _ rest _ => rest
  | _ => []

def Point.isReading : Point → Bool
  | .reading _ _ => true
  | _ => false

def Point.isWriting : Point → Bool
  | .writing _ _ _ => true
  | _ => false

namespace System

variable {T : Type}

/-- The pipe that `pipealloc` has made, in a machine whose memory held `data`. -/
def opened (data : ℕ → UInt8) : System T := ⟨pipealloc data, fun _ => .idle, fun _ => false⟩

variable [DecidableEq T]

/-- `pipewrite` from the byte before `rest` to its return or its sleep. -/
def pipewrite (s : System T) (t : T) (n : ℕ) (rest : List UInt8) : Answer × System T :=
  let r := fill s.pipe rest
  if r.2 = [] then
    (.wrote n, { s with
      pipe := r.1
      proc := Function.update (fun u => (s.proc u).wakeReader) t .idle })
  else if r.1.readopen = false ∨ s.killed t = true then
    (.failed, { s with pipe := r.1, proc := Function.update s.proc t .idle })
  else
    (.sleeps, { s with
      pipe := r.1
      proc := Function.update (fun u => (s.proc u).wakeReader) t (.writing n r.2 true) })

/-- `piperead` from the test of its first loop to its return or its sleep. -/
def piperead (s : System T) (t : T) (n : ℕ) : Answer × System T :=
  if s.pipe.nread = s.pipe.nwrite ∧ s.pipe.writeopen = true then
    if s.killed t = true then (.failed, { s with proc := Function.update s.proc t .idle })
    else (.sleeps, { s with proc := Function.update s.proc t (.reading n true) })
  else
    let r := drain s.pipe n
    (.got r.2, { s with
      pipe := r.1
      proc := Function.update (fun u => (s.proc u).wakeWriter) t .idle })

/-- `pipeclose`, without the `kfree` of a pipe that has no ends left. -/
def pipeclose (s : System T) (writable : Bool) : System T :=
  if writable then
    { s with
      pipe := { s.pipe with writeopen := false }
      proc := fun u => (s.proc u).wakeReader }
  else
    { s with
      pipe := { s.pipe with readopen := false }
      proc := fun u => (s.proc u).wakeWriter }

/-- `kill`: the process is marked, and woken if it sleeps. -/
def kill (s : System T) (t : T) : System T :=
  { s with
    proc := Function.update s.proc t (s.proc t).wakeReader.wakeWriter
    killed := Function.update s.killed t true }

variable [Fintype T]

/-- What happens at a call, if it can be made. A process calls `pipewrite` or `piperead` through a
descriptor of that end, and an end is closed with its last descriptor, so that no process is in a
call on it (`fileclose` counts references). -/
def exec (s : System T) : Call T → Option (Answer × System T)
  | .write t addr =>
    if s.proc t = .idle ∧ s.pipe.writeopen = true then some (s.pipewrite t addr.length addr)
    else none
  | .read t n =>
    if s.proc t = .idle ∧ s.pipe.readopen = true then some (s.piperead t n) else none
  | .resume t =>
    match s.proc t with
    | .writing n rest false => some (s.pipewrite t n rest)
    | .reading n false => some (s.piperead t n)
    | _ => none
  | .close true =>
    if s.pipe.writeopen = true ∧ ∀ t, (s.proc t).isWriting = false then
      some (.done, s.pipeclose true)
    else none
  | .close false =>
    if s.pipe.readopen = true ∧ ∀ t, (s.proc t).isReading = false then
      some (.done, s.pipeclose false)
    else none
  | .kill t => some (.done, s.kill t)

/-- The steps, each with what was called and what it answered. -/
def Step (s : System T) (a : Call T × Answer) (s' : System T) : Prop :=
  s.exec a.1 = some (a.2, s')

end System

/-! ## The ring -/

namespace Pipe

/-- The bytes in the pipe. -/
def queue (p : Pipe) : List UInt8 := Ring.queue p.data pipeSize p.nread p.nwrite

/-- The pipe is not overfull. -/
def Bounded (p : Pipe) : Prop := p.queue.length ≤ pipeSize

theorem full_iff (p : Pipe) :
    p.nwrite = p.nread + UInt32.ofNat pipeSize ↔ p.queue.length = pipeSize := by
  rw [queue, Ring.length_queue]
  exact Ring.eq_add_iff (by decide)

theorem empty_iff (p : Pipe) : p.nread = p.nwrite ↔ p.queue = [] :=
  Ring.queue_eq_nil_iff.symm

end Pipe

/-- `fill` appends the bytes `sent`, in order, and stops at the first that does not fit. -/
structure Filled (p : Pipe) (rest sent : List UInt8) (q : Pipe) (left : List UInt8) : Prop where
  split : rest = sent ++ left
  queue : q.queue = p.queue ++ sent
  bounded : q.Bounded
  full : left ≠ [] → q.queue.length = pipeSize
  nwrite : q.nwrite = p.nwrite + UInt32.ofNat sent.length
  readopen : q.readopen = p.readopen
  writeopen : q.writeopen = p.writeopen

theorem fill_spec (p : Pipe) (bounded : p.Bounded) (rest : List UInt8) :
    ∃ sent, Filled p rest sent (fill p rest).1 (fill p rest).2 := by
  induction rest generalizing p with
  | nil => exact ⟨[], rfl, by simp [fill], bounded, by simp [fill], by simp [fill], rfl, rfl⟩
  | cons b rest ih =>
    rw [fill]
    split
    · rename_i full
      exact ⟨[], rfl, by simp, bounded, fun _ => p.full_iff.1 full, by simp, rfl, rfl⟩
    · rename_i room
      rw [p.full_iff] at room
      have length : p.queue.length = (p.nwrite - p.nread).toNat := Ring.length_queue
      have space : (p.nwrite - p.nread).toNat < pipeSize := by
        rw [← length]
        exact lt_of_le_of_ne bounded room
      set q : Pipe := { p with
        data := Function.update p.data (p.nwrite.toNat % pipeSize) b, nwrite := p.nwrite + 1 }
      have grown : q.queue = p.queue ++ [b] :=
        Ring.queue_push (by decide) (by decide) space b
      have fits : q.Bounded := by
        rw [Pipe.Bounded, grown, List.length_append, List.length_singleton]
        exact lt_of_le_of_ne bounded room
      obtain ⟨sent, filled⟩ := ih q fits
      refine ⟨b :: sent, ?_, ?_, filled.bounded, filled.full, ?_, filled.readopen,
        filled.writeopen⟩
      · rw [List.cons_append, ← filled.split]
      · rw [filled.queue, grown, List.append_assoc]
        rfl
      · rw [filled.nwrite, List.length_cons]
        change p.nwrite + 1 + _ = _
        rw [Nat.add_comm, UInt32.ofNat_add]
        grind

/-- `drain` takes the first bytes, as many as are wanted and there. -/
structure Drained (p : Pipe) (n : ℕ) (q : Pipe) (bytes : List UInt8) : Prop where
  queue : p.queue = bytes ++ q.queue
  length : bytes.length = min n p.queue.length
  nwrite : q.nwrite = p.nwrite
  readopen : q.readopen = p.readopen
  writeopen : q.writeopen = p.writeopen

theorem drain_spec (p : Pipe) (n : ℕ) : Drained p n (drain p n).1 (drain p n).2 := by
  induction n generalizing p with
  | zero => exact ⟨rfl, by simp [drain], rfl, rfl, rfl⟩
  | succ n ih =>
    rw [drain]
    split
    · rename_i empty
      constructor <;> simp [p.empty_iff.1 empty]
    · rename_i nonempty
      have popped : p.queue = p.data (p.nread.toNat % pipeSize) ::
          Pipe.queue { p with nread := p.nread + 1 } := Ring.queue_pop (by decide) nonempty
      have rest := ih { p with nread := p.nread + 1 }
      refine ⟨?_, ?_, rest.nwrite, rest.readopen, rest.writeopen⟩
      · rw [List.cons_append, ← rest.queue]
        exact popped
      · rw [popped, List.length_cons, List.length_cons, rest.length]
        omega

/-! ## What a step does -/

namespace System

variable {T : Type} {s s' : System T} {t : T} {n : ℕ} {rest : List UInt8} {a : Call T × Answer}

/-- The call is that of a process which enters `pipewrite`, or goes on in it, before the bytes
`rest`. -/
inductive Writes (s : System T) (t : T) : ℕ → List UInt8 → Call T → Prop
  | enters (addr : List UInt8) (idle : s.proc t = .idle) (opened : s.pipe.writeopen = true) :
      Writes s t addr.length addr (.write t addr)
  | resumes (n : ℕ) (rest : List UInt8) (woken : s.proc t = .writing n rest false) :
      Writes s t n rest (.resume t)

/-- The call is that of a process which enters `piperead`, or goes on in it. -/
inductive Reads (s : System T) (t : T) : ℕ → Call T → Prop
  | enters (n : ℕ) (idle : s.proc t = .idle) (opened : s.pipe.readopen = true) :
      Reads s t n (.read t n)
  | resumes (n : ℕ) (woken : s.proc t = .reading n false) : Reads s t n (.resume t)

section Steps

variable [DecidableEq T]

/-- The ways of taking a step. -/
inductive Effect (s : System T) : Call T × Answer → System T → Prop
  | writes {t : T} {n : ℕ} {rest sent : List UInt8} {call : Call T} {q : Pipe}
      (writes : Writes s t n rest call) (filled : Filled s.pipe rest sent q []) :
      Effect s (call, .wrote n) { s with
        pipe := q
        proc := Function.update (fun u => (s.proc u).wakeReader) t .idle }
  | fails {t : T} {n : ℕ} {rest sent left : List UInt8} {call : Call T} {q : Pipe}
      (writes : Writes s t n rest call) (filled : Filled s.pipe rest sent q left)
      (unfinished : left ≠ []) (why : s.pipe.readopen = false ∨ s.killed t = true) :
      Effect s (call, .failed) { s with pipe := q, proc := Function.update s.proc t .idle }
  | blocks {t : T} {n : ℕ} {rest sent left : List UInt8} {call : Call T} {q : Pipe}
      (writes : Writes s t n rest call) (filled : Filled s.pipe rest sent q left)
      (unfinished : left ≠ []) (opened : s.pipe.readopen = true) (alive : s.killed t = false) :
      Effect s (call, .sleeps) { s with
        pipe := q
        proc := Function.update (fun u => (s.proc u).wakeReader) t (.writing n left true) }
  | reads {t : T} {n : ℕ} {bytes : List UInt8} {call : Call T} {q : Pipe}
      (reads : Reads s t n call) (drained : Drained s.pipe n q bytes)
      (some : s.pipe.queue ≠ [] ∨ s.pipe.writeopen = false) :
      Effect s (call, .got bytes) { s with
        pipe := q
        proc := Function.update (fun u => (s.proc u).wakeWriter) t .idle }
  | gives {t : T} {n : ℕ} {call : Call T} (reads : Reads s t n call)
      (empty : s.pipe.queue = []) (dead : s.killed t = true) :
      Effect s (call, .failed) { s with proc := Function.update s.proc t .idle }
  | waits {t : T} {n : ℕ} {call : Call T} (reads : Reads s t n call)
      (empty : s.pipe.queue = []) (opened : s.pipe.writeopen = true)
      (alive : s.killed t = false) :
      Effect s (call, .sleeps) { s with proc := Function.update s.proc t (.reading n true) }
  | closesWrite (opened : s.pipe.writeopen = true) (unused : ∀ t, (s.proc t).isWriting = false) :
      Effect s (.close true, .done) (s.pipeclose true)
  | closesRead (opened : s.pipe.readopen = true) (unused : ∀ t, (s.proc t).isReading = false) :
      Effect s (.close false, .done) (s.pipeclose false)
  | kills (t : T) : Effect s (.kill t, .done) (s.kill t)

theorem effect_of_pipewrite (bounded : s.pipe.Bounded) {call : Call T}
    (writes : Writes s t n rest call) :
    Effect s (call, (s.pipewrite t n rest).1) (s.pipewrite t n rest).2 := by
  obtain ⟨sent, filled⟩ := fill_spec s.pipe bounded rest
  rw [pipewrite]
  split
  · rename_i all
    rw [all] at filled
    exact .writes writes filled
  · rename_i unfinished
    rw [filled.readopen]
    split
    · exact .fails writes filled unfinished ‹_›
    · rename_i stays
      push Not at stays
      exact .blocks writes filled unfinished (by simpa using stays.1) (by simpa using stays.2)

theorem effect_of_piperead {call : Call T} (reads : Reads s t n call) :
    Effect s (call, (s.piperead t n).1) (s.piperead t n).2 := by
  rw [piperead]
  split
  · rename_i empty
    split
    · exact .gives reads (s.pipe.empty_iff.1 empty.1) ‹_›
    · rename_i alive
      exact .waits reads (s.pipe.empty_iff.1 empty.1) empty.2 (by simpa using alive)
  · rename_i some
    refine .reads reads (drain_spec s.pipe n) ?_
    rw [s.pipe.empty_iff] at some
    by_cases empty : s.pipe.queue = []
    · right
      simpa [empty] using some
    · exact .inl empty

variable [Fintype T]

theorem Step.effect (bounded : s.pipe.Bounded) (taken : Step s a s') : Effect s a s' := by
  obtain ⟨call, answer⟩ := a
  rw [Step] at taken
  cases call with
  | write t addr =>
    simp only [exec, Option.ite_none_right_eq_some, Option.some.injEq] at taken
    obtain ⟨here, taken⟩ := taken
    have effect := effect_of_pipewrite bounded (.enters addr here.1 here.2 : Writes s t _ _ _)
    rwa [taken] at effect
  | read t n =>
    simp only [exec, Option.ite_none_right_eq_some, Option.some.injEq] at taken
    obtain ⟨here, taken⟩ := taken
    have effect := effect_of_piperead (.enters n here.1 here.2 : Reads s t _ _)
    rwa [taken] at effect
  | resume t =>
    simp only [exec] at taken
    split at taken
    · rename_i n rest here
      have effect := effect_of_pipewrite bounded (.resumes n rest here : Writes s t _ _ _)
      rwa [Option.some.inj taken] at effect
    · rename_i n here
      have effect := effect_of_piperead (.resumes n here : Reads s t _ _)
      rwa [Option.some.inj taken] at effect
    · cases taken
  | close writable =>
    cases writable with
    | true =>
      simp only [exec, Option.ite_none_right_eq_some, Option.some.injEq, Prod.mk.injEq] at taken
      obtain ⟨here, rfl, rfl⟩ := taken
      exact .closesWrite here.1 here.2
    | false =>
      simp only [exec, Option.ite_none_right_eq_some, Option.some.injEq, Prod.mk.injEq] at taken
      obtain ⟨here, rfl, rfl⟩ := taken
      exact .closesRead here.1 here.2
  | kill t =>
    simp only [exec, Option.some.injEq, Prod.mk.injEq] at taken
    obtain ⟨rfl, rfl⟩ := taken
    exact .kills t

/-- The step as a function, for runs that are computed. -/
def next (s : System T) (a : Call T × Answer) : Option (System T) :=
  match s.exec a.1 with
  | some (answer, s') => if answer = a.2 then some s' else none
  | none => none

theorem step_of_next (taken : s.next a = some s') : Step s a s' := by
  rw [next] at taken
  rw [Step]
  split at taken
  · rename_i answer x done
    split at taken
    · rename_i same
      rw [done, same, Option.some.inj taken]
    · cases taken
  · cases taken

theorem exists_run (s : System T) (labels : List (Call T × Answer))
    {P : List (Event (System T) (Call T × Answer)) × System T → Prop} [DecidablePred P]
    (meets : (replay next s labels).any fun r => decide (P r)) :
    ∃ l t, Run Step s l t ∧ P (l, t) := by
  obtain ⟨l, t, run, holds⟩ := exists_run_of_replay next s labels meets
  exact ⟨l, t, run.mono fun _ _ _ taken => step_of_next taken, holds⟩

end Steps

end System

end SsuOs.Xv6.Pipes
