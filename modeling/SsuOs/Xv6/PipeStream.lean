import SsuOs.Xv6.Pipe

/-!
# The stream through a pipe

Reads deliver the bytes that writes put in, in that order and without loss or repetition
(`stream_of_run`), and a read that finds the end of the data has everything (`delivers_of_run`).
-/

namespace SsuOs.Xv6.Pipes.System

variable {T : Type} {s s' : System T} {t : T} {n : ℕ} {rest : List UInt8} {a : Call T × Answer}
  {l : List (Event (System T) (Call T × Answer))} {data : ℕ → UInt8}

/-! ## The stream -/

/-- The bytes that the process of a call has still to write. -/
def pending (s : System T) : Call T → List UInt8
  | .write _ addr => addr
  | .resume t => (s.proc t).left
  | _ => []

/-- The bytes that an event put into the pipe: the first of those pending, as many as `nwrite` has
advanced. -/
def sentBy (e : Event (System T) (Call T × Answer)) : List UInt8 :=
  (e.before.pending e.label.1).take (e.after.pipe.nwrite - e.before.pipe.nwrite).toNat

/-- The bytes that an event gave to a reader. -/
def gotBy (e : Event (System T) (Call T × Answer)) : List UInt8 :=
  match e.label.2 with
  | .got bytes => bytes
  | _ => []

def sent (l : List (Event (System T) (Call T × Answer))) : List UInt8 := l.flatMap sentBy

def received (l : List (Event (System T) (Call T × Answer))) : List UInt8 := l.flatMap gotBy

theorem Writes.pending {call : Call T} (writes : Writes s t n rest call) :
    s.pending call = rest := by
  cases writes with
  | enters => rfl
  | resumes n rest woken => simp [System.pending, woken, Point.left]

theorem sentBy_of_filled {call : Call T} {answer : Answer} {sent left : List UInt8}
    (writes : Writes s t n rest call) (filled : Filled s.pipe rest sent s'.pipe left) :
    sentBy ⟨s, (call, answer), s'⟩ = sent := by
  have few : sent.length < 2 ^ 32 := by
    have := filled.bounded
    rw [Pipe.Bounded, filled.queue, List.length_append] at this
    change _ ≤ 512 at this
    omega
  have advanced : (s'.pipe.nwrite - s.pipe.nwrite).toNat = sent.length := by
    rw [filled.nwrite, show s.pipe.nwrite + UInt32.ofNat sent.length - s.pipe.nwrite =
      UInt32.ofNat sent.length by grind]
    exact UInt32.toNat_ofNat_of_lt' few
  rw [sentBy, writes.pending, advanced, filled.split, List.take_left]

theorem sentBy_of_nwrite {a : Call T × Answer} (same : s'.pipe.nwrite = s.pipe.nwrite) :
    sentBy ⟨s, a, s'⟩ = [] := by
  simp [sentBy, same]

/-- The step takes from the front of the queue what it gives to a reader, and appends what it takes
from a writer. -/
def Conserves (e : Event (System T) (Call T × Answer)) : Prop :=
  gotBy e ++ e.after.pipe.queue = e.before.pipe.queue ++ sentBy e

theorem conserves_of_same (queue : s'.pipe.queue = s.pipe.queue)
    (nwrite : s'.pipe.nwrite = s.pipe.nwrite) (nothing : gotBy ⟨s, a, s'⟩ = []) :
    Conserves ⟨s, a, s'⟩ := by
  rw [Conserves, sentBy_of_nwrite nwrite, nothing, queue, List.append_nil]
  rfl

theorem queue_opened : (opened data : System T).pipe.queue = [] := Ring.queue_self

theorem bounded_opened : (opened data : System T).pipe.Bounded := by
  simp [Pipe.Bounded, queue_opened]

section Steps

variable [DecidableEq T]

theorem Effect.conserves (effect : Effect s a s') : Conserves ⟨s, a, s'⟩ := by
  cases effect with
  | writes writes filled =>
    rw [Conserves, sentBy_of_filled writes filled]
    exact filled.queue
  | fails writes filled =>
    rw [Conserves, sentBy_of_filled writes filled]
    exact filled.queue
  | blocks writes filled =>
    rw [Conserves, sentBy_of_filled writes filled]
    exact filled.queue
  | reads reads drained =>
    rw [Conserves, sentBy_of_nwrite drained.nwrite, List.append_nil]
    exact drained.queue.symm
  | gives => exact conserves_of_same rfl rfl rfl
  | waits => exact conserves_of_same rfl rfl rfl
  | closesWrite => exact conserves_of_same rfl rfl rfl
  | closesRead => exact conserves_of_same rfl rfl rfl
  | kills => exact conserves_of_same rfl rfl rfl

theorem Effect.bounded (effect : Effect s a s') (bounded : s.pipe.Bounded) :
    s'.pipe.Bounded := by
  cases effect with
  | writes _ filled => exact filled.bounded
  | fails _ filled => exact filled.bounded
  | blocks _ filled => exact filled.bounded
  | reads _ drained =>
    rw [Pipe.Bounded, drained.queue, List.length_append] at bounded
    exact (Nat.le_add_left ..).trans bounded
  | gives => exact bounded
  | waits => exact bounded
  | closesWrite => exact bounded
  | closesRead => exact bounded
  | kills => exact bounded

variable [Fintype T]

theorem bounded_of_run (run : Run Step (opened data) l s) : s.pipe.Bounded :=
  run.invariant (P := fun x => x.pipe.Bounded) bounded_opened
    fun _ _ _ bounded taken => (taken.effect bounded).bounded bounded

/-- What readers have received and what is in the pipe is, in this order, what writers have put into
it. -/
theorem received_append_queue (run : Run Step (opened data) l s) :
    received l ++ s.pipe.queue = sent l := by
  induction run with
  | nil => exact queue_opened
  | @snoc l x y a earlier taken ih =>
    have step : gotBy ⟨x, a, y⟩ ++ y.pipe.queue = x.pipe.queue ++ sentBy ⟨x, a, y⟩ :=
      (taken.effect (bounded_of_run earlier)).conserves
    rw [received, sent, List.flatMap_append, List.flatMap_append, ← received, ← sent,
      List.flatMap_singleton, List.flatMap_singleton, List.append_assoc, step, ← List.append_assoc,
      ih]

end Steps

/-! ## The end of the data -/

/-- Nobody writes to a pipe whose write end is closed, and nobody reads from one whose read end is
closed. -/
structure Held (s : System T) : Prop where
  write : ∀ t, (s.proc t).isWriting = true → s.pipe.writeopen = true
  read : ∀ t, (s.proc t).isReading = true → s.pipe.readopen = true

theorem held_opened : Held (opened data : System T) := by
  constructor <;> simp [opened, Point.isWriting, Point.isReading]

theorem Writes.writeopen {call : Call T} (writes : Writes s t n rest call) (held : Held s) :
    s.pipe.writeopen = true := by
  cases writes with
  | enters addr idle opened => exact opened
  | resumes n rest woken => exact held.write t (by rw [woken]; rfl)

theorem Reads.readopen {call : Call T} (reads : Reads s t n call) (held : Held s) :
    s.pipe.readopen = true := by
  cases reads with
  | enters _ opened => exact opened
  | resumes woken => exact held.read t (by simp [woken, Point.isReading])

@[simp] theorem isWriting_wakeReader (p : Point) : p.wakeReader.isWriting = p.isWriting := by
  cases p <;> rfl

@[simp] theorem isReading_wakeReader (p : Point) : p.wakeReader.isReading = p.isReading := by
  cases p <;> rfl

@[simp] theorem isWriting_wakeWriter (p : Point) : p.wakeWriter.isWriting = p.isWriting := by
  cases p <;> rfl

@[simp] theorem isReading_wakeWriter (p : Point) : p.wakeWriter.isReading = p.isReading := by
  cases p <;> rfl

/-- How many bytes the process of a call wants to read. -/
def wanted (s : System T) : Call T → ℕ
  | .read _ n => n
  | .resume t =>
    match s.proc t with
    | .reading n _ => n
    | _ => 0
  | _ => 0

/-- A read of at least one byte returned 0. -/
def EndOfFile (e : Event (System T) (Call T × Answer)) : Prop :=
  e.label.2 = .got [] ∧ e.before.wanted e.label.1 ≠ 0

instance : DecidablePred (EndOfFile (T := T)) := fun _ => inferInstanceAs (Decidable (_ ∧ _))

theorem Reads.wanted {call : Call T} (reads : Reads s t n call) : s.wanted call = n := by
  cases reads with
  | enters => rfl
  | resumes woken => simp [System.wanted, woken]

section Ends

variable [DecidableEq T]

/-- A process moves, the others are at most woken, and the ends stay as they are. -/
theorem Held.moves {p : Point} (held : Held s) {others : T → Point}
    (proc : s'.proc = Function.update others t p)
    (writers : ∀ u, (others u).isWriting = (s.proc u).isWriting)
    (readers : ∀ u, (others u).isReading = (s.proc u).isReading)
    (writeopen : s'.pipe.writeopen = s.pipe.writeopen)
    (readopen : s'.pipe.readopen = s.pipe.readopen)
    (write : p.isWriting = true → s.pipe.writeopen = true)
    (read : p.isReading = true → s.pipe.readopen = true) : Held s' := by
  constructor
  · intro u here
    rw [proc, Function.update_apply] at here
    rw [writeopen]
    split at here
    · exact write here
    · exact held.write u (writers u ▸ here)
  · intro u here
    rw [proc, Function.update_apply] at here
    rw [readopen]
    split at here
    · exact read here
    · exact held.read u (readers u ▸ here)

theorem Held.keeps (held : Held s) (effect : Effect s a s') : Held s' := by
  cases effect with
  | writes writes filled =>
    exact held.moves rfl (by simp) (by simp) filled.writeopen filled.readopen
      (by simp [Point.isWriting]) (by simp [Point.isReading])
  | fails writes filled =>
    exact held.moves rfl (by simp) (by simp) filled.writeopen filled.readopen
      (by simp [Point.isWriting]) (by simp [Point.isReading])
  | blocks writes filled =>
    exact held.moves rfl (by simp) (by simp) filled.writeopen filled.readopen
      (fun _ => writes.writeopen held) (by simp [Point.isReading])
  | reads reads drained =>
    exact held.moves rfl (by simp) (by simp) drained.writeopen drained.readopen
      (by simp [Point.isWriting]) (by simp [Point.isReading])
  | gives reads =>
    exact held.moves rfl (by simp) (by simp) rfl rfl (by simp [Point.isWriting])
      (by simp [Point.isReading])
  | waits reads =>
    exact held.moves rfl (by simp) (by simp) rfl rfl (by simp [Point.isWriting])
      fun _ => reads.readopen held
  | closesWrite opened unused =>
    constructor
    · intro u here
      simp [pipeclose, unused] at here
    · intro u here
      exact held.read u (by simpa [pipeclose] using here)
  | closesRead opened unused =>
    constructor
    · intro u here
      exact held.write u (by simpa [pipeclose] using here)
    · intro u here
      simp [pipeclose, unused] at here
  | kills t =>
    refine held.moves rfl (by simp) (by simp) rfl rfl ?_ ?_
    · intro here
      exact held.write t (by simpa using here)
    · intro here
      exact held.read t (by simpa using here)

/-- A write end that is closed stays closed, and nothing is written any more. -/
theorem Effect.closed (effect : Effect s a s') (held : Held s)
    (closed : s.pipe.writeopen = false) :
    s'.pipe.writeopen = false ∧ sentBy ⟨s, a, s'⟩ = [] := by
  cases effect with
  | writes writes => exact absurd (writes.writeopen held) (by simp [closed])
  | fails writes => exact absurd (writes.writeopen held) (by simp [closed])
  | blocks writes => exact absurd (writes.writeopen held) (by simp [closed])
  | reads _ drained => exact ⟨drained.writeopen.trans closed, sentBy_of_nwrite drained.nwrite⟩
  | gives => exact ⟨closed, sentBy_of_nwrite rfl⟩
  | waits => exact ⟨closed, sentBy_of_nwrite rfl⟩
  | closesWrite => exact ⟨rfl, sentBy_of_nwrite rfl⟩
  | closesRead => exact ⟨closed, sentBy_of_nwrite rfl⟩
  | kills => exact ⟨closed, sentBy_of_nwrite rfl⟩

/-- A read of at least one byte returns 0 only when the pipe is empty and its write end closed. -/
theorem Effect.endOfFile (effect : Effect s a s') (eof : EndOfFile ⟨s, a, s'⟩) :
    s'.pipe.queue = [] ∧ s'.pipe.writeopen = false := by
  cases effect with
  | @reads t n bytes call q reads drained some =>
    obtain rfl : bytes = [] := Answer.got.inj eof.1
    have positive : n ≠ 0 := by
      rw [← reads.wanted]
      exact eof.2
    have length := drained.length
    have empty : s.pipe.queue = [] := by
      rw [← List.length_eq_zero_iff]
      rw [List.length_nil] at length
      omega
    refine ⟨?_, ?_⟩
    · rw [← empty, drained.queue]
      rfl
    · rw [drained.writeopen]
      exact some.resolve_left (absurd empty)
  | _ => cases eof.1

variable [Fintype T]

theorem held_of_run (run : Run Step (opened data) l s) : Held s := by
  have both : Held s ∧ s.pipe.Bounded := by
    refine run.invariant (P := fun x => Held x ∧ x.pipe.Bounded) ?_ ?_
    · exact ⟨held_opened, bounded_opened⟩
    · intro x a y inv taken
      have effect := taken.effect inv.2
      exact ⟨inv.1.keeps effect, effect.bounded inv.2⟩
  exact both.1

theorem closed_of_eof (run : Run Step (opened data) l s) {e : Event (System T) (Call T × Answer)}
    (mem : e ∈ l) (eof : EndOfFile e) : s.pipe.queue = [] ∧ s.pipe.writeopen = false := by
  induction run with
  | nil => simp at mem
  | @snoc l x y a earlier taken ih =>
    have effect := taken.effect (bounded_of_run earlier)
    rcases List.mem_append.1 mem with before | last
    · have closed := effect.closed (held_of_run earlier) (ih before).2
      have step : Conserves ⟨x, a, y⟩ := effect.conserves
      rw [Conserves, closed.2, (ih before).1, List.append_nil] at step
      exact ⟨(List.append_eq_nil_iff.1 step).2, closed.1⟩
    · rw [List.mem_singleton.1 last] at eof
      exact effect.endOfFile eof

/-- Once a read of at least one byte has returned 0, everything that was ever written has been
received. -/
theorem received_of_eof (run : Run Step (opened data) l s)
    {e : Event (System T) (Call T × Answer)} (mem : e ∈ l) (eof : EndOfFile e) :
    received l = sent l := by
  rw [← received_append_queue run, (closed_of_eof run mem eof).1, List.append_nil]

end Ends

/-! ## What one process writes -/

/-- The process whose call is one of `pipewrite`. -/
def writer (s : System T) : Call T → Option T
  | .write t _ => some t
  | .resume t => if (s.proc t).isWriting then some t else none
  | _ => none

/-- A call of `pipewrite` returned -1. -/
def WriteFailed (e : Event (System T) (Call T × Answer)) : Prop :=
  e.label.2 = .failed ∧ (e.before.writer e.label.1).isSome

instance : DecidablePred (WriteFailed (T := T)) := fun _ => inferInstanceAs (Decidable (_ ∧ _))

theorem Writes.writer {call : Call T} (writes : Writes s t n rest call) :
    s.writer call = some t := by
  cases writes with
  | enters => rfl
  | resumes n rest woken => simp [System.writer, woken, Point.isWriting]

theorem left_of_isWriting {p : Point} (idle : p.isWriting = false) : p.left = [] := by
  cases p with
  | writing => cases idle
  | _ => rfl

/-- Only `pipewrite` puts bytes into the pipe. -/
theorem sentBy_of_writer {e : Event (System T) (Call T × Answer)}
    (nobody : e.before.writer e.label.1 = none) : sentBy e = [] := by
  have nothing : e.before.pending e.label.1 = [] := by
    cases call : e.label.1 with
    | write t addr => simp [call, System.writer] at nobody
    | resume t =>
      apply left_of_isWriting
      simpa [call, System.writer] using nobody
    | _ => rfl
  rw [sentBy, nothing, List.take_nil]

@[simp] theorem left_wakeReader (p : Point) : p.wakeReader.left = p.left := by
  cases p <;> rfl

@[simp] theorem left_wakeWriter (p : Point) : p.wakeWriter.left = p.left := by
  cases p <;> rfl

section Accounts

variable [DecidableEq T]

/-- The bytes that the event is about, if it is one of `t` in `pipewrite`. -/
def sentOf (t : T) (e : Event (System T) (Call T × Answer)) : List UInt8 :=
  match e.label.1 with
  | .write u _ | .resume u => if u = t then sentBy e else []
  | _ => []

/-- The bytes that `t` passes to `pipewrite`. -/
def passedBy (t : T) (e : Event (System T) (Call T × Answer)) : List UInt8 :=
  match e.label.1 with
  | .write u addr => if u = t then addr else []
  | _ => []

theorem sentOf_of_writer {e : Event (System T) (Call T × Answer)}
    (whose : e.before.writer e.label.1 = some t) : sentOf t e = sentBy e := by
  cases call : e.label.1 with
  | write u addr =>
    rw [call] at whose
    simp [sentOf, call, Option.some.inj whose]
  | resume u =>
    rw [call, System.writer] at whose
    split at whose
    · simp [sentOf, call, Option.some.inj whose]
    · cases whose
  | _ => simp [call, System.writer] at whose

/-- The account of `t`: what it sends and has left is what it had left and passes. -/
def Accounts (t : T) (e : Event (System T) (Call T × Answer)) : Prop :=
  sentOf t e ++ (e.after.proc t).left = (e.before.proc t).left ++ passedBy t e

theorem accounts_of_writes {u : T} {call : Call T} {answer : Answer} {sent left : List UInt8}
    {others : T → Point} {p : Point} (writes : Writes s u n rest call)
    (filled : Filled s.pipe rest sent s'.pipe left) (proc : s'.proc = Function.update others u p)
    (same : ∀ v, (others v).left = (s.proc v).left) (remains : p.left = left) :
    Accounts t ⟨s, (call, answer), s'⟩ := by
  have sentBy : System.sentBy ⟨s, (call, answer), s'⟩ = sent := sentBy_of_filled writes filled
  rw [Accounts]
  change _ ++ (s'.proc t).left = (s.proc t).left ++ _
  rw [proc, Function.update_apply]
  by_cases mine : t = u
  · subst mine
    rw [if_pos rfl, remains]
    cases writes with
    | enters addr idle opened =>
      simp only [sentOf, passedBy, if_true, sentBy, idle]
      exact filled.split.symm
    | resumes n rest woken =>
      simp only [sentOf, passedBy, if_true, sentBy, woken, List.append_nil]
      exact filled.split.symm
  · cases writes <;> simp [sentOf, passedBy, mine, Ne.symm mine, same]

/-- Steps that write nothing and leave what processes have left to write. -/
theorem accounts_of_same {call : Call T} {answer : Answer} (nwrite : s'.pipe.nwrite = s.pipe.nwrite)
    (passes : passedBy t ⟨s, (call, answer), s'⟩ = [])
    (left : (s'.proc t).left = (s.proc t).left) : Accounts t ⟨s, (call, answer), s'⟩ := by
  have nothing : sentOf t ⟨s, (call, answer), s'⟩ = [] := by
    rw [sentOf]
    split <;> simp [sentBy_of_nwrite nwrite]
  rw [Accounts, nothing, passes, List.append_nil]
  exact left

theorem Reads.accounts {u : T} {call : Call T} {answer : Answer} {others : T → Point} {p : Point}
    (reads : Reads s u n call) (nwrite : s'.pipe.nwrite = s.pipe.nwrite)
    (proc : s'.proc = Function.update others u p)
    (same : ∀ v, (others v).left = (s.proc v).left) (nothing : p.left = []) :
    Accounts t ⟨s, (call, answer), s'⟩ := by
  apply accounts_of_same nwrite
  · cases reads <;> rfl
  · rw [proc, Function.update_apply]
    split
    · rename_i mine
      subst mine
      rw [nothing]
      cases reads with
      | enters idle => rw [idle]; rfl
      | resumes woken => rw [woken]; rfl
    · exact same t

theorem Effect.accounts (effect : Effect s a s') (fine : ¬ WriteFailed ⟨s, a, s'⟩) (t : T) :
    Accounts t ⟨s, a, s'⟩ := by
  cases effect with
  | writes writes filled => exact accounts_of_writes writes filled rfl (by simp) rfl
  | fails writes filled =>
    refine absurd ⟨rfl, ?_⟩ fine
    rw [writes.writer]
    rfl
  | blocks writes filled => exact accounts_of_writes writes filled rfl (by simp) rfl
  | reads reads drained => exact reads.accounts drained.nwrite rfl (by simp) rfl
  | gives reads => exact reads.accounts rfl rfl (fun _ => rfl) rfl
  | waits reads => exact reads.accounts rfl rfl (fun _ => rfl) rfl
  | closesWrite => exact accounts_of_same rfl rfl (left_wakeReader _)
  | closesRead => exact accounts_of_same rfl rfl (left_wakeWriter _)
  | kills u =>
    refine accounts_of_same rfl rfl ?_
    simp only [kill, Function.update_apply]
    split <;> simp [*]

variable [Fintype T]

theorem sentOf_of_run (run : Run Step (opened data) l s) (t : T)
    (fine : ∀ e ∈ l, ¬ WriteFailed e) :
    l.flatMap (sentOf t) ++ (s.proc t).left = l.flatMap (passedBy t) := by
  induction run with
  | nil => rfl
  | @snoc l x y a earlier taken ih =>
    rw [List.forall_mem_append, List.forall_mem_singleton] at fine
    have step : sentOf t ⟨x, a, y⟩ ++ (y.proc t).left = (x.proc t).left ++ passedBy t ⟨x, a, y⟩ :=
      (taken.effect (bounded_of_run earlier)).accounts fine.2 t
    rw [List.flatMap_append, List.flatMap_append, List.flatMap_singleton, List.flatMap_singleton,
      List.append_assoc, step, ← List.append_assoc, ih fine.1]

/-- No byte is lost, repeated or overtaken, however the processes are interleaved and however often
the counters have wrapped; and as long as no write fails, every process has put into the pipe what it
has passed to `pipewrite`, but for what its present call has still to write. -/
theorem stream_of_run (run : Run Step (opened data) l s) :
    received l ++ s.pipe.queue = sent l ∧ s.pipe.queue.length ≤ pipeSize ∧
      ((∀ e ∈ l, ¬ WriteFailed e) →
        ∀ t, l.flatMap (sentOf t) ++ (s.proc t).left = l.flatMap (passedBy t)) :=
  ⟨received_append_queue run, bounded_of_run run, fun fine t => sentOf_of_run run t fine⟩

/-- One process writes five bytes, another one reads them to the end. -/
def transfer : List (Call Bool × Answer) :=
  [(.read false 3, .sleeps), (.write true [5, 6, 7, 8], .wrote 4), (.resume false, .got [5, 6, 7]),
    (.write true [9], .wrote 1), (.close true, .done), (.read false 3, .got [8, 9]),
    (.read false 3, .got [])]

theorem stream_of_run_transfer :
    ∃ l s, Run Step (opened (fun _ => 0) : System Bool) l s ∧
      received l ++ s.pipe.queue = sent l ∧ (∀ e ∈ l, ¬ WriteFailed e) ∧
      l.flatMap (sentOf true) ++ (s.proc true).left = l.flatMap (passedBy true) := by
  obtain ⟨l, s, run, fine⟩ := exists_run (opened fun _ => 0) transfer
    (P := fun r => ∀ e ∈ r.1, ¬ WriteFailed e) (by decide +kernel)
  have stream := stream_of_run run
  exact ⟨l, s, run, stream.1, fine, stream.2.2 fine true⟩

/-- What a process writes through a pipe is what arrives: if only `t` writes, none of its writes
fails, and some read of at least one byte has returned 0, then what has been received is the data of
the writes of `t`, one after the other. -/
theorem delivers_of_run (run : Run Step (opened data) l s) (t : T)
    (alone : ∀ e ∈ l, ∀ u, e.before.writer e.label.1 = some u → u = t)
    (fine : ∀ e ∈ l, ¬ WriteFailed e) {e : Event (System T) (Call T × Answer)} (mem : e ∈ l)
    (eof : EndOfFile e) : received l = l.flatMap (passedBy t) := by
  have closed := closed_of_eof run mem eof
  have nothing : (s.proc t).left = [] := by
    have idle : (s.proc t).isWriting = false := by
      by_contra writing
      have opened := (held_of_run run).write t (by simpa using writing)
      simp [closed.2] at opened
    exact left_of_isWriting idle
  have only : ∀ e ∈ l, sentOf t e = sentBy e := by
    intro e mem
    cases whose : e.before.writer e.label.1 with
    | none =>
      rw [sentBy_of_writer whose, sentOf]
      split <;> simp [sentBy_of_writer whose]
    | some u =>
      obtain rfl := alone e mem u whose
      exact sentOf_of_writer whose
  rw [← sentOf_of_run run t fine, nothing, List.append_nil, received_of_eof run mem eof, sent]
  exact (List.flatMap_congr only).symm

theorem delivers_of_run_transfer :
    ∃ l s, Run Step (opened (fun _ => 0) : System Bool) l s ∧
      received l = l.flatMap (passedBy true) ∧ received l = [5, 6, 7, 8, 9] := by
  obtain ⟨l, s, run, alone, fine, bytes, e, mem, eof⟩ := exists_run (opened fun _ => 0) transfer
    (P := fun r => (∀ e ∈ r.1, ∀ u, e.before.writer e.label.1 = some u → u = true) ∧
      (∀ e ∈ r.1, ¬ WriteFailed e) ∧ received r.1 = [5, 6, 7, 8, 9] ∧ ∃ e ∈ r.1, EndOfFile e)
    (by decide +kernel)
  exact ⟨l, s, run, delivers_of_run run true alone fine mem eof, bytes⟩

end Accounts

end SsuOs.Xv6.Pipes.System
