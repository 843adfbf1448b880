import SsuOs.Xv6.PipeStream

/-!
# Who sleeps on a pipe

A writer sleeps only on a full pipe, and not once it is killed. No reader sleeps on data, with
one exception: a writer that was killed returns without waking it (`sleepers_of_run`).
-/

namespace SsuOs.Xv6.Pipes.System

variable {T : Type} {s s' : System T} {t : T} {n : ℕ} {rest : List UInt8} {a : Call T × Answer}
  {l : List (Event (System T) (Call T × Answer))} {data : ℕ → UInt8}

/-- A process sleeps in `piperead`. -/
def ReaderSleeps (s : System T) : Prop := ∃ t n, s.proc t = .reading n true

/-- Asleep in `piperead`. -/
def sleepsInRead : Point → Bool
  | .reading _ asleep => asleep
  | _ => false

theorem readerSleeps_iff : s.ReaderSleeps ↔ ∃ t, sleepsInRead (s.proc t) = true := by
  refine exists_congr fun t => ?_
  cases s.proc t <;> simp [sleepsInRead]

instance [Fintype T] (s : System T) : Decidable s.ReaderSleeps :=
  decidable_of_iff _ readerSleeps_iff.symm

/-- No reader sleeps on a pipe that has data or whose write end is closed. -/
def Alert (s : System T) : Prop :=
  s.ReaderSleeps → s.pipe.queue = [] ∧ s.pipe.writeopen = true

/-- A writer sleeps only on a full pipe whose read end is open, and is not killed. -/
def WritersWait (s : System T) : Prop :=
  ∀ t n rest, s.proc t = .writing n rest true →
    s.pipe.queue.length = pipeSize ∧ s.pipe.readopen = true ∧ s.killed t = false

/-- A killed writer put bytes into the pipe and gave up without waking the reader that sleeps: the
return in the middle of `pipewrite` has no `wakeup(&p->nread)`. -/
def Lost (e : Event (System T) (Call T × Answer)) : Prop :=
  WriteFailed e ∧ sentBy e ≠ [] ∧ e.before.ReaderSleeps

instance [Fintype T] : DecidablePred (Lost (T := T)) := fun _ =>
  inferInstanceAs (Decidable (_ ∧ _ ∧ _))

@[simp] theorem wakeReader_eq_writing {p : Point} {n : ℕ} {rest : List UInt8} {asleep : Bool} :
    p.wakeReader = .writing n rest asleep ↔ p = .writing n rest asleep := by
  cases p <;> simp [Point.wakeReader]

@[simp] theorem wakeWriter_eq_reading {p : Point} {n : ℕ} {asleep : Bool} :
    p.wakeWriter = .reading n asleep ↔ p = .reading n asleep := by
  cases p <;> simp [Point.wakeWriter]

@[simp] theorem wakeReader_ne_asleep {p : Point} {n : ℕ} : p.wakeReader ≠ .reading n true := by
  cases p <;> simp [Point.wakeReader]

@[simp] theorem wakeWriter_ne_asleep {p : Point} {n : ℕ} {rest : List UInt8} :
    p.wakeWriter ≠ .writing n rest true := by
  cases p <;> simp [Point.wakeWriter]

theorem not_lost_of_answer {a : Call T × Answer} (answer : a.2 ≠ .failed) :
    ¬ Lost ⟨s, a, s'⟩ := fun lost => answer lost.1.1

theorem not_lost_of_nwrite {a : Call T × Answer} (same : s'.pipe.nwrite = s.pipe.nwrite) :
    ¬ Lost ⟨s, a, s'⟩ := fun lost => lost.2.1 (sentBy_of_nwrite same)

/-! ## Steps -/

section Steps

variable [DecidableEq T]

/-- Writers that sleep on a full pipe are not disturbed by other writers. -/
theorem WritersWait.filled {q : Pipe} {sent left : List UInt8} {others : T → Point} {p : Point}
    (waits : WritersWait s) (filled : Filled s.pipe rest sent q left)
    (same : ∀ u n rest, others u = .writing n rest true → s.proc u = .writing n rest true)
    (mine : ∀ n rest, p = .writing n rest true →
      q.queue.length = pipeSize ∧ q.readopen = true ∧ s.killed t = false) :
    WritersWait { s with pipe := q, proc := Function.update others t p } := by
  intro u m rest' asleep
  simp only [Function.update_apply] at asleep
  split at asleep
  · rename_i same
    exact same ▸ mine m rest' asleep
  · have before := waits u m rest' (same u m rest' asleep)
    refine ⟨?_, filled.readopen.trans before.2.1, before.2.2⟩
    have bounded := filled.bounded
    rw [Pipe.Bounded] at bounded
    change q.queue.length = _
    rw [filled.queue, List.length_append, before.1] at bounded ⊢
    omega

theorem WritersWait.keeps (waits : WritersWait s) (effect : Effect s a s') : WritersWait s' := by
  cases effect with
  | writes writes filled => exact waits.filled filled (by simp) (by simp)
  | fails writes filled unfinished why => exact waits.filled filled (by simp) (by simp)
  | blocks writes filled unfinished opened alive =>
    exact waits.filled filled (by simp) fun _ _ _ =>
      ⟨filled.full unfinished, filled.readopen.trans opened, alive⟩
  | @reads t =>
    intro u m rest asleep
    simp only [Function.update_apply] at asleep
    split at asleep
    · cases asleep
    · exact absurd asleep wakeWriter_ne_asleep
  | gives =>
    intro u m rest asleep
    simp only [Function.update_apply] at asleep
    split at asleep
    · cases asleep
    · exact waits u m rest asleep
  | waits =>
    intro u m rest asleep
    simp only [Function.update_apply] at asleep
    split at asleep
    · cases asleep
    · exact waits u m rest asleep
  | closesWrite => exact fun u m rest asleep => waits u m rest (wakeReader_eq_writing.1 asleep)
  | closesRead => exact fun u m rest asleep => absurd asleep wakeWriter_ne_asleep
  | kills t =>
    intro u m rest asleep
    simp only [kill, Function.update_apply] at asleep ⊢
    split at asleep
    · exact absurd asleep wakeWriter_ne_asleep
    · rw [if_neg ‹_›]
      exact waits u m rest asleep

/-- All readers are awake. -/
theorem alert_of_wakeReader {p : Point}
    (proc : s'.proc = Function.update (fun u => (s.proc u).wakeReader) t p)
    (awake : ∀ n, p ≠ .reading n true) : Alert s' := by
  rintro ⟨u, n, asleep⟩
  rw [proc, Function.update_apply] at asleep
  split at asleep
  · exact absurd asleep (awake n)
  · exact absurd asleep wakeReader_ne_asleep

/-- The readers that sleep after a step which wakes none slept before it. -/
theorem readerSleeps_of_update {others : T → Point} {p : Point}
    (sleeps : s'.ReaderSleeps) (proc : s'.proc = Function.update others t p)
    (same : ∀ u n, others u = .reading n true → s.proc u = .reading n true)
    (awake : ∀ n, p ≠ .reading n true) : s.ReaderSleeps := by
  obtain ⟨u, n, asleep⟩ := sleeps
  rw [proc, Function.update_apply] at asleep
  split at asleep
  · exact absurd asleep (awake n)
  · exact ⟨u, n, same u n asleep⟩

/-- A step wakes the readers that it makes data for, unless it is a write that fails. -/
theorem Effect.alert_iff (effect : Effect s a s') (held : Held s) (alert : Alert s) :
    Alert s' ↔ ¬ Lost ⟨s, a, s'⟩ := by
  cases effect with
  | writes =>
    exact iff_of_true (alert_of_wakeReader rfl (by simp)) (not_lost_of_answer (by simp))
  | blocks =>
    exact iff_of_true (alert_of_wakeReader rfl (by simp)) (not_lost_of_answer (by simp))
  | @fails t n rest sent left call q writes filled =>
    -- here the readers sleep on, so that the pipe has to be as empty as before
    have mine : sentBy ⟨s, (call, .failed), { s with
        pipe := q, proc := Function.update s.proc t .idle }⟩ = sent :=
      sentBy_of_filled writes filled
    have failed : WriteFailed ⟨s, (call, .failed), { s with
        pipe := q, proc := Function.update s.proc t .idle }⟩ :=
      ⟨rfl, by rw [writes.writer]; rfl⟩
    constructor
    · rintro alert' ⟨-, some, u, m, asleep⟩
      have other : u ≠ t := by
        rintro rfl
        cases writes <;> simp_all
      have after := (alert' ⟨u, m, (Function.update_of_ne other ..).trans asleep⟩).1
      change q.queue = [] at after
      rw [filled.queue] at after
      exact some (mine.trans (List.append_eq_nil_iff.1 after).2)
    · intro kept sleeps
      have before : s.ReaderSleeps := readerSleeps_of_update sleeps rfl (fun _ _ here => here)
        (by simp)
      have nothing : sent = [] := by
        by_contra some
        exact kept ⟨failed, by rwa [mine], before⟩
      refine ⟨?_, filled.writeopen.trans (writes.writeopen held)⟩
      change q.queue = []
      rw [filled.queue, nothing, (alert before).1]
      rfl
  | @reads t n bytes call q reads drained some =>
    refine iff_of_true ?_ (not_lost_of_answer (by simp))
    intro sleeps
    have before := alert (readerSleeps_of_update sleeps rfl (by simp) (by simp))
    refine ⟨?_, drained.writeopen.trans before.2⟩
    have queue := drained.queue
    rw [before.1] at queue
    exact (List.append_eq_nil_iff.1 queue.symm).2
  | gives =>
    refine iff_of_true ?_ (not_lost_of_nwrite rfl)
    intro sleeps
    exact alert (readerSleeps_of_update sleeps rfl (fun _ _ here => here)
        (by simp))
  | waits reads empty opened alive =>
    exact iff_of_true (fun _ => ⟨empty, opened⟩) (not_lost_of_answer (by simp))
  | closesWrite =>
    refine iff_of_true ?_ (not_lost_of_answer (by simp))
    rintro ⟨u, m, asleep⟩
    exact absurd asleep wakeReader_ne_asleep
  | closesRead =>
    refine iff_of_true ?_ (not_lost_of_answer (by simp))
    rintro ⟨u, m, asleep⟩
    exact alert ⟨u, m, wakeWriter_eq_reading.1 asleep⟩
  | kills t =>
    refine iff_of_true ?_ (not_lost_of_answer (by simp))
    rintro ⟨u, m, asleep⟩
    simp only [kill, Function.update_apply] at asleep
    split at asleep
    · exact absurd (wakeWriter_eq_reading.1 asleep) wakeReader_ne_asleep
    · exact alert ⟨u, m, asleep⟩

end Steps

/-! ## Runs -/

section Runs

variable [DecidableEq T] [Fintype T]

theorem alert_iff_of_run (run : Run Step (opened data) l s) :
    (∀ e ∈ l, Alert e.after) ↔ ∀ e ∈ l, ¬ Lost e := by
  refine run.forall_after_iff (I := fun x => Held x ∧ x.pipe.Bounded) ?_ ?_ ?_ ?_
  · exact ⟨held_opened, bounded_opened⟩
  · rintro ⟨t, n, asleep⟩
    cases asleep
  · intro x a y inv taken
    have effect := taken.effect inv.2
    exact ⟨inv.1.keeps effect, effect.bounded inv.2⟩
  · intro x a y inv alert taken
    exact (taken.effect inv.2).alert_iff inv.1 alert

theorem writersWait_of_run (run : Run Step (opened data) l s) : WritersWait s := by
  induction run with
  | nil => exact fun t n rest asleep => by cases asleep
  | snoc earlier taken ih => exact ih.keeps (taken.effect (bounded_of_run earlier))

end Runs

end SsuOs.Xv6.Pipes.System
