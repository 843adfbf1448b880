import SsuOs.Xv6Fs.BufContents

/-!
# Runs of the buffer cache

What holds in every run of the cache, with any number of processes. A process that has locked a buffer
sees what was last written to its block by anyone (`reads_of_run`), as long as a changed buffer is
written or marked before it is released, and the disk does not fail. The ring has the buffers in the
order in which they were last let go (`ring_of_run`). The disk answers every request
(`served_of_run`).
-/

namespace SsuOs.Xv6Fs.Buffers

open Counting Links

def Label.isInterrupt {T B V : Type} : Label T B V → Bool
  | .interrupt _ => true
  | _ => false

namespace System

variable {T B V : Type} {havedisk1 : Bool} {s s' : System T B V} {a : Label T B V} {t : T} {b : B}

theorem idestart_panics {p : Panic} (stops : s.idestart b = .error (.panic p)) :
    p = .incorrectBlockno := by
  rw [idestart] at stops
  split_ifs at stops
  simpa [eq_comm] using stops

variable [DecidableEq B] [DecidableEq T]

theorem iderw_panics {p : Panic} (locked : (s.buf b).lock = some t)
    (pending : s.Pending b) (stops : s.iderw havedisk1 t b = .error (.panic p)) :
    p ≠ .notLocked ∧ p ≠ .nothingToDo := by
  simp only [iderw, locked, ne_eq, not_true_eq_false, if_false] at stops
  split_ifs at stops with idle drive first
  · exact absurd (pending idle.1) (by simp [idle.2])
  · simp only [Except.error.injEq, Halt.panic.injEq] at stops
    simp [← stops]
  · simp [idestart_panics stops]

variable [Fintype B] {l : List (Event (System T B V) (Label T B V))}

theorem step_panics {p : Panic} (stops : s.step havedisk1 a = .error (.panic p)) :
    p ≠ .notLocked ∧ p ≠ .nothingToDo := by
  cases a with
  | bread t dev blockno =>
    simp only [step, bget] at stops
    split_ifs at stops
    · split at stops
      · simp [bind, Except.bind, pure, Except.pure] at stops
      · split at stops
        · simp [bind, Except.bind, pure, Except.pure] at stops
        · obtain rfl : Panic.noBuffers = p := by simpa [bind, Except.bind] using stops
          simp
    · simp at stops
  | acquire t =>
    simp only [step] at stops
    split at stops
    next b here =>
      split_ifs at stops with free valid
      · refine iderw_panics ?_ ?_ stops
        · simp
        · simp [Pending, valid]
      · simp at stops
    next => simp at stops
  | modify t b data =>
    simp only [step] at stops
    split_ifs at stops
    simp at stops
  | mark t b =>
    simp only [step] at stops
    split_ifs at stops
    simp at stops
  | bwrite t b =>
    simp only [step] at stops
    split_ifs at stops with here locked
    · obtain rfl : Panic.bwrite = p := by simpa using stops
      simp
    · refine iderw_panics ?_ ?_ stops
      · simpa using locked
      · simp [Pending]
    · simp at stops
  | wake t =>
    simp only [step] at stops
    split at stops
    · split_ifs at stops
      simp at stops
    · simp at stops
  | brelse t b =>
    simp only [step] at stops
    split_ifs at stops
    · obtain rfl : Panic.brelse = p := by simpa using stops
      simp
    · simp at stops
  | drop t =>
    simp only [step] at stops
    split at stops
    · split_ifs at stops
    · simp at stops
  | interrupt fault =>
    simp only [step, ideintr] at stops
    split at stops
    · simp at stops
    · split at stops
      · simp at stops
      · simp [idestart_panics stops]

/-! ## Interrupts -/

/-- The number of interrupts in a run. -/
def interrupts (l : List (Event (System T B V) (Label T B V))) : ℕ :=
  l.countP fun e => e.label.isInterrupt

/-- With an interrupt a request comes one place further to the front, or it is answered. -/
theorem Effect.ahead (effect : Effect s a s') {k : ℕ} (place : s.idequeue[k]? = some b) :
    (a.isInterrupt = false ∧ s'.idequeue[k]? = some b) ∨
      (a.isInterrupt = true ∧ 0 < k ∧ s'.idequeue[k - 1]? = some b) ∨
      ((s'.buf b).valid = true ∧ (s'.buf b).dirty = false) := by
  have appended (c : B) : (s.idequeue ++ [c])[k]? = some b := by
    rw [List.getElem?_append_left (List.getElem?_eq_some_iff.1 place).1, place]
  cases effect with
  | @idles fault empty => simp [empty] at place
  | @serves fault c rest queue =>
    rw [queue] at place
    cases k with
    | zero =>
      obtain rfl : c = b := by simpa using place
      right
      right
      simp [answered]
    | succ k => exact .inr (.inl ⟨rfl, k.succ_pos, by simpa using place⟩)
  | @fetches t c => exact .inl ⟨rfl, appended c⟩
  | @writes t c => exact .inl ⟨rfl, appended c⟩
  | _ => exact .inl ⟨rfl, place⟩

/-- A buffer whose request is at some place in the queue has been read or written after one
interrupt more than there are requests before it. -/
theorem answered_of_run (run : Run (Step havedisk1) s l s') {i : ℕ} (queued : s.idequeue[i]? = some b)
    (enough : i < interrupts l) :
    ∃ e ∈ l, (e.after.buf b).valid = true ∧ (e.after.buf b).dirty = false := by
  have moved : (interrupts l ≤ i ∧ s'.idequeue[i - interrupts l]? = some b) ∨
      ∃ e ∈ l, (e.after.buf b).valid = true ∧ (e.after.buf b).dirty = false := by
    apply run.history (I := fun l s => (interrupts l ≤ i ∧ s.idequeue[i - interrupts l]? = some b) ∨
      ∃ e ∈ l, (e.after.buf b).valid = true ∧ (e.after.buf b).dirty = false)
    · exact .inl ⟨Nat.zero_le i, queued⟩
    · rintro l x a y (⟨few, place⟩ | ⟨e, mem, done⟩) taken
      · have count : interrupts (l ++ [⟨x, a, y⟩]) = interrupts l + a.isInterrupt.toNat := by
          simp only [interrupts, List.countP_append, List.countP_singleton]
          cases a.isInterrupt <;> rfl
        rcases taken.effect.ahead place with ⟨other, still⟩ | ⟨irq, more, nearer⟩ | done
        · left
          rw [count, other]
          exact ⟨few, still⟩
        · left
          rw [count, irq, Bool.toNat_true]
          refine ⟨by omega, ?_⟩
          rwa [Nat.sub_add_eq]
        · exact .inr ⟨_, List.mem_append_right _ (List.mem_singleton_self _), done⟩
      · exact .inr ⟨e, List.mem_append_left _ mem, done⟩
  rcases moved with ⟨few, -⟩ | done
  · exact absurd enough (Nat.not_lt.2 few)
  · exact done

/-! ## Runs -/

/-- What was last written to every block, from what was on the disk. -/
def contents (disk : ℕ → ℕ → V) (l : List (Event (System T B V) (Label T B V))) : ℕ → ℕ → V :=
  l.foldl (fun C e => e.before.writes e.label C) disk

/-- The buffers that were changed and then neither written nor marked. -/
def unsaved (l : List (Event (System T B V) (Label T B V))) : B → Bool :=
  l.foldl (fun u e => e.label.notes u) fun _ => false

/-- Every step is allowed after those before it. -/
def LawfulRun (l : List (Event (System T B V) (Label T B V))) : Prop :=
  ∀ i (below : i < l.length), l[i].label.Allowed (unsaved (l.take i))

instance (l : List (Event (System T B V) (Label T B V))) : Decidable (LawfulRun l) :=
  inferInstanceAs (Decidable (∀ i (below : i < l.length), l[i].label.Allowed (unsaved (l.take i))))

/-- The buffers from the one that was let go last to the one that was let go first. -/
def recency (bufs : List B) (l : List (Event (System T B V) (Label T B V))) : List B :=
  l.foldl (fun order e => e.before.reorder e.label order) bufs.reverse

variable [Fintype T] {bufs : List B} {memory : V} {disk : ℕ → ℕ → V}

theorem control_of_run (run : Run (Step havedisk1) (binit bufs memory disk) l s) : Control s :=
  run.invariant (Control.binit bufs memory disk) fun _ _ _ control taken =>
    control.keeps taken.effect

theorem ordered_of_run (nodup : bufs.Nodup) (all : ∀ b, b ∈ bufs)
    (run : Run (Step havedisk1) (binit bufs memory disk) l s) : Ordered s (recency bufs l) := by
  have both : Control s ∧ Ordered s (recency bufs l) := by
    apply run.history (I := fun l s => Control s ∧ Ordered s (recency bufs l))
    · exact ⟨.binit bufs memory disk, .binit nodup all memory disk⟩
    · rintro l x a y ⟨control, ordered⟩ taken
      refine ⟨control.keeps taken.effect, ?_⟩
      have after := ordered.keeps control taken.effect
      simpa [recency] using after
  exact both.2

theorem coherent_of_run (nodup : bufs.Nodup) (all : ∀ b, b ∈ bufs)
    (run : Run (Step havedisk1) (binit bufs memory disk) l s) (lawful : LawfulRun l) :
    Guarded s (unsaved l) ∧ Coherent s (contents disk l) (unsaved l) := by
  have every : (Control s ∧ Ordered s (recency bufs l)) ∧
      Guarded s (unsaved l) ∧ Coherent s (contents disk l) (unsaved l) := by
    refine run.history_of_take (C := fun l e => e.label.Allowed (unsaved l))
      (I := fun l s => (Control s ∧ Ordered s (recency bufs l)) ∧
        Guarded s (unsaved l) ∧ Coherent s (contents disk l) (unsaved l)) ?_ ?_ lawful
    · exact ⟨⟨.binit bufs memory disk, .binit nodup all memory disk⟩, by simp [Guarded, unsaved],
        .binit bufs memory disk⟩
    · rintro l x a y ⟨⟨control, ordered⟩, guarded, coherent⟩ taken meets
      have order := ordered.keeps control taken.effect
      have guard := guarded.keeps control taken.effect meets
      have after := coherent.keeps guarded control ordered taken.effect meets
      exact ⟨⟨control.keeps taken.effect, by simpa [recency] using order⟩,
        by simpa [unsaved] using guard, by simpa [contents, unsaved] using after⟩
  exact every.2

/-- A process that has a buffer sees what was last written to its block, by whatever process and
through whatever buffers. When `bwrite` returns, it is on the disk. When no buffer is locked or dirty,
everything is on the disk. -/
theorem reads_of_run (nodup : bufs.Nodup) (all : ∀ b, b ∈ bufs)
    (run : Run (Step havedisk1) (binit bufs memory disk) l s) (lawful : LawfulRun l) :
    (∀ t b, s.Holds t b →
      (s.buf b).valid = true ∧ (s.buf b).data = contents disk l (s.buf b).dev (s.buf b).blockno) ∧
    (∀ t b s', s.proc t = .waiting b → Step havedisk1 s (.wake t) s' →
      s.disk (s.buf b).dev (s.buf b).blockno = (s.buf b).data ∧
      (s.buf b).data = contents disk l (s.buf b).dev (s.buf b).blockno) ∧
    ((∀ b, (s.buf b).lock = none ∧ (s.buf b).dirty = false) →
      ∀ dev < 2, ∀ blockno, s.disk dev blockno = contents disk l dev blockno) := by
  have control := control_of_run run
  obtain ⟨guarded, coherent⟩ := coherent_of_run nodup all run lawful
  refine ⟨?_, ?_, ?_⟩
  · intro t b holds
    have valid := control.valid t b holds.1 (by simp [holds.2])
    exact ⟨valid, coherent.cached b valid⟩
  · intro t b s' waits returns
    cases returns.effect with
    | wakes here valid clean =>
      obtain rfl := Point.waiting.inj (here.symm.trans waits)
      exact ⟨coherent.clean _ (guarded.of_waiting waits) valid clean, coherent.cached _ valid⟩
  · intro quiet dev low blockno
    by_cases cached : ∃ b, s.addr b = (dev, blockno) ∧ (s.buf b).valid = true
    · obtain ⟨b, here, valid⟩ := cached
      obtain ⟨rfl, rfl⟩ := Prod.mk.inj here
      have saved := guarded.of_lock (quiet b).1
      rw [coherent.clean b saved valid (quiet b).2, coherent.cached b valid]
    · apply coherent.disk dev low blockno
      intro b here
      by_contra valid
      exact cached ⟨b, here, by simpa using valid⟩

/-- One process changes block 7 and lets it go, another one gets it. -/
def handover : List (Label Bool Bool ℕ) :=
  [.bread false 1 7, .acquire false, .interrupt false, .wake false, .modify false false 42,
    .mark false false, .brelse false false, .drop false, .bread true 1 7, .acquire true]

/-- A process changes block 7 and writes it to the disk, which has answered. -/
def writing : List (Label Bool Bool ℕ) :=
  [.bread false 1 7, .acquire false, .interrupt false, .wake false, .modify false false 42,
    .bwrite false false, .interrupt false]

theorem reads_of_run_handover :
    (∃ l s, Run (Step true) (binit [false, true] 0 (fun _ n => n) : System Bool Bool ℕ) l s ∧
      s.Holds true false ∧ s.addr false = (1, 7) ∧
      (s.buf false).data = contents (fun _ n => n) l 1 7 ∧
      contents (fun _ n => n) l 1 7 = 42) ∧
    ∃ l s s', Run (Step true) (binit [false, true] 0 (fun _ n => n) : System Bool Bool ℕ) l s ∧
      Step true s (.wake false) s' ∧ s.disk 1 7 = (s.buf false).data ∧
      contents (fun _ n => n) l 1 7 = 42 := by
  constructor
  · obtain ⟨l, s, run, lawful, holds, here, written⟩ := Fallible.exists_run (step true)
      (binit [false, true] 0 (fun _ n => n) : System Bool Bool ℕ) handover
      (P := fun r => LawfulRun r.1 ∧ r.2.Holds true false ∧ r.2.addr false = (1, 7) ∧
        contents (fun _ n => n) r.1 1 7 = 42) (by decide +kernel)
    have reads := (reads_of_run (by decide) (by decide) run lawful).1 true false holds
    obtain ⟨dev, blockno⟩ := Prod.mk.inj here
    rw [dev, blockno] at reads
    exact ⟨l, s, run, holds, here, reads.2, written⟩
  · obtain ⟨l, s, run, lawful, waits, here, written, done⟩ := Fallible.exists_run (step true)
      (binit [false, true] 0 (fun _ n => n) : System Bool Bool ℕ) writing
      (P := fun r => LawfulRun r.1 ∧ r.2.proc false = .waiting false ∧ r.2.addr false = (1, 7) ∧
        contents (fun _ n => n) r.1 1 7 = 42 ∧
        (r.2.buf false).valid = true ∧ (r.2.buf false).dirty = false) (by decide +kernel)
    have returns : Step true s (.wake false) (s.goto false .idle) := by
      rw [Step, step, show s.proc false = .waiting false from waits]
      exact if_pos done
    have reads := (reads_of_run (by decide) (by decide) run lawful).2.1 false false _ waits returns
    obtain ⟨dev, blockno⟩ := Prod.mk.inj here
    rw [dev, blockno] at reads
    exact ⟨l, s, _, run, returns, reads.1, written⟩

/-- The ring has the buffers in the order in which the last references to them were dropped. `bget`
takes the buffer of the block if there is one, and else the one that has been free for longest;
it gives up only when every buffer is in use. -/
theorem ring_of_run (nodup : bufs.Nodup) (all : ∀ b, b ∈ bufs)
    (run : Run (Step havedisk1) (binit bufs memory disk) l s) :
    s.links.Linked (recency bufs l) ∧
    ∀ dev blockno,
      s.cached dev blockno = (recency bufs l).find? (fun b => s.addr b = (dev, blockno)) ∧
      s.recyclable = (recency bufs l).reverse.find?
        (fun b => (s.buf b).refcnt = 0 ∧ (s.buf b).dirty = false) ∧
      (s.bget dev blockno = .error (.panic .noBuffers) ↔
        ∀ b, s.addr b ≠ (dev, blockno) ∧ (0 < (s.buf b).refcnt ∨ (s.buf b).dirty = true)) := by
  have ordered := ordered_of_run nodup all run
  refine ⟨ordered.linked, fun dev blockno => ?_⟩
  refine ⟨ordered.cached_eq dev blockno, ordered.recyclable_eq, ?_⟩
  rw [forall_and, ← ordered.cached_eq_none, ← ordered.recyclable_eq_none, bget]
  cases s.cached dev blockno with
  | some b => simp
  | none => cases s.recyclable <;> simp

theorem ring_of_run_handover :
    ∃ l s, Run (Step true) (binit [false, true] 0 (fun _ n => n) : System Bool Bool ℕ) l s ∧
      s.links.Linked [false, true] ∧ s.recyclable = some true := by
  obtain ⟨l, s, run, order, found⟩ := Fallible.exists_run (step true)
    (binit [false, true] 0 (fun _ n => n) : System Bool Bool ℕ) handover
    (P := fun r => recency [false, true] r.1 = [false, true] ∧ r.2.recyclable = some true)
    (by decide +kernel)
  have ring := ring_of_run (by decide) (by decide) run
  exact ⟨l, s, run, order ▸ ring.1, found⟩

/-- The count of a buffer is the number of references to it, no block is in two buffers, and the
driver is never called for a buffer that is not locked or has nothing to do. -/
theorem use_of_run (nodup : bufs.Nodup) (all : ∀ b, b ∈ bufs)
    (run : Run (Step havedisk1) (binit bufs memory disk) l s) :
    (∀ b, (s.buf b).refcnt = (s.buf b).lock.isSome.toNat + count (Point.refers b) s.proc) ∧
    (∀ b c, s.Used b → s.Used c → s.addr b = s.addr c → b = c) ∧
    ∀ a p, s.step havedisk1 a = .error (.panic p) → p ≠ .notLocked ∧ p ≠ .nothingToDo := by
  have control := control_of_run run
  have ordered := ordered_of_run nodup all run
  exact ⟨control.refcnt, fun b c => ordered.eq_of_addr, fun a p => step_panics⟩

theorem use_of_run_handover :
    ∃ l s, Run (Step true) (binit [false, true] 0 (fun _ n => n) : System Bool Bool ℕ) l s ∧
      (s.buf false).refcnt = (s.buf false).lock.isSome.toNat + count (Point.refers false) s.proc ∧
      (s.buf false).refcnt = 1 := by
  obtain ⟨l, s, run, once⟩ := Fallible.exists_run (step true)
    (binit [false, true] 0 (fun _ n => n) : System Bool Bool ℕ) handover
    (P := fun r => (r.2.buf false).refcnt = 1) (by decide +kernel)
  exact ⟨l, s, run, (use_of_run (by decide) (by decide) run).1 false, once⟩

/-! ## The disk -/

/-- No process waits for the disk in vain: it can go on after as many interrupts as there are requests
in the queue, whatever the other processes do and however many requests they add. -/
theorem served_of_run (run : Run (Step havedisk1) (binit bufs memory disk) l s)
    (waits : s.proc t = .waiting b) {l' : List (Event (System T B V) (Label T B V))}
    (run' : Run (Step havedisk1) s l' s') (enough : s.idequeue.length ≤ interrupts l') :
    ((s.buf b).valid = true ∧ (s.buf b).dirty = false) ∨
      ∃ e ∈ l', (e.after.buf b).valid = true ∧ (e.after.buf b).dirty = false := by
  by_cases pending : s.Pending b
  · right
    have mem := ((control_of_run run).queued b).2 ⟨⟨t, waits⟩, pending⟩
    obtain ⟨i, place⟩ := List.mem_iff_getElem?.1 mem
    have below := (List.getElem?_eq_some_iff.1 place).1
    exact answered_of_run run' place (by omega)
  · left
    simpa [Pending] using pending

/-- A process waits for block 7, another one asks for block 8, and the disk interrupts. -/
theorem served_of_run_other :
    ∃ l s l' s', Run (Step true) (binit [false, true] 0 (fun _ n => n) : System Bool Bool ℕ) l s ∧
      s.proc false = .waiting false ∧ Run (Step true) s l' s' ∧
      (((s.buf false).valid = true ∧ (s.buf false).dirty = false) ∨
        ∃ e ∈ l', (e.after.buf false).valid = true ∧ (e.after.buf false).dirty = false) := by
  obtain ⟨l, s, run, waits, one, more⟩ := Fallible.exists_run (step true)
    (binit [false, true] 0 (fun _ n => n) : System Bool Bool ℕ) [.bread false 1 7, .acquire false]
    (P := fun r => r.2.proc false = .waiting false ∧ r.2.idequeue.length ≤ 1 ∧
      (replay (fun x a => (step true x a).toOption) r.2
        [.bread true 1 8, .acquire true, .interrupt false]).any fun q => decide (1 ≤ interrupts q.1))
    (by decide +kernel)
  obtain ⟨l', s', run', enough⟩ := Fallible.exists_run (step true) s _ more
  exact ⟨l, s, l', s', run, waits, run', served_of_run run waits run' (one.trans enough)⟩

end System

end SsuOs.Xv6Fs.Buffers
