import SsuOs.Base.Count
import SsuOs.Xv6Fs.Buf

/-!
# The use of buffers

`Control` is about who uses a buffer: the count of references, the sleep locks, and the queue of the
disk. It is kept by every step.
-/

namespace SsuOs.Xv6Fs.Buffers

open Counting

/-- The process has a reference to the buffer that it does not have by its lock. -/
def Point.refers {B : Type} [DecidableEq B] (b : B) : Point B → Bool
  | .acquiring c | .releasing c => c = b
  | .idle | .waiting _ => false

section
variable {B : Type} [DecidableEq B] (b c : B)

@[simp] theorem refers_idle : (Point.idle : Point B).refers b = false := rfl

@[simp] theorem refers_waiting : (Point.waiting c).refers b = false := rfl

@[simp] theorem refers_acquiring : (Point.acquiring c).refers b = decide (c = b) := rfl

@[simp] theorem refers_releasing : (Point.releasing c).refers b = decide (c = b) := rfl

end

namespace System

variable {T B V : Type} {s s' : System T B V} {a : Label T B V} {t : T} {b : B}

/-- The buffer has been asked for and the disk has not answered yet. -/
def Pending (s : System T B V) (b : B) : Prop := (s.buf b).valid = true → (s.buf b).dirty = true

variable [DecidableEq B] [Fintype T]

structure Control (s : System T B V) : Prop where
  refcnt : ∀ b, (s.buf b).refcnt = (s.buf b).lock.isSome.toNat + count (Point.refers b) s.proc
  waiting : ∀ t b, s.proc t = .waiting b → (s.buf b).lock = some t
  valid : ∀ t b, (s.buf b).lock = some t → s.proc t ≠ .waiting b → (s.buf b).valid = true
  dirty : ∀ b, (s.buf b).dirty = true → (s.buf b).valid = true
  queued : ∀ b, b ∈ s.idequeue ↔ (∃ t, s.proc t = .waiting b) ∧ s.Pending b
  nodup : s.idequeue.Nodup
  request : s.request = s.idequeue.head?.map fun b => (s.buf b).command

namespace Control

theorem binit (bufs : List B) (memory : V) (disk : ℕ → ℕ → V) :
    Control (binit bufs memory disk : System T B V) := by
  constructor <;> simp [System.binit, @eq_comm ℕ 0, count_eq_zero, Point.refers]

/-- No process waits for a buffer that is not locked, or locked by a process that does not wait. -/
theorem not_waiting (control : Control s) (quiet : ∀ c, s.proc t ≠ .waiting c)
    (lock : (s.buf b).lock = none ∨ (s.buf b).lock = some t) (u : T) : s.proc u ≠ .waiting b := by
  intro waits
  have held := control.waiting u b waits
  rcases lock with free | mine
  · rw [free] at held
    cases held
  · rw [mine, Option.some.injEq] at held
    exact quiet b (held ▸ waits)

theorem recyclable_unused (control : Control s) (unused : (s.buf b).refcnt = 0) :
    (s.buf b).lock = none ∧ ∀ t, (s.proc t).refers b = false := by
  have counted := control.refcnt b
  rw [unused] at counted
  constructor
  · cases lock : (s.buf b).lock with
    | none => rfl
    | some t =>
      rw [lock, Option.isSome_some, Bool.toNat_true] at counted
      omega
  · exact count_eq_zero.1 (by omega)

theorem refcnt_pos (control : Control s) (refers : (s.proc t).refers b = true) :
    0 < (s.buf b).refcnt := by
  have counted := control.refcnt b
  have some : 0 < count (Point.refers b) s.proc := count_pos.2 ⟨t, refers⟩
  omega

/-- The disk has answered for the first buffer of the queue. -/
theorem serves (control : Control s) {fault : Bool} {rest : List B}
    (queue : s.idequeue = b :: rest) : Control (s.serve fault b rest) := by
  have get (c : B) : (s.serve fault b rest).buf c = if c = b then s.answered fault b else s.buf c := by
    simp [Function.update_apply]
  have apart : b ∉ rest := by
    have nodup := control.nodup
    rw [queue] at nodup
    exact (List.nodup_cons.1 nodup).1
  constructor
  · intro c
    rw [get]
    split_ifs with same
    · subst same
      exact control.refcnt c
    · exact control.refcnt c
  · intro u c waiting
    rw [get]
    split_ifs with same
    · subst same
      exact control.waiting u c waiting
    · exact control.waiting u c waiting
  · intro u c locked unbusy
    rw [get] at locked ⊢
    split_ifs at locked ⊢ with same
    · rfl
    · exact control.valid u c locked unbusy
  · intro c isDirty
    rw [get] at isDirty ⊢
    split_ifs at isDirty ⊢
    · rfl
    · exact control.dirty c isDirty
  · intro c
    rw [Pending, get]
    split_ifs with same
    · subst same
      simp [apart, answered]
    · have before := control.queued c
      rw [queue, List.mem_cons] at before
      simpa [same, Pending] using before
  · have nodup := control.nodup
    rw [queue] at nodup
    exact (List.nodup_cons.1 nodup).2
  · rfl

/-- A process goes on, outside of `iderw`, and changes one buffer. -/
structure Touched (s : System T B V) (t : T) (b : B) (q : Point B) (x : Buf T V) : Prop where
  quiet : ∀ c, s.proc t ≠ .waiting c ∧ q ≠ .waiting c
  balance : x.refcnt + (s.buf b).lock.isSome.toNat + ((s.proc t).refers b).toNat =
    (s.buf b).refcnt + x.lock.isSome.toNat + (q.refers b).toNat
  other : ∀ c ≠ b, (s.proc t).refers c = q.refers c
  lock : ∀ u ≠ t, x.lock = some u ↔ (s.buf b).lock = some u
  flags : ∀ u, s.proc u = .waiting b → x.valid = (s.buf b).valid ∧ x.dirty = (s.buf b).dirty ∧
    x.command = (s.buf b).command
  valid : x.lock ≠ none → (s.buf b).valid = true → x.valid = true
  own : x.lock = some t → x.valid = true
  dirty : x.dirty = true → x.valid = true

/-- A process goes on and changes the lock and the count of a buffer. -/
theorem Touched.of_kept (control : Control s) {q : Point B} {x : Buf T V}
    (quiet : ∀ c, s.proc t ≠ .waiting c ∧ q ≠ .waiting c)
    (balance : x.refcnt + (s.buf b).lock.isSome.toNat + ((s.proc t).refers b).toNat =
      (s.buf b).refcnt + x.lock.isSome.toNat + (q.refers b).toNat)
    (other : ∀ c ≠ b, (s.proc t).refers c = q.refers c)
    (lock : ∀ u ≠ t, x.lock = some u ↔ (s.buf b).lock = some u)
    (kept : x.valid = (s.buf b).valid ∧ x.dirty = (s.buf b).dirty ∧ x.command = (s.buf b).command)
    (own : x.lock = some t → (s.buf b).lock = some t ∨ (s.buf b).valid = true) :
    Touched s t b q x where
  quiet := quiet
  balance := balance
  other := other
  lock := lock
  flags := fun _ _ => kept
  valid := fun _ valid => kept.1.trans valid
  own := by
    intro mine
    rw [kept.1]
    rcases own mine with already | valid
    · exact control.valid t b already (quiet b).1
    · exact valid
  dirty := by
    rw [kept.1, kept.2.1]
    exact control.dirty b

variable [DecidableEq T]

theorem touched (control : Control s) {q : Point B} {x : Buf T V} (touched : Touched s t b q x)
    (moved : s'.proc = Function.update s.proc t q) (buf : s'.buf = Function.update s.buf b x)
    (queue : s'.idequeue = s.idequeue) (request : s'.request = s.request) : Control s' := by
  obtain ⟨quiet, balance, other, lock, flags, valid, own, dirty⟩ := touched
  have waits (u : T) (c : B) : s'.proc u = .waiting c ↔ s.proc u = .waiting c := by
    rw [moved, Function.update_apply]
    split_ifs with same
    · rw [same]
      simp [quiet c]
    · rfl
  have get (c : B) : s'.buf c = if c = b then x else s.buf c := by
    rw [buf, Function.update_apply]
  have kept (u : T) (c : B) (waiting : s.proc u = .waiting c) :
      (s'.buf c).valid = (s.buf c).valid ∧ (s'.buf c).dirty = (s.buf c).dirty ∧
        (s'.buf c).command = (s.buf c).command := by
    rw [get]
    split_ifs with same
    · subst same
      exact flags u waiting
    · exact ⟨rfl, rfl, rfl⟩
  constructor
  · intro c
    have before := control.refcnt c
    have counted := count_update (Point.refers c) s.proc t q
    rw [moved, get]
    split_ifs with same
    · subst same
      omega
    · rw [other c same] at counted
      omega
  · intro u c waiting
    rw [waits] at waiting
    have held := control.waiting u c waiting
    rw [get]
    split_ifs with same
    · subst same
      apply (lock u _).2 held
      rintro rfl
      exact (quiet c).1 waiting
    · exact held
  · intro u c locked unbusy
    rw [ne_eq, waits] at unbusy
    rw [get] at locked ⊢
    split_ifs at locked ⊢ with same
    · subst same
      by_cases me : u = t
      · exact own (me ▸ locked)
      · exact valid (by simp [locked]) (control.valid u c ((lock u me).1 locked) unbusy)
    · exact control.valid u c locked unbusy
  · intro c isDirty
    rw [get] at isDirty ⊢
    split_ifs at isDirty ⊢
    · exact dirty isDirty
    · exact control.dirty c isDirty
  · intro c
    rw [queue, control.queued]
    constructor
    · rintro ⟨⟨u, waiting⟩, pending⟩
      refine ⟨⟨u, (waits u c).2 waiting⟩, ?_⟩
      rwa [Pending, (kept u c waiting).1, (kept u c waiting).2.1]
    · rintro ⟨⟨u, waiting⟩, pending⟩
      rw [waits] at waiting
      refine ⟨⟨u, waiting⟩, ?_⟩
      rwa [Pending, (kept u c waiting).1, (kept u c waiting).2.1] at pending
  · rw [queue]
    exact control.nodup
  · rw [request, control.request, queue]
    cases first : s.idequeue with
    | nil => rfl
    | cons c rest =>
      obtain ⟨⟨u, waiting⟩, -⟩ := (control.queued c).1 (by simp [first])
      simp [(kept u c waiting).2.2]

/-- A process puts its buffer into the queue. -/
theorem enqueues (control : Control s) {p : Point B} {x : Buf T V} (here : s.proc t = p)
    (quiet : ∀ c, p ≠ .waiting c) (lock : (s.buf b).lock = none ∨ (s.buf b).lock = some t)
    (mine : x.lock = some t) (pending : x.valid = true → x.dirty = true)
    (balance : x.refcnt + (s.buf b).lock.isSome.toNat + (p.refers b).toNat = (s.buf b).refcnt + 1)
    (other : ∀ c ≠ b, p.refers c = false) (dirty : x.dirty = true → x.valid = true) :
    Control ((s.setBuf b x).enqueue t b) := by
  have nobody := control.not_waiting (by rwa [here]) lock
  have absent : b ∉ s.idequeue := by
    rw [control.queued]
    rintro ⟨⟨u, waiting⟩, -⟩
    exact nobody u waiting
  have waits (u : T) (c : B) :
      ((s.setBuf b x).enqueue t b).proc u = .waiting c ↔ (u = t ∧ c = b) ∨ s.proc u = .waiting c := by
    simp only [enqueue_proc, setBuf_proc, Function.update_apply]
    split_ifs with same
    · rw [same, here]
      simp [quiet c, eq_comm]
    · simp [same]
  have get (c : B) : ((s.setBuf b x).enqueue t b).buf c = if c = b then x else s.buf c := by
    simp [Function.update_apply]
  constructor
  · intro c
    have before := control.refcnt c
    have counted := count_update (Point.refers c) s.proc t (.waiting b)
    rw [here] at counted
    rw [get, enqueue_proc, setBuf_proc]
    rw [refers_waiting, Bool.toNat_false] at counted
    split_ifs with same
    · subst same
      simp only [mine, Option.isSome_some, Bool.toNat_true]
      omega
    · rw [other c same] at counted
      simp only [Bool.toNat_false] at counted
      omega
  · intro u c waiting
    rw [get]
    rcases (waits u c).1 waiting with ⟨rfl, rfl⟩ | earlier
    · simp [mine]
    · rw [if_neg, control.waiting u c earlier]
      rintro rfl
      exact nobody u earlier
  · intro u c locked unbusy
    rw [ne_eq, waits, not_or] at unbusy
    rw [get] at locked ⊢
    split_ifs at locked ⊢ with same
    · rw [mine, Option.some.injEq] at locked
      exact absurd ⟨locked.symm, same⟩ unbusy.1
    · exact control.valid u c locked unbusy.2
  · intro c isDirty
    rw [get] at isDirty ⊢
    split_ifs at isDirty ⊢
    · exact dirty isDirty
    · exact control.dirty c isDirty
  · intro c
    simp only [enqueue_idequeue, setBuf_idequeue, List.mem_append, List.mem_singleton]
    rw [control.queued, Pending, Pending, get]
    split_ifs with same
    · subst same
      simp only [or_true, true_iff]
      exact ⟨⟨t, (waits t c).2 (.inl ⟨rfl, rfl⟩)⟩, pending⟩
    · simp only [same, or_false]
      refine and_congr_left' (exists_congr fun u => ?_)
      rw [waits]
      simp [same]
  · simp only [enqueue_idequeue, setBuf_idequeue]
    exact List.Nodup.append control.nodup (List.nodup_singleton b) (by simpa using absent)
  · simp only [enqueue_request, enqueue_idequeue, setBuf_idequeue, setBuf_buf, enqueue_buf,
      setBuf_request, Function.update_self]
    cases first : s.idequeue with
    | nil => simp
    | cons c rest =>
      have apart : c ≠ b := by
        rintro rfl
        exact absent (by simp [first])
      simp [apart, control.request, first]

theorem wakes (control : Control s) (here : s.proc t = .waiting b)
    (valid : (s.buf b).valid = true) (clean : (s.buf b).dirty = false) : Control (s.goto t .idle) := by
  have waits (u : T) (c : B) :
      (s.goto t .idle).proc u = .waiting c ↔ u ≠ t ∧ s.proc u = .waiting c := by
    simp only [goto_proc, Function.update_apply]
    split_ifs with same <;> simp [same]
  constructor
  · intro c
    have counted := count_update (Point.refers c) s.proc t .idle
    rw [here, refers_waiting, refers_idle] at counted
    rw [goto_proc, Nat.add_right_cancel counted]
    exact control.refcnt c
  · intro u c waiting
    exact control.waiting u c ((waits u c).1 waiting).2
  · intro u c locked unbusy
    by_cases same : u = t ∧ c = b
    · rw [same.2]
      exact valid
    · apply control.valid u c locked
      intro waiting
      rw [ne_eq, waits, not_and] at unbusy
      apply unbusy _ waiting
      rintro rfl
      rw [here] at waiting
      exact same ⟨rfl, (Point.waiting.inj waiting).symm⟩
  · exact control.dirty
  · intro c
    change c ∈ s.idequeue ↔ _ ∧ s.Pending c
    rw [control.queued]
    refine and_congr_left fun pending => exists_congr fun u => ?_
    rw [waits]
    refine ⟨fun waiting => ⟨?_, waiting⟩, And.right⟩
    rintro rfl
    rw [here] at waiting
    obtain rfl := Point.waiting.inj waiting
    simp [Pending, valid, clean] at pending
  · exact control.nodup
  · exact control.request

theorem dropped (control : Control s) (here : s.proc t = .releasing b) :
    Control ((s.setBuf b { s.buf b with refcnt := (s.buf b).refcnt - 1 }).goto t .idle) := by
  have used : 0 < (s.buf b).refcnt := control.refcnt_pos (t := t) (by simp [here])
  refine control.touched (b := b) ?_ rfl rfl rfl rfl
  apply Touched.of_kept control
  · simp [here]
  · simp only [here, refers_releasing, refers_idle, decide_true, Bool.toNat_true, Bool.toNat_false]
    omega
  · simp [here, eq_comm]
  · simp
  · exact ⟨rfl, rfl, rfl⟩
  · exact .inl

theorem keeps [Fintype B] (control : Control s) (effect : Effect s a s') : Control s' := by
  cases effect with
  | @hits t dev blockno b here cached =>
    refine control.touched (b := b) ?_ rfl rfl rfl rfl
    apply Touched.of_kept control
    · simp [here]
    · simp only [here, refers_acquiring, refers_idle, decide_true, Bool.toNat_true, Bool.toNat_false]
      omega
    · simp [here, eq_comm]
    · simp
    · exact ⟨rfl, rfl, rfl⟩
    · exact .inl
  | @recycles t dev blockno b here missing found =>
    have unused := (recyclable_eq_some found).1
    obtain ⟨free, nobody⟩ := control.recyclable_unused unused
    refine control.touched (b := b) ?_ rfl rfl rfl rfl
    refine ⟨by simp [here], by simp [here, unused]; omega, by simp [here, eq_comm], by simp, ?_, ?_,
      ?_, ?_⟩
    · intro u waiting
      exact absurd waiting (control.not_waiting (t := t) (by simp [here]) (.inl free) u)
    · simp [free]
    · simp [free]
    · simp
  | @locks t b here free valid =>
    refine control.touched (b := b) ?_ rfl rfl rfl rfl
    apply Touched.of_kept control
    · simp [here]
    · simp [here, free]
    · simp [here, eq_comm]
    · simp [free, eq_comm]
    · exact ⟨rfl, rfl, rfl⟩
    · exact fun _ => .inr valid
  | @fetches t b here free invalid =>
    refine control.enqueues (b := b) here (by simp) (.inl free) rfl ?_ ?_ ?_ (control.dirty b)
    · simp [invalid]
    · simp [free]
    · simp [eq_comm]
  | @modifies t b data holds =>
    have nobody := control.not_waiting (by simp [holds.2]) (.inr holds.1)
    refine control.touched (b := b) ?_ (Function.update_eq_self t s.proc).symm rfl rfl rfl
    refine ⟨by simp [holds.2], by simp, by simp, by simp, ?_, fun _ v => v, ?_, control.dirty b⟩
    · intro u waiting
      exact absurd waiting (nobody u)
    · intro locked
      exact control.valid t b locked (by simp [holds.2])
  | @marks t b holds =>
    have nobody := control.not_waiting (by simp [holds.2]) (.inr holds.1)
    have valid := control.valid t b holds.1 (by simp [holds.2])
    refine control.touched (b := b) ?_ (Function.update_eq_self t s.proc).symm rfl rfl rfl
    refine ⟨by simp [holds.2], by simp, by simp, by simp, ?_, fun _ v => v, fun _ => valid,
      fun _ => valid⟩
    intro u waiting
    exact absurd waiting (nobody u)
  | @writes t b holds =>
    refine control.enqueues (b := b) holds.2 (by simp) (.inr holds.1) holds.1 ?_ ?_ ?_ ?_
    · exact fun _ => rfl
    · simp [holds.1]
    · simp
    · exact fun _ => control.valid t b holds.1 (by simp [holds.2])
  | wakes here valid clean => exact control.wakes here valid clean
  | @releases t b holds =>
    refine control.touched (b := b) ?_ rfl rfl rfl rfl
    apply Touched.of_kept control
    · simp [holds.2]
    · simp [holds.1, holds.2]
    · simp [holds.2, eq_comm]
    · simp [holds.1, eq_comm]
    · exact ⟨rfl, rfl, rfl⟩
    · simp
  | drops here others => exact control.dropped here
  | frees here last =>
    have after := control.dropped here
    exact ⟨after.refcnt, after.waiting, after.valid, after.dirty, after.queued, after.nodup,
      after.request⟩
  | idles empty =>
    exact ⟨control.refcnt, control.waiting, control.valid, control.dirty, control.queued,
      control.nodup, by simp [empty]⟩
  | serves queue => exact control.serves queue

end Control

end System

end SsuOs.Xv6Fs.Buffers
