import Mathlib.Data.Fintype.Card
import SsuOs.Base.Fallible
import SsuOs.Base.Links
import SsuOs.Base.Run
import SsuOs.Xv6Fs.Param

/-!
# The buffer cache and the disk

`bio.c` and the driver in `ide.c`: buffers in a ring of links with the most recently used one at its
head, a sleep lock for each buffer, the queue of requests to the disk, and the interrupts with which
the disk answers. A step is what a process does under `bcache.lock`, `idelock` or the lock of a sleep
lock, or what it does with a buffer that it has locked.
-/

namespace SsuOs.Xv6Fs.Buffers

open Links

/-- `struct buf` without the links. The sleep lock is the process that holds it. -/
structure Buf (T V : Type) where
  valid : Bool
  dirty : Bool
  dev : ℕ
  blockno : ℕ
  lock : Option T
  refcnt : ℕ
  data : V

/-- Where a process is. -/
inductive Point (B : Type)
  /-- not in a function of the cache -/
  | idle
  /-- in `bread`, about to take the sleep lock in `bget` -/
  | acquiring (b : B)
  /-- in `iderw`, waiting for the disk -/
  | waiting (b : B)
  /-- in `brelse`, after `releasesleep` -/
  | releasing (b : B)
  deriving DecidableEq

/-- What the controller of the disk was told to do: the drive is the low bit of `dev`. -/
inductive Request (V : Type)
  | read (drive blockno : ℕ)
  | write (drive blockno : ℕ) (data : V)

/-- The commands that `idestart` gives to the controller. -/
def Buf.command {T V : Type} (c : Buf T V) : Request V :=
  if c.dirty then .write (c.dev % 2) c.blockno c.data else .read (c.dev % 2) c.blockno

structure System (T B V : Type) where
  links : NodeRing B
  buf : B → Buf T V
  idequeue : List B
  request : Option (Request V)
  disk : ℕ → ℕ → V
  proc : T → Point B

inductive Panic
  /-- `bget: no buffers` -/
  | noBuffers
  | bwrite
  | brelse
  /-- `iderw: buf not locked` -/
  | notLocked
  /-- `iderw: nothing to do` -/
  | nothingToDo
  /-- `iderw: ide disk 1 not present` -/
  | noDisk
  | incorrectBlockno
  deriving DecidableEq, Repr

inductive Halt
  /-- this process cannot do that now -/
  | refused
  | panic (p : Panic)
  deriving DecidableEq, Repr

/-- What can happen. -/
inductive Label (T B V : Type)
  /-- `bread` as far as the critical section of `bget` -/
  | bread (t : T) (dev blockno : ℕ)
  /-- the rest of `bread`, or as far as its sleep in `iderw` -/
  | acquire (t : T)
  /-- the process changes a buffer that it has locked -/
  | modify (t : T) (b : B) (data : V)
  /-- `log_write` sets `B_DIRTY` -/
  | mark (t : T) (b : B)
  /-- `bwrite` as far as its sleep in `iderw` -/
  | bwrite (t : T) (b : B)
  /-- `iderw` returns -/
  | wake (t : T)
  /-- `brelse` as far as `releasesleep` -/
  | brelse (t : T) (b : B)
  /-- the rest of `brelse` -/
  | drop (t : T)
  /-- The disk has done what it was told, or has failed to, and interrupts. -/
  | interrupt (fault : Bool)

namespace System

variable {T B V : Type} {havedisk1 : Bool} {s s' : System T B V} {a : Label T B V}

/-- The block that a buffer is for. -/
def addr (s : System T B V) (b : B) : ℕ × ℕ := ((s.buf b).dev, (s.buf b).blockno)

/-- `idestart`. The loops that wait for the controller to be ready come to an end. -/
def idestart (s : System T B V) (b : B) : Except Halt (System T B V) :=
  if (s.buf b).blockno ≥ fsSize then .error (.panic .incorrectBlockno)
  else .ok { s with request := some (s.buf b).command }

theorem idestart_eq_ok {b : B} : s.idestart b = .ok s' ↔
    (s.buf b).blockno < fsSize ∧ { s with request := some (s.buf b).command } = s' := by
  simp [idestart]

/-- What the disk does with its request: what is on it afterwards, and what a read delivers. -/
def transfer (s : System T B V) : (ℕ → ℕ → V) × Option V :=
  match s.request with
  | none => (s.disk, none)
  | some (.read drive blockno) => (s.disk, some (s.disk drive blockno))
  | some (.write drive blockno data) =>
    (Function.update s.disk drive (Function.update (s.disk drive) blockno data), none)

section
variable [Fintype B]

/-- The first loop of `bget`. -/
def cached (s : System T B V) (dev blockno : ℕ) : Option B :=
  NodeRing.scan s.links.next (fun b => (s.buf b).dev = dev ∧ (s.buf b).blockno = blockno)
    (Fintype.card B + 1) (s.links.next none)

/-- The second loop of `bget`. -/
def recyclable (s : System T B V) : Option B :=
  NodeRing.scan s.links.prev (fun b => (s.buf b).refcnt = 0 ∧ (s.buf b).dirty = false)
    (Fintype.card B + 1) (s.links.prev none)

theorem cached_eq_some {b : B} {dev blockno : ℕ} (found : s.cached dev blockno = some b) :
    s.addr b = (dev, blockno) := by
  have here := NodeRing.of_scan found
  simpa [addr] using here

theorem recyclable_eq_some {b : B} (found : s.recyclable = some b) :
    (s.buf b).refcnt = 0 ∧ (s.buf b).dirty = false := by
  simpa using NodeRing.of_scan found

end

variable [DecidableEq B]

@[simps -fullyApplied] def setBuf (s : System T B V) (b : B) (c : Buf T V) : System T B V :=
  { s with buf := Function.update s.buf b c }

/-- `ideintr`, when the disk interrupts. A fault is looked at for a read only. -/
def ideintr (s : System T B V) (fault : Bool) : Except Halt (System T B V) :=
  let done := { s with disk := if fault then s.disk else s.transfer.1, request := none }
  match s.idequeue with
  | [] => .ok done
  | b :: queue =>
    let c := s.buf b
    let data := if c.dirty = false ∧ fault = false then s.transfer.2.getD c.data else c.data
    let done := { done.setBuf b { c with data, valid := true, dirty := false } with idequeue := queue }
    match queue with
    | [] => .ok done
    | next :: _ => done.idestart next

variable [DecidableEq T]

@[simps -fullyApplied] def goto (s : System T B V) (t : T) (p : Point B) : System T B V :=
  { s with proc := Function.update s.proc t p }

/-- `iderw` as far as its sleep. -/
def iderw (havedisk1 : Bool) (s : System T B V) (t : T) (b : B) : Except Halt (System T B V) :=
  let c := s.buf b
  if c.lock ≠ some t then .error (.panic .notLocked)
  else if c.valid = true ∧ c.dirty = false then .error (.panic .nothingToDo)
  else if c.dev ≠ 0 ∧ havedisk1 = false then .error (.panic .noDisk)
  else
    let queued := { s with idequeue := s.idequeue ++ [b] }.goto t (.waiting b)
    if queued.idequeue.head? = some b then queued.idestart b else .ok queued

/-- After `iderw` has put a buffer at the end of the queue. -/
@[simps -fullyApplied] def enqueue (s : System T B V) (t : T) (b : B) : System T B V where
  links := s.links
  buf := s.buf
  idequeue := s.idequeue ++ [b]
  request := if (s.idequeue ++ [b]).head? = some b then some (s.buf b).command else s.request
  disk := s.disk
  proc := Function.update s.proc t (.waiting b)

theorem iderw_eq_ok {t : T} {b : B} (ok : s.iderw havedisk1 t b = .ok s') :
    s' = s.enqueue t b ∧ (s.buf b).lock = some t := by
  simp only [iderw] at ok
  split_ifs at ok with lock state drive first
  · obtain ⟨-, rfl⟩ := idestart_eq_ok.1 ok
    refine ⟨?_, not_not.1 lock⟩
    have head : (s.idequeue ++ [b]).head? = some b := first
    rw [enqueue, if_pos head]
    rfl
  · obtain rfl := Except.ok.inj ok
    refine ⟨?_, not_not.1 lock⟩
    have head : (s.idequeue ++ [b]).head? ≠ some b := first
    rw [enqueue, if_neg head]
    rfl

theorem enqueue_goto (t : T) (b : B) (p : Point B) : (s.goto t p).enqueue t b = s.enqueue t b := by
  simp [enqueue, goto]

variable [Fintype B]

/-- `bget` as far as `release`. -/
def bget (s : System T B V) (dev blockno : ℕ) : Except Halt (B × System T B V) :=
  match s.cached dev blockno with
  | some b => .ok (b, s.setBuf b { s.buf b with refcnt := (s.buf b).refcnt + 1 })
  | none =>
    match s.recyclable with
    | some b =>
      .ok (b, s.setBuf b { s.buf b with dev, blockno, valid := false, dirty := false, refcnt := 1 })
    | none => .error (.panic .noBuffers)

/-- The process has locked the buffer and is not in a function of the cache. -/
def Holds (s : System T B V) (t : T) (b : B) : Prop := (s.buf b).lock = some t ∧ s.proc t = .idle

instance (s : System T B V) (t : T) (b : B) : Decidable (s.Holds t b) :=
  inferInstanceAs (Decidable (_ ∧ _))

def step (havedisk1 : Bool) (s : System T B V) : Label T B V → Except Halt (System T B V)
  | .bread t dev blockno =>
    if s.proc t = .idle then do
      let r ← s.bget dev blockno
      return r.2.goto t (.acquiring r.1)
    else .error .refused
  | .acquire t =>
    match s.proc t with
    | .acquiring b =>
      if (s.buf b).lock = none then
        let locked := (s.setBuf b { s.buf b with lock := some t }).goto t .idle
        if (s.buf b).valid then .ok locked else locked.iderw havedisk1 t b
      else .error .refused
    | _ => .error .refused
  | .modify t b data =>
    if s.Holds t b then .ok (s.setBuf b { s.buf b with data }) else .error .refused
  | .mark t b =>
    if s.Holds t b then .ok (s.setBuf b { s.buf b with dirty := true }) else .error .refused
  | .bwrite t b =>
    if s.proc t = .idle then
      if (s.buf b).lock ≠ some t then .error (.panic .bwrite)
      else (s.setBuf b { s.buf b with dirty := true }).iderw havedisk1 t b
    else .error .refused
  | .wake t =>
    match s.proc t with
    | .waiting b =>
      if (s.buf b).valid = true ∧ (s.buf b).dirty = false then .ok (s.goto t .idle)
      else .error .refused
    | _ => .error .refused
  | .brelse t b =>
    if s.proc t = .idle then
      if (s.buf b).lock ≠ some t then .error (.panic .brelse)
      else .ok ((s.setBuf b { s.buf b with lock := none }).goto t (.releasing b))
    else .error .refused
  | .drop t =>
    match s.proc t with
    | .releasing b =>
      let dropped := (s.setBuf b { s.buf b with refcnt := (s.buf b).refcnt - 1 }).goto t .idle
      if (s.buf b).refcnt - 1 = 0 then
        .ok { dropped with links := (s.links.unlink b).pushFront b }
      else .ok dropped
    | _ => .error .refused
  | .interrupt fault => s.ideintr fault

/-- The steps that do not stop the machine. -/
def Step (havedisk1 : Bool) (s : System T B V) (a : Label T B V) (s' : System T B V) : Prop :=
  s.step havedisk1 a = .ok s'

/-- `binit` over all buffers, in a machine that has just been started with this disk. The buffers are
for block 0 of device 0 then, all of them. -/
def binit (bufs : List B) (memory : V) (disk : ℕ → ℕ → V) : System T B V where
  links := bufs.foldl NodeRing.pushFront NodeRing.empty
  buf := fun _ => ⟨false, false, 0, 0, none, 0, memory⟩
  idequeue := []
  request := none
  disk := disk
  proc := fun _ => .idle

/-! ## What a step does -/

/-- A buffer after the interrupt for it. -/
def answered (s : System T B V) (fault : Bool) (b : B) : Buf T V :=
  { s.buf b with
    data := if (s.buf b).dirty = false ∧ fault = false then s.transfer.2.getD (s.buf b).data
      else (s.buf b).data
    valid := true
    dirty := false }

/-- After the interrupt for the first buffer of the queue. -/
@[simps -fullyApplied] def serve (s : System T B V) (fault : Bool) (b : B) (rest : List B) :
    System T B V where
  links := s.links
  buf := Function.update s.buf b (s.answered fault b)
  idequeue := rest
  request := rest.head?.map fun next => (Function.update s.buf b (s.answered fault b) next).command
  disk := if fault then s.disk else s.transfer.1
  proc := s.proc

/-- The ways of taking a step, each with what it found and what it left. -/
inductive Effect (s : System T B V) : Label T B V → System T B V → Prop
  | hits {t : T} {dev blockno : ℕ} {b : B} (here : s.proc t = .idle)
      (found : s.cached dev blockno = some b) :
      Effect s (.bread t dev blockno)
        ((s.setBuf b { s.buf b with refcnt := (s.buf b).refcnt + 1 }).goto t (.acquiring b))
  | recycles {t : T} {dev blockno : ℕ} {b : B} (here : s.proc t = .idle)
      (missing : s.cached dev blockno = none) (found : s.recyclable = some b) :
      Effect s (.bread t dev blockno)
        ((s.setBuf b { s.buf b with dev, blockno, valid := false, dirty := false, refcnt := 1 }).goto
          t (.acquiring b))
  | locks {t : T} {b : B} (here : s.proc t = .acquiring b) (free : (s.buf b).lock = none)
      (valid : (s.buf b).valid = true) :
      Effect s (.acquire t) ((s.setBuf b { s.buf b with lock := some t }).goto t .idle)
  | fetches {t : T} {b : B} (here : s.proc t = .acquiring b) (free : (s.buf b).lock = none)
      (invalid : (s.buf b).valid = false) :
      Effect s (.acquire t) ((s.setBuf b { s.buf b with lock := some t }).enqueue t b)
  | modifies {t : T} {b : B} {data : V} (holds : s.Holds t b) :
      Effect s (.modify t b data) (s.setBuf b { s.buf b with data })
  | marks {t : T} {b : B} (holds : s.Holds t b) :
      Effect s (.mark t b) (s.setBuf b { s.buf b with dirty := true })
  | writes {t : T} {b : B} (holds : s.Holds t b) :
      Effect s (.bwrite t b) ((s.setBuf b { s.buf b with dirty := true }).enqueue t b)
  | wakes {t : T} {b : B} (here : s.proc t = .waiting b) (valid : (s.buf b).valid = true)
      (clean : (s.buf b).dirty = false) :
      Effect s (.wake t) (s.goto t .idle)
  | releases {t : T} {b : B} (holds : s.Holds t b) :
      Effect s (.brelse t b) ((s.setBuf b { s.buf b with lock := none }).goto t (.releasing b))
  | drops {t : T} {b : B} (here : s.proc t = .releasing b) (others : (s.buf b).refcnt - 1 ≠ 0) :
      Effect s (.drop t)
        ((s.setBuf b { s.buf b with refcnt := (s.buf b).refcnt - 1 }).goto t .idle)
  | frees {t : T} {b : B} (here : s.proc t = .releasing b) (last : (s.buf b).refcnt - 1 = 0) :
      Effect s (.drop t)
        { (s.setBuf b { s.buf b with refcnt := (s.buf b).refcnt - 1 }).goto t .idle with
          links := (s.links.unlink b).pushFront b }
  | idles {fault : Bool} (empty : s.idequeue = []) :
      Effect s (.interrupt fault)
        { s with disk := if fault then s.disk else s.transfer.1, request := none }
  | serves {fault : Bool} {b : B} {rest : List B} (queue : s.idequeue = b :: rest) :
      Effect s (.interrupt fault) (s.serve fault b rest)

theorem ideintr_effect {fault : Bool} (ok : s.ideintr fault = .ok s') :
    Effect s (.interrupt fault) s' := by
  simp only [ideintr] at ok
  split at ok
  next queue =>
    obtain rfl := Except.ok.inj ok
    exact .idles queue
  next b rest queue =>
    split at ok
    next =>
      obtain rfl := Except.ok.inj ok
      exact .serves queue
    next next rest =>
      obtain ⟨-, rfl⟩ := idestart_eq_ok.1 ok
      exact .serves queue

theorem Step.effect (taken : s.Step havedisk1 a s') : Effect s a s' := by
  unfold Step at taken
  cases a with
  | bread t dev blockno =>
    rw [step] at taken
    split_ifs at taken with here
    rw [bget] at taken
    split at taken
    next b found =>
      obtain rfl := Except.ok.inj taken
      exact .hits here found
    next missing =>
      split at taken
      next b found =>
        obtain rfl := Except.ok.inj taken
        exact .recycles here missing found
      next => simp at taken
  | acquire t =>
    simp only [step] at taken
    split at taken
    next b here =>
      split_ifs at taken with free valid
      · obtain rfl := Except.ok.inj taken
        exact .locks here free valid
      · obtain ⟨rfl, -⟩ := iderw_eq_ok taken
        rw [enqueue_goto]
        exact .fetches here free (by simpa using valid)
    next => simp at taken
  | modify t b data =>
    rw [step] at taken
    split_ifs at taken with holds
    obtain rfl := Except.ok.inj taken
    exact .modifies holds
  | mark t b =>
    rw [step] at taken
    split_ifs at taken with holds
    obtain rfl := Except.ok.inj taken
    exact .marks holds
  | bwrite t b =>
    rw [step] at taken
    split_ifs at taken with here locked
    obtain ⟨rfl, -⟩ := iderw_eq_ok taken
    exact .writes ⟨not_not.1 locked, here⟩
  | wake t =>
    rw [step] at taken
    split at taken
    next b here =>
      split_ifs at taken with done
      obtain rfl := Except.ok.inj taken
      exact .wakes here done.1 done.2
    next => simp at taken
  | brelse t b =>
    rw [step] at taken
    split_ifs at taken with here locked
    obtain rfl := Except.ok.inj taken
    exact .releases ⟨not_not.1 locked, here⟩
  | drop t =>
    simp only [step] at taken
    split at taken
    next b here =>
      split_ifs at taken with last
      · obtain rfl := Except.ok.inj taken
        exact .frees here last
      · obtain rfl := Except.ok.inj taken
        exact .drops here last
    next => simp at taken
  | interrupt fault => exact ideintr_effect taken

end System

end SsuOs.Xv6Fs.Buffers
