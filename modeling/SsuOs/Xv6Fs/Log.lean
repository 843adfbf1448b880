import Mathlib.Data.Fintype.Defs
import Mathlib.Order.Nat
import SsuOs.Base.Fallible
import SsuOs.Base.RedoLog
import SsuOs.Base.Run
import SsuOs.Xv6Fs.Param

/-!
# The log of the file system

`log.c` over a disk that survives a power cut and a buffer cache that does not. Any number of
processes run file system operations at the same time. What happens between two disk writes, and
between two sections under `log.lock`, is one step, and the power may fail at any of them, also
while the log is being recovered.
-/

namespace SsuOs.Xv6Fs

open Fallible

namespace Log

/-! ## The header block -/

/-- The block numbers of the `struct logheader` in a block. A negative `n` is as good as zero: all
loops over the header run while `i < n`. -/
def head (b : Block) : List ℕ :=
  (b.words 4 (b.word 0).toInt32.toInt.toNat).map UInt32.toNat

/-- The stores of `write_head` to the header block. -/
def putHead (b : Block) (lh : List ℕ) : Block :=
  (b.setWord 0 (UInt32.ofNat lh.length)).setWords 4 (lh.map UInt32.ofNat)

/-- The header that was written is read again. -/
theorem head_putHead (b : Block) {lh : List ℕ} (few : lh.length ≤ logSize)
    (small : ∀ x ∈ lh, x < fsSize) : head (putHead b lh) = lh := by
  change lh.length ≤ 30 at few
  change ∀ x ∈ lh, x < 1000 at small
  have fits : 4 + 4 * (lh.map UInt32.ofNat).length ≤ bsize := by
    rw [List.length_map]
    change _ ≤ 512
    omega
  have count : ((putHead b lh).word 0).toInt32.toInt.toNat = (lh.map UInt32.ofNat).length := by
    rw [putHead, Bytes.word_setWords_of_before fits (by omega), Bytes.word_setWord (by decide),
      List.length_map]
    generalize lh.length = n at few
    decide +revert
  have numbers : (lh.map UInt32.ofNat).map UInt32.toNat = lh := by
    rw [List.map_map]
    apply List.map_congr_left (g := id) (fun x mem => ?_) |>.trans (List.map_id _)
    exact UInt32.toNat_ofNat_of_lt' ((small x mem).trans (by decide))
  rw [head, count, putHead, Bytes.words_setWords fits, numbers]

/-! ## The log, the cache and the disk -/

/-- `log.start` and `log.size`, as the superblock has them. -/
structure Geometry where
  start : ℕ
  size : ℕ

/-- A block that is not part of the log. -/
def Geometry.Home (g : Geometry) (b : ℕ) : Prop := b < g.start ∨ g.start + g.size ≤ b

instance (g : Geometry) : DecidablePred g.Home := fun _ => inferInstanceAs (Decidable (_ ∨ _))

/-- Where a process is. -/
inductive Point
  /-- not in a file system operation -/
  | outside
  /-- sleeping on `&log` in `begin_op` -/
  | asleep
  /-- woken from that sleep, about to test again -/
  | woken
  /-- between `begin_op` and `end_op` -/
  | inside
  /-- in `log_write` for the locked buffer of this block, past the two checks -/
  | recording (b : ℕ)
  /-- in `end_op`, about to call `commit` -/
  | ending
  /-- in `write_log`, with this `tail` -/
  | copying (tail : ℕ)
  /-- in the `install_trans` of `commit`, with this `tail` -/
  | installing (tail : ℕ)
  /-- in `end_op`, after `commit` -/
  | closing
  deriving DecidableEq, Repr

/-- Between `begin_op` and `end_op`. -/
def Point.active : Point → Bool
  | .inside | .recording _ => true
  | _ => false

/-- The process has set `log.committing` and not yet cleared it. -/
def Point.commits : Point → Bool
  | .ending | .copying _ | .installing _ | .closing => true
  | _ => false

structure System (T : Type) where
  disk : ℕ → Block
  /-- what `bread` returns -/
  cache : ℕ → Block
  /-- `B_DIRTY`, which keeps a buffer in the cache -/
  dirty : ℕ → Bool
  /-- the first `n` entries of `log.lh.block` -/
  lh : List ℕ
  outstanding : ℤ
  committing : Bool
  proc : T → Point
  /-- in `recover_from_log` with this `tail` of `install_trans` -/
  booting : Option ℕ

inductive Panic
  | tooBigTransaction
  | outsideOfTrans
  | committing
  | incorrectBlockno
  /-- a store past the end of `log.lh.block` -/
  | overrun
  deriving DecidableEq, Repr

/-- Why a step does not lead to another state. -/
inductive Halt
  /-- this process cannot do that now -/
  | refused
  | panic (p : Panic)
  deriving DecidableEq, Repr

/-- What can happen. -/
inductive Label (T : Type)
  | beginOp (t : T)
  /-- The process reads the block, changes it to `data` and calls `log_write`, as far as the checks
  that `log_write` makes before it takes `log.lock`. -/
  | modify (t : T) (b : ℕ) (data : Block)
  /-- the rest of `log_write` -/
  | record (t : T)
  | endOp (t : T)
  /-- the next disk write of `commit`, or the end of `end_op` -/
  | commit (t : T)
  /-- `kill` wakes a process that sleeps -/
  | kill (t : T)
  /-- `bget` recycles a buffer -/
  | evict (b : ℕ)
  /-- the next disk write of `recover_from_log` -/
  | recover
  /-- The power fails, and the machine starts again and reads the log header. -/
  | crash

namespace System

variable {T : Type}

/-- `iderw` panics for a block that the disk does not have. -/
def bread (s : System T) (b : ℕ) : Except Halt Block :=
  if b < fsSize then .ok (s.cache b) else .error (.panic .incorrectBlockno)

@[simp] theorem bread_eq_ok {s : System T} {b : ℕ} {data : Block} :
    s.bread b = .ok data ↔ b < fsSize ∧ s.cache b = data := by
  rw [bread]
  split <;> simp [*]

@[simps -fullyApplied] def bwrite (s : System T) (b : ℕ) (data : Block) : System T :=
  { s with
    disk := Function.update s.disk b data
    cache := Function.update s.cache b data
    dirty := Function.update s.dirty b false }

/-- `wakeup(&log)`. -/
@[simps -fullyApplied] def wakeup (s : System T) : System T :=
  { s with proc := fun t => if s.proc t = .asleep then .woken else s.proc t }

/-- `write_head`. -/
def writeHead (g : Geometry) (s : System T) : Except Halt (System T) := do
  let b ← s.bread g.start
  return s.bwrite g.start (putHead b s.lh)

/-- The round of `write_log` for the block number `b` at `tail`. -/
def writeLog (g : Geometry) (s : System T) (tail b : ℕ) : Except Halt (System T) := do
  discard (s.bread (g.start + tail + 1))
  let data ← s.bread b
  return s.bwrite (g.start + tail + 1) data

/-- The round of `install_trans` for the block number `b` at `tail`. -/
def installTrans (g : Geometry) (s : System T) (tail b : ℕ) : Except Halt (System T) := do
  let data ← s.bread (g.start + tail + 1)
  discard (s.bread b)
  return s.bwrite b data

theorem writeHead_ok {g : Geometry} {s s' : System T} (done : s.writeHead g = .ok s') :
    s' = s.bwrite g.start (putHead (s.cache g.start) s.lh) := by
  simp only [writeHead, bind_eq_ok, bread_eq_ok, pure_eq_ok] at done
  grind

theorem writeLog_ok {g : Geometry} {s s' : System T} {tail b : ℕ}
    (done : s.writeLog g tail b = .ok s') : s' = s.bwrite (g.start + tail + 1) (s.cache b) := by
  simp only [writeLog, bind_eq_ok, bread_eq_ok, pure_eq_ok, discard_eq_ok] at done
  grind

theorem installTrans_ok {g : Geometry} {s s' : System T} {tail b : ℕ}
    (done : s.installTrans g tail b = .ok s') :
    s' = s.bwrite b (s.cache (g.start + tail + 1)) := by
  simp only [installTrans, bind_eq_ok, bread_eq_ok, pure_eq_ok, discard_eq_ok] at done
  grind

variable [DecidableEq T]

@[simps -fullyApplied] def goto (s : System T) (t : T) (p : Point) : System T :=
  { s with proc := Function.update s.proc t p }

/-- One round of the loop in `begin_op`. -/
def beginOp (s : System T) (t : T) : System T :=
  if s.committing then s.goto t .asleep
  else if s.lh.length + (s.outstanding + 1) * maxOpBlocks > logSize then s.goto t .asleep
  else { s with outstanding := s.outstanding + 1 }.goto t .inside

/-- `log_write` up to `acquire`, in a process that has changed the buffer of `b` to `data`. -/
def modify (g : Geometry) (s : System T) (t : T) (b : ℕ) (data : Block) :
    Except Halt (System T) := do
  discard (s.bread b)
  if s.lh.length ≥ logSize ∨ (s.lh.length : ℤ) ≥ g.size - 1 then
    throw (.panic .tooBigTransaction)
  if s.outstanding < 1 then
    throw (.panic .outsideOfTrans)
  return { s with cache := Function.update s.cache b data }.goto t (.recording b)

/-- `log_write` from `acquire` on. -/
def record (s : System T) (t : T) (b : ℕ) : Except Halt (System T) :=
  if b ∈ s.lh then .ok ({ s with dirty := Function.update s.dirty b true }.goto t .inside)
  else if s.lh.length < logSize then
    .ok ({ s with lh := s.lh ++ [b], dirty := Function.update s.dirty b true }.goto t .inside)
  else .error (.panic .overrun)

/-- `end_op` up to `release`. -/
def endOp (s : System T) (t : T) : Except Halt (System T) :=
  let s := { s with outstanding := s.outstanding - 1 }
  if s.committing then .error (.panic .committing)
  else if s.outstanding = 0 then .ok ({ s with committing := true }.goto t .ending)
  else .ok (s.wakeup.goto t .outside)

/-- `end_op` and `commit` after `release`, from one disk write to the next. -/
def commit (g : Geometry) (s : System T) (t : T) : Except Halt (System T) :=
  match s.proc t with
  | .ending => .ok (s.goto t (if s.lh.length > 0 then .copying 0 else .closing))
  | .copying tail =>
    match s.lh[tail]? with
    | some b => return (← s.writeLog g tail b).goto t (.copying (tail + 1))
    | none => return (← s.writeHead g).goto t (.installing 0)
  | .installing tail =>
    match s.lh[tail]? with
    | some b => return (← s.installTrans g tail b).goto t (.installing (tail + 1))
    | none => return (← { s with lh := [] }.writeHead g).goto t .closing
  | .closing => .ok ({ s with committing := false }.wakeup.goto t .outside)
  | _ => .error .refused

/-- `recover_from_log` after `read_head`, from one disk write to the next. -/
def recover (g : Geometry) (s : System T) : Except Halt (System T) :=
  match s.booting with
  | none => .error .refused
  | some tail =>
    match s.lh[tail]? with
    | some b => return { ← s.installTrans g tail b with booting := some (tail + 1) }
    | none => return { ← { s with lh := [] }.writeHead g with booting := none }

/-- A machine that has just been started with this disk, after `read_head`. -/
def booted (g : Geometry) (disk : ℕ → Block) : System T where
  disk := disk
  cache := disk
  dirty := fun _ => false
  lh := head (disk g.start)
  outstanding := 0
  committing := false
  proc := fun _ => .outside
  booting := some 0

/-- `initlog` up to `read_head`, which copies as many block numbers as the header says. -/
def boot (g : Geometry) (disk : ℕ → Block) : Except Halt (System T) :=
  if fsSize ≤ g.start then .error (.panic .incorrectBlockno)
  else if (head (disk g.start)).length ≤ logSize then .ok (booted g disk)
  else .error (.panic .overrun)

/-- A process in `log_write` holds the sleep lock of its buffer. -/
def Locked (s : System T) (b : ℕ) : Prop := ∃ t, s.proc t = .recording b

section
variable [Fintype T]

instance (s : System T) : DecidablePred s.Locked :=
  fun b => inferInstanceAs (Decidable (∃ t, s.proc t = .recording b))

def step (g : Geometry) (s : System T) : Label T → Except Halt (System T)
  | .beginOp t =>
    if s.booting = none ∧ (s.proc t = .outside ∨ s.proc t = .woken) then .ok (s.beginOp t)
    else .error .refused
  | .modify t b data =>
    if s.proc t = .inside ∧ ¬ s.Locked b then s.modify g t b data else .error .refused
  | .record t =>
    match s.proc t with
    | .recording b => s.record t b
    | _ => .error .refused
  | .endOp t => if s.proc t = .inside then s.endOp t else .error .refused
  | .commit t => s.commit g t
  | .kill t => if s.proc t = .asleep then .ok (s.goto t .woken) else .error .refused
  | .evict b =>
    if s.dirty b = false ∧ ¬ s.Locked b then
      .ok { s with cache := Function.update s.cache b (s.disk b) }
    else .error .refused
  | .recover => s.recover g
  | .crash => boot g s.disk

/-- The steps that do not stop the machine. -/
def Step (g : Geometry) (s : System T) (a : Label T) (s' : System T) : Prop := s.step g a = .ok s'

end

/-! ## What a step does -/

/-- The ways of taking a step, each with what it found and what it left. -/
inductive Effect (g : Geometry) (s : System T) : Label T → System T → Prop
  | sleeps (t : T) (up : s.booting = none) (here : s.proc t = .outside ∨ s.proc t = .woken)
      (busy : s.committing = true ∨
        s.lh.length + (s.outstanding + 1) * maxOpBlocks > logSize) :
      Effect g s (.beginOp t) (s.goto t .asleep)
  | enters (t : T) (up : s.booting = none) (here : s.proc t = .outside ∨ s.proc t = .woken)
      (free : s.committing = false)
      (room : s.lh.length + (s.outstanding + 1) * maxOpBlocks ≤ logSize) :
      Effect g s (.beginOp t) ({ s with outstanding := s.outstanding + 1 }.goto t .inside)
  | modifies (t : T) (b : ℕ) (data : Block) (here : s.proc t = .inside) (unlocked : ¬ s.Locked b)
      (small : b < fsSize) (few : s.lh.length < logSize)
      (room : s.lh.length + 1 < g.size) (opened : 1 ≤ s.outstanding) :
      Effect g s (.modify t b data)
        ({ s with cache := Function.update s.cache b data }.goto t (.recording b))
  | absorbs (t : T) (b : ℕ) (here : s.proc t = .recording b) (listed : b ∈ s.lh) :
      Effect g s (.record t)
        ({ s with dirty := Function.update s.dirty b true }.goto t .inside)
  | appends (t : T) (b : ℕ) (here : s.proc t = .recording b) (new : b ∉ s.lh)
      (few : s.lh.length < logSize) :
      Effect g s (.record t)
        ({ s with lh := s.lh ++ [b], dirty := Function.update s.dirty b true }.goto t .inside)
  | leaves (t : T) (here : s.proc t = .inside) (free : s.committing = false)
      (others : s.outstanding ≠ 1) :
      Effect g s (.endOp t)
        ({ s with outstanding := s.outstanding - 1 }.wakeup.goto t .outside)
  | ends (t : T) (here : s.proc t = .inside) (free : s.committing = false)
      (last : s.outstanding = 1) :
      Effect g s (.endOp t)
        ({ s with outstanding := s.outstanding - 1, committing := true }.goto t .ending)
  | starts (t : T) (here : s.proc t = .ending) (dirty : s.lh ≠ []) :
      Effect g s (.commit t) (s.goto t (.copying 0))
  | skips (t : T) (here : s.proc t = .ending) (empty : s.lh = []) :
      Effect g s (.commit t) (s.goto t .closing)
  | copies (t : T) (tail : ℕ) (here : s.proc t = .copying tail) (below : tail < s.lh.length) :
      Effect g s (.commit t)
        ((s.bwrite (g.start + tail + 1) (s.cache s.lh[tail])).goto t (.copying (tail + 1)))
  | commits (t : T) (tail : ℕ) (here : s.proc t = .copying tail) (all : s.lh.length ≤ tail) :
      Effect g s (.commit t)
        ((s.bwrite g.start (putHead (s.cache g.start) s.lh)).goto t (.installing 0))
  | installs (t : T) (tail : ℕ) (here : s.proc t = .installing tail)
      (below : tail < s.lh.length) :
      Effect g s (.commit t)
        ((s.bwrite s.lh[tail] (s.cache (g.start + tail + 1))).goto t (.installing (tail + 1)))
  | clears (t : T) (tail : ℕ) (here : s.proc t = .installing tail) (all : s.lh.length ≤ tail) :
      Effect g s (.commit t)
        (({ s with lh := [] }.bwrite g.start (putHead (s.cache g.start) [])).goto t .closing)
  | closes (t : T) (here : s.proc t = .closing) :
      Effect g s (.commit t) ({ s with committing := false }.wakeup.goto t .outside)
  | kills (t : T) (here : s.proc t = .asleep) : Effect g s (.kill t) (s.goto t .woken)
  | evicts (b : ℕ) (clean : s.dirty b = false) (unlocked : ¬ s.Locked b) :
      Effect g s (.evict b) { s with cache := Function.update s.cache b (s.disk b) }
  | reinstalls (tail : ℕ) (down : s.booting = some tail) (below : tail < s.lh.length) :
      Effect g s .recover
        { s.bwrite s.lh[tail] (s.cache (g.start + tail + 1)) with booting := some (tail + 1) }
  | recovers (tail : ℕ) (down : s.booting = some tail) (all : s.lh.length ≤ tail) :
      Effect g s .recover
        { { s with lh := [] }.bwrite g.start (putHead (s.cache g.start) []) with booting := none }
  | reboots (few : (head (s.disk g.start)).length ≤ logSize) :
      Effect g s .crash (booted g s.disk)

theorem effect_of_commit {g : Geometry} {s s' : System T} {t : T} (done : s.commit g t = .ok s') :
    Effect g s (.commit t) s' := by
  rw [commit] at done
  split at done
  case h_1 here =>
    cases done
    split
    · exact .starts t here (List.ne_nil_of_length_pos ‹_›)
    · exact .skips t here (List.eq_nil_of_length_eq_zero (by omega))
  case h_2 tail here =>
    split at done
    · rename_i b found
      simp only [bind_eq_ok, pure_eq_ok] at done
      obtain ⟨u, wrote, rfl⟩ := done
      obtain ⟨below, rfl⟩ := List.getElem?_eq_some_iff.1 found
      rw [writeLog_ok wrote]
      exact .copies t tail here below
    · rename_i found
      simp only [bind_eq_ok, pure_eq_ok] at done
      obtain ⟨u, wrote, rfl⟩ := done
      rw [writeHead_ok wrote]
      exact .commits t tail here (List.getElem?_eq_none_iff.1 found)
  case h_3 tail here =>
    split at done
    · rename_i b found
      simp only [bind_eq_ok, pure_eq_ok] at done
      obtain ⟨u, wrote, rfl⟩ := done
      obtain ⟨below, rfl⟩ := List.getElem?_eq_some_iff.1 found
      rw [installTrans_ok wrote]
      exact .installs t tail here below
    · rename_i found
      simp only [bind_eq_ok, pure_eq_ok] at done
      obtain ⟨u, wrote, rfl⟩ := done
      rw [writeHead_ok wrote]
      exact .clears t tail here (List.getElem?_eq_none_iff.1 found)
  case h_4 here =>
    cases done
    exact .closes t here
  case h_5 => cases done

theorem effect_of_recover {g : Geometry} {s s' : System T} (done : s.recover g = .ok s') :
    Effect g s .recover s' := by
  rw [recover] at done
  split at done
  case h_1 => cases done
  case h_2 tail down =>
    split at done
    · rename_i b found
      simp only [bind_eq_ok, pure_eq_ok] at done
      obtain ⟨u, wrote, rfl⟩ := done
      obtain ⟨below, rfl⟩ := List.getElem?_eq_some_iff.1 found
      rw [installTrans_ok wrote]
      exact .reinstalls tail down below
    · rename_i found
      simp only [bind_eq_ok, pure_eq_ok] at done
      obtain ⟨u, wrote, rfl⟩ := done
      rw [writeHead_ok wrote]
      exact .recovers tail down (List.getElem?_eq_none_iff.1 found)

variable [Fintype T]

/-- Every step is one of the listed ones. -/
theorem Step.effect {g : Geometry} {s s' : System T} {a : Label T} (taken : Step g s a s') :
    Effect g s a s' := by
  rw [Step] at taken
  cases a with
  | beginOp t =>
    rw [step] at taken
    split at taken
    · rename_i here
      cases taken
      rw [beginOp]
      split
      · exact .sleeps t here.1 here.2 (.inl ‹_›)
      · split
        · exact .sleeps t here.1 here.2 (.inr ‹_›)
        · exact .enters t here.1 here.2 (by simpa using ‹¬ s.committing = true›) (by omega)
    · cases taken
  | modify t b data =>
    rw [step] at taken
    split at taken
    · rename_i here
      simp only [modify, bind_eq_ok, discard_eq_ok, bread_eq_ok] at taken
      obtain ⟨-, ⟨data', small, -⟩, taken⟩ := taken
      split at taken
      · cases taken
      · split at taken
        · cases taken
        · cases taken
          exact .modifies t b data here.1 here.2 small (by omega) (by omega) (by omega)
    · cases taken
  | record t =>
    rw [step] at taken
    split at taken
    · rename_i b here
      rw [record] at taken
      split at taken
      · cases taken
        exact .absorbs t b here ‹_›
      · split at taken
        · cases taken
          exact .appends t b here ‹_› ‹_›
        · cases taken
    · cases taken
  | endOp t =>
    rw [step] at taken
    split at taken
    · rename_i here
      simp only [endOp] at taken
      split at taken
      · cases taken
      · rename_i free
        split at taken
        · cases taken
          exact .ends t here (by simpa using free) (by omega)
        · cases taken
          exact .leaves t here (by simpa using free) (by omega)
    · cases taken
  | commit t => exact effect_of_commit taken
  | kill t =>
    rw [step] at taken
    split at taken
    · cases taken
      exact .kills t ‹_›
    · cases taken
  | evict b =>
    rw [step] at taken
    split at taken
    · rename_i here
      cases taken
      exact .evicts b here.1 here.2
    · cases taken
  | recover => exact effect_of_recover taken
  | crash =>
    rw [step, boot] at taken
    split at taken
    · cases taken
    · split at taken
      · cases taken
        exact .reboots ‹_›
      · cases taken

end System

end Log

end SsuOs.Xv6Fs
