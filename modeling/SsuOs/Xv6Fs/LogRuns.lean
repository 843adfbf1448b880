import SsuOs.Xv6Fs.LogCrash
import SsuOs.Xv6Fs.LogWaits

/-!
# Runs of the log

The invariants of the log along whole runs, from a machine that starts with any disk whose log
can be recovered, through any interleaving of operations, commits, evictions and power cuts.
-/

namespace SsuOs.Xv6Fs.Log.System

variable {T : Type} [DecidableEq T] {g : Geometry} {disk : ℕ → Block}
  {s s' : System T} {l : List (Event (System T) (Label T))} {a : Label T}

/-- The log that is on the disk can be recovered: it lists different blocks of the file system, and
not more than it has room for. A new file system has an empty log. -/
structure Recoverable (g : Geometry) (disk : ℕ → Block) : Prop where
  inside : g.start + g.size ≤ fsSize
  fits : (head (disk g.start)).length < g.size
  few : (head (disk g.start)).length ≤ logSize
  nodup : (head (disk g.start)).Nodup
  home : ∀ b ∈ head (disk g.start), g.Home b ∧ b < fsSize

/-- The operations write blocks of the file system, and each of them logs at most `n`. -/
def LawfulRun (g : Geometry) (n : ℕ) (l : List (Event (System T) (Label T))) : Prop :=
  ∀ i (below : i < l.length), Lawful g n (l.take i) l[i]

instance (g : Geometry) (n : ℕ) (l : List (Event (System T) (Label T))) :
    Decidable (LawfulRun g n l) :=
  inferInstanceAs (Decidable (∀ i (below : i < l.length), Lawful g n (l.take i) l[i]))

theorem LawfulRun.of_append {n : ℕ} {l' : List (Event (System T) (Label T))}
    (lawful : LawfulRun g n (l ++ l')) : LawfulRun g n l := by
  intro i below
  have longer : i < (l ++ l').length := by
    rw [List.length_append]
    omega
  have same := lawful i longer
  rwa [List.take_append_of_le_length below.le, List.getElem_append_left below] at same

variable [Fintype T]

structure Invariant (g : Geometry) (disk : ℕ → Block) (l : List (Event (System T) (Label T)))
    (s : System T) : Prop where
  control : Control s
  reserved : Reserved g l s
  sound : Sound g s (contents (recovered g disk) l)

theorem Invariant.start (ready : Recoverable g disk) :
    Invariant g disk [] (booted g disk : System T) := by
  constructor
  · exact control_booted disk
  · exact reserved_of_idle (fun _ => rfl) ready.few ready.fits ready.nodup ready.home
  · exact sound_booted (c := ⟨recovered g disk, recovered g disk⟩) fun _ _ => rfl

theorem Invariant.keeps (inv : Invariant g disk l s) (taken : Step g s a s')
    (lawful : Lawful g g.share l ⟨s, a, s'⟩) : Invariant g disk (l ++ [⟨s, a, s'⟩]) s' := by
  have effect := taken.effect
  constructor
  · exact inv.control.keeps effect
  · exact inv.reserved.keeps inv.control lawful inv.sound.header effect
  · rw [contents, List.foldl_append]
    exact inv.sound.keeps inv.control inv.reserved effect

theorem invariant_of_run (ready : Recoverable g disk) (run : Run (Step g) (booted g disk) l s)
    (lawful : LawfulRun g g.share l) : Invariant g disk l s :=
  run.history_of_take (Invariant.start ready)
    (fun _ _ _ _ inv taken meets => inv.keeps taken meets) lawful

theorem recoverable_new : Recoverable newGeometry newDisk := by
  have empty : head (newDisk newGeometry.start) = [] := by decide +kernel
  constructor
  · decide
  · rw [empty]
    decide
  · rw [empty]
    decide
  · rw [empty]
    exact List.nodup_nil
  · simp [empty]

/-! ## Contents -/

theorem Invariant.stable_of_settled (inv : Invariant g disk l s) (up : s.booting = none)
    (closed : s.outstanding = 0) (free : s.committing = false) {b : ℕ} (home : g.Home b) :
    (contents (recovered g disk) l).stable b = (contents (recovered g disk) l).current b := by
  have nobody : s.active = ∅ := by
    have := inv.control.opened
    rw [closed] at this
    exact Finset.card_eq_zero.1 (by omega)
  have empty := inv.control.settled up free nobody
  have clean : s.cache b = s.disk b := by
    apply inv.sound.clean
    · by_contra marked
      simpa [empty] using inv.sound.dirty b (by simpa using marked)
    · rintro ⟨t, here⟩
      have inside : t ∈ s.active := by simp [here, Point.active]
      simp [nobody] at inside
  have erased : head (s.disk g.start) = [] := by
    apply inv.sound.idle up
    intro t tail here
    simpa [here, Point.commits] using inv.control.nobody free t
  rw [← inv.sound.stable b home, ← inv.sound.seen up b home, clean, recovered, erased, redo_nil]

/-- Whatever power cuts there were, and however operations and commits were interleaved, the file
system sees what the history says; a power cut now would take it back to what the history says is
stable; and nothing would be lost when no operation is open and no commit under way. -/
theorem contents_of_run (ready : Recoverable g disk) (run : Run (Step g) (booted g disk) l s)
    (lawful : LawfulRun g g.share l) {b : ℕ} (home : g.Home b) :
    (s.booting = none → s.cache b = (contents (recovered g disk) l).current b) ∧
      recovered g s.disk b = (contents (recovered g disk) l).stable b ∧
      (s.booting = none → s.outstanding = 0 → s.committing = false →
        recovered g s.disk b = s.cache b) := by
  have inv := invariant_of_run ready run lawful
  refine ⟨fun up => inv.sound.seen up b home, inv.sound.stable b home, ?_⟩
  intro up closed free
  rw [inv.sound.stable b home, inv.stable_of_settled up closed free home,
    inv.sound.seen up b home]

theorem contents_of_run_new :
    ∃ l s, Run (Step newGeometry) (booted newGeometry newDisk : System Bool) l s ∧
      LawfulRun newGeometry newGeometry.share l ∧ s.booting = none ∧ newGeometry.Home 59 ∧
      s.cache 59 = (contents (recovered newGeometry newDisk) l).current 59 := by
  obtain ⟨l, s, run, lawful, up⟩ := exists_run newGeometry (booted newGeometry newDisk)
    twoOperations (P := fun r => LawfulRun newGeometry newGeometry.share r.1 ∧ r.2.booting = none)
    (by decide +kernel)
  have home : newGeometry.Home 59 := by decide
  exact ⟨l, s, run, lawful, up, home, (contents_of_run recoverable_new run lawful home).1 up⟩

/-- What is stable is what was there at first, or what the file system contained at a moment when
no operation was open. -/
theorem stable_cases (run : Run (Step g) (booted g disk) l s) (d : ℕ → Block) :
    (contents d l).stable = d ∨ ∃ l' x, l' <+: l ∧ Run (Step g) (booted g disk) l' x ∧
      (x.booting = none ∧ ∀ t, (x.proc t).active = false) ∧
      (contents d l).stable = (contents d l').current := by
  induction run with
  | nil => exact .inl rfl
  | @snoc l x y a earlier taken ih =>
    have last : contents d (l ++ [⟨x, a, y⟩]) = (contents d l).next ⟨x, a, y⟩ := by
      rw [contents, List.foldl_append]
      rfl
    rw [last]
    rcases stable_next (contents d l) ⟨x, a, y⟩ with same | ⟨now, point⟩
    · rw [same]
      apply ih.imp_right
      rintro ⟨l', z, before, run', idle, equal⟩
      exact ⟨l', z, before.trans (List.prefix_append ..), run', idle, equal⟩
    · exact .inr ⟨l, x, List.prefix_append .., earlier,
        (control_of_run earlier).commitPoint point, now⟩

/-- A power cut never leaves a part of an operation: recovery gives back what was there at first, or
what every process saw at an earlier moment when no operation was open. -/
theorem recovered_whole (ready : Recoverable g disk) (run : Run (Step g) (booted g disk) l s)
    (lawful : LawfulRun g g.share l) :
    (∀ b, g.Home b → recovered g s.disk b = recovered g disk b) ∨
      ∃ l' x, l' <+: l ∧ Run (Step g) (booted g disk) l' x ∧
        (x.booting = none ∧ ∀ t, (x.proc t).active = false) ∧
        ∀ b, g.Home b → recovered g s.disk b = x.cache b := by
  have inv := invariant_of_run ready run lawful
  rcases stable_cases run (recovered g disk) with first | ⟨l', x, before, run', idle, equal⟩
  · left
    intro b home
    rw [inv.sound.stable b home, first]
  · right
    refine ⟨l', x, before, run', idle, fun b home => ?_⟩
    obtain ⟨rest, rfl⟩ := before
    have then' := invariant_of_run ready run' lawful.of_append
    rw [inv.sound.stable b home, equal, then'.sound.seen idle.1 b home]

theorem recovered_whole_new :
    ∃ l s, Run (Step newGeometry) (booted newGeometry newDisk : System Bool) l s ∧
      LawfulRun newGeometry newGeometry.share l ∧
      recovered newGeometry s.disk 59 ≠ recovered newGeometry newDisk 59 ∧
      ((∀ b, newGeometry.Home b →
          recovered newGeometry s.disk b = recovered newGeometry newDisk b) ∨
        ∃ l' x, l' <+: l ∧ Run (Step newGeometry) (booted newGeometry newDisk) l' x ∧
          (x.booting = none ∧ ∀ t, (x.proc t).active = false) ∧
          ∀ b, newGeometry.Home b → recovered newGeometry s.disk b = x.cache b) := by
  obtain ⟨l, s, run, lawful, changed⟩ := exists_run newGeometry (booted newGeometry newDisk)
    twoOperations (P := fun r => LawfulRun newGeometry newGeometry.share r.1 ∧
      recovered newGeometry r.2.disk 59 ≠ recovered newGeometry newDisk 59) (by decide +kernel)
  exact ⟨l, s, run, lawful, changed, recovered_whole recoverable_new run lawful⟩

/-! ## Space -/

/-- All blocks of the log are on the disk. -/
theorem Invariant.inside (ready : Recoverable g disk) (inv : Invariant g disk l s) :
    g.start + s.lh.length < fsSize := by
  have inside := ready.inside
  have fits := inv.reserved.fits
  omega

theorem Invariant.small (inv : Invariant g disk l s) : ∀ b ∈ s.lh, b < fsSize :=
  fun b listed => (inv.reserved.home b listed).2

/-- A lawful step never stops the machine. -/
theorem Invariant.no_panic (ready : Recoverable g disk) (inv : Invariant g disk l s)
    (lawful : Lawful g g.share l ⟨s, a, s⟩) (p : Panic) : s.step g a ≠ .error (.panic p) := by
  cases a with
  | beginOp t =>
    rw [step]
    split <;> rintro ⟨⟩
  | modify t b data =>
    rw [step]
    split
    · rename_i here
      have inside : (s.proc t).active = true := by simp [here.1, Point.active]
      have room := inv.reserved.room inside lawful.2
      have opened : 1 ≤ s.outstanding := by
        rw [inv.control.opened]
        exact_mod_cast Finset.card_pos.2 ⟨t, mem_active.2 inside⟩
      rw [modify, bread_ok lawful.1.2, if_neg (by omega), if_neg (by omega)]
      rintro ⟨⟩
    · rintro ⟨⟩
  | record t =>
    rw [step]
    split
    · rename_i b here
      have inside : (s.proc t).active = true := by simp [here, Point.active]
      have room := inv.reserved.room inside (inv.reserved.pending t b here).2
      rw [record, if_pos room.1]
      split <;> rintro ⟨⟩
    · rintro ⟨⟩
  | endOp t =>
    rw [step]
    split
    · rename_i here
      have inside : (s.proc t).active = true := by simp [here, Point.active]
      have free : s.committing = false := by
        by_contra busy
        have empty := inv.control.exclusive (by simpa using busy)
        rw [← mem_active, empty] at inside
        simp at inside
      simp only [endOp, free]
      split
      · cases ‹false = true›
      · split <;> rintro ⟨⟩
    · rintro ⟨⟩
  | commit t =>
    by_cases commits : (s.proc t).commits = true
    · obtain ⟨x, done⟩ := commit_ok (inv.inside ready) inv.small commits
      rw [step, done]
      rintro ⟨⟩
    · rw [step, commit]
      cases place : s.proc t <;> simp_all [Point.commits]
  | kill t =>
    rw [step]
    split <;> rintro ⟨⟩
  | evict b =>
    rw [step]
    split <;> rintro ⟨⟩
  | recover =>
    by_cases down : s.booting = none
    · rw [step, recover, down]
      rintro ⟨⟩
    · obtain ⟨x, done⟩ := recover_ok (inv.inside ready) inv.small down
      rw [step, done]
      rintro ⟨⟩
  | crash =>
    have inside := ready.inside
    have fits := ready.fits
    have few : (head (s.disk g.start)).length ≤ logSize := by
      rcases inv.sound.header with same | empty
      · rw [same]
        exact (Nat.le_add_right ..).trans inv.reserved.space
      · simp [empty]
    rw [step, boot, if_neg (by omega), if_pos few]
    rintro ⟨⟩

/-- Operations that keep to their share never stop the machine: what is logged and what the open
operations may still log fits in the header and in the log on the disk, no check of `log.c` fails and
no array is overrun. -/
theorem no_panic_of_run (ready : Recoverable g disk) (run : Run (Step g) (booted g disk) l s)
    (lawful : LawfulRun g g.share l) (next : Lawful g g.share l ⟨s, a, s⟩) :
    (s.lh.length + reserve l s ≤ logSize ∧ s.lh.length < g.size) ∧
      ∀ p, s.step g a ≠ .error (.panic p) := by
  have inv := invariant_of_run ready run lawful
  exact ⟨⟨inv.reserved.space, inv.reserved.fits⟩, inv.no_panic ready next⟩

theorem no_panic_of_run_logWrite :
    (∃ l s, Run (Step newGeometry) (booted newGeometry newDisk : System Bool) l s ∧
      LawfulRun newGeometry newGeometry.share l ∧ s.lh = [59] ∧ s.proc true = .inside ∧
      (s.lh.length + reserve l s ≤ logSize ∧ s.lh.length < newGeometry.size) ∧
      ∀ p, s.step newGeometry (.modify true 70 fun _ => 2) ≠ .error (.panic p)) ∧
    ∃ l s, Run (Step newGeometry) (booted newGeometry newDisk : System Bool) l s ∧
      LawfulRun newGeometry newGeometry.share l ∧ s.lh = [59] ∧ s.proc true = .recording 70 ∧
      (s.lh.length + reserve l s ≤ logSize ∧ s.lh.length < newGeometry.size) ∧
      ∀ p, s.step newGeometry (.record true) ≠ .error (.panic p) := by
  obtain ⟨l, s, run, lawful, listed, here, next⟩ := exists_run newGeometry
    (booted newGeometry newDisk) (twoOperations.take 4)
    (P := fun r => LawfulRun newGeometry newGeometry.share r.1 ∧ r.2.lh = [59] ∧
      r.2.proc true = .inside ∧
      Lawful newGeometry newGeometry.share r.1 ⟨r.2, .modify true 70 fun _ => 2, r.2⟩)
    (by decide +kernel)
  obtain ⟨l', s', run', lawful', listed', here'⟩ := exists_run newGeometry
    (booted newGeometry newDisk) (twoOperations.take 5)
    (P := fun r => LawfulRun newGeometry newGeometry.share r.1 ∧ r.2.lh = [59] ∧
      r.2.proc true = .recording 70) (by decide +kernel)
  exact ⟨⟨l, s, run, lawful, listed, here, no_panic_of_run recoverable_new run lawful next⟩,
    l', s', run', lawful', listed', here',
    no_panic_of_run recoverable_new run' lawful' (a := .record true) trivial⟩

/-! ## The share of the log -/

/-- An operation changes block `b`. -/
def Touches (b : ℕ) (e : Event (System T) (Label T)) : Prop := ∃ t data, e.label = .modify t b data

instance (b : ℕ) (e : Event (System T) (Label T)) : Decidable (Touches b e) :=
  match e with
  | ⟨_, .modify t c data, _⟩ =>
    decidable_of_iff (c = b)
      ⟨fun same => ⟨t, data, same ▸ rfl⟩, by rintro ⟨_, _, same⟩; cases same; rfl⟩
  | ⟨_, .beginOp _, _⟩ | ⟨_, .record _, _⟩ | ⟨_, .endOp _, _⟩ | ⟨_, .commit _, _⟩
  | ⟨_, .kill _, _⟩ | ⟨_, .evict _, _⟩ | ⟨_, .recover, _⟩ | ⟨_, .crash, _⟩ =>
    isFalse (by simp [Touches])

/-- Process `t` logs `n` blocks from `b` on. -/
def logBlocks (t : T) (b n : ℕ) : List (Label T) :=
  (List.range n).flatMap fun k => [.modify t (b + k) fun _ => 1, .record t]

/-- Three operations log ten, nine and nine blocks. -/
def twentyEight (t u v : T) : List (Label T) :=
  [.recover, .beginOp t, .beginOp u, .beginOp v] ++ logBlocks t 100 10 ++ logBlocks u 110 9 ++
    logBlocks v 120 9

/-- Two of them are past the check of `log_write` when either logs its tenth block. The power fails
when `write_log` has copied all blocks. -/
def twoPastTheCheck (t u v : T) : List (Label T) :=
  twentyEight t u v ++ [.modify u 119 fun _ => 1, .modify v 129 fun _ => 1, .record u, .record v,
    .endOp t, .endOp u, .endOp v] ++ List.replicate 31 (.commit v) ++ [.crash, .recover]

example : newGeometry.share = 9 := by decide

/-! ## Recovery ends -/

/-- The steps of `recover_from_log` that are left. -/
def recoveryLeft (s : System T) : ℕ :=
  match s.booting with
  | some tail => s.lh.length - tail + 1
  | none => 0

theorem Invariant.recovers (ready : Recoverable g disk) (inv : Invariant g disk l s) :
    ∃ l' x, Run (Step g) s l' x ∧ (∀ e ∈ l', e.label = .recover) ∧
      Invariant g disk (l ++ l') x ∧ x.booting = none := by
  apply Run.exists_of_measure (I := Invariant g disk) (C := (· = .recover)) recoveryLeft _ inv
  intro l x inv down
  obtain ⟨y, done⟩ := recover_ok (inv.inside ready) inv.small down
  have taken : Step g x .recover y := done
  refine ⟨.recover, y, rfl, taken, inv.keeps taken trivial, ?_⟩
  cases taken.effect with
  | reinstalls tail down below =>
    simp only [recoveryLeft, down, bwrite_lh]
    omega
  | recovers tail down all =>
    simp [recoveryLeft, down]

/-- When the power fails, at any point of a run of operations that keep to their share of the log,
the machine starts again and recovery, if it is not interrupted, ends with the file system in its
stable contents. -/
theorem recovers_after_crash (ready : Recoverable g disk) (run : Run (Step g) (booted g disk) l s)
    (lawful : LawfulRun g g.share l) :
    ∃ l' x, Run (Step g) s (⟨s, .crash, booted g s.disk⟩ :: l') x ∧
      (∀ e ∈ l', e.label = .recover) ∧ x.booting = none ∧
      ∀ b, g.Home b → x.cache b = (contents (recovered g disk) l).stable b := by
  have inv := invariant_of_run ready run lawful
  have crash : Step g s .crash (booted g s.disk) := by
    have stops := inv.no_panic ready (a := .crash) trivial
    rw [step, boot] at stops
    rw [Step, step, boot]
    split
    · exact absurd (if_pos ‹_›) (stops .incorrectBlockno)
    · rename_i inside
      split
      · rfl
      · rename_i many
        exact absurd (by rw [if_neg inside, if_neg many]) (stops .overrun)
  have down := inv.keeps crash trivial
  obtain ⟨l', x, recovery, kind, up, ended⟩ := down.recovers ready
  refine ⟨l', x, (Run.single crash).append recovery, kind, ended, fun b home => ?_⟩
  rw [up.sound.seen ended b home, contents_recover kind, contents, List.foldl_append]
  rfl

theorem recovers_after_crash_new :
    ∃ l s, Run (Step newGeometry) (booted newGeometry newDisk : System Bool) l s ∧
      LawfulRun newGeometry newGeometry.share l ∧
      ∃ l' x, Run (Step newGeometry) s (⟨s, .crash, booted newGeometry s.disk⟩ :: l') x ∧
        (∀ e ∈ l', e.label = .recover) ∧ x.booting = none ∧
        ∀ b, newGeometry.Home b →
          x.cache b = (contents (recovered newGeometry newDisk) l).stable b := by
  obtain ⟨l, s, run, lawful⟩ := exists_run newGeometry (booted newGeometry newDisk)
    twoOperations (P := fun r => LawfulRun newGeometry newGeometry.share r.1) (by decide +kernel)
  exact ⟨l, s, run, lawful, recovers_after_crash recoverable_new run lawful⟩

end SsuOs.Xv6Fs.Log.System
