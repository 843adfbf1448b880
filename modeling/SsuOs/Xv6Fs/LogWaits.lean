import SsuOs.Base.Progress
import SsuOs.Xv6Fs.LogControl

/-!
# Waiting for the log

Commits end. The checks that the code makes itself are enough for that: `log_write` refuses a block
that the disk does not have and never lists more than `LOGSIZE` blocks, so that all blocks of a
commit can be read. A process that sleeps in `begin_op` waits for an operation to end or for such a
commit.
-/

namespace SsuOs.Xv6Fs.Log.System

variable {T : Type} {g : Geometry} {disk : ℕ → Block} {s s' : System T} {a : Label T} {t : T}

/-! ## What the code checks -/

/-- What is in the log and what is on its way into it. -/
structure Bounded (s : System T) : Prop where
  few : s.booting = none → s.lh.length ≤ logSize
  small : s.booting = none → ∀ b ∈ s.lh, b < fsSize
  pending : ∀ t b, s.proc t = .recording b → b < fsSize

/-- A step that lists nothing new. -/
theorem Bounded.moves (bounded : Bounded s)
    (lh : s'.booting = none → s'.lh = [] ∨ s.booting = none ∧ s'.lh = s.lh)
    (place : ∀ t b, s'.proc t = .recording b → s.proc t = .recording b ∨ b < fsSize) :
    Bounded s' := by
  constructor
  · intro up
    rcases lh up with empty | ⟨was, same⟩
    · simp [empty]
    · exact same ▸ bounded.few was
  · intro up
    rcases lh up with empty | ⟨was, same⟩
    · simp [empty]
    · exact same ▸ bounded.small was
  · intro t b here
    exact (place t b here).elim (bounded.pending t b) id

theorem bread_ok {b : ℕ} (small : b < fsSize) : s.bread b = .ok (s.cache b) := if_pos small

theorem recover_ok (inside : g.start + s.lh.length < fsSize) (small : ∀ b ∈ s.lh, b < fsSize)
    (down : s.booting ≠ none) : ∃ x, s.recover g = .ok x := by
  have start : g.start < fsSize := by omega
  rw [recover]
  split
  · exact absurd ‹_› down
  · split
    · rename_i tail here _ b found
      obtain ⟨below, rfl⟩ := List.getElem?_eq_some_iff.1 found
      have copy : g.start + tail + 1 < fsSize := by omega
      rw [installTrans, bread_ok copy, bread_ok (small _ (List.getElem_mem below))]
      exact ⟨_, rfl⟩
    · rw [writeHead, bread_ok (s := { s with lh := [] }) start]
      exact ⟨_, rfl⟩

section
variable [DecidableEq T]

theorem Bounded.keeps (bounded : Bounded s) (effect : Effect g s a s') : Bounded s' := by
  have elsewhere {t : T} {p : Point} (moved : ∀ b, p = .recording b → b < fsSize) (u : T) (b : ℕ)
      (here : Function.update s.proc t p u = .recording b) :
      s.proc u = .recording b ∨ b < fsSize := by
    rw [Function.update_apply] at here
    split at here
    · exact .inr (moved b here)
    · exact .inl here
  have woken {t : T} (u : T) (b : ℕ)
      (here : Function.update (fun v => if s.proc v = .asleep then .woken else s.proc v) t
        .outside u = .recording b) : s.proc u = .recording b ∨ b < fsSize := by
    rw [Function.update_apply] at here
    split at here
    · cases here
    · split at here
      · cases here
      · exact .inl here
  cases effect with
  | sleeps | enters | absorbs | ends | starts | skips | copies | commits | installs | kills =>
    exact bounded.moves (fun up => .inr ⟨up, rfl⟩) (elsewhere (by simp))
  | modifies t b data here unlocked small few room opened =>
    refine bounded.moves (fun up => .inr ⟨up, rfl⟩) (elsewhere ?_)
    rintro c ⟨⟩
    exact small
  | appends t b here new few =>
    constructor
    · intro up
      simpa [Nat.succ_le_iff] using few
    · intro up c listed
      rcases List.mem_append.1 listed with earlier | last
      · exact bounded.small up c earlier
      · rw [List.mem_singleton.1 last]
        exact bounded.pending t b here
    · intro u c recording
      exact (elsewhere (by simp) u c recording).elim (bounded.pending u c) id
  | leaves | closes => exact bounded.moves (fun up => .inr ⟨up, rfl⟩) woken
  | clears => exact bounded.moves (fun _ => .inl rfl) (elsewhere (by simp))
  | evicts => exact bounded.moves (fun up => .inr ⟨up, rfl⟩) fun _ _ => .inl
  | reinstalls | recovers => exact bounded.moves (by simp) fun _ _ => .inl
  | reboots => exact bounded.moves (by simp [booted]) (by simp [booted])

/-- The next step of a commit whose blocks are all on the disk. -/
theorem commit_ok (inside : g.start + s.lh.length < fsSize) (small : ∀ b ∈ s.lh, b < fsSize)
    (commits : (s.proc t).commits = true) : ∃ x, s.commit g t = .ok x := by
  have start : g.start < fsSize := by omega
  have copy {tail : ℕ} (below : tail < s.lh.length) : g.start + tail + 1 < fsSize := by omega
  rw [commit]
  split
  · exact ⟨_, rfl⟩
  · split
    · rename_i tail here _ b found
      obtain ⟨below, rfl⟩ := List.getElem?_eq_some_iff.1 found
      rw [writeLog, bread_ok (copy below), bread_ok (small _ (List.getElem_mem below))]
      exact ⟨_, rfl⟩
    · rw [writeHead, bread_ok start]
      exact ⟨_, rfl⟩
  · split
    · rename_i tail here _ b found
      obtain ⟨below, rfl⟩ := List.getElem?_eq_some_iff.1 found
      rw [installTrans, bread_ok (copy below), bread_ok (small _ (List.getElem_mem below))]
      exact ⟨_, rfl⟩
    · rw [writeHead, bread_ok (s := { s with lh := [] }) start]
      exact ⟨_, rfl⟩
  · exact ⟨_, rfl⟩
  · rename_i ending copying installing closing
    cases place : s.proc t <;> simp_all [Point.commits]

end

/-! ## Commits end -/

/-- The steps of `end_op` that are left to the process that commits. -/
def commitLeft (t : T) (s : System T) : ℕ :=
  match s.proc t with
  | .ending => 2 * s.lh.length + 5
  | .copying tail => (s.lh.length - tail) + s.lh.length + 4
  | .installing tail => (s.lh.length - tail) + 2
  | .closing => 1
  | _ => 0

/-- The commit is over and nobody sleeps in `begin_op` any more. -/
def Released (s : System T) : Prop := s.committing = false ∧ ∀ u, s.proc u ≠ .asleep

variable [DecidableEq T] [Fintype T] {l : List (Event (System T) (Label T))}

theorem commitLeft_lt (taken : Step g s (.commit t) s') : commitLeft t s' < commitLeft t s := by
  cases taken.effect <;> simp_all [commitLeft] <;> omega

theorem control_of_run (run : Run (Step g) (booted g disk) l s) : Control s :=
  run.invariant (control_booted disk) fun _ _ _ control taken => control.keeps taken.effect

theorem bounded_of_run (run : Run (Step g) (booted g disk) l s) : Bounded s := by
  refine run.invariant ?_ fun _ _ _ bounded taken => bounded.keeps taken.effect
  constructor <;> simp [booted]

theorem Bounded.commits (room : g.start + logSize < fsSize) (control : Control s)
    (bounded : Bounded s) (commits : (s.proc t).commits = true) :
    ∃ l' x, Run (Step g) s l' x ∧ (∀ e ∈ l', e.label = .commit t) ∧ x.Released := by
  have next (l : List (Event (System T) (Label T))) (x : System T)
      (inv : (Control x ∧ Bounded x) ∧ ((x.proc t).commits = true ∨ x.Released))
      (busy : ¬ x.Released) : ∃ a y, a = .commit t ∧ Step g x a y ∧
        ((Control y ∧ Bounded y) ∧ ((y.proc t).commits = true ∨ y.Released)) ∧
        commitLeft t y < commitLeft t x := by
    obtain ⟨⟨control, bounded⟩, stage⟩ := inv
    have commits := stage.resolve_right busy
    have up : x.booting = none := by
      apply control.up (t := t) rfl
      intro outside
      simp [outside, Point.commits] at commits
    have few := bounded.few up
    obtain ⟨y, done⟩ := commit_ok (g := g) (by omega) (bounded.small up) commits
    have taken : Step g x (.commit t) y := done
    refine ⟨.commit t, y, rfl, taken,
      ⟨⟨control.keeps taken.effect, bounded.keeps taken.effect⟩, ?_⟩, commitLeft_lt taken⟩
    cases taken.effect with
    | closes _ here =>
      right
      refine ⟨rfl, fun u => ?_⟩
      simp only [goto_proc, wakeup_proc, Function.update_apply]
      grind
    | _ => exact .inl (by simp [Point.commits])
  obtain ⟨l', x, run, kind, -, done⟩ := Run.exists_of_measure
    (I := fun _ x => (Control x ∧ Bounded x) ∧ ((x.proc t).commits = true ∨ x.Released))
    (commitLeft t) next (l := []) ⟨⟨control, bounded⟩, .inl commits⟩
  exact ⟨l', x, run, kind, done⟩

/-! ## A new file system -/

theorem exists_run (g : Geometry) (s : System T) (labels : List (Label T))
    {P : List (Event (System T) (Label T)) × System T → Prop} [DecidablePred P]
    (meets : (replay (fun x a => (x.step g a).toOption) s labels).any fun r => decide (P r)) :
    ∃ l t, Run (Step g) s l t ∧ P (l, t) :=
  Fallible.exists_run (fun x a => step g x a) s labels meets

/-- The blocks that `mkfs` reserves for the log. -/
def newGeometry : Geometry := ⟨2, logSize⟩

/-- `mkfs` leaves them zero. -/
def newDisk : ℕ → Block := fun _ _ => 0

/-- An operation that changes two blocks and, while it commits, another one that has to wait. -/
def twoOperations : List (Label Bool) :=
  [.recover, .beginOp true, .modify true 59 fun _ => 1, .record true, .modify true 70 fun _ => 2,
    .record true, .endOp true, .commit true, .commit true, .commit true, .beginOp false,
    .commit true]

/-! ## Sleepers -/

end SsuOs.Xv6Fs.Log.System
