import Mathlib.Data.Fintype.Card
import SsuOs.Xv6Fs.Log

/-!
# Operations and commits

Who is inside a file system operation and who commits. A commit has the log to itself: it starts
when the last operation ends and no operation begins before it is over, so that it never writes half
an operation. A process that sleeps in `begin_op` always has somebody to wake it.
-/

namespace SsuOs.Xv6Fs.Log.System

variable {T : Type} [Fintype T] {g : Geometry} {s s' : System T} {a : Label T}

/-- The processes between `begin_op` and `end_op`. -/
def active (s : System T) : Finset T := Finset.univ.filter fun t => (s.proc t).active = true

@[simp] theorem mem_active {t : T} : t ∈ s.active ↔ (s.proc t).active = true := by
  simp [active]

/-- Only the places of the processes matter. -/
theorem active_congr (same : ∀ t, (s'.proc t).active = (s.proc t).active) :
    s'.active = s.active := by
  ext t
  rw [mem_active, mem_active, same]

structure Control (s : System T) : Prop where
  opened : s.outstanding = s.active.card
  committer : s.committing = true ↔ ∃ t, (s.proc t).commits = true
  alone : ∀ t u, (s.proc t).commits = true → (s.proc u).commits = true → t = u
  exclusive : s.committing = true → s.active = ∅
  settled : s.booting = none → s.committing = false → s.active = ∅ → s.lh = []
  erased : ∀ t, s.proc t = .closing → s.lh = []
  awaited : ∀ t, s.proc t = .asleep → s.committing = true ∨ s.active ≠ ∅
  down : s.booting ≠ none → s.committing = false ∧ ∀ t, s.proc t = .outside

theorem Control.nobody (control : Control s) (free : s.committing = false) (t : T) :
    (s.proc t).commits = false := by
  by_contra commits
  have busy := control.committer.2 ⟨t, by simpa using commits⟩
  simp [free] at busy

theorem Control.up (control : Control s) {t : T} {p : Point} (here : s.proc t = p)
    (busy : p ≠ .outside) : s.booting = none := by
  by_contra starting
  exact busy (here.symm.trans ((control.down starting).2 t))

theorem control_booted (disk : ℕ → Block) : Control (booted g disk : System T) := by
  constructor <;> simp [booted, active, Point.active, Point.commits]

variable [DecidableEq T]

/-- A step that moves one process between places of the same kind. -/
theorem Control.moves {t : T} {p q : Point} (control : Control s) (up : s.booting = none)
    (here : s.proc t = p) (moved : s'.proc = Function.update s.proc t q)
    (active : q.active = p.active) (commits : q.commits = p.commits)
    (outstanding : s'.outstanding = s.outstanding)
    (committing : s'.committing = s.committing) (booting : s'.booting = s.booting)
    (lh : s.lh = [] → s'.lh = [] ∨ p.active = true) (erased : q = .closing → s'.lh = [])
    (awaited : q = .asleep → s.committing = true ∨ s.active ≠ ∅) : Control s' := by
  have place : ∀ u, s'.proc u = if u = t then q else s.proc u := fun u => by
    rw [moved, Function.update_apply]
  have kind : ∀ u, (s'.proc u).active = (s.proc u).active := by grind
  have stage : ∀ u, (s'.proc u).commits = (s.proc u).commits := by grind
  have same := active_congr kind
  have idle (empty : s.active = ∅) : p.active ≠ true := by
    rw [← here, Ne, ← mem_active, empty]
    exact Finset.notMem_empty t
  constructor
  · rw [outstanding, same, control.opened]
  · simp only [committing, stage, control.committer]
  · simpa only [stage] using control.alone
  · rw [committing, same]
    exact control.exclusive
  · rw [committing, same]
    intro _ free empty
    exact (lh (control.settled up free empty)).resolve_right (idle empty)
  · intro u closing
    by_cases mover : u = t
    · exact erased (by grind)
    · have stays : s.proc u = .closing := by grind
      have busy := control.committer.2 ⟨u, by simp [stays, Point.commits]⟩
      exact (lh (control.erased u stays)).resolve_right (idle (control.exclusive busy))
  · rw [committing, same]
    grind [control.awaited]
  · rw [booting]
    exact fun starting => absurd up starting

theorem Control.enters {t : T} (control : Control s) (up : s.booting = none)
    (here : s.proc t = .outside ∨ s.proc t = .woken) (free : s.committing = false) :
    Control ({ s with outstanding := s.outstanding + 1 }.goto t .inside) := by
  have was : t ∉ s.active := by rw [mem_active]; grind [Point.active]
  have now : ({ s with outstanding := s.outstanding + 1 }.goto t .inside).active =
      insert t s.active := by
    ext u
    by_cases same : u = t
    · simp [goto, same, Point.active]
    · simp [goto, same]
  have nobody := control.nobody free
  constructor
  · rw [now, Finset.card_insert_of_notMem was]
    simp [goto, control.opened]
  · simp only [goto, free, Bool.false_eq_true, false_iff, not_exists]
    grind [Point.commits]
  · simp only [goto]
    grind [Point.commits]
  · simp [goto, free]
  · rw [now]
    simp
  · simp only [goto]
    grind [Point.commits]
  · rw [now]
    simp
  · simp [goto, up]

theorem Control.leaves {t : T} (control : Control s) (here : s.proc t = .inside)
    (free : s.committing = false) (others : s.outstanding ≠ 1) :
    Control ({ s with outstanding := s.outstanding - 1 }.wakeup.goto t .outside) := by
  have was : t ∈ s.active := by simp [here, Point.active]
  have now : ({ s with outstanding := s.outstanding - 1 }.wakeup.goto t .outside).active =
      s.active.erase t := by
    ext u
    by_cases same : u = t
    · simp [goto, same, Point.active]
    · simp only [goto, wakeup, mem_active, Finset.mem_erase]
      grind [Point.active]
  have card := Finset.card_erase_add_one was
  have nobody := control.nobody free
  have left : s.active.erase t ≠ ∅ := by
    intro empty
    rw [empty, Finset.card_empty] at card
    apply others
    rw [control.opened, ← card]
    rfl
  have up := control.up here (by simp)
  constructor
  · rw [now]
    simp only [goto, wakeup, control.opened]
    omega
  · simp only [goto, wakeup, free, Bool.false_eq_true, false_iff, not_exists]
    grind [Point.commits]
  · simp only [goto, wakeup]
    grind [Point.commits]
  · simp [goto, wakeup, free]
  · rw [now]
    exact fun _ _ empty => absurd empty left
  · simp only [goto, wakeup]
    grind [Point.commits]
  · rw [now]
    exact fun _ _ => .inr left
  · simp [goto, wakeup, up]

theorem Control.ends {t : T} (control : Control s) (here : s.proc t = .inside)
    (free : s.committing = false) (last : s.outstanding = 1) :
    Control ({ s with outstanding := s.outstanding - 1, committing := true }.goto t .ending) := by
  have was : t ∈ s.active := by simp [here, Point.active]
  have only : s.active = {t} := by
    have one := control.opened.symm.trans last
    apply Finset.eq_singleton_iff_unique_mem.2 ⟨was, fun u mem => ?_⟩
    exact Finset.card_le_one.1 (by omega) u mem t was
  have now : ({ s with outstanding := s.outstanding - 1, committing := true }.goto t
      .ending).active = ∅ := by
    ext u
    have other := Finset.ext_iff.1 only u
    rw [mem_active, Finset.mem_singleton] at other
    simp only [goto, mem_active, Finset.notMem_empty, iff_false]
    grind [Point.active]
  have nobody := control.nobody free
  have up := control.up here (by simp)
  constructor
  · rw [now]
    simp [goto, last]
  · simp only [goto, true_iff]
    exact ⟨t, by simp [Point.commits]⟩
  · simp only [goto]
    grind
  · exact fun _ => now
  · simp [goto]
  · simp only [goto]
    grind [Point.commits]
  · simp [goto]
  · simp [goto, up]

theorem Control.closes {t : T} (control : Control s) (here : s.proc t = .closing) :
    Control ({ s with committing := false }.wakeup.goto t .outside) := by
  have busy : s.committing = true := control.committer.2 ⟨t, by simp [here, Point.commits]⟩
  have others : ∀ u, u ≠ t → (s.proc u).commits = false := by
    intro u other
    by_contra commits
    apply other
    exact control.alone u t (by simpa using commits) (by simp [here, Point.commits])
  have empty := control.exclusive busy
  have now : ({ s with committing := false }.wakeup.goto t .outside).active = ∅ := by
    ext u
    have idle := Finset.ext_iff.1 empty u
    simp only [mem_active, goto, wakeup] at idle ⊢
    grind [Point.active]
  have up := control.up here (by simp)
  constructor
  · rw [now]
    simp [goto, wakeup, control.opened, empty]
  · simp only [goto, wakeup, Bool.false_eq_true, false_iff, not_exists]
    grind [Point.commits]
  · simp only [goto, wakeup]
    grind [Point.commits]
  · simp [goto, wakeup]
  · exact fun _ _ _ => control.erased t here
  · simp only [goto, wakeup]
    grind [Point.commits]
  · simp only [goto, wakeup]
    grind
  · simp [goto, wakeup, up]

theorem Control.keeps (control : Control s) (effect : Effect g s a s') : Control s' := by
  cases effect with
  | sleeps t up here busy =>
    -- a log without transactions has room for one, so that somebody is inside
    have awaited : s.committing = true ∨ s.active ≠ ∅ := by
      by_contra! nobody
      have empty := control.settled up (by simpa using nobody.1) nobody.2
      have none := control.opened
      rw [nobody.2, Finset.card_empty] at none
      simp [nobody.1, none, empty] at busy
    rcases here with here | here
    · exact control.moves up here rfl rfl rfl rfl rfl rfl .inl (by simp)
        fun _ => awaited
    · exact control.moves up here rfl rfl rfl rfl rfl rfl .inl (by simp)
        fun _ => awaited
  | enters t up here free _ => exact control.enters up here free
  | modifies t b data here =>
    exact control.moves (control.up here (by simp)) here rfl rfl rfl rfl rfl rfl .inl
      (by simp) (by simp)
  | absorbs t b here listed =>
    exact control.moves (control.up here (by simp)) here rfl rfl rfl rfl rfl rfl .inl
      (by simp) (by simp)
  | appends t b here new few =>
    exact control.moves (control.up here (by simp)) here rfl rfl rfl rfl rfl rfl (fun _ => .inr rfl)
      (by simp) (by simp)
  | leaves t here free others => exact control.leaves here free others
  | ends t here free last => exact control.ends here free last
  | starts t here dirty =>
    exact control.moves (control.up here (by simp)) here rfl rfl rfl rfl rfl rfl .inl
      (by simp) (by simp)
  | skips t here empty =>
    exact control.moves (control.up here (by simp)) here rfl rfl rfl rfl rfl rfl .inl
      (fun _ => empty) (by simp)
  | copies t tail here below =>
    exact control.moves (control.up here (by simp)) here rfl rfl rfl rfl rfl rfl .inl
      (by simp) (by simp)
  | commits t tail here all =>
    exact control.moves (control.up here (by simp)) here rfl rfl rfl rfl rfl rfl .inl
      (by simp) (by simp)
  | installs t tail here below =>
    exact control.moves (control.up here (by simp)) here rfl rfl rfl rfl rfl rfl .inl
      (by simp) (by simp)
  | clears t tail here all =>
    exact control.moves (control.up here (by simp)) here rfl rfl rfl rfl rfl rfl
      (fun _ => .inl rfl) (fun _ => rfl) (by simp)
  | closes t here => exact control.closes here
  | kills t here =>
    exact control.moves (control.up here (by simp)) here rfl rfl rfl rfl rfl rfl .inl
      (by simp) (by simp)
  | evicts b clean unlocked => exact { control with }
  | reinstalls tail down below =>
    exact { control with
      settled := by simp
      down := fun _ => control.down (by simp [down]) }
  | recovers tail down all =>
    exact { control with
      settled := fun _ _ _ => rfl
      erased := fun _ _ => rfl
      down := by simp }
  | reboots => exact control_booted s.disk

end SsuOs.Xv6Fs.Log.System
