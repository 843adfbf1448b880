import SsuOs.Xv6Fs.LogControl

/-!
# Contents of the file system

What the file system contains after any number of power cuts, some of them perhaps during recovery.
The history of a run says what should be there: every write of an operation counts at once, a
commit makes all that was written so far stable, and a power cut takes the contents back to what is
stable. `Sound` says how log, cache and disk stand for these contents at each stage of a commit and
of a recovery.
-/

namespace SsuOs.Xv6Fs.Log

/-- A process here neither holds a buffer nor has written a block of the log. -/
def Point.bare : Point → Bool
  | .recording _ | .copying (_ + 1) | .installing _ => false
  | _ => true

namespace System

/-- What the operations have written, and what of it survives a power cut. -/
structure Contents where
  current : ℕ → Block
  stable : ℕ → Block

variable {T : Type} {g : Geometry} {s s' : System T} {a : Label T} {c : Contents}
  {l : List (Event (System T) (Label T))} {t : T}

/-- The event is the header write of a commit. -/
def commitPoint (e : Event (System T) (Label T)) : Bool :=
  match e.label with
  | .commit t =>
    match e.before.proc t with
    | .copying tail => e.before.lh.length ≤ tail
    | _ => false
  | _ => false

def Contents.next (c : Contents) (e : Event (System T) (Label T)) : Contents :=
  match e.label with
  | .modify _ b data => { c with current := Function.update c.current b data }
  | .crash => { c with current := c.stable }
  | _ => if commitPoint e then { c with stable := c.current } else c

/-- The contents after the events `l`, from the contents `d` of the disk. -/
def contents (d : ℕ → Block) (l : List (Event (System T) (Label T))) : Contents :=
  l.foldl Contents.next ⟨d, d⟩

/-- What recovery would make of the disk. -/
def recovered (g : Geometry) (disk : ℕ → Block) : ℕ → Block :=
  redo (head (disk g.start)) (fun i => disk (g.start + i + 1)) disk

/-- The event at which the contents become stable, or another one. -/
theorem stable_next (c : Contents) (e : Event (System T) (Label T)) :
    (c.next e).stable = c.stable ∨ (c.next e).stable = c.current ∧ commitPoint e = true := by
  rw [Contents.next]
  split
  · exact .inl rfl
  · exact .inl rfl
  · split
    · exact .inr ⟨rfl, ‹_›⟩
    · exact .inl rfl

theorem contents_recover {l' : List (Event (System T) (Label T))}
    (kind : ∀ e ∈ l', e.label = .recover) (d : ℕ → Block) :
    contents d (l ++ l') = contents d l := by
  induction l' using List.reverseRecOn with
  | nil => rw [List.append_nil]
  | append_singleton l' e ih =>
    rw [List.forall_mem_append, List.forall_mem_singleton] at kind
    rw [← List.append_assoc, contents, List.foldl_append, ← contents, ih kind.1]
    simp [Contents.next, commitPoint, kind.2]

/-- Of the steps of `end_op` only the commit point counts. -/
theorem next_commit {p : Point} (here : s.proc t = p) (other : ∀ tail, p = .copying tail →
    tail < s.lh.length) : c.next ⟨s, .commit t, s'⟩ = c := by
  simp only [Contents.next, commitPoint, here]
  split
  · rename_i tail
    rw [if_neg (by simpa using other tail rfl)]
  · rfl

theorem not_home_start (size : 0 < g.size) : ¬ g.Home g.start := by
  rw [Geometry.Home]
  omega

theorem not_home_copy {i : ℕ} (below : i + 1 < g.size) : ¬ g.Home (g.start + i + 1) := by
  rw [Geometry.Home]
  omega

structure Sound (g : Geometry) (s : System T) (c : Contents) : Prop where
  clean : ∀ b, s.dirty b = false → ¬ s.Locked b → s.cache b = s.disk b
  dirty : ∀ b, s.dirty b = true → b ∈ s.lh
  seen : s.booting = none → ∀ b, g.Home b → s.cache b = c.current b
  stable : ∀ b, g.Home b → recovered g s.disk b = c.stable b
  /-- between two commits the log on the disk is empty -/
  idle : s.booting = none → (∀ t tail, s.proc t ≠ .installing tail) → head (s.disk g.start) = []
  copied : ∀ t tail, s.proc t = .copying tail → ∀ i (below : i < s.lh.length), i < tail →
    s.disk (g.start + i + 1) = s.cache s.lh[i]
  logged : ∀ t tail, s.proc t = .installing tail → head (s.disk g.start) = s.lh ∧
    (∀ i (below : i < s.lh.length), s.disk (g.start + i + 1) = s.cache s.lh[i]) ∧
    ∀ i (below : i < s.lh.length), i < tail → s.dirty s.lh[i] = false
  redoing : ∀ tail, s.booting = some tail → head (s.disk g.start) = s.lh ∧
    (∀ b, s.dirty b = false) ∧ c.current = c.stable ∧
    ∀ i (below : i < s.lh.length), i < tail → s.disk s.lh[i] = s.disk (g.start + i + 1)

theorem Sound.header (sound : Sound g s c) :
    head (s.disk g.start) = s.lh ∨ head (s.disk g.start) = [] := by
  cases booting : s.booting with
  | some tail => exact .inl (sound.redoing tail booting).1
  | none =>
    by_cases installing : ∃ t tail, s.proc t = .installing tail
    · obtain ⟨t, tail, here⟩ := installing
      exact .inl (sound.logged t tail here).1
    · push Not at installing
      exact .inr (sound.idle booting installing)

/-- A step that changes neither disk nor cache. -/
theorem Sound.moves {c : Contents} (sound : Sound g s c) (disk : s'.disk = s.disk)
    (cache : s'.cache = s.cache) (dirty : s'.dirty = s.dirty) (lh : s'.lh = s.lh)
    (booting : s'.booting = s.booting)
    (place : ∀ u, s'.proc u = s.proc u ∨ (s.proc u).bare = true ∧ (s'.proc u).bare = true) :
    Sound g s' c := by
  have locked : ∀ t b, s.proc t = .recording b → s'.proc t = .recording b := by
    intro t b here
    have := place t
    simp_all [Point.bare]
  have installing : ∀ t tail, s'.proc t = .installing tail ↔ s.proc t = .installing tail := by
    intro t tail
    have := place t
    constructor <;> intro here <;> simp_all [Point.bare]
  constructor
  · intro b free unlocked
    rw [cache, disk]
    rw [dirty] at free
    apply sound.clean b free
    rintro ⟨t, here⟩
    exact unlocked ⟨t, locked t b here⟩
  · rw [dirty, lh]
    exact sound.dirty
  · rw [booting, cache]
    exact sound.seen
  · rw [disk]
    exact sound.stable
  · rw [booting, disk]
    intro up none
    exact sound.idle up fun t tail here => none t tail ((installing t tail).2 here)
  · intro t tail here
    simp only [disk, cache, lh]
    rcases place t with same | ⟨-, bare⟩
    · exact sound.copied t tail (same.symm.trans here)
    · cases tail with
      | zero => simp
      | succ tail => simp [here, Point.bare] at bare
  · intro t tail here
    simp only [disk, cache, lh, dirty]
    exact sound.logged t tail ((installing t tail).1 here)
  · simp only [booting, disk, lh, dirty]
    exact sound.redoing

/-- When all copies are installed, the log on the disk can be erased. -/
theorem redo_done {disk : ℕ → Block} (logged : head (disk g.start) = s.lh)
    (installed : ∀ i (below : i < s.lh.length), disk s.lh[i] = disk (g.start + i + 1)) :
    recovered g disk = disk := by
  rw [recovered, logged]
  exact redo_of_installed installed

/-! ## The stages -/

/-- No commit is under way. -/
def Quiet (s : System T) : Prop :=
  s.booting = none ∧ ∀ u tail, s.proc u ≠ .copying tail ∧ s.proc u ≠ .installing tail

theorem Sound.quiet_head (sound : Sound g s c) (quiet : s.Quiet) : head (s.disk g.start) = [] :=
  sound.idle quiet.1 fun u tail => (quiet.2 u tail).2

/-- While no commit is under way the log on the disk is empty, and the rest is about the cache. -/
theorem sound_of_quiet (quiet : s.Quiet) (empty : head (s.disk g.start) = [])
    (clean : ∀ b, s.dirty b = false → ¬ s.Locked b → s.cache b = s.disk b)
    (dirty : ∀ b, s.dirty b = true → b ∈ s.lh) (seen : ∀ b, g.Home b → s.cache b = c.current b)
    (stable : ∀ b, g.Home b → recovered g s.disk b = c.stable b) : Sound g s c := by
  constructor
  · exact clean
  · exact dirty
  · exact fun _ => seen
  · exact stable
  · exact fun _ _ => empty
  · exact fun u tail here => absurd here (quiet.2 u tail).1
  · exact fun u tail here => absurd here (quiet.2 u tail).2
  · exact fun tail down => absurd down (by simp [quiet.1])

theorem sound_of_copying {tail : ℕ} (up : s.booting = none)
    (stage : ∀ u q, s.proc u = q → q.commits = true → q = .copying tail)
    (empty : head (s.disk g.start) = [])
    (clean : ∀ b, s.dirty b = false → ¬ s.Locked b → s.cache b = s.disk b)
    (dirty : ∀ b, s.dirty b = true → b ∈ s.lh) (seen : ∀ b, g.Home b → s.cache b = c.current b)
    (stable : ∀ b, g.Home b → recovered g s.disk b = c.stable b)
    (copied : ∀ i (below : i < s.lh.length), i < tail →
      s.disk (g.start + i + 1) = s.cache s.lh[i]) : Sound g s c := by
  constructor
  · exact clean
  · exact dirty
  · exact fun _ => seen
  · exact stable
  · exact fun _ _ => empty
  · intro u tail' here
    cases stage u _ here rfl
    exact copied
  · intro u tail' here
    cases stage u _ here rfl
  · exact fun tail down => absurd down (by simp [up])

theorem sound_of_installing {tail : ℕ} (up : s.booting = none) (here : s.proc t = .installing tail)
    (stage : ∀ u q, s.proc u = q → q.commits = true → q = .installing tail)
    (clean : ∀ b, s.dirty b = false → ¬ s.Locked b → s.cache b = s.disk b)
    (dirty : ∀ b, s.dirty b = true → b ∈ s.lh) (seen : ∀ b, g.Home b → s.cache b = c.current b)
    (stable : ∀ b, g.Home b → recovered g s.disk b = c.stable b)
    (logged : head (s.disk g.start) = s.lh)
    (copies : ∀ i (below : i < s.lh.length), s.disk (g.start + i + 1) = s.cache s.lh[i])
    (done : ∀ i (below : i < s.lh.length), i < tail → s.dirty s.lh[i] = false) :
    Sound g s c := by
  constructor
  · exact clean
  · exact dirty
  · exact fun _ => seen
  · exact stable
  · exact fun _ none => absurd here (none t tail)
  · intro u tail' here
    cases stage u _ here rfl
  · intro u tail' here
    cases stage u _ here rfl
    exact ⟨logged, copies, done⟩
  · exact fun tail down => absurd down (by simp [up])

theorem sound_of_booting {tail : ℕ} (down : s.booting = some tail)
    (idle : ∀ u, s.proc u = .outside) (unmarked : ∀ b, s.dirty b = false)
    (cache : s.cache = s.disk) (same : c.current = c.stable)
    (stable : ∀ b, g.Home b → recovered g s.disk b = c.stable b)
    (logged : head (s.disk g.start) = s.lh)
    (installed : ∀ i (below : i < s.lh.length), i < tail →
      s.disk s.lh[i] = s.disk (g.start + i + 1)) : Sound g s c := by
  constructor
  · exact fun b _ _ => congrFun cache b
  · exact fun b marked => absurd marked (by simp [unmarked])
  · exact fun up => absurd up (by simp [down])
  · exact stable
  · exact fun up => absurd up (by simp [down])
  · exact fun u tail here => absurd here (by simp [idle])
  · exact fun u tail here => absurd here (by simp [idle])
  · intro tail' down'
    cases down.symm.trans down'
    exact ⟨logged, unmarked, same, installed⟩

/-- The power cut takes the contents back to what is stable. -/
theorem sound_booted {disk : ℕ → Block}
    (stable : ∀ b, g.Home b → recovered g disk b = c.stable b) :
    Sound g (booted g disk : System T) { c with current := c.stable } :=
  sound_of_booting rfl (fun _ => rfl) (fun _ => rfl) rfl rfl stable rfl
    fun _ _ below => absurd below (Nat.not_lt_zero _)

/-- The buffers that a disk write does not concern, or leaves clean. -/
theorem clean_bwrite {b : ℕ} {data : Block} (clean : ∀ d, s.dirty d = false → s.cache d = s.disk d)
    {d : ℕ} (free : (s.bwrite b data).dirty d = false) :
    (s.bwrite b data).cache d = (s.bwrite b data).disk d := by
  simp only [bwrite_dirty, bwrite_cache, bwrite_disk, Function.update_apply] at free ⊢
  split
  · rfl
  · exact clean d (by rwa [if_neg ‹_›] at free)

theorem dirty_of_update {b d : ℕ} (marked : Function.update s.dirty b false d = true) :
    s.dirty d = true := by
  rw [Function.update_apply] at marked
  split at marked
  · cases marked
  · exact marked

section
variable [Fintype T]

/-- Nobody is in `log_write` during a commit. -/
theorem Control.unlocked (control : Control s) {t : T} (commits : (s.proc t).commits = true)
    (b : ℕ) : ¬ s.Locked b := by
  rintro ⟨u, here⟩
  have empty := control.exclusive (control.committer.2 ⟨t, commits⟩)
  have inside : u ∈ s.active := by simp [here, Point.active]
  simp [empty] at inside

/-- Nobody commits while somebody is inside an operation. -/
theorem Control.open_of_active (control : Control s) {t : T} (inside : (s.proc t).active = true)
    (u : T) : (s.proc u).commits = false := by
  apply control.nobody
  by_contra busy
  have empty := control.exclusive (by simpa using busy)
  rw [← mem_active, empty] at inside
  simp at inside

theorem Control.quiet (control : Control s) (inside : (s.proc t).active = true) : s.Quiet := by
  have busy : s.proc t ≠ .outside := fun here => by simp [here, Point.active] at inside
  refine ⟨control.up rfl busy, fun u tail => ?_⟩
  have nobody := control.open_of_active inside u
  constructor <;> intro here <;> simp [here, Point.commits] at nobody

/-- Nobody but recovery uses the file system of a machine that is starting. -/
theorem Control.starting (control : Control s) (down : s.booting ≠ none) {u : T} {p : Point}
    (here : s.proc u = p) : p = .outside :=
  here.symm.trans ((control.down down).2 u)

/-- The file system is in use and nobody is inside an operation when the header is written. -/
theorem Control.commitPoint (control : Control s) (point : commitPoint ⟨s, a, s'⟩ = true) :
    s.booting = none ∧ ∀ t, (s.proc t).active = false := by
  rw [System.commitPoint] at point
  split at point
  · rename_i u _
    split at point
    · rename_i here
      have busy := control.committer.2 ⟨u, by rw [here]; rfl⟩
      refine ⟨control.up here (by simp), fun t => ?_⟩
      have outside := mem_active.not.1 (control.exclusive busy ▸ Finset.notMem_empty t)
      simpa using outside
    · cases point
  · cases point

theorem Sound.cache_booting (control : Control s) (sound : Sound g s c) {tail : ℕ}
    (down : s.booting = some tail) : s.cache = s.disk := by
  funext b
  apply sound.clean b ((sound.redoing tail down).2.1 b)
  rintro ⟨u, here⟩
  cases control.starting (by simp [down]) here

end

section
variable [DecidableEq T]

theorem bare_goto {t : T} {p q : Point} (here : s.proc t = p) (leaves : p.bare = true)
    (reaches : q.bare = true) (u : T) :
    (s.goto t q).proc u = s.proc u ∨ (s.proc u).bare = true ∧ ((s.goto t q).proc u).bare = true := by
  by_cases same : u = t
  · right
    simp [same, here, leaves, reaches]
  · left
    simp [same]

theorem bare_wakeup_goto {t : T} {p q : Point} (here : s.proc t = p) (leaves : p.bare = true)
    (reaches : q.bare = true) (u : T) : (s.wakeup.goto t q).proc u = s.proc u ∨
      (s.proc u).bare = true ∧ ((s.wakeup.goto t q).proc u).bare = true := by
  by_cases same : u = t
  · right
    simp [same, here, leaves, reaches]
  · by_cases asleep : s.proc u = .asleep
    · right
      simp [same, asleep, Point.bare]
    · left
      simp [same, asleep]

theorem Quiet.goto {p : Point} (quiet : s.Quiet)
    (proc : s'.proc = Function.update s.proc t p) (booting : s'.booting = s.booting)
    (apart : ∀ tail, p ≠ .copying tail ∧ p ≠ .installing tail) : s'.Quiet := by
  refine ⟨booting.trans quiet.1, fun u tail => ?_⟩
  rw [proc, Function.update_apply]
  split
  · exact apart tail
  · exact quiet.2 u tail

end

end System

end SsuOs.Xv6Fs.Log
