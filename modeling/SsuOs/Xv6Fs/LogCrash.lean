import SsuOs.Xv6Fs.LogContents
import SsuOs.Xv6Fs.LogSpace

/-!
# Power cuts

The log, the cache and the disk together stand for the contents that the history of the run says,
after every step of every process, of recovery and of the power.
-/

namespace SsuOs.Xv6Fs.Log.System

variable {T : Type} [DecidableEq T] [Fintype T] {g : Geometry} {s s' : System T} {a : Label T}
  {c : Contents} {l : List (Event (System T) (Label T))} {t : T}

/-- The blocks of the log area are not dirty and not locked. -/
theorem Sound.cache_log (sound : Sound g s c) (reserved : Reserved g l s) {b : ℕ}
    (inside : ¬ g.Home b) : s.cache b = s.disk b := by
  apply sound.clean
  · by_contra marked
    exact inside (reserved.home b (sound.dirty b (by simpa using marked))).1
  · rintro ⟨t, here⟩
    exact inside (reserved.pending t b here).1.1

theorem Sound.modifies {b : ℕ} {data : Block} (control : Control s) (sound : Sound g s c)
    (here : s.proc t = .inside) :
    Sound g ({ s with cache := Function.update s.cache b data }.goto t (.recording b))
      { c with current := Function.update c.current b data } := by
  have quiet := control.quiet (t := t) (by simp [here, Point.active])
  apply sound_of_quiet
  · exact quiet.goto rfl rfl fun _ => by simp
  · exact sound.quiet_head quiet
  · intro d free unlocked
    have other : d ≠ b := by
      rintro rfl
      exact unlocked ⟨t, Function.update_self ..⟩
    change Function.update s.cache b data d = s.disk d
    rw [Function.update_of_ne other]
    apply sound.clean d free
    rintro ⟨u, recording⟩
    apply unlocked ⟨u, ?_⟩
    simp only [goto, Function.update_apply]
    grind
  · exact sound.dirty
  · intro d home
    simp only [goto, Function.update_apply]
    split
    · rfl
    · exact sound.seen quiet.1 d home
  · exact sound.stable

/-- `log_write` marks the buffer and lists its block. -/
theorem Sound.records {b : ℕ} {lh : List ℕ} (control : Control s) (sound : Sound g s c)
    (here : s.proc t = .recording b) (kept : ∀ d ∈ s.lh, d ∈ lh) (listed : b ∈ lh) :
    Sound g ({ s with lh := lh, dirty := Function.update s.dirty b true }.goto t .inside) c := by
  have quiet := control.quiet (t := t) (by simp [here, Point.active])
  apply sound_of_quiet
  · exact quiet.goto rfl rfl fun _ => by simp
  · exact sound.quiet_head quiet
  · intro d free unlocked
    have other : d ≠ b := by
      rintro rfl
      simp [goto] at free
    apply sound.clean d
    · simpa [goto, other] using free
    · rintro ⟨u, recording⟩
      apply unlocked ⟨u, ?_⟩
      simp only [goto, Function.update_apply]
      grind
  · intro d marked
    by_cases same : d = b
    · exact same ▸ listed
    · exact kept d (sound.dirty d (by simpa [goto, same] using marked))
  · exact sound.seen quiet.1
  · exact sound.stable

/-! ## Commits -/

/-- While one process commits, it is the only one at any stage of a commit. -/
theorem Control.stage {p : Point} (control : Control s) (commits : (s.proc t).commits = true)
    (proc : s'.proc = Function.update s.proc t p) {u : T} {q : Point} (here : s'.proc u = q)
    (also : q.commits = true) : q = p := by
  rw [proc, Function.update_apply] at here
  split at here
  · exact here.symm
  · subst here
    exact absurd (control.alone u t also commits) ‹_›

/-- A block is copied to the log. -/
theorem Sound.copies {tail : ℕ} (control : Control s) (reserved : Reserved g l s)
    (sound : Sound g s c) (here : s.proc t = .copying tail) (below : tail < s.lh.length) :
    Sound g ((s.bwrite (g.start + tail + 1) (s.cache s.lh[tail])).goto t (.copying (tail + 1)))
      c := by
  have commits : (s.proc t).commits = true := by simp [here, Point.commits]
  have up := control.up here (by simp)
  have room : tail + 1 < g.size := Nat.lt_of_le_of_lt below reserved.fits
  have apart : ∀ b, g.Home b → b ≠ g.start + tail + 1 :=
    fun b home same => not_home_copy room (same ▸ home)
  have empty : head (s.disk g.start) = [] := by
    apply sound.idle up
    intro u tail' installing
    have same := control.stage commits (Function.update_eq_self t s.proc).symm installing rfl
    simp [here] at same
  apply sound_of_copying
  · exact up
  · exact fun u q => control.stage commits rfl
  · simpa [Function.update_of_ne (show g.start ≠ g.start + tail + 1 by omega)] using empty
  · exact fun b free _ => clean_bwrite (fun d free => sound.clean d free
      (control.unlocked commits d)) free
  · exact fun b marked => sound.dirty b (dirty_of_update marked)
  · intro b home
    simpa [Function.update_of_ne (apart b home)] using sound.seen up b home
  · intro b home
    have before := sound.stable b home
    rw [recovered, empty, redo_nil] at before
    simp [recovered, Function.update_of_ne (show g.start ≠ g.start + tail + 1 by omega), empty,
      Function.update_of_ne (apart b home), before]
  · intro i less lower
    replace less : i < s.lh.length := less
    have home := (reserved.home _ (List.getElem_mem less)).1
    simp only [goto_disk, goto_cache, goto_lh, bwrite_disk, bwrite_cache, bwrite_lh,
      Function.update_of_ne (apart _ home)]
    by_cases last : i = tail
    · simp [last]
    · rw [Function.update_of_ne (by omega)]
      exact sound.copied t tail here i less (by omega)

/-- The header write is the commit: from then on the log stands for the current contents. -/
theorem Sound.commits {tail : ℕ} (control : Control s) (reserved : Reserved g l s)
    (sound : Sound g s c) (here : s.proc t = .copying tail) (all : s.lh.length ≤ tail) :
    Sound g ((s.bwrite g.start (putHead (s.cache g.start) s.lh)).goto t (.installing 0))
      { c with stable := c.current } := by
  have commits : (s.proc t).commits = true := by simp [here, Point.commits]
  have up := control.up here (by simp)
  have size := Nat.zero_lt_of_lt reserved.fits
  have apart : ∀ b, g.Home b → b ≠ g.start := fun b home same => not_home_start size (same ▸ home)
  have clean : ∀ d, s.dirty d = false → s.cache d = s.disk d :=
    fun d free => sound.clean d free (control.unlocked commits d)
  have few : s.lh.length ≤ logSize := (Nat.le_add_right ..).trans reserved.space
  have logged : head (putHead (s.cache g.start) s.lh) = s.lh :=
    head_putHead _ few fun b mem => (reserved.home b mem).2
  have copies : ∀ i (below : i < s.lh.length), s.disk (g.start + i + 1) = s.cache s.lh[i] :=
    fun i below => sound.copied t tail here i below (below.trans_le all)
  apply sound_of_installing (t := t)
  · exact up
  · exact Function.update_self ..
  · exact fun u q => control.stage commits rfl
  · exact fun b free _ => clean_bwrite clean free
  · exact fun b marked => sound.dirty b (dirty_of_update marked)
  · intro b home
    simpa [Function.update_of_ne (apart b home)] using sound.seen up b home
  · intro b home
    simp only [recovered, goto_disk, bwrite_disk, Function.update_self, logged]
    apply redo_eq
    · intro i below
      rw [Function.update_of_ne (by omega), copies i below]
      exact sound.seen up _ (reserved.home _ (List.getElem_mem below)).1
    · intro unlisted
      have free : s.dirty b = false := by
        by_contra marked
        exact unlisted (sound.dirty b (by simpa using marked))
      rw [Function.update_of_ne (apart b home), ← clean b free, sound.seen up b home]
  · simpa using logged
  · intro i below
    replace below : i < s.lh.length := below
    have home := (reserved.home _ (List.getElem_mem below)).1
    simpa [Function.update_of_ne (apart _ home),
      Function.update_of_ne (show g.start + i + 1 ≠ g.start by omega)] using copies i below
  · intro i below lower
    exact absurd lower (Nat.not_lt_zero i)

/-- Installing a block writes what the cache has already. -/
theorem Sound.installs {tail : ℕ} (control : Control s) (reserved : Reserved g l s)
    (sound : Sound g s c) (here : s.proc t = .installing tail) (below : tail < s.lh.length) :
    Sound g ((s.bwrite s.lh[tail] (s.cache (g.start + tail + 1))).goto t (.installing (tail + 1)))
      c := by
  have commits : (s.proc t).commits = true := by simp [here, Point.commits]
  have up := control.up here (by simp)
  have size := Nat.zero_lt_of_lt reserved.fits
  have target := (reserved.home _ (List.getElem_mem below)).1
  have outside : ∀ b, ¬ g.Home b → b ≠ s.lh[tail] := fun b inside same => inside (same ▸ target)
  have room : ∀ i, i < s.lh.length → i + 1 < g.size :=
    fun i less => Nat.lt_of_le_of_lt less reserved.fits
  obtain ⟨logged, copies, done⟩ := sound.logged t tail here
  have same : s.cache (g.start + tail + 1) = s.cache s.lh[tail] :=
    (sound.cache_log reserved (not_home_copy (room tail below))).trans (copies tail below)
  have cache : Function.update s.cache s.lh[tail] (s.cache (g.start + tail + 1)) = s.cache := by
    rw [same, Function.update_eq_self]
  apply sound_of_installing (t := t)
  · exact up
  · exact Function.update_self ..
  · exact fun u q => control.stage commits rfl
  · exact fun b free _ => clean_bwrite (fun d free => sound.clean d free
      (control.unlocked commits d)) free
  · exact fun b marked => sound.dirty b (dirty_of_update marked)
  · simpa [cache] using sound.seen up
  · intro b home
    rw [← sound.stable b home]
    simp only [recovered, goto_disk, bwrite_disk,
      Function.update_of_ne (outside _ (not_home_start size)), logged]
    rw [redo_update (List.getElem_mem below)]
    apply redo_congr _ rfl
    intro i less
    rw [Function.update_of_ne (outside _ (not_home_copy (room i less)))]
  · simpa [Function.update_of_ne (outside _ (not_home_start size))] using logged
  · intro i less
    replace less : i < s.lh.length := less
    simpa [cache, Function.update_of_ne (outside _ (not_home_copy (room i less)))] using
      copies i less
  · intro i less lower
    replace less : i < s.lh.length := less
    simp only [goto_dirty, bwrite_dirty, goto_lh, bwrite_lh, Function.update_apply]
    split
    · rfl
    · rename_i other
      apply done i less
      have : i ≠ tail := by rintro rfl; exact other rfl
      omega

theorem Sound.clears {tail : ℕ} (control : Control s) (reserved : Reserved g l s)
    (sound : Sound g s c) (here : s.proc t = .installing tail) (all : s.lh.length ≤ tail) :
    Sound g (({ s with lh := [] }.bwrite g.start (putHead (s.cache g.start) [])).goto t .closing)
      c := by
  have commits : (s.proc t).commits = true := by simp [here, Point.commits]
  have up := control.up here (by simp)
  have size := Nat.zero_lt_of_lt reserved.fits
  have apart : ∀ b, g.Home b → b ≠ g.start := fun b home same => not_home_start size (same ▸ home)
  have clean : ∀ d, s.dirty d = false → s.cache d = s.disk d :=
    fun d free => sound.clean d free (control.unlocked commits d)
  have empty : head (putHead (s.cache g.start) []) = [] := head_putHead _ (Nat.zero_le _) (by simp)
  obtain ⟨logged, copies, done⟩ := sound.logged t tail here
  have installed : ∀ i (below : i < s.lh.length), s.disk s.lh[i] = s.disk (g.start + i + 1) :=
    fun i below => by rw [copies i below, clean _ (done i below (below.trans_le all))]
  have unmarked : ∀ b, s.dirty b = false := by
    intro b
    by_contra marked
    obtain ⟨i, below, rfl⟩ := List.getElem_of_mem (sound.dirty b (by simpa using marked))
    exact marked (done i below (below.trans_le all))
  apply sound_of_quiet
  · refine ⟨up, fun u k => ⟨fun copying => ?_, fun installing => ?_⟩⟩
    · cases control.stage (p := .closing) commits rfl copying rfl
    · cases control.stage (p := .closing) commits rfl installing rfl
  · simpa using empty
  · exact fun b free _ => clean_bwrite (s := { s with lh := [] }) clean free
  · intro b marked
    have old := dirty_of_update marked
    simp [unmarked] at old
  · intro b home
    simpa [Function.update_of_ne (apart b home)] using sound.seen up b home
  · intro b home
    rw [← sound.stable b home, redo_done logged installed]
    simp [recovered, empty, Function.update_of_ne (apart b home)]

/-! ## Recovery -/

theorem Sound.reinstalls {tail : ℕ} (control : Control s) (reserved : Reserved g l s)
    (sound : Sound g s c) (down : s.booting = some tail) (below : tail < s.lh.length) :
    Sound g { s.bwrite s.lh[tail] (s.cache (g.start + tail + 1)) with booting := some (tail + 1) }
      c := by
  have size := Nat.zero_lt_of_lt reserved.fits
  have target := (reserved.home _ (List.getElem_mem below)).1
  have outside : ∀ b, ¬ g.Home b → b ≠ s.lh[tail] := fun b inside same => inside (same ▸ target)
  have room : ∀ i, i < s.lh.length → i + 1 < g.size :=
    fun i less => Nat.lt_of_le_of_lt less reserved.fits
  have cache := sound.cache_booting control down
  obtain ⟨logged, unmarked, same, installed⟩ := sound.redoing tail down
  apply sound_of_booting
  · rfl
  · exact (control.down (by simp [down])).2
  · intro b
    simp [Function.update_apply, unmarked]
  · simp [cache]
  · exact same
  · intro b home
    rw [← sound.stable b home]
    simp only [recovered, bwrite_disk, Function.update_of_ne (outside _ (not_home_start size)),
      logged]
    rw [redo_update (List.getElem_mem below)]
    apply redo_congr _ rfl
    intro i less
    rw [Function.update_of_ne (outside _ (not_home_copy (room i less)))]
  · simpa [Function.update_of_ne (outside _ (not_home_start size))] using logged
  · intro i less lower
    replace less : i < s.lh.length := less
    simp only [bwrite_disk, bwrite_lh,
      Function.update_of_ne (outside _ (not_home_copy (room i less)))]
    by_cases last : i = tail
    · subst last
      rw [Function.update_self, cache]
    · have apart : s.lh[i] ≠ s.lh[tail] := fun equal =>
        last ((reserved.nodup.getElem_inj_iff).1 equal)
      rw [Function.update_of_ne apart]
      exact installed i less (by omega)

theorem Sound.recovers {tail : ℕ} (control : Control s) (reserved : Reserved g l s)
    (sound : Sound g s c) (down : s.booting = some tail) (all : s.lh.length ≤ tail) :
    Sound g { { s with lh := [] }.bwrite g.start (putHead (s.cache g.start) []) with
      booting := none } c := by
  have size := Nat.zero_lt_of_lt reserved.fits
  have apart : ∀ b, g.Home b → b ≠ g.start := fun b home same => not_home_start size (same ▸ home)
  have empty : head (putHead (s.cache g.start) []) = [] := head_putHead _ (Nat.zero_le _) (by simp)
  have cache := sound.cache_booting control down
  have idle := (control.down (by simp [down])).2
  obtain ⟨logged, unmarked, same, installed⟩ := sound.redoing tail down
  have done := redo_done logged fun i below => installed i below (below.trans_le all)
  apply sound_of_quiet
  · refine ⟨rfl, fun u k => ?_⟩
    change s.proc u ≠ _ ∧ s.proc u ≠ _
    simp [idle]
  · simpa using empty
  · intro b _ _
    simp [cache]
  · intro b marked
    have old := dirty_of_update marked
    simp [unmarked] at old
  · intro b home
    rw [same, ← sound.stable b home, done]
    simp [cache, Function.update_of_ne (apart b home)]
  · intro b home
    rw [← sound.stable b home, done]
    simp [recovered, empty, Function.update_of_ne (apart b home)]

theorem Sound.keeps (control : Control s) (reserved : Reserved g l s) (sound : Sound g s c)
    (effect : Effect g s a s') : Sound g s' (c.next ⟨s, a, s'⟩) := by
  cases effect with
  | sleeps t up here busy =>
    rcases here with here | here
    · exact sound.moves rfl rfl rfl rfl rfl (bare_goto here rfl rfl)
    · exact sound.moves rfl rfl rfl rfl rfl (bare_goto here rfl rfl)
  | enters t up here free room =>
    rcases here with here | here
    · exact sound.moves rfl rfl rfl rfl rfl (bare_goto here rfl rfl)
    · exact sound.moves rfl rfl rfl rfl rfl (bare_goto here rfl rfl)
  | modifies t b data here => exact sound.modifies control here
  | absorbs t b here listed => exact sound.records control here (fun _ mem => mem) listed
  | appends t b here new few =>
    exact sound.records control here (fun _ mem => List.mem_append_left _ mem) (by simp)
  | leaves t here free others =>
    exact sound.moves rfl rfl rfl rfl rfl (bare_wakeup_goto here rfl rfl)
  | ends t here free last => exact sound.moves rfl rfl rfl rfl rfl (bare_goto here rfl rfl)
  | starts t here dirty =>
    rw [next_commit here (by simp)]
    exact sound.moves rfl rfl rfl rfl rfl (bare_goto here rfl rfl)
  | skips t here empty =>
    rw [next_commit here (by simp)]
    exact sound.moves rfl rfl rfl rfl rfl (bare_goto here rfl rfl)
  | copies t tail here below =>
    rw [next_commit here fun tail' same => by cases same; exact below]
    exact sound.copies control reserved here below
  | commits t tail here all =>
    have point : c.next ⟨s, .commit t,
        (s.bwrite g.start (putHead (s.cache g.start) s.lh)).goto t (.installing 0)⟩ =
        { c with stable := c.current } := by
      simp [Contents.next, commitPoint, here, all]
    rw [point]
    exact sound.commits control reserved here all
  | installs t tail here below =>
    rw [next_commit here (by simp)]
    exact sound.installs control reserved here below
  | clears t tail here all =>
    rw [next_commit here (by simp)]
    exact sound.clears control reserved here all
  | closes t here =>
    rw [next_commit here (by simp)]
    exact sound.moves rfl rfl rfl rfl rfl (bare_wakeup_goto here rfl rfl)
  | kills t here => exact sound.moves rfl rfl rfl rfl rfl (bare_goto here rfl rfl)
  | evicts b clean unlocked =>
    -- an evicted buffer is clean, so that reading it again gives the same
    have same : Function.update s.cache b (s.disk b) = s.cache := by
      rw [← sound.clean b clean unlocked, Function.update_eq_self]
    exact sound.moves rfl same rfl rfl rfl fun _ => .inl rfl
  | reinstalls tail down below => exact sound.reinstalls control reserved down below
  | recovers tail down all => exact sound.recovers control reserved down all
  | reboots => exact sound_booted sound.stable

end SsuOs.Xv6Fs.Log.System
