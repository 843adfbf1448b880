import SsuOs.Semaphore.ToggleRounds

/-!
# Runs of the toggle test

Every step of `main` and of the threads keeps the rounds, so that the lines come in the order in
which the threads call `SSU_Sem_down(&child)` (`roundRobin_iff_downs`); nothing makes that order the
one of the threads' creation (`not_roundRobin_overtaken`).
-/

namespace SsuOs.Semaphore

variable {T N n : ℕ} {s s' : Toggle T} {downs : List (Fin T)}

/-! ## Steps -/

section Update

variable {t : Fin T} {x : Justprint}

theorem setThread_self : (s.setThread t x).thread t = x := Function.update_self ..

theorem setThread_of_ne {u : Fin T} (other : u ≠ t) : (s.setThread t x).thread u = s.thread u :=
  Function.update_of_ne other ..

theorem announcedCount_same (same : x.announced = (s.thread t).announced) :
    announcedCount (s.setThread t x) = announcedCount s := by
  unfold announcedCount
  congr 1
  ext u
  by_cases here : u = t
  · subst here
    simp [setThread_self, same]
  · simp [setThread_of_ne here]

theorem announcedCount_new (new : x.announced = true) (old : (s.thread t).announced = false) :
    announcedCount (s.setThread t x) = announcedCount s + 1 := by
  unfold announcedCount
  have inserted : (Finset.univ.filter fun u => ((s.setThread t x).thread u).announced) =
      insert t (Finset.univ.filter fun u => (s.thread u).announced) := by
    ext u
    by_cases here : u = t
    · subst here
      simp [setThread_self, new]
    · simp [setThread_of_ne here, here]
  rw [inserted, Finset.card_insert_of_notMem (by simp [old])]

theorem unborn_setThread {c : ℕ} (unborn : ∀ u, s.thread u = .unborn ↔ c ≤ u.val)
    (old : s.thread t ≠ .unborn) (new : x ≠ .unborn) (u : Fin T) :
    (s.setThread t x).thread u = .unborn ↔ c ≤ u.val := by
  rw [← unborn u]
  by_cases here : u = t
  · subst here
    rw [setThread_self]
    exact iff_of_false new old
  · rw [setThread_of_ne here]

/-- The step of a thread that is not let through `child` leaves the round as it is. -/
theorem Round.setThread {ups : ℕ} (round : Round s.thread s.printed downs n ups)
    (old : (s.thread t).active = false) (new : x.active = false) :
    Round (s.setThread t x).thread s.printed downs n ups := by
  have idle {P : Fin T → Prop} (idle : ∀ u, P u → (s.thread u).active = false) (u : Fin T)
      (other : P u) : ((s.setThread t x).thread u).active = false := by
    by_cases here : u = t
    · rw [here, setThread_self, new]
    · rw [setThread_of_ne here]
      exact idle u other
  have kept {u : Fin T} {y : Justprint} (at_ : s.thread u = y) (active : y.active = true) :
      (s.setThread t x).thread u = y := by
    rw [setThread_of_ne, at_]
    rintro rfl
    rw [at_, active] at old
    cases old
  cases round with
  | quiet none printed served turn =>
    exact .quiet (fun u => idle (P := fun _ => True) (fun u _ => none u) u trivial) printed served turn
  | granted u turn first inside others printed =>
    obtain ⟨i, woken | print⟩ := inside
    · exact .granted u turn first ⟨i, .inl (kept woken rfl)⟩ (idle others) printed
    · exact .granted u turn first ⟨i, .inr (kept print rfl)⟩ (idle others) printed
  | printed u turn first inside others printed =>
    obtain ⟨i, up⟩ := inside
    exact .printed u turn first ⟨i, kept up rfl⟩ (idle others) printed

/-- The thread that is let through `child` is the one whose turn it is. -/
theorem Round.cases_active {ups : ℕ} (round : Round s.thread s.printed downs n ups)
    (active : (s.thread t).active) :
    ups = n + 1 ∧ downs[n]? = some t ∧ (∀ u ≠ t, (s.thread u).active = false) ∧
      (((∃ i, s.thread t = .woken i ∨ s.thread t = .print i) ∧ s.printed = downs.take n) ∨
        ((∃ i, s.thread t = .up i) ∧ s.printed = downs.take (n + 1))) := by
  have turn {u : Fin T} (idle : ∀ v ≠ u, (s.thread v).active = false) : t = u := by
    by_contra other
    rw [idle t other] at active
    cases active
  cases round with
  | quiet idle printed served turn =>
    rw [idle t] at active
    cases active
  | granted u turn' first inside idle printed =>
    obtain rfl := turn idle
    exact ⟨turn', first, idle, .inl ⟨inside, printed⟩⟩
  | printed u turn' first inside idle printed =>
    obtain rfl := turn idle
    exact ⟨turn', first, idle, .inr ⟨inside, printed⟩⟩

end Update

/-- A step that leaves `parent` and `main` alone, and in which no thread announces itself. -/
theorem Inv.gate_same (inv : Inv N s downs n) (parent : s'.parent = s.parent)
    (main : s'.main = s.main) (count : announcedCount s' = announcedCount s) :
    Gate N s' (announcedCount s' + n) := by
  obtain ⟨serves, passed⟩ := inv.gate
  rw [← parent, ← main] at serves
  rw [← main] at passed
  rw [count]
  exact ⟨serves, passed⟩

/-- A step of `t` outside of `SSU_Sem_down(&child)`, or of `main` that creates `t`. -/
theorem Inv.advance (inv : Inv N s downs n) {t : Fin T} {m : ℕ} (child : s'.child = s.child)
    (others : ∀ u ≠ t, s'.thread u = s.thread u) (awake : ∀ i, s.thread t ≠ .asleep i)
    (awake' : ∀ i, s'.thread t ≠ .asleep i) (raised : s'.main.raised N T = s.main.raised N T)
    (bounded : s'.main.Bounded N T) (gate : Gate N s' (announcedCount s' + m))
    (unborn : ∀ u, s'.thread u = .unborn ↔ s'.main.created T ≤ u)
    (round : Round s'.thread s'.printed downs m (s.main.raised N T)) : Inv N s' downs m where
  threads := inv.threads
  gate := gate
  child := by
    rw [child, raised]
    exact inv.child
  bounded := bounded
  unborn := unborn
  asleep u := by
    rw [raised, ← inv.asleep u]
    by_cases here : u = t
    · subst here
      exact iff_of_false (by simp [awake']) (by simp [awake])
    · rw [others u here]
  nodup := by
    rw [raised]
    exact inv.nodup
  round := by
    rw [raised]
    exact round

theorem Inv.create (inv : Inv N s downs n) {i : ℕ} (at_ : s.main = .head (.create i)) (more : i < T) :
    Inv N { s.setThread ⟨i, more⟩ .announce with main := .down (.create i) } downs n := by
  have unborn : s.thread ⟨i, more⟩ = .unborn := (inv.unborn _).2 (by rw [at_]; exact le_rfl)
  have count : announcedCount (s.setThread ⟨i, more⟩ .announce) = announcedCount s :=
    announcedCount_same (by rw [unborn]; rfl)
  obtain ⟨serves, passed⟩ := inv.gate
  have unborns := inv.unborn
  rw [at_] at serves passed unborns
  refine inv.advance (t := ⟨i, more⟩) rfl (fun u => setThread_of_ne) (by simp [unborn]) ?_
    (by rw [at_]; rfl) more ?_ (fun u => ?_) (inv.round.setThread (by rw [unborn]; rfl) rfl)
  · intro k
    change (s.setThread _ _).thread _ ≠ _
    rw [setThread_self]
    simp
  · change Gate N _ (announcedCount (s.setThread ⟨i, more⟩ .announce) + n)
    rw [count]
    exact ⟨serves, passed⟩
  · change (s.setThread _ _).thread _ = _ ↔ i + 1 ≤ u.val
    by_cases here : u = ⟨i, more⟩
    · subst here
      rw [setThread_self]
      simp
    · have away : u.val ≠ i := fun same => here (Fin.ext same)
      rw [setThread_of_ne here, unborns u]
      change i ≤ u.val ↔ _
      omega

theorem Inv.raise (inv : Inv N s downs n) {i : ℕ} (at_ : s.main = .head (.toggle i))
    (more : i < N * T) : Inv N { s.upChild with main := .down (.toggle i) } downs n := by
  obtain ⟨rfl, idle, printed, served⟩ := inv.settled at_
  have range := inv.childRange
  obtain ⟨threads, ⟨serves, passed⟩, child, -, unborn, asleep, nodup, -⟩ := inv
  rw [at_] at serves passed child unborn asleep nodup range
  change Fifo.InRange downs n at range
  change s.child.Serves downs n at child
  change ∀ t, _ ↔ t ∈ downs.drop n at asleep
  change (downs.drop n).Nodup at nodup
  have wakes := child.wakes range
  have served' := child.up range
  rcases up : s.child.up with ⟨child', woken⟩
  simp only [up] at wakes served'
  cases woken with
  | none =>
    have all : downs.length = n := le_antisymm (List.getElem?_eq_none_iff.1 wakes.symm) served
    have none : s.upChild = { s with child := child' } := by simp [Toggle.upChild, up]
    have empty : downs.drop n = [] ∧ downs.drop (n + 1) = [] :=
      ⟨List.drop_eq_nil_of_le all.le, List.drop_eq_nil_of_le (by omega)⟩
    rw [empty.1] at asleep
    rw [none]
    exact {
      threads := threads
      gate := ⟨serves, passed⟩
      child := served'
      bounded := more
      unborn := unborn
      asleep := by
        change ∀ t, _ ↔ t ∈ downs.drop (n + 1)
        rw [empty.2]
        exact asleep
      nodup := by
        change (downs.drop (n + 1)).Nodup
        rw [empty.2]
        exact .nil
      round := .quiet idle printed served (.inr ⟨rfl, all⟩) }
  | some t =>
    have cut : downs.drop n = t :: downs.drop (n + 1) := by
      obtain ⟨below, first⟩ := List.getElem?_eq_some_iff.1 wakes.symm
      rw [List.drop_eq_getElem_cons below, first]
    rw [cut] at asleep nodup
    obtain ⟨k, sleeping⟩ := (asleep t).2 List.mem_cons_self
    have woken : s.upChild = { s with child := child' }.setThread t (.woken k) := by
      simp [Toggle.upChild, up, sleeping]
    have count : announcedCount (s.setThread t (.woken k)) = announcedCount s :=
      announcedCount_same (by rw [sleeping]; rfl)
    rw [woken]
    exact {
      threads := threads
      gate := by
        change Gate N _ (announcedCount (s.setThread t (.woken k)) + n)
        rw [count]
        exact ⟨serves, passed⟩
      child := served'
      bounded := more
      unborn := unborn_setThread unborn (by simp [sleeping]) (by simp)
      asleep := fun u => by
        change (∃ i, (s.setThread t (.woken k)).thread u = .asleep i) ↔ u ∈ downs.drop (n + 1)
        by_cases here : u = t
        · subst here
          rw [setThread_self]
          exact iff_of_false (by simp) (List.nodup_cons.1 nodup).1
        · rw [setThread_of_ne here, asleep u, List.mem_cons, or_iff_right here]
      nodup := (List.nodup_cons.1 nodup).2
      round := .granted t rfl wakes.symm ⟨k, .inl setThread_self⟩
        (fun u other => (congrArg Justprint.active (setThread_of_ne other)).trans (idle u)) printed }

theorem Inv.stepMain (inv : Inv N s downs n) (taken : s.stepMain N = some s') :
    Inv N s' downs n := by
  unfold Toggle.stepMain at taken
  cases at_ : s.main with
  | head j =>
    cases j with
    | create i =>
      simp only [at_] at taken
      split_ifs at taken with more
      · cases taken
        exact inv.create at_ more
      · cases taken
        exact inv.endCreate at_ more
    | toggle i =>
      simp only [at_] at taken
      split_ifs at taken with more
      · cases taken
        exact inv.raise at_ more
      · cases taken
        exact inv.endToggle at_ more
  | down j =>
    simp only [at_] at taken
    cases taken
    exact inv.downParent at_
  | woken j =>
    simp only [at_] at taken
    cases taken
    exact inv.returnParent at_
  | asleep j =>
    simp only [at_] at taken
    cases taken
  | join =>
    simp only [at_] at taken
    cases taken

section Thread

variable {t : Fin T}

/-- `SSU_Sem_up(&parent)` at the end of an iteration or before the first one. -/
theorem Inv.upParent (inv : Inv N s downs n) {k m : ℕ} (awake : ∀ i, s.thread t ≠ .asleep i)
    (born : s.thread t ≠ .unborn)
    (count : announcedCount (s.setThread t (Toggle.iterate N k)) + m = announcedCount s + n + 1)
    (round : Round (s.setThread t (Toggle.iterate N k)).thread s.printed downs m (s.main.raised N T)) :
    Inv N (s.upParent.setThread t (Toggle.iterate N k)) downs m := by
  have loop := Justprint.iterate_cases N k
  have gate := inv.gate.up inv.few
  rw [inv.gate.upParent_eq inv.few] at gate ⊢
  refine inv.advance (t := t) rfl (fun u => setThread_of_ne) awake (fun i => ?_)
    (Main.raised_wake ..) ((Main.bounded_wake ..).2 inv.bounded) ?_ ?_ round
  · rw [setThread_self]
    rcases loop with down | returned
    · simp [down]
    · simp [returned]
  · change Gate N _ (announcedCount (s.setThread t (Toggle.iterate N k)) + m)
    rw [count]
    exact ⟨gate.serves, gate.passed⟩
  · change ∀ u, (s.setThread t _).thread u = _ ↔ s.main.wake.created T ≤ u.val
    rw [Main.created_wake]
    refine unborn_setThread inv.unborn born ?_
    rcases loop with down | returned
    · simp [down]
    · simp [returned]

theorem Inv.announce (inv : Inv N s downs n) (at_ : s.thread t = .announce) :
    Inv N (s.upParent.setThread t (Toggle.iterate N 0)) downs n := by
  have new := Justprint.iterate_idle N 0
  refine inv.upParent (by simp [at_]) (by simp [at_]) ?_ (inv.round.setThread (by rw [at_]; rfl) new.2)
  rw [announcedCount_new new.1 (by rw [at_]; rfl)]
  omega

theorem Inv.finish (inv : Inv N s downs n) {i : ℕ} (at_ : s.thread t = .up i) :
    Inv N (s.upParent.setThread t (Toggle.iterate N (i + 1))) downs (n + 1) := by
  have new := Justprint.iterate_idle N (i + 1)
  obtain ⟨turn, first, idle, stage⟩ := inv.round.cases_active (t := t) (by rw [at_]; rfl)
  have printed : s.printed = downs.take (n + 1) := by
    rcases stage with ⟨⟨k, woken | print⟩, -⟩ | ⟨-, printed⟩
    · cases at_.symm.trans woken
    · cases at_.symm.trans print
    · exact printed
  have served : n + 1 ≤ downs.length := (List.getElem?_eq_some_iff.1 first).1
  refine inv.upParent (by simp [at_]) (by simp [at_]) ?_
    (.quiet (fun u => ?_) printed served (.inl turn))
  · rw [announcedCount_same (by rw [at_, new.1]; rfl)]
    omega
  · by_cases here : u = t
    · rw [here, setThread_self, new.2]
    · rw [setThread_of_ne here]
      exact idle u here

theorem Inv.wake (inv : Inv N s downs n) {i : ℕ} (at_ : s.thread t = .woken i) :
    Inv N (s.setThread t (.print i)) downs n := by
  obtain ⟨turn, first, idle, stage⟩ := inv.round.cases_active (t := t) (by rw [at_]; rfl)
  have printed : s.printed = downs.take n := by
    rcases stage with ⟨-, printed⟩ | ⟨⟨k, up⟩, -⟩
    · exact printed
    · cases at_.symm.trans up
  refine inv.advance (t := t) rfl (fun u => setThread_of_ne) (by simp [at_])
    (by simp [setThread_self]) rfl inv.bounded
    (inv.gate_same rfl rfl (announcedCount_same (by rw [at_]; rfl)))
    (unborn_setThread inv.unborn (by simp [at_]) (by simp))
    (.granted t turn first ⟨i, .inr setThread_self⟩ (fun u here => ?_) printed)
  rw [setThread_of_ne here]
  exact idle u here

theorem Inv.print (inv : Inv N s downs n) {i : ℕ} (at_ : s.thread t = .print i) :
    Inv N ({ s with printed := s.printed ++ [t] }.setThread t (.up i)) downs n := by
  obtain ⟨turn, first, idle, stage⟩ := inv.round.cases_active (t := t) (by rw [at_]; rfl)
  have printed : s.printed ++ [t] = downs.take (n + 1) := by
    rcases stage with ⟨-, printed⟩ | ⟨⟨k, up⟩, -⟩
    · rw [printed, List.take_add_one, first, Option.toList_some]
    · cases at_.symm.trans up
  refine inv.advance (t := t) rfl (fun u => setThread_of_ne) (by simp [at_])
    (by simp [setThread_self]) rfl inv.bounded
    (inv.gate_same rfl rfl (announcedCount_same (s := s) (by rw [at_]; rfl)))
    (unborn_setThread inv.unborn (by simp [at_]) (by simp))
    (.printed t turn first ⟨i, setThread_self⟩ (fun u here => ?_) printed)
  rw [setThread_of_ne here]
  exact idle u here

/-- `SSU_Sem_down(&child)` when it is not the turn of `t` yet. -/
theorem Inv.wait (inv : Inv N s downs n) {i : ℕ} (at_ : s.thread t = .down i)
    (waits : s.main.raised N T ≤ downs.length) :
    Inv N ({ s with child := (s.child.down t).1 }.setThread t (.asleep i)) (downs ++ [t]) n := by
  have queue : (downs ++ [t]).drop (s.main.raised N T) = downs.drop (s.main.raised N T) ++ [t] :=
    List.drop_append_of_le_length waits
  have absent : t ∉ downs.drop (s.main.raised N T) := by
    rw [← inv.asleep t]
    simp [at_]
  have round := inv.round.setThread (t := t) (x := .asleep i) (by rw [at_]; rfl) rfl
  exact {
    threads := inv.threads
    gate := inv.gate_same rfl rfl (announcedCount_same (s := s) (by rw [at_]; rfl))
    child := inv.child.down inv.childRange t
    bounded := inv.bounded
    unborn := unborn_setThread inv.unborn (by simp [at_]) (by simp)
    asleep := fun u => by
      change (∃ k, (s.setThread t (.asleep i)).thread u = .asleep k) ↔
        u ∈ (downs ++ [t]).drop (s.main.raised N T)
      rw [queue]
      by_cases here : u = t
      · subst here
        rw [setThread_self]
        simp
      · rw [setThread_of_ne here, inv.asleep u]
        simp [here]
    nodup := by
      change ((downs ++ [t]).drop (s.main.raised N T)).Nodup
      rw [queue]
      exact inv.nodup.append (by simp) (by simpa using absent)
    round := round.append t waits }

/-- `SSU_Sem_down(&child)` after the call of `SSU_Sem_up(&child)` that is meant for `t`. -/
theorem Inv.pass (inv : Inv N s downs n) {i : ℕ} (at_ : s.thread t = .down i)
    (passes : downs.length < s.main.raised N T) :
    Inv N ({ s with child := (s.child.down t).1 }.setThread t (.print i)) (downs ++ [t]) n := by
  have queue : (downs ++ [t]).drop (s.main.raised N T) = [] :=
    List.drop_eq_nil_of_le (by simp; omega)
  have empty : downs.drop (s.main.raised N T) = [] := List.drop_eq_nil_of_le passes.le
  have inactive : (s.thread t).active = false := by rw [at_]; rfl
  obtain ⟨all, turn, idle, printed⟩ := inv.round.spare passes
  exact {
    threads := inv.threads
    gate := inv.gate_same rfl rfl (announcedCount_same (s := s) (by rw [at_]; rfl))
    child := inv.child.down inv.childRange t
    bounded := inv.bounded
    unborn := unborn_setThread inv.unborn (by simp [at_]) (by simp)
    asleep := fun u => by
      change (∃ k, (s.setThread t (.print i)).thread u = .asleep k) ↔
        u ∈ (downs ++ [t]).drop (s.main.raised N T)
      rw [queue]
      have awake := inv.asleep u
      rw [empty] at awake
      by_cases here : u = t
      · subst here
        rw [setThread_self]
        simp
      · rw [setThread_of_ne here]
        exact awake
    nodup := by
      change ((downs ++ [t]).drop (s.main.raised N T)).Nodup
      rw [queue]
      exact .nil
    round := by
      refine .granted t turn ?_ ⟨i, .inr setThread_self⟩ (fun u here => ?_) ?_
      · rw [List.getElem?_append_right all.le, all]
        simp
      · exact (congrArg Justprint.active (setThread_of_ne here)).trans (idle u)
      · rw [List.take_append_of_le_length all.ge]
        exact printed }

theorem Inv.stepThread (inv : Inv N s downs n) (taken : s.stepThread N t = some s') :
    ∃ m, Inv N s' (downs ++ (Toggle.takes ⟨s, .thread t, s'⟩).toList) m := by
  unfold Toggle.stepThread at taken
  unfold Toggle.takes
  cases at_ : s.thread t with
  | down i =>
    simp only [at_] at taken ⊢
    cases taken
    have waits := inv.child.waits_iff inv.childRange t
    refine ⟨n, ?_⟩
    split_ifs with asleep
    · exact inv.wait at_ (waits.1 asleep)
    · exact inv.pass at_ (not_le.1 fun le => asleep (waits.2 le))
  | announce =>
    simp only [at_, Option.toList_none, List.append_nil] at taken ⊢
    cases taken
    exact ⟨n, inv.announce at_⟩
  | woken i =>
    simp only [at_, Option.toList_none, List.append_nil] at taken ⊢
    cases taken
    exact ⟨n, inv.wake at_⟩
  | print i =>
    simp only [at_, Option.toList_none, List.append_nil] at taken ⊢
    cases taken
    exact ⟨n, inv.print at_⟩
  | up i =>
    simp only [at_, Option.toList_none, List.append_nil] at taken ⊢
    cases taken
    exact ⟨n + 1, inv.finish at_⟩
  | unborn => simp [at_] at taken
  | asleep i => simp [at_] at taken
  | returned => simp [at_] at taken

end Thread

/-! ## Runs -/

theorem inv_of_run (threads : T ≤ 2147483647) {l : List (Event (Toggle T) (ToggleLabel T))}
    (run : Run (Toggle.Step N) .initial l s) : ∃ n, Inv N s (Toggle.downs l) n := by
  refine run.history (I := fun l s => ∃ n, Inv N s (Toggle.downs l) n)
    ⟨0, inv_initial N threads⟩ ?_
  rintro l x a y ⟨n, inv⟩ taken
  rw [Toggle.downs_snoc]
  cases a with
  | main =>
    refine ⟨n, ?_⟩
    simpa [Toggle.takes] using inv.stepMain taken
  | thread t => exact inv.stepThread taken

/-- The lines are printed in the order in which the threads call `SSU_Sem_down(&child)`. -/
theorem Inv.printed_prefix (inv : Inv N s downs n) : s.printed <+: downs := by
  cases inv.round with
  | quiet idle printed served turn => exact printed ▸ List.take_prefix ..
  | granted t turn first inside idle printed => exact printed ▸ List.take_prefix ..
  | printed t turn first inside idle printed => exact printed ▸ List.take_prefix ..

/-- When all threads have returned, every call has had its line. -/
theorem Inv.printed_eq (inv : Inv N s downs n) (returned : ∀ t, s.thread t = .returned) :
    s.printed = downs := by
  have none_asleep : downs.drop (s.main.raised N T) = [] := by
    refine List.eq_nil_iff_forall_not_mem.2 fun t mem => ?_
    obtain ⟨i, asleep⟩ := (inv.asleep t).2 mem
    cases (returned t).symm.trans asleep
  have served := List.drop_eq_nil_iff.1 none_asleep
  cases inv.round with
  | quiet idle printed _ turn =>
    rw [printed]
    exact List.take_of_length_le (by omega)
  | granted t turn first inside =>
    obtain ⟨i, woken | print⟩ := inside
    · cases (returned t).symm.trans woken
    · cases (returned t).symm.trans print
  | printed t turn first inside =>
    obtain ⟨i, up⟩ := inside
    cases (returned t).symm.trans up

/-- The `k`-th entry is the thread `k` modulo the number of threads. -/
def RoundRobin (l : List (Fin T)) : Prop := ∀ k t, l[k]? = some t → t.val = k % T

/-- For any number of threads that is an `int` and any number of iterations: at every moment of
every run the lines are printed in turn if the calls of `SSU_Sem_down(&child)` take the mutex in
turn, and in a run that is over they are printed in turn exactly if the calls do. -/
theorem roundRobin_iff_downs (threads : T ≤ 2147483647)
    {l : List (Event (Toggle T) (ToggleLabel T))} (run : Run (Toggle.Step N) .initial l s) :
    ((∀ t, s.thread t = .returned) → (RoundRobin s.printed ↔ RoundRobin (Toggle.downs l))) ∧
      (RoundRobin (Toggle.downs l) → RoundRobin s.printed) := by
  obtain ⟨n, inv⟩ := inv_of_run threads run
  refine ⟨fun returned => by rw [inv.printed_eq returned], fun turns k t line => turns k t ?_⟩
  obtain ⟨rest, downs⟩ := inv.printed_prefix
  rw [← downs, List.getElem?_append_left (List.getElem?_eq_some_iff.1 line).1]
  exact line

/-- A thread makes `k` steps. -/
def moves (t : Fin T) (k : ℕ) : List (ToggleLabel T) := List.replicate k (.thread t)

def mainMoves (k : ℕ) : List (ToggleLabel T) := List.replicate k .main

/-- The events of two threads with one iteration each, where each thread reaches
`SSU_Sem_down(&child)` before `main` goes on. -/
theorem roundRobin_iff_downs_two :
    ∃ l s, Run (Toggle.Step 1) (.initial : Toggle 2) l s ∧ (∀ t, s.thread t = .returned) ∧
      s.printed = [⟨0, by decide⟩, ⟨1, by decide⟩] ∧ RoundRobin s.printed := by
  obtain ⟨l, s, run, returned, printed, turns⟩ := exists_run_of_replay (Toggle.step 1)
    (.initial : Toggle 2)
    (mainMoves 1 ++ moves ⟨0, by decide⟩ 2 ++ mainMoves 2 ++ moves ⟨1, by decide⟩ 2 ++ mainMoves 3 ++
      moves ⟨0, by decide⟩ 3 ++ mainMoves 2 ++ moves ⟨1, by decide⟩ 3)
    (P := fun r => (∀ t, r.2.thread t = .returned) ∧
      r.2.printed = [⟨0, by decide⟩, ⟨1, by decide⟩] ∧
      Toggle.downs r.1 = [⟨0, by decide⟩, ⟨1, by decide⟩]) (by decide +kernel)
  refine ⟨l, s, run, returned, printed,
    ((roundRobin_iff_downs (by decide) run).1 returned).2 fun k t line => ?_⟩
  rw [turns] at line
  rcases k with _ | _ | k
  · cases line
    rfl
  · cases line
    rfl
  · cases line

/-- The program itself, with three threads and ten iterations: the second thread calls
`SSU_Sem_down(&child)` first and prints the first line. -/
theorem not_roundRobin_overtaken :
    ∃ l s, Run (Toggle.Step 10) (.initial : Toggle 3) l s ∧ ¬ RoundRobin s.printed := by
  obtain ⟨l, s, run, printed⟩ := exists_run_of_replay (Toggle.step 10) (.initial : Toggle 3)
    (mainMoves 1 ++ moves ⟨0, by decide⟩ 1 ++ mainMoves 2 ++ moves ⟨1, by decide⟩ 2 ++
      moves ⟨0, by decide⟩ 1 ++ mainMoves 2 ++ moves ⟨2, by decide⟩ 2 ++ mainMoves 3 ++
      moves ⟨1, by decide⟩ 2)
    (P := fun r => r.2.printed = [⟨1, by decide⟩]) (by decide +kernel)
  refine ⟨l, s, run, fun turns => ?_⟩
  have first := turns 0 ⟨1, by decide⟩ (by rw [printed]; rfl)
  exact absurd first (by decide)

end SsuOs.Semaphore
