import Mathlib.Data.List.Basic
import Mathlib.Data.List.Induction
import Mathlib.Tactic.Common

/-!
# Runs of labelled transition systems

A run is recorded as the list of its events, each with the state before the step, its label and
the state after it, so that a condition on steps and a property of states can be compared along
one run (`Run.forall_after_iff`).
-/

namespace SsuOs

/-- One step of a run. -/
structure Event (σ ℓ : Type*) where
  before : σ
  label : ℓ
  after : σ

/-- `Run step s l t`: the events `l` lead from `s` to `t`. -/
inductive Run {σ ℓ : Type*} (step : σ → ℓ → σ → Prop) (s : σ) : List (Event σ ℓ) → σ → Prop
  | nil : Run step s [] s
  | snoc {l : List (Event σ ℓ)} {t u : σ} {a : ℓ} :
      Run step s l t → step t a u → Run step s (l ++ [⟨t, a, u⟩]) u

/-- The states that some run from `s` ends in. -/
def Reachable {σ ℓ : Type*} (step : σ → ℓ → σ → Prop) (s t : σ) : Prop :=
  ∃ l : List (Event σ ℓ), Run step s l t

namespace Run

variable {σ ℓ : Type*} {step : σ → ℓ → σ → Prop} {s t : σ} {l : List (Event σ ℓ)}

/-- A property kept by every step holds at the end of every run. -/
theorem invariant {P : σ → Prop} (start : P s) (keeps : ∀ x a y, P x → step x a y → P y)
    (run : Run step s l t) : P t := by
  induction run with
  | nil => exact start
  | snoc _ taken ih => exact keeps _ _ _ ih taken

/-- A property kept by every step that meets `C` holds at the end of every run whose steps all
meet `C`. -/
theorem invariant_of_forall {P : σ → Prop} {C : Event σ ℓ → Prop} (start : P s)
    (keeps : ∀ x a y, P x → step x a y → C ⟨x, a, y⟩ → P y)
    (run : Run step s l t) (meets : ∀ e ∈ l, C e) : P t := by
  induction run with
  | nil => exact start
  | snoc _ taken ih =>
    have earlier := ih fun e he => meets e (List.mem_append_left _ he)
    exact keeps _ _ _ earlier taken (meets _ (by simp))

/-- If a step from a state with `I` has `G` exactly when it meets `C`, and steps that meet `C` keep
`I`, then all steps of a run have `G` exactly when all of them meet `C`. -/
theorem forall_iff_of_keeps {I : σ → Prop} {G C : Event σ ℓ → Prop} (start : I s)
    (keeps : ∀ x a y, I x → step x a y → C ⟨x, a, y⟩ → I y)
    (decides : ∀ x a y, I x → step x a y → (G ⟨x, a, y⟩ ↔ C ⟨x, a, y⟩))
    (run : Run step s l t) : (∀ e ∈ l, G e) ↔ ∀ e ∈ l, C e := by
  induction run with
  | nil => simp
  | @snoc l x y a earlier taken ih =>
    simp only [List.forall_mem_append, List.forall_mem_singleton]
    rw [ih]
    refine and_congr_right fun meets => ?_
    exact decides x a y (earlier.invariant_of_forall start keeps meets) taken

/-- If, under an invariant `I`, a step from a state with `P` ends in `P` exactly when it meets `C`,
then a run stays in `P` exactly when all its steps meet `C`. -/
theorem forall_after_iff {I P : σ → Prop} {C : Event σ ℓ → Prop} (startI : I s) (startP : P s)
    (keeps : ∀ x a y, I x → step x a y → I y)
    (decides : ∀ x a y, I x → P x → step x a y → (P y ↔ C ⟨x, a, y⟩))
    (run : Run step s l t) : (∀ e ∈ l, P e.after) ↔ ∀ e ∈ l, C e := by
  refine run.forall_iff_of_keeps (I := fun x => I x ∧ P x) (G := fun e => P e.after)
    ⟨startI, startP⟩ ?_ ?_
  · intro x a y inv taken meets
    exact ⟨keeps x a y inv.1 taken, (decides x a y inv.1 inv.2 taken).2 meets⟩
  · exact fun x a y inv taken => decides x a y inv.1 inv.2 taken

/-- An invariant of the history and the state together. -/
theorem history {I : List (Event σ ℓ) → σ → Prop} (start : I [] s)
    (keeps : ∀ l x a y, I l x → step x a y → I (l ++ [⟨x, a, y⟩]) y) (run : Run step s l t) :
    I l t := by
  induction run with
  | nil => exact start
  | snoc _ taken ih => exact keeps _ _ _ _ ih taken

/-- An invariant of the history and the state that is kept by the steps that meet `C`. -/
theorem history_of_forall {I : List (Event σ ℓ) → σ → Prop} {C : Event σ ℓ → Prop}
    (start : I [] s) (keeps : ∀ l x a y, I l x → step x a y → C ⟨x, a, y⟩ → I (l ++ [⟨x, a, y⟩]) y)
    (run : Run step s l t) (meets : ∀ e ∈ l, C e) : I l t := by
  induction run with
  | nil => exact start
  | snoc _ taken ih =>
    have earlier := ih fun e he => meets e (List.mem_append_left _ he)
    exact keeps _ _ _ _ earlier taken (meets _ (by simp))

/-- An invariant of the history and the state that is kept by the steps that meet `C` after the
history before them. -/
theorem history_of_take {I : List (Event σ ℓ) → σ → Prop} {C : List (Event σ ℓ) → Event σ ℓ → Prop}
    (start : I [] s) (keeps : ∀ l x a y, I l x → step x a y → C l ⟨x, a, y⟩ → I (l ++ [⟨x, a, y⟩]) y)
    (run : Run step s l t) (meets : ∀ i (below : i < l.length), C (l.take i) l[i]) : I l t := by
  induction run with
  | nil => exact start
  | @snoc l x y a _ taken ih =>
    apply keeps l x a y (ih ?_) taken
    · have last := meets l.length (by simp)
      rwa [List.take_left, List.getElem_concat_length rfl] at last
    · intro i below
      have earlier := meets i (by simp; omega)
      rwa [List.take_append_of_le_length (Nat.le_of_lt below),
        List.getElem_append_left below] at earlier

/-- If a step after a history with `I` has `G` exactly when it is related to all earlier steps, and
such steps keep `I`, then all steps of a run have `G` exactly when each is related to those before
it. -/
theorem forall_iff_pairwise {I : List (Event σ ℓ) → σ → Prop} {G : Event σ ℓ → Prop}
    {R : Event σ ℓ → Event σ ℓ → Prop} (start : I [] s)
    (keeps : ∀ l x a y, I l x → step x a y → (∀ e ∈ l, R e ⟨x, a, y⟩) → I (l ++ [⟨x, a, y⟩]) y)
    (decides : ∀ l x a y, I l x → step x a y → (G ⟨x, a, y⟩ ↔ ∀ e ∈ l, R e ⟨x, a, y⟩))
    (run : Run step s l t) : (∀ e ∈ l, G e) ↔ l.Pairwise R := by
  have kept {l : List (Event σ ℓ)} {t : σ} (run : Run step s l t) (related : l.Pairwise R) :
      I l t := by
    induction run with
    | nil => exact start
    | snoc _ taken ih =>
      obtain ⟨earlier, -, last⟩ := List.pairwise_append.1 related
      exact keeps _ _ _ _ (ih earlier) taken fun e mem => last e mem _ List.mem_cons_self
  induction run with
  | nil => simp
  | @snoc l x y a earlier taken ih =>
    rw [List.forall_mem_append, List.forall_mem_singleton, List.pairwise_append]
    simp only [List.pairwise_singleton, List.forall_mem_singleton, true_and]
    refine (and_congr_left' ih).trans (and_congr_right fun related => ?_)
    exact decides l x a y (kept earlier related) taken

/-- A run ends where its last event does. -/
theorem end_eq (run : Run step s l t) : t = (l.getLast?.map Event.after).getD s := by
  cases run <;> simp

/-- The state at the end of a run is determined by its events. -/
theorem unique {u : σ} (run : Run step s l t) (run' : Run step s l u) : t = u :=
  run.end_eq.trans run'.end_eq.symm

theorem snoc_inv {e : Event σ ℓ} (run : Run step s (l ++ [e]) t) :
    Run step s l e.before ∧ step e.before e.label e.after := by
  generalize events : l ++ [e] = l' at run
  cases run with
  | nil => simp at events
  | snoc earlier taken =>
    obtain ⟨rfl, last⟩ := List.append_inj' events rfl
    cases last
    exact ⟨earlier, taken⟩

/-- The run up to one of its events, and the step that this event records. -/
theorem split {l' : List (Event σ ℓ)} {e : Event σ ℓ} (run : Run step s (l ++ e :: l') t) :
    Run step s l e.before ∧ step e.before e.label e.after := by
  induction l' using List.reverseRecOn generalizing t with
  | nil => exact run.snoc_inv
  | append_singleton l' f ih =>
    rw [← List.cons_append, ← List.append_assoc] at run
    exact ih run.snoc_inv.1

/-- The events of a run up to some moment are a run. -/
theorem exists_of_prefix {l' : List (Event σ ℓ)} (run : Run step s l t) (earlier : l' <+: l) :
    ∃ x, Run step s l' x := by
  obtain ⟨rest, rfl⟩ := earlier
  cases rest with
  | nil => exact ⟨t, by rwa [List.append_nil] at run⟩
  | cons e rest => exact ⟨e.before, run.split.1⟩

/-- At every moment of a run, `P` holds of the events so far and of the state that they lead to. -/
def Always (step : σ → ℓ → σ → Prop) (s : σ) (l : List (Event σ ℓ))
    (P : List (Event σ ℓ) → σ → Prop) : Prop :=
  ∀ l' x, l' <+: l → Run step s l' x → P l' x

/-- If a step after a history with `I` ends in `P` exactly when it meets `C`, and steps that meet
`C` keep `I`, then `P` holds at every moment of a run exactly when all its steps meet `C`. -/
theorem always_iff {I P : List (Event σ ℓ) → σ → Prop} {C : Event σ ℓ → Prop} (start : I [] s)
    (startP : P [] s)
    (keeps : ∀ l x a y, I l x → step x a y → C ⟨x, a, y⟩ → I (l ++ [⟨x, a, y⟩]) y)
    (decides : ∀ l x a y, I l x → step x a y →
      (P (l ++ [⟨x, a, y⟩]) y ↔ C ⟨x, a, y⟩)) (run : Run step s l t) :
    Always step s l P ↔ ∀ e ∈ l, C e := by
  induction run with
  | nil =>
    simp only [List.not_mem_nil, false_imp_iff, implies_true, iff_true]
    intro l' x empty run'
    obtain rfl := List.prefix_nil.1 empty
    exact run'.unique .nil ▸ startP
  | @snoc l x y a earlier taken ih =>
    simp only [List.forall_mem_append, List.forall_mem_singleton]
    rw [← ih]
    constructor
    · intro always
      have before : Always step s l P := fun l' z below run' =>
        always l' z (below.trans (List.prefix_append ..)) run'
      refine ⟨before, ?_⟩
      have kept := earlier.history_of_forall start keeps (ih.1 before)
      exact (decides l x a y kept taken).1 (always _ y List.prefix_rfl (earlier.snoc taken))
    · rintro ⟨before, meets⟩ l' z below run'
      rcases List.prefix_concat_iff.1 below with rfl | shorter
      · have kept := earlier.history_of_forall start keeps (ih.1 before)
        obtain rfl := run'.unique (earlier.snoc taken)
        exact (decides l x a z kept taken).2 meets
      · exact before l' z shorter run'

theorem mono {step' : σ → ℓ → σ → Prop} (weaker : ∀ x a y, step x a y → step' x a y)
    (run : Run step s l t) : Run step' s l t := by
  induction run with
  | nil => exact .nil
  | snoc _ taken ih => exact ih.snoc (weaker _ _ _ taken)

/-- Every event of a run is one of its steps. -/
theorem step_of_mem (run : Run step s l t) : ∀ e ∈ l, step e.before e.label e.after := by
  induction run with
  | nil => simp
  | snoc _ taken ih =>
    simp only [List.forall_mem_append, List.forall_mem_singleton]
    exact ⟨ih, taken⟩

/-- A run that goes on where another one ends. -/
theorem append {l' : List (Event σ ℓ)} {u : σ} (run : Run step s l t) (run' : Run step t l' u) :
    Run step s (l ++ l') u := by
  induction run' with
  | nil => rwa [List.append_nil]
  | snoc _ taken ih =>
    rw [← List.append_assoc]
    exact ih.snoc taken

end Run

/-- The events of the steps with the labels `labels`, and the state that they lead to. -/
def replay {σ ℓ : Type*} (next : σ → ℓ → Option σ) (s : σ) (labels : List ℓ) :
    Option (List (Event σ ℓ) × σ) :=
  labels.foldlM (fun r a => (next r.2 a).map fun u => (r.1 ++ [⟨r.2, a, u⟩], u)) ([], s)

theorem run_of_replay {σ ℓ : Type*} {next : σ → ℓ → Option σ} {s t : σ} {labels : List ℓ}
    {l : List (Event σ ℓ)} (replays : replay next s labels = some (l, t)) :
    Run (fun x a y => next x a = some y) s l t := by
  induction labels using List.reverseRecOn generalizing l t with
  | nil =>
    cases replays
    exact .nil
  | append_singleton labels a ih =>
    rw [replay, List.foldlM_append] at replays
    obtain ⟨⟨l', x⟩, earlier, last⟩ := Option.bind_eq_some_iff.1 replays
    simp only [List.foldlM_cons, List.foldlM_nil, bind_pure, Option.map_eq_some_iff] at last
    obtain ⟨y, taken, ends⟩ := last
    cases ends
    exact (ih earlier).snoc taken

theorem exists_run_of_replay {σ ℓ : Type*} (next : σ → ℓ → Option σ) (s : σ) (labels : List ℓ)
    {P : List (Event σ ℓ) × σ → Prop} [DecidablePred P]
    (meets : (replay next s labels).any fun r => decide (P r)) :
    ∃ l t, Run (fun x a y => next x a = some y) s l t ∧ P (l, t) := by
  cases replays : replay next s labels with
  | none => simp [replays] at meets
  | some r =>
    obtain ⟨l, t⟩ := r
    rw [replays] at meets
    exact ⟨l, t, run_of_replay replays, of_decide_eq_true meets⟩

/-- The answers of a deterministic machine to a list of inputs, and its last state. -/
def answers {τ α β : Type*} (exec : τ → α → β × τ) (t : τ) (inputs : List α) : List β × τ :=
  inputs.foldl (fun r x => (r.1 ++ [(exec r.2 x).1], (exec r.2 x).2)) ([], t)

theorem answers_snoc {τ α β : Type*} (exec : τ → α → β × τ) (t : τ) (inputs : List α) (x : α) :
    answers exec t (inputs ++ [x]) =
      ((answers exec t inputs).1 ++ [(exec (answers exec t inputs).2 x).1],
        (exec (answers exec t inputs).2 x).2) := by
  rw [answers, List.foldl_append]
  rfl

/-- A system whose steps, each with an input and an answer, are simulated by a deterministic machine
gives the answers of that machine along every run. -/
theorem Run.answers_eq {σ τ α β : Type*} {step : σ → α × β → σ → Prop} {exec : τ → α → β × τ}
    {R : σ → τ → Prop} {s s' : σ} {t : τ} {l : List (Event σ (α × β))} (start : R s t)
    (simulates : ∀ x u e y, R x u → step x e y → e.2 = (exec u e.1).1 ∧ R y (exec u e.1).2)
    (run : Run step s l s') :
    l.map (fun e => e.label.2) = (answers exec t (l.map fun e => e.label.1)).1 ∧
      R s' (answers exec t (l.map fun e => e.label.1)).2 := by
  induction run with
  | nil => exact ⟨rfl, start⟩
  | snoc _ taken ih =>
    obtain ⟨answer, related⟩ := simulates _ _ _ _ ih.2 taken
    simp only [List.map_append, List.map_cons, List.map_nil, answers_snoc]
    exact ⟨by rw [ih.1, answer], related⟩

end SsuOs
