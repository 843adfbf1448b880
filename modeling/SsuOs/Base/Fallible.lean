import SsuOs.Base.Run

/-!
# Computations that may fail

How a sequence of computations in `Except` came to return, read off its last result: the rules that
take such a sequence apart, one computation after the other.
-/

namespace SsuOs.Fallible

universe u v
variable {ε : Type u} {α β : Type v}

@[simp] theorem bind_eq_ok {x : Except ε α} {f : α → Except ε β} {b : β} :
    (x >>= f) = .ok b ↔ ∃ a, x = .ok a ∧ f a = .ok b := by
  cases x <;> simp [bind, Except.bind]

@[simp] theorem pure_eq_ok {a b : α} : (pure a : Except ε α) = .ok b ↔ a = b := by
  simp [pure, Except.pure]

theorem bind_eq_error {x : Except ε α} {f : α → Except ε β} {e : ε} :
    (x >>= f) = .error e ↔ x = .error e ∨ ∃ a, x = .ok a ∧ f a = .error e := by
  cases x <;> simp [bind, Except.bind]

theorem pure_ne_error {a : α} {e : ε} : (pure a : Except ε α) ≠ .error e := by
  simp [pure, Except.pure]

@[simp] theorem throw_ne_ok {e : ε} {a : α} : (throw e : Except ε α) ≠ .ok a := nofun

@[simp] theorem discard_eq_ok {x : Except ε α} {u : PUnit} :
    (discard x : Except ε PUnit) = .ok u ↔ ∃ a, x = .ok a := by
  cases x <;> simp [discard, Functor.discard, Functor.mapConst, Except.map]

/-- A check that was passed. -/
@[simp] theorem check_eq_ok {p : Prop} [Decidable p] {e : ε} {x : Except ε α} {a : α} :
    (if p then .error e else x) = .ok a ↔ ¬ p ∧ x = .ok a := by
  split <;> simp [*]

/-- The rule for a loop that counts up: rounds that keep the invariant and do not fail. -/
theorem foldlM_range {ε σ : Type*} {f : σ → ℕ → Except ε σ} {I : ℕ → σ → Prop} {n : ℕ} {s : σ}
    (start : I 0 s) (round : ∀ k < n, ∀ t, I k t → ∃ t', f t k = .ok t' ∧ I (k + 1) t') :
    ∃ t, (List.range n).foldlM f s = .ok t ∧ I n t := by
  induction n with
  | zero => exact ⟨s, rfl, start⟩
  | succ n ih =>
    obtain ⟨t, done, holds⟩ := ih fun k below => round k (by omega)
    obtain ⟨t', next, holds'⟩ := round n (by omega) t holds
    refine ⟨t', ?_, holds'⟩
    rw [List.range_succ, List.foldlM_append, done]
    simp only [bind, Except.bind, List.foldlM_cons, List.foldlM_nil, next]
    rfl

/-- The steps with some labels that do not fail are a run. -/
theorem exists_run {ε σ ℓ : Type*} (step : σ → ℓ → Except ε σ) (s : σ) (labels : List ℓ)
    {P : List (Event σ ℓ) × σ → Prop} [DecidablePred P]
    (meets : (replay (fun x a => (step x a).toOption) s labels).any fun r => decide (P r)) :
    ∃ l t, Run (fun x a y => step x a = .ok y) s l t ∧ P (l, t) := by
  obtain ⟨l, t, run, holds⟩ := exists_run_of_replay _ s labels meets
  refine ⟨l, t, run.mono fun x a y taken => ?_, holds⟩
  cases done : step x a with
  | error e => simp [done, Except.toOption] at taken
  | ok z => simpa [done, Except.toOption] using taken

end SsuOs.Fallible
