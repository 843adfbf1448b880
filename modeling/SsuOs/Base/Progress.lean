import SsuOs.Base.Run

/-!
# Runs that reach a goal

A system that can always take a step of some kind towards a goal, and measures how far it still is,
has a run of such steps to the goal.
-/

namespace SsuOs.Run

variable {σ ℓ : Type*} {step : σ → ℓ → σ → Prop}

theorem single {x y : σ} {a : ℓ} (taken : step x a y) : Run step x [⟨x, a, y⟩] y :=
  Run.nil.snoc taken

/-- If, as long as the goal `Q` is not reached, some step with a label in `C` keeps the invariant
`I` of history and state and comes nearer, then a run of such steps reaches `Q`. -/
theorem exists_of_measure {I : List (Event σ ℓ) → σ → Prop} {Q : σ → Prop} {C : ℓ → Prop}
    (far : σ → ℕ)
    (next : ∀ l x, I l x → ¬ Q x →
      ∃ a y, C a ∧ step x a y ∧ I (l ++ [⟨x, a, y⟩]) y ∧ far y < far x)
    {l : List (Event σ ℓ)} {x : σ} (inv : I l x) :
    ∃ l' y, Run step x l' y ∧ (∀ e ∈ l', C e.label) ∧ I (l ++ l') y ∧ Q y := by
  generalize bound : far x = n
  induction n using Nat.strongRecOn generalizing l x with
  | ind n ih =>
    by_cases goal : Q x
    · exact ⟨[], x, .nil, by simp, by simpa using inv, goal⟩
    · obtain ⟨a, y, kind, taken, inv', nearer⟩ := next l x inv goal
      obtain ⟨l', z, run, kinds, inv'', goal'⟩ := ih (far y) (bound ▸ nearer) inv' rfl
      refine ⟨⟨x, a, y⟩ :: l', z, (single taken).append run, ?_, ?_, goal'⟩
      · rw [List.forall_mem_cons]
        exact ⟨kind, kinds⟩
      · simpa using inv''

end SsuOs.Run
