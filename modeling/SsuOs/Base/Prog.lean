import Mathlib.Tactic.Common

/-!
# Programs with a state that may fail

Imperative code over a state `σ` that may stop with a fault is a function from states to a
result and a new state, or to the fault. This file has the rules that run such programs
symbolically, and a notion of simulation between the programs of two state types: every outcome
of the abstract program is an outcome of the concrete one, except where the abstract program gives
up with a fault it declares `lost`.
-/

namespace SsuOs

/-- A program over states `σ` with faults `ε`. -/
abbrev Prog (σ ε α : Type) := StateT σ (Except ε) α

namespace Prog

variable {σ τ ε α β ι : Type}

/-- Stop with the fault `e` unless `p` holds. -/
def check (e : ε) (p : Prop) [Decidable p] : Prog σ ε Unit :=
  if p then pure () else throw e

/-! ## Running programs -/

@[simp] theorem pure_apply (a : α) (s : σ) : (pure a : Prog σ ε α) s = .ok (a, s) := rfl

@[simp] theorem throw_apply (e : ε) (s : σ) : (throw e : Prog σ ε α) s = .error e := rfl

theorem check_pass {e : ε} {p : Prop} [Decidable p] (holds : p) (s : σ) :
    (check e p : Prog σ ε Unit) s = .ok ((), s) := by
  rw [check, if_pos holds, pure_apply]

theorem check_fail {e : ε} {p : Prop} [Decidable p] (fails : ¬ p) (s : σ) :
    (check e p : Prog σ ε Unit) s = .error e := by
  rw [check, if_neg fails, throw_apply]

theorem bind_ok {x : Prog σ ε α} {f : α → Prog σ ε β} {s s' : σ} {a : α}
    (first : x s = .ok (a, s')) : (x >>= f) s = f a s' := by
  change (x s >>= fun r => f r.1 r.2) = _
  rw [first]
  rfl

theorem bind_error {x : Prog σ ε α} {f : α → Prog σ ε β} {s : σ} {e : ε}
    (first : x s = .error e) : (x >>= f) s = .error e := by
  change (x s >>= fun r => f r.1 r.2) = _
  rw [first]
  rfl

/-- A sequence that returns is two programs that return, one after the other. -/
theorem bind_eq_ok {x : Prog σ ε α} {f : α → Prog σ ε β} {s : σ} {r : β × σ}
    (returns : (x >>= f) s = .ok r) : ∃ a s', x s = .ok (a, s') ∧ f a s' = .ok r := by
  cases first : x s with
  | error e =>
    rw [bind_error first] at returns
    cases returns
  | ok q =>
    rw [bind_ok first] at returns
    exact ⟨q.1, q.2, rfl, returns⟩

theorem ite_apply (p : Prop) [Decidable p] (x y : Prog σ ε α) (s : σ) :
    (if p then x else y) s = if p then x s else y s := by
  split_ifs <;> rfl

theorem map_ok {x : Prog σ ε α} {s s' : σ} {a : α} (f : α → β) (runs : x s = .ok (a, s')) :
    (f <$> x) s = .ok (f a, s') := by
  change (x s >>= fun r => pure (f r.1, r.2)) = _
  rw [runs]
  rfl

theorem map_eq_ok {f : α → β} {x : Prog σ ε α} {s s' : σ} {b : β}
    (returns : (f <$> x) s = .ok (b, s')) : ∃ a, x s = .ok (a, s') ∧ f a = b := by
  cases runs : x s with
  | error e =>
    change (x s >>= fun r => pure (f r.1, r.2)) = _ at returns
    rw [runs] at returns
    cases returns
  | ok r =>
    rw [map_ok f runs] at returns
    cases returns
    exact ⟨r.1, rfl, rfl⟩

theorem map_ite (f : α → β) (p : Prop) [Decidable p] (x y : Prog σ ε α) :
    f <$> (if p then x else y) = if p then f <$> x else f <$> y :=
  apply_ite (f <$> ·) p x y

/-! ## Postconditions -/

/-- Started in `s`, `x` ends in `Q` or stops with one of the faults `allowed`. -/
def Ensures (allowed : ε → Prop) (x : Prog σ ε α) (s : σ) (Q : α → σ → Prop) : Prop :=
  match x s with
  | .ok (a, s') => Q a s'
  | .error e => allowed e

namespace Ensures

variable {allowed : ε → Prop} {x : Prog σ ε α} {s : σ} {Q : α → σ → Prop}

theorem of_ok {a : α} {s' : σ} (runs : x s = .ok (a, s')) (post : Q a s') :
    Ensures allowed x s Q := by
  rw [Ensures, runs]
  exact post

theorem of_error {e : ε} (stops : x s = .error e) (fine : allowed e) : Ensures allowed x s Q := by
  rw [Ensures, stops]
  exact fine

/-- Code that does what `y` does started in `t`. -/
theorem of_eq {y : Prog σ ε α} {t : σ} (same : x s = y t) (ensures : Ensures allowed y t Q) :
    Ensures allowed x s Q := by
  rw [Ensures, same]
  exact ensures

/-- Of code about which nothing is known, in a place where it may also stop. -/
theorem of_forall (fine : ∀ e, allowed e) (post : ∀ a s', Q a s') : Ensures allowed x s Q := by
  cases runs : x s with
  | error e => exact of_error runs (fine e)
  | ok r => exact of_ok runs (post _ _)

theorem pure {a : α} (post : Q a s) : Ensures allowed (pure a) s Q := post

theorem bind {f : α → Prog σ ε β} {R : β → σ → Prop}
    (first : Ensures allowed x s fun a s' => Ensures allowed (f a) s' R) :
    Ensures allowed (x >>= f) s R := by
  unfold Ensures at first
  cases runs : x s with
  | error e =>
    rw [runs] at first
    exact of_error (bind_error runs) first
  | ok r =>
    rw [runs] at first
    rw [Ensures, bind_ok runs]
    exact first

theorem imp {R : α → σ → Prop} (ensures : Ensures allowed x s Q)
    (weaker : ∀ a s', Q a s' → R a s') : Ensures allowed x s R := by
  unfold Ensures at *
  split at ensures
  · exact weaker _ _ ensures
  · exact ensures

/-- A loop keeps what each of its rounds keeps. -/
theorem foldlM {f : β → ι → Prog σ ε β} {P : β → σ → Prop} {l : List ι}
    (round : ∀ b, ∀ i ∈ l, ∀ s, P b s → Ensures allowed (f b i) s P) {b : β} (start : P b s) :
    Ensures allowed (l.foldlM f b) s P := by
  induction l generalizing b s with
  | nil => exact start
  | cons i l ih =>
    rw [List.foldlM_cons]
    refine bind ((round b i List.mem_cons_self s start).imp fun b' s' kept => ?_)
    exact ih (fun b j member => round b j (List.mem_cons_of_mem _ member)) kept

/-- A program that has a postcondition returns or stops with a fault. -/
theorem returns (ensures : Ensures allowed x s Q) :
    (∃ e, x s = .error e ∧ allowed e) ∨ ∃ a s', x s = .ok (a, s') ∧ Q a s' := by
  unfold Ensures at ensures
  cases runs : x s with
  | error e =>
    rw [runs] at ensures
    exact .inl ⟨e, rfl, ensures⟩
  | ok r =>
    rw [runs] at ensures
    exact .inr ⟨r.1, r.2, rfl, ensures⟩

/-- The postcondition of a program that has returned. -/
theorem post {a : α} {s' : σ} (ensures : Ensures allowed x s Q) (runs : x s = .ok (a, s')) :
    Q a s' := by
  rwa [Ensures, runs] at ensures

end Ensures

/-! ## Invariants -/

/-- `P` still holds when `x` returns. -/
def Keeps (P : σ → Prop) (x : Prog σ ε α) : Prop :=
  ∀ s, P s → Ensures (fun _ => True) x s fun _ s' => P s'

namespace Keeps

variable {P : σ → Prop} {x : Prog σ ε α}

theorem pure (a : α) : Keeps P (pure a : Prog σ ε α) := fun _ kept => kept

theorem throw (e : ε) : Keeps P (throw e : Prog σ ε α) := fun _ _ => trivial

theorem bind {f : α → Prog σ ε β} (first : Keeps P x) (next : ∀ a, Keeps P (f a)) :
    Keeps P (x >>= f) :=
  fun s kept => .bind ((first s kept).imp fun a s' kept' => next a s' kept')

theorem ite {p : Prop} [Decidable p] {y : Prog σ ε α} (yes : Keeps P x) (no : Keeps P y) :
    Keeps P (if p then x else y) := by
  split_ifs
  · exact yes
  · exact no

theorem check (e : ε) (p : Prop) [Decidable p] : Keeps P (check e p : Prog σ ε Unit) :=
  ite (pure ()) (throw e)

theorem foldlM {f : β → ι → Prog σ ε β} (round : ∀ b i, Keeps P (f b i)) (l : List ι) (b : β) :
    Keeps P (l.foldlM f b) :=
  fun _ kept => Ensures.foldlM (fun b i _ s => round b i s) kept

theorem post {s s' : σ} {a : α} (keeps : Keeps P x) (kept : P s) (runs : x s = .ok (a, s')) : P s' :=
  (keeps s kept).post runs

end Keeps

/-! ## Simulation -/

/-- `x` does on related states what `y` does, where `y` does not stop with a `lost` fault. -/
def Simulates (R : σ → τ → Prop) (lost : ε → Prop) (x : Prog σ ε α) (y : Prog τ ε α) : Prop :=
  ∀ s t, R s t →
    match y t with
    | .ok (a, t') => ∃ s', x s = .ok (a, s') ∧ R s' t'
    | .error e => lost e ∨ x s = .error e

namespace Simulates

variable {R : σ → τ → Prop} {lost : ε → Prop}

theorem pure (a : α) : Simulates R lost (pure a : Prog σ ε α) (pure a : Prog τ ε α) :=
  fun s _ related => ⟨s, rfl, related⟩

theorem throw (e : ε) : Simulates R lost (throw e : Prog σ ε α) (throw e : Prog τ ε α) :=
  fun _ _ _ => .inr rfl

theorem bind {x : Prog σ ε α} {y : Prog τ ε α} {f : α → Prog σ ε β} {g : α → Prog τ ε β}
    (first : Simulates R lost x y) (next : ∀ a, Simulates R lost (f a) (g a)) :
    Simulates R lost (x >>= f) (y >>= g) := by
  intro s t related
  have head := first s t related
  cases abstract : y t with
  | error e =>
    rw [abstract] at head
    rw [bind_error abstract]
    exact head.imp_right bind_error
  | ok q =>
    obtain ⟨a, t'⟩ := q
    rw [abstract] at head
    obtain ⟨s', concrete, related'⟩ := head
    rw [bind_ok abstract, bind_ok concrete]
    exact next a s' t' related'

theorem ite {p : Prop} [Decidable p] {x x' : Prog σ ε α} {y y' : Prog τ ε α}
    (yes : p → Simulates R lost x y) (no : ¬ p → Simulates R lost x' y') :
    Simulates R lost (if p then x else x') (if p then y else y') := by
  by_cases holds : p
  · rw [if_pos holds, if_pos holds]
    exact yes holds
  · rw [if_neg holds, if_neg holds]
    exact no holds

theorem check (e : ε) (p : Prop) [Decidable p] :
    Simulates R lost (check e p : Prog σ ε Unit) (check e p : Prog τ ε Unit) :=
  ite (fun _ => pure ()) (fun _ => throw e)

/-- Loops that run the same steps over the same list. -/
theorem foldlM {f : β → ι → Prog σ ε β} {g : β → ι → Prog τ ε β}
    (step : ∀ b i, Simulates R lost (f b i) (g b i)) (l : List ι) (b : β) :
    Simulates R lost (l.foldlM f b) (l.foldlM g b) := by
  induction l generalizing b with
  | nil => exact pure b
  | cons i l ih =>
    rw [List.foldlM_cons, List.foldlM_cons]
    exact bind (step b i) ih

end Simulates

end Prog

end SsuOs
