import Mathlib.Logic.Function.Basic
import Mathlib.Tactic.Common

/-!
# Redo logs

A redo log lists the places to be overwritten and holds a copy of the new contents of each. `redo`
is the store that the log stands for: the contents of the copies at the places that it lists, the
store's own contents elsewhere. Installing copies, in any number and any number of times, does not
change what the log stands for.
-/

namespace SsuOs

variable {ι β : Type*} [DecidableEq ι] {home : List ι} {copy : ℕ → β} {d : ι → β}

/-- The store that `d` and the log with the places `home` and the contents `copy` stand for. -/
def redo (home : List ι) (copy : ℕ → β) (d : ι → β) : ι → β :=
  fun b => if b ∈ home then copy (home.idxOf b) else d b

@[simp] theorem redo_nil : redo [] copy d = d := by
  funext b
  simp [redo]

theorem redo_of_not_mem {b : ι} (absent : b ∉ home) : redo home copy d b = d b := if_neg absent

/-- The log stands for `c` at a place as soon as the copies are `c`'s contents, and the store has
them at the places that are not listed. -/
theorem redo_eq {c : ι → β} {b : ι} (copied : ∀ i (below : i < home.length), copy i = c home[i])
    (others : b ∉ home → d b = c b) : redo home copy d b = c b := by
  by_cases listed : b ∈ home
  · rw [redo, if_pos listed, copied _ (List.idxOf_lt_length_of_mem listed)]
    congr 1
    exact List.getElem_idxOf _
  · rw [redo_of_not_mem listed, others listed]

/-- The store's own contents at a listed place do not matter, so that a copy may be installed. -/
theorem redo_update {p : ι} (listed : p ∈ home) (v : β) :
    redo home copy (Function.update d p v) = redo home copy d := by
  funext b
  by_cases here : b ∈ home
  · rw [redo, redo, if_pos here, if_pos here]
  · have other : b ≠ p := fun same => here (same ▸ listed)
    rw [redo_of_not_mem here, redo_of_not_mem here, Function.update_of_ne other]

/-- Once all copies are installed the log is not needed any more. -/
theorem redo_of_installed (installed : ∀ i (below : i < home.length), d home[i] = copy i) :
    redo home copy d = d :=
  funext fun _ => redo_eq (fun i below => (installed i below).symm) fun _ => rfl

/-- What the log stands for depends on the copies that it lists and on the store elsewhere. -/
theorem redo_congr {copy' : ℕ → β} {d' : ι → β} {b : ι} (copies : ∀ i < home.length, copy' i = copy i)
    (same : d' b = d b) : redo home copy' d' b = redo home copy d b := by
  by_cases listed : b ∈ home
  · rw [redo, redo, if_pos listed, if_pos listed, copies _ (List.idxOf_lt_length_of_mem listed)]
  · rw [redo_of_not_mem listed, redo_of_not_mem listed, same]

end SsuOs
