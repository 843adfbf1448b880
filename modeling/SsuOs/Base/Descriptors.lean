import Mathlib.Data.List.Basic
import Mathlib.Data.List.GetD
import Mathlib.Tactic.Common

/-!
# Descriptor tables

The open descriptors of a process, and the calls of the operating system that change them. A new
descriptor is the lowest one that is closed, and there is always one: the table has no upper limit.
-/

namespace SsuOs.Descriptors

/-- The entries of a table in order; behind them all descriptors are closed. -/
structure Table (F : Type*) where
  entries : List (Option F)
  deriving DecidableEq

namespace Table

variable {F G : Type*}

/-- What a descriptor refers to, or `none` if it is closed. -/
def get (t : Table F) (fd : ℕ) : Option F := t.entries.getD fd none

/-- The table with another entry for `fd`. -/
def put (t : Table F) (fd : ℕ) (entry : Option F) : Table F :=
  ⟨(t.entries ++ List.replicate (fd + 1 - t.entries.length) none).set fd entry⟩

/-- The lowest descriptor that is closed. -/
def lowest (t : Table F) : ℕ := t.entries.findIdx Option.isNone

/-- Some descriptor refers to `f`. -/
def Holds (t : Table F) (f : F) : Prop := some f ∈ t.entries

instance [DecidableEq F] (t : Table F) (f : F) : Decidable (t.Holds f) :=
  inferInstanceAs (Decidable (_ ∈ _))

/-- `close`; it fails without effect if the descriptor is closed. -/
def close (t : Table F) (fd : ℕ) : Table F := t.put fd none

/-- `dup2`; it fails without effect if the first descriptor is closed. -/
def dup2 (t : Table F) (oldfd newfd : ℕ) : Table F :=
  match t.get oldfd with
  | some f => t.put newfd (some f)
  | none => t

/-- `pipe`: the table, and the descriptors of the read end and of the write end. -/
def pipe (t : Table F) (readEnd writeEnd : F) : Table F × ℕ × ℕ :=
  let opened := t.put t.lowest (some readEnd)
  (opened.put opened.lowest (some writeEnd), t.lowest, opened.lowest)

/-- The table with other names for the files. -/
def map (f : F → G) (t : Table F) : Table G := ⟨t.entries.map (Option.map f)⟩

@[simp] theorem get_nil (fd : ℕ) : get (⟨[]⟩ : Table F) fd = none := by
  simp [get]

@[simp] theorem get_map (f : F → G) (t : Table F) (fd : ℕ) :
    (t.map f).get fd = (t.get fd).map f := by
  rw [get, map, List.getD_eq_getElem?_getD, List.getElem?_map, get, List.getD_eq_getElem?_getD]
  cases t.entries[fd]? <;> rfl

theorem get_put (t : Table F) (fd : ℕ) (entry : Option F) (k : ℕ) :
    (t.put fd entry).get k = if k = fd then entry else t.get k := by
  simp only [get, put, List.getD_eq_getElem?_getD, List.getElem?_set]
  by_cases same : k = fd
  · have inside : fd < (t.entries ++ List.replicate (fd + 1 - t.entries.length) none).length := by
      simp only [List.length_append, List.length_replicate]
      omega
    rw [if_pos same.symm, if_pos inside, if_pos same]
    rfl
  · rw [if_neg (Ne.symm same), if_neg same, List.getElem?_append]
    split_ifs with old
    · rfl
    -- beyond the old entries there is padding or nothing
    · rw [List.getElem?_eq_none (Nat.not_lt.1 old), List.getElem?_replicate]
      split_ifs <;> rfl

theorem get_close (t : Table F) (fd k : ℕ) :
    (t.close fd).get k = if k = fd then none else t.get k :=
  get_put t fd none k

theorem get_dup2 {t : Table F} {oldfd : ℕ} {f : F} (opened : t.get oldfd = some f)
    (newfd k : ℕ) : (t.dup2 oldfd newfd).get k = if k = newfd then some f else t.get k := by
  rw [dup2, opened]
  exact get_put t newfd (some f) k

theorem get_lowest (t : Table F) : t.get t.lowest = none := by
  rw [get, lowest, List.getD_eq_getElem?_getD]
  by_cases inside : t.entries.findIdx Option.isNone < t.entries.length
  · have found := List.findIdx_getElem (w := inside)
    rw [List.getElem?_eq_getElem inside, Option.getD_some]
    exact Option.isNone_iff_eq_none.1 found
  · rw [List.getElem?_eq_none (Nat.not_lt.1 inside)]
    rfl

theorem get_of_lt_lowest {t : Table F} {k : ℕ} (below : k < t.lowest) : t.get k ≠ none := by
  have inside : k < t.entries.length := Nat.lt_of_lt_of_le below List.findIdx_le_length
  have skipped := List.not_of_lt_findIdx below
  rw [get, List.getD_eq_getElem _ _ inside]
  simpa [← Option.isSome_iff_ne_none] using skipped

/-- The lowest closed descriptor is the one below which all are open. -/
theorem lowest_eq {t : Table F} {k : ℕ} (closed : t.get k = none)
    (below : ∀ j < k, t.get j ≠ none) : t.lowest = k := by
  apply Nat.le_antisymm
  · by_contra above
    exact get_of_lt_lowest (Nat.not_le.1 above) closed
  · by_contra above
    exact below _ (Nat.not_le.1 above) t.get_lowest

theorem holds_iff {t : Table F} {f : F} : t.Holds f ↔ ∃ fd, t.get fd = some f := by
  rw [Holds, List.mem_iff_getElem?]
  refine exists_congr fun fd => ?_
  rw [get, List.getD_eq_getElem?_getD]
  cases t.entries[fd]? with
  | none => simp
  | some entry => simp

/-- A pipe takes a closed descriptor for each end, the lowest one for the read end. -/
theorem get_pipe (t : Table F) (readEnd writeEnd : F) {opened : Table F} {r w : ℕ}
    (pipes : t.pipe readEnd writeEnd = (opened, r, w)) :
    r = t.lowest ∧ t.get w = none ∧ w ≠ r ∧ ∀ k, opened.get k =
      if k = w then some writeEnd else if k = r then some readEnd else t.get k := by
  simp only [pipe, Prod.mk.injEq] at pipes
  obtain ⟨rfl, rfl, lowest⟩ := pipes
  have closed := get_lowest (t.put t.lowest (some readEnd))
  rw [lowest, get_put] at closed
  split_ifs at closed with same
  refine ⟨rfl, closed, same, fun k => ?_⟩
  rw [lowest, get_put, get_put]

end Table

end SsuOs.Descriptors
