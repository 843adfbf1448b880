import Mathlib.Data.List.Basic
import Mathlib.Tactic.Common

/-!
# The fields of a text

The fields of a list are the maximal non-empty parts without a delimiter (`runs_iff`): the non-empty
pieces of its split.  All of them but the last are closed by a delimiter.  More delimiters split the
fields further (`fields_or`); when the first of the smaller parts are the same as the larger ones is
`take_flatten_eq_iff`.
-/

namespace SsuOs

variable {α β : Type*} {p q : α → Bool} {l w f : List α} {c : α}

/-! ## The pieces of a split -/

/-- There is one piece more than there are delimiters. -/
theorem length_splitOnP (p : α → Bool) (l : List α) : (l.splitOnP p).length = l.countP p + 1 := by
  induction l with
  | nil => rfl
  | cons x l ih =>
    rw [List.splitOnP_cons_eq_if_modifyHead, List.countP_cons]
    split_ifs
    · rw [List.length_cons, ih]
    · rw [List.length_modifyHead, ih]

/-- A piece has elements of the list that are no delimiters. -/
theorem of_mem_splitOnP (mem : f ∈ l.splitOnP p) : ∀ x ∈ f, x ∈ l ∧ p x = false := by
  induction l generalizing f with
  | nil =>
    obtain rfl : f = [] := by simpa using mem
    simp
  | cons a l ih =>
    have later {g : List α} (piece : g ∈ l.splitOnP p) : ∀ x ∈ g, x ∈ a :: l ∧ p x = false :=
      fun x hx => ⟨List.mem_cons_of_mem _ (ih piece x hx).1, (ih piece x hx).2⟩
    rw [List.splitOnP_cons_eq_if_modifyHead] at mem
    split_ifs at mem with delimiter
    · rcases List.mem_cons.1 mem with rfl | rest
      · simp
      · exact later rest
    · obtain ⟨g, rest, pieces⟩ := List.exists_cons_of_ne_nil (List.splitOnP_ne_nil p l)
      rw [pieces, List.modifyHead_cons] at mem
      rcases List.mem_cons.1 mem with rfl | mem
      · intro x hx
        rcases List.mem_cons.1 hx with rfl | hx
        · exact ⟨List.mem_cons_self, by simpa using delimiter⟩
        · exact later (pieces ▸ List.mem_cons_self) x hx
      · exact later (pieces ▸ List.mem_cons_of_mem _ mem)

/-- A list has no delimiter, or it is a part without one, a delimiter and the rest. -/
@[elab_as_elim] theorem split_induction (p : α → Bool) {motive : List α → Prop}
    (plain : ∀ w, (∀ x ∈ w, p x = false) → motive w)
    (cut : ∀ w c l, (∀ x ∈ w, p x = false) → p c → motive l → motive (w ++ c :: l)) (l : List α) :
    motive l := by
  suffices after : ∀ w : List α, (∀ x ∈ w, p x = false) → motive (w ++ l) from after [] (by simp)
  induction l with
  | nil =>
    intro w free
    rw [List.append_nil]
    exact plain w free
  | cons c l ih =>
    intro w free
    by_cases delimiter : p c
    · exact cut w c l free delimiter (ih [] (by simp))
    · rw [List.append_cons]
      exact ih (w ++ [c]) (by simpa [or_imp, forall_and, delimiter] using free)

/-! ## Fields -/

/-- The non-empty pieces between the elements with `p`. -/
def fields (p : α → Bool) (l : List α) : List (List α) := (l.splitOnP p).filter fun f => !f.isEmpty

theorem mem_fields : f ∈ fields p l ↔ f ∈ l.splitOnP p ∧ f ≠ [] := by
  simp [fields]

/-- A part without a delimiter is one field, unless it is empty. -/
theorem fields_eq_single (plain : ∀ x ∈ w, p x = false) :
    fields p w = [w].filter fun f => !f.isEmpty := by
  rw [fields, List.splitOnP_eq_singleton plain]

/-- The fields before a delimiter and those after it. -/
theorem fields_append_delimiter (l l' : List α) (delimiter : p c) :
    fields p (l ++ c :: l') = fields p l ++ fields p l' := by
  rw [fields, List.splitOnP_append_cons l l' delimiter, List.filter_append]
  rfl

/-- The first delimiter ends the first field, if there is one. -/
theorem fields_append_cons (plain : ∀ x ∈ w, p x = false) (delimiter : p c) :
    fields p (w ++ c :: l) = ([w].filter fun f => !f.isEmpty) ++ fields p l := by
  rw [fields_append_delimiter w l delimiter, fields_eq_single plain]

/-- The pieces are the fields and the empty pieces. -/
theorem length_fields [BEq α] [LawfulBEq α] (p : α → Bool) (l : List α) :
    (fields p l).length + (l.splitOnP p).count [] = l.countP p + 1 := by
  rw [← length_splitOnP, fields, ← List.countP_eq_length_filter, List.count,
    List.length_eq_countP_add_countP fun f : List α => !f.isEmpty]
  congr 1
  exact List.countP_congr fun f _ => by cases f <;> simp

/-- There is no field exactly when there are delimiters only. -/
theorem fields_eq_nil : fields p l = [] ↔ ∀ x ∈ l, p x := by
  induction l with
  | nil => simp [fields]
  | cons a l ih =>
    rw [fields, List.splitOnP_cons_eq_if_modifyHead]
    split_ifs with delimiter
    · simpa [delimiter, fields] using ih
    · obtain ⟨g, rest, pieces⟩ := List.exists_cons_of_ne_nil (List.splitOnP_ne_nil p l)
      simp [pieces, delimiter]

/-! ## Closed fields -/

/-- The fields that a delimiter follows. -/
def closedFields (p : α → Bool) (l : List α) : List (List α) :=
  (l.splitOnP p).dropLast.filter fun f => !f.isEmpty

/-- What comes after the last delimiter. -/
def openField (p : α → Bool) (l : List α) : List α :=
  (l.splitOnP p).getLast (List.splitOnP_ne_nil p l)

theorem closedFields_of_plain (plain : ∀ x ∈ w, p x = false) : closedFields p w = [] := by
  simp [closedFields, List.splitOnP_eq_singleton plain]

theorem openField_of_plain (plain : ∀ x ∈ w, p x = false) : openField p w = w := by
  simp [openField, List.splitOnP_eq_singleton plain]

theorem closedFields_append_delimiter (l l' : List α) (delimiter : p c) :
    closedFields p (l ++ c :: l') = fields p l ++ closedFields p l' := by
  rw [closedFields, List.splitOnP_append_cons l l' delimiter,
    List.dropLast_append_of_ne_nil (List.splitOnP_ne_nil p l'), List.filter_append]
  rfl

theorem openField_append_delimiter (l l' : List α) (delimiter : p c) :
    openField p (l ++ c :: l') = openField p l' := by
  simp only [openField, List.splitOnP_append_cons l l' delimiter]
  exact List.getLast_append_of_ne_nil _ (List.splitOnP_ne_nil p l')

/-- A part without a delimiter is the beginning of a closed field or of what is open. -/
theorem exists_closed_or_open (plain : ∀ x ∈ w, p x = false) (nonempty : w ≠ []) (l : List α) :
    (∃ f ∈ closedFields p (w ++ l), w <+: f) ∨ w <+: openField p (w ++ l) := by
  induction l using split_induction p with
  | plain u free =>
    right
    rw [openField_of_plain (by simpa [or_imp, forall_and] using ⟨plain, free⟩)]
    exact List.prefix_append w u
  | cut u c l free delimiter _ =>
    left
    have field : fields p (w ++ u) = [w ++ u] := by
      rw [fields_eq_single (by simpa [or_imp, forall_and] using ⟨plain, free⟩)]
      simp [nonempty]
    rw [← List.append_assoc, closedFields_append_delimiter _ _ delimiter, field]
    exact ⟨w ++ u, by simp, List.prefix_append w u⟩

/-! ## Sizes -/

theorem length_le_of_mem_splitOnP (mem : f ∈ l.splitOnP p) : f.length ≤ l.length := by
  induction l using split_induction p generalizing f with
  | plain w free =>
    rw [List.splitOnP_eq_singleton free, List.mem_singleton] at mem
    exact Nat.le_of_eq (congrArg List.length mem)
  | cut w c l free delimiter ih =>
    rw [List.splitOnP_append_cons_of_forall_mem free c delimiter] at mem
    rw [List.length_append, List.length_cons]
    rcases List.mem_cons.1 mem with rfl | later
    · omega
    · have := ih later
      omega

theorem length_le_of_mem_closedFields (mem : f ∈ closedFields p l) : f.length ≤ l.length :=
  length_le_of_mem_splitOnP (List.dropLast_subset _ (List.mem_filter.1 mem).1)

theorem length_openField_le (p : α → Bool) (l : List α) : (openField p l).length ≤ l.length :=
  length_le_of_mem_splitOnP (List.getLast_mem _)

theorem length_closedFields_le (p : α → Bool) (l : List α) :
    (closedFields p l).length ≤ l.length := by
  have pieces := length_splitOnP p l
  have kept := List.length_filter_le (fun f => !f.isEmpty) (l.splitOnP p).dropLast
  have delimiters := List.countP_le_length (p := p) (l := l)
  rw [List.length_dropLast] at kept
  rw [closedFields]
  omega

/-! ## Maximal runs -/

/-- `ws` are the maximal runs of elements that are no delimiters, in their order: each comes after
delimiters only and is followed by a delimiter or the end. -/
inductive Runs (p : α → Bool) : List α → List (List α) → Prop
  | none (gap : List α) (delimiters : ∀ x ∈ gap, p x) : Runs p gap []
  | run (gap : List α) {w rest : List α} {ws : List (List α)} (delimiters : ∀ x ∈ gap, p x)
      (nonempty : w ≠ [])
      (plain : ∀ x ∈ w, p x = false) (ends : ∀ x ∈ rest.head?, p x) (later : Runs p rest ws) :
      Runs p (gap ++ w ++ rest) (w :: ws)

theorem Runs.cons {ws : List (List α)} (delimiter : p c) (runs : Runs p l ws) :
    Runs p (c :: l) ws := by
  cases runs with
  | none _ delimiters => exact .none (c :: l) (List.forall_mem_cons.2 ⟨delimiter, delimiters⟩)
  | run gap delimiters nonempty plain ends later =>
    exact .run (c :: gap) (List.forall_mem_cons.2 ⟨delimiter, delimiters⟩) nonempty plain ends later

theorem fields_gap (gap : List α) (delimiters : ∀ x ∈ gap, p x) (l : List α) :
    fields p (gap ++ l) = fields p l := by
  induction gap with
  | nil => rfl
  | cons c gap ih =>
    obtain ⟨delimiter, delimiters⟩ := List.forall_mem_cons.1 delimiters
    rw [List.cons_append, ← ih delimiters]
    exact fields_append_delimiter [] _ delimiter

theorem runs_fields (p : α → Bool) (l : List α) : Runs p l (fields p l) := by
  induction l using split_induction p with
  | plain w free =>
    rw [fields_eq_single free]
    cases w with
    | nil => exact .none [] (by simp)
    | cons a w =>
      have one := Runs.run [] (by simp) (by simp) free (by simp) (.none [] (by simp))
      simpa using one
  | cut w c l free delimiter ih =>
    rw [fields_append_cons free delimiter]
    cases w with
    | nil => exact ih.cons delimiter
    | cons a w => exact .run [] (by simp) (by simp) free (by simp [delimiter]) (ih.cons delimiter)

/-- A list has just one list of maximal runs, its fields. -/
theorem runs_iff {ws : List (List α)} : Runs p l ws ↔ ws = fields p l := by
  constructor
  · intro runs
    induction runs with
    | none gap delimiters => exact (fields_eq_nil.2 delimiters).symm
    | @run gap w rest ws delimiters nonempty plain ends _ ih =>
      rw [List.append_assoc, fields_gap gap delimiters, ih]
      cases rest with
      | nil =>
        rw [List.append_nil, fields_eq_single plain]
        simp [nonempty, fields]
      | cons c rest =>
        have delimiter : p c := ends c rfl
        rw [fields_append_cons plain delimiter]
        have gap : fields p (c :: rest) = fields p rest := fields_gap [c] (by simpa) rest
        simp [gap, nonempty]
  · rintro rfl
    exact runs_fields p l

/-! ## Other delimiters -/

theorem fields_congr (same : ∀ x ∈ l, p x = q x) : fields p l = fields q l := by
  induction l using split_induction p with
  | plain w free =>
    rw [fields_eq_single free, fields_eq_single fun x mem => (same x mem).symm.trans (free x mem)]
  | cut w c l free delimiter ih =>
    have before x (mem : x ∈ w) := same x (List.mem_append_left _ mem)
    have here := same c (by simp)
    have after x (mem : x ∈ l) := same x (by simp [mem])
    rw [fields_append_cons free delimiter, ih after,
      fields_append_cons (fun x mem => (before x mem).symm.trans (free x mem)) (here ▸ delimiter)]

/-- With more delimiters the fields are split further. -/
theorem fields_or (p q : α → Bool) (l : List α) :
    fields (fun x => p x || q x) l = (fields p l).flatMap (fields q) := by
  have plain {w : List α} (free : ∀ x ∈ w, p x = false) :
      fields (fun x => p x || q x) w = fields q w := fields_congr fun x mem => by simp [free x mem]
  have single (w : List α) : ([w].filter fun f => !f.isEmpty).flatMap (fields q) = fields q w := by
    cases w <;> simp [fields]
  induction l using split_induction p with
  | plain w free => rw [plain free, fields_eq_single free, single]
  | cut w c l free delimiter ih =>
    rw [fields_append_delimiter w l (by simp [delimiter]), plain free, ih,
      fields_append_cons free delimiter, List.flatMap_append, single]

theorem fields_map (p : β → Bool) (g : α → β) (l : List α) :
    fields p (l.map g) = (fields (fun x => p (g x)) l).map (List.map g) := by
  have single {w : List α} (free : ∀ x ∈ w, p (g x) = false) :
      fields p (w.map g) = ([w].filter fun f => !f.isEmpty).map (List.map g) := by
    rw [fields_eq_single (by simpa using free)]
    cases w <;> simp
  induction l using split_induction fun x => p (g x) with
  | plain w free => rw [single free, fields_eq_single free]
  | cut w c l free delimiter ih =>
    rw [List.map_append, List.map_cons, fields_append_delimiter _ _ delimiter, single free, ih,
      fields_append_cons free delimiter, List.map_append]

/-! ## Parts of fields -/

section Parts

variable {a : List (List α)} {x y : List (List α)} {parts : List (List (List α))}

theorem flatten_filter (x : List (List α)) :
    (x.filter fun f => !f.isEmpty).flatten = x.flatten := by
  induction x with
  | nil => rfl
  | cons f x ih => cases f <;> simp [ih]

/-- Parts of which at most one is not empty are, without the empty ones, what they are together. -/
theorem filter_eq_flatten (one : (a.filter fun f => !f.isEmpty).length ≤ 1) :
    (a.filter fun f => !f.isEmpty) = [a.flatten].filter fun f => !f.isEmpty := by
  have whole := flatten_filter a
  have full : ∀ f ∈ a.filter fun f => !f.isEmpty, f ≠ [] := by simp
  rw [← whole]
  generalize (a.filter fun f => !f.isEmpty) = b at one full
  cases b with
  | nil => rfl
  | cons f b =>
    obtain rfl : b = [] := by
      cases b with
      | nil => rfl
      | cons g b => simp at one
    simp [full f List.mem_cons_self]

/-- The first of some non-empty parts are all of them if nothing is missing. -/
theorem eq_of_flatten_eq (begins : x <+: y) (full : ∀ f ∈ y, f ≠ [])
    (whole : x.flatten = y.flatten) : x = y := by
  obtain ⟨later, rfl⟩ := begins
  rw [List.flatten_append, List.self_eq_append_right] at whole
  cases later with
  | nil => rw [List.append_nil]
  | cons f later => exact absurd (List.flatten_eq_nil_iff.mp whole f (by simp)) (full f (by simp))

/-- Lists with the same non-empty parts at the same places. -/
theorem eq_of_filter_eq (places : x.map List.isEmpty = y.map List.isEmpty)
    (full : (x.filter fun f => !f.isEmpty) = y.filter fun f => !f.isEmpty) : x = y := by
  induction x generalizing y with
  | nil => simpa using places.symm
  | cons f x ih =>
    cases y with
    | nil => simp at places
    | cons g y =>
      obtain ⟨here, later⟩ := List.cons.inj places
      cases f with
      | nil =>
        obtain rfl : g = [] := by simpa using here.symm
        rw [ih later (by simpa using full)]
      | cons b f =>
        obtain ⟨d, g, rfl⟩ := List.exists_cons_of_ne_nil (show g ≠ [] by rintro rfl; simp at here)
        obtain ⟨same, rest⟩ : b :: f = d :: g ∧ _ := by simpa using full
        rw [same, ih later (by simpa using rest)]

/-- There are at least as many non-empty parts as there are lists of parts that are not empty
together; if there are no more, each list has at most one. -/
theorem length_filter_flatten (parts : List (List (List α))) :
    ((parts.map List.flatten).filter fun f => !f.isEmpty).length ≤
        (parts.flatten.filter fun f => !f.isEmpty).length ∧
      ((parts.flatten.filter fun f => !f.isEmpty).length ≤
        ((parts.map List.flatten).filter fun f => !f.isEmpty).length →
          ∀ a ∈ parts, (a.filter fun f => !f.isEmpty).length ≤ 1) := by
  induction parts with
  | nil => simp
  | cons a parts ih =>
    have one : ([a.flatten].filter fun f => !f.isEmpty).length ≤ 1 := List.length_filter_le _ _
    have here : ([a.flatten].filter fun f => !f.isEmpty).length ≤
        (a.filter fun f => !f.isEmpty).length := by
      rw [← flatten_filter a]
      cases a.filter fun f => !f.isEmpty with
      | nil => simp
      | cons f b => exact Nat.le_trans (List.length_filter_le _ _) (by simp)
    rw [List.map_cons, ← List.singleton_append, List.filter_append, List.flatten_cons,
      List.filter_append, List.length_append, List.length_append, List.forall_mem_cons]
    obtain ⟨le, rest⟩ := ih
    exact ⟨by omega, fun few => ⟨by omega, rest (by omega)⟩⟩

theorem filter_flatten_eq (one : ∀ a ∈ parts, (a.filter fun f => !f.isEmpty).length ≤ 1) :
    (parts.flatten.filter fun f => !f.isEmpty) =
      (parts.map List.flatten).filter fun f => !f.isEmpty := by
  induction parts with
  | nil => rfl
  | cons a parts ih =>
    rw [List.forall_mem_cons] at one
    rw [List.flatten_cons, List.filter_append, filter_eq_flatten one.1, ih one.2, List.map_cons,
      ← List.filter_append, List.singleton_append]

/-- The first `n` of all parts are what the lists of parts are together exactly if each list has at
most one part that is not empty and the places of these are the same. -/
theorem take_flatten_eq_iff {n : ℕ} :
    parts.flatten.take n = parts.map List.flatten ↔
      (∀ a ∈ parts, (a.filter fun f => !f.isEmpty).length ≤ 1) ∧
        (parts.flatten.take n).map List.isEmpty = (parts.map List.flatten).map List.isEmpty := by
  have begins : ((parts.flatten.take n).filter fun f => !f.isEmpty) <+:
      parts.flatten.filter fun f => !f.isEmpty := (List.take_prefix n _).filter _
  constructor
  · intro same
    refine ⟨(length_filter_flatten parts).2 ?_, by rw [same]⟩
    rw [same] at begins
    refine Nat.le_of_eq (congrArg _ (eq_of_flatten_eq begins (by simp) ?_).symm)
    rw [flatten_filter, flatten_filter, List.flatten_flatten]
  · rintro ⟨one, places⟩
    have full := filter_flatten_eq one
    refine eq_of_filter_eq places ?_
    rw [← full]
    refine begins.eq_of_length ?_
    rw [full]
    have count (x : List (List α)) :
        (x.filter fun f => !f.isEmpty).length = (x.map List.isEmpty).countP (!·) := by
      rw [List.countP_map, List.countP_eq_length_filter]
      rfl
    rw [count, count, places]

end Parts

end SsuOs
