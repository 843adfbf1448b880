import Mathlib.Logic.Equiv.Bool
import SsuOs.Shell.Bounds
import SsuOs.Shell.Tokens

/-!
# Tabs and spaces

A tab separates words, as a space does, but also the entries that `main` takes for commands, which a
space does not.  Which lines are executed alike with spaces in the place of their tabs
(`executed_spaced_iff`).
-/

namespace SsuOs.Shell

/-- The line with a space in the place of every tab. -/
def spaced (s : List UInt8) : List UInt8 := s.map fun c => if c = tab then space else c

/-- The argument vectors that are executed for a line, as strings, if `fork` makes every child.
When there are fewer entries than `cmd_cnt`, `executeCommand` does not get past the last of them. -/
def executed (line : List UInt8) : Except Fault (List (List (List UInt8))) := do
  let s ← cstring line
  let tokens ← tokenize zeroed line 1
  let vectors ← executeCommand (fun _ => zeroed) (fun _ => 2) tokens
    (min (commandCount s) tokens.length)
  vectors.mapM fun command => command.mapM cstring

/-- The commands of a line fit in the buffers of `tokenize`, with the newline that is put behind
them, and so do the entries into which the tabs split them. -/
structure Compact (s : List UInt8) : Prop where
  command : ∀ g ∈ fields (· == pipe) s, g.length + 1 < maxTokenSize
  commands : (fields (· == pipe) s).length < maxNumTokens
  entries : (fields (delimiter 1) s).length < maxNumTokens

def hasWord (f : List UInt8) : Bool := f.any fun c => !delimiter 0 c

/-- No tab stands between two words of a command, and of the entries that are executed those with a
word stand where the commands with a word do. -/
@[mk_iff] structure TabsIdle (s : List UInt8) : Prop where
  together : ∀ g ∈ fields (· == pipe) s, ((fields (· == tab) g).filter hasWord).length ≤ 1
  places : ((fields (delimiter 1) s).take (commandCount s)).map hasWord =
    (fields (· == pipe) s).map hasWord

section Lines

variable {s f : List UInt8}

/-! ## The vectors of a line -/

theorem mapM_eq_ok {α β ε : Type} {g : α → Except ε β} {k : α → β} {l : List α}
    (each : ∀ x ∈ l, g x = .ok (k x)) : l.mapM g = .ok (l.map k) := by
  induction l with
  | nil => rfl
  | cons x l ih =>
    obtain ⟨first, later⟩ := List.forall_mem_cons.1 each
    rw [List.mapM_cons, first, ih later]
    rfl

/-- With a child for every entry all of them are split. -/
theorem executeFrom_children {fresh : ℕ → ℕ → UInt8} {commands : List (List UInt8)} {n i : ℕ}
    (enough : i + n ≤ commands.length) :
    executeFrom (fun _ => fresh) (fun _ => 2) commands n i =
      ((commands.drop i).take n).mapM fun command => tokenize fresh command 0 := by
  induction n generalizing i with
  | zero => rfl
  | succ n ih =>
    have inside : i < commands.length := by omega
    rw [executeFrom, argument, List.getElem?_eq_getElem inside, ih (by omega),
      List.drop_eq_getElem_cons inside, List.take_succ_cons, List.mapM_cons]
    rfl

theorem le_length_of_children {fresh : ℕ → ℕ → UInt8} {commands : List (List UInt8)} {n i : ℕ}
    {vectors : List (List (List UInt8))} (started : i ≤ commands.length)
    (runs : executeFrom (fun _ => fresh) (fun _ => 2) commands n i = .ok vectors) :
    i + n ≤ commands.length := by
  induction n generalizing i vectors with
  | zero => exact started
  | succ n ih =>
    simp only [executeFrom, bind_eq_ok] at runs
    obtain ⟨command, found, words, -, runs⟩ := runs
    have inside := (List.getElem?_eq_some_iff.1 (argument_eq_ok.1 found)).1
    rw [if_neg (by decide)] at runs
    obtain ⟨later, rest, -⟩ := bind_eq_ok.1 runs
    have := ih inside rest
    omega

/-- What `main` executes for a line, if it has as many entries as it counts commands. -/
theorem executed_of_runLine {line : List UInt8} {vectors : List (List (List UInt8))}
    (read : cstring line = .ok s) (nonempty : s ≠ [])
    (runs : runLine (fun _ => zeroed) (fun _ => 2) line = .ok vectors) :
    executed line = vectors.mapM fun command => command.mapM cstring := by
  simp only [runLine, bind_eq_ok, read, Except.ok.injEq, exists_eq_left', if_neg nonempty] at runs
  obtain ⟨tokens, split, runs⟩ := runs
  have enough := le_length_of_children (Nat.zero_le _) runs
  rw [Nat.zero_add] at enough
  simp only [executed, read, split, bind, Except.bind, min_eq_left enough, runs]

/-- An entry that leaves room for the newline is split into its words. -/
theorem tokenize_entry (chars : 0 ∉ f) (room : f.length + 1 < maxTokenSize) (k : ℕ) :
    tokenize zeroed (copyToken (zeroed k) f) 0 =
      .ok (copies zeroed 0 (fields (delimiter 0) f)) := by
  obtain ⟨rest, buffer⟩ := copyToken_zeroed room k
  rw [buffer]
  refine tokenize_eq_fields zeroed 0 chars rest (fun w field => ?_) ?_
  · have := length_le_of_mem_splitOnP (mem_fields.1 field).1
    omega
  · have pieces := length_fields (delimiter 0) f
    have : f.countP (delimiter 0) ≤ f.length := List.countP_le_length
    change f.length + 1 < 64 at room
    change _ < 64
    omega

theorem executed_eq (chars : 0 ∉ s) (short : s.length < maxInputSize - 1)
    (room : ∀ f ∈ fields (delimiter 1) s, f.length + 1 < maxTokenSize)
    (few : (fields (delimiter 1) s).length < maxNumTokens) :
    executed (lineBuffer s) =
      .ok (((fields (delimiter 1) s).take (commandCount s)).map (fields (delimiter 0))) := by
  obtain ⟨rest, buffer⟩ := lineBuffer_eq short
  have strings {p : UInt8 → Bool} {f g : List UInt8} (outer : 0 ∉ g) (field : f ∈ fields p g) :
      0 ∉ f := fun zero => outer (of_mem_splitOnP (mem_fields.1 field).1 0 zero).1
  have split : tokenize zeroed (lineBuffer s) 1 =
      .ok ((fields (delimiter 1) s).map (copyToken (zeroed 0))) := by
    rw [buffer, ← copies_zeroed 0]
    exact tokenize_eq_fields zeroed 1 chars rest (fun f field => by have := room f field; omega) few
  have read : cstring (lineBuffer s) = .ok s := by
    rw [buffer]
    exact cstring_append chars (0 :: rest)
  have vectors : executeCommand (fun _ => zeroed) (fun _ => 2)
      ((fields (delimiter 1) s).map (copyToken (zeroed 0)))
      (min (commandCount s) ((fields (delimiter 1) s).map (copyToken (zeroed 0))).length) =
      .ok (((fields (delimiter 1) s).take (commandCount s)).map
        fun f => copies zeroed 0 (fields (delimiter 0) f)) := by
    rw [executeCommand, executeFrom_children (by omega), List.drop_zero, ← List.take_eq_take_min,
      ← List.map_take, List.mapM_map]
    refine mapM_eq_ok fun f mem => ?_
    have field := List.mem_of_mem_take mem
    exact tokenize_entry (strings chars field) (room f field) 0
  simp only [executed, read, split, vectors, bind, Except.bind, List.mapM_map]
  refine mapM_eq_ok fun f mem => ?_
  have field := List.mem_of_mem_take mem
  exact mapM_cstring_copies (fun w word => strings (strings chars field) word) 0

/-! ## The line with spaces -/

theorem zero_notMem_spaced (chars : 0 ∉ s) : 0 ∉ spaced s := by
  intro zero
  obtain ⟨c, mem, same⟩ := List.mem_map.1 zero
  split_ifs at same
  · exact absurd same (by decide)
  · exact chars (same ▸ mem)

theorem fields_words (s : List UInt8) :
    fields (delimiter 0) s = (fields (· == tab) s).flatMap (fields (delimiter 0)) := by
  rw [← fields_or]
  refine fields_congr fun c _ => ?_
  by_cases blank : c = tab <;> simp [delimiter, blank]

/-- Without a newline, the entries of a line are the parts of its commands between tabs. -/
theorem fields_entries (line : newline ∉ s) :
    fields (delimiter 1) s = (fields (· == pipe) s).flatMap (fields (· == tab)) := by
  rw [← fields_or]
  refine fields_congr fun c mem => ?_
  have : c ≠ newline := fun same => line (same ▸ mem)
  rw [Bool.eq_iff_iff]
  simp [delimiter, pipeCh, this]

theorem words_spaced (f : List UInt8) :
    fields (delimiter 0) (spaced f) = fields (delimiter 0) f := by
  have blank : delimiter 0 tab ∧ delimiter 0 space := by decide
  have same : fields (fun c => delimiter 0 (if c = tab then space else c)) f =
      fields (delimiter 0) f := by
    refine fields_congr fun c _ => ?_
    split_ifs with here
    · rw [here, blank.1, blank.2]
    · rfl
  rw [spaced, fields_map, same]
  refine (List.map_congr_left fun w word => ?_).trans (List.map_id _)
  refine (List.map_congr_left fun c mem => if_neg ?_).trans (List.map_id w)
  rintro rfl
  exact absurd blank.1 (by simp [(of_mem_splitOnP (mem_fields.1 word).1 _ mem).2])

/-- Without a newline, the entries of the line with spaces are its commands. -/
theorem entries_spaced (line : newline ∉ s) :
    fields (delimiter 1) (spaced s) = (fields (· == pipe) s).map spaced := by
  rw [spaced, fields_map]
  congr 1
  refine fields_congr fun c mem => ?_
  have : c ≠ newline := fun same => line (same ▸ mem)
  have plain : ¬ delimiter 1 space ∧ tab ≠ pipe := by decide
  rw [Bool.eq_iff_iff]
  split_ifs with here
  · simp [here, plain]
  · simp [delimiter, pipeCh, this, here]

theorem commandCount_spaced (s : List UInt8) : commandCount (spaced s) = commandCount s := by
  have other : space ≠ pipe ∧ tab ≠ pipe := by decide
  rw [commandCount, commandCount, List.count_eq_countP, List.count_eq_countP, spaced,
    List.countP_map]
  congr 1
  refine List.countP_congr fun c _ => ?_
  by_cases here : c = tab <;> simp [here, other.1, other.2]

theorem length_commands_le (s : List UInt8) : (fields (· == pipe) s).length ≤ commandCount s := by
  have := length_fields (· == pipe) s
  rw [commandCount, List.count]
  omega

theorem isEmpty_words (f : List UInt8) : (fields (delimiter 0) f).isEmpty = !hasWord f := by
  rw [Bool.eq_iff_iff, List.isEmpty_iff, fields_eq_nil]
  simp [hasWord]

/-- An entry is not longer than the command that it is a part of. -/
theorem Compact.entry (compact : Compact s) (line : newline ∉ s)
    (field : f ∈ fields (delimiter 1) s) : f.length + 1 < maxTokenSize := by
  rw [fields_entries line] at field
  obtain ⟨g, mem, part⟩ := List.mem_flatMap.1 field
  have := length_le_of_mem_splitOnP (mem_fields.1 part).1
  have := compact.command g mem
  omega

/-- With spaces every command is executed, with all its words. -/
theorem executed_spaced (chars : 0 ∉ s) (line : newline ∉ s) (short : s.length < maxInputSize - 1)
    (compact : Compact s) : executed (lineBuffer (spaced s)) =
      .ok ((fields (· == pipe) s).map (fields (delimiter 0))) := by
  have entries := entries_spaced line
  rw [executed_eq (zero_notMem_spaced chars) ?_ ?_ ?_, entries, commandCount_spaced,
    List.take_of_length_le ?_, List.map_map]
  · exact congrArg _ (List.map_congr_left fun g _ => words_spaced g)
  · rw [List.length_map]
    exact length_commands_le s
  · rwa [spaced, List.length_map]
  · rw [entries]
    simpa [spaced] using compact.command
  · rw [entries, List.length_map]
    exact compact.commands

end Lines

/-- A line whose commands fit the buffers is executed alike with spaces in the place of its tabs
exactly if its tabs are idle. -/
theorem executed_spaced_iff {s : List UInt8} (chars : 0 ∉ s) (line : newline ∉ s)
    (short : s.length < maxInputSize - 1) (compact : Compact s) :
    executed (lineBuffer s) = executed (lineBuffer (spaced s)) ↔ TabsIdle s := by
  rw [executed_spaced chars line short compact,
    executed_eq chars short (fun _ => compact.entry line) compact.entries, Except.ok.injEq]
  -- for each command, the vectors of the entries into which its tabs split it
  let parts := (fields (· == pipe) s).map fun g => (fields (· == tab) g).map (fields (delimiter 0))
  have all : (fields (delimiter 1) s).map (fields (delimiter 0)) = parts.flatten := by
    rw [fields_entries line, List.map_flatMap, List.flatMap_def]
  have whole : (fields (· == pipe) s).map (fields (delimiter 0)) = parts.map List.flatten := by
    rw [List.map_map]
    exact List.map_congr_left fun g _ => (fields_words g).trans (List.flatMap_def ..)
  have words : List.isEmpty ∘ fields (delimiter 0) = (!·) ∘ hasWord := funext isEmpty_words
  rw [List.map_take, all, whole, take_flatten_eq_iff, ← all, ← whole, tabsIdle_iff,
    List.forall_mem_map]
  refine and_congr (forall₂_congr fun g _ => ?_) ?_
  · rw [List.filter_map, List.length_map]
    simp [Function.comp_def, isEmpty_words]
  · rw [← List.map_take, List.map_map, List.map_map, words, ← List.map_map, ← List.map_map]
    exact (List.map_injective_iff.2 Bool.not_injective).eq_iff

/-- The tabs around `ls -l` and before `wc` are idle. -/
theorem executed_spaced_iff_around :
    executed (lineBuffer (ascii ['\t', 'l', 's', ' ', '-', 'l', '\t', '|', '\t', 'w', 'c'])) =
      executed (lineBuffer (spaced
        (ascii ['\t', 'l', 's', ' ', '-', 'l', '\t', '|', '\t', 'w', 'c']))) :=
  (executed_spaced_iff (by decide) (by decide) (by decide)
    ⟨by decide +kernel, by decide +kernel, by decide +kernel⟩).2
    ⟨by decide +kernel, by decide +kernel⟩

/-- With a tab between them only the first of two words is executed. -/
theorem not_executed_spaced :
    Compact (ascii ['l', 's', '\t', '-', 'l']) ∧
      executed (lineBuffer (ascii ['l', 's', '\t', '-', 'l'])) = .ok [[ascii ['l', 's']]] ∧
      executed (lineBuffer (spaced (ascii ['l', 's', '\t', '-', 'l']))) =
        .ok [[ascii ['l', 's'], ascii ['-', 'l']]] :=
  ⟨⟨by decide +kernel, by decide +kernel, by decide +kernel⟩, by decide +kernel, by decide +kernel⟩

end SsuOs.Shell
