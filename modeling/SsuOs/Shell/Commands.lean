import SsuOs.Shell.Tokenize

/-!
# The commands of a line

What `main` and `executeCommand` of `hw2/ssu_shell.c` do with a line: `main` counts the pipe
characters, splits the line at them, and lets `executeCommand` split that many entries into words
and execute them.  The two scans of the line agree exactly for the lines with `Piped`
(`consistent_iff_piped`).

The children and the descriptors that `executeCommand` connects are in `Processes`.
-/

namespace SsuOs.Shell

/-- `MAX_INPUT_SIZE`. -/
abbrev maxInputSize : ℕ := 1024

/-- `commands[i]`, where a string is needed. -/
def argument (commands : List (List UInt8)) (i : ℕ) : Except Fault (List UInt8) :=
  match commands[i]? with
  | some command => .ok command
  | none => .error (if i = commands.length then .null else .unset)

/-- The loop of `executeCommand` with `n` rounds to go: the argument vectors that its children hand
to `execvp`, up to their `NULL`.  In round `i` the parent gets `forks i` from `fork`, which is the
number of the child, or negative if there is none; the loop is left at 1. -/
def executeFrom (fresh : ℕ → ℕ → ℕ → UInt8) (forks : ℕ → ℤ) (commands : List (List UInt8)) :
    (n i : ℕ) → Except Fault (List (List (List UInt8)))
  | 0, _ => .ok []
  | n + 1, i => do
      let line ← argument commands i
      let command ← tokenize (fresh i) line 0
      let child := if 0 < forks i then [command] else []
      if forks i = 1 then .ok child
      else do
        let later ← executeFrom fresh forks commands n (i + 1)
        .ok (child ++ later)

def executeCommand (fresh : ℕ → ℕ → ℕ → UInt8) (forks : ℕ → ℤ) (commands : List (List UInt8))
    (cmdCnt : ℕ) : Except Fault (List (List (List UInt8))) :=
  executeFrom fresh forks commands cmdCnt 0

/-- `cmd_cnt`. -/
def commandCount (s : List UInt8) : ℕ := 1 + s.count pipe

/-- The body of the loop of `main` after a line was read: it gives the argument vectors that are
executed. -/
def runLine (fresh : ℕ → ℕ → ℕ → UInt8) (forks : ℕ → ℤ) (line : List UInt8) :
    Except Fault (List (List (List UInt8))) := do
  let s ← cstring line
  if s = [] then .ok []
  else do
    let tokens ← tokenize (fresh 0) line 1
    executeCommand (fun i => fresh (i + 1)) forks tokens (commandCount s)

/-! ## Lines -/

/-- The array `line` of `main` with the string `s`. -/
def lineBuffer (s : List UInt8) : List UInt8 := s ++ List.replicate (maxInputSize - s.length) 0

/-- Buffers that are zero after the terminator. -/
def zeroed (_ _ : ℕ) : UInt8 := 0

/-- The entries of a line, and the words of each entry, fit in the buffers of `tokenize`. -/
structure Fits (s : List UInt8) : Prop where
  entry : ∀ f ∈ fields (delimiter 1) s, f.length < maxTokenSize
  entries : (fields (delimiter 1) s).length < maxNumTokens
  word : ∀ f ∈ fields (delimiter 1) s, ∀ w ∈ fields (delimiter 0) f, w.length < maxTokenSize
  words : ∀ f ∈ fields (delimiter 1) s, (fields (delimiter 0) f).length < maxNumTokens

/-- There are as many entries as `main` counts commands, each has a word, and no `NULL` is used as a
command or executed. -/
def Consistent (s : List UInt8) : Prop :=
  (∃ entries, tokenize zeroed (lineBuffer s) 1 = .ok entries ∧ commandCount s = entries.length ∧
    ∀ entry ∈ entries, ∃ words, tokenize zeroed entry 0 = .ok words ∧ words ≠ []) ∧
  ∀ forks, ∃ vectors, runLine (fun _ => zeroed) forks (lineBuffer s) = .ok vectors ∧ [] ∉ vectors

/-- The pieces of a line between pipes, tabs and newlines: as many are empty as there are tabs and
newlines, and the others have a character that is no space and leave room for a newline in their
buffers. -/
def Piped (s : List UInt8) : Prop :=
  (s.splitOnP (delimiter 1)).count [] = s.count tab + s.count newline ∧
    ∀ f ∈ s.splitOnP (delimiter 1), f ≠ [] → (∃ c ∈ f, c ≠ space) ∧ f.length + 1 < maxTokenSize

/-! ## One entry -/

theorem copyToken_zeroed {f : List UInt8} (room : f.length + 1 < maxTokenSize) (k : ℕ) :
    ∃ rest, copyToken (zeroed k) f = f ++ 0 :: 0 :: rest := by
  have size : maxTokenSize - (f.length + 1) = maxTokenSize - (f.length + 2) + 1 := by omega
  rw [copyToken, size, List.range'_succ, List.map_cons]
  exact ⟨_, rfl⟩

/-- An entry of the largest size has no byte after its terminator. -/
theorem copyToken_full {f : List UInt8} (full : f.length + 1 = maxTokenSize) (fresh : ℕ → UInt8) :
    copyToken fresh f = f ++ [0] := by
  rw [copyToken, full, Nat.sub_self, List.range'_zero, List.map_nil]

/-- In a part without the delimiters of a line, spaces are the only delimiters of words. -/
theorem delimiter_zero {c : UInt8} (plain : delimiter 1 c = false) :
    delimiter 0 c ↔ c = space := by
  simp only [delimiter, decide_eq_false_iff_not, not_or] at plain
  simp [delimiter, pipeCh, plain.2.1, plain.2.2]

/-- An entry has a word exactly when it has a character that is no space, and room for a newline. -/
theorem words_iff {f : List UInt8} (chars : 0 ∉ f) (plain : ∀ c ∈ f, delimiter 1 c = false)
    (size : f.length < maxTokenSize)
    (word : ∀ w ∈ fields (delimiter 0) f, w.length < maxTokenSize)
    (words : (fields (delimiter 0) f).length < maxNumTokens) (k : ℕ) :
    (∃ words, tokenize zeroed (copyToken (zeroed k) f) 0 = .ok words ∧ words ≠ []) ↔
      (∃ c ∈ f, c ≠ space) ∧ f.length + 1 < maxTokenSize := by
  have blank : fields (delimiter 0) f = [] ↔ ¬ ∃ c ∈ f, c ≠ space := by
    rw [fields_eq_nil]
    push Not
    exact forall₂_congr fun c hc => delimiter_zero (plain c hc)
  rcases Nat.lt_or_ge (f.length + 1) maxTokenSize with room | full
  · obtain ⟨rest, buffer⟩ := copyToken_zeroed room k
    rw [buffer, tokenize_eq_fields zeroed 0 chars rest word words]
    simp only [Except.ok.injEq, exists_eq_left', room, and_true]
    rw [← not_iff_not, not_not, ← blank, ← List.length_eq_zero_iff, length_copies,
      List.length_eq_zero_iff]
  · rw [copyToken_full (le_antisymm size full), tokenize_full zeroed 0 chars]
    simp only [reduceCtorEq, false_and, exists_false, false_iff, not_and, not_lt]
    exact fun _ => full

/-! ## The loop of executeCommand -/

theorem executeFrom_ok {commands : List (List UInt8)}
    (words : ∀ command ∈ commands, ∃ words, tokenize zeroed command 0 = .ok words ∧ words ≠ [])
    (forks : ℕ → ℤ) (n i : ℕ) (enough : i + n ≤ commands.length) :
    ∃ vectors, executeFrom (fun _ => zeroed) forks commands n i = .ok vectors ∧ [] ∉ vectors := by
  induction n generalizing i with
  | zero => exact ⟨[], rfl, List.not_mem_nil⟩
  | succ n ih =>
    have inside : i < commands.length := by omega
    obtain ⟨command, split, nonempty⟩ := words commands[i] (List.getElem_mem inside)
    obtain ⟨later, runs, executed⟩ := ih (i + 1) (by omega)
    have line : argument commands i = .ok commands[i] := by
      rw [argument, List.getElem?_eq_getElem inside]
    have child : [] ∉ if 0 < forks i then [command] else [] := by
      split_ifs
      · simpa using nonempty.symm
      · exact List.not_mem_nil
    simp only [executeFrom, line, split, runs, bind, Except.bind]
    by_cases one : forks i = 1
    · rw [if_pos one]
      exact ⟨_, rfl, child⟩
    · rw [if_neg one]
      exact ⟨_, rfl, by simp only [List.mem_append, child, executed, or_self, not_false_eq_true]⟩

/-! ## The two scans of a line -/

/-- The delimiters of a line are its pipes, tabs and newlines. -/
theorem countP_delimiter (s : List UInt8) :
    s.countP (delimiter 1) = s.count pipe + (s.count tab + s.count newline) := by
  have here (c : UInt8) : (if delimiter 1 c then 1 else 0) =
      (if c = pipe then 1 else 0) + ((if c = tab then 1 else 0) + if c = newline then 1 else 0) := by
    have apart : pipe ≠ tab ∧ pipe ≠ newline ∧ tab ≠ newline := by decide
    by_cases hp : c = pipe
    · simp [delimiter, pipeCh, hp, apart.1, apart.2.1]
    · by_cases ht : c = tab
      · simp [delimiter, ht, apart.1.symm, apart.2.2]
      · simp [delimiter, pipeCh, hp, ht]
  induction s with
  | nil => rfl
  | cons c s ih =>
    simp only [List.countP_cons, List.count_cons, ih, beq_iff_eq]
    have := here c
    omega

/-- `main` counts as many commands as there are entries exactly when the tabs and newlines make up
for the empty pieces. -/
theorem commandCount_eq_iff (s : List UInt8) :
    commandCount s = (fields (delimiter 1) s).length ↔
      (s.splitOnP (delimiter 1)).count [] = s.count tab + s.count newline := by
  have pieces := length_fields (delimiter 1) s
  rw [countP_delimiter] at pieces
  simp only [commandCount]
  omega

theorem copies_zeroed (k : ℕ) (ws : List (List UInt8)) :
    copies zeroed k ws = ws.map (copyToken (zeroed 0)) := by
  induction ws generalizing k with
  | nil => rfl
  | cons w ws ih =>
    rw [copies, ih]
    rfl

/-- Every entry has a word exactly when every piece that is not empty does. -/
theorem entries_iff {s : List UInt8} (chars : 0 ∉ s) (fits : Fits s) :
    (∀ entry ∈ copies zeroed 0 (fields (delimiter 1) s),
      ∃ words, tokenize zeroed entry 0 = .ok words ∧ words ≠ []) ↔
      ∀ f ∈ s.splitOnP (delimiter 1), f ≠ [] →
        (∃ c ∈ f, c ≠ space) ∧ f.length + 1 < maxTokenSize := by
  rw [copies_zeroed, List.forall_mem_map]
  have each (f : List UInt8) (field : f ∈ fields (delimiter 1) s) :=
    have piece := of_mem_splitOnP (mem_fields.1 field).1
    words_iff (fun zero => chars (piece 0 zero).1) (fun c hc => (piece c hc).2) (fits.entry f field)
      (fits.word f field) (fits.words f field) 0
  constructor
  · intro all f mem nonempty
    have field := mem_fields.2 ⟨mem, nonempty⟩
    exact (each f field).1 (all f field)
  · intro all f field
    obtain ⟨mem, nonempty⟩ := mem_fields.1 field
    exact (each f field).2 (all f mem nonempty)

theorem lineBuffer_eq {s : List UInt8} (short : s.length < maxInputSize - 1) :
    ∃ rest, lineBuffer s = s ++ 0 :: 0 :: rest := by
  have size : maxInputSize - s.length = maxInputSize - s.length - 2 + 2 := by omega
  rw [lineBuffer, size, List.replicate_succ, List.replicate_succ]
  exact ⟨_, rfl⟩

/-- For every line that is not empty, shorter than 1023 characters and fits the buffers, the two
scans of the line agree and every command has a word exactly when the line has `Piped`. -/
theorem consistent_iff_piped {s : List UInt8} (nonempty : s ≠ []) (chars : 0 ∉ s)
    (short : s.length < maxInputSize - 1) (fits : Fits s) : Consistent s ↔ Piped s := by
  obtain ⟨rest, buffer⟩ := lineBuffer_eq short
  have read : cstring (lineBuffer s) = .ok s := by
    rw [buffer]
    exact cstring_append chars (0 :: rest)
  have split : tokenize zeroed (lineBuffer s) 1 =
      .ok (copies zeroed 0 (fields (delimiter 1) s)) := by
    rw [buffer]
    exact tokenize_eq_fields zeroed 1 chars rest fits.entry fits.entries
  unfold Consistent Piped
  simp only [split, Except.ok.injEq, exists_eq_left', length_copies]
  rw [commandCount_eq_iff, entries_iff chars fits, and_iff_left_iff_imp]
  rintro ⟨same, words⟩ forks
  -- `executeCommand` gets as many entries as it goes through
  have enough : 0 + commandCount s ≤ (copies zeroed 0 (fields (delimiter 1) s)).length := by
    rw [length_copies, Nat.zero_add]
    exact ((commandCount_eq_iff s).2 same).le
  simp only [runLine, read, split, nonempty, bind, Except.bind, if_false]
  exact executeFrom_ok ((entries_iff chars fits).2 words) forks _ 0 enough

/-- A string of characters in one byte each. -/
def ascii (chars : List Char) : List UInt8 := chars.map Char.toUInt8

/-- The line `ls -l | wc`. -/
theorem consistent_iff_piped_lsWc :
    Consistent (ascii ['l', 's', ' ', '-', 'l', ' ', '|', ' ', 'w', 'c']) :=
  (consistent_iff_piped (by decide) (by decide) (by decide)
    ⟨by decide +kernel, by decide +kernel, by decide +kernel, by decide +kernel⟩).2
    ⟨by decide +kernel, by decide +kernel⟩

/-- After the line `ls|` the string `NULL` is split, with a blank after the pipe the program `NULL`
is executed, and a tab makes two entries of one command. -/
theorem not_consistent_pipe :
    (∀ s ∈ [ascii ['l', 's', '|'], ascii ['l', 's', '|', ' '], ascii ['l', 's', '\t', 'x']],
      s ≠ [] ∧ 0 ∉ s ∧ s.length < maxInputSize - 1 ∧ Fits s ∧ ¬ Consistent s) ∧
    runLine (fun _ => zeroed) (fun _ => 2) (lineBuffer (ascii ['l', 's', '|'])) = .error .null ∧
    ∃ vectors, runLine (fun _ => zeroed) (fun _ => 2) (lineBuffer (ascii ['l', 's', '|', ' '])) =
      .ok vectors ∧ [] ∈ vectors := by
  have null : runLine (fun _ => zeroed) (fun _ => 2) (lineBuffer (ascii ['l', 's', '|'])) =
      .error .null := by decide +kernel
  have blank : runLine (fun _ => zeroed) (fun _ => 2) (lineBuffer (ascii ['l', 's', '|', ' '])) =
      .ok [[copyToken (zeroed 0) (ascii ['l', 's'])], []] := by decide +kernel
  have tabbed : tokenize zeroed (lineBuffer (ascii ['l', 's', '\t', 'x'])) 1 =
      .ok [copyToken (zeroed 0) (ascii ['l', 's']), copyToken (zeroed 1) (ascii ['x'])] := by
    decide +kernel
  simp only [List.forall_mem_cons]
  refine ⟨⟨?_, ?_, ?_, List.forall_mem_nil _⟩, null, _, blank, by simp⟩
  · refine ⟨by decide, by decide, by decide,
      ⟨by decide +kernel, by decide +kernel, by decide +kernel, by decide +kernel⟩, ?_⟩
    rintro ⟨-, runs⟩
    obtain ⟨vectors, returns, -⟩ := runs fun _ => 2
    cases null.symm.trans returns
  · refine ⟨by decide, by decide, by decide,
      ⟨by decide +kernel, by decide +kernel, by decide +kernel, by decide +kernel⟩, ?_⟩
    rintro ⟨-, runs⟩
    obtain ⟨vectors, returns, executed⟩ := runs fun _ => 2
    cases blank.symm.trans returns
    simp at executed
  · refine ⟨by decide, by decide, by decide,
      ⟨by decide +kernel, by decide +kernel, by decide +kernel, by decide +kernel⟩, ?_⟩
    rintro ⟨⟨entries, split, count, -⟩, -⟩
    cases tabbed.symm.trans split
    exact absurd count (by decide)

end SsuOs.Shell
