import Mathlib.Data.List.Infix
import SsuOs.Base.Fallible
import SsuOs.Shell.Commands

/-!
# The bounds of the buffers

How `main` reads a line in batch mode, and which of these lines `tokenize` splits, on both levels,
without a write or a scan that leaves a buffer, or is in none because there is no string to split.
-/

namespace SsuOs.Shell

open Fallible

/-! ## Reading a line -/

/-- `fgets` with room for `n` bytes before the terminator: what it stores, and what is left of the
file. -/
def fgets : (n : ℕ) → (file : List UInt8) → List UInt8 × List UInt8
  | 0, file => ([], file)
  | _ + 1, [] => ([], [])
  | n + 1, c :: file =>
      if c = newline then ([c], file) else (c :: (fgets n file).1, (fgets n file).2)

/-- What comes of reading a line in batch mode. -/
inductive Input
  /-- `fgets` returns `NULL` -/
  | finished
  /-- the string is empty, so that `line[strlen(line) - 1]` is not in the array -/
  | outside
  | line (buffer rest : List UInt8)
  deriving DecidableEq

/-- `main` zeroes `line`, reads into it and replaces the last character of the string. -/
def readLine (file : List UInt8) : Input :=
  if file = [] then .finished
  else
    let (text, rest) := fgets (maxInputSize - 1) file
    let length := ((lineBuffer text).takeWhile (· ≠ 0)).length
    if length = 0 then .outside else .line ((lineBuffer text).set (length - 1) 0) rest

theorem length_fgets_le (n : ℕ) (file : List UInt8) : (fgets n file).1.length ≤ n := by
  induction n generalizing file with
  | zero => rfl
  | succ n ih =>
    cases file with
    | nil => exact Nat.zero_le _
    | cons c file =>
      rw [fgets]
      split_ifs
      · simp
      · simpa using ih file

/-- `fgets` stops at the first newline. -/
theorem newline_notMem_fgets (n : ℕ) (file : List UInt8) : newline ∉ (fgets n file).1.dropLast := by
  induction n generalizing file with
  | zero => exact List.not_mem_nil
  | succ n ih =>
    cases file with
    | nil => exact List.not_mem_nil
    | cons c file =>
      rw [fgets]
      split_ifs with ends
      · exact List.not_mem_nil
      · cases more : (fgets n file).1 with
        | nil => exact List.not_mem_nil
        | cons d text =>
          have later := ih file
          rw [more] at later
          rw [List.dropLast_cons_of_ne_nil (List.cons_ne_nil d text), List.mem_cons]
          exact not_or.2 ⟨fun same => ends same.symm, later⟩

theorem takeWhile_append_zero {s : List UInt8} (chars : 0 ∉ s) (rest : List UInt8) :
    (s ++ 0 :: rest).takeWhile (· ≠ 0) = s := by
  have text := cstring_append chars rest
  rw [cstring, if_pos (by simp)] at text
  exact Except.ok.inj text

/-- A string that ends before the padding of the array is the beginning of what was read. -/
theorem prefix_of_lineBuffer {text u more : List UInt8} (chars : 0 ∉ u)
    (buffer : lineBuffer text = u ++ 0 :: more) : u <+: text := by
  rw [lineBuffer] at buffer
  rcases List.append_eq_append_iff.1 buffer with ⟨zeros, u_eq, padding⟩ | ⟨later, text_eq, -⟩
  · have none : zeros = [] := by
      refine List.eq_nil_iff_forall_not_mem.2 fun c mem => chars ?_
      have zero : c ∈ List.replicate (maxInputSize - text.length) 0 := by
        rw [padding]
        exact List.mem_append_left _ mem
      rw [u_eq, ← List.eq_of_mem_replicate zero]
      exact List.mem_append_right _ mem
    rw [u_eq, none, List.append_nil]
  · exact ⟨later, text_eq.symm⟩

/-- A line that is read is a string without a newline, and there are two zero bytes behind it: the
one that replaces its last character, and the terminator. -/
theorem readLine_eq_line {file buffer rest : List UInt8}
    (read : readLine file = .line buffer rest) :
    ∃ s more, buffer = s ++ 0 :: 0 :: more ∧ 0 ∉ s ∧ newline ∉ s := by
  have size := length_fgets_le (maxInputSize - 1) file
  have stops := newline_notMem_fgets (maxInputSize - 1) file
  unfold readLine at read
  split_ifs at read
  generalize fgets (maxInputSize - 1) file = result at size stops read
  obtain ⟨text, rest'⟩ := result
  dsimp only at size stops read
  have padded : maxInputSize - text.length ≠ 0 := by
    change text.length ≤ 1023 at size
    change 1024 - text.length ≠ 0
    omega
  have terminated : 0 ∈ lineBuffer text :=
    List.mem_append_right _ (List.mem_replicate.2 ⟨padded, rfl⟩)
  obtain ⟨u, more, whole, chars⟩ := List.eq_append_cons_of_mem terminated
  have begins := prefix_of_lineBuffer chars whole
  rw [whole, takeWhile_append_zero chars] at read
  rcases List.eq_nil_or_concat u with rfl | ⟨s, c, concat⟩
  · simp at read
  · obtain rfl : u = s ++ [c] := by rw [concat, List.concat_eq_append]
    rw [if_neg (by simp)] at read
    cases read
    refine ⟨s, more, by simp, fun zero => chars (List.mem_append_left _ zero), fun ends => stops ?_⟩
    obtain ⟨later, text_eq⟩ := begins
    rw [← text_eq, List.append_assoc, List.dropLast_append_of_ne_nil (by simp)]
    exact List.mem_append_left _ ends

/-! ## One entry -/

/-- A text that is shorter than both buffers has room. -/
theorem room_of_length {flag : ℤ} {text : List UInt8} (short : text.length < maxTokenSize) :
    Room flag 1 text where
  closed f field := (length_le_of_mem_closedFields field).trans_lt short
  opened := (length_openField_le _ _).trans short.le
  few := by
    have few := length_closedFields_le (delimiter flag) text
    change text.length < 64 at short
    change 1 + _ ≤ 64
    omega

/-- An entry is split without leaving its buffer exactly if there is a zero byte behind its
terminator. -/
theorem tokenize_copyToken_iff {fresh : ℕ → ℕ → UInt8} {flag : ℤ} {behind : ℕ → UInt8}
    {f : List UInt8} (chars : 0 ∉ f) (size : f.length < maxTokenSize) :
    (∃ words, tokenize fresh (copyToken behind f) flag = .ok words) ↔
      ∃ k, f.length < k ∧ k < maxTokenSize ∧ behind k = 0 := by
  rw [copyToken]
  set t := (List.range' (f.length + 1) (maxTokenSize - (f.length + 1))).map behind with tail
  have length : t.length = maxTokenSize - (f.length + 1) := by simp [tail]
  have zero : 0 ∈ t ↔ ∃ k, f.length < k ∧ k < maxTokenSize ∧ behind k = 0 := by
    simp only [tail, List.mem_map, List.mem_range'_1]
    refine exists_congr fun k => ?_
    rw [← and_assoc]
    exact and_congr_left fun _ => by omega
  simp only [tokenize_eq_ok chars]
  rw [← zero]
  constructor
  · rintro ⟨_, ended, -⟩
    exact ended
  · intro ended
    refine ⟨_, ended, room_of_length ?_, rfl⟩
    -- the scan stops in front of the zero byte
    obtain ⟨u, more, whole, free⟩ := List.eq_append_cons_of_mem ended
    rw [scanned, whole, takeWhile_append_zero free]
    rw [whole] at length
    simp only [List.length_append, List.length_cons] at length ⊢
    omega

/-! ## A line -/

/-- Whatever children `fork` makes, no call of `tokenize` for the line leaves a buffer or has none;
`fresh` are the contents of new memory. -/
def InBounds (fresh : ℕ → ℕ → ℕ → UInt8) (line : List UInt8) : Prop :=
  ∀ forks, ∃ vectors, runLine fresh forks line = .ok vectors

/-- The calls of `tokenize` in `executeCommand` have a string to split, and return. -/
def Splits (fresh : ℕ → ℕ → ℕ → UInt8) (commands : List (List UInt8)) (i n : ℕ) : Prop :=
  ∀ j, i ≤ j → j < i + n →
    ∃ command words, commands[j]? = some command ∧ tokenize (fresh j) command 0 = .ok words

section Loop

variable {fresh : ℕ → ℕ → ℕ → UInt8} {commands : List (List UInt8)}

theorem argument_eq_ok {i : ℕ} {command : List UInt8} :
    argument commands i = .ok command ↔ commands[i]? = some command := by
  unfold argument
  cases commands[i]? <;> simp

theorem Splits.returns {n i : ℕ} (splits : Splits fresh commands i n) (forks : ℕ → ℤ) :
    ∃ vectors, executeFrom fresh forks commands n i = .ok vectors := by
  induction n generalizing i with
  | zero => exact ⟨[], rfl⟩
  | succ n ih =>
    obtain ⟨command, words, found, split⟩ := splits i le_rfl (by omega)
    obtain ⟨later, runs⟩ := ih (i := i + 1) fun j above below => splits j (by omega) (by omega)
    simp only [executeFrom, argument_eq_ok.2 found, split, runs, bind, Except.bind]
    by_cases one : forks i = 1
    · rw [if_pos one]
      exact ⟨_, rfl⟩
    · rw [if_neg one]
      exact ⟨_, rfl⟩

/-- If every `fork` makes a child, all entries are split. -/
theorem splits_of_children {n i : ℕ} {vectors : List (List (List UInt8))}
    (returns : executeFrom fresh (fun _ => 2) commands n i = .ok vectors) :
    Splits fresh commands i n := by
  induction n generalizing i vectors with
  | zero => exact fun j above below => by omega
  | succ n ih =>
    simp only [executeFrom, bind_eq_ok] at returns
    obtain ⟨command, found, words, split, rest⟩ := returns
    rw [if_neg (by decide), bind_eq_ok] at rest
    obtain ⟨later, runs, -⟩ := rest
    intro j above below
    rcases Nat.eq_or_lt_of_le above with rfl | after
    · exact ⟨command, words, argument_eq_ok.1 found, split⟩
    · exact ih runs j after (by omega)

end Loop

theorem getElem?_copies (fresh : ℕ → ℕ → UInt8) (k : ℕ) (ws : List (List UInt8)) (i : ℕ) :
    (copies fresh k ws)[i]? = ws[i]?.map (copyToken (fresh (k + i))) := by
  induction ws generalizing k i with
  | nil => rfl
  | cons w ws ih =>
    cases i with
    | zero => rfl
    | succ i =>
      rw [copies, List.getElem?_cons_succ, ih, List.getElem?_cons_succ, Nat.add_right_comm,
        Nat.add_assoc]

/-- The entries of a line are shorter than 64 characters and fewer than 64, and, unless the line is
empty, there are as many as `main` counts commands, and the memory behind the terminator of each that
is split has a zero byte. -/
structure Roomy (fresh : ℕ → ℕ → UInt8) (s : List UInt8) : Prop where
  short : ∀ f ∈ fields (delimiter 1) s, f.length < maxTokenSize
  few : (fields (delimiter 1) s).length < maxNumTokens
  enough : s ≠ [] → commandCount s ≤ (fields (delimiter 1) s).length
  ended : ∀ i f, i < commandCount s → (fields (delimiter 1) s)[i]? = some f →
    ∃ k, f.length < k ∧ k < maxTokenSize ∧ fresh i k = 0

/-- The entries of a line are split exactly if there are enough of them and a zero byte is behind
each. -/
theorem splits_copies_iff (fresh : ℕ → ℕ → UInt8) (fresh' : ℕ → ℕ → ℕ → UInt8) {s : List UInt8}
    (chars : 0 ∉ s) (short : ∀ f ∈ fields (delimiter 1) s, f.length < maxTokenSize) (n : ℕ) :
    Splits fresh' (copies fresh 0 (fields (delimiter 1) s)) 0 n ↔
      n ≤ (fields (delimiter 1) s).length ∧
        ∀ i f, i < n → (fields (delimiter 1) s)[i]? = some f →
          ∃ k, f.length < k ∧ k < maxTokenSize ∧ fresh i k = 0 := by
  have entry {i : ℕ} {f : List UInt8} (found : (fields (delimiter 1) s)[i]? = some f) :
      (copies fresh 0 (fields (delimiter 1) s))[i]? = some (copyToken (fresh i) f) ∧
        ((∃ words, tokenize (fresh' i) (copyToken (fresh i) f) 0 = .ok words) ↔
          ∃ k, f.length < k ∧ k < maxTokenSize ∧ fresh i k = 0) := by
    have field := List.mem_of_getElem? found
    have free := of_mem_splitOnP (mem_fields.1 field).1
    refine ⟨?_, tokenize_copyToken_iff (fun zero => chars (free 0 zero).1) (short f field)⟩
    rw [getElem?_copies, found, Nat.zero_add]
    rfl
  constructor
  · intro splits
    refine ⟨?_, fun i f below found => ?_⟩
    · by_contra fewer
      obtain ⟨command, words, found, -⟩ :=
        splits (fields (delimiter 1) s).length (Nat.zero_le _) (by omega)
      have inside := (List.getElem?_eq_some_iff.1 found).1
      rw [length_copies] at inside
      exact lt_irrefl _ inside
    · obtain ⟨command, words, copied, split⟩ := splits i (Nat.zero_le i) (by omega)
      rw [(entry found).1] at copied
      cases copied
      exact (entry found).2.1 ⟨words, split⟩
  · rintro ⟨enough, ended⟩ i - below
    have inside : i < (fields (delimiter 1) s).length := by omega
    have found := List.getElem?_eq_getElem inside
    obtain ⟨words, split⟩ := (entry found).2.2 (ended i _ (by omega) found)
    exact ⟨_, words, (entry found).1, split⟩

/-- For every line that `main` reads in batch mode, and any contents of new memory, all calls of
`tokenize` on both levels have a string to split and stay in their buffers exactly if the line is
roomy. -/
theorem inBounds_iff_roomy {file buffer rest : List UInt8}
    (read : readLine file = .line buffer rest) (fresh : ℕ → ℕ → ℕ → UInt8) :
    InBounds fresh buffer ↔ Roomy (fresh 0) (buffer.takeWhile (· ≠ 0)) := by
  obtain ⟨s, more, rfl, chars, -⟩ := readLine_eq_line read
  have string := cstring_append chars (0 :: more)
  rw [takeWhile_append_zero chars]
  by_cases empty : s = []
  · subst empty
    have done (forks : ℕ → ℤ) : runLine fresh forks ([] ++ 0 :: 0 :: more) = .ok [] := by
      simp only [runLine, string, bind, Except.bind, if_true]
    exact iff_of_true (fun forks => ⟨[], done forks⟩)
      ⟨by simp [fields], by simp [fields], fun other => absurd rfl other, by simp [fields]⟩
  have line (forks : ℕ → ℤ) : runLine fresh forks (s ++ 0 :: 0 :: more) =
      (tokenize (fresh 0) (s ++ 0 :: 0 :: more) 1 >>= fun tokens =>
        executeFrom (fun i => fresh (i + 1)) forks tokens (commandCount s) 0) := by
    simp only [runLine, string, empty, if_false, bind, Except.bind, executeCommand]
  simp only [InBounds, line, bind_eq_ok]
  constructor
  · intro returns
    obtain ⟨vectors, tokens, split, loop⟩ := returns fun _ => 2
    obtain ⟨⟨short, few⟩, rfl⟩ := (tokenize_line_eq_ok chars more).1 split
    obtain ⟨enough, ended⟩ :=
      (splits_copies_iff (fresh 0) _ chars short _).1 (splits_of_children loop)
    exact ⟨short, few, fun _ => enough, ended⟩
  · intro roomy forks
    have splits := (splits_copies_iff (fresh 0) (fun i => fresh (i + 1)) chars roomy.short _).2
      ⟨roomy.enough empty, roomy.ended⟩
    obtain ⟨vectors, loop⟩ := splits.returns forks
    exact ⟨vectors, _, (tokenize_line_eq_ok chars more).2 ⟨⟨roomy.short, roomy.few⟩, rfl⟩, loop⟩

/-- The line `ls -l | wc`. -/
theorem inBounds_iff_roomy_lsWc :
    InBounds (fun _ => zeroed)
      (lineBuffer (ascii ['l', 's', ' ', '-', 'l', ' ', '|', ' ', 'w', 'c'])) := by
  have read : readLine (ascii ['l', 's', ' ', '-', 'l', ' ', '|', ' ', 'w', 'c'] ++ [newline]) =
      .line (lineBuffer (ascii ['l', 's', ' ', '-', 'l', ' ', '|', ' ', 'w', 'c'])) [] := by
    decide +kernel
  have short : ∀ f ∈ fields (delimiter 1)
      ((lineBuffer (ascii ['l', 's', ' ', '-', 'l', ' ', '|', ' ', 'w', 'c'])).takeWhile (· ≠ 0)),
      f.length < 63 := by
    decide +kernel
  refine (inBounds_iff_roomy read fun _ => zeroed).2
    ⟨fun f field => ?_, by decide +kernel, fun _ => by decide +kernel, ?_⟩
  · exact (short f field).trans (by decide)
  · exact fun i f _ found => ⟨63, short f (List.mem_of_getElem? found), by decide, rfl⟩

/-- A word of 64 characters does not fit in `token`; an entry of 63 characters leaves no room in its
buffer for the newline and a zero byte; and after the line `ls|` there is no second string. -/
theorem not_inBounds_long :
    (readLine (List.replicate 64 'x'.toUInt8 ++ [newline]) =
        .line (lineBuffer (List.replicate 64 'x'.toUInt8)) [] ∧
      runLine (fun _ => zeroed) (fun _ => 2) (lineBuffer (List.replicate 64 'x'.toUInt8)) =
        .error .token) ∧
    (readLine (List.replicate 63 'x'.toUInt8 ++ [newline]) =
        .line (lineBuffer (List.replicate 63 'x'.toUInt8)) [] ∧
      runLine (fun _ => zeroed) (fun _ => 2) (lineBuffer (List.replicate 63 'x'.toUInt8)) =
        .error .unterminated) ∧
    readLine (ascii ['l', 's', '|'] ++ [newline]) = .line (lineBuffer (ascii ['l', 's', '|'])) [] ∧
      runLine (fun _ => zeroed) (fun _ => 2) (lineBuffer (ascii ['l', 's', '|'])) =
        .error .null := by
  refine ⟨⟨?_, ?_⟩, ⟨?_, ?_⟩, ?_, ?_⟩ <;> decide +kernel

end SsuOs.Shell
