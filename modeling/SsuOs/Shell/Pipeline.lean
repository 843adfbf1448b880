import Mathlib.Tactic.IntervalCases
import SsuOs.Shell.Processes

/-!
# Pipelines

What the descriptors of the children of `executeCommand` refer to: `pipeline_wired` says that the
children are connected as they should be, and `readEnds_private_iff` who holds the ends that are
read.
-/

namespace SsuOs.Shell

open Descriptors (Table)

variable {E : Type}

/-! ## The children -/

/-- The input of child `k`. -/
def inputFile (T : Table E) (k : ℕ) : Option (File E) :=
  if k = 0 then (T.get 0).map .outside else some (.readEnd (k - 1))

/-- The output of child `k`. -/
def outputFile (p : Invocation) (T : Table E) (k : ℕ) : Option (File E) :=
  if k + 1 < p.cmdCnt then some (.writeEnd k) else (T.get 1).map .outside

/-- The table of child `k` when it stands at `pc`, if the write end of its pipe is at descriptor
`w`. -/
def childEntry (p : Invocation) (T : Table E) (k w : ℕ) (pc : ChildPc) (x : ℕ) : Option (File E) :=
  match pc with
  | .input => forkEntry p T k w x
  | .output => if x = 0 then inputFile T k else forkEntry p T k w x
  | .closing =>
    if x = 0 then inputFile T k else if x = 1 then outputFile p T k else forkEntry p T k w x
  | .executing =>
    if 1 < p.cmdCnt ∧ x = k + 3 then none
    else if x = 0 then inputFile T k else if x = 1 then outputFile p T k else forkEntry p T k w x
  | .exited => none

/-- What child `k` has done. -/
structure Connected (p : Invocation) (T : Table E) (k : ℕ) (c : Child E) : Prop where
  round : c.i = k
  locals : Variables p T k c.fd c.fdPrev
  piped : c.pc = .output ∨ c.pc = .closing → 1 < p.cmdCnt
  entries : ∀ x, c.table.get x = childEntry p T k c.fd.2 c.pc x

section Children

variable {p : Invocation} {T : Table E} {s s' : Processes E} {k : ℕ} {c c' : Child E}

theorem Connected.closing (connected : Connected p T k c) (here : c.pc = .closing) (x : ℕ) :
    (c.table.close c.fd.1).get x = childEntry p T k c.fd.2 .executing x := by
  have entries := connected.entries
  have several := connected.piped (.inr here)
  simp only [here, childEntry] at entries ⊢
  rw [Table.get_close, entries, connected.locals.read several]
  by_cases own : x = k + 3
  · rw [if_pos own, if_pos ⟨several, own⟩]
  · have other : ¬ (1 < p.cmdCnt ∧ x = k + 3) := fun both => own both.2
    rw [if_neg own, if_neg other]

section Step

variable (std : ∀ fd < 3, T.get fd ≠ none)

include std

/-- The pipe of a round takes none of the descriptors 0, 1 and 2. -/
theorem Variables.high {fd : ℕ × ℕ} {fdPrev : ℕ} (locals : Variables p T k fd fdPrev)
    (several : 1 < p.cmdCnt) : 3 ≤ fd.2 := by
  by_contra low
  have write := locals.write several
  rw [headEntry, if_neg (by omega)] at write
  exact std _ (not_le.1 low) (by simpa using write)

theorem Variables.forkEntry_std {fd : ℕ × ℕ} {fdPrev x : ℕ} (locals : Variables p T k fd fdPrev)
    (low : x < 3) : forkEntry p T k fd.2 x = (T.get x).map .outside := by
  rw [forkEntry, if_neg, headEntry, if_neg (by omega)]
  rintro ⟨several, rfl⟩
  have high := locals.high std several
  omega

theorem Connected.input (connected : Connected p T k c) (here : c.pc = .input)
    (several : 1 < p.cmdCnt) (x : ℕ) :
    (c.table.dup2 c.fdPrev 0).get x = childEntry p T k c.fd.2 .output x := by
  have entries := connected.entries
  have locals := connected.locals
  simp only [here, childEntry] at entries ⊢
  obtain ⟨f, file, opened⟩ : ∃ f, inputFile T k = some f ∧ c.table.get c.fdPrev = some f := by
    rw [entries, locals.previous, inputFile, previous]
    rcases Nat.eq_zero_or_pos k with rfl | later
    · obtain ⟨f, file⟩ := Option.ne_none_iff_exists'.1 (std 0 (by decide))
      rw [if_pos rfl, if_neg (by omega), locals.forkEntry_std std (by decide), file]
      exact ⟨_, rfl, rfl⟩
    · -- the read end of the pipe before is not where the new write end is
      have old : headEntry T (k + 1) (k + 2) = some (.readEnd (k - 1)) := by
        rw [headEntry, if_pos (by omega), show k + 2 - 3 = k - 1 by omega]
      have apart : ¬ k + 2 = c.fd.2 := fun same => by
        have write := locals.write several
        rw [← same, old] at write
        cases write
      rw [if_neg (by omega), if_pos ⟨several, later⟩, forkEntry, if_neg (by tauto), made,
        if_pos several, old]
      exact ⟨_, rfl, rfl⟩
  rw [Table.get_dup2 opened, entries, file]

theorem Connected.output (connected : Connected p T k c) (here : c.pc = .output)
    (length : p.commands.length = p.cmdCnt) (x : ℕ) :
    (if p.commands[c.i + 1]?.isSome then c.table.dup2 c.fd.2 1 else c.table).get x =
      childEntry p T k c.fd.2 .closing x := by
  have entries := connected.entries
  have several := connected.piped (.inl here)
  have high := connected.locals.high std several
  have last : p.commands[c.i + 1]?.isSome ↔ k + 1 < p.cmdCnt := by
    rw [connected.round, ← length]
    simp
  simp only [here, childEntry] at entries ⊢
  by_cases more : k + 1 < p.cmdCnt
  · have opened : c.table.get c.fd.2 = some (.writeEnd k) := by
      rw [entries, if_neg (by omega), forkEntry, if_pos ⟨several, rfl⟩]
    rw [if_pos (last.2 more), Table.get_dup2 opened, entries, outputFile, if_pos more]
    split_ifs <;> first | rfl | omega
  · rw [if_neg (fun some => more (last.1 some)), entries, outputFile, if_neg more]
    split_ifs with first second
    · rfl
    · rw [second, connected.locals.forkEntry_std std (by decide)]
    · rfl

/-- Without a pipe a child executes its command with the descriptors of the shell. -/
theorem Connected.single (connected : Connected p T k c) (here : c.pc = .input)
    (single : ¬ 1 < p.cmdCnt) (x : ℕ) :
    c.table.get x = childEntry p T k c.fd.2 .executing x := by
  have entries := connected.entries
  have round := connected.locals.round
  simp only [here, childEntry] at entries ⊢
  rw [entries]
  split_ifs with piped first second
  · exact absurd piped.1 single
  · rw [first, connected.locals.forkEntry_std std (by decide), inputFile, if_pos (by omega)]
  · rw [second, connected.locals.forkEntry_std std (by decide), outputFile, if_neg (by omega)]
  · rfl

theorem Connected.step (connected : Connected p T k c) (length : p.commands.length = p.cmdCnt)
    (step : stepChild p c = some c') : Connected p T k c' := by
  have ⟨round, locals, piped, _⟩ := connected
  cases here : c.pc with
  | input =>
    simp only [stepChild, here] at step
    split_ifs at step with several
    · cases step
      exact ⟨round, locals, fun _ => several, connected.input std here several⟩
    · have entries := connected.single std here several
      cases step
      exact ⟨round, locals, by simp, entries⟩
  | output =>
    simp only [stepChild, here] at step
    cases step
    exact ⟨round, locals, fun _ => piped (.inl here), connected.output std here length⟩
  | closing =>
    simp only [stepChild, here] at step
    cases step
    exact ⟨round, locals, by simp, connected.closing here⟩
  | executing =>
    simp only [stepChild, here] at step
    cases step
    exact ⟨round, locals, by simp, Table.get_nil⟩
  | exited => simp [stepChild, here] at step

end Step

/-- A child up to the call of `execvp`, if it gets there within `n` steps. -/
def Child.setUp (p : Invocation) : ℕ → Child E → Child E
  | 0, c => c
  | n + 1, c =>
    if c.pc = .executing then c
    else match stepChild p c with
      | some c' => Child.setUp p n c'
      | none => c

/-- The steps that a child has to take before `execvp`. -/
def ChildPc.left : ChildPc → ℕ
  | .input => 3
  | .output => 2
  | .closing => 1
  | .executing => 0
  | .exited => 0

theorem stepChild_left (before : c.pc ≠ .executing) (alive : c.pc ≠ .exited) :
    ∃ c', stepChild p c = some c' ∧ c'.pc ≠ .exited ∧ c'.pc.left < c.pc.left := by
  cases here : c.pc with
  | input =>
    simp only [stepChild, here]
    split_ifs
    · exact ⟨_, rfl, by simp, by simp [ChildPc.left]⟩
    · exact ⟨_, rfl, by simp, by simp [ChildPc.left]⟩
  | output =>
    simp only [stepChild, here]
    exact ⟨_, rfl, by simp, by simp [ChildPc.left]⟩
  | closing =>
    simp only [stepChild, here]
    exact ⟨_, rfl, by simp, by simp [ChildPc.left]⟩
  | executing => exact absurd here before
  | exited => exact absurd here alive

/-- A child is added at the `fork`, and at no other step of the shell. -/
theorem ShellStep.children (step : ShellStep p s s') :
    s'.children = s.children ∨
      s.pc = .fork ∧ ∃ command, s'.children = s.children ++ [forkChild s command] := by
  cases step with
  | fork here command =>
    dsimp only
    split_ifs
    · exact .inr ⟨here, command, rfl⟩
    · exact .inl rfl
  | pipe | single | last | pass | advance | waited | close | leave => exact .inl rfl

/-- All processes have done what they should. -/
structure Wired (p : Invocation) (T : Table E) (s : Processes E) : Prop where
  progress : Progress p T s
  connected : ∀ k c, s.children[k]? = some c → Connected p T k c

theorem wired_start (T : Table E) (fd : ℕ × ℕ) : Wired p T (start T fd) :=
  ⟨progress_start T fd, by simp [start]⟩

/-- A new child starts with the table of the shell. -/
theorem Progress.forkChild (progress : Progress p T s) (here : s.pc = .fork)
    (command : List (List UInt8)) :
    s.children.length = s.i ∧ Connected p T s.i (forkChild s command) := by
  simp only [Progress, here] at progress
  obtain ⟨locals, length, entries⟩ := progress
  exact ⟨length, rfl, locals, by simp [Shell.forkChild], entries⟩

section Runs

variable (std : ∀ fd < 3, T.get fd ≠ none) (length : p.commands.length = p.cmdCnt)

include std length

theorem Connected.setUp (connected : Connected p T k c) (alive : c.pc ≠ .exited) {n : ℕ}
    (enough : c.pc.left ≤ n) :
    (c.setUp p n).pc = .executing ∧ Connected p T k (c.setUp p n) := by
  induction n generalizing c with
  | zero =>
    rw [Child.setUp]
    refine ⟨?_, connected⟩
    cases here : c.pc <;> simp_all [ChildPc.left]
  | succ n ih =>
    rw [Child.setUp]
    split_ifs with there
    · exact ⟨there, connected⟩
    · obtain ⟨c', step, alive', fewer⟩ := stepChild_left there alive
      rw [step]
      exact ih (connected.step std length step) alive' (by omega)

variable (free : ∀ fd, 3 ≤ fd → fd < 3 + p.cmdCnt → T.get fd = none)
  (succeed : ∀ i, 1 < p.forks i)

include free succeed

theorem Wired.step {a : Actor} (wired : Wired p T s) (step : Step p s a s') : Wired p T s' := by
  refine ⟨wired.progress.step std free succeed step, fun k c child => ?_⟩
  cases a with
  | parent =>
    rcases (shellStep_of step).children with same | ⟨here, command, added⟩
    · rw [same] at child
      exact wired.connected k c child
    · obtain ⟨count, connected⟩ := wired.progress.forkChild here command
      rw [added, List.getElem?_append] at child
      split_ifs at child with old
      · exact wired.connected k c child
      · rw [List.getElem?_singleton] at child
        split_ifs at child with last
        cases child
        obtain rfl : k = s.i := by omega
        exact connected
  | child j =>
    obtain ⟨d, d', found, moved, rfl⟩ := childStep_of step
    dsimp only at child
    rw [List.getElem?_set] at child
    split_ifs at child with same
    · subst same
      cases child
      exact (wired.connected j d found).step std length moved
    · exact wired.connected k c child

theorem wired_of_run {fd : ℕ × ℕ} {l : List (Event (Processes E) Actor)}
    (run : Run (Step p) (start T fd) l s) : Wired p T s :=
  run.invariant (P := Wired p T) (wired_start T fd) fun _ _ _ wired step =>
    wired.step std length free succeed step

end Runs

/-! ## The pipes -/

/-- The shell has created all children and has not begun to close descriptors by their numbers, or
it is doing that or has returned. -/
def Processes.Forked (s : Processes E) : Prop :=
  s.pc = .waiting ∨ (∃ k, s.pc = .closing k) ∨ s.pc = .returned

theorem Progress.forked (progress : Progress p T s) (forked : s.Forked) :
    s.children.length = p.cmdCnt := by
  rcases forked with here | ⟨k, here⟩ | here <;> simp only [Progress, here] at progress
  · exact progress.1
  · exact progress.1
  · exact progress.1

theorem outside_ne_readEnd {o : Option E} {i : ℕ} : o.map File.outside ≠ some (.readEnd i) := by
  cases o <;> simp

theorem outside_ne_writeEnd {o : Option E} {i : ℕ} : o.map File.outside ≠ some (.writeEnd i) := by
  cases o <;> simp

theorem headEntry_ne_writeEnd (T : Table E) (m x i : ℕ) :
    headEntry T m x ≠ some (.writeEnd i) := by
  rw [headEntry]
  split_ifs
  · simp
  · exact outside_ne_writeEnd

/-- After its loop the shell holds no write end. -/
theorem Progress.not_writeEnd (progress : Progress p T s) (forked : s.Forked) (i : ℕ) :
    ¬ s.table.Holds (.writeEnd i) := by
  rw [Table.holds_iff]
  rintro ⟨x, here⟩
  rcases forked with pc | ⟨k, pc⟩ | pc
  · simp only [Progress, pc] at progress
    rw [progress.2] at here
    exact headEntry_ne_writeEnd _ _ _ _ here
  · simp only [Progress, pc] at progress
    rw [progress.2.2.2] at here
    split_ifs at here
    exact headEntry_ne_writeEnd _ _ _ _ here
  · simp only [Progress, pc] at progress
    rw [progress.2] at here
    split_ifs at here
    exact outside_ne_writeEnd here

theorem forkEntry_writeEnd {w x i : ℕ} (here : forkEntry p T k w x = some (.writeEnd i)) :
    i = k := by
  rw [forkEntry] at here
  split_ifs at here
  · cases here
    rfl
  · exact absurd here (headEntry_ne_writeEnd _ _ _ _)

theorem inputFile_ne_writeEnd (T : Table E) (k i : ℕ) : inputFile T k ≠ some (.writeEnd i) := by
  rw [inputFile]
  split_ifs
  · exact outside_ne_writeEnd
  · simp

theorem outputFile_writeEnd {i : ℕ} (here : outputFile p T k = some (.writeEnd i)) : i = k := by
  rw [outputFile] at here
  split_ifs at here
  · cases here
    rfl
  · exact absurd here outside_ne_writeEnd

/-- Of the write ends a child holds its own at most, and none after its end. -/
theorem Connected.writeEnd (connected : Connected p T k c) {i : ℕ}
    (holds : c.table.Holds (.writeEnd i)) : i = k ∧ c.pc ≠ .exited := by
  obtain ⟨x, here⟩ := Table.holds_iff.1 holds
  rw [connected.entries] at here
  cases pc : c.pc <;> simp only [pc, childEntry] at here
  case input => exact ⟨forkEntry_writeEnd here, by simp⟩
  case output =>
    split_ifs at here
    · exact absurd here (inputFile_ne_writeEnd _ _ _)
    · exact ⟨forkEntry_writeEnd here, by simp⟩
  case exited => cases here
  all_goals
    split_ifs at here
    · exact absurd here (inputFile_ne_writeEnd _ _ _)
    · exact ⟨outputFile_writeEnd here, by simp⟩
    · exact ⟨forkEntry_writeEnd here, by simp⟩

/-- What the code assumes of the shell: it has the descriptors 0, 1 and 2 and no other. -/
def OnlyStandard (T : Table E) : Prop := ∀ fd, T.get fd ≠ none ↔ fd < 3

theorem OnlyStandard.free {fd : ℕ} (only : OnlyStandard T) (high : 3 ≤ fd) : T.get fd = none := by
  by_contra opened
  have low := (only fd).1 opened
  omega

/-- After the loop of `executeCommand` every child that has not ended gets to its command with the
pipe of the round before as its input and its own pipe as its output, except for the input of the
first and the output of the last child, and no process but child `i` holds the write end of pipe
`i`, so that nobody holds it when child `i` has ended. -/
theorem pipeline_wired (length : p.commands.length = p.cmdCnt) (only : OnlyStandard T)
    (succeed : ∀ i, 1 < p.forks i) {fd : ℕ × ℕ} {l : List (Event (Processes E) Actor)}
    (run : Run (Step p) (start T fd) l s) (forked : s.Forked) :
    s.children.length = p.cmdCnt ∧
    (∀ k c, s.children[k]? = some c → c.pc ≠ .exited →
      (c.setUp p 3).pc = .executing ∧
      (c.setUp p 3).table.get 0 = inputFile T k ∧
      (c.setUp p 3).table.get 1 = outputFile p T k) ∧
    ∀ i, ¬ s.table.Holds (.writeEnd i) ∧
      ∀ k c, s.children[k]? = some c → c.table.Holds (.writeEnd i) → k = i ∧ c.pc ≠ .exited := by
  have std : ∀ fd < 3, T.get fd ≠ none := fun fd low => (only fd).2 low
  have wired := wired_of_run std length (fun fd high _ => only.free high) succeed run
  refine ⟨wired.progress.forked forked, fun k c child alive => ?_, fun i => ⟨?_, ?_⟩⟩
  · have before : c.pc.left ≤ 3 := by cases c.pc <;> simp [ChildPc.left]
    obtain ⟨there, connected⟩ := (wired.connected k c child).setUp std length alive before
    have entries := connected.entries
    simp only [there, childEntry] at entries
    refine ⟨there, ?_, ?_⟩
    · rw [entries, if_neg (by omega), if_pos rfl]
    · rw [entries, if_neg (by omega), if_neg (by omega), if_pos rfl]
  · exact wired.progress.not_writeEnd forked i
  · intro k c child holds
    obtain ⟨own, alive⟩ := (wired.connected k c child).writeEnd holds
    exact ⟨own.symm, alive⟩

theorem onlyStandard_console : OnlyStandard console := by
  intro fd
  rcases Nat.lt_or_ge fd 3 with low | high
  · interval_cases fd <;> decide
  · have closed : console.get fd = none := List.getD_eq_default _ _ high
    simp only [closed, ne_eq, not_true_eq_false, false_iff, not_lt]
    exact high

/-- The shell waits while `ls` and `wc` are executed. -/
theorem lsWc_waits :
    ∃ l s, Run (Step lsWc) (start console (0, 0)) l s ∧ s.pc = .waiting ∧
      (∀ c ∈ s.children, c.pc = .executing) ∧ s.table.Holds (.readEnd 0) :=
  exists_run_of_replay (next lsWc) (start console (0, 0))
    (twoRounds ++ List.replicate 3 (.child 0) ++ List.replicate 3 (.child 1))
    (P := fun r => r.2.pc = .waiting ∧ (∀ c ∈ r.2.children, c.pc = .executing) ∧
      r.2.table.Holds (.readEnd 0)) (by decide +kernel)

theorem pipeline_wired_lsWc :
    ∃ l s, Run (Step lsWc) (start console (0, 0)) l s ∧ s.Forked ∧
      s.children.length = lsWc.cmdCnt ∧
      (∀ k c, s.children[k]? = some c → c.pc ≠ .exited →
        (c.setUp lsWc 3).pc = .executing ∧
        (c.setUp lsWc 3).table.get 0 = inputFile console k ∧
        (c.setUp lsWc 3).table.get 1 = outputFile lsWc console k) ∧
      ∀ i, ¬ s.table.Holds (.writeEnd i) ∧
        ∀ k c, s.children[k]? = some c → c.table.Holds (.writeEnd i) → k = i ∧ c.pc ≠ .exited := by
  obtain ⟨l, s, run, waiting, -⟩ := lsWc_waits
  exact ⟨l, s, run, .inl waiting,
    pipeline_wired rfl onlyStandard_console lsWc_succeeds run (.inl waiting)⟩

theorem headEntry_readEnd {m x i : ℕ} :
    headEntry T m x = some (.readEnd i) ↔ x = i + 3 ∧ i < m := by
  rw [headEntry]
  split_ifs with pipe
  · simp only [Option.some.injEq, File.readEnd.injEq]
    omega
  · constructor
    · exact fun here => absurd here outside_ne_readEnd
    · omega

/-- While it waits, the shell holds the read ends of all pipes. -/
theorem Progress.readEnd_iff (progress : Progress p T s) (waiting : s.pc = .waiting) (i : ℕ) :
    s.table.Holds (.readEnd i) ↔ i < made p p.cmdCnt := by
  simp only [Progress, waiting] at progress
  simp only [Table.holds_iff, progress.2, headEntry_readEnd, exists_eq_left]

/-- A child that executes its command holds the read ends of all pipes before its own. -/
theorem Connected.readEnd_iff (connected : Connected p T k c) (executing : c.pc = .executing)
    (several : 1 < p.cmdCnt) (i : ℕ) : c.table.Holds (.readEnd i) ↔ i < k := by
  have entries := connected.entries
  simp only [executing, childEntry] at entries
  rw [Table.holds_iff]
  constructor
  · rintro ⟨x, here⟩
    rw [entries] at here
    split_ifs at here with own first second
    · rw [inputFile] at here
      split_ifs at here
      · exact absurd here outside_ne_readEnd
      · cases here
        omega
    · rw [outputFile] at here
      split_ifs at here
      · cases here
      · exact absurd here outside_ne_readEnd
    · rw [forkEntry] at here
      split_ifs at here
      · cases here
      · obtain ⟨rfl, early⟩ := headEntry_readEnd.1 here
        rw [made, if_pos several] at early
        omega
  · intro earlier
    have there := (headEntry_readEnd (T := T)).2 ⟨rfl, Nat.lt_succ_of_lt earlier⟩
    refine ⟨i + 3, ?_⟩
    rw [entries, if_neg (by omega), if_neg (by omega), if_neg (by omega), forkEntry, if_neg, made,
      if_pos several, there]
    -- the write end took a descriptor that was closed
    rintro ⟨-, same⟩
    rw [same, connected.locals.write several] at there
    cases there

/-- The read end of pipe `i` is held by child `i + 1` until its end, and by no other process. -/
def Processes.Private (s : Processes E) (i : ℕ) : Prop :=
  ¬ s.table.Holds (.readEnd i) ∧ ∀ k c, s.children[k]? = some c → c.pc ≠ .exited →
    (c.table.Holds (.readEnd i) ↔ k = i + 1)

/-- While the shell waits, the read ends are held by their readers only, exactly when there is no
pipe: the shell itself holds the read ends of all pipes. -/
theorem readEnds_private_iff (length : p.commands.length = p.cmdCnt) (only : OnlyStandard T)
    (succeed : ∀ i, 1 < p.forks i) {fd : ℕ × ℕ} {l : List (Event (Processes E) Actor)}
    (run : Run (Step p) (start T fd) l s) (waiting : s.pc = .waiting) :
    (∀ i, i + 1 < p.cmdCnt → s.Private i) ↔ p.cmdCnt < 2 := by
  have wired := wired_of_run (fun fd low => (only fd).2 low) length
    (fun fd high _ => only.free high) succeed run
  constructor
  · intro privately
    by_contra several
    refine (privately 0 (by omega)).1 ((wired.progress.readEnd_iff waiting 0).2 ?_)
    rw [made, if_pos (by omega)]
    omega
  · intro single i early
    omega

/-- Who holds the read end of a pipe while the shell waits and the children execute their commands:
the shell and all children of later rounds. -/
theorem readEnd_holders (length : p.commands.length = p.cmdCnt) (several : 2 ≤ p.cmdCnt)
    (only : OnlyStandard T) (succeed : ∀ i, 1 < p.forks i) {fd : ℕ × ℕ}
    {l : List (Event (Processes E) Actor)} (run : Run (Step p) (start T fd) l s)
    (waiting : s.pc = .waiting) (i : ℕ) :
    (s.table.Holds (.readEnd i) ↔ i < p.cmdCnt) ∧
      ∀ k c, s.children[k]? = some c → c.pc = .executing →
        (c.table.Holds (.readEnd i) ↔ i < k) := by
  have wired := wired_of_run (fun fd low => (only fd).2 low) length
    (fun fd high _ => only.free high) succeed run
  refine ⟨?_, fun k c child executing => ?_⟩
  · rw [wired.progress.readEnd_iff waiting, made, if_pos (Nat.lt_of_succ_le several)]
  · exact (wired.connected k c child).readEnd_iff executing several i

end Children

theorem readEnds_private_iff_lsWc :
    ∃ l s, Run (Step lsWc) (start console (0, 0)) l s ∧ s.pc = .waiting ∧
      ((∀ i, i + 1 < lsWc.cmdCnt → s.Private i) ↔ lsWc.cmdCnt < 2) := by
  obtain ⟨l, s, run, waiting, -⟩ := lsWc_waits
  exact ⟨l, s, run, waiting,
    readEnds_private_iff rfl onlyStandard_console lsWc_succeeds run waiting⟩

/-- While `ls` writes and `wc` reads, the shell holds the end from which `wc` reads. -/
theorem readEnds_shared_lsWc :
    ¬ ∀ (p : Invocation) (T : Table ℕ) (fd : ℕ × ℕ) l s, 2 ≤ p.cmdCnt →
      p.commands.length = p.cmdCnt → OnlyStandard T → (∀ i, 1 < p.forks i) →
      Run (Step p) (start T fd) l s → s.pc = .waiting →
        ∀ i, i + 1 < p.cmdCnt → s.Private i := by
  intro privately
  obtain ⟨l, s, run, waiting, -, holds⟩ := lsWc_waits
  exact (privately lsWc console _ l s le_rfl rfl onlyStandard_console lsWc_succeeds run waiting 0
    (by decide)).1 holds

end SsuOs.Shell
