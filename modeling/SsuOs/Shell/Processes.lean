import SsuOs.Base.Descriptors
import SsuOs.Base.Run
import SsuOs.Shell.Commands

/-!
# The processes of a command line

`executeCommand` of `hw2/ssu_shell.c` as a system of processes: the shell goes through the commands,
each time with a new pipe and a child, waits for the children and closes descriptors by their
numbers; a child connects its input and its output and executes its command. The processes
take their steps in any order, and every process has its own table of descriptors.

`descriptors_kept_iff` says when the shell gets its descriptors back.
-/

namespace SsuOs.Shell

open Descriptors (Table)

/-! ## Processes -/

/-- What a descriptor refers to: a file that was open before, or an end of the pipe that was created
in the given round of the loop. -/
inductive File (E : Type)
  | outside (file : E)
  | readEnd (i : ℕ)
  | writeEnd (i : ℕ)
  deriving DecidableEq

/-- Where a child stands: before one of its calls of `dup2` and `close`, in `execvp` and the command
that it starts, or after its end. -/
inductive ChildPc
  | input
  | output
  | closing
  | executing
  | exited
  deriving DecidableEq

/-- A child, with the variables of `executeCommand` as they were at the `fork`. -/
structure Child (E : Type) where
  table : Table (File E)
  pc : ChildPc
  command : List (List UInt8)
  i : ℕ
  fd : ℕ × ℕ
  fdPrev : ℕ

/-- Where the shell stands: at the head of the loop, before `fork`, in the branch of the parent, in
the loop that waits, in the loop that closes descriptors (before number `k`), or after the
return. -/
inductive ParentPc
  | head
  | fork
  | parent
  | waiting
  | closing (k : ℕ)
  | returned
  deriving DecidableEq

structure Processes (E : Type) where
  table : Table (File E)
  pc : ParentPc
  i : ℕ
  fd : ℕ × ℕ
  fdPrev : ℕ
  children : List (Child E)

/-- The arguments of a call of `executeCommand`, what `fork` returns to the shell in each round, and
the contents of the buffers that `tokenize` allocates. -/
structure Invocation where
  commands : List (List UInt8)
  cmdCnt : ℕ
  forks : ℕ → ℤ
  fresh : ℕ → ℕ → ℕ → UInt8

variable {E : Type}

/-- The call from a shell with the open descriptors `T`; the array `fd` has no initial value. -/
def start (T : Table E) (fd : ℕ × ℕ) : Processes E where
  table := T.map .outside
  pc := .head
  i := 0
  fd := fd
  fdPrev := 0
  children := []

/-- A step of a child. After the end of its command its descriptors are closed. -/
def stepChild (p : Invocation) (c : Child E) : Option (Child E) :=
  match c.pc with
  | .input =>
    if 1 < p.cmdCnt then some { c with table := c.table.dup2 c.fdPrev 0, pc := .output }
    else some { c with pc := .executing }
  | .output =>
    some { c with
      table := if p.commands[c.i + 1]?.isSome then c.table.dup2 c.fd.2 1 else c.table
      pc := .closing }
  | .closing => some { c with table := c.table.close c.fd.1, pc := .executing }
  | .executing => some { c with table := ⟨[]⟩, pc := .exited }
  | .exited => none

/-- The child of round `i`. -/
def forkChild (s : Processes E) (command : List (List UInt8)) : Child E where
  table := s.table
  pc := .input
  command := command
  i := s.i
  fd := s.fd
  fdPrev := s.fdPrev

/-- A step of the shell. There is none when `tokenize` uses memory that it must not use. -/
def stepParent (p : Invocation) (s : Processes E) : Option (Processes E) :=
  match s.pc with
  | .head =>
    if s.i < p.cmdCnt then
      if 1 < p.cmdCnt then
        let opened := s.table.pipe (.readEnd s.i) (.writeEnd s.i)
        some { s with table := opened.1, fd := opened.2, pc := .fork }
      else some { s with pc := .fork }
    else some { s with pc := .waiting }
  | .fork =>
    match argument p.commands s.i >>= fun line => tokenize (p.fresh s.i) line 0 with
    | .error _ => none
    | .ok command =>
      some { s with
        children := if 0 < p.forks s.i then s.children ++ [forkChild s command] else s.children
        pc := if p.forks s.i = 1 then .returned else .parent }
  | .parent =>
    if 1 < p.cmdCnt then
      some { s with table := s.table.close s.fd.2, fdPrev := s.fd.1, i := s.i + 1, pc := .head }
    else some { s with i := s.i + 1, pc := .head }
  | .waiting => if ∀ c ∈ s.children, c.pc = .exited then some { s with pc := .closing 3 } else none
  | .closing k =>
    if k < 3 + p.cmdCnt then some { s with table := s.table.close k, pc := .closing (k + 1) }
    else some { s with pc := .returned }
  | .returned => none

inductive Actor
  | parent
  | child (k : ℕ)
  deriving DecidableEq

def next (p : Invocation) (s : Processes E) : Actor → Option (Processes E)
  | .parent => stepParent p s
  | .child k => do
    let c ← s.children[k]?
    let c' ← stepChild p c
    some { s with children := s.children.set k c' }

/-- A step of one of the processes. -/
abbrev Step (p : Invocation) (s : Processes E) (a : Actor) (s' : Processes E) : Prop :=
  next p s a = some s'

/-! ## Steps -/

/-- What a step of the shell does. -/
inductive ShellStep (p : Invocation) (s : Processes E) : Processes E → Prop
  | pipe (here : s.pc = .head) (more : s.i < p.cmdCnt) (several : 1 < p.cmdCnt)
      {table : Table (File E)} {fd : ℕ × ℕ}
      (opened : s.table.pipe (.readEnd s.i) (.writeEnd s.i) = (table, fd)) :
      ShellStep p s { s with table := table, fd := fd, pc := .fork }
  | single (here : s.pc = .head) (more : s.i < p.cmdCnt) (one : ¬ 1 < p.cmdCnt) :
      ShellStep p s { s with pc := .fork }
  | last (here : s.pc = .head) (all : ¬ s.i < p.cmdCnt) : ShellStep p s { s with pc := .waiting }
  | fork (here : s.pc = .fork) (command : List (List UInt8)) :
      ShellStep p s { s with
        children := if 0 < p.forks s.i then s.children ++ [forkChild s command] else s.children
        pc := if p.forks s.i = 1 then .returned else .parent }
  | pass (here : s.pc = .parent) (several : 1 < p.cmdCnt) :
      ShellStep p s { s with
        table := s.table.close s.fd.2, fdPrev := s.fd.1, i := s.i + 1, pc := .head }
  | advance (here : s.pc = .parent) (one : ¬ 1 < p.cmdCnt) :
      ShellStep p s { s with i := s.i + 1, pc := .head }
  | waited (here : s.pc = .waiting) : ShellStep p s { s with pc := .closing 3 }
  | close {k : ℕ} (here : s.pc = .closing k) (more : k < 3 + p.cmdCnt) :
      ShellStep p s { s with table := s.table.close k, pc := .closing (k + 1) }
  | leave {k : ℕ} (here : s.pc = .closing k) (all : ¬ k < 3 + p.cmdCnt) :
      ShellStep p s { s with pc := .returned }

section Steps

variable {p : Invocation} {s s' : Processes E}

theorem shellStep_of (step : stepParent p s = some s') : ShellStep p s s' := by
  unfold stepParent at step
  cases here : s.pc with
  | head =>
    simp only [here] at step
    split_ifs at step with more several
    · cases step
      exact .pipe here more several rfl
    · cases step
      exact .single here more several
    · cases step
      exact .last here more
  | fork =>
    simp only [here] at step
    split at step
    · cases step
    · cases step
      exact .fork here _
  | parent =>
    simp only [here] at step
    split_ifs at step with several
    · cases step
      exact .pass here several
    · cases step
      exact .advance here several
  | waiting =>
    simp only [here] at step
    split_ifs at step
    cases step
    exact .waited here
  | closing k =>
    simp only [here] at step
    split_ifs at step with more
    · cases step
      exact .close here more
    · cases step
      exact .leave here more
  | returned => simp [here] at step

theorem childStep_of {k : ℕ} (step : Step p s (.child k) s') :
    ∃ c c', s.children[k]? = some c ∧ stepChild p c = some c' ∧
      s' = { s with children := s.children.set k c' } := by
  obtain ⟨c, found, step⟩ := Option.bind_eq_some_iff.1 step
  obtain ⟨c', moved, step⟩ := Option.bind_eq_some_iff.1 step
  cases step
  exact ⟨c, c', found, moved, rfl⟩

end Steps

/-! ## Tables -/

/-- The table of the shell with the read ends of the first `m` pipes. -/
def headEntry (T : Table E) (m fd : ℕ) : Option (File E) :=
  if 3 ≤ fd ∧ fd < 3 + m then some (.readEnd (fd - 3)) else (T.get fd).map .outside

/-- How many pipes have been created before round `i`. -/
def made (p : Invocation) (i : ℕ) : ℕ := if 1 < p.cmdCnt then i else 0

/-- `fd_prev` in round `i`. -/
def previous (p : Invocation) (i : ℕ) : ℕ := if 1 < p.cmdCnt ∧ 0 < i then i + 2 else 0

/-- The table at the `fork` of round `i`, with the write end of the pipe at descriptor `w`. -/
def forkEntry (p : Invocation) (T : Table E) (i w fd : ℕ) : Option (File E) :=
  if 1 < p.cmdCnt ∧ fd = w then some (.writeEnd i) else headEntry T (made p (i + 1)) fd

/-- The variables at the `fork` of round `i`. -/
structure Variables (p : Invocation) (T : Table E) (i : ℕ) (fd : ℕ × ℕ) (fdPrev : ℕ) : Prop where
  round : i < p.cmdCnt
  read : 1 < p.cmdCnt → fd.1 = i + 3
  write : 1 < p.cmdCnt → headEntry T (i + 1) fd.2 = none
  previous : fdPrev = previous p i

/-- What the shell has done when it stands at `s.pc`. -/
def Progress (p : Invocation) (T : Table E) (s : Processes E) : Prop :=
  match s.pc with
  | .head => s.i ≤ p.cmdCnt ∧ s.fdPrev = previous p s.i ∧ s.children.length = s.i ∧
      ∀ x, s.table.get x = headEntry T (made p s.i) x
  | .fork => Variables p T s.i s.fd s.fdPrev ∧ s.children.length = s.i ∧
      ∀ x, s.table.get x = forkEntry p T s.i s.fd.2 x
  | .parent => Variables p T s.i s.fd s.fdPrev ∧ s.children.length = s.i + 1 ∧
      ∀ x, s.table.get x = forkEntry p T s.i s.fd.2 x
  | .waiting => s.children.length = p.cmdCnt ∧
      ∀ x, s.table.get x = headEntry T (made p p.cmdCnt) x
  | .closing k => s.children.length = p.cmdCnt ∧ 3 ≤ k ∧ k ≤ 3 + p.cmdCnt ∧
      ∀ x, s.table.get x = if 3 ≤ x ∧ x < k then none else headEntry T (made p p.cmdCnt) x
  | .returned => s.children.length = p.cmdCnt ∧
      ∀ x, s.table.get x = if 3 ≤ x ∧ x < 3 + p.cmdCnt then none else (T.get x).map .outside

/-! ## The shell -/

section Shell

variable {p : Invocation} {T : Table E} {s s' : Processes E}

/-- In a shell with the descriptors 0, 1 and 2, the pipes of the earlier rounds are followed by the
next. -/
theorem lowest_head {t : Table (File E)} {m : ℕ} (std : ∀ fd < 3, T.get fd ≠ none)
    (free : T.get (m + 3) = none) (entries : ∀ x, t.get x = headEntry T m x) : t.lowest = m + 3 := by
  apply Table.lowest_eq
  · rw [entries, headEntry, if_neg (by omega), free]
    rfl
  · intro j below
    rw [entries, headEntry]
    split_ifs with made
    · simp
    · simpa using std j (by omega)

theorem progress_start (T : Table E) (fd : ℕ × ℕ) : Progress p T (start T fd) := by
  refine ⟨Nat.zero_le _, ?_, rfl, fun x => ?_⟩
  · simp [start, previous]
  · have none : made p 0 = 0 := by simp [made]
    simp only [start, none, headEntry, Table.get_map]
    rw [if_neg (by omega)]

section Sequence

variable (std : ∀ fd < 3, T.get fd ≠ none)
  (free : ∀ fd, 3 ≤ fd → fd < 3 + p.cmdCnt → T.get fd = none) (succeed : ∀ i, 1 < p.forks i)

include std free in
theorem Progress.pipe (progress : Progress p T s) (here : s.pc = .head) (more : s.i < p.cmdCnt)
    (several : 1 < p.cmdCnt) {table : Table (File E)} {fd : ℕ × ℕ}
    (pipes : s.table.pipe (.readEnd s.i) (.writeEnd s.i) = (table, fd)) :
    Progress p T { s with table := table, fd := fd, pc := .fork } := by
  simp only [Progress, here] at progress
  obtain ⟨-, prev, length, entries⟩ := progress
  have count : made p s.i = s.i := if_pos several
  have after : made p (s.i + 1) = s.i + 1 := if_pos several
  rw [count] at entries
  obtain ⟨r, w⟩ := fd
  obtain ⟨read, closed, apart, opened⟩ := Table.get_pipe _ _ _ pipes
  rw [lowest_head std (free _ (by omega) (by omega)) entries] at read
  rw [entries, headEntry] at closed
  refine ⟨⟨more, fun _ => read, fun _ => ?_, prev⟩, length, fun x => ?_⟩
  · split_ifs at closed with old
    dsimp only
    rw [headEntry, if_neg (by omega), closed]
  · dsimp only
    rw [opened, entries, forkEntry, after, headEntry, headEntry]
    split_ifs <;> grind

theorem Progress.single (progress : Progress p T s) (here : s.pc = .head) (more : s.i < p.cmdCnt)
    (one : ¬ 1 < p.cmdCnt) : Progress p T { s with pc := .fork } := by
  simp only [Progress, here] at progress
  obtain ⟨-, prev, length, entries⟩ := progress
  have count : made p (s.i + 1) = made p s.i := by simp [made, one]
  refine ⟨⟨more, fun h => absurd h one, fun h => absurd h one, prev⟩, length, fun x => ?_⟩
  rw [forkEntry, if_neg (by tauto), count]
  exact entries x

theorem Progress.last (progress : Progress p T s) (here : s.pc = .head) (all : ¬ s.i < p.cmdCnt) :
    Progress p T { s with pc := .waiting } := by
  simp only [Progress, here] at progress
  obtain ⟨le, prev, length, entries⟩ := progress
  have all : s.i = p.cmdCnt := by omega
  rw [all] at length entries
  exact ⟨length, entries⟩

theorem Progress.pass (progress : Progress p T s) (here : s.pc = .parent) (several : 1 < p.cmdCnt) :
    Progress p T { s with
      table := s.table.close s.fd.2, fdPrev := s.fd.1, i := s.i + 1, pc := .head } := by
  simp only [Progress, here] at progress
  obtain ⟨locals, length, entries⟩ := progress
  have after : made p (s.i + 1) = s.i + 1 := if_pos several
  refine ⟨locals.round, ?_, length, fun x => ?_⟩
  · dsimp only
    rw [locals.read several, previous, if_pos ⟨several, Nat.succ_pos _⟩]
  · dsimp only
    rw [Table.get_close, entries, forkEntry, after]
    split_ifs with same
    · rw [same, locals.write several]
    · tauto
    · rfl

theorem Progress.advance (progress : Progress p T s) (here : s.pc = .parent) (one : ¬ 1 < p.cmdCnt) :
    Progress p T { s with i := s.i + 1, pc := .head } := by
  simp only [Progress, here] at progress
  obtain ⟨locals, length, entries⟩ := progress
  refine ⟨locals.round, ?_, length, fun x => ?_⟩
  · dsimp only
    rw [locals.previous, previous, previous, if_neg (by tauto), if_neg (by tauto)]
  · rw [entries, forkEntry, if_neg (by tauto)]

theorem Progress.close (progress : Progress p T s) {k : ℕ} (here : s.pc = .closing k)
    (more : k < 3 + p.cmdCnt) :
    Progress p T { s with table := s.table.close k, pc := .closing (k + 1) } := by
  simp only [Progress, here] at progress
  obtain ⟨length, low, -, entries⟩ := progress
  refine ⟨length, by omega, by omega, fun x => ?_⟩
  dsimp only
  rw [Table.get_close, entries]
  split_ifs <;> first | rfl | omega

theorem Progress.leave (progress : Progress p T s) {k : ℕ} (here : s.pc = .closing k)
    (all : ¬ k < 3 + p.cmdCnt) : Progress p T { s with pc := .returned } := by
  simp only [Progress, here] at progress
  obtain ⟨length, -, high, entries⟩ := progress
  obtain rfl : k = 3 + p.cmdCnt := by omega
  refine ⟨length, fun x => ?_⟩
  dsimp only
  rw [entries, headEntry]
  split_ifs with closed old
  · rfl
  · have pipes : made p p.cmdCnt ≤ p.cmdCnt := by
      rw [made]
      split_ifs <;> omega
    omega
  · rfl

include std free succeed in
theorem Progress.stepParent (progress : Progress p T s) (step : ShellStep p s s') :
    Progress p T s' := by
  cases step with
  | pipe here more several opened => exact progress.pipe std free here more several opened
  | single here more one => exact progress.single here more one
  | last here all => exact progress.last here all
  | fork here command =>
    have pid := succeed s.i
    rw [if_pos (show 0 < p.forks s.i by omega), if_neg (show ¬ p.forks s.i = 1 by omega)]
    simp only [Progress, here] at progress
    obtain ⟨locals, length, entries⟩ := progress
    exact ⟨locals, by simp [length], entries⟩
  | pass here several => exact progress.pass here several
  | advance here one => exact progress.advance here one
  | waited here =>
    simp only [Progress, here] at progress
    obtain ⟨length, entries⟩ := progress
    refine ⟨length, le_rfl, by omega, fun x => ?_⟩
    rw [if_neg (by omega)]
    exact entries x
  | close here more => exact progress.close here more
  | leave here all => exact progress.leave here all

/-- The children change nothing of the shell. -/
theorem Progress.congr (progress : Progress p T s) {children : List (Child E)}
    (length : children.length = s.children.length) :
    Progress p T { s with children := children } := by
  unfold Progress at progress ⊢
  dsimp only
  rwa [length]

include std free succeed in
theorem Progress.step {a : Actor} (progress : Progress p T s) (step : Step p s a s') :
    Progress p T s' := by
  cases a with
  | parent => exact progress.stepParent std free succeed (shellStep_of step)
  | child k =>
    obtain ⟨c, c', -, -, rfl⟩ := childStep_of step
    exact progress.congr (List.length_set)

end Sequence

/-! ## The descriptors after the call -/

/-- The loop that closes descriptors closes them, whatever they refer to. -/
def Swept (p : Invocation) (s : Processes E) : Prop :=
  match s.pc with
  | .closing k => ∀ x, 3 ≤ x → x < k → s.table.get x = none
  | .returned => ∀ x, 3 ≤ x → x < 3 + p.cmdCnt → s.table.get x = none
  | _ => True

theorem Swept.step (succeed : ∀ i, 1 < p.forks i) {a : Actor} (swept : Swept p s)
    (step : Step p s a s') : Swept p s' := by
  cases a with
  | child k =>
    obtain ⟨c, c', -, -, rfl⟩ := childStep_of step
    exact swept
  | parent =>
    cases shellStep_of step with
    | pipe | single | last | pass | advance => trivial
    | fork here command =>
      have pid := succeed s.i
      rw [if_neg (show ¬ p.forks s.i = 1 by omega)]
      trivial
    | waited here =>
      intro x low high
      omega
    | close here more =>
      simp only [Swept, here] at swept
      intro x low high
      rw [Table.get_close]
      split_ifs with same
      · rfl
      · exact swept x low (by omega)
    | leave here all =>
      simp only [Swept, here] at swept
      intro x low high
      exact swept x low (by omega)

/-- After a call of `executeCommand` whose forks succeed, from a shell with at least the descriptors
0, 1 and 2, every descriptor refers to what it referred to before exactly when the descriptors from
3 on, one for each command, were closed. -/
theorem descriptors_kept_iff (std : ∀ fd < 3, T.get fd ≠ none) (succeed : ∀ i, 1 < p.forks i)
    {fd : ℕ × ℕ} {l : List (Event (Processes E) Actor)} (run : Run (Step p) (start T fd) l s)
    (returned : s.pc = .returned) :
    (∀ x, s.table.get x = (start T fd).table.get x) ↔
      ∀ x, 3 ≤ x → x < 3 + p.cmdCnt → T.get x = none := by
  constructor
  · intro kept x low high
    have swept : Swept p s := run.invariant (s := start T fd) (P := Swept p) trivial
      fun _ _ _ kept step => kept.step succeed step
    simp only [Swept, returned] at swept
    have closed := swept x low high
    rw [kept, start, Table.get_map] at closed
    simpa using closed
  · intro free x
    have progress : Progress p T s := run.invariant (P := Progress p T) (progress_start T fd)
      fun _ _ _ progress step => progress.step std free succeed step
    simp only [Progress, returned] at progress
    rw [progress.2, start, Table.get_map]
    split_ifs with closed
    · rw [free x closed.1 closed.2]
      rfl
    · rfl

end Shell

/-- A shell with its input, its output and its errors on one file. -/
def console : Table ℕ := ⟨[some 0, some 0, some 0]⟩

/-- The commands `ls` and `wc`, with forks that succeed. -/
def lsWc : Invocation where
  commands := [copyToken (zeroed 0) (ascii ['l', 's']), copyToken (zeroed 1) (ascii ['w', 'c'])]
  cmdCnt := 2
  forks _ := 100
  fresh _ := zeroed

theorem lsWc_succeeds (i : ℕ) : 1 < lsWc.forks i := show (1 : ℤ) < 100 by decide

/-- The steps of the shell up to the end of its loop, for two commands. -/
def twoRounds : List Actor := List.replicate 7 .parent

theorem descriptors_kept_iff_lsWc :
    ∃ l s, Run (Step lsWc) (start console (0, 0)) l s ∧ s.pc = .returned ∧
      ((∀ x, s.table.get x = (start console (0, 0)).table.get x) ↔
        ∀ x, 3 ≤ x → x < 3 + lsWc.cmdCnt → console.get x = none) := by
  obtain ⟨l, s, run, returned⟩ := exists_run_of_replay (next lsWc) (start console (0, 0))
    (twoRounds ++ List.replicate 4 (.child 0) ++ List.replicate 4 (.child 1) ++
      List.replicate 4 .parent)
    (P := fun r => r.2.pc = .returned) (by decide +kernel)
  exact ⟨l, s, run, returned, descriptors_kept_iff (by decide) lsWc_succeeds run returned⟩

/-- The command `ls` alone. -/
def ls : Invocation where
  commands := [copyToken (zeroed 0) (ascii ['l', 's'])]
  cmdCnt := 1
  forks _ := 100
  fresh _ := zeroed

/-- In batch mode the script is open as descriptor 3. One command, without a pipe, closes it. -/
theorem descriptors_lost_batch :
    ¬ ∀ (p : Invocation) (T : Table ℕ) (fd : ℕ × ℕ) l s, 1 ≤ p.cmdCnt →
      p.commands.length = p.cmdCnt → (∀ fd < 3, T.get fd ≠ none) → (∀ i, 1 < p.forks i) →
      Run (Step p) (start T fd) l s → s.pc = .returned →
        ∀ x, s.table.get x = (start T fd).table.get x := by
  intro kept
  obtain ⟨l, s, run, returned, closed⟩ := exists_run_of_replay (next ls)
    (start (⟨[some 0, some 0, some 0, some 1]⟩ : Table ℕ) (0, 0))
    (List.replicate 4 .parent ++ List.replicate 2 (.child 0) ++ List.replicate 3 .parent)
    (P := fun r => r.2.pc = .returned ∧ r.2.table.get 3 = none) (by decide +kernel)
  have same := kept ls _ _ l s (by decide) (by decide) (by decide)
    (fun _ => show (1 : ℤ) < 100 by decide) run returned 3
  rw [closed] at same
  exact absurd same (by decide)

end SsuOs.Shell
