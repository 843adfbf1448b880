import Mathlib.Data.List.Forall2
import SsuOs.Base.Descriptors
import SsuOs.Xv6Sh.Strings

/-!
# Running a command

`runcmd` of `sh.c` with the descriptors of every process that it makes. Each command of a tree is run
once, by one process, so that the outcome of every call of the system is a matter of where in the
tree it is made. `plan` says what a command is for: which programs run, and what their standard input
and output are, with no descriptors at all. `runcmd` carries out the plan, and the ends of a pipe are
open on their own side of it only.
-/

namespace SsuOs.Xv6Sh

open Descriptors

/-- A place in a tree, from the inside out: `true` is the right part of a pipe or of a list. -/
abbrev Node := List Bool

/-- What a descriptor refers to: something that was open before, the console, a file that a
redirection opened, or an end of the pipe of a command. -/
inductive File
  | outside (n : ℕ)
  | console
  | opened (node : Node) (file : Str) (mode : ℕ)
  | readEnd (node : Node)
  | writeEnd (node : Node)
  deriving DecidableEq, Repr

/-- Which calls of the system succeed. -/
structure Luck where
  /-- the `open` of the console that would get this descriptor, when the shell starts -/
  console : ℕ → Bool
  /-- the `fork` of `main` for the line -/
  line : Bool
  opens : Node → Bool
  pipes : Node → Bool
  /-- for the first child of a command and for the second -/
  forks : Node → Bool → Bool

/-- `NOFILE`. -/
abbrev nofile : ℕ := 16

/-- `fdalloc`: the lowest descriptor that is closed. -/
def fdalloc (t : Table File) (f : File) : Option (Table File × ℕ) :=
  if t.lowest < nofile then some (t.put t.lowest (some f), t.lowest) else none

/-- `dup`, whose result the shell does not look at. -/
def dup (t : Table File) (fd : ℕ) : Table File :=
  match t.get fd with
  | none => t
  | some f => ((fdalloc t f).map Prod.fst).getD t

/-- `pipe`: the table and the two descriptors. -/
def pipe (t : Table File) (node : Node) : Option (Table File × ℕ × ℕ) :=
  match fdalloc t (.readEnd node) with
  | none => none
  | some (t, p₀) =>
    match fdalloc t (.writeEnd node) with
    | none => none
    | some (t, p₁) => some (t, p₀, p₁)

/-- A program that a process executes: where its command is, its arguments, and the descriptors that
are open for it. -/
structure Started where
  node : Node
  argv : List Str
  table : Table File
  deriving DecidableEq

/-- The descriptors of a child of a pipe: `close(fd)`, `dup(p)` and then both ends are closed. -/
def childTable (t : Table File) (fd p p₀ p₁ : ℕ) : Table File :=
  ((dup (t.close fd) p).close p₀).close p₁

/-- `runcmd`: the programs that are executed for a command, by the process that runs it or by a
child of it. -/
def runcmd (luck : Luck) : Cmd Str → Node → Table File → List Started
  | .exec argv, node, t => if argv = [] then [] else [⟨node, argv, t⟩]
  | .redir cmd file mode fd, node, t =>
    let t := t.close fd
    if luck.opens node then
      match fdalloc t (.opened node file mode) with
      | none => []
      | some (t, _) => runcmd luck cmd (false :: node) t
    else []
  | .list left right, node, t =>
    if luck.forks node false then
      runcmd luck left (false :: node) t ++ runcmd luck right (true :: node) t
    else []
  | .pipe left right, node, t =>
    if luck.pipes node then
      match pipe t node with
      | none => []
      | some (t, p₀, p₁) =>
        if luck.forks node false then
          runcmd luck left (false :: node) (childTable t 1 p₁ p₀ p₁) ++
            if luck.forks node true then
              runcmd luck right (true :: node) (childTable t 0 p₀ p₀ p₁)
            else []
        else []
    else []
  | .back cmd, node, t =>
    if luck.forks node false then runcmd luck cmd (false :: node) t else []

/-- The loop with which `main` sees to it that three descriptors are open, if the console can be
opened. -/
def startup (luck : Luck) : ℕ → Table File → Table File
  | 0, t => t
  | n + 1, t =>
    if luck.console t.lowest then
      match fdalloc t .console with
      | none => t
      | some (t, fd) => if fd ≥ 3 then t.close fd else startup luck n t
    else t

/-- `main` changes the directory itself for a line that begins with `cd` and a blank. -/
def IsCd (buf : List UInt8) : Prop := [99, 100, 32] <+: buf

instance (buf : List UInt8) : Decidable (IsCd buf) := inferInstanceAs (Decidable (_ <+: _))

/-- The programs that are executed for a line: `main` has a child run it, unless the line is for
`main` itself or the `fork` fails. -/
def runLine (luck : Luck) (t : Table File) (buf : List UInt8) : List Started :=
  if IsCd buf then []
  else if luck.line then
    match parsecmd buf with
    | .error _ => []
    | .ok (c, buf') => runcmd luck (c.map (stringAt (cstring buf).length buf')) [] t
  else []

/-! ## The plan -/

/-- A program with its standard input and output. -/
structure Planned where
  node : Node
  argv : List Str
  input : File
  output : File

def plan (luck : Luck) : Cmd Str → Node → File → File → List Planned
  | .exec argv, node, i, o => if argv = [] then [] else [⟨node, argv, i, o⟩]
  | .redir cmd file mode fd, node, i, o =>
    if luck.opens node then
      if fd = 0 then plan luck cmd (false :: node) (.opened node file mode) o
      else plan luck cmd (false :: node) i (.opened node file mode)
    else []
  | .list left right, node, i, o =>
    if luck.forks node false then
      plan luck left (false :: node) i o ++ plan luck right (true :: node) i o
    else []
  | .pipe left right, node, i, o =>
    if luck.pipes node && luck.forks node false then
      plan luck left (false :: node) i (.writeEnd node) ++
        if luck.forks node true then plan luck right (true :: node) (.readEnd node) o else []
    else []
  | .back cmd, node, i, o =>
    if luck.forks node false then plan luck cmd (false :: node) i o else []

/-- The plan of a line that reads as `c`. -/
def planLine (luck : Luck) (buf : List UInt8) (c : Cmd Str) (i o : File) : List Planned :=
  if IsCd buf ∨ luck.line = false then [] else plan luck c [] i o

/-- Standard input, output and error are open, and nothing else. -/
structure Stdio (t : Table File) (i o e : File) : Prop where
  get : ∀ fd, t.get fd =
    if fd = 0 then some i else if fd = 1 then some o else if fd = 2 then some e else none

theorem fdalloc_eq {t : Table File} {fd : ℕ} (closed : t.get fd = none)
    (below : ∀ k < fd, t.get k ≠ none) (small : fd < nofile) (f : File) :
    fdalloc t f = some (t.put fd (some f), fd) := by
  rw [fdalloc, Table.lowest_eq closed below, if_pos small]

section Tables

variable {t : Table File} {i o e : File}

/-- A redirection changes what it is for. -/
theorem Stdio.redir (stdio : Stdio t i o e) {fd : ℕ} (fits : fd < 2) (f : File) :
    ∃ t', fdalloc (t.close fd) f = some (t', fd) ∧
      Stdio t' (if fd = 0 then f else i) (if fd = 0 then o else f) e := by
  refine ⟨(t.close fd).put fd (some f), ?_, ?_⟩
  · apply fdalloc_eq
    · rw [Table.get_close, if_pos rfl]
    · intro k below
      rw [Table.get_close, stdio.get]
      split_ifs <;> first | omega | simp
    · exact fits.trans (by decide)
  · refine ⟨fun k => ?_⟩
    rw [Table.get_put, Table.get_close, stdio.get]
    split_ifs <;> first | omega | rfl

/-- A pipe gets the descriptors after the standard ones. -/
theorem Stdio.pipe (stdio : Stdio t i o e) (node : Node) :
    ∃ t', pipe t node = some (t', 3, 4) ∧ ∀ fd, t'.get fd =
      if fd = 3 then some (.readEnd node) else if fd = 4 then some (.writeEnd node)
      else t.get fd := by
  refine ⟨(t.put 3 (some (.readEnd node))).put 4 (some (.writeEnd node)), ?_, ?_⟩
  · have first : fdalloc t (.readEnd node) = some (t.put 3 (some (.readEnd node)), 3) := by
      apply fdalloc_eq
      · rw [stdio.get]
        rfl
      · intro k below
        rw [stdio.get]
        split_ifs <;> first | omega | simp
      · decide
    have second : fdalloc (t.put 3 (some (.readEnd node))) (.writeEnd node) =
        some ((t.put 3 (some (.readEnd node))).put 4 (some (.writeEnd node)), 4) := by
      apply fdalloc_eq
      · rw [Table.get_put, stdio.get]
        rfl
      · intro k below
        rw [Table.get_put, stdio.get]
        split_ifs <;> first | omega | simp
      · decide
    simp only [Xv6Sh.pipe, first, second]
  · intro fd
    rw [Table.get_put, Table.get_put]
    split_ifs <;> first | omega | rfl

/-- A child of a pipe has its end as one of the standard descriptors, and the pipe nowhere else. -/
theorem Stdio.childTable (stdio : Stdio t i o e) {node : Node} {t' : Table File}
    (get : ∀ fd, t'.get fd = if fd = 3 then some (.readEnd node)
      else if fd = 4 then some (.writeEnd node) else t.get fd) :
    Stdio (childTable t' 1 4 3 4) i (.writeEnd node) e ∧
      Stdio (childTable t' 0 3 3 4) (.readEnd node) o e := by
  have dups {fd p : ℕ} {f : File} (fits : fd < 2) (more : 2 < p) (source : t'.get p = some f) :
      dup (t'.close fd) p = (t'.close fd).put fd (some f) := by
    have opened : (t'.close fd).get p = some f := by
      rw [Table.get_close, if_neg (by omega), source]
    have alloc : fdalloc (t'.close fd) f = some ((t'.close fd).put fd (some f), fd) := by
      apply fdalloc_eq
      · rw [Table.get_close, if_pos rfl]
      · intro k below
        rw [Table.get_close, get, stdio.get]
        split_ifs <;> first | omega | simp
      · exact fits.trans (by decide)
    simp only [dup, opened, alloc]
    rfl
  constructor
  · refine ⟨fun k => ?_⟩
    rw [Xv6Sh.childTable, dups (f := .writeEnd node) (by omega) (by omega) (by rw [get]; rfl)]
    rw [Table.get_close, Table.get_close, Table.get_put, Table.get_close, get, stdio.get]
    split_ifs <;> first | omega | rfl
  · refine ⟨fun k => ?_⟩
    rw [Xv6Sh.childTable, dups (f := .readEnd node) (by omega) (by omega) (by rw [get]; rfl)]
    rw [Table.get_close, Table.get_close, Table.get_put, Table.get_close, get, stdio.get]
    split_ifs <;> first | omega | rfl

end Tables

/-! ## The plan is carried out -/

/-- A program runs as it was planned, with the standard error `e` and nothing else open. -/
def AsPlanned (e : File) (s : Started) (p : Planned) : Prop :=
  s.node = p.node ∧ s.argv = p.argv ∧ Stdio s.table p.input p.output e

theorem runcmd_plan (luck : Luck) {c : Cmd Str} (writable : Writable c) (node : Node)
    {t : Table File} {i o e : File} (stdio : Stdio t i o e) :
    List.Forall₂ (AsPlanned e) (runcmd luck c node t) (plan luck c node i o) := by
  induction c generalizing node t i o with
  | exec argv =>
    rw [runcmd, plan]
    split_ifs
    · exact .nil
    · exact .cons ⟨rfl, rfl, stdio⟩ .nil
  | redir cmd file mode fd ih =>
    obtain ⟨inner, -, kind⟩ := writable
    have fits : fd < 2 := by omega
    obtain ⟨t', alloc, stdio'⟩ := stdio.redir fits (.opened node file mode)
    rw [runcmd, plan]
    split_ifs with opens first
    · rw [if_pos first, if_pos first] at stdio'
      simp only [alloc]
      exact ih inner _ stdio'
    · rw [if_neg first, if_neg first] at stdio'
      simp only [alloc]
      exact ih inner _ stdio'
    · exact .nil
  | list left right ih ih' =>
    rw [runcmd, plan]
    split_ifs
    · exact List.rel_append (ih writable.1 _ stdio) (ih' writable.2 _ stdio)
    · exact .nil
  | pipe left right ih ih' =>
    obtain ⟨t', made, get⟩ := stdio.pipe node
    obtain ⟨first, second⟩ := stdio.childTable get
    simp only [runcmd, plan, made]
    cases luck.pipes node
    · exact .nil
    cases luck.forks node false
    · exact .nil
    apply List.rel_append (ih writable.1 _ first)
    cases luck.forks node true
    · exact .nil
    · exact ih' writable.2 _ second
  | back cmd ih =>
    rw [runcmd, plan]
    split_ifs
    · exact ih writable _ stdio
    · exact .nil

/-! ## The ends of pipes -/

/-- A command may have the file: the end of a pipe is for the commands on its side. -/
def Belongs (node : Node) : File → Prop
  | .readEnd pipe => true :: pipe <:+ node
  | .writeEnd pipe => false :: pipe <:+ node
  | .outside _ | .console | .opened _ _ _ => True

theorem Belongs.inner {node : Node} {f : File} (belongs : Belongs node f) (side : Bool) :
    Belongs (side :: node) f := by
  cases f with
  | readEnd pipe => exact List.IsSuffix.trans belongs (List.suffix_cons ..)
  | writeEnd pipe => exact List.IsSuffix.trans belongs (List.suffix_cons ..)
  | outside n => trivial
  | console => trivial
  | opened other file mode => trivial

/-- All that is open is for the command at `node`. -/
def Proper (node : Node) (t : Table File) : Prop := ∀ fd f, t.get fd = some f → Belongs node f

section Ends

variable {t t' : Table File} {node : Node} {f : File} {fd p p₀ p₁ : ℕ}

theorem Proper.inner (proper : Proper node t) (side : Bool) : Proper (side :: node) t :=
  fun fd f opened => (proper fd f opened).inner side

theorem Proper.close (proper : Proper node t) (fd : ℕ) : Proper node (t.close fd) := by
  intro k f opened
  rw [Table.get_close] at opened
  split_ifs at opened
  exact proper k f opened

theorem fdalloc_some (alloc : fdalloc t f = some (t', fd)) :
    t.get fd = none ∧ t' = t.put fd (some f) := by
  rw [fdalloc] at alloc
  split_ifs at alloc
  cases alloc
  exact ⟨t.get_lowest, rfl⟩

theorem Proper.fdalloc (proper : Proper node t) (mine : Belongs node f)
    (alloc : fdalloc t f = some (t', fd)) : Proper node t' := by
  obtain ⟨-, rfl⟩ := fdalloc_some alloc
  intro k g opened
  rw [Table.get_put] at opened
  split_ifs at opened
  · cases opened
    exact mine
  · exact proper k g opened

/-- `dup` opens nothing new. -/
theorem dup_get {k : ℕ} (opened : (dup t p).get k = some f) :
    t.get k = some f ∨ t.get p = some f := by
  rw [dup] at opened
  split at opened
  · exact .inl opened
  · rename_i g source
    cases alloc : fdalloc t g with
    | none =>
      rw [alloc] at opened
      exact .inl opened
    | some r =>
      obtain ⟨t', fd⟩ := r
      obtain ⟨-, rfl⟩ := fdalloc_some alloc
      rw [alloc, Option.map_some, Option.getD_some, Table.get_put] at opened
      split_ifs at opened
      · exact .inr (source.trans opened)
      · exact .inl opened

theorem pipe_get (made : pipe t node = some (t', p₀, p₁)) (k : ℕ) :
    p₀ ≠ p₁ ∧ t'.get k = if k = p₁ then some (.writeEnd node)
      else if k = p₀ then some (.readEnd node) else t.get k := by
  rw [pipe] at made
  split at made
  · cases made
  · rename_i t₁ q₀ first
    split at made
    · cases made
    · rename_i t₂ q₁ second
      cases made
      obtain ⟨-, rfl⟩ := fdalloc_some first
      obtain ⟨closed, rfl⟩ := fdalloc_some second
      constructor
      · rintro rfl
        rw [Table.get_put, if_pos rfl] at closed
        cases closed
      · rw [Table.get_put, Table.get_put]

/-- A child of a pipe has what it duplicates and what its parent had beside the pipe. -/
theorem childTable_get {k : ℕ} (opened : (childTable t fd p p₀ p₁).get k = some f) :
    t.get p = some f ∨ ∃ j, j ≠ p₀ ∧ j ≠ p₁ ∧ t.get j = some f := by
  rw [childTable, Table.get_close, Table.get_close] at opened
  split_ifs at opened with last first
  rcases dup_get opened with kept | source
  · rw [Table.get_close] at kept
    split_ifs at kept
    exact .inr ⟨k, first, last, kept⟩
  · rw [Table.get_close] at source
    split_ifs at source
    exact .inl source

theorem Proper.children (proper : Proper node t) (made : pipe t node = some (t', p₀, p₁)) :
    Proper (false :: node) (childTable t' 1 p₁ p₀ p₁) ∧
      Proper (true :: node) (childTable t' 0 p₀ p₀ p₁) := by
  obtain ⟨apart, -⟩ := pipe_get made 0
  have rest {j : ℕ} {f : File} (side : Bool) (first : j ≠ p₀) (second : j ≠ p₁)
      (opened : t'.get j = some f) : Belongs (side :: node) f := by
    rw [(pipe_get made j).2, if_neg second, if_neg first] at opened
    exact (proper j f opened).inner side
  constructor
  · intro k f opened
    rcases childTable_get opened with source | ⟨j, first, second, old⟩
    · rw [(pipe_get made p₁).2, if_pos rfl] at source
      cases source
      exact List.suffix_rfl
    · exact rest false first second old
  · intro k f opened
    rcases childTable_get opened with source | ⟨j, first, second, old⟩
    · rw [(pipe_get made p₀).2, if_neg apart, if_pos rfl] at source
      cases source
      exact List.suffix_rfl
    · exact rest true first second old

end Ends

/-- Whatever is open when a command starts, its programs have no end of a pipe that is not for
them. -/
theorem runcmd_proper {luck : Luck} {c : Cmd Str} {node : Node} {t : Table File} {s : Started}
    (proper : Proper node t) (mem : s ∈ runcmd luck c node t) : Proper s.node s.table := by
  induction c generalizing node t with
  | exec argv =>
    rw [runcmd] at mem
    split_ifs at mem
    · simp at mem
    · obtain rfl := List.mem_singleton.1 mem
      exact proper
  | redir cmd file mode fd ih =>
    simp only [runcmd] at mem
    split_ifs at mem
    · split at mem
      · simp at mem
      · rename_i t' k alloc
        have opened : Belongs node (.opened node file mode) := trivial
        exact ih (((proper.close fd).fdalloc opened alloc).inner false) mem
    · simp at mem
  | list left right ih ih' =>
    rw [runcmd] at mem
    split_ifs at mem
    · rcases List.mem_append.1 mem with mem | mem
      · exact ih (proper.inner false) mem
      · exact ih' (proper.inner true) mem
    · simp at mem
  | pipe left right ih ih' =>
    cases made : pipe t node with
    | none => simp [runcmd, made] at mem
    | some r =>
      obtain ⟨t', p₀, p₁⟩ := r
      obtain ⟨writer, reader⟩ := proper.children made
      simp only [runcmd, made] at mem
      split_ifs at mem
      · rcases List.mem_append.1 mem with mem | mem
        · exact ih writer mem
        · exact ih' reader mem
      · rw [List.append_nil] at mem
        exact ih writer mem
      · simp at mem
      · simp at mem
  | back cmd ih =>
    rw [runcmd] at mem
    split_ifs at mem
    · exact ih (proper.inner false) mem
    · simp at mem

/-! ## A line of the shell -/

/-- What a standard descriptor is once the shell has started. -/
def standard (T : Table File) (fd : ℕ) : File := (T.get fd).getD .console

theorem stdio_of_lowest {t : Table File} (nothing : ∀ fd ≥ 3, t.get fd = none)
    (full : 3 ≤ t.lowest) : Stdio t (standard t 0) (standard t 1) (standard t 2) := by
  have opened (k : ℕ) (below : k < 3) : t.get k = some (standard t k) := by
    obtain ⟨f, eq⟩ := Option.ne_none_iff_exists'.1
      (Table.get_of_lt_lowest (t := t) (k := k) (by omega))
    simp [standard, eq]
  refine ⟨fun k => ?_⟩
  split_ifs with zero one two
  · exact zero ▸ opened 0 (by omega)
  · exact one ▸ opened 1 (by omega)
  · exact two ▸ opened 2 (by omega)
  · exact nothing k (by omega)

/-- A shell that was started with nothing above the standard descriptors has these open, if it could
open the console where one was closed. -/
theorem startup_stdio {luck : Luck} {T : Table File} (nothing : ∀ fd ≥ 3, T.get fd = none)
    (console : ∀ fd < 3, T.get fd = none → luck.console fd = true) {n : ℕ}
    (rounds : 3 < n + T.lowest) :
    Stdio (startup luck n T) (standard T 0) (standard T 1) (standard T 2) := by
  -- every round but the last moves the lowest closed descriptor up
  have low : T.lowest ≤ 3 := by
    by_contra above
    exact Table.get_of_lt_lowest (Nat.not_le.1 above) (nothing 3 le_rfl)
  induction n generalizing T with
  | zero => omega
  | succ n ih =>
    have alloc : fdalloc T .console = some (T.put T.lowest (some .console), T.lowest) :=
      if_pos (low.trans_lt (by decide))
    simp only [startup, alloc]
    split_ifs with opens full
    · have same (k : ℕ) : ((T.put T.lowest (some .console)).close T.lowest).get k = T.get k := by
        rw [Table.get_close, Table.get_put]
        split_ifs with last
        · rw [last, T.get_lowest]
        · rfl
      refine ⟨fun k => ?_⟩
      rw [same]
      exact (stdio_of_lowest nothing full).get k
    · have same (fd : ℕ) : standard (T.put T.lowest (some .console)) fd = standard T fd := by
        rw [standard, Table.get_put]
        split_ifs with filled
        · rw [filled, standard, T.get_lowest]
          rfl
        · rfl
      have nothing' : ∀ fd ≥ 3, (T.put T.lowest (some .console)).get fd = none := by
        intro fd high
        rw [Table.get_put, if_neg (by omega), nothing fd high]
      have console' : ∀ fd < 3, (T.put T.lowest (some .console)).get fd = none →
          luck.console fd = true := by
        intro fd below closed
        rw [Table.get_put] at closed
        split_ifs at closed
        exact console fd below closed
      have higher : T.lowest < (T.put T.lowest (some .console)).lowest := by
        by_contra above
        have closed := (T.put T.lowest (some .console)).get_lowest
        rw [Table.get_put] at closed
        split_ifs at closed with filled
        exact Table.get_of_lt_lowest (by omega) closed
      have low' : (T.put T.lowest (some .console)).lowest ≤ 3 := by
        by_contra above
        exact Table.get_of_lt_lowest (Nat.not_le.1 above) (nothing' 3 le_rfl)
      rw [← same 0, ← same 1, ← same 2]
      exact ih nothing' console' (by omega) low'
    · apply stdio_of_lowest nothing
      by_contra below
      exact opens (console T.lowest (Nat.not_le.1 below) T.get_lowest)

theorem Proper.startup {luck : Luck} {T : Table File} {node : Node} (proper : Proper node T)
    (n : ℕ) : Proper node (startup luck n T) := by
  induction n generalizing T with
  | zero => exact proper
  | succ n ih =>
    have mine : Belongs node .console := trivial
    rw [Xv6Sh.startup]
    split_ifs
    · split
      · exact proper
      · rename_i t' fd alloc
        have opened := proper.fdalloc mine alloc
        split_ifs
        · exact opened.close fd
        · exact ih opened
    · exact proper

theorem runLine_eq {luck : Luck} {t : Table File} {buf : List UInt8} {c : Cmd Str}
    (parses : Parses buf c) : runLine luck t buf =
      if IsCd buf ∨ luck.line = false then [] else runcmd luck c [] t := by
  obtain ⟨d, buf', ok, rfl⟩ := parses
  simp only [runLine, ok]
  split_ifs <;> simp_all

/-- A shell that was started with nothing above the standard descriptors, and with a console where
one of these was closed, runs the programs that are planned for a line, each with the standard input
and output that it is planned with, the standard error of the shell, and no other descriptor. -/
theorem line_as_planned (luck : Luck) {T : Table File} (nothing : ∀ fd ≥ 3, T.get fd = none)
    (console : ∀ fd < 3, T.get fd = none → luck.console fd = true)
    {buf : List UInt8} {c : Cmd Str} (parses : Parses buf c) :
    List.Forall₂ (AsPlanned (standard T 2)) (runLine luck (startup luck nofile T) buf)
      (planLine luck buf c (standard T 0) (standard T 1)) := by
  rw [runLine_eq parses, planLine]
  split_ifs
  · exact .nil
  · exact runcmd_plan luck parses.writable []
      (startup_stdio nothing console (by simp only [nofile]; omega))

/-- A shell that `init` has started on the console. -/
def consoles : Table File := ⟨[some .console, some .console, some .console]⟩

theorem get_consoles : ∀ fd ≥ 3, consoles.get fd = none := by
  intro fd high
  simp [consoles, Table.get, high]

/-- The tree of `(cat < a | wc) > b`. -/
def counting : Cmd Str :=
  .redir (.pipe (.redir (.exec [[99, 97, 116]]) [97] oRdonly 0) (.exec [[119, 99]])) [98]
    oWronlyCreate 1

theorem parses_counting : Parses (print counting ++ [0]) counting := by
  apply parses_print
  refine ⟨⟨⟨?_, ?_, .inl ⟨rfl, rfl⟩⟩, ?_⟩, ?_, .inr ⟨rfl, rfl⟩⟩
  · exact ⟨by decide, by decide +kernel⟩
  · decide +kernel
  · exact ⟨by decide, by decide +kernel⟩
  · decide +kernel

/-- Every call succeeds. -/
def allWell : Luck := ⟨fun _ => true, true, fun _ => true, fun _ => true, fun _ _ => true⟩

theorem line_as_planned_counting :
    (runLine allWell (startup allWell nofile consoles) (print counting ++ [0])).length = 2 ∧
      List.Forall₂ (AsPlanned .console)
        (runLine allWell (startup allWell nofile consoles) (print counting ++ [0]))
        (planLine allWell (print counting ++ [0]) counting .console .console) := by
  refine ⟨?_, line_as_planned allWell get_consoles (fun _ _ _ => rfl) parses_counting⟩
  rw [runLine_eq parses_counting]
  decide +kernel

/-- The programs of a line that have an end of a pipe open are on the side of the pipe that it is
for, so that a pipe is at its end when the programs of its left side are. -/
theorem line_ends (luck : Luck) {T : Table File}
    (outside : ∀ f, T.Holds f → ∀ node, Belongs node f) (buf : List UInt8) {s : Started}
    (mem : s ∈ runLine luck (startup luck nofile T) buf) {f : File} (holds : s.table.Holds f) :
    Belongs s.node f := by
  have proper : Proper [] T := fun fd f opened => outside f (Table.holds_iff.2 ⟨fd, opened⟩) []
  obtain ⟨fd, opened⟩ := Table.holds_iff.1 holds
  unfold runLine at mem
  split_ifs at mem
  · simp at mem
  · split at mem
    · simp at mem
    · exact runcmd_proper (proper.startup nofile) mem fd f opened
  · simp at mem

/-- `wc` of `(cat < a | wc) > b`, in the process that executes it. -/
def counter : Started :=
  ⟨[true, false], [[119, 99]],
    ⟨[some (.readEnd [false]), some (.opened [] [98] oWronlyCreate), some .console, none, none]⟩⟩

theorem line_ends_counting :
    counter ∈ runLine allWell (startup allWell nofile consoles) (print counting ++ [0]) ∧
      counter.table.Holds (.readEnd [false]) ∧ Belongs counter.node (.readEnd [false]) := by
  have mem : counter ∈ runLine allWell (startup allWell nofile consoles)
      (print counting ++ [0]) := by
    rw [runLine_eq parses_counting]
    decide +kernel
  have outside : ∀ f, consoles.Holds f → ∀ node, Belongs node f := by
    intro f holds node
    obtain rfl : f = .console := by simpa [Table.Holds, consoles] using holds
    trivial
  have holds : counter.table.Holds (.readEnd [false]) := by decide
  exact ⟨mem, holds, line_ends allWell outside _ mem holds⟩

end SsuOs.Xv6Sh
