import Mathlib.Data.List.DropRight
import Mathlib.Data.List.TakeWhile
import SsuOs.Xv6Sh.Parse

/-!
# The tokens of a line

`lex` is the list of tokens that `gettoken` finds in a line when it is called over and over. The
parser never sees more of a line than this: `peek` looks at the first token, and blanks before a
pointer make no difference. Below, the parsing functions are restated by the tokens they look at.
-/

namespace SsuOs.Xv6Sh

/-- What the next token is. -/
def next (s : Str) : Tok := (gettoken s).tok

/-- Where the line goes on after its next token. -/
def after (s : Str) : Str := (gettoken s).rest

/-- The ends of the next token. -/
def here (s : Str) : Ptr := ((gettoken s).q, (gettoken s).eq)

/-- The character a symbol begins with. -/
def Tok.first : Tok → Option UInt8
  | .eof | .word => none
  | .bar => some 124
  | .lpar => some 40
  | .rpar => some 41
  | .semi => some 59
  | .amp => some 38
  | .lt => some 60
  | .gt | .append => some 62

/-- Whether `peek` finds the token among some symbols. -/
def Tok.among (t : Tok) (toks : Str) : Bool := t.first.any toks.contains

/-- The symbols of a redirection. -/
def Tok.isRedir (t : Tok) : Bool := t.among [60, 62]

/-- The symbols that end a simple command. -/
def Tok.isStop (t : Tok) : Bool := t.among [124, 41, 38, 59]

@[simp] theorem Tok.among_bar {t : Tok} : t.among [124] ↔ t = .bar := by cases t <;> decide

@[simp] theorem Tok.among_lpar {t : Tok} : t.among [40] ↔ t = .lpar := by cases t <;> decide

@[simp] theorem Tok.among_rpar {t : Tok} : t.among [41] ↔ t = .rpar := by cases t <;> decide

@[simp] theorem Tok.among_semi {t : Tok} : t.among [59] ↔ t = .semi := by cases t <;> decide

@[simp] theorem Tok.among_amp {t : Tok} : t.among [38] ↔ t = .amp := by cases t <;> decide

theorem Tok.ne_eof_of_among {t : Tok} {toks : Str} (found : t.among toks) : t ≠ .eof := by
  rintro rfl
  simp [Tok.among, Tok.first] at found

@[simp] theorem skip_skip (s : Str) : skip (skip s) = skip s :=
  List.dropWhile_idempotent isSpace s

@[simp] theorem gettoken_skip (s : Str) : gettoken (skip s) = gettoken s := by
  simp [gettoken]

@[simp] theorem next_skip (s : Str) : next (skip s) = next s := by simp [next]

@[simp] theorem after_skip (s : Str) : after (skip s) = after s := by simp [after]

@[simp] theorem here_skip (s : Str) : here (skip s) = here s := by simp [here]

theorem length_skip_le (s : Str) : (skip s).length ≤ s.length :=
  (List.dropWhile_suffix _).length_le

/-- The symbol a text begins with, if it begins with one. -/
theorem first_classify (c : UInt8) (s : Str) :
    (classify (c :: s)).1.first = if isSymbol c then some c else none := by
  simp only [classify]
  split_ifs <;> simp_all [Tok.first, isSymbol, symbols]

theorem classify_eof_iff (s : Str) : (classify s).1 = .eof ↔ s = [] := by
  cases s with
  | nil => simp [classify]
  | cons c s =>
    simp only [classify]
    split_ifs <;> simp

/-- `peek` looks at the next token. -/
theorem peek_eq (s : Str) {toks : Str} (sub : toks ⊆ symbols) :
    peek s toks = ((next s).among toks, skip s) := by
  have found : (peek s toks).1 = (next s).among toks := by
    unfold peek next gettoken
    cases skip s with
    | nil => rfl
    | cons c s =>
      simp only [Tok.among, first_classify]
      by_cases symbol : isSymbol c
      · simp [symbol]
      · have other : c ∉ toks := fun mem => symbol (by simpa [isSymbol] using sub mem)
        simp [symbol, other]
  exact Prod.ext found rfl

/-- A word goes on as long as its characters are plain. -/
theorem classify_plain {c : UInt8} (s : Str) (plain : isPlain c) :
    classify (c :: s) = (.word, s.dropWhile isPlain) := by
  have other (d : UInt8) (symbol : isPlain d = false) : c ≠ d := by
    rintro rfl
    exact absurd plain (by simp [symbol])
  simp [classify, other 124 rfl, other 40 rfl, other 41 rfl, other 59 rfl, other 38 rfl,
    other 60 rfl, other 62 rfl, plain]

/-- A symbol is one character, or two. -/
theorem classify_symbol {c : UInt8} (s : Str) (symbol : isSymbol c) :
    (classify (c :: s)).1 ≠ .word ∧ ((classify (c :: s)).2 = s ∨ (classify (c :: s)).2 = s.tail) := by
  simp only [classify]
  split_ifs <;> simp_all [isSymbol, symbols]

/-- A token that begins with no blank ends behind its start. -/
theorem length_classify_lt {c : UInt8} (s : Str) (black : isSpace c = false) :
    (classify (c :: s)).2.length < (c :: s).length := by
  by_cases symbol : isSymbol c
  · obtain ⟨-, one | two⟩ := classify_symbol s symbol
    · simp [one]
    · simp only [two, List.length_tail, List.length_cons]
      omega
  · have plain : isPlain c := by simp [isPlain, black, symbol]
    have shorter : (s.dropWhile isPlain).length ≤ s.length := (List.dropWhile_suffix _).length_le
    simpa [classify_plain s plain] using Nat.lt_succ_of_le shorter

theorem next_eq_eof_iff (s : Str) : next s = .eof ↔ skip s = [] :=
  classify_eof_iff (skip s)

theorem isSpace_of_skip {s r : Str} {c : UInt8} (eq : skip s = c :: r) : isSpace c = false := by
  have head := List.head?_dropWhile_not isSpace s
  rw [← skip, eq] at head
  simpa using head

theorem length_after_lt {s : Str} (more : next s ≠ .eof) : (after s).length < s.length := by
  have bound := length_skip_le s
  obtain ⟨c, r, eq⟩ := List.exists_cons_of_ne_nil (mt (next_eq_eof_iff s).2 more)
  have shorter := length_classify_lt r (isSpace_of_skip eq)
  have skipped := length_skip_le (classify (c :: r)).2
  rw [eq] at bound
  simp only [after, gettoken, eq]
  omega

theorem after_of_eof {s : Str} (ends : next s = .eof) : after s = [] := by
  have empty := (next_eq_eof_iff s).1 ends
  simp only [after, gettoken, empty]
  rfl

def lexFrom : ℕ → Str → List (Tok × Ptr)
  | 0, _ => []
  | n + 1, s => if next s = .eof then [] else (next s, here s) :: lexFrom n (after s)

/-- The tokens of a line, with their ends. -/
def lex (s : Str) : List (Tok × Ptr) := lexFrom s.length s

theorem lexFrom_eq {n : ℕ} {s : Str} (long : s.length ≤ n) : lexFrom n s = lex s := by
  -- the count of `lex` itself is one more instance of the statement for the shorter rest
  have same (m : ℕ) : ∀ n s, s.length ≤ n → s.length ≤ m → lexFrom n s = lexFrom m s := by
    induction m with
    | zero =>
      intro n s _ short
      have empty : s = [] := List.length_eq_zero_iff.1 (Nat.le_zero.1 short)
      subst empty
      cases n <;> rfl
    | succ m ih =>
      intro n s long short
      cases n with
      | zero =>
        have empty : s = [] := List.length_eq_zero_iff.1 (Nat.le_zero.1 long)
        subst empty
        rfl
      | succ n =>
        simp only [lexFrom]
        split_ifs with ends
        · rfl
        · have shorter := length_after_lt ends
          rw [ih n (after s) (by omega) (by omega)]
  exact same s.length n s long le_rfl

theorem lex_of_eof {s : Str} (ends : next s = .eof) : lex s = [] := by
  rw [← lexFrom_eq (Nat.le_succ s.length), lexFrom, if_pos ends]

theorem lex_of_next {s : Str} (more : next s ≠ .eof) :
    lex s = (next s, here s) :: lex (after s) := by
  have shorter := length_after_lt more
  rw [← lexFrom_eq (Nat.le_succ s.length), lexFrom, if_neg more, lexFrom_eq (by omega)]

@[simp] theorem lex_skip (s : Str) : lex (skip s) = lex s := by
  by_cases ends : next s = .eof
  · rw [lex_of_eof ends, lex_of_eof (by simpa using ends)]
  · rw [lex_of_next ends, lex_of_next (by simpa using ends)]
    simp

theorem lex_eq_nil_iff {s : Str} : lex s = [] ↔ next s = .eof := by
  constructor
  · intro empty
    by_contra more
    simp [lex_of_next more] at empty
  · exact lex_of_eof

/-- The first token of a line that has one. -/
theorem next_of_lex {s : Str} {t : Tok} {p : Ptr} {ts : List (Tok × Ptr)}
    (eq : lex s = (t, p) :: ts) :
    next s = t ∧ here s = p ∧ lex (after s) = ts ∧ (after s).length < s.length := by
  by_cases ends : next s = .eof
  · simp [lex_of_eof ends] at eq
  · rw [lex_of_next ends] at eq
    simp only [List.cons.injEq, Prod.mk.injEq] at eq
    exact ⟨eq.1.1, eq.1.2, eq.2, length_after_lt ends⟩

section Equations

variable (n : ℕ) (s : Str)

theorem parseredirs_succ : parseredirs (n + 1) s =
    if (next s).isRedir then
      if next (after s) ≠ .word then .error .missingFile
      else do
        let r ← parseredirs n (after (after s))
        return (redirOf (next s) (here (after s)) :: r.1, r.2)
    else .ok ([], skip s) := by
  rw [parseredirs, peek_eq s (by decide), gettoken_skip]
  rfl

theorem parseargs_succ (argv : List Ptr) (rs : List (Redir Ptr)) : parseargs (n + 1) argv rs s =
    if (next s).isStop then .ok (argv, rs, skip s)
    else if next s = .eof then .ok (argv, rs, after s)
    else if next s ≠ .word then .error .badSyntax
    else if argv.length + 1 ≥ maxArgs then .error .tooManyArgs
    else (do
      let r ← parseredirs n (after s)
      parseargs n (argv ++ [here s]) (rs ++ r.1) r.2) := by
  rw [parseargs, peek_eq s (by decide), gettoken_skip]
  rfl

theorem parseback_succ (cmd : Cmd Ptr) : parseback (n + 1) cmd s =
    if next s = .amp then parseback n (.back cmd) (after s) else .ok (cmd, skip s) := by
  rw [parseback, peek_eq s (by decide), gettoken_skip]
  simp only [Tok.among_amp, after]

theorem parseline_succ : parseline (n + 1) s = (do
    let c ← parsepipe n s
    let c ← parseback n c.1 c.2
    if next c.2 = .semi then
      let d ← parseline n (after c.2)
      return (.list c.1 d.1, d.2)
    else return (c.1, skip c.2)) := by
  rw [parseline]
  simp only [peek_eq _ (show [59] ⊆ symbols by decide), gettoken_skip, Tok.among_semi, after]

theorem parsepipe_succ : parsepipe (n + 1) s = (do
    let c ← parseexec n s
    if next c.2 = .bar then
      let d ← parsepipe n (after c.2)
      return (.pipe c.1 d.1, d.2)
    else return (c.1, skip c.2)) := by
  rw [parsepipe]
  simp only [peek_eq _ (show [124] ⊆ symbols by decide), gettoken_skip, Tok.among_bar, after]

theorem parseblock_succ : parseblock (n + 1) s =
    if next s = .lpar then do
      let c ← parseline n (after s)
      if next c.2 = .rpar then
        let r ← parseredirs n (after c.2)
        return (wrap c.1 r.1, r.2)
      else throw .missingParen
    else throw .parseblock := by
  rw [parseblock]
  simp only [peek_eq _ (show [40] ⊆ symbols by decide), peek_eq _ (show [41] ⊆ symbols by decide),
    gettoken_skip, Tok.among_lpar, Tok.among_rpar, after]

theorem parseexec_succ : parseexec (n + 1) s =
    if next s = .lpar then parseblock n (skip s)
    else do
      let r ← parseredirs n (skip s)
      let a ← parseargs n [] r.1 r.2
      return (wrap (.exec a.1) a.2.1, a.2.2) := by
  rw [parseexec]
  simp only [peek_eq _ (show [40] ⊆ symbols by decide), Tok.among_lpar]

end Equations

end SsuOs.Xv6Sh
