import Mathlib.Data.Nat.Notation
import Mathlib.Tactic.Common

/-!
# The parser of the shell

The parsing half of `sh.c`: `gettoken` and `peek` on the characters of a command line, the recursive
descent from `parseline` down to `parseblock`, and `nulterminate`. A pointer into the line is the
rest of the line from there on, so that `es` is the empty rest. The parsing functions count the
depth of their calls, and `enough` says how much is enough for a line.
-/

namespace SsuOs.Xv6Sh

/-- The rest of a command line, up to its terminator. -/
abbrev Str := List UInt8

/-- `whitespace`: space, tab, carriage return, newline and vertical tab. -/
def whitespace : Str := [32, 9, 13, 10, 11]

/-- `symbols`: `<|>&;()`. -/
def symbols : Str := [60, 124, 62, 38, 59, 40, 41]

/-- `strchr` finds the character. -/
def isSpace (c : UInt8) : Bool := whitespace.contains c

def isSymbol (c : UInt8) : Bool := symbols.contains c

/-- A character of a word. -/
def isPlain (c : UInt8) : Bool := !isSpace c && !isSymbol c

/-- What `gettoken` returns, `'+'` for `>>` and `'a'` for a word. -/
inductive Tok
  | eof | bar | lpar | rpar | semi | amp | lt | gt | append | word
  deriving DecidableEq, Repr

/-- The start of a word and its end. -/
abbrev Ptr := Str × Str

/-- A token: what it is, `*q` and `*eq`, and where `*ps` is after it. -/
structure Token where
  tok : Tok
  q : Str
  eq : Str
  rest : Str

def skip (s : Str) : Str := s.dropWhile isSpace

/-- The `switch` of `gettoken` at its first character: the token and its end. -/
def classify : Str → Tok × Str
  | [] => (.eof, [])
  | c :: s =>
    if c = 124 then (.bar, s)
    else if c = 40 then (.lpar, s)
    else if c = 41 then (.rpar, s)
    else if c = 59 then (.semi, s)
    else if c = 38 then (.amp, s)
    else if c = 60 then (.lt, s)
    else if c = 62 then (if s.head? = some 62 then (.append, s.tail) else (.gt, s))
    else (.word, (c :: s).dropWhile isPlain)

def gettoken (s : Str) : Token :=
  let q := skip s
  ⟨(classify q).1, q, (classify q).2, skip (classify q).2⟩

/-- `peek`: whether one of the characters comes next, and where `*ps` is after it. -/
def peek (s toks : Str) : Bool × Str :=
  (match skip s with
    | [] => false
    | c :: _ => toks.contains c, skip s)

/-- The trees of commands, with words as `ω` has them. -/
inductive Cmd (ω : Type)
  | exec (argv : List ω)
  | redir (cmd : Cmd ω) (file : ω) (mode fd : ℕ)
  | pipe (left right : Cmd ω)
  | list (left right : Cmd ω)
  | back (cmd : Cmd ω)
  deriving DecidableEq, Repr

/-- `O_RDONLY`. -/
def oRdonly : ℕ := 0

/-- `O_WRONLY | O_CREATE`. -/
def oWronlyCreate : ℕ := 0x001 ||| 0x200

/-- The texts the parser gives to `panic`. -/
inductive Panic
  /-- `missing file for redirection` -/
  | missingFile
  /-- `parseblock` -/
  | parseblock
  /-- `syntax - missing )` -/
  | missingParen
  /-- `syntax`, at a token that is no argument -/
  | badSyntax
  /-- `too many args` -/
  | tooManyArgs
  /-- `leftovers: %s`, then `syntax` -/
  | leftovers (s : Str)
  /-- the calls got deeper than they were counted -/
  | depth
  deriving DecidableEq, Repr

/-- `MAXARGS`. -/
abbrev maxArgs : ℕ := 10

/-- A redirection that `parseredirs` has found: its file, mode and descriptor. -/
structure Redir (ω : Type) where
  file : ω
  mode : ℕ
  fd : ℕ
  deriving DecidableEq, Repr

/-- The `switch` of `parseredirs`. -/
def redirOf {ω : Type} (tok : Tok) (file : ω) : Redir ω :=
  if tok = .lt then ⟨file, oRdonly, 0⟩ else ⟨file, oWronlyCreate, 1⟩

/-- `redircmd` around a command, for one redirection after the other. `parseexec` goes on to fill the
innermost command after it has been wrapped. -/
def wrap {ω : Type} (cmd : Cmd ω) (rs : List (Redir ω)) : Cmd ω :=
  rs.foldl (fun c r => .redir c r.file r.mode r.fd) cmd

/-- The loop of `parseredirs`. -/
def parseredirs : ℕ → Str → Except Panic (List (Redir Ptr) × Str)
  | 0, _ => .error .depth
  | n + 1, s =>
    let p := peek s [60, 62]
    if p.1 then
      let t := gettoken p.2
      let f := gettoken t.rest
      if f.tok ≠ .word then .error .missingFile
      else do
        let r ← parseredirs n f.rest
        return (redirOf t.tok (f.q, f.eq) :: r.1, r.2)
    else .ok ([], p.2)

/-- The loop of `parseexec`, with the arguments and the redirections so far. -/
def parseargs : ℕ → List Ptr → List (Redir Ptr) → Str →
    Except Panic (List Ptr × List (Redir Ptr) × Str)
  | 0, _, _, _ => .error .depth
  | n + 1, argv, rs, s =>
    let p := peek s [124, 41, 38, 59]
    if p.1 then .ok (argv, rs, p.2)
    else
      let t := gettoken p.2
      if t.tok = .eof then .ok (argv, rs, t.rest)
      else if t.tok ≠ .word then .error .badSyntax
      else if argv.length + 1 ≥ maxArgs then .error .tooManyArgs
      else do
        let r ← parseredirs n t.rest
        parseargs n (argv ++ [(t.q, t.eq)]) (rs ++ r.1) r.2

/-- The loop of `parseline` over `&`. -/
def parseback : ℕ → Cmd Ptr → Str → Except Panic (Cmd Ptr × Str)
  | 0, _, _ => .error .depth
  | n + 1, cmd, s =>
    let p := peek s [38]
    if p.1 then parseback n (.back cmd) (gettoken p.2).rest else .ok (cmd, p.2)

mutual

def parseline : ℕ → Str → Except Panic (Cmd Ptr × Str)
  | 0, _ => .error .depth
  | n + 1, s => do
    let c ← parsepipe n s
    let c ← parseback n c.1 c.2
    let p := peek c.2 [59]
    if p.1 then
      let d ← parseline n (gettoken p.2).rest
      return (.list c.1 d.1, d.2)
    else return (c.1, p.2)

def parsepipe : ℕ → Str → Except Panic (Cmd Ptr × Str)
  | 0, _ => .error .depth
  | n + 1, s => do
    let c ← parseexec n s
    let p := peek c.2 [124]
    if p.1 then
      let d ← parsepipe n (gettoken p.2).rest
      return (.pipe c.1 d.1, d.2)
    else return (c.1, p.2)

def parseblock : ℕ → Str → Except Panic (Cmd Ptr × Str)
  | 0, _ => .error .depth
  | n + 1, s => do
    let p := peek s [40]
    if p.1 then
      let c ← parseline n (gettoken p.2).rest
      let p := peek c.2 [41]
      if p.1 then
        let r ← parseredirs n (gettoken p.2).rest
        return (wrap c.1 r.1, r.2)
      else throw .missingParen
    else throw .parseblock

def parseexec : ℕ → Str → Except Panic (Cmd Ptr × Str)
  | 0, _ => .error .depth
  | n + 1, s => do
    let p := peek s [40]
    if p.1 then parseblock n p.2
    else
      let r ← parseredirs n p.2
      let a ← parseargs n [] r.1 r.2
      return (wrap (.exec a.1) a.2.1, a.2.2)

end

/-- How deep the calls for a line can get. -/
def enough (s : Str) : ℕ := 4 * s.length + 4

/-- `nulterminate` on the buffer of a line of length `len`: a zero goes to the end of every word. -/
def nulterminate (len : ℕ) : Cmd Ptr → List UInt8 → List UInt8
  | .exec argv, buf => argv.foldl (fun buf p => buf.set (len - p.2.length) 0) buf
  | .redir cmd file _ _, buf => (nulterminate len cmd buf).set (len - file.2.length) 0
  | .pipe left right, buf => nulterminate len right (nulterminate len left buf)
  | .list left right, buf => nulterminate len right (nulterminate len left buf)
  | .back cmd, buf => nulterminate len cmd buf

/-- The characters of a buffer before its first zero: `strlen` of them, with `es` after the last. -/
def cstring (buf : List UInt8) : Str := buf.takeWhile (· ≠ 0)

/-- `parsecmd`: the tree, and the buffer as `nulterminate` leaves it. -/
def parsecmd (buf : List UInt8) : Except Panic (Cmd Ptr × List UInt8) := do
  let s := cstring buf
  let c ← parseline (enough s) s
  let p := peek c.2 []
  if p.2 ≠ [] then throw (.leftovers p.2)
  else return (c.1, nulterminate s.length c.1 buf)

end SsuOs.Xv6Sh
