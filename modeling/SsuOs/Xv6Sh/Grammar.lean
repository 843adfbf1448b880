import Mathlib.Logic.Function.Iterate
import SsuOs.Base.Fallible
import SsuOs.Xv6Sh.Lex

/-!
# The language of the shell

`Derives` is the grammar of command lines, over tokens that carry their words as some type has them.
The parser accepts exactly the lines of the grammar, with the tree of the derivation, and it never
calls itself deeper than `enough` says.
-/

namespace SsuOs.Xv6Sh

open Fallible

section Grammar

variable {ω : Type}

/-- The words and the redirections of a simple command, in any order. -/
inductive Simple : List (Tok × ω) → List ω → List (Redir ω) → Prop
  | nil : Simple [] [] []
  | word {w ts ws rs} : Simple ts ws rs → Simple ((.word, w) :: ts) (w :: ws) rs
  | redir {op o f ts ws rs} (isRedir : op.isRedir) : Simple ts ws rs →
      Simple ((op, o) :: (.word, f) :: ts) ws (redirOf op f :: rs)

/-- The kinds of phrases. -/
inductive Phrase
  | line | pipe | exec

/-- A command in the background, as often as it has been asked for. -/
def backs (n : ℕ) (cmd : Cmd ω) : Cmd ω := Cmd.back^[n] cmd

/-- The grammar. A line is a pipeline with any number of `&`, and after a `;` another line, which may
be empty; a pipeline is made of blocks and simple commands. -/
inductive Derives : Phrase → List (Tok × ω) → Cmd ω → Prop
  | simple {ts ws rs} (few : ws.length < maxArgs) : Simple ts ws rs →
      Derives .exec ts (wrap (.exec ws) rs)
  | block {o p ts us c rs} : Derives .line ts c → Simple us [] rs →
      Derives .exec ((.lpar, o) :: ts ++ (.rpar, p) :: us) (wrap c rs)
  | command {ts c} : Derives .exec ts c → Derives .pipe ts c
  | pipe {o ts us c d} : Derives .exec ts c → Derives .pipe us d →
      Derives .pipe (ts ++ (.bar, o) :: us) (.pipe c d)
  | line {ts c as} : Derives .pipe ts c → (∀ a ∈ as, a.1 = .amp) →
      Derives .line (ts ++ as) (backs as.length c)
  | list {o ts us c d as} : Derives .pipe ts c → (∀ a ∈ as, a.1 = .amp) → Derives .line us d →
      Derives .line (ts ++ as ++ (.semi, o) :: us) (.list (backs as.length c) d)

end Grammar

/-- The parsing function of a phrase. -/
def Phrase.parse : Phrase → ℕ → Str → Except Panic (Cmd Ptr × Str)
  | .line => parseline
  | .pipe => parsepipe
  | .exec => parseexec

/-! ## What is accepted is derived -/

/-- The tokens that a call has read, up to where it has left the pointer. -/
structure Read (s : Str) (ts : List (Tok × Ptr)) (s' : Str) : Prop where
  lexed : lex s = ts ++ lex s'
  shorter : s'.length ≤ s.length

namespace Read

theorem skip (s : Str) : Read s [] (skip s) where
  lexed := by simp
  shorter := length_skip_le s

theorem token {s s' : Str} {ts : List (Tok × Ptr)} (more : next s ≠ .eof)
    (read : Read (after s) ts s') : Read s ((next s, here s) :: ts) s' where
  lexed := by rw [lex_of_next more, read.lexed, List.cons_append]
  shorter := read.shorter.trans (length_after_lt more).le

theorem trans {s s' s'' : Str} {ts us : List (Tok × Ptr)} (first : Read s ts s')
    (second : Read s' us s'') : Read s (ts ++ us) s'' where
  lexed := by rw [first.lexed, second.lexed, List.append_assoc]
  shorter := second.shorter.trans first.shorter

theorem of_skip {s s' : Str} {ts : List (Tok × Ptr)} (read : Read (Xv6Sh.skip s) ts s') :
    Read s ts s' where
  lexed := by rw [← lex_skip, read.lexed]
  shorter := read.shorter.trans (length_skip_le s)

end Read

theorem Simple.append {ω : Type} {ts us : List (Tok × ω)} {ws : List ω} {rs qs : List (Redir ω)}
    (first : Simple ts [] rs) (second : Simple us ws qs) : Simple (ts ++ us) ws (rs ++ qs) := by
  generalize none : ([] : List ω) = vs at first
  induction first with
  | nil => exact second
  | word first ih => simp at none
  | redir isRedir first ih => exact .redir isRedir (ih none)

theorem parseredirs_sound {n : ℕ} {s s' : Str} {rs : List (Redir Ptr)}
    (ok : parseredirs n s = .ok (rs, s')) : ∃ ts, Read s ts s' ∧ Simple ts [] rs := by
  induction n generalizing s rs with
  | zero => simp [parseredirs] at ok
  | succ n ih =>
    rw [parseredirs_succ] at ok
    split at ok
    next isRedir =>
      simp only [check_eq_ok, not_not, bind_eq_ok, pure_eq_ok, Prod.mk.injEq] at ok
      obtain ⟨isWord, ⟨qs, s''⟩, inner, rfl, rfl⟩ := ok
      obtain ⟨ts, read, redirs⟩ := ih inner
      refine ⟨_, .token (Tok.ne_eof_of_among isRedir) (.token (by simp [isWord]) read), ?_⟩
      rw [isWord]
      exact .redir isRedir redirs
    next =>
      obtain ⟨rfl, rfl⟩ := Prod.mk.inj (Except.ok.inj ok)
      exact ⟨[], .skip s, .nil⟩

theorem parseargs_sound {n : ℕ} {s s' : Str} {argv argv' : List Ptr} {rs rs' : List (Redir Ptr)}
    (few : argv.length < maxArgs) (ok : parseargs n argv rs s = .ok (argv', rs', s')) :
    ∃ ts ws qs, Read s ts s' ∧ Simple ts ws qs ∧ argv' = argv ++ ws ∧ rs' = rs ++ qs ∧
      argv'.length < maxArgs := by
  induction n generalizing s argv rs with
  | zero => simp [parseargs] at ok
  | succ n ih =>
    rw [parseargs_succ] at ok
    split at ok
    next =>
      simp only [Except.ok.injEq, Prod.mk.injEq] at ok
      obtain ⟨rfl, rfl, rfl⟩ := ok
      exact ⟨[], [], [], .skip s, .nil, by simp, by simp, few⟩
    next =>
    split at ok
    next ends =>
      simp only [Except.ok.injEq, Prod.mk.injEq] at ok
      obtain ⟨rfl, rfl, rfl⟩ := ok
      have read : Read s [] (after s) := by
        rw [after_of_eof ends]
        exact ⟨lex_of_eof ends, Nat.zero_le _⟩
      exact ⟨[], [], [], read, .nil, by simp, by simp, few⟩
    next more =>
      simp only [check_eq_ok, not_not, bind_eq_ok, not_le] at ok
      obtain ⟨isWord, room, ⟨os, s₁⟩, redirs, rest⟩ := ok
      obtain ⟨ts, read, simple⟩ := parseredirs_sound redirs
      obtain ⟨us, ws, qs, read', simple', rfl, rfl, few'⟩ := ih (by simpa using room) rest
      refine ⟨_, here s :: ws, os ++ qs, .token more (read.trans read'), ?_, by simp, by simp, few'⟩
      rw [isWord]
      exact .word (simple.append simple')

theorem parseback_sound {n : ℕ} {s s' : Str} {c c' : Cmd Ptr}
    (ok : parseback n c s = .ok (c', s')) :
    ∃ as : List (Tok × Ptr), Read s as s' ∧ (∀ a ∈ as, a.1 = .amp) ∧ c' = backs as.length c := by
  induction n generalizing s c with
  | zero => simp [parseback] at ok
  | succ n ih =>
    rw [parseback_succ] at ok
    split at ok
    next isAmp =>
      obtain ⟨as, read, amps, rfl⟩ := ih ok
      refine ⟨_, .token (by simp [isAmp]) read, ?_, by simp [backs]⟩
      simpa [isAmp] using amps
    next =>
      obtain ⟨rfl, rfl⟩ := Prod.mk.inj (Except.ok.inj ok)
      exact ⟨[], .skip s, by simp, rfl⟩

/-- A phrase that was read has a derivation from the tokens that were read. -/
def Sound (n : ℕ) : Prop :=
  ∀ (ph : Phrase) (s : Str) (c : Cmd Ptr) (s' : Str), ph.parse n s = .ok (c, s') →
    ∃ ts, Read s ts s' ∧ Derives ph ts c

theorem parseblock_sound {n : ℕ} (sound : Sound n) {s s' : Str} {c : Cmd Ptr}
    (ok : parseblock (n + 1) s = .ok (c, s')) : ∃ ts, Read s ts s' ∧ Derives .exec ts c := by
  rw [parseblock_succ] at ok
  split at ok
  next isOpen =>
    simp only [bind_eq_ok] at ok
    obtain ⟨⟨d, s₁⟩, line, ok⟩ := ok
    split at ok
    next isClose =>
      simp only [bind_eq_ok, pure_eq_ok, Prod.mk.injEq] at ok
      obtain ⟨⟨rs, s₂⟩, redirs, rfl, rfl⟩ := ok
      obtain ⟨ts, read, derives⟩ := sound .line _ _ _ line
      obtain ⟨us, read', simple⟩ := parseredirs_sound redirs
      have close := Read.token (by simp [isClose]) read'
      refine ⟨_, .token (by simp [isOpen]) (read.trans close), ?_⟩
      rw [isOpen, isClose]
      exact .block derives simple
    next => simp at ok
  next => simp at ok

theorem parseexec_sound {n : ℕ} (sound : ∀ m < n, Sound m) {s s' : Str} {c : Cmd Ptr}
    (ok : parseexec (n + 1) s = .ok (c, s')) : ∃ ts, Read s ts s' ∧ Derives .exec ts c := by
  rw [parseexec_succ] at ok
  split at ok
  next =>
    cases n with
    | zero => simp [parseblock] at ok
    | succ n =>
      obtain ⟨ts, read, derives⟩ := parseblock_sound (sound n n.lt_succ_self) ok
      exact ⟨ts, read.of_skip, derives⟩
  next =>
    simp only [bind_eq_ok, pure_eq_ok, Prod.mk.injEq] at ok
    obtain ⟨⟨rs, s₁⟩, redirs, ⟨ws, qs, s₂⟩, args, rfl, rfl⟩ := ok
    obtain ⟨ts, read, simple⟩ := parseredirs_sound redirs
    obtain ⟨us, ws, qs, read', simple', rfl, rfl, few⟩ := parseargs_sound (by simp) args
    exact ⟨_, (read.of_skip).trans read', .simple few (simple.append simple')⟩

theorem parsepipe_sound {n : ℕ} (sound : Sound n) {s s' : Str} {c : Cmd Ptr}
    (ok : parsepipe (n + 1) s = .ok (c, s')) : ∃ ts, Read s ts s' ∧ Derives .pipe ts c := by
  rw [parsepipe_succ] at ok
  simp only [bind_eq_ok] at ok
  obtain ⟨⟨d, s₁⟩, exec, ok⟩ := ok
  obtain ⟨ts, read, derives⟩ := sound .exec _ _ _ exec
  split at ok
  next isBar =>
    simp only [bind_eq_ok, pure_eq_ok, Prod.mk.injEq] at ok
    obtain ⟨⟨e, s₂⟩, pipe, rfl, rfl⟩ := ok
    obtain ⟨us, read', derives'⟩ := sound .pipe _ _ _ pipe
    refine ⟨_, read.trans (.token (by simp [isBar]) read'), ?_⟩
    rw [isBar]
    exact .pipe derives derives'
  next =>
    simp only [pure_eq_ok, Prod.mk.injEq] at ok
    obtain ⟨rfl, rfl⟩ := ok
    exact ⟨_, read.trans (.skip s₁), by simpa using Derives.command derives⟩

theorem parseline_sound {n : ℕ} (sound : Sound n) {s s' : Str} {c : Cmd Ptr}
    (ok : parseline (n + 1) s = .ok (c, s')) : ∃ ts, Read s ts s' ∧ Derives .line ts c := by
  rw [parseline_succ] at ok
  simp only [bind_eq_ok] at ok
  obtain ⟨⟨d, s₁⟩, pipe, ⟨e, s₂⟩, back, ok⟩ := ok
  obtain ⟨ts, read, derives⟩ := sound .pipe _ _ _ pipe
  obtain ⟨as, read', amps, rfl⟩ := parseback_sound back
  split at ok
  next isSemi =>
    simp only [bind_eq_ok, pure_eq_ok, Prod.mk.injEq] at ok
    obtain ⟨⟨f, s₃⟩, line, rfl, rfl⟩ := ok
    obtain ⟨us, read'', derives'⟩ := sound .line _ _ _ line
    refine ⟨_, (read.trans read').trans (.token (by simp [isSemi]) read''), ?_⟩
    rw [isSemi]
    exact .list derives amps derives'
  next =>
    simp only [pure_eq_ok, Prod.mk.injEq] at ok
    obtain ⟨rfl, rfl⟩ := ok
    exact ⟨_, (read.trans read').trans (.skip s₂), by simpa using Derives.line derives amps⟩

theorem sound (n : ℕ) : Sound n := by
  induction n using Nat.strong_induction_on with
  | _ n ih =>
    intro ph s c s' ok
    cases n with
    | zero => cases ph <;> simp [Phrase.parse, parseline, parsepipe, parseexec] at ok
    | succ n =>
      cases ph with
      | line => exact parseline_sound (ih n n.lt_succ_self) ok
      | pipe => exact parsepipe_sound (ih n n.lt_succ_self) ok
      | exec => exact parseexec_sound (fun m below => ih m (below.trans n.lt_succ_self)) ok

/-! ## What is derived is accepted -/

/-- The tokens that may come after a phrase. -/
def Phrase.follow : Phrase → List Tok
  | .exec => [.bar, .amp, .semi, .rpar]
  | .pipe => [.amp, .semi, .rpar]
  | .line => [.rpar]

/-- How deep the calls for a phrase can get. -/
def Phrase.depth (s : Str) : Phrase → ℕ
  | .line => 4 * s.length + 4
  | .pipe => 4 * s.length + 3
  | .exec => 4 * s.length + 2

/-- What is left begins with one of some tokens, or there is nothing left. -/
def Follows (toks : List Tok) (us : List (Tok × Ptr)) : Prop := ∀ u ∈ us.head?, u.1 ∈ toks

theorem Follows.next {toks : List Tok} {us : List (Tok × Ptr)} (follows : Follows toks us) {s : Str}
    (lexed : lex s = us) : next s = .eof ∨ next s ∈ toks := by
  cases us with
  | nil => exact .inl (lex_eq_nil_iff.1 lexed)
  | cons u us =>
    right
    rw [(next_of_lex lexed).1]
    exact follows u rfl

theorem Follows.mono {toks toks' : List Tok} {us : List (Tok × Ptr)} (follows : Follows toks us)
    (sub : toks ⊆ toks') : Follows toks' us :=
  fun u mem => sub (follows u mem)

theorem follows_cons {toks : List Tok} {u : Tok × Ptr} {us : List (Tok × Ptr)} :
    Follows toks (u :: us) ↔ u.1 ∈ toks := by
  simp [Follows]

/-- A call returns a value and leaves the pointer before the tokens `us`. -/
def Yields {α : Type} (call : Except Panic (α × Str)) (a : α) (s : Str)
    (us : List (Tok × Ptr)) : Prop :=
  ∃ s', call = .ok (a, s') ∧ lex s' = us ∧ s'.length ≤ s.length

/-- The symbols after which no command goes on. -/
abbrev stops : List Tok := [.bar, .amp, .semi, .rpar]

theorem Follows.isRedir_eq_false {us : List (Tok × Ptr)} (follows : Follows stops us) {s : Str}
    (lexed : lex s = us) : (Xv6Sh.next s).isRedir = false := by
  rcases follows.next lexed with ends | stop
  · rw [ends]
    rfl
  · revert stop
    cases Xv6Sh.next s <;> decide

theorem parseredirs_stop {n : ℕ} {s : Str} (deep : 0 < n) (other : (next s).isRedir = false) :
    parseredirs n s = .ok ([], skip s) := by
  obtain ⟨k, rfl⟩ := Nat.exists_eq_add_of_lt deep
  rw [Nat.zero_add, parseredirs_succ, other]
  rfl

theorem parseredirs_redir {n : ℕ} {s s' : Str} {rs : List (Redir Ptr)}
    (isRedir : (next s).isRedir) (isWord : next (after s) = .word)
    (rest : parseredirs n (after (after s)) = .ok (rs, s')) :
    parseredirs (n + 1) s = .ok (redirOf (next s) (here (after s)) :: rs, s') := by
  rw [parseredirs_succ, if_pos isRedir, if_neg (by simp [isWord]), rest]
  rfl

theorem parseargs_stop {n : ℕ} {s : Str} {us : List (Tok × Ptr)} (deep : 0 < n)
    (lexed : lex s = us) (follows : Follows stops us) (argv : List Ptr) (rs : List (Redir Ptr)) :
    ∃ s', parseargs n argv rs s = .ok (argv, rs, s') ∧ lex s' = us ∧ s'.length ≤ s.length := by
  obtain ⟨k, rfl⟩ := Nat.exists_eq_add_of_lt deep
  rw [Nat.zero_add, parseargs_succ]
  rcases follows.next lexed with ends | stop
  · refine ⟨after s, ?_, ?_, ?_⟩
    · rw [ends]
      rfl
    · rw [after_of_eof ends, ← lexed, lex_of_eof ends]
      rfl
    · simp [after_of_eof ends]
  · have isStop : (next s).isStop := by
      revert stop
      cases next s <;> decide
    exact ⟨skip s, by rw [if_pos isStop], by rw [lex_skip, lexed], length_skip_le s⟩

theorem parseargs_word {n : ℕ} {s : Str} {argv : List Ptr} (rs : List (Redir Ptr))
    (isWord : next s = .word) (room : argv.length + 1 < maxArgs) :
    parseargs (n + 1) argv rs s = (do
      let r ← parseredirs n (after s)
      parseargs n (argv ++ [here s]) (rs ++ r.1) r.2) := by
  rw [parseargs_succ, isWord, if_neg (by decide), if_neg (by simp), if_neg (by simp),
    if_neg (by omega)]

/-- The redirections before a word and the words after them are read as the grammar has them. -/
theorem parseargs_complete {ts : List (Tok × Ptr)} {ws : List Ptr} {rs : List (Redir Ptr)}
    (simple : Simple ts ws rs) {us : List (Tok × Ptr)} (follows : Follows stops us) :
    ∀ {n m : ℕ} {s : Str} (argv : List Ptr) (qs : List (Redir Ptr)), lex s = ts ++ us →
      s.length < n → s.length < m → argv.length + ws.length < maxArgs →
      ∃ os s₁ s', parseredirs n s = .ok (os, s₁) ∧
        parseargs m argv (qs ++ os) s₁ = .ok (argv ++ ws, qs ++ rs, s') ∧ lex s' = us ∧
        s'.length ≤ s.length := by
  induction simple with
  | nil =>
    intro n m s argv qs lexed deep deep' few
    have other := follows.isRedir_eq_false lexed
    obtain ⟨s', args, lexed', short⟩ := parseargs_stop (s := skip s) (Nat.zero_lt_of_lt deep')
      (by simpa using lexed) follows argv (qs ++ [])
    exact ⟨[], skip s, s', parseredirs_stop (Nat.zero_lt_of_lt deep) other, by simpa using args,
      lexed', short.trans (length_skip_le s)⟩
  | word simple ih =>
    intro n m s argv qs lexed deep deep' few
    obtain ⟨isWord, rfl, lexed, short⟩ := next_of_lex lexed
    obtain ⟨m, rfl⟩ := Nat.exists_eq_succ_of_ne_zero (Nat.ne_zero_of_lt deep')
    rw [List.length_cons] at few
    have redirs : parseredirs n s = .ok ([], skip s) :=
      parseredirs_stop (Nat.zero_lt_of_lt deep) (by rw [isWord]; rfl)
    obtain ⟨os, s₁, s', first, rest, lexed', short'⟩ := ih (n := m) (m := m) (argv ++ [here s]) qs
      lexed (by omega) (by omega) (by simp; omega)
    refine ⟨[], skip s, s', redirs, ?_, lexed', by omega⟩
    rw [parseargs_word _ (by simpa using isWord) (by omega), after_skip, first, here_skip,
      List.append_nil]
    simpa using rest
  | redir isRedir simple ih =>
    intro n m s argv qs lexed deep deep' few
    obtain ⟨rfl, rfl, lexed, short⟩ := next_of_lex lexed
    obtain ⟨isWord, rfl, lexed, short'⟩ := next_of_lex lexed
    obtain ⟨n, rfl⟩ := Nat.exists_eq_succ_of_ne_zero (Nat.ne_zero_of_lt deep)
    obtain ⟨os, s₁, s', first, rest, lexed', short''⟩ := ih (n := n) (m := m) argv
      (qs ++ [redirOf (next s) (here (after s))]) lexed (by omega) (by omega) few
    refine ⟨_, s₁, s', parseredirs_redir isRedir isWord first, ?_, lexed', by omega⟩
    simpa using rest

/-- The redirections after a block. -/
theorem parseredirs_complete {ts : List (Tok × Ptr)} {rs : List (Redir Ptr)}
    (simple : Simple ts [] rs) {us : List (Tok × Ptr)} (follows : Follows stops us) {n : ℕ} {s : Str}
    (lexed : lex s = ts ++ us) (deep : s.length < n) : Yields (parseredirs n s) rs s us := by
  generalize none : ([] : List Ptr) = ws at simple
  induction simple generalizing n s with
  | nil =>
    have other := follows.isRedir_eq_false lexed
    exact ⟨skip s, parseredirs_stop (Nat.zero_lt_of_lt deep) other, by simpa using lexed,
      length_skip_le s⟩
  | word => simp at none
  | redir isRedir simple ih =>
    obtain ⟨rfl, rfl, lexed, short⟩ := next_of_lex lexed
    obtain ⟨isWord, rfl, lexed, short'⟩ := next_of_lex lexed
    obtain ⟨n, rfl⟩ := Nat.exists_eq_succ_of_ne_zero (Nat.ne_zero_of_lt deep)
    obtain ⟨s', rest, lexed', short''⟩ := ih lexed (n := n) (by omega) none
    exact ⟨s', parseredirs_redir isRedir isWord rest, lexed', by omega⟩

theorem parseback_complete {as : List (Tok × Ptr)} (amps : ∀ a ∈ as, a.1 = .amp)
    {us : List (Tok × Ptr)} (follows : Follows [.semi, .rpar] us) {n : ℕ} {s : Str} {c : Cmd Ptr}
    (lexed : lex s = as ++ us) (deep : s.length < n) :
    Yields (parseback n c s) (backs as.length c) s us := by
  induction as generalizing n s c with
  | nil =>
    obtain ⟨n, rfl⟩ := Nat.exists_eq_succ_of_ne_zero (Nat.ne_zero_of_lt deep)
    have other : next s ≠ .amp := by
      rcases follows.next lexed with ends | stop
      · simp [ends]
      · rintro isAmp
        simp [isAmp] at stop
    refine ⟨skip s, ?_, by simpa using lexed, length_skip_le s⟩
    rw [parseback_succ, if_neg other]
    rfl
  | cons a as ih =>
    obtain ⟨isAmp, -, lexed, short⟩ := next_of_lex lexed
    obtain ⟨n, rfl⟩ := Nat.exists_eq_succ_of_ne_zero (Nat.ne_zero_of_lt deep)
    have amps' : ∀ b ∈ as, b.1 = .amp := fun b mem => amps b (List.mem_cons_of_mem _ mem)
    obtain ⟨s', rest, lexed', short'⟩ := ih amps' lexed (n := n) (c := .back c) (by omega)
    refine ⟨s', ?_, lexed', by omega⟩
    rw [parseback_succ, if_pos (isAmp.trans (amps _ List.mem_cons_self)), rest]
    rfl

/-- A simple command does not begin with a parenthesis. -/
theorem Simple.next_ne_lpar {ts : List (Tok × Ptr)} {ws : List Ptr} {rs : List (Redir Ptr)}
    (simple : Simple ts ws rs) {us : List (Tok × Ptr)} (follows : Follows stops us) {s : Str}
    (lexed : lex s = ts ++ us) : next s ≠ .lpar := by
  cases simple with
  | nil =>
    rcases follows.next lexed with ends | stop
    · simp [ends]
    · rintro isOpen
      simp [isOpen] at stop
  | word => simp [(next_of_lex lexed).1]
  | redir isRedir =>
    rw [(next_of_lex lexed).1]
    rintro rfl
    exact absurd isRedir (by decide)

/-- A derivation whose phrase is read from a line that holds its tokens. -/
def Complete (ph : Phrase) (ts : List (Tok × Ptr)) (c : Cmd Ptr) : Prop :=
  ∀ ⦃us : List (Tok × Ptr)⦄, Follows ph.follow us → ∀ ⦃n : ℕ⦄ ⦃s : Str⦄, lex s = ts ++ us →
    ph.depth s ≤ n → Yields (ph.parse n s) c s us

theorem Simple.complete {ts : List (Tok × Ptr)} {ws : List Ptr} {rs : List (Redir Ptr)}
    (simple : Simple ts ws rs) (few : ws.length < maxArgs) :
    Complete .exec ts (wrap (.exec ws) rs) := by
  intro us follows n s lexed deep
  change 4 * s.length + 2 ≤ n at deep
  obtain ⟨n, rfl⟩ := Nat.exists_eq_add_of_le' (show 1 ≤ n by omega)
  have short := length_skip_le s
  obtain ⟨os, s₁, s', first, rest, lexed', short'⟩ := parseargs_complete simple follows
    (n := n) (m := n) (s := skip s) [] [] (by simpa using lexed)
    (by omega) (by omega) (by simpa using few)
  refine ⟨s', ?_, lexed', by omega⟩
  rw [Phrase.parse, parseexec_succ, if_neg (simple.next_ne_lpar follows lexed), first]
  simp only [List.nil_append] at rest
  simp [rest, bind, Except.bind, pure, Except.pure]

theorem Complete.block {ts us : List (Tok × Ptr)} {c : Cmd Ptr} {rs : List (Redir Ptr)} {o p : Ptr}
    (line : Complete .line ts c) (simple : Simple us [] rs) :
    Complete .exec ((.lpar, o) :: ts ++ (.rpar, p) :: us) (wrap c rs) := by
  intro vs follows n s lexed deep
  rw [List.append_assoc, List.cons_append] at lexed
  obtain ⟨isOpen, rfl, lexed, short⟩ := next_of_lex lexed
  change 4 * s.length + 2 ≤ n at deep
  obtain ⟨n, rfl⟩ := Nat.exists_eq_add_of_le' (show 2 ≤ n by omega)
  obtain ⟨s₁, inner, lexed, short₁⟩ := line (follows_cons.2 (by simp [Phrase.follow])) lexed (n := n)
    (by simp only [Phrase.depth]; omega)
  obtain ⟨isClose, rfl, lexed, short₂⟩ := next_of_lex lexed
  obtain ⟨s₂, redirs, lexed, short₃⟩ := parseredirs_complete simple follows lexed (n := n) (by omega)
  refine ⟨s₂, ?_, lexed, by omega⟩
  rw [Phrase.parse, parseexec_succ, if_pos isOpen, parseblock_succ, next_skip, if_pos isOpen]
  rw [Phrase.parse] at inner
  simp [inner, isClose, redirs, bind, Except.bind, pure, Except.pure]

theorem Complete.command {ts : List (Tok × Ptr)} {c : Cmd Ptr} (exec : Complete .exec ts c) :
    Complete .pipe ts c := by
  intro us follows n s lexed deep
  change 4 * s.length + 3 ≤ n at deep
  obtain ⟨n, rfl⟩ := Nat.exists_eq_add_of_le' (show 1 ≤ n by omega)
  obtain ⟨s₁, inner, lexed, short⟩ := exec (follows.mono (by simp [Phrase.follow])) lexed (n := n)
    (by simp only [Phrase.depth]; omega)
  have other : next s₁ ≠ .bar := by
    rcases follows.next lexed with ends | stop
    · simp [ends]
    · rintro isBar
      simp [isBar, Phrase.follow] at stop
  refine ⟨skip s₁, ?_, by rw [lex_skip, lexed], (length_skip_le s₁).trans short⟩
  simp only [Phrase.parse] at inner ⊢
  rw [parsepipe_succ, inner]
  simp [other, bind, Except.bind, pure, Except.pure]

theorem Complete.pipe {ts us : List (Tok × Ptr)} {c d : Cmd Ptr} {o : Ptr}
    (exec : Complete .exec ts c) (pipe : Complete .pipe us d) :
    Complete .pipe (ts ++ (.bar, o) :: us) (.pipe c d) := by
  intro vs follows n s lexed deep
  change 4 * s.length + 3 ≤ n at deep
  rw [List.append_assoc, List.cons_append] at lexed
  obtain ⟨n, rfl⟩ := Nat.exists_eq_add_of_le' (show 1 ≤ n by omega)
  obtain ⟨s₁, left, lexed, short⟩ := exec (follows_cons.2 (by simp [Phrase.follow])) lexed (n := n)
    (by simp only [Phrase.depth]; omega)
  obtain ⟨isBar, rfl, lexed, short₁⟩ := next_of_lex lexed
  obtain ⟨s₂, right, lexed, short₂⟩ := pipe follows lexed (n := n)
    (by simp only [Phrase.depth]; omega)
  refine ⟨s₂, ?_, lexed, by omega⟩
  simp only [Phrase.parse] at left right ⊢
  rw [parsepipe_succ, left]
  simp [isBar, right, bind, Except.bind, pure, Except.pure]

/-- What a line has before its `;`, or before its end. -/
theorem Complete.backs {ts : List (Tok × Ptr)} {c : Cmd Ptr} (pipe : Complete .pipe ts c)
    {as : List (Tok × Ptr)} (amps : ∀ a ∈ as, a.1 = .amp) {us : List (Tok × Ptr)}
    (follows : Follows [.semi, .rpar] us) {n : ℕ} {s : Str} (lexed : lex s = ts ++ (as ++ us))
    (deep : 4 * s.length + 3 ≤ n) :
    Yields (do let c ← parsepipe n s; parseback n c.1 c.2) (backs as.length c) s us := by
  have followed : Follows Phrase.pipe.follow (as ++ us) := by
    cases as with
    | nil => exact follows.mono (by simp [Phrase.follow])
    | cons a as => exact follows_cons.2 (by simp [Phrase.follow, amps a List.mem_cons_self])
  obtain ⟨s₁, inner, lexed, short⟩ := pipe followed lexed deep
  obtain ⟨s₂, back, lexed, short₁⟩ := parseback_complete amps follows lexed (n := n) (c := c)
    (by omega)
  refine ⟨s₂, ?_, lexed, by omega⟩
  rw [Phrase.parse] at inner
  rw [inner]
  exact back

theorem Complete.line {ts : List (Tok × Ptr)} {c : Cmd Ptr} (pipe : Complete .pipe ts c)
    {as : List (Tok × Ptr)} (amps : ∀ a ∈ as, a.1 = .amp) :
    Complete .line (ts ++ as) (Xv6Sh.backs as.length c) := by
  intro us follows n s lexed deep
  change 4 * s.length + 4 ≤ n at deep
  rw [List.append_assoc] at lexed
  obtain ⟨n, rfl⟩ := Nat.exists_eq_add_of_le' (show 1 ≤ n by omega)
  obtain ⟨s₁, inner, lexed, short⟩ := pipe.backs amps (follows.mono (by simp [Phrase.follow])) lexed
    (n := n) (by omega)
  have other : next s₁ ≠ .semi := by
    rcases follows.next lexed with ends | stop
    · simp [ends]
    · rintro isSemi
      simp [isSemi, Phrase.follow] at stop
  refine ⟨skip s₁, ?_, by rw [lex_skip, lexed], (length_skip_le s₁).trans short⟩
  rw [Phrase.parse, parseline_succ, ← bind_assoc, inner]
  simp [other, bind, Except.bind, pure, Except.pure]

theorem Complete.list {ts us : List (Tok × Ptr)} {c d : Cmd Ptr} {o : Ptr}
    (pipe : Complete .pipe ts c) {as : List (Tok × Ptr)} (amps : ∀ a ∈ as, a.1 = .amp)
    (line : Complete .line us d) :
    Complete .line (ts ++ as ++ (.semi, o) :: us) (.list (Xv6Sh.backs as.length c) d) := by
  intro vs follows n s lexed deep
  change 4 * s.length + 4 ≤ n at deep
  simp only [List.append_assoc, List.cons_append] at lexed
  obtain ⟨n, rfl⟩ := Nat.exists_eq_add_of_le' (show 1 ≤ n by omega)
  obtain ⟨s₁, inner, lexed, short⟩ := pipe.backs amps (follows_cons.2 (by simp)) lexed (n := n)
    (by omega)
  obtain ⟨isSemi, rfl, lexed, short₁⟩ := next_of_lex lexed
  obtain ⟨s₂, right, lexed, short₂⟩ := line follows lexed (n := n)
    (by simp only [Phrase.depth]; omega)
  refine ⟨s₂, ?_, lexed, by omega⟩
  simp only [Phrase.parse] at right ⊢
  rw [parseline_succ, ← bind_assoc, inner]
  simp [isSemi, right, bind, Except.bind, pure, Except.pure]

theorem Derives.complete {ph : Phrase} {ts : List (Tok × Ptr)} {c : Cmd Ptr}
    (derives : Derives ph ts c) : Complete ph ts c := by
  induction derives with
  | simple few simple => exact simple.complete few
  | block _ simple ih => exact ih.block simple
  | command _ ih => exact ih.command
  | pipe _ _ ih ih' => exact ih.pipe ih'
  | line _ amps ih => exact ih.line amps
  | list _ amps _ ih ih' => exact ih.list amps ih'

/-- The parser accepts the lines of the grammar, with their trees. -/
theorem parsecmd_eq_ok_iff {buf : List UInt8} {c : Cmd Ptr} {buf' : List UInt8} :
    parsecmd buf = .ok (c, buf') ↔
      Derives .line (lex (cstring buf)) c ∧
        buf' = nulterminate (cstring buf).length c buf := by
  constructor
  · intro ok
    simp only [parsecmd, bind_eq_ok] at ok
    obtain ⟨⟨d, s'⟩, line, ok⟩ := ok
    split at ok
    · simp at ok
    · next ends =>
      simp only [pure_eq_ok, Prod.mk.injEq] at ok
      obtain ⟨rfl, rfl⟩ := ok
      obtain ⟨ts, read, derives⟩ := sound (enough (cstring buf)) .line (cstring buf) d s' line
      have empty : lex s' = [] := lex_eq_nil_iff.2 ((next_eq_eof_iff s').2 (not_not.1 ends))
      rw [read.lexed, empty, List.append_nil]
      exact ⟨derives, rfl⟩
  · rintro ⟨derives, rfl⟩
    have followed : Follows Phrase.line.follow [] := by simp [Follows]
    obtain ⟨s', line, empty, short⟩ := derives.complete followed (s := cstring buf) (by simp)
      (n := enough (cstring buf)) le_rfl
    have ends : skip s' = [] := (next_eq_eof_iff s').1 (lex_eq_nil_iff.1 empty)
    rw [Phrase.parse] at line
    simp [parsecmd, line, peek, ends, bind, Except.bind, pure, Except.pure]

/-! ## What is refused -/

/-- A call that fails only for what is wrong with the line. -/
def Genuine {α : Type} (call : Except Panic α) : Prop :=
  ∀ e, call = .error e → e ≠ .depth ∧ e ≠ .parseblock

namespace Genuine

variable {α β : Type}

theorem ok (a : α) : Genuine (.ok a : Except Panic α) := by
  intro e eq
  simp at eq

theorem error {e : Panic} (depth : e ≠ .depth) (block : e ≠ .parseblock) :
    Genuine (.error e : Except Panic α) := by
  intro e' eq
  obtain rfl := Except.error.inj eq
  exact ⟨depth, block⟩

theorem bind {x : Except Panic α} {f : α → Except Panic β} (first : Genuine x)
    (second : ∀ a, x = .ok a → Genuine (f a)) : Genuine (x >>= f) := by
  cases x with
  | error e =>
    intro e' eq
    exact first e' (by simpa [Bind.bind, Except.bind] using eq)
  | ok a => exact second a rfl

end Genuine

theorem parseredirs_genuine {n : ℕ} {s : Str} (deep : s.length < n) :
    Genuine (parseredirs n s) := by
  induction n generalizing s with
  | zero => exact absurd deep (Nat.not_lt_zero _)
  | succ n ih =>
    rw [parseredirs_succ]
    split_ifs with isRedir other
    · apply Genuine.error <;> simp
    · have short := length_after_lt (Tok.ne_eof_of_among isRedir)
      have short' := length_after_lt (s := after s) (by simp [not_not.1 other])
      apply Genuine.bind
      · apply ih
        omega
      · intro r _
        apply Genuine.ok
    · apply Genuine.ok

theorem parseargs_genuine {n : ℕ} {s : Str} (deep : s.length < n) (argv : List Ptr)
    (rs : List (Redir Ptr)) : Genuine (parseargs n argv rs s) := by
  induction n generalizing s argv rs with
  | zero => exact absurd deep (Nat.not_lt_zero _)
  | succ n ih =>
    rw [parseargs_succ]
    split_ifs with stop ends isWord room
    · apply Genuine.ok
    · apply Genuine.ok
    · apply Genuine.error <;> simp
    · apply Genuine.error <;> simp
    · have short := length_after_lt ends
      apply Genuine.bind
      · apply parseredirs_genuine
        omega
      · rintro ⟨os, s₁⟩ redirs
        obtain ⟨ts, read, -⟩ := parseredirs_sound redirs
        apply ih
        exact read.shorter.trans_lt (by omega)

theorem parseback_genuine {n : ℕ} {s : Str} (deep : s.length < n) (c : Cmd Ptr) :
    Genuine (parseback n c s) := by
  induction n generalizing s c with
  | zero => exact absurd deep (Nat.not_lt_zero _)
  | succ n ih =>
    rw [parseback_succ]
    split_ifs with isAmp
    · have short := length_after_lt (s := s) (by simp [isAmp])
      apply ih
      omega
    · apply Genuine.ok

theorem parseblock_genuine {n : ℕ} {s : Str} (deep : 4 * s.length + 1 ≤ n)
    (line : ∀ m < n, ∀ s', 4 * s'.length + 4 ≤ m → Genuine (parseline m s'))
    (isOpen : next s = .lpar) : Genuine (parseblock n s) := by
  obtain ⟨n, rfl⟩ := Nat.exists_eq_add_of_le' (show 1 ≤ n by omega)
  have short := length_after_lt (s := s) (by simp [isOpen])
  rw [parseblock_succ, if_pos isOpen]
  apply (line n n.lt_succ_self (after s) (by omega)).bind
  rintro ⟨c, s₁⟩ ok
  obtain ⟨ts, read, -⟩ := sound n .line (after s) c s₁ ok
  have short' := read.shorter
  simp only
  split_ifs with isClose
  · have short'' := length_after_lt (s := s₁) (by simp [isClose])
    apply Genuine.bind
    · apply parseredirs_genuine
      omega
    · intro r _
      apply Genuine.ok
  · apply Genuine.error <;> simp

theorem parseexec_genuine {n : ℕ} {s : Str} (deep : 4 * s.length + 2 ≤ n)
    (line : ∀ m < n, ∀ s', 4 * s'.length + 4 ≤ m → Genuine (parseline m s')) :
    Genuine (parseexec n s) := by
  obtain ⟨n, rfl⟩ := Nat.exists_eq_add_of_le' (show 1 ≤ n by omega)
  have short := length_skip_le s
  rw [parseexec_succ]
  split_ifs with isOpen
  · apply parseblock_genuine (by omega)
    · intro m below
      exact line m (below.trans n.lt_succ_self)
    · simpa using isOpen
  · apply Genuine.bind
    · apply parseredirs_genuine
      omega
    · rintro ⟨rs, s₁⟩ redirs
      obtain ⟨ts, read, -⟩ := parseredirs_sound redirs
      apply Genuine.bind
      · apply parseargs_genuine
        exact read.shorter.trans_lt (by omega)
      · intro a _
        apply Genuine.ok

/-- No phrase needs more depth than it is given, and no block is looked for where none begins. -/
theorem parse_genuine (n : ℕ) (ph : Phrase) (s : Str) (deep : ph.depth s ≤ n) :
    Genuine (ph.parse n s) := by
  induction n using Nat.strong_induction_on generalizing ph s with
  | _ n ih =>
    cases ph with
    | exec => exact parseexec_genuine deep (fun m below s' => ih m below .line s')
    | pipe =>
      change 4 * s.length + 3 ≤ n at deep
      obtain ⟨n, rfl⟩ := Nat.exists_eq_add_of_le' (show 1 ≤ n by omega)
      rw [Phrase.parse, parsepipe_succ]
      apply (ih n n.lt_succ_self .exec s (by simp only [Phrase.depth]; omega)).bind
      rintro ⟨c, s₁⟩ ok
      obtain ⟨ts, read, -⟩ := sound n .exec s c s₁ ok
      have short := read.shorter
      simp only
      split_ifs with isBar
      · have short' := length_after_lt (s := s₁) (by simp [isBar])
        apply (ih n n.lt_succ_self .pipe _ (by simp only [Phrase.depth]; omega)).bind
        intro d _
        apply Genuine.ok
      · apply Genuine.ok
    | line =>
      change 4 * s.length + 4 ≤ n at deep
      obtain ⟨n, rfl⟩ := Nat.exists_eq_add_of_le' (show 1 ≤ n by omega)
      rw [Phrase.parse, parseline_succ]
      apply (ih n n.lt_succ_self .pipe s (by simp only [Phrase.depth]; omega)).bind
      rintro ⟨c, s₁⟩ ok
      obtain ⟨ts, read, -⟩ := sound n .pipe s c s₁ ok
      have short := read.shorter
      apply (parseback_genuine (s := s₁) (by omega) c).bind
      rintro ⟨d, s₂⟩ back
      obtain ⟨as, read', -⟩ := parseback_sound back
      have short' := read'.shorter
      simp only
      split_ifs with isSemi
      · have short'' := length_after_lt (s := s₂) (by simp [isSemi])
        apply (ih n n.lt_succ_self .line _ (by simp only [Phrase.depth]; omega)).bind
        intro d _
        apply Genuine.ok
      · apply Genuine.ok

theorem parsecmd_genuine (buf : List UInt8) : Genuine (parsecmd buf) := by
  apply (parse_genuine _ .line (cstring buf) le_rfl).bind
  intro c _
  simp only
  split_ifs
  · apply Genuine.error <;> simp
  · apply Genuine.ok

end SsuOs.Xv6Sh
