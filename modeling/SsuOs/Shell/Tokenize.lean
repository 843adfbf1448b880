import Mathlib.Data.Int.Notation
import Mathlib.Data.List.Basic
import Mathlib.Order.Nat
import Mathlib.Tactic.Common
import SsuOs.Base.Fields

/-!
# Splitting a line into tokens

The function `tokenize` of `hw2/ssu_shell.c` on byte buffers.  It replaces the terminator of its
argument by a newline and copies each part between delimiters into a buffer of its own.  Reading a
string past the end of its buffer, and writing past the end of `token` or `tokens`, are faults.

It returns exactly when the text that it scans has `Room` in the buffers, and then the tokens are
the fields of the text that a delimiter closes (`tokenize_eq_ok`).  On a string that is followed by
two zero bytes these are the fields of the string (`tokenize_eq_fields`).
-/

namespace SsuOs.Shell

/-- `MAX_TOKEN_SIZE` and `MAX_NUM_TOKENS`. -/
abbrev maxTokenSize : ℕ := 64

abbrev maxNumTokens : ℕ := 64

def space : UInt8 := ' '.toUInt8

def newline : UInt8 := '\n'.toUInt8

def tab : UInt8 := '\t'.toUInt8

def pipe : UInt8 := '|'.toUInt8

inductive Fault
  /-- a string without a terminator in its buffer -/
  | unterminated
  /-- a write outside `token` -/
  | token
  /-- a write outside `tokens` -/
  | tokens
  /-- `NULL` where a string is needed -/
  | null
  /-- an entry of `tokens` past its `NULL`, which was never written -/
  | unset
  deriving DecidableEq, Repr

/-- The string in a buffer. -/
def cstring (buf : List UInt8) : Except Fault (List UInt8) :=
  if 0 ∈ buf then .ok (buf.takeWhile (· ≠ 0)) else .error .unterminated

/-- `pipe_ch`. -/
def pipeCh (flag : ℤ) : UInt8 := if flag = 0 then space else pipe

def delimiter (flag : ℤ) (c : UInt8) : Bool := c = pipeCh flag ∨ c = newline ∨ c = tab

/-- A buffer from `malloc`, with the bytes `fresh`, after `strcpy` of `token`. -/
def copyToken (fresh : ℕ → UInt8) (token : List UInt8) : List UInt8 :=
  token ++ 0 :: (List.range' (token.length + 1) (maxTokenSize - (token.length + 1))).map fresh

/-- The bytes of `token` below `tokenIndex`, and the entries of `tokens` below `tokenNo`. -/
structure Scan where
  token : List UInt8
  tokens : List (List UInt8)

/-- The body of the loop, with `readChar`; `fresh k` is what `malloc` returns for entry `k`. -/
def scanChar (flag : ℤ) (fresh : ℕ → ℕ → UInt8) (r : Scan) (readChar : UInt8) :
    Except Fault Scan :=
  if r.token.length < maxTokenSize then
    if delimiter flag readChar then
      if r.token = [] then .ok r
      else if r.tokens.length < maxNumTokens then
        .ok ⟨[], r.tokens ++ [copyToken (fresh r.tokens.length) r.token]⟩
      else .error .tokens
    else .ok { r with token := r.token ++ [readChar] }
  else .error .token

/-- The entries of `tokens` before its `NULL`.  The loop does not change `line`, so that `strlen` is
the same in all its rounds. -/
def tokenize (fresh : ℕ → ℕ → UInt8) (line : List UInt8) (flag : ℤ) :
    Except Fault (List (List UInt8)) := do
  let before ← cstring line
  let text ← cstring (line.set before.length newline)
  let r ← text.foldlM (scanChar flag fresh) ⟨[], []⟩
  if r.tokens.length < maxNumTokens then .ok r.tokens else .error .tokens

/-! ## Strings in buffers -/

theorem zero_ne_newline : 0 ≠ newline := by decide

theorem cstring_append {s : List UInt8} (chars : 0 ∉ s) (rest : List UInt8) :
    cstring (s ++ 0 :: rest) = .ok s := by
  have nonzero : ∀ c ∈ s, decide (c ≠ 0) = true := fun c hc => by
    simpa using fun zero : c = 0 => chars (zero ▸ hc)
  rw [cstring, if_pos (by simp), List.takeWhile_append_of_pos nonzero]
  simp

/-! ## The loop -/

/-- The buffers of the tokens `ws` from entry `k` on. -/
def copies (fresh : ℕ → ℕ → UInt8) : (k : ℕ) → List (List UInt8) → List (List UInt8)
  | _, [] => []
  | k, w :: ws => copyToken (fresh k) w :: copies fresh (k + 1) ws

@[simp] theorem length_copies (fresh : ℕ → ℕ → UInt8) (k : ℕ) (ws : List (List UInt8)) :
    (copies fresh k ws).length = ws.length := by
  induction ws generalizing k with
  | nil => rfl
  | cons w ws ih => rw [copies, List.length_cons, ih, List.length_cons]

theorem copies_append (fresh : ℕ → ℕ → UInt8) (k : ℕ) (ws ws' : List (List UInt8)) :
    copies fresh k (ws ++ ws') = copies fresh k ws ++ copies fresh (k + ws.length) ws' := by
  induction ws generalizing k with
  | nil => rfl
  | cons w ws ih =>
    rw [List.cons_append, copies, copies, ih, List.length_cons, List.cons_append]
    congr 3
    omega

/-- The closed fields of a text fit in `token`, the open one fills at most all of it, and the closed
ones fit in `tokens` together with `n` more entries. -/
structure Room (flag : ℤ) (n : ℕ) (text : List UInt8) : Prop where
  closed : ∀ f ∈ closedFields (delimiter flag) text, f.length < maxTokenSize
  opened : (openField (delimiter flag) text).length ≤ maxTokenSize
  few : n + (closedFields (delimiter flag) text).length ≤ maxNumTokens

section Scan

variable {flag : ℤ} {fresh : ℕ → ℕ → UInt8} {r r' : Scan} {c : UInt8} {w s : List UInt8} {n : ℕ}

theorem room_of_plain (plain : ∀ x ∈ w, delimiter flag x = false) :
    Room flag n w ↔ w.length ≤ maxTokenSize ∧ n ≤ maxNumTokens := by
  constructor
  · rintro ⟨-, opened, few⟩
    rw [openField_of_plain plain] at opened
    exact ⟨opened, by omega⟩
  · rintro ⟨fits, few⟩
    refine ⟨?_, ?_, ?_⟩
    · simp [closedFields_of_plain plain]
    · rwa [openField_of_plain plain]
    · simpa [closedFields_of_plain plain] using few

/-- The token that is begun has room in `token`. -/
theorem Room.begun (room : Room flag n (w ++ s)) (plain : ∀ x ∈ w, delimiter flag x = false) :
    w.length ≤ maxTokenSize := by
  by_cases empty : w = []
  · simp [empty]
  · rcases exists_closed_or_open plain empty s with ⟨f, field, begins⟩ | begins
    · exact begins.length_le.trans (room.closed f field).le
    · exact begins.length_le.trans room.opened

/-- The first delimiter closes the token, if there is one. -/
theorem room_append_cons (plain : ∀ x ∈ w, delimiter flag x = false) (ends : delimiter flag c) :
    Room flag n (w ++ c :: s) ↔ w.length < maxTokenSize ∧
      Room flag (n + ([w].filter fun f => !f.isEmpty).length) s := by
  have closed : closedFields (delimiter flag) (w ++ c :: s) =
      ([w].filter fun f => !f.isEmpty) ++ closedFields (delimiter flag) s := by
    rw [closedFields_append_delimiter _ _ ends, fields_eq_single plain]
  have opened := openField_append_delimiter w s ends
  have first : (∀ f ∈ [w].filter fun f => !f.isEmpty, f.length < maxTokenSize) ↔
      w.length < maxTokenSize := by
    cases w <;> simp
  constructor
  · rintro ⟨short, last, few⟩
    rw [closed, List.forall_mem_append, first] at short
    rw [closed, List.length_append] at few
    rw [opened] at last
    exact ⟨short.1, short.2, last, by omega⟩
  · rintro ⟨short, shorts, last, few⟩
    refine ⟨?_, ?_, ?_⟩
    · rw [closed, List.forall_mem_append, first]
      exact ⟨short, shorts⟩
    · rwa [opened]
    · rw [closed, List.length_append]
      omega

theorem bind_eq_ok {ε α β : Type} {x : Except ε α} {f : α → Except ε β} {b : β} :
    (x >>= f) = .ok b ↔ ∃ a, x = .ok a ∧ f a = .ok b := by
  cases x <;> simp [bind, Except.bind]

theorem scanChar_plain (plain : delimiter flag c = false) :
    scanChar flag fresh r c = .ok r' ↔
      r.token.length < maxTokenSize ∧ r' = { r with token := r.token ++ [c] } := by
  unfold scanChar
  by_cases room : r.token.length < maxTokenSize
  · rw [if_pos room, if_neg (by simp [plain]), Except.ok.injEq, and_iff_right room]
    exact eq_comm
  · rw [if_neg room]
    exact iff_of_false (by simp) fun fits => room fits.1

/-- A delimiter ends the token, if there is one. -/
theorem scanChar_delimiter (ends : delimiter flag c) (full : r.tokens.length ≤ maxNumTokens) :
    scanChar flag fresh r c = .ok r' ↔
      r.token.length < maxTokenSize ∧
      r.tokens.length + ([r.token].filter fun f => !f.isEmpty).length ≤ maxNumTokens ∧
      r' = ⟨[], r.tokens ++ copies fresh r.tokens.length ([r.token].filter fun f => !f.isEmpty)⟩ := by
  unfold scanChar
  by_cases room : r.token.length < maxTokenSize
  · rw [if_pos room, if_pos ends, and_iff_right room]
    obtain ⟨token, tokens⟩ := r
    cases token with
    | nil =>
      rw [if_pos rfl, Except.ok.injEq]
      simpa [copies, full] using eq_comm
    | cons a token =>
      have kept : [a :: token].filter (fun f => !f.isEmpty) = [a :: token] := rfl
      rw [if_neg (List.cons_ne_nil a token), kept]
      by_cases few : tokens.length < maxNumTokens
      · rw [if_pos few, Except.ok.injEq, and_iff_right (by simpa [Nat.succ_le_iff] using few)]
        exact eq_comm
      · rw [if_neg few]
        exact iff_of_false (by simp) fun fits => few fits.1
  · rw [if_neg room]
    exact iff_of_false (by simp) fun fits => room fits.1

/-- The loop goes through a text that has room, and through no other: it collects the closed fields
and leaves the open one in `token`. -/
theorem scan_eq_ok (s : List UInt8) (plain : ∀ x ∈ r.token, delimiter flag x = false)
    (fits : r.token.length ≤ maxTokenSize) (full : r.tokens.length ≤ maxNumTokens) :
    s.foldlM (scanChar flag fresh) r = .ok r' ↔ Room flag r.tokens.length (r.token ++ s) ∧
      r' = ⟨openField (delimiter flag) (r.token ++ s), r.tokens ++
        copies fresh r.tokens.length (closedFields (delimiter flag) (r.token ++ s))⟩ := by
  induction s generalizing r with
  | nil =>
    rw [List.append_nil, room_of_plain plain, closedFields_of_plain plain, openField_of_plain plain,
      and_iff_right ⟨fits, full⟩, copies, List.append_nil]
    exact Iff.trans (by simp [pure, Except.pure]) eq_comm
  | cons c s ih =>
    rw [List.foldlM_cons, bind_eq_ok]
    by_cases ends : delimiter flag c
    · simp only [scanChar_delimiter ends full]
      rw [room_append_cons plain ends, closedFields_append_delimiter _ _ ends,
        openField_append_delimiter _ _ ends, fields_eq_single plain, copies_append,
        ← List.append_assoc]
      have next (few : r.tokens.length + ([r.token].filter fun f => !f.isEmpty).length ≤ maxNumTokens) :=
        ih (r := ⟨[], r.tokens ++ copies fresh r.tokens.length
          ([r.token].filter fun f => !f.isEmpty)⟩) (by simp) (by simp) (by simpa using few)
      simp only [List.length_append, length_copies, List.nil_append] at next
      constructor
      · rintro ⟨_, ⟨short, few, rfl⟩, runs⟩
        obtain ⟨room, same⟩ := (next few).1 runs
        exact ⟨⟨short, room⟩, same⟩
      · rintro ⟨⟨short, room⟩, same⟩
        have few := room.few
        have few : r.tokens.length + ([r.token].filter fun f => !f.isEmpty).length ≤ maxNumTokens := by
          omega
        exact ⟨_, ⟨short, few, rfl⟩, (next few).2 ⟨room, same⟩⟩
    · have ends : delimiter flag c = false := by simpa using ends
      have longer : ∀ x ∈ r.token ++ [c], delimiter flag x = false := by
        simpa [or_imp, forall_and, ends] using plain
      have next (short : (r.token ++ [c]).length ≤ maxTokenSize) :=
        ih (r := { r with token := r.token ++ [c] }) longer short full
      have moved : r.token ++ c :: s = (r.token ++ [c]) ++ s := List.append_cons ..
      simp only [scanChar_plain ends]
      rw [moved]
      constructor
      · rintro ⟨_, ⟨short, rfl⟩, runs⟩
        exact (next (by rw [List.length_append]; exact short)).1 runs
      · rintro ⟨room, same⟩
        have short := room.begun longer
        refine ⟨_, ⟨?_, rfl⟩, (next short).2 ⟨room, same⟩⟩
        rw [List.length_append] at short
        exact short

end Scan

/-! ## The tokens -/

/-- What `tokenize` scans of a buffer with the string `s` and the bytes `t` behind its
terminator. -/
def scanned (s t : List UInt8) : List UInt8 := s ++ newline :: t.takeWhile (· ≠ 0)

theorem delimiter_newline (flag : ℤ) : delimiter flag newline := by simp [delimiter]

section Tokens

variable {fresh : ℕ → ℕ → UInt8} {flag : ℤ} {s t : List UInt8} {tokens : List (List UInt8)}

/-- The text goes on behind the newline up to the next zero byte. -/
theorem cstring_scanned (chars : 0 ∉ s) : cstring ((s ++ 0 :: t).set s.length newline) =
    if 0 ∈ t then .ok (scanned s t) else .error .unterminated := by
  have ended : (s ++ 0 :: t).set s.length newline = s ++ newline :: t := by simp
  have nonzero : ∀ c ∈ s, decide (c ≠ 0) = true := fun c hc => by
    simpa using fun zero : c = 0 => chars (zero ▸ hc)
  have text : (s ++ newline :: t).takeWhile (· ≠ 0) = scanned s t := by
    rw [List.takeWhile_append_of_pos nonzero, List.takeWhile_cons, if_pos (by decide), scanned]
  have zero : 0 ∈ s ++ newline :: t ↔ 0 ∈ t := by simp [chars, zero_ne_newline]
  rw [ended, cstring, text]
  simp only [zero]

/-- The tokens are the closed fields of the text that is scanned, if it has room. -/
theorem tokenize_eq_ok (chars : 0 ∉ s) : tokenize fresh (s ++ 0 :: t) flag = .ok tokens ↔
    0 ∈ t ∧ Room flag 1 (scanned s t) ∧
      tokens = copies fresh 0 (closedFields (delimiter flag) (scanned s t)) := by
  unfold tokenize
  simp only [bind_eq_ok, cstring_append chars t, Except.ok.injEq, exists_eq_left',
    cstring_scanned chars]
  by_cases ended : 0 ∈ t
  · simp only [if_pos ended, Except.ok.injEq, exists_eq_left', and_iff_right ended]
    have loop (r' : Scan) :=
      @scan_eq_ok flag fresh ⟨[], []⟩ r' (scanned s t) (by simp) (by simp) (by simp)
    simp only [List.nil_append, List.length_nil] at loop
    simp only [loop]
    constructor
    · rintro ⟨_, ⟨room, rfl⟩, returns⟩
      simp only [length_copies] at returns
      split_ifs at returns with few
      exact ⟨⟨room.closed, room.opened, by omega⟩, (Except.ok.inj returns).symm⟩
    · rintro ⟨room, rfl⟩
      have few := room.few
      refine ⟨_, ⟨⟨room.closed, room.opened, by omega⟩, rfl⟩, ?_⟩
      rw [length_copies, if_pos (by omega)]
  · simp [ended]

/-- On a string that is followed by two zero bytes nothing else is scanned. -/
theorem tokenize_line_eq_ok (chars : 0 ∉ s) (rest : List UInt8) :
    tokenize fresh (s ++ 0 :: 0 :: rest) flag = .ok tokens ↔
      ((∀ f ∈ fields (delimiter flag) s, f.length < maxTokenSize) ∧
        (fields (delimiter flag) s).length < maxNumTokens) ∧
      tokens = copies fresh 0 (fields (delimiter flag) s) := by
  have text : scanned s (0 :: rest) = s ++ [newline] := by simp [scanned]
  have closed : closedFields (delimiter flag) (s ++ [newline]) = fields (delimiter flag) s := by
    rw [closedFields_append_delimiter _ _ (delimiter_newline flag), closedFields_of_plain (by simp),
      List.append_nil]
  have opened : openField (delimiter flag) (s ++ [newline]) = [] := by
    rw [openField_append_delimiter _ _ (delimiter_newline flag), openField_of_plain (by simp)]
  rw [tokenize_eq_ok chars, and_iff_right List.mem_cons_self, text, closed]
  refine and_congr_left fun _ => ⟨fun room => ?_, fun fits => ⟨?_, ?_, ?_⟩⟩
  · have few := room.few
    rw [closed] at few
    exact ⟨closed ▸ room.closed, by omega⟩
  · rw [closed]
    exact fits.1
  · simp [opened]
  · rw [closed]
    have := fits.2
    omega

end Tokens

/-- On a string that is followed by two zero bytes, with fields that fit their buffers, the tokens
are the fields of the string. -/
theorem tokenize_eq_fields (fresh : ℕ → ℕ → UInt8) (flag : ℤ) {s : List UInt8} (chars : 0 ∉ s)
    (rest : List UInt8) (short : ∀ f ∈ fields (delimiter flag) s, f.length < maxTokenSize)
    (few : (fields (delimiter flag) s).length < maxNumTokens) :
    tokenize fresh (s ++ 0 :: 0 :: rest) flag =
      .ok (copies fresh 0 (fields (delimiter flag) s)) :=
  (tokenize_line_eq_ok chars rest).2 ⟨⟨short, few⟩, rfl⟩

/-- On a string that fills its buffer up to the terminator, `strlen` leaves the buffer. -/
theorem tokenize_full (fresh : ℕ → ℕ → UInt8) (flag : ℤ) {s : List UInt8} (chars : 0 ∉ s) :
    tokenize fresh (s ++ [0]) flag = .error .unterminated := by
  have second : cstring ((s ++ [0]).set s.length newline) = .error .unterminated :=
    cstring_scanned chars
  unfold tokenize
  simp only [cstring_append chars [], second, bind, Except.bind]

end SsuOs.Shell
