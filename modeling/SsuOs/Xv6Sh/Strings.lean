import Mathlib.Tactic.TFAE
import SsuOs.Xv6Sh.Grammar

/-!
# The strings of a command

The tree that the parser builds points into the line, and `nulterminate` writes a zero where every
word ends. Afterwards a word read as a string is the word as it stood in the line. A printer goes
the other way: what it prints for a tree is parsed as that tree.
-/

namespace SsuOs.Xv6Sh

section Words

variable {ω ω' : Type}

/-- The tree with other words. -/
def Cmd.map (f : ω → ω') : Cmd ω → Cmd ω'
  | .exec argv => .exec (argv.map f)
  | .redir cmd file mode fd => .redir (cmd.map f) (f file) mode fd
  | .pipe left right => .pipe (left.map f) (right.map f)
  | .list left right => .list (left.map f) (right.map f)
  | .back cmd => .back (cmd.map f)

/-- The words of a tree, in the order in which `nulterminate` visits them. -/
def Cmd.words : Cmd ω → List ω
  | .exec argv => argv
  | .redir cmd file _ _ => cmd.words ++ [file]
  | .pipe left right => left.words ++ right.words
  | .list left right => left.words ++ right.words
  | .back cmd => cmd.words

def Redir.map (f : ω → ω') (r : Redir ω) : Redir ω' := ⟨f r.file, r.mode, r.fd⟩

theorem redirOf_map (f : ω → ω') (op : Tok) (w : ω) : (redirOf op w).map f = redirOf op (f w) := by
  unfold redirOf
  split <;> rfl

theorem Cmd.map_congr {f g : ω → ω'} {c : Cmd ω} (same : ∀ w ∈ c.words, f w = g w) :
    c.map f = c.map g := by
  induction c with
  | exec argv => exact congrArg Cmd.exec (List.map_congr_left same)
  | redir cmd file mode fd ih =>
    simp only [words, List.mem_append, List.mem_singleton] at same
    rw [map, map, ih fun w mem => same w (.inl mem), same file (.inr rfl)]
  | pipe left right ih ih' =>
    simp only [words, List.mem_append] at same
    rw [map, map, ih fun w mem => same w (.inl mem), ih' fun w mem => same w (.inr mem)]
  | list left right ih ih' =>
    simp only [words, List.mem_append] at same
    rw [map, map, ih fun w mem => same w (.inl mem), ih' fun w mem => same w (.inr mem)]
  | back cmd ih => rw [map, map, ih same]

@[simp] theorem map_wrap (f : ω → ω') (c : Cmd ω) (rs : List (Redir ω)) :
    (wrap c rs).map f = wrap (c.map f) (rs.map (Redir.map f)) := by
  induction rs generalizing c with
  | nil => rfl
  | cons r rs ih => exact ih (.redir c r.file r.mode r.fd)

@[simp] theorem map_backs (f : ω → ω') (n : ℕ) (c : Cmd ω) :
    (backs n c).map f = backs n (c.map f) := by
  induction n generalizing c with
  | zero => rfl
  | succ n ih => exact ih (.back c)

@[simp] theorem words_wrap (c : Cmd ω) (rs : List (Redir ω)) :
    (wrap c rs).words = c.words ++ rs.map Redir.file := by
  induction rs generalizing c with
  | nil => simp [wrap]
  | cons r rs ih =>
    have rest := ih (.redir c r.file r.mode r.fd)
    simpa [wrap, Cmd.words] using rest

@[simp] theorem words_backs (n : ℕ) (c : Cmd ω) : (backs n c).words = c.words := by
  induction n generalizing c with
  | zero => rfl
  | succ n ih => exact ih (.back c)

/-- The words of a simple command are among its tokens. -/
theorem Simple.mem {ts : List (Tok × ω)} {ws : List ω} {rs : List (Redir ω)}
    (simple : Simple ts ws rs) {w : ω} (mem : w ∈ ws ++ rs.map Redir.file) : (.word, w) ∈ ts := by
  induction simple with
  | nil => simp at mem
  | word simple ih => grind
  | @redir op o f ts ws rs isRedir simple ih =>
    have file : (redirOf op f).file = f := by
      unfold redirOf
      split <;> rfl
    simp only [List.map_cons, file, List.mem_append, List.mem_cons] at mem ih ⊢
    grind

/-- The words of a tree are among the tokens it is derived from. -/
theorem Derives.mem {ph : Phrase} {ts : List (Tok × ω)} {c : Cmd ω} (derives : Derives ph ts c)
    {w : ω} (mem : w ∈ c.words) : (.word, w) ∈ ts := by
  induction derives with
  | simple few simple => exact simple.mem (by simpa [Cmd.words] using mem)
  | block derives simple ih =>
    rw [words_wrap, List.mem_append] at mem
    rcases mem with mem | mem
    · simp [ih mem]
    · simp [simple.mem (w := w) (by simpa using mem)]
  | command _ ih => exact ih mem
  | pipe _ _ ih ih' =>
    rcases List.mem_append.1 mem with mem | mem
    · simp [ih mem]
    · simp [ih' mem]
  | line _ _ ih =>
    rw [words_backs] at mem
    simp [ih mem]
  | list _ _ _ ih ih' =>
    rw [Cmd.words, words_backs, List.mem_append] at mem
    rcases mem with mem | mem
    · simp [ih mem]
    · simp [ih' mem]

/-- Tokens with other words. -/
def mapTokens (f : ω → ω') (ts : List (Tok × ω)) : List (Tok × ω') := ts.map (Prod.map id f)

theorem Simple.map (f : ω → ω') {ts : List (Tok × ω)} {ws : List ω} {rs : List (Redir ω)}
    (simple : Simple ts ws rs) : Simple (mapTokens f ts) (ws.map f) (rs.map (Redir.map f)) := by
  induction simple with
  | nil => exact .nil
  | word _ ih => exact .word ih
  | redir isRedir _ ih =>
    rw [List.map_cons, redirOf_map]
    exact .redir isRedir ih

theorem map_all_amp (f : ω → ω') {as : List (Tok × ω)} (amps : ∀ a ∈ as, a.1 = .amp) :
    ∀ a ∈ mapTokens f as, a.1 = .amp := by
  intro a mem
  obtain ⟨b, source, rfl⟩ := List.mem_map.1 mem
  exact amps b source

theorem eq_cons_of_mapTokens {f : ω → ω'} {ts : List (Tok × ω)} {t : Tok} {w' : ω'}
    {us' : List (Tok × ω')} (eq : mapTokens f ts = (t, w') :: us') :
    ∃ w us, ts = (t, w) :: us ∧ w' = f w ∧ mapTokens f us = us' := by
  obtain ⟨⟨u, w⟩, us, rfl, same, rest⟩ := List.map_eq_cons_iff.1 eq
  obtain ⟨rfl, rfl⟩ := Prod.mk.inj same
  exact ⟨w, us, rfl, rfl, rest⟩

theorem Derives.map (f : ω → ω') {ph : Phrase} {ts : List (Tok × ω)} {c : Cmd ω}
    (derives : Derives ph ts c) : Derives ph (mapTokens f ts) (c.map f) := by
  induction derives with
  | simple few simple =>
    rw [map_wrap]
    exact .simple (by simpa using few) (simple.map f)
  | block _ simple ih =>
    rw [map_wrap]
    simpa [mapTokens] using Derives.block ih (simple.map f)
  | command _ ih => exact .command ih
  | pipe _ _ ih ih' => simpa [mapTokens, Cmd.map] using Derives.pipe ih ih'
  | line _ amps ih =>
    rw [map_backs]
    simpa [mapTokens] using Derives.line ih (map_all_amp f amps)
  | list _ amps _ ih ih' =>
    rw [Cmd.map, map_backs]
    simpa [mapTokens] using Derives.list ih (map_all_amp f amps) ih'

/-- A simple command of other words is one of these words. -/
theorem Simple.of_map {f : ω → ω'} {ts : List (Tok × ω)} {ws' : List ω'} {rs' : List (Redir ω')}
    (other : Simple (mapTokens f ts) ws' rs') :
    ∃ ws rs, Simple ts ws rs ∧ ws' = ws.map f ∧ rs' = rs.map (Redir.map f) := by
  generalize eq : mapTokens f ts = ts' at other
  induction other generalizing ts with
  | nil =>
    obtain rfl := List.map_eq_nil_iff.1 eq
    exact ⟨[], [], .nil, rfl, rfl⟩
  | word _ ih =>
    obtain ⟨w, us, rfl, rfl, rest⟩ := eq_cons_of_mapTokens eq
    obtain ⟨ws, rs, simple, rfl, rfl⟩ := ih rest
    exact ⟨w :: ws, rs, .word simple, rfl, rfl⟩
  | redir isRedir _ ih =>
    obtain ⟨o, us, rfl, rfl, tail⟩ := eq_cons_of_mapTokens eq
    obtain ⟨w, vs, rfl, rfl, rest⟩ := eq_cons_of_mapTokens tail
    obtain ⟨ws, rs, simple, rfl, rfl⟩ := ih rest
    exact ⟨ws, _, .redir isRedir simple, rfl, by rw [List.map_cons, redirOf_map]⟩

/-- A derivation over other words is one over these words. -/
theorem Derives.of_map {f : ω → ω'} {ph : Phrase} {ts : List (Tok × ω)} {c' : Cmd ω'}
    (other : Derives ph (mapTokens f ts) c') : ∃ c, Derives ph ts c ∧ c' = c.map f := by
  generalize eq : mapTokens f ts = ts' at other
  induction other generalizing ts with
  | simple few simple =>
    subst eq
    obtain ⟨ws, rs, simple', rfl, rfl⟩ := simple.of_map
    exact ⟨_, .simple (by simpa using few) simple', (map_wrap f (.exec ws) rs).symm⟩
  | block _ simple ih =>
    obtain ⟨o, us, rfl, rfl, tail⟩ := eq_cons_of_mapTokens eq
    obtain ⟨vs, xs, rfl, line, close⟩ := List.map_eq_append_iff.1 tail
    obtain ⟨p, ys, rfl, rfl, rfl⟩ := eq_cons_of_mapTokens close
    obtain ⟨c, derives, rfl⟩ := ih line
    obtain ⟨ws, rs, simple', none, rfl⟩ := simple.of_map
    obtain rfl := List.map_eq_nil_iff.1 none.symm
    exact ⟨_, .block derives simple', (map_wrap f c rs).symm⟩
  | command _ ih =>
    obtain ⟨c, derives, rfl⟩ := ih eq
    exact ⟨c, .command derives, rfl⟩
  | pipe _ _ ih ih' =>
    obtain ⟨us, vs, rfl, first, tail⟩ := List.map_eq_append_iff.1 eq
    obtain ⟨o, xs, rfl, rfl, rest⟩ := eq_cons_of_mapTokens tail
    obtain ⟨c, derives, rfl⟩ := ih first
    obtain ⟨d, derives', rfl⟩ := ih' rest
    exact ⟨_, .pipe derives derives', rfl⟩
  | line _ amps ih =>
    obtain ⟨us, as, rfl, first, rfl⟩ := List.map_eq_append_iff.1 eq
    obtain ⟨c, derives, rfl⟩ := ih first
    have amps' : ∀ a ∈ as, a.1 = .amp := fun a mem => amps _ (List.mem_map_of_mem mem)
    exact ⟨_, .line derives amps', by rw [map_backs, List.length_map]⟩
  | list _ amps _ ih ih' =>
    obtain ⟨us, vs, rfl, first, tail⟩ := List.map_eq_append_iff.1 eq
    obtain ⟨xs, as, rfl, start, rfl⟩ := List.map_eq_append_iff.1 first
    obtain ⟨o, ys, rfl, rfl, rest⟩ := eq_cons_of_mapTokens tail
    obtain ⟨c, derives, rfl⟩ := ih start
    obtain ⟨d, derives', rfl⟩ := ih' rest
    have amps' : ∀ a ∈ as, a.1 = .amp := fun a mem => amps _ (List.mem_map_of_mem mem)
    exact ⟨_, .list derives amps' derives', by rw [Cmd.map, map_backs, List.length_map]⟩

end Words

/-! ## Zeros in the line -/

/-- The characters of a word. -/
def text (p : Ptr) : Str := p.1.take (p.1.length - p.2.length)

/-- The ends of a word of a line: before its end the characters are plain, and it ends where the
line ends or at a character that is not. -/
structure Word (s : Str) (p : Ptr) : Prop where
  within : p.1 <:+ s
  split : p.1 = text p ++ p.2
  nonempty : text p ≠ []
  plain : ∀ c ∈ text p, isPlain c
  stops : ∀ c ∈ p.2.head?, isPlain c = false

theorem Word.mono {s s' : Str} {p : Ptr} (word : Word s p) (suffix : s <:+ s') : Word s' p :=
  { word with within := word.within.trans suffix }

theorem text_append (t r : Str) : text (t ++ r, r) = t := by
  simp [text]

/-- The longest plain beginning of a text is a word. -/
theorem word_dropWhile {c : UInt8} {r : Str} (plain : isPlain c) :
    Word (c :: r) (c :: r, r.dropWhile isPlain) := by
  have same : (c :: r).dropWhile isPlain = r.dropWhile isPlain := by simp [plain]
  rw [← same]
  generalize eq : c :: r = q
  have whole : q.takeWhile isPlain ++ q.dropWhile isPlain = q := List.takeWhile_append_dropWhile
  have begins : text (q, q.dropWhile isPlain) = q.takeWhile isPlain := by
    have same := text_append (q.takeWhile isPlain) (q.dropWhile isPlain)
    rwa [whole] at same
  refine ⟨List.suffix_rfl, ?_, ?_, ?_, ?_⟩
  · rw [begins, whole]
  · rw [begins, ← eq]
    simp [plain]
  · rw [begins]
    intro c mem
    exact List.mem_takeWhile_imp mem
  · intro c mem
    have head := List.head?_dropWhile_not isPlain q
    rw [Option.mem_def.1 mem] at head
    simpa using head

theorem skip_suffix (s : Str) : skip s <:+ s := List.dropWhile_suffix _

theorem classify_suffix {c : UInt8} (s : Str) (black : isSpace c = false) :
    (classify (c :: s)).2 <:+ c :: s := by
  by_cases symbol : isSymbol c
  · obtain ⟨-, one | two⟩ := classify_symbol s symbol
    · rw [one]
      exact List.suffix_cons c s
    · rw [two]
      exact (List.tail_suffix s).trans (List.suffix_cons c s)
  · have plain : isPlain c := by simp [isPlain, black, symbol]
    rw [classify_plain s plain]
    exact (List.dropWhile_suffix _).trans (List.suffix_cons c s)

theorem after_suffix (s : Str) : after s <:+ s := by
  have tail : (classify (skip s)).2 <:+ skip s := by
    cases eq : skip s with
    | nil => exact List.suffix_rfl
    | cons c r => exact classify_suffix r (isSpace_of_skip eq)
  exact ((skip_suffix _).trans tail).trans (skip_suffix s)

theorem word_here {s : Str} (isWord : next s = .word) : Word s (here s) := by
  obtain ⟨c, r, eq⟩ := List.exists_cons_of_ne_nil
    (mt (next_eq_eof_iff s).2 (by simp [isWord] : next s ≠ .eof))
  have plain : isPlain c := by
    by_contra other
    have symbol : isSymbol c := by simpa [isPlain, isSpace_of_skip eq] using other
    apply (classify_symbol r symbol).1
    simpa [next, gettoken, eq] using isWord
  have same : here s = (c :: r, r.dropWhile isPlain) := by
    simp [here, gettoken, eq, classify_plain r plain]
  rw [same]
  exact (word_dropWhile plain).mono (eq ▸ skip_suffix s)

/-- The words among the tokens of a line are words of the line. -/
theorem word_of_mem_lex {s : Str} {p : Ptr} (mem : (.word, p) ∈ lex s) : Word s p := by
  -- on the length of the line, which goes down with every token
  induction len : s.length using Nat.strong_induction_on generalizing s with
  | _ n ih =>
    by_cases ends : next s = .eof
    · simp [lex_of_eof ends] at mem
    · rw [lex_of_next ends, List.mem_cons] at mem
      rcases mem with first | rest
      · obtain ⟨isWord, rfl⟩ := Prod.mk.inj first
        exact word_here isWord.symm
      · have short := length_after_lt ends
        exact (ih _ (len ▸ short) rest rfl).mono (after_suffix s)

/-- Zeros at the ends of some words. -/
def zeros (len : ℕ) (ws : List Ptr) (buf : List UInt8) : List UInt8 :=
  ws.foldl (fun buf p => buf.set (len - p.2.length) 0) buf

theorem zeros_cons (len : ℕ) (w : Ptr) (ws : List Ptr) (buf : List UInt8) :
    zeros len (w :: ws) buf = zeros len ws (buf.set (len - w.2.length) 0) := rfl

theorem nulterminate_eq (len : ℕ) (c : Cmd Ptr) (buf : List UInt8) :
    nulterminate len c buf = zeros len c.words buf := by
  induction c generalizing buf with
  | exec argv => rfl
  | redir cmd file mode fd ih => simp [nulterminate, Cmd.words, zeros, ih]
  | pipe left right ih ih' => simp [nulterminate, Cmd.words, zeros, ih, ih']
  | list left right ih ih' => simp [nulterminate, Cmd.words, zeros, ih, ih']
  | back cmd ih => exact ih buf

theorem zeros_of_ne {len : ℕ} {ws : List Ptr} {i : ℕ} (other : ∀ w ∈ ws, len - w.2.length ≠ i)
    (buf : List UInt8) : (zeros len ws buf)[i]? = buf[i]? := by
  induction ws generalizing buf with
  | nil => rfl
  | cons w ws ih =>
    have first := other w List.mem_cons_self
    have rest : ∀ v ∈ ws, len - v.2.length ≠ i := fun v mem => other v (List.mem_cons_of_mem w mem)
    rw [zeros_cons, ih rest, List.getElem?_set_ne first]

/-- What has become zero stays zero. -/
theorem zeros_of_zero {len : ℕ} (ws : List Ptr) {i : ℕ} {buf : List UInt8}
    (zero : ∀ c ∈ buf[i]?, c = 0) : ∀ c ∈ (zeros len ws buf)[i]?, c = 0 := by
  induction ws generalizing buf with
  | nil => exact zero
  | cons w ws ih =>
    apply ih
    intro c mem
    rw [List.getElem?_set] at mem
    grind

theorem zeros_of_mem {len : ℕ} {ws : List Ptr} {w : Ptr} (mem : w ∈ ws) (buf : List UInt8) :
    ∀ c ∈ (zeros len ws buf)[len - w.2.length]?, c = 0 := by
  induction ws generalizing buf with
  | nil => simp at mem
  | cons v ws ih =>
    rw [zeros_cons]
    rcases List.mem_cons.1 mem with rfl | mem
    · apply zeros_of_zero
      intro c mem
      rw [List.getElem?_set] at mem
      grind
    · exact ih mem _

/-- A text is what stands before the first zero, if it has no zero and one comes after it. -/
theorem cstring_eq {l t : List UInt8} (same : ∀ i < t.length, l[i]? = t[i]?) (nonzero : 0 ∉ t)
    (zero : ∀ c ∈ l[t.length]?, c = 0) : cstring l = t := by
  induction t generalizing l with
  | nil =>
    cases l with
    | nil => rfl
    | cons c l => simp [cstring, zero c rfl]
  | cons d t ih =>
    cases l with
    | nil => simpa using same 0 (by simp)
    | cons c l =>
      have head : c = d := by simpa using same 0 (by simp)
      subst head
      have rest : cstring l = t := by
        apply ih
        · intro i below
          simpa using same (i + 1) (by simpa using below)
        · exact fun mem => nonzero (List.mem_cons_of_mem c mem)
        · simpa using zero
      have here : c ≠ 0 := by
        rintro rfl
        exact nonzero List.mem_cons_self
      simpa [cstring, here] using rest

/-- The string that a pointer into the line points at. -/
def stringAt (len : ℕ) (buf : List UInt8) (p : Ptr) : Str := cstring (buf.drop (len - p.1.length))

theorem getElem?_of_suffix {s r : Str} (suffix : r <:+ s) (i : ℕ) :
    s[s.length - r.length + i]? = r[i]? := by
  obtain ⟨t, rfl⟩ := suffix
  rw [List.length_append, Nat.add_sub_cancel, List.getElem?_append_right (Nat.le_add_right _ _),
    Nat.add_sub_cancel_left]

/-- No word ends inside another. -/
theorem Word.end_ne {s : Str} {w v : Ptr} (word : Word s w) (other : Word s v) {i : ℕ}
    (inside : i < (text w).length) : s.length - v.2.length ≠ s.length - w.1.length + i := by
  intro eq
  have start : s[s.length - w.1.length + i]? = some (text w)[i] := by
    rw [getElem?_of_suffix word.within, word.split, List.getElem?_append_left inside,
      List.getElem?_eq_getElem inside]
  have tail : v.2 <:+ s := by
    apply List.IsSuffix.trans _ other.within
    rw [other.split]
    exact List.suffix_append _ _
  have stop : v.2.head? = some (text w)[i] := by
    rw [List.head?_eq_getElem?, ← getElem?_of_suffix tail 0, Nat.add_zero, eq, start]
  have plain := word.plain _ (List.getElem_mem inside)
  simp [other.stops _ stop] at plain

theorem cstring_getElem? {buf : List UInt8} {i : ℕ} (below : i < (cstring buf).length) :
    buf[i]? = (cstring buf)[i]? := by
  obtain ⟨r, eq⟩ : cstring buf <+: buf := List.takeWhile_prefix _
  conv_lhs => rw [← eq]
  exact List.getElem?_append_left below

theorem zero_notMem_cstring (buf : List UInt8) : 0 ∉ cstring buf := by
  intro mem
  simpa using List.mem_takeWhile_imp mem

theorem Word.zero_notMem {buf : List UInt8} {p : Ptr} (word : Word (cstring buf) p) :
    0 ∉ text p := by
  intro zero
  apply zero_notMem_cstring buf
  apply word.within.subset
  rw [word.split]
  exact List.mem_append_left _ zero

/-- After the zeros are written, every word is a string. -/
theorem stringAt_zeros {buf : List UInt8} {ws : List Ptr}
    (words : ∀ w ∈ ws, Word (cstring buf) w) {w : Ptr} (mem : w ∈ ws) :
    stringAt (cstring buf).length (zeros (cstring buf).length ws buf) w = text w := by
  have word := words w mem
  have long : w.1.length = (text w).length + w.2.length := by
    conv_lhs => rw [word.split]
    exact List.length_append
  have fits := word.within.length_le
  apply cstring_eq
  · intro i inside
    rw [List.getElem?_drop, zeros_of_ne, cstring_getElem? (by omega), getElem?_of_suffix word.within,
      word.split, List.getElem?_append_left inside]
    intro v memv
    exact word.end_ne (words v memv) inside
  · exact word.zero_notMem
  · intro c memc
    apply zeros_of_mem mem buf c
    rw [List.getElem?_drop] at memc
    convert memc using 3
    omega

/-- The tokens of a line, with their texts. -/
def tokens (s : Str) : List (Tok × Str) := mapTokens text (lex s)

/-- The parser reads a line as a tree of strings: it accepts the line, and where the pointers of its
tree point stand these strings in the end. -/
def Parses (buf : List UInt8) (w : Cmd Str) : Prop :=
  ∃ c buf', parsecmd buf = .ok (c, buf') ∧ c.map (stringAt (cstring buf).length buf') = w

theorem map_stringAt {buf buf' : List UInt8} {c : Cmd Ptr} (ok : parsecmd buf = .ok (c, buf')) :
    c.map (stringAt (cstring buf).length buf') = c.map text := by
  obtain ⟨derives, rfl⟩ := parsecmd_eq_ok_iff.1 ok
  apply Cmd.map_congr
  intro w mem
  rw [nulterminate_eq]
  apply stringAt_zeros _ mem
  intro v memv
  exact word_of_mem_lex (derives.mem memv)

/-- The parser accepts the lines of the grammar, and its pointers are in the end the strings that the
grammar has for them. -/
theorem parses_iff (buf : List UInt8) (w : Cmd Str) :
    Parses buf w ↔ Derives .line (tokens (cstring buf)) w := by
  constructor
  · rintro ⟨c, buf', ok, rfl⟩
    rw [map_stringAt ok]
    exact (parsecmd_eq_ok_iff.1 ok).1.map text
  · intro derives
    obtain ⟨c, derives', rfl⟩ := derives.of_map
    have ok := parsecmd_eq_ok_iff.2 ⟨derives', rfl⟩
    exact ⟨c, _, ok, map_stringAt ok⟩

theorem Parses.unique {buf : List UInt8} {w w' : Cmd Str} (parses : Parses buf w)
    (parses' : Parses buf w') : w' = w := by
  obtain ⟨c, after, ok, rfl⟩ := parses
  obtain ⟨c', after', ok', rfl⟩ := parses'
  rw [ok] at ok'
  obtain ⟨rfl, rfl⟩ := Prod.mk.inj (Except.ok.inj ok')
  rfl

/-- Either the grammar has one tree for a line, and the parser reads the line as this tree, or it has
none, and the parser refuses the line for what is wrong with it. -/
theorem parsecmd_decides (buf : List UInt8) :
    (∃ w, Parses buf w ∧ ∀ w', Derives .line (tokens (cstring buf)) w' ↔ w' = w) ∨
      ∃ e, parsecmd buf = .error e ∧ e ≠ .depth ∧ e ≠ .parseblock ∧
        ∀ w', ¬ Derives .line (tokens (cstring buf)) w' := by
  cases result : parsecmd buf with
  | ok r =>
    have parses : Parses buf (r.1.map (stringAt (cstring buf).length r.2)) := ⟨r.1, r.2, result, rfl⟩
    refine .inl ⟨_, parses, fun w' => ⟨fun derives => ?_, ?_⟩⟩
    · exact parses.unique ((parses_iff buf w').2 derives)
    · rintro rfl
      exact (parses_iff buf _).1 parses
  | error e =>
    obtain ⟨depth, block⟩ := parsecmd_genuine buf e result
    refine .inr ⟨e, rfl, depth, block, fun w' derives => ?_⟩
    obtain ⟨c, after, ok, -⟩ := (parses_iff buf w').2 derives
    simp [result] at ok

/-! ## Printing -/

/-- How a symbol is written. -/
def Tok.spelling : Tok → Str
  | .eof | .word => []
  | .bar => [124]
  | .lpar => [40]
  | .rpar => [41]
  | .semi => [59]
  | .amp => [38]
  | .lt => [60]
  | .gt => [62]
  | .append => [62, 62]

/-- What can stand in a line as a word. -/
def IsWord (w : Str) : Prop := w ≠ [] ∧ ∀ c ∈ w, c ≠ 0 ∧ isPlain c

instance (w : Str) : Decidable (IsWord w) := inferInstanceAs (Decidable (_ ∧ _))

/-- A token with its text. -/
def Spelled (t : Tok × Str) : Prop :=
  t.1 ≠ .eof ∧ if t.1 = .word then IsWord t.2 else t.2 = t.1.spelling

/-- Tokens with a blank after each. -/
def render (ts : List (Tok × Str)) : Str := ts.flatMap fun t => t.2 ++ [32]

theorem classify_spelled {t : Tok × Str} (spelled : Spelled t) (r : Str) :
    classify (t.2 ++ 32 :: r) = (t.1, 32 :: r) := by
  obtain ⟨t, w⟩ := t
  obtain ⟨more, spelled⟩ := spelled
  by_cases isWord : t = .word
  · subst isWord
    obtain ⟨nonempty, plain⟩ : IsWord w := by simpa using spelled
    obtain ⟨c, v, rfl⟩ := List.exists_cons_of_ne_nil nonempty
    have rest : v.dropWhile isPlain = [] := by
      rw [List.dropWhile_eq_nil_iff]
      intro d mem
      exact (plain d (List.mem_cons_of_mem c mem)).2
    rw [List.cons_append, classify_plain _ (plain c List.mem_cons_self).2, List.dropWhile_append, rest]
    rfl
  · have spelled : w = t.spelling := by simpa [isWord] using spelled
    subst spelled
    cases t <;> first | exact absurd rfl more | exact absurd rfl isWord | rfl

theorem isSpace_spelled {t : Tok × Str} (spelled : Spelled t) :
    ∃ c v, t.2 = c :: v ∧ isSpace c = false := by
  obtain ⟨t, w⟩ := t
  obtain ⟨more, spelled⟩ := spelled
  by_cases isWord : t = .word
  · subst isWord
    obtain ⟨nonempty, plain⟩ : IsWord w := by simpa using spelled
    obtain ⟨c, v, rfl⟩ := List.exists_cons_of_ne_nil nonempty
    have first := (plain c List.mem_cons_self).2
    exact ⟨c, v, rfl, by simp_all [isPlain]⟩
  · have spelled : w = t.spelling := by simpa [isWord] using spelled
    subst spelled
    cases t <;> first | exact absurd rfl more | exact absurd rfl isWord | exact ⟨_, _, rfl, rfl⟩

/-- The tokens of a rendered text are the tokens that were rendered. -/
theorem tokens_render {ts : List (Tok × Str)} (spelled : ∀ t ∈ ts, Spelled t) :
    tokens (render ts) = ts := by
  induction ts with
  | nil => rfl
  | cons t ts ih =>
    have first := spelled t List.mem_cons_self
    have rest := ih fun u mem => spelled u (List.mem_cons_of_mem t mem)
    have eq : render (t :: ts) = t.2 ++ 32 :: render ts := by simp [render]
    have token : gettoken (t.2 ++ 32 :: render ts) =
        ⟨t.1, t.2 ++ 32 :: render ts, 32 :: render ts, skip (render ts)⟩ := by
      have start : skip (t.2 ++ 32 :: render ts) = t.2 ++ 32 :: render ts := by
        obtain ⟨c, v, eq, black⟩ := isSpace_spelled first
        rw [eq, skip, List.cons_append, List.dropWhile_cons_of_neg (by simp [black])]
      rw [gettoken, start, classify_spelled first]
      rfl
    have more : next (t.2 ++ 32 :: render ts) ≠ .eof := by simpa [next, token] using first.1
    rw [tokens] at rest
    rw [eq, tokens, lex_of_next more, mapTokens, List.map_cons, ← mapTokens]
    simp [next, here, after, token, text_append, rest]

/-- A printed symbol. -/
def sym (t : Tok) : Tok × Str := (t, t.spelling)

/-- Tokens in parentheses. -/
def paren (ts : List (Tok × Str)) : List (Tok × Str) := sym .lpar :: ts ++ [sym .rpar]

/-- The tokens of a tree, with every part of it in parentheses. -/
def unparse : Cmd Str → List (Tok × Str)
  | .exec argv => argv.map (Prod.mk .word)
  | .redir cmd file _ fd => paren (unparse cmd) ++ [sym (if fd = 0 then .lt else .gt), (.word, file)]
  | .pipe left right => paren (unparse left) ++ sym .bar :: paren (unparse right)
  | .list left right => paren (unparse left) ++ sym .semi :: unparse right
  | .back cmd => paren (unparse cmd) ++ [sym .amp]

def print (c : Cmd Str) : Str := render (unparse c)

/-- The trees that can be written: fewer words than `MAXARGS` to a command, and the modes and
descriptors of `parseredirs`. -/
def Writable : Cmd Str → Prop
  | .exec argv => argv.length < maxArgs ∧ ∀ w ∈ argv, IsWord w
  | .redir cmd file mode fd => Writable cmd ∧ IsWord file ∧
      ((mode = oRdonly ∧ fd = 0) ∨ (mode = oWronlyCreate ∧ fd = 1))
  | .pipe left right => Writable left ∧ Writable right
  | .list left right => Writable left ∧ Writable right
  | .back cmd => Writable cmd

theorem simple_words (argv : List Str) : Simple (argv.map (Prod.mk Tok.word)) argv [] := by
  induction argv with
  | nil => exact .nil
  | cons w argv ih => exact .word ih

theorem Derives.line_of_pipe {ω : Type} {ts : List (Tok × ω)} {c : Cmd ω}
    (pipe : Derives .pipe ts c) : Derives .line ts c := by
  have none : ∀ a ∈ ([] : List (Tok × ω)), a.1 = .amp := by simp
  simpa [backs] using Derives.line pipe none

theorem Derives.paren {ts : List (Tok × Str)} {c : Cmd Str} (line : Derives .line ts c) :
    Derives .exec (paren ts) c :=
  .block line .nil

theorem derives_unparse {c : Cmd Str} (writable : Writable c) : Derives .line (unparse c) c := by
  induction c with
  | exec argv => exact .line_of_pipe (.command (.simple writable.1 (simple_words argv)))
  | redir cmd file mode fd ih =>
    obtain ⟨inner, -, kind⟩ := writable
    apply Derives.line_of_pipe
    apply Derives.command
    rw [unparse, paren, List.append_assoc]
    rcases kind with ⟨rfl, rfl⟩ | ⟨rfl, rfl⟩
    · exact .block (ih inner) (.redir rfl .nil)
    · exact .block (ih inner) (.redir rfl .nil)
  | pipe left right ih ih' =>
    apply Derives.line_of_pipe
    exact .pipe (ih writable.1).paren (.command (ih' writable.2).paren)
  | list left right ih ih' =>
    have none : ∀ a ∈ ([] : List (Tok × Str)), a.1 = .amp := by simp
    have list := Derives.list (o := [59]) (.command (ih writable.1).paren) none (ih' writable.2)
    rw [List.append_nil] at list
    exact list
  | back cmd ih => exact .line (.command (ih writable).paren) (by simp [sym])

theorem spelled_sym {t : Tok} (more : t ≠ .eof) (other : t ≠ .word) : Spelled (sym t) :=
  ⟨more, by simp [sym, other]⟩

theorem spelled_paren {ts : List (Tok × Str)} (spelled : ∀ t ∈ ts, Spelled t) :
    ∀ t ∈ paren ts, Spelled t := by
  intro t mem
  simp only [paren, List.cons_append, List.mem_cons, List.mem_append, List.not_mem_nil, or_false] at mem
  rcases mem with rfl | mem | rfl
  · apply spelled_sym <;> simp
  · exact spelled t mem
  · apply spelled_sym <;> simp

theorem spelled_word {w : Str} (isWord : IsWord w) : Spelled (.word, w) :=
  ⟨by simp, by simpa using isWord⟩

theorem spelled_unparse {c : Cmd Str} (writable : Writable c) : ∀ t ∈ unparse c, Spelled t := by
  induction c with
  | exec argv =>
    intro t mem
    obtain ⟨w, memw, rfl⟩ := List.mem_map.1 mem
    exact spelled_word (writable.2 w memw)
  | redir cmd file mode fd ih =>
    intro t mem
    rcases List.mem_append.1 mem with mem | mem
    · exact spelled_paren (ih writable.1) t mem
    · simp only [List.mem_cons, List.not_mem_nil, or_false] at mem
      rcases mem with rfl | rfl
      · apply spelled_sym <;> split <;> simp
      · exact spelled_word writable.2.1
  | pipe left right ih ih' =>
    intro t mem
    rcases List.mem_append.1 mem with mem | mem
    · exact spelled_paren (ih writable.1) t mem
    · rcases List.mem_cons.1 mem with rfl | mem
      · apply spelled_sym <;> simp
      · exact spelled_paren (ih' writable.2) t mem
  | list left right ih ih' =>
    intro t mem
    rcases List.mem_append.1 mem with mem | mem
    · exact spelled_paren (ih writable.1) t mem
    · rcases List.mem_cons.1 mem with rfl | mem
      · apply spelled_sym <;> simp
      · exact ih' writable.2 t mem
  | back cmd ih =>
    intro t mem
    rcases List.mem_append.1 mem with mem | mem
    · exact spelled_paren (ih writable) t mem
    · obtain rfl := List.mem_singleton.1 mem
      apply spelled_sym <;> simp

theorem zero_notMem_render {ts : List (Tok × Str)} (spelled : ∀ t ∈ ts, Spelled t) :
    0 ∉ render ts := by
  intro mem
  obtain ⟨⟨t, w⟩, memt, mem⟩ := List.mem_flatMap.1 mem
  obtain ⟨more, kind⟩ := spelled _ memt
  replace mem : 0 ∈ w := by simpa using mem
  by_cases isWord : t = .word
  · obtain ⟨-, plain⟩ : IsWord w := by simpa [isWord] using kind
    exact (plain 0 mem).1 rfl
  · have eq : w = t.spelling := by simpa [isWord] using kind
    subst eq
    cases t <;> simp [Tok.spelling] at mem

theorem cstring_append_zero {s : Str} (nonzero : 0 ∉ s) (r : List UInt8) :
    cstring (s ++ 0 :: r) = s := by
  apply cstring_eq
  · intro i below
    exact List.getElem?_append_left below
  · exact nonzero
  · simp

theorem parses_print {c : Cmd Str} (writable : Writable c) : Parses (print c ++ [0]) c := by
  have spelled := spelled_unparse writable
  rw [parses_iff, print, cstring_append_zero (zero_notMem_render spelled),
    tokens_render spelled]
  exact derives_unparse writable

theorem writable_wrap {c : Cmd Str} (writable : Writable c) {rs : List (Redir Str)}
    (redirs : ∀ r ∈ rs, ∃ op w, r = redirOf op w ∧ IsWord w) : Writable (wrap c rs) := by
  induction rs generalizing c with
  | nil => exact writable
  | cons r rs ih =>
    apply ih
    · obtain ⟨op, w, rfl, isWord⟩ := redirs r List.mem_cons_self
      unfold redirOf
      split
      · exact ⟨writable, isWord, .inl ⟨rfl, rfl⟩⟩
      · exact ⟨writable, isWord, .inr ⟨rfl, rfl⟩⟩
    · intro q mem
      exact redirs q (List.mem_cons_of_mem r mem)

theorem writable_backs {c : Cmd Str} (writable : Writable c) (n : ℕ) : Writable (backs n c) := by
  induction n generalizing c with
  | zero => exact writable
  | succ n ih => exact ih (c := .back c) writable

/-- The words and redirections of a simple command whose tokens are words. -/
theorem Simple.writable {ts : List (Tok × Str)} {ws : List Str} {rs : List (Redir Str)}
    (simple : Simple ts ws rs) (words : ∀ w, (.word, w) ∈ ts → IsWord w) :
    (∀ w ∈ ws, IsWord w) ∧ ∀ r ∈ rs, ∃ op w, r = redirOf op w ∧ IsWord w := by
  induction simple with
  | nil => simp
  | word _ ih =>
    have rest := ih fun w mem => words w (List.mem_cons_of_mem _ mem)
    have first := words _ List.mem_cons_self
    exact ⟨by simpa using ⟨first, rest.1⟩, rest.2⟩
  | redir isRedir _ ih =>
    have rest := ih fun w mem => words w (List.mem_cons_of_mem _ (List.mem_cons_of_mem _ mem))
    have file := words _ (List.mem_cons_of_mem _ List.mem_cons_self)
    refine ⟨rest.1, ?_⟩
    intro r mem
    rcases List.mem_cons.1 mem with rfl | mem
    · exact ⟨_, _, rfl, file⟩
    · exact rest.2 r mem

theorem Derives.writable {ph : Phrase} {ts : List (Tok × Str)} {c : Cmd Str}
    (derives : Derives ph ts c) (words : ∀ w, (.word, w) ∈ ts → IsWord w) : Writable c := by
  induction derives with
  | simple few simple =>
    have parts := simple.writable words
    exact writable_wrap (c := .exec _) ⟨few, parts.1⟩ parts.2
  | block _ simple ih =>
    apply writable_wrap
    · apply ih
      intro w mem
      apply words w
      simp [mem]
    · apply (simple.writable _).2
      intro w mem
      apply words w
      simp [mem]
  | command _ ih => exact ih words
  | pipe _ _ ih ih' =>
    refine ⟨ih fun w mem => words w ?_, ih' fun w mem => words w ?_⟩ <;> simp [mem]
  | line _ _ ih =>
    apply writable_backs
    apply ih
    intro w mem
    apply words w
    simp [mem]
  | list _ _ _ ih ih' =>
    refine ⟨writable_backs (ih fun w mem => words w ?_) _, ih' fun w mem => words w ?_⟩ <;>
      simp [mem]

theorem isWord_of_mem_tokens {buf : List UInt8} {w : Str}
    (mem : (.word, w) ∈ tokens (cstring buf)) : IsWord w := by
  obtain ⟨⟨t, p⟩, memt, eq⟩ := List.mem_map.1 mem
  obtain ⟨rfl, rfl⟩ := Prod.mk.inj eq
  have word := word_of_mem_lex memt
  refine ⟨word.nonempty, ?_⟩
  intro c memc
  refine ⟨?_, word.plain c memc⟩
  rintro rfl
  exact word.zero_notMem memc

theorem Parses.writable {buf : List UInt8} {c : Cmd Str} (parses : Parses buf c) : Writable c :=
  ((parses_iff buf c).1 parses).writable fun _ => isWord_of_mem_tokens

/-- The trees that some line stands for are the trees that can be written, and what is printed for
such a tree stands for it. -/
theorem parses_tfae (c : Cmd Str) :
    [∃ buf, Parses buf c, Writable c, Parses (print c ++ [0]) c].TFAE := by
  tfae_have 1 → 2 := by
    rintro ⟨buf, parses⟩
    exact parses.writable
  tfae_have 2 → 3 := parses_print
  tfae_have 3 → 1 := fun parses => ⟨_, parses⟩
  tfae_finish

end SsuOs.Xv6Sh
