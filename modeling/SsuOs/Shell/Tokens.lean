import Mathlib.Data.List.TakeWhile
import SsuOs.Shell.Commands

/-!
# Tokens as strings

The strings that `tokenize` returns.  Where the line is followed by two zero bytes they are the
maximal runs of characters that are no delimiters (`tokenStrings_runs`); otherwise the bytes behind
its terminator are scanned as well, up to the next zero byte, and give tokens of their own
(`tokenStrings_agree_iff`).
-/

namespace SsuOs.Shell

/-- The strings in the entries of `tokens` before its `NULL`. -/
def tokenStrings (fresh : ℕ → ℕ → UInt8) (line : List UInt8) (flag : ℤ) :
    Except Fault (List (List UInt8)) := do
  let tokens ← tokenize fresh line flag
  tokens.mapM cstring

section Strings

variable {fresh : ℕ → ℕ → UInt8} {flag : ℤ} {s t : List UInt8} {ws : List (List UInt8)}

theorem mapM_cstring_copies (chars : ∀ w ∈ ws, 0 ∉ w) (k : ℕ) :
    (copies fresh k ws).mapM cstring = .ok ws := by
  induction ws generalizing k with
  | nil => rfl
  | cons w ws ih =>
    obtain ⟨first, later⟩ := List.forall_mem_cons.1 chars
    rw [copies, List.mapM_cons, copyToken, cstring_append first, ih later]
    rfl

theorem zero_notMem_scanned (chars : 0 ∉ s) : 0 ∉ scanned s t := by
  have behind : 0 ∉ t.takeWhile (· ≠ 0) := fun zero => by
    simpa using List.mem_takeWhile_imp zero
  rw [scanned, List.mem_append, List.mem_cons]
  exact not_or.2 ⟨chars, not_or.2 ⟨zero_ne_newline, behind⟩⟩

theorem tokenStrings_eq_ok (chars : 0 ∉ s) : tokenStrings fresh (s ++ 0 :: t) flag = .ok ws ↔
    0 ∈ t ∧ Room flag 1 (scanned s t) ∧ ws = closedFields (delimiter flag) (scanned s t) := by
  have strings : ∀ f ∈ closedFields (delimiter flag) (scanned s t), 0 ∉ f := by
    intro f field zero
    have piece := List.dropLast_subset _ (List.mem_filter.1 field).1
    exact zero_notMem_scanned chars (of_mem_splitOnP piece 0 zero).1
  simp only [tokenStrings, bind_eq_ok, tokenize_eq_ok chars]
  constructor
  · rintro ⟨_, ⟨ended, room, rfl⟩, returns⟩
    rw [mapM_cstring_copies strings] at returns
    exact ⟨ended, room, (Except.ok.inj returns).symm⟩
  · rintro ⟨ended, room, rfl⟩
    exact ⟨_, ⟨ended, room, rfl⟩, mapM_cstring_copies strings 0⟩

/-- On a string that is followed by two zero bytes. -/
theorem tokenStrings_eq_fields (chars : 0 ∉ s) (rest : List UInt8)
    (short : ∀ f ∈ fields (delimiter flag) s, f.length < maxTokenSize)
    (few : (fields (delimiter flag) s).length < maxNumTokens) :
    tokenStrings fresh (s ++ 0 :: 0 :: rest) flag = .ok (fields (delimiter flag) s) := by
  have strings : ∀ f ∈ fields (delimiter flag) s, 0 ∉ f := fun f field zero =>
    chars (of_mem_splitOnP (mem_fields.1 field).1 0 zero).1
  rw [tokenStrings, tokenize_eq_fields fresh flag chars rest short few]
  exact mapM_cstring_copies strings 0

end Strings

/-! ## The reference split -/

/-- On a line that is followed by two zero bytes, with fewer than 64 maximal runs of characters that
are no delimiters, all shorter than 64, `tokenize` returns these runs.  Each of them, with two or
more zero bytes behind it, is its own only token. -/
theorem tokenStrings_runs (fresh fresh' : ℕ → ℕ → UInt8) (flag : ℤ) {s : List UInt8} (chars : 0 ∉ s)
    (rest : List UInt8) {ws : List (List UInt8)} (runs : Runs (delimiter flag) s ws)
    (short : ∀ w ∈ ws, w.length < maxTokenSize) (few : ws.length < maxNumTokens) :
    tokenStrings fresh (s ++ 0 :: 0 :: rest) flag = .ok ws ∧
      ∀ w ∈ ws, ∀ n, tokenStrings fresh' (w ++ List.replicate (n + 2) 0) flag = .ok [w] := by
  obtain rfl := runs_iff.1 runs
  refine ⟨tokenStrings_eq_fields chars rest short few, fun w field n => ?_⟩
  obtain ⟨piece, nonempty⟩ := mem_fields.1 field
  have free := of_mem_splitOnP piece
  have single : fields (delimiter flag) w = [w] := by
    rw [fields_eq_single fun x mem => (free x mem).2]
    simp [nonempty]
  rw [List.replicate_succ, List.replicate_succ,
    tokenStrings_eq_fields (fun zero => chars (free 0 zero).1) _ ?_ ?_, single]
  · simpa [single] using short w field
  · rw [single, List.length_singleton]
    decide

/-- The words of ` ls  -l` with a tab behind it. -/
theorem tokenStrings_runs_ls :
    tokenStrings zeroed (ascii [' ', 'l', 's', ' ', ' ', '-', 'l', '\t'] ++ 0 :: 0 :: [1]) 0 =
        .ok [ascii ['l', 's'], ascii ['-', 'l']] ∧
      ∀ w ∈ [ascii ['l', 's'], ascii ['-', 'l']], ∀ n,
        tokenStrings zeroed (w ++ List.replicate (n + 2) 0) 0 = .ok [w] :=
  tokenStrings_runs zeroed zeroed 0 (by decide) [1] (runs_iff.2 (by decide)) (by decide) (by decide)

/-! ## What lies behind a string -/

/-- Two buffers with the same string give the same tokens exactly if what is scanned of each has
room, and the bytes behind the string close the same fields in both. -/
theorem tokenStrings_agree_iff (fresh fresh' : ℕ → ℕ → UInt8) (flag : ℤ) {s : List UInt8}
    (chars : 0 ∉ s) (t t' : List UInt8) (ended : 0 ∈ t) (ended' : 0 ∈ t') :
    (∃ ws, tokenStrings fresh (s ++ 0 :: t) flag = .ok ws ∧
        tokenStrings fresh' (s ++ 0 :: t') flag = .ok ws) ↔
      Room flag 1 (scanned s t) ∧ Room flag 1 (scanned s t') ∧
        closedFields (delimiter flag) (t.takeWhile (· ≠ 0)) =
          closedFields (delimiter flag) (t'.takeWhile (· ≠ 0)) := by
  have closed (t : List UInt8) : closedFields (delimiter flag) (scanned s t) =
      fields (delimiter flag) s ++ closedFields (delimiter flag) (t.takeWhile (· ≠ 0)) :=
    closedFields_append_delimiter _ _ (delimiter_newline flag)
  simp only [tokenStrings_eq_ok chars, closed, ended, ended', true_and]
  constructor
  · rintro ⟨_, ⟨room, rfl⟩, room', same⟩
    exact ⟨room, room', List.append_cancel_left same⟩
  · rintro ⟨room, room', same⟩
    exact ⟨_, ⟨room, rfl⟩, room', by rw [same]⟩

/-- Behind `ls` a byte that no delimiter follows makes no difference. -/
theorem tokenStrings_agree_iff_open :
    ∃ ws, tokenStrings zeroed (ascii ['l', 's'] ++ 0 :: [0, 0]) 0 = .ok ws ∧
      tokenStrings zeroed (ascii ['l', 's'] ++ 0 :: (ascii ['x'] ++ [0])) 0 = .ok ws :=
  (tokenStrings_agree_iff zeroed zeroed 0 (by decide) [0, 0] (ascii ['x'] ++ [0]) (by decide)
    (by decide)).2 ⟨⟨by decide, by decide, by decide⟩, ⟨by decide, by decide, by decide⟩, by decide⟩

/-- Behind `ls` the bytes `-l `, which an earlier line may have left there, become a second word. -/
theorem not_tokenStrings_agree :
    tokenStrings zeroed (ascii ['l', 's'] ++ 0 :: [0, 0, 0, 0]) 0 = .ok [ascii ['l', 's']] ∧
      tokenStrings zeroed (ascii ['l', 's'] ++ 0 :: (ascii ['-', 'l', ' '] ++ [0])) 0 =
        .ok [ascii ['l', 's'], ascii ['-', 'l']] := by
  constructor <;> decide +kernel

end SsuOs.Shell
