import Mathlib.Data.List.TakeWhile
import Mathlib.Tactic.Common

/-!
# Path names

`skipelem` and `namex` of `fs.c` over any system of directories: whether an inode is a directory,
and what `dirlookup` finds in it. A path is the string without its final zero. What a path means is
said by its elements alone, the nonempty parts between slashes.
-/

namespace SsuOs.Xv6Fs.Paths

abbrev Str := List UInt8

abbrev slash : UInt8 := 47

/-- `DIRSIZ`. -/
abbrev dirsiz : ℕ := 14

/-- The next element, of which `name` has room for `DIRSIZ` bytes, and the path after it. -/
def skipelem (path : Str) : Option (Str × Str) :=
  let path := path.dropWhile (· = slash)
  if path = [] then none
  else some ((path.takeWhile (· ≠ slash)).take dirsiz,
    (path.dropWhile (· ≠ slash)).dropWhile (· = slash))

/-- The inodes: `ip->type == T_DIR`, and `dirlookup`. -/
structure Directories (I : Type) where
  isDir : I → Bool
  lookup : I → Str → Option I

variable {I : Type} (dirs : Directories I)

/-- The loop of `namex`, with the number of rounds at hand. The result has the inode and `name`. -/
def namexLoop (nameiparent : Bool) : ℕ → I → Str → Str → Option (I × Str)
  | 0, _, _, _ => none
  | fuel + 1, ip, path, name =>
    match skipelem path with
    | none => if nameiparent then none else some (ip, name)
    | some (name, path) =>
      if dirs.isDir ip = false then none
      else if nameiparent = true ∧ path = [] then some (ip, name)
      else
        match dirs.lookup ip name with
        | none => none
        | some next => namexLoop nameiparent fuel next path name

/-- `root` is the inode `ROOTINO`, `cwd` the current directory of the process. -/
def namex (root cwd : I) (path : Str) (nameiparent : Bool) : Option (I × Str) :=
  namexLoop dirs nameiparent (path.length + 1) (if path.head? = some slash then root else cwd)
    path []

def namei (root cwd : I) (path : Str) : Option I := (namex dirs root cwd path false).map Prod.fst

def nameiparent (root cwd : I) (path : Str) : Option (I × Str) := namex dirs root cwd path true

/-! ## Elements of a path -/

/-- The nonempty parts between slashes. -/
def elements : Str → List Str
  | [] => []
  | c :: cs =>
    if c = slash then elements cs
    else
      match cs with
      | [] => [[c]]
      | d :: ds => if d = slash then [c] :: elements (d :: ds)
        else (elements (d :: ds)).modifyHead (c :: ·)

/-- One step from an inode to an element of it. -/
def enter (ip : I) (w : Str) : Option I :=
  if dirs.isDir ip = true then dirs.lookup ip (w.take dirsiz) else none

/-- From an inode through all elements. -/
def follow (ip : I) (ws : List Str) : Option I := ws.foldlM (enter dirs) ip

theorem elements_slash (path : Str) : elements (slash :: path) = elements path := by
  rw [elements.eq_def]
  simp

theorem elements_dropWhile (path : Str) :
    elements (path.dropWhile (· = slash)) = elements path := by
  induction path with
  | nil => rfl
  | cons c cs ih =>
    by_cases here : c = slash
    · subst here
      rw [elements_slash, ← ih]
      simp
    · simp [here]

/-- A word up to the end or to a slash is the first element. -/
theorem elements_word {w rest : Str} (word : ∀ c ∈ w, c ≠ slash) (nonempty : w ≠ [])
    (stop : ∀ c cs, rest = c :: cs → c = slash) : elements (w ++ rest) = w :: elements rest := by
  induction w with
  | nil => exact absurd rfl nonempty
  | cons c w ih =>
    have plain : c ≠ slash := word c (by simp)
    cases w with
    | nil =>
      cases rest with
      | nil => simp [elements, plain]
      | cons d ds =>
        have here := stop d ds rfl
        rw [List.singleton_append, elements.eq_def]
        simp [plain, here]
    | cons d w =>
      have next : d ≠ slash := word d (by simp)
      have later := ih (fun x inside => word x (by simp [inside])) (by simp)
      rw [List.cons_append, List.cons_append, elements.eq_def]
      simp only [if_neg plain, if_neg next]
      rw [← List.cons_append, later]
      rfl

theorem elements_takeWhile {c : UInt8} {cs : Str} (plain : c ≠ slash) :
    elements (c :: cs) = (c :: cs).takeWhile (· ≠ slash) ::
      elements ((c :: cs).dropWhile (· ≠ slash)) := by
  have word : ∀ d ∈ (c :: cs).takeWhile (· ≠ slash), d ≠ slash := by
    intro d inside
    simpa using List.mem_takeWhile_imp inside
  have nonempty : (c :: cs).takeWhile (· ≠ slash) ≠ [] := by simp [plain]
  have stop : ∀ d ds, (c :: cs).dropWhile (· ≠ slash) = d :: ds → d = slash := by
    intro d ds same
    have stopped := List.head?_dropWhile_not (fun d => decide (d ≠ slash)) (c :: cs)
    rw [same] at stopped
    simpa using stopped
  rw [← elements_word word nonempty stop, List.takeWhile_append_dropWhile]

/-- What is left without leading slashes begins with a word. -/
theorem ne_slash_of_dropWhile {path cs : Str} {c : UInt8}
    (stripped : path.dropWhile (· = slash) = c :: cs) : c ≠ slash := by
  have stopped := List.head?_dropWhile_not (fun c => decide (c = slash)) path
  rw [stripped] at stopped
  simpa using stopped

theorem elements_eq_nil (path : Str) : elements path = [] ↔ path.dropWhile (· = slash) = [] := by
  rw [← elements_dropWhile]
  cases rest : path.dropWhile (· = slash) with
  | nil => simp [elements]
  | cons c cs =>
    rw [elements_takeWhile (ne_slash_of_dropWhile rest)]
    simp

theorem elements_append (p q : Str) : elements (p ++ slash :: q) = elements p ++ elements q := by
  induction p with
  | nil => exact elements_slash q
  | cons c p ih =>
    by_cases here : c = slash
    · subst here
      rw [List.cons_append, elements_slash, elements_slash, ih]
    · cases p with
      | nil =>
        have word : elements ([c] ++ slash :: q) = [c] :: elements (slash :: q) := by
          apply elements_word
          · simpa using here
          · simp
          · intro d ds same
            exact (List.cons.inj same).1.symm
        rw [word, elements_slash]
        simp [elements, here]
      | cons d p =>
        rw [List.cons_append, List.cons_append, elements.eq_def, elements.eq_def (c :: d :: p)]
        simp only [if_neg here]
        rw [← List.cons_append, ih]
        split_ifs with next
        · rfl
        · rw [elements_takeWhile next]
          rfl

/-! ## Looking up a path -/

theorem skipelem_none {path : Str} (none : skipelem path = none) : elements path = [] := by
  unfold skipelem at none
  rw [elements_eq_nil]
  by_contra some
  simp [some] at none

/-- `skipelem` takes off the first element. What it leaves is empty only if that was the last. -/
theorem skipelem_some {path name rest : Str} (found : skipelem path = some (name, rest)) :
    ∃ w ws, elements path = w :: ws ∧ name = w.take dirsiz ∧ elements rest = ws ∧
      (rest = [] ↔ ws = []) ∧ rest.length < path.length := by
  unfold skipelem at found
  cases stripped : path.dropWhile (· = slash) with
  | nil => simp [stripped] at found
  | cons c cs =>
    have plain : c ≠ slash := ne_slash_of_dropWhile stripped
    simp only [stripped, reduceCtorEq, if_false, Option.some.injEq, Prod.mk.injEq] at found
    obtain ⟨rfl, rfl⟩ := found
    refine ⟨(c :: cs).takeWhile (· ≠ slash), elements ((c :: cs).dropWhile (· ≠ slash)), ?_, rfl,
      elements_dropWhile _, (elements_eq_nil _).symm, ?_⟩
    · rw [← elements_dropWhile, stripped, elements_takeWhile plain]
    · have first : (path.dropWhile (· = slash)).length ≤ path.length :=
        (List.dropWhile_suffix _).length_le
      have second : (((c :: cs).dropWhile (· ≠ slash)).dropWhile (· = slash)).length ≤
          ((c :: cs).dropWhile (· ≠ slash)).length := (List.dropWhile_suffix _).length_le
      have third : ((c :: cs).dropWhile (· ≠ slash)).length ≤ cs.length := by
        rw [List.dropWhile_cons_of_pos (by simpa using plain)]
        exact (List.dropWhile_suffix _).length_le
      rw [stripped, List.length_cons] at first
      omega

/-- The directory of the last element, and that element as `name` has it. -/
def parentOf (ip : I) (ws : List Str) : Option (I × Str) := do
  let w ← ws.getLast?
  let dp ← follow dirs ip ws.dropLast
  if dirs.isDir dp = true then some (dp, w.take dirsiz) else none

theorem follow_cons (ip : I) (w : Str) (ws : List Str) :
    follow dirs ip (w :: ws) = (enter dirs ip w).bind fun next => follow dirs next ws := rfl

theorem parentOf_cons (ip : I) {w : Str} {ws : List Str} (more : ws ≠ []) :
    parentOf dirs ip (w :: ws) = (enter dirs ip w).bind fun next => parentOf dirs next ws := by
  unfold parentOf
  rw [List.getLast?_cons_of_ne_nil more, List.dropLast_cons_of_ne_nil more, follow_cons]
  cases ws.getLast? with
  | none => cases enter dirs ip w <;> rfl
  | some v => cases enter dirs ip w <;> rfl

theorem namexLoop_namei {fuel : ℕ} {ip : I} {path name : Str} (enough : path.length < fuel) :
    (namexLoop dirs false fuel ip path name).map Prod.fst = follow dirs ip (elements path) := by
  induction fuel generalizing ip path name with
  | zero => omega
  | succ fuel ih =>
    rw [namexLoop]
    cases found : skipelem path with
    | none =>
      rw [skipelem_none found]
      rfl
    | some r =>
      obtain ⟨name, rest⟩ := r
      obtain ⟨w, ws, first, rfl, rfl, _, shorter⟩ := skipelem_some found
      rw [first, follow_cons, enter]
      by_cases dir : dirs.isDir ip = true
      · simp only [dir, Bool.true_eq_false, if_false, Bool.false_eq_true, false_and, if_true]
        cases dirs.lookup ip (w.take dirsiz) with
        | none => rfl
        | some next => exact ih (by omega)
      · simp [dir]

theorem namexLoop_nameiparent {fuel : ℕ} {ip : I} {path name : Str} (enough : path.length < fuel) :
    namexLoop dirs true fuel ip path name = parentOf dirs ip (elements path) := by
  induction fuel generalizing ip path name with
  | zero => omega
  | succ fuel ih =>
    rw [namexLoop]
    cases found : skipelem path with
    | none =>
      rw [skipelem_none found]
      rfl
    | some r =>
      obtain ⟨name, rest⟩ := r
      obtain ⟨w, ws, first, rfl, rfl, last, shorter⟩ := skipelem_some found
      rw [first]
      by_cases done : rest = []
      · rw [last.1 done]
        by_cases dir : dirs.isDir ip = true
        · simp [dir, done, parentOf, follow]
        · simp [dir, parentOf, follow]
      · rw [parentOf_cons dirs ip (fun none => done (last.2 none)), enter]
        by_cases dir : dirs.isDir ip = true
        · simp only [dir, Bool.true_eq_false, if_false, true_and, if_neg done, if_true]
          cases dirs.lookup ip (w.take dirsiz) with
          | none => rfl
          | some next => exact ih (by omega)
        · simp [dir]

/-- Where a path starts. -/
def start (root cwd : I) (path : Str) : I := if path.head? = some slash then root else cwd

theorem namei_eq (root cwd : I) (path : Str) :
    namei dirs root cwd path = follow dirs (start root cwd path) (elements path) :=
  namexLoop_namei dirs (Nat.lt_succ_self _)

/-- A path leads through its elements, each cut to `DIRSIZ` bytes, and `nameiparent` stops at the
directory of the last one. Both always come to an end. -/
theorem path_follows_elements (root cwd : I) (path : Str) :
    namei dirs root cwd path = follow dirs (start root cwd path) (elements path) ∧
      nameiparent dirs root cwd path = parentOf dirs (start root cwd path) (elements path) :=
  ⟨namei_eq dirs root cwd path, namexLoop_nameiparent dirs (Nat.lt_succ_self _)⟩

/-- The path `p/q` leads where `q` leads from `p`. -/
theorem namei_append (root cwd : I) {p : Str} (q : Str) (nonempty : p ≠ []) :
    namei dirs root cwd (p ++ slash :: q) =
      (namei dirs root cwd p).bind fun ip => follow dirs ip (elements q) := by
  have same : start root cwd (p ++ slash :: q) = start root cwd p := by
    cases p with
    | nil => exact absurd rfl nonempty
    | cons c p => rfl
  rw [namei_eq, namei_eq, same, elements_append]
  exact List.foldlM_append

/-- A directory with a directory in it and a file in that. -/
def nested : Directories ℕ where
  isDir n := n < 2
  lookup n w := if n < 2 ∧ w = [97] then some (n + 1) else none

theorem namei_append_nested :
    namei nested 0 9 ([slash, 97] ++ slash :: [slash, 97]) =
        (namei nested 0 9 [slash, 97]).bind (fun ip => follow nested ip (elements [slash, 97])) ∧
      namei nested 0 9 [slash, 97] = some 1 ∧ follow nested 1 (elements [slash, 97]) = some 2 :=
  ⟨namei_append nested 0 9 [slash, 97] (by decide), by decide, by decide⟩

end SsuOs.Xv6Fs.Paths
