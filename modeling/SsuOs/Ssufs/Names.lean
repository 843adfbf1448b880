import Mathlib.Data.List.TakeWhile
import SsuOs.Ssufs.Effects

/-!
# Names of files

A name of eight characters fills its field, so that `strcpy` puts the NUL into the lowest byte of
the size and `strcmp` looks for it there. `names` records which file every inode was created as. A
created file is found under its name exactly as long as every write to a file with such a name
leaves a size that ends in a zero byte (`stableNames_iff_keepsName`).
-/

namespace SsuOs.Ssufs

open ByteFile

/-! ## The name of an inode -/

namespace Inode

variable {inode : Inode} {filename : CString}

/-- The name that an inode carries: its field up to the first NUL. -/
def nameString (inode : Inode) : List Byte := (List.ofFn inode.name).takeWhile (· ≠ 0)

theorem nameString_eq (short : filename.bytes.length ≤ 8) (nonneg : 0 ≤ inode.fileSize.toInt)
    (named : inode.Named filename) : inode.nameString = filename.bytes := by
  have characters : ∀ c ∈ filename.bytes, decide (c ≠ 0) = true := by
    intro c member
    rw [decide_eq_true_iff]
    rintro rfl
    exact filename.noNul member
  rw [nameString]
  rcases short.eq_or_lt with long | seven
  · rw [← ((named_iff_of_eight long nonneg).1 named).1]
    exact List.takeWhile_eq_self_iff.2 characters
  · obtain ⟨rest, eq⟩ := (named_iff (Nat.lt_succ_iff.1 seven)).1 named
    rw [← eq, List.append_assoc, List.takeWhile_append_of_pos characters]
    exact List.append_nil _

end Inode

/-! ## Created files -/

/-- The files in the inodes after a call with reply `r`. -/
def recordName (names : Fin 8 → Option CString) : Call → Reply → Fin 8 → Option CString
  | .create filename, ⟨some r, _⟩ => fun i => if ofIndex i = r then some filename else names i
  | .delete filename, _ => fun i => if names i = some filename then none else names i
  | _, _ => names

/-- The name that each inode was last created under, if that file was not deleted since. -/
def names (l : List (Event Machine (Call × Reply))) : Fin 8 → Option CString :=
  l.foldl (fun n e => recordName n e.label.1 e.label.2) fun _ => none

theorem names_snoc (l : List (Event Machine (Call × Reply)))
    (e : Event Machine (Call × Reply)) :
    names (l ++ [e]) = recordName (names l) e.label.1 e.label.2 :=
  List.foldl_append ..

/-- Every created file is found in its inode and cannot be created again, and no two inodes in use
carry the same name. -/
structure StableNames (n : Fin 8 → Option CString) (s : Machine) : Prop where
  lookup : ∀ i filename, n i = some filename → ∃ s', openNamei filename s = .ok (ofIndex i, s')
  create : ∀ i filename, n i = some filename → ∃ s', ssufsCreate filename s = .ok (-1, s')
  distinct : ∀ i i', s.store.inodeFlag i = inodeInUse → s.store.inodeFlag i' = inodeInUse →
    (s.store.inode i).nameString = (s.store.inode i').nameString → i = i'

/-- If the call is a write to a file with a name of eight characters for which there is room, it
makes the file 256 bytes long. -/
def KeepsName (v : Store) : Call → Prop
  | .write h _ nbytes => ∀ i, index 8 (v.fileHandles h).inodeNumber = some i →
      Room v h i nbytes → v.inodeFlag i = inodeInUse → (v.inode i).nameString.length = 8 →
        (v.inode i).fileSize.toInt + nbytes.toInt = 256
  | _ => True

/-- The inodes in use are the created files, each under its name. -/
structure Carries (n : Fin 8 → Option CString) (v : Store) : Prop where
  inUse : ∀ i, v.inodeFlag i = inodeInUse ↔ ∃ filename, n i = some filename
  named : ∀ i filename, n i = some filename →
    filename.bytes.length ≤ 8 ∧ (v.inode i).Named filename
  distinct : ∀ i i' filename, n i = some filename → n i' = some filename → i = i'

section Steps

variable {n : Fin 8 → Option CString} {v w : Store} {i : Fin 8} {filename : CString}

namespace Carries

theorem lookup_eq (carries : Carries n v) (given : n i = some filename) :
    v.lookup filename = some i := by
  obtain ⟨short, named⟩ := carries.named i filename given
  refine lookup_eq_of_unique short ((carries.inUse i).2 ⟨_, given⟩) named fun i' inUse' named' => ?_
  obtain ⟨filename', given'⟩ := (carries.inUse i').1 inUse'
  obtain rfl := named'.unique (carries.named i' _ given').2
  exact carries.distinct i' i _ given' given

theorem of_lookup (carries : Carries n v) (here : v.lookup filename = some i) :
    n i = some filename := by
  obtain ⟨inUse, named⟩ := lookup_eq_some here
  obtain ⟨filename', given⟩ := (carries.inUse i).1 inUse
  rw [given, (carries.named i _ given).2.unique named]

theorem of_lookup_none (carries : Carries n v) (absent : v.lookup filename = none) (i : Fin 8) :
    n i ≠ some filename := by
  intro given
  cases absent.symm.trans (carries.lookup_eq given)

theorem stableNames {s : Machine} (carries : Carries n s.store) (calm : Calm s) :
    StableNames n s := by
  refine ⟨fun i filename given => ?_, fun i filename given => ?_, fun i i' inUse inUse' same => ?_⟩
  · have found := openNamei_apply filename s.store
    rw [carries.lookup_eq given] at found
    obtain ⟨s', runs, -⟩ := (openNamei_implements filename).lift calm.2 found
    exact ⟨s', runs⟩
  · have refused := ssufsCreate_apply filename s.store
    rw [carries.lookup_eq given] at refused
    obtain ⟨s', runs, -⟩ := (ssufsCreate_implements filename).lift calm.2 refused
    exact ⟨s', runs⟩
  · obtain ⟨filename, given⟩ := (carries.inUse i).1 inUse
    obtain ⟨filename', given'⟩ := (carries.inUse i').1 inUse'
    obtain ⟨short, named⟩ := carries.named i _ given
    obtain ⟨short', named'⟩ := carries.named i' _ given'
    rw [Inode.nameString_eq short (calm.1.size i).1 named,
      Inode.nameString_eq short' (calm.1.size i').1 named'] at same
    obtain rfl : filename = filename' := by
      cases filename
      cases filename'
      simpa using same
    exact carries.distinct i i' _ given given'

theorem congr (carries : Carries n v) (inodeFlag : w.inodeFlag = v.inodeFlag)
    (inode : w.inode = v.inode) : Carries n w := by
  refine ⟨?_, ?_, carries.distinct⟩
  · rw [inodeFlag]
    exact carries.inUse
  · rw [inode]
    exact carries.named

theorem created (carries : Carries n v) (short : filename.bytes.length ≤ 8)
    (absent : v.lookup filename = none) :
    Carries (fun i' => if i' = i then some filename else n i') (v.created i filename) := by
  have absent' := carries.of_lookup_none absent
  refine ⟨fun i' => ?_, fun i' filename' given => ?_, fun i₁ i₂ filename' given₁ given₂ => ?_⟩
  · rw [Store.created_inodeFlag]
    split_ifs
    · exact iff_of_true rfl ⟨filename, rfl⟩
    · exact carries.inUse i'
  · split_ifs at given with same
    · cases given
      subst same
      exact ⟨short, Store.created_named short⟩
    · rw [Store.created_inode_of_ne same]
      exact carries.named i' filename' given
  · split_ifs at given₁ given₂ with same₁ same₂ same₂
    · rw [same₁, same₂]
    · cases given₁
      exact absurd given₂ (absent' i₂)
    · cases given₂
      exact absurd given₁ (absent' i₁)
    · exact carries.distinct i₁ i₂ filename' given₁ given₂

theorem deleted (carries : Carries n v) (given : n i = some filename) (gone : Gone v i w) :
    Carries (fun i' => if n i' = some filename then none else n i') w := by
  have only (i' : Fin 8) : n i' = some filename ↔ i' = i :=
    ⟨fun given' => carries.distinct i' i _ given' given, fun same => same ▸ given⟩
  simp only [only]
  refine ⟨fun i' => ?_, fun i' filename' given' => ?_, fun i₁ i₂ filename' given₁ given₂ => ?_⟩
  · rw [gone.inodeFlag, Function.update_apply]
    split_ifs
    · exact iff_of_false inodeInUse_ne_free.symm nofun
    · exact carries.inUse i'
  · split_ifs at given' with same
    rw [gone.inode, Function.update_of_ne same]
    exact carries.named i' filename' given'
  · split_ifs at given₁ given₂
    exact carries.distinct i₁ i₂ filename' given₁ given₂

end Carries

/-- A longer file keeps a short name, and one of eight characters if the lowest byte of its size
is zero. -/
theorem Grown.named_iff {h : Fin 20} {nbytes : Int32} (grown : Grown v h i nbytes w) (tame : Tame v)
    (short : filename.bytes.length ≤ 8) (named : (v.inode i).Named filename) :
    (w.inode i).Named filename ↔
      (filename.bytes.length = 8 → (v.inode i).fileSize.toInt + nbytes.toInt = 256) := by
  have positive := grown.room.positive
  have fits := grown.room.size
  have size := grown.size
  have low := (tame.size i).1
  rcases short.eq_or_lt with long | seven
  · rw [Inode.named_iff_of_eight long (by omega), grown.name, size]
    have same := ((Inode.named_iff_of_eight long low).1 named).1
    rw [and_iff_right same, forall_prop_of_true long]
    omega
  · rw [Inode.named_iff (Nat.lt_succ_iff.1 seven), grown.name,
      ← Inode.named_iff (Nat.lt_succ_iff.1 seven)]
    exact iff_of_true named fun long => absurd long seven.ne

/-- A call that keeps the names of eight characters keeps every file under its name. -/
theorem Effect.carries {call : Call} {r : Reply} (effect : Effect v call r w) (tame : Tame v)
    (proper : Proper 8 v call) (carries : Carries n v) (keeps : KeepsName v call) :
    Carries (recordName n call r) w := by
  cases effect with
  | noCreate =>
    rw [recordName, ite_ofIndex_neg_one (by norm_num)]
    exact carries
  | create absent =>
    simpa only [recordName, ofIndex_inj (show 8 ≤ 2 ^ 31 by norm_num)] using
      carries.created (proper.1 _ rfl) absent
  | noWrite _ _ frame => exact carries.congr frame.inodeFlag frame.inode
  | @write h buf nbytes i w selected grown =>
    refine ⟨?_, fun i' filename given => ?_, carries.distinct⟩
    · rw [grown.inodeFlag]
      exact carries.inUse
    · obtain ⟨short, named⟩ := carries.named i' filename given
      refine ⟨short, ?_⟩
      by_cases same : i' = i
      · subst same
        refine (grown.named_iff tame short named).2 fun long => ?_
        refine keeps i' selected grown.room ((carries.inUse i').2 ⟨filename, given⟩) ?_
        rw [Inode.nameString_eq short (tame.size i').1 named]
        exact long
      · rw [grown.other i' same]
        exact named
  | readSeek seek | lseek seek =>
    obtain ⟨inodeFlag, inode, -⟩ := tame.lseek_same (proper.2 _ rfl) seek
    exact carries.congr inodeFlag inode
  | noDelete absent =>
    simpa only [recordName, carries.of_lookup_none absent, if_false] using carries
  | delete here gone => exact carries.deleted (carries.of_lookup here) gone
  | _ => exact carries.congr rfl rfl

/-- What `open_namei` returns is what it finds on the records. -/
theorem StableNames.lookup_eq {s : Machine} (stable : StableNames n s) (calm : Calm s)
    (given : n i = some filename) : s.store.lookup filename = some i := by
  obtain ⟨s', runs⟩ := stable.lookup i filename given
  have found_eq := openNamei_apply filename s.store
  have returned := ((openNamei_implements filename).ok calm.2 runs (found_eq ▸ nofun)).1
  rw [found_eq] at returned
  exact (found_eq_ofIndex (by norm_num)).1 (congrArg Prod.fst (Except.ok.inj returned))

/-- A call after which every file is found under its name keeps the names of eight characters. -/
theorem Effect.keepsName {call : Call} {r : Reply} (effect : Effect v call r w) (tame : Tame v)
    (carries : Carries n v)
    (finds : ∀ i filename, recordName n call r i = some filename → w.lookup filename = some i) :
    KeepsName v call := by
  cases effect with
  | noWrite selected full =>
    intro i' selected' room
    obtain rfl := Option.some.inj (selected'.symm.trans selected)
    exact absurd room full
  | @write h buf nbytes i w selected grown =>
    intro i' selected' _ inUse long
    obtain rfl : i' = i := Option.some.inj (selected'.symm.trans selected)
    obtain ⟨filename, given⟩ := (carries.inUse i').1 inUse
    obtain ⟨short, named⟩ := carries.named i' filename given
    rw [Inode.nameString_eq short (tame.size i').1 named] at long
    exact (grown.named_iff tame short named).1 (lookup_eq_some (finds i' filename given)).2 long
  | _ => trivial

end Steps

/-! ## Runs -/

theorem carries_fresh (junk : ℕ → Byte) : Carries (names []) (Store.fresh junk) :=
  ⟨fun _ => iff_of_false inodeInUse_ne_free.symm nofun, nofun, nofun⟩

/-- Along a run with names of at most eight characters, every created file is found under its name,
and no two files have the same name, exactly if every write that there is room for makes a file with
a name of eight characters 256 bytes long. -/
theorem stableNames_iff_keepsName {s s₀ t : Machine}
    {l : List (Event Machine (Call × Reply))} (format : ssufsFormatDisk s = .ok ((), s₀))
    (run : Run (UserStep (Proper 8)) s₀ l t) :
    Run.Always (UserStep (Proper 8)) s₀ l (fun l' x => StableNames (names l') x) ↔
      ∀ e ∈ l, KeepsName e.before.store e.label.1 := by
  have start : Carries (names []) s₀.store := by
    rw [(holds_of_format format).1]
    exact carries_fresh _
  have calm₀ := calm_format format
  refine run.always_iff (I := fun l x => Carries (names l) x.store ∧ Calm x) ⟨start, calm₀⟩
    (start.stableNames calm₀) ?_ ?_
  · rintro l x a y ⟨carries, calm⟩ step keeps
    obtain ⟨-, effect, calm'⟩ := step.effect calm step.1
    rw [names_snoc]
    exact ⟨effect.carries calm.1 step.1 carries keeps, calm'⟩
  · rintro l x a y ⟨carries, calm⟩ step
    obtain ⟨-, effect, calm'⟩ := step.effect calm step.1
    rw [names_snoc]
    refine ⟨fun stable => ?_, fun keeps => ?_⟩
    · exact effect.keepsName calm.1 carries fun i filename => stable.lookup_eq calm'
    · exact (effect.carries calm.1 step.1 carries keeps).stableNames calm'

/-- A name that fills its field. -/
def eightLetters : CString where
  bytes := [97, 98, 99, 100, 101, 102, 103, 104]
  noNul := by decide

/-- A file with a name of eight characters is written to its full size at once. -/
theorem stableNames_iff_keepsName_full :
    ∃ s₀ l t, ssufsFormatDisk (bootWith 255) = .ok ((), s₀) ∧
      Run (UserStep (Proper 8)) s₀ l t ∧ t.store.lookup eightLetters = some 0 ∧
        (Run.Always (UserStep (Proper 8)) s₀ l (fun l' x => StableNames (names l') x) ↔
          ∀ e ∈ l, KeepsName e.before.store e.label.1) := by
  have ends : (replay (Proper 8)
      [.create eightLetters, .openFile eightLetters, .write 0 (fun _ => 65) 256]
      (Store.fresh fun _ => 255)).map (fun v => v.lookup eightLetters) = some (some 0) := by
    decide +kernel
  obtain ⟨v, replays, here⟩ := Option.map_eq_some_iff.1 ends
  obtain ⟨s₀, l, t, format, run, -, rfl, -⟩ := run_of_replay_fresh 255 replays
  exact ⟨s₀, l, t, format, run, here, stableNames_iff_keepsName format run⟩

/-- After a write of one byte the file is no longer found, and a second file gets its name. -/
theorem stableNames_fails_write :
    ¬ ∀ s s₀ l t, ssufsFormatDisk s = .ok ((), s₀) → Run (UserStep (Proper 8)) s₀ l t →
      StableNames (names l) t := by
  intro holds
  have ends : (replay (Proper 8)
      [.create eightLetters, .openFile eightLetters, .write 0 (fun _ => 65) 1,
        .create eightLetters]
      (Store.fresh fun _ => 255)).map (fun v => (v.inodeFlag 0, v.inodeFlag 1,
        (v.inode 0).nameString, (v.inode 1).nameString)) =
          some (inodeInUse, inodeInUse, eightLetters.bytes, eightLetters.bytes) := by
    decide +kernel
  obtain ⟨v, replays, bad⟩ := Option.map_eq_some_iff.1 ends
  obtain ⟨s₀, l, t, format, run, -, rfl, -⟩ := run_of_replay_fresh 255 replays
  simp only [Prod.mk.injEq] at bad
  obtain ⟨inUse, inUse', name, name'⟩ := bad
  have same := (holds _ s₀ l t format run).distinct 0 1 inUse inUse' (name.trans name'.symm)
  exact absurd same (by decide)

end SsuOs.Ssufs
