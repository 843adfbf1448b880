import SsuOs.Base.Run
import SsuOs.Xv6Fs.FileSpecs

/-!
# Runs of the file system

Any sequence of calls on inodes, from any consistent disk, is a sequence of calls on a store of
files: the replies are the same, no block is in two places or lost, and the panics about free blocks and
block numbers out of range never happen.
-/

namespace SsuOs.Xv6Fs.Inodes

open Superblock ByteFile

variable {sb : Superblock} {fs fs' : Fs} {i b off : ℕ} {src : List UInt8} {devsw : Devices}
  {st : Store} {l : List (Event Fs (Call × Reply))}

/-- A call that returns, with its reply. -/
def Step (devsw : Devices) (sb : Superblock) (fs : Fs) (e : Call × Reply) (fs' : Fs) : Prop :=
  e.1.Within sb ∧ exec devsw sb fs e.1 = .ok (e.2, fs')

/-- The store that the disk and the inode cache stand for. -/
def view (sb : Superblock) (fs : Fs) : Store where
  file := file sb fs
  valid i := (fs.cache i).isSome

/-- A consistent file system that stands for the store. -/
structure Shows (sb : Superblock) (fs : Fs) (st : Store) : Prop where
  good : Good sb fs
  file : ∀ i < sb.ninodes, st.file i = Inodes.file sb fs i
  valid : ∀ i < sb.ninodes, st.valid i = (fs.cache i).isSome

theorem Shows.view (good : Good sb fs) : Shows sb fs (view sb fs) :=
  ⟨good, fun _ _ => rfl, fun _ _ => rfl⟩

theorem Shows.set {f : File} {v : Bool} (shows : Shows sb fs st)
    (becomes : Becomes sb i f v fs fs') : Shows sb fs' (st.set i f v) := by
  refine ⟨becomes.good, fun j jnum => ?_, fun j jnum => ?_⟩
  · by_cases mine : j = i
    · subst mine
      rw [becomes.file]
      exact Function.update_self ..
    · rw [(becomes.others j jnum mine).1, ← shows.file j jnum]
      exact Function.update_of_ne mine ..
  · by_cases mine : j = i
    · subst mine
      rw [becomes.valid]
      exact Function.update_self ..
    · rw [(becomes.others j jnum mine).2, ← shows.valid j jnum]
      exact Function.update_of_ne mine ..

/-! ## One call -/

/-- The lock reads the inode into the cache, and the file is the same. -/
theorem Shows.ilock (shows : Shows sb fs st) (inum : i < sb.ninodes)
    (locked : ilock sb fs i = .ok fs') :
    Becomes sb i (Inodes.file sb fs i) true fs fs' ∧ (fs'.inode sb i).type ≠ 0 ∧
      st.file i = Inodes.file sb fs' i ∧ Shows sb fs' (st.set i (st.file i) true) := by
  obtain ⟨becomes, used⟩ := ilock_spec shows.good inum locked
  have same := shows.file i inum
  refine ⟨becomes, used, by rw [same, becomes.file], ?_⟩
  rw [same]
  exact shows.set becomes

theorem Shows.read {n : ℕ} {r : Reply} (shows : Shows sb fs st) (inum : i < sb.ninodes)
    (low : off < 2 ^ 32) (few : n < 2 ^ 32)
    (done : exec devsw sb fs (.read i off n) = .ok (r, fs')) :
    r = (st.exec devsw sb.ninodes (.read i off n)).1 ∧
      Shows sb fs' (st.exec devsw sb.ninodes (.read i off n)).2 := by
  simp only [exec, Fallible.bind_eq_ok, Fallible.pure_eq_ok, Prod.exists, Prod.mk.injEq] at done
  obtain ⟨fs₁, locked, r', fs₂, read, rfl, rfl⟩ := done
  obtain ⟨becomes, _, here, shows₁⟩ := shows.ilock inum locked
  by_cases device : (fs₁.inode sb i).type = tDev
  · have special : (st.file i).type = tDev := by rw [here]; exact device
    have major : (st.file i).major = (fs₁.inode sb i).major := by rw [here]; rfl
    unfold readi at read
    simp only [if_pos device] at read
    simp only [Store.exec, if_pos special, major]
    cases driver : devsw.read (fs₁.inode sb i).major.toNat with
    | none =>
      simp only [driver, Except.ok.injEq, Prod.mk.injEq] at read
      obtain ⟨rfl, rfl⟩ := read
      exact ⟨by simp, shows₁⟩
    | some f =>
      simp only [driver, Except.ok.injEq, Prod.mk.injEq] at read
      obtain ⟨rfl, rfl⟩ := read
      exact ⟨by simp, shows₁⟩
  · have plain : (st.file i).type ≠ tDev := by rw [here]; exact device
    have data : (st.file i).data = content sb fs₁ i := by rw [here]; rfl
    rw [readi_spec becomes.good inum low few device] at read
    simp only [Except.ok.injEq, Prod.mk.injEq] at read
    obtain ⟨rfl, rfl⟩ := read
    simp only [Store.exec, if_neg plain, data]
    exact ⟨trivial, shows₁⟩

theorem Shows.write {r : Reply} (valid : sb.Valid) (shows : Shows sb fs st) (inum : i < sb.ninodes)
    (low : off < 2 ^ 32) (few : src.length < 2 ^ 32)
    (done : exec devsw sb fs (.write i off src) = .ok (r, fs')) :
    r = (st.exec devsw sb.ninodes (.write i off src)).1 ∧
      Shows sb fs' (st.exec devsw sb.ninodes (.write i off src)).2 := by
  simp only [exec, Fallible.bind_eq_ok, Fallible.pure_eq_ok, Prod.exists, Prod.mk.injEq] at done
  obtain ⟨fs₁, locked, r', fs₂, written, rfl, rfl⟩ := done
  obtain ⟨becomes, used, here, shows₁⟩ := shows.ilock inum locked
  by_cases device : (fs₁.inode sb i).type = tDev
  · have special : (st.file i).type = tDev := by rw [here]; exact device
    have major : (st.file i).major = (fs₁.inode sb i).major := by rw [here]; rfl
    unfold writei at written
    simp only [if_pos device] at written
    simp only [Store.exec, if_pos special, major]
    cases driver : devsw.write (fs₁.inode sb i).major.toNat with
    | none =>
      simp only [driver, Except.ok.injEq, Prod.mk.injEq] at written
      obtain ⟨rfl, rfl⟩ := written
      exact ⟨by simp, shows₁⟩
    | some f =>
      simp only [driver, Except.ok.injEq, Prod.mk.injEq] at written
      obtain ⟨rfl, rfl⟩ := written
      exact ⟨by simp, shows₁⟩
  · have plain : (st.file i).type ≠ tDev := by rw [here]; exact device
    have data : (st.file i).data = content sb fs₁ i := by rw [here]; rfl
    have limit : maxFile * bsize < 2 ^ 32 := by decide
    by_cases refused : (fs₁.inode sb i).size.toNat < off ∨ maxFile * bsize < off + src.length
    · -- the sum wraps around only where it is too large anyway
      have same : writei devsw sb fs₁ i off src = .ok (none, fs₁) := by
        unfold writei
        simp only [if_neg device]
        split_ifs with first second
        · rfl
        · rfl
        · exfalso
          have : (off + src.length) % 2 ^ 32 = off + src.length ∨ 2 ^ 32 ≤ off + src.length := by
            by_cases wraps : 2 ^ 32 ≤ off + src.length
            · exact .inr wraps
            · exact .inl (Nat.mod_eq_of_lt (by omega))
          omega
      rw [same] at written
      simp only [Except.ok.injEq, Prod.mk.injEq] at written
      obtain ⟨rfl, rfl⟩ := written
      simp only [Store.exec, if_neg plain, data, length_content, if_pos refused]
      exact ⟨trivial, shows₁⟩
    · obtain ⟨rfl, becomes'⟩ := writei_spec valid becomes.good inum becomes.valid device used
        (by omega) (by omega) written
      simp only [Store.exec, if_neg plain, data, length_content, if_neg refused]
      refine ⟨trivial, ?_⟩
      rw [here]
      exact shows.set (becomes.trans becomes')

/-- A call that returns does what it does to the store, and gives the same reply. -/
theorem Shows.step {e : Call × Reply} (valid : sb.Valid) (shows : Shows sb fs st)
    (step : Step devsw sb fs e fs') :
    e.2 = (st.exec devsw sb.ninodes e.1).1 ∧ Shows sb fs' (st.exec devsw sb.ninodes e.1).2 := by
  obtain ⟨call, reply⟩ := e
  obtain ⟨within, done⟩ := step
  cases call with
  | ialloc type =>
    simp only [exec, Fallible.bind_eq_ok, Fallible.pure_eq_ok, Prod.exists, Prod.mk.injEq] at done
    obtain ⟨i, fs₁, allocated, rfl, rfl⟩ := done
    obtain ⟨found, becomes⟩ := ialloc_spec valid shows.good allocated
    have inum : i < sb.ninodes := List.mem_range.1 (List.mem_of_find?_eq_some found)
    have same : ((List.range sb.ninodes).find? fun i =>
        decide (1 ≤ i) && decide ((st.file i).type = 0)) = some i := by
      rw [← found]
      apply List.find?_congr
      intro j inside
      rw [shows.file j (List.mem_range.1 inside)]
    simp only [Store.exec, same, shows.valid i inum]
    exact ⟨trivial, shows.set becomes⟩
  | update i major minor nlink =>
    simp only [exec, Fallible.bind_eq_ok, Fallible.pure_eq_ok, Prod.mk.injEq] at done
    obtain ⟨fs₁, locked, rfl, rfl⟩ := done
    obtain ⟨becomes, used, here, _⟩ := shows.ilock within locked
    have saved : Saved sb i { fs₁.inode sb i with major, minor, nlink } fs₁ _ := saved_iupdate
    have later := saved_spec valid becomes.good within saved rfl rfl used
    refine ⟨rfl, ?_⟩
    simp only [Store.exec, here]
    exact shows.set (becomes.trans later)
  | read i off n => exact shows.read within.1 within.2.1 within.2.2 done
  | write i off src => exact shows.write valid within.1 within.2.1 within.2.2 done
  | iput i last =>
    simp only [exec, Fallible.bind_eq_ok, Fallible.pure_eq_ok, Prod.mk.injEq] at done
    obtain ⟨fs₁, put, rfl, rfl⟩ := done
    have nlink : (st.file i).nlink = (fs.inode sb i).nlink := by
      rw [shows.file i within]
      rfl
    simp only [Store.exec, shows.valid i within, nlink]
    by_cases freed : (fs.cache i).isSome = true ∧ (fs.inode sb i).nlink = 0 ∧ last = true
    · obtain ⟨cached, unlinked, rfl⟩ := freed
      obtain ⟨fs₂, done, becomes⟩ := iput_spec valid shows.good within cached unlinked
      rw [done] at put
      simp only [Except.ok.injEq] at put
      subst put
      rw [if_pos ⟨cached, unlinked, rfl⟩, shows.file i within]
      exact ⟨rfl, shows.set becomes⟩
    · have same : iput sb fs i last = .ok fs := by
        unfold iput
        cases cached : fs.cache i with
        | none => rfl
        | some ip =>
          have inode : fs.inode sb i = ip := by
            rw [Fs.inode, cached]
            rfl
          rw [inode, cached] at freed
          simp only [Option.isSome_some, true_and] at freed
          simp only [if_neg freed]
      rw [same] at put
      simp only [Except.ok.injEq] at put
      subst put
      rw [if_neg freed]
      exact ⟨rfl, shows⟩
  | evict i =>
    simp only [exec, Fallible.pure_eq_ok, Prod.mk.injEq] at done
    obtain ⟨rfl, rfl⟩ := done
    have becomes := forget_spec shows.good within
    rw [← shows.file i within] at becomes
    exact ⟨rfl, shows.set becomes⟩

theorem good_of_run (valid : sb.Valid) (good : Good sb fs) (run : Run (Step devsw sb) fs l fs') :
    Good sb fs' :=
  run.invariant good fun _ _ _ good step => ((Shows.view good).step valid step).2.good

/-! ## A disk without files -/

/-- A disk with no inodes in use, whose free map shows the blocks before the data as used. -/
def format (sb : Superblock) : Fs :=
  (List.range sb.datastart).foldl
    (fun fs b => fs.put (sb.bblock b) ((fs.disk (sb.bblock b)).setBit (b % bpb)))
    ⟨fun _ _ => 0, fun _ => none, []⟩

/-- The free map while it is written. -/
theorem format_upto (valid : sb.Valid) {n : ℕ} (le : n ≤ sb.datastart) {t : Fs}
    (done : (List.range n).foldl
      (fun fs b => fs.put (sb.bblock b) ((fs.disk (sb.bblock b)).setBit (b % bpb)))
      ⟨fun _ _ => 0, fun _ => none, []⟩ = t) :
    (∀ i, t.cache i = none) ∧ (∀ c, t.marked sb c = decide (c < n)) ∧
      ∀ c, c < sb.bmapstart ∨ sb.datastart ≤ c → t.disk c = fun _ => 0 := by
  induction n generalizing t with
  | zero =>
    subst done
    refine ⟨fun _ => rfl, fun c => ?_, fun _ _ => rfl⟩
    simp [Fs.marked, Bytes.bit]
  | succ n ih =>
    rw [List.range_succ, List.foldl_append] at done
    obtain ⟨cache, marks, zeros⟩ := ih (by omega) rfl
    subst done
    refine ⟨cache, fun c => ?_, fun c region => ?_⟩
    · refine (Fs.marked_put_setBit _).trans ?_
      rw [marks c, ← Bool.decide_or]
      exact decide_eq_decide.2 (by omega)
    · have data := valid.data
      have low := Valid.le_bblock sb n
      have below : n < sb.size := by omega
      have high := Valid.bblock_lt below
      refine (Fs.disk_put_of_ne _ _ (by omega)).trans (zeros c region)

theorem format_good (valid : sb.Valid) : Good sb (format sb) := by
  obtain ⟨cache, marks, zeros⟩ := format_upto valid le_rfl (t := format sb) rfl
  have load : ∀ i < sb.ninodes, (format sb).load sb i = Inode.zero := by
    intro i inum
    rw [Fs.load, zeros _ (.inl (valid.iblock_lt inum))]
    unfold Inode.read
    simp only [Bytes.word_zero]
    rfl
  have inode : ∀ i < sb.ninodes, (format sb).inode sb i = Inode.zero := by
    intro i inum
    rw [Fs.inode, cache, Option.getD_none, load i inum]
  have slots : ∀ i < sb.ninodes, ∀ p, slot sb (format sb) i p = 0 := by
    intro i inum p
    have address : ∀ q, Inode.zero.addr q = 0 := by
      intro q
      unfold Inode.addr
      split_ifs <;> rfl
    unfold slot
    rw [inode i inum, address, address]
    simp
  refine ⟨⟨Nat.succ_pos _, ?_, ?_, ?_⟩, fun i inum => ⟨?_, ?_, ?_, ?_⟩⟩
  · exact fun x some => absurd (slots x.1 x.1.isLt x.2) some
  · exact fun x _ some _ => absurd (slots x.1 x.1.isLt x.2) some
  · intro b _
    rw [marks, decide_eq_true_eq]
    refine ⟨.inl, ?_⟩
    rintro (low | ⟨x, here⟩)
    · exact low
    · rw [← here, slots x.1 x.1.isLt]
      exact Nat.succ_pos _
  · rw [inode i inum]
    exact Nat.zero_le _
  · intro k below
    rw [inode i inum] at below
    exact absurd below (Nat.not_lt_zero k)
  · intro ip cached
    rw [cache] at cached
    exact absurd cached (by simp)
  · intro _
    exact ⟨by rw [inode i inum]; rfl, fun p _ => slots i inum p⟩

/-- The state after a call, if it returns with this reply. -/
def next (devsw : Devices) (sb : Superblock) (fs : Fs) (e : Call × Reply) : Option Fs :=
  match exec devsw sb fs e.1 with
  | .ok r => if e.1.Within sb ∧ r.1 = e.2 then some r.2 else none
  | .error _ => none

theorem step_of_next {e : Call × Reply} (taken : next devsw sb fs e = some fs') :
    Step devsw sb fs e fs' := by
  unfold next at taken
  cases done : exec devsw sb fs e.1 with
  | error e' => simp [done] at taken
  | ok r =>
    simp only [done] at taken
    split_ifs at taken with meets
    simp only [Option.some.injEq] at taken
    exact ⟨meets.1, by rw [done, ← meets.2, ← taken]⟩

/-- A disk of eight blocks, four of them for data. -/
def tiny : Superblock := ⟨8, 2, 2, 3⟩

def noDevices : Devices := ⟨fun _ => none, fun _ => none⟩

/-- A file is created, written, read, and freed. -/
def session : List (Call × Reply) :=
  [(.ialloc tFile, .inum 1), (.write 1 0 [104, 105], .count (some 2)), (.evict 1, .done),
    (.read 1 1 9, .data (some [105])), (.iput 1 true, .done)]

theorem session_run {n : ℕ} {P : List (Event Fs (Call × Reply)) × Fs → Prop} [DecidablePred P]
    (meets : (replay (next noDevices tiny) (format tiny) (session.take n)).any
      fun r => decide (P r)) :
    ∃ l fs', Run (Step noDevices tiny) (format tiny) l fs' ∧ P (l, fs') := by
  obtain ⟨l, fs', run, holds⟩ := exists_run_of_replay _ _ _ meets
  exact ⟨l, fs', run.mono fun _ _ _ taken => step_of_next taken, holds⟩

/-! ## Any number of calls -/

/-- The replies of the file system, whatever the calls, are those of a store of files, and so are
the files in the end. -/
theorem files_of_run (valid : sb.Valid) (good : Good sb fs) (run : Run (Step devsw sb) fs l fs') :
    l.map (fun e => e.label.2) =
        (answers (Store.exec devsw sb.ninodes) (view sb fs) (l.map fun e => e.label.1)).1 ∧
      ∀ i < sb.ninodes, file sb fs' i =
        (answers (Store.exec devsw sb.ninodes) (view sb fs) (l.map fun e => e.label.1)).2.file i := by
  obtain ⟨replies, shows⟩ := run.answers_eq (R := Shows sb) (Shows.view good)
    fun _ _ _ _ shows step => shows.step valid step
  exact ⟨replies, fun i inum => (shows.file i inum).symm⟩

theorem files_of_run_session :
    ∃ l fs', Run (Step noDevices tiny) (format tiny) l fs' ∧
      l.map (fun e => e.label.2) = session.map Prod.snd ∧
      (answers (Store.exec noDevices tiny.ninodes) (view tiny (format tiny))
        (l.map fun e => e.label.1)).1 = session.map Prod.snd ∧
      (answers (Store.exec noDevices tiny.ninodes) (view tiny (format tiny))
        (l.map fun e => e.label.1)).2.file 1 = ⟨0, 0, 0, 0, []⟩ := by
  obtain ⟨l, fs', run, replies, freed⟩ := session_run (n := 5)
    (P := fun r => r.1.map (fun e => e.label.2) = session.map Prod.snd ∧
      file tiny r.2 1 = ⟨0, 0, 0, 0, []⟩) (by decide +kernel)
  obtain ⟨same, files⟩ := files_of_run (by decide) (format_good (by decide)) run
  exact ⟨l, fs', run, replies, by rw [← same, replies], by rw [← files 1 (by decide), freed]⟩

/-- Every block in use stands in one place, the free map shows exactly the blocks in use, files have
all their blocks, and the inode cache agrees with the disk. -/
theorem blocks_of_run (valid : sb.Valid) (good : Good sb fs) (run : Run (Step devsw sb) fs l fs') :
    (∀ i < sb.ninodes, ∀ p < nslots, slot sb fs' i p ≠ 0 →
        sb.datastart ≤ slot sb fs' i p ∧ slot sb fs' i p < sb.size ∧
        ∀ j < sb.ninodes, ∀ q < nslots, slot sb fs' i p = slot sb fs' j q → i = j ∧ p = q) ∧
      (∀ b < sb.size, fs'.marked sb b = true ↔
        b < sb.datastart ∨ ∃ i < sb.ninodes, ∃ p < nslots, slot sb fs' i p = b) ∧
      ∀ i < sb.ninodes,
        (∀ k < (fs'.inode sb i).size.toNat, slot sb fs' i (slotOf (k / bsize)) ≠ 0) ∧
        fs'.load sb i = fs'.inode sb i := by
  have good' := good_of_run valid good run
  refine ⟨fun i inum p place some => ?_, fun b below => ?_, fun i inum => ?_⟩
  · obtain ⟨low, high⟩ := good'.owned.range inum place some
    exact ⟨low, high, fun j jnum q qlace same => good'.owned.inj inum place jnum qlace some same⟩
  · rw [Ledger.marked good'.owned b below]
    apply or_congr_right
    constructor
    · rintro ⟨x, here⟩
      exact ⟨x.1, x.1.isLt, x.2, x.2.isLt, here⟩
    · rintro ⟨i, inum, p, place, here⟩
      exact ⟨(⟨i, inum⟩, ⟨p, place⟩), here⟩
  · exact ⟨(good'.each i inum).mapped, (good'.each i inum).load⟩

theorem blocks_of_run_session :
    ∃ l fs', Run (Step noDevices tiny) (format tiny) l fs' ∧ slot tiny fs' 1 0 = 4 ∧
      (∀ j < tiny.ninodes, ∀ q < nslots, 4 = slot tiny fs' j q → 1 = j ∧ 0 = q) ∧
      fs'.marked tiny 4 = true := by
  obtain ⟨l, fs', run, here⟩ := session_run (n := 2) (P := fun r => slot tiny r.2 1 0 = 4)
    (by decide +kernel)
  obtain ⟨placed, marks, _⟩ := blocks_of_run (by decide) (format_good (by decide)) run
  have once := (placed 1 (by decide) 0 (by decide) (by rw [here]; decide)).2.2
  rw [here] at once
  exact ⟨l, fs', run, here, once, (marks 4 (by decide)).2 (.inr ⟨1, by decide, 0, by decide, here⟩)⟩

end SsuOs.Xv6Fs.Inodes
