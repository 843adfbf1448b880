import SsuOs.Xv6Fs.FileRuns
import SsuOs.Xv6Fs.LogSpace

/-!
# Room in the log

How many blocks a piece of `filewrite` gives to `log_write`, against what one operation may log.
-/

namespace SsuOs.Xv6Fs.Inodes

open Superblock ByteFile

variable {sb : Superblock} {fs fs' : Fs} {i off : ℕ} {src : List UInt8} {devsw : Devices}
  {l : List (Event Fs (Call × Reply))}

/-- The slots of a write of a few blocks. -/
theorem Span.mem {p n : ℕ} (span : Span off n p) (few : n ≤ 3 * bsize) :
    p ∈ insert ndirect ((Finset.range 4).image fun d => slotOf (off / bsize + d)) := by
  rw [Finset.mem_insert, Finset.mem_image]
  obtain rfl | ⟨k, low, high, rfl⟩ := span
  · exact .inl rfl
  · refine .inr ⟨k / bsize - off / bsize, ?_, ?_⟩
    · rw [Finset.mem_range]
      unfold bsize at few ⊢
      omega
    · congr 1
      have le : off / bsize ≤ k / bsize := Nat.div_le_div_right low
      omega

/-- What `writei` gives to `log_write`: the inode, and blocks of the free map and of the write. -/
theorem writei_logged {r : Option ℕ} (valid : sb.Valid) (owned : Owned sb fs)
    (inum : i < sb.ninodes) (low : off < 2 ^ 32) (few : src.length < 2 ^ 32)
    (done : writei devsw sb fs i off src = .ok (r, fs')) :
    ∃ fs₁, ∀ c ∈ fs'.logged,
      c ∈ fs.logged ∨ c = sb.iblock i ∨ Touched sb i (Span off src.length) fs₁ c := by
  have limit : maxFile * bsize < 2 ^ 32 := by decide
  unfold writei at done
  by_cases device : (fs.inode sb i).type = tDev
  · simp only [if_pos device] at done
    cases driver : devsw.write (fs.inode sb i).major.toNat <;>
      simp only [driver, Except.ok.injEq, Prod.mk.injEq] at done <;>
      exact ⟨fs, fun c inside => .inl (done.2 ▸ inside)⟩
  · simp only [if_neg device] at done
    split_ifs at done with outside large
    · simp only [Except.ok.injEq, Prod.mk.injEq] at done
      exact ⟨fs, fun c inside => .inl (done.2 ▸ inside)⟩
    · simp only [Except.ok.injEq, Prod.mk.injEq] at done
      exact ⟨fs, fun c inside => .inl (done.2 ▸ inside)⟩
    · have fits : off + src.length ≤ maxFile * bsize := by
        have exact : (off + src.length) % 2 ^ 32 = off + src.length ∨
            off + src.length = (off + src.length) % 2 ^ 32 + 2 ^ 32 := by omega
        omega
      simp only [Fallible.bind_eq_ok] at done
      obtain ⟨fs₁, looped, rest⟩ := done
      have writes : Writes sb i off src (Span off src.length) fs fs₁ :=
        writeLoop_spec valid owned inum le_rfl fits (fun _ span => span) looped
      refine ⟨fs₁, fun c inside => ?_⟩
      split_ifs at rest
      · simp only [Fallible.pure_eq_ok, Prod.mk.injEq] at rest
        obtain ⟨_, rfl⟩ := rest
        rcases List.mem_cons.1 inside with rfl | before
        · exact .inr (.inl rfl)
        · exact (writes.logged c before).imp_right .inr
      · simp only [Fallible.pure_eq_ok, Prod.mk.injEq] at rest
        obtain ⟨_, rfl⟩ := rest
        exact (writes.logged c inside).imp_right .inr

theorem ilock_logged (done : ilock sb fs i = .ok fs') : fs'.logged = fs.logged := by
  unfold ilock at done
  cases cached : fs.cache i with
  | some ip =>
    simp only [cached, Except.ok.injEq] at done
    rw [done]
  | none =>
    simp only [cached] at done
    split_ifs at done
    simp only [Except.ok.injEq] at done
    rw [← done]
    rfl

/-- `max` of `filewrite`: the longest piece that it writes in one operation. -/
def maxPiece : ℕ := (maxOpBlocks - 1 - 1 - 2) / 2 * 512

/-- A piece of `filewrite` logs its inode, a block of the free map, four blocks of the file and the
one with their addresses, on a disk with one block for the free map. A log of `LOGSIZE` blocks has
room for that many from each operation. -/
theorem logged_of_run {fs'' : Fs} {r : Reply} (valid : sb.Valid) (good : Good sb fs)
    (run : Run (Step devsw sb) fs l fs') (map : sb.size < bpb)
    (within : (Call.write i off src).Within sb) (piece : src.length ≤ maxPiece)
    (done : exec devsw sb { fs' with logged := [] } (.write i off src) = .ok (r, fs'')) :
    fs''.logged.toFinset.card ≤ 7 ∧
      ∀ g : Log.Geometry, logSize ≤ g.size → fs''.logged.toFinset.card ≤ g.share := by
  have good' := good_of_run valid good run
  obtain ⟨inum, low, short⟩ := within
  have same : Becomes sb i (file sb fs' i) (fs'.cache i).isSome fs' { fs' with logged := [] } := by
    refine good'.recache inum rfl ?_ ?_ rfl
    · exact fun _ _ => rfl
    · exact (good'.each i inum).synced
  have fresh := same.good
  simp only [exec, Fallible.bind_eq_ok, Fallible.pure_eq_ok, Prod.exists, Prod.mk.injEq] at done
  obtain ⟨fs₁, locked, r', fs₂, written, _, rfl⟩ := done
  obtain ⟨becomes, _⟩ := ilock_spec fresh inum locked
  obtain ⟨fs₃, logged⟩ := writei_logged valid becomes.good.owned inum low short written
  rw [ilock_logged locked] at logged
  have subset : fs₂.logged.toFinset ⊆ insert (sb.iblock i) (insert sb.bmapstart
      ((insert ndirect ((Finset.range 4).image fun d => slotOf (off / bsize + d))).image
        (slot sb fs₃ i))) := by
    intro c inside
    rw [Finset.mem_insert, Finset.mem_insert]
    rcases logged c (List.mem_toFinset.1 inside) with none | here | ⟨d, below, rfl⟩ | touched
    · exact absurd none (by simp)
    · exact .inl here
    · refine .inr (.inl ?_)
      unfold bblock
      rw [Nat.div_eq_of_lt (by omega), Nat.zero_add]
    · obtain ⟨p, _, span, here, _⟩ := touched
      exact .inr (.inr (Finset.mem_image.2 ⟨p, span.mem piece, here⟩))
  have few : fs₂.logged.toFinset.card ≤ 7 := by
    calc fs₂.logged.toFinset.card
        ≤ _ := Finset.card_le_card subset
      _ ≤ ((insert ndirect ((Finset.range 4).image fun d => slotOf (off / bsize + d))).image
            (slot sb fs₃ i)).card + 1 + 1 :=
          (Finset.card_insert_le _ _).trans (Nat.succ_le_succ (Finset.card_insert_le _ _))
      _ ≤ (insert ndirect ((Finset.range 4).image fun d => slotOf (off / bsize + d))).card + 1 + 1 :=
          Nat.succ_le_succ (Nat.succ_le_succ Finset.card_image_le)
      _ ≤ ((Finset.range 4).image fun d => slotOf (off / bsize + d)).card + 1 + 1 + 1 :=
          Nat.succ_le_succ (Nat.succ_le_succ (Finset.card_insert_le _ _))
      _ ≤ 4 + 1 + 1 + 1 := by
          have := Finset.card_image_le (s := Finset.range 4) (f := fun d => slotOf (off / bsize + d))
          rw [Finset.card_range] at this
          omega
  refine ⟨few, fun g room => few.trans (Log.Geometry.lt_share.2 ⟨by decide, ?_⟩)⟩
  simp only [logSize, maxOpBlocks] at room ⊢
  omega

theorem logged_of_run_session :
    ∃ l fs' fs'' r, Run (Step noDevices tiny) (format tiny) l fs' ∧
      exec noDevices tiny { fs' with logged := [] } (.write 1 0 [104, 105]) = .ok (r, fs'') ∧
      fs''.logged.toFinset.card ≤ 7 := by
  obtain ⟨l, fs', run, returns⟩ := session_run (n := 1)
    (P := fun r => (exec noDevices tiny { r.2 with logged := [] }
      (.write 1 0 [104, 105])).toOption.isSome = true) (by decide +kernel)
  cases done : exec noDevices tiny { fs' with logged := [] } (.write 1 0 [104, 105]) with
  | error e => simp [done, Except.toOption] at returns
  | ok r =>
    refine ⟨l, fs', r.2, r.1, run, done, ?_⟩
    exact (logged_of_run (by decide) (format_good (by decide)) run (by decide) (by decide)
      (by decide) done).1

end SsuOs.Xv6Fs.Inodes
