import SsuOs.Ssufs.ClosedHandles

/-!
# Counts that are not positive

The byte loops of `ssufs_read` and `ssufs_write` stop when `curr == nbytes`, tested after `curr` has
been increased. A count of 0 or less is never met: the loops go on over all slots that they reach.
`noEffect_iff_idle` says in which states such a call happens to do nothing.
-/

namespace SsuOs.Ssufs

open Prog (Ensures)

/-! ## Slots that a read reaches -/

section Reading

variable {h : Fin 20} {tmp : Inode} {nbytes : Int32}

theorem readBytes_gt (block : Block) (n : ℤ) (k : ℕ) (buf : List Byte) :
    buf.length < (readBytes block n (k + 1) buf).1.length := by
  induction k generalizing buf with
  | zero =>
    rw [readBytes]
    split_ifs <;> simp [readBytes]
  | succ k ih =>
    rw [readBytes]
    split_ifs
    · simp
    · refine lt_trans ?_ (ih _)
      simp

section Disk

variable {σ : Type} [Disk σ]

/-- A slot with a block at the offset: bytes are stored. -/
theorem readLoop_gt {l : List (Fin 4)} {j : Fin 4} {fOffset : ℤ} {buf : List Byte}
    (rest : ∀ buf (s : σ), Ensures (fun _ => True) (readLoop h tmp nbytes l 0 buf) s
      fun r _ => buf.length ≤ r.2.length)
    (touches : 0 ≤ fOffset ∧ fOffset < 64 ∧ tmp.directBlocks j ≠ -1) (s : σ) :
    Ensures (fun _ => True) (readLoop h tmp nbytes (j :: l) fOffset buf) s
      fun r _ => buf.length < r.2.length := by
  rw [readLoop, if_pos touches]
  refine .bind (.of_forall (fun _ => trivial) fun block t => ?_)
  obtain ⟨k, left⟩ : ∃ k, 64 - fOffset.toNat = k + 1 := ⟨63 - fOffset.toNat, by omega⟩
  have more := readBytes_gt block nbytes.toInt k buf
  rw [← left] at more
  generalize readBytes block nbytes.toInt (64 - fOffset.toNat) buf = result at more
  obtain ⟨stored, done⟩ := result
  dsimp only
  split_ifs
  · exact .bind (.of_forall (fun _ => trivial) fun _ _ => .pure more)
  · exact (rest stored t).imp fun r _ least => lt_of_lt_of_le more least

/-- Nothing that has been stored is taken back. -/
theorem readLoop_ge (l : List (Fin 4)) (fOffset : ℤ) (buf : List Byte) (s : σ) :
    Ensures (fun _ => True) (readLoop h tmp nbytes l fOffset buf) s
      fun r _ => buf.length ≤ r.2.length := by
  induction l generalizing fOffset buf s with
  | nil => exact .pure le_rfl
  | cons j rest ih =>
    by_cases touches : 0 ≤ fOffset ∧ fOffset < 64 ∧ tmp.directBlocks j ≠ -1
    · exact (readLoop_gt (ih 0) touches s).imp fun _ _ => le_of_lt
    · rw [readLoop, if_neg touches]
      exact ih _ _ s

theorem readLoop_none {l : List (Fin 4)} (empty : ∀ j ∈ l, tmp.directBlocks j = -1)
    (buf : List Byte) (s : σ) : readLoop h tmp nbytes l 0 buf s = .ok ((-1, buf), s) := by
  induction l with
  | nil => rfl
  | cons j rest ih =>
    rw [List.forall_mem_cons] at empty
    rw [readLoop, if_neg (by simp [empty.1]), if_neg (by simp)]
    exact ih empty.2

theorem readLoop_some {l : List (Fin 4)} {j : Fin 4} (member : j ∈ l)
    (nonempty : tmp.directBlocks j ≠ -1) (buf : List Byte) (s : σ) :
    Ensures (fun _ => True) (readLoop h tmp nbytes l 0 buf) s
      fun r _ => buf.length < r.2.length := by
  induction l with
  | nil => cases member
  | cons j' rest ih =>
    by_cases here : tmp.directBlocks j' = -1
    · have later : j ∈ rest := (List.mem_cons.1 member).resolve_left fun same =>
        nonempty (same ▸ here)
      rw [readLoop, if_neg (by simp [here]), if_neg (by simp)]
      exact ih later
    · exact readLoop_gt (readLoop_ge rest 0) ⟨le_rfl, by norm_num, here⟩ s

end Disk

/-- A read at offset `o` gets to slot `j`, if the slots before it have no blocks: `f_offset` is
taken to 0 only if it is a multiple of the block size. -/
def Reaches (o : ℤ) (j : Fin 4) : Prop := 0 ≤ o ∧ o < 64 * (j + 1) ∧ (64 * j ≤ o ∨ o % 64 = 0)

instance (o : ℤ) (j : Fin 4) : Decidable (Reaches o j) := inferInstanceAs (Decidable (_ ∧ _))

section Offset

variable {o : ℤ}

theorem mem_drop_finRange {j j' : Fin 4} : j' ∈ (List.finRange 4).drop (j + 1) ↔ j < j' := by
  revert j j'
  decide

theorem readLoop_nothing (idle : ∀ j, Reaches o j → tmp.directBlocks j = -1) (s : Machine) :
    readLoop h tmp nbytes (List.finRange 4) o [] s = .ok ((-1, []), s) := by
  by_cases inside : 0 ≤ o ∧ o < 256
  · obtain ⟨j, low, high⟩ := exists_slot inside.1 inside.2
    rw [readLoop_empty low high (idle j ⟨inside.1, high, .inl low⟩)]
    split_ifs with start
    · refine readLoop_none (fun j' member => idle j' ⟨inside.1, ?_, .inr (by omega)⟩) [] s
      have later := Fin.lt_def.1 (mem_drop_finRange.1 member)
      omega
    · rfl
  · exact readLoop_outside (by simp; omega) s

/-- A block in a slot that the read gets to: bytes are stored. -/
theorem readLoop_something {j : Fin 4} (reaches : Reaches o j) (nonempty : tmp.directBlocks j ≠ -1)
    (s : Machine) :
    Ensures (fun _ => True) (readLoop h tmp nbytes (List.finRange 4) o []) s
      fun r _ => r.2 ≠ [] := by
  obtain ⟨nonneg, high, start⟩ := reaches
  obtain ⟨j₀, low₀, high₀⟩ := exists_slot (o := o) nonneg (by omega)
  refine Ensures.imp (Q := fun r _ => ([] : List Byte).length < r.2.length) ?_
    fun r _ => List.ne_nil_of_length_pos
  by_cases first : tmp.directBlocks j₀ = -1
  · have later : j₀ < j := by
      refine lt_of_le_of_ne (Fin.le_def.2 (by omega)) fun same => nonempty (same ▸ first)
    refine .of_eq ((readLoop_empty low₀ high₀ first s).trans (if_pos ?_))
      (readLoop_some (mem_drop_finRange.2 later) nonempty [] s)
    rw [Fin.lt_def] at later
    omega
  · refine .of_eq (readLoop_drop j₀ (by simp) low₀ s) ?_
    rw [drop_finRange]
    exact readLoop_gt (readLoop_ge _ 0) ⟨by omega, by omega, first⟩ s

end Offset

end Reading

/-! ## Calls without effect -/

/-- A write and a read of `nbytes` bytes change nothing on the disk and in the table of open files;
the write takes no byte from the buffer of the caller, and the read stores none. -/
structure NoEffect (s : Machine) (h : Fin 20) (nbytes : Int32) : Prop where
  write : ∀ buf, ∃ r, Refused s (ssufsWriteCount h buf nbytes s) (r, 0)
  read : ∃ r, Refused s (ssufsRead h nbytes s) (r, [])

theorem NoEffect.write_refused {s : Machine} {h : Fin 20} {nbytes : Int32}
    (none : NoEffect s h nbytes) (buf : ℕ → Byte) :
    ∃ r, Refused s (ssufsWrite h buf nbytes s) r := by
  obtain ⟨r, refused⟩ := none.write buf
  exact ⟨r, refused_of_count refused⟩

/-- The write is refused for its size, or the slot at the offset is empty and there is no free
block, or the offset lies behind the slots. The read is refused for its size, or there is no block
in the slots that it gets to. -/
structure Idle (s : Machine) (h : Fin 20) (i : Fin 8) (nbytes : Int32) : Prop where
  write : (256 : Int32) < (s.store.inode i).fileSize + nbytes ∨
    ∀ j : Fin 4, 64 * (j : ℤ) ≤ (s.fileHandles h).offset.toInt →
      (s.fileHandles h).offset.toInt < 64 * (j + 1) →
        (s.store.inode i).directBlocks j = -1 ∧ ∀ b, s.store.flag b ≠ dataBlockFree
  read : (s.store.inode i).fileSize < (s.fileHandles h).offset + nbytes ∨
    ∀ j, Reaches (s.fileHandles h).offset.toInt j → (s.store.inode i).directBlocks j = -1

section Open

variable {s : Machine} {h : Fin 20} {i : Fin 8} {nbytes : Int32} (long : 320 ≤ s.disk.length)
  (selected : index 8 (s.fileHandles h).inodeNumber = some i)

include long selected

theorem reads_open (junk : ℕ → Byte) :
    ssufsReadInode (s.fileHandles h).inodeNumber { s with junk := junk } =
      .ok (s.store.inode i, { s with pos := 64 + 32 * i + 32, junk := junk }) :=
  ssufsReadInode_apply selected (by change _ ≤ s.disk.length; omega)

theorem Idle.noEffect (idle : Idle s h i nbytes) : NoEffect s h nbytes where
  read := by
    refine ⟨-1, { s with pos := 64 + 32 * i + 32 }, ?_, rfl, rfl⟩
    rw [ssufsRead_of_inode (reads_open long selected s.junk)]
    rcases idle.read with refused | none
    · rw [if_pos refused]
    · rw [readLoop_nothing none, ite_self]
  write _ := ⟨-1, ssufsWriteCount_refused (reads_open long selected) (by omega) idle.write⟩

theorem NoEffect.idle (none : NoEffect s h nbytes) : Idle s h i nbytes where
  read := by
    obtain ⟨r, t, reads, -⟩ := none.read
    rw [ssufsRead_of_inode (reads_open long selected s.junk)] at reads
    split_ifs at reads with refused
    · exact .inl refused
    · refine .inr fun j reaches => ?_
      by_contra nonempty
      exact (readLoop_something reaches nonempty _).post reads rfl
  write := by
    obtain ⟨r, t, writes, -⟩ := none.write fun _ => 0
    refine or_iff_not_imp_left.2 fun small j low high => ?_
    refine ssufsWriteCount_slot (Q := fun r _ => 0 < r.2) (reads_open long selected) (by omega) writes
      small low high (fun filled t inside start => ?_) (Nat.lt_irrefl 0)
    rw [← start]
    exact countSlot_gt (countLoop_ge _) inside t

end Open

/-- In every state that calls of any kind can reach from a formatted disk, for every open handle and
every count, positive or not: a write and a read of that count have no effect exactly if the state
keeps their byte loops from starting. -/
theorem noEffect_iff_idle {s s₀ t : Machine} {l : List (Event Machine (Call × Reply))}
    (format : ssufsFormatDisk s = .ok ((), s₀)) (run : Run (UserStep fun _ _ => True) s₀ l t)
    {h : Fin 20} (opened : (t.fileHandles h).inodeNumber ≠ -1) (nbytes : Int32) :
    ∃ i, index 8 (t.fileHandles h).inodeNumber = some i ∧
      (NoEffect t h nbytes ↔ Idle t h i nbytes) := by
  obtain ⟨long, selects⟩ := reachable_selects format run
  obtain ⟨i, selected⟩ := selects h opened
  exact ⟨i, selected, fun none => none.idle long selected, fun idle => idle.noEffect long selected⟩

/-- At the end of a file of 256 bytes, a count of 0 has no effect. -/
theorem noEffect_iff_idle_atEnd :
    ∃ s₀ l t, ssufsFormatDisk (bootWith 0) = .ok ((), s₀) ∧
      Run (UserStep fun _ _ => True) s₀ l t ∧ l.map (fun e => e.label.1) =
        [.create (letter 0), .openFile (letter 0), .write 0 (fun _ => 65) 256] ∧
      (t.fileHandles 0).inodeNumber ≠ -1 ∧ NoEffect t 0 0 := by
  have ends : (replay (fun _ _ => True)
      [.create (letter 0), .openFile (letter 0), .write 0 (fun _ => 65) 256]
      (Store.fresh fun _ => 0)).map
        (fun v => ((v.fileHandles 0).inodeNumber, (v.fileHandles 0).offset)) = some (0, 256) := by
    decide +kernel
  obtain ⟨v, replays, values⟩ := Option.map_eq_some_iff.1 ends
  obtain ⟨s₀, l, t, format, run, made, rfl, -⟩ := run_of_replay_fresh 0 replays
  have number : (t.fileHandles 0).inodeNumber = 0 := congrArg Prod.fst values
  have offset : (t.fileHandles 0).offset.toInt = 256 :=
    congrArg (fun p : Int32 × Int32 => p.2.toInt) values
  have opened : (t.fileHandles 0).inodeNumber ≠ -1 := by
    rw [number]
    decide
  obtain ⟨i, -, same⟩ := noEffect_iff_idle format run opened 0
  refine ⟨s₀, l, t, format, run, made, opened, same.2 ⟨.inr fun j _ high => ?_, .inr ?_⟩⟩
  · omega
  · rintro j ⟨-, high, -⟩
    omega

/-- Right after `ssufs_create` and `ssufs_open`, a write of 0 bytes has an effect: the slot at
offset 0 is empty and there are free blocks. -/
theorem noEffect_fails_empty :
    ¬ ∀ s s₀ l t, ssufsFormatDisk s = .ok ((), s₀) → Run (UserStep fun _ _ => True) s₀ l t →
      ∀ h, (t.fileHandles h).inodeNumber ≠ -1 → ∀ nbytes : Int32, nbytes.toInt ≤ 0 →
        NoEffect t h nbytes := by
  intro holds
  have ends : (replay (fun _ _ => True) [.create (letter 0), .openFile (letter 0)]
      (Store.fresh fun _ => 0)).map (fun v => ((v.fileHandles 0).inodeNumber,
        (v.fileHandles 0).offset, (v.inode 0).fileSize, v.flag 0)) =
          some (0, 0, 0, dataBlockFree) := by
    decide +kernel
  obtain ⟨v, replays, values⟩ := Option.map_eq_some_iff.1 ends
  obtain ⟨s₀, l, t, format, run, -, rfl, long⟩ := run_of_replay_fresh 0 replays
  simp only [Prod.mk.injEq] at values
  obtain ⟨number, offset, size, free⟩ := values
  have number : (t.fileHandles 0).inodeNumber = 0 := number
  have offset : (t.fileHandles 0).offset.toInt = 0 := congrArg Int32.toInt offset
  have opened : (t.fileHandles 0).inodeNumber ≠ -1 := by
    rw [number]
    decide
  have selected : index 8 (t.fileHandles 0).inodeNumber = some 0 := by
    rw [number]
    decide
  have idle := (holds _ s₀ l t format run _ opened 0 (by decide)).idle long selected
  rcases idle.write with refused | shut
  · rw [size] at refused
    exact absurd refused (by decide)
  · obtain ⟨-, full⟩ := shut 0 (by rw [offset]; decide) (by rw [offset]; decide)
    exact full _ free

example : ((do
    ssufsFormatDisk
    let _ ← ssufsCreate (letter 0)
    let h ← ssufsOpen (letter 0)
    let written ← ssufsWriteCount 0 (fun _ => 65) 0
    pure (h, written) : Ssu Machine _) (bootWith 0)).toOption.map Prod.fst =
      some (0, -1, 256) := by
  decide +kernel

end SsuOs.Ssufs
