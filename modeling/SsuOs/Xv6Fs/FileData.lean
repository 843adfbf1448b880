import SsuOs.Xv6Fs.Files

/-!
# Reading and writing files

The loops of `readi` and `writei`, block by block, read and write a range of the bytes of a file.
-/

namespace SsuOs.Xv6Fs.Inodes

open Superblock

variable {sb : Superblock} {fs fs' : Fs} {i j b p off n fuel : ℕ} {src : List UInt8}

/-! ## Writing -/

/-- The slots that a write of `n` bytes at `off` may fill. -/
def Span (off n p : ℕ) : Prop :=
  p = ndirect ∨ ∃ k, off ≤ k ∧ k < off + n ∧ p = slotOf (k / bsize)

/-- The bytes `src` were written to the inode `i` at `off`. -/
structure Writes (sb : Superblock) (i off : ℕ) (src : List UInt8) (P : ℕ → Prop)
    (fs fs' : Fs) : Prop extends Grows sb i P fs fs' where
  bytes : ∀ j < sb.ninodes, ∀ k, k / bsize < maxFile → byte sb fs' j k =
    if j = i ∧ off ≤ k ∧ k < off + src.length then src.getD (k - off) 0 else byte sb fs j k
  mapped : ∀ k, off ≤ k → k < off + src.length → slot sb fs' i (slotOf (k / bsize)) ≠ 0

/-- A write to a block of a file leaves all slots as they are. -/
theorem Owned.slot_put (owned : Owned sb fs) (valid : sb.Valid) (inum : i < sb.ninodes) {bn : ℕ}
    (below : bn < maxFile) (used : slot sb fs i (slotOf bn) ≠ 0) (j : ℕ) (jnum : j < sb.ninodes)
    (data : Block) (q : ℕ) :
    slot sb (fs.put (slot sb fs i (slotOf bn)) data) j q = slot sb fs j q := by
  have place := slotOf_lt below
  have region := (owned.range inum place used).1
  apply slot_congr (inode_put valid region jnum data)
  intro indirect
  apply Fs.disk_put_of_ne
  intro same
  exact slotOf_ne (owned.inj jnum (by decide) inum place indirect same).2.symm

/-- Writing to a block of the file. -/
theorem writes_put (valid : sb.Valid) (owned : Owned sb fs) (inum : i < sb.ninodes) {P : ℕ → Prop}
    (below : off / bsize < maxFile) (some : slot sb fs i (slotOf (off / bsize)) = b) (used : b ≠ 0)
    (fits : off % bsize + src.length ≤ bsize) (here : P (slotOf (off / bsize))) :
    Writes sb i off src P fs (fs.put b ((fs.disk b).copyIn (off % bsize) src)) := by
  have place := slotOf_lt below
  subst some
  have region := (owned.range inum place used).1
  have slots := fun j jnum => owned.slot_put valid inum below used j jnum
    ((fs.disk (slot sb fs i (slotOf (off / bsize)))).copyIn (off % bsize) src)
  refine { owned := ?_, slots := fun j jnum q _ _ => slots j jnum q, self := ?_, cache := ?_,
           kept := id, load := fun j jnum => load_put valid region jnum _, logged := ?_,
           bytes := ?_, mapped := ?_ }
  · exact Ledger.congr owned (fun x => slots x.1 x.1.isLt x.2) fun c inside =>
      marked_put region inside _
  · exact ⟨_, inode_put valid region inum _⟩
  · exact fun _ _ => rfl
  · intro c inside
    rcases List.mem_cons.1 inside with rfl | before
    · exact .inr (.inr ⟨_, place, here, slots i inum _, used⟩)
    · exact .inl before
  · intro j jnum k inside
    unfold byte
    rw [slots j jnum]
    by_cases mine : j = i ∧ k / bsize = off / bsize
    · obtain ⟨rfl, same⟩ := mine
      rw [same, if_neg used, if_neg used, Fs.disk_put, Bytes.get_copyIn fits]
      have range : (off % bsize ≤ k % bsize ∧ k % bsize < off % bsize + src.length) ↔
          (j = j ∧ off ≤ k ∧ k < off + src.length) := by
        unfold bsize at same fits ⊢
        omega
      simp only [range]
      split_ifs with written
      · congr 1
        unfold bsize at same ⊢
        omega
      · rfl
    · have outside : ¬ (j = i ∧ off ≤ k ∧ k < off + src.length) := by
        rintro ⟨rfl, low, high⟩
        refine mine ⟨rfl, ?_⟩
        unfold bsize at fits ⊢
        omega
      rw [if_neg outside]
      split_ifs with none
      · rfl
      · rw [Fs.disk_put_of_ne]
        intro same
        obtain ⟨rfl, position⟩ := owned.inj jnum (slotOf_lt inside) inum place none same
        exact mine ⟨rfl, slotOf_inj position⟩
  · intro k low high
    have same : k / bsize = off / bsize := by
      unfold bsize at fits ⊢
      omega
    rw [slots i inum, same]
    exact used

/-- A write after blocks were filled. -/
theorem Fills.writes {P : ℕ → Prop} {fs'' : Fs} (fills : Fills sb i P fs fs')
    (writes : Writes sb i off src P fs' fs'') (inum : i < sb.ninodes) :
    Writes sb i off src P fs fs'' where
  toGrows := fills.toGrows.trans writes.toGrows inum
  bytes j jnum k below := by rw [writes.bytes j jnum k below, fills.bytes j jnum k below]
  mapped := writes.mapped

/-- Two writes, one right after the other. -/
theorem Writes.append {P : ℕ → Prop} {fs'' : Fs} {src' : List UInt8}
    (first : Writes sb i off src P fs fs') (second : Writes sb i (off + src.length) src' P fs' fs'')
    (inum : i < sb.ninodes) (small : off + src.length ≤ maxFile * bsize) :
    Writes sb i off (src ++ src') P fs fs'' where
  toGrows := first.toGrows.trans second.toGrows inum
  bytes j jnum k below := by
    rw [second.bytes j jnum k below, first.bytes j jnum k below, List.length_append]
    by_cases mine : j = i
    · simp only [mine, true_and]
      by_cases late : off + src.length ≤ k
      · by_cases high : k < off + src.length + src'.length
        · rw [if_pos ⟨late, high⟩, if_pos (by omega), List.getD_append_right _ _ _ _ (by omega),
            show k - off - src.length = k - (off + src.length) by omega]
        · rw [if_neg (by omega), if_neg (by omega), if_neg (by omega)]
      · rw [if_neg (by omega)]
        by_cases low : off ≤ k
        · rw [if_pos (by omega), if_pos (by omega), List.getD_append _ _ _ _ (by omega)]
        · rw [if_neg (by omega), if_neg (by omega)]
    · simp only [mine, false_and, if_false]
  mapped k low high := by
    rw [List.length_append] at high
    by_cases late : off + src.length ≤ k
    · exact second.mapped k late (by omega)
    · have some := first.mapped k low (by omega)
      have below : k / bsize < maxFile := by
        unfold maxFile ndirect nindirect bsize at small ⊢
        omega
      rwa [second.slots i inum _ (slotOf_lt below) (.inr some)]

/-- The loop of `writei` writes the bytes it is given. -/
theorem writeLoop_spec {P : ℕ → Prop} (valid : sb.Valid) (owned : Owned sb fs)
    (inum : i < sb.ninodes) (enough : src.length ≤ fuel) (small : off + src.length ≤ maxFile * bsize)
    (span : ∀ p, Span off src.length p → P p) (done : writeLoop sb i fuel off src fs = .ok fs') :
    Writes sb i off src P fs fs' := by
  have nothing : ∀ {fs : Fs} {off : ℕ}, Owned sb fs → Writes sb i off [] P fs fs := by
    intro fs off owned
    refine { toGrows := .refl owned, bytes := fun j _ k _ => ?_, mapped := fun k low high => ?_ }
    · rw [if_neg (by simp only [List.length_nil]; omega)]
    · simp only [List.length_nil] at high
      omega
  induction fuel generalizing fs off src with
  | zero =>
    obtain rfl : src = [] := List.length_eq_zero_iff.1 (by omega)
    simp only [writeLoop, Except.ok.injEq] at done
    exact done ▸ nothing owned
  | succ fuel ih =>
    simp only [writeLoop] at done
    split_ifs at done with empty
    · simp only [Except.ok.injEq] at done
      subst empty
      exact done ▸ nothing owned
    · simp only [Fallible.bind_eq_ok, Prod.exists] at done
      obtain ⟨b, fs₁, found, rest⟩ := done
      have positive : 0 < src.length := List.length_pos_iff.2 empty
      have below : off / bsize < maxFile := by
        unfold maxFile ndirect nindirect bsize at small ⊢
        omega
      obtain ⟨fills, some, used⟩ := bmap_spec valid owned inum found
      -- one round fills the block and writes the bytes up to its end
      set m := min src.length (bsize - off % bsize) with hm
      have step : 0 < m ∧ m ≤ src.length ∧ off % bsize + m ≤ bsize := by
        unfold bsize at hm ⊢
        omega
      have length : (src.take m).length = m := by
        rw [List.length_take]
        omega
      have here : Span off src.length (slotOf (off / bsize)) :=
        .inr ⟨off, le_rfl, by omega, rfl⟩
      have round : Writes sb i off (src.take m) P fs
          (fs₁.put b ((fs₁.disk b).copyIn (off % bsize) (src.take m))) := by
        refine Fills.writes (P := P) ⟨fills.toGrows.mono ?_, fills.bytes⟩ ?_ inum
        · rintro p (rfl | rfl)
          · exact span _ (.inl rfl)
          · exact span _ here
        · exact writes_put valid fills.owned inum below some used (by omega) (span _ here)
      have later : Writes sb i (off + m) (src.drop m) P
          (fs₁.put b ((fs₁.disk b).copyIn (off % bsize) (src.take m))) fs' := by
        refine ih round.owned ?_ ?_ ?_ rest
        · rw [List.length_drop]
          omega
        · rw [List.length_drop]
          omega
        · rintro p (rfl | ⟨k, low, high, rfl⟩)
          · exact span _ (.inl rfl)
          · rw [List.length_drop] at high
            exact span _ (.inr ⟨k, by omega, by omega, rfl⟩)
      have whole := round.append (by rwa [length]) inum (by omega)
      rwa [List.take_append_drop] at whole

theorem writeLoop_error {e : Panic} (small : off + src.length ≤ maxFile * bsize)
    (failed : writeLoop sb i fuel off src fs = .error e) : e = .outOfBlocks := by
  induction fuel generalizing fs off src with
  | zero => simp [writeLoop] at failed
  | succ fuel ih =>
    simp only [writeLoop] at failed
    split_ifs at failed with empty
    have positive : 0 < src.length := List.length_pos_iff.2 empty
    have below : off / bsize < maxFile := by
      unfold maxFile ndirect nindirect bsize at small ⊢
      omega
    cases found : bmap sb fs i (off / bsize) with
    | error e' =>
      simp only [found, bind, Except.bind, Except.error.injEq] at failed
      exact bmap_error below (failed ▸ found)
    | ok r =>
      simp only [found, bind, Except.bind] at failed
      refine ih ?_ failed
      rw [List.length_drop]
      omega

/-! ## Reading -/

/-- The loop of `readi` returns the bytes of the range, and reading changes nothing, where the range
has all its blocks. -/
theorem readLoop_eq (enough : n ≤ fuel) (small : off + n ≤ maxFile * bsize)
    (mapped : ∀ k, off ≤ k → k < off + n → slot sb fs i (slotOf (k / bsize)) ≠ 0) :
    readLoop sb i fuel off n fs = .ok ((List.range n).map fun k => byte sb fs i (off + k), fs) := by
  induction fuel generalizing off n with
  | zero =>
    obtain rfl : n = 0 := by omega
    rfl
  | succ fuel ih =>
    by_cases done : n = 0
    · simp [readLoop, done]
    · have below : off / bsize < maxFile := by
        unfold maxFile ndirect nindirect bsize at small ⊢
        omega
      have some := mapped off le_rfl (by omega)
      simp only [readLoop, if_neg done, bmap_of_mapped below some, bind, Except.bind]
      set m := min n (bsize - off % bsize) with hm
      have step : 0 < m ∧ m ≤ n ∧ off % bsize + m ≤ bsize := by
        unfold bsize at hm ⊢
        omega
      rw [ih (by omega) (by omega) fun k low high => mapped k (by omega) (by omega)]
      simp only [pure, Except.pure, Except.ok.injEq, Prod.mk.injEq, and_true]
      have split : List.range n = List.range m ++ (List.range (n - m)).map (m + ·) := by
        rw [← List.range_add]
        congr 1
        omega
      rw [split, List.map_append, List.map_map]
      congr 1
      · apply List.map_congr_left
        intro k inside
        rw [List.mem_range] at inside
        have block : (off + k) / bsize = off / bsize := by
          unfold bsize at step ⊢
          omega
        have position : (off + k) % bsize = off % bsize + k := by
          unfold bsize at step ⊢
          omega
        rw [byte, block, if_neg some, position]
      · apply List.map_congr_left
        intro k _
        rw [Function.comp_apply, Nat.add_assoc]

end SsuOs.Xv6Fs.Inodes
