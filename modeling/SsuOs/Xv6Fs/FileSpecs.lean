import Mathlib.Data.List.Find
import SsuOs.Xv6Fs.FileCalls

/-!
# What the calls on inodes do

In a consistent file system a call changes one file as the store of files says, and leaves the file
system consistent. One lemma for each function of `fs.c` that a call comes to.
-/

namespace SsuOs.Xv6Fs.Inodes

open Superblock ByteFile

variable {sb : Superblock} {fs fs' fs₁ : Fs} {i j off n : ℕ} {src : List UInt8} {devsw : Devices}

/-! ## Reading and writing -/

/-- `readi` changes nothing and returns the bytes that the file has in the range. -/
theorem readi_spec (good : Good sb fs) (inum : i < sb.ninodes) (low : off < 2 ^ 32)
    (few : n < 2 ^ 32) (regular : (fs.inode sb i).type ≠ tDev) :
    readi devsw sb fs i off n =
      .ok (if (content sb fs i).length < off ∨ 2 ^ 32 ≤ off + n then none
        else some (readAt (content sb fs i) off n), fs) := by
  have wrap : (off + n) % 2 ^ 32 < off ↔ 2 ^ 32 ≤ off + n := by omega
  have good := good.each i inum
  unfold readi
  simp only [if_neg regular, wrap, length_content]
  by_cases outside : (fs.inode sb i).size.toNat < off ∨ 2 ^ 32 ≤ off + n
  · rw [if_pos outside, if_pos outside]
  · rw [if_neg outside, if_neg outside]
    have exact : (off + n) % 2 ^ 32 = off + n := Nat.mod_eq_of_lt (by omega)
    rw [exact]
    set count := if (fs.inode sb i).size.toNat < off + n then (fs.inode sb i).size.toNat - off
      else n with counted
    have within : off + count ≤ (fs.inode sb i).size.toNat := by
      rw [counted]
      split_ifs <;> omega
    rw [readLoop_eq le_rfl (within.trans good.small) fun k _ high => good.mapped k (by omega)]
    simp only [bind, Except.bind, pure, Except.pure, Except.ok.injEq, Prod.mk.injEq,
      Option.some.injEq, and_true]
    have length : count = min n ((fs.inode sb i).size.toNat - off) := by
      rw [counted]
      split_ifs <;> omega
    apply List.ext_getElem
    · simp [readAt, length]
    · intro k here there
      simp [readAt, content]

/-- Where all blocks are there already, writing leaves the inode as it is. -/
theorem writeLoop_cache {fuel : ℕ} (valid : sb.Valid) (owned : Owned sb fs) (inum : i < sb.ninodes)
    (small : off + src.length ≤ maxFile * bsize)
    (mapped : ∀ k, off ≤ k → k < off + src.length → slot sb fs i (slotOf (k / bsize)) ≠ 0)
    (done : writeLoop sb i fuel off src fs = .ok fs') : fs'.cache = fs.cache := by
  induction fuel generalizing fs off src with
  | zero =>
    simp only [writeLoop, Except.ok.injEq] at done
    rw [done]
  | succ fuel ih =>
    simp only [writeLoop] at done
    split_ifs at done with empty
    · simp only [Except.ok.injEq] at done
      rw [done]
    · have positive : 0 < src.length := List.length_pos_iff.2 empty
      have below : off / bsize < maxFile := block_lt small (by omega)
      have some := mapped off le_rfl (by omega)
      rw [bmap_of_mapped below some] at done
      simp only [bind, Except.bind] at done
      set m := min src.length (bsize - off % bsize) with hm
      have step : m ≤ src.length ∧ off % bsize + m ≤ bsize := by
        unfold bsize at hm ⊢
        omega
      have length : (src.take m).length = m := by
        rw [List.length_take]
        omega
      have round : Writes sb i off (src.take m) (fun _ => True) fs _ :=
        writes_put valid owned inum below rfl some (by omega) trivial
      rw [ih round.owned ?_ ?_ done, Fs.cache_put]
      · rw [List.length_drop]
        omega
      · intro k low high
        rw [List.length_drop] at high
        rw [owned.slot_put valid inum below some i inum]
        exact mapped k (by omega) (by omega)

/-- The contents after the write. -/
theorem Writes.content {P : ℕ → Prop} (writes : Writes sb i off src P fs fs₁)
    (inum : i < sb.ninodes) (within : off ≤ (fs.inode sb i).size.toNat)
    (small : (fs.inode sb i).size.toNat ≤ maxFile * bsize)
    (fits : off + src.length ≤ maxFile * bsize)
    (size : (fs'.inode sb i).size.toNat = max (fs.inode sb i).size.toNat (off + src.length))
    (bytes : ∀ k, k / bsize < maxFile → byte sb fs' i k = byte sb fs₁ i k) :
    content sb fs' i = writeAt (content sb fs i) off src := by
  apply content_eq
  · simp [size]
  · intro k below
    rw [length_writeAt, length_content] at below
    have block : k / bsize < maxFile := block_lt (max_le small fits) below
    rw [byteAt_writeAt, bytes k block, writes.bytes i inum k block]
    simp only [true_and]
    split_ifs with inside
    · rfl
    · exact byteAt_content (by omega)

/-- The old contents and what was written have all their blocks. -/
theorem Writes.blocks {P : ℕ → Prop} (writes : Writes sb i off src P fs fs₁)
    (good : GoodAt sb fs i) (inum : i < sb.ninodes) (within : off ≤ (fs.inode sb i).size.toNat)
    {k : ℕ} (below : k < max (fs.inode sb i).size.toNat (off + src.length)) :
    slot sb fs₁ i (slotOf (k / bsize)) ≠ 0 := by
  by_cases written : off ≤ k ∧ k < off + src.length
  · exact writes.mapped k written.1 written.2
  · have old : k < (fs.inode sb i).size.toNat := by omega
    have some := good.mapped k old
    rwa [writes.slots i inum _ (slotOf_lt (block_lt good.small old)) (.inr some)]

theorem Writes.byte_of_ne {P : ℕ → Prop} (writes : Writes sb i off src P fs fs₁)
    (jnum : j < sb.ninodes) (other : j ≠ i) {k : ℕ} (below : k / bsize < maxFile) :
    byte sb fs₁ j k = byte sb fs j k := by
  rw [writes.bytes j jnum k below, if_neg (fun inside => other inside.1)]

/-- A write that ends beyond the old end, with the inode saved after it. -/
theorem Writes.extends_file {P : ℕ → Prop} (valid : sb.Valid) (good : Good sb fs)
    (inum : i < sb.ninodes) (used : (fs.inode sb i).type ≠ 0)
    (within : off ≤ (fs.inode sb i).size.toNat) (fits : off + src.length ≤ maxFile * bsize)
    (writes : Writes sb i off src P fs fs₁)
    (beyond : (fs.inode sb i).size.toNat < off + src.length)
    (saved : Saved sb i { fs₁.inode sb i with size := UInt32.ofNat (off + src.length) } fs₁ fs') :
    Becomes sb i { Inodes.file sb fs i with data := writeAt (Inodes.content sb fs i) off src } true
      fs fs' := by
  have limit : maxFile * bsize < 2 ^ 32 := by decide
  have goodAt := good.each i inum
  obtain ⟨addrs, self⟩ := writes.self
  have size : (fs'.inode sb i).size.toNat = off + src.length := by
    rw [saved.inode]
    exact Nat.mod_eq_of_lt (by omega)
  have later : max (fs.inode sb i).size.toNat (off + src.length) = off + src.length :=
    max_eq_right beyond.le
  have type : (fs₁.inode sb i).type ≠ 0 := by
    rw [self]
    exact used
  apply good.becomes (saved.owned valid writes.owned inum rfl)
  · refine ⟨?_, fun k below => ?_, fun ip entry => ?_, fun free => ?_⟩
    · rw [size]
      exact fits
    · rw [size] at below
      rw [saved.slot valid writes.owned inum rfl inum]
      exact writes.blocks goodAt inum within (by omega)
    · rw [saved.cached] at entry
      obtain rfl := Option.some.inj entry
      exact ⟨saved.loaded, type⟩
    · rw [saved.loaded] at free
      exact absurd free type
  · unfold file
    rw [writes.content inum within goodAt.small fits (by rw [size, later])
      fun k below => saved.byte valid writes.owned inum rfl inum below, saved.inode, self]
  · rw [saved.cached]
    rfl
  · intro j other
    rw [saved.cache j other, writes.cache j other]
  · intro j jnum other
    rw [saved.load j other, writes.load j jnum]
  · intro j jnum other p place
    rw [saved.slot valid writes.owned inum rfl jnum, writes.slots j jnum p place (.inl other)]
  · intro j jnum other k below
    rw [saved.byte valid writes.owned inum rfl jnum below, writes.byte_of_ne jnum other below]

/-- A write within the old contents, which finds all its blocks there. -/
theorem Writes.overwrites {P : ℕ → Prop} (good : Good sb fs) (inum : i < sb.ninodes)
    (cached : (fs.cache i).isSome) (used : (fs.inode sb i).type ≠ 0)
    (within : off ≤ (fs.inode sb i).size.toNat) (fits : off + src.length ≤ maxFile * bsize)
    (writes : Writes sb i off src P fs fs₁) (cache : fs₁.cache = fs.cache)
    (inside : src ≠ [] → off + src.length ≤ (fs.inode sb i).size.toNat) :
    Becomes sb i
      { Inodes.file sb fs i with
        data := if src = [] then Inodes.content sb fs i else writeAt (Inodes.content sb fs i) off src }
      true fs fs₁ := by
  have goodAt := good.each i inum
  have inode : fs₁.inode sb i = fs.inode sb i :=
    Fs.inode_congr (by rw [cache]) (writes.load i inum)
  apply good.becomes writes.owned
  · refine ⟨?_, fun k below => ?_, fun ip entry => ?_, fun free => ?_⟩
    · rw [inode]
      exact goodAt.small
    · rw [inode] at below
      exact writes.blocks goodAt inum within (by omega)
    · rw [cache] at entry
      rw [writes.load i inum]
      exact goodAt.synced ip entry
    · rw [writes.load i inum, goodAt.load] at free
      exact absurd free used
  · unfold file
    rw [inode]
    congr 1
    split_ifs with empty
    · apply content_congr goodAt.small (by rw [inode])
      intro k below
      rw [writes.bytes i inum k below, if_neg (by simp only [empty, List.length_nil]; omega)]
    · refine writes.content inum within goodAt.small fits ?_ fun _ _ => rfl
      rw [inode, max_eq_left (inside empty)]
  · rw [cache]
    exact cached
  · exact writes.cache
  · exact fun j jnum _ => writes.load j jnum
  · exact fun j jnum other p place => writes.slots j jnum p place (.inl other)
  · exact fun j jnum other k below => writes.byte_of_ne jnum other below

/-- `writei` on a file that it does not refuse. -/
theorem writei_spec (valid : sb.Valid) (good : Good sb fs) (inum : i < sb.ninodes)
    (cached : (fs.cache i).isSome) (regular : (fs.inode sb i).type ≠ tDev)
    (used : (fs.inode sb i).type ≠ 0) (within : off ≤ (fs.inode sb i).size.toNat)
    (fits : off + src.length ≤ maxFile * bsize) {r : Option ℕ}
    (done : writei devsw sb fs i off src = .ok (r, fs')) :
    r = some src.length ∧ Becomes sb i
      { file sb fs i with
        data := if src = [] then content sb fs i else writeAt (content sb fs i) off src }
      true fs fs' := by
  have limit : maxFile * bsize < 2 ^ 32 := by decide
  have exact : (off + src.length) % 2 ^ 32 = off + src.length := Nat.mod_eq_of_lt (by omega)
  unfold writei at done
  simp only [if_neg regular, exact] at done
  rw [if_neg (by omega), if_neg (by omega)] at done
  simp only [Fallible.bind_eq_ok] at done
  obtain ⟨fs₁, looped, rest⟩ := done
  have writes : Writes sb i off src (Span off src.length) fs fs₁ :=
    writeLoop_spec valid good.owned inum le_rfl fits (fun _ span => span) looped
  obtain ⟨addrs, self⟩ := writes.self
  have size : (fs₁.inode sb i).size = (fs.inode sb i).size := by rw [self]
  rw [size] at rest
  split_ifs at rest with longer
  · simp only [Fallible.pure_eq_ok, Prod.mk.injEq] at rest
    obtain ⟨rfl, rfl⟩ := rest
    rw [if_neg (List.length_pos_iff.1 longer.1)]
    exact ⟨rfl, writes.extends_file valid good inum used within fits longer.2 saved_iupdate⟩
  · simp only [Fallible.pure_eq_ok, Prod.mk.injEq] at rest
    obtain ⟨rfl, rfl⟩ := rest
    have inside : src ≠ [] → off + src.length ≤ (fs.inode sb i).size.toNat := by
      intro nonempty
      have positive := List.length_pos_iff.2 nonempty
      omega
    refine ⟨rfl, writes.overwrites good inum cached used within fits ?_ inside⟩
    -- nothing beyond the end was written, so that no block was missing
    apply writeLoop_cache valid good.owned inum fits (fun k low high => ?_) looped
    have below := inside (List.length_pos_iff.1 (by omega))
    exact (good.each i inum).mapped k (by omega)

/-! ## New and freed inodes -/

/-- An inode that is free is not in the cache. -/
theorem Good.absent_of_free (good : Good sb fs) (inum : i < sb.ninodes)
    (free : (fs.load sb i).type = 0) : fs.cache i = none := by
  cases cached : fs.cache i with
  | none => rfl
  | some ip =>
    obtain ⟨loaded, used⟩ := (good.each i inum).synced ip cached
    exact absurd (loaded ▸ free) used

/-- A new inode in the place of one that is free has no blocks, as that had none. -/
theorem slot_store_zero (valid : sb.Valid) (good : Good sb fs) (inum : i < sb.ninodes)
    (free : (fs.load sb i).type = 0) (type : UInt16) :
    ∀ j < sb.ninodes, ∀ p < nslots,
      slot sb (store sb fs i { Inode.zero with type }) j p = slot sb fs j p := by
  intro j jnum p place
  set fs' := store sb fs i { Inode.zero with type }
  by_cases mine : j = i
  · subst mine
    have absent : fs'.cache j = none := good.absent_of_free jnum free
    have addresses : ∀ q ≤ ndirect, slot sb fs' j q = 0 := by
      intro q low
      rw [slot_addr low, Fs.inode, absent, Option.getD_none, load_store]
      unfold Inode.addr
      split_ifs <;> rfl
    rw [((good.each j jnum).free free).2 p place]
    by_cases low : p ≤ ndirect
    · exact addresses p low
    · exact slot_entry_of_zero (by omega) (addresses _ le_rfl)
  · have inode : fs'.inode sb j = fs.inode sb j := Fs.inode_congr rfl (load_store_of_ne mine)
    apply slot_congr inode
    intro some
    have start := Valid.bmapstart_lt sb
    have region := valid.iblock_lt inum
    have data := (good.owned.range jnum (by decide) some).1
    exact Fs.disk_put_of_ne _ _ (by omega)

/-- What `ialloc` stores in an inode that is free makes it an empty file. -/
theorem becomes_store_zero (valid : sb.Valid) (good : Good sb fs) (inum : i < sb.ninodes)
    (free : (fs.load sb i).type = 0) (type : UInt16) :
    Becomes sb i ⟨type, 0, 0, 0, []⟩ (fs.cache i).isSome fs
      (store sb fs i { Inode.zero with type }) := by
  have slots := slot_store_zero valid good inum free type
  set fs' := store sb fs i { Inode.zero with type }
  have region := valid.iblock_lt inum
  have start := Valid.bmapstart_lt sb
  have absent : fs'.cache i = none := good.absent_of_free inum free
  have inode : fs'.inode sb i = { Inode.zero with type } := by
    rw [Fs.inode, absent, Option.getD_none, load_store]
  have disk : ∀ c, sb.bmapstart ≤ c → fs'.disk c = fs.disk c := fun c high =>
    Fs.disk_put_of_ne _ _ (by omega)
  apply good.becomes
  · exact good.owned.congr disk slots
  · refine ⟨?_, ?_, ?_, ?_⟩
    · rw [inode]
      exact Nat.zero_le _
    · intro n below
      rw [inode] at below
      exact absurd below (Nat.not_lt_zero n)
    · intro ip cached
      rw [absent] at cached
      cases cached
    · intro _
      refine ⟨by rw [inode]; rfl, fun p place => ?_⟩
      rw [slots i inum p place, ((good.each i inum).free free).2 p place]
  · unfold file content
    rw [inode]
    rfl
  · rfl
  · exact fun _ _ => rfl
  · exact fun j _ other => load_store_of_ne other
  · exact fun j jnum _ => slots j jnum
  · intro j jnum _ n below
    exact byte_congr good.owned jnum (fun c high => disk c (by omega)) (slots j jnum) below

/-- `ialloc` takes the first inode that is free, and it is empty. -/
theorem ialloc_spec (valid : sb.Valid) (good : Good sb fs) {type : UInt16}
    (done : ialloc sb fs type = .ok (i, fs')) :
    ((List.range sb.ninodes).find? fun i =>
        decide (1 ≤ i) && decide ((file sb fs i).type = 0)) = some i ∧
      Becomes sb i ⟨type, 0, 0, 0, []⟩ (fs.cache i).isSome fs fs' := by
  unfold ialloc at done
  have same : (List.range sb.ninodes).find? (fun i =>
        decide (1 ≤ i) && decide ((file sb fs i).type = 0)) =
      (List.range sb.ninodes).find? fun i =>
        decide (1 ≤ i) && decide ((fs.load sb i).type = 0) := by
    apply List.find?_congr
    intro j inside
    rw [(good.each j (List.mem_range.1 inside)).load]
    rfl
  cases found : (List.range sb.ninodes).find? fun i =>
      decide (1 ≤ i) && decide ((fs.load sb i).type = 0) with
  | none => simp [found] at done
  | some k =>
    simp only [found, Except.ok.injEq, Prod.mk.injEq] at done
    obtain ⟨rfl, rfl⟩ := done
    have inum : k < sb.ninodes := List.mem_range.1 (List.mem_of_find?_eq_some found)
    have free : (fs.load sb k).type = 0 := by
      have := List.find?_some found
      simp only [Bool.and_eq_true, decide_eq_true_eq] at this
      exact this.2
    exact ⟨by rw [same, found], becomes_store_zero valid good inum free type⟩

/-- `iput` of the last reference to an inode without links. -/
theorem iput_spec (valid : sb.Valid) (good : Good sb fs) (inum : i < sb.ninodes)
    (cached : (fs.cache i).isSome) (unlinked : (fs.inode sb i).nlink = 0) :
    ∃ fs', iput sb fs i true = .ok fs' ∧
      Becomes sb i { file sb fs i with type := 0, data := [] } false fs fs' := by
  obtain ⟨ip, entry⟩ := Option.isSome_iff_exists.1 cached
  have inode : fs.inode sb i = ip := by
    rw [Fs.inode, entry]
    rfl
  obtain ⟨fs₁, done, emptied⟩ := itrunc_spec valid good.owned inum
  obtain ⟨addrs, self⟩ := emptied.self
  have saved : Saved sb i { fs₁.inode sb i with type := 0 } fs₁ _ := saved_iupdate
  set fs₂ := iupdate sb (fs₁.setInode i { fs₁.inode sb i with type := 0 }) i with defined
  refine ⟨fs₂.forget i, ?_, ?_⟩
  · rw [iput, entry]
    simp only [← inode, unlinked, and_self, if_true, done, bind, Except.bind]
    rfl
  have disk : (fs₂.forget i).disk = fs₂.disk := rfl
  have load : ∀ j, (fs₂.forget i).load sb j = fs₂.load sb j := fun _ => rfl
  have freed : (fs₂.forget i).inode sb i = { fs₁.inode sb i with type := 0 } := by
    have absent : (fs₂.forget i).cache i = none := Function.update_self ..
    rw [Fs.inode, absent, Option.getD_none, load, saved.loaded]
  have inodes : ∀ j < sb.ninodes, (fs₂.forget i).inode sb j = fs₂.inode sb j := by
    intro j jnum
    by_cases mine : j = i
    · rw [mine, freed, saved.inode]
    · exact Fs.inode_congr (Function.update_of_ne mine ..) (load j)
  have slots : ∀ j < sb.ninodes, ∀ p < nslots,
      slot sb (fs₂.forget i) j p = if j = i then 0 else slot sb fs j p := by
    intro j jnum p place
    rw [slot_congr (inodes j jnum) fun _ => by rw [disk],
      saved.slot valid emptied.owned inum rfl jnum, emptied.slots j jnum p place]
  have others : ∀ j < sb.ninodes, j ≠ i → ∀ p < nslots,
      slot sb (fs₂.forget i) j p = slot sb fs j p := by
    intro j jnum other p place
    rw [slots j jnum p place, if_neg other]
  apply good.becomes
  · refine (saved.owned valid emptied.owned inum rfl).congr (fun _ _ => rfl) fun j jnum p _ => ?_
    exact slot_congr (inodes j jnum) (fun _ => by rw [disk]) p
  · refine ⟨?_, ?_, ?_, ?_⟩
    · rw [freed, self]
      exact Nat.zero_le _
    · intro k below
      rw [freed, self] at below
      exact absurd below (Nat.not_lt_zero k)
    · intro ip' cached'
      simp [Fs.forget] at cached'
    · intro _
      refine ⟨by rw [freed, self], fun p place => ?_⟩
      rw [slots i inum p place, if_pos rfl]
  · unfold file content
    rw [freed, self]
    rfl
  · simp [Fs.forget]
  · intro j other
    change Function.update fs₂.cache i none j = _
    rw [Function.update_of_ne other, saved.cache j other, emptied.cache j other]
  · intro j jnum other
    rw [load, saved.load j other, emptied.load j jnum other]
  · exact others
  · intro j jnum other k below
    have place := slotOf_lt below
    rw [← emptied.bytes j jnum other k below,
      ← saved.byte valid emptied.owned inum rfl jnum below]
    unfold byte
    rw [slot_congr (inodes j jnum) fun _ => by rw [disk], disk]

/-! ## Panics -/

theorem ialloc_error {p : Panic} {type : UInt16} (good : Good sb fs)
    (failed : ialloc sb fs type = .error p) :
    p = .noInodes ∧ ∀ i < sb.ninodes, 1 ≤ i → (file sb fs i).type ≠ 0 := by
  unfold ialloc at failed
  split at failed
  · rename_i none
    refine ⟨by simpa using failed.symm, fun i inum first free => ?_⟩
    have taken := List.find?_eq_none.1 none i (List.mem_range.2 inum)
    rw [(good.each i inum).load] at taken
    change (fs.inode sb i).type = 0 at free
    exact taken (by simp [first, free])
  · simp at failed

theorem ilock_error {p : Panic} (good : Good sb fs) (inum : i < sb.ninodes)
    (failed : ilock sb fs i = .error p) : p = .noType ∧ (file sb fs i).type = 0 := by
  unfold ilock at failed
  cases cached : fs.cache i with
  | some ip => simp [cached] at failed
  | none =>
    simp only [cached] at failed
    split_ifs at failed with free
    rw [(good.each i inum).load] at free
    exact ⟨by simpa using failed.symm, free⟩

theorem readi_ne_error {p : Panic} (good : Good sb fs) (inum : i < sb.ninodes)
    (low : off < 2 ^ 32) (few : n < 2 ^ 32) : readi devsw sb fs i off n ≠ .error p := by
  by_cases device : (fs.inode sb i).type = tDev
  · unfold readi
    simp only [if_pos device]
    cases devsw.read (fs.inode sb i).major.toNat <;> simp
  · rw [readi_spec good inum low few device]
    simp

theorem writei_error {e : Panic} (low : off < 2 ^ 32) (few : src.length < 2 ^ 32)
    (failed : writei devsw sb fs i off src = .error e) : e = .outOfBlocks := by
  have limit : maxFile * bsize < 2 ^ 32 := by decide
  unfold writei at failed
  by_cases device : (fs.inode sb i).type = tDev
  · simp only [if_pos device] at failed
    cases driver : devsw.write (fs.inode sb i).major.toNat <;> simp [driver] at failed
  · simp only [if_neg device] at failed
    split_ifs at failed with outside large
    have fits : off + src.length ≤ maxFile * bsize := by
      have exact : (off + src.length) % 2 ^ 32 = off + src.length ∨
          off + src.length = (off + src.length) % 2 ^ 32 + 2 ^ 32 := by omega
      omega
    cases looped : writeLoop sb i src.length off src fs with
    | error e' =>
      simp only [looped, bind, Except.bind, Except.error.injEq] at failed
      exact writeLoop_error fits (failed ▸ looped)
    | ok fs₁ =>
      simp only [looped, bind, Except.bind, pure, Except.pure] at failed
      split_ifs at failed

theorem iput_ne_error {p : Panic} {last : Bool} (valid : sb.Valid) (good : Good sb fs)
    (inum : i < sb.ninodes) : iput sb fs i last ≠ .error p := by
  obtain ⟨fs₁, emptied, _⟩ := itrunc_spec valid good.owned inum
  unfold iput
  cases fs.cache i with
  | none => simp
  | some ip =>
    dsimp only
    split_ifs <;> simp [emptied, bind, Except.bind, pure, Except.pure]

end SsuOs.Xv6Fs.Inodes
