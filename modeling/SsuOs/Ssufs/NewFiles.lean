import SsuOs.Ssufs.Functions

/-!
# New files

What `strcpy` of a name does to an inode, whose name field has eight bytes, and the store in which
`ssufs_create` leaves a new file.
-/

namespace SsuOs.Ssufs

open ByteFile

/-! ## Names -/

namespace Inode

variable {inode : Inode} {filename : CString}

/-- `strcpy` changes only the bytes of the name and of the NUL behind it. -/
theorem strcpy_outside (inode : Inode) (filename : CString) {k : ℕ}
    (apart : k < 4 ∨ 5 + filename.bytes.length ≤ k) :
    byteAt (writeAt inode.bytes 4 (filename.bytes ++ [0])) k = byteAt inode.bytes k := by
  refine byteAt_writeAt_other _ _ _ _ ?_
  rw [List.length_append, List.length_singleton]
  omega

/-- A name of at most eight characters does not reach the blocks. -/
theorem strcpyName_directBlocks (inode : Inode) (short : filename.bytes.length ≤ 8) :
    (inode.strcpyName filename).directBlocks = inode.directBlocks := by
  refine Eq.trans ?_ (congrArg directBlocks inode.ofBytes_bytes)
  funext j
  change ofLE (fun k => byteAt (writeAt inode.bytes 4 (filename.bytes ++ [0])) (16 + 4 * j + k)) =
    ofLE fun k => byteAt inode.bytes (16 + 4 * j + k)
  exact ofLE_congr fun k below => inode.strcpy_outside filename (by omega)

theorem fileSize_eq (inode : Inode) : inode.fileSize = ofLE fun k => byteAt inode.bytes (12 + k) :=
  (congrArg fileSize inode.ofBytes_bytes).symm

theorem strcpyName_fileSize_eq (inode : Inode) (filename : CString) :
    (inode.strcpyName filename).fileSize =
      ofLE fun k => byteAt (writeAt inode.bytes 4 (filename.bytes ++ [0])) (12 + k) := rfl

/-- A name of at most seven characters stays within its field. -/
theorem strcpyName_rest (inode : Inode) (short : filename.bytes.length ≤ 7) :
    (inode.strcpyName filename).status = inode.status ∧
      (inode.strcpyName filename).fileSize = inode.fileSize ∧
      (inode.strcpyName filename).directBlocks = inode.directBlocks := by
  refine ⟨?_, ?_, inode.strcpyName_directBlocks (by omega)⟩
  · refine Eq.trans ?_ (congrArg status inode.ofBytes_bytes)
    change ofLE (byteAt (writeAt inode.bytes 4 (filename.bytes ++ [0]))) =
      ofLE (byteAt inode.bytes)
    exact ofLE_congr fun k below => inode.strcpy_outside filename (by omega)
  · refine (inode.strcpyName_fileSize_eq filename).trans (Eq.trans ?_ inode.fileSize_eq.symm)
    exact ofLE_congr fun k below => inode.strcpy_outside filename (by omega)

/-- The bytes of the size stand behind the name. -/
theorem byteAt_fileSize (inode : Inode) {k : ℕ} (below : k < 4) :
    byteAt inode.bytes (12 + k) = byteAt (leBytes inode.fileSize) k := by
  simp only [bytes, List.append_assoc]
  rw [← List.append_assoc, byteAt_append_right 12 (by simp), byteAt_append_left (by simpa using below)]

/-- The NUL of a name of eight characters overwrites the lowest byte of the size. -/
theorem strcpy_nul (inode : Inode) (long : filename.bytes.length = 8) :
    byteAt (writeAt inode.bytes 4 (filename.bytes ++ [0])) 12 = 0 := by
  change byteAt (writeAt inode.bytes 4 (filename.bytes ++ [0])) (4 + 8) = 0
  rw [byteAt_writeAt_same _ _ _ _ (by simp [long]), ← Nat.add_zero 8, byteAt_append_right 8 long]
  rfl

/-- The other bytes of the size stay. -/
theorem strcpy_size (inode : Inode) (long : filename.bytes.length = 8) {k : ℕ} (below : k < 3) :
    byteAt (writeAt inode.bytes 4 (filename.bytes ++ [0])) (12 + (k + 1)) =
      byteAt (leBytes inode.fileSize) (k + 1) := by
  rw [strcpy_outside _ _ (by omega), byteAt_fileSize _ (by omega)]

theorem strcpyName_fileSize (inode : Inode) (long : filename.bytes.length = 8)
    (nonneg : 0 ≤ inode.fileSize.toInt) :
    (inode.strcpyName filename).fileSize.toInt =
      inode.fileSize.toInt - inode.fileSize.toInt % 256 := by
  rw [strcpyName_fileSize_eq]
  exact toInt_ofLE_clear nonneg (inode.strcpy_nul long) fun k below => inode.strcpy_size long below

/-- The comparison starts at the name and goes on into the size. -/
theorem drop_bytes (inode : Inode) :
    inode.bytes.drop 4 = List.ofFn inode.name ++ (leBytes inode.fileSize ++
      leBytes (inode.directBlocks 0) ++ leBytes (inode.directBlocks 1) ++
      leBytes (inode.directBlocks 2) ++ leBytes (inode.directBlocks 3)) := by
  simp only [bytes, List.append_assoc]
  exact List.drop_left' (length_leBytes _)

/-- The comparison of a short name looks at the name field only. -/
theorem named_iff (short : filename.bytes.length ≤ 7) :
    inode.Named filename ↔ filename.bytes ++ [0] <+: List.ofFn inode.name := by
  rw [Named, drop_bytes, List.isPrefix_append_of_length]
  rw [List.length_append, List.length_singleton, List.length_ofFn]
  omega

/-- The NUL behind a name of eight characters is looked for in the lowest byte of the size. -/
theorem named_iff_byte (long : filename.bytes.length = 8) :
    inode.Named filename ↔
      filename.bytes = List.ofFn inode.name ∧ byteAt (leBytes inode.fileSize) 0 = 0 := by
  rw [Named, drop_bytes]
  constructor
  · rintro ⟨rest, eq⟩
    rw [List.append_assoc] at eq
    obtain ⟨same, behind⟩ := List.append_inj eq (by simp [long])
    exact ⟨same, (congrArg (byteAt · 0) behind).symm⟩
  · rintro ⟨same, zero⟩
    rw [same, List.prefix_append_right_inj, ← zero]
    exact ⟨_, rfl⟩

theorem named_iff_of_eight (long : filename.bytes.length = 8) (nonneg : 0 ≤ inode.fileSize.toInt) :
    inode.Named filename ↔
      filename.bytes = List.ofFn inode.name ∧ inode.fileSize.toInt % 256 = 0 := by
  rw [named_iff_byte long, byteAt_leBytes_zero nonneg]

theorem named_strcpyName (inode : Inode) (short : filename.bytes.length ≤ 7) :
    (inode.strcpyName filename).Named filename := by
  rw [named_iff short, List.prefix_iff_getElem?]
  intro k below
  rw [List.length_append, List.length_singleton] at below
  have inside := byteAt_writeAt_same inode.bytes (filename.bytes ++ [0]) 4 k (by simpa using below)
  rw [List.getElem?_ofFn, dif_pos (by omega)]
  change some (byteAt (writeAt inode.bytes 4 (filename.bytes ++ [0])) (4 + k)) = _
  rw [inside, byteAt, List.getD_eq_getElem]

theorem named_strcpyName_of_le (inode : Inode) (short : filename.bytes.length ≤ 8) :
    (inode.strcpyName filename).Named filename := by
  rcases short.eq_or_lt with long | seven
  · rw [named_iff_byte long, strcpyName_fileSize_eq, leBytes_ofLE]
    refine ⟨List.ext_getElem (by simp [long]) fun k below _ => ?_, inode.strcpy_nul long⟩
    rw [List.getElem_ofFn]
    change _ = byteAt (writeAt inode.bytes 4 (filename.bytes ++ [0])) (4 + k)
    rw [byteAt_writeAt_same _ _ _ _ (by simp; omega), byteAt_append_left below, byteAt,
      List.getD_eq_getElem]
  · exact inode.named_strcpyName (Nat.lt_succ_iff.1 seven)

/-- An inode has at most one name. -/
theorem Named.unique {filename' : CString} (named : inode.Named filename)
    (named' : inode.Named filename') : filename = filename' := by
  have shorter {f g : CString} (short : f.bytes.length < g.bytes.length)
      (first : inode.Named f) (second : inode.Named g) : False := by
    have both : f.bytes ++ [0] <+: g.bytes ++ [0] :=
      List.prefix_of_prefix_length_le first second (by simp; omega)
    rw [List.isPrefix_append_of_length (by simp; omega)] at both
    exact g.noNul (both.subset (by simp))
  have length : filename.bytes.length = filename'.bytes.length := by
    rcases lt_trichotomy filename.bytes.length filename'.bytes.length with less | equal | more
    · exact (shorter less named named').elim
    · exact equal
    · exact (shorter more named' named).elim
  have both := (List.prefix_of_prefix_length_le named named' (by simp [length])).eq_of_length
    (by simp [length])
  have same := List.append_cancel_right both
  cases filename
  cases filename'
  simpa using same

end Inode

/-! ## Creating files -/

/-- The store after `ssufs_create` has given inode `i` to a new file. -/
def Store.created (v : Store) (i : Fin 8) (filename : CString) : Store :=
  (v.setInodeFlag i inodeInUse).putInode i ({ v.inode i with status := 49 }.strcpyName filename)

section Created

variable {v : Store} {i i' : Fin 8} {filename : CString}

namespace Store

@[simp] theorem created_flag : (v.created i filename).flag = v.flag := rfl

@[simp] theorem created_block : (v.created i filename).block = v.block := rfl

@[simp] theorem created_length : (v.created i filename).length = v.length := rfl

@[simp] theorem created_fileHandles : (v.created i filename).fileHandles = v.fileHandles := rfl

theorem created_inodeFlag (i' : Fin 8) :
    (v.created i filename).inodeFlag i' = if i' = i then inodeInUse else v.inodeFlag i' :=
  Function.update_apply ..

theorem created_inode_self :
    (v.created i filename).inode i = { v.inode i with status := 49 }.strcpyName filename :=
  Function.update_self ..

theorem created_inode_of_ne (other : i' ≠ i) : (v.created i filename).inode i' = v.inode i' :=
  Function.update_of_ne other ..

/-- A name of at most eight characters leaves the blocks of all files. -/
theorem created_directBlocks (short : filename.bytes.length ≤ 8) (i' : Fin 8) :
    ((v.created i filename).inode i').directBlocks = (v.inode i').directBlocks := by
  by_cases same : i' = i
  · rw [same, created_inode_self, Inode.strcpyName_directBlocks _ short]
  · rw [created_inode_of_ne same]

theorem created_slot (short : filename.bytes.length ≤ 8) (i' : Fin 8) (j : Fin 4) :
    ((v.created i filename).inode i').slot j = (v.inode i').slot j := by
  rw [Inode.slot, Inode.slot, created_directBlocks short]

/-- A name of at most seven characters leaves the sizes. -/
theorem created_fileSize (short : filename.bytes.length ≤ 7) (i' : Fin 8) :
    ((v.created i filename).inode i').fileSize = (v.inode i').fileSize := by
  by_cases same : i' = i
  · rw [same, created_inode_self, (Inode.strcpyName_rest _ short).2.1]
  · rw [created_inode_of_ne same]

theorem created_named (short : filename.bytes.length ≤ 8) :
    ((v.created i filename).inode i).Named filename := by
  rw [created_inode_self]
  exact Inode.named_strcpyName_of_le _ short

end Store

/-- The new file is found under its name. -/
theorem lookup_created (short : filename.bytes.length ≤ 8) (absent : v.lookup filename = none) :
    (v.created i filename).lookup filename = some i := by
  refine lookup_eq_of_unique short ?_ (Store.created_named short) fun i' inUse named => ?_
  · rw [Store.created_inodeFlag, if_pos rfl]
  · by_contra other
    rw [Store.created_inodeFlag, if_neg other] at inUse
    rw [Store.created_inode_of_ne other] at named
    exact (lookup_eq_none short).1 absent i' inUse named

end Created

theorem ssufsCreate_apply (filename : CString) (v : Store) :
    ssufsCreate filename v =
      match v.lookup filename, v.firstFreeInode with
      | none, some i => .ok (ofIndex i, v.created i filename)
      | _, _ => .ok (-1, v) := by
  rw [ssufsCreate, Prog.bind_ok (openNamei_apply filename v), Prog.ite_apply]
  simp only [ne_eq, found_eq_neg_one (show 8 ≤ 2 ^ 31 by norm_num)]
  cases v.lookup filename with
  | some i =>
    simp only [reduceCtorEq, not_false_eq_true, if_true]
    rfl
  | none =>
    simp only [not_true_eq_false, if_false]
    cases free : v.firstFreeInode with
    | none =>
      have none_left : (ssufsAllocInode : Ssu Store Int32) v = .ok (-1, v) := by
        rw [ssufsAllocInode_apply, free]
      rw [Prog.bind_ok none_left]
      rfl
    | some i =>
      have allocated : (ssufsAllocInode : Ssu Store Int32) v =
          .ok (ofIndex i, v.setInodeFlag i inodeInUse) := by
        rw [ssufsAllocInode_apply, free]
      have selected := index_ofIndex (show 8 ≤ 2 ^ 31 by norm_num) i
      rw [Prog.bind_ok allocated, Prog.ite_apply, if_neg (ofIndex_ne_neg_one (by norm_num) i),
        Prog.bind_ok (readInode_apply selected _), Prog.bind_ok (writeInode_apply selected _ _)]
      rfl

theorem ssufsCreate_cases (filename : CString) (v : Store) :
    ((v.lookup filename ≠ none ∨ v.firstFreeInode = none) ∧
      ssufsCreate filename v = .ok (-1, v)) ∨
      ∃ i, v.lookup filename = none ∧ v.firstFreeInode = some i ∧
        ssufsCreate filename v = .ok (ofIndex i, v.created i filename) := by
  have creates := ssufsCreate_apply filename v
  cases found : v.lookup filename with
  | some i =>
    rw [found] at creates
    exact .inl ⟨.inl (Option.some_ne_none i), creates⟩
  | none =>
    cases free : v.firstFreeInode with
    | none =>
      rw [found, free] at creates
      exact .inl ⟨.inr rfl, creates⟩
    | some i =>
      rw [found, free] at creates
      exact .inr ⟨i, rfl, rfl, creates⟩

end SsuOs.Ssufs
