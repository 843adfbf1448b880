import SsuOs.Xv6Fs.BufControl

/-!
# The ring of buffers

`Ordered` is about the ring: it has all buffers, and of two buffers for the same block the later one
has not been used since the machine was started. `reorder` says how a step changes the order.
-/

namespace SsuOs.Xv6Fs.Buffers

open Links

section
variable {B : Type} {b : B} {l : List B} {p q : B → Bool}

/-- What is found first is still found first when less is looked for. -/
theorem find?_of_imp (found : l.find? p = some b) (here : q b = true)
    (less : ∀ c, q c = true → p c = true) : l.find? q = some b := by
  rw [List.find?_eq_some_iff_append] at found ⊢
  obtain ⟨-, before, behind, eq, skipped⟩ := found
  refine ⟨here, before, behind, eq, fun c mem => ?_⟩
  have other := skipped c mem
  by_contra looked
  simp [less c (by simpa using looked)] at other

/-- The only element that is looked for is found. -/
theorem find?_of_unique (mem : b ∈ l) (here : p b = true)
    (only : ∀ c, p c = true → c = b) : l.find? p = some b := by
  cases found : l.find? p with
  | none => exact absurd here (List.find?_eq_none.1 found b mem)
  | some c => rw [only c (List.find?_some found)]

/-- An element that is not looked for can move to the front. -/
theorem find?_moveFront [DecidableEq B] (other : p b = false) :
    (b :: l.erase b).find? p = l.find? p := by
  rw [List.find?_cons_of_neg (by simp [other])]
  induction l with
  | nil => rfl
  | cons c l ih =>
    rw [List.erase_cons]
    split_ifs with same
    · obtain rfl : c = b := beq_iff_eq.1 same
      rw [List.find?_cons_of_neg (by simp [other])]
    · rw [List.find?_cons, List.find?_cons, ih]

end

namespace System

variable {T B V : Type} {s s' : System T B V} {a : Label T B V} {t : T} {b : B} {l : List B}

/-- Somebody uses the buffer, or has used it since it was taken for its block. -/
def Used (s : System T B V) (b : B) : Prop := 0 < (s.buf b).refcnt ∨ (s.buf b).valid = true

/-- The buffers in the order of the ring. A buffer that was used is the first one for its block. -/
structure Ordered (s : System T B V) (l : List B) : Prop where
  linked : s.links.Linked l
  complete : ∀ b, b ∈ l
  first : ∀ b, s.Used b → l.find? (fun c => s.addr c = s.addr b) = some b

namespace Ordered

/-- Two buffers in use are for different blocks. -/
theorem eq_of_addr (ordered : Ordered s l) {b c : B} (used : s.Used b) (used' : s.Used c)
    (same : s.addr b = s.addr c) : b = c := by
  have first := ordered.first b used
  rw [same, ordered.first c used'] at first
  exact (Option.some.inj first).symm

section
variable [Fintype B]

theorem length_le (ordered : Ordered s l) : l.length < Fintype.card B + 1 :=
  Nat.lt_succ_of_le ordered.linked.nodup.length_le_card

/-- The first loop of `bget` finds the first buffer for the block. -/
theorem cached_eq (ordered : Ordered s l) (dev blockno : ℕ) :
    s.cached dev blockno = l.find? fun b => s.addr b = (dev, blockno) := by
  rw [cached, ordered.linked.scan_next _ ordered.length_le]
  simp [addr]

/-- The second loop of `bget` finds the last buffer that is free. -/
theorem recyclable_eq (ordered : Ordered s l) : s.recyclable =
    l.reverse.find? fun b => (s.buf b).refcnt = 0 ∧ (s.buf b).dirty = false :=
  ordered.linked.scan_prev _ ordered.length_le

theorem cached_eq_none (ordered : Ordered s l) {dev blockno : ℕ} :
    s.cached dev blockno = none ↔ ∀ b, s.addr b ≠ (dev, blockno) := by
  rw [ordered.cached_eq, List.find?_eq_none]
  simp [ordered.complete]

theorem recyclable_eq_none (ordered : Ordered s l) :
    s.recyclable = none ↔ ∀ b, 0 < (s.buf b).refcnt ∨ (s.buf b).dirty = true := by
  rw [ordered.recyclable_eq, List.find?_eq_none]
  simp [ordered.complete, Nat.pos_iff_ne_zero, or_iff_not_imp_left]

end

variable [DecidableEq B]

theorem binit {bufs : List B} (nodup : bufs.Nodup) (all : ∀ b, b ∈ bufs) (memory : V)
    (disk : ℕ → ℕ → V) :
    Ordered (System.binit bufs memory disk : System T B V) bufs.reverse where
  linked := NodeRing.linked_foldl_pushFront nodup
  complete := by simpa using all
  first := by simp [Used, System.binit]

/-- A buffer changes that stays in the ring and for its block. -/
theorem of_touch (ordered : Ordered s l) {x : Buf T V} (links : s'.links = s.links)
    (buf : s'.buf = Function.update s.buf b x) (dev : x.dev = (s.buf b).dev)
    (blockno : x.blockno = (s.buf b).blockno)
    (found : l.find? (fun c => s.addr c = s.addr b) = some b) : Ordered s' l where
  linked := links ▸ ordered.linked
  complete := ordered.complete
  first := by
    have addr (c : B) : s'.addr c = s.addr c := by
      simp only [System.addr, buf, Function.update_apply]
      split_ifs with same
      · rw [same, dev, blockno]
      · rfl
    intro c used
    simp only [addr]
    by_cases same : c = b
    · rw [same]
      exact found
    · apply ordered.first
      simpa [Used, buf, Function.update_of_ne same] using used

end Ordered

variable [DecidableEq B]

/-- The order of the ring after a step: a buffer that nobody refers to any more goes to the front. -/
def reorder (s : System T B V) (a : Label T B V) (l : List B) : List B :=
  match a with
  | .drop t =>
    match s.proc t with
    | .releasing b => if (s.buf b).refcnt - 1 = 0 then b :: l.erase b else l
    | _ => l
  | _ => l

section
variable [Fintype T]

theorem Control.used_of_lock (control : Control s) (lock : (s.buf b).lock = some t) : s.Used b := by
  have counted := control.refcnt b
  rw [lock, Option.isSome_some, Bool.toNat_true] at counted
  left
  omega

theorem Control.used_of_refers (control : Control s) (refers : (s.proc t).refers b = true) :
    s.Used b :=
  .inl (control.refcnt_pos refers)

end

namespace Ordered

variable [DecidableEq T]

/-- A buffer that is not in use is taken for a block that has none. -/
theorem recycles (ordered : Ordered s l) {x : Buf T V} {p : Point B}
    (missing : ∀ c, s.addr c ≠ (x.dev, x.blockno)) :
    Ordered ((s.setBuf b x).goto t p) l where
  linked := ordered.linked
  complete := ordered.complete
  first := by
    intro c used
    have get (d : B) : ((s.setBuf b x).goto t p).addr d =
        if d = b then (x.dev, x.blockno) else s.addr d := by
      simp only [addr, goto_buf, setBuf_buf, Function.update_apply]
      split_ifs <;> rfl
    simp only [get]
    by_cases same : c = b
    · subst same
      apply find?_of_unique (ordered.complete c)
      · simp
      · intro d matching
        by_contra other
        simp only [if_neg other, if_true, decide_eq_true_eq] at matching
        exact missing d matching
    · have usedc : s.Used c := by
        simpa [Used, Function.update_of_ne same] using used
      apply find?_of_imp (ordered.first c usedc)
      · simp
      · intro d matching
        rw [if_neg same, decide_eq_true_eq] at matching
        split_ifs at matching with taken
        · exact absurd matching.symm (missing c)
        · simpa using matching

variable [Fintype T]

/-- A buffer goes to the front when the last reference to it is dropped. -/
theorem frees (ordered : Ordered s l) (control : Control s) (here : s.proc t = .releasing b) :
    Ordered { (s.setBuf b { s.buf b with refcnt := (s.buf b).refcnt - 1 }).goto t .idle with
      links := (s.links.unlink b).pushFront b } (b :: l.erase b) := by
  have used : s.Used b := control.used_of_refers (t := t) (by simp [here])
  set s' : System T B V := { (s.setBuf b { s.buf b with refcnt := (s.buf b).refcnt - 1 }).goto t .idle
    with links := (s.links.unlink b).pushFront b }
  have addr (c : B) : s'.addr c = s.addr c := by
    simp only [s', System.addr, goto_buf, setBuf_buf, Function.update_apply]
    split_ifs with same
    · rw [same]
    · rfl
  refine ⟨ordered.linked.moveFront (ordered.complete b), ?_, ?_⟩
  · intro c
    by_cases same : c = b
    · simp [same]
    · exact List.mem_cons_of_mem b ((List.mem_erase_of_ne same).2 (ordered.complete c))
  · intro c usedc
    simp only [addr]
    by_cases same : c = b
    · subst same
      simp
    · have before : s.Used c := by
        simpa [s', Used, Function.update_of_ne same] using usedc
      rw [find?_moveFront]
      · exact ordered.first c before
      · simp only [decide_eq_false_iff_not]
        intro matching
        exact same (ordered.eq_of_addr before used matching.symm)

theorem keeps [Fintype B] (ordered : Ordered s l) (control : Control s) (effect : Effect s a s') :
    Ordered s' (reorder s a l) := by
  cases effect with
  | @hits t dev blockno b here found =>
    refine ordered.of_touch (b := b) rfl rfl rfl rfl ?_
    rw [cached_eq_some found, ← ordered.cached_eq, found]
  | @recycles t dev blockno b here missing found =>
    apply ordered.recycles
    exact ordered.cached_eq_none.1 missing
  | @locks t b here free valid =>
    exact ordered.of_touch (b := b) rfl rfl rfl rfl
      (ordered.first b (control.used_of_refers (t := t) (by simp [here])))
  | @fetches t b here free invalid =>
    exact ordered.of_touch (b := b) rfl rfl rfl rfl
      (ordered.first b (control.used_of_refers (t := t) (by simp [here])))
  | @modifies t b data holds =>
    exact ordered.of_touch (b := b) rfl rfl rfl rfl (ordered.first b (control.used_of_lock holds.1))
  | @marks t b holds =>
    exact ordered.of_touch (b := b) rfl rfl rfl rfl (ordered.first b (control.used_of_lock holds.1))
  | @writes t b holds =>
    exact ordered.of_touch (b := b) rfl rfl rfl rfl (ordered.first b (control.used_of_lock holds.1))
  | wakes here valid clean => exact ⟨ordered.linked, ordered.complete, ordered.first⟩
  | @releases t b holds =>
    exact ordered.of_touch (b := b) rfl rfl rfl rfl (ordered.first b (control.used_of_lock holds.1))
  | @drops t b here others =>
    rw [reorder, here]
    simp only [if_neg others]
    exact ordered.of_touch (b := b) rfl rfl rfl rfl
      (ordered.first b (control.used_of_refers (t := t) (by simp [here])))
  | @frees t b here last =>
    rw [reorder, here]
    simp only [if_pos last]
    exact ordered.frees control here
  | idles empty => exact ⟨ordered.linked, ordered.complete, ordered.first⟩
  | @serves fault b rest queue =>
    obtain ⟨⟨t, waiting⟩, -⟩ := (control.queued b).1 (by simp [queue])
    exact ordered.of_touch (b := b) rfl rfl rfl rfl
      (ordered.first b (control.used_of_lock (control.waiting t b waiting)))

end Ordered

end System

end SsuOs.Xv6Fs.Buffers
