import Mathlib.Algebra.Order.BigOperators.Group.Finset
import SsuOs.Xv6Fs.LogControl

/-!
# The space that operations reserve

`begin_op` lets an operation in when the log has room for `MAXOPBLOCKS` more blocks, beside those
that are logged and those that the open operations may still log. It counts the blocks that the
header has room for. The log on the disk may have fewer: `mkfs` gives it `LOGSIZE` blocks with the
header. Operations that keep to their share of the blocks on the disk never overrun the log, and
none of the checks of `log.c` stops the machine.
-/

namespace SsuOs.Xv6Fs.Log

/-- The blocks that an operation may log when all others log as many as `begin_op` counts on. -/
def Geometry.share (g : Geometry) : ℕ := min maxOpBlocks (g.size - 1 - (logSize - maxOpBlocks))

theorem Geometry.lt_share {g : Geometry} {n : ℕ} :
    n < g.share ↔ n < maxOpBlocks ∧ n + (logSize - maxOpBlocks) + 1 < g.size := by
  rw [share, lt_min_iff]
  simp only [logSize, maxOpBlocks]
  omega

/-- A log with `LOGSIZE` blocks behind its header has room for what `begin_op` reserves. -/
theorem Geometry.share_eq {g : Geometry} (room : logSize < g.size) : g.share = maxOpBlocks := by
  simp only [share, logSize, maxOpBlocks] at room ⊢
  omega

namespace System

variable {T : Type} [DecidableEq T] {g : Geometry} {s s' : System T} {a : Label T}
  {l : List (Event (System T) (Label T))} {t : T}

/-- What an event adds to the blocks that the operation of `t` has logged. -/
def draw (t : T) (d : Finset ℕ) (e : Event (System T) (Label T)) : Finset ℕ :=
  match e.label with
  | .beginOp u => if u = t then ∅ else d
  | .record u =>
    match e.before.proc u with
    | .recording b => if u = t then insert b d else d
    | _ => d
  | .crash => ∅
  | _ => d

/-- The blocks that the present operation of `t` has logged. -/
def drawn (l : List (Event (System T) (Label T))) (t : T) : Finset ℕ := l.foldl (draw t) ∅

theorem drawn_snoc (l : List (Event (System T) (Label T))) (e : Event (System T) (Label T)) :
    drawn (l ++ [e]) t = draw t (drawn l t) e := by
  simp [drawn]

/-- What `record` adds to what `t` has logged. -/
theorem drawn_record {b : ℕ} (here : s.proc t = .recording b) (v : T) :
    drawn (l ++ [⟨s, .record t, s'⟩]) v =
      if v = t then insert b (drawn l t) else drawn l v := by
  rw [drawn_snoc]
  by_cases same : v = t
  · simp [draw, here, same]
  · simp [draw, here, same, Ne.symm same]

/-- The event is not a write of the file system to the log or past the end of the disk, and not one
of an operation that has already logged `n` blocks. -/
def Lawful (g : Geometry) (n : ℕ) (l : List (Event (System T) (Label T)))
    (e : Event (System T) (Label T)) : Prop :=
  match e.label with
  | .modify t b _ => (g.Home b ∧ b < fsSize) ∧ (drawn l t).card < n
  | _ => True

instance (g : Geometry) (n : ℕ) (l : List (Event (System T) (Label T)))
    (e : Event (System T) (Label T)) : Decidable (Lawful g n l e) :=
  match e with
  | ⟨_, .modify _ _ _, _⟩ => inferInstanceAs (Decidable ((_ ∧ _) ∧ _))
  | ⟨_, .beginOp _, _⟩ | ⟨_, .record _, _⟩ | ⟨_, .endOp _, _⟩ | ⟨_, .commit _, _⟩
  | ⟨_, .kill _, _⟩ | ⟨_, .evict _, _⟩ | ⟨_, .recover, _⟩ | ⟨_, .crash, _⟩ => isTrue trivial

variable [Fintype T]

/-- What the open operations may still log. -/
def reserve (l : List (Event (System T) (Label T))) (s : System T) : ℕ :=
  ∑ t ∈ s.active, (maxOpBlocks - (drawn l t).card)

structure Reserved (g : Geometry) (l : List (Event (System T) (Label T))) (s : System T) :
    Prop where
  own : ∀ t, (s.proc t).active = true → ∀ b ∈ drawn l t, b ∈ s.lh
  space : s.lh.length + reserve l s ≤ logSize
  fits : s.lh.length < g.size
  pending : ∀ t b, s.proc t = .recording b → (g.Home b ∧ b < fsSize) ∧
    (drawn l t).card < g.share
  nodup : s.lh.Nodup
  home : ∀ b ∈ s.lh, g.Home b ∧ b < fsSize

/-- A step after which nobody is inside who was not inside before, with the same log. -/
theorem Reserved.narrows {l' : List (Event (System T) (Label T))} (reserved : Reserved g l s)
    (lh : s'.lh = s.lh)
    (fewer : ∀ t, (s'.proc t).active = true → (s.proc t).active = true ∧ drawn l' t = drawn l t)
    (pending : ∀ t b, s'.proc t = .recording b → s.proc t = .recording b ∨
      (g.Home b ∧ b < fsSize) ∧ (drawn l t).card < g.share) : Reserved g l' s' := by
  have less : reserve l' s' ≤ reserve l s := by
    have within : s'.active ⊆ s.active := by
      intro t
      rw [mem_active, mem_active]
      exact fun inside => (fewer t inside).1
    calc reserve l' s'
        = ∑ t ∈ s'.active, (maxOpBlocks - (drawn l t).card) := by
          apply Finset.sum_congr rfl
          intro t inside
          rw [(fewer t (mem_active.1 inside)).2]
      _ ≤ reserve l s := Finset.sum_le_sum_of_subset within
  constructor
  · intro t inside
    rw [lh, (fewer t inside).2]
    exact reserved.own t (fewer t inside).1
  · rw [lh]
    exact (Nat.add_le_add_left less _).trans reserved.space
  · rw [lh]
    exact reserved.fits
  · intro t b here
    have inside := fewer t (by simp [here, Point.active])
    rw [inside.2]
    exact (pending t b here).elim (reserved.pending t b) id
  · rw [lh]
    exact reserved.nodup
  · rw [lh]
    exact reserved.home

/-- A log that is read from the disk or erased, while nobody is inside. -/
theorem reserved_of_idle (idle : ∀ t, (s.proc t).active = false) (few : s.lh.length ≤ logSize)
    (fits : s.lh.length < g.size) (nodup : s.lh.Nodup) (home : ∀ b ∈ s.lh, g.Home b ∧ b < fsSize) :
    Reserved g l s := by
  have nobody : s.active = ∅ := Finset.eq_empty_of_forall_notMem fun t => by simp [idle]
  constructor
  · simp [idle]
  · simpa [reserve, nobody] using few
  · exact fits
  · intro t b here
    have := idle t
    simp [here, Point.active] at this
  · exact nodup
  · exact home

theorem reserve_le (l : List (Event (System T) (Label T))) (s : System T) :
    reserve l s ≤ s.active.card * maxOpBlocks :=
  Finset.sum_le_card_nsmul _ _ _ fun _ _ => Nat.sub_le ..

theorem Reserved.enters (control : Control s) (reserved : Reserved g l s)
    (here : s.proc t = .outside ∨ s.proc t = .woken)
    (room : s.lh.length + (s.outstanding + 1) * maxOpBlocks ≤ logSize) :
    Reserved g (l ++ [⟨s, .beginOp t, s'⟩])
      ({ s with outstanding := s.outstanding + 1 }.goto t .inside) := by
  set u := { s with outstanding := s.outstanding + 1 }.goto t .inside
  have place : ∀ v, u.proc v = if v = t then .inside else s.proc v := fun v =>
    Function.update_apply ..
  have fresh : drawn (l ++ [⟨s, .beginOp t, s'⟩]) t = ∅ := by simp [drawn_snoc, draw]
  have others : ∀ v, v ≠ t → drawn (l ++ [⟨s, .beginOp t, s'⟩]) v = drawn l v := by
    intro v other
    simp [drawn_snoc, draw, other.symm]
  have was : t ∉ s.active := by
    rw [mem_active]
    rcases here with here | here <;> simp [here, Point.active]
  have now : u.active = insert t s.active := by
    ext v
    simp only [mem_active, Finset.mem_insert, place]
    by_cases same : v = t <;> simp [same, Point.active]
  constructor
  · intro v inside b drew
    by_cases same : v = t
    · simp [same, fresh] at drew
    · rw [others v same] at drew
      exact reserved.own v (by simpa [place, same] using inside) b drew
  · have rest : ∑ v ∈ s.active, (maxOpBlocks - (drawn (l ++ [⟨s, .beginOp t, s'⟩]) v).card) =
        reserve l s := by
      apply Finset.sum_congr rfl
      intro v inside
      rw [others v (ne_of_mem_of_not_mem inside was)]
    have bound := reserve_le l s
    rw [control.opened] at room
    rw [reserve, now, Finset.sum_insert was, rest, fresh, Finset.card_empty]
    change (s.lh.length : ℤ) + (s.active.card + 1) * 10 ≤ 30 at room
    change s.lh.length + (10 + reserve l s) ≤ 30
    change _ ≤ _ * 10 at bound
    omega
  · exact reserved.fits
  · intro v b recording
    rw [place] at recording
    split at recording
    · cases recording
    · rename_i other
      rw [others v other]
      exact reserved.pending v b recording
  · exact reserved.nodup
  · exact reserved.home

/-- When a block is recorded, the log grows by no more than the reserve shrinks. -/
theorem Reserved.record_le {b : ℕ} (reserved : Reserved g l s) (here : s.proc t = .recording b)
    (lh : s'.lh = if b ∈ s.lh then s.lh else s.lh ++ [b]) (now : s'.active = s.active) :
    s'.lh.length + reserve (l ++ [⟨s, .record t, s'⟩]) s' ≤ s.lh.length + reserve l s := by
  have was : t ∈ s.active := by simp [here, Point.active]
  have drew : ∀ v, drawn (l ++ [⟨s, .record t, s'⟩]) v =
      if v = t then insert b (drawn l t) else drawn l v := drawn_record here
  have rest : ∑ v ∈ s.active.erase t,
      (maxOpBlocks - (drawn (l ++ [⟨s, .record t, s'⟩]) v).card) =
      ∑ v ∈ s.active.erase t, (maxOpBlocks - (drawn l v).card) := by
    apply Finset.sum_congr rfl
    intro v inside
    rw [drew, if_neg (Finset.ne_of_mem_erase inside)]
  rw [reserve, reserve, now, ← Finset.add_sum_erase _ _ was, ← Finset.add_sum_erase _ _ was,
    rest, drew, if_pos rfl, lh]
  by_cases listed : b ∈ s.lh
  · rw [if_pos listed]
    have := Finset.card_le_card (Finset.subset_insert b (drawn l t))
    omega
  · have unseen : b ∉ drawn l t := fun seen => listed (reserved.own t (mem_active.1 was) b seen)
    have few := (Geometry.lt_share.1 (reserved.pending t b here).2).1
    rw [if_neg listed, Finset.card_insert_of_notMem unseen, List.length_append,
      List.length_singleton]
    omega

/-- An operation that has not logged all of its share finds room in the log. -/
theorem Reserved.room (reserved : Reserved g l s) (inside : (s.proc t).active = true)
    (within : (drawn l t).card < g.share) :
    s.lh.length < logSize ∧ s.lh.length + 1 < g.size := by
  have part : maxOpBlocks - (drawn l t).card ≤ reserve l s :=
    Finset.single_le_sum (f := fun v => maxOpBlocks - (drawn l v).card) (fun _ _ => Nat.zero_le _)
      (mem_active.2 inside)
  have space := reserved.space
  rw [Geometry.lt_share] at within
  simp only [logSize, maxOpBlocks] at within space part ⊢
  omega

/-- Recording a block, whether it is in the log or not. -/
theorem Reserved.records {b : ℕ} (reserved : Reserved g l s) (here : s.proc t = .recording b)
    (place : s'.proc = Function.update s.proc t .inside)
    (lh : s'.lh = if b ∈ s.lh then s.lh else s.lh ++ [b]) :
    Reserved g (l ++ [⟨s, .record t, s'⟩]) s' := by
  have allowed := reserved.pending t b here
  have drew : ∀ v, drawn (l ++ [⟨s, .record t, s'⟩]) v =
      if v = t then insert b (drawn l t) else drawn l v := drawn_record here
  have old : ∀ c ∈ s.lh, c ∈ s'.lh := by grind
  have new : b ∈ s'.lh := by grind
  have place : ∀ v, s'.proc v = if v = t then .inside else s.proc v := fun v => by
    rw [place, Function.update_apply]
  have was : t ∈ s.active := by simp [here, Point.active]
  have now : s'.active = s.active := by
    apply active_congr
    intro v
    rw [place]
    split
    · simp [*, Point.active]
    · rfl
  constructor
  · intro v inside c mem
    rw [drew] at mem
    split at mem
    · rcases Finset.mem_insert.1 mem with rfl | earlier
      · exact new
      · exact old c (reserved.own t (by simp [here, Point.active]) c earlier)
    · rw [place, if_neg ‹_›] at inside
      exact old c (reserved.own v inside c mem)
  · exact (reserved.record_le here lh now).trans reserved.space
  · have room := reserved.room (mem_active.1 was) allowed.2
    have length : s'.lh.length ≤ s.lh.length + 1 := by rw [lh]; split <;> simp
    omega
  · intro v c recording
    rw [place] at recording
    split at recording
    · cases recording
    · rw [drew, if_neg ‹_›]
      exact reserved.pending v c recording
  · rw [lh]
    split
    · exact reserved.nodup
    · rw [← List.concat_eq_append]
      exact reserved.nodup.concat ‹_›
  · intro c mem
    rw [lh] at mem
    split at mem
    · exact reserved.home c mem
    · rcases List.mem_append.1 mem with earlier | last
      · exact reserved.home c earlier
      · rw [List.mem_singleton.1 last]
        exact allowed.1

/-- A step after which the processes inside are where they were, with the same log. -/
theorem Reserved.stays {l' : List (Event (System T) (Label T))} (reserved : Reserved g l s)
    (lh : s'.lh = s.lh)
    (same : ∀ u, (s'.proc u).active = true → s'.proc u = s.proc u ∧ drawn l' u = drawn l u) :
    Reserved g l' s' := by
  apply reserved.narrows lh
  · intro u inside
    obtain ⟨place, drew⟩ := same u inside
    exact ⟨place ▸ inside, drew⟩
  · intro u b recording
    have inside : (s'.proc u).active = true := by simp [recording, Point.active]
    exact .inl ((same u inside).1 ▸ recording)

/-- A step of a process that does not enter, with a label that adds nothing to what is logged. -/
theorem Reserved.moves {p : Point} (reserved : Reserved g l s)
    (place : s'.proc = Function.update s.proc t p) (lh : s'.lh = s.lh)
    (outside : p.active = false)
    (drew : ∀ u, u ≠ t → drawn (l ++ [⟨s, a, s'⟩]) u = drawn l u) :
    Reserved g (l ++ [⟨s, a, s'⟩]) s' := by
  apply reserved.stays lh
  intro u inside
  have other : u ≠ t := by
    rintro rfl
    simp [place, outside] at inside
  exact ⟨by rw [place, Function.update_of_ne other], drew u other⟩

theorem Reserved.keeps (control : Control s) (reserved : Reserved g l s)
    (lawful : Lawful g g.share l ⟨s, a, s'⟩) (header : head (s.disk g.start) = s.lh ∨
      head (s.disk g.start) = []) (effect : Effect g s a s') :
    Reserved g (l ++ [⟨s, a, s'⟩]) s' := by
  have size : 0 < g.size := Nat.zero_lt_of_lt reserved.fits
  cases effect with
  | sleeps t up here busy =>
    refine reserved.moves rfl rfl rfl fun u other => ?_
    simp [drawn_snoc, draw, other.symm]
  | enters t up here free room => exact reserved.enters control here room
  | modifies t b data here =>
    apply reserved.narrows
    · rfl
    · intro u inside
      refine ⟨?_, by simp [drawn_snoc, draw]⟩
      by_cases same : u = t
      · simp [same, here, Point.active]
      · simpa [goto, same] using inside
    · intro u c recording
      by_cases same : u = t
      · rw [same] at recording ⊢
        simp only [goto, Function.update_self, Point.recording.injEq] at recording
        exact .inr (recording ▸ lawful)
      · exact .inl (by simpa [goto, same] using recording)
  | absorbs t b here listed => exact reserved.records here rfl (if_pos listed).symm
  | appends t b here new few => exact reserved.records here rfl (if_neg new).symm
  | leaves t here free others =>
    refine reserved.stays rfl fun u inside => ⟨?_, by simp [drawn_snoc, draw]⟩
    simp only [goto, wakeup] at inside ⊢
    grind [Point.active]
  | ends t here free last => exact reserved.moves rfl rfl rfl fun _ _ => by simp [drawn_snoc, draw]
  | starts t here dirty => exact reserved.moves rfl rfl rfl fun _ _ => by simp [drawn_snoc, draw]
  | skips t here empty => exact reserved.moves rfl rfl rfl fun _ _ => by simp [drawn_snoc, draw]
  | copies t tail here below =>
    exact reserved.moves rfl rfl rfl fun _ _ => by simp [drawn_snoc, draw]
  | commits t tail here all =>
    exact reserved.moves rfl rfl rfl fun _ _ => by simp [drawn_snoc, draw]
  | installs t tail here below =>
    exact reserved.moves rfl rfl rfl fun _ _ => by simp [drawn_snoc, draw]
  | clears t tail here all =>
    have busy := control.committer.2 ⟨t, by simp [here, Point.commits]⟩
    refine reserved_of_idle ?_ (Nat.zero_le _) size List.nodup_nil (by simp [bwrite])
    intro u
    by_cases same : u = t
    · simp [goto, same, Point.active]
    · have := mem_active.not.1 (control.exclusive busy ▸ Finset.notMem_empty u)
      simpa [goto, same, bwrite] using this
  | closes t here =>
    refine reserved.stays rfl fun u inside => ⟨?_, by simp [drawn_snoc, draw]⟩
    simp only [goto, wakeup] at inside ⊢
    grind [Point.active]
  | kills t here => exact reserved.moves rfl rfl rfl fun _ _ => by simp [drawn_snoc, draw]
  | evicts b clean unlocked =>
    exact reserved.stays rfl fun u _ => ⟨rfl, by simp [drawn_snoc, draw]⟩
  | reinstalls tail down below =>
    exact reserved.stays rfl fun u _ => ⟨rfl, by simp [drawn_snoc, draw]⟩
  | recovers tail down all =>
    refine reserved_of_idle ?_ (Nat.zero_le _) size List.nodup_nil (by simp [bwrite])
    intro u
    change (s.proc u).active = false
    rw [(control.down (by simp [down])).2 u]
    rfl
  | reboots few =>
    rcases header with same | empty
    · refine reserved_of_idle (fun _ => rfl) few ?_ ?_ ?_
      · simpa only [booted, same] using reserved.fits
      · simpa only [booted, same] using reserved.nodup
      · simpa only [booted, same] using reserved.home
    · refine reserved_of_idle (fun _ => rfl) few ?_ ?_ ?_
      · simpa [booted, empty] using size
      · simp [booted, empty]
      · simp [booted, empty]

end System

end SsuOs.Xv6Fs.Log
