import SsuOs.Xv6Fs.BufRing

/-!
# The contents of buffers

What the blocks of the drives contain, through whatever buffers they were changed. `Coherent` says
how cache and disk have these contents. A changed buffer is to be written or marked before it is
released, and from the answer of the disk on, a buffer that was written and not changed since is as
it is on the disk.
-/

namespace SsuOs.Xv6Fs.Buffers

/-- The blocks of the drives, with another content for one of them. -/
def write {V : Type} (C : ℕ → ℕ → V) (dev blockno : ℕ) (v : V) : ℕ → ℕ → V :=
  Function.update C dev (Function.update (C dev) blockno v)

theorem write_apply {V : Type} (C : ℕ → ℕ → V) (dev blockno : ℕ) (v : V) (d n : ℕ) :
    write C dev blockno v d n = if (d, n) = (dev, blockno) then v else C d n := by
  by_cases drive : d = dev
  · subst drive
    simp [write, Function.update_apply]
  · simp [write, Function.update_of_ne, drive]

/-- The buffers that were changed and then neither written nor marked, after a step. -/
def Label.notes {T B V : Type} [DecidableEq B] (a : Label T B V) (u : B → Bool) : B → Bool :=
  match a with
  | .modify _ b _ => Function.update u b true
  | .mark _ b | .bwrite _ b => Function.update u b false
  | _ => u

/-- What a kernel does that uses the cache as it is meant to be used, on a machine that works: there
are two drives, no buffer in `u` is released, and the disk does not fail. -/
def Label.Allowed {T B V : Type} (u : B → Bool) : Label T B V → Prop
  | .bread _ dev _ => dev < 2
  | .brelse _ b => u b = false
  | .interrupt fault => fault = false
  | .acquire _ | .modify _ _ _ | .mark _ _ | .bwrite _ _ | .wake _ | .drop _ => True

instance {T B V : Type} (u : B → Bool) (a : Label T B V) : Decidable (a.Allowed u) :=
  match a with
  | .bread _ _ _ => inferInstanceAs (Decidable (_ < _))
  | .brelse _ _ | .interrupt _ => inferInstanceAs (Decidable (_ = _))
  | .acquire _ | .modify _ _ _ | .mark _ _ | .bwrite _ _ | .wake _ | .drop _ => isTrue trivial

namespace System

variable {T B V : Type} {s s' : System T B V} {a : Label T B V} {t : T} {b : B}
  {C : ℕ → ℕ → V} {u u' : B → Bool} {l : List B}

/-- What the blocks of the drives have become by a step. -/
def writes (s : System T B V) (a : Label T B V) (C : ℕ → ℕ → V) : ℕ → ℕ → V :=
  match a with
  | .modify _ b data => write C (s.buf b).dev (s.buf b).blockno data
  | _ => C

/-- The buffers in `u` are locked, and nobody waits for the disk to write or read them. -/
def Guarded (s : System T B V) (u : B → Bool) : Prop :=
  ∀ b, u b = true → (∃ t, (s.buf b).lock = some t) ∧ ∀ t, s.proc t ≠ .waiting b

/-- The cache and the disk have the contents `C`, with the buffers in `u` still to be written or
marked. -/
structure Coherent (s : System T B V) (C : ℕ → ℕ → V) (u : B → Bool) : Prop where
  drive : ∀ b, (s.buf b).dev < 2
  cached : ∀ b, (s.buf b).valid = true → (s.buf b).data = C (s.buf b).dev (s.buf b).blockno
  disk : ∀ dev < 2, ∀ blockno, (∀ b, s.addr b = (dev, blockno) → (s.buf b).valid = false) →
    s.disk dev blockno = C dev blockno
  clean : ∀ b, u b = false → (s.buf b).valid = true → (s.buf b).dirty = false →
    s.disk (s.buf b).dev (s.buf b).blockno = (s.buf b).data

theorem Guarded.of_lock (guarded : Guarded s u) (free : (s.buf b).lock = none) : u b = false := by
  by_contra unsaved
  obtain ⟨⟨t, lock⟩, -⟩ := guarded b (by simpa using unsaved)
  simp [free] at lock

theorem Guarded.of_waiting (guarded : Guarded s u) (waits : s.proc t = .waiting b) :
    u b = false := by
  by_contra unsaved
  exact (guarded b (by simpa using unsaved)).2 t waits

/-- A step that unlocks no buffer in `u` and lets nobody wait for one. -/
theorem Guarded.moves (guarded : Guarded s u) (fewer : ∀ c, u' c = true → u c = true)
    (lock : ∀ c t, u' c = true → (s.buf c).lock = some t → (s'.buf c).lock = some t)
    (waits : ∀ c t, s'.proc t = .waiting c → s.proc t = .waiting c ∨ u' c = false) :
    Guarded s' u' := by
  intro c unsaved
  obtain ⟨⟨t, held⟩, nobody⟩ := guarded c (fewer c unsaved)
  refine ⟨⟨t, lock c t unsaved held⟩, fun v waiting => ?_⟩
  rcases waits c v waiting with before | saved
  · exact nobody v before
  · simp [unsaved] at saved

variable [DecidableEq B]

namespace Coherent

theorem binit (bufs : List B) (memory : V) (disk : ℕ → ℕ → V) :
    Coherent (System.binit bufs memory disk : System T B V) disk fun _ => false := by
  constructor <;> simp [System.binit]

/-- A buffer changes in its lock, its count or its mark. -/
theorem of_touch (coherent : Coherent s C u) {x : Buf T V} (disk : s'.disk = s.disk)
    (buf : s'.buf = Function.update s.buf b x) (dev : x.dev = (s.buf b).dev)
    (blockno : x.blockno = (s.buf b).blockno) (valid : x.valid = (s.buf b).valid)
    (data : x.data = (s.buf b).data) (others : ∀ c ≠ b, u' c = u c)
    (clean : u' b = false → x.valid = true → x.dirty = false →
      s.disk (s.buf b).dev (s.buf b).blockno = (s.buf b).data) : Coherent s' C u' := by
  have get (c : B) : s'.buf c = if c = b then x else s.buf c := by
    rw [buf, Function.update_apply]
  have addr (c : B) : s'.addr c = s.addr c := by
    rw [System.addr, get]
    split_ifs with same
    · rw [same, dev, blockno, System.addr]
    · rfl
  have kept (c : B) : (s'.buf c).dev = (s.buf c).dev ∧ (s'.buf c).blockno = (s.buf c).blockno ∧
      (s'.buf c).valid = (s.buf c).valid ∧ (s'.buf c).data = (s.buf c).data := by
    rw [get]
    split_ifs with same
    · subst same
      exact ⟨dev, blockno, valid, data⟩
    · exact ⟨rfl, rfl, rfl, rfl⟩
  constructor
  · intro c
    rw [(kept c).1]
    exact coherent.drive c
  · intro c isValid
    obtain ⟨dev, blockno, valid, data⟩ := kept c
    rw [dev, blockno, data]
    exact coherent.cached c (valid.symm.trans isValid)
  · intro d small n none
    rw [disk]
    apply coherent.disk d small n
    intro c here
    rw [← (kept c).2.2.1]
    exact none c ((addr c).trans here)
  · intro c saved isValid isClean
    obtain ⟨dev', blockno', valid', data'⟩ := kept c
    rw [disk, dev', blockno', data']
    rw [get] at isValid isClean
    split_ifs at isValid isClean with same
    · subst same
      exact clean saved isValid isClean
    · exact coherent.clean c ((others c same).symm.trans saved) isValid isClean

/-- The holder of a buffer changes it. -/
theorem modifies (coherent : Coherent s C u) (ordered : Ordered s l)
    (valid : (s.buf b).valid = true) (data : V) :
    Coherent (s.setBuf b { s.buf b with data }) (write C (s.buf b).dev (s.buf b).blockno data)
      (Function.update u b true) := by
  have get (c : B) : (s.setBuf b { s.buf b with data }).buf c =
      if c = b then { s.buf b with data } else s.buf c := by
    rw [setBuf_buf, Function.update_apply]
  have addr (c : B) : (s.setBuf b { s.buf b with data }).addr c = s.addr c := by
    rw [System.addr, get]
    split_ifs with same
    · rw [same]
      rfl
    · rfl
  constructor
  · intro c
    have drive := coherent.drive c
    rw [get]
    split_ifs with same
    · exact same ▸ drive
    · exact drive
  · intro c isValid
    rw [get] at isValid ⊢
    split_ifs at isValid ⊢ with same
    · rw [write_apply, if_pos rfl]
    · rw [write_apply, if_neg, coherent.cached c isValid]
      intro here
      exact same (ordered.eq_of_addr (.inr isValid) (.inr valid) here)
  · intro d small n none
    rw [write_apply, if_neg]
    · apply coherent.disk d small n
      intro c here
      have invalid := none c ((addr c).trans here)
      rw [get] at invalid
      split_ifs at invalid with same
      · rw [same]
        exact invalid
      · exact invalid
    · intro here
      have invalid := none b ((addr b).trans here.symm)
      rw [get, if_pos rfl] at invalid
      simp [valid] at invalid
  · intro c saved isValid isClean
    rw [get] at isValid isClean ⊢
    rw [Function.update_apply] at saved
    split_ifs at saved isValid isClean ⊢ with same
    exact coherent.clean c saved isValid isClean

/-- A free buffer is taken for another block. -/
theorem recycles (coherent : Coherent s C u) {x : Buf T V} (disk : s'.disk = s.disk)
    (buf : s'.buf = Function.update s.buf b x) (small : x.dev < 2) (invalid : x.valid = false)
    (saved : u b = false) (clean : (s.buf b).dirty = false) : Coherent s' C u := by
  have other {c : B} (apart : c ≠ b) : s'.buf c = s.buf c := by
    rw [buf, Function.update_of_ne apart]
  have this : s'.buf b = x := by rw [buf, Function.update_self]
  constructor
  · intro c
    by_cases same : c = b
    · rw [same, this]
      exact small
    · rw [other same]
      exact coherent.drive c
  · intro c isValid
    by_cases same : c = b
    · simp [same, this, invalid] at isValid
    · rw [other same] at isValid ⊢
      exact coherent.cached c isValid
  · intro d low n none
    rw [disk]
    by_cases stale : (s.buf b).valid = true ∧ s.addr b = (d, n)
    · obtain ⟨valid, rfl, rfl⟩ : (s.buf b).valid = true ∧ (s.buf b).dev = d ∧ (s.buf b).blockno = n := by
        simpa [addr] using stale
      rw [coherent.clean b saved valid clean, coherent.cached b valid]
    · apply coherent.disk d low n
      intro c here
      by_cases same : c = b
      · subst same
        simpa [here] using stale
      · rw [← other same]
        apply none
        rw [addr, other same]
        exact here
  · intro c saved isValid isClean
    by_cases same : c = b
    · simp [same, this, invalid] at isValid
    · rw [other same] at isValid isClean ⊢
      rw [disk]
      exact coherent.clean c saved isValid isClean

/-- What the disk did for the first buffer of the queue: it wrote the buffer or read the block. -/
theorem serve_eq (rest : List B) (request : s.request = some (s.buf b).command)
    (drive : (s.buf b).dev < 2) :
    (s.answered false b).data =
        (if (s.buf b).dirty then (s.buf b).data else s.disk (s.buf b).dev (s.buf b).blockno) ∧
      (s.serve false b rest).disk =
        if (s.buf b).dirty then write s.disk (s.buf b).dev (s.buf b).blockno (s.buf b).data
        else s.disk := by
  have same : (s.buf b).dev % 2 = (s.buf b).dev := Nat.mod_eq_of_lt drive
  cases dirty : (s.buf b).dirty with
  | true => simp [answered, transfer, request, Buf.command, dirty, same, write]
  | false => simp [answered, transfer, request, Buf.command, dirty, same]

/-- When the disk has written a buffer, or has read it, the buffer is as it is on the disk. -/
theorem serves [Fintype T] (coherent : Coherent s C u) (control : Control s)
    (ordered : Ordered s l) {rest : List B} (queue : s.idequeue = b :: rest) :
    Coherent (s.serve false b rest) C u := by
  obtain ⟨⟨t, waiting⟩, pending⟩ := (control.queued b).1 (by simp [queue])
  have used := control.used_of_lock (control.waiting t b waiting)
  have request : s.request = some (s.buf b).command := by rw [control.request, queue]; rfl
  obtain ⟨data, disk⟩ := serve_eq rest request (coherent.drive b)
  set s' := s.serve false b rest
  have other {c : B} (apart : c ≠ b) : s'.buf c = s.buf c := Function.update_of_ne apart _ _
  have this : s'.buf b = s.answered false b := Function.update_self _ _ _
  -- no other buffer for the block is valid
  have single {c : B} (valid : (s.buf c).valid = true) (here : s.addr c = s.addr b) : c = b :=
    ordered.eq_of_addr (.inr valid) used here
  have current : (s.answered false b).data = C (s.buf b).dev (s.buf b).blockno := by
    rw [data]
    split_ifs with dirty
    · exact coherent.cached b (control.dirty b dirty)
    · apply coherent.disk _ (coherent.drive b)
      intro c here
      by_contra valid
      obtain rfl := single (by simpa using valid) here
      exact dirty (pending (by simpa using valid))
  have elsewhere {d n : ℕ} (apart : (d, n) ≠ s.addr b) : s'.disk d n = s.disk d n := by
    rw [disk]
    split_ifs
    · exact (write_apply ..).trans (if_neg apart)
    · rfl
  have written : s'.disk (s.buf b).dev (s.buf b).blockno = (s.answered false b).data := by
    rw [disk, data]
    split_ifs
    · rw [write_apply, if_pos rfl]
    · rfl
  constructor
  · intro c
    by_cases same : c = b
    · rw [same, this]
      exact coherent.drive b
    · rw [other same]
      exact coherent.drive c
  · intro c isValid
    by_cases same : c = b
    · rw [same, this]
      exact current
    · rw [other same] at isValid ⊢
      exact coherent.cached c isValid
  · intro d low n none
    have apart : (d, n) ≠ s.addr b := by
      intro here
      have invalid := none b (by rw [addr, this, here]; rfl)
      simp [this, answered] at invalid
    rw [elsewhere apart]
    apply coherent.disk d low n
    intro c here
    have unlike : c ≠ b := by
      rintro rfl
      exact apart here.symm
    rw [← other unlike]
    apply none
    rw [addr, other unlike]
    exact here
  · intro c saved isValid isClean
    by_cases same : c = b
    · rw [same, this]
      exact written
    · rw [other same] at isValid isClean ⊢
      rw [elsewhere fun here => same (single isValid here)]
      exact coherent.clean c saved isValid isClean

end Coherent

variable [DecidableEq T]

/-- A process goes on, outside of `iderw`, and changes one buffer. -/
theorem Guarded.touch (guarded : Guarded s u) {x : Buf T V} {q : Point B}
    (lock : u b = true → x.lock = (s.buf b).lock) (quiet : ∀ c, q ≠ .waiting c) :
    Guarded ((s.setBuf b x).goto t q) u := by
  apply guarded.moves fun _ unsaved => unsaved
  · intro c v unsaved held
    simp only [goto_buf, setBuf_buf, Function.update_apply]
    split_ifs with same
    · subst same
      exact (lock unsaved).trans held
    · exact held
  · intro c v waits
    rw [goto_proc, Function.update_apply] at waits
    split_ifs at waits
    · exact absurd waits (quiet c)
    · exact .inl waits

theorem Guarded.enqueue (guarded : Guarded s u) {x : Buf T V} :
    Guarded ((s.setBuf b x).enqueue t b) (Function.update u b false) := by
  apply guarded.moves
  · intro c unsaved
    rw [Function.update_apply] at unsaved
    split_ifs at unsaved
    exact unsaved
  · intro c v unsaved held
    rw [Function.update_apply] at unsaved
    split_ifs at unsaved with same
    simpa [Function.update_of_ne same] using held
  · intro c v waits
    rw [enqueue_proc, Function.update_apply] at waits
    split_ifs at waits
    · obtain rfl : b = c := by simpa using waits
      exact .inr (Function.update_self ..)
    · exact .inl waits

variable [Fintype B] [Fintype T]

theorem Guarded.keeps (guarded : Guarded s u) (control : Control s) (effect : Effect s a s')
    (allowed : a.Allowed u) : Guarded s' (a.notes u) := by
  cases effect with
  | hits | recycles | drops | frees => exact guarded.touch (fun _ => rfl) (by simp)
  | @locks t b here free valid =>
    apply guarded.touch _ (by simp)
    intro unsaved
    simp [guarded.of_lock free] at unsaved
  | @fetches t b here free invalid =>
    have same : Function.update u b false = u := by
      rw [← guarded.of_lock free, Function.update_eq_self]
    have after := guarded.enqueue (t := t) (b := b) (x := { s.buf b with lock := some t })
    rwa [same] at after
  | @modifies t b data holds =>
    have nobody := control.not_waiting (by simp [holds.2]) (.inr holds.1)
    intro c unsaved
    rw [Label.notes, Function.update_apply] at unsaved
    by_cases same : c = b
    · subst same
      exact ⟨⟨t, by simp [holds.1]⟩, nobody⟩
    · rw [if_neg same] at unsaved
      obtain ⟨held, waits⟩ := guarded c unsaved
      exact ⟨by simpa [Function.update_of_ne same] using held, waits⟩
  | @marks t b holds =>
    apply guarded.moves
    · intro c unsaved
      rw [Label.notes, Function.update_apply] at unsaved
      split_ifs at unsaved
      exact unsaved
    · intro c v unsaved held
      simp only [setBuf_buf, Function.update_apply]
      split_ifs with same
      · exact same ▸ held
      · exact held
    · exact fun c v waits => .inl waits
  | writes holds => exact guarded.enqueue
  | wakes here valid clean =>
    refine guarded.moves (fun _ unsaved => unsaved) (fun _ _ _ held => held) ?_
    intro c v waits
    rw [goto_proc, Function.update_apply] at waits
    split_ifs at waits
    exact .inl waits
  | @releases t b holds =>
    apply guarded.touch _ (by simp)
    intro unsaved
    simp [show u b = false from allowed] at unsaved
  | idles empty => exact guarded
  | @serves fault b rest queue =>
    refine guarded.moves (fun _ unsaved => unsaved) ?_ fun _ _ waits => .inl waits
    intro c v unsaved held
    simp only [serve_buf, Function.update_apply]
    split_ifs with same
    · exact same ▸ held
    · exact held

theorem Coherent.keeps (coherent : Coherent s C u) (guarded : Guarded s u) (control : Control s)
    (ordered : Ordered s l) (effect : Effect s a s') (allowed : a.Allowed u) :
    Coherent s' (s.writes a C) (a.notes u) := by
  have others (b c : B) (v : Bool) (apart : c ≠ b) : Function.update u b v c = u c :=
    Function.update_of_ne apart ..
  cases effect with
  | @hits t dev blockno b here found =>
    exact coherent.of_touch (b := b) rfl rfl rfl rfl rfl rfl (fun _ _ => rfl) (coherent.clean b)
  | @recycles t dev blockno b here missing found =>
    obtain ⟨unused, clean⟩ := recyclable_eq_some found
    have saved := guarded.of_lock (control.recyclable_unused unused).1
    exact coherent.recycles (b := b) rfl rfl allowed rfl saved clean
  | @locks t b here free valid =>
    exact coherent.of_touch (b := b) rfl rfl rfl rfl rfl rfl (fun _ _ => rfl) (coherent.clean b)
  | @fetches t b here free invalid =>
    exact coherent.of_touch (b := b) rfl rfl rfl rfl rfl rfl (fun _ _ => rfl) (coherent.clean b)
  | @modifies t b data holds =>
    exact coherent.modifies ordered (control.valid t b holds.1 (by simp [holds.2])) data
  | @marks t b holds =>
    exact coherent.of_touch (b := b) rfl rfl rfl rfl rfl rfl (others b · false) (by simp)
  | @writes t b holds =>
    exact coherent.of_touch (b := b) rfl rfl rfl rfl rfl rfl (others b · false) (by simp)
  | wakes here valid clean =>
    exact ⟨coherent.drive, coherent.cached, coherent.disk, coherent.clean⟩
  | @releases t b holds =>
    exact coherent.of_touch (b := b) rfl rfl rfl rfl rfl rfl (fun _ _ => rfl) (coherent.clean b)
  | @drops t b here others =>
    exact coherent.of_touch (b := b) rfl rfl rfl rfl rfl rfl (fun _ _ => rfl) (coherent.clean b)
  | @frees t b here last =>
    exact coherent.of_touch (b := b) rfl rfl rfl rfl rfl rfl (fun _ _ => rfl) (coherent.clean b)
  | @idles fault empty =>
    have request : s.request = none := by rw [control.request, empty]; rfl
    have same : (if fault then s.disk else s.transfer.1) = s.disk := by
      simp [transfer, request]
    rw [same]
    exact ⟨coherent.drive, coherent.cached, coherent.disk, coherent.clean⟩
  | @serves fault b rest queue =>
    obtain rfl : fault = false := allowed
    exact coherent.serves control ordered queue

end System

end SsuOs.Xv6Fs.Buffers
