import SsuOs.Ssufs.Sizes

/-!
# Failing assertions

Formatting does not write the data blocks, so that a block past the end of the image cannot be read
before it has been written. A write that starts inside an empty slot allocates a block for it and
reads that block first. As long as unfinished writes are taken back rightly, this is the only way in
which a call of a careful user can fail an assertion (`assertion_iff_loadsUnwritten`).
-/

namespace SsuOs.Ssufs

/-- The sum of the size and the count of a write is an `int`. -/
def NoOverflow (v : Store) : Call → Prop
  | .write h _ nbytes => ∀ i, index 8 (v.fileHandles h).inodeNumber = some i →
      (v.inode i).fileSize.toInt + nbytes.toInt < 2 ^ 31
  | _ => True

instance (v : Store) : ∀ call : Call, Decidable (NoOverflow v call)
  | .write _ _ _ => inferInstanceAs (Decidable (∀ _, _ → _))
  | .create _ | .openFile _ | .read _ _ | .lseek _ _ | .close _ | .delete _ => .isTrue trivial

/-- The call is a write within the size limit that starts inside a slot without a block, and the
block that it gets there lies past the end of the image. -/
def LoadsUnwritten (v : Store) : Call → Prop
  | .write h _ nbytes => ∃ (i : Fin 8) (j : Fin 4) (b : Fin 30),
      index 8 (v.fileHandles h).inodeNumber = some i ∧
      (v.inode i).fileSize.toInt + nbytes.toInt ≤ 256 ∧
      64 * (j : ℤ) < (v.fileHandles h).offset.toInt ∧
      (v.fileHandles h).offset.toInt < 64 * ((j : ℤ) + 1) ∧
      (v.inode i).directBlocks j = -1 ∧ v.firstFree = some b ∧ ¬ v.Readable b
  | _ => False

theorem wellBehaved_iff (v : Store) (call : Call) :
    WellBehaved v call ↔ Careful v call ∧ NoOverflow v call := by
  cases call <;>
    simp [WellBehaved, Careful, NoOverflow, Proper, DeletesClosed, PositiveCount, Call.filename,
      Call.handle, and_assoc]

/-! ## One call -/

section Calls

variable {v : Store}

/-- A write to a file whose blocks have been written fails an assertion exactly if it loads a block
that was not. -/
theorem Request.assertion_iff (q : Request v)
    (written : ∀ j b, (v.inode q.i).slot j = some b → v.Readable b) :
    ssufsWrite q.fileHandle q.buf q.nbytes v = .error .assertion ↔
      LoadsUnwritten v (.write q.fileHandle q.buf q.nbytes) := by
  have bounds := q.first_spec
  have fits := q.fits
  have loads : LoadsUnwritten v (.write q.fileHandle q.buf q.nbytes) ↔
      ∃ b, q.Loads b ∧ ¬ v.Readable b := by
    simp only [LoadsUnwritten, q.offset]
    constructor
    · rintro ⟨i, j, b, selected, -, low, high, empty, found, unreadable⟩
      obtain rfl : q.i = i := Option.some.inj (q.opened.symm.trans selected)
      exact ⟨b, ⟨j, by omega, by omega, .inr ⟨empty, found⟩⟩, unreadable⟩
    · rintro ⟨b, ⟨j, start, inside, held | ⟨empty, found⟩⟩, unreadable⟩
      · exact absurd (written j b held) unreadable
      · refine ⟨q.i, j, b, q.opened, ?_, by omega, by omega, empty, found, unreadable⟩
        rw [q.size, q.count]
        omega
  have outcome := ssufsWrite_cases q
  rw [loads]
  generalize ssufsWrite q.fileHandle q.buf q.nbytes v = result at outcome
  cases outcome with
  | completed loaded _ | rolledBack loaded _ =>
    refine iff_of_false nofun ?_
    rintro ⟨b, load, unreadable⟩
    exact unreadable (loaded b load).1
  | @unreadable b load short => exact iff_of_true rfl ⟨b, load, short⟩
  | @overruns b load readable _ =>
    refine iff_of_false (by simp) ?_
    rintro ⟨c, load', unreadable⟩
    obtain rfl := load.unique load'
    exact unreadable readable

theorem write_assertion_iff (consistent : Consistent v) (written : Written v) {h : Fin 20}
    {buf : ℕ → Byte} {nbytes : Int32} (behaved : WellBehaved v (.write h buf nbytes)) :
    ssufsWrite h buf nbytes v = .error .assertion ↔ LoadsUnwritten v (.write h buf nbytes) := by
  obtain ⟨opened, positive, noOverflow⟩ := behaved
  obtain ⟨i, selected, inUse, low, high⟩ := consistent.file opened
  by_cases fits : (v.inode i).fileSize.toInt + nbytes.toInt ≤ 256
  · obtain ⟨q, rfl, rfl, rfl, rfl⟩ :=
      consistent.owned.request buf selected inUse low high positive fits
    exact q.assertion_iff (written q.i)
  · obtain ⟨junk, refused⟩ := ssufsWrite_refused selected buf (low.trans high) (not_le.1 fits)
      (noOverflow i selected)
    rw [refused]
    refine iff_of_false nofun ?_
    rintro ⟨i', j, b, selected', fits', -⟩
    obtain rfl : i = i' := Option.some.inj (selected.symm.trans selected')
    exact fits fits'

/-- The calls of a well-behaved user fail no assertion, except for writes that load a block past the
end of the image. -/
theorem Consistent.assertion_iff (consistent : Consistent v) (written : Written v) {call : Call}
    (behaved : WellBehaved v call) :
    call.exec v = .error .assertion ↔ LoadsUnwritten v call := by
  have returns {r : Reply} {w : Store} (runs : call.exec v = .ok (r, w)) :
      call.exec v ≠ .error .assertion := by
    rw [runs]
    exact nofun
  cases call with
  | create filename =>
    refine iff_of_false ?_ id
    rcases ssufsCreate_cases filename v with ⟨-, refused⟩ | ⟨i, -, -, created⟩
    · exact returns (Prog.bind_ok refused)
    · exact returns (Prog.bind_ok created)
  | openFile filename =>
    refine iff_of_false ?_ id
    rcases ssufsOpen_cases filename v with refused | ⟨i, h, -, -, opened⟩
    · exact returns (Prog.bind_ok refused)
    · exact returns (Prog.bind_ok opened)
  | write h buf nbytes =>
    rw [← write_assertion_iff consistent written behaved]
    refine ⟨fun fails => ?_, Prog.bind_error⟩
    cases runs : ssufsWrite h buf nbytes v with
    | error e =>
      have same : (Call.write h buf nbytes).exec v = .error e := Prog.bind_error runs
      cases same.symm.trans fails
      rfl
    | ok r => exact absurd fails (returns (Prog.bind_ok runs))
  | read h nbytes =>
    refine iff_of_false ?_ id
    obtain ⟨i, selected, inUse, -⟩ := consistent.file behaved.1
    rcases ssufsRead_cases selected (consistent.owned.valid inUse) nbytes with
      ⟨-, j, b, held, unreadable⟩ | ⟨r, w, runs, -⟩
    · exact absurd (written i j b held) unreadable
    · exact returns (Prog.bind_ok runs)
  | lseek h nseek =>
    refine iff_of_false ?_ id
    obtain ⟨i, selected, -⟩ := consistent.file behaved
    have seek := ssufsLseek_apply selected nseek
    split_ifs at seek
    · exact returns (Prog.bind_ok seek)
    · exact returns (Prog.bind_ok seek)
  | close h => exact iff_of_false nofun id
  | delete filename =>
    refine iff_of_false ?_ id
    rcases here : v.lookup filename with _ | i
    · exact returns (Prog.bind_ok (ssufsDelete_absent here))
    · obtain ⟨inUse, -⟩ := lookup_eq_some here
      obtain ⟨w, runs, -⟩ := ssufsDelete_apply here (consistent.owned.valid inUse)
        (consistent.owned.distinct inUse) (fun j b held => consistent.owned.used ⟨inUse, held⟩)
        (written i)
      exact returns (Prog.bind_ok runs)

end Calls

/-! ## Runs -/

/-- Along a run of a careful user without overflow in which every unfinished write is taken back
rightly, the next call fails an assertion exactly if it is a write that loads a block past the end of
the image. -/
theorem assertion_iff_loadsUnwritten {s s₀ t : Machine} {l : List (Event Machine (Call × Reply))}
    (format : ssufsFormatDisk s = .ok ((), s₀)) (run : Run (UserStep Careful) s₀ l t)
    (meets : ∀ e ∈ l, NoOverflow e.before.store e.label.1 ∧ KeepsBlocks e.before.store e.label.1)
    {call : Call} (careful : Careful t.store call) (noOverflow : NoOverflow t.store call) :
    call.exec t = .error .assertion ↔ LoadsUnwritten t.store call := by
  have written₀ : Written s₀.store := by
    rw [(holds_of_format format).1]
    exact .fresh _
  obtain ⟨sound, written, -⟩ : Sound t ∧ Written t.store ∧ Calm t := by
    refine run.invariant_of_forall (P := fun x => Sound x ∧ Written x.store ∧ Calm x)
      ⟨sound_format format, written₀, calm_format format⟩ ?_ meets
    rintro x a y ⟨sound, written, calm⟩ step ⟨bounded, keeps⟩
    have behaved : UserStep WellBehaved x a y := ⟨(wellBehaved_iff _ _).2 ⟨step.1, bounded⟩, step.2⟩
    have proper := step.1.1.mono (show 7 ≤ 8 by norm_num)
    obtain ⟨decides, kept⟩ := behaved.cases sound
    obtain ⟨-, effect, calm'⟩ := step.effect calm proper
    exact ⟨kept (decides.2 keeps), effect.written calm.1 proper written, calm'⟩
  have behaved := (wellBehaved_iff _ _).2 ⟨careful, noOverflow⟩
  rw [← sound.1.assertion_iff written behaved]
  have agrees := exec_implements call t t.store ⟨rfl, sound.2⟩
  rcases exec_cases sound.1 behaved with ⟨e, fails, found⟩ | ⟨r, v', returns, -⟩
  · rw [fails] at agrees ⊢
    rw [agrees.resolve_left found, Except.error.injEq, Except.error.injEq]
  · rw [returns] at agrees ⊢
    obtain ⟨t', runs, -⟩ := agrees
    rw [runs]
    exact iff_of_false nofun nofun

/-- The condition that the run keeps to. -/
abbrev Restoring (v : Store) (call : Call) : Prop :=
  Careful v call ∧ NoOverflow v call ∧ KeepsBlocks v call

/-- A file of 60 bytes is overwritten, which makes its size 120 with one block, and its handle moved
to position 100. -/
def sixtyTwice (name : CString) (h : Fin 20) : List Call :=
  [.create name, .openFile name, .write h (fun _ => 65) 60, .lseek h (-60),
    .write h (fun _ => 66) 60, .lseek h 40]

/-- A write there allocates the second block and reads it before it was ever written. -/
theorem assertion_iff_loadsUnwritten_sixtyTwice :
    ∃ s₀ l t, ssufsFormatDisk (bootWith 255) = .ok ((), s₀) ∧ Run (UserStep Careful) s₀ l t ∧
      (Call.write 0 (fun _ => 67) 5).exec t = .error .assertion := by
  have ends : (replay Restoring (sixtyTwice (letter 0) 0) (Store.fresh fun _ => 255)).map
      (fun v => decide (Careful v (.write 0 (fun _ => 67) 5)) &&
        decide (NoOverflow v (.write 0 (fun _ => 67) 5)) && decide (v.fileHandles 0 = ⟨100, 0⟩ ∧
          (v.inode 0).fileSize = 120 ∧ (v.inode 0).directBlocks 1 = -1 ∧ v.firstFree = some 1 ∧
          v.length = 384)) = some true := by
    decide +kernel
  obtain ⟨v, replays, values⟩ := Option.map_eq_some_iff.1 ends
  obtain ⟨s₀, l, t, format, run, -, rfl, -⟩ := run_of_replay_fresh 255 replays
  simp only [Bool.and_eq_true, decide_eq_true_eq] at values
  obtain ⟨⟨careful, noOverflow⟩, handle, size, empty, free, length⟩ := values
  have loads : LoadsUnwritten t.store (.write 0 (fun _ => 67) 5) := by
    refine ⟨0, 1, 1, ?_, ?_, ?_, ?_, empty, free, ?_⟩
    · rw [handle]
      decide
    · rw [size]
      decide
    · rw [handle]
      decide
    · rw [handle]
      decide
    · rw [Store.Readable, length]
      decide
  have meets : ∀ e ∈ l, NoOverflow e.before.store e.label.1 ∧ KeepsBlocks e.before.store e.label.1 :=
    fun e member => (run.step_of_mem e member).1.2
  have run : Run (UserStep Careful) s₀ l t := run.mono fun _ _ _ step => ⟨step.1.1, step.2⟩
  refine ⟨s₀, l, t, format, run, ?_⟩
  exact (assertion_iff_loadsUnwritten format run meets careful noOverflow).2 loads

theorem assertion_fails_unwritten :
    ¬ ∀ s s₀ l t call, ssufsFormatDisk s = .ok ((), s₀) → Run (UserStep Careful) s₀ l t →
      Careful t.store call → call.exec t ≠ .error .assertion := by
  intro holds
  have ends : (replay Careful (sixtyTwice (letter 0) 0) (Store.fresh fun _ => 255)).map
        (fun v => (decide (Careful v (.write 0 (fun _ => 67) 5)),
          match (Call.write 0 (fun _ => 67) 5).exec v with
          | .error .assertion => true
          | _ => false)) = some (true, true) := by
    decide +kernel
  obtain ⟨v, replays, bad⟩ := Option.map_eq_some_iff.1 ends
  obtain ⟨s₀, l, t, format, run, -, rfl, long⟩ := run_of_replay_fresh 255 replays
  obtain ⟨careful, stops⟩ := Prod.mk.inj bad
  have fails : (Call.write 0 (fun _ => 67) 5).exec t.store = .error .assertion := by
    split at stops
    · assumption
    · cases stops
  refine holds _ s₀ l t _ format run (of_decide_eq_true careful) ?_
  have agrees := exec_implements (.write 0 (fun _ => 67) 5) t t.store ⟨rfl, long⟩
  rw [fails] at agrees
  exact agrees.resolve_left nofun

end SsuOs.Ssufs
