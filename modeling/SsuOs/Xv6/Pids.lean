import Mathlib.Data.Fintype.Card
import Mathlib.Order.Bounds.Basic
import SsuOs.Xv6.Lives

/-!
# Pids

Which pids the slots hold, in use and not in use, and `get_num_proc` and `get_max_pid`.
-/

namespace SsuOs.Xv6

/-! ## What a step does to the pids -/

section Effects

variable {κ : Type} [DecidableEq κ] {s s' : Kernel κ} {a : KernelLabel κ}

/-- No slot is taken or given back. -/
def Observation.keepsSlots : Observation → Bool
  | .nothing | .exited _ | .left _ => true
  | _ => false

/-- The slot keeps its pid, and it is in use as before. -/
structure SamePid (t t' : Task) : Prop where
  pid : t'.pid = t.pid
  unused : t'.state = .unused ↔ t.state = .unused

theorem Woken.samePid {t t' : Task} (woken : Woken t t') : SamePid t t' :=
  ⟨woken.pid, woken.persists.state_iff rfl⟩

/-- A step changes no pid, or `allocproc` takes a slot, or a `fork` that fails gives its slot back
with the pid in it, or `wait` clears a slot. -/
inductive PidEffect (s : Kernel κ) (a : KernelLabel κ) (s' : Kernel κ) : Prop
  | same (seen : (observe ⟨s, a, s'⟩).keepsSlots) (slots : ∀ q, SamePid (s.table q) (s'.table q))
      (nextpid : s'.nextpid = s.nextpid)
  | alloc (p np : Fin nproc) (seen : observe ⟨s, a, s'⟩ = .forked p np)
      (free : (s.table np).state = .unused) (others : ∀ q ≠ np, SamePid (s.table q) (s'.table q))
      (pid : (s'.table np).pid = s.nextpid) (state : (s'.table np).state ≠ .unused)
      (nextpid : s'.nextpid = s.nextpid + 1)
  | fail (np : Fin nproc) (seen : observe ⟨s, a, s'⟩ = .failed np)
      (used : (s.table np).state ≠ .unused) (others : ∀ q ≠ np, SamePid (s.table q) (s'.table q))
      (pid : (s'.table np).pid = (s.table np).pid) (state : (s'.table np).state = .unused)
      (nextpid : s'.nextpid = s.nextpid)
  | reap (q : Fin nproc) (seen : observe ⟨s, a, s'⟩ = .reaped q)
      (zombie : (s.table q).state = .zombie) (others : ∀ r ≠ q, SamePid (s.table r) (s'.table r))
      (pid : (s'.table q).pid = 0) (state : (s'.table q).state = .unused)
      (nextpid : s'.nextpid = s.nextpid)

theorem Effect.pids (effect : Effect s a s') (control : Control s) : PidEffect s a s' := by
  cases effect with
  | calm seen tasks nextpid activity running =>
    exact .same (by rw [seen]; rfl) (fun q => (tasks q).samePid) nextpid
  | dispatch c p seen ready others self nextpid activity running =>
    have same : SamePid (s.table p) (s'.table p) := by
      rw [self]
      exact ⟨rfl, by simp [ready]⟩
    exact .same (by rw [seen]; rfl)
      (forall_slot (fun q away => (Woken.of_eq (others q away)).samePid) same) nextpid
  | leave c p seen on others pid parent switchCnt state nextpid activities activity running =>
    have used : (s'.table p).state ≠ .unused := by
      rcases state with runnable | sleeping
      · simp [runnable]
      · simp [sleeping]
    have same : SamePid (s.table p) (s'.table p) :=
      ⟨pid, iff_of_false used (by simp [control.running c p on])⟩
    exact .same (by rw [seen]; rfl)
      (forall_slot (fun q away => (Woken.of_eq (others q away)).samePid) same) nextpid
  | exit c p seen on user other others parent pid switchCnt state nextpid activity running =>
    have same : SamePid (s.table p) (s'.table p) :=
      ⟨pid, iff_of_false (by simp [state]) (by simp [control.running c p on])⟩
    exact .same (by rw [seen]; rfl) (forall_slot (fun q away => (others q away).samePid) same) nextpid
  | reap q seen zombie others state pid parent nextpid activity running =>
    exact .reap q seen zombie (fun r away => (others r away).samePid) pid state nextpid
  | alloc c p np seen on user free others self nextpid activities activity running =>
    have embryo : (s'.table np).state = .embryo := by rw [self]; rfl
    exact .alloc p np seen free (fun q away => (Woken.of_eq (others q away)).samePid)
      (by rw [self]; rfl) (by simp [embryo]) nextpid
  | fail c p np seen on stage others self nextpid activities activity running =>
    have embryo := control.slot p np (Activity.slot_of_early stage)
    exact .fail np seen (by simp [embryo]) (fun q away => (Woken.of_eq (others q away)).samePid)
      (by rw [self]) (by rw [self]) nextpid
  | advance c p np seen on stage tasks nextpid activities activity running =>
    exact .same (by rw [seen]; rfl) (fun q => (tasks q).samePid) nextpid
  | adopt c p np seen on stage others self nextpid activities activity running =>
    have same : SamePid (s.table np) (s'.table np) := by
      rw [self]
      exact ⟨rfl, Iff.rfl⟩
    exact .same (by rw [seen]; rfl)
      (forall_slot (fun q away => (Woken.of_eq (others q away)).samePid) same) nextpid
  | publish c p np seen on stage others self nextpid activities activity running =>
    have embryo := control.slot p np (by rw [stage]; rfl)
    have same : SamePid (s.table np) (s'.table np) := by
      rw [self]
      exact ⟨rfl, by simp [embryo]⟩
    exact .same (by rw [seen]; rfl)
      (forall_slot (fun q away => (Woken.of_eq (others q away)).samePid) same) nextpid

end Effects

/-! ## Pids in slots out of use -/

/-- What a history tells of a slot: it was never used or has been reaped, a `fork` has taken it and
given it a pid, or that `fork` has failed and left the pid in it. -/
inductive SlotUse
  | clear
  | taken (pid : Int32)
  | givenBack (pid : Int32)
  deriving DecidableEq

/-- The pid in the slot. -/
def SlotUse.pid : SlotUse → Int32
  | .clear => 0
  | .taken pid | .givenBack pid => pid

section Uses

variable {κ : Type} {s s' : Kernel κ} {a : KernelLabel κ} {q : Fin nproc} {use : SlotUse}

/-- The use of slot `q` after a step. -/
def recordUse (q : Fin nproc) (use : SlotUse) (e : Event (Kernel κ) (KernelLabel κ)) : SlotUse :=
  match observe e with
  | .forked _ np => if q = np then .taken e.before.nextpid else use
  | .failed np => if q = np then .givenBack use.pid else use
  | .reaped r => if q = r then .clear else use
  | _ => use

/-- The uses of the slots after the events `l`, from the boot. -/
def slotUse (l : List (Event (Kernel κ) (KernelLabel κ))) (q : Fin nproc) : SlotUse :=
  l.foldl (recordUse q) (if q = (Kernel.boot : Kernel κ).initproc then .taken 1 else .clear)

theorem slotUse_snoc (l : List (Event (Kernel κ) (KernelLabel κ)))
    (e : Event (Kernel κ) (KernelLabel κ)) (q : Fin nproc) :
    slotUse (l ++ [e]) q = recordUse q (slotUse l q) e :=
  List.foldl_append ..

/-- A slot has the pid that the history tells, and is in use if it was taken last. -/
structure SlotUse.Tells (use : SlotUse) (t : Task) : Prop where
  pid : t.pid = use.pid
  unused : t.state = .unused ↔ use ≠ .taken use.pid

theorem SlotUse.Tells.same {t t' : Task} (tells : use.Tells t) (same : SamePid t t') :
    use.Tells t' :=
  ⟨same.pid.trans tells.pid, same.unused.trans tells.unused⟩

theorem PidEffect.tells (effect : PidEffect s a s') (tells : use.Tells (s.table q)) :
    (recordUse q use ⟨s, a, s'⟩).Tells (s'.table q) := by
  cases effect with
  | same seen slots nextpid =>
    have kept : recordUse q use ⟨s, a, s'⟩ = use := by
      rw [recordUse]
      cases h : observe ⟨s, a, s'⟩ <;> rw [h] at seen <;> first | rfl | cases seen
    rw [kept]
    exact tells.same (slots q)
  | alloc p np seen free others pid state nextpid =>
    rw [recordUse, seen]
    by_cases here : q = np
    · simp only [here, if_true]
      exact ⟨pid, iff_of_false state (absurd rfl)⟩
    · simp only [here, if_false]
      exact tells.same (others q here)
  | fail np seen used others pid state nextpid =>
    rw [recordUse, seen]
    by_cases here : q = np
    · simp only [here, if_true]
      exact ⟨pid.trans (here ▸ tells.pid), iff_of_true state nofun⟩
    · simp only [here, if_false]
      exact tells.same (others q here)
  | reap r seen zombie others pid state nextpid =>
    rw [recordUse, seen]
    by_cases here : q = r
    · simp only [here, if_true]
      exact ⟨pid, iff_of_true state nofun⟩
    · simp only [here, if_false]
      exact tells.same (others q here)

/-- In every state that the kernel reaches, the free slots hold 0 if they were never used or have
been reaped, and the pid of the last `fork` that took them if it failed. -/
theorem slotUse_tells [DecidableEq κ] {l : List (Event (Kernel κ) (KernelLabel κ))}
    (run : Run Kernel.Step .boot l s) (q : Fin nproc) : (slotUse l q).Tells (s.table q) := by
  refine (run.history (I := fun l s => Control s ∧ (slotUse l q).Tells (s.table q)) ?_ ?_).2
  · refine ⟨control_boot, ?_⟩
    rcases boot_cases (κ := κ) q with ⟨here, runnable, pid, -⟩ | ⟨away, zero⟩
    · rw [slotUse, List.foldl_nil, if_pos here]
      exact ⟨pid, iff_of_false (by simp [runnable]) (absurd rfl)⟩
    · rw [slotUse, List.foldl_nil, if_neg away, zero]
      exact ⟨rfl, iff_of_true rfl nofun⟩
  · rintro l x a y ⟨control, tells⟩ taken
    rw [slotUse_snoc]
    exact ⟨control.effect taken.effect, (taken.effect.pids control).tells tells⟩

end Uses

/-! ## Distinct pids -/

section Distinct

variable {κ : Type} {s s' : Kernel κ} {a : KernelLabel κ}

/-- If pids have not been used again, they are distinct, apart from the zero of slots that are not
in use, and below `nextpid`. -/
structure Pids (s : Kernel κ) : Prop where
  nonneg : ∀ q, 0 ≤ (s.table q).pid
  below : 0 < s.nextpid → ∀ q, (s.table q).pid < s.nextpid
  distinct : ∀ q r, (s.table q).pid = (s.table r).pid → (s.table q).pid ≠ 0 → q = r
  pos : ∀ q, (s.table q).state ≠ .unused → (s.table q).pid ≠ 0

/-- The step does not take a pid after the last one. -/
def Unwrapped (e : Event (Kernel κ) (KernelLabel κ)) : Prop :=
  ∀ p np, observe e = .forked p np → 0 < e.before.nextpid

theorem lt_add_one_of_pos {n : Int32} (pos : 0 < n) (pos' : 0 < n + 1) : n < n + 1 := by
  have small : n.toInt < 2 ^ 31 := Int32.toInt_lt n
  rw [Int32.lt_iff_toInt_lt] at pos pos' ⊢
  rw [Int32.toInt_add, Int32.toInt_one, Int.bmod_def] at pos' ⊢
  rw [Int32.toInt_zero] at pos pos'
  omega

/-- The pids are the same, and no slot comes into use. -/
theorem Pids.of_same (pids : Pids s) (pid : ∀ q, (s'.table q).pid = (s.table q).pid)
    (used : ∀ q, (s'.table q).state ≠ .unused → (s.table q).state ≠ .unused)
    (nextpid : s'.nextpid = s.nextpid) : Pids s' where
  nonneg q := by
    rw [pid]
    exact pids.nonneg q
  below pos q := by
    rw [nextpid] at pos ⊢
    rw [pid]
    exact pids.below pos q
  distinct q r := by
    rw [pid, pid]
    exact pids.distinct q r
  pos q busy := by
    rw [pid]
    exact pids.pos q (used q busy)

theorem Pids.alloc (pids : Pids s) {np : Fin nproc} (first : 0 < s.nextpid)
    (others : ∀ q ≠ np, SamePid (s.table q) (s'.table q)) (pid : (s'.table np).pid = s.nextpid)
    (nextpid : s'.nextpid = s.nextpid + 1) : Pids s' := by
  have older {q : Fin nproc} (away : q ≠ np) : (s'.table q).pid ≠ s.nextpid := by
    rw [(others q away).pid]
    exact Int32.ne_of_lt (pids.below first q)
  constructor
  · refine forall_slot (p := np) (fun q away => ?_) ?_
    · rw [(others q away).pid]
      exact pids.nonneg q
    · rw [pid]
      exact Int32.le_of_lt first
  · intro pos
    rw [nextpid] at pos ⊢
    have next := lt_add_one_of_pos first pos
    refine forall_slot (p := np) (fun q away => ?_) ?_
    · rw [(others q away).pid]
      exact Int32.lt_trans (pids.below first q) next
    · rw [pid]
      exact next
  · intro q r same nonzero
    by_cases here : q = np <;> by_cases there : r = np
    · rw [here, there]
    · rw [here, pid] at same
      exact absurd same.symm (older there)
    · rw [there, pid] at same
      exact absurd same (older here)
    · rw [(others q here).pid] at same nonzero
      rw [(others r there).pid] at same
      exact pids.distinct q r same nonzero
  · refine forall_slot (p := np) (fun q away busy => ?_) fun _ => ?_
    · rw [(others q away).pid]
      exact pids.pos q (mt (others q away).unused.2 busy)
    · rw [pid]
      exact (Int32.ne_of_lt first).symm

theorem Pids.reap (pids : Pids s) {r : Fin nproc}
    (others : ∀ q ≠ r, SamePid (s.table q) (s'.table q)) (pid : (s'.table r).pid = 0)
    (state : (s'.table r).state = .unused) (nextpid : s'.nextpid = s.nextpid) : Pids s' := by
  have away {q : Fin nproc} (nonzero : (s'.table q).pid ≠ 0) : q ≠ r := by
    rintro rfl
    exact nonzero pid
  constructor
  · refine forall_slot (p := r) (fun q away => ?_) ?_
    · rw [(others q away).pid]
      exact pids.nonneg q
    · rw [pid]
      exact Int32.le_refl 0
  · intro pos
    rw [nextpid] at pos ⊢
    refine forall_slot (p := r) (fun q away => ?_) ?_
    · rw [(others q away).pid]
      exact pids.below pos q
    · rw [pid]
      exact pos
  · intro q q' same nonzero
    have here := away nonzero
    have there := away (same ▸ nonzero)
    rw [(others q here).pid] at same nonzero
    rw [(others q' there).pid] at same
    exact pids.distinct q q' same nonzero
  · refine forall_slot (p := r) (fun q away busy => ?_) fun busy => absurd state busy
    rw [(others q away).pid]
    exact pids.pos q (mt (others q away).unused.2 busy)

theorem Pids.effect (pids : Pids s) (effect : PidEffect s a s') (unwrapped : Unwrapped ⟨s, a, s'⟩) :
    Pids s' := by
  cases effect with
  | same seen slots nextpid =>
    exact pids.of_same (fun q => (slots q).pid) (fun q => mt (slots q).unused.2) nextpid
  | alloc p np seen free others pid state nextpid =>
    exact pids.alloc (unwrapped p np seen) others pid nextpid
  | fail np seen used others pid state nextpid =>
    exact pids.of_same (forall_slot (fun q away => (others q away).pid) pid)
      (forall_slot (fun q away => mt (others q away).unused.2) fun busy => absurd state busy) nextpid
  | reap q seen zombie others pid state nextpid => exact pids.reap others pid state nextpid

theorem pids_boot : Pids (Kernel.boot : Kernel κ) where
  nonneg q := by
    obtain ⟨-, -, pid, -⟩ | ⟨-, zero⟩ := boot_cases q
    · rw [pid]
      decide
    · rw [zero]
      decide
  below _ q := by
    change _ < (2 : Int32)
    obtain ⟨-, -, pid, -⟩ | ⟨-, zero⟩ := boot_cases q
    · rw [pid]
      decide
    · rw [zero]
      decide
  distinct q r same nonzero := by
    have first {q : Fin nproc} (nonzero : ((Kernel.boot : Kernel κ).table q).pid ≠ 0) :
        q = (Kernel.boot : Kernel κ).initproc := by
      rcases boot_cases q with ⟨here, -⟩ | ⟨-, zero⟩
      · exact here
      · rw [zero] at nonzero
        exact absurd rfl nonzero
    exact (first nonzero).trans (first (same ▸ nonzero)).symm
  pos q busy := by
    rcases boot_cases q with ⟨-, -, pid, -⟩ | ⟨-, zero⟩
    · rw [pid]
      decide
    · rw [zero] at busy
      exact absurd rfl busy

end Distinct

theorem pids_of_run {κ : Type} [DecidableEq κ] {s : Kernel κ}
    {l : List (Event (Kernel κ) (KernelLabel κ))} (run : Run Kernel.Step .boot l s)
    (unwrapped : ∀ e ∈ l, Unwrapped e) : Pids s := by
  refine (run.invariant_of_forall (P := fun s => Control s ∧ Pids s) ⟨control_boot, pids_boot⟩ ?_
    unwrapped).2
  rintro x a y ⟨control, pids⟩ taken fresh
  exact ⟨control.effect taken.effect, pids.effect (taken.effect.pids control) fresh⟩

/-! ## The number of processes and the largest pid -/

section Largest

variable (table : Fin nproc → Task)

/-- `get_num_proc`. -/
def getNumProc : ℕ :=
  (List.finRange nproc).foldl (fun cnt p => if (table p).state ≠ .unused then cnt + 1 else cnt) 0

/-- `get_max_pid`. -/
def getMaxPid : Int32 :=
  (List.finRange nproc).foldl (fun max p => if (table p).pid > max then (table p).pid else max) 0

/-- The slots that `get_num_proc` counts. -/
def inUse : Finset (Fin nproc) := Finset.univ.filter fun p => (table p).state ≠ .unused

theorem mem_inUse {p : Fin nproc} : p ∈ inUse table ↔ (table p).state ≠ .unused := by
  simp [inUse]

/-- `get_num_proc` and `get_max_pid` are about the same slots. -/
def Agree : Prop :=
  getNumProc table = (inUse table).card ∧
    IsGreatest {pid | ∃ p ∈ inUse table, (table p).pid = pid} (getMaxPid table)

theorem foldl_count (l : List (Fin nproc)) (n : ℕ) :
    l.foldl (fun cnt p => if (table p).state ≠ .unused then cnt + 1 else cnt) n =
      n + (l.filter fun p => (table p).state ≠ .unused).length := by
  induction l generalizing n with
  | nil => rfl
  | cons p l ih =>
    rw [List.foldl_cons, ih]
    by_cases used : (table p).state = .unused
    · simp [used]
    · simp only [used, ne_eq, not_false_eq_true, if_true, decide_true, List.filter_cons_of_pos,
        List.length_cons]
      omega

theorem getNumProc_eq : getNumProc table = (inUse table).card := by
  rw [getNumProc, foldl_count, Nat.zero_add]
  rfl

theorem foldl_max (l : List (Fin nproc)) (n : Int32) :
    let m := l.foldl (fun max p => if (table p).pid > max then (table p).pid else max) n
    n ≤ m ∧ (∀ p ∈ l, (table p).pid ≤ m) ∧ (m = n ∨ ∃ p ∈ l, m = (table p).pid) := by
  induction l generalizing n with
  | nil => simp
  | cons p l ih =>
    simp only [List.foldl_cons, List.forall_mem_cons, List.exists_mem_cons_iff]
    obtain ⟨low, bound, attained⟩ := ih (if (table p).pid > n then (table p).pid else n)
    split_ifs at low bound attained with larger
    · simp only [if_pos larger]
      exact ⟨Int32.le_of_lt (Int32.lt_of_lt_of_le larger low), ⟨low, bound⟩, .inr attained⟩
    · simp only [if_neg larger]
      exact ⟨low, ⟨Int32.le_trans (Int32.not_lt.1 larger) low, bound⟩, attained.imp_right .inr⟩

theorem getMaxPid_spec : 0 ≤ getMaxPid table ∧ (∀ p, (table p).pid ≤ getMaxPid table) ∧
    (getMaxPid table = 0 ∨ ∃ p, getMaxPid table = (table p).pid) := by
  obtain ⟨nonneg, bound, attained⟩ := foldl_max table (List.finRange nproc) 0
  exact ⟨nonneg, fun p => bound p (List.mem_finRange p), attained.imp_right fun ⟨p, _, largest⟩ =>
    ⟨p, largest⟩⟩

variable {table}

variable (table) in
/-- No slot out of use has a larger pid than all slots in use. -/
def Covered : Prop :=
  ∀ q, (table q).state = .unused → ∃ r, (table r).state ≠ .unused ∧ (table q).pid ≤ (table r).pid

theorem agree_iff {p : Fin nproc} (pos : 0 < (table p).pid) : Agree table ↔ Covered table := by
  obtain ⟨-, bound, attained⟩ := getMaxPid_spec table
  unfold Agree IsGreatest upperBounds
  simp only [getNumProc_eq, true_and, Set.mem_ofPred_eq, mem_inUse]
  constructor
  · rintro ⟨⟨r, busy, largest⟩, -⟩ q -
    exact ⟨r, busy, largest ▸ bound q⟩
  · intro covered
    refine ⟨?_, ?_⟩
    · rcases attained with zero | ⟨q, largest⟩
      · exact absurd (zero ▸ bound p) (Int32.not_le.2 pos)
      · by_cases busy : (table q).state = .unused
        · obtain ⟨r, used, le⟩ := covered q busy
          exact ⟨r, used, Int32.le_antisymm (bound r) (largest ▸ le)⟩
        · exact ⟨q, busy, largest.symm⟩
    · rintro _ ⟨q, -, rfl⟩
      exact bound q

end Largest

variable {κ : Type}

/-- Slot `r` holds at most the pid of a slot in use other than `q`. -/
def BelowOther (s : Kernel κ) (q r : Fin nproc) : Prop :=
  ∃ u ≠ q, (s.table u).state ≠ .unused ∧ (s.table r).pid ≤ (s.table u).pid

/-- A `fork` fails only while another slot in use has at least the pid of its slot, and `wait` frees
a slot only while the pids in slots out of use are at most those of the other slots in use. -/
def KeepsLargest (e : Event (Kernel κ) (KernelLabel κ)) : Prop :=
  match observe e with
  | .failed np => BelowOther e.before np np
  | .reaped q => ∀ r, (e.before.table r).state = .unused → BelowOther e.before q r
  | _ => True

instance (e : Event (Kernel κ) (KernelLabel κ)) : Decidable (KeepsLargest e) := by
  unfold KeepsLargest BelowOther
  split <;> infer_instance

section Covered

variable {s s' : Kernel κ}

theorem Covered.same (covered : Covered s.table)
    (slots : ∀ q, SamePid (s.table q) (s'.table q)) : Covered s'.table := by
  intro q unused
  obtain ⟨r, used, le⟩ := covered q ((slots q).unused.1 unused)
  rw [(slots q).pid]
  exact ⟨r, mt (slots r).unused.1 used, by rwa [(slots r).pid]⟩

variable {np : Fin nproc} (others : ∀ q ≠ np, SamePid (s.table q) (s'.table q))

include others

theorem Covered.alloc (covered : Covered s.table) (free : (s.table np).state = .unused)
    (state : (s'.table np).state ≠ .unused) : Covered s'.table := by
  refine forall_slot (p := np) (fun q away unused => ?_) fun unused => absurd unused state
  obtain ⟨r, used, le⟩ := covered q ((others q away).unused.1 unused)
  have away' : r ≠ np := by
    rintro rfl
    exact used free
  rw [(others q away).pid]
  exact ⟨r, mt (others r away').unused.1 used, by rwa [(others r away').pid]⟩

/-- What is above slot `q` after slot `np` was given back. -/
theorem BelowOther.after {q u : Fin nproc} (state : (s'.table np).state = .unused)
    (busy : (s'.table u).state ≠ .unused) (le : (s.table q).pid ≤ (s'.table u).pid) :
    BelowOther s np q := by
  have away : u ≠ np := by
    rintro rfl
    exact busy state
  rw [(others u away).pid] at le
  exact ⟨u, away, mt (others u away).unused.2 busy, le⟩

theorem BelowOther.before {q : Fin nproc} (below : BelowOther s np q) :
    ∃ u, (s'.table u).state ≠ .unused ∧ (s.table q).pid ≤ (s'.table u).pid := by
  obtain ⟨u, away, busy, le⟩ := below
  rw [← (others u away).pid] at le
  exact ⟨u, mt (others u away).unused.1 busy, le⟩

theorem Covered.fail_iff (covered : Covered s.table) (pid : (s'.table np).pid = (s.table np).pid)
    (state : (s'.table np).state = .unused) : Covered s'.table ↔ BelowOther s np np := by
  constructor
  · intro covered'
    obtain ⟨u, busy, le⟩ := covered' np state
    rw [pid] at le
    exact .after others state busy le
  · intro below
    obtain ⟨u, busy, le⟩ := below.before others
    refine forall_slot (p := np) (fun q away unused => ?_) fun _ => ⟨u, busy, by rwa [pid]⟩
    obtain ⟨r, used, le'⟩ := covered q ((others q away).unused.1 unused)
    rw [(others q away).pid]
    by_cases here : r = np
    · rw [here] at le'
      exact ⟨u, busy, Int32.le_trans le' le⟩
    · exact ⟨r, mt (others r here).unused.1 used, by rwa [(others r here).pid]⟩

theorem covered_reap_iff {p : Fin nproc} (zombie : (s.table np).state = .zombie)
    (pid : (s'.table np).pid = 0) (state : (s'.table np).state = .unused)
    (busy : (s'.table p).state ≠ .unused) (pos : 0 < (s'.table p).pid) :
    Covered s'.table ↔ ∀ r, (s.table r).state = .unused → BelowOther s np r := by
  constructor
  · intro covered q unused
    have away : q ≠ np := by
      rintro rfl
      cases zombie.symm.trans unused
    obtain ⟨u, busy, le⟩ := covered q ((others q away).unused.2 unused)
    rw [(others q away).pid] at le
    exact .after others state busy le
  · intro keeps
    refine forall_slot (p := np) (fun q away unused => ?_) fun _ => ⟨p, busy, ?_⟩
    · rw [(others q away).pid]
      exact (keeps q ((others q away).unused.1 unused)).before others
    · rw [pid]
      exact Int32.le_of_lt pos

end Covered

theorem PidEffect.agree_iff {s s' : Kernel κ} {a : KernelLabel κ} (effect : PidEffect s a s')
    {g g' : Fin nproc → Life} (family : Family s g) (family' : Family s' g')
    (initproc : s'.initproc = s.initproc) (agree : Agree s.table) :
    Agree s'.table ↔ KeepsLargest ⟨s, a, s'⟩ := by
  obtain ⟨alive, one⟩ := family.init
  obtain ⟨alive', one'⟩ := family'.init
  rw [initproc] at alive' one'
  have pos : 0 < (s.table s.initproc).pid := by rw [one]; decide
  have pos' : 0 < (s'.table s.initproc).pid := by rw [one']; decide
  have covered := (Xv6.agree_iff pos).1 agree
  rw [Xv6.agree_iff pos', KeepsLargest]
  cases effect with
  | same seen slots nextpid =>
    have covered' := covered.same slots
    cases h : observe ⟨s, a, s'⟩ <;> simp only [h, Observation.keepsSlots, Bool.false_eq_true] at seen ⊢
    · exact iff_true_intro covered'
    · exact iff_true_intro covered'
    · exact iff_true_intro covered'
  | alloc p np seen free others pid state nextpid =>
    simp only [seen, iff_true]
    exact covered.alloc others free state
  | fail np seen used others pid state nextpid =>
    simp only [seen]
    exact covered.fail_iff others pid state
  | reap r seen zombie others pid state nextpid =>
    simp only [seen]
    refine covered_reap_iff others zombie pid state (fun unused => ?_) pos'
    rw [unused] at alive'
    cases alive'

theorem agree_boot : Agree (Kernel.boot : Kernel κ).table := by
  have pos : (0 : Int32) < 1 := by decide
  obtain ⟨alive, one⟩ := (family_boot (κ := κ) default).init
  refine (agree_iff (by rwa [one])).2 fun q unused => ?_
  obtain ⟨-, runnable, -⟩ | ⟨-, zero⟩ := boot_cases q
  · cases runnable.symm.trans unused
  · refine ⟨(Kernel.boot : Kernel κ).initproc, fun unused => ?_, ?_⟩
    · rw [unused] at alive
      cases alive
    · rw [one, zero]
      decide

/-- Along every run, on any CPUs, `get_num_proc` and `get_max_pid` agree exactly if all steps have
`KeepsLargest`. -/
theorem agree_iff_keepsLargest [DecidableEq κ] {s : Kernel κ}
    {l : List (Event (Kernel κ) (KernelLabel κ))} (run : Run Kernel.Step .boot l s) :
    (Agree (Kernel.boot : Kernel κ).table ∧ ∀ e ∈ l, Agree e.after.table) ↔
      ∀ e ∈ l, KeepsLargest e := by
  rw [and_iff_right agree_boot]
  refine run.forall_after_iff (I := fun s => Control s ∧ ∃ g, Family s g)
    (P := fun s => Agree s.table) ⟨control_boot, default, family_boot _⟩ agree_boot ?_ ?_
  · rintro x a y ⟨control, g, family⟩ taken
    exact ⟨control.effect taken.effect, _,
      family.effect control taken.effect taken.initproc fun _ => rfl⟩
  · rintro x a y ⟨control, g, family⟩ agree taken
    exact (taken.effect.pids control).agree_iff family
      (family.effect control taken.effect taken.initproc fun _ => rfl) taken.initproc agree

/-- A child of `init` exits, and `init` waits for it. -/
theorem agree_iff_keepsLargest_wait :
    ∃ l s, Run Kernel.Step (.boot : Kernel Unit) l s ∧
      observe <$> l.getLast? = some (.reaped ⟨1, by decide⟩) ∧ ∀ e ∈ l, Agree e.after.table := by
  obtain ⟨l, s, run, last, keeps⟩ := exists_run_of_replay Kernel.step .boot
    (firstDispatch ++ forkActions ++ [.run () .yield, .schedule (), .run () .exit] ++
      List.replicate 68 (.schedule ()) ++ [.run () .wait])
    (P := fun r => observe <$> r.1.getLast? = some (.reaped ⟨1, by decide⟩) ∧
      ∀ e ∈ r.1, KeepsLargest e) (by decide +kernel)
  exact ⟨l, s, run, last, ((agree_iff_keepsLargest run).2 keeps).2⟩

/-- The only `fork` fails: its pid is the largest, but its slot is not in use. -/
theorem not_agree_failedFork :
    ∃ l s, Run Kernel.Step (.boot : Kernel Unit) l s ∧ ¬ Agree s.table := by
  obtain ⟨l, s, run, largest, used⟩ := exists_run_of_replay Kernel.step .boot
    (firstDispatch ++ [.run () .fork, .run () (.kalloc false)])
    (P := fun r => getMaxPid r.2.table = 2 ∧
      ∀ p, (r.2.table p).state ≠ .unused → (r.2.table p).pid = 1) (by decide +kernel)
  refine ⟨l, s, run, ?_⟩
  rintro ⟨-, ⟨p, counted, pid⟩, -⟩
  rw [used p ((mem_inUse _).1 counted), largest] at pid
  cases pid

end SsuOs.Xv6
