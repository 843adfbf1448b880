import SsuOs.MasterWorker.Program
import Mathlib.Data.List.Perm.Basic
import Mathlib.Data.List.Range
import Mathlib.Data.List.Nodup
import Mathlib.Data.Int.Cast.Basic
import Mathlib.Tactic.Linarith

/-!
# The buffer of the master-worker program

Two facts about `buffer[0..curr_buf_size)`.  No item is lost or made twice, however the threads are
scheduled (`conservation`).  The buffer stays within its allocated size exactly when every master
that comes back from its wait finds room or nothing left to produce (`bounded_iff_findsRoom`),
which is not always the case, since the fullness test is an `if`.
-/

namespace SsuOs.MasterWorker

open Monitor

variable {T : Type*}

/-- The numbers printed by `print_produced`, in order. -/
def Shared.produced (s : Shared T) : List ℤ :=
  s.output.filterMap fun
    | .produced num _ => some num
    | .consumed _ _ => none

/-- The numbers printed by `print_consumed`, in order. -/
def Shared.consumed (s : Shared T) : List ℤ :=
  s.output.filterMap fun
    | .produced _ _ => none
    | .consumed num _ => some num

/-- The used part of the buffer. -/
def Shared.buffered (s : Shared T) : List ℤ :=
  (List.range s.currBufSize.toNat).map fun i : ℕ => s.buffer i

/-- The items `0, …, n - 1`. -/
def items (n : ℤ) : List ℤ := (List.range n.toNat).map fun i : ℕ => (i : ℤ)

theorem items_succ {n : ℤ} (hn : 0 ≤ n) : items (n + 1) = items n ++ [n] := by
  obtain ⟨m, rfl⟩ := Int.eq_ofNat_of_zero_le hn
  have next : ((m : ℤ) + 1).toNat = m + 1 := by omega
  simp [items, next, List.range_succ]

theorem items_nodup (n : ℤ) : (items n).Nodup :=
  List.nodup_range.map fun _ _ h => Int.ofNat_inj.1 h

theorem length_items {n : ℤ} (hn : 0 ≤ n) : ((items n).length : ℤ) = n := by
  simp [items, hn]

theorem mem_items {n i : ℤ} : i ∈ items n ↔ 0 ≤ i ∧ i < n := by
  simp only [items, List.mem_map, List.mem_range]
  constructor
  · rintro ⟨m, hm, rfl⟩
    omega
  · rintro ⟨h0, hn⟩
    exact ⟨i.toNat, by omega, by omega⟩

/-! ## The effect of the two updates -/

section Updates

variable (t : T) {s : Shared T}

theorem produced_produceItem : (produceItem t s).produced = s.produced ++ [s.itemToProduce] := by
  simp [produceItem, Shared.produced]

theorem consumed_produceItem : (produceItem t s).consumed = s.consumed := by
  simp [produceItem, Shared.consumed]

theorem buffered_produceItem (h : 0 ≤ s.currBufSize) :
    (produceItem t s).buffered = s.buffered ++ [s.itemToProduce] := by
  obtain ⟨m, hm⟩ := Int.eq_ofNat_of_zero_le h
  have next : ((m : ℤ) + 1).toNat = m + 1 := by omega
  simp only [produceItem, Shared.buffered, hm, next, List.range_succ, List.map_append,
    List.map_cons, List.map_nil, Function.update_self, Int.toNat_natCast]
  congr 1
  refine List.map_congr_left fun i hi => ?_
  have below := List.mem_range.1 hi
  rw [Function.update_of_ne (by omega)]

theorem produced_consumeItem : (consumeItem t s).produced = s.produced := by
  simp [consumeItem, Shared.produced]

theorem consumed_consumeItem :
    (consumeItem t s).consumed = s.consumed ++ [s.buffer (s.currBufSize - 1)] := by
  simp [consumeItem, Shared.consumed]

/-- The consumed cell was the last one of the used part. -/
theorem buffered_consumeItem (h : 0 < s.currBufSize) :
    s.buffered = (consumeItem t s).buffered ++ [s.buffer (s.currBufSize - 1)] := by
  obtain ⟨m, hm⟩ := Int.eq_ofNat_of_zero_le (show 0 ≤ s.currBufSize - 1 by omega)
  have size : s.currBufSize.toNat = m + 1 := by omega
  simp only [consumeItem, Shared.buffered, hm, size, List.range_succ, List.map_append,
    List.map_cons, List.map_nil, Int.toNat_natCast]
  congr 1
  refine List.map_congr_left fun i hi => ?_
  have below := List.mem_range.1 hi
  rw [Function.update_of_ne (by omega)]

end Updates

/-! ## Conservation -/

/-- Every item produced is in the buffer or consumed, once. -/
structure Conserved (p : Params) (s : Shared T) : Prop where
  size : 0 ≤ s.currBufSize
  item : 0 ≤ s.itemToProduce
  total : s.itemToProduce ≤ p.totalItems
  made : s.produced = items s.itemToProduce
  kept : (s.consumed ++ s.buffered).Perm (items s.itemToProduce)
  count : s.consumeCnt = s.consumed.length

namespace Conserved

variable {p : Params} {s : Shared T}

theorem currBufSize_eq (h : Conserved p s) : s.currBufSize = s.itemToProduce - s.consumeCnt := by
  have len := congrArg (Nat.cast (R := ℤ)) h.kept.length_eq
  rw [length_items h.item, List.length_append] at len
  have size := h.size
  simp only [Shared.buffered, List.length_map, List.length_range, Nat.cast_add,
    Int.natCast_toNat_eq_self.2 size] at len
  rw [h.count]
  omega

theorem produceItem (h : Conserved p s) (t : T) (more : s.itemToProduce < p.totalItems) :
    Conserved p (produceItem t s) where
  size := by
    have := h.size
    simp only [MasterWorker.produceItem]
    omega
  item := by
    have := h.item
    simp only [MasterWorker.produceItem]
    omega
  total := by simpa [MasterWorker.produceItem] using Int.add_one_le_of_lt more
  made := by
    rw [produced_produceItem, h.made, MasterWorker.produceItem, items_succ h.item]
  kept := by
    rw [consumed_produceItem, buffered_produceItem t h.size, ← List.append_assoc,
      MasterWorker.produceItem, items_succ h.item]
    exact h.kept.append_right _
  count := by
    rw [consumed_produceItem]
    exact h.count

theorem consumeItem (h : Conserved p s) (t : T) (some_left : 0 < s.currBufSize) :
    Conserved p (consumeItem t s) where
  size := by
    simp only [MasterWorker.consumeItem]
    omega
  item := h.item
  total := h.total
  made := by
    rw [produced_consumeItem]
    exact h.made
  kept := by
    have kept := h.kept
    rw [buffered_consumeItem t some_left] at kept
    rw [consumed_consumeItem, List.append_assoc]
    exact (List.perm_append_comm.append_left _).trans kept
  count := by
    rw [consumed_consumeItem, List.length_append]
    simp [MasterWorker.consumeItem, h.count]

theorem initial (htotal : 0 ≤ p.totalItems) (buffer : ℤ → ℤ) (isMaster : T → Bool) :
    Conserved p (initial buffer isMaster).shared where
  size := le_rfl
  item := le_rfl
  total := htotal
  made := rfl
  kept := .refl _
  count := rfl

variable [DecidableEq T]

theorem step {d : Discipline} {x y : Config T (Shared T) Point Cond} {a : Label T}
    (h : Conserved p x.shared) (taken : Step d (prog p) x a y) : Conserved p y.shared := by
  cases taken with
  | spurious => exact h
  | @sect t k th z enters told exits =>
    have does := does_prog p t x.shared k
    generalize prog p t k x.shared = o at *
    cases does with
    | produces _ more _ => exact h.produceItem t more
    | consumes _ some_left => exact h.consumeItem t some_left
    | full | masterEnds | empty | workerEnds | skips => exact h

end Conserved

/-! ## Where the threads stand -/

/-- Masters run the sections of `generate_requests_loop`, sleep on `produce` and return once all
items are produced; workers run those of `consume_requests_loop`, sleep on `consume` and return
once all items are consumed. -/
structure Placed (p : Params) (isMaster : T → Bool) (x : Config T (Shared T) Point Cond) : Prop where
  roles : ∀ t k, (x.thread t).control = some k → k.master = isMaster t
  sleeps : ∀ t c k, x.thread t = .blocked c k → c = if isMaster t then .produce else .consume
  masters : ∀ t, isMaster t = true → x.thread t = .returned → p.totalItems ≤ x.shared.itemToProduce
  workers : ∀ t, isMaster t = false → x.thread t = .returned → x.shared.consumeCnt = p.totalItems

namespace Placed

variable {p : Params} {isMaster : T → Bool}

theorem initial (buffer : ℤ → ℤ) : Placed p isMaster (initial buffer isMaster) where
  roles t k h := by
    cases role : isMaster t <;> simp [MasterWorker.initial, role, Thread.control] at h <;>
      subst h <;> rfl
  sleeps t c k h := by simp [MasterWorker.initial] at h
  masters t _ h := by simp [MasterWorker.initial] at h
  workers t _ h := by simp [MasterWorker.initial] at h

variable {x : Config T (Shared T) Point Cond}

theorem entry_role (placed : Placed p isMaster x) {t : T} {k : Point}
    (enters : (x.thread t).entry = some k) : k.master = isMaster t := by
  apply placed.roles t k
  rcases Thread.entry_eq_some.1 enters with hk | hk <;> simp [hk, Thread.control]

variable [DecidableEq T] {d : Discipline} {t : T} {th : T → Thread Point Cond}
  {l : List (Notice Cond)} {z : Thread Point Cond} {s : Shared T}

/-- It is enough to look at the thread that ran the section, and at how the counters moved. -/
theorem of_sect (placed : Placed p isMaster x) (told : Notified d x.thread l th)
    (role : ∀ k, z.control = some k → k.master = isMaster t)
    (sleep : ∀ c k, z = .blocked c k → c = if isMaster t then .produce else .consume)
    (items : p.totalItems ≤ x.shared.itemToProduce ∨ isMaster t = true ∧ z = .returned →
      p.totalItems ≤ s.itemToProduce)
    (count : x.shared.consumeCnt = p.totalItems ∨ isMaster t = false ∧ z = .returned →
      s.consumeCnt = p.totalItems) :
    Placed p isMaster ⟨s, Function.update th t z⟩ := by
  have before {u : T} (hu : th u = .returned) : x.thread u = .returned := by
    rcases told.cases u with same | ⟨c, k, -, hw⟩
    · rw [← same, hu]
    · rw [hu] at hw
      cases hw
  refine ⟨fun u => ?_, fun u => ?_, fun u => ?_, fun u => ?_⟩ <;> dsimp only <;>
    by_cases same : u = t <;> simp only [same, Function.update_self, ne_eq, not_false_eq_true,
      Function.update_of_ne]
  · exact role
  · rw [told.control]
    exact placed.roles u
  · exact sleep
  · intro c k hb
    rw [told.eq_of_blocked (by simp [hb])] at hb
    exact placed.sleeps u c k hb
  · exact fun master hz => items (.inr ⟨master, hz⟩)
  · exact fun master hu => items (.inl (placed.masters u master (before hu)))
  · exact fun worker hz => count (.inr ⟨worker, hz⟩)
  · exact fun worker hu => count (.inl (placed.workers u worker (before hu)))

theorem step {y : Config T (Shared T) Point Cond} {a : Label T} (placed : Placed p isMaster x)
    (conserved : Conserved p x.shared) (taken : Step d (prog p) x a y) :
    Placed p isMaster y := by
  cases taken with
  | @spurious t c k allowed waiting =>
    have control : (x.thread t).control = some k := by rw [waiting]; rfl
    refine placed.of_sect (.nil (d := d) _) ?_ (by simp) (by simp) (by simp)
    intro k' hk'
    cases hk'
    exact placed.roles t k control
  | @sect t k th z enters told exits =>
    have role := placed.entry_role enters
    have does := does_prog p t x.shared k
    have size := conserved.currBufSize_eq
    have total := conserved.total
    generalize prog p t k x.shared = o at *
    cases does with
    | full | produces | masterEnds | empty | consumes | workerEnds | skips =>
      simp only [Exit.threads, List.map_cons, List.map_nil, List.mem_singleton] at exits
      subst exits
      apply placed.of_sect told <;> simp_all [Thread.control, Point.master, produceItem, consumeItem]
        <;> omega

end Placed

section Runs

variable {p : Params} {isMaster : T → Bool} {buffer : ℤ → ℤ} {d : Discipline}
  {l : List (Event (Config T (Shared T) Point Cond) (Label T))}
  {x : Config T (Shared T) Point Cond}

/-- When all threads have returned, no item is left to produce or to consume. -/
theorem counters_of_returned (conserved : Conserved p x.shared) (placed : Placed p isMaster x)
    (master : ∃ t, isMaster t = true) (worker : ∃ t, isMaster t = false)
    (ended : ∀ t, x.thread t = .returned) :
    x.shared.itemToProduce = p.totalItems ∧ x.shared.currBufSize = 0 := by
  obtain ⟨m, hm⟩ := master
  obtain ⟨w, hw⟩ := worker
  have made := placed.masters m hm (ended m)
  have used := placed.workers w hw (ended w)
  have total := conserved.total
  have size := conserved.currBufSize_eq
  omega

variable [DecidableEq T]

theorem conserved_placed_of_run (htotal : 0 ≤ p.totalItems)
    (run : Run (Step d (prog p)) (initial buffer isMaster) l x) :
    Conserved p x.shared ∧ Placed p isMaster x :=
  run.invariant (P := fun x => Conserved p x.shared ∧ Placed p isMaster x)
    ⟨.initial htotal buffer isMaster, .initial buffer⟩
    fun _ _ _ h taken => ⟨h.1.step taken, h.2.step h.1 taken⟩

/-- Under every schedule, with or without spurious wake-ups: the items produced are `0, 1, …` in
order; the consumed items and the buffer hold each of them once; the counters are right; and when
all threads have returned, every item up to `total_items` was produced once and consumed once. -/
theorem conservation (p : Params) (htotal : 0 ≤ p.totalItems) (buffer : ℤ → ℤ)
    (isMaster : T → Bool) (master : ∃ t, isMaster t = true) (worker : ∃ t, isMaster t = false)
    (d : Discipline) (run : Run (Step d (prog p)) (initial buffer isMaster) l x) :
    x.shared.produced = items x.shared.itemToProduce ∧
    (x.shared.consumed ++ x.shared.buffered).Perm (items x.shared.itemToProduce) ∧
    (x.shared.consumed ++ x.shared.buffered).Nodup ∧
    x.shared.consumeCnt = x.shared.consumed.length ∧
    x.shared.itemToProduce ≤ p.totalItems ∧
    ((∀ t, x.thread t = .returned) → ∀ i, 0 ≤ i → i < p.totalItems →
      x.shared.produced.count i = 1 ∧ x.shared.consumed.count i = 1) := by
  obtain ⟨conserved, placed⟩ := conserved_placed_of_run htotal run
  refine ⟨conserved.made, conserved.kept, conserved.kept.nodup_iff.2 (items_nodup _),
    conserved.count, conserved.total, fun ended i hi hlt => ?_⟩
  obtain ⟨made, size⟩ := counters_of_returned conserved placed master worker ended
  have member : i ∈ items p.totalItems := mem_items.2 ⟨hi, hlt⟩
  have once : (items p.totalItems).count i = 1 :=
    List.count_eq_one_of_mem (items_nodup _) member
  have used : x.shared.consumed.Perm (items p.totalItems) := by
    simpa [Shared.buffered, size, made] using conserved.kept
  exact ⟨by rw [conserved.made, made, once], by rw [used.count_eq, once]⟩

/-- Two masters and a worker with a buffer for one item. Each master produces an item, and waits once
for the worker to consume the item of the other. -/
def twoMasters : List (Move (Fin 3)) :=
  [⟨0, [], 0⟩, ⟨1, [], 0⟩, ⟨2, [1], 0⟩, ⟨1, [], 0⟩, ⟨0, [], 0⟩, ⟨2, [0], 0⟩, ⟨0, [], 0⟩, ⟨1, [], 0⟩,
    ⟨2, [], 0⟩]

theorem conservation_twoMasters :
    ∃ l x, Run (Step ⟨true, true⟩ (prog ⟨2, 1⟩)) (initial (fun _ => 7) fun t : Fin 3 => t ≠ 2) l x ∧
      l.length = 9 ∧ (∀ t, x.thread t = .returned) ∧ ∀ i, 0 ≤ i → i < 2 →
        x.shared.produced.count i = 1 ∧ x.shared.consumed.count i = 1 := by
  obtain ⟨l, x, run, steps, ended⟩ := exists_run_of_schedule ⟨true, true⟩ (prog ⟨2, 1⟩)
    (initial (fun _ => 7) fun t : Fin 3 => t ≠ 2) twoMasters
    (P := fun r => r.1.length = 9 ∧ ∀ t, r.2.thread t = .returned) (by decide +kernel)
  have all := conservation ⟨2, 1⟩ (by decide) _ _ ⟨0, by decide⟩ ⟨2, by decide⟩ _ run
  exact ⟨l, x, run, steps, ended, all.2.2.2.2.2 ended⟩

end Runs

/-! ## The bound -/

/-- The used part of the buffer lies in the allocated array. -/
def Bounded (p : Params) (s : Shared T) : Prop := 0 ≤ s.currBufSize ∧ s.currBufSize ≤ p.maxBufSize

/-- In this step no woken master that still has an item to produce finds the buffer full. -/
def FindsRoom (p : Params) (e : Event (Config T (Shared T) Point Cond) (Label T)) : Prop :=
  ∀ t, e.label = .sect t → (e.before.thread t).entry = some .generateWoken →
    e.before.shared.itemToProduce < p.totalItems → e.before.shared.currBufSize < p.maxBufSize

variable [DecidableEq T] {p : Params} {d : Discipline}

/-- From a bounded buffer, a step keeps the bound exactly when a woken master finds room. -/
theorem bounded_step_iff {x y : Config T (Shared T) Point Cond} {a : Label T}
    (bounded : Bounded p x.shared) (taken : Step d (prog p) x a y) :
    Bounded p y.shared ↔ FindsRoom p ⟨x, a, y⟩ := by
  cases taken with
  | spurious => exact iff_of_true bounded fun t h => by cases h
  | @sect t k th z enters told exits =>
    have does := does_prog p t x.shared k
    simp only [FindsRoom, Label.sect.injEq, forall_eq', enters, Option.some.injEq]
    generalize prog p t k x.shared = o at *
    obtain ⟨low, high⟩ := bounded
    cases does with
    | full => exact iff_of_true ⟨low, high⟩ (by simp)
    | masterEnds _ done => exact iff_of_true ⟨low, high⟩ fun _ more => absurd more (not_lt.2 done)
    | skips => exact iff_of_true ⟨low, high⟩ (by simp)
    | empty hk | workerEnds hk => exact iff_of_true ⟨low, high⟩ (by rintro rfl; cases hk)
    | consumes hk some_left =>
      refine iff_of_true ?_ (by rintro rfl; cases hk)
      simp only [Bounded, consumeItem]
      omega
    | produces hk more room =>
      simp only [Bounded, produceItem]
      cases k <;> simp [Point.master] at hk <;> simp at room ⊢ <;> omega

/-- The buffer stays in its array in all states of a run exactly when every master that comes back
from `pthread_cond_wait` with an item to produce finds the buffer not full. -/
theorem bounded_iff_findsRoom (p : Params) (hmax : 1 ≤ p.maxBufSize) (buffer : ℤ → ℤ)
    (isMaster : T → Bool) (d : Discipline)
    {l : List (Event (Config T (Shared T) Point Cond) (Label T))}
    {x : Config T (Shared T) Point Cond}
    (run : Run (Step d (prog p)) (initial buffer isMaster) l x) :
    (∀ e ∈ l, Bounded p e.after.shared) ↔ ∀ e ∈ l, FindsRoom p e :=
  run.forall_after_iff (I := fun _ => True) (P := fun x => Bounded p x.shared) trivial
    ⟨le_rfl, by simp only [initial]; omega⟩ (fun _ _ _ _ _ => trivial)
    (fun _ _ _ _ bounded taken => bounded_step_iff bounded taken)

/-- Two masters share a buffer of one cell with a worker.  The first finds it full and waits; the
worker empties it and signals; the second fills it before the first is back. -/
def bargingMaster {T : Type} (first second worker : T) : List (Move T) :=
  [⟨first, [], 0⟩, ⟨first, [], 0⟩, ⟨worker, [first], 0⟩, ⟨second, [], 0⟩, ⟨first, [], 0⟩]

/-- The run of `bargingMaster` up to the return of the woken master. -/
theorem bounded_iff_findsRoom_bargingMaster :
    ∃ l x, Run (Step .strict (prog ⟨3, 1⟩)) (initial (fun _ => 0) fun t : Fin 3 => t ≠ 2) l x ∧
      x.shared.currBufSize = 1 ∧
      ((∀ e ∈ l, Bounded ⟨3, 1⟩ e.after.shared) ↔ ∀ e ∈ l, FindsRoom ⟨3, 1⟩ e) := by
  have ends : (((bargingMaster (0 : Fin 3) 1 2).take 4).foldlM (exec (prog ⟨3, 1⟩))
      (initial (fun _ => 0) fun t => t ≠ 2)).map (·.shared.currBufSize) = some 1 := by decide
  obtain ⟨x, hx, size⟩ := Option.map_eq_some_iff.1 ends
  obtain ⟨l, run⟩ := run_of_exec .strict _ _ hx
  exact ⟨l, x, run, size, bounded_iff_findsRoom _ (by decide) _ _ _ run⟩

/-- The second item goes one cell past the end of the buffer. -/
theorem bounded_fails_bargingMaster :
    ¬ ∀ x, Reachable (Step .strict (prog ⟨3, 1⟩))
      (initial (fun _ => 0) fun t : Fin 3 => t ≠ 2) x → Bounded ⟨3, 1⟩ x.shared := by
  intro holds
  have ends : ((bargingMaster (0 : Fin 3) 1 2).foldlM (exec (prog ⟨3, 1⟩))
      (initial (fun _ => 0) fun t => t ≠ 2)).map (·.shared.currBufSize) = some 2 := by decide
  obtain ⟨x, hx, size⟩ := Option.map_eq_some_iff.1 ends
  have bounded := holds x (run_of_exec .strict _ _ hx)
  exact absurd bounded.2 (by simp only [size]; decide)

end SsuOs.MasterWorker
