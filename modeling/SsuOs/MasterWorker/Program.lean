import SsuOs.Base.Monitor
import Mathlib.Data.Int.Order.Basic

/-!
# The master-worker program

Masters produce the items `0, 1, …` into a shared buffer that is used as a stack, and workers
consume them (`master-worker.c`).  Each loop body is cut at its calls of `pthread_cond_wait`: one
for masters, two for workers.  What a critical section can do is listed once, in `Does`.
-/

namespace SsuOs.MasterWorker

open Monitor

/-- The values read from the command line. -/
structure Params where
  totalItems : ℤ
  maxBufSize : ℤ

/-- A line of output. -/
inductive Line (T : Type*) where
  | produced (num : ℤ) (master : T)
  | consumed (num : ℤ) (worker : T)
  deriving Repr

/-- The shared variables and the output.  The buffer has a cell at every index; which cells were
allocated is the matter of `Bounded`. -/
structure Shared (T : Type*) where
  itemToProduce : ℤ
  currBufSize : ℤ
  consumeCnt : ℤ
  buffer : ℤ → ℤ
  output : List (Line T)

inductive Cond where
  | produce
  | consume
  deriving DecidableEq, Repr

/-- The critical sections: the start of an iteration of `generate_requests_loop` and its part after
the wait, then the same for `consume_requests_loop`, whose second wait is in `consumeSkipped`. -/
inductive Point where
  | generate
  | generateWoken
  | consume
  | consumeWoken
  | consumeSkipped
  deriving DecidableEq, Repr

/-- The sections of `generate_requests_loop`. -/
def Point.master : Point → Bool
  | generate | generateWoken => true
  | _ => false

variable {T : Type*} (p : Params) (t : T) (s : Shared T)

def produceItem : Shared T :=
  { s with
    buffer := Function.update s.buffer s.currBufSize s.itemToProduce
    currBufSize := s.currBufSize + 1
    output := s.output ++ [.produced s.itemToProduce t]
    itemToProduce := s.itemToProduce + 1 }

def consumeItem : Shared T :=
  { s with
    currBufSize := s.currBufSize - 1
    buffer := Function.update s.buffer (s.currBufSize - 1) (-1)
    consumeCnt := s.consumeCnt + 1
    output := s.output ++ [.consumed (s.buffer (s.currBufSize - 1)) t] }

def generateWoken : Outcome (Shared T) Point Cond :=
  if s.itemToProduce ≥ p.totalItems then ⟨s, [.broadcast .produce], .finish⟩
  else ⟨produceItem t s, [.signal .consume], .unlock [.generate]⟩

def generate : Outcome (Shared T) Point Cond :=
  if s.currBufSize ≥ p.maxBufSize then ⟨s, [], .wait .produce .generateWoken⟩
  else generateWoken p t s

/-- After the second wait nothing is consumed, and the signal is sent all the same. -/
def consumeSkipped : Outcome (Shared T) Point Cond :=
  ⟨s, [.signal .produce], .unlock [.consume]⟩

def consumeWoken : Outcome (Shared T) Point Cond :=
  if s.consumeCnt = p.totalItems then ⟨s, [.broadcast .consume], .finish⟩
  else if s.currBufSize ≤ 0 then ⟨s, [], .wait .consume .consumeSkipped⟩
  else ⟨consumeItem t s, [.signal .produce], .unlock [.consume]⟩

def consume : Outcome (Shared T) Point Cond :=
  if s.currBufSize ≤ 0 ∧ s.consumeCnt < p.totalItems then ⟨s, [], .wait .consume .consumeWoken⟩
  else consumeWoken p t s

def prog : Program T (Shared T) Point Cond := fun t k s =>
  match k with
  | .generate => generate p t s
  | .generateWoken => generateWoken p t s
  | .consume => consume p t s
  | .consumeWoken => consumeWoken p t s
  | .consumeSkipped => consumeSkipped s

/-- `main` after the creation of the threads: `buffer` is what `malloc` returned, and `isMaster`
tells the masters from the workers. -/
def initial (buffer : ℤ → ℤ) (isMaster : T → Bool) : Config T (Shared T) Point Cond :=
  ⟨⟨0, 0, 0, buffer, []⟩, fun t => .ready (if isMaster t then .generate else .consume)⟩

/-- What a critical section does, by the point it is entered at. -/
inductive Does : Point → Outcome (Shared T) Point Cond → Prop
  | full : p.maxBufSize ≤ s.currBufSize →
      Does .generate ⟨s, [], .wait .produce .generateWoken⟩
  | produces {k : Point} : k.master = true → s.itemToProduce < p.totalItems →
      (k = .generate → s.currBufSize < p.maxBufSize) →
      Does k ⟨produceItem t s, [.signal .consume], .unlock [.generate]⟩
  | masterEnds {k : Point} : k.master = true → p.totalItems ≤ s.itemToProduce →
      Does k ⟨s, [.broadcast .produce], .finish⟩
  | empty {k k' : Point} : k.master = false → k'.master = false → s.currBufSize ≤ 0 →
      s.consumeCnt ≠ p.totalItems → Does k ⟨s, [], .wait .consume k'⟩
  | consumes {k : Point} : k.master = false → 0 < s.currBufSize →
      Does k ⟨consumeItem t s, [.signal .produce], .unlock [.consume]⟩
  | workerEnds {k : Point} : k.master = false → s.consumeCnt = p.totalItems →
      Does k ⟨s, [.broadcast .consume], .finish⟩
  | skips : Does .consumeSkipped ⟨s, [.signal .produce], .unlock [.consume]⟩

theorem does_generateWoken {k : Point} (hk : k.master = true)
    (room : k = .generate → s.currBufSize < p.maxBufSize) :
    Does p t s k (generateWoken p t s) := by
  unfold generateWoken
  split_ifs with done
  · exact .masterEnds hk done
  · exact .produces hk (lt_of_not_ge done) room

theorem does_consumeWoken {k : Point} (hk : k.master = false) :
    Does p t s k (consumeWoken p t s) := by
  unfold consumeWoken
  split_ifs with done none_left
  · exact .workerEnds hk done
  · exact .empty hk rfl none_left done
  · exact .consumes hk (lt_of_not_ge none_left)

/-- Every section does one of the things listed in `Does`. -/
theorem does_prog (k : Point) : Does p t s k (prog p t k s) := by
  cases k with
  | generate =>
    dsimp only [prog]
    unfold generate
    split_ifs with full
    · exact .full full
    · exact does_generateWoken p t s rfl fun _ => lt_of_not_ge full
  | generateWoken => exact does_generateWoken p t s rfl (by simp)
  | consume =>
    dsimp only [prog]
    unfold consume
    split_ifs with none_left
    · exact .empty rfl rfl none_left.1 none_left.2.ne
    · exact does_consumeWoken p t s rfl
  | consumeWoken => exact does_consumeWoken p t s rfl
  | consumeSkipped => exact .skips

end SsuOs.MasterWorker
