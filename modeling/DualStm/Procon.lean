import DualStm.Library.Progress
import DualStm.Library.Ring
import Mathlib.Data.Fintype.Basic

/-!
# A producer and a consumer

`procon3.c` and `procon4.c` of the examples: a producer fills a ring of `BUFFER_SIZE` slots,
a consumer empties it, and `main` compares what was produced with what was consumed. In the
first one they look at each other's counter before each item, in the second one they use a
lock and sleep on its condition variable. What they do with an item is the same in both,
`Side.work`; the programs differ in how they get there, and they are taken apart into their
atomic accesses, an assignment of a `struct data` into its bytes.

`RUNS`, `DATA_TEXT_SIZE` and `BUFFER_SIZE` are parameters, and the counters are natural numbers:
they and what they are compared with are at most `RUNS + BUFFER_SIZE`, which has to fit an `int`.
The accesses come one after the other: the memory orders that `procon3.c` gives its atomic
operations make no difference here.
-/

namespace DualStm

/-- The two threads, `produce` and `consume`. -/
inductive Side where
  | producer
  | consumer
  deriving DecidableEq

instance : Fintype Side := ⟨{.producer, .consumer}, fun side => by cases side <;> decide⟩

/-- The other one of the two threads. -/
def Side.other : Side → Side
  | .producer => .consumer
  | .consumer => .producer

/-- What a thread does with an item next. -/
inductive Work where
  /-- `produced[r].text[i] = rand()` -/
  | fill (i : ℕ)
  /-- byte `i` of the assignment from or to the buffer -/
  | copy (i : ℕ)
  /-- the increment of its counter -/
  | count
  deriving DecidableEq

namespace Work

/-- The assignment of an item, from byte `i` on. -/
def copying (len i : ℕ) : Work := if i < len then .copy i else .count

/-- The loop that fills the item, from `i` on. -/
def filling (len i : ℕ) : Work := if i < len then .fill i else copying len 0

end Work

namespace Side

variable {V : Type}

/-- The condition under which a thread goes on with item `r`. -/
def mayGoOn (n : ℕ) (b : Ring V) (r : ℕ) : Side → Bool
  | .producer => b.consumedUntil + n > r
  | .consumer => b.producedUntil > r

/-- What a thread does first with an item. -/
def first (len : ℕ) : Side → Work
  | .producer => .filling len 0
  | .consumer => .copying len 0

/-- What a thread does with item `r`, and what is left to do with it. What `rand` returns is
`v`. -/
def work (len n : ℕ) (b : Ring V) (r : ℕ) (v : V) : Side → Work → Option (Ring V × Option Work)
  | .producer, .fill i => some ({ b with produced := Ring.write b.produced r i v },
      some (.filling len (i + 1)))
  | .consumer, .fill _ => none
  | .producer, .copy i =>
    some ({ b with buffer := Ring.write b.buffer (r % n) i (b.produced r i) },
      some (.copying len (i + 1)))
  | .consumer, .copy i =>
    some ({ b with consumed := Ring.write b.consumed r i (b.buffer (r % n) i) },
      some (.copying len (i + 1)))
  | .producer, .count => some ({ b with producedUntil := b.producedUntil + 1 }, none)
  | .consumer, .count => some ({ b with consumedUntil := b.consumedUntil + 1 }, none)

end Side

/-- `are_same`: the first `len` bytes of two items are the same. -/
def areSame {V : Type} [DecidableEq V] (len : ℕ) (a b : ℕ → V) : Bool :=
  (List.range len).all fun i => a i = b i

/-- What `main` finds at the end: everything produced is equal to what was consumed. -/
def looksCorrect {V : Type} [DecidableEq V] (runs len : ℕ) (b : Ring V) : Bool :=
  (List.range runs).all fun r => areSame len (b.produced r) (b.consumed r)

/-- What a thread does next: the environment decides who goes on, and what `rand` returns. -/
structure ProconAction (V : Type) where
  /-- the thread that goes on -/
  side : Side
  /-- what `rand` returns -/
  rand : V

/-! ## `procon3.c`

Both threads spin on the counter of the other one before they go on with an item. A step is one
load of a counter or one access to an item. -/

namespace Procon3

variable {V : Type}

/-- The access that a thread makes next. -/
inductive Pc where
  /-- a load of the loop -/
  | load
  /-- the next access to its item -/
  | item (w : Work)
  /-- none -/
  | exited
  deriving DecidableEq

/-- Everything shared, and the threads with their loop variables. -/
structure State (V : Type) where
  /-- the arrays and the counters -/
  ring : Ring V
  /-- the loop variables -/
  r : Side → ℕ
  /-- where the threads are -/
  pc : Side → Pc

/-- The head of the `for` loop: another item, or the end of the thread. -/
def next (runs r : ℕ) : Pc := if r < runs then .load else .exited

/-- `produce` and `consume`, and a step of either. -/
def thread (runs len n : ℕ) (s : State V) (side : Side) (v : V) : Option (State V × Side) :=
  match s.pc side with
  | .load =>
    if side.mayGoOn n s.ring (s.r side) = true then
      some ({ s with pc := Function.update s.pc side (.item (side.first len)) }, side)
    else some (s, side)
  | .item w =>
    (side.work len n s.ring (s.r side) v w).map fun
      | (b, some w') =>
        ({ s with ring := b, pc := Function.update s.pc side (.item w') }, side)
      | (b, none) =>
        ({ ring := b
           r := Function.update s.r side (s.r side + 1)
           pc := Function.update s.pc side (next runs (s.r side + 1)) }, side)
  | .exited => none

/-- A step of `produce`. -/
def produce (runs len n : ℕ) (s : State V) (v : V) : Option (State V × Side) :=
  thread runs len n s .producer v

/-- A step of `consume`. -/
def consume (runs len n : ℕ) (s : State V) (v : V) : Option (State V × Side) :=
  thread runs len n s .consumer v

/-- The transition function of `procon3.c`: a step of either thread. -/
def step (runs len n : ℕ) (s : State V) (a : ProconAction V) : Option (State V × Side) :=
  match a.side with
  | .producer => produce runs len n s a.rand
  | .consumer => consume runs len n s a.rand

/-- The threads have been created, and nothing has been done yet. What is in the arrays is
`v`. -/
def create (runs : ℕ) (v : V) : State V where
  ring := ⟨fun _ _ => v, fun _ _ => v, fun _ _ => v, 0, 0⟩
  r := fun _ => 0
  pc := fun _ => next runs 0

/-- A load that finds that the thread may not go on. -/
def spins (n : ℕ) (s : State V) (a : ProconAction V) : Bool :=
  s.pc a.side == .load && !a.side.mayGoOn n s.ring (s.r a.side)

/-- The steps of the threads, but for the loads that find nothing new. -/
def stride (runs len n : ℕ) (s : State V) (a : ProconAction V) : Option (State V × Side) :=
  if spins n s a = true then none else step runs len n s a

end Procon3

/-! ## `procon4.c`

The same two threads, with a lock and a condition variable: who may not go on sleeps, and who
has gone on wakes the other. -/

namespace Procon4

variable {V : Type}

/-- The access that a thread makes next. -/
inductive Pc where
  /-- `lock_acquire` -/
  | acquire
  /-- the condition -/
  | test
  /-- `lock_wait`: releases the lock and sleeps -/
  | wait
  /-- none: the thread sleeps -/
  | asleep
  /-- the lock again, after it has been woken up -/
  | woken
  /-- the next access to its item -/
  | item (w : Work)
  /-- `lock_release` -/
  | release
  /-- `lock_wake_up` -/
  | wakeUp
  /-- none -/
  | exited
  deriving DecidableEq

/-- Everything shared, and the threads with their loop variables. -/
structure State (V : Type) where
  /-- the arrays and the counters -/
  ring : Ring V
  /-- who holds the lock -/
  lock : Option Side
  /-- the loop variables -/
  r : Side → ℕ
  /-- where the threads are -/
  pc : Side → Pc

namespace State

/-- A thread goes on to another access. -/
def goTo (s : State V) (side : Side) (p : Pc) : State V :=
  { s with pc := Function.update s.pc side p }

end State

/-- The head of the `for` loop: another item, or the end of the thread. -/
def next (runs r : ℕ) : Pc := if r < runs then .acquire else .exited

/-- A thread that sleeps wakes up, and any other stays as it is. -/
def Pc.wake : Pc → Pc
  | .asleep => .woken
  | p => p

/-- `produce` and `consume`, and a step of either. -/
def thread (runs len n : ℕ) (s : State V) (side : Side) (v : V) : Option (State V × Side) :=
  match s.pc side with
  | .acquire | .woken =>
    if s.lock = none then some ({ s with lock := some side }.goTo side .test, side) else none
  | .test =>
    if side.mayGoOn n s.ring (s.r side) = true then
      some (s.goTo side (.item (side.first len)), side)
    else some (s.goTo side .wait, side)
  | .wait => some ({ s with lock := none }.goTo side .asleep, side)
  | .asleep => none
  | .item w =>
    (side.work len n s.ring (s.r side) v w).map fun
      | (b, some w') => ({ s with ring := b }.goTo side (.item w'), side)
      | (b, none) => ({ s with ring := b }.goTo side .release, side)
  | .release => some ({ s with lock := none }.goTo side .wakeUp, side)
  | .wakeUp =>
    some ({ s with
      r := Function.update s.r side (s.r side + 1)
      pc := Function.update (fun u => (s.pc u).wake) side (next runs (s.r side + 1)) }, side)
  | .exited => none

/-- A step of `produce`. -/
def produce (runs len n : ℕ) (s : State V) (v : V) : Option (State V × Side) :=
  thread runs len n s .producer v

/-- A step of `consume`. -/
def consume (runs len n : ℕ) (s : State V) (v : V) : Option (State V × Side) :=
  thread runs len n s .consumer v

/-- What may happen next: a step of a thread, or a wait that ends by itself. -/
inductive Action (V : Type) where
  /-- a thread goes on -/
  | thread (a : ProconAction V)
  /-- `pthread_cond_wait` returns without a reason -/
  | spurious (side : Side)

/-- What the threads do of themselves. -/
def stride (runs len n : ℕ) (s : State V) (a : ProconAction V) : Option (State V × Side) :=
  match a.side with
  | .producer => produce runs len n s a.rand
  | .consumer => consume runs len n s a.rand

/-- The transition function of `procon4.c`: a step of either thread, or a wait that ends by
itself. -/
def step (runs len n : ℕ) (s : State V) : Action V → Option (State V × Side)
  | .thread a => stride runs len n s a
  | .spurious side =>
    if s.pc side = .asleep then some (s.goTo side .woken, side) else none

/-- The threads have been created, and nothing has been done yet. What is in the arrays is
`v`. -/
def create (runs : ℕ) (v : V) : State V where
  ring := ⟨fun _ _ => v, fun _ _ => v, fun _ _ => v, 0, 0⟩
  lock := none
  r := fun _ => 0
  pc := fun _ => next runs 0

end Procon4

end DualStm
