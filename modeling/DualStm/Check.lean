import DualStm.Barrier
import DualStm.Closures

/-!
# `WorkloadBank::check`

The test at the end of the grading: the workers take turns in counting a shared word
down. Worker 0 stores how often all of them will do so; each worker then reads the word
in one transaction and lowers it in the next one, unless it finds more than it has just
read; at the end worker 0 reads zero, or somebody is to blame. The barrier stands between
the three parts, and on the way out with an error.

A worker is at a statement, `CheckPc`; in a transaction it has what is left of its
closure as well. Its steps are those of the barrier and those of the library.
-/

namespace DualStm

/-- The statement of `check` that a worker is at. -/
inductive CheckPc where
  /-- the first `barrier.sync()` -/
  | meet
  /-- the transaction that stores `init_counter` -/
  | store
  /-- the one that reads it again -/
  | verify
  /-- the second `barrier.sync()` -/
  | assemble
  /-- the transaction that fetches `last`, at `i` of the loop -/
  | fetch (i : ℕ)
  /-- the one that decreases the counter -/
  | decrease (i last : ℕ)
  /-- the third `barrier.sync()` -/
  | part
  /-- the transaction that reads zero -/
  | finish
  /-- a `barrier.sync()` on the way out, with `more` of them to come -/
  | bail (more : ℕ) (error : String)
  /-- the worker has returned -/
  | returned (error : Option String)
  deriving DecidableEq

/-- A worker in `check`: its program counter, and what is left of the transaction it is in. -/
structure Checker where
  /-- where it is -/
  pc : CheckPc
  /-- past the `tm_begin` of a transaction: what is left of the closure -/
  rest : Option (Closure CheckPc)

/-- What happened in a step of `check`. -/
inductive CheckReport (n : ℕ) where
  /-- at the barrier -/
  | sync (e : BarrierEvent (Fin n))
  /-- a step of the library -/
  | library (e : Event (Fin n) ℤ)
  deriving DecidableEq

/-- The workload and its `nbworkers` workers in `check`. -/
structure Checkers (n : ℕ) where
  /-- the library -/
  state : State (Fin n) ℤ
  /-- `barrier` -/
  barrier : Barrier (Fin n)
  /-- the workers -/
  checker : Fin n → Checker

namespace Check

/-- The `nbtxperwrk` of `check`, how many transactions each worker does. -/
def nbtxperwrk : ℕ := 100

/-- `init_counter`, a `size_t`: the number of all transactions, from which the counter goes
down. -/
def initCounter (nbworkers : ℕ) : ℕ := nbtxperwrk * nbworkers % 2 ^ 64

def violatedInit : String := "Violated consistency during initialization"

def violatedTurn : String := "Violated consistency, isolation or atomicity"

def violatedEnd : String := "Violated consistency"

/-- The head of the loop: another transaction, or the end of the worker's part. -/
def loopHead (i : ℕ) : CheckPc := if i < nbtxperwrk then .fetch i else .part

/-- The statement after a `barrier.sync()`. -/
def afterSync (uid : ℕ) : CheckPc → Option CheckPc
  | .meet => some (if uid = 0 then .store else .assemble)
  | .assemble => some (loopHead 0)
  | .part => some (if uid = 0 then .finish else .returned none)
  | .bail (more + 1) error => some (.bail more error)
  | .bail 0 error => some (.returned (some error))
  | _ => none

/-- The transaction of a statement: its mode, and its closure with what follows on the
value it returns. -/
def transaction (nbworkers start : ℕ) : CheckPc → Option (Bool × Closure CheckPc)
  | .store => some (false, do
    Shared.write start (initCounter nbworkers)
    return .verify)
  | .verify => some (true, do
    let counter ← Shared.readSize start
    return if counter = initCounter nbworkers then .assemble else .bail 1 violatedInit)
  | .fetch i => some (true, do
    let last ← Shared.readSize start
    return .decrease i last)
  | .decrease i last => some (false, do
    let value ← Shared.readSize start
    if value > last then return .bail 0 violatedTurn
    else
      Shared.write start (decrement value)
      return loopHead (i + 1))
  | .finish => some (true, do
    let counter ← Shared.readSize start
    return .returned (if counter = 0 then none else some violatedEnd))
  | _ => none

end Check

namespace Checkers

variable {n : ℕ}

/-- Worker `u` is where `w` says, and the others are where they were. -/
def setChecker (c : Checkers n) (u : Fin n) (w : Checker) : Checkers n :=
  { c with checker := Function.update c.checker u w }

/-- A worker, after what came of its closure. -/
def resume (w : Checker) : ClosureOutcome Unit CheckPc → Checker
  | .goes p => { w with rest := some p }
  | .again => { w with rest := none }
  | .done pc => ⟨pc, none⟩

/-- What a step of the library means for the worker that did it. -/
def after (w : Checker) (closure : Closure CheckPc) (e : Event (Fin n) ℤ) : Checker :=
  match w.rest with
  | none => if e = .silent then { w with rest := some closure } else w
  | some p => resume w (goOn p e)

/-- A step of the library in the transaction of a worker, and where the worker is after it. -/
def library (c : Checkers n) (u : Fin n) (closure : Closure CheckPc) (a : Action (Fin n) ℤ) :
    Option (Checkers n × CheckReport n) :=
  (c.state.step a).map fun (s', e) =>
    ({ c.setChecker u (after (c.checker u) closure e) with state := s' }, .library e)

/-- A step of a worker at the barrier. -/
def meet (c : Checkers n) (u : Fin n) (next : CheckPc) : Checkers n × CheckReport n :=
  let (b, e) := c.barrier.sync u
  let c' := { c with barrier := b }
  (if e = .returned u then c'.setChecker u ⟨next, none⟩ else c', .sync e)

/-- The next step of a worker, by its program counter. -/
def step (start : ℕ) (c : Checkers n) (u : Fin n) : Option (Checkers n × CheckReport n) :=
  match Check.afterSync u (c.checker u).pc, Check.transaction n start (c.checker u).pc with
  | some next, _ => some (c.meet u next)
  | none, some (isRo, closure) =>
    match (c.checker u).rest with
    | none => c.library u closure (openAction c.state u isRo)
    | some p => (callAction c.state u p).bind (c.library u closure)
  | none, none => none

end Checkers

end DualStm
