import DualStm.Scheduling
import DualStm.Transactions

/-!
# The workload on the transactional memory

The threads of the bank workload, each running transactions through
`transactional`, on the library of `System`. A thread is a `Worker` beside the
state of the library: the closure it has called with its captured variables, and
what is left to do of it. A library call is made when the program comes to an
operation; the program goes on when the call returns. After an abort the thread
calls `tm_begin` again, with the captured variables as they are.

The actions of the library are those of `State.step`. Which one comes next and what its
outcome means is the subject of `Scheduling`; a worker adds the turns of its loop and the
captured variables.
-/

namespace DualStm

variable {τ : Type}

/-- What is left of a closure: of the current turn of its loop. -/
abbrev Rest := Prog Tx ℤ (Locals ⊕ Option Bool)

/-- A thread of the workload: idle, in `tm_begin`, or in the loop of its closure. -/
inductive Worker where
  /-- between two transactions -/
  | idle
  /-- in `tm_begin`, or about to call it -/
  | beginning (tx : Tx)
  /-- in the closure -/
  | running (tx : Tx) (rest : Rest)

/-- The library and the threads that use it. -/
structure Clients (τ : Type) where
  /-- the library -/
  state : State τ ℤ
  /-- the threads -/
  worker : τ → Worker

/-- What may happen next: a thread takes up a transaction, or goes on in the one it has. -/
inductive Move (τ : Type) where
  /-- the thread calls `transactional` -/
  | start (t : τ) (tx : Tx)
  /-- the thread goes on -/
  | go (t : τ)

/-- What happened in a step of the workload. -/
inductive Report (τ : Type) where
  /-- a transaction was called -/
  | started (t : τ) (tx : Tx)
  /-- a thread did something of its own -/
  | turned (t : τ)
  /-- the library did a step -/
  | library (e : Event τ ℤ)
  /-- a step of the library after which the transaction returned a value -/
  | returned (t : τ) (tx : Tx) (r : Option Bool) (e : Event τ ℤ)
  deriving DecidableEq

/-- The step of the library that a report tells of, if it tells of one. -/
def Report.event? : Report τ → Option (Event τ ℤ)
  | .library e => some e
  | .returned _ _ _ e => some e
  | _ => none

/-- The history of the library, without what the workload does by itself. -/
def events (h : List (Report τ)) : List (Event τ ℤ) := h.filterMap Report.event?

/-- A worker, after what came of its closure. -/
def Worker.resume (tx : Tx) : ClosureOutcome Tx (Locals ⊕ Option Bool) → Worker
  | .goes rest => .running tx rest
  | .again => .beginning tx
  | .done _ => .idle

/-- What a step of the library means for the thread that did it. -/
def Worker.after (bank : WorkloadBank) : Worker → Event τ ℤ → Worker
  | .beginning tx, .silent => .running tx (turn bank (enter bank tx))
  | .running tx rest, e => .resume tx (goOn rest e)
  | w, _ => w

/-- What is reported of it: a transaction returns when its `tm_end` does. -/
def Worker.report (t : τ) : Worker → Event τ ℤ → Report τ
  | .running tx (.ret (.inr r)), .ended T last => .returned t tx r (.ended T last)
  | _, e => .library e

variable [DecidableEq τ]

namespace Clients

/-- Thread `t` is where `w` says, and the others are where they were. -/
def setWorker (p : Clients τ) (t : τ) (w : Worker) : Clients τ :=
  { p with worker := Function.update p.worker t w }

/-- A step of the library, for one of the threads. -/
def library (bank : WorkloadBank) (p : Clients τ) (t : τ) (a : Action τ ℤ) :
    Option (Clients τ × Report τ) :=
  (p.state.step a).map fun (s', e) =>
    (⟨s', Function.update p.worker t ((p.worker t).after bank e)⟩, (p.worker t).report t e)

/-- The transition function of the workload: a thread takes up a transaction, or does the next
step of the one it has. -/
def step (bank : WorkloadBank) (p : Clients τ) : Move τ → Option (Clients τ × Report τ)
  | .start t tx =>
    match p.worker t with
    | .idle => some (p.setWorker t (.beginning tx), .started t tx)
    | _ => none
  | .go t =>
    match p.worker t with
    | .idle => none
    | .beginning tx => p.library bank t (openAction p.state t tx.isRo)
    | .running _ (.save tx next) => some (p.setWorker t (.running tx next), .turned t)
    | .running tx (.ret (.inl l)) => some (p.setWorker t (.running tx (turn bank l)), .turned t)
    | .running _ rest => (callAction p.state t rest).bind (p.library bank t)

end Clients

end DualStm
